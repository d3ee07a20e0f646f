import Csexp.Reader

/-!
# Parsing strings

`parse_string` and `parse_string_many` walk over a string by index and
jump over the bytes of an atom once its length is known. Both compute
what the byte-at-a-time readers report.
-/

namespace Csexp

open Incremental

def dataAfter : String := "data after canonical S-expression"

def feedEoiSingle (lexer : Lexer) (stack : Stack) : Eval (Result Sexp String) :=
  match (do lexer.feedEoi; stack.toList : Eval (List Sexp)) with
  | .error (.parseError msg) => .ok (.error msg)
  | .error e => .error e
  | .ok [x] => .ok (.ok x)
  | .ok [] => .ok (.error prematureEndOfInput)
  | .ok (_ :: _ :: _) => .error .assertFailure

def feedEoiMany (lexer : Lexer) (stack : Stack) : Eval (Result (List Sexp) String) :=
  match (do lexer.feedEoi; stack.toList : Eval (List Sexp)) with
  | .error (.parseError msg) => .ok (.error msg)
  | .error e => .error e
  | .ok l => .ok (.ok l)

/-- `one_token s pos len lexer stack k` ends in an error or in a tail call
of its continuation `k`; an `Ok` here holds the position, the lexer and
the stack that `k` is called with. -/
def oneToken (S : Sys) (s : Bytes) (pos len : ℕ) (lexer : Lexer) (stack : Stack) :
    Eval (Result (ℕ × Lexer × Stack) (ℕ × String)) :=
  match unsafeGet s pos with
  | .error e => .error e
  | .ok c =>
    match lexer.feed S c with
    | .error (.parseError msg) => .ok (.error (pos, msg))
    | .error e => .error e
    | .ok (.atom atomLen, lexer) =>
      match stringSub s (pos + 1) atomLen with
      | .error _ => .ok (.error (len, prematureEndOfInput))
      | .ok atom => .ok (.ok (pos + 1 + atomLen.toNat, lexer, stack.addAtom atom))
    | .ok (.other x, lexer) =>
      match stack.addToken x with
      | .error (.parseError msg) => .ok (.error (pos, msg))
      | .error e => .error e
      | .ok stack => .ok (.ok (pos + 1, lexer, stack))

/-- The index only grows, and it was inside the string. -/
theorem oneToken_lt {S : Sys} {s : Bytes} {pos len pos' : ℕ} {lexer lexer' : Lexer}
    {stack stack' : Stack}
    (h : oneToken S s pos len lexer stack = .ok (.ok (pos', lexer', stack'))) :
    pos < s.length ∧ pos < pos' := by
  unfold oneToken at h
  split at h
  · cases h
  · rename_i c hc
    have hpos : pos < s.length := (List.getElem?_eq_some_iff.mp (unsafeGet_eq_ok.mp hc)).1
    refine ⟨hpos, ?_⟩
    split at h
    · cases h
    · cases h
    · split at h
      · cases h
      · simp only [Except.ok.injEq, Prod.mk.injEq] at h
        omega
    · split at h
      · cases h
      · cases h
      · simp only [Except.ok.injEq, Prod.mk.injEq] at h
        omega

mutual

def parseString.loop (S : Sys) (s : Bytes) (pos len : ℕ) (lexer : Lexer) (stack : Stack) :
    Eval (Result Sexp (ℕ × String)) :=
  if pos = len then
    match feedEoiSingle lexer stack with
    | .error e => .error e
    | .ok (.error msg) => .ok (.error (pos, msg))
    | .ok (.ok x) => .ok (.ok x)
  else
    match _h : oneToken S s pos len lexer stack with
    | .error e => .error e
    | .ok (.error err) => .ok (.error err)
    | .ok (.ok (pos', lexer', stack')) => parseString.cont S s pos' len lexer' stack'
termination_by (s.length - pos, 0)
decreasing_by
  have hlt := oneToken_lt _h
  exact Prod.Lex.left _ _ (by omega)

def parseString.cont (S : Sys) (s : Bytes) (pos len : ℕ) (lexer : Lexer) (stack : Stack) :
    Eval (Result Sexp (ℕ × String)) :=
  match stack with
  | .sexp sexp .empty => if pos = len then .ok (.ok sexp) else .ok (.error (pos, dataAfter))
  | stack => parseString.loop S s pos len lexer stack
termination_by (s.length - pos, 1)
decreasing_by exact Prod.Lex.right _ Nat.zero_lt_one

end

/-- Before the end of the string, a turn of the loop reads one token. -/
theorem parseString.loop_of_ne {S : Sys} {s : Bytes} {pos len : ℕ} (h : pos ≠ len)
    (lexer : Lexer) (stack : Stack) : parseString.loop S s pos len lexer stack =
      match oneToken S s pos len lexer stack with
      | .error e => .error e
      | .ok (.error err) => .ok (.error err)
      | .ok (.ok (pos, lexer, stack)) => parseString.cont S s pos len lexer stack := by
  rw [parseString.loop, if_neg h]
  generalize oneToken S s pos len lexer stack = r
  rcases r with e | err | ⟨pos', lexer', stack'⟩ <;> rfl

def parseString (S : Sys) (s : Bytes) : Eval (Result Sexp (ℕ × String)) :=
  parseString.loop S s 0 s.length Lexer.create .empty

def parseStringMany.loop (S : Sys) (s : Bytes) (pos len : ℕ) (lexer : Lexer) (stack : Stack) :
    Eval (Result (List Sexp) (ℕ × String)) :=
  if pos = len then
    match feedEoiMany lexer stack with
    | .error e => .error e
    | .ok (.error msg) => .ok (.error (pos, msg))
    | .ok (.ok l) => .ok (.ok l)
  else
    match _h : oneToken S s pos len lexer stack with
    | .error e => .error e
    | .ok (.error err) => .ok (.error err)
    | .ok (.ok (pos', lexer', stack')) => parseStringMany.loop S s pos' len lexer' stack'
termination_by s.length - pos
decreasing_by
  have hlt := oneToken_lt _h
  omega

theorem parseStringMany.loop_of_ne {S : Sys} {s : Bytes} {pos len : ℕ} (h : pos ≠ len)
    (lexer : Lexer) (stack : Stack) : parseStringMany.loop S s pos len lexer stack =
      match oneToken S s pos len lexer stack with
      | .error e => .error e
      | .ok (.error err) => .ok (.error err)
      | .ok (.ok (pos, lexer, stack)) => parseStringMany.loop S s pos len lexer stack := by
  rw [parseStringMany.loop, if_neg h]
  generalize oneToken S s pos len lexer stack = r
  rcases r with e | err | ⟨pos', lexer', stack'⟩ <;> rfl

def parseStringMany (S : Sys) (s : Bytes) : Eval (Result (List Sexp) (ℕ × String)) :=
  parseStringMany.loop S s 0 s.length Lexer.create .empty

/-! ## The end of the input -/

theorem feedEoiMany_eq (lexer : Lexer) (stack : Stack) :
    feedEoiMany lexer stack = .ok (match (Config.mk lexer.phase stack).finish with
      | some xs => .ok xs
      | none => .error prematureEndOfInput) := by
  obtain ⟨state, n⟩ := lexer
  cases state with
  | parsingLength => rfl
  | init =>
      rcases Stack.exists_pushAll stack with ⟨xs, rfl⟩ | ⟨xs, t, rfl⟩
      · simp [feedEoiMany, Lexer.feedEoi, Config.finish, Except.toOption, bind, Except.bind]
      · simp [feedEoiMany, Lexer.feedEoi, Config.finish, Except.toOption, bind, Except.bind]

/-- An unfinished stack is never a complete input. -/
theorem feedEoiSingle_of_unfinished (lexer : Lexer) {stack : Stack} (h : stack.Unfinished) :
    feedEoiSingle lexer stack = .ok (.error prematureEndOfInput) := by
  obtain ⟨state, n⟩ := lexer
  cases state with
  | parsingLength => rfl
  | init =>
      rcases Stack.toList_of_unfinished h with hl | hl <;>
        simp [feedEoiSingle, Lexer.feedEoi, hl, bind, Except.bind]

/-! ## One token -/

/-- What `oneToken` does at position `pos` of `s`, told by a reader that
stands before the same byte in state `q`. -/
inductive TokenRead (P : Platform) (D : Scanner Config UInt8 String) (s : Bytes) (pos : ℕ)
    (q : Config) : Eval (Result (ℕ × Lexer × Stack) (ℕ × String)) → Prop where
  | failed {msg : String} (h : D.scan q (s.drop pos) = .failed 0 msg) :
      TokenRead P D s pos q (.ok (.error (pos, msg)))
  | short {m : ℕ} {got : Bytes}
      (h : D.scan q (s.drop pos) = .pending ⟨.atom m got, q.stack⟩) :
      TokenRead P D s pos q (.ok (.error (s.length, prematureEndOfInput)))
  | next (xs : Bytes) {pos' : ℕ} {lexer : Lexer} {stack : Stack} (hb : lexer.Bounded P.toSys)
      (hs : s.drop pos = xs ++ s.drop pos') (hpos : pos' = pos + xs.length)
      (hle : pos' ≤ s.length) (h : D.Reaches q xs ⟨lexer.phase, stack⟩) :
      TokenRead P D s pos q (.ok (.ok (pos', lexer, stack)))

theorem oneToken_reads (P : Platform) {D : Scanner Config UInt8 String}
    (hD : IsReader P.maxStringLength D) {s : Bytes} {pos : ℕ} (hpos : pos < s.length)
    {lexer : Lexer} (hb : lexer.Bounded P.toSys) {stack : Stack}
    (hq : D.stopped ⟨lexer.phase, stack⟩ = false) :
    TokenRead P D s pos ⟨lexer.phase, stack⟩
      (oneToken P.toSys s pos s.length lexer stack) := by
  have hget : unsafeGet s pos = .ok s[pos] :=
    unsafeGet_eq_ok.mpr (List.getElem?_eq_getElem hpos)
  have hdrop : s.drop pos = s[pos] :: s.drop (pos + 1) := List.drop_eq_getElem_cons hpos
  have hstep := feed_matches_step P hb stack s[pos]
  rw [← hD.step_eq] at hstep
  simp only [oneToken, hget]
  cases hf : lexer.feed P.toSys s[pos] with
  | error e =>
      obtain ⟨msg, rfl⟩ := Lexer.feed_error _ hf
      rw [hf] at hstep
      cases hc : D.step ⟨lexer.phase, stack⟩ s[pos] with
      | ok q' => simp [hc] at hstep; cases hstep
      | error e' =>
          rw [hc] at hstep
          cases hstep
          apply TokenRead.failed
          rw [hdrop]
          exact D.scan_cons_error hq hc _
  | ok r =>
      obtain ⟨tok, lexer'⟩ := r
      have hb' := Lexer.feed_bounded P hb hf
      rw [hf] at hstep
      generalize hc : D.step ⟨lexer.phase, stack⟩ s[pos] = v at hstep
      cases hstep with
      | stackError hx =>
          simp only [hx]
          apply TokenRead.failed
          rw [hdrop]
          exact D.scan_cons_error hq hc _
      | @other x t stack' hx =>
          simp only [hx]
          exact .next [s[pos]] hb' hdrop rfl hpos (.cons hq hc (.nil _))
      | @atom n t hn ht =>
          cases hsub : stringSub s (pos + 1) n with
          | error e =>
              simp only [hsub]
              have hlen : s.length - (pos + 1) < n := by
                unfold stringSub at hsub
                split at hsub
                · omega
                · cases hsub
              have hscan := hD.scan_beginAtom_short (a := s.drop (pos + 1))
                (by simpa using hlen) stack
              apply TokenRead.short
              rw [hdrop, D.scan_cons_ok hq hc, hscan, Verdict.shift_pending]
          | ok a =>
              simp only [hsub, Int.toNat_natCast]
              obtain ⟨-, hlen, rfl⟩ := stringSub_eq_ok hsub
              rw [Int.toNat_natCast] at hlen ⊢
              have halen : ((s.drop (pos + 1)).take n).length = n := by
                rw [List.length_take_of_le]
                simp
                omega
              have hreach := hD.reaches_token ht halen stack
              have htail : (s.drop (pos + 1)).drop n = s.drop (pos + 1 + n) := List.drop_drop
              refine .next (s[pos] :: (s.drop (pos + 1)).take n) hb' ?_ ?_ hlen ?_
              · rw [hdrop, List.cons_append, ← htail, List.take_append_drop]
              · rw [List.length_cons, halen]
                omega
              · exact .cons hq hc hreach

/-! ## Whole strings -/

/-- The result of `parse_string` on a string of length `len`, from the
verdict of the reader of one expression. -/
def reportOne (len : ℕ) : Verdict Config String → Result Sexp (ℕ × String)
  | .stopped p q =>
    match q.complete with
    | some x => if p = len then .ok x else .error (p, dataAfter)
    | none => .error (p, prematureEndOfInput)
  | .failed p msg => .error (p, msg)
  | .pending _ => .error (len, prematureEndOfInput)

/-- The result of `parse_string_many`, from the verdict of the reader of
any number of expressions. -/
def reportMany (len : ℕ) : Verdict Config String → Result (List Sexp) (ℕ × String)
  | .stopped _ q | .pending q =>
    match q.finish with
    | some xs => .ok xs
    | none => .error (len, prematureEndOfInput)
  | .failed p msg => .error (p, msg)

theorem parseString_cont_of_unfinished (S : Sys) (s : Bytes) (pos len : ℕ) (lexer : Lexer)
    {stack : Stack} (h : stack.Unfinished) :
    parseString.cont S s pos len lexer stack = parseString.loop S s pos len lexer stack := by
  rw [parseString.cont]
  exact h.ne_complete

theorem parseString_loop_eq (P : Platform) {s : Bytes} {pos : ℕ} (hpos : pos ≤ s.length)
    {lexer : Lexer} (hb : lexer.Bounded P.toSys) {stack : Stack} (hu : stack.Unfinished) :
    parseString.loop P.toSys s pos s.length lexer stack =
      .ok (reportOne s.length
        (((oneReader P.maxStringLength).scan ⟨lexer.phase, stack⟩ (s.drop pos)).shift pos)) := by
  induction hk : s.length - pos using Nat.strongRecOn generalizing pos lexer stack with
  | ind k ih =>
      have hq := not_stopped_of_unfinished (M := P.maxStringLength)
        (q := ⟨lexer.phase, stack⟩) hu
      by_cases hend : pos = s.length
      · subst hend
        rw [parseString.loop, if_pos rfl, feedEoiSingle_of_unfinished lexer hu, List.drop_length,
          Scanner.scan_nil _ hq]
        rfl
      · rw [parseString.loop_of_ne hend]
        have hread := oneToken_reads P (isReader_one _) (lt_of_le_of_ne hpos hend) hb hq
        generalize hr : oneToken P.toSys s pos s.length lexer stack = r at hread
        cases hread with
        | failed h => simp [h, reportOne]
        | short h => simp [h, reportOne]
        | @next xs pos' lexer' stack' hb' hs hpos' hle h =>
            have hlt := (oneToken_lt hr).2
            rw [hs, h.scan_append, Verdict.shift_shift, ← hpos']
            rcases unfinished_of_reaches hu h with hstop | hu'
            · obtain ⟨x, hx⟩ := oneReader_stopped_iff.mp hstop
              rw [Scanner.scan_of_stopped _ hstop]
              simp only [Config.mk.injEq] at hx
              rw [hx.2]
              simp only
              rw [parseString.cont]
              simp only [Verdict.shift_stopped, Nat.add_zero, reportOne, hx.1, Config.complete]
              split <;> rfl
            · simp only
              rw [parseString_cont_of_unfinished _ _ _ _ _ hu']
              exact ih _ (by omega) hle hb' hu' rfl

theorem parseStringMany_loop_eq (P : Platform) {s : Bytes} {pos : ℕ} (hpos : pos ≤ s.length)
    {lexer : Lexer} (hb : lexer.Bounded P.toSys) (stack : Stack) :
    parseStringMany.loop P.toSys s pos s.length lexer stack =
      .ok (reportMany s.length
        (((manyReader P.maxStringLength).scan ⟨lexer.phase, stack⟩ (s.drop pos)).shift pos)) := by
  induction hk : s.length - pos using Nat.strongRecOn generalizing pos lexer stack with
  | ind k ih =>
      by_cases hend : pos = s.length
      · subst hend
        rw [parseStringMany.loop, if_pos rfl, feedEoiMany_eq, List.drop_length,
          Scanner.scan_nil _ rfl]
        simp only [Verdict.shift_pending, reportMany]
        cases (Config.mk lexer.phase stack).finish <;> rfl
      · rw [parseStringMany.loop_of_ne hend]
        have hread := oneToken_reads P (isReader_many _) (lt_of_le_of_ne hpos hend) hb
          (manyReader_stopped _ ⟨lexer.phase, stack⟩)
        generalize hr : oneToken P.toSys s pos s.length lexer stack = r at hread
        cases hread with
        | failed h => simp [h, reportMany]
        | short h => simp [h, reportMany, Config.finish]
        | @next xs pos' lexer' stack' hb' hs hpos' hle h =>
            have hlt := (oneToken_lt hr).2
            rw [hs, h.scan_append, Verdict.shift_shift, ← hpos']
            simp only
            exact ih _ (by omega) hle hb' stack' rfl

/-- `parse_string` computes the report of the reader of one expression. -/
theorem parseString_eq (P : Platform) (s : Bytes) :
    parseString P.toSys s =
      .ok (reportOne s.length ((oneReader P.maxStringLength).scan .start s)) := by
  have hempty : Stack.empty.Unfinished := Or.inl rfl
  have hloop := parseString_loop_eq P (Nat.zero_le s.length) (Lexer.bounded_create _) hempty
  rwa [List.drop_zero, Verdict.shift_zero] at hloop

example : parseString Platform.native64.toSys ("(3:foo)".toList.map Char.toUInt8) =
    .ok (.ok (.list [.atom ("foo".toList.map Char.toUInt8)])) := by
  rw [parseString_eq]
  rfl

-- The closing parenthesis is taken for the last byte of the atom.
example : parseString Platform.native64.toSys ("(4:foo)".toList.map Char.toUInt8) =
    .ok (.error (7, prematureEndOfInput)) := by
  rw [parseString_eq]
  rfl

/-- `parse_string_many` computes the report of the reader of any number of
expressions. -/
theorem parseStringMany_eq (P : Platform) (s : Bytes) :
    parseStringMany P.toSys s =
      .ok (reportMany s.length ((manyReader P.maxStringLength).scan .start s)) := by
  have hloop := parseStringMany_loop_eq P (s := s) (Nat.zero_le _) (Lexer.bounded_create _) .empty
  rwa [List.drop_zero, Verdict.shift_zero] at hloop

end Csexp
