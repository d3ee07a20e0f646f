import Csexp.Acceptance

/-!
# Parsing from a channel

`input_opt`, `input` and `input_many` read a channel one character at a
time and fetch each atom in one piece. Errors travel as exceptions, of
which every entry point handles some. Run on a channel, the parsers
compute what the byte-at-a-time readers report, and leave the channel
just behind the last byte the reader has looked at.
-/

namespace Csexp

open Incremental

/-- The `one_token` of the channel parsers. -/
def Channel.oneToken (S : Sys) (alloc : Allocator) (c : UInt8) (lexer : Lexer)
    (stack : Stack) : Chan (Lexer × Stack) := fun ic =>
  match lexer.feed S c with
  | .error e => (.error e, ic)
  | .ok (.atom n, lexer) =>
    match reallyInputString S alloc n ic with
    | (.error .endOfFile, ic) => (.error (.parseError prematureEndOfInput), ic)
    | (.error e, ic) => (.error e, ic)
    | (.ok s, ic) => (.ok (lexer, stack.addAtom s), ic)
  | .ok (.other x, lexer) =>
    match stack.addToken x with
    | .error e => (.error e, ic)
    | .ok stack => (.ok (lexer, stack), ic)

theorem reallyInputString_le (S : Sys) (alloc : Allocator) (n : ℤ) (ic : InChannel) :
    (reallyInputString S alloc n ic).2.length ≤ ic.length := by
  unfold reallyInputString
  split_ifs <;> simp

/-- No token puts bytes back. -/
theorem Channel.oneToken_le (S : Sys) (alloc : Allocator) (c : UInt8) (lexer : Lexer)
    (stack : Stack) (ic : InChannel) :
    (Channel.oneToken S alloc c lexer stack ic).2.length ≤ ic.length := by
  unfold Channel.oneToken
  split
  · exact le_rfl
  · rename_i n _ _
    have hle := reallyInputString_le S alloc n ic
    split
    all_goals
      rename_i heq
      rw [heq] at hle
      exact hle
  · split <;> exact le_rfl

/-- A character that was read is gone from the channel. -/
theorem inputChar_eq_ok {ic ic' : InChannel} {c : UInt8} (h : inputChar ic = (.ok c, ic')) :
    ic = c :: ic' := by
  cases ic with
  | nil => simp [inputChar] at h
  | cons d ic =>
      obtain ⟨rfl, rfl⟩ : d = c ∧ ic = ic' := by simpa [inputChar] using h
      rfl

theorem Channel.length_lt {S : Sys} {alloc : Allocator} {c : UInt8} {lexer : Lexer}
    {stack : Stack} {ic ic₁ ic₂ : InChannel} {r : Eval (Lexer × Stack)}
    (hc : inputChar ic = (.ok c, ic₁))
    (h : Channel.oneToken S alloc c lexer stack ic₁ = (r, ic₂)) : ic₂.length < ic.length := by
  have hle := Channel.oneToken_le S alloc c lexer stack ic₁
  rw [h] at hle
  rw [inputChar_eq_ok hc]
  exact Nat.lt_succ_of_le hle

def inputOpt.loop (S : Sys) (alloc : Allocator) (lexer : Lexer) (stack : Stack) :
    Chan (Result (Option Sexp) String) := fun ic =>
  match _hc : inputChar ic with
  | (.error e, ic) => (.error e, ic)
  | (.ok c, ic₁) =>
    match _h : Channel.oneToken S alloc c lexer stack ic₁ with
    | (.error e, ic) => (.error e, ic)
    | (.ok (_, .sexp sexp .empty), ic) => (.ok (.ok (some sexp)), ic)
    | (.ok (lexer, stack), ic₂) => inputOpt.loop S alloc lexer stack ic₂
termination_by ic => ic.length
decreasing_by exact Channel.length_lt _hc _h

theorem inputOpt.loop_nil (S : Sys) (alloc : Allocator) (lexer : Lexer) (stack : Stack) :
    inputOpt.loop S alloc lexer stack [] = (.error .endOfFile, []) := by
  rw [inputOpt.loop]
  rfl

theorem inputOpt.loop_cons (S : Sys) (alloc : Allocator) (lexer : Lexer) (stack : Stack)
    (c : UInt8) (ic : InChannel) : inputOpt.loop S alloc lexer stack (c :: ic) =
      match Channel.oneToken S alloc c lexer stack ic with
      | (.error e, ic) => (.error e, ic)
      | (.ok (_, .sexp sexp .empty), ic) => (.ok (.ok (some sexp)), ic)
      | (.ok (lexer, stack), ic) => inputOpt.loop S alloc lexer stack ic := by
  rw [inputOpt.loop]
  simp only [inputChar]
  generalize Channel.oneToken S alloc c lexer stack ic = r
  rcases r with ⟨e | ⟨t, _ | t | ⟨x, _ | t | ⟨y, t⟩⟩⟩, ic'⟩ <;> rfl

/-- The body of the `try` of `input_opt`, on the first character. -/
def inputOpt.first (S : Sys) (alloc : Allocator) (c : UInt8) (lexer : Lexer) :
    Chan (Result (Option Sexp) String) := fun ic =>
  match lexer.feed S c with
  | .error e => (.error e, ic)
  | .ok (.atom _, _) => (.error .assertFailure, ic)
  | .ok (.other x, lexer) =>
    match Stack.empty.addToken x with
    | .error e => (.error e, ic)
    | .ok stack => inputOpt.loop S alloc lexer stack ic

/-- The handler of that `try`. -/
def inputOpt.handle : Eval (Result (Option Sexp) String) × InChannel →
    Eval (Result (Option Sexp) String) × InChannel
  | (.error (.parseError msg), ic) => (.ok (.error msg), ic)
  | (.error .endOfFile, ic) => (.ok (.error prematureEndOfInput), ic)
  | r => r

def inputOpt (S : Sys) (alloc : Allocator) : Chan (Result (Option Sexp) String) := fun ic =>
  match inputChar ic with
  | (.error .endOfFile, ic) => (.ok (.ok none), ic)
  | (.error e, ic) => (.error e, ic)
  | (.ok c, ic) => inputOpt.handle (inputOpt.first S alloc c Lexer.create ic)

def input (S : Sys) (alloc : Allocator) : Chan (Result Sexp String) := fun ic =>
  match inputOpt S alloc ic with
  | (.error e, ic) => (.error e, ic)
  | (.ok (.ok none), ic) => (.ok (.error prematureEndOfInput), ic)
  | (.ok (.ok (some x)), ic) => (.ok (.ok x), ic)
  | (.ok (.error msg), ic) => (.ok (.error msg), ic)

def inputMany.loop (S : Sys) (alloc : Allocator) (lexer : Lexer) (stack : Stack) :
    Chan (Result (List Sexp) String) := fun ic =>
  match _hc : inputChar ic with
  | (.error .endOfFile, ic) =>
    match (do lexer.feedEoi; stack.toList : Eval (List Sexp)) with
    | .error e => (.error e, ic)
    | .ok l => (.ok (.ok l), ic)
  | (.error e, ic) => (.error e, ic)
  | (.ok c, ic₁) =>
    match _h : Channel.oneToken S alloc c lexer stack ic₁ with
    | (.error e, ic) => (.error e, ic)
    | (.ok (lexer, stack), ic₂) => inputMany.loop S alloc lexer stack ic₂
termination_by ic => ic.length
decreasing_by exact Channel.length_lt _hc _h

theorem inputMany.loop_nil (S : Sys) (alloc : Allocator) (lexer : Lexer) (stack : Stack) :
    inputMany.loop S alloc lexer stack [] =
      match (do lexer.feedEoi; stack.toList : Eval (List Sexp)) with
      | .error e => (.error e, [])
      | .ok l => (.ok (.ok l), []) := by
  rw [inputMany.loop]
  rfl

theorem inputMany.loop_cons (S : Sys) (alloc : Allocator) (lexer : Lexer) (stack : Stack)
    (c : UInt8) (ic : InChannel) : inputMany.loop S alloc lexer stack (c :: ic) =
      match Channel.oneToken S alloc c lexer stack ic with
      | (.error e, ic) => (.error e, ic)
      | (.ok (lexer, stack), ic) => inputMany.loop S alloc lexer stack ic := by
  rw [inputMany.loop]
  simp only [inputChar]
  generalize Channel.oneToken S alloc c lexer stack ic = r
  rcases r with ⟨e | ⟨t, st⟩, ic'⟩ <;> rfl

/-- The handler of `input_many`. -/
def inputMany.handle : Eval (Result (List Sexp) String) × InChannel →
    Eval (Result (List Sexp) String) × InChannel
  | (.error (.parseError msg), ic) => (.ok (.error msg), ic)
  | r => r

def inputMany (S : Sys) (alloc : Allocator) : Chan (Result (List Sexp) String) := fun ic =>
  inputMany.handle (inputMany.loop S alloc Lexer.create .empty ic)

/-! ## One token -/

/-- What reading a token of the channel contents `s` amounts to, told by a
reader that stands before the same byte in state `q`. -/
inductive Channel.TokenRead (P : Platform) (D : Scanner Config UInt8 String) (q : Config)
    (s : Bytes) : Eval (Lexer × Stack) × InChannel → Prop where
  | failed {msg : String} (h : D.scan q s = .failed 0 msg) :
      TokenRead P D q s (.error (.parseError msg), s.drop 1)
  | short {m : ℕ} {got : Bytes} (h : D.scan q s = .pending ⟨.atom m got, q.stack⟩) :
      TokenRead P D q s (.error (.parseError prematureEndOfInput), [])
  | next (xs : Bytes) {ic : Bytes} {lexer : Lexer} {stack : Stack} (hb : lexer.Bounded P.toSys)
      (hs : s = xs ++ ic) (hne : xs ≠ []) (h : D.Reaches q xs ⟨lexer.phase, stack⟩) :
      TokenRead P D q s (.ok (lexer, stack), ic)

theorem reallyInputString_always {P : Platform} {n : ℕ} (hn : n ≤ P.maxStringLength)
    (ic : InChannel) : reallyInputString P.toSys .always n ic =
      if ic.length < n then (.error .endOfFile, []) else (.ok (ic.take n), ic.drop n) := by
  have hneg : ¬ ((n : ℤ) < 0 ∨ (P.maxStringLength : ℤ) < n) := by omega
  simp only [reallyInputString, if_neg hneg, Allocator.always, Int.toNat_natCast]
  rfl

theorem Channel.oneToken_reads (P : Platform) {D : Scanner Config UInt8 String}
    (hD : IsReader P.maxStringLength D) {lexer : Lexer} (hb : lexer.Bounded P.toSys)
    {stack : Stack} (hq : D.stopped ⟨lexer.phase, stack⟩ = false) (c : UInt8)
    (ic : InChannel) :
    Channel.TokenRead P D ⟨lexer.phase, stack⟩ (c :: ic)
      (Channel.oneToken P.toSys .always c lexer stack ic) := by
  have hstep := feed_matches_step P hb stack c
  rw [← hD.step_eq] at hstep
  unfold Channel.oneToken
  cases hf : lexer.feed P.toSys c with
  | error e =>
      obtain ⟨msg, rfl⟩ := Lexer.feed_error _ hf
      rw [hf] at hstep
      generalize hc : D.step ⟨lexer.phase, stack⟩ c = v at hstep
      cases hstep
      exact .failed (D.scan_cons_error hq hc ic)
  | ok r =>
      obtain ⟨tok, lexer'⟩ := r
      have hb' := Lexer.feed_bounded P hb hf
      rw [hf] at hstep
      generalize hc : D.step ⟨lexer.phase, stack⟩ c = v at hstep
      cases hstep with
      | stackError hx =>
          simp only [hx]
          exact .failed (D.scan_cons_error hq hc ic)
      | other hx =>
          simp only [hx]
          exact .next [c] hb' rfl (by simp) (.cons hq hc (.nil _))
      | @atom n t hn ht =>
          simp only [reallyInputString_always hn]
          by_cases hlen : ic.length < n
          · rw [if_pos hlen]
            have hscan := hD.scan_beginAtom_short hlen stack
            apply Channel.TokenRead.short
            rw [D.scan_cons_ok hq hc, hscan, Verdict.shift_pending]
          · rw [if_neg hlen]
            have halen : (ic.take n).length = n := List.length_take_of_le (not_lt.mp hlen)
            have hreach := hD.reaches_token ht halen stack
            apply Channel.TokenRead.next (c :: ic.take n) hb' _ (by simp) (.cons hq hc hreach)
            rw [List.cons_append, List.take_append_drop]

/-- The induction over a channel is on what is left of it. -/
theorem Channel.rest_lt {s xs ic : Bytes} (hne : xs ≠ []) (hs : s = xs ++ ic) :
    ic.length < s.length := by
  have hpos := List.length_pos_iff.mpr hne
  rw [hs, List.length_append]
  omega

/-! ## Whole channels -/

/-- What `input_opt` makes of the verdict of the reader of one expression
on the channel contents `s`. -/
def channelOne (s : Bytes) : Verdict Config String → Result (Option Sexp) String × InChannel
  | .stopped p q => (.ok q.complete, s.drop p)
  | .failed p msg => (.error msg, s.drop (p + 1))
  | .pending _ => (.error prematureEndOfInput, [])

/-- What `input_many` makes of the verdict of the reader of any number of
expressions on the channel contents `s`. -/
def channelMany (s : Bytes) : Verdict Config String → Result (List Sexp) String × InChannel
  | .stopped p q =>
    match q.finish with
    | some xs => (.ok xs, s.drop p)
    | none => (.error prematureEndOfInput, s.drop p)
  | .failed p msg => (.error msg, s.drop (p + 1))
  | .pending q =>
    match q.finish with
    | some xs => (.ok xs, [])
    | none => (.error prematureEndOfInput, [])

@[simp] theorem channelOne_shift (xs s : Bytes) (v : Verdict Config String) :
    channelOne (xs ++ s) (v.shift xs.length) = channelOne s v := by
  cases v with
  | stopped p q => simp [channelOne, List.drop_length_add_append]
  | failed p msg => simp [channelOne, Nat.add_assoc, List.drop_length_add_append]
  | pending q => rfl

@[simp] theorem channelMany_shift (xs s : Bytes) (v : Verdict Config String) :
    channelMany (xs ++ s) (v.shift xs.length) = channelMany s v := by
  cases v with
  | stopped p q => simp [channelMany, List.drop_length_add_append]
  | failed p msg => simp [channelMany, Nat.add_assoc, List.drop_length_add_append]
  | pending q => rfl

theorem inputOpt_handle_loop (P : Platform) {lexer : Lexer} (hb : lexer.Bounded P.toSys)
    {stack : Stack} (hu : stack.Unfinished) (s : InChannel) :
    inputOpt.handle (inputOpt.loop P.toSys .always lexer stack s) =
      Prod.map .ok id
        (channelOne s ((oneReader P.maxStringLength).scan ⟨lexer.phase, stack⟩ s)) := by
  induction hk : s.length using Nat.strongRecOn generalizing s lexer stack with
  | ind k ih =>
      have hq := not_stopped_of_unfinished (M := P.maxStringLength)
        (q := ⟨lexer.phase, stack⟩) hu
      cases s with
      | nil =>
          rw [inputOpt.loop_nil, Scanner.scan_nil _ hq]
          rfl
      | cons c ic =>
          have hread := Channel.oneToken_reads P (isReader_one _) hb hq c ic
          rw [inputOpt.loop_cons]
          generalize Channel.oneToken P.toSys .always c lexer stack ic = r at hread
          generalize hs : c :: ic = s at hread hk
          cases hread with
          | failed h =>
              rw [h]
              rfl
          | short h =>
              rw [h]
              rfl
          | @next xs ic' lexer' stack' hb' hs' hne h =>
              have hlt : ic'.length < k := hk ▸ Channel.rest_lt hne hs'
              rw [hs', h.scan_append, channelOne_shift]
              rcases unfinished_of_reaches hu h with hstop | hu'
              · obtain ⟨x, hx⟩ := oneReader_stopped_iff.mp hstop
                rw [Scanner.scan_of_stopped _ hstop]
                simp only [Config.mk.injEq] at hx
                rw [hx.2, hx.1]
                rfl
              · rw [← ih _ hlt hb' hu' ic' rfl]
                split
                · rename_i heq
                  cases heq
                · rename_i heq
                  cases heq
                  exact absurd rfl (hu'.ne_complete _)
                · rename_i heq
                  cases heq
                  rfl

/-- At the end of the channel `input_many` answers as the string parser
does at the end of its string. -/
theorem inputMany_handle_eoi (lexer : Lexer) (stack : Stack) (ic : InChannel) :
    inputMany.handle (match (do lexer.feedEoi; stack.toList : Eval (List Sexp)) with
      | .error e => (.error e, ic)
      | .ok l => (.ok (.ok l), ic)) = (feedEoiMany lexer stack, ic) := by
  unfold feedEoiMany
  cases (do lexer.feedEoi; stack.toList : Eval (List Sexp)) with
  | ok l => rfl
  | error e => cases e <;> rfl

theorem inputMany_handle_loop (P : Platform) {lexer : Lexer} (hb : lexer.Bounded P.toSys)
    (stack : Stack) (s : InChannel) :
    inputMany.handle (inputMany.loop P.toSys .always lexer stack s) =
      Prod.map .ok id
        (channelMany s ((manyReader P.maxStringLength).scan ⟨lexer.phase, stack⟩ s)) := by
  induction hk : s.length using Nat.strongRecOn generalizing s lexer stack with
  | ind k ih =>
      have hq := manyReader_stopped P.maxStringLength ⟨lexer.phase, stack⟩
      cases s with
      | nil =>
          rw [inputMany.loop_nil, inputMany_handle_eoi, feedEoiMany_eq, Scanner.scan_nil _ hq]
          simp only [channelMany]
          cases (Config.mk lexer.phase stack).finish <;> rfl
      | cons c ic =>
          have hread := Channel.oneToken_reads P (isReader_many _) hb hq c ic
          rw [inputMany.loop_cons]
          generalize Channel.oneToken P.toSys .always c lexer stack ic = r at hread
          generalize hs : c :: ic = s at hread hk
          cases hread with
          | failed h =>
              rw [h]
              rfl
          | short h =>
              rw [h]
              rfl
          | @next xs ic' lexer' stack' hb' hs' hne h =>
              have hlt : ic'.length < k := hk ▸ Channel.rest_lt hne hs'
              rw [hs', h.scan_append, channelMany_shift]
              exact ih _ hlt hb' stack' ic' rfl

/-- The first character never completes an atom, and it completes no
expression either. -/
theorem inputOpt_first_reads (P : Platform) (c : UInt8) (ic : InChannel) :
    (∃ msg, (oneReader P.maxStringLength).scan .start (c :: ic) = .failed 0 msg ∧
      inputOpt.first P.toSys .always c Lexer.create ic = (.error (.parseError msg), ic)) ∨
    ∃ lexer stack, lexer.Bounded P.toSys ∧ stack.Unfinished ∧
      (oneReader P.maxStringLength).Reaches .start [c] ⟨lexer.phase, stack⟩ ∧
      inputOpt.first P.toSys .always c Lexer.create ic =
        inputOpt.loop P.toSys .always lexer stack ic := by
  have hb := Lexer.bounded_create P.toSys
  have hfeeds := Lexer.feeds P hb c
  have hstep := feed_matches_step P hb .empty c
  unfold inputOpt.first
  cases hf : Lexer.create.feed P.toSys c with
  | error e =>
      obtain ⟨msg, rfl⟩ := Lexer.feed_error _ hf
      rw [hf] at hstep
      generalize hc : step P.maxStringLength ⟨Lexer.create.phase, .empty⟩ c = v at hstep
      cases hstep
      exact Or.inl ⟨msg, Scanner.scan_cons_error _ rfl hc ic, rfl⟩
  | ok r =>
      obtain ⟨tok, lexer'⟩ := r
      have hb' := Lexer.feed_bounded P hb hf
      rw [hf] at hstep hfeeds
      generalize hc : step P.maxStringLength ⟨Lexer.create.phase, .empty⟩ c = v at hstep
      cases hstep with
      | @stackError x t msg hx =>
          simp only [hx]
          exact Or.inl ⟨msg, Scanner.scan_cons_error _ rfl hc ic, rfl⟩
      | @other x t stack' hx =>
          simp only [hx]
          refine Or.inr ⟨lexer', stack', hb', ?_, .cons rfl hc (.nil _), rfl⟩
          cases x with
          | await =>
              cases hx
              exact Or.inl rfl
          | lparen =>
              cases hx
              exact Or.inr (Or.inl rfl)
          | rparen => cases hx
      | atom hn ht => cases hfeeds

/-- On a channel that is not at its end `input_opt` computes the report of
the reader of one expression. -/
theorem inputOpt_cons (P : Platform) (c : UInt8) (ic : InChannel) :
    inputOpt P.toSys .always (c :: ic) =
      Prod.map .ok id
        (channelOne (c :: ic) ((oneReader P.maxStringLength).scan .start (c :: ic))) := by
  simp only [inputOpt, inputChar]
  rcases inputOpt_first_reads P c ic with ⟨msg, hscan, hres⟩ | ⟨lexer, stack, hb, hu, hr, hres⟩
  · rw [hscan, hres]
    rfl
  · rw [hres, inputOpt_handle_loop P hb hu, ← List.singleton_append, hr.scan_append,
      channelOne_shift]

theorem inputOpt_nil (S : Sys) (alloc : Allocator) :
    inputOpt S alloc [] = (.ok (.ok none), []) := rfl

/-- `input_many` computes the report of the reader of any number of
expressions. -/
theorem inputMany_eq (P : Platform) (s : InChannel) :
    inputMany P.toSys .always s =
      Prod.map .ok id (channelMany s ((manyReader P.maxStringLength).scan .start s)) :=
  inputMany_handle_loop P (Lexer.bounded_create _) .empty s

end Csexp
