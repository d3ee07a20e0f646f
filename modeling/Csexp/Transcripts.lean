import Csexp.MonadicParser

/-!
# What the reads of a monadic run determine

The log of a run is enough to know its result: the bytes delivered before
the first failing read drive the same reader as a string does, and a
failing read is the last one.
-/

namespace Csexp

open Incremental Effects

namespace MakeParser

/-- The bytes delivered before the first failing read. -/
def delivered (log : List Read) : Bytes := (log.takeWhile fun e => !e.failed).flatMap Read.bytes

def Succeeded (log : List Read) : Prop := ∀ e ∈ log, e.failed = false

theorem succeeded_append {log log' : List Read} (h : Succeeded log) (h' : Succeeded log') :
    Succeeded (log ++ log') := by
  intro e he
  rcases List.mem_append.mp he with he | he
  · exact h e he
  · exact h' e he

theorem not_succeeded_concat {log : List Read} {e : Read} (he : e.failed = true) :
    ¬ Succeeded (log ++ [e]) := by
  intro h
  have hne := h e (by simp)
  rw [he] at hne
  cases hne

theorem delivered_append {log : List Read} (h : Succeeded log) (rest : List Read) :
    delivered (log ++ rest) = log.flatMap Read.bytes ++ delivered rest := by
  have hpos : ∀ e ∈ log, (!e.failed) = true := by
    intro e he
    simp [h e he]
  rw [delivered, List.takeWhile_append_of_pos hpos, List.flatMap_append]
  rfl

theorem delivered_of_succeeded {log : List Read} (h : Succeeded log) :
    delivered log = log.flatMap Read.bytes := by
  have happ := delivered_append h []
  rw [List.append_nil] at happ
  rw [happ]
  exact List.append_nil _

/-! ## Endings -/

/-- How a run ends: in a state where it stops, at a byte that is rejected,
at the end of the input, or at a failing `read_string`. -/
inductive Ending where
  | stopped (q : Config)
  | rejected (msg : String)
  | eoi (q : Config)
  | failed (e : String)

/-- After the given reads, the reader `D` started in state `q` ends so. -/
inductive Ends (D : Scanner Config UInt8 String) (q : Config) : List Read → Ending → Prop where
  | stopped {log : List Read} {q' : Config} (hlog : Succeeded log)
      (h : D.Reaches q (log.flatMap Read.bytes) q') (hs : D.stopped q' = true) :
      Ends D q log (.stopped q')
  | rejected {log : List Read} {b : Bytes} {c : UInt8} {q' : Config} {msg : String}
      (hlog : Succeeded log) (hb : log.flatMap Read.bytes = b ++ [c]) (h : D.Reaches q b q')
      (hs : D.stopped q' = false) (hc : D.step q' c = .error msg) : Ends D q log (.rejected msg)
  | eoi {log : List Read} {q' : Config} (e : String) (hlog : Succeeded log)
      (h : D.Reaches q (log.flatMap Read.bytes) q') (hs : D.stopped q' = false) :
      Ends D q (log ++ [.char (.error e)]) (.eoi q')
  | failed {log : List Read} (n : ℤ) (e : String) (hlog : Succeeded log) :
      Ends D q (log ++ [.string n (.error e)]) (.failed e)

theorem Ends.prepend {D : Scanner Config UInt8 String} {q q' : Config} {log log' : List Read}
    {ending : Ending} (hlog : Succeeded log) (h : D.Reaches q (log.flatMap Read.bytes) q')
    (he : Ends D q' log' ending) : Ends D q (log ++ log') ending := by
  cases he with
  | stopped hlog' h' hs =>
      apply Ends.stopped (succeeded_append hlog hlog') _ hs
      rw [List.flatMap_append]
      exact h.append h'
  | rejected hlog' hb h' hs hc =>
      apply Ends.rejected (succeeded_append hlog hlog') _ (h.append h') hs hc
      rw [List.flatMap_append, hb, List.append_assoc]
  | eoi e hlog' h' hs =>
      rw [← List.append_assoc]
      apply Ends.eoi e (succeeded_append hlog hlog') _ hs
      rw [List.flatMap_append]
      exact h.append h'
  | failed n e hlog' =>
      rw [← List.append_assoc]
      exact .failed n e (succeeded_append hlog hlog')

/-- The result at the end of a run, given what is answered in the state
where the run stops or the input ends. -/
def Ending.result {α : Type} (answer : Config → Result α String) : Ending → Result α String
  | stopped q | eoi q => answer q
  | rejected msg | failed msg => .error msg

/-- A run of `x` on a source with a log appends reads that end as the
reader `D` started in `q` may end, and returns the result of that ending. -/
def EndsAs {σ α : Type} (D : Scanner Config UInt8 String) (answer : Config → Result α String)
    (q : Config) (x : Comp Exn (StateM (σ × List Read)) (Result α String)) : Prop :=
  ∀ s log r s' log', x.exec (s, log) = (.ok (some r), (s', log')) →
    ∃ reads ending, log' = log ++ reads ∧ Ends D q reads ending ∧ r = ending.result answer

/-- What the token begun by the character `c` amounts to, with the reads
made for it. -/
inductive TokenRun (P : Platform) (D : Scanner Config UInt8 String) (q : Config) (c : UInt8) :
    List Read → Result (Lexer × Stack) String → Prop where
  | rejected {msg : String} (hc : D.step q c = .error msg) : TokenRun P D q c [] (.error msg)
  | failed (n : ℤ) (e : String) : TokenRun P D q c [.string n (.error e)] (.error e)
  | token {reads : List Read} {lexer : Lexer} {stack : Stack} (hlog : Succeeded reads)
      (hb : lexer.Bounded P.toSys)
      (h : D.Reaches q (c :: reads.flatMap Read.bytes) ⟨lexer.phase, stack⟩) :
      TokenRun P D q c reads (.ok (lexer, stack))

section Runs

variable {P : Platform} {D : Scanner Config UInt8 String} {σ T α : Type}
  {I : Input (StateM σ) T} {answer : Config → Result α String} {q : Config}

theorem exec_traced_readChar {input : T} {s s' : σ} {log log' : List Read}
    {r : Result UInt8 String}
    (h : (Comp.lift (I.traced.readChar input) : Comp Exn _ _).exec (s, log) =
      (.ok (some r), (s', log'))) : log' = log ++ [.char r] := by
  simp only [Comp.exec_lift, Prod.mk.injEq, Except.ok.injEq, Option.some.injEq] at h
  obtain ⟨rfl, hlog⟩ := h
  exact (Prod.mk.inj hlog).2.symm

theorem exec_traced_readString {input : T} {n : ℤ} {s s' : σ} {log log' : List Read}
    {r : Result Bytes String}
    (h : (Comp.lift (I.traced.readString input n) : Comp Exn _ _).exec (s, log) =
      (.ok (some r), (s', log'))) :
    log' = log ++ [.string n r] ∧ ((I.readString input n).run s).1 = r := by
  simp only [Comp.exec_lift, Prod.mk.injEq, Except.ok.injEq, Option.some.injEq] at h
  obtain ⟨rfl, hlog⟩ := h
  exact ⟨(Prod.mk.inj hlog).2.symm, rfl⟩

theorem oneToken_runs (hD : IsReader P.maxStringLength D) (hI : I.Honest) {input : T}
    {lexer : Lexer} (hb : lexer.Bounded P.toSys) {stack : Stack}
    (hq : D.stopped ⟨lexer.phase, stack⟩ = false) {c : UInt8} {s s' : σ} {log log' : List Read}
    {r : Result (Lexer × Stack) String}
    (h : (oneToken P.toSys I.traced input c lexer stack).exec (s, log) =
      (.ok (some r), (s', log'))) :
    ∃ reads, log' = log ++ reads ∧ TokenRun P D ⟨lexer.phase, stack⟩ c reads r := by
  have hstep := feed_matches_step P hb stack c
  rw [← hD.step_eq] at hstep
  unfold oneToken at h
  cases hf : lexer.feed P.toSys c with
  | error e =>
      obtain ⟨msg, rfl⟩ := Lexer.feed_error _ hf
      rw [hf] at hstep h
      generalize hc : D.step ⟨lexer.phase, stack⟩ c = v at hstep
      cases hstep
      cases h
      exact ⟨[], (List.append_nil log).symm, .rejected hc⟩
  | ok p =>
      obtain ⟨tok, lexer'⟩ := p
      have hb' := Lexer.feed_bounded P hb hf
      rw [hf] at hstep h
      generalize hc : D.step ⟨lexer.phase, stack⟩ c = v at hstep
      cases hstep with
      | stackError hx =>
          simp only [hx] at h
          cases h
          exact ⟨[], (List.append_nil log).symm, .rejected hc⟩
      | other hx =>
          simp only [hx] at h
          cases h
          exact ⟨[], (List.append_nil log).symm,
            .token (by simp [Succeeded]) hb' (.cons hq hc (.nil _))⟩
      | @atom n t hn ht =>
          simp only [bindResult] at h
          obtain ⟨a, ⟨s₁, log₁⟩, hread, h⟩ := Comp.exec_bind_eq_ok.mp h
          obtain ⟨rfl, ha⟩ := exec_traced_readString hread
          cases a with
          | error e =>
              cases h
              exact ⟨_, rfl, .failed n e⟩
          | ok a =>
              cases h
              have hlen : a.length = n := Int.ofNat_inj.mp (hI input n s a ha)
              have hreach := hD.reaches_token ht hlen stack
              refine ⟨_, rfl, .token (by simp [Succeeded, Read.failed]) hb' ?_⟩
              rw [List.flatMap_singleton]
              exact .cons hq hc hreach

theorem endsAs_outOfFuel : EndsAs D answer q (.outOfFuel : Comp Exn (StateM (σ × List Read)) _) := by
  intro s log r s' log' h
  cases h

theorem endsAs_pure {r : Result α String} (hs : D.stopped q = true) (hr : r = answer q) :
    EndsAs D answer q (pure r : Comp Exn (StateM (σ × List Read)) _) := by
  intro s log r' s' log' h
  obtain ⟨rfl, rfl, rfl⟩ : r = r' ∧ s = s' ∧ log = log' := by simpa using h
  exact ⟨[], .stopped q, (List.append_nil log).symm, .stopped (by simp [Succeeded]) (.nil q) hs, hr⟩

/-- One turn of a loop, from what the continuation does behind a token. -/
theorem endsAs_readToken (hD : IsReader P.maxStringLength D) (hI : I.Honest) {input : T}
    {lexer : Lexer} (hb : lexer.Bounded P.toSys) {stack : Stack}
    (hq : D.stopped ⟨lexer.phase, stack⟩ = false) {eoi : Eval (Result α String)}
    (heoi : eoi = .ok (answer ⟨lexer.phase, stack⟩))
    {k : Lexer × Stack → Comp Exn (StateM (σ × List Read)) (Result α String)}
    (hk : ∀ b lexer' stack', lexer'.Bounded P.toSys →
      D.Reaches ⟨lexer.phase, stack⟩ b ⟨lexer'.phase, stack'⟩ →
      EndsAs D answer ⟨lexer'.phase, stack'⟩ (k (lexer', stack'))) :
    EndsAs D answer ⟨lexer.phase, stack⟩
      (readToken P.toSys I.traced input lexer stack eoi k) := by
  intro s log r s' log' h
  obtain ⟨a, ⟨s₁, log₁⟩, hread, h⟩ := Comp.exec_bind_eq_ok.mp h
  obtain rfl := exec_traced_readChar hread
  cases a with
  | error e =>
      rw [heoi] at h
      cases h
      have hends : Ends D ⟨lexer.phase, stack⟩ ([] ++ [.char (.error e)])
          (.eoi ⟨lexer.phase, stack⟩) := .eoi e (by simp [Succeeded]) (.nil _) hq
      exact ⟨_, _, rfl, hends, rfl⟩
  | ok c =>
      have hchar : Succeeded [.char (.ok c)] := by simp [Succeeded, Read.failed]
      obtain ⟨a, ⟨s₂, log₂⟩, htok, h⟩ := Comp.exec_bind_eq_ok.mp h
      obtain ⟨reads, rfl, hrun⟩ := oneToken_runs hD hI hb hq htok
      cases hrun with
      | @rejected msg hc =>
          cases h
          refine ⟨[.char (.ok c)], .rejected msg, by simp, ?_, rfl⟩
          exact .rejected (b := []) hchar rfl (.nil _) hq hc
      | failed n e =>
          cases h
          have hends : Ends D ⟨lexer.phase, stack⟩
              ([.char (.ok c)] ++ [.string n (.error e)]) (.failed e) := .failed n e hchar
          exact ⟨_, _, by simp, hends, rfl⟩
      | @token reads lexer' stack' hlog hb' hreach =>
          obtain ⟨reads', ending, rfl, hends, hr⟩ := hk _ lexer' stack' hb' hreach _ _ _ _ _ h
          refine ⟨.char (.ok c) :: reads ++ reads', ending, by simp, ?_, hr⟩
          exact hends.prepend (succeeded_append hchar hlog) hreach

/-! ## The two loops -/

def answerOne (q : Config) : Result Sexp String :=
  match q.complete with
  | some x => .ok x
  | none => .error prematureEndOfInput

def answerMany (q : Config) : Result (List Sexp) String :=
  match q.finish with
  | some xs => .ok xs
  | none => .error prematureEndOfInput

theorem answerOne_of_live {M : ℕ} (h : (oneReader M).stopped q = false) :
    answerOne q = .error prematureEndOfInput := by
  have hnone : q.complete = none := by simpa [oneReader] using h
  rw [answerOne, hnone]

theorem answerOne_of_stopped {M : ℕ} (h : (oneReader M).stopped q = true) :
    ∃ x, q = ⟨.init, .sexp x .empty⟩ ∧ answerOne q = .ok x := by
  obtain ⟨x, rfl⟩ := oneReader_stopped_iff.mp h
  exact ⟨x, rfl, rfl⟩

theorem endsAs_parse_loop (hI : I.Honest) {input : T} (fuel : ℕ) {lexer : Lexer}
    (hb : lexer.Bounded P.toSys) {stack : Stack} (hu : stack.Unfinished) :
    EndsAs (oneReader P.maxStringLength) answerOne ⟨lexer.phase, stack⟩
      (parse.loop P.toSys I.traced fuel input lexer stack) := by
  induction fuel generalizing lexer stack with
  | zero => exact endsAs_outOfFuel
  | succ fuel ih =>
      have hq := not_stopped_of_unfinished (M := P.maxStringLength)
        (q := ⟨lexer.phase, stack⟩) hu
      rw [parse_loop_succ]
      apply endsAs_readToken (isReader_one _) hI hb hq
      · rw [feedEoiSingle_of_unfinished lexer hu, answerOne_of_live hq]
      · intro b lexer' stack' hb' hr
        rcases unfinished_of_reaches hu hr with hstop | hu'
        · obtain ⟨x, hx, hans⟩ := answerOne_of_stopped hstop
          obtain ⟨-, rfl⟩ := Config.mk.inj hx
          exact endsAs_pure hstop hans.symm
        · split
          · rename_i heq
            cases heq
            exact absurd rfl (hu'.ne_complete _)
          · rename_i heq
            cases heq
            exact ih hb' hu'

theorem endsAs_parseMany_loop (hI : I.Honest) {input : T} (fuel : ℕ) {lexer : Lexer}
    (hb : lexer.Bounded P.toSys) (stack : Stack) :
    EndsAs (manyReader P.maxStringLength) answerMany ⟨lexer.phase, stack⟩
      (parseMany.loop P.toSys I.traced fuel input lexer stack) := by
  induction fuel generalizing lexer stack with
  | zero => exact endsAs_outOfFuel
  | succ fuel ih =>
      rw [parseMany_loop_succ]
      apply endsAs_readToken (isReader_many _) hI hb (manyReader_stopped _ _)
      · exact feedEoiMany_eq lexer stack
      · intro b lexer' stack' hb' _
        exact ih hb' stack'

/-! ## The last turn -/

/-- The reads of the turn in which `x` is complete: a character, and behind
the length of an atom its bytes. -/
inductive LastTurn (x : Sexp) : List Read → Prop where
  | token (c : UInt8) : LastTurn x [.char (.ok c)]
  | atom (c : UInt8) {n : ℤ} {a : Bytes} (hn : (a.length : ℤ) = n) (hx : x = .atom a) :
      LastTurn x [.char (.ok c), .string n (.ok a)]

theorem oneToken_reads (hI : I.Honest) {input : T} {c : UInt8} {lexer lexer' : Lexer}
    {stack stack' : Stack} {s s' : σ} {log log' : List Read}
    (h : (oneToken P.toSys I.traced input c lexer stack).exec (s, log) =
      (.ok (some (.ok (lexer', stack'))), (s', log'))) :
    log' = log ∨ ∃ n a, log' = log ++ [.string n (.ok a)] ∧ (a.length : ℤ) = n ∧
      stack' = stack.addAtom a := by
  unfold oneToken at h
  split at h
  · cases h
  · cases h
  · rename_i n _ hf
    obtain ⟨r, ⟨s₁, log₁⟩, hread, h⟩ := Comp.exec_bind_eq_ok.mp h
    obtain ⟨rfl, ha⟩ := exec_traced_readString hread
    cases r with
    | error err => cases h
    | ok a =>
        cases h
        exact Or.inr ⟨n, a, rfl, hI input n s a ha, rfl⟩
  · split at h
    · cases h
    · cases h
    · cases h
      exact Or.inl rfl

/-- Where no read has failed, the expression is complete in the last turn. -/
theorem exists_lastTurn (hI : I.Honest) {input : T} (fuel : ℕ) {lexer : Lexer} {stack : Stack}
    {s s' : σ} {log log' : List Read} {x : Sexp} (hlog : Succeeded log')
    (h : (parse.loop P.toSys I.traced fuel input lexer stack).exec (s, log) =
      (.ok (some (.ok x)), (s', log'))) :
    ∃ reads turn, log' = reads ++ turn ∧ LastTurn x turn := by
  induction fuel generalizing lexer stack s log with
  | zero => cases h
  | succ fuel ih =>
      rw [parse_loop_succ] at h
      obtain ⟨r, ⟨s₁, log₁⟩, hread, h⟩ := Comp.exec_bind_eq_ok.mp h
      obtain rfl := exec_traced_readChar hread
      cases r with
      | error e =>
          -- what is answered at the end of the input leaves the log as it is
          rw [Comp.exec_ofExcept] at h
          obtain ⟨-, hsame⟩ := Prod.mk.inj h
          cases hsame
          exact absurd hlog (not_succeeded_concat rfl)
      | ok c =>
          obtain ⟨r, ⟨s₂, log₂⟩, htok, h⟩ := Comp.exec_bind_eq_ok.mp h
          cases r with
          | error err => cases h
          | ok p =>
              obtain ⟨lexer', stack'⟩ := p
              have hreads := oneToken_reads hI htok
              dsimp only at h
              split at h
              · rename_i y heq
                cases heq
                cases h
                rcases hreads with rfl | ⟨n, a, rfl, hn, hstack⟩
                · exact ⟨log, _, rfl, .token c⟩
                · cases hstack
                  exact ⟨log, _, by simp, .atom c hn rfl⟩
              · rename_i heq
                cases heq
                exact ih h

end Runs

/-! ## The result of a run -/

/-- What a log says of the result `r`, whether the parser reads one
expression or many: `parser` is the string parser it is compared with. -/
structure LogAgrees {α : Type} (parser : Bytes → Eval (Result α (ℕ × String)))
    (log : List Read) (r : Result α String) : Prop where
  string_failed : ∀ n e, Read.string n (.error e) ∈ log → r = .error e
  rejected : Succeeded log → ∀ msg, r = .error msg →
    ∃ p, (delivered log).length = p + 1 ∧ parser (delivered log) = .ok (.error (p, msg))
  last_failed : ∀ pre e post, log = pre ++ e :: post → e.failed = true → post = []

/-- Where all reads but the last succeed, a failing read is the last. -/
theorem eq_of_failed_mem {log : List Read} {e f : Read} (hlog : Succeeded log)
    (hmem : e ∈ log ++ [f]) (he : e.failed = true) : e = f := by
  rcases List.mem_append.mp hmem with hmem | hmem
  · rw [hlog e hmem] at he
    cases he
  · exact List.mem_singleton.mp hmem

theorem eq_nil_of_succeeded {log pre post : List Read} {e f : Read} (hlog : Succeeded log)
    (h : log ++ [f] = pre ++ e :: post) (he : e.failed = true) : post = [] := by
  rcases List.eq_nil_or_concat post with rfl | ⟨post', g, rfl⟩
  · rfl
  · have hsplit : log ++ [f] = (pre ++ e :: post') ++ [g] := by
      rw [h]
      simp
    have hmem : e ∈ log := by
      rw [List.append_inj_left' hsplit rfl]
      simp
    rw [hlog e hmem] at he
    cases he

theorem Ends.last_failed {D : Scanner Config UInt8 String} {q : Config} {log : List Read}
    {ending : Ending} (h : Ends D q log ending) {pre post : List Read} {e : Read}
    (hlog : log = pre ++ e :: post) (he : e.failed = true) : post = [] := by
  have hmem : e ∈ log := by
    rw [hlog]
    simp
  cases h with
  | stopped hs =>
      rw [hs e hmem] at he
      cases he
  | rejected hs =>
      rw [hs e hmem] at he
      cases he
  | eoi _ hs => exact eq_nil_of_succeeded hs hlog he
  | failed _ _ hs => exact eq_nil_of_succeeded hs hlog he

theorem Ends.agrees {α : Type} {D : Scanner Config UInt8 String}
    {parser : Bytes → Eval (Result α (ℕ × String))} {answer : Config → Result α String}
    (hfail : ∀ s p msg, D.scan .start s = .failed p msg → parser s = .ok (.error (p, msg)))
    (hstop : ∀ q, D.stopped q = true → ∃ x, answer q = .ok x) {log : List Read}
    {ending : Ending} (h : Ends D .start log ending) :
    LogAgrees parser log (ending.result answer) where
  string_failed := by
    intro n e hmem
    cases h with
    | stopped hs => cases hs _ hmem
    | rejected hs => cases hs _ hmem
    | eoi _ hs => cases eq_of_failed_mem hs hmem rfl
    | failed _ _ hs =>
        cases eq_of_failed_mem hs hmem rfl
        rfl
  rejected := by
    intro hlog msg hr
    rw [delivered_of_succeeded hlog]
    cases h with
    | @stopped _ q' hs _ hstopped =>
        obtain ⟨x, hx⟩ := hstop q' hstopped
        rw [Ending.result, hx] at hr
        cases hr
    | @rejected _ b c q' msg' hs hb hreach hlive hc =>
        obtain rfl : msg' = msg := Except.error.inj hr
        have hscan := hreach.scan_failed hlive hc []
        rw [hb]
        exact ⟨b.length, by simp, hfail _ _ _ hscan⟩
    | eoi => exact absurd hlog (not_succeeded_concat rfl)
    | failed => exact absurd hlog (not_succeeded_concat rfl)
  last_failed _ _ _ := h.last_failed

/-- What the log of a run of `parse` says of its result. -/
structure ParseAgrees (P : Platform) (log : List Read) (r : Result Sexp String) : Prop
    extends LogAgrees (parseString P.toSys) log r where
  ok_iff : ∀ x, r = .ok x ↔
    Succeeded log ∧ parseString P.toSys (delivered log) = .ok (.ok x)
  char_failed : ∀ e, Read.char (.error e) ∈ log → r = .error prematureEndOfInput
  /-- Once the bytes delivered make up an expression nothing more is read, but
  for the zero bytes of an empty atom. -/
  ok_last : ∀ x, r = .ok x → ∀ pre post, log = pre ++ post →
    (∃ y, parseString P.toSys (delivered pre) = .ok (.ok y)) →
    delivered pre = delivered log ∧
      (post = [] ∨ x = .atom [] ∧ post = [.string 0 (.ok [])])

/-- What the log of a run of `parse_many` says of its result. -/
structure ParseManyAgrees (P : Platform) (log : List Read) (r : Result (List Sexp) String) :
    Prop extends LogAgrees (parseStringMany P.toSys) log r where
  char_failed : ∀ e, Read.char (.error e) ∈ log →
    ∃ v, parseStringMany P.toSys (delivered log) = .ok v ∧ r = v.mapError Prod.snd

section Results

variable {P : Platform} {log : List Read} {ending : Ending}

theorem Ends.ok_iff (h : Ends (oneReader P.maxStringLength) .start log ending) (x : Sexp) :
    ending.result answerOne = .ok x ↔
      Succeeded log ∧ parseString P.toSys (delivered log) = .ok (.ok x) := by
  cases h with
  | @stopped _ q' hlog hreach hs =>
      obtain ⟨y, rfl, hy⟩ := answerOne_of_stopped hs
      have hscan := hreach.scan_stopped hs []
      rw [List.append_nil] at hscan
      rw [delivered_of_succeeded hlog, parseString_of_stopped hscan, if_pos rfl, Ending.result, hy]
      simp [hlog]
  | @rejected _ b c q' msg hlog hb hreach hs hc =>
      have hscan := hreach.scan_failed hs hc []
      rw [← hb] at hscan
      rw [delivered_of_succeeded hlog, parseString_of_failed hscan, Ending.result]
      simp
  | eoi e hlog hreach hs =>
      rw [Ending.result, answerOne_of_live hs]
      constructor
      · intro hr
        cases hr
      · intro hx
        exact absurd hx.1 (not_succeeded_concat rfl)
  | failed n e hlog =>
      constructor
      · intro hr
        cases hr
      · intro hx
        exact absurd hx.1 (not_succeeded_concat rfl)

theorem Ends.char_failed_one (h : Ends (oneReader P.maxStringLength) .start log ending)
    {e : String} (he : Read.char (.error e) ∈ log) :
    ending.result answerOne = .error prematureEndOfInput := by
  cases h with
  | stopped hlog => cases hlog _ he
  | rejected hlog => cases hlog _ he
  | eoi e' hlog hreach hs => exact answerOne_of_live hs
  | failed n e' hlog => cases eq_of_failed_mem hlog he rfl

theorem Ends.char_failed_many (h : Ends (manyReader P.maxStringLength) .start log ending)
    {e : String} (he : Read.char (.error e) ∈ log) :
    ∃ v, parseStringMany P.toSys (delivered log) = .ok v ∧
      ending.result answerMany = v.mapError Prod.snd := by
  cases h with
  | stopped hlog => cases hlog _ he
  | rejected hlog => cases hlog _ he
  | @eoi log q' e' hlog hreach hs =>
      have hscan := hreach.scan_pending hs
      rw [delivered_append hlog]
      have hnil : delivered [.char (.error e')] = [] := rfl
      rw [hnil, List.append_nil, parseStringMany_eq, hscan]
      refine ⟨_, rfl, ?_⟩
      simp only [Ending.result, answerMany, reportMany]
      cases q'.finish <;> rfl
  | failed n e' hlog => cases eq_of_failed_mem hlog he rfl

/-- A proper prefix of an accepted string is not accepted. -/
theorem delivered_eq_of_prefix {pre post : List Read} {x y : Sexp} (hlog : log = pre ++ post)
    (hs : Succeeded log) (hx : parseString P.toSys (delivered log) = .ok (.ok x))
    (hy : parseString P.toSys (delivered pre) = .ok (.ok y)) : delivered pre = delivered log := by
  have hpre : Succeeded pre := by
    intro e he
    apply hs
    rw [hlog]
    exact List.mem_append_left post he
  have hsplit : delivered log = delivered pre ++ delivered post := by
    rw [hlog, delivered_append hpre, delivered_of_succeeded hpre]
  have heq : delivered pre ++ delivered post = delivered log ++ [] := by
    rw [List.append_nil, hsplit]
  exact ((parseString_eq_ok_iff.mp hy).prefix_unique P.nine_le_maxStringLength
    (parseString_eq_ok_iff.mp hx) heq).1

/-- Reads behind the byte that completes an expression deliver nothing. -/
theorem LastTurn.eq_nil_or {x : Sexp} {reads turn pre post : List Read} (h : LastTurn x turn)
    (hlog : reads ++ turn = pre ++ post) (hpost : post.flatMap Read.bytes = []) :
    post = [] ∨ x = .atom [] ∧ post = [.string 0 (.ok [])] := by
  have hchar {reads pre post : List Read} {c : UInt8}
      (hlog : reads ++ [.char (.ok c)] = pre ++ post)
      (hpost : post.flatMap Read.bytes = []) : post = [] := by
    rcases List.eq_nil_or_concat' post with rfl | ⟨post', e, rfl⟩
    · rfl
    · rw [← List.append_assoc] at hlog
      obtain ⟨-, he⟩ := List.append_inj' hlog rfl
      cases he
      simp [Read.bytes] at hpost
  cases h with
  | token c => exact Or.inl (hchar hlog hpost)
  | @atom c n a hn hx =>
      rcases List.eq_nil_or_concat' post with rfl | ⟨post', e, rfl⟩
      · exact Or.inl rfl
      · have hsplit : (reads ++ [.char (.ok c)]) ++ [.string n (.ok a)] = (pre ++ post') ++ [e] := by
          simpa using hlog
        obtain ⟨hrest, he⟩ := List.append_inj' hsplit rfl
        cases he
        rw [List.flatMap_append, List.append_eq_nil_iff, List.flatMap_singleton] at hpost
        obtain ⟨hpost', rfl⟩ := hpost
        rw [hchar hrest hpost']
        cases hn
        exact Or.inr ⟨hx, rfl⟩

theorem Ends.parseAgrees (h : Ends (oneReader P.maxStringLength) .start log ending)
    (hlast : ∀ x, ending.result answerOne = .ok x → Succeeded log →
      ∃ reads turn, log = reads ++ turn ∧ LastTurn x turn) :
    ParseAgrees P log (ending.result answerOne) where
  toLogAgrees := by
    apply h.agrees
    · intro s p msg
      exact parseString_of_failed
    · intro q hq
      obtain ⟨x, -, hx⟩ := answerOne_of_stopped hq
      exact ⟨x, hx⟩
  ok_iff := h.ok_iff
  char_failed _ := h.char_failed_one
  ok_last := by
    rintro x hr pre post hlog ⟨y, hy⟩
    obtain ⟨hs, hx⟩ := (h.ok_iff x).mp hr
    obtain ⟨reads, turn, hsplit, hturn⟩ := hlast x hr hs
    have heq := delivered_eq_of_prefix hlog hs hx hy
    refine ⟨heq, hturn.eq_nil_or (hsplit.symm.trans hlog) ?_⟩
    have hpre : Succeeded pre := fun e he => hs e (hlog ▸ List.mem_append_left post he)
    have hpost : Succeeded post := fun e he => hs e (hlog ▸ List.mem_append_right pre he)
    rw [hlog, delivered_append hpre, delivered_of_succeeded hpre,
      delivered_of_succeeded hpost] at heq
    exact List.append_right_eq_self.mp heq.symm

theorem Ends.parseManyAgrees (h : Ends (manyReader P.maxStringLength) .start log ending) :
    ParseManyAgrees P log (ending.result answerMany) where
  toLogAgrees := by
    apply h.agrees
    · intro s p msg
      exact parseStringMany_of_failed
    · intro q hq
      cases hq
  char_failed _ := h.char_failed_many

end Results

/-- The monadic parsers agree with the string parsers whatever their source
answers. A run that terminates makes some reads, and these determine its
result. -/
theorem transcript_determines_result (P : Platform) {σ T : Type} (I : Input (StateM σ) T)
    (hI : I.Honest) (input : T) (s s' : σ) :
    (∀ r, Comp.Returns (parse P.toSys I input) s r s' →
      ∃ log, Comp.Returns (parse P.toSys I.traced input) (s, []) r (s', log) ∧
        ParseAgrees P log r) ∧
    ∀ r, Comp.Returns (parseMany P.toSys I input) s r s' →
      ∃ log, Comp.Returns (parseMany P.toSys I.traced input) (s, []) r (s', log) ∧
        ParseManyAgrees P log r := by
  have hb := Lexer.bounded_create P.toSys
  constructor
  · rintro r ⟨fuel, h⟩
    have herase : Comp.Erases Prod.fst (parse P.toSys I.traced input fuel)
      (parse P.toSys I input fuel) := erases_parse_loop P.toSys I input fuel _ _
    obtain ⟨⟨_, log⟩, rfl, hlog⟩ := herase.exec_eq_ok (s := (s, [])) h
    obtain ⟨reads, ending, rfl, hends, rfl⟩ :=
      endsAs_parse_loop hI fuel hb (Or.inl rfl) _ _ _ _ _ hlog
    refine ⟨_, ⟨fuel, hlog⟩, hends.parseAgrees fun x hx hs => ?_⟩
    rw [hx] at hlog
    exact exists_lastTurn hI fuel hs hlog
  · rintro r ⟨fuel, h⟩
    have herase : Comp.Erases Prod.fst (parseMany P.toSys I.traced input fuel)
      (parseMany P.toSys I input fuel) := erases_parseMany_loop P.toSys I input fuel _ _
    obtain ⟨⟨_, log⟩, rfl, hlog⟩ := herase.exec_eq_ok (s := (s, [])) h
    obtain ⟨reads, ending, rfl, hends, rfl⟩ := endsAs_parseMany_loop hI fuel hb .empty _ _ _ _ _ hlog
    exact ⟨_, ⟨fuel, hlog⟩, hends.parseManyAgrees⟩

/-- A channel as a source: its contents are the state. -/
def channelSource : Input (StateM InChannel) Unit where
  readString _ n := fun ic =>
    if n < 0 ∨ ic.length < n.toNat then (.error prematureEndOfInput, [])
    else (.ok (ic.take n.toNat), ic.drop n.toNat)
  readChar _ := fun ic =>
    match ic with
    | [] => (.error prematureEndOfInput, [])
    | c :: ic => (.ok c, ic)

theorem honest_channelSource : channelSource.Honest := by
  intro input n ic a h
  simp only [channelSource, StateT.run] at h
  split at h
  · cases h
  · rename_i hn
    cases h
    rw [List.length_take_of_le (by omega)]
    omega

theorem transcript_sample :
    let r : Result Sexp String := .ok (.list [.atom ['a'.toUInt8]])
    let rs : Result (List Sexp) String := .ok [.list [.atom ['a'.toUInt8]], .list []]
    let s : Bytes := ['('.toUInt8, '1'.toUInt8, ':'.toUInt8, 'a'.toUInt8, ')'.toUInt8]
    let s' : Bytes := ['('.toUInt8, ')'.toUInt8]
    (∃ log, Comp.Returns (parse Platform.native64.toSys channelSource.traced ()) (s ++ s', []) r
      (s', log) ∧ ParseAgrees Platform.native64 log r) ∧
    ∃ log, Comp.Returns (parseMany Platform.native64.toSys channelSource.traced ()) (s ++ s', []) rs
      ([], log) ∧ ParseManyAgrees Platform.native64 log rs := by
  intro r rs s s'
  have hrun : Comp.Returns (parse Platform.native64.toSys channelSource ()) (s ++ s') r s' :=
    ⟨4, rfl⟩
  have hruns : Comp.Returns (parseMany Platform.native64.toSys channelSource ()) (s ++ s') rs [] :=
    ⟨7, rfl⟩
  obtain ⟨hone, -⟩ := transcript_determines_result Platform.native64 channelSource
    honest_channelSource () (s ++ s') s'
  obtain ⟨-, hmany⟩ := transcript_determines_result Platform.native64 channelSource
    honest_channelSource () (s ++ s') []
  exact ⟨hone r hrun, hmany rs hruns⟩

/-- No read stands behind the byte that completes an expression. -/
def NoReadBehind (P : Platform) (log : List Read) : Prop :=
  ∀ pre post, log = pre ++ post →
    (∃ y, parseString P.toSys (delivered pre) = .ok (.ok y)) → post = []

/-- The `:` of `0:` completes an atom, and still its zero bytes are read. -/
theorem empty_atom_read :
    let s : Bytes := ['0'.toUInt8, ':'.toUInt8]
    let log : List Read := [.char (.ok '0'.toUInt8), .char (.ok ':'.toUInt8), .string 0 (.ok [])]
    Comp.Returns (parse Platform.native64.toSys channelSource.traced ()) (s, []) (.ok (.atom []))
      ([], log) ∧ ¬ NoReadBehind Platform.native64 log := by
  intro s log
  refine ⟨⟨2, rfl⟩, fun h => ?_⟩
  have hderives : Derives Platform.native64.maxStringLength (['0'.toUInt8] ++ [':'.toUInt8])
      (.atom []) :=
    .atom (List.cons_ne_nil _ _) (Decimal.forall_isDigit_of_all rfl) rfl (Nat.zero_le _)
  have hparse : parseString Platform.native64.toSys s = .ok (.ok (.atom [])) :=
    parseString_eq_ok_iff.mpr hderives
  have hnil := h [.char (.ok '0'.toUInt8), .char (.ok ':'.toUInt8)] [.string 0 (.ok [])] rfl
    ⟨.atom [], hparse⟩
  cases hnil

end MakeParser

end Csexp
