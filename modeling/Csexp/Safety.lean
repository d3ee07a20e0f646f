import Mathlib.Logic.Relation
import Csexp.Framing
import Csexp.Transcripts
import Csexp.Library.Systems

/-!
# No assertion fails and no exception escapes

The loops of the three parsers of a single expression are entered with a
lexer whose length is in range and with an unfinished stack. Hence none of
them reaches an `assert false`, none reads out of bounds, and whatever
they raise is caught by a handler of the same entry point.
-/

namespace Csexp

open Incremental Effects Relation

/-! ## Stacks between tokens -/

/-- What a token may do to a stack. The bytes of an atom are those that
the source has answered, whatever their number. -/
inductive Stack.Grows (stack : Stack) : Stack → Prop where
  | atom (a : Bytes) : Grows stack (stack.addAtom a)
  | other {x : Lexer.Other} {stack' : Stack} (h : stack.addToken x = .ok stack') :
      Grows stack stack'

theorem Stack.unfinished_grows {stack stack' : Stack} (h : stack.Unfinished)
    (hg : stack.Grows stack') (hne : ∀ x, stack' ≠ .sexp x .empty) : stack'.Unfinished := by
  cases hg with
  | atom a =>
      apply (Stack.unfinished_sexp h (.atom a)).resolve_left
      rintro rfl
      exact hne _ rfl
  | @other x _ hx =>
      cases x with
      | await =>
          cases hx
          exact h
      | lparen =>
          cases hx
          exact Stack.unfinished_opened h
      | rparen =>
          apply (Stack.unfinished_closeParen h hx).resolve_left
          rintro ⟨x, rfl⟩
          exact hne x rfl

theorem Stack.addToken_error {stack : Stack} {x : Lexer.Other} {e : Exn}
    (h : stack.addToken x = .error e) : ∃ msg, e = .parseError msg := by
  cases x with
  | await => cases h
  | lparen => cases h
  | rparen => exact ⟨_, Stack.closeParen_error h⟩

/-- The arguments with which a loop is called, where `ρ` is the type of
what it reads from: a position, a channel or the state of a source. -/
structure Head (ρ : Type) where
  rest : ρ
  lexer : Lexer
  stack : Stack

/-- What holds whenever a loop of a parser of one expression is entered. -/
structure Head.Safe {ρ : Type} (S : Sys) (h : Head ρ) : Prop where
  bounded : h.lexer.Bounded S
  unfinished : h.stack.Unfinished

/-- At such a point `feed_eoi_single` always returns an error. -/
theorem Head.Safe.feedEoiSingle_eq {ρ : Type} {S : Sys} {h : Head ρ} (hs : h.Safe S) :
    feedEoiSingle h.lexer h.stack = .ok (.error prematureEndOfInput) :=
  feedEoiSingle_of_unfinished h.lexer hs.unfinished

theorem Head.safe_start {ρ : Type} (S : Sys) (rest : ρ) :
    Head.Safe S ⟨rest, Lexer.create, .empty⟩ where
  bounded := Lexer.bounded_create S
  unfinished := Or.inl rfl

theorem safe_of_reachable {ρ : Type} {S : Sys} {turn : Head ρ → Head ρ → Prop}
    (hturn : ∀ g h, g.Safe S → turn g h → h.Safe S) {g h : Head ρ} (hg : g.Safe S)
    (hr : ReflTransGen turn g h) : h.Safe S := by
  induction hr with
  | refl => exact hg
  | tail _ ht ih => exact hturn _ _ ih ht

/-! ## Strings -/

section Strings

variable {S : Sys} {s : Bytes}

theorem oneToken_grows {pos len pos' : ℕ} {lexer lexer' : Lexer} {stack stack' : Stack}
    (h : oneToken S s pos len lexer stack = .ok (.ok (pos', lexer', stack'))) :
    stack.Grows stack' ∧ (∃ c x, lexer.feed S c = .ok (x, lexer')) ∧ pos' ≤ s.length := by
  have hpos := (oneToken_lt h).1
  unfold oneToken at h
  split at h
  · cases h
  · rename_i c _
    split at h
    · cases h
    · cases h
    · rename_i hf
      split at h
      · cases h
      · rename_i hsub
        cases h
        exact ⟨.atom _, ⟨c, _, hf⟩, (stringSub_eq_ok hsub).2.1⟩
    · rename_i hf
      split at h
      · cases h
      · cases h
      · rename_i hx
        cases h
        exact ⟨.other hx, ⟨c, _, hf⟩, hpos⟩

/-- One turn of the loop of `parse_string`: the loop goes on behind a token
that does not complete the expression. -/
def parseString.Turn (S : Sys) (s : Bytes) (g h : Head ℕ) : Prop :=
  g.rest ≠ s.length ∧
    oneToken S s g.rest s.length g.lexer g.stack = .ok (.ok (h.rest, h.lexer, h.stack)) ∧
    ∀ x, h.stack ≠ .sexp x .empty

/-- One turn of the loop of `parse_string_many`. -/
def parseStringMany.Turn (S : Sys) (s : Bytes) (g h : Head ℕ) : Prop :=
  g.rest ≠ s.length ∧
    oneToken S s g.rest s.length g.lexer g.stack = .ok (.ok (h.rest, h.lexer, h.stack))

theorem parseString.loop_turn {g h : Head ℕ} (ht : parseString.Turn S s g h) :
    parseString.loop S s g.rest s.length g.lexer g.stack =
      parseString.loop S s h.rest s.length h.lexer h.stack := by
  obtain ⟨hne, htok, hgo⟩ := ht
  rw [parseString.loop_of_ne hne, htok]
  simp only
  rw [parseString.cont]
  intro x hx
  exact hgo x hx

theorem parseStringMany.loop_turn {g h : Head ℕ} (ht : parseStringMany.Turn S s g h) :
    parseStringMany.loop S s g.rest s.length g.lexer g.stack =
      parseStringMany.loop S s h.rest s.length h.lexer h.stack := by
  obtain ⟨hne, htok⟩ := ht
  rw [parseStringMany.loop_of_ne hne, htok]

end Strings

/-- The string parsers on `s`: the entry points raise nothing, and whenever
a loop is entered with some arguments, the invariant holds and the next
`String.unsafe_get` is in bounds. -/
structure StringSafe (P : Platform) (s : Bytes) : Prop where
  parseString_ok : ∃ r, parseString P.toSys s = .ok r
  parseStringMany_ok : ∃ r, parseStringMany P.toSys s = .ok r
  parseString_head : ∀ h, ReflTransGen (parseString.Turn P.toSys s) ⟨0, Lexer.create, .empty⟩ h →
    parseString P.toSys s = parseString.loop P.toSys s h.rest s.length h.lexer h.stack ∧
    (h.rest ≠ s.length → h.rest < s.length) ∧ h.stack.Unfinished ∧
    feedEoiSingle h.lexer h.stack = .ok (.error prematureEndOfInput)
  parseStringMany_head : ∀ h,
    ReflTransGen (parseStringMany.Turn P.toSys s) ⟨0, Lexer.create, .empty⟩ h →
    parseStringMany P.toSys s = parseStringMany.loop P.toSys s h.rest s.length h.lexer h.stack ∧
    (h.rest ≠ s.length → h.rest < s.length)

theorem parseString.turn_safe {P : Platform} {s : Bytes} {g h : Head ℕ} (hg : g.Safe P.toSys)
    (ht : parseString.Turn P.toSys s g h) : h.Safe P.toSys := by
  obtain ⟨hgrows, ⟨c, x, hf⟩, -⟩ := oneToken_grows ht.2.1
  exact ⟨Lexer.feed_bounded P hg.bounded hf, Stack.unfinished_grows hg.unfinished hgrows ht.2.2⟩

theorem string_safe (P : Platform) (s : Bytes) : StringSafe P s where
  parseString_ok := ⟨_, parseString_eq P s⟩
  parseStringMany_ok := ⟨_, parseStringMany_eq P s⟩
  parseString_head := by
    intro h hr
    have hsafe := safe_of_reachable (fun _ _ => parseString.turn_safe)
      (Head.safe_start P.toSys 0) hr
    refine ⟨?_, ?_, hsafe.unfinished, hsafe.feedEoiSingle_eq⟩
    · induction hr with
      | refl => rfl
      | tail hr ht ih =>
          have hg := safe_of_reachable (fun _ _ => parseString.turn_safe)
            (Head.safe_start P.toSys 0) hr
          rw [ih hg, parseString.loop_turn ht]
    · intro hne
      apply lt_of_le_of_ne _ hne
      cases hr with
      | refl => exact Nat.zero_le _
      | tail _ ht => exact (oneToken_grows ht.2.1).2.2
  parseStringMany_head := by
    intro h hr
    constructor
    · induction hr with
      | refl => rfl
      | tail _ ht ih => rw [ih, parseStringMany.loop_turn ht]
    · intro hne
      apply lt_of_le_of_ne _ hne
      cases hr with
      | refl => exact Nat.zero_le _
      | tail _ ht => exact (oneToken_grows ht.2).2.2

/-! ## Channels -/

section Channels

variable {S : Sys} {alloc : Allocator}

theorem Channel.oneToken_grows {c : UInt8} {ic ic' : InChannel} {lexer lexer' : Lexer}
    {stack stack' : Stack}
    (h : Channel.oneToken S alloc c lexer stack ic = (.ok (lexer', stack'), ic')) :
    stack.Grows stack' ∧ ∃ x, lexer.feed S c = .ok (x, lexer') := by
  unfold Channel.oneToken at h
  split at h
  · cases h
  · rename_i hf
    split at h
    · cases h
    · cases h
    · cases h
      exact ⟨.atom _, _, hf⟩
  · rename_i hf
    split at h
    · cases h
    · rename_i hx
      cases h
      exact ⟨.other hx, _, hf⟩

/-- The first call of the loop of `input_opt` on a channel with the
contents `b`. -/
def inputOpt.Entry (S : Sys) (b : InChannel) (h : Head InChannel) : Prop :=
  ∃ c x, inputChar b = (.ok c, h.rest) ∧ Lexer.create.feed S c = .ok (.other x, h.lexer) ∧
    Stack.empty.addToken x = .ok h.stack

/-- One turn of the loop of `input_opt`. -/
def inputOpt.Turn (S : Sys) (alloc : Allocator) (g h : Head InChannel) : Prop :=
  ∃ c ic, inputChar g.rest = (.ok c, ic) ∧
    Channel.oneToken S alloc c g.lexer g.stack ic = (.ok (h.lexer, h.stack), h.rest) ∧
    ∀ x, h.stack ≠ .sexp x .empty

theorem inputOpt.loop_turn {g h : Head InChannel} (ht : inputOpt.Turn S alloc g h) :
    inputOpt.loop S alloc g.lexer g.stack g.rest =
      inputOpt.loop S alloc h.lexer h.stack h.rest := by
  obtain ⟨c, ic, hc, htok, hgo⟩ := ht
  rw [inputChar_eq_ok hc, inputOpt.loop_cons, htok]
  split
  · rename_i heq
    cases heq
  · rename_i heq
    simp only [Prod.mk.injEq, Except.ok.injEq] at heq
    exact absurd heq.1.2 (hgo _)
  · rename_i heq
    cases heq
    rfl

theorem inputOpt_of_entry {b : InChannel} {h : Head InChannel} (he : inputOpt.Entry S b h) :
    inputOpt S alloc b = inputOpt.handle (inputOpt.loop S alloc h.lexer h.stack h.rest) := by
  obtain ⟨c, x, hc, hf, hx⟩ := he
  simp only [inputOpt, hc, inputOpt.first, hf, hx]

/-- A fresh lexer never yields an atom. -/
theorem Lexer.feed_create_ne_atom (P : Platform) (c : UInt8) (n : ℤ) (t : Lexer) :
    Lexer.create.feed P.toSys c ≠ .ok (.atom n, t) := by
  intro h
  have hfeeds := Lexer.feeds P (Lexer.bounded_create P.toSys) c
  rw [h] at hfeeds
  cases hfeeds

end Channels

/-- The channel parsers on a channel with the contents `b`. -/
structure ChannelSafe (P : Platform) (b : InChannel) : Prop where
  inputOpt_ok : ∃ r, (inputOpt P.toSys .always b).1 = .ok r
  input_ok : ∃ r, (input P.toSys .always b).1 = .ok r
  inputMany_ok : ∃ r, (inputMany P.toSys .always b).1 = .ok r
  first_char : ∀ c n t, Lexer.create.feed P.toSys c ≠ .ok (.atom n, t)
  inputOpt_head : ∀ g h, inputOpt.Entry P.toSys b g →
    ReflTransGen (inputOpt.Turn P.toSys .always) g h →
    inputOpt P.toSys .always b =
      inputOpt.handle (inputOpt.loop P.toSys .always h.lexer h.stack h.rest) ∧
    h.stack.Unfinished ∧ feedEoiSingle h.lexer h.stack = .ok (.error prematureEndOfInput)

theorem inputOpt.entry_safe {P : Platform} {b : InChannel} {h : Head InChannel}
    (he : inputOpt.Entry P.toSys b h) : h.Safe P.toSys := by
  obtain ⟨c, x, -, hf, hx⟩ := he
  refine ⟨Lexer.feed_bounded P (Lexer.bounded_create P.toSys) hf, ?_⟩
  apply Stack.unfinished_grows (Or.inl rfl) (.other hx)
  intro y hy
  rw [hy] at hx
  cases x <;> cases hx

theorem inputOpt.turn_safe {P : Platform} {alloc : Allocator} {g h : Head InChannel}
    (hg : g.Safe P.toSys) (ht : inputOpt.Turn P.toSys alloc g h) : h.Safe P.toSys := by
  obtain ⟨c, ic, -, htok, hgo⟩ := ht
  obtain ⟨hgrows, x, hf⟩ := Channel.oneToken_grows htok
  exact ⟨Lexer.feed_bounded P hg.bounded hf, Stack.unfinished_grows hg.unfinished hgrows hgo⟩

theorem channel_safe (P : Platform) (b : InChannel) : ChannelSafe P b where
  inputOpt_ok := by
    by_cases hb : b = []
    · subst hb
      exact ⟨_, rfl⟩
    · rw [inputOpt_of_ne_nil hb]
      exact ⟨_, rfl⟩
  input_ok := by
    by_cases hb : b = []
    · subst hb
      exact ⟨_, rfl⟩
    · obtain ⟨p, r, -, h⟩ := inputOpt_input P hb
      rw [h.2]
      exact ⟨_, rfl⟩
  inputMany_ok := by
    rw [inputMany_eq]
    exact ⟨_, rfl⟩
  first_char := Lexer.feed_create_ne_atom P
  inputOpt_head := by
    intro g h hg hr
    have hsafe := safe_of_reachable (fun _ _ => inputOpt.turn_safe) (inputOpt.entry_safe hg) hr
    refine ⟨?_, hsafe.unfinished, hsafe.feedEoiSingle_eq⟩
    rw [inputOpt_of_entry hg]
    clear hsafe
    induction hr with
    | refl => rfl
    | tail _ ht ih => rw [ih, inputOpt.loop_turn ht]

/-! ## Monadic sources -/

namespace MakeParser

section Sources

variable {P : Platform} {S : Sys} {σ T α : Type} {I : Input (StateM σ) T} {input : T}

theorem quiet_bindResult {β : Type} {x : Comp Exn (StateM σ) (Result α String)}
    {f : α → Comp Exn (StateM σ) (Result β String)} (hx : x.Quiet)
    (hf : ∀ s a s', x.exec s = (.ok (some (.ok a)), s') → (f a).Quiet) :
    (bindResult x f).Quiet := by
  apply hx.bind
  intro s r s' h
  cases r with
  | error err => exact Comp.quiet_pure _
  | ok a => exact hf s a s' h

theorem quiet_oneToken (c : UInt8) (lexer : Lexer) (stack : Stack) :
    (oneToken S I input c lexer stack).Quiet := by
  unfold oneToken
  split
  · exact Comp.quiet_pure _
  · rename_i e hne hf
    obtain ⟨msg, rfl⟩ := Lexer.feed_error _ hf
    exact absurd rfl (hne msg)
  · apply quiet_bindResult (Comp.quiet_lift _)
    intro s a s' _
    exact Comp.quiet_pure _
  · split
    · exact Comp.quiet_pure _
    · rename_i e hne hx
      obtain ⟨msg, rfl⟩ := Stack.addToken_error hx
      exact absurd rfl (hne msg)
    · exact Comp.quiet_pure _

theorem oneToken_grows {c : UInt8} {lexer lexer' : Lexer} {stack stack' : Stack} {s s' : σ}
    (h : (oneToken S I input c lexer stack).exec s =
      (.ok (some (.ok (lexer', stack'))), s')) :
    stack.Grows stack' ∧ ∃ x, lexer.feed S c = .ok (x, lexer') := by
  unfold oneToken at h
  split at h
  · cases h
  · cases h
  · rename_i hf
    obtain ⟨r, s₁, hread, h⟩ := Comp.exec_bind_eq_ok.mp h
    cases r with
    | error err => cases h
    | ok a =>
        cases h
        exact ⟨.atom _, _, hf⟩
  · rename_i hf
    split at h
    · cases h
    · cases h
    · rename_i hx
      cases h
      exact ⟨.other hx, _, hf⟩

theorem quiet_readToken {lexer : Lexer} {stack : Stack} {eoi : Eval (Result α String)}
    (heoi : ∃ r, eoi = .ok r)
    {k : Lexer × Stack → Comp Exn (StateM σ) (Result α String)}
    (hk : ∀ c x lexer' stack', lexer.feed S c = .ok (x, lexer') → stack.Grows stack' →
      (k (lexer', stack')).Quiet) : (readToken S I input lexer stack eoi k).Quiet := by
  apply (Comp.quiet_lift _).bind
  intro s r s' _
  cases r with
  | error e =>
      obtain ⟨r, rfl⟩ := heoi
      intro s e s' h
      cases h
  | ok c =>
      apply quiet_bindResult (quiet_oneToken c lexer stack)
      rintro s ⟨lexer', stack'⟩ s' htok
      obtain ⟨hgrows, x, hf⟩ := oneToken_grows htok
      exact hk c x lexer' stack' hf hgrows

theorem quiet_parse_loop (fuel : ℕ) {lexer : Lexer} (hb : lexer.Bounded P.toSys) {stack : Stack}
    (hu : stack.Unfinished) : (parse.loop P.toSys I fuel input lexer stack).Quiet := by
  induction fuel generalizing lexer stack with
  | zero => exact Comp.quiet_outOfFuel
  | succ fuel ih =>
      apply quiet_readToken ⟨_, feedEoiSingle_of_unfinished lexer hu⟩
      intro c x lexer' stack' hf hgrows
      split
      · exact Comp.quiet_pure _
      · rename_i hne heq
        cases heq
        apply ih (Lexer.feed_bounded P hb hf)
        apply Stack.unfinished_grows hu hgrows
        rintro y rfl
        exact hne y rfl

theorem quiet_parseMany_loop (fuel : ℕ) (lexer : Lexer) (stack : Stack) :
    (parseMany.loop S I fuel input lexer stack).Quiet := by
  induction fuel generalizing lexer stack with
  | zero => exact Comp.quiet_outOfFuel
  | succ fuel ih =>
      apply quiet_readToken ⟨_, feedEoiMany_eq lexer stack⟩
      intro c x lexer' stack' _ _
      exact ih lexer' stack'

/-- One turn of the loop of `parse`. -/
def parse.Turn (S : Sys) (I : Input (StateM σ) T) (input : T) (g h : Head σ) : Prop :=
  ∃ c s, (I.readChar input).run g.rest = (.ok c, s) ∧
    (oneToken S I input c g.lexer g.stack).exec s =
      (.ok (some (.ok (h.lexer, h.stack))), h.rest) ∧
    ∀ x, h.stack ≠ .sexp x .empty

theorem parse.loop_turn {g h : Head σ} (ht : parse.Turn S I input g h) (fuel : ℕ) :
    (parse.loop S I (fuel + 1) input g.lexer g.stack).exec g.rest =
      (parse.loop S I fuel input h.lexer h.stack).exec h.rest := by
  obtain ⟨c, s, hc, htok, hgo⟩ := ht
  rw [parse_loop_succ, readToken, Comp.exec_bind, Comp.exec_lift, hc]
  simp only [bindResult, Comp.exec_bind, htok]

theorem parse.turn_safe {g h : Head σ} (hg : g.Safe P.toSys)
    (ht : parse.Turn P.toSys I input g h) : h.Safe P.toSys := by
  obtain ⟨c, s, -, htok, hgo⟩ := ht
  obtain ⟨hgrows, x, hf⟩ := oneToken_grows htok
  exact ⟨Lexer.feed_bounded P hg.bounded hf, Stack.unfinished_grows hg.unfinished hgrows hgo⟩

end Sources

/-- The monadic parsers on a source that answers as it likes, in the state
`s`. -/
structure SourceSafe {σ T : Type} (P : Platform) (I : Input (StateM σ) T) (input : T)
    (s : σ) : Prop where
  parse_quiet : ∀ fuel e s', (parse P.toSys I input fuel).exec s ≠ (.error e, s')
  parseMany_quiet : ∀ fuel e s', (parseMany P.toSys I input fuel).exec s ≠ (.error e, s')
  parse_head : ∀ h, ReflTransGen (parse.Turn P.toSys I input) ⟨s, Lexer.create, .empty⟩ h →
    (∃ n, ∀ fuel, (parse P.toSys I input (fuel + n)).exec s =
      (parse.loop P.toSys I fuel input h.lexer h.stack).exec h.rest) ∧
    h.stack.Unfinished ∧ feedEoiSingle h.lexer h.stack = .ok (.error prematureEndOfInput)

theorem source_safe {σ T : Type} (P : Platform) (I : Input (StateM σ) T) (input : T) (s : σ) :
    SourceSafe P I input s where
  parse_quiet fuel := quiet_parse_loop fuel (Lexer.bounded_create _) (Or.inl rfl) s
  parseMany_quiet fuel := quiet_parseMany_loop fuel _ _ s
  parse_head := by
    intro h hr
    have hsafe := safe_of_reachable (fun _ _ => parse.turn_safe) (Head.safe_start P.toSys s) hr
    refine ⟨?_, hsafe.unfinished, hsafe.feedEoiSingle_eq⟩
    clear hsafe
    induction hr with
    | refl => exact ⟨0, fun _ => rfl⟩
    | tail _ ht ih =>
        obtain ⟨n, hn⟩ := ih
        refine ⟨n + 1, fun fuel => ?_⟩
        rw [Nat.add_comm n, ← Nat.add_assoc, hn, parse.loop_turn ht]

/-! ## Sources that run dry -/

section Dry

variable {σ T α : Type} {P : Platform} {S : Sys} {I : Input (StateM σ) T} {input : T}

/-- Where the source may stand behind a turn of a loop, which reads a
character and perhaps a string. -/
def Behind (I : Input (StateM σ) T) (input : T) (s s₂ : σ) : Prop :=
  ∃ c s₁, (I.readChar input).run s = (.ok c, s₁) ∧
    (s₂ = s₁ ∨ ∃ n a, (I.readString input n).run s₁ = (.ok a, s₂))

/-- Whatever is read from the state `s` on, at some point there is no
further character. -/
def RunsDry (I : Input (StateM σ) T) (input : T) (s : σ) : Prop :=
  Acc (fun s₂ s => Behind I input s s₂) s

theorem runsDry_channelSource (ic : InChannel) : RunsDry channelSource () ic := by
  refine System.acc_of_size (I := fun _ => True) List.length (fun ic ic₂ _ h => ?_) trivial
  obtain ⟨c, ic₁, hc, hs⟩ := h
  have hshorter : ic₁.length < ic.length := by
    cases ic with
    | nil => cases hc
    | cons c' ic =>
        cases hc
        exact Nat.lt_succ_self _
  refine ⟨trivial, lt_of_le_of_lt ?_ hshorter⟩
  rcases hs with rfl | ⟨n, a, hs⟩
  · exact le_rfl
  · simp only [channelSource, StateT.run] at hs
    split at hs
    · cases hs
    · cases hs
      exact (List.drop_sublist _ _).length_le

/-- A token takes the source where a read of its string leaves it. -/
theorem exists_oneToken (S : Sys) (I : Input (StateM σ) T) (input : T) (c : UInt8)
    (lexer : Lexer) (stack : Stack) (s : σ) :
    ∃ r s', (oneToken S I input c lexer stack).exec s = (.ok (some r), s') ∧
      ∀ p, r = .ok p → s' = s ∨ ∃ n a, (I.readString input n).run s = (.ok a, s') := by
  unfold oneToken
  split
  · exact ⟨_, s, rfl, fun _ _ => Or.inl rfl⟩
  · rename_i e hne hf
    obtain ⟨msg, rfl⟩ := Lexer.feed_error _ hf
    exact absurd rfl (hne msg)
  · rename_i n _ _
    cases hr : (I.readString input n).run s with
    | mk r s₁ =>
        rw [bindResult, Comp.exec_bind, Comp.exec_lift, hr]
        cases r with
        | error err => exact ⟨_, s₁, rfl, fun p hp => by cases hp⟩
        | ok a => exact ⟨_, s₁, rfl, fun _ _ => Or.inr ⟨n, a, hr⟩⟩
  · split
    · exact ⟨_, s, rfl, fun _ _ => Or.inl rfl⟩
    · rename_i e hne hx
      obtain ⟨msg, rfl⟩ := Stack.addToken_error hx
      exact absurd rfl (hne msg)
    · exact ⟨_, s, rfl, fun _ _ => Or.inl rfl⟩

/-- A turn of a loop comes to its end if what follows it does. -/
theorem exists_readToken {lexer : Lexer} {stack : Stack} {eoi : Eval (Result α String)}
    (heoi : ∃ r, eoi = .ok r) {k : ℕ → Lexer × Stack → Comp Exn (StateM σ) (Result α String)}
    {s : σ}
    (hk : ∀ c s₂ x lexer' stack', Behind I input s s₂ →
      lexer.feed S c = .ok (x, lexer') → stack.Grows stack' →
      ∃ r s', Comp.Returns (fun fuel => k fuel (lexer', stack')) s₂ r s') :
    ∃ r s', Comp.Returns (fun fuel => readToken S I input lexer stack eoi (k fuel)) s r s' := by
  simp only [Comp.Returns, readToken, Comp.exec_bind, Comp.exec_lift]
  cases hc : (I.readChar input).run s with
  | mk r s₁ =>
      cases r with
      | error e =>
          obtain ⟨r, rfl⟩ := heoi
          exact ⟨r, s₁, 0, rfl⟩
      | ok c =>
          obtain ⟨r, s₂, htok, hs⟩ := exists_oneToken S I input c lexer stack s₁
          simp only [bindResult, Comp.exec_bind, htok]
          cases r with
          | error err => exact ⟨.error err, s₂, 0, rfl⟩
          | ok p =>
              obtain ⟨hgrows, x, hf⟩ := oneToken_grows htok
              exact hk c s₂ x p.1 p.2 ⟨c, s₁, hc, hs p rfl⟩ hf hgrows

theorem exists_parse_loop {s : σ} (h : RunsDry I input s) {lexer : Lexer}
    (hb : lexer.Bounded P.toSys) {stack : Stack} (hu : stack.Unfinished) :
    ∃ r s', Comp.Returns (fun fuel => parse.loop P.toSys I fuel input lexer stack) s r s' := by
  induction h generalizing lexer stack with
  | intro s _ ih =>
      have hturn : ∃ r s', Comp.Returns
          (fun fuel => parse.loop P.toSys I (fuel + 1) input lexer stack) s r s' := by
        simp only [parse_loop_succ]
        apply exists_readToken ⟨_, feedEoiSingle_of_unfinished lexer hu⟩
        intro c s₂ x lexer' stack' hbehind hf hgrows
        by_cases hdone : ∃ y, stack' = .sexp y .empty
        · obtain ⟨y, rfl⟩ := hdone
          exact ⟨.ok y, s₂, 0, rfl⟩
        · have hgo (y : Sexp) : stack' ≠ .sexp y .empty := fun hy => hdone ⟨y, hy⟩
          obtain ⟨r, s', fuel, hfuel⟩ := ih s₂ hbehind (Lexer.feed_bounded P hb hf)
            (Stack.unfinished_grows hu hgrows hgo)
          refine ⟨r, s', fuel, ?_⟩
          dsimp only
          split
          · rename_i heq
            cases heq
            exact absurd rfl (hgo _)
          · rename_i heq
            cases heq
            exact hfuel
      obtain ⟨r, s', hreturns⟩ := hturn
      exact ⟨r, s', hreturns.of_succ⟩

theorem exists_parseMany_loop {s : σ} (h : RunsDry I input s) (lexer : Lexer) (stack : Stack) :
    ∃ r s', Comp.Returns (fun fuel => parseMany.loop S I fuel input lexer stack) s r s' := by
  induction h generalizing lexer stack with
  | intro s _ ih =>
      have hturn : ∃ r s', Comp.Returns
          (fun fuel => parseMany.loop S I (fuel + 1) input lexer stack) s r s' := by
        simp only [parseMany_loop_succ]
        apply exists_readToken ⟨_, feedEoiMany_eq lexer stack⟩
        intro c s₂ x lexer' stack' hbehind _ _
        exact ih s₂ hbehind lexer' stack'
      obtain ⟨r, s', hreturns⟩ := hturn
      exact ⟨r, s', hreturns.of_succ⟩

/-- On a source that runs dry each parser comes to a result, and to one only. -/
theorem returns_of_runsDry (P : Platform) {s : σ} (h : RunsDry I input s) :
    (∃! p : Result Sexp String × σ, Comp.Returns (parse P.toSys I input) s p.1 p.2) ∧
      ∃! p : Result (List Sexp) String × σ,
        Comp.Returns (parseMany P.toSys I input) s p.1 p.2 := by
  constructor
  · obtain ⟨r, s', hr⟩ := exists_parse_loop h (Lexer.bounded_create P.toSys) (Or.inl rfl)
    exact ⟨(r, s'), hr, fun p hp => Prod.ext_iff.mpr (parse_unique _ _ _ hp hr)⟩
  · obtain ⟨r, s', hr⟩ := exists_parseMany_loop (S := P.toSys) h Lexer.create .empty
    exact ⟨(r, s'), hr, fun p hp => Prod.ext_iff.mpr (parseMany_unique _ _ _ hp hr)⟩

example (ic : InChannel) : ∃! p : Result (List Sexp) String × InChannel,
    Comp.Returns (parseMany Platform.native64.toSys channelSource ()) ic p.1 p.2 :=
  (returns_of_runsDry _ (runsDry_channelSource ic)).2

end Dry

end MakeParser

/-- No assertion can fail and no exception of the parser escapes, whatever
the string, the channel or the answers of a monadic source. -/
theorem no_exception_escapes (P : Platform) :
    (∀ s, StringSafe P s) ∧ (∀ b, ChannelSafe P b) ∧
      ∀ (σ T : Type) (I : Input (StateM σ) T) (input : T) (s : σ),
        MakeParser.SourceSafe P I input s :=
  ⟨string_safe P, channel_safe P, fun _ _ => MakeParser.source_safe P⟩

end Csexp
