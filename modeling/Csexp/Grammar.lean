import Csexp.Reader

/-!
# The grammar of canonical S-expressions

The bytes a reader has consumed always spell the state it is in: what is
on the stack, followed by the part of a token read so far. In one
direction this gives a derivation for every accepted string; in the other
a reader follows every derivation.
-/

namespace Csexp

open Decimal (IsDigit digitValue value)
open Incremental

mutual

/-- The byte string derives one expression, with atoms of at most `M`
bytes. Leading zeros are permitted in a length. -/
inductive Derives (M : ℕ) : Bytes → Sexp → Prop where
  | atom {ds a : Bytes} (hne : ds ≠ []) (hds : ∀ c ∈ ds, IsDigit c)
      (hval : value ds = a.length) (hM : a.length ≤ M) :
      Derives M (ds ++ ':'.toUInt8 :: a) (.atom a)
  | list {s : Bytes} {xs : List Sexp} (h : DerivesMany M s xs) :
      Derives M ('('.toUInt8 :: s ++ [')'.toUInt8]) (.list xs)

inductive DerivesMany (M : ℕ) : Bytes → List Sexp → Prop where
  | nil : DerivesMany M [] []
  | cons {s t : Bytes} {x : Sexp} {xs : List Sexp} (h : Derives M s x)
      (ht : DerivesMany M t xs) : DerivesMany M (s ++ t) (x :: xs)

end

variable {M : ℕ}

theorem DerivesMany.append {s t : Bytes} {xs ys : List Sexp} (h : DerivesMany M s xs)
    (ht : DerivesMany M t ys) : DerivesMany M (s ++ t) (xs ++ ys) := by
  induction xs generalizing s with
  | nil =>
      cases h
      exact ht
  | cons x xs ih =>
      cases h with
      | @cons s₁ s₂ _ _ hx hxs =>
          rw [List.append_assoc]
          exact .cons hx (ih hxs)

theorem derivesMany_singleton {s : Bytes} {x : Sexp} :
    DerivesMany M s [x] ↔ Derives M s x := by
  constructor
  · intro h
    cases h with
    | @cons s t _ _ hx ht =>
        cases ht
        simpa using hx
  · intro h
    simpa using DerivesMany.cons h .nil

theorem Derives.ne_nil {s : Bytes} {x : Sexp} (h : Derives M s x) : s ≠ [] := by
  cases h <;> simp

theorem derivesMany_nil {s : Bytes} (h : DerivesMany M s []) : s = [] := by
  cases h
  rfl

/-! ## Readers follow derivations -/

/-- A reader inside a length takes further digits of it. -/
theorem reaches_digits {ds : Bytes} (hds : ∀ c ∈ ds, IsDigit c) (es : Bytes) (stack : Stack)
    (hM : value (es ++ ds) ≤ M) :
    (manyReader M).Reaches ⟨.length (value es), stack⟩ ds ⟨.length (value (es ++ ds)), stack⟩ := by
  induction ds generalizing es with
  | nil => simpa using Scanner.Reaches.nil _
  | cons c ds ih =>
      have hsplit : es ++ c :: ds = (es ++ [c]) ++ ds := by simp
      have hc : IsDigit c := hds c List.mem_cons_self
      have hle : value es * 10 + digitValue c ≤ M := by
        rw [← Decimal.value_concat]
        exact (Decimal.value_le_append _ ds).trans (hsplit ▸ hM)
      rw [hsplit] at hM ⊢
      refine .cons rfl (r := ⟨.length (value (es ++ [c])), stack⟩) ?_
        (ih (fun d hd => hds d (List.mem_cons_of_mem c hd)) (es ++ [c]) hM)
      rw [manyReader_step, step, Decimal.value_concat]
      simp only [if_pos hc, if_neg (not_lt.mpr hle)]

theorem reaches_length {ds : Bytes} (hne : ds ≠ []) (hds : ∀ c ∈ ds, IsDigit c)
    (hM : value ds ≤ M) (stack : Stack) :
    (manyReader M).Reaches ⟨.init, stack⟩ ds ⟨.length (value ds), stack⟩ := by
  cases ds with
  | nil => exact absurd rfl hne
  | cons c ds =>
      have hc : IsDigit c := hds c List.mem_cons_self
      have hl : c ≠ '('.toUInt8 := hc.ne (by decide)
      have hr : c ≠ ')'.toUInt8 := hc.ne (by decide)
      refine .cons rfl (r := ⟨.length (value [c]), stack⟩) ?_
        (reaches_digits (fun d hd => hds d (List.mem_cons_of_mem c hd)) [c] stack hM)
      rw [manyReader_step, step, Decimal.value_singleton]
      simp only [if_neg hl, if_neg hr, if_pos hc]

theorem reaches_atom {ds a : Bytes} (hne : ds ≠ []) (hds : ∀ c ∈ ds, IsDigit c)
    (hval : value ds = a.length) (hM : a.length ≤ M) (stack : Stack) :
    (manyReader M).Reaches ⟨.init, stack⟩ (ds ++ ':'.toUInt8 :: a)
      ⟨.init, .sexp (.atom a) stack⟩ := by
  have hlen := reaches_length hne hds (hval ▸ hM) stack
  apply hlen.append
  apply Scanner.Reaches.cons rfl _ ((isReader_many M).reaches_beginAtom a stack)
  have hc : ¬ IsDigit ':'.toUInt8 := by decide
  rw [manyReader_step, step, hval]
  simp only [if_neg hc, if_true]

theorem IsReader.reaches_lparen {D : Scanner Config UInt8 String} (hD : IsReader M D)
    {stack : Stack} (hs : D.stopped ⟨.init, stack⟩ = false) :
    D.Reaches ⟨.init, stack⟩ ['('.toUInt8] ⟨.init, .opened stack⟩ := by
  apply Scanner.Reaches.cons hs _ (.nil _)
  rw [hD.step_eq]
  rfl

theorem IsReader.reaches_rparen {D : Scanner Config UInt8 String} (hD : IsReader M D)
    (xs : List Sexp) {stack : Stack}
    (hs : D.stopped ⟨.init, .pushAll xs (.opened stack)⟩ = false) :
    D.Reaches ⟨.init, .pushAll xs (.opened stack)⟩ [')'.toUInt8]
      ⟨.init, .sexp (.list xs) stack⟩ := by
  apply Scanner.Reaches.cons hs _ (.nil _)
  have hl : ')'.toUInt8 ≠ '('.toUInt8 := by decide
  rw [hD.step_eq, step]
  simp only [if_neg hl, if_true, Stack.closeParen_pushAll_opened]

mutual

/-- From any stack, a derivation puts its expression on top of it. -/
theorem Derives.reaches : ∀ {s : Bytes} {x : Sexp}, Derives M s x → ∀ stack : Stack,
    (manyReader M).Reaches ⟨.init, stack⟩ s ⟨.init, .sexp x stack⟩
  | _, _, .atom hne hds hval hM, stack => reaches_atom hne hds hval hM stack
  | _, _, .list h, stack =>
      (((isReader_many M).reaches_lparen rfl).append (h.reaches (.opened stack))).append
        ((isReader_many M).reaches_rparen _ rfl)

theorem DerivesMany.reaches : ∀ {s : Bytes} {xs : List Sexp}, DerivesMany M s xs →
    ∀ stack : Stack, (manyReader M).Reaches ⟨.init, stack⟩ s ⟨.init, .pushAll xs stack⟩
  | _, _, .nil, _ => .nil _
  | _, _, .cons h ht, stack => (h.reaches stack).append (ht.reaches (.sexp _ stack))

end

/-! ## What a reader has consumed spells its state -/

inductive StackSpells (M : ℕ) : Bytes → Stack → Prop where
  | empty : StackSpells M [] .empty
  | opened {s : Bytes} {t : Stack} (h : StackSpells M s t) :
      StackSpells M (s ++ ['('.toUInt8]) (.opened t)
  | sexp {s s' : Bytes} {x : Sexp} {t : Stack} (h : StackSpells M s t) (hx : Derives M s' x) :
      StackSpells M (s ++ s') (.sexp x t)

inductive Spells (M : ℕ) : Bytes → Config → Prop where
  | init {s : Bytes} {t : Stack} (h : StackSpells M s t) : Spells M s ⟨.init, t⟩
  | length {s ds : Bytes} {t : Stack} (h : StackSpells M s t) (hne : ds ≠ [])
      (hds : ∀ c ∈ ds, IsDigit c) (hM : value ds ≤ M) :
      Spells M (s ++ ds) ⟨.length (value ds), t⟩
  | atom {s ds got : Bytes} {m : ℕ} {t : Stack} (h : StackSpells M s t) (hne : ds ≠ [])
      (hds : ∀ c ∈ ds, IsDigit c) (hval : value ds = got.length + (m + 1))
      (hM : value ds ≤ M) : Spells M (s ++ (ds ++ ':'.toUInt8 :: got)) ⟨.atom m got, t⟩

theorem StackSpells.pushAll {s : Bytes} {xs : List Sexp} {t : Stack}
    (h : StackSpells M s (.pushAll xs t)) :
    ∃ s₁ s₂, s = s₁ ++ s₂ ∧ StackSpells M s₁ t ∧ DerivesMany M s₂ xs := by
  induction xs using List.reverseRecOn generalizing s with
  | nil => exact ⟨s, [], by simp, h, .nil⟩
  | append_singleton xs x ih =>
      rw [Stack.pushAll_concat] at h
      cases h with
      | @sexp s s' _ _ h hx =>
          obtain ⟨s₁, s₂, rfl, ht, hxs⟩ := ih h
          exact ⟨s₁, s₂ ++ s', by simp, ht, hxs.append (derivesMany_singleton.mpr hx)⟩

theorem StackSpells.closeParen {s : Bytes} {stack stack' : Stack} (h : StackSpells M s stack)
    (hc : stack.closeParen = .ok stack') : StackSpells M (s ++ [')'.toUInt8]) stack' := by
  obtain ⟨xs, t, rfl, rfl⟩ := Stack.closeParen_eq_ok hc
  obtain ⟨s₁, s₂, rfl, ht, hxs⟩ := h.pushAll
  cases ht with
  | @opened s₀ _ ht => simpa [List.append_assoc] using ht.sexp (Derives.list hxs)

/-- The announced length and its bytes complete an atom. -/
theorem StackSpells.atom {s ds a : Bytes} {t : Stack} (h : StackSpells M s t) (hne : ds ≠ [])
    (hds : ∀ c ∈ ds, IsDigit c) (hval : value ds = a.length) (hM : value ds ≤ M) :
    StackSpells M (s ++ (ds ++ ':'.toUInt8 :: a)) (.addAtom a t) :=
  h.sexp (.atom hne hds hval (hval ▸ hM))

theorem spells_step {s : Bytes} {q q' : Config} {c : UInt8} (h : Spells M s q)
    (hnine : 9 ≤ M) (hc : step M q c = .ok q') : Spells M (s ++ [c]) q' := by
  cases h with
  | init h =>
      simp only [step] at hc
      split_ifs at hc with hl hr hd
      · cases hc
        exact hl ▸ .init h.opened
      · rename_i t
        cases hs : t.closeParen with
        | error e => simp [hs] at hc
        | ok t' =>
            simp only [hs, Except.ok.injEq] at hc
            exact hc ▸ hr ▸ .init (h.closeParen hs)
      · cases hc
        have hall : ∀ d ∈ [c], IsDigit d := by simpa using hd
        have hM : value [c] ≤ M := by
          rw [Decimal.value_singleton]
          exact (Decimal.digitValue_le hd).trans hnine
        have hone := Spells.length h (List.cons_ne_nil c []) hall hM
        rwa [Decimal.value_singleton] at hone
  | @length s ds t h hne hds hM =>
      simp only [step] at hc
      split_ifs at hc with hd hlt hl
      · cases hc
        rw [List.append_assoc, ← Decimal.value_concat]
        apply Spells.length h (by simp) (Decimal.forall_isDigit_concat hds hd)
        rw [Decimal.value_concat]
        exact not_lt.mp hlt
      · cases hc
        rw [hl, List.append_assoc]
        cases hv : value ds with
        | zero => exact .init (h.atom hne hds (by simp [hv]) hM)
        | succ m => exact .atom h hne hds (by simp [hv]) hM
  | @atom s ds got m t h hne hds hval hM =>
      have hsplit : s ++ (ds ++ ':'.toUInt8 :: got) ++ [c] =
          s ++ (ds ++ ':'.toUInt8 :: (got ++ [c])) := by simp
      rw [hsplit]
      cases m with
      | zero =>
          cases hc
          exact .init (h.atom hne hds (by simpa using hval) hM)
      | succ m =>
          cases hc
          apply Spells.atom h hne hds _ hM
          rw [List.length_append, List.length_singleton]
          omega

theorem spells_of_reaches {D : Scanner Config UInt8 String} (hD : IsReader M D) (hnine : 9 ≤ M)
    {s : Bytes} {q : Config} (h : D.Reaches .start s q) : Spells M s q := by
  refine h.invariant (R := Spells M) ?_ [] (.init .empty)
  intro pre q c r hq _ hc
  rw [hD.step_eq] at hc
  exact spells_step hq hnine hc

theorem derivesMany_of_spells {s : Bytes} {xs : List Sexp}
    (h : Spells M s ⟨.init, .pushAll xs .empty⟩) : DerivesMany M s xs := by
  cases h with
  | init h =>
      obtain ⟨s₁, s₂, rfl, ht, hxs⟩ := h.pushAll
      cases ht
      exact hxs

/-- The reader of any number of expressions ends with `xs` on an otherwise
empty stack exactly when the input derives `xs`. -/
theorem scan_many_iff (hnine : 9 ≤ M) {s : Bytes} {xs : List Sexp} :
    (manyReader M).scan .start s = .pending ⟨.init, .pushAll xs .empty⟩ ↔ DerivesMany M s xs := by
  constructor
  · intro h
    exact derivesMany_of_spells
      (spells_of_reaches (isReader_many M) hnine (Scanner.reaches_of_pending _ h).1)
  · intro h
    exact (h.reaches .empty).scan_pending rfl

end Csexp
