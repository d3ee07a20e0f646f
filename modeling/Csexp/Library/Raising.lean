import Mathlib.Data.List.Forall2

/-!
# Evaluations that may raise

When a sequence of evaluations returns a value, and when it raises. An
exception comes from one of the parts, so that a sequence raises nothing
that its parts do not raise.
-/

namespace Raising

variable {ε α β : Type}

theorem bind_eq_ok_iff {x : Except ε α} {f : α → Except ε β} {b : β} :
    x >>= f = .ok b ↔ ∃ a, x = .ok a ∧ f a = .ok b := by
  cases x with
  | error e =>
      constructor
      · intro h
        cases h
      · rintro ⟨a, h, -⟩
        cases h
  | ok a =>
      constructor
      · intro h
        exact ⟨a, rfl, h⟩
      · rintro ⟨a', h, hf⟩
        cases h
        exact hf

theorem bind_eq_error_iff {x : Except ε α} {f : α → Except ε β} {e : ε} :
    x >>= f = .error e ↔ x = .error e ∨ ∃ a, x = .ok a ∧ f a = .error e := by
  cases x with
  | error e' =>
      have hbind : (.error e' >>= f : Except ε β) = .error e' := rfl
      rw [hbind, Except.error.injEq, Except.error.injEq]
      constructor
      · exact .inl
      · rintro (h | ⟨a, h, -⟩)
        · exact h
        · cases h
  | ok a =>
      constructor
      · intro h
        exact .inr ⟨a, rfl, h⟩
      · rintro (h | ⟨a', h, hf⟩)
        · cases h
        · cases h
          exact hf

theorem mapM_eq_ok_iff {f : α → Except ε β} {l : List α} {l' : List β} :
    l.mapM f = .ok l' ↔ List.Forall₂ (fun a b => f a = .ok b) l l' := by
  induction l generalizing l' with
  | nil =>
      rw [List.mapM_nil, List.forall₂_nil_left_iff]
      exact ⟨fun h => (Except.ok.inj h).symm, fun h => congrArg Except.ok h.symm⟩
  | cons a l ih =>
      rw [List.mapM_cons, bind_eq_ok_iff, List.forall₂_cons_left_iff]
      simp only [bind_eq_ok_iff, ih]
      constructor
      · rintro ⟨b, hb, m, hm, h⟩
        exact ⟨b, m, hb, hm, (Except.ok.inj h).symm⟩
      · rintro ⟨b, m, hb, hm, rfl⟩
        exact ⟨b, hb, m, hm, rfl⟩

/-- Every exception that the evaluation raises is one of `p`. -/
def Raises (p : ε → Prop) (x : Except ε α) : Prop := ∀ e, x = .error e → p e

theorem raises_ok {p : ε → Prop} (a : α) : Raises p (.ok a : Except ε α) := by
  intro e h
  cases h

theorem raises_error {p : ε → Prop} {e : ε} (h : p e) : Raises p (.error e : Except ε α) := by
  intro e' he
  cases he
  exact h

theorem Raises.bind {p : ε → Prop} {x : Except ε α} {f : α → Except ε β} (hx : Raises p x)
    (hf : ∀ a, x = .ok a → Raises p (f a)) : Raises p (x >>= f) := by
  intro e h
  rcases bind_eq_error_iff.mp h with h | ⟨a, ha, h⟩
  · exact hx e h
  · exact hf a ha e h

theorem Raises.mapM {p : ε → Prop} {f : α → Except ε β} {l : List α}
    (h : ∀ a ∈ l, Raises p (f a)) : Raises p (l.mapM f) := by
  induction l with
  | nil => exact raises_ok []
  | cons a l ih =>
      rw [List.mapM_cons]
      refine (h a List.mem_cons_self).bind fun b _ => ?_
      refine (ih fun c hc => h c (List.mem_cons_of_mem a hc)).bind fun m _ => ?_
      exact raises_ok (b :: m)

/-- The evaluations agree unless the first one gives up with `e`. -/
def Approximates (e : ε) (x y : Except ε α) : Prop := x = .error e ∨ x = y

theorem approximates_rfl {e : ε} {x : Except ε α} : Approximates e x x := Or.inr rfl

theorem Approximates.bind {e : ε} {x y : Except ε α} {f g : α → Except ε β}
    (h : Approximates e x y) (hf : ∀ a, Approximates e (f a) (g a)) :
    Approximates e (x >>= f) (y >>= g) := by
  rcases h with rfl | rfl
  · exact Or.inl rfl
  · cases x with
    | error e' => exact Or.inr rfl
    | ok a => exact hf a

theorem Approximates.mapM {e : ε} {f g : α → Except ε β} (h : ∀ a, Approximates e (f a) (g a))
    (l : List α) : Approximates e (l.mapM f) (l.mapM g) := by
  induction l with
  | nil => exact approximates_rfl
  | cons a l ih =>
      rw [List.mapM_cons, List.mapM_cons]
      exact (h a).bind fun _ => ih.bind fun _ => approximates_rfl

/-- A fold of which no step raises. -/
theorem foldlM_eq_ok {σ : Type*} {f : σ → α → Except ε σ} {g : σ → α → σ} {l : List α}
    (h : ∀ x ∈ l, ∀ s, f s x = .ok (g s x)) (s : σ) : l.foldlM f s = .ok (l.foldl g s) := by
  induction l generalizing s with
  | nil => rfl
  | cons x l ih =>
      rw [List.foldlM_cons, h x List.mem_cons_self]
      exact ih (fun y hy => h y (List.mem_cons_of_mem x hy)) _

end Raising
