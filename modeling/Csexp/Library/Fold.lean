import Mathlib.Data.List.Induction

/-!
# Folds that may fail

A list is folded from the left until it ends or until one of its elements
raises an error. What every single step preserves holds of the outcome.
-/

namespace Fold

variable {σ α ε : Type*}

def run (f : σ → α → Except ε σ) (s : σ) (xs : List α) : Except ε σ := xs.foldlM f s

variable {f : σ → α → Except ε σ} {s t : σ} {xs : List α}

@[simp] theorem run_nil (s : σ) : run f s [] = .ok s := rfl

theorem run_append (h : run f s xs = .ok t) (ys : List α) :
    run f s (xs ++ ys) = run f t ys := by
  rw [run, List.foldlM_append, ← run, h]
  rfl

theorem run_append_error {e : ε} (h : run f s xs = .error e) (ys : List α) :
    run f s (xs ++ ys) = .error e := by
  rw [run, List.foldlM_append, ← run, h]
  rfl

theorem run_singleton (s : σ) (x : α) : run f s [x] = f s x := by
  rw [run, List.foldlM_cons]
  exact bind_pure _

theorem run_concat (h : run f s xs = .ok t) (x : α) : run f s (xs ++ [x]) = f t x := by
  rw [run_append h, run_singleton]

theorem run_concat_eq_ok {x : α} {r : σ} :
    run f s (xs ++ [x]) = .ok r ↔ ∃ t, run f s xs = .ok t ∧ f t x = .ok r := by
  cases hxs : run f s xs with
  | error e => simp [run_append_error hxs]
  | ok t => simp [run_concat hxs]

theorem run_cons_eq_ok {x : α} {r : σ} :
    run f s (x :: xs) = .ok r ↔ ∃ t, f s x = .ok t ∧ run f t xs = .ok r := by
  rw [run, List.foldlM_cons]
  cases hx : f s x with
  | error e => simp [bind, Except.bind]
  | ok t => simp [bind, Except.bind, run]

/-- A relation between the elements read and the state, kept by every
step, holds of the outcome. -/
theorem run_induction {P : List α → σ → Prop} (h₀ : P [] s)
    (hstep : ∀ ys u x v, P ys u → f u x = .ok v → P (ys ++ [x]) v)
    (h : run f s xs = .ok t) : P xs t := by
  induction xs using List.reverseRecOn generalizing t with
  | nil =>
      cases h
      exact h₀
  | append_singleton xs x ih =>
      obtain ⟨u, hu, hx⟩ := run_concat_eq_ok.mp h
      exact hstep xs u x t (ih hu) hx

end Fold
