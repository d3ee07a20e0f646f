import Mathlib.Data.List.Infix
import Mathlib.Data.List.Induction

/-!
# Properties of all prefixes

A property that is checked each time a list grows by an element holds of
all prefixes of the list, or fails for the first time at one of them.
-/

namespace Prefixes

variable {α : Type*} {p : List α → Prop}

def Always (p : List α → Prop) (xs : List α) : Prop := ∀ pre, pre <+: xs → p pre

instance [DecidablePred p] (xs : List α) : Decidable (Always p xs) :=
  decidable_of_iff (∀ pre ∈ xs.inits, p pre) (by simp [Always])

theorem Always.self {xs : List α} (h : Always p xs) : p xs := h xs List.prefix_rfl

theorem Always.of_prefix {xs ys : List α} (h : Always p ys) (hxs : xs <+: ys) : Always p xs :=
  fun pre hpre => h pre (hpre.trans hxs)

theorem always_nil : Always p [] ↔ p [] := by
  constructor
  · exact Always.self
  · intro h pre hpre
    rwa [List.prefix_nil.mp hpre]

theorem always_concat {xs : List α} {x : α} :
    Always p (xs ++ [x]) ↔ Always p xs ∧ p (xs ++ [x]) := by
  constructor
  · intro h
    exact ⟨h.of_prefix (List.prefix_append xs [x]), h.self⟩
  · rintro ⟨h, hx⟩ pre hpre
    rcases List.prefix_concat_iff.mp hpre with rfl | hpre
    · exact hx
    · exact h pre hpre

/-- A property that fails at some prefix, though not at the empty one,
fails for the first time behind some element. -/
theorem exists_first (h₀ : p []) {xs : List α} (h : ¬ Always p xs) :
    ∃ pre x post, xs = pre ++ x :: post ∧ Always p pre ∧ ¬ p (pre ++ [x]) := by
  induction xs using List.reverseRecOn with
  | nil => exact absurd (always_nil.mpr h₀) h
  | append_singleton xs x ih =>
      by_cases hxs : Always p xs
      · exact ⟨xs, x, [], rfl, hxs, fun hx => h (always_concat.mpr ⟨hxs, hx⟩)⟩
      · obtain ⟨pre, y, post, rfl, hpre, hy⟩ := ih hxs
        exact ⟨pre, y, post ++ [x], by simp, hpre, hy⟩

end Prefixes
