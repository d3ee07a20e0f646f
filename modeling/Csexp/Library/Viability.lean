import Mathlib.Data.List.Basic
import Mathlib.Data.Set.Basic

/-!
# Viable prefixes of a language

A word is viable when some continuation of it belongs to the language.
An incremental recognizer can do no better than report the length of the
longest viable prefix of a word it rejects.
-/

namespace Incremental

variable {β : Type*}

def Viable (L : Set (List β)) (xs : List β) : Prop :=
  ∃ ys, xs ++ ys ∈ L

theorem viable_of_mem {L : Set (List β)} {xs : List β} (h : xs ∈ L) : Viable L xs :=
  ⟨[], by simpa using h⟩

theorem Viable.of_append {L : Set (List β)} {xs ys : List β} (h : Viable L (xs ++ ys)) :
    Viable L xs := by
  obtain ⟨zs, hzs⟩ := h
  exact ⟨ys ++ zs, by simpa [List.append_assoc] using hzs⟩

theorem Viable.take_of_le {L : Set (List β)} {xs : List β} {m n : ℕ} (hmn : m ≤ n)
    (h : Viable L (xs.take n)) : Viable L (xs.take m) := by
  have hsplit : xs.take n = xs.take m ++ (xs.take n).drop m := by
    conv_lhs => rw [← List.take_append_drop m (xs.take n)]
    rw [List.take_take, min_eq_left hmn]
  exact Viable.of_append (hsplit ▸ h)

/-- The viable prefixes of `xs` are exactly those of length at most `p`. -/
structure LongestViable (L : Set (List β)) (xs : List β) (p : ℕ) : Prop where
  le_length : p ≤ xs.length
  viable_iff : ∀ n ≤ xs.length, Viable L (xs.take n) ↔ n ≤ p

theorem longestViable_of_take {L : Set (List β)} {xs : List β} {p : ℕ} (hp : p ≤ xs.length)
    (hv : Viable L (xs.take p)) (hn : p < xs.length → ¬ Viable L (xs.take (p + 1))) :
    LongestViable L xs p := by
  refine ⟨hp, fun n hnl => ⟨fun h => ?_, fun h => hv.take_of_le h⟩⟩
  by_contra hlt
  apply hn
  · omega
  · apply h.take_of_le
    omega

namespace LongestViable

variable {L : Set (List β)} {xs : List β} {p : ℕ}

/-- All of a rejected word is viable exactly when some proper extension
of it belongs to the language. -/
theorem eq_length_iff (h : LongestViable L xs p) (hx : xs ∉ L) :
    p = xs.length ↔ ∃ ys, ys ≠ [] ∧ xs ++ ys ∈ L := by
  have hall : Viable L xs ↔ xs.length ≤ p := by
    simpa using h.viable_iff xs.length le_rfl
  constructor
  · intro hp
    obtain ⟨ys, hys⟩ := hall.mpr hp.ge
    refine ⟨ys, ?_, hys⟩
    rintro rfl
    exact hx (by simpa using hys)
  · rintro ⟨ys, -, hys⟩
    exact le_antisymm h.le_length (hall.mp ⟨ys, hys⟩)

end LongestViable

end Incremental
