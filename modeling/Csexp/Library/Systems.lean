import Mathlib.Logic.Relation
import Mathlib.Order.Basic

/-!
# Systems that take steps

The states that a system can reach, and the rules by which a property of all
of them is shown: it holds initially and is kept by every step, where the
step may be assumed to start from a state that can be reached. A part that
is left to itself is shown to come to a halt by a size that each of its
steps makes smaller.
-/

structure System (σ : Type*) where
  init : σ → Prop
  step : σ → σ → Prop

namespace System

variable {σ : Type*} {S : System σ}

inductive Reachable (S : System σ) : σ → Prop where
  | init {s : σ} (h : S.init s) : Reachable S s
  | step {s s' : σ} (h : Reachable S s) (hs : S.step s s') : Reachable S s'

/-- An invariant is kept by the steps from the states that can be reached. -/
theorem Reachable.invariant {I : σ → Prop} {s : σ} (h : S.Reachable s)
    (hinit : ∀ s, S.init s → I s)
    (hstep : ∀ s s', S.Reachable s → I s → S.step s s' → I s') : I s := by
  induction h with
  | init h => exact hinit _ h
  | step h hs ih => exact hstep _ _ h ih hs

/-- Something that every step keeps still holds at the end of a run. -/
theorem persists {Q : σ → Prop} (hstep : ∀ s s', Q s → S.step s s' → Q s') {s s' : σ} (h : Q s)
    (hrun : Relation.ReflTransGen S.step s s') : Q s' := by
  induction hrun with
  | refl => exact h
  | tail _ hs ih => exact hstep _ _ ih hs

/-- A part that works on its own and uses something up does not go on for
ever. -/
theorem acc_of_size {r : σ → σ → Prop} {I : σ → Prop} (size : σ → ℕ)
    (hr : ∀ a b, I a → r a b → I b ∧ size b < size a) {s : σ} (hs : I s) :
    Acc (fun b a => r a b) s := by
  induction hk : size s using Nat.strongRecOn generalizing s with
  | ind k ih =>
      constructor
      intro t ht
      obtain ⟨hI, hlt⟩ := hr s t hs ht
      exact ih (size t) (hk ▸ hlt) hI rfl

/-- What does not go on for ever comes to a halt. -/
theorem exists_final {r : σ → σ → Prop} {s : σ} (h : Acc (fun b a => r a b) s) :
    ∃ s', Relation.ReflTransGen r s s' ∧ ∀ t, ¬ r s' t := by
  induction h with
  | intro s _ ih =>
      by_cases hnext : ∃ t, r s t
      · obtain ⟨t, ht⟩ := hnext
        obtain ⟨s', hrun, hhalt⟩ := ih t ht
        exact ⟨s', .head ht hrun, hhalt⟩
      · exact ⟨s, .refl, not_exists.mp hnext⟩

theorem exists_halted {f : σ → Option σ} (size : σ → ℕ)
    (hf : ∀ s s', f s = some s' → size s' < size s) (s : σ) :
    ∃ s', Relation.ReflTransGen (fun a b => f a = some b) s s' ∧ f s' = none := by
  have hacc : Acc (fun b a => f a = some b) s :=
    acc_of_size (I := fun _ => True) size (fun a b _ hab => ⟨trivial, hf a b hab⟩) trivial
  obtain ⟨s', hrun, hhalt⟩ := exists_final hacc
  exact ⟨s', hrun, Option.eq_none_iff_forall_ne_some.mpr hhalt⟩

end System
