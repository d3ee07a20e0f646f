import Csexp.Library.Prefixes

/-!
# Nesting of an opening and a closing symbol

A list is nested if no prefix closes more than it has opened. In such a
list an opening symbol without a partner is left exactly when more
symbols have been opened than closed.
-/

namespace Nesting

variable {α : Type*} [DecidableEq α] {o c : α}

def Nested (o c : α) (ts : List α) : Prop :=
  Prefixes.Always (fun pre => pre.count c ≤ pre.count o) ts

/-- An opening symbol that nothing behind it closes. -/
def Unmatched (o c : α) (ts : List α) : Prop :=
  ∃ pre post, ts = pre ++ o :: post ∧ Nested o c post

theorem nested_nil : Nested o c [] := Prefixes.always_nil.mpr (by simp)

theorem nested_concat {ts : List α} {x : α} :
    Nested o c (ts ++ [x]) ↔ Nested o c ts ∧ (ts ++ [x]).count c ≤ (ts ++ [x]).count o :=
  Prefixes.always_concat

theorem Unmatched.count_lt (hoc : o ≠ c) {ts : List α} (h : Unmatched o c ts)
    (hts : Nested o c ts) : ts.count c < ts.count o := by
  obtain ⟨pre, post, rfl, hpost⟩ := h
  have hpre := hts pre (List.prefix_append pre (o :: post))
  have hle := hpost.self
  rw [List.count_append, List.count_append, List.count_cons_self, List.count_cons_of_ne hoc]
  omega

/-- With more than `k` symbols left open, some opening symbol is followed
by a nested list that leaves another `k` open. -/
theorem exists_open_of_count_lt {ts : List α} {k : ℕ}
    (h : ts.count c + k < ts.count o) :
    ∃ pre post, ts = pre ++ o :: post ∧ Nested o c post ∧ post.count c + k ≤ post.count o := by
  induction ts using List.reverseRecOn generalizing k with
  | nil => simp at h
  | append_singleton ts x ih =>
      rw [List.count_append, List.count_append] at h
      by_cases hts : ts.count c + (k + [x].count c - [x].count o) < ts.count o
      · -- Enough was open before `x`, also if `x` closes one of them.
        obtain ⟨pre, post, rfl, hpost, hk⟩ := ih hts
        have hcount : (post ++ [x]).count c + k ≤ (post ++ [x]).count o := by
          rw [List.count_append, List.count_append]
          omega
        exact ⟨pre, post ++ [x], by simp, nested_concat.mpr ⟨hpost, by omega⟩, hcount⟩
      · have hx : x = o := by
          by_contra hx
          have hzero : [x].count o = 0 := List.count_eq_zero.mpr (by simpa using Ne.symm hx)
          omega
        have hk : k = 0 := by
          have hone : [x].count o = 1 := by rw [hx, List.count_singleton_self]
          omega
        rw [hx, hk]
        exact ⟨ts, [], rfl, nested_nil, le_rfl⟩

theorem unmatched_iff_count_lt (hoc : o ≠ c) {ts : List α} (hts : Nested o c ts) :
    Unmatched o c ts ↔ ts.count c < ts.count o := by
  constructor
  · intro h
    exact h.count_lt hoc hts
  · intro h
    obtain ⟨pre, post, rfl, hpost, -⟩ := exists_open_of_count_lt (k := 0) h
    exact ⟨pre, post, rfl, hpost⟩

end Nesting
