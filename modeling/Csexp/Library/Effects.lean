import Mathlib.Order.Lattice

/-!
# Computations that raise, loop and read

A computation of a monad `m` whose pure parts may raise an exception and
whose loops are cut off by fuel. Over a state-passing monad it can be
executed; its loops are monotone in their fuel, and a state that carries
more data, such as a log, can be forgotten again.
-/

namespace Effects

/-- Computations of `m` that may raise an exception of type `ε` or, with
the result `none`, run out of fuel. -/
abbrev Comp (ε : Type) (m : Type → Type) := OptionT (ExceptT ε m)

namespace Comp

section Monad

variable {ε α : Type} {m : Type → Type} [Monad m]

def lift (x : m α) : Comp ε m α := OptionT.lift (ExceptT.lift x)

def ofExcept (x : Except ε α) : Comp ε m α := OptionT.lift (ExceptT.mk (pure x))

def outOfFuel : Comp ε m α := OptionT.mk (pure none)

end Monad

variable {ε α β σ τ : Type}

/-- Run a computation over a state-passing monad. -/
def exec (x : Comp ε (StateM σ) α) (s : σ) : Except ε (Option α) × σ := x.run.run.run s

@[simp] theorem exec_pure (a : α) (s : σ) :
    exec (pure a : Comp ε (StateM σ) α) s = (.ok (some a), s) := rfl

@[simp] theorem exec_lift (x : StateM σ α) (s : σ) :
    exec (lift x : Comp ε (StateM σ) α) s = (.ok (some (x.run s).1), (x.run s).2) := rfl

@[simp] theorem exec_ofExcept (x : Except ε α) (s : σ) :
    exec (ofExcept x : Comp ε (StateM σ) α) s = (x.map some, s) := by
  cases x <;> rfl

theorem exec_bind (x : Comp ε (StateM σ) α) (f : α → Comp ε (StateM σ) β) (s : σ) :
    exec (x >>= f) s = match exec x s with
      | (.ok (some a), s) => exec (f a) s
      | (.ok none, s) => (.ok none, s)
      | (.error e, s) => (.error e, s) := by
  simp only [exec, OptionT.run_bind, Option.elimM, ExceptT.run_bind, StateT.run_bind]
  rcases x.run.run.run s with ⟨e | _ | a, s'⟩ <;> rfl

theorem exec_bind_eq_ok {x : Comp ε (StateM σ) α} {f : α → Comp ε (StateM σ) β} {s s' : σ}
    {b : β} : exec (x >>= f) s = (.ok (some b), s') ↔
      ∃ a s₁, exec x s = (.ok (some a), s₁) ∧ exec (f a) s₁ = (.ok (some b), s') := by
  rw [exec_bind]
  rcases exec x s with ⟨e | _ | a, s₁⟩
  · simp
  · simp
  · simp [and_assoc]

theorem exec_bind_eq_error {x : Comp ε (StateM σ) α} {f : α → Comp ε (StateM σ) β} {s s' : σ}
    {e : ε} : exec (x >>= f) s = (.error e, s') ↔
      exec x s = (.error e, s') ∨
        ∃ a s₁, exec x s = (.ok (some a), s₁) ∧ exec (f a) s₁ = (.error e, s') := by
  rw [exec_bind]
  rcases exec x s with ⟨e' | _ | a, s₁⟩
  · simp
  · simp
  · simp [and_assoc]

/-! ## Fuel -/

/-- Where `x` does not run out of fuel, `y` does what `x` does. -/
def Below (x y : Comp ε (StateM σ) α) : Prop :=
  ∀ s, (exec x s).1 = .ok none ∨ exec x s = exec y s

theorem Below.refl (x : Comp ε (StateM σ) α) : Below x x := fun _ => Or.inr rfl

theorem below_of_outOfFuel (y : Comp ε (StateM σ) α) : Below outOfFuel y := fun _ => Or.inl rfl

theorem Below.trans {x y z : Comp ε (StateM σ) α} (hxy : Below x y) (hyz : Below y z) :
    Below x z := by
  intro s
  rcases hxy s with h | h
  · exact Or.inl h
  · rw [h]
    exact hyz s

theorem Below.bind (x : Comp ε (StateM σ) α) {f g : α → Comp ε (StateM σ) β}
    (h : ∀ a, Below (f a) (g a)) : Below (x >>= f) (x >>= g) := by
  intro s
  rw [exec_bind, exec_bind]
  rcases exec x s with ⟨e | _ | a, s₁⟩
  · exact Or.inr rfl
  · exact Or.inl rfl
  · exact h a s₁

/-- A run that terminates: with enough fuel it returns `a`. -/
def Returns (x : ℕ → Comp ε (StateM σ) α) (s : σ) (a : α) (s' : σ) : Prop :=
  ∃ fuel, exec (x fuel) s = (.ok (some a), s')

theorem Returns.of_succ {x : ℕ → Comp ε (StateM σ) α} {s s' : σ} {a : α}
    (h : Returns (fun fuel => x (fuel + 1)) s a s') : Returns x s a s' := by
  obtain ⟨fuel, hfuel⟩ := h
  exact ⟨fuel + 1, hfuel⟩

/-- When more fuel changes no result, a terminating run has one result. -/
theorem Returns.unique {x : ℕ → Comp ε (StateM σ) α} (hx : ∀ fuel, Below (x fuel) (x (fuel + 1)))
    {s s₁ s₂ : σ} {a b : α} (ha : Returns x s a s₁) (hb : Returns x s b s₂) :
    a = b ∧ s₁ = s₂ := by
  have hle {m n : ℕ} (hmn : m ≤ n) : Below (x m) (x n) := by
    induction hmn with
    | refl => exact .refl _
    | step _ ih => exact ih.trans (hx _)
  obtain ⟨m, hm⟩ := ha
  obtain ⟨n, hn⟩ := hb
  have hma := (hle (le_max_left m n) s).resolve_left (by simp [hm])
  have hnb := (hle (le_max_right m n) s).resolve_left (by simp [hn])
  rw [hm] at hma
  rw [hn, ← hma] at hnb
  simpa using hnb.symm

/-! ## Exceptions -/

/-- No run raises an exception. -/
def Quiet (x : Comp ε (StateM σ) α) : Prop := ∀ s e s', exec x s ≠ (.error e, s')

theorem quiet_pure (a : α) : Quiet (pure a : Comp ε (StateM σ) α) := by
  intro s e s' h
  cases h

theorem quiet_lift (x : StateM σ α) : Quiet (lift x : Comp ε (StateM σ) α) := by
  intro s e s' h
  cases h

theorem quiet_outOfFuel : Quiet (outOfFuel : Comp ε (StateM σ) α) := by
  intro s e s' h
  cases h

theorem Quiet.bind {x : Comp ε (StateM σ) α} {f : α → Comp ε (StateM σ) β} (hx : Quiet x)
    (hf : ∀ s a s', exec x s = (.ok (some a), s') → Quiet (f a)) : Quiet (x >>= f) := by
  intro s e s' h
  rcases exec_bind_eq_error.mp h with h | ⟨a, s₁, ha, h⟩
  · exact hx s e s' h
  · exact hf s a s₁ ha s₁ e s' h

/-! ## Forgetting a part of the state -/

/-- Seen through `π`, the computation `x` does what `y` does. -/
def Erases (π : τ → σ) (x : Comp ε (StateM τ) α) (y : Comp ε (StateM σ) α) : Prop :=
  ∀ s, Prod.map id π (exec x s) = exec y (π s)

variable {π : τ → σ}

theorem erases_pure (a : α) :
    Erases π (pure a : Comp ε (StateM τ) α) (pure a : Comp ε (StateM σ) α) := fun _ => rfl

theorem erases_ofExcept (x : Except ε α) :
    Erases π (ofExcept x : Comp ε (StateM τ) α) (ofExcept x : Comp ε (StateM σ) α) := by
  intro s
  simp

theorem erases_outOfFuel :
    Erases π (outOfFuel : Comp ε (StateM τ) α) (outOfFuel : Comp ε (StateM σ) α) := fun _ => rfl

theorem erases_lift {x : StateM τ α} {y : StateM σ α}
    (h : ∀ s, Prod.map id π (x.run s) = y.run (π s)) :
    Erases π (lift x : Comp ε (StateM τ) α) (lift y : Comp ε (StateM σ) α) := by
  intro s
  have hs := h s
  rw [exec_lift, exec_lift, ← hs]
  rfl

theorem Erases.bind {x : Comp ε (StateM τ) α} {y : Comp ε (StateM σ) α}
    {f : α → Comp ε (StateM τ) β} {g : α → Comp ε (StateM σ) β} (h : Erases π x y)
    (hf : ∀ a, Erases π (f a) (g a)) : Erases π (x >>= f) (y >>= g) := by
  intro s
  have hs := h s
  rw [exec_bind, exec_bind, ← hs]
  rcases exec x s with ⟨e | _ | a, s₁⟩
  · rfl
  · rfl
  · exact hf a s₁

theorem Erases.exec_eq_ok {x : Comp ε (StateM τ) α} {y : Comp ε (StateM σ) α}
    (h : Erases π x y) {s : τ} {a : α} {s' : σ} (hy : exec y (π s) = (.ok (some a), s')) :
    ∃ t, π t = s' ∧ exec x s = (.ok (some a), t) := by
  have hs := h s
  rw [hy] at hs
  obtain ⟨hr, ht⟩ := Prod.ext_iff.mp hs
  exact ⟨_, ht, Prod.ext hr rfl⟩

end Comp

end Effects
