import Mathlib.Data.List.Basic
import Mathlib.Data.Set.Basic

/-!
# Deterministic scanners

A scanner reads a list of symbols one at a time. It halts as soon as it
is in a stopping state, fails at the first symbol that has no successor,
and is otherwise still pending when the symbols run out. The offsets in
a verdict count symbols from the state the scan started in.
-/

namespace Incremental

/-- What became of a scan: stopped after `p` symbols, failed at the
symbol of offset `p`, or still pending when the input ended. -/
inductive Verdict (σ ε : Type*) where
  | stopped (p : ℕ) (q : σ)
  | failed (p : ℕ) (e : ε)
  | pending (q : σ)

namespace Verdict

variable {σ τ ε : Type*}

/-- Move the offsets of a verdict behind `n` symbols already read. -/
def shift (n : ℕ) : Verdict σ ε → Verdict σ ε
  | stopped p q => stopped (n + p) q
  | failed p e => failed (n + p) e
  | pending q => pending q

@[simp] theorem shift_stopped (n p : ℕ) (q : σ) :
    (stopped p q : Verdict σ ε).shift n = stopped (n + p) q := rfl

@[simp] theorem shift_failed (n p : ℕ) (e : ε) :
    (failed p e : Verdict σ ε).shift n = failed (n + p) e := rfl

@[simp] theorem shift_pending (n : ℕ) (q : σ) :
    (pending q : Verdict σ ε).shift n = pending q := rfl

@[simp] theorem shift_zero (v : Verdict σ ε) : v.shift 0 = v := by
  cases v <;> simp

@[simp] theorem shift_shift (m n : ℕ) (v : Verdict σ ε) :
    (v.shift n).shift m = v.shift (m + n) := by
  cases v <;> simp [Nat.add_assoc]

def map (f : σ → τ) : Verdict σ ε → Verdict τ ε
  | stopped p q => stopped p (f q)
  | failed p e => failed p e
  | pending q => pending (f q)

@[simp] theorem map_stopped (f : σ → τ) (p : ℕ) (q : σ) :
    (stopped p q : Verdict σ ε).map f = stopped p (f q) := rfl

@[simp] theorem map_failed (f : σ → τ) (p : ℕ) (e : ε) :
    (failed p e : Verdict σ ε).map f = failed p e := rfl

@[simp] theorem map_pending (f : σ → τ) (q : σ) :
    (pending q : Verdict σ ε).map f = pending (f q) := rfl

theorem map_shift (f : σ → τ) (n : ℕ) (v : Verdict σ ε) :
    (v.shift n).map f = (v.map f).shift n := by
  cases v <;> rfl

end Verdict

structure Scanner (σ β ε : Type*) where
  step : σ → β → Except ε σ
  stopped : σ → Bool

namespace Scanner

variable {σ β ε : Type*} (D : Scanner σ β ε)

def scan (q : σ) : List β → Verdict σ ε
  | [] => if D.stopped q then .stopped 0 q else .pending q
  | c :: cs =>
    if D.stopped q then .stopped 0 q
    else match D.step q c with
      | .error e => .failed 0 e
      | .ok r => (scan r cs).shift 1

theorem scan_of_stopped {q : σ} (h : D.stopped q = true) (xs : List β) :
    D.scan q xs = .stopped 0 q := by
  cases xs <;> simp [scan, h]

theorem scan_nil {q : σ} (h : D.stopped q = false) : D.scan q [] = .pending q := by
  simp [scan, h]

theorem scan_cons_ok {q r : σ} {c : β} (h : D.stopped q = false) (hc : D.step q c = .ok r)
    (cs : List β) : D.scan q (c :: cs) = (D.scan r cs).shift 1 := by
  simp [scan, h, hc]

theorem scan_cons_error {q : σ} {c : β} {e : ε} (h : D.stopped q = false)
    (hc : D.step q c = .error e) (cs : List β) : D.scan q (c :: cs) = .failed 0 e := by
  simp [scan, h, hc]

/-- Reading all of `xs` leads from `q` to `q'`, without stopping before
its last symbol. The state `q'` itself may be a stopping one. -/
inductive Reaches : σ → List β → σ → Prop where
  | nil (q : σ) : Reaches q [] q
  | cons {q r q' : σ} {c : β} {cs : List β} (hs : D.stopped q = false)
      (hc : D.step q c = .ok r) (ht : Reaches r cs q') : Reaches q (c :: cs) q'

namespace Reaches

variable {D}

theorem append {q r q' : σ} {xs ys : List β} (h : D.Reaches q xs r) (h' : D.Reaches r ys q') :
    D.Reaches q (xs ++ ys) q' := by
  induction h with
  | nil => exact h'
  | cons hs hc _ ih => exact .cons hs hc (ih h')

/-- The scan of a longer input continues from the state reached. -/
theorem scan_append {q q' : σ} {xs : List β} (h : D.Reaches q xs q') (ys : List β) :
    D.scan q (xs ++ ys) = (D.scan q' ys).shift xs.length := by
  induction h with
  | nil => simp
  | cons hs hc _ ih =>
      rw [List.cons_append, D.scan_cons_ok hs hc, ih, Verdict.shift_shift, List.length_cons,
        Nat.add_comm 1]

theorem scan_pending {q q' : σ} {xs : List β} (h : D.Reaches q xs q')
    (hs : D.stopped q' = false) : D.scan q xs = .pending q' := by
  have hh := h.scan_append []
  rwa [List.append_nil, D.scan_nil hs, Verdict.shift_pending] at hh

theorem scan_stopped {q q' : σ} {xs : List β} (h : D.Reaches q xs q')
    (hs : D.stopped q' = true) (ys : List β) :
    D.scan q (xs ++ ys) = .stopped xs.length q' := by
  rw [h.scan_append, D.scan_of_stopped hs, Verdict.shift_stopped, Nat.add_zero]

theorem scan_failed {q q' : σ} {xs : List β} {c : β} {e : ε} (h : D.Reaches q xs q')
    (hs : D.stopped q' = false) (hc : D.step q' c = .error e) (ys : List β) :
    D.scan q (xs ++ c :: ys) = .failed xs.length e := by
  rw [h.scan_append, D.scan_cons_error hs hc, Verdict.shift_failed, Nat.add_zero]

/-- What each step preserves of the symbols read and of the state they
lead to holds of every state reached. -/
theorem invariant {R : List β → σ → Prop}
    (hstep : ∀ pre q c r, R pre q → D.stopped q = false → D.step q c = .ok r →
      R (pre ++ [c]) r)
    {q q' : σ} {xs : List β} (h : D.Reaches q xs q') (pre : List β) (hq : R pre q) :
    R (pre ++ xs) q' := by
  induction h generalizing pre with
  | nil => simpa using hq
  | @cons q r q' c cs hs hc _ ih =>
      simpa [List.append_assoc] using ih (pre ++ [c]) (hstep pre q c r hq hs hc)

end Reaches

theorem reaches_of_pending {q q' : σ} {xs : List β} (h : D.scan q xs = .pending q') :
    D.Reaches q xs q' ∧ D.stopped q' = false := by
  induction xs generalizing q with
  | nil =>
      cases hs : D.stopped q with
      | true => simp [D.scan_of_stopped hs] at h
      | false =>
          have heq : q = q' := by simpa [D.scan_nil hs] using h
          exact heq ▸ ⟨.nil q, hs⟩
  | cons c cs ih =>
      cases hs : D.stopped q with
      | true => simp [D.scan_of_stopped hs] at h
      | false =>
          cases hc : D.step q c with
          | error e => simp [D.scan_cons_error hs hc] at h
          | ok r =>
              have hr : D.scan r cs = .pending q' := by
                rw [D.scan_cons_ok hs hc] at h
                cases hv : D.scan r cs <;> simp_all
              exact ⟨.cons hs hc (ih hr).1, (ih hr).2⟩

theorem reaches_of_stopped {q q' : σ} {p : ℕ} {xs : List β}
    (h : D.scan q xs = .stopped p q') :
    p ≤ xs.length ∧ D.Reaches q (xs.take p) q' ∧ D.stopped q' = true := by
  induction xs generalizing q p with
  | nil =>
      cases hs : D.stopped q with
      | true =>
          rw [D.scan_of_stopped hs, Verdict.stopped.injEq] at h
          obtain ⟨rfl, rfl⟩ := h
          exact ⟨le_rfl, .nil q, hs⟩
      | false => simp [D.scan_nil hs] at h
  | cons c cs ih =>
      cases hs : D.stopped q with
      | true =>
          rw [D.scan_of_stopped hs, Verdict.stopped.injEq] at h
          obtain ⟨rfl, rfl⟩ := h
          exact ⟨Nat.zero_le _, .nil q, hs⟩
      | false =>
          cases hc : D.step q c with
          | error e => simp [D.scan_cons_error hs hc] at h
          | ok r =>
              rw [D.scan_cons_ok hs hc] at h
              cases hr : D.scan r cs with
              | failed p' e => simp [hr] at h
              | pending r' => simp [hr] at h
              | stopped p' r' =>
                  rw [hr, Verdict.shift_stopped, Nat.add_comm 1, Verdict.stopped.injEq] at h
                  obtain ⟨rfl, rfl⟩ := h
                  obtain ⟨hp, ht, hs'⟩ := ih hr
                  exact ⟨Nat.succ_le_succ hp, .cons hs hc ht, hs'⟩

/-- A failure happens at a symbol of the input, in the state that the
symbols in front of it lead to. -/
theorem reaches_of_failed {q : σ} {p : ℕ} {e : ε} {xs : List β}
    (h : D.scan q xs = .failed p e) :
    ∃ c q', xs[p]? = some c ∧ D.Reaches q (xs.take p) q' ∧ D.stopped q' = false ∧
      D.step q' c = .error e := by
  induction xs generalizing q p with
  | nil => cases hs : D.stopped q <;> simp [scan, hs] at h
  | cons c cs ih =>
      cases hs : D.stopped q with
      | true => simp [D.scan_of_stopped hs] at h
      | false =>
          cases hc : D.step q c with
          | error e' =>
              rw [D.scan_cons_error hs hc, Verdict.failed.injEq] at h
              obtain ⟨rfl, rfl⟩ := h
              exact ⟨c, q, rfl, .nil q, hs, hc⟩
          | ok r =>
              rw [D.scan_cons_ok hs hc] at h
              cases hr : D.scan r cs with
              | stopped p' r' => simp [hr] at h
              | pending r' => simp [hr] at h
              | failed p' e' =>
                  rw [hr, Verdict.shift_failed, Nat.add_comm 1, Verdict.failed.injEq] at h
                  obtain ⟨rfl, rfl⟩ := h
                  obtain ⟨d, q', hd, ht, hs', hd'⟩ := ih hr
                  exact ⟨d, q', hd, .cons hs hc ht, hs', hd'⟩

theorem lt_length_of_failed {q : σ} {p : ℕ} {e : ε} {xs : List β}
    (h : D.scan q xs = .failed p e) : p < xs.length := by
  obtain ⟨c, _, hc, _⟩ := D.reaches_of_failed h
  exact (List.getElem?_eq_some_iff.mp hc).1

/-- The symbols up to the failing one decide the failure, whatever
follows them. -/
theorem scan_take_of_failed {q : σ} {p : ℕ} {e : ε} {xs : List β}
    (h : D.scan q xs = .failed p e) (ys : List β) :
    D.scan q (xs.take (p + 1) ++ ys) = .failed p e := by
  have hp := D.lt_length_of_failed h
  obtain ⟨c, q', hc, ht, hs, hstep⟩ := D.reaches_of_failed h
  have hlen : (xs.take p).length = p := List.length_take_of_le hp.le
  have hsplit : xs.take (p + 1) ++ ys = xs.take p ++ c :: ys := by
    rw [List.take_add_one, hc, Option.toList_some, List.append_assoc, List.singleton_append]
  rw [hsplit, ht.scan_failed hs hstep, hlen]

theorem scan_take_of_stopped {q q' : σ} {p : ℕ} {xs : List β}
    (h : D.scan q xs = .stopped p q') (ys : List β) :
    D.scan q (xs.take p ++ ys) = .stopped p q' := by
  obtain ⟨hp, ht, hs⟩ := D.reaches_of_stopped h
  rw [ht.scan_stopped hs, List.length_take_of_le hp]

/-- A map of the states that commutes with the steps and keeps the
stopping states commutes with whole scans. -/
theorem scan_map {f : σ → σ} (hs : ∀ q, D.stopped (f q) = D.stopped q)
    (hstep : ∀ q c, D.step (f q) c = (D.step q c).map f) (q : σ) (xs : List β) :
    D.scan (f q) xs = (D.scan q xs).map f := by
  induction xs generalizing q with
  | nil => cases h : D.stopped q <;> simp [scan, hs, h]
  | cons c cs ih =>
      cases h : D.stopped q with
      | true => simp [scan, hs, h]
      | false =>
          cases hc : D.step q c with
          | error e => simp [scan, hs, h, hstep, hc, Except.map]
          | ok r => simp [scan, hs, h, hstep, hc, Except.map, ih, Verdict.map_shift]

/-- The same steps, with no stopping state. -/
def endless : Scanner σ β ε := ⟨D.step, fun _ => false⟩

theorem Reaches.endless {q q' : σ} {xs : List β} (h : D.Reaches q xs q') :
    D.endless.Reaches q xs q' := by
  induction h with
  | nil q => exact .nil q
  | cons _ hc _ ih => exact .cons rfl hc ih

theorem endless_of_pending {q q' : σ} {xs : List β} (h : D.scan q xs = .pending q') :
    D.endless.scan q xs = .pending q' :=
  (D.reaches_of_pending h).1.endless.scan_pending rfl

theorem endless_of_failed {q : σ} {p : ℕ} {e : ε} {xs : List β}
    (h : D.scan q xs = .failed p e) : D.endless.scan q xs = .failed p e := by
  have hp := D.lt_length_of_failed h
  obtain ⟨c, q', hc, ht, -, hstep⟩ := D.reaches_of_failed h
  have hsplit : xs = xs.take p ++ c :: xs.drop (p + 1) := by
    obtain ⟨_, rfl⟩ := List.getElem?_eq_some_iff.mp hc
    rw [← List.drop_eq_getElem_cons hp, List.take_append_drop]
  have hh := ht.endless.scan_failed (c := c) (e := e) rfl hstep (xs.drop (p + 1))
  rwa [← hsplit, List.length_take_of_le hp.le] at hh

theorem endless_of_stopped {q q' : σ} {p : ℕ} {xs : List β}
    (h : D.scan q xs = .stopped p q') :
    D.endless.scan q xs = (D.endless.scan q' (xs.drop p)).shift p := by
  obtain ⟨hp, ht, -⟩ := D.reaches_of_stopped h
  have hh := ht.endless.scan_append (xs.drop p)
  rwa [List.take_append_drop, List.length_take_of_le hp] at hh

end Scanner

end Incremental
