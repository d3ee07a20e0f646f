import Mathlib.Data.List.Induction
import Mathlib.Tactic.IntervalCases
import Mathlib.Tactic.Linarith

/-!
# Decimal numerals in ASCII bytes

The value of a run of digit bytes, read from the most significant digit,
and the numeral without superfluous zeros that is printed for a natural
number. A run of digits is that numeral behind some number of zeros.
-/

namespace Decimal

def IsDigit (c : UInt8) : Prop := '0'.toUInt8 ≤ c ∧ c ≤ '9'.toUInt8

instance : DecidablePred IsDigit := fun c =>
  inferInstanceAs (Decidable ('0'.toUInt8 ≤ c ∧ c ≤ '9'.toUInt8))

def digitValue (c : UInt8) : ℕ := c.toNat - '0'.toUInt8.toNat

theorem isDigit_iff {c : UInt8} : IsDigit c ↔ 48 ≤ c.toNat ∧ c.toNat ≤ 57 := by
  rw [IsDigit, UInt8.le_iff_toNat_le, UInt8.le_iff_toNat_le]
  rfl

theorem forall_isDigit_of_all {ds : List UInt8} (h : ds.all (fun c => decide (IsDigit c)) = true) :
    ∀ c ∈ ds, IsDigit c :=
  fun c hc => of_decide_eq_true (List.all_eq_true.mp h c hc)

theorem forall_isDigit_concat {ds : List UInt8} {c : UInt8} (hds : ∀ d ∈ ds, IsDigit d)
    (hc : IsDigit c) : ∀ d ∈ ds ++ [c], IsDigit d := by
  intro d hd
  rcases List.mem_append.mp hd with hd | hd
  · exact hds d hd
  · exact List.mem_singleton.mp hd ▸ hc

theorem IsDigit.ne {c d : UInt8} (hc : IsDigit c) (hd : ¬ IsDigit d) : c ≠ d := by
  rintro rfl
  exact hd hc

theorem digitValue_le {c : UInt8} (h : IsDigit c) : digitValue c ≤ 9 := by
  have hc := isDigit_iff.mp h
  have hzero : '0'.toUInt8.toNat = 48 := rfl
  rw [digitValue, hzero]
  omega

def value (ds : List UInt8) : ℕ := ds.foldl (fun n c => n * 10 + digitValue c) 0

@[simp] theorem value_concat (ds : List UInt8) (c : UInt8) :
    value (ds ++ [c]) = value ds * 10 + digitValue c := by
  simp [value]

theorem value_singleton (c : UInt8) : value [c] = digitValue c := by
  simp [value]

theorem value_le_append (ds es : List UInt8) : value ds ≤ value (ds ++ es) := by
  induction es using List.reverseRecOn with
  | nil => simp
  | append_singleton es c ih =>
      rw [← List.append_assoc, value_concat]
      omega

@[simp] theorem value_zeros_append (k : ℕ) (ds : List UInt8) :
    value (List.replicate k '0'.toUInt8 ++ ds) = value ds := by
  induction k with
  | zero => simp
  | succ k ih => simpa [value, List.replicate_succ, digitValue] using ih

/-- The numeral of `n`, most significant digit first. -/
def numeral (n : ℕ) : List UInt8 := (Nat.toDigits 10 n).map Char.toUInt8

theorem digitChar_digitValue {c : UInt8} (h : IsDigit c) :
    (Nat.digitChar (digitValue c)).toUInt8 = c := by
  obtain ⟨hl, hu⟩ := isDigit_iff.mp h
  apply UInt8.toNat_inj.mp
  simp only [digitValue, show '0'.toUInt8.toNat = 48 from rfl]
  generalize c.toNat = n at hl hu
  interval_cases n <;> rfl

theorem digit_digitChar {d : ℕ} (h : d < 10) :
    IsDigit (Nat.digitChar d).toUInt8 ∧ digitValue (Nat.digitChar d).toUInt8 = d := by
  interval_cases d <;> decide

theorem numeral_of_lt {n : ℕ} (h : n < 10) : numeral n = [(Nat.digitChar n).toUInt8] := by
  rw [numeral, Nat.toDigits_of_lt_base h, List.map_singleton]

theorem numeral_mul_add {n d : ℕ} (hn : 0 < n) (hd : d < 10) :
    numeral (n * 10 + d) = numeral n ++ [(Nat.digitChar d).toUInt8] := by
  rw [numeral, Nat.mul_comm, ← Nat.toDigits_append_toDigits (by omega) hn hd, List.map_append,
    Nat.toDigits_of_lt_base hd]
  rfl

theorem length_numeral_of_le {n : ℕ} (h : 10 ≤ n) :
    (numeral n).length = (numeral (n / 10)).length + 1 := by
  have hsplit : n = n / 10 * 10 + n % 10 := by omega
  have hnumeral := numeral_mul_add (n := n / 10) (by omega) (Nat.mod_lt n (by omega : 0 < 10))
  rw [← hsplit] at hnumeral
  rw [hnumeral, List.length_append, List.length_singleton]

theorem numeral_ne_nil (n : ℕ) : numeral n ≠ [] := by
  simp [numeral, Nat.toDigits_ne_nil]

/-- Numerals are read back as the number they were printed for. -/
theorem numeral_spec (n : ℕ) : (∀ c ∈ numeral n, IsDigit c) ∧ value (numeral n) = n := by
  induction n using Nat.strongRecOn with
  | ind n ih =>
      rcases lt_or_ge n 10 with hn | hn
      · have hd := digit_digitChar hn
        rw [numeral_of_lt hn, value_singleton]
        exact ⟨by simpa using hd.1, hd.2⟩
      · obtain ⟨hdigits, hvalue⟩ := ih (n / 10) (by omega)
        have hd := digit_digitChar (Nat.mod_lt n (by omega : 0 < 10))
        have hsplit : n = n / 10 * 10 + n % 10 := by omega
        rw [hsplit, numeral_mul_add (by omega) (Nat.mod_lt n (by omega)), value_concat, hvalue,
          hd.2]
        refine ⟨fun c hc => ?_, rfl⟩
        rcases List.mem_append.mp hc with hc | hc
        · exact hdigits c hc
        · exact List.mem_singleton.mp hc ▸ hd.1

theorem numeral_isDigit {n : ℕ} {c : UInt8} (h : c ∈ numeral n) : IsDigit c :=
  (numeral_spec n).1 c h

@[simp] theorem value_numeral (n : ℕ) : value (numeral n) = n := (numeral_spec n).2

/-- A non-empty run of digits is the numeral of its value behind zeros. -/
theorem exists_zeros_numeral {ds : List UInt8} (hne : ds ≠ []) (hds : ∀ c ∈ ds, IsDigit c) :
    ∃ k, ds = List.replicate k '0'.toUInt8 ++ numeral (value ds) := by
  induction ds using List.reverseRecOn with
  | nil => exact absurd rfl hne
  | append_singleton ds c ih =>
      have hc : IsDigit c := hds c (by simp)
      have hlt : digitValue c < 10 := by
        have := digitValue_le hc
        omega
      have hlast : numeral (digitValue c) = [c] := by
        rw [numeral_of_lt hlt, digitChar_digitValue hc]
      rcases eq_or_ne ds [] with rfl | hds'
      · exact ⟨0, by simp [value_singleton, hlast]⟩
      · obtain ⟨k, hk⟩ := ih hds' fun d hd => hds d (List.mem_append_left _ hd)
        rcases Nat.eq_zero_or_pos (value ds) with hv | hv
        · -- Only zeros so far: the last of them becomes superfluous.
          refine ⟨k + 1, ?_⟩
          have hzero : numeral 0 = ['0'.toUInt8] := rfl
          rw [hv, hzero, ← List.replicate_succ'] at hk
          rw [value_concat, hv, Nat.zero_mul, Nat.zero_add, hlast, ← hk]
        · refine ⟨k, ?_⟩
          rw [value_concat, numeral_mul_add hv hlt, digitChar_digitValue hc, ← List.append_assoc,
            ← hk]

end Decimal
