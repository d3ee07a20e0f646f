import Csexp.Runtime
import Csexp.Library.Decimal
import Mathlib.Tactic.Ring

/-!
# Integers and their spelling

The integers that fit the platform, `string_of_int`, and the conversion
back. It accepts more than what is printed: a sign, the prefixes of four
bases, underscores, and for the bases other than ten also the numbers that
wrap to a negative one.
-/

namespace Csexp

open Decimal (IsDigit digitValue value numeral)

namespace Platform

def minInt (P : Platform) : ℤ := -2 ^ (P.intSize - 1)

/-- An `int` has at least one bit besides its sign. -/
theorem exists_intSize (P : Platform) : ∃ w, P.intSize = w + 1 := by
  apply Nat.exists_eq_add_one_of_ne_zero
  intro hw
  have hmax := P.ten_mul_le_maxInt
  have hnine := P.nine_le_maxStringLength
  rw [Sys.maxInt, hw] at hmax
  norm_num at hmax
  omega

theorem wrap_range (P : Platform) (i : ℤ) : P.minInt ≤ P.wrap i ∧ P.wrap i ≤ P.maxInt := by
  obtain ⟨w, hw⟩ := P.exists_intSize
  have hpow : ((2 ^ (w + 1) : ℕ) : ℤ) = 2 * 2 ^ w := by
    push_cast
    ring
  have hpos : 0 < 2 ^ (w + 1) := Nat.two_pow_pos _
  have hle := Int.le_bmod (x := i) hpos
  have hlt := Int.bmod_lt (x := i) hpos
  rw [hpow] at hle hlt
  rw [minInt, Sys.maxInt, Sys.wrap, hw, Nat.add_sub_cancel]
  constructor <;> omega

theorem wrap_of_range (P : Platform) {i : ℤ} (h₀ : P.minInt ≤ i) (h : i ≤ P.maxInt) :
    P.wrap i = i := by
  obtain ⟨w, hw⟩ := P.exists_intSize
  rw [minInt, hw, Nat.add_sub_cancel] at h₀
  rw [Sys.maxInt, hw, Nat.add_sub_cancel] at h
  rw [Sys.wrap, hw]
  have hpow : ((2 ^ (w + 1) : ℕ) : ℤ) = 2 * 2 ^ w := by
    push_cast
    ring
  apply Int.bmod_eq_of_le_mul_two
  all_goals
    rw [hpow]
    omega

end Platform

/-- The values of the type `int`. -/
structure NativeInt (P : Platform) where
  val : ℤ
  minInt_le : P.minInt ≤ val
  le_maxInt : val ≤ P.maxInt

namespace NativeInt

variable {P : Platform}

theorem ext_val {i j : NativeInt P} (h : i.val = j.val) : i = j := by
  cases i
  cases j
  cases h
  rfl

instance : DecidableEq (NativeInt P) := fun i j =>
  decidable_of_iff (i.val = j.val) ⟨ext_val, fun h => h ▸ rfl⟩

def ofInt (P : Platform) (i : ℤ) : NativeInt P where
  val := P.wrap i
  minInt_le := (P.wrap_range i).1
  le_maxInt := (P.wrap_range i).2

theorem ofInt_val (i : NativeInt P) : ofInt P i.val = i :=
  ext_val (P.wrap_of_range i.minInt_le i.le_maxInt)

/-- `string_of_int`. -/
def toString (i : NativeInt P) : Bytes :=
  if i.val < 0 then '-'.toUInt8 :: numeral i.val.natAbs else numeral i.val.natAbs

end NativeInt

/-! ## `int_of_string_opt` -/

namespace IntOfString

def parseDigit (c : UInt8) : Option ℕ :=
  if IsDigit c then some (digitValue c)
  else if 'A'.toUInt8 ≤ c ∧ c ≤ 'F'.toUInt8 then some (c.toNat - 'A'.toUInt8.toNat + 10)
  else if 'a'.toUInt8 ≤ c ∧ c ≤ 'f'.toUInt8 then some (c.toNat - 'a'.toUInt8.toNat + 10)
  else none

/-- What precedes the digits. In the bases other than ten, and after `0u`,
the number is read as unsigned. -/
structure Format where
  negative : Bool
  base : ℕ
  signed : Bool

def parseSign : Bytes → Bool × Bytes
  | [] => (false, [])
  | c :: p =>
    if c = '-'.toUInt8 then (true, p)
    else if c = '+'.toUInt8 then (false, p)
    else (false, c :: p)

def parseBase : Bytes → ℕ × Bool × Bytes
  | z :: c :: p =>
    if z = '0'.toUInt8 then
      if c = 'x'.toUInt8 ∨ c = 'X'.toUInt8 then (16, false, p)
      else if c = 'o'.toUInt8 ∨ c = 'O'.toUInt8 then (8, false, p)
      else if c = 'b'.toUInt8 ∨ c = 'B'.toUInt8 then (2, false, p)
      else if c = 'u'.toUInt8 ∨ c = 'U'.toUInt8 then (10, false, p)
      else (10, true, z :: c :: p)
    else (10, true, z :: c :: p)
  | p => (10, true, p)

def parseSignAndBase (s : Bytes) : Format × Bytes :=
  let (negative, p) := parseSign s
  let (base, signed, p) := parseBase p
  ({ negative, base, signed }, p)

/-- The digits behind the first one, among which underscores are skipped. -/
def parseDigits (base res : ℕ) : Bytes → Option ℕ
  | [] => some res
  | c :: p =>
    if c = '_'.toUInt8 then parseDigits base res p
    else
      match parseDigit c with
      | none => none
      | some d => if base ≤ d then none else parseDigits base (base * res + d) p

def inRange (P : Platform) (f : Format) (res : ℕ) : Bool :=
  if f.signed then
    if f.negative then res ≤ 2 ^ (P.intSize - 1) else res < 2 ^ (P.intSize - 1)
  else res < 2 ^ P.intSize

end IntOfString

open IntOfString in
/-- The runtime also refuses what overflows a machine word while it is read;
such a number is out of range at the end as well. -/
def intOfStringOpt (P : Platform) (s : Bytes) : Option (NativeInt P) :=
  let (f, p) := parseSignAndBase s
  match p with
  | [] => none
  | c :: p =>
    match parseDigit c with
    | none => none
    | some d =>
      if f.base ≤ d then none
      else
        match parseDigits f.base d p with
        | none => none
        | some res =>
          if inRange P f res then
            some (NativeInt.ofInt P (if f.negative then -res else res))
          else none

namespace IntOfString

theorem parseDigit_of_isDigit {c : UInt8} (h : IsDigit c) : parseDigit c = some (digitValue c) :=
  if_pos h

theorem parseDigits_digits {ds : Bytes} (hds : ∀ c ∈ ds, IsDigit c) (es : Bytes) :
    parseDigits 10 (value es) ds = some (value (es ++ ds)) := by
  induction ds generalizing es with
  | nil => simp [parseDigits]
  | cons c ds ih =>
      have hc : IsDigit c := hds c List.mem_cons_self
      have hne : c ≠ '_'.toUInt8 := hc.ne (by decide)
      have hle := Decimal.digitValue_le hc
      have hsplit : es ++ c :: ds = (es ++ [c]) ++ ds := by simp
      have hstep : 10 * value es + digitValue c = value (es ++ [c]) := by
        rw [Decimal.value_concat, Nat.mul_comm]
      rw [parseDigits, if_neg hne, parseDigit_of_isDigit hc]
      simp only
      rw [if_neg (by omega), hstep, hsplit]
      exact ih (fun d hd => hds d (List.mem_cons_of_mem c hd)) (es ++ [c])

/-- Digits alone have no sign and no prefix. -/
theorem parseBase_digits {ds : Bytes} (hds : ∀ c ∈ ds, IsDigit c) :
    parseBase ds = (10, true, ds) := by
  match ds with
  | [] => rfl
  | [_] => rfl
  | z :: c :: p =>
      have hc : IsDigit c := hds c (by simp)
      have hne {d e : UInt8} (hd : ¬ IsDigit d) (he : ¬ IsDigit e) : ¬ (c = d ∨ c = e) :=
        not_or.mpr ⟨hc.ne hd, hc.ne he⟩
      have hx : ¬ (c = 'x'.toUInt8 ∨ c = 'X'.toUInt8) := hne (by decide) (by decide)
      have ho : ¬ (c = 'o'.toUInt8 ∨ c = 'O'.toUInt8) := hne (by decide) (by decide)
      have hb : ¬ (c = 'b'.toUInt8 ∨ c = 'B'.toUInt8) := hne (by decide) (by decide)
      have hu : ¬ (c = 'u'.toUInt8 ∨ c = 'U'.toUInt8) := hne (by decide) (by decide)
      simp only [parseBase, if_neg hx, if_neg ho, if_neg hb, if_neg hu, ite_self]

theorem parseSign_digits {ds : Bytes} (hds : ∀ c ∈ ds, IsDigit c) :
    parseSign ds = (false, ds) := by
  cases ds with
  | nil => rfl
  | cons c ds =>
      have hc : IsDigit c := hds c List.mem_cons_self
      rw [parseSign, if_neg (hc.ne (by decide)), if_neg (hc.ne (by decide))]

theorem intOfStringOpt_of_format (P : Platform) {s : Bytes} {n : ℕ} {negative : Bool}
    (hs : parseSign s = (negative, numeral n))
    (hn : inRange P ⟨negative, 10, true⟩ n = true) :
    intOfStringOpt P s = some (NativeInt.ofInt P (if negative then -n else n)) := by
  have hds : ∀ c ∈ numeral n, IsDigit c := fun c hc => Decimal.numeral_isDigit hc
  unfold intOfStringOpt parseSignAndBase
  rw [hs]
  simp only [parseBase_digits hds]
  cases hnum : numeral n with
  | nil => exact absurd hnum (Decimal.numeral_ne_nil n)
  | cons c ds =>
      rw [hnum] at hds
      have hc : IsDigit c := hds c List.mem_cons_self
      have hle := Decimal.digitValue_le hc
      have hrest := parseDigits_digits (fun d hd => hds d (List.mem_cons_of_mem c hd)) [c]
      rw [Decimal.value_singleton, List.singleton_append, ← hnum, Decimal.value_numeral] at hrest
      simp only [parseDigit_of_isDigit hc, hrest, hn]
      rw [if_neg (by omega)]
      rfl

end IntOfString

/-- Reading an integer undoes printing it. -/
theorem intOfStringOpt_toString {P : Platform} (i : NativeInt P) :
    intOfStringOpt P i.toString = some i := by
  have hmin := i.minInt_le
  have hmax := i.le_maxInt
  rw [Platform.minInt] at hmin
  rw [Sys.maxInt] at hmax
  have hcast : (2 : ℤ) ^ (P.intSize - 1) = ((2 ^ (P.intSize - 1) : ℕ) : ℤ) := by push_cast; rfl
  rw [hcast] at hmin hmax
  by_cases hneg : i.val < 0
  · have hstr : i.toString = '-'.toUInt8 :: numeral i.val.natAbs := if_pos hneg
    have hval : -(i.val.natAbs : ℤ) = i.val := by omega
    have hrange : IntOfString.inRange P ⟨true, 10, true⟩ i.val.natAbs = true := by
      simp only [IntOfString.inRange, if_true, decide_eq_true_eq]
      omega
    rw [hstr, IntOfString.intOfStringOpt_of_format P rfl hrange, if_pos rfl, hval,
      NativeInt.ofInt_val]
  · have hstr : i.toString = numeral i.val.natAbs := if_neg hneg
    have hval : (i.val.natAbs : ℤ) = i.val := by omega
    have hrange : IntOfString.inRange P ⟨false, 10, true⟩ i.val.natAbs = true := by
      simp [IntOfString.inRange]
      omega
    have hsign : IntOfString.parseSign (numeral i.val.natAbs) = (false, numeral i.val.natAbs) :=
      IntOfString.parseSign_digits fun c hc => Decimal.numeral_isDigit hc
    rw [hstr, IntOfString.intOfStringOpt_of_format P hsign hrange, if_neg (by decide), hval,
      NativeInt.ofInt_val]

end Csexp
