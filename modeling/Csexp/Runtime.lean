import Mathlib.Data.List.Basic
import Mathlib.Tactic.Linarith

/-!
# The part of the OCaml runtime the library relies on

Strings are lists of bytes. An expression that may raise is an `Except`
over the exceptions below, so that a handler catches exactly what it
names and an exception that escapes stays visible in the result. Native
integers wrap at the width the platform reports.
-/

namespace Csexp

abbrev Bytes := List UInt8

/-- The exceptions that can come up while parsing. Reading a string out of
bounds with `String.unsafe_get` raises nothing in OCaml; it is listed here
so that no handler hides it. -/
inductive Exn where
  | parseError (msg : String)
  | endOfFile
  | outOfMemory
  | invalidArgument (msg : String)
  | assertFailure
  | unsafeAccess
  deriving DecidableEq

/-- The evaluation of an expression: a value or an exception. -/
abbrev Eval (α : Type) := Except Exn α

/-- OCaml's `result`, with its arguments in OCaml's order. -/
abbrev Result (α ε : Type) := Except ε α

/-- What `Sys` reports about the platform. -/
structure Sys where
  intSize : ℕ
  maxStringLength : ℕ

namespace Sys

def maxInt (S : Sys) : ℤ := 2 ^ (S.intSize - 1) - 1

/-- An `int` keeps the low `intSize` bits of a result, read as signed. -/
def wrap (S : Sys) (i : ℤ) : ℤ := i.bmod (2 ^ S.intSize)

theorem wrap_eq_self (S : Sys) {i : ℤ} (h₀ : 0 ≤ i) (h : i ≤ S.maxInt) : S.wrap i = i := by
  unfold wrap
  apply Int.bmod_eq_of_le_mul_two
  · have hpow : (0 : ℤ) ≤ ((2 ^ S.intSize : ℕ) : ℤ) := Int.natCast_nonneg _
    omega
  · unfold maxInt at h
    cases hw : S.intSize with
    | zero =>
        rw [hw] at h
        simp only [Nat.zero_sub, pow_zero] at h ⊢
        omega
    | succ w =>
        rw [hw, Nat.add_sub_cancel] at h
        push_cast
        rw [pow_succ]
        linarith

end Sys

/-- A platform on which ten times the longest string length still fits an
`int`, as on OCaml's native 32-bit and 64-bit platforms. -/
structure Platform extends Sys where
  nine_le_maxStringLength : 9 ≤ maxStringLength
  ten_mul_le_maxInt : 10 * (maxStringLength : ℤ) + 9 ≤ toSys.maxInt

namespace Platform

def native64 : Platform where
  intSize := 63
  maxStringLength := 2 ^ 57 - 9
  nine_le_maxStringLength := by norm_num
  ten_mul_le_maxInt := by norm_num [Sys.maxInt]

def native32 : Platform where
  intSize := 31
  maxStringLength := 2 ^ 24 - 5
  nine_le_maxStringLength := by norm_num
  ten_mul_le_maxInt := by norm_num [Sys.maxInt]

end Platform

/-! ## Characters in messages -/

/-- `Char.escaped`. -/
def escaped (c : UInt8) : String :=
  if c = 39 then "\\'"
  else if c = 92 then "\\\\"
  else if c = '\n'.toUInt8 then "\\n"
  else if c = '\t'.toUInt8 then "\\t"
  else if c = '\r'.toUInt8 then "\\r"
  else if c = 8 then "\\b"
  else if ' '.toUInt8 ≤ c ∧ c ≤ '~'.toUInt8 then String.singleton (Char.ofNat c.toNat)
  else
    let digit (d : ℕ) : String := String.singleton (Nat.digitChar d)
    "\\" ++ digit (c.toNat / 100) ++ digit (c.toNat / 10 % 10) ++ digit (c.toNat % 10)

/-- The conversion `%C` of format strings. -/
def formatCamlChar (c : UInt8) : String := "'" ++ escaped c ++ "'"

/-! ## Strings -/

/-- `String.unsafe_get s pos`, for a position that is never negative. -/
def unsafeGet (s : Bytes) (pos : ℕ) : Eval UInt8 :=
  match s[pos]? with
  | some c => .ok c
  | none => .error .unsafeAccess

/-- `String.sub s ofs len`. -/
def stringSub (s : Bytes) (ofs : ℕ) (len : ℤ) : Eval Bytes :=
  if len < 0 ∨ (s.length : ℤ) - len < ofs then
    .error (.invalidArgument "String.sub / Bytes.sub")
  else .ok ((s.drop ofs).take len.toNat)

theorem unsafeGet_eq_ok {s : Bytes} {pos : ℕ} {c : UInt8} :
    unsafeGet s pos = .ok c ↔ s[pos]? = some c := by
  unfold unsafeGet
  cases s[pos]? <;> simp

theorem stringSub_eq_ok {s a : Bytes} {ofs : ℕ} {len : ℤ} (h : stringSub s ofs len = .ok a) :
    0 ≤ len ∧ ofs + len.toNat ≤ s.length ∧ a = (s.drop ofs).take len.toNat := by
  unfold stringSub at h
  split at h
  · cases h
  · rename_i hlen
    exact ⟨by omega, by omega, (Except.ok.inj h).symm⟩

/-! ## Input channels -/

/-- The bytes of a channel that have not been read yet. -/
abbrev InChannel := Bytes

/-- Reading from a channel leaves it at a new position also when the read
raises an exception. -/
abbrev Chan (α : Type) := InChannel → Eval α × InChannel

/-- The sizes for which `Bytes.create` finds the memory it needs. -/
abbrev Allocator := ℕ → Bool

def Allocator.always : Allocator := fun _ => true

def inputChar : Chan UInt8
  | [] => (.error .endOfFile, [])
  | c :: ic => (.ok c, ic)

/-- `really_input_string ic n` creates the buffer first and then fills it;
at the end of the file the bytes that were left have been consumed. -/
def reallyInputString (S : Sys) (alloc : Allocator) (n : ℤ) : Chan Bytes := fun ic =>
  if n < 0 ∨ (S.maxStringLength : ℤ) < n then (.error (.invalidArgument "Bytes.create"), ic)
  else if alloc n.toNat = false then (.error .outOfMemory, ic)
  else if ic.length < n.toNat then (.error .endOfFile, [])
  else (.ok (ic.take n.toNat), ic.drop n.toNat)

end Csexp
