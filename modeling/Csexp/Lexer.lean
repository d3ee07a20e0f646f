import Csexp.Runtime
import Csexp.Library.Decimal

/-!
# The lexer

A lexer is fed one character at a time and answers with a token, or with
`Await` while it is inside the length of an atom. It never sees the bytes
of an atom: the caller fetches them after an `Atom` token.
-/

namespace Csexp

open Decimal (IsDigit digitValue)

def prematureEndOfInput : String := "premature end of input"

namespace Lexer

inductive State where
  | init
  | parsingLength
  deriving DecidableEq, Repr

/-- The tokens that `Stack.addToken` accepts. -/
inductive Other where
  | await
  | lparen
  | rparen
  deriving DecidableEq, Repr

inductive Token where
  | other (x : Other)
  | atom (n : ℤ)
  deriving DecidableEq, Repr

end Lexer

structure Lexer where
  state : Lexer.State
  n : ℤ
  deriving DecidableEq, Repr

namespace Lexer

def create : Lexer := { state := .init, n := 0 }

def intOfDigit (c : UInt8) : ℤ := (c.toNat : ℤ) - ('0'.toUInt8.toNat : ℤ)

def invalidCharacter (c : UInt8) : String :=
  "invalid character " ++ formatCamlChar c ++ ", expected '(', ')' or '0'..'9'"

def invalidLengthCharacter (c : UInt8) : String :=
  "invalid character " ++ formatCamlChar c ++
    " while parsing atom length, expected '0'..'9' or ':'"

def atomTooBig : String := "atom too big to represent"

/-- Every branch that raises does so before it assigns a field, so a lexer
that raised is unchanged and need not be returned. -/
def feed (S : Sys) (t : Lexer) (c : UInt8) : Eval (Token × Lexer) :=
  match t.state with
  | .init =>
    if c = '('.toUInt8 then .ok (.other .lparen, t)
    else if c = ')'.toUInt8 then .ok (.other .rparen, t)
    else if IsDigit c then
      .ok (.other .await, { state := .parsingLength, n := intOfDigit c })
    else .error (.parseError (invalidCharacter c))
  | .parsingLength =>
    if IsDigit c then
      let len := S.wrap (S.wrap (t.n * 10) + intOfDigit c)
      if len > S.maxStringLength then .error (.parseError atomTooBig)
      else .ok (.other .await, { t with n := len })
    else if c = ':'.toUInt8 then .ok (.atom t.n, { t with state := .init })
    else .error (.parseError (invalidLengthCharacter c))

def feedEoi (t : Lexer) : Eval Unit :=
  match t.state with
  | .init => .ok ()
  | .parsingLength => .error (.parseError prematureEndOfInput)

/-! ## Messages -/

theorem head_invalid (x y : String) :
    ("invalid character " ++ x ++ y).toList.head? = some 'i' := by
  have hlit : "invalid character ".toList = 'i' :: "nvalid character ".toList := by simp
  simp only [String.toList_append, hlit]
  rfl

theorem invalidCharacter_ne (c : UInt8) {msg : String} (h : msg.toList.head? ≠ some 'i') :
    invalidCharacter c ≠ msg := by
  intro heq
  exact h (heq ▸ head_invalid _ _)

theorem invalidLengthCharacter_ne (c : UInt8) {msg : String}
    (h : msg.toList.head? ≠ some 'i') : invalidLengthCharacter c ≠ msg := by
  intro heq
  exact h (heq ▸ head_invalid _ _)

/-! ## Lengths stay in range -/

theorem intOfDigit_eq {c : UInt8} (h : IsDigit c) : intOfDigit c = digitValue c := by
  have hc := Decimal.isDigit_iff.mp h
  have hzero : '0'.toUInt8.toNat = 48 := rfl
  rw [intOfDigit, digitValue, hzero]
  omega

def Bounded (S : Sys) (t : Lexer) : Prop := 0 ≤ t.n ∧ t.n ≤ S.maxStringLength

theorem bounded_create (S : Sys) : create.Bounded S := ⟨le_rfl, Int.natCast_nonneg _⟩

/-- From a length in range, neither the product nor the sum wraps. -/
theorem wrap_len (P : Platform) {t : Lexer} (ht : t.Bounded P.toSys) {c : UInt8}
    (hc : IsDigit c) :
    P.wrap (t.n * 10) = t.n * 10 ∧
      P.wrap (P.wrap (t.n * 10) + intOfDigit c) = t.n * 10 + digitValue c := by
  obtain ⟨hn₀, hn⟩ := ht
  have hd := Decimal.digitValue_le hc
  have hmax := P.ten_mul_le_maxInt
  have hmul : P.wrap (t.n * 10) = t.n * 10 :=
    P.wrap_eq_self (by omega) (by omega)
  refine ⟨hmul, ?_⟩
  rw [hmul, intOfDigit_eq hc]
  exact P.wrap_eq_self (by omega) (by omega)

/-- All that `feed` can do to a lexer whose length is in range, where `M` is
the longest string length: the lexer, the character, and the outcome. -/
inductive Feeds (M : ℕ) : Lexer → UInt8 → Eval (Token × Lexer) → Prop where
  | lparen (n : ℤ) : Feeds M ⟨.init, n⟩ '('.toUInt8 (.ok (.other .lparen, ⟨.init, n⟩))
  | rparen (n : ℤ) : Feeds M ⟨.init, n⟩ ')'.toUInt8 (.ok (.other .rparen, ⟨.init, n⟩))
  | digit (n : ℤ) {c : UInt8} (hc : IsDigit c) (hM : digitValue c ≤ M) :
      Feeds M ⟨.init, n⟩ c (.ok (.other .await, ⟨.parsingLength, digitValue c⟩))
  | invalid (n : ℤ) {c : UInt8} (hl : c ≠ '('.toUInt8) (hr : c ≠ ')'.toUInt8)
      (hc : ¬ IsDigit c) : Feeds M ⟨.init, n⟩ c (.error (.parseError (invalidCharacter c)))
  | grow (n : ℕ) {c : UInt8} (hc : IsDigit c) (hM : n * 10 + digitValue c ≤ M) :
      Feeds M ⟨.parsingLength, n⟩ c
        (.ok (.other .await, ⟨.parsingLength, (n * 10 + digitValue c : ℕ)⟩))
  | tooBig (n : ℕ) {c : UInt8} (hc : IsDigit c) (hM : M < n * 10 + digitValue c) :
      Feeds M ⟨.parsingLength, n⟩ c (.error (.parseError atomTooBig))
  | colon (n : ℕ) (hM : n ≤ M) :
      Feeds M ⟨.parsingLength, n⟩ ':'.toUInt8 (.ok (.atom n, ⟨.init, n⟩))
  | invalidLength (n : ℕ) {c : UInt8} (hl : c ≠ ':'.toUInt8) (hc : ¬ IsDigit c) :
      Feeds M ⟨.parsingLength, n⟩ c (.error (.parseError (invalidLengthCharacter c)))

theorem feeds_init (P : Platform) (n : ℤ) (c : UInt8) :
    Feeds P.maxStringLength ⟨.init, n⟩ c (feed P.toSys ⟨.init, n⟩ c) := by
  by_cases hl : c = '('.toUInt8
  · subst hl
    exact .lparen n
  · by_cases hr : c = ')'.toUInt8
    · subst hr
      exact .rparen n
    · by_cases hc : IsDigit c
      · have hM := (Decimal.digitValue_le hc).trans P.nine_le_maxStringLength
        simpa only [feed, if_neg hl, if_neg hr, if_pos hc, intOfDigit_eq hc] using
          Feeds.digit n hc hM
      · simpa only [feed, if_neg hl, if_neg hr, if_neg hc] using Feeds.invalid n hl hr hc

theorem feeds_parsingLength (P : Platform) {n : ℕ} (hn : n ≤ P.maxStringLength) (c : UInt8) :
    Feeds P.maxStringLength ⟨.parsingLength, n⟩ c (feed P.toSys ⟨.parsingLength, n⟩ c) := by
  by_cases hc : IsDigit c
  · have hlen := (wrap_len P (t := ⟨.parsingLength, n⟩)
      ⟨Int.natCast_nonneg n, Int.ofNat_le.mpr hn⟩ hc).2
    have hcast : (n : ℤ) * 10 + digitValue c = (n * 10 + digitValue c : ℕ) := by push_cast; rfl
    rw [hcast] at hlen
    simp only [feed, if_pos hc, hlen, gt_iff_lt, Int.ofNat_lt]
    split
    · rename_i hM
      exact .tooBig n hc hM
    · rename_i hM
      exact .grow n hc (not_lt.mp hM)
  · by_cases hl : c = ':'.toUInt8
    · subst hl
      exact .colon n hn
    · simpa only [feed, if_neg hc, if_neg hl] using Feeds.invalidLength n hl hc

theorem feeds (P : Platform) {t : Lexer} (ht : t.Bounded P.toSys) (c : UInt8) :
    Feeds P.maxStringLength t c (feed P.toSys t c) := by
  obtain ⟨state, n⟩ := t
  obtain ⟨m, rfl⟩ := Int.eq_ofNat_of_zero_le ht.1
  cases state with
  | init => exact feeds_init P m c
  | parsingLength => exact feeds_parsingLength P (Int.ofNat_le.mp ht.2) c

theorem feed_bounded (P : Platform) {t t' : Lexer} {c : UInt8} {x : Token}
    (ht : t.Bounded P.toSys) (h : feed P.toSys t c = .ok (x, t')) : t'.Bounded P.toSys := by
  have hf := feeds P ht c
  rw [h] at hf
  cases hf with
  | lparen | rparen => exact ht
  | digit n hc hM => exact ⟨Int.natCast_nonneg _, Int.ofNat_le.mpr hM⟩
  | grow n hc hM => exact ⟨Int.natCast_nonneg _, Int.ofNat_le.mpr hM⟩
  | colon n hM => exact ht

/-- The lexer only ever raises `Parse_error`. -/
theorem feed_error (S : Sys) {t : Lexer} {c : UInt8} {e : Exn} (h : feed S t c = .error e) :
    ∃ msg, e = .parseError msg := by
  simp only [feed] at h
  split at h <;> split_ifs at h <;> exact ⟨_, (Except.error.inj h).symm⟩

end Lexer

end Csexp
