import Csexp.AtomLength
import Csexp.Encoding
import Csexp.Tokens

/-!
# Tokens written as bytes

The bytes of a token sequence, for any relation between the digits in
front of an atom and the number of its bytes. With exact lengths this is
the grammar again, for an expression as for the contents of a stack. With
the lengths the lexer computes it is what the parsers read.
-/

namespace Csexp

open Decimal (IsDigit value)
open Stack (Token tokens)

inductive Written (L : Bytes → ℕ → Prop) : List Token → Bytes → Prop where
  | nil : Written L [] []
  | lparen {ts : List Token} {s : Bytes} (h : Written L ts s) :
      Written L (.lparen :: ts) ('('.toUInt8 :: s)
  | rparen {ts : List Token} {s : Bytes} (h : Written L ts s) :
      Written L (.rparen :: ts) (')'.toUInt8 :: s)
  | atom {ts : List Token} {s ds a : Bytes} (hL : L ds a.length) (h : Written L ts s) :
      Written L (.atom a :: ts) (ds ++ ':'.toUInt8 :: (a ++ s))

/-- Digits of value `n`, which is at most `M`. -/
structure Exact (M : ℕ) (ds : Bytes) (n : ℕ) : Prop where
  ne_nil : ds ≠ []
  digits : ∀ c ∈ ds, IsDigit c
  value_eq : value ds = n
  le : n ≤ M

/-- Digits that the lexer decodes as `n`. -/
structure Decoded (S : Sys) (ds : Bytes) (n : ℕ) : Prop extends Lexer.Passes S ds where
  wrap_eq : S.wrap (value ds) = n

theorem Decoded.le {S : Sys} {ds : Bytes} {n : ℕ} (h : Decoded S ds n) :
    n ≤ S.maxStringLength := by
  have hle := h.guarded.self
  rw [h.wrap_eq] at hle
  exact Int.ofNat_le.mp hle

/-- On a native platform the lexer decodes lengths exactly. -/
theorem decoded_iff_exact (P : Platform) {ds : Bytes} {n : ℕ} :
    Decoded P.toSys ds n ↔ Exact P.maxStringLength ds n := by
  constructor
  · intro h
    have hM := (Lexer.guarded_iff P h.digits).mp h.guarded
    have hwrap := h.wrap_eq
    rw [Lexer.wrap_of_le P (by omega), Int.ofNat_inj] at hwrap
    exact ⟨h.ne_nil, h.digits, hwrap, h.le⟩
  · intro h
    have hM : value ds ≤ P.maxStringLength := h.value_eq ▸ h.le
    refine ⟨⟨h.ne_nil, h.digits, (Lexer.guarded_iff P h.digits).mpr hM⟩, ?_⟩
    rw [Lexer.wrap_of_le P (by omega), h.value_eq]

namespace Written

variable {L L' : Bytes → ℕ → Prop}

theorem mono (hL : ∀ ds n, L ds n → L' ds n) {ts : List Token} {s : Bytes}
    (h : Written L ts s) : Written L' ts s := by
  induction h with
  | nil => exact .nil
  | lparen _ ih => exact .lparen ih
  | rparen _ ih => exact .rparen ih
  | atom hn _ ih => exact .atom (hL _ _ hn) ih

theorem append {ts us : List Token} {s t : Bytes} (h : Written L ts s) (h' : Written L us t) :
    Written L (ts ++ us) (s ++ t) := by
  induction h with
  | nil => exact h'
  | lparen _ ih => exact .lparen ih
  | rparen _ ih => exact .rparen ih
  | atom hn _ ih =>
      rw [List.append_assoc, List.cons_append, List.cons_append, List.append_assoc]
      exact .atom hn ih

theorem of_append {ts us : List Token} {s : Bytes} (h : Written L (ts ++ us) s) :
    ∃ s₁ s₂, s = s₁ ++ s₂ ∧ Written L ts s₁ ∧ Written L us s₂ := by
  induction ts generalizing s with
  | nil => exact ⟨[], s, rfl, .nil, h⟩
  | cons x ts ih =>
      cases h with
      | lparen h =>
          obtain ⟨s₁, s₂, rfl, h₁, h₂⟩ := ih h
          exact ⟨_, s₂, rfl, .lparen h₁, h₂⟩
      | rparen h =>
          obtain ⟨s₁, s₂, rfl, h₁, h₂⟩ := ih h
          exact ⟨_, s₂, rfl, .rparen h₁, h₂⟩
      | atom hn h =>
          obtain ⟨s₁, s₂, rfl, h₁, h₂⟩ := ih h
          exact ⟨_, s₂, by simp, .atom hn h₁, h₂⟩

/-- The tokens determine where their bytes end. -/
theorem append_inj (hL : ∀ ds n, L ds n → ∀ c ∈ ds, IsDigit c)
    (hL' : ∀ ds n, L' ds n → ∀ c ∈ ds, IsDigit c) {ts : List Token} {s s' t t' : Bytes}
    (h : Written L ts s) (h' : Written L' ts s') (heq : s ++ t = s' ++ t') :
    s = s' ∧ t = t' := by
  induction h generalizing s' with
  | nil =>
      cases h'
      exact ⟨rfl, heq⟩
  | lparen _ ih =>
      cases h' with
      | lparen h' =>
          obtain ⟨rfl, rfl⟩ := ih h' (List.cons.inj heq).2
          exact ⟨rfl, rfl⟩
  | rparen _ ih =>
      cases h' with
      | rparen h' =>
          obtain ⟨rfl, rfl⟩ := ih h' (List.cons.inj heq).2
          exact ⟨rfl, rfl⟩
  | atom hn _ ih =>
      cases h' with
      | atom hn' h' =>
          simp only [List.append_assoc, List.cons_append] at heq
          obtain ⟨rfl, hrest⟩ := colon_unique (hL _ _ hn) (hL' _ _ hn') heq
          obtain ⟨rfl, rfl⟩ := ih h' (List.append_cancel_left hrest)
          exact ⟨rfl, rfl⟩

end Written

/-- The tokens are written with lengths related by `L`, and the digits of at
least one of these lengths satisfy `p`. -/
def WrittenWith (L : Bytes → ℕ → Prop) (p : Bytes → Prop) (ts : List Token) (s : Bytes) : Prop :=
  ∃ ts₁ a ts₂ s₁ ds s₂, ts = ts₁ ++ .atom a :: ts₂ ∧ s = s₁ ++ (ds ++ ':'.toUInt8 :: (a ++ s₂)) ∧
    Written L ts₁ s₁ ∧ L ds a.length ∧ p ds ∧ Written L ts₂ s₂

namespace WrittenWith

variable {L : Bytes → ℕ → Prop} {p : Bytes → Prop}

theorem written {ts : List Token} {s : Bytes} (h : WrittenWith L p ts s) : Written L ts s := by
  obtain ⟨ts₁, a, ts₂, s₁, ds, s₂, rfl, rfl, h₁, hn, -, h₂⟩ := h
  exact h₁.append (.atom hn h₂)

/-- A token in front changes nothing about the lengths behind it. -/
theorem cons {x : Token} {ts : List Token} {w s : Bytes} (hx : Written L [x] w)
    (h : WrittenWith L p ts s) : WrittenWith L p (x :: ts) (w ++ s) := by
  obtain ⟨ts₁, a, ts₂, s₁, ds, s₂, rfl, rfl, h₁, hn, hp, h₂⟩ := h
  exact ⟨x :: ts₁, a, ts₂, w ++ s₁, ds, s₂, rfl, by simp, hx.append h₁, hn, hp, h₂⟩

end WrittenWith

/-- Either some length satisfies `p` or all of them lack it. -/
theorem Written.with_or {L : Bytes → ℕ → Prop} {ts : List Token} {s : Bytes}
    (h : Written L ts s) (p : Bytes → Prop) :
    WrittenWith L p ts s ∨ Written (fun ds n => L ds n ∧ ¬ p ds) ts s := by
  induction h with
  | nil => exact Or.inr .nil
  | lparen _ ih => exact ih.imp (.cons (.lparen .nil)) .lparen
  | rparen _ ih => exact ih.imp (.cons (.rparen .nil)) .rparen
  | @atom ts s ds a hn h ih =>
      by_cases hp : p ds
      · exact Or.inl ⟨[], a, ts, [], ds, s, rfl, rfl, .nil, hn, hp, h⟩
      · rcases ih with ih | ih
        · have hcons := WrittenWith.cons (.atom hn .nil) ih
          rw [List.append_nil, List.append_assoc, List.cons_append] at hcons
          exact Or.inl hcons
        · exact Or.inr (.atom ⟨hn, hp⟩ ih)

/-! ## The grammar as written tokens -/

section Grammar

variable {M : ℕ}

mutual

theorem Derives.written : ∀ {s : Bytes} {x : Sexp}, Derives M s x →
    Written (Exact M) (tokens x) s
  | _, _, .atom hne hds hval hM => by
      rw [Stack.tokens_atom]
      simpa using Written.atom (L := Exact M) ⟨hne, hds, hval, hM⟩ .nil
  | _, _, .list h => by
      rw [Stack.tokens_list]
      exact (Written.lparen h.written).append (.rparen .nil)

theorem DerivesMany.written : ∀ {s : Bytes} {xs : List Sexp}, DerivesMany M s xs →
    Written (Exact M) (xs.flatMap tokens) s
  | _, _, .nil => .nil
  | _, _, .cons h ht => h.written.append ht.written

end

theorem derivesMany_of_written {l : List Sexp}
    (h : ∀ x ∈ l, ∀ s, Written (Exact M) (tokens x) s → Derives M s x) {s : Bytes}
    (hs : Written (Exact M) (l.flatMap tokens) s) : DerivesMany M s l := by
  induction l generalizing s with
  | nil =>
      cases hs
      exact .nil
  | cons x l ih =>
      obtain ⟨s₁, s₂, rfl, h₁, h₂⟩ := hs.of_append
      exact .cons (h x List.mem_cons_self s₁ h₁)
        (ih (fun y hy => h y (List.mem_cons_of_mem x hy)) h₂)

theorem derives_iff_written {s : Bytes} {x : Sexp} :
    Derives M s x ↔ Written (Exact M) (tokens x) s := by
  constructor
  · exact Derives.written
  · intro h
    induction x generalizing s with
    | atom a =>
        cases h with
        | atom hn h =>
            cases h
            rw [List.append_nil]
            exact .atom hn.ne_nil hn.digits hn.value_eq hn.le
    | list l ih =>
        rw [Stack.tokens_list] at h
        obtain ⟨s₁, s₂, rfl, h₁, h₂⟩ := h.of_append
        cases h₁ with
        | lparen h₁ =>
            cases h₂ with
            | rparen h₂ =>
                cases h₂
                exact .list (derivesMany_of_written (fun x hx s hs => ih x hx hs) h₁)

/-- The bytes that spell a stack are those of the tokens it records. -/
theorem stackSpells_iff_written {s : Bytes} {t : Stack} :
    StackSpells M s t ↔ Written (Exact M) t.flatten s := by
  induction t generalizing s with
  | empty =>
      constructor
      · intro h
        cases h
        exact .nil
      · intro h
        cases h
        exact .empty
  | opened t ih =>
      constructor
      · intro h
        cases h with
        | opened h => exact (ih.mp h).append (.lparen .nil)
      · intro h
        obtain ⟨s₁, s₂, rfl, h₁, h₂⟩ := h.of_append
        cases h₂ with
        | lparen h₂ =>
            cases h₂
            exact (ih.mpr h₁).opened
  | sexp x t ih =>
      constructor
      · intro h
        cases h with
        | sexp h hx => exact (ih.mp h).append hx.written
      · intro h
        obtain ⟨s₁, s₂, rfl, h₁, h₂⟩ := h.of_append
        exact (ih.mpr h₁).sexp (derives_iff_written.mpr h₂)

end Grammar

end Csexp
