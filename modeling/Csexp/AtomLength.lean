import Csexp.Lexer
import Csexp.Library.Fold
import Csexp.Library.Prefixes

/-!
# How the lexer decodes a length

A lexer that takes all digits of a length holds the wrapped value of the
digits. On a native platform nothing wraps, as the guard stops a length
before the next product could leave the range of the machine.
-/

namespace Csexp

open Decimal (IsDigit digitValue value)

namespace Lexer

variable {S : Sys}

/-- Feed one more character, and note down the token it gives. -/
def feedNext (S : Sys) (p : List Token × Lexer) (c : UInt8) : Eval (List Token × Lexer) :=
  (feed S p.2 c).map fun q => (p.1 ++ [q.1], q.2)

/-- Feed the characters of a string one after the other. -/
def feedAll (S : Sys) (t : Lexer) (s : Bytes) : Eval (List Token × Lexer) :=
  Fold.run (feedNext S) ([], t) s

theorem feedNext_eq_ok {p q : List Token × Lexer} {c : UInt8} :
    feedNext S p c = .ok q ↔ ∃ x, feed S p.2 c = .ok (x, q.2) ∧ q.1 = p.1 ++ [x] := by
  obtain ⟨xs, t⟩ := q
  rw [feedNext]
  cases feed S p.2 c with
  | error e => simp [Except.map]
  | ok r =>
      obtain ⟨x, u⟩ := r
      simp only [Except.map, Except.ok.injEq, Prod.mk.injEq]
      constructor
      · rintro ⟨rfl, rfl⟩
        exact ⟨x, ⟨rfl, rfl⟩, rfl⟩
      · rintro ⟨y, ⟨rfl, rfl⟩, rfl⟩
        exact ⟨rfl, rfl⟩

theorem feedAll_concat {t r : Lexer} {s : Bytes} {xs : List Token}
    (h : feedAll S t s = .ok (xs, r)) (c : UInt8) :
    feedAll S t (s ++ [c]) = (feed S r c).map fun q => (xs ++ [q.1], q.2) := by
  rw [feedAll, Fold.run_concat h, feedNext]

/-- Every lexer that a run of the lexer leads to keeps its length in range. -/
theorem bounded_feedAll (P : Platform) {t : Lexer} {s : Bytes} {xs : List Token}
    (h : feedAll P.toSys create s = .ok (xs, t)) : t.Bounded P.toSys := by
  apply Fold.run_induction (P := fun _ p => p.2.Bounded P.toSys) _ _ h
  · exact bounded_create P.toSys
  · intro s p c q hp hq
    obtain ⟨x, hx, -⟩ := feedNext_eq_ok.mp hq
    exact feed_bounded P hp hx

/-! ## Digits in wrapping arithmetic -/

/-- The wrapped value of no prefix of the digits exceeds the longest string
length, so that the guard lets all of them pass. -/
def Guarded (S : Sys) (ds : Bytes) : Prop :=
  Prefixes.Always (fun pre => S.wrap (value pre) ≤ S.maxStringLength) ds

instance (S : Sys) (ds : Bytes) : Decidable (Guarded S ds) :=
  inferInstanceAs (Decidable (Prefixes.Always _ ds))

theorem feed_colon (S : Sys) (n : ℤ) :
    feed S ⟨.parsingLength, n⟩ ':'.toUInt8 = .ok (.atom n, ⟨.init, n⟩) := by
  have hc : ¬ IsDigit ':'.toUInt8 := by decide
  simp only [feed, if_neg hc, if_true]

/-- The first digit is taken without a check. -/
theorem feed_first_digit (hint : 9 ≤ S.maxInt) {c : UInt8} (hc : IsDigit c) (n : ℤ) :
    feed S ⟨.init, n⟩ c = .ok (.other .await, ⟨.parsingLength, S.wrap (value [c])⟩) := by
  have hl : c ≠ '('.toUInt8 := hc.ne (by decide)
  have hr : c ≠ ')'.toUInt8 := hc.ne (by decide)
  have hd := Decimal.digitValue_le hc
  have hwrap : S.wrap (digitValue c) = digitValue c :=
    S.wrap_eq_self (Int.natCast_nonneg _) (by omega)
  simp only [feed, if_neg hl, if_neg hr, if_pos hc, intOfDigit_eq hc, Decimal.value_singleton,
    hwrap]

/-- Computing with wrapped intermediate results gives the wrapped value. -/
theorem wrap_value_concat (S : Sys) {c : UInt8} (hc : IsDigit c) (ds : Bytes) :
    S.wrap (S.wrap (S.wrap (value ds) * 10) + intOfDigit c) = S.wrap (value (ds ++ [c])) := by
  rw [intOfDigit_eq hc, Decimal.value_concat]
  push_cast
  simp only [Sys.wrap, Int.bmod_mul_bmod, Int.bmod_add_bmod]

theorem feed_next_digit (S : Sys) {c : UInt8} (hc : IsDigit c) (ds : Bytes) :
    feed S ⟨.parsingLength, S.wrap (value ds)⟩ c =
      if (S.maxStringLength : ℤ) < S.wrap (value (ds ++ [c])) then
        .error (.parseError atomTooBig)
      else .ok (.other .await, ⟨.parsingLength, S.wrap (value (ds ++ [c]))⟩) := by
  simp only [feed, if_pos hc, wrap_value_concat S hc, gt_iff_lt]

/-! ### Runs of digits -/

/-- A non-empty run of digits that the lexer takes. -/
structure Passes (S : Sys) (ds : Bytes) : Prop where
  ne_nil : ds ≠ []
  digits : ∀ c ∈ ds, IsDigit c
  guarded : Guarded S ds

/-- A number of one digit passes the guard. -/
theorem wrap_le_of_le_nine (hint : 9 ≤ S.maxInt) (hnine : 9 ≤ S.maxStringLength) {v : ℕ}
    (hv : v ≤ 9) : S.wrap v ≤ S.maxStringLength := by
  rw [S.wrap_eq_self (Int.natCast_nonneg v) (by omega)]
  omega

theorem guarded_nil (hint : 9 ≤ S.maxInt) (hnine : 9 ≤ S.maxStringLength) : Guarded S [] :=
  Prefixes.always_nil.mpr (wrap_le_of_le_nine hint hnine (Nat.zero_le 9))

theorem passes_singleton (hint : 9 ≤ S.maxInt) (hnine : 9 ≤ S.maxStringLength) {c : UInt8}
    (hc : IsDigit c) : Passes S [c] := by
  have hle := wrap_le_of_le_nine hint hnine (Decimal.digitValue_le hc)
  rw [← Decimal.value_singleton] at hle
  exact ⟨List.cons_ne_nil c [], by simpa using hc,
    Prefixes.always_concat.mpr ⟨guarded_nil hint hnine, hle⟩⟩

theorem Passes.concat {ds : Bytes} (h : Passes S ds) {c : UInt8} (hc : IsDigit c)
    (hM : S.wrap (value (ds ++ [c])) ≤ S.maxStringLength) : Passes S (ds ++ [c]) where
  ne_nil := by simp
  digits := Decimal.forall_isDigit_concat h.digits hc
  guarded := Prefixes.always_concat.mpr ⟨h.guarded, hM⟩

/-- A run of digits is a single digit or continues a run of digits. -/
theorem Passes.induction {P : (ds : Bytes) → Passes S ds → Prop}
    (single : ∀ c (_ : IsDigit c) (h : Passes S [c]), P [c] h)
    (concat : ∀ ds c (h : Passes S ds) (hc : IsDigit c)
      (hM : S.wrap (value (ds ++ [c])) ≤ S.maxStringLength), P ds h → P (ds ++ [c]) (h.concat hc hM))
    {ds : Bytes} (h : Passes S ds) : P ds h := by
  induction ds using List.reverseRecOn with
  | nil => exact absurd rfl h.ne_nil
  | append_singleton ds c ih =>
      have hc : IsDigit c := h.digits c (by simp)
      rcases eq_or_ne ds [] with rfl | hne
      · exact single c hc h
      · obtain ⟨hg, hM⟩ := Prefixes.always_concat.mp h.guarded
        have hds : Passes S ds := ⟨hne, fun d hd => h.digits d (List.mem_append_left [c] hd), hg⟩
        exact concat ds c hds hc hM (ih hds)

/-- While the guard lets the digits pass, the lexer holds their wrapped value. -/
theorem feedAll_digits (hint : 9 ≤ S.maxInt) {ds : Bytes} (h : Passes S ds) (n : ℤ) :
    feedAll S ⟨.init, n⟩ ds =
      .ok (List.replicate ds.length (.other .await), ⟨.parsingLength, S.wrap (value ds)⟩) := by
  induction h using Passes.induction with
  | single c hc _ =>
      rw [feedAll, Fold.run_singleton, feedNext, feed_first_digit hint hc]
      rfl
  | concat ds c _ hc hM ih =>
      rw [feedAll_concat ih, feed_next_digit S hc, if_neg (not_lt.mpr hM), List.length_append,
        List.length_singleton, List.replicate_succ']
      rfl

/-- Digits that do not all pass the guard are stopped at one that follows
another digit. -/
theorem exists_first_rejected (hint : 9 ≤ S.maxInt) (hnine : 9 ≤ S.maxStringLength) {ds : Bytes}
    (hds : ∀ c ∈ ds, IsDigit c) (hg : ¬ Guarded S ds) :
    ∃ pre c post, ds = pre ++ c :: post ∧ Passes S pre ∧ IsDigit c ∧
      (S.maxStringLength : ℤ) < S.wrap (value (pre ++ [c])) := by
  obtain ⟨pre, c, post, rfl, hpre, hM⟩ := Prefixes.exists_first (guarded_nil hint hnine).self hg
  have hc : IsDigit c := hds c (by simp)
  refine ⟨pre, c, post, rfl, ⟨?_, ?_, hpre⟩, hc, not_le.mp hM⟩
  · rintro rfl
    exact hM (passes_singleton hint hnine hc).guarded.self
  · exact fun d hd => hds d (List.mem_append_left _ hd)

/-! ### What a successful call was fed -/

theorem feed_init_eq_ok {n : ℤ} {c : UInt8} {x : Token} {t : Lexer}
    (h : feed S ⟨.init, n⟩ c = .ok (x, t)) :
    (c = '('.toUInt8 ∧ x = .other .lparen ∧ t = ⟨.init, n⟩) ∨
      (c = ')'.toUInt8 ∧ x = .other .rparen ∧ t = ⟨.init, n⟩) ∨
      IsDigit c ∧ x = .other .await ∧ t = ⟨.parsingLength, intOfDigit c⟩ := by
  simp only [feed] at h
  split_ifs at h with hl hr hc
  · cases h
    exact Or.inl ⟨hl, rfl, rfl⟩
  · cases h
    exact Or.inr (Or.inl ⟨hr, rfl, rfl⟩)
  · cases h
    exact Or.inr (Or.inr ⟨hc, rfl, rfl⟩)

theorem feed_parsingLength_eq_ok {n : ℤ} {c : UInt8} {x : Token} {t : Lexer}
    (h : feed S ⟨.parsingLength, n⟩ c = .ok (x, t)) :
    (IsDigit c ∧ x = .other .await ∧ t.state = .parsingLength) ∨
      (c = ':'.toUInt8 ∧ x = .atom n ∧ t = ⟨.init, n⟩) := by
  simp only [feed] at h
  split_ifs at h with hc hM hl
  · cases h
    exact Or.inl ⟨hc, rfl, rfl⟩
  · cases h
    exact Or.inr ⟨hl, rfl, rfl⟩

theorem feed_init_ne_atom (S : Sys) (n k : ℤ) (c : UInt8) (t : Lexer) :
    feed S ⟨.init, n⟩ c ≠ .ok (.atom k, t) := by
  intro h
  rcases feed_init_eq_ok h with ⟨-, hx, -⟩ | ⟨-, hx, -⟩ | ⟨-, hx, -⟩ <;> cases hx

/-- Between tokens the lexer is in its initial state. -/
theorem feed_state {t t' : Lexer} {c : UInt8} {x : Token} (h : feed S t c = .ok (x, t')) :
    t'.state = .init ↔ x ≠ .other .await := by
  obtain ⟨state, n⟩ := t
  cases state with
  | init =>
      rcases feed_init_eq_ok h with ⟨-, rfl, rfl⟩ | ⟨-, rfl, rfl⟩ | ⟨-, rfl, rfl⟩
      · simp
      · simp
      · simp
  | parsingLength =>
      rcases feed_parsingLength_eq_ok h with ⟨-, rfl, ht⟩ | ⟨-, rfl, rfl⟩
      · simp [ht]
      · simp

/-- Behind digits a further digit is taken, or a colon ends the length. -/
theorem feed_digits_eq_ok {ds : Bytes} (hds : Passes S ds) {c : UInt8} {x : Token} {t : Lexer}
    (h : feed S ⟨.parsingLength, S.wrap (value ds)⟩ c = .ok (x, t)) :
    (x = .other .await ∧ Passes S (ds ++ [c]) ∧
        t = ⟨.parsingLength, S.wrap (value (ds ++ [c]))⟩) ∨
      (c = ':'.toUInt8 ∧ x = .atom (S.wrap (value ds)) ∧ t = ⟨.init, S.wrap (value ds)⟩) := by
  rcases feed_parsingLength_eq_ok h with ⟨hc, -, -⟩ | hcolon
  · rw [feed_next_digit S hc ds] at h
    split at h
    · cases h
    · rename_i hM
      cases h
      exact Or.inl ⟨rfl, hds.concat hc (not_lt.mp hM), rfl⟩
  · exact Or.inr hcolon

/-! ## Native platforms -/

theorem wrap_of_le (P : Platform) {v : ℕ} (h : v ≤ 10 * P.maxStringLength + 9) :
    P.wrap v = v := by
  have hmax := P.ten_mul_le_maxInt
  exact P.wrap_eq_self (Int.natCast_nonneg v) (by omega)

theorem guarded_iff (P : Platform) {ds : Bytes} (hds : ∀ c ∈ ds, IsDigit c) :
    Guarded P.toSys ds ↔ value ds ≤ P.maxStringLength := by
  constructor
  · intro hg
    induction ds using List.reverseRecOn with
    | nil => exact Nat.zero_le _
    | append_singleton ds c ih =>
        obtain ⟨hg', hle⟩ := Prefixes.always_concat.mp hg
        have hv := ih (fun d hd => hds d (List.mem_append_left [c] hd)) hg'
        have hd := Decimal.digitValue_le (hds c (by simp))
        rw [wrap_of_le P (by rw [Decimal.value_concat]; omega)] at hle
        exact Int.ofNat_le.mp hle
  · intro hv pre hpre
    obtain ⟨post, rfl⟩ := hpre
    have hle := (Decimal.value_le_append pre post).trans hv
    rw [wrap_of_le P (by omega)]
    exact Int.ofNat_le.mpr hle

/-- All digits are awaited, nothing wraps, and a colon behind them gives an
atom of exactly their value. -/
structure DecodesExactly (S : Sys) (n : ℤ) (ds : Bytes) : Prop where
  awaits (pre : Bytes) (hpre : pre <+: ds) (hne : pre ≠ []) : feedAll S ⟨.init, n⟩ pre =
    .ok (List.replicate pre.length (.other .await), ⟨.parsingLength, value pre⟩)
  mul_exact (pre : Bytes) (c : UInt8) (hpre : pre ++ [c] <+: ds) :
    S.wrap ((value pre : ℤ) * 10) = (value pre : ℤ) * 10
  add_exact (pre : Bytes) (c : UInt8) (hpre : pre ++ [c] <+: ds) :
    S.wrap ((value pre : ℤ) * 10 + intOfDigit c) = (value pre : ℤ) * 10 + intOfDigit c
  colon : feedAll S ⟨.init, n⟩ (ds ++ [':'.toUInt8]) =
    .ok (List.replicate ds.length (.other .await) ++ [.atom (value ds)], ⟨.init, value ds⟩)

/-- The digits are awaited up to the first one at which their value exceeds
the longest string length, and that one is refused. -/
def RejectsAtFirst (S : Sys) (n : ℤ) (ds : Bytes) : Prop :=
  ∃ pre c post, ds = pre ++ c :: post ∧ (∀ p, p <+: pre → value p ≤ S.maxStringLength) ∧
    S.maxStringLength < value (pre ++ [c]) ∧
    feedAll S ⟨.init, n⟩ pre =
      .ok (List.replicate pre.length (.other .await), ⟨.parsingLength, value pre⟩) ∧
    feed S ⟨.parsingLength, value pre⟩ c = .error (.parseError atomTooBig)

theorem feedAll_exact (P : Platform) {ds : Bytes} (hne : ds ≠ []) (hds : ∀ c ∈ ds, IsDigit c)
    (hM : value ds ≤ P.maxStringLength) (n : ℤ) : feedAll P.toSys ⟨.init, n⟩ ds =
      .ok (List.replicate ds.length (.other .await), ⟨.parsingLength, value ds⟩) := by
  have hmax := P.ten_mul_le_maxInt
  rw [feedAll_digits (by omega) ⟨hne, hds, (guarded_iff P hds).mpr hM⟩ n,
    wrap_of_le P (by omega)]

theorem decodesExactly (P : Platform) {ds : Bytes} (hne : ds ≠ []) (hds : ∀ c ∈ ds, IsDigit c)
    (hM : value ds ≤ P.maxStringLength) (n : ℤ) : DecodesExactly P.toSys n ds := by
  have hle {pre : Bytes} (hpre : pre <+: ds) : value pre ≤ P.maxStringLength := by
    obtain ⟨post, rfl⟩ := hpre
    exact (Decimal.value_le_append pre post).trans hM
  constructor
  · intro pre hpre hne'
    exact feedAll_exact P hne' (fun c hc => hds c (hpre.subset hc)) (hle hpre) n
  · intro pre c hpre
    have hpre' := hle ((List.prefix_append pre [c]).trans hpre)
    have hwrap := wrap_of_le P (v := value pre * 10) (by omega)
    push_cast at hwrap
    exact hwrap
  · intro pre c hpre
    have hc : IsDigit c := hds c (hpre.subset (by simp))
    have hwrap := wrap_of_le P (v := value (pre ++ [c])) (by have := hle hpre; omega)
    rw [Decimal.value_concat] at hwrap
    push_cast at hwrap
    rw [intOfDigit_eq hc]
    exact hwrap
  · rw [feedAll_concat (feedAll_exact P hne hds hM n), feed_colon]
    rfl

theorem rejectsAtFirst (P : Platform) {ds : Bytes} (hds : ∀ c ∈ ds, IsDigit c)
    (hM : P.maxStringLength < value ds) (n : ℤ) : RejectsAtFirst P.toSys n ds := by
  have hmax := P.ten_mul_le_maxInt
  have hg : ¬ Guarded P.toSys ds := fun hg => absurd ((guarded_iff P hds).mp hg) (by omega)
  obtain ⟨pre, c, post, rfl, hpre, hc, hlt⟩ :=
    exists_first_rejected (by omega) P.nine_le_maxStringLength hds hg
  have hv := (guarded_iff P hpre.digits).mp hpre.guarded
  have hfeed := feed_next_digit P.toSys hc pre
  rw [if_pos hlt, wrap_of_le P (by omega)] at hfeed
  refine ⟨pre, c, post, rfl, ?_, ?_, feedAll_exact P hpre.ne_nil hpre.digits hv n, hfeed⟩
  · rintro p ⟨q, rfl⟩
    exact (Decimal.value_le_append p q).trans hv
  · have hd := Decimal.digitValue_le hc
    rw [wrap_of_le P (by rw [Decimal.value_concat]; omega)] at hlt
    exact Int.ofNat_lt.mp hlt

/-- Lengths up to the longest string length are decoded exactly, longer ones
are refused at the first digit that makes them too long, and the length in a
lexer always stays in range. -/
theorem lengths_exact (P : Platform) :
    (∀ (n : ℤ) (ds : Bytes), ds ≠ [] → (∀ c ∈ ds, IsDigit c) →
      (value ds ≤ P.maxStringLength → DecodesExactly P.toSys n ds) ∧
      (P.maxStringLength < value ds → RejectsAtFirst P.toSys n ds)) ∧
    ∀ s xs t, feedAll P.toSys create s = .ok (xs, t) → 0 ≤ t.n ∧ t.n ≤ P.maxStringLength :=
  ⟨fun n _ hne hds => ⟨fun hM => decodesExactly P hne hds hM n,
    fun hM => rejectsAtFirst P hds hM n⟩, fun _ _ _ h => bounded_feedAll P h⟩

theorem lengths_exact_sample :
    DecodesExactly Platform.native32.toSys 5 (List.replicate 3 '7'.toUInt8) ∧
    RejectsAtFirst Platform.native32.toSys 5 (List.replicate 9 '7'.toUInt8) ∧
    let t : Lexer := ⟨.init, 7⟩
    0 ≤ t.n ∧ t.n ≤ Platform.native32.maxStringLength := by
  have hseven (k : ℕ) : ∀ c ∈ List.replicate k '7'.toUInt8, IsDigit c := by
    intro c hc
    rw [List.eq_of_mem_replicate hc]
    decide
  have hexact := (lengths_exact Platform.native32).1 5 _ (List.cons_ne_nil _ _) (hseven 3)
  have hlarge := (lengths_exact Platform.native32).1 5 _ (List.cons_ne_nil _ _) (hseven 9)
  exact ⟨hexact.1 (by decide), hlarge.2 (by decide),
    (lengths_exact Platform.native32).2 ['7'.toUInt8, ':'.toUInt8, '('.toUInt8]
      [.other .await, .atom 7, .other .lparen] _ rfl⟩

end Lexer

end Csexp
