import Csexp.Grammar
import Csexp.StringParser

/-!
# What the string parsers accept

The results of the string parsers in terms of the verdicts of the
readers, and the language both accept: exactly the grammar, with exactly
its meaning.
-/

namespace Csexp

open Incremental

/-! ## Verdicts behind the results -/

/-- A step fails with a message of the lexer or of the stack. -/
theorem step_error {M : ℕ} {q : Config} {c : UInt8} {msg : String}
    (h : step M q c = .error msg) : msg ≠ dataAfter ∧ msg ≠ prematureEndOfInput := by
  obtain ⟨phase, stack⟩ := q
  cases phase with
  | init =>
      simp only [step] at h
      split_ifs at h
      · cases hs : stack.closeParen with
        | ok t => simp [hs] at h
        | error e =>
            simp only [hs, Except.error.injEq] at h
            subst h
            decide
      · cases h
        exact ⟨Lexer.invalidCharacter_ne c (by decide), Lexer.invalidCharacter_ne c (by decide)⟩
  | length n =>
      simp only [step] at h
      split_ifs at h
      · cases h
        decide
      · cases h
        exact ⟨Lexer.invalidLengthCharacter_ne c (by decide),
          Lexer.invalidLengthCharacter_ne c (by decide)⟩
  | atom m got => cases m <;> cases h

theorem scan_error {M : ℕ} {D : Scanner Config UInt8 String} (hD : IsReader M D) {q : Config}
    {s : Bytes} {p : ℕ} {msg : String} (h : D.scan q s = .failed p msg) :
    msg ≠ dataAfter ∧ msg ≠ prematureEndOfInput := by
  obtain ⟨c, q', -, -, -, hc⟩ := D.reaches_of_failed h
  rw [hD.step_eq] at hc
  exact step_error hc

theorem scan_many_cases (M : ℕ) (q : Config) (s : Bytes) :
    (∃ p msg, (manyReader M).scan q s = .failed p msg) ∨
      ∃ q', (manyReader M).scan q s = .pending q' := by
  cases h : (manyReader M).scan q s with
  | stopped p q' => simpa using ((manyReader M).reaches_of_stopped h).2.2
  | failed p msg => exact Or.inl ⟨p, msg, rfl⟩
  | pending q' => exact Or.inr ⟨q', rfl⟩

section Results

variable {P : Platform} {s : Bytes} {p : ℕ} {msg : String}

theorem parseString_of_stopped {x : Sexp} (h : (oneReader P.maxStringLength).scan .start s =
    .stopped p ⟨.init, .sexp x .empty⟩) :
    parseString P.toSys s = .ok (if p = s.length then .ok x else .error (p, dataAfter)) := by
  rw [parseString_eq, h]
  rfl

theorem parseString_of_failed
    (h : (oneReader P.maxStringLength).scan .start s = .failed p msg) :
    parseString P.toSys s = .ok (.error (p, msg)) := by
  rw [parseString_eq, h]
  rfl

theorem parseString_of_pending {q : Config}
    (h : (oneReader P.maxStringLength).scan .start s = .pending q) :
    parseString P.toSys s = .ok (.error (s.length, prematureEndOfInput)) := by
  rw [parseString_eq, h]
  rfl

theorem parseStringMany_of_failed
    (h : (manyReader P.maxStringLength).scan .start s = .failed p msg) :
    parseStringMany P.toSys s = .ok (.error (p, msg)) := by
  rw [parseStringMany_eq, h]
  rfl

theorem parseStringMany_of_finished {q : Config} {xs : List Sexp}
    (h : (manyReader P.maxStringLength).scan .start s = .pending q) (hq : q.finish = some xs) :
    parseStringMany P.toSys s = .ok (.ok xs) := by
  rw [parseStringMany_eq, h]
  simp only [reportMany, hq]

theorem parseStringMany_of_unfinished {q : Config}
    (h : (manyReader P.maxStringLength).scan .start s = .pending q) (hq : q.finish = none) :
    parseStringMany P.toSys s = .ok (.error (s.length, prematureEndOfInput)) := by
  rw [parseStringMany_eq, h]
  simp only [reportMany, hq]

/-- The four ways in which `parse_string` ends. -/
theorem parseString_cases (P : Platform) (s : Bytes) :
    (∃ x, (oneReader P.maxStringLength).scan .start s =
        .stopped s.length ⟨.init, .sexp x .empty⟩ ∧ parseString P.toSys s = .ok (.ok x)) ∨
      (∃ p x, p < s.length ∧ (oneReader P.maxStringLength).scan .start s =
        .stopped p ⟨.init, .sexp x .empty⟩ ∧
        parseString P.toSys s = .ok (.error (p, dataAfter))) ∨
      (∃ p msg, p < s.length ∧ (oneReader P.maxStringLength).scan .start s = .failed p msg ∧
        parseString P.toSys s = .ok (.error (p, msg)) ∧ msg ≠ dataAfter ∧
        msg ≠ prematureEndOfInput) ∨
      ∃ q, (oneReader P.maxStringLength).scan .start s = .pending q ∧
        parseString P.toSys s = .ok (.error (s.length, prematureEndOfInput)) := by
  cases h : (oneReader P.maxStringLength).scan .start s with
  | stopped p q =>
      obtain ⟨hp, -, hs⟩ := Scanner.reaches_of_stopped _ h
      obtain ⟨x, rfl⟩ := oneReader_stopped_iff.mp hs
      have hres := parseString_of_stopped h
      rcases eq_or_lt_of_le hp with rfl | hlt
      · exact Or.inl ⟨x, rfl, by simpa using hres⟩
      · exact Or.inr (Or.inl ⟨p, x, hlt, rfl, by simpa [hlt.ne] using hres⟩)
  | failed p msg =>
      exact Or.inr (Or.inr (Or.inl ⟨p, msg, Scanner.lt_length_of_failed _ h, rfl,
        parseString_of_failed h, scan_error (isReader_one _) h⟩))
  | pending q => exact Or.inr (Or.inr (Or.inr ⟨q, rfl, parseString_of_pending h⟩))

/-- The three ways in which `parse_string_many` ends. -/
theorem parseStringMany_cases (P : Platform) (s : Bytes) :
    (∃ xs, (manyReader P.maxStringLength).scan .start s =
        .pending ⟨.init, .pushAll xs .empty⟩ ∧ parseStringMany P.toSys s = .ok (.ok xs)) ∨
      (∃ p msg, p < s.length ∧ (manyReader P.maxStringLength).scan .start s = .failed p msg ∧
        parseStringMany P.toSys s = .ok (.error (p, msg)) ∧ msg ≠ prematureEndOfInput) ∨
      ∃ q, (manyReader P.maxStringLength).scan .start s = .pending q ∧ q.finish = none ∧
        parseStringMany P.toSys s = .ok (.error (s.length, prematureEndOfInput)) := by
  rcases scan_many_cases P.maxStringLength .start s with ⟨p, msg, h⟩ | ⟨q, h⟩
  · exact Or.inr (Or.inl ⟨p, msg, Scanner.lt_length_of_failed _ h, h,
      parseStringMany_of_failed h, (scan_error (isReader_many _) h).2⟩)
  · cases hq : q.finish with
    | none => exact Or.inr (Or.inr ⟨q, h, hq, parseStringMany_of_unfinished h hq⟩)
    | some xs =>
        have hres := parseStringMany_of_finished h hq
        rw [Config.finish_eq_some.mp hq] at h
        exact Or.inl ⟨xs, h, hres⟩

end Results

/-! ## The accepted languages -/

theorem parseStringMany_eq_ok_iff {P : Platform} {s : Bytes} {xs : List Sexp} :
    parseStringMany P.toSys s = .ok (.ok xs) ↔ DerivesMany P.maxStringLength s xs := by
  rw [← scan_many_iff P.nine_le_maxStringLength]
  constructor
  · intro hres
    rcases parseStringMany_cases P s with ⟨ys, h, hys⟩ | ⟨p, msg, -, -, he, -⟩ | ⟨q, -, -, he⟩
    · have heq : ys = xs := by simpa [hys] using hres
      rwa [heq] at h
    · simp [he] at hres
    · simp [he] at hres
  · intro h
    exact parseStringMany_of_finished h (Config.finish_eq_some.mpr rfl)

/-- A reader that stops has consumed a derivation of its expression. -/
theorem derives_of_stopped {M : ℕ} (hnine : 9 ≤ M) {s : Bytes} {p : ℕ} {x : Sexp}
    (h : (oneReader M).scan .start s = .stopped p ⟨.init, .sexp x .empty⟩) :
    Derives M (s.take p) x := by
  have hr := (Scanner.reaches_of_stopped _ h).2.1
  have hspell : Spells M (s.take p) ⟨.init, .pushAll [x] .empty⟩ :=
    spells_of_reaches (isReader_one M) hnine hr
  exact derivesMany_singleton.mp (derivesMany_of_spells hspell)

/-- A derivation stops the reader of one expression at its very end, also
when further bytes follow: it cannot stop earlier, since what it had
consumed by then would be followed by a derivation of nothing. -/
theorem scan_one_of_derives {M : ℕ} (hnine : 9 ≤ M) {s : Bytes} {x : Sexp}
    (h : Derives M s x) (t : Bytes) :
    (oneReader M).scan .start (s ++ t) = .stopped s.length ⟨.init, .sexp x .empty⟩ := by
  have hmany : (manyReader M).scan .start s = .pending ⟨.init, .sexp x .empty⟩ :=
    (h.reaches .empty).scan_pending rfl
  cases hone : (oneReader M).scan .start s with
  | failed p e =>
      have hf := Scanner.endless_of_failed _ hone
      rw [← manyReader, hmany] at hf
      cases hf
  | pending q =>
      have hp := Scanner.endless_of_pending _ hone
      rw [← manyReader, hmany, Verdict.pending.injEq] at hp
      have hs := (Scanner.reaches_of_pending _ hone).2
      rw [← hp] at hs
      cases hs
  | stopped p q =>
      obtain ⟨hp, ht, hs⟩ := Scanner.reaches_of_stopped _ hone
      obtain ⟨y, rfl⟩ := oneReader_stopped_iff.mp hs
      have hrest := Scanner.endless_of_stopped _ hone
      have honto : Config.mk .init (.sexp y .empty) = Config.start.onto [y] := rfl
      rw [← manyReader, hmany, honto, scan_many_onto] at hrest
      rcases scan_many_cases M .start (s.drop p) with ⟨p', e, hf⟩ | ⟨r, hr⟩
      · rw [hf] at hrest
        cases hrest
      · rw [hr, Verdict.map_pending, Verdict.shift_pending, Verdict.pending.injEq] at hrest
        have hfinish := congrArg Config.finish hrest
        rw [Config.finish_onto] at hfinish
        obtain ⟨zs, hzs, hsplit⟩ := Option.map_eq_some_iff.mp hfinish.symm
        obtain ⟨rfl, rfl⟩ : y = x ∧ zs = [] := by simpa using hsplit
        rw [Config.finish_eq_some.mp hzs] at hr
        have hnil := derivesMany_nil ((scan_many_iff hnine).mp hr)
        have hlen : p = s.length := le_antisymm hp (List.drop_eq_nil_iff.mp hnil)
        rw [hlen, List.take_length] at ht
        exact ht.scan_stopped hs t

theorem parseString_eq_ok_iff {P : Platform} {s : Bytes} {x : Sexp} :
    parseString P.toSys s = .ok (.ok x) ↔ Derives P.maxStringLength s x := by
  constructor
  · intro hres
    rcases parseString_cases P s with ⟨y, h, hy⟩ | ⟨p, y, -, -, he⟩ | ⟨p, msg, -, -, he, -⟩ |
      ⟨q, -, he⟩
    · have heq : y = x := by simpa [hy] using hres
      have hd := derives_of_stopped P.nine_le_maxStringLength h
      rwa [List.take_length, heq] at hd
    · simp [he] at hres
    · simp [he] at hres
    · simp [he] at hres
  · intro h
    have hscan := scan_one_of_derives P.nine_le_maxStringLength h []
    rw [List.append_nil] at hscan
    simpa using parseString_of_stopped hscan

/-- The encodings of the grammar are self-delimiting: what a derivation
consumes of a string, and what it derives, does not depend on the rest. -/
theorem Derives.prefix_unique {M : ℕ} (hnine : 9 ≤ M) {s s' t t' : Bytes} {x y : Sexp}
    (h : Derives M s x) (h' : Derives M s' y) (heq : s ++ t = s' ++ t') : s = s' ∧ x = y := by
  have hx := scan_one_of_derives hnine h t
  have hy := scan_one_of_derives hnine h' t'
  rw [heq, hy] at hx
  simp only [Verdict.stopped.injEq, Config.mk.injEq, Stack.sexp.injEq] at hx
  obtain ⟨hlen, -, hxy, -⟩ := hx
  exact ⟨List.append_inj_left heq hlen.symm, hxy.symm⟩

/-- The string parsers accept exactly the grammar, with exactly its
meaning: an accepted string has one reading, and every other string gives
an error. -/
theorem accepts_iff_derives (P : Platform) (s : Bytes) :
    (∀ x, parseString P.toSys s = .ok (.ok x) ↔ Derives P.maxStringLength s x) ∧
    (∀ xs, parseStringMany P.toSys s = .ok (.ok xs) ↔ DerivesMany P.maxStringLength s xs) ∧
    (∀ x y, Derives P.maxStringLength s x → Derives P.maxStringLength s y → x = y) ∧
    (∀ xs ys, DerivesMany P.maxStringLength s xs → DerivesMany P.maxStringLength s ys →
      xs = ys) ∧
    (∀ s₁ t₁ s₂ t₂ x y, s = s₁ ++ t₁ → s = s₂ ++ t₂ → Derives P.maxStringLength s₁ x →
      Derives P.maxStringLength s₂ y → s₁ = s₂ ∧ x = y) ∧
    ((¬ ∃ x, Derives P.maxStringLength s x) →
      ∃ p msg, parseString P.toSys s = .ok (.error (p, msg))) ∧
    ((¬ ∃ xs, DerivesMany P.maxStringLength s xs) →
      ∃ p msg, parseStringMany P.toSys s = .ok (.error (p, msg))) := by
  refine ⟨fun x => parseString_eq_ok_iff, fun xs => parseStringMany_eq_ok_iff, ?_, ?_, ?_, ?_, ?_⟩
  · intro x y hx hy
    have heq : s ++ [] = s ++ [] := rfl
    exact (hx.prefix_unique P.nine_le_maxStringLength hy heq).2
  · intro xs ys hxs hys
    have heq := (parseStringMany_eq_ok_iff.mpr hxs).symm.trans (parseStringMany_eq_ok_iff.mpr hys)
    simpa using heq
  · intro s₁ t₁ s₂ t₂ x y h₁ h₂ hx hy
    exact hx.prefix_unique P.nine_le_maxStringLength hy (h₁.symm.trans h₂)
  · intro hno
    rcases parseString_cases P s with ⟨x, -, hx⟩ | ⟨p, x, -, -, he⟩ | ⟨p, msg, -, -, he, -⟩ |
      ⟨q, -, he⟩
    · exact absurd ⟨x, parseString_eq_ok_iff.mp hx⟩ hno
    · exact ⟨_, _, he⟩
    · exact ⟨_, _, he⟩
    · exact ⟨_, _, he⟩
  · intro hno
    rcases parseStringMany_cases P s with ⟨xs, -, hxs⟩ | ⟨p, msg, -, -, he, -⟩ | ⟨q, -, -, he⟩
    · exact absurd ⟨xs, parseStringMany_eq_ok_iff.mp hxs⟩ hno
    · exact ⟨_, _, he⟩
    · exact ⟨_, _, he⟩

end Csexp
