import Csexp.Acceptance

/-!
# The string parsers on concatenations and on each other

A string that `parse_string_many` accepts is invisible to the parse of
what follows it, apart from the offsets and the expressions in front. The
parser of one expression is the parser of many, cut off at the first
complete expression.
-/

namespace Csexp

open Incremental

/-- A result of `parse_string_many` behind `n` bytes that hold `xs`. -/
def followedBy (n : ℕ) (xs : List Sexp) :
    Result (List Sexp) (ℕ × String) → Result (List Sexp) (ℕ × String)
  | .ok ys => .ok (xs ++ ys)
  | .error (p, msg) => .error (n + p, msg)

theorem reportMany_onto (n len : ℕ) (xs : List Sexp) (v : Verdict Config String) :
    reportMany (n + len) ((v.map (Config.onto xs)).shift n) =
      followedBy n xs (reportMany len v) := by
  cases v with
  | stopped p q =>
      simp only [Verdict.map_stopped, Verdict.shift_stopped, reportMany, Config.finish_onto]
      cases q.finish <;> rfl
  | failed p msg => rfl
  | pending q =>
      simp only [Verdict.map_pending, Verdict.shift_pending, reportMany, Config.finish_onto]
      cases q.finish <;> rfl

/-- The run on `t` from a fresh lexer and an empty stack, and the run that
goes on with `t` behind accepted bytes, stay in lockstep. -/
theorem parseStringMany_onto (P : Platform) {n : ℕ} (xs : List Sexp) {s t : Bytes}
    (h : (manyReader P.maxStringLength).scan .start s =
      ((manyReader P.maxStringLength).scan (Config.start.onto xs) t).shift n)
    (hlen : s.length = n + t.length) :
    parseStringMany P.toSys s = (parseStringMany P.toSys t).map (followedBy n xs) := by
  rw [parseStringMany_eq, parseStringMany_eq, h, hlen, scan_many_onto, reportMany_onto]
  rfl

/-- `parse_string_many` is compositional, error positions included. -/
theorem parseStringMany_append (P : Platform) {s : Bytes} {xs : List Sexp}
    (h : parseStringMany P.toSys s = .ok (.ok xs)) (t : Bytes) :
    (∀ ys, parseStringMany P.toSys t = .ok (.ok ys) →
      parseStringMany P.toSys (s ++ t) = .ok (.ok (xs ++ ys))) ∧
    ∀ p msg, parseStringMany P.toSys t = .ok (.error (p, msg)) →
      parseStringMany P.toSys (s ++ t) = .ok (.error (s.length + p, msg)) := by
  have hs := (scan_many_iff P.nine_le_maxStringLength).mpr (parseStringMany_eq_ok_iff.mp h)
  have hr := (Scanner.reaches_of_pending _ hs).1
  have happ := parseStringMany_onto P xs (hr.scan_append t) List.length_append
  constructor
  · intro ys ht
    rw [happ, ht]
    rfl
  · intro p msg ht
    rw [happ, ht]
    rfl

theorem parseStringMany_append_sample :
    parseStringMany Platform.native64.toSys (['('.toUInt8, ')'.toUInt8] ++ [')'.toUInt8]) =
      .ok (.error (2 + 0, Stack.unmatchedParen)) := by
  have hs : parseStringMany Platform.native64.toSys ['('.toUInt8, ')'.toUInt8] =
      .ok (.ok [.list []]) :=
    parseStringMany_eq_ok_iff.mpr (derivesMany_singleton.mpr (.list .nil))
  have ht : parseStringMany Platform.native64.toSys [')'.toUInt8] =
      .ok (.error (0, Stack.unmatchedParen)) := parseStringMany_of_failed rfl
  exact (parseStringMany_append Platform.native64 hs [')'.toUInt8]).2 0 _ ht

/-! ## One expression and many -/

theorem parseString_eq_ok_iff_many {P : Platform} {s : Bytes} {x : Sexp} :
    parseString P.toSys s = .ok (.ok x) ↔ parseStringMany P.toSys s = .ok (.ok [x]) := by
  rw [parseString_eq_ok_iff, parseStringMany_eq_ok_iff, derivesMany_singleton]

/-- Where the parser of one expression finds more data, it has consumed
one, and the parser of many goes on with the rest. -/
theorem parseString_dataAfter {P : Platform} {s : Bytes} {p : ℕ}
    (h : parseString P.toSys s = .ok (.error (p, dataAfter))) :
    0 < p ∧ p < s.length ∧ ∃ x, parseString P.toSys (s.take p) = .ok (.ok x) ∧
      (oneReader P.maxStringLength).scan .start s = .stopped p ⟨.init, .sexp x .empty⟩ ∧
      parseStringMany P.toSys s =
        (parseStringMany P.toSys (s.drop p)).map (followedBy p [x]) := by
  rcases parseString_cases P s with ⟨x, -, hx⟩ | ⟨p', x, hlt, hscan, he⟩ |
    ⟨p', msg, -, -, he, hne, -⟩ | ⟨q, -, he⟩
  · simp [hx] at h
  · obtain rfl : p' = p := by simpa [he] using h
    have hd := derives_of_stopped P.nine_le_maxStringLength hscan
    have hpos : 0 < p' := by
      rcases Nat.eq_zero_or_pos p' with rfl | hpos
      · exact absurd (List.take_zero) hd.ne_nil
      · exact hpos
    refine ⟨hpos, hlt, x, parseString_eq_ok_iff.mpr hd, hscan, ?_⟩
    exact parseStringMany_onto P [x] (Scanner.endless_of_stopped _ hscan) (by simp; omega)
  · obtain ⟨-, rfl⟩ : p' = p ∧ msg = dataAfter := by simpa [he] using h
    exact absurd rfl hne
  · obtain ⟨-, hmsg⟩ : s.length = p ∧ prematureEndOfInput = dataAfter := by simpa [he] using h
    exact absurd hmsg (by decide)

/-- Any other error is an error of the parser of many, at the same offset
and with the same message, but for the empty string. -/
theorem parseStringMany_of_error {P : Platform} {s : Bytes} {p : ℕ} {msg : String}
    (h : parseString P.toSys s = .ok (.error (p, msg))) (hmsg : msg ≠ dataAfter)
    (hs : s ≠ []) : parseStringMany P.toSys s = .ok (.error (p, msg)) := by
  rcases parseString_cases P s with ⟨x, -, hx⟩ | ⟨p', x, -, -, he⟩ |
    ⟨p', msg', -, hscan, he, -, -⟩ | ⟨q, hscan, he⟩
  · simp [hx] at h
  · obtain ⟨-, rfl⟩ : p' = p ∧ dataAfter = msg := by simpa [he] using h
    exact absurd rfl hmsg
  · obtain ⟨rfl, rfl⟩ : p' = p ∧ msg' = msg := by simpa [he] using h
    exact parseStringMany_of_failed (Scanner.endless_of_failed _ hscan)
  · obtain ⟨rfl, rfl⟩ : s.length = p ∧ prematureEndOfInput = msg := by simpa [he] using h
    apply parseStringMany_of_unfinished (Scanner.endless_of_pending _ hscan)
    obtain ⟨hr, hlive⟩ := Scanner.reaches_of_pending _ hscan
    have hu := (unfinished_of_reaches (Or.inl rfl) hr).resolve_left (by simp [hlive])
    cases hq : q.finish with
    | none => rfl
    | some xs =>
        rw [Config.finish_eq_some] at hq
        subst hq
        rcases hu with hu | hu
        · -- Nothing is open and nothing was completed: nothing was read.
          have hspell := spells_of_reaches (isReader_one _) P.nine_le_maxStringLength hr
          have hxs : xs = [] := by
            have hh := congrArg Stack.toList hu
            rw [Stack.toList_pushAll_empty] at hh
            exact Except.ok.inj hh
          rw [hxs] at hspell
          have hderives : DerivesMany P.maxStringLength s [] := derivesMany_of_spells hspell
          exact absurd (derivesMany_nil hderives) hs
        · rw [Stack.openBottom_pushAll] at hu
          exact hu.elim

/-- The two string parsers tell the same story about every byte string. -/
theorem parseString_vs_many (P : Platform) (s : Bytes) :
    (∀ x, parseString P.toSys s = .ok (.ok x) ↔ parseStringMany P.toSys s = .ok (.ok [x])) ∧
    (∀ p, parseString P.toSys s = .ok (.error (p, dataAfter)) →
      0 < p ∧ p < s.length ∧ ∃ x, parseString P.toSys (s.take p) = .ok (.ok x) ∧
        parseStringMany P.toSys s =
          (parseStringMany P.toSys (s.drop p)).map (followedBy p [x])) ∧
    ∀ p msg, parseString P.toSys s = .ok (.error (p, msg)) → msg ≠ dataAfter →
      (s ≠ [] → parseStringMany P.toSys s = .ok (.error (p, msg))) ∧
      (s = [] → parseStringMany P.toSys s = .ok (.ok [])) := by
  refine ⟨fun x => parseString_eq_ok_iff_many, ?_, ?_⟩
  · intro p h
    obtain ⟨hpos, hlt, x, hx, -, hmany⟩ := parseString_dataAfter h
    exact ⟨hpos, hlt, x, hx, hmany⟩
  · intro p msg h hmsg
    refine ⟨parseStringMany_of_error h hmsg, ?_⟩
    rintro rfl
    exact parseStringMany_eq_ok_iff.mpr .nil

end Csexp
