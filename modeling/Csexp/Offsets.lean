import Csexp.Composition
import Csexp.Library.Viability

/-!
# The offsets of errors

From every state of a reader some bytes lead to acceptance: the token
being read is finished first, then the open parentheses are closed. Hence
an error is reported at the end of the longest prefix that can still be
extended to an accepted string.
-/

namespace Csexp

open Incremental

variable {M : ℕ}

/-! ## Completing a parse -/

/-- Some bytes finish the token that is being read. -/
theorem IsReader.exists_reaches_init {D : Scanner Config UInt8 String} (hD : IsReader M D)
    (q : Config) : ∃ t stack, D.Reaches q t ⟨.init, stack⟩ := by
  obtain ⟨phase, stack⟩ := q
  cases phase with
  | init => exact ⟨[], stack, .nil _⟩
  | length n =>
      have hatom := hD.reaches_beginAtom (List.replicate n 0) stack
      rw [List.length_replicate] at hatom
      have hc : ¬ Decimal.IsDigit ':'.toUInt8 := by decide
      refine ⟨':'.toUInt8 :: List.replicate n 0, _, .cons (hD.not_stopped (by simp)) ?_ hatom⟩
      rw [hD.step_eq, step]
      simp only [if_neg hc, if_true]
  | atom m got =>
      exact ⟨List.replicate (m + 1) 0, _, hD.reaches_atom List.length_replicate got stack⟩

theorem exists_reaches_closed (stack : Stack) (ys : List Sexp) :
    ∃ t xs, (manyReader M).Reaches ⟨.init, .pushAll ys stack⟩ t ⟨.init, .pushAll xs .empty⟩ := by
  induction stack generalizing ys with
  | empty => exact ⟨[], ys, .nil _⟩
  | sexp x stack ih => exact ih (x :: ys)
  | opened stack ih =>
      obtain ⟨t, xs, h⟩ := ih [.list ys]
      exact ⟨_, xs, ((isReader_many M).reaches_rparen ys rfl).append h⟩

/-- Closing the parentheses of a stack that is open at its bottom
completes a single expression, and nothing earlier does. -/
theorem exists_reaches_complete {stack : Stack} (h : stack.OpenBottom) (ys : List Sexp) :
    ∃ t x, (oneReader M).Reaches ⟨.init, .pushAll ys stack⟩ t ⟨.init, .sexp x .empty⟩ := by
  induction stack generalizing ys with
  | empty => exact h.elim
  | sexp x stack ih => exact ih h (x :: ys)
  | opened stack ih =>
      have hlive : (oneReader M).stopped ⟨.init, .pushAll ys (.opened stack)⟩ = false :=
        not_stopped_of_unfinished (Or.inr (by simpa using h))
      have hclose := (isReader_one M).reaches_rparen ys hlive
      rcases h with rfl | h
      · exact ⟨_, _, hclose⟩
      · obtain ⟨t, x, hr⟩ := ih h [.list ys]
        exact ⟨_, x, hclose.append hr⟩

theorem exists_many_finish (q : Config) :
    ∃ t xs, (manyReader M).Reaches q t ⟨.init, .pushAll xs .empty⟩ := by
  obtain ⟨t, stack, ht⟩ := (isReader_many M).exists_reaches_init q
  obtain ⟨t', xs, ht'⟩ := exists_reaches_closed (M := M) stack []
  exact ⟨_, xs, ht.append ht'⟩

theorem exists_one_finish {q : Config} (h : q.stack.Unfinished) :
    ∃ t x, (oneReader M).Reaches q t ⟨.init, .sexp x .empty⟩ := by
  obtain ⟨t, stack, ht⟩ := (isReader_one M).exists_reaches_init q
  rcases unfinished_of_reaches h ht with hs | hu | hu
  · obtain ⟨x, hx⟩ := oneReader_stopped_iff.mp hs
    exact ⟨t, x, hx ▸ ht⟩
  · -- Nothing is open: an empty list will do.
    simp only at hu
    subst hu
    have hopen : (oneReader M).Reaches ⟨.init, .empty⟩ ['('.toUInt8] ⟨.init, .opened .empty⟩ :=
      (isReader_one M).reaches_lparen rfl
    have hclose : (oneReader M).Reaches ⟨.init, .opened .empty⟩ [')'.toUInt8]
        ⟨.init, .sexp (.list []) .empty⟩ := (isReader_one M).reaches_rparen [] rfl
    exact ⟨_, _, ht.append (hopen.append hclose)⟩
  · obtain ⟨t', x, ht'⟩ := exists_reaches_complete (M := M) hu []
    exact ⟨_, x, ht.append ht'⟩

/-! ## Errors and viable prefixes -/

def acceptedOne (P : Platform) : Set Bytes := {s | ∃ x, parseString P.toSys s = .ok (.ok x)}

def acceptedMany (P : Platform) : Set Bytes := {s | ∃ xs, parseStringMany P.toSys s = .ok (.ok xs)}

/-- What the error `(p, msg)` on `s` says when `L` is what the parser
accepts: `p` is the length of the longest viable prefix, and the message
announces a premature end exactly when more data could help. -/
structure ExactError (L : Set Bytes) (s : Bytes) (p : ℕ) (msg : String) : Prop where
  viable : Viable L (s.take p)
  not_viable : p < s.length → ¬ Viable L (s.take (p + 1))
  longest : LongestViable L s p
  premature_iff : msg = prematureEndOfInput ↔ p = s.length
  more_data_iff : p = s.length ↔ s ∉ L ∧ ∃ t, t ≠ [] ∧ s ++ t ∈ L

theorem exactError_of_take {L : Set Bytes} {s : Bytes} {p : ℕ} {msg : String} (hs : s ∉ L)
    (hp : p ≤ s.length) (hv : Viable L (s.take p))
    (hn : p < s.length → ¬ Viable L (s.take (p + 1)))
    (hmsg : msg = prematureEndOfInput ↔ p = s.length) : ExactError L s p msg where
  viable := hv
  not_viable := hn
  longest := longestViable_of_take hp hv hn
  premature_iff := hmsg
  more_data_iff := by
    rw [(longestViable_of_take hp hv hn).eq_length_iff hs]
    exact (and_iff_right hs).symm

section One

variable {P : Platform} {s : Bytes}

theorem viable_one_of_reaches {q : Config}
    (h : (oneReader P.maxStringLength).Reaches .start s q) (hu : q.stack.Unfinished) :
    Viable (acceptedOne P) s := by
  obtain ⟨t, x, ht⟩ := exists_one_finish (M := P.maxStringLength) hu
  have hscan := (h.append ht).scan_stopped rfl []
  rw [List.append_nil] at hscan
  exact ⟨t, x, by simpa using parseString_of_stopped hscan⟩

theorem not_viable_one_of_failed {p : ℕ} {msg : String}
    (h : (oneReader P.maxStringLength).scan .start s = .failed p msg) :
    ¬ Viable (acceptedOne P) (s.take (p + 1)) := by
  rintro ⟨t, x, hx⟩
  rw [parseString_of_failed (Scanner.scan_take_of_failed _ h t)] at hx
  cases hx

theorem not_viable_one_of_stopped {p : ℕ} {x : Sexp} (hp : p < s.length)
    (h : (oneReader P.maxStringLength).scan .start s = .stopped p ⟨.init, .sexp x .empty⟩) :
    ¬ Viable (acceptedOne P) (s.take (p + 1)) := by
  rintro ⟨t, y, hy⟩
  have hsplit : s.take (p + 1) ++ t = s.take p ++ (s[p] :: t) := by
    rw [List.take_succ_eq_append_getElem hp, List.append_assoc, List.singleton_append]
  have hlen : p ≠ (s.take p ++ (s[p] :: t)).length := by
    rw [List.length_append, List.length_take_of_le hp.le, List.length_cons]
    omega
  rw [hsplit, parseString_of_stopped (Scanner.scan_take_of_stopped _ h _), if_neg hlen] at hy
  cases hy

theorem exactError_one {p : ℕ} {msg : String}
    (h : parseString P.toSys s = .ok (.error (p, msg))) :
    ExactError (acceptedOne P) s p msg := by
  have hs : s ∉ acceptedOne P := by
    rintro ⟨x, hx⟩
    rw [h] at hx
    cases hx
  rcases parseString_cases P s with ⟨x, -, hx⟩ | ⟨p', x, hlt, hscan, he⟩ |
    ⟨p', msg', hlt, hscan, he, -, hne⟩ | ⟨q, hscan, he⟩
  · simp [hx] at h
  · obtain ⟨rfl, rfl⟩ : p' = p ∧ dataAfter = msg := by simpa [he] using h
    have htake := Scanner.scan_take_of_stopped _ hscan []
    rw [List.append_nil] at htake
    have hv : s.take p' ∈ acceptedOne P :=
      ⟨x, by simpa [hlt.le] using parseString_of_stopped htake⟩
    exact exactError_of_take hs hlt.le (viable_of_mem hv)
      (fun _ => not_viable_one_of_stopped hlt hscan)
      ⟨fun hmsg => absurd hmsg (by decide), fun hp => absurd hp hlt.ne⟩
  · obtain ⟨rfl, rfl⟩ : p' = p ∧ msg' = msg := by simpa [he] using h
    obtain ⟨c, q, -, ht, hlive, -⟩ := Scanner.reaches_of_failed _ hscan
    have hu := (unfinished_of_reaches (Or.inl rfl) ht).resolve_left (by simp [hlive])
    exact exactError_of_take hs hlt.le (viable_one_of_reaches ht hu)
      (fun _ => not_viable_one_of_failed hscan)
      ⟨fun hmsg => absurd hmsg hne, fun hp => absurd hp hlt.ne⟩
  · obtain ⟨rfl, rfl⟩ : s.length = p ∧ prematureEndOfInput = msg := by simpa [he] using h
    obtain ⟨hr, hlive⟩ := Scanner.reaches_of_pending _ hscan
    have hu := (unfinished_of_reaches (Or.inl rfl) hr).resolve_left (by simp [hlive])
    have hv := viable_one_of_reaches hr hu
    exact exactError_of_take hs le_rfl (by rwa [List.take_length])
      (fun hlt => absurd hlt (lt_irrefl _)) (iff_of_true rfl rfl)

end One

section Many

variable {P : Platform} {s : Bytes}

theorem viable_many_of_reaches {q : Config}
    (h : (manyReader P.maxStringLength).Reaches .start s q) : Viable (acceptedMany P) s := by
  obtain ⟨t, xs, ht⟩ := exists_many_finish (M := P.maxStringLength) q
  have hscan := (h.append ht).scan_pending rfl
  exact ⟨t, xs, parseStringMany_of_finished hscan (Config.finish_eq_some.mpr rfl)⟩

theorem not_viable_many_of_failed {p : ℕ} {msg : String}
    (h : (manyReader P.maxStringLength).scan .start s = .failed p msg) :
    ¬ Viable (acceptedMany P) (s.take (p + 1)) := by
  rintro ⟨t, xs, hxs⟩
  rw [parseStringMany_of_failed (Scanner.scan_take_of_failed _ h t)] at hxs
  cases hxs

theorem exactError_many {p : ℕ} {msg : String}
    (h : parseStringMany P.toSys s = .ok (.error (p, msg))) :
    ExactError (acceptedMany P) s p msg := by
  have hs : s ∉ acceptedMany P := by
    rintro ⟨xs, hxs⟩
    rw [h] at hxs
    cases hxs
  rcases parseStringMany_cases P s with ⟨xs, -, hxs⟩ | ⟨p', msg', hlt, hscan, he, hne⟩ |
    ⟨q, hscan, -, he⟩
  · simp [hxs] at h
  · obtain ⟨rfl, rfl⟩ : p' = p ∧ msg' = msg := by simpa [he] using h
    obtain ⟨c, q, -, ht, -, -⟩ := Scanner.reaches_of_failed _ hscan
    exact exactError_of_take hs hlt.le (viable_many_of_reaches ht)
      (fun _ => not_viable_many_of_failed hscan)
      ⟨fun hmsg => absurd hmsg hne, fun hp => absurd hp hlt.ne⟩
  · obtain ⟨rfl, rfl⟩ : s.length = p ∧ prematureEndOfInput = msg := by simpa [he] using h
    have hv := viable_many_of_reaches (Scanner.reaches_of_pending _ hscan).1
    exact exactError_of_take hs le_rfl (by rwa [List.take_length])
      (fun hlt => absurd hlt (lt_irrefl _)) (iff_of_true rfl rfl)

end Many

/-- Error offsets are exact for both string parsers, and
`premature_end_of_input` means precisely that more data could help. -/
theorem error_offsets_exact (P : Platform) (s : Bytes) (p : ℕ) (msg : String) :
    (parseString P.toSys s = .ok (.error (p, msg)) → ExactError (acceptedOne P) s p msg) ∧
    (parseStringMany P.toSys s = .ok (.error (p, msg)) → ExactError (acceptedMany P) s p msg) :=
  ⟨exactError_one, exactError_many⟩

end Csexp
