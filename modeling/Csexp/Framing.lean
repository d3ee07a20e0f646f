import Csexp.ChannelParser
import Csexp.Composition
import Csexp.Encoding

/-!
# Channels, strings and messages

The channel parsers tell of every byte stream what the string parsers
tell of it, and their consumption is exact: `input` never reads past the
expression it returns. Expressions written to a channel one after the
other are therefore received one after the other.
-/

namespace Csexp

open Incremental

/-- Run on a channel with the contents `b`, the function `f` returns `r`
and has consumed exactly `p` bytes. -/
def Consumes {α : Type} (f : Chan α) (b : Bytes) (p : ℕ) (r : α) : Prop :=
  p ≤ b.length ∧ f b = (.ok r, b.drop p)

theorem Consumes.unique {α : Type} {f : Chan α} {b : Bytes} {p p' : ℕ} {r r' : α}
    (h : Consumes f b p r) (h' : Consumes f b p' r') : p = p' ∧ r = r' := by
  obtain ⟨hp, hf⟩ := h
  obtain ⟨hp', hf'⟩ := h'
  rw [hf] at hf'
  obtain ⟨rfl, hdrop⟩ : r = r' ∧ b.drop p = b.drop p' := by simpa using hf'
  have hlen := congrArg List.length hdrop
  simp only [List.length_drop] at hlen
  exact ⟨by omega, rfl⟩

section OneStream

variable {P : Platform} {b : Bytes} {p : ℕ} {x : Sexp} {msg : String}

/-! ## Consumption by `input_opt` and `input` -/

theorem inputOpt_of_ne_nil (hb : b ≠ []) : inputOpt P.toSys .always b =
    Prod.map .ok id (channelOne b ((oneReader P.maxStringLength).scan .start b)) := by
  cases b with
  | nil => exact absurd rfl hb
  | cons c ic => exact inputOpt_cons P c ic

theorem inputOpt_of_stopped
    (h : (oneReader P.maxStringLength).scan .start b = .stopped p ⟨.init, .sexp x .empty⟩) :
    Consumes (inputOpt P.toSys .always) b p (.ok (some x)) := by
  have hb : b ≠ [] := by
    rintro rfl
    cases h
  refine ⟨(Scanner.reaches_of_stopped _ h).1, ?_⟩
  rw [inputOpt_of_ne_nil hb, h]
  rfl

theorem inputOpt_of_failed
    (h : (oneReader P.maxStringLength).scan .start b = .failed p msg) :
    Consumes (inputOpt P.toSys .always) b (p + 1) (.error msg) := by
  have hp := Scanner.lt_length_of_failed _ h
  have hb : b ≠ [] := List.ne_nil_of_length_pos (Nat.zero_lt_of_lt hp)
  refine ⟨hp, ?_⟩
  rw [inputOpt_of_ne_nil hb, h]
  rfl

theorem inputOpt_of_pending {q : Config} (hb : b ≠ [])
    (h : (oneReader P.maxStringLength).scan .start b = .pending q) :
    Consumes (inputOpt P.toSys .always) b b.length (.error prematureEndOfInput) := by
  refine ⟨le_rfl, ?_⟩
  rw [inputOpt_of_ne_nil hb, h, List.drop_length]
  rfl

/-- `input` is `input_opt`, except that it reports an empty channel as an
error. -/
theorem input_of_inputOpt {r : Result Sexp String}
    (h : Consumes (inputOpt P.toSys .always) b p (r.map some)) :
    Consumes (input P.toSys .always) b p r := by
  refine ⟨h.1, ?_⟩
  rw [input, h.2]
  cases r <;> rfl

theorem input_nil (S : Sys) (alloc : Allocator) :
    Consumes (input S alloc) [] 0 (.error prematureEndOfInput) := ⟨le_rfl, rfl⟩

/-- On a channel that is not at its end, `input_opt` and `input` consume
the same bytes to the same effect. -/
theorem inputOpt_input (P : Platform) {b : Bytes} (hb : b ≠ []) :
    ∃ p, ∃ r : Result Sexp String, Consumes (inputOpt P.toSys .always) b p (r.map some) ∧
      Consumes (input P.toSys .always) b p r := by
  have hex : ∃ p, ∃ r : Result Sexp String,
      Consumes (inputOpt P.toSys .always) b p (r.map some) := by
    rcases parseString_cases P b with ⟨x, h, -⟩ | ⟨p, x, -, h, -⟩ | ⟨p, msg, -, h, -⟩ |
      ⟨q, h, -⟩
    · exact ⟨_, .ok x, inputOpt_of_stopped h⟩
    · exact ⟨_, .ok x, inputOpt_of_stopped h⟩
    · exact ⟨_, .error msg, inputOpt_of_failed h⟩
    · exact ⟨_, .error prematureEndOfInput, inputOpt_of_pending hb h⟩
  obtain ⟨p, r, h⟩ := hex
  exact ⟨p, r, h, input_of_inputOpt h⟩

theorem input_of_error (hmsg : msg ≠ dataAfter)
    (h : parseString P.toSys b = .ok (.error (p, msg))) :
    Consumes (input P.toSys .always) b (min (p + 1) b.length) (.error msg) := by
  rcases parseString_cases P b with ⟨x, -, hx⟩ | ⟨p', x, -, -, he⟩ |
    ⟨p', msg', hlt, hscan, he, -⟩ | ⟨q, hscan, he⟩
  · simp [hx] at h
  · obtain ⟨-, rfl⟩ : p' = p ∧ dataAfter = msg := by simpa [he] using h
    exact absurd rfl hmsg
  · obtain ⟨rfl, rfl⟩ : p' = p ∧ msg' = msg := by simpa [he] using h
    rw [min_eq_left (Nat.succ_le_of_lt hlt)]
    exact input_of_inputOpt (inputOpt_of_failed hscan)
  · obtain ⟨rfl, rfl⟩ : b.length = p ∧ prematureEndOfInput = msg := by simpa [he] using h
    rw [min_eq_right (Nat.le_succ _)]
    by_cases hb : b = []
    · subst hb
      exact input_nil _ _
    · exact input_of_inputOpt (inputOpt_of_pending hb hscan)

/-- `input` returns an expression where the reader stops, and nowhere
else. -/
theorem input_ok_iff_stopped : Consumes (input P.toSys .always) b p (.ok x) ↔
    (oneReader P.maxStringLength).scan .start b = .stopped p ⟨.init, .sexp x .empty⟩ := by
  constructor
  · intro h
    rcases parseString_cases P b with ⟨y, hscan, -⟩ | ⟨p', y, -, hscan, -⟩ |
      ⟨p', msg, -, -, he, hne, -⟩ | ⟨q, -, he⟩
    · obtain ⟨rfl, hxy⟩ := h.unique (input_of_inputOpt (r := .ok y) (inputOpt_of_stopped hscan))
      rw [hscan, Except.ok.inj hxy]
    · obtain ⟨rfl, hxy⟩ := h.unique (input_of_inputOpt (r := .ok y) (inputOpt_of_stopped hscan))
      rw [hscan, Except.ok.inj hxy]
    · cases (h.unique (input_of_error hne he)).2
    · cases (h.unique (input_of_error (by decide) he)).2
  · intro h
    exact input_of_inputOpt (r := .ok x) (inputOpt_of_stopped h)

theorem parseString_take_iff_stopped : (p ≤ b.length ∧
      parseString P.toSys (b.take p) = .ok (.ok x)) ↔
    (oneReader P.maxStringLength).scan .start b = .stopped p ⟨.init, .sexp x .empty⟩ := by
  constructor
  · rintro ⟨hp, h⟩
    have hscan := scan_one_of_derives P.nine_le_maxStringLength (parseString_eq_ok_iff.mp h)
      (b.drop p)
    rwa [List.take_append_drop, List.length_take_of_le hp] at hscan
  · intro h
    exact ⟨(Scanner.reaches_of_stopped _ h).1,
      parseString_eq_ok_iff.mpr (derives_of_stopped P.nine_le_maxStringLength h)⟩

/-! ## Consumption by `input_many` -/

theorem inputMany_of_ok {xs : List Sexp} (h : parseStringMany P.toSys b = .ok (.ok xs)) :
    Consumes (inputMany P.toSys .always) b b.length (.ok xs) := by
  refine ⟨le_rfl, ?_⟩
  have hscan := (scan_many_iff P.nine_le_maxStringLength).mpr (parseStringMany_eq_ok_iff.mp h)
  rw [inputMany_eq, hscan, List.drop_length]
  simp only [channelMany, Config.finish_eq_some.mpr rfl]
  rfl

theorem inputMany_of_error (h : parseStringMany P.toSys b = .ok (.error (p, msg))) :
    Consumes (inputMany P.toSys .always) b (min (p + 1) b.length) (.error msg) := by
  rcases parseStringMany_cases P b with ⟨xs, -, hxs⟩ | ⟨p', msg', hlt, hscan, he, -⟩ |
    ⟨q, hscan, hq, he⟩
  · simp [hxs] at h
  · obtain ⟨rfl, rfl⟩ : p' = p ∧ msg' = msg := by simpa [he] using h
    rw [min_eq_left (Nat.succ_le_of_lt hlt)]
    refine ⟨hlt, ?_⟩
    rw [inputMany_eq, hscan]
    rfl
  · obtain ⟨rfl, rfl⟩ : b.length = p ∧ prematureEndOfInput = msg := by simpa [he] using h
    rw [min_eq_right (Nat.le_succ _)]
    refine ⟨le_rfl, ?_⟩
    rw [inputMany_eq, hscan, List.drop_length]
    simp only [channelMany, hq]
    rfl

theorem parseString_dataAfter_iff_stopped : parseString P.toSys b = .ok (.error (p, dataAfter)) ↔
    p < b.length ∧ ∃ x,
      (oneReader P.maxStringLength).scan .start b = .stopped p ⟨.init, .sexp x .empty⟩ := by
  constructor
  · intro h
    obtain ⟨-, hlt, x, -, hscan, -⟩ := parseString_dataAfter h
    exact ⟨hlt, x, hscan⟩
  · rintro ⟨hlt, x, hscan⟩
    rw [parseString_of_stopped hscan, if_neg hlt.ne]

theorem inputMany_cases (P : Platform) (b : Bytes) :
    (∃ xs, parseStringMany P.toSys b = .ok (.ok xs) ∧
      Consumes (inputMany P.toSys .always) b b.length (.ok xs)) ∨
    ∃ p msg, parseStringMany P.toSys b = .ok (.error (p, msg)) ∧
      Consumes (inputMany P.toSys .always) b (min (p + 1) b.length) (.error msg) := by
  rcases parseStringMany_cases P b with ⟨xs, -, h⟩ | ⟨p, msg, -, -, h, -⟩ | ⟨q, -, -, h⟩
  · exact Or.inl ⟨xs, h, inputMany_of_ok h⟩
  · exact Or.inr ⟨p, msg, h, inputMany_of_error h⟩
  · exact Or.inr ⟨_, _, h, inputMany_of_error h⟩

end OneStream

/-! ## Agreement of the parsers -/

/-- What the channel parsers do on a channel with the contents `b`, told by
the string parsers on `b`. -/
structure ChannelAgreement (P : Platform) (b : Bytes) : Prop where
  inputOpt_none : (inputOpt P.toSys .always b).1 = .ok (.ok none) ↔ b = []
  input_empty : b = [] → Consumes (input P.toSys .always) b 0 (.error prematureEndOfInput)
  inputOpt_input : b ≠ [] → ∃ p, ∃ r : Result Sexp String,
    Consumes (inputOpt P.toSys .always) b p (r.map some) ∧ Consumes (input P.toSys .always) b p r
  input_ok : ∀ x, (input P.toSys .always b).1 = .ok (.ok x) →
    ∃ p, Consumes (input P.toSys .always) b p (.ok x)
  input_ok_iff : ∀ p x, Consumes (input P.toSys .always) b p (.ok x) ↔
    p ≤ b.length ∧ parseString P.toSys (b.take p) = .ok (.ok x)
  parse_whole : ∀ x, Consumes (input P.toSys .always) b b.length (.ok x) ↔
    parseString P.toSys b = .ok (.ok x)
  parse_dataAfter : ∀ p, (p < b.length ∧ ∃ x, Consumes (input P.toSys .always) b p (.ok x)) ↔
    parseString P.toSys b = .ok (.error (p, dataAfter))
  input_error : ∀ p msg, parseString P.toSys b = .ok (.error (p, msg)) → msg ≠ dataAfter →
    Consumes (input P.toSys .always) b (min (p + 1) b.length) (.error msg)
  inputMany_ok_iff : ∀ xs, (inputMany P.toSys .always b).1 = .ok (.ok xs) ↔
    parseStringMany P.toSys b = .ok (.ok xs)
  inputMany_ok : ∀ xs, parseStringMany P.toSys b = .ok (.ok xs) →
    Consumes (inputMany P.toSys .always) b b.length (.ok xs)
  inputMany_error_iff : ∀ msg, (inputMany P.toSys .always b).1 = .ok (.error msg) ↔
    ∃ p, parseStringMany P.toSys b = .ok (.error (p, msg))
  inputMany_error : ∀ p msg, parseStringMany P.toSys b = .ok (.error (p, msg)) →
    Consumes (inputMany P.toSys .always) b (min (p + 1) b.length) (.error msg)

/-- Channel parsers and string parsers agree on every byte stream, in
verdict, value, message and bytes consumed. -/
theorem channels_agree (P : Platform) (b : Bytes) : ChannelAgreement P b where
  inputOpt_none := by
    constructor
    · intro h
      by_contra hb
      obtain ⟨p, r, hr, -⟩ := inputOpt_input P hb
      rw [hr.2] at h
      cases r <;> cases h
    · rintro rfl
      rfl
  input_empty := by
    rintro rfl
    exact input_nil _ _
  inputOpt_input := inputOpt_input P
  input_ok := by
    intro x h
    by_cases hb : b = []
    · subst hb
      cases h
    · obtain ⟨p, r, -, hr⟩ := inputOpt_input P hb
      rw [hr.2] at h
      obtain rfl : r = .ok x := Except.ok.inj h
      exact ⟨p, hr⟩
  input_ok_iff _ _ := input_ok_iff_stopped.trans parseString_take_iff_stopped.symm
  parse_whole x := by
    have h := parseString_take_iff_stopped (P := P) (b := b) (p := b.length) (x := x)
    rw [List.take_length] at h
    rw [input_ok_iff_stopped, ← h]
    exact and_iff_right le_rfl
  parse_dataAfter p := by
    rw [parseString_dataAfter_iff_stopped]
    exact and_congr_right fun _ => exists_congr fun _ => input_ok_iff_stopped
  input_error _ _ h hmsg := input_of_error hmsg h
  inputMany_ok_iff xs := by
    rcases inputMany_cases P b with ⟨ys, hs, hc⟩ | ⟨p, msg, hs, hc⟩
    · rw [hs, hc.2]
      simp
    · rw [hs, hc.2]
      simp
  inputMany_ok _ h := inputMany_of_ok h
  inputMany_error_iff msg := by
    rcases inputMany_cases P b with ⟨ys, hs, hc⟩ | ⟨p, msg', hs, hc⟩
    · rw [hs, hc.2]
      simp
    · rw [hs, hc.2]
      simp
  inputMany_error _ _ h := inputMany_of_error h

/-! ## Messages on a channel -/

/-- The results of `n` successive calls of `f` on one channel. -/
def calls {α : Type} (f : Chan α) : ℕ → InChannel → List (Eval α) × InChannel
  | 0, ic => ([], ic)
  | n + 1, ic =>
    let (r, ic) := f ic
    let (rs, ic) := calls f n ic
    (r :: rs, ic)

/-- A function that reads one encoded value and nothing behind it reads a
whole sequence of them. -/
theorem calls_flatMap {α β : Type} {f : Chan α} {enc : β → Bytes} {res : β → α} {xs : List β}
    (h : ∀ x ∈ xs, ∀ r, f (enc x ++ r) = (.ok (res x), r)) (n : ℕ) (r : Bytes) :
    calls f (xs.length + n) (xs.flatMap enc ++ r) =
      (xs.map (fun x => .ok (res x)) ++ (calls f n r).1, (calls f n r).2) := by
  induction xs with
  | nil => simp
  | cons x xs ih =>
      have hx := h x List.mem_cons_self (xs.flatMap enc ++ r)
      have hxs := ih fun y hy => h y (List.mem_cons_of_mem x hy)
      rw [List.length_cons, Nat.add_right_comm, List.flatMap_cons, List.append_assoc, calls, hx]
      simp only [hxs]
      rfl

theorem calls_inputOpt_nil (S : Sys) (alloc : Allocator) (n : ℕ) :
    calls (inputOpt S alloc) n [] = (List.replicate n (.ok (.ok none)), []) := by
  induction n with
  | zero => rfl
  | succ n ih =>
      rw [calls, inputOpt_nil]
      simp only [ih]
      rfl

section Messages

variable {P : Platform} {x : Sexp}

theorem scan_toString (hx : x.Fits P.toSys) (r : Bytes) :
    (oneReader P.maxStringLength).scan .start (toString x ++ r) =
      .stopped (toString x).length ⟨.init, .sexp x .empty⟩ :=
  scan_one_of_derives P.nine_le_maxStringLength (derives_toString hx) r

theorem inputOpt_toString (hx : x.Fits P.toSys) (r : Bytes) :
    inputOpt P.toSys .always (toString x ++ r) = (.ok (.ok (some x)), r) := by
  have h := (inputOpt_of_stopped (scan_toString hx r)).2
  rwa [List.drop_left] at h

theorem input_toString (hx : x.Fits P.toSys) (r : Bytes) :
    input P.toSys .always (toString x ++ r) = (.ok (.ok x), r) := by
  rw [input, inputOpt_toString hx]

end Messages

/-- Whatever is written to a channel, one expression after the other, is
read back from it, one call after the other, and no byte behind it is
touched. -/
theorem messages_received (P : Platform) (xs : List Sexp) (hxs : ∀ x ∈ xs, x.Fits P.toSys)
    (r : Bytes) :
    let stream := (xs.foldl toChannel ⟨[]⟩).written ++ r
    calls (input P.toSys .always) xs.length stream = (xs.map fun x => .ok (.ok x), r) ∧
    calls (inputOpt P.toSys .always) xs.length stream =
      (xs.map fun x => .ok (.ok (some x)), r) ∧
    (r = [] →
      (∀ n, calls (inputOpt P.toSys .always) (xs.length + n) stream =
        ((xs.map fun x => .ok (.ok (some x))) ++ List.replicate n (.ok (.ok none)), [])) ∧
      inputMany P.toSys .always stream = (.ok (.ok xs), [])) := by
  intro stream
  have hstream : stream = xs.flatMap toString ++ r := by
    simp only [stream, written_foldl_toChannel, List.nil_append]
  have hinput := calls_flatMap (fun x hx r => input_toString (hxs x hx) r)
  have hinputOpt := calls_flatMap (fun x hx r => inputOpt_toString (hxs x hx) r)
  rw [hstream]
  refine ⟨?_, ?_, ?_⟩
  · simpa [calls] using hinput 0 r
  · simpa [calls] using hinputOpt 0 r
  · rintro rfl
    constructor
    · intro n
      rw [hinputOpt n [], calls_inputOpt_nil]
    · rw [List.append_nil]
      have h := (inputMany_of_ok
        (parseStringMany_eq_ok_iff.mpr (derivesMany_toString hxs))).2
      rwa [List.drop_length] at h

/-- The rest may itself look like the start of an atom. -/
theorem messages_received_sample :
    let P := Platform.native64
    let xs : List Sexp := [.atom [':'.toUInt8], .list [.atom []]]
    let r : Bytes := ['1'.toUInt8, ':'.toUInt8]
    (∀ x ∈ xs, x.Fits P.toSys) ∧
      calls (input P.toSys .always) 2 ((xs.foldl toChannel ⟨[]⟩).written ++ r) =
        (xs.map fun x => .ok (.ok x), r) := by
  intro P xs r
  have hxs : ∀ x ∈ xs, x.Fits P.toSys := by
    intro x hx
    simp only [xs, List.mem_cons, List.not_mem_nil, or_false] at hx
    rcases hx with rfl | rfl
    · exact .atom (by norm_num [P, Platform.native64])
    · refine .list fun y hy => ?_
      rw [List.mem_singleton.mp hy]
      exact .atom (Nat.zero_le _)
  exact ⟨hxs, (messages_received P xs hxs r).1⟩

end Csexp
