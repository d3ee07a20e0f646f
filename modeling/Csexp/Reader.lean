import Csexp.Stack
import Csexp.Library.Scanner

/-!
# Reading one byte at a time

The abstract model of all the parsers: a scanner whose state is the stack
together with what is known of the token being read. Unlike the parsers
it never looks further than one byte, so an atom is collected byte by
byte, and it forgets the length of an atom once the atom is complete.
-/

namespace Csexp

open Decimal (IsDigit digitValue)
open Incremental

inductive Phase where
  | init
  /-- Inside a length, of value `n` so far. -/
  | length (n : ℕ)
  /-- Inside an atom, with `missing + 1` bytes still to come. -/
  | atom (missing : ℕ) (got : Bytes)

structure Config where
  phase : Phase
  stack : Stack

namespace Config

def start : Config := ⟨.init, .empty⟩

def beginAtom (n : ℕ) (stack : Stack) : Config :=
  match n with
  | 0 => ⟨.init, stack.addAtom []⟩
  | m + 1 => ⟨.atom m [], stack⟩

@[simp] theorem beginAtom_succ (m : ℕ) (stack : Stack) :
    beginAtom (m + 1) stack = ⟨.atom m [], stack⟩ := rfl

/-- The expression that has been completed when nothing else was read. -/
def complete : Config → Option Sexp
  | ⟨.init, .sexp x .empty⟩ => some x
  | _ => none

theorem complete_eq_some {q : Config} {x : Sexp} :
    q.complete = some x ↔ q = ⟨.init, .sexp x .empty⟩ := by
  constructor
  · intro h
    unfold complete at h
    split at h
    · rw [Option.some.injEq] at h
      rw [h]
    · cases h
  · rintro rfl
    rfl

/-- The expressions read, if the input may end here. -/
def finish : Config → Option (List Sexp)
  | ⟨.init, stack⟩ => stack.toList.toOption
  | _ => none

theorem finish_eq_some {q : Config} {xs : List Sexp} :
    q.finish = some xs ↔ q = ⟨.init, .pushAll xs .empty⟩ := by
  obtain ⟨phase, stack⟩ := q
  cases phase with
  | length n => simp [finish]
  | atom m got => simp [finish]
  | init =>
      have hlist : stack.toList = .ok xs ↔ stack = .pushAll xs .empty := Stack.toList_eq_ok
      cases h : stack.toList with
      | error e => simp_all [finish, Except.toOption]
      | ok ys => simp_all [finish, Except.toOption]

end Config

/-- One byte, with atoms of at most `M` bytes. -/
def step (M : ℕ) (q : Config) (c : UInt8) : Except String Config :=
  match q.phase with
  | .init =>
    if c = '('.toUInt8 then .ok ⟨.init, .opened q.stack⟩
    else if c = ')'.toUInt8 then
      match q.stack.closeParen with
      | .ok stack => .ok ⟨.init, stack⟩
      | .error _ => .error Stack.unmatchedParen
    else if IsDigit c then .ok ⟨.length (digitValue c), q.stack⟩
    else .error (Lexer.invalidCharacter c)
  | .length n =>
    if IsDigit c then
      if M < n * 10 + digitValue c then .error Lexer.atomTooBig
      else .ok ⟨.length (n * 10 + digitValue c), q.stack⟩
    else if c = ':'.toUInt8 then .ok (.beginAtom n q.stack)
    else .error (Lexer.invalidLengthCharacter c)
  | .atom 0 got => .ok ⟨.init, q.stack.addAtom (got ++ [c])⟩
  | .atom (m + 1) got => .ok ⟨.atom m (got ++ [c]), q.stack⟩

/-- The scanner that stops once a first expression is complete. -/
def oneReader (M : ℕ) : Scanner Config UInt8 String where
  step := step M
  stopped q := q.complete.isSome

/-- The scanner that reads any number of expressions. -/
def manyReader (M : ℕ) : Scanner Config UInt8 String := (oneReader M).endless

@[simp] theorem manyReader_step (M : ℕ) : (manyReader M).step = step M := rfl

@[simp] theorem manyReader_stopped (M : ℕ) (q : Config) : (manyReader M).stopped q = false := rfl

theorem oneReader_stopped_iff {M : ℕ} {q : Config} :
    (oneReader M).stopped q = true ↔ ∃ x, q = ⟨.init, .sexp x .empty⟩ := by
  simp only [oneReader, Option.isSome_iff_exists, Config.complete_eq_some]

/-- What an unfinished reader of one expression becomes by a step. -/
theorem unfinished_step {M : ℕ} {q q' : Config} {c : UInt8} (h : q.stack.Unfinished)
    (hc : step M q c = .ok q') : q'.complete.isSome = true ∨ q'.stack.Unfinished := by
  obtain ⟨phase, stack⟩ := q
  have hatom (a : Bytes) : (Config.mk .init (stack.addAtom a)).complete.isSome = true ∨
      (stack.addAtom a).Unfinished := by
    rcases Stack.unfinished_sexp h (.atom a) with rfl | hu
    · exact Or.inl rfl
    · exact Or.inr hu
  cases phase with
  | init =>
      simp only [step] at hc
      split_ifs at hc
      · cases hc
        exact Or.inr (Stack.unfinished_opened h)
      · cases hs : stack.closeParen with
        | error e => simp [hs] at hc
        | ok stack' =>
            simp only [hs, Except.ok.injEq] at hc
            subst hc
            rcases Stack.unfinished_closeParen h hs with ⟨x, rfl⟩ | hu
            · exact Or.inl rfl
            · exact Or.inr hu
      · cases hc
        exact Or.inr h
  | length n =>
      simp only [step] at hc
      split_ifs at hc
      · cases hc
        exact Or.inr h
      · cases hc
        cases n with
        | zero => exact hatom []
        | succ m => exact Or.inr h
  | atom m got =>
      cases m with
      | zero =>
          cases hc
          exact hatom _
      | succ m =>
          cases hc
          exact Or.inr h

theorem not_stopped_of_unfinished {M : ℕ} {q : Config} (h : q.stack.Unfinished) :
    (oneReader M).stopped q = false := by
  by_contra hs
  obtain ⟨x, rfl⟩ := oneReader_stopped_iff.mp (by simpa using hs)
  rcases h with h | h
  · cases h
  · exact h

/-- Until the first expression is complete, the stack of its reader is
unfinished. -/
theorem unfinished_of_reaches {M : ℕ} {q q' : Config} {s : Bytes} (h : q.stack.Unfinished)
    (hr : (oneReader M).Reaches q s q') :
    (oneReader M).stopped q' = true ∨ q'.stack.Unfinished := by
  refine hr.invariant (R := fun _ q => (oneReader M).stopped q = true ∨ q.stack.Unfinished)
    ?_ [] (Or.inr h)
  intro _ q c r hq hs hc
  exact unfinished_step (hq.resolve_left (by simp [hs])) hc

/-- A reader is one of these two scanners: it makes the steps above and
stops between tokens only. -/
structure IsReader (M : ℕ) (D : Scanner Config UInt8 String) : Prop where
  step_eq : D.step = step M
  phase_of_stopped : ∀ q, D.stopped q = true → q.phase = .init

theorem isReader_one (M : ℕ) : IsReader M (oneReader M) where
  step_eq := rfl
  phase_of_stopped q h := by
    obtain ⟨x, rfl⟩ := oneReader_stopped_iff.mp h
    rfl

theorem isReader_many (M : ℕ) : IsReader M (manyReader M) where
  step_eq := rfl
  phase_of_stopped q h := by simp at h

namespace IsReader

variable {M : ℕ} {D : Scanner Config UInt8 String}

theorem not_stopped (hD : IsReader M D) {q : Config} (hq : q.phase ≠ .init) :
    D.stopped q = false := by
  by_contra h
  exact hq (hD.phase_of_stopped q (by simpa using h))

theorem reaches_atom (hD : IsReader M D) {m : ℕ} {a : Bytes} (ha : a.length = m + 1)
    (got : Bytes) (stack : Stack) :
    D.Reaches ⟨.atom m got, stack⟩ a ⟨.init, stack.addAtom (got ++ a)⟩ := by
  induction m generalizing a got with
  | zero =>
      obtain ⟨c, rfl⟩ := List.length_eq_one_iff.mp ha
      exact .cons (hD.not_stopped (by simp)) (by rw [hD.step_eq]; rfl) (.nil _)
  | succ m ih =>
      cases a with
      | nil => simp at ha
      | cons c a =>
          refine .cons (hD.not_stopped (by simp)) (r := ⟨.atom m (got ++ [c]), stack⟩)
            (by rw [hD.step_eq]; rfl) ?_
          simpa [List.append_assoc] using ih (by simpa using ha) (got ++ [c])

/-- After the colon the reader takes exactly the announced bytes. -/
theorem reaches_beginAtom (hD : IsReader M D) (a : Bytes) (stack : Stack) :
    D.Reaches (.beginAtom a.length stack) a ⟨.init, stack.addAtom a⟩ := by
  cases a with
  | nil => exact .nil _
  | cons c a => simpa using hD.reaches_atom (a := c :: a) rfl [] stack

theorem reaches_atom_short (hD : IsReader M D) {m : ℕ} {a : Bytes} (ha : a.length ≤ m)
    (got : Bytes) (stack : Stack) :
    D.Reaches ⟨.atom m got, stack⟩ a ⟨.atom (m - a.length) (got ++ a), stack⟩ := by
  induction a generalizing m got with
  | nil => simpa using Scanner.Reaches.nil (D := D) ⟨.atom m got, stack⟩
  | cons c a ih =>
      cases m with
      | zero => simp at ha
      | succ m =>
          refine .cons (hD.not_stopped (by simp)) (r := ⟨.atom m (got ++ [c]), stack⟩)
            (by rw [hD.step_eq]; rfl) ?_
          simpa [List.append_assoc] using ih (by simpa using ha) (got ++ [c])

/-- When the input ends inside an atom the reader is left waiting. -/
theorem scan_beginAtom_short (hD : IsReader M D) {n : ℕ} {a : Bytes} (ha : a.length < n)
    (stack : Stack) :
    D.scan (.beginAtom n stack) a = .pending ⟨.atom (n - 1 - a.length) a, stack⟩ := by
  cases n with
  | zero => omega
  | succ m =>
      have hr := hD.reaches_atom_short (Nat.le_of_lt_succ ha) [] stack
      exact hr.scan_pending (hD.not_stopped (by simp))

end IsReader

/-! ## Finished expressions below -/

/-- The configuration with the expressions `xs` below its stack. -/
def Config.onto (xs : List Sexp) (q : Config) : Config :=
  ⟨q.phase, .onto (.pushAll xs .empty) q.stack⟩

/-- Finished expressions below the stack change no step, not even the one
in which a parenthesis tries to close below them. -/
theorem step_onto (M : ℕ) (xs : List Sexp) (q : Config) (c : UInt8) :
    step M (q.onto xs) c = (step M q c).map (Config.onto xs) := by
  obtain ⟨phase, stack⟩ := q
  cases phase with
  | init =>
      simp only [step, Config.onto, Stack.closeParen_onto]
      split_ifs
      · rfl
      · cases stack.closeParen <;> rfl
      · rfl
      · rfl
  | length n =>
      simp only [step, Config.onto]
      split_ifs
      · rfl
      · rfl
      · cases n <;> rfl
      · rfl
  | atom m got => cases m <;> rfl

theorem scan_many_onto (M : ℕ) (xs : List Sexp) (q : Config) (s : Bytes) :
    (manyReader M).scan (q.onto xs) s = ((manyReader M).scan q s).map (Config.onto xs) :=
  (manyReader M).scan_map (f := Config.onto xs) (fun _ => rfl) (step_onto M xs) q s

theorem Config.finish_onto (xs : List Sexp) (q : Config) :
    (q.onto xs).finish = q.finish.map (xs ++ ·) := by
  obtain ⟨phase, stack⟩ := q
  cases phase with
  | length n => rfl
  | atom m got => rfl
  | init =>
      rcases Stack.exists_pushAll stack with ⟨ys, rfl⟩ | ⟨ys, t, rfl⟩
      · simp [onto, finish, Stack.onto, ← Stack.pushAll_append, Except.toOption]
      · simp [onto, finish, Stack.onto, Except.toOption]

/-! ## Lexer and stack as a configuration -/

namespace Lexer

/-- What a lexer knows. The length left over from an earlier atom is not
part of it. -/
def phase (t : Lexer) : Phase :=
  match t.state with
  | .init => .init
  | .parsingLength => .length t.n.toNat

@[simp] theorem phase_init (n : ℤ) : phase ⟨.init, n⟩ = .init := rfl

@[simp] theorem phase_parsingLength (n : ℕ) : phase ⟨.parsingLength, n⟩ = .length n := by
  simp [phase]

end Lexer

/-- A lexer between tokens matches the reader behind the bytes of an atom. -/
theorem IsReader.reaches_token {M : ℕ} {D : Scanner Config UInt8 String} (hD : IsReader M D)
    {t : Lexer} (ht : t.state = .init) {a : Bytes} {n : ℕ} (ha : a.length = n) (stack : Stack) :
    D.Reaches (.beginAtom n stack) a ⟨t.phase, stack.addAtom a⟩ := by
  have hphase : t.phase = .init := by rw [Lexer.phase, ht]
  rw [hphase, ← ha]
  exact hD.reaches_beginAtom a stack

theorem Stack.closeParen_error {stack : Stack} {e : Exn} (h : stack.closeParen = .error e) :
    e = .parseError unmatchedParen := by
  rcases exists_pushAll stack with ⟨xs, rfl⟩ | ⟨xs, t, rfl⟩
  · simpa using h.symm
  · simp at h

/-- The outcome of feeding one character and handing the token to the
stack, compared with one step of the reader. -/
inductive Token.Matches (M : ℕ) (stack : Stack) : Eval (Lexer.Token × Lexer) →
    Except String Config → Prop where
  | lexError (msg : String) : Matches M stack (.error (.parseError msg)) (.error msg)
  | stackError {x : Lexer.Other} {t : Lexer} {msg : String}
      (hx : stack.addToken x = .error (.parseError msg)) :
      Matches M stack (.ok (.other x, t)) (.error msg)
  | other {x : Lexer.Other} {t : Lexer} {stack' : Stack} (hx : stack.addToken x = .ok stack') :
      Matches M stack (.ok (.other x, t)) (.ok ⟨t.phase, stack'⟩)
  | atom {n : ℕ} {t : Lexer} (hn : n ≤ M) (ht : t.state = .init) :
      Matches M stack (.ok (.atom n, t)) (.ok (.beginAtom n stack))

/-- One step of the reader is one call of `feed` and, for tokens other than
atoms, one call of `Stack.addToken`. -/
theorem feed_matches_step (P : Platform) {t : Lexer} (ht : t.Bounded P.toSys) (stack : Stack)
    (c : UInt8) : Token.Matches P.maxStringLength stack (t.feed P.toSys c)
      (step P.maxStringLength ⟨t.phase, stack⟩ c) := by
  have hf := Lexer.feeds P ht c
  generalize t.feed P.toSys c = r at hf
  cases hf with
  | lparen n => exact .other rfl
  | rparen n =>
      simp only [Lexer.phase_init, step, if_neg (by decide : ')'.toUInt8 ≠ '('.toUInt8), if_true]
      cases hs : stack.closeParen with
      | ok stack' => exact .other hs
      | error e => exact .stackError (by rw [Stack.addToken, hs, Stack.closeParen_error hs])
  | @digit n c hc _ =>
      have hl : c ≠ '('.toUInt8 := hc.ne (by decide)
      have hr : c ≠ ')'.toUInt8 := hc.ne (by decide)
      simp only [Lexer.phase_init, step, if_neg hl, if_neg hr, if_pos hc]
      rw [← Lexer.phase_parsingLength]
      exact .other rfl
  | invalid n hl hr hc =>
      simp only [Lexer.phase_init, step, if_neg hl, if_neg hr, if_neg hc]
      exact .lexError _
  | @grow n c hc hM =>
      simp only [Lexer.phase_parsingLength, step, if_pos hc, if_neg (not_lt.mpr hM)]
      rw [← Lexer.phase_parsingLength]
      exact .other rfl
  | tooBig n hc hM =>
      simp only [Lexer.phase_parsingLength, step, if_pos hc, if_pos hM]
      exact .lexError _
  | colon n hM =>
      have hc : ¬ IsDigit ':'.toUInt8 := by decide
      simp only [Lexer.phase_parsingLength, step, if_neg hc, if_true]
      exact .atom hM rfl
  | invalidLength n hl hc =>
      simp only [Lexer.phase_parsingLength, step, if_neg hc, if_neg hl]
      exact .lexError _

end Csexp
