import Csexp.Composition
import Csexp.Library.Effects

/-!
# Parsing from a monadic source

`Make_parser` asks a source of the user for one character at a time and
for the bytes of one atom at a time. The source answers within a monad,
and either kind of read may fail with a message. The reads of a run are
recorded in a log, and the log determines the result.
-/

namespace Csexp

open Incremental Effects

structure Input (m : Type → Type) (T : Type) where
  readString : T → ℤ → m (Result Bytes String)
  readChar : T → m (Result UInt8 String)

namespace MakeParser

section Functor

variable {m : Type → Type} [Monad m] {T : Type} (S : Sys) (I : Input m T)

/-- The operator `>>=*`. -/
def bindResult {α β : Type} (x : Comp Exn m (Result α String))
    (f : α → Comp Exn m (Result β String)) : Comp Exn m (Result β String) :=
  x >>= fun
    | .error err => pure (.error err)
    | .ok x => f x

def oneToken (input : T) (c : UInt8) (lexer : Lexer) (stack : Stack) :
    Comp Exn m (Result (Lexer × Stack) String) :=
  match lexer.feed S c with
  | .error (.parseError msg) => pure (.error msg)
  | .error e => .ofExcept (.error e)
  | .ok (.atom n, lexer) =>
    bindResult (.lift (I.readString input n)) fun s => pure (.ok (lexer, stack.addAtom s))
  | .ok (.other x, lexer) =>
    match stack.addToken x with
    | .error (.parseError msg) => pure (.error msg)
    | .error e => .ofExcept (.error e)
    | .ok stack => pure (.ok (lexer, stack))

/-- The loop of `parse`. The lexer is mutable in OCaml and is passed along
here, which is the same in a single run of the computation. -/
def parse.loop (fuel : ℕ) (input : T) (lexer : Lexer) (stack : Stack) :
    Comp Exn m (Result Sexp String) :=
  match fuel with
  | 0 => .outOfFuel
  | fuel + 1 =>
    Comp.lift (I.readChar input) >>= fun
      | .error _ => .ofExcept (feedEoiSingle lexer stack)
      | .ok c => bindResult (oneToken S I input c lexer stack) fun
        | (_, .sexp sexp .empty) => pure (.ok sexp)
        | (lexer, stack) => parse.loop fuel input lexer stack

def parse (input : T) (fuel : ℕ) : Comp Exn m (Result Sexp String) :=
  parse.loop S I fuel input Lexer.create .empty

def parseMany.loop (fuel : ℕ) (input : T) (lexer : Lexer) (stack : Stack) :
    Comp Exn m (Result (List Sexp) String) :=
  match fuel with
  | 0 => .outOfFuel
  | fuel + 1 =>
    Comp.lift (I.readChar input) >>= fun
      | .error _ => .ofExcept (feedEoiMany lexer stack)
      | .ok c => bindResult (oneToken S I input c lexer stack) fun
        | (lexer, stack) => parseMany.loop fuel input lexer stack

def parseMany (input : T) (fuel : ℕ) : Comp Exn m (Result (List Sexp) String) :=
  parseMany.loop S I fuel input Lexer.create .empty

/-- What both loops do in one turn: read a character, at the end of the
input answer `eoi`, and otherwise go on with `k` behind one token. -/
def readToken {α : Type} (input : T) (lexer : Lexer) (stack : Stack)
    (eoi : Eval (Result α String)) (k : Lexer × Stack → Comp Exn m (Result α String)) :
    Comp Exn m (Result α String) :=
  Comp.lift (I.readChar input) >>= fun
    | .error _ => .ofExcept eoi
    | .ok c => bindResult (oneToken S I input c lexer stack) k

theorem parse_loop_succ (fuel : ℕ) (input : T) (lexer : Lexer) (stack : Stack) :
    parse.loop S I (fuel + 1) input lexer stack =
      readToken S I input lexer stack (feedEoiSingle lexer stack) fun
        | (_, .sexp sexp .empty) => pure (.ok sexp)
        | (lexer, stack) => parse.loop S I fuel input lexer stack := rfl

theorem parseMany_loop_succ (fuel : ℕ) (input : T) (lexer : Lexer) (stack : Stack) :
    parseMany.loop S I (fuel + 1) input lexer stack =
      readToken S I input lexer stack (feedEoiMany lexer stack) fun
        | (lexer, stack) => parseMany.loop S I fuel input lexer stack := rfl

end Functor

/-! ## The log of a run -/

/-- A read together with the answer of the source. -/
inductive Read where
  | char (r : Result UInt8 String)
  | string (n : ℤ) (r : Result Bytes String)

namespace Read

def bytes : Read → Bytes
  | char (.ok c) => [c]
  | string _ (.ok s) => s
  | char (.error _) | string _ (.error _) => []

def failed : Read → Bool
  | char (.ok _) | string _ (.ok _) => false
  | char (.error _) | string _ (.error _) => true

end Read

end MakeParser

open MakeParser

/-- The same source, keeping a log of the reads it has answered. -/
def Input.traced {σ T : Type} (I : Input (StateM σ) T) : Input (StateM (σ × List Read)) T where
  readString input n := fun (s, log) =>
    let (r, s) := (I.readString input n).run s
    (r, (s, log ++ [.string n r]))
  readChar input := fun (s, log) =>
    let (r, s) := (I.readChar input).run s
    (r, (s, log ++ [.char r]))

/-- Whenever a `read_string` answers with a string, the string has the
length that was asked for. -/
def Input.Honest {σ T : Type} (I : Input (StateM σ) T) : Prop :=
  ∀ input n s a, ((I.readString input n).run s).1 = .ok a → (a.length : ℤ) = n

namespace MakeParser

section Source

variable {σ T α : Type} (S : Sys) (I : Input (StateM σ) T) (input : T)

/-! ## Fuel -/

theorem below_readToken (lexer : Lexer) (stack : Stack) (eoi : Eval (Result α String))
    {k k' : Lexer × Stack → Comp Exn (StateM σ) (Result α String)}
    (h : ∀ p, Comp.Below (k p) (k' p)) :
    Comp.Below (readToken S I input lexer stack eoi k)
      (readToken S I input lexer stack eoi k') := by
  apply Comp.Below.bind
  intro r
  cases r with
  | error e => exact .refl _
  | ok c =>
      apply Comp.Below.bind
      intro r
      cases r with
      | error err => exact .refl _
      | ok p => exact h p

theorem below_parse_loop (fuel : ℕ) (lexer : Lexer) (stack : Stack) :
    Comp.Below (parse.loop S I fuel input lexer stack)
      (parse.loop S I (fuel + 1) input lexer stack) := by
  induction fuel generalizing lexer stack with
  | zero => exact Comp.below_of_outOfFuel _
  | succ fuel ih =>
      apply below_readToken
      rintro ⟨lexer', stack'⟩
      split
      · exact .refl _
      · exact ih _ _

theorem below_parseMany_loop (fuel : ℕ) (lexer : Lexer) (stack : Stack) :
    Comp.Below (parseMany.loop S I fuel input lexer stack)
      (parseMany.loop S I (fuel + 1) input lexer stack) := by
  induction fuel generalizing lexer stack with
  | zero => exact Comp.below_of_outOfFuel _
  | succ fuel ih =>
      apply below_readToken
      rintro ⟨lexer', stack'⟩
      exact ih _ _

theorem parse_unique {s s₁ s₂ : σ} {r₁ r₂ : Result Sexp String}
    (h₁ : Comp.Returns (parse S I input) s r₁ s₁) (h₂ : Comp.Returns (parse S I input) s r₂ s₂) :
    r₁ = r₂ ∧ s₁ = s₂ :=
  h₁.unique (fun fuel => below_parse_loop S I input fuel _ _) h₂

theorem parseMany_unique {s s₁ s₂ : σ} {r₁ r₂ : Result (List Sexp) String}
    (h₁ : Comp.Returns (parseMany S I input) s r₁ s₁)
    (h₂ : Comp.Returns (parseMany S I input) s r₂ s₂) : r₁ = r₂ ∧ s₁ = s₂ :=
  h₁.unique (fun fuel => below_parseMany_loop S I input fuel _ _) h₂

/-! ## Forgetting the log -/

theorem erases_bindResult {τ β : Type} {π : τ → σ} {x : Comp Exn (StateM τ) (Result α String)}
    {y : Comp Exn (StateM σ) (Result α String)}
    {f : α → Comp Exn (StateM τ) (Result β String)}
    {g : α → Comp Exn (StateM σ) (Result β String)} (h : Comp.Erases π x y)
    (hf : ∀ a, Comp.Erases π (f a) (g a)) : Comp.Erases π (bindResult x f) (bindResult y g) := by
  apply h.bind
  intro r
  cases r with
  | error err => exact Comp.erases_pure _
  | ok a => exact hf a

theorem erases_oneToken (c : UInt8) (lexer : Lexer) (stack : Stack) :
    Comp.Erases Prod.fst (oneToken S I.traced input c lexer stack)
      (oneToken S I input c lexer stack) := by
  unfold oneToken
  split
  · exact Comp.erases_pure _
  · exact Comp.erases_ofExcept _
  · apply erases_bindResult
    · exact Comp.erases_lift fun _ => rfl
    · intro s
      exact Comp.erases_pure _
  · split
    · exact Comp.erases_pure _
    · exact Comp.erases_ofExcept _
    · exact Comp.erases_pure _

theorem erases_readToken (lexer : Lexer) (stack : Stack) (eoi : Eval (Result α String))
    {k : Lexer × Stack → Comp Exn (StateM (σ × List Read)) (Result α String)}
    {k' : Lexer × Stack → Comp Exn (StateM σ) (Result α String)}
    (h : ∀ p, Comp.Erases Prod.fst (k p) (k' p)) :
    Comp.Erases Prod.fst (readToken S I.traced input lexer stack eoi k)
      (readToken S I input lexer stack eoi k') := by
  apply Comp.Erases.bind
  · exact Comp.erases_lift fun _ => rfl
  · intro r
    cases r with
    | error e => exact Comp.erases_ofExcept _
    | ok c => exact erases_bindResult (erases_oneToken S I input c lexer stack) h

theorem erases_parse_loop (fuel : ℕ) (lexer : Lexer) (stack : Stack) :
    Comp.Erases Prod.fst (parse.loop S I.traced fuel input lexer stack)
      (parse.loop S I fuel input lexer stack) := by
  induction fuel generalizing lexer stack with
  | zero => exact Comp.erases_outOfFuel
  | succ fuel ih =>
      apply erases_readToken
      rintro ⟨lexer', stack'⟩
      split
      · exact Comp.erases_pure _
      · exact ih _ _

theorem erases_parseMany_loop (fuel : ℕ) (lexer : Lexer) (stack : Stack) :
    Comp.Erases Prod.fst (parseMany.loop S I.traced fuel input lexer stack)
      (parseMany.loop S I fuel input lexer stack) := by
  induction fuel generalizing lexer stack with
  | zero => exact Comp.erases_outOfFuel
  | succ fuel ih =>
      apply erases_readToken
      rintro ⟨lexer', stack'⟩
      exact ih _ _

end Source

end MakeParser

end Csexp
