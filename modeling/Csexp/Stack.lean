import Csexp.Lexer
import Csexp.Sexp

/-!
# Parsing stacks

A stack is the parsed prefix in reverse order: finished expressions on
top of the parentheses that are still open.
-/

namespace Csexp

inductive Stack where
  | empty
  | opened (t : Stack)
  | sexp (x : Sexp) (t : Stack)
  deriving Repr

namespace Stack

def openParen (stack : Stack) : Stack := .opened stack

def unmatchedParen : String := "right parenthesis without matching left parenthesis"

def closeParen.loop (acc : List Sexp) : Stack → Eval Stack
  | .empty => .error (.parseError unmatchedParen)
  | .sexp x t => closeParen.loop (x :: acc) t
  | .opened t => .ok (.sexp (.list acc) t)

def closeParen (t : Stack) : Eval Stack := closeParen.loop [] t

def toList.loop (acc : List Sexp) : Stack → Eval (List Sexp)
  | .empty => .ok acc
  | .sexp x t => toList.loop (x :: acc) t
  | .opened _ => .error (.parseError prematureEndOfInput)

def toList (t : Stack) : Eval (List Sexp) := toList.loop [] t

def addAtom (s : Bytes) (stack : Stack) : Stack := .sexp (.atom s) stack

def addToken (x : Lexer.Other) (stack : Stack) : Eval Stack :=
  match x with
  | .await => .ok stack
  | .lparen => .ok (openParen stack)
  | .rparen => closeParen stack

/-! ## Finished expressions on top of a stack -/

/-- Put the expressions `xs` on the stack, the first of them lowest. -/
def pushAll (xs : List Sexp) (stack : Stack) : Stack :=
  xs.foldl (fun stack x => .sexp x stack) stack

@[simp] theorem pushAll_nil (stack : Stack) : pushAll [] stack = stack := rfl

@[simp] theorem pushAll_cons (x : Sexp) (xs : List Sexp) (stack : Stack) :
    pushAll (x :: xs) stack = pushAll xs (.sexp x stack) := rfl

theorem pushAll_append (xs ys : List Sexp) (stack : Stack) :
    pushAll (xs ++ ys) stack = pushAll ys (pushAll xs stack) :=
  List.foldl_append

@[simp] theorem pushAll_concat (xs : List Sexp) (x : Sexp) (stack : Stack) :
    pushAll (xs ++ [x]) stack = .sexp x (pushAll xs stack) := by
  simp [pushAll_append]

theorem closeParen_loop_pushAll (xs acc : List Sexp) (stack : Stack) :
    closeParen.loop acc (pushAll xs stack) = closeParen.loop (xs ++ acc) stack := by
  induction xs using List.reverseRecOn generalizing acc with
  | nil => rfl
  | append_singleton xs x ih => simp [closeParen.loop, ih]

theorem toList_loop_pushAll (xs acc : List Sexp) (stack : Stack) :
    toList.loop acc (pushAll xs stack) = toList.loop (xs ++ acc) stack := by
  induction xs using List.reverseRecOn generalizing acc with
  | nil => rfl
  | append_singleton xs x ih => simp [toList.loop, ih]

/-- Every stack is finished expressions over the empty stack or over the
innermost open parenthesis. -/
theorem exists_pushAll (stack : Stack) :
    (∃ xs, stack = pushAll xs .empty) ∨ ∃ xs t, stack = pushAll xs (.opened t) := by
  induction stack with
  | empty => exact Or.inl ⟨[], rfl⟩
  | opened t _ => exact Or.inr ⟨[], t, rfl⟩
  | sexp x t ih =>
      rcases ih with ⟨xs, rfl⟩ | ⟨xs, t, rfl⟩
      · exact Or.inl ⟨xs ++ [x], by simp⟩
      · exact Or.inr ⟨xs ++ [x], t, by simp⟩

@[simp] theorem closeParen_pushAll_empty (xs : List Sexp) :
    closeParen (pushAll xs .empty) = .error (.parseError unmatchedParen) := by
  rw [closeParen, closeParen_loop_pushAll]
  rfl

@[simp] theorem closeParen_pushAll_opened (xs : List Sexp) (t : Stack) :
    closeParen (pushAll xs (.opened t)) = .ok (.sexp (.list xs) t) := by
  rw [closeParen, closeParen_loop_pushAll, List.append_nil]
  rfl

@[simp] theorem toList_pushAll_empty (xs : List Sexp) : toList (pushAll xs .empty) = .ok xs := by
  rw [toList, toList_loop_pushAll, List.append_nil]
  rfl

@[simp] theorem toList_pushAll_opened (xs : List Sexp) (t : Stack) :
    toList (pushAll xs (.opened t)) = .error (.parseError prematureEndOfInput) := by
  rw [toList, toList_loop_pushAll]
  rfl

theorem toList_eq_ok {stack : Stack} {xs : List Sexp} :
    toList stack = .ok xs ↔ stack = pushAll xs .empty := by
  rcases exists_pushAll stack with ⟨ys, rfl⟩ | ⟨ys, t, rfl⟩
  · constructor
    · intro h
      have heq : ys = xs := by simpa using h
      rw [heq]
    · intro h
      have hh := congrArg toList h
      rwa [toList_pushAll_empty xs] at hh
  · constructor
    · intro h
      simp at h
    · intro h
      have hh := congrArg toList h
      simp at hh

theorem closeParen_eq_ok {stack stack' : Stack} (h : closeParen stack = .ok stack') :
    ∃ xs t, stack = pushAll xs (.opened t) ∧ stack' = .sexp (.list xs) t := by
  rcases exists_pushAll stack with ⟨xs, rfl⟩ | ⟨xs, t, rfl⟩
  · simp at h
  · exact ⟨xs, t, rfl, by simpa using h.symm⟩

/-! ## Putting a stack on top of another -/

/-- The stack `t` grown on `base` instead of on the empty stack. -/
def onto (base : Stack) : Stack → Stack
  | .empty => base
  | .opened t => .opened (onto base t)
  | .sexp x t => .sexp x (onto base t)

@[simp] theorem onto_pushAll (base : Stack) (xs : List Sexp) (t : Stack) :
    onto base (pushAll xs t) = pushAll xs (onto base t) := by
  induction xs generalizing t with
  | nil => rfl
  | cons x xs ih => exact ih (.sexp x t)

/-- Over finished expressions only, a parenthesis closes or fails to close
as it does over the empty stack. -/
theorem closeParen_onto (xs : List Sexp) (stack : Stack) :
    closeParen (onto (pushAll xs .empty) stack) =
      (closeParen stack).map (onto (pushAll xs .empty)) := by
  rcases exists_pushAll stack with ⟨ys, rfl⟩ | ⟨ys, t, rfl⟩
  · rw [onto_pushAll, onto, ← pushAll_append, closeParen_pushAll_empty,
      closeParen_pushAll_empty]
    rfl
  · rw [onto_pushAll, onto, closeParen_pushAll_opened, closeParen_pushAll_opened]
    rfl

/-! ## The bottom of a stack -/

/-- Below everything else on the stack lies an open parenthesis. -/
def OpenBottom : Stack → Prop
  | .empty => False
  | .opened t => t = .empty ∨ OpenBottom t
  | .sexp _ t => OpenBottom t

@[simp] theorem openBottom_pushAll (xs : List Sexp) (t : Stack) :
    OpenBottom (pushAll xs t) ↔ OpenBottom t := by
  induction xs generalizing t with
  | nil => rfl
  | cons x xs ih => exact ih (.sexp x t)

/-- The stacks a parser of a single expression works on before that
expression is complete. -/
def Unfinished (stack : Stack) : Prop := stack = .empty ∨ stack.OpenBottom

theorem Unfinished.ne_complete {stack : Stack} (h : stack.Unfinished) (x : Sexp) :
    stack ≠ .sexp x .empty := by
  rintro rfl
  rcases h with h | h
  · cases h
  · exact h

theorem unfinished_opened {stack : Stack} (h : stack.Unfinished) :
    (Stack.opened stack).Unfinished := Or.inr h

/-- A finished expression completes the parse or leaves it unfinished. -/
theorem unfinished_sexp {stack : Stack} (h : stack.Unfinished) (x : Sexp) :
    stack = .empty ∨ (Stack.sexp x stack).Unfinished :=
  h.imp_right Or.inr

theorem unfinished_closeParen {stack stack' : Stack} (h : stack.Unfinished)
    (hc : closeParen stack = .ok stack') :
    (∃ x, stack' = .sexp x .empty) ∨ stack'.Unfinished := by
  obtain ⟨xs, t, rfl, rfl⟩ := closeParen_eq_ok hc
  rcases h with h | h
  · have hh := congrArg closeParen h
    rw [closeParen_pushAll_opened] at hh
    cases hh
  · rw [openBottom_pushAll] at h
    rcases unfinished_sexp h (.list xs) with rfl | hu
    · exact Or.inl ⟨_, rfl⟩
    · exact Or.inr hu

theorem toList_of_unfinished {stack : Stack} (h : stack.Unfinished) :
    toList stack = .ok [] ∨ toList stack = .error (.parseError prematureEndOfInput) := by
  rcases h with rfl | h
  · exact Or.inl rfl
  · rcases exists_pushAll stack with ⟨xs, rfl⟩ | ⟨xs, t, rfl⟩
    · rw [openBottom_pushAll] at h
      exact h.elim
    · exact Or.inr (toList_pushAll_opened xs t)

end Stack

end Csexp
