import Csexp.Stack
import Csexp.Library.Fold
import Csexp.Library.Nesting

/-!
# Stacks as token prefixes

A stack records exactly the tokens that were added to it. The token lists
that can be replayed are the ones that are nested, and a stack is the
only outcome of replaying the tokens it records.
-/

namespace Csexp

open Nesting

namespace Stack

/-- The tokens a stack grows by, an atom together with its contents. -/
inductive Token where
  | lparen
  | rparen
  | atom (s : Bytes)
  deriving DecidableEq, Repr

mutual

def tokens : Sexp → List Token
  | .atom s => [.atom s]
  | .list l => .lparen :: tokensMany l ++ [.rparen]

def tokensMany : List Sexp → List Token
  | [] => []
  | x :: l => tokens x ++ tokensMany l

end

def flatten : Stack → List Token
  | .empty => []
  | .opened t => flatten t ++ [.lparen]
  | .sexp x t => flatten t ++ tokens x

def add (x : Token) (stack : Stack) : Eval Stack :=
  match x with
  | .lparen => addToken .lparen stack
  | .rparen => addToken .rparen stack
  | .atom s => .ok (addAtom s stack)

def replay (ts : List Token) (stack : Stack) : Eval Stack :=
  Fold.run (fun stack x => add x stack) stack ts

@[simp] theorem tokensMany_eq (l : List Sexp) : tokensMany l = l.flatMap tokens := by
  induction l with
  | nil => rfl
  | cons x l ih => rw [tokensMany, ih, List.flatMap_cons]

theorem tokens_atom (s : Bytes) : tokens (.atom s) = [.atom s] := by
  rw [tokens]

theorem tokens_list (l : List Sexp) :
    tokens (.list l) = .lparen :: l.flatMap tokens ++ [.rparen] := by
  rw [tokens, tokensMany_eq]

@[simp] theorem flatten_pushAll (xs : List Sexp) (t : Stack) :
    (pushAll xs t).flatten = t.flatten ++ xs.flatMap tokens := by
  induction xs generalizing t with
  | nil => simp
  | cons x xs ih => rw [pushAll_cons, ih, flatten, List.flatMap_cons, List.append_assoc]

/-! ## What is added is recorded -/

theorem flatten_add {x : Token} {stack stack' : Stack} (h : add x stack = .ok stack') :
    stack'.flatten = stack.flatten ++ [x] := by
  cases x with
  | lparen =>
      cases h
      rfl
  | rparen =>
      obtain ⟨xs, t, rfl, rfl⟩ := closeParen_eq_ok h
      rw [flatten, tokens_list, flatten_pushAll, flatten]
      simp
  | atom s =>
      cases h
      rfl

theorem flatten_replay {ts : List Token} {stack stack' : Stack}
    (h : replay ts stack = .ok stack') : stack'.flatten = stack.flatten ++ ts := by
  apply Fold.run_induction (P := fun ts t => t.flatten = stack.flatten ++ ts) _ _ h
  · rw [List.append_nil]
  · intro ts t x t' ht hx
    rw [flatten_add hx, ht, List.append_assoc]

/-! ## What is recorded can be replayed -/

theorem replay_flatMap_tokens {l : List Sexp}
    (h : ∀ x ∈ l, ∀ stack, replay (tokens x) stack = .ok (.sexp x stack)) (stack : Stack) :
    replay (l.flatMap tokens) stack = .ok (pushAll l stack) := by
  induction l generalizing stack with
  | nil => rfl
  | cons x l ih =>
      rw [List.flatMap_cons, replay, Fold.run_append (h x List.mem_cons_self stack), pushAll_cons]
      exact ih (fun y hy => h y (List.mem_cons_of_mem x hy)) (.sexp x stack)

theorem replay_tokens (x : Sexp) (stack : Stack) :
    replay (tokens x) stack = .ok (.sexp x stack) := by
  induction x generalizing stack with
  | atom s => rfl
  | list l ih =>
      have hopen : replay [.lparen] stack = .ok (.opened stack) := rfl
      have hlist : replay (.lparen :: l.flatMap tokens) stack = .ok (pushAll l (.opened stack)) :=
        (Fold.run_append hopen _).trans (replay_flatMap_tokens ih (.opened stack))
      rw [tokens_list, replay, Fold.run_concat hlist]
      exact closeParen_pushAll_opened l stack

theorem replay_flatten (stack : Stack) : replay stack.flatten .empty = .ok stack := by
  induction stack with
  | empty => rfl
  | opened t ih =>
      rw [flatten, replay, Fold.run_concat ih]
      rfl
  | sexp x t ih =>
      rw [flatten, replay, Fold.run_append ih]
      exact replay_tokens x t

theorem flatten_injective : Function.Injective flatten := by
  intro t t' h
  have ht := replay_flatten t
  rw [h, replay_flatten t'] at ht
  exact (Except.ok.inj ht).symm

/-! ## Parentheses left open -/

/-- The number of parentheses left open. -/
def depth : Stack → ℕ
  | .empty => 0
  | .opened t => depth t + 1
  | .sexp _ t => depth t

@[simp] theorem depth_pushAll (xs : List Sexp) (t : Stack) : (pushAll xs t).depth = t.depth := by
  induction xs generalizing t with
  | nil => rfl
  | cons x xs ih => rw [pushAll_cons, ih, depth]

theorem depth_add {x : Token} {stack stack' : Stack} (h : add x stack = .ok stack') :
    stack'.depth + [x].count .rparen = stack.depth + [x].count .lparen := by
  cases x with
  | lparen =>
      cases h
      rfl
  | rparen =>
      obtain ⟨xs, t, rfl, rfl⟩ := closeParen_eq_ok h
      rw [depth_pushAll, depth, depth]
      rfl
  | atom s =>
      cases h
      rfl

theorem depth_replay {ts : List Token} {stack : Stack} (h : replay ts .empty = .ok stack) :
    stack.depth + ts.count .rparen = ts.count .lparen := by
  apply Fold.run_induction
    (P := fun ts t => depth t + ts.count .rparen = ts.count .lparen) _ _ h
  · rfl
  · intro ts t x t' ht hx
    have hstep := depth_add hx
    rw [List.count_append, List.count_append]
    omega

theorem toList_error_iff {stack : Stack} :
    toList stack = .error (.parseError prematureEndOfInput) ↔ 0 < stack.depth := by
  rcases exists_pushAll stack with ⟨xs, rfl⟩ | ⟨xs, t, rfl⟩
  · simp [depth]
  · simp [depth]

/-- A token can be added unless it closes a parenthesis that is not open. -/
theorem add_ok_iff {x : Token} {stack : Stack} :
    (∃ stack', add x stack = .ok stack') ↔ [x].count .rparen ≤ stack.depth + [x].count .lparen := by
  cases x with
  | lparen => exact iff_of_true ⟨_, rfl⟩ (by simp)
  | rparen =>
      rcases exists_pushAll stack with ⟨xs, rfl⟩ | ⟨xs, t, rfl⟩
      · simp [add, addToken, depth]
      · simp [add, addToken, depth]
  | atom s => exact iff_of_true ⟨_, rfl⟩ (by simp)

theorem replay_ok_iff {ts : List Token} :
    (∃ stack, replay ts .empty = .ok stack) ↔ Nested .lparen .rparen ts := by
  induction ts using List.reverseRecOn with
  | nil => exact iff_of_true ⟨.empty, rfl⟩ nested_nil
  | append_singleton ts x ih =>
      rw [nested_concat, ← ih, List.count_append, List.count_append]
      constructor
      · rintro ⟨stack', h⟩
        obtain ⟨t, ht, hx⟩ := Fold.run_concat_eq_ok.mp h
        have hdepth := depth_replay ht
        have hle := add_ok_iff.mp ⟨stack', hx⟩
        exact ⟨⟨t, ht⟩, by omega⟩
      · rintro ⟨⟨t, ht⟩, hle⟩
        have hdepth := depth_replay ht
        have hle' : [x].count .rparen ≤ t.depth + [x].count .lparen := by omega
        obtain ⟨stack', hx⟩ := add_ok_iff.mpr hle'
        exact ⟨stack', Fold.run_concat_eq_ok.mpr ⟨t, ht, hx⟩⟩

theorem toList_error_iff_unmatched {ts : List Token} {stack : Stack}
    (h : replay ts .empty = .ok stack) :
    toList stack = .error (.parseError prematureEndOfInput) ↔ Unmatched .lparen .rparen ts := by
  have hdepth := depth_replay h
  have hts := replay_ok_iff.mp ⟨stack, h⟩
  rw [toList_error_iff, unmatched_iff_count_lt (by decide) hts]
  omega

theorem toList_ok_iff_flatten {stack : Stack} {xs : List Sexp} :
    toList stack = .ok xs ↔ stack.flatten = xs.flatMap tokens := by
  have hxs : (pushAll xs .empty).flatten = xs.flatMap tokens := flatten_pushAll xs .empty
  rw [toList_eq_ok, ← hxs]
  exact flatten_injective.eq_iff.symm

/-- Stacks and the token sequences that never close too much represent
each other. -/
theorem stack_represents_tokens :
    (∀ ts, (∃ stack, replay ts .empty = .ok stack) ↔ Nested .lparen .rparen ts) ∧
    (∀ ts stack, replay ts .empty = .ok stack → stack.flatten = ts ∧
      (toList stack = .error (.parseError prematureEndOfInput) ↔
        Unmatched .lparen .rparen ts)) ∧
    (∀ stack, replay stack.flatten .empty = .ok stack) ∧
    ∀ stack xs, toList stack = .ok xs ↔ stack.flatten = xs.flatMap tokens := by
  refine ⟨fun ts => replay_ok_iff, fun ts stack h => ⟨?_, toList_error_iff_unmatched h⟩,
    replay_flatten, fun stack xs => toList_ok_iff_flatten⟩
  exact flatten_replay h

theorem stack_represents_tokens_sample :
    let ts : List Token := [.lparen, .rparen, .lparen, .atom ['a'.toUInt8]]
    let stack : Stack := .sexp (.atom ['a'.toUInt8]) (.opened (.sexp (.list []) .empty))
    stack.flatten = ts ∧ (toList stack = .error (.parseError prematureEndOfInput) ↔
      Unmatched .lparen .rparen ts) :=
  stack_represents_tokens.2.1 _ _ rfl

end Stack

end Csexp
