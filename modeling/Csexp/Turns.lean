import Csexp.Safety
import Csexp.Spelling

/-!
# Turns of the token loops

All loops over tokens turn alike, on every platform: they feed one
character, fetch the bytes of an atom, and hand the token to the stack.
The turns that start with a fresh lexer read exactly the tokens written
with the lengths that the lexer decodes.
-/

namespace Csexp

open Decimal (IsDigit value)
open Relation
open Stack (Token tokens)

/-- One turn, with the bytes that are left to read. -/
inductive Turn (S : Sys) : Head Bytes → Head Bytes → Prop where
  | other {c : UInt8} {r : Bytes} {t t' : Lexer} {x : Lexer.Other} {st st' : Stack}
      (hf : t.feed S c = .ok (.other x, t')) (hx : st.addToken x = .ok st') :
      Turn S ⟨c :: r, t, st⟩ ⟨r, t', st'⟩
  | fetch {c : UInt8} {a r : Bytes} {t t' : Lexer} {st : Stack}
      (hf : t.feed S c = .ok (.atom a.length, t')) :
      Turn S ⟨c :: (a ++ r), t, st⟩ ⟨r, t', st.addAtom a⟩

namespace Turn

variable {S : Sys}

/-! ## Turns over written tokens -/

theorem digits (hint : 9 ≤ S.maxInt) {ds : Bytes} (h : Lexer.Passes S ds) (n : ℤ) (st : Stack)
    (r : Bytes) : ReflTransGen (Turn S) ⟨ds ++ r, ⟨.init, n⟩, st⟩
      ⟨r, ⟨.parsingLength, S.wrap (value ds)⟩, st⟩ := by
  induction h using Lexer.Passes.induction generalizing r with
  | single c hc _ => exact .single (.other (Lexer.feed_first_digit hint hc n) rfl)
  | concat ds c _ hc hM ih =>
      have hfeed := Lexer.feed_next_digit S hc ds
      rw [if_neg (not_lt.mpr hM)] at hfeed
      rw [List.append_assoc]
      exact (ih (c :: r)).tail (.other hfeed rfl)

theorem atom (hint : 9 ≤ S.maxInt) {ds a : Bytes} (h : Decoded S ds a.length) (n : ℤ)
    (st : Stack) (r : Bytes) : ReflTransGen (Turn S)
      ⟨ds ++ ':'.toUInt8 :: (a ++ r), ⟨.init, n⟩, st⟩
      ⟨r, ⟨.init, a.length⟩, st.addAtom a⟩ := by
  have hfeed := Lexer.feed_colon S a.length
  have hds := digits hint h.toPasses n st (':'.toUInt8 :: (a ++ r))
  rw [h.wrap_eq] at hds
  exact hds.tail (.fetch hfeed)

/-- The turns over the tokens `ts`, written in front of `r`, do to the stack
what replaying the tokens does. -/
theorem written (hint : 9 ≤ S.maxInt) {ts : List Token} {s : Bytes}
    (h : Written (Decoded S) ts s) {st st' : Stack} (hst : Stack.replay ts st = .ok st')
    (n : ℤ) (r : Bytes) : ∃ n', ReflTransGen (Turn S) ⟨s ++ r, ⟨.init, n⟩, st⟩
      ⟨r, ⟨.init, n'⟩, st'⟩ := by
  induction h generalizing st n with
  | nil =>
      cases hst
      exact ⟨n, .refl⟩
  | lparen _ ih =>
      obtain ⟨t, ht, hts⟩ := Fold.run_cons_eq_ok.mp hst
      obtain ⟨n', hr⟩ := ih hts n
      exact ⟨n', .head (.other rfl ht) hr⟩
  | rparen _ ih =>
      obtain ⟨t, ht, hts⟩ := Fold.run_cons_eq_ok.mp hst
      obtain ⟨n', hr⟩ := ih hts n
      exact ⟨n', .head (.other rfl ht) hr⟩
  | @atom ts s ds a hn _ ih =>
      obtain ⟨t, ht, hts⟩ := Fold.run_cons_eq_ok.mp hst
      cases ht
      obtain ⟨n', hr⟩ := ih hts a.length
      refine ⟨n', ?_⟩
      rw [List.append_assoc, List.cons_append, List.append_assoc]
      exact (atom hint hn n st (s ++ r)).trans hr

/-! ## What has been read -/

/-- The part of `b` in front of `h.rest` is written for the lexer and the
stack of `h`. -/
inductive Behind (S : Sys) (b : Bytes) : Head Bytes → Prop where
  | init {s r : Bytes} {st : Stack} (n : ℤ) (h : Written (Decoded S) st.flatten s)
      (hb : b = s ++ r) : Behind S b ⟨r, ⟨.init, n⟩, st⟩
  | length {s ds r : Bytes} {st : Stack} (h : Written (Decoded S) st.flatten s)
      (hds : Lexer.Passes S ds) (hb : b = s ++ (ds ++ r)) :
      Behind S b ⟨r, ⟨.parsingLength, S.wrap (value ds)⟩, st⟩

theorem behind_start (b : Bytes) : Behind S b ⟨b, Lexer.create, .empty⟩ := .init 0 .nil rfl

/-- A token that is added to the stack is added behind what was written. -/
theorem written_add {L : Bytes → ℕ → Prop} {x : Token} {st st' : Stack} {s w : Bytes}
    (h : Written L st.flatten s) (hx : Stack.add x st = .ok st') (hw : Written L [x] w) :
    Written L st'.flatten (s ++ w) := by
  rw [Stack.flatten_add hx]
  exact h.append hw

theorem behind_of_init (hint : 9 ≤ S.maxInt) (hnine : 9 ≤ S.maxStringLength) {b s r : Bytes}
    {n : ℤ} {st : Stack} {h : Head Bytes} (hs : Written (Decoded S) st.flatten s)
    (hb : b = s ++ r) (ht : Turn S ⟨r, ⟨.init, n⟩, st⟩ h) : Behind S b h := by
  cases ht with
  | fetch hf => exact absurd hf (Lexer.feed_init_ne_atom S _ _ _ _)
  | @other c r _ t' x _ st' hf hx =>
      rcases Lexer.feed_init_eq_ok hf with ⟨rfl, hx', rfl⟩ | ⟨rfl, hx', rfl⟩ | ⟨hc, hx', -⟩
      · cases hx'
        exact .init n (written_add (x := .lparen) hs hx (.lparen .nil)) (by simp [hb])
      · cases hx'
        exact .init n (written_add (x := .rparen) hs hx (.rparen .nil)) (by simp [hb])
      · cases hx'
        cases hx
        rw [Lexer.feed_first_digit hint hc n] at hf
        cases hf
        exact .length hs (Lexer.passes_singleton hint hnine hc) (by simp [hb])

theorem behind_of_length {b s ds r : Bytes} {st : Stack} {h : Head Bytes}
    (hs : Written (Decoded S) st.flatten s) (hds : Lexer.Passes S ds) (hb : b = s ++ (ds ++ r))
    (ht : Turn S ⟨r, ⟨.parsingLength, S.wrap (value ds)⟩, st⟩ h) : Behind S b h := by
  cases ht with
  | @other c r _ t' x _ st' hf hx =>
      rcases Lexer.feed_digits_eq_ok hds hf with ⟨hx', hds', rfl⟩ | ⟨-, hx', -⟩
      · cases hx'
        cases hx
        exact .length hs hds' (by simp [hb])
      · cases hx'
  | @fetch c a r _ t' _ hf =>
      rcases Lexer.feed_digits_eq_ok hds hf with ⟨hx, -, -⟩ | ⟨rfl, hx, rfl⟩
      · cases hx
      · have hwrap : S.wrap (value ds) = a.length := (Lexer.Token.atom.inj hx).symm
        have hw : Written (Decoded S) [.atom a] (ds ++ ':'.toUInt8 :: (a ++ [])) :=
          .atom ⟨hds, hwrap⟩ .nil
        exact .init _ (written_add hs rfl hw) (by simp [hb])

theorem behind (hint : 9 ≤ S.maxInt) (hnine : 9 ≤ S.maxStringLength) {b : Bytes}
    {g h : Head Bytes} (hg : Behind S b g) (ht : Turn S g h) : Behind S b h := by
  cases hg with
  | init n hs hb => exact behind_of_init hint hnine hs hb ht
  | length hs hds hb => exact behind_of_length hs hds hb ht

/-- Whatever the turns from the start have read is written for where they
have led. -/
theorem behind_of_reachable (hint : 9 ≤ S.maxInt) (hnine : 9 ≤ S.maxStringLength) {b : Bytes}
    {h : Head Bytes} (hr : ReflTransGen (Turn S) ⟨b, Lexer.create, .empty⟩ h) : Behind S b h := by
  induction hr with
  | refl => exact behind_start b
  | tail _ ht ih => exact behind hint hnine ih ht

/-! ## Unfinished stacks -/

/-- The stack in front of an unfinished stack is unfinished as well. -/
theorem unfinished_of_turn {g h : Head Bytes} (ht : Turn S g h) (hu : h.stack.Unfinished) :
    g.stack.Unfinished := by
  cases ht with
  | @other c r t t' x st st' hf hx =>
      cases x with
      | await =>
          cases hx
          exact hu
      | lparen =>
          cases hx
          exact hu.resolve_left (by simp [Stack.openParen])
      | rparen =>
          obtain ⟨xs, t, rfl, rfl⟩ := Stack.closeParen_eq_ok hx
          have hbot : t.OpenBottom := hu.resolve_left (by simp)
          exact Or.inr ((Stack.openBottom_pushAll xs _).mpr (Or.inr hbot))
  | fetch hf => exact Or.inr (hu.resolve_left (by simp [Stack.addAtom]))

/-- A turn behind which an expression is complete has completed it exactly
if it has also ended a token. -/
theorem unfinished_iff_of_complete {g h : Head Bytes} (ht : Turn S g h) {x : Sexp}
    (hx : h.stack = .sexp x .empty) : g.stack.Unfinished ↔ h.lexer.state = .init := by
  cases ht with
  | @other c r t t' y st st' hf hy =>
      rw [Lexer.feed_state hf]
      obtain rfl : st' = .sexp x .empty := hx
      cases y with
      | await =>
          cases hy
          simp [Stack.Unfinished, Stack.OpenBottom]
      | lparen => cases hy
      | rparen =>
          obtain ⟨xs, u, rfl, hu⟩ := Stack.closeParen_eq_ok hy
          cases hu
          simp [Stack.Unfinished, Stack.OpenBottom]
  | @fetch c a r t t' st hf =>
      rw [Lexer.feed_state hf]
      cases hx
      simp [Stack.Unfinished]

end Turn

end Csexp
