import Csexp.Framing
import Csexp.Tokens

/-!
# Reading messages under Lwt

The Lwt client feeds the lexer itself and counts the parentheses that are
open. A message is complete when the last of them closes, so that an atom
outside of all parentheses never ends a message: it is kept on the stack
until a list follows, and is then taken for the message.
-/

namespace Csexp

open Incremental

namespace LwtClient

/-- What rejects the promise of `read`: an exception of the parser or of the
channel, or the `Failure` of `List.hd`. -/
inductive Rejection where
  | raised (e : Exn)
  | failure (msg : String)
  deriving DecidableEq

abbrev Answer := Except Rejection (Option Sexp)

def listHd : List Sexp → Except Rejection Sexp
  | [] => .error (.failure "hd")
  | x :: _ => .ok x

/-- `Lwt_io.read_into_exactly` into a new buffer behaves on the channel as
`really_input_string` does. -/
def read.loop (S : Sys) (alloc : Allocator) (lexer : Lexer) (depth : ℤ) (stack : Stack) :
    InChannel → Answer × InChannel
  | [] =>
    match lexer.feedEoi with
    | .error e => (.error (.raised e), [])
    | .ok () => (.ok none, [])
  | c :: ic =>
    match lexer.feed S c with
    | .error e => (.error (.raised e), ic)
    | .ok (.other .await, lexer) => read.loop S alloc lexer depth stack ic
    | .ok (.other .lparen, lexer) => read.loop S alloc lexer (depth + 1) stack.openParen ic
    | .ok (.other .rparen, lexer) =>
      match stack.closeParen with
      | .error e => (.error (.raised e), ic)
      | .ok stack =>
        let depth := depth - 1
        if depth = 0 then
          match stack.toList with
          | .error e => (.error (.raised e), ic)
          | .ok sexps => ((listHd sexps).map some, ic)
        else read.loop S alloc lexer depth stack ic
    | .ok (.atom count, lexer) =>
      match _h : reallyInputString S alloc count ic with
      | (.error e, ic) => (.error (.raised e), ic)
      | (.ok atom, ic₂) => read.loop S alloc lexer depth (stack.addAtom atom) ic₂
termination_by ic => ic.length
decreasing_by
  · exact Nat.lt_succ_self _
  · exact Nat.lt_succ_self _
  · exact Nat.lt_succ_self _
  · have hle := reallyInputString_le S alloc count ic
    rw [_h] at hle
    exact Nat.lt_succ_of_le hle

def read (S : Sys) (alloc : Allocator) : InChannel → Answer × InChannel :=
  read.loop S alloc Lexer.create 0 .empty

end LwtClient

/-! ## The reader that stops behind a list -/

/-- The scanner that stops once a list is complete outside of all
parentheses, whatever atoms precede it. -/
def listReader (M : ℕ) : Scanner Config UInt8 String where
  step := step M
  stopped
    | ⟨.init, .sexp (.list _) t⟩ => t.depth == 0
    | _ => false

theorem Stack.depth_eq_zero {t : Stack} : t.depth = 0 ↔ ∃ xs, t = .pushAll xs .empty := by
  constructor
  · intro h
    rcases t.exists_pushAll with ⟨xs, rfl⟩ | ⟨xs, t, rfl⟩
    · exact ⟨xs, rfl⟩
    · simp [depth] at h
  · rintro ⟨xs, rfl⟩
    rw [depth_pushAll]
    rfl

theorem listReader_stopped_iff {M : ℕ} {q : Config} : (listReader M).stopped q = true ↔
    ∃ xs l, q = ⟨.init, .pushAll (xs ++ [.list l]) .empty⟩ := by
  constructor
  · intro h
    unfold listReader at h
    simp only at h
    split at h
    · rename_i l t
      obtain ⟨xs, rfl⟩ := Stack.depth_eq_zero.mp (beq_iff_eq.mp h)
      exact ⟨xs, l, by rw [Stack.pushAll_concat]⟩
    · cases h
  · rintro ⟨xs, l, rfl⟩
    rw [Stack.pushAll_concat]
    exact beq_iff_eq.mpr (Stack.depth_eq_zero.mpr ⟨xs, rfl⟩)

theorem isReader_list (M : ℕ) : IsReader M (listReader M) where
  step_eq := rfl
  phase_of_stopped q h := by
    obtain ⟨xs, l, rfl⟩ := listReader_stopped_iff.mp h
    rfl

namespace LwtClient

/-- The answer at the end of the channel. -/
def atEnd : Phase → Answer
  | .init => .ok none
  | .length _ => .error (.raised (.parseError prematureEndOfInput))
  | .atom _ _ => .error (.raised .endOfFile)

/-- What `read` makes of the verdict of the reader on the channel contents
`s`. -/
def report (s : Bytes) : Verdict Config String → Answer × InChannel
  | .stopped p q => (.ok (q.finish.bind List.head?), s.drop p)
  | .failed p msg => (.error (.raised (.parseError msg)), s.drop (p + 1))
  | .pending q => (atEnd q.phase, [])

@[simp] theorem report_shift (xs s : Bytes) (v : Verdict Config String) :
    report (xs ++ s) (v.shift xs.length) = report s v := by
  cases v with
  | stopped p q => simp [report, List.drop_length_add_append]
  | failed p msg => simp [report, Nat.add_assoc, List.drop_length_add_append]
  | pending q => rfl

theorem read_loop_nil (S : Sys) (alloc : Allocator) (lexer : Lexer) (depth : ℤ) (stack : Stack) :
    read.loop S alloc lexer depth stack [] = (atEnd lexer.phase, []) := by
  obtain ⟨state, n⟩ := lexer
  cases state <;> rw [read.loop] <;> rfl

/-- Behind the length of an atom the loop goes on with the atom on the stack. -/
theorem read_loop_atom {S : Sys} {alloc : Allocator} {lexer lexer' : Lexer} {c : UInt8} {count : ℤ}
    (h : lexer.feed S c = .ok (.atom count, lexer')) (depth : ℤ) (stack : Stack)
    (ic : InChannel) : read.loop S alloc lexer depth stack (c :: ic) =
      match reallyInputString S alloc count ic with
      | (.error e, ic) => (.error (.raised e), ic)
      | (.ok atom, ic) => read.loop S alloc lexer' depth (stack.addAtom atom) ic := by
  rw [read.loop, h]
  simp only
  generalize reallyInputString S alloc count ic = r
  rcases r with ⟨e | a, ic'⟩ <;> rfl

/-- A length that is still growing is not the end of a message. -/
theorem listReader_await {M : ℕ} {S : Sys} {t t' : Lexer} {c : UInt8}
    (h : t.feed S c = .ok (.other .await, t')) (stack : Stack) :
    (listReader M).stopped ⟨t'.phase, stack⟩ = false := by
  have hstate : t'.state = .parsingLength := by
    simp only [Lexer.feed] at h
    split at h <;> split_ifs at h <;> cases h
    · rfl
    · assumption
  apply (isReader_list M).not_stopped
  simp [Lexer.phase, hstate]

/-- A closing parenthesis ends the message exactly when the count of open
parentheses drops to zero. -/
theorem read_loop_rparen {S : Sys} {alloc : Allocator} {lexer lexer' : Lexer} {c : UInt8}
    (h : lexer.feed S c = .ok (.other .rparen, lexer')) {stack stack' : Stack}
    (hc : stack.closeParen = .ok stack') (ic : InChannel) :
    read.loop S alloc lexer stack.depth stack (c :: ic) =
      if stack'.depth = 0 then report ic (.stopped 0 ⟨.init, stack'⟩)
      else read.loop S alloc lexer' stack'.depth stack' ic := by
  have hadd : stack'.depth + 1 = stack.depth + 0 := Stack.depth_add (x := .rparen) hc
  have hdepth : (stack.depth : ℤ) - 1 = stack'.depth := by omega
  rw [read.loop, h]
  simp only [hc, hdepth]
  by_cases hzero : stack'.depth = 0
  · obtain ⟨xs, rfl⟩ := Stack.depth_eq_zero.mp hzero
    obtain ⟨ys, t, -, hys⟩ := Stack.closeParen_eq_ok hc
    rw [if_pos (by exact_mod_cast hzero), if_pos hzero]
    simp only [Stack.toList_pushAll_empty, report, Config.finish_eq_some.mpr rfl]
    cases xs with
    | nil => cases hys
    | cons x xs => rfl
  · rw [if_neg (by exact_mod_cast hzero), if_neg hzero]

/-- The loop computes the report of the reader, and its counter is the
number of parentheses open on the stack. -/
theorem read_loop_eq (P : Platform) {lexer : Lexer} (hb : lexer.Bounded P.toSys) {stack : Stack}
    (hq : (listReader P.maxStringLength).stopped ⟨lexer.phase, stack⟩ = false) (s : InChannel) :
    read.loop P.toSys .always lexer stack.depth stack s =
      report s ((listReader P.maxStringLength).scan ⟨lexer.phase, stack⟩ s) := by
  induction hk : s.length using Nat.strongRecOn generalizing s lexer stack with
  | ind k ih =>
      cases s with
      | nil =>
          rw [read_loop_nil, Scanner.scan_nil _ hq]
          rfl
      | cons c ic =>
          have hlt : ic.length < k := by
            rw [← hk]
            exact Nat.lt_succ_self _
          have hfeeds := Lexer.feeds P hb c
          have hstep := feed_matches_step P hb stack c
          cases hf : lexer.feed P.toSys c with
          | error e =>
              obtain ⟨msg, rfl⟩ := Lexer.feed_error _ hf
              rw [hf] at hstep
              generalize hc : step P.maxStringLength ⟨lexer.phase, stack⟩ c = v at hstep
              cases hstep
              rw [Scanner.scan_cons_error _ hq hc, read.loop, hf]
              rfl
          | ok r =>
              obtain ⟨tok, lexer'⟩ := r
              have hb' := Lexer.feed_bounded P hb hf
              rw [hf] at hstep hfeeds
              generalize hc : step P.maxStringLength ⟨lexer.phase, stack⟩ c = v at hstep
              cases hstep with
              | @stackError x t msg hx =>
                  cases x with
                  | await => cases hx
                  | lparen => cases hx
                  | rparen =>
                      have hclose : stack.closeParen = .error (.parseError msg) := hx
                      rw [Scanner.scan_cons_error _ hq hc, read.loop, hf]
                      simp only [hclose]
                      rfl
              | @other x t stack' hx =>
                  rw [Scanner.scan_cons_ok _ hq hc]
                  have hshift := report_shift [c] ic
                    ((listReader P.maxStringLength).scan ⟨lexer'.phase, stack'⟩ ic)
                  rw [List.singleton_append, List.length_singleton] at hshift
                  rw [hshift]
                  cases x with
                  | await =>
                      cases hx
                      rw [read.loop, hf]
                      exact ih _ hlt hb' (listReader_await hf stack) ic rfl
                  | lparen =>
                      cases hx
                      have hq' : (listReader P.maxStringLength).stopped
                          ⟨lexer'.phase, stack.openParen⟩ = false := by
                        cases hphase : lexer'.phase <;> rfl
                      rw [read.loop, hf]
                      exact_mod_cast ih _ hlt hb' hq' ic rfl
                  | rparen =>
                      rw [read_loop_rparen hf hx]
                      cases hfeeds with
                      | rparen n =>
                          obtain ⟨xs, t, -, rfl⟩ := Stack.closeParen_eq_ok hx
                          split
                          · rename_i hzero
                            rw [Scanner.scan_of_stopped _ (beq_iff_eq.mpr hzero)]
                            rfl
                          · rename_i hzero
                            have hq' : (listReader P.maxStringLength).stopped
                                ⟨.init, .sexp (.list xs) t⟩ = false :=
                              beq_eq_false_iff_ne.mpr hzero
                            exact ih _ hlt hb' hq' ic rfl
              | @atom n t hn ht =>
                  rw [read_loop_atom hf, reallyInputString_always hn]
                  by_cases hlen : ic.length < n
                  · have hscan := (isReader_list P.maxStringLength).scan_beginAtom_short hlen stack
                    rw [if_pos hlen, Scanner.scan_cons_ok _ hq hc, hscan]
                    rfl
                  · have halen : (ic.take n).length = n := List.length_take_of_le (not_lt.mp hlen)
                    have hreach := (isReader_list P.maxStringLength).reaches_token ht halen stack
                    have hq' : (listReader P.maxStringLength).stopped
                        ⟨lexer'.phase, stack.addAtom (ic.take n)⟩ = false := by
                      cases hphase : lexer'.phase <;> rfl
                    have hscan := (Scanner.Reaches.cons hq hc hreach).scan_append (ic.drop n)
                    have hsplit : c :: ic.take n ++ ic.drop n = c :: ic := by
                      rw [List.cons_append, List.take_append_drop]
                    have hshift := report_shift (c :: ic.take n) (ic.drop n)
                      ((listReader P.maxStringLength).scan
                        ⟨lexer'.phase, stack.addAtom (ic.take n)⟩ (ic.drop n))
                    rw [hsplit] at hscan hshift
                    rw [if_neg hlen, hscan, hshift]
                    refine ih _ ?_ hb' hq' (ic.drop n) rfl
                    rw [List.length_drop]
                    exact (Nat.sub_le _ _).trans_lt hlt

theorem read_eq (P : Platform) (b : Bytes) :
    read P.toSys .always b = report b ((listReader P.maxStringLength).scan .start b) := by
  have hq : (listReader P.maxStringLength).stopped ⟨Lexer.create.phase, .empty⟩ = false := rfl
  exact read_loop_eq P (Lexer.bounded_create _) hq b

end LwtClient

/-! ## Atoms in front of a list -/

theorem atoms_or_list (xs : List Sexp) : (∃ as : List Bytes, xs = as.map Sexp.atom) ∨
    ∃ (as : List Bytes) (l ys : List Sexp), xs = as.map Sexp.atom ++ .list l :: ys := by
  induction xs with
  | nil => exact Or.inl ⟨[], rfl⟩
  | cons x xs ih =>
      cases x with
      | list l => exact Or.inr ⟨[], l, xs, rfl⟩
      | atom a =>
          rcases ih with ⟨as, rfl⟩ | ⟨as, l, ys, rfl⟩
          · exact Or.inl ⟨a :: as, rfl⟩
          · exact Or.inr ⟨a :: as, l, ys, rfl⟩

theorem atoms_ne_list {as bs : List Bytes} {l : List Sexp} {xs : List Sexp} :
    as.map Sexp.atom ≠ bs.map Sexp.atom ++ .list l :: xs := by
  intro h
  have hmem : Sexp.list l ∈ as.map Sexp.atom := by simp [h]
  simp at hmem

theorem atoms_list_inj {as bs : List Bytes} {l m : List Sexp} {xs ys : List Sexp}
    (h : as.map Sexp.atom ++ .list l :: xs = bs.map Sexp.atom ++ .list m :: ys) :
    as = bs ∧ l = m ∧ xs = ys := by
  induction as generalizing bs with
  | nil =>
      cases bs with
      | nil => simpa using h
      | cons b bs => simp at h
  | cons a as ih =>
      cases bs with
      | nil => simp at h
      | cons b bs =>
          simp only [List.map_cons, List.cons_append, List.cons.injEq, Sexp.atom.injEq] at h
          obtain ⟨rfl, h⟩ := h
          obtain ⟨rfl, hl, hxs⟩ := ih h
          exact ⟨rfl, hl, hxs⟩

section Grammar

variable {M : ℕ}

theorem DerivesMany.split {s : Bytes} {xs ys : List Sexp} (h : DerivesMany M s (xs ++ ys)) :
    ∃ s₁ s₂, s = s₁ ++ s₂ ∧ DerivesMany M s₁ xs ∧ DerivesMany M s₂ ys := by
  induction xs generalizing s with
  | nil => exact ⟨[], s, rfl, .nil, h⟩
  | cons x xs ih =>
      cases h with
      | @cons s t _ _ hx ht =>
          obtain ⟨s₁, s₂, rfl, hxs, hys⟩ := ih ht
          exact ⟨s ++ s₁, s₂, (List.append_assoc ..).symm, .cons hx hxs, hys⟩

/-- Where the list reader stops inside a derivation, the rest derives the
rest. -/
theorem derivesMany_drop_of_stopped (hnine : 9 ≤ M) {s : Bytes} {xs ys : List Sexp} {p : ℕ}
    (h : DerivesMany M s xs)
    (hscan : (listReader M).scan .start s = .stopped p ⟨.init, .pushAll ys .empty⟩) :
    ∃ zs, xs = ys ++ zs ∧ DerivesMany M (s.drop p) zs := by
  have hmany := (scan_many_iff hnine).mpr h
  have hrest : (manyReader M).scan .start s =
      ((manyReader M).scan ⟨.init, .pushAll ys .empty⟩ (s.drop p)).shift p :=
    (listReader M).endless_of_stopped hscan
  have honto : Config.mk .init (.pushAll ys .empty) = Config.start.onto ys := rfl
  rw [hmany, honto, scan_many_onto] at hrest
  rcases scan_many_cases M .start (s.drop p) with ⟨p', e, hf⟩ | ⟨r, hr⟩
  · rw [hf] at hrest
    cases hrest
  · rw [hr, Verdict.map_pending, Verdict.shift_pending, Verdict.pending.injEq] at hrest
    have hfinish := congrArg Config.finish hrest
    rw [Config.finish_onto, Config.finish_eq_some.mpr rfl] at hfinish
    obtain ⟨zs, hzs, hsplit⟩ := Option.map_eq_some_iff.mp hfinish.symm
    rw [Config.finish_eq_some.mp hzs] at hr
    exact ⟨zs, hsplit.symm, (scan_many_iff hnine).mp hr⟩

/-- The list reader stops behind the first list of a derivation. -/
theorem scan_list_of_derives (hnine : 9 ≤ M) {s : Bytes} {as : List Bytes} {l : List Sexp}
    (h : DerivesMany M s (as.map .atom ++ [.list l])) (t : Bytes) :
    (listReader M).scan .start (s ++ t) =
      .stopped s.length ⟨.init, .pushAll (as.map .atom ++ [.list l]) .empty⟩ := by
  have hmany := (scan_many_iff hnine).mpr h
  cases hlist : (listReader M).scan .start s with
  | failed p e =>
      have hf : (manyReader M).scan .start s = .failed p e :=
        (listReader M).endless_of_failed hlist
      rw [hmany] at hf
      cases hf
  | pending q =>
      have hp : (manyReader M).scan .start s = .pending q :=
        (listReader M).endless_of_pending hlist
      rw [hmany, Verdict.pending.injEq] at hp
      have hs := (Scanner.reaches_of_pending _ hlist).2
      rw [← hp, listReader_stopped_iff.mpr ⟨_, _, rfl⟩] at hs
      cases hs
  | stopped p q =>
      obtain ⟨hp, ht, hs⟩ := Scanner.reaches_of_stopped _ hlist
      obtain ⟨ys, l', rfl⟩ := listReader_stopped_iff.mp hs
      obtain ⟨zs, hsplit, hzs⟩ := derivesMany_drop_of_stopped hnine h hlist
      rw [List.append_assoc, List.singleton_append] at hsplit
      rcases atoms_or_list ys with ⟨bs, rfl⟩ | ⟨bs, m, ws, rfl⟩
      · obtain ⟨rfl, rfl, rfl⟩ := atoms_list_inj hsplit
        have hnil := derivesMany_nil hzs
        have hlen : p = s.length := le_antisymm hp (List.drop_eq_nil_iff.mp hnil)
        rw [hlen, List.take_length] at ht
        exact ht.scan_stopped hs t
      · rw [List.append_assoc, List.cons_append] at hsplit
        have hws := (atoms_list_inj hsplit).2.2
        simp at hws

/-- The list reader has consumed a derivation of atoms and one list. -/
theorem derives_of_list_stopped (hnine : 9 ≤ M) {b : Bytes} {p : ℕ} {q : Config}
    (h : (listReader M).scan .start b = .stopped p q) :
    ∃ (as : List Bytes) (l : List Sexp), q = ⟨.init, .pushAll (as.map .atom ++ [.list l]) .empty⟩ ∧
      DerivesMany M (b.take p) (as.map .atom ++ [.list l]) := by
  obtain ⟨hp, hr, hs⟩ := Scanner.reaches_of_stopped _ h
  obtain ⟨ys, l, rfl⟩ := listReader_stopped_iff.mp hs
  have hd := derivesMany_of_spells (spells_of_reaches (isReader_list M) hnine hr)
  rcases atoms_or_list ys with ⟨as, rfl⟩ | ⟨as, m, zs, rfl⟩
  · exact ⟨as, l, rfl, hd⟩
  · -- it would have stopped at the first list already
    rw [List.append_assoc, List.cons_append, List.append_cons] at hd
    obtain ⟨s₁, s₂, hsplit, hfirst, -⟩ := hd.split
    have hscan := scan_list_of_derives hnine hfirst (s₂ ++ b.drop p)
    rw [← List.append_assoc, ← hsplit, List.take_append_drop, h, Verdict.stopped.injEq] at hscan
    have hfinish := congrArg Config.finish hscan.2
    rw [Config.finish_eq_some.mpr rfl, Config.finish_eq_some.mpr rfl] at hfinish
    simp at hfinish

theorem StackSpells.reaches {s : Bytes} {t : Stack} (h : StackSpells M s t) :
    (manyReader M).Reaches .start s ⟨.init, t⟩ := by
  induction h with
  | empty => exact .nil _
  | opened _ ih => exact ih.append ((isReader_many M).reaches_lparen rfl)
  | sexp _ hx ih => exact ih.append (hx.reaches _)

end Grammar

namespace LwtClient

section Results

variable {P : Platform} {b r : Bytes} {x : Sexp}

theorem atEnd_ne_some (phase : Phase) (x : Sexp) : atEnd phase ≠ .ok (some x) := by
  cases phase <;> simp [atEnd]

theorem read_eq_some_iff : read P.toSys .always b = (.ok (some x), r) ↔
    ∃ (s : Bytes) (as : List Bytes) (l : List Sexp), b = s ++ r ∧
      DerivesMany P.maxStringLength s (as.map .atom ++ [.list l]) ∧
      (as.map Sexp.atom ++ [Sexp.list l]).head? = some x := by
  rw [read_eq]
  constructor
  · intro h
    cases hscan : (listReader P.maxStringLength).scan .start b with
    | failed p msg =>
        rw [hscan] at h
        cases h
    | pending q =>
        rw [hscan, report, Prod.mk.injEq] at h
        exact absurd h.1 (atEnd_ne_some _ _)
    | stopped p q =>
        obtain ⟨as, l, rfl, hd⟩ := derives_of_list_stopped P.nine_le_maxStringLength hscan
        rw [hscan, report, Config.finish_eq_some.mpr rfl, Prod.mk.injEq] at h
        obtain ⟨hx, rfl⟩ := h
        exact ⟨b.take p, as, l, (List.take_append_drop p b).symm, hd, Except.ok.inj hx⟩
  · rintro ⟨s, as, l, rfl, hd, hx⟩
    rw [scan_list_of_derives P.nine_le_maxStringLength hd, report,
      Config.finish_eq_some.mpr rfl, List.drop_left]
    exact congrArg (fun v => (Except.ok v, r)) hx

/-- No message is in the channel when it ends between two tokens, and no
list in it is complete. -/
theorem read_eq_none_iff : read P.toSys .always b = (.ok none, r) ↔
    r = [] ∧ (∃ t, StackSpells P.maxStringLength b t) ∧
      ∀ (s t : Bytes) (as : List Bytes) (l : List Sexp), b = s ++ t →
        ¬ DerivesMany P.maxStringLength s (as.map .atom ++ [.list l]) := by
  rw [read_eq]
  constructor
  · intro h
    cases hscan : (listReader P.maxStringLength).scan .start b with
    | failed p msg =>
        rw [hscan] at h
        cases h
    | stopped p q =>
        obtain ⟨as, l, rfl, -⟩ := derives_of_list_stopped P.nine_le_maxStringLength hscan
        rw [hscan, report, Config.finish_eq_some.mpr rfl] at h
        cases as <;> cases h
    | pending q =>
        rw [hscan] at h
        obtain ⟨phase, t⟩ := q
        cases phase with
        | length n => cases h
        | atom m got => cases h
        | init =>
            obtain rfl : [] = r := congrArg Prod.snd h
            have hspell := spells_of_reaches (isReader_list _) P.nine_le_maxStringLength
              (Scanner.reaches_of_pending _ hscan).1
            refine ⟨rfl, ?_, ?_⟩
            · cases hspell with
              | init hs => exact ⟨t, hs⟩
            · intro s' t' as l hb hd
              rw [hb, scan_list_of_derives P.nine_le_maxStringLength hd] at hscan
              cases hscan
  · rintro ⟨rfl, ⟨t, ht⟩, hno⟩
    have hmany := ht.reaches.scan_pending (manyReader_stopped _ _)
    cases hscan : (listReader P.maxStringLength).scan .start b with
    | failed p msg =>
        have hf : (manyReader P.maxStringLength).scan .start b = .failed p msg :=
          (listReader P.maxStringLength).endless_of_failed hscan
        rw [hmany] at hf
        cases hf
    | stopped p q =>
        obtain ⟨as, l, -, hd⟩ := derives_of_list_stopped P.nine_le_maxStringLength hscan
        exact absurd hd (hno _ _ as l (List.take_append_drop p b).symm)
    | pending q =>
        have hp : (manyReader P.maxStringLength).scan .start b = .pending q :=
          (listReader P.maxStringLength).endless_of_pending hscan
        rw [hmany, Verdict.pending.injEq] at hp
        rw [← hp]
        rfl

theorem read_error {e : Rejection} (h : (read P.toSys .always b).1 = .error e) :
    (∃ msg, e = .raised (.parseError msg)) ∨ e = .raised .endOfFile := by
  rw [read_eq] at h
  cases hscan : (listReader P.maxStringLength).scan .start b with
  | failed p msg =>
      rw [hscan] at h
      exact Or.inl ⟨msg, (Except.error.inj h).symm⟩
  | stopped p q =>
      rw [hscan] at h
      cases h
  | pending q =>
      rw [hscan] at h
      obtain ⟨phase, t⟩ := q
      cases phase with
      | init => cases h
      | length n => exact Or.inl ⟨_, (Except.error.inj h).symm⟩
      | atom m got => exact Or.inr (Except.error.inj h).symm

theorem inputOpt_eq_some_iff : inputOpt P.toSys .always b = (.ok (.ok (some x)), r) ↔
    ∃ s, b = s ++ r ∧ Derives P.maxStringLength s x := by
  constructor
  · intro h
    have hb : b ≠ [] := by
      rintro rfl
      cases h
    obtain ⟨p, res, hopt, hinput⟩ := inputOpt_input P hb
    rw [hopt.2, Prod.mk.injEq] at h
    obtain ⟨hres, rfl⟩ := h
    have hx : res = .ok x := by
      cases res with
      | error msg => cases hres
      | ok y =>
          cases hres
          rfl
    rw [hx] at hinput
    have hd := derives_of_stopped P.nine_le_maxStringLength (input_ok_iff_stopped.mp hinput)
    exact ⟨b.take p, (List.take_append_drop p b).symm, hd⟩
  · rintro ⟨s, rfl, hd⟩
    have hscan := scan_one_of_derives P.nine_le_maxStringLength hd r
    have hres := (inputOpt_of_stopped hscan).2
    rwa [List.drop_left] at hres

end Results

/-- What `read` answers on every channel: a message, the orderly end, or an
exception of the parser. A list is read as `input_opt` reads it; an atom is
read together with everything up to the end of the next list. -/
theorem read_spec (P : Platform) (b r : Bytes) :
    (∀ x, read P.toSys .always b = (.ok (some x), r) ↔
      ∃ (s : Bytes) (as : List Bytes) (l : List Sexp), b = s ++ r ∧
        DerivesMany P.maxStringLength s (as.map .atom ++ [.list l]) ∧
        (as.map Sexp.atom ++ [Sexp.list l]).head? = some x) ∧
    (read P.toSys .always b = (.ok none, r) ↔
      r = [] ∧ (∃ t, StackSpells P.maxStringLength b t) ∧
        ∀ (s t : Bytes) (as : List Bytes) (l : List Sexp), b = s ++ t →
          ¬ DerivesMany P.maxStringLength s (as.map .atom ++ [.list l])) ∧
    (∀ e, (read P.toSys .always b).1 = .error e →
      (∃ msg, e = .raised (.parseError msg)) ∨ e = .raised .endOfFile) ∧
    (∀ l, read P.toSys .always b = (.ok (some (.list l)), r) ↔
      inputOpt P.toSys .always b = (.ok (.ok (some (.list l))), r)) ∧
    ∀ a, read P.toSys .always b = (.ok (some (.atom a)), r) ↔
      ∃ r' x, inputOpt P.toSys .always b = (.ok (.ok (some (.atom a))), r') ∧
        read P.toSys .always r' = (.ok (some x), r) := by
  refine ⟨fun x => read_eq_some_iff, read_eq_none_iff, fun e => read_error, fun l => ?_,
    fun a => ?_⟩
  · rw [read_eq_some_iff, inputOpt_eq_some_iff]
    constructor
    · rintro ⟨s, as, l', hb, hd, hx⟩
      cases as with
      | nil =>
          cases hx
          exact ⟨s, hb, derivesMany_singleton.mp hd⟩
      | cons a as => cases hx
    · rintro ⟨s, hb, hd⟩
      exact ⟨s, [], l, hb, derivesMany_singleton.mpr hd, rfl⟩
  · constructor
    · intro h
      obtain ⟨s, as, l, rfl, hd, hx⟩ := read_eq_some_iff.mp h
      cases as with
      | nil => cases hx
      | cons a' as =>
          cases hx
          cases hd with
          | @cons s₁ s₂ _ _ ha hrest =>
              obtain ⟨x, hx⟩ : ∃ x, (as.map Sexp.atom ++ [Sexp.list l]).head? = some x := by
                cases as <;> exact ⟨_, rfl⟩
              exact ⟨s₂ ++ r, x, inputOpt_eq_some_iff.mpr ⟨s₁, List.append_assoc .., ha⟩,
                read_eq_some_iff.mpr ⟨s₂, as, l, rfl, hrest, hx⟩⟩
    · rintro ⟨r', x, hopt, hread⟩
      obtain ⟨s₁, rfl, ha⟩ := inputOpt_eq_some_iff.mp hopt
      obtain ⟨s₂, as, l, rfl, hrest, -⟩ := read_eq_some_iff.mp hread
      exact read_eq_some_iff.mpr
        ⟨s₁ ++ s₂, a :: as, l, (List.append_assoc ..).symm, .cons ha hrest, rfl⟩

/-! ## Messages -/

/-- The messages that arrive when the messages `xs` are sent: of the atoms
sent in front of a list only the first arrives, in place of the list. -/
def delivered.go (first : Option Sexp) : List Sexp → List Sexp
  | [] => []
  | .list l :: xs => first.getD (.list l) :: delivered.go none xs
  | .atom a :: xs => delivered.go (some (first.getD (.atom a))) xs

def delivered (xs : List Sexp) : List Sexp := delivered.go none xs

theorem delivered_go_atoms (first : Option Sexp) (as : List Bytes) :
    delivered.go first (as.map .atom) = [] := by
  induction as generalizing first with
  | nil => rfl
  | cons a as ih => exact ih _

theorem delivered_go_list (first : Option Sexp) (as : List Bytes) (l xs : List Sexp) :
    delivered.go first (as.map .atom ++ .list l :: xs) =
      first.getD ((as.map Sexp.atom).headD (.list l)) :: delivered xs := by
  induction as generalizing first with
  | nil => rfl
  | cons a as ih => exact ih _

def isList : Sexp → Bool
  | .list _ => true
  | .atom _ => false

theorem length_delivered_go (first : Option Sexp) (xs : List Sexp) :
    (delivered.go first xs).length = xs.countP isList := by
  induction xs generalizing first with
  | nil => rfl
  | cons x xs ih =>
      cases x with
      | list l => rw [delivered.go, List.length_cons, ih, List.countP_cons_of_pos rfl]
      | atom a => rw [delivered.go, ih, List.countP_cons_of_neg (by simp [isList])]

/-- Nothing is lost exactly if all messages are lists. -/
theorem delivered_eq_self_iff {xs : List Sexp} :
    delivered xs = xs ↔ ∀ x ∈ xs, isList x = true := by
  constructor
  · intro h
    have hlen := length_delivered_go none xs
    rw [← delivered, h] at hlen
    exact List.countP_eq_length.mp hlen.symm
  · intro h
    induction xs with
    | nil => rfl
    | cons x xs ih =>
        cases x with
        | atom a => cases h (.atom a) List.mem_cons_self
        | list l =>
            have hxs := ih fun y hy => h y (List.mem_cons_of_mem _ hy)
            rw [delivered, delivered.go, ← delivered, hxs]
            rfl

/-- The messages read from a channel until `read` answers `None`. -/
inductive Received (S : Sys) : InChannel → List Sexp → Prop where
  | done {ic ic' : InChannel} (h : read S .always ic = (.ok none, ic')) : Received S ic []
  | next {ic ic' : InChannel} {x : Sexp} {xs : List Sexp}
      (h : read S .always ic = (.ok (some x), ic')) (ht : Received S ic' xs) :
      Received S ic (x :: xs)

structure Output where
  channel : OutChannel
  closed : Bool

def Output.create : Output := { channel := ⟨[]⟩, closed := false }

def write (o : Output) : Option (List Sexp) → Output
  | none => { o with closed := true }
  | some csexps =>
    { o with channel := csexps.foldl (fun oc sexp => oc.outputString (toString sexp)) o.channel }

theorem write_some (o : Output) (xs : List Sexp) :
    (write o (some xs)).channel.written = o.channel.written ++ xs.flatMap toString := by
  obtain ⟨oc, closed⟩ := o
  simp only [write]
  induction xs generalizing oc with
  | nil => simp
  | cons x xs ih =>
      rw [List.foldl_cons, ih, OutChannel.outputString, List.flatMap_cons, List.append_assoc]

theorem stackSpells_of_derivesMany (P : Platform) {s : Bytes} {xs : List Sexp}
    (h : DerivesMany P.maxStringLength s xs) :
    StackSpells P.maxStringLength s (.pushAll xs .empty) := by
  have hscan := (scan_many_iff P.nine_le_maxStringLength).mpr h
  have hspell := spells_of_reaches (isReader_many _) P.nine_le_maxStringLength
    (Scanner.reaches_of_pending _ hscan).1
  cases hspell with
  | init hs => exact hs

theorem received_atoms (P : Platform) {as : List Bytes}
    (has : ∀ x ∈ as.map Sexp.atom, x.Fits P.toSys) :
    Received P.toSys ((as.map Sexp.atom).flatMap toString) [] := by
  have hd := derivesMany_toString has
  refine .done (read_eq_none_iff.mpr ⟨rfl, ⟨_, stackSpells_of_derivesMany P hd⟩, ?_⟩)
  intro s t bs l hb hs
  rw [hb] at hd
  obtain ⟨zs, hzs, -⟩ := derivesMany_drop_of_stopped P.nine_le_maxStringLength hd
    (scan_list_of_derives P.nine_le_maxStringLength hs t)
  rw [List.append_assoc, List.singleton_append] at hzs
  exact atoms_ne_list hzs

theorem received_delivered (P : Platform) {xs : List Sexp} (hxs : ∀ x ∈ xs, x.Fits P.toSys) :
    Received P.toSys (xs.flatMap toString) (delivered xs) := by
  induction hk : xs.length using Nat.strongRecOn generalizing xs with
  | ind k ih =>
      rcases atoms_or_list xs with ⟨as, rfl⟩ | ⟨as, l, ys, rfl⟩
      · rw [delivered, delivered_go_atoms]
        exact received_atoms P hxs
      · rw [List.append_cons] at hxs
        have hfirst := derivesMany_toString fun x hx => hxs x (List.mem_append_left _ hx)
        have hys := fun x hx => hxs x (List.mem_append_right _ hx)
        rw [delivered, delivered_go_list, List.append_cons, List.flatMap_append]
        refine .next (read_eq_some_iff.mpr ⟨_, as, l, rfl, hfirst, ?_⟩) (ih _ ?_ hys rfl)
        · cases as <;> rfl
        · rw [← hk, List.length_append, List.length_cons]
          omega

theorem Received.unique {S : Sys} {ic : InChannel} {xs ys : List Sexp} (h : Received S ic xs)
    (h' : Received S ic ys) : xs = ys := by
  induction h generalizing ys with
  | done hr =>
      cases h' with
      | done _ => rfl
      | next hr' _ => simp [hr] at hr'
  | next hr _ ih =>
      cases h' with
      | done hr' => simp [hr] at hr'
      | next hr' ht' =>
          rw [hr, Prod.mk.injEq] at hr'
          obtain ⟨hx, rfl⟩ := hr'
          cases hx
          rw [ih ht']

/-- What the client reads of the messages written to a channel: all of them
exactly if each of them is a list. -/
theorem messages_delivered (P : Platform) (xs : List Sexp) (hxs : ∀ x ∈ xs, x.Fits P.toSys) :
    let stream := (write Output.create (some xs)).channel.written
    (∀ ys, Received P.toSys stream ys ↔ ys = delivered xs) ∧
      (Received P.toSys stream xs ↔ ∀ x ∈ xs, isList x = true) := by
  intro stream
  have hread := received_delivered P hxs
  have hiff : ∀ ys, Received P.toSys stream ys ↔ ys = delivered xs := by
    intro ys
    have hstream : stream = xs.flatMap toString := write_some Output.create xs
    rw [hstream]
    constructor
    · intro h
      exact h.unique hread
    · rintro rfl
      exact hread
  refine ⟨hiff, ?_⟩
  rw [hiff, ← delivered_eq_self_iff]
  exact eq_comm

/-- An atom takes the place of the list behind it. -/
theorem messages_delivered_sample :
    let xs : List Sexp := [.list [], .atom [':'.toUInt8], .list [.atom []]]
    Received Platform.native64.toSys (write Output.create (some xs)).channel.written
      [.list [], .atom [':'.toUInt8]] := by
  intro xs
  have hxs : ∀ x ∈ xs, x.Fits Platform.native64.toSys := by
    simp only [xs, List.forall_mem_cons, List.not_mem_nil, false_imp_iff, implies_true, and_true]
    refine ⟨.list (by simp), .atom (by norm_num [Platform.native64]), .list fun y hy => ?_⟩
    rw [List.mem_singleton.mp hy]
    exact .atom (Nat.zero_le _)
  exact ((messages_delivered _ xs hxs).1 _).mpr rfl

end LwtClient

end Csexp
