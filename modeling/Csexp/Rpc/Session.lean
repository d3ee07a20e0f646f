import Csexp.Rpc.LwtClient
import Csexp.Library.Systems
import Mathlib.Logic.Function.Basic

/-!
# Sessions

The two ends of a connection, each of which writes from a thread of its own
and reads from another. A write that fails in the middle, or is cut off by
closing the session, leaves a part of a message on the wire; a session that
is closed reads no more.
-/

namespace Csexp.Session

open Incremental

/-! ## Reading -/

/-- What happens while `Csexp.input_opt` reads from the channel: it answers,
or the system call raises `Unix_error` or `Sys_error`. -/
inductive Reading where
  | answered (r : Eval (Result (Option Sexp) String))
  | systemError

/-- The task of the reading thread. -/
def Reading.task : Reading → Eval (Option Sexp)
  | .systemError => .ok none
  | .answered (.error e) => .error e
  | .answered (.ok (.ok none)) => .ok none
  | .answered (.ok (.ok (some csexp))) => .ok (some csexp)
  | .answered (.ok (.error _)) => .ok none

/-- The answer of `read` once the task is done, and whether it closes the
session. A worker that has been stopped is not asked: its session is closed. -/
def read (res : Eval (Option Sexp)) : Option Sexp × Bool :=
  match res with
  | .error _ => (none, true)
  | .ok none => (none, true)
  | .ok (some sexp) => (some sexp, false)

/-- What may happen on a channel with the contents `ic`: an answer that the
bytes to come cannot change, or, once the stream has ended, any other. Nothing
can be read from a channel after a system call on it has failed. -/
inductive Reads (P : Platform) (ended broken : Prop) (ic : InChannel) :
    Reading → InChannel → Prop where
  | settled {r : Eval (Result (Option Sexp) String)} {ic' : InChannel}
      (h : ∀ more, inputOpt P.toSys .always (ic ++ more) = (r, ic' ++ more)) :
      Reads P ended broken ic (.answered r) ic'
  | ended (h : ended) :
      Reads P ended broken ic (.answered (inputOpt P.toSys .always ic).1)
        (inputOpt P.toSys .always ic).2
  | systemError (he : ended) (hb : broken) : Reads P ended broken ic .systemError []

/-! ## Connections -/

/-- The way from one end to the other. The session of the end that writes is
open or not. A job of the writing thread is the rest of the expressions it
still has to write, and `tasks` counts the reads that the reading thread of
the other end has been given and not answered; `accepted` and `received`
keep what has been given to `write` and returned by `read`. The descriptor
of a `broken` direction takes no more bytes: a system call on it has failed,
or it was closed with a channel that could not be flushed. -/
structure Direction where
  isOpen : Bool
  accepted : List Sexp
  jobs : List (List Sexp)
  outChannel : OutChannel
  broken : Bool
  flight : Bytes
  inChannel : InChannel
  tasks : ℕ
  received : List Sexp

namespace Direction

def create : Direction where
  isOpen := true
  accepted := []
  jobs := []
  outChannel := ⟨[]⟩
  broken := false
  flight := []
  inChannel := []
  tasks := 0
  received := []

/-- `close` flushes the channel; if that fails, what is left in it is lost. -/
def close (d : Direction) : Direction :=
  match d.isOpen with
  | false => d
  | true => { d with isOpen := false, broken := d.broken || !d.outChannel.written.isEmpty }

/-- The reader finds the end of the stream. -/
def Ended (d : Direction) : Prop := (d.isOpen = false ∨ d.broken = true) ∧ d.flight = []

/-- The steps of the writing end and of the network. -/
inductive Step (P : Platform) (d : Direction) : Direction → Prop where
  | write (sexps : List Sexp) (hopen : d.isOpen = true) (hfits : ∀ x ∈ sexps, x.Fits P.toSys) :
      Step P d { d with accepted := d.accepted ++ sexps, jobs := d.jobs ++ [sexps] }
  -- the writing thread
  | toChannel (x : Sexp) (job : List Sexp) (jobs : List (List Sexp)) (hopen : d.isOpen = true)
      (hbroken : d.broken = false) (hjobs : d.jobs = (x :: job) :: jobs) :
      Step P d { d with jobs := job :: jobs, outChannel := toChannel d.outChannel x }
  | flush (n : ℕ) (hopen : d.isOpen = true) (hbroken : d.broken = false) :
      Step P d { d with
        outChannel := ⟨d.outChannel.written.drop n⟩
        flight := d.flight ++ d.outChannel.written.take n }
  | done (jobs : List (List Sexp)) (hjobs : d.jobs = [] :: jobs)
      (hflushed : d.outChannel.written = []) : Step P d { d with jobs := jobs }
  | fail (job : List Sexp) (jobs : List (List Sexp)) (hjobs : d.jobs = job :: jobs) :
      Step P d { d with jobs := jobs, broken := true }
  | close : Step P d d.close
  -- the network
  | deliver (n : ℕ) :
      Step P d { d with flight := d.flight.drop n, inChannel := d.inChannel ++ d.flight.take n }
  | lose : Step P d { d with flight := [], broken := true }

end Direction

inductive Side where
  | left
  | right
  deriving DecidableEq

def Side.other : Side → Side
  | .left => .right
  | .right => .left

/-- The direction in which each end writes. -/
abbrev Connection := Side → Direction

namespace Connection

def create : Connection := fun _ => .create

/-- The other end of the direction `s` gets the result of its reading task. -/
def answer (c : Connection) (s : Side) (res : Eval (Option Sexp)) (ic : InChannel) : Connection :=
  let (sexp, closes) := read res
  let c := Function.update c s { c s with
    inChannel := ic, tasks := (c s).tasks - 1, received := (c s).received ++ sexp.toList }
  if closes then Function.update c s.other (c s.other).close else c

/-- What `read` may answer at the other end of the direction `s`: a session
that is closed answers at once, and the tasks that its channel still had are
cut off, unless they have read enough before. -/
inductive Answers (P : Platform) (c : Connection) (s : Side) : Option Sexp → Connection → Prop where
  | closed (hclosed : (c s.other).isOpen = false) : Answers P c s none c
  | cut (hclosed : (c s.other).isOpen = false) (htasks : 0 < (c s).tasks) :
      Answers P c s none (Function.update c s { c s with tasks := 0 })
  | done {r : Reading} {ic : InChannel} (htasks : 0 < (c s).tasks)
      (h : Reads P (c s).Ended ((c s).broken = true) (c s).inChannel r ic) :
      Answers P c s (read r.task).1 (c.answer s r.task ic)

inductive Step (P : Platform) (c : Connection) : Connection → Prop where
  | write (s : Side) {d : Direction} (h : (c s).Step P d) : Step P c (Function.update c s d)
  | task (s : Side) (hopen : (c s.other).isOpen = true) :
      Step P c (Function.update c s { c s with tasks := (c s).tasks + 1 })
  | read (s : Side) {x : Option Sexp} {c' : Connection} (h : Answers P c s x c') : Step P c c'

def system (P : Platform) : System Connection where
  init c := c = create
  step := Step P

end Connection

/-! ## What a channel can answer -/

section Answers

variable {P : Platform}

theorem inputOpt_brackets (P : Platform) (r : Bytes) :
    inputOpt P.toSys .always (toString (.list []) ++ r) = (.ok (.ok (some (.list []))), r) :=
  inputOpt_toString (.list (by simp)) r

/-- An answer that the bytes to come cannot change is the message in front. -/
theorem reads_settled {ic ic' rest : Bytes} {xs : List Sexp}
    {r : Eval (Result (Option Sexp) String)} (hxs : ∀ x ∈ xs, x.Fits P.toSys)
    (hic : ic ++ rest = xs.flatMap toString)
    (h : ∀ more, inputOpt P.toSys .always (ic ++ more) = (r, ic' ++ more)) :
    ∃ x xs', xs = x :: xs' ∧ r = .ok (.ok (some x)) ∧ ic = toString x ++ ic' := by
  cases xs with
  | nil =>
      obtain ⟨rfl, -⟩ := List.append_eq_nil_iff.mp hic
      have hnil := h []
      have hbrackets := h (toString (.list []) ++ [])
      rw [List.nil_append, inputOpt_brackets] at hbrackets
      rw [List.nil_append, inputOpt_nil, Prod.mk.injEq] at hnil
      rw [← hnil.1] at hbrackets
      cases hbrackets
  | cons x xs =>
      have hx := h rest
      have hread := inputOpt_toString (hxs x List.mem_cons_self) (xs.flatMap toString)
      rw [List.flatMap_cons] at hic
      rw [hic, hread, Prod.mk.injEq] at hx
      obtain ⟨rfl, hrest⟩ := hx
      refine ⟨x, xs, rfl, rfl, ?_⟩
      rw [hrest, ← List.append_assoc] at hic
      exact List.append_cancel_right hic

/-- A channel with a part of what was written to it never makes the parser
fail on a byte: the answer is the message in front, or the end. -/
theorem inputOpt_prefix {ic rest : Bytes} {xs : List Sexp} (hxs : ∀ x ∈ xs, x.Fits P.toSys)
    (hic : ic ++ rest = xs.flatMap toString) :
    (∃ x xs' ic', xs = x :: xs' ∧ ic = toString x ++ ic' ∧
      inputOpt P.toSys .always ic = (.ok (.ok (some x)), ic')) ∨
    (inputOpt P.toSys .always ic = (.ok (.ok none), []) ∧ ic = []) ∨
    (inputOpt P.toSys .always ic = (.ok (.error prematureEndOfInput), []) ∧ ic ≠ []) := by
  by_cases hne : ic = []
  · subst hne
    exact Or.inr (Or.inl ⟨inputOpt_nil _ _, rfl⟩)
  cases xs with
  | nil => exact absurd (List.append_eq_nil_iff.mp hic).1 hne
  | cons x xs =>
      have hx := hxs x List.mem_cons_self
      rw [List.flatMap_cons] at hic
      by_cases hlen : (toString x).length ≤ ic.length
      · have hpre : ic <+: toString x ++ xs.flatMap toString := ⟨rest, hic⟩
        obtain ⟨ic', rfl⟩ := List.prefix_of_prefix_length_le (List.prefix_append ..) hpre hlen
        exact Or.inl ⟨x, xs, ic', rfl, rfl, inputOpt_toString hx ic'⟩
      · right
        right
        refine ⟨?_, hne⟩
        have hscan := scan_toString hx (xs.flatMap toString)
        rw [← hic] at hscan
        cases hv : (oneReader P.maxStringLength).scan .start ic with
        | pending q =>
            have hpend := (inputOpt_of_pending hne hv).2
            rwa [List.drop_length] at hpend
        | stopped p q =>
            have hstop := Scanner.scan_take_of_stopped _ hv (ic.drop p ++ rest)
            rw [← List.append_assoc, List.take_append_drop, hscan, Verdict.stopped.injEq] at hstop
            have hp := (Scanner.reaches_of_stopped _ hv).1
            omega
        | failed p msg =>
            have hfail := Scanner.scan_take_of_failed _ hv (ic.drop (p + 1) ++ rest)
            rw [← List.append_assoc, List.take_append_drop, hscan] at hfail
            cases hfail

end Answers

/-! ## Nothing is lost, repeated or reordered -/

namespace Direction

structure Inv (P : Platform) (d : Direction) : Prop where
  fits : ∀ x ∈ d.accepted, x.Fits P.toSys
  rest : ∃ rest, d.accepted = d.received ++ rest ∧
    d.inChannel ++ d.flight <+: rest.flatMap toString
  whole : d.broken = false → ∃ sent, d.accepted = d.received ++ sent ++ d.jobs.flatten ∧
    sent.flatMap toString = d.inChannel ++ d.flight ++ d.outChannel.written
  flushed : d.isOpen = false → d.broken = false → d.outChannel.written = []

variable {P : Platform} {d d' : Direction}

theorem inv_create : create.Inv P where
  fits := by simp [create]
  rest := ⟨[], rfl, List.prefix_rfl⟩
  whole _ := ⟨[], rfl, rfl⟩
  flushed h := by cases h

theorem Inv.tasks (hd : d.Inv P) (n : ℕ) : Inv P { d with tasks := n } :=
  ⟨hd.fits, hd.rest, hd.whole, hd.flushed⟩

theorem Inv.close (hd : d.Inv P) : d.close.Inv P := by
  unfold Direction.close
  split
  · exact hd
  · refine ⟨hd.fits, hd.rest, fun hb => hd.whole (Bool.or_eq_false_iff.mp hb).1, fun _ hb => ?_⟩
    have h := (Bool.or_eq_false_iff.mp hb).2
    rw [Bool.not_eq_false', List.isEmpty_iff] at h
    exact h

theorem Inv.step (hd : d.Inv P) (h : d.Step P d') : d'.Inv P := by
  obtain ⟨rest, hacc, hrest⟩ := hd.rest
  cases h with
  | write sexps hopen hfits =>
      refine ⟨?_, ⟨rest ++ sexps, ?_, ?_⟩, fun hb => ?_, hd.flushed⟩
      · intro x hx
        exact (List.mem_append.mp hx).elim (hd.fits x) (hfits x)
      · rw [hacc, List.append_assoc]
      · rw [List.flatMap_append]
        exact hrest.trans (List.prefix_append ..)
      · obtain ⟨sent, hsent, hbytes⟩ := hd.whole hb
        refine ⟨sent, ?_, hbytes⟩
        rw [hsent, List.flatten_append, List.flatten_singleton, List.append_assoc]
  | toChannel x job jobs hopen hbroken hjobs =>
      refine ⟨hd.fits, hd.rest, fun hb => ?_, fun hclosed => ?_⟩
      · obtain ⟨sent, hsent, hbytes⟩ := hd.whole hb
        refine ⟨sent ++ [x], ?_, ?_⟩
        · simp [hsent, hjobs]
        · simp [hbytes, written_toChannel]
      · simp [hopen] at hclosed
  | flush n hopen hbroken =>
      obtain ⟨sent, hsent, hbytes⟩ := hd.whole hbroken
      refine ⟨hd.fits, ⟨sent ++ d.jobs.flatten, ?_, ?_⟩, fun _ => ⟨sent, hsent, ?_⟩,
        fun hclosed => ?_⟩
      · rw [hsent, List.append_assoc]
      · rw [List.flatMap_append, hbytes]
        refine ⟨d.outChannel.written.drop n ++ d.jobs.flatten.flatMap toString, ?_⟩
        simp only [List.append_assoc]
        rw [← List.append_assoc (List.take n _), List.take_append_drop]
      · simp [hbytes]
      · simp [hopen] at hclosed
  | done jobs hjobs hflushed =>
      refine ⟨hd.fits, hd.rest, fun hb => ?_, hd.flushed⟩
      obtain ⟨sent, hsent, hbytes⟩ := hd.whole hb
      rw [hjobs] at hsent
      exact ⟨sent, hsent, hbytes⟩
  | fail job jobs hjobs =>
      exact ⟨hd.fits, hd.rest, fun hb => (by cases hb), fun _ hb => (by cases hb)⟩
  | close => exact hd.close
  | deliver n =>
      refine ⟨hd.fits, ⟨rest, hacc, ?_⟩, fun hb => ?_, hd.flushed⟩
      · simpa using hrest
      · obtain ⟨sent, hsent, hbytes⟩ := hd.whole hb
        refine ⟨sent, hsent, ?_⟩
        simp [hbytes]
  | lose =>
      refine ⟨hd.fits, ⟨rest, hacc, ?_⟩, fun hb => (by cases hb), fun _ hb => (by cases hb)⟩
      rw [List.append_nil]
      exact (List.prefix_append ..).trans hrest

/-- The reading end gets the next expression, or finds that the stream has
ended; if it has not broken, between two expressions. -/
theorem Inv.reads (hd : d.Inv P) {r : Reading} {ic : InChannel}
    (h : Reads P d.Ended (d.broken = true) d.inChannel r ic) :
    (∃ x rest, read r.task = (some x, false) ∧ d.accepted = d.received ++ x :: rest ∧
      d.inChannel = toString x ++ ic) ∨
    (read r.task = (none, true) ∧ d.Ended ∧ ic = [] ∧
      (d.broken = false → d.inChannel = [])) := by
  obtain ⟨rest, hacc, hrest⟩ := hd.rest
  have hfits : ∀ x ∈ rest, x.Fits P.toSys := fun x hx =>
    hd.fits x (hacc ▸ List.mem_append_right _ hx)
  obtain ⟨bytes, hbytes⟩ := (List.prefix_append ..).trans hrest
  cases h with
  | settled h =>
      obtain ⟨x, xs, rfl, rfl, hic⟩ := reads_settled hfits hbytes h
      exact Or.inl ⟨x, xs, rfl, hacc, hic⟩
  | systemError he hb =>
      exact Or.inr ⟨rfl, he, rfl, fun hnb => by simp [hb] at hnb⟩
  | ended he =>
      rcases inputOpt_prefix hfits hbytes with ⟨x, xs, ic', rfl, hic, hr⟩ | ⟨hr, hnil⟩ | ⟨hr, hne⟩
      · rw [hr]
        exact Or.inl ⟨x, xs, rfl, hacc, hic⟩
      · rw [hr]
        exact Or.inr ⟨rfl, he, rfl, fun _ => hnil⟩
      · rw [hr]
        refine Or.inr ⟨rfl, he, rfl, fun hnb => ?_⟩
        obtain ⟨sent, hsent, hsentBytes⟩ := hd.whole hnb
        have hclosed : d.isOpen = false := he.1.resolve_right (by simp [hnb])
        rw [he.2, hd.flushed hclosed hnb, List.append_nil, List.append_nil] at hsentBytes
        cases sent with
        | nil => exact hsentBytes.symm
        | cons x xs =>
            have hx := hd.fits x (by simp [hsent])
            rw [← hsentBytes, List.flatMap_cons, inputOpt_toString hx] at hr
            cases hr

/-- An expression is taken from the channel. -/
theorem Inv.received (hd : d.Inv P) {x : Sexp} {rest : List Sexp} {ic : InChannel}
    (hacc : d.accepted = d.received ++ x :: rest) (hic : d.inChannel = toString x ++ ic) :
    Inv P { d with inChannel := ic, received := d.received ++ [x] } := by
  refine ⟨hd.fits, ⟨rest, ?_, ?_⟩, fun hb => ?_, hd.flushed⟩
  · rw [hacc, List.append_assoc, List.singleton_append]
  · obtain ⟨rest', hacc', bytes, hbytes⟩ := hd.rest
    obtain rfl : x :: rest = rest' := List.append_cancel_left (hacc.symm.trans hacc')
    rw [hic, List.flatMap_cons, List.append_assoc, List.append_assoc] at hbytes
    exact ⟨bytes, by simpa using List.append_cancel_left hbytes⟩
  · obtain ⟨sent, hsent, hbytes⟩ := hd.whole hb
    rw [hic] at hbytes
    cases sent with
    | nil =>
        have hx : toString x = [] := by
          simp only [List.flatMap_nil, List.append_assoc] at hbytes
          exact (List.append_eq_nil_iff.mp hbytes.symm).1
        have hfits := hd.fits x (by simp [hacc])
        exact absurd hx (derives_toString hfits).ne_nil
    | cons y ys =>
        rw [hacc, List.append_assoc] at hsent
        obtain ⟨rfl, -⟩ : x = y ∧ rest = ys ++ d.jobs.flatten := by
          simpa using List.append_cancel_left hsent
        refine ⟨ys, ?_, ?_⟩
        · rw [hacc, List.append_cancel_left hsent]
          simp
        · rw [List.flatMap_cons] at hbytes
          simp only [List.append_assoc] at hbytes ⊢
          exact List.append_cancel_left hbytes

/-- The channel is left empty at the end of the stream. -/
theorem Inv.drained (hd : d.Inv P) (hended : d.Ended)
    (hnil : d.broken = false → d.inChannel = []) : Inv P { d with inChannel := [] } := by
  obtain ⟨rest, hacc, hrest⟩ := hd.rest
  refine ⟨hd.fits, ⟨rest, hacc, ?_⟩, fun hb => ?_, hd.flushed⟩
  · rw [hended.2]
    exact List.nil_prefix
  · obtain ⟨sent, hsent, hbytes⟩ := hd.whole hb
    rw [hnil hb] at hbytes
    exact ⟨sent, hsent, hbytes⟩

end Direction

namespace Connection

variable {P : Platform} {c c' : Connection}

theorem inv_update (hc : ∀ s, (c s).Inv P) (s : Side) {d : Direction} (hd : d.Inv P) (s' : Side) :
    (Function.update c s d s').Inv P := by
  rcases eq_or_ne s' s with rfl | hne
  · rwa [Function.update_self]
  · rw [Function.update_of_ne hne]
    exact hc s'

/-- The next expression or the end of the stream, if a task is done. -/
theorem inv_answer (hc : ∀ s, (c s).Inv P) {s : Side} {r : Reading} {ic : InChannel}
    (h : Reads P (c s).Ended ((c s).broken = true) (c s).inChannel r ic) :
    ∀ s', (c.answer s r.task ic s').Inv P := by
  rcases (hc s).reads h with ⟨x, rest, hr, hacc, hic⟩ | ⟨hr, hended, rfl, hnil⟩
  · rw [answer, hr]
    exact inv_update hc s (((hc s).received hacc hic).tasks _)
  · rw [answer, hr]
    have hs : Direction.Inv P { c s with
        inChannel := [], tasks := (c s).tasks - 1, received := (c s).received ++ [] } := by
      simpa using ((hc s).drained hended hnil).tasks _
    have hc' := inv_update hc s hs
    exact inv_update hc' s.other (hc' s.other).close

theorem inv_step (hc : ∀ s, (c s).Inv P) (h : Step P c c') : ∀ s, (c' s).Inv P := by
  cases h with
  | write s h => exact inv_update hc s ((hc s).step h)
  | task s _ => exact inv_update hc s ((hc s).tasks _)
  | read s h =>
      cases h with
      | closed _ => exact hc
      | cut _ _ => exact inv_update hc s ((hc s).tasks _)
      | done _ h => exact inv_answer hc h

theorem inv_reachable (h : (system P).Reachable c) : ∀ s, (c s).Inv P := by
  refine h.invariant ?_ fun _ _ _ hc hs => inv_step hc hs
  rintro c rfl s
  exact Direction.inv_create

end Connection

end Csexp.Session
