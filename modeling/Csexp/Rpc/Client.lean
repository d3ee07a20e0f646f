import Csexp.Rpc.Packets
import Mathlib.Data.List.AList

/-!
# The client

A client keeps a table of the requests that have not been answered. The
answer to a request goes into an ivar of its own, which is filled once: with
the response, with the end of the connection, or because the request has
been cancelled.
-/

namespace Csexp

/-! ## Identifiers -/

mutual

def Sexp.equal : Sexp → Sexp → Bool
  | .atom s, .atom t => s == t
  | .list l, .list m => Sexp.equalList l m
  | _, _ => false

def Sexp.equalList : List Sexp → List Sexp → Bool
  | [], [] => true
  | x :: l, y :: m => x.equal y && Sexp.equalList l m
  | _, _ => false

end

mutual

theorem Sexp.equal_iff : ∀ x y : Sexp, x.equal y = true ↔ x = y
  | .atom s, .atom t => by simp [Sexp.equal]
  | .list l, .list m => by simp [Sexp.equal, Sexp.equalList_iff l m]
  | .atom s, .list m => by simp [Sexp.equal]
  | .list l, .atom t => by simp [Sexp.equal]

theorem Sexp.equalList_iff : ∀ l m : List Sexp, Sexp.equalList l m = true ↔ l = m
  | [], [] => by simp [Sexp.equalList]
  | x :: l, y :: m => by simp [Sexp.equalList, Sexp.equal_iff x y, Sexp.equalList_iff l m]
  | [], y :: m => by simp [Sexp.equalList]
  | x :: l, [] => by simp [Sexp.equalList]

end

instance : DecidableEq Sexp := fun x y => decidable_of_iff (x.equal y = true) (Sexp.equal_iff x y)

namespace Rpc

open Conv (Env)
open Raising

/-! ## The table of requests -/

/-- What a request ends with. -/
inductive Outcome where
  | completed (r : Response)
  | connectionDead
  | cancelled

/-- The value of a table entry. No function of a client makes `cancelled`. -/
inductive Client.Status where
  | cancelled
  | pending (ivar : ℕ)
  deriving DecidableEq

/-- The ivars are those of all requests so far, in the order in which they
were created. `closedWrite` belongs to the channel. -/
structure Client (P : Platform) where
  requests : AList fun _ : Id => Client.Status
  ivars : List (Option Outcome)
  nextId : NativeInt P
  running : Bool
  handlerInitialized : Bool
  closedWrite : Bool

/-- What is given to `Chan.write`. -/
abbrev Sent := Option (List Packet)

variable {P : Platform}

namespace Client

def create : Client P where
  requests := ∅
  ivars := []
  nextId := NativeInt.ofInt P 0
  running := true
  handlerInitialized := false
  closedWrite := false

/-- `Fiber.Ivar.fill`. -/
def fill (t : Client P) (ivar : ℕ) (x : Outcome) : Conv.Eval (Client P) :=
  match t.ivars[ivar]? with
  | some none => .ok { t with ivars := t.ivars.set ivar (some x) }
  | _ => .error (.foreign "Fiber.Ivar.fill")

/-- `Chan.write` with `None`. -/
def closeWrite (t : Client P) : Client P × List Sent :=
  if t.closedWrite then (t, []) else ({ t with closedWrite := true }, [none])

def terminate (t : Client P) : Conv.Eval (Client P × List Sent) :=
  match t.running with
  | false => .ok (t, [])
  | true => do
    let (t', sent) := { t with running := false, requests := ∅ }.closeWrite
    let t' ← t.requests.entries.foldlM (fun t' p =>
      match p.2 with
      | .cancelled => .ok t'
      | .pending ivar => t'.fill ivar .connectionDead) t'
    .ok (t', sent)

/-- The exception is raised beside the termination. -/
def terminateWithError (t : Client P) (message : String) :
    Conv.Eval (Client P × List Sent × Option Conv.Exn) := do
  let (t, sent) ← t.terminate
  .ok (t, sent, some (.codeError message))

/-- Either an error at once, or the ivar that will have the answer. -/
def prepareRequest' (t : Client P) (id : Id) (req : Call) :
    Conv.Eval (Except Response.Error ℕ × Client P) :=
  match t.running with
  | false => do
    let call ← Conv.toSexp Env.none 0 (.record Call.fields) req
    let payload := Sexp.record [(lit "id", id), (lit "req", call)]
    .ok (.error
      { payload := some payload, message := lit "request sent while connection is dead",
        kind := .connectionDead }, t)
  | true =>
    match t.requests.lookup id with
    | none =>
      let ivar := t.ivars.length
      .ok (.ok ivar, { t with
        requests := t.requests.insert id (.pending ivar), ivars := t.ivars ++ [none] })
    | some _ => .error (.codeError "duplicate id")

def requestUntyped (t : Client P) (id : Id) (req : Call) :
    Conv.Eval (Except Response.Error ℕ × Client P × List Sent) := do
  match ← t.prepareRequest' id req with
  | (.error e, t) => .ok (.error e, t, [])
  | (.ok ivar, t) => .ok (.ok ivar, t, [some [.request id req]])

def genId (t : Client P) : Option Id → Id × Client P
  | some id => (id, t)
  | none =>
    (.list [.atom (lit "auto"), .atom t.nextId.toString],
      { t with nextId := NativeInt.ofInt P (t.nextId.val + 1) })

/-- The entry is removed, although the table could say that the request has
been cancelled. -/
def cancel (t : Client P) (id : Id) : Conv.Eval (Client P) :=
  match t.requests.lookup id with
  | none | some .cancelled => .ok t
  | some (.pending ivar) => { t with requests := t.requests.erase id }.fill ivar .cancelled

/-- What is left to do with the call of a notification: an exception if the
connection is dead. -/
def makeNotification (t : Client P) (call : Call) : Except (Conv.Exn ⊕ Response.Error) Call :=
  match t.running with
  | true => .ok call
  | false =>
    match Conv.toSexp Env.none 0 (.record Call.fields) call with
    | .error e => .error (.inl e)
    | .ok payload => .error (.inr
      { payload := some payload, message := lit "notification sent while connection is dead",
        kind := .codeError })

def noCancelRaiseConnectionDead (id : Id) : Outcome → Conv.Eval Response
  | .cancelled => .error .assertFailure
  | .completed s => .ok s
  | .connectionDead => .ok (.error
    { payload := some (Sexp.record [(lit "id", id)]),
      message := lit "connection terminated. this request will never receive a response",
      kind := .connectionDead })

/-- What `read_packets` does with a response. -/
def readResponse (t : Client P) (id : Id) (response : Response) :
    Conv.Eval (Client P × List Sent × Option Conv.Exn) :=
  match t.requests.lookup id with
  | some status => do
    let t := { t with requests := t.requests.erase id }
    match status with
    | .pending ivar =>
      let t ← t.fill ivar (.completed response)
      .ok (t, [], none)
    | .cancelled => .ok (t, [], none)
  | none => t.terminateWithError "unexpected response"

/-! ## Batches -/

namespace Batch

/-- The packets that a batch keeps, the last one first. -/
abbrev Pending := List Packet

def notification (t : Client P) (pending : Pending) (n : Call) :
    Except (Conv.Exn ⊕ Response.Error) Pending := do
  let call ← t.makeNotification n
  .ok (.notification call :: pending)

def request (t : Client P) (pending : Pending) (id : Id) (call : Call) :
    Conv.Eval (Except Response.Error ℕ × Client P × Pending) := do
  match ← t.prepareRequest' id call with
  | (.error e, t) => .ok (.error e, t, pending)
  | (.ok ivar, t) => .ok (.ok ivar, t, .request id call :: pending)

def submit (pending : Pending) : Pending × List Sent := ([], [some pending.reverse])

end Batch

/-! ## Every ivar is filled once -/

/-- The requests in the table are those with an empty ivar, each with one of
its own, and a client that does not run has none. -/
structure Inv (t : Client P) : Prop where
  pending : ∀ id status, t.requests.lookup id = some status →
    ∃ i : ℕ, status = .pending i ∧ t.ivars[i]? = some none
  owner : ∀ i : ℕ, t.ivars[i]? = some none → ∃ id, t.requests.lookup id = some (.pending i)
  unique : ∀ id id' i, t.requests.lookup id = some (.pending i) →
    t.requests.lookup id' = some (.pending i) → id = id'
  stopped : t.running = false → t.requests = ∅

/-- The request `id` enters the table, with an ivar of its own. -/
def ask (t : Client P) (id : Id) : Client P :=
  { t with
    requests := t.requests.insert id (.pending t.ivars.length)
    ivars := t.ivars ++ [none] }

/-- The request `id` leaves the table with the answer `x`. -/
def settle (t : Client P) (id : Id) (i : ℕ) (x : Outcome) : Client P :=
  { t with requests := t.requests.erase id, ivars := t.ivars.set i (some x) }

/-- No request is left without an answer. -/
def dead (t : Client P) : Client P :=
  { t with
    running := false, requests := ∅, closedWrite := true
    ivars := t.ivars.map fun x => some (x.getD .connectionDead) }

variable {t : Client P} {id : Id} {i : ℕ}

theorem create_inv : (create : Client P).Inv where
  pending _ _ h := by
    rw [create, AList.lookup_empty] at h
    cases h
  owner _ h := by
    rw [create, List.getElem?_nil] at h
    cases h
  unique _ _ _ h _ := by
    rw [create, AList.lookup_empty] at h
    cases h
  stopped _ := rfl

theorem lookup_eq_some_of_erase {requests : AList fun _ : Id => Status} {id id' : Id} {s : Status}
    (h : (requests.erase id).lookup id' = some s) : id' ≠ id ∧ requests.lookup id' = some s := by
  have hne : id' ≠ id := by
    rintro rfl
    rw [AList.lookup_erase] at h
    cases h
  exact ⟨hne, by rwa [AList.lookup_erase_ne hne] at h⟩

theorem Inv.settle (h : t.Inv) (hid : t.requests.lookup id = some (.pending i)) (x : Outcome) :
    { t with requests := t.requests.erase id }.fill i x = .ok (t.settle id i x) ∧
      (t.settle id i x).Inv := by
  obtain ⟨j, hj, hnone⟩ := h.pending id _ hid
  cases hj
  refine ⟨by simp only [fill, hnone, Client.settle], ?_, ?_, ?_, ?_⟩
  · intro id' s hs
    obtain ⟨hne, hs⟩ := lookup_eq_some_of_erase hs
    obtain ⟨j, rfl, hj⟩ := h.pending id' s hs
    have hij : i ≠ j := fun hij => hne (h.unique id' id i (hij ▸ hs) hid)
    exact ⟨j, rfl, by rwa [Client.settle, List.getElem?_set_ne hij]⟩
  · intro j hj
    have hij : i ≠ j := by
      rintro rfl
      have hlt := (List.getElem?_eq_some_iff.mp hnone).1
      rw [Client.settle, List.getElem?_set_self hlt] at hj
      cases hj
    rw [Client.settle, List.getElem?_set_ne hij] at hj
    obtain ⟨id', hid'⟩ := h.owner j hj
    have hne : id' ≠ id := by
      rintro rfl
      rw [hid] at hid'
      cases hid'
      exact hij rfl
    exact ⟨id', by rwa [Client.settle, AList.lookup_erase_ne hne]⟩
  · intro id₁ id₂ j h₁ h₂
    exact h.unique id₁ id₂ j (lookup_eq_some_of_erase h₁).2 (lookup_eq_some_of_erase h₂).2
  · intro hrun
    rw [h.stopped hrun, AList.lookup_empty] at hid
    cases hid

theorem mem_of_lookup {status : Status} (hid : t.requests.lookup id = some status) :
    id ∈ t.requests := by
  rw [← AList.lookup_isSome, hid]
  rfl

/-- Only a client that runs waits for answers. -/
theorem Inv.running (h : t.Inv) {status : Status} (hid : t.requests.lookup id = some status) :
    t.running = true := by
  by_contra hrun
  rw [Bool.not_eq_true] at hrun
  rw [h.stopped hrun, AList.lookup_empty] at hid
  cases hid

/-- `cancel` with a request that has not been answered. -/
theorem Inv.cancel (h : t.Inv) (hid : t.requests.lookup id = some (.pending i)) :
    t.cancel id = .ok (t.settle id i .cancelled) := by
  simp only [Client.cancel, hid, (h.settle hid .cancelled).1]

theorem Inv.cancel_none (hid : t.requests.lookup id = none) : t.cancel id = .ok t := by
  simp only [Client.cancel, hid]

theorem Inv.readResponse (h : t.Inv) (hid : t.requests.lookup id = some (.pending i))
    (r : Response) :
    t.readResponse id r = .ok (t.settle id i (.completed r), [], none) := by
  simp only [Client.readResponse, hid, (h.settle hid (.completed r)).1, bind, Except.bind]

theorem Inv.ask (h : t.Inv) (hrun : t.running = true) (hid : t.requests.lookup id = none) :
    (t.ask id).Inv := by
  have hlast : (t.ivars ++ [none])[t.ivars.length]? = some none := List.getElem?_concat_length
  have hlt {j : ℕ} (hj : t.ivars[j]? = some none) : j < t.ivars.length :=
    (List.getElem?_eq_some_iff.mp hj).1
  have hold {id' : Id} {j : ℕ} (hid' : t.requests.lookup id' = some (.pending j)) :
      j < t.ivars.length := by
    obtain ⟨k, hk, hnone⟩ := h.pending id' _ hid'
    cases hk
    exact hlt hnone
  have hlookup {id' : Id} {s : Status}
      (hs : (t.requests.insert id (.pending t.ivars.length)).lookup id' = some s) :
      id' = id ∧ s = .pending t.ivars.length ∨ t.requests.lookup id' = some s := by
    by_cases heq : id' = id
    · subst heq
      rw [AList.lookup_insert] at hs
      exact .inl ⟨rfl, (Option.some.inj hs).symm⟩
    · rw [AList.lookup_insert_ne heq] at hs
      exact .inr hs
  refine ⟨?_, ?_, ?_, ?_⟩
  · intro id' s hs
    rcases hlookup hs with ⟨rfl, rfl⟩ | hs
    · exact ⟨_, rfl, hlast⟩
    · obtain ⟨j, rfl, hj⟩ := h.pending id' s hs
      exact ⟨j, rfl, by rw [Client.ask, List.getElem?_append_left (hlt hj), hj]⟩
  · intro j hj
    by_cases hlen : j < t.ivars.length
    · rw [Client.ask, List.getElem?_append_left hlen] at hj
      obtain ⟨id', hid'⟩ := h.owner j hj
      have hne : id' ≠ id := by
        rintro rfl
        rw [hid] at hid'
        cases hid'
      exact ⟨id', by rwa [Client.ask, AList.lookup_insert_ne hne]⟩
    · have hj' := (List.getElem?_eq_some_iff.mp hj).1
      rw [Client.ask, List.length_append, List.length_singleton] at hj'
      obtain rfl : j = t.ivars.length := by omega
      exact ⟨id, AList.lookup_insert _⟩
  · intro id₁ id₂ j h₁ h₂
    rcases hlookup h₁ with ⟨hid₁, hj⟩ | hold₁ <;> rcases hlookup h₂ with ⟨hid₂, hj⟩ | hold₂
    · rw [hid₁, hid₂]
    · cases hj
      exact absurd (hold hold₂) (lt_irrefl _)
    · cases hj
      exact absurd (hold hold₁) (lt_irrefl _)
    · exact h.unique id₁ id₂ j hold₁ hold₂
  · intro hrun'
    rw [Client.ask, hrun] at hrun'
    cases hrun'

/-- Filling the ivars of a list of entries, each with one of its own. -/
theorem foldlM_fill {l : List (Sigma fun _ : Id => Status)} {t : Client P}
    (hl : ∀ p ∈ l, ∃ i : ℕ, p.2 = .pending i ∧ t.ivars[i]? = some none)
    (hnodup : (l.map Sigma.snd).Nodup) :
    ∃ ivars, l.foldlM (fun t' p =>
      match p.2 with
      | .cancelled => (.ok t' : Conv.Eval (Client P))
      | .pending i => fill t' i .connectionDead) t = .ok { t with ivars } ∧
      ∀ j : ℕ, ivars[j]? =
        if .pending j ∈ l.map Sigma.snd then some (some .connectionDead) else t.ivars[j]? := by
  induction l generalizing t with
  | nil => exact ⟨t.ivars, rfl, fun j => by simp⟩
  | cons p l ih =>
      obtain ⟨i, hi, hnone⟩ := hl p List.mem_cons_self
      rw [List.map_cons, List.nodup_cons, hi] at hnodup
      have hlt := (List.getElem?_eq_some_iff.mp hnone).1
      have hfill : t.fill i .connectionDead =
          .ok { t with ivars := t.ivars.set i (some .connectionDead) } := by
        simp only [fill, hnone]
      obtain ⟨ivars, hfold, hget⟩ := @ih { t with ivars := t.ivars.set i (some .connectionDead) }
        (fun q hq => by
          obtain ⟨j, hj, hj'⟩ := hl q (List.mem_cons_of_mem _ hq)
          have hij : i ≠ j := by
            rintro rfl
            exact hnodup.1 (List.mem_map.mpr ⟨q, hq, hj⟩)
          exact ⟨j, hj, by rwa [List.getElem?_set_ne hij]⟩) hnodup.2
      refine ⟨ivars, ?_, fun j => ?_⟩
      · rw [List.foldlM_cons, hi]
        simp only [hfill, bind, Except.bind]
        exact hfold
      · rw [hget, List.map_cons, hi]
        by_cases hij : i = j
        · subst hij
          rw [if_neg hnodup.1, List.getElem?_set_self hlt, if_pos List.mem_cons_self]
        · rw [List.getElem?_set_ne hij]
          have hne : Status.pending j ≠ Status.pending i := by
            rintro ⟨⟩
            exact hij rfl
          by_cases hj : .pending j ∈ l.map Sigma.snd
          · rw [if_pos hj, if_pos (List.mem_cons_of_mem _ hj)]
          · rw [if_neg hj, if_neg (List.not_mem_cons_of_ne_of_not_mem hne hj)]

theorem Inv.nodup_statuses (h : t.Inv) : (t.requests.entries.map Sigma.snd).Nodup := by
  have hnodup : t.requests.entries.Nodup := t.requests.nodupKeys.nodup
  refine hnodup.map_on fun p hp q hq heq => ?_
  obtain ⟨id, s⟩ := p
  obtain ⟨id', s'⟩ := q
  cases heq
  have hp' : t.requests.lookup id = some s := AList.mem_lookup_iff.mpr hp
  have hq' : t.requests.lookup id' = some s := AList.mem_lookup_iff.mpr hq
  obtain ⟨i, rfl, -⟩ := h.pending id s hp'
  cases h.unique id id' i hp' hq'
  rfl

theorem closeWrite_eq (t : Client P) : ∃ sent : List Sent, (sent = [] ∨ sent = [none]) ∧
    t.closeWrite = ({ t with closedWrite := true }, sent) := by
  rw [closeWrite]
  split_ifs with h
  · exact ⟨[], .inl rfl, by rw [← h]⟩
  · exact ⟨[none], .inr rfl, rfl⟩

/-- The end of the connection goes to every request that has no answer. -/
theorem Inv.terminate (h : t.Inv) (hrun : t.running = true) : ∃ sent : List Sent,
    (sent = [] ∨ sent = [none]) ∧ t.terminate = .ok (t.dead, sent) := by
  obtain ⟨sent, hsent, hclose⟩ := closeWrite_eq { t with running := false, requests := ∅ }
  refine ⟨sent, hsent, ?_⟩
  have hentries : ∀ p ∈ t.requests.entries, ∃ i : ℕ, p.2 = .pending i ∧ t.ivars[i]? = some none :=
    fun p hp => h.pending p.1 p.2 (AList.mem_lookup_iff.mpr hp)
  obtain ⟨ivars, hfold, hget⟩ := @foldlM_fill P t.requests.entries
    { t with running := false, requests := ∅, closedWrite := true } hentries h.nodup_statuses
  have hivars : ivars = t.ivars.map fun x => some (x.getD .connectionDead) := by
    refine List.ext_getElem? fun j => ?_
    rw [hget, List.getElem?_map]
    split_ifs with hj
    · obtain ⟨p, hp, hpj⟩ := List.mem_map.mp hj
      obtain ⟨k, hk, hnone⟩ := hentries p hp
      rw [hk] at hpj
      cases hpj
      rw [hnone]
      rfl
    · cases hx : t.ivars[j]? with
      | none => rfl
      | some x =>
          cases x with
          | some x => rfl
          | none =>
              obtain ⟨id, hid⟩ := h.owner j hx
              refine (hj (List.mem_map.mpr ⟨⟨id, .pending j⟩, ?_, rfl⟩)).elim
              exact AList.mem_lookup_iff.mp hid
  rw [Client.terminate, hrun]
  simp only [hclose, bind, Except.bind, hfold, hivars, dead]

theorem terminate_of_not_running (hrun : t.running = false) : t.terminate = .ok (t, []) := by
  rw [terminate, hrun]

theorem dead_inv (t : Client P) : t.dead.Inv where
  pending _ _ h := by
    rw [dead, AList.lookup_empty] at h
    cases h
  owner j h := by
    rw [dead, List.getElem?_map, Option.map_eq_some_iff] at h
    obtain ⟨_, _, h⟩ := h
    cases h
  unique _ _ _ h _ := by
    rw [dead, AList.lookup_empty] at h
    cases h
  stopped _ := rfl

end Client

end Rpc

end Csexp
