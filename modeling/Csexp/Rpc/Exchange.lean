import Csexp.Rpc.Server
import Csexp.Library.Systems

/-!
# A client and a server

The two ends of a connection, with what is on its way between them. The
fibers of both ends take turns at the points at which they wait; the
connection may be lost at any time.
-/

namespace Csexp.Rpc

open Conv (Env)
open Raising
open Server (Session H)

variable {P : Platform}

/-! ## Pipes -/

/-- What one end has written and the other one not read. -/
structure Pipe where
  sexps : List Sexp
  closed : Bool

/-- An exception other than those of the conversions. -/
inductive Failure where
  | error (e : Response.Error)
  | invalidSession (e : Conv.Error)
  | serverAborted (m : Message)
  | exn (e : Conv.Exn)

namespace Pipe

def empty : Pipe := ⟨[], false⟩

def lost : Pipe := ⟨[], true⟩

/-- `send`, as far as the pipe. -/
def write (p : Pipe) : Sent → Conv.Eval Pipe
  | none => .ok { p with closed := true }
  | some packets => do
    let sexps ← packets.mapM Packet.toSexp
    if p.closed then .error (.codeError "attempting to write to a closed channel")
    else .ok { p with sexps := p.sexps ++ sexps }

/-- An exception keeps what follows from being written. -/
def writeAll (p : Pipe) : List Sent → Pipe × Option Conv.Exn
  | [] => (p, none)
  | x :: sent =>
    match p.write x with
    | .error e => (p, some e)
    | .ok p => p.writeAll sent

/-- `create_sequence`, and `packets` of a client; `none` if the reader has
to wait. -/
def read (version : ℤ × ℤ) (p : Pipe) : Option (Except Failure (Option Packet) × Pipe) :=
  match p.sexps with
  | [] => if p.closed then some (.ok none, p) else none
  | sexp :: sexps =>
    match Packet.ofSexp version sexp with
    | .ok (.ok packet) => some (.ok (some packet), { p with sexps })
    | .ok (.error e) => some (.error (.invalidSession e), { p with sexps })
    | .error e => some (.error (.exn e), { p with sexps })

end Pipe

/-! ## The two ends -/

/-- What two programs bring along: the request that opens the session, the
procedures that the client has registered and its handler of an abort, the
server, and what the handlers of each end may do with a call. -/
structure Ends (P : Platform) where
  init : Initialize.Request P
  procedures : List (Bytes × List (NativeInt P))
  onPreemptiveAbort : Message → Except Failure Unit
  server : H P
  handles : Menu (NativeInt P) → Call → Except (List H.ExnWithBacktrace) Response → Prop
  handlesNotification : Menu (NativeInt P) → Call → Except Response.Error Unit → Prop

namespace Ends

/-- The version in which the client reads. -/
def version (e : Ends P) : ℤ × ℤ := (e.init.duneVersion.1.val, e.init.duneVersion.2.val)

end Ends

/-- Where the fiber `run` of `connect_raw` is. -/
inductive Run (P : Platform) where
  | start
  | initializing (ivar : ℕ)
  | negotiating (ivar : ℕ)
  | connected (menu : Menu (NativeInt P))
  | finished (menu : Menu (NativeInt P))
  | raised (e : Failure)

/-- The menu with which the handler of the client has been made. -/
def Run.menu : Run P → Option (Menu (NativeInt P))
  | .connected menu | .finished menu => some menu
  | .start | .initializing _ | .negotiating _ | .raised _ => none

/-- `waiting` are the notifications that have not been handled, `raised` what
the fibers of `read_packets` have raised, and `reading` says whether it still
reads. Of each ivar, `asked` keeps the request that it has been made for, and
`cancelled` those cancelled requests whose response has not come in. -/
structure Exchange (P : Platform) where
  client : Client P
  run : Run P
  reading : Bool
  batches : List Client.Batch.Pending
  waiting : List Call
  toServer : Pipe
  server : Session P
  toClient : Pipe
  asked : List (Id × Call)
  cancelled : List Id
  raised : List Failure

namespace Exchange

def create : Exchange P where
  client := Client.create
  run := .start
  reading := true
  batches := []
  waiting := []
  toServer := .empty
  server := Session.create
  toClient := .empty
  asked := []
  cancelled := []
  raised := []

/-- What the client has to send is put on its way. -/
def send (s : Exchange P) (sent : List Sent) : Exchange P × Option Conv.Exn :=
  let (toServer, exn) := s.toServer.writeAll sent
  ({ s with toServer }, exn)

def raise (s : Exchange P) (e : Failure) : Exchange P := { s with raised := s.raised ++ [e] }

/-- What a fiber of the client leaves behind: what it has to send, and an
exception. -/
def leave (s : Exchange P) : Conv.Eval (Client P × List Sent × Option Conv.Exn) → Exchange P
  | .error e => s.raise (.exn e)
  | .ok (client, sent, exn) =>
    let (s, exn') := { s with client }.send sent
    { s with raised := s.raised ++ (exn'.toList ++ exn.toList).map .exn }

def terminate (s : Exchange P) : Exchange P :=
  s.leave (s.client.terminate.map fun p => (p.1, p.2, none))

/-! ## The fiber that connects -/

def initializeId : Id := .list [.atom (lit "initialize")]

def versionMenuId : Id := .list [.atom (lit "version menu")]

/-- `request_untyped`, up to the point at which the ivar is read. -/
def requestUntyped (s : Exchange P) (id : Id) (call : Call) :
    Except Failure (Except Response.Error ℕ) × Exchange P :=
  match s.client.requestUntyped id call with
  | .error e => (.error (.exn e), s)
  | .ok (.error e, client, _) => (.ok (.error e), { s with client })
  | .ok (.ok ivar, client, sent) =>
    let (s, exn) := { s with client, asked := s.asked ++ [(id, call)] }.send sent
    match exn with
    | some e => (.error (.exn e), s)
    | none => (.ok (.ok ivar), s)

/-- The fiber waits for the ivar, or has an exception. -/
def await (k : ℕ → Run P) : Except Failure (Except Response.Error ℕ) × Exchange P → Exchange P
  | (.ok (.ok ivar), s) => { s with run := k ivar }
  | (.ok (.error e), s) => { s with run := .raised (.error e) }
  | (.error e, s) => { s with run := .raised e }

def raising {α : Type} : Conv.Eval α → Except Failure α
  | .ok a => .ok a
  | .error e => .error (.exn e)

/-- What `run` reads from the answer to one of its own requests. -/
def parseAnswer {α : Type} (e : Ends P) (id : Id) (conv : Conv Conv.Decls.none α .values)
    (x : Outcome) : Except Failure α := do
  match ← raising (Client.noCancelRaiseConnectionDead id x) with
  | .error err => .error (.error err)
  | .ok csexp =>
    match ← raising (Conv.ofSexp Env.none 0 conv e.version csexp) with
    | .error err => .error (.invalidSession err)
    | .ok resp => .ok resp

/-- A step of `run`; none while it waits. -/
def connect (e : Ends P) (s : Exchange P) : Option (Exchange P) :=
  match s.run with
  | .start =>
    match raising e.init.toCall with
    | .error err => some { s with run := .raised err }
    | .ok call => some (await .initializing (s.requestUntyped initializeId call))
  | .initializing ivar =>
    match s.client.ivars[ivar]? with
    | some (some x) =>
      match parseAnswer e initializeId Initialize.Response.sexp x with
      | .error err => some { s with run := .raised err }
      | .ok () =>
        match raising (VersionNegotiation.Request.create e.procedures).toCall with
        | .error err => some { s with run := .raised err }
        | .ok call => some (await .negotiating (s.requestUntyped versionMenuId call))
    | _ => none
  | .negotiating ivar =>
    match s.client.ivars[ivar]? with
    | some (some x) =>
      match parseAnswer e versionMenuId VersionNegotiation.Response.sexp x with
      | .error err => some { s with run := .raised err }
      | .ok methods =>
        match StringMap.ofList methods.selected with
        | .error _ => some { s.terminate with
          run := .raised (.exn (.codeError "server responded with invalid version menu")) }
        | .ok menu => some { s with
          client := { s.client with handlerInitialized := true }, run := .connected menu }
    | _ => none
  | .connected _ | .finished _ | .raised _ => none

/-! ## The fibers that read -/

/-- What `read_packets` does with a packet. Requests of the server are left
out. -/
def readPacket (e : Ends P) (s : Exchange P) : Packet → Option (Exchange P)
  | .request _ _ => none
  | .response id response => some (s.leave (s.client.readResponse id response))
  | .notification n =>
    if n.method = lit "notify/abort" ∧ s.client.handlerInitialized = false then
      match Conv.ofSexp Env.none 0 Message.sexp e.version n.params with
      | .ok (.ok msg) =>
        match e.onPreemptiveAbort msg with
        | .ok () => some s
        | .error err => some (s.raise err)
      | .ok (.error _) => some (s.leave (s.client.terminateWithError
          "fatal: server aborted connection, but couldn't parse reason"))
      | .error err => some (s.raise (.exn err))
    else some { s with waiting := s.waiting ++ [n] }

/-- A notification has been handled. -/
def finishNotification (s : Exchange P) : Except Response.Error Unit → Exchange P
  | .ok () => s
  | .error _ => s.leave (s.client.terminateWithError "received bad notification from server")

/-- The client reads on. -/
def readPackets (e : Ends P) (s : Exchange P) : Option (Exchange P) :=
  match s.reading, s.toClient.read e.version with
  | false, _ => none
  | true, none => none
  | true, some (.error err, toClient) => some ({ s with toClient, reading := false }.raise err)
  | true, some (.ok none, toClient) => some { s with toClient, reading := false }
  | true, some (.ok (some packet), toClient) => readPacket e { s with toClient } packet

/-- The fiber of the server's session goes on with what it reads. -/
def serve (e : Ends P) (s : Exchange P) : Option (Exchange P) :=
  match s.server.stage.reads, s.toServer.read e.server.version with
  | false, _ => none
  | true, none => none
  | true, some (.error _, toServer) => some { s with toServer, server := s.server.finish }
  | true, some (.ok query, toServer) =>
    match e.server.next s.server query with
    | .error _ => some { s with toServer, server := s.server.fail }
    | .ok (server, sent) =>
      some { s with toServer, server, toClient := (s.toClient.writeAll sent).1 }

/-- A task of the server ends, a request with the result `result`. -/
def finishTask (s : Exchange P) (task : Server.MessageKind × Call)
    (tasks : List (Server.MessageKind × Call))
    (result : Except (List H.ExnWithBacktrace) Response) : Exchange P :=
  let s := { s with server := { s.server with tasks } }
  match task with
  | (.notification, _) => s
  | (.request id, _) =>
    { s with toClient := (s.toClient.writeAll (H.dispatchRequest s.server id result)).1 }

/-! ## The calls of the client -/

def request (s : Exchange P) (id : Option Id) (call : Call) : Exchange P :=
  let (id, client) := s.client.genId id
  ({ s with client }.requestUntyped id call).2

def cancel (s : Exchange P) (id : Id) : Conv.Eval (Exchange P) := do
  let client ← s.client.cancel id
  let cancelled := if (s.client.requests.lookup id).isSome then id :: s.cancelled else s.cancelled
  .ok { s with client, cancelled }

def notification (s : Exchange P) (call : Call) : Exchange P :=
  match s.client.makeNotification call with
  | .error _ => s
  | .ok call => (s.send [some [.notification call]]).1

/-- A request in the batch `pending`, which stands between the others. -/
def batchRequest (s : Exchange P) (l₁ : List Client.Batch.Pending)
    (pending : Client.Batch.Pending) (l₂ : List Client.Batch.Pending) (id : Option Id)
    (call : Call) : Exchange P :=
  let (id, client) := s.client.genId id
  match Client.Batch.request client pending id call with
  | .error _ | .ok (.error _, _, _) => { s with client }
  | .ok (.ok _, client, pending) =>
    { s with client, batches := l₁ ++ pending :: l₂, asked := s.asked ++ [(id, call)] }

def submit (s : Exchange P) (l₁ : List Client.Batch.Pending) (pending : Client.Batch.Pending)
    (l₂ : List Client.Batch.Pending) : Exchange P :=
  let (pending, sent) := Client.Batch.submit pending
  ({ s with batches := l₁ ++ pending :: l₂ }.send sent).1

/-- `connect_raw` ends with `Chan.write` of `None`. -/
def finish (s : Exchange P) (menu : Menu (NativeInt P)) : Exchange P :=
  let (client, sent) := s.client.closeWrite
  ({ s with client, run := .finished menu }.send sent).1

/-! ## Steps -/

/-- What the client does once it is connected, and what the two ends do by
themselves. A request does not take the identifier of a cancelled one. When
nothing is left to read the client terminates, unless a notification has not
been handled, or has a fiber raised an exception and thus does not end. -/
inductive Step (e : Ends P) (s : Exchange P) : Exchange P → Prop where
  | connect {s' : Exchange P} (h : s.connect e = some s') : Step e s s'
  | readPackets {s' : Exchange P} (h : s.readPackets e = some s') : Step e s s'
  | serve {s' : Exchange P} (h : s.serve e = some s') : Step e s s'
  | finishTask {menu : Menu (NativeInt P)} {task : Server.MessageKind × Call}
      {l₁ l₂ : List (Server.MessageKind × Call)}
      {result : Except (List H.ExnWithBacktrace) Response}
      (hmenu : s.server.menu = some menu) (htasks : s.server.tasks = l₁ ++ task :: l₂)
      (h : e.handles menu task.2 result) : Step e s (s.finishTask task (l₁ ++ l₂) result)
  | terminated (h : s.server.stage = .terminate) : Step e s { s with server := s.server.finish }
  | notify (call : Call) (h : s.server.stage = .runSession) :
      Step e s { s with toClient := (s.toClient.writeAll [some [.notification call]]).1 }
  | handleNotification {menu : Menu (NativeInt P)} {n : Call} {l₁ l₂ : List Call}
      {result : Except Response.Error Unit} (hmenu : s.run.menu = some menu)
      (hn : s.waiting = l₁ ++ n :: l₂) (h : e.handlesNotification menu n result) :
      Step e s ({ s with waiting := l₁ ++ l₂ }.finishNotification result)
  | ended (hreading : s.reading = false) (hwaiting : s.waiting = []) (hraised : s.raised = [])
      (hrun : s.client.running = true) : Step e s s.terminate
  | request {menu : Menu (NativeInt P)} (hrun : s.run = .connected menu) (id : Option Id)
      (call : Call) (hid : (s.client.genId id).1 ∉ s.cancelled) : Step e s (s.request id call)
  | cancel {menu : Menu (NativeInt P)} {s' : Exchange P} (hrun : s.run = .connected menu) (id : Id)
      (h : s.cancel id = .ok s') : Step e s s'
  | notification {menu : Menu (NativeInt P)} (hrun : s.run = .connected menu) (call : Call) :
      Step e s (s.notification call)
  | batchCreate {menu : Menu (NativeInt P)} (hrun : s.run = .connected menu) :
      Step e s { s with batches := s.batches ++ [[]] }
  | batchRequest {menu : Menu (NativeInt P)} {pending : Client.Batch.Pending}
      {l₁ l₂ : List Client.Batch.Pending} (hrun : s.run = .connected menu)
      (hbatches : s.batches = l₁ ++ pending :: l₂) (id : Option Id) (call : Call)
      (hid : (s.client.genId id).1 ∉ s.cancelled) :
      Step e s (s.batchRequest l₁ pending l₂ id call)
  | batchNotification {menu : Menu (NativeInt P)} {pending pending' : Client.Batch.Pending}
      {l₁ l₂ : List Client.Batch.Pending} (hrun : s.run = .connected menu)
      (hbatches : s.batches = l₁ ++ pending :: l₂) (call : Call)
      (h : Client.Batch.notification s.client pending call = .ok pending') :
      Step e s { s with batches := l₁ ++ pending' :: l₂ }
  | submit {menu : Menu (NativeInt P)} {pending : Client.Batch.Pending}
      {l₁ l₂ : List Client.Batch.Pending} (hrun : s.run = .connected menu)
      (hbatches : s.batches = l₁ ++ pending :: l₂) : Step e s (s.submit l₁ pending l₂)
  | mismatch {menu : Menu (NativeInt P)} {ivar : ℕ} {sexp : Sexp} (hrun : s.run = .connected menu)
      (h : s.client.ivars[ivar]? = some (some (.completed (.ok sexp)))) :
      Step e s s.terminate
  | finish {menu : Menu (NativeInt P)} (hrun : s.run = .connected menu) :
      Step e s (s.finish menu)
  | lost : Step e s { s with toServer := .lost, toClient := .lost }

def system (e : Ends P) : System (Exchange P) where
  init s := s = create
  step := Step e

end Exchange

/-! ## What a pipe holds -/

def Packet.Writable (p : Packet) : Prop := ∃ s, p.toSexp = .ok s

theorem Packet.writable_request (id : Id) (c : Call) : (Packet.request id c).Writable := ⟨_, rfl⟩

theorem Packet.writable_notification (c : Call) : (Packet.notification c).Writable := ⟨_, rfl⟩

theorem Packet.writable_ok (id : Id) (s : Sexp) : (Packet.response id (.ok s)).Writable := ⟨_, rfl⟩

theorem Packet.writable_error (id : Id) {e : Response.Error} (he : e.kind ≠ .connectionDead) :
    (Packet.response id (.error e)).Writable := by
  obtain ⟨payload, message, kind⟩ := e
  cases kind with
  | invalidRequest => cases payload <;> exact ⟨_, rfl⟩
  | codeError => cases payload <;> exact ⟨_, rfl⟩
  | connectionDead => exact absurd rfl he

namespace Pipe

def packet (s : Sexp) : Option Packet :=
  match Packet.ofSexp (3, 0) s with
  | .ok (.ok p) => some p
  | _ => none

theorem packet_eq_some_iff {s : Sexp} {p : Packet} : packet s = some p ↔ p.Spells s := by
  have hread : Packet.ofSexp (3, 0) s = .ok (.ok p) ↔ p.Spells s := Packet.ofSexp_eq_ok_iff
  rw [← hread, packet]
  constructor
  · intro h
    split at h
    · rename_i hp
      rw [hp, Option.some.inj h]
    · cases h
  · intro h
    rw [h]

def packets (p : Pipe) : List Packet := p.sexps.filterMap packet

/-- Everything in the pipe has been written as a packet. -/
def Valid (p : Pipe) : Prop := ∀ s ∈ p.sexps, ∃ q, packet s = some q

theorem empty_valid : empty.Valid := fun _ h => nomatch h

theorem lost_valid : lost.Valid := fun _ h => nomatch h

theorem packet_of_toSexp {p : Packet} {s : Sexp} (h : p.toSexp = .ok s) : packet s = some p := by
  have hread : Conv.ofSexp.loop (Env.none.read (3, 0) 0) (3, 0) Packet.sexp s = .ok (p, ()) :=
    Conv.loop_reads_none Packet.sexp_wellFormed h
  have hp : Packet.ofSexp (3, 0) s = .ok (.ok p) := by
    rw [Packet.ofSexp, Conv.ofSexp, hread]
  rw [packet, hp]

variable {p p' : Pipe} {version : ℤ × ℤ}

theorem filterMap_packet {ps : List Packet} {ss : List Sexp}
    (h : List.Forall₂ (fun p s => Packet.toSexp p = .ok s) ps ss) :
    ss.filterMap packet = ps ∧ ∀ s ∈ ss, ∃ q, packet s = some q := by
  induction h with
  | nil => exact ⟨rfl, fun _ h => nomatch h⟩
  | cons hp _ ih =>
      have hpacket := packet_of_toSexp hp
      exact ⟨by rw [List.filterMap_cons_some hpacket, ih.1],
        List.forall_mem_cons.mpr ⟨⟨_, hpacket⟩, ih.2⟩⟩

theorem write_some {ps : List Packet} (h : p.write (some ps) = .ok p') :
    p.closed = false ∧ p'.closed = false ∧ p'.packets = p.packets ++ ps ∧
      (p.Valid → p'.Valid) := by
  obtain ⟨ss, hss, h⟩ := bind_eq_ok_iff.mp h
  split_ifs at h with hclosed
  cases h
  rw [Bool.not_eq_true] at hclosed
  obtain ⟨hpackets, hvalid⟩ := filterMap_packet (mapM_eq_ok_iff.mp hss)
  refine ⟨hclosed, hclosed, ?_, fun hp => List.forall_mem_append.mpr ⟨hp, hvalid⟩⟩
  rw [packets, List.filterMap_append, hpackets, packets]

theorem exists_write {ps : List Packet} (hclosed : p.closed = false)
    (hps : ∀ q ∈ ps, q.Writable) : ∃ p', p.write (some ps) = .ok p' := by
  have hss : ∃ ss, List.Forall₂ (fun p s => Packet.toSexp p = .ok s) ps ss := by
    induction ps with
    | nil => exact ⟨[], .nil⟩
    | cons q ps ih =>
        obtain ⟨s, hs⟩ := hps q List.mem_cons_self
        obtain ⟨ss, hss⟩ := ih fun q hq => hps q (List.mem_cons_of_mem _ hq)
        exact ⟨s :: ss, .cons hs hss⟩
  obtain ⟨ss, hss⟩ := hss
  refine ⟨{ p with sexps := p.sexps ++ ss }, bind_eq_ok_iff.mpr ⟨ss, mapM_eq_ok_iff.mpr hss, ?_⟩⟩
  rw [hclosed, if_neg Bool.false_ne_true]

/-- The packets among what has been given to write. -/
def packetsOf (sent : List Sent) : List Packet := (sent.filterMap id).flatten

/-- What is written is a first part of what has been given to write, and
closes the pipe at most. -/
theorem writeAll_spec (p : Pipe) (sent : List Sent) :
    (∃ ps, (p.writeAll sent).1.packets = p.packets ++ ps ∧
      ps <+: packetsOf sent) ∧
    (p.Valid → (p.writeAll sent).1.Valid) ∧
    (p.closed = true → (p.writeAll sent).1.closed = true) := by
  induction sent generalizing p with
  | nil => exact ⟨⟨[], (List.append_nil _).symm, List.nil_prefix⟩, id, id⟩
  | cons x sent ih =>
      rw [writeAll]
      cases h : p.write x with
      | error e => exact ⟨⟨[], (List.append_nil _).symm, List.nil_prefix⟩, id, id⟩
      | ok p' =>
          obtain ⟨⟨ps, hps, hpart⟩, hvalid, hclosed⟩ := ih p'
          cases x with
          | none =>
              cases h
              exact ⟨⟨ps, hps, hpart⟩, hvalid, fun _ => hclosed rfl⟩
          | some qs =>
              obtain ⟨hopen, -, hpackets, hvalid'⟩ := write_some h
              refine ⟨⟨qs ++ ps, ?_, ?_⟩, fun hp => hvalid (hvalid' hp), fun hp => ?_⟩
              · rw [hps, hpackets, List.append_assoc]
              · change qs ++ ps <+: qs ++ packetsOf sent
                exact (List.prefix_append_right_inj qs).mpr hpart
              · rw [hopen] at hp
                cases hp

/-- Nothing enters a pipe that is closed. -/
theorem writeAll_of_closed (hclosed : p.closed = true) (sent : List Sent) :
    (p.writeAll sent).1.closed = true ∧ (p.writeAll sent).1.packets = p.packets := by
  induction sent generalizing p with
  | nil => exact ⟨hclosed, rfl⟩
  | cons x sent ih =>
      rw [writeAll]
      cases h : p.write x with
      | error e => exact ⟨hclosed, rfl⟩
      | ok p' =>
          cases x with
          | none =>
              cases h
              exact ih rfl
          | some ps =>
              obtain ⟨hopen, -⟩ := write_some h
              rw [hclosed] at hopen
              cases hopen

/-- Packets that can be written all enter a pipe that is open. -/
theorem writeAll_of_open {ps : List Packet} (hclosed : p.closed = false)
    (hps : ∀ q ∈ ps, q.Writable) :
    (p.writeAll [some ps]).1.packets = p.packets ++ ps ∧
      (p.writeAll [some ps]).1.closed = false ∧ (p.writeAll [some ps]).2 = none := by
  obtain ⟨p', hp'⟩ := exists_write hclosed hps
  obtain ⟨-, hopen, hpackets, -⟩ := write_some hp'
  simp only [writeAll, hp']
  exact ⟨hpackets, hopen, trivial⟩

/-- What is read from a pipe, and what stays in it. -/
structure Reads (p : Pipe) (query : Option Packet) (p' : Pipe) : Prop where
  valid : p'.Valid
  closed : p'.closed = p.closed
  packets : p.packets = query.toList ++ p'.packets
  eof : query = none → p' = p ∧ p.closed = true ∧ p.packets = []

theorem Reads.packets_some {q : Packet} (h : p.Reads (some q) p') :
    p.packets = q :: p'.packets := h.packets

theorem Reads.sublist {query : Option Packet} (h : p.Reads query p') :
    p'.packets.Sublist p.packets :=
  h.packets ▸ List.sublist_append_right _ _

theorem Valid.reads {x : Except Failure (Option Packet)} (h : p.Valid)
    (hread : p.read version = some (x, p')) : ∃ query, x = .ok query ∧ p.Reads query p' := by
  obtain ⟨sexps, closed⟩ := p
  cases sexps with
  | nil =>
      cases closed with
      | false => cases hread
      | true =>
          cases hread
          exact ⟨none, rfl, h, rfl, rfl, fun _ => ⟨rfl, rfl, rfl⟩⟩
  | cons s sexps =>
      obtain ⟨⟨q, hq⟩, hvalid⟩ := List.forall_mem_cons.mp h
      have hofSexp : Packet.ofSexp version s = .ok (.ok q) :=
        Packet.ofSexp_eq_ok_iff.mpr (packet_eq_some_iff.mp hq)
      simp only [read, hofSexp, Option.some.injEq, Prod.mk.injEq] at hread
      obtain ⟨rfl, rfl⟩ := hread
      refine ⟨some q, rfl, hvalid, rfl, ?_, fun h => by cases h⟩
      rw [packets, List.filterMap_cons_some hq, packets]
      rfl

/-- A reader waits only for an open pipe with nothing in it. -/
theorem Valid.read_eq_none (h : p.Valid) (hread : p.read version = none) :
    p.packets = [] ∧ p.closed = false := by
  obtain ⟨sexps, closed⟩ := p
  cases sexps with
  | nil =>
      cases closed with
      | false => exact ⟨rfl, rfl⟩
      | true => cases hread
  | cons s sexps =>
      obtain ⟨⟨q, hq⟩, -⟩ := List.forall_mem_cons.mp h
      have hofSexp : Packet.ofSexp version s = .ok (.ok q) :=
        Packet.ofSexp_eq_ok_iff.mpr (packet_eq_some_iff.mp hq)
      simp only [read, hofSexp] at hread
      cases hread

end Pipe

/-! ## The cases of a step -/

namespace Exchange

variable {e : Ends P} {s s' : Exchange P}

theorem terminateWithError_eq (t : Client P) (message : String) :
    t.terminateWithError message =
      t.terminate.map fun p => (p.1, p.2, some (.codeError message)) := by
  rw [Client.terminateWithError]
  cases t.terminate with
  | error err => rfl
  | ok p => rfl

/-- How `run` goes on until it is connected. -/
inductive Connects (e : Ends P) (s : Exchange P) : Exchange P → Prop where
  | raised (err : Failure) : Connects e s { s with run := .raised err }
  | initializing {call : Call} (hrun : s.run = .start)
      (hcall : raising e.init.toCall = .ok call) :
      Connects e s (await .initializing (s.requestUntyped initializeId call))
  | negotiating {ivar : ℕ} {x : Outcome} {call : Call} (hrun : s.run = .initializing ivar)
      (hivar : s.client.ivars[ivar]? = some (some x))
      (hparse : parseAnswer e initializeId Initialize.Response.sexp x = .ok ())
      (hcall : raising (VersionNegotiation.Request.create e.procedures).toCall = .ok call) :
      Connects e s (await .negotiating (s.requestUntyped versionMenuId call))
  | terminated (err : Failure) : Connects e s { s.terminate with run := .raised err }
  | connected {ivar : ℕ} {x : Outcome} {methods : VersionNegotiation.Response P}
      {menu : Menu (NativeInt P)} (hrun : s.run = .negotiating ivar)
      (hivar : s.client.ivars[ivar]? = some (some x))
      (hparse : parseAnswer e versionMenuId VersionNegotiation.Response.sexp x = .ok methods)
      (hmenu : StringMap.ofList methods.selected = .ok menu) :
      Connects e s { s with
        client := { s.client with handlerInitialized := true }, run := .connected menu }

theorem connect_cases (hs : s.connect e = some s') :
    (∀ menu, s.run ≠ .finished menu) ∧ s.Connects e s' := by
  refine ⟨fun menu hr => ?_, ?_⟩
  · simp only [Exchange.connect, hr] at hs
    cases hs
  unfold Exchange.connect at hs
  split at hs
  · rename_i hrun
    split at hs
    · cases hs
      exact .raised _
    · rename_i call hcall
      cases hs
      exact .initializing hrun hcall
  · rename_i ivar hrun
    split at hs
    · rename_i x hivar
      split at hs
      · cases hs
        exact .raised _
      · rename_i hparse
        split at hs
        · cases hs
          exact .raised _
        · rename_i call hcall
          cases hs
          exact .negotiating hrun hivar hparse hcall
    · cases hs
  · rename_i ivar hrun
    split at hs
    · rename_i x hivar
      split at hs
      · cases hs
        exact .raised _
      · rename_i methods hparse
        split at hs
        · cases hs
          exact .terminated _
        · rename_i menu hmenu
          cases hs
          exact .connected hrun hivar hparse hmenu
    · cases hs
  · cases hs
  · cases hs
  · cases hs

/-- What the client does about what it reads. -/
inductive ClientReads (s : Exchange P) : Exchange P → Prop where
  | eof (hclosed : s.toClient.closed = true) (hnil : s.toClient.packets = []) :
      ClientReads s { s with reading := false }
  | response {id : Id} {r : Response} {toClient : Pipe}
      (hpipe : s.toClient.Reads (some (.response id r)) toClient) :
      ClientReads s ({ s with toClient }.leave (s.client.readResponse id r))
  | ignored {n : Call} {toClient : Pipe}
      (hpipe : s.toClient.Reads (some (.notification n)) toClient) :
      ClientReads s { s with toClient }
  | raised {n : Call} {toClient : Pipe}
      (hpipe : s.toClient.Reads (some (.notification n)) toClient) (err : Failure) :
      ClientReads s ({ s with toClient }.raise err)
  | failed {n : Call} {toClient : Pipe}
      (hpipe : s.toClient.Reads (some (.notification n)) toClient) (exn : Option Conv.Exn) :
      ClientReads s (({ s with toClient } : Exchange P).leave
        (s.client.terminate.map fun p => (p.1, p.2, exn)))
  | waits {n : Call} {toClient : Pipe}
      (hpipe : s.toClient.Reads (some (.notification n)) toClient) :
      ClientReads s { s with toClient, waiting := s.waiting ++ [n] }

theorem readPackets_cases (h : s.toClient.Valid) (hs : s.readPackets e = some s') :
    s.reading = true ∧ s.ClientReads s' := by
  unfold Exchange.readPackets at hs
  split at hs
  · cases hs
  · cases hs
  · rename_i hread
    obtain ⟨query, hx, -⟩ := h.reads hread
    cases hx
  · rename_i hreading hread
    obtain ⟨query, hx, hpipe⟩ := h.reads hread
    cases hx
    cases hs
    obtain ⟨rfl, hclosed, hnil⟩ := hpipe.eof rfl
    exact ⟨hreading, .eof hclosed hnil⟩
  · rename_i packet toClient hreading hread
    obtain ⟨query, hx, hpipe⟩ := h.reads hread
    cases hx
    refine ⟨hreading, ?_⟩
    cases packet with
    | request id call => cases hs
    | response id r =>
        cases hs
        exact .response hpipe
    | notification n =>
        simp only [readPacket, terminateWithError_eq] at hs
        split at hs
        · split at hs
          · split at hs
            · cases hs
              exact .ignored hpipe
            · cases hs
              exact .raised hpipe _
          · cases hs
            exact .failed hpipe _
          · cases hs
            exact .raised hpipe _
        · cases hs
          exact .waits hpipe

/-- Where the session goes on with what the server reads. A session that runs
fails with a response only, and then does not terminate in order. -/
inductive ServerReads (e : Ends P) (s : Exchange P) : Exchange P → Prop where
  | failed {query : Option Packet} {toServer : Pipe} (hpipe : s.toServer.Reads query toServer)
      (hstage : s.server.stage ≠ .runSession) :
      ServerReads e s { s with toServer, server := s.server.finish }
  | unexpected {id : Id} {r : Response} {toServer : Pipe}
      (hpipe : s.toServer.Reads (some (.response id r)) toServer)
      (hstage : s.server.stage = .runSession) :
      ServerReads e s { s with toServer, server := s.server.fail }
  | abandoned {toServer : Pipe} (hpipe : s.toServer.Reads none toServer)
      (hstage : s.server.stage = .runSession) (hraised : s.server.raised = true) :
      ServerReads e s { s with toServer, server := s.server.finish }
  | opens {query : Option Packet} {toServer : Pipe} {server : Session P} {sent : List Sent}
      (hpipe : s.toServer.Reads query toServer)
      (hstage : s.server.stage = .handle ∨ s.server.stage = .negotiateVersion)
      (hopens : H.Opens e.server s.server query server sent) :
      ServerReads e s { s with toServer, server, toClient := (s.toClient.writeAll sent).1 }
  | eof {toServer : Pipe} (hpipe : s.toServer.Reads none toServer)
      (hstage : s.server.stage = .runSession) :
      ServerReads e s { s with
        toServer
        server := { s.server with stage := .terminate }
        toClient := (s.toClient.writeAll [none]).1 }
  | notification {n : Call} {toServer : Pipe}
      (hpipe : s.toServer.Reads (some (.notification n)) toServer)
      (hstage : s.server.stage = .runSession) :
      ServerReads e s { s with
        toServer, server := { s.server with tasks := s.server.tasks ++ [(.notification, n)] } }
  | request {id : Id} {call : Call} {toServer : Pipe}
      (hpipe : s.toServer.Reads (some (.request id call)) toServer)
      (hstage : s.server.stage = .runSession) :
      ServerReads e s { s with
        toServer, server := { s.server with tasks := s.server.tasks ++ [(.request id, call)] } }

theorem serve_cases (h : s.toServer.Valid) (hs : s.serve e = some s') :
    s.server.stage.reads = true ∧ s.ServerReads e s' := by
  unfold Exchange.serve at hs
  split at hs
  · cases hs
  · cases hs
  · rename_i hread
    obtain ⟨query, hx, -⟩ := h.reads hread
    cases hx
  · rename_i query toServer hreads hread
    obtain ⟨query', hx, hpipe⟩ := h.reads hread
    cases hx
    refine ⟨hreads, ?_⟩
    split at hs
    · rename_i err hnext
      cases hs
      by_cases hstage : s.server.stage = .runSession
      · simp only [H.next, hstage] at hnext
        cases query with
        | none =>
            unfold H.runSession at hnext
            dsimp only at hnext
            split at hnext
            · cases hnext
            · cases hnext
        | some q =>
            cases q with
            | request id call => cases hnext
            | notification n => cases hnext
            | response id r => exact .unexpected hpipe hstage
      · rw [Session.fail_of_ne hstage]
        exact .failed hpipe hstage
    · rename_i server sent hnext
      cases hs
      cases hstage : s.server.stage with
      | handle =>
          simp only [H.next, hstage] at hnext
          exact .opens hpipe (.inl hstage) (H.handle_opens hstage hnext)
      | negotiateVersion =>
          simp only [H.next, hstage] at hnext
          exact .opens hpipe (.inr hstage) (H.negotiateVersion_opens hstage hnext)
      | runSession =>
          simp only [H.next, hstage] at hnext
          cases query with
          | none =>
              unfold H.runSession at hnext
              dsimp only at hnext
              split at hnext
              · rename_i hraised
                cases hnext
                exact .abandoned hpipe hstage hraised
              · cases hnext
                exact .eof hpipe hstage
          | some q =>
              cases q with
              | response id r => cases hnext
              | notification n =>
                  cases hnext
                  exact .notification hpipe hstage
              | request id call =>
                  cases hnext
                  exact .request hpipe hstage
      | terminate =>
          rw [hstage] at hreads
          cases hreads
      | finished =>
          rw [hstage] at hreads
          cases hreads

end Exchange

end Csexp.Rpc
