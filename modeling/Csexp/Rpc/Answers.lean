import Csexp.Rpc.Flight

/-!
# Answers

Whatever the order in which the two ends take their steps, the client and
the server of a connection agree on the menu, and no request is answered
with the response to another one.
-/

namespace Csexp.Rpc

open Conv (Env)
open Raising
open Server (Session Stage MessageKind H)

variable {P : Platform}

namespace Exchange

/-! ## The invariant -/

def isRequest : Packet → Bool
  | .request _ _ => true
  | .response _ _ | .notification _ => false

/-- How many requests the client may have made at a stage of the server, when
`k` of them have not been read. -/
def Progress (server : Session P) (n k : ℕ) : Prop :=
  match server.stage with
  | .handle => k ≤ n ∧ n ≤ 1 ∧ server.menu = none
  | .negotiateVersion => k + 1 ≤ n ∧ n ≤ 2 ∧ server.menu = none
  | .runSession | .terminate => 2 ≤ n ∧ server.menu ≠ none
  | .finished => server.menu ≠ none → 2 ≤ n

/-- What holds wherever the fiber `run` is. -/
structure Core (e : Ends P) (s : Exchange P) : Prop where
  client : s.client.Inv
  length : s.asked.length = s.client.ivars.length
  owner : ∀ id i, s.client.requests.lookup id = some (.pending i) →
    ∃ call, s.asked[i]? = some (id, call)
  toServer : s.toServer.Valid
  toClient : s.toClient.Valid
  noResponse : ∀ id r, .response id r ∉ s.toServer.packets ∧ .response id r ∉ s.batches.flatten
  noRequest : ∀ id call, .request id call ∉ s.toClient.packets
  progress : Progress s.server s.asked.length (s.toServer.packets.countP isRequest)
  filled : ∀ i r, s.client.ivars[i]? = some (some (.completed r)) →
    ∃ id call, s.asked[i]? = some (id, call) ∧ Answered e s.server i call r
  menuCall : ∀ id call, s.asked[1]? = some (id, call) →
    (VersionNegotiation.Request.create e.procedures).toCall = .ok call
  reading : s.reading = false → s.toClient.closed = true ∧ s.toClient.packets = []
  cancelled : s.cancelled ≠ [] → s.server.menu ≠ none
  flight : s.client.running = true → s.Flight e

structure Inv (e : Ends P) (s : Exchange P) : Prop extends Core e s where
  run : match s.run with
    | .start => s.asked = []
    | .initializing ivar => ivar = 0 ∧ s.asked.length = 1
    | .negotiating ivar => ivar = 1 ∧ s.asked.length = 2
    | .connected menu | .finished menu => Negotiates e s.server menu
    | .raised _ => True

/-- A step that does not belong to `run`. -/
structure After (e : Ends P) (s s' : Exchange P) : Prop where
  core : s'.Core e
  run : s'.run = s.run
  later : Later s.server s'.server
  asked : s'.asked = s.asked

variable {e : Ends P} {s s' : Exchange P} {id : Id} {call : Call} {i : ℕ}

theorem Inv.after (h : s.Inv e) (hs : After e s s') : s'.Inv e := by
  refine ⟨hs.core, ?_⟩
  have hold := h.run
  rw [hs.run, hs.asked]
  cases hr : s.run with
  | start => rwa [hr] at hold
  | initializing ivar => rwa [hr] at hold
  | negotiating ivar => rwa [hr] at hold
  | connected menu =>
      rw [hr] at hold
      exact ⟨hs.later.menu menu hold.1, hold.2⟩
  | finished menu =>
      rw [hr] at hold
      exact ⟨hs.later.menu menu hold.1, hold.2⟩
  | raised err => trivial

theorem Progress.mono {server : Session P} {n k k' : ℕ} (h : Progress server n k) (hk : k' ≤ k) :
    Progress server n k' := by
  rw [Progress] at h ⊢
  cases hs : server.stage <;> rw [hs] at h
  · exact ⟨hk.trans h.1, h.2⟩
  · exact ⟨(Nat.succ_le_succ hk).trans h.1, h.2⟩
  · exact h
  · exact h
  · exact h

theorem create_inv : (create : Exchange P).Inv e where
  client := Client.create_inv
  length := rfl
  owner _ _ h := by
    rw [create, Client.create, AList.lookup_empty] at h
    cases h
  toServer := Pipe.empty_valid
  toClient := Pipe.empty_valid
  noResponse _ _ := ⟨List.not_mem_nil, List.not_mem_nil⟩
  noRequest _ _ := List.not_mem_nil
  progress := ⟨le_rfl, Nat.zero_le 1, rfl⟩
  filled _ _ h := by
    rw [create, Client.create, List.getElem?_nil] at h
    cases h
  menuCall _ _ h := by
    rw [create, List.getElem?_nil] at h
    cases h
  reading h := by cases h
  cancelled h := absurd rfl h
  flight _ :=
    { count := fun _ => Nat.zero_le _
      disjoint := fun _ _ => List.not_mem_nil
      batches := fun _ _ h => absurd h List.not_mem_nil
      toServer := fun _ _ h => absurd h List.not_mem_nil
      tasks := fun _ _ h => absurd h List.not_mem_nil
      toClient := fun _ _ h => absurd h List.not_mem_nil }
  run := rfl

/-! ## Steps that leave the requests alone -/

theorem Core.raise (h : s.Core e) (raised : List Failure) (waiting : List Call) :
    ({ s with raised, waiting } : Exchange P).Core e :=
  ⟨h.client, h.length, h.owner, h.toServer, h.toClient, h.noResponse, h.noRequest, h.progress,
    h.filled, h.menuCall, h.reading, h.cancelled,
    fun hrun => ⟨(h.flight hrun).count, (h.flight hrun).disjoint, (h.flight hrun).batches,
      (h.flight hrun).toServer, (h.flight hrun).tasks, (h.flight hrun).toClient⟩⟩

theorem Core.reading_congr {reading : Bool} (h : s.Core e)
    (hreading : reading = false → s.toClient.closed = true ∧ s.toClient.packets = []) :
    ({ s with reading } : Exchange P).Core e :=
  ⟨h.client, h.length, h.owner, h.toServer, h.toClient, h.noResponse, h.noRequest, h.progress,
    h.filled, h.menuCall, hreading, h.cancelled,
    fun hrun => ⟨(h.flight hrun).count, (h.flight hrun).disjoint, (h.flight hrun).batches,
      (h.flight hrun).toServer, (h.flight hrun).tasks, (h.flight hrun).toClient⟩⟩

/-- What may differ are the counter, the flags and the fiber `run`. -/
theorem Core.client_congr {client : Client P} {run : Run P} (h : s.Core e)
    (hrequests : client.requests = s.client.requests) (hivars : client.ivars = s.client.ivars)
    (hrunning : client.running = s.client.running) :
    ({ s with client, run } : Exchange P).Core e := by
  obtain ⟨requests, ivars, nextId, running, handlerInitialized, closedWrite⟩ := client
  cases hrequests
  cases hivars
  cases hrunning
  exact ⟨⟨h.client.pending, h.client.owner, h.client.unique, h.client.stopped⟩, h.length, h.owner,
    h.toServer, h.toClient, h.noResponse, h.noRequest, h.progress, h.filled, h.menuCall, h.reading,
    h.cancelled, fun hrun => ⟨(h.flight hrun).count, (h.flight hrun).disjoint,
      (h.flight hrun).batches, (h.flight hrun).toServer, (h.flight hrun).tasks,
      (h.flight hrun).toClient⟩⟩

/-- Packets leave the pipes, and notifications enter them. -/
theorem Core.pipes {toServer toClient : Pipe} (h : s.Core e) (hserver : toServer.Valid)
    (hclient : toClient.Valid)
    (hserverMem : ∀ p ∈ toServer.packets,
      p ∈ s.toServer.packets ∨ ∃ call, p = .notification call)
    (hclientMem : ∀ p ∈ toClient.packets,
      p ∈ s.toClient.packets ∨ ∃ call, p = .notification call)
    (hserverCount : ∀ id, toServer.packets.countP (asks id) ≤ s.toServer.packets.countP (asks id))
    (hrequests : toServer.packets.countP isRequest ≤ s.toServer.packets.countP isRequest)
    (hclientCount : ∀ id,
      toClient.packets.countP (answers id) ≤ s.toClient.packets.countP (answers id))
    (hreading : s.reading = false → toClient.closed = true ∧ toClient.packets = []) :
    ({ s with toServer, toClient } : Exchange P).Core e := by
  refine ⟨h.client, h.length, h.owner, hserver, hclient, fun id r => ⟨fun hmem => ?_, ?_⟩,
    fun id call hmem => ?_, h.progress.mono hrequests, h.filled, h.menuCall, hreading,
    h.cancelled, fun hrun => ?_⟩
  · rcases hserverMem _ hmem with hmem | ⟨call, hcall⟩
    · exact (h.noResponse id r).1 hmem
    · cases hcall
  · exact (h.noResponse id r).2
  · rcases hclientMem _ hmem with hmem | ⟨call, hcall⟩
    · exact h.noRequest id call hmem
    · cases hcall
  · refine (h.flight hrun).mono rfl rfl rfl (fun id => ?_) (Later.refl _) (fun _ _ hmem => hmem) ?_
      (h.flight hrun).tasks fun id r hmem => ?_
    · have h₁ := hserverCount id
      have h₂ := hclientCount id
      simp only [inFlight]
      omega
    · intro id call hmem
      rcases hserverMem _ hmem with hmem | ⟨call, hcall⟩
      · exact (h.flight hrun).toServer id _ hmem
      · cases hcall
    · rcases hclientMem _ hmem with hmem | ⟨call, hcall⟩
      · exact .inl hmem
      · cases hcall

def OnlyNotifications (ps : List Packet) : Prop := ∀ p ∈ ps, ∃ call, p = .notification call

theorem OnlyNotifications.mem {p : Packet} {ps qs qs' : List Packet}
    (hsent : OnlyNotifications qs') (hqs : qs <+: qs') (hp : p ∈ ps ++ qs) :
    p ∈ ps ∨ ∃ call, p = .notification call := by
  rcases List.mem_append.mp hp with hp | hp
  · exact .inl hp
  · exact .inr (hsent p (hqs.subset hp))

theorem OnlyNotifications.countP {f : Packet → Bool} {ps qs qs' : List Packet}
    (hsent : OnlyNotifications qs') (hqs : qs <+: qs')
    (hf : ∀ call, f (.notification call) = false) : (ps ++ qs).countP f ≤ ps.countP f := by
  have hzero : qs.countP f = 0 := by
    rw [List.countP_eq_zero]
    intro p hp
    obtain ⟨call, rfl⟩ := hsent p (hqs.subset hp)
    rw [hf]
    exact Bool.false_ne_true
  rw [List.countP_append, hzero, Nat.add_zero]

/-- Notifications are sent to the server, or the pipe is closed. -/
theorem Core.send (h : s.Core e) {sent : List Sent}
    (hsent : OnlyNotifications (Pipe.packetsOf sent)) :
    (s.send sent).1.Core e := by
  obtain ⟨⟨ps, hps, hpart⟩, hvalid, -⟩ := s.toServer.writeAll_spec sent
  refine h.pipes (hvalid h.toServer) h.toClient (fun p hp => ?_) (fun _ => .inl) (fun id => ?_)
    ?_ (fun _ => le_rfl) h.reading
  · exact hsent.mem hpart (hps ▸ hp)
  · rw [hps]
    exact hsent.countP hpart fun _ => rfl
  · rw [hps]
    exact hsent.countP hpart fun _ => rfl

theorem Core.reading_writeAll (h : s.Core e) (sent : List Sent) (hreading : s.reading = false) :
    (s.toClient.writeAll sent).1.closed = true ∧ (s.toClient.writeAll sent).1.packets = [] := by
  obtain ⟨hclosed, hnil⟩ := h.reading hreading
  obtain ⟨hclosed', hsame⟩ := Pipe.writeAll_of_closed hclosed sent
  exact ⟨hclosed', hsame.trans hnil⟩

/-- Notifications are sent to the client, or the pipe is closed. -/
theorem Core.sendClient (h : s.Core e) {sent : List Sent}
    (hsent : OnlyNotifications (Pipe.packetsOf sent)) :
    ({ s with toClient := (s.toClient.writeAll sent).1 } : Exchange P).Core e := by
  obtain ⟨⟨ps, hps, hpart⟩, hvalid, -⟩ := s.toClient.writeAll_spec sent
  refine h.pipes h.toServer (hvalid h.toClient) (fun _ => .inl) (fun p hp => ?_) (fun _ => le_rfl)
    le_rfl (fun id => ?_) (h.reading_writeAll sent)
  · exact hsent.mem hpart (hps ▸ hp)
  · rw [hps]
    exact hsent.countP hpart fun _ => rfl

/-! ## The client terminates -/

/-- What a terminating client leaves, whether or not it raises an exception
as well. -/
theorem Core.leave_terminate (h : s.Core e) (exn : Option Conv.Exn) :
    After e s (s.leave (s.client.terminate.map fun p => (p.1, p.2, exn))) ∧
      (s.leave (s.client.terminate.map fun p => (p.1, p.2, exn))).client.running = false := by
  cases hrun : s.client.running with
  | false =>
      rw [Client.terminate_of_not_running hrun]
      refine ⟨⟨?_, rfl, Later.refl _, rfl⟩, hrun⟩
      exact h.raise _ _
  | true =>
      obtain ⟨sent, hsent, hterminate⟩ := h.client.terminate hrun
      rw [hterminate]
      refine ⟨⟨?_, rfl, Later.refl _, rfl⟩, rfl⟩
      have hdead : ({ s with client := s.client.dead } : Exchange P).Core e := by
        refine ⟨s.client.dead_inv, ?_, ?_, h.toServer, h.toClient, h.noResponse, h.noRequest,
          h.progress, ?_, h.menuCall, h.reading, h.cancelled, fun hrun' => by cases hrun'⟩
        · rw [Client.dead, List.length_map]
          exact h.length
        · intro id i hlookup
          rw [Client.dead, AList.lookup_empty] at hlookup
          cases hlookup
        · intro i r hi
          rw [Client.dead, List.getElem?_map, Option.map_eq_some_iff] at hi
          obtain ⟨x, hx, hr⟩ := hi
          cases x with
          | none => cases hr
          | some x =>
              cases hr
              exact h.filled i r hx
      refine (hdead.send ?_).raise _ _
      rcases hsent with rfl | rfl
      · exact fun _ hp => absurd hp List.not_mem_nil
      · exact fun _ hp => absurd hp List.not_mem_nil

/-! ## Responses come in -/

/-- Nothing is left to read when the client reads no more. -/
theorem Core.reads (h : s.Core e) (hp : s.toClient.packets ≠ []) : s.reading = true := by
  by_contra hreading
  rw [Bool.not_eq_true] at hreading
  exact hp (h.reading hreading).2

theorem Core.settle (h : s.Core e) (hlookup : s.client.requests.lookup id = some (.pending i))
    {x : Outcome} {cancelled : List Id}
    (hx : ∀ r, x = .completed r → ∃ call, s.asked[i]? = some (id, call) ∧
      Answered e s.server i call r)
    (hcancelled : cancelled ≠ [] → s.server.menu ≠ none)
    (hflight : s.client.running = true →
      ({ s with client := s.client.settle id i x, cancelled } : Exchange P).Flight e) :
    ({ s with client := s.client.settle id i x, cancelled } : Exchange P).Core e := by
  refine ⟨(h.client.settle hlookup x).2, ?_, fun id' j hj => ?_, h.toServer, h.toClient,
    h.noResponse, h.noRequest, h.progress, fun j r hj => ?_, h.menuCall, h.reading, hcancelled,
    hflight⟩
  · rw [Client.settle, List.length_set]
    exact h.length
  · exact h.owner id' j (Client.lookup_eq_some_of_erase hj).2
  · simp only [Client.settle, List.getElem?_set] at hj
    split_ifs at hj with hij
    · obtain ⟨call, hcall⟩ := hx r (Option.some.inj (Option.some.inj hj))
      exact ⟨id, call, hij ▸ hcall⟩
    · exact h.filled j r hj

/-- The response `id` is taken out of the pipe. -/
theorem Flight.pop {toClient : Pipe} {r : Response} (h : s.Flight e)
    (hp : s.toClient.packets = .response id r :: toClient.packets) :
    ({ s with toClient } : Exchange P).Flight e ∧
      (id ∈ s.client.requests → ({ s with toClient } : Exchange P).Landed id) := by
  have hcount (id' : Id) : s.toClient.packets.countP (answers id') =
      toClient.packets.countP (answers id') + if id = id' then 1 else 0 := by
    rw [hp, List.countP_cons]
    simp only [answers, decide_eq_true_eq]
  constructor
  · refine h.mono rfl rfl rfl (fun id' => ?_) (Later.refl _) (fun _ _ hmem => hmem) h.toServer
      h.tasks fun id' r' hmem => .inl (hp ▸ List.mem_cons_of_mem _ hmem)
    have := hcount id'
    simp only [inFlight]
    omega
  · intro hid
    have hone := h.count id
    rw [owed_of_mem hid h, inFlight, hcount, if_pos rfl] at hone
    rw [landed_iff, inFlight]
    dsimp only
    omega

/-- A packet leaves the pipe. -/
theorem Core.pop {toClient : Pipe} {q : Packet} (h : s.Core e) (hvalid : toClient.Valid)
    (hp : s.toClient.packets = q :: toClient.packets) :
    ({ s with toClient } : Exchange P).Core e := by
  refine h.pipes h.toServer hvalid (fun _ => .inl) (fun p hmem => .inl ?_) (fun _ => le_rfl)
    le_rfl (fun id => ?_) fun hr => ?_
  · exact hp ▸ List.mem_cons_of_mem _ hmem
  · rw [hp, List.countP_cons]
    exact Nat.le_add_right _ _
  · rw [(h.reading hr).2] at hp
    cases hp

/-- What a response from the server does: it settles the request that it
answers, unless that has been cancelled. -/
theorem Core.readResponse {toClient : Pipe} {r : Response} (h : s.Core e)
    (hvalid : toClient.Valid) (hp : s.toClient.packets = .response id r :: toClient.packets) :
    After e s (({ s with toClient } : Exchange P).leave (s.client.readResponse id r)) := by
  have hpopped := h.pop hvalid hp
  cases hlookup : s.client.requests.lookup id with
  | none =>
      rw [Client.readResponse, hlookup, terminateWithError_eq]
      obtain ⟨hcore, hrun, hlater, hasked⟩ := (Core.leave_terminate (s := { s with toClient })
        hpopped (some (.codeError "unexpected response"))).1
      exact ⟨hcore, hrun, hlater, hasked⟩
  | some status =>
      obtain ⟨i, rfl, -⟩ := h.client.pending id status hlookup
      rw [h.client.readResponse hlookup r]
      refine ⟨?_, rfl, Later.refl _, rfl⟩
      have hid := Client.mem_of_lookup hlookup
      have hrunning := h.client.running hlookup
      have hflight := h.flight hrunning
      have hanswer : ∃ call, s.asked[i]? = some (id, call) ∧ Answered e s.server i call r := by
        have hmem : .response id r ∈ s.toClient.packets := hp ▸ List.mem_cons_self
        rcases hflight.toClient id r hmem with hc | ⟨j, call, ho, ha⟩
        · exact absurd hc (hflight.disjoint id hid)
        · have hij := hlookup.symm.trans ho.1
          cases hij
          exact ⟨call, ho.2, ha⟩
      refine Core.raise (Core.settle hpopped hlookup (fun r' hr' => ?_) h.cancelled fun _ => ?_) _ _
      · cases hr'
        exact hanswer
      · exact (hflight.pop hp).1.settle ((hflight.pop hp).2 hid) _

theorem Core.readPackets (h : s.Core e) (hs : s.readPackets e = some s') : After e s s' := by
  obtain ⟨-, hreads⟩ := readPackets_cases h.toClient hs
  cases hreads with
  | eof hclosed hnil =>
      exact ⟨h.reading_congr fun _ => ⟨hclosed, hnil⟩, rfl, Later.refl _, rfl⟩
  | response hpipe => exact h.readResponse hpipe.valid hpipe.packets_some
  | ignored hpipe => exact ⟨h.pop hpipe.valid hpipe.packets_some, rfl, Later.refl _, rfl⟩
  | raised hpipe err =>
      have hpopped := h.pop hpipe.valid hpipe.packets_some
      exact ⟨hpopped.raise _ _, rfl, Later.refl _, rfl⟩
  | failed hpipe exn =>
      have hpopped := h.pop hpipe.valid hpipe.packets_some
      obtain ⟨hcore, hrun, hlater, hasked⟩ := (hpopped.leave_terminate exn).1
      exact ⟨hcore, hrun, hlater, hasked⟩
  | waits hpipe =>
      have hpopped := h.pop hpipe.valid hpipe.packets_some
      exact ⟨hpopped.raise _ _, rfl, Later.refl _, rfl⟩

/-! ## The server goes on -/

theorem Progress.finished {server server' : Session P} {n k k' : ℕ} (h : Progress server n k)
    (hmenu : server'.menu = server.menu) (hstage : server'.stage = .finished) :
    Progress server' n k' := by
  rw [Progress, hstage, hmenu]
  rw [Progress] at h
  intro hne
  cases hs : server.stage <;> rw [hs] at h
  · exact absurd h.2.2 hne
  · exact absurd h.2.2 hne
  · exact h.1
  · exact h.1
  · exact h hne

theorem Later.of_eq {server server' : Session P} (hstage : server'.stage = server.stage)
    (hmenu : server'.menu = server.menu) : Later server server' :=
  ⟨fun h => hstage ▸ h, fun _ h => hmenu ▸ h⟩

theorem Later.of_finished {server server' : Session P} (hstage : server'.stage ≠ .handle)
    (hmenu : server'.menu = server.menu) : Later server server' :=
  ⟨fun _ => hstage, fun _ h => hmenu ▸ h⟩

/-- What was answered stays answered while the server goes on. -/
theorem Core.later_fields {server : Session P} (h : s.Core e) (hlater : Later s.server server) :
    (∀ i r, s.client.ivars[i]? = some (some (.completed r)) →
      ∃ id call, s.asked[i]? = some (id, call) ∧ Answered e server i call r) ∧
    (s.cancelled ≠ [] → server.menu ≠ none) := by
  refine ⟨fun i r hi => ?_, fun hc hmenu => ?_⟩
  · obtain ⟨id, call, hasked, ha⟩ := h.filled i r hi
    exact ⟨id, call, hasked, ha.later hlater⟩
  · obtain ⟨menu, hsome⟩ := Option.ne_none_iff_exists'.mp (h.cancelled hc)
    rw [hlater.menu menu hsome] at hmenu
    cases hmenu

/-- The server ends its session, with nothing but notifications. -/
theorem Core.serveEnd {toServer : Pipe} {server : Session P} {sent : List Sent} (h : s.Core e)
    (hvalid : toServer.Valid) (hsub : toServer.packets.Sublist s.toServer.packets)
    (hmenu : server.menu = s.server.menu) (htasks : server.tasks = s.server.tasks)
    (hstage : server.stage = .finished ∨
      server.stage = .terminate ∧ s.server.stage = .runSession)
    (hsent : OnlyNotifications (Pipe.packetsOf sent)) :
    After e s { s with toServer, server, toClient := (s.toClient.writeAll sent).1 } := by
  have hlater : Later s.server server := by
    refine Later.of_finished (fun hs => ?_) hmenu
    rcases hstage with hs' | ⟨hs', -⟩ <;> rw [hs'] at hs <;> cases hs
  have hprogress (k : ℕ) : Progress server s.asked.length k := by
    rcases hstage with hs | ⟨hs, hs'⟩
    · exact h.progress.finished hmenu hs
    · have hold := h.progress
      rw [Progress, hs'] at hold
      rw [Progress, hs, hmenu]
      exact hold
  have hexpects (i : ℕ) : Expects server.stage i := by
    rcases hstage with hs | ⟨hs, -⟩ <;> rw [hs] <;> trivial
  obtain ⟨hfilled, hcancelled⟩ := h.later_fields hlater
  have hcore : ({ s with toServer, server } : Exchange P).Core e := by
    refine ⟨h.client, h.length, h.owner, hvalid, h.toClient, fun id r => ⟨fun hmem => ?_, ?_⟩,
      h.noRequest, hprogress _, hfilled, h.menuCall, h.reading, hcancelled, fun hrun => ?_⟩
    · exact (h.noResponse id r).1 (hsub.subset hmem)
    · exact (h.noResponse id r).2
    · have hflight := h.flight hrun
      refine hflight.mono rfl rfl rfl (fun id => ?_) hlater (fun _ _ hmem => hmem)
        (fun id call hmem => ?_) (fun id call hmem => ?_) fun id r hmem => .inl hmem
      · have hcount : toServer.packets.countP (asks id) ≤ s.toServer.packets.countP (asks id) :=
          hsub.countP_le
        simp only [inFlight, htasks]
        omega
      · rcases hflight.toServer id call (hsub.subset hmem) with hc | ⟨i, ho, -⟩
        · exact .inl hc
        · exact .inr ⟨i, ho, hexpects i⟩
      · exact hflight.tasks id call (htasks ▸ hmem)
  exact ⟨hcore.sendClient hsent, rfl, hlater, rfl⟩

/-- A request by which the session is opened is the only one, and answered. -/
theorem Core.respond {toServer : Pipe} {server : Session P} {r : Response} (h : s.Core e)
    (hvalid : toServer.Valid) (hp : s.toServer.packets = .request id call :: toServer.packets)
    (hstage : s.server.stage = .handle ∨ s.server.stage = .negotiateVersion)
    (hlater : Later s.server server) (htasks : server.tasks = s.server.tasks)
    (hprogress : toServer.packets.countP isRequest = 0 → Progress server s.asked.length 0)
    (hanswer : ∀ i, Expects s.server.stage i → s.asked[i]? = some (id, call) →
      Answered e server i call r) :
    After e s { s with
      toServer, server, toClient := (s.toClient.writeAll [some [.response id r]]).1 } := by
  obtain ⟨⟨ps, hps, hpart⟩, hvalid', -⟩ := s.toClient.writeAll_spec [some [.response id r]]
  have hps' : ps <+: [.response id r] := hpart
  have hzero : toServer.packets.countP isRequest = 0 := by
    have hold := h.progress
    rw [hp, List.countP_cons_of_pos rfl, Progress] at hold
    rcases hstage with hs | hs <;> rw [hs] at hold <;> omega
  have halone (id' : Id) (call' : Call) : .request id' call' ∉ toServer.packets := fun hmem =>
    List.countP_eq_zero.mp hzero _ hmem rfl
  have hsub : ∀ p ∈ toServer.packets, p ∈ s.toServer.packets := fun p hmem =>
    hp ▸ List.mem_cons_of_mem _ hmem
  obtain ⟨hfilled, hcancelled⟩ := h.later_fields hlater
  refine ⟨⟨h.client, h.length, h.owner, hvalid, hvalid' h.toClient,
    fun id' r' => ⟨fun hmem => (h.noResponse id' r').1 (hsub _ hmem), (h.noResponse id' r').2⟩,
    fun id' call' hmem => ?_, ?_, hfilled, h.menuCall, h.reading_writeAll _, hcancelled,
    fun hrun => ?_⟩, rfl, hlater, rfl⟩
  · rw [hps, List.mem_append] at hmem
    rcases hmem with hmem | hmem
    · exact h.noRequest id' call' hmem
    · cases List.mem_singleton.mp (hps'.subset hmem)
  · rw [hzero]
    exact hprogress hzero
  · have hflight := h.flight hrun
    refine hflight.mono rfl rfl rfl (fun id' => ?_) hlater (fun _ _ hmem => hmem)
      (fun id' call' hmem => (halone id' call' hmem).elim)
      (fun id' call' hmem => hflight.tasks id' call' (htasks ▸ hmem)) fun id' r' hmem => ?_
    · have hle : ps.countP (answers id') ≤ [Packet.response id r].countP (answers id') :=
        hps'.sublist.countP_le
      have hcons : s.toServer.packets.countP (asks id') =
          toServer.packets.countP (asks id') + if id = id' then 1 else 0 := by
        rw [hp, List.countP_cons]
        simp only [asks, decide_eq_true_eq]
      simp only [List.countP_singleton, answers, decide_eq_true_eq] at hle
      simp only [inFlight, htasks, hps, List.countP_append]
      omega
    · rw [hps, List.mem_append] at hmem
      rcases hmem with hmem | hmem
      · exact .inl hmem
      · cases List.mem_singleton.mp (hps'.subset hmem)
        rcases hflight.toServer id call (hp ▸ List.mem_cons_self) with hc | ⟨i, ho, hi⟩
        · exact .inr (.inl hc)
        · exact .inr (.inr ⟨i, call, ho, hanswer i hi ho.2⟩)

/-- A packet becomes a task of the server. -/
theorem Core.enqueue {toServer : Pipe} {q : Packet} {task : MessageKind × Call} (h : s.Core e)
    (hvalid : toServer.Valid) (hp : s.toServer.packets = q :: toServer.packets)
    (hstage : s.server.stage = .runSession) (hasks : ∀ id, asks id q = taskAsks id task)
    (htask : ∀ id call, task = (.request id, call) → q = .request id call) :
    After e s { s with
      toServer, server := { s.server with tasks := s.server.tasks ++ [task] } } := by
  have hsub : ∀ p ∈ toServer.packets, p ∈ s.toServer.packets := fun p hmem =>
    hp ▸ List.mem_cons_of_mem _ hmem
  have hcount : toServer.packets.countP isRequest ≤ s.toServer.packets.countP isRequest := by
    rw [hp, List.countP_cons]
    exact Nat.le_add_right _ _
  refine ⟨⟨h.client, h.length, h.owner, hvalid, h.toClient,
    fun id r => ⟨fun hmem => (h.noResponse id r).1 (hsub _ hmem), (h.noResponse id r).2⟩,
    h.noRequest, h.progress.mono hcount, h.filled, h.menuCall, h.reading, h.cancelled,
    fun hrun => ?_⟩, rfl, Later.of_eq rfl rfl, rfl⟩
  have hflight := h.flight hrun
  refine hflight.mono rfl rfl rfl (fun id => ?_) (Later.of_eq rfl rfl) (fun _ _ hmem => hmem)
    (fun id call hmem => hflight.toServer id call (hsub _ hmem)) (fun id call hmem => ?_)
    fun id r hmem => .inl hmem
  · simp only [inFlight, hp, List.countP_append, List.countP_nil, List.countP_cons, hasks]
    omega
  · rcases List.mem_append.mp hmem with hmem | hmem
    · exact hflight.tasks id call hmem
    · have hq := htask id call (List.mem_singleton.mp hmem).symm
      rcases hflight.toServer id call (hp ▸ hq ▸ List.mem_cons_self) with hc | ⟨i, ho, hi⟩
      · exact .inl hc
      · rw [hstage] at hi
        exact .inr ⟨i, ho, hi⟩

/-- What a session makes of the queries by which it is opened. -/
theorem Core.opens {toServer : Pipe} {query : Option Packet} {server : Session P}
    {sent : List Sent} (h : s.Core e) (hvalid : toServer.Valid)
    (hp : s.toServer.packets = query.toList ++ toServer.packets)
    (hopens : H.Opens e.server s.server query server sent)
    (hstage : s.server.stage = .handle ∨ s.server.stage = .negotiateVersion) :
    After e s { s with toServer, server, toClient := (s.toClient.writeAll sent).1 } := by
  have hsub : toServer.packets.Sublist s.toServer.packets := hp ▸ List.sublist_append_right _ _
  have hold := h.progress
  rw [hp, List.countP_append, Progress] at hold
  cases hopens with
  | eof => exact h.serveEnd hvalid hsub rfl rfl (.inl rfl) fun _ hp => absurd hp List.not_mem_nil
  | abort q c =>
      refine h.serveEnd hvalid hsub rfl rfl (.inl rfl) fun p hp => ?_
      exact ⟨c, List.mem_singleton.mp hp⟩
  | refused id call he =>
      refine h.respond hvalid hp hstage (Later.of_finished (fun h => by cases h) rfl) rfl
        (fun _ => h.progress.finished rfl rfl) fun i hi _ => ?_
      rcases hstage with hs | hs <;> rw [hs] at hi <;> cases hi
      · exact fun h => by cases h
      · exact fun _ h => by cases h
  | @initialized id call init hs hcall =>
      rw [hs] at hold
      simp only [Option.toList_some, List.countP_singleton, isRequest, if_true] at hold
      have hlater :
          Later s.server { s.server with init := some init, stage := .negotiateVersion } :=
        ⟨fun _ => Stage.noConfusion, fun _ h => h⟩
      refine h.respond hvalid hp hstage hlater rfl (fun _ => ?_) fun i hi _ => ?_
      · exact ⟨by omega, by omega, hold.2.2⟩
      · rw [hs] at hi
        cases hi
        exact fun h => by cases h
  | @negotiated id call versions menu sexp hs hcall hmenu hsexp =>
      rw [hs] at hold
      simp only [Option.toList_some, List.countP_singleton, isRequest, if_true] at hold
      have hlater : Later s.server { s.server with menu := some menu, stage := .runSession } :=
        ⟨fun _ => Stage.noConfusion, fun m hm => by rw [hold.2.2] at hm; cases hm⟩
      refine h.respond hvalid hp hstage hlater rfl (fun _ => ?_) fun i hi hasked => ?_
      · exact ⟨by omega, fun h => by cases h⟩
      · rw [hs] at hi
        cases hi
        intro sexp' hr
        cases hr
        have hversions : VersionNegotiation.Request.ofCall e.server.version call = .ok (.ok _) :=
          H.ofCall_versionNegotiation (h.menuCall id call hasked)
        rw [hcall] at hversions
        cases hversions
        exact ⟨menu, ⟨rfl, hmenu⟩, hsexp⟩

theorem Core.serve (h : s.Core e) (hs : s.serve e = some s') : After e s s' := by
  obtain ⟨-, hreads⟩ := serve_cases h.toServer hs
  have hsent : OnlyNotifications (Pipe.packetsOf []) := fun _ hp => absurd hp List.not_mem_nil
  have hfinish {toServer : Pipe} {query : Option Packet} (hpipe : s.toServer.Reads query toServer) :
      After e s { s with toServer, server := s.server.finish } := by
    have hmenu : s.server.finish.menu = s.server.menu := rfl
    exact h.serveEnd hpipe.valid hpipe.sublist hmenu rfl (.inl rfl) hsent
  cases hreads with
  | failed hpipe _ => exact hfinish hpipe
  | @unexpected id r _ hpipe _ =>
      exact absurd (hpipe.packets_some ▸ List.mem_cons_self) (h.noResponse id r).1
  | abandoned hpipe _ _ => exact hfinish hpipe
  | opens hpipe hstage hopens => exact h.opens hpipe.valid hpipe.packets hopens hstage
  | eof hpipe hstage =>
      exact h.serveEnd hpipe.valid hpipe.sublist rfl rfl (.inr ⟨rfl, hstage⟩) hsent
  | notification hpipe hstage =>
      exact h.enqueue hpipe.valid hpipe.packets_some hstage (fun _ => rfl) fun _ _ h => by cases h
  | request hpipe hstage =>
      refine h.enqueue hpipe.valid hpipe.packets_some hstage (fun _ => rfl) fun id' call' heq => ?_
      cases heq
      rfl

/-- A task ends: its response is sent, or nothing if the session is closed. -/
theorem Core.finishTask {menu : Menu (NativeInt P)} {task : MessageKind × Call}
    {l₁ l₂ : List (MessageKind × Call)} {result : Except (List H.ExnWithBacktrace) Response}
    (h : s.Core e) (hmenu : s.server.menu = some menu) (htasks : s.server.tasks = l₁ ++ task :: l₂)
    (hresult : e.handles menu task.2 result) :
    After e s (s.finishTask task (l₁ ++ l₂) result) := by
  have hmem : ∀ t ∈ l₁ ++ l₂, t ∈ s.server.tasks := by
    rw [htasks]
    exact ((List.sublist_cons_self task l₂).append_left l₁).subset
  have hcount (id : Id) : s.server.tasks.countP (taskAsks id) =
      (l₁ ++ l₂).countP (taskAsks id) + if taskAsks id task then 1 else 0 := by
    rw [htasks, List.countP_append, List.countP_append, List.countP_cons]
    omega
  -- the end of the task, with what it sends
  have hend (sent : List Sent)
      (hsent : ∀ p ∈ Pipe.packetsOf sent, ∃ id, task.1 = .request id ∧
        p = .response id (H.dispatchRequest.response result))
      (hlen : (Pipe.packetsOf sent).length ≤ 1) :
      After e s { s with
        server := { s.server with tasks := l₁ ++ l₂ },
        toClient := (s.toClient.writeAll sent).1 } := by
    obtain ⟨⟨ps, hps, hpart⟩, hvalid, -⟩ := s.toClient.writeAll_spec sent
    have hps' : ∀ p ∈ ps, ∃ id, task.1 = .request id ∧
        p = .response id (H.dispatchRequest.response result) := fun p hp =>
      hsent p (hpart.subset hp)
    refine ⟨⟨h.client, h.length, h.owner, h.toServer, hvalid h.toClient, h.noResponse,
      fun id call hp => ?_, h.progress, h.filled, h.menuCall, h.reading_writeAll sent, h.cancelled,
      fun hrun => ?_⟩, rfl, Later.of_eq rfl rfl, rfl⟩
    · rw [hps, List.mem_append] at hp
      rcases hp with hp | hp
      · exact h.noRequest id call hp
      · obtain ⟨_, _, heq⟩ := hps' _ hp
        cases heq
    · have hflight := h.flight hrun
      refine hflight.mono rfl rfl rfl (fun id => ?_) (Later.of_eq rfl rfl) (fun _ _ hp => hp)
        hflight.toServer (fun id call hp => hflight.tasks id call (hmem _ hp)) fun id r hp => ?_
      · have hle : ps.countP (answers id) ≤ if taskAsks id task then 1 else 0 := by
          split_ifs with hid
          · exact List.countP_le_length.trans (hpart.length_le.trans hlen)
          · rw [Nat.le_zero, List.countP_eq_zero]
            intro p hp
            obtain ⟨id', hkind, rfl⟩ := hps' p hp
            obtain ⟨kind, call⟩ := task
            cases hkind
            exact hid
        simp only [inFlight, hps, List.countP_append, hcount]
        omega
      · rw [hps, List.mem_append] at hp
        rcases hp with hp | hp
        · exact .inl hp
        · obtain ⟨id', hkind, heq⟩ := hps' _ hp
          obtain ⟨kind, call⟩ := task
          cases hkind
          cases heq
          have htask : (.request id, call) ∈ s.server.tasks :=
            htasks ▸ List.mem_append_right l₁ List.mem_cons_self
          rcases hflight.tasks id call htask with hc | ⟨i, ho, hi⟩
          · exact .inr (.inl hc)
          · obtain ⟨j, rfl⟩ := Nat.exists_eq_add_of_le' hi
            exact .inr (.inr ⟨j + 2, call, ho, menu, result, hmenu, hresult, rfl⟩)
  obtain ⟨kind, call⟩ := task
  cases kind with
  | notification => exact hend [] (fun _ hp => absurd hp List.not_mem_nil) (Nat.zero_le 1)
  | request id =>
      simp only [Exchange.finishTask, H.dispatchRequest]
      split_ifs
      · exact hend [] (fun _ hp => absurd hp List.not_mem_nil) (Nat.zero_le 1)
      · refine hend _ (fun p hp => ⟨id, rfl, List.mem_singleton.mp hp⟩) le_rfl

theorem Core.terminated (h : s.Core e) :
    After e s { s with server := s.server.finish } := by
  have hsent : OnlyNotifications (Pipe.packetsOf []) := fun _ hp => absurd hp List.not_mem_nil
  have hmenu : s.server.finish.menu = s.server.menu := rfl
  exact h.serveEnd h.toServer (List.Sublist.refl _) hmenu rfl (.inl rfl) hsent

end Exchange

end Csexp.Rpc
