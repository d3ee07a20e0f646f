import Csexp.Rpc.Calls

/-!
# No request is lost

As long as a client can read from its server, and the session of the server
has not ended, every request without an answer is in flight: in a batch, on
its way, among the tasks of the server, or its response is on the way back.
-/

namespace Csexp.Rpc

open Conv (Env)
open Raising
open Server (Session Stage MessageKind H)

variable {P : Platform}

namespace Pipe

/-- Packets do not close a pipe. -/
theorem writeAll_some_closed (p : Pipe) (ps : List Packet) :
    (p.writeAll [some ps]).1.closed = p.closed := by
  simp only [writeAll]
  cases h : p.write (some ps) with
  | error err => rfl
  | ok p' =>
      obtain ⟨hopen, hopen', -⟩ := write_some h
      exact hopen'.trans hopen.symm

theorem writeAll_abort_closed (p : Pipe) (c : Call) :
    (p.writeAll [some [.notification c], none]).1.closed = true := by
  simp only [writeAll]
  cases h : p.write (some [.notification c]) with
  | ok p' => rfl
  | error err =>
      by_contra hopen
      rw [Bool.not_eq_true] at hopen
      have hwritable := List.forall_mem_singleton.mpr (Packet.writable_notification c)
      obtain ⟨p', hp'⟩ := exists_write hopen hwritable
      rw [h] at hp'
      cases hp'

theorem countP_writeAll_le (p : Pipe) (sent : List Sent) (f : Packet → Bool) :
    p.packets.countP f ≤ (p.writeAll sent).1.packets.countP f := by
  obtain ⟨⟨ps, hps, -⟩, -⟩ := p.writeAll_spec sent
  rw [hps, List.countP_append]
  exact Nat.le_add_right _ _

end Pipe

/-- No handler of the server answers with the error for a dead connection,
which cannot be written. -/
def Ends.Answers (e : Ends P) : Prop :=
  ∀ menu call result, e.handles menu call result →
    ∀ err, H.dispatchRequest.response result = .error err → err.kind ≠ .connectionDead

/-- A session that is closed has come to its end, and none of its fibers has
raised an exception. -/
structure Server.Session.Orderly (server : Session P) : Prop where
  raised : server.raised = false
  closed : server.closed = true → server.stage = .finished

theorem Server.Session.Orderly.finish {server : Session P} (h : server.Orderly) :
    server.finish.Orderly :=
  ⟨h.raised, fun _ => rfl⟩

namespace Exchange

/-- While the server goes on, no request gets lost on a connection that the
client can still read from. -/
structure Kept (s : Exchange P) : Prop where
  toServer : s.toServer.closed = true → s.toClient.closed = true ∨ s.client.running = false ∨
    ∃ menu, s.run = .finished menu
  server : s.server.menu ≠ none → s.toClient.closed = true ∨ s.server.stage = .runSession
  orderly : s.server.Orderly
  kept : s.client.running = true → s.toClient.closed = false → s.server.stage ≠ .finished →
    ∀ id, id ∈ s.client.requests → 1 ≤ s.inFlight id

variable {e : Ends P} {s s' : Exchange P} {id : Id} {call : Call} {i : ℕ}

theorem create_kept : (create : Exchange P).Kept where
  toServer h := by cases h
  server h := absurd rfl h
  orderly := ⟨rfl, fun h => by cases h⟩
  kept _ _ _ id h := absurd h (AList.notMem_empty id)

/-! ## Steps of the client -/

theorem Kept.of_lost (hlost : s.toClient.closed = true) (horderly : s.server.Orderly) :
    s.Kept where
  toServer _ := .inl hlost
  server _ := .inl hlost
  orderly := horderly
  kept _ hopen := by
    rw [hlost] at hopen
    cases hopen

theorem Kept.of_stopped (h : s.Kept) (hserver : s'.server = s.server)
    (hclosed : s'.toClient.closed = s.toClient.closed) (hstopped : s'.client.running = false) :
    s'.Kept where
  toServer _ := .inr (.inl hstopped)
  server := by
    rw [hserver, hclosed]
    exact h.server
  orderly := by
    rw [hserver]
    exact h.orderly
  kept hrun := by
    rw [hstopped] at hrun
    cases hrun

/-- The server stays as it is. What the client has asked for is in flight as
before, or has just been sent. -/
theorem Kept.frame (h : s.Kept) (hserver : s'.server = s.server)
    (hclosed : s'.toClient.closed = s.toClient.closed)
    (htoServer : s'.toServer.closed = true → s.toServer.closed = true ∨
      ∃ menu, s'.run = .finished menu)
    (hfinished : ∀ menu, s.run = .finished menu → s'.run = s.run)
    (hrunning : s'.client.running = s.client.running)
    (hkept : s.client.running = true → s.toClient.closed = false →
      ∀ id, id ∈ s'.client.requests →
        id ∈ s.client.requests ∧ s.inFlight id ≤ s'.inFlight id ∨ 1 ≤ s'.inFlight id) :
    s'.Kept where
  toServer hpipe := by
    rw [hclosed, hrunning]
    rcases htoServer hpipe with hpipe | hmenu
    · rcases h.toServer hpipe with hc | hc | ⟨menu, hmenu⟩
      · exact .inl hc
      · exact .inr (.inl hc)
      · exact .inr (.inr ⟨menu, (hfinished menu hmenu).trans hmenu⟩)
    · exact .inr (.inr hmenu)
  server := by
    rw [hserver, hclosed]
    exact h.server
  orderly := by
    rw [hserver]
    exact h.orderly
  kept hrun hopen hstage id hid := by
    rw [hrunning] at hrun
    rw [hclosed] at hopen
    rw [hserver] at hstage
    rcases hkept hrun hopen id hid with ⟨hid, hle⟩ | hone
    · exact (h.kept hrun hopen hstage id hid).trans hle
    · exact hone

theorem leave_frame (s : Exchange P) (x : Conv.Eval (Client P × List Sent × Option Conv.Exn)) :
    (s.leave x).server = s.server ∧ (s.leave x).toClient = s.toClient ∧
      (s.leave x).reading = s.reading ∧ (s.leave x).batches = s.batches := by
  cases x with
  | error err => exact ⟨rfl, rfl, rfl, rfl⟩
  | ok p => exact ⟨rfl, rfl, rfl, rfl⟩

theorem Kept.leave_terminate (h : s.Kept) (hcore : s.Core e) (exn : Option Conv.Exn) :
    (s.leave (s.client.terminate.map fun p => (p.1, p.2, exn))).Kept := by
  obtain ⟨hserver, htoClient, -⟩ :=
    leave_frame s (s.client.terminate.map fun p => (p.1, p.2, exn))
  refine h.of_stopped hserver (congrArg Pipe.closed htoClient) ?_
  exact (hcore.leave_terminate exn).2

/-- As long as the client may send it has an open pipe to do so. -/
theorem Kept.toServer_open (h : s.Kept) (hrun : s.client.running = true)
    (hopen : s.toClient.closed = false) (hfinished : ∀ menu, s.run ≠ .finished menu) :
    s.toServer.closed = false := by
  by_contra hclosed
  rw [Bool.not_eq_false] at hclosed
  rcases h.toServer hclosed with hc | hc | ⟨menu, hmenu⟩
  · rw [hopen] at hc
    cases hc
  · rw [hrun] at hc
    cases hc
  · exact hfinished menu hmenu

theorem Kept.requestUntyped {x : Except Failure (Except Response.Error ℕ)} {t : Exchange P}
    (h : s.Kept) (hfinished : ∀ menu, s.run ≠ .finished menu)
    (hs : s.requestUntyped id call = (x, t)) : t.Kept ∧ t.run = s.run := by
  obtain ⟨rfl, -⟩ | ⟨hrun, hlookup, rfl, -⟩ := requestUntyped_cases hs
  · exact ⟨h, rfl⟩
  · refine ⟨h.frame rfl rfl (fun hc => .inl ?_) (fun _ _ => rfl) rfl fun _ hopen id' hid' => ?_, rfl⟩
    · exact (Pipe.writeAll_some_closed _ _).symm.trans hc
    · have htoServer := h.toServer_open hrun hopen hfinished
      have hwritable := List.forall_mem_singleton.mpr (Packet.writable_request id call)
      obtain ⟨hpackets, -⟩ := Pipe.writeAll_of_open htoServer hwritable
      simp only [inFlight, hpackets, List.countP_append, List.countP_singleton, asks]
      rcases AList.mem_insert _ |>.mp hid' with rfl | hid'
      · simp only [decide_true, if_true]
        exact .inr (by omega)
      · exact .inl ⟨hid', by omega⟩

theorem Kept.await {k : ℕ → Run P} (h : s.Kept) (hfinished : ∀ menu, s.run ≠ .finished menu)
    (id : Id) (call : Call) : (Exchange.await k (s.requestUntyped id call)).Kept := by
  cases hs : s.requestUntyped id call with
  | mk x t =>
      obtain ⟨ht, hrun⟩ := h.requestUntyped hfinished hs
      have hrun' (run : Run P) : ({ t with run } : Exchange P).Kept := by
        refine ht.frame rfl rfl (fun hc => .inl hc) (fun menu hmenu => ?_) rfl
          fun _ _ _ hid => .inl ⟨hid, le_rfl⟩
        exact absurd (hrun.symm.trans hmenu) (hfinished menu)
      match x with
      | .error err => exact hrun' _
      | .ok (.error err) => exact hrun' _
      | .ok (.ok ivar) => exact hrun' _

theorem Kept.connect (h : s.Kept) (hcore : s.Core e) (hs : s.connect e = some s') : s'.Kept := by
  obtain ⟨hfinished, hconnects⟩ := connect_cases hs
  have hrun (client : Client P) (run : Run P) (hrequests : client.requests = s.client.requests)
      (hrunning : client.running = s.client.running) :
      ({ s with client, run } : Exchange P).Kept := by
    refine h.frame rfl rfl (fun hc => .inl hc) (fun menu hmenu => ?_) hrunning
      fun _ _ id hid => .inl ⟨?_, le_rfl⟩
    · exact absurd hmenu (hfinished menu)
    · rwa [← hrequests]
  cases hconnects with
  | raised err => exact hrun _ _ rfl rfl
  | initializing _ _ => exact h.await hfinished _ _
  | negotiating _ _ _ _ => exact h.await hfinished _ _
  | terminated err =>
      have hterminated : s.terminate.client.running = false := (hcore.leave_terminate none).2
      obtain ⟨hserver, htoClient, -⟩ :=
        leave_frame s (s.client.terminate.map fun p => (p.1, p.2, none))
      exact h.of_stopped hserver (congrArg Pipe.closed htoClient) hterminated
  | connected _ _ _ _ => exact hrun _ _ rfl rfl

/-- Something that is not a response leaves the pipe. -/
theorem Kept.pop {toClient : Pipe} {q : Packet} (h : s.Kept)
    (hp : s.toClient.packets = q :: toClient.packets) (hclosed : toClient.closed = s.toClient.closed)
    (hq : ∀ id, answers id q = false) : ({ s with toClient } : Exchange P).Kept := by
  refine h.frame rfl hclosed (fun hc => .inl hc) (fun _ _ => rfl) rfl
    fun _ _ id hid => .inl ⟨hid, ?_⟩
  simp only [inFlight, hp, List.countP_cons, hq, Bool.false_eq_true, if_false, Nat.add_zero]
  exact le_rfl

theorem Kept.readResponse {toClient : Pipe} {r : Response} (h : s.Kept) (hcore : s.Core e)
    (hvalid : toClient.Valid) (hp : s.toClient.packets = .response id r :: toClient.packets)
    (hclosed : toClient.closed = s.toClient.closed) :
    (({ s with toClient } : Exchange P).leave (s.client.readResponse id r)).Kept := by
  cases hlookup : s.client.requests.lookup id with
  | none =>
      rw [Client.readResponse, hlookup, terminateWithError_eq]
      obtain ⟨hserver, htoClient, -⟩ := leave_frame ({ s with toClient } : Exchange P)
        (s.client.terminate.map fun p => (p.1, p.2, some (.codeError "unexpected response")))
      refine h.of_stopped hserver ((congrArg Pipe.closed htoClient).trans hclosed) ?_
      exact (Core.leave_terminate (s := { s with toClient }) (hcore.pop hvalid hp) _).2
  | some status =>
      obtain ⟨i, rfl, -⟩ := hcore.client.pending id status hlookup
      rw [hcore.client.readResponse hlookup r]
      refine h.frame rfl hclosed (fun hc => .inl hc) (fun _ _ => rfl) rfl fun _ _ id' hid' => .inl ?_
      obtain ⟨hne, hid'⟩ := AList.mem_erase.mp hid'
      refine ⟨hid', ?_⟩
      have hanswers : s.toClient.packets.countP (answers id') =
          toClient.packets.countP (answers id') := by
        rw [hp, List.countP_cons]
        simp only [answers, Ne.symm hne, decide_false, Bool.false_eq_true, if_false, Nat.add_zero]
      exact (Nat.add_le_add_left hanswers.le _ :)

theorem Kept.readPackets (h : s.Kept) (hcore : s.Core e) (hs : s.readPackets e = some s') :
    s'.Kept := by
  obtain ⟨-, hreads⟩ := readPackets_cases hcore.toClient hs
  cases hreads with
  | eof hclosed _ => exact Kept.of_lost hclosed h.orderly
  | response hpipe =>
      exact h.readResponse hcore hpipe.valid hpipe.packets_some hpipe.closed
  | ignored hpipe => exact h.pop hpipe.packets_some hpipe.closed fun _ => rfl
  | raised hpipe err =>
      have hpopped := h.pop hpipe.packets_some hpipe.closed fun _ => rfl
      exact ⟨hpopped.toServer, hpopped.server, hpopped.orderly, hpopped.kept⟩
  | failed hpipe exn =>
      have hpopped := h.pop hpipe.packets_some hpipe.closed fun _ => rfl
      exact hpopped.leave_terminate (hcore.pop hpipe.valid hpipe.packets_some) exn
  | waits hpipe =>
      have hpopped := h.pop hpipe.packets_some hpipe.closed fun _ => rfl
      exact ⟨hpopped.toServer, hpopped.server, hpopped.orderly, hpopped.kept⟩

/-! ## Steps of the server -/

theorem Kept.goesOn {toServer toClient : Pipe} {server : Session P} (h : s.Kept)
    (htoServer : toServer.closed = s.toServer.closed)
    (hlost : s.toClient.closed = true → toClient.closed = true)
    (hserver : server.menu ≠ none → toClient.closed = true ∨ server.stage = .runSession)
    (horderly : server.Orderly)
    (hkept : toClient.closed = false → server.stage ≠ .finished → s.server.stage ≠ .finished ∧
      ∀ id, s.inFlight id ≤ ({ s with toServer, server, toClient } : Exchange P).inFlight id) :
    ({ s with toServer, server, toClient } : Exchange P).Kept where
  toServer hpipe := by
    rcases h.toServer (htoServer ▸ hpipe) with hc | hc
    · exact .inl (hlost hc)
    · exact .inr hc
  server := hserver
  orderly := horderly
  kept hrun hopen hstage id hid := by
    have hopen' : s.toClient.closed = false := by
      by_contra hc
      rw [Bool.not_eq_false] at hc
      have hc' : toClient.closed = true := hlost hc
      dsimp only at hopen
      rw [hc'] at hopen
      cases hopen
    obtain ⟨hstage', hle⟩ := hkept hopen hstage
    exact (h.kept hrun hopen' hstage' id hid).trans (hle id)

/-- A response takes the place of the request. -/
theorem inFlight_respond {toServer : Pipe} {server : Session P} {r : Response}
    (hp : s.toServer.packets = .request id call :: toServer.packets)
    (hopen : s.toClient.closed = false) (hr : (Packet.response id r).Writable)
    (htasks : server.tasks = s.server.tasks) (id' : Id) :
    s.inFlight id' ≤ ({ s with
      toServer, server,
      toClient := (s.toClient.writeAll [some [.response id r]]).1 } : Exchange P).inFlight id' := by
  have hwritable := List.forall_mem_singleton.mpr hr
  obtain ⟨hpackets, -⟩ := Pipe.writeAll_of_open hopen hwritable
  simp only [inFlight, hp, hpackets, htasks, List.countP_append, List.countP_cons, List.countP_nil,
    asks, answers, decide_eq_true_eq]
  omega

theorem Kept.opens {toServer : Pipe} {query : Option Packet} {server : Session P}
    {sent : List Sent} (h : s.Kept) (hclosed : toServer.closed = s.toServer.closed)
    (hp : s.toServer.packets = query.toList ++ toServer.packets)
    (hopens : H.Opens e.server s.server query server sent)
    (hstage : s.server.stage = .handle ∨ s.server.stage = .negotiateVersion) :
    ({ s with toServer, server, toClient := (s.toClient.writeAll sent).1 } : Exchange P).Kept := by
  have hlost : s.toClient.closed = true → (s.toClient.writeAll sent).1.closed = true :=
    (s.toClient.writeAll_spec sent).2.2
  have hrunning : s.server.stage ≠ .finished ∧ s.server.stage ≠ .runSession := by
    rcases hstage with hs | hs
    · rw [hs]
      decide
    · rw [hs]
      decide
  have hmenu : s.server.menu ≠ none → (s.toClient.writeAll sent).1.closed = true := fun hm =>
    hlost ((h.server hm).resolve_right hrunning.2)
  have hopen : s.server.closed = true → False := fun hc => hrunning.1 (h.orderly.closed hc)
  have hrespond {id : Id} {call : Call} {r : Response} {server : Session P}
      (hp : s.toServer.packets = .request id call :: toServer.packets)
      (hr : (Packet.response id r).Writable) (htasks : server.tasks = s.server.tasks)
      (hc : (s.toClient.writeAll [some [.response id r]]).1.closed = false) (id' : Id) :
      s.inFlight id' ≤ ({ s with
        toServer, server,
        toClient := (s.toClient.writeAll [some [.response id r]]).1 } :
          Exchange P).inFlight id' := by
    rw [Pipe.writeAll_some_closed] at hc
    exact inFlight_respond hp hc hr htasks id'
  cases hopens with
  | eof => exact Kept.of_lost rfl h.orderly.finish
  | abort q c => exact Kept.of_lost (Pipe.writeAll_abort_closed _ c) h.orderly.finish
  | refused id call he =>
      exact h.goesOn hclosed hlost (fun hm => .inl (hmenu hm)) h.orderly.finish
        fun _ hfinished => absurd rfl hfinished
  | initialized id hs hcall =>
      refine h.goesOn hclosed hlost (fun hm => .inl (hmenu hm))
        ⟨h.orderly.raised, fun hc => (hopen hc).elim⟩
        fun hc _ => ⟨hrunning.1, ?_⟩
      exact hrespond hp (Packet.writable_ok id _) rfl hc
  | negotiated id hs hcall hselect hsexp =>
      refine h.goesOn hclosed hlost (fun _ => .inr rfl)
        ⟨h.orderly.raised, fun hc => (hopen hc).elim⟩
        fun hc _ => ⟨hrunning.1, ?_⟩
      exact hrespond hp (Packet.writable_ok id _) rfl hc

theorem Kept.enqueue {toServer : Pipe} {q : Packet} {task : MessageKind × Call} (h : s.Kept)
    (hclosed : toServer.closed = s.toServer.closed)
    (hp : s.toServer.packets = q :: toServer.packets) (hstage : s.server.stage = .runSession)
    (hasks : ∀ id, asks id q = taskAsks id task) :
    ({ s with
      toServer
      server := { s.server with tasks := s.server.tasks ++ [task] } } : Exchange P).Kept := by
  refine h.goesOn hclosed id (fun _ => .inr hstage) ⟨h.orderly.raised, h.orderly.closed⟩
    fun _ hne => ⟨hne, fun id => ?_⟩
  simp only [inFlight, hp, List.countP_append, List.countP_nil, List.countP_cons, hasks]
  omega

theorem Kept.serve (h : s.Kept) (hcore : s.Core e) (hs : s.serve e = some s') : s'.Kept := by
  obtain ⟨-, hreads⟩ := serve_cases hcore.toServer hs
  cases hreads with
  | failed hpipe hstage =>
      exact h.goesOn hpipe.closed id (fun hm => .inl ((h.server hm).resolve_right hstage))
        h.orderly.finish fun _ hne => absurd rfl hne
  | @unexpected id r _ hpipe _ =>
      exact absurd (hpipe.packets_some ▸ List.mem_cons_self) (hcore.noResponse id r).1
  | abandoned _ _ hraised =>
      rw [h.orderly.raised] at hraised
      cases hraised
  | opens hpipe hstage hopens => exact h.opens hpipe.closed hpipe.packets hopens hstage
  | eof hpipe hstage =>
      refine Kept.of_lost rfl ⟨h.orderly.raised, fun hc => ?_⟩
      rw [h.orderly.closed hc] at hstage
      cases hstage
  | notification hpipe hstage =>
      exact h.enqueue hpipe.closed hpipe.packets_some hstage fun _ => rfl
  | request hpipe hstage =>
      exact h.enqueue hpipe.closed hpipe.packets_some hstage fun _ => rfl

theorem Kept.finishTask {menu : Menu (NativeInt P)} {task : MessageKind × Call}
    {l₁ l₂ : List (MessageKind × Call)} {result : Except (List H.ExnWithBacktrace) Response}
    (h : s.Kept) (he : e.Answers) (htasks : s.server.tasks = l₁ ++ task :: l₂)
    (hresult : e.handles menu task.2 result) : (s.finishTask task (l₁ ++ l₂) result).Kept := by
  have hcount (id : Id) : s.server.tasks.countP (taskAsks id) =
      (l₁ ++ l₂).countP (taskAsks id) + if taskAsks id task then 1 else 0 := by
    rw [htasks, List.countP_append, List.countP_append, List.countP_cons]
    omega
  obtain ⟨kind, call⟩ := task
  cases kind with
  | notification =>
      refine h.goesOn rfl id h.server ⟨h.orderly.raised, h.orderly.closed⟩
        fun _ hne => ⟨hne, fun id => ?_⟩
      simp only [inFlight, hcount, taskAsks, Bool.false_eq_true, if_false, Nat.add_zero]
      exact le_rfl
  | request id =>
      simp only [Exchange.finishTask, H.dispatchRequest]
      split_ifs with hc
      · have hfinished := h.orderly.closed hc
        exact h.goesOn rfl (fun h => h) h.server ⟨h.orderly.raised, fun _ => hfinished⟩
          fun _ hne => absurd hfinished hne
      · have hwritable : (Packet.response id (H.dispatchRequest.response result)).Writable := by
          cases hr : H.dispatchRequest.response result with
          | ok sexp => exact Packet.writable_ok id sexp
          | error err => exact Packet.writable_error id (he menu call result hresult err hr)
        have hsame := Pipe.writeAll_some_closed s.toClient
          [.response id (H.dispatchRequest.response result)]
        refine h.goesOn rfl (fun hc => hsame.trans hc) (fun hm => ?_)
          ⟨h.orderly.raised, h.orderly.closed⟩ fun hopen hne => ⟨hne, fun id' => ?_⟩
        · rw [hsame]
          exact h.server hm
        · obtain ⟨hpackets, -⟩ := Pipe.writeAll_of_open (hsame.symm.trans hopen)
            (List.forall_mem_singleton.mpr hwritable)
          simp only [inFlight, hcount, hpackets, List.countP_append, List.countP_singleton,
            taskAsks, answers, decide_eq_true_eq]
          omega

theorem Kept.terminated (h : s.Kept) (hs : s.server.stage = .terminate) :
    ({ s with server := s.server.finish } : Exchange P).Kept := by
  refine h.goesOn rfl id (fun hm => ?_) h.orderly.finish fun _ hne => absurd rfl hne
  refine (h.server hm).imp_right fun hstage => ?_
  rw [hs] at hstage
  cases hstage

theorem Kept.notify (h : s.Kept) (call : Call) :
    ({ s with
      toClient := (s.toClient.writeAll [some [.notification call]]).1 } : Exchange P).Kept := by
  have hsame := Pipe.writeAll_some_closed s.toClient [.notification call]
  refine h.frame rfl hsame (fun hc => .inl hc) (fun _ _ => rfl) rfl
    fun _ _ id hid => .inl ⟨hid, ?_⟩
  have hle := s.toClient.countP_writeAll_le [some [.notification call]] (answers id)
  exact Nat.add_le_add_left hle _

/-! ## The calls of the client -/

/-- The client may forget a request, and may send a notification. -/
theorem Kept.client (h : s.Kept) (client : Client P) (run : Run P) (sent : List Sent)
    (cancelled : List Id) (hrequests : ∀ id, id ∈ client.requests → id ∈ s.client.requests)
    (hrunning : client.running = s.client.running)
    (hfinished : ∀ menu, s.run = .finished menu → run = s.run)
    (hclosed : (s.toServer.writeAll sent).1.closed = true → s.toServer.closed = true ∨
      ∃ menu, run = .finished menu) :
    ({ s with
      client, run, cancelled, toServer := (s.toServer.writeAll sent).1 } : Exchange P).Kept := by
  refine h.frame rfl rfl hclosed hfinished hrunning fun _ _ id hid => .inl ⟨hrequests id hid, ?_⟩
  have hle := s.toServer.countP_writeAll_le sent (asks id)
  simp only [inFlight]
  omega

theorem Kept.request (h : s.Kept) (hfinished : ∀ menu, s.run ≠ .finished menu) (id : Option Id)
    (call : Call) : (s.request id call).Kept := by
  obtain ⟨hrequests, -, hrunning⟩ := genId_spec s.client id
  have hclient : ({ s with client := (s.client.genId id).2 } : Exchange P).Kept :=
    h.client _ s.run [] s.cancelled (fun id hid => hrequests ▸ hid) hrunning (fun _ _ => rfl) .inl
  cases hs : ({ s with client := (s.client.genId id).2 } : Exchange P).requestUntyped
      (s.client.genId id).1 call with
  | mk x t =>
      have hreq : s.request id call = t := congrArg Prod.snd hs
      rw [hreq]
      exact (hclient.requestUntyped hfinished hs).1

theorem Kept.cancel (h : s.Kept) (hcore : s.Core e) (hs : s.cancel id = .ok s') : s'.Kept := by
  obtain ⟨client, hclient, hs⟩ := bind_eq_ok_iff.mp hs
  cases hlookup : s.client.requests.lookup id with
  | none =>
      rw [Client.Inv.cancel_none hlookup] at hclient
      cases hclient
      cases hs
      simp only [hlookup, Option.isSome_none, Bool.false_eq_true, if_false]
      exact h
  | some status =>
      obtain ⟨i, rfl, -⟩ := hcore.client.pending id status hlookup
      rw [hcore.client.cancel hlookup] at hclient
      cases hclient
      cases hs
      exact h.client (s.client.settle id i .cancelled) s.run [] _
        (fun _ hid => (AList.mem_erase.mp hid).2) rfl (fun _ _ => rfl) .inl

theorem Kept.notification (h : s.Kept) (call : Call) : (s.notification call).Kept := by
  rw [Exchange.notification]
  cases s.client.makeNotification call with
  | error err => exact h
  | ok call =>
      refine h.client s.client s.run [some [.notification call]] s.cancelled (fun _ hid => hid) rfl
        (fun _ _ => rfl) fun hc => .inl ?_
      exact (Pipe.writeAll_some_closed _ _).symm.trans hc

theorem Kept.batches {batches : List Client.Batch.Pending} (h : s.Kept)
    (hle : ∀ id, s.batches.flatten.countP (asks id) ≤ batches.flatten.countP (asks id)) :
    ({ s with batches } : Exchange P).Kept := by
  refine h.frame rfl rfl (fun hc => .inl hc) (fun _ _ => rfl) rfl
    fun _ _ id hid => .inl ⟨hid, ?_⟩
  have := hle id
  simp only [inFlight]
  omega

section Batches

variable {pending : Client.Batch.Pending} {l₁ l₂ : List Client.Batch.Pending}

theorem Kept.batchRequest (h : s.Kept) (hbatches : s.batches = l₁ ++ pending :: l₂)
    (id : Option Id) (call : Call) : (s.batchRequest l₁ pending l₂ id call).Kept := by
  obtain ⟨hrequests, -, hrunning⟩ := genId_spec s.client id
  obtain hs | ⟨id', client, hgen, -, -, hs⟩ := batchRequest_cases s l₁ pending l₂ id call
  · rw [hs]
    exact h.client _ s.run [] s.cancelled (fun id hid => hrequests ▸ hid) hrunning
      (fun _ _ => rfl) .inl
  · rw [hs]
    rw [hgen] at hrequests hrunning
    refine h.frame rfl rfl (fun hc => .inl hc) (fun _ _ => rfl) hrunning fun _ _ id hid => ?_
    have hcount : (l₁ ++ (Packet.request id' call :: pending) :: l₂).flatten.countP (asks id) =
        s.batches.flatten.countP (asks id) + if id' = id then 1 else 0 := by
      rw [hbatches, (flatten_cons_perm _ pending l₁ l₂).countP_eq, List.countP_cons]
      simp only [asks, decide_eq_true_eq]
    simp only [inFlight, hcount]
    rcases AList.mem_insert _ |>.mp hid with rfl | hid
    · rw [if_pos rfl]
      exact .inr (by omega)
    · exact .inl ⟨hrequests ▸ hid, by omega⟩

/-- All that a batch keeps is sent. -/
theorem Kept.submit (h : s.Kept) (hcore : s.Core e) (hfinished : ∀ menu, s.run ≠ .finished menu)
    (hbatches : s.batches = l₁ ++ pending :: l₂) : (s.submit l₁ pending l₂).Kept := by
  have hwritable : ∀ q ∈ pending.reverse, q.Writable := by
    intro q hq
    have hmem : q ∈ s.batches.flatten := by
      rw [hbatches, List.flatten_append, List.flatten_cons]
      exact List.mem_append_right _ (List.mem_append_left _ (List.mem_reverse.mp hq))
    cases q with
    | request id call => exact Packet.writable_request id call
    | notification call => exact Packet.writable_notification call
    | response id r => exact absurd hmem (hcore.noResponse id r).2
  refine h.frame rfl rfl (fun hc => .inl ?_) (fun _ _ => rfl) rfl
    fun hrun hopen id hid => .inl ⟨hid, ?_⟩
  · exact (Pipe.writeAll_some_closed _ _).symm.trans hc
  · have htoServer := h.toServer_open hrun hopen hfinished
    obtain ⟨hpackets, -⟩ := Pipe.writeAll_of_open htoServer hwritable
    have hsent : (s.submit l₁ pending l₂).toServer.packets = s.toServer.packets ++ pending.reverse :=
      hpackets
    have hleft : (s.submit l₁ pending l₂).batches = l₁ ++ [] :: l₂ := rfl
    have hserver : (s.submit l₁ pending l₂).server = s.server := rfl
    have htoClient : (s.submit l₁ pending l₂).toClient = s.toClient := rfl
    rw [inFlight, inFlight, hsent, hleft, hserver, htoClient, hbatches]
    simp only [List.flatten_append, List.flatten_cons, List.countP_append, List.countP_nil,
      List.countP_reverse]
    omega

end Batches

theorem Kept.finish {menu : Menu (NativeInt P)} (h : s.Kept) (hrun : s.run = .connected menu) :
    (s.finish menu).Kept := by
  obtain ⟨sent, -, hclose⟩ := Client.closeWrite_eq s.client
  rw [Exchange.finish, hclose]
  refine h.client { s.client with closedWrite := true } (.finished menu) sent s.cancelled
    (fun _ hid => hid) rfl (fun menu' hmenu => ?_) fun _ => .inr ⟨menu, rfl⟩
  rw [hrun] at hmenu
  cases hmenu

/-! ## All runs -/

theorem Kept.step (he : e.Answers) (h : s.Kept) (hcore : s.Core e) (hs : Step e s s') :
    s'.Kept := by
  have hconnected {menu : Menu (NativeInt P)} (hrun : s.run = .connected menu)
      (menu' : Menu (NativeInt P)) : s.run ≠ .finished menu' := by
    rw [hrun]
    exact fun h => by cases h
  cases hs with
  | connect hs => exact h.connect hcore hs
  | readPackets hs => exact h.readPackets hcore hs
  | serve hs => exact h.serve hcore hs
  | finishTask _ htasks hresult => exact h.finishTask he htasks hresult
  | terminated hs => exact h.terminated hs
  | notify call _ => exact h.notify call
  | @handleNotification _ n l₁ l₂ result _ _ _ =>
      have hwaiting : ({ s with waiting := l₁ ++ l₂ } : Exchange P).Kept :=
        ⟨h.toServer, h.server, h.orderly, h.kept⟩
      cases result with
      | ok u => exact hwaiting
      | error err =>
          rw [Exchange.finishNotification, terminateWithError_eq]
          exact hwaiting.leave_terminate (hcore.raise _ _) _
  | ended _ _ _ _ => exact h.leave_terminate hcore none
  | request hrun id call _ => exact h.request (hconnected hrun) id call
  | cancel _ id hs => exact h.cancel hcore hs
  | notification _ call => exact h.notification call
  | batchCreate _ =>
      refine h.batches fun id => ?_
      rw [List.flatten_append, List.flatten_cons, List.flatten_nil, List.append_nil,
        List.append_nil]
  | batchRequest _ hbatches id call _ => exact h.batchRequest hbatches id call
  | @batchNotification _ pending _ l₁ l₂ _ hbatches call hpending =>
      obtain ⟨call', hcall, hpending⟩ := bind_eq_ok_iff.mp hpending
      cases hpending
      have hperm := flatten_cons_perm (.notification call') pending l₁ l₂
      refine h.batches fun id => ?_
      rw [hperm.countP_eq, ← hbatches]
      rw [List.countP_cons]
      exact Nat.le_add_right _ _
  | submit hrun hbatches => exact h.submit hcore (hconnected hrun) hbatches
  | mismatch _ _ => exact h.leave_terminate hcore none
  | finish hrun => exact h.finish hrun
  | lost => exact Kept.of_lost rfl h.orderly

theorem kept_reachable (he : e.Answers) (h : (system e).Reachable s) : s.Kept :=
  h.invariant (fun _ hs => hs ▸ create_kept) fun _ _ hs hkept hstep =>
    hkept.step he (inv_reachable hs).toCore hstep

end Exchange

end Csexp.Rpc
