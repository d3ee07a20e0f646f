import Csexp.Rpc.Calls

/-!
# What the two ends agree on

The results about all runs of a client and a server: they have the same
menu, a request is answered with what the server has made of it, and a
response that nobody waits for belongs to a cancelled request.
-/

namespace Csexp.Rpc

open Conv (Env)
open Raising
open Server (Session Stage MessageKind H)

variable {P : Platform}

namespace Exchange

variable {e : Ends P} {s s' : Exchange P} {id : Id} {call : Call} {i : ℕ}

/-! ## The menu -/

/-- A connected client has the menu of its server. It has the methods of which
both ends know a common version, with the greatest of these. -/
theorem menu_negotiated {l : List (Bytes × List (NativeInt P))} (h : (system e).Reachable s)
    (hl : Menu.knownVersions l = .ok e.server.knownVersions)
    (hprocedures : (e.procedures.map Prod.fst).Nodup) {menu : Menu (NativeInt P)}
    (hmenu : s.run.menu = some menu) :
    s.server.menu = some menu ∧ (∃ (method : Bytes) (v : NativeInt P), menu[method]? = some v) ∧
    ∀ (method : Bytes) (v : NativeInt P), menu[method]? = some v ↔
      IsGreatest {w | Menu.Lists l method w ∧ Menu.Lists e.procedures method w} v := by
  obtain ⟨hserver, hselect⟩ := (inv_reachable h).negotiates hmenu
  refine ⟨hserver, ?_⟩
  rcases Menu.selectCommon_cases hl hprocedures with ⟨hnone, -⟩ | ⟨m, hm, ⟨method, w, hw⟩, hget⟩
  · rw [hselect] at hnone
    cases hnone
  · rw [hselect] at hm
    cases hm
    obtain ⟨v, hv⟩ := Menu.exists_greatest hw.1 hw.2
    exact ⟨⟨method, v, (hget method v).mpr hv⟩, hget⟩

/-- A client and a server that both know the first version of one method. -/
def pingEnds : Ends Platform.native64 where
  init := Initialize.Request.create (.list [])
  procedures := [(lit "ping", [NativeInt.ofInt _ 1])]
  onPreemptiveAbort msg := .error (.serverAborted msg)
  server :=
    { version := (3, 7)
      knownVersions := (∅ : StringMap _).insert (lit "ping") {NativeInt.ofInt _ 1} }
  handles _ call result := result = .ok (.ok call.params)
  handlesNotification _ _ result := result = .ok ()

/-- It connects and sends a ping, which is answered, or cancelled when the
response is already on its way. -/
theorem pingEnds_runs :
    (∃ s s₁ s' menu, (system pingEnds).Reachable s ∧ s.run = .connected menu ∧ s.batches = [] ∧
      s.client.ivars[2]? = some none ∧ s.serve pingEnds = some s₁ ∧ s₁.server.menu = some menu ∧
      s₁.server.tasks = [] ++ [(.request (.list []), ⟨lit "ping", .list []⟩)] ∧
      (s₁.finishTask (.request (.list []), ⟨lit "ping", .list []⟩) ([] ++ [])
        (.ok (.ok (.list [])))).readPackets pingEnds = some s' ∧
      s'.readPackets pingEnds = none ∧ s'.serve pingEnds = none ∧ s'.reading = true ∧
      s'.waiting = [] ∧ s'.raised = [] ∧ s'.server.tasks = []) ∧
    (∃ s, (system pingEnds).Reachable s ∧
      s.client.ivars[2]? = some (some (.completed (.ok (.list []))))) ∧
    ∃ s toClient, (system pingEnds).Reachable s ∧ s.client.running = true ∧
      .list [] ∈ s.cancelled ∧ s.toClient.read pingEnds.version =
        some (.ok (some (.response (.list []) (.ok (.list [])))), toClient) := by
  have hstart : (system pingEnds).Reachable create := .init rfl
  have hasked := hstart.step (.connect rfl)
  have hserved := hasked.step (.serve rfl)
  have hopened := hserved.step (.readPackets rfl)
  have hasked' := hopened.step (.connect rfl)
  have hserved' := hasked'.step (.serve rfl)
  have hselected := hserved'.step (.readPackets rfl)
  have hconnected := hselected.step (.connect rfl)
  have hrequest := hconnected.step (.request rfl (some (.list [])) ⟨lit "ping", .list []⟩
    List.not_mem_nil)
  have hqueued := hrequest.step (.serve rfl)
  have hresponse := hqueued.step (@Step.finishTask _ _ _ _
    (.request (.list []), ⟨lit "ping", .list []⟩) [] [] (.ok (.ok (.list []))) rfl rfl rfl)
  refine ⟨⟨_, _, _, _, hrequest, rfl, rfl, rfl, rfl, rfl, rfl, rfl, rfl, rfl, rfl, rfl, rfl, rfl⟩,
    ⟨_, hresponse.step (.readPackets rfl), rfl⟩, ?_⟩
  exact ⟨_, _, hresponse.step (.cancel rfl (.list []) rfl), rfl, List.mem_singleton_self _, rfl⟩

theorem menu_negotiated_sample : ∃ s menu v, (system pingEnds).Reachable s ∧
    s.run.menu = some menu ∧ s.server.menu = some menu ∧ menu[lit "ping"]? = some v := by
  obtain ⟨⟨s, -, -, menu, hreachable, hrun, -⟩, -⟩ := pingEnds_runs
  have hmenu : s.run.menu = some menu := congrArg Run.menu hrun
  obtain ⟨hserver, -, hget⟩ := menu_negotiated (l := [(lit "ping", [NativeInt.ofInt _ 1])])
    hreachable rfl (List.nodup_singleton _) hmenu
  have hlists : Menu.Lists [(lit "ping", [NativeInt.ofInt Platform.native64 1])] (lit "ping")
      (NativeInt.ofInt _ 1) := ⟨_, List.mem_singleton_self _, List.mem_singleton_self _⟩
  refine ⟨s, menu, _, hreachable, hmenu, hserver, (hget _ (NativeInt.ofInt _ 1)).mpr ?_⟩
  refine ⟨⟨hlists, hlists⟩, ?_⟩
  rintro w ⟨⟨vs, hvs, hw⟩, -⟩
  cases List.mem_singleton.mp hvs
  exact (List.mem_singleton.mp hw).le

/-! ## Requests and responses -/

/-- A client that runs no more has an answer to each of its requests. -/
theorem answer_of_stopped {t : Client P} (h : t.Inv) (hrun : t.running = false) {x : Option Outcome}
    (hx : x ∈ t.ivars) : x ≠ none := by
  rintro rfl
  obtain ⟨i, hi⟩ := List.mem_iff_getElem?.mp hx
  obtain ⟨id, hid⟩ := h.owner i hi
  rw [h.stopped hrun, AList.lookup_empty] at hid
  cases hid

/-- A request in flight is that of the ivar which waits for it. -/
theorem Flight.call_of_pending (h : s.Flight e)
    (hid : s.client.requests.lookup id = some (.pending i))
    (hcall : s.asked[i]? = some (id, call)) :
    (∀ c, .request id c ∈ s.batches.flatten → c = call) ∧
    (∀ c, .request id c ∈ s.toServer.packets → c = call) ∧
    ∀ c, (.request id, c) ∈ s.server.tasks → c = call := by
  have hmem := Client.mem_of_lookup hid
  have howns {p : ℕ → Prop} {c : Call}
      (hc : id ∈ s.cancelled ∨ ∃ j, s.Owns j id c ∧ p j) : c = call := by
    rcases hc with hc | ⟨j, ⟨hj, hasked⟩, -⟩
    · exact absurd hc (h.disjoint id hmem)
    · cases hid.symm.trans hj
      cases hcall.symm.trans hasked
      rfl
  exact ⟨fun c hc => howns (h.batches id c hc), fun c hc => howns (h.toServer id c hc),
    fun c hc => howns (h.tasks id c hc)⟩

/-- A request that has an answer has been answered with what the server has
made of that very request, in the version on which both ends have agreed.
Until then it is in flight once at most, with the call it has been made
with. No ivar is filled twice, and none is left empty at the end. -/
theorem requests_answered (h : (system e).Reachable s) :
    (∀ i r, 2 ≤ i → s.client.ivars[i]? = some (some (.completed r)) →
      ∃ id call menu result, s.asked[i]? = some (id, call) ∧ s.server.menu = some menu ∧
        e.handles menu call result ∧ r = H.dispatchRequest.response result) ∧
    (∀ id i, s.client.requests.lookup id = some (.pending i) →
      ∃ call, s.asked[i]? = some (id, call) ∧ s.client.ivars[i]? = some none ∧ s.inFlight id ≤ 1 ∧
        (∀ c, .request id c ∈ s.batches.flatten → c = call) ∧
        (∀ c, .request id c ∈ s.toServer.packets → c = call) ∧
        ∀ c, (.request id, c) ∈ s.server.tasks → c = call) ∧
    (s.client.running = false → ∀ x ∈ s.client.ivars, x ≠ none) ∧
    (∃ p, s.client.terminate = .ok p) ∧ (∀ id, ∃ s', s.cancel id = .ok s') ∧
    ∀ id r, ∃ p, s.client.readResponse id r = .ok p := by
  have hinv := inv_reachable h
  have hterminate : ∃ p, s.client.terminate = .ok p := by
    cases hrun : s.client.running with
    | false => exact ⟨_, Client.terminate_of_not_running hrun⟩
    | true =>
        obtain ⟨sent, -, hterminate⟩ := hinv.client.terminate hrun
        exact ⟨_, hterminate⟩
  refine ⟨fun i r hi hr => ?_, fun id i hid => ?_, fun hrun x => answer_of_stopped hinv.client hrun,
    hterminate, fun id => ?_, fun id r => ?_⟩
  · obtain ⟨id, call, hcall, hanswered⟩ := hinv.filled i r hr
    obtain ⟨j, rfl⟩ := Nat.exists_eq_add_of_le' hi
    obtain ⟨menu, result, hmenu, hresult, rfl⟩ := hanswered
    exact ⟨id, call, menu, result, hcall, hmenu, hresult, rfl⟩
  · obtain ⟨call, hcall⟩ := hinv.owner id i hid
    obtain ⟨j, hj, hempty⟩ := hinv.client.pending id _ hid
    cases hj
    have hmem := Client.mem_of_lookup hid
    have hflight := hinv.flight (hinv.client.running hid)
    refine ⟨call, hcall, hempty, ?_, hflight.call_of_pending hid hcall⟩
    calc
      s.inFlight id ≤ s.owed id := hflight.count id
      _ = 1 := owed_of_mem hmem hflight
  · cases hlookup : s.client.requests.lookup id with
    | none =>
        have hcancel := Client.Inv.cancel_none hlookup
        exact ⟨_, by rw [Exchange.cancel, hcancel]; rfl⟩
    | some status =>
        obtain ⟨i, rfl, -⟩ := hinv.client.pending id status hlookup
        have hcancel := hinv.client.cancel hlookup
        exact ⟨_, by rw [Exchange.cancel, hcancel]; rfl⟩
  · cases hlookup : s.client.requests.lookup id with
    | none =>
        obtain ⟨p, hp⟩ := hterminate
        exact ⟨_, by rw [Client.readResponse, hlookup, terminateWithError_eq, hp]; rfl⟩
    | some status =>
        obtain ⟨i, rfl, -⟩ := hinv.client.pending id status hlookup
        exact ⟨_, hinv.client.readResponse hlookup r⟩

theorem requests_answered_sample : ∃ s id call menu result, (system pingEnds).Reachable s ∧
    s.asked[2]? = some (id, call) ∧ s.server.menu = some menu ∧
    pingEnds.handles menu call result ∧ .ok (.list []) = H.dispatchRequest.response result := by
  obtain ⟨-, ⟨s, hreachable, hanswer⟩, -⟩ := pingEnds_runs
  obtain ⟨id, call, menu, result, hresult⟩ :=
    (requests_answered hreachable).1 2 _ le_rfl hanswer
  exact ⟨s, id, call, menu, result, hreachable, hresult⟩

/-! ## Responses to cancelled requests -/

/-- A running client that terminates with an error. -/
theorem leave_terminateWithError (h : s.client.Inv) (hrun : s.client.running = true)
    (message : String) :
    (s.leave (s.client.terminateWithError message)).client = s.client.dead ∧
      (s.leave (s.client.terminateWithError message)).raised =
        s.raised ++ [.exn (.codeError message)] := by
  obtain ⟨sent, hsent, hterminate⟩ := h.terminate hrun
  rw [terminateWithError_eq, hterminate]
  rcases hsent with rfl | rfl
  · exact ⟨rfl, rfl⟩
  · exact ⟨rfl, rfl⟩

/-- A running client reads a response. If the request has been cancelled its
entry has been removed, so that the response is unexpected and the client
terminates: all other requests end with a dead connection. Otherwise the
response goes to the one request that waits for it. -/
theorem response_received (h : (system e).Reachable s) (hrun : s.client.running = true)
    {r : Response} {toClient : Pipe}
    (hread : s.toClient.read e.version = some (.ok (some (.response id r)), toClient)) :
    ∃ s', s.readPackets e = some s' ∧
      (id ∈ s.cancelled → s'.client = s.client.dead ∧
        s'.raised = s.raised ++ [.exn (.codeError "unexpected response")]) ∧
      (id ∉ s.cancelled → ∃ i call, s.asked[i]? = some (id, call) ∧
        s.client.requests.lookup id = some (.pending i) ∧
        s'.client = s.client.settle id i (.completed r) ∧ s'.raised = s.raised) := by
  have hinv := inv_reachable h
  have hflight := hinv.flight hrun
  have hmem : .response id r ∈ s.toClient.packets := by
    obtain ⟨query, hx, hpipe⟩ := hinv.toClient.reads hread
    cases hx
    exact hpipe.packets_some ▸ List.mem_cons_self
  have hreading := hinv.reads (List.ne_nil_of_mem hmem)
  refine ⟨({ s with toClient } : Exchange P).leave (s.client.readResponse id r), ?_, ?_, ?_⟩
  · simp only [Exchange.readPackets, hreading, hread, readPacket]
  · intro hid
    have hlookup : s.client.requests.lookup id = none := by
      rw [AList.lookup_eq_none]
      intro hpending
      exact hflight.disjoint id hpending hid
    rw [Client.readResponse, hlookup]
    exact leave_terminateWithError (s := { s with toClient }) hinv.client hrun _
  · intro hid
    obtain ⟨i, call, ⟨hlookup, hcall⟩, -⟩ := (hflight.toClient id r hmem).resolve_left hid
    rw [hinv.client.readResponse hlookup r]
    exact ⟨i, call, hcall, hlookup, rfl, List.append_nil _⟩

theorem response_received_sample : ∃ s s', (system pingEnds).Reachable s ∧
    s.client.running = true ∧ s.readPackets pingEnds = some s' ∧ s'.client.running = false ∧
    s'.raised = s.raised ++ [.exn (.codeError "unexpected response")] := by
  obtain ⟨-, -, s, toClient, hreachable, hrun, hcancelled, hread⟩ := pingEnds_runs
  obtain ⟨s', hs', hdead, -⟩ := response_received hreachable hrun hread
  obtain ⟨hclient, hraised⟩ := hdead hcancelled
  exact ⟨s, s', hreachable, hrun, hs', by rw [hclient]; rfl, hraised⟩

end Exchange

end Csexp.Rpc
