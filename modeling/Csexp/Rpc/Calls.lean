import Csexp.Rpc.Answers

/-!
# The calls of a client

How a client connects, makes its requests, puts them into batches and
cancels them, in any order and whatever the server does meanwhile.
-/

namespace Csexp.Rpc

open Conv (Env)
open Raising
open Server (Session Stage MessageKind H)

variable {P : Platform}

namespace Exchange

variable {e : Ends P} {s s' : Exchange P} {id : Id} {call : Call} {i : ℕ}

/-! ## Requests that are prepared -/

theorem genId_spec (t : Client P) (id : Option Id) : (t.genId id).2.requests = t.requests ∧
    (t.genId id).2.ivars = t.ivars ∧ (t.genId id).2.running = t.running := by
  cases id <;> exact ⟨rfl, rfl, rfl⟩

/-- What preparing a request does, if it does anything. -/
theorem prepareRequest'_cases {t t' : Client P} {x : Except Response.Error ℕ}
    (h : t.prepareRequest' id call = .ok (x, t')) :
    (t' = t ∧ ∃ err, x = .error err) ∨
    t.running = true ∧ t.requests.lookup id = none ∧ x = .ok t.ivars.length ∧ t' = t.ask id := by
  rw [Client.prepareRequest'] at h
  split at h
  · obtain ⟨_, _, h⟩ := bind_eq_ok_iff.mp h
    cases h
    exact .inl ⟨rfl, _, rfl⟩
  · rename_i hrun
    split at h
    · rename_i hlookup
      cases h
      exact .inr ⟨hrun, hlookup, rfl, rfl⟩
    · cases h

/-- A request has been prepared, and is in flight nowhere yet. -/
theorem Core.ask (h : s.Core e) (call : Call) (hrun : s.client.running = true)
    (hlookup : s.client.requests.lookup id = none) (hid : id ∉ s.cancelled)
    (hprogress : Progress s.server (s.asked.length + 1) (s.toServer.packets.countP isRequest))
    (hmenuCall : s.asked.length = 1 →
      (VersionNegotiation.Request.create e.procedures).toCall = .ok call) :
    ({ s with
      client := s.client.ask id, asked := s.asked ++ [(id, call)] } : Exchange P).Core e := by
  have hclient : (s.client.ask id).requests =
      s.client.requests.insert id (.pending s.asked.length) := by
    rw [Client.ask, h.length]
  obtain ⟨hflight, -, -⟩ := (h.flight hrun).ask call hlookup hid hclient
  refine ⟨h.client.ask hrun hlookup, ?_, fun id' i hi => ?_, h.toServer, h.toClient,
    h.noResponse, h.noRequest, ?_, fun i r hi => ?_, fun id' call' hi => ?_, h.reading, h.cancelled,
    fun _ => hflight⟩
  · simp only [Client.ask, List.length_append, List.length_singleton, h.length]
  · dsimp only [Client.ask] at hi
    by_cases heq : id' = id
    · subst heq
      rw [AList.lookup_insert] at hi
      cases hi
      exact ⟨call, by rw [← h.length]; exact List.getElem?_concat_length⟩
    · rw [AList.lookup_insert_ne heq] at hi
      obtain ⟨call', hcall'⟩ := h.owner id' i hi
      have hlt := (List.getElem?_eq_some_iff.mp hcall').1
      exact ⟨call', (List.getElem?_append_left hlt).trans hcall'⟩
  · rw [List.length_append, List.length_singleton]
    exact hprogress
  · dsimp only [Client.ask] at hi
    have hlt : i < s.client.ivars.length := by
      by_contra hle
      have hlt := (List.getElem?_eq_some_iff.mp hi).1
      rw [List.length_append, List.length_singleton] at hlt
      obtain rfl : i = s.client.ivars.length := by omega
      rw [List.getElem?_concat_length] at hi
      cases hi
    rw [List.getElem?_append_left hlt] at hi
    obtain ⟨id', call', hasked, ha⟩ := h.filled i r hi
    exact ⟨id', call', (List.getElem?_append_left (h.length ▸ hlt)).trans hasked, ha⟩
  · dsimp only at hi
    by_cases hlen : 1 < s.asked.length
    · rw [List.getElem?_append_left hlen] at hi
      exact h.menuCall id' call' hi
    · have hlt := (List.getElem?_eq_some_iff.mp hi).1
      rw [List.length_append, List.length_singleton] at hlt
      have hone : s.asked.length = 1 := by omega
      rw [← hone, List.getElem?_concat_length] at hi
      cases hi
      exact hmenuCall hone

theorem prefix_singleton {α : Type*} {a : α} {l : List α} (h : l <+: [a]) : l = [] ∨ l = [a] := by
  cases l with
  | nil => exact .inl rfl
  | cons b l =>
      rw [List.cons_prefix_cons, List.prefix_nil] at h
      exact .inr (by rw [h.1, h.2])

/-- A prepared request is sent, or lost with an exception. -/
theorem Core.place {toServer : Pipe} (h : s.Core e) (hvalid : toServer.Valid)
    (hp : toServer.packets = s.toServer.packets ∨
      toServer.packets = s.toServer.packets ++ [.request id call])
    (ho : s.client.running = true → s.Owns i id call) (hlanded : s.Landed id)
    (hexpects : Expects s.server.stage i)
    (hprogress : Progress s.server s.asked.length (s.toServer.packets.countP isRequest + 1)) :
    ({ s with toServer } : Exchange P).Core e := by
  rcases hp with hp | hp
  · refine h.pipes hvalid h.toClient (fun p hmem => .inl (hp ▸ hmem)) (fun _ => .inl)
      (fun id => ?_) ?_ (fun _ => le_rfl) h.reading
    · rw [hp]
    · rw [hp]
  · refine ⟨h.client, h.length, h.owner, hvalid, h.toClient,
      fun id' r => ⟨fun hmem => ?_, (h.noResponse id' r).2⟩, h.noRequest, ?_, h.filled, h.menuCall,
      h.reading, h.cancelled, fun hrun => (h.flight hrun).send (ho hrun) hexpects hlanded hp⟩
    · rw [hp] at hmem
      rcases List.mem_append.mp hmem with hmem | hmem
      · exact (h.noResponse id' r).1 hmem
      · cases List.mem_singleton.mp hmem
    · rw [hp, List.countP_append]
      exact hprogress

/-- What `request_untyped` leaves behind. -/
theorem requestUntyped_cases {x : Except Failure (Except Response.Error ℕ)} {t : Exchange P}
    (h : s.requestUntyped id call = (x, t)) :
    (t = s ∧ ∀ ivar, x ≠ .ok (.ok ivar)) ∨
    s.client.running = true ∧ s.client.requests.lookup id = none ∧
      t = { s with
        client := s.client.ask id, asked := s.asked ++ [(id, call)],
        toServer := (s.toServer.writeAll [some [.request id call]]).1 } ∧
      ∀ ivar, x = .ok (.ok ivar) → ivar = s.client.ivars.length := by
  rw [Exchange.requestUntyped, Client.requestUntyped] at h
  cases hprepare : s.client.prepareRequest' id call with
  | error err =>
      rw [hprepare] at h
      cases h
      exact .inl ⟨rfl, fun _ h => by cases h⟩
  | ok p =>
      obtain ⟨x', client⟩ := p
      rw [hprepare] at h
      obtain ⟨rfl, err, rfl⟩ | ⟨hrun, hlookup, rfl, rfl⟩ := prepareRequest'_cases hprepare
      · cases h
        exact .inl ⟨rfl, fun _ h => by cases h⟩
      · simp only [bind, Except.bind, Exchange.send] at h
        refine .inr ⟨hrun, hlookup, ?_⟩
        split at h
        · cases h
          exact ⟨rfl, fun _ h => by cases h⟩
        · cases h
          refine ⟨rfl, fun ivar hx => ?_⟩
          cases hx
          rfl

theorem Core.requestUntyped {x : Except Failure (Except Response.Error ℕ)} {t : Exchange P}
    (h : s.Core e) (hs : s.requestUntyped id call = (x, t)) (hid : id ∉ s.cancelled)
    (hexpects : Expects s.server.stage s.asked.length)
    (hprogress : Progress s.server (s.asked.length + 1)
      (s.toServer.packets.countP isRequest + 1))
    (hmenuCall : s.asked.length = 1 →
      (VersionNegotiation.Request.create e.procedures).toCall = .ok call) :
    t.Core e := by
  obtain ⟨rfl, -⟩ | ⟨hrun, hlookup, rfl, -⟩ := requestUntyped_cases hs
  · exact h
  · have hcore := h.ask call hrun hlookup hid (hprogress.mono (Nat.le_succ _)) hmenuCall
    have hclient : (s.client.ask id).requests =
        s.client.requests.insert id (.pending s.asked.length) := by
      rw [Client.ask, h.length]
    obtain ⟨-, howns, hlanded⟩ := (h.flight hrun).ask call hlookup hid hclient
    obtain ⟨⟨ps, hps, hpart⟩, hvalid, -⟩ := s.toServer.writeAll_spec [some [.request id call]]
    have hplace : s.toServer.packets ++ ps = s.toServer.packets ∨
        s.toServer.packets ++ ps = s.toServer.packets ++ [.request id call] := by
      rcases prefix_singleton hpart with rfl | rfl
      · exact .inl (List.append_nil _)
      · exact .inr rfl
    rw [← hps] at hplace
    refine hcore.place (hvalid h.toServer) hplace (fun _ => howns)
      ⟨hlanded.batches, hlanded.toServer, hlanded.tasks, hlanded.toClient⟩ hexpects ?_
    rw [List.length_append]
    exact hprogress

/-! ## A connected client -/

/-- Once the client is connected the server has the menu, too. -/
theorem Inv.negotiates {menu : Menu (NativeInt P)} (h : s.Inv e) (hmenu : s.run.menu = some menu) :
    Negotiates e s.server menu := by
  have hrun := h.run
  cases hr : s.run with
  | connected menu' =>
      rw [hr] at hrun hmenu
      cases hmenu
      exact hrun
  | finished menu' =>
      rw [hr] at hrun hmenu
      cases hmenu
      exact hrun
  | start =>
      rw [hr] at hmenu
      cases hmenu
  | initializing ivar =>
      rw [hr] at hmenu
      cases hmenu
  | negotiating ivar =>
      rw [hr] at hmenu
      cases hmenu
  | raised err =>
      rw [hr] at hmenu
      cases hmenu

theorem Core.opened {menu : Menu (NativeInt P)} (h : s.Core e) (hmenu : s.server.menu = some menu) :
    2 ≤ s.asked.length ∧ (∀ i, 2 ≤ i → Expects s.server.stage i) ∧
      ∀ n k, 2 ≤ n → Progress s.server n k := by
  have hne : s.server.menu ≠ none := by
    rw [hmenu]
    exact fun h => by cases h
  have hold := h.progress
  simp only [Progress] at hold ⊢
  cases hs : s.server.stage <;> rw [hs] at hold
  · exact absurd hold.2.2 hne
  · exact absurd hold.2.2 hne
  · exact ⟨hold.1, fun _ hi => hi, fun n _ hn => ⟨hn, hne⟩⟩
  · exact ⟨hold.1, fun _ _ => trivial, fun n _ hn => ⟨hn, hne⟩⟩
  · exact ⟨hold hne, fun _ _ => trivial, fun n _ hn _ => hn⟩

/-- The client stays connected. -/
theorem Inv.connected {menu : Menu (NativeInt P)} {t : Exchange P} (h : s.Inv e)
    (hrun : s.run = .connected menu) (ht : t.Core e) (htrun : t.run = s.run)
    (htserver : t.server = s.server) : t.Inv e := by
  refine ⟨ht, ?_⟩
  rw [htrun, htserver, hrun]
  exact h.negotiates (congrArg Run.menu hrun)

theorem Inv.request {menu : Menu (NativeInt P)} (h : s.Inv e) (hrun : s.run = .connected menu)
    (id : Option Id) (call : Call) (hid : (s.client.genId id).1 ∉ s.cancelled) :
    (s.request id call).Inv e := by
  obtain ⟨hlen, hexpects, hprogress⟩ :=
    h.toCore.opened (h.negotiates (congrArg Run.menu hrun)).1
  obtain ⟨hrequests, hivars, hrunning⟩ := genId_spec s.client id
  have hcore : ({ s with client := (s.client.genId id).2 } : Exchange P).Core e :=
    h.toCore.client_congr hrequests hivars hrunning
  cases hs : ({ s with client := (s.client.genId id).2 } : Exchange P).requestUntyped
      (s.client.genId id).1 call with
  | mk x t =>
      have hreq : s.request id call = t := congrArg Prod.snd hs
      rw [hreq]
      have ht := hcore.requestUntyped hs hid (hexpects _ hlen)
        (hprogress _ _ (hlen.trans (Nat.le_succ _))) fun hone => absurd (hone ▸ hlen) (by decide)
      obtain ⟨rfl, -⟩ | ⟨-, -, rfl, -⟩ := requestUntyped_cases hs
      · exact h.connected hrun ht rfl rfl
      · exact h.connected hrun ht rfl rfl

theorem Core.cancel (h : s.Core e) (hmenu : s.server.menu ≠ none) (hs : s.cancel id = .ok s') :
    After e s s' := by
  obtain ⟨client, hclient, hs⟩ := bind_eq_ok_iff.mp hs
  cases hlookup : s.client.requests.lookup id with
  | none =>
      rw [Client.Inv.cancel_none hlookup] at hclient
      cases hclient
      simp only [hlookup, Option.isSome_none, Bool.false_eq_true, if_false] at hs
      cases hs
      exact ⟨h, rfl, Later.refl _, rfl⟩
  | some status =>
      obtain ⟨i, rfl, -⟩ := h.client.pending id status hlookup
      rw [h.client.cancel hlookup] at hclient
      cases hclient
      simp only [hlookup, Option.isSome_some, if_true] at hs
      cases hs
      have hid := Client.mem_of_lookup hlookup
      refine ⟨h.settle hlookup (fun _ h => by cases h) (fun _ => hmenu) fun hrun => ?_, rfl,
        Later.refl _, rfl⟩
      exact (h.flight hrun).cancel hid

/-- Nothing but notifications enters a batch. -/
theorem Core.batches {batches : List Client.Batch.Pending} (h : s.Core e)
    (hmem : ∀ p ∈ batches.flatten, p ∈ s.batches.flatten ∨ ∃ call, p = .notification call)
    (hcount : ∀ id, batches.flatten.countP (asks id) ≤ s.batches.flatten.countP (asks id)) :
    After e s { s with batches } := by
  refine ⟨⟨h.client, h.length, h.owner, h.toServer, h.toClient,
    fun id r => ⟨(h.noResponse id r).1, fun hr => ?_⟩, h.noRequest, h.progress, h.filled,
    h.menuCall, h.reading, h.cancelled, fun hrun => ?_⟩, rfl, Later.refl _, rfl⟩
  · rcases hmem _ hr with hr | ⟨call, heq⟩
    · exact (h.noResponse id r).2 hr
    · cases heq
  · have hflight := h.flight hrun
    refine hflight.mono rfl rfl rfl (fun id => ?_) (Later.refl _) (fun id call hr => ?_)
      hflight.toServer hflight.tasks fun id r hr => .inl hr
    · have := hcount id
      simp only [inFlight]
      omega
    · rcases hmem _ hr with hr | ⟨call, heq⟩
      · exact hr
      · cases heq

/-- A prepared request enters a batch. -/
theorem Core.placeBatch {batches : List Client.Batch.Pending} (h : s.Core e)
    (hp : batches.flatten.Perm (.request id call :: s.batches.flatten))
    (ho : s.client.running = true → s.Owns i id call) (hlanded : s.Landed id) (hi : 2 ≤ i) :
    ({ s with batches } : Exchange P).Core e := by
  refine ⟨h.client, h.length, h.owner, h.toServer, h.toClient,
    fun id' r => ⟨(h.noResponse id' r).1, fun hmem => ?_⟩, h.noRequest, h.progress, h.filled,
    h.menuCall, h.reading, h.cancelled, fun hrun => (h.flight hrun).batch (ho hrun) hi hlanded hp⟩
  rw [hp.mem_iff, List.mem_cons] at hmem
  rcases hmem with hmem | hmem
  · cases hmem
  · exact (h.noResponse id' r).2 hmem

section Batches

variable {menu : Menu (NativeInt P)} {pending : Client.Batch.Pending}
  {l₁ l₂ : List Client.Batch.Pending}

theorem flatten_cons_perm (p : Packet) (pending : Client.Batch.Pending)
    (l₁ l₂ : List Client.Batch.Pending) :
    (l₁ ++ (p :: pending) :: l₂).flatten.Perm (p :: (l₁ ++ pending :: l₂).flatten) := by
  rw [List.flatten_append, List.flatten_append, List.flatten_cons, List.flatten_cons]
  exact List.perm_middle

theorem batchRequest_cases (s : Exchange P) (l₁ : List Client.Batch.Pending)
    (pending : Client.Batch.Pending) (l₂ : List Client.Batch.Pending) (id : Option Id)
    (call : Call) :
    s.batchRequest l₁ pending l₂ id call = { s with client := (s.client.genId id).2 } ∨
    ∃ id' client, s.client.genId id = (id', client) ∧ client.running = true ∧
      client.requests.lookup id' = none ∧
      s.batchRequest l₁ pending l₂ id call = { s with
        client := client.ask id', batches := l₁ ++ (.request id' call :: pending) :: l₂,
        asked := s.asked ++ [(id', call)] } := by
  unfold Exchange.batchRequest Client.Batch.request
  generalize s.client.genId id = p
  obtain ⟨id, client⟩ := p
  dsimp only
  cases hprepare : client.prepareRequest' id call with
  | error err => exact .inl rfl
  | ok p =>
      obtain ⟨x, client'⟩ := p
      obtain ⟨rfl, err, rfl⟩ | ⟨hrun, hlookup, rfl, rfl⟩ := prepareRequest'_cases hprepare
      · exact .inl rfl
      · exact .inr ⟨id, client, rfl, hrun, hlookup, rfl⟩

theorem Inv.batchRequest (h : s.Inv e) (hrun : s.run = .connected menu)
    (hbatches : s.batches = l₁ ++ pending :: l₂) (id : Option Id) (call : Call)
    (hid : (s.client.genId id).1 ∉ s.cancelled) : (s.batchRequest l₁ pending l₂ id call).Inv e := by
  obtain ⟨hlen, -, hprogress⟩ := h.toCore.opened (h.negotiates (congrArg Run.menu hrun)).1
  obtain ⟨hrequests, hivars, hrunning⟩ := genId_spec s.client id
  have hcore : ({ s with client := (s.client.genId id).2 } : Exchange P).Core e :=
    h.toCore.client_congr hrequests hivars hrunning
  obtain hs | ⟨id', client, hgen, hrun', hlookup, hs⟩ :=
    batchRequest_cases s l₁ pending l₂ id call
  · rw [hs]
    exact h.connected hrun hcore rfl rfl
  · rw [hs]
    rw [hgen] at hcore hid
    have hone : s.asked.length ≠ 1 := by omega
    have hasked := hcore.ask call hrun' hlookup hid (hprogress _ _ (hlen.trans (Nat.le_succ _)))
      fun h => absurd h hone
    have hclient : (client.ask id').requests =
        client.requests.insert id' (.pending s.asked.length) := by
      rw [Client.ask, ← hcore.length]
    obtain ⟨-, howns, hlanded⟩ := (hcore.flight hrun').ask call hlookup hid hclient
    refine h.connected hrun (hasked.placeBatch (hbatches ▸ flatten_cons_perm _ _ _ _)
      (fun _ => howns)
      ⟨hlanded.batches, hlanded.toServer, hlanded.tasks, hlanded.toClient⟩ hlen) rfl rfl

theorem Core.submit (h : s.Core e) (hmenu : s.server.menu = some menu)
    (hbatches : s.batches = l₁ ++ pending :: l₂) : After e s (s.submit l₁ pending l₂) := by
  obtain ⟨⟨ps, hps, hpart⟩, hvalid, -⟩ := s.toServer.writeAll_spec [some pending.reverse]
  obtain ⟨-, hexpects, hprogress⟩ := h.opened hmenu
  have hlen := (h.opened hmenu).1
  have hps' : ps <+: pending.reverse := by
    rw [Pipe.packetsOf] at hpart
    simpa using hpart
  have hmem : ∀ p ∈ ps, p ∈ s.batches.flatten := by
    intro p hp
    rw [hbatches, List.flatten_append, List.flatten_cons]
    refine List.mem_append_right _ (List.mem_append_left _ ?_)
    exact List.mem_reverse.mp (hps'.subset hp)
  have hsub : (l₁ ++ [] :: l₂).flatten.Sublist s.batches.flatten := by
    rw [hbatches, List.flatten_append, List.flatten_append, List.flatten_cons, List.flatten_cons,
      List.nil_append]
    exact (List.sublist_append_right _ _).append_left _
  refine ⟨⟨h.client, h.length, h.owner, hvalid h.toServer, h.toClient,
    fun id r => ⟨fun hr => ?_, fun hr => (h.noResponse id r).2 (hsub.subset hr)⟩, h.noRequest,
    hprogress _ _ hlen, h.filled, h.menuCall, h.reading, h.cancelled, fun hrun => ?_⟩, rfl,
    Later.refl _, rfl⟩
  · have hr' := hps ▸ hr
    rcases List.mem_append.mp hr' with hr' | hr'
    · exact (h.noResponse id r).1 hr'
    · exact (h.noResponse id r).2 (hmem _ hr')
  · have hflight := h.flight hrun
    refine hflight.mono rfl rfl rfl (fun id => ?_) (Later.refl _)
      (fun id call hr => hsub.subset hr) (fun id call hr => ?_) hflight.tasks
      fun id r hr => .inl hr
    · have hle : ps.countP (asks id) ≤ pending.countP (asks id) := by
        calc
          ps.countP (asks id) ≤ pending.reverse.countP (asks id) := hps'.sublist.countP_le
          _ = pending.countP (asks id) := List.countP_reverse
      have hbatch : s.batches.flatten.countP (asks id) =
          (l₁ ++ [] :: l₂).flatten.countP (asks id) + pending.countP (asks id) := by
        rw [hbatches]
        simp only [List.flatten_append, List.flatten_cons, List.countP_append, List.countP_nil]
        omega
      have hsent : (s.submit l₁ pending l₂).toServer.packets.countP (asks id) =
          s.toServer.packets.countP (asks id) + ps.countP (asks id) := by
        rw [← List.countP_append, ← hps]
        rfl
      rw [inFlight, inFlight, hbatch, hsent]
      have hsame : (s.submit l₁ pending l₂).batches = l₁ ++ [] :: l₂ := rfl
      have htasks : (s.submit l₁ pending l₂).server = s.server := rfl
      have htoClient : (s.submit l₁ pending l₂).toClient = s.toClient := rfl
      rw [hsame, htasks, htoClient]
      omega
    · have hr' := hps ▸ hr
      rcases List.mem_append.mp hr' with hr' | hr'
      · exact hflight.toServer id call hr'
      · rcases hflight.batches id call (hmem _ hr') with hc | ⟨i, ho, hi⟩
        · exact .inl hc
        · exact .inr ⟨i, ho, hexpects i hi⟩

end Batches

theorem Core.notification (h : s.Core e) (call : Call) : After e s (s.notification call) := by
  rw [Exchange.notification]
  cases s.client.makeNotification call with
  | error err => exact ⟨h, rfl, Later.refl _, rfl⟩
  | ok call =>
      refine ⟨h.send fun p hp => ?_, rfl, Later.refl _, rfl⟩
      exact ⟨call, List.mem_singleton.mp hp⟩

theorem Inv.finish {menu : Menu (NativeInt P)} (h : s.Inv e) (hrun : s.run = .connected menu) :
    (s.finish menu).Inv e := by
  have hnegotiates := h.negotiates (congrArg Run.menu hrun)
  obtain ⟨sent, hsent, hclose⟩ := Client.closeWrite_eq s.client
  rw [Exchange.finish, hclose]
  have hcore : ({ s with
      client := { s.client with closedWrite := true },
      run := .finished menu } : Exchange P).Core e :=
    h.toCore.client_congr rfl rfl rfl
  refine ⟨hcore.send ?_, hnegotiates⟩
  rcases hsent with rfl | rfl
  · exact fun _ hp => absurd hp List.not_mem_nil
  · exact fun _ hp => absurd hp List.not_mem_nil

theorem Core.lost (h : s.Core e) : After e s { s with toServer := .lost, toClient := .lost } :=
  ⟨h.pipes Pipe.lost_valid Pipe.lost_valid (fun _ hp => absurd hp List.not_mem_nil)
    (fun _ hp => absurd hp List.not_mem_nil)
    (fun _ => Nat.zero_le _) (Nat.zero_le _) (fun _ => Nat.zero_le _) fun _ => ⟨rfl, rfl⟩, rfl,
    Later.refl _, rfl⟩

theorem Core.terminate (h : s.Core e) : After e s s.terminate :=
  (h.leave_terminate none).1

theorem Core.finishNotification (h : s.Core e) (waiting : List Call)
    (result : Except Response.Error Unit) :
    After e s (({ s with waiting } : Exchange P).finishNotification result) := by
  have hcore : ({ s with waiting } : Exchange P).Core e := h.raise _ _
  cases result with
  | ok u => exact ⟨hcore, rfl, Later.refl _, rfl⟩
  | error err =>
      rw [Exchange.finishNotification, terminateWithError_eq]
      obtain ⟨hcore, hrun, hlater, hasked⟩ := (Core.leave_terminate
        (s := { s with waiting }) hcore (some _)).1
      exact ⟨hcore, hrun, hlater, hasked⟩

/-! ## The client connects -/

theorem parseAnswer_eq_ok {α : Type} {conv : Conv Conv.Decls.none α .values} {x : Outcome} {a : α}
    (h : parseAnswer e id conv x = .ok a) : ∃ sexp, x = .completed (.ok sexp) ∧
      Conv.ofSexp Env.none 0 conv e.version sexp = .ok (.ok a) := by
  cases x with
  | cancelled => cases h
  | connectionDead => cases h
  | completed r =>
      cases r with
      | error err => cases h
      | ok sexp =>
          refine ⟨sexp, rfl, ?_⟩
          simp only [parseAnswer, Client.noCancelRaiseConnectionDead, raising, bind,
            Except.bind] at h
          cases hread : Conv.ofSexp Env.none 0 conv e.version sexp with
          | error err =>
              rw [hread] at h
              cases h
          | ok r =>
              rw [hread] at h
              cases r with
              | error err => cases h
              | ok resp =>
                  cases h
                  rfl

/-- A menu that has been written is read as it was. -/
theorem menu_eq_of_toSexp {menu m : Menu (NativeInt P)} {sexp : Sexp}
    {methods : VersionNegotiation.Response P}
    (hsexp : Conv.toSexp Env.none 0 VersionNegotiation.Response.sexp
      (VersionNegotiation.Response.create menu.toList) = .ok sexp)
    (hread : Conv.ofSexp Env.none 0 VersionNegotiation.Response.sexp e.version sexp =
      .ok (.ok methods))
    (hm : StringMap.ofList methods.selected = .ok m) : m = menu := by
  have hback := Conv.ofSexp_of_toSexp (Conv.Env.none_wellFormed e.version)
    (fun _ => VersionNegotiation.Response.sexp_wellFormed) hsexp le_rfl
  rw [hread] at hback
  cases hback
  have hlist : StringMap.ofList menu.toList = .ok menu := StringMap.ofList_toList menu
  rw [VersionNegotiation.Response.create, hlist] at hm
  cases hm
  rfl

theorem Core.await {k : ℕ → Run P} (h : s.Core e) (call : Call) (hid : id ∉ s.cancelled)
    (hexpects : Expects s.server.stage s.asked.length)
    (hprogress : Progress s.server (s.asked.length + 1)
      (s.toServer.packets.countP isRequest + 1))
    (hmenuCall : s.asked.length = 1 →
      (VersionNegotiation.Request.create e.procedures).toCall = .ok call)
    (hk : ∀ n, n = s.asked.length → k n = .initializing n ∧ n = 0 ∨ k n = .negotiating n ∧ n = 1) :
    (Exchange.await k (s.requestUntyped id call)).Inv e := by
  cases hs : s.requestUntyped id call with
  | mk x t =>
      have htcore := h.requestUntyped hs hid hexpects hprogress hmenuCall
      have hrun (run : Run P) : ({ t with run } : Exchange P).Core e :=
        htcore.client_congr rfl rfl rfl
      match x with
      | .error err => exact ⟨hrun _, trivial⟩
      | .ok (.error err) => exact ⟨hrun _, trivial⟩
      | .ok (.ok ivar) =>
          obtain ⟨-, hne⟩ | ⟨-, -, rfl, hivar⟩ := requestUntyped_cases hs
          · exact absurd rfl (hne ivar)
          · have hivar := (hivar ivar rfl).trans h.length.symm
            refine ⟨hrun _, ?_⟩
            simp only [Exchange.await, List.length_append, List.length_singleton]
            rcases hk ivar hivar with ⟨hki, hi⟩ | ⟨hki, hi⟩
            · rw [hki]
              exact ⟨hi, by omega⟩
            · rw [hki]
              exact ⟨hi, by omega⟩

/-- Before the first request. -/
theorem Progress.first {server : Session P} {k : ℕ} (h : Progress server 0 k) :
    Expects server.stage 0 ∧ Progress server 1 (k + 1) := by
  simp only [Progress] at h ⊢
  cases hs : server.stage <;> rw [hs] at h
  · exact ⟨rfl, by omega, le_rfl, h.2.2⟩
  · omega
  · omega
  · omega
  · exact ⟨trivial, fun hmenu => absurd (h hmenu) (by decide)⟩

/-- Before the second one, when the first one has been answered. -/
theorem Progress.second {server : Session P} {k : ℕ} (h : Progress server 1 k)
    (hstage : server.stage ≠ .handle) : Expects server.stage 1 ∧ Progress server 2 (k + 1) := by
  simp only [Progress] at h ⊢
  cases hs : server.stage <;> rw [hs] at h
  · exact absurd hs hstage
  · exact ⟨rfl, by omega, le_rfl, h.2.2⟩
  · omega
  · omega
  · exact ⟨trivial, fun _ => le_rfl⟩

/-- Nothing is cancelled before the session is open. -/
theorem Core.cancelled_eq_nil (h : s.Core e) (hlen : s.asked.length < 2) : s.cancelled = [] := by
  by_contra hne
  have hmenu := h.cancelled hne
  obtain ⟨menu, hsome⟩ := Option.ne_none_iff_exists'.mp hmenu
  have htwo := (h.opened hsome).1
  omega

theorem Inv.connect (h : s.Inv e) (hs : s.connect e = some s') : s'.Inv e := by
  have hrun := h.run
  have hprogress := h.progress
  obtain ⟨-, hconnects⟩ := connect_cases hs
  cases hconnects with
  | raised err => exact ⟨h.toCore.client_congr rfl rfl rfl, trivial⟩
  | initializing hr _ =>
      rw [hr] at hrun
      have hlen : s.asked.length = 0 := List.length_eq_zero_iff.mpr hrun
      have hnil := h.toCore.cancelled_eq_nil (hlen ▸ by decide)
      rw [hlen] at hprogress
      obtain ⟨hexpects, hprogress'⟩ := hprogress.first
      exact h.toCore.await _ (hnil ▸ List.not_mem_nil) (hlen ▸ hexpects) (hlen ▸ hprogress')
        (fun hone => by omega) fun n hn => .inl ⟨rfl, hn.trans hlen⟩
  | negotiating hr hivar hparse hcall =>
      rw [hr] at hrun
      obtain ⟨rfl, hlen⟩ := hrun
      obtain ⟨sexp, rfl, -⟩ := parseAnswer_eq_ok hparse
      obtain ⟨_, _, _, hanswered⟩ := h.filled 0 _ hivar
      have hnil := h.toCore.cancelled_eq_nil (hlen ▸ by decide)
      rw [hlen] at hprogress
      obtain ⟨hexpects, hprogress'⟩ := hprogress.second hanswered
      refine h.toCore.await _ (hnil ▸ List.not_mem_nil) (hlen.symm ▸ hexpects) ?_
        (fun _ => ?_) fun n hn => .inr ⟨rfl, hn.trans hlen⟩
      · rw [hlen]
        exact hprogress'
      · cases htoCall : (VersionNegotiation.Request.create e.procedures).toCall with
        | error err =>
            rw [htoCall] at hcall
            cases hcall
        | ok c =>
            rw [htoCall] at hcall
            cases hcall
            rfl
  | terminated err => exact ⟨h.toCore.terminate.core.client_congr rfl rfl rfl, trivial⟩
  | connected hr hivar hparse hmenu =>
      rw [hr] at hrun
      obtain ⟨rfl, hlen⟩ := hrun
      obtain ⟨sexp, rfl, hread⟩ := parseAnswer_eq_ok hparse
      obtain ⟨_, _, _, hanswered⟩ := h.filled 1 _ hivar
      obtain ⟨menu', hnegotiates, hsexp⟩ := hanswered sexp rfl
      refine ⟨h.toCore.client_congr rfl rfl rfl, ?_⟩
      rw [menu_eq_of_toSexp hsexp hread hmenu]
      exact hnegotiates

/-! ## All runs -/

theorem Inv.step (h : s.Inv e) (hs : Step e s s') : s'.Inv e := by
  cases hs with
  | connect hs => exact h.connect hs
  | readPackets hs => exact h.after (h.toCore.readPackets hs)
  | serve hs => exact h.after (h.toCore.serve hs)
  | finishTask hmenu htasks hresult => exact h.after (h.toCore.finishTask hmenu htasks hresult)
  | terminated _ => exact h.after h.toCore.terminated
  | notify call _ =>
      refine h.after ⟨h.toCore.sendClient fun p hp => ?_, rfl, Later.refl _, rfl⟩
      exact ⟨call, List.mem_singleton.mp hp⟩
  | handleNotification _ _ _ => exact h.after (h.toCore.finishNotification _ _)
  | ended _ _ _ _ => exact h.after h.toCore.terminate
  | request hrun id call hid => exact h.request hrun id call hid
  | cancel hrun id hs =>
      have hmenu := (h.negotiates (congrArg Run.menu hrun)).1
      exact h.after (h.toCore.cancel (fun hnone => by rw [hmenu] at hnone; cases hnone) hs)
  | notification _ call => exact h.after (h.toCore.notification call)
  | batchCreate _ =>
      refine h.after (h.toCore.batches (fun p hp => .inl ?_) fun id => ?_)
      · rwa [List.flatten_append, List.flatten_cons, List.flatten_nil, List.append_nil,
          List.append_nil] at hp
      · rw [List.flatten_append, List.flatten_cons, List.flatten_nil, List.append_nil,
          List.append_nil]
  | batchRequest hrun hbatches id call hid => exact h.batchRequest hrun hbatches id call hid
  | @batchNotification _ pending _ l₁ l₂ _ hbatches call hpending =>
      obtain ⟨call', hcall, hpending⟩ := bind_eq_ok_iff.mp hpending
      cases hpending
      have hperm := flatten_cons_perm (.notification call') pending l₁ l₂
      refine h.after (h.toCore.batches (fun p hp => ?_) fun id => ?_)
      · rw [hperm.mem_iff, List.mem_cons, ← hbatches] at hp
        exact hp.symm.imp_right fun heq => ⟨call', heq⟩
      · rw [hperm.countP_eq, ← hbatches]
        exact le_rfl
  | submit hrun hbatches =>
      exact h.after (h.toCore.submit (h.negotiates (congrArg Run.menu hrun)).1 hbatches)
  | mismatch _ _ => exact h.after h.toCore.terminate
  | finish hrun => exact h.finish hrun
  | lost => exact h.after h.toCore.lost

theorem inv_reachable (h : (system e).Reachable s) : s.Inv e :=
  h.invariant (fun _ hs => hs ▸ create_inv) fun _ _ _ hinv hs => hinv.step hs

end Exchange

end Csexp.Rpc
