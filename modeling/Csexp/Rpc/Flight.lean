import Csexp.Rpc.Exchange

/-!
# Requests in flight

While a client runs, every request that has no answer is in one place at
most: in a batch, on its way to the server, among the tasks of the server,
or its response is on the way back. What comes back is an answer to that
very request.
-/

namespace Csexp.Rpc

open Conv (Env)
open Raising
open Server (Session Stage MessageKind H)

variable {P : Platform}

namespace Exchange

/-! ## Where a request is -/

def asks (id : Id) : Packet → Bool
  | .request id' _ => decide (id' = id)
  | .response _ _ | .notification _ => false

def answers (id : Id) : Packet → Bool
  | .response id' _ => decide (id' = id)
  | .request _ _ | .notification _ => false

def taskAsks (id : Id) : MessageKind × Call → Bool
  | (.request id', _) => decide (id' = id)
  | (.notification, _) => false

/-- How many requests with the identifier are in flight, or responses. -/
def inFlight (s : Exchange P) (id : Id) : ℕ :=
  s.batches.flatten.countP (asks id) + s.toServer.packets.countP (asks id) +
    s.server.tasks.countP (taskAsks id) + s.toClient.packets.countP (answers id)

/-- How many of them are to be expected. -/
def owed (s : Exchange P) (id : Id) : ℕ :=
  (if id ∈ s.client.requests then 1 else 0) + s.cancelled.count id

/-- The request is the one that the `i`-th ivar has been made for. -/
def Owns (s : Exchange P) (i : ℕ) (id : Id) (call : Call) : Prop :=
  s.client.requests.lookup id = some (.pending i) ∧ s.asked[i]? = some (id, call)

/-- The first two requests open the session. -/
def Expects : Stage → ℕ → Prop
  | .handle, i => i = 0
  | .negotiateVersion, i => i = 1
  | .runSession, i => 2 ≤ i
  | .terminate, _ | .finished, _ => True

/-- The server selects the menu in its response to the second request. -/
def Negotiates (e : Ends P) (server : Session P) (menu : Menu (NativeInt P)) : Prop :=
  server.menu = some menu ∧
    Menu.selectCommon e.server.knownVersions e.procedures = .ok (some menu)

/-- What the server may answer to the `i`-th request. -/
def Answered (e : Ends P) (server : Session P) (i : ℕ) (call : Call) (r : Response) : Prop :=
  match i with
  | 0 => server.stage ≠ .handle
  | 1 => ∀ sexp, r = .ok sexp → ∃ menu, Negotiates e server menu ∧
      Conv.toSexp Env.none 0 VersionNegotiation.Response.sexp
        (VersionNegotiation.Response.create menu.toList) = .ok sexp
  | _ + 2 => ∃ menu result, server.menu = some menu ∧ e.handles menu call result ∧
      r = H.dispatchRequest.response result

/-- While the client runs. -/
structure Flight (e : Ends P) (s : Exchange P) : Prop where
  count : ∀ id, s.inFlight id ≤ s.owed id
  disjoint : ∀ id, id ∈ s.client.requests → id ∉ s.cancelled
  batches : ∀ id call, .request id call ∈ s.batches.flatten →
    id ∈ s.cancelled ∨ ∃ i, s.Owns i id call ∧ 2 ≤ i
  toServer : ∀ id call, .request id call ∈ s.toServer.packets →
    id ∈ s.cancelled ∨ ∃ i, s.Owns i id call ∧ Expects s.server.stage i
  tasks : ∀ id call, (.request id, call) ∈ s.server.tasks →
    id ∈ s.cancelled ∨ ∃ i, s.Owns i id call ∧ 2 ≤ i
  toClient : ∀ id r, .response id r ∈ s.toClient.packets →
    id ∈ s.cancelled ∨ ∃ i call, s.Owns i id call ∧ Answered e s.server i call r

/-! ## What is in flight -/

variable {e : Ends P} {s s' : Exchange P} {id : Id} {call : Call} {i : ℕ}

theorem countP_asks_pos (id : Id) (l : List Packet) :
    0 < l.countP (asks id) ↔ ∃ call, .request id call ∈ l := by
  rw [List.countP_pos_iff]
  constructor
  · rintro ⟨p, hp, h⟩
    cases p with
    | request id' call =>
        obtain rfl := of_decide_eq_true h
        exact ⟨call, hp⟩
    | response => cases h
    | notification => cases h
  · rintro ⟨call, h⟩
    exact ⟨_, h, decide_eq_true rfl⟩

theorem countP_answers_pos (id : Id) (l : List Packet) :
    0 < l.countP (answers id) ↔ ∃ r, .response id r ∈ l := by
  rw [List.countP_pos_iff]
  constructor
  · rintro ⟨p, hp, h⟩
    cases p with
    | response id' r =>
        obtain rfl := of_decide_eq_true h
        exact ⟨r, hp⟩
    | request => cases h
    | notification => cases h
  · rintro ⟨call, h⟩
    exact ⟨_, h, decide_eq_true rfl⟩

theorem countP_taskAsks_pos (id : Id) (l : List (MessageKind × Call)) :
    0 < l.countP (taskAsks id) ↔ ∃ call, (.request id, call) ∈ l := by
  rw [List.countP_pos_iff]
  constructor
  · rintro ⟨⟨kind, call⟩, hp, h⟩
    cases kind with
    | request id' =>
        obtain rfl := of_decide_eq_true h
        exact ⟨call, hp⟩
    | notification => cases h
  · rintro ⟨call, h⟩
    exact ⟨_, h, decide_eq_true rfl⟩

/-- The request is not in flight, nor a response to it. -/
structure Landed (s : Exchange P) (id : Id) : Prop where
  batches : ∀ call, .request id call ∉ s.batches.flatten
  toServer : ∀ call, .request id call ∉ s.toServer.packets
  tasks : ∀ call, (.request id, call) ∉ s.server.tasks
  toClient : ∀ r, .response id r ∉ s.toClient.packets

theorem landed_iff : s.Landed id ↔ s.inFlight id = 0 := by
  have hbatches := countP_asks_pos id s.batches.flatten
  have htoServer := countP_asks_pos id s.toServer.packets
  have htasks := countP_taskAsks_pos id s.server.tasks
  have htoClient := countP_answers_pos id s.toClient.packets
  rw [inFlight]
  constructor
  · intro h
    have h₁ : ¬ ∃ call, .request id call ∈ s.batches.flatten := not_exists.mpr h.batches
    have h₂ : ¬ ∃ call, .request id call ∈ s.toServer.packets := not_exists.mpr h.toServer
    have h₃ : ¬ ∃ call, (.request id, call) ∈ s.server.tasks := not_exists.mpr h.tasks
    have h₄ : ¬ ∃ r, .response id r ∈ s.toClient.packets := not_exists.mpr h.toClient
    rw [← hbatches] at h₁
    rw [← htoServer] at h₂
    rw [← htasks] at h₃
    rw [← htoClient] at h₄
    omega
  · intro h
    refine ⟨fun c hc => ?_, fun c hc => ?_, fun c hc => ?_, fun r hr => ?_⟩
    · have := hbatches.mpr ⟨c, hc⟩
      omega
    · have := htoServer.mpr ⟨c, hc⟩
      omega
    · have := htasks.mpr ⟨c, hc⟩
      omega
    · have := htoClient.mpr ⟨r, hr⟩
      omega

/-! ## How the server goes on -/

/-- The server is as far as before, or further. -/
structure Later (server server' : Session P) : Prop where
  stage : server.stage ≠ .handle → server'.stage ≠ .handle
  menu : ∀ menu, server.menu = some menu → server'.menu = some menu

theorem Later.refl (server : Session P) : Later server server := ⟨id, fun _ => id⟩

theorem Answered.later {server server' : Session P} (h : Later server server') {r : Response}
    (ha : Answered e server i call r) : Answered e server' i call r := by
  match i with
  | 0 => exact h.stage ha
  | 1 =>
      intro sexp hr
      obtain ⟨menu, ⟨hmenu, hselect⟩, hsexp⟩ := ha sexp hr
      exact ⟨menu, ⟨h.menu menu hmenu, hselect⟩, hsexp⟩
  | i + 2 =>
      obtain ⟨menu, result, hmenu, hhandles, hr⟩ := ha
      exact ⟨menu, result, h.menu menu hmenu, hhandles, hr⟩

/-- The client and its table stay as they are, and nothing new is in flight. -/
theorem Flight.mono (h : s.Flight e) (hrequests : s'.client.requests = s.client.requests)
    (hasked : s'.asked = s.asked) (hcancelled : s'.cancelled = s.cancelled)
    (hcount : ∀ id, s'.inFlight id ≤ s.inFlight id) (hlater : Later s.server s'.server)
    (hbatches : ∀ id call, .request id call ∈ s'.batches.flatten →
      .request id call ∈ s.batches.flatten)
    (htoServer : ∀ id call, .request id call ∈ s'.toServer.packets →
      id ∈ s.cancelled ∨ ∃ i, s.Owns i id call ∧ Expects s'.server.stage i)
    (htasks : ∀ id call, (.request id, call) ∈ s'.server.tasks →
      id ∈ s.cancelled ∨ ∃ i, s.Owns i id call ∧ 2 ≤ i)
    (htoClient : ∀ id r, .response id r ∈ s'.toClient.packets →
      .response id r ∈ s.toClient.packets ∨
        id ∈ s.cancelled ∨ ∃ i call, s.Owns i id call ∧ Answered e s'.server i call r) :
    s'.Flight e := by
  have howns (i : ℕ) (id : Id) (call : Call) : s'.Owns i id call ↔ s.Owns i id call := by
    rw [Owns, Owns, hrequests, hasked]
  refine ⟨fun id => ?_, fun id hid => ?_, fun id call hmem => ?_, fun id call hmem => ?_,
    fun id call hmem => ?_, fun id r hmem => ?_⟩
  · rw [owed, hrequests, hcancelled]
    exact (hcount id).trans (h.count id)
  · rw [hcancelled]
    rw [hrequests] at hid
    exact h.disjoint id hid
  · simp only [howns, hcancelled]
    exact h.batches id call (hbatches id call hmem)
  · simp only [howns, hcancelled]
    exact htoServer id call hmem
  · simp only [howns, hcancelled]
    exact htasks id call hmem
  · simp only [howns, hcancelled]
    rcases htoClient id r hmem with hmem | hmem
    · rcases h.toClient id r hmem with hc | ⟨i, call, ho, ha⟩
      · exact .inl hc
      · exact .inr ⟨i, call, ho, ha.later hlater⟩
    · exact hmem

/-! ## Requests that are made and settled -/

theorem owed_of_mem (hid : id ∈ s.client.requests) (h : s.Flight e) : s.owed id = 1 := by
  rw [owed, if_pos hid, List.count_eq_zero_of_not_mem (h.disjoint id hid)]

theorem Owns.mem {s : Exchange P} (h : s.Owns i id call) : id ∈ s.client.requests :=
  Client.mem_of_lookup h.1

/-- A new request, before it is in flight. -/
theorem Flight.ask {c : Client P} (h : s.Flight e) (call : Call)
    (hlookup : s.client.requests.lookup id = none) (hid : id ∉ s.cancelled)
    (hclient : c.requests = s.client.requests.insert id (.pending s.asked.length)) :
    ({ s with client := c, asked := s.asked ++ [(id, call)] } : Exchange P).Flight e ∧
      ({ s with client := c, asked := s.asked ++ [(id, call)] } : Exchange P).Owns
        s.asked.length id call ∧
      s.Landed id := by
  have hmem : id ∉ s.client.requests := AList.lookup_eq_none.mp hlookup
  have hlanded : s.Landed id := by
    rw [landed_iff, ← Nat.le_zero]
    refine (h.count id).trans ?_
    rw [owed, if_neg hmem, List.count_eq_zero_of_not_mem hid]
  have howns {i : ℕ} {id' : Id} {call' : Call} (hne : id' ≠ id) (ho : s.Owns i id' call') :
      ({ s with client := c, asked := s.asked ++ [(id, call)] } : Exchange P).Owns i id' call' := by
    have hlt := (List.getElem?_eq_some_iff.mp ho.2).1
    refine ⟨?_, (List.getElem?_append_left hlt).trans ho.2⟩
    simp only [hclient]
    rw [AList.lookup_insert_ne hne, ho.1]
  have hnew {id' : Id} (hne : id' ≠ id) {p : ℕ → Prop} {call' : Call} :
      (id' ∈ s.cancelled ∨ ∃ i, s.Owns i id' call' ∧ p i) →
      id' ∈ s.cancelled ∨ ∃ i, ({ s with client := c, asked := s.asked ++ [(id, call)] } :
        Exchange P).Owns i id' call' ∧ p i := by
    rintro (hc | ⟨i, ho, hp⟩)
    · exact .inl hc
    · exact .inr ⟨i, howns hne ho, hp⟩
  refine ⟨⟨fun id' => ?_, fun id' hid' => ?_, fun id' call' hmem => ?_, fun id' call' hmem => ?_,
    fun id' call' hmem => ?_, fun id' r hmem => ?_⟩, ⟨?_, List.getElem?_concat_length⟩, hlanded⟩
  · refine (h.count id').trans ?_
    simp only [owed, hclient, AList.mem_insert]
    split_ifs <;> simp_all
  · simp only [hclient, AList.mem_insert] at hid'
    rcases hid' with rfl | hid'
    · exact hid
    · exact h.disjoint id' hid'
  · have hne : id' ≠ id := fun heq => hlanded.batches call' (heq ▸ hmem)
    exact hnew hne (h.batches id' call' hmem)
  · have hne : id' ≠ id := fun heq => hlanded.toServer call' (heq ▸ hmem)
    exact hnew hne (h.toServer id' call' hmem)
  · have hne : id' ≠ id := fun heq => hlanded.tasks call' (heq ▸ hmem)
    exact hnew hne (h.tasks id' call' hmem)
  · have hne : id' ≠ id := fun heq => hlanded.toClient r (heq ▸ hmem)
    rcases h.toClient id' r hmem with hc | ⟨i, call', ho, ha⟩
    · exact .inl hc
    · exact .inr ⟨i, call', howns hne ho, ha⟩
  · simp only [hclient]
    exact AList.lookup_insert _

/-- The request is sent. -/
theorem Flight.send {toServer : Pipe} (h : s.Flight e) (ho : s.Owns i id call)
    (hexpects : Expects s.server.stage i) (hlanded : s.Landed id)
    (hp : toServer.packets = s.toServer.packets ++ [.request id call]) :
    ({ s with toServer } : Exchange P).Flight e := by
  refine ⟨fun id' => ?_, h.disjoint, h.batches, fun id' call' hmem => ?_, h.tasks, h.toClient⟩
  · have hcount := h.count id'
    rw [inFlight] at hcount
    simp only [inFlight, hp, List.countP_append, List.countP_singleton, asks]
    by_cases heq : id = id'
    · subst heq
      have hzero := landed_iff.mp hlanded
      have hone : s.owed id = 1 := owed_of_mem ho.mem h
      simp only [inFlight] at hzero
      simp only [decide_true, if_true]
      have howed : ({ s with toServer } : Exchange P).owed id = s.owed id := rfl
      omega
    · simp only [heq, decide_false, Bool.false_eq_true, if_false]
      exact hcount
  · rw [hp, List.mem_append, List.mem_singleton] at hmem
    rcases hmem with hmem | hmem
    · exact h.toServer id' call' hmem
    · cases hmem
      exact .inr ⟨i, ho, hexpects⟩

/-- The request enters a batch. -/
theorem Flight.batch {batches : List Client.Batch.Pending} (h : s.Flight e) (ho : s.Owns i id call)
    (hi : 2 ≤ i) (hlanded : s.Landed id)
    (hp : batches.flatten.Perm (.request id call :: s.batches.flatten)) :
    ({ s with batches } : Exchange P).Flight e := by
  refine ⟨fun id' => ?_, h.disjoint, fun id' call' hmem => ?_, h.toServer, h.tasks, h.toClient⟩
  · have hcount := h.count id'
    rw [inFlight] at hcount
    simp only [inFlight, hp.countP_eq, List.countP_cons, asks]
    by_cases heq : id = id'
    · subst heq
      have hzero := landed_iff.mp hlanded
      have hone : s.owed id = 1 := owed_of_mem ho.mem h
      simp only [inFlight] at hzero
      simp only [decide_true, if_true]
      have howed : ({ s with batches } : Exchange P).owed id = s.owed id := rfl
      omega
    · simp only [heq, decide_false, Bool.false_eq_true, if_false]
      exact hcount
  · rw [hp.mem_iff, List.mem_cons] at hmem
    rcases hmem with hmem | hmem
    · cases hmem
      exact .inr ⟨i, ho, hi⟩
    · exact h.batches id' call' hmem

theorem Owns.settle {id' : Id} {j : ℕ} {x : Outcome} {cancelled : List Id} (hne : id' ≠ id)
    (h : s.Owns i id' call) :
    ({ s with client := s.client.settle id j x, cancelled } : Exchange P).Owns i id' call :=
  ⟨(AList.lookup_erase_ne hne).trans h.1, h.2⟩

/-- A request is settled that is not in flight any more. -/
theorem Flight.settle (h : s.Flight e) (hlanded : s.Landed id) (x : Outcome) :
    ({ s with client := s.client.settle id i x } : Exchange P).Flight e := by
  refine ⟨fun id' => ?_, fun id' hid' => ?_, fun id' call hmem => ?_, fun id' call hmem => ?_,
    fun id' call hmem => ?_, fun id' r hmem => ?_⟩
  · by_cases heq : id' = id
    · have hzero := landed_iff.mp hlanded
      exact (heq ▸ hzero : s.inFlight id' = 0).le.trans (Nat.zero_le _)
    · refine (h.count id').trans ?_
      simp only [owed, Client.settle, AList.mem_erase, ne_eq, heq, not_false_eq_true, true_and]
      exact le_rfl
  · exact h.disjoint id' (AList.mem_erase.mp hid').2
  · have hne : id' ≠ id := fun heq => hlanded.batches call (heq ▸ hmem)
    rcases h.batches id' call hmem with hc | ⟨j, ho, hj⟩
    · exact .inl hc
    · exact .inr ⟨j, ho.settle hne, hj⟩
  · have hne : id' ≠ id := fun heq => hlanded.toServer call (heq ▸ hmem)
    rcases h.toServer id' call hmem with hc | ⟨j, ho, hj⟩
    · exact .inl hc
    · exact .inr ⟨j, ho.settle hne, hj⟩
  · have hne : id' ≠ id := fun heq => hlanded.tasks call (heq ▸ hmem)
    rcases h.tasks id' call hmem with hc | ⟨j, ho, hj⟩
    · exact .inl hc
    · exact .inr ⟨j, ho.settle hne, hj⟩
  · have hne : id' ≠ id := fun heq => hlanded.toClient r (heq ▸ hmem)
    rcases h.toClient id' r hmem with hc | ⟨j, call, ho, ha⟩
    · exact .inl hc
    · exact .inr ⟨j, call, ho.settle hne, ha⟩

/-- A request is cancelled, wherever it is. -/
theorem Flight.cancel (h : s.Flight e) (hid : id ∈ s.client.requests) :
    ({ s with
      client := s.client.settle id i .cancelled
      cancelled := id :: s.cancelled } : Exchange P).Flight e := by
  have howns {id' : Id} {call : Call} {p : ℕ → Prop}
      (hmem : id' ∈ s.cancelled ∨ ∃ j, s.Owns j id' call ∧ p j) :
      id' ∈ id :: s.cancelled ∨ ∃ j, ({ s with
        client := s.client.settle id i .cancelled
        cancelled := id :: s.cancelled } : Exchange P).Owns j id' call ∧ p j := by
    by_cases heq : id' = id
    · exact .inl (heq ▸ List.mem_cons_self)
    · rcases hmem with hc | ⟨j, ho, hj⟩
      · exact .inl (List.mem_cons_of_mem id hc)
      · exact .inr ⟨j, ho.settle heq, hj⟩
  refine ⟨fun id' => ?_, fun id' hid' => ?_, fun id' call hmem => howns (h.batches id' call hmem),
    fun id' call hmem => howns (h.toServer id' call hmem),
    fun id' call hmem => howns (h.tasks id' call hmem), fun id' r hmem => ?_⟩
  · refine (h.count id').trans ?_
    simp only [owed, Client.settle, AList.mem_erase, List.count_cons]
    by_cases heq : id = id'
    · subst heq
      rw [if_pos hid]
      simp [Nat.add_comm]
    · simp [heq, Ne.symm heq]
  · obtain ⟨hne, hid'⟩ := AList.mem_erase.mp hid'
    exact List.not_mem_cons_of_ne_of_not_mem hne (h.disjoint id' hid')
  · rcases h.toClient id' r hmem with hc | ⟨j, call, ho, ha⟩
    · exact .inl (List.mem_cons_of_mem id hc)
    · rcases howns (p := fun j => Answered e s.server j call r) (.inr ⟨j, ho, ha⟩) with
        hc | ⟨j, ho, ha⟩
      · exact .inl hc
      · exact .inr ⟨j, call, ho, ha⟩

end Exchange

end Csexp.Rpc
