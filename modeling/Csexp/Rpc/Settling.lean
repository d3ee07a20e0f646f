import Csexp.Rpc.Agreement
import Csexp.Rpc.Kept

/-!
# The two ends by themselves

What becomes of the requests that have been sent if the client makes no more
of them. The two ends go on until each request has its answer, and no longer.
-/

namespace Csexp.Rpc

open Conv (Env)
open Raising
open Server (Session Stage MessageKind H)

variable {P : Platform}

namespace Exchange

variable {e : Ends P} {s s' : Exchange P} {id : Id} {call : Call} {i : ℕ}

/-! ## Who can go on -/

/-- A client that reads goes on unless its pipe is open and empty. -/
theorem exists_readPackets (h : s.Core e) (hreading : s.reading = true)
    (hp : s.toClient.closed = true ∨ s.toClient.packets ≠ []) :
    ∃ s', s.readPackets e = some s' := by
  cases hread : s.toClient.read e.version with
  | none =>
      obtain ⟨hnil, hopen⟩ := h.toClient.read_eq_none hread
      rcases hp with hc | hne
      · rw [hopen] at hc
        cases hc
      · exact absurd hnil hne
  | some p =>
      obtain ⟨x, toClient⟩ := p
      simp only [Exchange.readPackets, hreading, hread]
      obtain ⟨query, rfl, hpipe⟩ := h.toClient.reads hread
      cases query with
      | none => exact ⟨_, rfl⟩
      | some q =>
          cases q with
          | request id call =>
              exact absurd (hpipe.packets_some ▸ List.mem_cons_self) (h.noRequest id call)
          | response id r => exact ⟨_, rfl⟩
          | notification n =>
              simp only [readPacket]
              split
              · split
                · split
                  · exact ⟨_, rfl⟩
                  · exact ⟨_, rfl⟩
                · exact ⟨_, rfl⟩
                · exact ⟨_, rfl⟩
              · exact ⟨_, rfl⟩

theorem exists_serve (h : s.Core e) (hstage : s.server.stage = .runSession)
    (hp : s.toServer.packets ≠ []) : ∃ s', s.serve e = some s' := by
  cases hread : s.toServer.read e.server.version with
  | none => exact absurd (h.toServer.read_eq_none hread).1 hp
  | some p =>
      obtain ⟨x, toServer⟩ := p
      simp only [Exchange.serve, hstage, Stage.reads, hread]
      cases x with
      | error err => exact ⟨_, rfl⟩
      | ok query =>
          dsimp only
          cases e.server.next s.server query with
          | error err => exact ⟨_, rfl⟩
          | ok p => exact ⟨_, rfl⟩

/-! ## How much is left to do -/

/-- What the two ends do about the requests that have been sent. -/
inductive Answering (e : Ends P) (s : Exchange P) : Exchange P → Prop where
  | readPackets {s' : Exchange P} (h : s.readPackets e = some s') : Answering e s s'
  | serve {s' : Exchange P} (h : s.serve e = some s') : Answering e s s'
  | finishTask {menu : Menu (NativeInt P)} {task : MessageKind × Call}
      {l₁ l₂ : List (MessageKind × Call)} {result : Except (List H.ExnWithBacktrace) Response}
      (hmenu : s.server.menu = some menu) (htasks : s.server.tasks = l₁ ++ task :: l₂)
      (h : e.handles menu task.2 result) : Answering e s (s.finishTask task (l₁ ++ l₂) result)
  | handleNotification {menu : Menu (NativeInt P)} {n : Call} {l₁ l₂ : List Call}
      {result : Except Response.Error Unit} (hmenu : s.run.menu = some menu)
      (hn : s.waiting = l₁ ++ n :: l₂) (h : e.handlesNotification menu n result) :
      Answering e s ({ s with waiting := l₁ ++ l₂ }.finishNotification result)
  | ended (hreading : s.reading = false) (hwaiting : s.waiting = []) (hraised : s.raised = [])
      (hrun : s.client.running = true) : Answering e s s.terminate

theorem Answering.step (h : Answering e s s') : Step e s s' := by
  cases h with
  | readPackets h => exact .readPackets h
  | serve h => exact .serve h
  | finishTask hmenu htasks h => exact .finishTask hmenu htasks h
  | handleNotification hmenu hn h => exact .handleNotification hmenu hn h
  | ended hreading hwaiting hraised hrun => exact .ended hreading hwaiting hraised hrun

/-- How much is left to do. -/
def size (s : Exchange P) : ℕ :=
  4 * s.toServer.packets.length + 3 * s.server.tasks.length + 2 * s.toClient.packets.length +
    s.waiting.length + s.reading.toNat + s.server.stage.reads.toNat + s.client.running.toNat

theorem writeAll_length_le (p : Pipe) (sent : List Sent) :
    (p.writeAll sent).1.packets.length ≤ p.packets.length + (Pipe.packetsOf sent).length := by
  obtain ⟨⟨ps, hps, hpart⟩, -⟩ := p.writeAll_spec sent
  rw [hps, List.length_append]
  exact Nat.add_le_add_left hpart.length_le _

theorem size_leave (s : Exchange P) (client : Client P) (sent : List Sent)
    (exn : Option Conv.Exn) (hsent : Pipe.packetsOf sent = []) :
    (s.leave (.ok (client, sent, exn))).size + s.client.running.toNat ≤
      s.size + client.running.toNat := by
  have hle := writeAll_length_le s.toServer sent
  rw [hsent, List.length_nil] at hle
  have hsize : (s.leave (.ok (client, sent, exn))).size =
      ({ s with client, toServer := (s.toServer.writeAll sent).1 } : Exchange P).size := rfl
  rw [hsize]
  simp only [size]
  omega

/-- What terminates does so once. -/
theorem size_leave_terminate (h : s.client.Inv) (exn : Option Conv.Exn) :
    (s.leave (s.client.terminate.map fun p => (p.1, p.2, exn))).size + s.client.running.toNat ≤
      s.size := by
  cases hrun : s.client.running with
  | false =>
      rw [Client.terminate_of_not_running hrun]
      have hle := size_leave s s.client [] exn rfl
      rw [hrun] at hle
      exact hle
  | true =>
      obtain ⟨sent, hsent, hterminate⟩ := h.terminate hrun
      rw [hterminate]
      have hnil : Pipe.packetsOf sent = [] := by
        rcases hsent with rfl | rfl
        · rfl
        · rfl
      have hle := size_leave s s.client.dead sent exn hnil
      rw [hrun] at hle
      exact hle

theorem size_readPackets (h : s.Core e) (hs : s.readPackets e = some s') : s'.size < s.size := by
  obtain ⟨hreading, hreads⟩ := readPackets_cases h.toClient hs
  have hpopped {q : Packet} {toClient : Pipe} (hpipe : s.toClient.Reads (some q) toClient) :
      ({ s with toClient } : Exchange P).size + 1 < s.size := by
    simp only [size, hpipe.packets_some, List.length_cons]
    omega
  have hterminate {q : Packet} {toClient : Pipe} (hpipe : s.toClient.Reads (some q) toClient)
      (exn : Option Conv.Exn) : (({ s with toClient } : Exchange P).leave
        (s.client.terminate.map fun p => (p.1, p.2, exn))).size < s.size := by
    have hle := size_leave_terminate (s := { s with toClient }) h.client exn
    exact (Nat.le_of_add_right_le hle).trans_lt ((Nat.lt_succ_self _).trans (hpopped hpipe))
  cases hreads with
  | eof _ _ =>
      simp only [size, hreading, Bool.toNat_true, Bool.toNat_false]
      omega
  | @response id r toClient hpipe =>
      cases hlookup : s.client.requests.lookup id with
      | none =>
          rw [Client.readResponse, hlookup, terminateWithError_eq]
          exact hterminate hpipe _
      | some status =>
          obtain ⟨i, rfl, -⟩ := h.client.pending id status hlookup
          rw [h.client.readResponse hlookup r]
          exact (Nat.lt_succ_self _).trans (hpopped hpipe)
  | ignored hpipe => exact (Nat.lt_succ_self _).trans (hpopped hpipe)
  | raised hpipe err => exact (Nat.lt_succ_self _).trans (hpopped hpipe)
  | failed hpipe exn => exact hterminate hpipe exn
  | waits hpipe =>
      refine lt_of_eq_of_lt ?_ (hpopped hpipe)
      simp only [size, List.length_append, List.length_singleton]
      omega

/-- A session that is opened sends one packet at most for each that it reads. -/
theorem opens_length {server server' : Session P} {query : Option Packet} {sent : List Sent}
    {t : H P} (h : H.Opens t server query server' sent) :
    (Pipe.packetsOf sent).length ≤ query.toList.length ∧ server'.tasks = server.tasks ∧
      (query = none → server'.stage.reads = false) := by
  cases h with
  | eof => exact ⟨le_rfl, rfl, fun _ => rfl⟩
  | abort q c => exact ⟨le_rfl, rfl, fun h => by cases h⟩
  | refused id call he => exact ⟨le_rfl, rfl, fun h => by cases h⟩
  | initialized id hs hcall => exact ⟨le_rfl, rfl, fun h => by cases h⟩
  | negotiated id hs hcall hmenu hsexp => exact ⟨le_rfl, rfl, fun h => by cases h⟩

theorem size_serve (h : s.Core e) (hs : s.serve e = some s') : s'.size < s.size := by
  obtain ⟨hreads, hs⟩ := serve_cases h.toServer hs
  -- an end that stops reading, or a packet less
  have hlt {query : Option Packet} {toServer : Pipe} {server : Session P} {sent : List Sent}
      (hpipe : s.toServer.Reads query toServer)
      (hsent : (Pipe.packetsOf sent).length ≤ query.toList.length)
      (htasks : server.tasks = s.server.tasks)
      (hstop : query = none → server.stage.reads = false) :
      ({ s with toServer, server, toClient := (s.toClient.writeAll sent).1 } : Exchange P).size <
        s.size := by
    have hle := writeAll_length_le s.toClient sent
    simp only [size, hpipe.packets, htasks, hreads, List.length_append, Bool.toNat_true]
    cases query with
    | none =>
        simp only [hstop rfl, Bool.toNat_false, Option.toList_none, List.length_nil] at hsent ⊢
        omega
    | some q =>
        have hone := Bool.toNat_le server.stage.reads
        simp only [Option.toList_some, List.length_singleton] at hsent ⊢
        omega
  have hqueued {q : Packet} {toServer : Pipe} (hpipe : s.toServer.Reads (some q) toServer)
      (task : MessageKind × Call) : ({ s with
        toServer,
        server := { s.server with tasks := s.server.tasks ++ [task] } } : Exchange P).size <
          s.size := by
    simp only [size, hpipe.packets_some, List.length_append, List.length_cons, List.length_nil]
    omega
  cases hs with
  | failed hpipe _ => exact @hlt _ _ _ [] hpipe (Nat.zero_le _) rfl fun _ => rfl
  | @unexpected id r _ hpipe _ =>
      exact absurd (hpipe.packets_some ▸ List.mem_cons_self) (h.noResponse id r).1
  | abandoned hpipe _ _ => exact @hlt _ _ _ [] hpipe (Nat.zero_le _) rfl fun _ => rfl
  | opens hpipe _ hopens =>
      obtain ⟨hsent, htasks, hstop⟩ := opens_length hopens
      exact hlt hpipe hsent htasks hstop
  | eof hpipe _ => exact hlt hpipe le_rfl rfl fun _ => rfl
  | notification hpipe _ => exact hqueued hpipe _
  | request hpipe _ => exact hqueued hpipe _

theorem size_finishTask {task : MessageKind × Call} {l₁ l₂ : List (MessageKind × Call)}
    {result : Except (List H.ExnWithBacktrace) Response}
    (htasks : s.server.tasks = l₁ ++ task :: l₂) :
    (s.finishTask task (l₁ ++ l₂) result).size < s.size := by
  obtain ⟨kind, call⟩ := task
  cases kind with
  | notification =>
      simp only [Exchange.finishTask, size, htasks, List.length_append, List.length_cons]
      omega
  | request id =>
      simp only [Exchange.finishTask, size, htasks, List.length_append, List.length_cons,
        H.dispatchRequest]
      split_ifs
      · simp only [Pipe.writeAll]
        omega
      · have hle := writeAll_length_le s.toClient
          [some [.response id (H.dispatchRequest.response result)]]
        have hone : (Pipe.packetsOf
          [some [Packet.response id (H.dispatchRequest.response result)]]).length = 1 := rfl
        omega

theorem Answering.size_lt (h : s.Core e) (hs : Answering e s s') : s'.size < s.size := by
  cases hs with
  | readPackets hs => exact size_readPackets h hs
  | serve hs => exact size_serve h hs
  | finishTask _ htasks _ => exact size_finishTask htasks
  | @handleNotification _ n l₁ l₂ result _ hn _ =>
      have hhandled : ({ s with waiting := l₁ ++ l₂ } : Exchange P).size < s.size := by
        simp only [size, hn, List.length_append, List.length_cons]
        omega
      cases result with
      | ok u => exact hhandled
      | error err =>
          rw [Exchange.finishNotification, terminateWithError_eq]
          have hle := size_leave_terminate (s := { s with waiting := l₁ ++ l₂ }) h.client
            (some (.codeError "received bad notification from server"))
          omega
  | ended _ _ _ hrun =>
      have hle := size_leave_terminate h.client none
      rw [hrun] at hle
      exact hle

theorem Answering.frame (h : s.Core e) (hs : Answering e s s') :
    s'.run = s.run ∧ s'.batches = s.batches := by
  cases hs with
  | readPackets hs =>
      refine ⟨(h.readPackets hs).run, ?_⟩
      obtain ⟨-, hreads⟩ := readPackets_cases h.toClient hs
      cases hreads with
      | eof _ _ => rfl
      | ignored _ => rfl
      | response _ => exact (leave_frame _ _).2.2.2
      | raised _ _ => rfl
      | failed _ _ => exact (leave_frame _ _).2.2.2
      | waits _ => rfl
  | serve hs =>
      refine ⟨(h.serve hs).run, ?_⟩
      obtain ⟨-, hreads⟩ := serve_cases h.toServer hs
      cases hreads <;> rfl
  | @finishTask _ task _ _ _ _ _ _ =>
      obtain ⟨kind, call⟩ := task
      cases kind with
      | notification => exact ⟨rfl, rfl⟩
      | request id => exact ⟨rfl, rfl⟩
  | @handleNotification _ _ _ _ result _ _ _ =>
      refine ⟨(h.finishNotification _ _).run, ?_⟩
      cases result with
      | ok u => rfl
      | error err => exact (leave_frame _ _).2.2.2
  | ended _ _ _ _ => exact ⟨h.terminate.run, (leave_frame _ _).2.2.2⟩

/-- A request without an answer is in a batch, or one of the ends can go on. -/
theorem batched_or_answering (he : e.Answers)
    (htotal : ∀ menu call, ∃ result, e.handles menu call result)
    (hnotify : ∀ menu n, ∃ result, e.handlesNotification menu n result)
    (h : (system e).Reachable s) {menu : Menu (NativeInt P)} (hmenu : s.run.menu = some menu)
    (hraised : s.raised = [])
    (hi : s.client.ivars[i]? = some none) :
    (∃ id call, s.asked[i]? = some (id, call) ∧ .request id call ∈ s.batches.flatten) ∨
      ∃ s', Answering e s s' := by
  have hinv := inv_reachable h
  have hkept := kept_reachable he h
  obtain ⟨id, hid⟩ := hinv.client.owner i hi
  obtain ⟨call, hcall⟩ := hinv.owner id i hid
  have hmem := Client.mem_of_lookup hid
  have hrun := hinv.client.running hid
  have hreads (hp : s.toClient.closed = true ∨ s.toClient.packets ≠ []) :
      ∃ s', Answering e s s' := by
    cases hreading : s.reading with
    | true =>
        obtain ⟨s', hs'⟩ := exists_readPackets hinv.toCore hreading hp
        exact ⟨s', .readPackets hs'⟩
    | false =>
        cases hwaiting : s.waiting with
        | nil => exact ⟨_, .ended hreading hwaiting hraised hrun⟩
        | cons n l =>
            obtain ⟨result, hresult⟩ := hnotify menu n
            have hn : s.waiting = [] ++ n :: l := hwaiting
            exact ⟨_, .handleNotification hmenu hn hresult⟩
  have hserver := (hinv.negotiates hmenu).1
  have hne : s.server.menu ≠ none := by
    rw [hserver]
    exact fun h => by cases h
  obtain ⟨hbatches, -, -⟩ := (hinv.flight hrun).call_of_pending hid hcall
  by_cases hclosed : s.toClient.closed = true
  · exact .inr (hreads (.inl hclosed))
  have hstage := (hkept.server hne).resolve_left hclosed
  rw [Bool.not_eq_true] at hclosed
  have hone : 1 ≤ s.inFlight id := by
    refine hkept.kept hrun hclosed (fun hfinished => ?_) id hmem
    rw [hstage] at hfinished
    cases hfinished
  have hplace : 0 < s.batches.flatten.countP (asks id) ∨ 0 < s.toServer.packets.countP (asks id) ∨
      0 < s.server.tasks.countP (taskAsks id) ∨ 0 < s.toClient.packets.countP (answers id) := by
    simp only [inFlight] at hone
    omega
  rw [countP_asks_pos, countP_asks_pos, countP_taskAsks_pos, countP_answers_pos] at hplace
  rcases hplace with ⟨c, hc⟩ | ⟨c, hc⟩ | ⟨c, hc⟩ | ⟨r, hr⟩
  · exact .inl ⟨id, call, hcall, hbatches c hc ▸ hc⟩
  · obtain ⟨s', hs'⟩ := exists_serve hinv.toCore hstage (List.ne_nil_of_mem hc)
    exact .inr ⟨s', .serve hs'⟩
  · obtain ⟨l₁, l₂, htasks⟩ := List.append_of_mem hc
    obtain ⟨result, hresult⟩ := htotal menu c
    exact .inr ⟨_, .finishTask hserver htasks hresult⟩
  · exact .inr (hreads (.inr (List.ne_nil_of_mem hr)))

/-- No request of a client that has been connected is lost, and the two ends
never wait for each other: as long as one that has been sent has no answer
they can go on, and they do not go on for ever. Once they have come to a halt
every request has its answer, except for those in a batch, unless the client
has failed with an exception. -/
theorem requests_settled (he : e.Answers)
    (htotal : ∀ menu call, ∃ result, e.handles menu call result)
    (hnotify : ∀ menu n, ∃ result, e.handlesNotification menu n result)
    (h : (system e).Reachable s) {menu : Menu (NativeInt P)} (hmenu : s.run.menu = some menu) :
    Acc (fun t' t => Answering e t t') s ∧
    ∀ s', Relation.ReflTransGen (Answering e) s s' → (∀ t, ¬ Answering e s' t) → s'.raised = [] →
      ∀ i : ℕ, s'.client.ivars[i]? = some none →
        ∃ id call, s'.asked[i]? = some (id, call) ∧ .request id call ∈ s.batches.flatten := by
  have hacc : Acc (fun t' t => Answering e t t') s := by
    refine System.acc_of_size (I := (system e).Reachable) size (fun a b ha hab => ?_) h
    exact ⟨ha.step hab.step, hab.size_lt (inv_reachable ha).toCore⟩
  have hkept {t : Exchange P} (ht : Relation.ReflTransGen (Answering e) s t) :
      (system e).Reachable t ∧ t.run = s.run ∧ t.batches = s.batches := by
    induction ht with
    | refl => exact ⟨h, rfl, rfl⟩
    | tail _ hs ih =>
        obtain ⟨hreachable, hrun, hbatches⟩ := ih
        obtain ⟨hrun', hbatches'⟩ := hs.frame (inv_reachable hreachable).toCore
        exact ⟨hreachable.step hs.step, hrun'.trans hrun, hbatches'.trans hbatches⟩
  refine ⟨hacc, fun s' hrun hhalt hraised i hi => ?_⟩
  obtain ⟨hreachable, hrun', hbatches⟩ := hkept hrun
  rw [← hrun'] at hmenu
  rw [← hbatches]
  refine (batched_or_answering he htotal hnotify hreachable hmenu hraised hi).resolve_right ?_
  rintro ⟨t, ht⟩
  exact hhalt t ht

/-- The ping that has been sent gets its answer. -/
theorem requests_settled_sample : ∃ s s', (system pingEnds).Reachable s ∧
    s.client.ivars[2]? = some none ∧ Relation.ReflTransGen (Answering pingEnds) s s' ∧
    ∀ x ∈ s'.client.ivars, x ≠ none := by
  obtain ⟨⟨s, s₁, s', menu, hreachable, hrun, hbatches, hempty, hserve, hmenu, htasks, hread,
    hhalt⟩, -⟩ := pingEnds_runs
  obtain ⟨hnoRead, hnoServe, hreading, hwaiting, hraised, hnoTask⟩ := hhalt
  have hanswers : pingEnds.Answers := by
    intro menu call result hresult err herr
    cases hresult
    cases herr
  have htotal (menu : Menu (NativeInt Platform.native64)) (call : Call) :
      ∃ result, pingEnds.handles menu call result := ⟨_, rfl⟩
  have hnotify (menu : Menu (NativeInt Platform.native64)) (n : Call) :
      ∃ result, pingEnds.handlesNotification menu n result := ⟨_, rfl⟩
  obtain ⟨-, hsettled⟩ :=
    requests_settled hanswers htotal hnotify hreachable (congrArg Run.menu hrun)
  have hrun' : Relation.ReflTransGen (Answering pingEnds) s s' := by
    refine .head (.serve hserve) (.head (.finishTask hmenu htasks rfl) (.single ?_))
    exact .readPackets hread
  have hstop (t : Exchange Platform.native64) : ¬ Answering pingEnds s' t := by
    intro ht
    cases ht with
    | readPackets h =>
        rw [hnoRead] at h
        cases h
    | serve h =>
        rw [hnoServe] at h
        cases h
    | finishTask _ h _ => simp [hnoTask] at h
    | handleNotification _ h _ => simp [hwaiting] at h
    | ended h _ _ _ =>
        rw [hreading] at h
        cases h
  refine ⟨s, s', hreachable, hempty, hrun', ?_⟩
  rintro x hx rfl
  obtain ⟨i, hi⟩ := List.mem_iff_getElem?.mp hx
  obtain ⟨id, call, -, hmem⟩ := hsettled s' hrun' hstop hraised i hi
  rw [hbatches] at hmem
  cases hmem

end Exchange

end Csexp.Rpc
