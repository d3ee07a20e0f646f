import Csexp.Rpc.Registration

/-!
# Remote calls

A request that one end declares and the other implements, in the version
that their menu selects. Put on the wire and taken off it at both ends, it
has the effect of the local call, up to the conversions of that version.
-/

namespace Csexp.Rpc.Versioned

open Raising
open Conv (Env Decls)

variable {V : Type} [LinearOrder V] {D : Decls} {K : Keys} {S S' : Type} {F : Type → Type}

/-- Requests are read in the version of the session, responses in the one
that the client fixes. -/
structure WellFormed (env : Env D) (cells : D.Cell → List Bytes) (version : ℤ × ℤ)
    {Req Resp : Type} (g : Generation D Req Resp) : Prop where
  req : ∀ fuel, g.req.WellFormed cells (env.read version fuel) version
  resp : ∀ fuel, g.resp.WellFormed cells (env.read (3, 0) fuel) (3, 0)

namespace Builder

variable [DecidableEq K.Request] [Monad F] [MonadExcept Conv.Exn F]

/-- A call from the end `client` to the end `server`, without the packets in
between. -/
def remoteCall (env : Env D) (fuel : ℕ) (client : Builder V D K S' F) (server : Builder V D K S F)
    (sessionVersion : S → ℤ × ℤ) (menu : Menu V) (state : S) (decl : K.Request)
    (req : K.Req decl) : F (Except Response.Error (K.Resp decl)) :=
  match client.prepareRequest env fuel menu decl with
  | .error e => throw e
  | .ok (.error e) => pure (.error e.toResponseError)
  | .ok (.ok staged) => do
    let call ← raising (staged.encodeReq req)
    match ← server.handleRequest env fuel sessionVersion menu state call with
    | .error e => pure (.error e)
    | .ok sexp => raising (staged.decodeResp sexp)

section Calls

variable {env : Env D} {cells : D.Cell → List Bytes} {fuel : ℕ} {client : Builder V D K S' F}
  {server : Builder V D K S F} {sessionVersion : S → ℤ × ℤ} {menu : Menu V} {state : S}
  {decl : K.Request} {v : V} {decls : VersionMap V (Generation D (K.Req decl) (K.Resp decl))}
  {handlers : VersionMap V (RHandler D S F)} {g : Generation D (K.Req decl) (K.Resp decl)}
  {f : S → K.Req decl → F (K.Resp decl)}

/-- If both ends have the generation that the menu selects, a remote call
runs the implementation once, on the request as it comes back from the wire,
and returns its response in the same way. -/
theorem remoteCall_eq [LawfulMonad F] (hmenu : menu[K.requestMethod decl]? = some v)
    (hdecl : client.declaredRequests.2.lookup decl = some decls) (hg : decls[v]? = some g)
    (himpl : server.implementedRequests.lookup (K.requestMethod decl) = some handlers)
    (hf : handlers[v]? = some ⟨_, _, f, g⟩)
    (henv : ∀ version, env.WellFormed cells version)
    (hwf : WellFormed env cells (sessionVersion state) g) {req : K.Req decl}
    (hreq : ∃ s, Conv.toSexp env fuel g.req (g.downgradeReq req) = .ok s)
    (hresp : ∀ resp, ∃ s, Conv.toSexp env fuel g.resp (g.downgradeResp resp) = .ok s) :
    remoteCall env fuel client server sessionVersion menu state decl req =
      (fun resp => .ok (g.upgradeResp (g.downgradeResp resp))) <$>
        f state (g.upgradeReq (g.downgradeReq req)) := by
  obtain ⟨params, hparams⟩ := hreq
  have hread := Conv.ofSexp_of_toSexp (henv _) hwf.req hparams le_rfl
  have hcall : (prepareRequest.staged env fuel (K.requestMethod decl) g).encodeReq req =
      .ok ⟨K.requestMethod decl, params⟩ := by
    simp only [prepareRequest.staged, hparams, bind, Except.bind]
  have hhandle : server.handleRequest env fuel sessionVersion menu state
      ⟨K.requestMethod decl, params⟩ =
        handleRequest.run env fuel sessionVersion state ⟨K.requestMethod decl, params⟩
          ⟨_, _, f, g⟩ := handleRequest_eq hmenu himpl hf
  rw [remoteCall, prepareRequest_eq hmenu hdecl hg]
  simp only [hcall, hhandle, handleRequest.run, hread, raising, pure_bind, bind_assoc,
    map_eq_pure_bind]
  refine congrArg _ (funext fun resp => ?_)
  obtain ⟨s, hs⟩ := hresp resp
  have hback := Conv.ofSexp_of_toSexp (henv _) hwf.resp hs le_rfl
  simp only [hs, pure_bind, prepareRequest.staged, hback, bind, Except.bind]

/-- A request of the menu that two ends have negotiated, declared by the one
and implemented by the other: the version is the greatest that both have, and
if they mean the same by it, a remote call runs the implementation once, on
the request as it comes back from the wire, and returns its response in the
same way. -/
theorem remote_call [DecidableEq K.Notification] [LawfulMonad F] {l r : List (Bytes × List V)}
    {localVersions : StringMap (Finset V)}
    (hclient : (system V D K S' F).Reachable client)
    (hserver : (system V D K S F).Reachable server)
    (hl : client.registeredProcedures = .ok l) (hnodup : (l.map Prod.fst).Nodup)
    (hr : server.registeredProcedures = .ok r)
    (hlocal : Menu.knownVersions r = .ok localVersions)
    (hselect : Menu.selectCommon localVersions l = .ok (some menu))
    (hmenu : menu[K.requestMethod decl]? = some v)
    (hdecl : client.declaredRequests.2.lookup decl = some decls)
    (honly : ∀ k, K.requestMethod k = K.requestMethod decl →
      client.declaredRequests.2.lookup k ≠ none → k = decl)
    (himpl : server.implementedRequests.lookup (K.requestMethod decl) = some handlers)
    (hsame : ∀ g h, decls[v]? = some g → handlers[v]? = some h → h = ⟨_, _, f, g⟩)
    (henv : ∀ version, env.WellFormed cells version)
    (hwf : ∀ g, decls[v]? = some g → WellFormed env cells (sessionVersion state) g)
    {req : K.Req decl}
    (hreq : ∀ g, decls[v]? = some g → ∃ s, Conv.toSexp env fuel g.req (g.downgradeReq req) = .ok s)
    (hresp : ∀ g, decls[v]? = some g → ∀ resp,
      ∃ s, Conv.toSexp env fuel g.resp (g.downgradeResp resp) = .ok s) :
    IsGreatest {w | Menu.Lists r (K.requestMethod decl) w ∧ Menu.Lists l (K.requestMethod decl) w}
      v ∧
    ∃ g, decls[v]? = some g ∧
      remoteCall env fuel client server sessionVersion menu state decl req =
        (fun resp => .ok (g.upgradeResp (g.downgradeResp resp))) <$>
          f state (g.upgradeReq (g.downgradeReq req)) := by
  obtain ⟨hnone, -⟩ | ⟨menu', hselect', -, hget⟩ := Menu.selectCommon_cases hlocal hnodup
  · rw [hselect] at hnone
    cases hnone
  · rw [hselect] at hselect'
    cases hselect'
    have hgreatest := (hget _ _).mp hmenu
    obtain ⟨g, hg⟩ := ((inv_reachable hclient).declared_version hl hnodup).1 decl decls hdecl honly
      hgreatest.1.2
    have hnodup' := (Menu.knownVersions_eq_ok_iff.mp hlocal).1
    obtain ⟨h, hh⟩ := ((inv_reachable hserver).implemented_version hr hnodup' hgreatest.1.1).1
      handlers himpl
    rw [hsame g h hg hh] at hh
    exact ⟨hgreatest, g, hg, remoteCall_eq hmenu hdecl hg himpl hh henv (hwf g hg) (hreq g hg)
      (hresp g hg)⟩

end Calls

abbrev Counting := StateT ℕ (Except Conv.Exn)

/-- The call of a server that counts. -/
theorem remote_call_sample :
    ∃ (client server : Builder ℤ Decls.none pingKeys Unit Counting) (menu : Menu ℤ),
      menu[lit "ping"]? = some 1 ∧
      remoteCall Conv.Env.none 0 client server (fun _ => (3, 0)) menu () () () =
        (fun _ => .ok ()) <$> modify (· + 1) := by
  let f : Unit → Unit → Counting Unit := fun _ _ => modify (· + 1)
  let none : Builder ℤ Decls.none pingKeys Unit Counting := create
  let client := (none.declareRequest ping).toOption.getD none
  let server := (none.implementRequest ping f).toOption.getD none
  have hclient : (system ℤ Decls.none pingKeys Unit Counting).Reachable client :=
    .step (.init rfl) (.declareRequest ping (rfl : none.declareRequest ping = .ok client))
  have hserver : (system ℤ Decls.none pingKeys Unit Counting).Reachable server :=
    .step (.init rfl) (.implementRequest ping f (rfl : none.implementRequest ping f = .ok server))
  have hl : client.registeredProcedures = .ok [(lit "ping", [1])] := rfl
  have hr : server.registeredProcedures = .ok [(lit "ping", [1])] := rfl
  obtain ⟨localVersions, hlocal⟩ : ∃ m, Menu.knownVersions [(lit "ping", [(1 : ℤ)])] = .ok m :=
    ⟨_, rfl⟩
  have hnodup : ([(lit "ping", [(1 : ℤ)])].map Prod.fst).Nodup := List.nodup_singleton _
  obtain ⟨hnone, hdisj⟩ | ⟨menu, hselect, -, hget⟩ := Menu.selectCommon_cases hlocal hnodup
  · exact absurd ⟨[1], by decide, by decide⟩ (hdisj (lit "ping") 1 ⟨[1], by decide, by decide⟩)
  have hping : Menu.Lists [(lit "ping", [(1 : ℤ)])] (lit "ping") 1 := ⟨[1], by decide, by decide⟩
  have hmenu : menu[lit "ping"]? = some 1 := by
    refine (hget _ 1).mpr ⟨⟨hping, hping⟩, fun w hw => ?_⟩
    have hw : w ∈ [(1 : ℤ)] := hw.1.mem hnodup (by decide)
    exact (List.mem_singleton.mp hw).le
  let decls : VersionMap ℤ (Generation Decls.none Unit Unit) :=
    (∅ : VersionMap ℤ (Generation Decls.none Unit Unit)).insert 1 pingV1
  let handlers : VersionMap ℤ (RHandler Decls.none Unit Counting) :=
    (∅ : VersionMap ℤ (RHandler Decls.none Unit Counting)).insert 1 ⟨Unit, Unit, f, pingV1⟩
  have hdecl : client.declaredRequests.2.lookup () = some decls := rfl
  have himpl : server.implementedRequests.lookup (lit "ping") = some handlers := rfl
  have hg : ∀ g, decls[(1 : ℤ)]? = some g → g = pingV1 := by
    intro g hg
    rw [getElem?_insert_eq, if_pos rfl] at hg
    exact (Option.some.inj hg).symm
  have hsame : ∀ g h, decls[(1 : ℤ)]? = some g → handlers[(1 : ℤ)]? = some h →
      h = ⟨Unit, Unit, f, g⟩ := by
    intro g h hdecls hh
    rw [getElem?_insert_eq, if_pos rfl] at hh
    rw [hg g hdecls, ← Option.some.inj hh]
  let sessionVersion : Unit → ℤ × ℤ := fun _ => (3, 0)
  have hwf : ∀ g, decls[(1 : ℤ)]? = some g →
      WellFormed Conv.Env.none (fun i => i.elim) (sessionVersion ()) g := by
    intro g hdecls
    rw [hg g hdecls]
    exact ⟨fun _ => Conv.unit_wellFormed, fun _ => Conv.unit_wellFormed⟩
  have hreq : ∀ g, decls[(1 : ℤ)]? = some g →
      ∃ s, Conv.toSexp Conv.Env.none 0 g.req (g.downgradeReq ()) = .ok s := by
    intro g hdecls
    rw [hg g hdecls]
    exact ⟨_, rfl⟩
  have hresp : ∀ g, decls[(1 : ℤ)]? = some g → ∀ resp,
      ∃ s, Conv.toSexp Conv.Env.none 0 g.resp (g.downgradeResp resp) = .ok s := by
    intro g hdecls resp
    rw [hg g hdecls]
    exact ⟨_, rfl⟩
  obtain ⟨-, g, -, hcall⟩ := remote_call hclient hserver hl hnodup hr hlocal hselect hmenu hdecl
    (fun _ _ _ => rfl) himpl hsame Conv.Env.none_wellFormed hwf hreq hresp
  exact ⟨client, server, menu, hmenu, hcall⟩

end Builder

end Csexp.Rpc.Versioned
