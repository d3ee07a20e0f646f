import Csexp.Rpc.Menu
import Csexp.Rpc.Client

/-!
# The server

A session of the server expects two requests, one that opens it and one with
the versions that the client knows, before it takes up any others. Those it
serves side by side, so that the responses are sent in the order in which
the requests have been dealt with.
-/

namespace Csexp.Rpc

open Conv (Env)
open Raising

variable {P : Platform}

instance : LinearOrder (NativeInt P) :=
  { LinearOrder.lift' NativeInt.val fun _ _ => NativeInt.ext_val with
    toDecidableEq := inferInstance }

/-! ## The requests that open a session -/

namespace Initialize

namespace Request

def create (id : Id) : Request P where
  duneVersion := Version.latest P
  protocolVersion := Protocol.latestVersion P
  id := id

def ofCall (version : ℤ × ℤ) (c : Call) : Conv.Eval (Except Response.Error (Request P)) :=
  if c.method = methodName then do
    match ← Conv.ofSexp Env.none 0 sexp version c.params with
    | .ok r => .ok (.ok r)
    | .error e => .ok (.error (Response.Error.ofConv e))
  else
    .ok (.error
      { payload := none, message := lit "initialize request expected", kind := .invalidRequest })

def toCall (t : Request P) : Conv.Eval Call := do
  let params ← Conv.toSexp Env.none 0 sexp t
  .ok { method := lit "initialize", params }

end Request

namespace Response

def create : Unit := ()

def toResponse (t : Unit) : Conv.Eval Sexp := Conv.toSexp Env.none 0 sexp t

end Response

end Initialize

namespace VersionNegotiation

namespace Request

def create (menu : List (Bytes × List (NativeInt P))) : Request P := ⟨menu⟩

def ofCall (version : ℤ × ℤ) (c : Call) : Conv.Eval (Except Response.Error (Request P)) :=
  if c.method = methodName then do
    match ← Conv.ofSexp Env.none 0 sexp version c.params with
    | .ok r => .ok (.ok r)
    | .error e => .ok (.error (Response.Error.ofConv e))
  else
    .ok (.error
      { payload := none, message := lit "version negotiation request expected",
        kind := .invalidRequest })

def toCall (t : Request P) : Conv.Eval Call := do
  let params ← Conv.toSexp Env.none 0 sexp t
  .ok { method := methodName, params }

end Request

namespace Response

def create (x : List (Bytes × NativeInt P)) : Response P := ⟨x⟩

end Response

end VersionNegotiation

structure Message where
  payload : Option Sexp
  message : Bytes

namespace Message

variable {D : Conv.Decls}

def sexp : Conv D Message .values :=
  let payload := .field (lit "payload") (.optional .sexp)
  let message := .field (lit "message") (.required Conv.string)
  .iso (.record (.both payload message)) (fun (payload, message) => .ok { payload, message })
    (fun m => .ok (m.payload, m.message))

def toSexpUnversioned (m : Message) : Conv.Eval Sexp := Conv.toSexp Env.none 0 sexp m

end Message

/-! ## Sessions -/

namespace Server

/-- What the fiber of a session does with the next of the queries. After
`terminate` it reads no more. -/
inductive Stage where
  | handle
  | negotiateVersion
  | runSession
  | terminate
  | finished
  deriving DecidableEq

def Stage.reads : Stage → Bool
  | .handle | .negotiateVersion | .runSession => true
  | .terminate | .finished => false

inductive MessageKind where
  | request (id : Id)
  | notification

/-- A session. `init` is there once it is initialised, `closed` is the state
of its `Close.t`, and `tasks` are the messages that the pool works on. One of
the fibers that take up the queries may have `raised` an exception. -/
structure Session (P : Platform) where
  stage : Stage
  init : Option (Initialize.Request P)
  menu : Option (Menu (NativeInt P))
  closed : Bool
  tasks : List (MessageKind × Call)
  raised : Bool

namespace Session

def create : Session P where
  stage := .handle
  init := none
  menu := none
  closed := false
  tasks := []
  raised := false

/-- The end of `handle`, by which the session is closed. -/
def finish (s : Session P) : Session P := { s with stage := .finished, closed := true }

/-- An exception ends `handle`. The fibers of `parallel_iter` end before that,
so that a session that runs still reads the queries to the end. -/
def fail (s : Session P) : Session P :=
  match s.stage with
  | .runSession => { s with raised := true }
  | _ => s.finish

theorem fail_of_ne {s : Session P} (h : s.stage ≠ .runSession) : s.fail = s.finish := by
  unfold fail
  split
  · rename_i hs
    exact absurd hs h
  · rfl

end Session

/-- The version of the server and the versions of the methods that it knows. -/
structure H (P : Platform) where
  version : ℤ × ℤ
  knownVersions : StringMap (Finset (NativeInt P))

namespace H

def abort (session : Session P) (message : String) : Conv.Eval (Session P × List Sent) := do
  let msg : Message := { message := lit message, payload := none }
  let params ← msg.toSexpUnversioned
  let call := { params, method := lit "notify/abort" }
  .ok (session.finish, [some [.notification call], none])

def handle (t : H P) (session : Session P) (query : Option Packet) :
    Conv.Eval (Session P × List Sent) :=
  match query with
  | none => .ok (session.finish, [none])
  | some (.response _ _) => abort session "Response unexpected. You must initialize first."
  | some (.notification _) => abort session "Notification unexpected. You must initialize first."
  | some (.request id call) => do
    match ← Initialize.Request.ofCall t.version call with
    | .error e => .ok (session.finish, [some [.response id (.error e)]])
    | .ok init =>
      if init.protocolVersion ≠ Protocol.latestVersion P then
        abort session "The server and client use incompatible protocols."
      else do
        let response ← Initialize.Response.toResponse Initialize.Response.create
        .ok ({ session with init := some init, stage := .negotiateVersion },
          [some [.response id (.ok response)]])

def negotiateVersion (t : H P) (session : Session P) (query : Option Packet) :
    Conv.Eval (Session P × List Sent) :=
  match query with
  | none => .ok (session.finish, [none])
  | some (.response _ _) =>
    abort session "Response unexpected. No requests before negotiation"
  | some (.notification _) =>
    abort session "Notification unexpected. You must complete version negotiation first."
  | some (.request id call) => do
    match ← VersionNegotiation.Request.ofCall t.version call with
    | .error e => .ok (session.finish, [some [.response id (.error e)]])
    | .ok clientVersions =>
      match ← Menu.selectCommon t.knownVersions clientVersions.menu with
      | none => abort session "Server and client have no method versions in common"
      | some menu =>
        let response ← Conv.toSexp Env.none 0 VersionNegotiation.Response.sexp
          (VersionNegotiation.Response.create menu.toList)
        .ok ({ session with menu := some menu, stage := .runSession },
          [some [.response id (.ok response)]])

/-- A response is not expected: the requests of a server to its client are
left out. -/
def runSession (session : Session P) (query : Option Packet) :
    Conv.Eval (Session P × List Sent) :=
  match query with
  | none =>
    if session.raised then .ok (session.finish, [])
    else .ok ({ session with stage := .terminate }, [none])
  | some (.response _ _) => .error (.foreign "unexpected response")
  | some (.notification n) =>
    .ok ({ session with tasks := session.tasks ++ [(.notification, n)] }, [])
  | some (.request id r) =>
    .ok ({ session with tasks := session.tasks ++ [(.request id, r)] }, [])

/-- Where the session goes on with a query. -/
def next (t : H P) (session : Session P) (query : Option Packet) :
    Conv.Eval (Session P × List Sent) :=
  match session.stage with
  | .handle => t.handle session query
  | .negotiateVersion => t.negotiateVersion session query
  | .runSession => runSession session query
  | .terminate | .finished => .ok (session, [])

/-- What the exceptions of a handler are told by: whether one is a
`Response.Error.E`, and how it is rendered. -/
structure ExnWithBacktrace where
  error : Option Response.Error
  sexp : Sexp

/-- The response to a request from what its handler returns or raises. -/
def dispatchRequest.response : Except (List ExnWithBacktrace) Response → Response
  | .ok r => r
  | .error [{ error := some e, .. }] => .error e
  | .error xs => .error
    { kind := .codeError, message := lit "server error",
      payload := some (.list (xs.map ExnWithBacktrace.sexp)) }

/-- The end of a task. -/
def dispatchRequest (session : Session P) (id : Id)
    (result : Except (List ExnWithBacktrace) Response) : List Sent :=
  if session.closed then [] else [some [.response id (dispatchRequest.response result)]]

/-! ## What the client asks for -/

theorem ofCall_versionNegotiation {version : ℤ × ℤ} {r : VersionNegotiation.Request P} {c : Call}
    (h : r.toCall = .ok c) : VersionNegotiation.Request.ofCall version c = .ok (.ok r) := by
  obtain ⟨params, hparams, h⟩ := bind_eq_ok_iff.mp h
  cases h
  have hread := Conv.ofSexp_of_toSexp (Conv.Env.none_wellFormed version)
    (fun _ => VersionNegotiation.Request.sexp_wellFormed) hparams le_rfl
  rw [VersionNegotiation.Request.ofCall, if_pos (by rfl)]
  simp only [hread, bind, Except.bind]

/-! ## How a session is opened -/

/-- What a session makes of a query before it runs. -/
inductive Opens (t : H P) (s : Session P) : Option Packet → Session P → List Sent → Prop where
  | eof : Opens t s none s.finish [none]
  | abort (q : Packet) (c : Call) :
      Opens t s (some q) s.finish [some [.notification c], none]
  | refused (id : Id) (call : Call) {e : Response.Error} (he : e.kind ≠ .connectionDead) :
      Opens t s (some (.request id call)) s.finish [some [.response id (.error e)]]
  | initialized (id : Id) {call : Call} {init : Initialize.Request P} (hs : s.stage = .handle)
      (hcall : Initialize.Request.ofCall t.version call = .ok (.ok init)) :
      Opens t s (some (.request id call)) { s with init := some init, stage := .negotiateVersion }
        [some [.response id (.ok (.list []))]]
  | negotiated (id : Id) {call : Call} {versions : VersionNegotiation.Request P}
      {menu : Menu (NativeInt P)} {sexp : Sexp} (hs : s.stage = .negotiateVersion)
      (hcall : VersionNegotiation.Request.ofCall t.version call = .ok (.ok versions))
      (hmenu : Menu.selectCommon t.knownVersions versions.menu = .ok (some menu))
      (hsexp : Conv.toSexp Env.none 0 VersionNegotiation.Response.sexp
        (VersionNegotiation.Response.create menu.toList) = .ok sexp) :
      Opens t s (some (.request id call)) { s with menu := some menu, stage := .runSession }
        [some [.response id (.ok sexp)]]

variable {t : H P} {s s' : Session P} {query : Option Packet} {sent : List Sent}

theorem kind_ofConv (e : Conv.Error) : (Response.Error.ofConv e).kind ≠ .connectionDead := by
  cases e with
  | parseError message payload =>
      intro h
      cases h
  | versionError since until_ message payload =>
      intro h
      cases h

theorem kind_of_handle {version : ℤ × ℤ} {c : Call} {e : Response.Error}
    (h : (Initialize.Request.ofCall version c : Conv.Eval (Except _ (Initialize.Request P))) =
      .ok (.error e)) : e.kind ≠ .connectionDead := by
  rw [Initialize.Request.ofCall] at h
  split_ifs at h
  · obtain ⟨r, -, h⟩ := bind_eq_ok_iff.mp h
    cases r with
    | ok r => cases h
    | error e' =>
        cases h
        exact kind_ofConv e'
  · cases h
    intro h
    cases h

theorem kind_of_negotiateVersion {version : ℤ × ℤ} {c : Call} {e : Response.Error}
    (h : (VersionNegotiation.Request.ofCall version c :
      Conv.Eval (Except _ (VersionNegotiation.Request P))) = .ok (.error e)) :
    e.kind ≠ .connectionDead := by
  rw [VersionNegotiation.Request.ofCall] at h
  split_ifs at h
  · obtain ⟨r, -, h⟩ := bind_eq_ok_iff.mp h
    cases r with
    | ok r => cases h
    | error e' =>
        cases h
        exact kind_ofConv e'
  · cases h
    intro h
    cases h

theorem handle_opens (hs : s.stage = .handle) (h : t.handle s query = .ok (s', sent)) :
    Opens t s query s' sent := by
  unfold handle at h
  split at h
  · cases h
    exact .eof
  · cases h
    exact .abort _ _
  · cases h
    exact .abort _ _
  · rename_i id call
    obtain ⟨r, hr, h⟩ := bind_eq_ok_iff.mp h
    cases r with
    | error e =>
        cases h
        exact .refused id call (kind_of_handle hr)
    | ok init =>
        dsimp only at h
        split_ifs at h
        · cases h
          exact .abort _ _
        · cases h
          exact .initialized id hs hr

theorem negotiateVersion_opens (hs : s.stage = .negotiateVersion)
    (h : t.negotiateVersion s query = .ok (s', sent)) : Opens t s query s' sent := by
  unfold negotiateVersion at h
  split at h
  · cases h
    exact .eof
  · cases h
    exact .abort _ _
  · cases h
    exact .abort _ _
  · rename_i id call
    obtain ⟨r, hr, h⟩ := bind_eq_ok_iff.mp h
    cases r with
    | error e =>
        cases h
        exact .refused id call (kind_of_negotiateVersion hr)
    | ok versions =>
        obtain ⟨m, hm, h⟩ := bind_eq_ok_iff.mp h
        cases m with
        | none =>
            cases h
            exact .abort _ _
        | some menu =>
            obtain ⟨sexp, hsexp, h⟩ := bind_eq_ok_iff.mp h
            cases h
            exact .negotiated id hs hr hm hsexp

end H

end Server

end Csexp.Rpc
