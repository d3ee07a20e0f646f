import Csexp.Rpc.Reading

/-!
# The messages of the RPC protocol

The descriptions of the packets and of the requests that open a session.
All of them are well formed, so that what is sent is read back, and guarded,
so that nothing a peer sends makes the reader raise anything but `Of_sexp`.
-/

namespace Csexp

open Conv (Env Decls Reader raiseOfSexp)
open Raising

variable {D : Decls}

namespace Conv

variable {cells : D.Cell → List Bytes} {get : Reader D} {version : ℤ × ℤ} {env : Env D}
  {head : Bool} {P : Platform}

theorem string_wellFormed : WellFormed cells get version (string : Conv D Bytes .values) := by
  refine ⟨trivial, fun b a h => ?_⟩
  cases h
  rfl

theorem string_guarded : Guarded env head (string : Conv D Bytes .values) := by
  refine ⟨trivial, fun s => ?_⟩
  cases s with
  | atom s => exact raises_ok s
  | list l => exact raises_raiseOfSexp _ _

theorem int_wellFormed : WellFormed cells get version (int P : Conv D (NativeInt P) .values) := by
  refine ⟨trivial, fun i s h => ?_⟩
  cases h
  simp only [intOfStringOpt_toString]

theorem int_guarded : Guarded env head (int P : Conv D (NativeInt P) .values) := by
  refine ⟨trivial, fun s => ?_⟩
  cases s with
  | atom s =>
      dsimp only
      split
      · exact raises_raiseOfSexp _ _
      · exact raises_ok _
  | list l => exact raises_raiseOfSexp _ _

theorem unit_wellFormed : WellFormed cells get version (unit : Conv D Unit .values) := by
  refine ⟨trivial, fun b a h => ?_⟩
  cases h
  rfl

end Conv

namespace Rpc

/-! ## Calls -/

abbrev Id := Sexp

namespace Id

def sexp : Conv D Id .values := .sexp

def requiredField : Conv D Id .fields := .field (lit "id") (.required sexp)

def optionalField : Conv D (Option Id) .fields := .field (lit "id") (.optional sexp)

end Id

namespace Version

def latest (P : Platform) : NativeInt P × NativeInt P := (NativeInt.ofInt P 3, NativeInt.ofInt P 7)

def sexp (P : Platform) : Conv D (NativeInt P × NativeInt P) .values :=
  .pair (Conv.int P) (Conv.int P)

end Version

structure Call where
  method : Bytes
  params : Sexp

namespace Call

def fields : Conv D Call .fields :=
  .iso
    (.both (.field (lit "method") (.required Conv.string))
      (.field (lit "params") (.required .sexp)))
    (fun (method, params) => .ok { method, params })
    (fun c => .ok (c.method, c.params))

end Call

/-! ## Responses -/

namespace Response

namespace Error

inductive Kind where
  | invalidRequest
  | codeError
  | connectionDead
  deriving DecidableEq

end Error

structure Error where
  payload : Option Sexp
  message : Bytes
  kind : Error.Kind

namespace Error

def ofConv (error : Conv.Error) : Error :=
  let makePayload (payload : List (Bytes × Sexp)) : Option Sexp :=
    match payload with
    | [] => none
    | payload => some (Sexp.record payload)
  match error with
  | .parseError message payload =>
    { message := lit message, payload := makePayload payload, kind := .invalidRequest }
  | .versionError _ _ message payload =>
    { message := lit message, payload := makePayload payload, kind := .codeError }

/-- There is no name for `Connection_dead`, which is never sent. -/
def sexp : Conv D Error .values :=
  let id := .field (lit "payload") (.optional .sexp)
  let message := .field (lit "message") (.required Conv.string)
  let kind := .field (lit "kind")
    (.required (.enum inferInstance
      [(lit "Invalid_request", .invalidRequest), (lit "Code_error", .codeError)]))
  .record
    (.iso (Conv.three id message kind)
      (fun (payload, message, kind) => .ok { payload, message, kind })
      (fun e => .ok (e.payload, e.message, e.kind)))

end Error

end Response

abbrev Response := Except Response.Error Sexp

namespace Response

def result : Conv D Response .values :=
  let ok : Conv.Constr D Response Sexp := .mk (lit "ok") .sexp fun x => .ok x
  let error : Conv.Constr D Response Error := .mk (lit "error") Error.sexp fun x => .error x
  .sum (.cons ok (.cons error .nil)) fun r =>
    match r with
    | .ok s => .mk s ok
    | .error e => .mk e error

end Response

/-! ## The first requests of a session -/

namespace Protocol

def latestVersion (P : Platform) : NativeInt P := NativeInt.ofInt P 0

def sexp (P : Platform) : Conv D (NativeInt P) .values := Conv.int P

end Protocol

namespace Initialize

structure Request (P : Platform) where
  duneVersion : NativeInt P × NativeInt P
  protocolVersion : NativeInt P
  id : Id

namespace Request

variable {P : Platform}

def methodName : Bytes := lit "initialize"

def sexp : Conv D (Request P) .values :=
  let duneVersion := .field (lit "dune_version") (.required (Version.sexp P))
  let protocolVersion := .field (lit "protocol_version") (.required (Protocol.sexp P))
  let id := Id.requiredField
  .record
    (.iso (Conv.three duneVersion protocolVersion id)
      (fun (duneVersion, protocolVersion, id) => .ok { duneVersion, protocolVersion, id })
      (fun r => .ok (r.duneVersion, r.protocolVersion, r.id)))

end Request

namespace Response

def sexp : Conv D Unit .values := Conv.unit

end Response

end Initialize

namespace VersionNegotiation

structure Request (P : Platform) where
  menu : List (Bytes × List (NativeInt P))

namespace Request

variable {P : Platform}

def methodName : Bytes := lit "version_menu"

def sexp : Conv D (Request P) .values :=
  .iso (.list (.pair Conv.string (.list (Conv.int P)))) (fun x => .ok ⟨x⟩) (fun r => .ok r.menu)

end Request

structure Response (P : Platform) where
  selected : List (Bytes × NativeInt P)

namespace Response

def sexp {P : Platform} : Conv D (Response P) .values :=
  .iso (.list (.pair Conv.string (Conv.int P))) (fun x => .ok ⟨x⟩) (fun r => .ok r.selected)

end Response

end VersionNegotiation

/-! ## Packets -/

inductive Packet where
  | request (id : Id) (call : Call)
  | response (id : Id) (response : Response)
  | notification (call : Call)

namespace Packet

def call : Conv D (Option Call) .fields :=
  let method := .field (lit "method") (.optional Conv.string)
  let params := .field (lit "params") (.optional .sexp)
  .iso (.both method params)
    (fun (method, params) =>
      match method, params with
      | some method, some params => .ok (some { method, params })
      | none, none => .ok none
      | _, _ => raiseOfSexp "invalid call" [])
    (fun c =>
      match c with
      | some c => .ok (some c.method, some c.params)
      | none => .ok (none, none))

def sexp : Conv D Packet .values :=
  let to_ : Option Id × Option Response × Option Call → Conv.Eval Packet
    | (some id, none, some call) => .ok (.request id call)
    | (none, none, some call) => .ok (.notification call)
    | (some id, some result, none) => .ok (.response id result)
    | _ => raiseOfSexp "invalid packet" []
  let from_ : Packet → Conv.Eval (Option Id × Option Response × Option Call)
    | .request id c => .ok (some id, none, some c)
    | .response id r => .ok (some id, some r, none)
    | .notification c => .ok (none, none, some c)
  .record
    (.iso (Conv.three Id.optionalField (.field (lit "result") (.optional Response.result)) call)
      to_ from_)

end Packet

/-! ## Well-formedness -/

section WellFormed

open Conv (WellFormed)

variable {cells : D.Cell → List Bytes} {get : Reader D} {version : ℤ × ℤ} {P : Platform}

theorem Response.Error.sexp_wellFormed :
    WellFormed cells get version (Response.Error.sexp : Conv D Response.Error .values) := by
  refine ⟨⟨⟨trivial, ⟨Conv.string_wellFormed, ?_, ?_⟩, ?_⟩, fun e a h => ?_⟩, fun e a h => ?_⟩
  · change List.Nodup [lit "Invalid_request", lit "Code_error"]
    decide
  · change List.Disjoint [lit "message"] [lit "kind"]
    exact List.disjoint_left.mpr (by decide)
  · change List.Disjoint [lit "payload"] [lit "message", lit "kind"]
    exact List.disjoint_left.mpr (by decide)
  · cases h
    rfl
  · cases h
    rfl

theorem Response.result_wellFormed :
    WellFormed cells get version (Response.result : Conv D Response .values) := by
  refine ⟨⟨trivial, Response.Error.sexp_wellFormed, trivial⟩, ?_, fun r => ?_⟩
  · change List.Nodup [lit "ok", lit "error"]
    decide
  · cases r with
    | ok s => exact ⟨_, _, s, rfl, .head _, rfl⟩
    | error e => exact ⟨_, _, e, rfl, .tail _ (.head _), rfl⟩

theorem Initialize.Request.sexp_wellFormed : WellFormed cells get version
    (Initialize.Request.sexp : Conv D (Initialize.Request P) .values) := by
  have hversion : WellFormed cells get version (Version.sexp P : Conv D _ .values) :=
    ⟨Conv.int_wellFormed, Conv.int_wellFormed⟩
  refine ⟨⟨⟨hversion, ⟨Conv.int_wellFormed, trivial, ?_⟩, ?_⟩, fun r a h => ?_⟩, fun r a h => ?_⟩
  · change List.Disjoint [lit "protocol_version"] [lit "id"]
    exact List.disjoint_left.mpr (by decide)
  · change List.Disjoint [lit "dune_version"] [lit "protocol_version", lit "id"]
    exact List.disjoint_left.mpr (by decide)
  · cases h
    rfl
  · cases h
    rfl

theorem VersionNegotiation.Request.sexp_wellFormed : WellFormed cells get version
    (VersionNegotiation.Request.sexp : Conv D (VersionNegotiation.Request P) .values) := by
  refine ⟨⟨Conv.string_wellFormed, Conv.int_wellFormed⟩, fun r a h => ?_⟩
  cases h
  rfl

theorem VersionNegotiation.Response.sexp_wellFormed : WellFormed cells get version
    (VersionNegotiation.Response.sexp : Conv D (VersionNegotiation.Response P) .values) := by
  refine ⟨⟨Conv.string_wellFormed, Conv.int_wellFormed⟩, fun r a h => ?_⟩
  cases h
  rfl

theorem Packet.call_wellFormed :
    WellFormed cells get version (Packet.call : Conv D (Option Call) .fields) := by
  refine ⟨⟨Conv.string_wellFormed, trivial, ?_⟩, fun c a h => ?_⟩
  · change List.Disjoint [lit "method"] [lit "params"]
    exact List.disjoint_left.mpr (by decide)
  · cases c with
    | none =>
        cases h
        rfl
    | some c =>
        cases h
        rfl

theorem Packet.sexp_wellFormed :
    WellFormed cells get version (Packet.sexp : Conv D Packet .values) := by
  refine ⟨⟨⟨trivial, ⟨Response.result_wellFormed, Packet.call_wellFormed, ?_⟩, ?_⟩,
    fun r a h => ?_⟩, fun p a h => ?_⟩
  · change List.Disjoint [lit "result"] [lit "method", lit "params"]
    exact List.disjoint_left.mpr (by decide)
  · change List.Disjoint [lit "id"] [lit "result", lit "method", lit "params"]
    exact List.disjoint_left.mpr (by decide)
  · cases h
    rfl
  · cases p with
    | request id c =>
        cases h
        rfl
    | response id r =>
        cases h
        rfl
    | notification c =>
        cases h
        rfl

end WellFormed

section Guarded

open Conv (Guarded)

variable {env : Env D} {head : Bool} {P : Platform}

theorem Response.Error.sexp_guarded :
    Guarded env head (Response.Error.sexp : Conv D Response.Error .values) :=
  ⟨⟨⟨trivial, Conv.string_guarded, trivial⟩, fun _ => raises_ok _⟩, fun _ => raises_ok _⟩

theorem Response.result_guarded : Guarded env head (Response.result : Conv D Response .values) :=
  ⟨trivial, Response.Error.sexp_guarded, trivial⟩

theorem Initialize.Request.sexp_guarded :
    Guarded env head (Initialize.Request.sexp : Conv D (Initialize.Request P) .values) :=
  ⟨⟨⟨⟨Conv.int_guarded, Conv.int_guarded⟩, Conv.int_guarded, trivial⟩, fun _ => raises_ok _⟩,
    fun _ => raises_ok _⟩

theorem VersionNegotiation.Request.sexp_guarded : Guarded env head
    (VersionNegotiation.Request.sexp : Conv D (VersionNegotiation.Request P) .values) :=
  ⟨⟨Conv.string_guarded, Conv.int_guarded⟩, fun _ => raises_ok _⟩

theorem VersionNegotiation.Response.sexp_guarded : Guarded env head
    (VersionNegotiation.Response.sexp : Conv D (VersionNegotiation.Response P) .values) :=
  ⟨⟨Conv.string_guarded, Conv.int_guarded⟩, fun _ => raises_ok _⟩

theorem Packet.call_guarded : Guarded env head (Packet.call : Conv D (Option Call) .fields) := by
  refine ⟨⟨Conv.string_guarded, trivial⟩, fun (method, params) => ?_⟩
  cases method <;> cases params
  all_goals first | exact raises_ok _ | exact Conv.raises_raiseOfSexp _ _

theorem Packet.sexp_guarded : Guarded env head (Packet.sexp : Conv D Packet .values) := by
  refine ⟨⟨⟨trivial, Response.result_guarded, Packet.call_guarded⟩, fun _ => raises_ok _⟩,
    fun (id, result, call) => ?_⟩
  cases id <;> cases result <;> cases call
  all_goals first | exact raises_ok _ | exact Conv.raises_raiseOfSexp _ _

end Guarded

end Rpc

end Csexp
