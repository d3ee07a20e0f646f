import Csexp.Rpc.Menu
import Csexp.Rpc.Packets
import Csexp.Library.Systems
import Mathlib.Data.List.AList

/-!
# Versioned procedures

The registry of the procedures that an end declares or implements, each in
several generations, and the handler made from it for a menu. Declarations
are found by a typed key, implementations by the name of the method.
-/

namespace Csexp.Rpc

open Conv (Env Decls)
open Raising

/-! ## Declarations -/

/-- How requests and responses of one version are put on the wire. -/
structure Generation (D : Decls) (Req Resp : Type) where
  WireReq : Type
  WireResp : Type
  req : Conv D WireReq .values
  resp : Conv D WireResp .values
  upgradeReq : WireReq → Req
  downgradeReq : Req → WireReq
  upgradeResp : WireResp → Resp
  downgradeResp : Resp → WireResp

/-- The declarations that a program makes with `Decl.Request.make` and
`Decl.Notification.make`. Each has a method and a key of its own; here the
declaration is the key. -/
structure Keys where
  Request : Type
  requestMethod : Request → Bytes
  Req : Request → Type
  Resp : Request → Type
  Notification : Type
  notificationMethod : Notification → Bytes
  Payload : Notification → Type

abbrev VersionMap.{u} (V : Type) [LinearOrder V] (α : Type u) := Std.ExtTreeMap V α compare

def VersionMap.keys {V : Type} [LinearOrder V] {α : Type*} (m : VersionMap V α) : List V :=
  Std.ExtTreeMap.keys m

namespace Versioned

/-! ## Version errors -/

structure VersionError where
  payload : Option Sexp
  message : Bytes

def VersionError.toResponseError (e : VersionError) : Response.Error :=
  { payload := e.payload, message := e.message, kind := .invalidRequest }

variable {V : Type} [LinearOrder V] {D : Decls} {K : Keys} {S : Type} {F : Type → Type}

/-! ## The registry -/

structure RHandler (D : Decls) (S : Type) (F : Type → Type) where
  Req : Type
  Resp : Type
  run : S → Req → F Resp
  gen : Generation D Req Resp

structure NHandler (D : Decls) (S : Type) (F : Type → Type) where
  Payload : Type
  run : S → Payload → F Unit
  gen : Generation D Payload Unit

abbrev UnivMap {A : Type} (G : A → Type 1) := AList G

/-- The known keys of each name stand beside the map of the declarations.
The order of a hash table is that of its entries. -/
structure Builder (V : Type) [LinearOrder V] (D : Decls) (K : Keys) (S : Type)
    (F : Type → Type) where
  declaredRequests : StringMap (List K.Request) ×
    UnivMap fun k : K.Request => VersionMap V (Generation D (K.Req k) (K.Resp k))
  declaredNotifications : StringMap (List K.Notification) ×
    UnivMap fun k : K.Notification => VersionMap V (Generation D (K.Payload k) Unit)
  implementedRequests : AList fun _ : Bytes => VersionMap V (RHandler D S F)
  implementedNotifications : AList fun _ : Bytes => VersionMap V (NHandler D S F)

/-- A `field_witness`: a table of the registry with its keys. -/
structure FieldWitness (B : Type 1) (V : Type) [LinearOrder V] {A : Type} (G : A → Type 1) where
  get : B → ∀ a, Option (VersionMap V (G a))
  set : B → ∀ a, VersionMap V (G a) → B

def addMulti {α : Type} (m : StringMap (List α)) (key : Bytes) (x : α) : StringMap (List α) :=
  m.insert key (x :: m[key]?.getD [])

namespace Builder

section Witnesses

variable [DecidableEq K.Request] [DecidableEq K.Notification]

def DeclaredRequests : FieldWitness (Builder V D K S F) V
    fun a : Bytes × K.Request => Generation D (K.Req a.2) (K.Resp a.2) where
  get t a := t.declaredRequests.2.lookup a.2
  set t a value := { t with
    declaredRequests :=
      (addMulti t.declaredRequests.1 a.1 a.2, t.declaredRequests.2.insert a.2 value) }

def DeclaredNotifs : FieldWitness (Builder V D K S F) V
    fun a : Bytes × K.Notification => Generation D (K.Payload a.2) Unit where
  get t a := t.declaredNotifications.2.lookup a.2
  set t a value := { t with
    declaredNotifications :=
      (addMulti t.declaredNotifications.1 a.1 a.2, t.declaredNotifications.2.insert a.2 value) }

end Witnesses

def ImplRequests : FieldWitness (Builder V D K S F) V fun _ : Bytes => RHandler D S F where
  get t a := t.implementedRequests.lookup a
  set t a value := { t with implementedRequests := t.implementedRequests.insert a value }

def ImplNotifs : FieldWitness (Builder V D K S F) V fun _ : Bytes => NHandler D S F where
  get t a := t.implementedNotifications.lookup a
  set t a value := { t with implementedNotifications := t.implementedNotifications.insert a value }

def create : Builder V D K S F where
  declaredRequests := (∅, ∅)
  declaredNotifications := (∅, ∅)
  implementedRequests := ∅
  implementedNotifications := ∅

def registeredProcedures.addVersions {A : Type} [DecidableEq A] {G : A → Type 1}
    (declarationTable : UnivMap fun a => VersionMap V (G a)) (acc : List V) (key : A) :
    Except Conv.Exn (List V) :=
  match declarationTable.lookup key with
  | some listing => .ok (listing.keys ++ acc)
  | none => .error (.codeError
      "versioning: method found in versioning table without actually being declared")

def registeredProcedures.batchDeclarations {A : Type} [DecidableEq A] {G : A → Type 1}
    (declaredKeys : StringMap (List A)) (declarationTable : UnivMap fun a => VersionMap V (G a)) :
    Except Conv.Exn (List (Bytes × List V)) :=
  declaredKeys.toList.foldlM (fun acc p => do
    let generations ← p.2.foldlM (registeredProcedures.addVersions declarationTable) []
    .ok ((p.1, generations) :: acc)) []

def registeredProcedures.batchImplementations {H : Type 1}
    (table : AList fun _ : Bytes => VersionMap V H) : List (Bytes × List V) :=
  table.entries.foldl (fun acc p => (p.1, p.2.keys) :: acc) []

def registeredProcedures [DecidableEq K.Request] [DecidableEq K.Notification]
    (t : Builder V D K S F) : Except Conv.Exn (List (Bytes × List V)) := do
  let declaredRequests ← registeredProcedures.batchDeclarations
    t.declaredRequests.1 t.declaredRequests.2
  let declaredNotifications ← registeredProcedures.batchDeclarations
    t.declaredNotifications.1 t.declaredNotifications.2
  let implementedRequests := registeredProcedures.batchImplementations t.implementedRequests
  let implementedNotifications :=
    registeredProcedures.batchImplementations t.implementedNotifications
  .ok (declaredRequests ++ declaredNotifications ++ implementedRequests ++
    implementedNotifications)

/-! ## Registration -/

/-- A generation whose version is in the map already is a duplicate. -/
def registerGeneric.add {G T : Type 1} (pack : T → G) :
    VersionMap V G × Finset V → V × T → VersionMap V G × Finset V
  | (acc, dups), (n, gen) =>
    match acc[n]? with
    | some _ => (acc, insert n dups)
    | none => (acc.insert n (pack gen), dups)

def registerGeneric {A A' : Type} {G : A → Type 1} {G' : A' → Type 1} {T : Type 1}
    (t : Builder V D K S F) (generations : List (V × T))
    (registry : FieldWitness (Builder V D K S F) V G) (registryKey : A)
    (other : FieldWitness (Builder V D K S F) V G') (otherKey : A')
    (pack : T → G registryKey) : Except Conv.Exn (Builder V D K S F) :=
  match other.get t otherKey with
  | some _ => .error (.codeError "attempted to implement and declare method")
  | none =>
    let priorRegisteredGenerations := (registry.get t registryKey).getD ∅
    let (allGenerations, duplicateGenerations) :=
      generations.foldl (registerGeneric.add pack) (priorRegisteredGenerations, ∅)
    if duplicateGenerations = ∅ then .ok (registry.set t registryKey allGenerations)
    else .error (.codeError "attempted to register duplicate generations for RPC method")

end Builder

end Versioned

/-! ## Requests and notifications -/

structure Request (V : Type) (D : Decls) (K : Keys) where
  decl : K.Request
  generations : List (V × Generation D (K.Req decl) (K.Resp decl))

structure Notification (V : Type) (D : Decls) (K : Keys) where
  decl : K.Notification
  generations : List (V × Generation D (K.Payload decl) Unit)

namespace Versioned.Builder

variable {V : Type} [LinearOrder V] {D : Decls} {K : Keys} {S : Type} {F : Type → Type}
  [DecidableEq K.Request] [DecidableEq K.Notification]

def declareRequest (t : Builder V D K S F) (proc : Request V D K) :
    Except Conv.Exn (Builder V D K S F) :=
  let method := K.requestMethod proc.decl
  t.registerGeneric proc.generations DeclaredRequests (method, proc.decl) ImplRequests method id

def declareNotification (t : Builder V D K S F) (proc : Notification V D K) :
    Except Conv.Exn (Builder V D K S F) :=
  let method := K.notificationMethod proc.decl
  t.registerGeneric proc.generations DeclaredNotifs (method, proc.decl) ImplNotifs method id

def implementRequest (t : Builder V D K S F) (proc : Request V D K)
    (f : S → K.Req proc.decl → F (K.Resp proc.decl)) : Except Conv.Exn (Builder V D K S F) :=
  let method := K.requestMethod proc.decl
  t.registerGeneric proc.generations ImplRequests method DeclaredRequests (method, proc.decl)
    fun r => ⟨_, _, f, r⟩

def implementNotification (t : Builder V D K S F) (proc : Notification V D K)
    (f : S → K.Payload proc.decl → F Unit) : Except Conv.Exn (Builder V D K S F) :=
  let method := K.notificationMethod proc.decl
  t.registerGeneric proc.generations ImplNotifs method DeclaredNotifs (method, proc.decl)
    fun n => ⟨_, f, n⟩

/-! ## Handlers -/

/-- `lookup_method_generic`, with its two continuations as a result. -/
def lookupMethodGeneric {A : Type} {G : A → Type 1} (t : Builder V D K S F) (menu : Menu V)
    (table : FieldWitness (Builder V D K S F) V G) (key : A) (method : Bytes) :
    Except VersionError (VersionMap V (G key) × V) :=
  let payload := Sexp.record [(lit "method", .atom method)]
  match table.get t key, menu[method]? with
  | some subtable, some version => .ok (subtable, version)
  | none, _ => .error { message := lit "invalid method", payload := some payload }
  | _, none => .error
    { message := lit "remote and local have no common version for method",
      payload := some payload }

/-- `raise_version_bug`. -/
def versionBug : Conv.Exn :=
  .codeError "bug with version negotiation; selected bad method version"

end Versioned.Builder

/-- What is left of a declared request once its version is known. -/
structure Staged.Request (Req Resp : Type) where
  encodeReq : Req → Conv.Eval Call
  decodeResp : Sexp → Conv.Eval (Except Response.Error Resp)

structure Staged.Notification (Payload : Type) where
  encode : Payload → Conv.Eval Call

namespace Versioned.Builder

variable {V : Type} [LinearOrder V] {D : Decls} {K : Keys} {S : Type} {F : Type → Type}
  [DecidableEq K.Request] [DecidableEq K.Notification] [Monad F] [MonadExcept Conv.Exn F]

/-- An exception is raised in the fiber. -/
def raising {α : Type} : Conv.Eval α → F α
  | .ok a => pure a
  | .error e => throw e

variable (env : Env D) (fuel : ℕ)

/-- `handle_request` for the handler that the menu selects. -/
def handleRequest.run (sessionVersion : S → ℤ × ℤ) (state : S) (n : Call) (h : RHandler D S F) :
    F Response := do
  match ← raising (Conv.ofSexp env fuel h.gen.req (sessionVersion state) n.params) with
  | .error e => pure (.error (Response.Error.ofConv e))
  | .ok req => do
    let resp ← h.run state (h.gen.upgradeReq req)
    let s ← raising (Conv.toSexp env fuel h.gen.resp (h.gen.downgradeResp resp))
    pure (.ok s)

def handleRequest (t : Builder V D K S F) (sessionVersion : S → ℤ × ℤ) (menu : Menu V)
    (state : S) (n : Call) : F Response :=
  match t.lookupMethodGeneric menu ImplRequests n.method n.method with
  | .error e => pure (.error e.toResponseError)
  | .ok (handlers, version) =>
    match handlers[version]? with
    | none => throw versionBug
    | some h => handleRequest.run env fuel sessionVersion state n h

def handleNotification (t : Builder V D K S F) (sessionVersion : S → ℤ × ℤ) (menu : Menu V)
    (state : S) (n : Call) : F (Except Response.Error Unit) :=
  match t.lookupMethodGeneric menu ImplNotifs n.method n.method with
  | .error e => pure (.error e.toResponseError)
  | .ok (handlers, version) =>
    match handlers[version]? with
    | none => throw versionBug
    | some { run := f, gen, .. } => do
      match ← raising (Conv.ofSexp env fuel gen.req (sessionVersion state) n.params) with
      | .error e => pure (.error (Response.Error.ofConv e))
      | .ok req => do
        f state (gen.upgradeReq req)
        pure (.ok ())

/-- The two functions of a prepared request in the generation that the menu
selects. -/
def prepareRequest.staged {Req Resp : Type} (method : Bytes) (gen : Generation D Req Resp) :
    Staged.Request Req Resp where
  encodeReq req := do
    let params ← Conv.toSexp env fuel gen.req (gen.downgradeReq req)
    .ok { method, params }
  decodeResp sexp := do
    match ← Conv.ofSexp env fuel gen.resp (3, 0) sexp with
    | .ok resp => .ok (.ok (gen.upgradeResp resp))
    | .error e => .ok (.error (Response.Error.ofConv e))

def prepareRequest (t : Builder V D K S F) (menu : Menu V) (decl : K.Request) :
    Except Conv.Exn (Except VersionError (Staged.Request (K.Req decl) (K.Resp decl))) :=
  let method := K.requestMethod decl
  match t.lookupMethodGeneric menu DeclaredRequests (method, decl) method with
  | .error e => .ok (.error e)
  | .ok (decls, version) =>
    match decls[version]? with
    | none => .error versionBug
    | some gen => .ok (.ok (prepareRequest.staged env fuel method gen))

def prepareNotification (t : Builder V D K S F) (menu : Menu V) (decl : K.Notification) :
    Except Conv.Exn (Except VersionError (Staged.Notification (K.Payload decl))) :=
  let method := K.notificationMethod decl
  match t.lookupMethodGeneric menu DeclaredNotifs (method, decl) method with
  | .error e => .ok (.error e)
  | .ok (decls, version) =>
    match decls[version]? with
    | none => .error versionBug
    | some gen =>
      .ok (.ok
        { encode := fun req => do
            let params ← Conv.toSexp env fuel gen.req (gen.downgradeReq req)
            .ok { method, params } })

end Versioned.Builder

end Csexp.Rpc
