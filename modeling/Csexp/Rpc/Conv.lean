import Csexp.Rpc.Fields
import Csexp.Rpc.Ints

/-!
# Descriptions of messages

A value of type `Conv` describes both directions of a conversion between
the values of a type and S-expressions. A description of fields reads its
own fields out of a record and hands on the others. Recursive descriptions
go through cells that are filled in later, so the two interpreters below
take the meaning of the cells as an argument, and `fuel` bounds how often
a cell is entered from within itself.
-/

namespace Csexp.Conv

/-- The phantom types `values` and `fields`. -/
inductive Kind where
  | values
  | fields

abbrev Kind.Ctx : Kind → Type
  | .values => Sexp
  | .fields => Fields

/-- The type `ret`: reading fields returns what has not been read. -/
abbrev Kind.Ret : Kind → Type
  | .values => Unit
  | .fields => Fields

structure Version where
  since : ℤ × ℤ
  until_ : Option (ℤ × ℤ)

/-- The cells of a program, made by `Fdecl.create`. -/
structure Decls where
  Cell : Type
  type : Cell → Type
  kind : Cell → Kind

end Conv

open Conv (Kind Decls Version)

mutual

inductive Conv (D : Decls) : Type → Kind → Type 1 where
  | iso {α β : Type} {k : Kind} (t : Conv D α k) (to_ : α → Conv.Eval β) (from_ : β → Conv.Eval α) :
      Conv D β k
  | isoResult {α β : Type} {k : Kind} (t : Conv D α k) (to_ : α → Conv.Eval (Except Conv.Exn β))
      (from_ : β → Conv.Eval α) : Conv D β k
  | version {α : Type} {k : Kind} (t : Conv D α k) (v : Version) : Conv D α k
  | both {α β : Type} (x : Conv D α .fields) (y : Conv D β .fields) : Conv D (α × β) .fields
  | sexp : Conv D Sexp .values
  | list {α : Type} (t : Conv D α .values) : Conv D (List α) .values
  | field {α : Type} (name : Bytes) (spec : Conv.Field D α) : Conv D α .fields
  | enum {α : Type} (eq : DecidableEq α) (choices : List (Bytes × α)) : Conv D α .values
  | sum {α : Type} (constrs : Conv.EConstrs D α) (case : α → Conv.Case D) : Conv D α .values
  | pair {α β : Type} (x : Conv D α .values) (y : Conv D β .values) : Conv D (α × β) .values
  | triple {α β γ : Type} (x : Conv D α .values) (y : Conv D β .values)
      (z : Conv D γ .values) : Conv D (α × β × γ) .values
  | fdecl (i : D.Cell) : Conv D (D.type i) (D.kind i)
  | either {α β : Type} (x : Conv D α .fields) (y : Conv D β .fields) : Conv D (α ⊕ β) .fields
  | record {α : Type} (r : Conv D α .fields) : Conv D α .values

inductive Conv.Field (D : Decls) : Type → Type 1 where
  | required {α : Type} (t : Conv D α .values) : Conv.Field D α
  | optional {α : Type} (t : Conv D α .values) : Conv.Field D (Option α)

inductive Conv.Constr (D : Decls) : Type → Type → Type 1 where
  | mk {α β : Type} (name : Bytes) (arg : Conv D β .values) (inj : β → α) : Conv.Constr D α β

/-- A list of `econstr`. -/
inductive Conv.EConstrs (D : Decls) : Type → Type 1 where
  | nil {α : Type} : Conv.EConstrs D α
  | cons {α β : Type} (c : Conv.Constr D α β) (rest : Conv.EConstrs D α) : Conv.EConstrs D α

inductive Conv.Case (D : Decls) : Type 1 where
  | mk {α β : Type} (arg : β) (c : Conv.Constr D α β) : Conv.Case D

end

namespace Conv

variable {D : Decls}

/-! ## Common descriptions -/

def string : Conv D Bytes .values :=
  .iso .sexp
    (fun s =>
      match s with
      | .atom s => .ok s
      | .list l =>
        raiseOfSexp "string: expected atom. received list" [(lit "list", .list l)])
    (fun s => .ok (.atom s))

def int (P : Platform) : Conv D (NativeInt P) .values :=
  .iso .sexp
    (fun s =>
      match s with
      | .list l => raiseOfSexp "int: expected atom. received list" [(lit "list", .list l)]
      | .atom s =>
        match intOfStringOpt P s with
        | none => raiseOfSexp "unable to read int" []
        | some i => .ok i)
    (fun i => .ok (.atom i.toString))

def unit : Conv D Unit .values :=
  .iso .sexp
    (fun s =>
      match s with
      | .list [] => .ok ()
      | _ => raiseOfSexp "expected empty list" [])
    (fun _ => .ok (.list []))

def three {α β γ : Type} (a : Conv D α .fields) (b : Conv D β .fields) (c : Conv D γ .fields) :
    Conv D (α × β × γ) .fields :=
  .iso (.both a (.both b c)) (fun (x, y, z) => .ok (x, y, z)) (fun (x, y, z) => .ok (x, y, z))

/-! ## Writing -/

mutual

def toSexp.loop (get : ∀ i, D.type i → Eval (D.kind i).Ctx) :
    {α : Type} → {k : Kind} → Conv D α k → α → Eval k.Ctx
  | _, _, .sexp, a => .ok a
  | _, _, .version t _, a => toSexp.loop get t a
  | _, _, .fdecl i, a => get i a
  | _, _, .list t, a => do
    let l ← a.mapM (toSexp.loop get t)
    .ok (.list l)
  -- OCaml evaluates the elements of a list expression from the right
  | _, _, .pair x y, (a, b) => do
    let b ← toSexp.loop get y b
    let a ← toSexp.loop get x a
    .ok (.list [a, b])
  | _, _, .triple x y z, (a, b, c) => do
    let c ← toSexp.loop get z c
    let b ← toSexp.loop get y b
    let a ← toSexp.loop get x a
    .ok (.list [a, b, c])
  | _, _, .record r, a => do
    let fields ← toSexp.loop get r a
    .ok fields.toSexp
  | _, _, .field name spec, a => toSexp.loopField get name spec a
  | _, _, .isoResult t _ from_, a => do
    let a ← from_ a
    toSexp.loop get t a
  | _, _, .iso t _ from_, a => do
    let a ← from_ a
    toSexp.loop get t a
  | _, _, .both x y, a => do
    let x ← toSexp.loop get x a.1
    let y ← toSexp.loop get y a.2
    Fields.merge x y
  | _, _, .either x y, a =>
    match a with
    | .inl a => toSexp.loop get x a
    | .inr a => toSexp.loop get y a
  | _, _, .sum _ constr, a => toSexp.loopCase get (constr a)
  | _, _, .enum _ choices, a =>
    match choices.findSome? (fun p => if a = p.2 then some p.1 else none) with
    | some v => .ok (.atom v)
    | none => .error (.codeError "enum does not include this value")
termination_by structural _ _ t => t

def toSexp.loopField (get : ∀ i, D.type i → Eval (D.kind i).Ctx) (name : Bytes) :
    {α : Type} → Field D α → α → Eval Fields
  | _, .required t, a => do
    let s ← toSexp.loop get t a
    .ok (Fields.ofField name s)
  | _, .optional t, a =>
    match a with
    | none => .ok Fields.empty
    | some a => do
      let s ← toSexp.loop get t a
      .ok (Fields.ofField name s)
termination_by structural _ spec => spec

def toSexp.loopConstr (get : ∀ i, D.type i → Eval (D.kind i).Ctx) :
    {α β : Type} → Constr D α β → β → Eval Sexp
  | _, _, .mk name t _, a => do
    let arg ← toSexp.loop get t a
    .ok (.list [.atom name, arg])
termination_by structural _ _ c => c

def toSexp.loopCase (get : ∀ i, D.type i → Eval (D.kind i).Ctx) : Case D → Eval Sexp
  | .mk a c => toSexp.loopConstr get c a
termination_by structural c => c

end

/-! ## Reading -/

/-- The order of pairs. -/
def Version.lt (v w : ℤ × ℤ) : Bool := v.1 < w.1 || (v.1 == w.1 && v.2 < w.2)

def checkVersion (version : ℤ × ℤ) (v : Version) : Eval Unit :=
  if Version.lt version v.since || v.until_.any (Version.lt · version) then
    .error (.ofSexp (.versionError v.since v.until_ "invalid version" []))
  else .ok ()

mutual

def ofSexp.loop (get : ∀ i, (D.kind i).Ctx → Eval (D.type i × (D.kind i).Ret))
    (version : ℤ × ℤ) : {α : Type} → {k : Kind} → Conv D α k → k.Ctx → Eval (α × k.Ret)
  | _, _, .sexp, ctx => .ok (ctx, ())
  | _, _, .version t v, ctx => do
    checkVersion version v
    ofSexp.loop get version t ctx
  | _, _, .fdecl i, ctx => get i ctx
  | _, _, .list t, ctx =>
    match ctx with
    | .list xs => do
      let l ← xs.mapM fun x => do
        let (a, _) ← ofSexp.loop get version t x
        .ok a
      .ok (l, ())
    | .atom _ => raiseOfSexp "expected list" []
  | _, _, .pair x y, ctx =>
    match ctx with
    | .list [a, b] => do
      let (a, _) ← ofSexp.loop get version x a
      let (b, _) ← ofSexp.loop get version y b
      .ok ((a, b), ())
    | _ => raiseOfSexp "expected field entry" []
  | _, _, .triple x y z, ctx =>
    match ctx with
    | .list [a, b, c] => do
      let (a, _) ← ofSexp.loop get version x a
      let (b, _) ← ofSexp.loop get version y b
      let (c, _) ← ofSexp.loop get version z c
      .ok ((a, b, c), ())
    | _ => raiseOfSexp "expected field entry" []
  | _, _, .record r, ctx => do
    let fields ← Fields.ofSexp ctx
    let (a, f) ← ofSexp.loop get version r fields
    f.checkEmpty
    .ok (a, ())
  | _, _, .field name spec, ctx => ofSexp.loopField get version name spec ctx
  | _, _, .either x y, ctx =>
    match ofSexp.loop get version x ctx with
    | .ok (a, x) => .ok (.inl a, x)
    | .error (.ofSexp _) => do
      let (a, y) ← ofSexp.loop get version y ctx
      .ok (.inr a, y)
    | .error e => .error e
  | _, _, .iso t f _, ctx => do
    let (a, k) ← ofSexp.loop get version t ctx
    let a ← f a
    .ok (a, k)
  | _, _, .isoResult t f _, ctx => do
    let (a, k) ← ofSexp.loop get version t ctx
    match ← f a with
    | .error exn => .error exn
    | .ok a => .ok (a, k)
  | _, _, .both x y, ctx => do
    let (a, k) ← ofSexp.loop get version x ctx
    let (b, k) ← ofSexp.loop get version y k
    .ok ((a, b), k)
  | _, _, .sum constrs _, ctx =>
    match ctx with
    | .list [.atom head, args] =>
      match ofSexp.findMap get version head args constrs with
      | none => raiseOfSexp "invalid constructor name" []
      | some p => p
    | _ => raiseOfSexp "expected constructor" []
  | _, _, .enum _ choices, ctx =>
    match ctx with
    | .list _ => raiseOfSexp "expected list" []
    | .atom a =>
      match choices.lookup a with
      | none => raiseOfSexp "unable to read enum" []
      | some s => .ok (s, ())
termination_by structural _ _ t => t

def ofSexp.loopField (get : ∀ i, (D.kind i).Ctx → Eval (D.type i × (D.kind i).Ret))
    (version : ℤ × ℤ) (name : Bytes) : {α : Type} → Field D α → Fields → Eval (α × Fields)
  | _, .required v, ctx => do
    let (f, rest) ← ctx.required name
    let (t, _) ← ofSexp.loop get version v f
    .ok (t, rest)
  | _, .optional v, ctx =>
    let (f, rest) := ctx.optional name
    match f with
    | none => .ok (none, rest)
    | some f => do
      let (a, _) ← ofSexp.loop get version v f
      .ok (some a, rest)
termination_by structural _ spec => spec

/-- `List.find_map` over the constructors. -/
def ofSexp.findMap (get : ∀ i, (D.kind i).Ctx → Eval (D.type i × (D.kind i).Ret))
    (version : ℤ × ℤ) (head : Bytes) (args : Sexp) :
    {α : Type} → EConstrs D α → Option (Eval (α × Unit))
  | _, .nil => none
  | _, .cons c rest =>
    match ofSexp.loopConstr get version head args c with
    | some p => some p
    | none => ofSexp.findMap get version head args rest
termination_by structural _ constrs => constrs

def ofSexp.loopConstr (get : ∀ i, (D.kind i).Ctx → Eval (D.type i × (D.kind i).Ret))
    (version : ℤ × ℤ) (head : Bytes) (args : Sexp) :
    {α β : Type} → Constr D α β → Option (Eval (α × Unit))
  | _, _, .mk name arg inj =>
    if head = name then
      some do
        let (a, k) ← ofSexp.loop get version arg args
        .ok (inj a, k)
    else none
termination_by structural _ _ c => c

end

/-! ## Recursive descriptions -/

/-- The contents of the cells; `none` for one that has not been set. -/
abbrev Env (D : Decls) := ∀ i : D.Cell, Option (Conv D (D.type i) (D.kind i))

namespace Env

variable (env : Env D)

def write : ℕ → ∀ i, D.type i → Eval (D.kind i).Ctx
  | 0, _, _ => .error .stackOverflow
  | fuel + 1, i, a =>
    match env i with
    | none => .error (.codeError "Fdecl.get: not set")
    | some t => toSexp.loop (write fuel) t a

def read (version : ℤ × ℤ) : ℕ → ∀ i, (D.kind i).Ctx → Eval (D.type i × (D.kind i).Ret)
  | 0, _, _ => .error .stackOverflow
  | fuel + 1, i, ctx =>
    match env i with
    | none => .error (.codeError "Fdecl.get: not set")
    | some t => ofSexp.loop (read version fuel) version t ctx

end Env

def toSexp {α : Type} (env : Env D) (fuel : ℕ) (t : Conv D α .values) (a : α) : Eval Sexp :=
  toSexp.loop (env.write fuel) t a

def ofSexp {α : Type} (env : Env D) (fuel : ℕ) (t : Conv D α .values) (version : ℤ × ℤ)
    (sexp : Sexp) : Eval (Except Error α) :=
  match ofSexp.loop (env.read version fuel) version t sexp with
  | .ok (s, _) => .ok (.ok s)
  | .error (.ofSexp e) => .ok (.error e)
  | .error e => .error e

end Conv

end Csexp
