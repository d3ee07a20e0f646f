import Csexp.Runtime
import Csexp.Library.Decimal

/-!
# S-expressions and their serialisation

The type of S-expressions the library is parameterised by, the length it
announces for a serialised expression, and the two writers: one to a
buffer, one to an output channel.
-/

namespace Csexp

inductive Sexp where
  | atom (s : Bytes)
  | list (l : List Sexp)
  deriving Repr

namespace Sexp

/-- Induction on an expression, with the hypothesis for all children. -/
@[elab_as_elim, induction_eliminator]
theorem rec_children {P : Sexp → Prop} (atom : ∀ s, P (.atom s))
    (list : ∀ l, (∀ x ∈ l, P x) → P (.list l)) : ∀ x, P x
  | .atom s => atom s
  | .list l => list l fun x _ => rec_children atom list x

/-- All atoms are strings the platform can represent. -/
inductive Fits (S : Sys) : Sexp → Prop where
  | atom {s : Bytes} (h : s.length ≤ S.maxStringLength) : Fits S (.atom s)
  | list {l : List Sexp} (h : ∀ x ∈ l, Fits S x) : Fits S (.list l)

theorem fits_atom {S : Sys} {s : Bytes} : Fits S (.atom s) ↔ s.length ≤ S.maxStringLength :=
  ⟨fun h => by cases h; assumption, .atom⟩

theorem fits_list {S : Sys} {l : List Sexp} : Fits S (.list l) ↔ ∀ x ∈ l, Fits S x :=
  ⟨fun h => by cases h; assumption, .list⟩

end Sexp

/-- `string_of_int`, of the length of a string. -/
def stringOfInt (n : ℕ) : Bytes := Decimal.numeral n

/-! ## Announced length -/

/-- The `while` loop counting the digits of a length. -/
def serialisedLength.lenLen (x lenLen : ℕ) : ℕ :=
  if 9 < x then serialisedLength.lenLen (x / 10) (lenLen + 1) else lenLen
termination_by x

mutual

def serialisedLength.loop (acc : ℕ) : Sexp → ℕ
  | .atom s =>
    let len := s.length
    acc + serialisedLength.lenLen len 1 + 1 + len
  | .list l => serialisedLength.foldLeft acc l

/-- `List.fold_left loop`. -/
def serialisedLength.foldLeft (acc : ℕ) : List Sexp → ℕ
  | [] => acc
  | x :: l => serialisedLength.foldLeft (serialisedLength.loop acc x) l

end

def serialisedLength (x : Sexp) : ℕ := serialisedLength.loop 0 x

/-! ## Buffers -/

structure Buffer where
  contents : Bytes

namespace Buffer

/-- The size given to `Buffer.create` is a hint and leaves no trace in the
contents. -/
def create (_size : ℕ) : Buffer := ⟨[]⟩

def addString (buf : Buffer) (s : Bytes) : Buffer := ⟨buf.contents ++ s⟩

def addChar (buf : Buffer) (c : UInt8) : Buffer := ⟨buf.contents ++ [c]⟩

end Buffer

mutual

def toBuffer.loop (buf : Buffer) : Sexp → Buffer
  | .atom str =>
    let buf := buf.addString (stringOfInt str.length)
    let buf := buf.addString [':'.toUInt8]
    buf.addString str
  | .list e =>
    let buf := buf.addChar '('.toUInt8
    let buf := toBuffer.iter buf e
    buf.addChar ')'.toUInt8

/-- `List.iter loop`. -/
def toBuffer.iter (buf : Buffer) : List Sexp → Buffer
  | [] => buf
  | x :: e => toBuffer.iter (toBuffer.loop buf x) e

end

def toBuffer (buf : Buffer) (sexp : Sexp) : Buffer := toBuffer.loop buf sexp

def toString (sexp : Sexp) : Bytes :=
  let buf := Buffer.create (serialisedLength sexp)
  (toBuffer buf sexp).contents

/-! ## Output channels -/

structure OutChannel where
  written : Bytes

namespace OutChannel

def outputString (oc : OutChannel) (s : Bytes) : OutChannel := ⟨oc.written ++ s⟩

def outputChar (oc : OutChannel) (c : UInt8) : OutChannel := ⟨oc.written ++ [c]⟩

end OutChannel

mutual

def toChannel.loop (oc : OutChannel) : Sexp → OutChannel
  | .atom str =>
    let oc := oc.outputString (stringOfInt str.length)
    let oc := oc.outputChar ':'.toUInt8
    oc.outputString str
  | .list l =>
    let oc := oc.outputChar '('.toUInt8
    let oc := toChannel.iter oc l
    oc.outputChar ')'.toUInt8

/-- `List.iter loop`. -/
def toChannel.iter (oc : OutChannel) : List Sexp → OutChannel
  | [] => oc
  | x :: l => toChannel.iter (toChannel.loop oc x) l

end

def toChannel (oc : OutChannel) (sexp : Sexp) : OutChannel := toChannel.loop oc sexp

/-! ## What the writers add -/

theorem toBuffer_iter_of_forall {l : List Sexp} (h : ∀ x ∈ l, ∀ buf,
    (toBuffer.loop buf x).contents = buf.contents ++ toString x) (buf : Buffer) :
    (toBuffer.iter buf l).contents = buf.contents ++ l.flatMap toString := by
  induction l generalizing buf with
  | nil => simp [toBuffer.iter]
  | cons x l ih =>
      rw [toBuffer.iter, ih (fun y hy => h y (List.mem_cons_of_mem x hy)),
        h x List.mem_cons_self, List.append_assoc, List.flatMap_cons]

/-- Writing to a buffer adds the same bytes whatever it held before. -/
theorem contents_toBuffer (buf : Buffer) (x : Sexp) :
    (toBuffer buf x).contents = buf.contents ++ toString x := by
  change (toBuffer.loop buf x).contents = _
  induction x generalizing buf with
  | atom s => simp [toString, toBuffer, toBuffer.loop, Buffer.addString, Buffer.create]
  | list l ih =>
      have hiter (buf : Buffer) := toBuffer_iter_of_forall (fun x hx buf => ih x hx buf) buf
      simp [toString, toBuffer, toBuffer.loop, Buffer.addChar, Buffer.create, hiter]

theorem toString_atom (s : Bytes) :
    toString (.atom s) = stringOfInt s.length ++ ':'.toUInt8 :: s := by
  simp [toString, toBuffer, toBuffer.loop, Buffer.addString, Buffer.create]

theorem toString_list (l : List Sexp) :
    toString (.list l) = '('.toUInt8 :: l.flatMap toString ++ [')'.toUInt8] := by
  have hiter (buf : Buffer) := toBuffer_iter_of_forall (l := l)
    (fun x _ buf => contents_toBuffer buf x) buf
  simp [toString, toBuffer, toBuffer.loop, Buffer.addChar, Buffer.create, hiter]

theorem toChannel_iter_of_forall {l : List Sexp} (h : ∀ x ∈ l, ∀ oc,
    (toChannel.loop oc x).written = oc.written ++ toString x) (oc : OutChannel) :
    (toChannel.iter oc l).written = oc.written ++ l.flatMap toString := by
  induction l generalizing oc with
  | nil => simp [toChannel.iter]
  | cons x l ih =>
      rw [toChannel.iter, ih (fun y hy => h y (List.mem_cons_of_mem x hy)),
        h x List.mem_cons_self, List.append_assoc, List.flatMap_cons]

/-- The two writers agree byte for byte. -/
theorem written_toChannel (oc : OutChannel) (x : Sexp) :
    (toChannel oc x).written = oc.written ++ toString x := by
  change (toChannel.loop oc x).written = _
  induction x generalizing oc with
  | atom s =>
      rw [toString_atom]
      simp [toChannel.loop, OutChannel.outputString, OutChannel.outputChar]
  | list l ih =>
      rw [toString_list]
      have hiter (oc : OutChannel) := toChannel_iter_of_forall (fun x hx oc => ih x hx oc) oc
      simp [toChannel.loop, OutChannel.outputChar, hiter]

/-- Expressions written one after the other to a channel. -/
theorem written_foldl_toChannel (oc : OutChannel) (xs : List Sexp) :
    (xs.foldl toChannel oc).written = oc.written ++ xs.flatMap toString := by
  induction xs generalizing oc with
  | nil => simp
  | cons x xs ih => rw [List.foldl_cons, ih, written_toChannel, List.append_assoc, List.flatMap_cons]

end Csexp
