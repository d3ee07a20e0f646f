import Csexp.Sexp

/-!
# The announced length and the bytes written

The length announced for an expression counts every atom with the digits
of its length and the colon. The parentheses of the lists are not
counted, so it falls short by two bytes for each list in the expression.
-/

namespace Csexp

mutual

/-- The number of lists in an expression, the expression itself included. -/
def Sexp.lists : Sexp → ℕ
  | .atom _ => 0
  | .list l => Sexp.listsMany l + 1

def Sexp.listsMany : List Sexp → ℕ
  | [] => 0
  | x :: l => Sexp.lists x + Sexp.listsMany l

end

/-- The announced length is the number of bytes that all three writers add. -/
structure AnnouncesLength (x : Sexp) : Prop where
  toString : (toString x).length = serialisedLength x
  toBuffer (buf : Buffer) :
    (toBuffer buf x).contents.length = buf.contents.length + serialisedLength x
  toChannel (oc : OutChannel) :
    (toChannel oc x).written.length = oc.written.length + serialisedLength x

/-! ## Counting digits -/

/-- Every turn of the `while` loop accounts for one digit. -/
theorem lenLen_add_one (x lenLen : ℕ) :
    serialisedLength.lenLen x lenLen + 1 = lenLen + (stringOfInt x).length := by
  induction x using Nat.strongRecOn generalizing lenLen with
  | ind x ih =>
      rw [serialisedLength.lenLen]
      split
      · rename_i hx
        rw [ih (x / 10) (by omega), stringOfInt, stringOfInt, Decimal.length_numeral_of_le hx]
        omega
      · rename_i hx
        rw [stringOfInt, Decimal.numeral_of_lt (by omega), List.length_singleton]

theorem lenLen_one (x : ℕ) : serialisedLength.lenLen x 1 = (stringOfInt x).length := by
  have hloop := lenLen_add_one x 1
  omega

/-! ## Counting parentheses -/

theorem foldLeft_of_forall {l : List Sexp} (h : ∀ x ∈ l, ∀ acc,
    serialisedLength.loop acc x + 2 * x.lists = acc + (toString x).length) (acc : ℕ) :
    serialisedLength.foldLeft acc l + 2 * Sexp.listsMany l =
      acc + (l.flatMap toString).length := by
  induction l generalizing acc with
  | nil => simp [serialisedLength.foldLeft, Sexp.listsMany]
  | cons x l ih =>
      have hx := h x List.mem_cons_self acc
      have hl := ih (fun y hy => h y (List.mem_cons_of_mem x hy)) (serialisedLength.loop acc x)
      rw [serialisedLength.foldLeft, Sexp.listsMany, List.flatMap_cons, List.length_append]
      omega

theorem loop_add_lists (acc : ℕ) (x : Sexp) :
    serialisedLength.loop acc x + 2 * x.lists = acc + (toString x).length := by
  induction x generalizing acc with
  | atom s =>
      rw [serialisedLength.loop, lenLen_one, Sexp.lists, toString_atom, List.length_append,
        List.length_cons]
      omega
  | list l ih =>
      have hl := foldLeft_of_forall (fun x hx acc => ih x hx acc) acc
      rw [serialisedLength.loop, Sexp.lists, toString_list]
      simp only [List.cons_append, List.length_cons, List.length_append, List.length_nil]
      omega

/-- The announced length leaves out the two parentheses of every list. -/
theorem length_toString (x : Sexp) : (toString x).length = serialisedLength x + 2 * x.lists := by
  have hloop := loop_add_lists 0 x
  rw [serialisedLength]
  omega

theorem Sexp.lists_eq_zero_iff (x : Sexp) : x.lists = 0 ↔ ∃ s, x = .atom s := by
  cases x with
  | atom s => simp [Sexp.lists]
  | list l => simp [Sexp.lists]

/-! ## Which expressions are announced exactly -/

theorem announcesLength_of_toString {x : Sexp} (h : (toString x).length = serialisedLength x) :
    AnnouncesLength x where
  toString := h
  toBuffer buf := by rw [contents_toBuffer, List.length_append, h]
  toChannel oc := by rw [written_toChannel, List.length_append, h]

theorem announcesLength_iff (x : Sexp) : AnnouncesLength x ↔ ∃ s, x = .atom s := by
  have hlen := length_toString x
  rw [← x.lists_eq_zero_iff]
  constructor
  · intro h
    have hexact := h.toString
    omega
  · intro h
    exact announcesLength_of_toString (by omega)

theorem not_announcesLength_nil : ¬ AnnouncesLength (.list []) := by
  intro h
  have hexact := h.toString
  rw [toString_list] at hexact
  simp [serialisedLength, serialisedLength.loop, serialisedLength.foldLeft] at hexact

end Csexp
