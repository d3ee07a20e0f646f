import Csexp.Sexp
import Mathlib.Data.List.Forall2
import Std.Data.ExtTreeMap

/-!
# The fields of a record

A record is sent as the list of its fields, each with its name. Reading it
back yields a map from names to values, from which every field description
takes its own; what is left over in the end is an error.
-/

namespace Csexp

/-- A string literal of the source. -/
def lit (s : String) : Bytes := s.toList.map Char.toUInt8

/-- `Sexp.record`. -/
def Sexp.record (xs : List (Bytes × Sexp)) : Sexp :=
  .list (xs.map fun p => .list [.atom p.1, p.2])

namespace Conv

inductive Error where
  | parseError (message : String) (payload : List (Bytes × Sexp))
  | versionError (since : ℤ × ℤ) (until_ : Option (ℤ × ℤ)) (message : String)
      (payload : List (Bytes × Sexp))

/-- What a conversion may raise. Only `Of_sexp` is caught by the entry
point; `foreign` is an exception of an `iso_result`. -/
inductive Exn where
  | ofSexp (e : Error)
  | codeError (message : String)
  | assertFailure
  | stackOverflow
  | foreign (message : String)

abbrev Eval (α : Type) := Except Exn α

def raiseOfSexp {α : Type} (message : String) (payload : List (Bytes × Sexp)) : Eval α :=
  .error (.ofSexp (.parseError message payload))

end Conv

/-! ## Maps from strings -/

abbrev StringMap (α : Type) := Std.ExtTreeMap Bytes α compare

namespace StringMap

variable {α β : Type}

def ofListMap.loop (f : α → Conv.Eval (Bytes × β)) (acc : StringMap β) :
    List α → Conv.Eval (Except Bytes (StringMap β))
  | [] => .ok (.ok acc)
  | x :: l =>
    match f x with
    | .error e => .error e
    | .ok (k, v) =>
      if acc.contains k then .ok (.error k) else ofListMap.loop f (acc.insert k v) l

/-- `List.filter`, for the elements with the key `k`. -/
def ofListMap.filter (f : α → Conv.Eval (Bytes × β)) (k : Bytes) :
    List α → Conv.Eval (List α)
  | [] => .ok []
  | x :: l =>
    match f x with
    | .error e => .error e
    | .ok (k', _) =>
      match ofListMap.filter f k l with
      | .error e => .error e
      | .ok l' => .ok (if k' = k then x :: l' else l')

/-- For a duplicate key the elements that have it are searched for, which
evaluates `f` on the whole list again. -/
def ofListMap (f : α → Conv.Eval (Bytes × β)) (l : List α) :
    Conv.Eval (Except (Bytes × α × α) (StringMap β)) :=
  match ofListMap.loop f ∅ l with
  | .error e => .error e
  | .ok (.ok m) => .ok (.ok m)
  | .ok (.error k) =>
    match ofListMap.filter f k l with
    | .error e => .error e
    | .ok (x :: y :: _) => .ok (.error (k, x, y))
    | .ok _ => .error .assertFailure

theorem contains_eq_false_iff {m : StringMap α} {k : Bytes} :
    m.contains k = false ↔ m[k]? = none := by
  rw [Std.ExtTreeMap.contains_eq_isSome_getElem?, Option.isSome_eq_false_iff,
    Option.isNone_iff_eq_none]

theorem getElem?_insert_eq {m : StringMap α} {a k : Bytes} {v : α} :
    (m.insert k v)[a]? = if a = k then some v else m[a]? := by
  rw [Std.ExtTreeMap.getElem?_insert]
  by_cases h : a = k
  · rw [if_pos h, if_pos (Std.LawfulEqCmp.compare_eq_iff_eq.mpr h.symm)]
  · rw [if_neg h, if_neg fun hk => h (Std.LawfulEqCmp.compare_eq_iff_eq.mp hk).symm]

theorem getElem?_erase_eq {m : StringMap α} {a k : Bytes} :
    (m.erase k)[a]? = if a = k then none else m[a]? := by
  rw [Std.ExtTreeMap.getElem?_erase]
  by_cases h : a = k
  · rw [if_pos h, if_pos (Std.LawfulEqCmp.compare_eq_iff_eq.mpr h.symm)]
  · rw [if_neg h, if_neg fun hk => h (Std.LawfulEqCmp.compare_eq_iff_eq.mp hk).symm]

theorem getElem?_erase_of_ne {m : StringMap α} {a k : Bytes} (h : a ≠ k) :
    (m.erase k)[a]? = m[a]? := by
  rw [getElem?_erase_eq, if_neg h]

theorem mem_toList_iff {m : StringMap α} {k : Bytes} {v : α} :
    (k, v) ∈ m.toList ↔ m[k]? = some v :=
  Std.ExtTreeMap.mem_toList_iff_getElem?_eq_some

theorem nodup_keys_toList (m : StringMap α) : (m.toList.map Prod.fst).Nodup := by
  have h := m.distinct_keys_toList
  rw [List.Nodup, List.pairwise_map]
  exact h.imp fun hne heq => hne (Std.LawfulEqCmp.compare_eq_iff_eq.mpr heq)

/-! ### Maps read from a list -/

section OfListMap

variable {f : α → Conv.Eval (Bytes × β)}

theorem ofListMap_loop_of_reads {l : List α} {ps : List (Bytes × β)} {acc : StringMap β}
    (h : List.Forall₂ (fun x p => f x = .ok p) l ps) (hfresh : ∀ p ∈ ps, acc[p.1]? = none)
    (hnodup : (ps.map Prod.fst).Nodup) :
    ∃ m, ofListMap.loop f acc l = .ok (.ok m) ∧
      ∀ k v, m[k]? = some v ↔ acc[k]? = some v ∨ (k, v) ∈ ps := by
  induction h generalizing acc with
  | nil => exact ⟨acc, rfl, by simp⟩
  | @cons x p l ps hx _ ih =>
      obtain ⟨hp, hnodup⟩ := List.nodup_cons.mp hnodup
      have hacc : acc[p.1]? = none := hfresh p List.mem_cons_self
      have hfresh' : ∀ q ∈ ps, (acc.insert p.1 p.2)[q.1]? = none := by
        intro q hq
        have hne : q.1 ≠ p.1 := fun heq => hp (heq ▸ List.mem_map_of_mem hq)
        rw [getElem?_insert_eq, if_neg hne]
        exact hfresh q (List.mem_cons_of_mem p hq)
      obtain ⟨m, hm, hget⟩ := ih hfresh' hnodup
      refine ⟨m, ?_, ?_⟩
      · simp only [ofListMap.loop, hx, contains_eq_false_iff.mpr hacc]
        exact hm
      · intro k v
        rw [hget, getElem?_insert_eq]
        by_cases hk : k = p.1
        · subst hk
          have hnot : (p.1, v) ∉ ps := fun hmem => hp (List.mem_map.mpr ⟨_, hmem, rfl⟩)
          have hhead : (p.1, v) = p ↔ p.2 = v :=
            ⟨fun heq => (congrArg Prod.snd heq).symm, fun hv => Prod.ext rfl hv.symm⟩
          rw [if_pos rfl, hacc, List.mem_cons, hhead, Option.some_inj, or_iff_left hnot]
          simp
        · have hne : (k, v) ≠ p := fun heq => hk (congrArg Prod.fst heq)
          rw [if_neg hk, List.mem_cons, or_iff_right hne]

theorem ofListMap_loop_eq_ok {l : List α} {acc m : StringMap β}
    (h : ofListMap.loop f acc l = .ok (.ok m)) :
    ∃ ps, List.Forall₂ (fun x p => f x = .ok p) l ps ∧ (∀ p ∈ ps, acc[p.1]? = none) ∧
      (ps.map Prod.fst).Nodup := by
  induction l generalizing acc with
  | nil => exact ⟨[], .nil, by simp, List.nodup_nil⟩
  | cons x l ih =>
      rw [ofListMap.loop] at h
      cases hx : f x with
      | error e => simp only [hx, reduceCtorEq] at h
      | ok p =>
          simp only [hx] at h
          split at h
          · cases h
          · rename_i hmem
            have hacc := contains_eq_false_iff.mp (Bool.eq_false_of_not_eq_true hmem)
            obtain ⟨ps, hps, hfresh, hnodup⟩ := ih h
            have hne : ∀ q ∈ ps, q.1 ≠ p.1 := by
              intro q hq heq
              have hnone := hfresh q hq
              rw [getElem?_insert_eq, if_pos heq] at hnone
              cases hnone
            refine ⟨p :: ps, .cons hx hps, ?_, ?_⟩
            · intro q hq
              rcases List.mem_cons.mp hq with rfl | hq
              · exact hacc
              · have hnone := hfresh q hq
                rwa [getElem?_insert_eq, if_neg (hne q hq)] at hnone
            · refine List.nodup_cons.mpr ⟨fun hmem => ?_, hnodup⟩
              obtain ⟨q, hq, heq⟩ := List.mem_map.mp hmem
              exact hne q hq heq

/-- The loop stops at the first key that it has seen before. -/
theorem ofListMap_loop_eq_duplicate {l : List α} {acc : StringMap β} {k : Bytes}
    (h : ofListMap.loop f acc l = .ok (.error k)) :
    ∃ l₁ y l₂ v, l = l₁ ++ y :: l₂ ∧ f y = .ok (k, v) ∧
      (acc[k]? ≠ none ∨ ∃ x ∈ l₁, ∃ v, f x = .ok (k, v)) := by
  induction l generalizing acc with
  | nil => cases h
  | cons x l ih =>
      rw [ofListMap.loop] at h
      cases hx : f x with
      | error e => simp only [hx, reduceCtorEq] at h
      | ok p =>
          simp only [hx] at h
          split at h
          · rename_i hmem
            cases h
            refine ⟨[], x, l, p.2, rfl, hx, .inl fun hnone => ?_⟩
            rw [contains_eq_false_iff.mpr hnone] at hmem
            cases hmem
          · obtain ⟨l₁, y, l₂, v, rfl, hy, hseen⟩ := ih h
            refine ⟨x :: l₁, y, l₂, v, rfl, hy, ?_⟩
            rcases hseen with hseen | ⟨z, hz, w, hw⟩
            · rw [getElem?_insert_eq] at hseen
              split at hseen
              · rename_i heq
                exact .inr ⟨x, List.mem_cons_self, p.2, by rw [hx, heq]⟩
              · exact .inl hseen
            · exact .inr ⟨z, List.mem_cons_of_mem x hz, w, hw⟩

theorem ofListMap_loop_eq_error {l : List α} {acc : StringMap β} {e : Conv.Exn}
    (h : ofListMap.loop f acc l = .error e) : ∃ x ∈ l, f x = .error e := by
  induction l generalizing acc with
  | nil => cases h
  | cons x l ih =>
      rw [ofListMap.loop] at h
      cases hx : f x with
      | error e' =>
          simp only [hx] at h
          cases h
          exact ⟨x, List.mem_cons_self, hx⟩
      | ok p =>
          simp only [hx] at h
          split at h
          · cases h
          · obtain ⟨y, hy, he⟩ := ih h
            exact ⟨y, List.mem_cons_of_mem x hy, he⟩

theorem ofListMap_filter_cons {x : α} {l l' : List α} {k : Bytes}
    (h : ofListMap.filter f k (x :: l) = .ok l') :
    ∃ p m, f x = .ok p ∧ ofListMap.filter f k l = .ok m ∧
      (if p.1 = k then x :: m else m) = l' := by
  rw [ofListMap.filter] at h
  cases hx : f x with
  | error e => simp only [hx, reduceCtorEq] at h
  | ok p =>
      simp only [hx] at h
      cases hl : ofListMap.filter f k l with
      | error e => simp only [hl, reduceCtorEq] at h
      | ok m =>
          simp only [hl] at h
          exact ⟨p, m, rfl, rfl, Except.ok.inj h⟩

theorem ofListMap_filter_eq_error {l : List α} {k : Bytes} {e : Conv.Exn}
    (h : ofListMap.filter f k l = .error e) : ∃ x ∈ l, f x = .error e := by
  induction l with
  | nil => cases h
  | cons x l ih =>
      rw [ofListMap.filter] at h
      cases hx : f x with
      | error e' =>
          simp only [hx] at h
          cases h
          exact ⟨x, List.mem_cons_self, hx⟩
      | ok p =>
          simp only [hx] at h
          cases hl : ofListMap.filter f k l with
          | error e' =>
              simp only [hl] at h
              cases h
              obtain ⟨y, hy, he⟩ := ih hl
              exact ⟨y, List.mem_cons_of_mem x hy, he⟩
          | ok l' => simp only [hl, reduceCtorEq] at h

theorem two_le_length_filter {l₁ l₂ l' : List α} {x y : α} {k : Bytes} {v w : β}
    (h : ofListMap.filter f k (l₁ ++ y :: l₂) = .ok l') (hx : x ∈ l₁) (hxk : f x = .ok (k, v))
    (hyk : f y = .ok (k, w)) : ∃ a b l, l' = a :: b :: l := by
  have hone : ∀ {l l'} {z : α} {u : β}, ofListMap.filter f k l = .ok l' → z ∈ l →
      f z = .ok (k, u) → ∃ a l'', l' = a :: l'' := by
    intro l
    induction l with
    | nil =>
        intro l' z u _ hz
        exact absurd hz List.not_mem_nil
    | cons z' l ih =>
        intro l' z u h hz hzk
        obtain ⟨p, m, hp, hm, rfl⟩ := ofListMap_filter_cons h
        rcases List.mem_cons.mp hz with rfl | hz
        · rw [hzk] at hp
          cases hp
          exact ⟨z, m, if_pos rfl⟩
        · obtain ⟨a, m', rfl⟩ := ih hm hz hzk
          by_cases hk : p.1 = k
          · exact ⟨z', a :: m', if_pos hk⟩
          · exact ⟨a, m', if_neg hk⟩
  induction l₁ generalizing l' with
  | nil => exact absurd hx List.not_mem_nil
  | cons z l₁ ih =>
      obtain ⟨p, m, hp, hm, rfl⟩ := ofListMap_filter_cons h
      rcases List.mem_cons.mp hx with rfl | hx
      · rw [hxk] at hp
        cases hp
        obtain ⟨a, m', rfl⟩ := hone hm (List.mem_append_right l₁ List.mem_cons_self) hyk
        exact ⟨x, a, m', if_pos rfl⟩
      · obtain ⟨a, b, m', rfl⟩ := ih hm hx
        by_cases hk : p.1 = k
        · exact ⟨z, a, b :: m', if_pos hk⟩
        · exact ⟨a, b, m', if_neg hk⟩

/-- The element found twice is there: the assertion never fails. -/
theorem ofListMap_eq_error {l : List α} {e : Conv.Exn} (h : ofListMap f l = .error e) :
    ∃ x ∈ l, f x = .error e := by
  rw [ofListMap] at h
  cases hloop : ofListMap.loop f ∅ l with
  | error e' =>
      simp only [hloop] at h
      cases h
      exact ofListMap_loop_eq_error hloop
  | ok r =>
      cases r with
      | ok m => simp only [hloop, reduceCtorEq] at h
      | error k =>
          simp only [hloop] at h
          obtain ⟨l₁, y, l₂, w, rfl, hy, hseen⟩ := ofListMap_loop_eq_duplicate hloop
          have hnone : (∅ : StringMap β)[k]? = none := Std.ExtTreeMap.getElem?_empty
          obtain ⟨x, hx, v, hxk⟩ := hseen.resolve_left fun hne => hne hnone
          cases hfilter : ofListMap.filter f k (l₁ ++ y :: l₂) with
          | error e' =>
              simp only [hfilter] at h
              cases h
              exact ofListMap_filter_eq_error hfilter
          | ok l' =>
              obtain ⟨a, b, m, rfl⟩ := two_le_length_filter hfilter hx hxk hy
              simp only [hfilter, reduceCtorEq] at h

theorem ofListMap_loop_eq_ok_iff {l : List α} {m : StringMap β} :
    ofListMap.loop f ∅ l = .ok (.ok m) ↔
      ∃ ps, List.Forall₂ (fun x p => f x = .ok p) l ps ∧ (ps.map Prod.fst).Nodup ∧
        ∀ k v, m[k]? = some v ↔ (k, v) ∈ ps := by
  have hnone (k : Bytes) : (∅ : StringMap β)[k]? = none := Std.ExtTreeMap.getElem?_empty
  constructor
  · intro h
    obtain ⟨ps, hps, hfresh, hnodup⟩ := ofListMap_loop_eq_ok h
    obtain ⟨m', hm', hget⟩ := ofListMap_loop_of_reads hps hfresh hnodup
    rw [h] at hm'
    cases hm'
    refine ⟨ps, hps, hnodup, fun k v => ?_⟩
    rw [hget, hnone]
    simp
  · rintro ⟨ps, hps, hnodup, hget⟩
    obtain ⟨m', hm', hget'⟩ := ofListMap_loop_of_reads hps (fun p _ => hnone p.1) hnodup
    have heq : m' = m := by
      apply Std.ExtTreeMap.ext_getElem?
      intro k
      apply Option.ext
      intro v
      rw [hget, hget', hnone]
      simp
    rw [hm', heq]

/-- A map is read from pairs with different keys, and holds these pairs. -/
theorem ofListMap_eq_ok_iff {l : List α} {m : StringMap β} :
    ofListMap f l = .ok (.ok m) ↔
      ∃ ps, List.Forall₂ (fun x p => f x = .ok p) l ps ∧ (ps.map Prod.fst).Nodup ∧
        ∀ k v, m[k]? = some v ↔ (k, v) ∈ ps := by
  rw [← ofListMap_loop_eq_ok_iff, ofListMap]
  cases ofListMap.loop f ∅ l with
  | error e => simp
  | ok r =>
      cases r with
      | ok m' => simp
      | error k => cases ofListMap.filter f k l <;> simp <;> split <;> simp

end OfListMap

end StringMap

/-! ## Fields -/

namespace Conv

structure Fields where
  unparsed : StringMap Sexp

namespace Fields

def checkEmpty (f : Fields) : Eval Unit :=
  if f.unparsed.isEmpty then .ok ()
  else
    raiseOfSexp "unexpected fields"
      [(lit "unparsed", .list (f.unparsed.toList.map fun p => .list [.atom p.1, p.2]))]

def empty : Fields := ⟨∅⟩

/-- `String.Map.union`, called with an assertion for the keys of both. -/
def merge (a b : Fields) : Eval Fields :=
  if a.unparsed.keys.any b.unparsed.contains then .error .assertFailure
  else .ok ⟨a.unparsed ∪ b.unparsed⟩

def ofField (name : Bytes) (sexp : Sexp) : Fields := ⟨(∅ : StringMap Sexp).insert name sexp⟩

def readField : Sexp → Eval (Bytes × Sexp)
  | .list [.atom s, v] => .ok (s, v)
  | _ => raiseOfSexp "unable to read field" []

def ofSexp : Sexp → Eval Fields
  | .atom _ => raiseOfSexp "Unexpected atom" []
  | .list x =>
    match StringMap.ofListMap readField x with
    | .error e => .error e
    | .ok (.error (s, _, _)) => raiseOfSexp "duplicate fields" [(lit "field", .atom s)]
    | .ok (.ok s) => .ok ⟨s⟩

def optional (t : Fields) (name : Bytes) : Option Sexp × Fields :=
  match t.unparsed[name]? with
  | none => (none, t)
  | some v => (some v, ⟨t.unparsed.erase name⟩)

def required (t : Fields) (name : Bytes) : Eval (Sexp × Fields) :=
  let (r, t) := optional t name
  match r with
  | some s => .ok (s, t)
  | none => raiseOfSexp "missing required field" [(lit "name", .atom name)]

def toSexp (t : Fields) : Sexp :=
  .list (t.unparsed.toList.map fun p => .list [.atom p.1, p.2])

theorem ext_get {a b : Fields} (h : ∀ k : Bytes, a.unparsed[k]? = b.unparsed[k]?) : a = b := by
  cases a
  cases b
  exact congrArg mk (Std.ExtTreeMap.ext_getElem? h)

theorem getElem?_ofField {name k : Bytes} {s : Sexp} :
    (ofField name s).unparsed[k]? = if k = name then some s else none := by
  rw [ofField, StringMap.getElem?_insert_eq, Std.ExtTreeMap.getElem?_empty]

theorem optional_eq (t : Fields) (name : Bytes) :
    t.optional name = (t.unparsed[name]?, ⟨t.unparsed.erase name⟩) := by
  unfold optional
  split
  · rename_i hnone
    rw [hnone]
    refine Prod.ext rfl (ext_get fun k => ?_)
    rw [StringMap.getElem?_erase_eq]
    split
    · rename_i hk
      rw [hk, hnone]
    · rfl
  · rename_i hsome
    rw [hsome]

/-- Fields that have a name in common are never merged. -/
theorem merge_eq_ok_iff {a b c : Fields} :
    merge a b = .ok c ↔
      (∀ k : Bytes, a.unparsed[k]? = none ∨ b.unparsed[k]? = none) ∧
        c = ⟨a.unparsed ∪ b.unparsed⟩ := by
  have hany : a.unparsed.keys.any b.unparsed.contains = true ↔
      ¬ ∀ k : Bytes, a.unparsed[k]? = none ∨ b.unparsed[k]? = none := by
    simp only [List.any_eq_true, Std.ExtTreeMap.mem_keys, ← Std.ExtTreeMap.contains_iff_mem,
      Std.ExtTreeMap.contains_eq_isSome_getElem?, Option.isSome_iff_ne_none]
    push Not
    rfl
  unfold merge
  by_cases h : ∀ k : Bytes, a.unparsed[k]? = none ∨ b.unparsed[k]? = none
  · rw [if_neg (hany.not.mpr (not_not.mpr h)), Except.ok.injEq]
    exact ⟨fun hc => ⟨h, hc.symm⟩, fun hc => hc.2.symm⟩
  · rw [if_pos (hany.mpr h)]
    exact ⟨fun hc => (by cases hc), fun hc => absurd hc.1 h⟩

theorem getElem?_union {a b : StringMap Sexp} {k : Bytes} (h : a[k]? = none ∨ b[k]? = none) :
    (a ∪ b)[k]? = a[k]?.or b[k]? := by
  rw [Std.ExtTreeMap.getElem?_union]
  rcases h with h | h
  · rw [h, Option.or_none, Option.none_or]
  · rw [h, Option.or_none, Option.none_or]

theorem readField_eq_ok {s : Sexp} {p : Bytes × Sexp} :
    readField s = .ok p ↔ s = .list [.atom p.1, p.2] := by
  constructor
  · intro h
    unfold readField at h
    split at h
    · cases h
      rfl
    · cases h
  · rintro rfl
    rfl

theorem readField_eq_error {s : Sexp} {e : Exn} (h : readField s = .error e) :
    e = .ofSexp (.parseError "unable to read field" []) := by
  unfold readField at h
  split at h
  · cases h
  · exact (Except.error.inj h).symm

/-- The accepted expressions are the lists of fields with different names,
whatever their order is. -/
theorem ofSexp_eq_ok_iff {s : Sexp} {f : Fields} :
    ofSexp s = .ok f ↔
      ∃ ps : List (Bytes × Sexp), s = Sexp.record ps ∧ (ps.map Prod.fst).Nodup ∧
        ∀ k v, f.unparsed[k]? = some v ↔ (k, v) ∈ ps := by
  have hlist : ∀ {l : List Sexp} {ps : List (Bytes × Sexp)},
      List.Forall₂ (fun x p => readField x = .ok p) l ps ↔
        Sexp.list l = Sexp.record ps := by
    intro l ps
    simp only [readField_eq_ok]
    rw [Sexp.record, Sexp.list.injEq]
    constructor
    · intro h
      induction h with
      | nil => rfl
      | cons hx _ ih => rw [List.map_cons, hx, ih]
    · rintro rfl
      exact List.forall₂_map_left_iff.mpr (List.forall₂_same.mpr fun _ _ => rfl)
  cases s with
  | atom a =>
      constructor
      · intro h
        cases h
      · rintro ⟨ps, h, -⟩
        cases h
  | list l =>
      have hof : ofSexp (.list l) = .ok f ↔
          StringMap.ofListMap readField l = .ok (.ok f.unparsed) := by
        rw [ofSexp]
        cases StringMap.ofListMap readField l with
        | error e => simp
        | ok r =>
            cases r with
            | error d => simp [raiseOfSexp]
            | ok m =>
                simp only [Except.ok.injEq]
                exact ⟨fun h => by rw [← h], fun h => by rw [h]⟩
      rw [hof, StringMap.ofListMap_eq_ok_iff]
      simp only [hlist]

theorem ofSexp_eq_error {s : Sexp} {e : Exn} (h : ofSexp s = .error e) :
    ∃ message payload, e = .ofSexp (.parseError message payload) := by
  cases s with
  | atom a => exact ⟨_, _, (Except.error.inj h).symm⟩
  | list l =>
      rw [ofSexp] at h
      cases hmap : StringMap.ofListMap readField l with
      | error e' =>
          simp only [hmap] at h
          cases h
          obtain ⟨x, -, hx⟩ := StringMap.ofListMap_eq_error hmap
          exact ⟨_, _, readField_eq_error hx⟩
      | ok r =>
          cases r with
          | ok m => simp only [hmap, reduceCtorEq] at h
          | error d =>
              simp only [hmap] at h
              exact ⟨_, _, (Except.error.inj h).symm⟩

theorem ofSexp_toSexp (f : Fields) : ofSexp f.toSexp = .ok f :=
  ofSexp_eq_ok_iff.mpr ⟨f.unparsed.toList, rfl, StringMap.nodup_keys_toList _,
    fun _ _ => StringMap.mem_toList_iff.symm⟩

theorem record_injective : Function.Injective Sexp.record := by
  intro ps qs h
  apply List.map_injective_iff.mpr ?_ (Sexp.list.inj h)
  intro p q hpq
  simp only [Sexp.list.injEq, List.cons.injEq, Sexp.atom.injEq] at hpq
  exact Prod.ext hpq.1 hpq.2.1

theorem ofSexp_record_perm {ps qs : List (Bytes × Sexp)} {f : Fields} (h : ps.Perm qs)
    (hf : ofSexp (Sexp.record ps) = .ok f) : ofSexp (Sexp.record qs) = .ok f := by
  obtain ⟨ps', heq, hnodup, hget⟩ := ofSexp_eq_ok_iff.mp hf
  cases record_injective heq
  refine ofSexp_eq_ok_iff.mpr ⟨qs, rfl, (h.map Prod.fst).nodup_iff.mp hnodup, ?_⟩
  intro k v
  rw [hget, h.mem_iff]

theorem checkEmpty_eq_ok {f : Fields} :
    f.checkEmpty = .ok () ↔ ∀ k : Bytes, f.unparsed[k]? = none := by
  have hempty : f.unparsed.isEmpty = true ↔ ∀ k : Bytes, f.unparsed[k]? = none := by
    rw [Std.ExtTreeMap.isEmpty_iff]
    constructor
    · rintro h k
      rw [h, Std.ExtTreeMap.getElem?_empty]
    · intro h
      apply Std.ExtTreeMap.ext_getElem?
      intro k
      rw [h, Std.ExtTreeMap.getElem?_empty]
  rw [← hempty, checkEmpty]
  cases f.unparsed.isEmpty <;> simp [raiseOfSexp]

theorem checkEmpty_eq_error {f : Fields} {e : Exn} (h : f.checkEmpty = .error e) :
    ∃ message payload, e = .ofSexp (.parseError message payload) := by
  unfold checkEmpty at h
  split at h
  · cases h
  · exact ⟨_, _, (Except.error.inj h).symm⟩

end Fields

end Conv

end Csexp
