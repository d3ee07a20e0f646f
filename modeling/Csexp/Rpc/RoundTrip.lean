import Csexp.Rpc.Conv
import Csexp.Library.Raising

/-!
# Reading what has been written

A description is well formed if its field names are different, its
constructors and enumerated values have different names, and every function
that comes with it undoes its inverse. What such a description writes it
reads back, out of any record that has its fields.
-/

namespace Csexp.Conv

open Raising

variable {D : Decls}

/-- The names of the fields that a description reads, given those of the cells. -/
def names (cells : D.Cell → List Bytes) : {α : Type} → {k : Kind} → Conv D α k → List Bytes
  | _, _, .iso t _ _ => names cells t
  | _, _, .isoResult t _ _ => names cells t
  | _, _, .version t _ => names cells t
  | _, _, .both x y => names cells x ++ names cells y
  | _, _, .either x y => names cells x ++ names cells y
  | _, _, .field name _ => [name]
  | _, _, .fdecl i => cells i
  | _, _, .sexp => []
  | _, _, .list _ => []
  | _, _, .enum _ _ => []
  | _, _, .sum _ _ => []
  | _, _, .pair _ _ => []
  | _, _, .triple _ _ _ => []
  | _, _, .record _ => []
termination_by structural _ _ t => t

def Constr.name {α β : Type} : Constr D α β → Bytes
  | .mk name _ _ => name

def Constr.inj {α β : Type} : Constr D α β → β → α
  | .mk _ _ inj => inj

def EConstrs.names : {α : Type} → EConstrs D α → List Bytes
  | _, .nil => []
  | _, .cons c rest => c.name :: rest.names
termination_by structural _ cs => cs

/-- The constructor is one of the list. -/
inductive EConstrs.Mem {α β : Type} (c : Constr D α β) : EConstrs D α → Prop where
  | head (rest : EConstrs D α) : EConstrs.Mem c (.cons c rest)
  | tail {γ : Type} (d : Constr D α γ) {rest : EConstrs D α} (h : EConstrs.Mem c rest) :
      EConstrs.Mem c (.cons d rest)

theorem EConstrs.Mem.name_mem {α β : Type} {c : Constr D α β} {cs : EConstrs D α}
    (h : cs.Mem c) : c.name ∈ cs.names := by
  induction h with
  | head rest => exact List.mem_cons_self
  | tail d _ ih => exact List.mem_cons_of_mem d.name ih

/-- The interpretation of the cells when reading. -/
abbrev Reader (D : Decls) := ∀ i, (D.kind i).Ctx → Eval (D.type i × (D.kind i).Ret)

mutual

def WellFormed (cells : D.Cell → List Bytes) (get : Reader D) (version : ℤ × ℤ) :
    {α : Type} → {k : Kind} → Conv D α k → Prop
  | _, _, .iso t to_ from_ =>
    WellFormed cells get version t ∧ ∀ b a, from_ b = .ok a → to_ a = .ok b
  | _, _, .isoResult t to_ from_ =>
    WellFormed cells get version t ∧ ∀ b a, from_ b = .ok a → to_ a = .ok (.ok b)
  | _, _, .version t v =>
    WellFormed cells get version t ∧ checkVersion version v = .ok ()
  | _, _, .both x y =>
    WellFormed cells get version x ∧ WellFormed cells get version y ∧
      (names cells x).Disjoint (names cells y)
  -- the second alternative is tried when the first one is not there
  | _, _, .either x y =>
    WellFormed cells get version x ∧ WellFormed cells get version y ∧
      (names cells x).Disjoint (names cells y) ∧
      ∀ f : Fields, (∀ n ∈ names cells x, f.unparsed[n]? = none) →
        ∃ e, ofSexp.loop get version x f = .error (.ofSexp e)
  | _, _, .sexp => True
  | _, _, .list t => WellFormed cells get version t
  | _, _, .field _ spec => spec.WellFormed cells get version
  | _, _, .enum _ choices => (choices.map Prod.fst).Nodup
  | α, _, .sum constrs case =>
    constrs.WellFormed cells get version ∧ constrs.names.Nodup ∧
      ∀ a, ∃ (β : Type) (c : Constr D α β) (arg : β),
        case a = .mk arg c ∧ constrs.Mem c ∧ c.inj arg = a
  | _, _, .pair x y => WellFormed cells get version x ∧ WellFormed cells get version y
  | _, _, .triple x y z =>
    WellFormed cells get version x ∧ WellFormed cells get version y ∧
      WellFormed cells get version z
  | _, _, .fdecl _ => True
  | _, _, .record r => WellFormed cells get version r
termination_by structural _ _ t => t

def Field.WellFormed (cells : D.Cell → List Bytes) (get : Reader D) (version : ℤ × ℤ) :
    {α : Type} → Field D α → Prop
  | _, .required t => Conv.WellFormed cells get version t
  | _, .optional t => Conv.WellFormed cells get version t
termination_by structural _ spec => spec

def Constr.WellFormed (cells : D.Cell → List Bytes) (get : Reader D) (version : ℤ × ℤ) :
    {α β : Type} → Constr D α β → Prop
  | _, _, .mk _ arg _ => Conv.WellFormed cells get version arg
termination_by structural _ _ c => c

def EConstrs.WellFormed (cells : D.Cell → List Bytes) (get : Reader D) (version : ℤ × ℤ) :
    {α : Type} → EConstrs D α → Prop
  | _, .nil => True
  | _, .cons c rest => c.WellFormed cells get version ∧ rest.WellFormed cells get version
termination_by structural _ constrs => constrs

end

/-- `dec` reads `a` back. Fields are read out of any record that agrees with
what was written on the given names, and are removed from it. -/
def Kind.Reads {α : Type} (names : List Bytes) (a : α) :
    (k : Kind) → (dec : k.Ctx → Eval (α × k.Ret)) → k.Ctx → Prop
  | .values, dec, s => dec s = .ok (a, ())
  | .fields, dec, f =>
    (∀ n : Bytes, n ∉ names → f.unparsed[n]? = none) ∧
      ∀ g : Fields, (∀ n ∈ names, g.unparsed[n]? = f.unparsed[n]?) →
        ∃ g', dec g = .ok (a, g') ∧
          ∀ n : Bytes, g'.unparsed[n]? = if n ∈ names then none else g.unparsed[n]?

theorem loopConstr_of_ne {get : Reader D} {version : ℤ × ℤ} {α β : Type} {c : Constr D α β}
    {head : Bytes} {args : Sexp} (h : head ≠ c.name) :
    ofSexp.loopConstr get version head args c = none := by
  cases c with
  | mk name arg inj => exact if_neg h

theorem lookup_eq_of_nodup {α : Type} {l : List (Bytes × α)} (hnodup : (l.map Prod.fst).Nodup)
    {k : Bytes} {a : α} (h : (k, a) ∈ l) : l.lookup k = some a := by
  induction l with
  | nil => exact absurd h List.not_mem_nil
  | cons p l ih =>
      obtain ⟨hp, hnodup⟩ := List.nodup_cons.mp hnodup
      rcases List.mem_cons.mp h with rfl | h
      · exact List.lookup_cons_self
      · have hne : (k == p.1) = false :=
          beq_false_of_ne fun heq => hp (heq ▸ List.mem_map_of_mem (f := Prod.fst) h)
        rw [List.lookup_cons, hne]
        exact ih hnodup h

/-- An error returned by the function of an `iso_result` is raised. -/
theorem loop_isoResult {get : Reader D} {version : ℤ × ℤ} {α β : Type} {k : Kind}
    (t : Conv D α k) (to_ : α → Eval (Except Exn β)) (from_ : β → Eval α) :
    ofSexp.loop get version (.isoResult t to_ from_) =
      ofSexp.loop get version (.iso t (fun a => (to_ a).bind id) from_) := by
  funext ctx
  rw [ofSexp.loop, ofSexp.loop]
  cases ofSexp.loop get version t ctx with
  | error e => rfl
  | ok p =>
      simp only [bind, Except.bind]
      cases to_ p.1 with
      | error e => rfl
      | ok r => cases r <;> rfl

/-! ## Fields -/

theorem reads_empty {α : Type} {name : Bytes} {a : α}
    {dec : Fields → Eval (α × Fields)}
    (h : ∀ g : Fields, g.unparsed[name]? = none → dec g = .ok (a, ⟨g.unparsed.erase name⟩)) :
    Kind.Reads [name] a .fields dec Fields.empty := by
  refine ⟨fun n _ => Std.ExtTreeMap.getElem?_empty, fun g hg => ⟨_, h g ?_, fun n => ?_⟩⟩
  · rw [hg name (List.mem_singleton_self name), Fields.empty, Std.ExtTreeMap.getElem?_empty]
  · rw [StringMap.getElem?_erase_eq]
    simp only [List.mem_singleton]

theorem reads_ofField {α : Type} {name : Bytes} {s : Sexp} {a : α}
    {dec : Fields → Eval (α × Fields)}
    (h : ∀ g : Fields, g.unparsed[name]? = some s → dec g = .ok (a, ⟨g.unparsed.erase name⟩)) :
    Kind.Reads [name] a .fields dec (Fields.ofField name s) := by
  refine ⟨fun n hn => ?_, fun g hg => ⟨_, h g ?_, fun n => ?_⟩⟩
  · rw [Fields.getElem?_ofField, if_neg fun heq => hn (List.mem_singleton.mpr heq)]
  · rw [hg name (List.mem_singleton_self name), Fields.getElem?_ofField, if_pos rfl]
  · rw [StringMap.getElem?_erase_eq]
    simp only [List.mem_singleton]

theorem reads_both {α β : Type} {ns ms : List Bytes} {a : α} {b : β} {f f' g : Fields}
    {dec : Fields → Eval (α × Fields)} {dec' : Fields → Eval (β × Fields)}
    (hdisj : ns.Disjoint ms) (ha : Kind.Reads ns a .fields dec f)
    (hb : Kind.Reads ms b .fields dec' f') (hmerge : Fields.merge f f' = .ok g) :
    Kind.Reads (ns ++ ms) (a, b) .fields
      (fun ctx => do
        let (a, k) ← dec ctx
        let (b, k) ← dec' k
        .ok ((a, b), k)) g := by
  obtain ⟨hf, ha⟩ := ha
  obtain ⟨hf', hb⟩ := hb
  obtain ⟨hkeys, rfl⟩ := Fields.merge_eq_ok_iff.mp hmerge
  have hget (n : Bytes) := Fields.getElem?_union (hkeys n)
  refine ⟨fun n hn => ?_, fun ctx hctx => ?_⟩
  · obtain ⟨hn, hm⟩ := not_or.mp (List.mem_append.not.mp hn)
    rw [hget, hf n hn, hf' n hm, Option.none_or]
  -- the fields of the first description are not among those of the second
  have hctx₁ : ∀ n ∈ ns, ctx.unparsed[n]? = f.unparsed[n]? := by
    intro n hn
    rw [hctx n (List.mem_append_left ms hn), hget, hf' n (hdisj hn), Option.or_none]
  obtain ⟨k, hk, hkget⟩ := ha ctx hctx₁
  have hctx₂ : ∀ n ∈ ms, k.unparsed[n]? = f'.unparsed[n]? := by
    intro n hm
    have hn : n ∉ ns := fun hn => hdisj hn hm
    rw [hkget, if_neg hn, hctx n (List.mem_append_right ns hm), hget, hf n hn, Option.none_or]
  obtain ⟨k', hk', hkget'⟩ := hb k hctx₂
  refine ⟨k', ?_, fun n => ?_⟩
  · simp only [hk, hk', bind, Except.bind]
  · rw [hkget', hkget]
    simp only [List.mem_append]
    split_ifs <;> grind

theorem reads_record {α : Type} {ns : List Bytes} {a : α} {f : Fields}
    {dec : Fields → Eval (α × Fields)} (h : Kind.Reads ns a .fields dec f) :
    Kind.Reads [] a .values
      (fun ctx => do
        let fields ← Fields.ofSexp ctx
        let (a, f) ← dec fields
        f.checkEmpty
        .ok (a, ())) f.toSexp := by
  obtain ⟨hf, ha⟩ := h
  obtain ⟨k, hk, hkget⟩ := ha f fun _ _ => rfl
  have hempty : k.checkEmpty = .ok () := by
    rw [Fields.checkEmpty_eq_ok]
    intro n
    rw [hkget]
    split
    · rfl
    · rename_i hn
      exact hf n hn
  simp only [Kind.Reads, Fields.ofSexp_toSexp, hk, hempty, bind, Except.bind]

theorem reads_map {α β : Type} {k : Kind} {ns : List Bytes} {a : α} {b : β} {x : k.Ctx}
    {dec : k.Ctx → Eval (α × k.Ret)} {f : α → Eval β} (h : Kind.Reads ns a k dec x)
    (hf : f a = .ok b) :
    Kind.Reads ns b k
      (fun ctx => do
        let (a, k) ← dec ctx
        let a ← f a
        .ok (a, k)) x := by
  cases k with
  | values =>
      have hdec : dec x = .ok (a, ()) := h
      simp only [Kind.Reads, hdec, hf, bind, Except.bind]
  | fields =>
      refine ⟨h.1, fun g hg => ?_⟩
      obtain ⟨g', hg', hget⟩ := h.2 g hg
      refine ⟨g', ?_, hget⟩
      simp only [hg', hf, bind, Except.bind]

theorem reads_mono {α : Type} {ns ms : List Bytes} {a : α} {f : Fields}
    {dec : Fields → Eval (α × Fields)} (hsub : ns ⊆ ms) (h : Kind.Reads ns a .fields dec f) :
    Kind.Reads ms a .fields dec f := by
  refine ⟨fun n hn => h.1 n fun hmem => hn (hsub hmem), fun g hg => ?_⟩
  obtain ⟨g', hg', hget⟩ := h.2 g fun n hn => hg n (hsub hn)
  refine ⟨g', hg', fun n => ?_⟩
  rw [hget]
  by_cases hn : n ∈ ns
  · rw [if_pos hn, if_pos (hsub hn)]
  · by_cases hm : n ∈ ms
    · rw [if_neg hn, if_pos hm, hg n hm, h.1 n hn]
    · rw [if_neg hn, if_neg hm]

theorem reads_left {α β : Type} {ns ms : List Bytes} {a : α} {f : Fields}
    {dec : Fields → Eval (α × Fields)} {dec' : Fields → Eval (β × Fields)}
    (h : Kind.Reads ns a .fields dec f) :
    Kind.Reads (ns ++ ms) (Sum.inl a) .fields
      (fun ctx =>
        match dec ctx with
        | .ok (a, x) => .ok (.inl a, x)
        | .error (.ofSexp _) => do
          let (a, y) ← dec' ctx
          .ok (.inr a, y)
        | .error e => .error e) f := by
  have hleft := reads_mono (List.subset_append_left ns ms) h
  refine ⟨hleft.1, fun g hg => ?_⟩
  obtain ⟨g', hg', hget⟩ := hleft.2 g hg
  exact ⟨g', by simp only [hg'], hget⟩

theorem reads_right {α β : Type} {ns ms : List Bytes} {b : β} {f : Fields}
    {dec : Fields → Eval (α × Fields)} {dec' : Fields → Eval (β × Fields)}
    (hdisj : ns.Disjoint ms)
    (habsent : ∀ g : Fields, (∀ n ∈ ns, g.unparsed[n]? = none) →
      ∃ e, dec g = .error (.ofSexp e))
    (h : Kind.Reads ms b .fields dec' f) :
    Kind.Reads (ns ++ ms) (Sum.inr b) .fields
      (fun ctx =>
        match dec ctx with
        | .ok (a, x) => .ok (.inl a, x)
        | .error (.ofSexp _) => do
          let (a, y) ← dec' ctx
          .ok (.inr a, y)
        | .error e => .error e) f := by
  have hright := reads_mono (List.subset_append_right ns ms) h
  refine ⟨hright.1, fun g hg => ?_⟩
  obtain ⟨g', hg', hget⟩ := hright.2 g hg
  have hnone : ∀ n ∈ ns, g.unparsed[n]? = none := fun n hn => by
    rw [hg n (List.mem_append_left ms hn), h.1 n (hdisj hn)]
  obtain ⟨e, he⟩ := habsent g hnone
  refine ⟨g', ?_, hget⟩
  simp only [he, hg', bind, Except.bind]

/-! ## All descriptions -/

section Reads

variable {cells : D.Cell → List Bytes} {write : ∀ i, D.type i → Eval (D.kind i).Ctx}
  {get : Reader D} {version : ℤ × ℤ}

mutual

theorem loop_reads (hcell : ∀ i a x, write i a = .ok x → Kind.Reads (cells i) a _ (get i) x) :
    {α : Type} → {k : Kind} → (t : Conv D α k) → t.WellFormed cells get version →
      ∀ a x, toSexp.loop write t a = .ok x →
        Kind.Reads (names cells t) a k (ofSexp.loop get version t) x
  | _, _, .sexp, _, a, x, h => by
      cases h
      rfl
  | _, k, .version t v, hwf, a, x, h => by
      have hread := loop_reads hcell t hwf.1 a x h
      have hloop : ofSexp.loop get version (.version t v) = ofSexp.loop get version t := by
        funext ctx
        simp only [ofSexp.loop, hwf.2, bind, Except.bind]
      rw [hloop]
      exact hread
  | _, _, .fdecl i, _, a, x, h => hcell i a x h
  | _, _, .list t, hwf, l, s, h => by
      obtain ⟨xs, hxs, h⟩ := bind_eq_ok_iff.mp h
      cases h
      have hmap : (xs.mapM fun x => do
          let (a, _) ← ofSexp.loop get version t x
          .ok a) = .ok l := by
        refine mapM_eq_ok_iff.mpr (List.Forall₂.imp ?_ (mapM_eq_ok_iff.mp hxs).flip)
        intro x a hx
        have hread : ofSexp.loop get version t x = .ok (a, ()) := loop_reads hcell t hwf a x hx
        simp only [hread, bind, Except.bind]
      exact bind_eq_ok_iff.mpr ⟨l, hmap, rfl⟩
  | _, _, .pair x y, hwf, (a, b), s, h => by
      obtain ⟨s₂, hs₂, h⟩ := bind_eq_ok_iff.mp h
      obtain ⟨s₁, hs₁, h⟩ := bind_eq_ok_iff.mp h
      cases h
      have hx : ofSexp.loop get version x s₁ = .ok (a, ()) := loop_reads hcell x hwf.1 a s₁ hs₁
      have hy : ofSexp.loop get version y s₂ = .ok (b, ()) := loop_reads hcell y hwf.2 b s₂ hs₂
      simp only [Kind.Reads, ofSexp.loop, hx, hy, bind, Except.bind]
  | _, _, .triple x y z, hwf, (a, b, c), s, h => by
      obtain ⟨s₃, hs₃, h⟩ := bind_eq_ok_iff.mp h
      obtain ⟨s₂, hs₂, h⟩ := bind_eq_ok_iff.mp h
      obtain ⟨s₁, hs₁, h⟩ := bind_eq_ok_iff.mp h
      cases h
      have hx : ofSexp.loop get version x s₁ = .ok (a, ()) := loop_reads hcell x hwf.1 a s₁ hs₁
      have hy : ofSexp.loop get version y s₂ = .ok (b, ()) :=
        loop_reads hcell y hwf.2.1 b s₂ hs₂
      have hz : ofSexp.loop get version z s₃ = .ok (c, ()) :=
        loop_reads hcell z hwf.2.2 c s₃ hs₃
      simp only [Kind.Reads, ofSexp.loop, hx, hy, hz, bind, Except.bind]
  | _, _, .record r, hwf, a, s, h => by
      obtain ⟨f, hf, h⟩ := bind_eq_ok_iff.mp h
      cases h
      exact reads_record (loop_reads hcell r hwf a f hf)
  | _, _, .field name spec, hwf, a, f, h => loopField_reads hcell name spec hwf a f h
  | _, _, .iso t to_ from_, hwf, b, x, h => by
      obtain ⟨a, ha, h⟩ := bind_eq_ok_iff.mp h
      exact reads_map (loop_reads hcell t hwf.1 a x h) (hwf.2 b a ha)
  | _, _, .isoResult t to_ from_, hwf, b, x, h => by
      obtain ⟨a, ha, h⟩ := bind_eq_ok_iff.mp h
      have hto : (to_ a).bind id = .ok b := by
        rw [hwf.2 b a ha]
        rfl
      have hread := reads_map (f := fun a => (to_ a).bind id)
        (loop_reads hcell t hwf.1 a x h) hto
      rw [loop_isoResult]
      exact hread
  | _, _, .both x y, hwf, a, f, h => by
      obtain ⟨f₁, hf₁, h⟩ := bind_eq_ok_iff.mp h
      obtain ⟨f₂, hf₂, h⟩ := bind_eq_ok_iff.mp h
      exact reads_both hwf.2.2 (loop_reads hcell x hwf.1 a.1 f₁ hf₁)
        (loop_reads hcell y hwf.2.1 a.2 f₂ hf₂) h
  | _, _, .either x y, hwf, .inl a, f, h => reads_left (loop_reads hcell x hwf.1 a f h)
  | _, _, .either x y, hwf, .inr b, f, h =>
      reads_right hwf.2.2.1 hwf.2.2.2 (loop_reads hcell y hwf.2.1 b f h)
  | _, _, .sum constrs case, hwf, a, s, h => by
      obtain ⟨hcs, hnodup, hcase⟩ := hwf
      obtain ⟨β, c, arg, ha, hmem, rfl⟩ := hcase a
      have hwrite : toSexp.loopConstr write c arg = .ok s := by
        rw [toSexp.loop, ha] at h
        exact h
      obtain ⟨args, rfl, hfind⟩ := findMap_reads hcell constrs hcs hnodup c hmem arg s hwrite
      simp only [Kind.Reads, ofSexp.loop, hfind]
  | _, _, .enum eq choices, hwf, a, s, h => by
      rw [toSexp.loop] at h
      split at h
      · rename_i v hv
        cases h
        obtain ⟨p, hp, hpv⟩ := List.exists_of_findSome?_eq_some hv
        have hpair : (v, a) ∈ choices := by
          split at hpv
          · rename_i ha
            rw [ha, ← Option.some.inj hpv]
            exact hp
          · cases hpv
        have hlookup := lookup_eq_of_nodup hwf hpair
        simp only [Kind.Reads, ofSexp.loop, hlookup]
      · cases h
termination_by structural _ _ t => t

theorem loopField_reads
    (hcell : ∀ i a x, write i a = .ok x → Kind.Reads (cells i) a _ (get i) x) (name : Bytes) :
    {α : Type} → (spec : Field D α) → spec.WellFormed cells get version →
      ∀ a f, toSexp.loopField write name spec a = .ok f →
        Kind.Reads [name] a .fields (ofSexp.loopField get version name spec) f
  | _, .required t, hwf, a, f, h => by
      obtain ⟨s, hs, h⟩ := bind_eq_ok_iff.mp h
      cases h
      have hread : ofSexp.loop get version t s = .ok (a, ()) := loop_reads hcell t hwf a s hs
      apply reads_ofField
      intro g hg
      simp only [ofSexp.loopField, Fields.required, Fields.optional_eq, hg, hread, bind,
        Except.bind]
  | _, .optional t, hwf, none, f, h => by
      cases h
      apply reads_empty
      intro g hg
      simp only [ofSexp.loopField, Fields.optional_eq, hg]
  | _, .optional t, hwf, some a, f, h => by
      obtain ⟨s, hs, h⟩ := bind_eq_ok_iff.mp h
      cases h
      have hread : ofSexp.loop get version t s = .ok (a, ()) := loop_reads hcell t hwf a s hs
      apply reads_ofField
      intro g hg
      simp only [ofSexp.loopField, Fields.optional_eq, hg, hread, bind, Except.bind]
termination_by structural _ spec => spec

theorem loopConstr_reads
    (hcell : ∀ i a x, write i a = .ok x → Kind.Reads (cells i) a _ (get i) x) :
    {α β : Type} → (c : Constr D α β) → c.WellFormed cells get version →
      ∀ a s, toSexp.loopConstr write c a = .ok s →
        ∃ args, s = .list [.atom c.name, args] ∧
          ofSexp.loopConstr get version c.name args c = some (.ok (c.inj a, ()))
  | _, _, .mk name t inj, hwf, a, s, h => by
      obtain ⟨args, hargs, h⟩ := bind_eq_ok_iff.mp h
      cases h
      have hread : ofSexp.loop get version t args = .ok (a, ()) :=
        loop_reads hcell t hwf a args hargs
      refine ⟨args, rfl, ?_⟩
      simp only [ofSexp.loopConstr, Constr.name, if_true, hread, bind, Except.bind, Constr.inj]
termination_by structural _ _ c => c

theorem findMap_reads
    (hcell : ∀ i a x, write i a = .ok x → Kind.Reads (cells i) a _ (get i) x) :
    {α : Type} → (cs : EConstrs D α) → cs.WellFormed cells get version → cs.names.Nodup →
      ∀ {β : Type} (c : Constr D α β), cs.Mem c → ∀ a s,
        toSexp.loopConstr write c a = .ok s →
          ∃ args, s = .list [.atom c.name, args] ∧
            ofSexp.findMap get version c.name args cs = some (.ok (c.inj a, ()))
  | _, .nil, _, _, _, c, hc, _, _, _ => by
      cases hc
  | _, .cons d rest, hwf, hnodup, _, c, hc, a, s, h => by
      obtain ⟨hd, hnodup⟩ := List.nodup_cons.mp hnodup
      cases hc with
      | head =>
          obtain ⟨args, hs, hread⟩ := loopConstr_reads hcell _ hwf.1 a s h
          exact ⟨args, hs, by simp only [ofSexp.findMap, hread]⟩
      | tail _ hc =>
          obtain ⟨args, hs, hread⟩ := findMap_reads hcell rest hwf.2 hnodup c hc a s h
          have hne : c.name ≠ d.name := fun heq => hd (heq ▸ hc.name_mem)
          exact ⟨args, hs, by simp only [ofSexp.findMap, loopConstr_of_ne hne, hread]⟩
termination_by structural _ cs => cs

end

end Reads

/-! ## Recursive descriptions -/

/-- Every cell holds a well-formed description of the fields it stands for. -/
def Env.WellFormed (env : Env D) (cells : D.Cell → List Bytes) (version : ℤ × ℤ) : Prop :=
  ∀ fuel i t, env i = some t →
    t.WellFormed cells (env.read version fuel) version ∧ names cells t = cells i

/-- Reading enters no cell more often than writing did. -/
theorem Env.WellFormed.reads {env : Env D} {cells : D.Cell → List Bytes} {version : ℤ × ℤ}
    (henv : env.WellFormed cells version) {fuel fuel' : ℕ} (hfuel : fuel ≤ fuel') (i : D.Cell)
    (a : D.type i) (x : (D.kind i).Ctx) (h : env.write fuel i a = .ok x) :
    Kind.Reads (cells i) a _ (env.read version fuel' i) x := by
  induction fuel generalizing fuel' i with
  | zero => cases h
  | succ fuel ih =>
      obtain ⟨fuel', rfl⟩ : ∃ n, fuel' = n + 1 := ⟨fuel' - 1, by omega⟩
      rw [Env.write] at h
      cases ht : env i with
      | none =>
          rw [ht] at h
          cases h
      | some t =>
          rw [ht] at h
          obtain ⟨hwf, hnames⟩ := henv fuel' i t ht
          have hread := loop_reads (fun i a x => ih (by omega) i a x) t hwf a x h
          have hcell : env.read version (fuel' + 1) i =
              ofSexp.loop (env.read version fuel') version t := by
            funext ctx
            rw [Env.read, ht]
          rw [hcell, ← hnames]
          exact hread

theorem ofSexp_of_toSexp {env : Env D} {cells : D.Cell → List Bytes} {version : ℤ × ℤ}
    (henv : env.WellFormed cells version) {α : Type} {t : Conv D α .values}
    (ht : ∀ fuel, t.WellFormed cells (env.read version fuel) version) {fuel fuel' : ℕ} {a : α}
    {s : Sexp} (h : toSexp env fuel t a = .ok s) (hfuel : fuel ≤ fuel') :
    ofSexp env fuel' t version s = .ok (.ok a) := by
  have hread : ofSexp.loop (env.read version fuel') version t s = .ok (a, ()) :=
    loop_reads (henv.reads hfuel) t (ht fuel') a s h
  simp only [ofSexp, hread]

/-- A value written with a well-formed description is read back as it was,
so that no two values are written alike. -/
theorem round_trip {env : Env D} {cells : D.Cell → List Bytes} {version : ℤ × ℤ}
    (henv : env.WellFormed cells version) {α : Type} {t : Conv D α .values}
    (ht : ∀ fuel, t.WellFormed cells (env.read version fuel) version) {fuel : ℕ} {a : α}
    {s : Sexp} (h : toSexp env fuel t a = .ok s) :
    (∀ fuel', fuel ≤ fuel' → ofSexp env fuel' t version s = .ok (.ok a)) ∧
    ∀ fuel' b, toSexp env fuel' t b = .ok s → a = b := by
  refine ⟨fun fuel' hfuel => ofSexp_of_toSexp henv ht h hfuel, fun fuel' b hb => ?_⟩
  have ha := ofSexp_of_toSexp henv ht h (Nat.le_max_left fuel fuel')
  rw [ofSexp_of_toSexp henv ht hb (Nat.le_max_right fuel fuel')] at ha
  cases ha
  rfl

/-! ## A description of trees -/

namespace Tree

def decls : Decls := ⟨Unit, fun _ => Sexp, fun _ => .values⟩

def atom : Constr decls Sexp Bytes := .mk (lit "Atom") string .atom

def list : Constr decls Sexp (List Sexp) := .mk (lit "List") (.list (.fdecl ())) .list

def sexp : Conv decls Sexp .values :=
  .sum (.cons atom (.cons list .nil)) fun s =>
    match s with
    | .atom a => .mk a atom
    | .list l => .mk l list

def env : Env decls := fun _ => some sexp

theorem sexp_wellFormed (get : Reader decls) (version : ℤ × ℤ) :
    sexp.WellFormed (fun _ => []) get version := by
  refine ⟨⟨⟨trivial, fun b a h => ?_⟩, trivial, trivial⟩, ?_, fun s => ?_⟩
  · cases h
    rfl
  · change List.Nodup [lit "Atom", lit "List"]
    decide
  · cases s with
    | atom a => exact ⟨_, _, a, rfl, .head _, rfl⟩
    | list l => exact ⟨_, _, l, rfl, .tail _ (.head _), rfl⟩

end Tree

theorem round_trip_sample : ∃ s, toSexp Tree.env 2 Tree.sexp (.list [.atom (lit "a")]) = .ok s ∧
    ofSexp Tree.env 2 Tree.sexp (1, 0) s = .ok (.ok (.list [.atom (lit "a")])) := by
  have henv : Tree.env.WellFormed (fun _ => []) (1, 0) := by
    rintro fuel i t ⟨⟩
    exact ⟨Tree.sexp_wellFormed _ _, rfl⟩
  obtain ⟨s, hs⟩ : ∃ s, toSexp Tree.env 2 Tree.sexp (.list [.atom (lit "a")]) = .ok s := ⟨_, rfl⟩
  exact ⟨s, hs, (round_trip henv (fun _ => Tree.sexp_wellFormed _ _) hs).1 2 le_rfl⟩

end Csexp.Conv
