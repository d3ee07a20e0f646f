import Csexp.Rpc.RoundTrip
import Csexp.Library.Raising

/-!
# Reading anything

A description is guarded if the functions that come with it raise nothing
but `Of_sexp` and a cell is entered only below a constructor, a list or a
record. Reading any expression with such a description ends with a value or
an `Of_sexp`: no cell is entered more often than the expression is deep.
-/

namespace Csexp

mutual

def Sexp.depth : Sexp → ℕ
  | .atom _ => 0
  | .list l => Sexp.depthList l + 1

def Sexp.depthList : List Sexp → ℕ
  | [] => 0
  | x :: l => max x.depth (Sexp.depthList l)

end

theorem Sexp.depth_lt_of_mem {x : Sexp} {l : List Sexp} (h : x ∈ l) :
    x.depth < (Sexp.list l).depth := by
  rw [Sexp.depth, Nat.lt_succ_iff]
  induction l with
  | nil => exact absurd h List.not_mem_nil
  | cons y l ih =>
      rw [Sexp.depthList]
      rcases List.mem_cons.mp h with rfl | h
      · exact le_max_left _ _
      · exact (ih h).trans (le_max_right _ _)

namespace Conv

open Raising

variable {D : Decls}

def IsOfSexp (e : Exn) : Prop := ∃ e', e = .ofSexp e'

theorem raises_raiseOfSexp {α : Type} (message : String) (payload : List (Bytes × Sexp)) :
    Raises IsOfSexp (raiseOfSexp message payload : Eval α) :=
  raises_error ⟨_, rfl⟩

mutual

/-- With `head` the description stands for a cell itself and must not enter
one on the same expression. -/
def Guarded (env : Env D) (head : Bool) : {α : Type} → {k : Kind} → Conv D α k → Prop
  | _, _, .iso t to_ _ => Guarded env head t ∧ ∀ a, Raises IsOfSexp (to_ a)
  | _, _, .isoResult t to_ _ => Guarded env head t ∧ ∀ a, Raises IsOfSexp ((to_ a).bind id)
  | _, _, .version t _ => Guarded env head t
  | _, _, .both x y => Guarded env head x ∧ Guarded env head y
  | _, _, .either x y => Guarded env head x ∧ Guarded env head y
  | _, _, .sexp => True
  | _, _, .list t => Guarded env false t
  | _, _, .field _ spec => spec.Guarded env head
  | _, _, .enum _ _ => True
  | _, _, .sum constrs _ => constrs.Guarded env
  | _, _, .pair x y => Guarded env false x ∧ Guarded env false y
  | _, _, .triple x y z => Guarded env false x ∧ Guarded env false y ∧ Guarded env false z
  | _, _, .fdecl i => head = false ∧ env i ≠ none
  | _, _, .record r => Guarded env false r
termination_by structural _ _ t => t

def Field.Guarded (env : Env D) (head : Bool) : {α : Type} → Field D α → Prop
  | _, .required t => Conv.Guarded env head t
  | _, .optional t => Conv.Guarded env head t
termination_by structural _ spec => spec

def Constr.Guarded (env : Env D) : {α β : Type} → Constr D α β → Prop
  | _, _, .mk _ arg _ => Conv.Guarded env false arg
termination_by structural _ _ c => c

def EConstrs.Guarded (env : Env D) : {α : Type} → EConstrs D α → Prop
  | _, .nil => True
  | _, .cons c rest => c.Guarded env ∧ rest.Guarded env
termination_by structural _ cs => cs

end

/-- All expressions to be read are less than `n` deep. -/
def Kind.Within (n : ℕ) : (k : Kind) → k.Ctx → Prop
  | .values, s => s.depth < n
  | .fields, f => ∀ (k : Bytes) (v : Sexp), f.unparsed[k]? = some v → v.depth < n

def Kind.RetWithin (n : ℕ) : (k : Kind) → k.Ret → Prop
  | .values, _ => True
  | .fields, f => Kind.Within n .fields f

/-- Reading raises nothing but `Of_sexp` and does not make expressions deeper. -/
def Kind.Safe {α : Type} (n : ℕ) (k : Kind) (dec : k.Ctx → Eval (α × k.Ret)) : Prop :=
  ∀ ctx, k.Within n ctx →
    Raises IsOfSexp (dec ctx) ∧ ∀ a r, dec ctx = .ok (a, r) → k.RetWithin n r

/-! ## Fields -/

theorem within_of_ofSexp {s : Sexp} {f : Fields} {n : ℕ} (hs : s.depth < n + 1)
    (h : Fields.ofSexp s = .ok f) : Kind.Within n .fields f := by
  obtain ⟨ps, rfl, -, hget⟩ := Fields.ofSexp_eq_ok_iff.mp h
  intro k v hv
  have hmem : Sexp.list [.atom k, v] ∈ ps.map fun p => Sexp.list [.atom p.1, p.2] :=
    List.mem_map.mpr ⟨(k, v), (hget k v).mp hv, rfl⟩
  have hfield := Sexp.depth_lt_of_mem hmem
  have hvalue : v.depth < (Sexp.list [.atom k, v]).depth := Sexp.depth_lt_of_mem (by simp)
  rw [Sexp.record] at hs
  omega

theorem Kind.Within.optional {f : Fields} {n : ℕ} (h : Kind.Within n .fields f) (name : Bytes) :
    (∀ v, (f.optional name).1 = some v → v.depth < n) ∧
      Kind.Within n .fields (f.optional name).2 := by
  rw [Fields.optional_eq]
  refine ⟨fun v hv => h name v hv, fun k v hv => ?_⟩
  rw [StringMap.getElem?_erase_eq] at hv
  split at hv
  · cases hv
  · exact h k v hv

theorem Kind.Within.required {f : Fields} {n : ℕ} (h : Kind.Within n .fields f) (name : Bytes) :
    Raises IsOfSexp (f.required name) ∧
      ∀ p, f.required name = .ok p → p.1.depth < n ∧ Kind.Within n .fields p.2 := by
  obtain ⟨hfield, hrest⟩ := h.optional name
  unfold Fields.required
  generalize f.optional name = p at hfield hrest
  obtain ⟨r, t⟩ := p
  cases r with
  | none => exact ⟨raises_raiseOfSexp _ _, fun p hp => by cases hp⟩
  | some s =>
      refine ⟨raises_ok _, fun p hp => ?_⟩
      cases hp
      exact ⟨hfield s rfl, hrest⟩

theorem safe_record {α : Type} {n : ℕ} {dec : Fields → Eval (α × Fields)}
    (h : Kind.Safe n .fields dec) :
    Kind.Safe (n + 1) .values (fun ctx => do
      let fields ← Fields.ofSexp ctx
      let (a, f) ← dec fields
      f.checkEmpty
      .ok (a, ())) := by
  intro s hs
  refine ⟨?_, fun _ _ _ => trivial⟩
  refine Raises.bind ?_ fun f hf => ?_
  · intro e he
    obtain ⟨message, payload, rfl⟩ := Fields.ofSexp_eq_error he
    exact ⟨_, rfl⟩
  refine (h f (within_of_ofSexp hs hf)).1.bind fun p _ => ?_
  refine Raises.bind ?_ fun _ _ => raises_ok _
  intro e he
  obtain ⟨message, payload, rfl⟩ := Fields.checkEmpty_eq_error he
  exact ⟨_, rfl⟩

theorem safe_both {α β : Type} {n : ℕ} {dec : Fields → Eval (α × Fields)}
    {dec' : Fields → Eval (β × Fields)} (h : Kind.Safe n .fields dec)
    (h' : Kind.Safe n .fields dec') :
    Kind.Safe n .fields (fun ctx => do
      let (a, k) ← dec ctx
      let (b, k) ← dec' k
      .ok ((a, b), k)) := by
  intro ctx hctx
  have hrest : ∀ p, dec ctx = .ok p → Kind.Within n .fields p.2 := fun p => (h ctx hctx).2 p.1 p.2
  constructor
  · refine (h ctx hctx).1.bind fun p hp => ?_
    exact (h' p.2 (hrest p hp)).1.bind fun q _ => raises_ok _
  · intro a r hr
    obtain ⟨p, hp, hr⟩ := bind_eq_ok_iff.mp hr
    obtain ⟨q, hq, hr⟩ := bind_eq_ok_iff.mp hr
    cases hr
    exact (h' p.2 (hrest p hp)).2 q.1 q.2 hq

theorem safe_either {α β : Type} {n : ℕ} {dec : Fields → Eval (α × Fields)}
    {dec' : Fields → Eval (β × Fields)} (h : Kind.Safe n .fields dec)
    (h' : Kind.Safe n .fields dec') :
    Kind.Safe n .fields (fun ctx =>
      match dec ctx with
      | .ok (a, x) => .ok (Sum.inl a, x)
      | .error (.ofSexp _) => do
        let (a, y) ← dec' ctx
        .ok (.inr a, y)
      | .error e => .error e) := by
  intro ctx hctx
  dsimp only
  cases hx : dec ctx with
  | ok p =>
      refine ⟨raises_ok _, fun a r hr => ?_⟩
      cases hr
      exact (h ctx hctx).2 _ _ hx
  | error e =>
      obtain ⟨e, rfl⟩ := (h ctx hctx).1 e hx
      refine ⟨(h' ctx hctx).1.bind fun q _ => raises_ok _, fun a r hr => ?_⟩
      obtain ⟨q, hq, hr⟩ := bind_eq_ok_iff.mp hr
      cases hr
      exact (h' ctx hctx).2 q.1 q.2 hq

theorem safe_map {α β : Type} {k : Kind} {n : ℕ} {dec : k.Ctx → Eval (α × k.Ret)}
    {f : α → Eval β} (h : Kind.Safe n k dec) (hf : ∀ a, Raises IsOfSexp (f a)) :
    Kind.Safe n k (fun ctx => do
      let (a, k) ← dec ctx
      let a ← f a
      .ok (a, k)) := by
  intro ctx hctx
  constructor
  · refine (h ctx hctx).1.bind fun p _ => ?_
    exact (hf p.1).bind fun b _ => raises_ok _
  · intro a r hr
    obtain ⟨p, hp, hr⟩ := bind_eq_ok_iff.mp hr
    obtain ⟨b, hb, hr⟩ := bind_eq_ok_iff.mp hr
    cases hr
    exact (h ctx hctx).2 p.1 p.2 hp

/-! ## All descriptions -/

section Safe

variable {env : Env D} {version : ℤ × ℤ} {n : ℕ}
  {get : ∀ i, (D.kind i).Ctx → Eval (D.type i × (D.kind i).Ret)}

theorem raises_checkVersion (v : Version) : Raises IsOfSexp (checkVersion version v) := by
  unfold checkVersion
  split
  · exact raises_error ⟨_, rfl⟩
  · exact raises_ok ()

theorem exists_within {l : List Sexp} {m : ℕ} (h : Kind.Within m .values (.list l)) :
    ∃ m', m = m' + 1 ∧ ∀ x ∈ l, x.depth < m' := by
  have hm : (Sexp.list l).depth < m := h
  refine ⟨m - 1, by omega, fun x hx => ?_⟩
  have hlt := Sexp.depth_lt_of_mem hx
  omega

mutual

/-- At the head of a cell the expression may be as deep as the one that the
cell was entered on, elsewhere it is less deep. -/
theorem loop_safe
    (hcell : ∀ i, env i ≠ none → ∀ m < n, Kind.Safe m (D.kind i) (get i)) (head : Bool) :
    {α : Type} → {k : Kind} → (t : Conv D α k) → t.Guarded env head → ∀ m ≤ n,
      (head = false → m < n) → Kind.Safe m k (ofSexp.loop get version t)
  | _, _, .sexp, _, m, _, _ => fun ctx _ => ⟨raises_ok _, fun _ _ _ => trivial⟩
  | _, k, .version t v, hg, m, hm, hhead => by
      intro ctx hctx
      have hsafe := loop_safe hcell head t hg m hm hhead ctx hctx
      refine ⟨(raises_checkVersion v).bind fun _ _ => hsafe.1, fun a r hr => ?_⟩
      obtain ⟨_, -, hr⟩ := bind_eq_ok_iff.mp hr
      exact hsafe.2 a r hr
  | _, _, .fdecl i, hg, m, _, hhead => hcell i hg.2 m (hhead hg.1)
  | _, _, .list t, hg, m, hm, _ => by
      intro ctx hctx
      refine ⟨?_, fun _ _ _ => trivial⟩
      cases ctx with
      | atom s => exact raises_raiseOfSexp _ _
      | list xs =>
          obtain ⟨m, rfl, hxs⟩ := exists_within hctx
          refine Raises.bind (Raises.mapM fun x hx => ?_) fun l _ => raises_ok _
          have hsafe := loop_safe hcell false t hg m (by omega) (fun _ => hm) x (hxs x hx)
          exact hsafe.1.bind fun p _ => raises_ok _
  | _, _, .pair x y, hg, m, hm, _ => by
      intro ctx hctx
      refine ⟨?_, fun _ _ _ => trivial⟩
      unfold ofSexp.loop
      split
      · rename_i a b
        obtain ⟨m, rfl, hdepth⟩ := exists_within hctx
        have hx := loop_safe hcell false x hg.1 m (by omega) (fun _ => hm) a (hdepth a (by simp))
        have hy := loop_safe hcell false y hg.2 m (by omega) (fun _ => hm) b (hdepth b (by simp))
        exact hx.1.bind fun _ _ => hy.1.bind fun _ _ => raises_ok _
      · exact raises_raiseOfSexp _ _
  | _, _, .triple x y z, hg, m, hm, _ => by
      intro ctx hctx
      refine ⟨?_, fun _ _ _ => trivial⟩
      unfold ofSexp.loop
      split
      · rename_i a b c
        obtain ⟨m, rfl, hdepth⟩ := exists_within hctx
        have hx := loop_safe hcell false x hg.1 m (by omega) (fun _ => hm) a (hdepth a (by simp))
        have hy := loop_safe hcell false y hg.2.1 m (by omega) (fun _ => hm) b
          (hdepth b (by simp))
        have hz := loop_safe hcell false z hg.2.2 m (by omega) (fun _ => hm) c
          (hdepth c (by simp))
        exact hx.1.bind fun _ _ => hy.1.bind fun _ _ => hz.1.bind fun _ _ => raises_ok _
      · exact raises_raiseOfSexp _ _
  | _, _, .record r, hg, m, hm, _ => by
      cases m with
      | zero => exact fun ctx hctx => absurd hctx (Nat.not_lt_zero _)
      | succ m => exact safe_record (loop_safe hcell false r hg m (by omega) fun _ => hm)
  | _, _, .field name spec, hg, m, hm, hhead => loopField_safe hcell head name spec hg m hm hhead
  | _, _, .iso t to_ from_, hg, m, hm, hhead =>
      safe_map (loop_safe hcell head t hg.1 m hm hhead) hg.2
  | _, k, .isoResult t to_ from_, hg, m, hm, hhead => by
      rw [loop_isoResult]
      exact safe_map (loop_safe hcell head t hg.1 m hm hhead) hg.2
  | _, _, .both x y, hg, m, hm, hhead =>
      safe_both (loop_safe hcell head x hg.1 m hm hhead) (loop_safe hcell head y hg.2 m hm hhead)
  | _, _, .either x y, hg, m, hm, hhead =>
      safe_either (loop_safe hcell head x hg.1 m hm hhead)
        (loop_safe hcell head y hg.2 m hm hhead)
  | _, _, .sum constrs case, hg, m, hm, _ => by
      intro ctx hctx
      refine ⟨?_, fun _ _ _ => trivial⟩
      unfold ofSexp.loop
      split
      · rename_i head args
        obtain ⟨m, rfl, hdepth⟩ := exists_within hctx
        split
        · exact raises_raiseOfSexp _ _
        · rename_i x hx
          exact findMap_safe hcell hm head (hdepth args (by simp)) constrs hg x hx
      · exact raises_raiseOfSexp _ _
  | _, _, .enum eq choices, _, m, _, _ => by
      intro ctx _
      refine ⟨?_, fun _ _ _ => trivial⟩
      unfold ofSexp.loop
      split
      · exact raises_raiseOfSexp _ _
      · split
        · exact raises_raiseOfSexp _ _
        · exact raises_ok _
termination_by structural _ _ t => t

theorem loopField_safe
    (hcell : ∀ i, env i ≠ none → ∀ m < n, Kind.Safe m (D.kind i) (get i)) (head : Bool)
    (name : Bytes) :
    {α : Type} → (spec : Field D α) → spec.Guarded env head → ∀ m ≤ n,
      (head = false → m < n) → Kind.Safe m .fields (ofSexp.loopField get version name spec)
  | _, .required t, hg, m, hm, hhead => by
      intro ctx hctx
      obtain ⟨hraises, hfield⟩ := hctx.required name
      have hsafe := loop_safe hcell head t hg m hm hhead
      refine ⟨hraises.bind fun p hp => ?_, fun a r hr => ?_⟩
      · exact (hsafe p.1 (hfield p hp).1).1.bind fun _ _ => raises_ok _
      · obtain ⟨p, hp, hr⟩ := bind_eq_ok_iff.mp hr
        obtain ⟨q, -, hr⟩ := bind_eq_ok_iff.mp hr
        cases hr
        exact (hfield p hp).2
  | _, .optional t, hg, m, hm, hhead => by
      intro ctx hctx
      obtain ⟨hfield, hrest⟩ := hctx.optional name
      have hsafe := loop_safe hcell head t hg m hm hhead
      rw [ofSexp.loopField]
      cases h : (ctx.optional name).1 with
      | none =>
          simp only [h]
          refine ⟨raises_ok _, fun a r hr => ?_⟩
          cases hr
          exact hrest
      | some s =>
          simp only [h]
          refine ⟨(hsafe s (hfield s h)).1.bind fun _ _ => raises_ok _, fun a r hr => ?_⟩
          obtain ⟨p, -, hr⟩ := bind_eq_ok_iff.mp hr
          cases hr
          exact hrest
termination_by structural _ spec => spec

theorem loopConstr_safe
    (hcell : ∀ i, env i ≠ none → ∀ m < n, Kind.Safe m (D.kind i) (get i)) {m : ℕ}
    (hm : m < n) (name : Bytes) {args : Sexp} (hargs : args.depth < m) :
    {α β : Type} → (c : Constr D α β) → c.Guarded env →
      ∀ x, ofSexp.loopConstr get version name args c = some x → Raises IsOfSexp x
  | _, _, .mk name' t inj, hg, x, h => by
      rw [ofSexp.loopConstr] at h
      split at h
      · cases h
        have hsafe := loop_safe hcell false t hg m hm.le (fun _ => hm) args hargs
        exact hsafe.1.bind fun _ _ => raises_ok _
      · cases h
termination_by structural _ _ c => c

theorem findMap_safe
    (hcell : ∀ i, env i ≠ none → ∀ m < n, Kind.Safe m (D.kind i) (get i)) {m : ℕ}
    (hm : m < n) (name : Bytes) {args : Sexp} (hargs : args.depth < m) :
    {α : Type} → (cs : EConstrs D α) → cs.Guarded env →
      ∀ x, ofSexp.findMap get version name args cs = some x → Raises IsOfSexp x
  | _, .nil, _, x, h => by
      cases h
  | _, .cons c rest, hg, x, h => by
      rw [ofSexp.findMap] at h
      split at h
      · rename_i hy
        cases h
        exact loopConstr_safe hcell hm name hargs c hg.1 x hy
      · exact findMap_safe hcell hm name hargs rest hg.2 x h
termination_by structural _ cs => cs

end

end Safe

/-! ## Totality -/

/-- Every cell is set when it is used, and guarded. -/
def Env.Guarded (env : Env D) : Prop := ∀ i t, env i = some t → t.Guarded env true

theorem Env.Guarded.safe {env : Env D} (henv : env.Guarded) (version : ℤ × ℤ) (n : ℕ)
    (i : D.Cell) (hi : env i ≠ none) (m : ℕ) (hm : m < n) :
    Kind.Safe m (D.kind i) (env.read version n i) := by
  induction n generalizing i m with
  | zero => omega
  | succ n ih =>
      obtain ⟨t, ht⟩ := Option.ne_none_iff_exists'.mp hi
      have hread : env.read version (n + 1) i = ofSexp.loop (env.read version n) version t := by
        funext ctx
        rw [Env.read, ht]
      rw [hread]
      exact loop_safe ih true t (henv i t ht) m (by omega) (fun h => by cases h)

/-- With fuel for its depth, reading an expression returns a value or an error. -/
theorem exists_ofSexp {env : Env D} (henv : env.Guarded) {α : Type} {t : Conv D α .values}
    (ht : t.Guarded env false) (version : ℤ × ℤ) {s : Sexp} {fuel : ℕ}
    (hs : s.depth + 1 < fuel) : ∃ r, ofSexp env fuel t version s = .ok r := by
  have hsafe : Kind.Safe (s.depth + 1) .values (ofSexp.loop (env.read version fuel) version t) :=
    loop_safe (henv.safe version fuel) false t ht _ hs.le fun _ => hs
  cases h : ofSexp.loop (env.read version fuel) version t s with
  | ok p => exact ⟨.ok p.1, by simp only [ofSexp, h]⟩
  | error e =>
      obtain ⟨e, rfl⟩ := (hsafe s (Nat.lt_succ_self _)).1 e h
      exact ⟨.error e, by simp only [ofSexp, h]⟩

/-! ## Fuel -/

section Fuel

variable {get get' : Reader D} {version : ℤ × ℤ}

mutual

/-- Where the cells only give up more often, so does the description. -/
theorem loop_approximates
    (h : ∀ i ctx, Approximates .stackOverflow (get i ctx) (get' i ctx)) :
    {α : Type} → {k : Kind} → (t : Conv D α k) → ∀ ctx,
      Approximates .stackOverflow (ofSexp.loop get version t ctx) (ofSexp.loop get' version t ctx)
  | _, _, .iso t to_ _, ctx => by
      unfold ofSexp.loop
      exact (loop_approximates h t ctx).bind fun _ => approximates_rfl
  | _, _, .isoResult t to_ _, ctx => by
      unfold ofSexp.loop
      exact (loop_approximates h t ctx).bind fun _ => approximates_rfl
  | _, _, .version t v, ctx => by
      unfold ofSexp.loop
      exact approximates_rfl.bind fun _ => loop_approximates h t ctx
  | _, _, .both x y, ctx => by
      unfold ofSexp.loop
      refine (loop_approximates h x ctx).bind fun p => ?_
      exact (loop_approximates h y p.2).bind fun _ => approximates_rfl
  | _, _, .either x y, ctx => by
      unfold ofSexp.loop
      rcases loop_approximates h x ctx with hx | hx
      · rw [hx]
        exact Or.inl rfl
      · rw [hx]
        split
        · exact approximates_rfl
        · exact (loop_approximates h y ctx).bind fun _ => approximates_rfl
        · exact approximates_rfl
  | _, _, .sexp, _ => approximates_rfl
  | _, _, .list t, ctx => by
      unfold ofSexp.loop
      split
      · refine Approximates.bind (Approximates.mapM (fun s => ?_) _) fun _ => approximates_rfl
        exact (loop_approximates h t s).bind fun _ => approximates_rfl
      · exact approximates_rfl
  | _, _, .pair x y, ctx => by
      unfold ofSexp.loop
      split
      · rename_i a b
        refine (loop_approximates h x a).bind fun _ => ?_
        exact (loop_approximates h y b).bind fun _ => approximates_rfl
      · exact approximates_rfl
  | _, _, .triple x y z, ctx => by
      unfold ofSexp.loop
      split
      · rename_i a b c
        refine (loop_approximates h x a).bind fun _ => ?_
        refine (loop_approximates h y b).bind fun _ => ?_
        exact (loop_approximates h z c).bind fun _ => approximates_rfl
      · exact approximates_rfl
  | _, _, .record r, ctx => by
      unfold ofSexp.loop
      refine approximates_rfl.bind fun fields => ?_
      exact (loop_approximates h r fields).bind fun _ => approximates_rfl
  | _, _, .field name spec, ctx => by
      unfold ofSexp.loop
      exact loopField_approximates h name spec ctx
  | _, _, .fdecl i, ctx => h i ctx
  | _, _, .sum constrs case, ctx => by
      unfold ofSexp.loop
      split
      · rename_i head args
        have hfind := findMap_approximates h head args constrs
        revert hfind
        generalize ofSexp.findMap get version head args constrs = x
        generalize ofSexp.findMap get' version head args constrs = x'
        intro hfind
        cases hfind with
        | some hx => exact hx
        | none => exact approximates_rfl
      · exact approximates_rfl
  | _, _, .enum eq choices, _ => approximates_rfl
termination_by structural _ _ t => t

theorem loopField_approximates
    (h : ∀ i ctx, Approximates .stackOverflow (get i ctx) (get' i ctx)) (name : Bytes) :
    {α : Type} → (spec : Field D α) → ∀ ctx, Approximates .stackOverflow
      (ofSexp.loopField get version name spec ctx) (ofSexp.loopField get' version name spec ctx)
  | _, .required t, ctx => by
      unfold ofSexp.loopField
      refine approximates_rfl.bind fun p => ?_
      exact (loop_approximates h t p.1).bind fun _ => approximates_rfl
  | _, .optional t, ctx => by
      unfold ofSexp.loopField
      cases hfield : (ctx.optional name).1 with
      | none =>
          simp only [hfield]
          exact approximates_rfl
      | some s =>
          simp only [hfield]
          exact (loop_approximates h t s).bind fun _ => approximates_rfl
termination_by structural _ spec => spec

theorem loopConstr_approximates
    (h : ∀ i ctx, Approximates .stackOverflow (get i ctx) (get' i ctx)) (head : Bytes)
    (args : Sexp) :
    {α β : Type} → (c : Constr D α β) → Option.Rel (Approximates .stackOverflow)
      (ofSexp.loopConstr get version head args c) (ofSexp.loopConstr get' version head args c)
  | _, _, .mk name t inj => by
      unfold ofSexp.loopConstr
      split
      · exact .some ((loop_approximates h t args).bind fun _ => approximates_rfl)
      · exact .none
termination_by structural _ _ c => c

theorem findMap_approximates
    (h : ∀ i ctx, Approximates .stackOverflow (get i ctx) (get' i ctx)) (head : Bytes)
    (args : Sexp) :
    {α : Type} → (cs : EConstrs D α) → Option.Rel (Approximates .stackOverflow)
      (ofSexp.findMap get version head args cs) (ofSexp.findMap get' version head args cs)
  | _, .nil => .none
  | _, .cons c rest => by
      have hc := loopConstr_approximates h head args c
      unfold ofSexp.findMap
      revert hc
      generalize ofSexp.loopConstr get version head args c = x
      generalize ofSexp.loopConstr get' version head args c = x'
      intro hc
      cases hc with
      | some hx => exact .some hx
      | none => exact findMap_approximates h head args rest
termination_by structural _ cs => cs

end

end Fuel

theorem Env.read_approximates (env : Env D) (version : ℤ × ℤ) {fuel fuel' : ℕ}
    (hfuel : fuel ≤ fuel') (i : D.Cell) (ctx : (D.kind i).Ctx) :
    Approximates .stackOverflow (env.read version fuel i ctx) (env.read version fuel' i ctx) := by
  induction fuel generalizing fuel' i with
  | zero => exact Or.inl rfl
  | succ fuel ih =>
      obtain ⟨fuel', rfl⟩ := Nat.exists_eq_add_of_le' (Nat.one_le_of_lt hfuel)
      have hget := ih (Nat.le_of_succ_le_succ hfuel)
      rw [Env.read, Env.read]
      cases env i with
      | none => exact approximates_rfl
      | some t => exact loop_approximates hget t ctx

theorem ofSexp_approximates (env : Env D) {α : Type} (t : Conv D α .values) (version : ℤ × ℤ)
    (s : Sexp) {fuel fuel' : ℕ} (hfuel : fuel ≤ fuel') :
    Approximates .stackOverflow (ofSexp env fuel t version s) (ofSexp env fuel' t version s) := by
  rw [ofSexp, ofSexp]
  rcases loop_approximates (env.read_approximates version hfuel) t s with h | h
  · rw [h]
    exact Or.inl rfl
  · rw [h]
    exact approximates_rfl

/-- Reading is total: every expression has one result, a value or an error,
which is found with any fuel for the depth of the expression. -/
theorem reading_total {env : Env D} (henv : env.Guarded) {α : Type} {t : Conv D α .values}
    (ht : t.Guarded env false) (version : ℤ × ℤ) (s : Sexp) :
    ∃ r, ∀ fuel, s.depth + 1 < fuel → ofSexp env fuel t version s = .ok r := by
  obtain ⟨r, hr⟩ := exists_ofSexp henv ht version (Nat.lt_succ_self (s.depth + 1))
  refine ⟨r, fun fuel hfuel => ?_⟩
  rcases ofSexp_approximates env t version s hfuel with h | h
  · rw [hr] at h
    cases h
  · exact h ▸ hr

theorem reading_total_sample : ∃ r, ∀ fuel, 3 < fuel →
    ofSexp Tree.env fuel Tree.sexp (1, 0) (.list [.atom (lit "List"), .list []]) = .ok r := by
  have hguarded (head : Bool) : Tree.sexp.Guarded Tree.env head := by
    refine ⟨⟨trivial, fun s => ?_⟩, ⟨rfl, fun h => nomatch h⟩, trivial⟩
    cases s with
    | atom a => exact raises_ok a
    | list l => exact raises_raiseOfSexp _ _
  have henv : Tree.env.Guarded := by
    rintro i t ⟨⟩
    exact hguarded true
  obtain ⟨r, hr⟩ := reading_total henv (hguarded false) (1, 0)
    (.list [.atom (lit "List"), .list []])
  refine ⟨r, fun fuel hfuel => hr fuel ?_⟩
  simp only [Sexp.depth, Sexp.depthList]
  omega

end Conv

end Csexp
