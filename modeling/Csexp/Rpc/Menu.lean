import Csexp.Rpc.Types
import Mathlib.Data.Finset.Max
import Mathlib.Order.Bounds.Basic

/-!
# Version menus

A menu selects one version for each method. It is chosen by one end from
the versions that both ends know, and does not depend on which end chooses.
-/

namespace Csexp

namespace StringMap

variable {α β : Type}

def ofList.loop (acc : StringMap α) : List (Bytes × α) → Except (Bytes × α × α) (StringMap α)
  | [] => .ok acc
  | (k, v) :: l =>
    match acc[k]? with
    | none => ofList.loop (acc.insert k v) l
    | some vOld => .error (k, vOld, v)

def ofList (l : List (Bytes × α)) : Except (Bytes × α × α) (StringMap α) := ofList.loop ∅ l

def ofListExn (l : List (Bytes × α)) : Conv.Eval (StringMap α) :=
  match ofList l with
  | .ok x => .ok x
  | .error _ => .error (.codeError "Map.of_list_exn")

def ofListMapExn (f : α → Conv.Eval (Bytes × β)) (l : List α) : Conv.Eval (StringMap β) :=
  match ofListMap f l with
  | .error e => .error e
  | .ok (.ok x) => .ok x
  | .ok (.error _) => .error (.codeError "Map.of_list_map_exn")

theorem ofList_loop_eq_ok_iff {l : List (Bytes × α)} {acc m : StringMap α} :
    ofList.loop acc l = .ok m ↔ ofListMap.loop (fun p => .ok p) acc l = .ok (.ok m) := by
  induction l generalizing acc with
  | nil => simp [ofList.loop, ofListMap.loop]
  | cons p l ih =>
      obtain ⟨k, v⟩ := p
      rw [ofList.loop, ofListMap.loop]
      cases hk : acc[k]? with
      | none => simp only [contains_eq_false_iff.mpr hk, ih, Bool.false_eq_true, if_false]
      | some vOld =>
          have hmem : acc.contains k = true := by
            rw [Std.ExtTreeMap.contains_eq_isSome_getElem?, hk, Option.isSome_some]
          simp [hmem]

theorem ofList_eq_ok_iff {l : List (Bytes × α)} {m : StringMap α} :
    ofList l = .ok m ↔ (l.map Prod.fst).Nodup ∧ ∀ k v, m[k]? = some v ↔ (k, v) ∈ l := by
  rw [ofList, ofList_loop_eq_ok_iff, ofListMap_loop_eq_ok_iff]
  constructor
  · rintro ⟨ps, hps, h⟩
    obtain rfl : l = ps := by
      rw [← List.forall₂_eq_eq_eq]
      exact hps.imp fun _ _ heq => Except.ok.inj heq
    exact h
  · intro h
    exact ⟨l, List.forall₂_same.mpr fun _ _ => rfl, h⟩

theorem exists_ofList {l : List (Bytes × α)} (h : (l.map Prod.fst).Nodup) :
    ∃ m, ofList l = .ok m := by
  have hl : List.Forall₂ (fun x p => (.ok x : Conv.Eval (Bytes × α)) = .ok p) l l :=
    List.forall₂_same.mpr fun _ _ => rfl
  obtain ⟨m, hm, -⟩ := ofListMap_loop_of_reads hl
    (fun _ _ => (Std.ExtTreeMap.getElem?_empty : (∅ : StringMap α)[_]? = none)) h
  exact ⟨m, ofList_loop_eq_ok_iff.mpr hm⟩

/-- The pairs of a map make up the map. -/
theorem ofList_toList (m : StringMap α) : ofList m.toList = .ok m :=
  ofList_eq_ok_iff.mpr ⟨m.nodup_keys_toList, fun _ _ => mem_toList_iff.symm⟩

end StringMap

namespace Rpc

/-! ## Menus -/

abbrev Menu (V : Type) := StringMap V

namespace Menu

variable {V : Type} [LinearOrder V]

/-- `Method.Version.Set.max_elt`. -/
def maxElt (s : Finset V) : Option V := if h : s.Nonempty then some (s.max' h) else none

def selectCommon.select (localVersions : StringMap (Finset V)) :
    Bytes × List V → Option (Bytes × V)
  | (method, remoteVersions) => do
    let localVersions ← localVersions[method]?
    let greatestCommonVersion ← maxElt (remoteVersions.toFinset ∩ localVersions)
    some (method, greatestCommonVersion)

def selectCommon (localVersions : StringMap (Finset V)) (remoteVersions : List (Bytes × List V)) :
    Conv.Eval (Option (Menu V)) :=
  let selectedVersions := remoteVersions.filterMap (selectCommon.select localVersions)
  match selectedVersions with
  | [] => .ok none
  | _ :: _ =>
    match StringMap.ofListExn selectedVersions with
    | .error e => .error e
    | .ok m => .ok (some m)

/-- The versions of the methods that a server knows, by the list of the
procedures that are registered with it. -/
def knownVersions (registered : List (Bytes × List V)) : Conv.Eval (StringMap (Finset V)) :=
  StringMap.ofListMapExn (fun (name, gens) => .ok (name, gens.toFinset)) registered

/-! ## What is selected -/

theorem maxElt_eq_some_iff {s : Finset V} {v : V} :
    maxElt s = some v ↔ IsGreatest {w | w ∈ s} v := by
  unfold maxElt
  split_ifs with h
  · rw [Option.some_inj]
    exact ⟨fun hv => hv ▸ s.isGreatest_max' h, fun hv => (s.isGreatest_max' h).unique hv⟩
  · constructor
    · intro hv
      cases hv
    · intro hv
      exact absurd ⟨v, hv.1⟩ h

/-- The versions of a method in a list of procedures. -/
def Lists (l : List (Bytes × List V)) (method : Bytes) (v : V) : Prop :=
  ∃ vs, (method, vs) ∈ l ∧ v ∈ vs

omit [LinearOrder V] in
/-- In a list without repeated names, the versions under a name are those of
the one entry that it has. -/
theorem Lists.mem {l : List (Bytes × List V)} (hnodup : (l.map Prod.fst).Nodup) {name : Bytes}
    {vs : List V} (hvs : (name, vs) ∈ l) {v : V} (hv : Lists l name v) : v ∈ vs := by
  obtain ⟨vs', hvs', hv⟩ := hv
  have heq := List.inj_on_of_nodup_map hnodup hvs hvs' rfl
  rwa [(Prod.mk.inj heq).2]

theorem knownVersions_eq_ok_iff {l : List (Bytes × List V)} {m : StringMap (Finset V)} :
    knownVersions l = .ok m ↔ (l.map Prod.fst).Nodup ∧
      ∀ method s, m[method]? = some s ↔ ∃ vs, (method, vs) ∈ l ∧ vs.toFinset = s := by
  have hexn : knownVersions l = .ok m ↔
      StringMap.ofListMap (fun (name, gens) => .ok (name, gens.toFinset)) l = .ok (.ok m) := by
    rw [knownVersions, StringMap.ofListMapExn]
    rcases StringMap.ofListMap _ l with e | e | m' <;> simp
  rw [hexn, StringMap.ofListMap_eq_ok_iff]
  have hread (ps : List (Bytes × Finset V)) :
      List.Forall₂ (fun (x : Bytes × List V) p => (.ok (x.1, x.2.toFinset) : Conv.Eval _) = .ok p)
        l ps ↔ ps = l.map fun p => (p.1, p.2.toFinset) := by
    rw [eq_comm, ← List.forall₂_eq_eq_eq, List.forall₂_map_left_iff]
    simp only [Except.ok.injEq]
  have hmem (method : Bytes) (s : Finset V) :
      (method, s) ∈ l.map (fun p => (p.1, p.2.toFinset)) ↔
        ∃ vs, (method, vs) ∈ l ∧ vs.toFinset = s := by
    rw [List.mem_map]
    constructor
    · rintro ⟨⟨k, vs⟩, hp, heq⟩
      cases heq
      exact ⟨vs, hp, rfl⟩
    · rintro ⟨vs, hp, rfl⟩
      exact ⟨_, hp, rfl⟩
  constructor
  · rintro ⟨ps, hps, hnodup, hget⟩
    rw [(hread ps).mp hps] at hnodup hget
    rw [List.map_map] at hnodup
    exact ⟨hnodup, fun method s => (hget method s).trans (hmem method s)⟩
  · rintro ⟨hnodup, hget⟩
    refine ⟨_, (hread _).mpr rfl, by rwa [List.map_map], fun method s => ?_⟩
    exact (hget method s).trans (hmem method s).symm

theorem select_eq_some_iff {localVersions : StringMap (Finset V)} {p : Bytes × List V}
    {method : Bytes} {v : V} :
    selectCommon.select localVersions p = some (method, v) ↔ p.1 = method ∧
      IsGreatest {w | w ∈ p.2 ∧ ∃ s, localVersions[method]? = some s ∧ w ∈ s} v := by
  obtain ⟨k, vs⟩ := p
  simp only [selectCommon.select, Option.bind_eq_bind, Option.bind_eq_some_iff, maxElt_eq_some_iff,
    Option.some.injEq, Prod.mk.injEq, Finset.mem_inter, List.mem_toFinset]
  constructor
  · rintro ⟨s, hs, w, hw, rfl, rfl⟩
    simpa [hs] using hw
  · rintro ⟨rfl, hv⟩
    obtain ⟨s, hs, hmem⟩ := hv.1.2
    refine ⟨s, hs, v, ?_, rfl, rfl⟩
    simpa [hs] using hv

theorem selected_keys (localVersions : StringMap (Finset V)) (r : List (Bytes × List V)) :
    List.Sublist ((r.filterMap (selectCommon.select localVersions)).map Prod.fst)
      (r.map Prod.fst) := by
  induction r with
  | nil => exact .slnil
  | cons p r ih =>
      cases hp : selectCommon.select localVersions p with
      | none =>
          rw [List.filterMap_cons_none hp]
          exact ih.cons _
      | some q =>
          rw [List.filterMap_cons_some hp, List.map_cons, List.map_cons,
            ← (select_eq_some_iff.mp hp).1]
          exact ih.cons_cons _

section Spec

variable {l r : List (Bytes × List V)} {localVersions remoteVersions : StringMap (Finset V)}

theorem knownVersions_lists (hl : knownVersions l = .ok localVersions) {method : Bytes} {w : V} :
    (∃ s, localVersions[method]? = some s ∧ w ∈ s) ↔ Lists l method w := by
  obtain ⟨-, hget⟩ := knownVersions_eq_ok_iff.mp hl
  constructor
  · rintro ⟨s, hs, hw⟩
    obtain ⟨vs, hvs, rfl⟩ := (hget method s).mp hs
    exact ⟨vs, hvs, List.mem_toFinset.mp hw⟩
  · rintro ⟨vs, hvs, hw⟩
    exact ⟨vs.toFinset, (hget _ _).mpr ⟨vs, hvs, rfl⟩, List.mem_toFinset.mpr hw⟩

/-- Of a list without repeated names, each method is selected that has a
common version, with the greatest of them. -/
theorem mem_selected_iff (hl : knownVersions l = .ok localVersions) (hr : (r.map Prod.fst).Nodup)
    {method : Bytes} {v : V} : (method, v) ∈ r.filterMap (selectCommon.select localVersions) ↔
      IsGreatest {w | Lists l method w ∧ Lists r method w} v := by
  have hset {vs : List V} (hvs : (method, vs) ∈ r) :
      {w | w ∈ vs ∧ ∃ s, localVersions[method]? = some s ∧ w ∈ s} =
        {w | Lists l method w ∧ Lists r method w} := by
    ext w
    rw [Set.mem_ofPred_eq, Set.mem_ofPred_eq, knownVersions_lists hl, and_comm]
    exact and_congr_right fun _ => ⟨fun hw => ⟨vs, hvs, hw⟩, fun hw => hw.mem hr hvs⟩
  rw [List.mem_filterMap]
  constructor
  · rintro ⟨⟨k, vs⟩, hp, hsel⟩
    obtain ⟨rfl, hv⟩ := select_eq_some_iff.mp hsel
    rwa [hset hp] at hv
  · intro hv
    obtain ⟨-, vs, hvs, hw⟩ := hv.1
    refine ⟨(method, vs), hvs, select_eq_some_iff.mpr ⟨rfl, ?_⟩⟩
    rwa [hset hvs]

/-- Where there is a common version there is a greatest one. -/
theorem exists_greatest {method : Bytes} {w : V} (hl : Lists l method w) (hr : Lists r method w) :
    ∃ v, IsGreatest {w | Lists l method w ∧ Lists r method w} v := by
  classical
  let s := (r.flatMap Prod.snd).toFinset.filter fun w => Lists l method w ∧ Lists r method w
  have hs : ∀ w, w ∈ s ↔ Lists l method w ∧ Lists r method w := by
    intro w
    refine Finset.mem_filter.trans (and_iff_right_of_imp ?_)
    rintro ⟨-, vs, hvs, hw⟩
    exact List.mem_toFinset.mpr (List.mem_flatMap.mpr ⟨_, hvs, hw⟩)
  have hne : s.Nonempty := ⟨w, (hs w).mpr ⟨hl, hr⟩⟩
  refine ⟨s.max' hne, (hs _).mp (s.max'_mem hne), fun v hv => ?_⟩
  exact s.le_max' v ((hs v).mpr hv)

theorem selectCommon_cases (hl : knownVersions l = .ok localVersions)
    (hr : (r.map Prod.fst).Nodup) :
    (selectCommon localVersions r = .ok none ∧
      ∀ method w, Lists l method w → ¬ Lists r method w) ∨
    ∃ m : Menu V, selectCommon localVersions r = .ok (some m) ∧
      (∃ method w, Lists l method w ∧ Lists r method w) ∧
      ∀ (method : Bytes) v, m[method]? = some v ↔
        IsGreatest {w | Lists l method w ∧ Lists r method w} v := by
  have hmem (method : Bytes) (v : V) :
      (method, v) ∈ r.filterMap (selectCommon.select localVersions) ↔
        IsGreatest {w | Lists l method w ∧ Lists r method w} v := mem_selected_iff hl hr
  have hnodup := hr.sublist (selected_keys localVersions r)
  rw [selectCommon]
  generalize r.filterMap (selectCommon.select localVersions) = selected at hmem hnodup
  cases selected with
  | nil =>
      refine Or.inl ⟨rfl, fun method w h h' => ?_⟩
      obtain ⟨v, hv⟩ := exists_greatest h h'
      cases (hmem method v).mpr hv
  | cons p ps =>
      obtain ⟨m, hm⟩ := StringMap.exists_ofList hnodup
      have hget := (StringMap.ofList_eq_ok_iff.mp hm).2
      refine Or.inr ⟨m, ?_, ⟨p.1, p.2, ?_⟩, fun method v => ?_⟩
      · simp only [StringMap.ofListExn, hm]
      · exact ((hmem p.1 p.2).mp List.mem_cons_self).1
      · rw [hget, hmem]

/-- The menu does not depend on the end that selects it. It has exactly the
methods of which both ends know a common version, with the greatest of
these; without such a method there is no menu. -/
theorem menus_agree (hl : knownVersions l = .ok localVersions)
    (hr : knownVersions r = .ok remoteVersions) :
    selectCommon localVersions r = selectCommon remoteVersions l ∧
    ((selectCommon localVersions r = .ok none ∧
      ∀ method w, Lists l method w → ¬ Lists r method w) ∨
    ∃ m : Menu V, selectCommon localVersions r = .ok (some m) ∧
      (∃ method w, Lists l method w ∧ Lists r method w) ∧
      ∀ (method : Bytes) v, m[method]? = some v ↔
        IsGreatest {w | Lists l method w ∧ Lists r method w} v) := by
  have hcases := selectCommon_cases hl (knownVersions_eq_ok_iff.mp hr).1
  refine ⟨?_, hcases⟩
  rcases hcases with ⟨hnone, hdisj⟩ | ⟨m, hm, ⟨method, w, hw⟩, hget⟩
  · rcases selectCommon_cases hr (knownVersions_eq_ok_iff.mp hl).1 with
      ⟨hnone', -⟩ | ⟨m', -, ⟨method, w, hw⟩, -⟩
    · rw [hnone, hnone']
    · exact absurd hw.1 (hdisj method w hw.2)
  · rcases selectCommon_cases hr (knownVersions_eq_ok_iff.mp hl).1 with
      ⟨-, hdisj⟩ | ⟨m', hm', -, hget'⟩
    · exact absurd hw.1 (hdisj method w hw.2)
    · have heq : m = m' := by
        refine Std.ExtTreeMap.ext_getElem? fun k => Option.ext fun v => ?_
        rw [hget, hget']
        simp only [and_comm]
      rw [hm, hm', heq]

/-- Two versions of one method in common, and a method of one end only. -/
theorem menus_agree_sample :
    let l : List (Bytes × List ℤ) := [(lit "ping", [1, 2]), (lit "build", [1])]
    let r : List (Bytes × List ℤ) := [(lit "ping", [3, 2, 1])]
    ∃ localVersions remoteVersions m, knownVersions l = .ok localVersions ∧
      knownVersions r = .ok remoteVersions ∧ selectCommon localVersions r = .ok (some m) ∧
      selectCommon remoteVersions l = .ok (some m) := by
  intro l r
  obtain ⟨localVersions, hl⟩ : ∃ m, knownVersions l = .ok m := ⟨_, rfl⟩
  obtain ⟨remoteVersions, hr⟩ : ∃ m, knownVersions r = .ok m := ⟨_, rfl⟩
  obtain ⟨hcomm, ⟨-, hdisj⟩ | ⟨m, hm, -⟩⟩ := menus_agree hl hr
  · exact absurd ⟨[3, 2, 1], by decide, by decide⟩
      (hdisj (lit "ping") 2 ⟨[1, 2], by decide, by decide⟩)
  · exact ⟨localVersions, remoteVersions, m, hl, hr, hm, hcomm ▸ hm⟩

end Spec

end Menu

end Rpc

end Csexp
