import Csexp.Rpc.Versioned

/-!
# Registered procedures

What the registry of an end holds after any sequence of registrations, and
why the version that a menu selects is always known to the table in which
it is looked up.
-/

namespace Csexp.Rpc.Versioned

open Raising

variable {V : Type} [LinearOrder V] {D : Conv.Decls} {K : Keys} {S : Type} {F : Type → Type}

theorem getElem?_insert_eq {α : Type*} {m : VersionMap V α} {a k : V} {x : α} :
    (m.insert k x)[a]? = if a = k then some x else m[a]? := by
  rw [Std.ExtTreeMap.getElem?_insert]
  by_cases h : a = k
  · rw [if_pos h, if_pos (Std.LawfulEqCmp.compare_eq_iff_eq.mpr h.symm)]
  · rw [if_neg h, if_neg fun hk => h (Std.LawfulEqCmp.compare_eq_iff_eq.mp hk).symm]

theorem mem_keys_iff {α : Type*} {m : VersionMap V α} {v : V} :
    v ∈ m.keys ↔ ∃ x, m[v]? = some x := by
  rw [VersionMap.keys, Std.ExtTreeMap.mem_keys, Std.ExtTreeMap.mem_iff_isSome_getElem?,
    Option.isSome_iff_exists]

theorem getElem?_addMulti {α : Type} {m : StringMap (List α)} {k name : Bytes} {x : α} :
    (addMulti m k x)[name]? = if name = k then some (x :: m[k]?.getD []) else m[name]? :=
  StringMap.getElem?_insert_eq

namespace Builder

/-! ## One registration -/

theorem foldl_add {G T : Type 1} {pack : T → G} {l : List (V × T)} {acc : VersionMap V G}
    {dups : Finset V} {r : VersionMap V G × Finset V}
    (h : l.foldl (registerGeneric.add pack) (acc, dups) = r) :
    (r.2 = ∅ ↔ dups = ∅ ∧ (l.map Prod.fst).Nodup ∧ ∀ p ∈ l, acc[p.1]? = none) ∧
    (r.2 = ∅ → ∀ v g, r.1[v]? = some g ↔ acc[v]? = some g ∨ ∃ p ∈ l, p.1 = v ∧ pack p.2 = g) := by
  induction l generalizing acc dups with
  | nil =>
      cases h
      simp
  | cons p l ih =>
      obtain ⟨n, gen⟩ := p
      rw [List.foldl_cons, registerGeneric.add] at h
      cases hn : acc[n]? with
      | some g =>
          rw [hn] at h
          have hne : r.2 ≠ ∅ := fun hr => Finset.insert_ne_empty _ _ ((ih h).1.mp hr).1
          refine ⟨iff_of_false hne ?_, fun hr => absurd hr hne⟩
          rintro ⟨-, -, hfresh⟩
          rw [hfresh (n, gen) List.mem_cons_self] at hn
          cases hn
      | none =>
          rw [hn] at h
          obtain ⟨hiff, hget⟩ := ih h
          have hfresh : (∀ p ∈ l, (acc.insert n (pack gen))[p.1]? = none) ↔
              n ∉ l.map Prod.fst ∧ ∀ p ∈ l, acc[p.1]? = none := by
            constructor
            · intro hnone
              refine ⟨fun hmem => ?_, fun p hp => ?_⟩
              · obtain ⟨p, hp, heq⟩ := List.mem_map.mp hmem
                have hp' := hnone p hp
                rw [getElem?_insert_eq, if_pos heq] at hp'
                cases hp'
              · have hp' := hnone p hp
                rw [getElem?_insert_eq] at hp'
                split at hp'
                · cases hp'
                · exact hp'
            · rintro ⟨hnot, hnone⟩ p hp
              have hne : p.1 ≠ n := fun heq => hnot (heq ▸ List.mem_map_of_mem hp)
              rw [getElem?_insert_eq, if_neg hne]
              exact hnone p hp
          constructor
          · rw [hiff, hfresh, List.map_cons, List.nodup_cons, List.forall_mem_cons]
            simp only [hn, true_and]
            tauto
          · intro hr v g
            rw [hget hr, getElem?_insert_eq]
            by_cases hv : v = n
            · subst hv
              simp [hn]
            · simp [hv, Ne.symm hv]

section Register

variable {A A' : Type} {G : A → Type 1} {G' : A' → Type 1} {T : Type 1}
  {t t' : Builder V D K S F} {generations : List (V × T)}
  {registry : FieldWitness (Builder V D K S F) V G} {registryKey : A}
  {other : FieldWitness (Builder V D K S F) V G'} {otherKey : A'} {pack : T → G registryKey}

/-- A registration succeeds for a method that the opposite table does not
have, with versions that are all new, and adds exactly these. -/
theorem registerGeneric_eq_ok_iff :
    t.registerGeneric generations registry registryKey other otherKey pack = .ok t' ↔
      other.get t otherKey = none ∧ (generations.map Prod.fst).Nodup ∧
      (∀ p ∈ generations, ((registry.get t registryKey).getD ∅)[p.1]? = none) ∧
      ∃ all, t' = registry.set t registryKey all ∧ ∀ v g, all[v]? = some g ↔
        ((registry.get t registryKey).getD ∅)[v]? = some g ∨
          ∃ p ∈ generations, p.1 = v ∧ pack p.2 = g := by
  rw [registerGeneric]
  cases other.get t otherKey with
  | some _ => simp
  | none =>
      simp only [true_and]
      generalize hr : generations.foldl _ _ = r
      obtain ⟨all, dups⟩ := r
      obtain ⟨hiff, hget⟩ := foldl_add hr
      simp only [true_and] at hiff hget
      split_ifs with hdups
      · obtain ⟨hnodup, hfresh⟩ := hiff.mp hdups
        simp only [Except.ok.injEq, hnodup, true_and]
        constructor
        · rintro rfl
          exact ⟨hfresh, all, rfl, hget hdups⟩
        · rintro ⟨-, all', rfl, hget'⟩
          congr 1
          refine Std.ExtTreeMap.ext_getElem? fun v => Option.ext fun g => ?_
          rw [hget', hget hdups]
      · constructor
        · intro h
          cases h
        · rintro ⟨hnodup, hfresh, -⟩
          exact absurd (hiff.mpr ⟨hnodup, hfresh⟩) hdups

end Register

theorem lookupMethodGeneric_eq_ok_iff {A : Type} {G : A → Type 1} {t : Builder V D K S F}
    {menu : Menu V} {table : FieldWitness (Builder V D K S F) V G} {key : A} {method : Bytes}
    {subtable : VersionMap V (G key)} {v : V} :
    t.lookupMethodGeneric menu table key method = .ok (subtable, v) ↔
      table.get t key = some subtable ∧ menu[method]? = some v := by
  rw [lookupMethodGeneric]
  cases table.get t key <;> cases menu[method]? <;> simp

theorem prepareRequest_eq [DecidableEq K.Request] {t : Builder V D K S F} {menu : Menu V}
    {env : Conv.Env D} {fuel : ℕ} {decl : K.Request} {v : V}
    {decls : VersionMap V (Generation D (K.Req decl) (K.Resp decl))}
    {g : Generation D (K.Req decl) (K.Resp decl)} (hmenu : menu[K.requestMethod decl]? = some v)
    (hdecl : t.declaredRequests.2.lookup decl = some decls) (hg : decls[v]? = some g) :
    t.prepareRequest env fuel menu decl =
      .ok (.ok (prepareRequest.staged env fuel (K.requestMethod decl) g)) := by
  have hlookup : t.lookupMethodGeneric menu DeclaredRequests (K.requestMethod decl, decl)
      (K.requestMethod decl) = .ok (decls, v) :=
    lookupMethodGeneric_eq_ok_iff.mpr ⟨hdecl, hmenu⟩
  simp only [prepareRequest, hlookup, hg]

theorem handleRequest_eq [Monad F] [MonadExcept Conv.Exn F] {t : Builder V D K S F}
    {menu : Menu V} {env : Conv.Env D} {fuel : ℕ} {sessionVersion : S → ℤ × ℤ} {state : S}
    {n : Call} {v : V} {handlers : VersionMap V (RHandler D S F)} {h : RHandler D S F}
    (hmenu : menu[n.method]? = some v)
    (himpl : t.implementedRequests.lookup n.method = some handlers) (hh : handlers[v]? = some h) :
    t.handleRequest env fuel sessionVersion menu state n =
      handleRequest.run env fuel sessionVersion state n h := by
  have hlookup : t.lookupMethodGeneric menu ImplRequests n.method n.method = .ok (handlers, v) :=
    lookupMethodGeneric_eq_ok_iff.mpr ⟨himpl, hmenu⟩
  simp only [handleRequest, hlookup, hh]

/-! ## The tables -/

section Tables

variable {A : Type} [DecidableEq A] {G : A → Type 1} {method : A → Bytes}
  {declaredKeys : StringMap (List A)} {table : UnivMap fun a => VersionMap V (G a)}

/-- The known keys of a name are the keys of the table that have this method. -/
def KnownKeys (method : A → Bytes) (declaredKeys : StringMap (List A))
    (table : UnivMap fun a => VersionMap V (G a)) : Prop :=
  ∀ name k, (∃ keys, declaredKeys[name]? = some keys ∧ k ∈ keys) ↔
    method k = name ∧ ∃ listing, table.lookup k = some listing

theorem knownKeys_empty :
    KnownKeys method (∅ : StringMap (List A)) (∅ : UnivMap fun a => VersionMap V (G a)) := by
  intro name k
  simp

theorem KnownKeys.insert (h : KnownKeys method declaredKeys table) (k : A)
    (value : VersionMap V (G k)) :
    KnownKeys method (addMulti declaredKeys (method k) k) (table.insert k value) := by
  intro name k'
  have hmulti : (∃ keys, (addMulti declaredKeys (method k) k)[name]? = some keys ∧ k' ∈ keys) ↔
      (name = method k ∧ k' = k) ∨ ∃ keys, declaredKeys[name]? = some keys ∧ k' ∈ keys := by
    rw [getElem?_addMulti]
    by_cases hname : name = method k
    · subst hname
      rw [if_pos rfl]
      cases declaredKeys[method k]? <;> simp
    · simp [hname]
  rw [hmulti, h name k']
  by_cases hk : k' = k
  · subst hk
    simp only [AList.lookup_insert, and_true, Option.some.injEq, exists_eq', eq_comm]
    exact or_iff_left_of_imp And.left
  · simp [hk, AList.lookup_insert_ne hk]

/-- The versions of the declarations in `keys`, those of later keys in front. -/
def generationsOf (table : UnivMap fun a => VersionMap V (G a)) (keys : List A) : List V :=
  keys.foldl (fun acc key => ((table.lookup key).elim [] fun listing => listing.keys) ++ acc) []

theorem mem_generationsOf_iff {keys : List A} {v : V} : v ∈ generationsOf table keys ↔
    ∃ k ∈ keys, ∃ listing, table.lookup k = some listing ∧ v ∈ listing.keys := by
  have hfold : ∀ acc : List V, v ∈ keys.foldl (fun acc key =>
      ((table.lookup key).elim [] fun listing => listing.keys) ++ acc) acc ↔
      v ∈ acc ∨ ∃ k ∈ keys, ∃ listing, table.lookup k = some listing ∧ v ∈ listing.keys := by
    induction keys with
    | nil => simp
    | cons k keys ih =>
        intro acc
        rw [List.foldl_cons, ih, List.mem_append]
        cases hk : table.lookup k with
        | none => simp [hk]
        | some listing =>
            simp [hk]
            tauto
  rw [generationsOf, hfold]
  simp only [List.not_mem_nil, false_or]

theorem KnownKeys.exists_generations (h : KnownKeys method declaredKeys table) (name : Bytes)
    (v : V) : (∃ keys, declaredKeys[name]? = some keys ∧ v ∈ generationsOf table keys) ↔
      ∃ k decls, method k = name ∧ table.lookup k = some decls ∧ ∃ g, decls[v]? = some g := by
  constructor
  · rintro ⟨keys, hkeys, hv⟩
    obtain ⟨k, hk, listing, hl, hv⟩ := mem_generationsOf_iff.mp hv
    exact ⟨k, listing, ((h name k).mp ⟨keys, hkeys, hk⟩).1, hl, mem_keys_iff.mp hv⟩
  · rintro ⟨k, decls, hmethod, hk, hg⟩
    obtain ⟨keys, hkeys, hmem⟩ := (h name k).mpr ⟨hmethod, decls, hk⟩
    exact ⟨keys, hkeys, mem_generationsOf_iff.mpr ⟨k, hmem, decls, hk, mem_keys_iff.mpr hg⟩⟩

theorem batchDeclarations_eq (h : KnownKeys method declaredKeys table) :
    ∃ l, registeredProcedures.batchDeclarations declaredKeys table = .ok l ∧
      ∀ name gens, (name, gens) ∈ l ↔
        ∃ keys, declaredKeys[name]? = some keys ∧ generationsOf table keys = gens := by
  have hinner : ∀ p ∈ declaredKeys.toList, ∀ acc : List (Bytes × List V),
      (do
        let generations ← p.2.foldlM (registeredProcedures.addVersions table) []
        .ok ((p.1, generations) :: acc)) =
      (.ok ((p.1, generationsOf table p.2) :: acc) : Except Conv.Exn _) := by
    intro p hp acc
    have hkeys := StringMap.mem_toList_iff.mp hp
    rw [foldlM_eq_ok (g := fun acc key =>
      ((table.lookup key).elim [] fun listing => listing.keys) ++ acc)]
    · rfl
    · intro k hk acc
      obtain ⟨-, listing, hl⟩ := (h p.1 k).mp ⟨p.2, hkeys, hk⟩
      simp only [registeredProcedures.addVersions, hl, Option.elim_some]
  have hfold := foldlM_eq_ok (g := fun (acc : List (Bytes × List V)) (p : Bytes × List A) =>
    (p.1, generationsOf table p.2) :: acc) hinner []
  rw [List.foldl_flip_cons_eq_append] at hfold
  refine ⟨_, hfold, fun name gens => ?_⟩
  rw [List.append_nil, List.mem_reverse, List.mem_map]
  constructor
  · rintro ⟨p, hp, heq⟩
    cases heq
    exact ⟨p.2, StringMap.mem_toList_iff.mp hp, rfl⟩
  · rintro ⟨keys, hkeys, rfl⟩
    exact ⟨(name, keys), StringMap.mem_toList_iff.mpr hkeys, rfl⟩

theorem mem_batchImplementations_iff {H : Type 1} {table : AList fun _ : Bytes => VersionMap V H}
    {name : Bytes} {gens : List V} :
    (name, gens) ∈ registeredProcedures.batchImplementations table ↔
      ∃ listing, table.lookup name = some listing ∧ listing.keys = gens := by
  rw [registeredProcedures.batchImplementations, List.foldl_flip_cons_eq_append, List.append_nil,
    List.mem_reverse, List.mem_map]
  constructor
  · rintro ⟨p, hp, heq⟩
    cases heq
    exact ⟨p.2, AList.mem_lookup_iff.mpr hp, rfl⟩
  · rintro ⟨listing, hl, rfl⟩
    exact ⟨⟨name, listing⟩, AList.mem_lookup_iff.mp hl, rfl⟩

end Tables

/-! ## Any sequence of registrations -/

variable [DecidableEq K.Request] [DecidableEq K.Notification]

inductive Step (t : Builder V D K S F) : Builder V D K S F → Prop where
  | declareRequest (proc : Request V D K) {t' : Builder V D K S F}
      (h : t.declareRequest proc = .ok t') : Step t t'
  | declareNotification (proc : Notification V D K) {t' : Builder V D K S F}
      (h : t.declareNotification proc = .ok t') : Step t t'
  | implementRequest (proc : Request V D K) (f : S → K.Req proc.decl → F (K.Resp proc.decl))
      {t' : Builder V D K S F} (h : t.implementRequest proc f = .ok t') : Step t t'
  | implementNotification (proc : Notification V D K) (f : S → K.Payload proc.decl → F Unit)
      {t' : Builder V D K S F} (h : t.implementNotification proc f = .ok t') : Step t t'

def system (V : Type) [LinearOrder V] (D : Conv.Decls) (K : Keys) (S : Type) (F : Type → Type)
    [DecidableEq K.Request] [DecidableEq K.Notification] : System (Builder V D K S F) where
  init t := t = create
  step := Step

structure Inv (t : Builder V D K S F) : Prop where
  requests : KnownKeys K.requestMethod t.declaredRequests.1 t.declaredRequests.2
  notifications : KnownKeys K.notificationMethod t.declaredNotifications.1
    t.declaredNotifications.2

theorem Inv.step {t t' : Builder V D K S F} (ht : t.Inv) (h : Step t t') : t'.Inv := by
  cases h with
  | declareRequest proc h =>
      rw [Builder.declareRequest] at h
      obtain ⟨-, -, -, all, rfl, -⟩ := registerGeneric_eq_ok_iff.mp h
      exact ⟨ht.requests.insert proc.decl all, ht.notifications⟩
  | declareNotification proc h =>
      rw [Builder.declareNotification] at h
      obtain ⟨-, -, -, all, rfl, -⟩ := registerGeneric_eq_ok_iff.mp h
      exact ⟨ht.requests, ht.notifications.insert proc.decl all⟩
  | implementRequest proc f h =>
      rw [Builder.implementRequest] at h
      obtain ⟨-, -, -, all, rfl, -⟩ := registerGeneric_eq_ok_iff.mp h
      exact ⟨ht.requests, ht.notifications⟩
  | implementNotification proc f h =>
      rw [Builder.implementNotification] at h
      obtain ⟨-, -, -, all, rfl, -⟩ := registerGeneric_eq_ok_iff.mp h
      exact ⟨ht.requests, ht.notifications⟩

theorem inv_reachable {t : Builder V D K S F} (h : (system V D K S F).Reachable t) : t.Inv := by
  refine h.invariant ?_ fun _ _ _ ht hs => ht.step hs
  rintro t rfl
  exact ⟨knownKeys_empty, knownKeys_empty⟩

theorem Inv.registeredProcedures_eq {t : Builder V D K S F} (ht : t.Inv) :
    ∃ l, t.registeredProcedures = .ok l ∧ ∀ name gens, (name, gens) ∈ l ↔
      (∃ keys, t.declaredRequests.1[name]? = some keys ∧
        generationsOf t.declaredRequests.2 keys = gens) ∨
      (∃ keys, t.declaredNotifications.1[name]? = some keys ∧
        generationsOf t.declaredNotifications.2 keys = gens) ∨
      (∃ listing, t.implementedRequests.lookup name = some listing ∧ listing.keys = gens) ∨
      ∃ listing, t.implementedNotifications.lookup name = some listing ∧ listing.keys = gens := by
  obtain ⟨l₁, hl₁, hmem₁⟩ := batchDeclarations_eq ht.requests
  obtain ⟨l₂, hl₂, hmem₂⟩ := batchDeclarations_eq ht.notifications
  have hl : t.registeredProcedures = .ok (l₁ ++ l₂ ++
      registeredProcedures.batchImplementations t.implementedRequests ++
      registeredProcedures.batchImplementations t.implementedNotifications) := by
    rw [registeredProcedures, hl₁, hl₂]
    rfl
  refine ⟨_, hl, fun name gens => ?_⟩
  simp only [List.mem_append, hmem₁, hmem₂, mem_batchImplementations_iff, or_assoc]

/-! ## The versions that a menu selects -/

section Menu

variable {t : Builder V D K S F} {l : List (Bytes × List V)} {menu : Menu V} {v : V}

theorem Inv.implemented_version (ht : t.Inv) (hl : t.registeredProcedures = .ok l)
    (hnodup : (l.map Prod.fst).Nodup) {name : Bytes} (hv : Menu.Lists l name v) :
    (∀ handlers, ImplRequests.get t name = some handlers → ∃ h, handlers[v]? = some h) ∧
    ∀ handlers, ImplNotifs.get t name = some handlers → ∃ h, handlers[v]? = some h := by
  obtain ⟨l', hl', hmem⟩ := ht.registeredProcedures_eq
  rw [hl] at hl'
  cases hl'
  constructor
  · intro handlers hh
    have hgens := (hmem name handlers.keys).mpr (Or.inr (Or.inr (Or.inl ⟨handlers, hh, rfl⟩)))
    exact mem_keys_iff.mp (hv.mem hnodup hgens)
  · intro handlers hh
    have hgens := (hmem name handlers.keys).mpr (Or.inr (Or.inr (Or.inr ⟨handlers, hh, rfl⟩)))
    exact mem_keys_iff.mp (hv.mem hnodup hgens)

/-- The one declaration of a method has all the versions that are known for it. -/
theorem KnownKeys.declared_version {A : Type} [DecidableEq A] {G : A → Type 1}
    {method : A → Bytes} {declaredKeys : StringMap (List A)}
    {table : UnivMap fun a => VersionMap V (G a)} (h : KnownKeys method declaredKeys table)
    {k : A} {decls : VersionMap V (G k)} (hk : table.lookup k = some decls)
    (honly : ∀ k', method k' = method k → table.lookup k' ≠ none → k' = k)
    (hmem : ∀ keys, declaredKeys[method k]? = some keys → v ∈ generationsOf table keys) :
    ∃ g, decls[v]? = some g := by
  obtain ⟨keys, hkeys, -⟩ := (h (method k) k).mpr ⟨rfl, decls, hk⟩
  obtain ⟨k', hk', listing, hl, hv⟩ := mem_generationsOf_iff.mp (hmem keys hkeys)
  obtain ⟨hmethod, -⟩ := (h (method k) k').mp ⟨keys, hkeys, hk'⟩
  obtain rfl := honly k' hmethod (by simp [hl])
  rw [hk] at hl
  cases hl
  exact mem_keys_iff.mp hv

theorem Inv.declared_version (ht : t.Inv) (hl : t.registeredProcedures = .ok l)
    (hnodup : (l.map Prod.fst).Nodup) :
    (∀ k decls, t.declaredRequests.2.lookup k = some decls →
      (∀ k', K.requestMethod k' = K.requestMethod k → t.declaredRequests.2.lookup k' ≠ none →
        k' = k) → Menu.Lists l (K.requestMethod k) v → ∃ g, decls[v]? = some g) ∧
    ∀ k decls, t.declaredNotifications.2.lookup k = some decls →
      (∀ k', K.notificationMethod k' = K.notificationMethod k →
        t.declaredNotifications.2.lookup k' ≠ none → k' = k) →
      Menu.Lists l (K.notificationMethod k) v → ∃ g, decls[v]? = some g := by
  obtain ⟨l', hl', hmem⟩ := ht.registeredProcedures_eq
  rw [hl] at hl'
  cases hl'
  constructor
  · intro k decls hk honly hv
    refine ht.requests.declared_version hk honly fun keys hkeys => ?_
    exact hv.mem hnodup ((hmem _ _).mpr (Or.inl ⟨keys, hkeys, rfl⟩))
  · intro k decls hk honly hv
    refine ht.notifications.declared_version hk honly fun keys hkeys => ?_
    exact hv.mem hnodup ((hmem _ _).mpr (Or.inr (Or.inl ⟨keys, hkeys, rfl⟩)))

/-- After any sequence of registrations the registered procedures can be
listed, and are those of the four tables. With a menu that selects from them,
and no name listed twice, every version that is looked up is there: for an
implementation, and for a declaration that is the only one of its method. -/
theorem no_version_bug (h : (system V D K S F).Reachable t) :
    (∃ l, t.registeredProcedures = .ok l ∧ ∀ name v, Menu.Lists l name v ↔
      (∃ k decls, K.requestMethod k = name ∧ DeclaredRequests.get t (name, k) = some decls ∧
        ∃ g, decls[v]? = some g) ∨
      (∃ k decls, K.notificationMethod k = name ∧ DeclaredNotifs.get t (name, k) = some decls ∧
        ∃ g, decls[v]? = some g) ∨
      (∃ handlers, ImplRequests.get t name = some handlers ∧ ∃ h, handlers[v]? = some h) ∨
      ∃ handlers, ImplNotifs.get t name = some handlers ∧ ∃ h, handlers[v]? = some h) ∧
    ∀ l (menu : Menu V), t.registeredProcedures = .ok l → (l.map Prod.fst).Nodup →
      (∀ (method : Bytes) v, menu[method]? = some v → Menu.Lists l method v) →
      (∀ name handlers v, t.lookupMethodGeneric menu ImplRequests name name = .ok (handlers, v) →
        ∃ h, handlers[v]? = some h) ∧
      (∀ name handlers v, t.lookupMethodGeneric menu ImplNotifs name name = .ok (handlers, v) →
        ∃ h, handlers[v]? = some h) ∧
      (∀ env fuel decl, (∀ k, K.requestMethod k = K.requestMethod decl →
        t.declaredRequests.2.lookup k ≠ none → k = decl) →
        ∃ r, t.prepareRequest env fuel menu decl = .ok r) ∧
      ∀ env fuel decl, (∀ k, K.notificationMethod k = K.notificationMethod decl →
        t.declaredNotifications.2.lookup k ≠ none → k = decl) →
        ∃ r, t.prepareNotification env fuel menu decl = .ok r := by
  have ht := inv_reachable h
  obtain ⟨l, hl, hmem⟩ := ht.registeredProcedures_eq
  refine ⟨⟨l, hl, fun name v => ?_⟩, fun l' menu hl' hnodup hmenu => ?_⟩
  · have hrequests := ht.requests.exists_generations name v
    have hnotifs := ht.notifications.exists_generations name v
    constructor
    · rintro ⟨vs, hvs, hv⟩
      rcases (hmem name vs).mp hvs with ⟨keys, hk, rfl⟩ | ⟨keys, hk, rfl⟩ | ⟨handlers, hh, rfl⟩ |
        ⟨handlers, hh, rfl⟩
      · exact Or.inl (hrequests.mp ⟨keys, hk, hv⟩)
      · exact Or.inr (Or.inl (hnotifs.mp ⟨keys, hk, hv⟩))
      · exact Or.inr (Or.inr (Or.inl ⟨handlers, hh, mem_keys_iff.mp hv⟩))
      · exact Or.inr (Or.inr (Or.inr ⟨handlers, hh, mem_keys_iff.mp hv⟩))
    · rintro (hdecl | hdecl | ⟨handlers, hh, hv⟩ | ⟨handlers, hh, hv⟩)
      · obtain ⟨keys, hk, hv⟩ := hrequests.mpr hdecl
        exact ⟨_, (hmem name _).mpr (Or.inl ⟨keys, hk, rfl⟩), hv⟩
      · obtain ⟨keys, hk, hv⟩ := hnotifs.mpr hdecl
        exact ⟨_, (hmem name _).mpr (Or.inr (Or.inl ⟨keys, hk, rfl⟩)), hv⟩
      · exact ⟨_, (hmem name _).mpr (Or.inr (Or.inr (Or.inl ⟨handlers, hh, rfl⟩))),
          mem_keys_iff.mpr hv⟩
      · exact ⟨_, (hmem name _).mpr (Or.inr (Or.inr (Or.inr ⟨handlers, hh, rfl⟩))),
          mem_keys_iff.mpr hv⟩
  · refine ⟨fun name handlers v hlookup => ?_, fun name handlers v hlookup => ?_,
      fun env fuel decl honly => ?_, fun env fuel decl honly => ?_⟩
    · obtain ⟨hget, hv⟩ := lookupMethodGeneric_eq_ok_iff.mp hlookup
      exact (ht.implemented_version hl' hnodup (hmenu name v hv)).1 handlers hget
    · obtain ⟨hget, hv⟩ := lookupMethodGeneric_eq_ok_iff.mp hlookup
      exact (ht.implemented_version hl' hnodup (hmenu name v hv)).2 handlers hget
    · rw [prepareRequest]
      cases hlookup : t.lookupMethodGeneric menu DeclaredRequests (K.requestMethod decl, decl)
          (K.requestMethod decl) with
      | error e => exact ⟨_, rfl⟩
      | ok p =>
          obtain ⟨hget, hv⟩ := lookupMethodGeneric_eq_ok_iff.mp hlookup
          obtain ⟨g, hg⟩ := (ht.declared_version hl' hnodup).1 decl p.1 hget honly (hmenu _ _ hv)
          simp only [hg]
          exact ⟨_, rfl⟩
    · rw [prepareNotification]
      cases hlookup : t.lookupMethodGeneric menu DeclaredNotifs (K.notificationMethod decl, decl)
          (K.notificationMethod decl) with
      | error e => exact ⟨_, rfl⟩
      | ok p =>
          obtain ⟨hget, hv⟩ := lookupMethodGeneric_eq_ok_iff.mp hlookup
          obtain ⟨g, hg⟩ := (ht.declared_version hl' hnodup).2 decl p.1 hget honly (hmenu _ _ hv)
          simp only [hg]
          exact ⟨_, rfl⟩

end Menu

/-- A program with one request. -/
abbrev pingKeys : Keys where
  Request := Unit
  requestMethod _ := lit "ping"
  Req _ := Unit
  Resp _ := Unit
  Notification := Empty
  notificationMethod := Empty.elim
  Payload := Empty.elim

def pingV1 : Generation Conv.Decls.none Unit Unit where
  WireReq := Unit
  WireResp := Unit
  req := Conv.unit
  resp := Conv.unit
  upgradeReq := id
  downgradeReq := id
  upgradeResp := id
  downgradeResp := id

def ping : Request ℤ Conv.Decls.none pingKeys where
  decl := ()
  generations := [(1, pingV1)]

/-- The request of the program, declared, under a menu that selects it. -/
theorem no_version_bug_sample :
    ∃ (t : Builder ℤ Conv.Decls.none pingKeys Unit (Except Conv.Exn)) (l : List (Bytes × List ℤ))
      (menu : Menu ℤ),
      (system ℤ Conv.Decls.none pingKeys Unit (Except Conv.Exn)).Reachable t ∧
      t.registeredProcedures = .ok l ∧ Menu.Lists l (lit "ping") 1 ∧
      menu[lit "ping"]? = some 1 ∧ ∃ r, t.prepareRequest Conv.Env.none 0 menu () = .ok r := by
  let none : Builder ℤ Conv.Decls.none pingKeys Unit (Except Conv.Exn) := create
  let t := (none.declareRequest ping).toOption.getD none
  have ht : (system ℤ Conv.Decls.none pingKeys Unit (Except Conv.Exn)).Reachable t :=
    .step (.init rfl) (.declareRequest ping (rfl : none.declareRequest ping = .ok t))
  obtain ⟨⟨l, hl, hlists⟩, hmenus⟩ := no_version_bug ht
  have hget : (DeclaredRequests (K := pingKeys)).get t (lit "ping", ()) =
      some ((∅ : VersionMap ℤ (Generation Conv.Decls.none Unit Unit)).insert 1 pingV1) := rfl
  have hping : Menu.Lists l (lit "ping") 1 := by
    refine (hlists _ 1).mpr (Or.inl ⟨(), _, rfl, hget, pingV1, ?_⟩)
    rw [getElem?_insert_eq, if_pos rfl]
  have hnodup : (l.map Prod.fst).Nodup := by
    have hl' : t.registeredProcedures = .ok [(lit "ping", [1])] := rfl
    rw [hl] at hl'
    cases hl'
    exact List.nodup_singleton _
  let menu : Menu ℤ := (∅ : Menu ℤ).insert (lit "ping") 1
  have hinsert (method : Bytes) : menu[method]? =
      if method = lit "ping" then some 1 else (∅ : Menu ℤ)[method]? :=
    StringMap.getElem?_insert_eq
  have hmenu : ∀ (method : Bytes) v, menu[method]? = some v → Menu.Lists l method v := by
    intro method v hv
    rw [hinsert] at hv
    split at hv
    · rename_i hmethod
      cases hmethod
      cases hv
      exact hping
    · rw [Std.ExtTreeMap.getElem?_empty] at hv
      cases hv
  refine ⟨t, l, menu, ht, hl, hping, ?_, ?_⟩
  · rw [hinsert, if_pos rfl]
  · exact (hmenus l menu hl hnodup hmenu).2.2.1 Conv.Env.none 0 () fun _ _ _ => rfl

end Builder

end Csexp.Rpc.Versioned
