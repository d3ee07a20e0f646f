import Csexp.Rpc.Types
import Mathlib.Data.List.Nodup

/-!
# Packets on the wire

The expressions that stand for a packet. A packet is written as a record
with sorted fields and read from one with its fields in any order; every
other expression is answered with an error.
-/

namespace Csexp

open Raising
open Conv (Fields Reader Decls Env)

namespace Conv

/-! ## Descriptions without cells -/

def Decls.none : Decls := ⟨Empty, Empty.elim, Empty.elim⟩

def Env.none : Env Decls.none := fun i => i.elim

theorem Env.none_wellFormed (version : ℤ × ℤ) : Env.none.WellFormed (fun i => i.elim) version :=
  fun _ i => i.elim

theorem Env.none_guarded : Env.none.Guarded := fun i => i.elim

theorem loop_reads_none {write : ∀ i, Decls.none.type i → Eval (Decls.none.kind i).Ctx}
    {get : Reader Decls.none} {version : ℤ × ℤ} {α : Type} {t : Conv Decls.none α .values}
    (ht : t.WellFormed (fun i => Empty.elim i) get version) {a : α} {s : Sexp}
    (h : toSexp.loop write t a = .ok s) : ofSexp.loop get version t s = .ok (a, ()) :=
  loop_reads (fun i => Empty.elim i) t ht a s h

theorem ofSexp_none_fuel {α : Type} (t : Conv Decls.none α .values) (version : ℤ × ℤ) (s : Sexp)
    (fuel fuel' : ℕ) : ofSexp Env.none fuel t version s = ofSexp Env.none fuel' t version s := by
  have hread : Env.none.read version fuel = Env.none.read version fuel' := by
    funext i
    exact i.elim
  rw [ofSexp, ofSexp, hread]

/-- Without cells reading is total. -/
theorem exists_ofSexp_none {α : Type} {t : Conv Decls.none α .values}
    (ht : t.Guarded Env.none false) (version : ℤ × ℤ) (s : Sexp) :
    ∃ r, ofSexp Env.none 0 t version s = .ok r := by
  rw [ofSexp_none_fuel t version s 0 (s.depth + 2)]
  exact exists_ofSexp Env.none_guarded ht version (Nat.lt_succ_self _)

/-! ## The contents of a record -/

/-- The fields are those of the list. -/
def Fields.Holds (f : Fields) (ps : List (Bytes × Sexp)) : Prop :=
  ∀ k v, f.unparsed[k]? = some v ↔ (k, v) ∈ ps

theorem Fields.exists_ofSexp_holds_iff {s : Sexp} {ps : List (Bytes × Sexp)}
    (hnodup : (ps.map Prod.fst).Nodup) :
    (∃ f, Fields.ofSexp s = .ok f ∧ f.Holds ps) ↔
      ∃ qs : List (Bytes × Sexp), s = Sexp.record qs ∧ qs.Perm ps := by
  have hps : ps.Nodup := List.Nodup.of_map Prod.fst hnodup
  constructor
  · rintro ⟨f, hf, hholds⟩
    obtain ⟨qs, rfl, hqs, hget⟩ := Fields.ofSexp_eq_ok_iff.mp hf
    refine ⟨qs, rfl, (List.perm_ext_iff_of_nodup (List.Nodup.of_map Prod.fst hqs) hps).mpr ?_⟩
    rintro ⟨k, v⟩
    rw [← hget, hholds]
  · rintro ⟨qs, rfl, hperm⟩
    have hqs : (qs.map Prod.fst).Nodup := (hperm.map Prod.fst).nodup_iff.mpr hnodup
    have hnone (k : Bytes) : (∅ : StringMap Sexp)[k]? = none := Std.ExtTreeMap.getElem?_empty
    obtain ⟨m, -, hget⟩ := StringMap.ofListMap_loop_of_reads (f := Except.ok)
      (List.forall₂_same.mpr fun _ _ => rfl) (fun p _ => hnone p.1) hqs
    have hholds : ∀ k v, m[k]? = some v ↔ (k, v) ∈ qs := by
      intro k v
      rw [hget, hnone]
      simp
    refine ⟨⟨m⟩, Fields.ofSexp_eq_ok_iff.mpr ⟨qs, rfl, hqs, hholds⟩, fun k v => ?_⟩
    rw [hholds, hperm.mem_iff]

theorem Fields.holds_iff {f : Fields} {ps : List (Bytes × Sexp)} :
    f.Holds ps ↔ (∀ p ∈ ps, f.unparsed[p.1]? = some p.2) ∧
      ∀ k : Bytes, k ∉ ps.map Prod.fst → f.unparsed[k]? = none := by
  constructor
  · intro h
    refine ⟨fun p hp => (h p.1 p.2).mpr hp, fun k hk => ?_⟩
    rw [Option.eq_none_iff_forall_ne_some]
    intro v hv
    exact hk (List.mem_map.mpr ⟨(k, v), (h k v).mp hv, rfl⟩)
  · rintro ⟨hsome, hnone⟩ k v
    refine ⟨fun hv => ?_, fun hmem => hsome (k, v) hmem⟩
    by_cases hk : k ∈ ps.map Prod.fst
    · obtain ⟨p, hp, rfl⟩ := List.mem_map.mp hk
      rw [hsome p hp] at hv
      cases hv
      exact hp
    · rw [hnone k hk] at hv
      cases hv

/-! ## What is read -/

section Loop

variable {D : Decls} {get : Reader D} {version : ℤ × ℤ} {α β : Type} {f f' : Fields}

theorem loop_record_eq_ok {r : Conv D α .fields} {s : Sexp} {a : α} :
    ofSexp.loop get version (.record r) s = .ok (a, ()) ↔
      ∃ f f', Fields.ofSexp s = .ok f ∧ ofSexp.loop get version r f = .ok (a, f') ∧
        ∀ k : Bytes, f'.unparsed[k]? = none := by
  rw [ofSexp.loop, bind_eq_ok_iff]
  constructor
  · rintro ⟨f, hf, h⟩
    obtain ⟨⟨b, f'⟩, hr, h⟩ := bind_eq_ok_iff.mp h
    obtain ⟨_, hempty, h⟩ := bind_eq_ok_iff.mp h
    cases h
    exact ⟨f, f', hf, hr, Fields.checkEmpty_eq_ok.mp hempty⟩
  · rintro ⟨f, f', hf, hr, hempty⟩
    refine ⟨f, hf, ?_⟩
    rw [hr]
    change f'.checkEmpty >>= _ = _
    rw [Fields.checkEmpty_eq_ok.mpr hempty]
    rfl

/-- The order of the fields does not matter. -/
theorem loop_record_perm {r : Conv D α .fields} {ps qs : List (Bytes × Sexp)} {a : α}
    (hperm : ps.Perm qs)
    (h : ofSexp.loop get version (.record r) (Sexp.record ps) = .ok (a, ())) :
    ofSexp.loop get version (.record r) (Sexp.record qs) = .ok (a, ()) := by
  obtain ⟨f, f', hf, hr, hempty⟩ := loop_record_eq_ok.mp h
  exact loop_record_eq_ok.mpr ⟨f, f', Fields.ofSexp_record_perm hperm hf, hr, hempty⟩

theorem loop_required_eq_ok {name : Bytes} {t : Conv D α .values} {a : α} :
    ofSexp.loop get version (.field name (.required t)) f = .ok (a, f') ↔
      ∃ s, f.unparsed[name]? = some s ∧ ofSexp.loop get version t s = .ok (a, ()) ∧
        f' = ⟨f.unparsed.erase name⟩ := by
  rw [ofSexp.loop, ofSexp.loopField, Fields.required, Fields.optional_eq]
  cases hs : f.unparsed[name]? with
  | none => simp [raiseOfSexp, bind, Except.bind]
  | some s =>
      simp only [bind, Except.bind, Option.some.injEq, exists_eq_left']
      cases ofSexp.loop get version t s with
      | error e => simp
      | ok p => simp [Prod.ext_iff, eq_comm]

theorem loop_optional_eq_ok {name : Bytes} {t : Conv D α .values} {a : Option α} :
    ofSexp.loop get version (.field name (.optional t)) f = .ok (a, f') ↔
      f' = ⟨f.unparsed.erase name⟩ ∧
        match a with
        | none => f.unparsed[name]? = none
        | some a => ∃ s, f.unparsed[name]? = some s ∧ ofSexp.loop get version t s = .ok (a, ()) := by
  rw [ofSexp.loop, ofSexp.loopField, Fields.optional_eq]
  cases hs : f.unparsed[name]? with
  | none => cases a <;> simp [eq_comm]
  | some s =>
      simp only [bind, Except.bind, Option.some.injEq, exists_eq_left']
      cases ofSexp.loop get version t s with
      | error e => cases a <;> simp
      | ok p => cases a <;> simp [Prod.ext_iff, eq_comm, and_comm]

theorem loop_both_eq_ok {x : Conv D α .fields} {y : Conv D β .fields} {p : α × β} :
    ofSexp.loop get version (.both x y) f = .ok (p, f') ↔
      ∃ k, ofSexp.loop get version x f = .ok (p.1, k) ∧
        ofSexp.loop get version y k = .ok (p.2, f') := by
  rw [ofSexp.loop, bind_eq_ok_iff]
  constructor
  · rintro ⟨⟨a, k⟩, hx, h⟩
    obtain ⟨⟨b, k'⟩, hy, h⟩ := bind_eq_ok_iff.mp h
    cases h
    exact ⟨k, hx, hy⟩
  · rintro ⟨k, hx, hy⟩
    exact ⟨(p.1, k), hx, bind_eq_ok_iff.mpr ⟨(p.2, f'), hy, rfl⟩⟩

theorem loop_iso_eq_ok {t : Conv D α .fields} {to_ : α → Eval β} {from_ : β → Eval α} {b : β} :
    ofSexp.loop get version (.iso t to_ from_) f = .ok (b, f') ↔
      ∃ a, ofSexp.loop get version t f = .ok (a, f') ∧ to_ a = .ok b := by
  rw [ofSexp.loop, bind_eq_ok_iff]
  constructor
  · rintro ⟨⟨a, k⟩, ht, h⟩
    obtain ⟨b', hb, h⟩ := bind_eq_ok_iff.mp h
    cases h
    exact ⟨a, ht, hb⟩
  · rintro ⟨a, ht, hb⟩
    exact ⟨(a, f'), ht, bind_eq_ok_iff.mpr ⟨b, hb, rfl⟩⟩

theorem loop_three_eq_ok {γ : Type} {x : Conv D α .fields} {y : Conv D β .fields}
    {z : Conv D γ .fields} {p : α × β × γ} :
    ofSexp.loop get version (three x y z) f = .ok (p, f') ↔
      ∃ k k', ofSexp.loop get version x f = .ok (p.1, k) ∧
        ofSexp.loop get version y k = .ok (p.2.1, k') ∧
        ofSexp.loop get version z k' = .ok (p.2.2, f') := by
  rw [three, loop_iso_eq_ok]
  constructor
  · rintro ⟨a, h, hto⟩
    cases hto
    obtain ⟨k, hx, h⟩ := loop_both_eq_ok.mp h
    obtain ⟨k', hy, hz⟩ := loop_both_eq_ok.mp h
    exact ⟨k, k', hx, hy, hz⟩
  · rintro ⟨k, k', hx, hy, hz⟩
    exact ⟨p, loop_both_eq_ok.mpr ⟨k, hx, loop_both_eq_ok.mpr ⟨k', hy, hz⟩⟩, rfl⟩

theorem loop_enum_eq_ok {eq : DecidableEq α} {choices : List (Bytes × α)}
    (hnodup : (choices.map Prod.fst).Nodup) {s : Sexp} {a : α} :
    ofSexp.loop get version (.enum eq choices) s = .ok (a, ()) ↔
      ∃ name, (name, a) ∈ choices ∧ s = .atom name := by
  cases s with
  | list l => simp [ofSexp.loop, raiseOfSexp]
  | atom b =>
      have hlookup : choices.lookup b = some a ↔ (b, a) ∈ choices := by
        refine ⟨fun h => ?_, lookup_eq_of_nodup hnodup⟩
        obtain ⟨l₁, l₂, rfl, -⟩ := List.lookup_eq_some_iff.mp h
        simp
      simp only [ofSexp.loop, Sexp.atom.injEq, exists_eq_right', ← hlookup]
      cases choices.lookup b <;> simp [raiseOfSexp]

theorem loop_sum_eq_ok {constrs : EConstrs D α} {case : α → Case D} {s : Sexp} {a : α} :
    ofSexp.loop get version (.sum constrs case) s = .ok (a, ()) ↔
      ∃ head args, s = .list [.atom head, args] ∧
        ofSexp.findMap get version head args constrs = some (.ok (a, ())) := by
  constructor
  · intro h
    unfold ofSexp.loop at h
    split at h
    · rename_i head args
      refine ⟨head, args, rfl, ?_⟩
      split at h
      · cases h
      · rename_i x hx
        rw [hx, h]
    · cases h
  · rintro ⟨head, args, rfl, h⟩
    simp only [ofSexp.loop, h]

end Loop

end Conv

namespace Rpc

namespace Packet

def toSexp (p : Packet) : Conv.Eval Sexp := Conv.toSexp Env.none 0 Packet.sexp p

def ofSexp (version : ℤ × ℤ) (s : Sexp) : Conv.Eval (Except Conv.Error Packet) :=
  Conv.ofSexp Env.none 0 Packet.sexp version s

end Packet

/-! ## What is written -/

namespace Response.Error

/-- The names of the kinds; there is none for `Connection_dead`. -/
def Kind.name : Kind → Option Bytes
  | .invalidRequest => some (lit "Invalid_request")
  | .codeError => some (lit "Code_error")
  | .connectionDead => none

def written (e : Error) : Option (List (Bytes × Sexp)) :=
  e.kind.name.map fun kind =>
    (lit "kind", .atom kind) :: (lit "message", .atom e.message) ::
      e.payload.toList.map fun s => (lit "payload", s)

end Response.Error

namespace Packet

def written : Packet → Option (List (Bytes × Sexp))
  | .request id c =>
    some [(lit "id", id), (lit "method", .atom c.method), (lit "params", c.params)]
  | .notification c => some [(lit "method", .atom c.method), (lit "params", c.params)]
  | .response id (.ok s) => some [(lit "id", id), (lit "result", .list [.atom (lit "ok"), s])]
  | .response id (.error e) =>
    e.written.map fun fields =>
      [(lit "id", id), (lit "result", .list [.atom (lit "error"), Sexp.record fields])]

/-- A packet is written as a record with its fields in order. Only the error
for a dead connection cannot be written. -/
theorem toSexp_eq (p : Packet) :
    toSexp p = match p.written with
      | some fields => .ok (Sexp.record fields)
      | none => .error (.codeError "enum does not include this value") := by
  cases p with
  | request id c => rfl
  | notification c => rfl
  | response id r =>
      cases r with
      | ok s => rfl
      | error e =>
          obtain ⟨payload, message, kind⟩ := e
          cases payload <;> cases kind <;> rfl

end Packet

/-! ## What is accepted -/

/-- The expressions that spell a response. -/
inductive Response.Spells : Response → Sexp → Prop where
  | ok (s : Sexp) : Response.Spells (.ok s) (.list [.atom (lit "ok"), s])
  | error {e : Response.Error} {fields ps : List (Bytes × Sexp)} (he : e.written = some fields)
      (hps : ps.Perm fields) :
      Response.Spells (.error e) (.list [.atom (lit "error"), Sexp.record ps])

/-- The expressions that spell a packet: records of its fields in any order. -/
inductive Packet.Spells : Packet → Sexp → Prop where
  | request {id : Id} {c : Call} {ps : List (Bytes × Sexp)}
      (hps : ps.Perm
        [(lit "id", id), (lit "method", .atom c.method), (lit "params", c.params)]) :
      Packet.Spells (.request id c) (Sexp.record ps)
  | notification {c : Call} {ps : List (Bytes × Sexp)}
      (hps : ps.Perm [(lit "method", .atom c.method), (lit "params", c.params)]) :
      Packet.Spells (.notification c) (Sexp.record ps)
  | response {id : Id} {r : Response} {x : Sexp} {ps : List (Bytes × Sexp)} (hr : r.Spells x)
      (hps : ps.Perm [(lit "id", id), (lit "result", x)]) :
      Packet.Spells (.response id r) (Sexp.record ps)

section Spells

variable {get : Reader Decls.none} {version : ℤ × ℤ}

theorem loop_string_eq_ok {s : Sexp} {a : Bytes} :
    Conv.ofSexp.loop get version Conv.string s = .ok (a, ()) ↔ s = .atom a := by
  cases s with
  | atom b =>
      change Except.ok (b, ()) = Except.ok (a, ()) ↔ _
      simp
  | list l =>
      change Conv.raiseOfSexp _ _ = _ ↔ _
      simp [Conv.raiseOfSexp]

theorem Response.Error.loop_kind_eq_ok {s : Sexp} {kind : Kind} :
    Conv.ofSexp.loop get version
        (.enum inferInstance
          [(lit "Invalid_request", Kind.invalidRequest), (lit "Code_error", .codeError)])
        s = .ok (kind, ()) ↔
      ∃ name, kind.name = some name ∧ s = .atom name := by
  rw [Conv.loop_enum_eq_ok (by decide)]
  cases kind <;> simp [Kind.name]

theorem Response.Error.nodup_written {e : Response.Error} {fields : List (Bytes × Sexp)}
    (h : e.written = some fields) : (fields.map Prod.fst).Nodup := by
  obtain ⟨kind, -, rfl⟩ := Option.map_eq_some_iff.mp h
  cases e.payload with
  | none =>
      change List.Nodup [lit "kind", lit "message"]
      decide
  | some s =>
      change List.Nodup [lit "kind", lit "message", lit "payload"]
      decide

theorem Response.Error.loop_eq_ok {s : Sexp} {e : Response.Error} :
    Conv.ofSexp.loop get version Response.Error.sexp s = .ok (e, ()) ↔
      ∃ fields, e.written = some fields ∧
        ∃ ps : List (Bytes × Sexp), s = Sexp.record ps ∧ ps.Perm fields := by
  obtain ⟨payload, message, kind⟩ := e
  rw [Response.Error.sexp, Conv.loop_record_eq_ok]
  constructor
  · rintro ⟨f, f', hf, h, hempty⟩
    obtain ⟨⟨p, m, k⟩, h, hto⟩ := Conv.loop_iso_eq_ok.mp h
    cases hto
    obtain ⟨k₁, k₂, hp, hmessage, hkind⟩ := Conv.loop_three_eq_ok.mp h
    obtain ⟨rfl, hpayload⟩ := Conv.loop_optional_eq_ok.mp hp
    obtain ⟨sm, hsm, hm, rfl⟩ := Conv.loop_required_eq_ok.mp hmessage
    obtain ⟨sk, hsk, hk, rfl⟩ := Conv.loop_required_eq_ok.mp hkind
    cases loop_string_eq_ok.mp hm
    obtain ⟨name, hname, rfl⟩ := loop_kind_eq_ok.mp hk
    rw [StringMap.getElem?_erase_eq, if_neg (by decide)] at hsm
    rw [StringMap.getElem?_erase_eq, if_neg (by decide), StringMap.getElem?_erase_eq,
      if_neg (by decide)] at hsk
    have hwritten : Error.written ⟨payload, message, kind⟩ = some ((lit "kind", .atom name) ::
        (lit "message", .atom message) :: payload.toList.map fun s => (lit "payload", s)) := by
      rw [Error.written, hname]
      rfl
    refine ⟨_, hwritten, ?_⟩
    rw [← Fields.exists_ofSexp_holds_iff (nodup_written hwritten)]
    have hrest : ∀ k : Bytes, k ≠ lit "kind" → k ≠ lit "message" → k ≠ lit "payload" →
        f.unparsed[k]? = none := by
      intro k hkind hmessage hpayload
      have hk := hempty k
      rwa [StringMap.getElem?_erase_eq, if_neg hkind, StringMap.getElem?_erase_eq,
        if_neg hmessage, StringMap.getElem?_erase_eq, if_neg hpayload] at hk
    refine ⟨f, hf, Fields.holds_iff.mpr ?_⟩
    cases payload with
    | none =>
        refine ⟨by simp [hsk, hsm], fun k hk => ?_⟩
        have hne : k ≠ lit "kind" ∧ k ≠ lit "message" := by simpa using hk
        by_cases hp : k = lit "payload"
        · exact hp ▸ hpayload
        · exact hrest k hne.1 hne.2 hp
    | some p =>
        obtain ⟨s, hs, hread⟩ := hpayload
        cases hread
        refine ⟨by simp [hsk, hsm, hs], fun k hk => ?_⟩
        have hne : k ≠ lit "kind" ∧ k ≠ lit "message" ∧ k ≠ lit "payload" := by simpa using hk
        exact hrest k hne.1 hne.2.1 hne.2.2
  · rintro ⟨fields, hfields, ps, rfl, hps⟩
    have hwrite : Conv.toSexp.loop (Env.none.write 0) Response.Error.sexp ⟨payload, message, kind⟩ =
        .ok (Sexp.record fields) := by
      cases payload <;> cases kind <;> cases hfields <;> rfl
    rw [Response.Error.sexp] at hwrite
    exact Conv.loop_record_eq_ok.mp (Conv.loop_record_perm hps.symm
      (Conv.loop_reads_none Response.Error.sexp_wellFormed hwrite))

/-- The two forms of a result. -/
theorem Response.loop_eq_ok {s : Sexp} {r : Response} :
    Conv.ofSexp.loop get version Response.result s = .ok (r, ()) ↔ r.Spells s := by
  rw [Response.result, Conv.loop_sum_eq_ok]
  constructor
  · rintro ⟨head, args, rfl, h⟩
    by_cases hok : head = lit "ok"
    · subst hok
      cases h
      exact .ok args
    · by_cases herror : head = lit "error"
      · subst herror
        have hbind := Option.some.inj h
        obtain ⟨⟨e, _⟩, he, hr⟩ := bind_eq_ok_iff.mp hbind
        cases hr
        obtain ⟨fields, hfields, ps, rfl, hps⟩ := Response.Error.loop_eq_ok.mp he
        exact .error hfields hps
      · simp only [Conv.ofSexp.findMap, Conv.ofSexp.loopConstr, if_neg hok, if_neg herror,
          reduceCtorEq] at h
  · intro h
    cases h with
    | ok s => exact ⟨lit "ok", s, rfl, rfl⟩
    | @error e fields ps he hps =>
        have herror : Conv.ofSexp.loop get version Response.Error.sexp (Sexp.record ps) =
            .ok (e, ()) := Response.Error.loop_eq_ok.mpr ⟨fields, he, ps, rfl, hps⟩
        refine ⟨lit "error", Sexp.record ps, rfl, ?_⟩
        exact congrArg some (bind_eq_ok_iff.mpr ⟨(e, ()), herror, rfl⟩)

/-- A method without parameters, or the other way round, is no call. -/
theorem Packet.call_cases {f f' : Fields} {call : Option Call}
    (h : Conv.ofSexp.loop get version Packet.call f = .ok (call, f')) :
    f' = ⟨(f.unparsed.erase (lit "method")).erase (lit "params")⟩ ∧
      ((call = none ∧ f.unparsed[lit "method"]? = none ∧ f.unparsed[lit "params"]? = none) ∨
        ∃ c, call = some c ∧ f.unparsed[lit "method"]? = some (.atom c.method) ∧
          f.unparsed[lit "params"]? = some c.params) := by
  obtain ⟨⟨method, params⟩, h, hcall⟩ := Conv.loop_iso_eq_ok.mp h
  obtain ⟨k, hm, hp⟩ := Conv.loop_both_eq_ok.mp h
  obtain ⟨rfl, hmethod⟩ := Conv.loop_optional_eq_ok.mp hm
  obtain ⟨rfl, hparams⟩ := Conv.loop_optional_eq_ok.mp hp
  refine ⟨rfl, ?_⟩
  simp only [StringMap.getElem?_erase_of_ne (show lit "params" ≠ lit "method" by decide)]
    at hmethod hparams
  cases method with
  | none =>
      cases params with
      | none =>
          cases hcall
          exact .inl ⟨rfl, hmethod, hparams⟩
      | some p => cases hcall
  | some m =>
      cases params with
      | none => cases hcall
      | some p =>
          cases hcall
          obtain ⟨sm, hsm, hm⟩ := hmethod
          obtain ⟨sp, hsp, hp⟩ := hparams
          cases loop_string_eq_ok.mp hm
          cases hp
          exact .inr ⟨_, rfl, hsm, hsp⟩

/-- The packets a reader accepts. -/
theorem Packet.loop_eq_ok {s : Sexp} {p : Packet} :
    Conv.ofSexp.loop get version Packet.sexp s = .ok (p, ()) ↔ p.Spells s := by
  rw [Packet.sexp, Conv.loop_record_eq_ok]
  constructor
  · rintro ⟨f, f', hf, h, hempty⟩
    obtain ⟨⟨id, result, call⟩, h, hto⟩ := Conv.loop_iso_eq_ok.mp h
    obtain ⟨k₁, k₂, hi, hr, hc⟩ := Conv.loop_three_eq_ok.mp h
    obtain ⟨rfl, hid⟩ := Conv.loop_optional_eq_ok.mp hi
    obtain ⟨rfl, hresult⟩ := Conv.loop_optional_eq_ok.mp hr
    obtain ⟨rfl, hcall⟩ := Packet.call_cases hc
    simp only [StringMap.getElem?_erase_of_ne (show lit "result" ≠ lit "id" by decide),
      StringMap.getElem?_erase_of_ne (show lit "method" ≠ lit "id" by decide),
      StringMap.getElem?_erase_of_ne (show lit "method" ≠ lit "result" by decide),
      StringMap.getElem?_erase_of_ne (show lit "params" ≠ lit "id" by decide),
      StringMap.getElem?_erase_of_ne (show lit "params" ≠ lit "result" by decide)]
      at hid hresult hcall
    have hrest : ∀ k : Bytes, k ≠ lit "id" → k ≠ lit "result" → k ≠ lit "method" →
        k ≠ lit "params" → f.unparsed[k]? = none := by
      intro k h₁ h₂ h₃ h₄
      have hk := hempty k
      rwa [StringMap.getElem?_erase_of_ne h₄, StringMap.getElem?_erase_of_ne h₃,
        StringMap.getElem?_erase_of_ne h₂, StringMap.getElem?_erase_of_ne h₁] at hk
    have hspelled : ∀ {ps : List (Bytes × Sexp)}, f.Holds ps → (ps.map Prod.fst).Nodup →
        ∃ qs : List (Bytes × Sexp), s = Sexp.record qs ∧ qs.Perm ps :=
      fun hholds hnodup => (Fields.exists_ofSexp_holds_iff hnodup).mp ⟨f, hf, hholds⟩
    rcases hcall with ⟨rfl, hmethod, hparams⟩ | ⟨c, rfl, hmethod, hparams⟩
    · cases id with
      | none => cases result <;> cases hto
      | some id =>
          cases result with
          | none => cases hto
          | some r =>
              cases hto
              obtain ⟨_, hid, hi⟩ := hid
              cases hi
              obtain ⟨x, hx, hr⟩ := hresult
              have hholds : f.Holds [(lit "id", id), (lit "result", x)] := by
                refine Fields.holds_iff.mpr ⟨by simp [hid, hx], fun k hk => ?_⟩
                have hne : k ≠ lit "id" ∧ k ≠ lit "result" := by simpa using hk
                by_cases hm : k = lit "method"
                · exact hm ▸ hmethod
                · by_cases hp : k = lit "params"
                  · exact hp ▸ hparams
                  · exact hrest k hne.1 hne.2 hm hp
              have hnodup : List.Nodup [lit "id", lit "result"] := by decide
              obtain ⟨ps, rfl, hps⟩ := hspelled hholds hnodup
              exact .response (Response.loop_eq_ok.mp hr) hps
    · cases result with
      | some r => cases id <;> cases hto
      | none =>
          cases id with
          | none =>
              cases hto
              have hholds : f.Holds [(lit "method", .atom c.method), (lit "params", c.params)] := by
                refine Fields.holds_iff.mpr ⟨by simp [hmethod, hparams], fun k hk => ?_⟩
                have hne : k ≠ lit "method" ∧ k ≠ lit "params" := by simpa using hk
                by_cases hi : k = lit "id"
                · exact hi ▸ hid
                · by_cases hr : k = lit "result"
                  · exact hr ▸ hresult
                  · exact hrest k hi hr hne.1 hne.2
              have hnodup : List.Nodup [lit "method", lit "params"] := by decide
              obtain ⟨ps, rfl, hps⟩ := hspelled hholds hnodup
              exact .notification hps
          | some id =>
              cases hto
              obtain ⟨_, hid, hi⟩ := hid
              cases hi
              have hholds : f.Holds
                  [(lit "id", id), (lit "method", .atom c.method), (lit "params", c.params)] := by
                refine Fields.holds_iff.mpr ⟨by simp [hid, hmethod, hparams], fun k hk => ?_⟩
                have hne : k ≠ lit "id" ∧ k ≠ lit "method" ∧ k ≠ lit "params" := by simpa using hk
                by_cases hr : k = lit "result"
                · exact hr ▸ hresult
                · exact hrest k hne.1 hr hne.2.1 hne.2.2
              have hnodup : List.Nodup [lit "id", lit "method", lit "params"] := by decide
              obtain ⟨ps, rfl, hps⟩ := hspelled hholds hnodup
              exact .request hps
  · intro h
    rw [← Conv.loop_record_eq_ok]
    cases h with
    | @request id c ps hps =>
        have hwrite : Conv.toSexp.loop (Env.none.write 0) Packet.sexp (.request id c) =
            .ok (Sexp.record
              [(lit "id", id), (lit "method", .atom c.method), (lit "params", c.params)]) := rfl
        exact Conv.loop_record_perm hps.symm
          (Conv.loop_reads_none Packet.sexp_wellFormed hwrite)
    | @notification c ps hps =>
        have hwrite : Conv.toSexp.loop (Env.none.write 0) Packet.sexp (.notification c) =
            .ok (Sexp.record [(lit "method", .atom c.method), (lit "params", c.params)]) := rfl
        exact Conv.loop_record_perm hps.symm
          (Conv.loop_reads_none Packet.sexp_wellFormed hwrite)
    | @response id r x ps hr hps =>
        have hnodup : ([(lit "id", id), (lit "result", x)].map Prod.fst).Nodup :=
          show List.Nodup [lit "id", lit "result"] by decide
        obtain ⟨f, hf, hholds⟩ := (Fields.exists_ofSexp_holds_iff hnodup).mpr ⟨ps, rfl, hps⟩
        obtain ⟨hsome, hnone⟩ := Fields.holds_iff.mp hholds
        have hid := hsome (lit "id", id) (by simp)
        have hresult := hsome (lit "result", x) (by simp)
        have hmethod := hnone (lit "method")
          (show lit "method" ∉ [lit "id", lit "result"] by decide)
        have hparams := hnone (lit "params")
          (show lit "params" ∉ [lit "id", lit "result"] by decide)
        let f₁ : Fields := ⟨f.unparsed.erase (lit "id")⟩
        let f₂ : Fields := ⟨f₁.unparsed.erase (lit "result")⟩
        let f₃ : Fields := ⟨f₂.unparsed.erase (lit "method")⟩
        let f₄ : Fields := ⟨f₃.unparsed.erase (lit "params")⟩
        have hget : ∀ k : Bytes, k ≠ lit "id" → k ≠ lit "result" →
            f₂.unparsed[k]? = f.unparsed[k]? := fun k h₁ h₂ => by
          rw [StringMap.getElem?_erase_of_ne h₂, StringMap.getElem?_erase_of_ne h₁]
        have hcall : Conv.ofSexp.loop get version Packet.call f₂ = .ok (none, f₄) := by
          refine Conv.loop_iso_eq_ok.mpr ⟨(none, none), Conv.loop_both_eq_ok.mpr ⟨f₃, ?_, ?_⟩, rfl⟩
          · refine Conv.loop_optional_eq_ok.mpr ⟨rfl, ?_⟩
            exact (hget _ (by decide) (by decide)).trans hmethod
          · refine Conv.loop_optional_eq_ok.mpr ⟨rfl, ?_⟩
            exact (StringMap.getElem?_erase_of_ne (by decide)).trans
              ((hget _ (by decide) (by decide)).trans hparams)
        refine Conv.loop_record_eq_ok.mpr ⟨f, f₄, hf, Conv.loop_iso_eq_ok.mpr
          ⟨(some id, some r, none), Conv.loop_three_eq_ok.mpr ⟨f₁, f₂, ?_, ?_, hcall⟩, rfl⟩, ?_⟩
        · exact Conv.loop_optional_eq_ok.mpr ⟨rfl, id, hid, rfl⟩
        · refine Conv.loop_optional_eq_ok.mpr ⟨rfl, x, ?_, Response.loop_eq_ok.mpr hr⟩
          exact (StringMap.getElem?_erase_of_ne (by decide)).trans hresult
        · intro k
          change ((((f.unparsed.erase _).erase _).erase _).erase _)[k]? = none
          simp only [StringMap.getElem?_erase_eq]
          split_ifs with h₄ h₃ h₂ h₁
          · rfl
          · rfl
          · rfl
          · rfl
          · exact hnone k (show k ∉ [lit "id", lit "result"] by simp [h₁, h₂])

end Spells

namespace Packet

theorem ofSexp_eq_ok_iff {version : ℤ × ℤ} {s : Sexp} {p : Packet} :
    ofSexp version s = .ok (.ok p) ↔ p.Spells s := by
  have hloop : Conv.ofSexp.loop (Env.none.read version 0) version Packet.sexp s = .ok (p, ()) ↔
      p.Spells s := Packet.loop_eq_ok
  rw [← hloop, ofSexp, Conv.ofSexp]
  cases Conv.ofSexp.loop (Env.none.read version 0) version Packet.sexp s with
  | ok q => simp [Prod.ext_iff]
  | error e => cases e <;> simp

/-- Every expression is read as a packet that it spells, and the others are
refused with an error. Nothing is raised. -/
theorem ofSexp_spec (version : ℤ × ℤ) (s : Sexp) :
    (∃ p, ofSexp version s = .ok (.ok p) ∧ ∀ q : Packet, q.Spells s ↔ q = p) ∨
      ∃ e, ofSexp version s = .ok (.error e) ∧ ∀ q : Packet, ¬ q.Spells s := by
  obtain ⟨r, hr⟩ := Conv.exists_ofSexp_none Packet.sexp_guarded version s
  have hread : ofSexp version s = .ok r := hr
  have hspells (q : Packet) : q.Spells s ↔ r = .ok q := by
    have hq : ofSexp version s = .ok (.ok q) ↔ q.Spells s := ofSexp_eq_ok_iff
    rw [← hq, hread, Except.ok.injEq]
  cases r with
  | ok p => exact .inl ⟨p, hread, fun q => by rw [hspells, Except.ok.injEq, eq_comm]⟩
  | error e => exact .inr ⟨e, hread, fun q => by simp [hspells]⟩

end Packet

end Rpc

end Csexp
