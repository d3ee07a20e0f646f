import Csexp.Acceptance

/-!
# The encoding and its paddings

The serialised form of an expression is one of the strings that derive
it. The other ones differ from it by zeros in front of the lengths, so
that encoding a decoded string restores it up to these zeros.
-/

namespace Csexp

open Decimal (IsDigit value)

theorem derivesMany_of_forall {M : ℕ} {xs : List Sexp}
    (h : ∀ x ∈ xs, Derives M (toString x) x) : DerivesMany M (xs.flatMap toString) xs := by
  induction xs with
  | nil => exact .nil
  | cons x xs ih =>
      rw [List.flatMap_cons]
      exact .cons (h x List.mem_cons_self) (ih fun y hy => h y (List.mem_cons_of_mem x hy))

theorem derives_toString {S : Sys} {x : Sexp} (hx : x.Fits S) :
    Derives S.maxStringLength (toString x) x := by
  induction x with
  | atom s =>
      rw [toString_atom]
      exact .atom (Decimal.numeral_ne_nil _) (fun c hc => Decimal.numeral_isDigit hc)
        (Decimal.value_numeral _) (Sexp.fits_atom.mp hx)
  | list l ih =>
      rw [toString_list]
      exact .list (derivesMany_of_forall fun x hxl => ih x hxl (Sexp.fits_list.mp hx x hxl))

theorem derivesMany_toString {S : Sys} {xs : List Sexp} (h : ∀ x ∈ xs, x.Fits S) :
    DerivesMany S.maxStringLength (xs.flatMap toString) xs :=
  derivesMany_of_forall fun x hx => derives_toString (h x hx)

/-- Decoding undoes encoding, for one expression and for a concatenation
of any number of them. -/
theorem parse_toString (P : Platform) :
    (∀ x : Sexp, x.Fits P.toSys → parseString P.toSys (toString x) = .ok (.ok x)) ∧
    ∀ xs : List Sexp, (∀ x ∈ xs, x.Fits P.toSys) →
      parseStringMany P.toSys (xs.flatMap toString) = .ok (.ok xs) :=
  ⟨fun _ hx => parseString_eq_ok_iff.mpr (derives_toString hx),
    fun _ hxs => parseStringMany_eq_ok_iff.mpr (derivesMany_toString hxs)⟩

theorem parse_toString_sample :
    let x : Sexp := .list [.atom ['('.toUInt8, '1'.toUInt8, ':'.toUInt8], .list [], .atom []]
    parseString Platform.native64.toSys (toString x) = .ok (.ok x) ∧
      parseStringMany Platform.native64.toSys ([x, .atom [], x].flatMap toString) =
        .ok (.ok [x, .atom [], x]) := by
  intro x
  have hnil : (Sexp.atom []).Fits Platform.native64.toSys := .atom (Nat.zero_le _)
  have hx : x.Fits Platform.native64.toSys := by
    refine .list fun y hy => ?_
    simp only [List.mem_cons, List.not_mem_nil, or_false] at hy
    rcases hy with rfl | rfl | rfl
    · exact .atom (by norm_num [Platform.native64])
    · exact .list (by simp)
    · exact hnil
  refine ⟨(parse_toString Platform.native64).1 x hx,
    (parse_toString Platform.native64).2 _ fun y hy => ?_⟩
  simp only [List.mem_cons, List.not_mem_nil, or_false] at hy
  rcases hy with rfl | rfl | rfl
  · exact hx
  · exact hnil
  · exact hx

/-! ## Zeros in front of a length -/

mutual

theorem Derives.fits {S : Sys} : ∀ {s : Bytes} {x : Sexp}, Derives S.maxStringLength s x →
    x.Fits S
  | _, _, .atom _ _ _ hM => .atom hM
  | _, _, .list h => .list h.fits

theorem DerivesMany.fits {S : Sys} : ∀ {s : Bytes} {xs : List Sexp},
    DerivesMany S.maxStringLength s xs → ∀ x ∈ xs, x.Fits S
  | _, _, .nil => by simp
  | _, _, .cons h ht => List.forall_mem_cons.mpr ⟨h.fits, ht.fits⟩

end

/-- The second string is the first one with `z` zeros inserted, all of
them in front of the length of an atom. -/
inductive Padded : ℕ → Bytes → Bytes → Prop where
  | nil : Padded 0 [] []
  | paren {z : ℕ} {s t : Bytes} {c : UInt8} (hc : c = '('.toUInt8 ∨ c = ')'.toUInt8)
      (h : Padded z s t) : Padded z (c :: s) (c :: t)
  | atom {z : ℕ} {s t : Bytes} (k : ℕ) (a : Bytes) (h : Padded z s t) :
      Padded (k + z) (stringOfInt a.length ++ ':'.toUInt8 :: a ++ s)
        (List.replicate k '0'.toUInt8 ++ (stringOfInt a.length ++ ':'.toUInt8 :: a ++ t))

namespace Padded

theorem append {y z : ℕ} {s t s' t' : Bytes} (h : Padded y s t) (h' : Padded z s' t') :
    Padded (y + z) (s ++ s') (t ++ t') := by
  induction h with
  | nil => simpa using h'
  | paren hc _ ih => exact .paren hc ih
  | atom k a _ ih => simpa [List.append_assoc, Nat.add_assoc] using Padded.atom k a ih

theorem length_eq {z : ℕ} {s t : Bytes} (h : Padded z s t) : t.length = z + s.length := by
  induction h with
  | nil => rfl
  | paren _ _ ih => simp [ih, Nat.add_assoc]
  | atom k a _ ih =>
      simp only [List.length_append, List.length_replicate, List.length_cons, ih]
      omega

theorem eq_of_zero {z : ℕ} {s t : Bytes} (h : Padded z s t) (hz : z = 0) : s = t := by
  induction h with
  | nil => rfl
  | paren _ _ ih => rw [ih hz]
  | @atom z s t k a _ ih =>
      obtain ⟨rfl, rfl⟩ : k = 0 ∧ z = 0 := by omega
      simp [ih rfl]

theorem eq_iff {z : ℕ} {s t : Bytes} (h : Padded z s t) : s = t ↔ z = 0 := by
  refine ⟨fun heq => ?_, h.eq_of_zero⟩
  have hlen := h.length_eq
  rw [heq] at hlen
  omega

end Padded

mutual

/-- A string that derives an expression pads its encoding. -/
theorem Derives.padded {M : ℕ} : ∀ {s : Bytes} {x : Sexp}, Derives M s x →
    ∃ z, Padded z (toString x) s
  | _, _, @Derives.atom _ ds a hne hds hval _ => by
      obtain ⟨k, hk⟩ := Decimal.exists_zeros_numeral hne hds
      have hpad := Padded.atom k a .nil
      rw [toString_atom, hk, hval, List.append_assoc]
      exact ⟨k + 0, by simpa [stringOfInt] using hpad⟩
  | _, _, .list h => by
      obtain ⟨z, hz⟩ := h.padded
      have hpad := (hz.append (.paren (Or.inr rfl) .nil)).paren (Or.inl rfl)
      rw [toString_list]
      exact ⟨z + 0, hpad⟩

theorem DerivesMany.padded {M : ℕ} : ∀ {s : Bytes} {xs : List Sexp}, DerivesMany M s xs →
    ∃ z, Padded z (xs.flatMap toString) s
  | _, _, .nil => ⟨0, .nil⟩
  | _, _, .cons h ht => by
      obtain ⟨y, hy⟩ := h.padded
      obtain ⟨z, hz⟩ := ht.padded
      exact ⟨y + z, by simpa using hy.append hz⟩

end

theorem colon_unique {ds es s t : Bytes} (hds : ∀ c ∈ ds, IsDigit c) (hes : ∀ c ∈ es, IsDigit c)
    (h : ds ++ ':'.toUInt8 :: s = es ++ ':'.toUInt8 :: t) : ds = es ∧ s = t := by
  have hcolon : ¬ IsDigit ':'.toUInt8 := by decide
  induction ds generalizing es with
  | nil =>
      cases es with
      | nil => exact ⟨rfl, by simpa using h⟩
      | cons e es =>
          simp only [List.nil_append, List.cons_append, List.cons.injEq] at h
          exact absurd (h.1 ▸ hes e List.mem_cons_self) hcolon
  | cons d ds ih =>
      cases es with
      | nil =>
          simp only [List.nil_append, List.cons_append, List.cons.injEq] at h
          exact absurd (h.1 ▸ hds d List.mem_cons_self) hcolon
      | cons e es =>
          simp only [List.cons_append, List.cons.injEq] at h
          obtain ⟨hde, hst⟩ := h
          obtain ⟨hdes, heq⟩ := ih (fun c hc => hds c (List.mem_cons_of_mem d hc))
            (fun c hc => hes c (List.mem_cons_of_mem e hc)) hst
          exact ⟨by rw [hde, hdes], heq⟩

theorem exists_cons_stringOfInt (n : ℕ) : ∃ d ds, stringOfInt n = d :: ds ∧ IsDigit d := by
  cases hnum : stringOfInt n with
  | nil => exact absurd hnum (Decimal.numeral_ne_nil n)
  | cons d ds =>
      have hmem : d ∈ Decimal.numeral n := by
        rw [← stringOfInt, hnum]
        exact List.mem_cons_self
      exact ⟨d, ds, rfl, Decimal.numeral_isDigit hmem⟩

theorem Padded.nil_inv {z : ℕ} {t : Bytes} (h : Padded z [] t) : t = [] := by
  generalize hsrc : [] = src at h
  cases h with
  | nil => rfl
  | paren hc h => cases hsrc
  | atom k b h => simp at hsrc

theorem Padded.paren_inv {z : ℕ} {s t : Bytes} {c : UInt8} (hc : ¬ IsDigit c)
    (h : Padded z (c :: s) t) : ∃ t', t = c :: t' ∧ Padded z s t' := by
  generalize hsrc : c :: s = src at h
  cases h with
  | nil => cases hsrc
  | @paren _ s' t' d hd h =>
      obtain ⟨rfl, rfl⟩ := List.cons.inj hsrc
      exact ⟨t', rfl, h⟩
  | atom k b h =>
      obtain ⟨d, ds, hnum, hd⟩ := exists_cons_stringOfInt b.length
      rw [hnum, List.cons_append, List.cons_append, List.cons.injEq] at hsrc
      exact absurd (hsrc.1 ▸ hd) hc

/-- A padding of an encoded atom followed by anything derives the atom and
leaves a padding of the rest. -/
theorem Padded.derives_atom {S : Sys} {z : ℕ} {a s t : Bytes} (ha : a.length ≤ S.maxStringLength)
    (h : Padded z (toString (.atom a) ++ s) t) :
    ∃ t₁ t₂ z', t = t₁ ++ t₂ ∧ Derives S.maxStringLength t₁ (.atom a) ∧ Padded z' s t₂ := by
  rw [toString_atom] at h
  generalize hsrc : stringOfInt a.length ++ ':'.toUInt8 :: a ++ s = src at h
  cases h with
  | nil => simp at hsrc
  | @paren _ s' t' c hc h =>
      obtain ⟨d, ds, hnum, hd⟩ := exists_cons_stringOfInt a.length
      rw [hnum, List.cons_append, List.cons_append, List.cons.injEq] at hsrc
      rw [hsrc.1] at hd
      rcases hc with rfl | rfl
      · exact absurd hd (by decide)
      · exact absurd hd (by decide)
  | @atom z' s' t' k b h =>
      rw [List.append_assoc, List.append_assoc, List.cons_append, List.cons_append] at hsrc
      obtain ⟨hnum, hrest⟩ := colon_unique (fun c hc => Decimal.numeral_isDigit hc)
        (fun c hc => Decimal.numeral_isDigit hc) hsrc
      have hlen : a.length = b.length := by
        simpa [stringOfInt] using congrArg value hnum
      obtain ⟨rfl, rfl⟩ : a = b ∧ s = s' :=
        ⟨List.append_inj_left hrest hlen, List.append_inj_right hrest hlen⟩
      have hne : List.replicate k '0'.toUInt8 ++ stringOfInt a.length ≠ [] := by
        simp [stringOfInt, Decimal.numeral_ne_nil]
      have hds : ∀ c ∈ List.replicate k '0'.toUInt8 ++ stringOfInt a.length, IsDigit c := by
        intro c hc
        rcases List.mem_append.mp hc with hc | hc
        · exact List.eq_of_mem_replicate hc ▸ (by decide)
        · exact Decimal.numeral_isDigit hc
      have hderives := Derives.atom hne hds (by simp [stringOfInt]) ha
      exact ⟨_, t', z', by simp, hderives, h⟩

theorem Padded.derives_list {S : Sys} {l : List Sexp} (hl : ∀ x ∈ l, ∀ {z : ℕ} {s t : Bytes},
      Padded z (toString x ++ s) t →
      ∃ t₁ t₂ z', t = t₁ ++ t₂ ∧ Derives S.maxStringLength t₁ x ∧ Padded z' s t₂)
    {z : ℕ} {s t : Bytes} (h : Padded z (l.flatMap toString ++ s) t) :
    ∃ t₁ t₂ z', t = t₁ ++ t₂ ∧ DerivesMany S.maxStringLength t₁ l ∧ Padded z' s t₂ := by
  induction l generalizing z t with
  | nil => exact ⟨[], t, z, rfl, .nil, h⟩
  | cons x l ih =>
      rw [List.flatMap_cons, List.append_assoc] at h
      obtain ⟨t₁, t₂, z', rfl, hx, h'⟩ := hl x List.mem_cons_self h
      obtain ⟨t₃, t₄, z'', rfl, hxs, h''⟩ :=
        ih (fun y hy => hl y (List.mem_cons_of_mem x hy)) h'
      exact ⟨t₁ ++ t₃, t₄, z'', by simp, .cons hx hxs, h''⟩

/-- Every padding of an encoding derives the same expression. -/
theorem Padded.derives {S : Sys} {x : Sexp} (hx : x.Fits S) {z : ℕ} {s t : Bytes}
    (h : Padded z (toString x ++ s) t) :
    ∃ t₁ t₂ z', t = t₁ ++ t₂ ∧ Derives S.maxStringLength t₁ x ∧ Padded z' s t₂ := by
  induction x generalizing z s t with
  | atom a => exact h.derives_atom (Sexp.fits_atom.mp hx)
  | list l ih =>
      rw [toString_list, List.append_assoc, List.cons_append] at h
      obtain ⟨t', rfl, h'⟩ := h.paren_inv (by decide)
      obtain ⟨t₁, t₂, z', rfl, hxs, h''⟩ := Padded.derives_list
        (fun y hy _ _ _ => ih y hy (Sexp.fits_list.mp hx y hy)) h'
      obtain ⟨t₃, rfl, h'''⟩ := h''.paren_inv (by decide)
      exact ⟨'('.toUInt8 :: t₁ ++ [')'.toUInt8], t₃, z', by simp, .list hxs, h'''⟩

theorem derives_iff_padded {S : Sys} {s : Bytes} {x : Sexp} :
    Derives S.maxStringLength s x ↔ x.Fits S ∧ ∃ z, Padded z (toString x) s := by
  constructor
  · intro h
    exact ⟨h.fits, h.padded⟩
  · rintro ⟨hx, z, h⟩
    obtain ⟨t₁, t₂, z', rfl, hd, h'⟩ := Padded.derives hx (s := []) (by simpa using h)
    rw [h'.nil_inv, List.append_nil]
    exact hd

theorem derivesMany_iff_padded {S : Sys} {s : Bytes} {xs : List Sexp} :
    DerivesMany S.maxStringLength s xs ↔
      (∀ x ∈ xs, x.Fits S) ∧ ∃ z, Padded z (xs.flatMap toString) s := by
  constructor
  · intro h
    exact ⟨h.fits, h.padded⟩
  · rintro ⟨hxs, z, h⟩
    obtain ⟨t₁, t₂, z', rfl, hd, h'⟩ := Padded.derives_list
      (fun x hx _ _ _ => Padded.derives (hxs x hx)) (s := []) (by simpa using h)
    rw [h'.nil_inv, List.append_nil]
    exact hd

/-- Encoding undoes decoding up to zeros in front of the lengths: the
strings accepted as `x` are exactly the paddings of the encoding of `x`,
and only the padding by no zeros is that encoding itself. -/
theorem parse_iff_padded (P : Platform) :
    (∀ s x, parseString P.toSys s = .ok (.ok x) ↔
      x.Fits P.toSys ∧ ∃ z, Padded z (toString x) s) ∧
    (∀ s (xs : List Sexp), parseStringMany P.toSys s = .ok (.ok xs) ↔
      (∀ x ∈ xs, x.Fits P.toSys) ∧ ∃ z, Padded z (xs.flatMap toString) s) ∧
    (∀ s x z, Padded z (toString x) s → (toString x = s ↔ z = 0)) ∧
    ∀ s (xs : List Sexp) z, Padded z (xs.flatMap toString) s → (xs.flatMap toString = s ↔ z = 0) :=
  ⟨fun _ _ => parseString_eq_ok_iff.trans derives_iff_padded,
    fun _ _ => parseStringMany_eq_ok_iff.trans derivesMany_iff_padded,
    fun _ _ _ h => h.eq_iff, fun _ _ _ h => h.eq_iff⟩

/-- The strings `01:a` and `1:a` are both accepted, as the same atom. -/
theorem leading_zero_accepted :
    let x : Sexp := .atom ['a'.toUInt8]
    let s : Bytes := ['0'.toUInt8, '1'.toUInt8, ':'.toUInt8, 'a'.toUInt8]
    parseString Platform.native64.toSys s = .ok (.ok x) ∧ toString x ≠ s ∧
      parseString Platform.native64.toSys (toString x) = .ok (.ok x) := by
  intro x s
  have hfit : x.Fits Platform.native64.toSys := .atom (by norm_num [Platform.native64])
  have hds : ∀ c ∈ ['0'.toUInt8, '1'.toUInt8], IsDigit c := by
    intro c hc
    simp only [List.mem_cons, List.not_mem_nil, or_false] at hc
    rcases hc with rfl | rfl
    · decide
    · decide
  refine ⟨parseString_eq_ok_iff.mpr ?_, by decide, parseString_eq_ok_iff.mpr (derives_toString hfit)⟩
  exact .atom (List.cons_ne_nil _ _) hds (by decide) (by norm_num [Platform.native64])

end Csexp
