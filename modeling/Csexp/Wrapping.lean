import Csexp.Turns

/-!
# Lengths that wrap around

On a platform whose integers cannot hold ten times the longest string
length, the lexer compares a length that may already have wrapped. What
`parse_string` accepts there is what is written with the wrapped lengths.
-/

namespace Csexp

open Decimal (IsDigit value)
open Relation
open Stack (Token tokens)

variable {S : Sys}

/-! ## The string parser on any platform -/

theorem oneToken_turn {s : Bytes} {pos pos' : ℕ} {t t' : Lexer} {st st' : Stack}
    (h : oneToken S s pos s.length t st = .ok (.ok (pos', t', st'))) :
    Turn S ⟨s.drop pos, t, st⟩ ⟨s.drop pos', t', st'⟩ := by
  unfold oneToken at h
  split at h
  · cases h
  · rename_i c hc
    obtain ⟨hpos, hget⟩ := List.getElem?_eq_some_iff.mp (unsafeGet_eq_ok.mp hc)
    have hdrop : s.drop pos = c :: s.drop (pos + 1) := by
      rw [← hget]
      exact List.drop_eq_getElem_cons hpos
    rw [hdrop]
    split at h
    · cases h
    · cases h
    · rename_i n _ hf
      split at h
      · cases h
      · rename_i a hsub
        cases h
        obtain ⟨hn, hlen, ha⟩ := stringSub_eq_ok hsub
        have halen : a.length = n.toNat := by
          rw [ha, List.length_take_of_le]
          rw [List.length_drop]
          omega
        have hsplit : s.drop (pos + 1) = a ++ s.drop (pos + 1 + n.toNat) := by
          have hrest : s.drop (pos + 1 + n.toNat) = (s.drop (pos + 1)).drop n.toNat :=
            List.drop_drop.symm
          rw [ha, hrest, List.take_append_drop]
        rw [hsplit]
        apply Turn.fetch
        rw [hf, halen, Int.toNat_of_nonneg hn]
    · rename_i x _ hf
      split at h
      · cases h
      · cases h
      · rename_i hx
        cases h
        exact .other hf hx

theorem unsafeGet_of_drop {s r : Bytes} {pos : ℕ} {c : UInt8} (h : s.drop pos = c :: r) :
    pos < s.length ∧ unsafeGet s pos = .ok c ∧ s.drop (pos + 1) = r := by
  have hpos : pos < s.length := by
    by_contra hle
    rw [List.drop_eq_nil_iff.mpr (not_lt.mp hle)] at h
    cases h
  rw [List.drop_eq_getElem_cons hpos, List.cons.injEq] at h
  exact ⟨hpos, unsafeGet_eq_ok.mpr (h.1 ▸ List.getElem?_eq_getElem hpos), h.2⟩

theorem stringSub_of_drop {s a r : Bytes} {ofs : ℕ} (hofs : ofs ≤ s.length)
    (h : s.drop ofs = a ++ r) : stringSub s ofs a.length = .ok a ∧
      s.drop (ofs + a.length) = r ∧ ofs + a.length ≤ s.length := by
  have hlen := congrArg List.length h
  rw [List.length_drop, List.length_append] at hlen
  have hrest : s.drop (ofs + a.length) = (s.drop ofs).drop a.length := List.drop_drop.symm
  refine ⟨?_, by rw [hrest, h, List.drop_left], by omega⟩
  rw [stringSub, if_neg (by omega), Int.toNat_natCast, h, List.take_left]

theorem turn_oneToken {s : Bytes} {pos : ℕ} {t : Lexer} {st : Stack} {h : Head Bytes}
    (ht : Turn S ⟨s.drop pos, t, st⟩ h) : ∃ pos', h.rest = s.drop pos' ∧ pos' ≤ s.length ∧
      pos ≠ s.length ∧
      oneToken S s pos s.length t st = .ok (.ok (pos', h.lexer, h.stack)) := by
  generalize hs : s.drop pos = rest at ht
  cases ht with
  | other hf hx =>
      obtain ⟨hpos, hget, hrest⟩ := unsafeGet_of_drop hs
      refine ⟨pos + 1, hrest.symm, hpos, hpos.ne, ?_⟩
      simp only [oneToken, hget, hf, hx]
  | fetch hf =>
      obtain ⟨hpos, hget, hrest⟩ := unsafeGet_of_drop hs
      obtain ⟨hsub, hdrop, hle⟩ := stringSub_of_drop hpos hrest
      refine ⟨_, hdrop.symm, hle, hpos.ne, ?_⟩
      simp only [oneToken, hget, hf, hsub, Int.toNat_natCast]

/-- While the stack stays unfinished the loop of `parse_string` follows the
turns. -/
theorem parseString_loop_of_turns {s : Bytes} {pos : ℕ} {t : Lexer} {st : Stack} {h : Head Bytes}
    (hpos : pos ≤ s.length) (hr : ReflTransGen (Turn S) ⟨s.drop pos, t, st⟩ h)
    (hu : h.stack.Unfinished) : ∃ pos', h.rest = s.drop pos' ∧ pos' ≤ s.length ∧
      parseString.loop S s pos s.length t st =
        parseString.loop S s pos' s.length h.lexer h.stack := by
  induction hr with
  | refl => exact ⟨pos, rfl, hpos, rfl⟩
  | @tail g h _ ht ih =>
      obtain ⟨p, hp, -, hloop⟩ := ih (Turn.unfinished_of_turn ht hu)
      obtain ⟨rest, t', st'⟩ := g
      obtain rfl : rest = s.drop p := hp
      obtain ⟨p', hp', hle, hne, htok⟩ := turn_oneToken ht
      refine ⟨p', hp', hle, ?_⟩
      have hturn : parseString.Turn S s ⟨p, t', st'⟩ ⟨p', h.lexer, h.stack⟩ :=
        ⟨hne, htok, hu.ne_complete⟩
      rw [hloop, parseString.loop_turn hturn]

theorem parseString_loop_complete {s : Bytes} {pos : ℕ} {t : Lexer} {st : Stack} {h : Head Bytes}
    {x : Sexp} (ht : Turn S ⟨s.drop pos, t, st⟩ h) (hrest : h.rest = [])
    (hx : h.stack = .sexp x .empty) : parseString.loop S s pos s.length t st = .ok (.ok x) := by
  obtain ⟨pos', hp', hle, hne, htok⟩ := turn_oneToken ht
  have hend : pos' = s.length := by
    rw [hrest] at hp'
    exact le_antisymm hle (List.drop_eq_nil_iff.mp hp'.symm)
  rw [parseString.loop_of_ne hne, htok]
  simp only
  rw [hx, parseString.cont, if_pos hend]

theorem exists_turns_of_parseString_loop {s : Bytes} {pos : ℕ} (hpos : pos ≤ s.length) {t : Lexer}
    {st : Stack} (hu : st.Unfinished) {x : Sexp}
    (h : parseString.loop S s pos s.length t st = .ok (.ok x)) :
    ∃ n, ReflTransGen (Turn S) ⟨s.drop pos, t, st⟩ ⟨[], ⟨.init, n⟩, .sexp x .empty⟩ := by
  induction hk : s.length - pos using Nat.strongRecOn generalizing pos t st with
  | ind k ih =>
      by_cases hend : pos = s.length
      · rw [parseString.loop, if_pos hend, feedEoiSingle_of_unfinished t hu] at h
        cases h
      · rw [parseString.loop_of_ne hend] at h
        split at h
        · cases h
        · cases h
        · rename_i pos' t' st' htok
          have hturn := oneToken_turn htok
          have hlt := oneToken_lt htok
          have hle := (oneToken_grows htok).2.2
          by_cases hdone : ∃ y, st' = .sexp y .empty
          · obtain ⟨y, rfl⟩ := hdone
            rw [parseString.cont] at h
            split at h
            · rename_i hend'
              cases h
              have hinit := (Turn.unfinished_iff_of_complete hturn rfl).mp hu
              obtain ⟨state, n⟩ := t'
              obtain rfl : state = .init := hinit
              rw [hend', List.drop_length] at hturn
              exact ⟨n, .single hturn⟩
            · cases h
          · have hu' := Stack.unfinished_grows hu (oneToken_grows htok).1
              (fun y hy => hdone ⟨y, hy⟩)
            rw [parseString_cont_of_unfinished _ _ _ _ _ hu'] at h
            obtain ⟨n, hr⟩ := ih _ (by omega) hle hu' h rfl
            exact ⟨n, .head hturn hr⟩

/-- On any platform `parse_string` accepts what is written with the lengths
that its lexer decodes. -/
theorem parseString_eq_ok_iff_written (hint : 9 ≤ S.maxInt) (hnine : 9 ≤ S.maxStringLength)
    {s : Bytes} {x : Sexp} :
    parseString S s = .ok (.ok x) ↔ Written (Decoded S) (tokens x) s := by
  constructor
  · intro h
    obtain ⟨n, hr⟩ := exists_turns_of_parseString_loop (Nat.zero_le _) (Or.inl rfl) h
    have hbehind := Turn.behind_of_reachable hint hnine hr
    cases hbehind with
    | init n hw hb =>
        rw [List.append_nil, List.drop_zero] at hb
        rw [hb]
        exact hw
  · intro h
    obtain ⟨n, hr⟩ := Turn.written hint h (Stack.replay_tokens x .empty) 0 []
    rw [List.append_nil, ← List.drop_zero (l := s)] at hr
    cases hr with
    | @tail g _ hr ht =>
        have hu : g.stack.Unfinished := (Turn.unfinished_iff_of_complete ht rfl).mpr rfl
        obtain ⟨p, hp, -, hloop⟩ := parseString_loop_of_turns (Nat.zero_le _) hr hu
        rw [parseString]
        refine hloop.trans ?_
        obtain ⟨rest, t, st⟩ := g
        obtain rfl : rest = s.drop p := hp
        exact parseString_loop_complete ht rfl rfl

/-! ## Digits that slip past the guard -/

/-- Digits of a value beyond the longest string length, none of which the
guard stops. -/
def Lexer.Slips (S : Sys) (ds : Bytes) : Prop :=
  Lexer.Guarded S ds ∧ S.maxStringLength < value ds

theorem Decoded.exact (hmax : (S.maxStringLength : ℤ) ≤ S.maxInt) {ds : Bytes} {n : ℕ}
    (h : Decoded S ds n) (hs : ¬ Lexer.Slips S ds) : Exact S.maxStringLength ds n := by
  have hM : value ds ≤ S.maxStringLength := not_lt.mp fun hlt => hs ⟨h.guarded, hlt⟩
  have hwrap := h.wrap_eq
  rw [S.wrap_eq_self (Int.natCast_nonneg _) (by omega), Int.ofNat_inj] at hwrap
  exact ⟨h.ne_nil, h.digits, hwrap, h.le⟩

/-- If a length in `s` slips past the guard, then `s` is no derivation of the
expression it is read as. -/
theorem not_derives_of_slips {s : Bytes} {x : Sexp}
    (h : WrittenWith (Decoded S) (Lexer.Slips S) (tokens x) s) (M : ℕ) : ¬ Derives M s x := by
  intro hx
  obtain ⟨ts₁, a, ts₂, s₁, ds, s₂, hts, rfl, h₁, hn, hslip, h₂⟩ := h
  have hw := hx.written
  rw [hts] at hw
  obtain ⟨u₁, u₂, heq, hu₁, hu₂⟩ := hw.of_append
  obtain ⟨rfl, hrest⟩ := h₁.append_inj (fun _ _ h => h.digits) (fun _ _ h => h.digits) hu₁ heq
  cases hu₂ with
  | atom hn' hu₂ =>
      obtain ⟨rfl, -⟩ := colon_unique hn.digits hn'.digits hrest
      have hle := hn.le
      have hlt := hslip.2
      rw [hn'.value_eq] at hlt
      omega

theorem derives_iff_not_slips (hmax : (S.maxStringLength : ℤ) ≤ S.maxInt)
    (hnine : 9 ≤ S.maxStringLength) (s : Bytes) :
    (∀ x, parseString S s = .ok (.ok x) → ∃ M, Derives M s x) ↔
      ¬ ∃ x, WrittenWith (Decoded S) (Lexer.Slips S) (tokens x) s := by
  have hint : 9 ≤ S.maxInt := by omega
  constructor
  · rintro h ⟨x, hx⟩
    obtain ⟨M, hd⟩ := h x ((parseString_eq_ok_iff_written hint hnine).mpr hx.written)
    exact not_derives_of_slips hx M hd
  · intro h x hx
    have hw := (parseString_eq_ok_iff_written hint hnine).mp hx
    rcases hw.with_or (Lexer.Slips S) with hslip | hw
    · exact absurd ⟨x, hslip⟩ h
    · exact ⟨_, derives_iff_written.mpr (hw.mono fun _ _ h => h.1.exact hmax h.2)⟩

/-! ## Atom tokens -/

namespace Lexer

/-- The lexer is inside a length, behind a part of the input that left it
between tokens. -/
def InLength (S : Sys) (s : Bytes) (t : Lexer) : Prop :=
  ∃ pre ds xs u, s = pre ++ ds ∧ feedAll S create pre = .ok (xs, u) ∧ u.state = .init ∧
    Passes S ds ∧ t = ⟨.parsingLength, S.wrap (value ds)⟩

theorem inLength_of_feedAll (hint : 9 ≤ S.maxInt) (hnine : 9 ≤ S.maxStringLength) {s : Bytes}
    {xs : List Lexer.Token} {t : Lexer} (h : feedAll S create s = .ok (xs, t)) :
    t.state = .init ∨ InLength S s t := by
  induction s using List.reverseRecOn generalizing xs t with
  | nil =>
      cases h
      exact Or.inl rfl
  | append_singleton s c ih =>
      obtain ⟨⟨ys, u⟩, hu, hc⟩ := Fold.run_concat_eq_ok.mp h
      obtain ⟨x, hx, -⟩ := feedNext_eq_ok.mp hc
      rcases ih hu with hinit | ⟨pre, ds, zs, v, rfl, hv, hvi, hds, rfl⟩
      · obtain ⟨state, m⟩ := u
        obtain rfl : state = .init := hinit
        rcases feed_init_eq_ok hx with ⟨-, -, rfl⟩ | ⟨-, -, rfl⟩ | ⟨hd, -, -⟩
        · exact Or.inl rfl
        · exact Or.inl rfl
        · have hfirst := hx.symm.trans (feed_first_digit hint hd m)
          cases hfirst
          exact Or.inr ⟨s, [c], ys, _, rfl, hu, rfl, passes_singleton hint hnine hd, rfl⟩
      · rcases feed_digits_eq_ok hds hx with ⟨-, hds', rfl⟩ | ⟨-, -, rfl⟩
        · exact Or.inr ⟨pre, ds ++ [c], zs, v, by simp, hv, hvi, hds', rfl⟩
        · exact Or.inl rfl

/-- Digits that pass the guard are decoded as their value unless they slip
past it. -/
theorem wrap_eq_value_iff (hmax : (S.maxStringLength : ℤ) ≤ S.maxInt) {ds : Bytes}
    (hg : Guarded S ds) : S.wrap (value ds) = value ds ↔ ¬ Slips S ds := by
  have hle := hg.self
  constructor
  · rintro h ⟨-, hlt⟩
    omega
  · intro h
    have hM : value ds ≤ S.maxStringLength := not_lt.mp fun hlt => h ⟨hg, hlt⟩
    exact S.wrap_eq_self (Int.natCast_nonneg _) (by omega)

/-- Every atom token ends a run of digits, and it gives their value unless
they slip past the guard. -/
theorem atom_of_feedAll (hmax : (S.maxStringLength : ℤ) ≤ S.maxInt)
    (hnine : 9 ≤ S.maxStringLength) {s : Bytes} {c : UInt8} {xs : List Lexer.Token} {t t' : Lexer}
    {n : ℤ} (h : feedAll S create s = .ok (xs, t)) (hc : feed S t c = .ok (.atom n, t')) :
    ∃ pre ds ys u, s = pre ++ ds ∧ feedAll S create pre = .ok (ys, u) ∧ u.state = .init ∧
      ds ≠ [] ∧ (∀ d ∈ ds, IsDigit d) ∧ (n = value ds ↔ ¬ Slips S ds) := by
  rcases inLength_of_feedAll (by omega) hnine h with
    hinit | ⟨pre, ds, ys, u, rfl, hu, hui, hds, rfl⟩
  · obtain ⟨state, m⟩ := t
    obtain rfl : state = .init := hinit
    exact absurd hc (feed_init_ne_atom S m n c t')
  · rcases feed_digits_eq_ok hds hc with ⟨hx, -, -⟩ | ⟨-, hx, -⟩
    · cases hx
    · cases hx
      exact ⟨pre, ds, ys, u, rfl, hu, hui, hds.ne_nil, hds.digits,
        wrap_eq_value_iff hmax hds.guarded⟩

theorem feedAll_of_not_guarded (hint : 9 ≤ S.maxInt) (hnine : 9 ≤ S.maxStringLength) {ds : Bytes}
    (hds : ∀ c ∈ ds, IsDigit c) (hg : ¬ Guarded S ds) (m : ℤ) :
    feedAll S ⟨.init, m⟩ ds = .error (.parseError atomTooBig) := by
  obtain ⟨pre, c, post, rfl, hpre, hc, hlt⟩ := exists_first_rejected hint hnine hds hg
  have hstop : feedAll S ⟨.init, m⟩ (pre ++ [c]) = .error (.parseError atomTooBig) := by
    rw [feedAll_concat (feedAll_digits hint hpre m), feed_next_digit S hc, if_pos hlt]
    rfl
  have hsplit : pre ++ c :: post = (pre ++ [c]) ++ post := by simp
  rw [hsplit]
  exact Fold.run_append_error hstop post

/-- A length followed by a colon gives an atom of its value unless the
digits slip past the guard. -/
theorem feedAll_colon_iff (hmax : (S.maxStringLength : ℤ) ≤ S.maxInt)
    (hnine : 9 ≤ S.maxStringLength) {ds : Bytes} (hne : ds ≠ []) (hds : ∀ c ∈ ds, IsDigit c)
    (m : ℤ) : (∀ xs (n : ℤ) t, feedAll S ⟨.init, m⟩ (ds ++ [':'.toUInt8]) = .ok (xs ++ [.atom n], t) →
      n = value ds) ↔ ¬ Slips S ds := by
  have hint : 9 ≤ S.maxInt := by omega
  by_cases hg : Guarded S ds
  · have hcolon : feedAll S ⟨.init, m⟩ (ds ++ [':'.toUInt8]) = .ok
        (List.replicate ds.length (.other .await) ++ [.atom (S.wrap (value ds))],
          ⟨.init, S.wrap (value ds)⟩) := by
      rw [feedAll_concat (feedAll_digits hint ⟨hne, hds, hg⟩ m), feed_colon]
      rfl
    rw [← wrap_eq_value_iff hmax hg, hcolon]
    constructor
    · intro h
      exact h _ _ _ rfl
    · intro h xs n t heq
      have htokens := congrArg Prod.fst (Except.ok.inj heq)
      have hlast := (List.append_inj' htokens rfl).2
      obtain rfl : S.wrap (value ds) = n := by simpa using hlast
      exact h
  · refine iff_of_true ?_ fun hs => hg hs.1
    intro xs n t h
    rw [feedAll, Fold.run_append_error (feedAll_of_not_guarded hint hnine hds hg m)] at h
    cases h

end Lexer

/-! ## The JavaScript platform -/

/-- What the JavaScript runtime reports, where `Sys.max_string_length` is
computed from the largest block. -/
def js : Sys where
  intSize := 32
  maxStringLength := 4 * 536870911 - 1

/-- On the JavaScript platform the lengths that slip past the guard, and no
others, make `parse_string` misread a string, give an atom token of a wrong
length behind digits, and do so in any run of the lexer. -/
theorem js_lengths (s : Bytes) :
    ((∀ x, parseString js s = .ok (.ok x) → ∃ M, Derives M s x) ↔
      ¬ ∃ x, WrittenWith (Decoded js) (Lexer.Slips js) (tokens x) s) ∧
    (s ≠ [] → (∀ c ∈ s, IsDigit c) → ∀ m : ℤ,
      ((∀ xs (n : ℤ) t, Lexer.feedAll js ⟨.init, m⟩ (s ++ [':'.toUInt8]) =
        .ok (xs ++ [.atom n], t) → n = value s) ↔ ¬ Lexer.Slips js s)) ∧
    ∀ c xs t (n : ℤ) t', Lexer.feedAll js Lexer.create s = .ok (xs, t) →
      t.feed js c = .ok (.atom n, t') →
      ∃ pre ds ys u, s = pre ++ ds ∧ Lexer.feedAll js Lexer.create pre = .ok (ys, u) ∧
        u.state = .init ∧ ds ≠ [] ∧ (∀ d ∈ ds, IsDigit d) ∧
        (n = value ds ↔ ¬ Lexer.Slips js ds) := by
  have hmax : (js.maxStringLength : ℤ) ≤ js.maxInt := by norm_num [js, Sys.maxInt]
  have hnine : 9 ≤ js.maxStringLength := by norm_num [js]
  exact ⟨derives_iff_not_slips hmax hnine s,
    fun hne hds m => Lexer.feedAll_colon_iff hmax hnine hne hds m,
    fun _ _ _ _ _ h hc => Lexer.atom_of_feedAll hmax hnine h hc⟩

theorem js_lengths_sample :
    let ds : Bytes := ['4'.toUInt8, '2'.toUInt8]
    ((∀ xs (n : ℤ) t, Lexer.feedAll js ⟨.init, 5⟩ (ds ++ [':'.toUInt8]) =
      .ok (xs ++ [.atom n], t) → n = value ds) ↔ ¬ Lexer.Slips js ds) ∧
    ∃ pre ds ys u, ['7'.toUInt8] = pre ++ ds ∧
      Lexer.feedAll js Lexer.create pre = .ok (ys, u) ∧ u.state = .init ∧ ds ≠ [] ∧
      (∀ d ∈ ds, IsDigit d) ∧ ((7 : ℤ) = value ds ↔ ¬ Lexer.Slips js ds) := by
  intro ds
  have hds : ∀ d ∈ ds, IsDigit d := Decimal.forall_isDigit_of_all (by decide)
  exact ⟨(js_lengths ds).2.1 (List.cons_ne_nil _ _) hds 5,
    (js_lengths ['7'.toUInt8]).2.2 ':'.toUInt8 [.other .await] ⟨.parsingLength, 7⟩ 7 ⟨.init, 7⟩
      rfl rfl⟩

theorem js_misreads :
    let ds : Bytes := "4294967300".toList.map Char.toUInt8
    let a : Bytes := "abcd".toList.map Char.toUInt8
    let s : Bytes := ds ++ ':'.toUInt8 :: a
    let es : Bytes := "2147483648".toList.map Char.toUInt8
    parseString js s = .ok (.ok (.atom a)) ∧ (∀ M, ¬ Derives M s (.atom a)) ∧
      Lexer.feedAll js Lexer.create (es ++ [':'.toUInt8]) =
        .ok (List.replicate 10 (.other .await) ++ [.atom (-2147483648)],
          ⟨.init, -2147483648⟩) := by
  intro ds a s es
  have hds : ∀ c ∈ ds, IsDigit c := Decimal.forall_isDigit_of_all (by decide)
  have hes : ∀ c ∈ es, IsDigit c := Decimal.forall_isDigit_of_all (by decide)
  have hg : Lexer.Guarded js ds := by decide
  have hn : Decoded js ds a.length := ⟨⟨by decide, hds, hg⟩, by decide⟩
  have hslip : WrittenWith (Decoded js) (Lexer.Slips js) (tokens (.atom a)) s := by
    rw [Stack.tokens_atom]
    exact ⟨[], a, [], [], ds, [], rfl, by simp [s], .nil, hn, ⟨hg, by decide⟩, .nil⟩
  refine ⟨?_, not_derives_of_slips hslip, ?_⟩
  · exact (parseString_eq_ok_iff_written (by decide) (by decide)).mpr hslip.written
  · have hwrap : js.wrap (value es) = -2147483648 := by decide
    have hread := Lexer.feedAll_digits (S := js) (by decide) ⟨by decide, hes, by decide⟩ 0
    rw [hwrap] at hread
    exact (Lexer.feedAll_concat hread ':'.toUInt8).trans (by rw [Lexer.feed_colon]; rfl)

end Csexp
