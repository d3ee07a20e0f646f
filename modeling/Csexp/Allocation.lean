import Csexp.Turns

/-!
# Lengths that cannot be allocated

A channel parser creates the buffer of an atom before it reads the atom.
Where memory is limited, it raises at the first length announced beyond
the limit, whatever the channel holds. On all other channels it computes
what it computes with unlimited memory.
-/

namespace Csexp

open Decimal (IsDigit value)
open Relation
open Stack (tokens)

/-- Memory for `bound` bytes. -/
def Allocator.upTo (bound : ℕ) : Allocator := fun n => decide (n ≤ bound)

theorem Allocator.upTo_eq_true {bound n : ℕ} : upTo bound n = true ↔ n ≤ bound := by
  simp [upTo]

theorem Allocator.upTo_eq_false {bound n : ℕ} : upTo bound n = false ↔ bound < n := by
  simp [upTo]

/-- The next character makes the parser ask for `n` bytes. -/
def Asks (n : ℕ) (h : Head Bytes) : Prop :=
  ∃ r, h.rest = ':'.toUInt8 :: r ∧ h.lexer = ⟨.parsingLength, n⟩

/-! ## One token -/

section OneToken

variable {S : Sys} {P : Platform} {alloc : Allocator}

theorem reallyInputString_of_alloc {n : ℕ} (h : alloc n = true) (ic : InChannel) :
    reallyInputString S alloc n ic = reallyInputString S .always n ic := by
  simp only [reallyInputString, Int.toNat_natCast, h, Allocator.always]

theorem reallyInputString_outOfMemory {n : ℕ} (hn : n ≤ S.maxStringLength)
    (h : alloc n = false) (ic : InChannel) :
    reallyInputString S alloc n ic = (.error .outOfMemory, ic) := by
  have hneg : ¬ ((n : ℤ) < 0 ∨ (S.maxStringLength : ℤ) < n) := by omega
  simp only [reallyInputString, if_neg hneg, Int.toNat_natCast, h, if_true]

theorem Channel.oneToken_outOfMemory {n : ℕ} (hn : n ≤ S.maxStringLength)
    (h : alloc n = false) (st : Stack) (ic : InChannel) :
    Channel.oneToken S alloc ':'.toUInt8 ⟨.parsingLength, n⟩ st ic = (.error .outOfMemory, ic) := by
  simp only [Channel.oneToken, Lexer.feed_colon, reallyInputString_outOfMemory hn h]

/-- With enough memory for the length that is asked for, a token is read as
with unlimited memory. -/
theorem Channel.oneToken_of_alloc {c : UInt8} {t : Lexer} (ht : t.Bounded P.toSys) {st : Stack}
    {ic : InChannel} (h : ∀ n, Asks n ⟨c :: ic, t, st⟩ → alloc n = true) :
    Channel.oneToken P.toSys alloc c t st ic = Channel.oneToken P.toSys .always c t st ic := by
  have hf := Lexer.feeds P ht c
  unfold Channel.oneToken
  generalize t.feed P.toSys c = r at hf
  cases hf with
  | colon n hM =>
      have halloc : alloc n = true := h n ⟨ic, rfl, rfl⟩
      simp only [reallyInputString_of_alloc halloc]
  | _ => rfl

theorem reallyInputString_eq_ok {n : ℤ} {ic ic' : InChannel} {a : Bytes}
    (h : reallyInputString S alloc n ic = (.ok a, ic')) : n = a.length ∧ ic = a ++ ic' := by
  unfold reallyInputString at h
  split_ifs at h with hneg halloc hlen
  · cases h
  · cases h
  · cases h
  · simp only [Prod.mk.injEq, Except.ok.injEq] at h
    obtain ⟨rfl, rfl⟩ := h
    rw [List.length_take_of_le (not_lt.mp hlen), Int.toNat_of_nonneg (by omega)]
    exact ⟨rfl, (List.take_append_drop _ ic).symm⟩

/-- A token read from a channel is a turn. -/
theorem Channel.oneToken_turn {c : UInt8} {t t' : Lexer} {st st' : Stack} {ic ic' : InChannel}
    (h : Channel.oneToken S alloc c t st ic = (.ok (t', st'), ic')) :
    Turn S ⟨c :: ic, t, st⟩ ⟨ic', t', st'⟩ := by
  unfold Channel.oneToken at h
  split at h
  · cases h
  · rename_i n _ hf
    split at h
    · cases h
    · cases h
    · rename_i a _ hread
      cases h
      obtain ⟨rfl, rfl⟩ := reallyInputString_eq_ok hread
      exact .fetch hf
  · rename_i x _ hf
    split at h
    · cases h
    · rename_i hx
      cases h
      exact .other hf hx

theorem Turn.channelOneToken {c : UInt8} {t : Lexer} (ht : t.Bounded P.toSys) {st : Stack}
    {ic : InChannel} {h : Head Bytes} (hturn : Turn P.toSys ⟨c :: ic, t, st⟩ h) :
    Channel.oneToken P.toSys .always c t st ic = (.ok (h.lexer, h.stack), h.rest) := by
  unfold Channel.oneToken
  cases hturn with
  | other hf hx => simp only [hf, hx]
  | @fetch _ a r _ t' _ hf =>
      have hM : a.length ≤ P.maxStringLength := by
        have hfeeds := Lexer.feeds P ht c
        rw [hf] at hfeeds
        generalize hn : (a.length : ℤ) = n at hfeeds
        cases hfeeds with
        | colon n hM =>
            rw [Int.ofNat_inj] at hn
            exact hn ▸ hM
      have hlen : ¬ (a ++ r).length < a.length := by simp
      simp only [hf, reallyInputString_always hM, if_neg hlen, List.take_left, List.drop_left]

end OneToken

theorem Turn.bounded {P : Platform} {g h : Head Bytes} (ht : Turn P.toSys g h)
    (hb : g.lexer.Bounded P.toSys) : h.lexer.Bounded P.toSys := by
  cases ht with
  | other hf _ => exact Lexer.feed_bounded P hb hf
  | fetch hf => exact Lexer.feed_bounded P hb hf

/-! ## Loops over tokens -/

/-- What the loops of `input_opt` and `input_many` have in common: they read
token after token while the stack stays `good`, and an exception ends
them. -/
structure TokenLoop (S : Sys) (alloc : Allocator) {α : Type} (good : Stack → Prop)
    (final : Stack → Eval α) (atEnd : Lexer → Stack → Eval α)
    (loop : Lexer → Stack → Chan α) : Prop where
  nil : ∀ t st, loop t st [] = (atEnd t st, [])
  error : ∀ t st c ic e ic', Channel.oneToken S alloc c t st ic = (.error e, ic') →
    loop t st (c :: ic) = (.error e, ic')
  next : ∀ t st c ic t' st' ic', Channel.oneToken S alloc c t st ic = (.ok (t', st'), ic') →
    good st' → loop t st (c :: ic) = loop t' st' ic'
  stop : ∀ t st c ic t' st' ic', Channel.oneToken S alloc c t st ic = (.ok (t', st'), ic') →
    good st → ¬ good st' → loop t st (c :: ic) = (final st', ic')

namespace TokenLoop

variable {P : Platform} {alloc : Allocator} {α : Type} {good : Stack → Prop}
  {final : Stack → Eval α} {atEnd : Lexer → Stack → Eval α} {loop loop' : Lexer → Stack → Chan α}

/-- With memory for all lengths that are asked for, nothing changes. -/
theorem eq_of_alloc (hl : TokenLoop P.toSys alloc good final atEnd loop)
    (hl' : TokenLoop P.toSys .always good final atEnd loop') {g : Head Bytes}
    (hb : g.lexer.Bounded P.toSys) (hg : good g.stack)
    (h : ∀ h n, ReflTransGen (Turn P.toSys) g h → good h.stack → Asks n h → alloc n = true) :
    loop g.lexer g.stack g.rest = loop' g.lexer g.stack g.rest := by
  induction hk : g.rest.length using Nat.strongRecOn generalizing g with
  | ind k ih =>
      obtain ⟨rest, t, st⟩ := g
      cases rest with
      | nil => rw [hl.nil, hl'.nil]
      | cons c ic =>
          have htok := Channel.oneToken_of_alloc hb fun n ha => h _ n .refl hg ha
          generalize hr : Channel.oneToken P.toSys .always c t st ic = r at htok
          obtain ⟨e | ⟨t', st'⟩, ic'⟩ := r
          · rw [hl.error t st c ic _ _ htok, hl'.error t st c ic _ _ hr]
          · have hturn := Channel.oneToken_turn hr
            by_cases hgood : good st'
            · rw [hl.next t st c ic _ _ _ htok hgood, hl'.next t st c ic _ _ _ hr hgood]
              have hle := Channel.oneToken_le P.toSys .always c t st ic
              rw [hr] at hle
              refine ih _ ?_ (g := ⟨ic', t', st'⟩) (hturn.bounded hb) hgood
                (fun h' n hr' => h h' n (.head hturn hr')) rfl
              rw [← hk]
              exact Nat.lt_succ_of_le hle
            · rw [hl.stop t st c ic _ _ _ htok hg hgood, hl'.stop t st c ic _ _ _ hr hg hgood]

theorem outOfMemory_of_asks (hl : TokenLoop P.toSys alloc good final atEnd loop)
    {g : Head Bytes} (hb : g.lexer.Bounded P.toSys) {n : ℕ} (ha : Asks n g)
    (halloc : alloc n = false) : (loop g.lexer g.stack g.rest).1 = .error .outOfMemory := by
  obtain ⟨rest, t, st⟩ := g
  obtain ⟨r, rfl, rfl⟩ : ∃ r, rest = ':'.toUInt8 :: r ∧ t = ⟨.parsingLength, n⟩ := ha
  have hn : n ≤ P.maxStringLength := Int.ofNat_le.mp hb.2
  rw [hl.error _ st _ r _ _ (Channel.oneToken_outOfMemory hn halloc st r)]

/-- If the turns lead to a length that cannot be allocated, the loop ends
there or at an earlier such length. -/
theorem outOfMemory (hl : TokenLoop P.toSys alloc good final atEnd loop)
    (hgood : ∀ g h, Turn P.toSys g h → good h.stack → good g.stack) {g h : Head Bytes} {n : ℕ}
    (hb : g.lexer.Bounded P.toSys) (hr : ReflTransGen (Turn P.toSys) g h) (hh : good h.stack)
    (ha : Asks n h) (halloc : alloc n = false) :
    good g.stack ∧ (loop g.lexer g.stack g.rest).1 = .error .outOfMemory := by
  induction hr using ReflTransGen.head_induction_on with
  | refl => exact ⟨hh, hl.outOfMemory_of_asks hb ha halloc⟩
  | @head g k ht _ ih =>
      obtain ⟨hk, hloop⟩ := ih (ht.bounded hb)
      refine ⟨hgood g k ht hk, ?_⟩
      by_cases hask : ∃ m, Asks m g ∧ alloc m = false
      · obtain ⟨m, hm, hfalse⟩ := hask
        exact hl.outOfMemory_of_asks hb hm hfalse
      · have hmem : ∀ m, Asks m g → alloc m = true := by
          intro m hm
          by_contra hfalse
          exact hask ⟨m, hm, by simpa using hfalse⟩
        obtain ⟨rest, t, st⟩ := g
        obtain ⟨c, ic, rfl⟩ : ∃ c ic, rest = c :: ic := by
          cases ht with
          | other _ _ => exact ⟨_, _, rfl⟩
          | fetch _ => exact ⟨_, _, rfl⟩
        have htok := (Channel.oneToken_of_alloc hb hmem).trans (ht.channelOneToken hb)
        rw [hl.next t st c ic _ _ _ htok hk]
        exact hloop

end TokenLoop

/-! ## The two loops -/

theorem tokenLoop_inputMany (S : Sys) (alloc : Allocator) :
    TokenLoop S alloc (fun _ => True) (fun _ => .error .assertFailure)
      (fun t st => match (do t.feedEoi; st.toList : Eval (List Sexp)) with
        | .error e => .error e
        | .ok l => .ok (.ok l)) (inputMany.loop S alloc) where
  nil t st := by
    rw [inputMany.loop_nil]
    cases (do t.feedEoi; st.toList : Eval (List Sexp)) <;> rfl
  error t st c ic e ic' h := by rw [inputMany.loop_cons, h]
  next t st c ic t' st' ic' h _ := by rw [inputMany.loop_cons, h]
  stop _ _ _ _ _ _ _ _ _ h := absurd trivial h

theorem tokenLoop_inputOpt (S : Sys) (alloc : Allocator) :
    TokenLoop S alloc Stack.Unfinished
      (fun st => match st with
        | .sexp x .empty => .ok (.ok (some x))
        | _ => .error .assertFailure)
      (fun _ _ => .error .endOfFile) (inputOpt.loop S alloc) where
  nil := inputOpt.loop_nil S alloc
  error t st c ic e ic' h := by rw [inputOpt.loop_cons, h]
  next t st c ic t' st' ic' h hu := by
    have hturn : inputOpt.Turn S alloc ⟨c :: ic, t, st⟩ ⟨ic', t', st'⟩ :=
      ⟨c, ic, rfl, h, hu.ne_complete⟩
    exact inputOpt.loop_turn hturn
  stop t st c ic t' st' ic' h hu hstop := by
    have hcomplete : ∃ x, st' = .sexp x .empty := by
      by_contra hno
      exact hstop (Stack.unfinished_grows hu (Channel.oneToken_grows h).1 fun x hx => hno ⟨x, hx⟩)
    obtain ⟨x, rfl⟩ := hcomplete
    rw [inputOpt.loop_cons, h]

/-! ## Announced lengths -/

/-- Behind bytes that spell the stack `t`, the channel contents `b` announce
an atom of `n` bytes, with `n` at most `M`. -/
def Announces (M : ℕ) (b : Bytes) (t : Stack) (n : ℕ) : Prop :=
  ∃ s ds r, b = s ++ (ds ++ ':'.toUInt8 :: r) ∧ StackSpells M s t ∧ Exact M ds n

section Announced

variable {P : Platform} {b : Bytes} {st : Stack} {n : ℕ}

/-- The lengths announced are the ones that are asked for. -/
theorem announces_iff_asks : Announces P.maxStringLength b st n ↔
    ∃ h, ReflTransGen (Turn P.toSys) ⟨b, Lexer.create, .empty⟩ h ∧ h.stack = st ∧ Asks n h := by
  have hmax := P.ten_mul_le_maxInt
  constructor
  · rintro ⟨s, ds, r, rfl, hs, hds⟩
    have hd := (decoded_iff_exact P).mpr hds
    have hw := (stackSpells_iff_written.mp hs).mono fun _ _ h => (decoded_iff_exact P).mpr h
    obtain ⟨m, hr⟩ := Turn.written (by omega) hw (Stack.replay_flatten st) 0
      (ds ++ ':'.toUInt8 :: r)
    have hr' := Turn.digits (by omega) hd.toPasses m st (':'.toUInt8 :: r)
    rw [hd.wrap_eq] at hr'
    exact ⟨_, hr.trans hr', rfl, r, rfl, rfl⟩
  · rintro ⟨⟨rest, t, st'⟩, hr, rfl, r, hrest, ht⟩
    have hbehind := Turn.behind_of_reachable (by omega) P.nine_le_maxStringLength hr
    cases hbehind with
    | init m hw hb => cases ht
    | @length s ds _ _ hw hds hb =>
        obtain rfl : rest = ':'.toUInt8 :: r := hrest
        have hwrap : P.wrap (value ds) = n := congrArg Lexer.n ht
        have hexact := (decoded_iff_exact P).mp ⟨hds, hwrap⟩
        exact ⟨s, ds, r, hb, stackSpells_iff_written.mpr
          (hw.mono fun _ _ h => (decoded_iff_exact P).mp h), hexact⟩

end Announced

/-! ## The entry points -/

section Entries

variable {P : Platform} {alloc : Allocator} {b : Bytes}

theorem inputMany_of_alloc
    (h : ∀ t n, Announces P.maxStringLength b t n → alloc n = true) :
    inputMany P.toSys alloc b = inputMany P.toSys .always b := by
  have hloop := (tokenLoop_inputMany P.toSys alloc).eq_of_alloc
    (tokenLoop_inputMany P.toSys .always) (g := ⟨b, Lexer.create, .empty⟩)
    (Lexer.bounded_create _) trivial
    (fun g n hr _ ha => h g.stack n (announces_iff_asks.mpr ⟨g, hr, rfl, ha⟩))
  rw [inputMany, inputMany, hloop]

theorem inputMany_outOfMemory {t : Stack} {n : ℕ} (h : Announces P.maxStringLength b t n)
    (halloc : alloc n = false) : (inputMany P.toSys alloc b).1 = .error .outOfMemory := by
  obtain ⟨g, hr, -, ha⟩ := announces_iff_asks.mp h
  have hloop := ((tokenLoop_inputMany P.toSys alloc).outOfMemory (fun _ _ _ _ => trivial)
    (Lexer.bounded_create _) hr trivial ha halloc).2
  rw [inputMany]
  generalize inputMany.loop P.toSys alloc Lexer.create .empty b = r at hloop
  obtain ⟨e, ic⟩ := r
  obtain rfl : e = .error .outOfMemory := hloop
  rfl

/-- The first character of the channel is the first turn. -/
theorem entry_iff_turn {S : Sys} {h : Head InChannel} :
    inputOpt.Entry S b h ↔ Turn S ⟨b, Lexer.create, .empty⟩ h := by
  obtain ⟨rest, t, st⟩ := h
  constructor
  · rintro ⟨c, x, hc, hf, hx⟩
    obtain rfl := inputChar_eq_ok hc
    exact .other hf hx
  · intro ht
    cases ht with
    | @other c _ _ _ x _ _ hf hx => exact ⟨c, x, rfl, hf, hx⟩
    | fetch hf => exact absurd hf (Lexer.feed_init_ne_atom S _ _ _ _)

theorem inputOpt_of_not_entry {S : Sys} (h : ¬ ∃ g, inputOpt.Entry S b g) :
    inputOpt S alloc b = inputOpt S .always b := by
  cases b with
  | nil => rfl
  | cons c ic =>
      simp only [inputOpt, inputChar, inputOpt.first]
      cases hf : Lexer.create.feed S c with
      | error e => rfl
      | ok r =>
          obtain ⟨x | n, t⟩ := r
          · cases hx : Stack.empty.addToken x with
            | error e => simp only [hx]
            | ok st => exact absurd ⟨⟨ic, t, st⟩, c, x, rfl, hf, hx⟩ h
          · rfl

theorem inputOpt_of_alloc
    (h : ∀ t n, t.Unfinished → Announces P.maxStringLength b t n → alloc n = true) :
    inputOpt P.toSys alloc b = inputOpt P.toSys .always b := by
  by_cases hentry : ∃ g, inputOpt.Entry P.toSys b g
  · obtain ⟨g, hg⟩ := hentry
    have hsafe := inputOpt.entry_safe hg
    have hloop := (tokenLoop_inputOpt P.toSys alloc).eq_of_alloc
      (tokenLoop_inputOpt P.toSys .always) hsafe.bounded hsafe.unfinished
      (fun k n hr hu ha => h k.stack n hu (announces_iff_asks.mpr
        ⟨k, .head (entry_iff_turn.mp hg) hr, rfl, ha⟩))
    rw [inputOpt_of_entry hg, inputOpt_of_entry hg, hloop]
  · exact inputOpt_of_not_entry hentry

theorem inputOpt_outOfMemory {t : Stack} {n : ℕ} (ht : t.Unfinished)
    (h : Announces P.maxStringLength b t n) (halloc : alloc n = false) :
    (inputOpt P.toSys alloc b).1 = .error .outOfMemory := by
  obtain ⟨k, hr, rfl, ha⟩ := announces_iff_asks.mp h
  rcases hr.cases_head with rfl | ⟨g, hturn, hr⟩
  · obtain ⟨r, -, hlexer⟩ := ha
    cases hlexer
  · have hg := entry_iff_turn.mpr hturn
    have hloop := ((tokenLoop_inputOpt P.toSys alloc).outOfMemory
      (fun _ _ => Turn.unfinished_of_turn) (inputOpt.entry_safe hg).bounded hr ht ha halloc).2
    rw [inputOpt_of_entry hg]
    generalize inputOpt.loop P.toSys alloc g.lexer g.stack g.rest = r at hloop
    obtain ⟨e, ic⟩ := r
    obtain rfl : e = .error .outOfMemory := hloop
    rfl

theorem input_of_alloc
    (h : ∀ t n, t.Unfinished → Announces P.maxStringLength b t n → alloc n = true) :
    input P.toSys alloc b = input P.toSys .always b := by
  rw [input, input, inputOpt_of_alloc h]

theorem input_outOfMemory {t : Stack} {n : ℕ} (ht : t.Unfinished)
    (h : Announces P.maxStringLength b t n) (halloc : alloc n = false) :
    (input P.toSys alloc b).1 = .error .outOfMemory := by
  have hopt := inputOpt_outOfMemory ht h halloc
  rw [input]
  generalize inputOpt P.toSys alloc b = r at hopt
  obtain ⟨e, ic⟩ := r
  obtain rfl : e = .error .outOfMemory := hopt
  rfl

end Entries

/-! ## Robustness -/

/-- `input` returns what `parse_string` says of the stream up to the end of
its first expression. -/
structure InputRobust (S : Sys) (alloc : Allocator) (b : Bytes) : Prop where
  returns : ∃ r, (input S alloc b).1 = .ok r
  first : ∀ p x, p ≤ b.length → parseString S (b.take p) = .ok (.ok x) →
    (input S alloc b).1 = .ok (.ok x)
  error : ∀ p msg, parseString S b = .ok (.error (p, msg)) → msg ≠ dataAfter →
    (input S alloc b).1 = .ok (.error msg)

/-- The same of `input_opt`, which tells the end of the file apart. -/
structure InputOptRobust (S : Sys) (alloc : Allocator) (b : Bytes) : Prop where
  returns : ∃ r, (inputOpt S alloc b).1 = .ok r
  none : b = [] → (inputOpt S alloc b).1 = .ok (.ok none)
  first : ∀ p x, p ≤ b.length → parseString S (b.take p) = .ok (.ok x) →
    (inputOpt S alloc b).1 = .ok (.ok (some x))
  error : b ≠ [] → ∀ p msg, parseString S b = .ok (.error (p, msg)) → msg ≠ dataAfter →
    (inputOpt S alloc b).1 = .ok (.error msg)

/-- `input_many` returns what `parse_string_many` returns, except for the
offset of an error. -/
structure InputManyRobust (S : Sys) (alloc : Allocator) (b : Bytes) : Prop where
  returns : ∃ r, (inputMany S alloc b).1 = .ok r
  ok : ∀ xs, parseStringMany S b = .ok (.ok xs) → (inputMany S alloc b).1 = .ok (.ok xs)
  error : ∀ p msg, parseStringMany S b = .ok (.error (p, msg)) →
    (inputMany S alloc b).1 = .ok (.error msg)

section Always

variable (P : Platform) (b : Bytes)

theorem input_first_always {p : ℕ} {x : Sexp} (hp : p ≤ b.length)
    (hx : parseString P.toSys (b.take p) = .ok (.ok x)) :
    Consumes (input P.toSys .always) b p (.ok x) :=
  input_ok_iff_stopped.mpr (parseString_take_iff_stopped.mp ⟨hp, hx⟩)

theorem inputRobust_always : InputRobust P.toSys .always b where
  returns := (channel_safe P b).input_ok
  first _ _ hp hx := congrArg Prod.fst (input_first_always P b hp hx).2
  error _ _ he hmsg := congrArg Prod.fst (input_of_error hmsg he).2

theorem inputOptRobust_always : InputOptRobust P.toSys .always b where
  returns := (channel_safe P b).inputOpt_ok
  none := by
    rintro rfl
    rfl
  first _ _ hp hx := by
    have hscan := parseString_take_iff_stopped.mp ⟨hp, hx⟩
    exact congrArg Prod.fst (inputOpt_of_stopped hscan).2
  error := by
    intro hb p msg he hmsg
    obtain ⟨q, r, hopt, hinput⟩ := inputOpt_input P hb
    obtain ⟨-, rfl⟩ := hinput.unique (input_of_error hmsg he)
    exact congrArg Prod.fst hopt.2

theorem inputManyRobust_always : InputManyRobust P.toSys .always b where
  returns := (channel_safe P b).inputMany_ok
  ok _ hxs := congrArg Prod.fst (inputMany_of_ok hxs).2
  error _ _ he := congrArg Prod.fst (inputMany_of_error he).2

end Always

section Limited

variable (P : Platform) (bound : ℕ) (b : Bytes)

theorem inputRobust_iff : InputRobust P.toSys (.upTo bound) b ↔
    ∀ t n, t.Unfinished → Announces P.maxStringLength b t n → n ≤ bound := by
  constructor
  · intro h t n ht ha
    by_contra hlt
    obtain ⟨r, hr⟩ := h.returns
    rw [input_outOfMemory ht ha (Allocator.upTo_eq_false.mpr (not_le.mp hlt))] at hr
    cases hr
  · intro h
    have heq : input P.toSys (.upTo bound) b = input P.toSys .always b :=
      input_of_alloc fun t n ht ha => Allocator.upTo_eq_true.mpr (h t n ht ha)
    have halways := inputRobust_always P b
    constructor
    all_goals rw [heq]
    · exact halways.returns
    · exact halways.first
    · exact halways.error

theorem inputOptRobust_iff : InputOptRobust P.toSys (.upTo bound) b ↔
    ∀ t n, t.Unfinished → Announces P.maxStringLength b t n → n ≤ bound := by
  constructor
  · intro h t n ht ha
    by_contra hlt
    obtain ⟨r, hr⟩ := h.returns
    rw [inputOpt_outOfMemory ht ha (Allocator.upTo_eq_false.mpr (not_le.mp hlt))] at hr
    cases hr
  · intro h
    have heq : inputOpt P.toSys (.upTo bound) b = inputOpt P.toSys .always b :=
      inputOpt_of_alloc fun t n ht ha => Allocator.upTo_eq_true.mpr (h t n ht ha)
    have halways := inputOptRobust_always P b
    constructor
    all_goals rw [heq]
    · exact halways.returns
    · exact halways.none
    · exact halways.first
    · exact halways.error

theorem inputManyRobust_iff : InputManyRobust P.toSys (.upTo bound) b ↔
    ∀ t n, Announces P.maxStringLength b t n → n ≤ bound := by
  constructor
  · intro h t n ha
    by_contra hlt
    obtain ⟨r, hr⟩ := h.returns
    rw [inputMany_outOfMemory ha (Allocator.upTo_eq_false.mpr (not_le.mp hlt))] at hr
    cases hr
  · intro h
    have heq : inputMany P.toSys (.upTo bound) b = inputMany P.toSys .always b :=
      inputMany_of_alloc fun t n ha => Allocator.upTo_eq_true.mpr (h t n ha)
    have halways := inputManyRobust_always P b
    constructor
    all_goals rw [heq]
    · exact halways.returns
    · exact halways.ok
    · exact halways.error

end Limited

/-- Under a memory limit the channel parsers are as robust as the string
parsers exactly on the streams that announce no length beyond the limit,
for `input` and `input_opt` up to the end of the first expression. -/
theorem robust_iff (P : Platform) (bound : ℕ) (b : Bytes) :
    (InputRobust P.toSys (.upTo bound) b ↔
      ∀ t n, t.Unfinished → Announces P.maxStringLength b t n → n ≤ bound) ∧
    (InputOptRobust P.toSys (.upTo bound) b ↔
      ∀ t n, t.Unfinished → Announces P.maxStringLength b t n → n ≤ bound) ∧
    (InputManyRobust P.toSys (.upTo bound) b ↔
      ∀ t n, Announces P.maxStringLength b t n → n ≤ bound) ∧
    ((InputRobust P.toSys (.upTo bound) b ∧ InputOptRobust P.toSys (.upTo bound) b ∧
        InputManyRobust P.toSys (.upTo bound) b) ↔
      ∀ t n, Announces P.maxStringLength b t n → n ≤ bound) := by
  refine ⟨inputRobust_iff P bound b, inputOptRobust_iff P bound b, inputManyRobust_iff P bound b,
    fun h => (inputManyRobust_iff P bound b).mp h.2.2, fun h => ?_⟩
  exact ⟨(inputRobust_iff P bound b).mpr fun t n _ ha => h t n ha,
    (inputOptRobust_iff P bound b).mpr fun t n _ ha => h t n ha,
    (inputManyRobust_iff P bound b).mpr h⟩

/-- Seventeen digits and a colon exhaust a terabyte. -/
theorem hostile_length_escapes :
    let P := Platform.native64
    let b : Bytes := List.replicate 17 '9'.toUInt8 ++ [':'.toUInt8]
    b.length ≤ 2 ^ 40 ∧
      parseString P.toSys b = .ok (.error (18, prematureEndOfInput)) ∧
      (input P.toSys (.upTo (2 ^ 40)) b).1 = .error .outOfMemory ∧
      (inputOpt P.toSys (.upTo (2 ^ 40)) b).1 = .error .outOfMemory ∧
      (inputMany P.toSys (.upTo (2 ^ 40)) b).1 = .error .outOfMemory := by
  intro P b
  have hdigits : Exact P.maxStringLength (List.replicate 17 '9'.toUInt8) (10 ^ 17 - 1) :=
    ⟨by decide, Decimal.forall_isDigit_of_all (by decide), by decide, by decide⟩
  have hann : Announces P.maxStringLength b .empty (10 ^ 17 - 1) :=
    ⟨[], _, [], rfl, .empty, hdigits⟩
  have halloc : Allocator.upTo (2 ^ 40) (10 ^ 17 - 1) = false := by decide
  refine ⟨by decide, ?_, input_outOfMemory (Or.inl rfl) hann halloc,
    inputOpt_outOfMemory (Or.inl rfl) hann halloc, inputMany_outOfMemory hann halloc⟩
  rw [parseString_eq]
  rfl

end Csexp
