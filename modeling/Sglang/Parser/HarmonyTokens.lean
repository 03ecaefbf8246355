/-
# The tokens of a Harmony text

A transcription of `iter_tokens` of `harmony_parser.py`, which cuts a text into structural tokens and the
texts between them.

The tokens always tile the text.  A structural literal is missed only behind a stray `<|`: one that starts
no literal makes the scanner go on to the next `|>`, which may be the end of a literal that starts in
between.  `straysClosed` reads a text from the left and says that no literal starts before a stray opening is
closed; exactly then every literal is yielded (`tokensExact_iff`).
-/
import Sglang.Lib.Search

namespace Sglang.Harmony

open Lib List Option

/-! ## 1. The scanner -/

inductive TokenType
  | start
  | channel
  | message
  | constrain
  | stop
  | call
  | return_
  | text
deriving DecidableEq

/-- A token; `stop` is its `end`. -/
structure Token where
  type : TokenType
  start : ℕ
  stop : ℕ
deriving DecidableEq

/-- The structural literals. -/
def TOKENS : List (List Char × TokenType) :=
  [("<|start|>".toList, .start), ("<|channel|>".toList, .channel), ("<|message|>".toList, .message),
    ("<|constrain|>".toList, .constrain), ("<|end|>".toList, .stop), ("<|call|>".toList, .call),
    ("<|return|>".toList, .return_)]

/-- The literal that a text starts with. -/
def literalAt (l : List Char) : Option (List Char × TokenType) := TOKENS.find? fun e => e.1 <+: l

/-- `text.find(sub, pos)`. -/
def findFrom (text sub : List Char) (pos : ℕ) : Option ℕ := (find sub (text.drop pos)).map (pos + ·)

/-- The loop, with the position it ends at and whether it has met an unknown token. -/
def scan (text : List Char) : ℕ → ℕ → Bool → Option (List Token × ℕ × Bool)
  | 0, _, _ => none
  | fuel + 1, pos, unknown =>
    if pos < text.length then
      match findFrom text "<|".toList pos with
      | none => some ([], pos, unknown)
      | some marker =>
        let before : List Token := if marker > pos then [⟨.text, pos, marker⟩] else []
        match literalAt (text.drop marker) with
        | some (literal, type) =>
          (scan text fuel (marker + literal.length) unknown).map fun r =>
            (before ++ [⟨type, marker, marker + literal.length⟩] ++ r.1, r.2)
        | none =>
          if TOKENS.any fun e => text.drop marker <+: e.1 then
            some (before ++ [⟨.text, marker, text.length⟩], text.length, unknown)
          else
            match findFrom text "|>".toList (marker + 2) with
            | some close =>
              match findFrom text "<|".toList (close + 2) with
              | some next =>
                (scan text fuel next true).map fun r =>
                  (before ++ [⟨.text, marker, marker + 2⟩, ⟨.text, marker + 2, next⟩] ++ r.1, r.2)
              | none =>
                some (before ++ [⟨.text, marker, marker + 2⟩, ⟨.text, marker + 2, text.length⟩],
                  text.length, true)
            | none =>
              (scan text fuel (marker + 2) true).map fun r =>
                (before ++ [⟨.text, marker, marker + 2⟩] ++ r.1, r.2)
    else some ([], pos, unknown)

/-- `iter_tokens` from the start of a text; `none` is a loop that has not ended in `fuel` rounds. -/
def iterTokens (fuel : ℕ) (text : List Char) : Option (List Token) :=
  (scan text fuel 0 false).map fun (tokens, pos, unknown) =>
    if pos < text.length then tokens ++ [⟨.text, pos, text.length⟩]
    else if pos = text.length ∧ unknown ∧ TOKENS.any (fun e => e.1 <:+ text) then
      tokens ++ [⟨.text, pos, pos⟩]
    else tokens

/-! ## 2. What is claimed of the tokens -/

/-- The tokens cover `[a, b)` one behind the other, and none is empty. -/
def Tile : ℕ → ℕ → List Token → Prop
  | a, b, [] => a = b
  | a, b, t :: ts => t.start = a ∧ a < t.stop ∧ Tile t.stop b ts

/-- Every literal that starts in `[a, b)` is among the tokens. -/
def Yields (text : List Char) (a b : ℕ) (tokens : List Token) : Prop :=
  ∀ q, a ≤ q → q < b → ∀ e ∈ TOKENS, e.1 <+: text.drop q → ⟨e.2, q, q + e.1.length⟩ ∈ tokens

/-- Read from the left, behind `skip` characters and with a stray opening before them or not, no literal
starts while a stray opening is not closed. -/
def straysClosed : ℕ → Bool → List Char → Bool
  | _, _, [] => true
  | skip + 1, opened, _ :: l => straysClosed skip opened l
  | 0, true, c :: l =>
    if (literalAt (c :: l)).isSome then false
    else if "|>".toList <+: c :: l then straysClosed 1 false l
    else straysClosed 0 true l
  | 0, false, c :: l =>
    match literalAt (c :: l) with
    | some e => straysClosed (e.1.length - 1) false l
    | none => if "<|".toList <+: c :: l then straysClosed 1 true l else straysClosed 0 false l

/-- The loop ends, the tokens cover the text, with an empty one behind it at most, and every literal of the
text is one of them. -/
def TokensExact (text : List Char) : Prop :=
  ∀ fuel, text.length < fuel → ∃ tokens, iterTokens fuel text = some tokens ∧
    (∃ ts, Tile 0 text.length ts ∧
      (tokens = ts ∨ tokens = ts ++ [⟨.text, text.length, text.length⟩])) ∧
    Yields text 0 text.length tokens

variable {text l sub : List Char} {e : List Char × TokenType} {a b c i j k q pos : ℕ} {opened : Bool}
  {tokens front : List Token}

theorem prefix_drop_of_find (h : find sub l = some i) : sub <+: l.drop i := by
  obtain ⟨u, v, rfl, rfl⟩ := exists_of_find h
  rw [append_assoc, drop_left]
  exact prefix_append _ _

theorem le_of_prefix_drop (h : find sub l = some i) (hp : sub <+: l.drop j) : i ≤ j := by
  obtain ⟨v, hv⟩ := hp
  have hl : l = l.take j ++ sub ++ v := by rw [append_assoc, hv, take_append_drop]
  rw [hl] at h
  exact (find_le h).trans (length_take_le _ _)

theorem not_prefix_drop (h : find sub l = none) (j : ℕ) : ¬ sub <+: l.drop j := fun hp =>
  find_eq_none_iff.mp h (hp.isInfix.trans (drop_suffix j l).isInfix)

/-! ## 3. Literals -/

/-- What the literals look like: `<` is only at the start and `|>` only at the end. -/
theorem literal_shape : ∀ e ∈ TOKENS, e.2 ≠ .text ∧ 4 < e.1.length ∧ e.1[0]? = some '<' ∧
    e.1[1]? = some '|' ∧ (∀ j < e.1.length, 0 < j → e.1[j]? ≠ some '<') ∧
    e.1[e.1.length - 2]? = some '|' ∧ e.1[e.1.length - 1]? = some '>' ∧
    ∀ j < e.1.length - 2, e.1[j]? = some '|' → e.1[j + 1]? ≠ some '>' := by
  decide

theorem literalAt_eq_some_iff : literalAt l = some e ↔ e ∈ TOKENS ∧ e.1 <+: l := by
  have hone : ∀ e ∈ TOKENS, ∀ e' ∈ TOKENS, e.1 <+: e'.1 → e = e' := by decide
  constructor
  · intro h
    exact ⟨mem_of_find?_eq_some h, by simpa using find?_some h⟩
  · rintro ⟨he, hp⟩
    cases h : literalAt l with
    | none => exact absurd hp (by simpa using find?_eq_none.mp h e he)
    | some e' =>
      have he' := mem_of_find?_eq_some h
      have hp' : e'.1 <+: l := by simpa using find?_some h
      rcases prefix_or_prefix_of_prefix hp hp' with hpp | hpp
      · rw [hone e he e' he' hpp]
      · rw [hone e' he' e he hpp]

theorem literalAt_eq_none_iff : literalAt l = none ↔ ∀ e ∈ TOKENS, ¬ e.1 <+: l := by
  simp [literalAt, find?_eq_none]

theorem pair_prefix_drop_iff {x y : Char} : [x, y] <+: l.drop j ↔ l[j]? = some x ∧ l[j + 1]? =
    some y := by
  rw [← Nat.add_zero j, ← getElem?_drop, ← getElem?_drop]
  rcases l.drop (j + 0) with _ | ⟨c, _ | ⟨d, t⟩⟩
  · simp
  · simp
  · simpa using and_congr (eq_comm (a := x) (b := c)) (eq_comm (a := y) (b := d))

theorem opens_drop_iff : "<|".toList <+: l.drop j ↔ l[j]? = some '<' ∧ l[j + 1]? = some '|' :=
  pair_prefix_drop_iff

theorem closes_drop_iff : "|>".toList <+: l.drop j ↔ l[j]? = some '|' ∧ l[j + 1]? = some '>' :=
  pair_prefix_drop_iff

theorem getElem?_of_literal (hp : e.1 <+: l.drop q) (hj : j < e.1.length) : l[q + j]? = e.1[j]? := by
  rw [← getElem?_drop, prefix_iff_getElem?.mp hp j hj, getElem?_eq_getElem hj]

theorem opens_of_literal (he : e ∈ TOKENS) (hp : e.1 <+: l.drop q) : "<|".toList <+: l.drop q := by
  obtain ⟨-, hlen, h0, h1, -⟩ := literal_shape e he
  rw [opens_drop_iff, ← Nat.add_zero q, getElem?_of_literal hp (by omega), Nat.add_zero,
    getElem?_of_literal hp (by omega)]
  exact ⟨h0, h1⟩

/-- **No literal is inside another**: none opens behind its start. -/
theorem not_opens_in_literal (he : e ∈ TOKENS) (hp : e.1 <+: l.drop q) (hlt : q < j)
    (hj : j < q + e.1.length) : ¬ "<|".toList <+: l.drop j := by
  obtain ⟨k, rfl⟩ := Nat.exists_eq_add_of_lt hlt
  rw [opens_drop_iff, Nat.add_assoc, getElem?_of_literal hp (by omega)]
  exact fun h => (literal_shape e he).2.2.2.2.1 _ (by omega) (Nat.succ_pos k) h.1

theorem closes_of_literal (he : e ∈ TOKENS) (hp : e.1 <+: l.drop q) :
    "|>".toList <+: l.drop (q + (e.1.length - 2)) := by
  obtain ⟨-, hlen, -, -, -, h2, h3, -⟩ := literal_shape e he
  rw [closes_drop_iff, getElem?_of_literal hp (by omega), Nat.add_assoc,
    getElem?_of_literal hp (by omega), show e.1.length - 2 + 1 = e.1.length - 1 by omega]
  exact ⟨h2, h3⟩

/-- A closing in front of which no literal starts does not stand in a literal. -/
theorem lt_of_closes (he : e ∈ TOKENS) (hp : e.1 <+: l.drop q) (hc : "|>".toList <+: l.drop c)
    (hqc : c ≤ q + 1) : c + 1 < q := by
  obtain ⟨-, hlen, h0, h1, -, -, -, h⟩ := literal_shape e he
  have hget := fun j => getElem?_of_literal (j := j) hp
  have h0' := hget 0 (by omega)
  have h2' := hget 2 (by omega)
  rw [h0, Nat.add_zero] at h0'
  rw [closes_drop_iff] at hc
  have hlast := h 1 (by omega) h1
  rcases Nat.lt_or_ge (c + 1) q with hlt | hge
  · exact hlt
  · obtain rfl | rfl | rfl : q = c + 1 ∨ q = c ∨ c = q + 1 := by omega
    · rw [hc.2] at h0'
      cases h0'
    · rw [hc.1] at h0'
      cases h0'
    · rw [hc.2] at h2'
      exact absurd h2'.symm hlast

/-! ## 4. Reading from the left -/

@[simp]
theorem straysClosed_nil : straysClosed k opened [] = true := by cases k <;> rfl

theorem straysClosed_skip : ∀ {k : ℕ} {l : List Char}, straysClosed k opened l =
    straysClosed 0 opened (l.drop k)
  | 0, _ => rfl
  | _ + 1, [] => by simp
  | k + 1, _ :: l => straysClosed_skip (k := k) (l := l)

theorem straysClosed_of_none (h : ∀ j, literalAt (l.drop j) = none) : straysClosed k opened l =
    true := by
  induction l generalizing k opened with
  | nil => exact straysClosed_nil
  | cons c l ih =>
    have ih' := fun k o => @ih k o fun j => h (j + 1)
    have h0 : literalAt (c :: l) = none := h 0
    cases k with
    | succ k => exact ih' k opened
    | zero => cases opened <;> simp [straysClosed, h0, ih']

/-- Up to the next opening there is nothing to see. -/
theorem straysClosed_of_not_opens (h : ∀ j < i, ¬ "<|".toList <+: l.drop j) :
    straysClosed 0 false l = straysClosed 0 false (l.drop i) := by
  induction i generalizing l with
  | zero => rfl
  | succ i ih =>
    cases l with
    | nil => rfl
    | cons c l =>
      have h0 : ¬ "<|".toList <+: c :: l := h 0 (Nat.succ_pos i)
      have hnone : literalAt (c :: l) = none :=
        literalAt_eq_none_iff.mpr fun e he hp => h0 (opens_of_literal (q := 0) he hp)
      rw [straysClosed, hnone]
      simp only [if_neg h0]
      exact ih fun j hj => h (j + 1) (Nat.succ_lt_succ hj)

theorem straysClosed_literal (h : literalAt l = some e) :
    straysClosed 0 false l = straysClosed 0 false (l.drop e.1.length) := by
  obtain ⟨he, hp⟩ := literalAt_eq_some_iff.mp h
  have hlen := (literal_shape e he).2.1
  cases l with
  | nil => rw [prefix_nil.mp hp] at hlen; cases hlen
  | cons c l =>
    rw [straysClosed, h]
    simp only
    rw [straysClosed_skip, show e.1.length = e.1.length - 1 + 1 by omega, drop_succ_cons,
      Nat.add_sub_cancel]

theorem straysClosed_stray (h : literalAt l = none) (hp : "<|".toList <+: l) :
    straysClosed 0 false l = straysClosed 0 true (l.drop 2) := by
  cases l with
  | nil => rfl
  | cons c l =>
    rw [straysClosed, h]
    simp only [if_pos hp]
    exact straysClosed_skip

/-- Behind a stray opening all depends on what starts before the next closing. -/
theorem straysClosed_open (hp : "|>".toList <+: l.drop i) (h : ∀ j < i, ¬ "|>".toList <+: l.drop j) :
    straysClosed 0 true l = true ↔
      (∀ j < i, literalAt (l.drop j) = none) ∧ straysClosed 0 false (l.drop (i + 2)) = true := by
  induction i generalizing l with
  | zero =>
    cases l with
    | nil => simp
    | cons c l =>
      have hp0 : "|>".toList <+: c :: l := hp
      have hnone : literalAt (c :: l) = none := literalAt_eq_none_iff.mpr fun e he hpre =>
        absurd (lt_of_closes (q := 0) (c := 0) he hpre hp0 (Nat.zero_le 1)) (Nat.not_lt_zero _)
      rw [straysClosed, hnone]
      simp only [isSome_none, Bool.false_eq_true, if_false, if_pos hp0]
      simp [straysClosed_skip (k := 1)]
  | succ i ih =>
    cases l with
    | nil => simp [literalAt_eq_none_iff, TOKENS]
    | cons c l =>
      have h0 : ¬ "|>".toList <+: c :: l := h 0 (Nat.succ_pos i)
      have ih' := ih (l := l) hp fun j hj => h (j + 1) (Nat.succ_lt_succ hj)
      rw [straysClosed]
      cases hlit : literalAt (c :: l) with
      | some e =>
        simp only [isSome_some, if_true, Bool.false_eq_true, false_iff]
        intro hall
        rw [show literalAt (c :: l) = none from hall.1 0 (Nat.succ_pos i)] at hlit
        cases hlit
      | none =>
        simp only [isSome_none, Bool.false_eq_true, if_false, if_neg h0, ih',
          Nat.forall_lt_succ_left, drop_zero, hlit, drop_succ_cons, true_and,
          Nat.add_right_comm i 1 2]

/-! ## 5. The loop -/

theorem Tile.mem : ∀ {ts : List Token} {a : ℕ}, Tile a b ts →
    a ≤ b ∧ ∀ t ∈ ts, a ≤ t.start ∧ t.start < b
  | [], _, h => ⟨h.le, fun _ ht => absurd ht not_mem_nil⟩
  | t :: ts, a, ⟨hstart, hlt, h⟩ => by
    obtain ⟨hle, hmem⟩ := h.mem
    refine ⟨by omega, fun t' ht' => ?_⟩
    rcases mem_cons.mp ht' with rfl | ht'
    · omega
    · have := hmem t' ht'
      omega

theorem Tile.append : ∀ {ts ts' : List Token} {a : ℕ}, Tile a b ts → Tile b c ts' → Tile a c (ts ++ ts')
  | [], _, _, h, h' => h ▸ h'
  | _ :: _, _, _, ⟨hstart, hlt, h⟩, h' => ⟨hstart, hlt, h.append h'⟩

theorem tile_before (h : a ≤ b) : Tile a b (if b > a then [⟨.text, a, b⟩] else []) := by
  split
  · exact ⟨rfl, ‹_›, rfl⟩
  · exact Nat.le_antisymm h (not_lt.mp ‹_›)

theorem tile_one {type : TokenType} (h : a < b) : Tile a b [⟨type, a, b⟩] := ⟨rfl, h, rfl⟩

theorem type_before {t : Token} (h : t ∈ if b > a then [(⟨.text, a, b⟩ : Token)] else []) :
    t.type = .text := by
  split at h
  · rw [mem_singleton.mp h]
  · cases h

theorem yields_texts_iff (h : ∀ t ∈ front, t.type = .text) : Yields text a b front ↔
    ∀ q, a ≤ q → q < b → literalAt (text.drop q) = none := by
  refine forall_congr' fun q => forall_congr' fun _ => forall_congr' fun _ => ?_
  rw [literalAt_eq_none_iff]
  exact forall_congr' fun e => forall_congr' fun he => imp_congr_right fun _ =>
    iff_of_false (fun hmem => (literal_shape e he).1 (h _ hmem)) id

/-- What the loop does from a position on. -/
structure Reads (text : List Char) (pos : ℕ) (tokens : List Token) (stop : ℕ) : Prop where
  tile : Tile pos stop tokens
  le : stop ≤ text.length
  yields : Yields text pos text.length tokens ↔ straysClosed 0 false (text.drop pos) = true

theorem Reads.nil (hle : pos ≤ text.length)
    (h : ∀ q, pos ≤ q → literalAt (text.drop q) = none) : Reads text pos [] pos where
  tile := rfl
  le := hle
  yields := by
    refine iff_of_true ((yields_texts_iff (by simp)).mpr fun q hq _ => h q hq) ?_
    exact straysClosed_of_none fun j => by rw [drop_drop]; exact h _ (Nat.le_add_right _ _)

theorem Reads.end_ : Reads text text.length [] text.length :=
  .nil le_rfl fun q hq => by
    rw [drop_eq_nil_of_le hq]
    rfl

theorem Reads.round {p : Prop} {mid stop : ℕ} (htile : Tile pos mid front)
    (hp : Yields text pos mid front ↔ p) (hclosed : straysClosed 0 false (text.drop pos) = true ↔
      p ∧ straysClosed 0 false (text.drop mid) = true)
    (h : Reads text mid tokens stop) : Reads text pos (front ++ tokens) stop where
  tile := htile.append h.tile
  le := h.le
  yields := by
    have hmid := h.tile.mem
    rw [hclosed, ← hp, ← h.yields]
    constructor
    · -- a token is in the part that its start belongs to
      intro hall
      refine ⟨fun q hq hlt e he hpre => ?_, fun q hq hlt e he hpre => ?_⟩
      · have hmem := hall q hq (hlt.trans_le (hmid.1.trans h.le)) e he hpre
        refine (mem_append.mp hmem).resolve_right fun hin => ?_
        exact absurd (hmid.2 _ hin).1 (not_le.mpr hlt)
      · have hmem := hall q (htile.mem.1.trans hq) hlt e he hpre
        refine (mem_append.mp hmem).resolve_left fun hin => ?_
        exact absurd (htile.mem.2 _ hin).2 (not_lt.mpr hq)
    · rintro ⟨hfront, hrest⟩ q hq hlt e he hpre
      rcases Nat.lt_or_ge q mid with hqm | hqm
      · exact mem_append_left _ (hfront q hq hqm e he hpre)
      · exact mem_append_right _ (hrest q hqm hlt e he hpre)

/-- Texts, where no literal starts any more. -/
theorem Reads.texts {mid stop : ℕ} (hnone : ∀ q, pos ≤ q → literalAt (text.drop q) = none)
    (htile : Tile pos mid front) (htexts : ∀ t ∈ front, t.type = .text)
    (h : Reads text mid tokens stop) : Reads text pos (front ++ tokens) stop := by
  have hclosed (q : ℕ) (hq : pos ≤ q) : straysClosed 0 false (text.drop q) = true :=
    straysClosed_of_none fun j => by rw [drop_drop]; exact hnone _ (Nat.le_add_right_of_le hq)
  exact h.round htile (yields_texts_iff htexts)
    (iff_of_true (hclosed pos le_rfl) ⟨fun q hq _ => hnone q hq, hclosed mid htile.mem.1⟩)

theorem findFrom_eq_some (h : findFrom text sub pos = some q) :
    pos ≤ q ∧ sub <+: text.drop q ∧ ∀ j, pos ≤ j → j < q → ¬ sub <+: text.drop j := by
  obtain ⟨i, hi, rfl⟩ := map_eq_some_iff.mp h
  refine ⟨Nat.le_add_right _ _, by simpa using prefix_drop_of_find hi, fun j hj hlt hp => ?_⟩
  obtain ⟨k, rfl⟩ := Nat.exists_eq_add_of_le hj
  have := le_of_prefix_drop hi (j := k) (by simpa using hp)
  omega

theorem findFrom_eq_none (h : findFrom text sub pos = none) (hj : pos ≤ j) : ¬ sub <+: text.drop j := by
  obtain ⟨k, rfl⟩ := Nat.exists_eq_add_of_le hj
  rw [← drop_drop]
  exact not_prefix_drop (map_eq_none_iff.mp h) k

theorem add_two_le (h : "<|".toList <+: text.drop q ∨ "|>".toList <+: text.drop q) :
    q + 2 ≤ text.length := by
  rcases h with h | h <;>
  · have := h.length_le
    rw [length_drop] at this
    exact (by omega : 2 ≤ text.length - q → q + 2 ≤ text.length) this

/-- A stray opening at `marker` that is closed at `c`, with no opening behind that up to `mid`. -/
theorem stray_closed_iff {marker mid : ℕ} (hle : pos ≤ marker)
    (hbefore : ∀ j, pos ≤ j → j < marker → ¬ "<|".toList <+: text.drop j)
    (hopen : "<|".toList <+: text.drop marker) (hlit : literalAt (text.drop marker) = none)
    (hmc : marker + 2 ≤ c) (hclose : "|>".toList <+: text.drop c)
    (hbetween : ∀ j, marker + 2 ≤ j → j < c → ¬ "|>".toList <+: text.drop j)
    (hcm : c + 2 ≤ mid) (hbehind : ∀ j, c + 2 ≤ j → j < mid → ¬ "<|".toList <+: text.drop j) :
    straysClosed 0 false (text.drop pos) = true ↔
      (∀ q, pos ≤ q → q < mid → literalAt (text.drop q) = none) ∧
        straysClosed 0 false (text.drop mid) = true := by
  obtain ⟨i, rfl⟩ := Nat.exists_eq_add_of_le hle
  obtain ⟨k, rfl⟩ := Nat.exists_eq_add_of_le hmc
  obtain ⟨m, rfl⟩ := Nat.exists_eq_add_of_le hcm
  have hstart : straysClosed 0 false (text.drop pos) = straysClosed 0 false (text.drop (pos + i)) := by
    rw [straysClosed_of_not_opens (i := i) fun j hj => ?_, drop_drop]
    rw [drop_drop]
    exact hbefore _ (Nat.le_add_right _ _) (by omega)
  have hend : straysClosed 0 false (text.drop (pos + i + 2 + k + 2)) =
      straysClosed 0 false (text.drop (pos + i + 2 + k + 2 + m)) := by
    rw [straysClosed_of_not_opens (i := m) fun j hj => ?_, drop_drop]
    rw [drop_drop]
    exact hbehind _ (Nat.le_add_right _ _) (by omega)
  rw [hstart, straysClosed_stray hlit hopen, drop_drop, straysClosed_open (i := k)
    (by rwa [drop_drop]) (fun j hj => by rw [drop_drop]; exact hbetween _ (by omega) (by omega)),
    drop_drop, ← Nat.add_assoc, hend]
  refine and_congr_left fun _ => ⟨fun h q hq hlt => ?_, fun h j hj => ?_⟩
  · refine literalAt_eq_none_iff.mpr fun e he hp => ?_
    have hq' := opens_of_literal he hp
    rcases Nat.lt_or_ge q (pos + i) with h₁ | h₁
    · exact hbefore q hq h₁ hq'
    rcases Nat.lt_or_ge q (pos + i + 2) with h₂ | h₂
    · obtain rfl | rfl : q = pos + i ∨ q = pos + i + 1 := by omega
      · exact literalAt_eq_none_iff.mp hlit e he hp
      · have h1 := (opens_drop_iff.mp hopen).2
        rw [(opens_drop_iff.mp hq').1] at h1
        cases h1
    rcases Nat.lt_or_ge q (pos + i + 2 + k) with h₃ | h₃
    · obtain ⟨j, rfl⟩ := Nat.exists_eq_add_of_le h₂
      refine literalAt_eq_none_iff.mp ?_ e he hp
      rw [← drop_drop]
      exact h j (by omega)
    · have := lt_of_closes he hp hclose (by omega)
      exact hbehind q (by omega) hlt hq'
  · rw [drop_drop]
    exact h _ (by omega) (by omega)

/-- **The loop ends**, and reads the text from where it starts. -/
theorem scan_spec (fuel pos : ℕ) (unknown : Bool) (hle : pos ≤ text.length)
    (hfuel : text.length < pos + fuel) :
    ∃ tokens stop unknown', scan text fuel pos unknown = some (tokens, stop, unknown') ∧
      Reads text pos tokens stop := by
  induction fuel generalizing pos unknown with
  | zero => omega
  | succ fuel ih =>
    rw [scan]
    split
    swap
    · obtain rfl : pos = text.length := by omega
      exact ⟨_, _, _, rfl, .end_⟩
    cases hfind : findFrom text "<|".toList pos with
    | none =>
      refine ⟨_, _, _, rfl, .nil hle fun q hq => literalAt_eq_none_iff.mpr fun e he hp => ?_⟩
      exact findFrom_eq_none hfind hq (opens_of_literal he hp)
    | some marker =>
      obtain ⟨hpm, hopen, hbefore⟩ := findFrom_eq_some hfind
      have hlen := add_two_le (.inl hopen)
      have htile := tile_before hpm
      have hstart : straysClosed 0 false (text.drop pos) = straysClosed 0 false (text.drop marker) := by
        obtain ⟨i, rfl⟩ := Nat.exists_eq_add_of_le hpm
        rw [straysClosed_of_not_opens (i := i) fun j hj => ?_, drop_drop]
        rw [drop_drop]
        exact hbefore _ (Nat.le_add_right _ _) (by omega)
      simp only
      cases hlit : literalAt (text.drop marker) with
      | some e =>
        obtain ⟨he, hp⟩ := literalAt_eq_some_iff.mp hlit
        have hpos := (literal_shape e he).2.1
        have hend := hp.length_le
        rw [length_drop] at hend
        obtain ⟨tokens, stop, unknown', heq, hreads⟩ := ih (marker + e.1.length) unknown (by omega) (by omega)
        simp only [heq, map_some]
        refine ⟨_, _, _, rfl, hreads.round (p := True) (htile.append (tile_one (by omega)))
          (iff_true_intro fun q hq hlt e' he' hp' => ?_) ?_⟩
        · have hq' := opens_of_literal he' hp'
          obtain rfl : q = marker := by
            rcases lt_trichotomy q marker with h | h | h
            · exact absurd hq' (hbefore q hq h)
            · exact h
            · exact absurd hq' (not_opens_in_literal he hp h hlt)
          obtain rfl : e = e' := Option.some.inj (hlit.symm.trans (literalAt_eq_some_iff.mpr ⟨he', hp'⟩))
          exact mem_append_right _ (mem_singleton_self _)
        · rw [hstart, straysClosed_literal hlit, drop_drop, true_and]
      | none =>
        simp only
        have hback (q) (hq : pos ≤ q) (hlt : q < marker + 2) : literalAt (text.drop q) = none := by
          refine literalAt_eq_none_iff.mpr fun e he hp => ?_
          have hq' := opens_of_literal he hp
          rcases Nat.lt_or_ge q marker with h | h
          · exact hbefore q hq h hq'
          · obtain rfl | rfl : q = marker ∨ q = marker + 1 := by omega
            · exact literalAt_eq_none_iff.mp hlit e he hp
            · have h1 := (opens_drop_iff.mp hopen).2
              rw [(opens_drop_iff.mp hq').1] at h1
              cases h1
        split
        · -- the tail is the start of a literal, in which no other starts
          rename_i hpartial
          obtain ⟨e, he, htail⟩ : ∃ e ∈ TOKENS, text.drop marker <+: e.1 := by simpa using hpartial
          have hnone (q) (hq : pos ≤ q) : literalAt (text.drop q) = none := by
            rcases Nat.lt_or_ge q (marker + 2) with h | h
            · exact hback q hq h
            refine literalAt_eq_none_iff.mpr fun e' he' hp' => ?_
            have hq' := (opens_drop_iff.mp (opens_of_literal he' hp')).1
            obtain ⟨j, rfl⟩ := Nat.exists_eq_add_of_le (show marker ≤ q by omega)
            rw [← getElem?_drop] at hq'
            obtain ⟨hlt, hget⟩ := List.getElem?_eq_some_iff.mp hq'
            have hin := prefix_iff_getElem?.mp htail j hlt
            rw [hget] at hin
            exact (literal_shape e he).2.2.2.2.1 j (hlt.trans_le htail.length_le) (by omega) hin
          refine ⟨_, _, _, rfl, ?_⟩
          rw [← append_nil (_ ++ _)]
          exact Reads.end_.texts hnone (htile.append (tile_one (by omega)))
            (forall_mem_append.mpr ⟨fun t => type_before, by simp⟩)
        cases hclose : findFrom text "|>".toList (marker + 2) with
        | none =>
          have hnone (q) (hq : pos ≤ q) : literalAt (text.drop q) = none := by
            rcases Nat.lt_or_ge q (marker + 2) with h | h
            · exact hback q hq h
            exact literalAt_eq_none_iff.mpr fun e he hp => findFrom_eq_none hclose
              (h.trans (Nat.le_add_right _ _)) (closes_of_literal he hp)
          obtain ⟨tokens, stop, unknown', heq, hreads⟩ := ih (marker + 2) true (by omega) (by omega)
          simp only [heq, map_some]
          exact ⟨_, _, _, rfl, hreads.texts hnone (htile.append (tile_one (by omega)))
            (forall_mem_append.mpr ⟨fun t => type_before, by simp⟩)⟩
        | some close =>
          obtain ⟨hmc, hcl, hbetween⟩ := findFrom_eq_some hclose
          have hclen := add_two_le (.inr hcl)
          -- the texts up to the next opening, or to the end
          have hround {mid stop : ℕ} {tokens : List Token} (hcm : close + 2 ≤ mid)
              (hbehind : ∀ j, close + 2 ≤ j → j < mid → ¬ "<|".toList <+: text.drop j)
              (h : Reads text mid tokens stop) : Reads text pos
                ((if marker > pos then [⟨.text, pos, marker⟩] else []) ++
                  [⟨.text, marker, marker + 2⟩, ⟨.text, marker + 2, mid⟩] ++ tokens) stop :=
            h.round (htile.append ((tile_one (by omega)).append (tile_one (by omega))))
              (yields_texts_iff (forall_mem_append.mpr ⟨fun t => type_before, by simp⟩))
              (stray_closed_iff hpm hbefore hopen hlit hmc hcl hbetween hcm hbehind)
          simp only
          cases hnext : findFrom text "<|".toList (close + 2) with
          | none =>
            refine ⟨_, _, _, rfl, ?_⟩
            rw [← append_nil (_ ++ _)]
            exact hround hclen (fun j hj _ => findFrom_eq_none hnext hj) .end_
          | some next =>
            obtain ⟨hcn, hno, hbehind⟩ := findFrom_eq_some hnext
            have hnlen := add_two_le (.inl hno)
            obtain ⟨tokens, stop, unknown', heq, hreads⟩ := ih next true (by omega) (by omega)
            simp only [heq, map_some]
            exact ⟨_, _, _, rfl, hround hcn hbehind hreads⟩

/-! ## 6. The guarantee -/

/-- A text behind the tokens adds no literal. -/
theorem yields_append_text {t : Token} (ht : t.type = .text) :
    Yields text a b (tokens ++ [t]) ↔ Yields text a b tokens := by
  refine forall_congr' fun q => forall_congr' fun _ => forall_congr' fun _ => forall_congr' fun e =>
    forall_congr' fun he => imp_congr_right fun _ => ?_
  rw [mem_append, mem_singleton, or_iff_left]
  rintro rfl
  exact (literal_shape e he).1 ht

/-- **The tokens tile the text**, and are all there exactly if the stray openings are closed in time. -/
theorem iterTokens_spec {fuel : ℕ} (hfuel : text.length < fuel) :
    ∃ tokens, iterTokens fuel text = some tokens ∧
      (∃ ts, Tile 0 text.length ts ∧ (tokens = ts ∨ tokens = ts ++ [⟨.text, text.length, text.length⟩])) ∧
      (Yields text 0 text.length tokens ↔ straysClosed 0 false text = true) := by
  obtain ⟨tokens, stop, unknown, heq, hreads⟩ := scan_spec fuel 0 false (Nat.zero_le text.length) (by omega)
  have hyields := hreads.yields
  rw [iterTokens, heq]
  refine ⟨_, rfl, ?_⟩
  dsimp only
  rcases hreads.le.lt_or_eq with hlt | rfl
  · rw [if_pos hlt]
    exact ⟨⟨_, hreads.tile.append (tile_one hlt), .inl rfl⟩, (yields_append_text rfl).trans hyields⟩
  · rw [if_neg (lt_irrefl _)]
    split
    · exact ⟨⟨_, hreads.tile, .inr rfl⟩, (yields_append_text rfl).trans hyields⟩
    · exact ⟨⟨_, hreads.tile, .inl rfl⟩, hyields⟩

/-- **Every literal is yielded** exactly if none starts while a stray opening is not closed. -/
theorem tokensExact_iff (text : List Char) : TokensExact text ↔ straysClosed 0 false text = true := by
  constructor
  · intro h
    obtain ⟨tokens, heq, -, hyields⟩ := h _ (Nat.lt_succ_self _)
    obtain ⟨tokens', heq', -, hiff⟩ := iterTokens_spec (Nat.lt_succ_self text.length)
    obtain rfl := Option.some.inj (heq.symm.trans heq')
    exact hiff.mp hyields
  · intro h fuel hfuel
    obtain ⟨tokens, heq, htile, hiff⟩ := iterTokens_spec hfuel
    exact ⟨tokens, heq, htile, hiff.mpr h⟩

/-- **A stray opening swallows the end of the message.** -/
theorem stray_swallows : ¬ TokensExact "<|x<|end|>".toList := by
  intro h
  obtain ⟨tokens, heq, -, hyields⟩ := h 11 (by decide)
  have hrun : iterTokens 11 "<|x<|end|>".toList = some [⟨.text, 0, 2⟩, ⟨.text, 2, 10⟩, ⟨.text, 10, 10⟩] := by
    decide
  obtain rfl := Option.some.inj (heq.symm.trans hrun)
  exact absurd (hyields 3 (by decide) (by decide) ("<|end|>".toList, .stop) (by decide) (by decide))
    (by decide)

end Sglang.Harmony
