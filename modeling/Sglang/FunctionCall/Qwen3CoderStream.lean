/-
# The tokens of a Qwen3-coder stream

The cursor machine reads tokens: tags with their names, parameters with their values, and single
characters of plain text.  What is a token does not depend on the state, and it does not depend on what
follows (`steady_next`): a tag has its `<` in front, so no tag reaches into another one.  A loop handles
the tokens of its text (`loop_eq`), and a stream therefore handles the tokens of the whole text
(`parseStream_eq`), wherever it is cut.
-/
import Sglang.Lib.Tags
import Sglang.FunctionCall.Qwen3Coder

namespace Sglang

open Lib List

namespace FunctionCall

/-! ## 1. Tokens -/

/-- What a turn reads. -/
inductive Token
  | text (c : Char)
  | toolCall
  | function (name : Text)
  | parameter (name rawValue : Text)
  | functionEnd
  | toolCallEnd
deriving DecidableEq

/-- A value up to the tag that ends it; `</parameter>` belongs to the value, the others do not. -/
def scanValue : Text → Option (Text × Text)
  | [] => none
  | c :: r =>
    if parameterEndToken <+: c :: r then some ([], (c :: r).drop parameterEndToken.length)
    else if parameterPrefix <+: c :: r ∨ functionEndToken <+: c :: r then some ([], c :: r)
    else (scanValue r).map fun p => (c :: p.1, p.2)

/-- The first token of a text. -/
def next (slice : Text) : Option (Token × Text) :=
  match slice with
  | [] => none
  | c :: r =>
    if c ≠ '<' then some (.text c, r)
    else if toolCallStartToken <+: c :: r then
      some (.toolCall, (c :: r).drop toolCallStartToken.length)
    else if toolCallPrefix <+: c :: r then
      (splitName ((c :: r).drop toolCallPrefix.length)).map fun p => (.function p.1, p.2)
    else if parameterPrefix <+: c :: r then
      (splitName ((c :: r).drop parameterPrefix.length)).bind fun p =>
        (scanValue p.2).map fun q => (.parameter p.1 q.1, q.2)
    else if functionEndToken <+: c :: r then
      some (.functionEnd, (c :: r).drop functionEndToken.length)
    else if toolCallEndToken <+: c :: r then
      some (.toolCallEnd, (c :: r).drop toolCallEndToken.length)
    else if possibleTags.any fun tag => (c :: r).isPrefixOf tag then none
    else some (.text c, r)

/-- What a token does. -/
def act (py : Python) (tools : Option (List Tool)) (s : State) : Token → Option (State × List Event)
  | .text c => some (s, s.plain [c])
  | .toolCall => some ({ s with isInsideToolCall := true }, [])
  | .function name => some (s.named name,
      [.call { toolIndex := s.currentToolId + 1, name := some name, parameters := [] }])
  | .parameter name rawValue => s.parameter py tools name rawValue
  | .functionEnd => some s.functionEnd
  | .toolCallEnd => some ({ s with isInsideToolCall := false }, [])

/-! ## 2. Tags -/

/-- A tag has its `<` in front, and only there; no tag begins with another one. -/
theorem qwenTags : Tags '<' possibleTags where
  head := by
    have h : ∀ tag ∈ possibleTags, tag = '<' :: tag.tail ∧ '<' ∉ tag.tail ∧ tag.tail ≠ [] := by
      decide
    exact fun tag ht => ⟨tag.tail, h tag ht⟩
  incomparable := by decide

/-! ## 3. Tokens are steady -/

variable {l a b : Text}

theorem splitName_append (h : splitName l = some (a, b)) (m : Text) :
    splitName (l ++ m) = some (a, b ++ m) := by
  obtain ⟨i, hi, heq⟩ := Option.map_eq_some_iff.mp h
  have hlen := find_add_le hi
  cases heq
  rw [splitName, find_append hi m, Option.map_some, take_append_of_le_length (by omega),
    drop_append_of_le_length (by omega)]

theorem splitName_length (h : splitName l = some (a, b)) : b.length < l.length := by
  obtain ⟨i, hi, heq⟩ := Option.map_eq_some_iff.mp h
  have hlen := find_add_le hi
  rw [length_singleton] at hlen
  cases heq
  rw [length_drop]
  omega

theorem open_of_scanValue (h : (scanValue l).isSome) : '<' ∈ l := by
  induction l with
  | nil => cases h
  | cons c r ih =>
    rw [scanValue] at h
    split at h
    · rename_i hp
      exact hp.mem (by decide)
    · split at h
      · rename_i hp
        rcases hp with hp | hp
        · exact hp.mem (by decide)
        · exact hp.mem (by decide)
      · rw [Option.isSome_map] at h
        exact mem_cons_of_mem _ (ih h)

variable {v r : Text}

theorem scanValue_append (h : scanValue l = some (v, r)) (m : Text) :
    scanValue (l ++ m) = some (v, r ++ m) := by
  induction l generalizing v with
  | nil => cases h
  | cons c l ih =>
    -- a tag that the text cuts has no `<` behind its first character
    have hcut : ∀ tag ∈ possibleTags, (scanValue l).isSome → c :: l <+: tag → c :: l = tag := by
      intro tag ht hsome hp
      obtain ⟨t, rfl, hopen, -⟩ := qwenTags.head tag ht
      exact absurd ((cons_prefix_cons.mp hp).2.mem (open_of_scanValue hsome)) hopen
    have hiff : ∀ tag ∈ possibleTags, (tag <+: c :: (l ++ m) ↔ tag <+: c :: l) := by
      intro tag ht
      refine prefix_append_iff_of_uncut (l := c :: l) (fun hp => ?_) m
      rw [scanValue] at h
      split at h
      · rename_i hend
        exact qwenTags.not_cut ht (by decide) hend hp
      · split at h
        · rename_i hend
          rcases hend with hend | hend
          · exact qwenTags.not_cut ht (by decide) hend hp
          · exact qwenTags.not_cut ht (by decide) hend hp
        · obtain ⟨p, hsome, -⟩ := Option.map_eq_some_iff.mp h
          exact hcut tag ht (by rw [hsome]; rfl) hp
    rw [scanValue] at h
    rw [cons_append, scanValue]
    simp only [hiff parameterEndToken (by decide), hiff parameterPrefix (by decide),
      hiff functionEndToken (by decide)]
    split at h
    · rename_i hend
      rw [if_pos hend]
      cases h
      rw [← cons_append, drop_append_of_le_length hend.length_le]
    · rename_i hend
      rw [if_neg hend]
      split at h
      · rename_i hnext
        rw [if_pos hnext]
        cases h
        rfl
      · rename_i hnext
        obtain ⟨p, hp, heq⟩ := Option.map_eq_some_iff.mp h
        cases heq
        rw [if_neg hnext, ih hp]
        rfl

theorem scanValue_length (h : scanValue l = some (v, r)) : r.length ≤ l.length := by
  induction l generalizing v with
  | nil => cases h
  | cons c l ih =>
    rw [scanValue] at h
    split at h
    · cases h
      rw [length_drop]
      omega
    · split at h
      · cases h
        exact Nat.le_refl _
      · obtain ⟨p, hp, heq⟩ := Option.map_eq_some_iff.mp h
        cases heq
        exact (ih hp).trans (Nat.le_succ _)

theorem not_cut_of_next (h : (next l).isSome) : ∀ tag ∈ possibleTags, l <+: tag → l = tag := by
  intro tag ht hp
  rcases l with _ | ⟨c, r⟩
  · cases h
  · rw [next] at h
    split at h
    · rename_i hc
      obtain ⟨t, rfl, -⟩ := qwenTags.head tag ht
      exact absurd (cons_prefix_cons.mp hp).1 hc
    · by_cases hfront : ∃ tag' ∈ possibleTags, tag' <+: c :: r
      · obtain ⟨tag', ht', hp'⟩ := hfront
        exact qwenTags.not_cut ht ht' hp' hp
      · have hno : ∀ tag' ∈ possibleTags, ¬ tag' <+: c :: r := fun tag' ht' hp' =>
          hfront ⟨tag', ht', hp'⟩
        rw [if_neg (hno _ (by decide)), if_neg (hno _ (by decide)), if_neg (hno _ (by decide)),
          if_neg (hno _ (by decide)), if_neg (hno _ (by decide)),
          if_pos (any_eq_true.mpr ⟨tag, ht, isPrefixOf_iff_prefix.mpr hp⟩)] at h
        cases h

/-- **A token that is seen takes something of the text and does not depend on what follows.** -/
theorem steady_next : Steady next where
  takes := by
    intro l t r h
    rcases l with _ | ⟨c, l⟩
    · cases h
    · rw [next] at h
      have hdrop : ∀ tag : Text, tag ≠ [] → ((c :: l).drop tag.length).length < (c :: l).length := by
        intro tag htag
        have := length_pos_iff.mpr htag
        rw [length_drop, length_cons]
        omega
      split at h
      · cases h
        exact Nat.lt_succ_self _
      split at h
      · cases h
        exact hdrop _ (by decide)
      split at h
      · obtain ⟨p, hp, heq⟩ := Option.map_eq_some_iff.mp h
        cases heq
        exact (splitName_length hp).trans (hdrop _ (by decide))
      split at h
      · obtain ⟨p, hp, hscan⟩ := Option.bind_eq_some_iff.mp h
        obtain ⟨q, hq, heq⟩ := Option.map_eq_some_iff.mp hscan
        cases heq
        exact (Nat.lt_of_le_of_lt (scanValue_length hq) (splitName_length hp)).trans
          (hdrop _ (by decide))
      split at h
      · cases h
        exact hdrop _ (by decide)
      split at h
      · cases h
        exact hdrop _ (by decide)
      split at h
      · cases h
      · cases h
        exact Nat.lt_succ_self _
  keeps := by
    intro l t r h m
    have hcut := not_cut_of_next (l := l) (by rw [h]; rfl)
    rcases l with _ | ⟨c, l⟩
    · cases h
    · have hiff : ∀ tag ∈ possibleTags, (tag <+: c :: (l ++ m) ↔ tag <+: c :: l) := fun tag ht =>
        prefix_append_iff_of_uncut (l := c :: l) (hcut tag ht) m
      have hdrop : ∀ {tag : Text}, tag <+: c :: l →
          (c :: (l ++ m)).drop tag.length = (c :: l).drop tag.length ++ m := by
        intro tag hp
        rw [← cons_append, drop_append_of_le_length hp.length_le]
      rw [next] at h
      rw [cons_append, next]
      simp only [hiff _ (show toolCallStartToken ∈ possibleTags by decide),
        hiff _ (show toolCallPrefix ∈ possibleTags by decide),
        hiff _ (show parameterPrefix ∈ possibleTags by decide),
        hiff _ (show functionEndToken ∈ possibleTags by decide),
        hiff _ (show toolCallEndToken ∈ possibleTags by decide)]
      split at h
      · rename_i h1
        rw [if_pos h1]
        cases h
        rfl
      rename_i h1
      rw [if_neg h1]
      split at h
      · rename_i h2
        rw [if_pos h2, hdrop h2]
        cases h
        rfl
      rename_i h2
      rw [if_neg h2]
      split at h
      · rename_i h3
        obtain ⟨p, hp, heq⟩ := Option.map_eq_some_iff.mp h
        cases heq
        rw [if_pos h3, hdrop h3, splitName_append hp]
        rfl
      rename_i h3
      rw [if_neg h3]
      split at h
      · rename_i h4
        obtain ⟨p, hp, hscan⟩ := Option.bind_eq_some_iff.mp h
        obtain ⟨q, hq, heq⟩ := Option.map_eq_some_iff.mp hscan
        cases heq
        rw [if_pos h4, hdrop h4, splitName_append hp, Option.bind_some, scanValue_append hq]
        rfl
      rename_i h4
      rw [if_neg h4]
      split at h
      · rename_i h5
        rw [if_pos h5, hdrop h5]
        cases h
        rfl
      rename_i h5
      rw [if_neg h5]
      split at h
      · rename_i h6
        rw [if_pos h6, hdrop h6]
        cases h
        rfl
      rename_i h6
      rw [if_neg h6]
      split at h
      · cases h
      · rename_i h7
        cases h
        rw [if_neg]
        intro hany
        obtain ⟨tag, ht, hp⟩ := any_eq_true.mp hany
        have hl : c :: r <+: tag :=
          (prefix_append (c :: r) m).trans (List.isPrefixOf_iff_prefix.mp hp)
        exact h7 (any_eq_true.mpr ⟨tag, ht, isPrefixOf_iff_prefix.mpr hl⟩)

/-! ## 4. A turn reads tokens -/

theorem bestCandidate_map_succ : ∀ l : List (ℕ × ℕ),
    bestCandidate (l.map fun p => (p.1 + 1, p.2)) = (bestCandidate l).map fun p => (p.1 + 1, p.2)
  | [] => rfl
  | p :: l => by
    rw [map_cons, bestCandidate, bestCandidate, bestCandidate_map_succ l]
    cases bestCandidate l with
    | none => rfl
    | some q =>
      dsimp only [Option.map_some]
      split
      · rw [if_pos (by omega)]
        rfl
      · rw [if_neg (by omega)]
        rfl

theorem bestCandidate_zero {k : ℕ} : ∀ {l : List (ℕ × ℕ)}, (0, k) ∈ l →
    (∀ p ∈ l, p.1 = 0 → p.2 = k) → bestCandidate l = some (0, k)
  | [], h, _ => by cases h
  | (i, j) :: l, h, hall => by
    rw [bestCandidate]
    have htail : (0, k) ∈ l → bestCandidate l = some (0, k) := fun hl =>
      bestCandidate_zero hl fun p hp => hall p (mem_cons_of_mem _ hp)
    by_cases hi : i = 0
    · obtain rfl : j = k := hall (i, j) mem_cons_self hi
      subst hi
      cases bestCandidate l with
      | none => rfl
      | some q => exact if_neg (Nat.not_lt_zero _)
    · have hl : (0, k) ∈ l := (mem_cons.mp h).resolve_left fun heq => hi (by cases heq; rfl)
      rw [htail hl]
      exact if_pos (Nat.pos_of_ne_zero hi)

theorem mem_candidates {p : ℕ × ℕ} : p ∈ candidates l ↔
    (find parameterEndToken l = some p.1 ∧ p.2 = parameterEndToken.length) ∨
    (find parameterPrefix l = some p.1 ∧ p.2 = 0) ∨
    (find functionEndToken l = some p.1 ∧ p.2 = 0) := by
  have hone : ∀ (o : Option ℕ) (k : ℕ), p ∈ (o.map (·, k)).toList ↔ o = some p.1 ∧ p.2 = k := by
    intro o k
    obtain ⟨i, j⟩ := p
    cases o with
    | none => simp
    | some i' => simp [eq_comm]
  rw [candidates, mem_append, mem_append, hone, hone, hone, or_assoc]

variable {tag : Text} {c : Char}

theorem find_cons_eq_zero_iff : find tag (c :: r) = some 0 ↔ tag <+: c :: r := by
  rw [find]
  split
  · simp [*]
  · simp [*]

theorem bestCandidate_candidates : ∀ l : Text,
    (bestCandidate (candidates l)).map (fun p => (l.take p.1, l.drop (p.1 + p.2))) = scanValue l
  | [] => rfl
  | c :: r => by
    -- a tag in front is the only one that stands there
    have hfront : ∀ tag ∈ possibleTags, ∀ k, tag <+: c :: r → (0, k) ∈ candidates (c :: r) →
        (∀ tag' k', tag' ∈ possibleTags → tag' = tag →
          (tag' = parameterEndToken → k' = parameterEndToken.length) →
          (tag' ≠ parameterEndToken → k' = 0) → k' = k) →
        bestCandidate (candidates (c :: r)) = some (0, k) := by
      intro tag ht k hp hk huniq
      refine bestCandidate_zero hk fun p hmem h0 => ?_
      obtain ⟨i, j⟩ := p
      cases h0
      rcases mem_candidates.mp hmem with ⟨hfind, hj⟩ | ⟨hfind, hj⟩ | ⟨hfind, hj⟩
      · exact huniq _ _ (by decide)
          (qwenTags.unique (by decide) ht (find_cons_eq_zero_iff.mp hfind) hp) (fun _ => hj)
          fun h => absurd rfl h
      · exact huniq _ _ (by decide)
          (qwenTags.unique (by decide) ht (find_cons_eq_zero_iff.mp hfind) hp)
          (fun h => absurd h (by decide)) fun _ => hj
      · exact huniq _ _ (by decide)
          (qwenTags.unique (by decide) ht (find_cons_eq_zero_iff.mp hfind) hp)
          (fun h => absurd h (by decide)) fun _ => hj
    rw [scanValue]
    split
    · rename_i h1
      rw [hfront parameterEndToken (by decide) parameterEndToken.length h1
        (mem_candidates.mpr (.inl ⟨find_cons_eq_zero_iff.mpr h1, rfl⟩))
        fun tag' k' _ heq hk _ => hk heq]
      rfl
    · rename_i h1
      split
      · rename_i h2
        rcases h2 with h2 | h2
        · rw [hfront parameterPrefix (by decide) 0 h2
            (mem_candidates.mpr (.inr (.inl ⟨find_cons_eq_zero_iff.mpr h2, rfl⟩)))
            fun tag' k' _ heq _ hk => hk (by rw [heq]; decide)]
          rfl
        · rw [hfront functionEndToken (by decide) 0 h2
            (mem_candidates.mpr (.inr (.inr ⟨find_cons_eq_zero_iff.mpr h2, rfl⟩)))
            fun tag' k' _ heq _ hk => hk (by rw [heq]; decide)]
          rfl
      · rename_i h2
        rw [not_or] at h2
        have hsucc : candidates (c :: r) = (candidates r).map fun p => (p.1 + 1, p.2) := by
          simp only [candidates, find, if_neg h1, if_neg h2.1, if_neg h2.2]
          cases find parameterEndToken r <;> cases find parameterPrefix r <;>
            cases find functionEndToken r <;> rfl
        rw [hsucc, bestCandidate_map_succ, ← bestCandidate_candidates r, Option.map_map,
          Option.map_map]
        congr 1
        funext p
        simp [Nat.add_right_comm]

theorem next_text (hc : c ≠ '<') (r : Text) : next (c :: r) = some (.text c, r) := by
  rw [next, if_pos hc]

theorem tokens_text : ∀ {u : Text}, '<' ∉ u → ∀ l : Text,
    tokens next (u ++ l) = (u.map .text ++ (tokens next l).1, (tokens next l).2)
  | [], _, _ => rfl
  | c :: u, h, l => by
    rw [mem_cons, not_or] at h
    rw [cons_append, tokens_cons steady_next (next_text (Ne.symm h.1) _), tokens_text h.2]
    rfl

theorem handle_text (py : Python) (tools : Option (List Tool)) (s : State) : ∀ u : Text,
    handle (act py tools) s (u.map .text) = some (s, s.plain u)
  | [] => by
    rw [map_nil, State.plain]
    split
    · rfl
    · rfl
  | c :: u => by
    rw [map_cons, handle, act, Option.bind_some, handle_text py tools s u]
    simp only [State.plain, Option.map_some]
    split
    · rfl
    · rfl

theorem find_drop_tag (ht : '>' ∉ tag) (h : tag <+: l) :
    find ['>'] l = (find ['>'] (l.drop tag.length)).map (· + tag.length) := by
  obtain ⟨v, rfl⟩ := h
  rw [drop_left, find_singleton_append ht]

/-- **A turn reads some tokens**, and does with them what they do one after another. -/
theorem turn_spec (py : Python) (tools : Option (List Tool)) (s : State) (slice : Text) :
    (next slice = none ∧ turn py tools s slice = .stop) ∨
    ∃ n ts, (slice.drop n).length < slice.length ∧ tokens next slice
        = (ts ++ (tokens next (slice.drop n)).1, (tokens next (slice.drop n)).2) ∧
      turn py tools s slice = match handle (act py tools) s ts with
        | none => .raise
        | some p => .advance n p.1 p.2 := by
  rcases slice with _ | ⟨c, r⟩
  · exact .inl ⟨rfl, rfl⟩
  have hone : ∀ {t : Token} {n : ℕ}, next (c :: r) = some (t, (c :: r).drop n) →
      turn py tools s (c :: r) = (match act py tools s t with
        | none => .raise
        | some p => .advance n p.1 p.2) →
      ∃ n ts, ((c :: r).drop n).length < (c :: r).length ∧ tokens next (c :: r)
          = (ts ++ (tokens next ((c :: r).drop n)).1, (tokens next ((c :: r).drop n)).2) ∧
        turn py tools s (c :: r) = match handle (act py tools) s ts with
          | none => .raise
          | some p => .advance n p.1 p.2 := by
    intro t n hn hturn
    refine ⟨n, [t], steady_next.takes hn, tokens_cons steady_next hn, hturn.trans ?_⟩
    rw [handle]
    cases act py tools s t with
    | none => rfl
    | some p => simp [handle]
  by_cases hc : c = '<'
  · subst hc
    have hnc := cons_ne_nil '<' r
    by_cases h1 : toolCallStartToken <+: '<' :: r
    · refine .inr (hone (t := .toolCall) (n := toolCallStartToken.length) ?_ ?_)
      · rw [next, if_neg (not_not_intro rfl), if_pos h1]
      · rw [turn, if_neg hnc, if_pos h1, act]
    by_cases h2 : toolCallPrefix <+: '<' :: r
    · have hturn : turn py tools s ('<' :: r) = functionTurn s ('<' :: r) := by
        rw [turn, if_neg hnc, if_neg h1, if_pos h2]
      have hnext : next ('<' :: r) = (splitName (('<' :: r).drop toolCallPrefix.length)).map
          fun p => (.function p.1, p.2) := by
        rw [next, if_neg (not_not_intro rfl), if_neg h1, if_pos h2]
      rw [splitName] at hnext
      rw [functionTurn, find_drop_tag (by decide) h2] at hturn
      cases hfind : find ['>'] (('<' :: r).drop toolCallPrefix.length) with
      | none =>
        rw [hfind] at hnext hturn
        exact .inl ⟨hnext, hturn⟩
      | some i =>
        rw [hfind] at hnext hturn
        refine .inr (hone (t := .function ((('<' :: r).drop toolCallPrefix.length).take i))
          (n := i + toolCallPrefix.length + 1) ?_ ?_)
        · rw [hnext, Option.map_some, Option.map_some, drop_drop, Nat.add_comm _ (i + 1),
            Nat.add_right_comm]
        · rw [hturn, act, Option.map_some]
          dsimp only
          rw [drop_take, Nat.add_sub_cancel]
    by_cases h3 : parameterPrefix <+: '<' :: r
    · have hturn : turn py tools s ('<' :: r) = parameterTurn py tools s ('<' :: r) := by
        rw [turn, if_neg hnc, if_neg h1, if_neg h2, if_pos h3]
      have hnext : next ('<' :: r) = (splitName (('<' :: r).drop parameterPrefix.length)).bind
          fun p => (scanValue p.2).map fun q => (.parameter p.1 q.1, q.2) := by
        rw [next, if_neg (not_not_intro rfl), if_neg h1, if_neg h2, if_pos h3]
      rw [splitName] at hnext
      rw [parameterTurn, find_drop_tag (by decide) h3] at hturn
      cases hfind : find ['>'] (('<' :: r).drop parameterPrefix.length) with
      | none =>
        rw [hfind] at hnext hturn
        exact .inl ⟨hnext, hturn⟩
      | some i =>
        rw [hfind] at hnext hturn
        have hrest : (('<' :: r).drop parameterPrefix.length).drop (i + 1)
            = ('<' :: r).drop (i + parameterPrefix.length + 1) := by
          rw [drop_drop, Nat.add_comm _ (i + 1), Nat.add_right_comm]
        rw [Option.map_some, Option.bind_some, hrest, ← bestCandidate_candidates] at hnext
        rw [Option.map_some] at hturn
        dsimp only at hturn
        cases hbest : bestCandidate
          (candidates (('<' :: r).drop (i + parameterPrefix.length + 1))) with
        | none =>
          rw [hbest] at hnext hturn
          exact .inl ⟨hnext, hturn⟩
        | some p =>
          rw [hbest] at hnext hturn
          refine .inr (hone (n := i + parameterPrefix.length + 1 + p.1 + p.2)
            (t := .parameter ((('<' :: r).drop parameterPrefix.length).take i)
              ((('<' :: r).drop (i + parameterPrefix.length + 1)).take p.1)) ?_ ?_)
          · rw [hnext, Option.map_some, Option.map_some, drop_drop, Nat.add_assoc _ p.1]
          · rw [hturn, act, drop_take, Nat.add_sub_cancel]
            dsimp only
            cases s.parameter py tools ((('<' :: r).drop parameterPrefix.length).take i)
              ((('<' :: r).drop (i + parameterPrefix.length + 1)).take p.1) with
            | none => rfl
            | some q => rfl
    by_cases h4 : functionEndToken <+: '<' :: r
    · refine .inr (hone (t := .functionEnd) (n := functionEndToken.length) ?_ ?_)
      · rw [next, if_neg (not_not_intro rfl), if_neg h1, if_neg h2, if_neg h3, if_pos h4]
      · rw [turn, if_neg hnc, if_neg h1, if_neg h2, if_neg h3, if_pos h4, act]
    by_cases h5 : toolCallEndToken <+: '<' :: r
    · refine .inr (hone (t := .toolCallEnd) (n := toolCallEndToken.length) ?_ ?_)
      · rw [next, if_neg (not_not_intro rfl), if_neg h1, if_neg h2, if_neg h3, if_neg h4, if_pos h5]
      · rw [turn, if_neg hnc, if_neg h1, if_neg h2, if_neg h3, if_neg h4, if_pos h5, act]
    have hturn : turn py tools s ('<' :: r) = plainTurn s ('<' :: r) := by
      rw [turn, if_neg hnc, if_neg h1, if_neg h2, if_neg h3, if_neg h4, if_neg h5]
    have hnext : next ('<' :: r) = if possibleTags.any fun tag => ('<' :: r).isPrefixOf tag
        then none else some (.text '<', r) := by
      rw [next, if_neg (not_not_intro rfl), if_neg h1, if_neg h2, if_neg h3, if_neg h4, if_neg h5]
    rw [plainTurn] at hturn
    by_cases h6 : possibleTags.any fun tag => ('<' :: r).isPrefixOf tag
    · rw [if_pos h6] at hnext hturn
      exact .inl ⟨hnext, hturn⟩
    · rw [if_neg h6] at hnext hturn
      exact .inr (hone (t := .text '<') (n := 1) hnext hturn)
  · right
    have hno : ∀ tag ∈ possibleTags, ¬ tag <+: c :: r := by
      intro tag ht hp
      obtain ⟨t, rfl, -⟩ := qwenTags.head tag ht
      exact hc (cons_prefix_cons.mp hp).1.symm
    have hplain : turn py tools s (c :: r) = plainTurn s (c :: r) := by
      rw [turn, if_neg (cons_ne_nil _ _), if_neg (hno _ (by decide)),
        if_neg (hno _ (by decide)), if_neg (hno _ (by decide)), if_neg (hno _ (by decide)),
        if_neg (hno _ (by decide))]
    have hseg : ∀ n, 0 < n → '<' ∉ (c :: r).take n →
        plainTurn s (c :: r) = .advance n s (s.plain ((c :: r).take n)) →
        ∃ n ts, ((c :: r).drop n).length < (c :: r).length ∧ tokens next (c :: r)
            = (ts ++ (tokens next ((c :: r).drop n)).1, (tokens next ((c :: r).drop n)).2) ∧
          turn py tools s (c :: r) = match handle (act py tools) s ts with
            | none => .raise
            | some p => .advance n p.1 p.2 := by
      intro n hn hfree hturn
      refine ⟨n, ((c :: r).take n).map .text, ?_, ?_, ?_⟩
      · rw [length_drop, length_cons]
        omega
      · rw [← tokens_text hfree, take_append_drop]
      · rw [handle_text, hplain, hturn]
    cases hfind : find ['<'] (c :: r) with
    | none =>
      refine hseg (c :: r).length (Nat.succ_pos _) ?_ ?_
      · rw [take_length]
        exact find_singleton_eq_none_iff.mp hfind
      · rw [plainTurn, hfind, take_length]
    | some k =>
      obtain _ | k := k
      · exact absurd (cons_prefix_cons.mp (find_cons_eq_zero_iff.mp hfind)).1.symm hc
      · refine hseg (k + 1) (Nat.succ_pos _) (not_mem_take_of_find hfind) ?_
        rw [plainTurn, hfind]
        rfl

/-! ## 5. A stream handles the tokens of its text -/

/-- What handling the tokens of a text gives. -/
def handled (py : Python) (tools : Option (List Tool)) (s : State) (slice : Text) :
    Except Fault (State × Text × List Event) :=
  match handle (act py tools) s (tokens next slice).1 with
  | none => .error .raised
  | some p => .ok (p.1, (tokens next slice).2, p.2)

/-- **A loop handles the tokens of its text**, with fuel for one turn more than it has characters. -/
theorem loop_eq (py : Python) (tools : Option (List Tool)) : ∀ (fuel : ℕ) (s : State) (slice : Text),
    slice.length < fuel → loop py tools fuel s slice = handled py tools s slice
  | 0, _, _, h => absurd h (Nat.not_lt_zero _)
  | fuel + 1, s, slice, h => by
    rw [loop, handled]
    rcases turn_spec py tools s slice with ⟨hn, hturn⟩ | ⟨n, ts, hlt, htokens, hturn⟩
    · rw [hturn, tokens_stop steady_next hn]
      rfl
    · rw [hturn, htokens, handle_append]
      cases handle (act py tools) s ts with
      | none => rfl
      | some p =>
        dsimp only [Option.bind_some]
        rw [loop_eq py tools fuel p.1 (slice.drop n) (by omega), handled]
        cases handle (act py tools) p.1 (tokens next (slice.drop n)).1 with
        | none => rfl
        | some q => rfl

/-- A call handles the tokens of its buffer. -/
theorem parseStreamingIncrement_eq (py : Python) (tools : Option (List Tool)) (d : Detector)
    (newText : Text) : parseStreamingIncrement py tools d newText
      = (handled py tools d.state (d.buffer ++ newText)).map fun r =>
        (⟨r.1, r.2.1⟩, { normalText := normalText r.2.2, calls := calls r.2.2 }) := by
  rw [parseStreamingIncrement]
  split
  · rename_i hnil
    rw [hnil]
    rfl
  · rw [loop_eq py tools _ _ _ (Nat.lt_succ_self _)]

/-- The results of the calls, if they all return. -/
def resultsOf (events : List (List Event)) : List StreamingParseResult :=
  events.map fun es => { normalText := normalText es, calls := calls es }

theorem parseStream_pieces (py : Python) (tools : Option (List Tool)) (d : Detector)
    (chunks : List Text) : parseStream py tools d chunks
      = match pieces next (act py tools) d.state d.buffer chunks with
        | none => .error .raised
        | some q => .ok (resultsOf q.2.2) := by
  induction chunks generalizing d with
  | nil => rfl
  | cons newText chunks ih =>
    rw [parseStream, parseStreamingIncrement_eq, pieces, handled]
    cases handle (act py tools) d.state (tokens next (d.buffer ++ newText)).1 with
    | none => rfl
    | some p =>
      dsimp only [Except.map, Option.bind_some]
      rw [ih]
      cases pieces next (act py tools) p.1 (tokens next (d.buffer ++ newText)).2 chunks with
      | none => rfl
      | some q => rfl

end FunctionCall

end Sglang
