/-
# Grammars, and the grammar of a reasoning request

A grammar object accepts tokens, takes back the last ones, and writes the tokens it allows into a row of
a bitmask.  `ReasonerGrammarObject` (`reasoner_grammar_backend.py`) wraps one: while the model thinks the
inner grammar is not asked, from the token that ends the thinking on it is.  Two counters say where the
request stands, and a rollback may have to cross from one to the other.

`rollback(k)` of the wrapper hands the inner grammar as many steps as were accepted since the thinking
ended, and then takes its own state back `k` times (`rollback_accepts`).
-/
import Mathlib.Tactic

namespace Sglang

open List

/-! ## 1. Grammar objects -/

/-- A row of a bitmask: 32 tokens a word. -/
abbrev MaskRow := List (BitVec 32)

/-- The bit of a token, where the row has it. -/
def MaskRow.bit? (row : MaskRow) (token : ℕ) : Option Bool :=
  row[token / 32]?.map fun word => word.getLsbD (token % 32)

/-- The methods of a `BaseGrammarObject` whose state is `S`.  `accept_token` raises where it has no
result. -/
structure GrammarObject (S : Type) where
  acceptToken : S → ℕ → Option S
  rollback : S → ℕ → S
  isTerminated : S → Bool
  fillVocabMask : S → MaskRow → MaskRow

namespace GrammarObject

variable {S : Type}

/-- Tokens accepted one after the other. -/
def accepts (G : GrammarObject S) (s : S) (tokens : List ℕ) : Option S :=
  tokens.foldlM G.acceptToken s

/-- A grammar as the engines keep it: a rollback takes back the tokens accepted last, and the mask holds
the tokens that would be accepted. -/
structure Exact (G : GrammarObject S) : Prop where
  rollback_accepts : ∀ s tokens s', G.accepts s tokens = some s' → G.rollback s' tokens.length = s
  length_fill : ∀ s row, (G.fillVocabMask s row).length = row.length
  bit_fill : ∀ s (row : MaskRow) token, token / 32 < row.length →
    (G.fillVocabMask s row).bit? token = some (G.acceptToken s token).isSome

/-- What a walk over a tree of drafts needs: an accepted token can be taken back, and a token that the
mask allows is accepted. -/
structure Walkable (G : GrammarObject S) : Prop where
  rollback_accept : ∀ s token s', G.acceptToken s token = some s' → G.rollback s' 1 = s
  length_fill : ∀ s row, (G.fillVocabMask s row).length = row.length
  accept_of_bit : ∀ s (row : MaskRow) token, (G.fillVocabMask s row).bit? token = some true →
    (G.acceptToken s token).isSome

variable {G : GrammarObject S} {s s' : S}

@[simp] theorem accepts_nil (G : GrammarObject S) (s : S) : G.accepts s [] = some s := rfl

@[simp] theorem accepts_singleton (G : GrammarObject S) (s : S) (token : ℕ) :
    G.accepts s [token] = G.acceptToken s token := by
  simp [accepts]

theorem accepts_append (G : GrammarObject S) (s : S) (tokens tokens' : List ℕ) :
    G.accepts s (tokens ++ tokens') = (G.accepts s tokens).bind (G.accepts · tokens') := by
  simp [accepts, foldlM_append]

theorem Exact.walkable (h : G.Exact) : G.Walkable where
  rollback_accept s token s' heq := h.rollback_accepts s [token] s' (by simpa using heq)
  length_fill := h.length_fill
  accept_of_bit s row token hbit := by
    have hlt : token / 32 < row.length := by
      by_contra hge
      rw [← h.length_fill s row] at hge
      rw [MaskRow.bit?, getElem?_eq_none (not_lt.mp hge)] at hbit
      cases hbit
    rw [h.bit_fill s row token hlt] at hbit
    simpa using hbit

end GrammarObject

/-! ## 2. The wrapper -/

/-- `token_filter_fn`, which works on a row in place. -/
structure TokenFilter where
  run : MaskRow → Option (List ℕ) → Bool → MaskRow
  length_run : ∀ row tokenIds isAllowed, (run row tokenIds isAllowed).length = row.length

/-- `set_token_filter_torch`, with `reset_vocab_mask`: the bits of the tokens in one word are set or
cleared together. -/
def setTokenFilterTorch : TokenFilter where
  run row tokenIds isAllowed := row.mapIdx fun elementIdx _ =>
    let aggregated := ((tokenIds.getD []).filter (· / 32 = elementIdx)).foldl
      (fun mask token => mask ||| 1 <<< (token % 32)) 0
    if isAllowed then aggregated else ~~~aggregated
  length_run _ _ _ := length_mapIdx

/-- `ReasonerGrammarObject`: the state of the inner grammar, when there is one, the two counters, and
what the filter of the thinking phase goes by. -/
structure ReasonerGrammarObject (S : Type) where
  grammar : Option S
  thinkEndId : ℕ
  thinkExcludedTokenIds : Option (List ℕ)
  maxThinkTokens : ℤ
  enableTokenFilter : Bool
  tokenFilterFn : Option TokenFilter
  tokensInThink : ℤ
  tokensAfterEnd : ℤ

namespace ReasonerGrammarObject

variable {S : Type}

/-- `_is_thinking`. -/
def isThinking (r : ReasonerGrammarObject S) : Bool := r.tokensInThink ≥ 0 ∧ r.tokensAfterEnd = -1

/-- `_is_generation`. -/
def isGeneration (r : ReasonerGrammarObject S) : Bool := r.tokensAfterEnd ≥ 0

/-- `transfer_state`. -/
def transferState (r : ReasonerGrammarObject S) (token : ℕ) : ReasonerGrammarObject S :=
  if r.isThinking then
    if token = r.thinkEndId then { r with tokensAfterEnd := 0 }
    else { r with tokensInThink := r.tokensInThink + 1 }
  else if r.isGeneration then { r with tokensAfterEnd := r.tokensAfterEnd + 1 }
  else r

/-- `rollback_state`. -/
def rollbackState (r : ReasonerGrammarObject S) : ReasonerGrammarObject S :=
  if r.isThinking then
    if r.tokensInThink > 0 then { r with tokensInThink := r.tokensInThink - 1 } else r
  else if r.isGeneration then
    if r.tokensAfterEnd = 0 then { r with tokensAfterEnd := -1 }
    else if r.tokensAfterEnd > 0 then { r with tokensAfterEnd := r.tokensAfterEnd - 1 }
    else r
  else r

/-- `accept_token`. -/
def acceptToken (G : GrammarObject S) (r : ReasonerGrammarObject S) (token : ℕ) :
    Option (ReasonerGrammarObject S) :=
  match r.isGeneration, r.grammar with
  | true, some s =>
    (G.acceptToken s token).map fun s' => { r with grammar := some s' }.transferState token
  | _, _ => some (r.transferState token)

/-- `is_terminated`. -/
def isTerminated (G : GrammarObject S) (r : ReasonerGrammarObject S) : Bool :=
  match r.grammar with
  | some s => G.isTerminated s
  | none => false

/-- The steps of a rollback that the inner grammar takes: `min(k, max(0, tokens_after_end))`. -/
def stepsAfter (r : ReasonerGrammarObject S) (k : ℕ) : ℕ := (min (k : ℤ) (max 0 r.tokensAfterEnd)).toNat

/-- `rollback`. -/
def rollback (G : GrammarObject S) (r : ReasonerGrammarObject S) (k : ℕ) : ReasonerGrammarObject S :=
  let r :=
    match r.grammar with
    | some s => if r.stepsAfter k > 0 then { r with grammar := some (G.rollback s (r.stepsAfter k)) } else r
    | none => r
  rollbackState^[k] r

/-- `_can_think_more`. -/
def canThinkMore (r : ReasonerGrammarObject S) : Bool :=
  r.maxThinkTokens < 0 ∨ r.tokensInThink < r.maxThinkTokens

/-- `_do_token_filter`. -/
def doTokenFilter (r : ReasonerGrammarObject S) (row : MaskRow) (tokenIds : Option (List ℕ))
    (isAllowed : Bool) : MaskRow :=
  match r.tokenFilterFn with
  | some filter => filter.run row tokenIds isAllowed
  | none => row

/-- `fill_vocab_mask`, on its row. -/
def fillVocabMask (G : GrammarObject S) (r : ReasonerGrammarObject S) (row : MaskRow) : MaskRow :=
  if r.isThinking then
    if !r.enableTokenFilter then row
    else if r.canThinkMore then r.doTokenFilter row r.thinkExcludedTokenIds false
    else r.doTokenFilter row (some [r.thinkEndId]) true
  else
    match r.isGeneration, r.grammar with
    | true, some s => G.fillVocabMask s row
    | _, _ => row

/-- The wrapper around a grammar is a grammar object. -/
def object (G : GrammarObject S) : GrammarObject (ReasonerGrammarObject S) where
  acceptToken := acceptToken G
  rollback := rollback G
  isTerminated := isTerminated G
  fillVocabMask := fillVocabMask G

/-! ## 3. The counters -/

variable {G : GrammarObject S} {r r' : ReasonerGrammarObject S} {token : ℕ}

@[simp] theorem grammar_transferState (r : ReasonerGrammarObject S) (token : ℕ) :
    (r.transferState token).grammar = r.grammar := by
  unfold transferState
  split_ifs <;> rfl

@[simp] theorem transferState_withGrammar (r : ReasonerGrammarObject S) (g : Option S) (token : ℕ) :
    { r with grammar := g }.transferState token = { r.transferState token with grammar := g } := by
  have hthink : { r with grammar := g }.isThinking = r.isThinking := rfl
  have hgen : { r with grammar := g }.isGeneration = r.isGeneration := rfl
  unfold transferState
  rw [hthink, hgen]
  split
  · split <;> rfl
  · split <;> rfl

@[simp] theorem rollbackState_withGrammar (r : ReasonerGrammarObject S) (g : Option S) :
    { r with grammar := g }.rollbackState = { r.rollbackState with grammar := g } := by
  have hthink : { r with grammar := g }.isThinking = r.isThinking := rfl
  have hgen : { r with grammar := g }.isGeneration = r.isGeneration := rfl
  unfold rollbackState
  rw [hthink, hgen]
  split
  · dsimp only
    split <;> rfl
  · split
    · dsimp only
      split
      · rfl
      · split <;> rfl
    · rfl

theorem iterate_rollbackState_withGrammar (r : ReasonerGrammarObject S) (g : Option S) (k : ℕ) :
    rollbackState^[k] { r with grammar := g } = { rollbackState^[k] r with grammar := g } := by
  induction k generalizing r with
  | zero => rfl
  | succ k ih => rw [Function.iterate_succ_apply, Function.iterate_succ_apply,
      rollbackState_withGrammar, ih]

/-- **One step back undoes one step**, on either side of the end of the thinking and across it. -/
theorem rollbackState_transferState (r : ReasonerGrammarObject S) (token : ℕ) :
    (r.transferState token).rollbackState = r := by
  obtain ⟨g, endId, excluded, maxThink, enable, filter, think, after⟩ := r
  by_cases hthink : think ≥ 0 ∧ after = -1
  · obtain ⟨hpos, rfl⟩ := hthink
    by_cases htok : token = endId
    · simp [transferState, rollbackState, isThinking, isGeneration, hpos, htok]
    · have hsucc : 0 ≤ think + 1 := by omega
      have hlt : 0 < think + 1 := by omega
      simp [transferState, rollbackState, isThinking, hpos, htok, hsucc, hlt]
  · by_cases hgen : after ≥ 0
    · have hne : after + 1 ≠ -1 := by omega
      have hne' : after ≠ -1 := by omega
      have hsucc : 0 ≤ after + 1 := by omega
      have hne0 : after + 1 ≠ 0 := by omega
      have hlt : 0 < after + 1 := by omega
      simp [transferState, rollbackState, isThinking, isGeneration, hgen, hne, hne', hsucc, hne0,
        hlt]
    · simp [transferState, rollbackState, isThinking, isGeneration, hthink, hgen]

/-- While the grammar is asked, every token accepted is one more step for it to take back. -/
theorem stepsAfter_of_generation (h : r.isGeneration = true) (token k : ℕ) :
    (r.transferState token).stepsAfter (k + 1) = r.stepsAfter k + 1 := by
  have hafter : 0 ≤ r.tokensAfterEnd := by simpa [isGeneration] using h
  have hthink : r.isThinking = false := by
    have hne : r.tokensAfterEnd ≠ -1 := by omega
    simp [isThinking, hne]
  have hstate : (r.transferState token).tokensAfterEnd = r.tokensAfterEnd + 1 := by
    simp [transferState, hthink, h]
  rw [stepsAfter, stepsAfter]
  omega

/-- Before that there is nothing for it to take back, and still nothing when the thinking ends. -/
theorem stepsAfter_of_not_generation (h : r.isGeneration = false) (token k : ℕ) :
    (r.transferState token).stepsAfter k = 0 ∧ r.stepsAfter k = 0 := by
  have hafter : r.tokensAfterEnd < 0 := by simpa [isGeneration] using h
  have hstate : (r.transferState token).tokensAfterEnd ≤ 0 := by
    unfold transferState
    rw [h]
    split
    · split
      · exact le_rfl
      · exact hafter.le
    · exact hafter.le
  exact ⟨by rw [stepsAfter]; omega, by rw [stepsAfter]; omega⟩

/-! ## 4. Accepting and taking back -/

theorem acceptToken_cases (h : acceptToken G r token = some r') :
    (∃ s s', r.isGeneration = true ∧ r.grammar = some s ∧ G.acceptToken s token = some s' ∧
      r' = { r.transferState token with grammar := some s' }) ∨
    ((r.isGeneration = false ∨ r.grammar = none) ∧ r' = r.transferState token) := by
  cases hgen : r.isGeneration with
  | false =>
    rw [acceptToken, hgen] at h
    exact Or.inr ⟨Or.inl rfl, (Option.some.inj h).symm⟩
  | true =>
    cases hg : r.grammar with
    | none =>
      rw [acceptToken, hgen, hg] at h
      exact Or.inr ⟨Or.inr rfl, (Option.some.inj h).symm⟩
    | some s =>
      rw [acceptToken, hgen, hg] at h
      obtain ⟨s', hs', rfl⟩ := Option.map_eq_some_iff.mp h
      exact Or.inl ⟨s, s', rfl, rfl, hs', transferState_withGrammar r (some s') token⟩

/-- What the wrapper has gone through with a list of tokens: the counters lead back, and the inner
grammar has accepted the last tokens, as many as it will be told to take back. -/
structure Passed (G : GrammarObject S) (r r' : ReasonerGrammarObject S) (k : ℕ) : Prop where
  counters : rollbackState^[k] r' = { r with grammar := r'.grammar }
  inner : r.grammar = none ∧ r'.grammar = none ∨
    ∃ s s' tokens, r.grammar = some s ∧ r'.grammar = some s' ∧ G.accepts s tokens = some s' ∧
      tokens.length = r'.stepsAfter k

theorem Passed.refl (G : GrammarObject S) (r : ReasonerGrammarObject S) : Passed G r r 0 := by
  refine ⟨rfl, ?_⟩
  cases hg : r.grammar with
  | none => exact Or.inl ⟨rfl, rfl⟩
  | some s => exact Or.inr ⟨s, s, [], rfl, rfl, rfl, by simp [stepsAfter]⟩

theorem Passed.step {r'' : ReasonerGrammarObject S} {k : ℕ} (h : Passed G r r' k)
    (hacc : acceptToken G r' token = some r'') : Passed G r r'' (k + 1) := by
  have hcounters : ∀ g : Option S, rollbackState^[k + 1] { r'.transferState token with grammar := g } =
      { r with grammar := g } := by
    intro g
    rw [Function.iterate_succ_apply, rollbackState_withGrammar, rollbackState_transferState,
      iterate_rollbackState_withGrammar, h.counters]
  rcases acceptToken_cases hacc with ⟨s', s'', hgen, hg, hs, rfl⟩ | ⟨hno, rfl⟩
  · refine ⟨hcounters _, Or.inr ?_⟩
    rcases h.inner with ⟨-, hnone⟩ | ⟨s, t, tokens, hr, ht, hacc', hlen⟩
    · rw [hnone] at hg
      cases hg
    · rw [hg] at ht
      cases ht
      refine ⟨s, s'', tokens ++ [token], hr, rfl, ?_, ?_⟩
      · rw [GrammarObject.accepts_append, hacc', Option.bind_some, GrammarObject.accepts_singleton, hs]
      · rw [length_append, hlen]
        exact (stepsAfter_of_generation hgen token k).symm
  · refine ⟨?_, ?_⟩
    · have hback := hcounters (r'.transferState token).grammar
      exact hback
    · rw [grammar_transferState]
      rcases h.inner with hnone | ⟨s, s', tokens, hr, hr', hacc', hlen⟩
      · exact Or.inl hnone
      · have hgen : r'.isGeneration = false := by
          rcases hno with hgen | hnone
          · exact hgen
          · rw [hnone] at hr'
            cases hr'
        -- nothing was accepted by the grammar before, and nothing is now
        refine Or.inr ⟨s, s', tokens, hr, hr', hacc', ?_⟩
        rw [hlen, (stepsAfter_of_not_generation hgen token (k + 1)).1,
          (stepsAfter_of_not_generation hgen token k).2]

theorem passed_accepts {tokens : List ℕ} (h : (object G).accepts r tokens = some r') :
    Passed G r r' tokens.length := by
  induction tokens using List.reverseRecOn generalizing r' with
  | nil =>
    cases h
    exact .refl G r
  | append_singleton tokens token ih =>
    rw [GrammarObject.accepts_append, Option.bind_eq_some_iff] at h
    obtain ⟨r₁, h1, h2⟩ := h
    rw [GrammarObject.accepts_singleton] at h2
    rw [length_append]
    exact (ih h1).step h2

/-- **Accepting tokens and rolling back as many is the identity**, in every phase and across the end of
the thinking. -/
theorem rollback_accepts (hG : G.Exact) {tokens : List ℕ}
    (h : (object G).accepts r tokens = some r') : rollback G r' tokens.length = r := by
  obtain ⟨hcounters, ⟨hr, hr'⟩ | ⟨s, s', inner, hr, hr', hacc, hlen⟩⟩ := passed_accepts h
  · rw [rollback, hr']
    rw [hcounters, hr', ← hr]
  · have hback := hG.rollback_accepts s inner s' hacc
    rw [hlen] at hback
    rw [rollback, hr']
    dsimp only
    split
    · rw [iterate_rollbackState_withGrammar, hcounters, hback, ← hr]
    · rename_i hzero
      have hnil : inner = [] := eq_nil_of_length_eq_zero (by omega)
      rw [hnil, GrammarObject.accepts_nil] at hacc
      rw [hcounters, hr', ← hacc, ← hr]

/-- The wrapper can be walked over a tree when its grammar is exact. -/
theorem walkable (hG : G.Exact) : (object G).Walkable where
  rollback_accept r token r' h := by
    have hacc : (object G).accepts r [token] = some r' := by simpa using h
    exact rollback_accepts hG hacc
  length_fill r row := by
    have hfilter : ∀ tokenIds isAllowed, (r.doTokenFilter row tokenIds isAllowed).length = row.length := by
      intro tokenIds isAllowed
      unfold doTokenFilter
      split
      · exact TokenFilter.length_run _ _ _ _
      · rfl
    simp only [object, fillVocabMask]
    split
    · split
      · rfl
      · split
        · exact hfilter _ _
        · exact hfilter _ _
    · split
      · exact hG.length_fill _ _
      · rfl
  accept_of_bit r row token hbit := by
    simp only [object, fillVocabMask] at hbit
    simp only [object, acceptToken]
    split
    · rename_i s hgen hg
      have hafter : 0 ≤ r.tokensAfterEnd := by simpa [isGeneration] using hgen
      have hthink : r.isThinking = false := by
        have hne : r.tokensAfterEnd ≠ -1 := by omega
        simp [isThinking, hne]
      rw [hthink, hgen, hg] at hbit
      simpa using hG.walkable.accept_of_bit s row token hbit
    · rfl

end ReasonerGrammarObject

end Sglang
