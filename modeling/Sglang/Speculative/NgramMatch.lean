/-
# Incremental matching in the n-gram trie

A transcription of `match` and what it calls (`ngram_corpus/trie.cpp`): the matches of the suffixes of a
request are kept between calls, as references with the version of the node, and are advanced by the new
tokens when they are still valid.  A reference that resolves is right, after whatever insertions,
evictions and resets: versions only grow, and a node keeps its path until it is evicted.  A suffix that
was absent is kept as absent, though, and is not looked up again; where such a suffix has been inserted
since, and leads on, the match is missed (`match_eq_fresh_iff`).
-/
import Sglang.Lib.OptionLoops
import Sglang.Speculative.NgramTrieHistory
import Mathlib.Data.List.DropRight

namespace Sglang

open Lib Lib.AssocList List Option Function

/-! ## 1. Matching -/

/-- `NodeRef` that is not null. -/
structure NodeRef where
  ptr : ℕ
  version : ℕ
deriving DecidableEq

/-- `MatchState`. -/
structure MatchState where
  trieEpoch : ℕ := 0
  processedTotalLen : ℕ := 0
  anchors : List (Option NodeRef) := []

namespace Trie

/-- `capture`. -/
def capture (t : Trie) (node : ℕ) : NodeRef := ⟨node, (t.nodes node).version⟩

/-- `resolve`. -/
def resolve (t : Trie) (state : MatchState) : Option NodeRef → Option ℕ
  | none => none
  | some ref =>
    if state.trieEpoch ≠ t.trieEpoch ∨ (t.nodes ref.ptr).version ≠ ref.version then none
    else some ref.ptr

/-- `validateMatchState_`. -/
def validateMatchState (t : Trie) (state : MatchState) : Bool :=
  if state.trieEpoch ≠ t.trieEpoch then false
  else state.anchors.all fun ref => ref.isNone || (t.resolve state ref).isSome

/-- `rebuildMatchState_`. -/
def rebuildMatchState (t : Trie) (context : List ℤ) (totalLen : ℕ) : MatchState :=
  let maxMatchDepth := min context.length t.maxTrieDepth
  { trieEpoch := t.trieEpoch
    processedTotalLen := totalLen
    anchors := (List.range maxMatchDepth).map fun d =>
      (t.find t.root (context.drop (context.length - (d + 1)))).map t.capture }

/-- The loop over the depths in `advanceMatchState_`; `none` is `return false`. -/
def nextAnchor (t : Trie) (state : MatchState) (token : ℤ) (depth : ℕ) : Option (Option NodeRef) :=
  if depth = 0 then some (((t.nodes t.root).child.lookup token).map t.capture)
  else match state.anchors.getD (depth - 1) none with
    | none => some none
    | some prevRef =>
      match t.resolve state (some prevRef) with
      | none => none
      | some prevNode => some (((t.nodes prevNode).child.lookup token).map t.capture)

/-- The loop over the tokens. -/
def advanceToken (t : Trie) (state : MatchState) (token : ℤ) : Option MatchState := do
  let nextDepth := min (state.anchors.length + 1) t.maxTrieDepth
  let next ← (List.range nextDepth).mapM (t.nextAnchor state token)
  return { state with anchors := next }

/-- `advanceMatchState_`. -/
def advanceMatchState (t : Trie) (state : MatchState) (tokens : List ℤ) (totalLen : ℕ) :
    Option MatchState :=
  if t.validateMatchState state then
    (tokens.foldlM t.advanceToken state).map fun s => { s with processedTotalLen := totalLen }
  else none

/-- An anchor that has children. -/
def expandable (t : Trie) (state : MatchState) (d : ℕ) : Option (ℕ × ℕ) :=
  (t.resolve state (state.anchors.getD d none)).bind fun node =>
    if (t.nodes node).child = [] then none else some (node, d + 1)

/-- `getExpandableAnchors_`. -/
def getExpandableAnchors (t : Trie) (state : MatchState) : List (ℕ × ℕ) :=
  (List.range state.anchors.length).reverse.filterMap (t.expandable state)

/-- The tokens appended since the state was made. -/
def appendedLen (state : MatchState) (totalLen : ℕ) : ℕ :=
  if state.processedTotalLen ≤ totalLen then totalLen - state.processedTotalLen else 0

/-- `can_advance`. -/
def canAdvance (t : Trie) (state : MatchState) (context : List ℤ) (totalLen : ℕ) : Bool :=
  state.trieEpoch == t.trieEpoch && decide (state.processedTotalLen ≤ totalLen) &&
    decide (appendedLen state totalLen ≤ context.length) &&
      state.anchors.length == min state.processedTotalLen t.maxTrieDepth

/-- The state after `match`. -/
def matchState (t : Trie) (context : List ℤ) (state : MatchState) (totalLen : ℕ) : MatchState :=
  if t.canAdvance state context totalLen then
    (t.advanceMatchState state (context.drop (context.length - appendedLen state totalLen))
      totalLen).getD (t.rebuildMatchState context totalLen)
  else t.rebuildMatchState context totalLen

/-- The anchors that `match` returns. -/
def matchAnchors (t : Trie) (context : List ℤ) (state : MatchState) (totalLen : ℕ) : List (ℕ × ℕ) :=
  t.getExpandableAnchors (t.matchState context state totalLen)

/-! ## 2. References -/

variable {t t' : Trie} {s s' : MatchState} {u v w seq : List ℤ} {token : ℤ}

/-- The reference leads to the node of these tokens, as long as it resolves. -/
def RefOk (t : Trie) (w : List ℤ) (ref : NodeRef) : Prop :=
  ref.version ≤ (t.nodes ref.ptr).version ∧
    (ref.version = (t.nodes ref.ptr).version → t.find t.root w = some ref.ptr)

theorem refOk_capture {p : ℕ} (h : t.find t.root w = some p) : RefOk t w (t.capture p) :=
  ⟨Nat.le_refl _, fun _ => h⟩

/-- **References stay right through edits.** -/
theorem Edits.refOk {log : List Event} {ref : NodeRef} (he : Edits t log t') (h : RefOk t w ref) :
    RefOk t' w ref := by
  induction he with
  | nil => exact h
  | @evict t t₁ t'' last v log hi he _ _ ih =>
    refine ih ?_
    by_cases hl : ref.ptr = last
    · have hv : (t₁.nodes ref.ptr).version = (t.nodes ref.ptr).version + 1 := by
        rw [hl, he.last_eq]
      have hle := h.1
      exact ⟨by omega, fun e => by omega⟩
    · have hv : (t₁.nodes ref.ptr).version = (t.nodes ref.ptr).version := by
        by_cases hp : ref.ptr = (t.nodes last).parent
        · rw [hp, he.parent_eq]
        · rw [he.other _ hp hl]
      rw [RefOk, hv, he.frame.root]
      exact ⟨h.1, fun e => (he.find_iff hi w _ (Or.inl rfl) (hi.ne_root he.mem_last).symm).mpr
        ⟨h.2 e, hl⟩⟩
  | @place t t₁ t'' v log hi _ hp _ ih =>
    refine ih ?_
    rw [RefOk, hp.version, hp.frame.root]
    exact ⟨h.1, fun e => hp.mono w _ (h.2 e)⟩

/-- What the state of a request says, when its sequence was last `seq`. -/
structure Tracks (t : Trie) (seq : List ℤ) (s : MatchState) : Prop where
  epoch_le : s.trieEpoch ≤ t.trieEpoch
  processed : s.trieEpoch = t.trieEpoch → s.processedTotalLen = seq.length
  length : s.trieEpoch = t.trieEpoch → s.anchors.length = min seq.length t.maxTrieDepth
  ref : s.trieEpoch = t.trieEpoch → ∀ (d : ℕ) (ref : NodeRef), s.anchors[d]? = some (some ref) →
    RefOk t (seq.rtake (d + 1)) ref

theorem Tracks.edits {log : List Event} (h : Tracks t seq s) (he : Edits t log t') :
    Tracks t' seq s := by
  refine ⟨?_, fun e => ?_, fun e => ?_, fun e d ref hd => ?_⟩
  · rw [he.frame.trieEpoch]
    exact h.epoch_le
  · exact h.processed (he.frame.trieEpoch ▸ e)
  · rw [he.frame.maxTrieDepth]
    exact h.length (he.frame.trieEpoch ▸ e)
  · exact he.refOk (h.ref (he.frame.trieEpoch ▸ e) d ref hd)

theorem Tracks.of_lt (h : s.trieEpoch < t.trieEpoch) : Tracks t seq s :=
  ⟨h.le, fun e => absurd e h.ne, fun e => absurd e h.ne, fun e => absurd e h.ne⟩

/-! ## 3. Advancing -/

/-- Every reference of the state resolves. -/
def Resolved (t : Trie) (s : MatchState) : Prop :=
  s.trieEpoch = t.trieEpoch ∧
    ∀ (d : ℕ) (ref : NodeRef), s.anchors[d]? = some (some ref) → ref.version = (t.nodes ref.ptr).version

theorem resolve_eq (h : s.trieEpoch = t.trieEpoch) {ref : NodeRef}
    (hv : ref.version = (t.nodes ref.ptr).version) : t.resolve s (some ref) = some ref.ptr := by
  rw [resolve, if_neg]
  rintro (e | e)
  · exact e h
  · exact e hv.symm

theorem validateMatchState_iff : t.validateMatchState s = true ↔ Resolved t s := by
  rw [validateMatchState]
  by_cases he : s.trieEpoch = t.trieEpoch
  · rw [if_neg (not_not_intro he), List.all_eq_true]
    refine ⟨fun h => ⟨he, fun d ref hd => ?_⟩, fun h x hx => ?_⟩
    · have hr := h _ (mem_of_getElem? hd)
      by_contra hv
      rw [resolve, if_pos (Or.inr fun e => hv e.symm)] at hr
      cases hr
    · cases x with
      | none => rfl
      | some ref =>
        obtain ⟨d, hd⟩ := getElem?_of_mem hx
        rw [resolve_eq he (h.2 d ref hd)]
        rfl
  · rw [if_pos he]
    exact ⟨fun h => absurd h Bool.false_ne_true, fun h => absurd h.1 he⟩

/-- The anchor that a token makes of the anchor before it. -/
def step (t : Trie) (token : ℤ) (node : ℕ) : Option NodeRef :=
  ((t.nodes node).child.lookup token).map t.capture

/-- **One token**: every anchor moves one deeper. -/
theorem advanceToken_spec (h : Resolved t s) (token : ℤ) : ∃ s', t.advanceToken s token = some s' ∧
    Resolved t s' ∧ s'.anchors.length = min (s.anchors.length + 1) t.maxTrieDepth ∧
    ∀ d < s'.anchors.length, s'.anchors.getD d none = if d = 0 then t.step token t.root
      else (s.anchors.getD (d - 1) none).bind fun ref => t.step token ref.ptr := by
  obtain ⟨g, hg⟩ : ∃ g : ℕ → Option NodeRef, g = fun d => if d = 0 then t.step token t.root
    else (s.anchors.getD (d - 1) none).bind fun ref => t.step token ref.ptr := ⟨_, rfl⟩
  have hnext : ∀ d, t.nextAnchor s token d = some (g d) := by
    intro d
    rw [nextAnchor, hg]
    by_cases h0 : d = 0
    · simp [h0, step]
    · simp only [h0, if_false]
      cases ha : s.anchors.getD (d - 1) none with
      | none => rfl
      | some ref =>
        have hd : s.anchors[d - 1]? = some (some ref) := by
          rw [getD_eq_getElem?_getD] at ha
          cases hx : s.anchors[d - 1]? with
          | none => rw [hx] at ha; cases ha
          | some x => rw [hx] at ha; exact congrArg some ha
        simp [resolve_eq h.1 (h.2 _ ref hd), step]
  have hmap := mapM_eq_map (l := List.range (min (s.anchors.length + 1) t.maxTrieDepth))
    fun d _ => hnext d
  refine ⟨{ s with anchors := (List.range (min (s.anchors.length + 1) t.maxTrieDepth)).map g },
    by simp only [advanceToken, hmap]; rfl, ⟨h.1, fun d ref hd => ?_⟩, by simp, fun d hd => ?_⟩
  · have hstep : ∀ node, t.step token node = some ref → ref.version = (t.nodes ref.ptr).version := by
      intro node hs
      obtain ⟨c, -, rfl⟩ := map_eq_some_iff.mp hs
      rfl
    rw [getElem?_map, map_eq_some_iff] at hd
    obtain ⟨e, -, he⟩ := hd
    rw [hg] at he
    simp only at he
    split at he
    · exact hstep _ he
    · obtain ⟨r, -, hs⟩ := bind_eq_some_iff.mp he
      exact hstep _ hs
  · rw [length_map, length_range] at hd
    rw [getD_eq_getElem?_getD, getElem?_map, getElem?_range hd]
    simp [hg]

/-- The anchor that a fresh lookup finds. -/
def lookupAnchor (t : Trie) (seq : List ℤ) (d : ℕ) : Option NodeRef :=
  (t.find t.root (seq.rtake (d + 1))).map t.capture

theorem lookupAnchor_zero (seq : List ℤ) (token : ℤ) :
    t.lookupAnchor (seq ++ [token]) 0 = t.step token t.root := by
  rw [lookupAnchor, rtake_concat_succ, rtake_zero, nil_append, find_cons, step]
  cases (t.nodes t.root).child.lookup token <;> rfl

theorem lookupAnchor_succ (seq : List ℤ) (token : ℤ) (d : ℕ) :
    t.lookupAnchor (seq ++ [token]) (d + 1)
      = (t.lookupAnchor seq d).bind fun ref => t.step token ref.ptr := by
  rw [lookupAnchor, rtake_concat_succ, find_concat, lookupAnchor]
  cases t.find t.root (seq.rtake (d + 1)) <;> rfl

/-- **All tokens**: an anchor is what a fresh lookup finds, unless it comes from a suffix held as
absent. -/
theorem foldlM_advanceToken (h : Resolved t s) (hlen : s.anchors.length = min seq.length t.maxTrieDepth)
    (href : ∀ (d : ℕ) (ref : NodeRef), s.anchors[d]? = some (some ref) →
      t.find t.root (seq.rtake (d + 1)) = some ref.ptr)
    (tokens : List ℤ) : ∃ s', tokens.foldlM t.advanceToken s = some s' ∧ Resolved t s' ∧
      s'.anchors.length = min (seq.length + tokens.length) t.maxTrieDepth ∧
      ∀ d < s'.anchors.length, s'.anchors.getD d none =
        if d < tokens.length ∨ s.anchors.getD (d - tokens.length) none ≠ none then
          t.lookupAnchor (seq ++ tokens) d else none := by
  induction tokens using List.reverseRecOn with
  | nil =>
    refine ⟨s, rfl, h, hlen, fun d hd => ?_⟩
    rw [length_nil, append_nil]
    cases ha : s.anchors.getD d none with
    | none => simp
    | some ref =>
      have hd' : s.anchors[d]? = some (some ref) := by
        rw [getD_eq_getElem?_getD, getElem?_eq_getElem hd, getD_some] at ha
        rw [getElem?_eq_getElem hd, ha]
      rw [if_pos (Or.inr (some_ne_none ref)), lookupAnchor, href d ref hd', map_some,
        capture, ← h.2 d ref hd']
  | append_singleton tokens token ih =>
    obtain ⟨s₁, hfold, h₁, hlen₁, hd₁⟩ := ih
    obtain ⟨s', hstep, h', hlen', hd'⟩ := advanceToken_spec h₁ token
    have hlen'' : s'.anchors.length = min (seq.length + (tokens ++ [token]).length) t.maxTrieDepth := by
      rw [hlen', length_append, length_singleton]
      omega
    refine ⟨s', ?_, h', hlen'', fun d hd => ?_⟩
    · rw [foldlM_append, hfold]
      simp [hstep]
    · rw [hd' d hd, ← append_assoc, length_append, length_singleton]
      cases d with
      | zero =>
        rw [if_pos rfl, if_pos (Or.inl (Nat.succ_pos _)), lookupAnchor_zero]
      | succ d =>
        rw [if_neg (Nat.succ_ne_zero d), Nat.add_sub_cancel, Nat.add_sub_add_right,
          hd₁ d (by omega), lookupAnchor_succ]
        by_cases hk : d < tokens.length ∨ s.anchors.getD (d - tokens.length) none ≠ none
        · rw [if_pos hk, if_pos (hk.imp_left Nat.succ_lt_succ)]
        · rw [if_neg hk, if_neg fun e => hk (e.imp_left Nat.lt_of_succ_lt_succ), bind_none]

/-! ## 4. Advanced and fresh -/

/-- What `getExpandableAnchors_` makes of an anchor. -/
def leadsOn (t : Trie) (d : ℕ) (anchor : Option NodeRef) : Option (ℕ × ℕ) :=
  anchor.bind fun ref => if (t.nodes ref.ptr).child = [] then none else some (ref.ptr, d + 1)

variable {d : ℕ}

theorem getD_eq_some {l : List (Option NodeRef)} {ref : NodeRef} :
    l.getD d none = some ref ↔ l[d]? = some (some ref) := by
  rw [getD_eq_getElem?_getD]
  cases l[d]? <;> simp

theorem expandable_eq (h : Resolved t s) (d : ℕ) :
    t.expandable s d = t.leadsOn d (s.anchors.getD d none) := by
  rw [expandable]
  cases ha : s.anchors.getD d none with
  | none => rfl
  | some ref => rw [resolve_eq h.1 (h.2 d ref (getD_eq_some.mp ha))]; rfl

theorem filterMap_eq_iff {f g : ℕ → Option (ℕ × ℕ)} (hf : ∀ d x, f d = some x → x.2 = d + 1)
    (hg : ∀ d x, g d = some x → x.2 = d + 1) (n : ℕ) :
    (List.range n).reverse.filterMap f = (List.range n).reverse.filterMap g ↔ ∀ d < n, f d = g d := by
  have hmem : ∀ {f : ℕ → Option (ℕ × ℕ)}, (∀ d x, f d = some x → x.2 = d + 1) → ∀ d x,
      x.2 = d + 1 → (x ∈ (List.range n).reverse.filterMap f ↔ d < n ∧ f d = some x) := by
    intro f hf d x hx
    rw [mem_filterMap]
    constructor
    · rintro ⟨e, he, hfe⟩
      obtain rfl : e = d := by have := hf e x hfe; omega
      exact ⟨by simpa using he, hfe⟩
    · rintro ⟨hd, hfd⟩
      exact ⟨d, by simpa using hd, hfd⟩
  constructor
  · intro h d hd
    refine ext fun x => ?_
    constructor
    · intro hx
      exact ((hmem hg d x (hf d x hx)).mp (h ▸ (hmem hf d x (hf d x hx)).mpr ⟨hd, hx⟩)).2
    · intro hx
      exact ((hmem hf d x (hg d x hx)).mp (h ▸ (hmem hg d x (hg d x hx)).mpr ⟨hd, hx⟩)).2
  · intro h
    refine filterMap_congr fun d hd => h d ?_
    simpa using hd

theorem leadsOn_depth {anchor : Option NodeRef} {x : ℕ × ℕ} (h : t.leadsOn d anchor = some x) :
    x.2 = d + 1 := by
  obtain ⟨ref, -, hx⟩ := bind_eq_some_iff.mp h
  split at hx
  · cases hx
  · cases hx
    rfl

/-- The anchors of two states of the same depth agree when theirs lead on alike. -/
theorem getExpandableAnchors_eq_iff (h : Resolved t s) (h' : Resolved t s')
    (hlen : s.anchors.length = s'.anchors.length) :
    t.getExpandableAnchors s = t.getExpandableAnchors s' ↔ ∀ d < s.anchors.length,
      t.leadsOn d (s.anchors.getD d none) = t.leadsOn d (s'.anchors.getD d none) := by
  rw [getExpandableAnchors, getExpandableAnchors, ← hlen, funext (expandable_eq h),
    funext (expandable_eq h')]
  exact filterMap_eq_iff (fun _ _ => leadsOn_depth) (fun _ _ => leadsOn_depth) _

theorem rtake_rtake (l : List ℤ) (m n : ℕ) : (l.rtake m).rtake n = l.rtake (min n m) := by
  simp [rtake_eq_reverse_take_reverse, take_take]

/-- The tail that a call of `match` passes is long enough. -/
structure Tail (t : Trie) (seq context : List ℤ) : Prop where
  suffix : context <:+ seq
  length : min seq.length t.maxTrieDepth ≤ context.length

theorem Tail.rtake_eq {context : List ℤ} (h : Tail t seq context) {n : ℕ} (hn : n ≤ context.length) :
    context.rtake n = seq.rtake n := by
  have hc : context = seq.rtake context.length := by
    obtain ⟨u, rfl⟩ := h.suffix
    rw [List.rtake, length_append, Nat.add_sub_cancel, drop_left]
  calc context.rtake n = (seq.rtake context.length).rtake n := by rw [← hc]
    _ = seq.rtake n := by rw [rtake_rtake, Nat.min_eq_left hn]

section Rebuild

variable {context : List ℤ} {totalLen : ℕ}

theorem rebuild_getD (h : Tail t seq context) (hd : d < min seq.length t.maxTrieDepth) :
    (t.rebuildMatchState context totalLen).anchors.getD d none = t.lookupAnchor seq d := by
  have hlen := h.length
  have hd' : d < min context.length t.maxTrieDepth := by omega
  rw [rebuildMatchState, getD_eq_getElem?_getD, getElem?_map, getElem?_range hd', map_some,
    lookupAnchor, ← h.rtake_eq (by omega)]
  rfl

theorem rebuild_length (h : Tail t seq context) :
    (t.rebuildMatchState context totalLen).anchors.length = min seq.length t.maxTrieDepth := by
  have h1 := h.length
  have h2 := h.suffix.length_le
  rw [rebuildMatchState, length_map, length_range]
  omega

theorem version_of_lookupAnchor {ref : NodeRef} (h : t.lookupAnchor seq d = some ref) :
    t.find t.root (seq.rtake (d + 1)) = some ref.ptr ∧ ref = t.capture ref.ptr := by
  obtain ⟨p, hp, rfl⟩ := map_eq_some_iff.mp h
  exact ⟨hp, rfl⟩

/-- A state whose anchors are found by lookups, or null, is right. -/
theorem tracks_of_lookup (he : s.trieEpoch = t.trieEpoch) (hp : s.processedTotalLen = seq.length)
    (hlen : s.anchors.length = min seq.length t.maxTrieDepth)
    (hd : ∀ d < s.anchors.length, ∀ ref, s.anchors.getD d none = some ref →
      t.lookupAnchor seq d = some ref) : Resolved t s ∧ Tracks t seq s := by
  have hget : ∀ (d : ℕ) (ref : NodeRef), s.anchors[d]? = some (some ref) →
      t.lookupAnchor seq d = some ref := fun d ref h =>
    hd d (List.getElem?_eq_some_iff.mp h).1 ref (getD_eq_some.mpr h)
  refine ⟨⟨he, fun d ref h => ?_⟩, he.le, fun _ => hp, fun _ => hlen, fun _ d ref h => ?_⟩
  · rw [(version_of_lookupAnchor (hget d ref h)).2]
    rfl
  · obtain ⟨hf, hr⟩ := version_of_lookupAnchor (hget d ref h)
    rw [hr]
    exact refOk_capture hf

theorem rebuild_tracks (h : Tail t seq context) : Resolved t (t.rebuildMatchState context seq.length) ∧
    Tracks t seq (t.rebuildMatchState context seq.length) := by
  refine tracks_of_lookup rfl rfl (rebuild_length h) fun d hd ref hr => ?_
  rw [rebuild_length h] at hd
  rwa [rebuild_getD h hd] at hr

end Rebuild

/-- No suffix that the state holds as absent has been inserted and leads on, if the state is advanced
at all. -/
def NothingMissed (t : Trie) (s : MatchState) (context : List ℤ) (totalLen : ℕ) : Prop :=
  t.canAdvance s context totalLen = true → t.validateMatchState s = true →
    ∀ d < s.anchors.length, s.anchors.getD d none = none →
      d + appendedLen s totalLen < t.maxTrieDepth →
        ∀ p, t.find t.root (context.rtake (d + 1 + appendedLen s totalLen)) = some p →
          (t.nodes p).child = []

/-- **One call of `match`**: the state stays right, and the anchors are those of a fresh state exactly
if nothing is missed. -/
theorem matchState_spec {context seq' : List ℤ} (hs : Tracks t seq s) (hepoch : 0 < t.trieEpoch)
    (hgrow : seq <+: seq') (htail : Tail t seq' context) :
    Tracks t seq' (t.matchState context s seq'.length) ∧
      (t.matchAnchors context s seq'.length = t.matchAnchors context {} seq'.length ↔
        NothingMissed t s context seq'.length) := by
  obtain ⟨hfreshR, hfreshT⟩ := rebuild_tracks htail
  have hfresh : t.matchAnchors context {} seq'.length
      = t.getExpandableAnchors (t.rebuildMatchState context seq'.length) := by
    rw [matchAnchors, matchState, if_neg]
    simp only [canAdvance, Bool.and_eq_true, beq_iff_eq]
    omega
  have hrebuild : ∀ {p : Prop}, p → t.matchState context s seq'.length
      = t.rebuildMatchState context seq'.length →
      Tracks t seq' (t.matchState context s seq'.length) ∧
        (t.matchAnchors context s seq'.length = t.matchAnchors context {} seq'.length ↔ p) := by
    intro p hp hst
    rw [hfresh, matchAnchors, hst]
    exact ⟨hfreshT, ⟨fun _ => hp, fun _ => rfl⟩⟩
  by_cases hcan : t.canAdvance s context seq'.length = true
  · by_cases hval : t.validateMatchState s = true
    · have hcan' := hcan
      simp only [canAdvance, Bool.and_eq_true, beq_iff_eq, decide_eq_true_eq] at hcan'
      obtain ⟨⟨⟨he, hle⟩, happ⟩, hlen⟩ := hcan'
      have hproc := hs.processed he
      obtain ⟨tokens, rfl⟩ := hgrow
      have hk : appendedLen s (seq ++ tokens).length = tokens.length := by
        rw [appendedLen, if_pos hle, hproc, length_append, Nat.add_sub_cancel_left]
      rw [hk] at happ
      have htokens : context.drop (context.length - tokens.length) = tokens := by
        have := htail.rtake_eq happ
        rw [List.rtake, List.rtake, length_append, Nat.add_sub_cancel, drop_left] at this
        exact this
      have hres := validateMatchState_iff.mp hval
      have href : ∀ (d : ℕ) (ref : NodeRef), s.anchors[d]? = some (some ref) →
          t.find t.root (seq.rtake (d + 1)) = some ref.ptr := fun d ref hd =>
        (hs.ref he d ref hd).2 (hres.2 d ref hd)
      obtain ⟨s', hfold, hres', hlen', hd'⟩ := foldlM_advanceToken hres (hs.length he) href tokens
      have hst : t.matchState context s (seq ++ tokens).length
          = { s' with processedTotalLen := (seq ++ tokens).length } := by
        rw [matchState, if_pos hcan, advanceMatchState, if_pos hval, hk, htokens, hfold]
        rfl
      rw [← length_append] at hlen'
      have htracks : Tracks t (seq ++ tokens) { s' with processedTotalLen := (seq ++ tokens).length } :=
        (tracks_of_lookup (s := { s' with processedTotalLen := (seq ++ tokens).length }) hres'.1 rfl hlen'
          fun d hd ref hr => by
          rw [hd' d hd] at hr
          split at hr
          · exact hr
          · cases hr).2
      rw [hst]
      refine ⟨htracks, ?_⟩
      rw [hfresh, matchAnchors, hst, getExpandableAnchors_eq_iff
        (s := { s' with processedTotalLen := (seq ++ tokens).length }) hres' hfreshR
        (hlen'.trans (rebuild_length htail).symm)]
      have hmin := htail.length
      rw [length_append] at hmin
      constructor
      · intro h _ _ d hd hnone hlt p hp
        rw [hk] at hlt hp
        have hdn : d + tokens.length < s'.anchors.length := by
          rw [hlen', length_append]
          omega
        have hthis := h (d + tokens.length) hdn
        rw [hd' _ hdn, if_neg, rebuild_getD htail (hlen' ▸ hdn), lookupAnchor,
          ← htail.rtake_eq (by omega), Nat.add_right_comm d tokens.length 1, hp] at hthis
        · by_contra hne
          simp [leadsOn, capture, hne] at hthis
        · rw [Nat.add_sub_cancel, not_or, not_not]
          exact ⟨by omega, hnone⟩
      · intro h d hd
        rw [hd' d hd, rebuild_getD htail (hlen' ▸ hd)]
        by_cases hkept : d < tokens.length ∨ s.anchors.getD (d - tokens.length) none ≠ none
        · rw [if_pos hkept]
        · rw [if_neg hkept]
          rw [not_or, not_not] at hkept
          have hdlt : d < min (seq.length + tokens.length) t.maxTrieDepth := by
            rw [← length_append, ← hlen']
            exact hd
          cases hl : t.lookupAnchor (seq ++ tokens) d with
          | none => rfl
          | some ref =>
            have hp := (version_of_lookupAnchor hl).1
            have hchild := h hcan hval (d - tokens.length) (by rw [hs.length he]; omega) hkept.2
              (by rw [hk]; omega) ref.ptr (by
                rw [hk, show d - tokens.length + 1 + tokens.length = d + 1 by omega,
                  htail.rtake_eq (by omega)]
                exact hp)
            simp [leadsOn, hchild]
    · refine hrebuild (fun _ hv => absurd hv hval) ?_
      rw [matchState, if_pos hcan, advanceMatchState, if_neg hval]
      rfl
  · refine hrebuild (fun hc => absurd hc hcan) ?_
    rw [matchState, if_neg hcan]

/-! ## 5. Runs of several requests -/

/-- The trie with the states of the requests, and the sequence that each request passed last. -/
structure Corpus (Req : Type) where
  trie : Trie
  states : Req → MatchState
  seqs : Req → List ℤ

variable {Req : Type} [DecidableEq Req] {capacity maxTrieDepth : ℕ} {g : Corpus Req}

/-- The corpora that calls in any order lead to; the sequence of a request only grows. -/
inductive Reaches (capacity maxTrieDepth : ℕ) : Corpus Req → Prop
  | start {t : Trie} : new capacity maxTrieDepth = some t →
      Reaches capacity maxTrieDepth ⟨t, fun _ => {}, fun _ => []⟩
  | insert {g : Corpus Req} {t : Trie} (tokens : List ℤ) : Reaches capacity maxTrieDepth g →
      g.trie.insert tokens = some t → Reaches capacity maxTrieDepth { g with trie := t }
  | reset {g : Corpus Req} {t : Trie} : Reaches capacity maxTrieDepth g →
      g.trie.reset = some t → Reaches capacity maxTrieDepth { g with trie := t }
  | matched {g : Corpus Req} (req : Req) (seq context : List ℤ) : Reaches capacity maxTrieDepth g →
      g.seqs req <+: seq → Tail g.trie seq context →
      Reaches capacity maxTrieDepth { g with
        states := Function.update g.states req
          (g.trie.matchState context (g.states req) seq.length)
        seqs := Function.update g.seqs req seq }

theorem capacity_pos (h : t.refill = some t') : 0 < t.capacity := by
  rw [refill, bind_eq_bind, bind_eq_some_iff] at h
  obtain ⟨x, hx, -⟩ := h
  refine Nat.pos_of_ne_zero fun h0 => ?_
  simp [getNode, h0] at hx

/-- **Every run** keeps the trie and the states of all requests right. -/
theorem Reaches.inv (h : Reaches capacity maxTrieDepth g) :
    Inv g.trie ∧ 0 < g.trie.trieEpoch ∧ ∀ req, Tracks g.trie (g.seqs req) (g.states req) := by
  induction h with
  | start hnew =>
    obtain ⟨t', hr, h', -, -, he, -⟩ := refill_spec _ (capacity_pos hnew)
    obtain rfl := Option.some.inj (hnew.symm.trans hr)
    have hpos : 0 < (1 : ℕ) := Nat.one_pos
    rw [← show _ = 1 from he] at hpos
    exact ⟨h', hpos, fun req => Tracks.of_lt hpos⟩
  | insert tokens _ hins ih =>
    obtain ⟨hi, hpos, htracks⟩ := ih
    obtain ⟨h', hedits⟩ := insert_edits tokens _ _ hi hins
    exact ⟨h', by rw [hedits.frame.trieEpoch]; exact hpos, fun req => (htracks req).edits hedits⟩
  | reset _ hres ih =>
    obtain ⟨-, -, htracks⟩ := ih
    obtain ⟨t', hr, h', -, -, he, -⟩ := refill_spec _ (capacity_pos hres)
    obtain rfl := Option.some.inj (hres.symm.trans hr)
    refine ⟨h', by rw [he]; exact Nat.succ_pos _, fun req => Tracks.of_lt ?_⟩
    rw [he]
    exact Nat.lt_succ_of_le (htracks req).epoch_le
  | @matched g req seq context _ hgrow htail ih =>
    obtain ⟨hi, hpos, htracks⟩ := ih
    refine ⟨hi, hpos, fun r => ?_⟩
    show Tracks g.trie (Function.update g.seqs req seq r) (Function.update g.states req _ r)
    by_cases hr : r = req
    · subst hr
      rw [update_self, update_self]
      exact (matchState_spec (htracks r) hpos hgrow htail).1
    · rw [update_of_ne hr, update_of_ne hr]
      exact htracks r

/-- **Incremental matching is stateless matching exactly where nothing is missed.**  After every run,
a call of `match` returns the anchors of a fresh state if and only if no suffix that the request holds as
absent has been inserted since and leads on. -/
theorem match_eq_fresh_iff (h : Reaches capacity maxTrieDepth g) (req : Req) (seq context : List ℤ)
    (hgrow : g.seqs req <+: seq) (htail : Tail g.trie seq context) :
    g.trie.matchAnchors context (g.states req) seq.length
        = g.trie.matchAnchors context {} seq.length ↔
      NothingMissed g.trie (g.states req) context seq.length := by
  obtain ⟨-, hpos, htracks⟩ := h.inv
  exact (matchState_spec (htracks req) hpos hgrow htail).2

/-- A request matches its first token, and again with the second, which was inserted behind it. -/
theorem match_eq_fresh_small : ∃ g : Corpus ℕ, Reaches 4 2 g ∧ g.seqs 0 = [5] ∧
    (g.trie.matchAnchors [5, 6] (g.states 0) 2 = g.trie.matchAnchors [5, 6] {} 2 ↔
      NothingMissed g.trie (g.states 0) [5, 6] 2) := by
  have h : Reaches 4 2 (_ : Corpus ℕ) := Reaches.matched 0 [5] [5]
    (Reaches.insert [5, 6, 7] (Reaches.start rfl) rfl) nil_prefix
    ⟨suffix_refl _, by decide⟩
  exact ⟨_, h, rfl, match_eq_fresh_iff h 0 [5, 6] [5, 6] ⟨[6], rfl⟩ ⟨suffix_refl _, by decide⟩⟩

/-- The token is absent when the request first matches, and is inserted with another behind it: the
request goes on without, a fresh state finds it. -/
theorem match_misses : ∃ g : Corpus ℕ, Reaches 4 2 g ∧ g.seqs 0 = [5] ∧ Tail g.trie [5] [5] ∧
    g.trie.matchAnchors [5] (g.states 0) 1 ≠ g.trie.matchAnchors [5] {} 1 := by
  have h : Reaches 4 2 (_ : Corpus ℕ) := Reaches.insert [5, 6]
    (Reaches.matched 0 [5] [5] (Reaches.start rfl) nil_prefix
      ⟨suffix_refl _, by decide⟩) rfl
  exact ⟨_, h, rfl, ⟨suffix_refl _, by decide⟩, by decide +kernel⟩

end Trie

end Sglang
