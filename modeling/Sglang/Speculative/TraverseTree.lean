/-
# Grammar masks over a draft tree

A transcription of `traverse_tree` (`spec_utils.py`).  The tree of drafts is kept by first child and next
sibling; the walk accepts the token of a position when the row of its parent allows it, fills the row of
the position, goes on to the children, and takes the token back.

A row is filled when the grammar follows the path to its position: every token is allowed by the row of
its parent, and the grammar has not terminated.  The grammar itself ends as it began
(`traverseTree_spec`).
-/
import Sglang.Lib.SiblingChain
import Sglang.Constrained.ReasonerGrammar

namespace Sglang

open Lib List Option Function

/-! ## 1. The walk -/

/-- The tensors of one request. -/
structure DraftTree where
  numDraftTokens : ℕ
  retrieveNextToken : ℕ → ℤ
  retrieveNextSibling : ℕ → ℤ
  draftTokens : ℕ → ℕ

/-- `vocab_size and curr_token_id >= vocab_size`. -/
def exceedsVocab (vocabSize : Option ℕ) (token : ℕ) : Bool :=
  match vocabSize with
  | some v => v ≠ 0 ∧ token ≥ v
  | none => false

namespace DraftTree

variable {S : Type} (G : GrammarObject S) (t : DraftTree) (vocabSize : Option ℕ)

/-- The bitmask that `parent_pos` indexes, from the end where it is negative. -/
def parentBitmask (rows : ℕ → MaskRow) (parentPos : ℤ) : MaskRow :=
  rows (if parentPos < 0 then parentPos + t.numDraftTokens else parentPos).toNat

/-- `accepted`, unless the row does not have the token. -/
def accepted (rows : ℕ → MaskRow) (curr : ℕ) (parentPos : ℤ) : Option Bool :=
  if curr = 0 then some true
  else if exceedsVocab vocabSize (t.draftTokens curr) then some false
  else (t.parentBitmask rows parentPos).bit? (t.draftTokens curr)

/-- `if not grammar.is_terminated()`: fill the row and visit the first child, with the walk `dfs`. -/
def descend (dfs : ℕ → ℤ → S × (ℕ → MaskRow) → Option (S × (ℕ → MaskRow))) (curr : ℕ)
    (st : S × (ℕ → MaskRow)) : Option (S × (ℕ → MaskRow)) :=
  if G.isTerminated st.1 then some st
  else
    let rows := Function.update st.2 curr (G.fillVocabMask st.1 (st.2 curr))
    if t.retrieveNextToken curr ≠ -1 then dfs (t.retrieveNextToken curr).toNat curr (st.1, rows)
    else some (st.1, rows)

/-- `if accepted`: the root was accepted before, any other token is accepted here and taken back. -/
def visit (dfs : ℕ → ℤ → S × (ℕ → MaskRow) → Option (S × (ℕ → MaskRow))) (curr : ℕ)
    (st : S × (ℕ → MaskRow)) : Option (S × (ℕ → MaskRow)) :=
  if curr ≠ 0 then
    (G.acceptToken st.1 (t.draftTokens curr)).bind fun g =>
    (t.descend G dfs curr (g, st.2)).map fun st => (G.rollback st.1 1, st.2)
  else t.descend G dfs curr st

/-- `dfs`, with a bound on the depth of the recursion. -/
def dfs : ℕ → ℕ → ℤ → S × (ℕ → MaskRow) → Option (S × (ℕ → MaskRow))
  | 0, _, _, _ => none
  | fuel + 1, curr, parentPos, st =>
    (t.accepted vocabSize st.2 curr parentPos).bind fun accepted =>
    (if accepted then t.visit G (dfs fuel) curr st else some st).bind fun st =>
    if t.retrieveNextSibling curr ≠ -1 then
      dfs fuel (t.retrieveNextSibling curr).toNat parentPos st
    else some st

/-- `traverse_tree`.  A tree of `n` positions never goes deeper than the bound. -/
def traverseTree (g : S) (rows : ℕ → MaskRow) : Option (S × (ℕ → MaskRow)) :=
  t.dfs G vocabSize ((t.numDraftTokens + 1) * (t.numDraftTokens + 1)) 0 (-1) (g, rows)

/-! ## 2. What the grammar follows -/

/-- The row allows the token of a position. -/
def Allowed (row : MaskRow) (c : ℕ) : Prop :=
  exceedsVocab vocabSize (t.draftTokens c) = false ∧ row.bit? (t.draftTokens c) = some true

/-- The grammar follows a path below a position: it has not terminated on the way, each token is allowed
by the row of its parent, and is accepted. -/
inductive Follows (row : S → ℕ → MaskRow) : S → ℕ → List ℕ → S → Prop
  | nil {g : S} {i : ℕ} : Follows row g i [] g
  | cons {g g' s : S} {i c : ℕ} {path : List ℕ} : G.isTerminated g = false →
    t.Allowed vocabSize (row g i) c → G.acceptToken g (t.draftTokens c) = some g' →
    Follows row g' c path s → Follows row g i (c :: path) s

/-- The arrays are those of a tree: each position has one path from the root, and the root has no
sibling. -/
structure IsTree (children : ℕ → List ℕ) : Prop where
  pos : 0 < t.numDraftTokens
  encodes : EncodesTree t.numDraftTokens t.retrieveNextToken t.retrieveNextSibling children
  unique : UniquePaths children 0
  root : t.retrieveNextSibling 0 = -1

/-- The rows are wide enough for the tokens that are looked up. -/
def Fits (rows : ℕ → MaskRow) : Prop :=
  ∀ i < t.numDraftTokens, ∀ c < t.numDraftTokens,
    exceedsVocab vocabSize (t.draftTokens c) = false → t.draftTokens c / 32 < (rows i).length

/-- The row of a position `p` is to be filled with the mask of the state `s`: the grammar follows the path
from `i` there and has not terminated behind it. -/
def Fills (children : ℕ → List ℕ) (row : S → ℕ → MaskRow) (g : S) (i p : ℕ) (s : S) : Prop :=
  ∃ path, Descent children i path ∧ path.getLastD i = p ∧ t.Follows G vocabSize row g i path s ∧
    G.isTerminated s = false

end DraftTree

/-- **The walk fills the right rows.**  It ends with the grammar it began with; a row is filled exactly
when the grammar follows the path to its position by the rows of the parents, and then with the mask of
the state it is in behind that path. -/
def GrammarObject.Traverses {S : Type} (G : GrammarObject S) : Prop :=
  ∀ (t : DraftTree) (children : ℕ → List ℕ) (vocabSize : Option ℕ) (g : S) (rows : ℕ → MaskRow),
    t.IsTree children → t.Fits vocabSize rows →
    ∃ rows', t.traverseTree G vocabSize g rows = some (g, rows') ∧
      (∀ p s, t.Fills G vocabSize children (fun _ i => rows' i) g 0 p s →
        rows' p = G.fillVocabMask s (rows p)) ∧
      ∀ p, (∀ s, ¬ t.Fills G vocabSize children (fun _ i => rows' i) g 0 p s) → rows' p = rows p

/-! ## 3. One position -/

namespace DraftTree

variable {S : Type} {G : GrammarObject S} {t : DraftTree} {vocabSize : Option ℕ}
  {children : ℕ → List ℕ} {row : S → ℕ → MaskRow} {g g' s : S} {i j p c : ℕ} {l q : List ℕ}

theorem Fills.not_terminated (h : t.Fills G vocabSize children row g i p s) :
    G.isTerminated g = false := by
  obtain ⟨path, -, -, hf, hs⟩ := h
  cases hf with
  | nil => exact hs
  | cons hg _ _ _ => exact hg

/-- What is filled through one of the given children. -/
def FillsBelow (G : GrammarObject S) (t : DraftTree) (vocabSize : Option ℕ) (children : ℕ → List ℕ)
    (row : S → ℕ → MaskRow) (g : S) (i : ℕ) (l : List ℕ) (p : ℕ) (s : S) : Prop :=
  ∃ c ∈ l, ∃ g', t.Allowed vocabSize (row g i) c ∧ G.acceptToken g (t.draftTokens c) = some g' ∧
    t.Fills G vocabSize children row g' c p s

/-- A position is filled itself, or something below it. -/
theorem fills_iff (hg : G.isTerminated g = false) :
    t.Fills G vocabSize children row g i p s ↔
      p = i ∧ s = g ∨ FillsBelow G t vocabSize children row g i (children i) p s := by
  constructor
  · rintro ⟨path, hd, hlast, hf, hs⟩
    cases hf with
    | nil => exact Or.inl ⟨hlast.symm, rfl⟩
    | @cons _ g' _ _ c path _ hallow hacc hf =>
      cases hd with
      | cons hc hd =>
        exact Or.inr ⟨c, hc, g', hallow, hacc, path, hd, by rwa [getLastD_cons] at hlast, hf, hs⟩
  · rintro (⟨rfl, rfl⟩ | ⟨c, hc, g', hallow, hacc, path, hd, hlast, hf, hs⟩)
    · exact ⟨[], .nil, rfl, .nil, hg⟩
    · exact ⟨c :: path, .cons hc hd, by rwa [getLastD_cons], .cons hg hallow hacc hf, hs⟩

/-- The rows after a part of the walk that fills what `F` says. -/
structure Filled (G : GrammarObject S) (F : ℕ → S → Prop) (rows rows' : ℕ → MaskRow) : Prop where
  fills : ∀ p s, F p s → rows' p = G.fillVocabMask s (rows p)
  keeps : ∀ p, (∀ s, ¬ F p s) → rows' p = rows p

variable {F : ℕ → S → Prop}

theorem Filled.refl (rows : ℕ → MaskRow) (h : ∀ p s, ¬ F p s) : Filled G F rows rows :=
  ⟨fun p s hF => absurd hF (h p s), fun _ _ => rfl⟩

variable {F' : ℕ → S → Prop}

/-- Two parts of the walk, at different positions. -/
theorem Filled.trans {rows rows₁ rows₂ : ℕ → MaskRow}
    (h : Filled G F rows rows₁) (h' : Filled G F' rows₁ rows₂)
    (hdisj : ∀ p s s', F p s → ¬ F' p s') : Filled G (fun p s => F p s ∨ F' p s) rows rows₂ := by
  refine ⟨fun p s hF => ?_, fun p hF => ?_⟩
  · rcases hF with hF | hF
    · rw [h'.keeps p fun s' => hdisj p s s' hF, h.fills p s hF]
    · rw [h'.fills p s hF, h.keeps p fun s' hF' => hdisj p s' s hF' hF]
  · rw [h'.keeps p fun s hs => hF s (Or.inr hs), h.keeps p fun s hs => hF s (Or.inl hs)]

variable {rows' : ℕ → MaskRow}

theorem Filled.congr {rows : ℕ → MaskRow} (h : Filled G F rows rows')
    (heq : ∀ p s, F' p s ↔ F p s) : Filled G F' rows rows' :=
  ⟨fun p s hF => h.fills p s ((heq p s).mp hF),
    fun p hF => h.keeps p fun s hs => hF s ((heq p s).mpr hs)⟩

/-- The look-up of a token in the row of its parent. -/
theorem exists_accepted {rows : ℕ → MaskRow} (hc : c ≠ 0)
    (hfits : exceedsVocab vocabSize (t.draftTokens c) = false →
      t.draftTokens c / 32 < (rows i).length) :
    ∃ b, t.accepted vocabSize rows c i = some b ∧ (b = true ↔ t.Allowed vocabSize (rows i) c) := by
  have hrow : t.parentBitmask rows i = rows i := by
    have hge : ¬ (i : ℤ) < 0 := by omega
    rw [parentBitmask, if_neg hge, Int.toNat_natCast]
  rw [accepted, if_neg hc, hrow]
  cases hex : exceedsVocab vocabSize (t.draftTokens c) with
  | true => exact ⟨false, rfl, by simp [Allowed, hex]⟩
  | false =>
    obtain ⟨word, hword⟩ : ∃ word, (rows i)[t.draftTokens c / 32]? = some word :=
      ⟨_, getElem?_eq_getElem (hfits hex)⟩
    refine ⟨word.getLsbD (t.draftTokens c % 32), by simp [MaskRow.bit?, hword], ?_⟩
    simp [Allowed, hex, MaskRow.bit?, hword]

/-! ## 4. The walk over a tree -/

section Walk

variable (G t vocabSize children)

/-- What `dfs` does on the siblings from `c` on, below the path `q`, with so much fuel.  The rows of the
positions below the siblings are still as they were in `row₀`, and the row of the parent is filled. -/
def WalksSiblings (row₀ : ℕ → MaskRow) (fuel : ℕ) : Prop :=
  ∀ (q : List ℕ) (g : S) (rows : ℕ → MaskRow) (c : ℕ) (l : List ℕ),
    Descent children 0 q → (c :: l) <:+ children (q.getLastD 0) →
    Chain t.retrieveNextSibling c (c :: l) → G.isTerminated g = false →
    rows (q.getLastD 0) = G.fillVocabMask g (row₀ (q.getLastD 0)) →
    (∀ d ∈ c :: l, ∀ path, Descent children d path →
      rows (path.getLastD d) = row₀ (path.getLastD d)) →
    (t.numDraftTokens - q.length) * (t.numDraftTokens + 1) + (c :: l).length ≤ fuel →
    ∃ rows', t.dfs G vocabSize fuel c (q.getLastD 0 : ℕ) (g, rows) = some (g, rows') ∧
      Filled G (FillsBelow G t vocabSize children (fun s j => G.fillVocabMask s (row₀ j)) g
        (q.getLastD 0) (c :: l)) rows rows'

variable {G t vocabSize children} {row₀ rows : ℕ → MaskRow} {fuel : ℕ}

/-- The part of a visit between accepting the token and taking it back. -/
theorem exists_descend (g : S) (rows : ℕ → MaskRow) (hT : t.IsTree children) (hrec : WalksSiblings G t vocabSize children row₀ fuel)
    (hq : Descent children 0 q)
    (hrows : ∀ path, Descent children (q.getLastD 0) path →
      rows (path.getLastD (q.getLastD 0)) = row₀ (path.getLastD (q.getLastD 0)))
    (hfuel : (t.numDraftTokens - q.length) * (t.numDraftTokens + 1) + t.numDraftTokens ≤ fuel) :
    ∃ rows', t.descend G (t.dfs G vocabSize fuel) (q.getLastD 0) (g, rows) = some (g, rows') ∧
      Filled G (t.Fills G vocabSize children (fun s j => G.fillVocabMask s (row₀ j)) g
        (q.getLastD 0)) rows rows' := by
  cases hg : G.isTerminated g with
  | true =>
    refine ⟨rows, by simp [descend, hg], Filled.refl rows fun p s hF => ?_⟩
    rw [hF.not_terminated] at hg
    cases hg
  | false =>
    obtain ⟨j, hj⟩ : ∃ j, q.getLastD 0 = j := ⟨_, rfl⟩
    have hjn : j < t.numDraftTokens := by
      cases q using List.reverseRecOn with
      | nil => exact hj ▸ hT.pos
      | append_singleton q c =>
        refine hq.lt hT.encodes.lt hT.pos j ?_
        exact hj ▸ by simp
    have hself : rows j = row₀ j := by
      have := hrows [] .nil
      rwa [hj] at this
    have hchain := hT.encodes.chain j hjn
    have hbelow : ∀ c ∈ children j, ∀ path, Descent children c path → path.getLastD c ≠ j := by
      intro c hc path hd
      rw [← hj]
      exact hT.unique.ne_below (hq.append (.cons (hj ▸ hc) hd))
    -- the row of the position itself
    have hfirst : Filled G (fun p s => p = j ∧ s = g) rows
        (Function.update rows j (G.fillVocabMask g (rows j))) := by
      refine ⟨?_, fun p hF => update_of_ne (fun h => hF g ⟨h, rfl⟩) _ _⟩
      rintro p s ⟨rfl, rfl⟩
      exact update_self ..
    have hdisj : ∀ l, l ⊆ children j → ∀ p s s', p = j ∧ s = g →
        ¬ FillsBelow G t vocabSize children (fun s j => G.fillVocabMask s (row₀ j)) g j l p s' := by
      rintro l hl p s s' ⟨rfl, rfl⟩ ⟨c, hc, g', -, -, path, hd, hlast, -⟩
      exact hbelow c (hl hc) path hd hlast
    simp only [hj, descend, hg, Bool.false_eq_true, if_false]
    cases hch : children j with
    | nil =>
      rw [hch] at hchain
      have hnone : t.retrieveNextToken j = -1 := by
        generalize t.retrieveNextToken j = first at hchain
        cases hchain
        rfl
      refine ⟨_, by simp [hnone], hfirst.congr fun p s => ?_⟩
      rw [fills_iff hg, hch]
      simp [FillsBelow]
    | cons c l =>
      rw [hch] at hchain
      have hsome : t.retrieveNextToken j = c := by
        generalize t.retrieveNextToken j = first at hchain
        cases hchain
        rfl
      have hlen : (c :: l).length ≤ t.numDraftTokens :=
        hchain.length_le fun d hd => hT.encodes.lt j hjn d (hch ▸ hd)
      obtain ⟨rows', heq, hfilled⟩ := hrec q g
        (Function.update rows j (G.fillVocabMask g (rows j))) c l hq
        (by rw [hj, hch]) (hsome ▸ hchain) hg (by rw [hj, update_self, hself])
        (fun d hd path hpath => by
          have hd' : d ∈ children j := hch ▸ hd
          rw [update_of_ne (hbelow d hd' path hpath)]
          have := hrows (d :: path) (hj.symm ▸ .cons hd' hpath)
          simpa only [getLastD_cons] using this)
        (by omega)
      rw [hj] at heq hfilled
      refine ⟨rows', by rw [hsome]; exact heq, ?_⟩
      refine (hfirst.trans hfilled (hdisj _ (by rw [hch]; exact fun _ h => h))).congr fun p s => ?_
      rw [fills_iff hg, hch]

/-- The positions that are filled below two different siblings are different. -/
theorem Fills.ne_sibling (hT : t.IsTree children) (hq : Descent children 0 q) {d : ℕ} {p' : ℕ}
    {row' : S → ℕ → MaskRow} {h h' s' : S} (hc : c ∈ children (q.getLastD 0))
    (hd : d ∈ children (q.getLastD 0)) (hne : c ≠ d)
    (hF : t.Fills G vocabSize children row h c p s)
    (hF' : t.Fills G vocabSize children row' h' d p' s') : p ≠ p' := by
  obtain ⟨path, hpath, rfl, -⟩ := hF
  obtain ⟨path', hpath', rfl, -⟩ := hF'
  exact fun hlast => hne (hT.unique.child_eq (hq.append (.cons hc hpath)) (hq.append (.cons hd hpath'))
    hlast).1

/-- **The walk along siblings**, by induction on the fuel. -/
theorem walksSiblings (hT : t.IsTree children) (hG : G.Walkable) (hfits : t.Fits vocabSize row₀) :
    ∀ fuel, WalksSiblings G t vocabSize children row₀ fuel
  | 0 => fun _ _ _ _ _ _ _ _ _ _ _ hfuel => by simp at hfuel
  | fuel + 1 => by
    intro q g rows c l hq hsuf hchain hg hparent hrows hfuel
    have hrec := walksSiblings hT hG hfits fuel
    obtain ⟨i, hi⟩ : ∃ i, q.getLastD 0 = i := ⟨_, rfl⟩
    rw [hi] at hsuf hparent ⊢
    have hc : c ∈ children i := hsuf.subset (mem_cons_self)
    have hqc : Descent children 0 (q ++ [c]) := hq.concat (hi.symm ▸ hc)
    have hlast : (q ++ [c]).getLastD 0 = c := by rw [getLastD_append]; rfl
    have hlen : q.length + 1 < t.numDraftTokens := by
      simpa using hT.unique.length_lt hqc hT.encodes.lt hT.pos
    have hcn : c < t.numDraftTokens := hqc.lt hT.encodes.lt hT.pos c (by simp)
    have hin : i < t.numDraftTokens := by
      have hall := hq.lt hT.encodes.lt hT.pos
      cases q using List.reverseRecOn with
      | nil => exact hi ▸ hT.pos
      | append_singleton q d =>
        refine hall i ?_
        exact hi ▸ by simp
    have hc0 : c ≠ 0 := by
      rintro rfl
      exact absurd (hT.unique _ [] hqc .nil hlast) (by simp)
    have hbelow : ∀ d ∈ children i, ∀ path, Descent children d path → path.getLastD d ≠ i := by
      intro d hd path hpath
      rw [← hi]
      exact hT.unique.ne_below (hq.append (.cons (hi.symm ▸ hd) hpath))
    -- the first of the siblings, with all that is below it
    have hfirst : ∃ rows₁, ((t.accepted vocabSize rows c i).bind fun accepted =>
          if accepted then t.visit G (t.dfs G vocabSize fuel) c (g, rows) else some (g, rows)) =
            some (g, rows₁) ∧
        Filled G (FillsBelow G t vocabSize children (fun s j => G.fillVocabMask s (row₀ j)) g i [c])
          rows rows₁ := by
      have hwidth : (rows i).length = (row₀ i).length := by rw [hparent, hG.length_fill]
      have hbit : ∃ b, t.accepted vocabSize rows c i = some b ∧
          (b = true ↔ t.Allowed vocabSize (rows i) c) :=
        exists_accepted hc0 fun hex => hwidth ▸ hfits i hin c hcn hex
      obtain ⟨b, hb, hallow⟩ := hbit
      rw [hparent] at hallow
      rw [hb, bind_some]
      cases b with
      | false =>
        refine ⟨rows, rfl, Filled.refl rows ?_⟩
        rintro p s ⟨d, hd, g', hal, -⟩
        rw [mem_singleton] at hd
        subst hd
        exact absurd (hallow.mpr hal) (by simp)
      | true =>
        have hal := hallow.mp rfl
        obtain ⟨g', hacc⟩ := isSome_iff_exists.mp (hG.accept_of_bit g (row₀ i) _ hal.2)
        obtain ⟨rows₁, heq, hfilled⟩ := exists_descend g' rows hT hrec hqc (fun path hpath => by
            rw [hlast] at hpath ⊢
            exact hrows c (mem_cons_self) path hpath)
          (by
            rw [length_append, length_singleton]
            have hsucc : t.numDraftTokens - q.length = t.numDraftTokens - (q.length + 1) + 1 := by omega
            rw [hsucc, Nat.succ_mul] at hfuel
            omega)
        rw [hlast] at heq hfilled
        refine ⟨rows₁, ?_, hfilled.congr fun p s => ?_⟩
        · rw [if_pos rfl, visit, if_pos hc0, hacc, bind_some, heq, map_some,
            hG.rollback_accept g _ g' hacc]
        · constructor
          · rintro ⟨d, hd, g'', -, hacc', hF⟩
            rw [mem_singleton] at hd
            subst hd
            rw [hacc] at hacc'
            cases hacc'
            exact hF
          · exact fun hF => ⟨c, mem_singleton_self c, g', hal, hacc, hF⟩
    obtain ⟨rows₁, heq₁, hfilled₁⟩ := hfirst
    have hstep : t.dfs G vocabSize (fuel + 1) c i (g, rows) =
        if t.retrieveNextSibling c ≠ -1 then
          t.dfs G vocabSize fuel (t.retrieveNextSibling c).toNat i (g, rows₁)
        else some (g, rows₁) := by
      rw [dfs, ← bind_assoc, heq₁, bind_some]
    have hsub : ∀ d ∈ l, d ∈ children i := fun d hd => hsuf.subset (mem_cons_of_mem _ hd)
    have hnd : (c :: l).Nodup := hchain.nodup
    have hkeeps : ∀ d ∈ l, ∀ path, Descent children d path →
        rows₁ (path.getLastD d) = rows (path.getLastD d) := by
      intro d hd path hpath
      refine hfilled₁.keeps _ ?_
      rintro s ⟨c', hc', g', -, -, path', hpath', hend, -⟩
      rw [mem_singleton] at hc'
      subst hc'
      have hcd := (hT.unique.child_eq (hq.append (.cons (hi.symm ▸ hc) hpath'))
        (hq.append (.cons (hi.symm ▸ hsub d hd) hpath)) hend).1
      exact (nodup_cons.mp hnd).1 (hcd ▸ hd)
    have hself : rows₁ i = rows i := by
      refine hfilled₁.keeps i ?_
      rintro s ⟨d, hd, g', -, -, path, hpath, hend, -⟩
      rw [mem_singleton] at hd
      subst hd
      exact hbelow d hc path hpath hend
    rw [hstep]
    cases hl : l with
    | nil =>
      have hnone : t.retrieveNextSibling c = -1 := by
        rw [hl] at hchain
        cases hchain with
        | cons hchain =>
          generalize t.retrieveNextSibling c = next at hchain
          cases hchain
          rfl
      exact ⟨rows₁, by simp [hnone], hfilled₁⟩
    | cons d l' =>
      have htail : Chain t.retrieveNextSibling d (d :: l') ∧ t.retrieveNextSibling c = d := by
        rw [hl] at hchain
        cases hchain with
        | cons hchain =>
          generalize t.retrieveNextSibling c = next at hchain
          cases hchain with
          | cons hchain => exact ⟨.cons hchain, rfl⟩
      have hne : (d : ℤ) ≠ -1 := by omega
      obtain ⟨rows₂, heq₂, hfilled₂⟩ := hrec q g rows₁ d l' hq
        (by rw [hi, ← hl]; exact (suffix_cons c l).trans hsuf) htail.1 hg
        (by rw [hi, hself, hparent])
        (fun d' hd' path hpath => by
          rw [← hl] at hd'
          rw [hkeeps d' hd' path hpath, hrows d' (mem_cons_of_mem _ hd') path hpath])
        (by
          rw [hl, length_cons] at hfuel
          omega)
      rw [hi] at heq₂ hfilled₂
      refine ⟨rows₂, by rw [htail.2, if_pos hne, Int.toNat_natCast, heq₂], ?_⟩
      refine (hfilled₁.trans hfilled₂ ?_).congr fun p s => ?_
      · rintro p s s' ⟨c', hc', g', -, -, hF⟩ ⟨d', hd', g'', -, -, hF'⟩
        rw [mem_singleton] at hc'
        subst hc'
        rw [← hl] at hd'
        have hcd : c' ≠ d' := fun h => (nodup_cons.mp hnd).1 (h ▸ hd')
        exact Fills.ne_sibling hT hq (hi.symm ▸ hc) (hi.symm ▸ hsub d' hd') hcd hF hF' rfl
      · simp [FillsBelow]

/-- The walk from the root, with the rows that the parents get on the way. -/
theorem exists_traverseTree (hT : t.IsTree children) (hG : G.Walkable)
    (hfits : t.Fits vocabSize rows) :
    ∃ rows', t.traverseTree G vocabSize g rows = some (g, rows') ∧
      Filled G (t.Fills G vocabSize children (fun s j => G.fillVocabMask s (rows j)) g 0)
        rows rows' := by
  obtain ⟨fuel, hfuel⟩ : ∃ fuel, (t.numDraftTokens + 1) * (t.numDraftTokens + 1) = fuel + 1 :=
    Nat.exists_eq_succ_of_ne_zero (by positivity)
  obtain ⟨rows', heq, hfilled⟩ := exists_descend g rows hT
    (walksSiblings hT hG hfits fuel) .nil (fun _ _ => rfl) (by
      rw [Nat.succ_mul] at hfuel
      simp only [length_nil, Nat.sub_zero]
      omega)
  refine ⟨rows', ?_, hfilled⟩
  have hvisit : t.visit G (t.dfs G vocabSize fuel) 0 (g, rows) = some (g, rows') := heq
  rw [traverseTree, hfuel, dfs]
  simp only [accepted, if_true, bind_some]
  rw [hvisit, hT.root]
  simp

/-! ## 5. The rows of the parents -/

theorem Follows.concat {path : List ℕ} (h : t.Follows G vocabSize row g i path s)
    (hs : G.isTerminated s = false) (hallow : t.Allowed vocabSize (row s (path.getLastD i)) c)
    (hacc : G.acceptToken s (t.draftTokens c) = some g') :
    t.Follows G vocabSize row g i (path ++ [c]) g' := by
  induction h with
  | nil => exact .cons hs hallow hacc .nil
  | cons hg hal ha _ ih =>
    rw [getLastD_cons] at hallow
    exact .cons hg hal ha (ih hs hallow hacc)

/-- Along the paths that the grammar follows the rows at the end are the rows that were consulted. -/
theorem follows_iff
    (hfilled : Filled G (t.Fills G vocabSize children (fun s j => G.fillVocabMask s (rows j)) g 0)
      rows rows') :
    ∀ (path q : List ℕ) (s₁ : S), Descent children 0 (q ++ path) →
      t.Follows G vocabSize (fun s j => G.fillVocabMask s (rows j)) g 0 q s₁ →
      (t.Follows G vocabSize (fun s j => G.fillVocabMask s (rows j)) s₁ (q.getLastD 0) path s ↔
        t.Follows G vocabSize (fun _ j => rows' j) s₁ (q.getLastD 0) path s)
  | [], q, s₁, _, _ => by
    constructor
    · rintro ⟨⟩
      exact .nil
    · rintro ⟨⟩
      exact .nil
  | c :: path, q, s₁, hd, hq => by
    -- the parent is filled with the mask of the state that consults it
    have hrow : G.isTerminated s₁ = false →
        rows' (q.getLastD 0) = G.fillVocabMask s₁ (rows (q.getLastD 0)) := fun hs =>
      hfilled.fills _ _ ⟨q, hd.of_append.1, rfl, hq, hs⟩
    have hlast : (q ++ [c]).getLastD 0 = c := by rw [getLastD_append]; rfl
    rw [append_cons] at hd
    constructor
    · rintro ⟨⟩
      rename_i g₁ hs hacc hallow hf
      have ih := (follows_iff hfilled path (q ++ [c]) g₁ hd (hq.concat hs hallow hacc)).mp
      rw [hlast] at ih
      refine .cons hs ?_ hacc (ih hf)
      rwa [hrow hs]
    · rintro ⟨⟩
      rename_i g₁ hs hacc hallow hf
      rw [hrow hs] at hallow
      have ih := (follows_iff hfilled path (q ++ [c]) g₁ hd (hq.concat hs hallow hacc)).mpr
      rw [hlast] at ih
      exact .cons hs hallow hacc (ih hf)

theorem fills_rows_iff
    (hfilled : Filled G (t.Fills G vocabSize children (fun s j => G.fillVocabMask s (rows j)) g 0)
      rows rows') :
    t.Fills G vocabSize children (fun _ j => rows' j) g 0 p s ↔
      t.Fills G vocabSize children (fun s j => G.fillVocabMask s (rows j)) g 0 p s := by
  constructor
  · rintro ⟨path, hd, hlast, hf, hs⟩
    exact ⟨path, hd, hlast, (follows_iff hfilled path [] g hd .nil).mpr hf, hs⟩
  · rintro ⟨path, hd, hlast, hf, hs⟩
    exact ⟨path, hd, hlast, (follows_iff hfilled path [] g hd .nil).mp hf, hs⟩

end Walk

end DraftTree

/-- **A grammar whose tokens can be taken back is walked over every tree of drafts.** -/
theorem GrammarObject.Walkable.traverses {S : Type} {G : GrammarObject S} (hG : G.Walkable) :
    G.Traverses := by
  intro t children vocabSize g rows hT hfits
  obtain ⟨rows', heq, hfilled⟩ := DraftTree.exists_traverseTree (g := g) hT hG hfits
  have hfinal := hfilled.congr fun p s => DraftTree.fills_rows_iff hfilled
  exact ⟨rows', heq, hfinal.fills, hfinal.keeps⟩

namespace ReasonerGrammarObject

/-- **Grammar masks over a draft tree**, for an exact grammar and for the wrapper around it in any phase;
and the wrapper takes back any tokens it has accepted. -/
theorem grammar_masks {S : Type} (G : GrammarObject S) (hG : G.Exact) :
    G.Traverses ∧ (object G).Traverses ∧
      ∀ r tokens r', (object G).accepts r tokens = some r' →
        (object G).rollback r' tokens.length = r :=
  ⟨hG.walkable.traverses, (walkable hG).traverses, fun _ _ _ h => rollback_accepts hG h⟩

/-! ## 6. A grammar of three tokens -/

/-- Any three tokens: the state holds those accepted. -/
def threeTokens : GrammarObject (List ℕ) where
  acceptToken s token := if s.length < 3 then some (token :: s) else none
  rollback s k := s.drop k
  isTerminated s := s.length ≥ 3
  fillVocabMask s row :=
    List.replicate row.length (if s.length < 3 then BitVec.allOnes 32 else 0)

theorem accepts_threeTokens {s s' tokens : List ℕ} (h : threeTokens.accepts s tokens = some s') :
    s' = tokens.reverse ++ s := by
  induction tokens generalizing s with
  | nil =>
    cases h
    rfl
  | cons token tokens ih =>
    rw [GrammarObject.accepts, foldlM_cons, bind_eq_bind, bind_eq_some_iff] at h
    obtain ⟨s₁, h1, h2⟩ := h
    simp only [threeTokens] at h1
    split at h1
    · cases h1
      rw [ih h2]
      simp
    · cases h1

theorem threeTokens_exact : threeTokens.Exact where
  rollback_accepts s tokens s' h := by
    rw [accepts_threeTokens h]
    simp [threeTokens]
  length_fill s row := length_replicate
  bit_fill s row token h := by
    have hlt : token % 32 < 32 := Nat.mod_lt _ (by decide)
    by_cases hs : s.length < 3
    · have hword : (threeTokens.fillVocabMask s row)[token / 32]? = some (BitVec.allOnes 32) := by
        simp [threeTokens, if_pos hs, h]
      rw [MaskRow.bit?, hword, map_some, BitVec.getLsbD_allOnes]
      simp [threeTokens, hs, hlt]
    · simp [threeTokens, MaskRow.bit?, h, hs]

/-- A root with two children, and one below the second. -/
def smallTree : DraftTree where
  numDraftTokens := 4
  retrieveNextToken i := [1, -1, 3, -1].getD i (-1)
  retrieveNextSibling i := [-1, 2, -1, -1].getD i (-1)
  draftTokens i := [10, 11, 22, 31].getD i 0

def smallTreeChildren (i : ℕ) : List ℕ := [[1, 2], [], [3], []].getD i []

theorem descent_smallTree {p : List ℕ} (h : Descent smallTreeChildren 0 p) :
    p ∈ [[], [1], [2], [2, 3]] := by
  rcases h with _ | ⟨hc, h⟩
  · simp
  · simp only [smallTreeChildren, getD_cons_zero, mem_cons, not_mem_nil, or_false] at hc
    rcases hc with rfl | rfl
    · rcases h with _ | ⟨hc, h⟩
      · simp
      · simp [smallTreeChildren] at hc
    · rcases h with _ | ⟨hc, h⟩
      · simp
      · simp only [smallTreeChildren, getD_cons_succ, getD_cons_zero, mem_cons,
          not_mem_nil, or_false] at hc
        subst hc
        rcases h with _ | ⟨hc, h⟩
        · simp
        · simp [smallTreeChildren] at hc

theorem smallTree_isTree : smallTree.IsTree smallTreeChildren where
  pos := by decide
  encodes := by
    refine ⟨by decide, fun i hi => ?_⟩
    change i < 4 at hi
    interval_cases i
    · exact .cons (.cons .nil)
    · exact .nil
    · exact .cons .nil
    · exact .nil
  unique p q hp hq := by
    have hp' := descent_smallTree hp
    have hq' := descent_smallTree hq
    clear hp hq
    revert q
    revert p
    decide
  root := rfl

/-- A thinking phase in which token `3` is excluded. -/
def thinking : ReasonerGrammarObject (List ℕ) := ⟨some [], 7, some [3], -1, true, some setTokenFilterTorch, 0, -1⟩

/-- The tree under the grammar, for a vocabulary without the last token: the walk ends in the state it
began with, and every row but the last is filled.  Under the wrapper the rows are those of the thinking
phase; and the wrapper takes back a token that ended the thinking together with one after it. -/
theorem grammar_masks_small :
    (∃ rows', smallTree.traverseTree threeTokens (some 31) [] (fun _ => [0]) = some ([], rows') ∧
      (List.range 4).map rows' = [[-1], [-1], [-1], [0]]) ∧
    (∃ rows', smallTree.traverseTree (object threeTokens) (some 32) thinking (fun _ => [0]) =
        some (thinking, rows') ∧ (List.range 4).map rows' = List.replicate 4 [~~~8]) ∧
    ∀ r', (object threeTokens).accepts thinking [7, 5] = some r' →
      (object threeTokens).rollback r' 2 = thinking := by
  obtain ⟨hwalk, hwrapped, hback⟩ := grammar_masks threeTokens threeTokens_exact
  have hfits : ∀ n < 32, smallTree.Fits (some (n + 1)) fun _ => [0] := by
    intro n hn i hi c hc hex
    simp only [exceedsVocab, ge_iff_le, decide_eq_false_iff_not, not_and, not_le] at hex
    have hlt := hex n.succ_ne_zero
    rw [length_singleton]
    omega
  refine ⟨?_, ?_, fun r' h => hback _ _ _ h⟩
  · obtain ⟨rows', heq, -⟩ := hwalk smallTree smallTreeChildren (some 31) [] (fun _ => [0])
      smallTree_isTree (hfits 30 (by decide))
    have hrows : (smallTree.traverseTree threeTokens (some 31) [] fun _ => [0]).map
        (fun r => (List.range 4).map r.2) = some [[-1], [-1], [-1], [0]] := by decide +kernel
    rw [heq] at hrows
    exact ⟨rows', heq, some_inj.mp hrows⟩
  · obtain ⟨rows', heq, -⟩ := hwrapped smallTree smallTreeChildren (some 32) thinking (fun _ => [0])
      smallTree_isTree (hfits 31 (by decide))
    have hrows : (smallTree.traverseTree (object threeTokens) (some 32) thinking fun _ => [0]).map
        (fun r => (List.range 4).map r.2) = some (List.replicate 4 [~~~8]) := by decide +kernel
    rw [heq] at hrows
    exact ⟨rows', heq, some_inj.mp hrows⟩

end ReasonerGrammarObject

end Sglang
