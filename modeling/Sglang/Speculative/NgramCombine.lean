/-
# Combining drafts

A transcription of `extractLeafPaths_`, `buildResultFromLeafPaths_` and `combineRootResults_` (`result.cpp`).  The
leaf paths of two drafts are read off their masks and inserted into a new tree one after another, as long as there
are nodes left; a leaf path that is the token 0 alone is taken for padding and left out.

The nodes of the new tree are the first distinct prefixes of these paths (`combinedTree_paths`).  So a path can
only be lost by running out of nodes, or because it is the token 0 alone (`combineRootResults_iff`).
-/
import Sglang.Lib.FirstDistinct
import Sglang.Speculative.NgramPaths

namespace Sglang

open Lib Lib.ParentTree List

namespace NgramResult

/-! ## 1. The functions -/

/-- How an `unordered_map` is iterated after an insertion. -/
structure MapOrder where
  insert : List (ℤ × ℕ) → ℤ × ℕ → List (ℤ × ℕ)
  perm : ∀ l e, (insert l e).Perm (e :: l)

/-- `parent[i]` of `extractLeafPaths_`: the last marked position in front of the diagonal. -/
def parentAt (r : NgramResult) (i : ℕ) : Option ℕ :=
  (List.range i).reverse.find? fun j => r.mask.getD (i * r.token.length + j) false

/-- `has_child[j]`. -/
def hasChild (r : NgramResult) (j : ℕ) : Bool :=
  (List.range' 1 (r.token.length - 1)).any fun i => r.parentAt i == some j

/-- The loop that follows the parents while the cursor is positive. -/
def pathUp (r : NgramResult) : ℕ → Option ℕ → List ℤ
  | fuel + 1, some (cursor + 1) =>
    r.token.getD (cursor + 1) 0 :: pathUp r fuel (r.parentAt (cursor + 1))
  | _, _ => []

/-- `extractLeafPaths_`. -/
def extractLeafPaths (r : NgramResult) : List (List ℤ) :=
  if r.token.length ≤ 1 then []
  else
    (List.range' 1 (r.token.length - 1)).filterMap fun leaf =>
      if r.hasChild leaf then none
      else
        let path := (pathUp r r.token.length (some leaf)).reverse
        if path.length = 1 ∧ path.head? = some 0 then none else some path

/-- The loop over the tokens of a path in `buildResultFromLeafPaths_`, from a node; the tree is given with the
number of nodes in use. -/
def insertPath (ord : MapOrder) (draftTokenNum : ℕ) :
    List ℤ → List NgramNode × ℕ → ℕ → List NgramNode × ℕ
  | [], st, _ => st
  | token :: path, (tree, cursor), parent =>
    match (entries tree parent).lookup token with
    | some child => insertPath ord draftTokenNum path (tree, cursor) child
    | none =>
      if draftTokenNum ≤ cursor then (tree, cursor)
      else
        let tree := tree.set parent ⟨ord.insert (entries tree parent) (token, cursor)⟩
        insertPath ord draftTokenNum path (tree, cursor + 1) cursor

/-- The loop over the paths. -/
def insertPaths (ord : MapOrder) (draftTokenNum : ℕ) :
    List (List ℤ) → List NgramNode × ℕ → List NgramNode × ℕ
  | [], st => st
  | path :: paths, st =>
    let st := insertPath ord draftTokenNum path st 0
    if draftTokenNum ≤ st.2 then st else insertPaths ord draftTokenNum paths st

/-- The tree of `buildResultFromLeafPaths_`. -/
def buildTree (ord : MapOrder) (draftTokenNum : ℕ) (paths : List (List ℤ)) : List NgramNode :=
  (insertPaths ord draftTokenNum paths (List.replicate draftTokenNum ⟨[]⟩, 1)).1

/-- `buildResultFromLeafPaths_`. -/
def buildResultFromLeafPaths (ord : MapOrder) (lastToken : ℤ) (draftTokenNum : ℕ)
    (paths : List (List ℤ)) : Option NgramResult :=
  fillResult lastToken draftTokenNum (buildTree ord draftTokenNum paths) 0

/-- `merged_paths` of `combineRootResults_`. -/
def mergedPaths (primary secondary : NgramResult) : List (List ℤ) :=
  primary.extractLeafPaths ++ secondary.extractLeafPaths.filter fun path => !path.isEmpty

/-- The tree of a combined draft. -/
def combinedTree (ord : MapOrder) (draftTokenNum : ℕ) (primary secondary : NgramResult) : List NgramNode :=
  buildTree ord draftTokenNum (mergedPaths primary secondary)

/-- `combineRootResults_`. -/
def combineRootResults (ord : MapOrder) (lastToken : ℤ) (draftTokenNum : ℕ)
    (primary secondary : NgramResult) : Option NgramResult :=
  buildResultFromLeafPaths ord lastToken draftTokenNum (mergedPaths primary secondary)

/-! ## 2. Reading leaf paths -/

theorem find?_reverse_range {test : ℕ → Bool} {i j : ℕ} (hj : j < i) (htest : test j = true)
    (hbetween : ∀ k, j < k → k < i → test k = false) : (List.range i).reverse.find? test = some j := by
  induction i with
  | zero => exact absurd hj (Nat.not_lt_zero j)
  | succ i ih =>
    rw [range_succ, reverse_append, reverse_singleton, singleton_append]
    rcases Nat.lt_succ_iff_lt_or_eq.mp hj with hlt | rfl
    · rw [find?_cons_of_neg (by simp [hbetween i hlt (Nat.lt_succ_self i)])]
      exact ih hlt fun k hk hki => hbetween k hk (Nat.lt_succ_of_lt hki)
    · exact find?_cons_of_pos htest

section Extract

variable {r : NgramResult} {parent : ℕ → ℕ} {n i p : ℕ} {w : List ℤ}

theorem parentAt_eq (hm : Masks parent r.token.length r.mask) (hf : Falls parent r.token.length)
    (h0 : 0 < i) (hi : i < r.token.length) : r.parentAt i = some (parent i) := by
  have hlt := hf i h0 hi
  have hrow : ∀ j < i, r.mask.getD (i * r.token.length + j) false = decide (j ∈ path parent i) := fun j hj =>
    hm.row i hi j (hj.trans hi)
  refine find?_reverse_range hlt ?_ fun k hk hki => ?_
  · rw [hrow _ hlt]
    exact decide_eq_true (parent_mem_path hf h0 hi)
  · rw [hrow k hki]
    exact decide_eq_false (not_mem_path_of_between hf hi hk hki)

theorem hasChild_iff (hm : Masks parent r.token.length r.mask) (hf : Falls parent r.token.length) :
    r.hasChild p = true ↔ ∃ q, 0 < q ∧ q < r.token.length ∧ parent q = p := by
  rw [hasChild, any_eq_true]
  constructor
  · rintro ⟨q, hq, heq⟩
    rw [mem_range'_1] at hq
    rw [parentAt_eq hm hf (by omega) (by omega), beq_iff_eq, Option.some_inj] at heq
    exact ⟨q, by omega, by omega, heq⟩
  · rintro ⟨q, h0, hq, rfl⟩
    refine ⟨q, mem_range'_1.mpr (by omega), ?_⟩
    rw [parentAt_eq hm hf h0 hq, beq_self_eq_true]

theorem pathUp_eq (hm : Masks parent r.token.length r.mask) (hf : Falls parent r.token.length) :
    ∀ (fuel i : ℕ), i < r.token.length → i ≤ fuel →
      pathUp r fuel (some i) = (path parent i).dropLast.map fun q => r.token.getD q 0
  | 0, 0, _, _ => by simp [pathUp]
  | fuel + 1, 0, _, _ => by simp [pathUp]
  | fuel + 1, i + 1, hi, hfuel => by
    have h0 : 0 < i + 1 := by omega
    have hlt := hf (i + 1) h0 hi
    have hne : path parent (parent (i + 1)) ≠ [] := ne_nil_of_mem (mem_path_self _)
    rw [pathUp, parentAt_eq hm hf h0 hi, pathUp_eq hm hf fuel _ (by omega) (by omega),
      path_pos hf h0 hi, dropLast_cons_of_ne_nil hne, map_cons]

/-- The path that is extracted at a position, if one is. -/
def leafPathAt (r : NgramResult) (parent : ℕ → ℕ) (p : ℕ) : Option (List ℤ) :=
  if r.hasChild p ∨ tokenPath r.token parent p = [0] then none else some (tokenPath r.token parent p)

theorem extractLeafPaths_eq (hm : Masks parent r.token.length r.mask) (hf : Falls parent r.token.length) :
    r.extractLeafPaths = (List.range' 1 (r.token.length - 1)).filterMap (r.leafPathAt parent) := by
  unfold extractLeafPaths
  split_ifs with hn
  · rw [show r.token.length - 1 = 0 by omega]
    rfl
  · refine filterMap_congr fun p hp => ?_
    rw [mem_range'_1] at hp
    have hpath : (pathUp r r.token.length (some p)).reverse = tokenPath r.token parent p := by
      rw [pathUp_eq hm hf _ _ (by omega) (by omega), tokenPath]
    have hzero : ∀ w : List ℤ, (w.length = 1 ∧ w.head? = some 0) ↔ w = [0] := fun w => by
      rcases w with _ | ⟨a, _ | ⟨b, w⟩⟩ <;> simp
    simp only [hpath, hzero, leafPathAt]
    by_cases hchild : r.hasChild p = true <;> simp [hchild]

end Extract

/-! ## 3. The leaf paths of a draft -/

/-- What `fillResult` makes of a tree. -/
structure IsDraft (tree : List NgramNode) (root size : ℕ) (r : NgramResult) : Prop where
  draftTree : DraftTree tree root size
  filled : ∃ lastToken draftTokenNum, fillResult lastToken draftTokenNum tree root = some r

/-- The nodes of the tree in the order in which a result lists them. -/
def ListedAs (tree : List NgramNode) (root size : ℕ) (r : NgramResult) (order : List ℕ) : Prop :=
  ∃ lastToken parent, size ≤ r.token.length ∧
    Lists tree root size lastToken r.token.length order r.token parent ∧
    Masks parent r.token.length r.mask

theorem fillResult_max {tree : List NgramNode} {root size : ℕ} (h : HoldsTree tree root size) (lastToken : ℤ)
    (draftTokenNum : ℕ) : fillResult lastToken draftTokenNum tree root =
      fillResult lastToken (max draftTokenNum size) tree root := by
  obtain ⟨order, token, prevs, hloop, hl, hnd, hlt⟩ :=
    fillLoop_spec h (tree.length + 1) [root] _ _ _ (listing_start tree root lastToken)
      (nodup_singleton root) (by simpa using h.root_lt) Nat.one_pos
      (by have := h.size_le; simp only [length_singleton]; omega)
  have hbf : BreadthFirst tree root order := by simpa [BreadthFirst] using hl.nodes
  have hlen : order.length = size := by
    have hperm : order.Perm (List.range size) :=
      (perm_ext_iff_of_nodup hnd nodup_range).mpr fun i => by
        rw [mem_range]
        exact ⟨hlt i, h.mem_order hbf⟩
    simpa using hperm.length_eq
  have hpad : draftTokenNum - size = max draftTokenNum size - size := by omega
  simp [fillResult, hloop, hl.length_token, hl.length_prevs, hlen, hpad]

theorem IsDraft.listed {tree : List NgramNode} {root size : ℕ} {r : NgramResult}
    (h : IsDraft tree root size r) : ∃ order, ListedAs tree root size r order := by
  obtain ⟨lastToken, draftTokenNum, hfill⟩ := h.filled
  rw [fillResult_max h.draftTree.toHoldsTree] at hfill
  obtain ⟨res, order, parent, hres, hlists, hmasks⟩ :=
    fillResult_lists h.draftTree.toHoldsTree lastToken (le_max_right draftTokenNum size)
  rw [hres, Option.some_inj] at hfill
  subst hfill
  have hlen := hlists.length_token
  refine ⟨order, lastToken, parent, ?_⟩
  rw [hlen]
  exact ⟨le_max_right _ _, hlists, hmasks⟩

/-- Every prefix of the paths but the empty one, path by path. -/
def prefixesOf (paths : List (List ℤ)) : List (List ℤ) :=
  paths.flatMap fun path => (List.range path.length).map fun k => path.take (k + 1)

theorem mem_prefixesOf {paths : List (List ℤ)} {v : List ℤ} :
    v ∈ prefixesOf paths ↔ v ≠ [] ∧ ∃ path ∈ paths, v <+: path := by
  simp only [prefixesOf, mem_flatMap, mem_map, mem_range]
  constructor
  · rintro ⟨path, hpath, k, hk, rfl⟩
    refine ⟨?_, path, hpath, take_prefix _ _⟩
    rw [ne_eq, take_eq_nil_iff, not_or]
    exact ⟨k.succ_ne_zero, ne_nil_of_length_pos (by omega)⟩
  · rintro ⟨hne, path, hpath, hv⟩
    have hlen := hv.length_le
    have hpos := length_pos_of_ne_nil hne
    refine ⟨path, hpath, v.length - 1, by omega, ?_⟩
    rw [Nat.sub_add_cancel hpos]
    exact (prefix_iff_eq_take.mp hv).symm

section Leaves

variable {tree : List NgramNode} {root size j p : ℕ} {r : NgramResult} {order : List ℕ} {v w : List ℤ}

variable {k : ℕ}

theorem Path.of_append {i : ℕ} (h : Path tree i (v ++ w) k) : ∃ j, Path tree i v j ∧
    Path tree j w k := by
  induction w using List.reverseRecOn generalizing k with
  | nil => exact ⟨k, by simpa using h, .nil⟩
  | append_singleton w t ih =>
    rw [← append_assoc] at h
    obtain ⟨j, hj, hentry⟩ := path_concat_iff.mp h
    obtain ⟨i', hi', hj'⟩ := ih hj
    exact ⟨i', hi', hj'.snoc hentry⟩

theorem rootPaths_of_isPrefix (hw : w ∈ RootPaths tree root) (hv : v ≠ []) (h : v <+: w) :
    v ∈ RootPaths tree root := by
  obtain ⟨-, k, hpath⟩ := hw
  obtain ⟨u, rfl⟩ := h
  obtain ⟨j, hj, -⟩ := hpath.of_append
  exact ⟨hv, j, hj⟩

variable {t : ℤ}

theorem Path.exists_first {i : ℕ} (h : Path tree i (t :: w) k) : ∃ j, (t, j) ∈ entries tree i := by
  rw [← singleton_append] at h
  obtain ⟨j, hj, -⟩ := h.of_append
  rw [← nil_append [t]] at hj
  obtain ⟨i', hi', hentry⟩ := path_concat_iff.mp hj
  rw [path_nil_iff.mp hi'] at hentry
  exact ⟨j, hentry⟩

/-- A path that goes on does not end at a childless node. -/
theorem DraftTree.not_childless (h : DraftTree tree root size) (hv : Path tree root v j)
    (hlong : Path tree root (v ++ t :: w) k) : kids tree j ≠ [] := by
  obtain ⟨i, hi, hrest⟩ := hlong.of_append
  rw [h.node_unique hv hi]
  obtain ⟨k', hentry⟩ := hrest.exists_first
  exact ne_nil_of_mem (mem_kids_of_mem_entries hentry)

variable {lastToken : ℤ}

/-- **Every node lies above a childless one.** -/
theorem Lists.exists_childless {n : ℕ} {token : List ℤ} {parent : ℕ → ℕ}
    (hl : Lists tree root size lastToken n order token parent) (hsize : size ≤ n)
    (hp : p < size) : ∃ q < size, p ≤ q ∧ (∀ k, 0 < k → k < size → parent k ≠ q) ∧
      tokenPath token parent p <+: tokenPath token parent q := by
  generalize hd : size - p = d
  induction d using Nat.strong_induction_on generalizing p with
  | _ d ih =>
    by_cases hchild : ∀ k, 0 < k → k < size → parent k ≠ p
    · exact ⟨p, hp, le_rfl, hchild, prefix_rfl⟩
    · push Not at hchild
      obtain ⟨k, h0, hk, hkp⟩ := hchild
      have hlt := hl.parent_lt k h0 (hk.trans_le hsize)
      obtain ⟨q, hq, hkq, hleaf, hprefix⟩ := ih (size - k) (by omega) hk rfl
      refine ⟨q, hq, by omega, hleaf, List.IsPrefix.trans ?_ hprefix⟩
      rw [tokenPath_pos hl.parent_lt h0 (hk.trans_le hsize), hkp]
      exact prefix_append _ _

/-- What is extracted at a position of a listed tree. -/
theorem leafPathAt_eq_some_iff {parent : ℕ → ℕ} (h : HoldsTree tree root size)
    (hsize : size ≤ r.token.length)
    (hl : Lists tree root size lastToken r.token.length order r.token parent)
    (hm : Masks parent r.token.length r.mask) (h0 : 0 < p) (hp : p < r.token.length) :
    r.leafPathAt parent p = some w ↔
      p < size ∧ (∀ k, 0 < k → k < size → parent k ≠ p) ∧ w ≠ [0] ∧ tokenPath r.token parent p = w := by
  unfold leafPathAt
  rcases Nat.lt_or_ge p size with hlt | hge
  · have hchild : r.hasChild p = true ↔ ∃ k, 0 < k ∧ k < size ∧ parent k = p := by
      rw [hasChild_iff hm hl.parent_lt]
      constructor
      · rintro ⟨k, hk0, hk, rfl⟩
        refine ⟨k, hk0, ?_, rfl⟩
        by_contra hge
        -- padding stands below the root
        rw [hl.padding k (Nat.le_of_not_lt hge) hk] at h0
        exact absurd h0 (Nat.lt_irrefl 0)
      · rintro ⟨k, hk0, hk, hkp⟩
        exact ⟨k, hk0, hk.trans_le hsize, hkp⟩
    constructor
    · intro hsome
      split_ifs at hsome with hor
      · rw [not_or, hchild] at hor
        rw [Option.some_inj] at hsome
        exact ⟨hlt, fun k hk0 hk hkp => hor.1 ⟨k, hk0, hk, hkp⟩, hsome ▸ hor.2, hsome⟩
    · rintro ⟨-, hleaf, hne, rfl⟩
      rw [if_neg]
      rintro (hany | hzero)
      · obtain ⟨k, hk0, hk, hkp⟩ := hchild.mp hany
        exact hleaf k hk0 hk hkp
      · exact hne hzero
  · rw [if_pos (Or.inr (hl.tokenPath_padding (Nat.zero_lt_of_lt h.root_lt) hge hp))]
    exact iff_of_false (by simp) fun hand => absurd hand.1 (Nat.not_lt_of_le hge)

/-- **What the extracted paths pass through**: every path of the tree, except the token 0 alone where it does
not go on. -/
theorem IsDraft.mem_prefixesOf_extract (h : IsDraft tree root size r) :
    v ∈ prefixesOf r.extractLeafPaths ↔
      v ∈ RootPaths tree root ∧ (v = [0] → ∃ t, [0, t] ∈ RootPaths tree root) := by
  obtain ⟨order, lastToken, parent, hsize, hl, hm⟩ := h.listed
  have htree := h.draftTree
  have hextract : ∀ w, w ∈ r.extractLeafPaths ↔ w ≠ [0] ∧ ∃ p, 0 < p ∧ p < size ∧
      (∀ k, 0 < k → k < size → parent k ≠ p) ∧ tokenPath r.token parent p = w := by
    intro w
    rw [extractLeafPaths_eq hm hl.parent_lt, mem_filterMap]
    constructor
    · rintro ⟨p, hp, hsome⟩
      rw [mem_range'_1] at hp
      obtain ⟨hlt, hleaf, hne, hw⟩ :=
        (leafPathAt_eq_some_iff htree.toHoldsTree hsize hl hm (by omega) (by omega)).mp hsome
      exact ⟨hne, p, by omega, hlt, hleaf, hw⟩
    · rintro ⟨hne, p, h0, hp, hleaf, hw⟩
      exact ⟨p, mem_range'_1.mpr (by omega),
        (leafPathAt_eq_some_iff htree.toHoldsTree hsize hl hm h0 (by omega)).mpr ⟨hp, hleaf, hne, hw⟩⟩
  have hpaths : ∀ w, w ∈ RootPaths tree root ↔ _ := fun w => hl.mem_rootPaths_iff htree.toHoldsTree hsize
  rw [mem_prefixesOf]
  constructor
  · rintro ⟨hne, w, hw, hprefix⟩
    obtain ⟨hzero, p, h0, hp, -, rfl⟩ := (hextract w).mp hw
    have hroot := (hpaths _).mpr ⟨p, h0, hp, rfl⟩
    refine ⟨rootPaths_of_isPrefix hroot hne hprefix, ?_⟩
    rintro rfl
    obtain ⟨u, hu⟩ := hprefix
    rcases u with _ | ⟨t, u⟩
    · exact absurd hu.symm hzero
    · exact ⟨t, rootPaths_of_isPrefix hroot (by simp) ⟨u, hu⟩⟩
  · rintro ⟨hv, hzero⟩
    obtain ⟨p, h0, hp, rfl⟩ := (hpaths v).mp hv
    obtain ⟨q, hq, hpq, hleaf, hprefix⟩ := hl.exists_childless hsize hp
    refine ⟨hv.1, _, (hextract _).mpr ⟨fun hq0 => ?_, q, by omega, hq, hleaf, rfl⟩, hprefix⟩
    -- the token 0 alone is a path that goes on
    have hpath0 : tokenPath r.token parent p = [0] := by
      rw [hq0] at hprefix
      exact (prefix_cons_iff.mp hprefix).elim (fun hnil => absurd hnil hv.1) fun ⟨u, hu, hnil⟩ => by
        rw [hu, prefix_nil.mp hnil]
    obtain ⟨t, -, k, hlong⟩ := hzero hpath0
    have hc := getElem?_eq_getElem (hl.length_order.symm ▸ hq)
    have hpathq := hl.path htree.toHoldsTree hsize hc
    rw [hq0] at hpathq
    exact htree.not_childless hpathq hlong ((hl.childless_iff htree.toHoldsTree hc).mpr hleaf)

/-- **The extracted paths around one of them.** -/
theorem extractLeafPaths_split {parent : ℕ → ℕ} (h : HoldsTree tree root size)
    (hsize : size ≤ r.token.length)
    (hl : Lists tree root size lastToken r.token.length order r.token parent)
    (hm : Masks parent r.token.length r.mask) (h0 : 0 < p) (hp : p < size)
    (hleaf : ∀ k, 0 < k → k < size → parent k ≠ p) (hne : tokenPath r.token parent p ≠ [0]) :
    ∃ front back, r.extractLeafPaths = front ++ tokenPath r.token parent p :: back ∧
      ∀ w, w ∈ front ↔ w ≠ [0] ∧ ∃ q, 0 < q ∧ q < p ∧ (∀ k, 0 < k → k < size → parent k ≠ q) ∧
        tokenPath r.token parent q = w := by
  have hat := (leafPathAt_eq_some_iff h hsize hl hm h0 (hp.trans_le hsize)).mpr ⟨hp, hleaf, hne, rfl⟩
  have hsplit : List.range' 1 (r.token.length - 1) =
      List.range' 1 (p - 1) ++ p :: List.range' (p + 1) (r.token.length - 1 - p) := by
    rw [show r.token.length - 1 = (p - 1) + (1 + (r.token.length - 1 - p)) by omega,
      ← range'_append_1, ← range'_append_1]
    rw [show 1 + (p - 1) = p by omega, show p - 1 + (1 + (r.token.length - 1 - p)) - p =
      r.token.length - 1 - p by omega]
    rfl
  refine ⟨(List.range' 1 (p - 1)).filterMap (r.leafPathAt parent),
    (List.range' (p + 1) (r.token.length - 1 - p)).filterMap (r.leafPathAt parent), ?_, fun w => ?_⟩
  · rw [extractLeafPaths_eq hm hl.parent_lt, hsplit, filterMap_append, filterMap_cons_some hat]
  · rw [mem_filterMap]
    constructor
    · rintro ⟨q, hq, hsome⟩
      rw [mem_range'_1] at hq
      obtain ⟨-, hleaf, hne, hw⟩ := (leafPathAt_eq_some_iff h hsize hl hm (by omega) (by omega)).mp hsome
      exact ⟨hne, q, by omega, by omega, hleaf, hw⟩
    · rintro ⟨hne, q, hq0, hq, hleaf, hw⟩
      exact ⟨q, mem_range'_1.mpr (by omega),
        (leafPathAt_eq_some_iff h hsize hl hm hq0 (by omega)).mpr ⟨by omega, hleaf, hne, hw⟩⟩

end Leaves

end NgramResult

end Sglang
