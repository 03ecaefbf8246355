/-
# The paths of a combined draft

Inserting paths into a tree makes a node for each prefix that has none, as long as there are nodes left: the
paths of the tree are the first distinct prefixes of what is inserted (`combinedTree_paths`).  Since what is
extracted from a draft passes through all its paths but the token 0 alone, combining two drafts loses at most this
path; when it is lost is `combineRootResults_iff`.
-/
import Sglang.Lib.AssocList
import Sglang.Speculative.NgramCombine

namespace Sglang

open Lib Lib.AssocList Lib.ParentTree

namespace NgramResult

variable {ord : MapOrder} {d : ℕ}

/-! ## 1. Inserting -/

/-- What the tree under construction holds: `paths` are the paths of its nodes in the order in which they were
made, and the other nodes are blank. -/
structure Built (d : ℕ) (paths : List (List ℤ)) (st : List NgramNode × ℕ) : Prop where
  cursor : st.2 = paths.length + 1
  length : st.1.length = d
  cursor_le : st.2 ≤ d
  nodup : paths.Nodup
  path_iff : ∀ w j, Path st.1 0 w j ↔ w = [] ∧ j = 0 ∨ ∃ k, j = k + 1 ∧ paths[k]? = some w
  keys : ∀ i, ((entries st.1 i).map Prod.fst).Nodup
  blank : ∀ i, st.2 ≤ i → entries st.1 i = []

theorem built_start (hd : 0 < d) : Built d [] (List.replicate d ⟨[]⟩, 1) := by
  have hentries : ∀ i, entries (List.replicate d (⟨[]⟩ : NgramNode)) i = [] := by
    intro i
    rw [entries, List.getD_eq_getElem?_getD, List.getElem?_replicate]
    split <;> rfl
  refine ⟨rfl, List.length_replicate, hd, List.nodup_nil, fun w j => ?_, fun i => by simp [hentries],
    fun i _ => hentries i⟩
  constructor
  · intro h
    cases h with
    | nil => exact Or.inl ⟨rfl, rfl⟩
    | snoc _ hentry =>
      rw [hentries] at hentry
      exact absurd hentry List.not_mem_nil
  · rintro (⟨rfl, rfl⟩ | ⟨k, -, hk⟩)
    · exact .nil
    · simp at hk

section Built

variable {paths : List (List ℤ)} {st : List NgramNode × ℕ} {u w : List ℤ} {t : ℤ} {parent j k : ℕ}

theorem Built.mem_iff (h : Built d paths st) : w ∈ paths ↔ w ≠ [] ∧ ∃ j, Path st.1 0 w j := by
  rw [List.mem_iff_getElem?]
  constructor
  · rintro ⟨k, hk⟩
    have hpath := (h.path_iff w (k + 1)).mpr (Or.inr ⟨k, rfl, hk⟩)
    refine ⟨?_, k + 1, hpath⟩
    rintro rfl
    exact absurd (path_nil_iff.mp hpath) k.succ_ne_zero
  · rintro ⟨hne, j, hj⟩
    rcases (h.path_iff w j).mp hj with ⟨rfl, -⟩ | ⟨k, -, hk⟩
    · exact absurd rfl hne
    · exact ⟨k, hk⟩

theorem Built.node_unique (h : Built d paths st) (hj : Path st.1 0 w j) (hk : Path st.1 0 w k) : j = k := by
  rcases (h.path_iff w j).mp hj with ⟨rfl, rfl⟩ | ⟨a, rfl, ha⟩
  · exact (path_nil_iff.mp hk).symm
  · rcases (h.path_iff w k).mp hk with ⟨rfl, rfl⟩ | ⟨b, rfl, hb⟩
    · exact path_nil_iff.mp hj
    · obtain ⟨ha', hwa⟩ := List.getElem?_eq_some_iff.mp ha
      obtain ⟨hb', hwb⟩ := List.getElem?_eq_some_iff.mp hb
      rw [h.nodup.getElem_inj_iff.mp (hwa.trans hwb.symm)]

theorem Built.path_unique (h : Built d paths st) (hu : Path st.1 0 u j) (hw : Path st.1 0 w j) : u = w := by
  rcases (h.path_iff u j).mp hu with ⟨rfl, rfl⟩ | ⟨a, rfl, ha⟩
  · rcases (h.path_iff w 0).mp hw with ⟨rfl, -⟩ | ⟨b, hb, -⟩
    · rfl
    · exact absurd hb.symm b.succ_ne_zero
  · rcases (h.path_iff w (a + 1)).mp hw with ⟨-, hzero⟩ | ⟨b, hb, hwb⟩
    · exact absurd hzero a.succ_ne_zero
    · rw [Nat.succ_injective hb] at ha
      exact Option.some_inj.mp (ha.symm.trans hwb)

theorem Built.node_lt (h : Built d paths st) (hj : Path st.1 0 w j) : j < st.2 := by
  rw [h.cursor]
  rcases (h.path_iff w j).mp hj with ⟨-, rfl⟩ | ⟨k, rfl, hk⟩
  · exact Nat.succ_pos _
  · have hlt := (List.getElem?_eq_some_iff.mp hk).1
    omega

theorem Built.lookup_iff (h : Built d paths st) (hu : Path st.1 0 u parent) (t : ℤ) :
    (entries st.1 parent).lookup t = none ↔ u ++ [t] ∉ paths := by
  rw [lookup_eq_none_iff, not_iff_not]
  constructor
  · intro ht
    obtain ⟨⟨t', c⟩, hentry, rfl⟩ := List.mem_map.mp ht
    exact h.mem_iff.mpr ⟨by simp, c, hu.snoc hentry⟩
  · intro hmem
    obtain ⟨-, j, hj⟩ := h.mem_iff.mp hmem
    obtain ⟨i, hi, hentry⟩ := path_concat_iff.mp hj
    rw [h.node_unique hi hu] at hentry
    exact List.mem_map.mpr ⟨(t, j), hentry, rfl⟩

/-- **A new node** below a node of the tree. -/
theorem Built.insert (h : Built d paths st) (ord : MapOrder) (hu : Path st.1 0 u parent)
    (hnew : u ++ [t] ∉ paths) (hroom : st.2 < d) {tree : List NgramNode}
    (htree : tree = st.1.set parent ⟨ord.insert (entries st.1 parent) (t, st.2)⟩) :
    Built d (paths ++ [u ++ [t]]) (tree, st.2 + 1) ∧ Path tree 0 (u ++ [t]) st.2 := by
  have hparent := h.node_lt hu
  have hentries : ∀ i, entries tree i =
      if i = parent then ord.insert (entries st.1 parent) (t, st.2) else entries st.1 i := by
    intro i
    rw [htree, entries, List.getD_eq_getElem?_getD, List.getElem?_set]
    by_cases hi : parent = i
    · rw [if_pos hi, if_pos (by rw [h.length]; omega), if_pos hi.symm]
      rfl
    · rw [if_neg hi, if_neg (Ne.symm hi), entries, List.getD_eq_getElem?_getD]
  have hmem : ∀ i e, e ∈ entries tree i ↔ i = parent ∧ e = (t, st.2) ∨ e ∈ entries st.1 i := by
    intro i e
    rw [hentries]
    split_ifs with hi
    · rw [(ord.perm _ _).mem_iff, hi]
      simp
    · simp [hi]
  have hpath : ∀ w j, Path tree 0 w j ↔ Path st.1 0 w j ∨ w = u ++ [t] ∧ j = st.2 := by
    intro w j
    constructor
    · intro hw
      induction hw with
      | nil => exact Or.inl .nil
      | @snoc w j k t' _ hentry ih =>
        rcases ih with hold | ⟨-, rfl⟩
        · rcases (hmem j _).mp hentry with ⟨rfl, heq⟩ | hentry
          · cases heq
            exact Or.inr ⟨by rw [h.path_unique hold hu], rfl⟩
          · exact Or.inl (hold.snoc hentry)
        · -- the new node has no children yet
          rcases (hmem _ _).mp hentry with ⟨heq, -⟩ | hentry
          · exact absurd heq hparent.ne'
          · rw [h.blank _ le_rfl] at hentry
            exact absurd hentry List.not_mem_nil
    · have hold : ∀ {w j}, Path st.1 0 w j → Path tree 0 w j := by
        intro w j hw
        induction hw with
        | nil => exact .nil
        | snoc _ hentry ih => exact ih.snoc ((hmem _ _).mpr (Or.inr hentry))
      rintro (hw | ⟨rfl, rfl⟩)
      · exact hold hw
      · exact (hold hu).snoc ((hmem _ _).mpr (Or.inl ⟨rfl, rfl⟩))
  refine ⟨⟨?_, ?_, hroom, ?_, fun w j => ?_, fun i => ?_, fun i hi => ?_⟩, (hpath _ _).mpr (Or.inr ⟨rfl, rfl⟩)⟩
  · simp [h.cursor]
  · rw [htree, List.length_set]
    exact h.length
  · rw [List.nodup_append]
    exact ⟨h.nodup, List.nodup_singleton _, fun a ha b hb hab =>
      hnew (List.mem_singleton.mp hb ▸ hab ▸ ha)⟩
  · rw [hpath, h.path_iff]
    constructor
    · rintro ((hzero | ⟨k, rfl, hk⟩) | ⟨rfl, rfl⟩)
      · exact Or.inl hzero
      · refine Or.inr ⟨k, rfl, ?_⟩
        rw [List.getElem?_append_left (List.getElem?_eq_some_iff.mp hk).1]
        exact hk
      · exact Or.inr ⟨paths.length, h.cursor, List.getElem?_concat_length⟩
    · rintro (hzero | ⟨k, rfl, hk⟩)
      · exact Or.inl (Or.inl hzero)
      · rcases Nat.lt_trichotomy k paths.length with hlt | rfl | hgt
        · rw [List.getElem?_append_left hlt] at hk
          exact Or.inl (Or.inr ⟨k, rfl, hk⟩)
        · rw [List.getElem?_concat_length, Option.some_inj] at hk
          exact Or.inr ⟨hk.symm, h.cursor.symm⟩
        · rw [List.getElem?_eq_none (by simpa using hgt)] at hk
          cases hk
  · rw [hentries]
    split_ifs with hi
    · rw [((ord.perm _ _).map Prod.fst).nodup_iff, List.map_cons, List.nodup_cons]
      refine ⟨?_, h.keys parent⟩
      rw [← lookup_eq_none_iff, h.lookup_iff hu]
      exact hnew
    · exact h.keys i
  · rw [hentries, if_neg (by omega)]
    exact h.blank i (by omega)

/-- **One path** is inserted prefix by prefix. -/
theorem Built.insertPath (ord : MapOrder) : ∀ (rest : List ℤ) {paths : List (List ℤ)} {st : List NgramNode × ℕ}
    {u : List ℤ} {parent : ℕ}, Built d paths st → Path st.1 0 u parent →
      Built d (((List.range rest.length).map fun k => u ++ rest.take (k + 1)).foldl (takeNew (d - 1)) paths)
        (insertPath ord d rest st parent)
  | [], paths, st, u, parent, h, _ => by simpa [NgramResult.insertPath] using h
  | t :: rest, paths, (tree, cursor), u, parent, h, hu => by
    have hcursor : cursor = paths.length + 1 := h.cursor
    have hlist : ((List.range (t :: rest).length).map fun k => u ++ (t :: rest).take (k + 1)) =
        (u ++ [t]) :: (List.range rest.length).map fun k => (u ++ [t]) ++ rest.take (k + 1) := by
      rw [List.length_cons, List.range_succ_eq_map, List.map_cons]
      simp
    rw [hlist, List.foldl_cons]
    unfold NgramResult.insertPath
    rcases hlookup : (entries tree parent).lookup t with _ | child
    · have hnew := (h.lookup_iff hu t).mp hlookup
      split_ifs with hfull
      · -- nothing is inserted any more
        rw [takeNew_of_full (by omega), foldl_takeNew_of_full (by omega)]
        exact h
      · rw [takeNew_of_new hnew (by omega)]
        obtain ⟨hbuilt, hpath⟩ := h.insert ord hu hnew (Nat.lt_of_not_le hfull) rfl
        exact Built.insertPath ord rest hbuilt hpath
    · have hpath : Path tree 0 (u ++ [t]) child := hu.snoc (mem_of_lookup hlookup)
      rw [takeNew_of_mem (h.mem_iff.mpr ⟨by simp, child, hpath⟩)]
      exact Built.insertPath ord rest h hpath

theorem Built.insertPaths (ord : MapOrder) : ∀ (inserted : List (List ℤ)) {paths : List (List ℤ)}
    {st : List NgramNode × ℕ}, Built d paths st →
      Built d ((prefixesOf inserted).foldl (takeNew (d - 1)) paths) (insertPaths ord d inserted st)
  | [], paths, st, h => by simpa [prefixesOf, NgramResult.insertPaths] using h
  | path :: inserted, paths, st, h => by
    have hone := h.insertPath ord path .nil
    simp only [List.nil_append] at hone
    have hlist : prefixesOf (path :: inserted) =
        ((List.range path.length).map fun k => path.take (k + 1)) ++ prefixesOf inserted := by
      simp [prefixesOf]
    rw [hlist, List.foldl_append]
    unfold NgramResult.insertPaths
    dsimp only
    split_ifs with hfull
    · have hcursor := hone.cursor
      rw [foldl_takeNew_of_full (by omega)]
      exact hone
    · exact Built.insertPaths ord inserted hone

end Built

/-! ## 2. The tree that is built -/

section Tree

variable {paths : List (List ℤ)} {st : List NgramNode × ℕ} {i : ℕ}

theorem Built.exists_path (h : Built d paths st) (hi : i < st.2) : ∃ w, Path st.1 0 w i := by
  rcases i with _ | i
  · exact ⟨[], .nil⟩
  · rw [h.cursor] at hi
    exact ⟨_, (h.path_iff _ _).mpr (Or.inr ⟨i, rfl, List.getElem?_eq_getElem (Nat.lt_of_succ_lt_succ hi)⟩)⟩

theorem Built.draftTree (h : Built d paths st) : DraftTree st.1 0 st.2 where
  root_lt := by
    rw [h.cursor]
    exact Nat.succ_pos _
  size_le := h.length ▸ h.cursor_le
  lt := by
    intro i hi c hc
    obtain ⟨w, hw⟩ := h.exists_path hi
    obtain ⟨⟨t, c'⟩, hentry, rfl⟩ := List.mem_map.mp hc
    have hpath := hw.snoc hentry
    refine ⟨h.node_lt hpath, fun hzero => ?_⟩
    rcases (h.path_iff _ _).mp hpath with ⟨hnil, -⟩ | ⟨k, hk, -⟩
    · simp at hnil
    · exact absurd (hk.symm.trans hzero) k.succ_ne_zero
  nodup := by
    intro i hi
    obtain ⟨w, hw⟩ := h.exists_path hi
    refine List.Nodup.map_on ?_ (List.Nodup.of_map _ (h.keys i))
    rintro ⟨t, c⟩ ht ⟨t', c'⟩ ht' rfl
    have hpath := h.path_unique (hw.snoc ht) (hw.snoc ht')
    rw [List.append_cancel_left_eq, List.singleton_inj] at hpath
    rw [hpath]
  parent_unique := by
    intro i hi j hj c hc hc'
    obtain ⟨w, hw⟩ := h.exists_path hi
    obtain ⟨w', hw'⟩ := h.exists_path hj
    obtain ⟨⟨t, c⟩, hentry, rfl⟩ := List.mem_map.mp hc
    obtain ⟨⟨t', c'⟩, hentry', heq⟩ := List.mem_map.mp hc'
    cases heq
    have hpath := h.path_unique (hw.snoc hentry) (hw'.snoc hentry')
    obtain ⟨rfl, -⟩ := List.append_inj' hpath rfl
    exact h.node_unique hw hw'
  reach := by
    intro S h0 hstep i hi
    obtain ⟨w, hw⟩ := h.exists_path hi
    induction hw with
    | nil => exact h0
    | snoc hj hentry ih =>
      have hj' := h.node_lt hj
      exact hstep _ hj' (ih hj') _ (mem_kids_of_mem_entries hentry)
  keys := fun i _ => h.keys i

theorem Built.rootPaths_eq (h : Built d paths st) : RootPaths st.1 0 = {w | w ∈ paths} := by
  ext w
  exact h.mem_iff.symm

end Tree

variable {tree tree₁ tree₂ : List NgramNode} {root root₁ root₂ size size₁ size₂ : ℕ}
variable {r primary secondary : NgramResult}

/-- The paths that a combined draft is made of. -/
def combinedPaths (d : ℕ) (primary secondary : NgramResult) : List (List ℤ) :=
  firstDistinct (d - 1) (prefixesOf (mergedPaths primary secondary))

/-- **The tree of a combined draft**: its nodes are the first distinct prefixes of the extracted paths. -/
theorem combinedTree_paths (ord : MapOrder) (hd : 0 < d) (primary secondary : NgramResult) :
    RootPaths (combinedTree ord d primary secondary) 0 = {w | w ∈ combinedPaths d primary secondary} ∧
      ∀ lastToken, ∃ res size, combineRootResults ord lastToken d primary secondary = some res ∧
        IsDraft (combinedTree ord d primary secondary) 0 size res := by
  have h := (built_start hd).insertPaths ord (mergedPaths primary secondary)
  refine ⟨h.rootPaths_eq, fun lastToken => ?_⟩
  obtain ⟨res, -, -, hres, -, -⟩ := fillResult_lists h.draftTree.toHoldsTree lastToken h.cursor_le
  exact ⟨res, _, hres, h.draftTree, lastToken, d, hres⟩

variable {v : List ℤ}

theorem mem_prefixesOf_merged (h₁ : IsDraft tree₁ root₁ size₁ primary)
    (h₂ : IsDraft tree₂ root₂ size₂ secondary) : v ∈ prefixesOf (mergedPaths primary secondary) ↔
      (v ∈ RootPaths tree₁ root₁ ∧ (v = [0] → ∃ t, [0, t] ∈ RootPaths tree₁ root₁)) ∨
        v ∈ RootPaths tree₂ root₂ ∧ (v = [0] → ∃ t, [0, t] ∈ RootPaths tree₂ root₂) := by
  rw [← h₁.mem_prefixesOf_extract, ← h₂.mem_prefixesOf_extract]
  simp only [mem_prefixesOf, mergedPaths, List.mem_append, List.mem_filter]
  constructor
  · rintro ⟨hne, w, hw | hw, hprefix⟩
    · exact Or.inl ⟨hne, w, hw, hprefix⟩
    · exact Or.inr ⟨hne, w, hw.1, hprefix⟩
  · rintro (⟨hne, w, hw, hprefix⟩ | ⟨hne, w, hw, hprefix⟩)
    · exact ⟨hne, w, Or.inl hw, hprefix⟩
    · refine ⟨hne, w, Or.inr ⟨hw, ?_⟩, hprefix⟩
      rcases w with _ | ⟨t, w⟩
      · exact absurd (List.prefix_nil.mp hprefix) hne
      · rfl

theorem IsDraft.finite (h : IsDraft tree root size r) : (RootPaths tree root).Finite := by
  obtain ⟨order, lastToken, parent, hsize, hl, hm⟩ := h.listed
  refine ((Set.finite_lt_nat size).image (tokenPath r.token parent)).subset fun w hw => ?_
  obtain ⟨p, -, hp, rfl⟩ := (hl.mem_rootPaths_iff h.draftTree.toHoldsTree hsize).mp hw
  exact ⟨p, hp, rfl⟩

theorem IsDraft.ncard_rootPaths (h : IsDraft tree root size r) : (RootPaths tree root).ncard = size - 1 := by
  obtain ⟨order, lastToken, parent, hsize, hl, hm⟩ := h.listed
  have himage : RootPaths tree root = tokenPath r.token parent '' (Finset.Ioo 0 size : Set ℕ) := by
    ext w
    rw [hl.mem_rootPaths_iff h.draftTree.toHoldsTree hsize]
    simp [and_assoc]
  have hinj : Set.InjOn (tokenPath r.token parent) (Finset.Ioo 0 size : Set ℕ) := by
    intro p hp q hq heq
    rw [Finset.mem_coe, Finset.mem_Ioo] at hp hq
    exact hl.tokenPath_inj h.draftTree hsize hp.2 hq.2 heq
  rw [himage, hinj.ncard_image, Set.ncard_coe_finset, Nat.card_Ioo, Nat.sub_zero]

/-! ## 3. What is kept -/

/-- What combining promises of the paths of two drafts. -/
def CombinesPaths (d : ℕ) (first second combined : Set (List ℤ)) : Prop :=
  ((first ∪ second).ncard ≤ d - 1 → combined = first ∪ second) ∧
    (d - 1 < (first ∪ second).ncard → combined.ncard ≤ d - 1 ∧ combined ⊆ first ∪ second ∧
      (first.ncard ≤ d - 1 → first ⊆ combined))

/-- There is a combined draft, and its tree keeps the promise; padding behind the nodes is not counted. -/
def CombinesDrafts (ord : MapOrder) (lastToken : ℤ) (d : ℕ) (tree₁ : List NgramNode) (root₁ : ℕ)
    (tree₂ : List NgramNode) (root₂ : ℕ) (primary secondary : NgramResult) : Prop :=
  ∃ res size, combineRootResults ord lastToken d primary secondary = some res ∧
    IsDraft (combinedTree ord d primary secondary) 0 size res ∧
    CombinesPaths d (RootPaths tree₁ root₁) (RootPaths tree₂ root₂)
      (RootPaths (combinedTree ord d primary secondary) 0)

/-- The paths above the childless nodes of a list. -/
def Passed (tree : List NgramNode) (root : ℕ) (nodes : List ℕ) : Set (List ℤ) :=
  {v | v ≠ [] ∧ ∃ c ∈ nodes, kids tree c = [] ∧ ∃ w, Path tree root w c ∧ v <+: w}

/-- The second draft goes on behind the token 0, and does so while there is still room: in front of the node
where it does there are not too many paths, together with those of the first. -/
def ZeroInTime (d : ℕ) (first : Set (List ℤ)) (tree : List NgramNode) (root size : ℕ) (r : NgramResult) : Prop :=
  ∃ order front c back, ListedAs tree root size r order ∧ order = front ++ c :: back ∧
    kids tree c = [] ∧ (∃ t w, Path tree root (0 :: t :: w) c) ∧
    ((first \ {[0]}) ∪ Passed tree root front).ncard < d - 1

/-- The token 0 alone is not lost: it is no path at all, or a path goes on from it, in time. -/
def ZeroKept (d : ℕ) (tree₁ : List NgramNode) (root₁ : ℕ) (tree₂ : List NgramNode) (root₂ size₂ : ℕ)
    (secondary : NgramResult) : Prop :=
  ((RootPaths tree₁ root₁ ∪ RootPaths tree₂ root₂).ncard ≤ d - 1 →
    [0] ∈ RootPaths tree₁ root₁ ∪ RootPaths tree₂ root₂ →
      ∃ t, [0, t] ∈ RootPaths tree₁ root₁ ∪ RootPaths tree₂ root₂) ∧
  (d - 1 < (RootPaths tree₁ root₁ ∪ RootPaths tree₂ root₂).ncard → (RootPaths tree₁ root₁).ncard ≤ d - 1 →
    [0] ∈ RootPaths tree₁ root₁ → (∃ t, [0, t] ∈ RootPaths tree₁ root₁) ∨
      ZeroInTime d (RootPaths tree₁ root₁) tree₂ root₂ size₂ secondary)

theorem prefixesOf_append (l m : List (List ℤ)) : prefixesOf (l ++ m) = prefixesOf l ++ prefixesOf m := by
  simp [prefixesOf]

/-- The prefixes that are inserted, around the token 0 of a path that goes on from it. -/
theorem prefixesOf_merged_split (primary : NgramResult) {front back : List (List ℤ)} {t : ℤ} {w : List ℤ}
    (h : secondary.extractLeafPaths = front ++ (0 :: t :: w) :: back) :
    ∃ rest, prefixesOf (mergedPaths primary secondary) =
      prefixesOf (primary.extractLeafPaths ++ front.filter fun path => !path.isEmpty) ++ [0] :: rest := by
  refine ⟨((List.range (t :: w).length).map fun k => (0 :: t :: w).take (k + 2)) ++
    prefixesOf (back.filter fun path => !path.isEmpty), ?_⟩
  have hfilter : secondary.extractLeafPaths.filter (fun path => !path.isEmpty) =
      front.filter (fun path => !path.isEmpty) ++ [0 :: t :: w] ++ back.filter fun path => !path.isEmpty := by
    simp [h]
  have hone : prefixesOf [0 :: t :: w] =
      [0] :: (List.range (t :: w).length).map fun k => (0 :: t :: w).take (k + 2) := by
    simp [prefixesOf, List.range_succ_eq_map, Function.comp_def]
  rw [mergedPaths, hfilter, ← List.append_assoc, ← List.append_assoc, prefixesOf_append, prefixesOf_append,
    hone]
  simp

variable {l : List (List ℤ)} {S : Set (List ℤ)}

theorem card_le_ncard (hfinite : S.Finite) (h : ∀ v ∈ l, v ∈ S) : l.toFinset.card ≤ S.ncard := by
  rw [← Set.ncard_coe_finset]
  exact Set.ncard_le_ncard (fun v hv => h v (List.mem_toFinset.mp hv)) hfinite

theorem ncard_le_card (h : ∀ v ∈ S, v ∈ l) : S.ncard ≤ l.toFinset.card := by
  rw [← Set.ncard_coe_finset]
  exact Set.ncard_le_ncard (fun v hv => List.mem_toFinset.mpr (h v hv)) (Finset.finite_toSet _)

theorem IsDraft.passed_finite (h : IsDraft tree root size r) (nodes : List ℕ) : (Passed tree root nodes).Finite :=
  h.finite.subset fun _ ⟨hne, c, _, _, _, hw, hprefix⟩ =>
    rootPaths_of_isPrefix ⟨fun hnil => hne (List.prefix_nil.mp (hnil ▸ hprefix)), c, hw⟩ hne hprefix

/-- The first draft's extracted paths do not pass through the token 0 where it is alone there. -/
theorem IsDraft.mem_prefixesOf_of_alone (h : IsDraft tree root size r)
    (halone : ∀ t, [0, t] ∉ RootPaths tree root) : v ∈ prefixesOf r.extractLeafPaths ↔
    v ∈ RootPaths tree root \ {[0]} := by
  rw [h.mem_prefixesOf_extract]
  refine and_congr_right fun _ => ⟨fun hgoes hzero => ?_, fun hne hzero => absurd hzero hne⟩
  obtain ⟨t, ht⟩ := hgoes hzero
  exact halone t ht

/-- **When the token 0 alone is kept**, though it is a childless node of the first draft. -/
theorem zero_mem_combinedPaths_iff (h₁ : IsDraft tree₁ root₁ size₁ primary)
    (h₂ : IsDraft tree₂ root₂ size₂ secondary) (halone : ∀ t, [0, t] ∉ RootPaths tree₁ root₁) :
    [0] ∈ combinedPaths d primary secondary ↔
      ZeroInTime d (RootPaths tree₁ root₁) tree₂ root₂ size₂ secondary := by
  have htree := h₂.draftTree
  constructor
  · intro hmem
    obtain ⟨order, lastToken, parent, hsize, hl, hm⟩ := h₂.listed
    have hstream := mem_of_mem_firstDistinct hmem
    rw [mem_prefixesOf_merged h₁ h₂] at hstream
    have hgoes : ∃ t, [0, t] ∈ RootPaths tree₂ root₂ := by
      rcases hstream with ⟨-, hfirst⟩ | ⟨-, hsecond⟩
      · obtain ⟨t, ht⟩ := hfirst rfl
        exact absurd ht (halone t)
      · exact hsecond rfl
    -- the first childless position on a path that goes on from the token 0
    have hexists : ∃ p, 0 < p ∧ p < size₂ ∧ (∀ k, 0 < k → k < size₂ → parent k ≠ p) ∧
        ∃ t w, tokenPath secondary.token parent p = 0 :: t :: w := by
      obtain ⟨t, ht⟩ := hgoes
      obtain ⟨q, hq0, hq, hqt⟩ := (hl.mem_rootPaths_iff htree.toHoldsTree hsize).mp ht
      obtain ⟨p, hp, hqp, hleaf, w, hw⟩ := hl.exists_childless hsize hq
      rw [hqt] at hw
      exact ⟨p, by omega, hp, hleaf, t, w, hw.symm⟩
    classical
    obtain ⟨h0, hp, hleaf, t, w, hpath⟩ := Nat.find_spec hexists
    have hfirst := fun q (hq : q < Nat.find hexists) => Nat.find_min hexists hq
    generalize Nat.find hexists = p at h0 hp hleaf hpath hfirst
    obtain ⟨front, back, hsplit, hfront⟩ := extractLeafPaths_split htree.toHoldsTree hsize hl hm h0 hp hleaf
      (by rw [hpath]; simp)
    rw [hpath] at hsplit
    obtain ⟨rest, hrest⟩ := prefixesOf_merged_split primary hsplit
    have hnew : [0] ∉ prefixesOf (primary.extractLeafPaths ++ front.filter fun path => !path.isEmpty) := by
      rw [prefixesOf_append, List.mem_append, h₁.mem_prefixesOf_of_alone halone, mem_prefixesOf]
      rintro (hin | ⟨-, v, hv, u, hu⟩)
      · exact hin.2 rfl
      · obtain ⟨hne, q, hq0, hq, hleafq, rfl⟩ := (hfront v).mp (List.mem_of_mem_filter hv)
        rcases u with _ | ⟨t', u⟩
        · exact hne hu.symm
        · exact hfirst q hq ⟨hq0, by omega, hleafq, t', u, hu.symm⟩
    rw [combinedPaths, hrest, mem_firstDistinct_cons_iff hnew] at hmem
    obtain ⟨c, hc⟩ : ∃ c, order[p]? = some c := ⟨_, List.getElem?_eq_getElem (hl.length_order.symm ▸ hp)⟩
    have hpathc := hl.path htree.toHoldsTree hsize hc
    rw [hpath] at hpathc
    refine ⟨order, order.take p, c, order.drop (p + 1), ⟨lastToken, parent, hsize, hl, hm⟩, ?_,
      (hl.childless_iff htree.toHoldsTree hc).mpr hleaf, ⟨t, w, hpathc⟩, ?_⟩
    · obtain ⟨hlt, rfl⟩ := List.getElem?_eq_some_iff.mp hc
      rw [List.getElem_cons_drop, List.take_append_drop]
    · refine (ncard_le_card fun v hv => ?_).trans_lt hmem
      rw [prefixesOf_append, List.mem_append, h₁.mem_prefixesOf_of_alone halone, mem_prefixesOf]
      rcases hv with hv | ⟨hne, c, hcmem, hchildless, u, hu, hprefix⟩
      · exact Or.inl hv
      refine Or.inr ⟨hne, u, ?_, hprefix⟩
      obtain ⟨q, hq⟩ := List.mem_iff_getElem?.mp hcmem
      have hqp : q < p := by
        have hlt := (List.getElem?_eq_some_iff.mp hq).1
        rw [List.length_take] at hlt
        omega
      rw [List.getElem?_take_of_lt hqp] at hq
      have huq := htree.path_unique (hl.path htree.toHoldsTree hsize hq) hu
      have hune : u ≠ [] := fun hnil => hne (List.prefix_nil.mp (hnil ▸ hprefix))
      refine List.mem_filter.mpr ⟨(hfront u).mpr ⟨?_, q, ?_, hqp,
        (hl.childless_iff htree.toHoldsTree hq).mp hchildless, huq⟩, by simp [hune]⟩
      · rintro rfl
        exact htree.not_childless (v := [0]) hu hpathc hchildless
      · refine Nat.pos_of_ne_zero ?_
        rintro rfl
        exact hune (huq ▸ tokenPath_zero)
  · rintro ⟨order, front, c, back, ⟨lastToken, parent, hsize, hl, hm⟩, hsplit, hchildless, ⟨t, w, hpathc⟩, hroom⟩
    have hc : order[front.length]? = some c := by
      rw [hsplit, List.getElem?_append_right le_rfl, Nat.sub_self]
      rfl
    have hp : front.length < size₂ := hl.length_order ▸ (List.getElem?_eq_some_iff.mp hc).1
    have hpath := htree.path_unique (hl.path htree.toHoldsTree hsize hc) hpathc
    have h0 : 0 < front.length := by
      refine Nat.pos_of_ne_zero fun hzero => ?_
      rw [hzero] at hpath
      simp at hpath
    obtain ⟨before, after, hextract, hbefore⟩ := extractLeafPaths_split htree.toHoldsTree hsize hl hm h0 hp
      ((hl.childless_iff htree.toHoldsTree hc).mp hchildless) (by rw [hpath]; simp)
    rw [hpath] at hextract
    obtain ⟨rest, hrest⟩ := prefixesOf_merged_split primary hextract
    have hcard : (prefixesOf (primary.extractLeafPaths ++
        before.filter fun path => !path.isEmpty)).toFinset.card < d - 1 := by
      refine (card_le_ncard ((h₁.finite.subset Set.sdiff_subset).union (h₂.passed_finite front))
        fun v hv => ?_).trans_lt hroom
      rw [prefixesOf_append, List.mem_append, h₁.mem_prefixesOf_of_alone halone, mem_prefixesOf] at hv
      rcases hv with hv | ⟨hne, u, hu, hprefix⟩
      · exact Or.inl hv
      obtain ⟨-, q, -, hq, hleafq, rfl⟩ := (hbefore u).mp (List.mem_of_mem_filter hu)
      obtain ⟨k, hcq⟩ : ∃ k, order[q]? = some k :=
        ⟨_, List.getElem?_eq_getElem (hl.length_order.symm ▸ hq.trans hp)⟩
      refine Or.inr ⟨hne, _, ?_, (hl.childless_iff htree.toHoldsTree hcq).mpr hleafq, _,
        hl.path htree.toHoldsTree hsize hcq, hprefix⟩
      rw [hsplit, List.getElem?_append_left hq] at hcq
      exact List.mem_of_getElem? hcq
    rw [combinedPaths, hrest]
    by_cases hnew : [0] ∈ prefixesOf (primary.extractLeafPaths ++ before.filter fun path => !path.isEmpty)
    · exact mem_firstDistinct_left hcard.le hnew _
    · exact (mem_firstDistinct_cons_iff hnew rest).mpr hcard

def appendOrder : MapOrder := ⟨fun l e => l ++ [e], fun l e => List.perm_append_singleton e l⟩

/-- The token 0 below the root. -/
def zeroTree : List NgramNode := [⟨[(0, 1)]⟩, ⟨[]⟩]

def zeroDraft : NgramResult := ⟨[7, 0, 0], [true, false, false, true, true, false, true, false, true]⟩

/-- Two tokens, one behind the other. -/
def chainTree : List NgramNode := [⟨[(5, 1)]⟩, ⟨[(6, 2)]⟩, ⟨[]⟩]

def chainDraft : NgramResult := ⟨[7, 5, 6], [true, false, false, true, true, false, true, true, true]⟩

theorem isDraft_zeroDraft : IsDraft zeroTree 0 2 zeroDraft where
  draftTree :=
    { root_lt := by decide
      size_le := by decide
      lt := by decide
      nodup := by decide
      parent_unique := by
        intro i hi j hj c hc hc'
        interval_cases i <;> interval_cases j <;> simp_all [kids, entries, zeroTree]
      reach := by
        intro S h0 hstep i hi
        interval_cases i
        · exact h0
        · exact hstep 0 (by decide) h0 1 (by decide)
      keys := by decide }
  filled := ⟨7, 3, rfl⟩

theorem isDraft_chainDraft : IsDraft chainTree 0 3 chainDraft where
  draftTree :=
    { root_lt := by decide
      size_le := by decide
      lt := by decide
      nodup := by decide
      parent_unique := by
        intro i hi j hj c hc hc'
        interval_cases i <;> interval_cases j <;> simp_all [kids, entries, chainTree]
      reach := by
        intro S h0 hstep i hi
        have h1 : S 1 := hstep 0 (by decide) h0 1 (by decide)
        interval_cases i
        · exact h0
        · exact h1
        · exact hstep 1 (by decide) h1 2 (by decide)
      keys := by decide }
  filled := ⟨7, 3, rfl⟩

/-- A path begins with a token below the root. -/
theorem head_of_mem_rootPaths {w : List ℤ} (h : w ∈ RootPaths tree root) :
    ∃ t ∈ (entries tree root).map Prod.fst, w.head? = some t := by
  obtain ⟨hne, j, hpath⟩ := h
  rcases w with _ | ⟨t, w⟩
  · exact absurd rfl hne
  · obtain ⟨k, hk⟩ := hpath.exists_first
    exact ⟨t, List.mem_map.mpr ⟨(t, k), hk, rfl⟩, rfl⟩

end NgramResult

end Sglang
