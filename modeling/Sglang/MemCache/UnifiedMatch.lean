/-
# Where a match of `UnifiedRadixCache` ends

`_match_prefix_helper` asks every node of its walk whether the match may end there: `all(v(node) for v
in validators)`.  The validator of the sliding window counts the units since the last gap, and `all`
leaves it out where a validator before it says no.  With the Mamba component before the sliding window
it counts the nodes with a Mamba state only, so the match can end where the window has a gap.
-/
import Sglang.Lib.OptionLoops
import Sglang.Lib.Runs
import Sglang.MemCache.UnifiedRadixCache

namespace Sglang

open Lib List Option Function

/-- The components in another order. -/
def UnifiedConfig.permute {σ : Type} (cfg : UnifiedConfig σ) (cts : List ComponentType)
    (h : cts.Perm cfg.treeComponents) : UnifiedConfig σ :=
  { cfg with
    treeComponents := cts
    full_mem := h.mem_iff.mpr cfg.full_mem
    nodup := h.nodup_iff.mpr cfg.nodup }

variable {cts : List ComponentType}

@[simp] theorem UnifiedConfig.permute_pageSize {σ : Type} (cfg : UnifiedConfig σ)
    (h : cts.Perm cfg.treeComponents) :
    (cfg.permute cts h).pageSize = cfg.pageSize := rfl

@[simp] theorem UnifiedConfig.permute_treeComponents {σ : Type} (cfg : UnifiedConfig σ)
    (h : cts.Perm cfg.treeComponents) :
    (cfg.permute cts h).treeComponents = cts := rfl

namespace UnifiedRadixCache

variable {σ : Type} {cfg : UnifiedConfig σ} {u : UnifiedRadixCache σ}

/-! ## 1. The order of the components and a split -/

variable {ct' : ComponentType}

theorem modifyData_comm {ct : ComponentType} (h : ct ≠ ct') (u : UnifiedRadixCache σ)
    (n m : NodeId) (f g : ComponentData σ → ComponentData σ) :
    (u.modifyData n ct f).modifyData m ct' g = (u.modifyData m ct' g).modifyData n ct f := by
  simp only [modifyData, modify, UnifiedRadixCache.mk.injEq, and_true]
  by_cases hnm : n = m
  · subst hnm
    simp only [update_self, update_idem, UnifiedTreeNode.modifyData,
      update_of_ne h, update_of_ne h.symm]
    rw [update_comm h]
  · rw [update_of_ne hnm, update_of_ne (Ne.symm hnm), update_comm hnm]

theorem data_modifyData_ne {ct : ComponentType} (h : ct' ≠ ct) (u : UnifiedRadixCache σ)
    (n m : NodeId) (f : ComponentData σ → ComponentData σ) :
    (u.modifyData n ct f).data m ct' = u.data m ct' := by
  by_cases hnm : m = n
  · subst hnm
    simp [modifyData, data, UnifiedTreeNode.modifyData, h]
  · rw [data, data, modifyData, modify_nodes_ne _ _ hnm]

@[simp] theorem key_modifyData (u : UnifiedRadixCache σ) (n m : NodeId) (ct : ComponentType)
    (f : ComponentData σ → ComponentData σ) :
    ((u.modifyData n ct f).nodes m).key = (u.nodes m).key := by
  by_cases hnm : m = n
  · subst hnm
    simp [modifyData, UnifiedTreeNode.modifyData]
  · rw [modifyData, modify_nodes_ne _ _ hnm]

theorem onHostLru_modifyData (u : UnifiedRadixCache σ) (n : NodeId) (ct ct' : ComponentType)
    (f : ComponentData σ → ComponentData σ) (op : List NodeId → Option (List NodeId)) :
    (u.modifyData n ct f).onHostLru ct' op = (u.onHostLru ct' op).map (·.modifyData n ct f) := by
  simp only [onHostLru, modifyData, modify, bind_eq_bind, Option.pure_def]
  cases op (u.hostLruLists ct') <;> rfl

theorem redistributeSwa_modifyData {ct : ComponentType} (h : ct ≠ .swa) (u : UnifiedRadixCache σ)
    (newParent child n : NodeId) (f : ComponentData σ → ComponentData σ) :
    (u.modifyData n ct f).redistributeSwa newParent child
      = (u.redistributeSwa newParent child).map (·.modifyData n ct f) := by
  simp only [redistributeSwa, data_modifyData_ne h.symm, key_modifyData, modifyData_comm h,
    onHostLru_modifyData, bind_eq_bind, Option.pure_def]
  split
  · rw [bind_map, Option.map_bind]
    rfl
  · rfl

variable {u' : UnifiedRadixCache σ} {newParent : NodeId}

theorem data_redistributeSwa {ct : ComponentType} (h : ct ≠ .swa) {u : UnifiedRadixCache σ}
    {child : NodeId} (hu : u.redistributeSwa newParent child = some u') (n : NodeId) :
    u'.data n ct = u.data n ct ∧ (u'.nodes n).key = (u.nodes n).key := by
  simp only [redistributeSwa, bind_eq_bind, Option.pure_def] at hu
  split at hu
  · simp only [onHostLru, bind_eq_bind, Option.pure_def, bind_eq_some_iff] at hu
    obtain ⟨_, ⟨l, -, h₁⟩, hu⟩ := hu
    cases h₁
    cases hu
    exact ⟨(data_modifyData_ne h _ _ _ _).trans (data_modifyData_ne h _ _ _ _),
      (key_modifyData _ _ _ _ _).trans (key_modifyData _ _ _ _ _)⟩
  · cases hu
    exact ⟨(data_modifyData_ne h _ _ _ _).trans (data_modifyData_ne h _ _ _ _),
      (key_modifyData _ _ _ _ _).trans (key_modifyData _ _ _ _ _)⟩

variable {x y : ComponentType}

/-- **The components share out their data** in any order. -/
theorem redistributeOnNodeSplit_comm (newParent child : NodeId) (hxy : x ≠ y)
    (u : UnifiedRadixCache σ) :
    (u.redistributeOnNodeSplit newParent child x).bind (·.redistributeOnNodeSplit newParent child y)
      = (u.redistributeOnNodeSplit newParent child y).bind
        (·.redistributeOnNodeSplit newParent child x) := by
  have hfull : (ComponentType.full) ≠ .mamba := by decide
  have hfs : (ComponentType.full) ≠ .swa := by decide
  have hms : (ComponentType.mamba) ≠ .swa := by decide
  have hfullMamba : (u.redistributeFull newParent child).redistributeMamba newParent
      = (u.redistributeMamba newParent).redistributeFull newParent child := by
    simp [redistributeFull, redistributeMamba, data_modifyData_ne hfull, modifyData_comm hfull]
  have hfullSwa : (u.redistributeFull newParent child).redistributeSwa newParent child
      = (u.redistributeSwa newParent child).map (·.redistributeFull newParent child) := by
    rw [redistributeFull, redistributeSwa_modifyData hfs, redistributeSwa_modifyData hfs,
      Option.map_map]
    refine Option.map_congr fun u' hu' => ?_
    obtain ⟨hchild, -⟩ := data_redistributeSwa hfs hu' child
    obtain ⟨-, hkey⟩ := data_redistributeSwa hfs hu' newParent
    simp [redistributeFull, hchild, hkey]
  have hmambaSwa : (u.redistributeMamba newParent).redistributeSwa newParent child
      = (u.redistributeSwa newParent child).map (·.redistributeMamba newParent) :=
    redistributeSwa_modifyData hms u newParent child newParent _
  cases x <;> cases y <;>
    simp_all [redistributeOnNodeSplit, map_eq_bind]

theorem onLru_comm (hxy : x ≠ y) (u : UnifiedRadixCache σ)
    (f g : List NodeId → Option (List NodeId)) :
    (u.onLru x f).bind (·.onLru y g) = (u.onLru y g).bind (·.onLru x f) := by
  simp only [onLru, bind_eq_bind, Option.pure_def]
  rcases hf : f (u.lruLists x) with _ | l <;> rcases hg : g (u.lruLists y) with _ | l' <;>
    simp [update_of_ne hxy, update_of_ne hxy.symm, hf, hg]
  exact update_comm hxy _ _ _

theorem forEachComponentLru_round (u : UnifiedRadixCache σ) (node : NodeId)
    (op : List NodeId → NodeId → Option (List NodeId)) (skipExisting : Bool) (ct : ComponentType) :
    (if ct = .full then some u
      else if (u.data node ct).value.isSome then
        if skipExisting ∧ node ∈ u.lruLists ct then some u
        else u.onLru ct fun l => op l node
      else some u)
      = u.onLru ct fun l =>
        if ct ≠ .full ∧ (u.data node ct).value.isSome ∧ ¬ (skipExisting ∧ node ∈ l) then op l node
        else some l := by
  have hsame : u.onLru ct some = some u := by
    simp [onLru, update_eq_self]
  have hconst : ∀ f : List NodeId → Option (List NodeId), f (u.lruLists ct) = some (u.lruLists ct) →
      some u = u.onLru ct f := fun f hf => by
    rw [← hsame, onLru, onLru, hf]
  split
  · rename_i h
    exact hconst _ (if_neg fun hc => hc.1 h)
  · rename_i h
    split
    · rename_i hv
      split
      · rename_i hs
        exact hconst _ (if_neg fun hc => hc.2.2 hs)
      · rename_i hs
        rw [onLru, onLru, if_pos ⟨h, hv, hs⟩]
    · rename_i hv
      exact hconst _ (if_neg fun hc => hv hc.2.1)

theorem forEachComponentLru_permute (h : cts.Perm cfg.treeComponents)
    (u : UnifiedRadixCache σ) (node : NodeId)
    (op : List NodeId → NodeId → Option (List NodeId)) (skipExisting : Bool) :
    u.forEachComponentLru (cfg.permute cts h) node op skipExisting
      = u.forEachComponentLru cfg node op skipExisting := by
  refine foldlM_perm h (fun x _ y _ hxy u => ?_) u
  simp only [forEachComponentLru_round]
  have hround : ∀ {z : ComponentType} {f : List NodeId → Option (List NodeId)}
      {u' : UnifiedRadixCache σ}, u.onLru z f = some u' → ∀ ct,
      (u'.onLru ct fun l => if ct ≠ .full ∧ (u'.data node ct).value.isSome ∧
          ¬ (skipExisting ∧ node ∈ l) then op l node else some l)
        = u'.onLru ct fun l => if ct ≠ .full ∧ (u.data node ct).value.isSome ∧
          ¬ (skipExisting ∧ node ∈ l) then op l node else some l := by
    intro z f u' hu' ct
    simp only [onLru, bind_eq_bind, Option.pure_def, bind_eq_some_iff] at hu'
    obtain ⟨l, -, hu'⟩ := hu'
    cases hu'
    rfl
  rw [Option.bind_congr fun u' hu' => hround hu' y, Option.bind_congr fun u' hu' => hround hu' x]
  exact onLru_comm hxy u _ _

/-- **`_split_node`** does not depend on the order of the components. -/
theorem splitNode_permute (h : cts.Perm cfg.treeComponents)
    (u : UnifiedRadixCache σ) (key : RadixKey) (child : NodeId) (splitLen : ℕ) :
    u.splitNode (cfg.permute cts h) key child splitLen = u.splitNode cfg key child splitLen := by
  have hshare : ∀ newNode (u : UnifiedRadixCache σ),
      cts.foldlM (fun u ct => u.redistributeOnNodeSplit newNode child ct) u
        = cfg.treeComponents.foldlM (fun u ct => u.redistributeOnNodeSplit newNode child ct) u :=
    fun newNode u => foldlM_perm h
      (fun x _ y _ hxy u => redistributeOnNodeSplit_comm newNode child hxy u) u
  simp [splitNode, linkUpper, forEachComponentLru_permute, hshare]

/-! ## 2. The upper half of a split -/

theorem redistributeOnNodeSplit_other {child : NodeId} {ct : ComponentType} (h : ct ≠ x)
    (hu : u.redistributeOnNodeSplit newParent child x = some u') (n : NodeId) :
    u'.data n ct = u.data n ct ∧ (u'.nodes n).key = (u.nodes n).key := by
  cases x with
  | full =>
    cases hu
    exact ⟨(data_modifyData_ne h _ _ _ _).trans (data_modifyData_ne h _ _ _ _),
      (key_modifyData _ _ _ _ _).trans (key_modifyData _ _ _ _ _)⟩
  | swa => exact data_redistributeSwa h hu n
  | mamba =>
    cases hu
    exact ⟨data_modifyData_ne h _ _ _ _, key_modifyData _ _ _ _ _⟩

theorem foldlM_redistribute_key {child : NodeId} (cts : List ComponentType) :
    ∀ {u u' : UnifiedRadixCache σ},
      cts.foldlM (fun u ct => u.redistributeOnNodeSplit newParent child ct) u = some u' →
      ∀ n, (u'.nodes n).key = (u.nodes n).key := by
  induction cts with
  | nil =>
    intro u u' hu n
    cases hu
    rfl
  | cons x cts ih =>
    intro u u' hu n
    simp only [foldlM_cons, bind_eq_bind, bind_eq_some_iff] at hu
    obtain ⟨u₁, h₁, hu⟩ := hu
    obtain ⟨ct, hct⟩ : ∃ ct, ct ≠ x := by
      cases x
      exacts [⟨.swa, by decide⟩, ⟨.full, by decide⟩, ⟨.full, by decide⟩]
    rw [ih hu n, (redistributeOnNodeSplit_other hct h₁ n).2]

/-- What the components other than `ct` do is no matter to `ct`. -/
theorem foldlM_redistribute_other {child : NodeId} {ct : ComponentType} (cts : List ComponentType) :
    ∀ {u u' : UnifiedRadixCache σ}, ct ∉ cts →
      cts.foldlM (fun u ct => u.redistributeOnNodeSplit newParent child ct) u = some u' →
      ∀ n, u'.data n ct = u.data n ct := by
  induction cts with
  | nil =>
    intro u u' _ hu n
    cases hu
    rfl
  | cons x cts ih =>
    intro u u' hct hu n
    simp only [foldlM_cons, bind_eq_bind, bind_eq_some_iff] at hu
    obtain ⟨u₁, h₁, hu⟩ := hu
    have hx : ct ≠ x := fun e => hct (e ▸ mem_cons_self)
    rw [ih (fun h => hct (mem_cons_of_mem _ h)) hu n, (redistributeOnNodeSplit_other hx h₁ n).1]

/-- The share of a component is what it does alone. -/
theorem foldlM_redistribute_self {child : NodeId} {ct : ComponentType} (hnodup : cts.Nodup)
    (hct : ct ∈ cts)
    (hu : cts.foldlM (fun u ct => u.redistributeOnNodeSplit newParent child ct) u = some u') :
    ∃ u₁, u.redistributeOnNodeSplit newParent child ct = some u₁ ∧
      ∀ n, u'.data n ct = u₁.data n ct := by
  have hperm := perm_cons_erase hct
  rw [foldlM_perm hperm fun x _ y _ hxy u =>
    redistributeOnNodeSplit_comm newParent child hxy u] at hu
  simp only [foldlM_cons, bind_eq_bind, bind_eq_some_iff] at hu
  obtain ⟨u₁, h₁, hu⟩ := hu
  exact ⟨u₁, h₁, foldlM_redistribute_other _ hnodup.not_mem_erase hu⟩

theorem onLru_nodes {ct : ComponentType}
    {op : List NodeId → Option (List NodeId)} (hu : u.onLru ct op = some u') :
    u'.nodes = u.nodes ∧ u'.rootNode = u.rootNode ∧ u'.counter = u.counter := by
  simp only [onLru, bind_eq_bind, Option.pure_def, bind_eq_some_iff] at hu
  obtain ⟨l, -, hu⟩ := hu
  cases hu
  exact ⟨rfl, rfl, rfl⟩

theorem forEachComponentLru_nodes {node : NodeId}
    {op : List NodeId → NodeId → Option (List NodeId)} {skipExisting : Bool}
    (hu : u.forEachComponentLru cfg node op skipExisting = some u') : u'.nodes = u.nodes := by
  rw [forEachComponentLru] at hu
  generalize cfg.treeComponents = cts at hu
  induction cts generalizing u with
  | nil =>
    cases hu
    rfl
  | cons ct cts ih =>
    rw [foldlM_cons, bind_eq_bind, forEachComponentLru_round, bind_eq_some_iff] at hu
    obtain ⟨u₁, h₁, hu⟩ := hu
    rw [ih hu, (onLru_nodes h₁).1]

variable {newNode : NodeId} {splitLen : ℕ}

/-- The new node of a split is empty until the components share out their data. -/
theorem data_linkUpper {child parent : NodeId} {restKey : ChildKey}
    (hu : u.linkUpper cfg child parent restKey splitLen = some (newNode, u')) :
    newNode = u.counter ∧ (∀ ct, u'.data newNode ct = .empty) ∧
      (∀ n ct, n ≠ newNode → u'.data n ct = u.data n ct) ∧
      (child ≠ newNode → (u'.nodes newNode).key = (u.nodes child).key.takeTo splitLen) := by
  simp only [linkUpper, bind_eq_bind, Option.pure_def, bind_eq_some_iff] at hu
  obtain ⟨u₂, h₂, hu⟩ := hu
  cases hu
  have hnodes := forEachComponentLru_nodes h₂
  have hdata : ∀ n ct, (u₂.nodes n).componentData ct
      = if n = u.counter then .empty else (u.nodes n).componentData ct := by
    intro n ct
    rw [hnodes]
    by_cases hn : n = u.counter
    · subst hn
      simp [newTreeNode, getAndIncreaseTimeCounter, UnifiedTreeNode.init]
    · simp [newTreeNode, getAndIncreaseTimeCounter, modify, hn]
  have hsame : ∀ n ct, ((u₂.modify child fun n => { n with
      parent := some u.counter
      key := (u.nodes child).key.dropTo splitLen }).nodes n).componentData ct
      = (u₂.nodes n).componentData ct := by
    intro n ct
    by_cases hn : n = child
    · subst hn
      simp
    · rw [modify_nodes_ne _ _ hn]
  refine ⟨rfl, fun ct => ?_, fun n ct hn => ?_, fun hne => ?_⟩
  · exact (hsame _ ct).trans ((hdata _ ct).trans (if_pos rfl))
  · exact (hsame n ct).trans ((hdata n ct).trans (if_neg hn))
  · refine (congrArg UnifiedTreeNode.key (modify_nodes_ne u₂ _ (Ne.symm hne))).trans ?_
    rw [hnodes]
    exact congrArg UnifiedTreeNode.key (modify_nodes_self _ _ _)

theorem data_modifyData_self (u : UnifiedRadixCache σ) (n : NodeId) (ct : ComponentType)
    (f : ComponentData σ → ComponentData σ) : (u.modifyData n ct f).data n ct = f (u.data n ct) := by
  rw [data, modifyData, modify_nodes_self]
  exact update_self ..

theorem data_modifyData_other {n m : NodeId} (h : m ≠ n) (u : UnifiedRadixCache σ)
    (ct ct' : ComponentType) (f : ComponentData σ → ComponentData σ) :
    (u.modifyData n ct f).data m ct' = u.data m ct' := by
  rw [data, modifyData, modify_nodes_ne _ _ h, data]

theorem value_redistributeFull_same (u : UnifiedRadixCache σ) (n : NodeId) :
    ((u.redistributeFull n n).data n .full).value
      = (u.data n .full).value.map (List.drop (u.nodes n).key.len) := by
  rw [redistributeFull, data_modifyData_self]

theorem value_redistributeFull_upper {child : NodeId} (h : child ≠ newParent)
    (u : UnifiedRadixCache σ) :
    ((u.redistributeFull newParent child).data newParent .full).value
      = (u.data child .full).value.map (List.take (u.nodes newParent).key.len) := by
  rw [redistributeFull, data_modifyData_other h.symm, data_modifyData_self]

theorem isSome_redistributeSwa_upper {child : NodeId}
    (h : child ≠ newParent) (hu : u.redistributeSwa newParent child = some u') :
    ((u'.data newParent .swa).value.isSome || (u'.data newParent .swa).hostValue.isSome)
      = ((u.data child .swa).value.isSome || (u.data child .swa).hostValue.isSome) := by
  have hupper : ∀ f g, ((u.modifyData newParent .swa f).modifyData child .swa g).data newParent .swa
      = f (u.data newParent .swa) := fun f g => by
    rw [data_modifyData_other h.symm, data_modifyData_self]
  simp only [redistributeSwa, onHostLru, bind_eq_bind, Option.pure_def] at hu
  split at hu
  · simp only [bind_eq_some_iff] at hu
    obtain ⟨_, ⟨l, -, h₁⟩, hu⟩ := hu
    cases h₁
    cases hu
    refine (congrArg (fun d : ComponentData σ => d.value.isSome || d.hostValue.isSome)
      (hupper _ _)).trans ?_
    simp
  · cases hu
    rw [hupper]
    simp

/-- The upper half holds the first part of the slots, is in the window if the node was, and has no Mamba
state. -/
structure UpperHalf (cfg : UnifiedConfig σ) (u u' : UnifiedRadixCache σ) (child newNode : NodeId)
    (splitLen : ℕ) : Prop where
  eq_counter : newNode = u.counter
  len : (u'.nodes newNode).key.len = splitLen
  full : (u'.data newNode .full).value = (u.data child .full).value.map (List.take splitLen)
  swa : .swa ∈ cfg.treeComponents →
    ((u'.data newNode .swa).value.isSome || (u'.data newNode .swa).hostValue.isSome)
      = ((u.data child .swa).value.isSome || (u.data child .swa).hostValue.isSome)
  mamba : .mamba ∈ cfg.treeComponents →
    ((u'.data newNode .mamba).value.isSome || (u'.data newNode .mamba).hostValue.isSome) = false

/-- **`_split_node`** where it gives the new node slots. -/
theorem splitNode_upperHalf {key : RadixKey} {child : NodeId}
    (hu : u.splitNode cfg key child splitLen = some (newNode, u'))
    (hlen : splitLen < (u.nodes child).key.len) (hv : (u'.data newNode .full).value.isSome) :
    UpperHalf cfg u u' child newNode splitLen := by
  simp only [splitNode, bind_eq_bind, Option.pure_def, bind_eq_some_iff] at hu
  obtain ⟨parent, -, restKey, -, firstKey, -, ⟨n, u₁⟩, hlink, u₂, hshare, u₃, h₃, u₄, h₄, hu⟩ := hu
  cases hu
  obtain ⟨rfl, hempty, hold, hkey⟩ := data_linkUpper hlink
  -- the last steps set links, recency lists, leaf sets and one access time
  have hsame : ∀ n, (((u₄.touchTime child).updateEvictableLeafSets u.counter).updateEvictableLeafSets
      child |>.nodes n).componentData = (u₂.nodes n).componentData ∧
      (((u₄.touchTime child).updateEvictableLeafSets u.counter).updateEvictableLeafSets
      child |>.nodes n).key = (u₂.nodes n).key := by
    intro n
    have htouch : ((u₄.touchTime child).nodes n).componentData = (u₄.nodes n).componentData ∧
        ((u₄.touchTime child).nodes n).key = (u₄.nodes n).key := by
      by_cases hn : n = child
      · subst hn
        simp [touchTime, getAndIncreaseTimeCounter]
      · simp [touchTime, getAndIncreaseTimeCounter, modify, hn]
    have hlinked : ((u₂.modify parent fun n => { n with
        children := n.children.insert firstKey u.counter }).nodes n).componentData
          = (u₂.nodes n).componentData ∧
        ((u₂.modify parent fun n => { n with
        children := n.children.insert firstKey u.counter }).nodes n).key = (u₂.nodes n).key := by
      by_cases hn : n = parent
      · subst hn
        simp
      · rw [modify_nodes_ne _ _ hn]
        exact ⟨rfl, rfl⟩
    have hnodes : u₄.nodes = _ := (forEachComponentLru_nodes h₄).trans (forEachComponentLru_nodes h₃)
    rw [← hlinked.1, ← hlinked.2, ← hnodes]
    exact htouch
  have hkeep : ∀ ct u₅, (∀ n, u₂.data n ct = UnifiedRadixCache.data u₅ n ct) →
      (((u₄.touchTime child).updateEvictableLeafSets u.counter).updateEvictableLeafSets
        child).data u.counter ct = u₅.data u.counter ct := fun ct u₅ h =>
    (congrFun (hsame u.counter).1 ct).trans (h u.counter)
  obtain ⟨uf, hf, hfull⟩ := foldlM_redistribute_self cfg.nodup cfg.full_mem hshare
  cases hf
  have hne : child ≠ u.counter := by
    rintro rfl
    rw [hkeep _ _ hfull, value_redistributeFull_same, hempty] at hv
    cases hv
  have hlen' : (u₁.nodes u.counter).key.len = splitLen := by
    rw [hkey hne, RadixKey.len_takeTo, min_eq_left hlen.le]
  refine ⟨rfl, ?_, ?_, fun hswa => ?_, fun hmamba => ?_⟩
  · rw [(hsame _).2, foldlM_redistribute_key _ hshare]
    exact hlen'
  · rw [hkeep _ _ hfull, value_redistributeFull_upper hne, hlen', hold _ _ hne]
  · obtain ⟨us, hs, hdata⟩ := foldlM_redistribute_self cfg.nodup hswa hshare
    rw [hkeep _ _ hdata, ← hold _ _ hne]
    exact isSome_redistributeSwa_upper hne hs
  · obtain ⟨um, hm, hdata⟩ := foldlM_redistribute_self cfg.nodup hmamba hshare
    cases hm
    rw [hkeep _ _ hdata, data, redistributeMamba, modifyData]
    simp [UnifiedTreeNode.modifyData]

/-! ## 3. The walk -/

/-- What a walk shows of a node: its slots where it is on the device, and which components have a value,
on the device or on the host. -/
structure Shown (σ : Type) where
  node : NodeId
  len : ℕ
  slots : Option (List σ)
  has : ComponentType → Bool

def shown (u : UnifiedRadixCache σ) (n : NodeId) : Shown σ where
  node := n
  len := (u.nodes n).key.len
  slots := if (u.nodes n).evicted then none else (u.data n .full).value
  has := fun ct => (u.data n ct).value.isSome || (u.data n ct).hostValue.isSome

/-- The first `prefixLen` units of a node, as the node that a split makes of them. -/
def shownHalf (u : UnifiedRadixCache σ) (child : NodeId) (prefixLen : ℕ) : Shown σ where
  node := u.counter
  len := prefixLen
  slots := (u.data child .full).value.map (List.take prefixLen)
  has := fun ct => decide (ct ≠ .mamba) && (u.shown child).has ct

/-- The nodes along the key: those that it matches whole, as long as they are on the device or on the
host, and then the part that it matches of a node on the device. -/
def walk (cfg : UnifiedConfig σ) (u : UnifiedRadixCache σ) :
    ℕ → NodeId → RadixKey → ChildKey → List (Shown σ)
  | 0, _, _, _ => []
  | fuel + 1, node, key, childKey =>
    if key.len > 0 then
      match (u.nodes node).children.lookup childKey with
      | none => []
      | some child =>
        if (u.nodes child).evicted ∧ !(u.nodes child).backuped then []
        else
          match (u.nodes child).key.matchLen key cfg.pageSize with
          | none => []
          | some prefixLen =>
            if prefixLen < (u.nodes child).key.len then
              if (u.nodes child).evicted then [] else [u.shownHalf child prefixLen]
            else
              u.shown child :: (((nextChildKey cfg (key.dropTo prefixLen) childKey).map fun ck =>
                walk cfg u fuel child (key.dropTo prefixLen) ck).getD [])
    else []

variable {s : Shown σ}

namespace Shown

/-- What the validator of a component says, and the length it has then counted. -/
def ask (window : ℕ) (s : Shown σ) (len : ℕ∞) : ComponentType → Bool × ℕ∞
  | .swa => if s.has .swa then (decide ((window : ℕ∞) ≤ len + s.len), len + s.len) else (false, 0)
  | ct => (s.has ct, len)

/-- `all(v(node) for v in validators)`. -/
def askAll (window : ℕ) (s : Shown σ) : List ComponentType → ℕ∞ → Bool × ℕ∞
  | [], len => (true, len)
  | ct :: cts, len =>
    if (s.ask window len ct).1 then s.askAll window cts (s.ask window len ct).2
    else (false, (s.ask window len ct).2)

theorem askAll_congr {window : ℕ} {s' : Shown σ} (hlen : s.len = s'.len)
    (cts : List ComponentType) :
    ∀ len, (∀ ct ∈ cts, s.has ct = s'.has ct) → s.askAll window cts len = s'.askAll window cts len := by
  induction cts with
  | nil => exact fun _ _ => rfl
  | cons ct cts ih =>
    intro len h
    have hask : s.ask window len ct = s'.ask window len ct := by
      have hct := h ct mem_cons_self
      cases ct <;> simp [ask, hct, hlen]
    rw [askAll, askAll, hask, ih _ fun ct hct => h ct (mem_cons_of_mem _ hct)]

end Shown

theorem validator_eq (u : UnifiedRadixCache σ) (n : NodeId) (len : ℕ∞) (ct : ComponentType) :
    validator cfg u n len ct = (u.shown n).ask cfg.slidingWindowSize len ct := by
  cases ct with
  | full => rfl
  | swa =>
    rw [validator, Shown.ask]
    by_cases hgap : (u.data n .swa).value.isNone ∧ (u.data n .swa).hostValue.isNone
    · have hhas : (u.shown n).has .swa = false := by simpa [shown] using hgap
      rw [if_pos hgap, hhas]
      rfl
    · have hhas : (u.shown n).has .swa = true := by
        rw [← Bool.not_eq_false]
        exact fun h => hgap (by simpa [shown] using h)
      rw [if_neg hgap, if_pos hhas]
      exact Prod.ext (decide_eq_decide.mpr Iff.rfl) rfl
  | mamba => rfl

theorem validators_eq (u : UnifiedRadixCache σ) (n : NodeId) (cts : List ComponentType) :
    ∀ len, validators cfg u n cts len = (u.shown n).askAll cfg.slidingWindowSize cts len := by
  induction cts with
  | nil => exact fun _ => rfl
  | cons ct cts ih =>
    intro len
    rw [validators, Shown.askAll, validator_eq]
    simp [ih]

/-- A round of the walk: the slots are appended, and the match may end at the node. -/
def MatchWalk.see (cfg : UnifiedConfig σ) (w : MatchWalk σ) (s : Shown σ) : MatchWalk σ :=
  let value := w.value ++ s.slots.toList
  let (ok, len) := s.askAll cfg.slidingWindowSize cfg.treeComponents w.len
  if ok then ⟨value, value.length, s.node, len⟩ else { w with value := value, len := len }

theorem updateBestIfValid_eq (w : MatchWalk σ) (u : UnifiedRadixCache σ) (n : NodeId)
    (s : Shown σ) (hnode : s.node = n) (hlen : s.len = (u.shown n).len)
    (hhas : ∀ ct ∈ cfg.treeComponents, s.has ct = (u.shown n).has ct) :
    MatchWalk.updateBestIfValid cfg { w with value := w.value ++ s.slots.toList } u n
      = w.see cfg s := by
  rw [MatchWalk.updateBestIfValid, MatchWalk.see, validators_eq, Shown.askAll_congr hlen _ _ hhas,
    hnode]

/-- A node that the walk goes through is on the device or on the host. -/
theorem pushValue_eq {child : NodeId} {value value' : List (List σ)}
    (h : u.pushValue child value = some value')
    (hdead : ¬ ((u.nodes child).evicted ∧ !(u.nodes child).backuped)) :
    value' = value ++ (u.shown child).slots.toList ∧ (u.shown child).has .full := by
  rw [pushValue] at h
  by_cases hev : (u.nodes child).evicted
  · rw [if_pos hev] at h
    cases h
    have hback : (u.nodes child).backuped := by
      rw [← Bool.not_eq_false]
      exact fun hb => hdead ⟨hev, by rw [hb]; rfl⟩
    rw [UnifiedTreeNode.backuped] at hback
    exact ⟨by simp [shown, hev], by simp [shown, data, hback]⟩
  · rw [if_neg hev] at h
    obtain ⟨v, hv, rfl⟩ := map_eq_some_iff.mp h
    exact ⟨by simp [shown, hev, hv], by simp [shown, hv]⟩

/-- **The loop of `_match_prefix_helper`** sees the nodes of the walk one after the other. -/
theorem matchLoop_walk (fuel : ℕ) :
    ∀ {u u' : UnifiedRadixCache σ} {node : NodeId} {key : RadixKey} {ck : ChildKey}
      {w w' : MatchWalk σ}, matchLoop cfg fuel u node key ck w = some (w', u') →
      w' = (walk cfg u fuel node key ck).foldl (MatchWalk.see cfg) w ∧
        ∀ s ∈ walk cfg u fuel node key ck, s.has .full := by
  induction fuel with
  | zero =>
    intro u u' node key ck w w' h
    cases h
  | succ fuel ih =>
    intro u u' node key ck w w' h
    rw [matchLoop] at h
    rw [walk]
    split at h
    · rename_i hkey
      rw [if_pos hkey]
      rcases hlook : (u.nodes node).children.lookup ck with _ | child
      · rw [hlook] at h
        cases h
        exact ⟨rfl, fun s hs => absurd hs not_mem_nil⟩
      · rw [hlook] at h
        dsimp only at h ⊢
        by_cases hdead : (u.nodes child).evicted ∧ !(u.nodes child).backuped
        · rw [if_pos hdead] at h ⊢
          cases h
          exact ⟨rfl, fun s hs => absurd hs not_mem_nil⟩
        · rw [if_neg hdead] at h ⊢
          simp only [bind_eq_bind, bind_eq_some_iff] at h
          obtain ⟨prefixLen, hmatch, h⟩ := h
          rw [hmatch]
          dsimp only
          by_cases hshort : prefixLen < (u.nodes child).key.len
          · rw [if_pos hshort] at h ⊢
            by_cases hev : (u.nodes child).evicted
            · rw [if_pos hev] at h ⊢
              cases h
              exact ⟨rfl, fun s hs => absurd hs not_mem_nil⟩
            · rw [if_neg hev] at h ⊢
              simp only [bind_eq_some_iff] at h
              obtain ⟨⟨newNode, u₁⟩, hsplit, v, hv, h⟩ := h
              cases h
              have hup := splitNode_upperHalf hsplit hshort (isSome_of_eq_some hv)
              have hslots : (u.shownHalf child prefixLen).slots = some v := hup.full.symm.trans hv
              have hfull : (u.shown child).has .full := by
                have := isSome_of_eq_some hslots
                simp only [shownHalf, isSome_map] at this
                simp [shown, this]
              refine ⟨?_, fun s hs => ?_⟩
              · rw [foldl_cons]
                refine Eq.trans ?_ (updateBestIfValid_eq w u₁ newNode (u.shownHalf child prefixLen)
                  hup.eq_counter.symm hup.len.symm fun ct hct => ?_)
                · rw [hslots]
                  rfl
                · cases ct with
                  | full => simpa [shownHalf, shown, hv] using hfull
                  | swa => simpa [shownHalf, shown] using (hup.swa hct).symm
                  | mamba => simpa [shownHalf, shown] using hup.mamba hct
              · rw [mem_singleton.mp hs]
                simpa [shownHalf] using hfull
          · rw [if_neg hshort] at h ⊢
            simp only [bind_eq_some_iff] at h
            obtain ⟨value, hpush, ck', hck', h⟩ := h
            obtain ⟨hvalue, hfull⟩ := pushValue_eq hpush hdead
            obtain ⟨hw', hall⟩ := ih h
            rw [hck', map_some]
            refine ⟨?_, fun s hs => ?_⟩
            · rw [hw', hvalue]
              exact congrArg (List.foldl _ · _) (updateBestIfValid_eq w u child (u.shown child) rfl rfl
                fun _ _ => rfl)
            · rcases mem_cons.mp hs with rfl | hs
              · exact hfull
              · exact hall s hs
    · rename_i hkey
      rw [if_neg hkey]
      cases h
      exact ⟨rfl, fun s hs => absurd hs not_mem_nil⟩

/-- The validators do not decide how far the walk goes or what it leaves behind. -/
theorem matchLoop_permute (h : cts.Perm cfg.treeComponents) (fuel : ℕ) :
    ∀ {u u' : UnifiedRadixCache σ} {node : NodeId} {key : RadixKey} {ck : ChildKey}
      {w w' : MatchWalk σ} (w₂ : MatchWalk σ), matchLoop cfg fuel u node key ck w = some (w', u') →
      ∃ w₂', matchLoop (cfg.permute cts h) fuel u node key ck w₂ = some (w₂', u') := by
  induction fuel with
  | zero =>
    intro u u' node key ck w w' w₂ hloop
    cases hloop
  | succ fuel ih =>
    intro u u' node key ck w w' w₂ hloop
    rw [matchLoop] at hloop ⊢
    split at hloop
    · rename_i hkey
      rw [if_pos hkey]
      rcases hlook : (u.nodes node).children.lookup ck with _ | child
      · rw [hlook] at hloop
        cases hloop
        exact ⟨w₂, rfl⟩
      · rw [hlook] at hloop
        dsimp only at hloop ⊢
        by_cases hdead : (u.nodes child).evicted ∧ !(u.nodes child).backuped
        · rw [if_pos hdead] at hloop ⊢
          cases hloop
          exact ⟨w₂, rfl⟩
        · rw [if_neg hdead] at hloop ⊢
          simp only [bind_eq_bind, bind_eq_some_iff] at hloop
          obtain ⟨prefixLen, hmatch, hloop⟩ := hloop
          rw [UnifiedConfig.permute_pageSize, hmatch]
          simp only [bind_eq_bind, bind_some]
          by_cases hshort : prefixLen < (u.nodes child).key.len
          · rw [if_pos hshort] at hloop ⊢
            by_cases hev : (u.nodes child).evicted
            · rw [if_pos hev] at hloop ⊢
              cases hloop
              exact ⟨w₂, rfl⟩
            · rw [if_neg hev] at hloop ⊢
              simp only [bind_eq_some_iff] at hloop
              obtain ⟨⟨newNode, u₁⟩, hsplit, v, hv, hloop⟩ := hloop
              cases hloop
              rw [splitNode_permute, hsplit, bind_some]
              rw [hv]
              exact ⟨_, rfl⟩
          · rw [if_neg hshort] at hloop ⊢
            simp only [bind_eq_some_iff] at hloop
            obtain ⟨value, hpush, ck', hck', hloop⟩ := hloop
            obtain ⟨value₂, hpush₂⟩ : ∃ value₂, u.pushValue child w₂.value = some value₂ := by
              rw [pushValue] at hpush ⊢
              split
              · exact ⟨_, rfl⟩
              · rename_i hev
                rw [if_neg hev] at hpush
                obtain ⟨v, hv, -⟩ := map_eq_some_iff.mp hpush
                rw [hv]
                exact ⟨_, rfl⟩
            have hck₂ : nextChildKey (cfg.permute cts h) (key.dropTo prefixLen) ck = some ck' := hck'
            simp only [hpush₂, hck₂, bind_some]
            exact ih _ hloop
    · rename_i hkey
      rw [if_neg hkey]
      cases hloop
      exact ⟨w₂, rfl⟩

/-! ## 4. Where the match ends -/

namespace Shown

/-- The last node has a Mamba state. -/
def stateAt (pre : List (Shown σ)) : Bool := pre.getLast?.any fun s => s.has .mamba

/-- The last node is in the window, and so are the units before it, as many as the window has. -/
def liveAt (window : ℕ) (pre : List (Shown σ)) : Bool :=
  (pre.getLast?.any fun s => s.has .swa) &&
    decide ((window : ℕ∞) ≤ runLen (fun s : Shown σ => s.has .swa) Shown.len pre)

/-- Every component, asked at each node, accepts the last one. -/
def validAt (window : ℕ) (cts : List ComponentType) (pre : List (Shown σ)) : Bool :=
  (decide (.swa ∉ cts) || liveAt window pre) && (decide (.mamba ∉ cts) || stateAt pre)

/-- The sliding window is asked only at the nodes with a Mamba state. -/
def validAtGated (window : ℕ) (pre : List (Shown σ)) : Bool :=
  stateAt pre && liveAt window (pre.filter fun s => s.has .mamba)

/-- `best_node` and `best_value_len` of a match that ends after `pre`. -/
def endOf (root : NodeId) (pre : List (Shown σ)) : NodeId × ℕ :=
  ((pre.getLast?.map Shown.node).getD root, (pre.filterMap Shown.slots).length)

theorem auxiliary_cases {l : List ComponentType} (hnodup : l.Nodup) (hfull : .full ∉ l) :
    l = [] ∨ l = [.swa] ∨ l = [.mamba] ∨ l = [.swa, .mamba] ∨ l = [.mamba, .swa] := by
  rcases l with _ | ⟨x, _ | ⟨y, _ | ⟨z, l⟩⟩⟩
  · simp
  · cases x <;> simp at hfull ⊢
  · cases x <;> cases y <;> simp at hfull hnodup ⊢
  · exfalso
    cases x <;> cases y <;> cases z <;> simp at hfull hnodup

theorem askAll_auxiliary {window : ℕ} (hfull : s.has .full) (cts : List ComponentType) :
    ∀ len, s.askAll window cts len = s.askAll window (cts.filter (· ≠ .full)) len := by
  induction cts with
  | nil => exact fun _ => rfl
  | cons ct cts ih =>
    intro len
    by_cases hct : ct = .full
    · subst hct
      rw [askAll]
      simp [ask, hfull, ih]
    · rw [filter_cons_of_pos (by simpa using hct), askAll, askAll]
      simp [ih]

theorem askAll_singleton (window : ℕ) (s : Shown σ) (ct : ComponentType) (len : ℕ∞) :
    s.askAll window [ct] len = s.ask window len ct := by
  rw [askAll]
  cases h : (s.ask window len ct).1
  · exact Prod.ext h.symm rfl
  · exact Prod.ext h.symm rfl

theorem askAll_swaMamba (window : ℕ) (s : Shown σ) (len : ℕ∞) :
    s.askAll window [.swa, .mamba] len
      = ((s.ask window len .swa).1 && s.has .mamba, (s.ask window len .swa).2) := by
  rw [askAll, askAll_singleton]
  cases (s.ask window len .swa).1 <;> rfl

theorem askAll_mambaSwa (window : ℕ) (s : Shown σ) (len : ℕ∞) :
    s.askAll window [.mamba, .swa] len = if s.has .mamba then s.ask window len .swa else (false, len) := by
  rw [askAll, askAll_singleton]
  rfl

@[simp] theorem stateAt_concat (l : List (Shown σ)) (s : Shown σ) :
    stateAt (l ++ [s]) = s.has .mamba := by
  simp [stateAt]

/-- What the validator of the sliding window says at the last node. -/
theorem liveAt_concat (window : ℕ) (l : List (Shown σ)) (s : Shown σ) :
    liveAt window (l ++ [s]) = (s.ask window (runLen (fun s => s.has .swa) Shown.len l) .swa).1 := by
  rw [liveAt, runLen_concat]
  cases hs : s.has .swa <;> simp [ask, hs]

theorem runLen_swa_concat (window : ℕ) (l : List (Shown σ)) (s : Shown σ) :
    runLen (fun s => s.has .swa) Shown.len (l ++ [s])
      = (s.ask window (runLen (fun s => s.has .swa) Shown.len l) .swa).2 := by
  rw [runLen_concat]
  cases hs : s.has .swa <;> simp [ask, hs]

end Shown

/-- The walk of a match that has not begun. -/
def MatchWalk.start (root : NodeId) : MatchWalk σ := ⟨[], 0, root, ⊤⟩

/-- Whatever the validators come to, the match ends at the last node that they accept. -/
theorem MatchWalk.foldl_see {p : List (Shown σ) → Bool} {L : List (Shown σ) → ℕ∞} (root : NodeId)
    (hstart : L [] = ⊤)
    (hround : ∀ l s, s.has .full →
      s.askAll cfg.slidingWindowSize cfg.treeComponents (L l) = (p (l ++ [s]), L (l ++ [s])))
    (l : List (Shown σ)) (hall : ∀ s ∈ l, s.has .full) :
    l.foldl (MatchWalk.see cfg) (.start root)
      = ⟨l.filterMap Shown.slots, (Shown.endOf root (deepest p l)).2,
        (Shown.endOf root (deepest p l)).1, L l⟩ := by
  induction l using List.reverseRecOn with
  | nil => simp [start, hstart, Shown.endOf]
  | append_singleton l s ih =>
    have hvalue : l.filterMap Shown.slots ++ s.slots.toList = (l ++ [s]).filterMap Shown.slots := by
      cases hs : s.slots <;> simp [hs]
    rw [foldl_append, ih fun x hx => hall x (mem_append_left _ hx), foldl_cons, see,
      hround l s (hall s (by simp)), hvalue, deepest_concat]
    cases p (l ++ [s])
    · rfl
    · simp [Shown.endOf]

/-- **The validators see every node** unless the Mamba component is asked before the sliding window. -/
theorem MatchWalk.foldl_see_valid (root : NodeId) (l : List (Shown σ)) (hall : ∀ s ∈ l, s.has .full)
    (horder : cfg.treeComponents.filter (· ≠ .full) ≠ [.mamba, .swa]) :
    ∃ len, l.foldl (MatchWalk.see cfg) (.start root) = ⟨l.filterMap Shown.slots,
      (Shown.endOf root (deepest (Shown.validAt cfg.slidingWindowSize cfg.treeComponents) l)).2,
      (Shown.endOf root (deepest (Shown.validAt cfg.slidingWindowSize cfg.treeComponents) l)).1,
      len⟩ := by
  refine ⟨_, MatchWalk.foldl_see root (L := fun l => if .swa ∈ cfg.treeComponents then
    runLen (fun s => s.has .swa) Shown.len l else ⊤) (by simp) (fun l s hs => ?_) l hall⟩
  have hmem : ∀ ct, ct ≠ .full →
      (ct ∈ cfg.treeComponents ↔ ct ∈ cfg.treeComponents.filter (· ≠ .full)) := fun ct hct => by
    simp [mem_filter, hct]
  have hcases := Shown.auxiliary_cases (cfg.nodup.filter (· ≠ .full)) (by simp)
  rw [Shown.askAll_auxiliary hs, Shown.validAt]
  simp only [hmem .swa (by decide), hmem .mamba (by decide), Shown.stateAt_concat,
    Shown.liveAt_concat, Shown.runLen_swa_concat cfg.slidingWindowSize]
  rcases hcases with haux | haux | haux | haux | haux <;> rw [haux]
  · simp [Shown.askAll]
  · simp [Shown.askAll_singleton]
  · simp [Shown.askAll_singleton, Shown.ask]
  · simp [Shown.askAll_swaMamba]
  · exact absurd haux horder

/-- **With the Mamba component before the sliding window** the count leaves nodes out. -/
theorem MatchWalk.foldl_see_gated (root : NodeId) (l : List (Shown σ)) (hall : ∀ s ∈ l, s.has .full)
    (horder : cfg.treeComponents.filter (· ≠ .full) = [.mamba, .swa]) :
    ∃ len, l.foldl (MatchWalk.see cfg) (.start root) = ⟨l.filterMap Shown.slots,
      (Shown.endOf root (deepest (Shown.validAtGated cfg.slidingWindowSize) l)).2,
      (Shown.endOf root (deepest (Shown.validAtGated cfg.slidingWindowSize) l)).1, len⟩ := by
  refine ⟨_, MatchWalk.foldl_see root (L := fun l => runLen (fun s : Shown σ => s.has .swa) Shown.len
    (l.filter fun s => s.has .mamba)) (by simp) (fun l s hs => ?_) l hall⟩
  rw [Shown.askAll_auxiliary hs, horder, Shown.validAtGated, Shown.stateAt_concat,
    Shown.askAll_mambaSwa]
  cases hm : s.has .mamba
  · rw [filter_append, filter_cons_of_neg (by simp [hm]), filter_nil, append_nil]
    rfl
  · rw [filter_append, filter_cons_of_pos (p := fun s : Shown σ => s.has .mamba) hm,
      filter_nil, Shown.liveAt_concat, Shown.runLen_swa_concat cfg.slidingWindowSize]
    rfl

/-! ## 5. Valid matches -/

/-- The key that `match_prefix` looks up. -/
def lookupKey (cfg : UnifiedConfig σ) (key : RadixKey) : RadixKey :=
  (key.maybeToBigramView (σ := σ) cfg.isEagle none).1.pageAligned cfg.pageSize

/-- What `match_prefix` has found before the post-processing. -/
def bestMatch (cfg : UnifiedConfig σ) (u : UnifiedRadixCache σ) (key : RadixKey) :
    Option (MatchWalk σ × UnifiedRadixCache σ) :=
  if (lookupKey cfg key).len = 0 then some (.start u.rootNode, u)
  else u.matchPrefixHelper cfg (lookupKey cfg key)

/-- The nodes along the key, from the root. -/
def matchWalk (cfg : UnifiedConfig σ) (u : UnifiedRadixCache σ) (key : RadixKey) : List (Shown σ) :=
  (((lookupKey cfg key).childKey cfg.pageSize).map fun ck =>
    walk cfg u ((lookupKey cfg key).len + 1) u.rootNode (lookupKey cfg key) ck).getD []

/-- Each component alone accepts the last node: the full KV of every node is there, the last units, as
many as the window has, stand on nodes with a value of the sliding window, and the node has a Mamba
state. -/
structure Accepted (cfg : UnifiedConfig σ) (pre : List (Shown σ)) : Prop where
  full : ∀ s ∈ pre, s.has .full
  swa : .swa ∈ cfg.treeComponents → pre.getLast?.any (fun s => s.has .swa) ∧
    Covered (fun s : Shown σ => s.has .swa) Shown.len cfg.slidingWindowSize pre
  mamba : .mamba ∈ cfg.treeComponents → pre.getLast?.any (fun s => s.has .mamba)

theorem accepted_iff {pre : List (Shown σ)} (hfull : ∀ s ∈ pre, s.has .full) :
    Accepted cfg pre ↔ Shown.validAt cfg.slidingWindowSize cfg.treeComponents pre := by
  have hlive : Shown.liveAt cfg.slidingWindowSize pre ↔ pre.getLast?.any (fun s => s.has .swa) ∧
      Covered (fun s : Shown σ => s.has .swa) Shown.len cfg.slidingWindowSize pre := by
    rw [Shown.liveAt, Bool.and_eq_true, decide_eq_true_iff, le_runLen_iff]
  rw [Shown.validAt, Bool.and_eq_true, Bool.or_eq_true, Bool.or_eq_true, hlive,
    decide_eq_true_iff, decide_eq_true_iff]
  constructor
  · intro h
    exact ⟨or_iff_not_imp_left.mpr fun hs => h.swa (not_not.mp hs),
      or_iff_not_imp_left.mpr fun hm => h.mamba (not_not.mp hm)⟩
  · intro h
    exact ⟨hfull, fun hs => h.1.resolve_left (not_not.mpr hs),
      fun hm => h.2.resolve_left (not_not.mpr hm)⟩

variable {w : MatchWalk σ} {u₁ : UnifiedRadixCache σ}

theorem bestMatch_walk {key : RadixKey} (h : bestMatch cfg u key = some (w, u₁)) :
    w = (matchWalk cfg u key).foldl (MatchWalk.see cfg) (.start u.rootNode) ∧
      ∀ s ∈ matchWalk cfg u key, s.has .full := by
  rw [bestMatch] at h
  rw [matchWalk]
  split at h
  · rename_i h0
    cases h
    have hnil : ∀ ck, walk cfg u ((lookupKey cfg key).len + 1) u.rootNode (lookupKey cfg key) ck
        = [] := fun ck => by
      rw [walk, if_neg (by omega)]
    cases (lookupKey cfg key).childKey cfg.pageSize <;> simp [hnil]
  · simp only [matchPrefixHelper, bind_eq_bind, bind_eq_some_iff] at h
    obtain ⟨ck, hck, h⟩ := h
    rw [hck]
    exact matchLoop_walk _ h

/-- One order of the components gets as far as another. -/
theorem bestMatch_permute (hperm : cts.Perm cfg.treeComponents) {key : RadixKey}
    (h : bestMatch cfg u key = some (w, u₁)) :
    ∃ w', bestMatch (cfg.permute cts hperm) u key = some (w', u₁) := by
  rw [bestMatch] at h ⊢
  change ∃ w', (if (lookupKey cfg key).len = 0 then _ else
    u.matchPrefixHelper (cfg.permute cts hperm) (lookupKey cfg key)) = _
  split at h
  · rename_i h0
    cases h
    rw [if_pos h0]
    exact ⟨_, rfl⟩
  · rename_i h0
    rw [if_neg h0]
    simp only [matchPrefixHelper, bind_eq_bind, bind_eq_some_iff] at h
    obtain ⟨ck, hck, h⟩ := h
    obtain ⟨w', h'⟩ := matchLoop_permute hperm _ (.start u.rootNode) h
    refine ⟨w', ?_⟩
    rw [matchPrefixHelper, UnifiedConfig.permute_pageSize, hck]
    exact h'

/-! ### The post-processing -/

theorem resetNodeAndParentsMru_nodes {ct : ComponentType} (fuel : ℕ) :
    ∀ {u u' : UnifiedRadixCache σ} {node : NodeId} {prev : Option NodeId},
      resetNodeAndParentsMru ct fuel u node prev = some u' →
      u'.nodes = u.nodes ∧ u'.rootNode = u.rootNode ∧ u'.counter = u.counter := by
  induction fuel with
  | zero =>
    intro u u' node prev h
    cases h
  | succ fuel ih =>
    intro u u' node prev h
    rw [resetNodeAndParentsMru] at h
    split at h
    · cases h
      exact ⟨rfl, rfl, rfl⟩
    · simp only [bind_eq_bind, bind_eq_some_iff] at h
      obtain ⟨parent, -, h⟩ := h
      split at h
      · simp only [bind_eq_some_iff] at h
        obtain ⟨u₁, h₁, h⟩ := h
        obtain ⟨hn, hr, hc⟩ := onLru_nodes h₁
        obtain ⟨hn', hr', hc'⟩ := ih h
        exact ⟨hn'.trans hn, hr'.trans hr, hc'.trans hc⟩
      · exact ih h

theorem foldlM_resetMru_nodes {node : NodeId} (cts : List ComponentType) :
    ∀ {u u' : UnifiedRadixCache σ},
      cts.foldlM (fun u ct => resetNodeAndParentsMru ct (u.counter + 1) u node none) u = some u' →
      u'.nodes = u.nodes ∧ u'.rootNode = u.rootNode ∧ u'.counter = u.counter := by
  induction cts with
  | nil =>
    intro u u' h
    cases h
    exact ⟨rfl, rfl, rfl⟩
  | cons ct cts ih =>
    intro u u' h
    simp only [foldlM_cons, bind_eq_bind, bind_eq_some_iff] at h
    obtain ⟨u₁, h₁, h⟩ := h
    obtain ⟨hn, hr, hc⟩ := resetNodeAndParentsMru_nodes _ h₁
    obtain ⟨hn', hr', hc'⟩ := ih h
    exact ⟨hn'.trans hn, hr'.trans hr, hc'.trans hc⟩

/-- Access times apart, the nodes stay as they are. -/
theorem touchPath_nodes (fuel : ℕ) :
    ∀ {u u' : UnifiedRadixCache σ} {node : NodeId} {time : ℤ}, touchPath fuel u node time = some u' →
      (∀ n, (u'.nodes n).parent = (u.nodes n).parent ∧
        (u'.nodes n).componentData = (u.nodes n).componentData) ∧
      u'.rootNode = u.rootNode ∧ u'.counter = u.counter := by
  induction fuel with
  | zero =>
    intro u u' node time h
    cases h
  | succ fuel ih =>
    intro u u' node time h
    rw [touchPath] at h
    have hround : ∀ n, ((u.modify node fun x => { x with lastAccessTime := time }).nodes n).parent
        = (u.nodes n).parent ∧ ((u.modify node fun x => { x with lastAccessTime := time }).nodes
          n).componentData = (u.nodes n).componentData := by
      intro n
      by_cases hn : n = node
      · subst hn
        simp
      · rw [modify_nodes_ne _ _ hn]
        exact ⟨rfl, rfl⟩
    split at h
    · cases h
      exact ⟨hround, rfl, rfl⟩
    · obtain ⟨hn, hr, hc⟩ := ih h
      exact ⟨fun n => ⟨(hn n).1.trans (hround n).1, (hn n).2.trans (hround n).2⟩, hr, hc⟩

theorem walkUpTo_congr {u : UnifiedRadixCache σ} {p : UnifiedTreeNode σ → Bool}
    (hp : ∀ n, p (u'.nodes n) = p (u.nodes n))
    (hparent : ∀ n, (u'.nodes n).parent = (u.nodes n).parent) (hroot : u'.rootNode = u.rootNode)
    (fuel : ℕ) : ∀ node, u'.walkUpTo p fuel node = u.walkUpTo p fuel node := by
  induction fuel with
  | zero => exact fun _ => rfl
  | succ fuel ih =>
    intro node
    simp [walkUpTo, hp, hparent, hroot, ih]

/-- The components add to the result what concerns the host and the state. -/
theorem finalizeMatchResult_device {cowMamba : Bool} {ct : ComponentType}
    {r r' : UnifiedMatchResult σ × Option σ × UnifiedRadixCache σ}
    (h : finalizeMatchResult cfg cowMamba w r ct = some r') :
    r'.1.deviceIndices = r.1.deviceIndices ∧ r'.1.lastDeviceNode = r.1.lastDeviceNode := by
  cases ct with
  | full =>
    simp only [finalizeMatchResult, bind_eq_bind, Option.pure_def, bind_eq_some_iff] at h
    obtain ⟨hit, -, h⟩ := h
    cases h
    exact ⟨rfl, rfl⟩
  | swa =>
    simp only [finalizeMatchResult, bind_eq_bind, Option.pure_def, bind_eq_some_iff] at h
    obtain ⟨onHost, -, h⟩ := h
    cases h
    exact ⟨rfl, rfl⟩
  | mamba =>
    simp only [finalizeMatchResult, finalizeMamba, bind_eq_bind, Option.pure_def,
      bind_eq_some_iff] at h
    obtain ⟨x, -, h⟩ := h
    cases h
    split <;> exact ⟨rfl, rfl⟩

theorem foldlM_finalize_device {cowMamba : Bool} (cts : List ComponentType) :
    ∀ {r r' : UnifiedMatchResult σ × Option σ × UnifiedRadixCache σ},
      cts.foldlM (fun r ct => finalizeMatchResult cfg cowMamba w r ct) r = some r' →
      r'.1.deviceIndices = r.1.deviceIndices ∧ r'.1.lastDeviceNode = r.1.lastDeviceNode := by
  induction cts with
  | nil =>
    intro r r' h
    cases h
    exact ⟨rfl, rfl⟩
  | cons ct cts ih =>
    intro r r' h
    simp only [foldlM_cons, bind_eq_bind, bind_eq_some_iff] at h
    obtain ⟨r₁, h₁, h⟩ := h
    obtain ⟨hi, hn⟩ := finalizeMatchResult_device h₁
    obtain ⟨hi', hn'⟩ := ih h
    exact ⟨hi'.trans hi, hn'.trans hn⟩

/-- **`match_prefix`** returns the slots of the nodes up to the best one, and the first node on the device
from there upwards. -/
theorem matchPrefix_device {params : MatchPrefixParams σ} {r : UnifiedMatchResult σ} {idx : Option σ}
    {u₂ : UnifiedRadixCache σ} (h : matchPrefix cfg u params = some (r, idx, u₂)) :
    ∃ w u₁, bestMatch cfg u params.key = some (w, u₁) ∧
      r.deviceIndices = (w.value.take w.bestValueLen).flatten ∧
      u₁.walkUpTo (!·.evicted) (u₁.counter + 1) w.bestNode = some r.lastDeviceNode := by
  rw [matchPrefix] at h
  by_cases h0 : (lookupKey cfg params.key).len = 0
  · have hroot : u.walkUpTo (!·.evicted) (u.counter + 1) u.rootNode = some u.rootNode := by
      rw [walkUpTo, if_pos (.inl rfl)]
    refine ⟨.start u.rootNode, u, by rw [bestMatch, if_pos h0], ?_⟩
    split at h
    · cases h
      exact ⟨rfl, hroot⟩
    · rw [if_pos (by exact h0)] at h
      cases h
      exact ⟨rfl, hroot⟩
  · have hlen : (params.key.maybeToBigramView (σ := σ) cfg.isEagle none).1.len ≠ 0 := by
      intro hlen
      rw [lookupKey, RadixKey.len_pageAligned, hlen, Nat.zero_div, Nat.zero_mul] at h0
      exact h0 rfl
    rw [if_neg hlen, if_neg (by exact h0)] at h
    simp only [bind_eq_bind, bind_eq_some_iff] at h
    obtain ⟨⟨w, u₁⟩, hbest, h⟩ := h
    simp only [matchPostProcessor, bind_eq_bind, bind_eq_some_iff] at h
    obtain ⟨u₃, h₃, u₄, h₄, dev, hdev, host, -, h⟩ := h
    obtain ⟨hi, hn⟩ := foldlM_finalize_device _ h
    obtain ⟨hnodes₃, hroot₃, hcounter₃⟩ := foldlM_resetMru_nodes _ h₃
    obtain ⟨hnodes₄, hroot₄, hcounter₄⟩ := touchPath_nodes _ h₄
    refine ⟨w, u₁, by rw [bestMatch, if_neg h0]; exact hbest, hi, ?_⟩
    have hparent : ∀ n, (u₄.nodes n).parent = (u₁.nodes n).parent := fun n =>
      (hnodes₄ n).1.trans (congrArg UnifiedTreeNode.parent (congrFun hnodes₃ n))
    have hdata : ∀ n, (u₄.nodes n).componentData = (u₁.nodes n).componentData := fun n =>
      (hnodes₄ n).2.trans (congrArg UnifiedTreeNode.componentData (congrFun hnodes₃ n))
    have hcounter : u₄.counter = u₁.counter := hcounter₄.trans hcounter₃
    rw [← hcounter, ← walkUpTo_congr (fun n => by
      rw [UnifiedTreeNode.evicted, UnifiedTreeNode.evicted, hparent, hdata]) hparent
      (hroot₄.trans hroot₃), hdev]
    exact congrArg some hn.symm

/-! ### The order of the components -/

theorem walk_permute (h : cts.Perm cfg.treeComponents)
    (u : UnifiedRadixCache σ) (fuel : ℕ) : ∀ (node : NodeId) (key : RadixKey) (ck : ChildKey),
    walk (cfg.permute cts h) u fuel node key ck = walk cfg u fuel node key ck := by
  induction fuel with
  | zero => exact fun _ _ _ => rfl
  | succ fuel ih =>
    intro node key ck
    have hnext : ∀ key ck, nextChildKey (cfg.permute cts h) key ck = nextChildKey cfg key ck :=
      fun _ _ => rfl
    simp [walk, hnext, ih]

@[simp] theorem matchWalk_permute (h : cts.Perm cfg.treeComponents)
    (u : UnifiedRadixCache σ) (key : RadixKey) :
    matchWalk (cfg.permute cts h) u key = matchWalk cfg u key := by
  have hkey : lookupKey (cfg.permute cts h) key = lookupKey cfg key := rfl
  simp [matchWalk, hkey, walk_permute]

/-- In the order `cts` the match ends after `pre`: with its last node, and with the slots of its nodes. -/
structure EndsAfter (cfg : UnifiedConfig σ) (u : UnifiedRadixCache σ) (params : MatchPrefixParams σ)
    (u₁ : UnifiedRadixCache σ) (pre : List (Shown σ)) : Prop where
  best : ∃ w, bestMatch cfg u params.key = some (w, u₁) ∧
    (w.bestNode, w.bestValueLen) = Shown.endOf u.rootNode pre
  result : ∀ r idx u₂, matchPrefix cfg u params = some (r, idx, u₂) →
    r.deviceIndices = (pre.filterMap Shown.slots).flatten ∧
      u₁.walkUpTo (!·.evicted) (u₁.counter + 1) (Shown.endOf u.rootNode pre).1
        = some r.lastDeviceNode

/-- **The match is valid for every component, in any order**: it ends after the same part of the walk in
every order of the components, and each component alone accepts that part. -/
def MatchValid (cfg : UnifiedConfig σ) (u : UnifiedRadixCache σ) (params : MatchPrefixParams σ) :
    Prop :=
  ∃ pre u₁, pre <+: matchWalk cfg u params.key ∧ (pre = [] ∨ Accepted cfg pre) ∧
    ∀ cts (h : cts.Perm cfg.treeComponents), EndsAfter (cfg.permute cts h) u params u₁ pre

/-- The deepest node of the walk that has a Mamba state and a live window is the same one whether the
window is counted over all nodes or over those with a Mamba state. -/
def WindowsAgree (cfg : UnifiedConfig σ) (u : UnifiedRadixCache σ) (key : RadixKey) : Prop :=
  .swa ∈ cfg.treeComponents → .mamba ∈ cfg.treeComponents →
    Shown.endOf u.rootNode (deepest (fun pre => Shown.stateAt pre &&
        Shown.liveAt cfg.slidingWindowSize pre) (matchWalk cfg u key))
      = Shown.endOf u.rootNode (deepest (fun pre => Shown.stateAt pre &&
        Shown.liveAt cfg.slidingWindowSize (pre.filter fun s => s.has .mamba)) (matchWalk cfg u key))

theorem endsAfter_of_endOf {params : MatchPrefixParams σ} {pre : List (Shown σ)}
    (hbest : bestMatch cfg u params.key = some (w, u₁))
    (hpre : pre <+: matchWalk cfg u params.key)
    (hvalue : w.value = (matchWalk cfg u params.key).filterMap Shown.slots)
    (hend : (w.bestNode, w.bestValueLen) = Shown.endOf u.rootNode pre) :
    EndsAfter cfg u params u₁ pre := by
  refine ⟨⟨w, hbest, hend⟩, fun r idx u₂ hr => ?_⟩
  obtain ⟨w', u₁', hbest', hdev, hnode⟩ := matchPrefix_device hr
  cases hbest.symm.trans hbest'
  have hlen : w.bestValueLen = (pre.filterMap Shown.slots).length := congrArg Prod.snd hend
  obtain ⟨rest, hrest⟩ := hpre
  refine ⟨?_, congrArg Prod.fst hend ▸ hnode⟩
  rw [hdev, hvalue, ← hrest, filterMap_append, hlen, take_left]

/-- **Where a match ends** in an order that asks the sliding window at every node, and in one that asks
the Mamba component before. -/
theorem bestMatch_end {key : RadixKey} (h : bestMatch cfg u key = some (w, u₁)) :
    w.value = (matchWalk cfg u key).filterMap Shown.slots ∧
      (cfg.treeComponents.filter (· ≠ .full) ≠ [.mamba, .swa] →
        (w.bestNode, w.bestValueLen) = Shown.endOf u.rootNode
          (deepest (Shown.validAt cfg.slidingWindowSize cfg.treeComponents) (matchWalk cfg u key))) ∧
      (cfg.treeComponents.filter (· ≠ .full) = [.mamba, .swa] →
        (w.bestNode, w.bestValueLen) = Shown.endOf u.rootNode
          (deepest (Shown.validAtGated cfg.slidingWindowSize) (matchWalk cfg u key))) := by
  obtain ⟨rfl, hfull⟩ := bestMatch_walk h
  refine ⟨?_, fun horder => ?_, fun horder => ?_⟩
  · by_cases horder : cfg.treeComponents.filter (· ≠ .full) = [.mamba, .swa]
    · obtain ⟨len, heq⟩ := MatchWalk.foldl_see_gated u.rootNode _ hfull horder
      rw [heq]
    · obtain ⟨len, heq⟩ := MatchWalk.foldl_see_valid u.rootNode _ hfull horder
      rw [heq]
  · obtain ⟨len, heq⟩ := MatchWalk.foldl_see_valid u.rootNode _ hfull horder
    rw [heq]
  · obtain ⟨len, heq⟩ := MatchWalk.foldl_see_gated u.rootNode _ hfull horder
    rw [heq]

/-- With both auxiliary components present, a valid place is one with a state and a live window. -/
theorem validAt_both (window : ℕ) (hswa : .swa ∈ cts)
    (hmamba : .mamba ∈ cts) : (Shown.validAt window cts : List (Shown σ) → Bool)
      = fun pre => Shown.stateAt pre && Shown.liveAt window pre := by
  funext pre
  simp [Shown.validAt, hswa, hmamba, Bool.and_comm]

/-- **A match is valid exactly if the windows agree.** -/
theorem matchPrefix_valid_iff (params : MatchPrefixParams σ)
    (h : (bestMatch cfg u params.key).isSome) :
    MatchValid cfg u params ↔ WindowsAgree cfg u params.key := by
  obtain ⟨⟨w₀, u₁⟩, h₀⟩ := isSome_iff_exists.mp h
  constructor
  · rintro ⟨pre, u₁', -, -, hends⟩ hswa hmamba
    have hall : ∀ ct : ComponentType, ct ∈ cfg.treeComponents := fun ct => by
      cases ct
      exacts [cfg.full_mem, hswa, hmamba]
    have hperm : ∀ cts : List ComponentType, cts.Nodup → (∀ ct, ct ∈ cts) →
        cts.Perm cfg.treeComponents := fun cts hnodup hcts =>
      (perm_ext_iff_of_nodup hnodup cfg.nodup).mpr fun ct => iff_of_true (hcts ct) (hall ct)
    obtain ⟨w, hw, hend⟩ := (hends [.full, .swa, .mamba] (hperm _ (by decide) fun ct => by
      cases ct <;> decide)).best
    obtain ⟨w', hw', hend'⟩ := (hends [.full, .mamba, .swa] (hperm _ (by decide) fun ct => by
      cases ct <;> decide)).best
    have hvalid := (bestMatch_end hw).2.1 (by
      rw [UnifiedConfig.permute_treeComponents]
      decide)
    have hgated := (bestMatch_end hw').2.2 (by
      rw [UnifiedConfig.permute_treeComponents]
      decide)
    rw [hend, matchWalk_permute, validAt_both _ (by simp) (by simp)] at hvalid
    rw [hend', matchWalk_permute] at hgated
    exact hvalid.symm.trans hgated
  · intro hagree
    obtain ⟨hpre, hdeep⟩ := deepest_spec (p := Shown.validAt cfg.slidingWindowSize
      cfg.treeComponents) (matchWalk cfg u params.key)
    have hfull := (bestMatch_walk h₀).2
    refine ⟨_, u₁, hpre, hdeep.imp_right (accepted_iff fun s hs => hfull s (hpre.subset hs)).mpr,
      fun cts hcts => ?_⟩
    obtain ⟨w, hw⟩ := bestMatch_permute hcts h₀
    obtain ⟨hvalue, hvalid, hgated⟩ := bestMatch_end hw
    rw [matchWalk_permute] at hvalue hvalid hgated
    have hmem : ∀ ct : ComponentType, ct ∈ cts ↔ ct ∈ cfg.treeComponents := fun ct => hcts.mem_iff
    refine endsAfter_of_endOf hw (by rwa [matchWalk_permute]) (by rwa [matchWalk_permute]) ?_
    by_cases horder : cts.filter (· ≠ .full) = [.mamba, .swa]
    · have hin : ∀ ct ∈ [ComponentType.mamba, .swa], ct ∈ cfg.treeComponents := fun ct hct =>
        (hmem ct).mp (mem_filter.mp (horder ▸ hct)).1
      have hswa := hin .swa (by decide)
      have hmamba := hin .mamba (by decide)
      rw [validAt_both _ hswa hmamba, hagree hswa hmamba]
      exact hgated horder
    · have hsame : (Shown.validAt cfg.slidingWindowSize cts : List (Shown σ) → Bool)
          = Shown.validAt cfg.slidingWindowSize cfg.treeComponents := by
        funext pre
        simp [Shown.validAt, hmem]
      rw [← hsame]
      exact hvalid horder

/-- Pages of one, a window of three, and the Mamba component before the sliding window. -/
def mambaFirst : UnifiedConfig ℕ where
  pageSize := 1
  isEagle := false
  treeComponents := [.full, .mamba, .swa]
  slidingWindowSize := 3
  mambaCacheChunkSize := 1
  cacheController := none
  translateLocFromFullToSwa := fun _ slot => slot
  deviceAvailableSize := fun _ => 0
  hostAvailableSize := fun _ => 0
  allocDevice := fun _ _ _ => none
  allocHost := fun _ _ _ => none
  tieBreak := fun _ => 0
  pageSize_pos := by decide
  full_mem := by decide
  nodup := by decide

def tokens : RadixKey := ⟨[1, 2, 3], none, false⟩

/-- Three tokens are inserted after the sliding window has given up the first two. -/
def windowPassed : UnifiedRadixCache ℕ :=
  (((init mambaFirst).insert mambaFirst ⟨tokens, [10, 11, 12], some [7], 0, 2, false⟩).map
    Prod.snd).getD (init mambaFirst)

def wholeKey : MatchPrefixParams ℕ := ⟨tokens, false, none⟩

theorem swaFirst_perm : [ComponentType.full, .swa, .mamba].Perm mambaFirst.treeComponents := by decide

/-- The walk goes over a node without a state or a window and ends at one with both: the two counts
differ. -/
theorem windowPassed_valid_iff :
    (bestMatch mambaFirst windowPassed wholeKey.key).isSome ∧
      (MatchValid mambaFirst windowPassed wholeKey ↔
        WindowsAgree mambaFirst windowPassed wholeKey.key) :=
  ⟨by decide +kernel, matchPrefix_valid_iff wholeKey (by decide +kernel)⟩

/-- All three tokens are returned, though a window of three needs the slots that were given up; with the
sliding window before the Mamba component nothing is returned. -/
theorem windowPassed_not_valid :
    (matchPrefix mambaFirst windowPassed wholeKey).map (fun r => r.1.deviceIndices)
        = some [10, 11, 12] ∧
      (matchPrefix (mambaFirst.permute _ swaFirst_perm) windowPassed wholeKey).map
        (fun r => r.1.deviceIndices) = some [] ∧
      ¬ MatchValid mambaFirst windowPassed wholeKey := by
  have hmamba : (matchPrefix mambaFirst windowPassed wholeKey).map (fun r => r.1.deviceIndices)
      = some [10, 11, 12] := by decide +kernel
  have hswa : (matchPrefix (mambaFirst.permute _ swaFirst_perm) windowPassed wholeKey).map
      (fun r => r.1.deviceIndices) = some [] := by decide +kernel
  refine ⟨hmamba, hswa, ?_⟩
  rintro ⟨pre, u₁, -, -, hends⟩
  obtain ⟨⟨r, idx, u₂⟩, hr, hslots⟩ := map_eq_some_iff.mp hmamba
  obtain ⟨⟨r', idx', u₂'⟩, hr', hslots'⟩ := map_eq_some_iff.mp hswa
  have hpre := ((hends _ (List.Perm.refl _)).result r idx u₂ hr).1
  have hpre' := ((hends _ swaFirst_perm).result r' idx' u₂' hr').1
  have heq : ([10, 11, 12] : List ℕ) = [] :=
    hslots.symm.trans (hpre.trans (hpre'.symm.trans hslots'))
  cases heq

end UnifiedRadixCache

end Sglang
