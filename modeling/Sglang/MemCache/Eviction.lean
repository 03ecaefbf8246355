/-
# What an eviction does

`evict` removes leaves until enough slots are free.  A parent becomes a candidate only when its last
child has gone, so that all unlocked nodes can be reached rests on the locks: a node has at least as
many of them as any node below it, and below every unlocked node there is an unlocked leaf.  So the
heap runs empty only when nothing is left that could be evicted (`evict_exact`).
-/
import Sglang.MemCache.LockAccounting

namespace Sglang

open Lib List Finset

namespace RadixCache

variable {σ : Type}

section Rounds

variable {cfg : CacheConfig} {numTokens numEvicted : ℕ} {t t' : RootedTree NodeId}
  {c c' : RadixCache σ} {heap : List (List ℤ × NodeId)} {ns : List NodeId} {locks : List NodeId}

/-! ## 1. What the rounds remove -/

/-- The nodes that are removed leave the tree, one after the other; the others keep all they have. -/
structure Uproots (t t' : RootedTree NodeId) (c c' : RadixCache σ) (ns : List NodeId) : Prop where
  nodup : ns.Nodup
  mem : ∀ n ∈ ns, n ∈ t.nodes ∧ (c.nodes n).lockRef ≤ 0
  mem_iff : ∀ n, n ∈ t'.nodes ↔ n ∈ t.nodes ∧ n ∉ ns
  rootNode : c'.rootNode = c.rootNode
  parent : ∀ n, (c'.nodes n).parent = (c.nodes n).parent
  key : ∀ n, (c'.nodes n).key = (c.nodes n).key
  value : ∀ n, (c'.nodes n).value = (c.nodes n).value
  lockRef : ∀ n, (c'.nodes n).lockRef = (c.nodes n).lockRef

theorem Rounds.uproots (h : Rounds cfg numTokens t' c' t c heap numEvicted ns) (hb : Base cfg t c)
    (hheap : HeapOk c heap) : Uproots t t' c c' ns := by
  induction h with
  | stop _ =>
    exact ⟨nodup_nil, nofun, fun n => by simp, rfl, fun _ => rfl, fun _ => rfl, fun _ => rfl,
      fun _ => rfl⟩
  | @round t c c₁ heap _ ns e _ he hd _ _ ih =>
    have hmem := (mem_heapLeast.mp he).1
    obtain ⟨hx, hr, h0, -⟩ := (hb.leaves.mem_iff e.2).mp (hheap.leaf e.2 (List.mem_map_of_mem hmem))
    have hrest := ih (hd.base hb) (hheap.pop hmem hb hd rfl)
    have hnodes : ∀ n, n ∈ hd.tree.nodes ↔ n ≠ e.2 ∧ n ∈ t.nodes := fun n => by
      rw [IsDetach.tree_nodes, mem_erase]
    refine ⟨nodup_cons.mpr ⟨fun hin => ?_, hrest.nodup⟩, fun n hn => ?_, fun n => ?_,
      hrest.rootNode.trans hd.rootNode, fun n => (hrest.parent n).trans (hd.parent n),
      fun n => (hrest.key n).trans (hd.key n), fun n => (hrest.value n).trans (hd.value n),
      fun n => (hrest.lockRef n).trans (hd.lockRef n)⟩
    · exact ((hnodes e.2).mp (hrest.mem e.2 hin).1).1 rfl
    · rcases List.mem_cons.mp hn with rfl | hn
      · exact ⟨hx, h0⟩
      · obtain ⟨hin, hlock⟩ := hrest.mem n hn
        exact ⟨((hnodes n).mp hin).2, hd.lockRef n ▸ hlock⟩
    · rw [hrest.mem_iff, hnodes, List.mem_cons]
      tauto

/-- What is evicted before a node falls short of the aim. -/
theorem Rounds.short (h : Rounds cfg numTokens t' c' t c heap numEvicted ns) {before after : List NodeId}
    {n : NodeId} (hns : ns = before ++ n :: after) :
    numEvicted + (before.map c.slots).flatten.length < numTokens := by
  induction h generalizing before with
  | stop _ => simp at hns
  | @round t c c₁ heap numEvicted ns e hlt he hd _ _ ih =>
    cases before with
    | nil => simpa using hlt
    | cons x before =>
      obtain ⟨rfl, htail⟩ := List.cons.inj hns
      have hrest := ih htail
      rw [hd.slots] at hrest
      simpa [Nat.add_assoc] using hrest

theorem Evicts.evictableSize {freed : List (List σ)} (h : Evicts cfg t c t' c' freed)
    (hb : Base cfg t c) : c'.evictableSize = c.evictableSize - freed.flatten.length := by
  induction h with
  | refl => simp
  | @step t₁ c₁ c₂ freed n value hev hd _ hv ih =>
    obtain ⟨v, hv', hlen⟩ := (hev.base hb).filled n hd.mem hd.ne_root
    rw [hv, Option.some.injEq] at hv'
    rw [hd.evictableSize, ih, ← hlen, ← hv']
    simp
    ring

theorem evictableSize_of_locked (hi : Inv cfg t locks c)
    (hleaves : ∀ n ∈ c.evictableLeaves, (c.nodes n).lockRef ≠ 0) : c.evictableSize = 0 := by
  rw [hi.sizes.evictableSize]
  refine Finset.sum_eq_zero fun n hn => ?_
  obtain ⟨hr, hn⟩ := mem_erase.mp hn
  rw [unlockedLen, if_neg]
  intro h0
  obtain ⟨m, hm, hmr, hup, hleaf⟩ := RootedTree.exists_leaf_below hn hr
  have hbelow := RootedTree.below_mono locks hi.locks_mem hup
  rw [hi.lockRef_eq n hn hr] at h0
  have hm0 : (c.nodes m).lockRef = 0 := by
    rw [hi.lockRef_eq m hm hmr]
    omega
  exact hleaves m ((hi.leaves.mem_iff m).mpr ⟨hm, hmr, hm0.le, hleaf⟩) hm0

/-- A node that stays has its ancestors. -/
theorem Uproots.leadsTo (h : Uproots t t' c c' ns) (hrep : Represents cfg t' c') {m k : NodeId}
    (hlead : LeadsTo c m k) (hm : m ∈ t'.nodes) : k ∈ t'.nodes := by
  induction hlead with
  | refl n => exact hm
  | @parent m p n hne hp _ ih =>
    rw [← h.rootNode, hrep.root_eq] at hne
    have hpar := hrep.parent_eq hm hne
    rw [h.parent, hp, Option.some.injEq] at hpar
    exact ih (hpar ▸ t'.parent_mem hm hne)

end Rounds

end RadixCache

/-! ## 2. One eviction -/

namespace KVSystem

open RadixCache

variable {cfg : CacheConfig} {args : ServerArgs} {locks : List NodeId} {S : KVSystem}

/-- What an eviction does: `ns` are the nodes it removes, in order, and `freed` the slots it frees. -/
structure EvictsExactly (cfg : CacheConfig) (c : RadixCache ℕ) (numTokens n : ℕ)
    (freed : List (List ℕ)) (c' : RadixCache ℕ) (ns : List NodeId) : Prop where
  nodup : ns.Nodup
  removed : ∀ m, m ∈ ns ↔ InTree cfg c m ∧ ¬ InTree cfg c' m
  kept : ∀ m, InTree cfg c' m → InTree cfg c m ∧ (c'.nodes m).value = (c.nodes m).value
  freed_eq : freed = ns.map c.slots
  count : n = freed.flatten.length
  enough : min (numTokens : ℤ) c.evictableSize ≤ n
  evictableSize : c'.evictableSize = c.evictableSize - n
  locked : ∀ m k, InTree cfg c m → 0 < (c.nodes m).lockRef → LeadsTo c m k → InTree cfg c' k
  stops : ∀ before last, ns = before ++ [last] → (before.map c.slots).flatten.length < numTokens

theorem evict_rounds_exact {t : RootedTree NodeId} {c : RadixCache ℕ} (hi : Inv cfg t locks c)
    (numTokens : ℕ) : ∃ t' c' ns,
      c.evict cfg numTokens = some ((ns.map c.slots).flatten.length, ns.map c.slots, c')
        ∧ Rounds cfg numTokens t' c' t c (c.evictableLeaves.map fun n =>
          (cfg.evictionPolicy.getPriority (c.nodes n), n)) 0 ns
        ∧ EvictsExactly cfg c numTokens (ns.map c.slots).flatten.length (ns.map c.slots) c' ns := by
  obtain ⟨t', c', ns, heq, hrounds⟩ := evict_rounds hi.toBase numTokens
  have hev := hrounds.evicts hi.toBase (heapOk_start hi.toBase)
  have hup := hrounds.uproots hi.toBase (heapOk_start hi.toBase)
  have hi' := hev.inv hi
  have hin := fun m => hi.represents.inTree_iff (n := m)
  have hin' := fun m => hi'.represents.inTree_iff (n := m)
  have hsize := hev.evictableSize hi.toBase
  refine ⟨t', c', ns, heq, hrounds, hup.nodup, fun m => ?_, fun m hm => ?_, rfl, rfl, ?_, hsize,
    fun m k hm hlock hlead => ?_, fun before last hns => ?_⟩
  · rw [hin, hin', hup.mem_iff]
    exact ⟨fun hm => ⟨(hup.mem m hm).1, fun h => h.2 hm⟩, fun ⟨hm, hout⟩ => by tauto⟩
  · rw [hin', hup.mem_iff] at hm
    exact ⟨(hin m).mpr hm.1, hup.value m⟩
  · rcases hrounds.enough hi.toBase (heapOk_start hi.toBase) with henough | hleaves
    · rw [Nat.zero_add] at henough
      exact (min_le_left _ _).trans (by exact_mod_cast henough)
    · rw [evictableSize_of_locked hi' hleaves] at hsize
      exact (min_le_right _ _).trans (by omega)
  · rw [hin']
    rw [hin] at hm
    refine hup.leadsTo hi'.represents hlead ((hup.mem_iff m).mpr ⟨hm, fun hns => ?_⟩)
    have := (hup.mem m hns).2
    omega
  · simpa using hrounds.short hns

/-- **`evict` does its job** in every state of a run. -/
theorem evict_exact (h : LockRun cfg args locks S) (numTokens : ℕ) :
    ∃ n freed c' ns, S.cache.evict cfg numTokens = some (n, freed, c')
      ∧ S.evict cfg numTokens = some (freed.foldl free { S with cache := c' })
      ∧ EvictsExactly cfg S.cache numTokens n freed c' ns := by
  obtain ⟨t, hi⟩ := h.inv
  obtain ⟨t', c', ns, heq, -, hexact⟩ := evict_rounds_exact hi numTokens
  refine ⟨_, _, c', ns, heq, ?_, hexact⟩
  rw [KVSystem.evict, heq]
  rfl

/-- The theorem on a run: after an insertion of four tokens, an eviction of two. -/
theorem evict_exact_small : ∃ (S : KVSystem) (n : ℕ) (freed : List (List ℕ)) (c' : RadixCache ℕ)
    (ns : List NodeId), S.cache.evictableSize = 4
      ∧ S.cache.evict (smallConfig false) 2 = some (n, freed, c')
      ∧ EvictsExactly (smallConfig false) S.cache 2 n freed c' ns := by
  have hins : (bare (RadixCache.init (smallConfig false))).cache.insert (smallConfig false)
      ⟨[1, 2, 3, 4], none, false⟩ [10, 11, 12, 13] 0 false
      = some (smallInsert.get smallInsert_isSome) := (Option.some_get smallInsert_isSome).symm
  have hrun : LockRun (smallConfig false) ⟨false, false⟩ [] _ :=
    .insert (.init rfl) (fun h => by cases h) (by decide +kernel) (fun h => by cases h) hins
  obtain ⟨n, freed, c', ns, heq, -, hexact⟩ := evict_exact hrun 2
  exact ⟨_, n, freed, c', ns, by decide +kernel, heq, hexact⟩

end KVSystem

end Sglang
