/-
# The order by weight of the prefix tree

A transcription of `SchedulePolicy._compute_prefix_matches` and `_sort_by_dfs_weight`
(`schedule_policy.py`) over the radix cache itself.  Every request of the waiting queue is looked up in the
tree, which may split nodes, also below nodes that requests before it ended at, and in a second tree of the
requests seen so far.  Then the queue is emptied and filled again by a walk through the tree: the recursion
is given fuel, one unit a level (the interpreter's own limit of about a thousand levels is left out), and
the dicts are functions from node objects.

A split leaves the lower part to the node object that was there, so the nodes found before stay in the tree
(`computePrefixMatches_spec`), and the walk from the root comes by each of them.
-/
import Sglang.Lib.OptionLoops
import Sglang.Lib.TreeOrder
import Sglang.MemCache.Refinement
import Sglang.MemCache.Request

namespace Sglang

open Lib List Option Function RadixCache RootedTree

namespace DfsWeight

/-! ## 1. The lookups -/

/-- `IN_BATCH_PREFIX_CACHING_CHECK_THRESHOLD` and `IN_BATCH_PREFIX_CACHING_DEPRIORITIZE_THRESHOLD`, and
`SGLANG_RADIX_FORCE_MISS`. -/
structure PolicyEnv where
  checkThreshold : ℤ
  deprioritizeThreshold : ℤ
  forceMiss : Bool

/-- What the pass works on: the tree cache, the tree of the waiting queue, the requests, and the requests
that wait for another one. -/
structure MatchPass where
  treeCache : RadixCache ℕ
  waitingQueueRadixTree : RadixCache Bool
  reqs : ReqId → Req
  temporaryDeprioritized : List ReqId

/-- `RadixCache.create_simulated`: pages of one token, no events. -/
def simulated (cfg : CacheConfig) : CacheConfig where
  pageSize := 1
  isEagle := false
  enableKvCacheEvents := false
  disableFinishedInsert := cfg.disableFinishedInsert
  evictionPolicy := cfg.evictionPolicy
  sha256 := cfg.sha256
  monotonic := cfg.monotonic
  tieBreak := cfg.tieBreak
  pageSize_pos := Nat.one_pos

/-- `zero_match_result`. -/
def zeroMatchResult {σ : Type} (c : RadixCache σ) : MatchResult σ := ⟨[], c.rootNode, c.rootNode, 0⟩

/-- `match_prefix`, and the zero result if misses are forced. -/
def matchOrMiss {σ : Type} (cfg : CacheConfig) (env : PolicyEnv) (c : RadixCache σ) (key : RadixKey) :
    Option (MatchResult σ × RadixCache σ) :=
  (c.matchPrefix cfg key).map fun r => (if env.forceMiss then zeroMatchResult r.2 else r.1, r.2)

/-- The key of a request. -/
def prefixKey (r : Req) : RadixKey := ⟨r.tokenIds, r.extraKey, false⟩

/-- `match_prefix_for_req`. -/
def matchPrefixForReq (cfg : CacheConfig) (env : PolicyEnv) (s : MatchPass) (r : ReqId) :
    Option MatchPass := do
  let (m, c) ← matchOrMiss cfg env s.treeCache (prefixKey (s.reqs r))
  return { s with
    treeCache := c
    reqs := Function.update s.reqs r
      { s.reqs r with prefixIndices := m.deviceIndices, lastNode := some m.lastDeviceNode } }

/-- The rest of a round: the lookup among the requests of the queue. -/
def checkInBatch (cfg : CacheConfig) (env : PolicyEnv) (s : MatchPass) (r : ReqId) : Option MatchPass := do
  if ((s.reqs r).prefixIndices.length : ℤ) ≤ env.checkThreshold then
    let (m, c) ← matchOrMiss (simulated cfg) env s.waitingQueueRadixTree (prefixKey (s.reqs r))
    if (m.deviceIndices.length : ℤ) ≥ env.deprioritizeThreshold then
      return { s with
        waitingQueueRadixTree := c
        temporaryDeprioritized := s.temporaryDeprioritized.insert r }
    else
      let (_, c) ← c.insert (simulated cfg) (prefixKey (s.reqs r))
        (List.replicate (s.reqs r).tokenIds.length false) 0 false
      return { s with waitingQueueRadixTree := c }
  else return s

/-- `_compute_prefix_matches`. -/
def computePrefixMatches (cfg : CacheConfig) (env : PolicyEnv) (s : MatchPass) (waitingQueue : List ReqId) :
    Option MatchPass :=
  waitingQueue.foldlM (fun s r => do checkInBatch cfg env (← matchPrefixForReq cfg env s r) r)
    { s with
      waitingQueueRadixTree := s.waitingQueueRadixTree.reset (simulated cfg)
      temporaryDeprioritized := [] }

/-! ## 2. The walk -/

/-- `last_node_to_reqs`. -/
def lastNodeToReqs (reqs : ReqId → Req) (waitingQueue : List ReqId) : Option NodeId → List ReqId :=
  waitingQueue.foldl (fun d r => Function.update d (reqs r).lastNode (d (reqs r).lastNode ++ [r]))
    fun _ => []

/-- `_calc_weight`. -/
def calcWeight (c : RadixCache ℕ) : ℕ → NodeId → (NodeId → ℕ) → Option (NodeId → ℕ)
  | 0, _, _ => none
  | fuel + 1, curNode, nodeToWeight =>
    (c.nodes curNode).children.values.foldlM (fun nodeToWeight child => do
      let nodeToWeight ← calcWeight c fuel child nodeToWeight
      return Function.update nodeToWeight curNode (nodeToWeight curNode + nodeToWeight child)) nodeToWeight

/-- `_get_dfs_priority`. -/
def getDfsPriority (c : RadixCache ℕ) (nodeToPriority : NodeId → ℕ) (reqsAt : Option NodeId → List ReqId) :
    ℕ → NodeId → List ReqId → Option (List ReqId)
  | 0, _, _ => none
  | fuel + 1, curNode, q => do
    let children := (c.nodes curNode).children.values.mergeSort
      fun a b => decide (-(nodeToPriority a : ℤ) ≤ -(nodeToPriority b : ℤ))
    let q ← children.foldlM (fun q child => getDfsPriority c nodeToPriority reqsAt fuel child q) q
    return q ++ reqsAt (some curNode)

/-- `_sort_by_dfs_weight`. -/
def sortByDfsWeight (c : RadixCache ℕ) (reqs : ReqId → Req) (waitingQueue : List ReqId) :
    Option (List ReqId) := do
  let reqsAt := lastNodeToReqs reqs waitingQueue
  let nodeToWeight ← calcWeight c c.counter c.rootNode fun node => (reqsAt (some node)).length
  getDfsPriority c nodeToWeight reqsAt c.counter c.rootNode []

/-! ## 3. The lookups keep the nodes -/

section Lookups

variable {cfg : CacheConfig} {env : PolicyEnv} {t : RootedTree NodeId}

/-- A lookup ends at a node of the tree, and the nodes that were there stay. -/
theorem matchOrMiss_spec {σ : Type} {c : RadixCache σ} (hb : RadixCache.Base cfg t c) (key : RadixKey)
    (hmode : RadixCache.ModeOk cfg key) :
    ∃ t' m c', matchOrMiss cfg env c key = some (m, c') ∧ RadixCache.Base cfg t' c' ∧
      t.nodes ⊆ t'.nodes ∧ m.lastDeviceNode ∈ t'.nodes := by
  obtain ⟨j, vs, t', c', node, heq, hreach⟩ := matchPrefix_spec hb hmode
  have hb' := hreach.reshape.base hb
  refine ⟨t', _, c', by rw [matchOrMiss, heq, map_some], hb', hreach.reshape.nodes_subset, ?_⟩
  cases hmiss : env.forceMiss with
  | false => exact hreach.mem
  | true =>
    change c'.rootNode ∈ t'.nodes
    rw [hb'.represents.root_eq]
    exact t'.root_mem

/-- The state of the pass when some requests have been looked up. -/
structure Matched (cfg : CacheConfig) (t : RootedTree NodeId) (found : List ReqId) (s : MatchPass) :
    Prop where
  treeCache : RadixCache.Base cfg t s.treeCache
  waitingQueueRadixTree : ∃ t', RadixCache.Base (simulated cfg) t' s.waitingQueueRadixTree
  lastNode : ∀ r ∈ found, ∃ n ∈ t.nodes, (s.reqs r).lastNode = some n

/-- The second lookup of a round leaves the tree cache and the requests alone. -/
theorem checkInBatch_spec {found : List ReqId} {s : MatchPass} (h : Matched cfg t found s) (r : ReqId) :
    ∃ s', checkInBatch cfg env s r = some s' ∧ Matched cfg t found s' := by
  obtain ⟨t', hb⟩ := h.waitingQueueRadixTree
  obtain ⟨t₁, m, c₁, heq, hb₁, -, -⟩ :=
    matchOrMiss_spec hb (prefixKey (s.reqs r)) fun hbigram => absurd hbigram (by simp [prefixKey])
  rw [checkInBatch]
  split
  · rw [heq]
    simp only [bind_eq_bind, bind_some]
    split
    · exact ⟨_, rfl, ⟨h.treeCache, ⟨t₁, hb₁⟩, h.lastNode⟩⟩
    · have hlen : (normKey (simulated cfg) (prefixKey (s.reqs r))).len ≤
          (List.replicate (s.reqs r).tokenIds.length false).length := by
        rw [length_replicate, normKey, RadixKey.len_pageAligned]
        exact Nat.div_mul_le_self _ _
      obtain ⟨j, vs, t₂, c₂, node, t₃, c₃, hins, hreach, hgrow⟩ := RadixCache.insert_spec hb₁
        (fun hbigram => absurd hbigram (by simp [prefixKey])) hlen
        (fun hon => absurd hon (by simp [simulated])) 0 false
      rw [hins]
      exact ⟨_, rfl, ⟨h.treeCache, ⟨t₃, hgrow.base (hreach.reshape.base hb₁)⟩, h.lastNode⟩⟩
  · exact ⟨s, rfl, h⟩

theorem round_spec {found : List ReqId} {s : MatchPass} (h : Matched cfg t found s) (r : ReqId) :
    ∃ t' s', (do checkInBatch cfg env (← matchPrefixForReq cfg env s r) r : Option MatchPass) = some s' ∧
      Matched cfg t' (r :: found) s' := by
  obtain ⟨t', m, c', heq, hb', hsub, hmem⟩ :=
    matchOrMiss_spec h.treeCache (prefixKey (s.reqs r))
      fun hbigram => absurd hbigram (by simp [prefixKey])
  have hmatched : Matched cfg t' (r :: found) { s with
      treeCache := c'
      reqs := Function.update s.reqs r
        { s.reqs r with prefixIndices := m.deviceIndices, lastNode := some m.lastDeviceNode } } := by
    refine ⟨hb', h.waitingQueueRadixTree, fun r' hr' => ?_⟩
    by_cases hrr : r' = r
    · subst hrr
      exact ⟨_, hmem, by simp⟩
    · obtain ⟨n, hn, hlast⟩ := h.lastNode r' ((mem_cons.mp hr').resolve_left hrr)
      exact ⟨n, hsub hn, by simp [update_of_ne hrr, hlast]⟩
  obtain ⟨s', hs', hfinal⟩ := checkInBatch_spec hmatched r
  refine ⟨t', s', ?_, hfinal⟩
  rw [matchPrefixForReq, heq]
  exact hs'

variable (env) in
/-- **After the pass every request knows a node of the tree**, splits on the way or not. -/
theorem computePrefixMatches_spec {s : MatchPass} (hb : RadixCache.Base cfg t s.treeCache)
    (waitingQueue : List ReqId) :
    ∃ t' s', computePrefixMatches cfg env s waitingQueue = some s' ∧
      RadixCache.Base cfg t' s'.treeCache ∧
      ∀ r ∈ waitingQueue, ∃ n ∈ t'.nodes, (s'.reqs r).lastNode = some n := by
  have hrun : ∀ (queue found : List ReqId) (t : RootedTree NodeId) (s : MatchPass), Matched cfg t found s →
      ∃ t' s', queue.foldlM (fun s r => do checkInBatch cfg env (← matchPrefixForReq cfg env s r) r) s =
        some s' ∧ Matched cfg t' (queue.reverse ++ found) s' := by
    intro queue
    induction queue with
    | nil => exact fun found t s h => ⟨t, s, rfl, h⟩
    | cons r queue ih =>
      intro found t s h
      obtain ⟨t₁, s₁, hs₁, h₁⟩ := round_spec h r
      obtain ⟨t', s', hs', h'⟩ := ih (r :: found) t₁ s₁ h₁
      refine ⟨t', s', ?_, ?_⟩
      · rw [foldlM_cons, hs₁]
        exact hs'
      · rw [reverse_cons, append_assoc]
        exact h'
  have hstart : Matched cfg t [] { s with
      waitingQueueRadixTree := s.waitingQueueRadixTree.reset (simulated cfg)
      temporaryDeprioritized := [] } :=
    ⟨hb, ⟨_, (reset_inv (simulated cfg) s.waitingQueueRadixTree).toBase⟩,
      fun r hr => absurd hr not_mem_nil⟩
  obtain ⟨t', s', hs', h'⟩ := hrun waitingQueue [] t _ hstart
  refine ⟨t', s', hs', h'.treeCache, fun r hr => h'.lastNode r ?_⟩
  rw [append_nil, mem_reverse]
  exact hr

end Lookups

/-! ## 4. The walk visits every node -/

section Walk

variable {cfg : CacheConfig} {t : RootedTree NodeId} {c : RadixCache ℕ} {n : NodeId}

theorem lastNodeToReqs_eq (reqs : ReqId → Req) (waitingQueue : List ReqId) (n : Option NodeId) :
    lastNodeToReqs reqs waitingQueue n = waitingQueue.filter fun r => (reqs r).lastNode = n := by
  induction waitingQueue using List.reverseRecOn with
  | nil => rfl
  | append_singleton queue r ih =>
    rw [lastNodeToReqs, foldl_append, foldl_cons, foldl_nil, filter_append, ← lastNodeToReqs]
    by_cases hn : (reqs r).lastNode = n
    · rw [hn, update_self, ih, filter_singleton, decide_eq_true hn]
      rfl
    · rw [update_of_ne (Ne.symm hn), ih, filter_singleton, decide_eq_false hn]
      exact (append_nil _).symm

theorem children_spec (hrep : RadixCache.Represents cfg t c) (hn : n ∈ t.nodes) :
    (c.nodes n).children.values.Nodup ∧ ∀ k, k ∈ (c.nodes n).children.values ↔ t.Child n k := by
  refine ⟨Dict.nodup_values _ fun k k' v hk hk' => ?_, fun k => hrep.mem_values_iff hn⟩
  have h1 := ((hrep.lookup_iff hn).mp hk).2
  rw [((hrep.lookup_iff hn).mp hk').2] at h1
  exact (Option.some.inj h1).symm

variable {key : ReqId → NodeId} {items : List ReqId}

/-- The fuel left at a node is enough for the levels below it. -/
theorem fuel_child {fuel k : ℕ} (hfuel : c.counter ≤ fuel + 1 + (t.up n).length) (hk : t.Child n k) :
    c.counter ≤ fuel + (t.up k).length := by
  rw [up_length_child hk]
  omega

/-- **`_calc_weight`** leaves at every node below the number of requests below. -/
theorem calcWeight_spec (hrep : RadixCache.Represents cfg t c) (hkey : ∀ r ∈ items, key r ∈ t.nodes) :
    ∀ (fuel n : ℕ) (w : NodeId → ℕ), n ∈ t.nodes → c.counter ≤ fuel + (t.up n).length →
      (∀ m ∈ t.nodes, t.Under n m → w m = (items.filter fun r => key r = m).length) →
      ∃ w', calcWeight c fuel n w = some w' ∧
        (∀ m ∈ t.nodes, t.Under n m → w' m = t.weight key items m) ∧
        ∀ m, ¬ (m ∈ t.nodes ∧ t.Under n m) → w' m = w m := by
  intro fuel
  induction fuel with
  | zero =>
    intro n w hn hfuel
    have := hrep.up_length_lt_counter hn
    omega
  | succ fuel ih =>
    intro n w hn hfuel hw
    obtain ⟨hnd, hchild⟩ := children_spec hrep hn
    have hloop : ∀ ks : List NodeId, ks.Nodup → (∀ k ∈ ks, t.Child n k) → ∀ w : NodeId → ℕ,
        (∀ k ∈ ks, ∀ m ∈ t.nodes, t.Under k m → w m = (items.filter fun r => key r = m).length) →
        ∃ w', ks.foldlM (fun w child => do
            let w ← calcWeight c fuel child w
            return Function.update w n (w n + w child)) w = some w' ∧
          (∀ k ∈ ks, ∀ m ∈ t.nodes, t.Under k m → w' m = t.weight key items m) ∧
          w' n = w n + (ks.map (t.weight key items)).sum ∧
          ∀ m, m ≠ n → (∀ k ∈ ks, ¬ (m ∈ t.nodes ∧ t.Under k m)) → w' m = w m := by
      intro ks
      induction ks with
      | nil => exact fun _ _ w _ => ⟨w, rfl, by simp, by simp, fun m _ _ => rfl⟩
      | cons k ks ihks =>
        intro hnd hks w hw
        rw [nodup_cons] at hnd
        have hk := hks k mem_cons_self
        obtain ⟨w₁, hw₁, hbelow, hother⟩ := ih k w hk.1 (fuel_child hfuel hk) (hw k mem_cons_self)
        have hnk : w₁ n = w n := hother n fun h => not_under_parent hk h.2
        have hkk : w₁ k = t.weight key items k := hbelow k hk.1 (under_self hk.1)
        -- the subtrees of the other children are not touched
        have hapart : ∀ k' ∈ ks, ∀ m ∈ t.nodes, t.Under k' m → m ≠ n ∧ ¬ t.Under k m := by
          intro k' hk' m hm hu
          refine ⟨fun hmn => not_under_parent (hks k' (mem_cons_of_mem _ hk')) (hmn ▸ hu),
            fun hum => hnd.1 ?_⟩
          rwa [sibling_eq hm hk (hks k' (mem_cons_of_mem _ hk')) hum hu]
        obtain ⟨w', hw', hrest, hsum, hframe⟩ := ihks hnd.2
          (fun k' hk' => hks k' (mem_cons_of_mem _ hk'))
          (Function.update w₁ n (w₁ n + w₁ k)) fun k' hk' m hm hu => by
            obtain ⟨hmn, hkm⟩ := hapart k' hk' m hm hu
            rw [update_of_ne hmn, hother m fun h => hkm h.2]
            exact hw k' (mem_cons_of_mem _ hk') m hm hu
        refine ⟨w', ?_, fun k' hk' m hm hu => ?_, ?_, fun m hmn hout => ?_⟩
        · rw [foldlM_cons, hw₁]
          exact hw'
        · rcases mem_cons.mp hk' with rfl | hk'
          · have hmn : m ≠ n := fun hmn => not_under_parent hk (hmn ▸ hu)
            rw [hframe m hmn fun i hi hui => (hapart i hi m hm hui.2).2 hu, update_of_ne hmn]
            exact hbelow m hm hu
          · exact hrest k' hk' m hm hu
        · rw [hsum, update_self, hnk, hkk, map_cons, sum_cons, Nat.add_assoc]
        · rw [hframe m hmn fun i hi => hout i (mem_cons_of_mem _ hi), update_of_ne hmn]
          exact hother m (hout k mem_cons_self)
    obtain ⟨w', hw', hbelow, hsum, hframe⟩ := hloop _ hnd (fun k hk => (hchild k).mp hk) w
      fun k hk m hm hu => hw m hm (under_trans hm (under_child ((hchild k).mp hk)) hu)
    refine ⟨w', hw', fun m hm hu => ?_, fun m hout => ?_⟩
    · rcases (under_iff hn hm).mp hu with rfl | ⟨k, hk, hkm⟩
      · rw [hsum, hw m hm hu, weight_node hn hkey hnd hchild]
      · exact hbelow k ((hchild k).mpr hk) m hm hkm
    · refine hframe m (fun hmn => hout (by rw [hmn]; exact ⟨hn, under_self hn⟩))
        fun k hk hkm => hout ?_
      exact ⟨hkm.1, under_trans hkm.1 (under_child ((hchild k).mp hk)) hkm.2⟩

theorem foldlM_append {α β : Type} {f : List β → α → Option (List β)} {block : α → List β} {l : List α}
    (h : ∀ x ∈ l, ∀ q, f q x = some (q ++ block x)) (q : List β) :
    l.foldlM f q = some (q ++ l.flatMap block) := by
  induction l generalizing q with
  | nil => rw [flatMap_nil, append_nil]; rfl
  | cons x l ih =>
    rw [foldlM_cons, h x mem_cons_self, bind_eq_bind, bind_some,
      ih fun y hy => h y (mem_cons_of_mem _ hy), flatMap_cons, append_assoc]

/-- **`_get_dfs_priority`** appends the requests below a node, in depth-first order. -/
theorem getDfsPriority_spec (hrep : RadixCache.Represents cfg t c) (hkey : ∀ r ∈ items, key r ∈ t.nodes)
    {w : NodeId → ℕ} (hw : ∀ m ∈ t.nodes, w m = t.weight key items m)
    {reqsAt : Option NodeId → List ReqId}
    (hat : ∀ m, reqsAt (some m) = items.filter fun r => key r = m) :
    ∀ fuel n : ℕ, n ∈ t.nodes → c.counter ≤ fuel + (t.up n).length →
      ∃ block, t.DepthFirst key items n block ∧
        ∀ q, getDfsPriority c w reqsAt fuel n q = some (q ++ block) := by
  intro fuel
  induction fuel with
  | zero =>
    intro n hn hfuel
    have := hrep.up_length_lt_counter hn
    omega
  | succ fuel ih =>
    intro n hn hfuel
    obtain ⟨hnd, hchild⟩ := children_spec hrep hn
    obtain ⟨ks, hks⟩ : ∃ ks, (c.nodes n).children.values.mergeSort
      (fun a b => decide (-(w a : ℤ) ≤ -(w b : ℤ))) = ks := ⟨_, rfl⟩
    have hperm : ks.Perm (c.nodes n).children.values := hks ▸ mergeSort_perm _ _
    have hmem : ∀ k, k ∈ ks ↔ t.Child n k := fun k => (hperm.mem_iff).trans (hchild k)
    have hsorted : ks.Pairwise fun k k' => t.weight key items k' ≤ t.weight key items k := by
      have hle := @List.pairwise_mergeSort _ (fun a b => decide (-(w a : ℤ) ≤ -(w b : ℤ)))
        (fun a b d hab hbd => by
          rw [decide_eq_true_eq] at hab hbd ⊢
          exact hab.trans hbd)
        (fun a b => by
          rw [Bool.or_eq_true, decide_eq_true_eq, decide_eq_true_eq]
          exact le_total _ _) (c.nodes n).children.values
      rw [hks] at hle
      refine hle.imp_of_mem fun {k k'} hk hk' h => ?_
      rw [decide_eq_true_eq, hw k ((hmem k).mp hk).1, hw k' ((hmem k').mp hk').1] at h
      omega
    have hblocks : ∀ k, ∃ block, k ∈ ks → t.DepthFirst key items k block ∧
        ∀ q, getDfsPriority c w reqsAt fuel k q = some (q ++ block) := by
      intro k
      by_cases hk : k ∈ ks
      · obtain ⟨block, hblock⟩ := ih k ((hmem k).mp hk).1 (fuel_child hfuel ((hmem k).mp hk))
        exact ⟨block, fun _ => hblock⟩
      · exact ⟨[], fun h => absurd h hk⟩
    choose block hblock using hblocks
    refine ⟨_, RootedTree.DepthFirst.node hn hkey (hperm.nodup_iff.mpr hnd) hmem hsorted
      fun k hk => (hblock k hk).1, fun q => ?_⟩
    rw [getDfsPriority, hks, foldlM_append (fun k hk => (hblock k hk).2) q, ← append_assoc, ← hat n]
    rfl

/-- **`_sort_by_dfs_weight`** puts the queue in depth-first order. -/
theorem sortByDfsWeight_spec (hrep : RadixCache.Represents cfg t c) {reqs : ReqId → Req}
    {waitingQueue : List ReqId}
    (hlast : ∀ r ∈ waitingQueue, key r ∈ t.nodes ∧ (reqs r).lastNode = some (key r)) :
    ∃ queue, sortByDfsWeight c reqs waitingQueue = some queue ∧
      t.DepthFirst key waitingQueue t.root queue := by
  have hkey : ∀ r ∈ waitingQueue, key r ∈ t.nodes := fun r hr => (hlast r hr).1
  have hat : ∀ m, lastNodeToReqs reqs waitingQueue (some m) = waitingQueue.filter fun r => key r = m := by
    intro m
    rw [lastNodeToReqs_eq]
    refine filter_congr fun r hr => ?_
    rw [(hlast r hr).2]
    simp
  have hfuel : c.counter ≤ c.counter + (t.up t.root).length := Nat.le_add_right _ _
  obtain ⟨w, hw, hweight, -⟩ := calcWeight_spec hrep hkey c.counter t.root
    (fun node => (lastNodeToReqs reqs waitingQueue (some node)).length) t.root_mem hfuel
    fun m _ _ => congrArg List.length (hat m)
  obtain ⟨block, hblock, hrun⟩ := getDfsPriority_spec hrep hkey (fun m hm => hweight m hm (.inl rfl)) hat
    c.counter t.root t.root_mem hfuel
  refine ⟨block, ?_, hblock⟩
  rw [sortByDfsWeight]
  simp [hrep.root_eq, hw, hrun]

end Walk

/-! ## 5. The pass -/

section Pass

variable {cfg : CacheConfig} {M : PrefixMap (Option String) (List Atom) (List ℕ)}
  {s : MatchPass}

/-- **The order by weight loses no request and repeats none.**  Whatever run the tree cache has behind it
and whatever queue is matched against it, every request ends at a node of the tree that the matches leave,
and the sort makes of the queue a permutation in which the requests below any node stand together, those of
a node behind those of its descendants, and those below a sibling with fewer requests behind those below a
sibling with more. -/
theorem pass_permutes (h : RadixCache.Run cfg M s.treeCache) (env : PolicyEnv)
    (waitingQueue : List ReqId) :
    ∃ (t : RootedTree NodeId) (s' : MatchPass) (lastNode : ReqId → NodeId) (queue : List ReqId),
      computePrefixMatches cfg env s waitingQueue = some s' ∧
      RadixCache.Represents cfg t s'.treeCache ∧
      (∀ r ∈ waitingQueue, lastNode r ∈ t.nodes ∧ (s'.reqs r).lastNode = some (lastNode r)) ∧
      sortByDfsWeight s'.treeCache s'.reqs waitingQueue = some queue ∧
      queue.Perm waitingQueue ∧ t.DepthFirst lastNode waitingQueue t.root queue := by
  obtain ⟨⟨t₀, hb₀⟩, -⟩ := h.refines
  obtain ⟨t, s', hs', hb, hlast⟩ := computePrefixMatches_spec env hb₀ waitingQueue
  have hkey : ∀ r ∈ waitingQueue, ((s'.reqs r).lastNode.getD t.root) ∈ t.nodes ∧
      (s'.reqs r).lastNode = some ((s'.reqs r).lastNode.getD t.root) := by
    intro r hr
    obtain ⟨n, hn, hrn⟩ := hlast r hr
    rw [hrn]
    exact ⟨hn, rfl⟩
  obtain ⟨queue, hqueue, hdepth⟩ := sortByDfsWeight_spec hb.represents hkey
  refine ⟨t, s', fun r => (s'.reqs r).lastNode.getD t.root, queue, hs', hb.represents, hkey, hqueue,
    ?_, hdepth⟩
  exact hdepth.perm.trans (.of_eq (itemsUnder_root t _ _))

/-- A request with that prompt. -/
def smallReq (originInputIds : List Token) : Req where
  originInputIds := originInputIds
  outputIds := []
  fillIds := []
  extraKey := none
  priority := none
  skipRadixCacheInsert := false
  returnLogprob := false
  logprobStartLen := 0
  positionalEmbedOverrides := false
  inputEmbeds := false
  reasoningTokens := 0
  isChunked := 0
  reqPoolIdx := none
  prefixIndices := []
  lastNode := none
  cacheProtectedLen := 0
  kvCommittedLen := 0
  kvAllocatedLen := 0
  kvCommittedFreed := false
  kvOverallocatedFreed := false

/-- Four requests, of which the second one splits the node that the first one was found at. -/
def smallPass (c : RadixCache ℕ) : MatchPass where
  treeCache := c
  waitingQueueRadixTree := RadixCache.init (simulated (RadixCache.smallConfig false))
  reqs := fun r =>
    smallReq ([[1, 2, 3, 4], [1, 2, 9, 9], [7, 8], [1, 2, 3, 4]].getD r [])
  temporaryDeprioritized := []

/-- The theorem on that queue: the two requests of the longer prompt come first, and last the one that is
in no node but the root. -/
theorem pass_permutes_small : ∃ (s s' : MatchPass) (queue : List ReqId),
    computePrefixMatches (RadixCache.smallConfig false) ⟨32, 32, false⟩ s [0, 1, 2, 3] = some s' ∧
    sortByDfsWeight s'.treeCache s'.reqs [0, 1, 2, 3] = some queue ∧
    queue.Perm [0, 1, 2, 3] ∧ queue = [0, 3, 1, 2] := by
  have heq : (RadixCache.init (RadixCache.smallConfig false)).insert (RadixCache.smallConfig false)
      ⟨[1, 2, 3, 4], none, false⟩ [10, 11, 12, 13] 0 false =
        some (smallInsert.get smallInsert_isSome) :=
    (some_get smallInsert_isSome).symm
  have hrun := RadixCache.Run.insert (RadixCache.Run.reset _) (fun h => by cases h) (by decide +kernel)
    (fun h => by cases h) heq
  have hsort : (computePrefixMatches (RadixCache.smallConfig false) ⟨32, 32, false⟩
      (smallPass (smallInsert.get smallInsert_isSome).2) [0, 1, 2, 3]).bind
        (fun s' => sortByDfsWeight s'.treeCache s'.reqs [0, 1, 2, 3]) = some [0, 3, 1, 2] := by
    decide +kernel
  obtain ⟨t, s', lastNode, queue, hs', -, -, hqueue, hperm, -⟩ := pass_permutes
    (s := smallPass (smallInsert.get smallInsert_isSome).2) hrun
    ⟨32, 32, false⟩ [0, 1, 2, 3]
  rw [hs', bind_some, hqueue, some_inj] at hsort
  exact ⟨_, s', queue, hs', hqueue, hperm, hsort⟩

end Pass

end DfsWeight

end Sglang
