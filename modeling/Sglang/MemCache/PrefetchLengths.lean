/-
# The lengths of a prefetch

`prefetch_from_storage` tries three times to get host slots: as they are, after an eviction, and cut
down to the whole pages that are free.  It submits the key with the slots, and three lengths that are
kept in different places have to agree from then on: the units of the key, from which the prefetch
thread computes the hits, the slots, into which the IO thread puts the pages, and the tokens it counts.

The third attempt cuts the slots and leaves the key.  The lengths of a submission agree exactly when it
does not come to that (`lengths_agree_iff`); and when they agree, every run of the threads keeps the
count within the slots, and each node that `check_prefetch_progress` inserts has a slot for each unit of
its key.
-/
import Sglang.Lib.OptionLoops
import Sglang.MemCache.PrefetchConservation

namespace Sglang

open Lib List Option Function

namespace HiRadixCache

variable (cfg : HiConfig)

/-! ## 1. The three attempts -/

/-- The key that `prefetch_from_storage` makes of the tokens. -/
def prefetchKey (h : HiRadixCache) (node : NodeId) (tokens : List Token) : RadixKey :=
  RadixKey.pageAligned ⟨tokens, (h.nodes node).key.extraKey, cfg.isEagle⟩ cfg.pageSize

/-- The prefetch is on, long enough and within the limit. -/
def WorthPrefetching (h : HiRadixCache) (key : RadixKey) : Prop :=
  cfg.enableStorage = true ∧ cfg.prefetchThreshold ≤ key.len ∧
    h.prefetchTokensOccupied < cfg.prefetchCapacityLimit

/-- `prefetch_length` of the third attempt. -/
def cutLength (h : HiRadixCache) : ℕ :=
  h.host.availableSize - h.host.availableSize % cfg.pageSize

/-- The slots of the first attempt that gets any. -/
def prefetchSlots (h : HiRadixCache) (node : NodeId) (keyLen : ℕ) :
    Option (Option (List ℕ) × HiRadixCache) := do
  match ← h.host.alloc keyLen with
  | some (hostIndices, host) => return (some hostIndices, { h with host := host })
  | none =>
    let h ← h.evictHost cfg keyLen
    match ← h.host.alloc keyLen with
    | some (hostIndices, host) => return (some hostIndices, { h with host := host })
    | none =>
      if h.cutLength cfg ≥ cfg.prefetchThreshold then
        let (hostIndices, host) ← (← h.host.alloc (h.cutLength cfg))
        return (some hostIndices, { h with host := host })
      else
        let h ← h.releaseHost node
        return (none, h)

/-- `h'` has submitted `p`. -/
def Submits (h : HiRadixCache) (reqId : ℕ) (node : NodeId) (tokens : List Token)
    (lastHash : Option Digest) (p : Prefetch) (h' : HiRadixCache) : Prop :=
  WorthPrefetching cfg h (prefetchKey cfg h node tokens) ∧
    ∃ hostIndices h₁, (h.protectHost node).prefetchSlots cfg node
        (prefetchKey cfg h node tokens).len = some (some hostIndices, h₁) ∧
      p = ⟨reqId, node, prefetchKey cfg h node tokens, hostIndices, lastHash⟩ ∧
      h' = h₁.startPrefetch p

/-- Even an eviction does not make room for the key, and what is free is worth it. -/
def ComesToCutting (h : HiRadixCache) (keyLen : ℕ) : Prop :=
  h.host.availableSize < keyLen ∧ ∃ h₁, h.evictHost cfg keyLen = some h₁ ∧
    h₁.host.availableSize < keyLen ∧ cfg.prefetchThreshold ≤ h₁.cutLength cfg

variable {cfg} {h h' : HiRadixCache} {node : NodeId} {tokens : List Token}

/-- **`prefetch_from_storage`** submits with the slots of the three attempts, or leaves the request. -/
theorem prefetchFromStorage_eq (h : HiRadixCache) (reqId : ℕ) (node : NodeId) (tokens : List Token)
    (lastHash : Option Digest) :
    h.prefetchFromStorage cfg reqId node tokens lastHash =
      if cfg.enableStorage = false ∨ (prefetchKey cfg h node tokens).len < cfg.prefetchThreshold ∨
        h.prefetchTokensOccupied ≥ cfg.prefetchCapacityLimit then some h
      else ((h.protectHost node).prefetchSlots cfg node (prefetchKey cfg h node tokens).len).map
        fun r => match r with
        | (some hostIndices, h₁) => h₁.startPrefetch
            ⟨reqId, node, prefetchKey cfg h node tokens, hostIndices, lastHash⟩
        | (none, h₁) => h₁ := by
  unfold prefetchFromStorage prefetchSlots cutLength prefetchKey
  simp only [bind_eq_bind]
  split
  · rfl
  · cases (h.protectHost node).host.alloc _ with
    | none => rfl
    | some r =>
      cases r with
      | some r => rfl
      | none =>
        cases (h.protectHost node).evictHost cfg _ with
        | none => rfl
        | some h₁ =>
          simp only [bind_some]
          cases h₁.host.alloc _ with
          | none => rfl
          | some r =>
            cases r with
            | some r => rfl
            | none =>
              split
              · cases h₁.host.alloc (h₁.host.availableSize - h₁.host.availableSize % cfg.pageSize) with
                | none => rfl
                | some r => cases r <;> rfl
              · cases h₁.releaseHost node <;> rfl

theorem Submits.prefetchFromStorage {reqId : ℕ} {lastHash : Option Digest} {p : Prefetch}
    (hsub : Submits cfg h reqId node tokens lastHash p h') :
    h.prefetchFromStorage cfg reqId node tokens lastHash = some h' ∧ p ∈ h'.ongoingPrefetch := by
  obtain ⟨⟨hon, hlen, hcap⟩, hostIndices, h₁, hslots, rfl, rfl⟩ := hsub
  refine ⟨?_, mem_append_right _ (mem_singleton_self _)⟩
  rw [prefetchFromStorage_eq, if_neg, hslots]
  · rfl
  · rw [hon]
    rintro (h | h | h)
    · cases h
    · omega
    · omega

theorem pageSize_dvd_prefetchKey (h : HiRadixCache) (node : NodeId) (tokens : List Token) :
    cfg.pageSize ∣ (prefetchKey cfg h node tokens).len :=
  (RadixKey.fits_pageAligned (k := ⟨tokens, (h.nodes node).key.extraKey, cfg.isEagle⟩) rfl _).aligned

/-! ## 2. The pool under the attempts -/

variable {k : ℕ}

theorem evictHostNode_pageSize {n : ℕ} {parent : NodeId}
    (heq : h.evictHostNode cfg n = some (k, parent, h')) : h'.host.pageSize = h.host.pageSize := by
  rw [evictHostNode] at heq
  simp only [bind_eq_bind, bind_eq_some_iff] at heq
  obtain ⟨h₁, h1, hostValue, -, key, -, parent', -, heq⟩ := heq
  obtain ⟨c, -, rfl⟩ := onTree?_eq_some h1
  split at heq
  · cases heq
    unfold updateHostLeafStatus
    split_ifs <;> rfl
  · cases heq

theorem evictHostLoop_pageSize {numTokens : ℕ} : ∀ {fuel : ℕ} {h : HiRadixCache}
    {heap : List (List ℤ × NodeId)} {numEvicted : ℕ},
    evictHostLoop cfg numTokens fuel h heap numEvicted = some h' →
    h'.host.pageSize = h.host.pageSize := by
  intro fuel
  induction fuel with
  | zero => intro h heap numEvicted heq; cases heq
  | succ fuel ih =>
    intro h heap numEvicted heq
    rw [evictHostLoop] at heq
    split at heq
    · rw [bind_eq_bind, bind_eq_some_iff] at heq
      obtain ⟨⟨x, heap'⟩, -, heq⟩ := heq
      dsimp only at heq
      split at heq
      · cases heq; rfl
      split at heq
      · exact ih heq
      split at heq
      · exact ih heq
      · rw [bind_eq_bind, bind_eq_some_iff] at heq
        obtain ⟨⟨n, parent, h₁⟩, hnode, heq⟩ := heq
        exact (ih heq).trans (evictHostNode_pageSize hnode)
    · cases heq; rfl

theorem evictHost_pageSize {numTokens : ℕ} (heq : h.evictHost cfg numTokens = some h') :
    h'.host.pageSize = h.host.pageSize := evictHostLoop_pageSize heq

theorem alloc_spec {H H' : HostKVCache} {n : ℕ} {slots : List ℕ}
    (heq : H.alloc n = some (some (slots, H'))) : slots.length = n ∧ H'.pageSize = H.pageSize := by
  unfold HostKVCache.alloc HostKVCache.availableSize at heq
  split at heq
  · split at heq
    · cases heq
    · rename_i hroom
      cases heq
      exact ⟨by rw [length_take]; omega, rfl⟩
  · cases heq

/-- Whole pages are refused only when there are too few slots. -/
theorem alloc_eq {H : HostKVCache} {n : ℕ} (hdvd : H.pageSize ∣ n) :
    H.alloc n = if n > H.availableSize then some none
      else some (some (H.freeSlots.take n, { H with freeSlots := H.freeSlots.drop n })) := by
  rw [HostKVCache.alloc, if_pos (Nat.mod_eq_zero_of_dvd hdvd)]

theorem pageSize_dvd_cutLength (h : HiRadixCache) : cfg.pageSize ∣ h.cutLength cfg :=
  Nat.dvd_sub_mod _

theorem cutLength_le (h : HiRadixCache) : h.cutLength cfg ≤ h.host.availableSize := Nat.sub_le _ _

section Slots

variable {keyLen : ℕ} {hostIndices : List ℕ}

/-- As long as nothing is cut, there is a slot for each unit of the key. -/
theorem length_prefetchSlots (hdvd : h.host.pageSize ∣ keyLen)
    (heq : h.prefetchSlots cfg node keyLen = some (some hostIndices, h'))
    (hcut : ¬ h.ComesToCutting cfg keyLen) :
    hostIndices.length = keyLen ∧ h'.host.pageSize = h.host.pageSize := by
  rw [prefetchSlots, alloc_eq hdvd] at heq
  split at heq
  · rename_i hroom
    simp only [bind_eq_bind, bind_some, bind_eq_some_iff] at heq
    obtain ⟨h₁, hev, r, halloc, heq⟩ := heq
    have hpage := evictHost_pageSize hev
    cases r with
    | some r =>
      cases heq
      obtain ⟨hlen, hps⟩ := alloc_spec halloc
      exact ⟨hlen, hps.trans hpage⟩
    | none =>
      rw [alloc_eq (by rwa [hpage])] at halloc
      split at halloc
      · rename_i hroom₁
        dsimp only at heq
        split at heq
        · rename_i hthr
          exact absurd ⟨hroom, h₁, hev, hroom₁, hthr⟩ hcut
        · rw [bind_eq_some_iff] at heq
          obtain ⟨_, -, heq⟩ := heq
          cases heq
      · cases halloc
  · rename_i hroom
    cases heq
    exact ⟨by rw [length_take]; exact min_eq_left (not_lt.mp hroom), rfl⟩

/-- **The third attempt** gets fewer slots than the key has units. -/
theorem exists_cut_prefetchSlots (hpage : h.host.pageSize = cfg.pageSize)
    (hdvd : cfg.pageSize ∣ keyLen) (hcut : h.ComesToCutting cfg keyLen) :
    ∃ hostIndices h', h.prefetchSlots cfg node keyLen = some (some hostIndices, h') ∧
      hostIndices.length < keyLen := by
  obtain ⟨hroom, h₁, hev, hroom₁, hthr⟩ := hcut
  have hpage₁ : h₁.host.pageSize = cfg.pageSize := (evictHost_pageSize hev).trans hpage
  refine ⟨h₁.host.freeSlots.take (h₁.cutLength cfg), { h₁ with host := { h₁.host with
    freeSlots := h₁.host.freeSlots.drop (h₁.cutLength cfg) } }, ?_, ?_⟩
  · rw [prefetchSlots, alloc_eq (by rwa [hpage]), if_pos hroom]
    simp only [bind_eq_bind, bind_some, hev]
    rw [alloc_eq (by rwa [hpage₁]), if_pos hroom₁]
    rw [if_pos hthr, alloc_eq (by rw [hpage₁]; exact pageSize_dvd_cutLength h₁),
      if_neg (not_lt.mpr (cutLength_le h₁))]
    rfl
  · rw [length_take]
    exact lt_of_le_of_lt (min_le_left _ _) (lt_of_le_of_lt (cutLength_le h₁) hroom₁)

end Slots

/-! ## 3. The walk of `check_prefetch_progress` -/

theorem onTree?_sameTransfers {f : RadixCache ℕ → Option (RadixCache ℕ)}
    (heq : h.onTree? f = some h') : SameTransfers h h' := by
  obtain ⟨c, -, rfl⟩ := onTree?_eq_some heq
  exact SameTransfers.of_tree h c

theorem updateHostLeafStatus_sameTransfers (h : HiRadixCache) (n : NodeId) :
    SameTransfers h (h.updateHostLeafStatus n) := by
  unfold updateHostLeafStatus
  split_ifs <;> exact ⟨rfl, rfl, rfl, rfl, rfl⟩

theorem releaseHost_sameTransfers {n : NodeId} (heq : h.releaseHost n = some h') :
    SameTransfers h h' := by
  unfold releaseHost at heq
  split at heq
  · cases heq
    exact SameTransfers.of_tree h _
  · cases heq

theorem splitHostOrStay_sameTransfers {n v : NodeId}
    (heq : h.splitHostOrStay cfg n k = some (v, h')) : SameTransfers h h' := by
  unfold splitHostOrStay at heq
  split at heq
  · exact splitNode_sameTransfers heq
  · cases heq
    exact SameTransfers.of_tree h _

/-! ## 4. Nodes with a slot for each unit -/

/-- If the node is on the host, then with a slot for each unit of its key. -/
def Filled (n : TreeNode ℕ) : Prop := ∀ slots, n.hostValue = some slots → slots.length = n.key.len

/-- The nodes that a call has put into the tree are filled: the leaf whatever the tree was like, the
halves of a node that was cut when the node was. -/
structure InsertsFilled (h h' : HiRadixCache) : Prop where
  leaf : ∀ n, h.counter ≤ n → n < h'.counter → (h'.nodes n).children.entries = [] →
    Filled (h'.nodes n)
  nodes : (∀ n, Filled (h.nodes n)) → ∀ n, Filled (h'.nodes n)

/-- What each step of the walk keeps. -/
structure KeepsFilled (h h' : HiRadixCache) : Prop extends InsertsFilled h h' where
  counter : h.counter ≤ h'.counter
  old : ∀ n < h.counter, Filled (h.nodes n) → Filled (h'.nodes n)
  parents : ∀ n < h.counter, (h.nodes n).children.entries ≠ [] → (h'.nodes n).children.entries ≠ []

section Filled

variable {h₁ : HiRadixCache} {n v p : NodeId} {key : RadixKey} {ck : ChildKey} {hostValue : List ℕ}
  {hashValue : List Digest}

theorem Filled.congr {x y : TreeNode ℕ} (hf : Filled x) (hslots : y.hostValue = x.hostValue)
    (hkey : y.key = x.key) : Filled y := by
  intro slots hs
  rw [hkey]
  exact hf slots (hslots ▸ hs)

theorem KeepsFilled.trans (ha : KeepsFilled h h₁) (hb : KeepsFilled h₁ h') : KeepsFilled h h' where
  counter := ha.counter.trans hb.counter
  nodes := fun hf => hb.nodes (ha.nodes hf)
  old := fun n hn hf => hb.old n (lt_of_lt_of_le hn ha.counter) (ha.old n hn hf)
  parents := fun n hn hc => hb.parents n (lt_of_lt_of_le hn ha.counter) (ha.parents n hn hc)
  leaf := fun n hge hlt hc => by
    rcases lt_or_ge n h₁.counter with hn | hn
    · refine hb.old n hn (ha.leaf n hge hn ?_)
      by_contra hne
      exact hb.parents n hn hne hc
    · exact hb.leaf n hn hlt hc

theorem KeepsFilled.of_same (hcounter : h'.counter = h.counter)
    (hkey : ∀ m, (h'.nodes m).key = (h.nodes m).key)
    (hslots : ∀ m, (h'.nodes m).hostValue = (h.nodes m).hostValue)
    (hchildren : ∀ m, (h'.nodes m).children = (h.nodes m).children) : KeepsFilled h h' where
  counter := hcounter.ge
  nodes := fun hf m => (hf m).congr (hslots m) (hkey m)
  old := fun m _ hf => hf.congr (hslots m) (hkey m)
  parents := fun m _ hc => by rwa [hchildren]
  leaf := fun m hge hlt => absurd (lt_of_lt_of_le hlt hcounter.le) (not_lt.mpr hge)

theorem KeepsFilled.refl (h : HiRadixCache) : KeepsFilled h h :=
  .of_same rfl (fun _ => rfl) (fun _ => rfl) fun _ => rfl

theorem KeepsFilled.touch (h : HiRadixCache) (n : NodeId) : KeepsFilled h (h.touch cfg n) :=
  have hq := agree_touch cfg h n
  .of_same hq.counter hq.key hq.hostValue hq.children

theorem splitNode_nodes (heq : h.splitNode cfg key n k = some (v, h')) :
    v = h.counter ∧ h'.counter = h.counter + 1 ∧
      (∀ m, (h'.nodes m).key = if m = n then (h.nodes n).key.dropTo k
        else if m = v then (h.nodes n).key.takeTo k else (h.nodes m).key) ∧
      (∀ m, (h'.nodes m).hostValue = if m = n then (h.nodes n).hostValue.map (List.drop k)
        else if m = v then (h.nodes n).hostValue.map (List.take k) else (h.nodes m).hostValue) ∧
      ∀ m, (h'.nodes m).children.entries ≠ [] ∨
        m ≠ v ∧ (h'.nodes m).children = (h.nodes m).children := by
  rw [splitNode] at heq
  simp only [bind_eq_bind, bind_eq_some_iff] at heq
  obtain ⟨parent, -, restKey, -, firstKey, -, heq⟩ := heq
  obtain ⟨rfl, rfl⟩ := Prod.mk.inj (Option.some.inj heq)
  refine ⟨rfl, rfl, fun m => ?_, fun m => ?_, fun m => ?_⟩
  · simp only [RadixCache.modify, RadixCache.newTreeNode, update_apply]
    split_ifs <;> simp_all
  · simp only [RadixCache.modify, RadixCache.newTreeNode, update_apply]
    split_ifs <;> simp_all
  · by_cases hmp : m = parent
    · subst hmp
      rw [RadixCache.modify_nodes_self]
      exact Or.inl (cons_ne_nil _ _)
    · rw [RadixCache.modify_nodes_ne _ _ hmp]
      by_cases hmv : m = h.counter
      · left
        subst hmv
        simp only [RadixCache.modify, RadixCache.newTreeNode, update_apply]
        split_ifs with h1 h2
        · exact cons_ne_nil _ _
        · exact absurd h1.symm h2
        · exact cons_ne_nil _ _
      · right
        refine ⟨hmv, ?_⟩
        simp only [RadixCache.modify, RadixCache.newTreeNode, update_apply]
        split_ifs <;> simp_all

/-- **A split** cuts the slots where it cuts the key. -/
theorem splitNode_keepsFilled (heq : h.splitNode cfg key n k = some (v, h')) :
    KeepsFilled h h' := by
  obtain ⟨hv, hcounter, hkey, hslots, hchildren⟩ := splitNode_nodes heq
  -- where a node is filled, both halves are
  have hcut : Filled (h.nodes n) → ∀ m, m = n ∨ m = v → Filled (h'.nodes m) := by
    intro hf m hm slots hs
    rw [hslots] at hs
    rw [hkey]
    by_cases hmn : m = n
    · rw [if_pos hmn] at hs ⊢
      obtain ⟨l, hl, rfl⟩ := map_eq_some_iff.mp hs
      rw [length_drop, RadixKey.len_dropTo, hf l hl]
    · have hmv := hm.resolve_left hmn
      rw [if_neg hmn, if_pos hmv] at hs ⊢
      obtain ⟨l, hl, rfl⟩ := map_eq_some_iff.mp hs
      rw [length_take, RadixKey.len_takeTo, hf l hl]
  have hold : ∀ m, ¬ (m = n ∨ m = v) → Filled (h.nodes m) → Filled (h'.nodes m) := by
    intro m hm hf
    obtain ⟨hmn, hmv⟩ := not_or.mp hm
    exact hf.congr (by rw [hslots, if_neg hmn, if_neg hmv]) (by rw [hkey, if_neg hmn, if_neg hmv])
  refine ⟨⟨fun m hge hlt hc => ?_, fun hf m => ?_⟩, ?_, fun m hm hf => ?_, fun m hm hc => ?_⟩
  · have hmv : m = v := by
      rw [hcounter] at hlt
      rw [hv]
      exact le_antisymm (Nat.lt_succ_iff.mp hlt) hge
    exact absurd hc ((hchildren m).resolve_right fun hr => hr.1 hmv)
  · by_cases hm : m = n ∨ m = v
    · exact hcut (hf n) m hm
    · exact hold m hm (hf m)
  · rw [hcounter]
    exact Nat.le_succ _
  · by_cases hmn : m = n
    · exact hcut (hmn ▸ hf) m (Or.inl hmn)
    · exact hold m (not_or.mpr ⟨hmn, fun hmv => absurd hm (by rw [hmv, hv]; exact lt_irrefl _)⟩) hf
  · rcases hchildren m with hne | ⟨-, he⟩
    · exact hne
    · rwa [he]

theorem onTree?_recordStoreEvent_keepsFilled {medium : StorageMedium}
    (heq : h.onTree? (·.recordStoreEvent cfg.toCacheConfig n medium) = some h') :
    KeepsFilled h h' := by
  obtain ⟨c, hrec, rfl⟩ := onTree?_eq_some heq
  unfold RadixCache.recordStoreEvent RadixCache.ensureHash at hrec
  split at hrec
  · simp only [bind_eq_bind, bind_eq_some_iff] at hrec
    obtain ⟨c₁, hhash, hs, -, es, -, hrec⟩ := hrec
    cases hrec
    split at hhash
    · cases hhash
      exact .of_same rfl (fun _ => rfl) (fun _ => rfl) fun _ => rfl
    · rw [bind_eq_some_iff] at hhash
      obtain ⟨hs', -, hhash⟩ := hhash
      cases hhash
      have hfield : ∀ {τ : Type} (g : TreeNode ℕ → τ),
          (∀ x : TreeNode ℕ, g { x with hashValue := some hs' } = g x) → ∀ m,
          g ((h.toRadixCache.modify n fun x => { x with hashValue := some hs' }).nodes m)
            = g (h.nodes m) := fun g hg => RadixCache.modify_field _ n _ g hg
      exact .of_same rfl (hfield _ fun _ => rfl) (hfield _ fun _ => rfl) (hfield _ fun _ => rfl)
  · cases hrec
    exact KeepsFilled.refl h

/-- The retests of the leaf sets look at the tree only. -/
theorem KeepsFilled.retest (ha : KeepsFilled h h₁) (p v : NodeId) :
    KeepsFilled h (((h₁.updateHostLeafStatus v).onTree (·.updateLeafStatus p)).updateHostLeafStatus
      p) := by
  obtain ⟨l, lh, he, -, -⟩ := retestHost h₁ p v
  rw [he]
  exact ha.trans (.of_same rfl (fun _ => rfl) (fun _ => rfl) fun _ => rfl)

/-- **The new leaf** gets what is left of the slots. -/
theorem addHostLeaf_keepsFilled (hlen : hostValue.length = key.len)
    (heq : h.addHostLeaf cfg p key hostValue hashValue ck = some h') : KeepsFilled h h' := by
  -- the tree with the leaf
  obtain ⟨c, hc⟩ : ∃ c, c = ((h.newTreeNode cfg.toCacheConfig (h.nodes p).priority).2.modify h.counter
      fun n => { n with
        parent := some p
        key := key
        value := none
        hostValue := some hostValue
        hashValue := some hashValue }).modify p
      fun n => { n with children := n.children.insert ck h.counter } := ⟨_, rfl⟩
  have hret : (((({ h with toRadixCache := c } : HiRadixCache).updateHostLeafStatus h.counter).onTree
      (·.updateLeafStatus p)).updateHostLeafStatus p).onTree?
        (·.recordStoreEvent cfg.toCacheConfig h.counter .cpu) = some h' := by
    rw [← heq, hc]
    rfl
  refine KeepsFilled.trans (KeepsFilled.retest ?_ p h.counter)
    (onTree?_recordStoreEvent_keepsFilled hret)
  have hold : ∀ m, m ≠ h.counter → (c.nodes m).key = (h.nodes m).key ∧
      (c.nodes m).hostValue = (h.nodes m).hostValue := by
    intro m hm
    rw [hc]
    by_cases hmp : m = p
    · subst hmp
      rw [RadixCache.modify_nodes_self, RadixCache.modify_nodes_ne _ _ hm]
      simp [RadixCache.newTreeNode, update_of_ne hm]
    · rw [RadixCache.modify_nodes_ne _ _ hmp, RadixCache.modify_nodes_ne _ _ hm]
      simp [RadixCache.newTreeNode, update_of_ne hm]
  have hnew : Filled (c.nodes h.counter) := by
    have hfields : (c.nodes h.counter).hostValue = some hostValue ∧
        (c.nodes h.counter).key = key := by
      rw [hc]
      by_cases hp : h.counter = p
      · rw [← hp, RadixCache.modify_nodes_self, RadixCache.modify_nodes_self]
        exact ⟨rfl, rfl⟩
      · rw [RadixCache.modify_nodes_ne _ _ hp, RadixCache.modify_nodes_self]
        exact ⟨rfl, rfl⟩
    intro slots hs
    cases hfields.1.symm.trans hs
    rw [hfields.2, hlen]
  have hchildren : ∀ m, m ≠ h.counter → (h.nodes m).children.entries ≠ [] →
      (c.nodes m).children.entries ≠ [] := by
    intro m hm hne
    rw [hc]
    by_cases hmp : m = p
    · subst hmp
      rw [RadixCache.modify_nodes_self]
      exact cons_ne_nil _ _
    · rw [RadixCache.modify_nodes_ne _ _ hmp, RadixCache.modify_nodes_ne _ _ hm]
      simpa only [RadixCache.newTreeNode, update_of_ne hm] using hne
  have hlast : c.counter = h.counter + 1 := by rw [hc]; rfl
  have hlt : ∀ m, m < h.counter → m ≠ h.counter := fun m hm => hm.ne
  refine ⟨⟨fun m hge hmlt _ => ?_, fun hf m => ?_⟩, ?_, fun m hm hf => ?_,
    fun m hm => hchildren m (hlt m hm)⟩
  · have hm : m = h.counter := le_antisymm (Nat.lt_succ_iff.mp (lt_of_lt_of_eq hmlt hlast)) hge
    rw [hm]
    exact hnew
  · by_cases hm : m = h.counter
    · rw [hm]
      exact hnew
    · exact (hf m).congr (hold m hm).2 (hold m hm).1
  · change h.counter ≤ c.counter
    rw [hlast]
    exact Nat.le_succ _
  · exact hf.congr (hold m (hlt m hm)).2 (hold m (hlt m hm)).1

theorem addHostLeaf_sameTransfers
    (heq : h.addHostLeaf cfg p key hostValue hashValue ck = some h') : SameTransfers h h' := by
  unfold addHostLeaf at heq
  refine .trans ?_ (onTree?_sameTransfers heq)
  refine .trans ?_ (updateHostLeafStatus_sameTransfers _ _)
  refine .trans ?_ (SameTransfers.of_tree _ _)
  exact .trans (SameTransfers.of_tree h _) (updateHostLeafStatus_sameTransfers _ _)

theorem insertHostLoop_sameTransfers : ∀ {fuel : ℕ} {h : HiRadixCache} {node : NodeId}
    {key : RadixKey} {hostValue : List ℕ} {hashValue : List Digest} {ck : ChildKey} {matched : ℕ}
    {w : HostWalk}, insertHostLoop cfg fuel h node key hostValue hashValue ck matched = some w →
    SameTransfers h w.cache := by
  intro fuel
  induction fuel with
  | zero => intro h node key hostValue hashValue ck matched w heq; cases heq
  | succ fuel ih =>
    intro h node key hostValue hashValue ck matched w heq
    rw [insertHostLoop] at heq
    split at heq
    · split at heq
      · cases heq
        exact SameTransfers.of_tree h _
      · simp only [bind_eq_bind, bind_eq_some_iff] at heq
        obtain ⟨k, -, ⟨node', h₂⟩, hsplit, ck', -, heq⟩ := heq
        exact ((SameTransfers.of_tree h _).trans (splitHostOrStay_sameTransfers hsplit)).trans (ih heq)
    · cases heq
      exact SameTransfers.of_tree h _

/-- **The walk of `_insert_helper_host`** cuts the slots as it cuts the key. -/
theorem insertHostLoop_filled : ∀ {fuel : ℕ} {h : HiRadixCache} {node : NodeId} {key : RadixKey}
    {hostValue : List ℕ} {hashValue : List Digest} {ck : ChildKey} {matched : ℕ} {w : HostWalk},
    insertHostLoop cfg fuel h node key hostValue hashValue ck matched = some w →
    hostValue.length = key.len →
    w.hostValue.length = w.key.len ∧ KeepsFilled h w.cache := by
  intro fuel
  induction fuel with
  | zero => intro h node key hostValue hashValue ck matched w heq; cases heq
  | succ fuel ih =>
    intro h node key hostValue hashValue ck matched w heq hlen
    rw [insertHostLoop] at heq
    split at heq
    · split at heq
      · cases heq
        exact ⟨hlen, KeepsFilled.refl h⟩
      · rename_i child _
        simp only [bind_eq_bind, bind_eq_some_iff] at heq
        obtain ⟨k, -, ⟨node', h₂⟩, hsplit, ck', -, heq⟩ := heq
        obtain ⟨hw, hkeeps⟩ := ih heq (by
          rw [length_drop, RadixKey.len_dropTo, hlen])
        have hmid : KeepsFilled (h.touch cfg child) h₂ := by
          unfold splitHostOrStay at hsplit
          split at hsplit
          · exact splitNode_keepsFilled hsplit
          · cases hsplit
            exact KeepsFilled.refl _
        exact ⟨hw, ((KeepsFilled.touch h child).trans hmid).trans hkeeps⟩
    · cases heq
      exact ⟨hlen, KeepsFilled.refl h⟩

/-- **`_insert_helper_host`** inserts filled nodes when it is given a slot for each unit. -/
theorem insertHelperHost_filled {node : NodeId} {matched : ℕ} (hlen : hostValue.length = key.len)
    (heq : h.insertHelperHost cfg node key hostValue hashValue = some (matched, h')) :
    KeepsFilled h h' := by
  unfold insertHelperHost at heq
  have htouch : KeepsFilled h (h.touch cfg node) := .touch h node
  refine htouch.trans ?_
  split at heq
  · cases heq
    exact KeepsFilled.refl _
  · simp only [bind_eq_bind, bind_eq_some_iff] at heq
    obtain ⟨ck, -, w, hloop, heq⟩ := heq
    obtain ⟨hw, hkeeps⟩ := insertHostLoop_filled hloop hlen
    split at heq
    · obtain ⟨h₂, hadd, heq⟩ := bind_eq_some_iff.mp heq
      cases heq
      exact hkeeps.trans (addHostLeaf_keepsFilled hw hadd)
    · cases heq
      exact hkeeps

theorem insertHelperHost_sameTransfers {node : NodeId} {matched : ℕ}
    (heq : h.insertHelperHost cfg node key hostValue hashValue = some (matched, h')) :
    SameTransfers h h' := by
  unfold insertHelperHost at heq
  refine (SameTransfers.of_tree h _ : SameTransfers h (h.touch cfg node)).trans ?_
  split at heq
  · cases heq
    exact SameTransfers.of_tree _ _
  · simp only [bind_eq_bind, bind_eq_some_iff] at heq
    obtain ⟨ck, -, w, hloop, heq⟩ := heq
    have hsame := insertHostLoop_sameTransfers hloop
    split at heq
    · obtain ⟨h₂, hadd, heq⟩ := bind_eq_some_iff.mp heq
      cases heq
      exact hsame.trans (addHostLeaf_sameTransfers hadd)
    · cases heq
      exact hsame

end Filled

/-! ## 5. The table of prefetches -/

/-- A prefetch is in the table as it was, or not any more; the pages of the pool keep their size. -/
structure KeepsEntries (h h' : HiRadixCache) : Prop where
  pageSize : h'.host.pageSize = h.host.pageSize
  entry : ∀ r : ℕ, h'.ongoingPrefetch.find? (·.reqId = r) = h.ongoingPrefetch.find? (·.reqId = r) ∨
    h'.ongoingPrefetch.find? (·.reqId = r) = none

section Entries

variable {h₁ : HiRadixCache} {reqId : ℕ} {n : NodeId}

theorem KeepsEntries.trans (ha : KeepsEntries h h₁) (hb : KeepsEntries h₁ h') :
    KeepsEntries h h' where
  pageSize := hb.pageSize.trans ha.pageSize
  entry := fun r => by
    rcases hb.entry r with he | he
    · rw [he]
      exact ha.entry r
    · exact Or.inr he

theorem KeepsEntries.of_same (hpage : h'.host.pageSize = h.host.pageSize)
    (hongoing : h'.ongoingPrefetch = h.ongoingPrefetch) : KeepsEntries h h' :=
  ⟨hpage, fun _ => Or.inl (by rw [hongoing])⟩

theorem KeepsEntries.refl (h : HiRadixCache) : KeepsEntries h h := .of_same rfl rfl

theorem SameTransfers.keepsEntries (hs : SameTransfers h h') : KeepsEntries h h' :=
  .of_same (by rw [hs.host]) hs.ongoingPrefetch

/-- A prefetch is taken out of the table. -/
theorem KeepsEntries.filter (hpage : h'.host.pageSize = h.host.pageSize)
    (hongoing : h'.ongoingPrefetch = h.ongoingPrefetch.filter (·.reqId ≠ reqId)) :
    KeepsEntries h h' := by
  refine ⟨hpage, fun r => ?_⟩
  -- the operations and the queues of a system play no part in its table
  let s : PrefetchSystem := ⟨h, fun _ => .new [] 0, [], []⟩
  let s' : PrefetchSystem := ⟨h', fun _ => .new [] 0, [], []⟩
  have hentry : s'.entry r = if r = reqId then none else s.entry r :=
    PrefetchSystem.entry_filter s hongoing r
  split at hentry
  · exact Or.inr hentry
  · exact Or.inl hentry

theorem appendHostMemRelease_keepsEntries (h : HiRadixCache) (hostIndices : List ℕ) :
    KeepsEntries h (h.appendHostMemRelease hostIndices) := .of_same rfl rfl

theorem dropPrefetch_keepsEntries (heq : h.dropPrefetch reqId = some h') : KeepsEntries h h' := by
  unfold dropPrefetch at heq
  split at heq
  · cases heq
    exact .refl h
  · obtain ⟨h₂, hrel, heq⟩ := bind_eq_some_iff.mp heq
    cases heq
    exact (releaseHost_sameTransfers hrel).keepsEntries.trans (.filter rfl rfl)

theorem releaseAbortedRequest_keepsEntries {completed : ℕ}
    (heq : h.releaseAbortedRequest reqId completed = some h') : KeepsEntries h h' := by
  unfold releaseAbortedRequest at heq
  split at heq
  · cases heq
    exact .refl h
  · obtain ⟨h₂, hdrop, heq⟩ := bind_eq_some_iff.mp heq
    cases heq
    exact (dropPrefetch_keepsEntries hdrop).trans (appendHostMemRelease_keepsEntries _ _)

theorem drainRevoke_keepsEntries (heq : h.drainRevoke reqId = some h') : KeepsEntries h h' := by
  obtain ⟨h₂, hdrop, heq⟩ := bind_eq_some_iff.mp heq
  cases heq
  exact (dropPrefetch_keepsEntries hdrop).trans (.of_same rfl rfl)

theorem drainBackup_keepsEntries (heq : h.drainBackup n = some h') : KeepsEntries h h' := by
  unfold drainBackup at heq
  split at heq
  · have hrel := (releaseHost_sameTransfers heq).keepsEntries
    exact ⟨hrel.pageSize, hrel.entry⟩
  · cases heq
    exact .refl h

variable {hitPages minCompleted : ℕ}

theorem checkPrefetchProgress_keepsEntries {completed : ℕ}
    (heq : h.checkPrefetchProgress cfg reqId hitPages completed minCompleted = some h') :
    KeepsEntries h h' := by
  unfold checkPrefetchProgress at heq
  split at heq
  · cases heq
    exact .refl h
  · simp only [bind_eq_bind, bind_eq_some_iff] at heq
    obtain ⟨hashValue, -, ⟨matched, h₂⟩, hins, h₃, hrel, heq⟩ := heq
    cases heq
    refine (insertHelperHost_sameTransfers hins).keepsEntries.trans ?_
    have hrel' := (releaseHost_sameTransfers hrel).keepsEntries
    have hfree : KeepsEntries h₂ h₃ := ⟨hrel'.pageSize, hrel'.entry⟩
    exact hfree.trans (.filter rfl rfl)

/-- **A prefetch with as many slots as its key has units** is inserted with filled nodes. -/
theorem checkPrefetchProgress_insertsFilled {completed : ℕ}
    (hentry : ∀ p, h.ongoingPrefetch.find? (·.reqId = reqId) = some p →
      p.hostIndices.length = p.key.len)
    (heq : h.checkPrefetchProgress cfg reqId hitPages completed minCompleted = some h') :
    InsertsFilled h h' := by
  unfold checkPrefetchProgress at heq
  split at heq
  · cases heq
    exact (KeepsFilled.refl h).toInsertsFilled
  · rename_i p hp
    simp only [bind_eq_bind, bind_eq_some_iff] at heq
    obtain ⟨hashValue, -, ⟨matched, h₂⟩, hins, h₃, hrel, heq⟩ := heq
    cases heq
    have hkeeps := insertHelperHost_filled
      (by rw [length_take, RadixKey.len_takeTo, hentry p hp]) hins
    have hrel' : KeepsFilled h₂ h₃ := by
      unfold releaseHost at hrel
      split at hrel
      · cases hrel
        have hfield : ∀ {τ : Type} (g : TreeNode ℕ → τ),
            (∀ x : TreeNode ℕ, g { x with hostRefCounter := x.hostRefCounter - 1 } = g x) → ∀ m,
            g ((h₂.toRadixCache.modify p.lastHostNode fun x =>
              { x with hostRefCounter := x.hostRefCounter - 1 }).nodes m) = g (h₂.nodes m) :=
          fun g hg => RadixCache.modify_field _ _ _ g hg
        exact .of_same rfl (hfield _ fun _ => rfl) (hfield _ fun _ => rfl) (hfield _ fun _ => rfl)
      · cases hrel
    have hall := hkeeps.trans hrel'
    exact ⟨hall.leaf, hall.nodes⟩

end Entries

end HiRadixCache

namespace PrefetchSystem

/-! ## 6. Runs from the submission on -/

/-- What the server may do after a state: the steps of the threads and of the scheduler, and anything
else that leaves the prefetch of `reqId` and the pages of the pool alone. -/
inductive Follows (cfg : HiConfig) (reqId : ℕ) (s : PrefetchSystem) : PrefetchSystem → Prop
  | refl : Follows cfg reqId s s
  | step {s₁ s₂ : PrefetchSystem} (a : Step) : Follows cfg reqId s s₁ →
      s₁.step cfg a = some s₂ → Follows cfg reqId s s₂
  | other {s₁ s₂ : PrefetchSystem} : Follows cfg reqId s s₁ →
      s₂.operations reqId = s₁.operations reqId → s₂.entry reqId = s₁.entry reqId →
      s₂.cache.host.pageSize = s₁.cache.host.pageSize → Follows cfg reqId s s₂

section Runs

variable {cfg : HiConfig} {reqId r : ℕ} {s s' : PrefetchSystem}

/-- A step of the thread that has the operation of `r` is none of another operation's business. -/
structure Leaves (r : ℕ) (s s' : PrefetchSystem) : Prop where
  operations : ∀ reqId, reqId ≠ r → s'.operations reqId = s.operations reqId
  cache : HiRadixCache.KeepsEntries s.cache s'.cache

theorem Leaves.refl (r : ℕ) (s : PrefetchSystem) : Leaves r s s := ⟨fun _ _ => rfl, .refl _⟩

theorem Leaves.setOp (r : ℕ) (s : PrefetchSystem) (op : PrefetchOperation) :
    Leaves r s (s.setOp r op) := ⟨fun _ hr => setOp_of_ne s hr op, .refl _⟩

theorem Leaves.putPage (r : ℕ) (s : PrefetchSystem) (op : PrefetchOperation) (page : List ℕ) :
    Leaves r s ((s.setOp r op).putPage page) := ⟨fun _ hr => setOp_of_ne s hr op, .of_same rfl rfl⟩

theorem query_leaves (s : PrefetchSystem) (r hits : ℕ) : Leaves r s (s.query cfg r hits) := by
  unfold query
  dsimp only
  split
  · split
    · exact ⟨fun _ hr => setOp_of_ne s hr _, .refl _⟩
    · exact .setOp r s _
  · exact .refl r s

theorem advance_leaves (s : PrefetchSystem) (r : ℕ) : Leaves r s (s.advance cfg r) := by
  unfold advance
  dsimp only
  split
  case h_1 | h_3 | h_6 => exact .putPage r s _ _
  case h_2 | h_4 | h_5 | h_7 => exact .setOp r s _
  case h_8 => exact .refl r s

theorem fetch_leaves (s : PrefetchSystem) (r numPages : ℕ) : Leaves r s (s.fetch cfg r numPages) := by
  unfold fetch
  dsimp only
  split
  · split
    · exact .setOp r s _
    · exact .refl r s
  · exact .refl r s

theorem endBatch_leaves (s : PrefetchSystem) (r : ℕ) : Leaves r s (s.endBatch cfg r) := by
  unfold endBatch
  dsimp only
  split
  · split <;> exact .setOp r s _
  · exact .refl r s

/-- The prefetch `p`, as long as it is not over. -/
structure Steady (cfg : HiConfig) (p : Prefetch) (s : PrefetchSystem) : Prop where
  operation : (s.operations p.reqId).Sound cfg.pageSize p.hostIndices
  entry : s.entry p.reqId = some p ∨ s.entry p.reqId = none
  pageSize : 0 < s.cache.host.pageSize

variable {p : Prefetch}

theorem Steady.leaves (hs : Steady cfg p s) (hl : Leaves r s s')
    (hop : r = p.reqId → (s'.operations p.reqId).Sound cfg.pageSize p.hostIndices) :
    Steady cfg p s' where
  operation := by
    by_cases hr : p.reqId = r
    · exact hop hr.symm
    · rw [hl.operations _ hr]
      exact hs.operation
  entry := by
    rcases hl.cache.entry p.reqId with he | he
    · exact hs.entry.imp he.trans he.trans
    · exact Or.inr he
  pageSize := by
    rw [hl.cache.pageSize]
    exact hs.pageSize

/-- The operation of `r` is marked, and the cache goes on. -/
theorem Steady.mark (hs : Steady cfg p s) {c : HiRadixCache} {q : List ℕ} {a : List NodeId}
    (hc : HiRadixCache.KeepsEntries s.cache c) :
    Steady cfg p ⟨c, (s.setOp r (s.operations r).markTerminate).operations, q, a⟩ := by
  refine hs.leaves (r := r) ⟨fun _ hr => setOp_of_ne s hr _, hc⟩ fun hr => ?_
  subst hr
  change ((s.setOp p.reqId (s.operations p.reqId).markTerminate).operations p.reqId).Sound _ _
  rw [setOp_self]
  exact hs.operation.markTerminate

/-- **A step** of a thread or of the scheduler. -/
theorem Steady.step (hs : Steady cfg p s) (hdvd : cfg.pageSize ∣ p.hostIndices.length) {a : Step}
    (heq : s.step cfg a = some s') : Steady cfg p s' := by
  cases a with
  | query r hits =>
    cases heq
    refine hs.leaves (query_leaves s r hits) fun hr => ?_
    subst hr
    exact (query_threadStep hs.operation hs.pageSize hits hdvd).moves.sound
  | advance r =>
    cases heq
    refine hs.leaves (advance_leaves s r) fun hr => ?_
    subst hr
    obtain ⟨out, hout⟩ := advance_threadStep hs.operation hs.pageSize
    exact hout.moves.sound
  | fetch r numPages =>
    cases heq
    refine hs.leaves (fetch_leaves s r numPages) fun hr => ?_
    subst hr
    exact (fetch_threadStep hs.operation numPages).moves.sound
  | endBatch r =>
    cases heq
    refine hs.leaves (endBatch_leaves s r) fun hr => ?_
    subst hr
    exact (endBatch_threadStep hs.operation hs.pageSize).moves.sound
  | terminatePrefetch r =>
    cases heq
    unfold PrefetchSystem.terminatePrefetch
    split
    · exact hs
    · exact hs.mark (.refl _)
  | checkPrefetchProgress r canTerminate otherPages =>
    simp only [PrefetchSystem.step, PrefetchSystem.checkPrefetchProgress] at heq
    split at heq
    · cases heq
      exact hs
    · split at heq
      · obtain ⟨c, hc, heq⟩ := bind_eq_some_iff.mp heq
        cases heq
        exact hs.mark (HiRadixCache.checkPrefetchProgress_keepsEntries hc)
      · cases heq
        exact hs
  | releaseAbortedRequest r =>
    simp only [PrefetchSystem.step, PrefetchSystem.releaseAbortedRequest] at heq
    split at heq
    · cases heq
      exact hs
    · obtain ⟨c, hc, heq⟩ := bind_eq_some_iff.mp heq
      cases heq
      exact hs.mark (HiRadixCache.releaseAbortedRequest_keepsEntries hc)
  | ackBackup node =>
    cases heq
    exact ⟨hs.operation, hs.entry, hs.pageSize⟩
  | drain numRevoke numBackup numRelease =>
    simp only [PrefetchSystem.step, PrefetchSystem.drain, bind_eq_bind, bind_eq_some_iff] at heq
    obtain ⟨c₁, h1, c₂, h2, heq⟩ := heq
    cases heq
    have hkeeps : HiRadixCache.KeepsEntries s.cache (c₂.drainRelease numRelease) :=
      ((foldlM_rel (R := HiRadixCache.KeepsEntries) .refl .trans
        HiRadixCache.drainRevoke_keepsEntries h1).trans
          (foldlM_rel (R := HiRadixCache.KeepsEntries) .refl .trans
            HiRadixCache.drainBackup_keepsEntries h2)).trans (.of_same rfl rfl)
    exact hs.leaves (r := p.reqId) ⟨fun _ _ => rfl, hkeeps⟩ fun _ => hs.operation

/-- **A run** from the submission on. -/
theorem Steady.follows (hs : Steady cfg p s) (hdvd : cfg.pageSize ∣ p.hostIndices.length)
    (hrun : Follows cfg p.reqId s s') : Steady cfg p s' := by
  induction hrun with
  | refl => exact hs
  | step a _ heq ih => exact ih.step hdvd heq
  | other _ hop hentry hpage ih =>
    refine ⟨?_, ?_, ?_⟩
    · rw [hop]
      exact ih.operation
    · rw [hentry]
      exact ih.entry
    · rw [hpage]
      exact ih.pageSize

end Runs

/-! ## 7. When the lengths agree -/

/-- The lengths of the prefetch `p`, which has just been submitted to `h`: a slot for each unit of the
key, and from then on never more tokens completed than slots, and no node inserted with another number
of slots than its key has units. -/
structure LengthsAgree (cfg : HiConfig) (h : HiRadixCache) (p : Prefetch) : Prop where
  slots : p.hostIndices.length = p.key.len
  completed : ∀ s s', s.cache = h → s.operations p.reqId = .new p.hostIndices p.key.len →
    Follows cfg p.reqId s s' → (s'.operations p.reqId).completedTokens ≤ p.hostIndices.length
  inserted : ∀ s s', s.cache = h → s.operations p.reqId = .new p.hostIndices p.key.len →
    Follows cfg p.reqId s s' → ∀ canTerminate otherPages s'',
      s'.checkPrefetchProgress cfg p.reqId canTerminate otherPages = some s'' →
      HiRadixCache.InsertsFilled s'.cache s''.cache

section Lengths

variable {cfg : HiConfig} {h : HiRadixCache} {p : Prefetch} {s s' : PrefetchSystem}

theorem entry_startPrefetch (hc : s.cache = h.startPrefetch p) : s.entry p.reqId = some p := by
  rw [entry, hc, HiRadixCache.startPrefetch]
  have hnone : (h.ongoingPrefetch.filter (·.reqId ≠ p.reqId)).find? (·.reqId = p.reqId) = none := by
    rw [find?_eq_none]
    intro x hx
    simpa using of_mem_filter hx
  rw [find?_append, hnone]
  simp

/-- A submission with a slot for each unit is steady. -/
theorem steady_startPrefetch (hlen : p.hostIndices.length = p.key.len)
    (hpage : 0 < h.host.pageSize) (hc : s.cache = h.startPrefetch p)
    (hop : s.operations p.reqId = .new p.hostIndices p.key.len) : Steady cfg p s where
  operation := by
    rw [hop]
    exact .new hlen
  entry := Or.inl (entry_startPrefetch hc)
  pageSize := by
    rw [hc]
    exact hpage

theorem lengthsAgree_of_slots (hlen : p.hostIndices.length = p.key.len)
    (hdvd : cfg.pageSize ∣ p.key.len) (hpage : 0 < h.host.pageSize) :
    LengthsAgree cfg (h.startPrefetch p) p where
  slots := hlen
  completed := fun s s' hc hop hrun => by
    have hs := (steady_startPrefetch hlen hpage hc hop).follows (hlen ▸ hdvd) hrun
    exact hs.operation.completed_le.trans hs.operation.hash_le
  inserted := fun s s' hc hop hrun canTerminate otherPages s'' hcheck => by
    have hs := (steady_startPrefetch hlen hpage hc hop).follows (hlen ▸ hdvd) hrun
    have hstay : HiRadixCache.InsertsFilled s'.cache s'.cache :=
      (HiRadixCache.KeepsFilled.refl _).toInsertsFilled
    rw [PrefetchSystem.checkPrefetchProgress] at hcheck
    split at hcheck
    · cases hcheck
      exact hstay
    · split at hcheck
      · obtain ⟨c, hcache, hcheck⟩ := bind_eq_some_iff.mp hcheck
        cases hcheck
        refine HiRadixCache.checkPrefetchProgress_insertsFilled (fun q hq => ?_) hcache
        rcases hs.entry with he | he
        · cases he.symm.trans hq
          exact hlen
        · cases he.symm.trans hq
      · cases hcheck
        exact hstay

/-- **A prefetch is submitted with lengths that agree** exactly when the slots do not have to be cut:
when there is room for the whole key, at once or after an eviction, or else too little for a prefetch. -/
theorem prefetch_lengths_agree_iff (h : HiRadixCache) (reqId : ℕ) (node : NodeId)
    (tokens : List Token) (lastHash : Option Digest) (hpage : h.host.pageSize = cfg.pageSize) :
    (∀ p h', HiRadixCache.Submits cfg h reqId node tokens lastHash p h' → LengthsAgree cfg h' p) ↔
      ¬ (HiRadixCache.WorthPrefetching cfg h (HiRadixCache.prefetchKey cfg h node tokens) ∧
        (h.protectHost node).ComesToCutting cfg (HiRadixCache.prefetchKey cfg h node tokens).len) := by
  have hdvd : cfg.pageSize ∣ (HiRadixCache.prefetchKey cfg h node tokens).len :=
    HiRadixCache.pageSize_dvd_prefetchKey h node tokens
  have hpage' : (h.protectHost node).host.pageSize = cfg.pageSize := hpage
  constructor
  · rintro hall ⟨hworth, hcut⟩
    obtain ⟨slots, h₁, hslots, hlt⟩ := HiRadixCache.exists_cut_prefetchSlots hpage' hdvd hcut
    exact hlt.ne (hall _ _ ⟨hworth, slots, h₁, hslots, rfl, rfl⟩).slots
  · rintro hcut p h' ⟨hworth, slots, h₁, hslots, rfl, rfl⟩
    obtain ⟨hlen, hps⟩ := HiRadixCache.length_prefetchSlots (hpage'.symm ▸ hdvd) hslots
      fun hc => hcut ⟨hworth, hc⟩
    refine lengthsAgree_of_slots hlen hdvd ?_
    rw [hps, hpage']
    exact cfg.pageSize_pos

end Lengths

/-- In the small cache there is room for four tokens. -/
theorem prefetch_lengths_agree_iff_small :
    HiRadixCache.small.host.pageSize = HiRadixCache.smallConfig.pageSize ∧
    ∀ p h', HiRadixCache.Submits HiRadixCache.smallConfig HiRadixCache.small 7 0 [1, 2, 3, 4] none p h' →
      LengthsAgree HiRadixCache.smallConfig h' p := by
  refine ⟨rfl, (prefetch_lengths_agree_iff HiRadixCache.small 7 0 [1, 2, 3, 4] none rfl).mpr ?_⟩
  rintro ⟨-, hroom, -⟩
  exact absurd hroom (by decide)

/-- **A second prefetch is cut.**  The first one has six of the eight slots; the second one submits four
tokens with the two that are left. -/
theorem prefetch_lengths_disagree : ∃ h p h',
    HiRadixCache.small.prefetchFromStorage HiRadixCache.smallConfig 7 0 [1, 2, 3, 4, 5, 6] none
      = some h ∧
    HiRadixCache.Submits HiRadixCache.smallConfig h 8 0 [1, 2, 3, 4] none p h' ∧
    p.hostIndices = [6, 7] ∧ p.key.tokenIds = [1, 2, 3, 4] ∧
    ¬ LengthsAgree HiRadixCache.smallConfig h' p := by
  refine ⟨_, ⟨8, 0, ⟨[1, 2, 3, 4], none, false⟩, [6, 7], none⟩, _, rfl,
    ⟨⟨rfl, by decide, by decide⟩, [6, 7], _, rfl, rfl, rfl⟩, rfl, rfl, fun hl => ?_⟩
  exact absurd hl.slots (by decide)

end PrefetchSystem

end Sglang
