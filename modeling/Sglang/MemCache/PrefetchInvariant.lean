/-
# The invariant of prefetches in flight

Every slot is at any moment in one of these places: the pool, the release queue, the tree, or an
operation, which holds the slots that a thread will still release and, as long as the request is in
`ongoing_prefetch`, those that have arrived.  Each step of each thread moves slots from one place to
another, so the multiset of all slots never changes (`Sound`), whatever the order of the steps.
-/
import Sglang.MemCache.PrefetchMoves

namespace Sglang

open Lib List Option HiRadixCache

namespace PrefetchSystem

/-! ## 1. The invariant -/

/-- What an operation holds. -/
def held (cfg : HiConfig) (s : PrefetchSystem) (reqId : ℕ) : Multiset ℕ :=
  (s.operations reqId).pending cfg.pageSize +
    if (s.entry reqId).isSome then ((s.operations reqId).arrived : Multiset ℕ) else 0

/-- The tokens a request has in `prefetch_tokens_occupied`. -/
def tokens (s : PrefetchSystem) (reqId : ℕ) : ℕ := ((s.entry reqId).map (·.key.len)).getD 0

/-- The references a request has on a node. -/
def refs (s : PrefetchSystem) (n : NodeId) (reqId : ℕ) : ℕ :=
  if (s.entry reqId).map (·.lastHostNode) = some n then 1 else 0

/-- What the entry of a prefetch with the slots `H` says. -/
structure EntrySound (cfg : HiConfig) (t : RootedTree NodeId) (H : List ℕ) (p : Prefetch) : Prop where
  hostIndices : p.hostIndices = H
  len_eq : H.length = p.key.len
  fits : p.key.Fits cfg.isEagle cfg.pageSize
  hashable : p.key.Hashable
  node : p.lastHostNode ∈ t.nodes

/-- The invariant of a run with the prefetches `reqs`, that were submitted with the slots `H`. -/
structure Sound (cfg : HiConfig) (reqs : Finset ℕ) (H : ℕ → List ℕ) (total : Multiset ℕ) (base : ℤ)
    (t : RootedTree NodeId) (s : PrefetchSystem) : Prop where
  represents : RadixCache.Represents cfg.toCacheConfig t s.cache.toRadixCache
  pageSize : 0 < s.cache.host.pageSize
  base_nonneg : 0 ≤ base
  aligned : ∀ r ∈ reqs, cfg.pageSize ∣ (H r).length
  entry : ∀ r p, s.entry r = some p → r ∈ reqs ∧ EntrySound cfg t (H r) p
  idle : ∀ r, r ∉ reqs → (s.operations r).stage = .finished
  operation : ∀ r ∈ reqs, (s.operations r).Sound cfg.pageSize (H r)
  closed : ∀ r ∈ reqs, s.entry r = none → (s.operations r).Closed
  revoked : ∀ r ∈ s.prefetchRevokeQueue, r ∈ reqs → (s.operations r).Revoked
  held_le : ∀ r ∈ reqs, ((s.operations r).pending cfg.pageSize : Multiset ℕ)
    + (s.operations r).arrived ≤ H r
  backups : ∀ n ∈ s.cache.ongoingBackup, n ∈ t.nodes
  references : ∀ n ∈ t.nodes, ∑ r ∈ reqs, s.refs n r + s.cache.ongoingBackup.count n
    ≤ (s.cache.nodes n).hostRefCounter
  occupied : s.cache.prefetchTokensOccupied = base + ∑ r ∈ reqs, (s.tokens r : ℤ)
  conserved : s.cache.pooled t + ∑ r ∈ reqs, s.held cfg r = total

section

variable {cfg : HiConfig} {reqs : Finset ℕ} {H : ℕ → List ℕ} {total : Multiset ℕ} {base : ℤ}
  {t t' : RootedTree NodeId} {s s' : PrefetchSystem} {reqId : ℕ} {p : Prefetch}

/-! ## 2. Steps of the prefetch thread and of the IO thread -/

/-- **A step of the two threads** keeps the invariant. -/
theorem Sound.thread {out : List ℕ} (hs : Sound cfg reqs H total base t s) (hr : reqId ∈ reqs)
    (hstep : ThreadStep cfg (H reqId) reqId s s' out) : Sound cfg reqs H total base t s' := by
  have hentry : ∀ r, s'.entry r = s.entry r := fun r => by
    rw [PrefetchSystem.entry, hstep.cache, PrefetchSystem.entry]
  have htokens : ∀ r, s'.tokens r = s.tokens r := fun r => by rw [tokens, hentry, tokens]
  have hrefs : ∀ n r, s'.refs n r = s.refs n r := fun n r => by rw [refs, hentry, refs]
  have hheld : ∀ r, r ≠ reqId → s'.held cfg r = s.held cfg r := fun r hne => by
    rw [held, hentry, hstep.operations r hne, held]
  refine ⟨?_, ?_, hs.base_nonneg, hs.aligned, ?_, ?_, ?_, ?_, ?_, ?_, ?_, ?_, ?_, ?_⟩
  · rw [hstep.cache]
    exact hs.represents
  · rw [hstep.cache]
    exact hs.pageSize
  · intro r p hp
    rw [hentry] at hp
    exact hs.entry r p hp
  · intro r hnot
    rw [hstep.operations r (ne_of_mem_of_not_mem hr hnot).symm]
    exact hs.idle r hnot
  · intro r hmem
    by_cases hrr : r = reqId
    · subst hrr
      exact hstep.moves.sound
    · rw [hstep.operations r hrr]
      exact hs.operation r hmem
  · intro r hmem hnone
    rw [hentry] at hnone
    by_cases hrr : r = reqId
    · subst hrr
      exact (hstep.moves.closed (hs.closed r hmem hnone)).1
    · rw [hstep.operations r hrr]
      exact hs.closed r hmem hnone
  · intro r hq hmem
    by_cases hrr : r = reqId
    · subst hrr
      rcases hstep.revokeQueue r hq with hq | ⟨-, hrev⟩
      · exact hstep.moves.revoked (hs.revoked r hq hmem)
      · exact hrev
    · rw [hstep.operations r hrr]
      rcases hstep.revokeQueue r hq with hq | ⟨he, -⟩
      · exact hs.revoked r hq hmem
      · exact absurd he hrr
  · intro r hmem
    by_cases hrr : r = reqId
    · subst hrr
      refine le_trans ?_ (hs.held_le r hmem)
      rw [← hstep.moves.balance]
      exact Multiset.le_add_right _ _
    · rw [hstep.operations r hrr]
      exact hs.held_le r hmem
  · rw [hstep.cache]
    exact hs.backups
  · intro n hn
    simp only [hrefs]
    rw [hstep.cache]
    exact hs.references n hn
  · simp only [htokens]
    rw [hstep.cache]
    exact hs.occupied
  · -- the page has gone from the operation to the queue
    have hpool : s'.cache.pooled t = s.cache.pooled t + out := by
      rw [HiRadixCache.pooled, HiRadixCache.pooled, hstep.queue, hstep.cache, ← Multiset.coe_add]
      ac_rfl
    have hself : s'.held cfg reqId + out = s.held cfg reqId := by
      rw [held, held, hentry]
      split
      · exact hstep.moves.balance
      · rename_i hnone
        have hnone' : s.entry reqId = none := by simpa using hnone
        have harr := (hstep.moves.closed (hs.closed reqId hr hnone')).2
        have hbal := hstep.moves.balance
        rw [harr, add_right_comm] at hbal
        rw [add_zero, add_zero]
        exact add_right_cancel hbal
    have hsum := sum_replace hr fun r _ hne => hheld r hne
    rw [← hself] at hsum
    have hall : ∑ r ∈ reqs, s'.held cfg r + out = ∑ r ∈ reqs, s.held cfg r := by
      refine add_right_cancel (b := s'.held cfg reqId) ?_
      rw [← hsum]
      ac_rfl
    rw [← hs.conserved, hpool, ← hall]
    ac_rfl

/-! ## 3. Endings -/

/-- Another cache, and nothing else. -/
def withCache (s : PrefetchSystem) (cache : HiRadixCache) : PrefetchSystem := { s with cache := cache }

theorem entry_filter (s : PrefetchSystem) {c : HiRadixCache} {ops : ℕ → PrefetchOperation}
    {q : List ℕ} {a : List NodeId}
    (hc : c.ongoingPrefetch = s.cache.ongoingPrefetch.filter (·.reqId ≠ reqId)) (r : ℕ) :
    PrefetchSystem.entry ⟨c, ops, q, a⟩ r = if r = reqId then none else s.entry r := by
  rw [PrefetchSystem.entry, hc, find?_filter]
  split
  · rename_i h
    subst h
    rw [find?_eq_none]
    intro x _
    simp
  · rename_i h
    congr 1
    funext x
    by_cases hx : x.reqId = r
    · simp [hx, h]
    · simp [hx]

/-- **A prefetch that ends** gives up the slots that arrived. -/
theorem Sound.ends (hs : Sound cfg reqs H total base t s) (hp : s.entry reqId = some p)
    {slots : List ℕ} {h' : HiRadixCache}
    (he : HiRadixCache.Ends cfg t s.cache reqId p slots t' h') {op : PrefetchOperation}
    (hop : op.Sound cfg.pageSize (H reqId)) (hpend : op.pending cfg.pageSize = (s.operations reqId).pending cfg.pageSize)
    (harr : op.arrived = (s.operations reqId).arrived) (hslots : slots = op.arrived)
    (hclosed : op.Closed) (hrev : (s.operations reqId).Revoked → op.Revoked) :
    Sound cfg reqs H total base t' ((s.setOp reqId op).withCache h') := by
  obtain ⟨hr, -⟩ := hs.entry reqId p hp
  have hentry : ∀ r, ((s.setOp reqId op).withCache h').entry r
      = if r = reqId then none else s.entry r := entry_filter s he.ongoingPrefetch
  have hops : ∀ r, ((s.setOp reqId op).withCache h').operations r
      = if r = reqId then op else s.operations r := fun r => Function.update_apply _ _ _ _
  have hcache : ((s.setOp reqId op).withCache h').cache = h' := rfl
  have hqueue : ((s.setOp reqId op).withCache h').prefetchRevokeQueue = s.prefetchRevokeQueue := rfl
  generalize (s.setOp reqId op).withCache h' = s' at hentry hops hcache hqueue
  subst hcache
  have hop' : s'.operations reqId = op := by rw [hops, if_pos rfl]
  have hops' : ∀ r, r ≠ reqId → s'.operations r = s.operations r := fun r hne => by
    rw [hops, if_neg hne]
  have hone : ∀ r, r ≠ reqId → s'.entry r = s.entry r :=
    fun r hne => by rw [hentry, if_neg hne]
  have hself : s'.entry reqId = none := by
    rw [hentry, if_pos rfl]
  have hrefs : ∀ n r, r ≠ reqId → s'.refs n r = s.refs n r :=
    fun n r hne => by rw [refs, hone r hne, refs]
  refine ⟨he.represents, ?_, hs.base_nonneg, hs.aligned, ?_, ?_, ?_, ?_, ?_, ?_, ?_, ?_, ?_, ?_⟩
  · exact he.pageSize ▸ hs.pageSize
  · intro r p' hp'
    rw [hentry] at hp'
    split at hp'
    · cases hp'
    · obtain ⟨hmem, h⟩ := hs.entry r p' hp'
      exact ⟨hmem, { h with node := he.subset h.node }⟩
  · intro r hnot
    rw [hops' r (ne_of_mem_of_not_mem hr hnot).symm]
    exact hs.idle r hnot
  · intro r hmem
    by_cases hrr : r = reqId
    · subst hrr
      rw [hop']
      exact hop
    · rw [hops' r hrr]
      exact hs.operation r hmem
  · intro r hmem hnone
    by_cases hrr : r = reqId
    · subst hrr
      rw [hop']
      exact hclosed
    · rw [hops' r hrr]
      rw [hone r hrr] at hnone
      exact hs.closed r hmem hnone
  · intro r hq hmem
    rw [hqueue] at hq
    by_cases hrr : r = reqId
    · subst hrr
      rw [hop']
      exact hrev (hs.revoked r hq hmem)
    · rw [hops' r hrr]
      exact hs.revoked r hq hmem
  · intro r hmem
    by_cases hrr : r = reqId
    · subst hrr
      rw [hop', hpend, harr]
      exact hs.held_le r hmem
    · rw [hops' r hrr]
      exact hs.held_le r hmem
  · intro n hn
    rw [he.ongoingBackup] at hn
    exact he.subset (hs.backups n hn)
  · intro n hn
    have hzero : s'.refs n reqId = 0 := by
      rw [refs, hself]
      exact if_neg nofun
    rw [he.ongoingBackup]
    by_cases hold : n ∈ t.nodes
    · have hsum := sum_replace hr fun r _ hne => hrefs n r hne
      have hone' : s.refs n reqId = if p.lastHostNode = n then 1 else 0 := by
        rw [refs, hp]
        simp
      have hcount := he.hostRefCounter n hold
      have hle := hs.references n hold
      omega
    · -- a new node has no references
      have hnone : ∀ r ∈ reqs, s'.refs n r = 0 := by
        intro r _
        by_cases hrr : r = reqId
        · rw [hrr, hzero]
        · rw [hrefs n r hrr]
          refine if_neg fun h => ?_
          obtain ⟨p', hp', hnode⟩ := map_eq_some_iff.mp h
          exact hold (hnode ▸ (hs.entry r p' hp').2.node)
      rw [Finset.sum_eq_zero hnone, count_eq_zero_of_not_mem fun h => hold (hs.backups n h)]
      exact Nat.zero_le _
  · have htok : ∀ r ∈ reqs, r ≠ reqId → (s'.tokens r : ℤ) = s.tokens r := fun r _ hne => by
      rw [tokens, hone r hne, tokens]
    have hsum := sum_replace hr htok
    have hzero : s'.tokens reqId = 0 := by
      rw [tokens, hself]
      rfl
    have hlen : s.tokens reqId = p.key.len := by
      rw [tokens, hp]
      rfl
    have hocc := he.prefetchTokensOccupied
    have hbefore := hs.occupied
    omega
  · have hsum : ∑ r ∈ reqs, s'.held cfg r + s.held cfg reqId
        = ∑ r ∈ reqs, s.held cfg r + s'.held cfg reqId :=
      sum_replace hr fun r _ hne => by rw [held, hone r hne, hops' r hne, held]
    have hnow : s'.held cfg reqId = ((s.operations reqId).pending cfg.pageSize : Multiset ℕ) := by
      rw [held, hself, hop', hpend]
      exact add_zero _
    have hbefore : s.held cfg reqId
        = ((s.operations reqId).pending cfg.pageSize : Multiset ℕ) + slots := by
      rw [held, hp, hslots, harr]
      rfl
    have hall : ∑ r ∈ reqs, s'.held cfg r + slots = ∑ r ∈ reqs, s.held cfg r := by
      rw [hnow, hbefore] at hsum
      refine add_right_cancel (b := ((s.operations reqId).pending cfg.pageSize : Multiset ℕ)) ?_
      rw [← hsum]
      ac_rfl
    rw [← hs.conserved, he.pooled, ← hall]
    ac_rfl

theorem Sound.protected (hs : Sound cfg reqs H total base t s) (hp : s.entry reqId = some p) :
    0 < (s.cache.nodes p.lastHostNode).hostRefCounter := by
  obtain ⟨hr, hsound⟩ := hs.entry reqId p hp
  have hone : s.refs p.lastHostNode reqId = 1 := by
    rw [refs, hp]
    exact if_pos rfl
  have hle := Finset.single_le_sum (f := s.refs p.lastHostNode) (fun _ _ => Nat.zero_le _) hr
  have hrefs := hs.references _ hsound.node
  omega

/-- The counter of tokens covers every entry. -/
theorem Sound.tokens_le (hs : Sound cfg reqs H total base t s) (hp : s.entry reqId = some p) :
    (p.key.len : ℤ) ≤ s.cache.prefetchTokensOccupied := by
  have hbase := hs.base_nonneg
  have hlen : s.tokens reqId = p.key.len := by
    rw [tokens, hp]
    rfl
  have hle := Finset.single_le_sum (f := fun r => (s.tokens r : ℤ)) (fun _ _ => Int.natCast_nonneg _)
    (hs.entry reqId p hp).1
  rw [hs.occupied]
  omega

theorem Sound.occupied_nonneg (hs : Sound cfg reqs H total base t s) :
    0 ≤ s.cache.prefetchTokensOccupied := by
  rw [hs.occupied]
  exact add_nonneg hs.base_nonneg (Finset.sum_nonneg fun _ _ => Int.natCast_nonneg _)

/-! ## 4. Steps of the scheduler -/

theorem Sound.terminatePrefetch (hs : Sound cfg reqs H total base t s) (reqId : ℕ) :
    Sound cfg reqs H total base t (s.terminatePrefetch reqId) := by
  unfold PrefetchSystem.terminatePrefetch
  cases hp : s.entry reqId with
  | none => exact hs
  | some p =>
    have hr := (hs.entry reqId p hp).1
    exact hs.thread hr (ThreadStep.setOp (PrefetchOperation.Moves.markTerminate (hs.operation reqId hr)))

/-- **`check_prefetch_progress`** keeps the invariant. -/
theorem Sound.checkPrefetchProgress (hs : Sound cfg reqs H total base t s) (reqId : ℕ)
    (canTerminate : Bool) (otherPages : ℕ) :
    ∃ t' s', s.checkPrefetchProgress cfg reqId canTerminate otherPages = some s' ∧
      Sound cfg reqs H total base t' s' := by
  unfold PrefetchSystem.checkPrefetchProgress
  cases hp : s.entry reqId with
  | none => exact ⟨t, s, rfl, hs⟩
  | some p =>
    cases canTerminate with
    | false => exact ⟨t, s, rfl, hs⟩
    | true =>
      obtain ⟨hr, hsound⟩ := hs.entry reqId p hp
      have hop := hs.operation reqId hr
      obtain ⟨t', h', heq, he⟩ := checkPrefetchProgress_spec hs.represents hp hsound.node
        (hs.protected hp) hs.pageSize hsound.fits hsound.hashable
        (by rw [hsound.hostIndices, hsound.len_eq]) (by rw [← hsound.len_eq]; exact hop.hash_le)
        hop.completed_le (min_le_left _ (otherPages * cfg.pageSize))
        (by
          rcases min_choice (s.operations reqId).completedTokens (otherPages * cfg.pageSize) with h | h
          · rw [h]; exact hop.dvd
          · rw [h]; exact Nat.dvd_mul_left _ _)
      refine ⟨t', (s.setOp reqId (s.operations reqId).markTerminate).withCache h', ?_,
        hs.ends hp he hop.markTerminate rfl rfl ?_ (PrefetchOperation.closed_markTerminate _) id⟩
      · simp only [if_true, setOp_self]
        change (s.cache.checkPrefetchProgress cfg reqId _ _ _).bind _ = _
        rw [PrefetchOperation.markTerminate, heq]
        rfl
      · rw [hsound.hostIndices]
        exact hop.arrived_eq.symm

/-- **`release_aborted_request`** keeps the invariant. -/
theorem Sound.releaseAbortedRequest (hs : Sound cfg reqs H total base t s) (reqId : ℕ) :
    ∃ s', s.releaseAbortedRequest reqId = some s' ∧ Sound cfg reqs H total base t s' := by
  unfold PrefetchSystem.releaseAbortedRequest
  cases hp : s.entry reqId with
  | none => exact ⟨s, rfl, hs⟩
  | some p =>
    obtain ⟨hr, hsound⟩ := hs.entry reqId p hp
    have hop := hs.operation reqId hr
    obtain ⟨h', heq, he⟩ := releaseAbortedRequest_spec hs.represents hp hsound.node
      (hs.protected hp) hs.pageSize (s.operations reqId).completedTokens
    refine ⟨(s.setOp reqId (s.operations reqId).markTerminate).withCache h', ?_,
      hs.ends hp he hop.markTerminate rfl rfl ?_ (PrefetchOperation.closed_markTerminate _) id⟩
    · simp only [setOp_self]
      change (s.cache.releaseAbortedRequest reqId _).bind _ = _
      rw [PrefetchOperation.markTerminate, heq]
      rfl
    · rw [hsound.hostIndices]
      exact hop.arrived_eq.symm

/-- **`_drain_revoke`** of a request whose revocation is out. -/
theorem Sound.drainRevoke (hs : Sound cfg reqs H total base t s)
    (hq : reqId ∈ s.prefetchRevokeQueue) :
    ∃ h', s.cache.drainRevoke reqId = some h' ∧ Sound cfg reqs H total base t (s.withCache h') := by
  cases hp : s.entry reqId with
  | none =>
    refine ⟨s.cache, ?_, hs⟩
    rw [HiRadixCache.drainRevoke, dropPrefetch]
    rw [PrefetchSystem.entry] at hp
    simp only [hp, bind_eq_bind, bind_some]
    change some { s.cache with prefetchTokensOccupied := max s.cache.prefetchTokensOccupied 0 } = _
    rw [max_eq_left hs.occupied_nonneg]
  | some p =>
    obtain ⟨hr, hsound⟩ := hs.entry reqId p hp
    have hrev := hs.revoked reqId hq hr
    obtain ⟨h', heq, he⟩ := drainRevoke_spec hs.represents hp hsound.node
      (hs.protected hp) (hs.tokens_le hp)
    refine ⟨h', heq, ?_⟩
    have hend := hs.ends hp he (hs.operation reqId hr) rfl rfl hrev.arrived.symm hrev.closed id
    rwa [PrefetchSystem.setOp, Function.update_eq_self] at hend

/-- **`_drain_backup`** gives back the reference of a copy to the storage. -/
theorem Sound.drainBackup (hs : Sound cfg reqs H total base t s) (n : NodeId) :
    ∃ h', s.cache.drainBackup n = some h' ∧ Sound cfg reqs H total base t (s.withCache h') := by
  unfold HiRadixCache.drainBackup
  split
  · rename_i hn
    have hmem := hs.backups n hn
    have hcnt := count_pos_iff.mpr hn
    obtain ⟨c, hrel, hlinks, hhost, hcount⟩ := releaseHost_spec
      (h := { s.cache with ongoingBackup := s.cache.ongoingBackup.erase n }) (n := n)
      (lt_of_lt_of_le hcnt ((Nat.le_add_left _ _).trans (hs.references n hmem)))
    refine ⟨_, hrel, hs.represents.of_sameLinks hlinks, hs.pageSize, hs.base_nonneg, hs.aligned,
      hs.entry, hs.idle, hs.operation, hs.closed, hs.revoked, hs.held_le,
      fun m hm => hs.backups m (mem_of_mem_erase hm), fun m hm => ?_, hs.occupied, ?_⟩
    · have hold := hs.references m hm
      have hc := hcount m
      change ∑ r ∈ reqs, s.refs m r + (s.cache.ongoingBackup.erase n).count m ≤ (c.nodes m).hostRefCounter
      rw [count_erase]
      simp only [beq_iff_eq]
      split at hc
      · rename_i hnm
        subst hnm
        rw [if_pos rfl]
        change _ = (s.cache.nodes n).hostRefCounter at hc
        omega
      · rename_i hnm
        change _ = (s.cache.nodes m).hostRefCounter at hc
        omega
    · have hslots : HiRadixCache.hostSlots { s.cache with toRadixCache := c } t = s.cache.hostSlots t :=
        hostSlots_congr fun m _ => hhost m
      rw [← hs.conserved]
      exact congrArg (_ + · + _) hslots
  · exact ⟨s.cache, rfl, hs⟩

theorem Sound.drainRevokes : ∀ (rs : List ℕ) {s : PrefetchSystem},
    Sound cfg reqs H total base t s → (∀ r ∈ rs, r ∈ s.prefetchRevokeQueue) →
    ∃ h', rs.foldlM (·.drainRevoke ·) s.cache = some h' ∧
      Sound cfg reqs H total base t (s.withCache h') := by
  intro rs
  induction rs with
  | nil => exact fun hs _ => ⟨_, rfl, hs⟩
  | cons r rs ih =>
    intro s hs hq
    obtain ⟨h₁, heq, hs₁⟩ := hs.drainRevoke (hq r mem_cons_self)
    obtain ⟨h', hfold, hs'⟩ := ih hs₁ fun r' hr' => hq r' (mem_cons_of_mem r hr')
    refine ⟨h', ?_, hs'⟩
    rw [foldlM_cons, heq]
    exact hfold

theorem Sound.drainBackups : ∀ (ns : List NodeId) {s : PrefetchSystem},
    Sound cfg reqs H total base t s →
    ∃ h', ns.foldlM (·.drainBackup ·) s.cache = some h' ∧
      Sound cfg reqs H total base t (s.withCache h') := by
  intro ns
  induction ns with
  | nil => exact fun hs => ⟨_, rfl, hs⟩
  | cons n ns ih =>
    intro s hs
    obtain ⟨h₁, heq, hs₁⟩ := hs.drainBackup n
    obtain ⟨h', hfold, hs'⟩ := ih hs₁
    refine ⟨h', ?_, hs'⟩
    rw [foldlM_cons, heq]
    exact hfold

/-- **`drain_storage_control_queues`** keeps the invariant. -/
theorem Sound.drain (hs : Sound cfg reqs H total base t s) (numRevoke numBackup numRelease : ℕ) :
    ∃ s', s.drain numRevoke numBackup numRelease = some s' ∧ Sound cfg reqs H total base t s' := by
  obtain ⟨h₁, hrev, hs₁⟩ := Sound.drainRevokes (s.prefetchRevokeQueue.take numRevoke) hs
    fun r hr => mem_of_mem_take hr
  obtain ⟨h₂, hback, hs₂⟩ := Sound.drainBackups (s.ackBackupQueue.take numBackup) hs₁
  refine ⟨⟨h₂.drainRelease numRelease, s.operations, s.prefetchRevokeQueue.drop numRevoke,
    s.ackBackupQueue.drop numBackup⟩, ?_, hs₂.represents, hs₂.pageSize, hs₂.base_nonneg, hs₂.aligned,
    hs₂.entry, hs₂.idle, hs₂.operation, hs₂.closed, fun r hr => hs₂.revoked r (mem_of_mem_drop hr),
    hs₂.held_le, hs₂.backups, hs₂.references, hs₂.occupied, ?_⟩
  · have hback' : (s.ackBackupQueue.take numBackup).foldlM (·.drainBackup ·) h₁ = some h₂ := hback
    simp only [PrefetchSystem.drain, hrev, hback', bind_eq_bind, bind_some]
    rfl
  · -- the pages go from the queue to the pool
    have hpool : (h₂.drainRelease numRelease).pooled t = h₂.pooled t := by
      rw [HiRadixCache.pooled, HiRadixCache.pooled]
      change ((h₂.host.freeSlots ++ (h₂.hostMemReleaseQueue.take numRelease).flatten : List ℕ)
        : Multiset ℕ) + (h₂.hostMemReleaseQueue.drop numRelease).flatten + h₂.hostSlots t = _
      rw [Multiset.coe_add, append_assoc, ← flatten_append, take_append_drop, Multiset.coe_add]
    exact (congrArg (· + _) hpool).trans hs₂.conserved

/-! ## 5. Runs -/

/-- A thread has something to do only for a prefetch of the run. -/
theorem Sound.threadStep (hs : Sound cfg reqs H total base t s)
    (hstep : reqId ∈ reqs → ∃ out, ThreadStep cfg (H reqId) reqId s s' out)
    (hidle : (s.operations reqId).stage = .finished → s' = s) : Sound cfg reqs H total base t s' := by
  by_cases hr : reqId ∈ reqs
  · obtain ⟨out, hout⟩ := hstep hr
    exact hs.thread hr hout
  · rw [hidle (hs.idle reqId hr)]
    exact hs

/-- **Every step of every thread** returns and keeps the invariant. -/
theorem Sound.step (hs : Sound cfg reqs H total base t s) (a : Step) :
    ∃ t' s', s.step cfg a = some s' ∧ Sound cfg reqs H total base t' s' := by
  cases a with
  | query reqId hits =>
    exact ⟨t, _, rfl, hs.threadStep
      (fun hr => ⟨[], query_threadStep (hs.operation reqId hr) hs.pageSize hits (hs.aligned reqId hr)⟩)
      fun h => by simp [query, h]⟩
  | advance reqId =>
    exact ⟨t, _, rfl, hs.threadStep
      (fun hr => advance_threadStep (hs.operation reqId hr) hs.pageSize)
      fun h => by simp [advance, h]⟩
  | fetch reqId numPages =>
    exact ⟨t, _, rfl, hs.threadStep
      (fun hr => ⟨[], fetch_threadStep (hs.operation reqId hr) numPages⟩)
      fun h => by simp [fetch, h]⟩
  | endBatch reqId =>
    exact ⟨t, _, rfl, hs.threadStep
      (fun hr => ⟨[], endBatch_threadStep (hs.operation reqId hr) hs.pageSize⟩)
      fun h => by simp [endBatch, h]⟩
  | terminatePrefetch reqId => exact ⟨t, _, rfl, hs.terminatePrefetch reqId⟩
  | checkPrefetchProgress reqId canTerminate otherPages =>
    exact hs.checkPrefetchProgress reqId canTerminate otherPages
  | releaseAbortedRequest reqId =>
    obtain ⟨s', heq, hs'⟩ := hs.releaseAbortedRequest reqId
    exact ⟨t, s', heq, hs'⟩
  | ackBackup node => exact ⟨t, _, rfl, { hs with }⟩
  | drain numRevoke numBackup numRelease =>
    obtain ⟨s', heq, hs'⟩ := hs.drain numRevoke numBackup numRelease
    exact ⟨t, s', heq, hs'⟩

theorem Sound.run : ∀ (steps : List Step) {t : RootedTree NodeId} {s : PrefetchSystem},
    Sound cfg reqs H total base t s →
    ∃ t' s', s.run cfg steps = some s' ∧ Sound cfg reqs H total base t' s' := by
  intro steps
  induction steps with
  | nil => exact fun hs => ⟨_, _, rfl, hs⟩
  | cons a steps ih =>
    intro t s hs
    obtain ⟨t₁, s₁, heq, hs₁⟩ := hs.step a
    obtain ⟨t', s', hrun, hs'⟩ := ih hs₁
    refine ⟨t', s', ?_, hs'⟩
    rw [PrefetchSystem.run, foldlM_cons, heq]
    exact hrun

end

end PrefetchSystem

end Sglang
