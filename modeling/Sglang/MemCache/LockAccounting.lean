/-
# The counters of `RadixCache` over whole runs

`evictable_size_`, `protected_size_`, `evictable_leaves` and every `lock_ref` are updated in
place by each method.  Along every run of the class, its methods on requests included, they are
what a walk over the tree would compute: the statement is made with the child dicts and the
parent pointers of the heap, and the locks that are outstanding are those the run took and did not
give back.

The run keeps one lock for each call of `inc_lock_ref`.  A `dec_lock_ref` is balanced when it
gives back one of them.  `cache_finished_req` and `cache_unfinished_req` give back the lock of the
request, so a run calls them for a request that holds one (`last_node` may be `None` in the first).
-/
import Sglang.MemCache.Refinement
import Sglang.MemCache.Rows

namespace Sglang

open Lib List Option

/-! ## 1. The keys of requests -/

section Keys

variable {cfg : CacheConfig} {key : RadixKey} {req : Req} {tokenIds : List Token}

theorem RadixKey.Fits.pages_eq (h : key.Fits cfg.isEagle cfg.pageSize) :
    RadixCache.pages cfg key = key.label cfg.pageSize ∧
      (RadixCache.normKey cfg key).len = key.len := by
  have hview : (key.maybeToBigramView (σ := ℕ) cfg.isEagle none).1 = key := by
    unfold RadixKey.maybeToBigramView
    rw [h.mode]
    cases cfg.isEagle <;> rfl
  constructor
  · rw [RadixCache.pages, RadixCache.normKey, hview, RadixKey.label_pageAligned cfg.pageSize_pos]
  · rw [RadixCache.normKey, hview, RadixKey.len_pageAligned, Nat.div_mul_cancel h.aligned]

namespace Req

theorem radixKey_fits (cfg : CacheConfig) (req : Req) (tokenIds : List Token) :
    (req.radixKey cfg tokenIds).Fits cfg.isEagle cfg.pageSize := by
  refine RadixKey.fits_pageAligned ?_ _
  rfl

theorem radixKey_len_le (cfg : CacheConfig) (req : Req) (tokenIds : List Token) :
    (req.radixKey cfg tokenIds).len ≤ tokenIds.length := by
  rw [radixKey, RadixKey.len_pageAligned]
  refine (Nat.div_mul_le_self _ _).trans ?_
  unfold RadixKey.len
  split
  · exact Nat.sub_le _ _
  · exact le_rfl

theorem radixKey_hashable (h : ∀ t ∈ tokenIds, t < 2 ^ 32) :
    (req.radixKey cfg tokenIds).Hashable := by
  intro t ht
  refine h t ?_
  unfold radixKey RadixKey.pageAligned RadixKey.takeTo RadixKey.slice at ht
  split at ht
  · exact ht
  · simp only at ht
    split at ht
    · split at ht
      · exact mem_of_mem_take (mem_of_mem_drop ht)
      · cases ht
    · exact mem_of_mem_take (mem_of_mem_drop ht)

end Req

/-- With events on, token ids are 32-bit numbers. -/
def TokensOk (cfg : CacheConfig) (tokenIds : List Token) : Prop :=
  cfg.enableKvCacheEvents = true → ∀ t ∈ tokenIds, t < 2 ^ 32

end Keys

namespace RadixCache

variable {σ : Type}

/-! ## 2. Ancestors on the heap -/

/-- Following parent pointers from `m`, and stopping at the root, leads to `n`. -/
inductive LeadsTo (c : RadixCache σ) : NodeId → NodeId → Prop
  | refl (n : NodeId) : LeadsTo c n n
  | parent {m p n : NodeId} : m ≠ c.rootNode → (c.nodes m).parent = some p → LeadsTo c p n →
    LeadsTo c m n

section LeadsTo

variable {cfg : CacheConfig} {t : RootedTree NodeId} {c : RadixCache σ} {m n : NodeId}

/-- The chain of pointers is the chain of the tree. -/
theorem Represents.leadsTo_iff (hrep : Represents cfg t c) (hm : m ∈ t.nodes) (hr : n ≠ t.root) :
    LeadsTo c m n ↔ n ∈ t.up m := by
  constructor
  · intro h
    induction h with
    | refl n => exact RootedTree.mem_up_self hm hr
    | parent hne hp _ ih =>
      rw [hrep.root_eq] at hne
      rw [hrep.parent_eq hm hne] at hp
      cases hp
      rw [t.up_cons hm hne]
      exact mem_cons_of_mem _ (ih (t.parent_mem hm hne) hr)
  · refine t.induction (P := fun m => n ∈ t.up m → LeadsTo c m n) ?_ ?_ m hm
    · simp
    · intro m hm hmr ih h
      rw [t.up_cons hm hmr, mem_cons] at h
      rcases h with rfl | h
      · exact .refl n
      · exact .parent (by rw [hrep.root_eq]; exact hmr) (hrep.parent_eq hm hmr) (ih h)

end LeadsTo

end RadixCache

/-! ## 3. The methods on requests -/

namespace KVSystem

open RadixCache

variable {cfg : CacheConfig} {args : ServerArgs} {t : RootedTree NodeId} {locks : List NodeId}
  {S S' : KVSystem} {r : ReqId}

@[simp] theorem free_cache (S : KVSystem) (freeIndex : List ℕ) :
    (S.free freeIndex).cache = S.cache := rfl

theorem foldl_free_eq (S : KVSystem) (freed : List (List ℕ)) :
    freed.foldl free S = { S with allocator := freed.foldl KVAllocator.free S.allocator } := by
  induction freed generalizing S with
  | nil => rfl
  | cons value freed ih => rw [foldl_cons, ih]; rfl

@[simp] theorem foldl_free_cache (freed : List (List ℕ)) (S : KVSystem) :
    (freed.foldl free S).cache = S.cache := by
  induction freed generalizing S with
  | nil => rfl
  | cons x freed ih => exact ih _

@[simp] theorem free_reqs (S : KVSystem) (freeIndex : List ℕ) :
    (S.free freeIndex).reqs = S.reqs := rfl

@[simp] theorem free_pool (S : KVSystem) (freeIndex : List ℕ) :
    (S.free freeIndex).pool = S.pool := rfl

@[simp] theorem modifyReq_cache (S : KVSystem) (r : ReqId) (f : Req → Req) :
    (S.modifyReq r f).cache = S.cache := rfl

@[simp] theorem modifyReq_pool (S : KVSystem) (r : ReqId) (f : Req → Req) :
    (S.modifyReq r f).pool = S.pool := rfl

@[simp] theorem modifyReq_allocator (S : KVSystem) (r : ReqId) (f : Req → Req) :
    (S.modifyReq r f).allocator = S.allocator := rfl

@[simp] theorem modifyReq_self (S : KVSystem) (r : ReqId) (f : Req → Req) :
    (S.modifyReq r f).reqs r = f (S.reqs r) := by
  simp [modifyReq]

theorem modifyReq_ne (S : KVSystem) {r r' : ReqId} (f : Req → Req) (h : r' ≠ r) :
    (S.modifyReq r f).reqs r' = S.reqs r' := by
  simp [modifyReq, h]

variable {isInsert : Bool}

theorem cacheFinishedReq_eq {idx : ℕ} {tokenIds : List Token}
    (hfreed : (S.reqs r).kvCommittedFreed = false) (hidx : (S.reqs r).reqPoolIdx = some idx)
    (htok : (S.reqs r).tokenIds.take ((S.reqs r).cacheCommitLen args) = tokenIds) :
    S.cacheFinishedReq cfg args r isInsert =
      ((S.modifyReq r fun x => { x with kvCommittedFreed := true }).storeFinished cfg r
        (if cfg.disableFinishedInsert then false else isInsert) ((S.reqs r).radixKey cfg tokenIds)
        (S.pool.row idx tokenIds.length)).bind fun S₁ =>
      (S₁.free ((S.pool.row idx tokenIds.length).drop
        ((S.reqs r).radixKey cfg tokenIds).len)).unlockLast r := by
  subst htok
  simp [cacheFinishedReq, hfreed, hidx]

variable {k : ℕ} {c' : RadixCache ℕ}

theorem storeFinished_true {key : RadixKey} {kvIndices : List ℕ}
    (heq : S.cache.insert cfg key (kvIndices.take key.len) ((S.reqs r).priority.getD 0) false
      = some (k, c')) :
    S.storeFinished cfg r true key kvIndices = some ({ S with cache := c' }.free
      ((kvIndices.take k).drop (S.reqs r).cacheProtectedLen)) := by
  simp [storeFinished, heq]

theorem unlockLast_some {n : NodeId} {delta : ℤ}
    (hn : (S.reqs r).lastNode = some n) (heq : S.cache.decLockRef n = some (c', delta)) :
    S.unlockLast r = some { S with cache := c' } := by
  simp [unlockLast, hn, heq]

theorem cacheUnfinishedReq_eq {chunked : Bool} {idx : ℕ} {n node : NodeId} {key : RadixKey}
    {vs : List ℕ} {c₁ c₂ c₃ c₄ : RadixCache ℕ} {d₃ d₄ : ℤ}
    (hidx : (S.reqs r).reqPoolIdx = some idx) (hn : (S.reqs r).lastNode = some n)
    (hkey : (S.reqs r).radixKey cfg (S.reqs r).fillIds = key)
    (hins : S.cache.insert cfg key ((S.pool.row idx (S.reqs r).fillIds.length).take key.len)
      ((S.reqs r).priority.getD 0) chunked = some (k, c₁))
    (hmatch : c₁.matchPrefix cfg key = some (⟨vs, node, node, 0⟩, c₂))
    (hdec : c₂.decLockRef n = some (c₃, d₃)) (hinc : c₃.incLockRef node = some (c₄, d₄)) :
    S.cacheUnfinishedReq cfg r chunked =
      if vs.length ≠ key.len then none
      else some ({ S.free (((S.pool.row idx (S.reqs r).fillIds.length).take k).drop
          (S.reqs r).cacheProtectedLen) with
        cache := c₄
        pool := S.pool.write idx (S.reqs r).cacheProtectedLen
          (vs.drop (S.reqs r).cacheProtectedLen) }.modifyReq r fun x => { x with
        cacheProtectedLen := vs.length
        prefixIndices := if vs.length < (S.reqs r).fillIds.length then
          vs ++ (S.pool.row idx (S.reqs r).fillIds.length).drop vs.length else vs
        lastNode := some node }) := by
  subst hkey
  simp only [cacheUnfinishedReq, hidx, hn, hins, free_cache, hmatch, hdec, hinc,
    bind_eq_bind, bind_some]
  by_cases h : vs.length = ((S.reqs r).radixKey cfg (S.reqs r).fillIds).len
  · simp [h, free]
  · simp [h]

/-- The insertion of a request's key: it returns and keeps the locks. -/
theorem insert_inv {c : RadixCache ℕ} (hi : Inv cfg t locks c) {key : RadixKey} {value : List ℕ}
    (hkey : key.Fits cfg.isEagle cfg.pageSize) (hlen : key.len ≤ value.length)
    (hhash : cfg.enableKvCacheEvents = true → key.Hashable) (priority : ℤ) (chunked : Bool) :
    ∃ t' k c', c.insert cfg key value priority chunked = some (k, c') ∧ Inv cfg t' locks c' := by
  have hmode : ModeOk cfg key := fun h => by rw [← hkey.mode]; exact h
  obtain ⟨j, vs, t₁, c₁, node, t', c', heq, hreach, hg⟩ := insert_spec hi.toBase hmode
    (by rw [hkey.pages_eq.2]; exact hlen) hhash priority chunked
  exact ⟨t', _, c', heq, hg.inv (hreach.reshape.inv hi)⟩

/-- The locks a request leaves behind when it gives its own back. -/
def unlocked (locks : List NodeId) : Option NodeId → List NodeId
  | none => locks
  | some n => locks.erase n

theorem unlockLast_inv (hi : Inv cfg t locks S.cache)
    (hlock : ∀ n, (S.reqs r).lastNode = some n → n ∈ locks) :
    ∃ S', S.unlockLast r = some S' ∧ Inv cfg t (unlocked locks (S.reqs r).lastNode) S'.cache := by
  cases hn : (S.reqs r).lastNode with
  | none => exact ⟨S, by simp [unlockLast, hn], hi⟩
  | some n =>
    obtain ⟨c', delta, heq, -, hi'⟩ := decLockRef_inv hi (hlock n hn)
    exact ⟨_, unlockLast_some hn heq, hi'⟩

/-- **`cache_finished_req`** gives back the lock of the request. -/
theorem cacheFinishedReq_inv {idx : ℕ} (hi : Inv cfg t locks S.cache)
    (hfreed : (S.reqs r).kvCommittedFreed = false) (hidx : (S.reqs r).reqPoolIdx = some idx)
    (hlock : ∀ n, (S.reqs r).lastNode = some n → n ∈ locks)
    (htok : TokensOk cfg (S.reqs r).tokenIds) :
    ∃ t' S', S.cacheFinishedReq cfg args r isInsert = some S' ∧
      Inv cfg t' (unlocked locks (S.reqs r).lastNode) S'.cache := by
  rw [cacheFinishedReq_eq hfreed hidx rfl]
  generalize htoks : (S.reqs r).tokenIds.take ((S.reqs r).cacheCommitLen args) = toks
  have hkey := Req.radixKey_fits cfg (S.reqs r) toks
  have hlen := Req.radixKey_len_le cfg (S.reqs r) toks
  have hhash : cfg.enableKvCacheEvents = true → ((S.reqs r).radixKey cfg toks).Hashable :=
    fun hon => Req.radixKey_hashable fun x hx => htok hon x (mem_of_mem_take (htoks ▸ hx))
  generalize (S.reqs r).radixKey cfg toks = key at hkey hlen hhash ⊢
  generalize hkv : S.pool.row idx toks.length = kv
  have hkvlen : (kv.take key.len).length = key.len := by rw [← hkv]; simp [hlen]
  generalize hS₁ : S.modifyReq r (fun x => { x with kvCommittedFreed := true }) = S₁
  have hlast : (S₁.reqs r).lastNode = (S.reqs r).lastNode := by rw [← hS₁]; simp
  have hi₁ : Inv cfg t locks S₁.cache := by rw [← hS₁]; exact hi
  obtain ⟨t₂, S₂, hstore, hi₂, hreqs⟩ : ∃ t₂ S₂,
      S₁.storeFinished cfg r (if cfg.disableFinishedInsert then false else isInsert) key kv
        = some S₂ ∧ Inv cfg t₂ locks S₂.cache ∧ S₂.reqs = S₁.reqs := by
    cases (if cfg.disableFinishedInsert then false else isInsert) with
    | false => exact ⟨t, _, rfl, hi₁, rfl⟩
    | true =>
      obtain ⟨t', k, c', heq, hi'⟩ := insert_inv hi₁ hkey hkvlen.ge hhash
        ((S₁.reqs r).priority.getD 0) false
      exact ⟨t', _, storeFinished_true heq, hi', rfl⟩
  obtain ⟨S', hun, hi'⟩ := unlockLast_inv (S := S₂.free (kv.drop key.len)) (r := r) hi₂ (by
    rw [free_reqs, hreqs, hlast]; exact hlock)
  rw [free_reqs, hreqs, hlast] at hi'
  exact ⟨t₂, S', by rw [hstore]; exact hun, hi'⟩

/-- **`cache_unfinished_req`** moves the lock of the request to the node its key ends at now; a
failed check of the length leaves no state. -/
theorem cacheUnfinishedReq_inv {chunked : Bool} {idx : ℕ} {n : NodeId}
    (hi : Inv cfg t locks S.cache) (hidx : (S.reqs r).reqPoolIdx = some idx)
    (hn : (S.reqs r).lastNode = some n) (hlock : n ∈ locks)
    (htok : TokensOk cfg (S.reqs r).fillIds) (h : S.cacheUnfinishedReq cfg r chunked = some S') :
    ∃ t' m, (S'.reqs r).lastNode = some m ∧ Inv cfg t' (m :: locks.erase n) S'.cache := by
  generalize hk : (S.reqs r).radixKey cfg (S.reqs r).fillIds = key
  have hkey : key.Fits cfg.isEagle cfg.pageSize := hk ▸ Req.radixKey_fits cfg _ _
  have hlen : key.len ≤ (S.reqs r).fillIds.length := hk ▸ Req.radixKey_len_le cfg _ _
  have hhash : cfg.enableKvCacheEvents = true → key.Hashable :=
    fun hon => hk ▸ Req.radixKey_hashable (htok hon)
  have hkvlen : ((S.pool.row idx (S.reqs r).fillIds.length).take key.len).length = key.len := by
    simp [hlen]
  obtain ⟨t₁, k, c₁, hins, hi₁⟩ := insert_inv hi hkey hkvlen.ge hhash
    ((S.reqs r).priority.getD 0) chunked
  have hmode : ModeOk cfg key := fun h => by rw [← hkey.mode]; exact h
  obtain ⟨j, vs, t₂, c₂, node, hmatch, hreach⟩ := matchPrefix_spec hi₁.toBase hmode
  have hi₂ := hreach.reshape.inv hi₁
  obtain ⟨c₃, d₃, hdec, -, hi₃⟩ := decLockRef_inv hi₂ hlock
  obtain ⟨c₄, d₄, hinc, -, hi₄⟩ := incLockRef_inv hi₃ hreach.mem
  rw [cacheUnfinishedReq_eq hidx hn hk hins hmatch hdec hinc] at h
  split at h
  · cases h
  · cases h
    exact ⟨t₂, node, by simp, hi₄⟩

theorem evict_inv {numTokens : ℕ} (hi : Inv cfg t locks S.cache)
    (h : S.evict cfg numTokens = some S') : ∃ t', Inv cfg t' locks S'.cache := by
  obtain ⟨t', c', freed, heq, hev, -⟩ := evict_spec hi.toBase numTokens
  unfold evict at h
  simp only [heq, bind_eq_bind, bind_some] at h
  cases h
  refine ⟨t', ?_⟩
  rw [foldl_free_cache]
  exact hev.inv hi

/-! ## 4. Runs -/

/-- A run of the cache with the locks that are outstanding in it.  The `env` step stands for the
rest of the server, which may change the rows, the allocator and the requests. -/
inductive LockRun (cfg : CacheConfig) (args : ServerArgs) : List NodeId → KVSystem → Prop
  | init {S : KVSystem} : S.cache = RadixCache.init cfg → LockRun cfg args [] S
  | insert {locks : List NodeId} {S : KVSystem} {c' : RadixCache ℕ} {key : RadixKey}
      {value : List ℕ} {priority : ℤ} {chunked : Bool} {k : ℕ} :
    LockRun cfg args locks S → ModeOk cfg key → (normKey cfg key).len ≤ value.length →
    (cfg.enableKvCacheEvents = true → key.Hashable) →
    S.cache.insert cfg key value priority chunked = some (k, c') →
    LockRun cfg args locks { S with cache := c' }
  | matchPrefix {locks : List NodeId} {S : KVSystem} {c' : RadixCache ℕ} {key : RadixKey}
      {m : MatchResult ℕ} :
    LockRun cfg args locks S → ModeOk cfg key → S.cache.matchPrefix cfg key = some (m, c') →
    LockRun cfg args locks { S with cache := c' }
  | incLockRef {locks : List NodeId} {S : KVSystem} {c' : RadixCache ℕ} {n : NodeId} {delta : ℤ} :
    LockRun cfg args locks S → InTree cfg S.cache n → S.cache.incLockRef n = some (c', delta) →
    LockRun cfg args (n :: locks) { S with cache := c' }
  | decLockRef {locks : List NodeId} {S : KVSystem} {c' : RadixCache ℕ} {n : NodeId} {delta : ℤ} :
    LockRun cfg args locks S → n ∈ locks → S.cache.decLockRef n = some (c', delta) →
    LockRun cfg args (locks.erase n) { S with cache := c' }
  | cacheFinishedReq {locks : List NodeId} {S S' : KVSystem} {r : ReqId} {isInsert : Bool} :
    LockRun cfg args locks S → (∀ n, (S.reqs r).lastNode = some n → n ∈ locks) →
    TokensOk cfg (S.reqs r).tokenIds → S.cacheFinishedReq cfg args r isInsert = some S' →
    LockRun cfg args (unlocked locks (S.reqs r).lastNode) S'
  | cacheUnfinishedReq {locks : List NodeId} {S S' : KVSystem} {r : ReqId} {chunked : Bool}
      {n m : NodeId} :
    LockRun cfg args locks S → (S.reqs r).lastNode = some n → n ∈ locks →
    TokensOk cfg (S.reqs r).fillIds → S.cacheUnfinishedReq cfg r chunked = some S' →
    (S'.reqs r).lastNode = some m → LockRun cfg args (m :: locks.erase n) S'
  | evict {locks : List NodeId} {S S' : KVSystem} {numTokens : ℕ} :
    LockRun cfg args locks S → S.evict cfg numTokens = some S' → LockRun cfg args locks S'
  | env {locks : List NodeId} {S S' : KVSystem} :
    LockRun cfg args locks S → S'.cache = S.cache → LockRun cfg args locks S'

/-- Every state of a run has the invariant with the outstanding locks. -/
theorem LockRun.inv (h : LockRun cfg args locks S) : ∃ t, Inv cfg t locks S.cache := by
  induction h with
  | init heq => exact ⟨_, by rw [heq]; exact reset_inv cfg _⟩
  | insert _ hmode hlen hhash heq ih =>
    obtain ⟨t, hi⟩ := ih
    obtain ⟨j, vs, t₁, c₁, node, t', c', heq', hreach, hg⟩ :=
      insert_spec hi.toBase hmode hlen hhash _ _
    rw [heq'] at heq
    cases heq
    exact ⟨t', hg.inv (hreach.reshape.inv hi)⟩
  | matchPrefix _ hmode heq ih =>
    obtain ⟨t, hi⟩ := ih
    obtain ⟨j, vs, t', c', node, heq', hreach⟩ := matchPrefix_spec hi.toBase hmode
    rw [heq'] at heq
    cases heq
    exact ⟨t', hreach.reshape.inv hi⟩
  | incLockRef _ hn heq ih =>
    obtain ⟨t, hi⟩ := ih
    obtain ⟨c', delta, heq', -, hi'⟩ := incLockRef_inv hi (hi.represents.inTree_iff.mp hn)
    rw [heq'] at heq
    cases heq
    exact ⟨t, hi'⟩
  | decLockRef _ hn heq ih =>
    obtain ⟨t, hi⟩ := ih
    obtain ⟨c', delta, heq', -, hi'⟩ := decLockRef_inv hi hn
    rw [heq'] at heq
    cases heq
    exact ⟨t, hi'⟩
  | @cacheFinishedReq locks S S' r isInsert _ hlock htok heq ih =>
    obtain ⟨t, hi⟩ := ih
    cases hfreed : (S.reqs r).kvCommittedFreed with
    | true => simp [KVSystem.cacheFinishedReq, hfreed] at heq
    | false =>
      cases hidx : (S.reqs r).reqPoolIdx with
      | none => simp [KVSystem.cacheFinishedReq, hfreed, hidx] at heq
      | some idx =>
        obtain ⟨t', S'', heq', hi'⟩ := cacheFinishedReq_inv hi hfreed hidx hlock htok
        rw [heq'] at heq
        cases heq
        exact ⟨t', hi'⟩
  | @cacheUnfinishedReq locks S S' r chunked n m _ hn hlock htok heq hm ih =>
    obtain ⟨t, hi⟩ := ih
    cases hidx : (S.reqs r).reqPoolIdx with
    | none => simp [KVSystem.cacheUnfinishedReq, hidx] at heq
    | some idx =>
      obtain ⟨t', m', hm', hi'⟩ := cacheUnfinishedReq_inv hi hidx hn hlock htok heq
      rw [hm] at hm'
      cases hm'
      exact ⟨t', hi'⟩
  | evict _ heq ih =>
    obtain ⟨t, hi⟩ := ih
    exact evict_inv hi heq
  | env _ heq ih =>
    obtain ⟨t, hi⟩ := ih
    exact ⟨t, by rw [heq]; exact hi⟩

open scoped Classical in
/-- **The counters are those of the tree.**  In every state of a run: the two sizes are the sums
of the key lengths over the nodes below the root that are unlocked and that are locked; the leaf
set holds, once each, the unlocked nodes without a child; a node's `lock_ref` is the number of
outstanding locks at nodes from which the parent pointers lead to it, so it is never negative and
never more than that of its parent; and the root has a reference of its own and is in the tree but
not in the leaf set. -/
theorem radixCache_counters (h : LockRun cfg args locks S) :
    ∃ nodes : Finset NodeId,
      (∀ n, n ∈ nodes ↔ InTree cfg S.cache n ∧ n ≠ S.cache.rootNode) ∧
      S.cache.evictableSize
        = ∑ n ∈ nodes with (S.cache.nodes n).lockRef = 0, ((S.cache.nodes n).key.len : ℤ) ∧
      S.cache.protectedSize
        = ∑ n ∈ nodes with (S.cache.nodes n).lockRef > 0, ((S.cache.nodes n).key.len : ℤ) ∧
      S.cache.evictableLeaves.Nodup ∧
      (∀ n, n ∈ S.cache.evictableLeaves ↔
        n ∈ nodes ∧ (S.cache.nodes n).lockRef = 0 ∧ (S.cache.nodes n).children.entries = []) ∧
      (∀ n ∈ nodes, (S.cache.nodes n).lockRef = locks.countP fun m => S.cache.LeadsTo m n) ∧
      (∀ n ∈ nodes, 0 ≤ (S.cache.nodes n).lockRef ∧
        ∀ p, (S.cache.nodes n).parent = some p → p ≠ S.cache.rootNode →
          p ∈ nodes ∧ (S.cache.nodes n).lockRef ≤ (S.cache.nodes p).lockRef) ∧
      InTree cfg S.cache S.cache.rootNode ∧ 1 ≤ (S.cache.nodes S.cache.rootNode).lockRef ∧
      S.cache.rootNode ∉ S.cache.evictableLeaves := by
  obtain ⟨t, hi⟩ := h.inv
  have hrep := hi.represents
  have hmem : ∀ n, n ∈ t.nodes.erase t.root ↔ n ∈ t.nodes ∧ n ≠ t.root := by
    intro n; rw [Finset.mem_erase, and_comm]
  refine ⟨t.nodes.erase t.root, ?_, ?_, ?_, hi.leaves.nodup, ?_, ?_, ?_, ?_, ?_, ?_⟩
  · intro n
    rw [hmem, hrep.inTree_iff, hrep.root_eq]
  · rw [hi.sizes.evictableSize, Finset.sum_filter]
    rfl
  · rw [hi.sizes.protectedSize, Finset.sum_filter]
    rfl
  · intro n
    rw [hi.leaves.mem_iff, hmem, and_assoc]
    refine and_congr_right fun hn => and_congr_right fun _ => ?_
    rw [hrep.entries_eq_nil_iff hn, le_antisymm_iff]
    exact and_congr_left fun _ => (and_iff_left (hi.sizes.lockRef_nonneg n hn)).symm
  · intro n hn
    obtain ⟨hn, hr⟩ := (hmem n).mp hn
    rw [hi.lockRef_eq n hn hr, RootedTree.below]
    refine congrArg _ (countP_congr fun m hm => ?_)
    simp only [decide_eq_true_eq]
    exact (hrep.leadsTo_iff (hi.locks_mem m hm) hr).symm
  · intro n hn
    obtain ⟨hn, hr⟩ := (hmem n).mp hn
    refine ⟨hi.sizes.lockRef_nonneg n hn, fun p hp hpr => ?_⟩
    rw [hrep.parent_eq hn hr] at hp
    cases hp
    rw [hrep.root_eq] at hpr
    have hpn := t.parent_mem hn hr
    refine ⟨(hmem _).mpr ⟨hpn, hpr⟩, ?_⟩
    rw [hi.lockRef_eq n hn hr, hi.lockRef_eq _ hpn hpr]
    exact Int.ofNat_le.mpr (RootedTree.below_le_parent locks hi.locks_mem hn hr hpr)
  · rw [hrep.inTree_iff, hrep.root_eq]
    exact t.root_mem
  · rw [hrep.root_eq, hi.root_lockRef]
  · rw [hrep.root_eq, hi.leaves.mem_iff]
    exact fun h => h.2.1 rfl

/-- A system with an empty tree, no slots and no requests, around a given cache. -/
def bare (c : RadixCache ℕ) : KVSystem where
  cache := c
  allocator := ⟨0, 1, false, [], [], true, []⟩
  pool := ⟨fun _ _ => 0, []⟩
  reqs := fun _ => ⟨[], [], [], none, none, false, false, -1, false, false, 0, 0, none, [], none, 0,
    0, 0, false, false⟩

/-- The node of the small insertion, locked. -/
def smallLock : Option (RadixCache ℕ × ℤ) :=
  (smallInsert.get smallInsert_isSome).2.incLockRef 1

theorem smallLock_isSome : smallLock.isSome = true := by decide +kernel

/-- The theorem on a run: after an insertion of four tokens and a lock on the leaf, all four are
protected. -/
theorem radixCache_counters_small :
    ∃ S : KVSystem, LockRun (smallConfig false) ⟨false, false⟩ [1] S ∧
      S.cache.protectedSize = 4 ∧
      ∃ nodes : Finset NodeId,
        (∀ n, n ∈ nodes ↔ InTree (smallConfig false) S.cache n ∧ n ≠ S.cache.rootNode) ∧
        S.cache.protectedSize
          = ∑ n ∈ nodes with (S.cache.nodes n).lockRef > 0, ((S.cache.nodes n).key.len : ℤ) := by
  have hins : (bare (RadixCache.init (smallConfig false))).cache.insert (smallConfig false)
      ⟨[1, 2, 3, 4], none, false⟩ [10, 11, 12, 13] 0 false
      = some (smallInsert.get smallInsert_isSome) := (some_get smallInsert_isSome).symm
  have hinc : (smallInsert.get smallInsert_isSome).2.incLockRef 1
      = some (smallLock.get smallLock_isSome) := (some_get smallLock_isSome).symm
  have hlook : ((smallInsert.get smallInsert_isSome).2.nodes
      (smallInsert.get smallInsert_isSome).2.rootNode).children.lookup (.plain (.toks [1, 2]))
      = some 1 := by decide +kernel
  have hin : InTree (smallConfig false) (smallInsert.get smallInsert_isSome).2 1 :=
    ⟨_, _, .child .root hlook⟩
  have hrun : LockRun (smallConfig false) ⟨false, false⟩ [1] _ :=
    .incLockRef (.insert (.init rfl) (by nofun) (by decide +kernel) (by nofun) hins) hin hinc
  obtain ⟨nodes, h1, -, h2, -⟩ := radixCache_counters hrun
  exact ⟨_, hrun, by decide +kernel, nodes, h1, h2⟩

end KVSystem

end Sglang
