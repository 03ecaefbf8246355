/-
# An eviction makes room

The three functions that allocate slots for a batch evict first and raise when the allocator still
has too few.  They never do when the free slots and the evictable ones are together as many as the
function asks the eviction for (`alloc_makes_room`).

Three things come together.  An eviction frees that many slots (`evict_rounds_exact`), and as the
values of the tree are whole pages, each of them once, the allocator gets back as many slots as were
freed (`availableSize_free`).  The requests of a batch round up to pages one by one, which
costs less than one page each (`mul_getNumNewPages_le`).  And the allocators serve what they say is
available (`alloc_isSome`, `allocExtend_isSome`, `allocDecode_isSome_iff`).
-/
import Sglang.MemCache.AllocatorRuns
import Sglang.MemCache.Books
import Sglang.MemCache.Eviction

namespace Sglang

open Lib Option List Finset KVAllocator

/-! ## 1. Runs of the tree -/

namespace KVSystem

open RadixCache

variable {cfg : CacheConfig} {locks : List NodeId} {S S' : KVSystem}

theorem cutClosed_whole {p : ℕ} (hp : 0 < p) : CutClosed p (Whole p) :=
  fun _ j h => ⟨h.take hp _, h.drop hp j⟩

/-- A run of the tree with the locks that are outstanding in it. What is inserted are whole pages, as in
the books of the server's runs (`Books.makesRoom`); the `env` step stands for the rest of the server, the
allocator included. -/
inductive RoomRun (cfg : CacheConfig) : List NodeId → KVSystem → Prop
  | init {S : KVSystem} : S.cache = RadixCache.init cfg → RoomRun cfg [] S
  | insert {locks : List NodeId} {S : KVSystem} {c' : RadixCache ℕ} {key : RadixKey}
      {value : List ℕ} {priority : ℤ} {chunked : Bool} {k : ℕ} :
    RoomRun cfg locks S → ModeOk cfg key → (normKey cfg key).len ≤ value.length →
    (cfg.enableKvCacheEvents = true → key.Hashable) → Whole cfg.pageSize value →
    S.cache.insert cfg key value priority chunked = some (k, c') →
    RoomRun cfg locks { S with cache := c' }
  | matchPrefix {locks : List NodeId} {S : KVSystem} {c' : RadixCache ℕ} {key : RadixKey}
      {m : MatchResult ℕ} :
    RoomRun cfg locks S → ModeOk cfg key → S.cache.matchPrefix cfg key = some (m, c') →
    RoomRun cfg locks { S with cache := c' }
  | incLockRef {locks : List NodeId} {S : KVSystem} {c' : RadixCache ℕ} {n : NodeId} {delta : ℤ} :
    RoomRun cfg locks S → InTree cfg S.cache n → S.cache.incLockRef n = some (c', delta) →
    RoomRun cfg (n :: locks) { S with cache := c' }
  | decLockRef {locks : List NodeId} {S : KVSystem} {c' : RadixCache ℕ} {n : NodeId} {delta : ℤ} :
    RoomRun cfg locks S → n ∈ locks → S.cache.decLockRef n = some (c', delta) →
    RoomRun cfg (locks.erase n) { S with cache := c' }
  | evict {locks : List NodeId} {S S' : KVSystem} {numTokens : ℕ} :
    RoomRun cfg locks S → S.evict cfg numTokens = some S' → RoomRun cfg locks S'
  | env {locks : List NodeId} {S S' : KVSystem} :
    RoomRun cfg locks S → S'.cache = S.cache → RoomRun cfg locks S'

/-- Every state of a run has the invariant of the tree, and its values are whole pages. -/
theorem RoomRun.inv (h : RoomRun cfg locks S) :
    ∃ t, Inv cfg t locks S.cache ∧ AllSlots (Whole cfg.pageSize) t S.cache := by
  have hcut := cutClosed_whole cfg.pageSize_pos
  induction h with
  | init heq =>
    refine ⟨_, by rw [heq]; exact reset_inv cfg _, fun n hn hr => ?_⟩
    rw [Finset.mem_singleton.mp hn] at hr
    exact absurd rfl hr
  | insert _ hmode hlen hhash hwhole heq ih =>
    obtain ⟨t, hi, hw⟩ := ih
    obtain ⟨j, vs, t₁, c₁, node, t', c', heq', hreach, hg⟩ :=
      insert_spec hi.toBase hmode hlen hhash _ _
    rw [heq'] at heq
    cases heq
    exact ⟨t', hg.inv (hreach.reshape.inv hi),
      hg.allSlots ((hwhole.take cfg.pageSize_pos _).drop cfg.pageSize_pos j)
        (hreach.reshape.allSlots hcut hw)⟩
  | matchPrefix _ hmode heq ih =>
    obtain ⟨t, hi, hw⟩ := ih
    obtain ⟨j, vs, t', c', node, heq', hreach⟩ := matchPrefix_spec hi.toBase hmode
    rw [heq'] at heq
    cases heq
    exact ⟨t', hreach.reshape.inv hi, hreach.reshape.allSlots hcut hw⟩
  | incLockRef _ hn heq ih =>
    obtain ⟨t, hi, hw⟩ := ih
    obtain ⟨c', delta, heq', hrel, hi'⟩ := incLockRef_inv hi (hi.represents.inTree_iff.mp hn)
    rw [heq'] at heq
    cases heq
    exact ⟨t, hi', hrel.allSlots hw⟩
  | decLockRef _ hn heq ih =>
    obtain ⟨t, hi, hw⟩ := ih
    obtain ⟨c', delta, heq', hrel, hi'⟩ := decLockRef_inv hi hn
    rw [heq'] at heq
    cases heq
    exact ⟨t, hi', hrel.allSlots hw⟩
  | evict _ heq ih =>
    obtain ⟨t, hi, hw⟩ := ih
    obtain ⟨t', c', freed, hev', hev, -⟩ := evict_spec hi.toBase _
    rw [KVSystem.evict, hev'] at heq
    cases heq
    refine ⟨t', ?_, ?_⟩
    · rw [foldl_free_cache]
      exact hev.inv hi
    · rw [foldl_free_cache]
      exact (hev.allSlots hw).1
  | env _ hc ih =>
    rw [hc]
    exact ih

/-! ## 2. Room -/

variable {t : RootedTree NodeId}

/-- **The eviction before an allocation makes room**, whenever free and evictable slots suffice. -/
theorem evictFromTreeCache_room {needSort : Bool} {n : ℕ}
    (hi : Inv cfg t locks S.cache) (hw : AllSlots (Whole cfg.pageSize) t S.cache)
    (hfits : S.allocator.Fits cfg.pageSize needSort)
    (hgroup : S.allocator.isNotInFreeGroup = true)
    (h : (n : ℤ) ≤ S.allocator.availableSize + S.cache.evictableSize) :
    ∃ S', S.evictFromTreeCache cfg n = some S' ∧
      S'.allocator.Fits cfg.pageSize needSort ∧ n ≤ S'.allocator.availableSize := by
  unfold evictFromTreeCache
  split
  · obtain ⟨t', c', ns, heq, hrounds, hexact⟩ := evict_rounds_exact hi n
    have hev := hrounds.evicts hi.toBase (heapOk_start hi.toBase)
    generalize ns.map S.cache.slots = freed at heq hexact hev
    have hfreed := (hev.allSlots (P := fun value => Whole cfg.pageSize value ∧
      cfg.pageSize ∣ value.length) fun n hn hr => ⟨hw n hn hr, hi.toBase.dvd_slots hn hr⟩).2
    have hsize := availableSize_foldl_free (A := S.allocator)
      (by rw [hfits.pageSize]; exact cfg.pageSize_pos) hgroup (by rw [hfits.pageSize]; exact hfreed)
    refine ⟨freed.foldl free { S with cache := c' }, ?_, ?_, ?_⟩
    · rw [KVSystem.evict, heq]
      rfl
    · rw [foldl_free_eq]
      exact foldl_free_fits hfits
    · rw [foldl_free_eq, hsize]
      rcases min_le_iff.mp hexact.enough with hle | hle
      · omega
      · omega
  · exact ⟨S, rfl, hfits, not_lt.mp ‹_›⟩

/-- The three allocations for a batch do not raise while there is room. -/
structure MakesRoom (cfg : CacheConfig) (S : KVSystem) : Prop where
  tokens : ∀ numTokens : ℕ,
    (numTokens : ℤ) ≤ S.allocator.availableSize + S.cache.evictableSize →
    (S.allocTokenSlots cfg numTokens).isSome = true
  extend : ∀ (batch : List ExtendItem) (extendNumTokens : ℕ),
    extendNumTokens = (batch.map fun it => it.seqLen - it.prefixLen).sum →
    ((extendNumTokens + batch.length * cfg.pageSize : ℕ) : ℤ)
      ≤ S.allocator.availableSize + S.cache.evictableSize →
    (S.allocPagedTokenSlotsExtend cfg batch extendNumTokens).isSome = true
  decode : ∀ batch : List (ℕ × ℤ),
    ((batch.length * cfg.pageSize : ℕ) : ℤ) ≤ S.allocator.availableSize + S.cache.evictableSize →
    (S.allocPagedTokenSlotsDecode cfg batch).isSome = true

/-- Whole pages in the tree and an allocator of its page size are all it takes. -/
theorem makesRoom_of_whole {needSort : Bool}
    (hi : Inv cfg t locks S.cache) (hw : AllSlots (Whole cfg.pageSize) t S.cache)
    (hA : S.allocator.Fits cfg.pageSize needSort)
    (hgroup : S.allocator.isNotInFreeGroup = true) : MakesRoom cfg S := by
  have hroom := fun n h => evictFromTreeCache_room (n := n) hi hw hA hgroup h
  refine ⟨fun n hn => ?_, fun batch n hsum hn => ?_, fun batch hn => ?_⟩
  · obtain ⟨S', heq, hfits, hle⟩ := hroom n hn
    have hp : 0 < S'.allocator.pageSize := by rw [hfits.pageSize]; exact cfg.pageSize_pos
    obtain ⟨x, hx⟩ := isSome_iff_exists.mp (alloc_isSome hp hfits.tidy hle)
    simp [allocTokenSlots, heq, hx]
  · obtain ⟨S', heq, hfits, hle⟩ := hroom _ hn
    have hp : 0 < S'.allocator.pageSize := by rw [hfits.pageSize]; exact cfg.pageSize_pos
    obtain ⟨x, hx⟩ := isSome_iff_exists.mp
      (allocExtend_isSome hp hfits.tidy hsum (by rw [hfits.pageSize]; exact hle))
    simp [allocPagedTokenSlotsExtend, hA.pageSize, heq, hx]
  · obtain ⟨S', heq, hfits, hle⟩ := hroom _ hn
    have hp : 0 < S'.allocator.pageSize := by rw [hfits.pageSize]; exact cfg.pageSize_pos
    obtain ⟨x, hx⟩ := isSome_iff_exists.mp
      ((allocDecode_isSome_iff hfits.tidy).mpr ((decodePages_le _ batch).trans
        (le_card_pages hp (by rw [hfits.pageSize]; exact hle))))
    simp [allocPagedTokenSlotsDecode, hA.pageSize, heq, hx]

/-- In balanced books the tree holds whole pages, and nothing twice. -/
theorem Books.makesRoom {args : ServerArgs} {t : RootedTree NodeId} {holders : List ReqId}
    {needSort : Bool} (hb : Books cfg args t holders S) (hA : S.allocator.Fits cfg.pageSize needSort) :
    MakesRoom cfg S := by
  refine makesRoom_of_whole hb.inv (fun n hn hr => ⟨hb.pagedTree n hn hr, ?_⟩) hA hb.no_group
  refine Multiset.coe_nodup.mp (Multiset.nodup_of_le ?_ hb.nodup_tree)
  exact Finset.single_le_sum (f := fun n => (heads cfg.pageSize (S.cache.slots n) : Multiset ℕ))
    (fun _ _ => zero_le) (mem_erase.mpr ⟨hr, hn⟩)

/-- **Eviction makes room** in every state of a run, for either allocator outside a free group. -/
theorem alloc_makes_room {size : ℕ} {needSort : Bool} (h : RoomRun cfg locks S)
    (hA : KVAllocator.Reached size cfg.pageSize needSort S.allocator)
    (hgroup : S.allocator.isNotInFreeGroup = true) : MakesRoom cfg S := by
  obtain ⟨t, hi, hw⟩ := h.inv
  exact makesRoom_of_whole hi hw hA.fits hgroup

/-- The pool of the small run, with all of its six pages handed out. -/
def smallPool : Option (List ℕ × KVAllocator) :=
  (KVAllocator.clear ⟨12, 2, true, [], [], true, []⟩).alloc 12

theorem smallPool_isSome : smallPool.isSome = true := by decide +kernel

/-- The theorem on a run: no slot is free, and the four of the tree make room. -/
theorem alloc_makes_room_small : ∃ S : KVSystem, S.allocator.availableSize = 0
    ∧ S.cache.evictableSize = 4 ∧ MakesRoom (smallConfig false) S := by
  have hins : (bare (RadixCache.init (smallConfig false))).cache.insert (smallConfig false)
      ⟨[1, 2, 3, 4], none, false⟩ [10, 11, 12, 13] 0 false
      = some (smallInsert.get smallInsert_isSome) := (some_get smallInsert_isSome).symm
  have hwhole : Whole 2 [10, 11, 12, 13] := by
    refine ⟨?_, by decide⟩
    unfold Paged
    decide
  have hrun : RoomRun (smallConfig false) [] _ :=
    .insert (.init rfl) (fun h => by cases h) (by decide +kernel) (fun h => by cases h) hwhole hins
  have hpool : KVAllocator.Reached 12 2 true (smallPool.get smallPool_isSome).2 :=
    .alloc .init (some_get smallPool_isSome).symm
  exact ⟨{ bare (smallInsert.get smallInsert_isSome).2 with
      allocator := (smallPool.get smallPool_isSome).2 }, by decide +kernel, by decide +kernel,
    alloc_makes_room (hrun.env rfl) hpool (by decide +kernel)⟩

end KVSystem

end Sglang
