/-
# Window eviction along the life of a request

`WindowSafe` holds all along the life of a request (`Reached.windowSafe`): the frontier advances by whole
pages, what it passes is freed once, and it stays a page and a window behind what the request has
committed.  So the key of the request always ends behind the frontier, and the suffix it inserts is cut
into a tombstone and a live leaf.  When `strip_thinking_cache` cuts the key to the prompt, the frontier can
be past its end (`stripped_frontier_past_key`); what it has passed is still not freed again.
-/
import Sglang.MemCache.WindowEviction

namespace Sglang

namespace SwaLife

open List

variable {cfg : SwaConfig} {s s' : SwaLife} {A : SWATokenToKVPoolAllocator} {evicted K K' : ℕ}
  {preLen : ℤ}

/-! ## 1. The invariant

`Frontier cfg K s` is about the frontier, the row and the allocator, with `K` for the number of tokens the
request has committed; `Counts` is about the lengths. -/

/-- A call of the log: it freed positions behind the protected part and before the window. -/
structure EvictionOk (cfg : SwaConfig) (K : ℕ) (s : SwaLife) (e : SwaEviction) : Prop where
  lt : e.start < e.stop
  protectedLen_le : e.protectedLen ≤ e.start
  protected_le : s.req.cacheProtectedLen ≤ e.start
  window : (e.stop : ℤ) + cfg.slidingWindowSize + cfg.pageSize ≤ e.preLen
  stop_le : e.stop ≤ s.req.swaEvictedSeqlen
  committed : e.stop + cfg.slidingWindowSize + cfg.pageSize + 1 ≤ K

structure Frontier (cfg : SwaConfig) (K : ℕ) (s : SwaLife) : Prop where
  protected_dvd : cfg.pageSize ∣ s.req.cacheProtectedLen
  evicted_dvd : cfg.pageSize ∣ s.req.swaEvictedSeqlen
  protected_le : s.req.cacheProtectedLen ≤ s.row.length
  behind : s.req.swaEvictedSeqlen ≤ s.req.cacheProtectedLen ∨
    s.req.swaEvictedSeqlen + cfg.slidingWindowSize + cfg.pageSize + 1 ≤ K
  nodup : (s.row.drop s.req.cacheProtectedLen).Nodup
  held : ∀ x ∈ s.row.drop s.base, Held s.allocator x
  gone : ∀ i, s.req.cacheProtectedLen ≤ i → i < s.req.swaEvictedSeqlen →
    ∃ x, s.row[i]? = some x ∧ swaSlot? s.allocator x = some 0
  log : ∀ e ∈ s.evictions, EvictionOk cfg K s e
  ordered : s.evictions.Pairwise fun e e' => e.stop ≤ e'.start

structure Counts (cfg : SwaConfig) (s : SwaLife) : Prop where
  committed_le : s.req.kvCommittedLen ≤ s.row.length
  protected_le : s.phase ≠ .prefill → s.req.cacheProtectedLen ≤ s.req.kvCommittedLen
  prefill : s.phase = .prefill → s.inFlight = 0 ∧ s.req.decodeBatchIdx = 0
  count : s.phase ≠ .prefill → s.req.seqlen + s.inFlight = s.req.kvCommittedLen + 1
  launched : s.phase = .launched → s.inFlight = s.req.decodeBatchIdx + 1
  quiet : cfg.isChunkCache = false → s.phase ≠ .decode →
    s.req.swaEvictedSeqlen = 0 ∧ s.evictions = []

/-- The number of committed tokens that the request has. -/
def tokens (s : SwaLife) : ℕ := min s.req.seqlen s.req.kvCommittedLen

theorem protected_le_base (s : SwaLife) : s.req.cacheProtectedLen ≤ s.base := le_max_right _ _

theorem EvictionOk.mono {e : SwaEviction} (h : EvictionOk cfg K s e) (hK : K ≤ K') :
    EvictionOk cfg K' s e :=
  { h with committed := h.committed.trans hK }

theorem Frontier.mono (h : Frontier cfg K s) (hK : K ≤ K') : Frontier cfg K' s :=
  { h with
    behind := h.behind.imp_right fun hle => hle.trans hK
    log := fun e he => (h.log e he).mono hK }

/-- What the invariant reads of a state. -/
structure SameFrontier (s s' : SwaLife) : Prop where
  protectedLen : s'.req.cacheProtectedLen = s.req.cacheProtectedLen
  evicted : s'.req.swaEvictedSeqlen = s.req.swaEvictedSeqlen
  row : s'.row = s.row
  allocator : s'.allocator = s.allocator
  evictions : s'.evictions = s.evictions

theorem Frontier.congr (h : Frontier cfg K s) (hsame : SameFrontier s s') : Frontier cfg K s' := by
  have hbase : s'.base = s.base := by rw [base, base, hsame.evicted, hsame.protectedLen]
  constructor
  · simpa only [hsame.protectedLen] using h.protected_dvd
  · simpa only [hsame.evicted] using h.evicted_dvd
  · simpa only [hsame.protectedLen, hsame.row] using h.protected_le
  · simpa only [hsame.protectedLen, hsame.evicted] using h.behind
  · simpa only [hsame.protectedLen, hsame.row] using h.nodup
  · simpa only [hbase, hsame.row, hsame.allocator] using h.held
  · simpa only [hsame.protectedLen, hsame.evicted, hsame.row, hsame.allocator] using h.gone
  · intro e he
    have hok := h.log e (hsame.evictions ▸ he)
    exact { hok with
      protected_le := hsame.protectedLen ▸ hok.protected_le
      stop_le := hsame.evicted ▸ hok.stop_le }
  · simpa only [hsame.evictions] using h.ordered

/-- The positions a frontier has passed are those it frees, in order and behind it. -/
theorem Frontier.evictSwa (h : Frontier cfg K s) (hpre : preLen + 1 ≤ K)
    (hrow : preLen ≤ s.row.length) (hout : EvictOutcome cfg s preLen s') : Frontier cfg K s' := by
  have hbase : cfg.pageSize ∣ s.base := by
    rcases max_choice s.req.swaEvictedSeqlen s.req.cacheProtectedLen with hm | hm
    · rw [base, hm]
      exact h.evicted_dvd
    · rw [base, hm]
      exact h.protected_dvd
  have hmono : s.req.swaEvictedSeqlen ≤ s.base := le_max_left _ _
  cases hout with
  | kept =>
    have hbb : ({ s with req := { s.req with swaEvictedSeqlen := s.base } } : SwaLife).base = s.base :=
      max_eq_left s.protected_le_base
    refine { h with
      evicted_dvd := hbase, behind := ?_, held := ?_, gone := ?_, log := fun e he => ?_ }
    · rcases h.behind with hle | hle
      · left
        exact (max_eq_right hle).le
      · rcases le_total s.req.swaEvictedSeqlen s.req.cacheProtectedLen with hc | hc
        · left
          exact (max_eq_right hc).le
        · right
          simpa [base, max_eq_left hc] using hle
    · rw [hbb]
      exact h.held
    · intro i hi hi'
      rcases lt_max_iff.mp hi' with hlt | hlt
      · exact h.gone i hi hlt
      · exact absurd hlt (Nat.not_lt.mpr hi)
    · have hok := h.log e he
      exact { hok with stop_le := hok.stop_le.trans hmono }
  | @moved new A hlt hle hdvd hmap =>
    have hprot := s.protected_le_base
    have hdrop : (s.row.drop s.base).Nodup := by
      have hsuffix : s.row.drop s.base
          = (s.row.drop s.req.cacheProtectedLen).drop (s.base - s.req.cacheProtectedLen) := by
        rw [drop_drop]
        congr 1
        omega
      rw [hsuffix]
      exact h.nodup.sublist (drop_sublist _ _)
    have hcut : s.row.drop s.base = (s.row.take new).drop s.base ++ s.row.drop new := by
      rw [drop_take]
      have hdd : s.row.drop new = (s.row.drop s.base).drop (new - s.base) := by
        rw [drop_drop]
        congr 1
        omega
      rw [hdd, take_append_drop]
    have hdead : ∀ i, s.base ≤ i → i < new → ∃ x, s.row[i]? = some x ∧ swaSlot? A x = some 0 := by
      intro i hi hi'
      obtain ⟨x, hx⟩ : ∃ x, s.row[i]? = some x := ⟨_, getElem?_eq_getElem (by omega)⟩
      have hmem : x ∈ (s.row.take new).drop s.base := by
        refine mem_of_getElem? (i := i - s.base) ?_
        rw [getElem?_drop, getElem?_take, if_pos (by omega), ← hx]
        congr 1
        omega
      exact ⟨x, hx, by rw [hmap, if_pos hmem]⟩
    have hbn : ({ s with
        req := { s.req with swaEvictedSeqlen := new }
        allocator := A
        evictions := s.evictions ++ [⟨preLen, s.req.cacheProtectedLen, s.base, new⟩] } : SwaLife).base
          = new := max_eq_left (hprot.trans hlt.le)
    refine { h with
      evicted_dvd := hdvd, behind := ?_, held := ?_, gone := ?_, log := ?_, ordered := ?_ }
    · right
      change new + cfg.slidingWindowSize + cfg.pageSize + 1 ≤ K
      omega
    · rw [hbn]
      intro x hx
      have hx' : x ∈ s.row.drop s.base := by
        rw [hcut]
        exact mem_append_right _ hx
      have hnot : x ∉ (s.row.take new).drop s.base := by
        rw [hcut] at hdrop
        exact fun hmem => disjoint_of_nodup_append hdrop hmem hx
      obtain ⟨v, hv, hslot⟩ := h.held x hx'
      exact ⟨v, hv, by rw [hmap, if_neg hnot, hslot]⟩
    · intro i hi hi'
      rcases Nat.lt_or_ge i s.base with hlow | hhigh
      · have hpassed : i < s.req.swaEvictedSeqlen := (lt_max_iff.mp hlow).resolve_right (Nat.not_lt.mpr hi)
        obtain ⟨x, hx, hslot⟩ := h.gone i hi hpassed
        refine ⟨x, hx, ?_⟩
        rw [hmap]
        split
        · rfl
        · exact hslot
      · exact hdead i hhigh hi'
    · intro e he
      rcases mem_append.mp he with he | he
      · have hok := h.log e he
        exact { hok with stop_le := hok.stop_le.trans (hmono.trans hlt.le) }
      · obtain rfl := mem_singleton.mp he
        exact ⟨hlt, hprot, hprot, hle, le_rfl, by simp only; omega⟩
    · refine pairwise_append.mpr ⟨h.ordered, pairwise_singleton _ _, ?_⟩
      intro e he e' he'
      obtain rfl := mem_singleton.mp he'
      exact (h.log e he).stop_le.trans hmono

/-- The request's own slots: those behind the protected part. -/
def own (s : SwaLife) : List ℕ := s.row.drop s.req.cacheProtectedLen

theorem mem_own_of_drop {n x : ℕ} (hn : s.req.cacheProtectedLen ≤ n) (hx : x ∈ s.row.drop n) :
    x ∈ s.own := by
  have hdd : s.row.drop n = s.own.drop (n - s.req.cacheProtectedLen) := by
    rw [own, drop_drop]
    congr 1
    omega
  rw [hdd] at hx
  exact mem_of_mem_drop hx

/-- The others leave the request's own slots alone. -/
theorem Frontier.others (h : Frontier cfg K s)
    (hframe : ∀ x ∈ s.own, swaSlot? A x = swaSlot? s.allocator x) :
    Frontier cfg K { s with allocator := A } := by
  refine { h with held := fun x hx => ?_, gone := fun i hi hi' => ?_, log := fun e he => ?_ }
  · obtain ⟨v, hv, hslot⟩ := h.held x hx
    exact ⟨v, hv, by rw [hframe x (mem_own_of_drop s.protected_le_base hx), hslot]⟩
  · obtain ⟨x, hx, hslot⟩ := h.gone i hi hi'
    have hmem : x ∈ s.own := by
      change s.req.cacheProtectedLen ≤ i at hi
      refine mem_of_getElem? (i := i - s.req.cacheProtectedLen) ?_
      rw [own, getElem?_drop, ← hx]
      congr 1
      omega
    exact ⟨x, hx, by rw [hframe x hmem, hslot]⟩
  · exact { h.log e he with }

/-- An allocation appends new slots. -/
theorem Frontier.served {slots : List ℕ} (h : Frontier cfg K s)
    (halloc : Served s.allocator s.row slots A) :
    Frontier cfg K { s with row := s.row ++ slots, allocator := A } := by
  refine ⟨h.protected_dvd, h.evicted_dvd, ?_, h.behind, ?_, fun x hx => ?_, fun i hi hi' => ?_,
    fun e he => { h.log e he with }, h.ordered⟩
  · simpa using h.protected_le.trans (Nat.le_add_right _ _)
  · change ((s.row ++ slots).drop s.req.cacheProtectedLen).Nodup
    rw [drop_append_of_le_length h.protected_le]
    refine List.Nodup.append h.nodup halloc.nodup ?_
    intro x hx hx'
    exact halloc.fresh x hx' (mem_of_mem_drop hx)
  · change x ∈ (s.row ++ slots).drop s.base at hx
    rw [drop_append] at hx
    rcases mem_append.mp hx with hx | hx
    · obtain ⟨v, hv, hslot⟩ := h.held x hx
      exact ⟨v, hv, by rw [halloc.frame x (mem_of_mem_drop hx), hslot]⟩
    · exact halloc.held x (mem_of_mem_drop hx)
  · obtain ⟨x, hx, hslot⟩ := h.gone i hi hi'
    refine ⟨x, ?_, by rw [halloc.frame x (mem_of_getElem? hx), hslot]⟩
    change (s.row ++ slots)[i]? = some x
    rw [getElem?_append_left (List.getElem?_eq_some_iff.mp hx).1, hx]

/-- The slots behind the committed tokens are given back. -/
theorem Frontier.take {kept : ℕ} (h : Frontier cfg K s) (hprot : s.req.cacheProtectedLen ≤ kept)
    (hK : K ≤ kept) : Frontier cfg K { s with row := s.row.take kept } := by
  refine ⟨h.protected_dvd, h.evicted_dvd, ?_, h.behind, ?_, fun x hx => ?_, fun i hi hi' => ?_,
    fun e he => { h.log e he with }, h.ordered⟩
  · simpa using ⟨hprot, h.protected_le⟩
  · change ((s.row.take kept).drop s.req.cacheProtectedLen).Nodup
    rw [drop_take]
    exact h.nodup.sublist (take_sublist _ _)
  · change x ∈ (s.row.take kept).drop s.base at hx
    rw [drop_take] at hx
    exact h.held x (mem_of_mem_take hx)
  · obtain ⟨x, hx, hslot⟩ := h.gone i hi hi'
    refine ⟨x, ?_, hslot⟩
    change (s.row.take kept)[i]? = some x
    change s.req.cacheProtectedLen ≤ i at hi
    change i < s.req.swaEvictedSeqlen at hi'
    have := h.behind
    rw [getElem?_take, if_pos (by omega), hx]

/-- Before anything is evicted the tree may take over a longer part of the row. -/
theorem Frontier.cached {newIndices : List ℕ} (h : Frontier cfg K s)
    (hevicted : s.req.swaEvictedSeqlen = 0) (hlog : s.evictions = [])
    (hold : s.req.cacheProtectedLen ≤ newIndices.length) (hpage : cfg.pageSize ∣ newIndices.length)
    (hframe : ∀ x ∈ s.row.drop newIndices.length, swaSlot? A x = swaSlot? s.allocator x) :
    Frontier cfg K { s with
      req := { s.req with cacheProtectedLen := newIndices.length }
      row := s.row.take s.req.cacheProtectedLen ++ newIndices.drop s.req.cacheProtectedLen
        ++ s.row.drop newIndices.length
      allocator := A } := by
  set row' := s.row.take s.req.cacheProtectedLen ++ newIndices.drop s.req.cacheProtectedLen with hrow'
  have hlen : row'.length = newIndices.length := by
    simp [hrow', h.protected_le, hold]
  have hdrop : (row' ++ s.row.drop newIndices.length).drop newIndices.length
      = s.row.drop newIndices.length := by
    rw [← hlen, drop_left]
  have hbase : s.base = s.req.cacheProtectedLen := by simp [base, hevicted]
  have hsub : ∀ x ∈ s.row.drop newIndices.length, x ∈ s.row.drop s.base := by
    intro x hx
    rw [hbase]
    exact mem_own_of_drop hold hx
  refine ⟨hpage, h.evicted_dvd, ?_, ?_, ?_, fun x hx => ?_, ?_, ?_, h.ordered⟩
  · simp only [length_append, hlen]
    exact Nat.le_add_right _ _
  · left
    simp [hevicted]
  · change ((row' ++ s.row.drop newIndices.length).drop newIndices.length).Nodup
    rw [hdrop]
    have hdd : s.row.drop newIndices.length
        = s.own.drop (newIndices.length - s.req.cacheProtectedLen) := by
      rw [own, drop_drop]
      congr 1
      omega
    rw [hdd]
    exact h.nodup.sublist (drop_sublist _ _)
  · change x ∈ (row' ++ s.row.drop newIndices.length).drop
      (max s.req.swaEvictedSeqlen newIndices.length) at hx
    rw [hevicted, Nat.zero_max, hdrop] at hx
    obtain ⟨v, hv, hslot⟩ := h.held x (hsub x hx)
    exact ⟨v, hv, by rw [hframe x hx, hslot]⟩
  · simp [hevicted]
  · simp [hlog]

/-! ## 2. The steps -/

structure Inv (cfg : SwaConfig) (s : SwaLife) : Prop where
  frontier : Frontier cfg s.tokens s
  counts : Counts cfg s

theorem Admitted.inv (h : Admitted cfg s) : Inv cfg s where
  frontier := by
    have hdrop : s.row.drop s.req.cacheProtectedLen = [] := by
      rw [h.protected_eq, drop_length]
    have hbase : s.row.drop s.base = [] := by
      rw [base, h.evicted, Nat.zero_max, hdrop]
    exact ⟨h.protected_eq ▸ h.page, by simp [h.evicted], h.protected_eq.le,
      .inl (by simp [h.evicted]), by simp [hdrop], by simp [hbase], by simp [h.evicted],
      by simp [h.evictions], by simp [h.evictions]⟩
  counts := by
    constructor <;> simp [h.committed, h.phase, h.inFlight, h.decodeBatchIdx, h.evicted,
      h.evictions]

/-- A call keeps everything but the frontier, the mapping and the log. -/
structure SameRequest (s s' : SwaLife) : Prop where
  req : s'.req = { s.req with swaEvictedSeqlen := s'.req.swaEvictedSeqlen }
  row : s'.row = s.row
  phase : s'.phase = s.phase
  inFlight : s'.inFlight = s.inFlight
  mono : s.req.swaEvictedSeqlen ≤ s'.req.swaEvictedSeqlen

theorem EvictOutcome.sameRequest (h : EvictOutcome cfg s preLen s') : SameRequest s s' := by
  have hmono : s.req.swaEvictedSeqlen ≤ s.base := le_max_left _ _
  cases h with
  | kept => exact ⟨rfl, rfl, rfl, rfl, hmono⟩
  | moved hlt hle hdvd hmap => exact ⟨rfl, rfl, rfl, rfl, hmono.trans hlt.le⟩

theorem SameRequest.refl (s : SwaLife) : SameRequest s s := ⟨rfl, rfl, rfl, rfl, le_rfl⟩

theorem Frontier.covered (h : Frontier cfg K s) :
    ∀ x ∈ s.row.drop s.base, ∃ v, swaSlot? s.allocator x = some v := fun x hx =>
  let ⟨v, _, hv⟩ := h.held x hx
  ⟨v, hv⟩

/-- A call that returned did what `EvictOutcome` says. -/
theorem Frontier.outcome (h : Frontier cfg K s) (heq : SwaLife.evictSwa cfg s preLen = some s') :
    EvictOutcome cfg s preLen s' := by
  obtain ⟨s₁, heq₁, hout⟩ := evictSwa_spec h.protected_dvd h.covered preLen
  rw [heq] at heq₁
  cases heq₁
  exact hout

/-- `maybe_evict_swa` of a decode batch; the first one evicts nothing. -/
theorem Inv.decodeCall (h : Inv cfg s) (hphase : s.phase ≠ .prefill)
    (heq : maybeEvictSwaDecode cfg s = some s') :
    Frontier cfg s.req.seqlen s' ∧ SameRequest s s' ∧ (s.req.decodeBatchIdx = 0 → s' = s) := by
  have hK : s.tokens ≤ s.req.seqlen := min_le_left _ _
  have hcount := h.counts.count hphase
  have hrow := h.counts.committed_le
  unfold maybeEvictSwaDecode at heq
  split at heq
  · rename_i hidx
    have hout := h.frontier.outcome heq
    refine ⟨(h.frontier.mono hK).evictSwa (by omega) (by omega) hout, hout.sameRequest, ?_⟩
    intro hzero
    simp [hzero] at hidx
  · cases heq
    exact ⟨h.frontier.mono hK, .refl s, fun _ => rfl⟩

/-- `maybe_evict_swa` of an extend batch; only without a radix cache it evicts. -/
theorem Inv.extendCall (h : Inv cfg s) (heq : maybeEvictSwaExtend cfg s s.row.length = some s') :
    Frontier cfg (s.row.length + 1) s' ∧ SameRequest s s' ∧
      (cfg.isChunkCache = false → s' = s) := by
  have hK : s.tokens ≤ s.row.length + 1 :=
    (min_le_right _ _).trans (h.counts.committed_le.trans (Nat.le_succ _))
  have hcall : ∀ {preLen : ℤ}, preLen ≤ s.row.length → SwaLife.evictSwa cfg s preLen = some s' →
      Frontier cfg (s.row.length + 1) s' ∧ SameRequest s s' := by
    intro preLen hpre heq
    have hout := h.frontier.outcome heq
    exact ⟨(h.frontier.mono hK).evictSwa (by omega) hpre hout, hout.sameRequest⟩
  unfold maybeEvictSwaExtend at heq
  split at heq
  · rename_i hchunk
    have hno : cfg.isChunkCache = false → s' = s := by simp [hchunk]
    split at heq
    · split at heq
      · cases heq
        exact ⟨h.frontier.mono hK, .refl s, fun _ => rfl⟩
      · obtain ⟨hfr, hsame⟩ := hcall (by split <;> omega) heq
        exact ⟨hfr, hsame, hno⟩
    · obtain ⟨hfr, hsame⟩ := hcall le_rfl heq
      exact ⟨hfr, hsame, hno⟩
  · cases heq
    exact ⟨h.frontier.mono hK, .refl s, fun _ => rfl⟩

/-- **Every step keeps the invariant and never moves the frontier back.** -/
theorem Inv.step (h : Inv cfg s) (hstep : Step cfg s s') :
    Inv cfg s' ∧ s.req.swaEvictedSeqlen ≤ s'.req.swaEvictedSeqlen := by
  have hc := h.counts
  cases hstep with
  | @prepareForExtend s₁ slots A hphase hslots hfill hevict halloc =>
    obtain ⟨hfr, hsame, hradix⟩ := h.extendCall hevict
    have hpos : 0 < slots.length := length_pos_of_ne_nil hslots
    have hprot : s₁.req.cacheProtectedLen = s.req.cacheProtectedLen := by rw [hsame.req]
    have hseq : s₁.req.seqlen = s.req.seqlen := by rw [hsame.req]; rfl
    have hidx : s₁.req.decodeBatchIdx = 0 := by
      rw [hsame.req]
      exact (hc.prefill hphase).2
    have hK : s.row.length + 1 ≤ min s₁.req.seqlen (s₁.row.length + slots.length) := by
      rw [hsame.row]
      omega
    refine ⟨⟨((hfr.mono hK).served halloc).congr ⟨rfl, rfl, rfl, rfl, rfl⟩, ?_⟩, hsame.mono⟩
    have hle := h.frontier.protected_le
    by_cases hlast : s.row.length + slots.length = s.req.seqlen
    · refine ⟨?_, ?_, ?_, ?_, ?_, fun hcache _ => ?_⟩
      · simp
      · intro _
        simp only [hprot, hsame.row]
        omega
      · simp [hlast]
      · intro _
        change s₁.req.seqlen + (if _ then 1 else 0) = s₁.row.length + slots.length + 1
        rw [if_pos hlast, hseq, hsame.row, hlast]
      · simp [hlast, hidx]
      · obtain rfl := hradix hcache
        exact hc.quiet hcache (by simp [hphase])
    · refine ⟨?_, ?_, ?_, ?_, ?_, fun hcache _ => ?_⟩
      · simp
      · simp [hlast]
      · simpa [hlast] using hidx
      · simp [hlast]
      · simp [hlast]
      · obtain rfl := hradix hcache
        exact hc.quiet hcache (by simp [hphase])
  | @cacheUnfinishedReq newIndices A hcache hphase hold hpage hnew hframe =>
    obtain ⟨hevicted, hlog⟩ := hc.quiet hcache hphase
    refine ⟨⟨h.frontier.cached hevicted hlog hold hpage hframe, ?_⟩, le_rfl⟩
    refine ⟨?_, fun _ => hnew, hc.prefill, hc.count, hc.launched, hc.quiet⟩
    have := hc.committed_le
    simp only [length_append, length_take, length_drop]
    omega
  | @processBatchResultPrefill token hphase hflight =>
    have hcount := hc.count (by simp [hphase])
    refine ⟨⟨(h.frontier.mono ?_).congr ⟨rfl, rfl, rfl, rfl, rfl⟩, ?_⟩, le_rfl⟩
    · simp only [tokens, SwaReq.seqlen, length_append, length_singleton]
      omega
    · refine ⟨hc.committed_le, fun _ => hc.protected_le (by simp [hphase]), by simp, fun _ => ?_,
        by simp, by simp⟩
      simp only [SwaReq.seqlen, length_append, length_singleton] at hcount ⊢
      omega
  | @prepareForDecode s₁ slots A hphase hflight hevict halloc hroom =>
    obtain ⟨hfr, hsame, hfirst⟩ := h.decodeCall hphase hevict
    have hprot : s₁.req.cacheProtectedLen = s.req.cacheProtectedLen := by rw [hsame.req]
    have hseq : s₁.req.seqlen = s.req.seqlen := by rw [hsame.req]; rfl
    have hidx : s₁.req.decodeBatchIdx = s.req.decodeBatchIdx := by rw [hsame.req]
    have hcommitted : s₁.req.kvCommittedLen = s.req.kvCommittedLen := by rw [hsame.req]
    have hcount := hc.count hphase
    have hle := hc.protected_le hphase
    have hK : s.req.seqlen ≤ min s₁.req.seqlen (s₁.req.kvCommittedLen + 1) := by
      omega
    refine ⟨⟨((hfr.mono hK).served halloc).congr ⟨rfl, rfl, rfl, rfl, rfl⟩, ?_⟩, hsame.mono⟩
    refine ⟨?_, fun _ => ?_, ?_, fun _ => ?_, ?_, ?_⟩
    · simpa using hroom
    · simp only [hprot, hcommitted]
      omega
    · simp [hsame.phase, hphase]
    · change s₁.req.seqlen + (s₁.inFlight + 1) = s₁.req.kvCommittedLen + 1 + 1
      rw [hsame.inFlight]
      omega
    · intro hl
      have := hc.launched (hsame.phase ▸ hl)
      simp only [hsame.inFlight, hidx]
      omega
    · intro hcache hnot
      have hlaunched : s.phase = .launched := by
        simp only [hsame.phase] at hnot
        cases hp : s.phase <;> simp_all
      -- one batch at most runs, so the last chunk does and this is the first decode batch
      have := hc.launched hlaunched
      have hzero : s.req.decodeBatchIdx = 0 := by
        split at hflight <;> omega
      obtain rfl := hfirst hzero
      exact hc.quiet hcache (by simp [hlaunched])
  | @processBatchResultDecode tokens kept reasoningTokens hphase hflight htokens hkept hrow =>
    have hcount := hc.count (by simp [hphase])
    have hpos : 0 < tokens.length := length_pos_of_ne_nil htokens
    have hprot := hc.protected_le (by simp [hphase])
    have hK : s.tokens ≤ kept := (min_le_right _ _).trans (by omega)
    refine ⟨⟨((h.frontier.take (by omega) hK).mono ?_).congr ⟨rfl, rfl, rfl, rfl, rfl⟩, ?_⟩, le_rfl⟩
    · simp only [SwaLife.tokens, SwaReq.seqlen, length_append]
      omega
    · refine ⟨?_, fun _ => ?_, ?_, fun _ => ?_, ?_, ?_⟩
      · simp only [length_take]
        omega
      · simp only
        omega
      · simp [hphase]
      · simp only [SwaReq.seqlen, length_append] at hcount ⊢
        omega
      · simp [hphase]
      · simp [hphase]
  | @others A hframe =>
    exact ⟨⟨h.frontier.others hframe, ⟨hc.committed_le, hc.protected_le, hc.prefill, hc.count,
      hc.launched, hc.quiet⟩⟩, le_rfl⟩

theorem Reached.inv (h : Reached cfg s) : Inv cfg s := by
  induction h with
  | admitted h => exact h.inv
  | step _ hstep ih => exact (ih.step hstep).1

/-! ## 3. The key of the request ends behind the frontier -/

theorem length_insertKey_tokens (hstrip : ¬ Stripped cfg s.req) :
    (s.req.tokenIds.take (s.req.cacheCommitLen cfg.args)).length = s.tokens := by
  have hcommit : s.req.cacheCommitLen cfg.args = s.req.kvCommittedLen := if_neg hstrip
  simp [hcommit, Req.tokenIds, tokens, SwaReq.seqlen, min_comm]

/-- In both modes the key has all pages of all tokens but one. -/
theorem le_len_insertKey (hstrip : ¬ Stripped cfg s.req) :
    (s.tokens - 1) / cfg.pageSize * cfg.pageSize ≤ (insertKey cfg s.req).len := by
  have hlen := length_insertKey_tokens hstrip
  rw [insertKey, RadixKey.len_pageAligned]
  refine Nat.mul_le_mul_right _ (Nat.div_le_div_right ?_)
  simp only [RadixKey.len, hlen]
  split <;> omega

theorem len_insertKey_le (hstrip : ¬ Stripped cfg s.req) :
    (insertKey cfg s.req).len ≤ s.tokens := by
  have hlen := length_insertKey_tokens hstrip
  rw [insertKey, RadixKey.len_pageAligned]
  refine (Nat.div_mul_le_self _ _).trans ?_
  simp only [RadixKey.len, hlen]
  split <;> omega

/-- **The frontier is strictly before the end of the key.** -/
theorem Inv.lt_insertKey (h : Inv cfg s) (hstrip : ¬ Stripped cfg s.req)
    (hpast : s.req.cacheProtectedLen < s.req.swaEvictedSeqlen) :
    s.req.swaEvictedSeqlen < (insertKey cfg s.req).len := by
  have hp := cfg.pageSize_pos
  have hbehind := h.frontier.behind.resolve_left (Nat.not_le.mpr hpast)
  obtain ⟨n, hn⟩ := h.frontier.evicted_dvd
  have hpages : n + 1 ≤ (s.tokens - 1) / cfg.pageSize := by
    rw [Nat.le_div_iff_mul_le hp, Nat.add_mul, Nat.mul_comm]
    omega
  calc s.req.swaEvictedSeqlen < (n + 1) * cfg.pageSize := by
        rw [hn, Nat.mul_comm]
        exact Nat.mul_lt_mul_of_pos_right (Nat.lt_succ_self n) hp
    _ ≤ (s.tokens - 1) / cfg.pageSize * cfg.pageSize := Nat.mul_le_mul_right _ hpages
    _ ≤ (insertKey cfg s.req).len := le_len_insertKey hstrip

theorem insertValues_eq (hstrip : ¬ Stripped cfg s.req) :
    insertValues cfg s = s.row.take (insertKey cfg s.req).len := by
  have hcommit : s.req.cacheCommitLen cfg.args = s.req.kvCommittedLen := if_neg hstrip
  have hle : (insertKey cfg s.req).len ≤ s.req.kvCommittedLen :=
    (len_insertKey_le hstrip).trans (min_le_right _ _)
  rw [insertValues, hcommit, take_take, min_eq_left hle]

theorem Inv.length_insertValues (h : Inv cfg s) (hstrip : ¬ Stripped cfg s.req) :
    (insertValues cfg s).length = (insertKey cfg s.req).len := by
  rw [insertValues_eq hstrip, length_take, min_eq_left]
  exact (len_insertKey_le hstrip).trans ((min_le_right _ _).trans h.counts.committed_le)

/-- The nodes of a live leaf: none is a tombstone or empty, and together they hold the slots. -/
structure Live (value : List ℕ) (nodes : List SuffixNode) : Prop where
  nonempty : nodes ≠ []
  live : ∀ n ∈ nodes, n.swaTombstone = false ∧ n.value ≠ []
  values : nodes.flatMap SuffixNode.value = value

theorem live_leaf {key : RadixKey} {value : List ℕ} (hvalue : value ≠ []) :
    Live value (if cfg.splitLeafOnInsert then splitLeafForSwaLock cfg ⟨key, value, false⟩
      else [⟨key, value, false⟩]) := by
  have hone : Live value [⟨key, value, false⟩] := ⟨by simp, by simpa using hvalue, by simp⟩
  split
  · unfold splitLeafForSwaLock
    simp only
    split
    · exact hone
    · rename_i hsplit
      push Not at hsplit
      refine ⟨by simp, fun n hn => ?_, by simp⟩
      rcases mem_pair.mp hn with rfl | rfl
      · refine ⟨rfl, ?_⟩
        simp only [ne_eq, take_eq_nil_iff, not_or]
        exact ⟨hsplit.2.2.1, hvalue⟩
      · refine ⟨rfl, ?_⟩
        simp only [ne_eq, drop_eq_nil_iff]
        omega
  · exact hone

theorem insertSuffix_of_le (cfg : SwaConfig) {total : ℕ} {key : RadixKey} {value : List ℕ}
    (hlen : value.length = key.len) (hkey : 0 < key.len) (hle : evicted ≤ total) :
    ∃ leaf, insertSuffix cfg evicted total key value = ([], leaf) ∧ Live value leaf := by
  have hvalue : value ≠ [] := ne_nil_of_length_pos (by omega)
  unfold insertSuffix
  rw [if_neg (by omega), if_neg (by omega), if_neg (by omega)]
  exact ⟨_, rfl, live_leaf hvalue⟩

/-- **A suffix that the frontier cuts** becomes a tombstone and a live leaf. -/
theorem insertSuffix_of_lt (cfg : SwaConfig) {total : ℕ} {key : RadixKey} {value : List ℕ}
    (hlen : value.length = key.len) (hlt : total < evicted) (hend : evicted < total + key.len) :
    ∃ tombstone leaf, insertSuffix cfg evicted total key value = ([], tombstone :: leaf) ∧
      tombstone.swaTombstone = true ∧ tombstone.value = value.take (evicted - total) ∧
      Live (value.drop (evicted - total)) leaf := by
  have hvalue : value.drop (evicted - total) ≠ [] := by
    rw [ne_eq, drop_eq_nil_iff]
    omega
  unfold insertSuffix
  rw [if_neg (by omega), if_neg (by omega), if_pos ⟨hlt, hend⟩]
  exact ⟨_, _, rfl, rfl, rfl, live_leaf hvalue⟩

/-! ## 4. The guarantee -/

/-- What window eviction keeps to at one moment of the life of a request. -/
structure WindowSafe (cfg : SwaConfig) (s : SwaLife) : Prop where
  /-- The frontier is at a page. -/
  aligned : cfg.pageSize ∣ s.req.swaEvictedSeqlen
  /-- It never goes back. -/
  monotone : ∀ s', Step cfg s s' → s.req.swaEvictedSeqlen ≤ s'.req.swaEvictedSeqlen
  /-- The calls the scheduler makes meet their assertion. -/
  returns : (∃ s', maybeEvictSwaDecode cfg s = some s') ∧
    ∃ s', maybeEvictSwaExtend cfg s s.row.length = some s'
  /-- No position is freed twice. -/
  once : (s.evictions.flatMap SwaEviction.positions).Nodup
  /-- The slots that a call can free are distinct, and none has lost its window slot. -/
  slots : (s.row.drop s.base).Nodup ∧ ∀ x ∈ s.row.drop s.base, Held s.allocator x
  /-- What a call freed is behind the protected part and before the window. -/
  window : ∀ e ∈ s.evictions, ∀ i ∈ e.positions,
    e.protectedLen ≤ i ∧ (i : ℤ) < e.preLen - cfg.slidingWindowSize
  /-- The key that the request inserts ends behind the frontier. -/
  boundary : ¬ Stripped cfg s.req → s.req.cacheProtectedLen < s.req.swaEvictedSeqlen →
    s.req.swaEvictedSeqlen < (insertKey cfg s.req).len
  /-- A suffix that starts before the frontier is inserted as a tombstone and a live leaf with the
  slots that still have a window slot; the tombstone's have none. -/
  split : ¬ Stripped cfg s.req → s.req.cacheProtectedLen < s.req.swaEvictedSeqlen →
    ∀ total < s.req.swaEvictedSeqlen,
      ∃ tombstone leaf,
        insertSuffix cfg s.req.swaEvictedSeqlen total ((insertKey cfg s.req).dropTo total)
          ((insertValues cfg s).drop total) = ([], tombstone :: leaf) ∧
        tombstone.swaTombstone = true ∧
        (s.req.cacheProtectedLen ≤ total →
          ∀ x ∈ tombstone.value, swaSlot? s.allocator x = some 0) ∧
        (∃ value, Live value leaf ∧ ∀ x ∈ value, Held s.allocator x)
  /-- One that starts behind it is live as a whole. -/
  whole : ¬ Stripped cfg s.req → ∀ total, s.base ≤ total → total < (insertKey cfg s.req).len →
    ∃ leaf value,
      insertSuffix cfg s.req.swaEvictedSeqlen total ((insertKey cfg s.req).dropTo total)
        ((insertValues cfg s).drop total) = ([], leaf) ∧
      Live value leaf ∧ ∀ x ∈ value, Held s.allocator x
  /-- When the tree frees slots that `_evict_swa` has been through, no window slot is freed. -/
  noDoubleFree : ∀ slots : List ℕ,
    (∀ x ∈ slots, ∃ e ∈ s.evictions, ∃ i ∈ e.positions, s.row[i]? = some x) →
      ∃ A, s.allocator.freeSwa slots = some A ∧
        A.swaAttnAllocator = s.allocator.swaAttnAllocator

theorem Frontier.returns (h : Frontier cfg K s) :
    (∃ s', maybeEvictSwaDecode cfg s = some s') ∧
      ∃ s', maybeEvictSwaExtend cfg s s.row.length = some s' := by
  have hcall : ∀ preLen, ∃ s', SwaLife.evictSwa cfg s preLen = some s' := fun preLen =>
    let ⟨s', heq, _⟩ := evictSwa_spec h.protected_dvd h.covered preLen
    ⟨s', heq⟩
  constructor
  · unfold maybeEvictSwaDecode
    split
    · exact hcall _
    · exact ⟨s, rfl⟩
  · unfold maybeEvictSwaExtend
    split
    · split
      · split
        · exact ⟨s, rfl⟩
        · exact hcall _
      · exact hcall _
    · exact ⟨s, rfl⟩

theorem mem_positions {e : SwaEviction} {i : ℕ} :
    i ∈ e.positions ↔ e.start ≤ i ∧ i < e.stop := by
  simp only [SwaEviction.positions, mem_range'_1]
  omega

theorem Frontier.nodup_positions (h : Frontier cfg K s) :
    (s.evictions.flatMap SwaEviction.positions).Nodup := by
  rw [nodup_flatMap]
  refine ⟨fun e _ => nodup_range' .., ?_⟩
  refine h.ordered.imp fun {e e'} hle i hi hi' => ?_
  have := mem_positions.mp hi
  have := mem_positions.mp hi'
  omega

/-- The slots behind the frontier still have a window slot. -/
theorem Frontier.held_take_drop (h : Frontier cfg K s) {m n : ℕ} (hm : s.base ≤ m) :
    ∀ x ∈ (s.row.take n).drop m, Held s.allocator x := by
  intro x hx
  refine h.held x ?_
  rw [drop_take] at hx
  have hdd : s.row.drop m = (s.row.drop s.base).drop (m - s.base) := by
    rw [drop_drop]
    congr 1
    omega
  have hmem := mem_of_mem_take hx
  rw [hdd] at hmem
  exact mem_of_mem_drop hmem

/-- **Along the whole life of a request** window eviction is safe. -/
theorem Reached.windowSafe (h : Reached cfg s) : WindowSafe cfg s := by
  have hinv := h.inv
  have hfr := hinv.frontier
  have hsuffix (hstrip : ¬ Stripped cfg s.req) (total : ℕ) :
      ((insertValues cfg s).drop total).length = ((insertKey cfg s.req).dropTo total).len := by
    rw [length_drop, RadixKey.len_dropTo, hinv.length_insertValues hstrip]
  refine ⟨hfr.evicted_dvd, fun s' hstep => (hinv.step hstep).2, hfr.returns, hfr.nodup_positions,
    ⟨hfr.nodup.sublist (drop_sublist_drop_left _ s.protected_le_base), hfr.held⟩,
    fun e he i hi => ?_, hinv.lt_insertKey, fun hstrip hpast total hlt => ?_,
    fun hstrip total hbase hlt => ?_, fun slots hslots => ?_⟩
  · have hok := hfr.log e he
    have hpos := mem_positions.mp hi
    have := hok.protectedLen_le
    have := hok.window
    omega
  · have hend := hinv.lt_insertKey hstrip hpast
    obtain ⟨tombstone, leaf, heq, htomb, hvalue, hlive⟩ := insertSuffix_of_lt cfg
      (hsuffix hstrip total) hlt (by rw [RadixKey.len_dropTo]; omega)
    refine ⟨tombstone, leaf, heq, htomb, fun hprot x hx => ?_, _, hlive, fun x hx => ?_⟩
    · rw [hvalue, insertValues_eq hstrip] at hx
      obtain ⟨i, hi, hget⟩ := mem_iff_getElem.mp hx
      simp only [length_take, length_drop] at hi
      obtain ⟨y, hy, hslot⟩ := hfr.gone (total + i) (by omega) (by omega)
      rw [getElem_take, getElem_drop, getElem_take] at hget
      rw [List.getElem?_eq_some_iff] at hy
      obtain ⟨_, rfl⟩ := hy
      rw [← hget]
      exact hslot
    · rw [drop_drop, insertValues_eq hstrip] at hx
      refine hfr.held_take_drop ?_ x hx
      simp only [base]
      omega
  · have hle : s.req.swaEvictedSeqlen ≤ total := (le_max_left _ _).trans hbase
    obtain ⟨leaf, heq, hlive⟩ := insertSuffix_of_le cfg (hsuffix hstrip total)
      (by rw [RadixKey.len_dropTo]; omega) hle
    refine ⟨leaf, _, heq, hlive, fun x hx => ?_⟩
    rw [insertValues_eq hstrip] at hx
    exact hfr.held_take_drop hbase x hx
  · refine freeSwa_dead fun x hx => ?_
    obtain ⟨e, he, i, hi, hrow⟩ := hslots x hx
    have hok := hfr.log e he
    have hpos := mem_positions.mp hi
    obtain ⟨y, hy, hslot⟩ := hfr.gone i (hok.protected_le.trans hpos.1) (hpos.2.trans_le hok.stop_le)
    rw [hrow] at hy
    cases hy
    exact hslot

/-! ## 5. A request that is stripped

Pages of one slot, a window of one token, and a speculative decoder that accepts five tokens. -/

/-- The configuration, with `strip_thinking_cache` or without. -/
def exampleConfig (strip : Bool) : SwaConfig where
  pageSize := 1
  slidingWindowSize := 1
  windowMultiple := 2
  isEagle := false
  isChunkCache := false
  enableOverlap := false
  chunkedPrefillSize := 0
  args := ⟨true, strip⟩
  splitLeafOnInsert := false
  pageSize_pos := Nat.one_pos

/-- An allocator whose slot `i` has the `i`-th entry of `mapping`, with free window slots. -/
def exampleAllocator (mapping : List ℤ) (freePages : List ℕ) : SWATokenToKVPoolAllocator :=
  ⟨1, ⟨8, 1, false, [8], [], true, []⟩, ⟨8, 1, false, freePages, [], true, []⟩, mapping, true, []⟩

/-- A request of one token. -/
def exampleReq : SwaReq where
  originInputIds := [7]
  outputIds := []
  fillIds := [7]
  extraKey := none
  priority := none
  skipRadixCacheInsert := false
  returnLogprob := false
  logprobStartLen := -1
  positionalEmbedOverrides := false
  inputEmbeds := false
  reasoningTokens := 0
  isChunked := 0
  reqPoolIdx := some 1
  prefixIndices := []
  lastNode := none
  cacheProtectedLen := 0
  kvCommittedLen := 0
  kvAllocatedLen := 0
  kvCommittedFreed := false
  kvOverallocatedFreed := false
  swaEvictedSeqlen := 0
  extendBatchIdx := 0
  decodeBatchIdx := 0

/-- It is admitted. -/
def exampleAdmitted : SwaLife :=
  ⟨exampleReq, [], exampleAllocator [0, 0, 0, 0, 0, 0, 0, 0, 0, -1] [1, 2, 3, 4, 5, 6, 7, 8],
    .prefill, 0, []⟩

/-- Its prompt is computed and cached, a decode batch has run and five tokens have come. -/
def exampleDecoded : SwaLife :=
  ⟨{ exampleReq with
      outputIds := [8, 9, 10, 11, 12, 13]
      reasoningTokens := 1
      cacheProtectedLen := 1
      kvCommittedLen := 6
      kvAllocatedLen := 6
      extendBatchIdx := 1
      decodeBatchIdx := 1 },
    [1, 2, 3, 4, 5, 6], exampleAllocator [0, 1, 2, 3, 4, 5, 6, 0, 0, -1] [7, 8], .decode, 0, []⟩

/-- The next decode batch evicts. -/
def exampleEvicted : SwaLife :=
  { exampleDecoded with
    req := { exampleDecoded.req with swaEvictedSeqlen := 4 }
    allocator := exampleAllocator [0, 1, 0, 0, 0, 5, 6, 0, 0, -1] [7, 8, 2, 3, 4]
    evictions := [⟨6, 1, 1, 4⟩] }

/-- And it gets its slot. -/
def exampleLaunched : SwaLife :=
  { exampleEvicted with
    req := { exampleEvicted.req with kvCommittedLen := 7, kvAllocatedLen := 7, decodeBatchIdx := 2 }
    row := [1, 2, 3, 4, 5, 6, 7]
    allocator := exampleAllocator [0, 1, 0, 0, 0, 5, 6, 7, 0, -1] [8, 2, 3, 4]
    inFlight := 1 }

theorem reached_exampleDecoded (strip : Bool) : Reached (exampleConfig strip) exampleDecoded := by
  have h0 : Reached (exampleConfig strip) exampleAdmitted :=
    .admitted ⟨rfl, rfl, rfl, rfl, rfl, rfl, rfl, one_dvd 0, by simp [exampleConfig], Nat.one_pos⟩
  have h1 := h0.step (@Step.prepareForExtend _ _ exampleAdmitted [1]
    (exampleAllocator [0, 1, 0, 0, 0, 0, 0, 0, 0, -1] [2, 3, 4, 5, 6, 7, 8]) rfl
    (cons_ne_nil 1 []) le_rfl rfl
    ⟨by simp, by simp [exampleAdmitted], by simp [Held, swaSlot?, exampleAllocator],
      by simp [exampleAdmitted]⟩)
  have h2 := h1.step (@Step.cacheUnfinishedReq _ _ [1]
    (exampleAllocator [0, 1, 0, 0, 0, 0, 0, 0, 0, -1] [2, 3, 4, 5, 6, 7, 8]) rfl (by decide)
    (Nat.zero_le 1) (one_dvd 1) le_rfl (by simp [exampleAdmitted]))
  have h3 := h2.step (@Step.processBatchResultPrefill _ _ 8 rfl Nat.one_pos)
  have h4 := h3.step (@Step.prepareForDecode _ _ _ [2, 3, 4, 5, 6]
    (exampleAllocator [0, 1, 2, 3, 4, 5, 6, 0, 0, -1] [7, 8]) (by decide) (Nat.zero_le 0) rfl
    ⟨by decide, by decide, by simp [Held, swaSlot?, exampleAllocator], by decide⟩ (by decide))
  exact h4.step (@Step.processBatchResultDecode _ _ [9, 10, 11, 12, 13] 6 1 rfl Nat.one_pos (cons_ne_nil _ _) le_rfl le_rfl)

theorem reached_exampleLaunched (strip : Bool) : Reached (exampleConfig strip) exampleLaunched := by
  have hevict : maybeEvictSwaDecode (exampleConfig strip) exampleDecoded = some exampleEvicted := by
    cases strip <;> rfl
  exact (reached_exampleDecoded strip).step (@Step.prepareForDecode _ _ _ [7]
    (exampleAllocator [0, 1, 0, 0, 0, 5, 6, 7, 0, -1] [8, 2, 3, 4]) (by decide)
    (Nat.zero_le 0) hevict
    ⟨by decide, by decide, by simp [Held, swaSlot?, exampleAllocator], by decide⟩ (by decide))

/-- **With `strip_thinking_cache` the frontier passes the end of the key.** -/
theorem stripped_frontier_past_key :
    ∃ (cfg : SwaConfig) (s : SwaLife), Reached cfg s ∧
      s.req.cacheProtectedLen < s.req.swaEvictedSeqlen ∧
      ¬ s.req.swaEvictedSeqlen < (insertKey cfg s.req).len :=
  ⟨exampleConfig true, exampleLaunched, reached_exampleLaunched true, by decide, by decide⟩

theorem windowSafe_exampleLaunched :
    exampleLaunched.evictions ≠ [] ∧ WindowSafe (exampleConfig false) exampleLaunched :=
  ⟨cons_ne_nil _ _, (reached_exampleLaunched false).windowSafe⟩

end SwaLife

end Sglang
