/-
# Histories of `RadixCache` and of `UnifiedRadixCache` with the full component alone

A session is a cache with the nodes its matches have returned.  Two sessions that see the same calls
mirror each other, and the only call that one of them refuses is a `dec_lock_ref` of a node without a
reference: the unified cache asserts that there is one.
-/
import Sglang.Lib.Transcript
import Sglang.MemCache.FullAgreement
import Sglang.MemCache.LockAccounting

namespace Sglang

open Lib UnifiedRadixCache List

variable {σ : Type} {cfg : CacheConfig} {ucfg : UnifiedConfig σ}

/-! ## 1. Calls -/

/-- What an insertion is given: a slot for every unit of the key that is stored, and tokens that can be
hashed where events are on. -/
structure InsertCall (cfg : CacheConfig) (σ : Type) extends InsertParams σ where
  priority : ℤ
  mode : RadixCache.ModeOk cfg key
  fits : (RadixCache.normKey cfg key).len ≤ value.length
  hashable : cfg.enableKvCacheEvents = true → key.Hashable

/-- The calls; the lock calls are about the `i`-th node that a match has returned. -/
inductive CacheCall (cfg : CacheConfig) (σ : Type)
  | insert (call : InsertCall cfg σ)
  | matchPrefix (params : MatchPrefixParams σ) (mode : RadixCache.ModeOk cfg params.key)
  | incLockRef (i : ℕ)
  | decLockRef (i : ℕ) (params : Option DecLockRefParams)

/-- What a call returns. -/
inductive CacheAnswer (σ : Type)
  | prefixLen (n : ℕ)
  | deviceIndices (l : List σ)
  | done
deriving DecidableEq

/-- The answer of a call and the sizes after it. -/
structure SizeReport (σ : Type) where
  answer : CacheAnswer σ
  evictableSize : ℤ
  protectedSize : ℤ
deriving DecidableEq

/-! ## 2. Sessions -/

/-- A `RadixCache` with the nodes it has returned. -/
structure RadixSession (σ : Type) where
  cache : RadixCache σ
  returned : List NodeId

/-- A `UnifiedRadixCache` with the nodes it has returned. -/
structure UnifiedSession (σ : Type) where
  cache : UnifiedRadixCache σ
  returned : List NodeId

def RadixSession.report (s : RadixSession σ) (answer : CacheAnswer σ) :
    SizeReport σ × RadixSession σ :=
  (⟨answer, s.cache.evictableSize, s.cache.protectedSize⟩, s)

/-- `evictable_size` and `protected_size` are those of the full component. -/
def UnifiedSession.report (s : UnifiedSession σ) (answer : CacheAnswer σ) :
    SizeReport σ × UnifiedSession σ :=
  (⟨answer, s.cache.evictableSize .full, s.cache.protectedSize .full⟩, s)

/-- One call to `RadixCache`. -/
def RadixSession.step (s : RadixSession σ) :
    CacheCall cfg σ → Option (SizeReport σ × RadixSession σ)
  | .insert call => do
    let (n, c) ← s.cache.insert cfg call.key call.value call.priority call.chunked
    return RadixSession.report { s with cache := c } (.prefixLen n)
  | .matchPrefix params _ => do
    let (r, c) ← s.cache.matchPrefix cfg params.key
    return RadixSession.report ⟨c, s.returned ++ [r.lastDeviceNode]⟩ (.deviceIndices r.deviceIndices)
  | .incLockRef i => do
    let (c, _) ← s.cache.incLockRef (← s.returned[i]?)
    return RadixSession.report { s with cache := c } .done
  | .decLockRef i _ => do
    let (c, _) ← s.cache.decLockRef (← s.returned[i]?)
    return RadixSession.report { s with cache := c } .done

/-- One call to `UnifiedRadixCache`. -/
def UnifiedSession.step (ucfg : UnifiedConfig σ) (s : UnifiedSession σ) :
    CacheCall cfg σ → Option (SizeReport σ × UnifiedSession σ)
  | .insert call => do
    let (r, u) ← s.cache.insert ucfg call.toInsertParams
    return UnifiedSession.report { s with cache := u } (.prefixLen r.prefixLen)
  | .matchPrefix params _ => do
    let (r, _, u) ← s.cache.matchPrefix ucfg params
    return UnifiedSession.report ⟨u, s.returned ++ [r.lastDeviceNode]⟩
      (.deviceIndices r.deviceIndices)
  | .incLockRef i => do
    let (_, u) ← s.cache.incLockRef ucfg (← s.returned[i]?)
    return UnifiedSession.report { s with cache := u } .done
  | .decLockRef i params => do
    let u ← s.cache.decLockRef ucfg (← s.returned[i]?) params
    return UnifiedSession.report { s with cache := u } .done

/-- What `RadixCache` reports of a history. -/
def radixReports (calls : List (CacheCall cfg σ)) : Option (List (SizeReport σ)) :=
  transcript RadixSession.step ⟨RadixCache.init cfg, []⟩ calls

/-- What `UnifiedRadixCache` reports of a history. -/
def unifiedReports (ucfg : UnifiedConfig σ) (calls : List (CacheCall cfg σ)) :
    Option (List (SizeReport σ)) :=
  transcript (UnifiedSession.step ucfg) ⟨UnifiedRadixCache.init ucfg, []⟩ calls

/-- How many nodes have been returned and which of them are held: a lock names one that was returned,
and a `dec_lock_ref` gives a lock back. -/
def holdLedger : ℕ × List ℕ → CacheCall cfg σ → Option (ℕ × List ℕ)
  | (n, held), .insert _ => some (n, held)
  | (n, held), .matchPrefix _ _ => some (n + 1, held)
  | (n, held), .incLockRef i => if i < n then some (n, i :: held) else none
  | (n, held), .decLockRef i _ => if i ∈ held then some (n, held.erase i) else none

/-- Every `dec_lock_ref` gives back a lock that was taken. -/
def KeepsLocks (calls : List (CacheCall cfg σ)) : Prop := (calls.foldlM holdLedger (0, [])).isSome

instance (calls : List (CacheCall cfg σ)) : Decidable (KeepsLocks calls) :=
  inferInstanceAs (Decidable (_ = true))

/-! ## 3. Sessions in step -/

/-- Two sessions that have seen the same calls. -/
structure InStep (cfg : CacheConfig) (t : RootedTree NodeId) (s : RadixSession σ)
    (S : UnifiedSession σ) : Prop where
  base : RadixCache.Base cfg t s.cache
  mirrors : Mirrors s.cache S.cache
  returned : s.returned = S.returned
  mem : ∀ n ∈ s.returned, n ∈ t.nodes

/-- The held nodes are those that `RadixCache` has references from. -/
structure HeldBy (cfg : CacheConfig) (t : RootedTree NodeId) (s : RadixSession σ) (L : ℕ × List ℕ) :
    Prop where
  length : s.returned.length = L.1
  lt : ∀ i ∈ L.2, i < L.1
  inv : RadixCache.Inv cfg t (L.2.map (s.returned.getD · 0)) s.cache

/-- Both sessions do the call: they give the same answer and stay in step, and the locks stay held if
the call keeps the ledger. -/
def Agrees (cfg : CacheConfig) (ucfg : UnifiedConfig σ) (t : RootedTree NodeId)
    (s : RadixSession σ) (S : UnifiedSession σ) (call : CacheCall cfg σ) : Prop :=
  ∃ t' s' S' a, s.step call = some (s'.report a) ∧ S.step ucfg call = some (S'.report a) ∧
    InStep cfg t' s' S' ∧ ∀ L L', HeldBy cfg t s L → holdLedger L call = some L' → HeldBy cfg t' s' L'

/-- The unified cache fails an assertion, and the ledger refuses the call, too. -/
def Refuses (cfg : CacheConfig) (ucfg : UnifiedConfig σ) (t : RootedTree NodeId)
    (s : RadixSession σ) (S : UnifiedSession σ) (call : CacheCall cfg σ) : Prop :=
  S.step ucfg call = none ∧ ∀ L, HeldBy cfg t s L → holdLedger L call = none

namespace InStep

variable {t : RootedTree NodeId} {s : RadixSession σ} {S : UnifiedSession σ}
  (h : InStep cfg t s S)

include h

theorem report (a : CacheAnswer σ) : S.report a = ((s.report a).1, S) := by
  have he : S.cache.evictableSize .full = s.cache.evictableSize :=
    congrArg TreeView.evictableSize h.mirrors.shows.view
  have hp : S.cache.protectedSize .full = s.cache.protectedSize :=
    congrArg TreeView.protectedSize h.mirrors.shows.view
  rw [UnifiedSession.report, RadixSession.report, he, hp]

theorem step_insert (hc : FullOnly cfg ucfg) (call : InsertCall cfg σ) :
    Agrees cfg ucfg t s S (.insert call) := by
  obtain ⟨j, vs, t₁, c₁, node, t', c', heq, hreach, hgrow⟩ :=
    RadixCache.insert_spec h.base call.mode call.fits call.hashable call.priority call.chunked
  obtain ⟨b, u', hu', hmirrors⟩ := h.mirrors.insert hc call.toInsertParams call.fits heq
  refine ⟨t', { s with cache := c' }, { S with cache := u' }, .prefixLen (cfg.pageSize * j),
    by simp [RadixSession.step, heq], by simp [UnifiedSession.step, hu'], ?_, ?_⟩
  · exact ⟨hgrow.base (hreach.reshape.base h.base), hmirrors, h.returned,
      fun n hn => hgrow.nodes_subset (hreach.reshape.nodes_subset (h.mem n hn))⟩
  · intro L L' hL hledger
    cases hledger
    exact ⟨hL.length, hL.lt, hgrow.inv (hreach.reshape.inv hL.inv)⟩

theorem step_matchPrefix (hc : FullOnly cfg ucfg) (params : MatchPrefixParams σ)
    (mode : RadixCache.ModeOk cfg params.key) : Agrees cfg ucfg t s S (.matchPrefix params mode) := by
  obtain ⟨vs, node, t', c', u', heq, hu', hre, hmem, hmirrors⟩ :=
    h.mirrors.matchPrefix hc h.base params mode
  refine ⟨t', ⟨c', s.returned ++ [node]⟩, ⟨u', S.returned ++ [node]⟩, .deviceIndices vs,
    by simp [RadixSession.step, heq], by simp [UnifiedSession.step, hu'], ?_, ?_⟩
  · refine ⟨hre.base h.base, hmirrors, by rw [h.returned], fun n hn => ?_⟩
    rcases mem_append.mp hn with hn | hn
    · exact hre.nodes_subset (h.mem n hn)
    · exact mem_singleton.mp hn ▸ hmem
  · rintro ⟨n, held⟩ L' hL hledger
    cases hledger
    refine ⟨by rw [length_append, hL.length]; rfl, fun i hi => (hL.lt i hi).trans n.lt_succ_self,
      ?_⟩
    have hsame : held.map ((s.returned ++ [node]).getD · 0) = held.map (s.returned.getD · 0) := by
      refine map_congr_left fun i hi => ?_
      have hlt : i < s.returned.length := hL.length ▸ hL.lt i hi
      rw [getD_eq_getElem?_getD, getElem?_append_left hlt, ← getD_eq_getElem?_getD]
    rw [hsame]
    exact hre.inv hL.inv

theorem step_incLockRef (hc : FullOnly cfg ucfg) (i : ℕ) :
    Agrees cfg ucfg t s S (.incLockRef i) ∨ Refuses cfg ucfg t s S (.incLockRef i) := by
  rcases hi : s.returned[i]? with _ | n
  · refine .inr ⟨by simp [UnifiedSession.step, ← h.returned, hi], fun L hL => ?_⟩
    refine if_neg fun hlt => ?_
    rw [List.getElem?_eq_none_iff, hL.length] at hi
    omega
  · have hn := h.mem n (mem_of_getElem? hi)
    obtain ⟨c', d, r, u', hinc, hu', hmirrors⟩ := h.mirrors.incLockRef hc h.base hn
    obtain ⟨c₁, d₁, hc₁, -, hb'⟩ := RadixCache.incLockRef_base h.base hn
    cases hinc.symm.trans hc₁
    refine .inl ⟨t, { s with cache := c' }, { S with cache := u' }, .done,
      by simp [RadixSession.step, hi, hinc],
      by simp [UnifiedSession.step, ← h.returned, hi, hu'], ⟨hb', hmirrors, h.returned, h.mem⟩, ?_⟩
    rintro ⟨k, held⟩ L' hL hledger
    obtain ⟨c₂, d₂, hc₂, -, hinv⟩ := RadixCache.incLockRef_inv hL.inv hn
    cases hinc.symm.trans hc₂
    simp only [holdLedger, Option.ite_none_right_eq_some] at hledger
    obtain ⟨hlt, hL'⟩ := hledger
    cases hL'
    refine ⟨hL.length, fun m hm => ?_, ?_⟩
    · rcases mem_cons.mp hm with rfl | hm
      · exact hlt
      · exact hL.lt m hm
    · rw [map_cons, getD_eq_getElem?_getD, hi]
      exact hinv

theorem step_decLockRef (hc : FullOnly cfg ucfg) (i : ℕ) (params : Option DecLockRefParams) :
    Agrees cfg ucfg t s S (.decLockRef i params) ∨ Refuses cfg ucfg t s S (.decLockRef i params) := by
  rcases hi : s.returned[i]? with _ | n
  · refine .inr ⟨by simp [UnifiedSession.step, ← h.returned, hi], fun L hL => ?_⟩
    refine if_neg fun hheld => ?_
    have hlt := hL.lt i hheld
    rw [List.getElem?_eq_none_iff, hL.length] at hi
    omega
  · have hn := h.mem n (mem_of_getElem? hi)
    have hnode : s.returned.getD i 0 = n := by
      rw [getD_eq_getElem?_getD, hi]
      rfl
    obtain ⟨c', d, hdec, hsim, hpos⟩ := h.mirrors.decLockRef hc h.base hn params
    obtain ⟨c₁, d₁, hc₁, -, hb'⟩ := RadixCache.decLockRef_base h.base hn
    cases hdec.symm.trans hc₁
    have hheld : ∀ {L : ℕ × List ℕ}, HeldBy cfg t s L → i ∈ L.2 →
        n ∈ L.2.map (s.returned.getD · 0) := fun hL hi => mem_map.mpr ⟨i, hi, hnode⟩
    rcases hu : S.cache.decLockRef ucfg n params with _ | u'
    · refine .inr ⟨by simp [UnifiedSession.step, ← h.returned, hi, hu],
        fun L hL => if_neg fun hl => ?_⟩
      obtain ⟨u', hu'⟩ := hpos (hL.inv.locked (hheld hL hl))
      cases hu.symm.trans hu'
    · refine .inl ⟨t, { s with cache := c' }, { S with cache := u' }, .done,
        by simp [RadixSession.step, hi, hdec],
        by simp [UnifiedSession.step, ← h.returned, hi, hu], ⟨hb', hsim u' hu, h.returned, h.mem⟩,
          ?_⟩
      rintro ⟨k, held⟩ L' hL hledger
      simp only [holdLedger, Option.ite_none_right_eq_some] at hledger
      obtain ⟨hmem, hL'⟩ := hledger
      cases hL'
      obtain ⟨c₂, d₂, hc₂, -, hinv⟩ := RadixCache.decLockRef_inv hL.inv (hheld hL hmem)
      cases hdec.symm.trans hc₂
      refine ⟨hL.length, fun m hm => hL.lt m (mem_of_mem_erase hm), hinv.perm ?_⟩
      -- one occurrence of the index goes, and with it one occurrence of its node
      have hperm := ((perm_cons_erase hmem).map (s.returned.getD · 0)).erase n
      rwa [map_cons, hnode, erase_cons_head] at hperm

/-- **One call**: both sessions do it and agree, or the unified cache refuses it and the ledger does,
too. -/
theorem step (hc : FullOnly cfg ucfg) (call : CacheCall cfg σ) :
    Agrees cfg ucfg t s S call ∨ Refuses cfg ucfg t s S call := by
  cases call with
  | insert call => exact .inl (h.step_insert hc call)
  | matchPrefix params mode => exact .inl (h.step_matchPrefix hc params mode)
  | incLockRef i => exact h.step_incLockRef hc i
  | decLockRef i params => exact h.step_decLockRef hc i params

end InStep

/-! ## 4. Every history -/

/-- **`UnifiedRadixCache` with the full component alone agrees with `RadixCache`**: the reports of every
history it gets through are those of `RadixCache`, and it gets through every history in which each
`dec_lock_ref` gives back a lock. -/
theorem unifiedReports_agree (hc : FullOnly cfg ucfg) (calls : List (CacheCall cfg σ)) :
    (∀ rs, unifiedReports ucfg calls = some rs → radixReports calls = some rs) ∧
      (KeepsLocks calls → ∃ rs, unifiedReports ucfg calls = some rs ∧
        radixReports calls = some rs) := by
  obtain ⟨t, hinv⟩ : ∃ t, RadixCache.Inv cfg t [] (RadixCache.init cfg : RadixCache σ) :=
    ⟨_, RadixCache.reset_inv cfg _⟩
  have hstart : InStep cfg t ⟨RadixCache.init cfg, []⟩
      (⟨UnifiedRadixCache.init ucfg, []⟩ : UnifiedSession σ) :=
    ⟨hinv.toBase, Mirrors.init hc, rfl, fun n hn => absurd hn not_mem_nil⟩
  have hagree : ∀ rs, unifiedReports ucfg calls = some rs → radixReports calls = some rs := by
    intro rs
    refine transcript_of_follows (fun s S => ∃ t, InStep cfg t s S) ?_ calls ⟨_, hstart⟩
    rintro s S call r S₁ ⟨t, h⟩ hstep
    rcases h.step hc call with ⟨t', s', S', a, hs, hS, h', -⟩ | ⟨hnone, -⟩
    · rw [h'.report a] at hS
      cases hstep.symm.trans hS
      exact ⟨s', hs, t', h'⟩
    · cases hstep.symm.trans hnone
  refine ⟨hagree, fun hkeeps => ?_⟩
  have hprogress : ∀ L (S : UnifiedSession σ) (call : CacheCall cfg σ) L',
      (∃ t s, InStep cfg t s S ∧ HeldBy cfg t s L) → holdLedger L call = some L' →
      ∃ r S', S.step ucfg call = some (r, S') ∧ ∃ t s, InStep cfg t s S' ∧ HeldBy cfg t s L' := by
    rintro L S call L' ⟨t, s, h, hL⟩ hcall
    rcases h.step hc call with ⟨t', s', S', a, -, hS, h', hheld⟩ | ⟨-, hnone⟩
    · exact ⟨_, _, hS, t', s', h', hheld L L' hL hcall⟩
    · cases hcall.symm.trans (hnone L hL)
  have hheld : HeldBy cfg t ⟨RadixCache.init cfg, []⟩ (0, []) :=
    ⟨rfl, fun i hi => absurd hi not_mem_nil, hinv⟩
  obtain ⟨rs, hrs⟩ := exists_transcript _ hprogress calls ⟨_, _, hstart, hheld⟩ hkeeps
  exact ⟨rs, hrs, hagree rs hrs⟩

/-- Pages of two, the full component, no host tier. -/
def smallUnified : UnifiedConfig ℕ where
  pageSize := 2
  isEagle := false
  treeComponents := [.full]
  slidingWindowSize := 0
  mambaCacheChunkSize := 0
  cacheController := none
  translateLocFromFullToSwa := fun _ slot => slot
  deviceAvailableSize := fun _ => 0
  hostAvailableSize := fun _ => 0
  allocDevice := fun _ _ _ => none
  allocHost := fun _ _ _ => none
  tieBreak := fun _ => 0
  pageSize_pos := Nat.two_pos
  full_mem := mem_cons_self
  nodup := nodup_singleton _

/-- An insertion of plain tokens. -/
def plainInsert (tokens : List Token) (value : List ℕ)
    (fits : (RadixCache.normKey (RadixCache.smallConfig false) ⟨tokens, none, false⟩).len
      ≤ value.length) : CacheCall (RadixCache.smallConfig false) ℕ :=
  .insert ⟨⟨⟨tokens, none, false⟩, value, none, 0, 0, false⟩, 0, fun h => absurd h Bool.false_ne_true,
    fits, fun h => absurd h Bool.false_ne_true⟩

/-- A match of plain tokens. -/
def plainMatch (tokens : List Token) : CacheCall (RadixCache.smallConfig false) ℕ :=
  .matchPrefix ⟨⟨tokens, none, false⟩, false, none⟩ fun h => absurd h Bool.false_ne_true

/-- Five tokens, of which two pages are stored; a match of one page cuts the leaf, and a second key
leaves it there while the first page is locked. -/
def cutUnderLock : List (CacheCall (RadixCache.smallConfig false) ℕ) :=
  [plainInsert [1, 2, 3, 4, 5] [10, 11, 12, 13, 14] (by decide), plainMatch [1, 2, 3], .incLockRef 0,
    plainInsert [1, 2, 7, 8] [20, 21, 22, 23] (by decide), plainMatch [1, 2, 7, 8], .incLockRef 1,
    .decLockRef 0 none, plainMatch [1], .decLockRef 1 none]

theorem unifiedReports_agree_cutUnderLock :
    FullOnly (RadixCache.smallConfig false) smallUnified ∧ KeepsLocks cutUnderLock ∧
      ∃ rs, unifiedReports smallUnified cutUnderLock = some rs ∧
        radixReports cutUnderLock = some rs :=
  ⟨⟨rfl, rfl, rfl, rfl⟩, by decide +kernel,
    (unifiedReports_agree ⟨rfl, rfl, rfl, rfl⟩ cutUnderLock).2 (by decide +kernel)⟩

/-- A returned node is released before it was locked. -/
def releaseFirst : List (CacheCall (RadixCache.smallConfig false) ℕ) :=
  [plainInsert [1, 2] [10, 11] (by decide), plainMatch [1, 2], .decLockRef 0 none, .incLockRef 0]

/-- The unified cache asserts that there is a reference; `RadixCache` counts down to minus one, and the
lock that follows protects nothing. -/
theorem unifiedReports_releaseFirst :
    unifiedReports smallUnified releaseFirst = none ∧
      radixReports releaseFirst = some [⟨.prefixLen 0, 2, 0⟩, ⟨.deviceIndices [10, 11], 2, 0⟩,
        ⟨.done, 2, 0⟩, ⟨.done, 2, 0⟩] := by
  decide +kernel

/-! ## 5. What the caches are for -/

/-- What a cache has to know: the slots of every page it was given. -/
abbrev CachedPages (σ : Type) := PrefixMap (Option String) (List Atom) (List σ)

variable {M : CachedPages σ}

/-- A call on the map of the cached pages: its answer, and the map after it. -/
def CacheCall.onMap (M : CachedPages σ) : CacheCall cfg σ → CacheAnswer σ × CachedPages σ
  | .insert call =>
    let pgs := untagged (RadixCache.pages cfg call.key)
    (.prefixLen (cfg.pageSize * M.longest call.key.extraKey pgs),
      M.insert call.key.extraKey pgs (RadixCache.pageOf cfg call.value))
  | .matchPrefix params _ =>
    (.deviceIndices
      (M.lookup params.key.extraKey (untagged (RadixCache.pages cfg params.key))).flatten, M)
  | .incLockRef _ => (.done, M)
  | .decLockRef _ _ => (.done, M)

/-- The answers of the map to a history. -/
def mapAnswers : CachedPages σ → List (CacheCall cfg σ) → List (CacheAnswer σ)
  | _, [] => []
  | M, call :: calls => (call.onMap M).1 :: mapAnswers (call.onMap M).2 calls

/-- **One call**: `RadixCache` answers what the map answers, and refines it afterwards. -/
theorem InStep.refines {t : RootedTree NodeId} {s s' : RadixSession σ} {S : UnifiedSession σ}
    {r : SizeReport σ} (h : InStep cfg t s S) (hM : RadixCache.Refines cfg M s.cache)
    {call : CacheCall cfg σ} (hstep : s.step call = some (r, s')) :
    r.answer = (call.onMap M).1 ∧ RadixCache.Refines cfg (call.onMap M).2 s'.cache := by
  cases call with
  | insert call =>
    obtain ⟨t', c', heq, -, hM'⟩ := RadixCache.insert_refines h.base hM call.mode call.fits
      call.hashable call.priority call.chunked
    simp only [RadixSession.step, heq] at hstep
    cases hstep
    exact ⟨rfl, hM'⟩
  | matchPrefix params mode =>
    obtain ⟨t', c', m, heq, hm, -, hM'⟩ := RadixCache.matchPrefix_refines h.base hM mode
    simp only [RadixSession.step, heq] at hstep
    cases hstep
    exact ⟨congrArg CacheAnswer.deviceIndices hm, hM'⟩
  | incLockRef i =>
    simp only [RadixSession.step, Option.bind_eq_bind, Option.bind_eq_some_iff] at hstep
    obtain ⟨n, hn, ⟨c', d⟩, hlock, hstep⟩ := hstep
    obtain ⟨_, _, heq, hre, -⟩ :=
      RadixCache.incLockRef_base h.base (h.mem n (mem_of_getElem? hn))
    cases heq.symm.trans hlock
    cases hstep
    exact ⟨rfl, hre.refines hM⟩
  | decLockRef i params =>
    simp only [RadixSession.step, Option.bind_eq_bind, Option.bind_eq_some_iff] at hstep
    obtain ⟨n, hn, ⟨c', d⟩, hlock, hstep⟩ := hstep
    obtain ⟨_, _, heq, hre, -⟩ :=
      RadixCache.decLockRef_base h.base (h.mem n (mem_of_getElem? hn))
    cases heq.symm.trans hlock
    cases hstep
    exact ⟨rfl, hre.refines hM⟩

theorem InStep.answers (hc : FullOnly cfg ucfg) (calls : List (CacheCall cfg σ)) :
    ∀ {t : RootedTree NodeId} {s : RadixSession σ} {S : UnifiedSession σ} {M : CachedPages σ}
      {rs : List (SizeReport σ)}, InStep cfg t s S → RadixCache.Refines cfg M s.cache →
      transcript (UnifiedSession.step ucfg) S calls = some rs →
      rs.map SizeReport.answer = mapAnswers M calls := by
  induction calls with
  | nil =>
    intro t s S M rs _ _ h
    cases h
    rfl
  | cons call calls ih =>
    intro t s S M rs h hM hrs
    simp only [transcript, Option.bind_eq_bind, Option.bind_eq_some_iff] at hrs
    obtain ⟨⟨r, S₁⟩, hstep, rest, hrest, hrs⟩ := hrs
    rcases h.step hc call with ⟨t', s', S', a, hs, hS, h', -⟩ | ⟨hnone, -⟩
    · rw [h'.report a] at hS
      cases hstep.symm.trans hS
      cases hrs
      obtain ⟨ha, hM'⟩ := h.refines hM hs
      exact congrArg₂ cons ha (ih h' hM' hrest)
    · cases hstep.symm.trans hnone

/-- **`UnifiedRadixCache` with the full component alone implements the map of the cached pages**: it
gives the answers of the map in every history it gets through. -/
theorem unifiedReports_answers (hc : FullOnly cfg ucfg) (calls : List (CacheCall cfg σ))
    {rs : List (SizeReport σ)} (h : unifiedReports ucfg calls = some rs) :
    rs.map SizeReport.answer = mapAnswers .empty calls := by
  have hstart : InStep cfg _ ⟨RadixCache.init cfg, []⟩ ⟨UnifiedRadixCache.init ucfg, []⟩ :=
    ⟨(RadixCache.reset_inv cfg _).toBase, Mirrors.init hc, rfl, fun n hn => absurd hn not_mem_nil⟩
  exact InStep.answers hc calls hstart (RadixCache.Run.reset _).refines.2 h

theorem unifiedReports_answers_cutUnderLock : ∃ rs,
    unifiedReports smallUnified cutUnderLock = some rs ∧
      rs.map SizeReport.answer = mapAnswers .empty cutUnderLock := by
  have h : (unifiedReports smallUnified cutUnderLock).isSome = true := by decide +kernel
  exact ⟨_, (Option.some_get h).symm,
    unifiedReports_answers ⟨rfl, rfl, rfl, rfl⟩ cutUnderLock (Option.some_get h).symm⟩

end Sglang
