/-
# The event mirror of the device tier

A router keeps a multiset of block hashes and updates it with the events it receives: one hash in
for a `BlockStored`, one out for a `BlockRemoved`, none left after an `AllBlocksCleared`
(`replay`).  With events on, what it holds is at every moment the multiset of the hashes of the
pages in the tree.

The events speak of pages and the tree of nodes, and between the announcement of a page and its
removal the node that holds it may have been cut any number of times.  The sum over the nodes of
their hashes does not see the cuts (`total_subdivide`), a new leaf adds what it announces and a
leaf that goes takes back what it holds, whoever announced it.
-/
import Sglang.MemCache.Refinement

namespace Sglang

open Lib List Option RootedTree

/-! ## 1. Replaying -/

/-- What a consumer does with one event. -/
def replayStep (held : Multiset ℤ) : KVCacheEvent → Multiset ℤ
  | .blockStored hs _ _ _ _ _ => held + hs
  | .blockRemoved hs _ => held - hs
  | .allBlocksCleared => 0

/-- What a consumer holds after a list of events. -/
def replay (held : Multiset ℤ) (es : List KVCacheEvent) : Multiset ℤ := es.foldl replayStep held

theorem replay_append (held : Multiset ℤ) (es es' : List KVCacheEvent) :
    replay held (es ++ es') = replay (replay held es) es' := foldl_append

/-- The announcements of a leaf add its hashes. -/
theorem replay_storedBlocks (medium : StorageMedium) : ∀ (pgs : List (List Atom))
    (hs : List Digest) (parent : Option ℤ) (held : Multiset ℤ), hs.length = pgs.length →
    replay held (storedBlocks medium parent pgs hs) = held + (hs.map hashStrToInt64 : Multiset ℤ)
  | [], [], _, held, _ => by simp [storedBlocks, replay]
  | pg :: pgs, h :: hs, parent, held, hlen => by
    have ih := replay_storedBlocks medium pgs hs (some (hashStrToInt64 h))
      (held + ([hashStrToInt64 h] : Multiset ℤ)) (by simpa using hlen)
    rw [storedBlocks, replay, foldl_cons, ← replay, replayStep, ih, add_assoc]
    rfl

theorem replay_removed (medium : StorageMedium) (hs : List Digest) (held : Multiset ℤ) :
    replay held (hs.map fun h => .blockRemoved [hashStrToInt64 h] medium)
      = held - (hs.map hashStrToInt64 : Multiset ℤ) := by
  induction hs generalizing held with
  | nil => simp [replay]
  | cons h hs ih =>
    rw [map_cons, replay, foldl_cons, ← replay, replayStep, ih, tsub_tsub]
    rfl

namespace RadixCache

variable {σ : Type}

/-- The hashes of a node as the events name them. -/
def blocks (c : RadixCache σ) (n : NodeId) : Multiset ℤ := (c.hashes n).map hashStrToInt64

/-- **The consumer holds the hashes of the nodes of the tree.** -/
def Mirrors (t : RootedTree NodeId) (c : RadixCache σ) (held : Multiset ℤ) : Prop :=
  held = t.total c.blocks

/-! ## 2. What the steps announce -/

section Steps

variable {cfg : CacheConfig} {t t' : RootedTree NodeId} {c c' : RadixCache σ} {n p v : NodeId}
  {j : ℕ} {key : RadixKey} {value : List σ} {taken : List KVCacheEvent}

theorem Reshape.mirrors (h : Reshape cfg t c t' c') {held : Multiset ℤ}
    (hm : Mirrors t c held) : Mirrors t' c' held := by
  induction h with
  | refl => exact hm
  | touch _ ha ih =>
    rw [ih]
    refine total_congr fun m _ _ => ?_
    rw [blocks, blocks, hashes, hashes, ha.hashValue]
  | @split t₁ c₁ c₂ n v j _ hs ih =>
    rw [ih]
    refine (total_subdivide (fun k hk _ hkn => ?_) ?_).symm
    · rw [blocks, blocks, hashes, hashes, hs.hashValue_old k hk hkn]
    · rw [blocks, blocks, blocks, hashes, hashes, hashes, hs.hashValue_new, hs.hashValue_self]
      cases (c₁.nodes n).hashValue with
      | none => rfl
      | some l =>
        simp

theorem Reshape.kvEventQueue (h : Reshape cfg t c t' c') : c'.kvEventQueue = c.kvEventQueue := by
  induction h with
  | refl => rfl
  | touch _ ha ih => exact ha.kvEventQueue.trans ih
  | split _ hs ih => exact hs.kvEventQueue.trans ih

theorem Attaches.mirrors (h : Attaches cfg t c p v key value c')
    (hon : cfg.enableKvCacheEvents = true)
    (hm : Mirrors t c (replay 0 (taken ++ c.kvEventQueue))) :
    Mirrors h.tree c' (replay 0 (taken ++ c'.kvEventQueue)) := by
  obtain ⟨hs, hhs, hchain, hqueue⟩ := h.stored hon
  have hlen := length_chain hchain
  rw [Mirrors, hqueue, ← append_assoc, replay_append, replay_storedBlocks _ _ _ _ _ hlen,
    IsAttach.tree, total_attach (f := c.blocks) (g := c'.blocks), add_comm]
  · congr 1
    rw [blocks, hashes, hhs]
    rfl
  · intro k hk _
    rw [blocks, hashes, h.hashValue_old k hk, blocks, hashes]

theorem Detaches.mirrors (h : Detaches cfg t c n c') (hon : cfg.enableKvCacheEvents = true)
    (hh : Hashed cfg t c) (hm : Mirrors t c (replay 0 (taken ++ c.kvEventQueue))) :
    Mirrors h.tree c' (replay 0 (taken ++ c'.kvEventQueue)) := by
  have hqueue := h.removed hon _ (hh.some_hash n h.mem)
  have htotal : c.blocks n + (t.detach n h.ne_root h.leaf).total c'.blocks = t.total c.blocks :=
    total_detach h.mem (fun k _ _ _ => by rw [blocks, hashes, h.hashValue, blocks, hashes])
  rw [Mirrors, hqueue, ← append_assoc, replay_append, replay_removed, hm, ← htotal,
    IsDetach.tree, blocks, add_tsub_cancel_left]

theorem Grows.mirrors {node : NodeId} {rest : List RadixKey.TaggedPage}
    (h : Grows cfg t c node rest value t' c') (hon : cfg.enableKvCacheEvents = true)
    (hm : Mirrors t c (replay 0 (taken ++ c.kvEventQueue))) :
    Mirrors t' c' (replay 0 (taken ++ c'.kvEventQueue)) := by
  cases h with
  | done _ => exact hm
  | leaf _ _ _ _ hat => exact hat.mirrors hon hm

theorem Evicts.mirrors {freed : List (List σ)} (h : Evicts cfg t c t' c' freed)
    (hb : Base cfg t c) (hon : cfg.enableKvCacheEvents = true)
    (hm : Mirrors t c (replay 0 (taken ++ c.kvEventQueue))) :
    Mirrors t' c' (replay 0 (taken ++ c'.kvEventQueue)) := by
  induction h with
  | refl => exact hm
  | step h hd _ _ ih => exact hd.mirrors hon ((h.base hb).hashed hon) ih

theorem Relocks.mirrors {d : ℤ} (h : Relocks t n d c c')
    (hm : Mirrors t c (replay 0 (taken ++ c.kvEventQueue))) :
    Mirrors t c' (replay 0 (taken ++ c'.kvEventQueue)) := by
  rw [h.kvEventQueue, hm]
  refine total_congr fun m _ _ => ?_
  rw [blocks, blocks, hashes, hashes, h.hashValue]

theorem reset_mirrors (hon : cfg.enableKvCacheEvents = true) (c : RadixCache σ)
    (taken : List KVCacheEvent) :
    Mirrors (rootTree c.counter) (c.reset cfg)
      (replay 0 (taken ++ (c.reset cfg).kvEventQueue)) := by
  have hqueue : (c.reset cfg).kvEventQueue = c.kvEventQueue ++ [.allBlocksCleared] := by
    simp [reset, recordAllClearedEvent, newTreeNode, hon]
  rw [Mirrors, hqueue, RootedTree.total]
  simp [replay, replayStep, rootTree]

end Steps

/-! ## 3. Links between pages -/

/-- The event announces the page at position `i` of a path with pages `w` and hashes `hs`, and
names the page before it, or nothing at the start. -/
def Announces (medium : StorageMedium) (w : List (List Atom)) (hs : List Digest) (i : ℕ)
    (e : KVCacheEvent) : Prop :=
  ∃ pg h, w[i]? = some pg ∧ hs[i]? = some h ∧
    e = .blockStored [hashStrToInt64 h]
      (if i = 0 then none else (hs[i - 1]?).map hashStrToInt64) pg pg.length none medium

/-- The events of a leaf announce the pages behind the path of its parent. -/
theorem storedBlocks_announces (medium : StorageMedium) : ∀ (pgs w : List (List Atom))
    (ds hs : List Digest), ds.length = w.length → hs.length = pgs.length →
    ∀ e ∈ storedBlocks medium ((lastOr none ds).map hashStrToInt64) pgs hs,
      ∃ i, w.length ≤ i ∧ Announces medium (w ++ pgs) (ds ++ hs) i e
  | [], _, _, _, _, _, e, he => by simp [storedBlocks] at he
  | _ :: _, _, _, [], _, h2, _, _ => by simp at h2
  | pg :: pgs, w, ds, h :: hs, h1, h2, e, he => by
    rw [storedBlocks, mem_cons] at he
    rcases he with rfl | he
    · refine ⟨w.length, le_rfl, pg, h, by simp, by rw [← h1]; simp, ?_⟩
      congr 1
      cases ds using List.reverseRecOn with
      | nil => simp [← h1]
      | append_singleton ds d =>
        rw [length_append] at h1
        rw [← h1]
        simp [lastOr]
    · have hlast : some (hashStrToInt64 h) = (lastOr none (ds ++ [h])).map hashStrToInt64 := by
        simp [lastOr]
      rw [hlast] at he
      obtain ⟨i, hi, hann⟩ := storedBlocks_announces medium pgs (w ++ [pg]) (ds ++ [h]) hs
        (by simp [h1]) (by simpa using h2) e he
      rw [append_assoc, append_assoc] at hann
      rw [length_append] at hi
      exact ⟨i, by omega, hann⟩

/-- The event announces a page of a path of the tree. -/
def AnnouncesPage (cfg : CacheConfig) (c : RadixCache σ) (e : KVCacheEvent) : Prop :=
  ∃ n w vs ds i, Spells cfg c n w vs ∧
    chain (pageHash cfg.sha256) none (untagged w) = some ds ∧ Announces .gpu (untagged w) ds i e

section Links

variable {cfg : CacheConfig} {t t' : RootedTree NodeId} {c c' : RadixCache σ} {n : NodeId}
  {value : List σ}

theorem Grows.announces {node : NodeId} {rest : List RadixKey.TaggedPage}
    (h : Grows cfg t c node rest value t' c') (hb : Base cfg t c)
    (hon : cfg.enableKvCacheEvents = true) :
    ∃ es, c'.kvEventQueue = c.kvEventQueue ++ es ∧ ∀ e ∈ es, AnnouncesPage cfg c' e := by
  cases h with
  | done _ => exact ⟨[], by simp, by simp⟩
  | @leaf v key _ _ _ hlen _ hat =>
    obtain ⟨hs, hhs, hchain, hqueue⟩ := hat.stored hon
    have hhashed := hb.hashed hon
    have hb' := hat.base hlen hb
    have hv : v ∈ hat.tree.nodes := Finset.mem_insert_self _ _
    have hword := hat.word_new
    have hold : ∀ m ∈ t.nodes, c'.hashes m = c.hashes m := by
      intro m hm
      rw [hashes, hat.hashValue_old m hm, hashes]
    have hhv : hat.tree.word c'.hashes v = t.word c.hashes node ++ hs := by
      rw [IsAttach.tree, word_attach_new hold, hashes, hhs]
      rfl
    have hcv := (hb'.hashed hon).chain_word v hv
    refine ⟨_, hqueue, fun e he => ?_⟩
    rw [hhashed.priorBlock_eq hb.represents hat.mem] at he
    obtain ⟨i, -, hann⟩ := storedBlocks_announces .gpu _ (untagged (t.word (c.label cfg) node))
      (t.word c.hashes node) hs (length_chain (hhashed.chain_word node hat.mem))
      (length_chain hchain) e he
    refine ⟨v, _, _, _, i, hb'.represents.spells_iff.mpr ⟨hv, rfl, rfl⟩, hcv, ?_⟩
    rw [hword, hhv, untagged_append]
    exact hann

theorem Evicts.events {freed : List (List σ)} (h : Evicts cfg t c t' c' freed)
    (hb : Base cfg t c) (hon : cfg.enableKvCacheEvents = true) :
    ∃ es, c'.kvEventQueue = c.kvEventQueue ++ es ∧
      ∀ e ∈ es, ∃ hs medium, e = .blockRemoved hs medium := by
  induction h with
  | refl => exact ⟨[], by simp, by simp⟩
  | @step t₁ c₁ c₂ freed x value h hd _ _ ih =>
    obtain ⟨es, hes, hrem⟩ := ih
    have hqueue := hd.removed hon _ (((h.base hb).hashed hon).some_hash x hd.mem)
    refine ⟨es ++ _, by rw [hqueue, hes, append_assoc], fun e he => ?_⟩
    rcases mem_append.mp he with he | he
    · exact hrem e he
    · obtain ⟨d, -, rfl⟩ := mem_map.mp he
      exact ⟨_, _, rfl⟩

end Links

/-! ## 4. The mirror -/

/-- One call of a method. -/
inductive EventStep (cfg : CacheConfig) : RadixCache σ → RadixCache σ → Prop
  | insert {c c' : RadixCache σ} {key : RadixKey} {value : List σ} {priority : ℤ} {chunked : Bool}
      {r : ℕ} : ModeOk cfg key → (normKey cfg key).len ≤ value.length → key.Hashable →
    c.insert cfg key value priority chunked = some (r, c') → EventStep cfg c c'
  | matchPrefix {c c' : RadixCache σ} {key : RadixKey} {r : MatchResult σ} :
    ModeOk cfg key → c.matchPrefix cfg key = some (r, c') → EventStep cfg c c'
  | incLockRef {c c' : RadixCache σ} {n : NodeId} {delta : ℤ} :
    InTree cfg c n → c.incLockRef n = some (c', delta) → EventStep cfg c c'
  | decLockRef {c c' : RadixCache σ} {n : NodeId} {delta : ℤ} :
    InTree cfg c n → c.decLockRef n = some (c', delta) → EventStep cfg c c'
  | evict {c c' : RadixCache σ} {numTokens r : ℕ} {freed : List (List σ)} :
    c.evict cfg numTokens = some (r, freed, c') → EventStep cfg c c'
  | reset {c : RadixCache σ} : EventStep cfg c (c.reset cfg)

/-- A run of the cache together with the events that were taken from it so far. -/
inductive EventRun (cfg : CacheConfig) : List KVCacheEvent → RadixCache σ → Prop
  | init : EventRun cfg [] (init cfg)
  | step {taken : List KVCacheEvent} {c c' : RadixCache σ} :
    EventRun cfg taken c → EventStep cfg c c' → EventRun cfg taken c'
  | takeEvents {taken : List KVCacheEvent} {c : RadixCache σ} :
    EventRun cfg taken c → EventRun cfg (taken ++ (c.takeEvents cfg).1) (c.takeEvents cfg).2

section Mirror

variable {cfg : CacheConfig} {t : RootedTree NodeId} {c c' : RadixCache σ}
  {taken : List KVCacheEvent}

/-- One call keeps the mirror, and every page it announces is a page of the tree it leaves. -/
theorem EventStep.mirrors (h : EventStep cfg c c') (hon : cfg.enableKvCacheEvents = true)
    (hb : Base cfg t c) :
    ∃ t' es, Base cfg t' c' ∧ c'.kvEventQueue = c.kvEventQueue ++ es ∧
      (∀ e ∈ es, ∀ hs parent toks size lora medium,
        e = .blockStored hs parent toks size lora medium → AnnouncesPage cfg c' e) ∧
      ∀ taken, Mirrors t c (replay 0 (taken ++ c.kvEventQueue)) →
        Mirrors t' c' (replay 0 (taken ++ c'.kvEventQueue)) := by
  cases h with
  | insert hmode hlen hhash heq =>
    obtain ⟨j, vs, t₁, c₁, node, t', c'', heq', hreach, hg⟩ :=
      insert_spec hb hmode hlen (fun _ => hhash) _ _
    rw [heq'] at heq
    cases heq
    have hb₁ := hreach.reshape.base hb
    have hq := hreach.reshape.kvEventQueue
    obtain ⟨es, hes, hann⟩ := hg.announces hb₁ hon
    refine ⟨t', es, hg.base hb₁, by rw [hes, hq], fun e he _ _ _ _ _ _ _ => hann e he, ?_⟩
    intro taken hm
    rw [← hq] at hm
    exact hg.mirrors hon (hreach.reshape.mirrors hm)
  | matchPrefix hmode heq =>
    obtain ⟨j, vs, t', c'', node, heq', hreach⟩ := matchPrefix_spec hb hmode
    rw [heq'] at heq
    cases heq
    have hq := hreach.reshape.kvEventQueue
    refine ⟨t', [], hreach.reshape.base hb, by simp [hq], by simp, fun taken hm => ?_⟩
    rw [← hq] at hm
    exact hreach.reshape.mirrors hm
  | incLockRef hin heq =>
    obtain ⟨c'', delta, heq', hre, hb'⟩ := incLockRef_base hb (hb.represents.inTree_iff.mp hin)
    rw [heq'] at heq
    cases heq
    exact ⟨t, [], hb', by simp [hre.kvEventQueue], by simp, fun taken hm => hre.mirrors hm⟩
  | decLockRef hin heq =>
    obtain ⟨c'', delta, heq', hre, hb'⟩ := decLockRef_base hb (hb.represents.inTree_iff.mp hin)
    rw [heq'] at heq
    cases heq
    exact ⟨t, [], hb', by simp [hre.kvEventQueue], by simp, fun taken hm => hre.mirrors hm⟩
  | evict heq =>
    obtain ⟨t', c'', freed, heq', hev, -⟩ := evict_spec hb _
    rw [heq'] at heq
    cases heq
    obtain ⟨es, hes, hrem⟩ := hev.events hb hon
    refine ⟨t', es, hev.base hb, hes, ?_, fun taken hm => hev.mirrors hb hon hm⟩
    intro e he hs parent toks size lora medium heq
    obtain ⟨hs', medium', rfl⟩ := hrem e he
    cases heq
  | reset =>
    refine ⟨_, [.allBlocksCleared], (reset_inv cfg c).toBase, ?_, ?_,
      fun taken _ => reset_mirrors hon c taken⟩
    · simp [RadixCache.reset, recordAllClearedEvent, newTreeNode, hon]
    · intro e he hs parent toks size lora medium heq
      rw [mem_singleton.mp he] at heq
      cases heq

theorem EventRun.mirrors (h : EventRun cfg taken c) (hon : cfg.enableKvCacheEvents = true) :
    ∃ t, Base cfg t c ∧ Mirrors t c (replay 0 (taken ++ c.kvEventQueue)) := by
  induction h with
  | init => exact ⟨_, (reset_inv cfg _).toBase, reset_mirrors hon _ []⟩
  | step _ hs ih =>
    obtain ⟨t, hb, hm⟩ := ih
    obtain ⟨t', es, hb', -, -, hm'⟩ := hs.mirrors hon hb
    exact ⟨t', hb', hm' _ hm⟩
  | @takeEvents taken c _ ih =>
    obtain ⟨t, hb, hm⟩ := ih
    have htake : c.takeEvents cfg = (c.kvEventQueue, { c with kvEventQueue := [] }) := by
      rw [RadixCache.takeEvents, if_pos hon]
    rw [htake]
    refine ⟨t, ?_, by rw [append_nil]; exact hm⟩
    exact ⟨hb.represents.of_sameLinks ⟨rfl, rfl, fun _ => rfl, fun _ => rfl, fun _ => rfl⟩,
      hb.filled, ⟨hb.leaves.nodup, hb.leaves.mem_iff, hb.leaves.root_lockRef⟩, hb.root_value,
      hb.root_lockRef, fun hon => ⟨(hb.hashed hon).root_key, (hb.hashed hon).some_hash,
        (hb.hashed hon).chain_word⟩⟩

/-- **The event mirror.**  With events on, along every run of insertions, matches, lock operations,
evictions and resets: what a consumer holds after the events that were taken and those that are
queued is the multiset of the hashes of the nodes below the root; these are, node by node, the
chained hashes of the pages on the path from the root; every `BlockStored` that a call emits
announces a page of the tree and names the hash of the page before it on its path; and the calls
return. -/
theorem kvEvents_mirror_tree (h : EventRun cfg taken c) (hon : cfg.enableKvCacheEvents = true) :
    (∃ nodes : Finset NodeId, (∀ n, n ∈ nodes ↔ InTree cfg c n ∧ n ≠ c.rootNode) ∧
      replay 0 (taken ++ c.kvEventQueue) = ∑ n ∈ nodes, c.blocks n) ∧
    (∀ n w vs, n ≠ c.rootNode → Spells cfg c n w vs →
      ∃ ds, chain (pageHash cfg.sha256) none (untagged w) = some ds ∧
        (c.nodes n).hashValue = some (ds.drop (w.length - (c.label cfg n).length))) ∧
    (∀ c', EventStep cfg c c' → ∃ es, c'.kvEventQueue = c.kvEventQueue ++ es ∧
      ∀ e ∈ es, ∀ hs parent toks size lora medium,
        e = .blockStored hs parent toks size lora medium → AnnouncesPage cfg c' e) ∧
    (∀ key value priority chunked, ModeOk cfg key → (normKey cfg key).len ≤ value.length →
      key.Hashable → (c.insert cfg key value priority chunked).isSome) ∧
    (∀ key, ModeOk cfg key → (c.matchPrefix cfg key).isSome) ∧
    (∀ n, InTree cfg c n → (c.incLockRef n).isSome ∧ (c.decLockRef n).isSome) ∧
    ∀ numTokens, (c.evict cfg numTokens).isSome := by
  obtain ⟨t, hb, hm⟩ := h.mirrors hon
  have hrep := hb.represents
  have hh := hb.hashed hon
  refine ⟨⟨t.nodes.erase t.root, fun n => ?_, hm⟩, ?_, ?_, ?_, ?_, ?_, ?_⟩
  · rw [Finset.mem_erase, hrep.inTree_iff, hrep.root_eq, and_comm]
  · intro n w vs hr hsp
    obtain ⟨hn, rfl, rfl⟩ := hrep.spells_iff.mp hsp
    rw [hrep.root_eq] at hr
    refine ⟨_, hh.chain_word n hn, ?_⟩
    have hlen := length_chain (hh.chain_word _ (t.parent_mem hn hr))
    rw [untagged, length_map] at hlen
    rw [hh.some_hash n hn, word_cons hn hr, word_cons hn hr,
      length_append, Nat.add_sub_cancel, ← hlen, drop_left]
  · intro c' hs
    obtain ⟨-, es, -, hes, hann, -⟩ := hs.mirrors hon hb
    exact ⟨es, hes, hann⟩
  · intro key value priority chunked hmode hlen hhash
    obtain ⟨_, _, _, _, _, _, _, heq, -⟩ :=
      insert_spec hb hmode hlen (fun _ => hhash) priority chunked
    rw [heq]; rfl
  · intro key hmode
    obtain ⟨_, _, _, _, _, heq, -⟩ := matchPrefix_spec hb hmode
    rw [heq]; rfl
  · intro n hin
    have hn := hrep.inTree_iff.mp hin
    obtain ⟨_, _, h1, -⟩ := incLockRef_base hb hn
    obtain ⟨_, _, h2, -⟩ := decLockRef_base hb hn
    rw [h1, h2]
    exact ⟨rfl, rfl⟩
  · intro numTokens
    obtain ⟨_, _, _, heq, -⟩ := evict_spec hb numTokens
    rw [heq]; rfl

/-- The state after one insertion with events on, for the run below. -/
def smallAnnounce : Option (ℕ × RadixCache ℕ) :=
  (init (smallConfig true)).insert (smallConfig true) ⟨[1, 2, 3, 4], none, false⟩
    [10, 11, 12, 13] 0 false

theorem smallAnnounce_isSome : smallAnnounce.isSome = true := by decide +kernel

/-- The theorem on a run: two pages were announced, and both are held. -/
theorem kvEvents_mirror_tree_small :
    ∃ c : RadixCache ℕ, EventRun (smallConfig true) [] c ∧
      (replay 0 c.kvEventQueue).card = 2 ∧
      ∃ nodes : Finset NodeId,
        (∀ n, n ∈ nodes ↔ InTree (smallConfig true) c n ∧ n ≠ c.rootNode) ∧
        replay 0 c.kvEventQueue = ∑ n ∈ nodes, c.blocks n := by
  have heq : (init (smallConfig true)).insert (smallConfig true) ⟨[1, 2, 3, 4], none, false⟩
      [10, 11, 12, 13] 0 false = some (smallAnnounce.get smallAnnounce_isSome) :=
    (some_get smallAnnounce_isSome).symm
  have hrun : EventRun (smallConfig true) [] (smallAnnounce.get smallAnnounce_isSome).2 :=
    .step .init (.insert (by nofun) (by decide +kernel)
      (by unfold RadixKey.Hashable; decide) heq)
  exact ⟨_, hrun, by decide +kernel, (kvEvents_mirror_tree hrun rfl).1⟩

end Mirror

end RadixCache

end Sglang
