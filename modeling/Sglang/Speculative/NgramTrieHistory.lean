/-
# Runs of the n-gram trie

Insertions and resets in any order.  An insertion is a sequence of two kinds of edits, the eviction of the
last node and the placing of a window (`Edits`); the log of a run lists them, and what is in the trie is
what the log says was inserted and not evicted since.
-/
import Sglang.Speculative.NgramTrieInvariant

namespace Sglang

open Lib Lib.AssocList List Option

namespace Trie

variable {t t' t'' : Trie} {c p q cursor : ℕ} {token : ℤ} {path : List ℕ} {u v w : List ℤ}

/-! ## 1. The path of a window -/

theorem Frame.trans (h : Frame t t') (h' : Frame t' t'') : Frame t t'' :=
  ⟨h'.root.trans h.root, h'.capacity.trans h.capacity, h'.maxTrieDepth.trans h.maxTrieDepth,
    h'.trieEpoch.trans h.trieEpoch⟩

theorem Inv.mem_of_find (h : Inv t) (hw : w ≠ []) (hf : t.find t.root w = some c) :
    c ∈ t.globalLru := by
  obtain ⟨u, token, rfl⟩ := (eq_nil_or_concat' w).resolve_left hw
  rw [find_concat, bind_eq_some_iff] at hf
  obtain ⟨q, hq, hl⟩ := hf
  exact (h.child_of_lookup (h.live_of_find u _ (Or.inl rfl) hq) hl).1

/-- Where the loop of `insert` stands: at the node of `u`, with the nodes on the way there. -/
structure At (t : Trie) (cursor : ℕ) (path : List ℕ) (u : List ℤ) : Prop where
  found : t.find t.root u = some cursor
  spare : cursor ∈ t.globalLru → t.childFreq cursor + 1 ≤ (t.nodes cursor).freq
  isPath : IsPath (fun p => (t.nodes p).parent) t.root path
  last : (t.root :: path).getLast (cons_ne_nil _ _) = cursor
  nodup : path.Nodup
  shorter : ∀ c ∈ path, ∃ v, v ≠ [] ∧ v.length ≤ u.length ∧ t.find t.root v = some c

theorem At.live (ha : At t cursor path u) (h : Inv t) : t.Live cursor :=
  h.live_of_find u _ (Or.inl rfl) ha.found

theorem At.step (ha : At t cursor path u) (h' : Inv t') (hroot : t'.root = t.root) {node : ℕ}
    (hmono : ∀ v q, t.find t.root v = some q → t'.find t.root v = some q)
    (hparent : ∀ c ∈ path, (t'.nodes c).parent = (t.nodes c).parent)
    (hnode : t'.find t.root (u ++ [token]) = some node) (hp : (t'.nodes node).parent = cursor)
    (hspare : t'.childFreq node + 1 ≤ (t'.nodes node).freq) :
    At t' node (path ++ [node]) (u ++ [token]) := by
  have hshort : ∀ c ∈ path, ∃ v, v ≠ [] ∧ v.length ≤ u.length ∧ t'.find t.root v = some c := by
    intro c hc
    obtain ⟨v, h1, h2, h3⟩ := ha.shorter c hc
    exact ⟨v, h1, h2, hmono v c h3⟩
  refine ⟨?_, fun _ => hspare, ?_, ?_, ?_, fun c hc => ?_⟩
  · rw [hroot]
    exact hnode
  · rw [hroot]
    refine (ha.isPath.congr hparent).concat ?_
    rw [hp, ha.last]
  · simp
  · refine nodup_append.mpr ⟨ha.nodup, nodup_singleton _, fun a hm b hb => ?_⟩
    obtain rfl := mem_singleton.mp hb
    rintro rfl
    obtain ⟨v, -, hv, hf⟩ := hshort a hm
    rw [← hroot] at hf hnode
    have := congrArg List.length (h'.find_inj v _ a hf hnode)
    rw [length_append, length_singleton] at this
    omega
  · rw [hroot, length_append]
    rcases mem_append.mp hc with hc | hc
    · obtain ⟨v, h1, h2, h3⟩ := hshort c hc
      exact ⟨v, h1, by omega, h3⟩
    · obtain rfl := mem_singleton.mp hc
      exact ⟨u ++ [token], by simp, by simp, hnode⟩

/-- What placing the tokens of a window does to the trie. -/
structure Places (t : Trie) (w : List ℤ) (t' : Trie) : Prop where
  frame : Frame t t'
  version : ∀ p, (t'.nodes p).version = (t.nodes p).version
  mono : ∀ v q, t.find t.root v = some q → t'.find t.root v = some q
  find_of : ∀ v q, t'.find t.root v = some q → t.find t.root v = some q ∨ v <+: w
  found : ∃ q, t'.find t.root w = some q

theorem Places.isSome_iff (h : Places t w t') (v : List ℤ) :
    (t'.find t.root v).isSome ↔ (t.find t.root v).isSome ∨ v <+: w := by
  rw [isSome_iff_exists, isSome_iff_exists]
  constructor
  · rintro ⟨q, hq⟩
    exact (h.find_of v q hq).imp_left fun hf => ⟨q, hf⟩
  · rintro (⟨q, hq⟩ | ⟨r, rfl⟩)
    · exact ⟨q, h.mono v q hq⟩
    · obtain ⟨q, hq⟩ := h.found
      rw [find_append, bind_eq_some_iff] at hq
      obtain ⟨q', hq', -⟩ := hq
      exact ⟨q', hq'⟩

/-- **The loop down the trie**: it finds or makes the path of the window. -/
theorem descend_spec : ∀ (rest : List ℤ) (t : Trie) (cursor : ℕ) (path : List ℕ) (u : List ℤ),
    Inv t → At t cursor path u → u.length + rest.length ≤ t.maxTrieDepth →
    rest.length ≤ t.freeNodeCount →
    ∃ path' cursor' t', t.descend cursor path rest = some (path', t') ∧ Inv t' ∧
      At t' cursor' path' (u ++ rest) ∧ Places t (u ++ rest) t'
  | [], t, cursor, path, u, h, ha, _, _ => by
    rw [append_nil]
    exact ⟨path, cursor, t, rfl, h, ha, ⟨rfl, rfl, rfl, rfl⟩, fun _ => rfl, fun _ _ hf => hf,
      fun _ _ hf => Or.inl hf, cursor, ha.found⟩
  | token :: rest, t, cursor, path, u, h, ha, hlen, hfree => by
    have hcursor := ha.live h
    rw [length_cons] at hlen hfree
    have hassoc : u ++ token :: rest = (u ++ [token]) ++ rest := by simp
    have hpath : ∀ c ∈ path, t.Live c := fun c hc => by
      obtain ⟨v, -, -, hv⟩ := ha.shorter c hc
      exact h.live_of_find v _ (Or.inl rfl) hv
    rw [hassoc, descend]
    cases hl : (t.nodes cursor).child.lookup token with
    | none =>
      obtain ⟨node, pool, hpool⟩ := exists_cons_of_length_pos
        (show 0 < t.nodePool.length from Nat.lt_of_lt_of_le (Nat.succ_pos _) hfree)
      have hnode : ¬ t.Live node := h.not_live_of_pool (by rw [hpool]; exact mem_cons_self)
      have hne : cursor ≠ node := fun e => hnode (e ▸ hcursor)
      obtain ⟨t₁, hadd, had⟩ := addChild_spec hpool hne token
      have h₁ := had.inv h hcursor ha.found (by omega) hl ha.spare
      have hroot := had.frame.root
      have hmono : ∀ v q, t.find t.root v = some q → t₁.find t.root v = some q := fun v q hf =>
        had.find_mono h hl v t.root (Or.inl rfl) hf
      have hat : At t₁ node (path ++ [node]) (u ++ [token]) := by
        refine ha.step h₁ hroot hmono
          (fun c hc => (had.keep (had.ne_of_live h (hpath c hc))).1) ?_ (by rw [had.node_eq]) ?_
        · rw [find_concat, hmono u cursor ha.found, bind_some, had.lookup h hcursor,
            if_pos ⟨rfl, rfl⟩]
        · rw [childFreq, had.node_eq]
          exact Nat.le_refl 1
      obtain ⟨path', cursor', t', hd, h', ha', hp'⟩ := descend_spec rest t₁ node _ _ h₁ hat
        (by rw [had.frame.maxTrieDepth, length_append, length_singleton]; omega)
        (by
          have := congrArg List.length had.pool
          rw [length_cons] at this
          rw [freeNodeCount] at hfree ⊢
          omega)
      refine ⟨path', cursor', t', ?_, h', ha', had.frame.trans hp'.frame, fun p => ?_,
        fun v q hf => ?_, fun v q hf => ?_, ?_⟩
      · simp only [hadd]
        exact hd
      · rw [hp'.version]
        by_cases hpn : p = node
        · rw [hpn, had.node_eq]
        · by_cases hpc : p = cursor
          · rw [hpc, had.cursor_eq]
          · rw [had.other p hpc hpn]
      · rw [← hroot]
        exact hp'.mono v q (hroot ▸ hmono v q hf)
      · rcases hp'.find_of v q (hroot ▸ hf) with hf | hf
        · rw [hroot] at hf
          refine (had.find_of h v t.root (Or.inl rfl) hf).imp_right ?_
          rintro ⟨u', rfl, hu', -⟩
          rw [h.find_inj u' u cursor hu' ha.found]
          exact prefix_append _ _
        · exact Or.inr hf
      · rw [← hroot]
        exact hp'.found
    | some node =>
      have hn := h.child_of_lookup hcursor hl
      have hne : cursor ≠ node := by
        rintro rfl
        exact h.parent_ne hn.1 hn.2.1
      have hu := useChild_spec t hne
      have hfind := find_congr fun p => (hu.keep p).1
      have h₁ := hu.inv h hcursor hl ha.spare
      have hat : At (t.useChild cursor node) node (path ++ [node]) (u ++ [token]) := by
        refine ha.step h₁ rfl (fun v q hf => (hfind v t.root).trans hf) (fun c _ => (hu.keep c).2.1) ?_
          ((hu.keep node).2.1.trans hn.2.1) (hu.spare h hcursor hl)
        rw [hfind, find_concat, ha.found]
        exact hl
      obtain ⟨path', cursor', t', hd, h', ha', hp'⟩ := descend_spec rest _ node _ _ h₁ hat
        (by rw [hu.frame.maxTrieDepth, length_append, length_singleton]; omega)
        (by rw [freeNodeCount]; exact Nat.le_of_succ_le hfree)
      refine ⟨path', cursor', t', hd, h', ha', hu.frame.trans hp'.frame, fun p => ?_,
        fun v q hf => ?_, fun v q hf => ?_, hp'.found⟩
      · rw [hp'.version, (hu.keep p).2.2.2]
      · exact hp'.mono v q ((hfind v t.root).trans hf)
      · exact (hp'.find_of v q hf).imp_left fun hf => (hfind v t.root).symm.trans hf

/-! ## 2. Windows -/

/-- A new order of the global list in which parents come first. -/
theorem Inv.reorder (h : Inv t) {l : List ℕ} (hperm : l.Perm t.globalLru)
    (hfirst : ParentsFirst (fun p => (t.nodes p).parent) t.root l) : Inv { t with globalLru := l } := by
  have hmem : ∀ {c}, c ∈ l ↔ c ∈ t.globalLru := fun {c} => hperm.mem_iff
  refine ⟨((hperm.append_right _).cons _).trans h.memory, hfirst, fun p hp => ?_,
    fun c hc => h.linked c (hmem.mp hc), fun c hc => h.freq c (hmem.mp hc), fun w q hf => ?_⟩
  · have hok := h.node p (hp.imp_right hmem.mp)
    exact ⟨hok.keys, fun e he => ⟨hmem.mpr (hok.entry e he).1, (hok.entry e he).2⟩, hok.lru,
      hok.sorted_perm, hok.sorted⟩
  · exact h.depth w q ((find_reorder t l w t.root).symm.trans hf)

/-- **Placing a window**, with room for it. -/
theorem place_spec (h : Inv t) (hlen : w.length ≤ t.maxTrieDepth) (hfree : w.length ≤ t.freeNodeCount) :
    ∃ t', t.place w = some t' ∧ Inv t' ∧ Places t w t' := by
  have hstart : At t t.root [] [] :=
    ⟨rfl, fun hm => absurd rfl (h.ne_root hm), trivial, rfl, nodup_nil, by simp⟩
  obtain ⟨path, cursor, t', hd, h', ha, hp⟩ := descend_spec w t t.root [] [] h hstart
    (by simpa using hlen) hfree
  have hmem : ∀ c ∈ path, c ∈ t'.globalLru := fun c hc => by
    obtain ⟨v, hv, -, hf⟩ := ha.shorter c hc
    exact h'.mem_of_find hv hf
  refine ⟨{ t' with globalLru := path.foldr moveFront t'.globalLru }, ?_,
    h'.reorder (foldr_moveFront_perm h'.nodup_lru ha.nodup hmem)
      (h'.first.moveFront h'.nodup_lru ha.nodup ha.isPath), ?_⟩
  · rw [place, hd]
    simp
  · have hfind := find_reorder t' (path.foldr moveFront t'.globalLru)
    exact ⟨⟨hp.frame.root, hp.frame.capacity, hp.frame.maxTrieDepth, hp.frame.trieEpoch⟩,
      hp.version, fun v q hf => (hfind v _).trans (hp.mono v q hf),
      fun v q hf => hp.find_of v q ((hfind v _).symm.trans hf),
      hp.found.imp fun q hf => (hfind w _).trans hf⟩

/-! ## 3. Edits and their log -/

/-- What happens to a window or a node. -/
inductive Event where
  | inserted (window : List ℤ)
  | evicted (word : List ℤ)
  | cleared

/-- The tokens from the root to a node, read off the parents. -/
def word (t : Trie) : ℕ → ℕ → List ℤ
  | 0, _ => []
  | fuel + 1, p => if p = t.root then [] else t.word fuel (t.nodes p).parent ++ [(t.nodes p).token]

theorem Inv.word_eq (h : Inv t) : ∀ (fuel : ℕ) (w : List ℤ) (c : ℕ), t.find t.root w = some c →
    w.length ≤ fuel → t.word fuel c = w
  | 0, w, c, _, hlen => (length_eq_zero_iff.mp (Nat.le_zero.mp hlen)).symm
  | fuel + 1, w, c, hf, hlen => by
    rw [word]
    rcases eq_nil_or_concat' w with rfl | ⟨u, token, rfl⟩
    · cases hf
      rw [if_pos rfl]
    · have hne := h.ne_root (h.mem_of_find (by simp) hf)
      rw [find_concat, bind_eq_some_iff] at hf
      obtain ⟨q, hq, hl⟩ := hf
      obtain ⟨-, hp, ht⟩ := h.child_of_lookup (h.live_of_find u _ (Or.inl rfl) hq) hl
      rw [length_append, length_singleton] at hlen
      rw [if_neg hne, hp, ht, h.word_eq fuel u q hq (by omega)]

/-- What `squeeze` evicts. -/
def evictLog : ℕ → Trie → List Event
  | 0, _ => []
  | count + 1, t =>
    (t.globalLru.getLast?.elim [] fun last => [.evicted (t.word t.maxTrieDepth last)]) ++
      t.evictLast.elim [] (evictLog count)

/-- What one round of `insert` evicts and inserts. -/
def windowLog (t : Trie) (window : List ℤ) : List Event :=
  evictLog (window.length - t.freeNodeCount) t ++ [.inserted window]

/-- What `insert` evicts and inserts. -/
def insertLog (t : Trie) : List ℤ → List Event
  | [] => []
  | token :: rest =>
    let window := (token :: rest).take t.maxTrieDepth
    t.windowLog window ++ (t.insertWindow window).elim [] (insertLog · rest)

/-- A sequence of evictions and windows. -/
inductive Edits : Trie → List Event → Trie → Prop
  | nil (t : Trie) : Edits t [] t
  | evict {t t' t'' : Trie} {last : ℕ} {w : List ℤ} {log : List Event} :
      Inv t → Evicts t last t' → t.find t.root w = some last → Edits t' log t'' →
      Edits t (.evicted w :: log) t''
  | place {t t' t'' : Trie} {w : List ℤ} {log : List Event} :
      Inv t → w.length ≤ t.maxTrieDepth → Places t w t' → Edits t' log t'' →
      Edits t (.inserted w :: log) t''

theorem Edits.append {log log' : List Event} (h : Edits t log t') (h' : Edits t' log' t'') :
    Edits t (log ++ log') t'' := by
  induction h with
  | nil => exact h'
  | evict hi he hf _ ih => exact Edits.evict hi he hf (ih h')
  | place hi hw hp _ ih => exact Edits.place hi hw hp (ih h')

theorem Edits.frame {log : List Event} (h : Edits t log t') : Frame t t' := by
  induction h with
  | nil => exact ⟨rfl, rfl, rfl, rfl⟩
  | evict _ he _ _ ih => exact he.frame.trans ih
  | place _ _ hp _ ih => exact hp.frame.trans ih

/-- **Nodes can be evicted as long as there are any.** -/
theorem evictMany_spec : ∀ (count : ℕ) (t : Trie), Inv t → count ≤ t.globalLru.length →
    ∃ t', evictMany count t = some t' ∧ Inv t' ∧ Edits t (evictLog count t) t' ∧
      t'.freeNodeCount = t.freeNodeCount + count
  | 0, t, h, _ => ⟨t, rfl, h, Edits.nil t, rfl⟩
  | count + 1, t, h, hcount => by
    have hne : t.globalLru ≠ [] := by
      intro e
      rw [e] at hcount
      exact absurd hcount (Nat.not_succ_le_zero _)
    obtain ⟨last, t₁, hev, he⟩ := h.evictLast_spec hne
    have hlen := congrArg List.length he.globalLru
    rw [length_append, length_singleton] at hlen
    obtain ⟨t', hmany, h', hedits, hfree⟩ := evictMany_spec count t₁ (he.inv h) (by omega)
    obtain ⟨w, hw⟩ := h.exists_find last (Or.inr he.mem_last)
    refine ⟨t', by rw [evictMany, hev]; exact hmany, h', ?_, ?_⟩
    · rw [evictLog, hev, he.globalLru, getLast?_append, getLast?_singleton]
      simp only [some_or, elim_some, singleton_append]
      rw [h.word_eq _ w last hw (h.depth w last hw)]
      exact Edits.evict h he hw hedits
    · rw [hfree, freeNodeCount, he.pool, length_cons, freeNodeCount]
      omega

theorem le_of_evictMany : ∀ (count : ℕ) (t t' : Trie), Inv t → evictMany count t = some t' →
    count ≤ t.globalLru.length
  | 0, _, _, _, _ => Nat.zero_le _
  | count + 1, t, t', h, hm => by
    by_cases hne : t.globalLru = []
    · rw [evictMany, evictLast, hne] at hm
      cases hm
    · obtain ⟨last, t₁, hev, he⟩ := h.evictLast_spec hne
      rw [evictMany, hev] at hm
      have := le_of_evictMany count t₁ t' (he.inv h) hm
      rw [he.globalLru, length_append, length_singleton]
      omega

/-- **One round of `insert`**, with nodes enough for the window. -/
theorem insertWindow_spec (h : Inv t) (hlen : w.length ≤ t.maxTrieDepth)
    (hroom : w.length ≤ t.freeNodeCount + t.globalLru.length) :
    ∃ t', t.insertWindow w = some t' ∧ Inv t' ∧ Edits t (t.windowLog w) t' := by
  have hcount := h.count
  have hsqueeze : ∃ t₁, (if t.freeNodeCount < w.length then t.squeeze (w.length - t.freeNodeCount)
      else some t) = some t₁ ∧ Inv t₁ ∧ Edits t (evictLog (w.length - t.freeNodeCount) t) t₁ ∧
      w.length ≤ t₁.freeNodeCount := by
    by_cases hlt : t.freeNodeCount < w.length
    · obtain ⟨t₁, hmany, h₁, hedits, hfree⟩ :=
        evictMany_spec (w.length - t.freeNodeCount) t h (by omega)
      refine ⟨t₁, ?_, h₁, hedits, by omega⟩
      rw [if_pos hlt, squeeze, if_pos (by omega)]
      exact hmany
    · refine ⟨t, if_neg hlt, h, ?_, by omega⟩
      rw [Nat.sub_eq_zero_of_le (by omega)]
      exact Edits.nil t
  obtain ⟨t₁, hs, h₁, hedits, hfree⟩ := hsqueeze
  obtain ⟨t', hplace, h', hp⟩ := place_spec h₁ (hedits.frame.maxTrieDepth ▸ hlen) hfree
  refine ⟨t', ?_, h', hedits.append
    (Edits.place h₁ (hedits.frame.maxTrieDepth ▸ hlen) hp (Edits.nil t'))⟩
  rw [insertWindow, hs]
  exact hplace

/-- A round that succeeds had nodes enough. -/
theorem room_of_insertWindow (h : Inv t) (hs : t.insertWindow w = some t') :
    w.length ≤ t.freeNodeCount + t.globalLru.length := by
  by_cases hlt : t.freeNodeCount < w.length
  · rw [insertWindow, if_pos hlt, bind_eq_some_iff] at hs
    obtain ⟨t₁, hsq, -⟩ := hs
    rw [squeeze] at hsq
    split at hsq
    · have := le_of_evictMany _ t t₁ h hsq
      omega
    · cases hsq
  · omega

/-- **An insertion that succeeds is a sequence of edits.** -/
theorem insert_edits : ∀ (tokens : List ℤ) (t t' : Trie), Inv t → t.insert tokens = some t' →
    Inv t' ∧ Edits t (t.insertLog tokens) t'
  | [], t, t', h, hs => by
    cases hs
    exact ⟨h, Edits.nil t⟩
  | token :: rest, t, t', h, hs => by
    rw [insert, bind_eq_bind, bind_eq_some_iff] at hs
    obtain ⟨t₁, hw, hs⟩ := hs
    obtain ⟨t₂, hw', h₁, hedits⟩ := insertWindow_spec h (length_take_le _ _)
      (room_of_insertWindow h hw)
    obtain rfl : t₁ = t₂ := Option.some.inj (hw.symm.trans hw')
    obtain ⟨h', hedits'⟩ := insert_edits rest t₁ t' h₁ hs
    refine ⟨h', ?_⟩
    rw [insertLog, hw]
    exact hedits.append hedits'

/-- **An insertion never fails.** -/
theorem insert_spec : ∀ (tokens : List ℤ) (t : Trie), Inv t → t.maxTrieDepth < t.capacity →
    ∃ t', t.insert tokens = some t'
  | [], t, _, _ => ⟨t, rfl⟩
  | token :: rest, t, h, hcap => by
    have hcount := h.count
    have hlen := length_take_le t.maxTrieDepth (token :: rest)
    obtain ⟨t₁, hw, h₁, hedits⟩ := insertWindow_spec h hlen (by omega)
    obtain ⟨t', hins⟩ := insert_spec rest t₁ h₁
      (by rw [hedits.frame.maxTrieDepth, hedits.frame.capacity]; exact hcap)
    exact ⟨t', by rw [insert, hw]; exact hins⟩

/-! ## 4. What a log leaves in the trie -/

/-- The word begins an inserted window, and was not evicted or cleared since. -/
def Held (log : List Event) (w : List ℤ) : Prop :=
  ∃ before v after, log = before ++ .inserted v :: after ∧ w <+: v ∧
    ∀ e ∈ after, e ≠ .evicted w ∧ e ≠ .cleared

theorem not_held_nil (w : List ℤ) : ¬ Held [] w := by
  rintro ⟨before, v, after, h, -⟩
  cases before <;> cases h

theorem held_concat_iff (log : List Event) (e : Event) (w : List ℤ) : Held (log ++ [e]) w ↔
    (∃ v, e = .inserted v ∧ w <+: v) ∨ (Held log w ∧ e ≠ .evicted w ∧ e ≠ .cleared) := by
  constructor
  · rintro ⟨before, v, after, h, hv, hafter⟩
    rcases eq_nil_or_concat' after with rfl | ⟨after, e', rfl⟩
    · exact Or.inl ⟨v, (append_inj' h rfl).2 |> singleton_inj.mp, hv⟩
    · rw [← cons_append, ← append_assoc] at h
      obtain ⟨hlog, he⟩ := append_inj' h rfl
      obtain rfl := singleton_inj.mp he
      exact Or.inr ⟨⟨before, v, after, hlog, hv, fun a ha => hafter a (mem_append_left _ ha)⟩,
        hafter e (by simp)⟩
  · rintro (⟨v, rfl, hv⟩ | ⟨⟨before, v, after, rfl, hv, hafter⟩, he⟩)
    · exact ⟨log, v, [], rfl, hv, fun a ha => absurd ha not_mem_nil⟩
    · refine ⟨before, v, after ++ [e], by simp, hv, fun a ha => ?_⟩
      rcases mem_append.mp ha with ha | ha
      · exact hafter a ha
      · rw [mem_singleton.mp ha]
        exact he

/-- The words that lead to a node are those that the log leaves. -/
def Holds (t : Trie) (log : List Event) : Prop :=
  ∀ w, w ≠ [] → ((t.find t.root w).isSome ↔ Held log w)

/-- **Edits do to the words what the log says.** -/
theorem Edits.holds {log log' : List Event} (he : Edits t log' t') (h : Holds t log) :
    Holds t' (log ++ log') := by
  induction he generalizing log with
  | nil => rwa [append_nil]
  | @evict t t₁ t'' last v log' hi he hf _ ih =>
    rw [← singleton_append, ← append_assoc]
    refine ih fun w hw => ?_
    rw [held_concat_iff, ← h w hw]
    have hroot := (hi.ne_root he.mem_last).symm
    have hiff : (t₁.find t₁.root w).isSome ↔ (t.find t.root w).isSome ∧ w ≠ v := by
      rw [isSome_iff_exists, isSome_iff_exists, he.frame.root]
      constructor
      · rintro ⟨q, hq⟩
        obtain ⟨hq, hne⟩ := (he.find_iff hi w _ (Or.inl rfl) hroot).mp hq
        refine ⟨⟨q, hq⟩, ?_⟩
        rintro rfl
        exact hne (Option.some.inj (hq.symm.trans hf))
      · rintro ⟨⟨q, hq⟩, hne⟩
        refine ⟨q, (he.find_iff hi w _ (Or.inl rfl) hroot).mpr ⟨hq, ?_⟩⟩
        rintro rfl
        exact hne (hi.find_inj w v q hq hf)
    rw [hiff]
    constructor
    · rintro ⟨h1, h2⟩
      exact Or.inr ⟨h1, fun e => h2 (Event.evicted.inj e).symm, fun e => Event.noConfusion e⟩
    · rintro (⟨_, e, _⟩ | ⟨h1, h2, -⟩)
      · cases e
      · exact ⟨h1, fun e => h2 (e ▸ rfl)⟩
  | @place t t₁ t'' v log' hi _ hp _ ih =>
    rw [← singleton_append, ← append_assoc]
    refine ih fun w hw => ?_
    rw [held_concat_iff, ← h w hw, hp.frame.root, hp.isSome_iff]
    constructor
    · rintro (h1 | h1)
      · exact Or.inr ⟨h1, fun e => Event.noConfusion e, fun e => Event.noConfusion e⟩
      · exact Or.inl ⟨v, rfl, h1⟩
    · rintro (⟨_, e, h1⟩ | ⟨h1, -⟩)
      · cases e
        exact Or.inr h1
      · exact Or.inl h1

/-! ## 5. How far the counters go -/

variable {n m node : ℕ}

/-- No node has been counted more often than this. -/
def CountsTo (n : ℕ) (t : Trie) : Prop := ∀ p, (t.nodes p).freq ≤ n

theorem CountsTo.addChild (h : CountsTo n t) (hs : t.addChild cursor token = some (node, t')) :
    CountsTo (n + 1) t' := by
  rw [Trie.addChild, Trie.getNode] at hs
  cases hpool : t.nodePool with
  | nil => simp [hpool] at hs
  | cons node' pool =>
    simp only [hpool] at hs
    cases hs
    intro q
    have hq := h q
    have hcursor := h cursor
    simp only [Trie.modify, Function.update_apply]
    split_ifs <;> simp <;> omega

theorem CountsTo.useChild (h : CountsTo n t) (cursor node : ℕ) :
    CountsTo (n + 1) (t.useChild cursor node) := by
  intro q
  have hq := h q
  have hcursor := h cursor
  have hnode := h node
  simp only [Trie.useChild, Trie.modify, Function.update_apply]
  split_ifs <;> simp <;> omega

/-- Every token of a window is counted once. -/
theorem CountsTo.descend : ∀ (rest : List ℤ) {t t' : Trie} {cursor n : ℕ} {path path' : List ℕ},
    CountsTo n t → t.descend cursor path rest = some (path', t') → CountsTo (n + rest.length) t'
  | [], t, t', cursor, n, path, path', h, hs => by
    cases hs
    exact h
  | token :: rest, t, t', cursor, n, path, path', h, hs => by
    rw [length_cons, Nat.add_comm rest.length, ← Nat.add_assoc]
    rw [Trie.descend] at hs
    split at hs
    · obtain ⟨⟨node, t₁⟩, hadd, hs⟩ := bind_eq_some_iff.mp hs
      exact CountsTo.descend rest (h.addChild hadd) hs
    · exact CountsTo.descend rest (h.useChild _ _) hs

theorem freq_modify {f : TrieNode → TrieNode} (hf : ∀ n, (f n).freq = n.freq) (q : ℕ) :
    ((t.modify p f).nodes q).freq = (t.nodes q).freq := by
  rw [Trie.modify]
  by_cases hq : q = p
  · simp [hq, hf]
  · simp [hq]

theorem CountsTo.evictMany : ∀ (count : ℕ) {t t' : Trie}, CountsTo n t →
    evictMany count t = some t' → CountsTo n t'
  | 0, t, t', h, hs => by
    cases hs
    exact h
  | count + 1, t, t', h, hs => by
    obtain ⟨t₁, hev, hs⟩ := bind_eq_some_iff.mp hs
    refine CountsTo.evictMany count (fun q => ?_) hs
    rw [Trie.evictLast] at hev
    split at hev
    · cases hev
    · simp only at hev
      split at hev
      · cases hev
      · cases hev
        simpa [Trie.evictNode, freq_modify] using h q

theorem CountsTo.insertWindow (h : CountsTo n t) (hs : t.insertWindow w = some t') :
    CountsTo (n + w.length) t' := by
  obtain ⟨t₁, hsq, hs⟩ := bind_eq_some_iff.mp hs
  have h₁ : CountsTo n t₁ := by
    split at hsq
    · rw [squeeze] at hsq
      split at hsq
      · exact h.evictMany _ hsq
      · cases hsq
    · cases hsq
      exact h
  obtain ⟨⟨path, t₂⟩, hd, hs⟩ := bind_eq_some_iff.mp hs
  cases hs
  have h₂ := CountsTo.descend w h₁ hd
  exact h₂

/-- The tokens that `insert` counts. -/
def insertUses (depth : ℕ) : List ℤ → ℕ
  | [] => 0
  | token :: rest => min depth (token :: rest).length + insertUses depth rest

theorem CountsTo.insert : ∀ (tokens : List ℤ) {t t' : Trie} {n : ℕ}, Inv t → CountsTo n t →
    t.insert tokens = some t' → CountsTo (n + insertUses t.maxTrieDepth tokens) t'
  | [], t, t', n, _, h, hs => by
    cases hs
    exact h
  | token :: rest, t, t', n, hi, h, hs => by
    obtain ⟨t₁, hw, hs⟩ := bind_eq_some_iff.mp hs
    obtain ⟨t₂, hw', h₁, hedits⟩ := insertWindow_spec hi (length_take_le _ _)
      (room_of_insertWindow hi hw)
    obtain rfl : t₁ = t₂ := Option.some.inj (hw.symm.trans hw')
    have hcount := CountsTo.insert rest h₁ (h.insertWindow hw) hs
    rwa [hedits.frame.maxTrieDepth, length_take, Nat.add_assoc] at hcount

/-! ## 6. Runs -/

/-- The calls that change the trie. -/
inductive Call where
  | insert (tokens : List ℤ)
  | reset

/-- A call. -/
def call (t : Trie) : Call → Option Trie
  | .insert tokens => t.insert tokens
  | .reset => t.reset

/-- What a call evicts and inserts. -/
def callLog (t : Trie) : Call → List Event
  | .insert tokens => t.insertLog tokens
  | .reset => [.cleared]

/-- Calls one after the other. -/
def run (t : Trie) : List Call → Option Trie
  | [] => some t
  | c :: calls => (t.call c).bind fun t => t.run calls

/-- What they evict and insert. -/
def runLog (t : Trie) : List Call → List Event
  | [] => []
  | c :: calls => t.callLog c ++ (t.call c).elim [] fun t => t.runLog calls

/-- The tokens that the calls count. -/
def uses (depth : ℕ) : List Call → ℕ
  | [] => 0
  | .insert tokens :: calls => insertUses depth tokens + uses depth calls
  | .reset :: calls => uses depth calls

theorem refill_eq {n : ℕ} (hn : t.capacity = n + 1) : t.refill = some { t with
    nodes := Function.update t.nodes n { version := (t.nodes n).version }
    globalLru := []
    nodePool := (List.range n).reverse
    root := n } := by
  have hpool : (List.range t.capacity).reverse = n :: (List.range n).reverse := by
    rw [hn, range_succ, reverse_append]
    rfl
  simp [refill, getNode, modify, hpool]

/-- **A refilled trie is empty**, whatever the nodes hold. -/
theorem refill_spec (t : Trie) (hcap : 0 < t.capacity) : ∃ t', t.refill = some t' ∧ Inv t' ∧
    t'.capacity = t.capacity ∧ t'.maxTrieDepth = t.maxTrieDepth ∧ t'.trieEpoch = t.trieEpoch ∧
    ∀ w, w ≠ [] → t'.find t'.root w = none := by
  obtain ⟨n, hn⟩ := Nat.exists_eq_add_one_of_ne_zero (Nat.ne_of_gt hcap)
  obtain ⟨t', ht'⟩ : ∃ t', t' = { t with
    nodes := Function.update t.nodes n { version := (t.nodes n).version }
    globalLru := []
    nodePool := (List.range n).reverse
    root := n } := ⟨_, rfl⟩
  have hroot : t'.nodes t'.root = { version := (t.nodes n).version } := by
    rw [ht']
    exact Function.update_self _ _ _
  have hlru : t'.globalLru = [] := by rw [ht']
  have hempty : ∀ w, w ≠ [] → t'.find t'.root w = none := by
    intro w hw
    cases w with
    | nil => exact absurd rfl hw
    | cons token w =>
      rw [find_cons, hroot]
      rfl
  have hnone : ∀ c, c ∉ t'.globalLru := by
    rw [hlru]
    exact fun c => not_mem_nil
  refine ⟨t', by rw [refill_eq hn, ht'], ?_, by rw [ht'], by rw [ht'], by rw [ht'], hempty⟩
  refine ⟨?_, ?_, fun p hp => ?_, fun c hc => absurd hc (hnone c), fun c hc => absurd hc (hnone c),
    fun w q hf => ?_⟩
  · rw [ht', hn, range_succ]
    exact ((reverse_perm _).cons n).trans (perm_append_singleton _ _).symm
  · rw [hlru]
    exact ParentsFirst.nil
  · rcases hp with rfl | hp
    · constructor <;> rw [hroot] <;> simp
    · exact absurd hp (hnone p)
  · by_cases hw : w = []
    · rw [hw]
      exact Nat.zero_le _
    · rw [hempty w hw] at hf
      cases hf

/-- The nodes that are not taken keep their counters. -/
theorem CountsTo.refill (h : CountsTo n t) (hcap : 0 < t.capacity) (hs : t.refill = some t') :
    CountsTo n t' := by
  obtain ⟨k, hk⟩ := Nat.exists_eq_add_one_of_ne_zero (Nat.ne_of_gt hcap)
  rw [refill_eq hk] at hs
  cases hs
  intro q
  by_cases hq : q = k
  · simp [hq]
  · simpa [hq] using h q

theorem call_spec {log : List Event} (h : Inv t) (hcap : t.maxTrieDepth < t.capacity)
    (hh : Holds t log) (c : Call) : ∃ t', t.call c = some t' ∧ Inv t' ∧
      t'.capacity = t.capacity ∧ t'.maxTrieDepth = t.maxTrieDepth ∧ Holds t' (log ++ t.callLog c) := by
  cases c with
  | insert tokens =>
    obtain ⟨t', hi⟩ := insert_spec tokens t h hcap
    obtain ⟨h', he⟩ := insert_edits tokens t t' h hi
    exact ⟨t', hi, h', he.frame.capacity, he.frame.maxTrieDepth, he.holds hh⟩
  | reset =>
    obtain ⟨t', hr, h', h1, h2, -, hnone⟩ :=
      refill_spec { t with trieEpoch := t.trieEpoch + 1 } (Nat.zero_lt_of_lt hcap)
    refine ⟨t', hr, h', h1, h2, fun w hw => ?_⟩
    rw [hnone w hw, callLog, held_concat_iff]
    simp

/-- **A run never fails**, keeps the invariant and the words of its log, and counts its tokens. -/
theorem run_spec : ∀ (calls : List Call) (t : Trie) (log : List Event) (n : ℕ), Inv t →
    t.maxTrieDepth < t.capacity → Holds t log → CountsTo n t →
    ∃ t', t.run calls = some t' ∧ Inv t' ∧ t'.maxTrieDepth = t.maxTrieDepth ∧
      Holds t' (log ++ t.runLog calls) ∧ CountsTo (n + uses t.maxTrieDepth calls) t'
  | [], t, log, n, h, _, hh, hn => ⟨t, rfl, h, rfl, by rwa [runLog, append_nil], hn⟩
  | c :: calls, t, log, n, h, hcap, hh, hn => by
    obtain ⟨t₁, hc, h₁, e1, e2, hh₁⟩ := call_spec h hcap hh c
    have hn₁ : ∃ n₁, CountsTo n₁ t₁ ∧
        n₁ + uses t.maxTrieDepth calls = n + uses t.maxTrieDepth (c :: calls) := by
      cases c with
      | insert tokens => exact ⟨_, CountsTo.insert tokens h hn hc, Nat.add_assoc _ _ _⟩
      | reset =>
        exact ⟨n, CountsTo.refill (t := { t with trieEpoch := t.trieEpoch + 1 }) hn
          (Nat.zero_lt_of_lt hcap) hc, rfl⟩
    obtain ⟨n₁, hn₁, hsum⟩ := hn₁
    obtain ⟨t', hr, h', e3, hh', hn'⟩ := run_spec calls t₁ _ n₁ h₁ (by rw [e1, e2]; exact hcap) hh₁ hn₁
    rw [e2, hsum] at hn'
    refine ⟨t', by rw [run, hc]; exact hr, h', e3.trans e2, ?_, hn'⟩
    rw [runLog, hc, ← append_assoc]
    exact hh'

/-! ## 7. Eviction never breaks the trie -/

/-- The nodes that tokens lead to. -/
def Reachable (t : Trie) (p : ℕ) : Prop := ∃ w, t.find t.root w = some p

/-- A trie as it should be. -/
structure WellFormed (t : Trie) : Prop where
  listed : ∀ c, c ∈ t.globalLru ↔ t.Reachable c ∧ c ≠ t.root
  descendants : ∀ l₁ c l₂, t.globalLru = l₁ ++ c :: l₂ → ∀ w d, w ≠ [] → t.find c w = some d → d ∈ l₂
  count : t.freeNodeCount + Set.ncard {p | t.Reachable p} = t.capacity
  keys : ∀ p, t.Reachable p → ((t.nodes p).child.map Prod.fst).Nodup
  lru : ∀ p, t.Reachable p → (t.nodes p).lru.Perm ((t.nodes p).child.map Prod.snd)
  sorted_perm : ∀ p, t.Reachable p →
    (t.nodes p).sortedChildren.Perm ((t.nodes p).child.map Prod.snd)
  sorted : ∀ p, t.Reachable p →
    (t.nodes p).sortedChildren.Pairwise fun a b => (t.nodes b).freq ≤ (t.nodes a).freq
  freq : ∀ p, t.Reachable p → p ≠ t.root → t.childFreq p ≤ (t.nodes p).freq

theorem Inv.reachable_iff (h : Inv t) (p : ℕ) : t.Reachable p ↔ t.Live p :=
  ⟨fun ⟨w, hw⟩ => h.live_of_find w _ (Or.inl rfl) hw, h.exists_find p⟩

/-- Children hang below. -/
theorem Inv.descends (h : Inv t) : ∀ (w : List ℤ) (c d : ℕ), t.Live c → w ≠ [] →
    t.find c w = some d → Relation.TransGen (fun c d => d ∈ t.globalLru ∧ (t.nodes d).parent = c) c d
  | [], _, _, _, hw, _ => absurd rfl hw
  | token :: w, c, d, hc, _, hf => by
    rw [find_cons, bind_eq_some_iff] at hf
    obtain ⟨e, he, hf⟩ := hf
    have hchild := h.child_of_lookup hc he
    have hstep : e ∈ t.globalLru ∧ (t.nodes e).parent = c := ⟨hchild.1, hchild.2.1⟩
    cases w with
    | nil =>
      cases hf
      exact Relation.TransGen.single hstep
    | cons a w =>
      exact Relation.TransGen.head hstep
        (h.descends (a :: w) e d (Or.inr hchild.1) (cons_ne_nil _ _) hf)

theorem Inv.wellFormed (h : Inv t) : WellFormed t := by
  have hnode : ∀ p, t.Reachable p → NodeOk t p := fun p hp => h.node p ((h.reachable_iff p).mp hp)
  refine ⟨fun c => ?_, fun l₁ c l₂ hl w d hw hf => ?_, ?_, fun p hp => (hnode p hp).keys,
    fun p hp => (hnode p hp).lru, fun p hp => (hnode p hp).sorted_perm, fun p hp => ?_,
    fun p hp hne => ?_⟩
  · rw [h.reachable_iff]
    exact ⟨fun hc => ⟨Or.inr hc, h.ne_root hc⟩, fun hc => hc.1.resolve_left hc.2⟩
  · have hc : t.Live c := Or.inr (by rw [hl]; simp)
    exact h.first.mem_of_descends h.nodup_live (h.descends w c d hc hw hf) l₁ l₂ hl
  · have hset : {p | t.Reachable p} = ((t.root :: t.globalLru).toFinset : Set ℕ) := by
      ext p
      rw [Set.mem_ofPred_eq, h.reachable_iff, Finset.mem_coe, List.mem_toFinset, mem_cons]
      rfl
    rw [hset, Set.ncard_coe_finset, toFinset_card_of_nodup h.nodup_live]
    exact h.count
  · refine (hnode p hp).sorted.imp fun {a b} hab => ?_
    rw [compareByFreq_iff] at hab
    omega
  · exact h.freq p (((h.reachable_iff p).mp hp).resolve_left hne)

/-- **Eviction never breaks the trie**, as long as fewer than `2 ^ 31` tokens have been counted.  Every run
succeeds, so that `squeeze` never throws; the trie stays well formed and its counters stay below `2 ^ 31`;
and the words in it are those that were inserted and not evicted since, each as long as a window at most,
with their prefixes. -/
theorem run_wellFormed {capacity maxTrieDepth : ℕ} (hcap : maxTrieDepth < capacity)
    (calls : List Call) (huses : uses maxTrieDepth calls < 2 ^ 31) :
    ∃ t₀ t, new capacity maxTrieDepth = some t₀ ∧ t₀.run calls = some t ∧
      WellFormed t ∧ (∀ p, (t.nodes p).freq < 2 ^ 31) ∧
      ∀ w, w ≠ [] → ((t.find t.root w).isSome ↔ Held (t₀.runLog calls) w) ∧
        (Held (t₀.runLog calls) w → w.length ≤ maxTrieDepth ∧
          ∀ u, u ≠ [] → u <+: w → Held (t₀.runLog calls) u) := by
  obtain ⟨t₀, hnew, h₀, e1, e2, -, hnone⟩ :=
    refill_spec ⟨fun _ => {}, capacity, [], [], 0, maxTrieDepth, 1⟩ (Nat.zero_lt_of_lt hcap)
  have hholds : Holds t₀ [] := fun w hw => by
    rw [hnone w hw]
    exact ⟨fun e => absurd e Bool.false_ne_true, fun e => absurd e (not_held_nil w)⟩
  have hzero : CountsTo 0 t₀ :=
    CountsTo.refill (fun _ => le_rfl) (show 0 < capacity from Nat.zero_lt_of_lt hcap) hnew
  obtain ⟨t, hrun, h, e4, hh, hcount⟩ :=
    run_spec calls t₀ [] 0 h₀ (by rw [e1, e2]; exact hcap) hholds hzero
  rw [Nat.zero_add, e2] at hcount
  refine ⟨t₀, t, hnew, hrun, h.wellFormed, fun p => (hcount p).trans_lt huses, fun w hw =>
    ⟨hh w hw, fun hheld => ⟨?_, fun u hu hpre => ?_⟩⟩⟩
  · obtain ⟨q, hq⟩ := isSome_iff_exists.mp ((hh w hw).mpr hheld)
    have := h.depth w q hq
    rwa [e4, e2] at this
  · obtain ⟨q, hq⟩ := isSome_iff_exists.mp ((hh w hw).mpr hheld)
    obtain ⟨r, rfl⟩ := hpre
    rw [find_append, bind_eq_some_iff] at hq
    obtain ⟨q', hq', -⟩ := hq
    exact (hh u hu).mp (by rw [hq']; rfl)

/-- With room for two nodes, the second window evicts the first, and the third the end of the second. -/
theorem run_wellFormed_small : ∃ t₀ t, new 3 2 = some t₀ ∧ t₀.run [.insert [1, 2, 3]] = some t ∧
    WellFormed t ∧ Held (t₀.runLog [.insert [1, 2, 3]]) [2] ∧
      ¬ Held (t₀.runLog [.insert [1, 2, 3]]) [2, 3] := by
  obtain ⟨t₀, t, hnew, hrun, hwf, -, hheld⟩ :=
    run_wellFormed (show 2 < 3 by decide) [.insert [1, 2, 3]] (by decide)
  have hfind : ((new 3 2).bind (·.run [.insert [1, 2, 3]])).map
      (fun t => ((t.find t.root [2]).isSome, (t.find t.root [2, 3]).isSome)) = some (true, false) := by
    decide +kernel
  rw [hnew, bind_some, hrun, map_some, Option.some.injEq, Prod.mk.injEq] at hfind
  refine ⟨t₀, t, hnew, hrun, hwf, (hheld [2] (by decide)).1.mp hfind.1, fun h => ?_⟩
  have := (hheld [2, 3] (by decide)).1.mpr h
  rw [hfind.2] at this
  cases this

/-- The root is not counted: its frequency stays zero while its children have been used. -/
theorem root_not_counted : ∃ t₀ t, new 3 2 = some t₀ ∧ t₀.run [.insert [7]] = some t ∧
    t.Reachable t.root ∧ ¬ t.childFreq t.root ≤ (t.nodes t.root).freq :=
  ⟨_, _, rfl, rfl, ⟨[], rfl⟩, by decide +kernel⟩

end Trie

end Sglang
