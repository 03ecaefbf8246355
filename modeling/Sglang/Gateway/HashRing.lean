/-
# The hash ring of the gateway

A transcription of `HashRing` (`worker_registry.rs`).  A worker is known to the ring by its url and
stands on it at 150 positions; a key goes to the first healthy worker clockwise from its own
position.  `blake3` is a parameter.

The walk is a search in the ring read clockwise (`findHealthyUrl_eq`), and removing workers from the
list is a filter on the ring (`entries_filter`).  Both together say that failing a worker and
removing it are the same, and that only its own keys move.
-/
import Mathlib.Algebra.Ring.Nat
import Sglang.Lib.SortedRing

namespace Sglang

open List

/-- `HashRing`: positions and urls, sorted by position. -/
structure HashRing where
  entries : List (ℕ × String)

namespace HashRing

open Lib.SortedRing

variable (blake3 : List UInt8 → List UInt8)

/-! ## 1. The ring -/

/-- `VIRTUAL_NODES_PER_WORKER`. -/
def virtualNodesPerWorker : ℕ := 150

/-- `u64::to_le_bytes`. -/
def toLeBytes (n : ℕ) : List UInt8 := (List.range 8).map fun i => UInt8.ofNat (n / 256 ^ i)

/-- `u64::from_le_bytes` of the first 8 bytes. -/
def fromLeBytes (bytes : List UInt8) : ℕ :=
  (bytes.take 8).foldr (fun b n => b.toNat + 256 * n) 0

/-- `as_bytes`. -/
def asBytes (s : String) : List UInt8 := s.toUTF8.data.toList

/-- The position of a virtual node. -/
def position (url : String) (vnode : ℕ) : ℕ :=
  fromLeBytes (blake3 (asBytes url ++ asBytes "#" ++ toLeBytes vnode))

/-- The entries of one worker. -/
def virtualNodes (url : String) : List (ℕ × String) :=
  (List.range virtualNodesPerWorker).map fun vnode => (position blake3 url vnode, url)

/-- `HashRing::new`, on the urls of the workers. -/
def new (workers : List String) : HashRing where
  entries := (workers.flatMap (virtualNodes blake3)).mergeSort fun a b => decide (a.1 ≤ b.1)

/-- `hash_position`. -/
def hashPosition (s : String) : ℕ := fromLeBytes (blake3 (asBytes s))

/-- The loop of `find_healthy_url` over the urls in the order they are met. -/
def walk (isHealthy : String → Bool) : List String → List String → Option String
  | [], _ => none
  | url :: rest, checkedUrls =>
    if url ∈ checkedUrls then walk isHealthy rest checkedUrls
    else if isHealthy url then some url
    else walk isHealthy rest (url :: checkedUrls)

/-- `find_healthy_url`. -/
def findHealthyUrl (ring : HashRing) (key : String) (isHealthy : String → Bool) : Option String :=
  if ring.entries = [] then none
  else
    let start := partitionPoint Prod.fst (hashPosition blake3 key) ring.entries
    walk isHealthy ((List.range ring.entries.length).map fun i =>
      (ring.entries.getD ((start + i) % ring.entries.length) (0, "")).2) []

/-! ## 2. The walk -/

variable {blake3} {isHealthy : String → Bool} {W W' : List String} {key : String}

theorem walk_eq_find : ∀ (l checkedUrls : List String), (∀ u ∈ checkedUrls, isHealthy u = false) →
    walk isHealthy l checkedUrls = l.find? isHealthy
  | [], _, _ => rfl
  | url :: rest, checkedUrls, h => by
    rw [walk]
    split
    · rename_i hmem
      rw [walk_eq_find rest checkedUrls h, find?_cons_of_neg (by simp [h url hmem])]
    split
    · rename_i hu
      rw [find?_cons_of_pos hu]
    · rename_i hu
      have hu : isHealthy url = false := by simpa using hu
      rw [walk_eq_find rest (url :: checkedUrls), find?_cons_of_neg (by simp [hu])]
      intro u hmem
      rcases mem_cons.mp hmem with rfl | hmem
      · exact hu
      · exact h u hmem

theorem range_map_rotate (l : List (ℕ × String)) (start : ℕ) :
    ((List.range l.length).map fun i => (l.getD ((start + i) % l.length) (0, "")).2)
      = (l.rotate start).map Prod.snd := by
  refine ext_getElem (by simp) fun i h₁ h₂ => ?_
  have hi : i < l.length := by simpa using h₁
  have hmod : (start + i) % l.length < l.length := Nat.mod_lt _ (by omega)
  rw [getElem_map, getElem_map, getElem_range, getD_eq_getElem?_getD, getElem?_eq_getElem hmod]
  simp [Nat.add_comm]

theorem sorted_entries (W : List String) :
    (new blake3 W).entries.Pairwise fun a b => a.1 ≤ b.1 := by
  refine (pairwise_mergeSort ?_ ?_ _).imp fun h => of_decide_eq_true h
  · intro a b c hab hbc
    rw [decide_eq_true_eq] at hab hbc ⊢
    exact le_trans hab hbc
  · intro a b
    rw [Bool.or_eq_true, decide_eq_true_eq, decide_eq_true_eq]
    exact le_total a.1 b.1

theorem perm_entries (W : List String) :
    (new blake3 W).entries.Perm (W.flatMap (virtualNodes blake3)) :=
  mergeSort_perm _ _

/-- **The lookup** finds the first healthy worker clockwise from the key. -/
theorem findHealthyUrl_eq (W : List String) (key : String) (isHealthy : String → Bool) :
    (new blake3 W).findHealthyUrl blake3 key isHealthy =
      ((clockwise Prod.fst (hashPosition blake3 key) (new blake3 W).entries).map Prod.snd).find?
        isHealthy := by
  unfold findHealthyUrl
  split
  · rename_i h
    rw [h]
    rfl
  · simp only
    rw [range_map_rotate, walk_eq_find _ [] (by simp), rotate_partitionPoint (sorted_entries W)]

/-! ## 3. Smaller rings -/

/-- Distinct virtual nodes of the workers stand at distinct positions. -/
def DistinctPositions (blake3 : List UInt8 → List UInt8) (W : List String) : Prop :=
  ∀ u ∈ W, ∀ u' ∈ W, ∀ v < virtualNodesPerWorker, ∀ v' < virtualNodesPerWorker,
    position blake3 u v = position blake3 u' v' → u = u' ∧ v = v'

theorem mem_entries {e : ℕ × String} : e ∈ (new blake3 W).entries ↔
    e.2 ∈ W ∧ ∃ v < virtualNodesPerWorker, e.1 = position blake3 e.2 v := by
  rw [(perm_entries W).mem_iff, mem_flatMap]
  constructor
  · rintro ⟨u, hu, he⟩
    obtain ⟨v, hv, rfl⟩ := mem_map.mp he
    exact ⟨hu, v, mem_range.mp hv, rfl⟩
  · rintro ⟨hu, v, hv, he⟩
    exact ⟨e.2, hu, mem_map.mpr ⟨v, mem_range.mpr hv, by rw [← he]⟩⟩

theorem entries_inj (hW : DistinctPositions blake3 W) :
    ∀ e ∈ (new blake3 W).entries, ∀ e' ∈ (new blake3 W).entries, e.1 = e'.1 → e = e' := by
  rintro ⟨p, u⟩ he ⟨p', u'⟩ he' (rfl : p = p')
  obtain ⟨hu, v, hv, hp⟩ := mem_entries.mp he
  obtain ⟨hu', v', hv', hp'⟩ := mem_entries.mp he'
  rw [(hW u hu u' hu' v hv v' hv' (hp.symm.trans hp')).1]

theorem entries_perm (hW : DistinctPositions blake3 W) (hperm : W.Perm W') :
    (new blake3 W).entries = (new blake3 W').entries := by
  refine eq_of_perm ?_ (sorted_entries W) (sorted_entries W') (entries_inj hW)
  exact ((perm_entries W).trans (hperm.flatMap_right _)).trans (perm_entries W').symm

/-- **Workers left out of the list** are left out of the ring, and nothing else changes. -/
theorem entries_filter (hW : DistinctPositions blake3 W) (p : String → Bool) :
    (new blake3 (W.filter p)).entries = (new blake3 W).entries.filter fun e => p e.2 := by
  have hnodes : ∀ u, (virtualNodes blake3 u).filter (fun e => p e.2)
      = if p u then virtualNodes blake3 u else [] := by
    intro u
    split
    · rename_i hu
      refine filter_eq_self.mpr fun e he => ?_
      obtain ⟨v, -, rfl⟩ := mem_map.mp he
      exact hu
    · rename_i hu
      refine filter_eq_nil_iff.mpr fun e he => ?_
      obtain ⟨v, -, rfl⟩ := mem_map.mp he
      exact hu
  have hflat : (W.flatMap (virtualNodes blake3)).filter (fun e => p e.2)
      = (W.filter p).flatMap (virtualNodes blake3) := by
    rw [filter_flatMap]
    induction W with
    | nil => rfl
    | cons u W ih =>
      have ih := ih fun a ha b hb => hW a (mem_cons_of_mem _ ha) b (mem_cons_of_mem _ hb)
      rw [flatMap_cons, ih, hnodes]
      by_cases hu : p u = true
      · rw [if_pos hu, filter_cons_of_pos hu, flatMap_cons]
      · rw [if_neg hu, filter_cons_of_neg hu, nil_append]
  have hsub : ∀ e ∈ (new blake3 (W.filter p)).entries, e ∈ (new blake3 W).entries := by
    intro e he
    obtain ⟨hu, hv⟩ := mem_entries.mp he
    exact mem_entries.mpr ⟨(mem_filter.mp hu).1, hv⟩
  refine eq_of_perm ?_ (sorted_entries _) ((sorted_entries W).filter _) fun e he e' he' =>
    entries_inj hW e (hsub e he) e' (hsub e' he')
  refine (perm_entries _).trans ?_
  rw [← hflat]
  exact ((perm_entries W).filter _).symm

theorem find_filter (l : List (ℕ × String)) (p : String → Bool) : ((l.filter fun e => p e.2).map
    Prod.snd).find? (fun _ => true) = (l.map Prod.snd).find? p := by
  induction l with
  | nil => rfl
  | cons e l ih =>
    rw [filter_cons]
    split
    · rename_i he
      rw [map_cons, map_cons, find?_cons_of_pos rfl, find?_cons_of_pos he]
    · rename_i he
      rw [ih, map_cons, find?_cons_of_neg he]

theorem find_filter_of_find {l : List (ℕ × String)} {p : String → Bool} {u : String}
    (q : String → Bool) (h : (l.map Prod.snd).find? p = some u) (hu : q u = true) :
    ((l.filter fun e => q e.2).map Prod.snd).find? p = some u := by
  induction l with
  | nil => cases h
  | cons e l ih =>
    rw [map_cons] at h
    rw [filter_cons]
    by_cases he : p e.2 = true
    · rw [find?_cons_of_pos he] at h
      cases h
      rw [if_pos hu, map_cons, find?_cons_of_pos he]
    · rw [find?_cons_of_neg he] at h
      split
      · rw [map_cons, find?_cons_of_neg he, ih h]
      · exact ih h

theorem findHealthyUrl_filter (hW : DistinctPositions blake3 W) (key : String)
    (isHealthy : String → Bool) :
    (new blake3 W).findHealthyUrl blake3 key isHealthy
      = (new blake3 (W.filter isHealthy)).findHealthyUrl blake3 key fun _ => true := by
  rw [findHealthyUrl_eq, findHealthyUrl_eq, entries_filter hW, clockwise_filter, find_filter]

theorem DistinctPositions.filter (hW : DistinctPositions blake3 W) (p : String → Bool) :
    DistinctPositions blake3 (W.filter p) := fun u hu u' hu' =>
  hW u (mem_filter.mp hu).1 u' (mem_filter.mp hu').1

/-- **Consistent hashing is minimally disruptive.** -/
theorem findHealthyUrl_consistent (hW : DistinctPositions blake3 W) (key : String)
    (isHealthy : String → Bool) :
    ((new blake3 W).findHealthyUrl blake3 key isHealthy
      = (new blake3 (W.filter isHealthy)).findHealthyUrl blake3 key fun _ => true) ∧
    ((new blake3 W).findHealthyUrl blake3 key isHealthy = none ↔ ∀ u ∈ W, isHealthy u = false) ∧
    (∀ W', W'.Perm W → (new blake3 W').findHealthyUrl blake3 key isHealthy
      = (new blake3 W).findHealthyUrl blake3 key isHealthy) ∧
    ∀ w u, (new blake3 W).findHealthyUrl blake3 key isHealthy = some u → u ≠ w →
      (new blake3 (W.filter (· ≠ w))).findHealthyUrl blake3 key isHealthy = some u ∧
      (new blake3 W).findHealthyUrl blake3 key (fun x => isHealthy x && decide (x ≠ w)) = some u := by
  refine ⟨findHealthyUrl_filter hW key isHealthy, ?_, ?_, ?_⟩
  · rw [findHealthyUrl_eq, find?_eq_none]
    simp only [mem_map, mem_clockwise, mem_entries]
    constructor
    · intro h u hu
      have := h u ⟨(position blake3 u 0, u), ⟨hu, 0, by decide, rfl⟩, rfl⟩
      simpa using this
    · rintro h _ ⟨e, ⟨hu, -⟩, rfl⟩
      simp [h e.2 hu]
  · intro W' hperm
    rw [findHealthyUrl_eq, findHealthyUrl_eq, entries_perm hW hperm.symm]
  · intro w u hu hne
    rw [findHealthyUrl_eq] at hu
    have hremoved : (new blake3 (W.filter (· ≠ w))).findHealthyUrl blake3 key isHealthy = some u := by
      rw [findHealthyUrl_eq, entries_filter hW, clockwise_filter]
      exact find_filter_of_find (fun x => decide (x ≠ w)) hu (decide_eq_true hne)
    refine ⟨hremoved, ?_⟩
    rw [findHealthyUrl_filter hW, ← hremoved,
      findHealthyUrl_filter (hW.filter fun x => decide (x ≠ w)) key isHealthy, filter_filter]

/-- A hash for urls of one character. -/
def smallHash (bytes : List UInt8) : List UInt8 := [bytes.getD 2 0, bytes.getD 0 0]

theorem distinctPositions_small : DistinctPositions smallHash ["a", "b"] := by
  have ha : ∀ v < virtualNodesPerWorker, position smallHash "a" v = v + 256 * 97 := by
    decide +kernel
  have hb : ∀ v < virtualNodesPerWorker, position smallHash "b" v = v + 256 * 98 := by
    decide +kernel
  intro u hu u' hu' v hv v' hv' heq
  rw [mem_cons, mem_singleton] at hu hu'
  rcases hu with rfl | rfl
  · rcases hu' with rfl | rfl
    · rw [ha v hv, ha v' hv'] at heq
      exact ⟨rfl, by omega⟩
    · rw [ha v hv, hb v' hv'] at heq
      rw [virtualNodesPerWorker] at hv
      omega
  · rcases hu' with rfl | rfl
    · rw [hb v hv, ha v' hv'] at heq
      rw [virtualNodesPerWorker] at hv'
      omega
    · rw [hb v hv, hb v' hv'] at heq
      exact ⟨rfl, by omega⟩

/-- Two workers of which one has failed. -/
theorem findHealthyUrl_consistent_two : DistinctPositions smallHash ["a", "b"] ∧
    (new smallHash ["a", "b"]).findHealthyUrl smallHash "key" (· = "b")
      = (new smallHash ["b"]).findHealthyUrl smallHash "key" fun _ => true :=
  ⟨distinctPositions_small, (findHealthyUrl_consistent distinctPositions_small "key" (· = "b")).1⟩

end HashRing

end Sglang
