/-
# The future buffer of the overlap scheduler

While a batch runs, the next one is prepared with placeholders in place of the tokens that are not there yet:
`alloc_future_indices` of `overlap_utils.py` gives a batch the indices of its tokens, `store_to_map` writes the
tokens to the cells with these indices when they are there, and `resolve_future` puts them in the place of the
negated indices.

The counter runs modulo `future_limit`, and a batch that begins in front of the limit runs on into the spare
tail of the buffer.  Without speculative decoding a cell holds a token.  With it there are several buffers that
are written and read at the same places; a cell is then a row of all of them, and the buffers come with the
first draft.
-/
import Sglang.Lib.OptionLoops
import Sglang.Lib.RingSpans

namespace Sglang

open Lib List Option Function

/-! ## 1. The functions -/

/-- The indices of a batch, and the slice of the buffer that they are. -/
structure FutureIndices where
  indices : List ℕ
  interval : ℕ × ℕ

/-- The number of indices. -/
def FutureIndices.size (futureIndices : FutureIndices) : ℕ := futureIndices.indices.length

/-- `buf` is `none` until the buffers are there. -/
structure FutureMap (α : Type) where
  futureCt : ℕ
  futureLimit : ℕ
  futureBufferLen : ℕ
  isSpeculative : Bool
  buf : Option (List α)

/-- `max_num_chunks`. -/
def maxNumChunks (chunkedPrefillSize : Option ℕ) (contextLen : ℕ) : ℕ :=
  match chunkedPrefillSize with
  | none => 0
  | some size => if size = 0 then 0 else (contextLen + size - 1) / size

/-- A tensor of one row fits every slice; any other one has to have a row for each cell. -/
def broadcast {α : Type} (values : List α) (n : ℕ) : Option (List α) :=
  if values.length = n then some values
  else
    match values with
    | [value] => some (List.replicate n value)
    | _ => none

namespace FutureMap

variable {α : Type}

/-- `__init__`; `empty` is what a new buffer happens to hold. -/
def new (maxRunningRequests : ℕ) (chunkedPrefillSize : Option ℕ) (contextLen : ℕ) (isSpeculative : Bool)
    (empty : ℕ → α) : FutureMap α :=
  let futureLimit := maxRunningRequests * (3 + maxNumChunks chunkedPrefillSize contextLen)
  let futureBufferLen := futureLimit + 2 * maxRunningRequests
  { futureCt := 0
    futureLimit := futureLimit
    futureBufferLen := futureBufferLen
    isSpeculative := isSpeculative
    buf := if isSpeculative then none else some ((List.range futureBufferLen).map empty) }

/-- `alloc_future_indices`; `none` where the remainder is taken by zero. -/
def allocFutureIndices (map : FutureMap α) (bs : ℕ) : Option (FutureIndices × FutureMap α) :=
  if map.futureLimit = 0 then none
  else
    let curFutureCt := map.futureCt
    let start := curFutureCt + 1
    let stop := curFutureCt + 1 + bs
    some (⟨List.range' start (stop - start), (start, stop)⟩,
      { map with futureCt := (curFutureCt + bs) % map.futureLimit })

/-- `resolve_future` without speculative decoding; `none` where an index is not one of the buffer. -/
def resolveFutureTokenIds (map : FutureMap ℤ) (inputIds : List ℤ) : Option (List ℤ) :=
  map.buf.bind fun buf => inputIds.mapM fun id => if id < 0 then buf[(-id).toNat]? else some id

/-- `resolve_future` with speculative decoding: the rows of the draft. -/
def resolveDraft (map : FutureMap α) (indices : List ℕ) : Option (List α) :=
  map.buf.bind fun buf => indices.mapM fun i => buf[i]?

/-- `is_empty_slice`. -/
def isEmptySlice (map : FutureMap α) (s : ℕ × ℕ) : Bool :=
  min s.1 map.futureBufferLen ≥ min s.2 map.futureBufferLen

/-- An assignment to a slice, which ends where the buffer ends. -/
def assignSlice (buf : List α) (s : ℕ × ℕ) (values : List α) : Option (List α) :=
  let start := min s.1 buf.length
  let stop := min s.2 buf.length
  (broadcast values (stop - start)).map (setSlice buf start)

/-- `store_to_map_for_new_batch`. -/
def storeToMapForNewBatch (map : FutureMap α) (empty : ℕ → α) (futureIndices : FutureIndices)
    (draftInput : List α) : Option (FutureMap α) :=
  if map.isEmptySlice futureIndices.interval then some map
  else
    let buf := map.buf.getD ((List.range map.futureBufferLen).map empty)
    (assignSlice buf futureIndices.interval draftInput).map fun buf => { map with buf := some buf }

/-- `store_to_map`. -/
def storeToMap (map : FutureMap α) (empty : ℕ → α) (futureIndices : FutureIndices) (values : List α) :
    Option (FutureMap α) :=
  if map.isSpeculative then map.storeToMapForNewBatch empty futureIndices values
  else
    map.buf.bind fun buf =>
      (assignSlice buf futureIndices.interval values).map fun buf => { map with buf := some buf }

end FutureMap

/-! ## 2. Runs -/

variable {α : Type} {m contextLen k i n : ℕ} {chunk : Option ℕ} {isSpeculative : Bool} {empty : ℕ → α}

/-- The buffer, the batches that were given indices, the first one first, and what was stored for each. -/
structure FutureBooks (α : Type) where
  map : FutureMap α
  allocs : List FutureIndices
  stored : ℕ → Option (List α)

namespace FutureBooks

/-- The number of indices that were given out since the one of the `k`th batch began. -/
def since (books : FutureBooks α) (k : ℕ) : ℕ := ((books.allocs.drop k).map FutureIndices.size).sum

/-- A batch is live while at most `future_limit` indices have been given out since its own began. -/
def Live (books : FutureBooks α) (k : ℕ) : Prop := books.since k ≤ books.map.futureLimit

instance (books : FutureBooks α) (k : ℕ) : Decidable (books.Live k) := inferInstanceAs (Decidable (_ ≤ _))

/-- A value that was stored for an index of a live batch. -/
def Placeholder (books : FutureBooks α) (i : ℕ) (value : α) : Prop :=
  ∃ (k : ℕ) (futureIndices : FutureIndices) (rows : List α) (j : ℕ),
    books.allocs[k]? = some futureIndices ∧ books.Live k ∧ books.stored k = some rows ∧
      futureIndices.indices[j]? = some i ∧ rows[j]? = some value

end FutureBooks

/-- Batches of at most `max_running_requests` requests are given indices, and what a live batch computed is
stored.  The scheduler stores before the next batch is given indices, when the last one is live. -/
inductive FutureRun (m : ℕ) (chunk : Option ℕ) (contextLen : ℕ) (isSpeculative : Bool) (empty : ℕ → α) :
    FutureBooks α → Prop
  | init : FutureRun m chunk contextLen isSpeculative empty
      ⟨FutureMap.new m chunk contextLen isSpeculative empty, [], fun _ => none⟩
  | alloc {books : FutureBooks α} {bs : ℕ} {futureIndices : FutureIndices} {map : FutureMap α} :
      FutureRun m chunk contextLen isSpeculative empty books → bs ≤ m →
      books.map.allocFutureIndices bs = some (futureIndices, map) →
      FutureRun m chunk contextLen isSpeculative empty
        ⟨map, books.allocs ++ [futureIndices], books.stored⟩
  | store {books : FutureBooks α} {k : ℕ} {futureIndices : FutureIndices} {values : List α}
      {map : FutureMap α} :
      FutureRun m chunk contextLen isSpeculative empty books →
      books.allocs[k]? = some futureIndices → books.Live k →
      books.map.storeToMap empty futureIndices values = some map →
      FutureRun m chunk contextLen isSpeculative empty
        ⟨map, books.allocs, Function.update books.stored k (broadcast values futureIndices.size)⟩

/-- Indices lie in the buffer, and those of batches that follow one another are apart until more than
`future_limit` of them have been given out. -/
structure FutureBooks.Apart (books : FutureBooks α) : Prop where
  inBuffer : ∀ futureIndices ∈ books.allocs, ∀ i ∈ futureIndices.indices,
    1 ≤ i ∧ i < books.map.futureBufferLen
  apart : ∀ early run late, books.allocs = early ++ run ++ late →
    (run.map FutureIndices.size).sum ≤ books.map.futureLimit →
      run.Pairwise (fun a b => a.indices.Disjoint b.indices) ∧ ∀ a ∈ run, a.indices.Nodup

/-! ## 3. One store -/

theorem length_of_broadcast {values rows : List α} (h : broadcast values n = some rows) : rows.length = n := by
  unfold broadcast at h
  split at h
  · rename_i hlen
    cases h
    exact hlen
  · split at h
    · cases h
      simp
    · cases h

theorem FutureMap.assignSlice_spec {buf buf' values : List α} {start size : ℕ} (hfit : start + size ≤ buf.length)
    (h : FutureMap.assignSlice buf (start, start + size) values = some buf') :
    ∃ rows, broadcast values size = some rows ∧ buf' = setSlice buf start rows ∧
      buf'.length = buf.length := by
  simp only [FutureMap.assignSlice, show min start buf.length = start by omega,
    show min (start + size) buf.length - start = size by omega, map_eq_some_iff] at h
  obtain ⟨rows, hrows, rfl⟩ := h
  refine ⟨rows, hrows, rfl, length_setSlice ?_⟩
  rw [length_of_broadcast hrows]
  exact hfit

/-- **A store** changes nothing but the buffer, and there only the slice of its batch. -/
theorem FutureMap.storeToMap_spec {map map' : FutureMap α} {futureIndices : FutureIndices} {values : List α}
    {start size : ℕ} (hinterval : futureIndices.interval = (start, start + size))
    (hfit : start + size ≤ map.futureBufferLen)
    (hlen : ∀ buf, map.buf = some buf → buf.length = map.futureBufferLen)
    (h : map.storeToMap empty futureIndices values = some map') :
    size = 0 ∧ map' = map ∨
    ∃ buf rows, (∀ old, map.buf = some old → old = buf) ∧ buf.length = map.futureBufferLen ∧
      broadcast values size = some rows ∧ map' = { map with buf := some (setSlice buf start rows) } := by
  have hassign : ∀ buf : List α, buf.length = map.futureBufferLen →
      (FutureMap.assignSlice buf (start, start + size) values).map
        (fun buf => { map with buf := some buf }) = some map' →
      ∃ rows, broadcast values size = some rows ∧ map' = { map with buf := some (setSlice buf start rows) } := by
    intro buf hbuf hmap
    obtain ⟨buf', hbuf', rfl⟩ := map_eq_some_iff.mp hmap
    obtain ⟨rows, hrows, rfl, -⟩ := FutureMap.assignSlice_spec (hbuf.symm ▸ hfit) hbuf'
    exact ⟨rows, hrows, rfl⟩
  unfold FutureMap.storeToMap at h
  rw [hinterval] at h
  split at h
  · unfold FutureMap.storeToMapForNewBatch at h
    rw [hinterval] at h
    split at h
    · rename_i hempty
      cases h
      refine Or.inl ⟨?_, rfl⟩
      simp only [FutureMap.isEmptySlice, decide_eq_true_eq] at hempty
      omega
    · have hbuf : (map.buf.getD ((List.range map.futureBufferLen).map empty)).length
          = map.futureBufferLen := by
        rcases hb : map.buf with _ | old
        · simp
        · exact hlen old hb
      obtain ⟨rows, hrows, hmap⟩ := hassign _ hbuf h
      refine Or.inr ⟨_, rows, fun old hold => ?_, hbuf, hrows, hmap⟩
      simp [hold]
  · obtain ⟨buf, hb, h⟩ := bind_eq_some_iff.mp h
    obtain ⟨rows, hrows, hmap⟩ := hassign buf (hlen buf hb) h
    refine Or.inr ⟨buf, rows, fun old hold => ?_, hlen buf hb, hrows, hmap⟩
    rw [hb] at hold
    exact (some_inj.mp hold).symm

/-! ## 4. What a run keeps -/

/-- The number of indices that had been given out when the `k`th batch was given its own. -/
def FutureBooks.begun (books : FutureBooks α) (k : ℕ) : ℕ :=
  ((books.allocs.map FutureIndices.size).take k).sum

theorem FutureBooks.begun_add_since (books : FutureBooks α) (k : ℕ) :
    books.begun k + books.since k = (books.allocs.map FutureIndices.size).sum := by
  rw [FutureBooks.begun, FutureBooks.since, map_drop, sum_take_add_sum_drop]

/-- What holds of the buffer at any time. -/
structure FutureBooks.Inv (m : ℕ) (isSpeculative : Bool) (books : FutureBooks α) : Prop where
  bufferLen : books.map.futureBufferLen = books.map.futureLimit + 2 * m
  ct : books.map.futureCt = (books.allocs.map FutureIndices.size).sum % books.map.futureLimit
  size_le : ∀ a ∈ books.allocs, a.size ≤ m
  limit_pos : books.allocs ≠ [] → 0 < books.map.futureLimit
  slice : ∀ (k : ℕ) (a : FutureIndices), books.allocs[k]? = some a →
    a.indices = List.range' (books.begun k % books.map.futureLimit + 1) a.size ∧
    a.interval = (books.begun k % books.map.futureLimit + 1,
      books.begun k % books.map.futureLimit + 1 + a.size)
  unstored : ∀ k, books.allocs.length ≤ k → books.stored k = none
  length : ∀ buf, books.map.buf = some buf → buf.length = books.map.futureBufferLen
  speculative : books.map.isSpeculative = isSpeculative
  hasBuf : isSpeculative = false → ∃ buf, books.map.buf = some buf
  cell : ∀ i value, books.Placeholder i value → ∃ buf, books.map.buf = some buf ∧ buf[i]? = some value

namespace FutureBooks.Inv

variable {books : FutureBooks α} {a b : FutureIndices}

theorem index_eq (hinv : books.Inv m isSpeculative) {j : ℕ} (ha : books.allocs[k]? = some a)
    (hi : a.indices[j]? = some i) : j < a.size ∧ i = books.begun k % books.map.futureLimit + (1 + j) := by
  have hindices := (hinv.slice k a ha).1
  obtain ⟨hj, hget⟩ := List.getElem?_eq_some_iff.mp hi
  refine ⟨hj, ?_⟩
  rw [← hget]
  simp only [hindices, getElem_range']
  omega

/-- **Batches are apart** while at most `future_limit` indices were given out from the first on. -/
theorem index_ne (hinv : books.Inv m isSpeculative) {k l i j : ℕ} (hkl : k < l) (ha : books.allocs[k]? = some a)
    (hb : books.allocs[l]? = some b) (hi : i ∈ a.indices) (hj : j ∈ b.indices)
    (hring : books.begun (l + 1) ≤ books.begun k + books.map.futureLimit) : i ≠ j := by
  obtain ⟨p, hp⟩ := mem_iff_getElem?.mp hi
  obtain ⟨q, hq⟩ := mem_iff_getElem?.mp hj
  obtain ⟨hpa, rfl⟩ := hinv.index_eq ha hp
  obtain ⟨hqb, rfl⟩ := hinv.index_eq hb hq
  have hapart := spans_apart hkl (by rw [getElem?_map, ha]; rfl) (by rw [getElem?_map, hb]; rfl)
    hpa hqb hring
  simp only [begun]
  omega

theorem index_ne_of_live (hinv : books.Inv m isSpeculative) {k l i j : ℕ} (hkl : k ≠ l)
    (ha : books.allocs[k]? = some a) (hb : books.allocs[l]? = some b) (hka : books.Live k)
    (hlb : books.Live l) (hi : i ∈ a.indices) (hj : j ∈ b.indices) : i ≠ j := by
  have hwithin : ∀ k l, books.Live k → books.begun (l + 1) ≤ books.begun k + books.map.futureLimit := by
    intro k l hlive
    have hk := books.begun_add_since k
    have hl := books.begun_add_since (l + 1)
    have hlive' : books.since k ≤ books.map.futureLimit := hlive
    omega
  rcases Nat.lt_or_gt_of_ne hkl with hlt | hgt
  · exact hinv.index_ne hlt ha hb hi hj (hwithin k l hka)
  · exact (hinv.index_ne hgt hb ha hj hi (hwithin l k hlb)).symm

/-- The slice of a batch lies in the buffer. -/
theorem fits (hinv : books.Inv m isSpeculative) (ha : books.allocs[k]? = some a) :
    books.begun k % books.map.futureLimit + 1 + a.size ≤ books.map.futureBufferLen := by
  have hmem := mem_of_getElem? ha
  have hsize := hinv.size_le a hmem
  -- the spare tail of the buffer holds a whole batch
  have hlt := Nat.mod_lt (books.begun k) (hinv.limit_pos (ne_nil_of_mem hmem))
  have hlen := hinv.bufferLen
  omega

/-- A batch of two behind five indices, where six make a round. -/
example : (FutureMap.allocFutureIndices
    { FutureMap.new 2 none 0 false (fun _ => (0 : ℤ)) with futureCt := 5 } 2).map
      (fun r => (r.1.indices, r.2.futureCt, r.2.futureBufferLen)) = some ([6, 7], 1, 10) := by decide

theorem new (m : ℕ) (chunk : Option ℕ) (contextLen : ℕ) (isSpeculative : Bool) (empty : ℕ → α) :
    FutureBooks.Inv m isSpeculative
      ⟨FutureMap.new m chunk contextLen isSpeculative empty, [], fun _ => none⟩ := by
  refine ⟨rfl, by simp [FutureMap.new], by simp, by simp, by simp, fun _ _ => rfl, ?_, rfl, ?_, ?_⟩
  · intro buf hbuf
    cases isSpeculative
    · simp only [FutureMap.new, Bool.false_eq_true, if_false, some_inj] at hbuf
      simp [← hbuf, FutureMap.new]
    · simp [FutureMap.new] at hbuf
  · rintro rfl
    exact ⟨_, rfl⟩
  · rintro i value ⟨k, a, rows, j, ha, -⟩
    simp at ha

theorem alloc {bs : ℕ} {map : FutureMap α} (hinv : books.Inv m isSpeculative) (hbs : bs ≤ m)
    (h : books.map.allocFutureIndices bs = some (a, map)) :
    FutureBooks.Inv m isSpeculative ⟨map, books.allocs ++ [a], books.stored⟩ := by
  unfold FutureMap.allocFutureIndices at h
  split at h
  · cases h
  rename_i hlimit
  obtain ⟨rfl, rfl⟩ := h
  have hsize : (⟨List.range' (books.map.futureCt + 1) (books.map.futureCt + 1 + bs - (books.map.futureCt + 1)),
      (books.map.futureCt + 1, books.map.futureCt + 1 + bs)⟩ : FutureIndices).size = bs := by
    simp [FutureIndices.size]
  generalize hfresh : (⟨List.range' (books.map.futureCt + 1)
      (books.map.futureCt + 1 + bs - (books.map.futureCt + 1)),
      (books.map.futureCt + 1, books.map.futureCt + 1 + bs)⟩ : FutureIndices) = fresh at hsize
  have hbegun : ∀ k ≤ books.allocs.length, FutureBooks.begun
      ⟨{ books.map with futureCt := (books.map.futureCt + bs) % books.map.futureLimit },
        books.allocs ++ [fresh], books.stored⟩ k = books.begun k := by
    intro k hk
    simp only [begun, map_append]
    rw [take_append_of_le_length (by simpa using hk)]
  have hall : books.begun books.allocs.length = (books.allocs.map FutureIndices.size).sum := by
    rw [begun, ← length_map FutureIndices.size, take_length]
  refine ⟨hinv.bufferLen, ?_, ?_, fun _ => Nat.pos_of_ne_zero hlimit, ?_, ?_, hinv.length,
    hinv.speculative, hinv.hasBuf, ?_⟩
  · simp only [map_append, sum_append, map_cons, map_nil, sum_singleton, hsize]
    rw [hinv.ct, Nat.mod_add_mod]
  · intro b hb
    rcases mem_append.mp hb with hb | hb
    · exact hinv.size_le b hb
    · rw [mem_singleton.mp hb, hsize]
      exact hbs
  · intro k b hb
    rcases Nat.lt_trichotomy k books.allocs.length with hlt | rfl | hgt
    · rw [getElem?_append_left hlt] at hb
      rw [hbegun k hlt.le]
      exact hinv.slice k b hb
    · rw [getElem?_concat_length, some_inj] at hb
      subst hb
      rw [hbegun _ le_rfl, hall, hsize, ← hinv.ct, ← hfresh]
      simp
    · rw [getElem?_eq_none (by simpa using hgt)] at hb
      cases hb
  · intro k hk
    simp only [length_append, length_singleton] at hk
    exact hinv.unstored k (by omega)
  · rintro i value ⟨k, b, rows, j, hb, hlive, hrows, hi, hj⟩
    have hk : k < books.allocs.length := by
      by_contra hge
      simp [hinv.unstored k (Nat.le_of_not_lt hge)] at hrows
    refine hinv.cell i value ⟨k, b, rows, j, ?_, ?_, hrows, hi, hj⟩
    · rwa [getElem?_append_left hk] at hb
    · -- fewer indices had been given out before
      have hold := books.begun_add_since k
      have hnew := FutureBooks.begun_add_since
        ⟨{ books.map with futureCt := (books.map.futureCt + bs) % books.map.futureLimit },
          books.allocs ++ [fresh], books.stored⟩ k
      rw [hbegun k hk.le] at hnew
      simp only [map_append, sum_append] at hnew
      simp only [FutureBooks.Live] at hlive ⊢
      omega

/-- **A store for a live batch** leaves the cells of the other live batches alone. -/
theorem store {values : List α} {map : FutureMap α} (hinv : books.Inv m isSpeculative)
    (ha : books.allocs[k]? = some a) (hlive : books.Live k)
    (h : books.map.storeToMap empty a values = some map) :
    FutureBooks.Inv m isSpeculative
      ⟨map, books.allocs, Function.update books.stored k (broadcast values a.size)⟩ := by
  have hk : k < books.allocs.length := (List.getElem?_eq_some_iff.mp ha).1
  have hunstored : ∀ l, books.allocs.length ≤ l →
      Function.update books.stored k (broadcast values a.size) l = none := by
    intro l hl
    rw [update_of_ne (by omega)]
    exact hinv.unstored l hl
  rcases FutureMap.storeToMap_spec (hinv.slice k a ha).2 (hinv.fits ha) hinv.length h with
    ⟨hsize, rfl⟩ | ⟨buf, rows, hold, hbuf, hrows, rfl⟩
  · refine ⟨hinv.bufferLen, hinv.ct, hinv.size_le, hinv.limit_pos, hinv.slice, hunstored, hinv.length,
      hinv.speculative, hinv.hasBuf, ?_⟩
    rintro i value ⟨l, b, rows, j, hb, hlb, hstored, hi, hj⟩
    rcases eq_or_ne l k with rfl | hne
    · -- a batch without requests has no index
      rw [ha, some_inj] at hb
      subst hb
      have hlt := (hinv.index_eq ha hi).1
      omega
    · have hstored := (update_of_ne hne (broadcast values a.size) books.stored).symm.trans hstored
      exact hinv.cell i value ⟨l, b, rows, j, hb, hlb, hstored, hi, hj⟩
  · have hfit := hinv.fits ha
    have hlenrows := length_of_broadcast hrows
    refine ⟨hinv.bufferLen, hinv.ct, hinv.size_le, hinv.limit_pos, hinv.slice, hunstored, ?_,
      hinv.speculative, fun _ => ⟨_, rfl⟩, ?_⟩
    · rintro _ ⟨⟩
      exact (length_setSlice (by omega)).trans hbuf
    rintro i value ⟨l, b, rows', j, hb, hlb, hstored, hi, hj⟩
    refine ⟨_, rfl, ?_⟩
    rw [getElem?_setSlice (by omega)]
    rcases eq_or_ne l k with rfl | hne
    · rw [ha, some_inj] at hb
      subst hb
      have hstored := (update_self l (broadcast values a.size) books.stored).symm.trans hstored
      rw [hrows, some_inj] at hstored
      subst hstored
      obtain ⟨hlt, rfl⟩ := hinv.index_eq ha hi
      rw [if_pos (by omega), show ∀ x, x + (1 + j) - (x + 1) = j by omega]
      exact hj
    · have hstored := (update_of_ne hne (broadcast values a.size) books.stored).symm.trans hstored
      obtain ⟨buf', hbuf', hcell⟩ := hinv.cell i value ⟨l, b, rows', j, hb, hlb, hstored, hi, hj⟩
      rw [if_neg, ← hold buf' hbuf']
      · exact hcell
      · rintro ⟨hge, hlt⟩
        refine hinv.index_ne_of_live hne hb ha hlb hlive (mem_of_getElem? hi) ?_ rfl
        rw [(hinv.slice k a ha).1, mem_range'_1]
        omega

theorem of_run (h : FutureRun m chunk contextLen isSpeculative empty books) : books.Inv m isSpeculative := by
  induction h with
  | init => exact new m chunk contextLen isSpeculative empty
  | alloc _ hbs halloc ih => exact ih.alloc hbs halloc
  | store _ ha hlive hstore ih => exact ih.store ha hlive hstore

theorem indicesApart (hinv : books.Inv m isSpeculative) : books.Apart := by
  refine ⟨fun a ha i hi => ?_, fun early run late hsplit hsum => ⟨?_, fun a ha => ?_⟩⟩
  · obtain ⟨k, hk⟩ := mem_iff_getElem?.mp ha
    obtain ⟨j, hj⟩ := mem_iff_getElem?.mp hi
    obtain ⟨hlt, rfl⟩ := hinv.index_eq hk hj
    have hfit := hinv.fits hk
    omega
  · rw [pairwise_iff_getElem]
    intro p q hp hq hpq i hi hj
    have hget : ∀ r (hr : r < run.length), books.allocs[early.length + r]? = some run[r] := by
      intro r hr
      rw [hsplit, append_assoc, getElem?_append_right (Nat.le_add_right _ _),
        Nat.add_sub_cancel_left, getElem?_append_left hr, getElem?_eq_getElem hr]
    have hbegun : ∀ r ≤ run.length, books.begun (early.length + r) =
        (early.map FutureIndices.size).sum + ((run.map FutureIndices.size).take r).sum := by
      intro r hr
      rw [begun, hsplit, map_append, map_append, append_assoc,
        ← length_map FutureIndices.size, take_length_add_append,
        sum_append, take_append_of_le_length (by simpa using hr)]
    have hle : ((run.map FutureIndices.size).take (q + 1)).sum ≤ (run.map FutureIndices.size).sum :=
      (take_sublist _ _).sum_le_sum fun _ _ => Nat.zero_le _
    refine hinv.index_ne (Nat.add_lt_add_left hpq _) (hget p hp) (hget q hq) hi hj ?_ rfl
    rw [Nat.add_assoc, hbegun (q + 1) hq, hbegun p hp.le]
    omega
  · obtain ⟨k, hk⟩ := mem_iff_getElem?.mp (hsplit ▸
      mem_append_left late (mem_append_right early ha) : a ∈ books.allocs)
    rw [(hinv.slice k a hk).1]
    exact nodup_range'

end FutureBooks.Inv

/-! ## 5. Placeholders -/

/-- A live placeholder is in the buffer, and its negation is negative. -/
theorem FutureBooks.Inv.pos_of_placeholder {books : FutureBooks α} {value : α}
    (hinv : books.Inv m isSpeculative) (h : books.Placeholder i value) : 0 < i := by
  obtain ⟨k, a, rows, j, ha, -, -, hi, -⟩ := h
  obtain ⟨-, rfl⟩ := hinv.index_eq ha hi
  omega

/-- **The future buffer never aliases live entries.**  Placeholders stand for the tokens that were stored
for them as long as at most `future_limit` indices have been given out since their batch was given its own;
with speculative decoding, for the rows of the draft. -/
theorem futures_never_alias (m : ℕ) (chunk : Option ℕ) (contextLen : ℕ) :
    (∀ (empty : ℕ → ℤ) (books : FutureBooks ℤ), FutureRun m chunk contextLen false empty books →
      books.Apart ∧
      ∀ inputIds tokens, List.Forall₂ (fun id token : ℤ =>
          0 ≤ id ∧ token = id ∨ ∃ i : ℕ, id = -i ∧ books.Placeholder i token) inputIds tokens →
        books.map.resolveFutureTokenIds inputIds = some tokens) ∧
    ∀ (α : Type) (empty : ℕ → α) (books : FutureBooks α), FutureRun m chunk contextLen true empty books →
      books.Apart ∧
      ∀ indices rows, indices ≠ [] → List.Forall₂ books.Placeholder indices rows →
        books.map.resolveDraft indices = some rows := by
  refine ⟨fun empty books h => ?_, fun α empty books h => ?_⟩
  · have hinv := FutureBooks.Inv.of_run h
    obtain ⟨buf, hbuf⟩ := hinv.hasBuf rfl
    refine ⟨hinv.indicesApart, fun inputIds tokens hall => ?_⟩
    rw [FutureMap.resolveFutureTokenIds, hbuf]
    refine mapM_eq_of_forall₂ (hall.imp fun id token hid => ?_)
    rcases hid with ⟨hpos, rfl⟩ | ⟨i, rfl, hplace⟩
    · rw [if_neg (by omega)]
    · have hi := hinv.pos_of_placeholder hplace
      obtain ⟨buf', hbuf', hcell⟩ := hinv.cell i token hplace
      rw [hbuf, some_inj] at hbuf'
      rw [if_pos (by omega), hbuf', Int.neg_neg]
      exact hcell
  · have hinv := FutureBooks.Inv.of_run h
    refine ⟨hinv.indicesApart, fun indices rows hne hall => ?_⟩
    obtain ⟨buf, hbuf⟩ : ∃ buf, books.map.buf = some buf := by
      cases hall with
      | nil => exact absurd rfl hne
      | cons hplace _ =>
        obtain ⟨buf, hbuf, -⟩ := hinv.cell _ _ hplace
        exact ⟨buf, hbuf⟩
    rw [FutureMap.resolveDraft, hbuf]
    refine mapM_eq_of_forall₂ (hall.imp fun i row hrow => ?_)
    obtain ⟨buf', hbuf', hcell⟩ := hinv.cell i row hrow
    rw [hbuf, some_inj] at hbuf'
    rw [hbuf']
    exact hcell

/-- Four batches of two, the last one at the start of the buffer again: the placeholder of a token that was
stored for the second batch still stands for it. -/
theorem futures_never_alias_wrapped : ∃ books : FutureBooks ℤ,
    FutureRun 2 none 0 false (fun _ => 0) books ∧
      books.allocs.map FutureIndices.indices = [[1, 2], [3, 4], [5, 6], [1, 2]] ∧
      books.Placeholder 3 7 ∧ books.map.resolveFutureTokenIds [-3, 5] = some [7, 5] := by
  have h₁ := @FutureRun.alloc ℤ 2 none 0 false (fun _ => 0) _ 2 _ _ .init (by decide) rfl
  have h₂ := @FutureRun.alloc _ _ _ _ _ _ _ 2 _ _ h₁ (by decide) rfl
  have h₃ := @FutureRun.store _ _ _ _ _ _ _ 1 _ [7, 8] _ h₂ rfl (by decide) rfl
  have h₄ := @FutureRun.alloc _ _ _ _ _ _ _ 2 _ _ h₃ (by decide) rfl
  have h₅ := @FutureRun.alloc _ _ _ _ _ _ _ 2 _ _ h₄ (by decide) rfl
  refine ⟨_, h₅, rfl, ?hplace, ((futures_never_alias 2 none 0).1 _ _ h₅).2 _ _
    (.cons (.inr ⟨3, rfl, ?hplace⟩) (.cons (.inl ⟨by decide, rfl⟩) .nil))⟩
  exact ⟨1, _, [7, 8], 0, rfl, by decide, rfl, rfl, rfl⟩

end Sglang
