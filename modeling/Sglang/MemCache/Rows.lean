/-
# Rows of the request pool

Every allocation for a batch ends in the same way: each request's row is written up to where it
was, and behind that with the slots a kernel wrote for it.  `writeRows` is that common form; a
prefill gives the cached prefix to be written, a decode finds its row in place.  `writeRows_spec`
is the one statement about it: the new row of each request goes on in whole pages, and together
the requests took the first free pages, each one once.
-/
import Sglang.MemCache.Request

namespace Sglang

open Lib PagedTokenToKVPoolAllocator List

/-! ## 1. Reading and writing rows -/

namespace ReqToTokenPool

variable {P : ReqToTokenPool} {i k n start : ℕ} {values : List ℕ}

@[simp] theorem length_row (P : ReqToTokenPool) (idx n : ℕ) : (P.row idx n).length = n := by
  simp [row]

theorem getElem?_row (P : ReqToTokenPool) (i n k : ℕ) :
    (P.row i n)[k]? = if k < n then some (P.reqToToken i k) else none := by
  by_cases h : k < n
  · simp [row, h]
  · simp [row, h]

theorem row_take (hk : k ≤ n) : (P.row i n).take k = P.row i k := by
  apply ext_getElem?
  intro x
  rw [getElem?_take, getElem?_row, getElem?_row]
  by_cases h : x < k
  · rw [if_pos h, if_pos (by omega), if_pos h]
  · rw [if_neg h, if_neg h]

theorem row_congr {Q : ReqToTokenPool} (h : Q.reqToToken i = P.reqToToken i) (n : ℕ) :
    Q.row i n = P.row i n := by
  rw [row, row, h]

theorem write_ne {j : ℕ} (h : j ≠ i) : (P.write i start values).reqToToken j = P.reqToToken j := by
  simp [write, h]

theorem row_write (h : start + values.length ≤ n) :
    (P.write i start values).row i n
      = P.row i start ++ values ++ (P.row i n).drop (start + values.length) := by
  apply ext_getElem?
  intro x
  have hlen : (P.row i start ++ values).length = start + values.length := by simp
  rw [getElem?_row]
  rcases Nat.lt_or_ge x (start + values.length) with h1 | h1
  · rw [getElem?_append_left (by rw [hlen]; exact h1), if_pos (by omega)]
    rcases Nat.lt_or_ge x start with h2 | h2
    · rw [getElem?_append_left (by simpa using h2), getElem?_row]
      simp [write, Nat.not_le.mpr h2]
    · have hlt : x - start < values.length := by omega
      simp [write, h2, h1, getElem?_eq_getElem hlt]
  · rw [getElem?_append_right (by rw [hlen]; exact h1), hlen, getElem?_drop,
      getElem?_row, Nat.add_sub_cancel' h1]
    by_cases h2 : x < n
    · rw [if_pos h2, if_pos h2]
      simp [write, Nat.not_lt.mpr h1]
    · rw [if_neg h2, if_neg h2]

theorem write_row_self (P : ReqToTokenPool) (i n : ℕ) : P.write i 0 (P.row i n) = P := by
  have h : (fun k => if 0 ≤ k ∧ k < 0 + (P.row i n).length then (P.row i n).getD (k - 0) 0
      else P.reqToToken i k) = P.reqToToken i := by
    funext k
    by_cases hk : k < n
    · rw [if_pos ⟨Nat.zero_le _, by simpa using hk⟩, getD_eq_getElem?_getD, getElem?_row,
        Nat.sub_zero, if_pos hk]
      rfl
    · rw [if_neg (by simpa using hk)]
  rw [write, h, Function.update_eq_self]

end ReqToTokenPool

/-! ## 2. Batches of rows -/

/-- What one request of a batch writes: its row so far, the number of new slots behind it, and how
much of the row belongs to the tree. -/
structure RowSpan where
  idx : ℕ
  pre : List ℕ
  ext : ℕ
  keep : ℕ

namespace RowSpan

/-- The request to the kernel. -/
def item (s : RowSpan) : ExtendItem where
  prefixLen := s.pre.length
  seqLen := s.pre.length + s.ext
  lastLoc := (s.pre.getLast?.map fun x : ℕ => (x : ℤ)).getD (-1)

/-- The row so far is paged, and the tree's part of it ends with a page. -/
structure Ok (p : ℕ) (s : RowSpan) : Prop where
  paged : Paged p s.pre
  aligned : p ∣ s.keep
  keep_le : s.keep ≤ s.pre.length

end RowSpan

namespace ReqToTokenPool

/-- The rows of a batch are written one after the other. -/
def writeRows (P : ReqToTokenPool) : List RowSpan → List ℕ → ReqToTokenPool
  | [], _ => P
  | s :: spans, out =>
    writeRows ((P.write s.idx 0 s.pre).write s.idx s.pre.length (out.take s.ext)) spans
      (out.drop s.ext)

/-- One request of the batch. -/
theorem extend_row {p start : ℕ} {freePages : List ℕ} (hp : 0 < p) {s : RowSpan} (hs : s.Ok p)
    (P : ReqToTokenPool) (hfree : start + newPages p s.item ≤ freePages.length) :
    (extendProgram p freePages start s.item).length = s.ext ∧
    ((P.write s.idx 0 s.pre).write s.idx s.pre.length
        (extendProgram p freePages start s.item)).row s.idx (s.pre.length + s.ext)
      = s.pre ++ extendProgram p freePages start s.item ∧
    Paged p (s.pre ++ extendProgram p freePages start s.item) ∧
    heads p ((s.pre ++ extendProgram p freePages start s.item).drop s.keep)
      = heads p (s.pre.drop s.keep) ++ (freePages.drop start).take (newPages p s.item) := by
  obtain ⟨hlen, hpaged, hheads⟩ := extendProgram_spec hp s.item hs.paged rfl
    (Nat.le_add_right _ _) (by
      intro hne
      have hgl : s.pre.getLast? = some (s.pre.getLastD 0) := by
        rw [getLastD_eq_getLast?, getLast?_eq_getLast_of_ne_nil hne]
        rfl
      rw [RowSpan.item, hgl]
      rfl) hfree
  have hlen' : (extendProgram p freePages start s.item).length = s.ext := by
    rw [hlen]
    exact Nat.add_sub_cancel_left _ _
  generalize extendProgram p freePages start s.item = prog at *
  refine ⟨hlen', ?_, hpaged, ?_⟩
  · have hpre : (P.write s.idx 0 s.pre).row s.idx s.pre.length = s.pre := by
      rw [row_write (by omega)]
      simp [row]
    rw [row_write (by omega), hpre, hlen', drop_eq_nil_of_le (by simp), append_nil]
  · obtain ⟨k, hk⟩ := hs.aligned
    have hle : k ≤ (heads p s.pre).length := by
      rw [length_heads]
      have := pageCount_mono p hs.keep_le
      rwa [hk, pageCount_mul hp] at this
    rw [hk, heads_drop hp, hheads, heads_drop hp, drop_append_of_le_length hle]

/-- **A batch takes the first free pages.** -/
theorem writeRows_spec {p : ℕ} {freePages : List ℕ} (hp : 0 < p) : ∀ (spans : List RowSpan)
    (P : ReqToTokenPool) (start : ℕ), (∀ s ∈ spans, s.Ok p) → (spans.map RowSpan.idx).Nodup →
    start + getNumNewPages p (spans.map RowSpan.item) ≤ freePages.length →
    ∀ P', P.writeRows spans (allocExtendKernel p freePages start (spans.map RowSpan.item)) = P' →
    P'.freeSlots = P.freeSlots ∧
    (∀ i ∉ spans.map RowSpan.idx, P'.reqToToken i = P.reqToToken i) ∧
    (∀ s ∈ spans, Paged p (P'.row s.idx (s.pre.length + s.ext)) ∧
      P'.row s.idx s.pre.length = s.pre) ∧
    (spans.map fun s => (heads p ((P'.row s.idx (s.pre.length + s.ext)).drop s.keep) :
        Multiset ℕ)).sum
      = (spans.map fun s => (heads p (s.pre.drop s.keep) : Multiset ℕ)).sum
        + ((freePages.drop start).take (getNumNewPages p (spans.map RowSpan.item)) : List ℕ) := by
  intro spans
  induction spans with
  | nil =>
    rintro P start - - - P' rfl
    simp [writeRows, getNumNewPages]
  | cons s spans ih =>
    intro P start hok hnd hfree P' hP'
    have hsum : getNumNewPages p ((s :: spans).map RowSpan.item)
        = newPages p s.item + getNumNewPages p (spans.map RowSpan.item) := by
      simp [getNumNewPages]
    rw [hsum] at hfree ⊢
    rw [map_cons, nodup_cons] at hnd
    obtain ⟨hlen, hrow, hpaged, hheads⟩ := extend_row hp (hok s mem_cons_self) P
      (show start + newPages p s.item ≤ freePages.length by omega)
    rw [map_cons, allocExtendKernel, writeRows, take_left' hlen, drop_left' hlen] at hP'
    generalize hP₁ : (P.write s.idx 0 s.pre).write s.idx s.pre.length
      (extendProgram p freePages start s.item) = P₁ at hP' hrow
    obtain ⟨hslots, hother, hrows, hledger⟩ := ih P₁ (start + newPages p s.item)
      (fun x hx => hok x (mem_cons_of_mem _ hx)) hnd.2 (by omega) P' hP'
    -- the later requests write other rows
    have hself : ∀ n, P'.row s.idx n = P₁.row s.idx n := fun n => row_congr (hother _ hnd.1) n
    refine ⟨by rw [hslots, ← hP₁]; rfl, ?_, ?_, ?_⟩
    · intro i hi
      rw [map_cons, mem_cons, not_or] at hi
      rw [hother i hi.2, ← hP₁, write_ne hi.1, write_ne hi.1]
    · intro x hx
      rcases mem_cons.mp hx with rfl | hx
      · refine ⟨by rw [hself, hrow]; exact hpaged, ?_⟩
        rw [hself, ← row_take (Nat.le_add_right _ x.ext), hrow, take_left]
      · exact hrows x hx
    · rw [map_cons, sum_cons, map_cons, sum_cons, hledger, hself, hrow, hheads,
        take_add, drop_drop, ← Multiset.coe_add, ← Multiset.coe_add]
      abel

end ReqToTokenPool

/-! ## 3. The three writers of the source -/

namespace KVSystem

open ReqToTokenPool

/-- What a prefill writes for a request. -/
def extendSpan (S : KVSystem) (r : ReqId) : RowSpan where
  idx := (S.reqs r).reqPoolIdx.getD 0
  pre := (S.reqs r).prefixIndices
  ext := (S.reqs r).fillIds.length - (S.reqs r).prefixIndices.length
  keep := (S.reqs r).cacheProtectedLen

/-- What a request that has its row writes when it grows from `cur` to `nxt`. -/
def growSpan (S : KVSystem) (r : ReqId) (cur nxt : ℕ) : RowSpan where
  idx := (S.reqs r).reqPoolIdx.getD 0
  pre := S.pool.row ((S.reqs r).reqPoolIdx.getD 0) cur
  ext := nxt - cur
  keep := (S.reqs r).cacheProtectedLen

theorem writeCacheIndices_eq : ∀ (reqs : List ReqId) (S : KVSystem) (out : List ℕ),
    S.writeCacheIndices reqs out = { S with pool := S.pool.writeRows (reqs.map S.extendSpan) out }
  | [], _, _ => rfl
  | r :: reqs, S, out => by
    rw [writeCacheIndices, writeCacheIndices_eq reqs]
    rfl

/-- Growing rows in place: the part that is there is not touched, whatever the rows before. -/
theorem writeRows_growSpan (S : KVSystem) (cur nxt : ReqId → ℕ) : ∀ (reqs : List ReqId)
    (P : ReqToTokenPool) (out : List ℕ),
    (reqs.map fun r => (S.reqs r).reqPoolIdx.getD 0).Nodup →
    (∀ r ∈ reqs, P.reqToToken ((S.reqs r).reqPoolIdx.getD 0)
      = S.pool.reqToToken ((S.reqs r).reqPoolIdx.getD 0)) →
    ({ S with pool := P } : KVSystem).assignReqToTokenPool (reqs.map fun r => (r, cur r, nxt r)) out
      = { S with pool := P.writeRows (reqs.map fun r => S.growSpan r (cur r) (nxt r)) out }
  | [], _, _, _, _ => rfl
  | r :: reqs, P, out, hnd, hsame => by
    rw [map_cons, nodup_cons] at hnd
    have hself : P.write ((S.reqs r).reqPoolIdx.getD 0) 0
        (S.pool.row ((S.reqs r).reqPoolIdx.getD 0) (cur r)) = P := by
      rw [← row_congr (hsame r mem_cons_self), write_row_self]
    rw [map_cons, map_cons, writeRows]
    simp only [growSpan, hself, length_row]
    refine writeRows_growSpan S cur nxt reqs _ _ hnd.2 fun x hx => ?_
    rw [write_ne, hsame x (mem_cons_of_mem _ hx)]
    intro e
    exact hnd.1 (mem_map.mpr ⟨x, hx, e⟩)

/-- The next slot of each row is a growth by one. -/
theorem writeNext_eq : ∀ (reqs : List ReqId) (S : KVSystem) (out : List ℕ),
    S.writeNext reqs out = S.assignReqToTokenPool
      (reqs.map fun r => (r, (S.reqs r).kvCommittedLen, (S.reqs r).kvCommittedLen + 1)) out
  | [], _, _ => rfl
  | r :: reqs, S, out => by
    rw [writeNext, writeNext_eq reqs, map_cons, assignReqToTokenPool]
    simp

end KVSystem

end Sglang
