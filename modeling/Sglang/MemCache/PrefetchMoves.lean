/-
# What the prefetch thread and the IO thread do with host slots

An operation holds the slots that a thread will still release (`pending`) and those that have arrived
(`arrived`).  Each step of the two threads keeps the two together the same, but for a page that it puts
on the release queue (`Moves`, `ThreadStep`).

The threads read `completed_tokens` at different moments.  They agree because whoever ends a prefetch
marks the operation first, and a marked operation refuses every `increment` (`Closed`).
-/
import Sglang.MemCache.PrefetchEnds

namespace Sglang

open Lib List

namespace PrefetchOperation

/-! ## 1. What an operation holds -/

/-- The slots that the prefetch thread or the IO thread will still release. -/
def pending (pageSize : ℕ) (op : PrefetchOperation) : List ℕ :=
  match op.stage with
  | .queued => op.hostIndices
  | .revoking pages => pages.flatten
  | .trimming pages => pages.flatten ++ op.hostIndices.take (op.hashLen * pageSize)
  | .buffered => op.hostIndices
  | .transferring _ _ => op.hostIndices.drop op.completedTokens
  | .releasing pages => pages.flatten
  | .finished => []

/-- The slots that have been filled. -/
def arrived (op : PrefetchOperation) : List ℕ := op.hostIndices.take op.completedTokens

/-- Nothing has been fetched before the IO thread starts. -/
def Unfetched (op : PrefetchOperation) : Prop :=
  match op.stage with
  | .queued | .revoking _ | .trimming _ | .buffered => True
  | _ => False

/-- The operation takes no `increment` any more. -/
def Closed (op : PrefetchOperation) : Prop :=
  op.terminated = true ∨
    match op.stage with
    | .revoking _ | .releasing _ | .finished => True
    | _ => False

/-- The operation has been revoked. -/
def Revoked (op : PrefetchOperation) : Prop :=
  op.completedTokens = 0 ∧
    match op.stage with
    | .revoking _ | .finished => True
    | _ => False

/-- What holds of an operation that was submitted with the slots `H`. -/
structure Sound (pageSize : ℕ) (H : List ℕ) (op : PrefetchOperation) : Prop where
  tokenLen : op.tokenLen = H.length
  hash_le : op.hashLen * pageSize ≤ H.length
  completed_le : op.completedTokens ≤ op.hashLen * pageSize
  dvd : pageSize ∣ op.completedTokens
  indices : op.hostIndices = H ∨ op.hostIndices = H.take (op.hashLen * pageSize)
  queued : op.stage = .queued → op.hostIndices = H
  unfetched : op.Unfetched → op.completedTokens = 0
  batch : ∀ start prev, op.stage = .transferring start prev →
    prev = start * pageSize ∧ start < op.hashLen ∧
      op.completedTokens ≤ prev + min storageBatchSize (op.hashLen - start) * pageSize

/-- A thread has moved on: `out` has gone to the release queue. -/
structure Moves (pageSize : ℕ) (H : List ℕ) (op op' : PrefetchOperation) (out : List ℕ) : Prop where
  sound : Sound pageSize H op'
  balance : (op'.pending pageSize : Multiset ℕ) + op'.arrived + out
    = (op.pending pageSize : Multiset ℕ) + op.arrived
  closed : op.Closed → op'.Closed ∧ op'.arrived = op.arrived
  revoked : op.Revoked → op'.Revoked

section

variable {pageSize k : ℕ} {H : List ℕ} {op : PrefetchOperation}

/-- The slots that arrived are the first ones of the prefetch. -/
theorem Sound.arrived_eq (hs : Sound pageSize H op) : op.arrived = H.take op.completedTokens := by
  rw [arrived]
  rcases hs.indices with he | he
  · rw [he]
  · rw [he, take_take, min_eq_left hs.completed_le]

/-- A new operation with a slot for each token. -/
theorem Sound.new (hlen : H.length = k) : Sound pageSize H (.new H k) :=
  ⟨hlen.symm, by simp [PrefetchOperation.new], by simp [PrefetchOperation.new],
    by simp [PrefetchOperation.new], Or.inl rfl, fun _ => rfl, fun _ => rfl, nofun⟩

theorem Sound.markTerminate (hs : Sound pageSize H op) : Sound pageSize H op.markTerminate :=
  ⟨hs.tokenLen, hs.hash_le, hs.completed_le, hs.dvd, hs.indices, hs.queued, hs.unfetched, hs.batch⟩

theorem closed_markTerminate (op : PrefetchOperation) : op.markTerminate.Closed := Or.inl rfl

theorem Moves.refl (hs : Sound pageSize H op) : Moves pageSize H op op [] :=
  ⟨hs, by simp, fun h => ⟨h, rfl⟩, id⟩

theorem Moves.markTerminate (hs : Sound pageSize H op) : Moves pageSize H op op.markTerminate [] :=
  ⟨hs.markTerminate, add_zero _, fun _ => ⟨closed_markTerminate op, rfl⟩, id⟩

theorem Revoked.closed (hr : op.Revoked) : op.Closed := by
  obtain ⟨-, h⟩ := hr
  refine Or.inr ?_
  cases hst : op.stage <;> simp_all

theorem Revoked.arrived (hr : op.Revoked) : op.arrived = [] := by
  rw [PrefetchOperation.arrived, hr.1, take_zero]

/-! ## 2. What the two threads do with an operation -/

variable (hs : Sound pageSize H op)

include hs

/-- A thread goes on to another stage and puts `out` on the release queue. -/
theorem Moves.restage {stage : Stage} {out : List ℕ}
    (hperm : (pending pageSize { op with stage := stage } ++ out).Perm (op.pending pageSize))
    (hqueued : stage ≠ .queued) (hunf : Unfetched { op with stage := stage } → op.Unfetched)
    (hbatch : ∀ start prev, stage = .transferring start prev →
      prev = start * pageSize ∧ start < op.hashLen ∧ op.completedTokens ≤
        prev + op.batchTokens pageSize start)
    (hclosed : op.Closed → Closed { op with stage := stage })
    (hrevoked : op.Revoked → Revoked { op with stage := stage }) :
    Moves pageSize H op { op with stage := stage } out := by
  refine ⟨⟨hs.tokenLen, hs.hash_le, hs.completed_le, hs.dvd, hs.indices,
    fun h => absurd h hqueued, fun h => hs.unfetched (hunf h), hbatch⟩, ?_,
    fun h => ⟨hclosed h, rfl⟩, hrevoked⟩
  rw [add_right_comm, Multiset.coe_add, Multiset.coe_eq_coe.mpr hperm]
  rfl

variable {p : ℕ}

theorem Moves.revoke (hst : op.stage = .queued) (hp : 0 < p) :
    Moves pageSize H op (op.revoke p) [] := by
  refine Moves.restage hs ?_ nofun ?_ nofun (fun _ => Or.inr trivial) fun h => ⟨h.1, trivial⟩
  · simp [pending, hst, flatten_splitPages hp]
  · simp [Unfetched, hst]

theorem Moves.revokingPage {page : List ℕ} {pages : List (List ℕ)}
    (hst : op.stage = .revoking (page :: pages)) :
    Moves pageSize H op { op with stage := .revoking pages } page := by
  refine Moves.restage hs ?_ nofun ?_ nofun (fun _ => Or.inr trivial) fun h => ⟨h.1, trivial⟩
  · simpa [pending, hst] using perm_append_comm
  · simp [Unfetched, hst]

theorem Moves.trimmingPage {page : List ℕ} {pages : List (List ℕ)}
    (hst : op.stage = .trimming (page :: pages)) :
    Moves pageSize H op { op with stage := .trimming pages } page := by
  refine Moves.restage hs ?_ nofun ?_ nofun ?_ ?_
  · simp only [pending, hst, flatten_cons]
    rw [append_assoc page]
    exact perm_append_comm
  · simp [Unfetched, hst]
  · simp [Closed, hst]
  · simp [Revoked, hst]

theorem Moves.releasingPage {page : List ℕ} {pages : List (List ℕ)}
    (hst : op.stage = .releasing (page :: pages)) :
    Moves pageSize H op { op with stage := .releasing pages } page := by
  refine Moves.restage hs ?_ nofun nofun nofun (fun _ => Or.inr trivial) ?_
  · simpa [pending, hst] using perm_append_comm
  · simp [Revoked, hst]

/-- Nothing is left to put. -/
theorem Moves.finish (hst : op.stage = .revoking [] ∨ op.stage = .releasing []) :
    Moves pageSize H op { op with stage := .finished } [] := by
  refine Moves.restage hs ?_ nofun nofun nofun (fun _ => Or.inr trivial) fun h => ⟨h.1, trivial⟩
  rcases hst with hst | hst <;> simp [pending, hst]

theorem Moves.trim (hst : op.stage = .queued) (hp : 0 < p) {k : ℕ}
    (hk : k * pageSize ≤ H.length) : Moves pageSize H op (op.trim p (k * pageSize) k) [] := by
  have h0 : op.completedTokens = 0 := hs.unfetched (by rw [Unfetched, hst]; trivial)
  refine ⟨⟨hs.tokenLen, hk, ?_, hs.dvd, Or.inl (hs.queued hst), nofun, fun _ => h0, nofun⟩, ?_, ?_, ?_⟩
  · exact (le_of_eq h0).trans (Nat.zero_le _)
  · have hpend : (pending pageSize (op.trim p (k * pageSize) k)).Perm op.hostIndices := by
      rw [pending, PrefetchOperation.trim]
      simp only [flatten_splitPages hp]
      exact perm_append_comm.trans (List.Perm.of_eq (take_append_drop _ _))
    rw [Multiset.coe_nil, add_zero, Multiset.coe_eq_coe.mpr hpend, pending, hst]
    rfl
  · intro h
    refine ⟨?_, rfl⟩
    simpa [Closed, hst, PrefetchOperation.trim] using h
  · simp [Revoked, hst]

theorem Moves.handOver (hst : op.stage = .trimming []) :
    Moves pageSize H op (op.handOver (op.hashLen * pageSize)) [] := by
  have h0 : op.completedTokens = 0 := hs.unfetched (by rw [Unfetched, hst]; trivial)
  have harr : (op.handOver (op.hashLen * pageSize)).arrived = op.arrived := by
    rw [arrived, arrived, h0]
    exact congrArg (List.take · _) h0
  refine ⟨⟨hs.tokenLen, hs.hash_le, hs.completed_le, hs.dvd, Or.inr ?_, nofun, fun _ => h0, nofun⟩,
    ?_, ?_, ?_⟩
  · rcases hs.indices with he | he
    · exact congrArg (List.take _) he
    · rw [PrefetchOperation.handOver, he, take_take, min_self]
  · rw [harr]
    simp [pending, hst, PrefetchOperation.handOver]
  · intro h
    refine ⟨?_, harr⟩
    simpa [Closed, hst, PrefetchOperation.handOver] using h
  · simp [Revoked, hst]

/-- The slots that are left when the transfer is over. -/
theorem Moves.releaseRest (hpend : op.pending pageSize = op.hostIndices.drop op.completedTokens)
    (hrev : ¬ op.Revoked) (hp : 0 < p) : Moves pageSize H op (op.releaseRest p) [] := by
  refine Moves.restage hs ?_ nofun nofun nofun (fun _ => Or.inr trivial) fun h => absurd h hrev
  rw [hpend, append_nil]
  exact List.Perm.of_eq (flatten_splitPages hp _)

theorem Moves.startBatch (hpend : op.pending pageSize = op.hostIndices.drop op.completedTokens)
    (hrev : ¬ op.Revoked) (hclosed : op.Closed → op.terminated = true) {start : ℕ}
    (hstart : start < op.hashLen → op.completedTokens = start * pageSize) (hp : 0 < p) :
    Moves pageSize H op (op.startBatch p start) [] := by
  unfold PrefetchOperation.startBatch
  split
  · rename_i hlt
    refine Moves.restage hs ?_ nofun nofun ?_ (fun h => Or.inl (hclosed h)) fun h => absurd h hrev
    · rw [hpend, append_nil, pending]
    · rintro start' prev' h
      cases h
      exact ⟨hstart hlt, hlt, Nat.le_add_right _ _⟩
  · exact Moves.releaseRest hs hpend hrev hp

variable {prev : ℕ}

/-- Pages of the batch arrive, unless the operation is terminated. -/
theorem Moves.fetch {start k : ℕ} (hst : op.stage = .transferring start prev)
    (hk : op.completedTokens + k * pageSize ≤ prev + op.batchTokens pageSize start) :
    Moves pageSize H op (op.increment (k * pageSize)) [] := by
  unfold increment
  split
  · exact Moves.refl hs
  · rename_i hterm
    obtain ⟨hprev, hlt, -⟩ := hs.batch start prev hst
    refine ⟨⟨hs.tokenLen, hs.hash_le, ?_, ?_, hs.indices, hs.queued, ?_, ?_⟩, ?_, ?_, ?_⟩
    · refine hk.trans ?_
      have hle : start + min storageBatchSize (op.hashLen - start) ≤ op.hashLen := by omega
      rw [hprev, batchTokens, ← Nat.add_mul]
      exact Nat.mul_le_mul_right _ hle
    · exact Nat.dvd_add hs.dvd (Nat.dvd_mul_left _ _)
    · simp [Unfetched, hst]
    · intro start' prev' h
      cases hst.symm.trans h
      exact ⟨hprev, hlt, hk⟩
    · simp only [pending, hst, arrived, Multiset.coe_nil, add_zero, Multiset.coe_add]
      refine Multiset.coe_eq_coe.mpr ?_
      exact (perm_append_comm.trans (List.Perm.of_eq (take_append_drop _ _))).trans
        (perm_append_comm.trans (List.Perm.of_eq (take_append_drop _ _))).symm
    · rintro (h | h)
      · exact absurd h hterm
      · rw [hst] at h; exact h.elim
    · simp [Revoked, hst]

theorem Moves.endBatch {start : ℕ} (hst : op.stage = .transferring start prev) (hp : 0 < p) :
    Moves pageSize H op (if op.completedTokens ≠ prev + op.batchTokens pageSize start then
      op.markTerminate.releaseRest p else op.startBatch p (start + storageBatchSize)) [] := by
  have hpend : op.pending pageSize = op.hostIndices.drop op.completedTokens := by
    rw [pending, hst]
  have hrev : ¬ op.Revoked := by simp [Revoked, hst]
  have hclosed : op.Closed → op.terminated = true := by simp [Closed, hst]
  obtain ⟨hprev, hlt, -⟩ := hs.batch start prev hst
  split
  · -- the mark is the only difference from a transfer that ended by itself
    have hm := Moves.releaseRest hs hpend hrev hp
    exact ⟨hm.sound.markTerminate, hm.balance, fun _ => ⟨Or.inl rfl, rfl⟩, fun h => absurd h hrev⟩
  · rename_i hfull
    refine Moves.startBatch hs hpend hrev hclosed (fun hnext => ?_) hp
    rw [not_not.mp hfull, hprev, batchTokens, min_eq_left (by omega), ← Nat.add_mul]

end

end PrefetchOperation

namespace PrefetchSystem

open PrefetchOperation

/-! ## 3. Their steps -/

/-- A step of one of the two threads on the operation of `reqId`. -/
structure ThreadStep (cfg : HiConfig) (H : List ℕ) (reqId : ℕ) (s s' : PrefetchSystem) (out : List ℕ) :
    Prop where
  moves : Moves cfg.pageSize H (s.operations reqId) (s'.operations reqId) out
  operations : ∀ r, r ≠ reqId → s'.operations r = s.operations r
  cache : s'.cache = { s.cache with hostMemReleaseQueue := s'.cache.hostMemReleaseQueue }
  queue : s'.cache.hostMemReleaseQueue.flatten = s.cache.hostMemReleaseQueue.flatten ++ out
  revokeQueue : ∀ r ∈ s'.prefetchRevokeQueue, r ∈ s.prefetchRevokeQueue ∨
    r = reqId ∧ (s'.operations reqId).Revoked

section Threads

variable {cfg : HiConfig} {H : List ℕ} {reqId : ℕ} {s : PrefetchSystem} {op' : PrefetchOperation}

@[simp] theorem setOp_self (s : PrefetchSystem) (reqId : ℕ) (op : PrefetchOperation) :
    (s.setOp reqId op).operations reqId = op := Function.update_self _ _ _

theorem setOp_of_ne (s : PrefetchSystem) {reqId r : ℕ} (hr : r ≠ reqId) (op : PrefetchOperation) :
    (s.setOp reqId op).operations r = s.operations r := Function.update_of_ne hr _ _

theorem ThreadStep.setOp (hm : Moves cfg.pageSize H (s.operations reqId) op' []) :
    ThreadStep cfg H reqId s (s.setOp reqId op') [] where
  moves := by rwa [setOp_self]
  operations := fun r hr => setOp_of_ne s hr op'
  cache := rfl
  queue := (append_nil _).symm
  revokeQueue := fun r hr => Or.inl hr

theorem ThreadStep.putPage {page : List ℕ}
    (hm : Moves cfg.pageSize H (s.operations reqId) op' page) :
    ThreadStep cfg H reqId s ((s.setOp reqId op').putPage page) page where
  moves := (setOp_self s reqId op').symm ▸ hm
  operations := fun r hr => setOp_of_ne s hr op'
  cache := rfl
  queue := by
    change (s.cache.hostMemReleaseQueue ++ [page]).flatten = _
    rw [flatten_append, flatten_cons, flatten_nil, append_nil]
  revokeQueue := fun r hr => Or.inl hr

variable (hs : Sound cfg.pageSize H (s.operations reqId)) (hps : 0 < s.cache.host.pageSize)

include hs

theorem ThreadStep.stay : ThreadStep cfg H reqId s s [] :=
  ⟨Moves.refl hs, fun _ _ => rfl, rfl, (append_nil _).symm, fun _ hr => Or.inl hr⟩

theorem hitPages_le (hdvd : cfg.pageSize ∣ H.length) (hits : ℕ) :
    min hits (pageStarts (s.operations reqId).tokenLen cfg.pageSize).length * cfg.pageSize
      ≤ H.length := by
  obtain ⟨j, hj⟩ := hdvd
  rw [hs.tokenLen, hj, pageStarts_mul cfg.pageSize_pos, length_map, length_range,
    Nat.mul_comm cfg.pageSize]
  exact Nat.mul_le_mul_right _ (min_le_right _ _)

theorem endBatch_threadStep (hps : 0 < s.cache.host.pageSize) :
    ThreadStep cfg H reqId s (s.endBatch cfg reqId) [] := by
  cases hst : (s.operations reqId).stage with
  | transferring start prev =>
    have hm := Moves.endBatch hs hst hps
    simp only [endBatch, hst]
    split at hm
    · rename_i h
      rw [if_pos h]
      exact ThreadStep.setOp hm
    · rename_i h
      rw [if_neg h]
      exact ThreadStep.setOp hm
  | _ =>
    simp only [endBatch, hst]
    exact ThreadStep.stay hs

theorem fetch_threadStep (numPages : ℕ) :
    ThreadStep cfg H reqId s (s.fetch cfg reqId numPages) [] := by
  cases hst : (s.operations reqId).stage with
  | transferring start prev =>
    simp only [fetch, hst]
    split
    · rename_i hk
      exact ThreadStep.setOp (Moves.fetch hs hst hk)
    · exact ThreadStep.stay hs
  | _ =>
    simp only [fetch, hst]
    exact ThreadStep.stay hs

include hps

/-- **The hit query** revokes the operation or cuts its tail off. -/
theorem query_threadStep (hits : ℕ) (hdvd : cfg.pageSize ∣ H.length) :
    ThreadStep cfg H reqId s (s.query cfg reqId hits) [] := by
  cases hst : (s.operations reqId).stage with
  | queued =>
    simp only [query, hst]
    split
    · have hm := Moves.revoke hs hst hps
      have h0 : (s.operations reqId).completedTokens = 0 :=
        hs.unfetched (by rw [Unfetched, hst]; trivial)
      refine ⟨(setOp_self s reqId _).symm ▸ hm, fun r hr => setOp_of_ne s hr _, rfl,
        (append_nil _).symm, fun r hr => ?_⟩
      rcases mem_append.mp hr with hr | hr
      · exact Or.inl hr
      · exact Or.inr ⟨mem_singleton.mp hr, (setOp_self s reqId _).symm ▸ ⟨h0, trivial⟩⟩
    · exact ThreadStep.setOp (Moves.trim hs hst hps (hitPages_le hs hdvd hits))
  | _ =>
    simp only [query, hst]
    exact ThreadStep.stay hs

/-- **A thread goes on.** -/
theorem advance_threadStep : ∃ out, ThreadStep cfg H reqId s (s.advance cfg reqId) out := by
  cases hst : (s.operations reqId).stage with
  | revoking pages =>
    cases pages with
    | nil => exact ⟨[], by simp only [advance, hst]; exact ThreadStep.setOp (Moves.finish hs (Or.inl hst))⟩
    | cons page pages =>
      exact ⟨page, by simp only [advance, hst]; exact ThreadStep.putPage (Moves.revokingPage hs hst)⟩
  | trimming pages =>
    cases pages with
    | nil => exact ⟨[], by simp only [advance, hst]; exact ThreadStep.setOp (Moves.handOver hs hst)⟩
    | cons page pages =>
      exact ⟨page, by simp only [advance, hst]; exact ThreadStep.putPage (Moves.trimmingPage hs hst)⟩
  | buffered =>
    refine ⟨[], ?_⟩
    have h0 : (s.operations reqId).completedTokens = 0 :=
      hs.unfetched (by rw [Unfetched, hst]; trivial)
    simp only [advance, hst]
    refine ThreadStep.setOp (Moves.startBatch hs ?_ (by simp [Revoked, hst]) (by simp [Closed, hst])
      (fun _ => by rw [h0, Nat.zero_mul]) hps)
    rw [pending, hst, h0]
    rfl
  | releasing pages =>
    cases pages with
    | nil => exact ⟨[], by simp only [advance, hst]; exact ThreadStep.setOp (Moves.finish hs (Or.inr hst))⟩
    | cons page pages =>
      exact ⟨page, by simp only [advance, hst]; exact ThreadStep.putPage (Moves.releasingPage hs hst)⟩
  | _ => exact ⟨[], by simp only [advance, hst]; exact ThreadStep.stay hs⟩

end Threads

end PrefetchSystem

end Sglang
