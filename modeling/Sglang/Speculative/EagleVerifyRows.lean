/-
# The rows of a verified batch

The loop over the accepted tokens cuts every row behind the token its request finishes at (`checkRow_spec`),
so that what `verify` goes on with is again a front of each row: a number of accepted tokens, and for each of
them an offset among the draft tokens of its request (`verify_cut`).  A request that has not finished keeps
its whole row, and if none has met the end all go on.
-/
import Sglang.Speculative.EagleVerifyKernels

namespace Sglang

open Lib Finset List

namespace EagleVerify

variable {ρ : Type} {B : VerifyBatch} {i j k : ℕ} {len len' : ℕ → ℕ} {off : ℕ → ℕ → ℕ}

/-! ## 1. Accepted offsets -/

/-- The accepted tokens of each request as offsets among its draft tokens: the first one, then ever later
ones, one after another if there is one branch. -/
structure Offsets (B : VerifyBatch) (len : ℕ → ℕ) (off : ℕ → ℕ → ℕ) : Prop where
  pos : ∀ i < B.bs, 0 < len i
  first : ∀ i < B.bs, off i 0 = 0
  increasing : ∀ i < B.bs, ∀ j j', j < j' → j' < len i → off i j < off i j'
  lt : ∀ i < B.bs, ∀ j < len i, off i j < B.draftTokenNum
  consecutive : B.topk = 1 → ∀ i < B.bs, ∀ j < len i, off i j = j

/-- The rows of `accept_index` that hold them, filled up with `-1`. -/
structure AcceptRows (B : VerifyBatch) (acceptIndex : ℕ → List ℤ) (len : ℕ → ℕ) (off : ℕ → ℕ → ℕ) : Prop
    extends Offsets B len off where
  row : ∀ i < B.bs, ∃ pad, acceptIndex i =
    (List.range (len i)).map (fun j => ((i * B.draftTokenNum + off i j : ℕ) : ℤ)) ++ List.replicate pad (-1)

/-- Fronts of the rows. -/
theorem Offsets.cut (h : Offsets B len off) (hpos : ∀ i < B.bs, 0 < len' i)
    (hle : ∀ i < B.bs, len' i ≤ len i) : Offsets B len' off where
  pos := hpos
  first := h.first
  increasing := fun i hi j j' hj hj' => h.increasing i hi j j' hj (hj'.trans_le (hle i hi))
  lt := fun i hi j hj => h.lt i hi j (hj.trans_le (hle i hi))
  consecutive := fun htopk i hi j hj => h.consecutive htopk i hi j (hj.trans_le (hle i hi))

theorem Offsets.le_off (h : Offsets B len off) (hi : i < B.bs) (hj : j < len i) : j ≤ off i j := by
  induction j with
  | zero => exact Nat.zero_le _
  | succ j ih =>
    have := h.increasing i hi j (j + 1) (Nat.lt_succ_self j) hj
    omega

theorem Offsets.len_le (h : Offsets B len off) (hi : i < B.bs) : len i ≤ B.draftTokenNum := by
  have hpos := h.pos i hi
  have hlt := h.lt i hi (len i - 1) (by omega)
  have hle := h.le_off hi (j := len i - 1) (by omega)
  omega

/-- The accepted indices, row by row. -/
def flatIndex (B : VerifyBatch) (len : ℕ → ℕ) (off : ℕ → ℕ → ℕ) (is : List ℕ) : List ℕ :=
  is.flatMap fun i => (List.range (len i)).map fun j => i * B.draftTokenNum + off i j

theorem mem_flatIndex (h : Offsets B len off) (hi : i < B.bs) (hk : k < B.draftTokenNum) :
    i * B.draftTokenNum + k ∈ flatIndex B len off (List.range B.bs) ↔ ∃ j < len i, off i j = k := by
  rw [flatIndex, mem_flatMap]
  constructor
  · rintro ⟨i', hi', hmem⟩
    obtain ⟨j, hj, heq⟩ := List.mem_map.mp hmem
    rw [List.mem_range] at hi' hj
    have hlt := h.lt i' hi' j hj
    have hrow : i' = i := by
      rw [← tile_div i' hlt, heq, tile_div i hk]
    subst hrow
    exact ⟨j, hj, by omega⟩
  · rintro ⟨j, hj, rfl⟩
    exact ⟨i, List.mem_range.mpr hi, List.mem_map.mpr ⟨j, List.mem_range.mpr hj, rfl⟩⟩

/-! ## 2. The loop over a row -/

theorem acceptedOf_replicate (pad : ℕ) : acceptedOf (List.replicate pad (-1)) = [] := by
  rw [acceptedOf, filter_eq_nil_iff.mpr, map_nil]
  intro x hx
  simp [eq_of_mem_replicate hx]

theorem acceptedOf_cons (a : ℕ) (row : List ℤ) : acceptedOf ((a : ℤ) :: row) = a :: acceptedOf row := by
  rfl

/-- A request that some tokens have been appended to. -/
def reqAfter (ops : ReqOps ρ) (predict : ℕ → ℤ) (req : ρ) (xs : List ℕ) : ρ :=
  xs.foldl (fun req a => ops.append req (predict a)) req

/-- What the loop leaves of a row: the tokens up to the one that the request finishes at. -/
structure CutRow (ops : ReqOps ρ) (predict : ℕ → ℤ) (req : ρ) (xs : List ℕ) (r : RowCheck ρ) (n : ℕ) :
    Prop where
  le : n ≤ xs.length
  pos : xs ≠ [] → 0 < n
  taken : r.taken = (xs.take n).map fun a : ℕ => (a : ℤ)
  accepted : acceptedOf r.row = xs.take n
  whole : r.hasFinished = false → n = xs.length
  goesOn : r.hasFinished = false → xs ≠ [] → ops.finished r.req = false
  ended : r.hasFinished = true → ops.finished r.req = true
  req_eq : r.req = reqAfter ops predict req (xs.take n)
  running : ∀ m < n, 0 < m → ops.finished (reqAfter ops predict req (xs.take m)) = false

/-- **The loop takes a front of the row**, all of it unless the request finishes. -/
theorem checkRow_spec (ops : ReqOps ρ) (predict : ℕ → ℤ) (pad : ℕ) : ∀ (xs : List ℕ) (req : ρ),
    ∃ n, CutRow ops predict req xs
      (checkRow ops predict req (xs.map (fun a : ℕ => (a : ℤ)) ++ List.replicate pad (-1))) n
  | [], req => by
    refine ⟨0, le_rfl, fun h => absurd rfl h, ?_, ?_, fun _ => rfl, fun _ h => absurd rfl h, ?_, ?_,
      fun m hm => absurd hm (Nat.not_lt_zero m)⟩
    all_goals cases pad with
      | zero => simp [checkRow, acceptedOf, reqAfter]
      | succ pad => simp [checkRow, replicate_succ, acceptedOf, reqAfter]
  | a :: xs, req => by
    have hne : ((a : ℤ) ≠ -1) := by omega
    rw [List.map_cons, cons_append, checkRow, if_neg hne, Int.toNat_natCast]
    by_cases hfin : ops.finished (ops.append req (predict a)) = true
    · rw [if_pos hfin]
      refine ⟨1, Nat.succ_le_succ (Nat.zero_le _), fun _ => Nat.one_pos, rfl, ?_,
        (fun h => by cases h), (fun h => by cases h), fun _ => hfin, rfl,
        fun m hm hpos => absurd hm (Nat.not_lt_of_le hpos)⟩
      rw [acceptedOf_cons, map_const', acceptedOf_replicate]
      rfl
    · rw [if_neg hfin]
      obtain ⟨n, h⟩ := checkRow_spec ops predict pad xs (ops.append req (predict a))
      refine ⟨n + 1, Nat.succ_le_succ h.le, fun _ => Nat.succ_pos _, ?_, ?_,
        fun hno => congrArg (· + 1) (h.whole hno), fun hno _ => ?_, h.ended, h.req_eq, fun m hm hpos => ?_⟩
      · dsimp only
        rw [h.taken]
        rfl
      · dsimp only
        rw [acceptedOf_cons, h.accepted]
        rfl
      · cases xs with
        | nil =>
          have hreq : (checkRow ops predict (ops.append req (predict a))
              (([] : List ℕ).map (fun a : ℕ => (a : ℤ)) ++ List.replicate pad (-1))).req =
                ops.append req (predict a) := by
            cases pad with
            | zero => rfl
            | succ pad => simp [checkRow, replicate_succ]
          rw [hreq]
          exact Bool.eq_false_iff.mpr hfin
        | cons b xs => exact h.goesOn hno (cons_ne_nil b xs)
      · obtain ⟨m, rfl⟩ := Nat.exists_eq_succ_of_ne_zero hpos.ne'
        rcases Nat.eq_zero_or_pos m with rfl | hm'
        · exact Bool.eq_false_iff.mpr hfin
        · exact h.running m (Nat.lt_of_succ_lt_succ hm) hm'

/-! ## 3. The batch behind the loop -/

section Cut

variable {acceptIndex : ℕ → List ℤ} (ops : ReqOps ρ) (predict : ℕ → ℤ) (reqs : ℕ → ρ)

/-- The batch behind the loop, with `len'` accepted tokens. -/
structure Checked (B : VerifyBatch) (acceptIndex : ℕ → List ℤ) (ops : ReqOps ρ) (predict : ℕ → ℤ)
    (reqs : ℕ → ρ) (len : ℕ → ℕ) (off : ℕ → ℕ → ℕ) (len' : ℕ → ℕ) : Prop extends Offsets B len' off where
  le : ∀ i < B.bs, len' i ≤ len i
  taken : ∀ i < B.bs, (checkRow ops predict (reqs i) (acceptIndex i)).taken.map Int.toNat =
    (List.range (len' i)).map fun j => i * B.draftTokenNum + off i j
  accepted : ∀ i < B.bs, acceptedOf (checkRow ops predict (reqs i) (acceptIndex i)).row =
    (List.range (len' i)).map fun j => i * B.draftTokenNum + off i j
  whole : ∀ i < B.bs, (checkRow ops predict (reqs i) (acceptIndex i)).hasFinished = false →
    len' i = len i ∧ ops.finished (checkRow ops predict (reqs i) (acceptIndex i)).req = false
  ended : ∀ i < B.bs, (checkRow ops predict (reqs i) (acceptIndex i)).hasFinished = true →
    ops.finished (checkRow ops predict (reqs i) (acceptIndex i)).req = true
  req_eq : ∀ i < B.bs, (checkRow ops predict (reqs i) (acceptIndex i)).req =
    reqAfter ops predict (reqs i) ((List.range (len' i)).map fun j => i * B.draftTokenNum + off i j)
  running : ∀ i < B.bs, ∀ m < len' i, 0 < m → ops.finished (reqAfter ops predict (reqs i)
    ((List.range m).map fun j => i * B.draftTokenNum + off i j)) = false

theorem exists_checked (h : AcceptRows B acceptIndex len off) :
    ∃ len', Checked B acceptIndex ops predict reqs len off len' := by
  have hrow : ∀ i, ∃ n, i < B.bs → CutRow ops predict (reqs i)
      ((List.range (len i)).map fun j => i * B.draftTokenNum + off i j)
      (checkRow ops predict (reqs i) (acceptIndex i)) n := by
    intro i
    by_cases hi : i < B.bs
    · obtain ⟨pad, heq⟩ := h.row i hi
      obtain ⟨n, hn⟩ := checkRow_spec ops predict pad
        ((List.range (len i)).map fun j => i * B.draftTokenNum + off i j) (reqs i)
      rw [List.map_map] at hn
      exact ⟨n, fun _ => heq ▸ hn⟩
    · exact ⟨0, fun hi' => absurd hi' hi⟩
  choose len' hlen' using hrow
  have hle : ∀ i < B.bs, len' i ≤ len i := fun i hi => by
    have := (hlen' i hi).le
    rwa [length_map, length_range] at this
  have hne : ∀ i < B.bs, ((List.range (len i)).map fun j => i * B.draftTokenNum + off i j) ≠ [] := by
    intro i hi hnil
    have hlen := congrArg List.length hnil
    have := h.pos i hi
    rw [length_map, length_range, length_nil] at hlen
    omega
  have htake : ∀ i < B.bs, ∀ m ≤ len' i,
      ((List.range (len i)).map fun j => i * B.draftTokenNum + off i j).take m =
        (List.range m).map fun j => i * B.draftTokenNum + off i j := fun i hi m hm => by
    rw [← map_take, take_range, Nat.min_eq_left (hm.trans (hle i hi))]
  refine ⟨len', { h.toOffsets.cut (fun i hi => (hlen' i hi).pos (hne i hi)) hle with
    le := hle, taken := fun i hi => ?_, accepted := fun i hi => ?_, whole := fun i hi hno => ?_,
    ended := fun i hi => (hlen' i hi).ended, req_eq := fun i hi => ?_, running := fun i hi m hm hpos => ?_ }⟩
  · rw [(hlen' i hi).taken, htake i hi _ le_rfl, List.map_map, List.map_map]
    rfl
  · rw [(hlen' i hi).accepted, htake i hi _ le_rfl]
  · have hwhole := (hlen' i hi).whole hno
    rw [length_map, length_range] at hwhole
    exact ⟨hwhole, (hlen' i hi).goesOn hno (hne i hi)⟩
  · rw [(hlen' i hi).req_eq, htake i hi _ le_rfl]
  · rw [← htake i hi m hm.le]
    exact (hlen' i hi).running m hm hpos

end Cut

end EagleVerify

end Sglang
