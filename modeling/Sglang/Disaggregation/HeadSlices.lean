/-
# Which heads a prefill rank sends to a decode rank

The KV heads of a model are spread over the ranks of an attention group, or replicated when the
group is larger than the number of heads.  A prefill group and a decode group of different sizes
therefore cut the heads differently, and a transfer slices them: `compute_head_slice_params`
says which of its heads a prefill rank sends and where they go, and `_resolve_rank_mapping` says
which prefill ranks a decode rank is served by.

A slice says which head arrives at each place of the decode rank.  For powers of two that is the
decode rank's own head, except when the prefill group is smaller than the number of heads and
the decode group is larger.
-/
import Mathlib.Tactic.Ring
import Mathlib.Tactic.Linarith

namespace Sglang.Disaggregation

/-! ## 1. The functions -/

/-- KV heads on each rank of an attention group. -/
def headsPerRank (totalKvHeads attnTpSize : Nat) : Nat := max 1 (totalKvHeads / attnTpSize)

/-- What `compute_head_slice_params` returns: the first head that is sent, how many, and the place
of the first on the decode rank. -/
structure HeadSlice where
  srcHeadStart : Nat
  numHeadsToSend : Nat
  dstHeadStart : Nat
  deriving DecidableEq

def computeHeadSliceParams (srcAttnTpSize dstAttnTpSize srcTpRank dstTpRank totalKvHeads : Nat) :
    HeadSlice :=
  let srcHeadsPerRank := max 1 (totalKvHeads / srcAttnTpSize)
  let dstHeadsPerRank := max 1 (totalKvHeads / dstAttnTpSize)
  let localTpRank := srcTpRank % srcAttnTpSize
  let dstTpRankInGroup := dstTpRank % dstAttnTpSize
  if srcAttnTpSize > dstAttnTpSize then
    let srcReplication := max 1 (srcAttnTpSize / totalKvHeads)
    let uniqueHeadIdx := localTpRank / srcReplication
    ⟨0, srcHeadsPerRank, (uniqueHeadIdx * srcHeadsPerRank) % dstHeadsPerRank⟩
  else
    ⟨(dstTpRankInGroup * dstHeadsPerRank) % srcHeadsPerRank, dstHeadsPerRank, 0⟩

def numWriters (srcAttnTpSize dstAttnTpSize : Nat) : Nat :=
  if srcAttnTpSize > dstAttnTpSize then srcAttnTpSize / max 1 dstAttnTpSize else 1

/-- `(num_writers, writer_bytes_list, total_bytes)` of a staging region. -/
def computeStagingLayout (srcAttnTpSize dstAttnTpSize dstTpRank totalKvHeads numTokens
    bytesPerHeadToken numLayers : Nat) : Nat × List Nat × Nat :=
  let writers := numWriters srcAttnTpSize dstAttnTpSize
  let writerBytes := (List.range writers).map fun wr =>
    let slice := computeHeadSliceParams srcAttnTpSize dstAttnTpSize wr dstTpRank totalKvHeads
    numTokens * slice.numHeadsToSend * bytesPerHeadToken * numLayers * 2
  (writers, writerBytes, writerBytes.sum)

/-- The `target_tp_ranks` of `_resolve_rank_mapping` for a model with KV heads. -/
def targetTpRanks (attnTpSize prefillAttnTpSize engineRank : Nat) : List Nat :=
  if attnTpSize = prefillAttnTpSize then [engineRank % attnTpSize]
  else if attnTpSize > prefillAttnTpSize then
    [(engineRank % attnTpSize) / (attnTpSize / prefillAttnTpSize)]
  else
    (List.range (prefillAttnTpSize / attnTpSize)).map fun j =>
      (engineRank % attnTpSize) * (prefillAttnTpSize / attnTpSize) + j

/-! ## 2. The heads of a rank -/

/-- The `h`-th head on rank `r` of an attention group of size `t`. -/
def headOf (totalKvHeads t r h : Nat) : Nat :=
  if t ≤ totalKvHeads then r * (totalKvHeads / t) + h else r / (t / totalKvHeads)

/-- The head that a transfer puts at place `h` of decode rank `e`. -/
def sentHead (totalKvHeads s d e h : Nat) : Nat :=
  if s > d then headOf totalKvHeads d e h
  else headOf totalKvHeads s (e / (d / s))
    ((e * headsPerRank totalKvHeads d) % headsPerRank totalKvHeads s + h)

/-- The heads `start ..< start + n` of prefill rank `r` are heads it has, the places `place ..<
place + n` are places of decode rank `e`, and each gets the head that `sentHead` names. -/
structure SliceFits (H s d e r start n place : Nat) : Prop where
  inSource : start + n ≤ headsPerRank H s
  inTarget : place + n ≤ headsPerRank H d
  head : ∀ h < n, headOf H s r (start + h) = sentHead H s d e (place + h)

/-! ## 3. Slices between powers of two -/

section PowersOfTwo

variable {H s d e r : Nat}

theorem headsPerRank_pos (H t : Nat) : 0 < headsPerRank H t := by
  simp only [headsPerRank]; omega

theorem headsPerRank_mul {m t : Nat} (ht : 0 < t) (hm : 0 < m) : headsPerRank (t * m) t = m := by
  rw [headsPerRank, Nat.mul_div_cancel_left _ ht]; omega

theorem headsPerRank_one {q : Nat} (hH : 0 < H) (hq : 0 < q) : headsPerRank H (H * q) = 1 := by
  rw [headsPerRank]
  rcases Nat.lt_or_ge 1 q with h | h
  · rw [Nat.div_eq_of_lt (by nlinarith)]; rfl
  · obtain rfl : q = 1 := by omega
    rw [Nat.mul_one, Nat.div_self hH]; rfl

theorem headOf_mul {m t : Nat} (ht : 0 < t) (hm : 0 < m) (r h : Nat) :
    headOf (t * m) t r h = r * m + h := by
  rw [headOf, if_pos (Nat.le_mul_of_pos_right _ hm), Nat.mul_div_cancel_left _ ht]

theorem headOf_replicated {q : Nat} (hH : 0 < H) (hq : 0 < q) (r : Nat) :
    headOf H (H * q) r 0 = r / q := by
  rw [headOf]
  rcases Nat.lt_or_ge 1 q with h | h
  · rw [if_neg (by nlinarith), Nat.mul_div_cancel_left _ hH]
  · obtain rfl : q = 1 := by omega
    rw [Nat.mul_one, Nat.div_self hH]; simp

/-- How two group sizes and a number of heads divide each other.  The first three send from a
larger group to a smaller one. -/
inductive Shape : Nat → Nat → Nat → Prop
  | split {d n m : Nat} (hd : 0 < d) (hn : 1 < n) (hm : 0 < m) : Shape (d * n * m) (d * n) d
  | sourceReplicated {d p q : Nat} (hd : 0 < d) (hp : 0 < p) (hq : 0 < q) (hpq : 1 < p * q) :
      Shape (d * p) (d * p * q) d
  | bothReplicatedDown {H p n : Nat} (hH : 0 < H) (hp : 0 < p) (hn : 1 < n) :
      Shape H (H * p * n) (H * p)
  | joined {s n m : Nat} (hs : 0 < s) (hn : 0 < n) (hm : 0 < m) : Shape (s * n * m) s (s * n)
  | bothReplicatedUp {H p n : Nat} (hH : 0 < H) (hp : 0 < p) (hn : 0 < n) :
      Shape H (H * p) (H * p * n)
  | targetReplicated {s p q : Nat} (hs : 0 < s) (hp : 1 < p) (hq : 1 < q) :
      Shape (s * p) s (s * p * q)

theorem shape_two_pow (a b c : Nat) : Shape (2 ^ a) (2 ^ b) (2 ^ c) := by
  have hpos : ∀ x : Nat, 0 < 2 ^ x := fun x => Nat.two_pow_pos x
  have hone : ∀ x y : Nat, x < y → 1 < 2 ^ (y - x) := fun x y h => Nat.one_lt_two_pow (by omega)
  rcases Nat.lt_or_ge c b with hcb | hbc
  · rcases Nat.lt_or_ge a b with hab | hba
    · rcases Nat.lt_or_ge a c with hac | hca
      · rw [← pow_mul_pow_sub 2 hcb.le, ← pow_mul_pow_sub 2 hac.le]
        exact .bothReplicatedDown (hpos _) (hpos _) (hone _ _ hcb)
      · rw [← pow_mul_pow_sub 2 hab.le, ← pow_mul_pow_sub 2 hca]
        refine .sourceReplicated (hpos _) (hpos _) (hpos _) ?_
        rw [← Nat.pow_add]
        exact Nat.one_lt_two_pow (by omega)
    · rw [← pow_mul_pow_sub 2 hba, ← pow_mul_pow_sub 2 hcb.le]
      exact .split (hpos _) (hone _ _ hcb) (hpos _)
  · rcases Nat.lt_or_ge b a with hba | hab
    · rcases Nat.lt_or_ge a c with hac | hca
      · rw [← pow_mul_pow_sub 2 hac.le, ← pow_mul_pow_sub 2 hba.le]
        exact .targetReplicated (hpos _) (hone _ _ hba) (hone _ _ hac)
      · rw [← pow_mul_pow_sub 2 hca, ← pow_mul_pow_sub 2 hbc]
        exact .joined (hpos _) (hpos _) (hpos _)
    · rw [← pow_mul_pow_sub 2 hbc, ← pow_mul_pow_sub 2 hab]
      exact .bothReplicatedUp (hpos _) (hpos _) (hpos _)

end PowersOfTwo

/-! ## 4. The slice that each target rank sends -/

section Slices

variable {H s d E R r : Nat}

theorem mem_targetTpRanks_down (h : s > d) :
    r ∈ targetTpRanks d s E ↔ ∃ j < s / d, r = (E % d) * (s / d) + j := by
  rw [targetTpRanks, if_neg (by omega), if_neg (by omega)]
  simp [eq_comm (a := r)]

theorem mem_targetTpRanks_up (hs : 0 < s) (h : s ≤ d) :
    r ∈ targetTpRanks d s E ↔ r = (E % d) / (d / s) := by
  rw [targetTpRanks]
  split
  · next heq =>
    subst heq
    rw [Nat.div_self hs, Nat.div_one, List.mem_singleton]
  · rw [if_pos (by omega), List.mem_singleton]

theorem computeHeadSliceParams_down (h : s > d) :
    computeHeadSliceParams s d R E H = ⟨0, headsPerRank H s,
        (R % s / max 1 (s / H) * headsPerRank H s) % headsPerRank H d⟩ := by
  rw [computeHeadSliceParams]
  simp [headsPerRank, h]

theorem computeHeadSliceParams_up (h : s ≤ d) :
    computeHeadSliceParams s d R E H =
      ⟨(E % d * headsPerRank H d) % headsPerRank H s, headsPerRank H d, 0⟩ := by
  rw [computeHeadSliceParams]
  simp [headsPerRank, Nat.not_lt.2 h]

/-- The three slices of a larger prefill group, writer by writer. -/
theorem params_split {d n m j e : Nat} (hd : 0 < d) (hn : 1 < n) (hm : 0 < m) (hj : j < n)
    (hR : R % (d * n) = e * n + j) :
    computeHeadSliceParams (d * n) d R E (d * n * m) = ⟨0, m, j * m⟩ := by
  have hdn : 0 < d * n := Nat.mul_pos hd (by omega)
  have hlt : d < d * n := by nlinarith
  have hrep : max 1 (d * n / (d * n * m)) = 1 := by
    have : d * n / (d * n * m) ≤ 1 := Nat.div_le_of_le_mul (by nlinarith)
    omega
  have hper : headsPerRank (d * n * m) d = n * m := by
    rw [Nat.mul_assoc, headsPerRank_mul hd (Nat.mul_pos (by omega) hm)]
  rw [computeHeadSliceParams_down hlt, headsPerRank_mul hdn hm, hper, hrep, Nat.div_one, hR]
  congr 2
  rw [Nat.add_mul, Nat.mul_assoc, Nat.mul_comm e (n * m), Nat.mul_add_mod,
    Nat.mod_eq_of_lt ((Nat.mul_lt_mul_right hm).2 hj)]

theorem params_sourceReplicated {d p q j e : Nat} (hd : 0 < d) (hp : 0 < p) (hq : 0 < q)
    (hpq : 1 < p * q) (hj : j < p * q) (hR : R % (d * p * q) = e * (p * q) + j) :
    computeHeadSliceParams (d * p * q) d R E (d * p) = ⟨0, 1, j / q⟩ := by
  have hdp : 0 < d * p := Nat.mul_pos hd hp
  have hlt : d < d * p * q := by rw [Nat.mul_assoc]; nlinarith
  have hrep : max 1 (d * p * q / (d * p)) = q := by
    rw [Nat.mul_div_cancel_left _ hdp]; omega
  have hjq : j / q < p := Nat.div_lt_of_lt_mul (by rwa [Nat.mul_comm])
  rw [computeHeadSliceParams_down hlt, headsPerRank_one hdp hq, headsPerRank_mul hd hp, hrep, hR,
    Nat.mul_one]
  congr 2
  rw [← Nat.mul_assoc, Nat.mul_comm _ q, Nat.mul_add_div hq, Nat.mul_comm e p,
    Nat.mul_add_mod, Nat.mod_eq_of_lt hjq]

theorem params_bothReplicatedDown {H p n : Nat} (hH : 0 < H) (hp : 0 < p) (hn : 1 < n) :
    computeHeadSliceParams (H * p * n) (H * p) R E H = ⟨0, 1, 0⟩ := by
  have hlt : H * p < H * p * n := by nlinarith [Nat.mul_pos hH hp]
  rw [computeHeadSliceParams_down hlt, headsPerRank_one hH hp, Nat.mul_assoc,
    headsPerRank_one hH (Nat.mul_pos hp (by omega)), Nat.mod_one]

/-- A slice of a prefill group that is not larger. -/
theorem params_joined {s n m : Nat} (hs : 0 < s) (hn : 0 < n) (hm : 0 < m) :
    computeHeadSliceParams s (s * n) R E (s * n * m) = ⟨E % (s * n) % n * m, m, 0⟩ := by
  have hle : s ≤ s * n := Nat.le_mul_of_pos_right _ hn
  have hper : headsPerRank (s * n * m) s = n * m := by
    rw [Nat.mul_assoc, headsPerRank_mul hs (Nat.mul_pos hn hm)]
  rw [computeHeadSliceParams_up hle, headsPerRank_mul (Nat.mul_pos hs hn) hm, hper,
    Nat.mul_mod_mul_right]

theorem params_bothReplicatedUp {H p n : Nat} (hH : 0 < H) (hp : 0 < p) (hn : 0 < n) :
    computeHeadSliceParams (H * p) (H * p * n) R E H = ⟨0, 1, 0⟩ := by
  rw [computeHeadSliceParams_up (Nat.le_mul_of_pos_right _ hn), headsPerRank_one hH hp,
    Nat.mul_assoc, headsPerRank_one hH (Nat.mul_pos hp hn), Nat.mod_one]

theorem params_targetReplicated {s p q : Nat} (hs : 0 < s) (hp : 1 < p) (hq : 1 < q) :
    computeHeadSliceParams s (s * p * q) R E (s * p) = ⟨E % (s * p * q) % p, 1, 0⟩ := by
  have hle : s ≤ s * p * q := by
    rw [Nat.mul_assoc]; exact Nat.le_mul_of_pos_right _ (Nat.mul_pos (by omega) (by omega))
  rw [computeHeadSliceParams_up hle, headsPerRank_one (Nat.mul_pos hs (by omega)) (by omega),
    headsPerRank_mul hs (by omega), Nat.mul_one]

/-- **Every slice holds the heads that `sentHead` names**, for every target rank. -/
theorem slice_fits (hshape : Shape H s d) (hr : r ∈ targetTpRanks d s E) (hR : R % s = r) :
    SliceFits H s d (E % d) r (computeHeadSliceParams s d R E H).srcHeadStart
      (computeHeadSliceParams s d R E H).numHeadsToSend
      (computeHeadSliceParams s d R E H).dstHeadStart := by
  cases hshape with
  | @split d n m hd hn hm =>
    have hlt : d < d * n := by nlinarith
    obtain ⟨j, hj, rfl⟩ := (mem_targetTpRanks_down hlt).1 hr
    rw [Nat.mul_div_cancel_left _ hd] at hj hR ⊢
    have hdn : 0 < d * n := Nat.mul_pos hd (by omega)
    have hper : headsPerRank (d * n * m) d = n * m := by
      rw [Nat.mul_assoc, headsPerRank_mul hd (Nat.mul_pos (by omega) hm)]
    rw [params_split hd hn hm hj hR]
    change SliceFits _ _ _ _ _ 0 m (j * m)
    refine ⟨?_, ?_, fun h hh => ?_⟩
    · rw [headsPerRank_mul hdn hm, Nat.zero_add]
    · rw [hper]; nlinarith
    · rw [sentHead, if_pos hlt, headOf_mul hdn hm, Nat.mul_assoc,
        headOf_mul hd (Nat.mul_pos (by omega) hm)]
      ring
  | @sourceReplicated d p q hd hp hq hpq =>
    have hlt : d < d * p * q := by rw [Nat.mul_assoc]; nlinarith
    have hn : d * p * q / d = p * q := by rw [Nat.mul_assoc, Nat.mul_div_cancel_left _ hd]
    obtain ⟨j, hj, rfl⟩ := (mem_targetTpRanks_down hlt).1 hr
    rw [hn] at hj hR ⊢
    have hjq : j / q < p := Nat.div_lt_of_lt_mul (by rwa [Nat.mul_comm])
    rw [params_sourceReplicated hd hp hq hpq hj hR]
    change SliceFits _ _ _ _ _ 0 1 (j / q)
    refine ⟨?_, ?_, fun h hh => ?_⟩
    · rw [headsPerRank_one (Nat.mul_pos hd hp) hq]
    · rw [headsPerRank_mul hd hp]; exact hjq
    · obtain rfl : h = 0 := by omega
      rw [sentHead, if_pos hlt, headOf_replicated (Nat.mul_pos hd hp) hq, headOf_mul hd hp,
        ← Nat.mul_assoc, Nat.mul_comm _ q, Nat.mul_add_div hq, Nat.add_zero]
  | @bothReplicatedDown H p n hH hp hn =>
    have hHp : 0 < H * p := Nat.mul_pos hH hp
    have hlt : H * p < H * p * n := by nlinarith
    obtain ⟨j, hj, rfl⟩ := (mem_targetTpRanks_down hlt).1 hr
    rw [Nat.mul_div_cancel_left _ hHp] at hj hR ⊢
    rw [params_bothReplicatedDown hH hp hn]
    change SliceFits _ _ _ _ _ 0 1 0
    refine ⟨?_, ?_, fun h hh => ?_⟩
    · rw [Nat.mul_assoc, headsPerRank_one hH (Nat.mul_pos hp (by omega))]
    · rw [headsPerRank_one hH hp]
    · obtain rfl : h = 0 := by omega
      rw [sentHead, if_pos hlt, Nat.mul_assoc, headOf_replicated hH (Nat.mul_pos hp (by omega)),
        headOf_replicated hH hp, Nat.mul_comm p n, ← Nat.div_div_eq_div_mul, Nat.mul_comm _ n,
        Nat.mul_add_div (by omega), Nat.div_eq_of_lt hj, Nat.add_zero]
  | @joined s n m hs hn hm =>
    have hle : s ≤ s * n := Nat.le_mul_of_pos_right _ hn
    obtain rfl := (mem_targetTpRanks_up hs hle).1 hr
    have hper : headsPerRank (s * n * m) s = n * m := by
      rw [Nat.mul_assoc, headsPerRank_mul hs (Nat.mul_pos hn hm)]
    have hsn : 0 < s * n := Nat.mul_pos hs hn
    rw [params_joined hs hn hm]
    change SliceFits _ _ _ _ _ (E % (s * n) % n * m) m 0
    refine ⟨?_, ?_, fun h hh => ?_⟩
    · have hlt : E % (s * n) % n < n := Nat.mod_lt _ hn
      rw [hper]; nlinarith
    · rw [headsPerRank_mul hsn hm, Nat.zero_add]
    · rw [sentHead, if_neg (by omega), Nat.zero_add, headsPerRank_mul hsn hm, hper,
        Nat.mul_mod_mul_right]
  | @bothReplicatedUp H p n hH hp hn =>
    have hHp : 0 < H * p := Nat.mul_pos hH hp
    have hle : H * p ≤ H * p * n := Nat.le_mul_of_pos_right _ hn
    obtain rfl := (mem_targetTpRanks_up hHp hle).1 hr
    rw [params_bothReplicatedUp hH hp hn]
    change SliceFits _ _ _ _ _ 0 1 0
    refine ⟨?_, ?_, fun h hh => ?_⟩
    · rw [headsPerRank_one hH hp]
    · rw [Nat.mul_assoc, headsPerRank_one hH (Nat.mul_pos hp hn)]
    · rw [sentHead, if_neg (by omega), headsPerRank_one hH hp, Nat.mod_one, Nat.zero_add,
        Nat.zero_add]
  | @targetReplicated s p q hs hp hq =>
    have hle : s ≤ s * p * q := by
      rw [Nat.mul_assoc]; exact Nat.le_mul_of_pos_right _ (Nat.mul_pos (by omega) (by omega))
    obtain rfl := (mem_targetTpRanks_up hs hle).1 hr
    have hsp : 0 < s * p := Nat.mul_pos hs (by omega)
    rw [params_targetReplicated hs hp hq]
    change SliceFits _ _ _ _ _ (E % (s * p * q) % p) 1 0
    refine ⟨?_, ?_, fun h hh => ?_⟩
    · rw [headsPerRank_mul hs (by omega)]
      exact Nat.mod_lt _ (by omega)
    · rw [headsPerRank_one hsp (by omega)]
    · rw [sentHead, if_neg (by omega), headsPerRank_one hsp (by omega),
        headsPerRank_mul hs (by omega), Nat.mul_one, Nat.zero_add]

/-- Every place of a decode rank is in the slice of some target rank. -/
theorem slice_covers (hshape : Shape H s d) {h : Nat} (hh : h < headsPerRank H d) :
    ∃ r ∈ targetTpRanks d s E, ∀ R, R % s = r →
      (computeHeadSliceParams s d R E H).dstHeadStart ≤ h ∧
        h < (computeHeadSliceParams s d R E H).dstHeadStart +
          (computeHeadSliceParams s d R E H).numHeadsToSend := by
  have hup : 0 < s → s ≤ d → ∃ r ∈ targetTpRanks d s E, ∀ R, R % s = r →
      (computeHeadSliceParams s d R E H).dstHeadStart ≤ h ∧
        h < (computeHeadSliceParams s d R E H).dstHeadStart +
          (computeHeadSliceParams s d R E H).numHeadsToSend := by
    intro hs hle
    refine ⟨_, (mem_targetTpRanks_up hs hle).2 rfl, fun R _ => ?_⟩
    rw [computeHeadSliceParams_up hle]
    simpa using hh
  cases hshape with
  | @split d n m hd hn hm =>
    have hlt : d < d * n := by nlinarith
    rw [Nat.mul_assoc, headsPerRank_mul hd (Nat.mul_pos (by omega) hm)] at hh
    have hj : h / m < n := Nat.div_lt_of_lt_mul (by rwa [Nat.mul_comm])
    refine ⟨_, (mem_targetTpRanks_down hlt).2
      ⟨h / m, by rwa [Nat.mul_div_cancel_left _ hd], rfl⟩, fun R hR => ?_⟩
    rw [Nat.mul_div_cancel_left _ hd] at hR
    rw [params_split hd hn hm hj hR]
    have hdiv := Nat.div_add_mod' h m
    have hmod := Nat.mod_lt h hm
    dsimp only
    omega
  | @sourceReplicated d p q hd hp hq hpq =>
    have hlt : d < d * p * q := by rw [Nat.mul_assoc]; nlinarith
    have hn : d * p * q / d = p * q := by rw [Nat.mul_assoc, Nat.mul_div_cancel_left _ hd]
    rw [headsPerRank_mul hd hp] at hh
    have hj : h * q < p * q := (Nat.mul_lt_mul_right hq).2 hh
    refine ⟨_, (mem_targetTpRanks_down hlt).2 ⟨h * q, by rwa [hn], rfl⟩, fun R hR => ?_⟩
    rw [hn] at hR
    rw [params_sourceReplicated hd hp hq hpq hj hR, Nat.mul_div_cancel _ hq]
    dsimp only
    omega
  | @bothReplicatedDown H p n hH hp hn =>
    have hHp : 0 < H * p := Nat.mul_pos hH hp
    have hlt : H * p < H * p * n := by nlinarith
    rw [headsPerRank_one hH hp] at hh
    refine ⟨_, (mem_targetTpRanks_down hlt).2 ⟨0, by
      rw [Nat.mul_div_cancel_left _ hHp]; omega, rfl⟩, fun R _ => ?_⟩
    rw [params_bothReplicatedDown hH hp hn]
    dsimp only
    omega
  | @joined s n m hs hn hm => exact hup hs (Nat.le_mul_of_pos_right _ hn)
  | @bothReplicatedUp H p n hH hp hn =>
    exact hup (Nat.mul_pos hH hp) (Nat.le_mul_of_pos_right _ hn)
  | @targetReplicated s p q hs hp hq =>
    rw [Nat.mul_assoc] at *
    exact hup hs (Nat.le_mul_of_pos_right _ (Nat.mul_pos (by omega) (by omega)))

/-- **The head that is sent is the decode rank's own**, unless the prefill group is smaller than
the number of heads and the decode group larger. -/
theorem sentHead_own (hshape : Shape H s d) (hrep : ¬ (s < H ∧ H < d)) {e h : Nat}
    (hh : h < headsPerRank H d) : sentHead H s d e h = headOf H d e h := by
  cases hshape with
  | @split d n m hd hn hm => rw [sentHead, if_pos (by nlinarith)]
  | @sourceReplicated d p q hd hp hq hpq =>
    rw [sentHead, if_pos (by rw [Nat.mul_assoc]; nlinarith)]
  | @bothReplicatedDown H p n hH hp hn =>
    rw [sentHead, if_pos (by nlinarith [Nat.mul_pos hH hp])]
  | @joined s n m hs hn hm =>
    have hle : s ≤ s * n := Nat.le_mul_of_pos_right _ hn
    have hper : headsPerRank (s * n * m) s = n * m := by
      rw [Nat.mul_assoc, headsPerRank_mul hs (Nat.mul_pos hn hm)]
    have hsn : 0 < s * n := Nat.mul_pos hs hn
    have he : n * (e / n) + e % n = e := Nat.div_add_mod e n
    rw [sentHead, if_neg (by omega), headsPerRank_mul hsn hm, hper, headOf_mul hsn hm,
      Nat.mul_assoc, headOf_mul hs (Nat.mul_pos hn hm), Nat.mul_div_cancel_left _ hs,
      Nat.mul_mod_mul_right]
    calc e / n * (n * m) + (e % n * m + h) = (n * (e / n) + e % n) * m + h := by ring
      _ = e * m + h := by rw [he]
  | @bothReplicatedUp H p n hH hp hn =>
    have hHp : 0 < H * p := Nat.mul_pos hH hp
    have hle : H * p ≤ H * p * n := Nat.le_mul_of_pos_right _ hn
    have hpn : 0 < p * n := Nat.mul_pos hp hn
    rw [Nat.mul_assoc, headsPerRank_one hH hpn] at hh
    obtain rfl : h = 0 := by omega
    rw [sentHead, if_neg (by omega), headsPerRank_one hH hp, Nat.mod_one,
      Nat.mul_div_cancel_left _ hHp, headOf_replicated hH hp, Nat.mul_assoc,
      headOf_replicated hH hpn, Nat.div_div_eq_div_mul, Nat.mul_comm p n]
  | @targetReplicated s p q hs hp hq =>
    exact absurd ⟨by nlinarith, by nlinarith [Nat.mul_pos hs (by omega : 0 < p)]⟩ hrep

theorem sentHead_one (hshape : Shape H s d) (hsH : s < H) (hHd : H < d) :
    1 < d ∧ (E % d = 1 → sentHead H s d (E % d) 0 = 1) ∧ headOf H d 1 0 = 0 := by
  cases hshape with
  | @split d n m hd hn hm => nlinarith
  | @sourceReplicated d p q hd hp hq hpq => nlinarith [Nat.mul_pos hd hp]
  | @bothReplicatedDown H p n hH hp hn => nlinarith [Nat.mul_pos hH hp]
  | @joined s n m hs hn hm => nlinarith [Nat.mul_pos hs hn]
  | @bothReplicatedUp H p n hH hp hn => nlinarith
  | @targetReplicated s p q hs hp hq =>
    have hsp : 0 < s * p := Nat.mul_pos hs (by omega)
    have hpq : 1 < p * q := by nlinarith
    refine ⟨by nlinarith, fun he => ?_, ?_⟩
    · rw [he, sentHead, if_neg (by rw [Nat.mul_assoc]; nlinarith), headsPerRank_one hsp (by omega),
        headsPerRank_mul hs (by omega), headOf_mul hs (by omega), Nat.mod_eq_of_lt hp,
        Nat.mul_assoc, Nat.mul_div_cancel_left _ hs, Nat.div_eq_of_lt hpq]
      omega
    · rw [headOf_replicated hsp (by omega), Nat.div_eq_of_lt hq]

end Slices

/-! ## 5. The slice that the decode side expects of a writer -/

section Writers

variable {H s d E R wr : Nat}

/-- The number of heads as the decode side computes it, from the heads on its own ranks. -/
def decodeTotalKvHeads (H d : Nat) : Nat := headsPerRank H d * d

theorem headsPerRank_decodeTotal (hd : 0 < d) :
    headsPerRank (decodeTotalKvHeads H d) d = headsPerRank H d := by
  have hpos := headsPerRank_pos H d
  rw [decodeTotalKvHeads, headsPerRank, Nat.mul_div_cancel _ hd]
  omega

/-- **Both sides agree on a writer's slice**: the decode side, which knows only its own number of
heads and the writer's position, expects what the prefill rank in that position sends. -/
theorem writer_slice (hshape : Shape H s d) (hd : 0 < d) (hwr : wr < numWriters s d)
    (hR : s > d → R % s = E % d * (s / d) + wr) :
    (computeHeadSliceParams s d wr E (decodeTotalKvHeads H d)).numHeadsToSend =
        (computeHeadSliceParams s d R E H).numHeadsToSend ∧
      (computeHeadSliceParams s d wr E (decodeTotalKvHeads H d)).dstHeadStart =
        (computeHeadSliceParams s d R E H).dstHeadStart := by
  rcases Nat.lt_or_ge d s with hlt | hle
  swap
  · rw [computeHeadSliceParams_up hle, computeHeadSliceParams_up hle, headsPerRank_decodeTotal hd]
    exact ⟨rfl, rfl⟩
  have hR' := hR hlt
  rw [numWriters, if_pos hlt, Nat.max_eq_right hd] at hwr
  have hown : wr % s = 0 * (s / d) + wr := by
    rw [Nat.mod_eq_of_lt (lt_of_lt_of_le hwr (Nat.div_le_self _ _)), Nat.zero_mul, Nat.zero_add]
  cases hshape with
  | @split d n m hd hn hm =>
    have hdec : decodeTotalKvHeads (d * n * m) d = d * n * m := by
      rw [decodeTotalKvHeads, Nat.mul_assoc, headsPerRank_mul hd (Nat.mul_pos (by omega) hm),
        Nat.mul_comm]
    rw [Nat.mul_div_cancel_left _ hd] at hwr hown hR'
    rw [hdec, params_split hd hn hm hwr hown, params_split hd hn hm hwr hR']
    exact ⟨rfl, rfl⟩
  | @sourceReplicated d p q hd hp hq hpq =>
    have hdec : decodeTotalKvHeads (d * p) d = d * p := by
      rw [decodeTotalKvHeads, headsPerRank_mul hd hp, Nat.mul_comm]
    have hn : d * p * q / d = p * q := by rw [Nat.mul_assoc, Nat.mul_div_cancel_left _ hd]
    rw [hn] at hwr hown hR'
    rw [hdec, params_sourceReplicated hd hp hq hpq hwr hown,
      params_sourceReplicated hd hp hq hpq hwr hR']
    exact ⟨rfl, rfl⟩
  | @bothReplicatedDown H p n hH hp hn =>
    have hdec : decodeTotalKvHeads H (H * p) = H * p := by
      rw [decodeTotalKvHeads, headsPerRank_one hH hp, Nat.one_mul]
    have hown' := params_bothReplicatedDown (E := E) (R := wr) (Nat.mul_pos hH hp) Nat.one_pos hn
    rw [Nat.mul_one] at hown'
    rw [hdec, params_bothReplicatedDown hH hp hn, hown']
    exact ⟨rfl, rfl⟩
  | @joined s n m hs hn hm => nlinarith
  | @bothReplicatedUp H p n hH hp hn => nlinarith [Nat.mul_pos hH hp]
  | @targetReplicated s p q hs hp hq => nlinarith [Nat.mul_pos (by omega : 0 < p) (by omega : 0 < q)]

end Writers

end Sglang.Disaggregation
