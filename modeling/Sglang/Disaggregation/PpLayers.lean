/-
# The layers of a pipeline stage

A stage of a prefill pipeline sends the keys and values of its own layers to a decode rank that has all of
them.  `get_mha_kv_ptrs_with_pp` picks the pointers of these layers on the decode side, and the lists that it
returns are sent place by place.

The decode side has its values behind the keys of all main layers.  Where that is is guessed from two
counts of layers, and the guess is right for every stage exactly if the stages divide the layers evenly and
the draft layers are fewer than the layers of a stage (`stagesPair_iff`).  MLA is not modelled.
-/
import Mathlib.Data.Nat.ModEq

namespace Sglang.Disaggregation

open List

variable {Ptr : Type}

/-! ## 1. The functions -/

/-- `l[start:stop]`. -/
def slice (l : List Ptr) (start stop : ℕ) : List Ptr := (l.take stop).drop start

/-- What `get_mha_kv_ptrs_with_pp` returns. -/
structure MhaKvPtrs (Ptr : Type) where
  srcKPtrs : List Ptr
  srcVPtrs : List Ptr
  dstKPtrs : List Ptr
  dstVPtrs : List Ptr
  layersCurrentPpStage : ℕ

/-- `none` is the division by zero of a stage without layers. -/
def getMhaKvPtrsWithPp (prefillStartLayer : ℕ) (srcKvPtrs dstKvPtrs : List Ptr) :
    Option (MhaKvPtrs Ptr) :=
  let startLayer := prefillStartLayer
  let numKvLayers := srcKvPtrs.length / 2
  let endLayer := startLayer + numKvLayers
  let dstNumTotalLayers := dstKvPtrs.length / 2
  let srcKPtrs := srcKvPtrs.take numKvLayers
  let srcVPtrs := srcKvPtrs.drop numKvLayers
  if numKvLayers = dstNumTotalLayers then
    some ⟨srcKPtrs, srcVPtrs, dstKvPtrs.take dstNumTotalLayers, dstKvPtrs.drop dstNumTotalLayers,
      srcKPtrs.length⟩
  else if numKvLayers < dstNumTotalLayers ∧ numKvLayers = 0 then none
  else if numKvLayers < dstNumTotalLayers ∧ dstNumTotalLayers % numKvLayers ≠ 0 then
    let multiplierRatio := dstNumTotalLayers / numKvLayers
    let vPtrOffset := numKvLayers * multiplierRatio
    some ⟨srcKPtrs, srcVPtrs, slice dstKvPtrs startLayer endLayer,
      slice dstKvPtrs (vPtrOffset + startLayer) (vPtrOffset + endLayer), srcKPtrs.length⟩
  else
    some ⟨srcKPtrs, srcVPtrs, slice dstKvPtrs startLayer endLayer,
      slice dstKvPtrs (dstNumTotalLayers + startLayer) (dstNumTotalLayers + endLayer), srcKPtrs.length⟩

/-! ## 2. Stages -/

/-- The pointers of a decode rank, as they are registered. -/
structure DecodePtrs (Ptr : Type) where
  kMain : List Ptr
  vMain : List Ptr
  kDraft : List Ptr
  vDraft : List Ptr
  vMain_length : vMain.length = kMain.length
  vDraft_length : vDraft.length = kDraft.length

/-- `dst_kv_ptrs`. -/
def DecodePtrs.ptrs (decode : DecodePtrs Ptr) : List Ptr :=
  decode.kMain ++ decode.vMain ++ decode.kDraft ++ decode.vDraft

/-- A prefill stage: its first layer, and the pointers of its layers. -/
structure Stage (Ptr : Type) where
  startLayer : ℕ
  k : List Ptr
  v : List Ptr
  v_length : v.length = k.length

/-- `kv_data_ptrs`. -/
def Stage.ptrs (stage : Stage Ptr) : List Ptr := stage.k ++ stage.v

/-- The stages are consecutive from `start` on, each of them with a layer, and the last ends at `stop`. -/
def Consecutive : ℕ → ℕ → List (Stage Ptr) → Prop
  | start, stop, [] => start = stop
  | start, stop, stage :: stages =>
    stage.startLayer = start ∧ stage.k ≠ [] ∧ Consecutive (start + stage.k.length) stop stages

/-- Local layer `i` of the stage is paired with main layer `startLayer + i` of the decode rank. -/
def StagePairs (decode : DecodePtrs Ptr) (stage : Stage Ptr) : Prop :=
  ∃ p, getMhaKvPtrsWithPp stage.startLayer stage.ptrs decode.ptrs = some p ∧
    p.layersCurrentPpStage = stage.k.length ∧ ∀ i < stage.k.length,
      p.srcKPtrs[i]? = stage.k[i]? ∧ p.dstKPtrs[i]? = decode.kMain[stage.startLayer + i]? ∧
      p.srcVPtrs[i]? = stage.v[i]? ∧ p.dstVPtrs[i]? = decode.vMain[stage.startLayer + i]?

variable {decode : DecodePtrs Ptr} {stage : Stage Ptr} {i n l d start stop : ℕ}

theorem Consecutive.mem : ∀ {stages : List (Stage Ptr)} {start : ℕ}, Consecutive start stop stages →
    start ≤ stop ∧ ∀ stage ∈ stages, stage.k ≠ [] ∧ stage.startLayer + stage.k.length ≤ stop
  | [], _, h => ⟨h.le, fun _ hs => absurd hs not_mem_nil⟩
  | stage :: stages, start, ⟨hstart, hne, h⟩ => by
    obtain ⟨hle, hrest⟩ := h.mem
    refine ⟨(Nat.le_add_right _ _).trans hle, fun s hs => ?_⟩
    rcases mem_cons.mp hs with rfl | hs
    · exact ⟨hne, hstart ▸ hle⟩
    · exact hrest s hs

/-! ## 3. The guess -/

/-- Where the values are taken to start, for a stage of `n` layers and `total` layers on the decode side. -/
def vOffset (n total : ℕ) : ℕ := if total % n ≠ 0 then n * (total / n) else total

/-- **When the guess is right.** -/
theorem vOffset_eq_iff (hn : 0 < n) : vOffset n (l + d) = l ↔ n ∣ l ∧ d < n := by
  have hdiv := Nat.div_add_mod (l + d) n
  have hmod := Nat.mod_lt (l + d) hn
  unfold vOffset
  split
  · constructor
    · intro h
      exact ⟨⟨_, h.symm⟩, by omega⟩
    · rintro ⟨⟨k, rfl⟩, hd⟩
      rw [Nat.mul_add_div hn, Nat.div_eq_of_lt hd, Nat.add_zero]
  · rename_i hzero
    have hdvd : n ∣ l + d := Nat.dvd_of_mod_eq_zero (not_not.mp hzero)
    constructor
    · intro h
      have hd : d = 0 := by omega
      subst hd
      exact ⟨hdvd, hn⟩
    · rintro ⟨hl, hd⟩
      have := Nat.eq_zero_of_dvd_of_lt ((Nat.dvd_add_right hl).mp hdvd) hd
      omega

theorem getElem?_slice (l : List Ptr) (hi : i < n) : (slice l start (start + n))[i]? =
    l[start + i]? := by
  rw [slice, getElem?_drop, getElem?_take_of_lt (by omega)]

theorem length_ptrs : decode.ptrs.length / 2 = decode.kMain.length + decode.kDraft.length := by
  simp only [DecodePtrs.ptrs, length_append, decode.vMain_length, decode.vDraft_length]
  omega

/-- What is picked for a stage, layer by layer. -/
theorem getMhaKvPtrsWithPp_spec (hne : stage.k ≠ [])
    (hle : stage.startLayer + stage.k.length ≤ decode.kMain.length) :
    ∃ p, getMhaKvPtrsWithPp stage.startLayer stage.ptrs decode.ptrs = some p ∧
      p.layersCurrentPpStage = stage.k.length ∧ p.srcKPtrs = stage.k ∧ p.srcVPtrs = stage.v ∧
      ∀ i < stage.k.length, p.dstKPtrs[i]? = decode.ptrs[stage.startLayer + i]? ∧
        p.dstVPtrs[i]? = decode.ptrs[vOffset stage.k.length
          (decode.kMain.length + decode.kDraft.length) + (stage.startLayer + i)]? := by
  have hpos : 0 < stage.k.length := length_pos_iff.mpr hne
  have hlen : stage.ptrs.length / 2 = stage.k.length := by
    rw [Stage.ptrs, length_append, stage.v_length]
    omega
  have hk : stage.ptrs.take stage.k.length = stage.k := take_left
  have hv : stage.ptrs.drop stage.k.length = stage.v := drop_left
  unfold getMhaKvPtrsWithPp vOffset
  simp only [hlen, length_ptrs, hk, hv, ← Nat.add_assoc]
  split
  · -- the stage has all layers of the decode rank
    rename_i hall
    refine ⟨_, rfl, rfl, rfl, rfl, fun i hi => ?_⟩
    have hstart : stage.startLayer = 0 := by omega
    rw [if_neg (by rw [← hall, Nat.mod_self]; exact not_not.mpr rfl), hstart, Nat.zero_add,
      getElem?_take_of_lt (by omega), getElem?_drop]
    exact ⟨rfl, rfl⟩
  rw [if_neg (by omega)]
  split
  · rename_i hrem
    rw [if_pos hrem.2]
    exact ⟨_, rfl, rfl, rfl, rfl, fun i hi => ⟨getElem?_slice _ hi, getElem?_slice _ hi⟩⟩
  · rename_i hrem
    rw [if_neg fun h => hrem ⟨by omega, h⟩]
    exact ⟨_, rfl, rfl, rfl, rfl, fun i hi => ⟨getElem?_slice _ hi, getElem?_slice _ hi⟩⟩

theorem getElem?_kMain (hi : i < decode.kMain.length) : decode.ptrs[i]? = decode.kMain[i]? := by
  simp only [DecodePtrs.ptrs, append_assoc]
  exact getElem?_append_left hi

theorem getElem?_vMain (hi : i < decode.kMain.length) :
    decode.ptrs[decode.kMain.length + i]? = decode.vMain[i]? := by
  simp only [DecodePtrs.ptrs, append_assoc]
  rw [getElem?_append_right (Nat.le_add_right _ _), Nat.add_sub_cancel_left,
    getElem?_append_left (decode.vMain_length ▸ hi)]

/-- **A stage is paired as it should** exactly if the guess is right for it. -/
theorem stagePairs_iff (hnodup : decode.ptrs.Nodup) (hne : stage.k ≠ [])
    (hle : stage.startLayer + stage.k.length ≤ decode.kMain.length) :
    StagePairs decode stage ↔
      stage.k.length ∣ decode.kMain.length ∧ decode.kDraft.length < stage.k.length := by
  have hpos : 0 < stage.k.length := length_pos_iff.mpr hne
  obtain ⟨p, hp, hlayers, hsk, hsv, hdst⟩ := getMhaKvPtrsWithPp_spec hne hle
  rw [← vOffset_eq_iff hpos]
  constructor
  · rintro ⟨p', hp', -, hpair⟩
    obtain rfl : p = p' := Option.some.inj (hp.symm.trans hp')
    -- the first layer decides: no pointer stands at two places
    have hfirst := (hpair 0 hpos).2.2.2
    rw [(hdst 0 hpos).2, ← getElem?_vMain (by omega)] at hfirst
    have hlt : decode.kMain.length + (stage.startLayer + 0) < decode.ptrs.length := by
      have := decode.vMain_length
      simp only [DecodePtrs.ptrs, length_append]
      omega
    have := (getElem?_inj hlt hnodup).mp hfirst.symm
    omega
  · intro hoff
    refine ⟨p, hp, hlayers, fun i hi => ?_⟩
    rw [hsk, hsv, (hdst i hi).1, (hdst i hi).2, hoff, getElem?_kMain (by omega), getElem?_vMain (by omega)]
    exact ⟨rfl, rfl, rfl, rfl⟩

/-! ## 4. A pipeline -/

/-- **Every stage of a pipeline is paired as it should** exactly if each has a number of layers that divides
the number of all layers, and more layers than the draft model. -/
theorem stagesPair_iff {stages : List (Stage Ptr)} (hnodup : decode.ptrs.Nodup)
    (h : Consecutive 0 decode.kMain.length stages) :
    (∀ stage ∈ stages, StagePairs decode stage) ↔ ∀ stage ∈ stages,
      stage.k.length ∣ decode.kMain.length ∧ decode.kDraft.length < stage.k.length := by
  refine forall_congr' fun stage => forall_congr' fun hstage => ?_
  obtain ⟨hne, hle⟩ := h.mem.2 stage hstage
  exact stagePairs_iff hnodup hne hle

/-- A decode rank with four layers and a draft layer; 0 to 3 are its keys. -/
def exampleDecode : DecodePtrs ℕ := ⟨[0, 1, 2, 3], [4, 5, 6, 7], [8], [9], rfl, rfl⟩

/-- Two stages of two layers. -/
def exampleStages : List (Stage ℕ) := [⟨0, [10, 11], [12, 13], rfl⟩, ⟨2, [14, 15], [16, 17], rfl⟩]

theorem stagesPair_exampleStages : Consecutive 0 exampleDecode.kMain.length exampleStages ∧
    ∀ stage ∈ exampleStages, StagePairs exampleDecode stage :=
  have h : Consecutive 0 exampleDecode.kMain.length exampleStages := ⟨rfl, by decide, rfl, by decide, rfl⟩
  ⟨h, (stagesPair_iff (by decide) h).mpr (by decide)⟩

/-- Three layers, of which two are on the first stage. -/
def unevenStages : List (Stage ℕ) := [⟨0, [6, 7], [8, 9], rfl⟩, ⟨2, [10], [11], rfl⟩]

/-- **An uneven pipeline writes values over keys.** -/
theorem unevenStages_overwrite : Consecutive 0 3 unevenStages ∧
    ¬ ∀ stage ∈ unevenStages, StagePairs ⟨[0, 1, 2], [3, 4, 5], [], [], rfl, rfl⟩ stage := by
  refine ⟨⟨rfl, by decide, rfl, by decide, rfl⟩, fun h => ?_⟩
  obtain ⟨p, hp, -, hpair⟩ := h _ mem_cons_self
  obtain rfl := Option.some.inj hp
  exact absurd (hpair 0 (by decide)).2.2.2 (by decide)

end Sglang.Disaggregation
