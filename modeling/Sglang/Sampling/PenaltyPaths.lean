/-
# The ways of applying penalties

`apply` of `orchestrator.py` lets the penalizers change the logits one after another, in the order of a
set; with `repeat` it adds the additive penalties first and scales afterwards, each for as many rows as there
are draft tokens.  The overlap scheduler does the same in two steps, `update_penalties` and
`apply_logits_bias` of `sampling_batch_info.py`.

A repetition penalty scales a logit by its sign, and does not commute with what is added.  The last two ways
always agree (`adjustRepeated_eq`).  The first one agrees with them exactly where the scaling may be exchanged
with the penalties behind it (`penaltyPathsAgree_iff`).
-/
import Mathlib.Algebra.BigOperators.Group.List.Basic
import Mathlib.Tactic.LinearCombination
import Mathlib.Tactic.Linarith
import Sglang.Sampling.Penalizers

namespace Sglang

open Lib Lib.Columns List Option

namespace Sampling

variable {R : Type} [Field R] [LinearOrder R]

/-! ## 1. The functions -/

inductive PenalizerClass
  | frequency
  | minNewTokens
  | presence
  | repetition
deriving DecidableEq

/-- `is_multiplicative`. -/
def PenalizerClass.isMultiplicative : PenalizerClass → Bool
  | .repetition => true
  | _ => false

/-- A logit that is scaled. -/
def scaleLogit (scaling logit : R) : R := if logit < 0 then logit * scaling else logit / scaling

/-- `apply_scaling_penalties`. -/
def applyScalingPenalties (logits : List (Logits R)) (scalingPenalties : List (ℕ → R)) : List (Logits R) :=
  List.zipWith (fun logit scaling token => (logit token).map (scaleLogit (scaling token))) logits
    scalingPenalties

/-- `logits.add_`. -/
def addLogits (logits additive : List (Logits R)) : List (Logits R) :=
  List.zipWith (fun logit row token => logit token + row token) logits additive

/-- `torch.zeros`, for so many requests. -/
def zeroLogits (bs : ℕ) : List (Logits R) := List.replicate bs fun _ => 0

/-- `torch.repeat_interleave`. -/
def repeatInterleave {α : Type} (rows : List α) (repeats : ℕ) : List α :=
  rows.flatMap fun row => List.replicate repeats row

namespace Orchestrator

/-- `apply` of one penalizer. -/
def applyOne (o : Orchestrator R) (logits : List (Logits R)) : PenalizerClass → List (Logits R)
  | .frequency => applyCumulated o.frequency logits
  | .minNewTokens => applyStopTokens o.minNewTokens logits
  | .presence => applyCumulated o.presence logits
  | .repetition =>
    match o.repetition with
    | none => logits
    | some rows => applyScalingPenalties logits (rows.map (·.cumulated))

/-- `get_scaling_penalties` of a penalizer that is prepared and multiplicative. -/
def scalingPenalties (o : Orchestrator R) : PenalizerClass → Option (List (ℕ → R))
  | .repetition => o.repetition.map (·.map (·.cumulated))
  | _ => none

/-- `accumulate_additive_penalties`, of the penalizers in the order of the set. -/
def accumulateAdditive (o : Orchestrator R) (order : List PenalizerClass) (logits : List (Logits R)) :
    List (Logits R) :=
  (order.filter fun c => !c.isMultiplicative).foldl o.applyOne logits

/-- One round of the loop of `accumulate_scaling_penalties`. -/
def accumulateOne (o : Orchestrator R) (result : Option (List (ℕ → R))) (c : PenalizerClass) :
    Option (List (ℕ → R)) :=
  match o.scalingPenalties c with
  | none => result
  | some scaling =>
    match result with
    | none => some scaling
    | some result => some (List.zipWith (fun a b token => a token * b token) result scaling)

/-- `accumulate_scaling_penalties`. -/
def accumulateScaling (o : Orchestrator R) (order : List PenalizerClass) : Option (List (ℕ → R)) :=
  order.foldl o.accumulateOne none

/-- `apply`. -/
def apply (o : Orchestrator R) (order : List PenalizerClass) (logits : List (Logits R)) :
    Option ℕ → List (Logits R)
  | none => order.foldl o.applyOne logits
  | some repeats =>
    let bs := logits.length / repeats
    let additive := o.accumulateAdditive order (zeroLogits bs)
    let logits := addLogits logits (repeatInterleave additive repeats)
    match o.accumulateScaling order with
    | none => logits
    | some accumulated => applyScalingPenalties logits (repeatInterleave accumulated repeats)

end Orchestrator

/-- `acc_additive_penalties` and `acc_scaling_penalties`. -/
structure AccPenalties (R : Type) where
  additive : Option (List (Logits R))
  scaling : Option (List (ℕ → R))

/-- `update_penalties`, for so many requests. -/
def updatePenalties (o : Orchestrator R) (order : List PenalizerClass) (bs : ℕ) : AccPenalties R :=
  if o.isRequired then ⟨some (o.accumulateAdditive order (zeroLogits bs)), o.accumulateScaling order⟩
  else ⟨none, none⟩

/-- The part of `apply_logits_bias` that penalties have to do with.  The overlap scheduler leaves the
orchestrator out of the copy that is used for a forward pass. -/
def applyLogitsBias (acc : AccPenalties R) (penalizerOrchestrator : Option (Orchestrator R))
    (order : List PenalizerClass) (logits : List (Logits R)) : List (Logits R) :=
  let logits :=
    match acc.additive with
    | none => logits
    | some additive => addLogits logits additive
  let logits :=
    match acc.scaling with
    | none => logits
    | some scaling => applyScalingPenalties logits scaling
  match penalizerOrchestrator with
  | none => logits
  | some o => if o.isRequired then o.apply order logits none else logits

/-! ## 2. What is claimed -/

/-- A row for each request where a penalizer is prepared, none if no penalizer is required, and scaling
penalties by which a logit can be divided. -/
structure Orchestrator.Prepared (o : Orchestrator R) (bs : ℕ) : Prop where
  frequency : ∀ rows ∈ o.frequency, rows.length = bs
  minNewTokens : ∀ rows ∈ o.minNewTokens, rows.length = bs
  presence : ∀ rows ∈ o.presence, rows.length = bs
  repetition : ∀ rows ∈ o.repetition, rows.length = bs
  scaling_pos : ∀ rows ∈ o.repetition, ∀ row ∈ rows, ∀ token, 0 < row.cumulated token
  idle : o.isRequired = false →
    o.frequency = none ∧ o.minNewTokens = none ∧ o.presence = none ∧ o.repetition = none

/-- The three ways give the same logits, for an order of the set. -/
def PenaltyPathsAgree (o : Orchestrator R) (order : List PenalizerClass) (logits : List (Logits R)) : Prop :=
  applyLogitsBias (updatePenalties o order logits.length) none order logits = o.apply order logits none ∧
  ∀ repeats, 0 < repeats → o.apply order (repeatInterleave logits repeats) (some repeats) =
    repeatInterleave (o.apply order logits none) repeats

/-- What a penalizer adds to a logit. -/
def Orchestrator.additiveOf (o : Orchestrator R) (i token : ℕ) : PenalizerClass → WithBot R
  | .frequency => (o.frequency.bind (·[i]?)).elim 0 fun row => ((-row.cumulated token : R) : WithBot R)
  | .minNewTokens => (o.minNewTokens.bind (·[i]?)).elim 0 fun row =>
      if row.lenOutputTokens < row.minNewTokens ∧ token ∈ row.stopTokens then ⊥ else 0
  | .presence => (o.presence.bind (·[i]?)).elim 0 fun row => ((-row.cumulated token : R) : WithBot R)
  | .repetition => 0

/-- What some of the penalizers add to a logit. -/
def Orchestrator.additiveAt (o : Orchestrator R) (order : List PenalizerClass) (i token : ℕ) : WithBot R :=
  (order.map (o.additiveOf i token)).sum

/-- When a penalty may be added in front of the scaling or behind it: there is none, or nothing is scaled, or
the logit is masked, or the sign changes in such a way that the results happen to be equal. -/
def CommutesAt (scaling : R) (logit penalty : WithBot R) : Prop :=
  scaling = 1 ∨ penalty = 0 ∨ penalty = ⊥ ∨ logit = ⊥ ∨
    ∃ x b : R, logit = x ∧ penalty = b ∧
      (x < 0 ∧ 0 ≤ x + b ∧ b = -(x * (scaling + 1)) ∨
        0 ≤ x ∧ x + b < 0 ∧ b * scaling = -(x * (scaling + 1)))

/-- The penalties behind the scaling commute with it, in every row and for every token. -/
def ScalingCommutes (o : Orchestrator R) (order : List PenalizerClass) (logits : List (Logits R)) : Prop :=
  ∀ front back, order = front ++ .repetition :: back → ∀ rows ∈ o.repetition,
    ∀ (i : ℕ) (logit : Logits R) (row : PenaltyRow R), logits[i]? = some logit → rows[i]? = some row →
      ∀ token, CommutesAt (row.cumulated token) (logit token + o.additiveAt front i token)
        (o.additiveAt back i token)

/-! ## 3. One logit -/

@[simp]
theorem map_scaleLogit_one (v : WithBot R) : v.map (scaleLogit 1) = v := by
  induction v <;> simp [scaleLogit]

section

variable [IsStrictOrderedRing R]

theorem scaleLogit_add_iff {s x b : R} (hs : 0 < s) : scaleLogit s x + b = scaleLogit s (x + b) ↔
    s = 1 ∨ b = 0 ∨ x < 0 ∧ 0 ≤ x + b ∧ b = -(x * (s + 1)) ∨
      0 ≤ x ∧ x + b < 0 ∧ b * s = -(x * (s + 1)) := by
  have hne : s ≠ 0 := hs.ne'
  -- clear the denominators, and take out the factor by which nothing is scaled
  have hfactor : ∀ e : R, (s - 1) * e = 0 ↔ s = 1 ∨ e = 0 := by
    intro e
    rw [mul_eq_zero, sub_eq_zero]
  unfold scaleLogit
  split_ifs with hx hxb hxb
  · have heq : x * s + b = (x + b) * s ↔ (s - 1) * b = 0 := by
      constructor <;> intro h <;> linear_combination -h
    rw [heq, hfactor]
    constructor
    · rintro (h | h)
      · exact Or.inl h
      · exact Or.inr (Or.inl h)
    · rintro (h | h | ⟨-, h, -⟩ | ⟨h, -⟩)
      · exact Or.inl h
      · exact Or.inr h
      · exact absurd h (not_le.mpr hxb)
      · exact absurd h (not_le.mpr hx)
  · have heq : x * s + b = (x + b) / s ↔ (s - 1) * (x * (s + 1) + b) = 0 := by
      rw [eq_div_iff hne]
      constructor <;> intro h <;> linear_combination h
    rw [heq, hfactor, add_comm, add_eq_zero_iff_eq_neg]
    constructor
    · rintro (h | h)
      · exact Or.inl h
      · exact Or.inr (Or.inr (Or.inl ⟨hx, not_lt.mp hxb, h⟩))
    · rintro (h | rfl | ⟨-, -, h⟩ | ⟨h, -⟩)
      · exact Or.inl h
      · exact absurd (by simpa using hx) hxb
      · exact Or.inr h
      · exact absurd h (not_le.mpr hx)
  · have heq : x / s + b = (x + b) * s ↔ (s - 1) * (b * s + x * (s + 1)) = 0 := by
      rw [div_add' _ _ _ hne, div_eq_iff hne]
      constructor <;> intro h <;> linear_combination -h
    rw [heq, hfactor, add_eq_zero_iff_eq_neg]
    constructor
    · rintro (h | h)
      · exact Or.inl h
      · exact Or.inr (Or.inr (Or.inr ⟨not_lt.mp hx, hxb, h⟩))
    · rintro (h | rfl | ⟨h, -⟩ | ⟨-, -, h⟩)
      · exact Or.inl h
      · exact absurd (by simpa using hxb) hx
      · exact absurd h hx
      · exact Or.inr h
  · have heq : x / s + b = (x + b) / s ↔ (s - 1) * b = 0 := by
      rw [div_add' _ _ _ hne, div_left_inj' hne]
      constructor <;> intro h <;> linear_combination h
    rw [heq, hfactor]
    constructor
    · rintro (h | h)
      · exact Or.inl h
      · exact Or.inr (Or.inl h)
    · rintro (h | h | ⟨h, -⟩ | ⟨-, h, -⟩)
      · exact Or.inl h
      · exact Or.inr h
      · exact absurd h hx
      · exact absurd h hxb

/-- **When scaling commutes** with a penalty behind it. -/
theorem commutesAt_iff {s : R} (hs : 0 < s) (logit penalty : WithBot R) :
    logit.map (scaleLogit s) + penalty = (logit + penalty).map (scaleLogit s) ↔ CommutesAt s logit penalty := by
  induction logit with
  | bot => simp [CommutesAt]
  | coe x =>
    induction penalty with
    | bot => simp [CommutesAt]
    | coe b =>
      rw [WithBot.map_coe, ← WithBot.coe_add, ← WithBot.coe_add, WithBot.map_coe, WithBot.coe_inj,
        scaleLogit_add_iff hs]
      simp [CommutesAt]

end

/-! ## 4. Row by row -/

namespace Orchestrator

variable {o : Orchestrator R} {order : List PenalizerClass} {logits : List (Logits R)} {bs i : ℕ}

/-- By what the scaling penalties scale a logit. -/
def scalingAt (o : Orchestrator R) (i token : ℕ) : R :=
  (o.repetition.bind (·[i]?)).elim 1 fun row => row.cumulated token

/-- What a penalizer does to a logit. -/
def onLogit (o : Orchestrator R) (i token : ℕ) (v : WithBot R) : PenalizerClass → WithBot R
  | .repetition => v.map (scaleLogit (o.scalingAt i token))
  | c => v + o.additiveOf i token c

omit [Field R] [LinearOrder R] in
theorem getElem?_zipWith_rows {α : Type} {rows : List α} (f : Logits R → α → Logits R)
    (h : rows.length = logits.length) (i : ℕ) :
    (List.zipWith f logits rows)[i]? = logits[i]?.map fun logit => (rows[i]?).elim logit (f logit) := by
  rw [getElem?_zipWith]
  rcases hl : logits[i]? with _ | logit
  · rfl
  · have hi : i < rows.length := h ▸ (List.getElem?_eq_some_iff.mp hl).1
    rw [getElem?_eq_getElem hi]
    rfl

omit [LinearOrder R] in
theorem applyCumulated_spec {batched : BatchedPenalizer (PenaltyRow R)}
    (h : ∀ rows ∈ batched, rows.length = bs) (hlen : logits.length = bs) :
    (applyCumulated batched logits).length = bs ∧ ∀ i : ℕ, (applyCumulated batched logits)[i]? =
      logits[i]?.map fun logit token => logit token +
        (batched.bind (·[i]?)).elim 0 fun row => ((-row.cumulated token : R) : WithBot R) := by
  rcases batched with _ | rows
  · simp [applyCumulated, hlen]
  · have hl : rows.length = logits.length := (h rows rfl).trans hlen.symm
    refine ⟨by simp [applyCumulated, hl, hlen], fun i => ?_⟩
    simp only [applyCumulated, getElem?_zipWith_rows _ hl, bind_some]
    cases rows[i]? <;> simp

/-- **One penalizer** adds to each logit, or scales it. -/
theorem applyOne_spec (h : o.Prepared bs) (hlen : logits.length = bs) (c : PenalizerClass) :
    (o.applyOne logits c).length = bs ∧ ∀ i : ℕ, (o.applyOne logits c)[i]? =
      logits[i]?.map fun logit token => o.onLogit i token (logit token) c := by
  cases c with
  | frequency => exact applyCumulated_spec h.frequency hlen
  | presence => exact applyCumulated_spec h.presence hlen
  | minNewTokens =>
    rcases hrows : o.minNewTokens with _ | rows
    · simp [applyOne, applyStopTokens, hrows, onLogit, additiveOf, hlen]
    · have hl : rows.length = logits.length := (h.minNewTokens rows hrows).trans hlen.symm
      refine ⟨by simp [applyOne, applyStopTokens, hrows, hl, hlen], fun i => ?_⟩
      simp only [applyOne, applyStopTokens, hrows, getElem?_zipWith_rows _ hl, onLogit, additiveOf,
        bind_some]
      rcases rows[i]? with _ | row
      · simp
      · congr 1
        funext logit token
        simp only [elim_some]
        split <;> simp
  | repetition =>
    rcases hrows : o.repetition with _ | rows
    · simp [applyOne, hrows, onLogit, scalingAt, hlen]
    · have hl : (rows.map (·.cumulated)).length = logits.length := by
        rw [length_map, h.repetition rows hrows, hlen]
      refine ⟨by simp [applyOne, applyScalingPenalties, hrows, h.repetition rows hrows, hlen],
        fun i => ?_⟩
      simp only [applyOne, applyScalingPenalties, hrows, getElem?_zipWith_rows _ hl, onLogit, scalingAt,
        bind_some, getElem?_map]
      cases rows[i]? <;> simp

theorem foldl_applyOne (h : o.Prepared bs) (order : List PenalizerClass) (hlen : logits.length = bs) :
    (order.foldl o.applyOne logits).length = bs ∧ ∀ i : ℕ, (order.foldl o.applyOne logits)[i]? =
      logits[i]?.map fun logit token => order.foldl (o.onLogit i token) (logit token) := by
  induction order generalizing logits with
  | nil => simp [hlen]
  | cons c order ih =>
    obtain ⟨hlen', hget⟩ := applyOne_spec h hlen c
    obtain ⟨hlen'', hget'⟩ := ih hlen'
    refine ⟨hlen'', fun i => ?_⟩
    rw [foldl_cons, hget' i, hget i, Option.map_map]
    rfl

/-- Penalizers that only add. -/
theorem foldl_onLogit (o : Orchestrator R) {order : List PenalizerClass} (h : .repetition ∉ order) (i token : ℕ)
    (v : WithBot R) : order.foldl (o.onLogit i token) v = v + o.additiveAt order i token := by
  induction order generalizing v with
  | nil => simp [additiveAt]
  | cons c order ih =>
    rw [mem_cons, not_or] at h
    have honce : o.onLogit i token v c = v + o.additiveOf i token c := by
      cases c with
      | repetition => exact absurd rfl h.1
      | _ => rfl
    rw [foldl_cons, ih h.2, honce, additiveAt, additiveAt, map_cons, sum_cons, add_assoc]

omit [LinearOrder R] in
theorem additiveAt_filter (o : Orchestrator R) (order : List PenalizerClass) (i token : ℕ) :
    o.additiveAt (order.filter fun c => !c.isMultiplicative) i token = o.additiveAt order i token := by
  induction order with
  | nil => rfl
  | cons c order ih =>
    cases c <;> simp [additiveAt, additiveOf, PenalizerClass.isMultiplicative] at ih ⊢ <;> rw [ih]

theorem accumulateAdditive_spec (h : o.Prepared bs) (order : List PenalizerClass) :
    (o.accumulateAdditive order (zeroLogits bs)).length = bs ∧ ∀ i < bs,
      (o.accumulateAdditive order (zeroLogits bs))[i]? = some fun token => o.additiveAt order i token := by
  have hzero : (zeroLogits (R := R) bs).length = bs := length_replicate
  obtain ⟨hlen, hget⟩ := foldl_applyOne h (order.filter fun c => !c.isMultiplicative) hzero
  refine ⟨hlen, fun i hi => ?_⟩
  rw [accumulateAdditive, hget i, zeroLogits, getElem?_replicate_of_lt hi, map_some]
  congr 1
  funext token
  rw [foldl_onLogit o (by simp [PenalizerClass.isMultiplicative]), additiveAt_filter, zero_add]

omit [LinearOrder R] in
theorem foldl_accumulateOne (o : Orchestrator R) (h : .repetition ∉ order) (result : Option (List (ℕ → R))) :
    order.foldl o.accumulateOne result = result := by
  induction order generalizing result with
  | nil => rfl
  | cons c order ih =>
    rw [mem_cons, not_or] at h
    rw [foldl_cons]
    cases c with
    | repetition => exact absurd rfl h.1
    | _ => exact ih h.2 _

theorem exists_split {c : PenalizerClass} (hnodup : order.Nodup) (hmem : c ∈ order) :
    ∃ front back, order = front ++ c :: back ∧ c ∉ front ∧ c ∉ back := by
  obtain ⟨front, back, rfl⟩ := append_of_mem hmem
  have honce := nodup_middle.mp hnodup
  rw [nodup_cons, mem_append, not_or] at honce
  exact ⟨front, back, rfl, honce.1⟩

omit [LinearOrder R] in
/-- There is only one penalizer that scales. -/
theorem accumulateScaling_eq (o : Orchestrator R) (hnodup : order.Nodup) :
    o.accumulateScaling order =
      if .repetition ∈ order then o.repetition.map (·.map (·.cumulated)) else none := by
  rw [accumulateScaling]
  split_ifs with hmem
  · obtain ⟨front, back, rfl, hfront, hback⟩ := exists_split hnodup hmem
    rw [foldl_append, foldl_accumulateOne o hfront, foldl_cons, foldl_accumulateOne o hback]
    cases hrows : o.repetition <;> simp [accumulateOne, scalingPenalties, hrows]
  · exact foldl_accumulateOne o hmem none

/-! ## 5. The paths -/

/-- Everything is added, and then scaled. -/
def adjust (o : Orchestrator R) (order : List PenalizerClass) (logits : List (Logits R)) : List (Logits R) :=
  let added := addLogits logits (o.accumulateAdditive order (zeroLogits logits.length))
  match o.accumulateScaling order with
  | none => added
  | some scaling => applyScalingPenalties added scaling

theorem getElem?_adjust (h : o.Prepared logits.length) (hnodup : order.Nodup) (i : ℕ) :
    (o.adjust order logits)[i]? = logits[i]?.map fun logit token =>
      (logit token + o.additiveAt order i token).map
        (scaleLogit (if .repetition ∈ order then o.scalingAt i token else 1)) := by
  obtain ⟨hlen, hget⟩ := accumulateAdditive_spec h order
  have hadded : (addLogits logits (o.accumulateAdditive order (zeroLogits logits.length)))[i]? =
      logits[i]?.map fun logit token => logit token + o.additiveAt order i token := by
    rw [addLogits, getElem?_zipWith_rows _ hlen]
    rcases hl : logits[i]? with _ | logit
    · rfl
    · rw [hget i (List.getElem?_eq_some_iff.mp hl).1]
      rfl
  rw [adjust, accumulateScaling_eq o hnodup]
  split_ifs with hmem
  · rcases hrows : o.repetition with _ | rows
    · simp [scalingAt, hrows, hadded]
    · have hl : (rows.map (·.cumulated)).length =
          (addLogits logits (o.accumulateAdditive order (zeroLogits logits.length))).length := by
        simp [addLogits, hlen, h.repetition rows hrows]
      simp only [map_some, applyScalingPenalties, getElem?_zipWith_rows _ hl, hadded,
        Option.map_map, getElem?_map, scalingAt, hrows, bind_some]
      rcases rows[i]? <;> simp [Function.comp_def]
  · simp [hadded]

/-- **The overlap scheduler** adds everything and then scales. -/
theorem applyLogitsBias_eq (h : o.Prepared logits.length) (hnodup : order.Nodup) :
    applyLogitsBias (updatePenalties o order logits.length) none order logits = o.adjust order logits := by
  unfold updatePenalties
  split
  · rfl
  · rename_i hidle
    -- no penalizer is prepared
    obtain ⟨hf, hm, hp, hr⟩ := h.idle (Bool.not_eq_true _ ▸ hidle)
    refine ext_getElem? fun i => ?_
    rw [getElem?_adjust h hnodup]
    have hadd : ∀ token, o.additiveAt order i token = 0 := fun token =>
      sum_eq_zero fun x hx => by
        obtain ⟨c, -, rfl⟩ := List.mem_map.mp hx
        cases c <;> simp [additiveOf, hf, hm, hp]
    simp [applyLogitsBias, hadd, scalingAt, hr]

omit [Field R] [LinearOrder R] in
theorem length_repeatInterleave {α : Type} (rows : List α) (repeats : ℕ) :
    (repeatInterleave rows repeats).length = rows.length * repeats := by
  simp [repeatInterleave, length_flatMap]

omit [Field R] [LinearOrder R] in
theorem zipWith_repeatInterleave {α β γ : Type} (f : α → β → γ) (k : ℕ) : ∀ (as : List α) (bs : List β),
    List.zipWith f (repeatInterleave as k) (repeatInterleave bs k) = repeatInterleave (List.zipWith f as bs) k
  | [], _ => by simp [repeatInterleave]
  | _ :: _, [] => by simp [repeatInterleave]
  | a :: as, b :: bs => by
    have ih := zipWith_repeatInterleave f k as bs
    simp only [repeatInterleave, flatMap_cons, zipWith_cons_cons] at ih ⊢
    rw [zipWith_append (by simp), ih, zipWith_replicate']

/-- **For draft tokens** everything is added and then scaled, too. -/
theorem adjustRepeated_eq (o : Orchestrator R) (order : List PenalizerClass) (logits : List (Logits R))
    {repeats : ℕ} (hrepeats : 0 < repeats) :
    o.apply order (repeatInterleave logits repeats) (some repeats) =
      repeatInterleave (o.adjust order logits) repeats := by
  simp only [apply, adjust, length_repeatInterleave, Nat.mul_div_cancel _ hrepeats, addLogits,
    zipWith_repeatInterleave]
  cases o.accumulateScaling order
  · rfl
  · simp [applyScalingPenalties, zipWith_repeatInterleave]

end Orchestrator

namespace Orchestrator

variable {o : Orchestrator R} {bs i : ℕ}

omit [LinearOrder R] in
theorem additiveAt_append (o : Orchestrator R) (front back : List PenalizerClass) (i token : ℕ) :
    o.additiveAt (front ++ .repetition :: back) i token =
      o.additiveAt front i token + o.additiveAt back i token := by
  simp [additiveAt, additiveOf]

theorem scalingAt_pos [IsStrictOrderedRing R] (h : o.Prepared bs) (i token : ℕ) : 0 < o.scalingAt i token := by
  unfold scalingAt
  rcases hrows : o.repetition with _ | rows
  · exact zero_lt_one
  rw [bind_some]
  rcases hrow : rows[i]? with _ | row
  · exact zero_lt_one
  · exact h.scaling_pos rows hrows row (mem_of_getElem? hrow) token

/-- What the penalizers do to a logit one after another, where one of them scales. -/
theorem foldl_onLogit_split (o : Orchestrator R) {front back : List PenalizerClass}
    (hfront : .repetition ∉ front) (hback : .repetition ∉ back) (i token : ℕ) (v : WithBot R) :
    (front ++ .repetition :: back).foldl (o.onLogit i token) v =
      (v + o.additiveAt front i token).map (scaleLogit (o.scalingAt i token)) + o.additiveAt back i token := by
  rw [foldl_append, foldl_onLogit o hfront, foldl_cons, foldl_onLogit o hback]
  rfl

end Orchestrator

/-- **The three ways of applying penalties agree** exactly where the scaling commutes with the penalties that
come behind it in the order of the set. -/
theorem penaltyPathsAgree_iff [IsStrictOrderedRing R] {o : Orchestrator R} {logits : List (Logits R)}
    (h : o.Prepared logits.length) {order : List PenalizerClass} (hnodup : order.Nodup) :
    PenaltyPathsAgree o order logits ↔ ScalingCommutes o order logits := by
  have hpaths : PenaltyPathsAgree o order logits ↔ o.adjust order logits = o.apply order logits none := by
    rw [PenaltyPathsAgree, Orchestrator.applyLogitsBias_eq h hnodup]
    refine and_iff_left_of_imp fun heq repeats hrepeats => ?_
    rw [Orchestrator.adjustRepeated_eq o order logits hrepeats, heq]
  have hdirect := (Orchestrator.foldl_applyOne h order rfl).2
  have hadjust := Orchestrator.getElem?_adjust h hnodup
  rw [hpaths, Orchestrator.apply, List.ext_getElem?_iff]
  simp only [hdirect, hadjust]
  by_cases hmem : PenalizerClass.repetition ∈ order
  · obtain ⟨front, back, rfl, hfront, hback⟩ := Orchestrator.exists_split hnodup hmem
    have hone : ∀ (i token : ℕ) (v : WithBot R),
        (v + o.additiveAt (front ++ .repetition :: back) i token).map (scaleLogit (o.scalingAt i token)) =
            (front ++ .repetition :: back).foldl (o.onLogit i token) v ↔
          CommutesAt (o.scalingAt i token) (v + o.additiveAt front i token) (o.additiveAt back i token) := by
      intro i token v
      rw [← commutesAt_iff (Orchestrator.scalingAt_pos h i token), Orchestrator.additiveAt_append,
        Orchestrator.foldl_onLogit_split o hfront hback, add_assoc]
      exact eq_comm
    simp only [if_pos hmem]
    constructor
    · rintro hall front' back' hsplit rows hrows i logit row hlogit hrow token
      obtain ⟨rfl, -, rfl⟩ := (append_cons_inj_of_notMem hfront hback).mp hsplit
      have heq := hall i
      rw [hlogit, map_some, map_some, some_inj] at heq
      have hcommutes := (hone i token (logit token)).mp (congrFun heq token)
      rw [mem_def] at hrows
      simpa [Orchestrator.scalingAt, hrows, hrow] using hcommutes
    · intro hall i
      rcases hlogit : logits[i]? with _ | logit
      · rfl
      rw [map_some, map_some, some_inj]
      funext token
      rw [hone]
      rcases hrows : o.repetition with _ | rows
      · exact Or.inl (by simp [Orchestrator.scalingAt, hrows])
      have hi : i < rows.length := by
        rw [h.repetition rows hrows]
        exact (List.getElem?_eq_some_iff.mp hlogit).1
      have hrow := getElem?_eq_getElem hi
      simpa [Orchestrator.scalingAt, hrows, hrow] using hall front back rfl rows hrows i logit _ hlogit hrow token
  · refine iff_of_true (fun i => ?_) ?_
    · simp [hmem, Orchestrator.foldl_onLogit o hmem]
    · rintro front back rfl
      exact absurd (mem_append_right front (mem_cons_self ..)) hmem

/-! ## 6. A penalty behind the scaling -/

/-- A request whose tokens are penalized twice. -/
def twicePenalized : Req ℚ where
  rid := 0
  samplingParams := ⟨1, 1, -1, 0, 0, 1, 2, 0, none, none, none, none⟩

/-- Its penalizers after one token. -/
def twicePenalizers : Orchestrator ℚ := (Orchestrator.ofReqs [twicePenalized]).cumulateOutputTokens [0]

/-- An order in which the scaling comes last, and one in which it comes first. -/
def scalingLast : List PenalizerClass := [.presence, .frequency, .minNewTokens, .repetition]

def scalingFirst : List PenalizerClass := [.repetition, .presence, .frequency, .minNewTokens]

theorem prepared_twicePenalizers : twicePenalizers.Prepared 1 := by
  have hrepetition : twicePenalizers.repetition = some [⟨2, Function.update (fun _ => 1) 0 2⟩] := rfl
  refine ⟨by decide +kernel, by decide +kernel, by decide +kernel, by decide +kernel, ?_, ?_⟩
  · intro rows hrows row hrow token
    rw [hrepetition, mem_def, some_inj] at hrows
    subst hrows
    rw [mem_singleton.mp hrow]
    rcases eq_or_ne token 0 with rfl | hne
    · simp
    · simp [Function.update_of_ne hne]
  · intro hidle
    exact absurd hidle (by decide +kernel)

/-- Where the scaling comes last, the logits are the same. -/
theorem penaltyPathsAgree_iff_last : PenaltyPathsAgree twicePenalizers scalingLast [fun _ => 1] := by
  refine (penaltyPathsAgree_iff prepared_twicePenalizers (by decide)).mpr ?_
  intro front back hsplit rows hrows i logit row hlogit hrow token
  have hsplit' : [.presence, .frequency, .minNewTokens] ++ .repetition :: [] =
      front ++ PenalizerClass.repetition :: back := hsplit
  obtain ⟨-, -, rfl⟩ := (append_cons_inj_of_notMem (by decide) (by decide)).mp hsplit'
  exact Or.inr (Or.inl rfl)

/-- **Where the scaling comes first, they are not**: a logit of one is halved and then lowered by one, or
lowered by one and then halved. -/
theorem penaltyPaths_disagree : twicePenalizers.Prepared 1 ∧
    (twicePenalizers.apply scalingFirst [fun _ => 1] none)[0]?.map (· 0) =
      some (((-1 / 2 : ℚ)) : WithBot ℚ) ∧
    (applyLogitsBias (updatePenalties twicePenalizers scalingFirst 1) none scalingFirst
      [fun _ => 1])[0]?.map (· 0) = some ((0 : ℚ) : WithBot ℚ) ∧
    ¬ PenaltyPathsAgree twicePenalizers scalingFirst [fun _ => 1] := by
  have hdirect : (twicePenalizers.apply scalingFirst [fun _ => 1] none)[0]?.map (· 0) =
      some (((-1 / 2 : ℚ)) : WithBot ℚ) := by decide +kernel
  have hoverlap : (applyLogitsBias (updatePenalties twicePenalizers scalingFirst 1) none scalingFirst
      [fun _ => 1])[0]?.map (· 0) = some ((0 : ℚ) : WithBot ℚ) := by decide +kernel
  refine ⟨prepared_twicePenalizers, hdirect, hoverlap, fun h => ?_⟩
  have heq := hoverlap.symm.trans ((congrArg (fun l => l[0]?.map (· 0)) h.1).trans hdirect)
  exact absurd heq (by decide +kernel)

end Sampling

end Sglang
