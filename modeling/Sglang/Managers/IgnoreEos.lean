/-
# The admission simulation for requests that ignore the end of sequence

`add_one_req_ignore_eos` (`schedule_policy.py`) goes through the requests in the order in which they
will end and checks that the rest fits whenever one does.  The list is sorted by the first call of a
pass; a later call inserts its request before the first entry that lasts at least as long, and, if
there is none, before the last entry.

So the list stays sorted exactly as long as no later request outlasts all those before it
(`reqStates_sorted_iff`), and then the simulation comes out as it does on the sorted list of all
requests considered (`fitsStates_of_perm`).
-/
import Sglang.Managers.PrefillAdder

namespace Sglang

namespace PrefillAdder

open List Lib

/-! ## 1. The simulation on a sorted list -/

/-- One entry ends no later than another. -/
def EndsBefore (x y : ℚ × ℤ) : Prop :=
  x.1 ≤ y.1

instance : DecidableRel EndsBefore :=
  fun x y => inferInstanceAs (Decidable (x.1 ≤ y.1))

instance : Std.Total EndsBefore :=
  ⟨fun x y => le_total x.1 y.1⟩

instance : IsTrans (ℚ × ℤ) EndsBefore :=
  ⟨fun _ _ _ h h' => le_trans (α := ℚ) h h'⟩

/-- When an entry ends, those that end with it or later must fit into what is free by then. -/
def FitsAt (fl : FloatOps) (free : ℤ) (states : List (ℚ × ℤ)) (x : ℚ × ℤ) : Prop :=
  let bs : ℕ := states.countP fun y => x.1 ≤ y.1
  (bs : ℚ) < fl.sub (fl.ofInt (free + ((states.filter fun y => y.1 < x.1).map Prod.snd).sum))
    (fl.mul x.1 (fl.ofInt bs))

variable {fl : FloatOps}

theorem FitsAt.perm {free : ℤ} {states states' : List (ℚ × ℤ)} {x : ℚ × ℤ}
    (hperm : states.Perm states') : FitsAt fl free states x ↔ FitsAt fl free states' x := by
  rw [FitsAt, FitsAt, hperm.countP_eq, ((hperm.filter _).map _).sum_eq]

theorem fitsAt_head {free : ℤ} {states : List (ℚ × ℤ)} {x y : ℚ × ℤ}
    (hle : ∀ z ∈ y :: states, y.1 ≤ z.1) (hx : x.1 = y.1) :
    FitsAt fl free (y :: states) x ↔ ((states.length + 1 : ℕ) : ℚ)
      < fl.sub (fl.ofInt free) (fl.mul y.1 (fl.ofInt (states.length + 1 : ℕ))) := by
  have hcount : (y :: states).countP (fun z => x.1 ≤ z.1) = states.length + 1 := by
    rw [countP_eq_length.mpr fun z hz => decide_eq_true (hx ▸ hle z hz), length_cons]
  have hnone : (y :: states).filter (fun z => z.1 < x.1) = [] :=
    filter_eq_nil_iff.mpr fun z hz => by simpa [hx] using hle z hz
  rw [FitsAt, hcount, hnone, hx, map_nil, sum_nil, add_zero]

theorem fitsAt_tail {free : ℤ} {states : List (ℚ × ℤ)} {x y : ℚ × ℤ} (hlt : y.1 < x.1) :
    FitsAt fl free (y :: states) x ↔ FitsAt fl (free + y.2) states x := by
  have hcount : (y :: states).countP (fun z => x.1 ≤ z.1) = states.countP fun z => x.1 ≤ z.1 :=
    countP_cons_of_neg (by simpa using hlt)
  rw [FitsAt, FitsAt, hcount, filter_cons_of_pos (by simpa using hlt), map_cons, sum_cons, add_assoc]

/-- Of entries that end together the first one is the hardest to fit, in every arithmetic: those that end
with a later one are fewer, and more is free. -/
theorem fits_later {free free' : ℤ} {n n' : ℕ} {x : ℚ} (hx : 0 ≤ x) (hfree : free ≤ free') (hn : n' ≤ n)
    (hfits : (n : ℚ) < fl.sub (fl.ofInt free) (fl.mul x (fl.ofInt n))) :
    (n' : ℚ) < fl.sub (fl.ofInt free') (fl.mul x (fl.ofInt n')) :=
  calc (n' : ℚ) ≤ n := Nat.cast_le.mpr hn
    _ < fl.sub (fl.ofInt free) (fl.mul x (fl.ofInt n)) := hfits
    _ ≤ fl.sub (fl.ofInt free') (fl.mul x (fl.ofInt n')) := FloatOps.sub_le (FloatOps.ofInt_le hfree)
      (FloatOps.mul_le hx (FloatOps.ofInt_le (Int.ofNat_le.mpr hn)))

/-- **On a sorted list the loop checks every entry.** -/
theorem fitsStates_iff {cur : ℤ} {states : List (ℚ × ℤ)} (hsorted : states.Pairwise EndsBefore)
    (hpos : ∀ x ∈ states, 0 ≤ x.1 ∧ 0 ≤ x.2) (freed : ℤ) :
    fitsStates fl cur freed states = true ↔ ∀ x ∈ states, FitsAt fl (cur + freed) states x := by
  induction states generalizing freed with
  | nil => simp [fitsStates]
  | cons y states ih =>
    obtain ⟨hle, htail⟩ := pairwise_cons.mp hsorted
    have hle' : ∀ z ∈ y :: states, y.1 ≤ z.1 := by
      intro z hz
      rcases mem_cons.mp hz with rfl | hz
      · exact le_refl _
      · exact hle z hz
    have hrest := ih htail (fun x hx => hpos x (mem_cons_of_mem _ hx)) (freed + y.2)
    have hhead := @fitsAt_head fl (cur + freed) _ _ _ hle' rfl
    obtain ⟨y1, y2⟩ := y
    have hcheck : fitsStates fl cur freed ((y1, y2) :: states) = true ↔
        FitsAt fl (cur + freed) ((y1, y2) :: states) (y1, y2)
          ∧ fitsStates fl cur (freed + y2) states = true := by
      rw [hhead, fitsStates]
      push_cast
      simp only [one_mul]
      split
      · next hfails => exact iff_of_false (by simp) fun h => absurd h.1 (not_lt_of_ge (by simpa using hfails))
      · next hfits => exact (and_iff_right (by simpa using lt_of_not_ge hfits)).symm
    rw [hcheck, hrest]
    refine ⟨fun h x hx => ?_, fun h => ⟨h _ mem_cons_self, fun x hx => ?_⟩⟩
    · rcases eq_or_lt_of_le (hle' x hx) with heq | hlt
      · exact (fitsAt_head hle' heq.symm).mpr (hhead.mp h.1)
      · rcases mem_cons.mp hx with rfl | hx
        · exact absurd hlt (lt_irrefl _)
        · rw [fitsAt_tail hlt, add_assoc]
          exact h.2 x hx
    · have hxs := mem_cons_of_mem (y1, y2) hx
      rcases eq_or_lt_of_le (hle' x hxs) with heq | hlt
      · -- it ends with the first entry, of which there is one less to fit
        obtain ⟨z, rest, rfl⟩ := exists_cons_of_ne_nil (ne_nil_of_mem hx)
        have hrestle : ∀ w ∈ z :: rest, z.1 ≤ w.1 := by
          intro w hw
          rcases mem_cons.mp hw with rfl | hw
          · exact le_refl _
          · exact (pairwise_cons.mp htail).1 w hw
        have hxz : x.1 = z.1 :=
          le_antisymm (heq ▸ hle' z (mem_cons_of_mem _ mem_cons_self)) (hrestle x hx)
        obtain ⟨hy1, hy2⟩ := hpos _ mem_cons_self
        have hyz : y1 = z.1 := heq.trans hxz
        rw [fitsAt_head hrestle hxz, ← hyz]
        exact fits_later hy1 (by simp only at hy2; omega) (Nat.le_succ _)
          (hhead.mp (h _ mem_cons_self))
      · have := h x hxs
        rwa [fitsAt_tail hlt, add_assoc] at this

/-- The simulation comes out the same on every sorted list of the entries. -/
theorem fitsStates_of_perm {cur : ℤ} {states states' : List (ℚ × ℤ)}
    (hsorted : states.Pairwise EndsBefore) (hsorted' : states'.Pairwise EndsBefore)
    (hperm : states.Perm states') (hpos : ∀ x ∈ states, 0 ≤ x.1 ∧ 0 ≤ x.2) (freed : ℤ) :
    fitsStates fl cur freed states = fitsStates fl cur freed states' := by
  have hpos' : ∀ x ∈ states', 0 ≤ x.1 ∧ 0 ≤ x.2 := fun x hx => hpos x (hperm.mem_iff.mpr hx)
  rw [Bool.eq_iff_iff, fitsStates_iff hsorted hpos, fitsStates_iff hsorted' hpos']
  exact ⟨fun h x hx => (FitsAt.perm hperm).mp (h x (hperm.mem_iff.mpr hx)),
    fun h x hx => (FitsAt.perm hperm).mpr (h x (hperm.mem_iff.mp hx))⟩

/-! ## 2. The entries of the requests -/

variable (cfg : AdderConfig) (reqs : ReqId → SchedReq)

/-- The tokens that a request will still use and those that it holds. -/
def stateEntry (r : ReqId) : ℚ × ℤ :=
  let ratio : ℚ := if (reqs r).ignoreEos then 1 else cfg.newTokenRatio
  (cfg.float.sub (cfg.float.mul (cfg.float.ofInt (reqs r).maxNewTokens) ratio)
      (cfg.float.ofInt (reqs r).numOutputIds),
    (reqs r).numOriginInputIds + (reqs r).numOutputIds)

/-- One entry for each of the requests that still have tokens left. -/
def stateEntries (considered : List ReqId) : List (ℚ × ℤ) :=
  (considered.map (stateEntry cfg reqs)).filter fun s => 0 < s.1

variable {cfg : AdderConfig} {reqs : ReqId → SchedReq} {r : ReqId} {states : List (ℚ × ℤ)}

theorem stateEntries_append (l l' : List ReqId) :
    stateEntries cfg reqs (l ++ l') = stateEntries cfg reqs l ++ stateEntries cfg reqs l' := by
  simp [stateEntries]

theorem stateEntries_nonneg (considered : List ReqId) :
    ∀ x ∈ stateEntries cfg reqs considered, 0 ≤ x.1 ∧ 0 ≤ x.2 := by
  intro x hx
  obtain ⟨hmem, hpos⟩ := mem_filter.mp hx
  obtain ⟨r, -, rfl⟩ := mem_map.mp hmem
  refine ⟨le_of_lt (of_decide_eq_true hpos), ?_⟩
  simp only [stateEntry]
  omega

/-- Where a request goes that does not outlast all entries. -/
theorem insert_of_exists {x : ℚ × ℤ} (h : ∃ s ∈ states, x.1 ≤ s.1) :
    ∃ i, states.findIdx? (fun s => x.1 ≤ s.1) = some i
      ∧ states.take i ++ x :: states.drop i = states.orderedInsert EndsBefore x := by
  induction states with
  | nil => simp at h
  | cons y states ih =>
    by_cases hxy : x.1 ≤ y.1
    · refine ⟨0, by simp [findIdx?_cons, hxy], ?_⟩
      rw [orderedInsert_cons_of_le _ states hxy]
      rfl
    · obtain ⟨i, hi, hins⟩ := ih (by simpa [hxy] using h)
      refine ⟨i + 1, by simp [findIdx?_cons, hxy, hi], ?_⟩
      rw [orderedInsert_of_not_le _ states hxy, ← hins]
      rfl

/-- A request that outlasts all entries is inserted before the last one. -/
theorem addReqState_of_outlasts (hpos : 0 < (stateEntry cfg reqs r).1)
    (h : ∀ s ∈ states, s.1 < (stateEntry cfg reqs r).1) :
    addReqState cfg reqs r true states
      = states.take (states.length - 1) ++ stateEntry cfg reqs r :: states.drop (states.length - 1) := by
  have hnone : states.findIdx? (fun s => decide ((stateEntry cfg reqs r).1 ≤ s.1)) = none := by
    rw [findIdx?_eq_none_iff]
    exact fun s hs => decide_eq_false (not_le_of_gt (h s hs))
  unfold stateEntry at hpos hnone
  rw [addReqState]
  simp only [if_neg (not_le_of_gt hpos), if_true, hnone]
  rfl

theorem addReqState_of_exists (hpos : 0 < (stateEntry cfg reqs r).1)
    (h : ∃ s ∈ states, (stateEntry cfg reqs r).1 ≤ s.1) :
    addReqState cfg reqs r true states = states.orderedInsert EndsBefore (stateEntry cfg reqs r) := by
  obtain ⟨i, hi, hins⟩ := insert_of_exists h
  rw [← hins, addReqState]
  unfold stateEntry at hpos hi
  simp only [if_neg (not_le_of_gt hpos), if_true, hi]
  rfl

theorem addReqState_of_nonpos (insertSort : Bool) (h : (stateEntry cfg reqs r).1 ≤ 0) :
    addReqState cfg reqs r insertSort states = states := by
  exact if_pos h

/-- An added request is one more entry, wherever it is put. -/
theorem perm_addReqState (insertSort : Bool) :
    (addReqState cfg reqs r insertSort states).Perm (states ++ stateEntries cfg reqs [r]) := by
  rcases le_or_gt (stateEntry cfg reqs r).1 0 with hneg | hpos
  · rw [addReqState_of_nonpos insertSort hneg]
    simp [stateEntries, not_lt_of_ge hneg]
  · have hone : stateEntries cfg reqs [r] = [stateEntry cfg reqs r] := by simp [stateEntries, hpos]
    rw [hone]
    have hmiddle : ∀ i, (states.take i ++ stateEntry cfg reqs r :: states.drop i).Perm
        (states ++ [stateEntry cfg reqs r]) := by
      intro i
      refine perm_middle.trans ?_
      rw [take_append_drop]
      exact (perm_append_singleton _ _).symm
    unfold stateEntry at hpos
    rw [addReqState]
    simp only [if_neg (not_le_of_gt hpos)]
    cases insertSort
    · exact List.Perm.refl _
    · exact hmiddle _

theorem perm_foldl_addReqState (considered : List ReqId) :
    (considered.foldl (fun states x => addReqState cfg reqs x false states) states).Perm
      (states ++ stateEntries cfg reqs considered) := by
  induction considered generalizing states with
  | nil => simp [stateEntries]
  | cons r considered ih =>
    refine ih.trans ?_
    rw [← singleton_append, stateEntries_append, ← append_assoc]
    exact (perm_addReqState false).append_right _

/-! ## 3. The calls of a pass -/

/-- One call of `add_one_req_ignore_eos`.  Of the adder only `req_states` is known from the call before;
the rest of it may have changed in between. -/
structure IgnoreEosCall where
  adder : PrefillAdder
  env : PassEnv
  runningBatch : List ReqId
  req : ReqId

/-- `req_states` and the requests that were considered for it. -/
structure Simulation where
  reqStates : Option (List (ℚ × ℤ)) := none
  considered : List ReqId := []

namespace IgnoreEosCall

variable (cfg reqs)

/-- The call does not return before the simulation: the prompt fits. -/
def Simulates (c : IgnoreEosCall) : Prop :=
  ¬ ceilPagedTokens cfg (reqs c.req).extendInputLen
      > min (c.adder.curRemTokens c.env c.req .unlocked : ℚ)
        (c.adder.remTotalTokens cfg c.env c.req .unlocked)
    ∧ ¬ (cfg.isHybridSwa ∧ swaBudgetForReq cfg c.adder (reqs c.req).extendInputLen
      > c.adder.remSwaTokens c.env c.req .unlocked)

instance (c : IgnoreEosCall) : Decidable (c.Simulates cfg reqs) :=
  inferInstanceAs (Decidable (_ ∧ _))

/-- The requests that the call considers: all of them the first time, later its own. -/
def considers (c : IgnoreEosCall) (reqStates : Option (List (ℚ × ℤ))) : List ReqId :=
  match reqStates with
  | none => c.req :: c.runningBatch ++ c.adder.canRunList
  | some _ => [c.req]

/-- The adder that the call finds. -/
def adderWith (c : IgnoreEosCall) (reqStates : Option (List (ℚ × ℤ))) : PrefillAdder :=
  { c.adder with reqStates := reqStates }

def step (s : Simulation) (c : IgnoreEosCall) : Simulation where
  reqStates :=
    (addOneReqIgnoreEos cfg c.env reqs (c.adderWith s.reqStates) c.runningBatch c.req).2.reqStates
  considered :=
    if c.Simulates cfg reqs then s.considered ++ c.considers s.reqStates else s.considered

def run (calls : List IgnoreEosCall) : Simulation :=
  calls.foldl (step cfg reqs) {}

variable {cfg reqs}

theorem reqStates_step (s : Simulation) (c : IgnoreEosCall) :
    (c.step cfg reqs s).reqStates = if c.Simulates cfg reqs then
      some (nextReqStates cfg reqs (c.adderWith s.reqStates) c.runningBatch c.req) else s.reqStates := by
  show (addOneReqIgnoreEos cfg c.env reqs (c.adderWith s.reqStates) c.runningBatch c.req).2.reqStates = _
  unfold addOneReqIgnoreEos
  by_cases h : c.Simulates cfg reqs
  · rw [if_pos h]
    simp only
    split
    · next hpaged => exact absurd hpaged h.1
    split
    · next hswa => exact absurd hswa h.2
    repeat' split
    all_goals rfl
  · rw [if_neg h]
    simp only
    split
    · rfl
    split
    · rfl
    · next hpaged hswa => exact absurd ⟨hpaged, hswa⟩ h

/-- The entries are sorted, one for each request considered that has tokens left, and the simulation
comes out as it does on the sorted list of them. -/
def Sound (cfg : AdderConfig) (reqs : ReqId → SchedReq) (s : Simulation) : Prop :=
  ∀ states, s.reqStates = some states → states.Pairwise EndsBefore
    ∧ states.Perm (stateEntries cfg reqs s.considered)
    ∧ ∀ cur, fitsStates cfg.float cur 0 states = fitsStates cfg.float cur 0
        (SchedulePolicy.sortBy (fun x y => decide (x.1 ≤ y.1)) (stateEntries cfg reqs s.considered))

/-- The request does not outlast all those that were considered before it. -/
def InOrder (cfg : AdderConfig) (reqs : ReqId → SchedReq) (s : Simulation) (c : IgnoreEosCall) : Prop :=
  s.reqStates ≠ none → c.Simulates cfg reqs → 0 < (stateEntry cfg reqs c.req).1 →
    stateEntries cfg reqs s.considered ≠ [] →
      ∃ x ∈ s.considered, (stateEntry cfg reqs c.req).1 ≤ (stateEntry cfg reqs x).1

theorem sorted_sortBy (l : List (ℚ × ℤ)) :
    (SchedulePolicy.sortBy (fun x y => decide (x.1 ≤ y.1)) l).Pairwise EndsBefore := by
  have h := @List.pairwise_mergeSort _ (fun x y : ℚ × ℤ => decide (x.1 ≤ y.1))
    (fun a b c hab hbc => decide_eq_true ((of_decide_eq_true hab).trans (of_decide_eq_true hbc)))
    (fun a b => by simpa using le_total a.1 b.1) l
  exact h.imp fun hle => of_decide_eq_true hle

theorem Sound.of_sorted {s : Simulation}
    (h : ∀ states, s.reqStates = some states → states.Pairwise EndsBefore
      ∧ states.Perm (stateEntries cfg reqs s.considered)) : Sound cfg reqs s := by
  intro states hstates
  obtain ⟨hsorted, hperm⟩ := h states hstates
  refine ⟨hsorted, hperm, fun cur => ?_⟩
  exact fitsStates_of_perm hsorted (sorted_sortBy _)
    (hperm.trans (SchedulePolicy.perm_sortBy _ _).symm)
    (fun x hx => stateEntries_nonneg _ x (hperm.mem_iff.mp hx)) 0

theorem considered_of_none (calls : List IgnoreEosCall) (h : (run cfg reqs calls).reqStates = none) :
    (run cfg reqs calls).considered = [] := by
  induction calls using List.reverseRecOn with
  | nil => rfl
  | append_singleton calls c ih =>
    rw [run, foldl_append] at h ⊢
    rw [foldl_cons, foldl_nil, reqStates_step] at h
    split at h
    · cases h
    · next hsim =>
      simp only [foldl_cons, foldl_nil, step, if_neg hsim]
      exact ih h

theorem sorted_first (c : IgnoreEosCall) (s : Simulation) (hnone : s.reqStates = none) :
    (nextReqStates cfg reqs (c.adderWith s.reqStates) c.runningBatch c.req).Pairwise EndsBefore := by
  rw [hnone]
  exact sorted_sortBy _

/-- The entries are those of the requests considered, whether they are sorted or not. -/
theorem perm_nextReqStates (c : IgnoreEosCall) (s : Simulation)
    (hnone : s.reqStates = none → s.considered = [])
    (hperm : ∀ states, s.reqStates = some states → states.Perm (stateEntries cfg reqs s.considered)) :
    (nextReqStates cfg reqs (c.adderWith s.reqStates) c.runningBatch c.req).Perm
      (stateEntries cfg reqs (s.considered ++ c.considers s.reqStates)) := by
  cases hstates : s.reqStates with
  | none =>
    rw [hnone hstates]
    exact (SchedulePolicy.perm_sortBy _ _).trans (perm_foldl_addReqState _)
  | some states =>
    rw [stateEntries_append]
    exact (perm_addReqState true).trans ((hperm states hstates).append_right _)

/-- **A later call keeps the list sorted if and only if its request does not outlast all those considered
before.** -/
theorem sorted_addReqState_iff {considered : List ReqId} (hsorted : states.Pairwise EndsBefore)
    (hperm : states.Perm (stateEntries cfg reqs considered)) :
    (addReqState cfg reqs r true states).Pairwise EndsBefore
      ↔ (0 < (stateEntry cfg reqs r).1 → stateEntries cfg reqs considered ≠ [] →
        ∃ x ∈ considered, (stateEntry cfg reqs r).1 ≤ (stateEntry cfg reqs x).1) := by
  rcases le_or_gt (stateEntry cfg reqs r).1 0 with hneg | hpos
  · rw [addReqState_of_nonpos true hneg]
    exact ⟨fun _ hpos => absurd hpos (not_lt_of_ge hneg), fun _ => hsorted⟩
  by_cases h : ∃ s ∈ states, (stateEntry cfg reqs r).1 ≤ s.1
  · rw [addReqState_of_exists hpos h]
    refine ⟨fun _ _ _ => ?_, fun _ => hsorted.orderedInsert _ _⟩
    obtain ⟨s, hs, hle⟩ := h
    obtain ⟨hmem, -⟩ := mem_filter.mp (hperm.mem_iff.mp hs)
    obtain ⟨x, hx, rfl⟩ := mem_map.mp hmem
    exact ⟨x, hx, hle⟩
  · push Not at h
    rw [addReqState_of_outlasts hpos h]
    cases states with
    | nil =>
      have hnil : stateEntries cfg reqs considered = [] := hperm.nil_eq.symm
      exact ⟨fun _ _ hne => absurd hnil hne, fun _ => pairwise_singleton _ _⟩
    | cons y rest =>
      -- the new entry is put before the last one, which ends before it
      have hlast := drop_length_sub_one (cons_ne_nil y rest)
      rw [hlast]
      refine ⟨fun hbad => ?_, fun hin => ?_⟩
      · have hpair := (pairwise_append.mp hbad).2.1
        have hle : (stateEntry cfg reqs r).1 ≤ ((y :: rest).getLast (cons_ne_nil y rest)).1 :=
          (pairwise_cons.mp hpair).1 _ (mem_singleton_self _)
        exact absurd hle (not_le_of_gt (h _ (getLast_mem _)))
      · have hne : stateEntries cfg reqs considered ≠ [] := by
          intro hnil
          rw [hnil] at hperm
          exact cons_ne_nil _ _ hperm.eq_nil
        obtain ⟨x, hx, hle⟩ := hin hpos hne
        have hmem : stateEntry cfg reqs x ∈ y :: rest :=
          hperm.mem_iff.mpr (mem_filter.mpr ⟨mem_map_of_mem hx, decide_eq_true (hpos.trans_le hle)⟩)
        exact absurd hle (not_le_of_gt (h _ hmem))

/-- A call keeps the list sound if and only if its request is in order. -/
theorem sound_step_iff {s : Simulation} (c : IgnoreEosCall) (hsound : Sound cfg reqs s)
    (hnone : s.reqStates = none → s.considered = []) :
    Sound cfg reqs (c.step cfg reqs s) ↔ InOrder cfg reqs s c := by
  by_cases hsim : c.Simulates cfg reqs
  · have hstates : (c.step cfg reqs s).reqStates
        = some (nextReqStates cfg reqs (c.adderWith s.reqStates) c.runningBatch c.req) := by
      rw [reqStates_step, if_pos hsim]
    have hconsidered : (c.step cfg reqs s).considered = s.considered ++ c.considers s.reqStates :=
      if_pos hsim
    have hperm := perm_nextReqStates c s hnone fun states h => (hsound states h).2.1
    have hsorted : Sound cfg reqs (c.step cfg reqs s) ↔
        (nextReqStates cfg reqs (c.adderWith s.reqStates) c.runningBatch c.req).Pairwise EndsBefore := by
      refine ⟨fun h => (h _ hstates).1, fun h => Sound.of_sorted fun states hs => ?_⟩
      rw [hstates, Option.some.injEq] at hs
      subst hs
      rw [hconsidered]
      exact ⟨h, hperm⟩
    rw [hsorted]
    cases hreq : s.reqStates with
    | none =>
      exact ⟨fun _ hne => absurd hreq hne, fun _ => hreq ▸ sorted_first c s hreq⟩
    | some states =>
      obtain ⟨hold, hperm, -⟩ := hsound states hreq
      refine (sorted_addReqState_iff hold hperm).trans ⟨fun h _ _ => h, fun h => h ?_ hsim⟩
      rw [hreq]
      exact Option.some_ne_none _
  · have hstep : c.step cfg reqs s = s := by
      rw [show c.step cfg reqs s = ⟨(c.step cfg reqs s).reqStates,
        (c.step cfg reqs s).considered⟩ from rfl, reqStates_step]
      simp [step, if_neg hsim]
    rw [hstep]
    exact ⟨fun _ _ h => absurd h hsim, fun _ => hsound⟩

theorem run_take_succ {calls : List IgnoreEosCall} {k : ℕ} {c : IgnoreEosCall} (hc : calls[k]? = some c) :
    run cfg reqs (calls.take (k + 1)) = c.step cfg reqs (run cfg reqs (calls.take k)) := by
  rw [take_add_one, hc, run, foldl_append]
  rfl

/-- **The simulation runs on a sorted list throughout a pass if and only if no later request outlasts all
those considered before it.**  Then it comes out as on the sorted list of all requests considered, of
which each has one entry if it has tokens left. -/
theorem reqStates_sorted_iff (cfg : AdderConfig) (reqs : ReqId → SchedReq) (calls : List IgnoreEosCall) :
    (∀ k, Sound cfg reqs (run cfg reqs (calls.take k)))
      ↔ ∀ (k : ℕ) (c : IgnoreEosCall), calls[k]? = some c →
        InOrder cfg reqs (run cfg reqs (calls.take k)) c := by
  refine ⟨fun h k c hc => ?_, fun h k => ?_⟩
  · rw [← sound_step_iff c (h k) (considered_of_none _), ← run_take_succ hc]
    exact h (k + 1)
  · induction k with
    | zero => exact fun states hstates => by cases hstates
    | succ k ih =>
      cases hc : calls[k]? with
      | none =>
        rw [take_add_one, hc, Option.toList_none, append_nil]
        exact ih
      | some c =>
        rw [run_take_succ hc]
        exact (sound_step_iff c ih (considered_of_none _)).mpr (h k c hc)

/-- Without a radix cache, requests of four tokens that go on for ten and for twenty. -/
def growingReqs (r : ReqId) : SchedReq where
  priority := none
  waitQueueEntryTime := 0
  numOriginInputIds := 4
  numOutputIds := 0
  maxNewTokens := if r = 0 then 10 else 20
  ignoreEos := true
  finished := false
  routingKey := none
  prefixLen := 0
  extendInputLen := 4
  hostHitLength := 0
  lastNode := 0

def plainAdder : AdderConfig where
  float := .exact
  pageSize := 1
  newTokenRatio := 1
  clipMaxNewTokens := 4096
  preemptionThreshold := 0
  prefillMaxRequests := none
  isHybridSwa := false
  slidingWindowSize := 0
  onePrefill := false
  treeCacheDisabled := true
  scheduleLowPriorityValuesFirst := false

/-- A pool with forty free tokens. -/
def roomyEnv : PassEnv where
  readyGrammarRequests := []
  now := fun _ => 0
  dynamicSize := none
  tree := .node 0 []
  computeMatch := fun _ => ⟨0, 0, 0⟩
  temporaryDeprioritized := fun _ => false
  shuffle := id
  setOrder := id
  nextRound := fun _ => ⟨0, 0, 0⟩
  availableAndEvictable := fun _ _ => 40
  swaAvailableAndEvictable := fun _ _ => 0
  loadedBack := fun _ => 0
  canScheduleLora := fun _ => true
  prefetchDone := fun _ => true
  allowPrefill := true
  perm_shuffle := fun _ => List.Perm.refl _
  perm_setOrder := fun _ => List.Perm.refl _
  nodup_tree := by decide
  lastNode_mem := fun _ => by decide

def growingCall (r : ReqId) : IgnoreEosCall where
  adder := init plainAdder growingReqs [] 16384 none
  env := roomyEnv
  runningBatch := []
  req := r

/-- A second request that goes on for longer than the first is put before it.  The simulation takes it to end
first, together with the other one: it asks for forty tokens, where the sorted list asks for twenty. -/
theorem reqStates_unsorted : ¬ ∀ cfg reqs (calls : List IgnoreEosCall) k,
    Sound cfg reqs (run cfg reqs (calls.take k)) := by
  intro h
  have hstates : (run plainAdder growingReqs [growingCall 0, growingCall 1]).reqStates
      = some [(20, 4), (10, 4)] := by decide +kernel
  have hsorted := (h plainAdder growingReqs [growingCall 0, growingCall 1] 2 _ hstates).1
  revert hsorted
  decide +kernel

end IgnoreEosCall

end PrefillAdder

end Sglang
