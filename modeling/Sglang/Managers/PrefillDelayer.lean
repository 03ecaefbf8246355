/-
# The prefill delayer

In every scheduling pass the ranks of `prefill_delayer.py` gather who has something to prefill, and
each of them decides on what it gathered, with the number of passes that it has delayed so far,
whether a prefill is to wait.  Everything the decision depends on is gathered or has been the same on
all ranks before, with one exception: how long the current delay has lasted is read off the clock of
the rank.

So the ranks agree in every run in which, whenever the clock is asked, all of them are on the same
side of `max_delay_ms` (`delays_agree`).  They do not agree in general (`delays_disagree`): two ranks
can be one reading of the clock apart.
-/
import Sglang.Lib.FloatOps

namespace Sglang

open List Option Lib

/-! ## 1. One decision -/

/-- `_State`. -/
structure DelayState where
  delayedCount : ℕ := 0
  startTime : ℚ
deriving DecidableEq

def DelayState.bumpDelayedCount (s : DelayState) : DelayState :=
  { s with delayedCount := s.delayedCount + 1 }

/-- What the delayer is configured with.  `max_running_requests` is the limit of the scheduler, which
every request to the delayer passes on.  All ranks compute with the same floats. -/
structure DelayerConfig where
  float : FloatOps
  maxDelayPasses : ℤ
  tokenUsageLowWatermark : Option ℚ
  queueMinRatio : Option ℚ
  maxDelayMs : Option ℚ
  enableDpAttention : Bool
  dpSize : ℕ
  attnTpSize : ℕ
  maxRunningRequests : ℤ

namespace DelayerConfig

/-- Unless it is set, the time limit is five seconds. -/
def delayLimit (cfg : DelayerConfig) : ℚ :=
  cfg.maxDelayMs.getD 5000

/-- The number of data-parallel ranks that gather together. -/
def dpSizeDim (cfg : DelayerConfig) : ℕ :=
  if cfg.enableDpAttention then cfg.dpSize else 1

end DelayerConfig

inductive PrefillableStatus
  | all
  | none
  | mixed
deriving DecidableEq

inductive OutputReason
  | tokenWatermark
  | delay
  | waitSuccess
  | noWait
  | unspecified
  | waitTimeout
deriving DecidableEq

/-- `_NegotiateOutput`. -/
structure NegotiateOutput where
  nextState : Option DelayState
  inputEstimation : PrefillableStatus
  outputAllow : Bool
  outputReason : OutputReason
  numPrefillable : ℤ
  numTokenWatermarkForceAllow : ℤ
deriving DecidableEq

/-- The five values that a rank puts into the gathered tensor. -/
structure DelayerInfo where
  prefillable : ℤ
  tokenWatermarkForceAllow : ℤ
  runningBatch : ℤ
  maxPrefillBs : ℤ
  waitingQueueLen : ℤ
deriving DecidableEq

/-- The arguments of `negotiate_should_allow_prefill`. -/
structure NegotiateArgs where
  localPrefillable : Bool
  runningBatch : ℤ := 0
  maxPrefillBs : ℤ := 0
  maxRunningRequests : ℤ := 0
  waitingQueueLen : ℤ := 0

/-- The clock of a rank: where `elapsed_ms` reads it, and where a state is made. -/
structure Clock where
  now : ℚ
  start : ℚ

/-- What a rank keeps between passes. -/
structure PrefillDelayer where
  currState : Option DelayState := none
  skipFirstDelayer : Bool := true
deriving DecidableEq

namespace PrefillDelayer

/-- The tensor operations, on a column of what was gathered. -/
def columnMax (column : DelayerInfo → ℤ) (rows : List DelayerInfo) : ℤ :=
  (rows.map column).max?.getD 0

def columnMin (column : DelayerInfo → ℤ) (rows : List DelayerInfo) : ℤ :=
  (rows.map column).min?.getD 0

def columnSum (column : DelayerInfo → ℤ) (rows : List DelayerInfo) : ℤ :=
  (rows.map column).sum

def prefillableStatus (rows : List DelayerInfo) : PrefillableStatus :=
  if 0 < columnMin (·.prefillable) rows then .all
  else if columnMax (·.prefillable) rows = 0 then .none
  else .mixed

def existsTokenWatermarkForceAllow (rows : List DelayerInfo) : Bool :=
  0 < columnMax (·.tokenWatermarkForceAllow) rows

/-- The slots of a data-parallel rank. -/
def slotsPerRank (cfg : DelayerConfig) (maxRunningRequests : ℤ) : ℤ :=
  if cfg.enableDpAttention then maxRunningRequests
  else (maxRunningRequests + cfg.dpSize - 1).fdiv cfg.dpSize

/-- `queue_condition` before the time is looked at. -/
def queueShort (cfg : DelayerConfig) (rows : List DelayerInfo) : Bool :=
  match cfg.queueMinRatio with
  | none => false
  | some ratio =>
    let globalRunningBatchMax := columnMax (·.runningBatch) rows
    let queueMinEffective := min
      (FloatOps.truncate (cfg.float.mul (cfg.float.ofInt globalRunningBatchMax) ratio))
      (columnMax (·.maxPrefillBs) rows)
    0 < globalRunningBatchMax && 0 < queueMinEffective
      && columnMax (·.waitingQueueLen) rows < queueMinEffective

/-- The delay in progress has reached its limit, by the clock of the rank. -/
def timedOut (cfg : DelayerConfig) (prevState : Option DelayState) (clock : Clock) : Bool :=
  match prevState with
  | none => false
  | some s => cfg.delayLimit ≤ cfg.float.mul (cfg.float.sub clock.now s.startTime) 1000

def slotCondition (cfg : DelayerConfig) (maxRunningRequests : ℤ) (rows : List DelayerInfo) : Bool :=
  slotsPerRank cfg maxRunningRequests - columnMax (·.runningBatch) rows
    < columnMax (·.maxPrefillBs) rows

/-- `next_state = (prev_state or _State()).bump_delayed_count()`. -/
def delayed (prevState : Option DelayState) (clock : Clock) : DelayState :=
  (prevState.getD ⟨0, clock.start⟩).bumpDelayedCount

/-- The local row that `_gather_info` sends. -/
def localInfo (cfg : DelayerConfig) (tokenUsage : ℚ) (args : NegotiateArgs) : DelayerInfo :=
  let forceAllow : Bool := args.localPrefillable && match cfg.tokenUsageLowWatermark with
    | none => false
    | some x => tokenUsage < x
  { prefillable := args.localPrefillable.toInt
    tokenWatermarkForceAllow := forceAllow.toInt
    runningBatch := args.runningBatch
    maxPrefillBs := args.maxPrefillBs
    waitingQueueLen := args.waitingQueueLen }

/-- `_negotiate_should_allow_prefill_pure`, on the gathered rows: its output, and the one-shot flag
that it changes. -/
def negotiatePure (cfg : DelayerConfig) (prevState : Option DelayState) (skipFirstDelayer : Bool)
    (maxRunningRequests : ℤ) (clock : Clock) (rows : List DelayerInfo) : NegotiateOutput × Bool :=
  let output (nextState : Option DelayState) (outputAllow : Bool) (outputReason : OutputReason) :
      NegotiateOutput :=
    { nextState := nextState
      inputEstimation := prefillableStatus rows
      outputAllow := outputAllow
      outputReason := outputReason
      numPrefillable := columnSum (·.prefillable) rows
      numTokenWatermarkForceAllow := columnSum (·.tokenWatermarkForceAllow) rows }
  match prefillableStatus rows with
  | .all =>
    if existsTokenWatermarkForceAllow rows then (output none true .tokenWatermark, skipFirstDelayer)
    else
      let queueCondition := queueShort cfg rows && !timedOut cfg prevState clock
      let wait := slotCondition cfg maxRunningRequests rows || queueCondition
      if wait && !skipFirstDelayer then
        (output (some (delayed prevState clock)) false .delay, skipFirstDelayer)
      else
        (output none true (if prevState.isSome then .waitSuccess else .noWait),
          skipFirstDelayer && !wait)
  | .none => (output none true .unspecified, skipFirstDelayer)
  | .mixed =>
    if existsTokenWatermarkForceAllow rows then (output none true .tokenWatermark, skipFirstDelayer)
    else if (prevState.elim 0 (·.delayedCount) : ℕ) < cfg.maxDelayPasses - 1 then
      (output (some (delayed prevState clock)) false .delay, skipFirstDelayer)
    else (output none true .waitTimeout, skipFirstDelayer)

/-- `_negotiate_should_allow_prefill`. -/
def negotiate (cfg : DelayerConfig) (delayer : PrefillDelayer) (maxRunningRequests : ℤ)
    (clock : Clock) (rows : List DelayerInfo) : PrefillDelayer × NegotiateOutput :=
  let (out, skipFirstDelayer) := negotiatePure cfg delayer.currState delayer.skipFirstDelayer
    maxRunningRequests clock rows
  ({ currState := out.nextState, skipFirstDelayer := skipFirstDelayer }, out)

end PrefillDelayer

/-! ## 2. One pass of a rank -/

/-- `PrefillDelayerSinglePassExecutor`: only its first request negotiates. -/
structure SinglePassExecutor where
  prefillDelayer : PrefillDelayer
  result : Option NegotiateOutput := none

namespace SinglePassExecutor

def negotiateShouldAllowPrefill (cfg : DelayerConfig) (clock : Clock) (rows : List DelayerInfo)
    (executor : SinglePassExecutor) (args : NegotiateArgs) : SinglePassExecutor × Bool :=
  match executor.result with
  | some out => (executor, out.outputAllow)
  | none =>
    let (prefillDelayer, out) :=
      executor.prefillDelayer.negotiate cfg args.maxRunningRequests clock rows
    (⟨prefillDelayer, some out⟩, out.outputAllow)

/-- The requests of a pass, and what each of them is told. -/
def requests (cfg : DelayerConfig) (clock : Clock) (rows : List DelayerInfo) :
    SinglePassExecutor → List NegotiateArgs → SinglePassExecutor × List Bool
  | executor, [] => (executor, [])
  | executor, args :: rest =>
    let (executor, allow) := executor.negotiateShouldAllowPrefill cfg clock rows args
    let (executor, allows) := requests cfg clock rows executor rest
    (executor, allow :: allows)

/-- `finalize`: a pass without a request negotiates with nothing to prefill. -/
def finalize (cfg : DelayerConfig) (clock : Clock) (rows : List DelayerInfo)
    (executor : SinglePassExecutor) : SinglePassExecutor :=
  match executor.result with
  | some _ => executor
  | none =>
    (executor.negotiateShouldAllowPrefill cfg clock rows { localPrefillable := false }).1

end SinglePassExecutor

/-- What a request to be added asks with (`add_one_req`). -/
structure AddOneReqLoad where
  runningBatch : ℤ
  maxPrefillBs : ℤ
  waitingQueueLen : ℤ

/-- The arguments of the request. -/
def AddOneReqLoad.args (cfg : DelayerConfig) (load : AddOneReqLoad) : NegotiateArgs :=
  { localPrefillable := true
    runningBatch := load.runningBatch
    maxPrefillBs := load.maxPrefillBs
    maxRunningRequests := cfg.maxRunningRequests
    waitingQueueLen := load.waitingQueueLen }

/-- What the first request of a pass asks with, or `finalize` if there is none. -/
def firstArgs (cfg : DelayerConfig) : List AddOneReqLoad → NegotiateArgs
  | [] => { localPrefillable := false }
  | load :: _ => load.args cfg

/-! ## 3. The ranks -/

/-- One pass of all ranks.  The attention ranks of one data-parallel rank schedule the same requests;
every rank has a clock of its own. -/
structure DelayPass where
  loads : ℕ → List AddOneReqLoad
  tokenUsage : ℕ → ℚ
  clock : ℕ × ℕ → Clock

/-- A data-parallel rank, and an attention rank of it. -/
def DelayerConfig.IsRank (cfg : DelayerConfig) (r : ℕ × ℕ) : Prop :=
  r.1 < cfg.dpSizeDim ∧ r.2 < cfg.attnTpSize

instance (cfg : DelayerConfig) (r : ℕ × ℕ) : Decidable (cfg.IsRank r) :=
  inferInstanceAs (Decidable (_ ∧ _))

namespace DelayPass

/-- `tp0_info`: the rows of the first attention rank of every data-parallel rank. -/
def rows (cfg : DelayerConfig) (pass : DelayPass) : List DelayerInfo :=
  (List.range cfg.dpSizeDim).map fun d =>
    PrefillDelayer.localInfo cfg (pass.tokenUsage d) (firstArgs cfg (pass.loads d))

/-- The executor of a rank when the pass is over, and what the requests were told. -/
def executor (cfg : DelayerConfig) (pass : DelayPass) (delayers : ℕ × ℕ → PrefillDelayer)
    (r : ℕ × ℕ) : SinglePassExecutor × List Bool :=
  let (executor, allows) := SinglePassExecutor.requests cfg (pass.clock r) (pass.rows cfg)
    ⟨delayers r, none⟩ ((pass.loads r.1).map (·.args cfg))
  (executor.finalize cfg (pass.clock r) (pass.rows cfg), allows)

def step (cfg : DelayerConfig) (pass : DelayPass) (delayers : ℕ × ℕ → PrefillDelayer) :
    ℕ × ℕ → PrefillDelayer :=
  fun r => (pass.executor cfg delayers r).1.prefillDelayer

/-- `output_allow` of a rank. -/
def outputAllow (cfg : DelayerConfig) (pass : DelayPass) (delayers : ℕ × ℕ → PrefillDelayer)
    (r : ℕ × ℕ) : Option Bool :=
  (pass.executor cfg delayers r).1.result.map (·.outputAllow)

/-- The ranks after some passes, each made with nothing behind it. -/
def run (cfg : DelayerConfig) (passes : List DelayPass) : ℕ × ℕ → PrefillDelayer :=
  passes.foldl (fun delayers pass => pass.step cfg delayers) fun _ => {}

end DelayPass

/-! ## 4. What a pass does -/

namespace SinglePassExecutor

variable {cfg : DelayerConfig} {clock : Clock} {rows : List DelayerInfo}

theorem requests_of_result {delayer : PrefillDelayer} {out : NegotiateOutput} (args : List NegotiateArgs) :
    requests cfg clock rows ⟨delayer, some out⟩ args
      = (⟨delayer, some out⟩, args.map fun _ => out.outputAllow) := by
  induction args with
  | nil => rfl
  | cons a rest ih => simp [requests, negotiateShouldAllowPrefill, ih]

end SinglePassExecutor

namespace DelayPass

open PrefillDelayer

variable {cfg : DelayerConfig} {pass : DelayPass} {delayers : ℕ × ℕ → PrefillDelayer} {r r' : ℕ × ℕ}

/-- The negotiation of a rank in a pass. -/
def negotiated (cfg : DelayerConfig) (pass : DelayPass) (delayers : ℕ × ℕ → PrefillDelayer)
    (r : ℕ × ℕ) : PrefillDelayer × NegotiateOutput :=
  (delayers r).negotiate cfg (firstArgs cfg (pass.loads r.1)).maxRunningRequests (pass.clock r)
    (pass.rows cfg)

/-- **A rank negotiates once in a pass**, and every request of the pass is told the same. -/
theorem executor_eq : pass.executor cfg delayers r
    = (⟨(pass.negotiated cfg delayers r).1, some (pass.negotiated cfg delayers r).2⟩,
        (pass.loads r.1).map fun _ => (pass.negotiated cfg delayers r).2.outputAllow) := by
  unfold executor negotiated
  cases hloads : pass.loads r.1 with
  | nil => simp [SinglePassExecutor.requests, SinglePassExecutor.finalize,
      SinglePassExecutor.negotiateShouldAllowPrefill, firstArgs]
  | cons load rest =>
    simp [SinglePassExecutor.requests, SinglePassExecutor.negotiateShouldAllowPrefill,
      SinglePassExecutor.requests_of_result, SinglePassExecutor.finalize, firstArgs, Function.comp_def]

theorem step_apply : pass.step cfg delayers r = (pass.negotiated cfg delayers r).1 := by
  rw [step, executor_eq]

theorem outputAllow_eq :
    pass.outputAllow cfg delayers r = some (pass.negotiated cfg delayers r).2.outputAllow := by
  rw [outputAllow, executor_eq]
  rfl

/-- If all data-parallel ranks can prefill, each of them has a request. -/
theorem loads_ne_nil (h : prefillableStatus (pass.rows cfg) = .all) (hr : cfg.IsRank r) :
    pass.loads r.1 ≠ [] := by
  intro hnil
  have hpos : 0 < columnMin (·.prefillable) (pass.rows cfg) := by
    by_contra hneg
    rw [prefillableStatus, if_neg hneg] at h
    split at h <;> cases h
  have hrow : localInfo cfg (pass.tokenUsage r.1) (firstArgs cfg (pass.loads r.1)) ∈ pass.rows cfg :=
    mem_map.mpr ⟨r.1, mem_range.mpr hr.1, rfl⟩
  have hzero : (0 : ℤ) ∈ (pass.rows cfg).map (·.prefillable) := by
    refine mem_map.mpr ⟨_, hrow, ?_⟩
    rw [hnil]
    rfl
  obtain ⟨m, hm⟩ : ∃ m, ((pass.rows cfg).map (·.prefillable)).min? = some m :=
    isSome_iff_exists.mp (isSome_min?_of_mem hzero)
  have hle : m ≤ 0 := (min?_eq_some_iff.mp hm).2 0 hzero
  rw [columnMin, hm, getD_some] at hpos
  omega

/-! ## 5. The ranks agree -/

end DelayPass

namespace PrefillDelayer

variable {cfg : DelayerConfig} {rows : List DelayerInfo}

/-- Two ranks have delayed equally often; they need not have begun at the same time. -/
def Same (d d' : PrefillDelayer) : Prop :=
  d.currState.map (·.delayedCount) = d'.currState.map (·.delayedCount)
    ∧ d.skipFirstDelayer = d'.skipFirstDelayer

/-- The decision depends on the time: everyone can prefill, no rank is below its watermark, and it is
only the short queue that speaks for waiting. -/
def ConsultsClock (cfg : DelayerConfig) (rows : List DelayerInfo) : Prop :=
  prefillableStatus rows = .all ∧ existsTokenWatermarkForceAllow rows = false
    ∧ queueShort cfg rows = true ∧ slotCondition cfg cfg.maxRunningRequests rows = false

/-- Ranks that agree and gather the same rows decide the same and agree afterwards, unless they ask
their clocks and are told different things. -/
theorem negotiate_same {d d' : PrefillDelayer} {m m' : ℤ} {clock clock' : Clock} (h : Same d d')
    (hm : prefillableStatus rows = .all → m = cfg.maxRunningRequests ∧ m' = cfg.maxRunningRequests)
    (hclock : ConsultsClock cfg rows →
      timedOut cfg d.currState clock = timedOut cfg d'.currState clock') :
    (d.negotiate cfg m clock rows).2.outputAllow = (d'.negotiate cfg m' clock' rows).2.outputAllow
      ∧ Same (d.negotiate cfg m clock rows).1 (d'.negotiate cfg m' clock' rows).1 := by
  obtain ⟨hcount, hskip⟩ := h
  have hdelayed : (delayed d.currState clock).delayedCount
      = (delayed d'.currState clock').delayedCount := by
    cases h1 : d.currState <;> cases h2 : d'.currState <;>
      simp_all [delayed, DelayState.bumpDelayedCount]
  have helim : d.currState.elim 0 (·.delayedCount) = d'.currState.elim 0 (·.delayedCount) := by
    cases h1 : d.currState <;> cases h2 : d'.currState <;> simp_all
  cases hstatus : prefillableStatus rows with
  | none => simp [negotiate, negotiatePure, hstatus, Same, hskip]
  | mixed =>
    cases hforce : existsTokenWatermarkForceAllow rows
    · by_cases hlt : ((d'.currState.elim 0 (·.delayedCount) : ℕ) : ℤ) < cfg.maxDelayPasses - 1
      · simp [negotiate, negotiatePure, hstatus, hforce, Same, hskip, helim, hlt, hdelayed]
      · simp [negotiate, negotiatePure, hstatus, hforce, Same, hskip, helim, hlt]
    · simp [negotiate, negotiatePure, hstatus, hforce, Same, hskip]
  | all =>
    obtain ⟨rfl, rfl⟩ := hm hstatus
    cases hforce : existsTokenWatermarkForceAllow rows
    · -- the time makes a difference only when the queue is short and the slots are not
      have hwait : (slotCondition cfg cfg.maxRunningRequests rows
            || (queueShort cfg rows && !timedOut cfg d.currState clock))
          = (slotCondition cfg cfg.maxRunningRequests rows
            || (queueShort cfg rows && !timedOut cfg d'.currState clock')) := by
        cases hslot : slotCondition cfg cfg.maxRunningRequests rows
        · cases hshort : queueShort cfg rows
          · rfl
          · rw [hclock ⟨hstatus, hforce, hshort, hslot⟩]
        · rfl
      simp only [negotiate, negotiatePure, hstatus, hforce, Bool.false_eq_true, if_false, hwait, hskip]
      split
      · exact ⟨rfl, by simp [Same, hdelayed]⟩
      · exact ⟨rfl, rfl, rfl⟩
    · simp [negotiate, negotiatePure, hstatus, hforce, Same, hskip]

/-- A mixed pass without an override delays only while the count is below its limit, and counts. -/
theorem negotiate_mixed {d : PrefillDelayer} {m : ℤ} {clock : Clock}
    (hstatus : prefillableStatus rows = .mixed) (hforce : existsTokenWatermarkForceAllow rows = false)
    (hdelay : (d.negotiate cfg m clock rows).2.outputAllow = false) :
    ((d.currState.elim 0 (·.delayedCount) : ℕ) : ℤ) < cfg.maxDelayPasses - 1
      ∧ (d.negotiate cfg m clock rows).1.currState.elim 0 (·.delayedCount)
        = d.currState.elim 0 (·.delayedCount) + 1 := by
  by_cases hlt : ((d.currState.elim 0 (·.delayedCount) : ℕ) : ℤ) < cfg.maxDelayPasses - 1
  · refine ⟨hlt, ?_⟩
    simp only [negotiate, negotiatePure, hstatus, hforce, Bool.false_eq_true, if_false, hlt, if_true]
    cases d.currState <;> rfl
  · simp [negotiate, negotiatePure, hstatus, hforce, hlt] at hdelay

end PrefillDelayer

namespace DelayPass

open PrefillDelayer

variable {cfg : DelayerConfig} {passes : List DelayPass}

/-- Where the decision depends on the time, the ranks are on the same side of the limit. -/
def OnSameSide (cfg : DelayerConfig) (delayers : ℕ × ℕ → PrefillDelayer) (pass : DelayPass) : Prop :=
  ConsultsClock cfg (pass.rows cfg) → ∀ r r', cfg.IsRank r → cfg.IsRank r' →
    timedOut cfg (delayers r).currState (pass.clock r)
      = timedOut cfg (delayers r').currState (pass.clock r')

/-- All ranks agree on how often they have delayed. -/
def Agree (cfg : DelayerConfig) (delayers : ℕ × ℕ → PrefillDelayer) : Prop :=
  ∀ r r', cfg.IsRank r → cfg.IsRank r' → (delayers r).Same (delayers r')

variable {pass : DelayPass} {delayers : ℕ × ℕ → PrefillDelayer} {r r' : ℕ × ℕ}

theorem maxRunningRequests_of_all (hr : cfg.IsRank r)
    (h : prefillableStatus (pass.rows cfg) = .all) :
    (firstArgs cfg (pass.loads r.1)).maxRunningRequests = cfg.maxRunningRequests := by
  cases hloads : pass.loads r.1 with
  | nil => exact absurd hloads (loads_ne_nil h hr)
  | cons load rest => rfl

theorem negotiated_same (h : Agree cfg delayers) (hside : OnSameSide cfg delayers pass)
    (hr : cfg.IsRank r) (hr' : cfg.IsRank r') :
    (pass.negotiated cfg delayers r).2.outputAllow = (pass.negotiated cfg delayers r').2.outputAllow
      ∧ Same (pass.negotiated cfg delayers r).1 (pass.negotiated cfg delayers r').1 :=
  negotiate_same (h r r' hr hr')
    (fun hall => ⟨maxRunningRequests_of_all hr hall, maxRunningRequests_of_all hr' hall⟩)
    fun hconsults => hside hconsults r r' hr hr'

theorem run_take_succ {k : ℕ} (hpass : passes[k]? = some pass) :
    run cfg (passes.take (k + 1)) = pass.step cfg (run cfg (passes.take k)) := by
  rw [take_add_one, hpass, run, foldl_append]
  rfl

/-- Ranks that have always been on the same side of the limit agree. -/
theorem agree_run
    (h : ∀ k pass, passes[k]? = some pass → OnSameSide cfg (run cfg (passes.take k)) pass) (k : ℕ) :
    Agree cfg (run cfg (passes.take k)) := by
  induction k with
  | zero => exact fun _ _ _ _ => ⟨rfl, rfl⟩
  | succ k ih =>
    intro r r' hr hr'
    cases hpass : passes[k]? with
    | none =>
      rw [take_add_one, hpass, toList_none, append_nil]
      exact ih r r' hr hr'
    | some pass =>
      rw [run_take_succ hpass, step_apply, step_apply]
      exact (negotiated_same ih (h k pass hpass) hr hr').2

/-- A rank delays a mixed pass in which no rank is below its watermark. -/
def DelaysMixed (cfg : DelayerConfig) (passes : List DelayPass) (r : ℕ × ℕ) (k : ℕ) : Prop :=
  ∃ pass, passes[k]? = some pass ∧ prefillableStatus (pass.rows cfg) = .mixed
    ∧ existsTokenWatermarkForceAllow (pass.rows cfg) = false
    ∧ pass.outputAllow cfg (run cfg (passes.take k)) r = some false

theorem DelaysMixed.count {k : ℕ} (h : DelaysMixed cfg passes r k) :
    (((run cfg (passes.take k) r).currState.elim 0 (·.delayedCount) : ℕ) : ℤ) < cfg.maxDelayPasses - 1
      ∧ (run cfg (passes.take (k + 1)) r).currState.elim 0 (·.delayedCount)
        = (run cfg (passes.take k) r).currState.elim 0 (·.delayedCount) + 1 := by
  obtain ⟨pass, hpass, hstatus, hforce, hdelay⟩ := h
  rw [outputAllow_eq, Option.some.injEq] at hdelay
  rw [run_take_succ hpass, step_apply]
  exact negotiate_mixed hstatus hforce hdelay

theorem le_delayedCount {k n : ℕ} (h : ∀ i < n, DelaysMixed cfg passes r (k + i)) :
    n ≤ (run cfg (passes.take (k + n)) r).currState.elim 0 (·.delayedCount) := by
  induction n with
  | zero => exact Nat.zero_le _
  | succ n ih =>
    have hcount := ih fun i hi => h i (by omega)
    rw [← Nat.add_assoc, (h n n.lt_succ_self).count.2]
    omega

theorem length_le_of_delaysMixed {k n : ℕ} (h : ∀ i < n, DelaysMixed cfg passes r (k + i)) :
    n ≤ (cfg.maxDelayPasses - 1).toNat := by
  cases n with
  | zero => exact Nat.zero_le _
  | succ n =>
    have hlt := (h n n.lt_succ_self).count.1
    have hcount := le_delayedCount fun i hi => h i (Nat.lt_succ_of_lt hi)
    omega

/-- All ranks return the same `output_allow` in every pass. -/
def SameOutputAllow (cfg : DelayerConfig) (passes : List DelayPass) : Prop :=
  ∀ (k : ℕ) (pass : DelayPass), passes[k]? = some pass → ∀ r r', cfg.IsRank r → cfg.IsRank r' →
    pass.outputAllow cfg (run cfg (passes.take k)) r
      = pass.outputAllow cfg (run cfg (passes.take k)) r'

/-- Of mixed passes in a row, in which no rank is below its watermark, fewer than `max_delay_passes` are
delayed. -/
def DelaysBounded (cfg : DelayerConfig) (passes : List DelayPass) : Prop :=
  ∀ r k n, (∀ i < n, DelaysMixed cfg passes r (k + i)) → n ≤ (cfg.maxDelayPasses - 1).toNat

/-- **The ranks decide the same in every pass of a run in which, whenever the decision depends on the
time, they are on the same side of the limit.**  Mixed passes are not delayed for ever in any run. -/
theorem delays_agree (cfg : DelayerConfig) (passes : List DelayPass)
    (hside : ∀ (k : ℕ) (pass : DelayPass), passes[k]? = some pass →
      OnSameSide cfg (run cfg (passes.take k)) pass) :
    SameOutputAllow cfg passes ∧ DelaysBounded cfg passes := by
  refine ⟨fun k pass hpass r r' hr hr' => ?_, fun r k n => length_le_of_delaysMixed⟩
  rw [outputAllow_eq, outputAllow_eq,
    (negotiated_same (agree_run hside k) (hside k pass hpass) hr hr').1]

/-- Two data-parallel ranks that wait for half as many requests as are running. -/
def twoRanks : DelayerConfig :=
  { float := .exact
    maxDelayPasses := 30
    tokenUsageLowWatermark := none
    queueMinRatio := some (1 / 2)
    maxDelayMs := none
    enableDpAttention := true
    dpSize := 2
    attnTpSize := 1
    maxRunningRequests := 100 }

theorem twoRanks_isRank (h : twoRanks.IsRank r) : r = (0, 0) ∨ r = (1, 0) := by
  obtain ⟨d, t⟩ := r
  have hd : d < 2 := h.1
  have ht : t < 1 := h.2
  obtain rfl : t = 0 := by omega
  obtain rfl | rfl : d = 0 ∨ d = 1 := by omega
  · exact Or.inl rfl
  · exact Or.inr rfl

/-- On both ranks eight requests run and one waits. -/
def shortQueue (now : ℕ → ℚ) : DelayPass :=
  { loads := fun _ => [⟨8, 4, 1⟩]
    tokenUsage := fun _ => 9 / 10
    clock := fun r => ⟨now r.1, now r.1⟩ }

/-- The first pass is let through, the second is delayed, and in the third the time is up on both ranks. -/
theorem delays_agree_twoRanks :
    SameOutputAllow twoRanks
        [shortQueue fun _ => 0, shortQueue fun _ => 1, shortQueue fun d => if d = 0 then 6 else 7]
      ∧ DelaysBounded twoRanks
        [shortQueue fun _ => 0, shortQueue fun _ => 1, shortQueue fun d => if d = 0 then 6 else 7] := by
  refine delays_agree twoRanks _ fun k pass hpass _ r r' hr hr' => ?_
  rcases k with _ | _ | _ | k
  · rcases twoRanks_isRank hr with rfl | rfl <;> rcases twoRanks_isRank hr' with rfl | rfl <;> rfl
  · cases hpass
    rcases twoRanks_isRank hr with rfl | rfl <;> rcases twoRanks_isRank hr' with rfl | rfl <;>
      decide +kernel
  · cases hpass
    rcases twoRanks_isRank hr with rfl | rfl <;> rcases twoRanks_isRank hr' with rfl | rfl <;>
      decide +kernel
  · cases hpass

/-- Both ranks delay the second pass.  In the third the time is up on the first rank, which reads its clock
a moment later than the other one. -/
theorem delays_disagree : ¬ ∀ cfg passes, SameOutputAllow cfg passes ∧ DelaysBounded cfg passes := by
  intro h
  have hsame := (h twoRanks [shortQueue fun _ => 0, shortQueue fun _ => 1,
    shortQueue fun d => if d = 0 then 6 else 5999 / 1000]).1 2 _ rfl (0, 0) (1, 0)
    (by decide) (by decide)
  revert hsame
  decide +kernel

end DelayPass

end Sglang
