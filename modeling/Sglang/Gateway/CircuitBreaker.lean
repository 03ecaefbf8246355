/-
# The circuit breaker of the gateway

A transcription of `CircuitBreaker` (`circuit_breaker.rs`) for calls that come one after the other.  Time
is the reading of `Instant` in nanoseconds; `now_ms` keeps whole milliseconds of it in 64 bits, and so
does `timeout_duration` when it is compared.

The two counters go on counting while the circuit is open.  Every transition to `Closed` or `HalfOpen`
sets both to zero, so what an open circuit counted decides nothing (`Counted.move`).
-/
import Mathlib.Tactic

namespace Sglang

open List

/-! ## 1. The breaker -/

/-- `CircuitState`. -/
inductive CircuitState where
  | closed
  | opened
  | halfOpen
deriving DecidableEq, Repr

/-- `CircuitBreakerConfig`, with durations in nanoseconds.  The thresholds are `u32`. -/
structure CircuitBreakerConfig where
  failureThreshold : ℕ
  successThreshold : ℕ
  timeoutDuration : ℕ
  failureThreshold_lt : failureThreshold < 2 ^ 32
  successThreshold_lt : successThreshold < 2 ^ 32

/-- A number as a `u32` holds it. -/
def asU32 (n : ℕ) : ℕ := n % 2 ^ 32

/-- A number as a `u64` holds it. -/
def asU64 (n : ℕ) : ℕ := n % 2 ^ 64

/-- `as_millis() as u64` of a duration in nanoseconds. -/
def asMillis (nanos : ℕ) : ℕ := asU64 (nanos / 10 ^ 6)

/-- `now_ms` at the given reading of the clock. -/
def nowMs (now : ℕ) : ℕ := asMillis now

/-- `CircuitBreaker`.  The counters are `u32` and `u64` and wrap around. -/
structure CircuitBreaker where
  state : CircuitState
  consecutiveFailures : ℕ
  consecutiveSuccesses : ℕ
  totalFailures : ℕ
  totalSuccesses : ℕ
  lastFailureTimeMs : ℕ
  lastStateChangeMs : ℕ
  config : CircuitBreakerConfig

namespace CircuitBreaker

/-- `with_config_and_label`. -/
def withConfig (config : CircuitBreakerConfig) (now : ℕ) : CircuitBreaker where
  state := .closed
  consecutiveFailures := 0
  consecutiveSuccesses := 0
  totalFailures := 0
  totalSuccesses := 0
  lastFailureTimeMs := 0
  lastStateChangeMs := nowMs now
  config := config

/-- `check_and_update_state_returning`: the clock is read at `now`, and at `stamp` again when the state
changes. -/
def checkAndUpdateStateReturning (b : CircuitBreaker) (now stamp : ℕ) :
    CircuitState × CircuitBreaker :=
  if b.state = .opened then
    let elapsedMs := nowMs now - b.lastStateChangeMs
    let timeoutMs := asMillis b.config.timeoutDuration
    if elapsedMs ≥ timeoutMs then
      (.halfOpen, { b with
        state := .halfOpen
        lastStateChangeMs := nowMs stamp
        consecutiveFailures := 0
        consecutiveSuccesses := 0 })
    else (b.state, b)
  else (b.state, b)

/-- `can_execute`. -/
def canExecute (b : CircuitBreaker) (now stamp : ℕ) : Bool × CircuitBreaker :=
  let (state, b) := b.checkAndUpdateStateReturning now stamp
  match state with
  | .closed => (true, b)
  | .opened => (false, b)
  | .halfOpen => (true, b)

/-- `transition_to`. -/
def transitionTo (b : CircuitBreaker) (newState : CircuitState) (stamp : ℕ) : CircuitBreaker :=
  let oldState := b.state
  let b := { b with state := newState }
  if oldState ≠ newState then
    let b := { b with lastStateChangeMs := nowMs stamp }
    match newState with
    | .closed => { b with consecutiveFailures := 0, consecutiveSuccesses := 0 }
    | .opened => { b with consecutiveSuccesses := 0 }
    | .halfOpen => { b with consecutiveFailures := 0, consecutiveSuccesses := 0 }
  else b

/-- `record_success`. -/
def recordSuccess (b : CircuitBreaker) (stamp : ℕ) : CircuitBreaker :=
  let successes := asU32 (b.consecutiveSuccesses + 1)
  let b := { b with
    totalSuccesses := asU64 (b.totalSuccesses + 1)
    consecutiveFailures := 0
    consecutiveSuccesses := successes }
  match b.state with
  | .halfOpen => if successes ≥ b.config.successThreshold then b.transitionTo .closed stamp else b
  | .closed => b
  | .opened => b

/-- `record_failure`: the clock is read at `now`, and at `stamp` again when the state changes. -/
def recordFailure (b : CircuitBreaker) (now stamp : ℕ) : CircuitBreaker :=
  let failures := asU32 (b.consecutiveFailures + 1)
  let b := { b with
    totalFailures := asU64 (b.totalFailures + 1)
    consecutiveSuccesses := 0
    consecutiveFailures := failures
    lastFailureTimeMs := nowMs now }
  match b.state with
  | .closed => if failures ≥ b.config.failureThreshold then b.transitionTo .opened stamp else b
  | .halfOpen => b.transitionTo .opened stamp
  | .opened => b

end CircuitBreaker

/-- The readings of the clock in one call: of the state query and of the record after it, each with the
reading when the state changes. -/
structure ClockReadings where
  checked : ℕ
  checkStamp : ℕ
  recorded : ℕ
  recordStamp : ℕ
  ordered : [checked, checkStamp, recorded, recordStamp].Pairwise (· ≤ ·)

/-- The calls on a breaker, other than `reset` and `force_open`. -/
inductive BreakerCall where
  | canExecute
  | state
  | recordSuccess
  | recordFailure
  | recordTestSuccess
  | recordTestFailure
deriving DecidableEq, Repr

namespace CircuitBreaker

/-- `record_test_success`. -/
def recordTestSuccess (b : CircuitBreaker) (r : ClockReadings) : CircuitBreaker :=
  let (state, b) := b.checkAndUpdateStateReturning r.checked r.checkStamp
  if state = .halfOpen then b.recordSuccess r.recordStamp else b

/-- `record_test_failure`. -/
def recordTestFailure (b : CircuitBreaker) (r : ClockReadings) : CircuitBreaker :=
  let (state, b) := b.checkAndUpdateStateReturning r.checked r.checkStamp
  if state = .halfOpen then b.recordFailure r.recorded r.recordStamp else b

/-- The breaker after a call. -/
def call (b : CircuitBreaker) (c : BreakerCall) (r : ClockReadings) : CircuitBreaker :=
  match c with
  | .canExecute => (b.canExecute r.checked r.checkStamp).2
  | .state => (b.checkAndUpdateStateReturning r.checked r.checkStamp).2
  | .recordSuccess => b.recordSuccess r.recordStamp
  | .recordFailure => b.recordFailure r.recorded r.recordStamp
  | .recordTestSuccess => b.recordTestSuccess r
  | .recordTestFailure => b.recordTestFailure r

/-- The breaker after a list of calls. -/
def run (b : CircuitBreaker) (calls : List (BreakerCall × ClockReadings)) : CircuitBreaker :=
  calls.foldl (fun b c => b.call c.1 c.2) b

end CircuitBreaker

/-! ## 2. Events and moves -/

/-- What a call does to the state: a query, or a recorded outcome. -/
inductive BreakerEvent where
  | query (now stamp : ℕ)
  | success (stamp : ℕ)
  | failure (now stamp : ℕ)
deriving DecidableEq, Repr

/-- An event with the states before and after it. -/
structure BreakerMove where
  event : BreakerEvent
  before : CircuitState
  after : CircuitState
deriving DecidableEq, Repr

namespace BreakerEvent

/-- The readings of the clock in an event. -/
def readings : BreakerEvent → List ℕ
  | .query now stamp => [now, stamp]
  | .success stamp => [stamp]
  | .failure now stamp => [now, stamp]

/-- The reading at which the event changes the state. -/
def stamp : BreakerEvent → ℕ
  | .query _ stamp => stamp
  | .success stamp => stamp
  | .failure _ stamp => stamp

def IsSuccess (e : BreakerEvent) : Prop := ∃ stamp, e = .success stamp

def IsFailure (e : BreakerEvent) : Prop := ∃ now stamp, e = .failure now stamp

theorem stamp_mem_readings (e : BreakerEvent) : e.stamp ∈ e.readings := by
  cases e <;> simp [stamp, readings]

end BreakerEvent

namespace CircuitBreaker

/-- The breaker after an event. -/
def apply (b : CircuitBreaker) : BreakerEvent → CircuitBreaker
  | .query now stamp => (b.checkAndUpdateStateReturning now stamp).2
  | .success stamp => b.recordSuccess stamp
  | .failure now stamp => b.recordFailure now stamp

/-- The breaker after a list of events. -/
def applyAll (b : CircuitBreaker) (es : List BreakerEvent) : CircuitBreaker := es.foldl apply b

/-- The moves of a list of events. -/
def moves (b : CircuitBreaker) : List BreakerEvent → List BreakerMove
  | [] => []
  | e :: es => ⟨e, b.state, (b.apply e).state⟩ :: (b.apply e).moves es

/-- The events of a call: a test outcome queries the state, and is recorded when the circuit is half
open. -/
def events (b : CircuitBreaker) (c : BreakerCall) (r : ClockReadings) : List BreakerEvent :=
  match c with
  | .canExecute => [.query r.checked r.checkStamp]
  | .state => [.query r.checked r.checkStamp]
  | .recordSuccess => [.success r.recordStamp]
  | .recordFailure => [.failure r.recorded r.recordStamp]
  | .recordTestSuccess =>
    if (b.checkAndUpdateStateReturning r.checked r.checkStamp).1 = .halfOpen then
      [.query r.checked r.checkStamp, .success r.recordStamp]
    else [.query r.checked r.checkStamp]
  | .recordTestFailure =>
    if (b.checkAndUpdateStateReturning r.checked r.checkStamp).1 = .halfOpen then
      [.query r.checked r.checkStamp, .failure r.recorded r.recordStamp]
    else [.query r.checked r.checkStamp]

/-- The events of a list of calls. -/
def eventsOf (b : CircuitBreaker) : List (BreakerCall × ClockReadings) → List BreakerEvent
  | [] => []
  | (c, r) :: calls => b.events c r ++ (b.call c r).eventsOf calls

theorem applyAll_events (b : CircuitBreaker) (c : BreakerCall) (r : ClockReadings) :
    b.applyAll (b.events c r) = b.call c r := by
  cases c with
  | canExecute =>
    simp only [events, applyAll, foldl_cons, foldl_nil, apply, call, canExecute]
    split <;> rfl
  | state => rfl
  | recordSuccess => rfl
  | recordFailure => rfl
  | recordTestSuccess =>
    simp only [events, call, recordTestSuccess]
    split <;> rfl
  | recordTestFailure =>
    simp only [events, call, recordTestFailure]
    split <;> rfl

theorem applyAll_eventsOf (b : CircuitBreaker) (calls : List (BreakerCall × ClockReadings)) :
    b.applyAll (b.eventsOf calls) = b.run calls := by
  induction calls generalizing b with
  | nil => rfl
  | cons c calls ih =>
    obtain ⟨c, r⟩ := c
    have hcall := applyAll_events b c r
    simp only [eventsOf, run, foldl_cons, applyAll, foldl_append] at hcall ih ⊢
    rw [hcall]
    exact ih _

@[simp] theorem moves_nil (b : CircuitBreaker) : b.moves [] = [] := rfl

@[simp] theorem applyAll_append (b : CircuitBreaker) (es fs : List BreakerEvent) :
    b.applyAll (es ++ fs) = (b.applyAll es).applyAll fs :=
  foldl_append

theorem moves_append (b : CircuitBreaker) (es fs : List BreakerEvent) :
    b.moves (es ++ fs) = b.moves es ++ (b.applyAll es).moves fs := by
  induction es generalizing b with
  | nil => rfl
  | cons e es ih => exact congrArg _ (ih _)

theorem exists_of_moves_eq {b : CircuitBreaker} {es : List BreakerEvent} {pre post : List BreakerMove}
    {m : BreakerMove} (h : b.moves es = pre ++ m :: post) :
    ∃ fs gs, es = fs ++ m.event :: gs ∧ pre = b.moves fs ∧ m.before = (b.applyAll fs).state ∧
      m.after = ((b.applyAll fs).apply m.event).state := by
  induction es generalizing b pre with
  | nil => simp at h
  | cons e es ih =>
    rw [moves] at h
    cases pre with
    | nil =>
      obtain ⟨rfl, -⟩ := h
      exact ⟨[], es, rfl, rfl, rfl, rfl⟩
    | cons m' pre =>
      rw [cons_append, List.cons.injEq] at h
      obtain ⟨rfl, h⟩ := h
      obtain ⟨fs, gs, rfl, rfl, hbefore, hafter⟩ := ih h
      exact ⟨e :: fs, gs, rfl, rfl, hbefore, hafter⟩

end CircuitBreaker

/-! ## 3. What the moves tell -/

namespace BreakerMove

/-- The circuit enters a state from another one. -/
def Enters (m : BreakerMove) (state : CircuitState) : Prop := m.before ≠ state ∧ m.after = state

instance (m : BreakerMove) (state : CircuitState) : Decidable (m.Enters state) :=
  inferInstanceAs (Decidable (_ ∧ _))

/-- The failures in a row since the circuit last entered `Closed` or last saw a success. -/
def failureRow (ms : List BreakerMove) : ℕ :=
  ms.foldl (fun n m =>
    if m.Enters .closed then 0
    else match m.event with
      | .query _ _ => n
      | .success _ => 0
      | .failure _ _ => n + 1) 0

/-- The successes since the circuit last entered `HalfOpen` or last saw a failure. -/
def successRow (ms : List BreakerMove) : ℕ :=
  ms.foldl (fun n m =>
    if m.Enters .halfOpen then 0
    else match m.event with
      | .query _ _ => n
      | .success _ => n + 1
      | .failure _ _ => 0) 0

/-- The time at which the circuit last opened. -/
def openedAt (ms : List BreakerMove) : Option ℕ :=
  ms.foldl (fun t m => if m.Enters .opened then some m.event.stamp else t) none

theorem failureRow_append (ms : List BreakerMove) (m : BreakerMove) :
    failureRow (ms ++ [m]) =
      if m.Enters .closed then 0
      else match m.event with
        | .query _ _ => failureRow ms
        | .success _ => 0
        | .failure _ _ => failureRow ms + 1 := by
  rw [failureRow, foldl_append]
  rfl

theorem successRow_append (ms : List BreakerMove) (m : BreakerMove) :
    successRow (ms ++ [m]) =
      if m.Enters .halfOpen then 0
      else match m.event with
        | .query _ _ => successRow ms
        | .success _ => successRow ms + 1
        | .failure _ _ => 0 := by
  rw [successRow, foldl_append]
  rfl

theorem openedAt_append (ms : List BreakerMove) (m : BreakerMove) :
    openedAt (ms ++ [m]) = if m.Enters .opened then some m.event.stamp else openedAt ms := by
  rw [openedAt, foldl_append]
  rfl

theorem exists_of_openedAt {ms : List BreakerMove} {t : ℕ} (h : openedAt ms = some t) :
    ∃ m ∈ ms, m.event.stamp = t := by
  induction ms using List.reverseRecOn with
  | nil => exact absurd h nofun
  | append_singleton ms m ih =>
    rw [openedAt_append] at h
    split_ifs at h with hm
    · exact ⟨m, by simp, Option.some.inj h⟩
    · obtain ⟨m', hm', heq⟩ := ih h
      exact ⟨m', by simp [hm'], heq⟩

/-- What the breaker may do at one move, after the moves before it.  A threshold of zero acts as one. -/
structure Lawful (config : CircuitBreakerConfig) (pre : List BreakerMove) (m : BreakerMove) : Prop where
  closed_opens : m.before = .closed →
    (m.after = .opened ↔
      m.event.IsFailure ∧ failureRow pre + 1 = max 1 config.failureThreshold)
  closed_not_halfOpen : m.before = .closed → m.after ≠ .halfOpen
  opened_tests : m.before = .opened →
    (m.after = .halfOpen ↔ ∃ now stamp opened, m.event = .query now stamp ∧
      openedAt pre = some opened ∧
        asMillis config.timeoutDuration ≤ nowMs now - nowMs opened)
  opened_not_closed : m.before = .opened → m.after ≠ .closed
  halfOpen_closes : m.before = .halfOpen →
    (m.after = .closed ↔
      m.event.IsSuccess ∧ successRow pre + 1 = max 1 config.successThreshold)
  halfOpen_opens : m.before = .halfOpen → (m.after = .opened ↔ m.event.IsFailure)

end BreakerMove

/-! ## 4. One event -/

namespace CircuitBreaker

open BreakerMove

variable {b : CircuitBreaker} {ms : List BreakerMove} {now stamp : ℕ}

theorem apply_config (b : CircuitBreaker) (e : BreakerEvent) : (b.apply e).config = b.config := by
  cases e with
  | query now stamp =>
    simp only [apply, checkAndUpdateStateReturning]
    split_ifs <;> rfl
  | success stamp =>
    simp only [apply, recordSuccess, transitionTo]
    split
    · split_ifs <;> rfl
    · rfl
    · rfl
  | failure now stamp =>
    simp only [apply, recordFailure, transitionTo]
    split
    · split_ifs <;> rfl
    · split_ifs <;> rfl
    · rfl

theorem applyAll_config (b : CircuitBreaker) (es : List BreakerEvent) :
    (b.applyAll es).config = b.config := by
  induction es generalizing b with
  | nil => rfl
  | cons e es ih => exact (ih _).trans (apply_config b e)

/-- What the fields say about the moves: the counter that the state reads has counted since the state
was entered, and has not reached its threshold. -/
structure Counted (b : CircuitBreaker) (ms : List BreakerMove) : Prop where
  failures : b.state = .closed →
    b.consecutiveFailures = failureRow ms ∧ failureRow ms < max 1 b.config.failureThreshold
  successes : b.state = .halfOpen →
    b.consecutiveSuccesses = successRow ms ∧ successRow ms < max 1 b.config.successThreshold
  opened : b.state = .opened → ∃ t, openedAt ms = some t ∧ b.lastStateChangeMs = nowMs t

theorem counted_withConfig (config : CircuitBreakerConfig) (created : ℕ) :
    (withConfig config created).Counted [] :=
  ⟨fun _ => ⟨rfl, by simp [failureRow]⟩, nofun, nofun⟩

/-- A count below a `u32` threshold goes up by one without wrapping around, and reaches the threshold
when it completes it. -/
theorem count_step {n threshold : ℕ} (hlt : threshold < 2 ^ 32) (hn : n < max 1 threshold) :
    asU32 (n + 1) = n + 1 ∧ (threshold ≤ n + 1 ↔ n + 1 = max 1 threshold) := by
  have hmod : n + 1 < 2 ^ 32 := by omega
  exact ⟨Nat.mod_eq_of_lt hmod, by omega⟩

theorem Counted.query (h : b.Counted ms) :
    Lawful b.config ms ⟨.query now stamp, b.state, (b.apply (.query now stamp)).state⟩ ∧
      (b.apply (.query now stamp)).Counted
        (ms ++ [⟨.query now stamp, b.state, (b.apply (.query now stamp)).state⟩]) := by
  by_cases hc : b.state = .opened ∧
      asMillis b.config.timeoutDuration ≤ nowMs now - b.lastStateChangeMs
  · obtain ⟨hs, htime⟩ := hc
    obtain ⟨t, hopened, hlast⟩ := h.opened hs
    have happly : b.apply (.query now stamp) = { b with
        state := .halfOpen
        lastStateChangeMs := nowMs stamp
        consecutiveFailures := 0
        consecutiveSuccesses := 0 } := by
      simp [apply, checkAndUpdateStateReturning, hs, htime]
    rw [happly, hs]
    refine ⟨⟨nofun, nofun, fun _ => ⟨fun _ => ⟨now, stamp, t, rfl, hopened, hlast ▸ htime⟩,
      fun _ => rfl⟩, nofun, nofun, nofun⟩, nofun, fun _ => ?_, nofun⟩
    have hrow : successRow (ms ++ [⟨.query now stamp, .opened, .halfOpen⟩]) = 0 := by
      rw [successRow_append, if_pos ⟨nofun, rfl⟩]
    exact ⟨hrow.symm, by rw [hrow]; simp⟩
  · have happly : b.apply (.query now stamp) = b := by
      simp only [apply, checkAndUpdateStateReturning]
      split_ifs with hs htime
      · exact absurd ⟨hs, htime⟩ hc
      · rfl
      · rfl
    rw [happly]
    refine ⟨⟨fun (hs : b.state = .closed) => ?_, fun (hs : b.state = .closed) => hs.trans_ne nofun,
      fun (hs : b.state = .opened) => ?_, fun (hs : b.state = .opened) => hs.trans_ne nofun,
      fun (hs : b.state = .halfOpen) => ?_, fun (hs : b.state = .halfOpen) => ?_⟩,
      fun hs => ?_, fun hs => ?_, fun hs => ?_⟩
    · simp [hs, BreakerEvent.IsFailure]
    · refine ⟨fun hs' => absurd (hs.symm.trans hs') nofun, ?_⟩
      rintro ⟨now', stamp', t, heq, hopened, htime⟩
      cases heq
      obtain ⟨t', hopened', hlast⟩ := h.opened hs
      rw [hopened] at hopened'
      cases hopened'
      exact absurd ⟨hs, hlast ▸ htime⟩ hc
    · simp [hs, BreakerEvent.IsSuccess]
    · simp [hs, BreakerEvent.IsFailure]
    · rw [failureRow_append, if_neg fun he => he.1 hs]
      exact h.failures hs
    · rw [successRow_append, if_neg fun he => he.1 hs]
      exact h.successes hs
    · rw [openedAt_append, if_neg fun he => he.1 hs]
      exact h.opened hs

theorem counted_of_closed (hs : b.state = .closed) (hcount : b.consecutiveFailures = failureRow ms)
    (hlt : failureRow ms < max 1 b.config.failureThreshold) : b.Counted ms :=
  ⟨fun _ => ⟨hcount, hlt⟩, fun h => absurd (hs.symm.trans h) nofun, fun h => absurd (hs.symm.trans h) nofun⟩

theorem counted_of_halfOpen (hs : b.state = .halfOpen) (hcount : b.consecutiveSuccesses = successRow ms)
    (hlt : successRow ms < max 1 b.config.successThreshold) : b.Counted ms :=
  ⟨fun h => absurd (hs.symm.trans h) nofun, fun _ => ⟨hcount, hlt⟩, fun h => absurd (hs.symm.trans h) nofun⟩

theorem counted_of_opened {t : ℕ} (hs : b.state = .opened) (hopened : openedAt ms = some t)
    (hlast : b.lastStateChangeMs = nowMs t) : b.Counted ms :=
  ⟨fun h => absurd (hs.symm.trans h) nofun, fun h => absurd (hs.symm.trans h) nofun,
    fun _ => ⟨t, hopened, hlast⟩⟩

/-- An open circuit that stays open, and is not queried, is as open as before. -/
theorem Counted.stays_opened (h : b.Counted ms) {e : BreakerEvent} (hs : b.state = .opened)
    (hstate : (b.apply e).state = .opened) (hlast : (b.apply e).lastStateChangeMs = b.lastStateChangeMs)
    (he : ∀ now stamp, e ≠ .query now stamp) :
    Lawful b.config ms ⟨e, .opened, .opened⟩ ∧ (b.apply e).Counted (ms ++ [⟨e, .opened, .opened⟩]) := by
  obtain ⟨t, hopened, hb⟩ := h.opened hs
  refine ⟨⟨nofun, nofun, fun _ => ⟨nofun, ?_⟩, nofun, nofun, nofun⟩,
    counted_of_opened hstate ?_ (hlast.trans hb)⟩
  · rintro ⟨now, stamp, t, heq, -⟩
    exact absurd heq (he now stamp)
  · rw [openedAt_append, if_neg fun he => he.1 rfl, hopened]

theorem Counted.success (h : b.Counted ms) :
    Lawful b.config ms ⟨.success stamp, b.state, (b.apply (.success stamp)).state⟩ ∧
      (b.apply (.success stamp)).Counted
        (ms ++ [⟨.success stamp, b.state, (b.apply (.success stamp)).state⟩]) := by
  cases hs : b.state with
  | closed =>
    have hstate : (b.apply (.success stamp)).state = .closed := by
      simp [apply, recordSuccess, hs]
    have hfail : (b.apply (.success stamp)).consecutiveFailures = 0 := by
      simp [apply, recordSuccess, hs]
    have hrow : failureRow (ms ++ [⟨.success stamp, .closed, .closed⟩]) = 0 := by
      rw [failureRow_append, if_neg fun he => he.1 rfl]
    rw [hstate]
    exact ⟨⟨fun _ => by simp [BreakerEvent.IsFailure], nofun, nofun, nofun, nofun, nofun⟩,
      counted_of_closed hstate (hfail.trans hrow.symm) (by simp [hrow])⟩
  | opened =>
    have hstate : (b.apply (.success stamp)).state = .opened := by
      simp [apply, recordSuccess, hs]
    rw [hstate]
    exact h.stays_opened hs hstate (by simp [apply, recordSuccess, hs]) nofun
  | halfOpen =>
    obtain ⟨hcount, hlt⟩ := h.successes hs
    obtain ⟨hmod, hreach⟩ := count_step b.config.successThreshold_lt hlt
    have hnot : ¬ BreakerEvent.IsFailure (.success stamp) := by simp [BreakerEvent.IsFailure]
    by_cases hge : b.config.successThreshold ≤ successRow ms + 1
    · have hstate : (b.apply (.success stamp)).state = .closed := by
        simp [apply, recordSuccess, transitionTo, hs, hcount, hmod, hge]
      have hfail : (b.apply (.success stamp)).consecutiveFailures = 0 := by
        simp [apply, recordSuccess, transitionTo, hs, hcount, hmod, hge]
      have hrow : failureRow (ms ++ [⟨.success stamp, .halfOpen, .closed⟩]) = 0 := by
        rw [failureRow_append, if_pos ⟨nofun, rfl⟩]
      rw [hstate]
      exact ⟨⟨nofun, nofun, nofun, nofun, fun _ => ⟨fun _ => ⟨⟨stamp, rfl⟩, hreach.mp hge⟩, fun _ => rfl⟩,
        fun _ => ⟨nofun, fun he => absurd he hnot⟩⟩,
        counted_of_closed hstate (hfail.trans hrow.symm) (by simp [hrow])⟩
    · have hstate : (b.apply (.success stamp)).state = .halfOpen := by
        simp [apply, recordSuccess, hs, hcount, hmod, hge]
      have hsucc : (b.apply (.success stamp)).consecutiveSuccesses = successRow ms + 1 := by
        simp [apply, recordSuccess, hs, hcount, hmod, hge]
      have hrow : successRow (ms ++ [⟨.success stamp, .halfOpen, .halfOpen⟩]) = successRow ms + 1 := by
        rw [successRow_append, if_neg fun he => he.1 rfl]
      rw [hstate]
      refine ⟨⟨nofun, nofun, nofun, nofun, fun _ => ⟨nofun, fun hc => absurd (hreach.mpr hc.2) hge⟩,
        fun _ => ⟨nofun, fun he => absurd he hnot⟩⟩, counted_of_halfOpen hstate (hsucc.trans hrow.symm) ?_⟩
      rw [apply_config]
      omega

theorem Counted.failure (h : b.Counted ms) :
    Lawful b.config ms ⟨.failure now stamp, b.state, (b.apply (.failure now stamp)).state⟩ ∧
      (b.apply (.failure now stamp)).Counted
        (ms ++ [⟨.failure now stamp, b.state, (b.apply (.failure now stamp)).state⟩]) := by
  -- wherever the circuit opens, the stamp is the time at which it does
  have hopens : ∀ s, s ≠ .opened →
      openedAt (ms ++ [⟨.failure now stamp, s, .opened⟩]) = some stamp := by
    intro s hne
    rw [openedAt_append, if_pos ⟨hne, rfl⟩]
    rfl
  cases hs : b.state with
  | closed =>
    obtain ⟨hcount, hlt⟩ := h.failures hs
    obtain ⟨hmod, hreach⟩ := count_step b.config.failureThreshold_lt hlt
    by_cases hge : b.config.failureThreshold ≤ failureRow ms + 1
    · have hstate : (b.apply (.failure now stamp)).state = .opened := by
        simp [apply, recordFailure, transitionTo, hs, hcount, hmod, hge]
      have hlast : (b.apply (.failure now stamp)).lastStateChangeMs = nowMs stamp := by
        simp [apply, recordFailure, transitionTo, hs, hcount, hmod, hge]
      rw [hstate]
      exact ⟨⟨fun _ => ⟨fun _ => ⟨⟨now, stamp, rfl⟩, hreach.mp hge⟩, fun _ => rfl⟩,
        nofun, nofun, nofun, nofun, nofun⟩, counted_of_opened hstate (hopens _ nofun) hlast⟩
    · have hstate : (b.apply (.failure now stamp)).state = .closed := by
        simp [apply, recordFailure, hs, hcount, hmod, hge]
      have hfail : (b.apply (.failure now stamp)).consecutiveFailures = failureRow ms + 1 := by
        simp [apply, recordFailure, hs, hcount, hmod, hge]
      have hrow : failureRow (ms ++ [⟨.failure now stamp, .closed, .closed⟩]) = failureRow ms + 1 := by
        rw [failureRow_append, if_neg fun he => he.1 rfl]
      rw [hstate]
      refine ⟨⟨fun _ => ⟨nofun, fun hc => absurd (hreach.mpr hc.2) hge⟩,
        nofun, nofun, nofun, nofun, nofun⟩, counted_of_closed hstate (hfail.trans hrow.symm) ?_⟩
      rw [apply_config]
      omega
  | opened =>
    have hstate : (b.apply (.failure now stamp)).state = .opened := by
      simp [apply, recordFailure, hs]
    rw [hstate]
    exact h.stays_opened hs hstate (by simp [apply, recordFailure, hs]) nofun
  | halfOpen =>
    have hstate : (b.apply (.failure now stamp)).state = .opened := by
      simp [apply, recordFailure, transitionTo, hs]
    have hlast : (b.apply (.failure now stamp)).lastStateChangeMs = nowMs stamp := by
      simp [apply, recordFailure, transitionTo, hs]
    rw [hstate]
    exact ⟨⟨nofun, nofun, nofun, nofun, fun _ => by simp [BreakerEvent.IsSuccess],
      fun _ => ⟨fun _ => ⟨now, stamp, rfl⟩, fun _ => rfl⟩⟩,
      counted_of_opened hstate (hopens _ nofun) hlast⟩

/-! ## 5. Histories -/

/-- **Every event is lawful**, and keeps the counts. -/
theorem Counted.move (h : b.Counted ms) (e : BreakerEvent) :
    Lawful b.config ms ⟨e, b.state, (b.apply e).state⟩ ∧
      (b.apply e).Counted (ms ++ [⟨e, b.state, (b.apply e).state⟩]) := by
  cases e with
  | query now stamp => exact h.query
  | success stamp => exact h.success
  | failure now stamp => exact h.failure

theorem counted_applyAll (config : CircuitBreakerConfig) (created : ℕ) (es : List BreakerEvent) :
    ((withConfig config created).applyAll es).Counted ((withConfig config created).moves es) := by
  induction es using List.reverseRecOn with
  | nil => exact counted_withConfig config created
  | append_singleton es e ih =>
    rw [applyAll_append, moves_append]
    exact (ih.move e).2

end CircuitBreaker

/-- The readings of one call in the order of the clock. -/
def ClockReadings.all (r : ClockReadings) : List ℕ :=
  [r.checked, r.checkStamp, r.recorded, r.recordStamp]

/-- The calls on a breaker from its creation on, one after the other. -/
structure BreakerHistory where
  created : ℕ
  calls : List (BreakerCall × ClockReadings)
  sorted : (calls.flatMap fun c => c.2.all).Pairwise (· ≤ ·)

namespace CircuitBreaker

open BreakerMove

variable {b : CircuitBreaker}

theorem map_event_moves (b : CircuitBreaker) (es : List BreakerEvent) :
    (b.moves es).map (·.event) = es := by
  induction es generalizing b with
  | nil => rfl
  | cons e es ih => exact congrArg _ (ih _)

/-- The events of a call read the clock as the call does. -/
theorem readings_events (b : CircuitBreaker) (c : BreakerCall) (r : ClockReadings) :
    ((b.events c r).flatMap BreakerEvent.readings).Sublist r.all := by
  have hquery : [r.checked, r.checkStamp].Sublist r.all :=
    ((nil_sublist _).cons_cons _).cons_cons _
  have hfailure : [r.recorded, r.recordStamp].Sublist r.all :=
    ((List.Sublist.refl _).cons _).cons _
  have hsuccess : [r.recordStamp].Sublist r.all := (sublist_cons_self _ _).trans hfailure
  cases c with
  | canExecute => exact hquery
  | state => exact hquery
  | recordSuccess => exact hsuccess
  | recordFailure => exact hfailure
  | recordTestSuccess =>
    simp only [events]
    split
    · exact ((sublist_cons_self _ _).cons_cons _).cons_cons _
    · exact hquery
  | recordTestFailure =>
    simp only [events]
    split
    · exact List.Sublist.refl _
    · exact hquery

theorem readings_eventsOf (b : CircuitBreaker) (calls : List (BreakerCall × ClockReadings)) :
    ((b.eventsOf calls).flatMap BreakerEvent.readings).Sublist
      (calls.flatMap fun c => c.2.all) := by
  induction calls generalizing b with
  | nil => exact List.Sublist.refl _
  | cons c calls ih =>
    rw [eventsOf, flatMap_append]
    exact (readings_events b c.1 c.2).append (ih _)

theorem openedAt_le {fs gs : List BreakerEvent} {now stamp opened : ℕ}
    (hsorted : ((fs ++ .query now stamp :: gs).flatMap BreakerEvent.readings).Pairwise (· ≤ ·))
    (h : openedAt (b.moves fs) = some opened) : opened ≤ now := by
  obtain ⟨m, hm, rfl⟩ := exists_of_openedAt h
  have hevent : m.event ∈ fs := map_event_moves b fs ▸ mem_map_of_mem hm
  rw [flatMap_append] at hsorted
  refine (pairwise_append.mp hsorted).2.2 _ ?_ now (by simp [BreakerEvent.readings])
  exact mem_flatMap.mpr ⟨_, hevent, m.event.stamp_mem_readings⟩

/-- The clock of whole milliseconds is less than one of them ahead. -/
theorem lt_of_asMillis_le {timeout now opened : ℕ} (hfits : timeout / 10 ^ 6 < 2 ^ 64)
    (hle : opened ≤ now) (h : asMillis timeout ≤ nowMs now - nowMs opened) :
    timeout / 10 ^ 6 * 10 ^ 6 < now - opened + 10 ^ 6 := by
  simp only [nowMs, asMillis, asU64, Nat.mod_eq_of_lt hfits] at h
  omega

/-- **The circuit breaker moves as it should** in every history: each move is lawful after the moves
before it, and the circuit is tested less than a millisecond before the whole milliseconds of its timeout
are over. -/
theorem breaker_lawful (config : CircuitBreakerConfig) (h : BreakerHistory)
    {pre post : List BreakerMove} {m : BreakerMove}
    (heq : (withConfig config h.created).moves ((withConfig config h.created).eventsOf h.calls) =
      pre ++ m :: post) :
    Lawful config pre m ∧
      ∀ now stamp opened, m.event = .query now stamp → m.before = .opened → m.after = .halfOpen →
        openedAt pre = some opened → config.timeoutDuration / 10 ^ 6 < 2 ^ 64 →
          config.timeoutDuration / 10 ^ 6 * 10 ^ 6 < now - opened + 10 ^ 6 := by
  obtain ⟨fs, gs, hes, rfl, hbefore, hafter⟩ := exists_of_moves_eq heq
  have hmove := ((counted_applyAll config h.created fs).move m.event).1
  rw [applyAll_config, ← hbefore, ← hafter] at hmove
  refine ⟨hmove, fun now stamp opened hevent hb ha hopened hfits => ?_⟩
  obtain ⟨now', stamp', opened', hevent', hopened', htime⟩ := (hmove.opened_tests hb).mp ha
  rw [hevent] at hevent'
  cases hevent'
  rw [hopened] at hopened'
  cases hopened'
  have hsorted := h.sorted.sublist (readings_eventsOf (withConfig config h.created) h.calls)
  rw [hes, hevent] at hsorted
  exact lt_of_asMillis_le hfits (openedAt_le hsorted hopened) htime

/-! ## 6. A history -/

/-- All readings of a call at one time. -/
def readingsAt (now : ℕ) : ClockReadings := ⟨now, now, now, now, by simp⟩

/-- One failure opens the circuit, one success closes it, and the timeout is a second. -/
def smallConfig : CircuitBreakerConfig := ⟨1, 1, 10 ^ 9, by decide, by decide⟩

/-- A failure just before the first millisecond is over, a query at one second, and a success. -/
def smallBreakerHistory : BreakerHistory where
  created := 0
  calls := [(.recordFailure, readingsAt 999000), (.state, readingsAt (10 ^ 9)),
    (.recordSuccess, readingsAt (10 ^ 9))]
  sorted := by decide

theorem moves_small :
    (withConfig smallConfig 0).moves
        ((withConfig smallConfig 0).eventsOf smallBreakerHistory.calls) =
      [⟨.failure 999000 999000, .closed, .opened⟩] ++
        ⟨.query (10 ^ 9) (10 ^ 9), .opened, .halfOpen⟩ ::
          [⟨.success (10 ^ 9), .halfOpen, .closed⟩] := by
  decide +kernel

theorem breaker_lawful_small :
    Lawful smallConfig [⟨.failure 999000 999000, .closed, .opened⟩]
      ⟨.query (10 ^ 9) (10 ^ 9), .opened, .halfOpen⟩ ∧
    10 ^ 9 / 10 ^ 6 * 10 ^ 6 < 10 ^ 9 - 999000 + 10 ^ 6 :=
  have hlawful := breaker_lawful smallConfig smallBreakerHistory moves_small
  ⟨hlawful.1, hlawful.2 _ _ _ rfl rfl rfl rfl (by decide)⟩

/-- **The circuit is tested before its timeout is over**: the millisecond in which it opened counts in
full. -/
theorem tested_before_timeout :
    ∃ (config : CircuitBreakerConfig) (h : BreakerHistory) (pre post : List BreakerMove)
      (now stamp opened : ℕ),
      (withConfig config h.created).moves ((withConfig config h.created).eventsOf h.calls) =
          pre ++ ⟨.query now stamp, .opened, .halfOpen⟩ :: post ∧
        openedAt pre = some opened ∧ now < opened + config.timeoutDuration :=
  ⟨smallConfig, smallBreakerHistory, _, _, _, _, 999000, moves_small, rfl, by decide⟩

end CircuitBreaker

end Sglang
