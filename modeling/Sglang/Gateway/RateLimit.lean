/-
# The rate that the token bucket lets through

`TokenBucket` (`token_bucket.rs`) with its clock: every use but a return first adds the tokens of the
time since `last_refill`, up to the capacity.  A return neither refills nor moves `last_refill`, so the
first refill of an interval may still count time from before it; it is cut at the capacity, and that is
why the capacity bounds whatever was saved up (`acquired_window_le`).
-/
import Sglang.Gateway.TokenBucket

namespace Sglang

open List

/-! ## 1. The bucket and its clock -/

/-- `TokenBucketInner` with its `last_refill`. -/
structure ClockedBucket (K : Type) where
  bucket : TokenBucket K
  lastRefill : K
deriving DecidableEq

/-- A call that the bucket serves under its lock. -/
inductive BucketCall (K : Type) where
  | tryAcquire (tokens : K)
  | returnTokensSync (tokens : K)
  | availableTokens
deriving DecidableEq

/-- A call with the reading of the clock. -/
structure BucketUse (K : Type) where
  call : BucketCall K
  now : K
deriving DecidableEq

/-- What a call did to the tokens outside. -/
structure BucketEntry (K : Type) where
  now : K
  acquired : K
  returned : K
deriving DecidableEq

namespace BucketCall

variable {K : Type} [Zero K]

/-- The tokens that a call names. -/
def amount : BucketCall K → K
  | .tryAcquire tokens => tokens
  | .returnTokensSync tokens => tokens
  | .availableTokens => 0

end BucketCall

namespace ClockedBucket

variable {K : Type} [Field K] [LinearOrder K]

/-- `new`, from the `usize` arguments. -/
def new (capacity refillRate : ℕ) (now : K) : ClockedBucket K :=
  ⟨TokenBucket.new capacity refillRate, now⟩

/-- One call under the lock. -/
def use (b : ClockedBucket K) (u : BucketUse K) : ClockedBucket K :=
  match u.call with
  | .tryAcquire tokens => ⟨(b.bucket.tryAcquireSync (u.now - b.lastRefill) tokens).2, u.now⟩
  | .returnTokensSync tokens => { b with bucket := b.bucket.returnTokens tokens }
  | .availableTokens => ⟨b.bucket.refill (u.now - b.lastRefill), u.now⟩

/-- What the call took out of the bucket and what it brought. -/
def entry (b : ClockedBucket K) (u : BucketUse K) : BucketEntry K :=
  match u.call with
  | .tryAcquire tokens =>
    ⟨u.now, if (b.bucket.tryAcquireSync (u.now - b.lastRefill) tokens).1 then tokens else 0, 0⟩
  | .returnTokensSync tokens => ⟨u.now, 0, tokens⟩
  | .availableTokens => ⟨u.now, 0, 0⟩

/-- The bucket after a list of calls. -/
def run (b : ClockedBucket K) (us : List (BucketUse K)) : ClockedBucket K := us.foldl use b

/-- The entries of a list of calls. -/
def log (b : ClockedBucket K) : List (BucketUse K) → List (BucketEntry K)
  | [] => []
  | u :: us => b.entry u :: (b.use u).log us

end ClockedBucket

namespace BucketEntry

section Totals

variable {K : Type} [AddCommMonoid K]

/-- All tokens acquired in a log. -/
def totalAcquired (es : List (BucketEntry K)) : K := (es.map (·.acquired)).sum

/-- All tokens returned in a log. -/
def totalReturned (es : List (BucketEntry K)) : K := (es.map (·.returned)).sum

@[simp] theorem totalAcquired_nil : totalAcquired ([] : List (BucketEntry K)) = 0 := rfl

@[simp] theorem totalReturned_nil : totalReturned ([] : List (BucketEntry K)) = 0 := rfl

@[simp] theorem totalAcquired_cons (e : BucketEntry K) (es : List (BucketEntry K)) :
    totalAcquired (e :: es) = e.acquired + totalAcquired es := by
  simp [totalAcquired]

@[simp] theorem totalReturned_cons (e : BucketEntry K) (es : List (BucketEntry K)) :
    totalReturned (e :: es) = e.returned + totalReturned es := by
  simp [totalReturned]

end Totals

section Windows

variable {K : Type} [LinearOrder K] {start stop : K} {e : BucketEntry K}

/-- The entries from `start` to `stop`, both included. -/
def window (start stop : K) (es : List (BucketEntry K)) : List (BucketEntry K) :=
  es.filter fun e => start ≤ e.now ∧ e.now ≤ stop

@[simp] theorem window_nil (start stop : K) : window start stop [] = [] := rfl

theorem window_cons_of_mem (h : start ≤ e.now ∧ e.now ≤ stop) (es : List (BucketEntry K)) :
    window start stop (e :: es) = e :: window start stop es := by
  simp [window, h]

theorem window_cons_of_notMem (h : ¬ (start ≤ e.now ∧ e.now ≤ stop)) (es : List (BucketEntry K)) :
    window start stop (e :: es) = window start stop es := by
  simp [window, h]

theorem window_eq_nil {es : List (BucketEntry K)} (h : ∀ e ∈ es, stop < e.now) :
    window start stop es = [] := by
  refine filter_eq_nil_iff.mpr fun e he => ?_
  simp [(h e he).not_ge]

end Windows

end BucketEntry

/-- A list of calls with amounts that are not negative, at times that do not go back and start no
earlier than the bucket. -/
structure BucketHistory (K : Type) [Field K] [LinearOrder K] where
  created : K
  uses : List (BucketUse K)
  sorted : (created :: uses.map (·.now)).Pairwise (· ≤ ·)
  nonneg : ∀ u ∈ uses, 0 ≤ u.call.amount

namespace ClockedBucket

open BucketEntry

variable {K : Type} [Field K] [LinearOrder K] {b : ClockedBucket K} {u : BucketUse K}
  {us : List (BucketUse K)}

@[simp] theorem run_nil (b : ClockedBucket K) : b.run [] = b := rfl

@[simp] theorem run_cons (b : ClockedBucket K) (u : BucketUse K) (us : List (BucketUse K)) :
    b.run (u :: us) = (b.use u).run us := rfl

@[simp] theorem log_nil (b : ClockedBucket K) : b.log [] = [] := rfl

@[simp] theorem log_cons (b : ClockedBucket K) (u : BucketUse K) (us : List (BucketUse K)) :
    b.log (u :: us) = b.entry u :: (b.use u).log us := rfl

@[simp] theorem entry_now (b : ClockedBucket K) (u : BucketUse K) : (b.entry u).now = u.now := by
  unfold entry
  split <;> rfl

/-! ## 2. One call -/

/-- What holds of the bucket between two calls: `tokens` is within the capacity. -/
structure Level (b : ClockedBucket K) : Prop where
  nonneg : 0 ≤ b.bucket.tokens
  le : b.bucket.tokens ≤ b.bucket.capacity
  rate : 0 ≤ b.bucket.refillRate

@[simp] theorem use_capacity (b : ClockedBucket K) (u : BucketUse K) :
    (b.use u).bucket.capacity = b.bucket.capacity := by
  unfold use
  split
  · simp only [TokenBucket.tryAcquireSync]
    split <;> rfl
  · rfl
  · rfl

@[simp] theorem use_refillRate (b : ClockedBucket K) (u : BucketUse K) :
    (b.use u).bucket.refillRate = b.bucket.refillRate := by
  unfold use
  split
  · simp only [TokenBucket.tryAcquireSync]
    split <;> rfl
  · rfl
  · rfl

/-- What a call that is no return does: it refills, and then takes out what it acquires. -/
theorem use_refills (b : ClockedBucket K) (h : ∀ r, u.call ≠ .returnTokensSync r) :
    (b.use u).lastRefill = u.now ∧ (b.entry u).returned = 0 ∧
      (b.use u).bucket.tokens + (b.entry u).acquired =
        min (b.bucket.tokens + (u.now - b.lastRefill) * b.bucket.refillRate) b.bucket.capacity := by
  obtain ⟨call, now⟩ := u
  cases call with
  | tryAcquire tokens =>
    refine ⟨rfl, rfl, ?_⟩
    simp only [use, entry, TokenBucket.tryAcquireSync]
    split
    · simp [TokenBucket.refill]
    · simp [TokenBucket.refill]
  | returnTokensSync r => exact absurd rfl (h r)
  | availableTokens => exact ⟨rfl, rfl, by simp [use, entry, TokenBucket.refill]⟩

theorem use_return (b : ClockedBucket K) {r : K} (h : u.call = .returnTokensSync r) :
    (b.use u).lastRefill = b.lastRefill ∧ (b.entry u).returned = r ∧ (b.entry u).acquired = 0 ∧
      (b.use u).bucket.tokens = min (b.bucket.tokens + r) b.bucket.capacity := by
  obtain ⟨call, now⟩ := u
  subst h
  exact ⟨rfl, rfl, rfl, rfl⟩

section Ordered

variable [IsStrictOrderedRing K]

omit [IsStrictOrderedRing K] in
theorem acquired_nonneg (b : ClockedBucket K) (hu : 0 ≤ u.call.amount) :
    0 ≤ (b.entry u).acquired := by
  obtain ⟨call, now⟩ := u
  cases call with
  | tryAcquire tokens =>
    simp only [entry]
    split
    · exact hu
    · exact le_rfl
  | returnTokensSync r => exact le_rfl
  | availableTokens => exact le_rfl

theorem Level.use (h : b.Level) (hnow : b.lastRefill ≤ u.now) (hu : 0 ≤ u.call.amount) :
    (b.use u).Level := by
  refine ⟨?_, ?_, by simpa using h.rate⟩
  · obtain ⟨call, now⟩ := u
    have hgain : 0 ≤ (now - b.lastRefill) * b.bucket.refillRate :=
      mul_nonneg (sub_nonneg.mpr hnow) h.rate
    have hfill : 0 ≤ (b.bucket.refill (now - b.lastRefill)).tokens :=
      le_min (add_nonneg h.nonneg hgain) (h.nonneg.trans h.le)
    cases call with
    | tryAcquire tokens =>
      simp only [ClockedBucket.use, TokenBucket.tryAcquireSync]
      split
      · rename_i hle
        exact sub_nonneg.mpr hle
      · exact hfill
    | returnTokensSync r => exact le_min (add_nonneg h.nonneg hu) (h.nonneg.trans h.le)
    | availableTokens => exact hfill
  · rw [use_capacity]
    by_cases hr : ∃ r, u.call = .returnTokensSync r
    · obtain ⟨r, hr⟩ := hr
      rw [(use_return b hr).2.2.2]
      exact min_le_right _ _
    · have heq := (use_refills b (u := u) fun r h => hr ⟨r, h⟩).2.2
      have hacq := acquired_nonneg b hu
      have hmin := min_le_right
        (b.bucket.tokens + (u.now - b.lastRefill) * b.bucket.refillRate) b.bucket.capacity
      linarith

omit [IsStrictOrderedRing K] in
theorem lastRefill_use_le (b : ClockedBucket K) (hnow : b.lastRefill ≤ u.now) :
    (b.use u).lastRefill ≤ u.now := by
  by_cases hr : ∃ r, u.call = .returnTokensSync r
  · obtain ⟨r, hr⟩ := hr
    rw [(use_return b hr).1]
    exact hnow
  · exact (use_refills b fun r h => hr ⟨r, h⟩).1.le

/-! ## 3. Runs -/

/-- The calls come after the last refill and in the order of their times, with amounts that are not
negative. -/
structure Serves (b : ClockedBucket K) (us : List (BucketUse K)) : Prop where
  sorted : (b.lastRefill :: us.map (·.now)).Pairwise (· ≤ ·)
  nonneg : ∀ u ∈ us, 0 ≤ u.call.amount

namespace Serves

omit [IsStrictOrderedRing K]

theorem now_le (h : b.Serves (u :: us)) : b.lastRefill ≤ u.now :=
  (pairwise_cons.mp h.sorted).1 _ (by simp)

theorem amount_nonneg (h : b.Serves (u :: us)) : 0 ≤ u.call.amount := h.nonneg u (by simp)

theorem tail (h : b.Serves (u :: us)) : (b.use u).Serves us := by
  have hsorted : (u.now :: us.map (·.now)).Pairwise (· ≤ ·) := (pairwise_cons.mp h.sorted).2
  refine ⟨pairwise_cons.mpr ⟨fun t ht => ?_, (pairwise_cons.mp hsorted).2⟩,
    fun v hv => h.nonneg v (mem_cons_of_mem _ hv)⟩
  exact (lastRefill_use_le b h.now_le).trans ((pairwise_cons.mp hsorted).1 t ht)

theorem head_le (h : b.Serves (u :: us)) {v : BucketUse K} (hv : v ∈ us) : u.now ≤ v.now :=
  (pairwise_cons.mp (pairwise_cons.mp h.sorted).2).1 _ (mem_map_of_mem hv)

theorem of_append {vs : List (BucketUse K)} (h : b.Serves (us ++ vs)) : b.Serves us := by
  refine ⟨h.sorted.sublist ?_, fun v hv => h.nonneg v (mem_append_left _ hv)⟩
  rw [map_append]
  exact (sublist_append_left _ _).cons_cons _

end Serves

omit [IsStrictOrderedRing K] in
@[simp] theorem run_capacity (b : ClockedBucket K) (us : List (BucketUse K)) :
    (b.run us).bucket.capacity = b.bucket.capacity := by
  induction us generalizing b with
  | nil => rfl
  | cons u us ih => rw [run_cons, ih, use_capacity]

omit [IsStrictOrderedRing K] in
theorem exists_of_mem_log {e : BucketEntry K} (he : e ∈ b.log us) : ∃ u ∈ us, e.now = u.now := by
  induction us generalizing b with
  | nil => exact absurd he (not_mem_nil)
  | cons u us ih =>
    rw [log_cons, mem_cons] at he
    rcases he with rfl | he
    · exact ⟨u, by simp, entry_now b u⟩
    · obtain ⟨v, hv, heq⟩ := ih he
      exact ⟨v, mem_cons_of_mem _ hv, heq⟩

omit [IsStrictOrderedRing K] in
theorem window_log_eq_nil {start stop : K} (h : b.Serves (u :: us)) (hstop : stop < u.now) :
    window start stop (b.log (u :: us)) = [] := by
  refine window_eq_nil fun e he => ?_
  obtain ⟨v, hv, heq⟩ := exists_of_mem_log he
  rw [heq]
  rcases mem_cons.mp hv with rfl | hv
  · exact hstop
  · exact hstop.trans_le (h.head_le hv)

theorem Level.run (hl : b.Level) (h : b.Serves us) : (b.run us).Level := by
  induction us generalizing b with
  | nil => exact hl
  | cons u us ih => exact ih (hl.use h.now_le h.amount_nonneg) h.tail

/-- From a refill within the interval on: what is acquired comes out of the tokens that are there, out
of the refills up to the end of the interval, and out of what is returned. -/
theorem acquired_after_le (start stop : K) (hl : b.Level) (h : b.Serves us)
    (hstart : start ≤ b.lastRefill) (hstop : b.lastRefill ≤ stop) :
    totalAcquired (window start stop (b.log us)) ≤
      b.bucket.tokens + b.bucket.refillRate * (stop - b.lastRefill) +
        totalReturned (window start stop (b.log us)) := by
  induction us generalizing b with
  | nil =>
    have hgain := mul_nonneg hl.rate (sub_nonneg.mpr hstop)
    simpa using add_nonneg hl.nonneg hgain
  | cons u us ih =>
    have hl' := hl.use h.now_le h.amount_nonneg
    by_cases hin : u.now ≤ stop
    · have hmem : start ≤ (b.entry u).now ∧ (b.entry u).now ≤ stop := by
        rw [entry_now]
        exact ⟨hstart.trans h.now_le, hin⟩
      rw [log_cons, window_cons_of_mem hmem, totalAcquired_cons, totalReturned_cons]
      by_cases hr : ∃ r, u.call = .returnTokensSync r
      · obtain ⟨r, hr⟩ := hr
        obtain ⟨hlast, hret, hacq, htok⟩ := use_return b hr
        have hrest := ih hl' h.tail (hlast.symm ▸ hstart) (hlast.symm ▸ hstop)
        have hmin := min_le_left (b.bucket.tokens + r) b.bucket.capacity
        rw [hlast, use_refillRate] at hrest
        linarith
      · obtain ⟨hlast, hret, htok⟩ := use_refills b (u := u) fun r h => hr ⟨r, h⟩
        have hrest := ih hl' h.tail (hlast.symm ▸ hmem.1.trans_eq (entry_now b u)) (hlast.symm ▸ hin)
        have hmin := min_le_left
          (b.bucket.tokens + (u.now - b.lastRefill) * b.bucket.refillRate) b.bucket.capacity
        rw [hlast, use_refillRate] at hrest
        linarith
    · rw [window_log_eq_nil h (not_le.mp hin)]
      have hgain := mul_nonneg hl.rate (sub_nonneg.mpr hstop)
      simpa using add_nonneg hl.nonneg hgain

/-- Over any interval: until its first refill only the capacity counts. -/
theorem acquired_window_le {start stop : K} (hl : b.Level) (h : b.Serves us) (hle : start ≤ stop) :
    totalAcquired (window start stop (b.log us)) ≤
      b.bucket.capacity + b.bucket.refillRate * (stop - start) +
        totalReturned (window start stop (b.log us)) := by
  have hgain : 0 ≤ b.bucket.refillRate * (stop - start) := mul_nonneg hl.rate (sub_nonneg.mpr hle)
  induction us generalizing b with
  | nil => simpa using add_nonneg (hl.nonneg.trans hl.le) hgain
  | cons u us ih =>
    have hl' := hl.use h.now_le h.amount_nonneg
    have hrest := ih hl' h.tail (by simpa using hgain)
    rw [use_capacity, use_refillRate] at hrest
    by_cases hlt : stop < u.now
    · rw [window_log_eq_nil h hlt]
      simpa using add_nonneg (hl.nonneg.trans hl.le) hgain
    rw [not_lt] at hlt
    by_cases hge : start ≤ u.now
    · have hmem : start ≤ (b.entry u).now ∧ (b.entry u).now ≤ stop := by
        rw [entry_now]
        exact ⟨hge, hlt⟩
      rw [log_cons, window_cons_of_mem hmem, totalAcquired_cons, totalReturned_cons]
      by_cases hr : ∃ r, u.call = .returnTokensSync r
      · obtain ⟨r, hr⟩ := hr
        obtain ⟨-, hret, hacq, -⟩ := use_return b hr
        have hnn : 0 ≤ r := by
          have hamount := h.amount_nonneg
          rwa [hr] at hamount
        linarith
      · obtain ⟨hlast, hret, htok⟩ := use_refills b (u := u) fun r h => hr ⟨r, h⟩
        have hafter := acquired_after_le start stop hl' h.tail (hlast.symm ▸ hge) (hlast.symm ▸ hlt)
        have hmin := min_le_right
          (b.bucket.tokens + (u.now - b.lastRefill) * b.bucket.refillRate) b.bucket.capacity
        have hpart : b.bucket.refillRate * (stop - u.now) ≤ b.bucket.refillRate * (stop - start) :=
          mul_le_mul_of_nonneg_left (by linarith) hl.rate
        rw [hlast, use_refillRate] at hafter
        linarith
    · rw [log_cons, window_cons_of_notMem fun hm => hge ((entry_now b u) ▸ hm.1)]
      exact hrest

/-! ## 4. A bucket that is not refilled -/

/-- Every return brings back tokens that are out: before it as much was acquired, over and above what
was returned, as it brings. -/
def ReturnsAcquired (b : ClockedBucket K) (us : List (BucketUse K)) : Prop :=
  ∀ vs, vs <+: us → totalReturned (b.log vs) ≤ totalAcquired (b.log vs)

/-- The tokens that are out, `out` of them before the calls, and those in the bucket make up the
capacity. -/
theorem tokens_add_outstanding {out : K} (hl : b.Level) (h : b.Serves us)
    (hrate : b.bucket.refillRate = 0) (hout : b.bucket.tokens + out = b.bucket.capacity)
    (hret : ∀ vs, vs <+: us → totalReturned (b.log vs) ≤ out + totalAcquired (b.log vs)) :
    (b.run us).bucket.tokens + (out + totalAcquired (b.log us) - totalReturned (b.log us)) =
      b.bucket.capacity := by
  induction us generalizing b out with
  | nil => simpa using hout
  | cons u us ih =>
    have hfirst : (b.entry u).returned ≤ out + (b.entry u).acquired := by
      have := hret [u] ⟨us, rfl⟩
      simpa using this
    have hstep : (b.use u).bucket.tokens + (out + (b.entry u).acquired - (b.entry u).returned) =
        b.bucket.capacity := by
      by_cases hr : ∃ r, u.call = .returnTokensSync r
      · obtain ⟨r, hr⟩ := hr
        obtain ⟨-, hre, hacq, htok⟩ := use_return b hr
        -- what comes back was out, so nothing is cut at the capacity
        have hroom : b.bucket.tokens + r ≤ b.bucket.capacity := by
          linarith
        rw [htok, min_eq_left hroom]
        linarith
      · obtain ⟨-, hre, htok⟩ := use_refills b (u := u) fun r h => hr ⟨r, h⟩
        rw [hrate, mul_zero, add_zero, min_eq_left hl.le] at htok
        linarith
    have hrest := ih (hl.use h.now_le h.amount_nonneg) h.tail (by simpa using hrate)
      (by simpa using hstep) fun vs hvs => by
        have := hret (u :: vs) ((prefix_cons_inj u).mpr hvs)
        simp only [log_cons, totalReturned_cons, totalAcquired_cons] at this
        linarith
    simp only [log_cons, totalReturned_cons, totalAcquired_cons, run_cons, use_capacity] at hrest ⊢
    linarith

/-! ## 5. The bound -/

theorem level_new (capacity refillRate : ℕ) (now : K) : (new capacity refillRate now).Level :=
  ⟨Nat.cast_nonneg capacity, le_rfl, Nat.cast_nonneg refillRate⟩

/-- **The rate limit.**  The tokens stay within the capacity, and over any interval no more is acquired
than the capacity, the refill of its length and the returns in it.  Without a refill, and with returns
of acquired tokens only, no more than the capacity is ever out. -/
theorem rate_limit (capacity refillRate : ℕ) (h : BucketHistory K) :
    (∀ us, us <+: h.uses →
      0 ≤ ((new capacity refillRate h.created).run us).bucket.tokens ∧
        ((new capacity refillRate h.created).run us).bucket.tokens ≤ capacity) ∧
    (∀ start stop, start ≤ stop →
      totalAcquired (window start stop ((new capacity refillRate h.created).log h.uses)) ≤
        capacity + refillRate * (stop - start) +
          totalReturned (window start stop ((new capacity refillRate h.created).log h.uses))) ∧
    (refillRate = 0 → (new capacity refillRate h.created).ReturnsAcquired h.uses →
      ∀ us, us <+: h.uses →
        totalAcquired ((new capacity refillRate h.created).log us) -
          totalReturned ((new capacity refillRate h.created).log us) ≤ capacity) := by
  have hl : (new capacity refillRate h.created).Level := level_new capacity refillRate h.created
  have hs : (new capacity refillRate h.created).Serves h.uses := ⟨h.sorted, h.nonneg⟩
  have hfront : ∀ us, us <+: h.uses → (new capacity refillRate h.created).Serves us := by
    rintro us ⟨vs, heq⟩
    exact Serves.of_append (heq.symm ▸ hs)
  refine ⟨fun us hus => ?_, fun start stop hle => acquired_window_le hl hs hle, ?_⟩
  · have hrun := hl.run (hfront us hus)
    have hcap : ((new capacity refillRate h.created).run us).bucket.capacity = capacity :=
      run_capacity _ us
    exact ⟨hrun.nonneg, hcap ▸ hrun.le⟩
  · rintro rfl hret us hus
    have hsum := tokens_add_outstanding hl (hfront us hus) Nat.cast_zero (add_zero _)
      fun vs hvs => by simpa using hret vs (hvs.trans hus)
    have hnn := (hl.run (hfront us hus)).nonneg
    have hcap : (new capacity 0 h.created).bucket.capacity = (capacity : K) := rfl
    linarith

end Ordered

/-- A bucket of one token without refill: it is acquired at once and comes back a second later. -/
def smallHistory : BucketHistory ℚ where
  created := 0
  uses := [⟨.tryAcquire 1, 0⟩, ⟨.returnTokensSync 1, 1⟩, ⟨.tryAcquire 1, 1⟩]
  sorted := by decide
  nonneg := by decide

theorem returnsAcquired_small : (new 1 0 (0 : ℚ)).ReturnsAcquired smallHistory.uses := by
  intro vs hvs
  have hmem : vs ∈ smallHistory.uses.inits := (mem_inits _ _).mpr hvs
  clear hvs
  revert vs
  decide +kernel

theorem rate_limit_small :
    totalAcquired (window 0 1 ((new 1 0 (0 : ℚ)).log smallHistory.uses)) ≤ 1 + 0 * (1 - 0) +
        totalReturned (window 0 1 ((new 1 0 (0 : ℚ)).log smallHistory.uses)) ∧
      totalAcquired ((new 1 0 (0 : ℚ)).log smallHistory.uses) -
        totalReturned ((new 1 0 (0 : ℚ)).log smallHistory.uses) ≤ 1 := by
  have hlimit := rate_limit 1 0 smallHistory
  have hwindow := hlimit.2.1 0 1 zero_le_one
  have hout := hlimit.2.2 rfl returnsAcquired_small smallHistory.uses prefix_rfl
  exact ⟨by exact_mod_cast hwindow, by exact_mod_cast hout⟩

end ClockedBucket

end Sglang
