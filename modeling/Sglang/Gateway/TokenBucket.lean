/-
# The token bucket of the gateway

A transcription of `TokenBucket` (`token_bucket.rs`) for `refill_rate = 0`, where tokens come back only
by `return_tokens_sync` and callers of `acquire` wait for a signal.  The bucket is shared by any number
of callers of both kinds, and a schedule interleaves their steps:

* an `acquire` tries; when it fails it creates a `notified` future and awaits it; when that is signalled
  it tries again;
* a `return_tokens_sync` adds its tokens under the lock, releases the lock and calls `notify_waiters`,
  which signals the futures that exist at that moment and stores nothing for later ones.

The check of the bucket and the creation of the future are two steps.  A return that falls between them
signals nobody, and the caller goes to sleep on tokens that are there (`waiter_sleeps_on_tokens`).
Without such a return no caller does (`waiter_lacks_tokens_of_clear`).
-/
import Mathlib.Tactic

namespace Sglang

open Function Option

/-! ## 1. The bucket -/

/-- `TokenBucketInner` with the fields of `TokenBucket` that it is used with. -/
structure TokenBucket (K : Type) where
  tokens : K
  capacity : K
  refillRate : K
deriving DecidableEq

namespace TokenBucket

variable {K : Type} [Field K] [LinearOrder K]

/-- `new`: the bucket is full. -/
def new (capacity refillRate : K) : TokenBucket K := ⟨capacity, capacity, refillRate⟩

/-- What every use of the bucket does first: the tokens of the time that has passed, up to the
capacity. -/
def refill (b : TokenBucket K) (elapsed : K) : TokenBucket K :=
  { b with tokens := min (b.tokens + elapsed * b.refillRate) b.capacity }

/-- `try_acquire_sync`. -/
def tryAcquireSync (b : TokenBucket K) (elapsed tokens : K) : Bool × TokenBucket K :=
  let b := b.refill elapsed
  if b.tokens ≥ tokens then (true, { b with tokens := b.tokens - tokens }) else (false, b)

/-- The locked part of `return_tokens_sync`. -/
def returnTokens (b : TokenBucket K) (tokens : K) : TokenBucket K :=
  { b with tokens := min (b.tokens + tokens) b.capacity }

end TokenBucket

/-! ## 2. The callers -/

/-- Where a call of `acquire` is. -/
inductive AcquirePhase where
  /-- Before `try_acquire`, the first or a later one. -/
  | trying
  /-- `try_acquire` has failed, and the future is not there yet. -/
  | failed
  /-- Awaiting `notified`. -/
  | waiting (signalled : Bool)
  | done
deriving DecidableEq

/-- Where a call of `return_tokens_sync` is. -/
inductive ReturnPhase where
  | ready
  /-- The tokens are in the bucket, `notify_waiters` is to come. -/
  | added
  | done
deriving DecidableEq

/-- The calls: what each `acquire` asks for and what each `return_tokens_sync` brings. -/
structure BucketCalls (K : Type) [Field K] [LinearOrder K] (ι κ : Type) where
  capacity : K
  request : ι → K
  amount : κ → K
  request_nonneg : ∀ i, 0 ≤ request i

/-- The bucket and all calls on it. -/
structure BucketState (K ι κ : Type) where
  bucket : TokenBucket K
  acquire : ι → AcquirePhase
  returns : κ → ReturnPhase

namespace BucketState

variable {K ι κ : Type} [Field K] [LinearOrder K] [DecidableEq ι] [DecidableEq κ]

/-- A full bucket with `refill_rate = 0`, and no call has started. -/
def init (calls : BucketCalls K ι κ) : BucketState K ι κ :=
  ⟨TokenBucket.new calls.capacity 0, fun _ => .trying, fun _ => .ready⟩

/-- `notify_waiters`: the futures that exist are signalled. -/
def notifyWaiters (acquire : ι → AcquirePhase) (i : ι) : AcquirePhase :=
  match acquire i with
  | .waiting _ => .waiting true
  | phase => phase

/-- A step of one call. -/
inductive Step (K ι κ : Type) where
  | tryAcquire (i : ι) (elapsed : K)
  | notified (i : ι)
  | wake (i : ι)
  | add (k : κ)
  | notify (k : κ)

/-- The state after a step, when the call is there. -/
def step (calls : BucketCalls K ι κ) (s : BucketState K ι κ) :
    Step K ι κ → Option (BucketState K ι κ)
  | .tryAcquire i elapsed =>
    if s.acquire i = .trying then
      let (acquired, bucket) := s.bucket.tryAcquireSync elapsed (calls.request i)
      some { s with
        bucket := bucket
        acquire := Function.update s.acquire i (if acquired then .done else .failed) }
    else none
  | .notified i =>
    if s.acquire i = .failed then
      some { s with acquire := Function.update s.acquire i (.waiting false) }
    else none
  | .wake i =>
    if s.acquire i = .waiting true then
      some { s with acquire := Function.update s.acquire i .trying }
    else none
  | .add k =>
    if s.returns k = .ready then
      some { s with
        bucket := s.bucket.returnTokens (calls.amount k)
        returns := Function.update s.returns k .added }
    else none
  | .notify k =>
    if s.returns k = .added then
      some { s with
        acquire := notifyWaiters s.acquire
        returns := Function.update s.returns k .done }
    else none

/-- The states that steps allowed by `ok` lead to. -/
inductive Run (calls : BucketCalls K ι κ) (ok : BucketState K ι κ → Step K ι κ → Prop) :
    BucketState K ι κ → Prop
  | init : Run calls ok (init calls)
  | step {s s' : BucketState K ι κ} (e : Step K ι κ) : Run calls ok s → ok s e →
    s.step calls e = some s' → Run calls ok s'

/-- **No waiter sleeps on available tokens.** -/
def NoneSleeps (calls : BucketCalls K ι κ) (s : BucketState K ι κ) : Prop :=
  ∀ i, s.acquire i = .waiting false → s.bucket.tokens < calls.request i

/-- No return is between its two steps. -/
def Settled (s : BucketState K ι κ) : Prop := ∀ k, s.returns k ≠ .added

/-- A return comes only when it would serve no caller that has failed and has no future yet. -/
def Clear (calls : BucketCalls K ι κ) (s : BucketState K ι κ) : Step K ι κ → Prop
  | .add k => ∀ i, s.acquire i = .failed →
    (s.bucket.returnTokens (calls.amount k)).tokens < calls.request i
  | _ => True

/-! ## 3. Waiters and tokens -/

/-- What clear runs keep: a caller that has failed lacks tokens, and so does one that waits, unless a
return is about to signal it. -/
structure Lacking (calls : BucketCalls K ι κ) (s : BucketState K ι κ) : Prop where
  refillRate : s.bucket.refillRate = 0
  failed : ∀ i, s.acquire i = .failed → s.bucket.tokens < calls.request i
  waiting : ∀ i, s.acquire i = .waiting false →
    s.bucket.tokens < calls.request i ∨ ∃ k, s.returns k = .added

section Steps

variable [IsStrictOrderedRing K] {calls : BucketCalls K ι κ} {s s' : BucketState K ι κ}

omit [DecidableEq ι] [DecidableEq κ] in
/-- A try that fails leaves fewer tokens than it asked for, and no try adds any. -/
theorem tryAcquireSync_spec (hrate : s.bucket.refillRate = 0) {elapsed : K} {i : ι} {acquired : Bool}
    {bucket : TokenBucket K}
    (heq : s.bucket.tryAcquireSync elapsed (calls.request i) = (acquired, bucket)) :
    bucket.refillRate = 0 ∧ bucket.tokens ≤ s.bucket.tokens ∧
      (acquired = false → bucket.tokens < calls.request i) := by
  have hfill : (s.bucket.refill elapsed).tokens ≤ s.bucket.tokens := by
    rw [TokenBucket.refill, hrate, mul_zero, add_zero]
    exact min_le_left _ _
  unfold TokenBucket.tryAcquireSync at heq
  by_cases h : (s.bucket.refill elapsed).tokens ≥ calls.request i
  · simp only [h, if_true] at heq
    cases heq
    have hreq := calls.request_nonneg i
    exact ⟨hrate, by linarith, nofun⟩
  · simp only [h, if_false] at heq
    cases heq
    exact ⟨hrate, hfill, fun _ => not_le.mp h⟩

theorem Lacking.step {e : Step K ι κ} (h : Lacking calls s) (hc : Clear calls s e)
    (heq : s.step calls e = some s') : Lacking calls s' := by
  cases e with
  | tryAcquire i elapsed =>
    rw [BucketState.step] at heq
    split_ifs at heq with hi
    obtain ⟨⟨acquired, bucket⟩, hr⟩ : ∃ r, s.bucket.tryAcquireSync elapsed (calls.request i) = r :=
      ⟨_, rfl⟩
    obtain ⟨hrate, hle, hfail⟩ := tryAcquireSync_spec h.refillRate hr
    rw [hr] at heq
    cases heq
    refine ⟨hrate, fun j hj => ?_, fun j hj => ?_⟩
    · by_cases hji : j = i
      · subst hji
        refine hfail ?_
        cases acquired with
        | false => rfl
        | true => simp at hj
      · simp only [update_of_ne hji] at hj
        exact hle.trans_lt (h.failed j hj)
    · have hji : j ≠ i := by
        rintro rfl
        cases acquired <;> simp at hj
      simp only [update_of_ne hji] at hj
      exact (h.waiting j hj).imp_left hle.trans_lt
  | notified i =>
    rw [BucketState.step] at heq
    split_ifs at heq with hi
    cases heq
    refine ⟨h.refillRate, fun j hj => ?_, fun j hj => ?_⟩
    · have hji : j ≠ i := by rintro rfl; simp at hj
      simp only [update_of_ne hji] at hj
      exact h.failed j hj
    · by_cases hji : j = i
      · subst hji
        exact Or.inl (h.failed j hi)
      · simp only [update_of_ne hji] at hj
        exact h.waiting j hj
  | wake i =>
    rw [BucketState.step] at heq
    split_ifs at heq with hi
    cases heq
    refine ⟨h.refillRate, fun j hj => ?_, fun j hj => ?_⟩
    · have hji : j ≠ i := by rintro rfl; simp at hj
      simp only [update_of_ne hji] at hj
      exact h.failed j hj
    · have hji : j ≠ i := by rintro rfl; simp at hj
      simp only [update_of_ne hji] at hj
      exact h.waiting j hj
  | add k =>
    rw [BucketState.step] at heq
    split_ifs at heq with hk
    cases heq
    exact ⟨h.refillRate, hc, fun j _ => Or.inr ⟨k, update_self ..⟩⟩
  | notify k =>
    rw [BucketState.step] at heq
    split_ifs at heq with hk
    cases heq
    refine ⟨h.refillRate, fun j hj => h.failed j ?_, fun j hj => ?_⟩
    · simp only [notifyWaiters] at hj
      split at hj
      · cases hj
      · exact hj
    · simp only [notifyWaiters] at hj
      split at hj
      · cases hj
      · rename_i hne
        exact absurd hj (hne false)

theorem Run.lacking (h : Run calls (Clear calls) s) : Lacking calls s := by
  induction h with
  | init => exact ⟨rfl, nofun, nofun⟩
  | step e _ hc heq ih => exact ih.step hc heq

omit [IsStrictOrderedRing K] in
/-- **A return between the failed try and the future** is lost: from there the caller can come to sleep
on tokens that would do. -/
theorem exists_sleeper {i : ι} {k : κ} (hset : s.Settled) (hk : s.returns k = .ready)
    (hi : s.acquire i = .failed)
    (hle : calls.request i ≤ (s.bucket.returnTokens (calls.amount k)).tokens) :
    ∃ s₁ s₂ s₃, s.step calls (.add k) = some s₁ ∧ s₁.step calls (.notify k) = some s₂ ∧
      s₂.step calls (.notified i) = some s₃ ∧ s₃.Settled ∧ ¬ NoneSleeps calls s₃ := by
  have hi' : notifyWaiters s.acquire i = .failed := by rw [notifyWaiters, hi]
  refine ⟨_, _, _, if_pos hk, if_pos (update_self ..), if_pos hi', fun k' => ?_, fun hn => ?_⟩
  · by_cases hkk : k' = k
    · subst hkk
      simp
    · simp only [update_of_ne hkk]
      exact hset k'
  · exact absurd (hn i (update_self ..)) (not_lt.mpr hle)

/-- **No caller sleeps on available tokens** in any state, with no return halfway, of a run in which no
return adds enough tokens for a caller that has failed and has no future yet.  And such a return can
always end in a state in which the caller does. -/
theorem waiter_lacks_tokens_of_clear (h : Run calls (Clear calls) s) (hset : s.Settled) :
    NoneSleeps calls s ∧ ∀ k, s.returns k = .ready → ¬ Clear calls s (.add k) →
      ∃ i s₁ s₂ s₃, s.step calls (.add k) = some s₁ ∧ s₁.step calls (.notify k) = some s₂ ∧
        s₂.step calls (.notified i) = some s₃ ∧ s₃.Settled ∧ ¬ NoneSleeps calls s₃ := by
  refine ⟨fun i hi => ?_, fun k hk hc => ?_⟩
  · rcases h.lacking.waiting i hi with hlt | ⟨k, hk⟩
    · exact hlt
    · exact absurd hk (hset k)
  · simp only [Clear, not_forall, not_lt] at hc
    obtain ⟨i, hi, hle⟩ := hc
    exact ⟨i, exists_sleeper hset hk hi hle⟩

end Steps

/-! ## 4. A schedule -/

/-- Two calls that ask for one token each, and one that brings one back, on a bucket of one. -/
def smallCalls : BucketCalls ℚ (Fin 2) (Fin 1) where
  capacity := 1
  request := fun _ => 1
  amount := fun _ => 1
  request_nonneg := fun _ => zero_le_one

/-- The states along a list of steps. -/
def along (calls : BucketCalls K ι κ) (s : BucketState K ι κ) :
    List (Step K ι κ) → Option (BucketState K ι κ)
  | [] => some s
  | e :: es => (s.step calls e).bind (along calls · es)

theorem Run.along {calls : BucketCalls K ι κ} {ok : BucketState K ι κ → Step K ι κ → Prop}
    {es : List (Step K ι κ)} {s s' : BucketState K ι κ} (h : Run calls ok s)
    (hok : ∀ s, ∀ e ∈ es, ok s e) (heq : along calls s es = some s') : Run calls ok s' := by
  induction es generalizing s with
  | nil => cases heq; exact h
  | cons e es ih =>
    rw [BucketState.along, bind_eq_some_iff] at heq
    obtain ⟨s₁, h1, heq⟩ := heq
    exact ih (h.step e (hok s e List.mem_cons_self) h1)
      (fun s e he => hok s e (List.mem_cons_of_mem _ he)) heq

instance [Fintype κ] (s : BucketState K ι κ) : Decidable s.Settled :=
  inferInstanceAs (Decidable (∀ k, s.returns k ≠ .added))

instance [Fintype ι] (calls : BucketCalls K ι κ) (s : BucketState K ι κ) :
    Decidable (NoneSleeps calls s) :=
  inferInstanceAs (Decidable (∀ i, s.acquire i = .waiting false → s.bucket.tokens < calls.request i))

/-- The first call takes the token, the second one finds none and waits. -/
def smallWait : Option (BucketState ℚ (Fin 2) (Fin 1)) :=
  along smallCalls (init smallCalls) [.tryAcquire 0 0, .tryAcquire 1 0, .notified 1]

/-- The token comes back between the failed try of the second call and its future. -/
def smallLost : Option (BucketState ℚ (Fin 2) (Fin 1)) :=
  along smallCalls (init smallCalls) [.tryAcquire 0 0, .tryAcquire 1 0, .add 0, .notify 0, .notified 1]

theorem smallWait_isSome : smallWait.isSome = true := by decide +kernel

theorem smallLost_isSome : smallLost.isSome = true := by decide +kernel

/-- The theorem on a run: the second call waits, and the bucket is empty. -/
theorem waiter_lacks_tokens_of_clear_small :
    ∃ s, Run smallCalls (Clear smallCalls) s ∧ s.acquire 1 = .waiting false ∧
      NoneSleeps smallCalls s := by
  have hrun : Run smallCalls (Clear smallCalls) (smallWait.get smallWait_isSome) :=
    Run.init.along (by simp [Clear]) (some_get smallWait_isSome).symm
  exact ⟨_, hrun, by decide +kernel, (waiter_lacks_tokens_of_clear hrun (by decide +kernel)).1⟩

/-- **A lost signal.**  No return is halfway, the bucket holds the token that the second call asks for,
and the call waits unsignalled. -/
theorem waiter_sleeps_on_tokens :
    ∃ s, Run smallCalls (fun _ _ => True) s ∧ s.Settled ∧ s.acquire 1 = .waiting false ∧
      s.bucket.tokens = 1 ∧ smallCalls.request 1 = 1 ∧ ¬ NoneSleeps smallCalls s := by
  have hrun : Run smallCalls (fun _ _ => True) (smallLost.get smallLost_isSome) :=
    Run.init.along (fun _ _ _ => trivial) (some_get smallLost_isSome).symm
  exact ⟨_, hrun, by decide +kernel, by decide +kernel, by decide +kernel, rfl, by decide +kernel⟩

end BucketState

end Sglang
