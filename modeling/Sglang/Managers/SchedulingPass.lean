/-
# A scheduling pass and the requests it moves

Requests move between the waiting queue, the running batch, the chunked request and the new batch
while a pass runs.  The pass returns early when nothing was admitted, and then the requests it has
preempted are in none of them.  `Starved` says of a state that this happens; in all other states no
request is lost.
-/
import Sglang.Managers.Scheduler

namespace Sglang

namespace Scheduler

open PrefillAdder List Option SchedulePolicy

variable {cfg : SchedulerConfig} {env : PassEnv} {S S' S₁ : Scheduler} {a a' : PrefillAdder}
  {r : ReqId} {l : List ReqId}

/-! ## 1. Queueing requests -/

/-- An abort output was sent for the request. -/
def Aborted (S : Scheduler) (r : ReqId) : Prop := ∃ message, (r, message) ∈ S.aborted

/-- What queueing the requests of a list does: each is in the queue afterwards or aborted, and so
is each that was there. -/
structure Queues (l : List ReqId) (S S' : Scheduler) : Prop where
  runningBatch : S'.runningBatch = S.runningBatch
  chunkedReq : S'.chunkedReq = S.chunkedReq
  batchIsFull : S'.batchIsFull = S.batchIsFull
  finished : ∀ x, (S'.reqs x).finished = (S.reqs x).finished
  queued : ∀ x ∈ l, x ∈ S'.waitingQueue ∨ S'.Aborted x
  kept : ∀ x ∈ S.waitingQueue, x ∈ S'.waitingQueue ∨ S'.Aborted x
  only : ∀ x ∈ S'.waitingQueue, x ∈ S.waitingQueue ∨ x ∈ l
  aborted_mono : ∀ x, S.Aborted x → S'.Aborted x
  aborted_only : ∀ x, S'.Aborted x → S.Aborted x ∨ x ∈ S.waitingQueue ∨ x ∈ l

theorem finished_modifyReq (S : Scheduler) (r : ReqId) {f : SchedReq → SchedReq} (hf : ∀ y, (f y).finished = y.finished)
    (x : ReqId) : ((S.modifyReq r f).reqs x).finished = (S.reqs x).finished := by
  by_cases hx : x = r
  · subst hx
    simp [modifyReq, hf]
  · simp [modifyReq, hx]

theorem aborted_sendAbort {message : String} {x : ReqId} :
    (S.sendAbort r message).Aborted x ↔ S.Aborted x ∨ x = r := by
  unfold Aborted sendAbort
  simp only [mem_append, mem_singleton, Prod.mk.injEq]
  constructor
  · rintro ⟨m, h | ⟨h, -⟩⟩
    · exact .inl ⟨m, h⟩
    · exact .inr h
  · rintro (⟨m, h⟩ | h)
    · exact ⟨m, .inl h⟩
    · exact ⟨message, .inr ⟨h, rfl⟩⟩

/-- The request itself is turned away. -/
theorem queues_sendAbort (message : String) : Queues [r] S (S.sendAbort r message) where
  runningBatch := rfl
  chunkedReq := rfl
  batchIsFull := rfl
  finished := fun _ => rfl
  queued := fun x hx => .inr (aborted_sendAbort.mpr (.inr (mem_singleton.mp hx)))
  kept := fun _ hx => .inl hx
  only := fun _ hx => .inl hx
  aborted_mono := fun _ h => aborted_sendAbort.mpr (.inl h)
  aborted_only := fun x h => (aborted_sendAbort.mp h).imp id fun h => .inr (by rw [h]; simp)

theorem leastPreferred_mem {reqs : ReqId → SchedReq} {direction : ℤ} {c : ReqId}
    (h : leastPreferred reqs direction l = some c) : c ∈ l := by
  cases l with
  | nil => cases h
  | cons y l =>
    have key : ∀ (le : ReqId → ReqId → Bool) (l : List ReqId) (y : ReqId),
        l.foldl (fun best x => if le x best then best else x) y ∈ y :: l := by
      intro le l
      induction l with
      | nil => exact fun y => mem_cons_self
      | cons z l ih =>
        intro y
        rw [foldl_cons]
        split
        · rcases mem_cons.mp (ih y) with h | h
          · rw [h]; exact mem_cons_self
          · exact mem_cons_of_mem _ (mem_cons_of_mem _ h)
        · exact mem_cons_of_mem _ (ih z)
    rw [← Option.some.inj h]
    exact key (fun x best => lexLe
      (direction * (reqs x).priority.getD 0, (reqs x).waitQueueEntryTime)
      (direction * (reqs best).priority.getD 0, (reqs best).waitQueueEntryTime)) l y

/-- What the limit of the queue does: the request is turned away, or the queue may lose one that
is aborted for it. -/
theorem abortOnQueuedLimit_cases {stop : Bool} (h : abortOnQueuedLimit cfg S r = some (stop, S')) :
    (stop = true ∧ Queues [r] S S') ∨ (stop = false ∧ (S' = S ∨ ∃ c message, c ∈ S.waitingQueue ∧
      S' = { S with waitingQueue := S.waitingQueue.erase c }.sendAbort c message)) := by
  unfold abortOnQueuedLimit at h
  split at h
  · cases h
    exact .inr ⟨rfl, .inl rfl⟩
  split at h
  · obtain ⟨c, hc, h⟩ := bind_eq_some_iff.mp h
    have hmem := leastPreferred_mem hc
    generalize (if cfg.adder.scheduleLowPriorityValuesFirst = true then (1 : ℤ) else -1) = d at h
    split at h
    · cases h
      by_cases hcr : c = r
      · -- the request is in the queue already and is itself the least preferred
        subst hcr
        refine .inl ⟨by simp, ?_⟩
        refine ⟨rfl, rfl, rfl, fun _ => rfl, ?_, ?_, ?_, ?_, ?_⟩
        · exact fun x hx => .inr (aborted_sendAbort.mpr (.inr (mem_singleton.mp hx)))
        · intro x hx
          by_cases hxc : x = c
          · exact .inr (aborted_sendAbort.mpr (.inr hxc))
          · exact .inl ((mem_erase_of_ne hxc).mpr hx)
        · exact fun x hx => .inl (mem_of_mem_erase hx)
        · exact fun x hx => aborted_sendAbort.mpr (.inl hx)
        · exact fun x hx => (aborted_sendAbort.mp hx).imp id fun h => .inr (by rw [h]; simp)
      · exact .inr ⟨decide_eq_false hcr, .inr ⟨c, _, hmem, rfl⟩⟩
    · cases h
      exact .inl ⟨rfl, queues_sendAbort _⟩
  · cases h
    exact .inl ⟨rfl, queues_sendAbort _⟩

theorem setOrValidatePriority_cases {ok : Bool} (h : setOrValidatePriority cfg S r = (ok, S')) :
    (ok = false ∧ Queues [r] S S') ∨ (ok = true ∧ S' = { S with reqs := S'.reqs } ∧
        ∀ x, (S'.reqs x).finished = (S.reqs x).finished) := by
  unfold setOrValidatePriority at h
  split at h
  · cases h
    exact .inr ⟨rfl, rfl, finished_modifyReq S r fun _ => rfl⟩
  split at h
  · cases h
    exact .inl ⟨rfl, queues_sendAbort _⟩
  · cases h
    exact .inr ⟨rfl, rfl, fun _ => rfl⟩

/-- **`_add_request_to_queue`** queues the request or sends an abort for it. -/
theorem addRequestToQueue_queues (h : addRequestToQueue cfg env S r = some S') :
    Queues [r] S S' := by
  unfold addRequestToQueue at h
  cases hp : setOrValidatePriority cfg S r with
  | mk ok S₁ =>
    rw [hp] at h
    rcases setOrValidatePriority_cases hp with ⟨rfl, hq⟩ | ⟨rfl, heq, hfin⟩
    · cases h
      exact hq
    · have hqueue : S₁.waitingQueue = S.waitingQueue := by rw [heq]
      have hrun : S₁.runningBatch = S.runningBatch := by rw [heq]
      have hchunk : S₁.chunkedReq = S.chunkedReq := by rw [heq]
      have hfull : S₁.batchIsFull = S.batchIsFull := by rw [heq]
      have hab : ∀ x, S₁.Aborted x ↔ S.Aborted x := by
        intro x
        unfold Aborted
        rw [heq]
      simp only at h
      cases hl : abortOnQueuedLimit cfg S₁ r with
      | none => rw [hl] at h; cases h
      | some out =>
        obtain ⟨stop, S₂⟩ := out
        rw [hl] at h
        rcases abortOnQueuedLimit_cases hl with ⟨rfl, hq⟩ | ⟨rfl, hS₂⟩
        · cases h
          exact ⟨hq.runningBatch.trans hrun, hq.chunkedReq.trans hchunk,
            hq.batchIsFull.trans hfull, fun x => (hq.finished x).trans (hfin x), hq.queued,
            fun x hx => hq.kept x (hqueue ▸ hx), fun x hx => hqueue ▸ hq.only x hx,
            fun x hx => hq.aborted_mono x ((hab x).mpr hx),
            fun x hx => hqueue ▸ (hq.aborted_only x hx).imp (hab x).mp id⟩
        · cases h
          have hreqs : S₂.reqs = S₁.reqs := by
            rcases hS₂ with rfl | ⟨c, message, -, rfl⟩
            · rfl
            · rfl
          have hfin₂ : ∀ x, ((({ S₂ with waitingQueue := S₂.waitingQueue ++ [r] } :
              Scheduler).modifyReq r fun x => { x with waitQueueEntryTime := env.now r }).reqs
              x).finished = (S.reqs x).finished := by
            intro x
            rw [← hfin x, ← hreqs]
            refine finished_modifyReq { S₂ with waitingQueue := S₂.waitingQueue ++ [r] } r ?_ x
            exact fun _ => rfl
          rcases hS₂ with rfl | ⟨c, message, hc, rfl⟩
          · refine ⟨hrun, hchunk, hfull, hfin₂, ?_, ?_, ?_, fun x hx => (hab x).mpr hx,
              fun x hx => .inl ((hab x).mp hx)⟩
            · exact fun x hx => .inl (mem_append_right _ hx)
            · exact fun x hx => .inl (mem_append_left _ (hqueue ▸ hx))
            · exact fun x hx => hqueue ▸ mem_append.mp hx
          · have hsend : ∀ x, (({ S₁ with waitingQueue := S₁.waitingQueue.erase c } :
                Scheduler).sendAbort c message).Aborted x ↔ S.Aborted x ∨ x = c := by
              intro x
              rw [aborted_sendAbort, ← hab x]
              rfl
            refine ⟨hrun, hchunk, hfull, hfin₂, ?_, ?_, ?_, fun x hx => (hsend x).mpr (.inl hx), ?_⟩
            · exact fun x hx => .inl (mem_append_right _ hx)
            · intro x hx
              by_cases hxc : x = c
              · exact .inr ((hsend x).mpr (.inr hxc))
              · exact .inl (mem_append_left _ ((mem_erase_of_ne hxc).mpr (hqueue ▸ hx)))
            · intro x hx
              rcases mem_append.mp hx with hx | hx
              · exact .inl (hqueue ▸ mem_of_mem_erase hx)
              · exact .inr hx
            · intro x hx
              rcases (hsend x).mp hx with h | rfl
              · exact .inl h
              · exact .inr (.inl (hqueue ▸ hc))

theorem foldlM_queues : ∀ (l : List ReqId) (S : Scheduler),
    l.foldlM (addRequestToQueue cfg env) S = some S' → Queues l S S'
  | [], S, h => by
    cases h
    exact ⟨rfl, rfl, rfl, fun _ => rfl, fun _ hx => absurd hx (not_mem_nil),
      fun _ hx => .inl hx, fun _ hx => .inl hx, fun _ h => h, fun _ h => .inl h⟩
  | r :: l, S, h => by
    rw [foldlM_cons] at h
    obtain ⟨S₁, h₁, h₂⟩ := bind_eq_some_iff.mp h
    have hq₁ := addRequestToQueue_queues h₁
    have hq₂ := foldlM_queues l S₁ h₂
    refine ⟨hq₂.runningBatch.trans hq₁.runningBatch, hq₂.chunkedReq.trans hq₁.chunkedReq,
      hq₂.batchIsFull.trans hq₁.batchIsFull,
      fun x => (hq₂.finished x).trans (hq₁.finished x), ?_, ?_, ?_,
      fun x hx => hq₂.aborted_mono x (hq₁.aborted_mono x hx), ?_⟩
    · intro x hx
      rcases mem_cons.mp hx with rfl | hx
      · rcases hq₁.queued x (by simp) with h | h
        · exact hq₂.kept x h
        · exact .inr (hq₂.aborted_mono x h)
      · exact hq₂.queued x hx
    · intro x hx
      rcases hq₁.kept x hx with h | h
      · exact hq₂.kept x h
      · exact .inr (hq₂.aborted_mono x h)
    · intro x hx
      rcases hq₂.only x hx with h | h
      · exact (hq₁.only x h).imp id fun h => by rw [mem_singleton.mp h]; simp
      · exact .inr (mem_cons_of_mem _ h)
    · intro x hx
      rcases hq₂.aborted_only x hx with h | h | h
      · exact (hq₁.aborted_only x h).imp id (Or.imp id fun h => by
          rw [mem_singleton.mp h]; simp)
      · exact .inr ((hq₁.only x h).imp id fun h => by rw [mem_singleton.mp h]; simp)
      · exact .inr (.inr (mem_cons_of_mem _ h))

/-! ## 2. The loop -/

/-- What a part of the loop over `l` does: running requests stay or are preempted, and requests of
`l` join the batch. -/
structure Advances (l : List ReqId) (S : Scheduler) (a : PrefillAdder) (S' : Scheduler)
    (a' : PrefillAdder) : Prop where
  waitingQueue : S'.waitingQueue = S.waitingQueue
  chunkedReq : S'.chunkedReq = S.chunkedReq
  aborted : S'.aborted = S.aborted
  finished : ∀ x, (S'.reqs x).finished = (S.reqs x).finished
  running_only : ∀ x ∈ S'.runningBatch, x ∈ S.runningBatch
  running : ∀ x ∈ S.runningBatch, x ∈ S'.runningBatch ∨ x ∈ a'.preemptList
  preempt_mono : ∀ x ∈ a.preemptList, x ∈ a'.preemptList
  preempted : ∀ x ∈ a'.preemptList, x ∈ a.preemptList ∨
    (x ∈ S.runningBatch ∧ x ∉ S'.runningBatch ∧ (S.reqs x).finished = false)
  canRun_mono : ∀ x ∈ a.canRunList, x ∈ a'.canRunList
  canRun : ∀ x ∈ a'.canRunList, x ∈ a.canRunList ∨ x ∈ l
  newChunked : a'.newChunkedReq = a.newChunkedReq ∨ ∃ x ∈ a'.canRunList, a'.newChunkedReq = some x

theorem Advances.refl (l : List ReqId) (S : Scheduler) (a : PrefillAdder) :
    Advances l S a S a where
  waitingQueue := rfl
  chunkedReq := rfl
  aborted := rfl
  finished := fun _ => rfl
  running_only := fun _ h => h
  running := fun _ h => .inl h
  preempt_mono := fun _ h => h
  preempted := fun _ h => .inl h
  canRun_mono := fun _ h => h
  canRun := fun _ h => .inl h
  newChunked := .inl rfl

variable {S₂ : Scheduler} {a₂ : PrefillAdder}

theorem Advances.trans (h₁ : Advances l S a S' a')
    (h₂ : Advances l S' a' S₂ a₂) : Advances l S a S₂ a₂ where
  waitingQueue := h₂.waitingQueue.trans h₁.waitingQueue
  chunkedReq := h₂.chunkedReq.trans h₁.chunkedReq
  aborted := h₂.aborted.trans h₁.aborted
  finished := fun x => (h₂.finished x).trans (h₁.finished x)
  running_only := fun x hx => h₁.running_only x (h₂.running_only x hx)
  running := by
    intro x hx
    rcases h₁.running x hx with h | h
    · exact h₂.running x h
    · exact .inr (h₂.preempt_mono x h)
  preempt_mono := fun x hx => h₂.preempt_mono x (h₁.preempt_mono x hx)
  preempted := by
    intro x hx
    rcases h₂.preempted x hx with h | ⟨h, hn, hf⟩
    · rcases h₁.preempted x h with h | ⟨h, hn, hf⟩
      · exact .inl h
      · exact .inr ⟨h, fun h' => hn (h₂.running_only x h'), hf⟩
    · exact .inr ⟨h₁.running_only x h, hn, (h₁.finished x) ▸ hf⟩
  canRun_mono := fun x hx => h₂.canRun_mono x (h₁.canRun_mono x hx)
  canRun := by
    intro x hx
    rcases h₂.canRun x hx with h | h
    · exact h₁.canRun x h
    · exact .inr h
  newChunked := by
    rcases h₂.newChunked with h | h
    · rcases h₁.newChunked with h' | ⟨x, hx, h'⟩
      · exact .inl (h.trans h')
      · exact .inr ⟨x, h₂.canRun_mono x hx, h.trans h'⟩
    · exact .inr h

theorem Advances.mono {l' : List ReqId} (h : Advances l S a S' a') (hl : ∀ x ∈ l, x ∈ l') :
    Advances l' S a S' a' :=
  { h with canRun := fun x hx => (h.canRun x hx).imp id (hl x) }

theorem advances_full (l : List ReqId) (S : Scheduler) (a : PrefillAdder) (full : Bool) :
    Advances l S a { S with batchIsFull := full } a :=
  { Advances.refl l S a with }

theorem advances_markFull (l : List ReqId) : Advances l S a (markFull cfg S a) a := by
  unfold markFull
  split
  · exact advances_full l S a true
  · exact Advances.refl l S a

theorem advances_markNoToken (l : List ReqId) (res : AddReqResult) :
    Advances l S a (markNoToken cfg S a res) a := by
  unfold markNoToken
  split
  · exact advances_full l S a _
  · exact Advances.refl l S a

/-- **A preemption** releases the victims and remembers them. -/
theorem preemptToSchedule_advances (l : List ReqId)
    (h : preemptToSchedule cfg env S a r = some (S', a')) :
    Advances l S a S' a' ∧ a'.preemptList ≠ [] ∧ a'.canRunList = a.canRunList ∧
      S'.batchIsFull = S.batchIsFull := by
  obtain ⟨found, hv, heq⟩ := map_eq_some_iff.mp h
  cases heq
  obtain ⟨hne, hfound⟩ := victims_subset hv
  have hmem : ∀ x, x ∈ env.setOrder found ↔ x ∈ found := fun x => (env.perm_setOrder found).mem_iff
  refine ⟨?_, ?_, rfl, rfl⟩
  · refine ⟨rfl, rfl, rfl, fun _ => rfl, ?_, ?_, ?_, ?_, fun _ h => h, fun _ h => .inl h, .inl rfl⟩
    · exact fun x hx => mem_of_mem_filter hx
    · intro x hx
      by_cases hf : x ∈ found
      · exact .inr (mem_append_right _ ((hmem x).mpr hf))
      · exact .inl (mem_filter.mpr ⟨hx, decide_eq_true hf⟩)
    · exact fun x hx => mem_append_left _ hx
    · intro x hx
      rcases mem_append.mp hx with hx | hx
      · exact .inl hx
      · have hf := (hmem x).mp hx
        refine .inr ⟨(hfound x hf).1, fun h => ?_, (hfound x hf).2⟩
        exact of_decide_eq_true (mem_filter.mp h).2 hf
  · intro h
    have hnil := (append_eq_nil_iff.mp h).2
    obtain ⟨x, hx⟩ := exists_mem_of_ne_nil found hne
    have := (hmem x).mpr hx
    rw [hnil] at this
    cases this

theorem makeRoom_advances (l : List ReqId) (h : makeRoom cfg env S a r = some (S', a')) :
    Advances l S a S' a' ∧ a'.canRunList = a.canRunList := by
  unfold makeRoom at h
  split at h
  · split at h
    · obtain ⟨h1, -, h2, -⟩ := preemptToSchedule_advances l h
      exact ⟨h1, h2⟩
    · cases h
  · cases h
    exact ⟨Advances.refl l S a, rfl⟩

theorem advances_initNextRoundInput (l : List ReqId) (r : ReqId) (lookup : Bool) :
    Advances l S a (initNextRoundInput env S r lookup) a :=
  { Advances.refl l S a with
    finished := finished_modifyReq S r fun y => by cases lookup <;> rfl }

theorem addOne_advances (hr : r ∈ l) : Advances l S a S (addOne cfg env S a r).2 := by
  have h : Admits a r (addOne cfg env S a r) := addOneReq_spec _ _
  generalize addOne cfg env S a r = out at h
  obtain ⟨hp, ⟨hc, hn⟩ | ⟨-, hc, hn⟩⟩ := h
  · refine ⟨rfl, rfl, rfl, fun _ => rfl, fun _ h => h, fun _ h => .inl h, fun x hx => hp ▸ hx,
      fun x hx => .inl (hp ▸ hx), fun x hx => ?_, fun x hx => ?_, ?_⟩
    · rw [hc]
      exact mem_append_left _ hx
    · rw [hc, mem_append, mem_singleton] at hx
      exact hx.imp id fun (e : x = r) => e ▸ hr
    · refine hn.imp id fun h => ⟨r, ?_, h⟩
      rw [hc]
      simp
  · refine ⟨rfl, rfl, rfl, fun _ => rfl, fun _ h => h, fun _ h => .inl h, fun x hx => hp ▸ hx,
      fun x hx => .inl (hp ▸ hx), fun x hx => hc ▸ hx, fun x hx => .inl (hc ▸ hx), .inl hn⟩

/-- **The loop** moves requests from the running batch to the preempted ones and from the queue to
the new batch. -/
theorem admitLoop_advances : ∀ (l : List ReqId) (S : Scheduler) (a : PrefillAdder),
    Advances l S a (admitLoop cfg env l S a).1 (admitLoop cfg env l S a).2
  | [], S, a => Advances.refl [] S a
  | r :: rest, S, a => by
    have hsub : ∀ x ∈ rest, x ∈ r :: rest := fun x hx => mem_cons_of_mem _ hx
    rw [admitLoop]
    split
    · exact (admitLoop_advances rest S a).mono hsub
    · have hmark : Advances (r :: rest) S a (markFull cfg S a) a := advances_markFull _
      simp only
      cases hroom : makeRoom cfg env (markFull cfg S a) a r with
      | none => exact hmark
      | some out =>
        obtain ⟨S₁, a₁⟩ := out
        have hr := (makeRoom_advances (r :: rest) hroom).1
        simp only
        split
        · exact (hmark.trans hr).trans ((admitLoop_advances rest S₁ a₁).mono hsub)
        · have hinit : Advances (r :: rest) S₁ a₁ (initNextRoundInput env S₁ r true) a₁ :=
            advances_initNextRoundInput _ r true
          generalize initNextRoundInput env S₁ r true = S₂ at hinit ⊢
          have hadd : Advances (r :: rest) S₂ a₁ S₂ (addOne cfg env S₂ a₁ r).2 :=
            addOne_advances mem_cons_self
          generalize addOne cfg env S₂ a₁ r = out at hadd ⊢
          have hall := ((hmark.trans hr).trans hinit).trans hadd
          split
          · exact hall.trans ((admitLoop_advances rest _ out.2).mono hsub)
          · exact hall.trans (advances_markNoToken _ _)

/-! ## 3. Passes that admit nothing -/

/-- LoRA keeps the request back. -/
def Blocked (cfg : SchedulerConfig) (env : PassEnv) (r : ReqId) : Prop :=
  cfg.enableLora = true ∧ env.canScheduleLora r = false

/-- The pages of the request are still on their way from the storage. -/
def Pending (cfg : SchedulerConfig) (env : PassEnv) (r : ReqId) : Prop :=
  cfg.enableHicacheStorage = true ∧ env.prefetchDone r = false

instance (r : ReqId) : Decidable (Blocked cfg env r) := by unfold Blocked; infer_instance

instance (r : ReqId) : Decidable (Pending cfg env r) := by unfold Pending; infer_instance

/-- With a full batch, nobody of the queue is admitted: the requests whose pages are on their way
preempt and are passed over, until one finds nobody to preempt or is refused. -/
def NoneAdmitted (cfg : SchedulerConfig) (env : PassEnv) :
    List ReqId → Scheduler → PrefillAdder → Prop
  | [], _, _ => True
  | r :: rest, S, a =>
    if Blocked cfg env r then NoneAdmitted cfg env rest S a
    else
      match preemptToSchedule cfg env S a r with
      | none => True
      | some (S, a) =>
        if Pending cfg env r then NoneAdmitted cfg env rest S a
        else (addOne cfg env (initNextRoundInput env S r true) a r).2.canRunList = []

/-- The first request that LoRA lets through finds requests to preempt. -/
def FirstPreempts (cfg : SchedulerConfig) (env : PassEnv) (queue : List ReqId) (S : Scheduler)
    (a : PrefillAdder) : Prop :=
  ∃ r, queue.find? (fun x => ¬ Blocked cfg env x) = some r ∧
    (preemptToSchedule cfg env S a r).isSome = true

/-- **A pass that preempts for nothing**: it comes to its loop without the chunked request in the
batch, there is no room for a further request, the first one preempts, and none is admitted. -/
def Starved (cfg : SchedulerConfig) (env : PassEnv) (S : Scheduler) : Prop :=
  ∃ S₁ a, enterPass cfg env S = some (S₁, some a) ∧ a.canRunList = [] ∧
    cfg.enablePriorityPreemption = true ∧ S₁.getNumAllocatableReqs cfg ≤ 0 ∧
    FirstPreempts cfg env S₁.waitingQueue S₁ a ∧ NoneAdmitted cfg env S₁.waitingQueue S₁ a

theorem preemptToSchedule_full (S : Scheduler) (full : Bool) :
    preemptToSchedule cfg env { S with batchIsFull := full } a r
      = (preemptToSchedule cfg env S a r).map fun out =>
        ({ out.1 with batchIsFull := full }, out.2) := by
  simp only [preemptToSchedule, Option.map_map]
  rfl

theorem noneAdmitted_full (full : Bool) : ∀ (l : List ReqId) (S : Scheduler) (a : PrefillAdder),
    NoneAdmitted cfg env l { S with batchIsFull := full } a ↔ NoneAdmitted cfg env l S a
  | [], _, _ => Iff.rfl
  | r :: rest, S, a => by
    rw [NoneAdmitted, NoneAdmitted]
    split
    · exact noneAdmitted_full full rest S a
    · rw [preemptToSchedule_full]
      cases preemptToSchedule cfg env S a r with
      | none => exact Iff.rfl
      | some out =>
        simp only [map_some]
        split
        · exact noneAdmitted_full full rest out.1 out.2
        · exact Iff.rfl

theorem markFull_of_full (h : S.batchIsFull = true) : markFull cfg S a = S := by
  unfold markFull
  split
  · rw [← h]
  · rfl

theorem admitLoop_ne_nil (l : List ReqId) (S : Scheduler) (h : a.canRunList ≠ []) :
    (admitLoop cfg env l S a).2.canRunList ≠ [] := by
  obtain ⟨x, hx⟩ := exists_mem_of_ne_nil _ h
  exact ne_nil_of_mem ((admitLoop_advances l S a).canRun_mono x hx)

/-- The end of an iteration: an admission is seen in the batch. -/
theorem admitLoop_add (rest : List ReqId) (S : Scheduler) :
    ((if (addOne cfg env S a r).1 = .continue then
        admitLoop cfg env rest S (addOne cfg env S a r).2
      else (markNoToken cfg S (addOne cfg env S a r).2 (addOne cfg env S a r).1,
        (addOne cfg env S a r).2)).2.canRunList = [] ↔ (addOne cfg env S a r).2.canRunList = []) ∧
    ((addOne cfg env S a r).2.canRunList = [] → (addOne cfg env S a r).1 ≠ .continue) := by
  have h : Admits a r (addOne cfg env S a r) := addOneReq_spec _ _
  generalize addOne cfg env S a r = out at h
  obtain ⟨-, ⟨hc, -⟩ | ⟨hne, hc, -⟩⟩ := h
  · have hne : out.2.canRunList ≠ [] := by rw [hc]; simp
    refine ⟨?_, fun h => absurd h hne⟩
    split
    · exact iff_of_false (admitLoop_ne_nil rest S hne) hne
    · exact Iff.rfl
  · exact ⟨by rw [if_neg hne], fun _ => hne⟩

theorem admitLoop_noneAdmitted (hon : cfg.enablePriorityPreemption = true) :
    ∀ (l : List ReqId) (S : Scheduler) (a : PrefillAdder), S.batchIsFull = true →
    a.canRunList = [] →
    ((admitLoop cfg env l S a).2.canRunList = [] ↔ NoneAdmitted cfg env l S a)
  | [], _, _, _, ha => iff_of_true ha trivial
  | r :: rest, S, a, hfull, ha => by
    rw [admitLoop, NoneAdmitted]
    by_cases hb : cfg.enableLora = true ∧ env.canScheduleLora r = false
    · rw [if_pos hb, if_pos (show Blocked cfg env r from hb)]
      exact admitLoop_noneAdmitted hon rest S a hfull ha
    · rw [if_neg hb, if_neg (show ¬ Blocked cfg env r from hb)]
      simp only [markFull_of_full hfull, makeRoom, hfull, hon, if_true]
      cases hp : preemptToSchedule cfg env S a r with
      | none => exact iff_of_true ha trivial
      | some out =>
        obtain ⟨S₁, a₁⟩ := out
        obtain ⟨-, -, hc, hf⟩ := preemptToSchedule_advances [] hp
        simp only
        by_cases hpd : cfg.enableHicacheStorage = true ∧ env.prefetchDone r = false
        · rw [if_pos hpd, if_pos (show Pending cfg env r from hpd)]
          exact admitLoop_noneAdmitted hon rest S₁ a₁ (hf.trans hfull) (hc.trans ha)
        · rw [if_neg hpd, if_neg (show ¬ Pending cfg env r from hpd)]
          exact (admitLoop_add rest _).1

theorem admitLoop_firstPreempts (hon : cfg.enablePriorityPreemption = true) :
    ∀ (l : List ReqId) (S : Scheduler) (a : PrefillAdder), S.batchIsFull = true →
    a.preemptList = [] →
    ((admitLoop cfg env l S a).2.preemptList ≠ [] ↔ FirstPreempts cfg env l S a)
  | [], S, a, _, ha => by simp [admitLoop, ha, FirstPreempts]
  | r :: rest, S, a, hfull, ha => by
    by_cases hb : cfg.enableLora = true ∧ env.canScheduleLora r = false
    · have hb' : Blocked cfg env r := hb
      rw [admitLoop, if_pos hb, FirstPreempts, find?_cons_of_neg (by simpa using hb')]
      exact admitLoop_firstPreempts hon rest S a hfull ha
    · have hb' : ¬ Blocked cfg env r := hb
      have hroom : makeRoom cfg env (markFull cfg S a) a r = preemptToSchedule cfg env S a r := by
        rw [markFull_of_full hfull, makeRoom, if_pos hfull, if_pos hon]
      rw [FirstPreempts, find?_cons_of_pos (by simpa using hb')]
      cases hp : preemptToSchedule cfg env S a r with
      | none =>
        rw [hp] at hroom
        rw [admitLoop, if_neg hb]
        simp only [hroom]
        refine iff_of_false (fun h => h ha) ?_
        rintro ⟨x, hx, hs⟩
        cases hx
        rw [hp] at hs
        cases hs
      | some out =>
        obtain ⟨S₁, a₁⟩ := out
        obtain ⟨-, hne, -, -⟩ := preemptToSchedule_advances [] hp
        refine iff_of_true ?_ ⟨r, rfl, by rw [hp]; rfl⟩
        obtain ⟨x, hx⟩ := exists_mem_of_ne_nil _ hne
        -- who was preempted first is still remembered at the end
        rw [hp] at hroom
        rw [admitLoop, if_neg hb]
        simp only [hroom]
        split
        · exact ne_nil_of_mem ((admitLoop_advances rest S₁ a₁).preempt_mono x hx)
        · have hadd : Advances [r] (initNextRoundInput env S₁ r true) a₁
              (initNextRoundInput env S₁ r true)
              (addOne cfg env (initNextRoundInput env S₁ r true) a₁ r).2 :=
            addOne_advances mem_cons_self
          split
          · exact ne_nil_of_mem ((admitLoop_advances rest _ _).preempt_mono x
              (hadd.preempt_mono x hx))
          · exact ne_nil_of_mem (hadd.preempt_mono x hx)

/-- Without room the loop runs as if the batch had been marked full before. -/
theorem admitLoop_of_no_room : ∀ (l : List ReqId) (S : Scheduler) (a : PrefillAdder),
    S.getNumAllocatableReqs cfg ≤ 0 → a.canRunList = [] →
    (admitLoop cfg env l S a).2 = (admitLoop cfg env l { S with batchIsFull := true } a).2
  | [], _, _, _, _ => rfl
  | r :: rest, S, a, hroom, ha => by
    rw [admitLoop, admitLoop]
    split
    · exact admitLoop_of_no_room rest S a hroom ha
    · have hmark : markFull cfg S a = { S with batchIsFull := true } := by
        rw [markFull, ha, if_pos (by simpa using hroom)]
      have hmark' : markFull cfg { S with batchIsFull := true } a = { S with batchIsFull := true } :=
        markFull_of_full rfl
      rw [hmark, hmark']

theorem admitLoop_of_room : ∀ (l : List ReqId) (S : Scheduler) (a : PrefillAdder),
    S.batchIsFull = false → 0 < S.getNumAllocatableReqs cfg → a.canRunList = [] →
    (admitLoop cfg env l S a).2.canRunList = [] →
    (admitLoop cfg env l S a).2.preemptList = a.preemptList
  | [], _, _, _, _, _, _ => rfl
  | r :: rest, S, a, hfull, hroom, ha, hnil => by
    rw [admitLoop] at hnil ⊢
    split at hnil
    · rename_i hb
      rw [if_pos hb]
      exact admitLoop_of_room rest S a hfull hroom ha hnil
    · rename_i hb
      have hmark : markFull cfg S a = S := by
        rw [markFull, ha, if_neg (by simpa using hroom)]
      rw [if_neg hb]
      simp only [hmark, makeRoom, hfull, Bool.false_eq_true, if_false] at hnil ⊢
      split at hnil
      · rename_i hp
        rw [if_pos hp]
        exact admitLoop_of_room rest S a hfull hroom ha hnil
      · rename_i hp
        rw [if_neg hp]
        have hadd := (admitLoop_add rest (initNextRoundInput env S r true)).1.mp hnil
        rw [if_neg ((admitLoop_add rest (initNextRoundInput env S r true)).2 hadd)]
        have h : Admits a r (addOne cfg env (initNextRoundInput env S r true) a r) :=
          addOneReq_spec _ _
        exact h.1

theorem admitLoop_of_off (hoff : cfg.enablePriorityPreemption = false) : ∀ (l : List ReqId)
    (S : Scheduler) (a : PrefillAdder),
    (admitLoop cfg env l S a).2.preemptList = a.preemptList
  | [], _, _ => rfl
  | r :: rest, S, a => by
    rw [admitLoop]
    split
    · exact admitLoop_of_off hoff rest S a
    · cases hfull : (markFull cfg S a).batchIsFull with
      | true => simp [makeRoom, hfull, hoff]
      | false =>
        simp only [makeRoom, hfull, Bool.false_eq_true, if_false]
        split
        · exact admitLoop_of_off hoff rest _ a
        · have h : Admits a r (addOne cfg env
              (initNextRoundInput env (markFull cfg S a) r true) a r) := addOneReq_spec _ _
          split
          · exact (admitLoop_of_off hoff rest _ _).trans h.1
          · exact h.1

/-- **When the loop preempts for nothing.** -/
theorem admitLoop_starved_iff (hpre : a.preemptList = [])
    (hfull : cfg.enablePriorityPreemption = true → S.batchIsFull = false) (l : List ReqId) :
    ((admitLoop cfg env l S a).2.canRunList = [] ∧ (admitLoop cfg env l S a).2.preemptList ≠ []) ↔
      a.canRunList = [] ∧ cfg.enablePriorityPreemption = true ∧
        S.getNumAllocatableReqs cfg ≤ 0 ∧ FirstPreempts cfg env l S a ∧ NoneAdmitted cfg env l S a := by
  cases hon : cfg.enablePriorityPreemption with
  | false =>
    rw [admitLoop_of_off hon l S a, hpre]
    simp
  | true =>
    by_cases ha : a.canRunList = []
    · by_cases hroom : S.getNumAllocatableReqs cfg ≤ 0
      · rw [admitLoop_of_no_room l S a hroom ha,
          admitLoop_noneAdmitted hon l { S with batchIsFull := true } a rfl ha,
          admitLoop_firstPreempts hon l { S with batchIsFull := true } a rfl hpre,
          noneAdmitted_full true l S a]
        have hfirst : FirstPreempts cfg env l { S with batchIsFull := true } a
            ↔ FirstPreempts cfg env l S a := by
          simp [FirstPreempts, preemptToSchedule_full]
        rw [hfirst]
        simp only [ha, hroom, true_and]
        exact and_comm
      · refine iff_of_false ?_ fun h => hroom h.2.2.1
        rintro ⟨hnil, hne⟩
        exact hne ((admitLoop_of_room l S a (hfull hon) (not_le.mp hroom) ha hnil).trans hpre)
    · exact iff_of_false (fun h => admitLoop_ne_nil l S ha h.1) fun h => ha h.1

/-! ## 4. The whole pass -/

theorem finished_calcPriority (policy : Policy) (enablePriorityScheduling : Bool)
    (prioritySign : ℤ) (reqs : ReqId → SchedReq) (runningBatch waitingQueue : List ReqId)
    (x : ReqId) : ((calcPriority env reqs policy enablePriorityScheduling
      prioritySign runningBatch waitingQueue).2 x).finished = (reqs x).finished := by
  have hmatch : (SchedulePolicy.computePrefixMatches env reqs waitingQueue x).finished
      = (reqs x).finished := by
    unfold SchedulePolicy.computePrefixMatches
    split
    · rfl
    · rfl
  unfold calcPriority
  split
  · rfl
  · cases determineActivePolicy policy waitingQueue with
    | lpm => exact hmatch
    | dfsWeight => exact hmatch
    | fcfs => rfl
    | lof => rfl
    | random => rfl
    | routingKey => rfl

/-- The part of the pass before the loop: ready requests are queued, the queue is reordered, and
the chunked request is added or carried over. -/
structure Enters (cfg : SchedulerConfig) (env : PassEnv) (S S₁ : Scheduler)
    (oa : Option PrefillAdder) : Prop where
  runningBatch : S₁.runningBatch = S.runningBatch
  finished : ∀ x, (S₁.reqs x).finished = (S.reqs x).finished
  kept : ∀ x ∈ S.waitingQueue, x ∈ S₁.waitingQueue ∨ S₁.Aborted x
  only : ∀ x ∈ S₁.waitingQueue, x ∈ S.waitingQueue ∨ x ∈ env.readyGrammarRequests
  aborted_only : ∀ x, S₁.Aborted x →
    S.Aborted x ∨ x ∈ S.waitingQueue ∨ x ∈ env.readyGrammarRequests
  chunked_only : ∀ x, S₁.chunkedReq = some x → S.chunkedReq = some x
  full : cfg.enablePriorityPreemption = true → S₁.batchIsFull = false
  early : oa = none → S₁.chunkedReq = S.chunkedReq
  adder : ∀ a, oa = some a → a.preemptList = [] ∧ a.newChunkedReq = none ∧
    (∀ x ∈ a.canRunList, S.chunkedReq = some x) ∧
    ∀ x, S.chunkedReq = some x → x ∈ a.canRunList ∨ S₁.chunkedReq = some x

theorem sortQueue_enters (h : Enters cfg env S S₁ none) : Enters cfg env S (sortQueue cfg env S₁) none := by
  have hperm : ∀ x, x ∈ (sortQueue cfg env S₁).waitingQueue ↔ x ∈ S₁.waitingQueue :=
    fun x => (perm_calcPriority _ _ _ _ _).mem_iff
  refine ⟨h.runningBatch, ?_, ?_, ?_, h.aborted_only, h.chunked_only, h.full, h.early,
    fun _ e => absurd e (some_ne_none _).symm⟩
  · exact fun x => (finished_calcPriority _ _ _ _ _ _ x).trans (h.finished x)
  · exact fun x hx => (h.kept x hx).imp (hperm x).mpr id
  · exact fun x hx => h.only x ((hperm x).mp hx)

theorem startAdder_enters (h : Enters cfg env S S₁ none) :
    Enters cfg env S (startAdder cfg env S₁).1 (some (startAdder cfg env S₁).2) := by
  have hearly := h.early rfl
  unfold startAdder
  simp only
  generalize ha₀ : PrefillAdder.init cfg.adder S₁.reqs S₁.runningBatch cfg.maxPrefillTokens
    (if S₁.chunkedReq.isSome = true ∧ env.dynamicSize.isSome = true then env.dynamicSize
      else cfg.chunkedPrefillSize) = a₀
  have hrun : a₀.canRunList = [] := by rw [← ha₀]; rfl
  have hpre : a₀.preemptList = [] := by rw [← ha₀]; rfl
  have hnew : a₀.newChunkedReq = none := by rw [← ha₀]; rfl
  cases hc : S₁.chunkedReq with
  | none =>
    refine ⟨h.runningBatch, h.finished, h.kept, h.only, h.aborted_only, h.chunked_only, h.full,
      fun e => absurd e (some_ne_none _), ?_⟩
    rintro _ ⟨⟩
    rw [← hearly, hc, hrun]
    exact ⟨hpre, hnew, nofun, nofun⟩
  | some c =>
    have hfin : ∀ x, ((initNextRoundInput env S₁ c false).reqs x).finished
        = (S₁.reqs x).finished := finished_modifyReq S₁ c fun _ => rfl
    obtain ⟨hp, hn, hcase⟩ := @addChunkedReq_spec cfg.adder env
      (initNextRoundInput env S₁ c false).reqs a₀ c
    simp only
    generalize addChunkedReq cfg.adder env (initNextRoundInput env S₁ c false).reqs a₀ c = out
      at hp hn hcase ⊢
    refine ⟨h.runningBatch, fun x => (hfin x).trans (h.finished x), h.kept, h.only,
      h.aborted_only, ?_, h.full, fun e => absurd e (some_ne_none _), ?_⟩
    · intro x hx
      rw [← hearly, hc]
      rcases hcase with rfl | ⟨-, honly⟩
      · exact hx
      · rw [honly x hx]
    · rintro _ ⟨⟩
      refine ⟨hp.trans hpre, hn.trans hnew, ?_, ?_⟩
      · intro x hx
        rw [← hearly, hc]
        rcases hcase with rfl | ⟨hrun', -⟩
        · rw [hrun] at hx
          cases hx
        · rw [hrun', hrun] at hx
          rw [mem_singleton.mp hx]
      · intro x hx
        rw [← hearly, hc] at hx
        rcases hcase with rfl | ⟨hrun', -⟩
        · exact .inr hx
        · rw [hrun', ← Option.some.inj hx]
          exact .inl (mem_append_right _ (mem_singleton_self c))

/-- **Before the loop** no request is lost. -/
theorem enterPass_enters {oa : Option PrefillAdder} (h : enterPass cfg env S = some (S₁, oa)) :
    Enters cfg env S S₁ oa := by
  obtain ⟨S₀, hq, h⟩ := bind_eq_some_iff.mp h
  have hq := foldlM_queues _ _ hq
  have h₀ : ∀ full, (cfg.enablePriorityPreemption = true → full = false) →
      Enters cfg env S { S₀ with batchIsFull := full } none := fun full hfull =>
    ⟨hq.runningBatch, hq.finished, hq.kept, hq.only, hq.aborted_only,
      fun x hx => hq.chunkedReq ▸ hx, hfull, fun _ => hq.chunkedReq,
      fun _ e => absurd e (some_ne_none _).symm⟩
  have hfull : Enters cfg env S (if cfg.enablePriorityPreemption = true ∨
      cfg.adder.isHybridSwa = true then { S₀ with batchIsFull := false } else S₀) none := by
    split
    · exact h₀ false fun _ => rfl
    · rename_i hoff
      exact h₀ S₀.batchIsFull fun hon => absurd (.inl hon) hoff
  generalize (if cfg.enablePriorityPreemption = true ∨ cfg.adder.isHybridSwa = true then
    ({ S₀ with batchIsFull := false } : Scheduler) else S₀) = S₂ at h hfull
  simp only at h
  split at h
  · cases h
    exact hfull
  split at h
  · rename_i hoff
    cases h
    exact { hfull with full := fun hon => absurd hon (by simp [hoff.2.2]) }
  split at h
  · cases h
    exact sortQueue_enters hfull
  · cases h
    exact startAdder_enters (sortQueue_enters hfull)

/-! ## 5. No request is lost -/

/-- What the scheduler keeps between passes: a running request is in no other container, and no
abort output was sent for it. -/
structure WellFormed (env : PassEnv) (S : Scheduler) : Prop where
  waiting : ∀ x ∈ S.runningBatch, x ∉ S.waitingQueue
  grammar : ∀ x ∈ S.runningBatch, x ∉ env.readyGrammarRequests
  chunked : ∀ x ∈ S.runningBatch, S.chunkedReq ≠ some x
  aborted : ∀ x ∈ S.runningBatch, ¬ S.Aborted x

/-- The pass from `S` to `S'` with the batch it returned loses no request. -/
structure LosesNone (S S' : Scheduler) (batch : Option (List ReqId)) : Prop where
  kept : ∀ x, x ∈ S.waitingQueue ∨ x ∈ S.runningBatch ∨ S.chunkedReq = some x →
    (S.reqs x).finished = false → ¬ S'.Aborted x →
    x ∈ S'.waitingQueue ∨ x ∈ S'.runningBatch ∨ x ∈ batch.getD [] ∨ S'.chunkedReq = some x
  apart : ∀ x ∈ batch.getD [], x ∉ S'.waitingQueue
  requeued : ∀ x ∈ S.runningBatch, x ∉ S'.runningBatch → x ∈ S'.waitingQueue ∨ S'.Aborted x

theorem Enters.running_apart (h : Enters cfg env S S₁ (some a)) (hwf : WellFormed env S) :
    ∀ x ∈ S₁.runningBatch, x ∉ S₁.waitingQueue ∧ x ∉ a.canRunList ∧ ¬ S₁.Aborted x := by
  intro x hx
  rw [h.runningBatch] at hx
  refine ⟨fun hw => ?_, fun hc => ?_, fun hab => ?_⟩
  · rcases h.only x hw with h | h
    · exact hwf.waiting x hx h
    · exact hwf.grammar x hx h
  · exact hwf.chunked x hx ((h.adder a rfl).2.2.1 x hc)
  · rcases h.aborted_only x hab with h | h | h
    · exact hwf.aborted x hx h
    · exact hwf.waiting x hx h
    · exact hwf.grammar x hx h

/-- A pass without a batch loses the requests it preempted, and only these. -/
theorem losesNone_none_iff (hwf : WellFormed env S)
    (henter : Enters cfg env S S₁ (some a)) (hadv : Advances S₁.waitingQueue S₁ a S₂ a₂)
    (hnil : a₂.canRunList = []) : LosesNone S S₂ none ↔ a₂.preemptList = [] := by
  have hab : ∀ x, S₂.Aborted x ↔ S₁.Aborted x := fun x => by
    unfold Aborted
    rw [hadv.aborted]
  constructor
  · intro hl
    by_contra hne
    obtain ⟨x, hx⟩ := exists_mem_of_ne_nil _ hne
    rcases hadv.preempted x hx with h | ⟨hrun, hgone, -⟩
    · rw [(henter.adder a rfl).1] at h
      cases h
    · obtain ⟨hw, -, hna⟩ := henter.running_apart hwf x hrun
      rcases hl.requeued x (henter.runningBatch ▸ hrun) hgone with h | h
      · exact hw (hadv.waitingQueue ▸ h)
      · exact hna ((hab x).mp h)
  · intro hpre
    have hrun : ∀ x ∈ S.runningBatch, x ∈ S₂.runningBatch := fun x hx =>
      (hadv.running x (henter.runningBatch ▸ hx)).resolve_right (by rw [hpre]; simp)
    refine ⟨?_, fun x hx => absurd hx (by simp), fun x hx hn => absurd (hrun x hx) hn⟩
    rintro x (hx | hx | hx) - hna
    · left
      rw [hadv.waitingQueue]
      exact (henter.kept x hx).resolve_right fun h => hna ((hab x).mpr h)
    · exact .inr (.inl (hrun x hx))
    · refine .inr (.inr (.inr ?_))
      rw [hadv.chunkedReq]
      refine ((henter.adder a rfl).2.2.2 x hx).resolve_left fun h => ?_
      have := hadv.canRun_mono x h
      rw [hnil] at this
      cases this

/-- A pass with a batch queues again what it preempted. -/
theorem losesNone_some {S₃ : Scheduler} (hwf : WellFormed env S)
    (henter : Enters cfg env S S₁ (some a)) (hadv : Advances S₁.waitingQueue S₁ a S₂ a₂)
    (hq : Queues a₂.preemptList
      { S₂ with waitingQueue := S₂.waitingQueue.filter (· ∉ a₂.canRunList) } S₃)
    (hchunk : S'.chunkedReq = S₃.chunkedReq ∨ S₃.chunkedReq = none)
    (hS' : S' = { S₃ with chunkedReq := S'.chunkedReq }) :
    LosesNone S S' (some a₂.canRunList) := by
  have hwait : S'.waitingQueue = S₃.waitingQueue := by rw [hS']
  have hrunning : S'.runningBatch = S₂.runningBatch := by rw [hS']; exact hq.runningBatch
  have hab : ∀ x, S'.Aborted x ↔ S₃.Aborted x := fun x => by
    unfold Aborted
    rw [hS']
  have hmono : ∀ x, S₁.Aborted x → S₃.Aborted x := fun x ⟨m, hm⟩ =>
    hq.aborted_mono x ⟨m, hadv.aborted ▸ hm⟩
  have hpreempted : ∀ x ∈ a₂.preemptList, x ∈ S₁.runningBatch := fun x hx => by
    rcases hadv.preempted x hx with h | h
    · rw [(henter.adder a rfl).1] at h
      cases h
    · exact h.1
  have hrequeued : ∀ x ∈ S.runningBatch, x ∉ S'.runningBatch →
      x ∈ S'.waitingQueue ∨ S'.Aborted x := by
    intro x hx hgone
    rw [hwait, hab]
    refine hq.queued x ((hadv.running x (henter.runningBatch ▸ hx)).resolve_left fun h => ?_)
    exact hgone (hrunning ▸ h)
  refine ⟨?_, ?_, hrequeued⟩
  · rintro x (hx | hx | hx) - hna
    · rw [hwait]
      have hna₃ : ¬ S₃.Aborted x := fun h => hna ((hab x).mpr h)
      have hx₁ := (henter.kept x hx).resolve_right fun h => hna₃ (hmono x h)
      by_cases hc : x ∈ a₂.canRunList
      · exact .inr (.inr (.inl hc))
      · refine .inl ((hq.kept x ?_).resolve_right hna₃)
        refine mem_filter.mpr ⟨?_, by simpa using hc⟩
        rw [hadv.waitingQueue]
        exact hx₁
    · by_cases hrun : x ∈ S'.runningBatch
      · exact .inr (.inl hrun)
      · exact .inl ((hrequeued x hx hrun).resolve_right hna)
    · rcases (henter.adder a rfl).2.2.2 x hx with h | h
      · exact .inr (.inr (.inl (hadv.canRun_mono x h)))
      · have h₃ : S₃.chunkedReq = some x := by rw [hq.chunkedReq]; exact hadv.chunkedReq.trans h
        refine .inr (.inr (.inr ?_))
        rcases hchunk with hc | hc
        · rw [hc, h₃]
        · rw [hc] at h₃
          cases h₃
  · intro x hx hw
    rw [hwait] at hw
    rcases hq.only x hw with h | h
    · exact absurd hx (by simpa using (mem_filter.mp h).2)
    · -- who was preempted was running, and so in no batch
      obtain ⟨hnw, hnc, -⟩ := henter.running_apart hwf x (hpreempted x h)
      rcases hadv.canRun x hx with h | h
      · exact hnc h
      · exact hnw h

/-- **A scheduling pass loses no request**, unless it preempts for nothing. -/
theorem schedulingPass_losesNone_iff {batch : Option (List ReqId)} (hwf : WellFormed env S)
    (h : getNewBatchPrefillRaw cfg env S = some (S', batch)) :
    LosesNone S S' batch ↔ ¬ Starved cfg env S := by
  obtain ⟨⟨S₁, oa⟩, hin, h⟩ := bind_eq_some_iff.mp h
  have henter := enterPass_enters hin
  cases oa with
  | none =>
    cases h
    refine iff_of_true ?_ ?_
    · refine ⟨?_, fun x hx => absurd hx (by simp), fun x hx hn => ?_⟩
      · rintro x (hx | hx | hx) - hna
        · exact .inl ((henter.kept x hx).resolve_right hna)
        · exact .inr (.inl (henter.runningBatch ▸ hx))
        · exact .inr (.inr (.inr ((henter.early rfl).trans hx)))
      · exact absurd (henter.runningBatch ▸ hx) hn
    · rintro ⟨S₂, a, he, -⟩
      rw [hin] at he
      cases he
  | some a =>
    have hadv : Advances S₁.waitingQueue S₁ a (admitLoop cfg env S₁.waitingQueue S₁ a).1
        (admitLoop cfg env S₁.waitingQueue S₁ a).2 := admitLoop_advances S₁.waitingQueue S₁ a
    have hstarved : Starved cfg env S ↔
        (admitLoop cfg env S₁.waitingQueue S₁ a).2.canRunList = [] ∧
          (admitLoop cfg env S₁.waitingQueue S₁ a).2.preemptList ≠ [] := by
      rw [admitLoop_starved_iff (henter.adder a rfl).1 henter.full]
      constructor
      · rintro ⟨S₂, a₂, he, hrest⟩
        rw [hin] at he
        cases he
        exact hrest
      · exact fun hrest => ⟨S₁, a, hin, hrest⟩
    rw [hstarved]
    simp only at h
    generalize admitLoop cfg env S₁.waitingQueue S₁ a = out at h hadv ⊢
    obtain ⟨S₂, a₂⟩ := out
    simp only at hadv h ⊢
    unfold finishPass at h
    split at h
    · rename_i hnil
      cases h
      rw [losesNone_none_iff hwf henter hadv hnil]
      simp [hnil]
    · rename_i hne
      refine iff_of_true ?_ fun h => hne h.1
      obtain ⟨S₃, hq, h⟩ := bind_eq_some_iff.mp h
      have hq := foldlM_queues _ _ hq
      split at h
      · cases h
        exact losesNone_some hwf henter hadv hq (.inl rfl) rfl
      · split at h
        · rename_i hc
          cases h
          exact losesNone_some hwf henter hadv hq (.inr hc) rfl
        · cases h

section Example

/-- Priority preemption with room for two requests, no chunks and no storage. -/
def smallConfig : SchedulerConfig where
  adder :=
    { float := .exact, pageSize := 1, newTokenRatio := 1, clipMaxNewTokens := 4096, preemptionThreshold := 0,
      prefillMaxRequests := none, isHybridSwa := false, slidingWindowSize := 0,
      onePrefill := false, treeCacheDisabled := false, scheduleLowPriorityValuesFirst := false }
  policy := .fcfs
  enablePriorityScheduling := true
  enablePriorityPreemption := true
  abortOnPriorityWhenDisabled := true
  maxQueuedRequests := none
  enableLora := false
  enableHierarchicalCache := false
  enableHicacheStorage := false
  ppMaxMicroBatchSize := 2
  maxPrefillTokens := 16384
  chunkedPrefillSize := none
  truncationAlignSize := none
  noPrefillBs := none

/-- A request without a prefix in the cache. -/
def smallReq (priority : ℤ) (numOriginInputIds : ℕ) : SchedReq where
  priority := some priority
  waitQueueEntryTime := 0
  numOriginInputIds := numOriginInputIds
  numOutputIds := 0
  maxNewTokens := 4
  ignoreEos := false
  finished := false
  routingKey := none
  prefixLen := 0
  extendInputLen := 0
  hostHitLength := 0
  lastNode := 0

theorem nodup_singleNode : (PrefixTree.node 0 []).nodes.Nodup := by decide

theorem zero_mem_singleNode (_ : ℕ) : 0 ∈ (PrefixTree.node 0 []).nodes := by decide

/-- A pool of 18 tokens: 8 are free while the requests 0 and 1 run, 12 once 0 is released. -/
def smallEnv : PassEnv where
  readyGrammarRequests := []
  now := fun _ => 1
  dynamicSize := none
  tree := .node 0 []
  computeMatch := fun _ => ⟨0, 0, 0⟩
  temporaryDeprioritized := fun _ => false
  shuffle := id
  setOrder := id
  nextRound := fun _ => ⟨0, 0, 0⟩
  availableAndEvictable := fun _ m => if m = .preempt then 8 else 12
  swaAvailableAndEvictable := fun _ _ => 0
  loadedBack := fun _ => 0
  canScheduleLora := fun _ => true
  prefetchDone := fun _ => true
  allowPrefill := true
  perm_shuffle := @List.Perm.refl ℕ
  perm_setOrder := @List.Perm.refl ℕ
  nodup_tree := nodup_singleNode
  lastNode_mem := zero_mem_singleNode

/-- The requests 0 and 1 run, 2 waits; 0 is less important than the others. -/
def smallScheduler (promptLen : ℕ) : Scheduler where
  reqs := fun r => if r = 0 then smallReq 0 4 else if r = 1 then smallReq 10 6
    else smallReq 10 promptLen
  waitingQueue := [2]
  runningBatch := [0, 1]
  batchIsFull := false
  chunkedReq := none
  availableRows := 6
  aborted := []

/-- The budgets of the pass. -/
def smallAdder : PrefillAdder :=
  PrefillAdder.init smallConfig.adder (smallScheduler 0).reqs [0, 1] 16384 none

theorem enterPass_small (n : ℕ) : enterPass smallConfig smallEnv (smallScheduler n)
    = some (smallScheduler n, some smallAdder) := by
  simp [enterPass, smallEnv, smallConfig, smallScheduler, sortQueue, calcPriority,
    sortByPriorityAndFcfs, sortBy, startAdder, smallAdder,
    PrefillAdder.init, getRunningRequestTotalTokenOffset]

theorem victims_small (n : ℕ) : victims smallConfig.adder smallEnv (smallScheduler n).reqs
    smallAdder [0, 1] 2 = some [0] := by
  have hsort : ∀ le : ReqId → ReqId → Bool, le 0 1 = true → sortBy le [0, 1] = [0, 1] := fun le h =>
    mergeSort_of_pairwise (by simp [h])
  unfold victims
  norm_num [smallScheduler, smallReq, smallAdder, smallConfig, smallEnv, PrefillAdder.init, hsort,
    getRunningRequestTotalTokenOffset, preemptible, remTotalTokens, lexLe,
    Lib.FloatOps.exact, Lib.FloatOps.ofInt, Lib.FloatOps.sub, Lib.FloatOps.mul]

/-- The request that waits preempts 0. -/
def preempted (n : ℕ) : Scheduler × PrefillAdder :=
  (preempt { smallScheduler n with batchIsFull := true } [0],
    smallAdder.preempt smallConfig.adder smallEnv (smallScheduler n).reqs [0, 1] [0])

theorem makeRoom_small (n : ℕ) :
    makeRoom smallConfig smallEnv (markFull smallConfig (smallScheduler n) smallAdder) smallAdder 2
      = some (preempted n) := by
  exact congrArg (Option.map _) (victims_small n)

theorem getNewBatchPrefillRaw_small (n : ℕ) :
    getNewBatchPrefillRaw smallConfig smallEnv (smallScheduler n) =
      (let S := initNextRoundInput smallEnv (preempted n).1 2 true
       let out := addOne smallConfig smallEnv S (preempted n).2 2
       if out.1 = .continue then finishPass smallConfig smallEnv S out.2
       else finishPass smallConfig smallEnv (markNoToken smallConfig S out.2 out.1) out.2) := by
  have hloop : admitLoop smallConfig smallEnv [2] (smallScheduler n) smallAdder =
      (let S := initNextRoundInput smallEnv (preempted n).1 2 true
       let out := addOne smallConfig smallEnv S (preempted n).2 2
       if out.1 = .continue then (S, out.2) else (markNoToken smallConfig S out.2 out.1, out.2)) := by
    rw [admitLoop]
    simp only [makeRoom_small]
    rfl
  rw [getNewBatchPrefillRaw, enterPass_small]
  have hqueue : (smallScheduler n).waitingQueue = [2] := rfl
  simp only [hqueue, bind_eq_bind, bind_some, hloop]
  split
  · rfl
  · rfl

theorem wellFormed_small (n : ℕ) : WellFormed smallEnv (smallScheduler n) where
  waiting := by simp [smallScheduler]
  grammar := by simp [smallEnv]
  chunked := by simp [smallScheduler]
  aborted := by simp [smallScheduler, Aborted]

/-- A short request is admitted, and the one it preempted waits again. -/
theorem schedulingPass_losesNone_admitted : ∃ S', S'.waitingQueue = [0] ∧ S'.runningBatch = [1] ∧
    getNewBatchPrefillRaw smallConfig smallEnv (smallScheduler 2) = some (S', some [2]) ∧
    (LosesNone (smallScheduler 2) S' (some [2]) ↔
      ¬ Starved smallConfig smallEnv (smallScheduler 2)) := by
  have h : (getNewBatchPrefillRaw smallConfig smallEnv (smallScheduler 2)).map
      (fun out => (out.1.waitingQueue, out.1.runningBatch, out.2))
      = some ([0], [1], some [2]) := by
    rw [getNewBatchPrefillRaw_small]
    decide +kernel
  obtain ⟨⟨S', batch⟩, hpass, heq⟩ := map_eq_some_iff.mp h
  simp only [Prod.mk.injEq] at heq
  obtain ⟨hw, hr, rfl⟩ := heq
  exact ⟨S', hw, hr, hpass, schedulingPass_losesNone_iff (wellFormed_small 2) hpass⟩

/-- The request that waits preempts 0 and is refused: nobody has 0 any more. -/
theorem schedulingPass_loses_preempted : ∃ S', WellFormed smallEnv (smallScheduler 8) ∧
    getNewBatchPrefillRaw smallConfig smallEnv (smallScheduler 8) = some (S', none) ∧
    ¬ LosesNone (smallScheduler 8) S' none ∧ 0 ∈ (smallScheduler 8).runningBatch ∧
    ((smallScheduler 8).reqs 0).finished = false ∧ 0 ∉ S'.waitingQueue ∧ 0 ∉ S'.runningBatch ∧
    S'.chunkedReq ≠ some 0 ∧ ¬ S'.Aborted 0 := by
  have h : (getNewBatchPrefillRaw smallConfig smallEnv (smallScheduler 8)).map
      (fun out => (out.1.waitingQueue, out.1.runningBatch, out.2, out.1.chunkedReq))
      = some ([2], [1], none, none) := by
    rw [getNewBatchPrefillRaw_small]
    decide +kernel
  have ha : (getNewBatchPrefillRaw smallConfig smallEnv (smallScheduler 8)).map
      (fun out => out.1.aborted) = some [] := by
    rw [getNewBatchPrefillRaw_small]
    decide +kernel
  obtain ⟨⟨S', batch⟩, hpass, heq⟩ := map_eq_some_iff.mp h
  simp only [Prod.mk.injEq] at heq
  obtain ⟨hw, hr, rfl, hc⟩ := heq
  rw [hpass] at ha
  have hab : ¬ S'.Aborted 0 := by
    rintro ⟨m, hm⟩
    rw [show S'.aborted = [] from Option.some.inj ha] at hm
    cases hm
  refine ⟨S', wellFormed_small 8, hpass, fun hl => ?_, by decide, rfl, by simp [hw], by simp [hr],
    by simp [hc], hab⟩
  rcases hl.requeued 0 (by decide) (by simp [hr]) with h | h
  · simp [hw] at h
  · exact hab h

end Example

end Scheduler

end Sglang
