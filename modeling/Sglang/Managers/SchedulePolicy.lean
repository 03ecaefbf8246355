/-
# The order of the waiting queue and the admission of requests

A transcription of `SchedulePolicy.calc_priority` and of `PrefillAdder` (`schedule_policy.py`).

A pass of the scheduler asks the caches for things that other modules are about: what a lookup
matched, how many tokens the pools could give at a moment, whether a prefetch has finished.
`PassEnv` holds these answers, one for every request and, where a number is read more than once,
for every moment of its admission, so that a statement for all environments is one for every
outcome.  The two fields with a proof are what the scheduler relies on: a shuffled list and the
elements of a set are the elements they were made from, and a lookup returns a node of the tree.

Token counts that the source multiplies with `new_token_ratio` are floats (`FloatOps`); a sum that it
may still have as an integer is one too, which is the same below `2 ^ 53`.
A comparison of priorities with `None` raises in the source; here it counts as `0`: requests are
given a priority before they are compared.  Left out are diffusion models, which have a pass of
their own, the Mamba slots and the numbers that are only logged.
-/
import Sglang.MemCache.Request

namespace Sglang

open List

/-- `Req`, the fields the scheduler reads; `prefixLen` is `len(prefix_indices)`. -/
structure SchedReq where
  priority : Option ℤ
  waitQueueEntryTime : ℚ
  numOriginInputIds : ℕ
  numOutputIds : ℕ
  maxNewTokens : ℤ
  ignoreEos : Bool
  finished : Bool
  routingKey : Option String
  prefixLen : ℤ
  extendInputLen : ℤ
  hostHitLength : ℤ
  lastNode : NodeId

/-- The nodes of the tree and their children, as the depth first search walks them. -/
inductive PrefixTree
  | node (id : NodeId) (children : List PrefixTree)

/-- The policies of both enumerations. -/
inductive Policy
  | lpm
  | dfsWeight
  | fcfs
  | lof
  | random
  | routingKey
deriving DecidableEq

/-- The moments of an admission at which the free tokens are read: before the lock on the matched
node, under it, and when the request was added. -/
inductive Moment
  | preempt
  | unlocked
  | locked
  | added
deriving DecidableEq

/-- What a lookup of a request found. -/
structure MatchOutcome where
  prefixLen : ℤ
  hostHitLength : ℤ
  lastNode : NodeId

mutual

/-- The nodes of a tree. -/
def PrefixTree.nodes : PrefixTree → List NodeId
  | .node id children => id :: PrefixTree.nodesOf children

def PrefixTree.nodesOf : List PrefixTree → List NodeId
  | [] => []
  | t :: ts => t.nodes ++ PrefixTree.nodesOf ts

end

/-- The answers of the caches to one pass, and the clock. -/
structure PassEnv where
  /-- `get_ready_grammar_requests()` -/
  readyGrammarRequests : List ReqId
  now : ReqId → ℚ
  /-- `predict_next_chunk_size`, or nothing without dynamic chunking -/
  dynamicSize : Option ℤ
  tree : PrefixTree
  /-- the lookups of `_compute_prefix_matches` -/
  computeMatch : ReqId → MatchOutcome
  temporaryDeprioritized : ReqId → Bool
  shuffle : List ReqId → List ReqId
  /-- the order in which a set of requests is read -/
  setOrder : List ReqId → List ReqId
  /-- the lookup of `init_next_round_input` -/
  nextRound : ReqId → MatchOutcome
  /-- `available_size() + evictable_size()` -/
  availableAndEvictable : ReqId → Moment → ℤ
  /-- the same for the sliding window pool -/
  swaAvailableAndEvictable : ReqId → Moment → ℤ
  /-- the length of what `init_load_back` brought -/
  loadedBack : ReqId → ℤ
  canScheduleLora : ReqId → Bool
  prefetchDone : ReqId → Bool
  /-- `negotiate_should_allow_prefill`, or `true` without a delayer -/
  allowPrefill : Bool
  perm_shuffle : ∀ l, (shuffle l).Perm l
  perm_setOrder : ∀ l, (setOrder l).Perm l
  nodup_tree : tree.nodes.Nodup
  lastNode_mem : ∀ r, (computeMatch r).lastNode ∈ tree.nodes

/-! ## 1. `calc_priority` -/

namespace SchedulePolicy

variable (env : PassEnv) (reqs : ReqId → SchedReq)

/-- `list.sort(key=...)`, a stable sort. -/
def sortBy {α : Type} (le : α → α → Bool) (l : List α) : List α := l.mergeSort le

/-- The order of pairs. -/
def lexLe {α β : Type} [DecidableEq α] [LT α] [DecidableLT α] [LE β] [DecidableLE β]
    (a b : α × β) : Bool :=
  decide (a.1 < b.1) || (decide (a.1 = b.1) && decide (a.2 ≤ b.2))

/-- `_sort_by_priority_and_fcfs`. -/
def sortByPriorityAndFcfs (prioritySign : ℤ) (waitingQueue : List ReqId) : List ReqId :=
  sortBy (fun a b => lexLe
    ((reqs a).priority.getD 0 * prioritySign, (reqs a).waitQueueEntryTime)
    ((reqs b).priority.getD 0 * prioritySign, (reqs b).waitQueueEntryTime)) waitingQueue

/-- `_sort_by_longest_prefix`: the requests that wait for another one come last. -/
def sortByLongestPrefix (waitingQueue : List ReqId) : List ReqId :=
  sortBy (fun a b => lexLe
    (env.temporaryDeprioritized a, if env.temporaryDeprioritized a then 0 else -(reqs a).prefixLen)
    (env.temporaryDeprioritized b, if env.temporaryDeprioritized b then 0 else -(reqs b).prefixLen))
    waitingQueue

/-- `_sort_by_longest_output`. -/
def sortByLongestOutput (enablePriorityScheduling : Bool) (prioritySign : ℤ)
    (waitingQueue : List ReqId) : List ReqId :=
  if enablePriorityScheduling then
    sortBy (fun a b => lexLe
      ((reqs a).priority.getD 0 * prioritySign, -(reqs a).maxNewTokens)
      ((reqs b).priority.getD 0 * prioritySign, -(reqs b).maxNewTokens)) waitingQueue
  else sortBy (fun a b => decide (-(reqs a).maxNewTokens ≤ -(reqs b).maxNewTokens)) waitingQueue

/-- `_sort_by_routing_key`: the keys that run most often first. -/
def sortByRoutingKey (runningBatch waitingQueue : List ReqId) : List ReqId :=
  -- an empty key counts as no key
  let keyOf (r : ReqId) : Option String := (reqs r).routingKey.filter (· ≠ "")
  let runningKeys := runningBatch.filterMap keyOf
  if runningKeys = [] then waitingQueue
  else
    let sortKey (r : ReqId) : Bool × ℤ × String :=
      match keyOf r with
      | some key => if runningKeys.contains key then (false, -(runningKeys.count key : ℤ), key)
        else (true, 0, key)
      | none => (true, 0, "")
    sortBy (fun a b => decide ((sortKey a).1 < (sortKey b).1) ||
      (decide ((sortKey a).1 = (sortKey b).1) && lexLe (sortKey a).2 (sortKey b).2)) waitingQueue

mutual

/-- `_calc_weight`: the requests at a node and below. -/
def calcWeight (reqsAt : NodeId → List ReqId) : PrefixTree → ℕ
  | .node id children => (reqsAt id).length + calcWeights reqsAt children

def calcWeights (reqsAt : NodeId → List ReqId) : List PrefixTree → ℕ
  | [] => 0
  | t :: ts => calcWeight reqsAt t + calcWeights reqsAt ts

end

mutual

/-- `_get_dfs_priority`: the heaviest child first, the node itself last. -/
def getDfsPriority (reqsAt : NodeId → List ReqId) : PrefixTree → List ReqId
  | .node id children =>
    (sortBy (fun a b => decide (b.1 ≤ a.1)) (dfsChildren reqsAt children)).flatMap Prod.snd
      ++ reqsAt id

def dfsChildren (reqsAt : NodeId → List ReqId) : List PrefixTree → List (ℕ × List ReqId)
  | [] => []
  | t :: ts => (calcWeight reqsAt t, getDfsPriority reqsAt t) :: dfsChildren reqsAt ts

end

/-- `_sort_by_dfs_weight`: the queue is emptied and filled again by the search. -/
def sortByDfsWeight (waitingQueue : List ReqId) : List ReqId :=
  getDfsPriority (fun id => waitingQueue.filter fun r => (reqs r).lastNode = id) env.tree

/-- `_compute_prefix_matches`, on the records of the requests. -/
def computePrefixMatches (waitingQueue : List ReqId) : ReqId → SchedReq := fun r =>
  if r ∈ waitingQueue then { reqs r with
    prefixLen := (env.computeMatch r).prefixLen
    hostHitLength := (env.computeMatch r).hostHitLength
    lastNode := (env.computeMatch r).lastNode }
  else reqs r

/-- `_determine_active_policy`. -/
def determineActivePolicy (policy : Policy) (waitingQueue : List ReqId) : Policy :=
  if policy = .lpm ∧ waitingQueue.length > 128 then .fcfs else policy

/-- `calc_priority`; the second component are the records after the lookups. -/
def calcPriority (policy : Policy) (enablePriorityScheduling : Bool) (prioritySign : ℤ)
    (runningBatch waitingQueue : List ReqId) : List ReqId × (ReqId → SchedReq) :=
  if policy = .fcfs then
    (if enablePriorityScheduling then sortByPriorityAndFcfs reqs prioritySign waitingQueue
      else waitingQueue, reqs)
  else
    match determineActivePolicy policy waitingQueue with
    | .lpm =>
      let reqs := computePrefixMatches env reqs waitingQueue
      (sortByLongestPrefix env reqs waitingQueue, reqs)
    | .dfsWeight =>
      let reqs := computePrefixMatches env reqs waitingQueue
      (sortByDfsWeight env reqs waitingQueue, reqs)
    | .fcfs => (waitingQueue, reqs)
    | .lof => (sortByLongestOutput reqs enablePriorityScheduling prioritySign waitingQueue, reqs)
    | .random => (env.shuffle waitingQueue, reqs)
    | .routingKey => (sortByRoutingKey reqs runningBatch waitingQueue, reqs)

/-! ## 2. The order loses no request -/

section Perm

variable {env : PassEnv} {reqs : ReqId → SchedReq} {reqsAt : NodeId → List ReqId}

theorem perm_sortBy {α : Type} (le : α → α → Bool) (l : List α) : (sortBy le l).Perm l :=
  mergeSort_perm _ _

mutual

theorem perm_getDfsPriority : ∀ t : PrefixTree,
    (getDfsPriority reqsAt t).Perm (t.nodes.flatMap reqsAt)
  | .node id children => by
    rw [getDfsPriority, PrefixTree.nodes, flatMap_cons]
    refine List.Perm.trans ?_ perm_append_comm
    refine List.Perm.append_right _ ?_
    exact ((perm_sortBy _ _).flatMap_right _).trans (perm_dfsChildren children)

theorem perm_dfsChildren : ∀ ts : List PrefixTree,
    ((dfsChildren reqsAt ts).flatMap Prod.snd).Perm ((PrefixTree.nodesOf ts).flatMap reqsAt)
  | [] => by simp [dfsChildren, PrefixTree.nodesOf]
  | t :: ts => by
    rw [dfsChildren, PrefixTree.nodesOf, flatMap_cons, flatMap_append]
    exact (perm_getDfsPriority t).append (perm_dfsChildren ts)

end

theorem perm_flatMap_filter (f : ReqId → NodeId) {nodes : List NodeId} (hnd : nodes.Nodup)
    {l : List ReqId} (hmem : ∀ r ∈ l, f r ∈ nodes) :
    (nodes.flatMap fun id => l.filter fun r => f r = id).Perm l := by
  induction nodes generalizing l with
  | nil =>
    cases l with
    | nil => simp
    | cons r l => exact absurd (hmem r mem_cons_self) (by simp)
  | cons id nodes ih =>
    rw [nodup_cons] at hnd
    have hrest : (nodes.flatMap fun i => l.filter fun r => f r = i)
        = nodes.flatMap fun i => (l.filter fun r => ¬ f r = id).filter fun r => f r = i := by
      refine flatMap_congr fun i hi => ?_
      rw [filter_filter]
      refine filter_congr fun r _ => ?_
      by_cases h : f r = i
      · have hne : i ≠ id := fun e => hnd.1 (e ▸ hi)
        simp [h, hne]
      · simp [h]
    have hih := ih hnd.2 (l := l.filter fun r => ¬ f r = id) (by
      intro r hr
      rw [mem_filter, decide_eq_true_eq] at hr
      exact (mem_cons.mp (hmem r hr.1)).resolve_left hr.2)
    rw [flatMap_cons, hrest]
    refine (hih.append_left _).trans ?_
    have := filter_append_perm (fun r => decide (f r = id)) l
    simpa using this

theorem lastNode_computePrefixMatches {r : ReqId} {waitingQueue : List ReqId}
    (hr : r ∈ waitingQueue) :
    (computePrefixMatches env reqs waitingQueue r).lastNode ∈ env.tree.nodes := by
  rw [computePrefixMatches, if_pos hr]
  exact env.lastNode_mem r

theorem perm_sortByDfsWeight {waitingQueue : List ReqId}
    (h : ∀ r ∈ waitingQueue, (reqs r).lastNode ∈ env.tree.nodes) :
    (sortByDfsWeight env reqs waitingQueue).Perm waitingQueue :=
  (perm_getDfsPriority env.tree).trans
    (perm_flatMap_filter (fun r => (reqs r).lastNode) env.nodup_tree h)

theorem perm_sortByRoutingKey (runningBatch waitingQueue : List ReqId) :
    (sortByRoutingKey reqs runningBatch waitingQueue).Perm waitingQueue := by
  unfold sortByRoutingKey
  simp only
  split
  · exact List.Perm.refl _
  · exact perm_sortBy _ _

/-- **Whatever the policy, the queue is reordered.** -/
theorem perm_calcPriority (policy : Policy) (enablePriorityScheduling : Bool) (prioritySign : ℤ)
    (runningBatch waitingQueue : List ReqId) :
    (calcPriority env reqs policy enablePriorityScheduling prioritySign runningBatch
      waitingQueue).1.Perm waitingQueue := by
  unfold calcPriority
  split
  · cases enablePriorityScheduling with
    | true => exact perm_sortBy _ _
    | false => exact List.Perm.refl _
  · cases determineActivePolicy policy waitingQueue with
    | lpm => exact perm_sortBy _ _
    | dfsWeight => exact perm_sortByDfsWeight fun r hr => lastNode_computePrefixMatches hr
    | fcfs => exact List.Perm.refl _
    | lof =>
      simp only [sortByLongestOutput]
      split <;> exact perm_sortBy _ _
    | random => exact env.perm_shuffle _
    | routingKey => exact perm_sortByRoutingKey _ _

end Perm

end SchedulePolicy

end Sglang
