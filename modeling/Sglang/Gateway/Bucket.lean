/-
# The buckets of the gateway

A transcription of `Bucket` (`bucket.rs`): every prefill worker of a model has a range of request
lengths, and the ranges are adjusted to the lengths of the last requests.  `add_prefill_url` and
`remove_prefill_url` are methods of `BucketPolicy` and stand here with what they do to the bucket of
the model.

`usize` are natural numbers, with the operations of a release build, which wrap (`wrap`, `wsub`) or
saturate where the source says so.  A `HashMap` is an association list with distinct keys; where the
order of its entries matters the statements quantify over it.  Times are nanoseconds.  The identifier
of a request is chosen by the caller in place of `Uuid::new_v4`.
-/
import Mathlib.Algebra.BigOperators.Group.List.Basic
import Mathlib.Algebra.Ring.Nat
import Mathlib.Data.List.AList

namespace Sglang

/-- A `HashMap` into `usize`. -/
abbrev LoadMap (K : Type) := AList (fun _ : K => ℕ)

/-- `usize::MAX`. -/
def usizeMax : ℕ := 2 ^ 64 - 1

/-- The value of a sum or product as `usize`. -/
def wrap (n : ℕ) : ℕ := n % 2 ^ 64

/-- Subtraction of `usize`. -/
def wsub (a b : ℕ) : ℕ := (a + 2 ^ 64 - b) % 2 ^ 64

/-- `SequencerRequest`. -/
structure SequencerRequest where
  id : ℕ
  charCnt : ℕ
  timestamp : ℕ
  prefillWorkerUrl : String

/-- `Boundary`; `range` is `[min, max]`. -/
structure Boundary where
  url : String
  min : ℕ
  max : ℕ
deriving DecidableEq

/-- `Bucket`. -/
structure Bucket where
  lMax : ℕ
  bucketCnt : ℕ
  prefillWorkerUrls : List String
  loadTotal : ℕ
  period : ℕ
  bucketLoad : ℕ
  boundary : List Boundary
  requestList : List SequencerRequest
  tReqLoads : LoadMap ℕ
  charsPerUrl : LoadMap String

namespace Bucket

/-! ## 1. Workers -/

/-- `Bucket::new`. -/
def new (period : ℕ) : Bucket where
  lMax := 4096
  bucketCnt := 0
  prefillWorkerUrls := []
  loadTotal := 0
  period := period
  bucketLoad := 0
  boundary := []
  requestList := []
  tReqLoads := ∅
  charsPerUrl := ∅

/-- The boundaries of `worker_cnt` workers that are `gap` apart. -/
def initBoundary (gap : ℕ) (urls : List String) : List Boundary :=
  urls.mapIdx fun i url => ⟨url, wrap (i * gap),
    if i = urls.length - 1 then usizeMax else wsub (wrap ((i + 1) * gap)) 1⟩

/-- `Bucket::init_prefill_worker_urls`. -/
def initPrefillWorkerUrls (B : Bucket) (urls : List String) : Bucket :=
  { B with
    bucketCnt := urls.length
    prefillWorkerUrls := urls
    charsPerUrl := urls.foldl (fun m url => m.insert url 0) ∅
    lMax := if urls.length = 0 then B.lMax else usizeMax
    boundary := if urls.length = 0 then [] else initBoundary (B.lMax / urls.length) urls }

/-- `add_prefill_url`. -/
def addPrefillUrl (B : Bucket) (url : String) : Bucket :=
  let urls := if url ∈ B.prefillWorkerUrls then B.prefillWorkerUrls else B.prefillWorkerUrls ++ [url]
  { B with
    prefillWorkerUrls := urls
    charsPerUrl := if url ∈ B.charsPerUrl then B.charsPerUrl else B.charsPerUrl.insert url 0
  }.initPrefillWorkerUrls urls

/-- `remove_prefill_url`. -/
def removePrefillUrl (B : Bucket) (url : String) : Bucket :=
  let urls := B.prefillWorkerUrls.filter (· ≠ url)
  let B := { B with
    prefillWorkerUrls := urls
    charsPerUrl := B.charsPerUrl.erase url
    bucketCnt := urls.length }
  if urls.length > 0 then B.initPrefillWorkerUrls urls else B

/-! ## 2. Requests -/

/-- Whether a request has left the time window; an error of `duration_since` counts as expired. -/
def expired (now period : ℕ) (req : SequencerRequest) : Bool :=
  decide (now < req.timestamp) || decide (now - req.timestamp > period * 1000000)

/-- A request is taken out of the counts. -/
def forget (B : Bucket) (req : SequencerRequest) : Bucket :=
  { B with
    tReqLoads := B.tReqLoads.erase req.id
    charsPerUrl := match B.charsPerUrl.lookup req.prefillWorkerUrl with
      | some count => B.charsPerUrl.insert req.prefillWorkerUrl (count - req.charCnt)
      | none => B.charsPerUrl }

/-- The loop that removes expired requests, and the load it removed. -/
def expireLoop (now : ℕ) : List SequencerRequest → Bucket → ℕ → Bucket × ℕ
  | [], B, removedLoad => ({ B with requestList := [] }, removedLoad)
  | req :: rest, B, removedLoad =>
    if expired now B.period req then
      expireLoop now rest (B.forget req) (wrap (removedLoad + req.charCnt))
    else ({ B with requestList := req :: rest }, removedLoad)

/-- The load of a request is added to the url it goes to. -/
def countRequest (B : Bucket) (charCnt : ℕ) (prefillUrl : String) : Bucket :=
  let count := wrap ((B.charsPerUrl.lookup prefillUrl).getD 0 + charCnt)
  { B with charsPerUrl := B.charsPerUrl.insert prefillUrl count }

/-- `post_process_request` at the time `now`. -/
def postProcessRequest (B : Bucket) (charCnt : ℕ) (prefillUrl : String) (now id : ℕ) : Bucket :=
  let (B, removedLoad) := expireLoop now B.requestList (B.countRequest charCnt prefillUrl) 0
  let loadTotal := B.loadTotal - removedLoad
  { B with
    tReqLoads := B.tReqLoads.insert id charCnt
    requestList := B.requestList ++ [⟨id, charCnt, now, prefillUrl⟩]
    loadTotal := Nat.min (loadTotal + charCnt) usizeMax }

/-- The loop of `find_boundary`. -/
def search (boundary : List Boundary) (charCount : ℕ) (left right : ℕ) : Option String :=
  if left < right then
    let mid := left + (right - left) / 2
    match boundary[mid]? with
    | none => none
    | some b =>
      if charCount < b.min then search boundary charCount left mid
      else if charCount > b.max then search boundary charCount (mid + 1) right
      else some b.url
  else none
termination_by right - left

/-- `find_boundary`. -/
def findBoundary (B : Bucket) (charCount : ℕ) : Option String :=
  search B.boundary charCount 0 B.boundary.length

/-! ## 3. Adjusting the boundaries -/

/-- `update_workers_cnt`. -/
def updateWorkersCnt (B : Bucket) : Bucket :=
  let added := B.prefillWorkerUrls.foldl
    (fun m url => if url ∈ m then m else m.insert url 0) B.charsPerUrl
  { B with
    bucketCnt := B.prefillWorkerUrls.length
    charsPerUrl := B.charsPerUrl.keys.foldl (fun m url =>
      if url ∉ B.prefillWorkerUrls ∧ m.lookup url = some 0 then m.erase url else m) added }

/-- The `for` loop over the rest of the histogram: the load at which a bucket is full, if there is
one, and the index of the last load that was looked at. -/
def takeLoads (singleLoad : ℕ) : List ℕ → ℕ → ℕ → Option ℕ × ℕ
  | [], _, lastLoadIndex => (none, lastLoadIndex)
  | load :: rest, loadAccumulator, lastLoadIndex =>
    if wrap (loadAccumulator + load) ≥ singleLoad then (some load, lastLoadIndex)
    else takeLoads singleLoad rest (wrap (loadAccumulator + load)) (lastLoadIndex + 1)

/-- The loop over the workers. -/
def adjustLoop (histLoad : List ℕ) (singleLoad : ℕ) : List String → ℕ → ℕ → List Boundary
  | [], _, _ => []
  | url :: rest, upperBound, lastLoadIndex =>
    if lastLoadIndex ≥ histLoad.length ∧ rest = [] then [⟨url, upperBound, usizeMax⟩]
    else
      match takeLoads singleLoad (histLoad.drop lastLoadIndex) 0 lastLoadIndex with
      | (some load, lastLoadIndex) =>
        if rest = [] then [⟨url, upperBound, usizeMax⟩]
        else
          let realLoad := wrap (upperBound + singleLoad)
          if load ≤ upperBound then
            ⟨url, upperBound, realLoad⟩ ::
              adjustLoop histLoad singleLoad rest (wrap (realLoad + 1)) (lastLoadIndex + 1)
          else
            ⟨url, upperBound, load⟩ ::
              adjustLoop histLoad singleLoad rest (wrap (load + 1)) (lastLoadIndex + 1)
      | (none, lastLoadIndex) =>
        if rest = [] then [⟨url, upperBound, usizeMax⟩]
        else
          let rightBoundValue := wrap (upperBound + singleLoad)
          ⟨url, upperBound, rightBoundValue⟩ ::
            adjustLoop histLoad singleLoad rest (wrap (rightBoundValue + 1)) lastLoadIndex

/-- The loads of the window, sorted. -/
def histLoad (B : Bucket) : List ℕ :=
  (B.tReqLoads.entries.map Sigma.snd).mergeSort fun a b => decide (a ≤ b)

/-- `adjust_boundary`. -/
def adjustBoundary (B : Bucket) : Bucket :=
  if B.tReqLoads.entries = [] then B
  else
    let B := B.updateWorkersCnt
    if B.bucketCnt = 0 then B
    else
      let newSingleBucketLoad := B.loadTotal / B.bucketCnt
      if newSingleBucketLoad ≤ wrap (2 * B.bucketLoad) ∧
          (B.bucketLoad ≤ wrap (2 * newSingleBucketLoad) ∧ B.bucketLoad ≠ 0) then B
      else { B with
        bucketLoad := newSingleBucketLoad
        boundary := adjustLoop B.histLoad newSingleBucketLoad B.prefillWorkerUrls 0 0 }

/-! ## 4. Runs -/

/-- What happens to a bucket. -/
inductive Op
  | init (urls : List String)
  | add (url : String)
  | remove (url : String)
  | post (charCnt : ℕ) (url : String) (now id : ℕ)
  | adjust

/-- The bucket after an operation. -/
def step (B : Bucket) : Op → Bucket
  | .init urls => B.initPrefillWorkerUrls urls
  | .add url => B.addPrefillUrl url
  | .remove url => B.removePrefillUrl url
  | .post charCnt url now id => B.postProcessRequest charCnt url now id
  | .adjust => B.adjustBoundary

/-- The bucket after a sequence of operations. -/
def run (B : Bucket) (ops : List Op) : Bucket := ops.foldl step B

/-- Every operation of the sequence meets the condition in the state before it. -/
def Meets (P : Bucket → Op → Prop) : Bucket → List Op → Prop
  | _, [] => True
  | B, op :: ops => P B op ∧ Meets P (B.step op) ops

/-- **The rule of runs**: what every step that meets the condition preserves holds after a run. -/
theorem run_induction {P : Bucket → Op → Prop} {I : Bucket → Prop}
    (hstep : ∀ B op, P B op → I B → I (B.step op)) :
    ∀ (ops : List Op) (B : Bucket), I B → Meets P B ops → I (B.run ops)
  | [], _, hI, _ => hI
  | op :: ops, B, hI, hmeets =>
    run_induction hstep ops (B.step op) (hstep B op hmeets.1 hI) hmeets.2

end Bucket

end Sglang
