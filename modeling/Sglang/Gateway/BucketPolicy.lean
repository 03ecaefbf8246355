/-
# Routing by buckets

A transcription of `BucketPolicy::select_worker` (`bucket.rs`).  The policy chooses a url: the one
whose range contains the length of the request, or the least loaded one if the loads are too
different.  Neither the ranges nor the loads know about the health of a worker.  `Candidate` are the
urls that can be chosen, and a healthy worker is selected exactly if each of them leads to one.

The random index and the order in which a `HashMap` is read are choices of the environment.  The
comparison of loads in floating point is a parameter of the policy.
-/
import Sglang.Gateway.BucketBoundary

namespace Sglang

open List

/-- A `Worker`, as the policy sees it. -/
structure GatewayWorker where
  url : String
  modelId : String
  isHealthy : Bool
  canExecute : Bool

/-- The test of `get_healthy_worker_indices`. -/
def GatewayWorker.healthy (w : GatewayWorker) : Bool := w.isHealthy && w.canExecute

/-- `BucketPolicy`.  `exceedsRel max min` is `max as f32 > balance_rel_threshold * min as f32`, and
`unknownModelId` the constant of that name, which a library defines. -/
structure BucketPolicy where
  unknownModelId : String
  balanceAbsThreshold : ℕ
  exceedsRel : ℕ → ℕ → Bool
  buckets : String → Option Bucket

/-- The choices that the policy does not make: `random_range(0..n)` for `n > 0`, the order of the
entries of a map, the time and the identifier of the request. -/
structure RouteEnv where
  randomIndex : ℕ → ℕ
  mapOrder : List (Sigma fun _ : String => ℕ) → List (Sigma fun _ : String => ℕ)
  now : ℕ
  id : ℕ
  randomIndex_lt : ∀ n, 0 < n → randomIndex n < n
  perm_mapOrder : ∀ l, (mapOrder l).Perm l

namespace BucketPolicy

/-! ## 1. `select_worker` -/

/-- `normalize_model_key`. -/
def normalizeModelKey (P : BucketPolicy) (modelId : String) : String :=
  if modelId = "" then P.unknownModelId else modelId

/-- `get_healthy_worker_indices`. -/
def getHealthyWorkerIndices (workers : List GatewayWorker) : List ℕ :=
  (workers.zipIdx.filter fun w => w.1.healthy).map Prod.snd

/-- The url at an index of the workers. -/
def urlAt (workers : List GatewayWorker) (i : ℕ) : String := (workers[i]?.map GatewayWorker.url).getD ""

/-- `iter().min_by_key(..)`: the first of the entries with the smallest value. -/
def minByKey : List (Sigma fun _ : String => ℕ) → Option String
  | [] => none
  | e :: rest => some (rest.foldl (fun best x => if x.2 < best.2 then x else best) e).1

/-- The largest load. -/
def maxLoad (chars : LoadMap String) : ℕ := (chars.entries.map Sigma.snd).max?.getD 0

/-- The smallest load. -/
def minLoad (chars : LoadMap String) : ℕ := (chars.entries.map Sigma.snd).min?.getD 0

/-- `is_imbalanced`. -/
def isImbalanced (P : BucketPolicy) (chars : LoadMap String) : Bool :=
  decide (maxLoad chars - minLoad chars > P.balanceAbsThreshold) &&
    P.exceedsRel (maxLoad chars) (minLoad chars)

/-- The url of a healthy worker, chosen at random. -/
def randomUrl (env : RouteEnv) (workers : List GatewayWorker) : String :=
  let healthyIndices := getHealthyWorkerIndices workers
  urlAt workers (healthyIndices.getD (env.randomIndex healthyIndices.length) 0)

/-- The url that is chosen with the bucket of the model. -/
def chooseUrl (P : BucketPolicy) (env : RouteEnv) (workers : List GatewayWorker) (B : Bucket)
    (charCount : ℕ) : String :=
  if P.isImbalanced B.charsPerUrl then
    (minByKey (env.mapOrder B.charsPerUrl.entries)).getD (randomUrl env workers)
  else
    match B.findBoundary charCount with
    | some url => if url ≠ "" then url else randomUrl env workers
    | none => randomUrl env workers

/-- The model of the slice: that of its first healthy worker. -/
def modelKey (P : BucketPolicy) (workers : List GatewayWorker) : String :=
  P.normalizeModelKey ((workers[(getHealthyWorkerIndices workers).headD 0]?.map
    GatewayWorker.modelId).getD "")

/-- The url that is chosen. -/
def prefillUrl (P : BucketPolicy) (env : RouteEnv) (workers : List GatewayWorker) (charCount : ℕ) :
    String :=
  match P.buckets (P.modelKey workers) with
  | some B => P.chooseUrl env workers B charCount
  | none => randomUrl env workers

/-- `select_worker`, with the policy afterwards. -/
def selectWorker (P : BucketPolicy) (env : RouteEnv) (workers : List GatewayWorker)
    (requestText : Option String) : Option ℕ × BucketPolicy :=
  if getHealthyWorkerIndices workers = [] then (none, P)
  else
    let charCount := (requestText.map String.length).getD 0
    let url := P.prefillUrl env workers charCount
    (workers.findIdx? fun w => w.url = url, { P with
      buckets := Function.update P.buckets (P.modelKey workers)
        ((P.buckets (P.modelKey workers)).map fun B =>
          B.postProcessRequest charCount url env.now env.id) })

/-! ## 2. The urls that can be chosen -/

variable {P : BucketPolicy} {workers : List GatewayWorker} {B : Bucket} {url : String} {c : ℕ}

/-- The url of a healthy worker. -/
def HealthyUrl (workers : List GatewayWorker) (url : String) : Prop :=
  ∃ w ∈ workers, w.healthy = true ∧ w.url = url

/-- A least loaded url. -/
def LeastLoaded (chars : LoadMap String) (url : String) : Prop :=
  ∃ n, chars.lookup url = some n ∧ ∀ url' m, chars.lookup url' = some m → n ≤ m

/-- The urls that the policy can choose for a request of length `c`. -/
def Candidate (P : BucketPolicy) (workers : List GatewayWorker) (c : ℕ) (url : String) : Prop :=
  match P.buckets (P.modelKey workers) with
  | none => HealthyUrl workers url
  | some B =>
    if P.isImbalanced B.charsPerUrl then LeastLoaded B.charsPerUrl url
    else
      match B.findBoundary c with
      | none => HealthyUrl workers url
      | some url' => if url' = "" then HealthyUrl workers url else url = url'

/-- The first worker of the slice with this url is there and healthy. -/
def LeadsToHealthy (workers : List GatewayWorker) (url : String) : Prop :=
  ∃ i w, workers.findIdx? (fun w => w.url = url) = some i ∧ workers[i]? = some w ∧
    w.healthy = true

/-! ## 3. Every candidate is chosen in some environment, and nothing else -/

theorem mem_getHealthyWorkerIndices {i : ℕ} : i ∈ getHealthyWorkerIndices workers ↔
    ∃ w, workers[i]? = some w ∧ w.healthy = true := by
  simp only [getHealthyWorkerIndices, mem_map, mem_filter, Prod.exists, mem_zipIdx_iff_getElem?]
  constructor
  · rintro ⟨w, j, ⟨hw, hh⟩, rfl⟩
    exact ⟨w, hw, hh⟩
  · rintro ⟨w, hw, hh⟩
    exact ⟨w, i, ⟨hw, hh⟩, rfl⟩

theorem getHealthyWorkerIndices_ne_nil (h : ∃ w ∈ workers, w.healthy = true) :
    getHealthyWorkerIndices workers ≠ [] := by
  obtain ⟨w, hw, hh⟩ := h
  obtain ⟨i, hi⟩ := getElem?_of_mem hw
  exact ne_nil_of_mem (mem_getHealthyWorkerIndices.mpr ⟨w, hi, hh⟩)

theorem healthyUrl_randomUrl (env : RouteEnv) (h : ∃ w ∈ workers, w.healthy = true) :
    HealthyUrl workers (randomUrl env workers) := by
  have hlt := env.randomIndex_lt _ (length_pos_iff.mpr (getHealthyWorkerIndices_ne_nil h))
  have hmem : (getHealthyWorkerIndices workers).getD
      (env.randomIndex (getHealthyWorkerIndices workers).length) 0
        ∈ getHealthyWorkerIndices workers := by
    rw [getD_eq_getElem?_getD, getElem?_eq_getElem hlt]
    exact getElem_mem hlt
  obtain ⟨w, hw, hh⟩ := mem_getHealthyWorkerIndices.mp hmem
  refine ⟨w, mem_of_getElem? hw, hh, ?_⟩
  rw [randomUrl, urlAt, hw]
  rfl

/-- Any healthy worker can be the random one, and any entry of a map the first. -/
theorem exists_env (e : Sigma fun _ : String => ℕ) (hurl : HealthyUrl workers url) :
    ∃ env : RouteEnv, randomUrl env workers = url ∧
      ∀ l, e ∈ l → env.mapOrder l = e :: l.erase e := by
  obtain ⟨w, hw, hh, rfl⟩ := hurl
  obtain ⟨i, hi⟩ := getElem?_of_mem hw
  obtain ⟨k, hk⟩ := getElem?_of_mem (mem_getHealthyWorkerIndices.mpr ⟨w, hi, hh⟩)
  have hklt := (List.getElem?_eq_some_iff.mp hk).1
  refine ⟨{
    randomIndex := fun n => if n = (getHealthyWorkerIndices workers).length then k else 0
    mapOrder := fun l => if e ∈ l then e :: l.erase e else l
    now := 0
    id := 0
    randomIndex_lt := fun n hn => ?_
    perm_mapOrder := fun l => ?_ }, ?_, ?_⟩
  · split
    · rename_i h
      rw [h]
      exact hklt
    · exact hn
  · split
    · rename_i he
      exact (perm_cons_erase he).symm
    · exact List.Perm.refl l
  · simp [randomUrl, hk, urlAt, hi]
  · exact fun l he => if_pos he

/-- The scan for the smallest entry. -/
theorem foldl_min (l : List (Sigma fun _ : String => ℕ)) : ∀ e : Sigma fun _ : String => ℕ,
    l.foldl (fun best x => if x.2 < best.2 then x else best) e ∈ e :: l ∧
    (∀ x ∈ e :: l, (l.foldl (fun best x => if x.2 < best.2 then x else best) e).2 ≤ x.2) ∧
    ((∀ x ∈ l, e.2 ≤ x.2) → l.foldl (fun best x => if x.2 < best.2 then x else best) e = e) := by
  induction l with
  | nil => exact fun e => ⟨mem_singleton_self e, by simp, fun _ => rfl⟩
  | cons y l ih =>
    intro e
    rw [foldl_cons]
    split
    · rename_i hlt
      obtain ⟨h₁, h₂, -⟩ := ih y
      refine ⟨mem_cons_of_mem _ h₁, fun x hx => ?_, fun hle => ?_⟩
      · rcases mem_cons.mp hx with rfl | hx
        · exact (h₂ y mem_cons_self).trans hlt.le
        · exact h₂ x hx
      · exact absurd (hle y mem_cons_self) (by omega)
    · rename_i hge
      obtain ⟨h₁, h₂, h₃⟩ := ih e
      refine ⟨?_, fun x hx => ?_, fun hle => h₃ fun x hx => hle x (mem_cons_of_mem _ hx)⟩
      · rcases mem_cons.mp h₁ with h | h
        · rw [h]
          exact mem_cons_self
        · exact mem_cons_of_mem _ (mem_cons_of_mem _ h)
      · have hself := h₂ e mem_cons_self
        rcases mem_cons.mp hx with rfl | hx
        · exact hself
        · rcases mem_cons.mp hx with rfl | hx
          · omega
          · exact h₂ x (mem_cons_of_mem _ hx)

theorem mem_entries_iff {chars : LoadMap String} {n : ℕ} :
    (⟨url, n⟩ : Sigma fun _ : String => ℕ) ∈ chars.entries ↔ chars.lookup url = some n :=
  AList.mem_lookup_iff.symm

theorem leastLoaded_minByKey {chars : LoadMap String} {l : List (Sigma fun _ : String => ℕ)}
    (hl : l.Perm chars.entries) (h : minByKey l = some url) : LeastLoaded chars url := by
  cases l with
  | nil => cases h
  | cons e rest =>
    obtain ⟨h₁, h₂, -⟩ := foldl_min rest e
    rw [minByKey] at h
    generalize rest.foldl (fun best x => if x.2 < best.2 then x else best) e = best at h h₁ h₂
    obtain ⟨u, n⟩ := best
    cases h
    refine ⟨n, mem_entries_iff.mp (hl.mem_iff.mp h₁), fun url' m hm => ?_⟩
    exact h₂ ⟨url', m⟩ (hl.mem_iff.mpr (mem_entries_iff.mpr hm))

theorem minByKey_isSome (env : RouteEnv) {chars : LoadMap String}
    (h : P.isImbalanced chars = true) :
    ∃ url, minByKey (env.mapOrder chars.entries) = some url := by
  cases hl : env.mapOrder chars.entries with
  | nil =>
    have hnil : chars.entries = [] := perm_nil.mp (hl ▸ (env.perm_mapOrder chars.entries).symm)
    rw [isImbalanced, maxLoad, hnil, Bool.and_eq_true] at h
    simp at h
  | cons e rest => exact ⟨_, rfl⟩

theorem candidate_prefillUrl (env : RouteEnv) (h : ∃ w ∈ workers, w.healthy = true) :
    P.Candidate workers c (P.prefillUrl env workers c) := by
  have hrandom := healthyUrl_randomUrl env h
  unfold Candidate prefillUrl
  cases P.buckets (P.modelKey workers) with
  | none => exact hrandom
  | some B =>
    simp only [chooseUrl]
    split
    · rename_i himb
      obtain ⟨url, hurl⟩ := minByKey_isSome env himb
      rw [hurl]
      exact leastLoaded_minByKey (env.perm_mapOrder _) hurl
    · cases B.findBoundary c with
      | none => exact hrandom
      | some url' =>
        by_cases hu : url' = ""
        · simp only [hu, if_true, ne_eq, not_true_eq_false, if_false]
          exact hrandom
        · simp [hu]

theorem exists_env_of_candidate (h : ∃ w ∈ workers, w.healthy = true)
    (hurl : P.Candidate workers c url) : ∃ env, P.prefillUrl env workers c = url := by
  obtain ⟨w, hw, hh⟩ := h
  have hany : HealthyUrl workers w.url := ⟨w, hw, hh, rfl⟩
  unfold Candidate at hurl
  unfold prefillUrl
  cases hB : P.buckets (P.modelKey workers) with
  | none =>
    rw [hB] at hurl
    obtain ⟨env, henv, -⟩ := exists_env ⟨"", 0⟩ hurl
    exact ⟨env, henv⟩
  | some B =>
    rw [hB] at hurl
    simp only [chooseUrl] at hurl ⊢
    by_cases himb : P.isImbalanced B.charsPerUrl = true
    · rw [if_pos himb] at hurl
      obtain ⟨n, hn, hle⟩ := hurl
      obtain ⟨env, -, horder⟩ := exists_env ⟨url, n⟩ hany
      have hmem := mem_entries_iff.mpr hn
      refine ⟨env, ?_⟩
      -- the entry of `url` is read first, and none is smaller
      rw [if_pos himb, horder _ hmem, minByKey, Option.getD_some, (foldl_min _ _).2.2]
      rintro ⟨url', m⟩ hx
      exact hle url' m (mem_entries_iff.mp (mem_of_mem_erase hx))
    · rw [if_neg himb] at hurl
      simp only [if_neg himb]
      cases hf : B.findBoundary c with
      | none =>
        rw [hf] at hurl
        obtain ⟨env, henv, -⟩ := exists_env ⟨"", 0⟩ hurl
        exact ⟨env, henv⟩
      | some url' =>
        rw [hf] at hurl
        simp only at hurl ⊢
        by_cases hu : url' = ""
        · rw [if_pos hu] at hurl
          obtain ⟨env, henv, -⟩ := exists_env ⟨"", 0⟩ hurl
          exact ⟨env, by rw [if_neg (by simpa using hu), henv]⟩
        · rw [if_neg hu] at hurl
          obtain ⟨env, -, -⟩ := exists_env ⟨"", 0⟩ hany
          exact ⟨env, by rw [if_pos hu, hurl]⟩

/-- **A healthy worker is selected** whatever the environment chooses, exactly if every url that
the policy can choose leads to one. -/
theorem selectWorker_healthy_iff (P : BucketPolicy) (requestText : Option String)
    (h : ∃ w ∈ workers, w.healthy = true) :
    (∀ env, ∃ i w, (P.selectWorker env workers requestText).1 = some i ∧ workers[i]? = some w ∧
      w.healthy = true) ↔
    ∀ url, P.Candidate workers ((requestText.map String.length).getD 0) url →
      LeadsToHealthy workers url := by
  have hselect : ∀ env, (P.selectWorker env workers requestText).1 = workers.findIdx?
      fun w => w.url = P.prefillUrl env workers ((requestText.map String.length).getD 0) := by
    intro env
    rw [selectWorker, if_neg (getHealthyWorkerIndices_ne_nil h)]
  constructor
  · intro hall url hurl
    obtain ⟨env, rfl⟩ := exists_env_of_candidate h hurl
    obtain ⟨i, w, hi, hw⟩ := hall env
    exact ⟨i, w, (hselect env) ▸ hi, hw⟩
  · intro hall env
    obtain ⟨i, w, hi, hw⟩ := hall _ (candidate_prefillUrl env h)
    exact ⟨i, w, (hselect env).trans hi, hw⟩

section Example

/-- A policy that knows the workers `a` and `b` of one model. -/
def twoWorkerPolicy : BucketPolicy where
  unknownModelId := "unknown"
  balanceAbsThreshold := 32
  exceedsRel := fun max min => decide (max > min)
  buckets := fun _ => some ((Bucket.new 10000).run [.init ["a", "b"]])

/-- The workers `a`, of the given health, and `b`. -/
def twoWorkers (health : Bool) : List GatewayWorker :=
  [⟨"a", "m", health, true⟩, ⟨"b", "m", true, true⟩]

theorem findBoundary_two : ((Bucket.new 10000).run [.init ["a", "b"]]).findBoundary 0 = some "a" := by
  have hboundary : ((Bucket.new 10000).run [.init ["a", "b"]]).boundary
      = [⟨"a", 0, 2047⟩, ⟨"b", 2048, usizeMax⟩] := by decide
  rw [Bucket.findBoundary, hboundary, Bucket.search]
  simp only [length_cons, length_nil]
  rw [Bucket.search]
  rfl

theorem candidate_of_balanced {url' : String} (hB : P.buckets (P.modelKey workers) = some B)
    (hbal : P.isImbalanced B.charsPerUrl = false) (hf : B.findBoundary c = some url')
    (hne : url' ≠ "") : P.Candidate workers c url ↔ url = url' := by
  unfold Candidate
  rw [hB]
  simp only
  rw [if_neg (by simp [hbal]), hf]
  simp [if_neg hne]

theorem candidate_two (workers : List GatewayWorker) (url : String) :
    twoWorkerPolicy.Candidate workers 0 url ↔ url = "a" :=
  candidate_of_balanced rfl (by decide) findBoundary_two (by decide)

/-- Both workers are healthy. -/
theorem selectWorker_healthy_two : (∃ w ∈ twoWorkers true, w.healthy = true) ∧
    ∀ env, ∃ i w, (twoWorkerPolicy.selectWorker env (twoWorkers true) none).1 = some i ∧
      (twoWorkers true)[i]? = some w ∧ w.healthy = true := by
  have h : ∃ w ∈ twoWorkers true, w.healthy = true := ⟨⟨"a", "m", true, true⟩, by simp [twoWorkers], rfl⟩
  refine ⟨h, (selectWorker_healthy_iff twoWorkerPolicy none h).mpr fun url hurl => ?_⟩
  rw [(candidate_two _ url).mp hurl]
  exact ⟨0, ⟨"a", "m", true, true⟩, by decide, rfl, rfl⟩

/-- `b` is healthy, and the range of `a`, which is not, contains the length of the request. -/
theorem selectWorker_unhealthy : (∃ w ∈ twoWorkers false, w.healthy = true) ∧
    ∀ env, ∃ w, (twoWorkerPolicy.selectWorker env (twoWorkers false) none).1 = some 0 ∧
      (twoWorkers false)[0]? = some w ∧ w.healthy = false := by
  refine ⟨⟨⟨"b", "m", true, true⟩, by simp [twoWorkers], rfl⟩,
    fun env => ⟨⟨"a", "m", false, true⟩, ?_, rfl, rfl⟩⟩
  have hurl : twoWorkerPolicy.prefillUrl env (twoWorkers false) 0 = "a" :=
    (candidate_two _ _).mp (candidate_prefillUrl env ⟨⟨"b", "m", true, true⟩, by simp [twoWorkers],
      rfl⟩)
  have hne : getHealthyWorkerIndices (twoWorkers false) ≠ [] := by decide
  rw [selectWorker]
  simp only [Option.map_none, Option.getD_none, hurl]
  rfl

end Example

end BucketPolicy

end Sglang
