/-
# The worker registry of the gateway

A transcription of `WorkerRegistry` (`worker_registry.rs`): the workers by id, and five indexes over
them, by url, by model, by worker type, by connection mode, and a hash ring for each model.  Every
operation updates the indexes one after the other.  A `DashMap` is the list of its entries; the id that
`WorkerId::new` draws is an input.  Health, metrics and the mesh are left out.

`Agrees` says that the indexes tell the same story as the map of the workers.  A registration keeps that
exactly when no worker is registered under its url (`agrees_register_iff`): the branch that finds a
worker there takes its id over, but adds to the indexes as if the worker were new, and leaves in place
what the old one had put there.
-/
import Sglang.Lib.AssocList
import Sglang.Gateway.HashRing

namespace Sglang

open Lib.AssocList List Option

/-! ## 1. The registry -/

/-- `WorkerType`. -/
inductive WorkerType where
  | regular
  | prefill (bootstrapPort : Option ℕ)
  | decode
deriving DecidableEq

/-- `ConnectionMode`. -/
inductive ConnectionMode where
  | http
  | grpc (port : Option ℕ)
deriving DecidableEq

/-- What the registry reads of a worker. -/
structure Worker where
  url : String
  modelId : String
  workerType : WorkerType
  connectionMode : ConnectionMode
deriving DecidableEq

/-- `WorkerId`. -/
abbrev WorkerId := String

/-- `WorkerRegistry`. -/
structure WorkerRegistry where
  workers : List (WorkerId × Worker)
  modelIndex : List (String × List Worker)
  hashRings : List (String × HashRing)
  typeWorkers : List (WorkerType × List WorkerId)
  connectionWorkers : List (ConnectionMode × List WorkerId)
  urlToId : List (String × WorkerId)

namespace WorkerRegistry

variable (blake3 : List UInt8 → List UInt8)

/-- `new`. -/
def new : WorkerRegistry := ⟨[], [], [], [], [], []⟩

/-- `rebuild_hash_ring`. -/
def rebuildHashRing (r : WorkerRegistry) (modelId : String) : WorkerRegistry :=
  match r.modelIndex.lookup modelId with
  | some workers =>
    { r with hashRings := setEntry modelId (HashRing.new blake3 (workers.map (·.url))) r.hashRings }
  | none => { r with hashRings := eraseEntry modelId r.hashRings }

@[simp] theorem rebuildHashRing_workers (r : WorkerRegistry) (m : String) :
    (r.rebuildHashRing blake3 m).workers = r.workers := by
  unfold rebuildHashRing
  split <;> rfl

@[simp] theorem rebuildHashRing_modelIndex (r : WorkerRegistry) (m : String) :
    (r.rebuildHashRing blake3 m).modelIndex = r.modelIndex := by
  unfold rebuildHashRing
  split <;> rfl

@[simp] theorem rebuildHashRing_typeWorkers (r : WorkerRegistry) (m : String) :
    (r.rebuildHashRing blake3 m).typeWorkers = r.typeWorkers := by
  unfold rebuildHashRing
  split <;> rfl

@[simp] theorem rebuildHashRing_connectionWorkers (r : WorkerRegistry) (m : String) :
    (r.rebuildHashRing blake3 m).connectionWorkers = r.connectionWorkers := by
  unfold rebuildHashRing
  split <;> rfl

@[simp] theorem rebuildHashRing_urlToId (r : WorkerRegistry) (m : String) :
    (r.rebuildHashRing blake3 m).urlToId = r.urlToId := by
  unfold rebuildHashRing
  split <;> rfl

/-- `entry(key).or_default().push(x)`. -/
def pushEntry {α β : Type} [DecidableEq α] (key : α) (x : β) (index : List (α × List β)) :
    List (α × List β) :=
  setEntry key ((index.lookup key).getD [] ++ [x]) index

/-- `if let Some(mut entry) = get_mut(key)`, with the entries of the list that stay. -/
def retainEntry {α β : Type} [DecidableEq α] (key : α) (keep : β → Bool)
    (index : List (α × List β)) : List (α × List β) :=
  match index.lookup key with
  | some l => setEntry key (l.filter keep) index
  | none => index

/-- The id a registration works with: "worker with this URL already exists, update it". -/
def idFor (r : WorkerRegistry) (fresh : WorkerId) (url : String) : WorkerId :=
  match r.urlToId.lookup url with
  | some existingId => existingId
  | none => fresh

/-- `register`; `fresh` is the id that `WorkerId::new` would draw. -/
def register (r : WorkerRegistry) (fresh : WorkerId) (worker : Worker) :
    WorkerId × WorkerRegistry :=
  let workerId := r.idFor fresh worker.url
  let r := { r with workers := setEntry workerId worker r.workers }
  let r := { r with urlToId := setEntry worker.url workerId r.urlToId }
  let r := { r with modelIndex := pushEntry worker.modelId worker r.modelIndex }
  let r := r.rebuildHashRing blake3 worker.modelId
  let r := { r with typeWorkers := pushEntry worker.workerType workerId r.typeWorkers }
  let r := { r with
    connectionWorkers := pushEntry worker.connectionMode workerId r.connectionWorkers }
  (workerId, r)

/-- `reserve_id_for_url`. -/
def reserveIdForUrl (r : WorkerRegistry) (fresh : WorkerId) (url : String) :
    WorkerId × WorkerRegistry :=
  match r.urlToId.lookup url with
  | some id => (id, r)
  | none => (fresh, { r with urlToId := setEntry url fresh r.urlToId })

/-- `remove`. -/
def remove (r : WorkerRegistry) (workerId : WorkerId) : Option Worker × WorkerRegistry :=
  match r.workers.lookup workerId with
  | some worker =>
    let r := { r with workers := eraseEntry workerId r.workers }
    let r := { r with urlToId := eraseEntry worker.url r.urlToId }
    let r := { r with
      modelIndex := retainEntry worker.modelId (fun w => decide (w.url ≠ worker.url)) r.modelIndex }
    let r := r.rebuildHashRing blake3 worker.modelId
    let r := { r with
      typeWorkers := retainEntry worker.workerType (fun id => decide (id ≠ workerId)) r.typeWorkers }
    let r := { r with
      connectionWorkers :=
        retainEntry worker.connectionMode (fun id => decide (id ≠ workerId)) r.connectionWorkers }
    (some worker, r)
  | none => (none, r)

/-- `remove_by_url`. -/
def removeByUrl (r : WorkerRegistry) (url : String) : Option Worker × WorkerRegistry :=
  match r.urlToId.lookup url with
  | some workerId => { r with urlToId := eraseEntry url r.urlToId }.remove blake3 workerId
  | none => (none, r)

/-- `get`. -/
def get (r : WorkerRegistry) (workerId : WorkerId) : Option Worker := r.workers.lookup workerId

/-- `get_by_url`. -/
def getByUrl (r : WorkerRegistry) (url : String) : Option Worker :=
  (r.urlToId.lookup url).bind r.get

/-- `get_by_model`. -/
def getByModel (r : WorkerRegistry) (modelId : String) : List Worker :=
  (r.modelIndex.lookup modelId).getD []

/-- `get_by_type`. -/
def getByType (r : WorkerRegistry) (workerType : WorkerType) : List Worker :=
  ((r.typeWorkers.lookup workerType).getD []).filterMap r.get

/-- `get_by_connection`. -/
def getByConnection (r : WorkerRegistry) (connectionMode : ConnectionMode) : List Worker :=
  ((r.connectionWorkers.lookup connectionMode).getD []).filterMap r.get

/-- `get_hash_ring`. -/
def getHashRing (r : WorkerRegistry) (modelId : String) : Option HashRing :=
  r.hashRings.lookup modelId

/-- `get_all`. -/
def getAll (r : WorkerRegistry) : List Worker := r.workers.map Prod.snd

/-! ## 2. Indexes -/

section Indexed

variable {α β ε : Type} [DecidableEq α] {key : ε → α} {val : ε → β} {index : List (α × List β)}
  {l l' : List ε} {e : ε}

/-- The index lists `val e` under `key e`, for each `e` of the list. -/
def Indexed (index : List (α × List β)) (key : ε → α) (val : ε → β) (l : List ε) : Prop :=
  ∀ k, ((index.lookup k).getD []).Perm ((l.filter fun e => key e = k).map val)

theorem Indexed.perm (h : Indexed index key val l) (hp : l.Perm l') : Indexed index key val l' :=
  fun k => (h k).trans ((hp.filter _).map val)

theorem Indexed.push (h : Indexed index key val l) (e : ε) :
    Indexed (pushEntry (key e) (val e) index) key val (e :: l) := by
  intro k
  rw [pushEntry, lookup_setEntry]
  by_cases hk : k = key e
  · subst hk
    rw [if_pos rfl, filter_cons, if_pos (by simp)]
    exact (perm_append_comm).trans ((h (key e)).cons (val e))
  · rw [if_neg hk, filter_cons, if_neg (by simpa using fun e' => hk e'.symm)]
    exact h k

/-- An entry that is dropped, when the test drops it and keeps the rest. -/
theorem Indexed.retain {keep : β → Bool} (h : Indexed index key val (e :: l))
    (he : keep (val e) = false) (hl : ∀ e' ∈ l, keep (val e') = true) :
    Indexed (retainEntry (key e) keep index) key val l := by
  intro k
  have hk := h k
  rw [filter_cons] at hk
  unfold retainEntry
  by_cases hke : k = key e
  · subst hke
    rw [if_pos (by simp), map_cons] at hk
    cases hlook : index.lookup (key e) with
    | none =>
      rw [hlook] at hk
      exact absurd hk.symm (cons_ne_nil _ _ ∘ List.Perm.eq_nil)
    | some L =>
      rw [hlook] at hk
      have hkept : (((l.filter fun e' => key e' = key e).map val).filter keep)
          = (l.filter fun e' => key e' = key e).map val := by
        rw [filter_eq_self]
        intro x hx
        obtain ⟨e', he', rfl⟩ := List.mem_map.mp hx
        exact hl e' (mem_of_mem_filter he')
      have hfil := hk.filter keep
      rw [filter_cons, if_neg (by simp [he]), hkept] at hfil
      rw [lookup_setEntry, if_pos rfl]
      exact hfil
  · rw [if_neg (by simpa using fun e' => hke e'.symm)] at hk
    cases hlook : index.lookup (key e) with
    | none => exact hk
    | some L =>
      rw [lookup_setEntry, if_neg hke]
      exact hk

end Indexed

/-! ## 3. Agreement -/

/-- **The indexes agree with the map of the workers**: each lists every worker once, under the model,
the type and the mode it has; urls lead to ids, and the rings are those of the models. -/
structure Agrees (r : WorkerRegistry) : Prop where
  byModel : ∀ modelId, (r.getByModel modelId).Perm (r.getAll.filter (·.modelId = modelId))
  byType : ∀ workerType, (r.getByType workerType).Perm (r.getAll.filter (·.workerType = workerType))
  byConnection : ∀ connectionMode,
    (r.getByConnection connectionMode).Perm (r.getAll.filter (·.connectionMode = connectionMode))
  byUrl : ∀ id worker, r.get id = some worker → r.urlToId.lookup worker.url = some id
  ring : ∀ modelId ring, r.getHashRing modelId = some ring →
    ∃ ws : List Worker, ws.Perm (r.getAll.filter (·.modelId = modelId)) ∧
      ring = HashRing.new blake3 (ws.map (·.url))
  hasRing : ∀ worker ∈ r.getAll, (r.getHashRing worker.modelId).isSome

/-- What the operations keep: the indexes as they are, and one url for each id. -/
structure Inv (r : WorkerRegistry) : Prop where
  nodup : (r.workers.map Prod.fst).Nodup
  byUrl : ∀ id worker, r.workers.lookup id = some worker → r.urlToId.lookup worker.url = some id
  url_inj : ∀ url url' id, r.urlToId.lookup url = some id → r.urlToId.lookup url' = some id →
    url = url'
  models : Indexed r.modelIndex (fun e : WorkerId × Worker => e.2.modelId) (·.2) r.workers
  types : Indexed r.typeWorkers (fun e : WorkerId × Worker => e.2.workerType) (·.1) r.workers
  connections : Indexed r.connectionWorkers (fun e : WorkerId × Worker => e.2.connectionMode) (·.1)
    r.workers
  rings : ∀ modelId, r.hashRings.lookup modelId
    = (r.modelIndex.lookup modelId).map fun ws => HashRing.new blake3 (ws.map (·.url))

/-- An id that is not in use. -/
def Fresh (r : WorkerRegistry) (id : WorkerId) : Prop :=
  r.get id = none ∧ ∀ url, r.urlToId.lookup url ≠ some id

section Keep

variable {blake3} {r : WorkerRegistry} {fresh id : WorkerId} {worker : Worker} {url : String}

/-- Ids of entries, looked up, are the workers of these entries. -/
theorem Inv.filterMap_get (h : Inv blake3 r) {p : WorkerId × Worker → Bool} :
    ((r.workers.filter p).map (·.1)).filterMap r.get = (r.workers.filter p).map (·.2) := by
  rw [filterMap_map]
  refine filterMap_eq_map_iff_forall_eq_some.mpr fun e he => ?_
  exact lookup_of_mem h.nodup (mem_of_mem_filter he)

theorem Inv.agrees (h : Inv blake3 r) : Agrees blake3 r := by
  have hfilter : ∀ p : Worker → Bool,
      r.getAll.filter p = (r.workers.filter fun e => p e.2).map (·.2) := by
    intro p
    rw [getAll, List.filter_map]
    rfl
  refine ⟨fun m => ?_, fun ty => ?_, fun mode => ?_, h.byUrl, fun m ring hring => ?_, ?_⟩
  · rw [hfilter]
    exact h.models m
  · rw [hfilter, ← h.filterMap_get]
    exact (h.types ty).filterMap r.get
  · rw [hfilter, ← h.filterMap_get]
    exact (h.connections mode).filterMap r.get
  · rw [getHashRing, h.rings, map_eq_some_iff] at hring
    obtain ⟨ws, hws, rfl⟩ := hring
    refine ⟨ws, ?_, rfl⟩
    have hm := h.models m
    rw [hws] at hm
    rw [hfilter]
    exact hm
  · intro w hw
    obtain ⟨e, he, rfl⟩ := List.mem_map.mp hw
    rw [getHashRing, h.rings]
    cases hlook : r.modelIndex.lookup e.2.modelId with
    | some ws => rfl
    | none =>
      have hm := h.models e.2.modelId
      rw [hlook] at hm
      have hmem : e.2 ∈ (r.workers.filter fun e' => e'.2.modelId = e.2.modelId).map (·.2) :=
        List.mem_map_of_mem (mem_filter.mpr ⟨he, by simp⟩)
      exact absurd (hm.mem_iff.mpr hmem) not_mem_nil

/-- The rings after a model index changed under one model. -/
theorem rings_rebuild {r : WorkerRegistry} {index : List (String × List Worker)} {modelId : String}
    (h : ∀ m, r.hashRings.lookup m
      = (index.lookup m).map fun ws => HashRing.new blake3 (ws.map (·.url)))
    (hsame : ∀ m, m ≠ modelId → r.modelIndex.lookup m = index.lookup m) (m : String) :
    (r.rebuildHashRing blake3 modelId).hashRings.lookup m
      = (r.modelIndex.lookup m).map fun ws => HashRing.new blake3 (ws.map (·.url)) := by
  unfold rebuildHashRing
  by_cases hm : m = modelId
  · subst hm
    cases hlook : r.modelIndex.lookup m with
    | none =>
      rw [lookup_eraseEntry, if_pos rfl]
      rfl
    | some ws =>
      rw [lookup_setEntry, if_pos rfl]
      rfl
  · rw [hsame m hm, ← h m]
    cases hlook : r.modelIndex.lookup modelId with
    | none =>
      rw [lookup_eraseEntry, if_neg hm]
    | some ws =>
      rw [lookup_setEntry, if_neg hm]

theorem lookup_idFor (hnew : r.getByUrl worker.url = none)
    (hf : r.Fresh fresh) : r.workers.lookup (r.idFor fresh worker.url) = none := by
  unfold idFor
  rw [getByUrl] at hnew
  cases hlook : r.urlToId.lookup worker.url with
  | none => exact hf.1
  | some id =>
    rw [hlook] at hnew
    exact hnew

/-- **A worker under a new url** goes into every index. -/
theorem Inv.register (h : Inv blake3 r) (hnew : r.getByUrl worker.url = none)
    (hf : r.Fresh fresh) : Inv blake3 (r.register blake3 fresh worker).2 := by
  have hid := lookup_idFor hnew hf
  have hother : ∀ url, url ≠ worker.url → r.urlToId.lookup url ≠ some (r.idFor fresh worker.url) := by
    intro url hne hlook
    unfold idFor at hlook
    cases hw : r.urlToId.lookup worker.url with
    | none =>
      rw [hw] at hlook
      exact hf.2 url hlook
    | some id =>
      rw [hw] at hlook
      exact hne (h.url_inj url worker.url id hlook hw)
  have hperm : ((r.idFor fresh worker.url, worker) :: r.workers).Perm
      (setEntry (r.idFor fresh worker.url) worker r.workers) := by
    have hp := setEntry_perm (c := r.idFor fresh worker.url) (m := worker) h.nodup
    rw [eraseEntry_of_notMem (lookup_eq_none_iff.mp hid)] at hp
    exact hp.symm
  refine ⟨?_, ?_, ?_, ?_, ?_, ?_, ?_⟩
  · simp only [WorkerRegistry.register, rebuildHashRing_workers]
    exact nodup_setEntry h.nodup
  · intro id w hlook
    simp only [WorkerRegistry.register, rebuildHashRing_workers, rebuildHashRing_urlToId] at hlook ⊢
    rw [lookup_setEntry] at hlook ⊢
    by_cases hid' : id = r.idFor fresh worker.url
    · rw [if_pos hid'] at hlook
      cases hlook
      rw [if_pos rfl, hid']
    · rw [if_neg hid'] at hlook
      have hw := h.byUrl id w hlook
      have hne : w.url ≠ worker.url := by
        intro e
        rw [e] at hw
        exact hid' (by rw [idFor, hw])
      rw [if_neg hne]
      exact hw
  · intro url url' id h1 h2
    simp only [WorkerRegistry.register, rebuildHashRing_urlToId] at h1 h2
    rw [lookup_setEntry] at h1 h2
    by_cases e1 : url = worker.url
    · by_cases e2 : url' = worker.url
      · rw [e1, e2]
      · rw [if_pos e1] at h1
        rw [if_neg e2, ← h1] at h2
        exact absurd h2 (hother url' e2)
    · by_cases e2 : url' = worker.url
      · rw [if_pos e2] at h2
        rw [if_neg e1, ← h2] at h1
        exact absurd h1 (hother url e1)
      · rw [if_neg e1] at h1
        rw [if_neg e2] at h2
        exact h.url_inj url url' id h1 h2
  · simp only [WorkerRegistry.register, rebuildHashRing_workers, rebuildHashRing_modelIndex]
    exact (h.models.push (r.idFor fresh worker.url, worker)).perm hperm
  · simp only [WorkerRegistry.register, rebuildHashRing_workers, rebuildHashRing_typeWorkers]
    exact (h.types.push (r.idFor fresh worker.url, worker)).perm hperm
  · simp only [WorkerRegistry.register, rebuildHashRing_workers, rebuildHashRing_connectionWorkers]
    exact (h.connections.push (r.idFor fresh worker.url, worker)).perm hperm
  · simp only [WorkerRegistry.register, rebuildHashRing_modelIndex]
    refine rings_rebuild h.rings fun m hm => ?_
    rw [pushEntry, lookup_setEntry, if_neg hm]

/-- **A worker under a url that has one** leaves the old one in the model index. -/
theorem not_agrees_register (h : Inv blake3 r) {old : Worker}
    (hold : r.getByUrl worker.url = some old) :
    ¬ Agrees blake3 (r.register blake3 fresh worker).2 := by
  intro ha
  rw [getByUrl, bind_eq_some_iff] at hold
  obtain ⟨id, hurl, hget⟩ := hold
  have hlen := (ha.byModel old.modelId).length_eq
  have hbefore := (h.models old.modelId).length_eq
  have hp := perm_of_lookup h.nodup hget
  have hp' := setEntry_perm (c := id) (m := worker) h.nodup
  rw [((hp.filter fun e => e.2.modelId = old.modelId).map _).length_eq, filter_cons,
    if_pos (by simp), map_cons] at hbefore
  simp only [getAll, getByModel, WorkerRegistry.register, idFor, hurl, rebuildHashRing_workers,
    rebuildHashRing_modelIndex, List.filter_map, Function.comp_def] at hlen
  rw [((hp'.filter _).map _).length_eq, filter_cons, pushEntry, lookup_setEntry] at hlen
  by_cases hm : worker.modelId = old.modelId
  · rw [if_pos (by simp [hm]), getD_some, length_append, hm, hbefore] at hlen
    simp at hlen
  · rw [if_neg (fun e => hm e.symm), if_neg (by simp [hm]), hbefore] at hlen
    simp at hlen

/-- **When a registration keeps the agreement.** -/
theorem agrees_register_iff (h : Inv blake3 r) (hf : r.Fresh fresh) :
    Agrees blake3 (r.register blake3 fresh worker).2 ↔ r.getByUrl worker.url = none := by
  constructor
  · intro ha
    cases hold : r.getByUrl worker.url with
    | none => rfl
    | some old => exact absurd ha (not_agrees_register h hold)
  · exact fun hnew => (h.register hnew hf).agrees

theorem Inv.reserveIdForUrl (h : Inv blake3 r) (hf : r.Fresh fresh) :
    Inv blake3 (r.reserveIdForUrl fresh url).2 := by
  unfold WorkerRegistry.reserveIdForUrl
  cases hlook : r.urlToId.lookup url with
  | some id => exact h
  | none =>
    refine ⟨h.nodup, fun id w hw => ?_, fun u u' id h1 h2 => ?_, h.models, h.types, h.connections,
      h.rings⟩
    · have hne : w.url ≠ url := by
        intro e
        have := h.byUrl id w hw
        rw [e, hlook] at this
        cases this
      show (setEntry url fresh r.urlToId).lookup w.url = some id
      rw [lookup_setEntry, if_neg hne]
      exact h.byUrl id w hw
    · change (setEntry url fresh r.urlToId).lookup u = some id at h1
      change (setEntry url fresh r.urlToId).lookup u' = some id at h2
      rw [lookup_setEntry] at h1 h2
      by_cases e1 : u = url
      · by_cases e2 : u' = url
        · rw [e1, e2]
        · rw [if_pos e1] at h1
          rw [if_neg e2, ← h1] at h2
          exact absurd h2 (hf.2 u')
      · by_cases e2 : u' = url
        · rw [if_pos e2] at h2
          rw [if_neg e1, ← h2] at h1
          exact absurd h1 (hf.2 u)
        · rw [if_neg e1] at h1
          rw [if_neg e2] at h2
          exact h.url_inj u u' id h1 h2

/-- **A worker that is removed** leaves every index. -/
theorem Inv.remove (h : Inv blake3 r) (id : WorkerId) : Inv blake3 (r.remove blake3 id).2 := by
  unfold WorkerRegistry.remove
  cases hget : r.workers.lookup id with
  | none => exact h
  | some worker =>
    have hp := perm_of_lookup h.nodup hget
    have hurl := h.byUrl id worker hget
    have hids : ∀ e ∈ eraseEntry id r.workers, decide (e.1 ≠ id) = true := fun e he =>
      (mem_filter.mp he).2
    have hurls : ∀ e ∈ eraseEntry id r.workers, decide (e.2.url ≠ worker.url) = true := by
      intro e he
      obtain ⟨hmem, hne⟩ := mem_filter.mp he
      have he' := h.byUrl e.1 e.2 (lookup_of_mem h.nodup hmem)
      refine decide_eq_true fun heq => ?_
      rw [heq, hurl] at he'
      exact of_decide_eq_true hne (Option.some.inj he').symm
    refine ⟨?_, ?_, ?_, ?_, ?_, ?_, ?_⟩
    · simp only [rebuildHashRing_workers]
      exact nodup_eraseEntry h.nodup
    · intro id' w hw
      simp only [rebuildHashRing_workers, rebuildHashRing_urlToId] at hw ⊢
      rw [lookup_eraseEntry] at hw ⊢
      split at hw
      · cases hw
      · rename_i hid
        have hw' := h.byUrl id' w hw
        rw [if_neg fun e => hid ?_]
        · exact hw'
        · rw [e, hurl] at hw'
          exact (Option.some.inj hw').symm
    · intro u u' id' h1 h2
      simp only [rebuildHashRing_urlToId] at h1 h2
      rw [lookup_eraseEntry] at h1 h2
      split at h1
      · cases h1
      · split at h2
        · cases h2
        · exact h.url_inj u u' id' h1 h2
    · simp only [rebuildHashRing_workers, rebuildHashRing_modelIndex]
      exact (h.models.perm hp).retain (by simp) hurls
    · simp only [rebuildHashRing_workers, rebuildHashRing_typeWorkers]
      exact (h.types.perm hp).retain (by simp) hids
    · simp only [rebuildHashRing_workers, rebuildHashRing_connectionWorkers]
      exact (h.connections.perm hp).retain (by simp) hids
    · simp only [rebuildHashRing_modelIndex]
      refine rings_rebuild h.rings fun m hm => ?_
      unfold retainEntry
      split
      · rw [lookup_setEntry, if_neg hm]
      · rfl

theorem Inv.removeByUrl (h : Inv blake3 r) (url : String) :
    Inv blake3 (r.removeByUrl blake3 url).2 := by
  unfold WorkerRegistry.removeByUrl
  cases hlook : r.urlToId.lookup url with
  | none => exact h
  | some id =>
    cases hget : r.workers.lookup id with
    | none =>
      have hnone : (WorkerRegistry.remove blake3 { r with urlToId := eraseEntry url r.urlToId } id).2
          = { r with urlToId := eraseEntry url r.urlToId } := by
        simp [WorkerRegistry.remove, hget]
      simp only [hnone]
      refine ⟨h.nodup, fun id' w hw => ?_, fun u u' id' h1 h2 => ?_, h.models, h.types,
        h.connections, h.rings⟩
      · have hw' := h.byUrl id' w hw
        show (eraseEntry url r.urlToId).lookup w.url = some id'
        rw [lookup_eraseEntry, if_neg]
        · exact hw'
        · intro e
          rw [e, hlook] at hw'
          cases hw'
          rw [hget] at hw
          cases hw
      · change (eraseEntry url r.urlToId).lookup u = some id' at h1
        change (eraseEntry url r.urlToId).lookup u' = some id' at h2
        rw [lookup_eraseEntry] at h1 h2
        split at h1
        · cases h1
        · split at h2
          · cases h2
          · exact h.url_inj u u' id' h1 h2
    | some worker =>
      have hurl : worker.url = url := h.url_inj _ _ id (h.byUrl id worker hget) hlook
      have htwice : eraseEntry worker.url (eraseEntry url r.urlToId)
          = eraseEntry worker.url r.urlToId := by
        rw [hurl, eraseEntry, eraseEntry]
        simp
      have hsame : WorkerRegistry.remove blake3 { r with urlToId := eraseEntry url r.urlToId } id
          = r.remove blake3 id := by
        simp [WorkerRegistry.remove, hget, htwice]
      simp only [hsame]
      exact h.remove id

end Keep

/-! ## 4. Runs -/

/-- A call of an operation that changes the registry, with the id that would be drawn. -/
inductive Call where
  | register (fresh : WorkerId) (worker : Worker)
  | reserveIdForUrl (fresh : WorkerId) (url : String)
  | remove (workerId : WorkerId)
  | removeByUrl (url : String)

/-- The registry after a call. -/
def Call.apply (r : WorkerRegistry) : Call → WorkerRegistry
  | .register fresh worker => (r.register blake3 fresh worker).2
  | .reserveIdForUrl fresh url => (r.reserveIdForUrl fresh url).2
  | .remove workerId => (r.remove blake3 workerId).2
  | .removeByUrl url => (r.removeByUrl blake3 url).2

/-- Ids are drawn unused. -/
def Call.DrawsFresh (r : WorkerRegistry) : Call → Prop
  | .register fresh _ => r.Fresh fresh
  | .reserveIdForUrl fresh _ => r.Fresh fresh
  | .remove _ => True
  | .removeByUrl _ => True

/-- A worker is registered only where `get_by_url` finds none. -/
def Call.Clear (r : WorkerRegistry) : Call → Prop
  | .register _ worker => r.getByUrl worker.url = none
  | _ => True

/-- The registries that calls allowed by `ok` lead to. -/
inductive Run (ok : WorkerRegistry → Call → Prop) : WorkerRegistry → Prop
  | new : Run ok WorkerRegistry.new
  | call {r : WorkerRegistry} (c : Call) : Run ok r → c.DrawsFresh r → ok r c →
    Run ok (c.apply blake3 r)

theorem inv_new : Inv blake3 new :=
  ⟨nodup_nil, nofun, nofun, fun _ => .nil, fun _ => .nil, fun _ => .nil, fun _ => rfl⟩

theorem Run.inv {blake3} {r : WorkerRegistry} (h : Run blake3 (fun r c => c.Clear r) r) :
    Inv blake3 r := by
  induction h with
  | new => exact inv_new blake3
  | call c _ hf hc ih =>
    cases c with
    | register fresh worker => exact ih.register hc hf
    | reserveIdForUrl fresh url => exact ih.reserveIdForUrl hf
    | remove workerId => exact ih.remove workerId
    | removeByUrl url => exact ih.removeByUrl url

/-- **The indexes of the registry agree** after every run in which no worker is registered under a url
that has one, and the next registration keeps it that way exactly under the same condition. -/
theorem indexes_agree_of_clear {r : WorkerRegistry} (h : Run blake3 (fun r c => c.Clear r) r) :
    Agrees blake3 r ∧ ∀ fresh worker, r.Fresh fresh →
      (Agrees blake3 (r.register blake3 fresh worker).2 ↔ r.getByUrl worker.url = none) :=
  ⟨h.inv.agrees, fun _ _ hf => agrees_register_iff h.inv hf⟩

/-- A worker and the same worker with another model, for the runs below. -/
def smallWorker (modelId : String) : Worker := ⟨"http://w1:8000", modelId, .regular, .http⟩

/-- The theorem on a run: a worker is registered, and registering it again would not do. -/
theorem indexes_agree_of_clear_small :
    Agrees (fun _ => []) (new.register (fun _ => []) "1" (smallWorker "llama")).2 ∧
      ¬ Agrees (fun _ => []) ((new.register (fun _ => []) "1" (smallWorker "llama")).2.register
        (fun _ => []) "2" (smallWorker "qwen")).2 := by
  have hrun : Run (fun _ => []) (fun r c => c.Clear r)
      ((Call.register "1" (smallWorker "llama")).apply (fun _ => []) new) :=
    .call _ .new ⟨rfl, nofun⟩ rfl
  have h := indexes_agree_of_clear (fun _ => []) hrun
  refine ⟨h.1, fun ha => ?_⟩
  have hf : WorkerRegistry.Fresh ((Call.register "1" (smallWorker "llama")).apply (fun _ => []) new)
      "2" := by
    refine ⟨by decide +kernel, fun url hlook => ?_⟩
    have hmem := mem_of_lookup hlook
    change (url, "2") ∈ [("http://w1:8000", "1")] at hmem
    simp at hmem
  have hnone := (h.2 "2" (smallWorker "qwen") hf).mp ha
  revert hnone
  decide +kernel

/-- **Registering a worker again breaks the indexes**: under another model it is listed twice. -/
theorem indexes_disagree_reregister :
    ∃ r, Run (fun _ => []) (fun _ _ => True) r ∧
      r.getAll = [smallWorker "qwen"] ∧ r.getByModel "llama" = [smallWorker "llama"] ∧
      r.getByModel "qwen" = [smallWorker "qwen"] ∧
      r.getByType .regular = [smallWorker "qwen", smallWorker "qwen"] ∧ ¬ Agrees (fun _ => []) r := by
  have hrun : Run (fun _ => []) (fun _ _ => True)
      ((Call.register "2" (smallWorker "qwen")).apply (fun _ => [])
        ((Call.register "1" (smallWorker "llama")).apply (fun _ => []) new)) := by
    refine .call _ (.call _ .new ⟨rfl, nofun⟩ trivial) ⟨by decide +kernel, fun url hlook => ?_⟩ trivial
    have hmem := mem_of_lookup hlook
    change (url, "2") ∈ [("http://w1:8000", "1")] at hmem
    simp at hmem
  refine ⟨_, hrun, by decide +kernel, by decide +kernel, by decide +kernel, by decide +kernel,
    fun ha => ?_⟩
  have hlen := (ha.byModel "llama").length_eq
  revert hlen
  decide +kernel

end WorkerRegistry

end Sglang
