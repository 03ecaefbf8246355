/-
# The registry of adapters

A transcription of `LoRARegistry` of `lora_registry.py`, with the locks of `aio_rwlock.py` and the counters of
`common.py` that it uses, as coroutines of one event loop: a task runs from one `await` to the next, and any
task may be resumed then.  The calls are `register`, `acquire`, `release`, and `unregister` followed by
`wait_for_unload`, as the tokenizer manager makes them.

`acquire` looks an identifier up under the writer lock and counts its use after it has left the lock.  An
unload that returns in between is the only thing that goes wrong (`safe_iff`).

The identifiers are numbered as they are registered, and a counter is named by its identifier.  Paths and
pins of adapters, the order that `lru_lora_name` reads, and cancellation are not modelled.
-/
import Sglang.Lib.UseCount
import Sglang.Lib.AssocList

namespace Sglang

open Lib Lib.UseCount

namespace Lora

/-! ## 1. Tasks -/

/-- A name or a list of names, in which `None` may stand. -/
inductive OneOrMany (α : Type)
  | one (a : α)
  | many (l : List (Option α))

def OneOrMany.toList {α : Type} : OneOrMany α → List (Option α)
  | .one a => [some a]
  | .many l => l

/-- What is done under the writer lock. -/
inductive WriterCall (Name : Type)
  | acquire (loraName : OneOrMany Name)
  | unregister (loraName : Name)
  | register (loraName : Name)

/-- How it ends. -/
inductive Outcome
  | found (loraIds : List (Option ℕ))
  | unregistered (loraId : ℕ)
  | registered
  | valueError

/-- Where a task stands.  `done` has returned or raised the `ValueError` of an unknown name; `keyError` is an
`acquire` or a `release` that did not find a counter. -/
inductive Task (Name : Type)
  | enter (call : WriterCall Name)
  | waiting (call : WriterCall Name)
  | writing (call : WriterCall Name)
  | leaving (outcome : Outcome)
  | looked (loraIds : List (Option ℕ))
  | counting (counted pending : List ℕ)
  | releasing (loraIds : List (Option ℕ))
  | reading (loraIds : List (Option ℕ))
  | uncounting (pending : List ℕ)
  | unregistered (loraId : ℕ)
  | draining (loraId : ℕ)
  | done
  | keyError
  | assertionError

/-- The registry with its lock.  `held` are the identifiers that `acquire` has returned and that `release` has
not been called with, `unloaded` those whose `wait_for_unload` has returned. -/
structure LoRARegistry (Name : Type) where
  readers : ℕ := 0
  writerActive : Bool := false
  waitingWriters : ℕ := 0
  registry : List (Name × ℕ) := []
  counters : List ℕ := []
  count : ℕ → ℤ := fun _ => 0
  nextId : ℕ := 0
  held : List ℕ := []
  unloaded : List ℕ := []

variable {Name : Type} [DecidableEq Name]

/-! ## 2. Under the writer lock -/

/-- `_lookup` of every name in turn: the entry that is found moves to the end.  An unknown name is a
`ValueError`. -/
def lookupAll : List (Name × ℕ) → List (Option Name) → List (Name × ℕ) × Option (List (Option ℕ))
  | registry, [] => (registry, some [])
  | registry, none :: names =>
    let rest := lookupAll registry names
    (rest.1, rest.2.map (none :: ·))
  | registry, some name :: names =>
    match registry.lookup name with
    | none => (registry, none)
    | some loraId =>
      let rest := lookupAll (AssocList.eraseEntry name registry ++ [(name, loraId)]) names
      (rest.1, rest.2.map (some loraId :: ·))

namespace LoRARegistry

/-- The body of `acquire`, `unregister` or `register`. -/
def body (r : LoRARegistry Name) : WriterCall Name → LoRARegistry Name × Outcome
  | .acquire loraName =>
    let (registry, loraIds) := lookupAll r.registry loraName.toList
    ({ r with registry := registry }, (loraIds.map Outcome.found).getD .valueError)
  | .unregister loraName =>
    match r.registry.lookup loraName with
    | none => (r, .valueError)
    | some loraId =>
      ({ r with registry := AssocList.eraseEntry loraName r.registry }, .unregistered loraId)
  | .register loraName =>
    if (r.registry.lookup loraName).isSome then (r, .valueError)
    else
      ({ r with
          registry := r.registry ++ [(loraName, r.nextId)]
          counters := r.counters ++ [r.nextId]
          nextId := r.nextId + 1 },
        .registered)

/-! ## 3. From one `await` to the next -/

/-- A writer need not wait. -/
def writerFree (r : LoRARegistry Name) : Bool := !r.writerActive && r.readers == 0

/-- A reader need not wait. -/
def readerFree (r : LoRARegistry Name) : Bool := !r.writerActive && r.waitingWriters == 0

/-- What follows on the writer lock. -/
def after : Outcome → Task Name
  | .found loraIds => .looked loraIds
  | .unregistered loraId => .unregistered loraId
  | .registered => .done
  | .valueError => .done

/-- A task is resumed. -/
def advance (r : LoRARegistry Name) : Task Name → LoRARegistry Name × Task Name
  | .enter call =>
    if r.writerFree then ({ r with writerActive := true }, .writing call)
    else ({ r with waitingWriters := r.waitingWriters + 1 }, .waiting call)
  | .waiting call =>
    if r.writerFree then
      ({ r with writerActive := true, waitingWriters := r.waitingWriters - 1 }, .writing call)
    else (r, .waiting call)
  | .writing call => ((r.body call).1, .leaving (r.body call).2)
  | .leaving outcome => ({ r with writerActive := false }, after outcome)
  | .looked loraIds =>
    if ∀ id ∈ loraIds.reduceOption, id ∈ r.counters then (r, .counting [] loraIds.reduceOption)
    else (r, .keyError)
  | .counting counted (id :: pending) =>
    ({ r with count := Function.update r.count id (r.count id + 1) }, .counting (counted ++ [id]) pending)
  | .counting counted [] => ({ r with held := r.held ++ counted }, .done)
  | .releasing loraIds =>
    if r.readerFree then ({ r with readers := r.readers + 1 }, .reading loraIds) else (r, .releasing loraIds)
  | .reading loraIds =>
    if ∀ id ∈ loraIds.reduceOption, id ∈ r.counters then (r, .uncounting loraIds.reduceOption)
    else ({ r with readers := r.readers - 1 }, .keyError)
  | .uncounting (id :: pending) =>
    ({ r with count := Function.update r.count id (r.count id - 1) }, .uncounting pending)
  | .uncounting [] => ({ r with readers := r.readers - 1 }, .done)
  | .unregistered id => if id ∈ r.counters then (r, .draining id) else (r, .assertionError)
  | .draining id =>
    if r.count id = 0 then
      ({ r with counters := r.counters.erase id, unloaded := r.unloaded ++ [id] }, .done)
    else (r, .draining id)
  | .done => (r, .done)
  | .keyError => (r, .keyError)
  | .assertionError => (r, .assertionError)

end LoRARegistry

/-! ## 4. Runs -/

/-- A registry and the tasks that use it. -/
structure System (Name : Type) where
  registry : LoRARegistry Name := {}
  tasks : List (Task Name) := []

inductive Op (Name : Type)
  | register (loraName : Name)
  | acquire (loraName : OneOrMany Name)
  | release (loraId : OneOrMany ℕ)
  | unload (loraName : Name)
  | resume (i : ℕ)

/-- A call makes a task, which starts when it is resumed.  What is released has been acquired, and has not
been released. -/
def System.step (s : System Name) : Op Name → System Name
  | .register loraName => { s with tasks := s.tasks ++ [.enter (.register loraName)] }
  | .acquire loraName => { s with tasks := s.tasks ++ [.enter (.acquire loraName)] }
  | .release loraId =>
    if loraId.toList.reduceOption.isSubperm s.registry.held then
      { registry := { s.registry with held := s.registry.held.diff loraId.toList.reduceOption }
        tasks := s.tasks ++ [.releasing loraId.toList] }
    else s
  | .unload loraName => { s with tasks := s.tasks ++ [.enter (.unregister loraName)] }
  | .resume i =>
    match s.tasks[i]? with
    | none => s
    | some task =>
      { registry := (s.registry.advance task).1, tasks := s.tasks.set i (s.registry.advance task).2 }

def System.run (s : System Name) (ops : List (Op Name)) : System Name := ops.foldl System.step s

end Lora

end Sglang
