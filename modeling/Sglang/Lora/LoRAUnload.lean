/-
# Unloading an adapter

The registry as a book of counted uses: what tasks have looked up and not counted, and what they have counted
and not released.  Every step of a task is one entry in the book, or none (`Good.advance`), and the step in
which `wait_for_unload` returns is the only one that can spoil it.
-/
import Mathlib.Data.List.Induction
import Sglang.Lora.LoRARegistry

namespace Sglang

open Lib Lib.UseCount List Option

namespace Lora

variable {Name : Type} [DecidableEq Name]

/-! ## 1. What a task has in hand -/

namespace Task

/-- The identifiers that a task has looked up and not counted. -/
def lookedIds : Task Name → List ℕ
  | .leaving (.found loraIds) => loraIds.reduceOption
  | .looked loraIds => loraIds.reduceOption
  | .counting _ pending => pending
  | _ => []

/-- The identifiers that a task has counted and not released. -/
def countedIds : Task Name → List ℕ
  | .counting counted _ => counted
  | .releasing loraIds => loraIds.reduceOption
  | .reading loraIds => loraIds.reduceOption
  | .uncounting pending => pending
  | _ => []

/-- The identifier that a task has unregistered and not unloaded. -/
def leavingIds : Task Name → List ℕ
  | .leaving (.unregistered id) => [id]
  | .unregistered id => [id]
  | .draining id => [id]
  | _ => []

end Task

/-- The book of a registry, for the uses that tasks have looked up and counted. -/
def bookOf (r : LoRARegistry Name) (looked counted : List ℕ) : Book ℕ where
  listed := {id | id ∈ r.registry.map (·.2)}
  counters := {id | id ∈ r.counters}
  dropped := {id | id ∈ r.unloaded}
  count := r.count
  looked := ↑looked
  counted := ↑(r.held ++ counted)

/-- The book is sound, names and identifiers are not given twice, and what has not been given is not known. -/
structure Good (r : LoRARegistry Name) (looked counted leaving : List ℕ) : Prop where
  sound : Sound (bookOf r looked counted)
  names : (r.registry.map (·.1)).Nodup
  ids : (r.registry.map (·.2) ++ leaving).Nodup
  given : ∀ id ∈ r.registry.map (·.2) ++ leaving, id < r.nextId
  counters : r.counters.Nodup
  unknown : ∀ id, r.nextId ≤ id → id ∉ r.counters ∧ id ∉ r.unloaded ∧ r.count id = 0

/-! ## 2. One step of one task -/

/-- What is looked up is listed, and the registry keeps its entries. -/
theorem lookupAll_spec : ∀ (names : List (Option Name)) (registry : List (Name × ℕ)),
    (registry.map (·.1)).Nodup → (lookupAll registry names).1.Perm registry ∧
      ∀ loraIds, (lookupAll registry names).2 = some loraIds →
        ∀ id ∈ loraIds.reduceOption, id ∈ registry.map (·.2)
  | [], registry, _ => ⟨List.Perm.refl _, fun loraIds h id hid => by
      cases h
      cases hid⟩
  | none :: names, registry, hnd => by
    obtain ⟨hperm, hids⟩ := lookupAll_spec names registry hnd
    refine ⟨hperm, fun loraIds h id hid => ?_⟩
    obtain ⟨rest, hrest, rfl⟩ := map_eq_some_iff.mp h
    exact hids rest hrest id hid
  | some name :: names, registry, hnd => by
    rw [lookupAll]
    rcases hlookup : registry.lookup name with _ | loraId
    · exact ⟨List.Perm.refl _, fun _ h => by cases h⟩
    have hmoved : (AssocList.eraseEntry name registry ++ [(name, loraId)]).Perm registry :=
      perm_append_comm.trans (AssocList.perm_of_lookup hnd hlookup).symm
    obtain ⟨hperm, hids⟩ := lookupAll_spec names (AssocList.eraseEntry name registry ++ [(name, loraId)])
      ((hmoved.map _).nodup_iff.mpr hnd)
    refine ⟨hperm.trans hmoved, fun loraIds h id hid => ?_⟩
    obtain ⟨rest, hrest, rfl⟩ := map_eq_some_iff.mp h
    rcases mem_cons.mp hid with rfl | hid
    · exact mem_map_of_mem (AssocList.mem_of_lookup hlookup)
    · exact (hmoved.map _).subset (hids rest hrest id hid)

section

variable {r : LoRARegistry Name} {looked counted leaving : List ℕ}

omit [DecidableEq Name] in
theorem Good.lock (h : Good r looked counted leaving) (readers waitingWriters : ℕ) (writerActive : Bool) :
    Good { r with readers := readers, waitingWriters := waitingWriters, writerActive := writerActive }
      looked counted leaving :=
  ⟨h.sound, h.names, h.ids, h.given, h.counters, h.unknown⟩

theorem Good.body (h : Good r looked counted leaving) (call : WriterCall Name) :
    Good (r.body call).1 (Task.lookedIds (.leaving (r.body call).2 : Task Name) ++ looked) counted
      (Task.leavingIds (.leaving (r.body call).2 : Task Name) ++ leaving) := by
  cases call with
  | acquire loraName =>
    obtain ⟨hperm, hids⟩ := lookupAll_spec loraName.toList r.registry h.names
    rw [LoRARegistry.body]
    rcases hfound : lookupAll r.registry loraName.toList with ⟨registry, loraIds⟩
    rw [hfound] at hperm hids
    have hlisted : ∀ id, id ∈ registry.map (·.2) ↔ id ∈ r.registry.map (·.2) := fun id =>
      (hperm.map _).mem_iff
    have hregistry : Good { r with registry := registry } looked counted leaving := by
      refine ⟨⟨h.sound.count_eq, h.sound.looked, h.sound.counted, fun id hid => ?_, h.sound.dropped⟩,
        (hperm.map _).nodup_iff.mpr h.names, ((hperm.map _).append_right _).nodup_iff.mpr h.ids,
        fun id hid => h.given id (((hperm.map _).append_right _).mem_iff.mp hid), h.counters, h.unknown⟩
      exact h.sound.listed id ((hlisted id).mp hid)
    rcases loraIds with _ | loraIds
    · exact hregistry
    · have hsound : Sound ((bookOf { r with registry := registry } looked counted).find
          (loraIds.reduceOption : Multiset ℕ)) :=
        hregistry.sound.find fun id hid => (hlisted id).mpr (hids loraIds rfl id hid)
      exact ⟨hsound, hregistry.names, hregistry.ids, hregistry.given, h.counters, h.unknown⟩
  | unregister loraName =>
    rw [LoRARegistry.body]
    rcases hlookup : r.registry.lookup loraName with _ | id
    · exact h
    · have hperm := AssocList.perm_of_lookup h.names hlookup
      have hids : (r.registry.map (·.2) ++ leaving).Perm
          ((AssocList.eraseEntry loraName r.registry).map (·.2) ++ (id :: leaving)) :=
        ((hperm.map _).append_right _).trans (perm_middle.symm)
      have hnames := (hperm.map (·.1)).nodup_iff.mp h.names
      refine ⟨⟨h.sound.count_eq, h.sound.looked, h.sound.counted, fun id' hid => ?_, h.sound.dropped⟩,
        (nodup_cons.mp hnames).2, hids.nodup_iff.mp h.ids,
        fun id' hid => h.given id' (hids.mem_iff.mpr hid), h.counters, h.unknown⟩
      exact h.sound.listed id' ((hperm.map _).mem_iff.mpr (mem_cons_of_mem _ hid))
  | register loraName =>
    rw [LoRARegistry.body]
    split
    · exact h
    rename_i hnone
    have hnew := h.unknown r.nextId (le_refl _)
    have hmap : (r.registry ++ [(loraName, r.nextId)]).map (·.2) = r.registry.map (·.2) ++ [r.nextId] := by
      rw [map_append]
      rfl
    have hids : (r.nextId :: (r.registry.map (·.2) ++ leaving)).Perm
        ((r.registry ++ [(loraName, r.nextId)]).map (·.2) ++ leaving) := by
      rw [hmap, append_assoc]
      exact perm_middle.symm
    have hnotIn : r.nextId ∉ r.registry.map (·.2) ++ leaving := fun hmem =>
      absurd (h.given _ hmem) (lt_irrefl _)
    have hbook : bookOf { r with
          registry := r.registry ++ [(loraName, r.nextId)]
          counters := r.counters ++ [r.nextId]
          nextId := r.nextId + 1 } looked counted
        = (bookOf r looked counted).create r.nextId := by
      rw [bookOf, bookOf]
      congr 1
      · ext id
        simp [or_comm]
      · ext id
        simp [or_comm]
    refine ⟨hbook ▸ h.sound.create hnew.1 hnew.2.1 hnew.2.2, ?_, hids.nodup_iff.mp
      (nodup_cons.mpr ⟨hnotIn, h.ids⟩), fun id hid => ?_, ?_, fun id hid => ?_⟩
    · rw [map_append]
      refine List.Nodup.append h.names (nodup_singleton _) ?_
      refine disjoint_singleton.mpr fun hmem => hnone ?_
      rw [isSome_iff_ne_none, Ne, AssocList.lookup_eq_none_iff, not_not]
      exact hmem
    · rcases mem_cons.mp (hids.mem_iff.mpr hid) with rfl | hid
      · exact Nat.lt_succ_self _
      · exact (h.given id hid).trans (Nat.lt_succ_self _)
    · refine List.Nodup.append h.counters (nodup_singleton _) ?_
      exact disjoint_singleton.mpr hnew.1
    · have hold := h.unknown id (Nat.le_of_succ_le hid)
      refine ⟨fun hmem => ?_, hold.2⟩
      rcases mem_append.mp hmem with hmem | hmem
      · exact hold.1 hmem
      · rw [mem_singleton.mp hmem] at hid
        exact absurd hid (Nat.not_succ_le_self _)

omit [DecidableEq Name] in
theorem Good.add {id : ℕ} {pending : List ℕ} (h : Good r (id :: pending) counted leaving) :
    Good { r with count := Function.update r.count id (r.count id + 1) } pending (id :: counted) leaving := by
  have hmem : id ∈ r.counters := h.sound.looked id (Multiset.mem_coe.mpr mem_cons_self)
  have hbook : bookOf { r with count := Function.update r.count id (r.count id + 1) } pending (id :: counted)
      = (bookOf r (id :: pending) counted).add id := by
    rw [bookOf, Book.add, bookOf]
    congr 1
    · exact congrArg _ (erase_cons_head id pending).symm
    · exact Multiset.coe_eq_coe.mpr perm_middle
  refine ⟨hbook ▸ h.sound.add (Multiset.mem_coe.mpr mem_cons_self), h.names, h.ids, h.given, h.counters,
    fun id' hid => ?_⟩
  have hold := h.unknown id' hid
  have hne : id' ≠ id := fun heq => hold.1 (heq ▸ hmem)
  exact ⟨hold.1, hold.2.1, (Function.update_of_ne hne _ _).trans hold.2.2⟩

omit [DecidableEq Name] in
theorem Good.sub {id : ℕ} (h : Good r looked (id :: counted) leaving) :
    Good { r with count := Function.update r.count id (r.count id - 1) } looked counted leaving := by
  have huse : id ∈ r.held ++ id :: counted := mem_append_right _ mem_cons_self
  have hmem : id ∈ r.counters := h.sound.counted id (Multiset.mem_coe.mpr huse)
  have hbook : bookOf { r with count := Function.update r.count id (r.count id - 1) } looked counted
      = (bookOf r looked (id :: counted)).sub id := by
    rw [bookOf, Book.sub, bookOf]
    congr 1
    refine Multiset.coe_eq_coe.mpr ?_
    refine List.Perm.trans ?_ ((perm_middle.symm : (id :: (r.held ++ counted)).Perm _).erase id)
    rw [erase_cons_head]
  refine ⟨hbook ▸ h.sound.sub (Multiset.mem_coe.mpr huse), h.names, h.ids, h.given, h.counters,
    fun id' hid => ?_⟩
  have hold := h.unknown id' hid
  have hne : id' ≠ id := fun heq => hold.1 (heq ▸ hmem)
  exact ⟨hold.1, hold.2.1, (Function.update_of_ne hne _ _).trans hold.2.2⟩

omit [DecidableEq Name] in
/-- An adapter that no one has looked up is unloaded. -/
theorem Good.drop {id : ℕ} (h : Good r looked counted (id :: leaving)) (hzero : r.count id = 0)
    (hnone : id ∉ looked) :
    Good { r with counters := r.counters.erase id, unloaded := r.unloaded ++ [id] } looked counted
      leaving := by
  have hids := nodup_cons.mp (perm_middle.nodup_iff.mp h.ids)
  have hunlisted : id ∉ (bookOf r looked counted).listed := fun hmem =>
    hids.1 (mem_append_left _ hmem)
  have hbook : bookOf { r with counters := r.counters.erase id, unloaded := r.unloaded ++ [id] } looked
      counted = (bookOf r looked counted).drop id := by
    rw [bookOf, Book.drop, bookOf]
    congr 1
    · ext id'
      simp [h.counters.mem_erase_iff, and_comm]
    · ext id'
      simp [or_comm]
  have hgiven : id < r.nextId := h.given id (mem_append_right _ mem_cons_self)
  refine ⟨hbook ▸ (h.sound.drop_iff hunlisted hzero).mpr fun hmem => hnone (Multiset.mem_coe.mp hmem), h.names,
    hids.2, fun id' hid => h.given id' (perm_middle.mem_iff.mpr (mem_cons_of_mem _ hid)),
    h.counters.erase id, fun id' hid => ?_⟩
  have hold := h.unknown id' hid
  refine ⟨fun hmem => hold.1 (mem_of_mem_erase hmem), fun hmem => ?_, hold.2.2⟩
  rcases mem_append.mp hmem with hmem | hmem
  · exact hold.2.1 hmem
  · rw [mem_singleton.mp hmem] at hid
    exact absurd hid (not_le.mpr hgiven)

variable {counted' : List ℕ}

omit [DecidableEq Name] in
theorem Good.perm {held : List ℕ} (h : Good r looked counted leaving)
    (hperm : (held ++ counted').Perm (r.held ++ counted)) :
    Good { r with held := held } looked counted' leaving := by
  have hbook : bookOf { r with held := held } looked counted' = bookOf r looked counted := by
    rw [bookOf, bookOf]
    congr 1
    exact Multiset.coe_eq_coe.mpr hperm
  exact ⟨hbook ▸ h.sound, h.names, h.ids, h.given, h.counters, h.unknown⟩

/-- **A step of a task keeps the book**, unless it returns from `wait_for_unload` too early. -/
theorem Good.advance {task : Task Name}
    (h : Good r (task.lookedIds ++ looked) (task.countedIds ++ counted) (task.leavingIds ++ leaving))
    (hkey : task ≠ .keyError)
    (hdrop : ∀ id, task = .draining id → r.count id = 0 → id ∉ looked) :
    (r.advance task).2 ≠ .keyError ∧
      Good (r.advance task).1 ((r.advance task).2.lookedIds ++ looked)
        ((r.advance task).2.countedIds ++ counted) ((r.advance task).2.leavingIds ++ leaving) := by
  cases task with
  | enter call =>
    rw [LoRARegistry.advance]
    split
    · exact ⟨by simp, h.lock r.readers r.waitingWriters true⟩
    · exact ⟨by simp, h.lock r.readers (r.waitingWriters + 1) r.writerActive⟩
  | waiting call =>
    rw [LoRARegistry.advance]
    split
    · exact ⟨by simp, h.lock r.readers (r.waitingWriters - 1) true⟩
    · exact ⟨by simp, h⟩
  | writing call =>
    refine ⟨by simp [LoRARegistry.advance], ?_⟩
    exact Good.body h call
  | leaving outcome =>
    cases outcome with
    | found loraIds => exact ⟨by simp [LoRARegistry.advance, LoRARegistry.after], h.lock _ _ false⟩
    | unregistered id => exact ⟨by simp [LoRARegistry.advance, LoRARegistry.after],
      h.lock _ _ false⟩
    | registered => exact ⟨by simp [LoRARegistry.advance, LoRARegistry.after], h.lock _ _ false⟩
    | valueError => exact ⟨by simp [LoRARegistry.advance, LoRARegistry.after], h.lock _ _ false⟩
  | looked loraIds =>
    have hall : ∀ id ∈ loraIds.reduceOption, id ∈ r.counters := fun id hid =>
      h.sound.looked id (Multiset.mem_coe.mpr (mem_append_left _ hid))
    rw [LoRARegistry.advance, if_pos hall]
    exact ⟨by simp, h⟩
  | counting done pending =>
    cases pending with
    | nil =>
      refine ⟨by simp [LoRARegistry.advance], h.perm ?_⟩
      rw [append_assoc]
      exact List.Perm.refl _
    | cons id pending =>
      refine ⟨by simp [LoRARegistry.advance], (Good.add h).perm ?_⟩
      refine List.Perm.append_left _ ?_
      change (done ++ [id] ++ counted).Perm (id :: (done ++ counted))
      rw [append_assoc]
      exact perm_middle
  | releasing loraIds =>
    rw [LoRARegistry.advance]
    split
    · exact ⟨by simp, h.lock (r.readers + 1) r.waitingWriters r.writerActive⟩
    · exact ⟨by simp, h⟩
  | reading loraIds =>
    have hall : ∀ id ∈ loraIds.reduceOption, id ∈ r.counters := fun id hid =>
      h.sound.counted id (Multiset.mem_coe.mpr (mem_append_right _ (mem_append_left _ hid)))
    rw [LoRARegistry.advance, if_pos hall]
    exact ⟨by simp, h⟩
  | uncounting pending =>
    cases pending with
    | nil => exact ⟨by simp [LoRARegistry.advance],
      h.lock (r.readers - 1) r.waitingWriters r.writerActive⟩
    | cons id pending => exact ⟨by simp [LoRARegistry.advance], Good.sub h⟩
  | unregistered id =>
    rw [LoRARegistry.advance]
    split
    · exact ⟨by simp, h⟩
    · have hids := (nodup_cons.mp (perm_middle.nodup_iff.mp h.ids)).2
      exact ⟨by simp, h.sound, h.names, hids,
        fun id' hid => h.given id' (perm_middle.mem_iff.mpr (mem_cons_of_mem _ hid)), h.counters,
        h.unknown⟩
  | draining id =>
    rw [LoRARegistry.advance]
    split
    · rename_i hzero
      exact ⟨by simp, Good.drop h hzero (hdrop id rfl hzero)⟩
    · exact ⟨by simp, h⟩
  | done => exact ⟨by simp [LoRARegistry.advance], h⟩
  | keyError => exact absurd rfl hkey
  | assertionError => exact ⟨by simp [LoRARegistry.advance], h⟩

omit [DecidableEq Name] in
theorem Good.order {looked' leaving' : List ℕ} (h : Good r looked counted leaving)
    (hlooked : looked'.Perm looked) (hcounted : counted'.Perm counted) (hleaving : leaving'.Perm leaving) :
    Good r looked' counted' leaving' := by
  have hbook : bookOf r looked' counted' = bookOf r looked counted := by
    rw [bookOf, bookOf]
    congr 1
    · exact Multiset.coe_eq_coe.mpr hlooked
    · exact Multiset.coe_eq_coe.mpr (hcounted.append_left _)
  exact ⟨hbook ▸ h.sound, h.names, (hleaving.append_left _).nodup_iff.mpr h.ids,
    fun id hid => h.given id ((hleaving.append_left _).mem_iff.mp hid), h.counters, h.unknown⟩

end

/-! ## 3. Runs -/

/-- The book of a system is kept, and no call has failed. -/
structure System.Good (s : System Name) : Prop where
  keys : ∀ task ∈ s.tasks, task ≠ .keyError
  book : Lora.Good s.registry (s.tasks.flatMap Task.lookedIds) (s.tasks.flatMap Task.countedIds)
    (s.tasks.flatMap Task.leavingIds)

omit [DecidableEq Name] in
/-- The task that is resumed comes first. -/
theorem flatMap_set_perm {β : Type} (f : Task Name → List β) (front behind : List (Task Name))
    (task : Task Name) :
    ((front ++ task :: behind).flatMap f).Perm (f task ++ (front ++ behind).flatMap f) := by
  rw [← flatMap_cons]
  exact perm_middle.flatMap_right f

/-- `wait_for_unload` of an identifier is about to return. -/
def System.Returning (s : System Name) (i id : ℕ) : Prop :=
  s.tasks[i]? = some (.draining id) ∧ s.registry.count id = 0

/-- No `acquire` stands between looking the identifier up and counting its use. -/
def System.NotLooked (s : System Name) (id : ℕ) : Prop := ∀ task ∈ s.tasks, id ∉ task.lookedIds

variable {s : System Name}

omit [DecidableEq Name] in
theorem System.Good.spawn (h : s.Good) (task : Task Name) (hkey : task ≠ .keyError)
    (hlooked : task.lookedIds = []) (hcounted : task.countedIds = []) (hleaving : task.leavingIds = []) :
    System.Good { s with tasks := s.tasks ++ [task] } := by
  refine ⟨fun t ht => ?_, ?_⟩
  · rcases mem_append.mp ht with ht | ht
    · exact h.keys t ht
    · rw [mem_singleton.mp ht]
      exact hkey
  · dsimp only
    simp only [flatMap_append, flatMap_singleton, hlooked, hcounted, hleaving, append_nil]
    exact h.book

theorem System.Good.step (h : s.Good) (op : Op Name)
    (hunload : ∀ i id, op = .resume i → s.Returning i id → s.NotLooked id) : (s.step op).Good := by
  cases op with
  | register loraName => exact h.spawn _ (by simp) rfl rfl rfl
  | acquire loraName => exact h.spawn _ (by simp) rfl rfl rfl
  | unload loraName => exact h.spawn _ (by simp) rfl rfl rfl
  | release loraId =>
    rw [System.step]
    split
    · rename_i hsub
      have hsub := Multiset.coe_le.mpr (isSubperm_iff.mp hsub)
      have hheld : (s.registry.held.diff loraId.toList.reduceOption ++ loraId.toList.reduceOption).Perm
          s.registry.held := by
        rw [← Multiset.coe_eq_coe, ← Multiset.coe_add]
        exact Multiset.sub_add_cancel hsub
      have hmoved : Lora.Good { s.registry with held := s.registry.held.diff loraId.toList.reduceOption }
          (s.tasks.flatMap Task.lookedIds)
          (loraId.toList.reduceOption ++ s.tasks.flatMap Task.countedIds)
          (s.tasks.flatMap Task.leavingIds) := by
        refine h.book.perm ?_
        rw [← append_assoc]
        exact hheld.append_right _
      refine ⟨fun t ht => ?_, hmoved.order ?_ ?_ ?_⟩
      · rcases mem_append.mp ht with ht | ht
        · exact h.keys t ht
        · rw [mem_singleton.mp ht]
          simp
      · simp [Task.lookedIds]
      · simpa [Task.countedIds] using perm_append_comm
      · simp [Task.leavingIds]
    · exact h
  | resume i =>
    rw [System.step]
    rcases htask : s.tasks[i]? with _ | task
    · exact h
    obtain ⟨hi, hget⟩ := List.getElem?_eq_some_iff.mp htask
    have hsplit : s.tasks = s.tasks.take i ++ task :: s.tasks.drop (i + 1) := by
      rw [← hget, getElem_cons_drop, take_append_drop]
    have hset : ∀ task', s.tasks.set i task' = s.tasks.take i ++ task' :: s.tasks.drop (i + 1) :=
      fun task' => set_eq_take_append_cons_drop.trans (if_pos hi)
    have hbook := h.book
    rw [hsplit] at hbook
    have hstep := (hbook.order (flatMap_set_perm _ _ _ _).symm (flatMap_set_perm _ _ _ _).symm
      (flatMap_set_perm _ _ _ _).symm).advance (h.keys task (mem_of_getElem? htask))
      (fun id hdraining hzero hmem => by
        have hnone := hunload i id rfl ⟨hdraining ▸ htask, hzero⟩
        obtain ⟨task', htask', hid⟩ := mem_flatMap.mp hmem
        refine hnone task' ?_ hid
        rcases mem_append.mp htask' with htask' | htask'
        · exact mem_of_mem_take htask'
        · exact mem_of_mem_drop htask')
    dsimp only
    rw [hset]
    refine ⟨fun t ht => ?_, hstep.2.order (flatMap_set_perm _ _ _ _) (flatMap_set_perm _ _ _ _)
      (flatMap_set_perm _ _ _ _)⟩
    rcases mem_append.mp ht with ht | ht
    · exact h.keys t (mem_of_mem_take ht)
    · rcases mem_cons.mp ht with rfl | ht
      · exact hstep.1
      · exact h.keys t (mem_of_mem_drop ht)

omit [DecidableEq Name] in
theorem System.good_start : ({} : System Name).Good where
  keys := fun _ h => absurd h not_mem_nil
  book :=
    { sound :=
        { count_eq := fun _ h => absurd h not_mem_nil
          looked := fun _ h => absurd h (Multiset.notMem_zero _)
          counted := fun _ h => absurd h (Multiset.notMem_zero _)
          listed := fun _ h => absurd h not_mem_nil
          dropped := fun _ h => absurd h not_mem_nil }
      names := nodup_nil
      ids := nodup_nil
      given := fun _ h => absurd h not_mem_nil
      counters := nodup_nil
      unknown := fun _ _ => ⟨not_mem_nil, not_mem_nil, rfl⟩ }

/-- What is not in use any more is all that has been unloaded, and no call has failed for want of a
counter. -/
structure System.Safe (s : System Name) : Prop where
  keys : ∀ task ∈ s.tasks, task ≠ .keyError
  held : ∀ id ∈ s.registry.unloaded, id ∉ s.registry.held
  tasks : ∀ id ∈ s.registry.unloaded, ∀ task ∈ s.tasks, id ∉ task.lookedIds ∧ id ∉ task.countedIds

omit [DecidableEq Name] in
theorem System.Good.safe (h : s.Good) : s.Safe := by
  have hgone : ∀ id ∈ s.registry.unloaded, id ∉ s.registry.counters := h.book.sound.dropped
  refine ⟨h.keys, fun id hid hmem => hgone id hid ?_, fun id hid task htask => ⟨fun hmem => hgone id hid ?_,
    fun hmem => hgone id hid ?_⟩⟩
  · exact h.book.sound.counted id (Multiset.mem_coe.mpr (mem_append_left _ hmem))
  · exact h.book.sound.looked id (Multiset.mem_coe.mpr (mem_flatMap.mpr ⟨task, htask, hmem⟩))
  · exact h.book.sound.counted id (Multiset.mem_coe.mpr
      (mem_append_right _ (mem_flatMap.mpr ⟨task, htask, hmem⟩)))

/-- An adapter that an `acquire` has looked up is in use when it is unloaded. -/
theorem System.Safe.notLooked {i id : ℕ} (hreturn : s.Returning i id)
    (h : (s.step (.resume i)).Safe) : s.NotLooked id := by
  intro task htask hid
  obtain ⟨htask', hzero⟩ := hreturn
  obtain ⟨hi, hget⟩ := List.getElem?_eq_some_iff.mp htask'
  rw [System.step, htask'] at h
  dsimp only at h
  rw [LoRARegistry.advance, if_pos hzero] at h
  obtain ⟨j, hj, hgetj⟩ := getElem_of_mem htask
  have hne : i ≠ j := fun heq => by
    subst heq
    rw [hgetj] at hget
    rw [hget] at hid
    cases hid
  have hstill : task ∈ s.tasks.set i .done := by
    refine mem_of_getElem? (i := j) ?_
    rw [getElem?_set_ne hne, ← hgetj]
    exact getElem?_eq_getElem hj
  exact (h.tasks id (mem_append_right _ (mem_singleton.mpr rfl)) task hstill).1 hid

/-- **No adapter is unloaded while in use, if and only if none is unloaded while an `acquire` has looked it
up and not counted it.**  This is so for every run: every `wait_for_unload` that returns must find no such
`acquire`. -/
theorem safe_iff (ops : List (Op Name)) :
    (∀ front, front <+: ops → (({} : System Name).run front).Safe) ↔
      ∀ (front behind : List (Op Name)) (i id : ℕ), ops = front ++ .resume i :: behind →
        (({} : System Name).run front).Returning i id → (({} : System Name).run front).NotLooked id := by
  have hsnoc : ∀ (front : List (Op Name)) (op : Op Name),
      ({} : System Name).run (front ++ [op]) = (({} : System Name).run front).step op :=
    fun front op => foldl_append
  constructor
  · intro hsafe front behind i id hops hreturn
    have hfront := hsafe (front ++ [.resume i]) ⟨behind, by rw [hops, append_assoc]; rfl⟩
    rw [hsnoc] at hfront
    exact hfront.notLooked hreturn
  · intro hcond front hfront
    refine System.Good.safe ?_
    induction front using List.reverseRecOn with
    | nil => exact System.good_start
    | append_singleton front op ih =>
      rw [hsnoc]
      obtain ⟨behind, hops⟩ := hfront
      rw [append_assoc] at hops
      refine (ih ⟨_, hops⟩).step op fun i id hop hreturn => ?_
      subst hop
      exact hcond front behind i id hops.symm hreturn

/-- An adapter is unloaded while `acquire(["a"])` gathers its increments, and `release` does not find the
counter. -/
theorem not_safe : ¬ ∀ ops front : List (Op String), front <+: ops →
    (({} : System String).run front).Safe := fun h =>
  have hsafe := h
    [.register "a", .resume 0, .resume 0, .resume 0, .acquire (.many [some "a"]), .resume 1, .resume 1,
      .resume 1, .resume 1, .unload "a", .resume 2, .resume 2, .resume 2, .resume 2, .resume 2, .resume 1,
      .resume 1, .release (.one 0), .resume 3, .resume 3] _ (prefix_refl _)
  hsafe.keys .keyError (mem_of_getElem? (i := 3) (by rfl)) rfl

end Lora

end Sglang
