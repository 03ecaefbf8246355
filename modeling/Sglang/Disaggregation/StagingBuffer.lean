/-
# The staging ring

A transcription of `StagingAllocator` of `staging_buffer.py`, of `is_watermark_ready` of
`staging_handler.py`, and of the receiver of watermarks in `conn.py`.  The decode side gives out regions of
its ring without looking at what is still in use; the prefill side writes a region only if the watermark,
the start of the oldest region in use, allows it.

A run is a sequence of calls of `assign` and `free`, and of deliveries of watermarks that have been sent.  A
region that is ready is apart from every older one in use (`ready_apart`).  The oldest region in use is not
always ready, though: a ring without regions keeps the watermark of its last free, and the next region can
wrap to behind it (`oldest_ready_iff`).

The lock, the buffer itself and the device are not modelled; the watermarks of one decode rank and one
prefill rank are, under the session of the decode rank.
-/
import Sglang.Lib.RingLog
import Sglang.Lib.AssocList

namespace Sglang

open Lib Lib.Ring List AssocList

namespace Disaggregation

/-! ## 1. The allocator -/

/-- `StagingAllocator`: `allocations` maps an identifier to its offset, size and round. -/
structure StagingAllocator where
  totalSize : ℕ
  head : ℕ := 0
  round : ℕ := 0
  allocations : List (ℕ × Region) := []
  allocOrder : List ℕ := []
  nextAllocId : ℕ := 0
  watermarkRound : ℕ := 0
  watermarkTail : ℕ := 0

namespace StagingAllocator

/-- The region that `assign` gives out: behind the head, or at the front of the next round. -/
def place (s : StagingAllocator) (requiredBytes : ℕ) : Region :=
  if requiredBytes ≤ s.totalSize - s.head then ⟨s.round, s.head, requiredBytes⟩
  else ⟨s.round + 1, 0, requiredBytes⟩

/-- `assign`: the identifier, the offset and the round. -/
def assign (s : StagingAllocator) (requiredBytes : ℕ) : StagingAllocator × Option (ℕ × ℕ × ℕ) :=
  if s.totalSize < requiredBytes then (s, none)
  else
    let region := s.place requiredBytes
    ({ s with
        round := region.round
        head := region.offset + requiredBytes
        nextAllocId := s.nextAllocId + 1
        allocations := setEntry s.nextAllocId region s.allocations
        allocOrder := s.allocOrder ++ [s.nextAllocId] },
      some (s.nextAllocId, region.offset, region.round))

/-- `free`. -/
def free (s : StagingAllocator) (allocId : ℕ) : StagingAllocator :=
  if (s.allocations.lookup allocId).isNone then s
  else
    let allocations := eraseEntry allocId s.allocations
    let allocOrder := s.allocOrder.dropWhile fun id => (allocations.lookup id).isNone
    let s := { s with allocations := allocations, allocOrder := allocOrder }
    if allocations = [] then { s with watermarkRound := s.round, watermarkTail := s.head }
    else
      match allocOrder.head?.bind fun id => allocations.lookup id with
      | none => s
      | some region => { s with watermarkRound := region.round, watermarkTail := region.offset }

/-- `get_watermark`. -/
def getWatermark (s : StagingAllocator) : ℕ × ℕ := (s.watermarkRound, s.watermarkTail)

end StagingAllocator

/-- `is_watermark_ready`, for the watermark that is known. -/
def isWatermarkReady (watermark : ℕ × ℕ) (allocRound allocEnd : ℕ) : Bool :=
  if allocRound ≤ 0 then true
  else
    decide (allocRound - 1 < watermark.1 ∨ allocRound - 1 = watermark.1 ∧ allocEnd ≤ watermark.2)

theorem isWatermarkReady_iff (watermark : ℕ × ℕ) (region : Region) :
    isWatermarkReady watermark region.round region.stop = true ↔ Ready watermark region := by
  rw [isWatermarkReady]
  split
  · rename_i h
    exact iff_of_true rfl (Or.inl h)
  · rename_i h
    rw [decide_eq_true_eq]
    exact (or_iff_right h).symm

/-! ## 2. Runs -/

/-- The allocator, the watermarks that have been sent, and the one that the prefill side knows. -/
structure Ring where
  allocator : StagingAllocator
  sent : List (ℕ × ℕ) := []
  remoteWatermark : Option (ℕ × ℕ) := none

/-- `remote_watermarks.get(session_id, (0, 0))`. -/
def Ring.known (r : Ring) : ℕ × ℕ := r.remoteWatermark.getD (0, 0)

inductive RingOp
  | assign (requiredBytes : ℕ)
  | free (allocId : ℕ)
  | deliver (i : ℕ)

/-- One call, or the delivery of one of the watermarks that have been sent; the receiver keeps the greater
one. -/
def Ring.step (r : Ring) : RingOp → Ring
  | .assign requiredBytes => { r with allocator := (r.allocator.assign requiredBytes).1 }
  | .free allocId =>
    let allocator := r.allocator.free allocId
    { r with allocator := allocator, sent := r.sent ++ [allocator.getWatermark] }
  | .deliver i =>
    match r.sent[i]? with
    | none => r
    | some watermark =>
      if toLex r.known < toLex watermark then { r with remoteWatermark := some watermark } else r

def Ring.run (r : Ring) (ops : List RingOp) : Ring := ops.foldl Ring.step r

/-! ## 3. The allocator's invariant -/

variable {s : StagingAllocator}

namespace StagingAllocator

/-- The live identifiers, the oldest one first. -/
def live (s : StagingAllocator) : List ℕ := s.allocations.map (·.1)

/-- The regions in use lie one behind another, and in front of the head; the watermark has passed none of
them. -/
structure Inv (s : StagingAllocator) : Prop where
  order : s.live.Sublist s.allocOrder
  sorted : s.allocOrder.Pairwise (· < ·)
  fresh : ∀ id ∈ s.allocOrder, id < s.nextAllocId
  behind : s.allocations.Pairwise fun p q => q.2.Behind p.2
  front : ∀ p ∈ s.allocations, p.2.round < s.round ∨ p.2.round = s.round ∧ p.2.stop ≤ s.head
  mark : ∀ p ∈ s.allocations, toLex s.getWatermark ≤ p.2.start
  mark_front : toLex s.getWatermark ≤ toLex (s.round, s.head)
  mark_empty : s.allocations = [] → s.getWatermark = (s.round, s.head)

/-- The mark of regions: the start of the first of them, or the head. -/
def markOf (s : StagingAllocator) : ℕ × ℕ :=
  match s.allocations with
  | [] => (s.round, s.head)
  | p :: _ => (p.2.round, p.2.offset)

theorem place_stop (s : StagingAllocator) (n : ℕ) : (s.place n).stop = (s.place n).offset + n := by
  rw [place]
  split
  · rfl
  · rfl

/-- The region that is given out lies behind the head. -/
theorem place_behind (s : StagingAllocator) (n : ℕ) : s.round < (s.place n).round ∨
    (s.place n).round = s.round ∧ (s.place n).offset = s.head := by
  rw [place]
  split
  · exact Or.inr ⟨rfl, rfl⟩
  · exact Or.inl (Nat.lt_succ_self _)

theorem lookup_isNone_iff (s : StagingAllocator) (id : ℕ) :
    (s.allocations.lookup id).isNone = true ↔ id ∉ s.live := by
  rw [Option.isNone_iff_eq_none, AssocList.lookup_eq_none_iff]
  rfl

/-- A new identifier comes last. -/
theorem setEntry_fresh {α : Type} {id : ℕ} {a : α} : ∀ {l : List (ℕ × α)}, id ∉ l.map (·.1) →
    AssocList.setEntry id a l = l ++ [(id, a)]
  | [], _ => rfl
  | e :: l, h => by
    rw [map_cons, mem_cons, not_or] at h
    rw [setEntry, if_neg fun heq => h.1 heq.symm, setEntry_fresh h.2]
    rfl

/-- A new region behind all others, and behind the head. -/
theorem Inv.assign (h : s.Inv) (n : ℕ) : (s.assign n).1.Inv := by
  rw [StagingAllocator.assign]
  split
  · exact h
  have hnew : s.nextAllocId ∉ s.live := fun hmem =>
    absurd (h.fresh _ (h.order.subset hmem)) (lt_irrefl _)
  have hplace := s.place_behind n
  have hstop := s.place_stop n
  have hset : setEntry s.nextAllocId (s.place n) s.allocations
      = s.allocations ++ [(s.nextAllocId, s.place n)] := setEntry_fresh hnew
  have hbehind : ∀ p ∈ s.allocations, (s.place n).Behind p.2 := fun p hp => by
    rcases hplace with hround | ⟨hround, hoffset⟩
    · rcases h.front p hp with hp | ⟨hp, -⟩
      · exact Or.inl (hp.trans hround)
      · exact Or.inl (hp ▸ hround)
    · rcases h.front p hp with hp | ⟨hp, hle⟩
      · exact Or.inl (hround ▸ hp)
      · exact Or.inr ⟨hround.trans hp.symm, hoffset ▸ hle⟩
  have hstart : toLex (s.round, s.head) ≤ (s.place n).start := by
    rw [Region.start, Prod.Lex.toLex_le_toLex]
    rcases hplace with hround | ⟨hround, hoffset⟩
    · exact Or.inl hround
    · exact Or.inr ⟨hround.symm, hoffset.ge⟩
  have hhead : toLex (s.round, s.head) ≤ toLex ((s.place n).round, (s.place n).offset + n) := by
    refine hstart.trans ?_
    rw [Region.start, Prod.Lex.toLex_le_toLex]
    exact Or.inr ⟨rfl, Nat.le_add_right _ _⟩
  constructor
  · rw [live]
    dsimp only
    rw [hset, map_append]
    exact h.order.append (List.Sublist.refl _)
  · refine pairwise_append.mpr ⟨h.sorted, pairwise_singleton _ _, fun a ha b hb => ?_⟩
    rw [mem_singleton.mp hb]
    exact h.fresh a ha
  · intro id hid
    rcases mem_append.mp hid with hid | hid
    · exact (h.fresh id hid).trans (Nat.lt_succ_self _)
    · rw [mem_singleton.mp hid]
      exact Nat.lt_succ_self _
  · dsimp only
    rw [hset]
    refine pairwise_append.mpr ⟨h.behind, pairwise_singleton _ _, fun p hp q hq => ?_⟩
    rw [mem_singleton.mp hq]
    exact hbehind p hp
  · dsimp only
    rw [hset]
    intro p hp
    rcases mem_append.mp hp with hp | hp
    · rcases hbehind p hp with hlt | ⟨hround, hle⟩
      · exact Or.inl hlt
      · exact Or.inr ⟨hround.symm, hle.trans (Nat.le_add_right _ _)⟩
    · rw [mem_singleton.mp hp]
      exact Or.inr ⟨rfl, hstop.le⟩
  · dsimp only
    rw [hset]
    intro p hp
    rcases mem_append.mp hp with hp | hp
    · exact h.mark p hp
    · rw [mem_singleton.mp hp]
      exact h.mark_front.trans hstart
  · exact h.mark_front.trans hhead
  · dsimp only
    rw [hset]
    exact fun hnil => absurd hnil (by simp)

/-- What is not in use is popped. -/
theorem head?_dropWhile_of_sublist (keys : List ℕ) (test : ℕ → Bool)
    (htest : ∀ id, test id = true ↔ id ∉ keys) :
    ∀ {l order : List ℕ}, l.Sublist order → order.Nodup → (∀ id ∈ order, id ∈ keys ↔ id ∈ l) →
      (order.dropWhile test).head? = l.head? ∧ l.Sublist (order.dropWhile test) := by
  intro l order h
  induction h with
  | slnil => exact fun _ _ => ⟨rfl, List.Sublist.refl _⟩
  | @cons l order a h ih =>
    intro hnodup hkeys
    have hnodup := nodup_cons.mp hnodup
    have ha : test a = true := (htest a).mpr fun hmem =>
      hnodup.1 (h.subset ((hkeys a mem_cons_self).mp hmem))
    rw [dropWhile_cons_of_pos ha]
    exact ih hnodup.2 fun id hid => hkeys id (mem_cons_of_mem _ hid)
  | @cons_cons l order a h ih =>
    intro hnodup hkeys
    have ha : ¬ test a = true := fun hmem =>
      (htest a).mp hmem ((hkeys a mem_cons_self).mpr mem_cons_self)
    rw [dropWhile_cons_of_neg ha]
    exact ⟨rfl, h.cons_cons a⟩

theorem free_of_notMem {id : ℕ} (hid : id ∉ s.live) : s.free id = s := by
  rw [free, if_pos ((s.lookup_isNone_iff id).mpr hid)]

/-- What `free` does: the watermark is the mark of what is left. -/
structure Freed (id : ℕ) (s s' : StagingAllocator) : Prop where
  allocations : s'.allocations = eraseEntry id s.allocations
  order : s'.live.Sublist s'.allocOrder
  popped : s'.allocOrder.Sublist s.allocOrder
  round : s'.round = s.round
  head : s'.head = s.head
  nextAllocId : s'.nextAllocId = s.nextAllocId
  watermark : s'.getWatermark = s'.markOf

theorem Inv.freed (h : s.Inv) {id : ℕ} (hid : id ∈ s.live) : Freed id s (s.free id) := by
  have hlive : (eraseEntry id s.allocations).map (·.1) = s.live.filter (· ≠ id) := by
    rw [live, filter_map]
    rfl
  have hsub : ((eraseEntry id s.allocations).map (·.1)).Sublist s.allocOrder := by
    rw [hlive]
    exact filter_sublist.trans h.order
  have hnodup : s.allocOrder.Nodup := h.sorted.imp fun hlt => hlt.ne
  obtain ⟨hhead, hpopped⟩ := head?_dropWhile_of_sublist ((eraseEntry id s.allocations).map (·.1))
    (fun id' => ((AssocList.eraseEntry id s.allocations).lookup id').isNone)
    (fun id' => by rw [Option.isNone_iff_eq_none, AssocList.lookup_eq_none_iff]) hsub hnodup
    fun id' _ => Iff.rfl
  rw [free, if_neg fun hnone => (s.lookup_isNone_iff id).mp hnone hid]
  dsimp only
  rw [hhead]
  rcases hleft : eraseEntry id s.allocations with _ | ⟨p, left⟩
  · rw [if_pos rfl]
    rw [hleft] at hpopped
    exact ⟨hleft.symm, hpopped, dropWhile_sublist _, rfl, rfl, rfl, rfl⟩
  · rw [if_neg (cons_ne_nil _ _)]
    have hlookup : (((p :: left).map (·.1)).head?.bind fun id => (p :: left).lookup id) = some p.2 := by
      rw [map_cons, head?_cons, Option.bind_some, lookup_cons_eq, if_pos rfl]
    rw [hleft] at hpopped
    rw [hlookup]
    exact ⟨hleft.symm, hpopped, dropWhile_sublist _, rfl, rfl, rfl, rfl⟩

theorem markOf_le (hbehind : s.allocations.Pairwise fun p q => q.2.Behind p.2) :
    ∀ p ∈ s.allocations, toLex s.markOf ≤ p.2.start := by
  intro p hp
  rw [markOf]
  rcases hl : s.allocations with _ | ⟨q, l⟩
  · rw [hl] at hp
    cases hp
  · rw [hl] at hp hbehind
    rcases mem_cons.mp hp with rfl | hp
    · exact le_refl _
    · exact ((pairwise_cons.mp hbehind).1 p hp).start_le

/-- **Freeing keeps the invariant, and the watermark does not go back.** -/
theorem Inv.free (h : s.Inv) (id : ℕ) :
    (s.free id).Inv ∧ toLex s.getWatermark ≤ toLex (s.free id).getWatermark := by
  by_cases hid : id ∈ s.live
  · have hf := h.freed hid
    have hsub : (s.free id).allocations.Sublist s.allocations := by
      rw [hf.allocations]
      exact filter_sublist
    have hbehind := h.behind.sublist hsub
    have hfront : ∀ p ∈ (s.free id).allocations, p.2.start ≤ toLex (s.round, s.head) := fun p hp => by
      rw [Region.start, Prod.Lex.toLex_le_toLex]
      rcases h.front p (hsub.subset hp) with hlt | ⟨hround, hle⟩
      · exact Or.inl hlt
      · exact Or.inr ⟨hround, (Nat.le_add_right _ _).trans hle⟩
    have hmark : toLex (s.free id).markOf ≤ toLex (s.round, s.head) ∧
        toLex s.getWatermark ≤ toLex (s.free id).markOf := by
      have hmem : ∀ p ∈ (s.free id).allocations, p ∈ s.allocations := fun p hp => hsub.subset hp
      rw [markOf, hf.round, hf.head]
      rcases hl : (s.free id).allocations with _ | ⟨p, l⟩
      · exact ⟨le_refl _, h.mark_front⟩
      · have hp : p ∈ (s.free id).allocations := hl ▸ mem_cons_self
        exact ⟨hfront p hp, h.mark p (hmem p hp)⟩
    rw [hf.watermark]
    refine ⟨⟨hf.order, h.sorted.sublist hf.popped, fun id' hid' => ?_, hbehind, fun p hp => ?_,
      fun p hp => ?_, ?_, fun hnil => ?_⟩, hmark.2⟩
    · rw [hf.nextAllocId]
      exact h.fresh id' (hf.popped.subset hid')
    · rw [hf.round, hf.head]
      exact h.front p (hsub.subset hp)
    · rw [hf.watermark]
      exact markOf_le hbehind p hp
    · rw [hf.watermark, hf.round, hf.head]
      exact hmark.1
    · rw [hf.watermark, markOf, hnil]
  · rw [free_of_notMem hid]
    exact ⟨h, le_refl _⟩

theorem inv_empty (totalSize : ℕ) : ({ totalSize := totalSize } : StagingAllocator).Inv where
  order := List.Sublist.refl _
  sorted := List.Pairwise.nil
  fresh := fun _ h => absurd h not_mem_nil
  behind := List.Pairwise.nil
  front := fun _ h => absurd h not_mem_nil
  mark := fun _ h => absurd h not_mem_nil
  mark_front := le_refl _
  mark_empty := fun _ => rfl

end StagingAllocator

/-! ## 4. Watermarks on their way -/

/-- The watermarks that have been sent do not go back, and neither they nor the one that is known have
passed the allocator's. -/
structure Ring.Inv (r : Ring) : Prop where
  allocator : r.allocator.Inv
  sent : r.sent.Pairwise fun w w' => toLex w ≤ toLex w'
  sent_le : ∀ w ∈ r.sent, toLex w ≤ toLex r.allocator.getWatermark
  known_le : toLex r.known ≤ toLex r.allocator.getWatermark

variable {r : Ring}

theorem Ring.Inv.step (h : r.Inv) (op : RingOp) : (r.step op).Inv := by
  cases op with
  | assign n =>
    have hsame : (r.allocator.assign n).1.getWatermark = r.allocator.getWatermark := by
      rw [StagingAllocator.assign]
      split
      · rfl
      · rfl
    rw [Ring.step]
    refine ⟨h.allocator.assign n, h.sent, ?_, ?_⟩
    · dsimp only
      rw [hsame]
      exact h.sent_le
    · dsimp only
      rw [hsame]
      exact h.known_le
  | free id =>
    obtain ⟨hinv, hle⟩ := h.allocator.free id
    refine ⟨hinv, ?_, fun w hw => ?_, h.known_le.trans hle⟩
    · refine pairwise_append.mpr ⟨h.sent, pairwise_singleton _ _, fun w hw w' hw' => ?_⟩
      rw [mem_singleton.mp hw']
      exact (h.sent_le w hw).trans hle
    · rcases mem_append.mp hw with hw | hw
      · exact (h.sent_le w hw).trans hle
      · rw [mem_singleton.mp hw]
        exact le_refl _
  | deliver i =>
    rw [Ring.step]
    split
    · exact h
    · rename_i w hw
      split
      · exact ⟨h.allocator, h.sent, h.sent_le, h.sent_le w (mem_of_getElem? hw)⟩
      · exact h

theorem Ring.Inv.run (h : r.Inv) (ops : List RingOp) : (r.run ops).Inv := by
  induction ops generalizing r with
  | nil => exact h
  | cons op ops ih => exact ih (h.step op)

/-- A ring before the first call. -/
def emptyRing (totalSize : ℕ) : Ring := { allocator := { totalSize := totalSize } }

theorem inv_emptyRing (totalSize : ℕ) : (emptyRing totalSize).Inv where
  allocator := StagingAllocator.inv_empty totalSize
  sent := List.Pairwise.nil
  sent_le := fun _ h => absurd h not_mem_nil
  known_le := le_refl _

/-- **The staging ring is safe.**  In every run the watermarks that are sent do not go back, and a region
in use that the prefill side finds ready has no byte in common with an older one in use. -/
theorem ready_apart (totalSize : ℕ) (ops : List RingOp) :
    (((emptyRing totalSize).run ops).sent.Pairwise fun w w' => toLex w ≤ toLex w') ∧
      ∀ (id : ℕ) (region : Region),
        ((emptyRing totalSize).run ops).allocator.allocations.lookup id = some region →
        isWatermarkReady ((emptyRing totalSize).run ops).known region.round
          (region.offset + region.size) = true →
        ∀ (id' : ℕ) (region' : Region), id' < id →
          ((emptyRing totalSize).run ops).allocator.allocations.lookup id' = some region' →
          ∀ i, ¬ (region.offset ≤ i ∧ i < region.offset + region.size ∧
            region'.offset ≤ i ∧ i < region'.offset + region'.size) := by
  have hinv := (inv_emptyRing totalSize).run ops
  generalize (emptyRing totalSize).run ops = r at hinv
  refine ⟨hinv.sent, fun id region hid hready id' region' hlt hid' => ?_⟩
  have hmem := mem_of_lookup hid
  have hmem' := mem_of_lookup hid'
  have hsorted : r.allocator.allocations.Pairwise fun p q => p.1 < q.1 :=
    pairwise_map.mp (hinv.allocator.sorted.sublist hinv.allocator.order)
  have hlater : r.allocator.allocations.Pairwise fun p q => p.1 < q.1 → q.2.Behind p.2 := by
    refine hinv.allocator.behind.imp ?_
    exact fun h _ => h
  have hearlier : r.allocator.allocations.Pairwise (flip fun p q => p.1 < q.1 → q.2.Behind p.2) := by
    refine hsorted.imp ?_
    exact fun h hgt => absurd hgt h.asymm
  have hbehind : region.Behind region' :=
    List.Pairwise.forall_of_forall_of_flip (fun _ _ h => absurd h (lt_irrefl _)) hlater hearlier
      hmem' hmem hlt
  exact apart_of_ready hbehind (hinv.known_le.trans (hinv.allocator.mark _ hmem'))
    ((isWatermarkReady_iff _ region).mp hready)

/-- A region of the second round, while one of the first is in use. -/
theorem ready_apart_wrapped : ∀ i, ¬ (0 ≤ i ∧ i < 0 + 4 ∧ 4 ≤ i ∧ i < 4 + 4) :=
  (ready_apart 10 [.assign 4, .assign 4, .free 0, .deliver 0, .assign 4]).2 2 ⟨1, 0, 4⟩ (by decide)
    (by decide) 1 ⟨0, 4, 4⟩ (by decide) (by decide)

/-! ## 5. The oldest region -/

namespace StagingAllocator

/-- What a call does to the allocator; the deliveries do nothing to it. -/
def step (s : StagingAllocator) : RingOp → StagingAllocator
  | .assign requiredBytes => (s.assign requiredBytes).1
  | .free allocId => s.free allocId
  | .deliver _ => s

def run (s : StagingAllocator) (ops : List RingOp) : StagingAllocator := ops.foldl step s

theorem run_append (s : StagingAllocator) (ops ops' : List RingOp) :
    s.run (ops ++ ops') = (s.run ops).run ops' := foldl_append

theorem Inv.step (h : s.Inv) (op : RingOp) : (s.step op).Inv := by
  cases op with
  | assign n => exact h.assign n
  | free id => exact (h.free id).1
  | deliver i => exact h

theorem Inv.run (h : s.Inv) (ops : List RingOp) : (s.run ops).Inv := by
  induction ops generalizing s with
  | nil => exact h
  | cons op ops ih => exact ih (h.step op)

theorem Inv.assign_allocations (h : s.Inv) (n : ℕ) : (s.assign n).1.allocations = s.allocations ∨
      (s.assign n).1.allocations = s.allocations ++ [(s.nextAllocId, s.place n)] := by
  rw [StagingAllocator.assign]
  split
  · exact Or.inl rfl
  · exact Or.inr (setEntry_fresh fun hmem => absurd (h.fresh _ (h.order.subset hmem)) (lt_irrefl _))

theorem assign_getWatermark (s : StagingAllocator) (n : ℕ) :
    (s.assign n).1.getWatermark = s.getWatermark := by
  rw [assign]
  split
  · rfl
  · rfl

theorem nextAllocId_le_assign (s : StagingAllocator) (n : ℕ) :
    s.nextAllocId ≤ (s.assign n).1.nextAllocId := by
  rw [assign]
  split
  · exact le_refl _
  · exact Nat.le_succ _

theorem Inv.nextAllocId_free (h : s.Inv) (id : ℕ) : (s.free id).nextAllocId = s.nextAllocId := by
  by_cases hid : id ∈ s.live
  · exact (h.freed hid).nextAllocId
  · rw [free_of_notMem hid]

variable {p : ℕ × Region}

/-- What a call leaves, in the order it was in. -/
theorem Inv.mem_step (h : s.Inv) (op : RingOp)
    (hp : p ∈ (s.step op).allocations) (hold : p.1 < s.nextAllocId) : p ∈ s.allocations := by
  cases op with
  | assign n =>
    rcases h.assign_allocations n with hsame | hadd
    · exact hsame ▸ hp
    · rw [StagingAllocator.step, hadd, mem_append, mem_singleton] at hp
      rcases hp with hp | rfl
      · exact hp
      · exact absurd hold (lt_irrefl _)
  | free id =>
    by_cases hid : id ∈ s.live
    · rw [StagingAllocator.step, (h.freed hid).allocations] at hp
      exact (mem_filter.mp hp).1
    · rw [StagingAllocator.step, free_of_notMem hid] at hp
      exact hp
  | deliver i => exact hp

theorem Inv.nextAllocId_step (h : s.Inv) (op : RingOp) :
    s.nextAllocId ≤ (s.step op).nextAllocId := by
  cases op with
  | assign n => exact s.nextAllocId_le_assign n
  | free id => exact (h.nextAllocId_free id).ge
  | deliver i => exact le_refl _

/-- An identifier that is given back does not return. -/
theorem Inv.mem_of_mem_run (h : s.Inv) (ops : List RingOp)
    (hp : p ∈ (s.run ops).allocations) (hold : p.1 < s.nextAllocId) : p ∈ s.allocations := by
  induction ops generalizing s with
  | nil => exact hp
  | cons op ops ih =>
    exact h.mem_step op (ih (h.step op) hp (hold.trans_le (h.nextAllocId_step op))) hold

/-- The watermark is the mark of the regions in use. -/
def Marked (s : StagingAllocator) : Prop := s.getWatermark = s.markOf

/-- As long as a region stays in use, new ones do not move the mark. -/
theorem Inv.marked_step (h : s.Inv) (op : RingOp) (hmarked : s.Marked)
    (hne : s.allocations ≠ []) : (s.step op).Marked := by
  obtain ⟨p, l, hl⟩ := exists_cons_of_ne_nil hne
  cases op with
  | assign n =>
    rw [Marked, markOf] at hmarked
    rw [StagingAllocator.step, Marked, assign_getWatermark, hmarked, markOf]
    rcases h.assign_allocations n with hsame | hadd
    · rw [hsame, hl]
    · rw [hadd, hl]
      rfl
  | free id =>
    by_cases hid : id ∈ s.live
    · exact (h.freed hid).watermark
    · rw [StagingAllocator.step, free_of_notMem hid]
      exact hmarked
  | deliver i => exact hmarked

theorem Inv.marked_run (h : s.Inv) (ops : List RingOp) (hmarked : s.Marked)
    (hp : p ∈ (s.run ops).allocations) (hold : p.1 < s.nextAllocId) :
    (s.run ops).Marked := by
  induction ops generalizing s with
  | nil => exact hmarked
  | cons op ops ih =>
    have hmem : p ∈ s.allocations := h.mem_of_mem_run (op :: ops) hp hold
    exact ih (h.step op) (h.marked_step op hmarked (ne_nil_of_mem hmem)) hp
      (hold.trans_le (h.nextAllocId_step op))

/-- A region has been given back in the course of a run. -/
def FreedIn (s : StagingAllocator) (ops : List RingOp) : Prop :=
  ∃ front id behind, ops = front ++ RingOp.free id :: behind ∧ id ∈ (s.run front).live

variable {ops : List RingOp}

/-- A run in which nothing is given back only adds regions. -/
theorem Inv.run_of_not_freedIn (h : s.Inv) (hfreed : ¬ s.FreedIn ops) :
    (s.run ops).getWatermark = s.getWatermark ∧ s.allocations ⊆ (s.run ops).allocations := by
  induction ops generalizing s with
  | nil => exact ⟨rfl, List.Subset.refl _⟩
  | cons op ops ih =>
    have hrest : ¬ (s.step op).FreedIn ops := by
      rintro ⟨front, id, behind, rfl, hid⟩
      exact hfreed ⟨op :: front, id, behind, rfl, hid⟩
    obtain ⟨hsame, hsub⟩ := ih (h.step op) hrest
    have hstep : (s.step op).getWatermark = s.getWatermark ∧
        s.allocations ⊆ (s.step op).allocations := by
      cases op with
      | assign n =>
        refine ⟨s.assign_getWatermark n, ?_⟩
        rw [StagingAllocator.step]
        rcases h.assign_allocations n with heq | heq
        · rw [heq]
          exact List.Subset.refl _
        · rw [heq]
          exact subset_append_left _ _
      | free id =>
        have hid : id ∉ s.live := fun hid => hfreed ⟨[], id, ops, rfl, hid⟩
        rw [StagingAllocator.step, free_of_notMem hid]
        exact ⟨rfl, List.Subset.refl _⟩
      | deliver i => exact ⟨rfl, List.Subset.refl _⟩
    exact ⟨hsame.trans hstep.1, List.Subset.trans hstep.2 hsub⟩

/-- After something has been given back, and while a region stays in use, the watermark is the mark. -/
theorem Inv.marked_of_freedIn (h : s.Inv)
    (hfreed : s.FreedIn ops) (hp : p ∈ (s.run ops).allocations)
    (hold : p.1 < s.nextAllocId) : (s.run ops).Marked := by
  obtain ⟨front, id, behind, rfl, hid⟩ := hfreed
  have hfront := h.run front
  rw [run_append] at hp ⊢
  refine (hfront.step (.free id)).marked_run behind (hfront.freed hid).watermark hp ?_
  refine (hold.trans_le ?_).trans_le (hfront.nextAllocId_step (.free id))
  clear hp hid hfront
  induction front generalizing s with
  | nil => exact le_refl _
  | cons op front ih =>
    exact (h.nextAllocId_step op).trans (ih (h.step op) (hold.trans_le (h.nextAllocId_step op)))

/-- The region in question wraps, and is longer than what lies in front of the head. -/
def Blind (s : StagingAllocator) (requiredBytes : ℕ) : Prop :=
  s.totalSize - s.head < requiredBytes ∧ s.head < requiredBytes

end StagingAllocator

theorem Ring.run_allocator (r : Ring) (ops : List RingOp) :
    (r.run ops).allocator = r.allocator.run ops := by
  induction ops generalizing r with
  | nil => rfl
  | cons op ops ih =>
    have hstep : (r.step op).allocator = r.allocator.step op := by
      cases op with
      | assign n => rfl
      | free id => rfl
      | deliver i =>
        rw [Ring.step]
        split
        · rfl
        · split
          · rfl
          · rfl
    have hrest := ih (r.step op)
    rw [hstep] at hrest
    exact hrest

theorem assign_eq_some {n id offset round : ℕ} (h : (s.assign n).2 = some (id, offset, round)) :
    s.nextAllocId = id ∧ (s.place n).offset = offset ∧ (s.place n).round = round ∧
      (s.assign n).1.nextAllocId = id + 1 := by
  rw [StagingAllocator.assign] at h ⊢
  split at h
  · exact absurd h (by simp)
  · rename_i hle
    have h := Option.some.inj h
    have hid : s.nextAllocId = id := congrArg Prod.fst h
    rw [if_neg hle]
    exact ⟨hid, congrArg (·.2.1) h, congrArg (·.2.2) h, congrArg (· + 1) hid⟩

/-- The watermark of an empty ring admits the next region unless it is blind to it. -/
theorem ready_of_empty_iff (s : StagingAllocator) (n : ℕ) :
    Ready (s.round, s.head) (s.place n) ↔ ¬ s.Blind n := by
  rw [Ready, Region.stop, StagingAllocator.place, StagingAllocator.Blind]
  split
  · dsimp only
    omega
  · dsimp only
    omega

/-- **The oldest region in use is ready unless the ring is blind to it.**  When nothing in front of a region
is in use any more, and the last watermark has arrived, the region is ready if it fitted behind the head or
lies in front of it, or if something has been given back since; otherwise it is not, and only its own
transfer could change that. -/
theorem oldest_ready_iff (totalSize : ℕ) (pre post : List RingOp) (n id offset round : ℕ)
    (hassign : (((emptyRing totalSize).run pre).allocator.assign n).2 = some (id, offset, round))
    (hlive : id ∈ ((emptyRing totalSize).run (pre ++ .assign n :: post)).allocator.live)
    (holdest : ∀ id' ∈ ((emptyRing totalSize).run (pre ++ .assign n :: post)).allocator.live, id ≤ id')
    (hknown : ((emptyRing totalSize).run (pre ++ .assign n :: post)).known
      = ((emptyRing totalSize).run (pre ++ .assign n :: post)).allocator.getWatermark) :
    isWatermarkReady ((emptyRing totalSize).run (pre ++ .assign n :: post)).known round (offset + n)
        = true ↔
      ¬ ((emptyRing totalSize).run pre).allocator.Blind n ∨
        (((emptyRing totalSize).run pre).allocator.assign n).1.FreedIn post := by
  have hinv : ((emptyRing totalSize).run pre).allocator.Inv := ((inv_emptyRing totalSize).run pre).allocator
  have hsplit : ((emptyRing totalSize).run (pre ++ .assign n :: post)).allocator
      = (((emptyRing totalSize).run pre).allocator.assign n).1.run post := by
    rw [Ring.run_allocator, Ring.run_allocator, StagingAllocator.run_append]
    rfl
  rw [hsplit] at hlive holdest hknown
  rw [hknown]
  generalize ((emptyRing totalSize).run pre).allocator = s at *
  obtain ⟨hid, hoffset, hround, hnext⟩ := assign_eq_some hassign
  have hassigned := hinv.assign n
  have hfinal := hassigned.run post
  have hready : isWatermarkReady ((s.assign n).1.run post).getWatermark round (offset + n) = true ↔
      Ready ((s.assign n).1.run post).getWatermark (s.place n) := by
    rw [← isWatermarkReady_iff, s.place_stop n, hoffset, hround]
  have hold : ∀ {p : ℕ × Region}, p.1 = id → p.1 < (s.assign n).1.nextAllocId := fun {p} hp => by
    rw [hnext, hp]
    exact Nat.lt_succ_self _
  -- What is found under the identifier is the region that was placed.
  have hregion : ∀ p ∈ ((s.assign n).1.run post).allocations, p.1 = id → p.2 = s.place n := by
    intro p hp hpid
    have hmem := hassigned.mem_of_mem_run post hp (hold hpid)
    have hnew : p ∉ s.allocations := fun hmem => by
      have hlt := hinv.fresh p.1 (hinv.order.subset (mem_map_of_mem hmem))
      rw [hid, hpid] at hlt
      exact lt_irrefl _ hlt
    rcases hinv.assign_allocations n with hsame | hadd
    · exact absurd (hsame ▸ hmem) hnew
    · rw [hadd, mem_append, mem_singleton] at hmem
      rw [hmem.resolve_left hnew]
  obtain ⟨p, hp, hpid⟩ := mem_map.mp hlive
  by_cases hfreed : (s.assign n).1.FreedIn post
  · refine iff_of_true (hready.mpr ?_) (Or.inr hfreed)
    have hmarked : ((s.assign n).1.run post).Marked := hassigned.marked_of_freedIn hfreed hp (hold hpid)
    rw [StagingAllocator.Marked, StagingAllocator.markOf] at hmarked
    rcases hl : ((s.assign n).1.run post).allocations with _ | ⟨q, l⟩
    · rw [hl] at hp
      cases hp
    -- The first of the regions in use is the one in question.
    have hsorted : (q :: l).Pairwise fun p q => p.1 < q.1 :=
      hl ▸ pairwise_map.mp (hfinal.sorted.sublist hfinal.order)
    have hq : q ∈ ((s.assign n).1.run post).allocations := hl ▸ mem_cons_self
    have hqid : q.1 = id := by
      refine le_antisymm ?_ (holdest q.1 (mem_map_of_mem hq))
      rw [hl] at hp
      rcases mem_cons.mp hp with rfl | hp
      · exact hpid.le
      · exact hpid ▸ ((pairwise_cons.mp hsorted).1 p hp).le
    rw [hmarked, hl, ← hregion q hq hqid]
    exact ready_of_mark q.2
  · obtain ⟨hsame, hsub⟩ := hassigned.run_of_not_freedIn hfreed
    -- Nothing was in use when the region was placed.
    have hempty : s.allocations = [] := by
      by_contra hne
      obtain ⟨q, l, hl⟩ := exists_cons_of_ne_nil hne
      have hq : q ∈ s.allocations := hl ▸ mem_cons_self
      have hqlt : q.1 < id := hid ▸ hinv.fresh q.1 (hinv.order.subset (mem_map_of_mem hq))
      have hqmem : q ∈ (s.assign n).1.allocations := by
        rcases hinv.assign_allocations n with heq | heq
        · exact heq ▸ hq
        · exact heq ▸ mem_append_left _ hq
      exact absurd (holdest q.1 (mem_map_of_mem (hsub hqmem))) (not_le.mpr hqlt)
    rw [hready, hsame, s.assign_getWatermark n, hinv.mark_empty hempty, ready_of_empty_iff]
    exact (or_iff_left hfreed).symm

/-- A region that wraps to in front of the head. -/
theorem oldest_ready_iff_wrapped :
    isWatermarkReady ((emptyRing 10).run ([.assign 6, .free 0, .deliver 0] ++ .assign 5 :: [])).known 1
        (0 + 5) = true ↔
      ¬ ((emptyRing 10).run [.assign 6, .free 0, .deliver 0]).allocator.Blind 5 ∨
        (((emptyRing 10).run [.assign 6, .free 0, .deliver 0]).allocator.assign 5).1.FreedIn [] :=
  oldest_ready_iff 10 [.assign 6, .free 0, .deliver 0] [] 5 1 0 1 (by decide) (by decide) (by decide)
    (by decide)

/-- A ring of ten bytes: four of them have been given back, and a region of eight waits for itself. -/
theorem oldest_not_ready : ¬ ∀ (totalSize : ℕ) (ops : List RingOp) (id : ℕ) (region : Region),
    ((emptyRing totalSize).run ops).allocator.allocations.lookup id = some region →
    (∀ id' ∈ ((emptyRing totalSize).run ops).allocator.live, id ≤ id') →
    ((emptyRing totalSize).run ops).known = ((emptyRing totalSize).run ops).allocator.getWatermark →
    isWatermarkReady ((emptyRing totalSize).run ops).known region.round (region.offset + region.size)
      = true := fun h =>
  absurd (h 10 [.assign 4, .free 0, .deliver 0, .assign 8] 1 ⟨1, 0, 8⟩ (by decide) (by decide) (by decide))
    (by decide)

end Disaggregation

end Sglang
