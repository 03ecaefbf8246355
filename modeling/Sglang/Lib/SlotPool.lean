/-
# A pool of slots

A pool has a fixed number of slots, each empty or holding one key, and no key has two slots.  A key
that is needed is put into an empty slot, or into the slot of a key that is evicted for it.  When
the keys that must stay number no more than the slots, a full pool that lacks one of them holds a
key that may be evicted (`exists_victim`).
-/
import Mathlib.Data.Finset.Card
import Mathlib.Data.List.ReduceOption

namespace Lib

namespace SlotPool

open List Finset

variable {κ : Type} [DecidableEq κ] {slots : List (Option κ)} {b : Nat} {k u : κ}

/-- The keys that have a slot. -/
def residents (slots : List (Option κ)) : Finset κ := slots.reduceOption.toFinset

/-- The number of empty slots. -/
def empties (slots : List (Option κ)) : Nat := slots.count none

/-- No key has two slots. -/
def Distinct (slots : List (Option κ)) : Prop := slots.reduceOption.Nodup

theorem mem_residents : k ∈ residents slots ↔ some k ∈ slots := by
  rw [residents, mem_toFinset, reduceOption_mem_iff]

theorem card_add_empties (h : Distinct slots) :
    (residents slots).card + empties slots = slots.length := by
  have hcount : (slots.filter Option.isNone).length = empties slots := by
    rw [empties, List.count, countP_eq_length_filter]
    congr 2
    funext x
    cases x <;> rfl
  rw [residents, toFinset_card_of_nodup h, length_eq_reduceOption_length_add_filter_none, hcount]

theorem empties_eq_zero (h : none ∉ slots) : empties slots = 0 := count_eq_zero.2 h

/-- What is counted of a pool does not depend on the order of its slots. -/
theorem of_perm {slots' : List (Option κ)} (h : slots.Perm slots') :
    residents slots = residents slots' ∧ empties slots = empties slots' ∧
      (Distinct slots ↔ Distinct slots') := by
  have hfilter : slots.reduceOption.Perm slots'.reduceOption := h.filterMap id
  exact ⟨toFinset_eq_of_perm _ _ hfilter, h.count_eq none, hfilter.nodup_iff⟩

omit [DecidableEq κ] in
theorem slot_perm (hb : b < slots.length) (x : Option κ) :
    slots.Perm (slots[b] :: slots.eraseIdx b) ∧ (slots.set b x).Perm (x :: slots.eraseIdx b) :=
  ⟨(getElem_cons_eraseIdx_perm hb).symm, set_perm_cons_eraseIdx hb x⟩

theorem place (h : Distinct slots) (hb : slots[b]? = some none) (hk : k ∉ residents slots) :
    Distinct (slots.set b (some k)) ∧ residents (slots.set b (some k)) = insert k (residents slots) ∧
      empties (slots.set b (some k)) + 1 = empties slots := by
  obtain ⟨hlt, hslot⟩ := List.getElem?_eq_some_iff.1 hb
  obtain ⟨hold, hnew⟩ := slot_perm hlt (some k)
  rw [hslot] at hold
  obtain ⟨hr, he, hd⟩ := of_perm hold
  obtain ⟨hr', he', hd'⟩ := of_perm hnew
  rw [hr] at hk
  refine ⟨hd'.2 ?_, ?_, ?_⟩
  · rw [Distinct, reduceOption_cons_of_some, nodup_cons]
    refine ⟨fun hin => hk ?_, hd.1 h⟩
    rw [residents, mem_toFinset]
    exact hin
  · rw [hr', hr]
    simp [residents, reduceOption_cons_of_some, reduceOption_cons_of_none]
  · rw [he', he]
    simp [empties]

theorem vacate (h : Distinct slots) (hb : slots[b]? = some (some u)) :
    Distinct (slots.set b none) ∧ residents (slots.set b none) = (residents slots).erase u ∧
      empties (slots.set b none) = empties slots + 1 := by
  obtain ⟨hlt, hslot⟩ := List.getElem?_eq_some_iff.1 hb
  obtain ⟨hold, hnew⟩ := slot_perm hlt none
  rw [hslot] at hold
  obtain ⟨hr, he, hd⟩ := of_perm hold
  obtain ⟨hr', he', hd'⟩ := of_perm hnew
  have hdist := hd.1 h
  rw [Distinct, reduceOption_cons_of_some, nodup_cons] at hdist
  refine ⟨hd'.2 hdist.2, ?_, ?_⟩
  · rw [hr', hr]
    ext a
    simp only [residents, reduceOption_cons_of_some, reduceOption_cons_of_none,
      mem_toFinset, toFinset_cons, mem_erase, mem_insert]
    constructor
    · exact fun ha => ⟨fun hau => hdist.1 (hau ▸ ha), .inr ha⟩
    · rintro ⟨hau, rfl | ha⟩
      · exact absurd rfl hau
      · exact ha
  · rw [he', he]
    simp [empties]

/-- **A key may be evicted**: the keys that must stay fit the slots, one of them is missing, and no
slot is empty. -/
theorem exists_victim {keep : Finset κ} (h : Distinct slots) (hfull : empties slots = 0)
    (hcard : keep.card ≤ slots.length) (hk : k ∈ keep) (hmiss : k ∉ residents slots) :
    ∃ u ∈ residents slots, u ∉ keep := by
  by_contra hall
  have hsub : residents slots ⊆ keep.erase k := by
    intro u hu
    refine mem_erase.2 ⟨fun huk => hmiss (huk ▸ hu), ?_⟩
    by_contra hout
    exact hall ⟨u, hu, hout⟩
  have hle := card_le_card hsub
  have hsum := card_add_empties h
  rw [card_erase_of_mem hk] at hle
  have hpos : 0 < keep.card := card_pos.2 ⟨k, hk⟩
  omega

end SlotPool

end Lib
