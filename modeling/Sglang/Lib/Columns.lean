/-
# Columns

The attributes of the rows of a table are kept in columns, one list for each attribute.  A column fits its
rows if it has one entry for each row, in order, and the entry is the row's (`List.Forall₂`).  What is done to
the rows is done to every column: entries are gathered at the same places, and columns are put behind one
another.
-/
import Mathlib.Data.List.Nodup

namespace Lib

namespace Columns

open List

variable {α β γ δ : Type*}

/-- The entries at some places, in the order of the places. -/
def gather (l : List α) (places : List ℕ) : List α := places.filterMap fun i => l[i]?

theorem gather_map (f : α → β) (l : List α) (places : List ℕ) :
    gather (l.map f) places = (gather l places).map f := by
  rw [gather, gather, map_filterMap]
  exact filterMap_congr fun i _ => getElem?_map

variable {a : α} {l : List α}

theorem mem_of_mem_gather {places : List ℕ} (h : a ∈ gather l places) : a ∈ l := by
  obtain ⟨i, -, hi⟩ := mem_filterMap.mp h
  exact mem_of_getElem? hi

theorem nodup_gather {places : List ℕ} (hl : l.Nodup) (hplaces : places.Nodup) :
    (gather l places).Nodup := by
  refine hplaces.filterMap fun i j a hi hj => ?_
  obtain ⟨hi, rfl⟩ := List.getElem?_eq_some_iff.mp (Option.mem_def.mp hi)
  obtain ⟨hj, heq⟩ := List.getElem?_eq_some_iff.mp (Option.mem_def.mp hj)
  exact (hl.getElem_inj_iff.mp heq).symm

variable {R : α → β → Prop}

theorem getElem?_rel {col : List β} (h : List.Forall₂ R l col) (i : ℕ) :
    Option.Rel R l[i]? col[i]? := by
  induction h generalizing i with
  | nil => exact Option.Rel.none
  | cons hab _ ih =>
    cases i with
    | zero => exact Option.Rel.some hab
    | succ i => exact ih i

theorem exists_getElem?_of_forall₂ {col : List β} (h : List.Forall₂ R l col)
    {i : ℕ} (ha : l[i]? = some a) : ∃ b, col[i]? = some b ∧ R a b := by
  have hrel := getElem?_rel h i
  rw [ha] at hrel
  rcases hb : col[i]? with _ | b
  · rw [hb] at hrel
    cases hrel
  · rw [hb] at hrel
    cases hrel with
    | some hab => exact ⟨b, rfl, hab⟩

/-- **A column that is gathered as its rows are fits them.** -/
theorem forall₂_gather {col : List β} (h : List.Forall₂ R l col)
    (places : List ℕ) : List.Forall₂ R (gather l places) (gather col places) := by
  induction places with
  | nil => exact List.Forall₂.nil
  | cons i places ih =>
    rw [gather, gather, filterMap_cons, filterMap_cons]
    rcases ha : l[i]? with _ | a
    · have hb : col[i]? = none := by
        rw [List.getElem?_eq_none_iff, ← h.length_eq]
        exact List.getElem?_eq_none_iff.mp ha
      rw [hb]
      exact ih
    · obtain ⟨b, hb, hab⟩ := exists_getElem?_of_forall₂ h ha
      rw [hb]
      exact List.Forall₂.cons hab ih

theorem forall₂_append {l' : List α} {col col' : List β} (h : List.Forall₂ R l col)
    (h' : List.Forall₂ R l' col') : List.Forall₂ R (l ++ l') (col ++ col') :=
  rel_append h h'

theorem forall₂_map {f : α → β} (h : ∀ a ∈ l, R a (f a)) : List.Forall₂ R l (l.map f) :=
  forall₂_map_right_iff.mpr (forall₂_same.mpr h)

variable {b : β}

/-- A column of one value. -/
theorem forall₂_replicate (h : ∀ a ∈ l, R a b) : List.Forall₂ R l (List.replicate l.length b) := by
  rw [← map_const']
  exact forall₂_map h

theorem forall₂_zipWith {S : α → γ → Prop} {T : α → δ → Prop} {f : β → γ → δ} {col : List β}
    {col' : List γ} (h : List.Forall₂ R l col) (h' : List.Forall₂ S l col')
    (hf : ∀ a ∈ l, ∀ b c, R a b → S a c → T a (f b c)) : List.Forall₂ T l (List.zipWith f col col') := by
  induction h generalizing col' with
  | nil =>
    cases h'
    exact List.Forall₂.nil
  | cons hab _ ih =>
    cases h' with
    | cons hac h' =>
      exact List.Forall₂.cons (hf _ mem_cons_self _ _ hab hac)
        (ih h' fun a ha => hf a (mem_cons_of_mem _ ha))

theorem exists_mem_of_forall₂ {col : List β} (h : List.Forall₂ R l col) (ha : a ∈ l) :
    ∃ b ∈ col, R a b := by
  induction h with
  | nil => cases ha
  | @cons c d _ _ hcd _ ih =>
    rcases mem_cons.mp ha with rfl | ha
    · exact ⟨d, mem_cons_self, hcd⟩
    · obtain ⟨b, hb, hab⟩ := ih ha
      exact ⟨b, mem_cons_of_mem _ hb, hab⟩

/-- What holds of the rows of a column may be used. -/
theorem forall₂_imp_mem {S : α → β → Prop} {col : List β} (h : List.Forall₂ R l col)
    (himp : ∀ a ∈ l, ∀ b, R a b → S a b) : List.Forall₂ S l col := by
  induction h with
  | nil => exact List.Forall₂.nil
  | cons hab _ ih =>
    exact List.Forall₂.cons (himp _ mem_cons_self _ hab)
      (ih fun a ha => himp a (mem_cons_of_mem _ ha))

theorem isSome_when (c : Bool) (col : List β) : (if c then some col else none).isSome = c := by
  cases c with
  | false => rfl
  | true => rfl

variable {c : Bool}

theorem eq_of_when {col col' : List β} (h : (if c then some col else none) = some col') :
    c = true ∧ col' = col := by
  cases c with
  | false => cases h
  | true => exact ⟨rfl, (Option.some.inj h).symm⟩

theorem eq_false_of_when {col : List β} (h : (if c then some col else none) = none) :
    c = false := by
  cases c with
  | false => rfl
  | true => cases h

theorem forall₂_getD {col : Option (List β)} {n : ℕ}
    (hn : n = l.length) (hsome : ∀ c, col = some c → List.Forall₂ R l c)
    (hnone : col = none → ∀ a ∈ l, R a b) : List.Forall₂ R l (col.getD (List.replicate n b)) := by
  rcases hcol : col with _ | c
  · rw [hn]
    exact forall₂_replicate (hnone hcol)
  · exact hsome c hcol

end Columns

end Lib
