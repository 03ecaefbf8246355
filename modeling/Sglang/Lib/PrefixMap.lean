/-
# Prefix-closed maps

What a cache of sequences is for, without any tree: a map from a namespace and a nonempty list of
pages to the value of the LAST page of the list, closed under taking prefixes.  A query with a
list asks for the values along its longest prefix that is present (`lookup`); storing a list adds
the values of the prefixes that are absent and never overwrites one that is present (`insert`).
-/
import Mathlib.Tactic

namespace Lib

/-- A partial map from namespaces and lists of pages. -/
def PrefixMap (ν π β : Type) := ν → List π → Option β

namespace PrefixMap

variable {ν π β : Type} (M : PrefixMap ν π β)

/-- Nothing is present. -/
def empty : PrefixMap ν π β := fun _ _ => none

/-- Only nonempty lists are present, and with a list all its nonempty prefixes. -/
def Closed : Prop :=
  ∀ ns w, (M ns w).isSome → w ≠ [] ∧ ∀ i, 0 < i → (M ns (w.take i)).isSome

/-- How many pages of `w` are covered by the longest prefix of `w` that is present. -/
def longest (ns : ν) (w : List π) : ℕ :=
  Nat.findGreatest (fun i => (M ns (w.take i)).isSome) w.length

/-- The values of the pages along the longest prefix of `w` that is present. -/
def lookup (ns : ν) (w : List π) : List β :=
  (List.range (M.longest ns w)).filterMap fun i => M ns (w.take (i + 1))

/-- The absent prefixes of `w` are added, the `i`-th page with the value `f i`. -/
def insert [DecidableEq ν] [DecidableEq π] (ns : ν) (w : List π) (f : ℕ → β) :
    PrefixMap ν π β := fun ns' w' =>
  match M ns' w' with
  | some b => some b
  | none => if ns' = ns ∧ w' ≠ [] ∧ w' <+: w then some (f (w'.length - 1)) else none

open Classical in
/-- Some lists are removed. -/
noncomputable def without (P : ν → List π → Prop) : PrefixMap ν π β := fun ns w =>
  if P ns w then none else M ns w

variable {M} {ns ns' : ν} {w w' : List π} {b : β}

/-- A length below which every prefix is present and above which none is. -/
theorem longest_eq {j : ℕ} (hj : j ≤ w.length) (hin : ∀ i, 0 < i → i ≤ j → (M ns (w.take i)).isSome)
    (hout : ∀ i, j < i → i ≤ w.length → M ns (w.take i) = none) : M.longest ns w = j := by
  unfold longest
  rw [Nat.findGreatest_eq_iff]
  refine ⟨hj, fun h0 => hin j (Nat.pos_of_ne_zero h0) le_rfl, fun i h1 h2 => ?_⟩
  rw [hout i h1 h2]
  simp

/-- The values along a longest prefix whose values are known. -/
theorem lookup_eq {f : ℕ → β} (h : ∀ i, i < M.longest ns w → M ns (w.take (i + 1)) = some (f i)) :
    M.lookup ns w = (List.range (M.longest ns w)).map f := by
  rw [← List.filterMap_eq_map]
  refine List.filterMap_congr fun i hi => ?_
  rw [h i (List.mem_range.mp hi)]
  rfl

section Insert

variable [DecidableEq ν] [DecidableEq π] {f : ℕ → β}

theorem insert_eq_some_iff :
    M.insert ns w f ns' w' = some b ↔ M ns' w' = some b ∨
      (M ns' w' = none ∧ ns' = ns ∧ w' ≠ [] ∧ w' <+: w ∧ f (w'.length - 1) = b) := by
  unfold insert
  cases h : M ns' w' with
  | some a => simp
  | none =>
    by_cases hc : ns' = ns ∧ w' ≠ [] ∧ w' <+: w
    · rw [if_pos hc]; simp [hc]
    · rw [if_neg hc]
      simp only [reduceCtorEq, true_and, false_or, false_iff]
      rintro ⟨h1, h2, h3, -⟩
      exact hc ⟨h1, h2, h3⟩

end Insert

theorem without_eq_some_iff {P : ν → List π → Prop} :
    M.without P ns w = some b ↔ M ns w = some b ∧ ¬ P ns w := by
  unfold without
  split <;> simp_all

end PrefixMap

end Lib
