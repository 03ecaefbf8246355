/-
# A list that is kept up to date by local tests

A program that keeps the elements of a set that pass some test in a list does not rebuild the list: it
makes a change, and then tests again the few elements whose answer may have changed.
`Refreshed l l' D test` says that `l'` differs from `l` by new answers at the elements of `D`.
-/

namespace Lib

variable {ι : Type} {test test' : ι → Prop} {l l' l'' D : List ι}

/-- The elements of `D` were tested again, one or more times. -/
structure Refreshed (l l' D : List ι) (test : ι → Prop) : Prop where
  nodup : l.Nodup → l'.Nodup
  mem_iff : l.Nodup → ∀ m, m ∈ l' ↔ (m ∉ D ∧ m ∈ l) ∨ (m ∈ D ∧ test m)

/-- Tests of further elements, none of which changes the answer of an earlier one. -/
theorem Refreshed.trans {D' : List ι} (h : Refreshed l l' D test) (h' : Refreshed l' l'' D' test')
    (hsame : ∀ m ∈ D, m ∉ D' → (test m ↔ test' m)) : Refreshed l l'' (D' ++ D) test' := by
  refine ⟨fun hl => h'.nodup (h.nodup hl), fun hl m => ?_⟩
  rw [h'.mem_iff (h.nodup hl), h.mem_iff hl]
  by_cases hm' : m ∈ D'
  · simp [hm']
  · by_cases hm : m ∈ D
    · simp [hm, hm', hsame m hm hm']
    · simp [hm, hm']

end Lib
