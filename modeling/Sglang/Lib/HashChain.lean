/-
# Hash chains

A list of pages is hashed one page after the other, each digest fed into the next.  `step` is one
link: it takes the digest before it, if there is one, and the page, and it may fail.

What a program that stores the digests node by node relies on is that chains can be cut and
joined: `chain_append` says that the chain of `l ++ m` is the chain of `l` followed by the chain
of `m` started from the last digest of `l`.
-/
import Mathlib.Tactic

namespace Lib

open List Option

variable {δ π : Type} (step : Option δ → π → Option δ)

/-- The digests of the pages, chained from `prior`. -/
def chain : Option δ → List π → Option (List δ)
  | _, [] => some []
  | prior, pg :: pgs => do
    let h ← step prior pg
    let hs ← chain (some h) pgs
    return h :: hs

/-- The digest the next link starts from. -/
def lastOr (prior : Option δ) (hs : List δ) : Option δ := hs.getLast?.or prior

@[simp] theorem lastOr_nil (prior : Option δ) : lastOr prior [] = prior := rfl

theorem lastOr_cons (prior : Option δ) (h : δ) (hs : List δ) :
    lastOr prior (h :: hs) = lastOr (some h) hs := by
  cases hs with
  | nil => rfl
  | cons k ks => simp [lastOr, getLast?_cons]

theorem lastOr_append (prior : Option δ) (hs ks : List δ) :
    lastOr prior (hs ++ ks) = lastOr (lastOr prior hs) ks := by
  induction hs generalizing prior with
  | nil => rfl
  | cons h hs ih => rw [cons_append, lastOr_cons, lastOr_cons, ih]

variable {step} {prior : Option δ} {l m : List π} {hs ks : List δ}

theorem chain_cons_eq_some {pg : π} :
    chain step prior (pg :: l) = some ks ↔
      ∃ h hs, step prior pg = some h ∧ chain step (some h) l = some hs ∧ ks = h :: hs := by
  simp only [chain, bind_eq_bind, bind_eq_some_iff, Option.pure_def, Option.some.injEq]
  constructor
  · rintro ⟨h, h1, hs, h2, rfl⟩
    exact ⟨h, hs, h1, h2, rfl⟩
  · rintro ⟨h, hs, h1, h2, rfl⟩
    exact ⟨h, h1, hs, h2, rfl⟩

theorem length_chain (h : chain step prior l = some hs) : hs.length = l.length := by
  induction l generalizing prior hs with
  | nil => cases h; rfl
  | cons pg l ih =>
    obtain ⟨d, ds, -, h2, rfl⟩ := chain_cons_eq_some.mp h
    rw [length_cons, length_cons, ih h2]

theorem chain_append (h : chain step prior l = some hs) :
    chain step prior (l ++ m) = (chain step (lastOr prior hs) m).map (hs ++ ·) := by
  induction l generalizing prior hs with
  | nil =>
    cases h
    cases h' : chain step prior m <;> simp [h']
  | cons pg l ih =>
    obtain ⟨d, ds, h1, h2, rfl⟩ := chain_cons_eq_some.mp h
    rw [cons_append, chain, h1, lastOr_cons]
    simp only [bind_eq_bind, bind_some, ih h2]
    cases chain step (lastOr (some d) ds) m <;> rfl

theorem chain_take (h : chain step prior l = some hs) (i : ℕ) :
    chain step prior (l.take i) = some (hs.take i) := by
  induction l generalizing prior hs i with
  | nil => cases h; simp [chain]
  | cons pg l ih =>
    obtain ⟨d, ds, h1, h2, rfl⟩ := chain_cons_eq_some.mp h
    cases i with
    | zero => rfl
    | succ i =>
      exact chain_cons_eq_some.mpr ⟨d, _, h1, ih h2 i, rfl⟩

theorem exists_chain (h : ∀ pg ∈ l, ∀ prior, ∃ d, step prior pg = some d) (prior : Option δ) :
    ∃ hs, chain step prior l = some hs := by
  induction l generalizing prior with
  | nil => exact ⟨[], rfl⟩
  | cons pg l ih =>
    obtain ⟨d, hd⟩ := h pg mem_cons_self prior
    obtain ⟨ds, hds⟩ := ih (fun pg hpg => h pg (mem_cons_of_mem _ hpg)) (some d)
    exact ⟨d :: ds, chain_cons_eq_some.mpr ⟨d, ds, hd, hds, rfl⟩⟩

end Lib
