/-
# Ranges that tile an interval

A list of ranges `[lo x, hi x]` tiles `[a, b]` if the first starts at `a`, each next one starts just
after the one before it ends, none is empty, and the last ends at `b`.  Then every number of the
interval is in exactly one of them, and the ranges before and behind that one lie on the two sides
of the number, which is what a binary search relies on.
-/
import Mathlib.Data.List.Chain

namespace Lib

open List

variable {α : Type} (lo hi : α → ℕ)

/-- The ranges of the list tile `[a, b]`. -/
def Tiles : ℕ → ℕ → List α → Prop
  | _, _, [] => False
  | a, b, [x] => lo x = a ∧ lo x ≤ hi x ∧ hi x = b
  | a, b, x :: y :: l => lo x = a ∧ lo x ≤ hi x ∧ Tiles (hi x + 1) b (y :: l)

namespace Tiles

variable {lo hi} {a b c : ℕ} {x : α} {l : List α}

theorem cons (h₁ : lo x = a) (h₂ : lo x ≤ hi x) (h : Tiles lo hi (hi x + 1) b l) :
    Tiles lo hi a b (x :: l) := by
  cases l with
  | nil => exact h.elim
  | cons y l => exact ⟨h₁, h₂, h⟩

theorem head : ∀ {a : ℕ} {l : List α}, Tiles lo hi a b l → ∀ x, l.head? = some x → lo x = a
  | _, [], h => h.elim
  | _, [_], h => by
    rintro _ ⟨⟩
    exact h.1
  | _, _ :: _ :: _, h => by
    rintro _ ⟨⟩
    exact h.1

theorem isChain : ∀ {a : ℕ} {l : List α}, Tiles lo hi a b l → l.IsChain fun x y => lo y = hi x + 1
  | _, [], h => h.elim
  | _, [x], _ => isChain_singleton x
  | _, _ :: y :: _, h => isChain_cons_cons.mpr ⟨h.2.2.head y rfl, isChain h.2.2⟩

theorem nonempty : ∀ {a : ℕ} {l : List α}, Tiles lo hi a b l → ∀ x ∈ l, lo x ≤ hi x
  | _, [], h => h.elim
  | _, [x], h => by
    intro z hz
    rw [mem_singleton.mp hz]
    exact h.2.1
  | _, x :: y :: l, h => by
    intro z hz
    rcases mem_cons.mp hz with rfl | hz
    · exact h.2.1
    · exact nonempty h.2.2 z hz

theorem last : ∀ {a : ℕ} {l : List α}, Tiles lo hi a b l → ∀ x, l.getLast? = some x → hi x = b
  | _, [], h => h.elim
  | _, [x], h => by
    rintro _ ⟨⟩
    exact h.2.2
  | _, x :: y :: l, h => by
    intro z hz
    rw [getLast?_cons_cons] at hz
    exact last h.2.2 z hz

theorem le_lo : ∀ {a : ℕ} {l : List α}, Tiles lo hi a b l → ∀ x ∈ l, a ≤ lo x
  | _, [], h => h.elim
  | _, [x], h => by
    intro z hz
    rw [mem_singleton.mp hz]
    exact h.1.ge
  | _, x :: y :: l, h => by
    intro z hz
    rcases mem_cons.mp hz with rfl | hz
    · exact h.1.ge
    · have := le_lo h.2.2 z hz
      have h₁ := h.1
      have h₂ := h.2.1
      omega

/-- Later ranges lie above. -/
theorem pairwise : ∀ {a : ℕ} {l : List α}, Tiles lo hi a b l → l.Pairwise fun x y => hi x < lo y
  | _, [], h => h.elim
  | _, [x], _ => pairwise_singleton _ x
  | _, x :: y :: l, h => by
    refine pairwise_cons.mpr ⟨fun z hz => ?_, pairwise h.2.2⟩
    have := le_lo h.2.2 z hz
    omega

/-- **Every number of the interval** is in one of the ranges. -/
theorem exists_mem : ∀ {a : ℕ} {l : List α}, Tiles lo hi a b l → a ≤ c → c ≤ b →
    ∃ x ∈ l, lo x ≤ c ∧ c ≤ hi x
  | _, [], h, _, _ => h.elim
  | _, [x], h, hac, hcb => ⟨x, mem_singleton_self x, h.1.trans_le hac, hcb.trans h.2.2.ge⟩
  | _, x :: y :: l, h, hac, hcb => by
    rcases Nat.lt_or_ge (hi x) c with hc | hc
    · obtain ⟨z, hz, h₁⟩ := exists_mem h.2.2 hc hcb
      exact ⟨z, mem_cons_of_mem _ hz, h₁⟩
    · exact ⟨x, mem_cons_self, h.1.trans_le hac, hc⟩

/-- **And in only one**, with the ranges of the list on its two sides. -/
theorem sides (h : Tiles lo hi a b l) {k : ℕ} (hk : l[k]? = some x) (hlo : lo x ≤ c)
    (hhi : c ≤ hi x) {i : ℕ} {y : α} (hi' : l[i]? = some y) :
    (i < k → hi y < c) ∧ (k < i → c < lo y) := by
  obtain ⟨hkl, rfl⟩ := List.getElem?_eq_some_iff.mp hk
  obtain ⟨hil, rfl⟩ := List.getElem?_eq_some_iff.mp hi'
  have hp := pairwise_iff_getElem.mp h.pairwise
  refine ⟨fun hik => ?_, fun hki => ?_⟩
  · exact (hp i k hil hkl hik).trans_le hlo
  · exact hhi.trans_lt (hp k i hkl hil hki)

end Tiles

end Lib
