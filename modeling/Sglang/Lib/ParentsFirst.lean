/-
# Lists in which parents come first

A list of nodes, each with a parent that is the root or stands before it.  Such a list is what a
program keeps that must release a tree from the leaves: the last entry never has a child in the list
(`childless_of_last`), and every node stands before all that hang below it (`mem_of_descends`).  The
order survives appending a child, dropping the last entry, and moving a whole path from the root to the
front (`moveFront`).
-/
import Mathlib.Tactic

namespace Lib

open List

variable {ι : Type} {parent parent' : ι → ι} {root a c d : ι} {l path : List ι}

/-- Every entry has a parent that is the root or stands before it. -/
def ParentsFirst (parent : ι → ι) (root : ι) (l : List ι) : Prop :=
  ∀ l₁ c l₂, l = l₁ ++ c :: l₂ → parent c = root ∨ parent c ∈ l₁

namespace ParentsFirst

theorem nil : ParentsFirst parent root [] := by
  intro l₁ c l₂ h
  cases l₁ <;> cases h

theorem parent_mem (h : ParentsFirst parent root l) (hc : c ∈ l) :
    parent c = root ∨ parent c ∈ l := by
  obtain ⟨l₁, l₂, rfl⟩ := append_of_mem hc
  exact (h l₁ c l₂ rfl).imp_right (mem_append_left _)

theorem congr (h : ParentsFirst parent root l) (hp : ∀ c ∈ l, parent' c = parent c) :
    ParentsFirst parent' root l := by
  rintro l₁ c l₂ rfl
  rw [hp c (by simp)]
  exact h l₁ c l₂ rfl

theorem of_append (h : ParentsFirst parent root (l ++ path)) : ParentsFirst parent root l := by
  rintro l₁ c l₂ rfl
  exact h l₁ c (l₂ ++ path) (by simp)

theorem concat (h : ParentsFirst parent root l) (hc : parent c = root ∨ parent c ∈ l) :
    ParentsFirst parent root (l ++ [c]) := by
  intro l₁ d l₂ hl
  rcases eq_nil_or_concat' l₂ with rfl | ⟨l₂, e, rfl⟩
  · obtain ⟨rfl, hd⟩ := append_inj' hl rfl
    cases hd
    exact hc
  · rw [← cons_append, ← append_assoc] at hl
    obtain ⟨rfl, -⟩ := append_inj' hl rfl
    exact h l₁ d l₂ rfl

theorem induction (h : ParentsFirst parent root l) {P : ι → Prop} (hroot : P root)
    (hstep : ∀ c ∈ l, P (parent c) → P c) : ∀ c ∈ l, P c := by
  induction l using List.reverseRecOn with
  | nil => exact fun c hc => absurd hc not_mem_nil
  | append_singleton l e ih =>
    have hl := ih h.of_append fun c hc => hstep c (mem_append_left _ hc)
    intro c hc
    rcases mem_append.mp hc with hc | hc
    · exact hl c hc
    · obtain rfl := mem_singleton.mp hc
      refine hstep c (by simp) ?_
      rcases h l c [] rfl with hp | hp
      · rw [hp]
        exact hroot
      · exact hl _ hp

theorem childless_of_last (h : ParentsFirst parent root (l ++ [c])) (hnd : (l ++ [c]).Nodup)
    (hc : c ≠ root) (hd : d ∈ l ++ [c]) : parent d ≠ c := by
  obtain ⟨l₁, l₂, hl⟩ := append_of_mem hd
  intro hp
  rcases h l₁ d l₂ hl with hr | hm
  · exact hc (hp.symm.trans hr)
  · rw [hp] at hm
    -- the last entry would stand twice
    rw [hl] at hnd
    have hlast : c ∈ d :: l₂ := by
      have hsplit := congrArg List.getLast? hl
      rw [getLast?_append, getLast?_append] at hsplit
      have : (d :: l₂).getLast? = some c := by
        cases hg : (d :: l₂).getLast? with
        | none => simp at hg
        | some e => rw [hg] at hsplit; simpa using hsplit.symm
      exact mem_of_getLast? this
    exact (nodup_append.mp hnd).2.2 c hm c hlast rfl

/-- **A node stands before what hangs below it.** -/
theorem mem_of_descends (h : ParentsFirst parent root l) (hnd : (root :: l).Nodup)
    (hd : Relation.TransGen (fun c d => d ∈ l ∧ parent d = c) c d) :
    ∀ l₁ l₂, l = l₁ ++ c :: l₂ → d ∈ l₂ := by
  intro l₁ l₂ hl
  have hc : c ≠ root := by
    rintro rfl
    exact (nodup_cons.mp hnd).1 (by rw [hl]; simp)
  have hnd' := (nodup_cons.mp hnd).2
  rw [hl] at hnd'
  have hcl₁ : c ∉ l₁ := fun hm => (nodup_append.mp hnd').2.2 c hm c mem_cons_self rfl
  -- an entry whose parent is not in front stands behind
  have hbehind : ∀ e ∈ l, parent e ≠ root → parent e ∉ l₁ → (parent e = c ∨ parent e ∈ l₂) →
      e ∈ l₂ := by
    intro e he hr hnm hpar
    obtain ⟨m₁, m₂, hm⟩ := append_of_mem he
    have hp := (h m₁ e m₂ hm).resolve_left hr
    rw [hl, append_eq_append_iff] at hm
    rcases hm with ⟨as, hm₁, hrest⟩ | ⟨bs, hl₁, hrest⟩
    · cases as with
      | nil =>
        rw [append_nil] at hm₁
        exact absurd (hm₁ ▸ hp) hnm
      | cons x xs =>
        rw [cons_append, List.cons.injEq] at hrest
        rw [hrest.2]
        simp
    · exact absurd (hl₁ ▸ mem_append_left _ hp) hnm
  have hnot : ∀ e, e = c ∨ e ∈ l₂ → e ≠ root ∧ e ∉ l₁ := by
    rintro e (rfl | he)
    · exact ⟨hc, hcl₁⟩
    · refine ⟨?_, fun hm => (nodup_append.mp hnd').2.2 e hm e (mem_cons_of_mem _ he) rfl⟩
      rintro rfl
      exact (nodup_cons.mp hnd).1 (by rw [hl]; simp [he])
  induction hd with
  | single hcd =>
    have := hnot c (Or.inl rfl)
    exact hbehind _ hcd.1 (hcd.2 ▸ this.1) (hcd.2 ▸ this.2) (Or.inl hcd.2)
  | tail _ hde ih =>
    have := hnot _ (Or.inr ih)
    exact hbehind _ hde.1 (hde.2 ▸ this.1) (hde.2 ▸ this.2) (Or.inr (hde.2 ▸ ih))

end ParentsFirst

/-! ## Moving a path to the front -/

/-- The list spliced so that the node comes first. -/
def moveFront [DecidableEq ι] (c : ι) (l : List ι) : List ι := c :: l.erase c

/-- The nodes form a path from the root. -/
def IsPath (parent : ι → ι) : ι → List ι → Prop
  | _, [] => True
  | r, c :: path => parent c = r ∧ IsPath parent c path

theorem IsPath.concat {r : ι} (h : IsPath parent r path)
    (hc : parent c = (r :: path).getLast (cons_ne_nil _ _)) : IsPath parent r (path ++ [c]) := by
  induction path generalizing r with
  | nil => exact ⟨hc, trivial⟩
  | cons p path ih => exact ⟨h.1, ih h.2 (by rwa [getLast_cons (cons_ne_nil _ _)] at hc)⟩

theorem IsPath.congr {r : ι} (h : IsPath parent r path) (hp : ∀ c ∈ path, parent' c = parent c) :
    IsPath parent' r path := by
  induction path generalizing r with
  | nil => trivial
  | cons p path ih =>
    exact ⟨(hp p mem_cons_self).trans h.1, ih h.2 fun c hc => hp c (mem_cons_of_mem _ hc)⟩

section MoveFront

variable [DecidableEq ι]

/-- Moving the nodes of a path one after the other, the last first. -/
theorem foldr_moveFront (hnd : l.Nodup) : ∀ (path : List ι), path.Nodup →
    path.foldr moveFront l = path ++ l.filter (· ∉ path)
  | [], _ => by simp
  | p :: path, hp => by
    have hp' := nodup_cons.mp hp
    rw [foldr_cons, foldr_moveFront hnd path hp'.2, moveFront, erase_append_right _ hp'.1,
      (hnd.filter _).erase_eq_filter, filter_filter]
    congr 2
    refine filter_congr fun x _ => ?_
    by_cases hx : x = p <;> simp [hx]

theorem foldr_moveFront_perm (hnd : l.Nodup) (hp : path.Nodup) (hsub : ∀ c ∈ path, c ∈ l) :
    (path.foldr moveFront l).Perm l := by
  rw [foldr_moveFront hnd path hp, perm_ext_iff_of_nodup ?_ hnd]
  · intro a
    simp only [mem_append, mem_filter, decide_eq_true_eq]
    constructor
    · rintro (h | h)
      · exact hsub a h
      · exact h.1
    · intro h
      by_cases ha : a ∈ path
      · exact Or.inl ha
      · exact Or.inr ⟨h, ha⟩
  · refine nodup_append.mpr ⟨hp, hnd.filter _, fun a ha b hb hab => ?_⟩
    subst hab
    exact (of_decide_eq_true (mem_filter.mp hb).2) ha

/-- **Moving a path from the root to the front keeps the order.** -/
theorem ParentsFirst.moveFront (h : ParentsFirst parent root l) (hnd : l.Nodup) (hpnd : path.Nodup)
    (hpath : IsPath parent root path) :
    ParentsFirst parent root (path.foldr Lib.moveFront l) := by
  rw [foldr_moveFront hnd path hpnd]
  have hfront : ∀ (r : ι) (q : List ι), IsPath parent r q → ∀ l₁ c l₂, q = l₁ ++ c :: l₂ →
      parent c = r ∨ parent c ∈ l₁ := by
    intro r q hq l₁
    induction l₁ generalizing r q with
    | nil =>
      rintro c l₂ rfl
      exact Or.inl hq.1
    | cons p l₁ ih =>
      rintro c l₂ rfl
      rcases ih p _ hq.2 c l₂ rfl with hp | hp
      · exact Or.inr (by rw [hp]; exact mem_cons_self)
      · exact Or.inr (mem_cons_of_mem _ hp)
  intro l₁ c l₂ hl
  rcases append_eq_append_iff.mp hl with ⟨as, rfl, hrest⟩ | ⟨bs, hbs, hrest⟩
  · -- the node stands in the rest: its parent is moved or stands before it there
    obtain ⟨m₁, m₂, rfl, hm₁, hm₂⟩ := filter_eq_append_iff.mp hrest
    obtain ⟨n₁, n₂, rfl, hn₁, hn₂, hn₃⟩ := filter_eq_cons_iff.mp hm₂
    rcases h (m₁ ++ n₁) c n₂ (by simp) with hp | hp
    · exact Or.inl hp
    · right
      by_cases hpc : parent c ∈ path
      · exact mem_append_left _ hpc
      · refine mem_append_right _ (hm₁ ▸ mem_filter.mpr ⟨?_, by simpa using hpc⟩)
        rcases mem_append.mp hp with hp | hp
        · exact hp
        · exact absurd (by simpa using hpc) (hn₁ _ hp)
  · cases bs with
    | nil =>
      rw [append_nil] at hbs
      subst hbs
      have hrest' := hrest.symm
      obtain ⟨n₁, n₂, rfl, hn₁, -, -⟩ := filter_eq_cons_iff.mp hrest'
      rcases h n₁ c n₂ rfl with hp | hp
      · exact Or.inl hp
      · by_cases hpc : parent c ∈ path
        · exact Or.inr hpc
        · exact absurd (by simpa using hpc) (hn₁ _ hp)
    | cons b bs =>
      obtain ⟨rfl, -⟩ := hrest
      exact hfront root path hpath l₁ c bs hbs

end MoveFront

end Lib
