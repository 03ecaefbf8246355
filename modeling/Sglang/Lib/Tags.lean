/-
# Tags

A set of tags: one element stands in front of each tag and nowhere else in it, and no tag begins with
another one (`Tags`).  No tag then reaches into another one, so the first place of a tag is found piece by
piece, and a text without tags hides none of those that stand behind it.
-/
import Sglang.Lib.Search

namespace Lib

open List

variable {α : Type}

/-- `a` stands in front of each tag and nowhere else in it, and no tag begins with another one. -/
structure Tags (a : α) (tags : List (List α)) : Prop where
  head : ∀ tag ∈ tags, ∃ t, tag = a :: t ∧ a ∉ t ∧ t ≠ []
  incomparable : ∀ tag ∈ tags, ∀ tag' ∈ tags, tag <+: tag' → tag = tag'

/-- A list in which no tag stands. -/
def TagFree (tags : List (List α)) (l : List α) : Prop := ∀ tag ∈ tags, ¬ tag <:+: l

instance [DecidableEq α] (tags : List (List α)) (l : List α) : Decidable (TagFree tags l) :=
  inferInstanceAs (Decidable (∀ tag ∈ tags, ¬ tag <:+: l))

/-- A list that is empty or begins with `a`. -/
def Opens (a : α) (l : List α) : Prop := ∀ c ∈ l.head?, c = a

variable {c : α} {l : List α}

theorem TagFree.tail {tags : List (List α)} (h : TagFree tags (c :: l)) :
    TagFree tags l := fun tag ht hi => h tag ht (infix_cons hi)

/-- Whether a list begins with another one does not depend on what follows, unless it is cut. -/
theorem prefix_append_iff_of_uncut {tag : List α} (h : l <+: tag → l = tag) (m : List α) :
    tag <+: l ++ m ↔ tag <+: l := by
  refine ⟨fun hp => ?_, fun hp => hp.trans (prefix_append l m)⟩
  rcases prefix_or_prefix_of_prefix hp (prefix_append l m) with hl | hl
  · exact hl
  · rw [h hl]

variable {u v : List α}

/-- What stands around an element that it does not hold stands on one side of it. -/
theorem infix_append_cons_of_notMem {tag : List α} (hc : c ∉ tag)
    (h : tag <:+: u ++ c :: v) : tag <:+: u ∨ tag <:+: v := by
  obtain ⟨s, t, hst⟩ := h
  rw [append_assoc, append_eq_append_iff] at hst
  rcases hst with ⟨s', rfl, htag⟩ | ⟨u', rfl, hcons⟩
  · rw [append_eq_append_iff] at htag
    rcases htag with ⟨t', rfl, -⟩ | ⟨tag', rfl, hcons⟩
    · exact Or.inl ⟨s, t', by rw [append_assoc]⟩
    · rcases tag' with _ | ⟨d, tag'⟩
      · exact Or.inl ⟨s, [], by simp⟩
      · injection hcons with hd
        subst hd
        exact absurd (mem_append_right s' mem_cons_self) hc
  · rcases u' with _ | ⟨d, u'⟩
    · rcases tag with _ | ⟨d, tag⟩
      · exact Or.inl nil_infix
      · injection hcons with hd
        subst hd
        exact absurd mem_cons_self hc
    · injection hcons with _ htail
      exact Or.inr ⟨u', t, (append_assoc _ _ _).trans htail.symm⟩

namespace Tags

variable {a : α} {tags : List (List α)} {tag tag' : List α}

theorem not_cut (h : Tags a tags) (ht : tag ∈ tags) (ht' : tag' ∈ tags)
    (hp : tag' <+: l) (hl : l <+: tag) : l = tag := by
  obtain rfl := h.incomparable tag' ht' tag ht (hp.trans hl)
  exact List.IsPrefix.eq_of_length_le hl hp.length_le

theorem unique (h : Tags a tags) (ht : tag ∈ tags) (ht' : tag' ∈ tags)
    (hp : tag <+: l) (hp' : tag' <+: l) : tag = tag' := by
  rcases prefix_or_prefix_of_prefix hp hp' with hl | hl
  · exact h.incomparable tag ht tag' ht' hl
  · exact (h.incomparable tag' ht' tag ht hl).symm

theorem opens (h : Tags a tags) (ht : tag ∈ tags) (l : List α) : Opens a (tag ++ l) := by
  obtain ⟨t, rfl, -⟩ := h.head tag ht
  intro c hc
  cases hc
  rfl

theorem ne_nil (h : Tags a tags) (ht : tag ∈ tags) : tag ≠ [] := by
  obtain ⟨t, rfl, -⟩ := h.head tag ht
  exact cons_ne_nil _ _

variable {w : List α}

/-- What stands behind elements that open no tag stands behind them all. -/
theorem infix_of_append (h : Tags a tags) (ht : tag ∈ tags) (hw : a ∉ w)
    (hi : tag <:+: w ++ u) : tag <:+: u := by
  induction w with
  | nil => exact hi
  | cons c w ih =>
    rw [mem_cons, not_or] at hw
    rcases infix_cons_iff.mp hi with hp | hi
    · obtain ⟨t, rfl, -⟩ := h.head tag ht
      exact absurd (cons_prefix_cons.mp hp).1 hw.1
    · exact ih hw.2 hi

/-- A tag that stands in front of a list, and of what opens behind it, stands in front of the list. -/
theorem prefix_of_append (h : Tags a tags) (ht : tag ∈ tags) (hu : u ≠ [])
    (hv : Opens a v) (hp : tag <+: u ++ v) : tag <+: u := by
  rcases prefix_or_prefix_of_prefix hp (prefix_append u v) with hl | hl
  · exact hl
  · obtain ⟨t, rfl, hopen, -⟩ := h.head tag ht
    obtain ⟨c, u, rfl⟩ := exists_cons_of_ne_nil hu
    obtain ⟨w, hw⟩ := hl
    rcases w with _ | ⟨d, w⟩
    · rw [append_nil] at hw
      rw [hw]
    · rw [← hw] at hp
      have hd : d :: w <+: v := (prefix_append_right_inj _).mp hp
      obtain ⟨v', rfl⟩ := hd
      obtain rfl : d = a := hv d rfl
      injection hw with _ hw
      exact absurd (by rw [← hw]; simp) hopen

/-- No tag reaches into what opens behind a list. -/
theorem not_infix_append (h : Tags a tags) (ht : tag ∈ tags) : ∀ {u v : List α}, ¬ tag <:+: u →
    ¬ tag <:+: v → Opens a v → ¬ tag <:+: u ++ v
  | [], _, _, hv, _ => hv
  | c :: u, v, hu, hv, hopen => by
    rw [infix_cons_iff, not_or] at hu
    rw [cons_append, infix_cons_iff, not_or]
    exact ⟨fun hp =>
      hu.1 (h.prefix_of_append ht (show c :: u ≠ [] from cons_ne_nil _ _) hopen hp),
      not_infix_append h ht hu.2 hv hopen⟩

/-- A tag does not stand behind another one, if it does not stand in the list behind. -/
theorem not_infix_tag (h : Tags a tags) (ht : tag ∈ tags) (ht' : tag' ∈ tags) (hne : tag ≠ tag')
    (hw : a ∉ w) (hu : ¬ tag <:+: u) : ¬ tag <:+: tag' ++ (w ++ u) := by
  obtain ⟨t, rfl, hopen, -⟩ := h.head tag' ht'
  rw [cons_append, infix_cons_iff, not_or]
  constructor
  · intro hp
    exact hne (h.unique ht ht' hp (prefix_append (a :: t) (w ++ u)))
  · intro hi
    exact hu (h.infix_of_append ht hw (h.infix_of_append ht hopen hi))

variable [DecidableEq α]

/-- **The first place of a tag** behind a list without it. -/
theorem find_append (h : Tags a tags) (ht : tag ∈ tags) : ∀ {u : List α}, ¬ tag <:+: u →
    ∀ l, find tag (u ++ (tag ++ l)) = some u.length
  | [], _, l => by
    obtain ⟨t, rfl, -⟩ := h.head tag ht
    exact if_pos (prefix_append (a :: t) l)
  | c :: u, hu, l => by
    rw [infix_cons_iff, not_or] at hu
    have hno : ¬ tag <+: c :: (u ++ (tag ++ l)) := fun hp =>
      hu.1 (h.prefix_of_append ht (show c :: u ≠ [] from cons_ne_nil _ _) (h.opens ht l) hp)
    rw [cons_append, find, if_neg hno, find_append h ht hu.2]
    rfl

/-- The list behind the first place of a tag, and the list in front of it. -/
theorem split (h : Tags a tags) (ht : tag ∈ tags) (hu : ¬ tag <:+: u) (l : List α) :
    find tag (u ++ (tag ++ l)) = some u.length ∧ (u ++ (tag ++ l)).take u.length = u ∧
      (u ++ (tag ++ l)).drop (u.length + tag.length) = l := by
  refine ⟨h.find_append ht hu l, take_left, ?_⟩
  rw [← drop_drop, drop_left, drop_left]

end Tags

variable {β : Type}

/-- What holds of the list behind each of some pieces holds in front of them all. -/
theorem flatMap_append_induction {P : List α → Prop} {render : β → List α}
    (h : ∀ b u, P u → P (render b ++ u)) (hu : P u) : ∀ l : List β,
    P (l.flatMap render ++ u)
  | [] => hu
  | b :: l => by
    rw [flatMap_cons, append_assoc]
    exact h b _ (flatMap_append_induction h hu l)

theorem length_le_flatMap {render : β → List α} (h : ∀ b, render b ≠ []) (u : List α) :
    ∀ l : List β, l.length ≤ (l.flatMap render ++ u).length
  | [] => Nat.zero_le _
  | b :: l => by
    have hpos := length_pos_iff.mpr (h b)
    have hl := length_le_flatMap h u l
    rw [flatMap_cons, append_assoc, length_append, length_cons]
    omega

end Lib
