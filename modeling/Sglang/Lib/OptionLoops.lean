/-
# Folds and maps that may raise

A loop over a list whose body may raise is a `foldlM` or a `mapM` in `Option`.  Where no round raises it
is the plain fold or map; what each round keeps, the loop keeps; rounds that commute can be taken in any
order.
-/
import Mathlib.Tactic

namespace Lib

open List Option

variable {α β : Type*} {f : β → α → Option β}

/-! ## 1. Maps -/

section

variable {f : α → Option β} {g : α → β} {l l' : List α} {m m' : List β}

theorem mapM_eq_map (h : ∀ x ∈ l, f x = some (g x)) : l.mapM f = some (l.map g) := by
  induction l with
  | nil => rfl
  | cons x l ih =>
    rw [mapM_cons, h x (mem_cons_self ..), ih fun y hy => h y (mem_cons_of_mem _ hy)]
    rfl

theorem mapM_eq_of_forall₂ (h : List.Forall₂ (fun x y => f x = some y) l m) : l.mapM f = some m := by
  induction h with
  | nil => rfl
  | cons hxy _ ih =>
    rw [mapM_cons, hxy, ih]
    rfl

theorem length_mapM (h : l.mapM f = some m) : m.length = l.length := by
  induction l generalizing m with
  | nil =>
    cases h
    rfl
  | cons x l ih =>
    rw [mapM_cons] at h
    obtain ⟨y, -, h⟩ := bind_eq_some_iff.mp h
    obtain ⟨ys, hys, hret⟩ := bind_eq_some_iff.mp h
    cases hret
    rw [length_cons, length_cons, ih hys]

theorem exists_of_mapM (h : l.mapM f = some m) {x : α} (hx : x ∈ l) : ∃ y, f x = some y := by
  induction l generalizing m with
  | nil => exact absurd hx not_mem_nil
  | cons z l ih =>
    rw [mapM_cons] at h
    obtain ⟨y, hy, h⟩ := bind_eq_some_iff.mp h
    obtain ⟨ys, hys, -⟩ := bind_eq_some_iff.mp h
    rcases mem_cons.mp hx with rfl | hx
    · exact ⟨y, hy⟩
    · exact ih hys hx

theorem mapM_append_some (h : l.mapM f = some m) (h' : l'.mapM f = some m') :
    (l ++ l').mapM f = some (m ++ m') := by
  rw [mapM_append, h, h']
  rfl

end

/-! ## 2. Folds -/

/-- A fold that does not raise. -/
theorem foldlM_eq_foldl {g : β → α → β} {l : List α} (h : ∀ b, ∀ x ∈ l, f b x = some (g b x)) (b : β) :
    l.foldlM f b = some (l.foldl g b) := by
  induction l generalizing b with
  | nil => rfl
  | cons x l ih =>
    rw [foldlM_cons, h b x (mem_cons_self ..), bind_eq_bind, bind_some,
      ih fun b y hy => h b y (mem_cons_of_mem _ hy)]
    rfl

/-- What each step keeps, a run of them keeps. -/
theorem foldlM_rel {R : β → β → Prop} (hrefl : ∀ b, R b b)
    (htrans : ∀ {b₁ b₂ b₃}, R b₁ b₂ → R b₂ b₃ → R b₁ b₃)
    (hstep : ∀ {b b' x}, f b x = some b' → R b b') :
    ∀ {l : List α} {b b' : β}, l.foldlM f b = some b' → R b b'
  | [], b, b', h => by
    cases h
    exact hrefl b
  | x :: l, b, b', h => by
    rw [foldlM_cons] at h
    obtain ⟨b₁, h1, h2⟩ := bind_eq_some_iff.mp h
    exact htrans (hstep h1) (foldlM_rel hrefl htrans hstep h2)

/-- **Steps that commute** can be taken in any order. -/
theorem foldlM_perm {l l' : List α} (h : l.Perm l')
    (hcomm : ∀ x ∈ l, ∀ y ∈ l, x ≠ y → ∀ b, (f b x).bind (f · y) = (f b y).bind (f · x)) (b : β) :
    l.foldlM f b = l'.foldlM f b := by
  rw [List.foldlM_eq_foldl, List.foldlM_eq_foldl]
  refine h.foldl_eq' (fun x hx y hy z => ?_) _
  rcases z with _ | b
  · rfl
  · by_cases hxy : x = y
    · rw [hxy]
    · exact hcomm x hx y hy hxy b

end Lib
