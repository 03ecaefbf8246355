/-
# Objects that are put together from the texts of their values

A value that is read from a text is also read from it in front of what may follow a value
(`parse_append`), so an object may be written with texts that are read as its values, whatever their white
space and their escapes (`loads_assemble`).  A value that is read has one member for each key in every
object (`canonical_loads`).
-/
import Sglang.Lib.Json

namespace Lib

namespace Json

open List Option

/-! ## 1. Reading in front of other text -/

theorem skipWhite_append {l : Text} (h : skipWhite l ≠ []) (m : Text) :
    skipWhite (l ++ m) = skipWhite l ++ m := by
  induction l with
  | nil => exact absurd rfl h
  | cons c l ih =>
    by_cases hc : isWhite c = true
    · rw [skipWhite, dropWhile_cons_of_pos hc] at h
      rw [cons_append, skipWhite, skipWhite, dropWhile_cons_of_pos hc, dropWhile_cons_of_pos hc]
      exact ih h
    · rw [cons_append, skipWhite_cons (Bool.eq_false_iff.mpr hc),
        skipWhite_cons (Bool.eq_false_iff.mpr hc)]
      rfl

theorem skipWhite_append_of_nil {l : Text} (h : skipWhite l = []) (m : Text) :
    skipWhite (l ++ m) = skipWhite m := by
  rw [skipWhite, dropWhile_append_of_pos (dropWhile_eq_nil_iff.mp h)]
  rfl

theorem scanItems_append {l : Text} {is : List StrItem} {r : Text} (h : scanItems l = some (is, r))
    (m : Text) : scanItems (l ++ m) = some (is, r ++ m) := by
  induction l using scanItems.induct generalizing is r with
  | case1 => cases h
  | case2 l =>
    rw [scanItems.eq_def] at h
    cases h
    rw [scanItems.eq_def]
    exact if_pos rfl
  | case3 hq =>
    rw [scanItems.eq_def] at h
    cases h
  | case4 a b c d l hq ih =>
    rw [scanItems.eq_def] at h
    obtain ⟨n, hn, h⟩ := bind_eq_some_iff.mp h
    obtain ⟨p, hp, heq⟩ := map_eq_some_iff.mp h
    cases heq
    rw [scanItems.eq_def]
    simp [hn, ih hp]
  | case5 l hshort hq =>
    rw [scanItems.eq_def] at h
    dsimp only at h
    rw [if_neg hq, if_pos rfl, if_pos rfl] at h
    split at h
    · exact absurd rfl (hshort _ _ _ _ _)
    · cases h
  | case6 e l hu hq ih =>
    rw [scanItems.eq_def] at h
    dsimp only at h
    rw [if_neg hu] at h
    obtain ⟨x, hx, h⟩ := bind_eq_some_iff.mp h
    obtain ⟨p, hp, heq⟩ := map_eq_some_iff.mp h
    cases heq
    rw [scanItems.eq_def]
    simp [if_neg hu, hx, ih hp]
  | case7 c l hq hb hlt =>
    rw [scanItems.eq_def] at h
    dsimp only at h
    rw [if_neg hq, if_neg hb, if_pos hlt] at h
    cases h
  | case8 c l hq hb hlt ih =>
    rw [scanItems.eq_def] at h
    dsimp only at h
    rw [if_neg hq, if_neg hb, if_neg hlt] at h
    obtain ⟨p, hp, heq⟩ := map_eq_some_iff.mp h
    cases heq
    rw [scanItems.eq_def]
    simp [if_neg hq, if_neg hb, if_neg hlt, ih hp]

theorem parseStr_append {l s r : Text} (h : parseStr l = some (s, r)) (m : Text) :
    parseStr (l ++ m) = some (s, r ++ m) := by
  obtain ⟨p, hp, h⟩ := bind_eq_some_iff.mp h
  obtain ⟨s', hs, heq⟩ := map_eq_some_iff.mp h
  cases heq
  rw [parseStr, scanItems_append hp, bind_some, hs]
  rfl

theorem takeWhile_digits {d x : Text} (hd : ∀ c ∈ d, isDigit c = true)
    (hx : ∀ c ∈ x.head?, isDigit c = false) :
    (d ++ x).takeWhile isDigit = d ∧ (d ++ x).dropWhile isDigit = x := by
  have hx' : x.takeWhile isDigit = [] ∧ x.dropWhile isDigit = x := by
    rcases x with _ | ⟨c, x⟩
    · exact ⟨rfl, rfl⟩
    · have hc := hx c rfl
      simp [hc]
  rw [takeWhile_append_of_pos hd, dropWhile_append_of_pos hd, hx'.1, hx'.2]
  exact ⟨append_nil d, rfl⟩

variable {c : Char}

theorem isDigit_of_mem_takeWhile {l : Text} (h : c ∈ l.takeWhile isDigit) :
    isDigit c = true := mem_takeWhile_imp h

theorem scanWhole_text {l w r : Text} (h : scanWhole l = some (w, r)) :
    l = w ++ r ∧ ∀ x : Text, (∀ c ∈ x.head?, isDigit c = false) → scanWhole (w ++ x) = some (w, x) := by
  rcases l with _ | ⟨c, l⟩
  · cases h
  · rw [scanWhole] at h
    split at h
    · rename_i hc
      cases h
      exact ⟨rfl, fun x _ => if_pos hc⟩
    · rename_i hc
      split at h
      · rename_i hd
        cases h
        refine ⟨by rw [cons_append, takeWhile_append_dropWhile], fun x hx => ?_⟩
        have hdigits := takeWhile_digits (d := l.takeWhile isDigit)
          (fun c => isDigit_of_mem_takeWhile) hx
        rw [cons_append, scanWhole, if_neg hc, if_pos hd, hdigits.1, hdigits.2]
      · cases h

theorem scanFraction_text (l : Text) : l = (scanFraction l).1 ++ (scanFraction l).2 ∧
    (∀ c ∈ (scanFraction l).1.head?, c = '.') ∧
    ∀ x : Text, (∀ c ∈ x.head?, isDigit c = false ∧ c ≠ '.') →
      scanFraction ((scanFraction l).1 ++ x) = ((scanFraction l).1, x) := by
  have hnone : ∀ x : Text, (∀ c ∈ x.head?, isDigit c = false ∧ c ≠ '.') →
      scanFraction ([] ++ x) = ([], x) := by
    intro x hx
    rcases x with _ | ⟨c, x⟩
    · rfl
    · exact if_neg fun h => (hx c rfl).2 h.1
  rcases l with _ | ⟨c, l⟩
  · exact ⟨rfl, fun _ h => (by cases h), hnone⟩
  · rw [scanFraction]
    split
    · rename_i hc
      refine ⟨by rw [cons_append, takeWhile_append_dropWhile],
        fun d hd => by cases hd; exact hc.1, fun x hx => ?_⟩
      have hdigits := takeWhile_digits (d := l.takeWhile isDigit)
        (fun c => isDigit_of_mem_takeWhile) fun c h => (hx c h).1
      rw [cons_append, scanFraction, hdigits.1, hdigits.2, if_pos hc]
    · exact ⟨rfl, fun _ h => (by cases h), hnone⟩

theorem scanExponent_text (l : Text) : l = (scanExponent l).1 ++ (scanExponent l).2 ∧
    (∀ c ∈ (scanExponent l).1.head?, c = 'e' ∨ c = 'E') ∧
    scanExponent (scanExponent l).1 = ((scanExponent l).1, []) := by
  rcases l with _ | ⟨c, l⟩
  · exact ⟨rfl, fun _ h => (by cases h), rfl⟩
  · have hsign : l = (scanSign l).1 ++ (scanSign l).2 ∧ ∀ x : Text,
        (∀ d ∈ x.head?, isDigit d = true) → scanSign ((scanSign l).1 ++ x) = ((scanSign l).1, x) := by
      have hnone : ∀ x : Text, (∀ d ∈ x.head?, isDigit d = true) → scanSign ([] ++ x) = ([], x) := by
        intro x hx
        rcases x with _ | ⟨d, x⟩
        · rfl
        · have hd := hx d rfl
          refine if_neg fun h => ?_
          rcases h with rfl | rfl
          · exact absurd hd (by decide)
          · exact absurd hd (by decide)
      rcases l with _ | ⟨d, l⟩
      · exact ⟨rfl, hnone⟩
      · rw [scanSign]
        split
        · rename_i hd
          exact ⟨rfl, fun x _ => if_pos hd⟩
        · exact ⟨rfl, hnone⟩
    have hcons : ∀ (c : Char) (l : Text), scanExponent (c :: l)
        = if (c = 'e' ∨ c = 'E') ∧ (scanSign l).2.takeWhile isDigit ≠ [] then
            (c :: ((scanSign l).1 ++ (scanSign l).2.takeWhile isDigit),
              (scanSign l).2.dropWhile isDigit)
          else ([], c :: l) := fun _ _ => rfl
    rw [hcons]
    split
    · rename_i hc
      refine ⟨?_, fun d hd => by cases hd; exact hc.1, ?_⟩
      · rw [cons_append, append_assoc, takeWhile_append_dropWhile, ← hsign.1]
      · have hhead : ∀ d ∈ ((scanSign l).2.takeWhile isDigit).head?, isDigit d = true := fun d hd =>
          isDigit_of_mem_takeWhile (mem_of_mem_head? hd)
        have hdigits := takeWhile_digits (d := (scanSign l).2.takeWhile isDigit) (x := [])
          (fun c => isDigit_of_mem_takeWhile) (fun _ h => by cases h)
        rw [append_nil] at hdigits
        rw [hcons, hsign.2 _ hhead]
        rw [hdigits.1, hdigits.2, if_pos hc]
    · exact ⟨rfl, fun _ h => (by cases h), rfl⟩

variable {q : Text} {p : NumberParts}

/-- **A number is the text of its parts**, and that text is a number. -/
theorem scanNumber_text {l : Text} (h : scanNumber l = some (p, q)) :
    l = p.text ++ q ∧ scanNumber p.text = some (p, []) := by
  have hunsigned : ∀ {b : Bool} {l : Text}, scanUnsigned b l = some (p, q) →
      p.negative = b ∧ l = p.whole ++ p.tail ++ q ∧
        scanUnsigned b (p.whole ++ p.tail) = some (p, []) := by
    intro b l h
    obtain ⟨⟨w, r⟩, hw, heq⟩ := map_eq_some_iff.mp h
    cases heq
    obtain ⟨hl, hwhole⟩ := scanWhole_text hw
    obtain ⟨hr, hdot, hfraction⟩ := scanFraction_text r
    obtain ⟨hr', he, hexponent⟩ := scanExponent_text (scanFraction r).2
    have hexp : ∀ c ∈ (scanExponent (scanFraction r).2).1.head?, isDigit c = false ∧ c ≠ '.' := by
      intro c hc
      rcases he c hc with rfl | rfl
      · decide
      · decide
    have htail : ∀ c ∈ ((scanFraction r).1 ++ (scanExponent (scanFraction r).2).1).head?,
        isDigit c = false := by
      intro c hc
      rw [head?_append, mem_def, or_eq_some_iff] at hc
      rcases hc with hc | ⟨-, hc⟩
      · rw [hdot c hc]
        rfl
      · exact (hexp c hc).1
    refine ⟨rfl, ?_, ?_⟩
    · rw [append_assoc, append_assoc, ← hr', ← hr]
      exact hl
    · rw [scanUnsigned, hwhole _ htail, map_some]
      rw [hfraction _ hexp, hexponent]
  rcases l with _ | ⟨c, l⟩
  · cases h
  · rw [scanNumber] at h
    split at h
    · rename_i hc
      obtain ⟨hb, hl, hscan⟩ := hunsigned h
      have htext : p.text = '-' :: (p.whole ++ p.tail) := by
        rw [NumberParts.text, hb]
        rfl
      rw [htext, scanNumber, hc, hl]
      exact ⟨rfl, hscan⟩
    · rename_i hc
      obtain ⟨hb, hl, hscan⟩ := hunsigned h
      have htext : p.text = p.whole ++ p.tail := by
        rw [NumberParts.text, hb, if_neg Bool.false_ne_true, nil_append]
      obtain ⟨d, t, ht⟩ : ∃ d t, p.whole ++ p.tail = d :: t := by
        rcases ht : p.whole ++ p.tail with _ | ⟨d, t⟩
        · rw [ht] at hscan
          cases hscan
        · exact ⟨d, t, rfl⟩
      have hd : d ≠ '-' := by
        rw [ht] at hl
        injection hl with hcd
        exact hcd ▸ hc
      rw [htext]
      refine ⟨hl, ?_⟩
      rw [ht] at hscan ⊢
      rw [scanNumber, if_neg hd]
      exact hscan

/-- A number is read in front of other text, if what follows it may follow a number. -/
theorem scanNumber_append_of_ends {l m : Text} (h : scanNumber l = some (p, q))
    (hm : Ends (q ++ m)) : scanNumber (l ++ m) = some (p, q ++ m) := by
  obtain ⟨hl, hp⟩ := scanNumber_text h
  rw [hl, append_assoc]
  exact scanNumber_append hm hp

variable {v : Json}

theorem parseNumber_append {l r m : Text} (hm : Ends (r ++ m))
    (h : parseNumber l = some (v, r)) : parseNumber (l ++ m) = some (v, r ++ m) := by
  obtain ⟨⟨p, q⟩, hp, h⟩ := bind_eq_some_iff.mp h
  have hq : q = r := by
    split at h
    · cases h
      rfl
    · split at h
      · cases h
        rfl
      · cases h
  subst hq
  rw [parseNumber, scanNumber_append_of_ends hp hm, bind_some]
  split at h
  · rename_i htail
    rw [if_pos htail]
    cases h
    rfl
  · rename_i htail
    rw [if_neg htail]
    split at h
    · rename_i hfloat
      rw [dif_pos hfloat]
      cases h
      rfl
    · cases h

/-- The words that are values. -/
def words : List (Text × Json) :=
  [(['n', 'u', 'l', 'l'], .null), (['t', 'r', 'u', 'e'], .bool true),
    (['f', 'a', 'l', 's', 'e'], .bool false), (['N', 'a', 'N'], .nan),
    (['I', 'n', 'f', 'i', 'n', 'i', 't', 'y'], .infinity false),
    (['-', 'I', 'n', 'f', 'i', 'n', 'i', 't', 'y'], .infinity true)]

theorem parseScalar_word {w : Text × Json} (hw : w ∈ words) (r : Text) :
    parseScalar (w.1 ++ r) = some (w.2, r) := by
  simp only [words, mem_cons, not_mem_nil, or_false] at hw
  rcases hw with rfl | rfl | rfl | rfl | rfl | rfl
  all_goals simp [parseScalar, parseWord]

theorem parseScalar_cases {l r : Text} (h : parseScalar l = some (v, r)) :
    (∃ w ∈ words, l = w.1 ++ r ∧ v = w.2) ∨ parseNumber l = some (v, r) := by
  have hword : ∀ w ∈ words, parseWord w.1 w.2 l = some (v, r) →
      (∃ w ∈ words, l = w.1 ++ r ∧ v = w.2) ∨ parseNumber l = some (v, r) := by
    intro w hw h
    rw [parseWord] at h
    split at h
    · rename_i hp
      obtain ⟨t, rfl⟩ := hp
      rw [drop_left] at h
      cases h
      exact .inl ⟨w, hw, rfl, rfl⟩
    · cases h
  simp only [parseScalar, orElse_eq_orElse, orElse_eq_or, or_eq_some_iff] at h
  rcases h with h | ⟨-, h | ⟨-, h | ⟨-, h | ⟨-, h | ⟨-, h | ⟨-, h⟩⟩⟩⟩⟩⟩
  · exact hword (_, _) (by simp [words]) h
  · exact hword (_, _) (by simp [words]) h
  · exact hword (_, _) (by simp [words]) h
  · exact hword (_, _) (by simp [words]) h
  · exact hword (_, _) (by simp [words]) h
  · exact hword (_, _) (by simp [words]) h
  · exact .inr h

theorem parseScalar_append {l r m : Text} (hm : Ends (r ++ m))
    (h : parseScalar l = some (v, r)) : parseScalar (l ++ m) = some (v, r ++ m) := by
  rcases parseScalar_cases h with ⟨w, hw, rfl, rfl⟩ | hn
  · rw [append_assoc]
    exact parseScalar_word hw (r ++ m)
  · have happend := parseNumber_append hm hn
    obtain ⟨⟨p, q⟩, hp, -⟩ := bind_eq_some_iff.mp happend
    rw [parseScalar_number hp]
    exact happend

theorem ends_white (h : isWhite c = true) : isDigit c = false ∧ c ≠ '.' ∧ c ≠ 'e' ∧
    c ≠ 'E' ∧ c ≠ '+' ∧ c ≠ '-' := by
  simp only [isWhite, Bool.or_eq_true, decide_eq_true_eq] at h
  rcases h with ((rfl | rfl) | rfl) | rfl
  all_goals decide

variable {t : Text}

/-- What closes or separates values may follow a number. -/
theorem ends_of_skipWhite {l : Text} (h : skipWhite l = c :: t)
    (hc : c = ']' ∨ c = ',' ∨ c = '\x7d') (m : Text) : Ends (l ++ m) := by
  rcases l with _ | ⟨d, l⟩
  · cases h
  · refine ends_cons ?_
    by_cases hd : isWhite d = true
    · exact ends_white hd
    · rw [skipWhite_cons (Bool.eq_false_iff.mpr hd)] at h
      cases h
      rcases hc with rfl | rfl | rfl
      all_goals decide

/-- What follows the value of an element or a member. -/
theorem skipWhite_cons_append {l r : Text} (h : skipWhite l = c :: r) (m : Text) :
    skipWhite (l ++ m) = c :: (r ++ m) := by
  rw [skipWhite_append (by rw [h]; exact cons_ne_nil _ _), h]
  rfl

theorem skipWhite_append_of_some {α : Type} {f : Text → Option α} (hf : f [] = none) {l : Text}
    {a : α} (h : f (skipWhite l) = some a) (m : Text) :
    skipWhite (l ++ m) = skipWhite l ++ m := by
  refine skipWhite_append (fun hnil => ?_) m
  rw [hnil, hf] at h
  cases h

theorem parseValue_nil (fuel : ℕ) : parseValue fuel [] = none := by
  cases fuel <;> rfl

theorem parseElements_nil (fuel : ℕ) : parseElements fuel [] = none := by
  cases fuel with
  | zero => rfl
  | succ fuel => rw [parseElements, parseValue_nil, bind_none]

theorem parseMembers_nil (fuel : ℕ) : parseMembers fuel [] = none := by
  cases fuel <;> rfl

theorem parseScalar_ne_obj {l r : Text} {m : List (Text × Json)} :
    parseScalar l ≠ some (.obj m, r) := by
  intro h
  rcases parseScalar_cases h with ⟨w, hw, -, hobj⟩ | hn
  · simp only [words, mem_cons, not_mem_nil, or_false] at hw
    rcases hw with rfl | rfl | rfl | rfl | rfl | rfl
    all_goals cases hobj
  · obtain ⟨p, -, h⟩ := bind_eq_some_iff.mp hn
    split at h
    · cases h
    · split at h
      · cases h
      · cases h

section Append

variable {α β : Type} {f f' : Text → Option (α × Text)} {m l r : Text}

/-- What follows an opening bracket. -/
theorem delimited_append (hnil : f [] = none)
    (hf : ∀ l a r, f l = some (a, r) → f' (l ++ m) = some (a, r ++ m)) (close : Char) (empty : β)
    (g : α → β) {b : β}
    (h : (if (skipWhite l).head? = some close then some (empty, (skipWhite l).tail)
      else (f (skipWhite l)).map fun p => (g p.1, p.2)) = some (b, r)) :
    (if (skipWhite (l ++ m)).head? = some close then some (empty, (skipWhite (l ++ m)).tail)
      else (f' (skipWhite (l ++ m))).map fun p => (g p.1, p.2)) = some (b, r ++ m) := by
  rcases hl : skipWhite l with _ | ⟨d, t⟩
  · rw [hl, hnil] at h
    cases h
  · rw [skipWhite_cons_append hl]
    rw [hl] at h
    split at h
    · rw [if_pos ‹_›]
      cases h
      rfl
    · rw [if_neg ‹_›]
      obtain ⟨p, hp, heq⟩ := map_eq_some_iff.mp h
      cases heq
      rw [← cons_append, hf _ _ _ hp]
      rfl

/-- What follows an element or a member. -/
theorem listed_append (hnil : f [] = none)
    (hf : ∀ l a r, f l = some (a, r) → f' (l ++ m) = some (a, r ++ m)) {close : Char}
    (hclose : close = ']' ∨ close = '\x7d') (last : β) (g : α → β) {b : β}
    (h : (match skipWhite l with
      | [] => none
      | c :: t => if c = close then some (last, t)
        else if c = ',' then (f (skipWhite t)).map fun p => (g p.1, p.2) else none) = some (b, r)) :
    Ends (l ++ m) ∧ (match skipWhite (l ++ m) with
      | [] => none
      | c :: t => if c = close then some (last, t)
        else if c = ',' then (f' (skipWhite t)).map fun p => (g p.1, p.2) else none)
      = some (b, r ++ m) := by
  rcases hl : skipWhite l with _ | ⟨c, t⟩
  · rw [hl] at h
    cases h
  rw [hl] at h
  rw [skipWhite_cons_append hl]
  dsimp only at h ⊢
  split at h
  · rename_i hc
    rw [if_pos hc]
    cases h
    refine ⟨ends_of_skipWhite hl ?_ m, rfl⟩
    rcases hclose with rfl | rfl
    · exact .inl hc
    · exact .inr (.inr hc)
  · rename_i hne
    rw [if_neg hne]
    split at h
    · rename_i hc
      obtain ⟨p, hp, heq⟩ := map_eq_some_iff.mp h
      cases heq
      rw [if_pos hc, skipWhite_append_of_some hnil hp m, hf _ _ _ hp]
      exact ⟨ends_of_skipWhite hl (.inr (.inl hc)) m, rfl⟩
    · cases h

end Append

/-- **A value is read in front of what may follow it**, an object in front of anything, and so are
elements and members. -/
theorem parse_append (m : Text) (fuel : ℕ) : ∀ fuel', fuel ≤ fuel' →
    (∀ l v r, (Ends (r ++ m) ∨ ∃ ms, v = .obj ms) → parseValue fuel l = some (v, r) →
      parseValue fuel' (l ++ m) = some (v, r ++ m)) ∧
    (∀ l vs r, parseElements fuel l = some (vs, r) →
      parseElements fuel' (l ++ m) = some (vs, r ++ m)) ∧
    (∀ l ms r, parseMembers fuel l = some (ms, r) →
      parseMembers fuel' (l ++ m) = some (ms, r ++ m)) := by
  induction fuel with
  | zero =>
    exact fun fuel' _ => ⟨fun l v r _ h => (by cases h), fun l vs r h => (by cases h),
      fun l ms r h => (by cases h)⟩
  | succ fuel ih =>
    intro fuel' hle
    obtain ⟨fuel', rfl⟩ : ∃ k, fuel' = k + 1 := ⟨fuel' - 1, by omega⟩
    obtain ⟨ihv, ihe, ihm⟩ := ih fuel' (by omega)
    refine ⟨fun l v r hm h => ?_, fun l vs r h => ?_, fun l ms r h => ?_⟩
    · rcases l with _ | ⟨c, l⟩
      · cases h
      rw [parseValue] at h
      rw [cons_append, parseValue]
      split at h
      · obtain ⟨p, hp, heq⟩ := map_eq_some_iff.mp h
        cases heq
        rw [if_pos ‹_›, parseStr_append hp]
        rfl
      rw [if_neg ‹_›]
      split at h
      · rw [if_pos ‹_›]
        exact delimited_append (parseElements_nil fuel) ihe _ _ _ h
      rw [if_neg ‹_›]
      split at h
      · rw [if_pos ‹_›]
        exact delimited_append (parseMembers_nil fuel) ihm _ _ _ h
      rw [if_neg ‹_›]
      rcases hm with hm | ⟨ms, rfl⟩
      · exact parseScalar_append hm h
      · exact absurd h parseScalar_ne_obj
    · rw [parseElements] at h ⊢
      obtain ⟨p, hp, h⟩ := bind_eq_some_iff.mp h
      obtain ⟨hends, hrest⟩ := listed_append (parseElements_nil fuel) ihe (.inl rfl) [p.1] (p.1 :: ·) h
      rw [ihv _ _ _ (.inl hends) hp]
      exact hrest
    · rcases l with _ | ⟨c, l⟩
      · cases h
      rw [parseMembers] at h
      rw [cons_append, parseMembers]
      split at h
      · obtain ⟨k, hk, h⟩ := bind_eq_some_iff.mp h
        rw [if_pos ‹_›, parseStr_append hk, bind_some]
        rcases hw : skipWhite k.2 with _ | ⟨d, t⟩
        · rw [hw] at h
          cases h
        rw [hw] at h
        rw [skipWhite_cons_append hw]
        dsimp only at h ⊢
        split at h
        · obtain ⟨p, hp, h⟩ := bind_eq_some_iff.mp h
          obtain ⟨hends, hrest⟩ := listed_append (parseMembers_nil fuel) ihm (.inr rfl) [(k.1, p.1)]
            (insertMember k.1 p.1) h
          rw [if_pos ‹_›, skipWhite_append_of_some (parseValue_nil fuel) hp m,
            ihv _ _ _ (.inl hends) hp]
          exact hrest
        · cases h
      · cases h

/-! ## 2. Values that are read -/

/-- Members with canonical values and one member for each key. -/
structure Canonical (m : List (Text × Json)) : Prop where
  values : ∀ p ∈ m, canonical p.2 = p.2
  keys : (m.map (·.1)).Nodup

variable {k : Text}

theorem lookup_eq_none_of_notMem {m : List (Text × Json)} (h : k ∉ m.map (·.1)) :
    m.lookup k = none := by
  rw [lookup_eq_none_iff]
  intro p hp
  exact bne_iff_ne.mpr fun heq => h (List.mem_map.mpr ⟨p, hp, heq.symm⟩)

theorem insertMember_of_notMem {m : List (Text × Json)} (h : k ∉ m.map (·.1)) (v : Json) :
    insertMember k v m = (k, v) :: m := by
  rw [insertMember, lookup_eq_none_of_notMem h]

theorem Canonical.insertMember {m : List (Text × Json)} (hv : canonical v = v)
    (hm : Canonical m) : Canonical (insertMember k v m) := by
  rw [Json.insertMember]
  cases hl : m.lookup k with
  | none =>
    refine ⟨fun p hp => ?_, nodup_cons.mpr ⟨fun hk => ?_, hm.keys⟩⟩
    · rcases mem_cons.mp hp with rfl | hp
      · exact hv
      · exact hm.values p hp
    · obtain ⟨p, hp, rfl⟩ := List.mem_map.mp hk
      exact bne_iff_ne.mp (lookup_eq_none_iff.mp hl p hp) rfl
  | some w =>
    have hw : (k, w) ∈ m := by
      obtain ⟨u, u', rfl, -⟩ := lookup_eq_some_iff.mp hl
      exact mem_append_right _ mem_cons_self
    refine ⟨fun p hp => ?_, nodup_cons.mpr ⟨fun hk => ?_, ?_⟩⟩
    · rcases mem_cons.mp hp with rfl | hp
      · exact hm.values (k, w) hw
      · exact hm.values p (mem_filter.mp hp).1
    · obtain ⟨p, hp, rfl⟩ := List.mem_map.mp hk
      simpa using (mem_filter.mp hp).2
    · exact hm.keys.sublist (filter_sublist.map _)

theorem Canonical.eq : ∀ {m : List (Text × Json)}, Canonical m → canonicalMembers m = m
  | [], _ => rfl
  | (k, v) :: m, h => by
    have hkeys := nodup_cons.mp h.keys
    have htail : Canonical m := ⟨fun p hp => h.values p (mem_cons_of_mem _ hp), hkeys.2⟩
    rw [canonicalMembers, htail.eq, h.values (k, v) mem_cons_self, insertMember_of_notMem hkeys.1]

theorem canonicalElements_eq : ∀ {l : List Json}, (∀ v ∈ l, canonical v = v) → canonicalElements l = l
  | [], _ => rfl
  | v :: l, h => by
    rw [canonicalElements, h v mem_cons_self,
      canonicalElements_eq fun w hw => h w (mem_cons_of_mem _ hw)]

theorem canonical_of_parseScalar {l r : Text} (h : parseScalar l = some (v, r)) :
    canonical v = v := by
  rcases parseScalar_cases h with ⟨w, hw, -, rfl⟩ | hn
  · simp only [words, mem_cons, not_mem_nil, or_false] at hw
    rcases hw with rfl | rfl | rfl | rfl | rfl | rfl
    all_goals rfl
  · obtain ⟨p, -, h⟩ := bind_eq_some_iff.mp hn
    split at h
    · cases h
      rfl
    · split at h
      · cases h
        rfl
      · cases h

/-- **What is read is canonical.** -/
theorem canonical_of_parse (fuel : ℕ) :
    (∀ l v r, parseValue fuel l = some (v, r) → canonical v = v) ∧
    (∀ l vs r, parseElements fuel l = some (vs, r) → ∀ v ∈ vs, canonical v = v) ∧
    (∀ l ms r, parseMembers fuel l = some (ms, r) → Canonical ms) := by
  induction fuel with
  | zero =>
    exact ⟨fun l v r h => (by cases h), fun l vs r h => (by cases h), fun l ms r h => (by cases h)⟩
  | succ fuel ih =>
    obtain ⟨ihv, ihe, ihm⟩ := ih
    refine ⟨fun l v r h => ?_, fun l vs r h => ?_, fun l ms r h => ?_⟩
    · rcases l with _ | ⟨c, l⟩
      · cases h
      rw [parseValue] at h
      split at h
      · obtain ⟨p, hp, heq⟩ := map_eq_some_iff.mp h
        cases heq
        rfl
      split at h
      · split at h
        · cases h
          rfl
        · obtain ⟨p, hp, heq⟩ := map_eq_some_iff.mp h
          cases heq
          rw [canonical, canonicalElements_eq (ihe _ _ _ hp)]
      split at h
      · split at h
        · cases h
          rfl
        · obtain ⟨p, hp, heq⟩ := map_eq_some_iff.mp h
          cases heq
          rw [canonical, (ihm _ _ _ hp).eq]
      · exact canonical_of_parseScalar h
    · rw [parseElements] at h
      obtain ⟨p, hp, h⟩ := bind_eq_some_iff.mp h
      split at h
      · cases h
      split at h
      · cases h
        intro v hv
        cases mem_singleton.mp hv
        exact ihv _ _ _ hp
      split at h
      · obtain ⟨q, hq, heq⟩ := map_eq_some_iff.mp h
        cases heq
        intro v hv
        rcases mem_cons.mp hv with rfl | hv
        · exact ihv _ _ _ hp
        · exact ihe _ _ _ hq v hv
      · cases h
    · rcases l with _ | ⟨c, l⟩
      · cases h
      rw [parseMembers] at h
      split at h
      · obtain ⟨k, -, h⟩ := bind_eq_some_iff.mp h
        split at h
        · cases h
        split at h
        · obtain ⟨p, hp, h⟩ := bind_eq_some_iff.mp h
          split at h
          · cases h
          split at h
          · cases h
            have hnil : Canonical [] := ⟨fun _ h => absurd h not_mem_nil, nodup_nil⟩
            exact Canonical.insertMember (ihv _ _ _ hp) hnil
          split at h
          · obtain ⟨q, hq, heq⟩ := map_eq_some_iff.mp h
            cases heq
            exact Canonical.insertMember (ihv _ _ _ hp) (ihm _ _ _ hq)
          · cases h
        · cases h
      · cases h

theorem canonical_loads {l : Text} (h : loads l = some v) : canonical v = v := by
  obtain ⟨p, hp, h⟩ := bind_eq_some_iff.mp h
  split at h
  · cases h
    exact (canonical_of_parse _).1 _ _ _ hp
  · cases h

/-! ## 3. Texts of values -/

/-- Members whose values are given as texts. -/
def assemble (ascii : Bool) : List (Text × Text) → Text
  | [] => []
  | (k, t) :: m => dumpsStr ascii k ++ (':' :: ' ' :: (t ++
      (if m = [] then [] else ',' :: ' ' :: assemble ascii m)))

/-- White space may stand between a number and what may follow it. -/
theorem ends_append_of_white {l m : Text} (h : skipWhite l = []) (hm : Ends m) : Ends (l ++ m) := by
  rcases l with _ | ⟨d, l⟩
  · exact hm
  · refine ends_cons ?_
    by_cases hd : isWhite d = true
    · exact ends_white hd
    · rw [skipWhite_cons (Bool.eq_false_iff.mpr hd)] at h
      cases h

/-- A text that is read as a value is read in front of what may follow. -/
theorem parseValue_of_loads (h : loads t = some v) :
    ∃ q, skipWhite q = [] ∧ ∀ {fuel : ℕ} {m : Text}, t.length < fuel → Ends m →
      parseValue fuel (skipWhite (t ++ m)) = some (v, q ++ m) := by
  obtain ⟨⟨w, q⟩, hp, h⟩ := bind_eq_some_iff.mp h
  split at h
  · rename_i hq
    cases h
    refine ⟨q, hq, fun {fuel m} hfuel hm => ?_⟩
    rw [skipWhite_append_of_some (parseValue_nil _) hp m]
    exact (parse_append m _ fuel hfuel).1 _ _ _ (.inl (ends_append_of_white hq hm)) hp
  · cases h

/-- The members that are read. -/
def readMembers (m : List (Text × Json)) : List (Text × Json) :=
  m.foldr (fun p m => insertMember p.1 p.2 m) []

theorem readMembers_of_nodup {m : List (Text × Json)} (h : (m.map (·.1)).Nodup) :
    readMembers m = m := by
  induction m with
  | nil => rfl
  | cons p m ih =>
    obtain ⟨hp, hm⟩ := nodup_cons.mp h
    rw [readMembers, foldr_cons, ← readMembers, ih hm, insertMember_of_notMem hp]

/-- Members begin with a quotation mark. -/
theorem exists_assemble (ascii : Bool) {m : List (Text × Text)} (h : m ≠ []) :
    ∃ l, assemble ascii m = '\x22' :: l := by
  obtain ⟨⟨k, t⟩, m', rfl⟩ := exists_cons_of_ne_nil h
  exact ⟨_, rfl⟩

/-- The members that are read, if a brace stands behind them. -/
theorem parseMembers_assemble {ascii : Bool} {r : Text} (hr : ∀ c ∈ r.head?, c = '\x7d') :
    ∀ {m : List (Text × Text × Json)} {fuel : ℕ}, m ≠ [] → (∀ p ∈ m, loads p.2.1 = some p.2.2) →
    (assemble ascii (m.map fun p => (p.1, p.2.1))).length < fuel →
    parseMembers fuel (assemble ascii (m.map fun p => (p.1, p.2.1)) ++ r)
      = if r = [] then none else some (readMembers (m.map fun p => (p.1, p.2.2)), r.tail)
  | [], _, h, _, _ => absurd rfl h
  | (k, t, v) :: m, 0, _, _, h => absurd h (Nat.not_lt_zero _)
  | (k, t, v) :: m, fuel + 1, _, hloads, hlen => by
    have ht : loads t = some v := hloads (k, t, v) mem_cons_self
    obtain ⟨q, hq, hvalue⟩ := parseValue_of_loads ht
    rw [map_cons, assemble] at hlen ⊢
    rw [dumpsStr] at hlen ⊢
    simp only [length_append, length_cons] at hlen
    simp only [cons_append, append_assoc, nil_append]
    rw [parseMembers, if_pos rfl, parseStr_escape, bind_some]
    rw [skipWhite_cons (by decide)]
    dsimp only
    rw [if_pos rfl, skipWhite_space]
    by_cases hnil : m = []
    · subst hnil
      have hends : Ends r := by
        rcases r with _ | ⟨c, r⟩
        · exact ends_nil
        · obtain rfl := hr c rfl
          exact ends_cons (by decide)
      rw [map_nil, if_pos rfl, nil_append, hvalue (by omega) hends, bind_some]
      rw [skipWhite_append_of_nil hq]
      rcases r with _ | ⟨c, r⟩
      · rfl
      · obtain rfl := hr c rfl
        rfl
    · have hmap : m.map (fun p => (p.1, p.2.1)) ≠ [] := fun h => hnil (map_eq_nil_iff.mp h)
      rw [if_neg hmap] at hlen ⊢
      simp only [length_cons] at hlen
      have hlt : (assemble ascii (m.map fun p => (p.1, p.2.1))).length < fuel := by omega
      have hparse := parseMembers_assemble hr hnil (fun p hp => hloads p (mem_cons_of_mem _ hp)) hlt
      have hspace : skipWhite (' ' :: (assemble ascii (m.map fun p => (p.1, p.2.1)) ++ r))
          = assemble ascii (m.map fun p => (p.1, p.2.1)) ++ r := by
        obtain ⟨l, hl⟩ := exists_assemble ascii hmap
        rw [skipWhite_space, hl]
        exact skipWhite_cons (by decide) _
      rw [cons_append, cons_append, hvalue (by omega) (ends_cons (by decide)), bind_some]
      rw [skipWhite_append_of_nil hq, skipWhite_cons (by decide)]
      dsimp only
      rw [hspace, hparse]
      by_cases hrnil : r = []
      · rw [if_pos hrnil, if_pos hrnil]
        rfl
      · rw [if_neg hrnil, if_neg hrnil]
        rfl

/-- An object behind its first brace. -/
theorem loads_open_assemble (ascii : Bool) {m : List (Text × Text × Json)} {r : Text}
    (hr : ∀ c ∈ r.head?, c = '\x7d') (hm : m ≠ []) (hloads : ∀ p ∈ m, loads p.2.1 = some p.2.2) :
    loads ('\x7b' :: (assemble ascii (m.map fun p => (p.1, p.2.1)) ++ r))
      = if skipWhite r.tail = [] ∧ r ≠ [] then some (.obj (readMembers (m.map fun p => (p.1, p.2.2))))
        else none := by
  rw [loads, skipWhite_cons (by decide), parseValue, if_neg (by decide), if_neg (by decide),
    if_pos rfl]
  have hlt : (assemble ascii (m.map fun p => (p.1, p.2.1))).length
      < ('\x7b' :: (assemble ascii (m.map fun p => (p.1, p.2.1)) ++ r)).length := by
    rw [length_cons, length_append]
    omega
  have hparse := parseMembers_assemble hr hm hloads hlt
  obtain ⟨l, hl⟩ := exists_assemble ascii
    (fun h => hm (map_eq_nil_iff.mp h) : m.map (fun p => (p.1, p.2.1)) ≠ [])
  rw [hl, cons_append] at hparse ⊢
  rw [skipWhite_cons (by decide), head?_cons, if_neg (by decide), hparse]
  by_cases hnil : r = []
  · rw [if_pos hnil, if_neg fun h => h.2 hnil]
    rfl
  · rw [if_neg hnil]
    by_cases hwhite : skipWhite r.tail = []
    · rw [if_pos ⟨hwhite, hnil⟩]
      exact if_pos hwhite
    · rw [if_neg fun h => hwhite h.1]
      exact if_neg hwhite

theorem loads_braces (ascii : Bool) {m : List (Text × Text × Json)}
    (hloads : ∀ p ∈ m, loads p.2.1 = some p.2.2) :
    loads ('\x7b' :: (assemble ascii (m.map fun p => (p.1, p.2.1)) ++ ['\x7d']))
      = some (.obj (readMembers (m.map fun p => (p.1, p.2.2)))) := by
  by_cases hm : m = []
  · subst hm
    rfl
  · rw [loads_open_assemble ascii (fun c hc => by cases hc; rfl) hm hloads]
    exact if_pos ⟨rfl, cons_ne_nil _ _⟩

/-- **An object is read from the texts of its values.** -/
theorem loads_assemble (ascii : Bool) {m : List (Text × Text × Json)}
    (hloads : ∀ p ∈ m, loads p.2.1 = some p.2.2) (hkeys : (m.map (·.1)).Nodup) :
    loads ('\x7b' :: (assemble ascii (m.map fun p => (p.1, p.2.1)) ++ ['\x7d']))
      = some (.obj (m.map fun p => (p.1, p.2.2))) := by
  rw [loads_braces ascii hloads, readMembers_of_nodup (by simpa [Function.comp_def] using hkeys)]

/-- **Nothing is read** if the closing brace is missing. -/
theorem loads_assemble_open (ascii : Bool) {m : List (Text × Text × Json)} (hm : m ≠ [])
    (hloads : ∀ p ∈ m, loads p.2.1 = some p.2.2) :
    loads ('\x7b' :: assemble ascii (m.map fun p => (p.1, p.2.1))) = none := by
  have h := loads_open_assemble ascii (r := []) (fun c hc => by cases hc) hm hloads
  rw [append_nil] at h
  rw [h]
  exact if_neg fun h => h.2 rfl

theorem loads_dumpsStr (ascii : Bool) (s : Text) : loads (dumpsStr ascii s) = some (.str s) := by
  rw [loads, dumpsStr, skipWhite_cons (by decide), parseValue, parseStr_escape]
  rfl

/-! ## 4. Values are read back -/

theorem dumpsMembers_eq (ascii : Bool) : ∀ m : List (Text × Json),
    dumpsMembers ascii m = assemble ascii (m.map fun p => (p.1, dumps p.2))
  | [] => rfl
  | (k, v) :: m => by
    rw [dumpsMembers_cons, dumpsMembers_eq ascii m]
    simp [assemble]

theorem canonicalMembers_eq : ∀ m : List (Text × Json),
    canonicalMembers m = readMembers (m.map fun p => (p.1, canonical p.2))
  | [] => rfl
  | (k, v) :: m => by
    rw [canonicalMembers, canonicalMembers_eq m]
    rfl

theorem loads_members_of {m : List (Text × Json)} (ascii : Bool)
    (h : ∀ p ∈ m, loads (dumps p.2) = some (canonical p.2)) :
    loads ('\x7b' :: (dumpsMembers ascii m ++ ['\x7d'])) = some (.obj (canonicalMembers m)) := by
  have hbraces := loads_braces ascii (m := m.map fun p => (p.1, dumps p.2, canonical p.2))
    (List.forall_mem_map.mpr h)
  rw [dumpsMembers_eq, canonicalMembers_eq]
  simpa [Function.comp_def] using hbraces

theorem parseElements_dumps {r : Text} : ∀ {l : List Json} {fuel : ℕ}, l ≠ [] →
    (∀ v ∈ l, loads (dumps v) = some (canonical v)) → (dumpsElements l).length + 1 < fuel →
    parseElements fuel (dumpsElements l ++ (']' :: r)) = some (canonicalElements l, r)
  | [], _, h, _, _ => absurd rfl h
  | v :: l, 0, _, _, h => absurd h (Nat.not_lt_zero _)
  | v :: l, fuel + 1, _, hloads, hlen => by
    obtain ⟨q, hq, hvalue⟩ := parseValue_of_loads (hloads v mem_cons_self)
    rw [dumpsElements_cons, length_append] at hlen
    rw [dumpsElements_cons, append_assoc, ← skipWhite_dumps, parseElements]
    by_cases hnil : l = []
    · subst hnil
      rw [if_pos rfl] at hlen ⊢
      rw [nil_append, hvalue (by simpa using hlen) (ends_cons (by decide)), bind_some]
      rw [skipWhite_append_of_nil hq]
      rfl
    · rw [if_neg hnil] at hlen ⊢
      simp only [length_cons] at hlen
      have hparse := parseElements_dumps (r := r) hnil
        (fun w hw => hloads w (mem_cons_of_mem _ hw)) (show _ < fuel by omega)
      have hspace : skipWhite (' ' :: (dumpsElements l ++ (']' :: r)))
          = dumpsElements l ++ (']' :: r) := by
        obtain ⟨w, l', rfl⟩ := exists_cons_of_ne_nil hnil
        rw [skipWhite_space, dumpsElements_cons, append_assoc, skipWhite_dumps]
      rw [cons_append, cons_append, hvalue (by omega) (ends_cons (by decide)), bind_some]
      rw [skipWhite_append_of_nil hq, skipWhite_cons (by decide)]
      dsimp only
      rw [hspace, hparse]
      rfl

theorem loads_elements_of {l : List Json} (h : ∀ v ∈ l, loads (dumps v) = some (canonical v)) :
    loads ('[' :: (dumpsElements l ++ [']'])) = some (.arr (canonicalElements l)) := by
  rcases l with _ | ⟨v, l⟩
  · rfl
  · obtain ⟨c, t, hv, hwhite, hclose, -⟩ := dumps_head v
    have hhead : dumpsElements (v :: l) ++ [']']
        = c :: (t ++ (if l = [] then [] else ',' :: ' ' :: dumpsElements l) ++ [']']) := by
      rw [dumpsElements_cons, hv]
      simp
    have hparse := parseElements_dumps (r := []) (cons_ne_nil v l) h
      (show _ < ('[' :: (dumpsElements (v :: l) ++ [']'])).length by simp)
    rw [loads, skipWhite_cons (by decide), parseValue, if_neg (by decide), if_pos rfl]
    rw [hhead] at hparse ⊢
    rw [skipWhite_cons hwhite, if_neg (by simpa using hclose), hparse]
    rfl

/-- A value that is neither a string nor an array nor an object. -/
theorem loads_scalar (h : parseScalar (dumps v ++ []) = some (v, []))
    (hhead : ∀ c l, dumps v = c :: l → c ≠ '\x22' ∧ c ≠ '[' ∧ c ≠ '\x7b') :
    loads (dumps v) = some v := by
  have hskip := skipWhite_dumps v []
  have hparse := parseValue_scalar (dumps v).length h hhead
  rw [append_nil] at hskip hparse
  rw [loads, hskip, hparse]
  rfl

theorem loads_number (hv : scanNumber (dumps v) = some (p, q))
    (h : parseScalar (dumps v ++ []) = some (v, [])) : loads (dumps v) = some v :=
  loads_scalar h fun c l hl =>
    have hne := number_head hv c l hl
    ⟨hne _ (by decide) (by decide), hne _ (by decide) (by decide), hne _ (by decide) (by decide)⟩

mutual

/-- **What is written is read back.** -/
theorem loads_dumps : ∀ v : Json, loads (dumps v) = some (canonical v)
  | .null => rfl
  | .bool true => rfl
  | .bool false => rfl
  | .int z => loads_number (scanNumber_dumpsInt z) (parseScalar_int z ends_nil)
  | .float x => loads_number x.2.1 (parseScalar_float x ends_nil)
  | .nan => rfl
  | .infinity true => rfl
  | .infinity false => rfl
  | .str s => loads_dumpsStr false s
  | .arr l => loads_elements_of (loads_dumpsElements l)
  | .obj m => loads_members_of false (loads_dumpsMembers m)

theorem loads_dumpsElements : ∀ l : List Json, ∀ v ∈ l, loads (dumps v) = some (canonical v)
  | [] => fun _ hv => absurd hv not_mem_nil
  | v :: l => forall_mem_cons.mpr ⟨loads_dumps v, loads_dumpsElements l⟩

theorem loads_dumpsMembers : ∀ m : List (Text × Json),
    ∀ p ∈ m, loads (dumps p.2) = some (canonical p.2)
  | [] => fun _ hp => absurd hp not_mem_nil
  | (_, v) :: m => forall_mem_cons.mpr ⟨loads_dumps v, loads_dumpsMembers m⟩

end

/-- **The text of an object is read back**, whether its keys are written in ASCII or not. -/
theorem loads_members (ascii : Bool) (m : List (Text × Json)) :
    loads ('\x7b' :: (dumpsMembers ascii m ++ ['\x7d'])) = some (.obj (canonicalMembers m)) :=
  loads_members_of ascii (loads_dumpsMembers m)

/-! ## 5. Beginnings of objects -/

/-- **A proper beginning of an object's text is no object.** -/
theorem loads_ne_obj_of_append {u w : Text} (h : loads (u ++ w) = some v)
    (hw : skipWhite w ≠ []) (ms : List (Text × Json)) : loads u ≠ some (.obj ms) := by
  intro hu
  obtain ⟨⟨x, q⟩, hp, hx⟩ := bind_eq_some_iff.mp hu
  split at hx
  · rename_i hq
    cases hx
    have hlong := (parse_append w _ ((u ++ w).length + 1) (by rw [length_append]; omega)).1
      _ _ _ (.inr ⟨ms, rfl⟩) hp
    rw [loads, skipWhite_append_of_some (parseValue_nil _) hp w, hlong, bind_some] at h
    rw [skipWhite_append_of_nil hq, if_neg hw] at h
    cases h
  · cases hx

end Json

end Lib
