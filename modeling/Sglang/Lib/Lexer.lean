/-
# Texts that are read token by token

`next l` is the first token of a text and what follows it, if the text shows that much; `tokens l` are
the tokens that a text shows, and the text behind them.  A lexer is `Steady` if a token that is seen does
not depend on what follows, and every token takes something of the text.

A text that arrives in pieces then shows the tokens of the whole text (`tokens_append`), and what is done
with them, token by token, does not depend on the pieces (`pieces_eq`).
-/
import Mathlib.Data.List.Basic

namespace Lib

open Option

variable {α τ σ β : Type}

/-! ## 1. The tokens of a text -/

/-- The tokens of a text, and what is left; the fuel is at least the length of the text. -/
def tokensWith (next : List α → Option (τ × List α)) : ℕ → List α → List τ × List α
  | 0, l => ([], l)
  | fuel + 1, l =>
    match next l with
    | none => ([], l)
    | some (t, r) => (t :: (tokensWith next fuel r).1, (tokensWith next fuel r).2)

def tokens (next : List α → Option (τ × List α)) (l : List α) : List τ × List α :=
  tokensWith next l.length l

/-- A token takes something of the text, and what follows it does not change it. -/
structure Steady (next : List α → Option (τ × List α)) : Prop where
  takes : ∀ {l t r}, next l = some (t, r) → r.length < l.length
  keeps : ∀ {l t r}, next l = some (t, r) → ∀ m, next (l ++ m) = some (t, r ++ m)

section

variable {next : List α → Option (τ × List α)}

theorem tokensWith_eq (h : Steady next) : ∀ {fuel : ℕ} {l : List α}, l.length ≤ fuel →
    tokensWith next fuel l = tokens next l
  | 0, l, hl => by
    obtain rfl : l = [] := List.eq_nil_of_length_eq_zero (Nat.le_zero.mp hl)
    rfl
  | fuel + 1, l, hl => by
    cases hn : next l with
    | none =>
      rw [tokens, tokensWith, hn]
      cases l with
      | nil => rfl
      | cons a l => rw [List.length_cons, tokensWith, hn]
    | some p =>
      obtain ⟨t, r⟩ := p
      have hr := h.takes hn
      obtain ⟨k, hk⟩ : ∃ k, l.length = k + 1 := ⟨l.length - 1, by omega⟩
      rw [tokens, hk, tokensWith, tokensWith, hn]
      dsimp only
      rw [tokensWith_eq h (show r.length ≤ fuel by omega),
        tokensWith_eq h (show r.length ≤ k by omega)]

theorem tokens_stop (h : Steady next) {l : List α} (hn : next l = none) :
    tokens next l = ([], l) := by
  rw [← tokensWith_eq h (Nat.le_succ _), tokensWith, hn]

theorem tokens_cons (h : Steady next) {l r : List α} {t : τ} (hn : next l = some (t, r)) :
    tokens next l = (t :: (tokens next r).1, (tokens next r).2) := by
  have hr := h.takes hn
  rw [← tokensWith_eq h (Nat.le_succ _), tokensWith, hn]
  dsimp only
  rw [tokensWith_eq h (Nat.le_of_lt hr)]

theorem next_rest (h : Steady next) (l : List α) : next (tokens next l).2 = none := by
  induction hl : l.length using Nat.strongRecOn generalizing l with
  | ind n ih =>
    cases hn : next l with
    | none => rwa [tokens_stop h hn]
    | some p =>
      rw [tokens_cons h hn]
      exact ih _ (hl ▸ h.takes hn) _ rfl

/-- **The tokens of a text that goes on**: what the first part leaves is read with the second. -/
theorem tokens_append (h : Steady next) (l m : List α) :
    tokens next (l ++ m) = ((tokens next l).1 ++ (tokens next ((tokens next l).2 ++ m)).1,
      (tokens next ((tokens next l).2 ++ m)).2) := by
  induction hl : l.length using Nat.strongRecOn generalizing l with
  | ind n ih =>
    cases hn : next l with
    | none =>
      rw [tokens_stop h hn]
      rfl
    | some p =>
      rw [tokens_cons h hn, tokens_cons h (h.keeps hn m), ih _ (hl ▸ h.takes hn) _ rfl]
      rfl

end

/-! ## 2. What is done with the tokens -/

/-- Every token moves a state and gives some events, or it fails. -/
def handle (act : σ → τ → Option (σ × List β)) : σ → List τ → Option (σ × List β)
  | s, [] => some (s, [])
  | s, t :: ts => (act s t).bind fun p => (handle act p.1 ts).map fun q => (q.1, p.2 ++ q.2)

variable {act : σ → τ → Option (σ × List β)}

theorem handle_append (s : σ) (ts us : List τ) : handle act s (ts ++ us)
    = (handle act s ts).bind fun p => (handle act p.1 us).map fun q => (q.1, p.2 ++ q.2) := by
  induction ts generalizing s with
  | nil => cases h : handle act s us <;> simp [handle, h]
  | cons t ts ih =>
    rw [List.cons_append, handle, handle]
    cases act s t with
    | none => rfl
    | some p =>
      rw [bind_some, bind_some, ih]
      cases handle act p.1 ts with
      | none => rfl
      | some q => cases h : handle act q.1 us <;> simp [h]

/-- **All tokens are handled** exactly if each of them is, in the state that those before it leave. -/
theorem handle_isSome_iff {s : σ} {ts : List τ} : (handle act s ts).isSome ↔
    ∀ us t vs p, ts = us ++ t :: vs → handle act s us = some p → (act p.1 t).isSome := by
  constructor
  · rintro h us t vs p rfl hp
    rw [handle_append, hp, bind_some, isSome_map] at h
    exact isSome_of_isSome_bind h
  · intro h
    induction ts generalizing s with
    | nil => rfl
    | cons t ts ih =>
      obtain ⟨p, hp⟩ := isSome_iff_exists.mp (h [] t ts (s, []) rfl rfl)
      rw [handle, hp, bind_some, isSome_map]
      refine ih fun us u vs q hts hq => ?_
      refine h (t :: us) u vs (q.1, p.2 ++ q.2) (by rw [hts]; rfl) ?_
      rw [handle, hp, bind_some, hq]
      rfl

/-- The pieces of a text: each is read behind what is left of those before it. -/
def pieces (next : List α → Option (τ × List α)) (act : σ → τ → Option (σ × List β)) :
    σ → List α → List (List α) → Option (σ × List α × List (List β))
  | s, rest, [] => some (s, rest, [])
  | s, rest, l :: ls =>
    (handle act s (tokens next (rest ++ l)).1).bind fun p =>
      (pieces next act p.1 (tokens next (rest ++ l)).2 ls).map fun q =>
        (q.1, q.2.1, p.2 :: q.2.2)

/-- **The pieces of a text give the events of the whole text**, and they are handled if it is. -/
theorem pieces_eq {next : List α → Option (τ × List α)} (h : Steady next) {s : σ} {rest : List α}
    (hrest : next rest = none) (ls : List (List α)) :
    (pieces next act s rest ls).map (fun q => (q.1, q.2.1, q.2.2.flatten))
      = (handle act s (tokens next (rest ++ ls.flatten)).1).map fun p =>
        (p.1, (tokens next (rest ++ ls.flatten)).2, p.2) := by
  induction ls generalizing s rest with
  | nil =>
    rw [List.flatten_nil, List.append_nil, tokens_stop h hrest]
    rfl
  | cons l ls ih =>
    rw [List.flatten_cons, ← List.append_assoc, tokens_append h, handle_append, pieces]
    cases handle act s (tokens next (rest ++ l)).1 with
    | none => rfl
    | some p =>
      have hmap : (pieces next act p.1 (tokens next (rest ++ l)).2 ls).map
            (fun q => (q.1, q.2.1, (p.2 :: q.2.2).flatten))
          = ((pieces next act p.1 (tokens next (rest ++ l)).2 ls).map
              fun q => (q.1, q.2.1, q.2.2.flatten)).map fun q => (q.1, q.2.1, p.2 ++ q.2.2) := by
        rw [map_map]
        rfl
      rw [bind_some, bind_some, map_map]
      refine hmap.trans ?_
      rw [ih (next_rest h _), map_map, map_map]
      rfl

end Lib
