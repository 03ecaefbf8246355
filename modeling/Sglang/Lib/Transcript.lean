/-
# What a machine answers over a whole history of calls

A call gives an answer and a new state, or fails.  A history that fails anywhere has no transcript.
Two rules lift facts about one call to whole histories: a machine that follows another call by call
gives its transcript, and a machine gets through every history that a discipline on calls admits.
-/

namespace Lib

open Option

variable {S T C R L : Type}

/-- The answers of a whole history; `none` when a call failed. -/
def transcript (step : S → C → Option (R × S)) : S → List C → Option (List R)
  | _, [] => some []
  | s, call :: calls => do
    let (r, s) ← step s call
    return r :: (← transcript step s calls)

/-- **The simulation rule**: whatever the second machine answers, the first answers. -/
theorem transcript_of_follows {step : S → C → Option (R × S)} {step' : T → C → Option (R × T)}
    (rel : S → T → Prop)
    (hstep : ∀ s t call r t', rel s t → step' t call = some (r, t') →
      ∃ s', step s call = some (r, s') ∧ rel s' t') (calls : List C) :
    ∀ {s : S} {t : T} {rs : List R}, rel s t → transcript step' t calls = some rs →
      transcript step s calls = some rs := by
  induction calls with
  | nil => exact fun _ h => h
  | cons call calls ih =>
    intro s t rs hrel h
    simp only [transcript, bind_eq_bind, bind_eq_some_iff] at h
    obtain ⟨⟨r, t'⟩, hcall, rest, hrest, h⟩ := h
    obtain ⟨s', hs', hrel'⟩ := hstep s t call r t' hrel hcall
    simp only [transcript, hs', bind_eq_bind, bind_some, ih hrel' hrest]
    exact h

/-- **The progress rule**: a history that keeps the discipline `ledger` has a transcript. -/
theorem exists_transcript {step : S → C → Option (R × S)} {ledger : L → C → Option L}
    (inv : L → S → Prop)
    (hstep : ∀ l s call l', inv l s → ledger l call = some l' →
      ∃ r s', step s call = some (r, s') ∧ inv l' s') (calls : List C) :
    ∀ {l : L} {s : S}, inv l s → (calls.foldlM ledger l).isSome →
      ∃ rs, transcript step s calls = some rs := by
  induction calls with
  | nil => exact fun _ _ => ⟨[], rfl⟩
  | cons call calls ih =>
    intro l s hinv h
    rw [List.foldlM_cons, bind_eq_bind] at h
    rcases hcall : ledger l call with _ | l'
    · rw [hcall] at h
      cases h
    · rw [hcall] at h
      obtain ⟨r, s', hs', hinv'⟩ := hstep l s call l' hinv hcall
      obtain ⟨rs, hrs⟩ := ih hinv' h
      exact ⟨r :: rs, by
        simp only [transcript, hs', bind_eq_bind, bind_some, hrs]
        rfl⟩

end Lib
