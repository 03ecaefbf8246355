/-
# The first time that something holds

Two ways to look at the states of a run, one of which may see less.  Where what is seen is there and what
is there stays, a watcher who stops at the first sight is right after every step exactly if the first
time is seen (`exact_iff`).  Where neither is known, the first times are the same exactly if both agree
as long as nothing was there before (`isFirst_iff_isFirst`).
-/
import Mathlib.Tactic

namespace Lib

variable {P Q : ℕ → Prop} {N n : ℕ}

/-- The first time of `P`. -/
def IsFirst (P : ℕ → Prop) (n : ℕ) : Prop := P n ∧ ∀ m < n, ¬ P m

/-- What holds at some time has a first time. -/
theorem exists_isFirst (h : P n) : ∃ m ≤ n, IsFirst P m := by
  classical
  exact ⟨Nat.find ⟨n, h⟩, Nat.find_min' _ h, Nat.find_spec ⟨n, h⟩, fun _ => Nat.find_min _⟩

theorem not_before_iff : (∀ m < n, ¬ P m) ↔ ∀ m < n, ¬ IsFirst P m := by
  refine ⟨fun h m hm hfirst => h m hm hfirst.1, fun h m hm hP => ?_⟩
  obtain ⟨k, hk, hfirst⟩ := exists_isFirst hP
  exact h k (hk.trans_lt hm) hfirst

/-- **A watcher is right after every step exactly if the first time is seen.** -/
theorem exact_iff {seen whole : ℕ → Prop} (hseen : ∀ n < N, seen n → whole n)
    (hmono : ∀ m n, m ≤ n → n < N → whole m → whole n) :
    (∀ n < N, (∃ m ≤ n, seen m) ↔ whole n) ↔ ∀ n < N, IsFirst whole n → seen n := by
  constructor
  · rintro h n hn ⟨hwhole, hbefore⟩
    obtain ⟨m, hm, hsm⟩ := (h n hn).mpr hwhole
    rcases hm.lt_or_eq with hlt | rfl
    · exact absurd (hseen m (hlt.trans hn) hsm) (hbefore m hlt)
    · exact hsm
  · intro h n hn
    constructor
    · rintro ⟨m, hm, hsm⟩
      exact hmono m n hm hn (hseen m (hm.trans_lt hn) hsm)
    · intro hwhole
      obtain ⟨m, hm, hfirst⟩ := exists_isFirst hwhole
      exact ⟨m, hm, h m (hm.trans_lt hn) hfirst⟩

/-- **The first times are the same exactly if both agree as long as the second did not hold before.** -/
theorem isFirst_iff_isFirst :
    (∀ n < N, IsFirst P n ↔ IsFirst Q n) ↔ ∀ n < N, (∀ m < n, ¬ Q m) → (P n ↔ Q n) := by
  constructor
  · intro h n hn hQ
    have hP : ∀ m < n, ¬ P m := not_before_iff.mpr fun m hm hfirst =>
      hQ m hm ((h m (hm.trans hn)).mp hfirst).1
    exact ⟨fun hPn => ((h n hn).mp ⟨hPn, hP⟩).1, fun hQn => ((h n hn).mpr ⟨hQn, hQ⟩).1⟩
  · intro h n hn
    constructor
    · rintro ⟨hP, hbefore⟩
      have hQ : ∀ m < n, ¬ Q m := not_before_iff.mpr fun m hm hfirst =>
        hbefore m hm ((h m (hm.trans hn) hfirst.2).mpr hfirst.1)
      exact ⟨(h n hn hQ).mp hP, hQ⟩
    · rintro ⟨hQ, hbefore⟩
      refine ⟨(h n hn hbefore).mpr hQ, fun m hm hP => ?_⟩
      exact hbefore m hm ((h m (hm.trans hn) fun k hk => hbefore k (hk.trans hm)).mp hP)

end Lib
