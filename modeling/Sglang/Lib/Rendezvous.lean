/-
# Parties that exchange data point to point

Each party posts all that it sends and receives, then waits until all of it has gone through, then goes
on.  A transfer takes the first send from `a` to `b` that is outstanding and the first receive that `b`
has posted for `a`; in which order the transfers of different pairs take place is open.  What a party
sends it reads from its `source`, what it receives goes to its `buffer`; it fills cells of the buffer by
itself when it posts, and drains the buffer into the source when all is through.

Two conditions on what is posted make every run a good one.  When both ends of each pair post the same
number (`Matched`), no run gets stuck (`progress`) and every run ends (`length_le`).  When no cell of a
buffer is received twice (`Separate`), every run ends with the same sources, whatever the order
(`outcome`).
-/
import Mathlib.Tactic

namespace Lib

open Finset Function

/-- What the parties `ι` post, and what they do before and after.  `sends a b` and `recvs a b` are the
two ends of the channel from `a` to `b`. -/
structure Exchange (ι σ ρ α : Type*) where
  sends : ι → ι → List σ
  recvs : ι → ι → List ρ
  fill : ι → (σ → α) → (ρ → α) → ρ → α
  drain : ι → (ρ → α) → (σ → α) → σ → α

namespace Exchange

/-- How far a party has got. -/
inductive Phase
  | idle
  | posted
  | finished
deriving DecidableEq

/-- The parties, the number of transfers on each channel, and the memories. -/
structure State (ι σ ρ α : Type*) where
  phase : ι → Phase
  count : ι → ι → ℕ
  source : ι → σ → α
  buffer : ι → ρ → α

variable {ι σ ρ α : Type*} [DecidableEq ι] [DecidableEq ρ]

/-- Nobody has posted. -/
def start (source : ι → σ → α) (buffer : ι → ρ → α) : State ι σ ρ α :=
  ⟨fun _ => .idle, fun _ _ => 0, source, buffer⟩

/-- A party posts. -/
def post (E : Exchange ι σ ρ α) (s : State ι σ ρ α) (a : ι) : State ι σ ρ α :=
  { s with
    phase := Function.update s.phase a .posted
    buffer := Function.update s.buffer a (E.fill a (s.source a) (s.buffer a)) }

/-- A transfer from cell `x` of `a` to cell `y` of `b`. -/
def transfer (s : State ι σ ρ α) (a b : ι) (x : σ) (y : ρ) : State ι σ ρ α :=
  { s with
    count := Function.update s.count a (Function.update (s.count a) b (s.count a b + 1))
    buffer := Function.update s.buffer b (Function.update (s.buffer b) y (s.source a x)) }

/-- A party has waited for all that it has posted. -/
def finish (E : Exchange ι σ ρ α) (s : State ι σ ρ α) (a : ι) : State ι σ ρ α :=
  { s with
    phase := Function.update s.phase a .finished
    source := Function.update s.source a (E.drain a (s.buffer a) (s.source a)) }

/-- A step of one party, or of one channel. -/
inductive Step (E : Exchange ι σ ρ α) (s : State ι σ ρ α) : State ι σ ρ α → Prop
  | post (a : ι) (hidle : s.phase a = .idle) : Step E s (E.post s a)
  | transfer (a b : ι) (x : σ) (y : ρ) (ha : s.phase a = .posted) (hb : s.phase b = .posted)
      (hx : (E.sends a b)[s.count a b]? = some x) (hy : (E.recvs a b)[s.count a b]? = some y) :
      Step E s (transfer s a b x y)
  | finish (a : ι) (ha : s.phase a = .posted) (hsends : ∀ b, s.count a b = (E.sends a b).length)
      (hrecvs : ∀ b, s.count b a = (E.recvs b a).length) : Step E s (E.finish s a)

/-- Both ends of each channel post the same number. -/
def Matched (E : Exchange ι σ ρ α) : Prop := ∀ a b, (E.sends a b).length = (E.recvs a b).length

/-- No cell of a buffer is received twice. -/
def Separate (E : Exchange ι σ ρ α) : Prop := ∀ (a a' b : ι) (k k' : ℕ) (y : ρ),
  (E.recvs a b)[k]? = some y → (E.recvs a' b)[k']? = some y → a = a' ∧ k = k'

/-- All parties are through. -/
def Finished (s : State ι σ ρ α) : Prop := ∀ a, s.phase a = .finished

/-! ## 1. No run gets stuck -/

/-- The counts and the phases of a run. -/
structure Counted (E : Exchange ι σ ρ α) (s : State ι σ ρ α) : Prop where
  sends_le : ∀ a b, s.count a b ≤ (E.sends a b).length
  recvs_le : ∀ a b, s.count a b ≤ (E.recvs a b).length
  posted : ∀ a b, 0 < s.count a b → s.phase a ≠ .idle ∧ s.phase b ≠ .idle
  finished : ∀ a, s.phase a = .finished → ∀ b, s.count a b = (E.sends a b).length ∧
    s.count b a = (E.recvs b a).length

section Progress

variable {E : Exchange ι σ ρ α} {s s' : State ι σ ρ α} {source : ι → σ → α} {buffer : ι → ρ → α}

omit [DecidableEq ι] [DecidableEq ρ] in
theorem Counted.start (E : Exchange ι σ ρ α) (source : ι → σ → α) (buffer : ι → ρ → α) :
    Counted E (start source buffer) where
  sends_le := fun _ _ => Nat.zero_le _
  recvs_le := fun _ _ => Nat.zero_le _
  posted := fun _ _ h => absurd h (lt_irrefl 0)
  finished := fun _ h => by cases h

theorem transfer_count (s : State ι σ ρ α) (a b : ι) (x : σ) (y : ρ) (a' b' : ι) :
    (transfer s a b x y).count a' b' = s.count a' b' + if a' = a ∧ b' = b then 1 else 0 := by
  rw [transfer]
  by_cases ha : a' = a
  · subst ha
    by_cases hb : b' = b
    · subst hb
      simp
    · simp [hb]
  · simp [ha]

theorem Counted.step (hs : Counted E s) (h : Step E s s') : Counted E s' := by
  cases h with
  | post a hidle =>
    refine ⟨hs.sends_le, hs.recvs_le, fun a' b' h => ?_, fun a' h => ?_⟩
    · obtain ⟨h1, h2⟩ := hs.posted a' b' h
      rw [Exchange.post]
      constructor
      · by_cases ha : a' = a
        · simp [ha]
        · simpa [ha] using h1
      · by_cases hb : b' = a
        · simp [hb]
        · simpa [hb] using h2
    · by_cases ha : a' = a
      · simp [Exchange.post, ha] at h
      · exact hs.finished a' (by simpa [Exchange.post, ha] using h)
  | transfer a b x y ha hb hx hy =>
    have hltx := (List.getElem?_eq_some_iff.mp hx).1
    have hlty := (List.getElem?_eq_some_iff.mp hy).1
    refine ⟨fun a' b' => ?_, fun a' b' => ?_, fun a' b' h => ?_, fun a' h => ?_⟩
    · rw [transfer_count]
      split
      · rename_i he
        rw [he.1, he.2]
        exact hltx
      · exact hs.sends_le a' b'
    · rw [transfer_count]
      split
      · rename_i he
        rw [he.1, he.2]
        exact hlty
      · exact hs.recvs_le a' b'
    · rw [transfer_count] at h
      split at h
      · rename_i he
        change s.phase a' ≠ .idle ∧ s.phase b' ≠ .idle
        rw [he.1, he.2, ha, hb]
        exact ⟨nofun, nofun⟩
      · exact hs.posted a' b' h
    · have hfin : s.phase a' = .finished := h
      intro b'
      have hne : a' ≠ a ∧ a' ≠ b := by
        constructor <;> rintro rfl
        · rw [ha] at hfin; cases hfin
        · rw [hb] at hfin; cases hfin
      rw [transfer_count, transfer_count, if_neg fun he => hne.1 he.1, if_neg fun he => hne.2 he.2]
      exact hs.finished a' hfin b'
  | finish a ha hsends hrecvs =>
    refine ⟨hs.sends_le, hs.recvs_le, fun a' b' h => ?_, fun a' h => ?_⟩
    · obtain ⟨h1, h2⟩ := hs.posted a' b' h
      rw [Exchange.finish]
      constructor
      · by_cases ha : a' = a
        · simp [ha]
        · simpa [ha] using h1
      · by_cases hb : b' = a
        · simp [hb]
        · simpa [hb] using h2
    · by_cases hae : a' = a
      · subst hae
        exact fun b => ⟨hsends b, hrecvs b⟩
      · exact hs.finished a' (by simpa [Exchange.finish, hae] using h)

theorem Counted.run (h : Relation.ReflTransGen (Step E) (Exchange.start source buffer) s) :
    Counted E s := by
  induction h with
  | refl => exact .start E source buffer
  | tail _ hstep ih => exact ih.step hstep

/-- **No run of a matched exchange gets stuck.** -/
theorem progress (hE : E.Matched) (hs : Counted E s) (hopen : ¬ Finished s) : ∃ s', Step E s s' := by
  by_cases hidle : ∃ a, s.phase a = .idle
  · obtain ⟨a, ha⟩ := hidle
    exact ⟨_, .post a ha⟩
  obtain ⟨a, ha⟩ := not_forall.mp hopen
  have hphase : ∀ b, s.phase b ≠ .finished → s.phase b = .posted := by
    intro b hb
    cases hp : s.phase b with
    | idle => exact absurd ⟨b, hp⟩ hidle
    | posted => rfl
    | finished => exact absurd hp hb
  have hposted := hphase a ha
  -- a channel that is not through has two ends that are waiting
  have hopen' : ∀ a b, s.count a b < (E.sends a b).length → ∃ s', Step E s s' := by
    intro a b hlt
    have hlt' : s.count a b < (E.recvs a b).length := hE a b ▸ hlt
    have ha : s.phase a = .posted := hphase a fun hf => (hs.finished a hf b).1.not_lt hlt
    have hb : s.phase b = .posted := hphase b fun hf => (hs.finished b hf a).2.not_lt hlt'
    exact ⟨_, .transfer a b _ _ ha hb (List.getElem?_eq_getElem hlt) (List.getElem?_eq_getElem hlt')⟩
  by_cases hall : ∀ b, s.count a b = (E.sends a b).length ∧ s.count b a = (E.recvs b a).length
  · exact ⟨_, .finish a hposted (fun b => (hall b).1) fun b => (hall b).2⟩
  · obtain ⟨b, hb⟩ := not_forall.mp hall
    rcases not_and_or.mp hb with hb | hb
    · exact hopen' a b (lt_of_le_of_ne (hs.sends_le a b) hb)
    · exact hopen' b a (hE b a ▸ lt_of_le_of_ne (hs.recvs_le b a) hb)

/-! ## 2. Every run ends -/

/-- The steps that are left to a party. -/
def Phase.left : Phase → ℕ
  | .idle => 2
  | .posted => 1
  | .finished => 0

/-- The steps that are left. -/
def remaining [Fintype ι] (E : Exchange ι σ ρ α) (s : State ι σ ρ α) : ℕ :=
  ∑ a, (s.phase a).left + ∑ a, ∑ b, ((E.sends a b).length - s.count a b)

theorem sum_left_update [Fintype ι] {phase : ι → Phase} {a : ι} {p : Phase}
    (hlt : p.left < (phase a).left) :
    ∑ b, (Function.update phase a p b).left < ∑ b, (phase b).left := by
  refine sum_lt_sum (fun b _ => ?_) ⟨a, mem_univ a, by rwa [update_self]⟩
  by_cases hb : b = a
  · rw [hb, update_self]
    exact hlt.le
  · rw [update_of_ne hb]

theorem remaining_lt [Fintype ι] (h : Step E s s') : remaining E s' < remaining E s := by
  cases h with
  | post a hidle =>
    exact Nat.add_lt_add_right (sum_left_update (by rw [hidle]; decide)) _
  | finish a ha hsends hrecvs =>
    exact Nat.add_lt_add_right (sum_left_update (by rw [ha]; decide)) _
  | transfer a b x y ha hb hx hy =>
    have hlt := (List.getElem?_eq_some_iff.mp hx).1
    refine Nat.add_lt_add_left ?_ _
    have hle : ∀ a' b', (E.sends a' b').length - (transfer s a b x y).count a' b'
        ≤ (E.sends a' b').length - s.count a' b' := fun a' b' => by
      rw [transfer_count]
      omega
    refine sum_lt_sum (fun a' _ => sum_le_sum fun b' _ => hle a' b')
      ⟨a, mem_univ a, sum_lt_sum (fun b' _ => hle a b') ⟨b, mem_univ b, ?_⟩⟩
    rw [transfer_count, if_pos ⟨rfl, rfl⟩]
    omega

theorem no_infinite_run [Fintype ι] (run : ℕ → State ι σ ρ α) : ¬ ∀ n, Step E (run n) (run (n + 1)) := by
  intro hrun
  have hbound : ∀ n, remaining E (run n) + n ≤ remaining E (run 0) := by
    intro n
    induction n with
    | zero => exact le_rfl
    | succ n ih =>
      have := remaining_lt (hrun n)
      omega
  have := hbound (remaining E (run 0) + 1)
  omega

/-! ## 3. What the run leaves -/

/-- The memories of a run that started with `source` and `buffer`. -/
structure Delivered (E : Exchange ι σ ρ α) (source : ι → σ → α) (buffer : ι → ρ → α)
    (s : State ι σ ρ α) : Prop where
  source_eq : ∀ a, s.phase a ≠ .finished → s.source a = source a
  idle : ∀ a, s.phase a = .idle → s.buffer a = buffer a
  received : ∀ (a b : ι) (k : ℕ) (x : σ) (y : ρ), k < s.count a b → (E.sends a b)[k]? = some x →
    (E.recvs a b)[k]? = some y → s.buffer b y = source a x
  filled : ∀ b, s.phase b ≠ .idle → ∀ y, (∀ a, y ∉ E.recvs a b) →
    s.buffer b y = E.fill b (source b) (buffer b) y
  drained : ∀ b, s.phase b = .finished → s.source b = E.drain b (s.buffer b) (source b)

omit [DecidableEq ι] [DecidableEq ρ] in
theorem Delivered.start (E : Exchange ι σ ρ α) (source : ι → σ → α) (buffer : ι → ρ → α) :
    Delivered E source buffer (Exchange.start source buffer) where
  source_eq := fun _ _ => rfl
  idle := fun _ _ => rfl
  received := fun _ _ _ _ _ h => absurd h (Nat.not_lt_zero _)
  filled := fun _ h => absurd rfl h
  drained := fun _ h => by cases h

/-- **A step** of a separate exchange. -/
theorem Delivered.step (hE : E.Separate) (hc : Counted E s) (hs : Delivered E source buffer s)
    (h : Step E s s') : Delivered E source buffer s' := by
  cases h with
  | post a hidle =>
    have hother : ∀ {b}, b ≠ a → (E.post s a).phase b = s.phase b ∧
        (E.post s a).buffer b = s.buffer b := fun hb => by
      simp [Exchange.post, hb]
    refine ⟨fun b hb => ?_, fun b hb => ?_, fun c b k x y hk hx hy => ?_, fun b hb y hy => ?_,
      fun b hb => ?_⟩
    · by_cases hba : b = a
      · exact hs.source_eq b (by rw [hba, hidle]; nofun)
      · exact hs.source_eq b (by rwa [(hother hba).1] at hb)
    · by_cases hba : b = a
      · subst hba
        simp [Exchange.post] at hb
      · rw [(hother hba).2]
        exact hs.idle b (by rwa [(hother hba).1] at hb)
    · have hk' : k < s.count c b := hk
      have hba : b ≠ a := fun he => (hc.posted c b (Nat.zero_lt_of_lt hk')).2 (he ▸ hidle)
      rw [(hother hba).2]
      exact hs.received c b k x y hk' hx hy
    · by_cases hba : b = a
      · subst hba
        rw [Exchange.post]
        simp only [update_self]
        rw [hs.source_eq b (by rw [hidle]; nofun), hs.idle b hidle]
      · rw [(hother hba).2]
        exact hs.filled b (by rwa [(hother hba).1] at hb) y hy
    · have hba : b ≠ a := by
        rintro rfl
        simp [Exchange.post] at hb
      rw [(hother hba).2]
      exact hs.drained b (by rwa [(hother hba).1] at hb)
  | transfer a b x y ha hb hx hy =>
    have hother : ∀ {c}, c ≠ b → (transfer s a b x y).buffer c = s.buffer c := fun hc => by
      simp [transfer, hc]
    have hcell : ∀ {z}, z ≠ y → (transfer s a b x y).buffer b z = s.buffer b z := fun hz => by
      simp [transfer, hz]
    refine ⟨hs.source_eq, fun c hcidle => ?_, fun c d k u v hk hu hv => ?_, fun c hcphase z hz => ?_,
      fun c hcfin => ?_⟩
    · have hcb : c ≠ b := by
        rintro rfl
        exact absurd (hb.symm.trans hcidle) nofun
      rw [hother hcb]
      exact hs.idle c hcidle
    · rw [transfer_count] at hk
      by_cases hnew : (c = a ∧ d = b) ∧ k = s.count a b
      · -- the transfer itself
        obtain ⟨⟨rfl, rfl⟩, rfl⟩ := hnew
        cases hx.symm.trans hu
        cases hy.symm.trans hv
        rw [transfer]
        simp only [update_self]
        rw [hs.source_eq c (by rw [ha]; nofun)]
      · have hk' : k < s.count c d := by
          split at hk
          · rename_i he
            rw [he.1, he.2] at hk ⊢
            exact lt_of_le_of_ne (Nat.lt_succ_iff.mp hk) fun hke => hnew ⟨he, hke⟩
          · exact hk
        by_cases hdb : d = b
        · subst hdb
          have hvy : v ≠ y := by
            rintro rfl
            obtain ⟨rfl, rfl⟩ := hE c a d k _ v hv hy
            exact lt_irrefl _ hk'
          rw [hcell hvy]
          exact hs.received c d k u v hk' hu hv
        · rw [hother hdb]
          exact hs.received c d k u v hk' hu hv
    · by_cases hcb : c = b
      · subst hcb
        have hzy : z ≠ y := by
          rintro rfl
          exact hz a (List.mem_of_getElem? hy)
        rw [hcell hzy]
        exact hs.filled c hcphase z hz
      · rw [hother hcb]
        exact hs.filled c hcphase z hz
    · have hcb : c ≠ b := by
        rintro rfl
        exact absurd (hb.symm.trans hcfin) nofun
      rw [hother hcb]
      exact hs.drained c hcfin
  | finish a ha hsends hrecvs =>
    have hother : ∀ {b}, b ≠ a → (E.finish s a).phase b = s.phase b ∧
        (E.finish s a).source b = s.source b := fun hb => by
      simp [Exchange.finish, hb]
    refine ⟨fun b hb => ?_, fun b hb => ?_, hs.received, fun b hb => ?_, fun b hb => ?_⟩
    · have hba : b ≠ a := by
        rintro rfl
        exact hb (by simp [Exchange.finish])
      rw [(hother hba).2]
      exact hs.source_eq b (by rwa [(hother hba).1] at hb)
    · have hba : b ≠ a := by
        rintro rfl
        simp [Exchange.finish] at hb
      exact hs.idle b (by rwa [(hother hba).1] at hb)
    · by_cases hba : b = a
      · exact hs.filled b (by rw [hba, ha]; nofun)
      · exact hs.filled b (by rwa [(hother hba).1] at hb)
    · by_cases hba : b = a
      · subst hba
        rw [Exchange.finish]
        simp only [update_self]
        rw [hs.source_eq b (by rw [ha]; nofun)]
      · rw [(hother hba).2]
        exact hs.drained b (by rwa [(hother hba).1] at hb)

theorem Delivered.run (hE : E.Separate)
    (h : Relation.ReflTransGen (Step E) (Exchange.start source buffer) s) :
    Delivered E source buffer s := by
  induction h with
  | refl => exact .start E source buffer
  | tail hrun hstep ih => exact ih.step hE (.run hrun) hstep

/-- **What every finished run leaves**: each party has drained a buffer in which the cells it received
hold what the other end sent, and the others what it had filled in. -/
theorem outcome (hE : E.Separate)
    (h : Relation.ReflTransGen (Step E) (Exchange.start source buffer) s) (hfin : Finished s) (b : ι) :
    ∃ cells : ρ → α, s.source b = E.drain b cells (source b) ∧
      (∀ (a : ι) (k : ℕ) (x : σ) (y : ρ), (E.sends a b)[k]? = some x → (E.recvs a b)[k]? = some y →
        cells y = source a x) ∧
      ∀ y, (∀ a, y ∉ E.recvs a b) → cells y = E.fill b (source b) (buffer b) y := by
  have hs := Delivered.run hE h
  refine ⟨s.buffer b, hs.drained b (hfin b), fun a k x y hx hy => ?_,
    hs.filled b (by rw [hfin b]; nofun)⟩
  refine hs.received a b k x y ?_ hx hy
  rw [((Counted.run h).finished a (hfin a) b).1]
  exact (List.getElem?_eq_some_iff.mp hx).1

end Progress

end Exchange

end Lib
