/-
# Greedy verification of a draft tree

A transcription of the kernel `VerifyTreeGreedy` (`eagle_utils.cu`).  A block of the grid verifies one
request: from the root of the draft tree it goes to the first child that carries the token the target
model predicts, as long as there is one, and writes down the positions it went through and the
predictions there.  The buffers are flat and shared by the blocks, which run in any order.

The predictions at a position are those of a deterministic `f` after the tokens on the path to it
(`PredictsBy`).  Then the tokens at the accepted positions are what iterating `f` alone would have
produced (`greedy`), and when siblings carry distinct tokens no path of the tree goes further.
-/
import Sglang.Lib.SiblingChain

namespace Sglang

open Lib List Function Option

/-! ## 1. The kernel -/

/-- The arguments of `VerifyTreeGreedy` that it reads.  Pointers are `-1` for none; positions of the
flat buffer of predictions are natural numbers. -/
structure VerifyInput where
  candidates : ℕ → ℤ
  retriveIndex : ℕ → ℕ
  retriveNextToken : ℕ → ℤ
  retriveNextSibling : ℕ → ℤ
  targetPredict : ℕ → ℤ
  numSpeculativeTokens : ℕ
  numDraftTokens : ℕ

/-- The arguments that it writes. -/
structure VerifyBuffers where
  predicts : ℕ → ℤ
  acceptIndex : ℕ → ℤ
  acceptTokenNum : ℕ → ℤ

/-- The variables of a block, and the buffers. -/
structure VerifyState where
  lastAcceptedRetriveIdx : ℕ
  numAcceptedTokens : ℕ
  curIndex : ℤ
  buffers : VerifyBuffers

namespace VerifyInput

variable (inp : VerifyInput) (bx : ℕ)

/-- The place of a position of the tree in the arrays of the request. -/
def place (i : ℕ) : ℕ := bx * inp.numDraftTokens + i

/-- Its place in the buffer of predictions. -/
def slot (i : ℕ) : ℕ := inp.retriveIndex (inp.place bx i)

/-- The token a position carries. -/
def token (i : ℕ) : ℤ := inp.candidates (inp.place bx i)

/-- The token the target model predicts behind a position. -/
def target (i : ℕ) : ℤ := inp.targetPredict (inp.slot bx i)

/-- "accept token": the body of the `if`. -/
def acceptToken (s : VerifyState) (cur : ℕ) : VerifyState where
  lastAcceptedRetriveIdx := inp.slot bx cur
  numAcceptedTokens := s.numAcceptedTokens + 1
  curIndex := cur
  buffers := { s.buffers with
    predicts := Function.update s.buffers.predicts s.lastAcceptedRetriveIdx
      (inp.targetPredict s.lastAcceptedRetriveIdx)
    acceptIndex := Function.update s.buffers.acceptIndex
      (bx * inp.numSpeculativeTokens + (s.numAcceptedTokens + 1)) (inp.slot bx cur) }

/-- The inner loop, along the siblings. -/
def siblingLoop : ℕ → VerifyState → Option VerifyState
  | 0, _ => none
  | fuel + 1, s =>
    if s.curIndex = -1 then some s
    else
      let cur := s.curIndex.toNat
      if inp.token bx cur = inp.targetPredict s.lastAcceptedRetriveIdx then
        some (inp.acceptToken bx s cur)
      else siblingLoop fuel { s with curIndex := inp.retriveNextSibling (inp.place bx cur) }

/-- The outer loop, with the rounds that are left. -/
def stepLoop : ℕ → VerifyState → Option VerifyState
  | 0, s => some s
  | rounds + 1, s => do
    let s := { s with curIndex := inp.retriveNextToken (inp.place bx s.curIndex.toNat) }
    let s ← inp.siblingLoop bx (inp.numDraftTokens + 1) s
    if s.curIndex = -1 then return s else stepLoop rounds s

/-- What a block starts with. -/
def start (b : VerifyBuffers) : VerifyState where
  lastAcceptedRetriveIdx := inp.slot bx 0
  numAcceptedTokens := 0
  curIndex := 0
  buffers := { b with
    acceptIndex := Function.update b.acceptIndex (bx * inp.numSpeculativeTokens) (inp.slot bx 0) }

/-- What a block ends with. -/
def finish (s : VerifyState) : VerifyBuffers :=
  { s.buffers with
    acceptTokenNum := Function.update s.buffers.acceptTokenNum bx s.numAcceptedTokens
    predicts := Function.update s.buffers.predicts s.lastAcceptedRetriveIdx
      (inp.targetPredict s.lastAcceptedRetriveIdx) }

/-- `VerifyTreeGreedy`, one block. -/
def verifyTreeGreedy (b : VerifyBuffers) : Option VerifyBuffers := do
  let s ← inp.stepLoop bx (inp.numSpeculativeTokens - 1) (inp.start bx b)
  return inp.finish bx s

/-- The blocks of a launch, in the order in which they happen to run. -/
def launch (order : List ℕ) (b : VerifyBuffers) : Option VerifyBuffers :=
  order.foldlM (fun b bx => inp.verifyTreeGreedy bx b) b

end VerifyInput

/-! ## 2. Greedy decoding -/

section Greedy

variable {τ : Type}

/-- The first `k` tokens of iterating `f` from a prefix. -/
def greedy (f : List τ → τ) : ℕ → List τ → List τ
  | 0, _ => []
  | k + 1, pre => f pre :: greedy f k (pre ++ [f pre])

/-- The position the walk reaches goes to the child with the predicted token. -/
def acceptedPath [DecidableEq τ] (children : ℕ → List ℕ) (token target : ℕ → τ) : ℕ → ℕ → List ℕ
  | 0, _ => []
  | k + 1, i =>
    match (children i).find? fun c => token c = target i with
    | none => []
    | some c => c :: acceptedPath children token target k c

variable [DecidableEq τ] {children : ℕ → List ℕ} {token target : ℕ → τ} {f : List τ → τ}

theorem descent_acceptedPath : ∀ (k i : ℕ),
    Descent children i (acceptedPath children token target k i)
  | 0, _ => .nil
  | k + 1, i => by
    rw [acceptedPath]
    split
    · exact .nil
    · rename_i c hc
      exact .cons (mem_of_find?_eq_some hc) (descent_acceptedPath k c)

theorem length_acceptedPath_le (children : ℕ → List ℕ) (token target : ℕ → τ) : ∀ (k i : ℕ),
    (acceptedPath children token target k i).length ≤ k
  | 0, _ => Nat.le_refl _
  | k + 1, i => by
    rw [acceptedPath]
    split
    · exact Nat.zero_le _
    · exact Nat.succ_le_succ (length_acceptedPath_le children token target k _)

/-- The prediction at a position is that of `f` after the tokens on the path to it. -/
def PredictsBy (children : ℕ → List ℕ) (token target : ℕ → τ) (f : List τ → τ) (pre : List τ)
    (i : ℕ) : Prop :=
  ∀ path, Descent children i path → target (path.getLastD i) = f (pre ++ path.map token)

omit [DecidableEq τ] in
theorem PredictsBy.child {pre : List τ} {i c : ℕ} (h : PredictsBy children token target f pre i)
    (hc : c ∈ children i) : PredictsBy children token target f (pre ++ [token c]) c := by
  intro path hp
  have := h (c :: path) (.cons hc hp)
  rw [getLastD_cons] at this
  rw [this, map_cons, append_assoc]
  rfl

/-- **The predictions along the accepted path are the greedy tokens**: those it goes through, and one
more. -/
theorem map_target_acceptedPath : ∀ (k i : ℕ) (pre : List τ),
    PredictsBy children token target f pre i →
    (i :: acceptedPath children token target k i).map target
      = greedy f ((acceptedPath children token target k i).length + 1) pre
  | 0, i, pre, h => by
    have hi := h [] .nil
    rw [getLastD_nil, map_nil, append_nil] at hi
    rw [map_cons, hi]
    rfl
  | k + 1, i, pre, h => by
    have hi := h [] .nil
    rw [getLastD_nil, map_nil, append_nil] at hi
    rw [acceptedPath]
    split
    · rw [map_cons, hi]
      rfl
    · rename_i c hc
      have htok : token c = target i := by simpa using find?_some hc
      have hchild := h.child (mem_of_find?_eq_some hc)
      rw [htok, hi] at hchild
      rw [map_cons, hi, map_target_acceptedPath k c _ hchild]
      rfl

/-- **No path agrees further**, when siblings carry distinct tokens. -/
theorem length_le_acceptedPath (hinj : ∀ i, ∀ c ∈ children i, ∀ d ∈ children i,
      token c = token d → c = d) : ∀ (k i : ℕ) (pre : List τ) (path : List ℕ),
    PredictsBy children token target f pre i → Descent children i path → path.length ≤ k →
    path.map token = greedy f path.length pre →
    path.length ≤ (acceptedPath children token target k i).length
  | _, _, _, [], _, _, _, _ => Nat.zero_le _
  | 0, _, _, _ :: _, _, _, hlen, _ => by simp at hlen
  | k + 1, i, pre, c :: path, h, .cons hc hp, hlen, htoks => by
    have hi := h [] .nil
    rw [map_nil, append_nil] at hi
    rw [map_cons, length_cons, greedy, List.cons.injEq] at htoks
    obtain ⟨htok, hrest⟩ := htoks
    have hfind : (children i).find? (fun d => token d = target i) = some c := by
      cases hf : (children i).find? (fun d => token d = target i) with
      | none =>
        rw [find?_eq_none] at hf
        exact absurd (htok.trans hi.symm) (by simpa using hf c hc)
      | some d =>
        have hd : token d = target i := by simpa using find?_some hf
        rw [hinj i d (mem_of_find?_eq_some hf) c hc (hd.trans (hi.trans htok.symm))]
    have hchild := h.child hc
    rw [htok] at hchild
    rw [acceptedPath, hfind]
    exact Nat.succ_le_succ (length_le_acceptedPath hinj k c _ path hchild hp
      (by simpa using hlen) hrest)

end Greedy

/-! ## 3. A block -/

namespace VerifyInput

section Block

variable {inp : VerifyInput} {bx : ℕ} {children : ℕ → List ℕ}

/-- The arrays of a request encode a draft tree with these children. -/
def Encodes (inp : VerifyInput) (bx : ℕ) (children : ℕ → List ℕ) : Prop :=
  EncodesTree inp.numDraftTokens (fun i => inp.retriveNextToken (inp.place bx i))
    (fun i => inp.retriveNextSibling (inp.place bx i)) children

/-- **The inner loop finds the first child with the predicted token.** -/
theorem siblingLoop_eq (s : VerifyState) : ∀ (l : List ℕ) (cur : ℤ) (fuel : ℕ),
    Chain (fun i => inp.retriveNextSibling (inp.place bx i)) cur l → l.length < fuel →
    inp.siblingLoop bx fuel { s with curIndex := cur } = some
      (match l.find? fun c => inp.token bx c = inp.targetPredict s.lastAcceptedRetriveIdx with
        | none => { s with curIndex := -1 }
        | some c => inp.acceptToken bx s c)
  | [], _, 0, _, hfuel => absurd hfuel (Nat.not_lt_zero _)
  | [], _, fuel + 1, .nil, _ => by simp [siblingLoop]
  | _ :: _, _, 0, _, hfuel => absurd hfuel (Nat.not_lt_zero _)
  | c :: l, _, fuel + 1, .cons hchain, hfuel => by
    rw [siblingLoop]
    simp only [Int.toNat_natCast]
    by_cases htok : inp.token bx c = inp.targetPredict s.lastAcceptedRetriveIdx
    · rw [if_pos htok, find?_cons_of_pos (by simpa using htok)]
      rfl
    · rw [if_neg htok, find?_cons_of_neg (by simpa using htok)]
      exact siblingLoop_eq s l _ fuel hchain (by simpa using hfuel)

/-- The state after the positions of a path were accepted. -/
def acceptAll (inp : VerifyInput) (bx : ℕ) (s : VerifyState) (path : List ℕ) : VerifyState :=
  path.foldl (inp.acceptToken bx) s

/-- **The outer loop accepts the path of the predictions.** -/
theorem stepLoop_eq (henc : Encodes inp bx children) : ∀ (rounds : ℕ) (s : VerifyState) (i : ℕ),
    i < inp.numDraftTokens → s.curIndex = i → s.lastAcceptedRetriveIdx = inp.slot bx i →
    ∃ cur, inp.stepLoop bx rounds s = some { inp.acceptAll bx s
      (acceptedPath children (inp.token bx) (inp.target bx) rounds i) with curIndex := cur }
  | 0, s, _, _, _, _ => ⟨s.curIndex, rfl⟩
  | rounds + 1, s, i, hi, hcur, hlast => by
    have hchain := henc.chain i hi
    have hfuel : (children i).length < inp.numDraftTokens + 1 :=
      Nat.lt_succ_of_le (hchain.length_le (henc.lt i hi))
    have hloop := siblingLoop_eq s (children i) _ _ hchain hfuel
    rw [stepLoop, acceptedPath]
    simp only [hcur, Int.toNat_natCast, hloop, bind_eq_bind, bind_some]
    rw [hlast, show inp.targetPredict (inp.slot bx i) = inp.target bx i from rfl]
    cases hfind : (children i).find? fun c => inp.token bx c = inp.target bx i with
    | none => exact ⟨-1, by simp [acceptAll, hlast]⟩
    | some c =>
      have hne : (c : ℤ) ≠ -1 := by omega
      obtain ⟨cur, ih⟩ := stepLoop_eq henc rounds (inp.acceptToken bx s c) c
        (henc.lt i hi c (mem_of_find?_eq_some hfind)) rfl rfl
      refine ⟨cur, ?_⟩
      exact (if_neg hne).trans ih

/-- What a block leaves in the buffers when it accepts a path below the root. -/
def written (inp : VerifyInput) (bx : ℕ) (path : List ℕ) (b : VerifyBuffers) : VerifyBuffers where
  predicts := fun a => if a ∈ (0 :: path).map (inp.slot bx) then inp.targetPredict a else b.predicts a
  acceptIndex := fun a =>
    if bx * inp.numSpeculativeTokens ≤ a ∧ a ≤ bx * inp.numSpeculativeTokens + path.length then
      ((0 :: path).map (inp.slot bx)).getD (a - bx * inp.numSpeculativeTokens) 0
    else b.acceptIndex a
  acceptTokenNum := Function.update b.acceptTokenNum bx path.length

/-- The variables of a block and its buffers after a path of positions. -/
theorem acceptAll_start (inp : VerifyInput) (bx : ℕ) (b : VerifyBuffers) (path : List ℕ) :
    (inp.acceptAll bx (inp.start bx b) path).numAcceptedTokens = path.length ∧
    (inp.acceptAll bx (inp.start bx b) path).lastAcceptedRetriveIdx
      = inp.slot bx (path.getLastD 0) ∧
    (inp.acceptAll bx (inp.start bx b) path).buffers.acceptTokenNum = b.acceptTokenNum ∧
    (inp.acceptAll bx (inp.start bx b) path).buffers.acceptIndex
      = (inp.written bx path b).acceptIndex ∧
    Function.update (inp.acceptAll bx (inp.start bx b) path).buffers.predicts
      (inp.slot bx (path.getLastD 0)) (inp.target bx (path.getLastD 0))
      = (inp.written bx path b).predicts := by
  induction path using List.reverseRecOn with
  | nil =>
    refine ⟨rfl, rfl, rfl, ?_, ?_⟩
    · funext a
      simp only [acceptAll, start, foldl_nil, written, update_apply, length_nil, Nat.add_zero]
      by_cases ha : a = bx * inp.numSpeculativeTokens
      · simp [ha]
      · rw [if_neg ha, if_neg (by omega)]
    · funext a
      simp only [acceptAll, start, foldl_nil, written, update_apply, map_cons,
        map_nil, mem_singleton, getLastD_nil]
      split
      · rename_i ha
        rw [ha, target]
      · rfl
  | append_singleton path c ih =>
    obtain ⟨hnum, hlast, htok, hidx, hpred⟩ := ih
    have hfold : inp.acceptAll bx (inp.start bx b) (path ++ [c])
        = inp.acceptToken bx (inp.acceptAll bx (inp.start bx b) path) c := by
      rw [acceptAll, foldl_append]
      rfl
    have hgetLast : (path ++ [c]).getLastD 0 = c := by simp
    rw [hfold, hgetLast]
    refine ⟨by simp [acceptToken, hnum], rfl, htok, ?_, ?_⟩
    · funext a
      simp only [acceptToken, hnum, hidx, written, update_apply, length_append, length_singleton]
      by_cases ha : a = bx * inp.numSpeculativeTokens + (path.length + 1)
      · subst ha
        simp [getD_eq_getElem?_getD]
      · rw [if_neg ha]
        by_cases hr : bx * inp.numSpeculativeTokens ≤ a ∧
            a ≤ bx * inp.numSpeculativeTokens + path.length
        · rw [if_pos hr, if_pos (by omega)]
          have hlt : a - bx * inp.numSpeculativeTokens < (0 :: path).length := by
            rw [length_cons]; omega
          rw [← cons_append, map_append, getD_eq_getElem?_getD,
            getD_eq_getElem?_getD, getElem?_append_left (by simpa using hlt)]
        · rw [if_neg hr, if_neg (by omega)]
    · funext a
      have hpa := congrFun hpred a
      simp only [acceptToken, hlast, written, update_apply, map_cons,
        map_append, mem_cons, mem_append, map_nil, not_mem_nil,
        or_false] at hpa ⊢
      by_cases hc : a = inp.slot bx c
      · subst hc
        simp [target]
      · simp only [hc, if_false, or_false]
        exact hpa

/-- **A block returns, and writes what it accepted.** -/
theorem verifyTreeGreedy_eq (henc : Encodes inp bx children) (hn : 0 < inp.numDraftTokens)
    (b : VerifyBuffers) :
    inp.verifyTreeGreedy bx b = some (inp.written bx (acceptedPath children (inp.token bx)
      (inp.target bx) (inp.numSpeculativeTokens - 1) 0) b) := by
  obtain ⟨cur, hloop⟩ := stepLoop_eq henc (inp.numSpeculativeTokens - 1) (inp.start bx b) 0 hn rfl rfl
  obtain ⟨hnum, hlast, htok, hidx, hpred⟩ := acceptAll_start inp bx b
    (acceptedPath children (inp.token bx) (inp.target bx) (inp.numSpeculativeTokens - 1) 0)
  rw [verifyTreeGreedy, hloop]
  simp only [bind_eq_bind, bind_some, finish, hnum, hlast, htok, hidx]
  rw [show inp.targetPredict (inp.slot bx _) = inp.target bx _ from rfl, hpred]
  rfl

end Block

/-! ## 4. A launch -/

section Launch

variable {inp : VerifyInput} {children : ℕ → ℕ → List ℕ} {b : VerifyBuffers} {order : List ℕ}

/-- The path a block accepts. -/
def accepted (inp : VerifyInput) (children : ℕ → ℕ → List ℕ) (bx : ℕ) : List ℕ :=
  acceptedPath (children bx) (inp.token bx) (inp.target bx) (inp.numSpeculativeTokens - 1) 0

/-- The requests have places of their own in the buffer of predictions. -/
def SlotsApart (inp : VerifyInput) (order : List ℕ) : Prop :=
  ∀ bx ∈ order, ∀ bx' ∈ order, ∀ i < inp.numDraftTokens, ∀ i' < inp.numDraftTokens,
    inp.slot bx i = inp.slot bx' i' → bx = bx'

theorem length_accepted_le (inp : VerifyInput) (children : ℕ → ℕ → List ℕ) (bx : ℕ) :
    (inp.accepted children bx).length ≤ inp.numSpeculativeTokens - 1 :=
  length_acceptedPath_le _ _ _ _ _

theorem accepted_lt {bx : ℕ} (henc : Encodes inp bx (children bx)) (hn : 0 < inp.numDraftTokens) :
    ∀ i ∈ 0 :: inp.accepted children bx, i < inp.numDraftTokens := by
  intro i hi
  rcases mem_cons.mp hi with rfl | hi
  · exact hn
  · exact (descent_acceptedPath _ _).lt henc.lt hn i hi

theorem row_ne {S bx bx' j k : ℕ} (hne : bx ≠ bx') (hj : j < S) (hk : k < S) :
    bx * S + j ≠ bx' * S + k := by
  intro e
  have hS : 0 < S := by omega
  have h1 : (bx * S + j) / S = bx := by
    rw [Nat.mul_comm, Nat.mul_add_div hS, Nat.div_eq_of_lt hj, Nat.add_zero]
  have h2 : (bx' * S + k) / S = bx' := by
    rw [Nat.mul_comm, Nat.mul_add_div hS, Nat.div_eq_of_lt hk, Nat.add_zero]
  rw [e, h2] at h1
  exact hne h1.symm

/-- A block leaves the rows of the others alone. -/
theorem written_frame {path : List ℕ} {bx bx' : ℕ} (hne : bx' ≠ bx)
    (hlen : path.length < inp.numSpeculativeTokens) (b : VerifyBuffers) :
    (inp.written bx path b).acceptTokenNum bx' = b.acceptTokenNum bx' ∧
      ∀ j < inp.numSpeculativeTokens, (inp.written bx path b).acceptIndex
        (bx' * inp.numSpeculativeTokens + j) = b.acceptIndex (bx' * inp.numSpeculativeTokens + j) := by
  refine ⟨update_of_ne hne _ _, fun j hj => ?_⟩
  rw [written]
  simp only
  rw [if_neg]
  rintro ⟨h1, h2⟩
  obtain ⟨k, hk⟩ := Nat.exists_eq_add_of_le h1
  exact row_ne hne hj (by omega) hk

/-- **The blocks do not disturb each other**, in whatever order they run. -/
theorem launch_spec (hn : 0 < inp.numDraftTokens) (hS : 0 < inp.numSpeculativeTokens) :
    ∀ (order : List ℕ) (b : VerifyBuffers), order.Nodup → SlotsApart inp order →
    (∀ bx ∈ order, Encodes inp bx (children bx)) →
    ∃ b', inp.launch order b = some b' ∧
      (∀ bx ∈ order, b'.acceptTokenNum bx = (inp.accepted children bx).length ∧
        (∀ j < inp.numSpeculativeTokens, b'.acceptIndex (bx * inp.numSpeculativeTokens + j)
          = (inp.written bx (inp.accepted children bx) b).acceptIndex
            (bx * inp.numSpeculativeTokens + j)) ∧
        ∀ i ∈ 0 :: inp.accepted children bx, b'.predicts (inp.slot bx i) = inp.target bx i) ∧
      (∀ bx ∉ order, b'.acceptTokenNum bx = b.acceptTokenNum bx ∧
        ∀ j < inp.numSpeculativeTokens, b'.acceptIndex (bx * inp.numSpeculativeTokens + j)
          = b.acceptIndex (bx * inp.numSpeculativeTokens + j)) ∧
      ∀ a, (∀ bx ∈ order, ∀ i < inp.numDraftTokens, a ≠ inp.slot bx i) →
        b'.predicts a = b.predicts a
  | [], b, _, _, _ => ⟨b, rfl, by simp, by simp, by simp⟩
  | bx :: rest, b, hnd, hapart, henc => by
    rw [nodup_cons] at hnd
    have hbx := henc bx mem_cons_self
    have hlen : (inp.accepted children bx).length < inp.numSpeculativeTokens :=
      lt_of_le_of_lt (length_accepted_le inp children bx) (by omega)
    obtain ⟨b', hrun, hmine, hothers, hpred⟩ := launch_spec hn hS rest
      (inp.written bx (inp.accepted children bx) b) hnd.2
      (fun bx' h' bx'' h'' => hapart bx' (mem_cons_of_mem _ h') bx'' (mem_cons_of_mem _ h''))
      (fun bx' h => henc bx' (mem_cons_of_mem _ h))
    refine ⟨b', ?_, fun bx' hbx' => ?_, fun bx' hbx' => ?_, fun a ha => ?_⟩
    · rw [launch, foldlM_cons, verifyTreeGreedy_eq hbx hn]
      exact hrun
    · rcases mem_cons.mp hbx' with rfl | hmem
      · obtain ⟨h1, h2⟩ := hothers bx' hnd.1
        refine ⟨h1.trans (update_self ..), h2, fun i hi => ?_⟩
        rw [hpred, written]
        · simp only
          rw [if_pos (mem_map_of_mem hi)]
          rfl
        · intro bx'' hbx'' i' hi' e
          have := hapart bx' hbx' bx'' (mem_cons_of_mem _ hbx'') i (accepted_lt hbx hn i hi) i'
            hi' e
          exact hnd.1 (this ▸ hbx'')
      · obtain ⟨h1, h2, h3⟩ := hmine bx' hmem
        have hne : bx' ≠ bx := fun e => hnd.1 (e ▸ hmem)
        refine ⟨h1, fun j hj => ?_, h3⟩
        rw [h2 j hj]
        simp only [written]
        split
        · rfl
        · exact (written_frame hne hlen b).2 j hj
    · rw [mem_cons, not_or] at hbx'
      obtain ⟨h1, h2⟩ := hothers bx' hbx'.2
      obtain ⟨h3, h4⟩ := written_frame hbx'.1 hlen b
      exact ⟨h1.trans h3, fun j hj => (h2 j hj).trans (h4 j hj)⟩
    · rw [hpred a fun bx' h => ha bx' (mem_cons_of_mem _ h), written]
      simp only
      rw [if_neg]
      intro hmem
      obtain ⟨i, hi, rfl⟩ := mem_map.mp hmem
      exact ha bx mem_cons_self i (accepted_lt hbx hn i hi) rfl

/-- **Greedy tree verification is lossless.**  For draft trees encoded by first child and next sibling,
and predictions that are those of `f` after the prefix and the tokens on the path, the launch returns in
whatever order its blocks run, and for each request: the accepted positions form a path from the root;
`accept_token_num` counts them without the root, `accept_index` lists them, and its other entries stay;
the predictions at the accepted positions are the first tokens of iterating `f`, one more than were
accepted; and when siblings carry distinct tokens, no path within the number of steps agrees with `f`
any further. -/
theorem verifyTreeGreedy_lossless {f : List ℤ → ℤ} {pre : ℕ → List ℤ} (hnd : order.Nodup)
    (hn : 0 < inp.numDraftTokens) (hS : 0 < inp.numSpeculativeTokens) (hapart : SlotsApart inp order)
    (henc : ∀ bx ∈ order, Encodes inp bx (children bx))
    (hpred : ∀ bx ∈ order, PredictsBy (children bx) (inp.token bx) (inp.target bx) f (pre bx) 0) :
    ∃ b', inp.launch order b = some b' ∧ ∀ bx ∈ order, ∃ path, Descent (children bx) 0 path ∧
      path.length ≤ inp.numSpeculativeTokens - 1 ∧ b'.acceptTokenNum bx = path.length ∧
      (∀ j ≤ path.length, b'.acceptIndex (bx * inp.numSpeculativeTokens + j)
        = ((0 :: path).map (inp.slot bx)).getD j 0) ∧
      (∀ j, path.length < j → j < inp.numSpeculativeTokens →
        b'.acceptIndex (bx * inp.numSpeculativeTokens + j)
          = b.acceptIndex (bx * inp.numSpeculativeTokens + j)) ∧
      (0 :: path).map (fun i => b'.predicts (inp.slot bx i)) = greedy f (path.length + 1) (pre bx) ∧
      ((∀ i, ∀ c ∈ children bx i, ∀ d ∈ children bx i, inp.token bx c = inp.token bx d → c = d) →
        ∀ path', Descent (children bx) 0 path' → path'.length ≤ inp.numSpeculativeTokens - 1 →
          path'.map (inp.token bx) = greedy f path'.length (pre bx) →
          path'.length ≤ path.length) := by
  obtain ⟨b', hrun, hmine, -, -⟩ := launch_spec hn hS order b hnd hapart henc
  refine ⟨b', hrun, fun bx hbx => ⟨inp.accepted children bx, descent_acceptedPath _ _,
    length_accepted_le inp children bx, (hmine bx hbx).1, fun j hj => ?_, fun j hj hjS => ?_, ?_, ?_⟩⟩
  · have hlen := length_accepted_le inp children bx
    have hjS : j < inp.numSpeculativeTokens := by omega
    rw [(hmine bx hbx).2.1 j hjS, written]
    simp only
    rw [if_pos (by omega), Nat.add_sub_cancel_left]
  · rw [(hmine bx hbx).2.1 j hjS, written]
    simp only
    rw [if_neg (by omega)]
  · rw [map_congr_left (hmine bx hbx).2.2]
    exact map_target_acceptedPath _ _ _ (hpred bx hbx)
  · intro hinj path' hp hlen htoks
    exact length_le_acceptedPath hinj _ 0 (pre bx) path' (hpred bx hbx) hp hlen htoks

/-- A request whose root has two children, the second one with a child of its own. -/
def smallInput : VerifyInput where
  candidates := fun i => [10, 5, 1, 2].getD i 0
  retriveIndex := id
  retriveNextToken := fun i => [1, -1, 3, -1].getD i (-1)
  retriveNextSibling := fun i => [-1, 2, -1, -1].getD i (-1)
  targetPredict := fun i => [1, 2, 2, 3].getD i 0
  numSpeculativeTokens := 4
  numDraftTokens := 4

/-- Its children. -/
def smallChildren (_ i : ℕ) : List ℕ := [[1, 2], [], [3], []].getD i []

/-- The theorem on this request, with an `f` that counts: the second child and its child are accepted,
and three tokens come out. -/
theorem verifyTreeGreedy_lossless_small :
    ∃ b', smallInput.launch [0] ⟨fun _ => 0, fun _ => -1, fun _ => 0⟩ = some b' ∧
      ∃ path, Descent (smallChildren 0) 0 path ∧ b'.acceptTokenNum 0 = path.length ∧
        (0 :: path).map (fun i => b'.predicts (smallInput.slot 0 i))
          = greedy (fun l => (l.length : ℤ)) (path.length + 1) [10] ∧
        2 ≤ path.length := by
  have henc : ∀ bx ∈ [0], Encodes smallInput bx (smallChildren bx) := by
    intro bx hbx
    rw [mem_singleton] at hbx
    subst hbx
    refine ⟨by decide, fun i hi => ?_⟩
    change i < 4 at hi
    interval_cases i
    · exact .cons (i := 1) (.cons (i := 2) .nil)
    · exact .nil
    · exact .cons (i := 3) .nil
    · exact .nil
  have hpred : ∀ bx ∈ [0], PredictsBy (smallChildren bx) (smallInput.token bx) (smallInput.target bx)
      (fun l => (l.length : ℤ)) [10] 0 := by
    intro bx hbx path hp
    rw [mem_singleton] at hbx
    subst hbx
    cases hp with
    | nil => rfl
    | @cons _ c path hc hp =>
      have hc' : c = 1 ∨ c = 2 := by simpa [smallChildren] using hc
      rcases hc' with rfl | rfl
      · cases hp with
        | nil => rfl
        | cons hc hp => simp [smallChildren] at hc
      · cases hp with
        | nil => rfl
        | @cons _ c path hc hp =>
          have hc' : c = 3 := by simpa [smallChildren] using hc
          subst hc'
          cases hp with
          | nil => rfl
          | cons hc hp => simp [smallChildren] at hc
  obtain ⟨b', hrun, hall⟩ := verifyTreeGreedy_lossless
    (b := ⟨fun _ => 0, fun _ => -1, fun _ => 0⟩) (nodup_singleton 0) (by decide) (by decide)
    (fun bx h bx' h' _ _ _ _ _ => (mem_singleton.mp h).trans (mem_singleton.mp h').symm)
    henc hpred
  obtain ⟨path, h1, -, h3, -, -, h6, h7⟩ := hall 0 (mem_singleton_self 0)
  refine ⟨b', hrun, path, h1, h3, h6, h7 ?_ [2, 3] (.cons (by decide) (.cons (by decide) .nil))
    (by decide) (by decide)⟩
  intro i c hc d hd
  rcases i with _ | _ | _ | _ | i <;> simp [smallChildren] at hc hd
  · rcases hc with rfl | rfl <;> rcases hd with rfl | rfl <;> simp [token, place, smallInput]
  · rw [hc, hd]; simp

end Launch

end VerifyInput

end Sglang
