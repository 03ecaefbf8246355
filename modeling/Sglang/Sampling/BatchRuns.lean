/-
# Runs of batches

No request is in two batches, or twice in one, so a step on one batch leaves the rows of the others alone
(`BatchSystem.Inv.update`).  Along a run the rows fit the requests (`rows_fit`).
-/
import Mathlib.Algebra.Ring.Int.Defs
import Sglang.Sampling.BatchRows

namespace Sglang

open Lib Lib.Columns List

namespace Sampling

variable {R : Type} [Ring R] [DecidableEq R] {args : GlobalServerArgs} {states : ℕ → ReqState}

/-! ## 1. The invariant -/

/-- The output of a request is what it was admitted with, what has been cumulated since, and the token that
was sampled last if the batch has been run. -/
def ReqState.Told (s : ReqState) : Bool → Prop
  | false => s.isChunked = false ∧ s.outputIds = s.kept ++ s.cumulated
  | true => s.isChunked = false → s.outputIds = s.kept ++ s.cumulated ++ [s.sampled]

structure ScheduleBatch.Good (args : GlobalServerArgs) (states : ℕ → ReqState) (b : ScheduleBatch R) :
    Prop where
  nodup : b.rids.Nodup
  fits : b.reqs ≠ [] → b.Fits args states
  told : ∀ req ∈ b.reqs, (states req.rid).Told b.outputIds.isSome

structure BatchSystem.Inv (args : GlobalServerArgs) (s : BatchSystem R) : Prop where
  good : ∀ (i : ℕ) (b : ScheduleBatch R), s.batches[i]? = some b → b.Good args s.states
  disjoint : ∀ (i j : ℕ) (b c : ScheduleBatch R), s.batches[i]? = some b → s.batches[j]? = some c → i ≠ j →
    ∀ rid ∈ b.rids, rid ∉ c.rids

variable {b : ScheduleBatch R} {states' : ℕ → ReqState}

theorem ScheduleBatch.Good.congr (h : b.Good args states)
    (hsame : ∀ rid ∈ b.rids, states' rid = states rid) : b.Good args states' where
  nodup := h.nodup
  fits := fun hne => (h.fits hne).congr hsame
  told := fun req hreq => (hsame _ (ScheduleBatch.mem_rids hreq)).symm ▸ h.told req hreq

theorem ScheduleBatch.good_of_nil (h : b.reqs = []) : b.Good args states where
  nodup := by
    rw [ScheduleBatch.rids, h]
    exact nodup_nil
  fits := fun hne => absurd h hne
  told := fun req hreq => by
    rw [h] at hreq
    cases hreq

/-- **One batch changes.**  It has no requests that it did not have, and the states of the others stay as they
are. -/
theorem BatchSystem.Inv.update {s : BatchSystem R} (h : s.Inv args) {i : ℕ} {b' : ScheduleBatch R}
    (hb : s.batches[i]? = some b) (hrids : ∀ rid ∈ b'.rids, rid ∈ b.rids)
    (hstates : ∀ rid, rid ∉ b.rids → states' rid = s.states rid) (hgood : b'.Good args states') :
    BatchSystem.Inv args { batches := s.batches.set i b', states := states' } := by
  have hcases : ∀ j c, (s.batches.set i b')[j]? = some c →
      j = i ∧ c = b' ∨ j ≠ i ∧ s.batches[j]? = some c := by
    intro j c hc
    by_cases hji : j = i
    · subst hji
      rw [getElem?_set_self (List.getElem?_eq_some_iff.mp hb).1] at hc
      exact Or.inl ⟨rfl, (Option.some.inj hc).symm⟩
    · rw [getElem?_set_ne fun heq => hji heq.symm] at hc
      exact Or.inr ⟨hji, hc⟩
  constructor
  · intro j c hc
    rcases hcases j c hc with ⟨rfl, rfl⟩ | ⟨hji, hc⟩
    · exact hgood
    · exact (h.good j c hc).congr fun rid hrid => hstates rid (h.disjoint j i c b hc hb hji rid hrid)
  · intro j k c d hc hd hjk rid hrid hmem
    rcases hcases j c hc with ⟨rfl, rfl⟩ | ⟨hji, hold⟩
    · rcases hcases k d hd with ⟨rfl, rfl⟩ | ⟨hki, hold'⟩
      · exact hjk rfl
      · exact h.disjoint j k b d hb hold' hjk rid (hrids rid hrid) hmem
    · rcases hcases k d hd with ⟨rfl, rfl⟩ | ⟨hki, hold'⟩
      · exact h.disjoint j k c b hold hb hjk rid hrid (hrids rid hmem)
      · exact h.disjoint j k c d hold hold' hjk rid hrid hmem

/-! ## 2. The steps -/

omit [Ring R] [DecidableEq R] in
theorem admitted_of_mem {entries : List (Extend R)} (hnodup : (entries.map (·.req.rid)).Nodup)
    {entry : Extend R} (hentry : entry ∈ entries) :
    BatchSystem.admitted states entries entry.req.rid = (states entry.req.rid).admitted entry := by
  have hfind : entries.find? (fun e => e.req.rid = entry.req.rid) = some entry := by
    induction entries with
    | nil => cases hentry
    | cons e entries ih =>
      rw [map_cons, nodup_cons] at hnodup
      rw [find?_cons]
      rcases mem_cons.mp hentry with rfl | hmem
      · simp
      · have hne : e.req.rid ≠ entry.req.rid := fun heq => hnodup.1 (heq ▸ mem_map_of_mem hmem)
        rw [decide_eq_false hne]
        exact ih hnodup.2 hmem
  rw [BatchSystem.admitted, hfind]

omit [Ring R] [DecidableEq R] in
theorem admitted_of_notMem {entries : List (Extend R)} {rid : ℕ}
    (hnot : rid ∉ entries.map (·.req.rid)) : BatchSystem.admitted states entries rid = states rid := by
  have hfind : entries.find? (fun e => e.req.rid = rid) = none :=
    find?_eq_none.mpr fun entry hentry heq =>
      hnot (of_decide_eq_true heq ▸ mem_map_of_mem hentry)
  rw [BatchSystem.admitted, hfind]

theorem BatchSystem.Inv.start {s : BatchSystem R} (h : s.Inv args) (entries : List (Extend R)) :
    (s.step args (.start entries)).Inv args := by
  rw [BatchSystem.step]
  split
  · rename_i hguard
    obtain ⟨hnodup, hnew⟩ := hguard
    have hrids : (ScheduleBatch.prepareForExtend args entries).rids = entries.map (·.req.rid) := by
      rw [ScheduleBatch.rids, ScheduleBatch.prepareForExtend, map_map]
      rfl
    have hold : ∀ b ∈ s.batches, ∀ rid ∈ b.rids, rid ∉ entries.map (·.req.rid) := fun b hb rid hrid hmem => by
      obtain ⟨entry, hentry, rfl⟩ := mem_map.mp hmem
      exact hnew b hb entry hentry hrid
    have hcases : ∀ j c, (s.batches ++ [ScheduleBatch.prepareForExtend args entries])[j]? = some c →
        s.batches[j]? = some c ∨ j = s.batches.length ∧ c = ScheduleBatch.prepareForExtend args entries := by
      intro j c hc
      rcases lt_trichotomy j s.batches.length with hlt | heq | hgt
      · rw [getElem?_append_left hlt] at hc
        exact Or.inl hc
      · subst heq
        rw [getElem?_append_right (le_refl _), Nat.sub_self] at hc
        exact Or.inr ⟨rfl, (Option.some.inj hc).symm⟩
      · rw [getElem?_eq_none (by rw [length_append]; exact hgt)] at hc
        cases hc
    have hgood : (ScheduleBatch.prepareForExtend args entries).Good args
        (BatchSystem.admitted s.states entries) := by
      refine ⟨hrids ▸ hnodup, fun _ => ScheduleBatch.fits_prepareForExtend args fun entry hentry =>
        ⟨_, admitted_of_mem hnodup hentry⟩, fun req hreq => ?_⟩
      obtain ⟨entry, hentry, rfl⟩ := mem_map.mp hreq
      rw [admitted_of_mem hnodup hentry]
      exact ⟨rfl, (append_nil _).symm⟩
    constructor
    · intro j c hc
      rcases hcases j c hc with hc | ⟨-, rfl⟩
      · exact (h.good j c hc).congr fun rid hrid =>
          admitted_of_notMem (hold c (mem_of_getElem? hc) rid hrid)
      · exact hgood
    · intro j k c d hc hd hjk rid hrid hmem
      rcases hcases j c hc with hc | ⟨rfl, rfl⟩
      · rcases hcases k d hd with hd | ⟨rfl, rfl⟩
        · exact h.disjoint j k c d hc hd hjk rid hrid hmem
        · exact hold c (mem_of_getElem? hc) rid hrid (hrids ▸ hmem)
      · rcases hcases k d hd with hd | ⟨rfl, rfl⟩
        · exact hold d (mem_of_getElem? hd) rid hmem (hrids ▸ hrid)
        · exact absurd rfl hjk
  · exact h

omit [Ring R] [DecidableEq R] in
theorem sampled_row (states : ℕ → ReqState) {reqs : List (Req R)} {tokens : List ℕ} (chunked : List ℕ)
    (hnodup : (reqs.map (·.rid)).Nodup)
    (hlen : tokens.length = reqs.length) :
    List.Forall₂ (fun req token => BatchSystem.sampled states ((reqs.map (·.rid)).zip tokens) chunked req.rid
      = (states req.rid).sample token (chunked.contains req.rid)) reqs tokens := by
  have hkeys : ((reqs.map (·.rid)).zip tokens).map Prod.fst = reqs.map (·.rid) :=
    map_fst_zip (by rw [length_map]; exact hlen.ge)
  refine forall₂_iff_zip.mpr ⟨hlen.symm, fun {req token} hmem => ?_⟩
  have hentry : (req.rid, token) ∈ (reqs.map (·.rid)).zip tokens := by
    rw [zip_map_left]
    exact mem_map.mpr ⟨(req, token), hmem, rfl⟩
  have hlookup : ((reqs.map (·.rid)).zip tokens).lookup req.rid = some token :=
    AssocList.lookup_of_mem (by rw [hkeys]; exact hnodup) hentry
  rw [BatchSystem.sampled, hlookup]

theorem sampled_of_notMem {rids tokens chunked : List ℕ} {rid : ℕ} (hnot : rid ∉ rids) :
    BatchSystem.sampled states (rids.zip tokens) chunked rid = states rid := by
  have hnone : (rids.zip tokens).lookup rid = none := by
    rw [AssocList.lookup_eq_none_iff]
    intro hmem
    obtain ⟨e, he, rfl⟩ := mem_map.mp hmem
    exact hnot (of_mem_zip he).1
  rw [BatchSystem.sampled, hnone]

theorem ReqState.Told.sample {s : ReqState} (h : s.Told false) (token : ℕ) (chunked : Bool) :
    (s.sample token chunked).Told true := by
  intro hchunked
  have hoff : chunked = false := hchunked
  rw [ReqState.sample, hoff]
  rw [h.2]
  rfl

theorem ReqState.Told.decode {s : ReqState} (h : s.Told true) (hoff : s.isChunked = false) :
    s.decode.Told false := by
  refine ⟨hoff, ?_⟩
  rw [ReqState.decode]
  rw [h hoff, append_assoc]

theorem BatchSystem.Inv.sample {s : BatchSystem R} (h : s.Inv args) (i : ℕ) (tokens chunked : List ℕ) :
    (s.step args (.sample i tokens chunked)).Inv args := by
  rw [BatchSystem.step]
  split
  · exact h
  · rename_i b hb
    split
    · rename_i hguard
      have hgood := h.good i b hb
      have hstate := sampled_row s.states chunked hgood.nodup hguard.2
      refine h.update hb (fun rid hrid => hrid) (fun rid hrid => sampled_of_notMem hrid)
        ⟨hgood.nodup, fun hne => ?_, fun req hreq => ?_⟩
      · exact ScheduleBatch.fits_sample (hgood.fits hne) (hstate.imp fun req token htoken => ⟨_, htoken⟩)
      · obtain ⟨token, -, htoken⟩ := exists_mem_of_forall₂ hstate hreq
        have htold := hgood.told req hreq
        rw [hguard.1] at htold
        exact htoken ▸ ReqState.Told.sample htold token _
    · exact h

theorem BatchSystem.Inv.prepareForDecode {s : BatchSystem R} (h : s.Inv args) (i : ℕ) :
    (s.step args (.prepareForDecode i)).Inv args := by
  rw [BatchSystem.step]
  split
  · exact h
  · rename_i b hb
    split
    · exact h
    · rename_i outputIds houtput
      split
      · rename_i hguard
        have hgood := h.good i b hb
        have hstate : ∀ req ∈ b.reqs, BatchSystem.decoded s.states b.rids req.rid
            = (s.states req.rid).decode := fun req hreq => if_pos (ScheduleBatch.mem_rids hreq)
        refine h.update hb (fun rid hrid => hrid) (fun rid hrid => if_neg hrid)
          ⟨hgood.nodup, fun hne => ?_, fun req hreq => ?_⟩
        · exact ScheduleBatch.fits_prepareForDecode (hgood.fits hne) houtput hstate
        · have htold := hgood.told req hreq
          rw [houtput] at htold
          rw [hstate req hreq]
          exact ReqState.Told.decode htold (hguard req.rid (ScheduleBatch.mem_rids hreq))
      · exact h

theorem ScheduleBatch.rids_filterTo (b : ScheduleBatch R) (keepIndices : List ℕ) :
    (b.filterTo keepIndices).rids = [] ∨ (b.filterTo keepIndices).rids = b.rids ∨
      (b.filterTo keepIndices).rids = gather b.rids keepIndices := by
  rw [ScheduleBatch.filterTo]
  split
  · exact Or.inl rfl
  · split
    · exact Or.inr (Or.inl rfl)
    · exact Or.inr (Or.inr (gather_map _ _ _).symm)

theorem ScheduleBatch.isSome_filterTo (b : ScheduleBatch R) (keepIndices : List ℕ) :
    (b.filterTo keepIndices).outputIds.isSome = b.outputIds.isSome := by
  rw [ScheduleBatch.filterTo]
  split
  · rfl
  · split
    · rfl
    · exact Option.isSome_map

theorem ScheduleBatch.Good.filterTo (h : b.Good args states) {keepIndices : List ℕ}
    (hkeep : keepIndices.Nodup) :
    (b.filterTo keepIndices).Good args states ∧ ∀ rid ∈ (b.filterTo keepIndices).rids, rid ∈ b.rids := by
  have hreqs : ∀ req ∈ (b.filterTo keepIndices).reqs, req ∈ b.reqs := by
    intro req hreq
    rw [ScheduleBatch.filterTo] at hreq
    split at hreq
    · cases hreq
    · split at hreq
      · exact hreq
      · exact mem_of_mem_gather hreq
  refine ⟨⟨?_, fun hne => ?_, fun req hreq => ?_⟩, fun rid hrid => ?_⟩
  · rcases b.rids_filterTo keepIndices with hnil | hsame | hgather
    · rw [hnil]
      exact nodup_nil
    · rw [hsame]
      exact h.nodup
    · rw [hgather]
      exact nodup_gather h.nodup hkeep
  · have hb : b.reqs ≠ [] := fun hnil => by
      obtain ⟨req, hreq⟩ := exists_mem_of_ne_nil _ hne
      have hmem := hreqs req hreq
      rw [hnil] at hmem
      cases hmem
    exact (ScheduleBatch.fits_filterTo (h.fits hb) keepIndices).resolve_left hne
  · rw [b.isSome_filterTo keepIndices]
    exact h.told req (hreqs req hreq)
  · obtain ⟨req, hreq, rfl⟩ := mem_map.mp hrid
    exact ScheduleBatch.mem_rids (hreqs req hreq)

theorem BatchSystem.Inv.filter {s : BatchSystem R} (h : s.Inv args) (i : ℕ)
    (finished chunkedReqToExclude : List ℕ) (keepIndices : Option (List ℕ)) :
    (s.step args (.filter i finished chunkedReqToExclude keepIndices)).Inv args := by
  rw [BatchSystem.step]
  split
  · exact h
  · rename_i b hb
    split
    · rename_i hguard
      have hnodup : (keepIndices.getD (b.keepIndices finished.contains chunkedReqToExclude)).Nodup := by
        cases keepIndices with
        | none => exact nodup_range.filter _
        | some l => exact hguard.1
      obtain ⟨hgood, hrids⟩ := (h.good i b hb).filterTo hnodup
      exact h.update hb hrids (fun _ _ => rfl) hgood
    · exact h

theorem BatchSystem.Inv.merge {s : BatchSystem R} (h : s.Inv args) (i j : ℕ) :
    (s.step args (.merge i j)).Inv args := by
  rw [BatchSystem.step]
  split
  · rename_i b other hb hother
    split
    · rename_i hguard
      obtain ⟨hij, hne, hne', houtput⟩ := hguard
      have hgood := h.good i b hb
      have hgood' := h.good j other hother
      have hmerged : (b.mergeBatch other).Good args s.states := by
        refine ⟨?_, fun _ => ?_, fun req hreq => ?_⟩
        · rw [ScheduleBatch.rids, ScheduleBatch.mergeBatch, map_append]
          exact hgood.nodup.append hgood'.nodup fun rid hrid hrid' =>
            h.disjoint i j b other hb hother hij rid hrid hrid'
        · exact ScheduleBatch.fits_mergeBatch (hgood.fits fun hnil => hne (hnil ▸ rfl))
            (hgood'.fits fun hnil => hne' (hnil ▸ rfl)) houtput
        · have hsome : (b.mergeBatch other).outputIds.isSome = b.outputIds.isSome := Option.isSome_map
          rw [hsome]
          rcases mem_append.mp hreq with hreq | hreq
          · exact hgood.told req hreq
          · exact houtput ▸ hgood'.told req hreq
      -- The other batch gives its requests up before this one takes them.
      have hemptied : BatchSystem.Inv args { s with batches := s.batches.set j { other with reqs := [] } } :=
        h.update hother (fun rid hrid => absurd hrid not_mem_nil) (fun _ _ => rfl)
          (ScheduleBatch.good_of_nil rfl)
      have hrids : ∀ rid ∈ (b.mergeBatch other).rids, rid ∈ b.rids ∨ rid ∈ other.rids := fun rid hrid => by
        rw [ScheduleBatch.rids, ScheduleBatch.mergeBatch, map_append] at hrid
        exact mem_append.mp hrid
      have hi := (List.getElem?_eq_some_iff.mp hb).1
      have hcases : ∀ k c, ((s.batches.set i (b.mergeBatch other)).set j { other with reqs := [] })[k]?
          = some c → k = i ∧ c = b.mergeBatch other ∨
            k ≠ i ∧ (s.batches.set j { other with reqs := [] })[k]? = some c ∧
              ∀ rid ∈ c.rids, rid ∉ b.rids ∧ rid ∉ other.rids := by
        intro k c hc
        rw [set_comm _ _ hij] at hc
        by_cases hki : k = i
        · subst hki
          rw [getElem?_set_self (by rw [length_set]; exact hi)] at hc
          exact Or.inl ⟨rfl, (Option.some.inj hc).symm⟩
        · rw [getElem?_set_ne fun heq => hki heq.symm] at hc
          refine Or.inr ⟨hki, hc, fun rid hrid => ?_⟩
          by_cases hkj : k = j
          · subst hkj
            rw [getElem?_set_self (List.getElem?_eq_some_iff.mp hother).1] at hc
            rw [← Option.some.inj hc] at hrid
            cases hrid
          · rw [getElem?_set_ne fun heq => hkj heq.symm] at hc
            exact ⟨h.disjoint k i c b hc hb hki rid hrid, h.disjoint k j c other hc hother hkj rid hrid⟩
      constructor
      · intro k c hc
        rcases hcases k c hc with ⟨-, rfl⟩ | ⟨-, hc, -⟩
        · exact hmerged
        · exact hemptied.good k c hc
      · intro k l c d hc hd hkl rid hrid hmem
        rcases hcases k c hc with ⟨rfl, rfl⟩ | ⟨hki, hc, hapart⟩
        · rcases hcases l d hd with ⟨rfl, rfl⟩ | ⟨hli, hd, hapart'⟩
          · exact hkl rfl
          · exact (hrids rid hrid).elim (hapart' rid hmem).1 (hapart' rid hmem).2
        · rcases hcases l d hd with ⟨rfl, rfl⟩ | ⟨hli, hd, hapart'⟩
          · exact (hrids rid hmem).elim (hapart rid hrid).1 (hapart rid hrid).2
          · exact hemptied.disjoint k l c d hc hd hkl rid hrid hmem
    · exact h
  · exact h

/-! ## 3. Runs -/

theorem BatchSystem.Inv.step {s : BatchSystem R} (h : s.Inv args) (op : BatchOp R) :
    (s.step args op).Inv args := by
  cases op with
  | start entries => exact h.start entries
  | sample i tokens chunked => exact h.sample i tokens chunked
  | prepareForDecode i => exact h.prepareForDecode i
  | filter i finished chunkedReqToExclude keepIndices => exact h.filter i finished chunkedReqToExclude keepIndices
  | merge i j => exact h.merge i j

theorem BatchSystem.inv_run (args : GlobalServerArgs) (ops : List (BatchOp R)) :
    (BatchSystem.run args ops).Inv args := by
  have hrun : ∀ (s : BatchSystem R), s.Inv args → (ops.foldl (BatchSystem.step args) s).Inv args := by
    induction ops with
    | nil => exact fun s h => h
    | cons op ops ih => exact fun s h => ih _ (h.step op)
  refine hrun {} ⟨fun i b hb => ?_, fun i j b c hb => ?_⟩
  · cases hb
  · cases hb

/-- **Batch rows stay aligned with requests.**  In every run, a batch that has requests has one row for each of
them in every column of `ScheduleBatch` that is there, in order, and the row is the request's own (that of a
penalizer is of its tokens since it was last admitted); no request is in two batches. -/
theorem rows_fit (args : GlobalServerArgs) (ops : List (BatchOp R)) (i : ℕ) (b : ScheduleBatch R)
    (hb : (BatchSystem.run args ops).batches[i]? = some b) (hne : b.reqs ≠ []) :
    b.Fits args (BatchSystem.run args ops).states :=
  ((BatchSystem.inv_run args ops).good i b hb).fits hne

/-- Parameters without penalties. -/
def plainParams : SamplingParams ℤ where
  temperature := 1
  topP := 1
  topK := -1
  minP := 0
  frequencyPenalty := 0
  presencePenalty := 0
  repetitionPenalty := 1

/-- A request with bias and logprobs, and one without, in a batch each, and the merged batch. -/
def mergedRun : List (BatchOp ℤ) :=
  [.start [⟨{ rid := 0, samplingParams := { plainParams with logitBias := some [(3, 2)] },
              returnLogprob := true, topLogprobsNum := 5 }, 4, 4, 0⟩],
    .sample 0 [7] [], .start [⟨{ rid := 1, samplingParams := plainParams }, 6, 6, 1⟩], .sample 1 [8] [],
    .merge 0 1]

theorem rows_fit_merged : ∃ b, (BatchSystem.run {} mergedRun).batches[0]? = some b ∧ b.rids = [0, 1] ∧
    b.topLogprobsNums = some [5, 0] ∧ b.Fits {} (BatchSystem.run {} mergedRun).states :=
  ⟨_, rfl, rfl, rfl, rows_fit {} mergedRun 0 _ rfl (cons_ne_nil _ _)⟩

/-- A batch that has lost its only request keeps the row of that request. -/
theorem rows_not_fit : ¬ ∀ (args : GlobalServerArgs) (ops : List (BatchOp ℤ)) (i : ℕ) (b : ScheduleBatch ℤ),
    (BatchSystem.run args ops).batches[i]? = some b → b.Fits args (BatchSystem.run args ops).states := fun h =>
  have hfits := h {} [.start [⟨{ rid := 0, samplingParams := plainParams }, 4, 4, 0⟩], .sample 0 [7] [],
    .filter 0 [0] [] none] 0 _ rfl
  absurd hfits.seqLens.length_eq (by decide)

end Sampling

end Sglang
