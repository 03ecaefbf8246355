/-
# The ranges of a bucket partition the length axis

`Partitions` is what the boundaries of a bucket with workers should be.  The ranges are computed by
two functions: `init_prefill_worker_urls` cuts `[0, l_max]` into equal pieces, `adjust_boundary`
walks through the loads.  Both give `Tiles 0 usizeMax`, as long as there is a number for each worker
in `[0, l_max]`, and no bound leaves `usize`.  The first fails when a bucket is set up for more than
4096 workers at once.
-/
import Sglang.Gateway.Bucket
import Sglang.Lib.Tiling

namespace Sglang

namespace Bucket

open Lib List

/-! ## 1. Partitions -/

/-- One range per worker url in order, from 0 to `usize::MAX` without gaps and overlaps. -/
structure Partitions (boundary : List Boundary) (urls : List String) : Prop where
  urls : boundary.map Boundary.url = urls
  first : ∀ b, boundary.head? = some b → b.min = 0
  next : boundary.IsChain fun b b' => b'.min = b.max + 1
  nonempty : ∀ b ∈ boundary, b.min ≤ b.max
  last : ∀ b, boundary.getLast? = some b → b.max = usizeMax

/-- The ranges tile the axis and have the urls of the workers. -/
structure Cover (boundary : List Boundary) (urls : List String) : Prop where
  urls : boundary.map Boundary.url = urls
  tiles : Tiles Boundary.min Boundary.max 0 usizeMax boundary

variable {B : Bucket} {boundary : List Boundary} {urls : List String} {c : ℕ}

theorem Cover.partitions (h : Cover boundary urls) : Partitions boundary urls :=
  ⟨h.urls, h.tiles.head, h.tiles.isChain, h.tiles.nonempty, h.tiles.last⟩

/-- The search finds the range that contains the number, from wherever it starts around it. -/
theorem search_eq {a b : ℕ} (h : Tiles Boundary.min Boundary.max a b boundary) {k : ℕ} {x : Boundary}
    (hk : boundary[k]? = some x) (hmin : x.min ≤ c) (hmax : c ≤ x.max) (left right : ℕ)
    (hleft : left ≤ k) (hright : k < right) (hlen : right ≤ boundary.length) :
    search boundary c left right = some x.url := by
  induction hn : right - left using Nat.strong_induction_on generalizing left right with
  | _ n ih =>
    rw [search, if_pos (by omega)]
    simp only
    have hmid : left + (right - left) / 2 < boundary.length := by omega
    rw [getElem?_eq_getElem hmid]
    simp only
    have hsides := h.sides hk hmin hmax (getElem?_eq_getElem hmid)
    rcases lt_trichotomy (left + (right - left) / 2) k with hlt | heq | hgt
    · have hbelow := hsides.1 hlt
      have hne := h.nonempty _ (getElem_mem hmid)
      rw [if_neg (by omega), if_pos hbelow]
      exact ih _ (by omega) _ _ (by omega) hright hlen rfl
    · have hx : boundary[left + (right - left) / 2] = x := by
        refine Option.some.inj ?_
        rw [← getElem?_eq_getElem hmid, heq, hk]
      rw [hx, if_neg (by omega), if_neg (by omega)]
    · rw [if_pos (hsides.2 hgt)]
      exact ih _ (by omega) _ _ hleft (by omega) (by omega) rfl

/-- **A bucket with a partition** sends every length to the one range that contains it. -/
theorem findBoundary_eq (h : Cover B.boundary urls) (hc : c ≤ usizeMax) :
    ∃ b ∈ B.boundary, b.min ≤ c ∧ c ≤ b.max ∧ B.findBoundary c = some b.url ∧
      ∀ b' ∈ B.boundary, b'.min ≤ c → c ≤ b'.max → b' = b := by
  obtain ⟨b, hb, hmin, hmax⟩ := h.tiles.exists_mem (Nat.zero_le c) hc
  obtain ⟨k, hk⟩ := getElem?_of_mem hb
  have hkl : k < B.boundary.length := (List.getElem?_eq_some_iff.mp hk).1
  refine ⟨b, hb, hmin, hmax, ?_, fun b' hb' hmin' hmax' => ?_⟩
  · exact search_eq h.tiles hk hmin hmax 0 _ (Nat.zero_le k) hkl le_rfl
  · obtain ⟨i, hi⟩ := getElem?_of_mem hb'
    obtain ⟨h₁, h₂⟩ := h.tiles.sides hk hmin hmax hi
    rcases lt_trichotomy i k with hlt | rfl | hgt
    · have := h₁ hlt
      omega
    · exact Option.some.inj (hi.symm.trans hk)
    · have := h₂ hgt
      omega

/-! ## 2. Equal pieces -/

theorem wrap_of_le {n : ℕ} (h : n ≤ usizeMax) : wrap n = n :=
  Nat.mod_eq_of_lt (by rw [usizeMax] at h; omega)

theorem wsub_one {n : ℕ} (h₁ : 1 ≤ n) (h : n ≤ usizeMax) : wsub n 1 = n - 1 := by
  rw [usizeMax] at h
  rw [wsub]
  omega

theorem tiles_pieces {gap : ℕ} (hgap : 1 ≤ gap) : ∀ (urls : List String) (k : ℕ), urls ≠ [] →
    (k + urls.length) * gap ≤ usizeMax →
    Tiles Boundary.min Boundary.max (k * gap) usizeMax (urls.mapIdx fun i url =>
      (⟨url, wrap ((k + i) * gap), if i = urls.length - 1 then usizeMax
        else wsub (wrap ((k + i + 1) * gap)) 1⟩ : Boundary))
  | [], _, hne, _ => absurd rfl hne
  | [url], k, _, hle => by
    have hk : k * gap ≤ usizeMax := le_trans (Nat.mul_le_mul_right _ (by simp)) hle
    rw [mapIdx_singleton]
    simp only [Nat.add_zero, wrap_of_le hk, length_singleton, Nat.sub_self, if_true]
    exact ⟨rfl, hk, rfl⟩
  | url :: url' :: urls, k, _, hle => by
    simp only [length_cons] at hle
    have hk₁ : (k + 1) * gap ≤ usizeMax := le_trans (Nat.mul_le_mul_right _ (by omega)) hle
    have hk : k * gap ≤ usizeMax := le_trans (Nat.mul_le_mul_right _ (by omega)) hle
    have hpos : k * gap + gap = (k + 1) * gap := (Nat.succ_mul k gap).symm
    have ih := tiles_pieces hgap (url' :: urls) (k + 1) (by simp)
      (by simp only [length_cons]; rw [show k + 1 + (urls.length + 1) = k + (urls.length + 1 + 1) by omega]; exact hle)
    rw [mapIdx_cons]
    have hmax : wsub (wrap ((k + 0 + 1) * gap)) 1 = (k + 1) * gap - 1 := by
      rw [wrap_of_le hk₁, wsub_one (by omega) hk₁]
    refine Tiles.cons ?_ ?_ ?_
    · exact wrap_of_le (by simpa using hk)
    · simp only [length_cons, hmax, Nat.add_zero, wrap_of_le hk]
      rw [if_neg (by omega)]
      omega
    · simp only [length_cons, hmax] at ih ⊢
      rw [if_neg (by omega), Nat.sub_add_cancel (by omega)]
      have hshift : (fun i (url : String) => (⟨url, wrap ((k + (i + 1)) * gap),
          if i + 1 = urls.length + 1 + 1 - 1 then usizeMax
            else wsub (wrap ((k + (i + 1) + 1) * gap)) 1⟩ : Boundary))
          = fun i url => ⟨url, wrap ((k + 1 + i) * gap), if i = urls.length + 1 - 1 then usizeMax
            else wsub (wrap ((k + 1 + i + 1) * gap)) 1⟩ := by
        funext i url
        have h₁ : k + (i + 1) = k + 1 + i := by omega
        simp [h₁]
      rw [hshift]
      exact ih

theorem cover_initBoundary (hne : urls ≠ []) {lMax : ℕ} (hlen : urls.length ≤ lMax)
    (hmax : lMax ≤ usizeMax) : Cover (initBoundary (lMax / urls.length) urls) urls := by
  have hpos : 0 < urls.length := length_pos_iff.mpr hne
  refine ⟨?_, ?_⟩
  · refine ext_getElem? fun i => ?_
    rw [getElem?_map, initBoundary, getElem?_mapIdx]
    cases urls[i]? with
    | none => rfl
    | some url => rfl
  · have hgap : 1 ≤ lMax / urls.length := (Nat.one_le_div_iff hpos).mpr hlen
    have h := tiles_pieces hgap urls 0 hne (by
      rw [Nat.zero_add, Nat.mul_comm]
      exact le_trans (Nat.div_mul_le_self _ _) hmax)
    simpa [initBoundary] using h

/-! ## 3. Walking through the loads -/

theorem takeLoads_mem {singleLoad load : ℕ} : ∀ {l : List ℕ} {acc i j : ℕ},
    takeLoads singleLoad l acc i = (some load, j) → load ∈ l
  | [], _, _, _, h => by cases h
  | x :: l, acc, i, j, h => by
    rw [takeLoads] at h
    split at h
    · cases h
      exact mem_cons_self
    · exact mem_cons_of_mem _ (takeLoads_mem h)

/-- The walk gives one range to each worker. -/
theorem adjustLoop_urls (hist : List ℕ) (single : ℕ) : ∀ (urls : List String) (upper i : ℕ),
    (adjustLoop hist single urls upper i).map Boundary.url = urls
  | [], _, _ => rfl
  | url :: rest, upper, i => by
    rw [adjustLoop]
    split
    · rename_i h
      rw [h.2]
      rfl
    · split
      · split
        · rename_i h
          rw [h]
          rfl
        · simp only
          split
          · rw [map_cons, adjustLoop_urls hist single rest]
          · rw [map_cons, adjustLoop_urls hist single rest]
      · split
        · rename_i h
          rw [h]
          rfl
        · simp [adjustLoop_urls hist single rest]

/-- **The walk tiles the axis** from where it starts, if its bounds stay in `usize`: there is room
for a piece of the average load and one more for each of the remaining workers. -/
theorem tiles_adjustLoop {hist : List ℕ} {single : ℕ} : ∀ (urls : List String) (upper i : ℕ),
    urls ≠ [] → upper + (urls.length - 1) * (single + 1) ≤ usizeMax →
    (∀ load ∈ hist, load + 1 + (urls.length - 1) * (single + 1) ≤ usizeMax) →
    Tiles Boundary.min Boundary.max upper usizeMax (adjustLoop hist single urls upper i)
  | [], _, _, hne, _, _ => absurd rfl hne
  | url :: rest, upper, i, _, hupper, hload => by
    simp only [length_cons, Nat.add_sub_cancel] at hupper hload
    have hlast : Tiles Boundary.min Boundary.max upper usizeMax [⟨url, upper, usizeMax⟩] :=
      ⟨rfl, by simp only; omega, rfl⟩
    -- the next range starts after `bound`, which leaves room for the others
    have hnext : ∀ bound j, rest ≠ [] → upper ≤ bound →
        bound + 1 + (rest.length - 1) * (single + 1) ≤ usizeMax →
        Tiles Boundary.min Boundary.max upper usizeMax
          (⟨url, upper, bound⟩ :: adjustLoop hist single rest (wrap (bound + 1)) j) := by
      intro bound j hrest hle hroom
      rw [wrap_of_le (by omega)]
      refine Tiles.cons rfl hle (tiles_adjustLoop rest (bound + 1) j hrest hroom fun load hmem => ?_)
      exact le_trans (Nat.add_le_add_left (Nat.mul_le_mul_right _ (Nat.sub_le _ _)) _)
        (hload load hmem)
    have hmul : rest ≠ [] → rest.length * (single + 1)
        = (rest.length - 1) * (single + 1) + (single + 1) := fun hrest => by
      have := length_pos_iff.mpr hrest
      rw [← Nat.succ_mul]
      congr 1
      omega
    rw [adjustLoop]
    split
    · exact hlast
    · split
      · rename_i load j hload'
        have hmem := mem_of_mem_drop (takeLoads_mem hload')
        split
        · exact hlast
        · rename_i hrest
          have hm := hmul hrest
          rw [wrap_of_le (by omega)]
          split
          · exact hnext _ _ hrest (by omega) (by omega)
          · refine hnext _ _ hrest (by omega) ?_
            have := hload load hmem
            omega
      · split
        · exact hlast
        · rename_i hrest
          have hm := hmul hrest
          rw [wrap_of_le (by omega)]
          exact hnext _ _ hrest (by omega) (by omega)

theorem mem_histLoad {load : ℕ} : load ∈ B.histLoad ↔ ∃ e ∈ B.tReqLoads.entries, e.2 = load := by
  rw [histLoad, mem_mergeSort, mem_map]

theorem cover_adjustLoop (hne : B.prefillWorkerUrls ≠ []) (hfits : ∀ e ∈ B.tReqLoads.entries,
      e.2 + B.loadTotal + B.prefillWorkerUrls.length ≤ usizeMax)
    (hreq : B.tReqLoads.entries ≠ []) :
    Cover (adjustLoop B.histLoad (B.loadTotal / B.prefillWorkerUrls.length) B.prefillWorkerUrls 0 0)
      B.prefillWorkerUrls := by
  have hpos := length_pos_iff.mpr hne
  have hdiv : B.prefillWorkerUrls.length * (B.loadTotal / B.prefillWorkerUrls.length)
      ≤ B.loadTotal := Nat.mul_div_le _ _
  have hroom : (B.prefillWorkerUrls.length - 1) * (B.loadTotal / B.prefillWorkerUrls.length + 1) + 1
      ≤ B.loadTotal + B.prefillWorkerUrls.length := by
    obtain ⟨n, hn⟩ : ∃ n, B.prefillWorkerUrls.length = n + 1 := ⟨_, (Nat.succ_pred hpos.ne').symm⟩
    rw [hn] at hdiv ⊢
    rw [Nat.succ_mul] at hdiv
    rw [Nat.add_sub_cancel, Nat.mul_succ]
    generalize B.loadTotal / (n + 1) = q at hdiv ⊢
    omega
  refine ⟨adjustLoop_urls _ _ _ _ _, tiles_adjustLoop _ _ _ hne ?_ ?_⟩
  · obtain ⟨e, he⟩ := exists_mem_of_ne_nil _ hreq
    have := hfits e he
    omega
  · intro load hmem
    obtain ⟨e, he, rfl⟩ := mem_histLoad.mp hmem
    have := hfits e he
    omega

/-! ## 4. Runs -/

/-- What the ranges need: a number in `[0, l_max]` for each worker, and sums that stay in `usize`. -/
def Fits (B : Bucket) : Op → Prop
  | .init urls => urls.length ≤ B.lMax
  | .add _ => B.prefillWorkerUrls.length + 1 ≤ B.lMax
  | .remove _ => True
  | .post _ _ _ _ => True
  | .adjust => ∀ e ∈ B.tReqLoads.entries,
      e.2 + B.loadTotal + B.prefillWorkerUrls.length ≤ usizeMax

/-- The invariant of a bucket. -/
structure Ranges (B : Bucket) : Prop where
  cover : B.prefillWorkerUrls ≠ [] → Cover B.boundary B.prefillWorkerUrls
  lMax : B.prefillWorkerUrls ≠ [] → B.lMax = usizeMax
  lMax_le : B.lMax ≤ usizeMax
  length_le : B.prefillWorkerUrls.length ≤ usizeMax

theorem ranges_new (period : ℕ) : Ranges (new period) where
  cover := fun h => absurd rfl h
  lMax := fun h => absurd rfl h
  lMax_le := by
    change 4096 ≤ usizeMax
    decide
  length_le := Nat.zero_le _

theorem ranges_init (hmax : B.lMax ≤ usizeMax) (hlen : urls.length ≤ B.lMax) :
    Ranges (B.initPrefillWorkerUrls urls) := by
  unfold initPrefillWorkerUrls
  refine ⟨fun hne => ?_, fun hne => ?_, ?_, le_trans hlen hmax⟩
  · have hne' : urls.length ≠ 0 := by simpa using hne
    simp only [if_neg hne']
    exact cover_initBoundary hne hlen hmax
  · exact if_neg (by simpa using hne)
  · simp only
    split
    · exact hmax
    · exact le_rfl

theorem expireLoop_keeps (now : ℕ) : ∀ (l : List SequencerRequest) (B : Bucket) (n : ℕ),
    (expireLoop now l B n).1.prefillWorkerUrls = B.prefillWorkerUrls ∧
    (expireLoop now l B n).1.boundary = B.boundary ∧ (expireLoop now l B n).1.lMax = B.lMax
  | [], _, _ => ⟨rfl, rfl, rfl⟩
  | req :: rest, B, n => by
    rw [expireLoop]
    split
    · exact expireLoop_keeps now rest _ _
    · exact ⟨rfl, rfl, rfl⟩

theorem ranges_step {op : Op} (hfits : B.Fits op) (h : Ranges B) : Ranges (B.step op) := by
  cases op with
  | init urls => exact ranges_init h.lMax_le hfits
  | add url =>
    refine ranges_init h.lMax_le ?_
    split
    · exact le_trans (Nat.le_succ _) hfits
    · rw [length_append]
      exact hfits
  | remove url =>
    have hle : (B.prefillWorkerUrls.filter (· ≠ url)).length ≤ B.prefillWorkerUrls.length :=
      length_filter_le _ _
    unfold step removePrefillUrl
    simp only
    split
    · rename_i hpos
      have hne : B.prefillWorkerUrls ≠ [] := by
        rintro hnil
        rw [hnil] at hpos
        cases hpos
      refine ranges_init h.lMax_le ?_
      change _ ≤ B.lMax
      rw [h.lMax hne]
      exact hle.trans h.length_le
    · rename_i hnil
      have hnil : B.prefillWorkerUrls.filter (· ≠ url) = [] := by simpa using hnil
      exact ⟨fun hne => absurd hnil hne, fun hne => absurd hnil hne, h.lMax_le,
        hle.trans h.length_le⟩
  | post charCnt url now id =>
    unfold step postProcessRequest
    simp only
    have hkeep := expireLoop_keeps now B.requestList (B.countRequest charCnt url) 0
    generalize expireLoop now B.requestList (B.countRequest charCnt url) 0 = out at hkeep ⊢
    obtain ⟨hurls, hboundary, hlMax⟩ := hkeep
    refine ⟨?_, ?_, ?_, ?_⟩
    · simp only [hurls, hboundary]
      exact h.cover
    · simp only [hurls, hlMax]
      exact h.lMax
    · simp only [hlMax]
      exact h.lMax_le
    · simp only [hurls]
      exact h.length_le
  | adjust =>
    rw [step, adjustBoundary]
    split
    · exact h
    · rename_i hreq
      have hupdate : Ranges B.updateWorkersCnt := ⟨h.cover, h.lMax, h.lMax_le, h.length_le⟩
      simp only
      split
      · exact hupdate
      split
      · exact hupdate
      · rename_i hpos _
        have hne : B.prefillWorkerUrls ≠ [] := fun hnil => hpos (by
          change B.prefillWorkerUrls.length = 0
          rw [hnil]
          rfl)
        exact ⟨fun _ => cover_adjustLoop hne hfits hreq, h.lMax, h.lMax_le, h.length_le⟩

/-- **The boundaries of a bucket partition the length axis**, and the search follows them. -/
theorem boundary_partitions (period : ℕ) (ops : List Op) (h : Meets Fits (new period) ops)
    (hne : ((new period).run ops).prefillWorkerUrls ≠ []) :
    Partitions ((new period).run ops).boundary ((new period).run ops).prefillWorkerUrls ∧
    ∀ c ≤ usizeMax, ∃ b ∈ ((new period).run ops).boundary, b.min ≤ c ∧ c ≤ b.max ∧
      ((new period).run ops).findBoundary c = some b.url ∧
      ∀ b' ∈ ((new period).run ops).boundary, b'.min ≤ c → c ≤ b'.max → b' = b := by
  have hinv : Ranges ((new period).run ops) :=
    run_induction (fun _ _ => ranges_step) ops (new period) (ranges_new period) h
  exact ⟨(hinv.cover hne).partitions, fun c hc => findBoundary_eq (hinv.cover hne) hc⟩

/-- Two workers, a request for each of two lengths, and an adjustment. -/
theorem boundary_partitions_two :
    Meets Fits (new 10000) [.init ["a", "b"], .post 5 "a" 0 0, .post 9 "a" 1 1, .adjust] ∧
    Partitions ((new 10000).run [.init ["a", "b"], .post 5 "a" 0 0, .post 9 "a" 1 1, .adjust]).boundary
      ["a", "b"] := by
  have h : Meets Fits (new 10000)
      [.init ["a", "b"], .post 5 "a" 0 0, .post 9 "a" 1 1, .adjust] := by
    refine ⟨by simp [Fits, new], trivial, trivial, ?_, trivial⟩
    change ∀ e ∈ [(⟨1, 9⟩ : Sigma fun _ : ℕ => ℕ), ⟨0, 5⟩], e.2 + 14 + 2 ≤ usizeMax
    decide
  exact ⟨h, (boundary_partitions 10000 _ h (by decide)).1⟩

/-- With more workers than numbers the first two ranges overlap. -/
theorem not_partitions_initBoundary (hlen : 3 ≤ urls.length) :
    ¬ Partitions (initBoundary 0 urls) urls := by
  intro h
  match urls, hlen with
  | u :: v :: w :: rest, _ =>
    have hnext := h.next
    rw [initBoundary, mapIdx_cons, mapIdx_cons, isChain_cons_cons] at hnext
    have hstart := hnext.1
    simp only [length_cons, Nat.mul_zero] at hstart
    rw [if_neg (by omega)] at hstart
    exact absurd hstart (by decide)

theorem not_partitions_init (hlen : 4096 < urls.length) :
    ¬ Partitions ((new 10000).run [.init urls]).boundary
      ((new 10000).run [.init urls]).prefillWorkerUrls := by
  have hboundary : ((new 10000).run [.init urls]).boundary = initBoundary (4096 / urls.length) urls :=
    if_neg (show urls.length ≠ 0 by omega)
  rw [hboundary, Nat.div_eq_of_lt hlen]
  exact not_partitions_initBoundary (by omega)

/-- A bucket that is set up for 4097 workers: `l_max / 4097` is 0. -/
theorem boundary_overlap :
    ¬ Partitions ((new 10000).run [.init ((List.range 4097).map toString)]).boundary
      ((new 10000).run [.init ((List.range 4097).map toString)]).prefillWorkerUrls := by
  refine not_partitions_init ?_
  rw [length_map, length_range]
  exact Nat.lt_succ_self 4096

end Bucket

end Sglang
