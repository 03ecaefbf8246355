/-
# The load accounting of a bucket

A bucket counts the load of its time window three times: in `load_total`, in `t_req_loads` by
request, and in `chars_per_url` by worker.  `Exact` says that all three agree with the window.  The
first two follow every request.  The third is set to 0 for all workers when one is added or removed,
while the window survives; it stays exact if the window has no load for these workers then
(`Settled`).
-/
import Sglang.Gateway.Bucket

namespace Sglang

namespace Bucket

open List

variable {B : Bucket} {l : List SequencerRequest} {url : String} {now : ℕ}

/-! ## 1. The window -/

/-- The load of some requests. -/
def total (l : List SequencerRequest) : ℕ := (l.map SequencerRequest.charCnt).sum

/-- The load of the requests that were sent to `url`. -/
def totalTo (l : List SequencerRequest) (url : String) : ℕ :=
  total (l.filter fun req => req.prefillWorkerUrl = url)

/-- The three counts agree with the window. -/
structure Exact (B : Bucket) : Prop where
  requests : B.loadTotal = total B.requestList
  loads : B.loadTotal = (B.tReqLoads.entries.map Sigma.snd).sum
  urls : ∀ url ∈ B.prefillWorkerUrls,
    B.charsPerUrl.lookup url = some (totalTo B.requestList url)

/-- The entry of a request in `t_req_loads`. -/
def loadEntry (req : SequencerRequest) : Sigma fun _ : ℕ => ℕ := ⟨req.id, req.charCnt⟩

/-- The invariant: `t_req_loads` has the requests of the window, and their load fits. -/
structure Accounts (B : Bucket) : Prop where
  requests : B.loadTotal = total B.requestList
  perm : B.tReqLoads.entries.Perm (B.requestList.map loadEntry)
  urls : ∀ url ∈ B.prefillWorkerUrls,
    B.charsPerUrl.lookup url = some (totalTo B.requestList url)
  fits : B.loadTotal ≤ usizeMax

theorem Accounts.exact (h : Accounts B) : Exact B := by
  refine ⟨h.requests, ?_, h.urls⟩
  rw [(h.perm.map Sigma.snd).sum_eq, map_map, h.requests]
  rfl

@[simp] theorem total_nil : total [] = 0 := rfl

@[simp] theorem total_cons (req : SequencerRequest) (l : List SequencerRequest) :
    total (req :: l) = req.charCnt + total l := by
  simp [total]

theorem total_append (l l' : List SequencerRequest) : total (l ++ l') = total l + total l' := by
  simp [total]

theorem totalTo_cons (req : SequencerRequest) (l : List SequencerRequest) (url : String) :
    totalTo (req :: l) url =
      (if req.prefillWorkerUrl = url then req.charCnt else 0) + totalTo l url := by
  by_cases h : req.prefillWorkerUrl = url
  · simp [totalTo, h]
  · simp [totalTo, h]

theorem totalTo_append (l l' : List SequencerRequest) (url : String) :
    totalTo (l ++ l') url = totalTo l url + totalTo l' url := by
  simp [totalTo, total_append]

theorem total_take_drop (p : SequencerRequest → Bool) (l : List SequencerRequest) :
    total l = total (l.takeWhile p) + total (l.dropWhile p) := by
  rw [← total_append, takeWhile_append_dropWhile]

theorem totalTo_eq_zero (h : ∀ req ∈ l, req.prefillWorkerUrl = url → req.charCnt = 0) :
    totalTo l url = 0 := by
  refine sum_eq_zero fun n hn => ?_
  obtain ⟨req, hreq, rfl⟩ := mem_map.mp hn
  rw [mem_filter, decide_eq_true_eq] at hreq
  exact h req hreq.1 hreq.2

/-! ## 2. Expiry -/

/-- What the loop that removes expired requests leaves, for a window `l` and `removed` load removed
so far. -/
structure Expires (now : ℕ) (l : List SequencerRequest) (B : Bucket) (removed : ℕ)
    (out : Bucket × ℕ) : Prop where
  requestList : out.1.requestList = l.dropWhile (expired now B.period)
  removed : out.2 = removed + total (l.takeWhile (expired now B.period))
  perm : out.1.tReqLoads.entries.Perm ((l.dropWhile (expired now B.period)).map loadEntry)
  workers : out.1.prefillWorkerUrls = B.prefillWorkerUrls
  loadTotal : out.1.loadTotal = B.loadTotal
  urls : ∀ url x, B.charsPerUrl.lookup url = some (totalTo l url + x) →
    out.1.charsPerUrl.lookup url = some (totalTo (l.dropWhile (expired now B.period)) url + x)

/-- **The loop** takes the same requests out of all counts. -/
theorem expireLoop_expires (now : ℕ) : ∀ (l : List SequencerRequest) (B : Bucket) (removed : ℕ),
    B.tReqLoads.entries.Perm (l.map loadEntry) → removed + total l ≤ usizeMax →
    Expires now l B removed (expireLoop now l B removed)
  | [], B, removed, hperm, _ =>
    ⟨rfl, rfl, hperm, rfl, rfl, fun _ _ h => h⟩
  | req :: rest, B, removed, hperm, hsum => by
    rw [expireLoop]
    by_cases hexp : expired now B.period req = true
    · rw [if_pos hexp]
      rw [total_cons] at hsum
      have hwrap : wrap (removed + req.charCnt) = removed + req.charCnt :=
        Nat.mod_eq_of_lt (by rw [usizeMax] at hsum; omega)
      have herase : (B.tReqLoads.erase req.id).entries.Perm (rest.map loadEntry) := by
        have h := hperm.kerase (a := req.id) B.tReqLoads.nodupKeys
        have hcons : List.kerase req.id (loadEntry req :: rest.map loadEntry) = rest.map loadEntry :=
          kerase_cons_eq rfl
        rw [map_cons, hcons] at h
        exact h
      have ih := expireLoop_expires now rest (B.forget req) (wrap (removed + req.charCnt)) herase
        (by rw [hwrap]; omega)
      refine ⟨?_, ?_, ?_, ih.workers, ih.loadTotal, ?_⟩
      · rw [dropWhile_cons_of_pos hexp]
        exact ih.requestList
      · rw [takeWhile_cons_of_pos hexp, ih.removed, hwrap]
        exact Nat.add_assoc _ _ _
      · rw [dropWhile_cons_of_pos hexp]
        exact ih.perm
      · intro url x hx
        rw [dropWhile_cons_of_pos hexp]
        refine ih.urls url x ?_
        rw [totalTo_cons] at hx
        unfold forget
        by_cases hu : req.prefillWorkerUrl = url
        · subst hu
          rw [if_pos rfl] at hx
          simp only [hx, AList.lookup_insert]
          congr 1
          omega
        · rw [if_neg hu, Nat.zero_add] at hx
          rw [← hx]
          split
          · exact AList.lookup_insert_ne (Ne.symm hu)
          · rfl
    · rw [if_neg hexp]
      have hdrop : (req :: rest).dropWhile (expired now B.period) = req :: rest :=
        dropWhile_cons_of_neg hexp
      have htake : (req :: rest).takeWhile (expired now B.period) = [] :=
        takeWhile_cons_of_neg hexp
      refine ⟨hdrop.symm, ?_, ?_, rfl, rfl, ?_⟩
      · rw [htake]
        rfl
      · rw [hdrop]
        exact hperm
      · rw [hdrop]
        exact fun _ _ h => h

/-! ## 3. The steps -/

/-- The condition under which an operation keeps the counts exact.  A membership change needs a
window without load for the workers it leaves; a request needs sums that fit, and an identifier
that is not in use. -/
def Settled (B : Bucket) : Op → Prop
  | .init urls => ∀ req ∈ B.requestList, req.prefillWorkerUrl ∈ urls → req.charCnt = 0
  | .add url => ∀ req ∈ B.requestList,
      req.prefillWorkerUrl ∈ B.prefillWorkerUrls ∨ req.prefillWorkerUrl = url → req.charCnt = 0
  | .remove url => ∀ req ∈ B.requestList,
      req.prefillWorkerUrl ∈ B.prefillWorkerUrls → req.prefillWorkerUrl ≠ url → req.charCnt = 0
  | .post charCnt url now id =>
      (url ∈ B.prefillWorkerUrls → totalTo B.requestList url + charCnt ≤ usizeMax) ∧
      total (B.requestList.dropWhile (expired now B.period)) + charCnt ≤ usizeMax ∧
      id ∉ B.tReqLoads
  | .adjust => True

theorem lookup_initial (m : LoadMap String) : ∀ (urls : List String),
    url ∈ urls ∨ m.lookup url = some 0 →
    (urls.foldl (fun m url => m.insert url 0) m).lookup url = some 0
  | [], h => h.resolve_left (not_mem_nil)
  | u :: urls, h => by
    rw [foldl_cons]
    refine lookup_initial (m.insert u 0) urls ?_
    by_cases hu : url = u
    · subst hu
      exact .inr (AList.lookup_insert m)
    · rw [AList.lookup_insert_ne hu]
      exact h.imp (fun h => (mem_cons.mp h).resolve_left hu) id

theorem accounts_init (h : Accounts B) (urls : List String)
    (hset : ∀ req ∈ B.requestList, req.prefillWorkerUrl ∈ urls → req.charCnt = 0) :
    Accounts (B.initPrefillWorkerUrls urls) := by
  refine ⟨h.requests, h.perm, fun url hurl => ?_, h.fits⟩
  have hzero : totalTo B.requestList url = 0 :=
    totalTo_eq_zero fun req hreq heq => hset req hreq (heq ▸ hurl)
  change (urls.foldl (fun (m : LoadMap String) url => m.insert url 0) ∅).lookup url
    = some (totalTo B.requestList url)
  rw [hzero]
  exact lookup_initial ∅ urls (.inl hurl)

theorem lookup_updateWorkersCnt {n : ℕ} (hurl : url ∈ B.prefillWorkerUrls)
    (h : B.charsPerUrl.lookup url = some n) :
    B.updateWorkersCnt.charsPerUrl.lookup url = some n := by
  have hadd : ∀ (urls : List String) (m : LoadMap String), m.lookup url = some n →
      (urls.foldl (fun m url => if url ∈ m then m else m.insert url 0) m).lookup url = some n := by
    intro urls
    induction urls with
    | nil => exact fun _ h => h
    | cons u urls ih =>
      intro m hm
      rw [foldl_cons]
      refine ih _ ?_
      split
      · exact hm
      · rename_i hu
        have hne : url ≠ u := by
          rintro rfl
          exact hu (AList.lookup_isSome.mp (by rw [hm]; rfl))
        rw [AList.lookup_insert_ne hne, hm]
  have herase : ∀ (keys : List String) (m : LoadMap String), m.lookup url = some n →
      (keys.foldl (fun m url => if url ∉ B.prefillWorkerUrls ∧ m.lookup url = some 0
        then m.erase url else m) m).lookup url = some n := by
    intro keys
    induction keys with
    | nil => exact fun _ h => h
    | cons u keys ih =>
      intro m hm
      rw [foldl_cons]
      refine ih _ ?_
      split
      · rename_i hu
        have hne : url ≠ u := by
          rintro rfl
          exact hu.1 hurl
        rw [AList.lookup_erase_ne hne, hm]
      · exact hm
  exact herase _ _ (hadd _ _ h)

/-- **A request** is added to all counts, and so is the expiry of others taken out. -/
theorem accounts_post (h : Accounts B) {charCnt now id : ℕ} {url : String}
    (hset : B.Settled (.post charCnt url now id)) :
    Accounts (B.postProcessRequest charCnt url now id) := by
  obtain ⟨hurlFits, hfits, hid⟩ := hset
  have hexp : Expires now B.requestList (B.countRequest charCnt url) 0 _ :=
    expireLoop_expires now B.requestList (B.countRequest charCnt url) 0 h.perm
      (by rw [Nat.zero_add, ← h.requests]; exact h.fits)
  unfold postProcessRequest
  generalize expireLoop now B.requestList (B.countRequest charCnt url) 0 = out at hexp ⊢
  obtain ⟨hlist, hremoved, hperm, hworkers, htotal, hurls⟩ := hexp
  have htotal : out.1.loadTotal = B.loadTotal := htotal
  have hperiod : (B.countRequest charCnt url).period = B.period := rfl
  rw [hperiod] at hlist hremoved hperm hurls
  have hsplit := total_take_drop (expired now B.period) B.requestList
  generalize hkeep : B.requestList.dropWhile (expired now B.period) = keep at *
  have hload : Nat.min (out.1.loadTotal - out.2 + charCnt) usizeMax = total keep + charCnt := by
    rw [htotal, hremoved, h.requests, hsplit, Nat.zero_add, Nat.add_sub_cancel_left]
    exact Nat.min_eq_left hfits
  have hid' : id ∉ out.1.tReqLoads := by
    intro hmem
    refine hid ?_
    obtain ⟨e, he, rfl⟩ := mem_map.mp (AList.mem_keys.mp hmem)
    obtain ⟨req, hreq, rfl⟩ := mem_map.mp (hperm.mem_iff.mp he)
    have hmem' : req ∈ B.requestList := (dropWhile_sublist _).subset (hkeep ▸ hreq)
    have := h.perm.mem_iff.mpr (mem_map_of_mem hmem')
    exact AList.mem_keys.mpr (mem_map_of_mem this)
  refine ⟨?_, ?_, ?_, ?_⟩
  · simp [hload, hlist, total_append]
  · simp only [hlist, map_append, map_cons, map_nil, AList.entries_insert_of_notMem hid']
    exact (List.Perm.cons _ hperm).trans (perm_append_singleton _ _).symm
  · intro u hu
    have hu : u ∈ B.prefillWorkerUrls := hworkers ▸ hu
    have hbefore := h.urls u hu
    simp only [hlist, totalTo_append, totalTo_cons]
    by_cases heq : url = u
    · subst heq
      refine (hurls url charCnt ?_).trans ?_
      · change (B.charsPerUrl.insert url _).lookup url = _
        rw [AList.lookup_insert, hbefore, Option.getD_some]
        have hle := hurlFits hu
        exact congrArg some (Nat.mod_eq_of_lt (by rw [usizeMax] at hle; omega))
      · simp [totalTo]
    · refine (hurls u 0 ?_).trans ?_
      · change (B.charsPerUrl.insert url _).lookup u = _
        rw [AList.lookup_insert_ne (Ne.symm heq), hbefore, Nat.add_zero]
      · simp [totalTo, heq]
  · simp only [hload]
    exact hfits

theorem accounts_step {op : Op} (hset : B.Settled op) (h : Accounts B) : Accounts (B.step op) := by
  cases op with
  | init urls => exact accounts_init h urls hset
  | add url =>
    have hurls : ∀ req ∈ B.requestList, req.prefillWorkerUrl ∈ (if url ∈ B.prefillWorkerUrls then
        B.prefillWorkerUrls else B.prefillWorkerUrls ++ [url]) → req.charCnt = 0 := by
      intro req hreq hmem
      refine hset req hreq ?_
      split at hmem
      · exact .inl hmem
      · exact (mem_append.mp hmem).imp id mem_singleton.mp
    -- `init` overwrites what was done to the urls and the counts before
    exact accounts_init h _ hurls
  | remove url =>
    unfold step removePrefillUrl
    simp only
    split
    · refine accounts_init h _ fun req hreq hmem => ?_
      rw [mem_filter, decide_eq_true_eq] at hmem
      exact hset req hreq hmem.1 hmem.2
    · rename_i hnil
      have hnil : B.prefillWorkerUrls.filter (· ≠ url) = [] := by simpa using hnil
      refine ⟨h.requests, h.perm, fun u hu => ?_, h.fits⟩
      rw [hnil] at hu
      cases hu
  | post charCnt url now id => exact accounts_post h hset
  | adjust =>
    have hupdate : Accounts B.updateWorkersCnt :=
      ⟨h.requests, h.perm, fun url hurl => lookup_updateWorkersCnt hurl (h.urls url hurl), h.fits⟩
    rw [step, adjustBoundary]
    split
    · exact h
    · simp only
      split
      · exact hupdate
      split
      · exact hupdate
      · exact ⟨hupdate.requests, hupdate.perm, hupdate.urls, hupdate.fits⟩

theorem accounts_new (period : ℕ) : Accounts (new period) where
  requests := rfl
  perm := List.Perm.refl _
  urls := nofun
  fits := Nat.zero_le _

/-- **The load accounting is exact** after every run whose membership changes find a window without
load for the workers they leave. -/
theorem load_exact (period : ℕ) (ops : List Op) (h : Meets Settled (new period) ops) :
    Exact ((new period).run ops) := by
  have hinv : Accounts ((new period).run ops) :=
    run_induction (fun _ _ => accounts_step) ops (new period) (accounts_new period) h
  exact hinv.exact

/-- Requests after the workers are known. -/
theorem load_exact_two :
    Meets Settled (new 10000) [.init ["a", "b"], .post 5 "a" 0 0, .post 9 "b" 1 1] ∧
    Exact ((new 10000).run [.init ["a", "b"], .post 5 "a" 0 0, .post 9 "b" 1 1]) := by
  have h : Meets Settled (new 10000) [.init ["a", "b"], .post 5 "a" 0 0, .post 9 "b" 1 1] := by
    refine ⟨nofun, ⟨fun _ => by decide, by decide, by decide⟩,
      ⟨fun _ => by decide, by decide, by decide⟩, trivial⟩
  exact ⟨h, load_exact 10000 _ h⟩

/-- A worker is added while the window has a request: its load is still in the window and no longer
counted for the worker it was sent to. -/
theorem load_forgotten :
    ¬ Exact ((new 10000).run [.init ["a"], .post 5 "a" 0 0, .add "b"]) := by
  intro h
  exact absurd (h.urls "a" (by decide)) (by decide)

end Bucket

end Sglang
