/-
# Taking a tenant out of the multi-tenant tree

Eviction and removal take a tenant out of one leaf of its part of the tree after the other
(`dropTenant`), and go on at the parent once it has become a leaf.  `Dropped` says what one such
step does.  The queue of `remove_tenant` always holds exactly the leaves of the tenant, so when it is
empty the tenant owns nothing.
-/
import Sglang.Gateway.TenantShape

namespace Sglang

namespace TenantTree

open CharText Lib TenantNode List Option AssocList

variable {n n' m k : TenantNode} {c : Char} {t t' : String} {p q s : List Char}

/-! ## 1. Where a tenant is -/

/-- The tenant owns the node under a path. -/
def Owns (t : String) (n : TenantNode) (p : List Char) : Prop :=
  ∃ m, n.nodeAt p = some m ∧ t ∈ m.tenants

/-- The node under a path is a leaf of the part of the tenant. -/
def LeafAt (t : String) (n : TenantNode) (p : List Char) : Prop :=
  ∃ m, n.nodeAt p = some m ∧ m.isLeafFor t = true

theorem owns_nil : Owns t n [] ↔ t ∈ n.tenants :=
  ⟨fun ⟨_, hm, ht⟩ => Option.some.inj hm ▸ ht, fun ht => ⟨n, rfl, ht⟩⟩

theorem owns_cons : Owns t n (c :: p) ↔ ∃ m, n.child? c = some m ∧ Owns t m p := by
  constructor
  · rintro ⟨l, hl, ht⟩
    obtain ⟨m, hm, hl⟩ := bind_eq_some_iff.mp hl
    exact ⟨m, hm, l, hl, ht⟩
  · rintro ⟨m, hm, l, hl, ht⟩
    refine ⟨l, ?_, ht⟩
    rw [nodeAt, hm]
    exact hl

theorem nodeAt_append : ∀ (p q : List Char) (n : TenantNode),
    n.nodeAt (p ++ q) = (n.nodeAt p).bind (·.nodeAt q)
  | [], q, n => rfl
  | c :: p, q, n => by
    rw [cons_append, nodeAt, nodeAt]
    cases n.child? c with
    | none => rfl
    | some m => exact nodeAt_append p q m

theorem isLeafFor_iff (hg : Good n) :
    n.isLeafFor t = true ↔ t ∈ n.tenants ∧ ∀ c m, n.child? c = some m → t ∉ m.tenants := by
  rw [isLeafFor, Bool.and_eq_true, decide_eq_true_iff, Bool.not_eq_true', List.any_eq_false]
  refine and_congr_right fun _ => ?_
  constructor
  · intro h c m hm ht
    exact h (c, m) (mem_of_lookup hm) (decide_eq_true ht)
  · intro h e he hdec
    exact h e.1 e.2 (lookup_of_mem hg.nodup he) (of_decide_eq_true hdec)

/-- A leaf is a node that the tenant owns, without any child that it owns. -/
theorem leafAt_iff (hg : Good n) : LeafAt t n p ↔ Owns t n p ∧ ∀ c, ¬ Owns t n (p ++ [c]) := by
  constructor
  · rintro ⟨m, hm, hleaf⟩
    rw [isLeafFor_iff (hg.nodeAt hm)] at hleaf
    refine ⟨⟨m, hm, hleaf.1⟩, ?_⟩
    rintro c ⟨l, hl, ht⟩
    rw [nodeAt_append, hm, bind_some] at hl
    obtain ⟨l', hl', hl⟩ := bind_eq_some_iff.mp hl
    cases hl
    exact hleaf.2 c _ hl' ht
  · rintro ⟨⟨m, hm, ht⟩, hno⟩
    refine ⟨m, hm, (isLeafFor_iff (hg.nodeAt hm)).mpr ⟨ht, fun c l hl htl => ?_⟩⟩
    refine hno c ⟨l, ?_, htl⟩
    rw [nodeAt_append, hm, bind_some, nodeAt, hl]
    rfl

/-- Below every node that the tenant owns there is a leaf. -/
theorem exists_leafAt (hg : Good n) : t ∈ n.tenants → ∃ q, LeafAt t n q := by
  induction hg with
  | @mk n hnd hfits hgood ih =>
    intro ht
    by_cases h : ∃ c m, n.child? c = some m ∧ t ∈ m.tenants
    · obtain ⟨c, m, hm, htm⟩ := h
      obtain ⟨q, l, hl, hleaf⟩ := ih hm htm
      refine ⟨c :: q, l, ?_, hleaf⟩
      rw [nodeAt, hm]
      exact hl
    · refine ⟨[], n, rfl, (isLeafFor_iff (.mk hnd hfits hgood)).mpr ⟨ht, fun c m hm htm => ?_⟩⟩
      exact h ⟨c, m, hm, htm⟩

theorem not_owns_of_no_leaf (hg : Good n) (h : ∀ q, ¬ LeafAt t n q) : ¬ Owns t n p := by
  rintro ⟨m, hm, ht⟩
  obtain ⟨q, l, hl, hleaf⟩ := exists_leafAt (hg.nodeAt hm) ht
  refine h (p ++ q) ⟨l, ?_, hleaf⟩
  rw [nodeAt_append, hm]
  exact hl

theorem eq_nil_of_not_owns (h : ∀ q, ¬ Owns t n q) (hr : Reach t n s) : s = [] := by
  cases s with
  | nil => rfl
  | cons c s =>
    obtain ⟨m, hm, hvia⟩ := reach_cons.mp hr
    exact absurd (owns_cons.mpr ⟨m, hm, owns_nil.mpr hvia.1⟩) (h [c])

theorem usedSize_eq_zero (hg : Good n) : (∀ q, ¬ Owns t n q) → usedSize t n = 0 := by
  induction hg with
  | @mk n hnd hfits hgood ih =>
    intro h
    rw [usedSize_eq, if_neg fun ht => h [] (owns_nil.mpr ht), Nat.zero_add]
    refine sum_eq_zero fun x hx => ?_
    obtain ⟨e, he, rfl⟩ := List.mem_map.mp hx
    have hm : n.child? e.1 = some e.2 := lookup_of_mem hnd he
    exact ih hm fun q hq => h (e.1 :: q) (owns_cons.mpr ⟨e.2, hm, hq⟩)

/-! ## 2. One step -/

/-- What taking the tenant out of the leaf `m` under `p` does to the tree. -/
structure Dropped (t : String) (p : List Char) (m n n' : TenantNode) : Prop where
  text : n'.text = n.text
  mem : ∀ t', t' ∈ n'.tenants ↔ t' ∈ n.tenants ∧ ¬ (p = [] ∧ t' = t)
  good : Good n'
  reach : ∀ t' s, t' ≠ t → (Reach t' n' s ↔ Reach t' n s)
  owns : ∀ t' q, Owns t' n' q ↔ Owns t' n q ∧ ¬ (q = p ∧ t' = t)
  total : ∀ w : NodeText → LoadMap String → ℕ, (∀ text ts, ts.entries = [] → w text ts = 0) →
    n'.total w + w m.text m.tenants = n.total w + w m.text (m.tenants.erase t)

theorem dropped_nil (hg : Good n) (hleaf : n.isLeafFor t = true) :
    Dropped t [] n n (dropTenant t [] n) := by
  have hno := ((isLeafFor_iff hg).mp hleaf).2
  have hmem : ∀ t', t' ∈ n.tenants.erase t ↔ t' ∈ n.tenants ∧ ¬ (([] : List Char) = [] ∧ t' = t) := by
    intro t'
    rw [AList.mem_erase]
    tauto
  refine ⟨rfl, hmem, ?_, fun _ _ _ => reach_of_children rfl, fun t' q => ?_, fun w _ => ?_⟩
  · refine hg.of_children rfl fun c l hl t' ht' => (hmem t').mpr ⟨(hg.fits hl).sub t' ht', ?_⟩
    rintro ⟨-, rfl⟩
    exact hno c l hl ht'
  · cases q with
    | nil => rw [owns_nil, owns_nil]; exact hmem t'
    | cons d q =>
      exact ⟨fun h => ⟨h, fun h' => by cases h'.1⟩, fun h => h.1⟩
  · exact total_withTenants w _

variable {k' : TenantNode}

/-- What a step does to a node, told by what is left of the child. -/
theorem Dropped.of_child (hk : n.child? c = some k)
    (h : Dropped t p m k k') {o : Option TenantNode} (htext : n'.text = n.text)
    (hten : n'.tenants = n.tenants) (hgood : Good n')
    (hchild : ∀ d, n'.child? d = if d = c then o else n.child? d)
    (howns : ∀ t' q, (∃ l, o = some l ∧ Owns t' l q) ↔ Owns t' k' q)
    (hvia : ∀ t' s, (∃ l, o = some l ∧ Via t' l s) ↔ Via t' k' s)
    (htotal : ∀ w : NodeText → LoadMap String → ℕ, (∀ text ts, ts.entries = [] → w text ts = 0) →
      n'.total w + k.total w = n.total w + k'.total w) :
    Dropped t (c :: p) m n n' := by
  have hvia' : ∀ t' s, t' ≠ t → (Via t' k' s ↔ Via t' k s) := fun t' s hne => by
    have hiff : t' ∈ k'.tenants ↔ t' ∈ k.tenants := by
      rw [h.mem]
      exact ⟨fun h => h.1, fun h => ⟨h, fun h' => hne h'.2⟩⟩
    simp [Via, hiff, h.text, fun r => h.reach t' r hne]
  refine ⟨htext, fun t' => ?_, hgood, fun t' s hne => reach_congr fun d s => ?_, fun t' q => ?_,
    fun w hw => ?_⟩
  · rw [hten]
    exact ⟨fun h => ⟨h, fun h' => by cases h'.1⟩, fun h => h.1⟩
  · rw [hchild]
    by_cases hd : d = c
    · subst hd
      rw [if_pos rfl, hvia, hvia' t' _ hne, hk]
      exact ⟨fun h => ⟨k, rfl, h⟩, fun ⟨_, hl, h⟩ => Option.some.inj hl ▸ h⟩
    · rw [if_neg hd]
  · cases q with
    | nil =>
      rw [owns_nil, owns_nil, hten]
      exact ⟨fun h => ⟨h, fun h' => by cases h'.1⟩, fun h => h.1⟩
    | cons d q =>
      rw [owns_cons, owns_cons, hchild]
      by_cases hd : d = c
      · subst hd
        rw [if_pos rfl, howns, h.owns, hk, cons_inj_right]
        refine and_congr_left' ⟨fun h => ⟨k, rfl, h⟩, fun ⟨_, hl, h⟩ => Option.some.inj hl ▸ h⟩
      · rw [if_neg hd]
        exact ⟨fun h => ⟨h, fun h' => hd (List.cons.inj h'.1).1⟩, fun h => h.1⟩
  · have := h.total w hw
    have := htotal w hw
    omega

theorem Dropped.setChild (hg : Good n) (hk : n.child? c = some k)
    (h : Dropped t p m k k') (hown : ∃ t, t ∈ k'.tenants) :
    Dropped t (c :: p) m n (n.setChild c k') := by
  have hf := hg.fits hk
  have hfits : Fits n c k' := by
    refine ⟨?_, ?_, hown, fun t' ht' => hf.sub t' ((h.mem t').mp ht').1⟩
    · rw [h.text]
      exact hf.head
    · rw [h.text]
      exact hf.count
  refine h.of_child hk rfl rfl (hg.setChild hfits h.good) (fun d => child?_setChild) ?_ ?_
    fun w _ => total_setChild w hk
  · exact fun t' q => ⟨fun ⟨_, hl, h⟩ => Option.some.inj hl ▸ h, fun h => ⟨k', rfl, h⟩⟩
  · exact fun t' s => ⟨fun ⟨_, hl, h⟩ => Option.some.inj hl ▸ h, fun h => ⟨k', rfl, h⟩⟩

theorem Dropped.eraseChild (hg : Good n) (hk : n.child? c = some k)
    (h : Dropped t p m k k') (hch : k'.children = []) (hno : k'.tenants.entries = []) :
    Dropped t (c :: p) m n ((n.setChild c k').eraseChild c) := by
  have hnot : ∀ t', t' ∉ k'.tenants := fun t' ht' => by
    have ht' : t' ∈ k'.tenants.entries.map Sigma.fst := ht'
    rw [hno] at ht'
    cases ht'
  have herase : (n.setChild c k').eraseChild c = n.eraseChild c :=
    congrArg n.withChildren (eraseEntry_setEntry c k' n.children)
  rw [herase]
  refine h.of_child (o := none) hk rfl rfl hg.eraseChild (fun d => child?_eraseChild)
    (fun t' q => ?_) (fun t' s => ?_) fun w hw => ?_
  · constructor
    · rintro ⟨l, hl, -⟩
      cases hl
    · intro h
      cases q with
      | nil => exact absurd (owns_nil.mp h) (hnot t')
      | cons d q =>
        obtain ⟨l, hl, -⟩ := owns_cons.mp h
        rw [child?, hch] at hl
        cases hl
  · constructor
    · rintro ⟨l, hl, -⟩
      cases hl
    · exact fun h => absurd h.1 (hnot t')
  · have hzero : k'.total w = 0 := by
      rw [total_eq, hch, hw _ _ hno]
      rfl
    rw [total_eraseChild w hg.nodup hk, hzero, Nat.add_zero]

/-- **What one step does.** -/
theorem dropTenant_dropped : ∀ {p : List Char} {n : TenantNode}, Good n → n.nodeAt p = some m →
    m.isLeafFor t = true → Dropped t p m n (dropTenant t p n)
  | [], n, hg, hm, hleaf => by
    cases hm
    exact dropped_nil hg hleaf
  | c :: p, n, hg, hm, hleaf => by
    rw [nodeAt] at hm
    obtain ⟨k, hk, hm⟩ := bind_eq_some_iff.mp hm
    have ih := dropTenant_dropped (hg.child hk) hm hleaf
    have hf := hg.fits hk
    rw [dropTenant, hk]
    dsimp only
    split
    · rename_i h
      obtain ⟨rfl, hch, hno⟩ := h
      have hfc : (dropTenant t [] k).text.firstChar = some c := by
        exact hf.head
      rw [hfc]
      exact ih.eraseChild hg hk hch hno
    · rename_i h
      refine ih.setChild hg hk ?_
      by_contra hnone
      have hnone' : ∀ t', t' ∉ (dropTenant t p k).tenants := fun t' ht' => hnone ⟨t', ht'⟩
      obtain ⟨t', ht'⟩ := hf.owned
      have hp : p = [] := by
        by_contra hp
        exact hnone' t' ((ih.mem t').mpr ⟨ht', fun h' => hp h'.1⟩)
      refine h ⟨hp, ih.good.children_eq_nil hnone', ?_⟩
      cases hentries : (dropTenant t p k).tenants.entries with
      | nil => rfl
      | cons e l =>
        refine absurd ?_ (hnone' e.1)
        change e.1 ∈ (dropTenant t p k).tenants.entries.map Sigma.fst
        rw [hentries]
        exact mem_cons_self

/-- A step takes one node from the tenant, and none from the others. -/
theorem Dropped.weigh (h : Dropped t p m n n') (ht : t ∈ m.tenants) (v : NodeText → ℕ) (t' : String) :
    n'.total (fun text ts => if t' ∈ ts then v text else 0) + (if t' = t then v m.text else 0)
      = n.total fun text ts => if t' ∈ ts then v text else 0 := by
  have htotal := h.total (fun text ts => if t' ∈ ts then v text else 0) fun text ts hts => by
    refine if_neg fun ht' => ?_
    have ht' : t' ∈ ts.entries.map Sigma.fst := ht'
    rw [hts] at ht'
    cases ht'
  by_cases heq : t' = t
  · subst heq
    rw [if_pos ht, if_neg fun h' => (AList.mem_erase.mp h').1 rfl] at htotal
    rw [if_pos rfl, htotal, Nat.add_zero]
  · have hiff : t' ∈ m.tenants.erase t ↔ t' ∈ m.tenants := by
      rw [AList.mem_erase]
      exact ⟨fun h => h.2, fun h => ⟨heq, h⟩⟩
    rw [if_congr hiff rfl rfl] at htotal
    rw [if_neg heq]
    omega

/-! ## 3. `remove_tenant` -/

/-- The number of nodes of a tenant. -/
def owned (t : String) : TenantNode → ℕ := total fun _ ts => if t ∈ ts then 1 else 0

theorem le_total (w : NodeText → LoadMap String → ℕ) : ∀ {p : List Char} {n : TenantNode},
    n.nodeAt p = some m → w m.text m.tenants ≤ n.total w
  | [], n, h => by
    cases h
    rw [total_eq]
    exact Nat.le_add_right _ _
  | c :: p, n, h => by
    rw [nodeAt] at h
    obtain ⟨k, hk, h⟩ := bind_eq_some_iff.mp h
    have hle : k.total w ≤ (n.children.map (total w ·.2)).sum :=
      single_le_sum (fun _ _ => Nat.zero_le _) _ (List.mem_map.mpr ⟨(c, k), mem_of_lookup hk, rfl⟩)
    rw [total_eq w n]
    exact (le_total w h).trans (hle.trans (Nat.le_add_left _ _))

theorem owned_pos (h : Owns t n p) : 0 < owned t n := by
  obtain ⟨m, hm, ht⟩ := h
  have hle := le_total (fun _ ts => if t ∈ ts then 1 else 0) hm
  rw [if_pos ht] at hle
  exact hle

/-- The queue holds exactly the leaves of the tenant. -/
structure QueueOf (t : String) (root : TenantNode) (queue : List (List Char)) : Prop where
  nodup : queue.Nodup
  mem : ∀ q, q ∈ queue ↔ LeafAt t root q

theorem parentLeaf_eq_some {root : TenantNode} :
    parentLeaf root t p = some q ↔ (∃ c, p = q ++ [c]) ∧ LeafAt t root q := by
  have hany : (root.nodeAt p.dropLast).any (·.isLeafFor t) = true ↔ LeafAt t root p.dropLast := by
    rw [LeafAt]
    cases root.nodeAt p.dropLast with
    | none => simp
    | some m => simp
  unfold parentLeaf
  rcases eq_nil_or_concat p with rfl | ⟨p', c, rfl⟩
  · simp
  · rw [concat_eq_append, dropLast_concat] at *
    rw [if_neg (by simp)]
    constructor
    · intro h
      split at h
      · rename_i hleaf
        cases h
        exact ⟨⟨c, rfl⟩, hany.mp hleaf⟩
      · cases h
    · rintro ⟨⟨d, hd⟩, hleaf⟩
      obtain ⟨rfl, -⟩ := append_inj' hd rfl
      rw [if_pos (hany.mpr hleaf)]

/-- **A leaf is taken out of the queue, and its parent comes in if it has become one.** -/
theorem QueueOf.step {root : TenantNode} {queue : List (List Char)} (hg : Good root)
    (h : QueueOf t root (p :: queue)) :
    QueueOf t (dropTenant t p root) (queue ++ (parentLeaf (dropTenant t p root) t p).toList) := by
  obtain ⟨hp, hnd⟩ := nodup_cons.mp h.nodup
  have hpleaf : LeafAt t root p := (h.mem p).mp mem_cons_self
  obtain ⟨hpown, hpno⟩ := (leafAt_iff hg).mp hpleaf
  have hd : Dropped t p hpleaf.choose root (dropTenant t p root) :=
    dropTenant_dropped hg hpleaf.choose_spec.1 hpleaf.choose_spec.2
  have hleaf : ∀ q, LeafAt t (dropTenant t p root) q ↔
      (Owns t root q ∧ q ≠ p) ∧ ∀ c, Owns t root (q ++ [c]) → q ++ [c] = p := by
    intro q
    rw [leafAt_iff hd.good, hd.owns]
    refine and_congr (by tauto) (forall_congr' fun c => ?_)
    rw [hd.owns]
    tauto
  have hparent : ∀ q, q ∈ (parentLeaf (dropTenant t p root) t p).toList ↔
      (∃ c, p = q ++ [c]) ∧ LeafAt t (dropTenant t p root) q := by
    intro q
    rw [mem_toList, ← parentLeaf_eq_some]
  refine ⟨?_, fun q => ?_⟩
  · rw [nodup_append]
    refine ⟨hnd, ?_, fun a ha b hb => ?_⟩
    · cases parentLeaf (dropTenant t p root) t p with
      | none => exact nodup_nil
      | some _ => exact nodup_singleton _
    · rintro rfl
      obtain ⟨⟨c, hc⟩, -⟩ := (hparent a).mp hb
      have := ((leafAt_iff hg).mp ((h.mem a).mp (mem_cons_of_mem _ ha))).2 c
      exact this (hc ▸ hpown)
  · rw [mem_append, hparent]
    constructor
    · rintro (hq | ⟨-, hq⟩)
      · obtain ⟨hown, hno⟩ := (leafAt_iff hg).mp ((h.mem q).mp (mem_cons_of_mem _ hq))
        refine (hleaf q).mpr ⟨⟨hown, ?_⟩, fun c hc => absurd hc (hno c)⟩
        rintro rfl
        exact hp hq
      · exact hq
    · intro hq
      obtain ⟨⟨hown, hne⟩, hall⟩ := (hleaf q).mp hq
      by_cases hc : ∃ c, Owns t root (q ++ [c])
      · obtain ⟨c, hc⟩ := hc
        exact .inr ⟨⟨c, (hall c hc).symm⟩, hq⟩
      · have hqleaf : LeafAt t root q := (leafAt_iff hg).mpr ⟨hown, fun c h => hc ⟨c, h⟩⟩
        exact .inl ((mem_cons.mp ((h.mem q).mpr hqleaf)).resolve_left hne)

/-- What the loop of `remove_tenant` does: the tenant owns nothing, and nothing changes for the
others. -/
structure Removed (t : String) (n n' : TenantNode) : Prop where
  text : n'.text = n.text
  good : Good n'
  gone : ∀ q, ¬ Owns t n' q
  reach : ∀ t' s, t' ≠ t → (Reach t' n' s ↔ Reach t' n s)
  used : ∀ t', t' ≠ t → usedSize t' n' = usedSize t' n

theorem removeLoop_removed : ∀ (fuel : ℕ) (root : TenantNode) (queue : List (List Char)),
    Good root → QueueOf t root queue → owned t root ≤ fuel →
    Removed t root (removeLoop t fuel root queue)
  | 0, root, queue, hg, _, hfuel => by
    refine ⟨rfl, hg, fun q hq => ?_, fun _ _ _ => Iff.rfl, fun _ _ => rfl⟩
    have hpos : 0 < owned t root := owned_pos hq
    omega
  | _ + 1, root, [], hg, hqueue, _ => by
    refine ⟨rfl, hg, fun q => not_owns_of_no_leaf hg fun q hq => ?_, fun _ _ _ => Iff.rfl,
      fun _ _ => rfl⟩
    cases (hqueue.mem q).mpr hq
  | fuel + 1, root, p :: queue, hg, hqueue, hfuel => by
    obtain ⟨m, hm, hleaf⟩ := (hqueue.mem p).mp mem_cons_self
    have hd := dropTenant_dropped hg hm hleaf
    have ht : t ∈ m.tenants := ((isLeafFor_iff (hg.nodeAt hm)).mp hleaf).1
    have hcount : owned t (dropTenant t p root) + 1 = owned t root := by
      have := hd.weigh ht (fun _ => 1) t
      rw [if_pos rfl] at this
      exact this
    have ih := removeLoop_removed fuel (dropTenant t p root) _ hd.good (hqueue.step hg) (by omega)
    refine ⟨ih.text.trans hd.text, ih.good, ih.gone,
      fun t' s hne => (ih.reach t' s hne).trans (hd.reach t' s hne), fun t' hne => ?_⟩
    have := hd.weigh ht NodeText.charCount t'
    rw [if_neg hne] at this
    exact (ih.used t' hne).trans this

/-! ### The leaves at the start -/

theorem pathsOf_eq : ∀ l : List (Char × TenantNode),
    pathsOf l = l.flatMap fun e => e.2.paths.map (e.1 :: ·)
  | [] => rfl
  | (c, m) :: l => by rw [pathsOf, pathsOf_eq l, flatMap_cons]

theorem paths_eq (n : TenantNode) :
    n.paths = [] :: n.children.flatMap fun e => e.2.paths.map (e.1 :: ·) := by
  cases n with
  | node => rw [paths, pathsOf_eq]; rfl

theorem mem_paths (hg : Good n) : ∀ q, q ∈ n.paths ↔ ∃ m, n.nodeAt q = some m := by
  induction hg with
  | @mk n hnd hfits hgood ih =>
    intro q
    rw [paths_eq, mem_cons]
    cases q with
    | nil => exact ⟨fun _ => ⟨n, rfl⟩, fun _ => .inl rfl⟩
    | cons c q =>
      rw [nodeAt, mem_flatMap]
      constructor
      · rintro (h | ⟨e, he, h⟩)
        · cases h
        · obtain ⟨q', hq', heq⟩ := List.mem_map.mp h
          obtain ⟨rfl, rfl⟩ := List.cons.inj heq
          have hm : n.child? e.1 = some e.2 := lookup_of_mem hnd he
          rw [hm]
          exact (ih hm q').mp hq'
      · rintro ⟨l, hl⟩
        obtain ⟨m, hm, hl⟩ := bind_eq_some_iff.mp hl
        refine .inr ⟨(c, m), mem_of_lookup hm, List.mem_map.mpr ⟨q, ?_, rfl⟩⟩
        exact (ih hm q).mpr ⟨l, hl⟩

theorem nodup_paths (hg : Good n) : n.paths.Nodup := by
  induction hg with
  | @mk n hnd hfits hgood ih =>
    rw [paths_eq, nodup_cons, nodup_flatMap]
    refine ⟨fun h => ?_, fun e he => ?_, ?_⟩
    · obtain ⟨e, -, h⟩ := mem_flatMap.mp h
      obtain ⟨q, -, h⟩ := List.mem_map.mp h
      cases h
    · exact (ih (lookup_of_mem hnd he)).map fun a b h => (List.cons.inj h).2
    · refine (pairwise_map.mp hnd).imp fun {a b} hne q ha hb => ?_
      obtain ⟨q₁, -, rfl⟩ := List.mem_map.mp ha
      obtain ⟨q₂, -, h⟩ := List.mem_map.mp hb
      exact hne (List.cons.inj h).1.symm

mutual

theorem owned_le_length_paths (t : String) : ∀ n : TenantNode, owned t n ≤ n.paths.length
  | node text ts lastTenant children => by
    have ih := ownedOf_le_length_pathsOf t children
    rw [owned, total, paths, length_cons]
    split <;> omega

theorem ownedOf_le_length_pathsOf (t : String) : ∀ l : List (Char × TenantNode),
    totalOf (fun _ ts => if t ∈ ts then 1 else 0) l ≤ (pathsOf l).length
  | [] => Nat.le_refl _
  | (c, m) :: l => by
    have ih₁ := owned_le_length_paths t m
    have ih₂ := ownedOf_le_length_pathsOf t l
    rw [owned] at ih₁
    rw [totalOf, pathsOf, length_append, length_map]
    omega

end

theorem queueOf_leavesFor (env : TreeEnv) (hg : Good n) : QueueOf t n (leavesFor env n t) := by
  have hperm := env.perm_nodeOrder n.paths
  refine ⟨(hperm.nodup_iff.mpr (nodup_paths hg)).filter _, fun q => ?_⟩
  rw [leavesFor, mem_filter, hperm.mem_iff, mem_paths hg]
  constructor
  · rintro ⟨⟨m, hm⟩, h⟩
    rw [hm] at h
    exact ⟨m, hm, h⟩
  · rintro ⟨m, hm, h⟩
    refine ⟨⟨m, hm⟩, ?_⟩
    rw [hm]
    exact h

variable {T : TenantTree}

theorem removeTenant_removed (env : TreeEnv) (hT : WellFormed T) (t : String) :
    Removed t T.root (T.removeTenant env t).root :=
  removeLoop_removed _ _ _ hT.good (queueOf_leavesFor env hT.good) (owned_le_length_paths t T.root)

theorem WellFormed.removeTenant (env : TreeEnv) (hT : WellFormed T) (t : String) :
    WellFormed (T.removeTenant env t) := by
  have h := removeTenant_removed env hT t
  refine ⟨h.text.trans hT.root, h.good, fun t' => ?_⟩
  change ((T.tenantCharCount.erase t).lookup t').getD 0 = _
  by_cases ht : t' = t
  · subst ht
    rw [AList.lookup_erase, usedSize_eq_zero h.good h.gone]
    rfl
  · rw [AList.lookup_erase_ne ht, h.used t' ht]
    exact hT.used t'

/-- After `remove_tenant` the tenant can read nothing, and nothing changes for the others. -/
theorem reach_removeTenant (env : TreeEnv) (hT : WellFormed T) :
    Reach t' (T.removeTenant env t).root s ↔ s = [] ∨ t' ≠ t ∧ Reach t' T.root s := by
  have h := removeTenant_removed env hT t
  by_cases ht : t' = t
  · subst ht
    refine ⟨fun hr => .inl (eq_nil_of_not_owns h.gone hr), ?_⟩
    rintro (rfl | ⟨hne, -⟩)
    · exact .nil _
    · exact absurd rfl hne
  · rw [h.reach t' s ht]
    refine ⟨fun hr => .inr ⟨ht, hr⟩, ?_⟩
    rintro (rfl | ⟨-, hr⟩)
    · exact .nil _
    · exact hr

/-! ## 4. `evict_tenant_by_size` -/

/-- One eviction keeps the invariant: the counter gives back what the tenant loses. -/
theorem WellFormed.evictFrom (hT : WellFormed T) (hm : T.root.nodeAt p = some m)
    (hleaf : m.isLeafFor t = true) : WellFormed (T.evictFrom t p m.text.charCount) := by
  have hd := dropTenant_dropped hT.good hm hleaf
  have ht : t ∈ m.tenants := ((isLeafFor_iff (hT.good.nodeAt hm)).mp hleaf).1
  refine ⟨hd.text.trans hT.root, hd.good, fun t' => ?_⟩
  have hused : usedSize t' (dropTenant t p T.root) + (if t' = t then m.text.charCount else 0)
      = usedSize t' T.root := hd.weigh ht NodeText.charCount t'
  have hcount := hT.used t'
  change count (T.evictFrom t p m.text.charCount).tenantCharCount t' =
    usedSize t' (dropTenant t p T.root)
  simp only [TenantTree.evictFrom]
  by_cases heq : t' = t
  · subst heq
    rw [if_pos rfl] at hused
    rw [count] at hcount ⊢
    cases hl : T.tenantCharCount.lookup t' with
    | none =>
      rw [hl, getD_none] at hcount
      rw [hl, getD_none]
      omega
    | some a =>
      rw [hl, getD_some] at hcount
      rw [AList.lookup_insert, getD_some]
      omega
  · rw [if_neg heq, Nat.add_zero] at hused
    rw [hused, ← hcount]
    cases T.tenantCharCount.lookup t with
    | none => rfl
    | some a => exact congrArg (Option.getD · 0) (AList.lookup_insert_ne heq)

theorem mem_tenantCharCount_evictFrom {k : ℕ} :
    t' ∈ (T.evictFrom t p k).tenantCharCount ↔ t' ∈ T.tenantCharCount := by
  simp only [evictFrom]
  cases hl : T.tenantCharCount.lookup t with
  | none => rfl
  | some a =>
    exact mem_insert_self_iff (AList.lookup_isSome.mp (by rw [hl]; rfl)) t'

theorem evictLoop_induction {P : TenantTree → Prop}
    (hstep : ∀ (T : TenantTree) (t : String) (p : List Char) (m : TenantNode), P T →
      T.root.nodeAt p = some m → m.isLeafFor t = true → P (T.evictFrom t p m.text.charCount))
    (env : TreeEnv) (maxSize : ℕ) (T : TenantTree) (pq : List EvictionEntry) (hT : P T) :
    P (evictLoop env maxSize T pq) := by
  fun_induction evictLoop env maxSize T pq with
  | case1 => exact hT
  | case2 _ _ _ _ _ _ ih => exact ih hT
  | case3 _ _ _ _ _ _ _ ih => exact ih hT
  | case4 T pq e rest _ _ m hm hleaf T' ih => exact ih (hstep T e.tenant e.node m hT hm hleaf)
  | case5 _ _ _ _ _ _ _ _ _ ih => exact ih hT

end TenantTree

end Sglang
