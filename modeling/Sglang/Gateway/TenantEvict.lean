/-
# How far the eviction of tenants goes

The tenants share one heap, whose entries go stale: a node may have lost the tenant, or be gone, or a
child may have the tenant again when it comes up.  What the loop keeps is that every leaf of a tenant that
is not passed over has an entry (`Pending`), so that such a tenant owns nothing when the heap is empty,
and each eviction takes one leaf from a tenant above the bound (`Evictions`).

A tenant without a count is not passed over.  There is one: the name that a lookup in a tree without
tenants returns, which every eighth epoch is entered at the root as if it were an owner, without a count
(`placeholder_of_uncounted`).  The loop takes the root away from it, whatever the bound.
-/
import Sglang.Gateway.TenantHistory

namespace Sglang

namespace TenantTree

open CharText Lib TenantNode List Option

variable {T T' : TenantTree} {n n' m : TenantNode} {t t' : String} {p q : List Char} {c : Char}
  {maxSize : ℕ} {pq rest : List EvictionEntry} {e : EvictionEntry}

/-! ## 1. What an eviction leaves where it was -/

theorem Owns.parent (hg : Good n) (h : Owns t n (p ++ [c])) : Owns t n p := by
  obtain ⟨k, hk, ht⟩ := h
  rw [nodeAt_append] at hk
  obtain ⟨m, hm, hk⟩ := bind_eq_some_iff.mp hk
  obtain ⟨k', hk', hk⟩ := bind_eq_some_iff.mp hk
  cases hk
  exact ⟨m, hm, ((hg.nodeAt hm).fits hk').sub t ht⟩

theorem Owns.root (hg : Good n) (h : Owns t n p) : t ∈ n.tenants := by
  induction p using List.reverseRecOn with
  | nil => exact owns_nil.mp h
  | append_singleton p c ih => exact ih (h.parent hg)

/-- The nodes that are left have the text they had. -/
theorem nodeAt_dropTenant : ∀ {p q : List Char} {n m' : TenantNode},
    (dropTenant t p n).nodeAt q = some m' → ∃ m, n.nodeAt q = some m ∧ m'.text = m.text
  | [], [], n, m', h => by
    cases h
    exact ⟨n, rfl, rfl⟩
  | [], d :: q, n, m', h => ⟨m', h, rfl⟩
  | c :: p, q, n, m', h => by
    rw [dropTenant] at h
    cases hk : n.child? c with
    | none =>
      rw [hk] at h
      exact ⟨m', h, rfl⟩
    | some k =>
      rw [hk] at h
      dsimp only at h
      cases q with
      | nil =>
        refine ⟨n, rfl, ?_⟩
        rw [nodeAt] at h
        rw [← Option.some.inj h]
        split
        · split <;> rfl
        · rfl
      | cons d q =>
        rw [nodeAt] at h
        obtain ⟨k', hk', hm'⟩ := bind_eq_some_iff.mp h
        have hset : (n.setChild c (dropTenant t p k)).child? d = some k' := by
          split at hk'
          · split at hk'
            · rw [child?_eraseChild] at hk'
              split at hk'
              · cases hk'
              · exact hk'
            · exact hk'
          · exact hk'
        rw [child?_setChild] at hset
        split at hset
        · rename_i hd
          cases hset
          obtain ⟨m, hm, htext⟩ := nodeAt_dropTenant hm'
          refine ⟨m, ?_, htext⟩
          rw [nodeAt, hd, hk]
          exact hm
        · refine ⟨m', ?_, rfl⟩
          rw [nodeAt, hset]
          exact hm'

/-- The other tenants keep their nodes. -/
theorem Dropped.keeps (h : Dropped t p m n (dropTenant t p n)) (ht : t' ≠ t) {k : TenantNode}
    (hk : n.nodeAt q = some k) (htk : t' ∈ k.tenants) :
    ∃ k', (dropTenant t p n).nodeAt q = some k' ∧ k'.text = k.text ∧ t' ∈ k'.tenants := by
  obtain ⟨k', hk', htk'⟩ := (h.owns t' q).mpr ⟨⟨k, hk, htk⟩, fun h' => ht h'.2⟩
  obtain ⟨k₀, hk₀, htext⟩ := nodeAt_dropTenant hk'
  rw [hk] at hk₀
  cases hk₀
  exact ⟨k', hk', htext, htk'⟩

/-- The leaves after a step: the leaves of before, and perhaps the parent of the one that is gone. -/
theorem Dropped.leafAt (hg : Good n) (h : Dropped t p m n n') (hleaf : LeafAt t' n' q) :
    LeafAt t' n q ∧ ¬ (q = p ∧ t' = t) ∨ t' = t ∧ ∃ c, p = q ++ [c] := by
  rw [leafAt_iff h.good, h.owns] at hleaf
  obtain ⟨⟨hown, hne⟩, hno⟩ := hleaf
  by_cases hc : ∃ c, Owns t' n (q ++ [c])
  · obtain ⟨c, hc⟩ := hc
    have hgone := hno c
    rw [h.owns] at hgone
    have heq : q ++ [c] = p ∧ t' = t := by
      by_contra hcon
      exact hgone ⟨hc, hcon⟩
    exact .inr ⟨heq.2, c, heq.1.symm⟩
  · exact .inl ⟨(leafAt_iff hg).mpr ⟨hown, fun c h => hc ⟨c, h⟩⟩, hne⟩

/-! ## 2. The heap -/

/-- The loop does not pass over the tenant. -/
def Due (maxSize : ℕ) (T : TenantTree) (t : String) : Prop :=
  (T.tenantCharCount.lookup t).any (· ≤ maxSize) = false

/-- Every leaf of a tenant that is not passed over has an entry. -/
def Pending (maxSize : ℕ) (T : TenantTree) (pq : List EvictionEntry) : Prop :=
  ∀ t q, Due maxSize T t → LeafAt t T.root q → ∃ e ∈ pq, e.tenant = t ∧ e.node = q

theorem due_of_uncounted (h : t ∉ T.tenantCharCount) : Due maxSize T t := by
  rw [Due, AList.lookup_eq_none.mpr h]
  rfl

/-- A tenant that is not passed over has more than the bound, if it has a count. -/
theorem Due.lt_usedSize (hT : WellFormed T) (h : Due maxSize T t) (ht : t ∈ T.tenantCharCount) :
    maxSize < usedSize t T.root := by
  obtain ⟨a, ha⟩ := isSome_iff_exists.mp (AList.lookup_isSome.mpr ht)
  have hused := hT.used t
  rw [count, ha, getD_some] at hused
  rw [Due, ha, any_some, decide_eq_false_iff_not] at h
  omega

theorem due_of_lt_usedSize (hT : WellFormed T) (h : maxSize < usedSize t T.root) :
    Due maxSize T t := by
  have hused := hT.used t
  rw [count] at hused
  rw [Due]
  cases ha : T.tenantCharCount.lookup t with
  | none => rfl
  | some a =>
    rw [ha, getD_some] at hused
    rw [any_some, decide_eq_false_iff_not]
    omega

theorem Due.of_evictFrom {k : ℕ} (h : Due maxSize (T.evictFrom t p k) t') : Due maxSize T t' := by
  rw [Due, evictFrom] at h
  cases ha : T.tenantCharCount.lookup t with
  | none =>
    rw [ha] at h
    exact h
  | some a =>
    rw [ha] at h
    by_cases heq : t' = t
    · subst heq
      rw [AList.lookup_insert, any_some, decide_eq_false_iff_not] at h
      rw [Due, ha, any_some, decide_eq_false_iff_not]
      omega
    · rw [AList.lookup_insert_ne heq] at h
      exact h

/-- At the start every leaf has an entry. -/
theorem pending_evictionEntries (env : TreeEnv) (hT : WellFormed T) :
    Pending maxSize T (evictionEntries env T.root) := by
  rintro t q - ⟨m, hm, hleaf⟩
  have ht := ((isLeafFor_iff (hT.good.nodeAt hm)).mp hleaf).1
  obtain ⟨timestamp, htime⟩ := isSome_iff_exists.mp (AList.lookup_isSome.mpr ht)
  refine ⟨⟨timestamp, t, q⟩, mem_flatMap.mpr ⟨q, ?_, ?_⟩, rfl, rfl⟩
  · exact (env.perm_nodeOrder _).mem_iff.mpr ((mem_paths hT.good q).mpr ⟨m, hm⟩)
  · rw [hm]
    refine mem_filterMap.mpr ⟨t, mem_filter.mpr ⟨AList.mem_keys.mp ht, hleaf⟩, ?_⟩
    rw [htime]
    rfl

/-- An entry that is dropped is not missed if its tenant is passed over or its node no leaf. -/
theorem Pending.drop (h : Pending maxSize T pq) (hpq : pq.Perm (e :: rest))
    (he : Due maxSize T e.tenant → ¬ LeafAt e.tenant T.root e.node) : Pending maxSize T rest := by
  intro t q ht hq
  obtain ⟨e', he', rfl, rfl⟩ := h t q ht hq
  refine ⟨e', (mem_cons.mp (hpq.subset he')).resolve_left ?_, rfl, rfl⟩
  rintro rfl
  exact he ht hq

theorem exists_mem_parentEntry {root : TenantNode} (h : parentLeaf root t p = some q) :
    ∃ e ∈ parentEntry root t p, e.tenant = t ∧ e.node = q := by
  obtain ⟨m, hm, hleaf⟩ := (parentLeaf_eq_some.mp h).2
  rw [isLeafFor, Bool.and_eq_true, decide_eq_true_eq] at hleaf
  obtain ⟨timestamp, htime⟩ := isSome_iff_exists.mp (AList.lookup_isSome.mpr hleaf.1)
  refine ⟨⟨timestamp, t, q⟩, ?_, rfl, rfl⟩
  rw [parentEntry, h]
  dsimp only
  rw [hm, bind_some, htime]
  exact mem_singleton_self _

/-- **An eviction takes one leaf from the heap**, and its parent comes in if it has become one. -/
theorem Pending.evict (hT : WellFormed T) (h : Pending maxSize T pq) (hpq : pq.Perm (e :: rest))
    (hm : T.root.nodeAt e.node = some m) (hleaf : m.isLeafFor e.tenant = true) :
    Pending maxSize (T.evictFrom e.tenant e.node m.text.charCount)
      (parentEntry (T.evictFrom e.tenant e.node m.text.charCount).root e.tenant e.node ++ rest) := by
  intro t q ht hq
  have hd : Dropped e.tenant e.node m T.root (dropTenant e.tenant e.node T.root) :=
    dropTenant_dropped hT.good hm hleaf
  rcases hd.leafAt hT.good hq with ⟨hq', hne⟩ | ⟨rfl, c, hc⟩
  · obtain ⟨e', he', rfl, rfl⟩ := h t q ht.of_evictFrom hq'
    refine ⟨e', mem_append_right _ ((mem_cons.mp (hpq.subset he')).resolve_left ?_), rfl, rfl⟩
    rintro rfl
    exact hne ⟨rfl, rfl⟩
  · obtain ⟨e', he', heq⟩ := exists_mem_parentEntry (parentLeaf_eq_some.mpr ⟨⟨c, hc⟩, hq⟩)
    exact ⟨e', mem_append_left _ he', heq⟩

/-! ## 3. The loop -/

/-- Evictions one after the other, each of an allowed tenant and from a leaf of its part of the tree. -/
inductive Evictions (allowed : TenantTree → String → Prop) : TenantTree → TenantTree → Prop
  | refl (T : TenantTree) : Evictions allowed T T
  | step {T T' : TenantTree} {t : String} {p : List Char} {m : TenantNode}
      (hm : T.root.nodeAt p = some m) (hleaf : m.isLeafFor t = true) (ht : allowed T t)
      (h : Evictions allowed (T.evictFrom t p m.text.charCount) T') : Evictions allowed T T'

/-- **When the heap is empty, no tenant is left that should not have been passed over.** -/
theorem evictLoop_spec (env : TreeEnv) (maxSize : ℕ) (T : TenantTree) (pq : List EvictionEntry)
    (hT : WellFormed T) (hpending : Pending maxSize T pq) :
    WellFormed (evictLoop env maxSize T pq) ∧
    (∀ t, Due maxSize (evictLoop env maxSize T pq) t → ∀ q, ¬ Owns t (evictLoop env maxSize T pq).root q) ∧
    Evictions (Due maxSize) T (evictLoop env maxSize T pq) := by
  fun_induction evictLoop env maxSize T pq with
  | case1 T pq hempty =>
    refine ⟨hT, fun t ht q => not_owns_of_no_leaf hT.good fun q hq => ?_, .refl T⟩
    obtain ⟨e, he, -⟩ := hpending t q ht hq
    have hnil := (env.perm_heapOrder pq).mem_iff.mpr he
    rw [hempty] at hnil
    cases hnil
  | case2 T pq e rest hheap hover ih =>
    have hpq : pq.Perm (e :: rest) := hheap ▸ (env.perm_heapOrder pq).symm
    exact ih hT (hpending.drop hpq fun hdue => absurd (hdue.symm.trans hover) Bool.false_ne_true)
  | case3 T pq e rest hheap _ hnone ih =>
    have hpq : pq.Perm (e :: rest) := hheap ▸ (env.perm_heapOrder pq).symm
    refine ih hT (hpending.drop hpq ?_)
    rintro - ⟨m, hm, -⟩
    rw [hnone] at hm
    cases hm
  | case4 T pq e rest hheap hdue m hm hleaf T₁ ih =>
    have hpq : pq.Perm (e :: rest) := hheap ▸ (env.perm_heapOrder pq).symm
    obtain ⟨hT', hgone, hev⟩ := ih (hT.evictFrom hm hleaf) (hpending.evict hT hpq hm hleaf)
    exact ⟨hT', hgone, .step hm hleaf (Bool.eq_false_iff.mpr hdue) hev⟩
  | case5 T pq e rest hheap _ m hm hleaf ih =>
    have hpq : pq.Perm (e :: rest) := hheap ▸ (env.perm_heapOrder pq).symm
    refine ih hT (hpending.drop hpq ?_)
    rintro - ⟨m', hm', hleaf'⟩
    rw [hm] at hm'
    cases hm'
    exact hleaf hleaf'

theorem usedSize_evictFrom_le (hT : WellFormed T) (hm : T.root.nodeAt p = some m)
    (hleaf : m.isLeafFor t = true) (t' : String) :
    usedSize t' (T.evictFrom t p m.text.charCount).root ≤ usedSize t' T.root := by
  have ht := ((isLeafFor_iff (hT.good.nodeAt hm)).mp hleaf).1
  have := (dropTenant_dropped hT.good hm hleaf).weigh ht NodeText.charCount t'
  change usedSize t' (dropTenant t p T.root) + _ = usedSize t' T.root at this
  exact (Nat.le_add_right _ _).trans_eq this

/-- **A tenant within the bound keeps its nodes**, when tenants are only evicted above it. -/
theorem Evictions.keeps (h : Evictions (fun T t => maxSize < usedSize t T.root) T T')
    (hT : WellFormed T) (ht : usedSize t T.root ≤ maxSize) {k : TenantNode}
    (hk : T.root.nodeAt q = some k) (htk : t ∈ k.tenants) :
    ∃ k', T'.root.nodeAt q = some k' ∧ k'.text = k.text ∧ t ∈ k'.tenants := by
  induction h generalizing k with
  | refl T => exact ⟨k, hk, rfl, htk⟩
  | @step T T' t₁ p m hm hleaf hover _ ih =>
    have hne : t ≠ t₁ := by
      rintro rfl
      omega
    obtain ⟨k₁, hk₁, htext, htk₁⟩ := (dropTenant_dropped hT.good hm hleaf).keeps hne hk htk
    obtain ⟨k', hk', htext', htk'⟩ := ih (hT.evictFrom hm hleaf)
      ((usedSize_evictFrom_le hT hm hleaf t).trans ht) hk₁ htk₁
    exact ⟨k', hk', htext'.trans htext, htk'⟩

/-- When every owner of the root has a count, only tenants above the bound are evicted. -/
theorem Evictions.above (h : Evictions (Due maxSize) T T') (hT : WellFormed T)
    (hcounted : ∀ t ∈ T.root.tenants, t ∈ T.tenantCharCount) :
    Evictions (fun T t => maxSize < usedSize t T.root) T T' := by
  induction h with
  | refl T => exact .refl T
  | @step T T' t p m hm hleaf hdue _ ih =>
    have hd := dropTenant_dropped hT.good hm hleaf
    have hown : Owns t T.root p := ⟨m, hm, ((isLeafFor_iff (hT.good.nodeAt hm)).mp hleaf).1⟩
    refine .step hm hleaf (hdue.lt_usedSize hT (hcounted t (hown.root hT.good)))
      (ih (hT.evictFrom hm hleaf) fun t' ht' => ?_)
    exact mem_tenantCharCount_evictFrom.mpr (hcounted t' ((hd.mem t').mp ht').1)

/-! ## 4. The name that stands for no tenant -/

theorem chooseTenant_of_no_tenant (env : TreeEnv) (hno : ¬ ∃ t, t ∈ n.tenants) :
    chooseTenant env n = "empty" := by
  have hentries : n.tenants.entries = [] := by
    refine eq_nil_iff_forall_not_mem.mpr fun e he => hno ⟨e.1, ?_⟩
    exact List.mem_map_of_mem (f := Sigma.fst) he
  have hfirst : firstTenant env n.tenants = "empty" := by
    have hnil : env.tenantOrder [] = [] := (env.perm_tenantOrder []).eq_nil
    rw [firstTenant, hentries, hnil]
    rfl
  unfold chooseTenant
  split
  · split
    · rename_i ht
      exact absurd ⟨_, ht⟩ hno
    · exact hfirst
  · exact hfirst

theorem mem_root_prefixMatchWithCounts (env : TreeEnv) (hT : WellFormed T) (x : List Char)
    (h : t ∈ (T.prefixMatchWithCounts env x).1.root.tenants) : t ∈ T.root.tenants ∨ t = "empty" := by
  by_cases hown : ∃ t, t ∈ T.root.tenants
  · obtain ⟨hkept, -⟩ := matchLoop_spec env (x.length + 1) x T.root (Nat.lt_succ_self _) hT.good hown
    exact .inl ((hkept.mem t).mp h)
  · rw [prefixMatchWithCounts, matchLoop_of_no_tenant env hT.good hown] at h
    rw [touchMatched, tenants_node, chooseTenant_of_no_tenant env hown] at h
    split at h
    · exact ((AList.mem_insert _).mp h).symm
    · exact .inl h

theorem mem_tenants_dropTenant (h : t' ∈ (dropTenant t p n).tenants) : t' ∈ n.tenants := by
  cases p with
  | nil => exact (AList.mem_erase.mp h).2
  | cons c p =>
    rw [dropTenant] at h
    split at h
    · exact h
    · dsimp only at h
      split at h
      · split at h <;> exact h
      · exact h

theorem mem_tenants_removeLoop : ∀ (fuel : ℕ) (root : TenantNode) (queue : List (List Char)),
    t' ∈ (removeLoop t fuel root queue).tenants → t' ∈ root.tenants
  | 0, _, _, h => h
  | _ + 1, _, [], h => h
  | fuel + 1, _, _ :: _, h => mem_tenants_dropTenant (mem_tenants_removeLoop fuel _ _ h)

/-- **An owner of the root without a count is the placeholder.** -/
theorem placeholder_of_uncounted (ops : List Op) :
    ∀ t ∈ (run ops).root.tenants, t ∈ (run ops).tenantCharCount ∨ t = "empty" := by
  induction ops using List.reverseRecOn with
  | nil => exact fun t ht => absurd ht (AList.notMem_empty t)
  | append_singleton ops op ih =>
    have hT := wellFormed_run ops
    rw [run_append]
    intro t ht
    cases op with
    | insert env x t' =>
      rw [TenantTree.step, (insert_inserted env hT x t').mem, tenants_withTenants, mem_orInsertZero] at ht
      rw [TenantTree.step, mem_tenantCharCount_insert env hT]
      rcases ht with rfl | ht
      · exact .inl (.inl rfl)
      · exact (ih t ht).imp_left .inr
    | prefixMatchWithCounts env x =>
      exact (mem_root_prefixMatchWithCounts env hT x ht).elim (ih t) .inr
    | prefixMatchTenant env x t' =>
      obtain ⟨hkept, -⟩ :=
        matchTenantLoop_spec env t' (x.length + 1) x (run ops).root (Nat.lt_succ_self _) hT.good
      exact ih t ((hkept.mem t).mp ht)
    | evictTenantBySize env maxSize =>
      refine evictLoop_induction
        (P := fun T => ∀ t ∈ T.root.tenants, t ∈ T.tenantCharCount ∨ t = "empty")
        (fun T t₁ p m hP _ _ t₂ ht₂ => ?_) env maxSize (run ops) _ ih t ht
      exact (hP t₂ (mem_tenants_dropTenant ht₂)).imp_left mem_tenantCharCount_evictFrom.mpr
    | removeTenant env t' =>
      have hne : t ≠ t' := by
        rintro rfl
        exact (removeTenant_removed env hT t).gone [] (owns_nil.mpr ht)
      refine (ih t (mem_tenants_removeLoop _ _ _ ht)).imp_left fun hcount => ?_
      exact AList.mem_erase.mpr ⟨hne, hcount⟩

/-! ## 5. The bound -/

/-- An eviction to a bound, and no further: no tenant is left with more, the tenants within the bound keep
their nodes, nobody keeps a node without its parent, and every step takes a leaf from a tenant that is above
the bound. -/
structure EvictsToBound (maxSize : ℕ) (T T' : TenantTree) : Prop where
  counted : ∀ t, count T'.tenantCharCount t = usedSize t T'.root
  bounded : ∀ t, usedSize t T'.root ≤ maxSize
  keeps : ∀ t, usedSize t T.root ≤ maxSize → ∀ q k, T.root.nodeAt q = some k → t ∈ k.tenants →
    ∃ k', T'.root.nodeAt q = some k' ∧ k'.text = k.text ∧ t ∈ k'.tenants
  closed : ∀ t q c, Owns t T'.root (q ++ [c]) → Owns t T'.root q
  leaves : Evictions (fun T t => maxSize < usedSize t T.root) T T'

theorem not_owns_of_uncounted (hT : WellFormed T) (env : TreeEnv) (maxSize : ℕ)
    (ht : t ∉ T.tenantCharCount) (q : List Char) : ¬ Owns t (T.evictTenantBySize env maxSize).root q := by
  obtain ⟨-, hgone, -⟩ := evictLoop_spec env maxSize T _ hT (pending_evictionEntries env hT)
  refine hgone t (due_of_uncounted ?_) q
  exact evictLoop_induction (P := fun T => t ∉ T.tenantCharCount)
    (fun _ _ _ _ h _ _ h' => h (mem_tenantCharCount_evictFrom.mp h')) env maxSize T _ ht

/-- **Eviction reaches its bound and goes no further** exactly when the placeholder is not an owner of the
root without a count. -/
theorem evictTenantBySize_iff (ops : List Op) (env : TreeEnv) (maxSize : ℕ) :
    EvictsToBound maxSize (run ops) ((run ops).evictTenantBySize env maxSize) ↔
      ("empty" ∈ (run ops).root.tenants → "empty" ∈ (run ops).tenantCharCount) := by
  have hT := wellFormed_run ops
  obtain ⟨hT', hgone, hev⟩ := evictLoop_spec env maxSize (run ops) _ hT (pending_evictionEntries env hT)
  constructor
  · intro h hroot
    by_contra hcount
    have hzero : usedSize "empty" (run ops).root = 0 := by
      rw [← hT.used, count, AList.lookup_eq_none.mpr hcount]
      rfl
    obtain ⟨k', hk', -, ht'⟩ := h.keeps "empty" (by omega) [] _ rfl hroot
    exact not_owns_of_uncounted hT env maxSize hcount [] ⟨k', hk', ht'⟩
  · intro hempty
    have hcounted : ∀ t ∈ (run ops).root.tenants, t ∈ (run ops).tenantCharCount := by
      intro t ht
      rcases placeholder_of_uncounted ops t ht with h | rfl
      · exact h
      · exact hempty ht
    have habove := hev.above hT hcounted
    refine ⟨hT'.used, fun t => ?_, fun t ht q k hk htk => habove.keeps hT ht hk htk,
      fun t q c h => h.parent hT'.good, habove⟩
    by_contra hover
    have hdue := due_of_lt_usedSize hT' (Nat.lt_of_not_le hover)
    have hzero := usedSize_eq_zero hT'.good (hgone t hdue)
    exact hover (hzero.trans_le (Nat.zero_le _))

/-- A lookup in a new tree, at epoch 0. -/
def placeholderHistory : List Op := [.prefixMatchWithCounts (inOrder 0) ['x']]

/-- The lookup makes the placeholder an owner of the root, and the eviction takes the root from it, though
it has no character at all. -/
theorem placeholder_evicted : ¬ ∀ (ops : List Op) (env : TreeEnv) (maxSize : ℕ),
    EvictsToBound maxSize (run ops) ((run ops).evictTenantBySize env maxSize) := by
  intro h
  have hroot : "empty" ∈ (run placeholderHistory).root.tenants := by decide +kernel
  obtain ⟨k', hk', -, ht'⟩ := (h placeholderHistory (inOrder 1) 10).keeps "empty" (by decide +kernel) []
    _ rfl hroot
  exact not_owns_of_uncounted (wellFormed_run placeholderHistory) (inOrder 1) 10 (by decide +kernel) []
    ⟨k', hk', ht'⟩

end TenantTree

end Sglang
