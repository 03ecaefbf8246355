/-
# Histories of the multi-tenant tree

Over every history of calls the tree keeps its invariant.  Without evictions, a tenant can read
exactly the prefixes of the texts inserted for it since it was last removed, which tells what the two
lookups return.
-/
import Sglang.Gateway.TenantInsert
import Sglang.Gateway.TenantQuery
import Sglang.Gateway.TenantRemove

namespace Sglang

namespace TenantTree

open CharText Lib TenantNode List

variable {T : TenantTree} {t : String}

theorem run_append (ops : List Op) (op : Op) : run (ops ++ [op]) = (run ops).step op :=
  foldl_concat ..

theorem texts_append (ops : List Op) (op : Op) : texts (ops ++ [op]) = record (texts ops) op :=
  foldl_concat ..

theorem record_insert (X : String → List (List Char)) (env : TreeEnv) (x : List Char)
    (t' t : String) : record X (.insert env x t') t = if t = t' then x :: X t else X t := rfl

theorem record_removeTenant (X : String → List (List Char)) (env : TreeEnv) (t' t : String) :
    record X (.removeTenant env t') t = if t = t' then [] else X t := rfl

/-! ## 1. The invariant -/

theorem WellFormed.step (hT : WellFormed T) (op : Op) : WellFormed (T.step op) := by
  cases op with
  | insert env x t => exact hT.insert env x t
  | prefixMatchWithCounts env x => exact (prefixMatchWithCounts_keeps env hT x).1
  | prefixMatchTenant env x t => exact (prefixMatchTenant_keeps env hT x t).1
  | evictTenantBySize env maxSize =>
    exact evictLoop_induction (fun _ _ _ _ hT hm hleaf => hT.evictFrom hm hleaf) env maxSize T _ hT
  | removeTenant env t => exact hT.removeTenant env t

/-- **Every history keeps the invariant.** -/
theorem wellFormed_run (ops : List Op) : WellFormed (run ops) := by
  induction ops using List.reverseRecOn with
  | nil => exact wellFormed_new
  | append_singleton ops op ih =>
    rw [run_append]
    exact ih.step op

theorem mem_tenantCharCount_step (hT : WellFormed T) (h : t ∈ T.tenantCharCount) {op : Op}
    (hop : ∀ env, op ≠ .removeTenant env t) : t ∈ (T.step op).tenantCharCount := by
  cases op with
  | insert env x t' => exact (mem_tenantCharCount_insert env hT).mpr (.inr h)
  | prefixMatchWithCounts env x => exact h
  | prefixMatchTenant env x t' => exact h
  | evictTenantBySize env maxSize =>
    exact evictLoop_induction (P := fun T => t ∈ T.tenantCharCount)
      (fun _ _ _ _ h _ _ => mem_tenantCharCount_evictFrom.mpr h) env maxSize T _ h
  | removeTenant env t' =>
    refine AList.mem_erase.mpr ⟨?_, h⟩
    rintro rfl
    exact hop env rfl

theorem mem_tenantCharCount_run (ops : List Op) :
    ∀ t, texts ops t ≠ [] → t ∈ (run ops).tenantCharCount := by
  induction ops using List.reverseRecOn with
  | nil => exact fun _ h => absurd rfl h
  | append_singleton ops op ih =>
    intro t h
    rw [texts_append] at h
    rw [run_append]
    cases op with
    | insert env x t' =>
      rw [record_insert] at h
      refine (mem_tenantCharCount_insert env (wellFormed_run ops)).mpr ?_
      by_cases ht : t = t'
      · exact .inl ht
      · rw [if_neg ht] at h
        exact .inr (ih t h)
    | prefixMatchWithCounts env x => exact ih t h
    | prefixMatchTenant env x t' => exact ih t h
    | evictTenantBySize env maxSize =>
      exact mem_tenantCharCount_step (wellFormed_run ops) (ih t h) fun env h => by cases h
    | removeTenant env t' =>
      rw [record_removeTenant] at h
      by_cases ht : t = t'
      · rw [if_pos ht] at h
        exact absurd rfl h
      · rw [if_neg ht] at h
        refine mem_tenantCharCount_step (wellFormed_run ops) (ih t h) fun env' heq => ?_
        cases heq
        exact ht rfl

/-- The nodes of a tree. -/
inductive IsNode (root : TenantNode) : TenantNode → Prop
  | root : IsNode root root
  | child {n m : TenantNode} {c : Char} (hn : IsNode root n) (hm : (c, m) ∈ n.children) :
      IsNode root m

theorem IsNode.good {root n : TenantNode} (h : IsNode root n) (hg : Good root) : Good n := by
  induction h with
  | root => exact hg
  | child _ hm ih => exact ih.child (AssocList.lookup_of_mem ih.nodup hm)

/-- **The tree is well formed after every history.**  Every node but the root has a text, under whose
first character its parent holds it, tenants that its parent has too, and the right number of
characters; and the count of a tenant that was inserted and not removed is the size of its nodes. -/
theorem run_invariant (ops : List Op) :
    (∀ parent c m, IsNode (run ops).root parent → (c, m) ∈ parent.children →
      m.text.text ≠ [] ∧ m.text.text.head? = some c ∧ (∃ t, t ∈ m.tenants) ∧
        (∀ t, t ∈ m.tenants → t ∈ parent.tenants) ∧ m.text.charCount = m.text.text.length) ∧
    ∀ t, texts ops t ≠ [] →
      (run ops).tenantCharCount.lookup t = some (usedSize t (run ops).root) := by
  have hT := wellFormed_run ops
  refine ⟨fun parent c m hp hm => ?_, fun t ht => ?_⟩
  · have hg := hp.good hT.good
    have hf := hg.fits (AssocList.lookup_of_mem hg.nodup hm)
    refine ⟨?_, hf.head, hf.owned, hf.sub, hf.count⟩
    intro hnil
    have := hf.head
    rw [hnil] at this
    cases this
  · obtain ⟨a, ha⟩ := Option.isSome_iff_exists.mp
      (AList.lookup_isSome.mpr (mem_tenantCharCount_run ops t ht))
    have hused := hT.used t
    rw [count, ha, Option.getD_some] at hused
    rw [ha, hused]

/-! ## 2. What can be read -/

/-- Whether a call evicts. -/
def Op.evicts : Op → Bool
  | .evictTenantBySize _ _ => true
  | _ => false

/-- **Without evictions a tenant reads the prefixes of its texts**, and nothing else. -/
theorem reach_run (ops : List Op) : (∀ op ∈ ops, op.evicts = false) → ∀ t s,
    Reach t (run ops).root s ↔ s = [] ∨ ∃ x ∈ texts ops t, s <+: x := by
  induction ops using List.reverseRecOn with
  | nil =>
    intro _ t s
    refine ⟨fun h => .inl ?_, ?_⟩
    · cases s with
      | nil => rfl
      | cons c s =>
        obtain ⟨m, hm, -⟩ := reach_cons.mp h
        cases hm
    · rintro (rfl | ⟨x, hx, -⟩)
      · exact .nil _
      · cases hx
  | append_singleton ops op ih =>
    intro hno t s
    have ih := ih fun op hop => hno op (mem_append_left _ hop)
    have hT := wellFormed_run ops
    rw [run_append, texts_append]
    cases op with
    | insert env x t' =>
      have h : Reach t ((run ops).insert env x t').root s ↔ _ := reach_insert env hT
      rw [TenantTree.step, h, ih, record_insert]
      by_cases ht : t = t'
      · rw [if_pos ht, or_assoc]
        simp only [mem_cons, exists_eq_or_imp, ht, true_and]
        exact or_congr_right or_comm
      · rw [if_neg ht]
        exact or_iff_left fun h => ht h.1
    | prefixMatchWithCounts env x =>
      exact ((prefixMatchWithCounts_keeps env hT x).2 t s).trans (ih t s)
    | prefixMatchTenant env x t' =>
      exact ((prefixMatchTenant_keeps env hT x t').2 t s).trans (ih t s)
    | evictTenantBySize env maxSize =>
      cases hno _ (mem_append_right _ (mem_singleton.mpr rfl))
    | removeTenant env t' =>
      have h : Reach t ((run ops).removeTenant env t').root s ↔ _ := reach_removeTenant env hT
      rw [TenantTree.step, h, ih, record_removeTenant]
      by_cases ht : t = t'
      · rw [if_pos ht]
        refine or_congr_right ⟨fun h => absurd ht h.1, ?_⟩
        rintro ⟨x, hx, -⟩
        cases hx
      · rw [if_neg ht]
        refine ⟨fun h => h.elim .inl fun h => h.2, fun h => .inr ⟨ht, h⟩⟩

/-! ## 3. What the lookups return -/

/-- The numbers of characters for which texts agree with a query; no text is needed for none. -/
def agreements (X : Set (List Char)) (q : List Char) : Set ℕ :=
  {k | k = 0 ∨ ∃ x ∈ X, commonPrefixLength x q = k}

/-- The longest prefix of a query that can be read is the best agreement of a text. -/
theorem isGreatest_of_longest {P : List Char → Prop} {X : Set (List Char)} {q : List Char} {k : ℕ}
    (hP : ∀ s, P s ↔ s = [] ∨ ∃ x ∈ X, s <+: x) (htake : P (q.take k)) (hlong : Longest P q k) :
    IsGreatest (agreements X q) k := by
  have hbest : ∀ x ∈ X, commonPrefixLength x q ≤ k := fun x hx => by
    have hlen := commonPrefixLength_le_right x q
    have hpre : q.take (commonPrefixLength x q) <+: x :=
      take_commonPrefixLength x q ▸ take_prefix _ _
    have := hlong.max _ ((hP _).mpr (.inr ⟨x, hx, hpre⟩)) (List.take_prefix _ _)
    rwa [length_take, Nat.min_eq_left hlen] at this
  refine ⟨?_, ?_⟩
  · rcases (hP _).mp htake with hnil | ⟨x, hx, hpre⟩
    · left
      have hlen := congrArg List.length hnil
      rwa [length_take, Nat.min_eq_left hlong.le] at hlen
    · right
      refine ⟨x, hx, Nat.le_antisymm (hbest x hx) ?_⟩
      have hle := hpre.length_le
      rw [length_take, Nat.min_eq_left hlong.le] at hle
      rw [le_commonPrefixLength_iff]
      refine ⟨hle, hlong.le, ?_⟩
      have := prefix_iff_eq_take.mp hpre
      rw [length_take, Nat.min_eq_left hlong.le] at this
      exact this.symm
  · rintro j (rfl | ⟨x, hx, rfl⟩)
    · exact Nat.zero_le _
    · exact hbest x hx

/-- **What the lookups return** after a history without evictions: `prefix_match_with_counts` the best
agreement of the query with a text of any tenant, and if there is one a tenant with a text that
agrees so far; `prefix_match_tenant` the best agreement with a text of the tenant. -/
theorem lookups_longest (ops : List Op) (hno : ∀ op ∈ ops, op.evicts = false) (env : TreeEnv)
    (q : List Char) :
    (IsGreatest (agreements {x | ∃ t, x ∈ texts ops t} q)
        ((run ops).prefixMatchWithCounts env q).2.matchedCharCount ∧
      (0 < ((run ops).prefixMatchWithCounts env q).2.matchedCharCount →
        ∃ x ∈ texts ops ((run ops).prefixMatchWithCounts env q).2.tenant,
          q.take ((run ops).prefixMatchWithCounts env q).2.matchedCharCount <+: x)) ∧
    ∀ t, ∃ k, ((run ops).prefixMatchTenant env q t).2 = q.take k ∧
      IsGreatest (agreements {x | x ∈ texts ops t} q) k := by
  have hT := wellFormed_run ops
  have hreach := reach_run ops hno
  refine ⟨?_, fun t => ?_⟩
  · obtain ⟨htake, hlong⟩ := prefixMatchWithCounts_longest env hT q
    refine ⟨?_, fun hpos => ?_⟩
    · refine isGreatest_of_longest (P := fun s => ∃ t, Reach t (run ops).root s) (fun s => ?_)
        ⟨_, htake⟩ ⟨(hlong "").le, fun s ⟨t, hs⟩ => (hlong t).max s hs⟩
      simp only [hreach, Set.mem_ofPred_eq]
      constructor
      · rintro ⟨t, rfl | ⟨x, hx, hs⟩⟩
        · exact .inl rfl
        · exact .inr ⟨x, ⟨t, hx⟩, hs⟩
      · rintro (rfl | ⟨x, ⟨t, hx⟩, hs⟩)
        · exact ⟨"", .inl rfl⟩
        · exact ⟨t, .inr ⟨x, hx, hs⟩⟩
    · refine ((hreach _ _).mp htake).resolve_left fun hnil => ?_
      have hlen := congrArg List.length hnil
      rw [length_take, Nat.min_eq_left (hlong "").le, length_nil] at hlen
      omega
  · obtain ⟨k, hk, htake, hlong⟩ := prefixMatchTenant_longest env hT q t
    exact ⟨k, hk, isGreatest_of_longest (hreach t) htake hlong⟩

/-- The orders of a caller that reads the maps in the order of their entries. -/
def inOrder (epoch : ℕ) : TreeEnv where
  epoch := epoch
  tenantOrder := id
  nodeOrder := id
  heapOrder := fun l => l.mergeSort fun e e' => e.timestamp ≤ e'.timestamp
  perm_tenantOrder := fun _ => .refl _
  perm_nodeOrder := fun _ => .refl _
  perm_heapOrder := fun l => mergeSort_perm l _
  sorted_heapOrder := fun l => by
    have htrans : ∀ a b c : EvictionEntry, decide (a.timestamp ≤ b.timestamp) = true →
        decide (b.timestamp ≤ c.timestamp) = true → decide (a.timestamp ≤ c.timestamp) = true := by
      intro a b c
      simpa using Nat.le_trans
    have htotal : ∀ a b : EvictionEntry,
        (decide (a.timestamp ≤ b.timestamp) || decide (b.timestamp ≤ a.timestamp)) = true := by
      intro a b
      simpa using Nat.le_total _ _
    exact (pairwise_mergeSort htrans htotal l).imp fun h => of_decide_eq_true h

/-- Two tenants share a first character, and one of them is removed again. -/
def sharedHistory : List Op :=
  [.insert (inOrder 0) ['é', 'a'] "w0", .insert (inOrder 1) ['é', 'b'] "w1",
    .prefixMatchWithCounts (inOrder 8) ['é'], .removeTenant (inOrder 9) "w1"]

theorem lookups_longest_shared : (∀ op ∈ sharedHistory, op.evicts = false) ∧
    IsGreatest (agreements {x | ∃ t, x ∈ texts sharedHistory t} ['é', 'b'])
      ((run sharedHistory).prefixMatchWithCounts (inOrder 10) ['é', 'b']).2.matchedCharCount := by
  have hno : ∀ op ∈ sharedHistory, op.evicts = false := by
    intro op hop
    simp only [sharedHistory, mem_cons, not_mem_nil, or_false] at hop
    rcases hop with rfl | rfl | rfl | rfl <;> rfl
  exact ⟨hno, (lookups_longest sharedHistory hno (inOrder 10) ['é', 'b']).1.1⟩

end TenantTree

end Sglang
