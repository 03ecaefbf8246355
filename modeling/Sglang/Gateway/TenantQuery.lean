/-
# Lookups in the multi-tenant tree

Both lookups walk down as far as the text agrees with the tree.  They write into the node where the
walk ends, a timestamp and the cached tenant, which changes nothing that can be read (`Kept`).  The
walk ends at the longest prefix of the text that some tenant, or the given one, can read.
-/
import Sglang.Gateway.TenantShape

namespace Sglang

namespace TenantTree

open CharText Lib TenantNode List

variable {n n' m m' : TenantNode} {c : Char} {t : String} {s remaining : List Char} {k : ℕ}

/-! ## 1. Nothing that can be read is changed -/

/-- Two nodes that differ in timestamps and cached tenants. -/
structure Kept (n n' : TenantNode) : Prop where
  text : n'.text = n.text
  mem : ∀ t, t ∈ n'.tenants ↔ t ∈ n.tenants
  good : Good n'
  reach : ∀ t s, Reach t n' s ↔ Reach t n s
  used : ∀ t, usedSize t n' = usedSize t n

theorem kept_of_children (hg : Good n) (htext : n'.text = n.text)
    (hmem : ∀ t, t ∈ n'.tenants ↔ t ∈ n.tenants) (hch : n'.children = n.children) : Kept n n' where
  text := htext
  mem := hmem
  good := hg.of_children hch fun _ _ hl t ht => (hmem t).mpr ((hg.fits hl).sub t ht)
  reach := fun _ _ => reach_of_children hch
  used := fun t => usedSize_congr htext (hmem t) hch

theorem Kept.setChild (hg : Good n) (hm : n.child? c = some m) (h : Kept m m') :
    Kept n (n.setChild c m') := by
  have hf := hg.fits hm
  have hfits : Fits n c m' := by
    obtain ⟨t, ht⟩ := hf.owned
    refine ⟨?_, ?_, ⟨t, (h.mem t).mpr ht⟩, fun t' ht' => hf.sub t' ((h.mem t').mp ht')⟩
    · rw [h.text]
      exact hf.head
    · rw [h.text]
      exact hf.count
  have hvia : ∀ t s, Via t m' s ↔ Via t m s := fun t s => by
    simp [Via, h.mem, h.text, h.reach]
  refine ⟨rfl, fun _ => Iff.rfl, hg.setChild hfits h.good, fun t s => reach_congr fun d s => ?_,
    fun t => ?_⟩
  · rw [child?_setChild]
    by_cases hd : d = c
    · subst hd
      rw [if_pos rfl, hm]
      constructor
      · rintro ⟨l, hl, hv⟩
        cases hl
        exact ⟨m, rfl, (hvia t _).mp hv⟩
      · rintro ⟨l, hl, hv⟩
        cases hl
        exact ⟨m', rfl, (hvia t _).mpr hv⟩
    · rw [if_neg hd]
  · have hset : usedSize t (n.setChild c m') + usedSize t m = usedSize t n + usedSize t m' :=
      total_setChild _ hm
    have := h.used t
    omega

/-- The tenant of a lookup owns the node where it ends. -/
theorem chooseTenant_mem (env : TreeEnv) (hown : ∃ t, t ∈ n.tenants) :
    chooseTenant env n ∈ n.tenants := by
  have hfirst : firstTenant env n.tenants ∈ n.tenants := by
    obtain ⟨t, ht⟩ := hown
    have hperm := env.perm_tenantOrder n.tenants.entries
    cases horder : env.tenantOrder n.tenants.entries with
    | nil =>
      rw [horder] at hperm
      have hnil : n.tenants.entries = [] := hperm.nil_eq.symm
      have ht : t ∈ n.tenants.entries.map Sigma.fst := ht
      rw [hnil] at ht
      cases ht
    | cons e l =>
      rw [firstTenant, horder]
      have he : e ∈ n.tenants.entries := hperm.subset (horder ▸ mem_cons_self)
      exact mem_map_of_mem (f := Sigma.fst) he
  unfold chooseTenant
  split
  · split
    · assumption
    · exact hfirst
  · exact hfirst

theorem kept_touchMatched (env : TreeEnv) (hg : Good n) (hown : ∃ t, t ∈ n.tenants) :
    Kept n (touchMatched env n) := by
  refine kept_of_children hg rfl (fun t => ?_) rfl
  rw [touchMatched]
  split
  · exact mem_insert_self_iff (chooseTenant_mem env hown) t
  · exact Iff.rfl

theorem kept_touchTenant (env : TreeEnv) (hg : Good n) : Kept n (touchTenant env t n) := by
  unfold touchTenant
  split
  · rename_i ht
    exact kept_of_children hg rfl (mem_insert_self_iff ht) rfl
  · exact kept_of_children hg rfl (fun _ => Iff.rfl) rfl

/-! ## 2. How far a text agrees with a child -/

/-- A text read through a child ends where the two agree, or goes through the whole of the child. -/
theorem via_cases (hf : Fits n c m) (hk : k = sharedPrefixCount (c :: remaining) m.text.text)
    (hvia : Via t m s) (hs : s <+: c :: remaining) :
    s.length ≤ k ∨ k = m.text.charCount ∧
      ∃ r, s = m.text.text ++ r ∧ Reach t m r ∧ r <+: (c :: remaining).drop k := by
  obtain ⟨-, hkle, htake⟩ := hf.shared hk
  have hle : ∀ u : List Char, u <+: c :: remaining → u <+: m.text.text → u.length ≤ k := by
    intro u hu hum
    rw [hk, sharedPrefixCount_eq, le_commonPrefixLength_iff]
    exact ⟨hu.length_le, hum.length_le,
      (prefix_iff_eq_take.mp hu).symm.trans (prefix_iff_eq_take.mp hum)⟩
  rcases hvia.2 with hin | ⟨r, rfl, hr⟩
  · exact .inl (hle s hs hin)
  · right
    have hall := hle m.text.text ((prefix_append _ r).trans hs) prefix_rfl
    have hkeq : k = m.text.charCount := by
      have := hf.count
      omega
    refine ⟨hkeq, r, rfl, hr, ?_⟩
    rw [← take_append_drop k (c :: remaining), htake, hkeq, hf.count, take_length] at hs
    rw [hkeq, hf.count]
    exact (prefix_append_right_inj _).mp hs

variable {j : ℕ}

/-- What can be read through a child: the part that agrees, and below a child that agrees as a whole
what can be read there. -/
theorem reach_take_add (hm : n.child? c = some m) (hf : Fits n c m) (ht : t ∈ m.tenants)
    (hk : k = sharedPrefixCount (c :: remaining) m.text.text) (hfull : k = m.text.charCount)
    (h : Reach t m (((c :: remaining).drop k).take j)) :
    Reach t n ((c :: remaining).take (k + j)) := by
  obtain ⟨hpos, -, htake⟩ := hf.shared hk
  have hsplit : (c :: remaining).take (k + j) = m.text.text ++ ((c :: remaining).drop k).take j := by
    rw [take_add, htake, hfull, hf.count, take_length]
  obtain ⟨i, rfl⟩ := Nat.exists_eq_add_of_lt hpos
  have hcons : (c :: remaining).take (0 + i + 1 + j) = c :: remaining.take (i + j) := by
    rw [show 0 + i + 1 + j = (i + j) + 1 by omega, take_succ_cons]
  rw [hcons] at hsplit ⊢
  exact .past hm ht hsplit h

theorem reach_take (hm : n.child? c = some m) (hf : Fits n c m) (ht : t ∈ m.tenants)
    (hk : k = sharedPrefixCount (c :: remaining) m.text.text) :
    Reach t n ((c :: remaining).take k) := by
  obtain ⟨hpos, -, htake⟩ := hf.shared hk
  obtain ⟨i, rfl⟩ := Nat.exists_eq_add_of_lt hpos
  rw [take_succ_cons] at htake ⊢
  exact .within hm ht (htake ▸ take_prefix _ _)

/-! ## 3. The walks -/

/-- A number of characters of a text is the longest prefix with a property. -/
structure Longest (P : List Char → Prop) (x : List Char) (k : ℕ) : Prop where
  le : k ≤ x.length
  max : ∀ s, P s → s <+: x → s.length ≤ k

theorem longest_nil (P : List Char → Prop) : Longest P [] 0 :=
  ⟨Nat.le_refl _, fun _ _ hs => hs.length_le⟩

theorem longest_zero (h : ∀ m, n.child? c = some m → t ∉ m.tenants) :
    Longest (Reach t n) (c :: remaining) 0 := by
  refine ⟨Nat.zero_le _, fun s hr hs => ?_⟩
  cases s with
  | nil => exact Nat.le_refl _
  | cons d s =>
    obtain ⟨m, hm, hvia⟩ := reach_cons.mp hr
    obtain ⟨rfl, -⟩ := cons_prefix_cons.mp hs
    exact absurd hvia.1 (h m hm)

section Child

variable (hm : n.child? c = some m) (hf : Fits n c m)
  (hk : k = sharedPrefixCount (c :: remaining) m.text.text)

include hm hf hk

theorem longest_of_agrees (hfull : k = m.text.charCount)
    (h : Longest (Reach t m) ((c :: remaining).drop k) j) :
    Longest (Reach t n) (c :: remaining) (k + j) := by
  have hkx : k ≤ (c :: remaining).length := by
    rw [hk, sharedPrefixCount_eq]
    exact commonPrefixLength_le_left _ _
  refine ⟨?_, fun s hr hs => ?_⟩
  · have := h.le
    rw [length_drop] at this
    omega
  · cases s with
    | nil => exact Nat.zero_le _
    | cons d s =>
      obtain ⟨l, hl, hvia⟩ := reach_cons.mp hr
      obtain ⟨rfl, -⟩ := cons_prefix_cons.mp hs
      rw [hm] at hl
      cases hl
      rcases via_cases hf hk hvia hs with hle | ⟨-, r, hsr, hreach, hrx⟩
      · omega
      · have := h.max r hreach hrx
        have := hf.count
        rw [hsr, length_append]
        omega

theorem longest_of_differs (hne : k ≠ m.text.charCount) :
    Longest (Reach t n) (c :: remaining) k := by
  refine ⟨?_, fun s hr hs => ?_⟩
  · rw [hk, sharedPrefixCount_eq]
    exact commonPrefixLength_le_left _ _
  · cases s with
    | nil => exact Nat.zero_le _
    | cons d s =>
      obtain ⟨l, hl, hvia⟩ := reach_cons.mp hr
      obtain ⟨rfl, -⟩ := cons_prefix_cons.mp hs
      rw [hm] at hl
      cases hl
      exact (via_cases hf hk hvia hs).resolve_right fun h => hne h.1

end Child

theorem length_rest_lt {fuel : ℕ} (hf : Fits n c m) (hfuel : (c :: remaining).length < fuel + 1) :
    ((c :: remaining).drop (sharedPrefixCount (c :: remaining) m.text.text)).length < fuel := by
  obtain ⟨hpos, -⟩ := @Fits.shared _ _ _ hf _ remaining rfl
  rw [length_drop, length_cons]
  rw [length_cons] at hfuel
  omega

/-- **The walk of `prefix_match_with_counts`** ends at a node of the tenant it returns, and no tenant
can read more of the text. -/
theorem matchLoop_spec (env : TreeEnv) : ∀ (fuel : ℕ) (x : List Char) (n : TenantNode),
    x.length < fuel → Good n → (∃ t, t ∈ n.tenants) →
    Kept n (matchLoop env fuel x n).1 ∧ (matchLoop env fuel x n).2.1 ∈ n.tenants ∧
      Reach (matchLoop env fuel x n).2.1 n (x.take (matchLoop env fuel x n).2.2) ∧
      ∀ t, Longest (Reach t n) x (matchLoop env fuel x n).2.2
  | 0, _, _, hfuel, _, _ => by omega
  | _ + 1, [], n, _, hg, hown =>
    ⟨kept_touchMatched env hg hown, chooseTenant_mem env hown, .nil _, fun _ => longest_nil _⟩
  | fuel + 1, c :: remaining, n, hfuel, hg, hown => by
    rw [matchLoop]
    cases hm : n.child? c with
    | none =>
      refine ⟨kept_touchMatched env hg hown, chooseTenant_mem env hown, .nil _,
        fun t => longest_zero fun m h => ?_⟩
      rw [hm] at h
      cases h
    | some m =>
      have hf := hg.fits hm
      dsimp only
      split
      · rename_i hfull
        rw [advanceByChars_eq]
        obtain ⟨hkept, ht, hreach, hlong⟩ := matchLoop_spec env fuel
          ((c :: remaining).drop (sharedPrefixCount (c :: remaining) m.text.text)) m
          (length_rest_lt hf hfuel) (hg.child hm) hf.owned
        exact ⟨hkept.setChild hg hm, hf.sub _ ht, reach_take_add hm hf ht rfl hfull hreach,
          fun t => longest_of_agrees hm hf rfl hfull (hlong t)⟩
      · rename_i hne
        have ht := chooseTenant_mem env hf.owned
        exact ⟨(kept_touchMatched env (hg.child hm) hf.owned).setChild hg hm, hf.sub _ ht,
          reach_take hm hf ht rfl, fun t => longest_of_differs hm hf rfl hne⟩

/-- **The walk of `prefix_match_tenant`** ends where the tenant can read no more of the text. -/
theorem matchTenantLoop_spec (env : TreeEnv) (t : String) :
    ∀ (fuel : ℕ) (x : List Char) (n : TenantNode), x.length < fuel → Good n →
    Kept n (matchTenantLoop env t fuel x n).1 ∧
      Reach t n (x.take (matchTenantLoop env t fuel x n).2) ∧
      Longest (Reach t n) x (matchTenantLoop env t fuel x n).2
  | 0, _, _, hfuel, _ => by omega
  | _ + 1, [], n, _, hg => ⟨kept_touchTenant env hg, .nil _, longest_nil _⟩
  | fuel + 1, c :: remaining, n, hfuel, hg => by
    rw [matchTenantLoop]
    cases hm : n.child? c with
    | none =>
      refine ⟨kept_touchTenant env hg, .nil _, longest_zero fun m h => ?_⟩
      rw [hm] at h
      cases h
    | some m =>
      have hf := hg.fits hm
      dsimp only
      split
      · rename_i hnot
        refine ⟨kept_touchTenant env hg, .nil _, longest_zero fun l h => ?_⟩
        rw [hm] at h
        cases h
        exact hnot
      · rename_i hnot
        have ht : t ∈ m.tenants := not_not.mp hnot
        split
        · rename_i hfull
          rw [advanceByChars_eq]
          obtain ⟨hkept, hreach, hlong⟩ := matchTenantLoop_spec env t fuel
            ((c :: remaining).drop (sharedPrefixCount (c :: remaining) m.text.text)) m
            (length_rest_lt hf hfuel) (hg.child hm)
          exact ⟨hkept.setChild hg hm, reach_take_add hm hf ht rfl hfull hreach,
            longest_of_agrees hm hf rfl hfull hlong⟩
        · rename_i hne
          exact ⟨(kept_touchTenant env (hg.child hm)).setChild hg hm, reach_take hm hf ht rfl,
            longest_of_differs hm hf rfl hne⟩

/-! ## 4. The two lookups -/

variable {T : TenantTree}

theorem WellFormed.of_kept (hT : WellFormed T) {root : TenantNode} (h : Kept T.root root) :
    WellFormed { T with root := root } :=
  ⟨h.text.trans hT.root, h.good, fun t => (hT.used t).trans (h.used t).symm⟩

theorem matchLoop_of_no_tenant (env : TreeEnv) (hg : Good n) (hno : ¬ ∃ t, t ∈ n.tenants)
    (fuel : ℕ) (x : List Char) :
    matchLoop env fuel x n = (touchMatched env n, chooseTenant env n, 0) := by
  have hnone := fun c => hg.child?_eq_none (c := c) fun t ht => hno ⟨t, ht⟩
  cases fuel with
  | zero => rfl
  | succ fuel =>
    cases x with
    | nil => rfl
    | cons c x => rw [matchLoop, hnone]

theorem prefixMatchWithCounts_keeps (env : TreeEnv) (hT : WellFormed T) (x : List Char) :
    WellFormed (T.prefixMatchWithCounts env x).1 ∧
      ∀ t s, Reach t (T.prefixMatchWithCounts env x).1.root s ↔ Reach t T.root s := by
  by_cases hown : ∃ t, t ∈ T.root.tenants
  · obtain ⟨hkept, -⟩ := matchLoop_spec env (x.length + 1) x T.root (Nat.lt_succ_self _) hT.good hown
    exact ⟨hT.of_kept hkept, hkept.reach⟩
  · -- the name that stands for no tenant may become a tenant of the root
    rw [prefixMatchWithCounts, matchLoop_of_no_tenant env hT.good hown]
    refine ⟨⟨hT.root, hT.good.of_children rfl fun c m hm => ?_, fun t => ?_⟩,
      fun t s => reach_of_children rfl⟩
    · rw [hT.good.child?_eq_none fun t ht => hown ⟨t, ht⟩] at hm
      cases hm
    · have hzero : ∀ n : TenantNode, n.text = NodeText.empty → n.children = [] → usedSize t n = 0 := by
        intro n htext hch
        rw [usedSize_eq, htext, hch]
        split <;> rfl
      have hch := hT.good.children_eq_nil fun t ht => hown ⟨t, ht⟩
      have htouch : usedSize t (touchMatched env T.root) = 0 := hzero _ hT.root hch
      exact (hT.used t).trans ((hzero _ hT.root hch).trans htouch.symm)

/-- `prefix_match_with_counts` finds the longest prefix that a tenant can read, and returns a tenant
that can. -/
theorem prefixMatchWithCounts_longest (env : TreeEnv) (hT : WellFormed T) (x : List Char) :
    Reach (T.prefixMatchWithCounts env x).2.tenant T.root
        (x.take (T.prefixMatchWithCounts env x).2.matchedCharCount) ∧
      ∀ t, Longest (Reach t T.root) x (T.prefixMatchWithCounts env x).2.matchedCharCount := by
  by_cases hown : ∃ t, t ∈ T.root.tenants
  · obtain ⟨-, -, hreach, hlong⟩ :=
      matchLoop_spec env (x.length + 1) x T.root (Nat.lt_succ_self _) hT.good hown
    exact ⟨hreach, hlong⟩
  · rw [prefixMatchWithCounts, matchLoop_of_no_tenant env hT.good hown]
    refine ⟨.nil _, fun t => ?_⟩
    cases x with
    | nil => exact longest_nil _
    | cons c x =>
      refine longest_zero fun m hm => ?_
      rw [hT.good.child?_eq_none fun t ht => hown ⟨t, ht⟩] at hm
      cases hm

theorem prefixMatchTenant_keeps (env : TreeEnv) (hT : WellFormed T) (x : List Char) (t : String) :
    WellFormed (T.prefixMatchTenant env x t).1 ∧
      ∀ t' s, Reach t' (T.prefixMatchTenant env x t).1.root s ↔ Reach t' T.root s := by
  obtain ⟨hkept, -⟩ := matchTenantLoop_spec env t (x.length + 1) x T.root (Nat.lt_succ_self _) hT.good
  exact ⟨hT.of_kept hkept, hkept.reach⟩

theorem prefixMatchTenant_longest (env : TreeEnv) (hT : WellFormed T) (x : List Char) (t : String) :
    ∃ k, (T.prefixMatchTenant env x t).2 = x.take k ∧ Reach t T.root (x.take k) ∧
      Longest (Reach t T.root) x k := by
  obtain ⟨-, hreach, hlong⟩ :=
    matchTenantLoop_spec env t (x.length + 1) x T.root (Nat.lt_succ_self _) hT.good
  exact ⟨_, takeChars_eq _ _, hreach, hlong⟩

end TenantTree

end Sglang
