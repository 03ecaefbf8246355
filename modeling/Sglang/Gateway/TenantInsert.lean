/-
# Inserting into the multi-tenant tree

`insert` walks down the tree, splits the node at which the text leaves it, and attaches the tenant
to every node on the way.  One step of the walk replaces one child; `Inserted` says what the walk
from a node on does to that node, and the induction over the walk needs it only for the child.
-/
import Sglang.Gateway.TenantShape

namespace Sglang

namespace TenantTree

open CharText Lib TenantNode List

variable {n m : TenantNode} {c : Char} {t t' : String} {s x : List Char} {counts : LoadMap String}

/-! ## 1. Counts -/

theorem count_addCount (k : ℕ) :
    count (addCount counts t k) t' = count counts t' + if t' = t then k else 0 := by
  unfold count addCount
  by_cases h : t' = t
  · subst h
    rw [AList.lookup_insert, if_pos rfl]
    rfl
  · rw [AList.lookup_insert_ne h, if_neg h, Nat.add_zero]

theorem mem_addCount (k : ℕ) (ht : t ∈ counts) : t' ∈ addCount counts t k ↔ t' ∈ counts :=
  mem_insert_self_iff ht t'

/-! ## 2. Splitting a node -/

/-- The lower part of a node that is split. -/
def lowerPart (m : TenantNode) (k : ℕ) : TenantNode :=
  node ⟨m.text.text.drop k, m.text.charCount - k⟩ m.tenants m.lastTenant m.children

section Split

variable {k : ℕ} (hpos : 0 < k) (hlt : k < m.text.charCount)
  (hcount : m.text.charCount = m.text.text.length)

include hpos hlt hcount

theorem splitNode_eq : ∃ d u, m.text.text.drop k = d :: u ∧ splitNode m k =
    node ⟨m.text.text.take k, k⟩ m.tenants m.lastTenant [(d, lowerPart m k)] := by
  cases hdrop : m.text.text.drop k with
  | nil =>
    have := drop_eq_nil_iff.mp hdrop
    omega
  | cons d u =>
    refine ⟨d, u, rfl, ?_⟩
    rw [splitNode, NodeText.splitAtChar_eq hpos hlt, lowerPart, hdrop]
    rfl

theorem text_splitNode : (splitNode m k).text = ⟨m.text.text.take k, k⟩ := by
  obtain ⟨d, u, -, h⟩ := splitNode_eq hpos hlt hcount
  rw [h, text_node]

theorem tenants_splitNode : (splitNode m k).tenants = m.tenants := by
  obtain ⟨d, u, -, h⟩ := splitNode_eq hpos hlt hcount
  rw [h, tenants_node]

/-- The only child of the upper part is the lower part. -/
theorem child?_splitNode {l : TenantNode} : (splitNode m k).child? c = some l ↔
    (m.text.text.drop k).head? = some c ∧ l = lowerPart m k := by
  obtain ⟨d, u, hdrop, h⟩ := splitNode_eq hpos hlt hcount
  rw [h, hdrop, child?, children_node, AssocList.lookup_cons_eq, head?_cons]
  constructor
  · intro hl
    split at hl
    · rename_i hc
      cases hl
      exact ⟨by rw [hc], rfl⟩
    · cases hl
  · rintro ⟨hc, rfl⟩
    cases hc
    rw [if_pos rfl]

theorem good_splitNode (hg : Good m) (howned : ∃ t, t ∈ m.tenants) : Good (splitNode m k) := by
  have hnd : ((splitNode m k).children.map Prod.fst).Nodup := by
    exact nodup_singleton _
  refine .mk hnd (fun {e l} hl => ?_) fun {e l} hl => ?_
  · obtain ⟨hhead, rfl⟩ := (child?_splitNode hpos hlt hcount).mp hl
    refine ⟨hhead, ?_, howned, fun t ht => ?_⟩
    · rw [lowerPart, text_node, length_drop, hcount]
    · rw [tenants_splitNode hpos hlt hcount]
      exact ht
  · obtain ⟨-, rfl⟩ := (child?_splitNode hpos hlt hcount).mp hl
    exact hg.of_children rfl fun c l hl t ht => (hg.fits hl).sub t ht

theorem usedSize_splitNode : usedSize t (splitNode m k) = usedSize t m := by
  obtain ⟨d, u, -, h⟩ := splitNode_eq hpos hlt hcount
  rw [h, usedSize_eq, usedSize_eq t m, children_node, map_singleton, sum_singleton,
    usedSize_eq, lowerPart, text_node, text_node, tenants_node, tenants_node, children_node]
  by_cases ht : t ∈ m.tenants
  · rw [if_pos ht, if_pos ht, if_pos ht]
    dsimp only
    omega
  · rw [if_neg ht, if_neg ht, if_neg ht]
    omega

theorem via_splitNode : Via t (splitNode m k) s ↔ Via t m s := by
  have hsplit := take_append_drop k m.text.text
  have hlow : ∀ r, Reach t (lowerPart m k) r ↔ Reach t m r := fun r => reach_of_children rfl
  rw [Via, text_splitNode hpos hlt hcount]
  refine and_congr_right fun ht => ?_
  constructor
  · rintro (hs | ⟨r, rfl, hr⟩)
    · exact .inl (hs.trans (List.take_prefix k _))
    · cases r with
      | nil =>
        rw [append_nil]
        exact .inl (List.take_prefix k _)
      | cons e r =>
        obtain ⟨l, hl, hvia⟩ := reach_cons.mp hr
        obtain ⟨-, rfl⟩ := (child?_splitNode hpos hlt hcount).mp hl
        rcases hvia.2 with hin | ⟨r', hr', hreach⟩
        · left
          have := (prefix_append_right_inj (m.text.text.take k)).mpr hin
          rw [show m.text.text.take k ++ (lowerPart m k).text.text = m.text.text from hsplit] at this
          exact this
        · right
          refine ⟨r', ?_, (hlow r').mp hreach⟩
          rw [hr', ← append_assoc]
          exact congrArg (· ++ r') hsplit
  · have hdown : ∀ r, r <+: m.text.text.drop k ∨
        (∃ r', r = m.text.text.drop k ++ r' ∧ Reach t m r') → Reach t (splitNode m k) r := by
      intro r hr
      cases r with
      | nil => exact .nil _
      | cons e r =>
        have hhead : (m.text.text.drop k).head? = some e := by
          obtain ⟨d, u, hdrop, -⟩ := splitNode_eq hpos hlt hcount
          rw [hdrop] at hr ⊢
          rcases hr with hr | ⟨r', hr, -⟩
          · rw [(cons_prefix_cons.mp hr).1, head?_cons]
          · rw [(List.cons.inj hr).1, head?_cons]
        refine reach_cons.mpr ⟨_, (child?_splitNode hpos hlt hcount).mpr ⟨hhead, rfl⟩, ht, ?_⟩
        refine hr.imp id ?_
        rintro ⟨r', hr', hreach⟩
        exact ⟨r', hr', (hlow r').mpr hreach⟩
    rintro (hs | ⟨r, rfl, hr⟩)
    · rw [← hsplit] at hs
      refine (prefix_append_iff.mp hs).imp id ?_
      rintro ⟨v, hv, hin⟩
      exact ⟨v, hv, hdown v (.inl hin)⟩
    · right
      refine ⟨m.text.text.drop k ++ r, ?_, hdown _ (.inr ⟨r, rfl, hr⟩)⟩
      rw [← append_assoc]
      exact congrArg (· ++ r) hsplit.symm

end Split

/-! ## 3. The walk -/

/-- What the walk of `insert` from a node on does to the node and to the counts. -/
structure Inserted (t : String) (x : List Char) (n : TenantNode) (counts : LoadMap String)
    (n' : TenantNode) (counts' : LoadMap String) : Prop where
  text : n'.text = n.text
  mem : ∀ t', t' ∈ n'.tenants ↔ t' ∈ n.tenants
  good : Good n'
  reach : ∀ t' s, Reach t' n' s ↔ Reach t' n s ∨ t' = t ∧ s <+: x
  used : ∀ t', count counts' t' + usedSize t' n = count counts t' + usedSize t' n'
  memCounts : ∀ t', t' ∈ counts' ↔ t' ∈ counts

theorem ensureTenant_spec (hg : Good m) (ht : t ∈ counts) :
    (ensureTenant t m counts).1.text = m.text ∧
      (∀ t', t' ∈ (ensureTenant t m counts).1.tenants ↔ t' = t ∨ t' ∈ m.tenants) ∧
      Good (ensureTenant t m counts).1 ∧
      (∀ t' s, Reach t' (ensureTenant t m counts).1 s ↔ Reach t' m s) ∧
      (∀ t', count (ensureTenant t m counts).2 t' + usedSize t' m
        = count counts t' + usedSize t' (ensureTenant t m counts).1) ∧
      ∀ t', t' ∈ (ensureTenant t m counts).2 ↔ t' ∈ counts := by
  unfold ensureTenant
  split
  · rename_i hmem
    refine ⟨rfl, fun t' => ⟨.inr, ?_⟩, hg, fun _ _ => Iff.rfl, fun _ => rfl, fun _ => Iff.rfl⟩
    rintro (rfl | h)
    · exact hmem
    · exact h
  · rename_i hmem
    refine ⟨rfl, fun t' => AList.mem_insert _, ?_, fun _ _ => reach_of_children rfl, fun t' => ?_,
      fun t' => mem_addCount _ ht⟩
    · refine hg.of_children rfl fun c l hl t' ht' => ?_
      exact (AList.mem_insert _).mpr (.inr ((hg.fits hl).sub t' ht'))
    · rw [count_addCount, usedSize_eq, usedSize_eq t' (m.withTenants _), tenants_withTenants,
        text_withTenants, children_withTenants]
      by_cases h : t' = t
      · subst h
        rw [if_pos rfl, if_neg hmem, if_pos ((AList.mem_insert _).mpr (.inl rfl))]
        omega
      · have hiff : t' ∈ m.tenants.insert t 0 ↔ t' ∈ m.tenants := by
          rw [AList.mem_insert]
          exact ⟨fun h' => h'.resolve_left h, .inr⟩
        rw [if_neg h, if_congr hiff rfl rfl, Nat.add_zero]

variable {m₀ m₂ : TenantNode} {counts₂ : LoadMap String}

/-- A text is read through a node of the walk if it was before, or belongs to the new text. -/
theorem via_inserted {m₁ : TenantNode} {rest : List Char} {counts₁ : LoadMap String}
    (hg : Good m₀) (htext : m₁.text = m₀.text)
    (hmem : ∀ t', t' ∈ m₁.tenants ↔ t' = t ∨ t' ∈ m₀.tenants)
    (hreach : ∀ t' s, Reach t' m₁ s ↔ Reach t' m₀ s)
    (hins : Inserted t rest m₁ counts₁ m₂ counts₂) :
    Via t' m₂ s ↔ Via t' m₀ s ∨ t' = t ∧ s <+: m₀.text.text ++ rest := by
  rw [Via, hins.text, htext, hins.mem, hmem]
  simp only [hins.reach, hreach]
  constructor
  · rintro ⟨ht, hs⟩
    by_cases h : t' = t
    · subst h
      rcases hs with hs | ⟨r, rfl, hr | ⟨-, hr⟩⟩
      · exact .inr ⟨rfl, hs.trans (prefix_append _ _)⟩
      · by_cases hown : t' ∈ m₀.tenants
        · exact .inl ⟨hown, .inr ⟨r, rfl, hr⟩⟩
        · rw [Reach.eq_nil hg hown hr]
          exact .inr ⟨rfl, prefix_append_iff.mpr (.inr ⟨[], rfl, nil_prefix⟩)⟩
      · exact .inr ⟨rfl, prefix_append_iff.mpr (.inr ⟨r, rfl, hr⟩)⟩
    · refine .inl ⟨ht.resolve_left h, hs.imp id ?_⟩
      rintro ⟨r, hr, hr'⟩
      exact ⟨r, hr, hr'.resolve_right fun h' => h h'.1⟩
  · rintro (⟨ht, hs⟩ | ⟨rfl, hs⟩)
    · refine ⟨.inr ht, hs.imp id ?_⟩
      rintro ⟨r, hr, hr'⟩
      exact ⟨r, hr, .inl hr'⟩
    · refine ⟨.inl rfl, (prefix_append_iff.mp hs).imp id ?_⟩
      rintro ⟨r, hr, hr'⟩
      exact ⟨r, hr, .inr ⟨rfl, hr'⟩⟩

theorem reach_setChild {m' : TenantNode} (hx : x.head? = some c) (hvia : ∀ s, Via t' m' (c :: s) ↔
      (∃ m, n.child? c = some m ∧ Via t' m (c :: s)) ∨ t' = t ∧ c :: s <+: x) :
    Reach t' (n.setChild c m') s ↔ Reach t' n s ∨ t' = t ∧ s <+: x := by
  cases s with
  | nil => exact ⟨fun _ => .inl (.nil _), fun _ => .nil _⟩
  | cons d s =>
    rw [reach_cons, reach_cons, child?_setChild]
    by_cases hd : d = c
    · subst hd
      rw [if_pos rfl, ← hvia]
      exact ⟨fun ⟨_, hm, h⟩ => Option.some.inj hm ▸ h, fun h => ⟨_, rfl, h⟩⟩
    · rw [if_neg hd]
      refine ⟨.inl, fun h => h.resolve_right ?_⟩
      rintro ⟨-, hs⟩
      cases x with
      | nil => cases hx
      | cons e x =>
        cases hx
        exact hd (cons_prefix_cons.mp hs).1

/-- The node at which the walk goes on: the child, or the upper part of it. -/
theorem splitAt_spec {k : ℕ} (hpos : 0 < k) (hle : k ≤ m.text.charCount)
    (hcount : m.text.charCount = m.text.text.length) (hg : Good m) (howned : ∃ t, t ∈ m.tenants)
    (hm₀ : m₀ = if k < m.text.charCount then splitNode m k else m) :
    m₀.text = ⟨m.text.text.take k, k⟩ ∧ m₀.tenants = m.tenants ∧ Good m₀ ∧
      (∀ t, usedSize t m₀ = usedSize t m) ∧ ∀ t s, Via t m₀ s ↔ Via t m s := by
  subst hm₀
  split
  · rename_i hlt
    exact ⟨text_splitNode hpos hlt hcount, tenants_splitNode hpos hlt hcount,
      good_splitNode hpos hlt hcount hg howned, fun t => usedSize_splitNode hpos hlt hcount,
      fun t s => via_splitNode hpos hlt hcount⟩
  · rename_i hge
    have hk : k = m.text.charCount := by omega
    refine ⟨?_, rfl, hg, fun _ => rfl, fun _ _ => Iff.rfl⟩
    rw [hk, hcount, take_length, ← hcount]

/-- The walk ends at a node when nothing is left of the text. -/
theorem inserted_nil (epoch : ℕ) (hg : Good n) (ht : t ∈ n.tenants) :
    Inserted t [] n counts (n.withTenants (n.tenants.insert t epoch)) counts := by
  have hmem : ∀ t', t' ∈ n.tenants.insert t epoch ↔ t' ∈ n.tenants := mem_insert_self_iff ht
  refine ⟨rfl, hmem, ?_, fun t' s => ?_, fun t' => ?_, fun _ => Iff.rfl⟩
  · exact hg.of_children rfl fun c l hl t' ht' => (hmem t').mpr ((hg.fits hl).sub t' ht')
  · have hsame : Reach t' (n.withTenants (n.tenants.insert t epoch)) s ↔ Reach t' n s :=
      reach_of_children rfl
    rw [hsame]
    refine ⟨.inl, ?_⟩
    rintro (h | ⟨-, hs⟩)
    · exact h
    · rw [prefix_nil.mp hs]
      exact .nil _
  · exact congrArg _ (usedSize_congr rfl (hmem t').symm rfl)

/-- A text that leaves the tree at a node gets a leaf there. -/
theorem inserted_leaf (epoch : ℕ) (hx : x.head? = some c) (hg : Good n) (ht : t ∈ n.tenants)
    (htc : t ∈ counts) (hnone : n.child? c = none) :
    Inserted t x n counts (n.setChild c (leaf t epoch x)) (addCount counts t x.length) := by
  have hown : ∀ t', t' ∈ (leaf t epoch x).tenants ↔ t' = t := fun t' => by
    rw [leaf, tenants_node, AList.mem_insert]
    exact ⟨fun h => h.resolve_right (AList.notMem_empty t'), .inl⟩
  have hfits : Fits n c (leaf t epoch x) :=
    ⟨hx, rfl, ⟨t, (hown t).mpr rfl⟩, fun t' ht' => (hown t').mp ht' ▸ ht⟩
  refine ⟨rfl, fun _ => Iff.rfl, hg.setChild hfits (good_leaf _ _ _), fun t' s => ?_, fun t' => ?_,
    fun t' => mem_addCount _ htc⟩
  · refine reach_setChild hx fun s => ?_
    rw [hnone, Via, hown]
    constructor
    · rintro ⟨rfl, hs | ⟨r, hr, hreach⟩⟩
      · exact .inr ⟨rfl, hs⟩
      · cases r with
        | nil =>
          rw [hr, append_nil]
          exact .inr ⟨rfl, prefix_rfl⟩
        | cons e r =>
          obtain ⟨l, hl, -⟩ := reach_cons.mp hreach
          cases hl
    · rintro (⟨m, hm, -⟩ | ⟨rfl, hs⟩)
      · cases hm
      · exact ⟨rfl, .inl hs⟩
  · have hleaf : usedSize t' (leaf t epoch x) = if t' = t then x.length else 0 := by
      rw [usedSize_eq, if_congr (hown t') rfl rfl]
      rfl
    rw [count_addCount, usedSize, total_setChild_of_none _ hnone, ← usedSize]
    omega

/-- The walk goes through a child: what it does there is what it does to the node. -/
theorem inserted_child {k : ℕ} {remaining : List Char} (hg : Good n) (hm : n.child? c = some m)
    (ht : t ∈ n.tenants)
    (htc : t ∈ counts) (hk : k = sharedPrefixCount (c :: remaining) m.text.text)
    (hm₀ : m₀ = if k < m.text.charCount then splitNode m k else m)
    (ih : Good (ensureTenant t m₀ counts).1 → t ∈ (ensureTenant t m₀ counts).1.tenants →
      t ∈ (ensureTenant t m₀ counts).2 →
      Inserted t ((c :: remaining).drop k) (ensureTenant t m₀ counts).1
        (ensureTenant t m₀ counts).2 m₂ counts₂) :
    Inserted t (c :: remaining) n counts (n.setChild c m₂) counts₂ := by
  have hf := hg.fits hm
  obtain ⟨hpos, hkle, htake⟩ := hf.shared hk
  obtain ⟨htext₀, hten₀, hg₀, hused₀, hvia₀⟩ :=
    splitAt_spec hpos hkle hf.count (hg.child hm) hf.owned hm₀
  obtain ⟨htext₁, hmem₁, hg₁, hreach₁, hused₁, hmemc₁⟩ := ensureTenant_spec hg₀ htc
  have ih := ih hg₁ ((hmem₁ t).mpr (.inl rfl)) ((hmemc₁ t).mpr htc)
  have htext₂ : m₂.text = ⟨m.text.text.take k, k⟩ := by rw [ih.text, htext₁, htext₀]
  have hmem₂ : ∀ t', t' ∈ m₂.tenants ↔ t' = t ∨ t' ∈ m.tenants := fun t' => by
    rw [ih.mem, hmem₁, hten₀]
  have hxsplit : m₀.text.text ++ (c :: remaining).drop k = c :: remaining := by
    rw [htext₀, ← htake]
    exact take_append_drop k _
  have hfits : Fits n c m₂ := by
    refine ⟨?_, ?_, ⟨t, (hmem₂ t).mpr (.inl rfl)⟩, fun t' ht' => ?_⟩
    · rw [htext₂, ← htake, head?_take, if_neg hpos.ne', head?_cons]
    · rw [htext₂, length_take, ← hf.count, Nat.min_eq_left hkle]
    · rcases (hmem₂ t').mp ht' with rfl | h
      · exact ht
      · exact hf.sub t' h
  refine ⟨rfl, fun _ => Iff.rfl, hg.setChild hfits ih.good, fun t' s => ?_, fun t' => ?_,
    fun t' => ?_⟩
  · refine reach_setChild rfl fun s => ?_
    rw [via_inserted hg₀ htext₁ hmem₁ hreach₁ ih, hvia₀, hxsplit, hm]
    refine or_congr_left ⟨fun h => ⟨m, rfl, h⟩, ?_⟩
    rintro ⟨l, hl, h⟩
    cases hl
    exact h
  · have hset : usedSize t' (n.setChild c m₂) + usedSize t' m = usedSize t' n + usedSize t' m₂ :=
      total_setChild _ hm
    have := ih.used t'
    have := hused₁ t'
    have := hused₀ t'
    omega
  · rw [ih.memCounts, hmemc₁]

/-- **What the walk of `insert` does.** -/
theorem insertLoop_spec (epoch : ℕ) : ∀ (fuel : ℕ) (x : List Char) (n : TenantNode)
    (counts : LoadMap String), x.length < fuel → Good n → t ∈ n.tenants → t ∈ counts →
    Inserted t x n counts (insertLoop t epoch fuel x n counts).1
      (insertLoop t epoch fuel x n counts).2
  | 0, _, _, _, hfuel, _, _, _ => by omega
  | _ + 1, [], n, counts, _, hg, ht, _ => inserted_nil epoch hg ht
  | fuel + 1, c :: remaining, n, counts, hfuel, hg, ht, htc => by
    rw [insertLoop]
    cases hm : n.child? c with
    | none => exact inserted_leaf epoch rfl hg ht htc hm
    | some m =>
      obtain ⟨hpos, -⟩ := @Fits.shared _ _ _ (hg.fits hm) _ remaining rfl
      simp only [advanceByChars_eq]
      refine inserted_child hg hm ht htc rfl rfl fun hg₁ ht₁ htc₁ => ?_
      refine insertLoop_spec epoch fuel _ _ _ ?_ hg₁ ht₁ htc₁
      rw [length_drop, length_cons]
      rw [length_cons] at hfuel
      omega

/-! ## 4. `insert` -/

theorem mem_orInsertZero {ts : LoadMap String} : t' ∈ orInsertZero ts t ↔ t' = t ∨ t' ∈ ts := by
  unfold orInsertZero
  split
  · rename_i h
    refine ⟨.inr, ?_⟩
    rintro (rfl | h')
    · exact h
    · exact h'
  · exact AList.mem_insert _

theorem count_orInsertZero : count (orInsertZero counts t) t' = count counts t' := by
  unfold orInsertZero
  split
  · rfl
  · rename_i h
    rw [count, count]
    by_cases ht : t' = t
    · subst ht
      rw [AList.lookup_insert, AList.lookup_eq_none.mpr h]
      rfl
    · rw [AList.lookup_insert_ne ht]

variable {T : TenantTree}

theorem insert_inserted (env : TreeEnv) (hT : WellFormed T) (x : List Char) (t : String) :
    Inserted t x (T.root.withTenants (orInsertZero T.root.tenants t))
      (orInsertZero T.tenantCharCount t) (T.insert env x t).root
      (T.insert env x t).tenantCharCount := by
  refine insertLoop_spec env.epoch (x.length + 1) x _ _ (Nat.lt_succ_self _) ?_
    (mem_orInsertZero.mpr (.inl rfl)) (mem_orInsertZero.mpr (.inl rfl))
  exact hT.good.of_children rfl fun c m hm t' ht' =>
    mem_orInsertZero.mpr (.inr ((hT.good.fits hm).sub t' ht'))

theorem WellFormed.insert (env : TreeEnv) (hT : WellFormed T) (x : List Char)
    (t : String) : WellFormed (T.insert env x t) := by
  have h := insert_inserted env hT x t
  refine ⟨h.text.trans hT.root, h.good, fun t' => ?_⟩
  have hroot : usedSize t' (T.root.withTenants (orInsertZero T.root.tenants t))
      = usedSize t' T.root := by
    -- the root has no characters of its own
    rw [usedSize_eq, usedSize_eq t' T.root, text_withTenants, hT.root]
    split <;> split <;> rfl
  have hused := h.used t'
  rw [count_orInsertZero, hT.used] at hused
  omega

/-- After `insert` the tenant can read the text, and nothing else changes. -/
theorem reach_insert (env : TreeEnv) (hT : WellFormed T) :
    Reach t' (T.insert env x t).root s ↔ Reach t' T.root s ∨ t' = t ∧ s <+: x := by
  have hsame : Reach t' (T.root.withTenants (orInsertZero T.root.tenants t)) s ↔
      Reach t' T.root s := reach_of_children rfl
  rw [(insert_inserted env hT x t).reach, hsame]

theorem mem_tenantCharCount_insert (env : TreeEnv) (hT : WellFormed T) :
    t' ∈ (T.insert env x t).tenantCharCount ↔ t' = t ∨ t' ∈ T.tenantCharCount := by
  rw [(insert_inserted env hT x t).memCounts, mem_orInsertZero]

end TenantTree

end Sglang
