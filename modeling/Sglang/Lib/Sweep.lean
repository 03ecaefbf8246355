/-
# Sums over a tree by a stack

A depth-first walk with an explicit stack, as loops over linked nodes are written, visits every node
of a rooted tree once, in whatever order the children are pushed.
-/
import Sglang.Lib.RootedTree

namespace Lib

open List Finset

variable {ι : Type}

/-- `while stack: node = stack.pop(); total += weight(node); stack.extend(children(node))`; the top
of the stack is the head of the list. -/
def depthFirstSum (children : ι → List ι) (weight : ι → ℕ) : ℕ → List ι → ℕ → Option ℕ
  | 0, _, _ => none
  | _ + 1, [], total => some total
  | fuel + 1, node :: stack, total =>
    depthFirstSum children weight fuel ((children node).reverse ++ stack) (total + weight node)

/-- Renaming the nodes does not change the sum. -/
theorem depthFirstSum_map {κ : Type} (f : ι → κ) {children : ι → List ι} {weight : ι → ℕ}
    {children' : κ → List κ} {weight' : κ → ℕ}
    (hchildren : ∀ n, children' (f n) = (children n).map f) (hweight : ∀ n, weight' (f n) = weight n) :
    ∀ (fuel : ℕ) (stack : List ι) (total : ℕ),
      depthFirstSum children' weight' fuel (stack.map f) total
        = depthFirstSum children weight fuel stack total
  | 0, _, _ => rfl
  | _ + 1, [], _ => rfl
  | fuel + 1, node :: stack, total => by
    rw [List.map_cons, depthFirstSum, depthFirstSum, hchildren, hweight, ← map_reverse,
      ← map_append, depthFirstSum_map f hchildren hweight fuel]

namespace RootedTree

variable {t : RootedTree ι} {children : ι → List ι} {weight : ι → ℕ}

/-- What the walk has done: `V` is visited, the stack waits, and nothing else hangs under `V`. -/
structure Swept (t : RootedTree ι) (V : Finset ι) (stack : List ι) : Prop where
  subset : V ⊆ t.nodes
  mem : ∀ n ∈ stack, n ∈ t.nodes
  nodup : stack.Nodup
  fresh : ∀ n ∈ stack, n ∉ V
  parent : ∀ n ∈ stack, n ≠ t.root → t.parent n ∈ V
  root : t.root ∈ V ∨ t.root ∈ stack
  closed : ∀ p ∈ V, ∀ n, t.Child p n → n ∈ V ∨ n ∈ stack
  up : ∀ n ∈ V, n ≠ t.root → t.parent n ∈ V

variable {V : Finset ι}

theorem Swept.eq_nodes (h : Swept t V []) : V = t.nodes := by
  refine Finset.Subset.antisymm h.subset fun n hn => ?_
  refine t.induction (P := (· ∈ V)) ?_ (fun n hn hr hp => ?_) n hn
  · exact h.root.resolve_right (not_mem_nil)
  · exact (h.closed _ hp n ⟨hn, hr, rfl⟩).resolve_right (not_mem_nil)

variable [DecidableEq ι]

/-- One round of the walk. -/
theorem Swept.step {node : ι} {stack : List ι} (h : Swept t V (node :: stack))
    (hmem : ∀ n, n ∈ children node ↔ t.Child node n) (hnd : (children node).Nodup) :
    Swept t (insert node V) ((children node).reverse ++ stack) := by
  obtain ⟨hnot, hst⟩ := nodup_cons.mp h.nodup
  have hnode := h.mem node List.mem_cons_self
  have hfresh := h.fresh node List.mem_cons_self
  have hmem' : ∀ n, n ∈ (children node).reverse ++ stack ↔ t.Child node n ∨ n ∈ stack := by
    intro n
    rw [mem_append, mem_reverse, hmem]
  have hchild : ∀ n, t.Child node n → n ∉ V ∧ n ≠ node ∧ n ∉ node :: stack := by
    intro n hc
    refine ⟨fun hV => ?_, fun e => ?_, fun hs => ?_⟩
    · exact hfresh (hc.2.2 ▸ h.up n hV hc.2.1)
    · exact parent_ne hc.1 hc.2.1 (hc.2.2.trans e.symm)
    · exact hfresh (hc.2.2 ▸ h.parent n hs hc.2.1)
  refine ⟨?_, fun n hn => ?_, ?_, fun n hn => ?_, fun n hn hr => ?_, ?_, fun p hp n hc => ?_,
    fun n hn hr => ?_⟩
  · exact insert_subset hnode h.subset
  · rcases (hmem' n).mp hn with hc | hs
    · exact hc.1
    · exact h.mem n (List.mem_cons_of_mem _ hs)
  · rw [nodup_append]
    refine ⟨nodup_reverse.mpr hnd, hst, ?_⟩
    rintro a ha b hb rfl
    rw [mem_reverse, hmem] at ha
    exact (hchild a ha).2.2 (List.mem_cons_of_mem _ hb)
  · rw [mem_insert, not_or]
    rcases (hmem' n).mp hn with hc | hs
    · exact ⟨(hchild n hc).2.1, (hchild n hc).1⟩
    · exact ⟨fun e => hnot (e ▸ hs), h.fresh n (List.mem_cons_of_mem _ hs)⟩
  · rcases (hmem' n).mp hn with hc | hs
    · exact hc.2.2 ▸ Finset.mem_insert_self _ _
    · exact Finset.mem_insert_of_mem (h.parent n (List.mem_cons_of_mem _ hs) hr)
  · rcases h.root with hV | hs
    · exact .inl (Finset.mem_insert_of_mem hV)
    · rcases List.mem_cons.mp hs with e | hs
      · exact .inl (e ▸ Finset.mem_insert_self _ _)
      · exact .inr ((hmem' _).mpr (.inr hs))
  · rcases mem_insert.mp hp with rfl | hp
    · exact .inr ((hmem' n).mpr (.inl hc))
    · rcases h.closed p hp n hc with hV | hs
      · exact .inl (Finset.mem_insert_of_mem hV)
      · rcases List.mem_cons.mp hs with e | hs
        · exact .inl (e ▸ Finset.mem_insert_self _ _)
        · exact .inr ((hmem' n).mpr (.inr hs))
  · rcases mem_insert.mp hn with rfl | hn
    · exact Finset.mem_insert_of_mem (h.parent n List.mem_cons_self hr)
    · exact Finset.mem_insert_of_mem (h.up n hn hr)

theorem depthFirstSum_of_swept (hmem : ∀ p ∈ t.nodes, ∀ n, n ∈ children p ↔ t.Child p n)
    (hnd : ∀ p ∈ t.nodes, (children p).Nodup) :
    ∀ (fuel : ℕ) (stack : List ι) (V : Finset ι) (total : ℕ), Swept t V stack →
      t.nodes.card < fuel + V.card → total = ∑ n ∈ V, weight n →
      depthFirstSum children weight fuel stack total = some (∑ n ∈ t.nodes, weight n)
  | 0, stack, V, total, h, hfuel, _ => by
    have := card_le_card h.subset
    omega
  | fuel + 1, [], V, total, h, _, htotal => by rw [depthFirstSum, htotal, h.eq_nodes]
  | fuel + 1, node :: stack, V, total, h, hfuel, htotal => by
    have hnode := h.mem node List.mem_cons_self
    have hfresh := h.fresh node List.mem_cons_self
    refine depthFirstSum_of_swept hmem hnd fuel _ (insert node V) _
      (h.step (hmem node hnode) (hnd node hnode)) ?_ ?_
    · rw [card_insert_of_notMem hfresh]
      omega
    · rw [htotal, sum_insert hfresh, Nat.add_comm]

/-- **A walk with a stack sums over all nodes**, if the lists it pushes are the children. -/
theorem depthFirstSum_eq (hmem : ∀ p ∈ t.nodes, ∀ n, n ∈ children p ↔ t.Child p n)
    (hnd : ∀ p ∈ t.nodes, (children p).Nodup) {fuel : ℕ} (hfuel : t.nodes.card < fuel) :
    depthFirstSum children weight fuel [t.root] 0 = some (∑ n ∈ t.nodes, weight n) := by
  refine depthFirstSum_of_swept hmem hnd fuel _ ∅ 0 ⟨empty_subset _, ?_,
    nodup_singleton _, ?_, ?_, .inr (List.mem_singleton.mpr rfl), ?_, ?_⟩ ?_ ?_
  · intro n hn
    exact List.mem_singleton.mp hn ▸ t.root_mem
  · exact fun n _ => notMem_empty n
  · exact fun n hn hr => absurd (List.mem_singleton.mp hn) hr
  · exact fun p hp => absurd hp (notMem_empty p)
  · exact fun n hn => absurd hn (notMem_empty n)
  · rw [card_empty]
    omega
  · rw [sum_empty]

end RootedTree

end Lib
