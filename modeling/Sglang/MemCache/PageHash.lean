/-
# Page hashes as chains

The hashes of a node are computed by a loop over page starts (`hashPages`), the events by two
more loops over the same starts with an index into the hashes.  On a key of whole pages each of
the three is a function of the pages: `hashPages` is the chain of `Lib.HashChain` with the link
`pageHash`, the store events are the hashes zipped with the pages, and the remove events are the
hashes one by one.

A link fails on a token id that does not fit four bytes; `Hashable` keys have none.
-/
import Sglang.Lib.HashChain
import Sglang.MemCache.TreeNode

namespace Sglang

open Lib List

/-- The pages of a labelled word. -/
def untagged (w : List RadixKey.TaggedPage) : List (List Atom) := w.map Prod.snd

theorem RadixKey.untagged_label (k : RadixKey) (p : ℕ) :
    untagged (k.label p) = chunks p k.iter := by
  rw [untagged, RadixKey.label, map_map]
  exact map_id _

/-- One link: the digest of a page, chained to the one before. -/
def pageHash (sha256 : List UInt8 → Digest) (prior : Option Digest) (page : List Atom) :
    Option Digest := getHashStr sha256 page prior

/-! ## 1. Keys that can be hashed -/

/-- The unit is made of 32-bit tokens. -/
def Atom.Hashable : Atom → Prop
  | .tok t => t < 2 ^ 32
  | .bigram t t' => t < 2 ^ 32 ∧ t' < 2 ^ 32

/-- All token ids of the key fit four bytes. -/
def RadixKey.Hashable (k : RadixKey) : Prop := ∀ t ∈ k.tokenIds, t < 2 ^ 32

theorem Atom.Hashable.exists_bytes {a : Atom} (h : a.Hashable) : ∃ b, a.bytes = some b := by
  cases a with
  | tok t =>
    have ht : t < 2 ^ 32 := h
    exact ⟨_, by rw [Atom.bytes, tokenBytes, if_pos ht]⟩
  | bigram t t' =>
    have ht : t < 2 ^ 32 := h.1
    have ht' : t' < 2 ^ 32 := h.2
    exact ⟨_, by rw [Atom.bytes, tokenBytes, tokenBytes, if_pos ht, if_pos ht']; rfl⟩

theorem RadixKey.Hashable.iter {k : RadixKey} (h : k.Hashable) : ∀ a ∈ k.iter, a.Hashable := by
  intro a ha
  unfold RadixKey.iter at ha
  split at ha
  · rw [← map_uncurry_zip_eq_zipWith, mem_map] at ha
    obtain ⟨⟨x, y⟩, hxy, rfl⟩ := ha
    obtain ⟨h1, h2⟩ := of_mem_zip hxy
    exact ⟨h x h1, h y (mem_of_mem_tail h2)⟩
  · obtain ⟨x, hx, rfl⟩ := mem_map.mp ha
    exact h x hx

theorem exists_pageHash (sha256 : List UInt8 → Digest) {page : List Atom}
    (h : ∀ a ∈ page, a.Hashable) (prior : Option Digest) :
    ∃ d, pageHash sha256 prior page = some d := by
  have hbytes : ∃ bs, page.mapM Atom.bytes = some bs := by
    induction page with
    | nil => exact ⟨[], rfl⟩
    | cons a page ih =>
      obtain ⟨b, hb⟩ := (h a mem_cons_self).exists_bytes
      obtain ⟨bs, hbs⟩ := ih fun x hx => h x (mem_cons_of_mem _ hx)
      exact ⟨b :: bs, by rw [mapM_cons, hb, hbs]; rfl⟩
  obtain ⟨bs, hbs⟩ := hbytes
  exact ⟨_, by rw [pageHash, getHashStr, hbs]; rfl⟩

/-- Every unit of every page can be hashed. -/
def HashablePages (w : List RadixKey.TaggedPage) : Prop := ∀ tp ∈ w, ∀ a ∈ tp.2, a.Hashable

theorem RadixKey.Hashable.label {k : RadixKey} (h : k.Hashable) (p : ℕ) :
    HashablePages (k.label p) := by
  rintro tp htp a ha
  obtain ⟨pg, hpg, rfl⟩ := mem_map.mp htp
  exact h.iter a (mem_of_mem_chunks hpg ha)

variable {w : List RadixKey.TaggedPage}

theorem HashablePages.drop (h : HashablePages w) (i : ℕ) :
    HashablePages (w.drop i) := fun tp htp => h tp (mem_of_mem_drop htp)

theorem HashablePages.exists_chain (h : HashablePages w)
    (sha256 : List UInt8 → Digest) (prior : Option Digest) :
    ∃ hs, chain (pageHash sha256) prior (untagged w) = some hs := by
  refine Lib.exists_chain ?_ prior
  intro pg hpg prior
  obtain ⟨tp, htp, rfl⟩ := mem_map.mp hpg
  exact exists_pageHash sha256 (h tp htp) prior

/-! ## 2. The loops over page starts -/

theorem pageStarts_mul {p : ℕ} (hp : 0 < p) (j : ℕ) :
    pageStarts (p * j) p = (List.range j).map fun i => i * p := by
  have : (p * j + p - 1) / p = j := by
    rw [Nat.add_sub_assoc hp, Nat.mul_add_div hp, Nat.div_eq_of_lt (Nat.sub_lt hp Nat.one_pos),
      Nat.add_zero]
  rw [pageStarts, this]

/-- The page that the loops read at the `i`-th start. -/
theorem page_at {p : ℕ} {k : RadixKey} {i : ℕ} (hi : i < (chunks p k.iter).length) :
    (k.iter.take (min (i * p + p) k.len)).drop (i * p) = (chunks p k.iter)[i] := by
  have h1 : (chunks p k.iter)[i]? = some ((k.iter.drop (i * p)).take p) := by
    rw [getElem?_chunks, if_pos (by simpa using hi)]
  rw [getElem?_eq_getElem hi, Option.some.injEq] at h1
  rw [h1, drop_take, ← RadixKey.length_iter]
  apply ext_getElem?
  intro q
  rw [length_chunks, RadixKey.length_iter] at hi
  have hle : (i + 1) * p ≤ k.len :=
    (Nat.mul_le_mul_right _ hi).trans (Nat.div_mul_le_self _ _)
  rw [Nat.add_mul, Nat.one_mul] at hle
  rw [RadixKey.length_iter, min_eq_left hle]
  rw [Nat.add_sub_cancel_left]

section Loops

variable {p : ℕ} {k : RadixKey}

/-- **The hash loop is a chain.** -/
theorem hashPages_eq (hp : 0 < p) (hk : p ∣ k.len) (sha256 : List UInt8 → Digest)
    (prior : Option Digest) :
    hashPages sha256 k p (pageStarts k.len p) prior
      = chain (pageHash sha256) prior (chunks p k.iter) := by
  obtain ⟨j, hj⟩ := hk
  have hlen : (chunks p k.iter).length = j := by
    rw [length_chunks, RadixKey.length_iter, hj, Nat.mul_div_cancel_left j hp]
  have key : ∀ (n i : ℕ), i + n = j → ∀ prior,
      hashPages sha256 k p ((List.range' i n).map fun i => i * p) prior
        = chain (pageHash sha256) prior ((chunks p k.iter).drop i) := by
    intro n
    induction n with
    | zero =>
      intro i hi prior
      rw [drop_eq_nil_of_le (by omega)]
      rfl
    | succ n ih =>
      intro i hi prior
      rw [range'_succ, map_cons, hashPages, drop_eq_getElem_cons (by omega), chain,
        RadixKey.hashPage, page_at (by omega)]
      congr 1
      funext h
      rw [ih (i + 1) (by omega)]
  have := key j 0 (by omega) prior
  rw [drop_zero, ← range_eq_range'] at this
  rw [← this, hj, pageStarts_mul hp]

/-- The store events of a node: one a page, each linked to the page before. -/
def storedBlocks (medium : StorageMedium) : Option ℤ → List (List Atom) → List Digest →
    List KVCacheEvent
  | parent, pg :: pgs, h :: hs =>
    .blockStored [hashStrToInt64 h] parent pg pg.length none medium ::
      storedBlocks medium (some (hashStrToInt64 h)) pgs hs
  | _, _, _ => []

variable {hs : List Digest}

/-- **The loop of `_record_store_event`** walks pages and hashes together. -/
theorem storeEvents_eq (hp : 0 < p) (hk : p ∣ k.len) (medium : StorageMedium)
    (hlen : hs.length = (chunks p k.iter).length) (parent : Option ℤ) :
    storeEvents k p medium hs (pageStarts k.len p) 0 parent
      = some (storedBlocks medium parent (chunks p k.iter) hs) := by
  obtain ⟨j, hj⟩ := hk
  have hlen' : (chunks p k.iter).length = j := by
    rw [length_chunks, RadixKey.length_iter, hj, Nat.mul_div_cancel_left j hp]
  have key : ∀ (n i : ℕ), i + n = j → ∀ parent,
      storeEvents k p medium hs ((List.range' i n).map fun i => i * p) i parent
        = some (storedBlocks medium parent ((chunks p k.iter).drop i) (hs.drop i)) := by
    intro n
    induction n with
    | zero =>
      intro i hi parent
      rw [drop_eq_nil_of_le (by omega)]
      rfl
    | succ n ih =>
      intro i hi parent
      have hi' : i < (chunks p k.iter).length := by omega
      rw [drop_eq_getElem_cons hi', drop_eq_getElem_cons (l := hs) (by omega), range'_succ,
        map_cons, storeEvents, getElem?_eq_getElem (by omega), page_at hi']
      simp only [Option.bind_eq_bind, Option.bind_some]
      rw [ih (i + 1) (by omega)]
      rfl
  have := key j 0 (by omega) parent
  rw [drop_zero, drop_zero, ← range_eq_range'] at this
  rw [← this, hj, pageStarts_mul hp]

/-- **The loop of `_record_remove_event`** walks the hashes. -/
theorem removeEvents_eq (hp : 0 < p) (hk : p ∣ k.len) (medium : StorageMedium)
    (hlen : hs.length = (chunks p k.iter).length) :
    removeEvents medium hs (pageStarts k.len p) 0
      = some (hs.map fun h => .blockRemoved [hashStrToInt64 h] medium) := by
  obtain ⟨j, hj⟩ := hk
  have hlen' : (chunks p k.iter).length = j := by
    rw [length_chunks, RadixKey.length_iter, hj, Nat.mul_div_cancel_left j hp]
  have key : ∀ (n i : ℕ), i + n = j →
      removeEvents medium hs ((List.range' i n).map fun i => i * p) i
        = some ((hs.drop i).map fun h => .blockRemoved [hashStrToInt64 h] medium) := by
    intro n
    induction n with
    | zero =>
      intro i hi
      rw [drop_eq_nil_of_le (by omega)]
      rfl
    | succ n ih =>
      intro i hi
      rw [range'_succ, map_cons, removeEvents,
        drop_eq_getElem_cons (by omega), getElem?_eq_getElem (by omega)]
      rw [ih (i + 1) (by omega)]
      rfl
  have := key j 0 (by omega)
  rw [drop_zero, ← range_eq_range'] at this
  rw [← this, hj, pageStarts_mul hp]

end Loops

end Sglang
