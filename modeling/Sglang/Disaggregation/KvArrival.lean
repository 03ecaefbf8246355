/-
# What a decode rank holds after a transfer

The pages of one request are sent to a decode rank by every prefill rank that serves it, in any
order.  Each path comes down to the same two facts: every write puts into a decode page the head
that `sentHead` names, and the writes together fill the decode pages.  So the decode buffers are
`received` whichever path is taken, and they hold the rank's own heads exactly when the head that
is sent is its own.
-/
import Mathlib.Data.List.GetD
import Sglang.Disaggregation.KvTransfer

namespace Sglang.Disaggregation

open Lib List

/-- The KV of a request: buffer, token, head and byte. -/
abbrev KvData := Nat → Nat → Nat → Nat → Byte

/-- A transfer of one request's pages between a prefill group of size `s` and a decode group of
size `d`. -/
structure KvTransfer (H s d : Nat) where
  pageSize : Nat
  headDim : Nat
  dtypeSize : Nat
  numLayers : Nat
  prefillPages : List Nat
  decodePages : List Nat
  pageSize_pos : 0 < pageSize
  headDim_pos : 0 < headDim
  dtypeSize_pos : 0 < dtypeSize
  numLayers_pos : 0 < numLayers
  length_eq : prefillPages.length = decodePages.length
  decode_nodup : decodePages.Nodup

variable {i e x r R : Nat} {w : Write Nat Byte}

namespace KvTransfer

variable {H s d : Nat} (T : KvTransfer H s d)

def headBytes : Nat := T.headDim * T.dtypeSize

/-- Bytes of a token on a rank of a group of size `tp`. -/
def tokenBytes (tp : Nat) : Nat := headsPerRank H tp * T.headBytes

def itemLen (tp : Nat) : Nat := T.pageSize * T.tokenBytes tp

def numTokens : Nat := T.prefillPages.length * T.pageSize

def kvArgs (tp engineRank : Nat) : KVArgs :=
  ⟨engineRank, List.replicate (2 * T.numLayers) (T.itemLen tp), T.pageSize, headsPerRank H tp, H⟩

def tensors (tp : Nat) : KvBufferTensors :=
  ⟨T.numLayers, headsPerRank H tp, T.headDim, T.dtypeSize, T.pageSize⟩

/-- The slot of the request's token `t`. -/
def slot (pages : List Nat) (t : Nat) : Nat :=
  pages.getD (t / T.pageSize) 0 * T.pageSize + t % T.pageSize

/-- The pages of rank `r` of a group of size `tp` hold exactly its heads of every token. -/
def Holds (tp r : Nat) (pages : List Nat) (kv : KvData) (mem : Buffers) : Prop :=
  ∀ i < 2 * T.numLayers, ∀ t < T.numTokens, ∀ h < headsPerRank H tp, ∀ b < T.headBytes,
    mem i (T.slot pages t * T.tokenBytes tp + (h * T.headBytes + b)) =
      kv i t (headOf H tp r h) b

/-! ## 1. What is received -/

/-- The token of the request whose decode slot this is. -/
def tokenAt (slot : Nat) : Nat :=
  T.decodePages.idxOf (slot / T.pageSize) * T.pageSize + slot % T.pageSize

/-- What a transfer to decode rank `e` puts at an address. -/
def sentValue (e : Nat) (kv : KvData) : Buffers := fun i a =>
  kv i (T.tokenAt (a / T.tokenBytes d))
    (sentHead H s d e (a % T.tokenBytes d / T.headBytes)) (a % T.tokenBytes d % T.headBytes)

/-- The address is in one of the request's decode pages. -/
def InPages (i a : Nat) : Prop :=
  i < 2 * T.numLayers ∧ a / T.tokenBytes d / T.pageSize ∈ T.decodePages

instance (i a : Nat) : Decidable (T.InPages i a) := inferInstanceAs (Decidable (_ ∧ _))

/-- The decode buffers after the transfer. -/
def received (e : Nat) (kv : KvData) (old : Buffers) : Buffers := fun i a =>
  if T.InPages i a then T.sentValue e kv i a else old i a

variable {T}

theorem headBytes_pos : 0 < T.headBytes := Nat.mul_pos T.headDim_pos T.dtypeSize_pos

variable {tp : Nat}

theorem tokenBytes_pos : 0 < T.tokenBytes tp :=
  Nat.mul_pos (headsPerRank_pos H tp) headBytes_pos

theorem itemLen_pos : 0 < T.itemLen tp := Nat.mul_pos T.pageSize_pos tokenBytes_pos

variable {t : Nat}

theorem numTokens_div (ht : t < T.numTokens) : t / T.pageSize < T.prefillPages.length :=
  Nat.div_lt_of_lt_mul (by rwa [Nat.mul_comm])

theorem slot_div {pages : List Nat} : T.slot pages t / T.pageSize = pages.getD (t / T.pageSize) 0 :=
  radix_div (Nat.mod_lt _ T.pageSize_pos)

theorem slot_mod {pages : List Nat} : T.slot pages t % T.pageSize = t % T.pageSize :=
  Nat.mul_add_mod_of_lt (Nat.mod_lt _ T.pageSize_pos)

theorem decodePage_mem (ht : t < T.numTokens) :
    T.decodePages.getD (t / T.pageSize) 0 ∈ T.decodePages := by
  have hlt : t / T.pageSize < T.decodePages.length := T.length_eq ▸ numTokens_div ht
  rw [getD_eq_getElem _ _ hlt]
  exact getElem_mem hlt

theorem tokenAt_slot (ht : t < T.numTokens) : T.tokenAt (T.slot T.decodePages t) = t := by
  have hlt : t / T.pageSize < T.decodePages.length := T.length_eq ▸ numTokens_div ht
  rw [tokenAt, slot_div, slot_mod, getD_eq_getElem _ _ hlt, T.decode_nodup.idxOf_getElem]
  exact Nat.div_add_mod' t T.pageSize

variable {a : Nat}

/-- An address in the request's decode pages is a byte of a head of one of its tokens. -/
theorem inPages_cell (h : T.InPages i a) :
    ∃ t < T.numTokens, a / T.tokenBytes d = T.slot T.decodePages t := by
  obtain ⟨_, hmem⟩ := h
  obtain ⟨k, hk, hpage⟩ := mem_iff_getElem.1 hmem
  have hmod : a / T.tokenBytes d % T.pageSize < T.pageSize := Nat.mod_lt _ T.pageSize_pos
  refine ⟨k * T.pageSize + a / T.tokenBytes d % T.pageSize, radix_lt (T.length_eq ▸ hk) hmod, ?_⟩
  rw [slot, radix_div hmod, Nat.mul_add_mod_of_lt hmod, getD_eq_getElem _ _ hk, hpage]
  exact (Nat.div_add_mod' _ _).symm

variable {h b : Nat}

theorem offset_lt (hh : h < headsPerRank H tp) (hb : b < T.headBytes) :
    h * T.headBytes + b < T.tokenBytes tp := radix_lt hh hb

theorem sentValue_cell {kv : KvData} (ht : t < T.numTokens)
    (hh : h < headsPerRank H d) (hb : b < T.headBytes) :
    T.sentValue e kv i (T.slot T.decodePages t * T.tokenBytes d + (h * T.headBytes + b)) =
      kv i t (sentHead H s d e h) b := by
  have hlt := offset_lt (T := T) hh hb
  rw [sentValue, radix_div hlt, Nat.mul_add_mod_of_lt hlt, tokenAt_slot ht, radix_div hb,
    Nat.mul_add_mod_of_lt hb]

theorem inPages_of_cell (hi : i < 2 * T.numLayers) (ht : t < T.numTokens)
    (hh : h < headsPerRank H d) (hb : b < T.headBytes) :
    T.InPages i (T.slot T.decodePages t * T.tokenBytes d + (h * T.headBytes + b)) := by
  refine ⟨hi, ?_⟩
  rw [radix_div (offset_lt hh hb), slot_div]
  exact decodePage_mem ht

/-- **The decode rank holds its own heads** where the heads that are sent are its own. -/
theorem holds_received {kv : KvData} {old : Buffers}
    (hown : ∀ h < headsPerRank H d, sentHead H s d e h = headOf H d e h) :
    T.Holds d e T.decodePages kv (T.received e kv old) := by
  intro i hi t ht h hh b hb
  rw [received, if_pos (inPages_of_cell hi ht hh hb), sentValue_cell ht hh hb, hown h hh]

/-! ## 2. Slices of tokens -/

/-- The write is a slice of one token's heads from a target rank. -/
structure TokenSlice (T : KvTransfer H s d) (e : Nat) (kv : KvData) (w : Write Nat Byte) : Prop where
  slice : ∃ r t start n place, t < T.numTokens ∧ SliceFits H s d e r start n place ∧
    w.start = T.slot T.decodePages t * T.tokenBytes d + place * T.headBytes ∧
    w.length = n * T.headBytes ∧
    ∀ x < n * T.headBytes, w.cell x =
      kv w.buffer t (headOf H s r (start + x / T.headBytes)) (x % T.headBytes)
  layer : w.buffer < 2 * T.numLayers

variable {n : Nat}

theorem slice_offset (T : KvTransfer H s d) (place : Nat) (hx : x < n * T.headBytes) :
    place * T.headBytes + x = (place + x / T.headBytes) * T.headBytes + x % T.headBytes ∧
      x / T.headBytes < n ∧ x % T.headBytes < T.headBytes := by
  refine ⟨?_, Nat.div_lt_of_lt_mul (by rwa [Nat.mul_comm]), Nat.mod_lt _ headBytes_pos⟩
  rw [Nat.add_mul, Nat.add_assoc, Nat.div_add_mod']

theorem TokenSlice.of {kv : KvData} (h : TokenSlice T e kv w) : w.Of (T.sentValue e kv) := by
  obtain ⟨⟨r, t, start, n, place, ht, hfit, hstart, hlen, hcell⟩, _⟩ := h
  intro x hx
  rw [hlen] at hx
  obtain ⟨hoff, hn, hb⟩ := slice_offset T place hx
  have hh : place + x / T.headBytes < headsPerRank H d := by have := hfit.inTarget; omega
  rw [hcell x hx, hstart, Nat.add_assoc, hoff, sentValue_cell ht hh hb, hfit.head _ hn]

theorem TokenSlice.covers {kv : KvData}
    (h : TokenSlice T e kv w) (hc : w.Covers i a) : T.InPages i a := by
  obtain ⟨⟨r, t, start, n, place, ht, hfit, hstart, hlen, _⟩, hlayer⟩ := h
  obtain ⟨rfl, hle, hlt⟩ := hc
  rw [hstart] at hle
  obtain ⟨x, rfl⟩ := Nat.exists_eq_add_of_le hle
  have hx : x < n * T.headBytes := by omega
  obtain ⟨hoff, hn, hb⟩ := slice_offset T place hx
  have hh : place + x / T.headBytes < headsPerRank H d := by have := hfit.inTarget; omega
  rw [Nat.add_assoc, hoff]
  exact inPages_of_cell hlayer ht hh hb

/-- Token slices that reach every head of every token leave `received`, in any order. -/
theorem received_of_slices {kv : KvData} {ws : List (Write Nat Byte)}
    (hslice : ∀ w ∈ ws, TokenSlice T e kv w)
    (hcover : ∀ i < 2 * T.numLayers, ∀ t < T.numTokens, ∀ h < headsPerRank H d,
      ∃ w ∈ ws, w.buffer = i ∧ ∃ n place, place ≤ h ∧ h < place + n ∧
        w.start = T.slot T.decodePages t * T.tokenBytes d + place * T.headBytes ∧
        w.length = n * T.headBytes) (old : Buffers) :
    writeAll old ws = T.received e kv old := by
  funext i a
  refine writeAll_eq (fun w hw => (hslice w hw).of) (fun i a => ?_) old i a
  constructor
  · intro hin
    obtain ⟨t, ht, hslot⟩ := inPages_cell hin
    have hoff : a % T.tokenBytes d < T.tokenBytes d := Nat.mod_lt _ tokenBytes_pos
    have hdiv := Nat.div_add_mod' a (T.tokenBytes d)
    have hh : a % T.tokenBytes d / T.headBytes < headsPerRank H d :=
      Nat.div_lt_of_lt_mul (by rwa [Nat.mul_comm])
    obtain ⟨w, hw, hbuf, n, place, hle, hlt, hstart, hlen⟩ := hcover i hin.1 t ht _ hh
    have hhead := Nat.div_add_mod' (a % T.tokenBytes d) T.headBytes
    have hb : a % T.tokenBytes d % T.headBytes < T.headBytes := Nat.mod_lt _ headBytes_pos
    have hlow := Nat.mul_le_mul_right T.headBytes hle
    have hhigh := radix_lt (w := T.headBytes) hlt hb
    rw [Nat.add_mul] at hhigh
    refine ⟨w, hw, hbuf.symm, ?_, ?_⟩
    · rw [hstart, ← hslot]; omega
    · rw [hstart, ← hslot]; omega
  · rintro ⟨w, hw, hcov⟩
    exact (hslice w hw).covers hcov

theorem holds_slice {start : Nat} {pages : List Nat} {kv : KvData} {mem : Buffers}
    (hmem : T.Holds tp r pages kv mem) (hfit : start + n ≤ headsPerRank H tp)
    (hi : i < 2 * T.numLayers) (ht : t < T.numTokens) (hx : x < n * T.headBytes) :
    mem i (T.slot pages t * T.tokenBytes tp + (start * T.headBytes + x)) =
      kv i t (headOf H tp r (start + x / T.headBytes)) (x % T.headBytes) := by
  obtain ⟨hoff, hn, hb⟩ := slice_offset T start hx
  rw [hoff]
  exact hmem i hi t ht _ (by omega) _ hb

/-! ## 3. The slice path -/

/-- One write of `send_kvcache_slice`. -/
def sliceWrite (T : KvTransfer H s d) (slice : HeadSlice) (mem : Buffers) (i page token : Nat) :
    Write Nat Byte where
  buffer := i
  start := T.decodePages.getD page 0 * T.itemLen d +
    (token * T.tokenBytes d + slice.dstHeadStart * T.headBytes)
  length := slice.numHeadsToSend * T.headBytes
  cell x := mem i (T.prefillPages.getD page 0 * T.itemLen s +
    (token * T.tokenBytes s + slice.srcHeadStart * T.headBytes) + x)

theorem itemLen_div : T.itemLen tp / T.pageSize = T.tokenBytes tp :=
  Nat.mul_div_cancel_left _ T.pageSize_pos

theorem kvItemLens_length : 2 * ((T.kvArgs tp R).kvItemLens.length / 2) = 2 * T.numLayers := by
  rw [kvArgs, length_replicate, Nat.mul_div_cancel_left _ (by omega)]

theorem kvItemLens_getD (hi : i < 2 * T.numLayers) :
    (T.kvArgs tp R).kvItemLens.getD i 0 = T.itemLen tp := by
  rw [kvArgs, getD_eq_getElem _ _ (by rwa [length_replicate]), getElem_replicate]

theorem sendKvcacheSlice_eq {E : Nat} (hH : 0 < H) (mem : Buffers)
    (hfit : (computeHeadSliceParams s d R E H).numHeadsToSend ≤ headsPerRank H d) :
    sendKvcacheSlice (T.kvArgs s R) s mem T.prefillPages T.decodePages E d (T.itemLen d) =
      some ((List.range (2 * T.numLayers)).flatMap fun i =>
        rowMajor T.prefillPages.length T.pageSize
          (T.sliceWrite (computeHeadSliceParams s d R E H) mem i)) := by
  have hhead : (T.kvArgs s R).kvItemLens.headD 0 = T.itemLen s := by
    have hpos := T.numLayers_pos
    have hfirst : (T.kvArgs s R).kvItemLens.getD 0 0 = T.itemLen s := kvItemLens_getD (by omega)
    rw [← hfirst, headD_eq_getD]
  have hbytes : T.tokenBytes d / max 1 (H / d) = T.headBytes :=
    Nat.mul_div_cancel_left _ (headsPerRank_pos H d)
  have hle : ¬ (computeHeadSliceParams s d R E H).numHeadsToSend * T.headBytes > T.tokenBytes d :=
    Nat.not_lt.2 (Nat.mul_le_mul_right _ hfit)
  have hslice : (if s > d then
        (⟨0, max 1 (H / s), (R % s / max 1 (s / H) * max 1 (H / s)) % max 1 (H / d)⟩ : HeadSlice)
      else ⟨(E % d * max 1 (H / d)) % max 1 (H / s), max 1 (H / d), 0⟩) =
      computeHeadSliceParams s d R E H := rfl
  rw [sendKvcacheSlice]
  simp only [kvItemLens_length, hhead]
  simp only [kvArgs, Nat.not_le.2 hH, if_false, itemLen_div, hbytes, hslice, hle]
  rfl

/-- The page base and token offset of the slice path are the slot of the token. -/
theorem slot_address {page token off : Nat} {pages : List Nat} (htok : token < T.pageSize) :
    pages.getD page 0 * T.itemLen tp + (token * T.tokenBytes tp + off) =
      T.slot pages (page * T.pageSize + token) * T.tokenBytes tp + off := by
  rw [slot, radix_div htok, Nat.mul_add_mod_of_lt htok, itemLen]
  ring

theorem sliceWrite_tokenSlice {page token : Nat} {kv : KvData} {mem : Buffers}
    {slice : HeadSlice} (hmem : T.Holds s r T.prefillPages kv mem)
    (hfit : SliceFits H s d e r slice.srcHeadStart slice.numHeadsToSend slice.dstHeadStart)
    (hi : i < 2 * T.numLayers) (hpage : page < T.prefillPages.length) (htok : token < T.pageSize) :
    TokenSlice T e kv (T.sliceWrite slice mem i page token) := by
  have ht : page * T.pageSize + token < T.numTokens := radix_lt hpage htok
  refine ⟨⟨r, _, _, _, _, ht, hfit, slot_address htok, rfl, fun x hx => ?_⟩, hi⟩
  change mem i _ = _
  rw [slot_address htok, Nat.add_assoc, holds_slice hmem hfit.inSource hi ht hx]
  rfl

end KvTransfer

/-! ## 4. All ranks that serve a decode rank -/

/-- The prefill ranks that serve decode rank `engineRank`, what they hold, and the engine ranks
under which they run. -/
structure Senders (H s d : Nat) (T : KvTransfer H s d) (engineRank : Nat) (kv : KvData) where
  mem : Nat → Buffers
  engine : Nat → Nat
  engine_mod : ∀ r ∈ targetTpRanks d s engineRank, engine r % s = r
  holds : ∀ r ∈ targetTpRanks d s engineRank, T.Holds s r T.prefillPages kv (mem r)

namespace Senders

variable {H s d E : Nat} {T : KvTransfer H s d} {kv : KvData} (S : Senders H s d T E kv)

/-- What `send` of each rank returns arrives in some order. -/
def Arrive {κ : Type} (_ : Senders H s d T E kv) (send : Nat → Option (List (Write κ Byte)))
    (arrived : List (Write κ Byte)) : Prop :=
  ∃ sent : Nat → List (Write κ Byte), (∀ r ∈ targetTpRanks d s E, send r = some (sent r)) ∧
    arrived.Perm ((targetTpRanks d s E).flatMap sent)

def slices (r : Nat) : Option (List (Write Nat Byte)) :=
  sendKvcacheSlice (T.kvArgs s (S.engine r)) s (S.mem r) T.prefillPages T.decodePages E d
    (T.itemLen d)

def transfer (r : Nat) : Option (List (Write Nat Byte)) :=
  transferKv (T.kvArgs s (S.engine r)) s (S.mem r) T.prefillPages T.decodePages E d (T.itemLen d)

theorem slices_eq (hshape : Shape H s d) (hH : 0 < H) (hr : r ∈ targetTpRanks d s E) :
    S.slices r = some ((List.range (2 * T.numLayers)).flatMap fun i =>
      rowMajor T.prefillPages.length T.pageSize
        (T.sliceWrite (computeHeadSliceParams s d (S.engine r) E H) (S.mem r) i)) := by
  have hfit := (slice_fits hshape hr (S.engine_mod r hr)).inTarget
  exact KvTransfer.sendKvcacheSlice_eq hH _ (by omega)

/-- **The slices of all ranks leave `received`**, in whichever order they arrive. -/
theorem slices_received (hshape : Shape H s d) (hH : 0 < H) {arrived : List (Write Nat Byte)}
    (harr : S.Arrive S.slices arrived) (old : Buffers) :
    writeAll old arrived = T.received (E % d) kv old := by
  obtain ⟨sent, hsent, hperm⟩ := harr
  have heq : ∀ r ∈ targetTpRanks d s E, sent r = (List.range (2 * T.numLayers)).flatMap fun i =>
        rowMajor T.prefillPages.length T.pageSize
          (T.sliceWrite (computeHeadSliceParams s d (S.engine r) E H) (S.mem r) i) := fun r hr =>
    Option.some.inj ((hsent r hr).symm.trans (S.slices_eq hshape hH hr))
  refine KvTransfer.received_of_slices (fun w hw => ?_) (fun i hi t ht h hh => ?_) old
  · obtain ⟨r, hr, hw⟩ := mem_flatMap.1 (hperm.mem_iff.1 hw)
    rw [heq r hr] at hw
    obtain ⟨i, hi, hw⟩ := mem_flatMap.1 hw
    obtain ⟨page, hpage, token, htok, rfl⟩ := mem_rowMajor.1 hw
    exact KvTransfer.sliceWrite_tokenSlice (S.holds r hr)
      (slice_fits hshape hr (S.engine_mod r hr)) (mem_range.1 hi) hpage htok
  · obtain ⟨r, hr, hin⟩ := slice_covers (E := E) hshape hh
    have htok : t % T.pageSize < T.pageSize := Nat.mod_lt _ T.pageSize_pos
    refine ⟨T.sliceWrite (computeHeadSliceParams s d (S.engine r) E H) (S.mem r) i
      (t / T.pageSize) (t % T.pageSize), hperm.mem_iff.2 (mem_flatMap.2 ⟨r, hr, ?_⟩), rfl,
      _, _, (hin _ (S.engine_mod r hr)).1, (hin _ (S.engine_mod r hr)).2, ?_, rfl⟩
    · rw [heq r hr]
      exact mem_flatMap.2 ⟨i, mem_range.2 hi,
        mem_rowMajor.2 ⟨_, KvTransfer.numTokens_div ht, _, htok, rfl⟩⟩
    · exact (KvTransfer.slot_address htok).trans (by rw [Nat.div_add_mod'])

end Senders

/-! ## 5. Groups of one size -/

section EqualSizes

theorem run_getElem {run : List (Nat × Nat)}
    (h : run.IsChain fun p q => (q.1 == p.1 + 1 && q.2 == p.2 + 1) = true) (hne : 0 < run.length) :
    ∀ j (hj : j < run.length), run[j] = (run[0].1 + j, run[0].2 + j) := by
  intro j hj
  induction j with
  | zero => rfl
  | succ j ih =>
    have hstep := isChain_iff_getElem.1 h j hj
    simp only [Bool.and_eq_true, beq_iff_eq, ih (by omega)] at hstep
    exact Prod.ext hstep.1 hstep.2

variable {H d E : Nat} {T : KvTransfer H d d} {kv : KvData}

/-- Pages of equal layout: a byte of a prefill page is what belongs there in the decode page. -/
theorem page_sent {k y : Nat} {mem : Buffers}
    (hown : ∀ h < headsPerRank H d, sentHead H d d e h = headOf H d e h)
    (hmem : T.Holds d e T.prefillPages kv mem) (hi : i < 2 * T.numLayers)
    (hk : k < T.prefillPages.length) (hy : y < T.itemLen d) :
    mem i (T.prefillPages.getD k 0 * T.itemLen d + y) =
        T.sentValue e kv i (T.decodePages.getD k 0 * T.itemLen d + y) ∧
      T.InPages i (T.decodePages.getD k 0 * T.itemLen d + y) := by
  have htok : y / T.tokenBytes d < T.pageSize :=
    Nat.div_lt_of_lt_mul (by rwa [Nat.mul_comm])
  have hoff : y % T.tokenBytes d < T.tokenBytes d := Nat.mod_lt _ KvTransfer.tokenBytes_pos
  have hh : y % T.tokenBytes d / T.headBytes < headsPerRank H d :=
    Nat.div_lt_of_lt_mul (by rwa [Nat.mul_comm])
  have hb : y % T.tokenBytes d % T.headBytes < T.headBytes := Nat.mod_lt _ KvTransfer.headBytes_pos
  have ht : k * T.pageSize + y / T.tokenBytes d < T.numTokens := radix_lt hk htok
  have hyeq : y = y / T.tokenBytes d * T.tokenBytes d +
      (y % T.tokenBytes d / T.headBytes * T.headBytes + y % T.tokenBytes d % T.headBytes) := by
    rw [Nat.div_add_mod', Nat.div_add_mod']
  rw [hyeq, KvTransfer.slot_address htok, KvTransfer.slot_address htok,
    KvTransfer.sentValue_cell ht hh hb, hown _ hh]
  exact ⟨hmem i hi _ ht _ hh _ hb, KvTransfer.inPages_of_cell hi ht hh hb⟩

variable (S : Senders H d d T E kv)

/-- The runs of pages that are sent. -/
def KvTransfer.runs (T : KvTransfer H d d) : List (List (Nat × Nat)) :=
  (T.prefillPages.zip T.decodePages).splitBy fun p q => q.1 == p.1 + 1 && q.2 == p.2 + 1

variable {j : Nat}

theorem run_page {run : List (Nat × Nat)} (hrun : run ∈ T.runs) (hj : j < run.length) :
    ∃ k < T.prefillPages.length, run[j] = (T.prefillPages.getD k 0, T.decodePages.getD k 0) := by
  have hmem : run[j] ∈ T.prefillPages.zip T.decodePages := by
    rw [← flatten_splitBy (fun p q => q.1 == p.1 + 1 && q.2 == p.2 + 1)
      (T.prefillPages.zip T.decodePages)]
    exact mem_flatten.2 ⟨run, hrun, getElem_mem hj⟩
  obtain ⟨k, hk, hpair⟩ := mem_iff_getElem.1 hmem
  rw [length_zip] at hk
  refine ⟨k, by omega, ?_⟩
  rw [← hpair, getElem_zip, getD_eq_getElem _ _ (by omega), getD_eq_getElem _ _ (by omega)]

/-- One write of `send_kvcache`. -/
def KvTransfer.runWrite (T : KvTransfer H d d) (mem : Buffers) (i : Nat)
    (run : List (Nat × Nat)) : Write Nat Byte where
  buffer := i
  start := (run.map Prod.snd).headD 0 * T.itemLen d
  length := T.itemLen d * run.length
  cell x := mem i ((run.map Prod.fst).headD 0 * T.itemLen d + x)

theorem sendKvcache_mem {mem : Buffers} :
    w ∈ sendKvcache (T.kvArgs d R) mem T.prefillPages T.decodePages ↔
      ∃ i < 2 * T.numLayers, ∃ run ∈ T.runs, w = T.runWrite mem i run := by
  rw [sendKvcache]
  simp only [groupConcurrentContiguous, zip_map', KvTransfer.kvItemLens_length,
    mem_flatMap, mem_range, mem_map, map_map, Function.comp_def]
  constructor
  · rintro ⟨i, hi, run, hrun, rfl⟩
    rw [KvTransfer.kvItemLens_getD hi]
    exact ⟨i, hi, run, hrun, by simp [KvTransfer.runWrite]⟩
  · rintro ⟨i, hi, run, hrun, rfl⟩
    refine ⟨i, hi, run, hrun, ?_⟩
    rw [KvTransfer.kvItemLens_getD hi]
    simp [KvTransfer.runWrite]

/-- Each page of a run lies in it: the bytes of `run[j]` are at `j * itemLen`. -/
theorem run_offset {run : List (Nat × Nat)} (hrun : run ∈ T.runs) (hj : j < run.length) :
    ∃ k < T.prefillPages.length, T.prefillPages.getD k 0 = (run.map Prod.fst).headD 0 + j ∧
      T.decodePages.getD k 0 = (run.map Prod.snd).headD 0 + j := by
  obtain ⟨k, hk, hpair⟩ := run_page hrun hj
  have hnext := run_getElem (isChain_of_mem_splitBy hrun) (by omega) j hj
  have hheads : (run.map Prod.fst).headD 0 = run[0].1 ∧ (run.map Prod.snd).headD 0 = run[0].2 := by
    cases run with
    | nil => exact absurd hj (Nat.not_lt_zero _)
    | cons p run => exact ⟨rfl, rfl⟩
  rw [hheads.1, hheads.2]
  rw [hnext] at hpair
  exact ⟨k, hk, (congrArg Prod.fst hpair).symm, (congrArg Prod.snd hpair).symm⟩

theorem runWrite_byte {run : List (Nat × Nat)} {mem : Buffers}
    (hown : ∀ h < headsPerRank H d, sentHead H d d (E % d) h = headOf H d (E % d) h)
    (hmem : T.Holds d (E % d) T.prefillPages kv mem) (hi : i < 2 * T.numLayers)
    (hrun : run ∈ T.runs) (hx : x < (T.runWrite mem i run).length) :
    (T.runWrite mem i run).cell x = T.sentValue (E % d) kv i ((T.runWrite mem i run).start + x) ∧
      T.InPages i ((T.runWrite mem i run).start + x) := by
  have hj : x / T.itemLen d < run.length := Nat.div_lt_of_lt_mul hx
  have hy : x % T.itemLen d < T.itemLen d := Nat.mod_lt _ KvTransfer.itemLen_pos
  have hdiv := Nat.div_add_mod' x (T.itemLen d)
  obtain ⟨k, hk, hsrc, hdst⟩ := run_offset hrun hj
  have hpage := page_sent hown hmem hi hk hy
  rw [hsrc, hdst, Nat.add_mul, Nat.add_mul, Nat.add_assoc, Nat.add_assoc, hdiv] at hpage
  exact hpage

/-- **Whole pages leave `received`** between groups of one size. -/
theorem pages_received
    (hown : ∀ h < headsPerRank H d, sentHead H d d (E % d) h = headOf H d (E % d) h)
    {arrived : List (Write Nat Byte)} (harr : S.Arrive S.transfer arrived) (old : Buffers) :
    writeAll old arrived = T.received (E % d) kv old := by
  have htargets : targetTpRanks d d E = [E % d] := by rw [targetTpRanks, if_pos rfl]
  have hr : E % d ∈ targetTpRanks d d E := by rw [htargets]; exact mem_singleton_self _
  have hmem := S.holds _ hr
  obtain ⟨sent, hsent, hperm⟩ := harr
  have hsent' := hsent _ hr
  rw [Senders.transfer, transferKv, if_pos rfl] at hsent'
  rw [htargets, flatMap_singleton, ← Option.some.inj hsent'] at hperm
  have hall : ∀ w, w ∈ arrived ↔ ∃ i < 2 * T.numLayers, ∃ run ∈ T.runs,
      w = T.runWrite (S.mem (E % d)) i run := fun w => hperm.mem_iff.trans sendKvcache_mem
  funext i a
  refine writeAll_eq (fun w hw => ?_) (fun i a => ?_) old i a
  · obtain ⟨i, hi, run, hrun, rfl⟩ := (hall w).1 hw
    exact fun x hx => (runWrite_byte hown hmem hi hrun hx).1
  constructor
  · rintro ⟨hi, hpage⟩
    obtain ⟨k, hk, hdst⟩ := mem_iff_getElem.1 hpage
    have hpair : (T.prefillPages.getD k 0, T.decodePages.getD k 0) ∈ T.runs.flatten := by
      rw [KvTransfer.runs, flatten_splitBy]
      have hlen : k < (T.prefillPages.zip T.decodePages).length := by
        rw [length_zip, T.length_eq]; omega
      rw [getD_eq_getElem _ _ (T.length_eq ▸ hk), getD_eq_getElem _ _ hk, ← getElem_zip (h := hlen)]
      exact getElem_mem hlen
    obtain ⟨run, hrun, hin⟩ := mem_flatten.1 hpair
    obtain ⟨j, hj, hrunj⟩ := mem_iff_getElem.1 hin
    have hnext := run_getElem (isChain_of_mem_splitBy hrun) (by omega) j hj
    have hhead : (run.map Prod.snd).headD 0 = run[0].2 := by
      cases run with
      | nil => exact absurd hj (Nat.not_lt_zero _)
      | cons p run => rfl
    have hdstj : a / T.tokenBytes d / T.pageSize = (run.map Prod.snd).headD 0 + j := by
      rw [hhead, ← hdst, ← getD_eq_getElem _ 0 hk]
      exact (congrArg Prod.snd hrunj).symm.trans (congrArg Prod.snd hnext)
    refine ⟨_, (hall _).2 ⟨i, hi, run, hrun, rfl⟩, rfl, ?_⟩
    have hdiv : a / T.itemLen d = (run.map Prod.snd).headD 0 + j := by
      rw [← hdstj, Nat.div_div_eq_div_mul, KvTransfer.itemLen, Nat.mul_comm]
    have ha := Nat.div_add_mod' a (T.itemLen d)
    have hy : a % T.itemLen d < T.itemLen d := Nat.mod_lt _ KvTransfer.itemLen_pos
    have hlt := radix_lt hj hy
    rw [hdiv, Nat.add_mul] at ha
    simp only [KvTransfer.runWrite]
    rw [Nat.mul_comm (T.itemLen d) run.length]
    constructor <;> omega
  · rintro ⟨w, hw, hcov⟩
    obtain ⟨i', hi, run, hrun, rfl⟩ := (hall w).1 hw
    obtain ⟨hi', hle, hlt⟩ := hcov
    obtain ⟨x, rfl⟩ := Nat.exists_eq_add_of_le hle
    obtain rfl : i = i' := hi'
    exact (runWrite_byte hown hmem hi hrun (by omega)).2

end EqualSizes

end Sglang.Disaggregation
