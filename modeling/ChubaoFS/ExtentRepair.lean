import ChubaoFS.BlockCrc

namespace ChubaoFS

open List Nat
open Option (some)

open Bytes

/-! The copy of the end of an extent from the replica that has more of it: the source sends blocks,
and the replica that is repaired writes them behind what it has. The checksum function is a
parameter. -/

structure RepairExtent where
  isTiny : Bool
  file : Bytes
  dataSize : Nat
  sized : isTiny = false → dataSize = file.length
  paged : isTiny = true → dataSize % pageSize = 0

namespace RepairExtent

def byte (e : RepairExtent) (i : Nat) : UInt8 := e.file.getD i 0

/-- `Read` into the buffer `data`, for a repair. A tiny extent may end before the buffer does. -/
def read (e : RepairExtent) (offset : Nat) (data : Bytes) : Option Bytes :=
  let got := (e.file.drop offset).take data.length
  if e.isTiny then some (got ++ data.drop got.length)
  else if NormalExtent.checkOffsetAndSize offset data.length && got.length == data.length then
    some got
  else none

def writeTiny (e : RepairExtent) (data : Bytes) (offset : Nat) : Option RepairExtent :=
  if maxUint32 ≤ offset + data.length then none
  else some {
    isTiny := true
    file := writeAt e.file data offset
    dataSize := roundUp (offset + data.length)
    sized := nofun
    paged := fun _ => by
      unfold roundUp pageSize
      split <;> omega }

def writeNormal (e : RepairExtent) (data : Bytes) (offset : Nat) (h : e.isTiny = false) :
    Option RepairExtent :=
  if NormalExtent.checkOffsetAndSize offset data.length then some {
    isTiny := false
    file := writeAt e.file data offset
    dataSize := max e.dataSize (offset + data.length)
    sized := fun _ => by rw [length_writeAt, e.sized h]
    paged := nofun }
  else none

/-- `none` stands for an error. -/
def write (e : RepairExtent) (data : Bytes) (offset : Nat) : Option RepairExtent :=
  if h : e.isTiny = true then e.writeTiny data offset
  else e.writeNormal data offset (Bool.eq_false_of_not_eq_true h)

end RepairExtent

structure RepairReply where
  extentOffset : Nat
  data : Bytes
  crc : UInt32

def replyBuffer (pooled : Nat → UInt8) (size : Nat) : Bytes :=
  if size = blockSize then (List.range size).map pooled else List.replicate size 0

/-- The loop of `handleExtentRepaiReadPacket`; the `k`-th packet uses the `k`-th buffer, and `none`
is a packet that tells of an error. -/
def serveRepair (crc : Bytes → UInt32) (source : RepairExtent) (pooled : Nat → Nat → UInt8) :
    Nat → Nat → Nat → Nat → List (Option RepairReply)
  | 0, _, _, _ => []
  | fuel + 1, k, offset, needReplySize =>
    if needReplySize = 0 then []
    else
      let currReadSize := min needReplySize blockSize
      match source.read offset (replyBuffer (pooled k) currReadSize) with
      | none => [none]
      | some data => some ⟨offset, data, crc data⟩ ::
          serveRepair crc source pooled fuel (k + 1) (offset + currReadSize)
            (needReplySize - currReadSize)

/-- The loop of `streamRepairExtent`. The connection fails when there are no more packets. -/
def receiveRepair (crc : Bytes → UInt32) (size : Nat) :
    List (Option RepairReply) → RepairExtent → Nat → RepairExtent × Bool
  | replies, e, currFixOffset =>
    if size ≤ currFixOffset then (e, true)
    else
      match replies with
      | [] => (e, false)
      | none :: _ => (e, false)
      | some reply :: replies =>
        if reply.data = [] ∨ reply.extentOffset ≠ currFixOffset ∨ reply.crc ≠ crc reply.data then
          (e, false)
        else
          match e.write reply.data currFixOffset with
          | none => (e, false)
          | some e => receiveRepair crc size replies e (currFixOffset + reply.data.length)

/-- The size of a request is a `uint32`. -/
def requestSize (e source : RepairExtent) : Nat := (source.dataSize - e.dataSize) % 2 ^ 32

/-- `packets` is the number of packets that get through before the transfer fails, and the result
tells whether it was completed. -/
def streamRepairExtent (crc : Bytes → UInt32) (pooled : Nat → Nat → UInt8) (packets : Nat)
    (e source : RepairExtent) : RepairExtent × Bool :=
  if source.dataSize ≤ e.dataSize then (e, true)
  else
    let request := requestSize e source
    receiveRepair crc source.dataSize
      ((serveRepair crc source pooled request 0 e.dataSize request).take packets) e e.dataSize

/-! What the source sends. -/

/-- The byte that is sent for position `i`, by the transfer of `request` bytes from `start` on. -/
def sentByte (source : RepairExtent) (pooled : Nat → Nat → UInt8) (start request i : Nat) : UInt8 :=
  if i < source.file.length then source.byte i
  else if ((i - start) / blockSize + 1) * blockSize ≤ request then
    pooled ((i - start) / blockSize) ((i - start) % blockSize)
  else 0

@[simp] theorem length_replyBuffer (pooled : Nat → UInt8) (size : Nat) :
    (replyBuffer pooled size).length = size := by
  unfold replyBuffer
  split <;> simp

theorem getD_replyBuffer {pooled : Nat → UInt8} {size j : Nat} (h : j < size) :
    (replyBuffer pooled size).getD j 0 = if size = blockSize then pooled j else 0 := by
  have hlen : j < (replyBuffer pooled size).length := by rwa [length_replyBuffer]
  rw [getD_eq_getElem _ _ hlen]
  unfold replyBuffer
  split
  · simp
  · simp

namespace RepairExtent

variable {e e' : RepairExtent} {offset : Nat} {data buffer : Bytes}

theorem read_eq_some (h : e.read offset buffer = some data) :
    data.length = buffer.length ∧ ∀ j < buffer.length, data.getD j 0 =
      if offset + j < e.file.length then e.byte (offset + j) else buffer.getD j 0 := by
  have hgot : ((e.file.drop offset).take buffer.length).length =
      min buffer.length (e.file.length - offset) := by
    rw [length_take, length_drop]
  have hbyte : ∀ j, offset + j < e.file.length → j < buffer.length →
      ((e.file.drop offset).take buffer.length).getD j 0 = e.byte (offset + j) := by
    intro j hj hb
    unfold byte
    rw [getD_eq_getElem?_getD, getD_eq_getElem?_getD, getElem?_take_of_lt hb, getElem?_drop]
  unfold read at h
  dsimp only at h
  split at h
  · obtain rfl := some.inj h
    refine ⟨by rw [length_append, length_drop, hgot]; omega, fun j hj => ?_⟩
    split
    next hin => rw [getD_append _ _ _ _ (by omega), hbyte j hin hj]
    rename_i hout
    rw [getD_append_right _ _ _ _ (by omega), getD_eq_getElem?_getD,
      getElem?_drop, ← getD_eq_getElem?_getD]
    congr 1
    omega
  split at h
  next hcheck =>
    obtain rfl := some.inj h
    have hlen := eq_of_beq (Bool.and_eq_true_iff.mp hcheck).2
    refine ⟨hlen, fun j hj => ?_⟩
    rw [if_pos (by omega), hbyte j (by omega) hj]
  · cases h

theorem write_eq_some (hend : e.dataSize = offset)
    (hpage : e.isTiny = true → (offset + data.length) % pageSize = 0)
    (h : e.write data offset = some e') :
    e'.isTiny = e.isTiny ∧ e'.dataSize = offset + data.length ∧
      e'.file = writeAt e.file data offset ∧
      (e.isTiny = true → offset + data.length < maxUint32) := by
  unfold write at h
  split at h
  next htiny =>
    unfold writeTiny at h
    split at h
    · cases h
    next hlt =>
      obtain rfl := some.inj h
      exact ⟨htiny.symm, if_neg (not_not_intro (hpage htiny)), rfl, fun _ => Nat.lt_of_not_le hlt⟩
  rename_i htiny
  unfold writeNormal at h
  split at h
  · obtain rfl := some.inj h
    refine ⟨(Bool.eq_false_of_not_eq_true htiny).symm, ?_, rfl, fun h => absurd h htiny⟩
    dsimp only
    omega
  · cases h

theorem write_ne_none (htiny : e.isTiny = true) (hlt : offset + data.length < maxUint32) :
    e.write data offset ≠ none := by
  unfold write writeTiny
  rw [dif_pos htiny, if_neg (not_le.mpr hlt)]
  nofun

theorem read_ne_none (htiny : e.isTiny = true) : e.read offset buffer ≠ none := by
  unfold read
  dsimp only
  rw [if_pos htiny]
  nofun

end RepairExtent

variable {source : RepairExtent} {data : Bytes}

theorem getD_packet {pooled : Nat → Nat → UInt8} {start request k size : Nat}
    (hk : k * blockSize < request) (hsize : size = min (request - k * blockSize) blockSize)
    (hread : source.read (start + k * blockSize) (replyBuffer (pooled k) size) = some data) :
    data.length = size ∧ ∀ j < size,
      data.getD j 0 = sentByte source pooled start request (start + k * blockSize + j) := by
  obtain ⟨hlen, hget⟩ := RepairExtent.read_eq_some hread
  rw [length_replyBuffer] at hlen hget
  refine ⟨hlen, fun j hj => ?_⟩
  have hblock : j < blockSize := by omega
  have hsub : start + k * blockSize + j - start = j + blockSize * k := by
    rw [mul_comm]
    omega
  have hdiv : (start + k * blockSize + j - start) / blockSize = k := by
    rw [hsub, add_mul_div_left _ _ (by decide), div_eq_of_lt hblock, zero_add]
  have hmod : (start + k * blockSize + j - start) % blockSize = j := by
    rw [hsub, add_mul_mod_self_left, mod_eq_of_lt hblock]
  rw [hget j hj, getD_replyBuffer hj]
  unfold sentByte
  rw [hdiv, hmod]
  split
  · rfl
  have hiff : size = blockSize ↔ (k + 1) * blockSize ≤ request := by
    rw [add_mul, one_mul]
    omega
  simp only [hiff]

/-- What `packets` packets from the packet number `k` on do to an extent. -/
structure Received (source : RepairExtent) (pooled : Nat → Nat → UInt8)
    (start request k packets : Nat) (e : RepairExtent) (result : RepairExtent × Bool) : Prop where
  isTiny : result.1.isTiny = e.isTiny
  start_le : start + k * blockSize ≤ result.1.dataSize
  le_end : result.1.dataSize ≤ start + request
  byte : ∀ i, result.1.byte i =
    if start + k * blockSize ≤ i ∧ i < result.1.dataSize then
      sentByte source pooled start request i
    else e.byte i
  completed : result.2 = true ↔ source.dataSize ≤ result.1.dataSize
  le_packets : result.1.dataSize ≤ start + (k + packets) * blockSize
  boundary : result.1.dataSize = start + request ∨ ∃ m, result.1.dataSize = start + m * blockSize
  fits : e.isTiny = true → start + k * blockSize < result.1.dataSize → result.1.dataSize < maxUint32
  reached : e.isTiny = true → ∀ j, k < j → j ≤ k + packets → j * blockSize ≤ request →
    start + j * blockSize < maxUint32 → start + j * blockSize ≤ result.1.dataSize

namespace Received

variable {source : RepairExtent} {pooled : Nat → Nat → UInt8} {start request k packets : Nat}
  {e e' : RepairExtent} {data : Bytes} {result : RepairExtent × Bool}

theorem of_stop {ok : Bool} (hsize : e.dataSize = start + k * blockSize)
    (hk : k * blockSize ≤ request) (hok : ok = true ↔ source.dataSize ≤ e.dataSize)
    (hreached : e.isTiny = true → ∀ j, k < j → j ≤ k + packets → j * blockSize ≤ request →
      ¬ start + j * blockSize < maxUint32) :
    Received source pooled start request k packets e (e, ok) where
  isTiny := rfl
  start_le := le_of_eq hsize.symm
  le_end := by
    dsimp only
    omega
  byte i := (if_neg fun h => by
    dsimp only at h
    omega).symm
  completed := hok
  le_packets := by
    dsimp only
    rw [hsize, add_mul]
    omega
  boundary := .inr ⟨k, hsize⟩
  fits _ hlt := absurd hsize (ne_of_gt hlt)
  reached htiny j hj hp hr hlt := absurd hlt (hreached htiny j hj hp hr)

section

variable (hfile : e'.file = writeAt e.file data (start + k * blockSize))
include hfile

theorem byte_write (hdata : ∀ j < data.length,
      data.getD j 0 = sentByte source pooled start request (start + k * blockSize + j)) (i : Nat) :
    e'.byte i = if start + k * blockSize ≤ i ∧ i < start + k * blockSize + data.length then
        sentByte source pooled start request i else e.byte i := by
  unfold RepairExtent.byte
  rw [hfile, getD_writeAt]
  split
  next h =>
    rw [hdata _ (by omega)]
    congr 1
    omega
  · rfl

theorem of_block (htiny : e'.isTiny = e.isTiny) (hlen : data.length = blockSize)
    (hdata : ∀ j < data.length,
      data.getD j 0 = sentByte source pooled start request (start + k * blockSize + j))
    (hfits : e.isTiny = true → start + k * blockSize + data.length < maxUint32)
    (h : Received source pooled start request (k + 1) packets e' result) :
    Received source pooled start request k (packets + 1) e result := by
  have hnext : start + (k + 1) * blockSize = start + k * blockSize + blockSize := by
    rw [add_mul, one_mul, add_assoc]
  have hstart := h.start_le
  refine ⟨h.isTiny.trans htiny, by omega, h.le_end, fun i => ?_, h.completed, ?_, h.boundary,
    fun ht _ => ?_, fun ht j hj hp hr hlt => ?_⟩
  · rw [h.byte i, byte_write hfile hdata i, hlen]
    by_cases hi : start + (k + 1) * blockSize ≤ i ∧ i < result.1.dataSize
    · rw [if_pos hi, if_pos ⟨by omega, hi.2⟩]
    rw [if_neg hi]
    congr 1
    rw [eq_iff_iff]
    omega
  · have hle := h.le_packets
    rwa [add_right_comm k 1 packets] at hle
  · by_cases hlt : start + (k + 1) * blockSize < result.1.dataSize
    · exact h.fits (htiny.trans ht) hlt
    · have := hfits ht
      omega
  · by_cases hj' : j = k + 1
    · rw [hj']
      exact hstart
    · exact h.reached (htiny.trans ht) j (by omega) (by omega) hr hlt

end

theorem of_rest (hsize : e'.dataSize = start + k * blockSize + data.length)
    (hfile : e'.file = writeAt e.file data (start + k * blockSize))
    (htiny : e'.isTiny = e.isTiny) (hk : k * blockSize ≤ request)
    (hlen : data.length = request - k * blockSize) (hblock : data.length ≤ blockSize)
    (hdata : ∀ j < data.length,
      data.getD j 0 = sentByte source pooled start request (start + k * blockSize + j))
    (hfits : e.isTiny = true → start + k * blockSize + data.length < maxUint32) :
    Received source pooled start request k (packets + 1) e
      (e', decide (source.dataSize ≤ e'.dataSize)) where
  isTiny := htiny
  start_le := by
    dsimp only
    omega
  le_end := by
    dsimp only
    omega
  byte i := by
    dsimp only
    rw [byte_write hfile hdata i, hsize]
  completed := decide_eq_true_iff
  le_packets := by
    have hle : (k + 1) * blockSize ≤ (k + (packets + 1)) * blockSize :=
      mul_le_mul_right _ (by omega)
    rw [add_mul, one_mul] at hle
    dsimp only
    omega
  boundary := .inl (by
    dsimp only
    omega)
  fits ht _ := by
    have := hfits ht
    dsimp only
    omega
  reached _ j _ _ hr _ := by
    dsimp only
    omega

end Received

theorem receiveRepair_nil (crc : Bytes → UInt32) (size : Nat) (e : RepairExtent)
    (currFixOffset : Nat) :
    receiveRepair crc size [] e currFixOffset = (e, decide (size ≤ currFixOffset)) := by
  rw [receiveRepair.eq_def]
  dsimp only
  split
  next h => rw [decide_eq_true h]
  next h => rw [decide_eq_false h]

section

variable (replies : List (Option RepairReply)) {crc : Bytes → UInt32} {currFixOffset size : Nat}
  {e : RepairExtent}

theorem receiveRepair_none (hlt : currFixOffset < size) :
    receiveRepair crc size (none :: replies) e currFixOffset = (e, false) := by
  rw [receiveRepair.eq_def]
  dsimp only
  rw [if_neg (not_le.mpr hlt)]

theorem receiveRepair_cons (hlt : currFixOffset < size) (hdata : 0 < data.length) :
    receiveRepair crc size (some ⟨currFixOffset, data, crc data⟩ :: replies) e currFixOffset =
      match e.write data currFixOffset with
      | none => (e, false)
      | some e => receiveRepair crc size replies e (currFixOffset + data.length) := by
  have hok : ¬ (data = [] ∨ currFixOffset ≠ currFixOffset ∨ crc data ≠ crc data) := by
    rintro (h | h | h)
    · exact absurd hdata (by simp [h])
    · exact h rfl
    · exact h rfl
  rw [receiveRepair.eq_def]
  dsimp only
  rw [if_neg (not_le.mpr hlt), if_neg hok]

end

theorem serveRepair_zero (crc : Bytes → UInt32) (source : RepairExtent)
    (pooled : Nat → Nat → UInt8) (fuel k offset : Nat) :
    serveRepair crc source pooled fuel k offset 0 = [] := by
  cases fuel <;> rfl

theorem received_packets (crc : Bytes → UInt32) (pooled : Nat → Nat → UInt8) {start request : Nat}
    (hend : start + request ≤ source.dataSize) :
    ∀ (fuel k packets : Nat) (e : RepairExtent), e.isTiny = source.isTiny →
      (e.isTiny = true → start % pageSize = 0 ∧ request % pageSize = 0) →
      e.dataSize = start + k * blockSize → k * blockSize ≤ request →
      request - k * blockSize ≤ fuel → Received source pooled start request k packets e
        (receiveRepair crc source.dataSize
          ((serveRepair crc source pooled fuel k (start + k * blockSize)
            (request - k * blockSize)).take packets) e (start + k * blockSize)) := by
  intro fuel
  induction fuel with
  | zero =>
    intro k packets e _ _ hsize hk hfuel
    rw [Nat.le_zero.mp hfuel, serveRepair_zero, take_nil, receiveRepair_nil, ← hsize]
    exact .of_stop hsize hk decide_eq_true_iff fun _ j hj _ hr =>
      absurd (Nat.mul_lt_mul_of_pos_right hj (by decide : 0 < blockSize)) (by omega)
  | succ fuel ih =>
    intro k packets e htiny hpage hsize hk hfuel
    -- a transfer that has nothing left to ask for, or has all that the source has
    by_cases hdone : k * blockSize < request
    swap
    · have hzero : request - k * blockSize = 0 := by omega
      rw [hzero, serveRepair_zero, take_nil, receiveRepair_nil, ← hsize]
      exact .of_stop hsize hk decide_eq_true_iff fun _ j hj _ hr =>
        absurd (Nat.mul_lt_mul_of_pos_right hj (by decide : 0 < blockSize)) (by omega)
    have hlt : start + k * blockSize < source.dataSize := by omega
    have hfalse : false = true ↔ source.dataSize ≤ e.dataSize :=
      ⟨nofun, fun h => absurd h (by omega)⟩
    cases packets with
    | zero =>
      rw [take_zero, receiveRepair_nil, decide_eq_false (by omega)]
      exact .of_stop hsize hk hfalse fun _ j hj hp => absurd hp (by omega)
    | succ packets =>
      rw [serveRepair, if_neg (by omega)]
      dsimp only
      generalize hchunk : min (request - k * blockSize) blockSize = size
      cases hread : source.read (start + k * blockSize) (replyBuffer (pooled k) size) with
      | none =>
        dsimp only
        rw [take_succ_cons, receiveRepair_none _ hlt]
        exact .of_stop hsize hk hfalse fun ht =>
          absurd hread (RepairExtent.read_ne_none (htiny ▸ ht))
      | some data =>
        obtain ⟨hlen, hdata⟩ := getD_packet hdone hchunk.symm hread
        rw [← hlen] at hdata hchunk
        have hpos : 0 < data.length := by
          rw [← hchunk]
          exact Nat.lt_min.mpr ⟨by omega, by decide⟩
        dsimp only
        rw [take_succ_cons, receiveRepair_cons _ hlt hpos, ← hlen]
        have hpaged : e.isTiny = true → (start + k * blockSize + data.length) % pageSize = 0 := by
          intro ht
          obtain ⟨h₁, h₂⟩ := hpage ht
          have h₃ : blockSize % pageSize = 0 := by decide
          unfold pageSize at h₁ h₂ ⊢
          unfold blockSize at hchunk ⊢
          omega
        cases hwrite : e.write data (start + k * blockSize) with
        | none =>
          dsimp only
          refine .of_stop hsize hk hfalse fun ht j hj _ hr hlt' => ?_
          refine absurd hwrite (RepairExtent.write_ne_none ht (lt_of_le_of_lt ?_ hlt'))
          have hle : (k + 1) * blockSize ≤ j * blockSize := Nat.mul_le_mul_right _ hj
          rw [Nat.add_mul, Nat.one_mul] at hle
          omega
        | some e' =>
          dsimp only
          obtain ⟨htiny', hsize', hfile, hfits⟩ := RepairExtent.write_eq_some hsize hpaged hwrite
          by_cases hblock : request - k * blockSize < blockSize
          · have hrest : request - k * blockSize - data.length = 0 := by omega
            rw [hrest, serveRepair_zero, take_nil, receiveRepair_nil, ← hsize']
            exact .of_rest hsize' hfile htiny' hk (by omega) (by omega) hdata hfits
          have hnext : start + k * blockSize + data.length = start + (k + 1) * blockSize := by
            rw [Nat.add_mul]
            omega
          have hneed : request - k * blockSize - data.length = request - (k + 1) * blockSize := by
            rw [Nat.add_mul]
            omega
          rw [hneed, hnext]
          refine .of_block hfile htiny' (by omega) hdata hfits
            (ih (k + 1) packets e' ?_ ?_ ?_ ?_ ?_)
          · rw [htiny', htiny]
          · rw [htiny']
            exact hpage
          · rw [hsize', hnext]
          all_goals
            rw [Nat.add_mul]
            omega

/-- The extent `e` after the transfer is `source` cut at `w`, above what `old` had. -/
structure SourceCutAt (old e source : RepairExtent) (w : Nat) : Prop where
  dataSize : e.dataSize = w
  below : ∀ i < old.dataSize, e.byte i = old.byte i
  copied : ∀ i, old.dataSize ≤ i → i < w → e.byte i = source.byte i

structure Transferred (old source : RepairExtent) (result : RepairExtent × Bool) : Prop where
  completed : result.2 = true → SourceCutAt old result.1 source source.dataSize
  failed : result.2 = false →
    ∃ w, old.dataSize ≤ w ∧ w ≤ source.dataSize ∧ SourceCutAt old result.1 source w

/-- What a pooled buffer holds behind the end of the source file is zero. -/
def CleanBuffers (pooled : Nat → Nat → UInt8) (packets : Nat) (e source : RepairExtent) : Prop :=
  e.isTiny = true → ∀ k < packets, (k + 1) * blockSize ≤ requestSize e source →
    e.dataSize + (k + 1) * blockSize < maxUint32 →
    ∀ i < blockSize, source.file.length ≤ e.dataSize + k * blockSize + i → pooled k i = 0

section Transfer

variable (crc : Bytes → UInt32) (pooled : Nat → Nat → UInt8) (packets : Nat)
  {e source : RepairExtent}

theorem requestSize_le (e source : RepairExtent) (h : e.dataSize < source.dataSize) :
    e.dataSize + requestSize e source ≤ source.dataSize := by
  have := mod_le (source.dataSize - e.dataSize) (2 ^ 32)
  unfold requestSize
  omega

variable (hkind : e.isTiny = source.isTiny)
include hkind

theorem received_streamRepairExtent (hlt : e.dataSize < source.dataSize) :
    Received source pooled e.dataSize (requestSize e source) 0 packets e
      (streamRepairExtent crc pooled packets e source) := by
  have h := received_packets crc pooled (requestSize_le e source hlt) (requestSize e source) 0
    packets e hkind
    (fun ht => ⟨e.paged ht, by
      have he := e.paged ht
      have hs := source.paged (hkind ▸ ht)
      unfold requestSize
      unfold pageSize at *
      omega⟩)
    (by rw [Nat.zero_mul, Nat.add_zero]) (by rw [Nat.zero_mul]; exact Nat.zero_le _)
    (Nat.sub_le _ _)
  rw [Nat.zero_mul, Nat.add_zero, Nat.sub_zero] at h
  unfold streamRepairExtent
  rw [if_neg (Nat.not_le.mpr hlt)]
  exact h

theorem sentByte_of_clean {result : RepairExtent × Bool}
    (hlt : e.dataSize < source.dataSize) (hclean : CleanBuffers pooled packets e source)
    (h : Received source pooled e.dataSize (requestSize e source) 0 packets e result) {i : Nat}
    (hi : e.dataSize ≤ i) (hend : i < result.1.dataSize) :
    sentByte source pooled e.dataSize (requestSize e source) i = source.byte i := by
  unfold sentByte
  split
  · rfl
  rename_i hout
  have hzero : source.byte i = 0 := getD_eq_default _ _ (Nat.le_of_not_lt hout)
  rw [hzero]
  split
  swap
  · rfl
  next hwhole =>
    -- a block that was sent whole has arrived whole
    have hdiv := Nat.div_add_mod' (i - e.dataSize) blockSize
    have hmod := Nat.mod_lt (i - e.dataSize) (by decide : 0 < blockSize)
    generalize hk : (i - e.dataSize) / blockSize = k at hdiv hwhole ⊢
    generalize (i - e.dataSize) % blockSize = j at hdiv hmod ⊢
    have htiny : e.isTiny = true := by
      cases hsource : source.isTiny with
      | true => rw [hkind, hsource]
      | false =>
        have hfile := source.sized hsource
        have hle := h.le_end
        have := requestSize_le e source hlt
        exact absurd hout (by omega)
    have harrived : e.dataSize + (k + 1) * blockSize ≤ result.1.dataSize := by
      obtain hall | ⟨m, hm⟩ := h.boundary
      · omega
      · have hkm : k * blockSize < m * blockSize := by omega
        have := Nat.mul_le_mul_right blockSize
          (Nat.succ_le_of_lt (Nat.lt_of_mul_lt_mul_right hkm))
        rw [Nat.succ_eq_add_one] at this
        omega
    have hpackets : k < packets := by
      have hle := h.le_packets
      rw [Nat.zero_add] at hle
      refine Nat.lt_of_mul_lt_mul_right (a := blockSize) ?_
      omega
    have hfits := h.fits htiny (by rw [Nat.zero_mul, Nat.add_zero]; omega)
    exact hclean htiny k hpackets hwhole (by omega) j hmod (by omega)

/-- A transfer does what it has to do exactly when the buffers it gets through are clean. -/
theorem streamRepairExtent_transferred_iff (hlt : e.dataSize < source.dataSize) :
    Transferred e source (streamRepairExtent crc pooled packets e source) ↔
      CleanBuffers pooled packets e source := by
  have h := received_streamRepairExtent crc pooled packets hkind hlt
  generalize streamRepairExtent crc pooled packets e source = result at h ⊢
  have hstart := h.start_le
  have hend := h.le_end
  have hrequest := requestSize_le e source hlt
  rw [zero_mul, add_zero] at hstart
  have hbyte : ∀ i, e.dataSize ≤ i → i < result.1.dataSize →
      result.1.byte i = sentByte source pooled e.dataSize (requestSize e source) i := by
    intro i hi hlt
    rw [h.byte, zero_mul, add_zero, if_pos ⟨hi, hlt⟩]
  constructor
  · intro ht htiny k hk hwhole hfits i hi hout
    have harrived := h.reached htiny (k + 1) (succ_pos k) (by omega) hwhole hfits
    have hnext : (k + 1) * blockSize = k * blockSize + blockSize := by
      rw [add_mul, one_mul]
    obtain ⟨w, hcut⟩ : ∃ w, SourceCutAt e result.1 source w := by
      cases hok : result.2 with
      | true => exact ⟨_, ht.completed hok⟩
      | false =>
        obtain ⟨w, -, -, hcut⟩ := ht.failed hok
        exact ⟨w, hcut⟩
    have hw := hcut.dataSize
    have hcopied := hcut.copied (e.dataSize + k * blockSize + i) (by omega) (by omega)
    rw [hbyte _ (by omega) (by omega)] at hcopied
    have hsub : e.dataSize + k * blockSize + i - e.dataSize = i + blockSize * k := by
      rw [mul_comm]
      omega
    unfold sentByte at hcopied
    rw [if_neg (not_lt.mpr hout), hsub, add_mul_div_left _ _ (by decide),
      div_eq_of_lt hi, zero_add, if_pos hwhole, add_mul_mod_self_left,
      mod_eq_of_lt hi] at hcopied
    rw [hcopied]
    exact getD_eq_default _ _ hout
  · intro hclean
    have hcut : SourceCutAt e result.1 source result.1.dataSize := by
      refine ⟨rfl, fun i hi => ?_, fun i hi hlt' => ?_⟩
      · rw [h.byte, zero_mul, add_zero, if_neg (by omega)]
      · rw [hbyte i hi hlt']
        exact sentByte_of_clean pooled packets hkind hlt hclean h hi hlt'
    refine ⟨fun hok => ?_, fun _ => ⟨_, hstart, by omega, hcut⟩⟩
    have hall := h.completed.mp hok
    rwa [show result.1.dataSize = source.dataSize by omega] at hcut

end Transfer

def emptyTiny : RepairExtent := ⟨true, [], 0, nofun, fun _ => rfl⟩

/-- A tiny extent with one byte in its last page, the page number `n`. -/
def byteInPage (n : Nat) : RepairExtent where
  isTiny := true
  file := List.replicate (n * pageSize + 1) 1
  dataSize := (n + 1) * pageSize
  sized := nofun
  paged _ := Nat.mul_mod_left _ _

/-- One page is sent in a buffer of its own. -/
theorem streamRepairExtent_transferred_page :
    emptyTiny.isTiny = (byteInPage 0).isTiny ∧ emptyTiny.dataSize < (byteInPage 0).dataSize ∧
      Transferred emptyTiny (byteInPage 0)
        (streamRepairExtent (fun _ => 0) (fun _ _ => 7) 1 emptyTiny (byteInPage 0)) := by
  have hkind : emptyTiny.isTiny = (byteInPage 0).isTiny := rfl
  have hlt : emptyTiny.dataSize < (byteInPage 0).dataSize := by decide
  have hpage : requestSize emptyTiny (byteInPage 0) = 4096 := by decide
  refine ⟨hkind, hlt, (streamRepairExtent_transferred_iff _ _ 1 hkind hlt).mpr ?_⟩
  intro _ k _ hwhole
  have hle : 1 * blockSize ≤ (k + 1) * blockSize := mul_le_mul_right _ (by omega)
  exact absurd (hle.trans hwhole) (by rw [hpage]; decide)

/-- Thirty-two pages are sent in one buffer from the pool, and what the last of them does not fill
are the buffer's old bytes. The transfer is completed. -/
theorem streamRepairExtent_old_bytes :
    (streamRepairExtent (fun _ => 0) (fun _ _ => 7) 1 emptyTiny (byteInPage 31)).2 = true ∧
      (streamRepairExtent (fun _ => 0) (fun _ _ => 7) 1 emptyTiny (byteInPage 31)).1.byte 126977
        = 7 ∧
      (byteInPage 31).byte 126977 = 0 ∧ 126977 < (byteInPage 31).dataSize := by
  have hkind : emptyTiny.isTiny = (byteInPage 31).isTiny := rfl
  have h := received_streamRepairExtent (fun _ => 0) (fun _ _ => 7) 1 hkind (by decide)
  have hrequest : requestSize emptyTiny (byteInPage 31) = 131072 := by decide
  have hfile : (byteInPage 31).file.length = 126977 := length_replicate
  have hall := h.reached rfl 1 (by decide) (by decide) (by rw [hrequest]; decide) (by decide)
  have hend : 131072 ≤ (streamRepairExtent (fun _ => 0) (fun _ _ => 7) 1 emptyTiny
      (byteInPage 31)).1.dataSize := hall
  refine ⟨h.completed.mpr hend, ?_, getD_eq_default _ _ (le_of_eq hfile), by decide⟩
  rw [h.byte, if_pos ⟨by decide, by omega⟩]
  unfold sentByte
  rw [hfile, hrequest, if_neg (by decide), if_pos (by decide)]

end ChubaoFS
