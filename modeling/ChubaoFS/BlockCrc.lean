import ChubaoFS.Base.Files
import ChubaoFS.TinyExtents

namespace ChubaoFS

open List Bytes

/-! The checksums of the blocks of a normal extent. They stand in the extent's header, which is kept
in memory and in the verify file. The checksum function is a parameter. -/

def blockCount : Nat := 1024

structure BlockCrcs where
  header : Nat → UInt32
  verifyExtentFp : Nat → UInt32

namespace BlockCrcs

def persistenceBlockCrc (c : BlockCrcs) (blockNo : Nat) (blockCrc : UInt32) : BlockCrcs where
  header := Function.update c.header blockNo blockCrc
  verifyExtentFp := Function.update c.verifyExtentFp blockNo blockCrc

@[simp] theorem header_persistenceBlockCrc (c : BlockCrcs) (b : Nat) (x : UInt32) (j : Nat) :
    (c.persistenceBlockCrc b x).header j = if j = b then x else c.header j :=
  Function.update_apply ..

def Synced (c : BlockCrcs) : Prop := c.verifyExtentFp = c.header

variable {c : BlockCrcs}

theorem Synced.persistenceBlockCrc (h : c.Synced) (b : Nat) (x : UInt32) :
    (c.persistenceBlockCrc b x).Synced := by
  unfold BlockCrcs.persistenceBlockCrc Synced
  dsimp only
  rw [h]

/-- The calls of `crcFunc` in `Write`. -/
def update (c : BlockCrcs) (blockNo offsetInBlock size : Nat) (crc : UInt32) : BlockCrcs :=
  if offsetInBlock = 0 ∧ size = blockSize then c.persistenceBlockCrc blockNo crc
  else if offsetInBlock + size ≤ blockSize then c.persistenceBlockCrc blockNo 0
  else (c.persistenceBlockCrc blockNo 0).persistenceBlockCrc (blockNo + 1) 0

theorem Synced.update (h : c.Synced) (blockNo offsetInBlock size : Nat) (crc : UInt32) :
    (c.update blockNo offsetInBlock size crc).Synced := by
  unfold BlockCrcs.update
  split
  · exact h.persistenceBlockCrc _ _
  split
  · exact h.persistenceBlockCrc _ _
  · exact (h.persistenceBlockCrc _ _).persistenceBlockCrc _ _

theorem header_update (c : BlockCrcs) (blockNo offsetInBlock size : Nat) (x : UInt32) (j : Nat) :
    (c.update blockNo offsetInBlock size x).header j =
      if j = blockNo then if offsetInBlock = 0 ∧ size = blockSize then x else 0
      else if j = blockNo + 1 ∧ blockSize < offsetInBlock + size then 0 else c.header j := by
  unfold update
  split
  next h =>
    have hend : ¬ (j = blockNo + 1 ∧ blockSize < offsetInBlock + size) := by omega
    rw [header_persistenceBlockCrc, if_neg hend]
  split
  next h =>
    have hend : ¬ (j = blockNo + 1 ∧ blockSize < offsetInBlock + size) := by omega
    rw [header_persistenceBlockCrc, if_neg hend]
  next h =>
    have hend : blockSize < offsetInBlock + size := by omega
    rw [header_persistenceBlockCrc, header_persistenceBlockCrc]
    by_cases hj : j = blockNo
    · rw [if_pos hj, if_neg (by omega), if_pos hj]
    by_cases hj' : j = blockNo + 1
    · rw [if_pos hj', if_neg hj, if_pos ⟨hj', hend⟩]
    · rw [if_neg hj', if_neg hj, if_neg hj, if_neg fun h => hj' h.1]

end BlockCrcs

def blockContent (file : Bytes) (blockNo : Nat) : Bytes :=
  (file.drop (blockNo * blockSize)).take blockSize

structure NormalExtent where
  file : Bytes
  dataSize : Nat
  crcs : BlockCrcs
  sized : dataSize = file.length

namespace NormalExtent

def empty : NormalExtent := ⟨[], 0, ⟨fun _ => 0, fun _ => 0⟩, rfl⟩

def checkOffsetAndSize (offset : Int) (size : Nat) : Bool :=
  decide (offset + size ≤ blockSize * blockCount) && decide (offset < blockSize * blockCount) &&
    size != 0 && decide (size ≤ blockSize)

/-- `none` stands for an error. -/
def write (e : NormalExtent) (data : Bytes) (offset : Int) (crc : UInt32) : Option NormalExtent :=
  -- a file has no negative offsets
  if checkOffsetAndSize offset data.length && decide (0 ≤ offset) then
    some {
      file := writeAt e.file data offset.toNat
      crcs := e.crcs.update (offset.toNat / blockSize) (offset.toNat % blockSize) data.length crc
      dataSize := max e.dataSize (offset.toNat + data.length)
      sized := by rw [length_writeAt, e.sized] }
  else none

def blockCnt (e : NormalExtent) : Nat :=
  e.dataSize / blockSize + if e.dataSize % blockSize ≠ 0 then 1 else 0

/-- The loop of `autoComputeExtentCrc`, with the entries of `crcData`. To read a whole block is no
`io.EOF`, and ends it. -/
def autoComputeLoop (crc : Bytes → UInt32) (file : Bytes) :
    Nat → Nat → BlockCrcs → BlockCrcs × List UInt32
  | 0, _, c => (c, [])
  | left + 1, blockNo, c =>
    if c.header blockNo ≠ 0 then
      let r := autoComputeLoop crc file left (blockNo + 1) c
      (r.1, c.header blockNo :: r.2)
    else
      let bdata := blockContent file blockNo
      if bdata.length = blockSize then (c, List.replicate (left + 1) 0)
      else
        let r := autoComputeLoop crc file left (blockNo + 1)
          (c.persistenceBlockCrc blockNo (crc bdata))
        (r.1, crc bdata :: r.2)

variable {crc : Bytes → UInt32} {file : Bytes} {left b : Nat} {c : BlockCrcs}

theorem autoComputeLoop_of_set (h : c.header b ≠ 0) : autoComputeLoop crc file (left + 1) b c =
      ((autoComputeLoop crc file left (b + 1) c).1,
        c.header b :: (autoComputeLoop crc file left (b + 1) c).2) := by
  rw [autoComputeLoop, if_pos h]

theorem autoComputeLoop_of_whole (h : c.header b = 0)
    (hlen : (blockContent file b).length = blockSize) :
    autoComputeLoop crc file (left + 1) b c = (c, replicate (left + 1) 0) := by
  rw [autoComputeLoop, if_neg (not_not_intro h), if_pos hlen]

theorem autoComputeLoop_of_short (h : c.header b = 0)
    (hlen : (blockContent file b).length ≠ blockSize) : autoComputeLoop crc file (left + 1) b c =
      let r := autoComputeLoop crc file left (b + 1)
        (c.persistenceBlockCrc b (crc (blockContent file b)))
      (r.1, crc (blockContent file b) :: r.2) := by
  rw [autoComputeLoop, if_neg (not_not_intro h), if_neg hlen]

def autoComputeExtentCrc (crc : Bytes → UInt32) (e : NormalExtent) : NormalExtent × UInt32 :=
  let r := autoComputeLoop crc e.file e.blockCnt 0 e.crcs
  ({ e with crcs := r.1 }, crc (r.2.flatMap putUInt32))

def loadExtentFromDisk (e : NormalExtent) : NormalExtent where
  file := e.file
  dataSize := e.file.length
  crcs := ⟨e.crcs.verifyExtentFp, e.crcs.verifyExtentFp⟩
  sized := rfl

/-- Each entry is `0` or the checksum of its block. -/
def Trusted (crc : Bytes → UInt32) (e : NormalExtent) : Prop :=
  ∀ b, e.crcs.header b = 0 ∨ e.crcs.header b = crc (blockContent e.file b)

end NormalExtent

def Unread (file : Bytes) (c : BlockCrcs) (b : Nat) : Prop :=
  c.header b = 0 ∧ (b + 1) * blockSize ≤ file.length

theorem length_blockContent_eq (file : Bytes) (b : Nat) :
    (blockContent file b).length = blockSize ↔ (b + 1) * blockSize ≤ file.length := by
  rw [blockContent, length_take, length_drop, Nat.add_mul, Nat.one_mul]
  have : 0 < blockSize := by decide
  omega

namespace NormalExtent

variable {crc : Bytes → UInt32} {file : Bytes} {left b k : Nat} {c : BlockCrcs}

def filled (crc : Bytes → UInt32) (file : Bytes) (c : BlockCrcs) (b : Nat) : UInt32 :=
  if c.header b ≠ 0 then c.header b else crc (blockContent file b)

variable (crc)

theorem autoComputeLoop_unread (left : Nat) (hk : Unread file c k) (hle : b ≤ k)
    (hlt : k < b + left) (hfirst : ∀ j, b ≤ j → j < k → c.header j ≠ 0) :
    autoComputeLoop crc file left b c =
      (c, (range' b (k - b)).map c.header ++ replicate (b + left - k) 0) := by
  induction left generalizing b with
  | zero => omega
  | succ left ih =>
    by_cases hbk : b = k
    · subst hbk
      rw [autoComputeLoop_of_whole hk.1 ((length_blockContent_eq file b).mpr hk.2), Nat.sub_self,
        Nat.add_sub_cancel_left]
      rfl
    have hrest := ih (b := b + 1) (by omega) (by omega) fun j hj => hfirst j (by omega)
    have hpos : k - b = k - (b + 1) + 1 := by omega
    have hleft : b + (left + 1) - k = b + 1 + left - k := by omega
    rw [autoComputeLoop_of_set (hfirst b (Nat.le_refl b) (by omega)), hrest, hpos,
      range'_succ, hleft]
    rfl

theorem autoComputeLoop_complete (file : Bytes) (left b : Nat) (c : BlockCrcs)
    (hno : ∀ j, b ≤ j → j < b + left → ¬ Unread file c j) :
    (autoComputeLoop crc file left b c).2 = (range' b left).map (filled crc file c) ∧
      ∀ j, (autoComputeLoop crc file left b c).1.header j =
        if b ≤ j ∧ j < b + left then filled crc file c j else c.header j := by
  induction left generalizing b c with
  | zero => exact ⟨rfl, fun j => (if_neg (by omega)).symm⟩
  | succ left ih =>
    rw [range'_succ, map_cons]
    by_cases hb : c.header b ≠ 0
    · obtain ⟨hlist, hheader⟩ := ih (b + 1) c fun j hj hlt =>
        hno j (by omega) (by omega)
      have hfilled : filled crc file c b = c.header b := if_pos hb
      rw [autoComputeLoop_of_set hb, hfilled, hlist]
      refine ⟨rfl, fun j => (hheader j).trans ?_⟩
      by_cases hj : j = b
      · subst hj
        rw [if_neg (by omega), if_pos (by omega), hfilled]
      · exact if_congr (by omega) rfl rfl
    have hzero := not_not.mp hb
    have hshort : (blockContent file b).length ≠ blockSize := fun h =>
      hno b (Nat.le_refl b) (by omega) ⟨hzero, (length_blockContent_eq file b).mp h⟩
    have hfilled : filled crc file c b = crc (blockContent file b) := if_neg hb
    -- the pass goes on with the entry of this block set, which the other blocks do not see
    have hother : ∀ j, j ≠ b →
        (c.persistenceBlockCrc b (crc (blockContent file b))).header j = c.header j :=
      fun j hj => (BlockCrcs.header_persistenceBlockCrc ..).trans (if_neg hj)
    have hsame : ∀ j, j ≠ b →
        filled crc file (c.persistenceBlockCrc b (crc (blockContent file b))) j =
          filled crc file c j := by
      intro j hj
      unfold filled
      rw [hother j hj]
    obtain ⟨hlist, hheader⟩ := ih (b + 1)
      (c.persistenceBlockCrc b (crc (blockContent file b))) fun j hj hlt hun =>
        hno j (by omega) (by omega) ⟨hother j (by omega) ▸ hun.1, hun.2⟩
    rw [autoComputeLoop_of_short hzero hshort, hfilled]
    refine ⟨?_, fun j => (hheader j).trans ?_⟩
    · dsimp only
      rw [hlist]
      congr 1
      refine map_congr_left fun j hj => hsame j ?_
      have := (mem_range'_1.mp hj).1
      omega
    · by_cases hj : j = b
      · subst hj
        rw [if_neg (by omega), if_pos (by omega), hfilled]
        exact (BlockCrcs.header_persistenceBlockCrc ..).trans (if_pos rfl)
      · rw [hsame j hj, hother j hj]
        exact if_congr (by omega) rfl rfl

variable {crc}

theorem lt_blockCnt_iff (e : NormalExtent) (b : Nat) :
    b < e.blockCnt ↔ b * blockSize < e.file.length := by
  unfold blockCnt blockSize
  rw [e.sized]
  split <;> omega

def blockCrcs (crc : Bytes → UInt32) (e : NormalExtent) : List UInt32 :=
  (List.range e.blockCnt).map fun b => crc (blockContent e.file b)

/-- The pass is not stopped by a whole block without an entry; or else it would not have changed
anything, because the checksums of the blocks without entries are `0` from there on and the others
make no difference to the checksum of all of them. -/
def Readable (crc : Bytes → UInt32) (e : NormalExtent) : Prop :=
  ∀ k, Unread e.file e.crcs k → (∀ j < k, ¬ Unread e.file e.crcs j) →
    (∀ b, k ≤ b → b < e.blockCnt → e.crcs.header b = 0 → crc (blockContent e.file b) = 0) ∧
      crc (((e.blockCrcs crc).take k ++ List.replicate (e.blockCnt - k) 0).flatMap putUInt32) =
        crc ((e.blockCrcs crc).flatMap putUInt32)

variable {e : NormalExtent} {data : Bytes}

section

variable (h : e.Trusted crc)
include h

theorem filled_of_trusted (b : Nat) : filled crc e.file e.crcs b = crc (blockContent e.file b) := by
  unfold filled
  split
  next hne => exact (h b).resolve_left hne
  · rfl

theorem autoComputeExtentCrc_of_complete (hno : ∀ b, ¬ Unread e.file e.crcs b) :
    (e.autoComputeExtentCrc crc).2 = crc ((e.blockCrcs crc).flatMap putUInt32) ∧
      ∀ b < e.blockCnt, (e.autoComputeExtentCrc crc).1.crcs.header b =
        crc (blockContent e.file b) := by
  obtain ⟨hlist, hheader⟩ := autoComputeLoop_complete crc e.file e.blockCnt 0 e.crcs
    fun j _ _ => hno j
  refine ⟨?_, fun b hb => ?_⟩
  · unfold autoComputeExtentCrc blockCrcs
    dsimp only
    rw [hlist, range_eq_range']
    congr 2
    exact map_congr_left fun b _ => filled_of_trusted h b
  · refine (hheader b).trans ?_
    rw [if_pos (by omega), filled_of_trusted h b]

theorem autoComputeExtentCrc_of_unread (hk : Unread e.file e.crcs k)
    (hfirst : ∀ j < k, ¬ Unread e.file e.crcs j) :
    (e.autoComputeExtentCrc crc).1.crcs = e.crcs ∧ (e.autoComputeExtentCrc crc).2 =
        crc (((e.blockCrcs crc).take k ++ replicate (e.blockCnt - k) 0).flatMap putUInt32) ∧
      ∀ j < k, e.crcs.header j ≠ 0 := by
  have hfull : ∀ j < k, e.crcs.header j ≠ 0 := by
    intro j hj hzero
    have hle := hk.2
    exact hfirst j hj ⟨hzero, Nat.le_trans (Nat.mul_le_mul_right _ (by omega)) hle⟩
  have hlt : k < e.blockCnt := by
    rw [lt_blockCnt_iff]
    have hle := hk.2
    unfold blockSize at hle ⊢
    omega
  have hloop := autoComputeLoop_unread crc e.blockCnt hk (Nat.zero_le k) (by omega)
    fun j _ hj => hfull j hj
  refine ⟨?_, ?_, hfull⟩
  · unfold autoComputeExtentCrc
    rw [hloop]
  · unfold autoComputeExtentCrc blockCrcs
    rw [hloop]
    dsimp only
    rw [← map_take, take_range, Nat.min_eq_left (Nat.le_of_lt hlt), Nat.sub_zero,
      Nat.zero_add, range_eq_range']
    congr 3
    refine map_congr_left fun j hj => (h j).resolve_left (hfull j ?_)
    have := (mem_range'_1.mp hj).2
    omega

theorem autoComputeExtentCrc_iff :
    ((e.autoComputeExtentCrc crc).2 = crc ((e.blockCrcs crc).flatMap putUInt32) ∧
      ∀ b < e.blockCnt, (e.autoComputeExtentCrc crc).1.crcs.header b =
        crc (blockContent e.file b)) ↔ e.Readable crc := by
  classical
  by_cases hun : ∃ k, Unread e.file e.crcs k
  · have hk := Nat.find_spec hun
    have hfirst : ∀ j < Nat.find hun, ¬ Unread e.file e.crcs j := fun j hj => Nat.find_min hun hj
    obtain ⟨hcrcs, hvalue, hfull⟩ := autoComputeExtentCrc_of_unread h hk hfirst
    rw [hcrcs, hvalue]
    constructor
    · rintro ⟨hsum, hheader⟩ k' hk' hfirst'
      obtain rfl : k' = Nat.find hun := by
        refine Nat.le_antisymm (Nat.le_of_not_lt fun hlt => hfirst' _ hlt hk) ?_
        exact Nat.le_of_not_lt fun hlt => hfirst _ hlt hk'
      exact ⟨fun b _ hb hzero => (hheader b hb).symm.trans hzero, hsum⟩
    · intro hr
      obtain ⟨hzero, hsum⟩ := hr _ hk hfirst
      refine ⟨hsum, fun b hb => ?_⟩
      obtain hb0 | hb0 := h b
      · have hle : Nat.find hun ≤ b := Nat.le_of_not_lt fun hlt => hfull b hlt hb0
        rw [hzero b hle hb hb0, hb0]
      · exact hb0
  · have hno : ∀ b, ¬ Unread e.file e.crcs b := fun b hb => hun ⟨b, hb⟩
    exact ⟨fun _ k hk => absurd hk (hno k), fun _ => autoComputeExtentCrc_of_complete h hno⟩

end

/-- Two extents with the same bytes get the same checksum, that of their blocks, and all entries. -/
theorem autoComputeExtentCrc_same_iff (crc : Bytes → UInt32) (e₁ e₂ : NormalExtent)
    (hfile : e₁.file = e₂.file) (h₁ : e₁.Trusted crc) (h₂ : e₂.Trusted crc) :
    ((e₁.autoComputeExtentCrc crc).2 = (e₂.autoComputeExtentCrc crc).2 ∧
      (e₁.autoComputeExtentCrc crc).2 = crc ((e₁.blockCrcs crc).flatMap putUInt32) ∧
      (∀ b < e₁.blockCnt, (e₁.autoComputeExtentCrc crc).1.crcs.header b =
        crc (blockContent e₁.file b)) ∧
      ∀ b < e₂.blockCnt, (e₂.autoComputeExtentCrc crc).1.crcs.header b =
        crc (blockContent e₂.file b)) ↔ e₁.Readable crc ∧ e₂.Readable crc := by
  have hcnt : e₁.blockCnt = e₂.blockCnt := by
    unfold blockCnt
    rw [e₁.sized, e₂.sized, hfile]
  have hcrcs : e₁.blockCrcs crc = e₂.blockCrcs crc := by
    unfold blockCrcs
    rw [hcnt, hfile]
  rw [← autoComputeExtentCrc_iff h₁, ← autoComputeExtentCrc_iff h₂, ← hcrcs]
  constructor
  · rintro ⟨hsame, hvalue, hheader₁, hheader₂⟩
    exact ⟨⟨hvalue, hheader₁⟩, hsame.symm.trans hvalue, hheader₂⟩
  · rintro ⟨⟨hvalue, hheader₁⟩, hvalue₂, hheader₂⟩
    exact ⟨hvalue.trans hvalue₂.symm, hvalue, hheader₁, hheader₂⟩

/-! A checksum to compute with. -/

def byteSum (data : Bytes) : UInt32 := UInt32.ofNat (data.length + (data.map UInt8.toNat).sum)

def ofFile (file : Bytes) (crcs : BlockCrcs) : NormalExtent := ⟨file, file.length, crcs, rfl⟩

def noCrcs : BlockCrcs := ⟨fun _ => 0, fun _ => 0⟩

theorem trusted_noCrcs (file : Bytes) : (ofFile file noCrcs).Trusted crc := fun _ => .inl rfl

theorem trusted_first (crc : Bytes → UInt32) (file : Bytes) :
    (ofFile file (noCrcs.persistenceBlockCrc 0 (crc (blockContent file 0)))).Trusted crc := by
  intro b
  by_cases hb : b = 0
  · subst hb
    exact .inr ((BlockCrcs.header_persistenceBlockCrc ..).trans (if_pos rfl))
  · exact .inl ((BlockCrcs.header_persistenceBlockCrc ..).trans (if_neg hb))

/-- Three bytes, on one replica with the entry of their block and on the other without it. -/
theorem autoComputeExtentCrc_same_three : (ofFile [1, 2, 3] noCrcs).Readable byteSum ∧
      (ofFile [1, 2, 3] (noCrcs.persistenceBlockCrc 0 9)).Readable byteSum ∧
      ((ofFile [1, 2, 3] noCrcs).autoComputeExtentCrc byteSum).2 =
        ((ofFile [1, 2, 3] (noCrcs.persistenceBlockCrc 0 9)).autoComputeExtentCrc byteSum).2 := by
  have hno : ∀ c k, ¬ Unread [1, 2, 3] c k := by
    rintro c k ⟨-, hk⟩
    change (k + 1) * 131072 ≤ 3 at hk
    omega
  have h₁ : (ofFile [1, 2, 3] noCrcs).Readable byteSum := fun k hk => absurd hk (hno _ k)
  have h₂ : (ofFile [1, 2, 3] (noCrcs.persistenceBlockCrc 0 9)).Readable byteSum :=
    fun k hk => absurd hk (hno _ k)
  have hiff := autoComputeExtentCrc_same_iff byteSum (ofFile [1, 2, 3] noCrcs)
    (ofFile [1, 2, 3] (noCrcs.persistenceBlockCrc 0 9)) rfl (trusted_noCrcs _)
    (trusted_first byteSum [1, 2, 3])
  exact ⟨h₁, h₂, (hiff.mpr ⟨h₁, h₂⟩).1⟩

theorem autoComputeExtentCrc_block (hlen : data.length = blockSize) (crc : Bytes → UInt32)
    (c : BlockCrcs) : ((ofFile data c).autoComputeExtentCrc crc).1.crcs = c ∧
      ((ofFile data c).autoComputeExtentCrc crc).2 = crc (putUInt32 (c.header 0)) := by
  have hcnt : (ofFile data c).blockCnt = 1 := by
    change data.length / blockSize + (if data.length % blockSize ≠ 0 then 1 else 0) = 1
    rw [hlen]
    rfl
  have hwhole : (blockContent data 0).length = blockSize := by
    rw [length_blockContent_eq, hlen, Nat.zero_add, Nat.one_mul]
  have hloop : autoComputeLoop crc data 1 0 c = (c, [c.header 0]) := by
    by_cases h : c.header 0 ≠ 0
    · rw [autoComputeLoop_of_set h]
      rfl
    · rw [autoComputeLoop_of_whole (not_not.mp h) hwhole, not_not.mp h]
      rfl
  unfold autoComputeExtentCrc
  rw [hcnt]
  change (autoComputeLoop crc data 1 0 c).1 = c ∧
    crc ((autoComputeLoop crc data 1 0 c).2.flatMap putUInt32) = _
  rw [hloop, flatMap_cons, flatMap_nil, append_nil]
  exact ⟨rfl, rfl⟩

theorem byteSum_cons_zeros (x : UInt8) (n : Nat) :
    byteSum (x :: replicate n 0) = UInt32.ofNat (n + 1 + x.toNat) := by
  unfold byteSum
  rw [length_cons, length_replicate, map_cons, map_replicate, sum_cons, sum_replicate_nat]
  rfl

theorem blockContent_append (hlen : data.length = blockSize) (rest : Bytes) :
    blockContent (data ++ rest) 0 = data := by
  unfold blockContent
  rw [Nat.zero_mul, drop_zero, take_left' hlen]

theorem exists_block (x : UInt8) :
    ∃ data : Bytes, data = x :: replicate 131071 0 ∧ data.length = blockSize ∧
      byteSum data = UInt32.ofNat (131071 + 1 + x.toNat) := by
  refine ⟨_, rfl, ?_, byteSum_cons_zeros x 131071⟩
  rw [length_cons, length_replicate]
  rfl

/-- A whole block of zeros: the replica that has its entry and the one that does not come to
different checksums, and the latter does not set the entry. -/
theorem autoComputeExtentCrc_differs :
    ∃ e₁ e₂ : NormalExtent, e₁.file = e₂.file ∧ e₁.Trusted byteSum ∧ e₂.Trusted byteSum ∧
      (e₁.autoComputeExtentCrc byteSum).2 ≠ (e₂.autoComputeExtentCrc byteSum).2 ∧
      (e₁.autoComputeExtentCrc byteSum).1.crcs.header 0 ≠ byteSum (blockContent e₁.file 0) := by
  obtain ⟨data, -, hlen, hsum⟩ := exists_block 0
  have hcontent := blockContent_append hlen []
  rw [append_nil] at hcontent
  obtain ⟨hcrcs, hvalue₁⟩ := autoComputeExtentCrc_block hlen byteSum noCrcs
  obtain ⟨-, hvalue₂⟩ := autoComputeExtentCrc_block hlen byteSum
    (noCrcs.persistenceBlockCrc 0 131072)
  refine ⟨ofFile data noCrcs, ofFile data (noCrcs.persistenceBlockCrc 0 131072), rfl,
    trusted_noCrcs _, ?_, ?_, ?_⟩
  · have htrusted := trusted_first byteSum data
    rw [hcontent, hsum] at htrusted
    exact htrusted
  · rw [hvalue₁, hvalue₂]
    decide
  · rw [hcrcs]
    change 0 ≠ byteSum (blockContent data 0)
    rw [hcontent, hsum]
    decide

/-! Writes, passes and reloads. -/

end NormalExtent

inductive NormalExtentEvent
  | write (data : Bytes) (offset : Int)
  | autoComputeExtentCrc
  | loadExtentFromDisk

namespace NormalExtent

variable {crc : Bytes → UInt32} {file : Bytes} {b : Nat} {e e' : NormalExtent}

def step (crc : Bytes → UInt32) (e : NormalExtent) : NormalExtentEvent → Option NormalExtent
  | .write data offset => e.write data offset (crc data)
  | .autoComputeExtentCrc => some (e.autoComputeExtentCrc crc).1
  | .loadExtentFromDisk => some e.loadExtentFromDisk

/-- A write leaves no gap behind a last block that has a checksum. -/
def NoGap (e : NormalExtent) : NormalExtentEvent → Prop
  | .write _ offset => e.crcs.header (e.dataSize / blockSize) ≠ 0 →
      offset < (e.dataSize / blockSize + 1) * blockSize
  | _ => True

instance decidableNoGap (e : NormalExtent) (ev : NormalExtentEvent) : Decidable (e.NoGap ev) := by
  cases ev <;> unfold NoGap <;> infer_instance

structure Inv (crc : Bytes → UInt32) (e : NormalExtent) : Prop where
  synced : e.crcs.Synced
  trusted : ∀ b, e.crcs.header b = 0 ∨
    b * blockSize < e.file.length ∧ e.crcs.header b = crc (blockContent e.file b)

variable {data : Bytes}

theorem blockContent_writeAt {offset : Nat}
    (hout : (b + 1) * blockSize ≤ offset ∨ offset + data.length ≤ b * blockSize)
    (hend : (b + 1) * blockSize ≤ file.length ∨ offset + data.length ≤ file.length) :
    blockContent (writeAt file data offset) b = blockContent file b := by
  unfold blockContent
  unfold blockSize at *
  refine take_drop_congr ?_ fun k hk => ?_
  · rw [length_writeAt]
    omega
  · rw [getD_writeAt, if_neg (by omega)]

theorem blockContent_writeAt_self (hlen : data.length = blockSize) :
    blockContent (writeAt file data (b * blockSize)) b = data := by
  unfold blockContent writeAt
  rw [append_assoc, drop_left' (by
    rw [length_append, length_take, length_replicate]
    omega), take_left' hlen]

theorem Inv.write {offset : Int} (h : e.Inv crc) (hgap : e.NoGap (.write data offset))
    (hw : e.write data offset (crc data) = some e') : e'.Inv crc := by
  unfold NormalExtent.write at hw
  split at hw
  next hcheck =>
    obtain rfl := Option.some.inj hw
    obtain ⟨⟨⟨-, hnonempty⟩, hsmall⟩, hnat⟩ := by
      simpa only [checkOffsetAndSize, Bool.and_eq_true, decide_eq_true_eq] using hcheck
    obtain ⟨offset, rfl⟩ := Int.eq_ofNat_of_zero_le hnat
    refine ⟨h.synced.update _ _ _ _, fun b => ?_⟩
    dsimp only
    rw [BlockCrcs.header_update, Int.toNat_natCast]
    split
    next hb =>
      split
      next hwhole =>
        refine .inr ⟨?_, ?_⟩
        · rw [length_writeAt]
          unfold blockSize at *
          omega
        · have hoff : offset = b * blockSize := by
            unfold blockSize at *
            omega
          rw [hoff, blockContent_writeAt_self hwhole.2]
      · exact .inl rfl
    rename_i hb
    split
    · exact .inl rfl
    rename_i hnext
    by_cases hzero : e.crcs.header b = 0
    · exact .inl hzero
    -- the extent ends in this block only if the write stays before its end
    have hlast : b = e.dataSize / blockSize → offset < (b + 1) * blockSize := by
      rintro rfl
      exact Int.ofNat_lt.mp (hgap hzero)
    rw [e.sized] at hlast
    obtain ⟨hin, heq⟩ := (h.trusted b).resolve_left hzero
    rw [blockContent_writeAt, length_writeAt]
    · exact .inr ⟨Nat.lt_of_lt_of_le hin (Nat.le_max_left _ _), heq⟩
    all_goals
      unfold blockSize at *
      omega
  · cases hw

theorem autoComputeLoop_sets (crc : Bytes → UInt32) (file : Bytes) (b left : Nat) (hs : c.Synced) :
    (autoComputeLoop crc file left b c).1.Synced ∧
      ∀ j, (autoComputeLoop crc file left b c).1.header j = c.header j ∨ j < b + left ∧
          (autoComputeLoop crc file left b c).1.header j = crc (blockContent file j) := by
  induction left generalizing b c with
  | zero => exact ⟨hs, fun _ => .inl rfl⟩
  | succ left ih =>
    by_cases hb : c.header b ≠ 0
    · obtain ⟨hsynced, hheader⟩ := ih (b + 1) hs
      rw [autoComputeLoop_of_set hb]
      exact ⟨hsynced, fun j => (hheader j).imp_right fun hj => ⟨by omega, hj.2⟩⟩
    by_cases hlen : (blockContent file b).length = blockSize
    · rw [autoComputeLoop_of_whole (not_not.mp hb) hlen]
      exact ⟨hs, fun _ => .inl rfl⟩
    obtain ⟨hsynced, hheader⟩ := ih (b + 1) (hs.persistenceBlockCrc b (crc (blockContent file b)))
    rw [autoComputeLoop_of_short (not_not.mp hb) hlen]
    refine ⟨hsynced, fun j => ?_⟩
    obtain hj | hj := hheader j
    · rw [BlockCrcs.header_persistenceBlockCrc] at hj
      split at hj
      next heq => exact .inr ⟨by omega, by rw [heq] at hj ⊢; exact hj⟩
      · exact .inl hj
    · exact .inr ⟨by omega, hj.2⟩

theorem Inv.autoComputeExtentCrc (h : e.Inv crc) : (e.autoComputeExtentCrc crc).1.Inv crc := by
  obtain ⟨hsynced, hheader⟩ := autoComputeLoop_sets crc e.file 0 e.blockCnt h.synced
  refine ⟨hsynced, fun b => ?_⟩
  unfold NormalExtent.autoComputeExtentCrc
  dsimp only
  obtain hb | ⟨hlt, hb⟩ := hheader b
  · rw [hb]
    exact h.trusted b
  · exact .inr ⟨(lt_blockCnt_iff e b).mp (by omega), hb⟩

theorem Inv.loadExtentFromDisk (h : e.Inv crc) : e.loadExtentFromDisk.Inv crc := by
  refine ⟨rfl, fun b => ?_⟩
  change e.crcs.verifyExtentFp b = 0 ∨ _ ∧ e.crcs.verifyExtentFp b = _
  rw [h.synced]
  exact h.trusted b

theorem inv_step {ev : NormalExtentEvent} (h : e.Inv crc) (hgap : e.NoGap ev)
    (hs : e.step crc ev = some e') : e'.Inv crc := by
  cases ev with
  | write data offset => exact h.write hgap hs
  | autoComputeExtentCrc =>
    obtain rfl := Option.some.inj hs
    exact h.autoComputeExtentCrc
  | loadExtentFromDisk =>
    obtain rfl := Option.some.inj hs
    exact h.loadExtentFromDisk

/-- Every entry that is not `0` is the checksum of what the block holds. -/
theorem trusted_of_reach (hr : Reach (step crc) NoGap empty e) : e.Trusted crc := by
  have h : e.Inv crc := hr.invariant ⟨rfl, fun _ => .inl rfl⟩ fun _ _ _ h hg hs => inv_step h hg hs
  exact fun b => (h.trusted b).imp_right And.right

/-- One byte, a pass that sets the entry of its block, and a second byte after it. -/
theorem trusted_two_bytes :
    ∃ e, Reach (step byteSum) NoGap empty e ∧ e.file = [1, 2] ∧ e.crcs.header 0 = 5 ∧
      e.Trusted byteSum := by
  have hr : Reach (step byteSum) NoGap empty _ :=
    .of_checked [.write [1] 0, .autoComputeExtentCrc, .write [2] 1, .autoComputeExtentCrc,
      .loadExtentFromDisk] rfl .start
  exact ⟨_, hr, rfl, rfl, trusted_of_reach hr⟩

theorem writeAt_gap (hdata : data = 1 :: replicate 131071 0) :
    writeAt [1] [2] blockSize = data ++ [2] := by
  unfold writeAt
  rw [take_of_length_le (by decide : ([1] : Bytes).length ≤ blockSize), hdata,
    drop_of_length_le (by decide), append_nil]
  rfl

/-- One byte, a pass that sets the entry of its block, and a write to the next block: the first
block is now full, and its entry is not the checksum of the zeros. -/
theorem not_trusted_after_gap :
    ∃ e, Reach (step byteSum) (fun _ _ => True) empty e ∧ ¬ e.Trusted byteSum := by
  obtain ⟨e, hr, hfile, hheader⟩ : ∃ e, Reach (step byteSum) (fun _ _ => True) empty e ∧
      e.file = [1] ∧ e.crcs.header 0 = 2 :=
    ⟨_, .of_foldlM [.write [1] 0, .autoComputeExtentCrc] rfl (fun _ _ _ => trivial) .start, rfl,
      rfl⟩
  obtain ⟨data, hdata, hlen, hsum⟩ := exists_block 1
  have hwrite : ∃ e', e.step byteSum (.write [2] blockSize) = some e' ∧
      e'.file = writeAt e.file [2] blockSize ∧ e'.crcs.header 0 = e.crcs.header 0 := by
    have hcheck : (checkOffsetAndSize blockSize ([2] : Bytes).length &&
        decide (0 ≤ (blockSize : Int))) = true := by decide
    refine ⟨_, (if_pos hcheck : e.write [2] blockSize (byteSum [2]) = _), rfl, ?_⟩
    dsimp only
    rw [BlockCrcs.header_update, if_neg (by decide), if_neg (by decide)]
  obtain ⟨e', hs, hfile', hheader'⟩ := hwrite
  refine ⟨e', hr.next trivial hs, fun h => ?_⟩
  have hentry := h 0
  rw [hheader', hheader, hfile', hfile, writeAt_gap hdata, blockContent_append hlen, hsum] at hentry
  exact absurd hentry (by decide)

end NormalExtent
end ChubaoFS
