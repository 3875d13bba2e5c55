import ChubaoFS.Proto

namespace ChubaoFS

/-- An inode. `ε` is how it holds its extents: by value in a record or a raft
command, by reference in the memory of a meta partition. -/
structure InodeOf (ε : Type) where
  inode : UInt64
  type : UInt32
  uid : UInt32
  gid : UInt32
  size : UInt64
  generation : UInt64
  createTime : Int64
  accessTime : Int64
  modifyTime : Int64
  linkTarget : Bytes
  nLink : UInt32
  flag : Int32
  reserved : UInt64
  extents : ε
  deriving DecidableEq, Inhabited

abbrev Inode := InodeOf ExtentsTree

namespace InodeOf

variable {ε : Type} {i : InodeOf ε}

def key (i : InodeOf ε) : Nat := i.inode.toNat

/-- A new inode; the three times are the clock reading `ts`. -/
def new (extents : ε) (ino : UInt64) (t : UInt32) (ts : Int64) : InodeOf ε where
  inode := ino
  type := t
  uid := 0
  gid := 0
  size := 0
  generation := 1
  createTime := ts
  accessTime := ts
  modifyTime := ts
  linkTarget := []
  nLink := if isDir t then 2 else 1
  flag := 0
  reserved := 0
  extents := extents

def incNLink (i : InodeOf ε) : InodeOf ε := { i with nLink := i.nLink + 1 }

def decNLink (i : InodeOf ε) : InodeOf ε :=
  if isDir i.type then
    if i.nLink > 2 then { i with nLink := i.nLink - 1 } else i
  else
    if i.nLink > 0 then { i with nLink := i.nLink - 1 } else i

def isTempFile (i : InodeOf ε) : Bool := i.nLink == 0

def isEmptyDir (i : InodeOf ε) : Bool := i.nLink == 2

def deleteMarkFlag : Int32 := 1

def setDeleteMark (i : InodeOf ε) : InodeOf ε := { i with flag := i.flag ||| deleteMarkFlag }

def shouldDelete (i : InodeOf ε) : Bool := i.flag &&& deleteMarkFlag == deleteMarkFlag

/-- The mode is set under a bit of the mode itself, not under a bit of `valid`. -/
def setAttr (i : InodeOf ε) (valid mode uid gid : UInt32) : InodeOf ε :=
  { i with
    type := if mode &&& attrMode != 0 then mode else i.type
    uid := if valid &&& attrUid != 0 then uid else i.uid
    gid := if valid &&& attrGid != 0 then gid else i.gid }

def isOrphan (i : InodeOf ε) : Bool := !isDir i.type && (i.shouldDelete || i.nLink == 0)

section

variable (i : InodeOf ε)

@[simp] theorem key_incNLink : i.incNLink.key = i.key := rfl

@[simp] theorem key_setDeleteMark : i.setDeleteMark.key = i.key := rfl

@[simp] theorem key_setAttr (valid mode uid gid : UInt32) :
    (i.setAttr valid mode uid gid).key = i.key := rfl

theorem decNLink_eq : i.decNLink = { i with nLink := i.decNLink.nLink } := by
  unfold decNLink
  split <;> split <;> rfl

@[simp] theorem key_decNLink : i.decNLink.key = i.key := by
  rw [decNLink_eq]
  rfl

@[simp] theorem type_decNLink : i.decNLink.type = i.type := by
  rw [decNLink_eq]

@[simp] theorem inode_decNLink : i.decNLink.inode = i.inode := by
  rw [decNLink_eq]

@[simp] theorem extents_decNLink : i.decNLink.extents = i.extents := by
  rw [decNLink_eq]

@[simp] theorem shouldDelete_decNLink : i.decNLink.shouldDelete = i.shouldDelete := by
  rw [decNLink_eq]
  rfl

@[simp] theorem type_incNLink : i.incNLink.type = i.type := rfl

@[simp] theorem shouldDelete_incNLink : i.incNLink.shouldDelete = i.shouldDelete := rfl

@[simp] theorem shouldDelete_setDeleteMark : i.setDeleteMark.shouldDelete = true := by
  have h : (i.flag ||| deleteMarkFlag) &&& deleteMarkFlag = deleteMarkFlag := by
    apply Int32.toBitVec.inj
    ext k hk
    simp only [Int32.toBitVec_and, Int32.toBitVec_or, BitVec.getElem_and, BitVec.getElem_or]
    cases (deleteMarkFlag.toBitVec)[k] <;> simp
  simpa [shouldDelete, setDeleteMark] using h

end

theorem toNat_incNLink_mod : i.incNLink.nLink.toNat = (i.nLink.toNat + 1) % 2 ^ 32 := by
  rw [incNLink, UInt32.toNat_add]
  rfl

theorem toNat_incNLink (h : i.nLink.toNat + 1 < 2 ^ 32) :
    i.incNLink.nLink.toNat = i.nLink.toNat + 1 :=
  toNat_incNLink_mod.trans (Nat.mod_eq_of_lt h)

theorem toNat_decNLink_file (h : isDir i.type = false) :
    i.decNLink.nLink.toNat = i.nLink.toNat - 1 := by
  unfold decNLink
  rw [if_neg (by simp [h])]
  split
  next hp =>
    have hp' : (1 : UInt32) ≤ i.nLink := by
      rw [UInt32.le_iff_toNat_le]
      exact UInt32.lt_iff_toNat_lt.mp hp
    exact UInt32.toNat_sub_of_le _ _ hp'
  next hp =>
    have hz : ¬ 0 < i.nLink.toNat := fun h => hp (UInt32.lt_iff_toNat_lt.mpr h)
    omega

theorem toNat_decNLink_dir (h : isDir i.type = true) :
    i.decNLink.nLink.toNat = if 2 < i.nLink.toNat then i.nLink.toNat - 1 else i.nLink.toNat := by
  unfold decNLink
  rw [if_pos h]
  by_cases hp : i.nLink > 2
  · have hn : 2 < i.nLink.toNat := UInt32.lt_iff_toNat_lt.mp hp
    have hp' : (1 : UInt32) ≤ i.nLink := by
      rw [UInt32.le_iff_toNat_le]
      exact Nat.le_of_lt (Nat.lt_trans (by decide) hn)
    rw [if_pos hp, if_pos hn]
    exact UInt32.toNat_sub_of_le _ _ hp'
  · have hn : ¬ 2 < i.nLink.toNat := fun hn => hp (UInt32.lt_iff_toNat_lt.mpr hn)
    rw [if_neg hp, if_neg hn]

theorem isTempFile_iff : i.isTempFile = true ↔ i.nLink.toNat = 0 := by
  simp [isTempFile, ← UInt32.toNat_inj]

theorem isEmptyDir_iff : i.isEmptyDir = true ↔ i.nLink.toNat = 2 := by
  simp [isEmptyDir, ← UInt32.toNat_inj]

end InodeOf
end ChubaoFS
