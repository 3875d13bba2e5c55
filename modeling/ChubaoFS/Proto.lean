import Mathlib.Data.Prod.Lex
import Mathlib.Data.List.Lex
import ChubaoFS.Base.OrdTree
import ChubaoFS.Base.Bytes

namespace ChubaoFS

/-! File modes, as the bits of `os.FileMode`. -/

def modeDir : UInt32 := 0x80000000

def modeType : UInt32 := 0x8F280000

def isDir (mode : UInt32) : Bool := mode &&& modeDir != 0

def isRegular (mode : UInt32) : Bool := mode &&& modeType == 0

theorem isDir_eq_false_of_isRegular {mode : UInt32} (h : isRegular mode = true) :
    isDir mode = false := by
  have hz : mode &&& modeType = 0 := by simpa [isRegular] using h
  have hsub : modeDir = modeType &&& modeDir := by decide
  have : mode &&& modeDir = 0 := by rw [hsub, ← UInt32.and_assoc, hz, UInt32.zero_and]
  simp [isDir, this]

theorem isDir_eq_of_kind {m m' : UInt32} (h : m &&& modeType = m' &&& modeType) :
    isDir m = isDir m' := by
  have hsub : modeDir = modeType &&& modeDir := by decide
  unfold isDir
  rw [hsub, ← UInt32.and_assoc, h, UInt32.and_assoc]

theorem isRegular_eq_of_kind {m m' : UInt32} (h : m &&& modeType = m' &&& modeType) :
    isRegular m = isRegular m' := by
  unfold isRegular
  rw [h]

def attrMode : UInt32 := 1

def attrUid : UInt32 := 2

def attrGid : UInt32 := 4

inductive ResultCode
  | opOk
  | opExistErr
  | opNotExistErr
  | opArgMismatchErr
  | opInodeFullErr
  | opAgain
  | opErr
  deriving DecidableEq, Repr

def ResultCode.shouldRetry : ResultCode → Bool
  | opAgain => true
  | opErr => true
  | _ => false

structure ExtentKey where
  fileOffset : UInt64
  partitionId : UInt64
  extentId : UInt64
  extentOffset : UInt64
  size : UInt32
  crc : UInt32
  deriving DecidableEq, Inhabited, Repr

def ExtentKey.fileEnd (k : ExtentKey) : UInt64 := k.fileOffset + k.size.toUInt64

def ExtentKey.sameExtent (k k' : ExtentKey) : Bool :=
  k.partitionId == k'.partitionId && k.extentId == k'.extentId

def ExtentKey.key (k : ExtentKey) : Nat := k.fileOffset.toNat

abbrev ExtentsTree := OrdTree ExtentKey ExtentKey.key

structure Dentry where
  parentId : UInt64
  name : Bytes
  inode : UInt64
  type : UInt32
  deriving DecidableEq, Inhabited, Repr

def dentryKey (parentId : UInt64) (name : Bytes) : ℕ ×ₗ List ℕ :=
  toLex (parentId.toNat, name.map UInt8.toNat)

def Dentry.key (d : Dentry) : ℕ ×ₗ List ℕ := dentryKey d.parentId d.name

abbrev DentryTree := OrdTree Dentry Dentry.key

theorem dentryKey_inj {p p' : UInt64} {n n' : Bytes} :
    dentryKey p n = dentryKey p' n' ↔ p = p' ∧ n = n' := by
  have hinj : Function.Injective (List.map UInt8.toNat) :=
    List.map_injective_iff.mpr fun _ _ h => UInt8.toNat_inj.mp h
  constructor
  · intro h
    obtain ⟨hp, hn⟩ := Prod.mk.inj (toLex_inj.mp h)
    exact ⟨UInt64.toNat_inj.mp hp, hinj hn⟩
  · rintro ⟨rfl, rfl⟩
    rfl

/-! Tiny extents are shared by small files. -/

def tinyExtentStartID : UInt64 := 1

def tinyExtentCount : UInt64 := 64

def isTinyExtent (extentID : UInt64) : Bool :=
  tinyExtentStartID ≤ extentID && extentID < tinyExtentStartID + tinyExtentCount

end ChubaoFS
