import ChubaoFS.Base.Decimal
import ChubaoFS.Base.Records
import ChubaoFS.PartitionLoad

namespace ChubaoFS

open Bytes

/-! The files of a snapshot: how they are written, and how a partition is loaded from them. -/

def InodeOf.marshal (i : Inode) : Bytes := putSized i.marshalKey ++ putSized i.marshalValue

def Dentry.marshal (d : Dentry) : Bytes := putSized d.marshalKey ++ putSized d.marshalValue

/-- What `storeInode` writes. -/
def inodeFile (t : InodeTree) : Bytes := t.items.flatMap fun i => putSized i.marshal

/-- What `storeDentry` writes. -/
def dentryFile (t : DentryTree) : Bytes := t.items.flatMap fun d => putSized d.marshal

/-- The byte of `|`. -/
def bar : UInt8 := 124

/-- What `storeApplyID` writes. -/
def applyIDFile (applyID cursor : UInt64) : Bytes :=
  putDecimal applyID.toNat ++ bar :: putDecimal cursor.toNat

def SnapshotFiles.sign (crc : Bytes → UInt32) (files : SnapshotFiles) : UInt32 × UInt32 :=
  (crc (inodeFile files.inodeTree), crc (dentryFile files.dentryTree))

structure SnapshotDir where
  inode : Option Bytes
  dentry : Option Bytes
  apply : Option Bytes
  deriving DecidableEq

def SnapshotFiles.dir (files : SnapshotFiles) (applyID cursor : UInt64) : SnapshotDir where
  inode := some (inodeFile files.inodeTree)
  dentry := some (dentryFile files.dentryTree)
  apply := some (applyIDFile applyID cursor)

def InodeOf.unmarshal (i : Inode) (raw : Bytes) : Except SnapErr Inode := do
  let (keyLen, buff) ← (readUInt32 raw).mapError SnapErr.ofRead
  let (keyBytes, buff) ← (readSlice keyLen.toNat buff).mapError SnapErr.ofRead
  let i ← (i.unmarshalKey keyBytes).elim (.error .indexOutOfRange) .ok
  let (valLen, buff) ← (readUInt32 buff).mapError SnapErr.ofRead
  let (valBytes, _) ← (readSlice valLen.toNat buff).mapError SnapErr.ofRead
  (InodeOf.unmarshalValue.result i valBytes).mapError SnapErr.ofRead

def Dentry.unmarshal (d : Dentry) (raw : Bytes) : Except SnapErr Dentry := do
  let (keyLen, buff) ← (readUInt32 raw).mapError SnapErr.ofRead
  let (keyBytes, buff) ← (readSlice keyLen.toNat buff).mapError SnapErr.ofRead
  let d ← (Dentry.unmarshalKey.result d keyBytes).mapError SnapErr.ofRead
  let (valLen, buff) ← (readUInt32 buff).mapError SnapErr.ofRead
  let (valBytes, _) ← (readSlice valLen.toNat buff).mapError SnapErr.ofRead
  (Dentry.unmarshalValue.result d valBytes).mapError SnapErr.ofRead

inductive RecordFile
  | inode
  | dentry
  deriving DecidableEq, Repr

inductive LoadErr
  | readHeader (file : RecordFile) (e : ReadErr)
  | readBody (file : RecordFile) (e : ReadErr)
  | unmarshal (file : RecordFile) (e : SnapErr)
  | createDentry (status : ResultCode)
  | applyIDEmpty
  | readApplyID
  deriving DecidableEq, Repr

def LoadErr.record (file : RecordFile) : RecordErr LoadErr := ⟨.readHeader file, .readBody file⟩

namespace MetaPartition

def fsmForceDentry (mp : MetaPartition) (dentry : Dentry) : MetaPartition × ResultCode :=
  match mp.dentryTree.get? dentry.key with
  | some d => (mp, if dentry.type != d.type then .opArgMismatchErr else .opExistErr)
  | none => ({ mp with dentryTree := mp.dentryTree.insert dentry }, .opOk)

def putInode (now : Int64) (mp : MetaPartition) (body : Bytes) : Except LoadErr MetaPartition :=
  match (InodeOf.new OrdTree.empty 0 0 now : Inode).unmarshal body with
  | .error e => .error (.unmarshal .inode e)
  | .ok ino => .ok (mp.loadInode ino)

def putDentry (mp : MetaPartition) (body : Bytes) : Except LoadErr MetaPartition :=
  match (⟨0, [], 0, 0⟩ : Dentry).unmarshal body with
  | .error e => .error (.unmarshal .dentry e)
  | .ok dentry =>
    let (mp, status) := mp.fsmForceDentry dentry
    if status = .opOk then .ok mp else .error (.createDentry status)

def scanApplyID (data : Bytes) : Option (UInt64 × UInt64) :=
  match scanUInt64 data with
  | none => none
  | some (applyID, rest) =>
    if data.contains bar then
      match rest with
      | [] => none
      | c :: rest =>
        if c = bar then (scanUInt64 rest).map fun (cursor, _) => (applyID, cursor) else none
    else some (applyID, 0)

def loadApplyID (mp : MetaPartition) : Option Bytes → Except LoadErr (MetaPartition × UInt64)
  | none => .ok (mp, 0)
  | some data =>
    if data = [] then .error .applyIDEmpty
    else
      match scanApplyID data with
      | none => .error .readApplyID
      | some (applyID, cursor) =>
        .ok ({ mp with cursor := if cursor > mp.cursor then cursor else mp.cursor }, applyID)

def loadFile (file : RecordFile) (put : MetaPartition → Bytes → Except LoadErr MetaPartition)
    (mp : MetaPartition) : Option Bytes → Except LoadErr MetaPartition
  | none => .ok mp
  | some b => readFile (LoadErr.record file) put mp b

def loadDir (mp : MetaPartition) (now : Int64) (dir : SnapshotDir) :
    Except LoadErr (MetaPartition × UInt64) := do
  let mp ← loadFile .inode (putInode now) mp dir.inode
  let mp ← loadFile .dentry putDentry mp dir.dentry
  mp.loadApplyID dir.apply

end MetaPartition
end ChubaoFS
