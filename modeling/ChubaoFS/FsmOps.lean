import ChubaoFS.Partition

namespace ChubaoFS

structure SetattrRequest where
  inode : UInt64
  mode : UInt32
  uid : UInt32
  gid : UInt32
  valid : UInt32
  deriving DecidableEq

structure InodeResponse where
  status : ResultCode
  msg : Option InodeCell

structure DentryResponse where
  status : ResultCode
  msg : Dentry

namespace MetaPartition

def fsmCreateInode (mp : MetaPartition) (ino : Inode) : MetaPartition × ResultCode :=
  match mp.inode? ino.inode with
  | some _ => (mp, .opExistErr)
  | none =>
    let (exts, cell) := load mp.exts ino
    ({ mp with exts := exts }.insertInode cell, .opOk)

def applyCreateInode (mp : MetaPartition) (ino : Inode) : MetaPartition × ResultCode :=
  { mp with cursor := if mp.cursor < ino.inode then ino.inode else mp.cursor }.fsmCreateInode ino

def fsmCreateLinkInode (mp : MetaPartition) (ino : Inode) : MetaPartition × InodeResponse :=
  match mp.inode? ino.inode with
  | none => (mp, ⟨.opNotExistErr, none⟩)
  | some i =>
    if i.shouldDelete then (mp, ⟨.opNotExistErr, none⟩)
    else (mp.updateInode ino.inode InodeOf.incNLink InodeOf.key_incNLink, ⟨.opOk, some i.incNLink⟩)

def getInode (mp : MetaPartition) (now : Int64) (ino : UInt64) : MetaPartition × InodeResponse :=
  match mp.inode? ino with
  | none => (mp, ⟨.opNotExistErr, none⟩)
  | some i =>
    if i.shouldDelete then (mp, ⟨.opNotExistErr, none⟩)
    else (mp.updateInode ino (InodeOf.touch now) (InodeOf.key_touch now),
      ⟨.opOk, some (i.touch now)⟩)

def fsmUnlinkInode (mp : MetaPartition) (ino : Inode) : MetaPartition × InodeResponse :=
  match mp.inodeTree.addr? ino.key with
  | none => (mp, ⟨.opNotExistErr, none⟩)
  | some p =>
    if (mp.inodeTree.cell p).shouldDelete then (mp, ⟨.opNotExistErr, none⟩)
    else
      let inode := (mp.inodeTree.cell p).unlink ino.modifyTime
      let mp := mp.updateInode ino.inode (InodeOf.unlink ino.modifyTime)
        (InodeOf.key_unlink ino.modifyTime)
      if !isDir inode.type then
        if inode.isTempFile then (mp.pushFree p, ⟨.opOk, some inode⟩)
        else (mp, ⟨.opOk, some inode⟩)
      else if inode.isEmptyDir then (mp.deleteInode ino.inode, ⟨.opOk, some inode⟩)
      else (mp, ⟨.opOk, some inode⟩)

def fsmEvictInode (mp : MetaPartition) (ino : Inode) : MetaPartition × InodeResponse :=
  match mp.inode? ino.inode with
  | none => (mp, ⟨.opNotExistErr, none⟩)
  | some i =>
    if i.shouldDelete then (mp, ⟨.opOk, none⟩)
    else if isDir i.type then
      if i.isEmptyDir then
        (mp.updateInode ino.inode InodeOf.setDeleteMark InodeOf.key_setDeleteMark, ⟨.opOk, none⟩)
      else (mp, ⟨.opOk, none⟩)
    else if i.isTempFile then
      (mp.updateInode ino.inode InodeOf.setDeleteMark InodeOf.key_setDeleteMark, ⟨.opOk, none⟩)
    else (mp, ⟨.opOk, none⟩)

def fsmSetAttr (mp : MetaPartition) (req : SetattrRequest) : MetaPartition :=
  match mp.inode? req.inode with
  | none => mp
  | some i =>
    if i.shouldDelete then mp
    else mp.updateInode req.inode (fun i => i.setAttr req.valid req.mode req.uid req.gid)
        fun i => i.key_setAttr req.valid req.mode req.uid req.gid

def fsmAppendExtents (mp : MetaPartition) (ino : Inode) : MetaPartition × ResultCode :=
  match mp.inode? ino.inode with
  | none => (mp, .opNotExistErr)
  | some i =>
    if i.shouldDelete then (mp, .opNotExistErr)
    else
      let (exts, refs) := mp.exts.allocAll ino.extents.items
      let items := (i.appendExtents exts refs ino.modifyTime).2
      ({ mp with exts := exts, extDelCh := mp.extDelCh ++ items.map ExtentRef.ref }.updateInode
        ino.inode (fun i => (i.appendExtents exts refs ino.modifyTime).1)
        fun i => congrArg UInt64.toNat (i.sameLinks_appendExtents exts refs ino.modifyTime).1,
          .opOk)

def fsmExtentsTruncate (mp : MetaPartition) (ino : Inode) : MetaPartition × ResultCode :=
  match mp.inode? ino.inode with
  | none => (mp, .opNotExistErr)
  | some i =>
    if i.shouldDelete then (mp, .opNotExistErr)
    else if isDir i.type then (mp, .opArgMismatchErr)
    else
      let delExtents := i.extents.ascendGreaterOrEqual (some ino.size.toNat)
      let i' := i.extentsTruncate delExtents ino.size ino.modifyTime
      ({ mp with
          exts := InodeOf.cutLast mp.exts i'.extents ino.size
          extDelCh := mp.extDelCh ++ delExtents.map ExtentRef.ref }.updateInode ino.inode
        (fun i => i.extentsTruncate delExtents ino.size ino.modifyTime) fun _ => rfl, .opOk)

def fsmCreateDentry (mp : MetaPartition) (dentry : Dentry) : MetaPartition × ResultCode :=
  match mp.inode? dentry.parentId with
  | none => (mp, .opNotExistErr)
  | some parIno =>
    if parIno.shouldDelete then (mp, .opNotExistErr)
    else if !isDir parIno.type then (mp, .opArgMismatchErr)
    else
      match mp.dentryTree.get? dentry.key with
      | some d => (mp, if dentry.type != d.type then .opArgMismatchErr else .opExistErr)
      | none =>
        ({ mp with dentryTree := mp.dentryTree.insert dentry }.updateInode dentry.parentId
          InodeOf.incNLink InodeOf.key_incNLink, .opOk)

def getDentry (mp : MetaPartition) (dentry : Dentry) : Option Dentry × ResultCode :=
  match mp.dentryTree.get? dentry.key with
  | none => (none, .opNotExistErr)
  | some d => (some d, .opOk)

def decParent (i : InodeCell) : InodeCell := if i.shouldDelete then i else i.decNLink

theorem key_decParent (i : InodeCell) : (decParent i).key = i.key := by
  unfold decParent
  split
  · rfl
  · exact i.key_decNLink

theorem type_decParent (i : InodeCell) : (decParent i).type = i.type := by
  unfold decParent
  split
  · rfl
  · exact i.type_decNLink

def fsmDeleteDentry (mp : MetaPartition) (dentry : Dentry) : MetaPartition × DentryResponse :=
  match mp.dentryTree.get? dentry.key with
  | none => (mp, ⟨.opNotExistErr, ⟨0, [], 0, 0⟩⟩)
  | some d =>
    ({ mp with dentryTree := mp.dentryTree.erase dentry.key }.updateInode dentry.parentId
      decParent key_decParent, ⟨.opOk, d⟩)

def fsmUpdateDentry (mp : MetaPartition) (dentry : Dentry) : MetaPartition × DentryResponse :=
  match mp.dentryTree.get? dentry.key with
  | none => (mp, ⟨.opNotExistErr, ⟨0, [], 0, 0⟩⟩)
  | some d =>
    ({ mp with dentryTree := mp.dentryTree.insert { d with inode := dentry.inode } },
      ⟨.opOk, { dentry with inode := d.inode }⟩)

def internalDelete (mp : MetaPartition) (inos : List UInt64) : MetaPartition :=
  inos.foldl deleteInode mp

def cloneInodeTree (mp : MetaPartition) : MetaPartition :=
  { mp with shared := mp.inodeTree.index.items.map Prod.snd }

def storeTick (mp : MetaPartition) : MetaPartition :=
  { mp.cloneInodeTree with
    storeChan := mp.storeChan ++ [.clone mp.inodeTree.index mp.dentryTree] }

inductive Command
  | createInode (ino : Inode)
  | unlinkInode (ino : Inode)
  | createDentry (dentry : Dentry)
  | deleteDentry (dentry : Dentry)
  | updatePartition (endId : UInt64)
  | extentsAdd (ino : Inode)
  | storeTick
  | updateDentry (dentry : Dentry)
  | extentTruncate (ino : Inode)
  | createLinkInode (ino : Inode)
  | evictInode (ino : Inode)
  | internalDeleteInode (inos : List UInt64)
  | setAttr (req : SetattrRequest)

def apply (mp : MetaPartition) : Command → MetaPartition
  | .createInode ino => (mp.applyCreateInode ino).1
  | .unlinkInode ino => (mp.fsmUnlinkInode ino).1
  | .createDentry dentry => (mp.fsmCreateDentry dentry).1
  | .deleteDentry dentry => (mp.fsmDeleteDentry dentry).1
  | .updatePartition endId => { mp with endId := endId }
  | .extentsAdd ino => (mp.fsmAppendExtents ino).1
  | .storeTick => mp.storeTick
  | .updateDentry dentry => (mp.fsmUpdateDentry dentry).1
  | .extentTruncate ino => (mp.fsmExtentsTruncate ino).1
  | .createLinkInode ino => (mp.fsmCreateLinkInode ino).1
  | .evictInode ino => (mp.fsmEvictInode ino).1
  | .internalDeleteInode inos => mp.internalDelete inos
  | .setAttr req => mp.fsmSetAttr req

def copyInodes (mp : MetaPartition) (copied : List Nat) : MetaPartition :=
  { mp with inodeTree := mp.inodeTree.copyItems copied }

def isShared (mp : MetaPartition) (k : Nat) : Bool :=
  match mp.inodeTree.addr? k with
  | none => false
  | some p => mp.shared.contains p

/-- Only inodes that a snapshot shares are copied. -/
def CopiesFor (mp : MetaPartition) (copied : List Nat) : Prop :=
  copied.Nodup ∧ ∀ k ∈ copied, mp.isShared k = true

instance (mp : MetaPartition) (copied : List Nat) : Decidable (mp.CopiesFor copied) :=
  inferInstanceAs (Decidable (copied.Nodup ∧ ∀ k ∈ copied, mp.isShared k = true))

def copyGets (mp : MetaPartition) : Command → Option UInt64
  | .unlinkInode ino => some ino.inode
  | .createDentry dentry => some dentry.parentId
  | .deleteDentry dentry =>
    if (mp.dentryTree.get? dentry.key).isSome then some dentry.parentId else none
  | .extentsAdd ino => some ino.inode
  | .extentTruncate ino => some ino.inode
  | .createLinkInode ino => some ino.inode
  | .evictInode ino => some ino.inode
  | .setAttr req => some req.inode
  | _ => none

end MetaPartition
end ChubaoFS
