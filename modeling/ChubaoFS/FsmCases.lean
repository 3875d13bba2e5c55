import ChubaoFS.FsmOps

namespace ChubaoFS.MetaPartition

open InodeOf

variable {mp : MetaPartition} {i : InodeCell} {ino : UInt64}

section

variable (mp : MetaPartition)

@[simp] theorem inode?_updateInode (ino ino' : UInt64)
    (f : InodeCell → InodeCell) (hf : ∀ i, (f i).key = i.key) :
    (mp.updateInode ino f hf).inode? ino' =
      if ino' = ino then (mp.inode? ino').map f else mp.inode? ino' := by
  simp only [inode?, updateInode, ObjTree.get?_update, UInt64.toNat_inj]

@[simp] theorem inode?_insertInode (i : InodeCell) (ino : UInt64) :
    (mp.insertInode i).inode? ino = if ino = i.inode then some i else mp.inode? ino := by
  simp only [inode?, insertInode, ObjTree.get?_insert, key, UInt64.toNat_inj]

@[simp] theorem inode?_deleteInode (ino ino' : UInt64) :
    (mp.deleteInode ino).inode? ino' = if ino' = ino then none else mp.inode? ino' := by
  simp only [inode?, deleteInode, ObjTree.get?_erase, UInt64.toNat_inj]

end

theorem inode_of_inode? (h : mp.inode? ino = some i) : i.inode = ino := by
  have hk := ObjTree.key_of_get? h
  exact UInt64.toNat_inj.mp hk

theorem inode?_eq_some_iff : mp.inode? ino = some i ↔
      ∃ p, mp.inodeTree.addr? ino.toNat = some p ∧ mp.inodeTree.cell p = i :=
  ObjTree.get?_eq_some_iff

section

variable (mp : MetaPartition)

theorem fsmCreateInode_cases (ino : Inode) :
    (∃ i, mp.inode? ino.inode = some i ∧ mp.fsmCreateInode ino = (mp, .opExistErr)) ∨
    (mp.inode? ino.inode = none ∧ mp.fsmCreateInode ino =
      ({ mp with exts := (load mp.exts ino).1 }.insertInode (load mp.exts ino).2, .opOk)) := by
  unfold fsmCreateInode
  cases h : mp.inode? ino.inode with
  | none => exact .inr ⟨rfl, rfl⟩
  | some i => exact .inl ⟨i, rfl, rfl⟩

theorem fsmCreateLinkInode_cases (ino : Inode) :
    (mp.fsmCreateLinkInode ino = (mp, ⟨.opNotExistErr, none⟩) ∧
      ∀ i, mp.inode? ino.inode = some i → i.shouldDelete = true) ∨
    (∃ i, mp.inode? ino.inode = some i ∧ i.shouldDelete = false ∧ mp.fsmCreateLinkInode ino =
        (mp.updateInode ino.inode incNLink key_incNLink, ⟨.opOk, some i.incNLink⟩)) := by
  unfold fsmCreateLinkInode
  cases h : mp.inode? ino.inode with
  | none => exact .inl ⟨rfl, by simp⟩
  | some i =>
    cases hd : i.shouldDelete with
    | true =>
      refine .inl ⟨by simp [hd], ?_⟩
      intro j hj
      rw [← Option.some.inj hj, hd]
    | false => exact .inr ⟨i, rfl, hd, by simp [hd]⟩

/-- A successful unlink: the inode at `p` loses a link; a file without links goes on the free
list, a directory that is down to two links goes. -/
inductive UnlinkOk (mp : MetaPartition) (ino : Inode) (p : Nat) (i : InodeCell) :
    MetaPartition → Prop
  | file : isDir i.type = false → (i.unlink ino.modifyTime).nLink.toNat ≠ 0 →
      UnlinkOk mp ino p i (mp.updateInode ino.inode (InodeOf.unlink ino.modifyTime)
        (InodeOf.key_unlink ino.modifyTime))
  | freed : isDir i.type = false → (i.unlink ino.modifyTime).nLink.toNat = 0 →
      UnlinkOk mp ino p i ((mp.updateInode ino.inode (InodeOf.unlink ino.modifyTime)
        (InodeOf.key_unlink ino.modifyTime)).pushFree p)
  | dir : isDir i.type = true → (i.unlink ino.modifyTime).nLink.toNat ≠ 2 →
      UnlinkOk mp ino p i (mp.updateInode ino.inode (InodeOf.unlink ino.modifyTime)
        (InodeOf.key_unlink ino.modifyTime))
  | removed : isDir i.type = true → (i.unlink ino.modifyTime).nLink.toNat = 2 →
      UnlinkOk mp ino p i ((mp.updateInode ino.inode (InodeOf.unlink ino.modifyTime)
        (InodeOf.key_unlink ino.modifyTime)).deleteInode ino.inode)

theorem fsmUnlinkInode_cases (ino : Inode) : (mp.fsmUnlinkInode ino = (mp, ⟨.opNotExistErr, none⟩) ∧
      ∀ i, mp.inode? ino.inode = some i → i.shouldDelete = true) ∨
    (∃ p i mp', mp.inodeTree.addr? ino.inode.toNat = some p ∧ mp.inodeTree.cell p = i ∧
      mp.inode? ino.inode = some i ∧ i.shouldDelete = false ∧ UnlinkOk mp ino p i mp' ∧
      mp.fsmUnlinkInode ino = (mp', ⟨.opOk, some (i.unlink ino.modifyTime)⟩)) := by
  unfold fsmUnlinkInode
  simp only [key]
  cases ha : mp.inodeTree.addr? ino.inode.toNat with
  | none =>
    refine .inl ⟨rfl, ?_⟩
    intro i hi
    obtain ⟨p, hp, -⟩ := inode?_eq_some_iff.mp hi
    rw [ha] at hp
    cases hp
  | some p =>
    have hi : mp.inode? ino.inode = some (mp.inodeTree.cell p) :=
      inode?_eq_some_iff.mpr ⟨p, ha, rfl⟩
    cases hd : (mp.inodeTree.cell p).shouldDelete with
    | true =>
      refine .inl ⟨by simp [hd], ?_⟩
      intro i hi'
      rw [hi] at hi'
      rw [← Option.some.inj hi', hd]
    | false =>
      refine .inr ⟨p, mp.inodeTree.cell p, ?_⟩
      by_cases hdir : isDir (mp.inodeTree.cell p).type = true
      · by_cases he : ((mp.inodeTree.cell p).unlink ino.modifyTime).isEmptyDir = true
        · refine ⟨_, rfl, rfl, hi, hd, .removed hdir (isEmptyDir_iff.mp he), ?_⟩
          simp [hd, hdir, he]
        · refine ⟨_, rfl, rfl, hi, hd, .dir hdir (fun h => he (isEmptyDir_iff.mpr h)), ?_⟩
          simp [hd, hdir, he]
      have hfile : isDir (mp.inodeTree.cell p).type = false := by simpa using hdir
      by_cases ht : ((mp.inodeTree.cell p).unlink ino.modifyTime).isTempFile = true
      · refine ⟨_, rfl, rfl, hi, hd, .freed hfile (isTempFile_iff.mp ht), ?_⟩
        simp [hd, hfile, ht]
      refine ⟨_, rfl, rfl, hi, hd, .file hfile (fun h => ht (isTempFile_iff.mpr h)), ?_⟩
      simp [hd, hfile, ht]

theorem fsmEvictInode_cases (ino : Inode) : ((mp.fsmEvictInode ino).1 = mp) ∨
    (∃ i, mp.inode? ino.inode = some i ∧ i.shouldDelete = false ∧
      i.nLink.toNat = (if isDir i.type then 2 else 0) ∧
      (mp.fsmEvictInode ino).1 = mp.updateInode ino.inode setDeleteMark key_setDeleteMark) := by
  unfold fsmEvictInode
  cases h : mp.inode? ino.inode with
  | none => exact .inl rfl
  | some i =>
    cases hd : i.shouldDelete with
    | true => exact .inl (by simp [hd])
    | false =>
      by_cases hdir : isDir i.type = true
      · by_cases he : i.isEmptyDir = true
        · refine .inr ⟨i, rfl, hd, ?_, by simp [hd, hdir, he]⟩
          rw [if_pos hdir]
          exact isEmptyDir_iff.mp he
        · exact .inl (by simp [hd, hdir, he])
      by_cases ht : i.isTempFile = true
      · refine .inr ⟨i, rfl, hd, ?_, by simp [hd, hdir, ht]⟩
        rw [if_neg hdir]
        exact isTempFile_iff.mp ht
      · exact .inl (by simp [hd, hdir, ht])

theorem fsmSetAttr_cases (req : SetattrRequest) : mp.fsmSetAttr req = mp ∨
    (∃ i, mp.inode? req.inode = some i ∧ i.shouldDelete = false ∧
      mp.fsmSetAttr req = mp.updateInode req.inode
        (fun i => i.setAttr req.valid req.mode req.uid req.gid)
        fun i => i.key_setAttr req.valid req.mode req.uid req.gid) := by
  unfold fsmSetAttr
  cases h : mp.inode? req.inode with
  | none => exact .inl rfl
  | some i =>
    cases hd : i.shouldDelete with
    | true => exact .inl (by simp [hd])
    | false => exact .inr ⟨i, rfl, hd, by simp [hd]⟩

inductive ExtentsStep (mp : MetaPartition) (ino : UInt64) : MetaPartition → Prop
  | refused : ExtentsStep mp ino mp
  | changed {i : InodeCell} (exts : ExtentHeap) (extDelCh : List Nat)
      (change : InodeCell → InodeCell) (links : ∀ j : InodeCell, j.SameLinks (change j)) :
      mp.inode? ino = some i → i.shouldDelete = false →
      ExtentsStep mp ino ({ mp with exts := exts, extDelCh := extDelCh }.updateInode ino change
        fun j => congrArg UInt64.toNat (links j).1)

theorem fsmAppendExtents_step (ino : Inode) :
    ExtentsStep mp ino.inode (mp.fsmAppendExtents ino).1 := by
  unfold fsmAppendExtents
  cases h : mp.inode? ino.inode with
  | none => exact .refused
  | some i =>
    cases hd : i.shouldDelete with
    | true => simpa [hd] using ExtentsStep.refused
    | false =>
      have links (j : InodeCell) := j.sameLinks_appendExtents
        (mp.exts.allocAll ino.extents.items).1 (mp.exts.allocAll ino.extents.items).2
        ino.modifyTime
      simpa [hd] using ExtentsStep.changed _ _ _ links h hd

theorem fsmExtentsTruncate_step (ino : Inode) :
    ExtentsStep mp ino.inode (mp.fsmExtentsTruncate ino).1 := by
  unfold fsmExtentsTruncate
  cases h : mp.inode? ino.inode with
  | none => exact .refused
  | some i =>
    cases hd : i.shouldDelete with
    | true => simpa [hd] using ExtentsStep.refused
    | false =>
      by_cases hdir : isDir i.type = true
      · simpa [hd, hdir] using ExtentsStep.refused
      have links (j : InodeCell) := j.sameLinks_extentsTruncate
        (i.extents.ascendGreaterOrEqual (some ino.size.toNat)) ino.size ino.modifyTime
      simpa [hd, hdir] using ExtentsStep.changed _ _ _ links h hd

theorem fsmCreateDentry_cases (dentry : Dentry) :
    (∃ status, status ≠ .opOk ∧ mp.fsmCreateDentry dentry = (mp, status)) ∨
    (∃ i, mp.inode? dentry.parentId = some i ∧ i.shouldDelete = false ∧ isDir i.type = true ∧
      mp.dentryTree.get? dentry.key = none ∧ mp.fsmCreateDentry dentry =
        ({ mp with dentryTree := mp.dentryTree.insert dentry }.updateInode dentry.parentId
          incNLink key_incNLink, .opOk)) := by
  unfold fsmCreateDentry
  cases h : mp.inode? dentry.parentId with
  | none => exact .inl ⟨.opNotExistErr, by decide, rfl⟩
  | some i =>
    cases hd : i.shouldDelete with
    | true => exact .inl ⟨.opNotExistErr, by decide, by simp [hd]⟩
    | false =>
      cases hdir : isDir i.type with
      | false => exact .inl ⟨.opArgMismatchErr, by decide, by simp [hd, hdir]⟩
      | true =>
        cases hk : mp.dentryTree.get? dentry.key with
        | none => exact .inr ⟨i, rfl, hd, hdir, rfl, by simp [hd, hdir]⟩
        | some d =>
          refine .inl ⟨if dentry.type != d.type then .opArgMismatchErr else .opExistErr, ?_, ?_⟩
          · split <;> decide
          · simp [hd, hdir]

def DentryExists (mp : MetaPartition) (dentry : Dentry) : Prop :=
  ∃ i d, mp.inode? dentry.parentId = some i ∧ i.shouldDelete = false ∧ isDir i.type = true ∧
    mp.dentryTree.get? dentry.key = some d ∧ d.type = dentry.type

variable (dentry : Dentry)

theorem fsmCreateDentry_exist_iff :
    (mp.fsmCreateDentry dentry).2 = .opExistErr ↔ mp.DentryExists dentry := by
  unfold fsmCreateDentry DentryExists
  cases mp.inode? dentry.parentId with
  | none => simp
  | some i =>
    cases hd : i.shouldDelete with
    | true => simp [hd]
    | false =>
      cases hdir : isDir i.type with
      | false => simp [hd, hdir]
      | true =>
        cases mp.dentryTree.get? dentry.key with
        | none => simp [hd, hdir]
        | some d =>
          by_cases ht : dentry.type = d.type
          · simp [hd, hdir, ht]
          · simp [hd, hdir, ht, Ne.symm ht]

theorem fsmDeleteDentry_cases : (mp.dentryTree.get? dentry.key = none ∧
      mp.fsmDeleteDentry dentry = (mp, ⟨.opNotExistErr, ⟨0, [], 0, 0⟩⟩)) ∨
    (∃ d, mp.dentryTree.get? dentry.key = some d ∧ mp.fsmDeleteDentry dentry =
        ({ mp with dentryTree := mp.dentryTree.erase dentry.key }.updateInode dentry.parentId
          decParent key_decParent, ⟨.opOk, d⟩)) := by
  unfold fsmDeleteDentry
  cases h : mp.dentryTree.get? dentry.key with
  | none => exact .inl ⟨rfl, rfl⟩
  | some d => exact .inr ⟨d, rfl, rfl⟩

theorem fsmUpdateDentry_cases : (mp.dentryTree.get? dentry.key = none ∧
      mp.fsmUpdateDentry dentry = (mp, ⟨.opNotExistErr, ⟨0, [], 0, 0⟩⟩)) ∨
    (∃ d, mp.dentryTree.get? dentry.key = some d ∧ mp.fsmUpdateDentry dentry =
        ({ mp with dentryTree := mp.dentryTree.insert { d with inode := dentry.inode } },
          ⟨.opOk, { dentry with inode := d.inode }⟩)) := by
  unfold fsmUpdateDentry
  cases h : mp.dentryTree.get? dentry.key with
  | none => exact .inl ⟨rfl, rfl⟩
  | some d => exact .inr ⟨d, rfl, rfl⟩

end

end ChubaoFS.MetaPartition
