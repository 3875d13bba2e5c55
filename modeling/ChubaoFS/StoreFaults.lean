import ChubaoFS.SnapshotDisk

namespace ChubaoFS

/-! Stores of which some calls fail. -/

namespace StoreJob

def records (job : StoreJob) : SnapName → Nat
  | .inode => job.files.inodeTree.length
  | .dentry => job.files.dentryTree.length
  | .apply => 1
  | .sign => 0

/-- The marshals, the writes and the syncs of `storeInode`, `storeDentry` and `storeApplyID`. -/
def writesAt (job : StoreJob) : StorePoint → Bool
  | .marshal f i => f != .apply && i < job.records f
  | .writeLen f i => f != .apply && i < job.records f
  | .writeBody f i => i < job.records f
  | .sync f => f != .sign
  | _ => false

end StoreJob

namespace StoreProg

def runStore (out : StorePoint → Outcome) (job : StoreJob) (d : Disk) : Disk × Bool :=
  (store job .ret).run (fun _ => Disk.exec out) 0 d

theorem ended_runStore (out : StorePoint → Outcome) (job : StoreJob) {d : Disk} {old : StoreDir}
    (hs : d.snapshot = some old) :
    Ended out job old d (runStore out job d).2 (runStore out job d).1 := by
  have hrun : (store job .ret).Along (Disk.exec out) (fun _ => True)
      (fun ok d' => Ended out job old d ok d') d :=
    along_store (fun _ _ => trivial) (fun ok d' h => ⟨trivial, h⟩) hs
  exact hrun.run 0

/-- When a marshal, a write or a sync of the store fails, the store returns an error and the old
snapshot stays if and only if some call fails that the new directory needs to come into its place;
a failed write alone is not reported. -/
theorem runStore_reports (out : StorePoint → Outcome) (job : StoreJob) (d : Disk) (old : StoreDir)
    (hs : d.snapshot = some old) (hap : Apart d old) :
    ∀ p, job.writesAt p = true → (out p).isOk = false →
      (((runStore out job d).2 = false ∧ (runStore out job d).1.recover.snapshot = some old) ↔
        publishes out d.backup.isSome = false) := by
  intro p _ _
  have hend := ended_runStore out job hs
  generalize runStore out job d = r at hend ⊢
  obtain ⟨d', ok⟩ := r
  cases hend with
  | kept hp hkept =>
    refine iff_of_true ⟨rfl, ?_⟩ hp
    obtain hs | ⟨hs, hb⟩ := hkept
    · exact Disk.recover_of_snapshot hs
    · exact Disk.recover_of_backup hs hb
  | new hp hnew hid =>
    refine iff_of_false ?_ (by rw [hp]; exact nofun)
    rintro ⟨-, hkept⟩
    rw [Disk.recover_of_snapshot hnew] at hkept
    exact hid hap (congrArg StoreDir.id (Option.some.inj hkept))

def emptyJob : StoreJob := ⟨⟨OrdTree.empty, OrdTree.empty⟩, 3, 10, []⟩

def emptyDir : StoreDir where
  id := 0
  inode := some ⟨[], true⟩
  dentry := some ⟨[], true⟩
  apply := some ⟨applyIDFile 3 10, true⟩
  sign := some ⟨[], true⟩

def emptyDisk : Disk := ⟨some emptyDir, none, none, 1, 0⟩

def oneInodeJob : StoreJob :=
  ⟨⟨OrdTree.empty.insert (InodeOf.new OrdTree.empty 11 0o644 0), OrdTree.empty⟩, 4, 11, []⟩

def failAt (p : StorePoint) : StorePoint → Outcome := fun q => if q = p then .fail 5 [] else .ok

/-- A sync that fails is reported, and the empty snapshot stays. -/
theorem runStore_reports_sync : oneInodeJob.writesAt (.sync .inode) = true ∧
    (runStore (failAt (.sync .inode)) oneInodeJob emptyDisk).2 = false ∧
      (runStore (failAt (.sync .inode)) oneInodeJob emptyDisk).1.recover.snapshot = some emptyDir :=
  ⟨rfl, (runStore_reports (failAt (.sync .inode)) oneInodeJob emptyDisk emptyDir rfl
    ⟨nofun, nofun⟩ (.sync .inode) rfl rfl).mpr rfl⟩

/-- The body of the record is not written, but the sync that follows succeeds: the store returns
no error, and the partition cannot be loaded any more. -/
theorem failed_write_published : oneInodeJob.writesAt (.writeBody .inode 0) = true ∧
    (failAt (.writeBody .inode 0) (.writeBody .inode 0)).isOk = false ∧
      (runStore (failAt (.writeBody .inode 0)) oneInodeJob emptyDisk).2 = true ∧
      (runStore (failAt (.writeBody .inode 0)) oneInodeJob emptyDisk).1.recover.snapshot ≠
        some emptyDir ∧
      (MetaPartition.new 0 100).loadDir 0
        (runStore (failAt (.writeBody .inode 0)) oneInodeJob emptyDisk).1.recover.contents =
          .error (.readBody .inode .unexpectedEOF) := by
  refine ⟨rfl, rfl, rfl, ?_, rfl⟩
  decide +kernel

end StoreProg
end ChubaoFS
