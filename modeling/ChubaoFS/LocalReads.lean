import ChubaoFS.Base.Run
import ChubaoFS.PartitionRefine
import ChubaoFS.SnapshotFile

namespace ChubaoFS

/-! Replicas that apply one log, and serve reads in between by their own clocks. -/

structure GetExtentsResponse where
  generation : UInt64
  size : UInt64
  extents : List ExtentKey

namespace MetaPartition

/-- The inode is found by `getInode`, so that listing its extents stamps it too. -/
def extentsList (mp : MetaPartition) (now : Int64) (ino : UInt64) :
    MetaPartition × ResultCode × Option GetExtentsResponse :=
  let (mp, resp) := mp.getInode now ino
  (mp, resp.status, resp.msg.map fun i =>
    ⟨i.generation, i.size, i.extents.items.map fun r => mp.exts.obj r.ref⟩)

end MetaPartition

structure LogReplica where
  mp : MetaPartition
  log : List MetaPartition.Command

inductive LogEvent
  | apply (c : MetaPartition.Command) (copied : List Nat)
  | snapshot
  | inodeGet (now : Int64) (ino : UInt64)
  | extentsList (now : Int64) (ino : UInt64)

namespace LogReplica

def step (s : LogReplica) : LogEvent → Option LogReplica
  | .apply c copied => some ⟨(s.mp.copyInodes copied).apply c, s.log ++ [c]⟩
  | .snapshot => some { s with mp := s.mp.cloneInodeTree }
  | .inodeGet now ino => some { s with mp := (s.mp.getInode now ino).1 }
  | .extentsList now ino => some { s with mp := (s.mp.extentsList now ino).1 }

def FindsTime (mp : MetaPartition) (now : Int64) (ino : UInt64) : Bool :=
  match mp.inode? ino with
  | none => true
  | some i => i.shouldDelete || i.accessTime == now

/-- A read changes no access time. -/
def KeepsTime (s : LogReplica) : LogEvent → Prop
  | .inodeGet now ino => FindsTime s.mp now ino = true
  | .extentsList now ino => FindsTime s.mp now ino = true
  | _ => True

instance (s : LogReplica) (e : LogEvent) : Decidable (s.KeepsTime e) := by
  cases e <;> unfold KeepsTime <;> infer_instance

variable {mp : MetaPartition}

theorem value_getInode {now : Int64} {ino : UInt64} (h : FindsTime mp now ino = true) :
    (mp.getInode now ino).1.value = mp.value := by
  unfold FindsTime at h
  unfold MetaPartition.getInode
  cases hi : mp.inode? ino with
  | none => rfl
  | some i =>
    rw [hi] at h
    dsimp only at h ⊢
    split
    · rfl
    rename_i hd
    have htime : i.accessTime = now := by simpa [hd] using h
    have htouch : i.touch now = i := by
      unfold InodeOf.touch
      rw [← htime]
    refine PartitionValue.ext_get? rfl rfl ?_ rfl
    intro k
    rw [MetaPartition.get?_value, MetaPartition.get?_value]
    unfold MetaPartition.updateInode
    dsimp only
    rw [ObjTree.get?_update]
    split
    next hk =>
      have hi' : mp.inodeTree.get? k = some i := hk ▸ hi
      rw [hi', Option.map_some, htouch]
    · rfl

structure FollowsLog (v : PartitionValue) (s : LogReplica) : Prop where
  owns : s.mp.OwnsExtents
  value : s.mp.value = s.log.foldl PartitionValue.apply v

theorem followsLog_step {v : PartitionValue} {s s' : LogReplica} {e : LogEvent}
    (h : FollowsLog v s) (hk : s.KeepsTime e) (hs : s.step e = some s') : FollowsLog v s' := by
  cases e with
  | apply c copied =>
    obtain rfl := Option.some.inj hs
    have hown := h.owns.copyInodes copied
    refine ⟨hown.apply c, ?_⟩
    dsimp only
    rw [MetaPartition.value_apply hown, MetaPartition.value_copyInodes, h.value, List.foldl_append]
    rfl
  | snapshot =>
    obtain rfl := Option.some.inj hs
    exact ⟨⟨h.owns.held, h.owns.apart⟩, h.value⟩
  | inodeGet now ino | extentsList now ino =>
    obtain rfl := Option.some.inj hs
    exact ⟨h.owns.getInode now ino, (value_getInode hk).trans h.value⟩

theorem followsLog_of_reach {s : LogReplica} (hown : mp.OwnsExtents)
    (h : Reach step KeepsTime ⟨mp, []⟩ s) : FollowsLog mp.value s :=
  h.invariant ⟨hown, rfl⟩ fun _ _ _ hs hk hstep => followsLog_step hs hk hstep

theorem store_live (mp : MetaPartition) :
    mp.store .live = ⟨mp.value.inodeTree, mp.value.dentryTree⟩ := rfl

/-- Replicas that start equal, apply the same commands and serve no read that stamps an inode
store the same bytes. -/
theorem stored_eq_of_log {mp₁ mp₂ : MetaPartition} {s₁ s₂ : LogReplica} (h₁ : mp₁.OwnsExtents)
    (h₂ : mp₂.OwnsExtents) (hstart : mp₁.value = mp₂.value)
    (hr₁ : Reach step KeepsTime ⟨mp₁, []⟩ s₁) (hr₂ : Reach step KeepsTime ⟨mp₂, []⟩ s₂)
    (hlog : s₁.log = s₂.log) :
    inodeFile (s₁.mp.store .live).inodeTree = inodeFile (s₂.mp.store .live).inodeTree ∧
      dentryFile (s₁.mp.store .live).dentryTree = dentryFile (s₂.mp.store .live).dentryTree ∧
      ∀ crc, (s₁.mp.store .live).sign crc = (s₂.mp.store .live).sign crc := by
  have hvalue : s₁.mp.value = s₂.mp.value := by
    rw [(followsLog_of_reach h₁ hr₁).value, (followsLog_of_reach h₂ hr₂).value, hstart, hlog]
  have hstore : s₁.mp.store .live = s₂.mp.store .live := by
    rw [store_live, store_live, hvalue]
  rw [hstore]
  exact ⟨rfl, rfl, fun _ => rfl⟩

def file2 : Inode := InodeOf.new OrdTree.empty 2 0o644 0

def createFile2 : List LogEvent := [.apply (.createInode file2) []]

def createAndRead : List LogEvent :=
  [.apply (.createInode file2) [], .inodeGet 7 3, .extentsList 0 2]

theorem stored_eq_of_log_reads : ∃ s₁ s₂ : LogReplica,
    Reach step KeepsTime ⟨MetaPartition.new 0 100, []⟩ s₁ ∧
      Reach step KeepsTime ⟨MetaPartition.new 0 100, []⟩ s₂ ∧ s₁.log = s₂.log ∧
      s₁.log ≠ [] ∧
      inodeFile (s₁.mp.store .live).inodeTree = inodeFile (s₂.mp.store .live).inodeTree := by
  have hown := MetaPartition.ownsExtents_new 0 100
  refine ⟨_, _, .of_checked createAndRead rfl .start, .of_checked createFile2 rfl .start, ?_,
    nofun, ?_⟩
  · rfl
  · refine (stored_eq_of_log hown hown rfl (.of_checked createAndRead rfl .start)
      (.of_checked createFile2 rfl .start) ?_).1
    rfl

/-- One of the replicas serves a read of the file. -/
theorem read_changes_stored : ∃ s₁ s₂ : LogReplica,
    Reach step (fun _ _ => True) ⟨MetaPartition.new 0 100, []⟩ s₁ ∧
      Reach step (fun _ _ => True) ⟨MetaPartition.new 0 100, []⟩ s₂ ∧ s₁.log = s₂.log ∧
      inodeFile (s₁.mp.store .live).inodeTree ≠ inodeFile (s₂.mp.store .live).inodeTree := by
  refine ⟨_, _, .of_checked createFile2 rfl .start,
    .of_checked (createFile2 ++ [.inodeGet 7 2]) rfl .start, ?_, ?_⟩
  · rfl
  · decide

end LogReplica
end ChubaoFS
