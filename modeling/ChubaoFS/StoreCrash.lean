import ChubaoFS.SnapshotRoundTrip
import ChubaoFS.StoreFaults

namespace ChubaoFS

open MetaPartition

/-! Dumps of a partition, with crashes between any two calls of them. -/

namespace StoreDir

def crashFile (junk : Option Bytes) : Option DiskFile → Option DiskFile
  | none => none
  | some x => if x.synced then some x else junk.map fun b => ⟨b, true⟩

def crash (junk : SnapName → Option Bytes) (dir : StoreDir) : StoreDir where
  id := dir.id
  inode := crashFile (junk .inode) dir.inode
  dentry := crashFile (junk .dentry) dir.dentry
  apply := crashFile (junk .apply) dir.apply
  sign := crashFile (junk .sign) dir.sign

end StoreDir

def Disk.crash (junk : DirName → SnapName → Option Bytes) (d : Disk) : Disk :=
  { d with
    snapshot := d.snapshot.map (StoreDir.crash (junk .snapshot))
    tmp := d.tmp.map (StoreDir.crash (junk .tmp))
    backup := d.backup.map (StoreDir.crash (junk .backup)) }

/-- A partition that dumps itself. Of a dump that runs, the job and the calls that are left are
kept; `saved` is what the last dump that came to its end has stored, or the last start found. -/
structure DumpNode where
  disk : Disk
  curIndex : UInt64
  running : Option (StoreJob × StoreProg Bool)
  saved : StoreJob

inductive DumpEvent
  | dump (job : StoreJob) (raft : Bool)
  | call
  | finish
  | crash (junk : DirName → SnapName → Option Bytes) (start endId : UInt64) (now : Int64)

def SnapshotFiles.Fits (files : SnapshotFiles) : Prop :=
  (∀ i ∈ files.inodeTree.items, i.marshal.length < 2 ^ 32) ∧
    ∀ d ∈ files.dentryTree.items, d.marshal.length < 2 ^ 32

instance (files : SnapshotFiles) : Decidable files.Fits := by
  unfold SnapshotFiles.Fits
  infer_instance

namespace DumpNode

open StoreProg

def start (disk : Disk) (saved : StoreJob) : DumpNode := ⟨disk, saved.applyID, none, saved⟩

def found (s : DumpNode) (disk : Disk) : StoreJob :=
  match s.running with
  | some (job, _) => if disk.contents = job.dir then job else s.saved
  | none => s.saved

def step (s : DumpNode) : DumpEvent → Option DumpNode
  | .dump job raft =>
    match s.running with
    | some _ => none
    | none =>
      if s.curIndex < job.applyID then
        some { s with running := some (job, dump s.curIndex raft job) }
      else none
  | .call =>
    match s.running with
    | some (job, .call p c k) =>
      let r := s.disk.exec (fun _ => .ok) p c
      some { s with disk := r.1, running := some (job, k r.2) }
    | _ => none
  | .finish =>
    match s.running with
    | some (job, .ret true) =>
      some { s with curIndex := job.applyID, running := none, saved := job }
    | some (_, .ret false) => some { s with running := none }
    | _ => none
  | .crash junk start endId now =>
    let disk := (s.disk.crash junk).recover
    match (MetaPartition.new start endId).loadDir now disk.contents with
    | .error _ => none
    | .ok (_, applyID) => some ⟨disk, applyID, none, s.found disk⟩

inductive Stepped (s : DumpNode) : DumpEvent → DumpNode → Prop
  | dump {job : StoreJob} {raft : Bool} (hr : s.running = none) (hlt : s.curIndex < job.applyID) :
      Stepped s (.dump job raft) { s with running := some (job, dump s.curIndex raft job) }
  | call {job : StoreJob} {p : StorePoint} {c : DiskCall} {k : Bool → StoreProg Bool}
      (hr : s.running = some (job, .call p c k)) :
      Stepped s .call
        { s with
          disk := (s.disk.exec (fun _ => .ok) p c).1
          running := some (job, k (s.disk.exec (fun _ => .ok) p c).2) }
  | finish {job : StoreJob} (hr : s.running = some (job, .ret true)) :
      Stepped s .finish { s with curIndex := job.applyID, running := none, saved := job }
  | fail {job : StoreJob} (hr : s.running = some (job, .ret false)) :
      Stepped s .finish { s with running := none }
  | crash (junk : DirName → SnapName → Option Bytes) {start endId applyID : UInt64} {now : Int64}
      {mp : MetaPartition} (hload : (MetaPartition.new start endId).loadDir now
        (s.disk.crash junk).recover.contents = .ok (mp, applyID)) :
      Stepped s (.crash junk start endId now)
        ⟨(s.disk.crash junk).recover, applyID, none, s.found (s.disk.crash junk).recover⟩

variable {s s' : DumpNode} {e : DumpEvent}

theorem stepped_of_step (hs : s.step e = some s') : Stepped s e s' := by
  unfold step at hs
  split at hs
  next job raft =>
    split at hs
    · cases hs
    rename_i hr
    split at hs
    next hlt =>
      cases hs
      exact .dump hr hlt
    · cases hs
  · split at hs
    next hr =>
      cases hs
      exact .call hr
    · cases hs
  · split at hs
    next hr =>
      cases hs
      exact .finish hr
    next hr =>
      cases hs
      exact .fail hr
    · cases hs
  · dsimp only at hs
    split at hs
    · cases hs
    next hload =>
      cases hs
      exact .crash _ hload

/-- Every record of a message that is dumped fits its length field. -/
def DumpsFit (_ : DumpNode) : DumpEvent → Prop
  | .dump job _ => job.files.Fits
  | _ => True

instance (s : DumpNode) (e : DumpEvent) : Decidable (s.DumpsFit e) := by
  cases e <;> unfold DumpsFit <;> infer_instance

def Holds (job : StoreJob) (d : Disk) : Prop :=
  (∃ dir, d.snapshot = some dir ∧ Saved job dir) ∧ d.truncated ≤ job.applyID

def Recoverable (saved job : StoreJob) (d : Disk) : Prop :=
  Holds saved d ∨ (d.snapshot = none ∧ (∃ dir, d.backup = some dir ∧ Saved saved dir) ∧
    d.truncated ≤ saved.applyID) ∨ Holds job d

variable {job : StoreJob} {dir : StoreDir}

theorem saved_crash (h : Saved job dir) (junk : SnapName → Option Bytes) :
    Saved job (dir.crash junk) := by
  refine ⟨?_, ?_, ?_⟩
  · rw [StoreDir.crash, h.inode]
    rfl
  · rw [StoreDir.crash, h.dentry]
    rfl
  · rw [StoreDir.crash, h.apply]
    rfl

variable {d : Disk}

theorem Holds.crash (h : Holds job d) (junk : DirName → SnapName → Option Bytes) :
    Holds job (d.crash junk).recover := by
  obtain ⟨⟨dir, hs, hdir⟩, ht⟩ := h
  have hs' : (d.crash junk).snapshot = some (dir.crash (junk .snapshot)) := by
    rw [Disk.crash, hs]
    rfl
  refine ⟨⟨_, Disk.recover_of_snapshot hs', saved_crash hdir _⟩, ?_⟩
  rw [Disk.truncated_recover]
  exact ht

variable {saved : StoreJob}

theorem Recoverable.crash (h : Recoverable saved job d) (junk : DirName → SnapName → Option Bytes) :
    Holds saved (d.crash junk).recover ∨ Holds job (d.crash junk).recover := by
  obtain h | ⟨hs, ⟨dir, hb, hdir⟩, ht⟩ | h := h
  · exact .inl (h.crash junk)
  · have hs' : (d.crash junk).snapshot = none := by
      rw [Disk.crash, hs]
      rfl
    have hb' : (d.crash junk).backup = some (dir.crash (junk .backup)) := by
      rw [Disk.crash, hb]
      rfl
    refine .inl ⟨⟨_, Disk.recover_of_backup hs' hb', saved_crash hdir _⟩, ?_⟩
    rw [Disk.truncated_recover]
    exact ht
  · exact .inr (h.crash junk)

theorem Holds.contents (h : Holds job d) : d.contents = job.dir := by
  obtain ⟨⟨dir, hs, hdir⟩, -⟩ := h
  rw [Disk.contents, hs]
  dsimp only [StoreDir.contents]
  rw [hdir.inode, hdir.dentry, hdir.apply]
  rfl

theorem Holds.load (h : Holds job d) (hfit : job.files.Fits) (start endId : UInt64) (now : Int64) :
    ∃ mp, (new start endId).loadDir now d.contents = .ok (mp, job.applyID) ∧
      mp.store .live = job.files := by
  rw [h.contents]
  obtain ⟨mp, hload, hstore, -⟩ := loadDir_of_fits start endId job.applyID job.cursor
    now hfit.1 hfit.2
  exact ⟨mp, hload, hstore⟩

theorem allOk_ok : AllOk fun _ => .ok := fun _ => rfl

theorem along_dump (h : Holds saved d) (hnew : saved.applyID < job.applyID) (raft : Bool) :
    (dump saved.applyID raft job).Along (Disk.exec fun _ => .ok) (Recoverable saved job)
      (fun ok d => ok = true ∧ Holds job d) d := by
  obtain ⟨⟨old, hs, hold⟩, ht⟩ := h
  have hlt := UInt64.le_trans ht (UInt64.le_of_lt hnew)
  refine along_store ?_ ?_ hs
  · intro d' hd'
    cases hd' with
    | old hs' ht' => exact .inl ⟨⟨old, hs', hold⟩, ht' ▸ ht⟩
    | between hs' hb' ht' => exact .inr (.inl ⟨hs', ⟨old, hb', hold⟩, ht' ▸ ht⟩)
    | new hs' _ hw ht' => exact .inr (.inr ⟨⟨_, hs', hw allOk_ok⟩, ht' ▸ hlt⟩)
  · intro ok d' hd'
    generalize hok : ok = ok' at hd'
    cases hd' with
    | kept hp => cases hb : d.backup.isSome <;> rw [hb] at hp <;> cases hp
    | new _ hs' _ hw ht' =>
      obtain rfl : ok = true := hok
      have hheld : Holds job d' := ⟨⟨_, hs', hw allOk_ok⟩, ht' ▸ hlt⟩
      cases raft with
      | false => exact ⟨.inr (.inr hheld), rfl, hheld⟩
      | true =>
        have htrunc : Holds job (d'.exec (fun _ => .ok) .truncate (.truncate saved.applyID)).1 := by
          refine ⟨hheld.1, ?_⟩
          dsimp only [Disk.exec]
          split
          · exact UInt64.le_of_lt hnew
          · exact hheld.2
        exact ⟨.inr (.inr hheld), .inr (.inr htrunc), rfl, htrunc⟩

def Runs (s : DumpNode) (job : StoreJob) (p : StoreProg Bool) : Prop :=
  s.saved.applyID < job.applyID ∧ p.Along (Disk.exec fun _ => .ok) (Recoverable s.saved job)
      (fun ok d => ok = true ∧ Holds job d) s.disk

def Image (s : DumpNode) (job : StoreJob) : Prop :=
  job = s.saved ∨ s.running.map Prod.fst = some job

structure Sound (s : DumpNode) : Prop where
  cur : s.curIndex = s.saved.applyID
  idle : s.running = none → Holds s.saved s.disk
  runs : ∀ job p, s.running = some (job, p) → s.Runs job p

theorem Sound.crash (h : s.Sound) (junk : DirName → SnapName → Option Bytes) :
    ∃ image, s.Image image ∧ Holds image (s.disk.crash junk).recover := by
  cases hr : s.running with
  | none => exact ⟨s.saved, .inl rfl, (h.idle hr).crash junk⟩
  | some r =>
    obtain h | h := (h.runs r.1 r.2 hr).2.here.crash junk
    · exact ⟨s.saved, .inl rfl, h⟩
    · exact ⟨r.1, .inr (by rw [hr]; rfl), h⟩

theorem saved_of_contents {job' : StoreJob} (h : Saved job dir) (hc : dir.contents = job'.dir) :
    Saved job' dir := by
  unfold StoreDir.contents at hc
  rw [h.inode, h.dentry, h.apply] at hc
  obtain ⟨hi, hd, ha⟩ := SnapshotDir.mk.inj hc
  refine ⟨?_, ?_, ?_⟩
  · rw [h.inode, ← Option.some.inj hi]
  · rw [h.dentry, ← Option.some.inj hd]
  · rw [h.apply, ← Option.some.inj ha]

theorem Sound.found (h : s.Sound) (junk : DirName → SnapName → Option Bytes) :
    Holds (s.found (s.disk.crash junk).recover) (s.disk.crash junk).recover := by
  unfold DumpNode.found
  split
  next job p hr =>
    obtain ⟨hlt, hall⟩ := h.runs job p hr
    have hrec := hall.here.crash junk
    split
    next hc =>
      obtain ⟨⟨dir, hs, hdir⟩, ht⟩ | hjob := hrec
      · rw [Disk.contents, hs] at hc
        exact ⟨⟨dir, hs, saved_of_contents hdir hc⟩, UInt64.le_trans ht (UInt64.le_of_lt hlt)⟩
      · exact hjob
    next hc =>
      obtain hsaved | hjob := hrec
      · exact hsaved
      · exact absurd hjob.contents hc
  next hr => exact (h.idle hr).crash junk

theorem Sound.step (h : s.Sound) (hs : s.step e = some s') : s'.Sound := by
  cases stepped_of_step hs with
  | dump hr hlt =>
    refine ⟨h.cur, nofun, fun job' p hp => ?_⟩
    cases hp
    rw [h.cur] at hlt ⊢
    exact ⟨hlt, along_dump (h.idle hr) hlt _⟩
  | call hr =>
    refine ⟨h.cur, nofun, fun job' p' hp => ?_⟩
    cases hp
    obtain ⟨hlt, hall⟩ := h.runs _ _ hr
    exact ⟨hlt, hall.2⟩
  | finish hr => exact ⟨rfl, fun _ => (h.runs _ _ hr).2.2.2, nofun⟩
  | fail hr => cases (h.runs _ _ hr).2.2.1
  | crash junk hload =>
    have hheld := h.found junk
    rw [hheld.contents] at hload
    exact ⟨applyID_of_loadDir hload, fun _ => hheld, nofun⟩

theorem sound_of_reach {allow : DumpNode → DumpEvent → Prop} (hd : Holds saved d)
    (h : Reach step allow (start d saved) s) : s.Sound :=
  h.invariant ⟨rfl, fun _ => hd, nofun⟩ fun _ _ _ hs _ hstep => hs.step hstep

theorem image_found (s : DumpNode) (disk : Disk) : s.Image (s.found disk) := by
  unfold DumpNode.found
  split
  next job p hr =>
    split
    · exact .inr (by rw [hr]; rfl)
    · exact .inl rfl
  · exact .inl rfl

theorem fits_step (h : ∀ job, s.Image job → job.files.Fits) (ha : s.DumpsFit e)
    (hs : s.step e = some s') : ∀ job, s'.Image job → job.files.Fits := by
  cases stepped_of_step hs with
  | dump hr hlt =>
    rintro _ (rfl | himage)
    · exact h _ (.inl rfl)
    · cases himage
      exact ha
  | call hr =>
    rintro _ (rfl | himage)
    · exact h _ (.inl rfl)
    · cases himage
      exact h _ (.inr (by rw [hr]; rfl))
  | finish hr =>
    rintro _ (rfl | himage)
    · exact h _ (.inr (by rw [hr]; rfl))
    · cases himage
  | fail hr =>
    rintro _ (rfl | himage)
    · exact h _ (.inl rfl)
    · cases himage
  | crash junk hload =>
    rintro _ (rfl | himage)
    · exact h _ (s.image_found _)
    · cases himage

/-- Wherever a crash comes in a run of dumps and crashes, a start finds what the last dump has
stored or, if one is running, what that stores; and the log is not truncated behind it. -/
theorem crash_recovers {d : Disk} {saved : StoreJob} {s : DumpNode} (hd : Holds saved d)
    (hfit : saved.files.Fits) (hr : Reach step DumpsFit (start d saved) s)
    (junk : DirName → SnapName → Option Bytes) (startId endId : UInt64) (now : Int64) :
    ∃ image, s.Image image ∧ s.disk.truncated ≤ image.applyID ∧
      ∃ mp, (new startId endId).loadDir now (s.disk.crash junk).recover.contents =
        .ok (mp, image.applyID) ∧ mp.store .live = image.files := by
  have hfits : ∀ job, s.Image job → job.files.Fits := by
    refine hr.invariant ?_ fun _ _ _ h ha hs => fits_step h ha hs
    rintro _ (rfl | himage)
    · exact hfit
    · cases himage
  obtain ⟨image, himage, hheld⟩ := (sound_of_reach hd hr).crash junk
  refine ⟨image, himage, ?_, hheld.load (hfits image himage) startId endId now⟩
  have ht := hheld.2
  rwa [Disk.truncated_recover] at ht

theorem holds_emptyDisk : Holds emptyJob emptyDisk :=
  ⟨⟨emptyDir, rfl, rfl, rfl, rfl⟩, UInt64.zero_le⟩

def noJunk : DirName → SnapName → Option Bytes := fun _ _ => none

def dumpThrice : List DumpEvent :=
  [.dump oneInodeJob true] ++ List.replicate 5 .call ++ [.crash noJunk 0 100 0] ++
    [.dump oneInodeJob true] ++ List.replicate 17 .call ++ [.crash noJunk 0 100 0] ++
    [.dump oneInodeJob true] ++ List.replicate 19 .call

theorem crash_recovers_dumpThrice : ∃ s, Reach step DumpsFit (start emptyDisk emptyJob) s ∧
    s.saved.applyID = 3 ∧ ∃ image, s.Image image ∧ s.disk.truncated ≤ image.applyID ∧
      ∃ mp, (new 0 100).loadDir 0 (s.disk.crash noJunk).recover.contents =
        .ok (mp, image.applyID) ∧ mp.store .live = image.files := by
  refine ⟨_, .of_checked dumpThrice rfl .start, ?_, ?_⟩
  · rfl
  · exact crash_recovers holds_emptyDisk (by decide) (.of_checked dumpThrice rfl .start) noJunk
      0 100 0

theorem reach_calls {s₀ : DumpNode} {p : StoreProg Bool} {I : Disk → Prop} {Q : Bool → Disk → Prop}
    (h : Reach step (fun _ _ => True) s₀ s) (hr : s.running = some (job, p))
    (hp : p.Along (Disk.exec fun _ => .ok) I Q s.disk) :
    ∃ s' ok, Reach step (fun _ _ => True) s₀ s' ∧ s'.saved = s.saved ∧
      s'.running = some (job, .ret ok) ∧ Q ok s'.disk := by
  induction p generalizing s with
  | ret ok => exact ⟨s, ok, h, rfl, hr, hp.2⟩
  | call note c k ih =>
    have hs : s.step .call = some { s with
        disk := (s.disk.exec (fun _ => .ok) note c).1
        running := some (job, k (s.disk.exec (fun _ => .ok) note c).2) } := by
      unfold step
      rw [hr]
    obtain ⟨s', ok, hreach, hsaved, hend⟩ := ih _ (.next h trivial hs) rfl hp.2
    exact ⟨s', ok, hreach, hsaved, hend⟩

def longName : Dentry := ⟨1, List.replicate (2 ^ 32 - 1) 97, 2, 0⟩

def longNameJob : StoreJob := ⟨⟨OrdTree.empty, OrdTree.empty.insert longName⟩, 4, 11, []⟩

/-- Once the dump of it is in place, the partition cannot be loaded any more. -/
theorem long_name_not_recovered : ∃ s, Reach step (fun _ _ => True) (start emptyDisk emptyJob) s ∧
    s.saved = emptyJob ∧ s.running.map Prod.fst = some longNameJob ∧
      ∀ junk startId endId now r, (new startId endId).loadDir now
        (s.disk.crash junk).recover.contents ≠ .ok r := by
  have hstep : (start emptyDisk emptyJob).step (.dump longNameJob true) = some _ := rfl
  have halong : (dump emptyJob.applyID true longNameJob).Along _ _ _ emptyDisk :=
    along_dump holds_emptyDisk (by decide) true
  obtain ⟨s, ok, hr, hsaved, hrun, -, hheld⟩ :=
    reach_calls (.next .start trivial hstep) rfl halong
  refine ⟨s, hr, hsaved, by rw [hrun]; rfl, ?_⟩
  intro junk startId endId now r hload
  rw [(hheld.crash junk).contents] at hload
  have hlen : longName.name.length = 2 ^ 32 - 1 := List.length_replicate
  have hitems : longNameJob.files.dentryTree.items = [longName] := rfl
  have hn : ∀ d ∈ longNameJob.files.dentryTree.items, d.name.length < 2 ^ 32 := by
    rw [hitems, List.forall_mem_singleton, hlen]
    omega
  have hfits := dentries_fit_of_loadDir hn hload
  rw [hitems, List.forall_mem_singleton, Dentry.length_marshal, hlen] at hfits
  omega

end DumpNode
end ChubaoFS
