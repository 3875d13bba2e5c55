import ChubaoFS.Base.Prog
import ChubaoFS.SnapshotFile

namespace ChubaoFS

open Option Bytes

/-! The directories of a partition on disk, and `store` as the calls it makes. -/

inductive SnapName
  | inode
  | dentry
  | apply
  | sign
  deriving DecidableEq, Repr

structure DiskFile where
  data : Bytes
  synced : Bool
  deriving DecidableEq, Repr

structure StoreDir where
  id : Nat
  inode : Option DiskFile
  dentry : Option DiskFile
  apply : Option DiskFile
  sign : Option DiskFile
  deriving DecidableEq, Repr

namespace StoreDir

def file (dir : StoreDir) : SnapName → Option DiskFile
  | .inode => dir.inode
  | .dentry => dir.dentry
  | .apply => dir.apply
  | .sign => dir.sign

def setFile (dir : StoreDir) (f : SnapName) (x : Option DiskFile) : StoreDir :=
  match f with
  | .inode => { dir with inode := x }
  | .dentry => { dir with dentry := x }
  | .apply => { dir with apply := x }
  | .sign => { dir with sign := x }

@[simp] theorem id_setFile (dir : StoreDir) (f : SnapName) (x : Option DiskFile) :
    (dir.setFile f x).id = dir.id := by
  cases f <;> rfl

theorem file_setFile (dir : StoreDir) (f g : SnapName) (x : Option DiskFile) :
    (dir.setFile f x).file g = if g = f then x else dir.file g := by
  cases f <;> cases g <;> rfl

def new (id : Nat) : StoreDir := ⟨id, none, none, none, none⟩

def append (dir : StoreDir) (f : SnapName) (b : Bytes) : StoreDir :=
  dir.setFile f ((dir.file f).map fun x => ⟨x.data ++ b, false⟩)

def sync (dir : StoreDir) (f : SnapName) : StoreDir :=
  dir.setFile f ((dir.file f).map fun x => { x with synced := true })

def keep (dir : StoreDir) (left : List SnapName) : StoreDir where
  id := dir.id
  inode := if left.contains .inode then dir.inode else none
  dentry := if left.contains .dentry then dir.dentry else none
  apply := if left.contains .apply then dir.apply else none
  sign := if left.contains .sign then dir.sign else none

def contents (dir : StoreDir) : SnapshotDir :=
  ⟨dir.inode.map DiskFile.data, dir.dentry.map DiskFile.data, dir.apply.map DiskFile.data⟩

end StoreDir

inductive DirName
  | snapshot
  | tmp
  | backup
  deriving DecidableEq, Repr

structure Disk where
  snapshot : Option StoreDir
  tmp : Option StoreDir
  backup : Option StoreDir
  nextId : Nat
  truncated : UInt64
  deriving DecidableEq, Repr

namespace Disk

def dir (d : Disk) : DirName → Option StoreDir
  | .snapshot => d.snapshot
  | .tmp => d.tmp
  | .backup => d.backup

def setDir (d : Disk) (n : DirName) (x : Option StoreDir) : Disk :=
  match n with
  | .snapshot => { d with snapshot := x }
  | .tmp => { d with tmp := x }
  | .backup => { d with backup := x }

def makeDir (d : Disk) (n : DirName) : Disk :=
  match d.dir n with
  | some _ => d
  | none => { d.setDir n (some (StoreDir.new d.nextId)) with nextId := d.nextId + 1 }

/-- The part of `loadPartitions` that looks after the directories. -/
def recover (d : Disk) : Disk :=
  match d.snapshot, d.backup with
  | none, some b => { d with snapshot := some b, backup := none }
  | _, _ => d

/-- What `load` reads; without a directory there is no file. -/
def contents (d : Disk) : SnapshotDir :=
  match d.snapshot with
  | some dir => dir.contents
  | none => ⟨none, none, none⟩

variable {d : Disk} {dir : StoreDir}

theorem recover_of_snapshot (h : d.snapshot = some dir) : d.recover.snapshot = some dir := by
  unfold Disk.recover
  rw [h]
  exact h

theorem recover_of_backup (hs : d.snapshot = none) (hb : d.backup = some dir) :
    d.recover.snapshot = some dir := by
  unfold Disk.recover
  rw [hs, hb]

theorem truncated_recover (d : Disk) : d.recover.truncated = d.truncated := by
  unfold recover
  split <;> rfl

end Disk

/-- The calls of a store and of the truncation of the log behind it. The files are those of the
temporary directory. A marshal writes nothing. -/
inductive DiskCall
  | stat (n : DirName)
  | removeAll (n : DirName)
  | mkdirAll (n : DirName)
  | rename (source target : DirName)
  | openFile (f : SnapName)
  | marshal
  | write (f : SnapName) (b : Bytes)
  | sync (f : SnapName)
  | writeFile (f : SnapName) (b : Bytes)
  | truncate (index : UInt64)

inductive StorePoint
  | statTmp
  | removeTmp
  | makeTmp
  | openFile (f : SnapName)
  | marshal (f : SnapName) (i : Nat)
  | writeLen (f : SnapName) (i : Nat)
  | writeBody (f : SnapName) (i : Nat)
  | sync (f : SnapName)
  | sign
  | statBackup
  | removeBackup
  | statSnapshot
  | keepOld
  | publish
  | putBack
  | dropBackup
  | cleanTmp
  | truncate
  deriving DecidableEq, Repr

inductive Outcome
  | ok
  | fail (written : Nat) (left : List SnapName)
  deriving DecidableEq, Repr

namespace Outcome

def isOk : Outcome → Bool
  | ok => true
  | fail _ _ => false

def written : Outcome → Bytes → Bytes
  | ok, b => b
  | fail n _, b => b.take n

def removed : Outcome → Option StoreDir → Option StoreDir
  | ok, _ => none
  | fail _ left, x => x.map fun dir => dir.keep left

end Outcome

namespace Disk

def onTmp (d : Disk) (f : StoreDir → StoreDir) (ok : Bool) : Disk × Bool :=
  match d.tmp with
  | none => (d, false)
  | some dir => ({ d with tmp := some (f dir) }, ok)

def exec (out : StorePoint → Outcome) (p : StorePoint) (c : DiskCall) (d : Disk) : Disk × Bool :=
  let ok := (out p).isOk
  match c with
  | .stat n => (d, ok && (d.dir n).isSome)
  | .removeAll n => (d.setDir n ((out p).removed (d.dir n)), ok)
  | .mkdirAll n => if ok then (d.makeDir n, true) else (d, false)
  | .rename source target =>
    if ok && (d.dir source).isSome && (d.dir target).isNone then
      ((d.setDir source none).setDir target (d.dir source), true)
    else (d, false)
  | .openFile f =>
    if ok then d.onTmp (fun dir => dir.setFile f (some ⟨[], false⟩)) true else (d, false)
  | .marshal => (d, ok)
  | .write f b => d.onTmp (fun dir => dir.append f ((out p).written b)) ok
  | .sync f => if ok then d.onTmp (fun dir => dir.sync f) true else (d, false)
  | .writeFile f b => d.onTmp (fun dir => dir.setFile f (some ⟨(out p).written b, false⟩)) ok
  | .truncate index =>
    ({ d with truncated := if d.truncated < index then index else d.truncated }, ok)

variable {out : StorePoint → Outcome} {p : StorePoint} {x : StoreDir}

theorem exec_rename (source target : DirName) (hp : (out p).isOk = true)
    (hs : d.dir source = some x) (ht : d.dir target = none) :
    exec out p (.rename source target) d = ((d.setDir source none).setDir target (some x), true) :=
      by
  unfold exec
  dsimp only
  rw [hp, hs, ht]
  rfl

theorem exec_rename_fail (source target : DirName) (d : Disk) (hp : (out p).isOk = false) :
    exec out p (.rename source target) d = (d, false) := by
  unfold exec
  dsimp only
  rw [hp]
  rfl

theorem exec_rename_over (source target : DirName) (ht : d.dir target = some x) :
    exec out p (.rename source target) d = (d, false) := by
  unfold exec
  dsimp only
  rw [ht, isNone_some, Bool.and_false]
  rfl

end Disk

structure StoreJob where
  files : SnapshotFiles
  applyID : UInt64
  cursor : UInt64
  sign : Bytes

def StoreJob.dir (job : StoreJob) : SnapshotDir := job.files.dir job.applyID job.cursor

abbrev StoreProg := Prog StorePoint DiskCall fun _ => Bool

namespace StoreProg

def writeRecords (f : SnapName) (k : StoreProg Bool) : Nat → List Bytes → StoreProg Bool
  | _, [] => k
  | i, data :: rest =>
    .call (.marshal f i) .marshal fun ok => if !ok then k else
    .call (.writeLen f i) (.write f (putUInt32 (UInt32.ofNat data.length))) fun ok =>
      if !ok then k else
    .call (.writeBody f i) (.write f data) fun ok => if !ok then k else
    writeRecords f k (i + 1) rest

/-- `storeInode` and `storeDentry`. The file is synced when they return, and the error of the sync
takes the place of any error before it. -/
def storeRecords (f : SnapName) (records : List Bytes) (k : Bool → StoreProg Bool) :
    StoreProg Bool :=
  .call (.openFile f) (.openFile f) fun ok => if !ok then k false else
  writeRecords f (.call (.sync f) (.sync f) k) 0 records

def storeApplyID (job : StoreJob) (k : Bool → StoreProg Bool) : StoreProg Bool :=
  .call (.openFile .apply) (.openFile .apply) fun ok => if !ok then k false else
  .call (.writeBody .apply 0) (.write .apply (applyIDFile job.applyID job.cursor)) fun _ =>
  .call (.sync .apply) (.sync .apply) k

def abort (k : Bool → StoreProg Bool) : StoreProg Bool :=
  .call .cleanTmp (.removeAll .tmp) fun _ => k false

def publish (k : Bool → StoreProg Bool) : StoreProg Bool :=
  .call .publish (.rename .tmp .snapshot) fun ok =>
    if !ok then .call .putBack (.rename .backup .snapshot) fun _ => abort k else
    .call .dropBackup (.removeAll .backup) fun ok => if !ok then abort k else k true

def keepOld (k : Bool → StoreProg Bool) : StoreProg Bool :=
  .call .statSnapshot (.stat .snapshot) fun found =>
    if !found then publish k else
    .call .keepOld (.rename .snapshot .backup) fun ok => if !ok then abort k else publish k

def swap (k : Bool → StoreProg Bool) : StoreProg Bool :=
  .call .statBackup (.stat .backup) fun found =>
    if !found then keepOld k else
    .call .removeBackup (.removeAll .backup) fun ok => if !ok then abort k else keepOld k

def fill (job : StoreJob) (k : Bool → StoreProg Bool) : StoreProg Bool :=
  .call .makeTmp (.mkdirAll .tmp) fun ok => if !ok then k false else
  storeRecords .inode (job.files.inodeTree.items.map InodeOf.marshal) fun ok =>
    if !ok then abort k else
  storeRecords .dentry (job.files.dentryTree.items.map Dentry.marshal) fun ok =>
    if !ok then abort k else
  storeApplyID job fun ok => if !ok then abort k else
  .call .sign (.writeFile .sign job.sign) fun ok => if !ok then abort k else
  swap k

/-- `store`; it goes on with whether there was no error. -/
def store (job : StoreJob) (k : Bool → StoreProg Bool) : StoreProg Bool :=
  .call .statTmp (.stat .tmp) fun found =>
    if !found then fill job k else .call .removeTmp (.removeAll .tmp) fun _ => fill job k

/-- `dumpFunc`, with the index of the dump before. Without a raft partition nothing is truncated. -/
def dump (curIndex : UInt64) (raft : Bool) (job : StoreJob) : StoreProg Bool :=
  store job fun ok =>
    if ok && raft then .call .truncate (.truncate curIndex) fun _ => .ret true else .ret ok

structure Touched (f : SnapName) (t t' : StoreDir) : Prop where
  id : t'.id = t.id
  rest : ∀ g, g ≠ f → t'.file g = t.file g

theorem Touched.refl (f : SnapName) (t : StoreDir) : Touched f t t := ⟨rfl, fun _ _ => rfl⟩

variable {f : SnapName} {t : StoreDir} {x : DiskFile} {out : StorePoint → Outcome} {f : SnapName}

theorem Touched.trans {t' t'' : StoreDir} (h : Touched f t t') (h' : Touched f t' t'') :
    Touched f t t'' :=
  ⟨h'.id.trans h.id, fun g hg => (h'.rest g hg).trans (h.rest g hg)⟩

theorem touched_setFile (f : SnapName) (t : StoreDir) (x : Option DiskFile) :
    Touched f t (t.setFile f x) := by
  refine ⟨t.id_setFile f x, fun g hg => ?_⟩
  rw [StoreDir.file_setFile, if_neg hg]

theorem touched_append (f : SnapName) (t : StoreDir) (b : Bytes) : Touched f t (t.append f b) :=
  touched_setFile f t _

theorem file_append (h : t.file f = some x) (b : Bytes) :
    (t.append f b).file f = some ⟨x.data ++ b, false⟩ := by
  rw [StoreDir.append, StoreDir.file_setFile, if_pos rfl, h]
  rfl

theorem file_sync (h : t.file f = some x) : (t.sync f).file f = some ⟨x.data, true⟩ := by
  rw [StoreDir.sync, StoreDir.file_setFile, if_pos rfl, h]
  rfl

def AllOk (out : StorePoint → Outcome) : Prop := ∀ p, (out p).isOk = true

theorem AllOk.written (h : AllOk out) (p : StorePoint) (b : Bytes) : (out p).written b = b := by
  have hp := h p
  cases ho : out p with
  | ok => rfl
  | fail n left =>
    rw [ho] at hp
    cases hp

theorem AllOk.absurd {p : StorePoint} (hp : (out p).isOk = false) {P : Prop} (h : AllOk out) :
    P := by
  rw [h p] at hp
  cases hp

def fileOk (out : StorePoint → Outcome) (f : SnapName) : Bool :=
  (out (.openFile f)).isOk && (out (.sync f)).isOk

variable {out : StorePoint → Outcome} {I : Disk → Prop} {Q : Bool → Disk → Prop} {d : Disk}
  {t : StoreDir}

theorem along_writeRecords {k : StoreProg Bool}
    (hI : ∀ t, I { d with tmp := some t }) (hx : t.file f = some x) (i : Nat) (records : List Bytes)
    (hk : ∀ t' x', Touched f t t' → t'.file f = some x' →
      (AllOk out → x'.data = x.data ++ records.flatMap putSized) →
      k.Along (Disk.exec out) I Q { d with tmp := some t' }) :
    (writeRecords f k i records).Along (Disk.exec out) I Q { d with tmp := some t } := by
  induction records generalizing t x i with
  | nil => exact hk t x (.refl f t) hx fun _ => by simp
  | cons data rest ih =>
    have hlen := file_append hx ((out (.writeLen f i)).written
      (putUInt32 (UInt32.ofNat data.length)))
    have hbody := file_append hlen ((out (.writeBody f i)).written data)
    have htouch := (touched_append f t ((out (.writeLen f i)).written
      (putUInt32 (UInt32.ofNat data.length)))).trans
        (touched_append f _ ((out (.writeBody f i)).written data))
    refine ⟨hI t, ?_⟩
    dsimp only [Disk.exec]
    cases hm : (out (.marshal f i)).isOk with
    | false => exact hk t x (.refl f t) hx (AllOk.absurd hm)
    | true =>
      refine ⟨hI t, ?_⟩
      dsimp only [Disk.exec, Disk.onTmp]
      cases hl : (out (.writeLen f i)).isOk with
      | false => exact hk _ _ (touched_append f t _) hlen (AllOk.absurd hl)
      | true =>
        refine ⟨hI _, ?_⟩
        dsimp only [Disk.exec, Disk.onTmp]
        cases hb : (out (.writeBody f i)).isOk with
        | false => exact hk _ _ htouch hbody (AllOk.absurd hb)
        | true =>
          refine ih hbody (i + 1) fun t' x' ht' hx' hdata => hk t' x' (htouch.trans ht') hx' ?_
          intro hall
          rw [hdata hall]
          dsimp only
          rw [hall.written, hall.written, List.flatMap_cons, putSized, List.append_assoc,
            List.append_assoc, List.append_assoc]

/-- A part of the store that writes the file `f`, with the bytes `b` if no call fails. -/
def Stores (out : StorePoint → Outcome) (f : SnapName) (b : Bytes)
    (prog : (Bool → StoreProg Bool) → StoreProg Bool) : Prop :=
  ∀ (I : Disk → Prop) (Q : Bool → Disk → Prop) (d : Disk) (t : StoreDir)
    (k : Bool → StoreProg Bool), (∀ t, I { d with tmp := some t }) →
    (∀ t', Touched f t t' → (AllOk out → t'.file f = some ⟨b, true⟩) →
      (k (fileOk out f)).Along (Disk.exec out) I Q { d with tmp := some t' }) →
    (prog k).Along (Disk.exec out) I Q { d with tmp := some t }

theorem along_sync {k : Bool → StoreProg Bool}
    {b : Bytes} (hopen : (out (.openFile f)).isOk = true) (hI : ∀ t, I { d with tmp := some t })
    (hx : t.file f = some x) (hb : AllOk out → x.data = b)
    (hk : ∀ t', Touched f t t' → (AllOk out → t'.file f = some ⟨b, true⟩) →
      (k (fileOk out f)).Along (Disk.exec out) I Q { d with tmp := some t' }) :
    Prog.Along (Disk.exec out) I Q (.call (.sync f) (.sync f) k) { d with tmp := some t } := by
  refine ⟨hI t, ?_⟩
  dsimp only [Disk.exec, Disk.onTmp]
  unfold fileOk at hk
  rw [hopen, Bool.true_and] at hk
  cases hs : (out (.sync f)).isOk with
  | false =>
    rw [hs] at hk
    exact hk t (.refl f t) (AllOk.absurd hs)
  | true =>
    rw [hs] at hk
    refine hk _ (touched_setFile f t _) fun hall => ?_
    rw [file_sync hx, hb hall]

variable (out)

theorem stores_records (f : SnapName) (records : List Bytes) :
    Stores out f (records.flatMap putSized) (storeRecords f records) := by
  intro I Q d t k hI hk
  refine ⟨hI t, ?_⟩
  dsimp only [Disk.exec, Disk.onTmp]
  cases ho : (out (.openFile f)).isOk with
  | false =>
    unfold fileOk at hk
    rw [ho, Bool.false_and] at hk
    exact hk t (.refl f t) (AllOk.absurd ho)
  | true =>
    have hopen := touched_setFile f t (some ⟨[], false⟩)
    refine along_writeRecords hI (by rw [StoreDir.file_setFile, if_pos rfl]) 0 records ?_
    intro t' x' ht' hx' hdata
    refine along_sync ho hI hx' (fun hall => (hdata hall).trans (List.nil_append _)) ?_
    exact fun t'' ht'' => hk t'' ((hopen.trans ht').trans ht'')

theorem stores_applyID (job : StoreJob) :
    Stores out .apply (applyIDFile job.applyID job.cursor) (storeApplyID job) := by
  intro I Q d t k hI hk
  refine ⟨hI t, ?_⟩
  dsimp only [Disk.exec, Disk.onTmp]
  cases ho : (out (.openFile .apply)).isOk with
  | false =>
    unfold fileOk at hk
    rw [ho, Bool.false_and] at hk
    exact hk t (.refl .apply t) (AllOk.absurd ho)
  | true =>
    have hopen := touched_setFile .apply t (some ⟨[], false⟩)
    have hfile : (t.setFile .apply (some ⟨[], false⟩)).file .apply = some ⟨[], false⟩ := by
      rw [StoreDir.file_setFile, if_pos rfl]
    have hdata (hall : AllOk out) : [] ++ (out (.writeBody .apply 0)).written
        (applyIDFile job.applyID job.cursor) = applyIDFile job.applyID job.cursor := by
      rw [hall.written, List.nil_append]
    refine ⟨hI _, ?_⟩
    refine along_sync ho hI (file_append hfile _) hdata ?_
    exact fun t' ht' => hk t' ((hopen.trans (touched_append .apply _ _)).trans ht')

variable {out}

structure Saved (job : StoreJob) (dir : StoreDir) : Prop where
  inode : dir.inode = some ⟨inodeFile job.files.inodeTree, true⟩
  dentry : dir.dentry = some ⟨dentryFile job.files.dentryTree, true⟩
  apply : dir.apply = some ⟨applyIDFile job.applyID job.cursor, true⟩

def publishes (out : StorePoint → Outcome) (backup : Bool) : Bool :=
  (out .makeTmp).isOk && fileOk out .inode && fileOk out .dentry && fileOk out .apply &&
    (out .sign).isOk && (!backup || ((out .statBackup).isOk && (out .removeBackup).isOk)) &&
    (out .statSnapshot).isOk && (out .keepOld).isOk && (out .publish).isOk

def Apart (d : Disk) (old : StoreDir) : Prop :=
  old.id ≠ d.nextId ∧ ∀ t, d.tmp = some t → t.id ≠ old.id

/-- Where a store of `job` on the disk `d` can stand. -/
inductive Swapped (out : StorePoint → Outcome) (job : StoreJob) (old : StoreDir) (d : Disk) :
    Disk → Prop
  | old {d' : Disk} (hs : d'.snapshot = some old) (ht : d'.truncated = d.truncated) :
      Swapped out job old d d'
  | between {d' : Disk} (hs : d'.snapshot = none) (hb : d'.backup = some old)
      (ht : d'.truncated = d.truncated) : Swapped out job old d d'
  | new {d' : Disk} {dir : StoreDir} (hs : d'.snapshot = some dir)
      (hid : Apart d old → dir.id ≠ old.id) (hw : AllOk out → Saved job dir)
      (ht : d'.truncated = d.truncated) : Swapped out job old d d'

inductive Ended (out : StorePoint → Outcome) (job : StoreJob) (old : StoreDir) (d : Disk) :
    Bool → Disk → Prop
  | kept {d' : Disk} (hp : publishes out d.backup.isSome = false)
      (hs : d'.snapshot = some old ∨ d'.snapshot = none ∧ d'.backup = some old)
      (ht : d'.truncated = d.truncated) : Ended out job old d false d'
  | new {d' : Disk} {dir : StoreDir} (hp : publishes out d.backup.isSome = true)
      (hs : d'.snapshot = some dir) (hid : Apart d old → dir.id ≠ old.id)
      (hw : AllOk out → Saved job dir) (ht : d'.truncated = d.truncated) :
      Ended out job old d (out .dropBackup).isOk d'

variable {job : StoreJob} {old : StoreDir} {k : Bool → StoreProg Bool} {d' : Disk}
  {x : Option StoreDir}

theorem along_abort (hI : ∀ x, I { d' with tmp := x })
    (hk : ∀ x, (k false).Along (Disk.exec out) I Q { d' with tmp := x }) :
    (abort k).Along (Disk.exec out) I Q d' := ⟨hI d'.tmp, hk _⟩

section

variable (hI : ∀ d', Swapped out job old d d' → I d')
include hI

section

variable (hk : ∀ ok d', Ended out job old d ok d' → (k ok).Along (Disk.exec out) I Q d')
include hk

theorem along_abort_old (hp : publishes out d.backup.isSome = false) (hs : d'.snapshot = some old)
    (ht : d'.truncated = d.truncated) : (abort k).Along (Disk.exec out) I Q d' :=
  along_abort (fun _ => hI _ (.old hs ht)) fun _ => hk false _ (.kept hp (.inl hs) ht)

structure Filled (out : StorePoint → Outcome) (job : StoreJob) (old : StoreDir) (d d' : Disk)
    (t : StoreDir) : Prop where
  tmp : d'.tmp = some t
  truncated : d'.truncated = d.truncated
  apart : Apart d old → t.id ≠ old.id
  saved : AllOk out → Saved job t

theorem along_publish
    (hp : publishes out d.backup.isSome = (out .publish).isOk) (hf : Filled out job old d d' t)
    (hs : d'.snapshot = none) (hb : d'.backup = some old) :
    (publish k).Along (Disk.exec out) I Q d' := by
  have ht := hf.truncated
  refine ⟨hI _ (.between hs hb ht), ?_⟩
  cases hpub : (out .publish).isOk with
  | false =>
    rw [hpub] at hp
    rw [Disk.exec_rename_fail .tmp .snapshot d' hpub]
    refine ⟨hI _ (.between hs hb ht), ?_⟩
    cases hback : (out .putBack).isOk with
    | false =>
      rw [Disk.exec_rename_fail .backup .snapshot d' hback]
      exact along_abort (fun _ => hI _ (.between hs hb ht)) fun _ =>
        hk false _ (.kept hp (.inr ⟨hs, hb⟩) ht)
    | true =>
      rw [Disk.exec_rename .backup .snapshot hback hb hs]
      exact along_abort_old hI hk hp rfl ht
  | true =>
    rw [hpub] at hp
    rw [Disk.exec_rename .tmp .snapshot hpub hf.tmp hs]
    have hnew {d₁ : Disk} (hs : d₁.snapshot = some t) (ht : d₁.truncated = d.truncated) :
        Swapped out job old d d₁ := .new hs hf.apart hf.saved ht
    have hend {d₁ : Disk} (hs : d₁.snapshot = some t) (ht : d₁.truncated = d.truncated) :
        Ended out job old d (out .dropBackup).isOk d₁ := .new hp hs hf.apart hf.saved ht
    refine ⟨hI _ (hnew rfl ht), ?_⟩
    dsimp only [Disk.exec]
    cases hdrop : (out .dropBackup).isOk with
    | false =>
      rw [hdrop] at hend
      exact along_abort (fun _ => hI _ (hnew rfl ht)) fun _ => hk false _ (hend rfl ht)
    | true =>
      rw [hdrop] at hend
      exact hk true _ (hend rfl ht)

theorem along_keepOld (hp : publishes out d.backup.isSome =
      ((out .statSnapshot).isOk && (out .keepOld).isOk && (out .publish).isOk))
      (hf : Filled out job old d d' t) (hs : d'.snapshot = some old)
    (hb : d'.backup = none) : (keepOld k).Along (Disk.exec out) I Q d' := by
  have ht := hf.truncated
  refine ⟨hI _ (.old hs ht), ?_⟩
  have hstat : (d'.dir .snapshot).isSome = true := isSome_iff_exists.mpr ⟨old, hs⟩
  dsimp only [Disk.exec]
  rw [hstat, Bool.and_true]
  cases hst : (out .statSnapshot).isOk with
  | false =>
    -- the old snapshot is not seen, and stands in the way of the new one
    rw [hst, Bool.false_and, Bool.false_and] at hp
    refine ⟨hI _ (.old hs ht), ?_⟩
    rw [Disk.exec_rename_over .tmp .snapshot hs]
    refine ⟨hI _ (.old hs ht), ?_⟩
    rw [Disk.exec_rename_over .backup .snapshot hs]
    exact along_abort_old hI hk hp hs ht
  | true =>
    refine ⟨hI _ (.old hs ht), ?_⟩
    cases hko : (out .keepOld).isOk with
    | false =>
      rw [Disk.exec_rename_fail .snapshot .backup d' hko]
      rw [hst, hko, Bool.true_and, Bool.false_and] at hp
      exact along_abort_old hI hk hp hs ht
    | true =>
      rw [Disk.exec_rename .snapshot .backup hko hs hb]
      rw [hst, hko, Bool.true_and, Bool.true_and] at hp
      exact along_publish hI hk hp { hf with } rfl rfl

theorem along_swap (hp : publishes out d.backup.isSome =
      ((!d.backup.isSome || ((out .statBackup).isOk && (out .removeBackup).isOk)) &&
        (out .statSnapshot).isOk && (out .keepOld).isOk && (out .publish).isOk))
        (hf : Filled out job old d d' t) (hs : d'.snapshot = some old)
    (hb : d'.backup = d.backup) : (swap k).Along (Disk.exec out) I Q d' := by
  have ht := hf.truncated
  refine ⟨hI _ (.old hs ht), ?_⟩
  have hstat : (d'.dir .backup).isSome = d.backup.isSome := congrArg isSome hb
  dsimp only [Disk.exec]
  rw [hstat]
  cases hback : d.backup with
  | none =>
    rw [hback] at hp hb
    rw [isSome_none, Bool.and_false]
    refine along_keepOld hI hk ?_ hf hs hb
    rw [hback, hp]
    rfl
  | some b =>
    rw [hback, isSome_some, Bool.not_true, Bool.false_or] at hp
    rw [isSome_some, Bool.and_true]
    rw [hback] at hb
    cases hst : (out .statBackup).isOk with
    | false =>
      -- the backup is not seen, and stands in the way of the old snapshot
      have hp' : publishes out d.backup.isSome = false := by
        rw [hback, isSome_some, hp, hst]
        rfl
      refine ⟨hI _ (.old hs ht), ?_⟩
      have hfound : (d'.dir .snapshot).isSome = true := isSome_iff_exists.mpr ⟨old, hs⟩
      dsimp only [Disk.exec]
      rw [hfound, Bool.and_true]
      cases (out .statSnapshot).isOk with
      | false =>
        refine ⟨hI _ (.old hs ht), ?_⟩
        rw [Disk.exec_rename_over .tmp .snapshot hs]
        refine ⟨hI _ (.old hs ht), ?_⟩
        rw [Disk.exec_rename_over .backup .snapshot hs]
        exact along_abort_old hI hk hp' hs ht
      | true =>
        refine ⟨hI _ (.old hs ht), ?_⟩
        rw [Disk.exec_rename_over .snapshot .backup hb]
        exact along_abort_old hI hk hp' hs ht
    | true =>
      refine ⟨hI _ (.old hs ht), ?_⟩
      dsimp only [Disk.exec]
      cases hrm : out .removeBackup with
      | fail n left =>
        have hp' : publishes out d.backup.isSome = false := by
          rw [hback, isSome_some, hp, hst, hrm]
          rfl
        exact along_abort_old hI hk hp' hs ht
      | ok =>
        have hp' : publishes out d.backup.isSome =
            ((out .statSnapshot).isOk && (out .keepOld).isOk && (out .publish).isOk) := by
          rw [hback, isSome_some, hp, hst, hrm]
          rfl
        exact along_keepOld hI hk hp' { hf with truncated := ht } hs rfl

end
end

theorem exists_makeDir (hx : ∀ t, x = some t → ∃ t₀, d.tmp = some t₀ ∧ t.id = t₀.id) :
    ∃ t n, ({ d with tmp := x } : Disk).makeDir .tmp = { d with tmp := some t, nextId := n } ∧
      (Apart d old → t.id ≠ old.id) := by
  cases x with
  | none => exact ⟨StoreDir.new d.nextId, d.nextId + 1, rfl, fun h => h.1.symm⟩
  | some t =>
    obtain ⟨t₀, ht₀, hid⟩ := hx t rfl
    refine ⟨t, d.nextId, rfl, fun h => ?_⟩
    rw [hid]
    exact h.2 t₀ ht₀

variable (hI : ∀ d', Swapped out job old d d' → I d')
include hI

variable (hk : ∀ ok d', Ended out job old d ok d' → (k ok).Along (Disk.exec out) I Q d')
include hk

variable (hs : d.snapshot = some old)
include hs

theorem along_fill (hx : ∀ t, x = some t → ∃ t₀, d.tmp = some t₀ ∧ t.id = t₀.id) :
    (fill job k).Along (Disk.exec out) I Q { d with tmp := x } := by
  refine ⟨hI _ (.old hs rfl), ?_⟩
  dsimp only [Disk.exec]
  cases hmk : (out .makeTmp).isOk with
  | false =>
    refine hk false _ (.kept ?_ (.inl hs) rfl)
    unfold publishes
    rw [hmk]
    rfl
  | true =>
    obtain ⟨t, n, hmade, hid⟩ := exists_makeDir hx
    rw [if_pos rfl]
    dsimp only
    rw [hmade]
    have hI' (t : StoreDir) : I { d with tmp := some t, nextId := n } := hI _ (.old hs rfl)
    have hstop (t : StoreDir) (hp : publishes out d.backup.isSome = false) :
        (abort k).Along (Disk.exec out) I Q { d with tmp := some t, nextId := n } :=
      along_abort_old hI hk hp hs rfl
    refine stores_records out .inode _ I Q { d with nextId := n } t _ hI' fun t₁ ht₁ hf₁ => ?_
    cases hino : fileOk out .inode with
    | false => exact hstop t₁ (by simp [publishes, hino])
    | true =>
    refine stores_records out .dentry _ I Q { d with nextId := n } t₁ _ hI' fun t₂ ht₂ hf₂ => ?_
    cases hden : fileOk out .dentry with
    | false => exact hstop t₂ (by simp [publishes, hden])
    | true =>
    refine stores_applyID out job I Q { d with nextId := n } t₂ _ hI' fun t₃ ht₃ hf₃ => ?_
    cases happ : fileOk out .apply with
    | false => exact hstop t₃ (by simp [publishes, happ])
    | true =>
    refine ⟨hI' t₃, ?_⟩
    dsimp only [Disk.exec, Disk.onTmp]
    cases hsign : (out .sign).isOk with
    | false => exact hstop _ (by simp [publishes, hsign])
    | true =>
      have ht₄ := touched_setFile .sign t₃ (some ⟨(out .sign).written job.sign, false⟩)
      refine along_swap hI hk ?_ ⟨rfl, rfl, ?_, ?_⟩ hs rfl
      · unfold publishes
        rw [hmk, hino, hden, happ, hsign]
        rfl
      · intro hap
        rw [ht₄.id, ht₃.id, ht₂.id, ht₁.id]
        exact hid hap
      · intro hall
        have hi := hf₁ hall
        have hd := hf₂ hall
        rw [List.flatMap_map] at hi hd
        rw [← ht₂.rest .inode nofun, ← ht₃.rest .inode nofun, ← ht₄.rest .inode nofun] at hi
        rw [← ht₃.rest .dentry nofun, ← ht₄.rest .dentry nofun] at hd
        exact ⟨hi, hd, (ht₄.rest .apply nofun).trans (hf₃ hall)⟩

theorem along_store : (store job k).Along (Disk.exec out) I Q d := by
  refine ⟨hI _ (.old hs rfl), ?_⟩
  dsimp only [Disk.exec]
  split
  · exact along_fill hI hk hs fun t ht => ⟨t, ht, rfl⟩
  refine ⟨hI _ (.old hs rfl), along_fill hI hk hs fun t ht => ?_⟩
  -- a removal that failed leaves the directory, with whatever files
  cases hrm : out .removeTmp with
  | ok =>
    rw [hrm] at ht
    cases ht
  | fail n left =>
    rw [hrm] at ht
    obtain ⟨t₀, ht₀, rfl⟩ := map_eq_some_iff.mp ht
    exact ⟨t₀, ht₀, rfl⟩

end StoreProg
end ChubaoFS
