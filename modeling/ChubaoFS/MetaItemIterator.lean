import ChubaoFS.MetaItem

namespace ChubaoFS

open List OrdTree Bytes

abbrev InodeTree := OrdTree Inode InodeOf.key

abbrev FileName := { name : Bytes // name.length ≤ 255 }

structure DirEntry where
  name : FileName
  isDir : Bool
  body : Bytes
  deriving DecidableEq

def fileNameKey (name : FileName) : List Nat := name.val.map UInt8.toNat

def DirEntry.key (e : DirEntry) : List Nat := fileNameKey e.name

abbrev RootDir := OrdTree DirEntry DirEntry.key

def RootDir.readFile (root : RootDir) (name : FileName) : Option Bytes :=
  match root.get? (fileNameKey name) with
  | some e => if e.isDir then none else some e.body
  | none => none

def RootDir.writeFile (root : RootDir) (name : FileName) (body : Bytes) : RootDir :=
  match root.get? (fileNameKey name) with
  | some e => if e.isDir then root else root.insert ⟨name, false, body⟩
  | none => root.insert ⟨name, false, body⟩

inductive BtreeItem
  | inode (i : Inode)
  | dentry (d : Dentry)
  deriving DecidableEq

/-- `curItem` is an inode during the pass over the inode tree only. -/
def BtreeItem.inodeKey : BtreeItem → Option Nat
  | inode i => some i.key
  | dentry _ => none

def BtreeItem.dentryKey : BtreeItem → Option (ℕ ×ₗ List ℕ)
  | inode _ => none
  | dentry d => some d.key

structure MetaItemIterator where
  applyID : UInt64
  cur : Nat
  curItem : Option BtreeItem
  inoLen : Nat
  inodeTree : InodeTree
  dentryLen : Nat
  dentryTree : DentryTree
  fileList : List FileName
  total : Nat

/-- The record of an `EXTENT_DEL` file in a snapshot. -/
def fileItem (name : FileName) (body : Bytes) : MetaItem := ⟨opExtentFileSnapshot, name.val, body⟩

namespace MetaItemIterator

def new (applyID : UInt64) (ino : InodeTree) (den : DentryTree) (fileList : List FileName) :
    MetaItemIterator where
  applyID := applyID
  cur := 0
  curItem := none
  inoLen := ino.length
  inodeTree := ino
  dentryLen := den.length
  dentryTree := den
  fileList := fileList
  total := ino.length + den.length

/-- Emit the first inode from `curItem` on that is not `curItem` itself. -/
def nextInode (si : MetaItemIterator) : Except SnapErr Bytes × MetaItemIterator :=
  match (si.inodeTree.ascendGreaterOrEqual (si.curItem.bind BtreeItem.inodeKey)).find?
      (fun ino => si.curItem ≠ some (.inode ino)) with
  | some ino =>
    (ino.snapshotItem.marshalBinary, { si with curItem := some (.inode ino), cur := si.cur + 1 })
  | none => (.ok [], si)

/-- Step to the next dentry. The record made of it is not returned: what follows
in `next` overwrites it on every path. -/
def nextDentry (si : MetaItemIterator) : MetaItemIterator :=
  match (si.dentryTree.ascendGreaterOrEqual (si.curItem.bind BtreeItem.dentryKey)).find?
      (fun dentry => si.curItem ≠ some (.dentry dentry)) with
  | some dentry => { si with curItem := some (.dentry dentry), cur := si.cur + 1 }
  | none => si

def nextFile (root : RootDir) (si : MetaItemIterator) : Except SnapErr Bytes × MetaItemIterator :=
  match si.fileList with
  | [] => (.error .eof, si)
  | fileName :: rest =>
    match root.readFile fileName with
    | none => (.error .readFile, si)
    | some fileBody =>
      match (fileItem fileName fileBody).marshalBinary with
      | .ok data => (.ok data, si)
      | .error e => (.error e, { si with fileList := rest })

def next (root : RootDir) (si : MetaItemIterator) : Except SnapErr Bytes × MetaItemIterator :=
  if si.cur = 0 then (.ok (putUInt64 si.applyID), { si with cur := si.cur + 1 })
  else if si.cur ≤ si.inoLen then si.nextInode
  else
    let si := if si.cur = si.inoLen + 1 then { si with curItem := none } else si
    let si := if si.cur ≤ si.total then si.nextDentry else si
    si.nextFile root

/-- What the first `k` calls of `next` return. -/
def results (root : RootDir) : Nat → MetaItemIterator → List (Except SnapErr Bytes)
  | 0, _ => []
  | k + 1, si => (si.next root).1 :: results root k (si.next root).2

/-- The records of the first `k` calls. -/
def emitted (root : RootDir) (k : Nat) (si : MetaItemIterator) : List Bytes :=
  (results root k si).filterMap Except.toOption

/-- The pass over the inode tree, with the inodes of `done` emitted. -/
def inodePass (si : MetaItemIterator) (done : List Inode) : MetaItemIterator :=
  { si with cur := done.length + 1, curItem := done.getLast?.map BtreeItem.inode }

theorem next_start (root : RootDir) (applyID : UInt64) (ino : InodeTree) (den : DentryTree)
    (fileList : List FileName) : (new applyID ino den fileList).next root =
      (.ok (putUInt64 applyID), (new applyID ino den fileList).inodePass []) := rfl

variable {si : MetaItemIterator} {rest : List Inode}

theorem next_inodePass (root : RootDir) {done : List Inode} {ino : Inode}
    (hlen : si.inoLen = si.inodeTree.items.length) (h : si.inodeTree.items = done ++ ino :: rest) :
    (si.inodePass done).next root =
      (ino.snapshotItem.marshalBinary, si.inodePass (done ++ [ino])) := by
  have hcur : done.length + 1 ≤ si.inoLen := by
    rw [hlen, h]
    simp
  have hfind := find?_ascendGreaterOrEqual h
  have hkey : (done.getLast?.map BtreeItem.inode).bind BtreeItem.inodeKey =
      done.getLast?.map InodeOf.key := by
    cases done.getLast? <;> rfl
  have hne (b : Inode) : (done.getLast?.map BtreeItem.inode ≠ some (.inode b)) ↔
      (done.getLast? ≠ some b) := by
    cases done.getLast? <;> simp
  simp only [next, inodePass, Nat.succ_ne_zero, if_false, if_pos hcur, nextInode, hkey, hne, hfind]
  simp

theorem results_inodePass (root : RootDir) (k : Nat) (si : MetaItemIterator) (done : List Inode)
    (hlen : si.inoLen = si.inodeTree.items.length) (h : si.inodeTree.items = done ++ rest) :
    results root (rest.length + k) (si.inodePass done) =
      rest.map (fun ino => .ok ino.snapshotItem.frame) ++
        results root k (si.inodePass si.inodeTree.items) := by
  induction rest generalizing done with
  | nil => simp [h]
  | cons ino rest ih =>
    have hstep := next_inodePass root hlen h
    have hrest := ih (done ++ [ino]) (by simpa using h)
    rw [length_cons, Nat.succ_add, results, hstep, hrest]
    rfl

theorem nextDentry_frame (si : MetaItemIterator) : ∃ item cur, si.cur ≤ cur ∧
    si.nextDentry = { si with curItem := item, cur := cur } := by
  unfold nextDentry
  split
  next dentry _ => exact ⟨_, _, Nat.le_succ _, rfl⟩
  · exact ⟨si.curItem, si.cur, Nat.le_refl _, rfl⟩

section

variable (root : RootDir)

theorem next_past_inodes (h : si.inoLen < si.cur) : ∃ item cur, si.inoLen < cur ∧
      si.next root = nextFile root { si with curItem := item, cur := cur } := by
  have h0 : si.cur ≠ 0 := by omega
  have hi : ¬ si.cur ≤ si.inoLen := by omega
  obtain ⟨item, hitem⟩ : ∃ item,
    (if si.cur = si.inoLen + 1 then { si with curItem := none } else si) =
      { si with curItem := item } := by
    split
    · exact ⟨none, rfl⟩
    · exact ⟨si.curItem, rfl⟩
  simp only [next, if_neg h0, if_neg hi, hitem]
  split
  · obtain ⟨item', cur, hcur, hd⟩ := nextDentry_frame { si with curItem := item }
    exact ⟨item', cur, Nat.lt_of_lt_of_le h hcur, by rw [hd]⟩
  · exact ⟨item, si.cur, h, rfl⟩

theorem results_past_inodes_no_files (k : Nat) (si : MetaItemIterator) (h : si.inoLen < si.cur)
    (hf : si.fileList = []) : results root k si = replicate k (.error .eof) := by
  induction k generalizing si with
  | zero => rfl
  | succ k ih =>
    obtain ⟨item, cur, hcur, hn⟩ := next_past_inodes root h
    simp only [results, hn, nextFile, hf, replicate_succ, cons.injEq, true_and]
    exact ih _ hcur rfl

theorem results_no_files (applyID : UInt64) (ino : InodeTree) (den : DentryTree) (k : Nat) :
    results root (ino.length + k + 1) (new applyID ino den []) =
      (putUInt64 applyID :: ino.items.map (fun i => i.snapshotItem.frame)).map .ok ++
        List.replicate k (.error .eof) := by
  have hpass := results_inodePass root k (new applyID ino den []) [] rfl rfl
  have hend := results_past_inodes_no_files root k
    ((new applyID ino den []).inodePass ino.items) (Nat.lt_succ_self _) rfl
  rw [results, next_start]
  rw [OrdTree.length]
  simp only [new] at hpass hend ⊢
  rw [hpass, hend]
  simp

theorem results_take (k m : Nat) (si : MetaItemIterator) :
    (results root (k + m) si).take k = results root k si := by
  induction k generalizing si with
  | zero => simp [results]
  | succ k ih => rw [Nat.succ_add, results, take_succ_cons, ih, results]

end

theorem nodup_frames (applyID : UInt64) (ino : InodeTree) :
    (putUInt64 applyID :: ino.items.map (fun i => i.snapshotItem.frame)).Nodup := by
  refine nodup_cons.mpr ⟨?_, ?_⟩
  · intro hmem
    obtain ⟨i, -, hi⟩ := mem_map.mp hmem
    have hlen := i.snapshotItem.length_frame
    rw [hi, length_putUInt64] at hlen
    omega
  · refine pairwise_map.mpr (ino.sorted.imp fun {i j} hlt he => ?_)
    have hkey : i.key = j.key := congrArg UInt64.toNat (InodeOf.inode_eq_of_frame he)
    omega

section

variable (root : RootDir)

theorem nodup_emitted_no_files (applyID : UInt64) (ino : InodeTree) (den : DentryTree) (k : Nat) :
    (emitted root k (new applyID ino den [])).Nodup := by
  have hall := results_no_files root applyID ino den k
  have hpre := results_take root k (ino.length + 1) (new applyID ino den [])
  have hsub : (emitted root k (new applyID ino den [])).Sublist
      (putUInt64 applyID :: ino.items.map (fun i => i.snapshotItem.frame)) := by
    have hlen : k + (ino.length + 1) = ino.length + k + 1 := by omega
    rw [emitted, ← hpre, hlen, hall]
    refine ((take_sublist k _).filterMap Except.toOption).trans ?_
    rw [filterMap_append, filterMap_map]
    have herr : (replicate k (Except.error SnapErr.eof : Except SnapErr Bytes)).filterMap
        Except.toOption = [] := by
      simp [filterMap_replicate, Except.toOption]
    rw [herr]
    simp [Function.comp_def, Except.toOption]
  exact hsub.nodup (nodup_frames applyID ino)

theorem next_with_files (h : si.fileList ≠ []) :
    (si.next root).1 ≠ .error .eof ∧ (si.next root).2.fileList ≠ [] := by
  obtain ⟨fileName, rest, hf⟩ := exists_cons_of_ne_nil h
  by_cases h0 : si.cur = 0
  · simp [next, h0, h]
  by_cases hi : si.cur ≤ si.inoLen
  · simp only [next, if_neg h0, if_pos hi, nextInode]
    split <;> simp [MetaItem.marshalBinary, h]
  obtain ⟨item, cur, -, hn⟩ := next_past_inodes root (Nat.lt_of_not_le hi)
  rw [hn]
  simp only [nextFile, hf]
  cases root.readFile fileName <;> simp [MetaItem.marshalBinary]

theorem results_with_files (k : Nat) (si : MetaItemIterator) (h : si.fileList ≠ []) :
    .error .eof ∉ results root k si := by
  induction k generalizing si with
  | zero => simp [results]
  | succ k ih =>
    obtain ⟨hr, hf⟩ := next_with_files root h
    rw [results, mem_cons, not_or]
    exact ⟨Ne.symm hr, ih _ hf⟩

end

/-- The iterator ends: `io.EOF` comes after at most one call for the applied index and one for
each inode, dentry and file, and no record is emitted twice, however often it is called. -/
structure Terminates (root : RootDir) (applyID : UInt64) (ino : InodeTree) (den : DentryTree)
    (fileList : List FileName) : Prop where
  eof : ∃ records : List Bytes, records.length ≤ 1 + ino.length + den.length + fileList.length ∧
      results root (records.length + 1) (new applyID ino den fileList) =
        records.map .ok ++ [.error .eof]
  once : ∀ k, (emitted root k (new applyID ino den fileList)).Nodup

/-- The iterator ends, each record sent once, exactly when there is no file to send. -/
theorem terminates_iff_no_files (root : RootDir) (applyID : UInt64) (ino : InodeTree)
    (den : DentryTree) (fileList : List FileName) :
    Terminates root applyID ino den fileList ↔ fileList = [] := by
  constructor
  · rintro ⟨⟨records, -, hres⟩, -⟩
    by_contra hf
    apply results_with_files root (records.length + 1) (new applyID ino den fileList) hf
    simp [hres]
  · rintro rfl
    refine ⟨⟨putUInt64 applyID :: ino.items.map (fun i => i.snapshotItem.frame), ?_, ?_⟩,
      nodup_emitted_no_files root applyID ino den⟩
    · simp only [List.length_cons, List.length_map, OrdTree.length]
      omega
    · have hall := results_no_files root applyID ino den 1
      simpa [OrdTree.length] using hall

/-- The name `EXTENT_DEL_0`. -/
def delExtentFile : FileName := ⟨[69, 88, 84, 69, 78, 84, 95, 68, 69, 76, 95, 48], by decide⟩

def delExtentDir : RootDir := OrdTree.empty.insert ⟨delExtentFile, false, []⟩

/-- One readable file and empty trees: every call past the first returns the file again. -/
theorem delExtentFile_not_terminates : delExtentDir.readFile delExtentFile = some [] ∧
      ¬ Terminates delExtentDir 0 empty empty [delExtentFile] ∧
      ∀ k, results delExtentDir (k + 1) (new 0 empty empty [delExtentFile]) =
        .ok (putUInt64 0) :: replicate k (.ok (fileItem delExtentFile []).frame) := by
  refine ⟨by decide, ?_, ?_⟩
  · rintro ⟨⟨records, -, hres⟩, -⟩
    apply results_with_files delExtentDir (records.length + 1)
      (new 0 empty empty [delExtentFile]) (cons_ne_nil _ _)
    simp [hres]
  · intro k
    have hpast (si : MetaItemIterator) (hcur : si.inoLen < si.cur)
        (hf : si.fileList = [delExtentFile]) :
        results delExtentDir k si = replicate k (.ok (fileItem delExtentFile []).frame) := by
      have hread : delExtentDir.readFile delExtentFile = some [] := by decide
      induction k generalizing si with
      | zero => rfl
      | succ k ih =>
        obtain ⟨item, cur, hcur', hn⟩ := next_past_inodes delExtentDir hcur
        simp only [results, hn, nextFile, hf, hread, MetaItem.marshalBinary,
          replicate_succ, cons.injEq, true_and]
        exact ih _ hcur' rfl
    rw [results, next_start, hpast _ (Nat.lt_succ_self _) rfl]

end MetaItemIterator
end ChubaoFS
