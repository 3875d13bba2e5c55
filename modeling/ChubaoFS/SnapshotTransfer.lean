import ChubaoFS.MetaItemIterator

namespace ChubaoFS

open List OrdTree InodeOf Option MetaItem MetaItemIterator
open MetaItemIterator (inodePass)
open InodeOf (key)

open Bytes

structure PartitionImage where
  applyID : UInt64
  cursor : UInt64
  inodeTree : InodeTree
  dentryTree : DentryTree
  rootDir : RootDir

/-- The bytes of `EXTENT_DEL`. -/
def prefixDelExtent : Bytes := [69, 88, 84, 69, 78, 84, 95, 68, 69, 76]

def RootDir.delExtentFiles (root : RootDir) : List DirEntry :=
  root.items.filter fun e => !e.isDir && prefixDelExtent.isPrefixOf e.name.val

def PartitionImage.snapshot (mp : PartitionImage) : MetaItemIterator :=
  .new mp.applyID mp.inodeTree mp.dentryTree (mp.rootDir.delExtentFiles.map DirEntry.name)

def InodeOf.unmarshalKey (i : Inode) (k : Bytes) : Option Inode :=
  if k.length < 8 then none else some { i with inode := toUInt64 (k.take 8) }

def MetaItem.inode? (now : Int64) (snap : MetaItem) : Option Inode :=
  ((InodeOf.new OrdTree.empty 0 0 now : Inode).unmarshalKey snap.k).map fun i =>
    (InodeOf.unmarshalValue.exec i snap.v).1

def MetaItem.dentry (snap : MetaItem) : Dentry :=
  (Dentry.unmarshalValue.exec (Dentry.unmarshalKey.exec ⟨0, [], 0, 0⟩ snap.k).1 snap.v).1

/-- The local variables of `applySnapshot`, and the root directory it writes to. -/
structure SnapshotReceiver where
  index : Nat
  appIndexID : UInt64
  cursor : UInt64
  inodeTree : InodeTree
  dentryTree : DentryTree
  rootDir : RootDir

namespace SnapshotReceiver

def start (root : RootDir) : SnapshotReceiver := ⟨0, 0, 0, OrdTree.empty, OrdTree.empty, root⟩

def addInode (r : SnapshotReceiver) (ino : Inode) : SnapshotReceiver :=
  { r with
    cursor := if r.cursor < ino.inode then ino.inode else r.cursor
    inodeTree := r.inodeTree.insert ino }

def addFile (r : SnapshotReceiver) (name body : Bytes) : SnapshotReceiver :=
  if h : name.length ≤ 255 then { r with rootDir := r.rootDir.writeFile ⟨name, h⟩ body } else r

def round (now : Int64) (r : SnapshotReceiver) (data : Bytes) : Except SnapErr SnapshotReceiver :=
  if r.index = 0 then
    if data.length < 8 then .error .indexOutOfRange
    else .ok { r with appIndexID := toUInt64 (data.take 8), index := r.index + 1 }
  else
    match MetaItem.unmarshalBinary data with
    | .error e => .error e
    | .ok snap =>
      if snap.op = opFSMCreateInode then
        match snap.inode? now with
        | some ino => .ok (r.addInode ino)
        | none => .error .indexOutOfRange
      else if snap.op = opFSMCreateDentry then
        .ok { r with dentryTree := r.dentryTree.insert snap.dentry }
      else if snap.op = opExtentFileSnapshot then .ok (r.addFile snap.k snap.v)
      else .error (.unknownOp snap.op)

/-- The loop, fed by the calls of `next` on the leader up to their first error. -/
def loop (now : Int64) (root : RootDir) :
    Nat → MetaItemIterator → SnapshotReceiver → Option (SnapshotReceiver × SnapErr)
  | 0, _, _ => none
  | fuel + 1, iter, r =>
    match iter.next root with
    | (.error e, _) => some (r, e)
    | (.ok data, iter') =>
      match r.round now data with
      | .error e => some (r, e)
      | .ok r' => loop now root fuel iter' r'

end SnapshotReceiver

/-- What applying a snapshot leaves, with the error it returns. `io.EOF` counts as the
end of the snapshot, wherever it came from. -/
def PartitionImage.applySnapshot (now : Int64) (root : RootDir) (fuel : Nat)
    (iter : MetaItemIterator) (mp : PartitionImage) : Option (PartitionImage × Option SnapErr) :=
  (SnapshotReceiver.loop now root fuel iter (.start mp.rootDir)).map fun (r, e) =>
    if e = .eof then (⟨r.appIndexID, r.cursor, r.inodeTree, r.dentryTree, r.rootDir⟩, none)
    else ({ mp with rootDir := r.rootDir }, some e)

def InodeOf.received (now : Int64) (i : Inode) : Option Inode :=
  match MetaItem.unmarshalBinary i.snapshotItem.frame with
  | .ok snap => snap.inode? now
  | .error _ => none

def InodeOf.RoundTrips (now : Int64) (i : Inode) : Prop := i.received now = some i

theorem InodeOf.unmarshalKey_marshalKey (i j : Inode) :
    j.unmarshalKey i.marshalKey = some { j with inode := i.inode } := by
  have hlen : i.marshalKey.length = 8 := length_putUInt64 _
  have htake : i.marshalKey.take 8 = i.marshalKey := take_of_length_le (by omega)
  rw [unmarshalKey, if_neg (by omega), htake, marshalKey, toUInt64_putUInt64]

theorem MetaItem.inode?_of_key (now : Int64) (i : Inode) (snap : MetaItem)
    (h : snap.k = i.marshalKey) : ∃ j, snap.inode? now = some j ∧ j.inode = i.inode := by
  refine ⟨(unmarshalValue.exec { new empty 0 0 now with inode := i.inode }
    snap.v).1, ?_, ?_⟩
  · simp only [inode?, h, unmarshalKey_marshalKey, map_some]
  · exact unmarshalValue_keeps_inode.exec _ _

theorem InodeOf.received_eq (now : Int64) (i : Inode) :
    ∃ j snap, unmarshalBinary i.snapshotItem.frame = .ok snap ∧
      snap.op = opFSMCreateInode ∧ snap.inode? now = some j ∧ i.received now = some j ∧
      j.inode = i.inode := by
  have hsnap := unmarshalBinary_frame (s := i.snapshotItem) i.length_marshalKey
  obtain ⟨j, hj, hid⟩ := inode?_of_key now i
    { i.snapshotItem with v := i.marshalValue.take (i.marshalValue.length % 2 ^ 32) } rfl
  refine ⟨j, _, hsnap, rfl, hj, ?_, hid⟩
  rw [received, hsnap]
  exact hj

def InodeOf.RecordFits (i : Inode) : Prop := i.marshalValue.length < 2 ^ 32 ∨ i.CutIsDefault

theorem InodeOf.roundTrips_iff (now : Int64) (i : Inode) : i.RoundTrips now ↔ i.RecordFits := by
  unfold RoundTrips received RecordFits
  by_cases h : i.marshalValue.length < 2 ^ 32
  · have hsnap := unmarshalBinary_frame_of_short (s := i.snapshotItem)
      i.length_marshalKey h
    have hlen := i.length_marshalValue
    have ht : i.linkTarget.length < 2 ^ 32 := by omega
    rw [hsnap]
    simp only [inode?, snapshotItem, unmarshalKey_marshalKey, map_some]
    rw [unmarshalValue_marshalValue ht rfl rfl]
    exact iff_of_true rfl (.inl h)
  have hsnap := unmarshalBinary_frame (s := i.snapshotItem) i.length_marshalKey
  have hcut := unmarshalValue_cut (i := i)
    (j := { (new empty 0 0 now : Inode) with inode := i.inode })
    rfl rfl ⟨rfl, rfl, rfl⟩ rfl (Nat.le_of_not_lt h)
  rw [hsnap]
  simp only [inode?, snapshotItem, unmarshalKey_marshalKey, map_some, h, false_or, some.injEq]
  exact hcut

namespace SnapshotReceiver

variable {now : Int64} {r : SnapshotReceiver} {root : RootDir}

theorem round_inode {i j : Inode} (hr : r.index ≠ 0) (hj : i.received now = some j) :
    r.round now i.snapshotItem.frame = .ok (r.addInode j) := by
  obtain ⟨j', snap, hsnap, hop, hino, hrec, -⟩ := received_eq now i
  obtain rfl : j' = j := some.inj (hrec.symm.trans hj)
  simp [round, hr, hsnap, hop, hino]

theorem round_file (now : Int64) (name : FileName) (body : Bytes) (hr : r.index ≠ 0) :
    ∃ root, r.round now (fileItem name body).frame = .ok { r with rootDir := root } := by
  have hk : (fileItem name body).k.length < 2 ^ 32 := Nat.lt_of_le_of_lt name.property (by decide)
  have hop : (fileItem name body).op = opExtentFileSnapshot := rfl
  refine ⟨r.rootDir.writeFile name (body.take (body.length % 2 ^ 32)), ?_⟩
  have hname : (fileItem name body).k.length ≤ 255 := name.property
  simp only [round, if_neg hr, unmarshalBinary_frame hk]
  simp only [hop, opExtentFileSnapshot, opFSMCreateInode, opFSMCreateDentry, addFile, dif_pos hname]
  rfl

theorem loop_mono {fuel : Nat} {iter : MetaItemIterator} {x : SnapshotReceiver × SnapErr}
    (h : loop now root fuel iter r = some x) (k : Nat) :
    loop now root (fuel + k) iter r = some x := by
  induction fuel generalizing iter r with
  | zero => simp [loop] at h
  | succ fuel ih =>
    rw [Nat.succ_add]
    rcases hn : iter.next root with ⟨e | data, iter'⟩
    · simp only [loop, hn] at h ⊢
      exact h
    · simp only [loop, hn] at h ⊢
      split at h
      next e he => simpa [he] using h
      next r' he => simpa [he] using ih h

def begun (applyID : UInt64) (root : RootDir) : SnapshotReceiver :=
  ⟨1, applyID, 0, OrdTree.empty, OrdTree.empty, root⟩

theorem loop_start (now : Int64) (root rootDir : RootDir) (applyID : UInt64) (ino : InodeTree)
    (den : DentryTree) (fileList : List FileName) (fuel : Nat) :
    loop now root (fuel + 1) (.new applyID ino den fileList) (start rootDir) =
      loop now root fuel ((new applyID ino den fileList).inodePass []) (begun applyID rootDir) := by
  have htake : (putUInt64 applyID).take 8 = putUInt64 applyID := take_of_length_le (by simp)
  have hround : (start rootDir).round now (putUInt64 applyID) = .ok (begun applyID rootDir) := by
    simp [round, start, begun, htake]
  simp only [loop, next_start, hround]

theorem loop_inodePass (now : Int64) (root : RootDir) (si : MetaItemIterator) (fuel : Nat)
    (done : List Inode) {rest received : List Inode} (r : SnapshotReceiver)
    (hlen : si.inoLen = si.inodeTree.items.length) (h : si.inodeTree.items = done ++ rest)
    (hr : r.index ≠ 0)
    (hrec : List.Forall₂ (fun i j => InodeOf.received now i = some j) rest received) :
    loop now root (fuel + rest.length) (si.inodePass done) r =
      loop now root fuel (si.inodePass si.inodeTree.items) (received.foldl addInode r) := by
  induction hrec generalizing done r with
  | nil => simp [h]
  | @cons i j rest received hj _ ih =>
    have hstep := next_inodePass root hlen h
    have hround := round_inode hr hj
    have hrest := ih (done ++ [i]) (r.addInode j) (by simpa using h) hr
    rw [List.length_cons, ← Nat.add_assoc, loop, hstep]
    simp only [marshalBinary, hround, hrest, List.foldl_cons]

theorem loop_with_files (fuel : Nat) {si : MetaItemIterator} {r' : SnapshotReceiver}
    (h : si.inoLen < si.cur) (hf : si.fileList ≠ []) (hr : r.index ≠ 0) :
    loop now root fuel si r ≠ some (r', .eof) := by
  induction fuel generalizing si r with
  | zero => simp [loop]
  | succ fuel ih =>
    obtain ⟨item, cur, hcur, hn⟩ := next_past_inodes root h
    obtain ⟨fileName, rest, hfile⟩ := exists_cons_of_ne_nil hf
    cases hbody : root.readFile fileName with
    | none => simp [loop, hn, nextFile, hfile, hbody]
    | some body =>
      obtain ⟨root', hround⟩ := round_file now fileName body hr
      simp only [loop, hn, nextFile, hfile, hbody, marshalBinary, hround]
      exact ih hcur (cons_ne_nil _ _) hr

theorem foldl_addInode (l : List Inode) (r : SnapshotReceiver) : ∃ cursor, l.foldl addInode r =
      { r with cursor := cursor, inodeTree := l.foldl insert r.inodeTree } := by
  induction l generalizing r with
  | nil => exact ⟨r.cursor, rfl⟩
  | cons j l ih =>
    obtain ⟨cursor, h⟩ := ih (r.addInode j)
    exact ⟨cursor, by rw [foldl_cons, h]; rfl⟩

end SnapshotReceiver

theorem exists_received (now : Int64) (l : List Inode) : ∃ received : List Inode,
    List.Forall₂ (fun i j => InodeOf.received now i = some j) l received ∧
      received.map key = l.map key := by
  induction l with
  | nil => exact ⟨[], .nil, rfl⟩
  | cons i l ih =>
    obtain ⟨received, hrec, hkeys⟩ := ih
    obtain ⟨j, -, -, -, -, hj, hid⟩ := InodeOf.received_eq now i
    refine ⟨j :: received, .cons hj hrec, ?_⟩
    simp only [List.map_cons, hkeys, key, hid]

variable {now : Int64}

theorem received_unique {l received : List Inode}
    (hrec : List.Forall₂ (fun i j => InodeOf.received now i = some j) l received)
    (h : ∀ i ∈ l, i.RoundTrips now) : received = l := by
  induction hrec with
  | nil => rfl
  | @cons i j l received hj _ ih =>
    have hi : j = i := Option.some.inj (hj.symm.trans (h i (by simp)))
    rw [hi, ih fun i' hi' => h i' (List.mem_cons_of_mem i hi')]

theorem foldl_received_eq_iff {ino : InodeTree} {received : List Inode}
    (hrec : List.Forall₂ (fun i j => InodeOf.received now i = some j) ino.items received)
    (hkeys : received.map key = ino.items.map key) :
    received.foldl OrdTree.insert (OrdTree.empty : InodeTree) = ino ↔
      ∀ i ∈ ino.items, i.RoundTrips now := by
  have hsorted : received.Pairwise (fun a b => a.key < b.key) := by
    have hs : (ino.items.map key).Pairwise (· < ·) := List.pairwise_map.mpr ino.sorted
    rw [← hkeys] at hs
    exact List.pairwise_map.mp hs
  have hitems := OrdTree.foldl_insert_append received (OrdTree.empty : InodeTree) hsorted
  constructor
  · intro h i hi
    have hsame : received = ino.items := by rw [← h]; exact hitems.symm
    rw [hsame] at hrec
    exact List.forall₂_same.mp hrec i hi
  · intro h
    apply OrdTree.ext_items
    rw [hitems]
    exact received_unique hrec h

namespace PartitionImage

/-- The follower has the inodes, the dentries and the applied index of the leader, and every
file that the snapshot captured. -/
structure SameAs (leader mp : PartitionImage) : Prop where
  inodes : mp.inodeTree = leader.inodeTree
  dentries : mp.dentryTree = leader.dentryTree
  applyID : mp.applyID = leader.applyID
  files : ∀ e ∈ leader.rootDir.delExtentFiles, mp.rootDir.readFile e.name = some e.body

def transfer (now : Int64) (fuel : Nat) (leader follower : PartitionImage) :
    Option (PartitionImage × Option SnapErr) :=
  follower.applySnapshot now leader.rootDir fuel leader.snapshot

section

variable {now : Int64} {fuel : Nat} {leader follower mp : PartitionImage} {received : List Inode}
  (hrec : List.Forall₂ (fun i j => InodeOf.received now i = some j)
    leader.inodeTree.items received)

include hrec

theorem loop_snapshot (root : RootDir) (fuel : Nat) : ∃ cursor,
    SnapshotReceiver.loop now leader.rootDir (fuel + leader.inodeTree.items.length + 1)
        leader.snapshot (.start root) = SnapshotReceiver.loop now leader.rootDir fuel
        (leader.snapshot.inodePass leader.inodeTree.items)
        ⟨1, leader.applyID, cursor, received.foldl OrdTree.insert OrdTree.empty,
          OrdTree.empty, root⟩ := by
  obtain ⟨cursor, hfold⟩ := SnapshotReceiver.foldl_addInode received (.begun leader.applyID root)
  have hstart := SnapshotReceiver.loop_start now leader.rootDir root leader.applyID
    leader.inodeTree leader.dentryTree (leader.rootDir.delExtentFiles.map DirEntry.name)
    (fuel + leader.inodeTree.items.length)
  have hpass := SnapshotReceiver.loop_inodePass now leader.rootDir leader.snapshot fuel []
    (.begun leader.applyID root) rfl rfl Nat.one_ne_zero hrec
  rw [hfold] at hpass
  exact ⟨cursor, hstart.trans hpass⟩

theorem transfer_ok (h : transfer now fuel leader follower = some (mp, none)) :
    leader.rootDir.delExtentFiles = [] ∧ ∃ cursor, mp = ⟨leader.applyID, cursor,
      received.foldl insert empty, empty, follower.rootDir⟩ := by
  obtain ⟨⟨r, e⟩, hloop, hres⟩ := map_eq_some_iff.mp h
  have he : e = .eof := by
    by_contra hne
    simp [hne] at hres
  subst he
  obtain ⟨cursor, hsnap⟩ := loop_snapshot hrec follower.rootDir fuel
  rw [Nat.add_assoc, SnapshotReceiver.loop_mono hloop] at hsnap
  have hcur : (leader.snapshot.inodePass leader.inodeTree.items).inoLen <
      (leader.snapshot.inodePass leader.inodeTree.items).cur := Nat.lt_succ_self _
  by_cases hf : leader.rootDir.delExtentFiles = []
  · refine ⟨hf, cursor, ?_⟩
    cases fuel with
    | zero => simp [SnapshotReceiver.loop] at hsnap
    | succ fuel =>
      obtain ⟨item, cur, -, hn⟩ := MetaItemIterator.next_past_inodes leader.rootDir hcur
      have hfiles : (leader.snapshot.inodePass leader.inodeTree.items).fileList = [] := by
        simp [snapshot, inodePass, MetaItemIterator.new, hf]
      simp only [SnapshotReceiver.loop, hn, MetaItemIterator.nextFile, hfiles, some.injEq,
        Prod.mk.injEq, and_true] at hsnap
      subst hsnap
      simpa using hres.symm
  have hfiles : (leader.snapshot.inodePass leader.inodeTree.items).fileList ≠ [] := by
    simpa [snapshot, inodePass, MetaItemIterator.new] using hf
  exact absurd hsnap.symm (SnapshotReceiver.loop_with_files fuel hcur hfiles Nat.one_ne_zero)

theorem exists_transfer (follower : PartitionImage) (hf : leader.rootDir.delExtentFiles = []) :
    ∃ fuel cursor, transfer now fuel leader follower = some (⟨leader.applyID, cursor,
      received.foldl insert empty, empty, follower.rootDir⟩, none) := by
  obtain ⟨cursor, hsnap⟩ := loop_snapshot hrec follower.rootDir 1
  have hcur : (leader.snapshot.inodePass leader.inodeTree.items).inoLen <
      (leader.snapshot.inodePass leader.inodeTree.items).cur := Nat.lt_succ_self _
  obtain ⟨item, cur, -, hn⟩ := MetaItemIterator.next_past_inodes leader.rootDir hcur
  have hfiles : (leader.snapshot.inodePass leader.inodeTree.items).fileList = [] := by
    simp [snapshot, inodePass, MetaItemIterator.new, hf]
  refine ⟨1 + leader.inodeTree.items.length + 1, cursor, ?_⟩
  rw [transfer, applySnapshot, hsnap]
  simp [SnapshotReceiver.loop, hn, MetaItemIterator.nextFile, hfiles]

end

/-- Exactly the transfers of a partition without dentries and without `EXTENT_DEL` files carry it
over, provided the value of every inode fits its record. -/
theorem transfer_same_iff (now : Int64) (leader follower : PartitionImage) :
    ((∃ fuel mp, transfer now fuel leader follower = some (mp, none) ∧ leader.SameAs mp) ↔
      leader.dentryTree = OrdTree.empty ∧ leader.rootDir.delExtentFiles = [] ∧
        ∀ i ∈ leader.inodeTree.items, i.RecordFits) ∧
    ((∃ fuel mp, transfer now fuel leader follower = some (mp, none) ∧ leader.SameAs mp ∧
        mp.rootDir.delExtentFiles = leader.rootDir.delExtentFiles) ↔
      leader.dentryTree = OrdTree.empty ∧ leader.rootDir.delExtentFiles = [] ∧
        (∀ i ∈ leader.inodeTree.items, i.RecordFits) ∧
        follower.rootDir.delExtentFiles = []) := by
  obtain ⟨received, hrec, hkeys⟩ := exists_received now leader.inodeTree.items
  have htree := foldl_received_eq_iff hrec hkeys
  simp only [InodeOf.roundTrips_iff] at htree
  have hsame (fuel : Nat) (mp : PartitionImage)
      (h : transfer now fuel leader follower = some (mp, none)) (hs : leader.SameAs mp) :
      leader.dentryTree = OrdTree.empty ∧ leader.rootDir.delExtentFiles = [] ∧
        (∀ i ∈ leader.inodeTree.items, i.RecordFits) ∧ mp.rootDir = follower.rootDir := by
    obtain ⟨hf, cursor, rfl⟩ := transfer_ok hrec h
    exact ⟨hs.dentries.symm, hf, htree.mp hs.inodes, rfl⟩
  have hback (hd : leader.dentryTree = OrdTree.empty) (hf : leader.rootDir.delExtentFiles = [])
      (hr : ∀ i ∈ leader.inodeTree.items, i.RecordFits) : ∃ fuel mp,
      transfer now fuel leader follower = some (mp, none) ∧ leader.SameAs mp ∧
        mp.rootDir = follower.rootDir := by
    obtain ⟨fuel, cursor, h⟩ := exists_transfer hrec follower hf
    exact ⟨fuel, _, h, ⟨htree.mpr hr, hd.symm, rfl, by simp [hf]⟩, rfl⟩
  refine ⟨⟨?_, ?_⟩, ⟨?_, ?_⟩⟩
  · rintro ⟨fuel, mp, h, hs⟩
    obtain ⟨hd, hf, hr, -⟩ := hsame fuel mp h hs
    exact ⟨hd, hf, hr⟩
  · rintro ⟨hd, hf, hr⟩
    obtain ⟨fuel, mp, h, hs, -⟩ := hback hd hf hr
    exact ⟨fuel, mp, h, hs⟩
  · rintro ⟨fuel, mp, h, hs, hfiles⟩
    obtain ⟨hd, hf, hr, hroot⟩ := hsame fuel mp h hs
    exact ⟨hd, hf, hr, by rw [← hroot, hfiles, hf]⟩
  · rintro ⟨hd, hf, hr, hfol⟩
    obtain ⟨fuel, mp, h, hs, hroot⟩ := hback hd hf hr
    exact ⟨fuel, mp, h, hs, by rw [hroot, hfol, hf]⟩

/-- A directory and a file in it, and no `EXTENT_DEL` file. -/
def oneDentry : PartitionImage where
  applyID := 7
  cursor := 2
  inodeTree := (OrdTree.empty.insert (.new OrdTree.empty 1 modeDir 0)).insert
    (.new OrdTree.empty 2 0 0)
  dentryTree := OrdTree.empty.insert ⟨1, [97], 2, 0⟩
  rootDir := OrdTree.empty

/-- The transfer of one dentry ends well and brings no dentry. -/
theorem transfer_oneDentry : (∃ fuel mp, transfer 0 fuel oneDentry oneDentry = some (mp, none) ∧
      mp.dentryTree = OrdTree.empty) ∧ oneDentry.dentryTree ≠ OrdTree.empty ∧
    ¬ ∃ fuel mp, transfer 0 fuel oneDentry oneDentry = some (mp, none) ∧ oneDentry.SameAs mp := by
  obtain ⟨received, hrec, -⟩ := exists_received 0 oneDentry.inodeTree.items
  have hne : oneDentry.dentryTree ≠ OrdTree.empty := by decide
  refine ⟨?_, hne, ?_⟩
  · obtain ⟨fuel, cursor, h⟩ := exists_transfer hrec oneDentry (by decide)
    exact ⟨fuel, _, h, rfl⟩
  · rintro ⟨fuel, mp, h, hs⟩
    obtain ⟨-, cursor, rfl⟩ := transfer_ok hrec h
    exact hne hs.dentries.symm

end PartitionImage
end ChubaoFS
