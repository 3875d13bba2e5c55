import ChubaoFS.Base.Decimal
import ChubaoFS.Base.Files
import ChubaoFS.Base.Run
import ChubaoFS.SnapshotTransfer

namespace ChubaoFS

open Bytes

/-! The files in which the replicas of a meta partition note the extents that are to be deleted: one
goroutine appends to the last of them, another one deletes what the first of them holds, and
replicated commands move its cursor and remove it. -/

abbrev DelFileName := List Nat

def delFileName (idx : Nat) : DelFileName :=
  (prefixDelExtent ++ 95 :: putDecimal idx).map UInt8.toNat

def mb : Nat := 1048576

def maxDeleteExtentSize : Nat := 10 * mb

def extentLength : Nat := 40

def extentsFileHeader : Bytes := [0, 0, 0, 0, 0, 0, 0, 8]

structure DelFile where
  name : DelFileName
  content : Bytes
  deriving DecidableEq

abbrev DelDir := OrdTree DelFile DelFile.name

def decodeKeys (buf : Bytes) : List ExtentKey :=
  (List.range (buf.length / extentLength)).map fun i =>
    (ExtentKey.unmarshalBinary.exec default ((buf.drop (extentLength * i)).take extentLength)).1

def keysOf (content : Bytes) : List ExtentKey := decodeKeys (content.drop 8)

def contentOf (dir : DelDir) (name : DelFileName) : Bytes :=
  match dir.get? name with
  | none => []
  | some f => f.content

/-- The goroutine that deletes: before it looks at the list, after its `Stat`, after a read that met
the end of the file, and while it deletes what it read. With the new cursor it keeps the keys that
the file holds before it. -/
inductive PassPhase
  | idle
  | stated (name : DelFileName) (size : Nat)
  | eof (name : DelFileName)
  | deleting (name : DelFileName) (cursor : UInt64) (before : List ExtentKey)
    (keys : List ExtentKey)

/-- A replica; `linked` says that its open file is still in the directory, and `appended` what it
has ever written. -/
structure DelReplica where
  dir : DelDir
  fileList : List DelFileName
  fileName : DelFileName
  linked : Bool
  fileSize : Nat
  idx : Nat
  extDelCh : List ExtentKey
  pass : PassPhase
  appended : List (DelFileName × ExtentKey)

namespace DelReplica

/-- The beginning of `appendDelExtentsToFile`, with an empty list. -/
def scan (s : DelReplica) : DelReplica :=
  match s.dir.max? with
  | none => { s with
      dir := s.dir.insert ⟨delFileName s.idx, extentsFileHeader⟩
      fileList := [delFileName s.idx]
      fileName := delFileName s.idx
      linked := true }
  | some last => { s with
      fileList := s.dir.items.map DelFile.name
      fileSize := last.content.length
      fileName := last.name
      linked := true }

def start (s : DelReplica) : DelReplica :=
  { s with fileList := [], fileSize := 0, idx := 0, extDelCh := [], pass := .idle }.scan

def new : DelReplica := start ⟨.empty, [], [], false, 0, 0, [], .idle, []⟩

def rotate (s : DelReplica) : DelReplica :=
  let name := delFileName (s.idx + 1)
  { s with
    dir := s.dir.insert ⟨name, contentOf s.dir name ++ extentsFileHeader⟩
    fileList := s.fileList ++ [name]
    fileName := name
    linked := true
    fileSize := 8
    idx := s.idx + 1 }

def writeKey (s : DelReplica) (ek : ExtentKey) : DelReplica :=
  { s with
    dir := if s.linked then
        s.dir.insert ⟨s.fileName, contentOf s.dir s.fileName ++ ek.marshalBinary⟩
      else s.dir
    fileSize := s.fileSize + extentLength
    appended := (s.fileName, ek) :: s.appended }

def append (s : DelReplica) (ek : ExtentKey) : DelReplica :=
  (if maxDeleteExtentSize ≤ s.fileSize then s.rotate else s).writeKey ek

def setExtentDeleteFileCursor (s : DelReplica) (name : DelFileName) (cursor : UInt64) :
    DelReplica :=
  { s with dir := s.dir.insert ⟨name, writeAt (contentOf s.dir name) (putUInt64 cursor) 0⟩ }

def removeUpTo (dir : DelDir) (name : DelFileName) : DelDir :=
  ⟨dir.items.filter fun f => name < f.name, dir.sorted.filter _⟩

def delOldExtentFile (s : DelReplica) (name : DelFileName) : DelReplica :=
  { s with dir := removeUpTo s.dir name, linked := s.linked && decide (name < s.fileName) }

def applySnapshot (s : DelReplica) (snap : DelDir) : DelReplica :=
  { s with dir := snap.items.foldl OrdTree.insert s.dir, fileList := [] }.scan

end DelReplica

inductive PassRead
  /-- The file has no header yet. -/
  | retry
  | eof
  | data (cursor : UInt64) (buf : Bytes)

/-- How much is read at the cursor; `none` if the file is corrupted. -/
def passLength (size : Nat) (cursor : UInt64) : Option Nat :=
  let size := UInt64.ofNat size - cursor
  if size.toNat < mb then
    if size = 0 then some extentLength
    else if size.toNat < extentLength then none
    else some size.toNat
  else some mb

/-- `none` is a panic. -/
def passRead (content : Bytes) (size : Nat) : Option PassRead :=
  match readAt content 0 8 with
  | none => some .retry
  | some header =>
    let cursor := toUInt64 header
    match passLength size cursor with
    | none => none
    | some len =>
      if 2 ^ 63 ≤ cursor.toNat then none
      else
        match readAt content cursor.toNat len with
        | none => some .eof
        | some buf => some (.data cursor buf)

inductive DelCmd
  | setCursor (name : DelFileName) (cursor : UInt64)
  | delOld (name : DelFileName)

/-- A command of the raft log. With it is kept what the replica that issued it had seen: the keys
before the cursor, or the keys of the files up to the one of that name. -/
structure LoggedCmd where
  cmd : DelCmd
  seen : List ExtentKey

/-- The replicas of a partition, their log, the snapshots that were taken, and what has become of
the keys so far. -/
structure DelCluster where
  replicas : Nat → DelReplica
  log : List LoggedCmd
  snaps : List DelDir
  read : List ExtentKey
  deleted : List ExtentKey
  requeued : List ExtentKey

namespace DelCluster

def new : DelCluster := ⟨fun _ => .new, [], [], [], [], []⟩

inductive Event
  | enqueue (r : Nat) (ek : ExtentKey)
  | append (r : Nat)
  | restart (r : Nat)
  | takeSnapshot (r : Nat)
  | applySnapshot (r k : Nat)
  | stat (r : Nat) (isLeader : Bool)
  | read (r : Nat)
  | look (r : Nat) (logged : Bool)
  | delete (r : Nat) (ok : Bool)
  | put (r : Nat) (logged : Bool)
  | apply (r k : Nat)

def setReplica (s : DelCluster) (r : Nat) (x : DelReplica) : DelCluster :=
  { s with replicas := Function.update s.replicas r x }

def keysUpTo (dir : DelDir) (name : DelFileName) : List ExtentKey :=
  (dir.items.filter fun f => f.name ≤ name).flatMap fun f => keysOf f.content

def applyCmd (x : DelReplica) : DelCmd → DelReplica
  | .setCursor name cursor => x.setExtentDeleteFileCursor name cursor
  | .delOld name => x.delOldExtentFile name

def stat (s : DelCluster) (r : Nat) (isLeader : Bool) : Option DelCluster :=
  let x := s.replicas r
  match x.pass, x.fileList with
  | .idle, name :: rest =>
    match x.dir.get? name with
    | none => some (s.setReplica r { x with fileList := rest })
    | some f =>
      if isLeader then some (s.setReplica r { x with pass := .stated name f.content.length })
      else some s
  | _, _ => none

def readFile (s : DelCluster) (r : Nat) : Option DelCluster :=
  let x := s.replicas r
  match x.pass with
  | .stated name size =>
    match x.dir.get? name with
    | none => none
    | some f =>
      match passRead f.content size with
      | none => none
      | some .retry => some (s.setReplica r { x with pass := .idle })
      | some .eof => some (s.setReplica r { x with pass := .eof name })
      | some (.data cursor buf) =>
        let cursor' := cursor + UInt64.ofNat (buf.length - buf.length % extentLength)
        let before := decodeKeys ((f.content.drop 8).take (cursor'.toNat - 8))
        some { s.setReplica r { x with
            pass := .deleting name cursor' before (decodeKeys buf) } with
          read := s.read ++ decodeKeys buf }
  | _ => none

def step (s : DelCluster) : Event → Option DelCluster
  | .enqueue r ek =>
    let x := s.replicas r
    some (s.setReplica r { x with extDelCh := x.extDelCh ++ [ek] })
  | .append r =>
    let x := s.replicas r
    match x.extDelCh with
    | [] => none
    | ek :: rest => some (s.setReplica r ({ x with extDelCh := rest }.append ek))
  | .restart r => some (s.setReplica r (s.replicas r).start)
  | .takeSnapshot r => some { s with snaps := s.snaps ++ [(s.replicas r).dir] }
  | .applySnapshot r k => (s.snaps[k]?).map fun snap =>
      s.setReplica r ((s.replicas r).applySnapshot snap)
  | .stat r isLeader => s.stat r isLeader
  | .read r => s.readFile r
  | .look r logged =>
    let x := s.replicas r
    match x.pass with
    | .eof name =>
      let s := s.setReplica r { x with pass := .idle }
      if 1 < x.fileList.length ∧ logged = true then
        some { s with log := s.log ++ [⟨.delOld name, keysUpTo x.dir name⟩] }
      else some s
    | _ => none
  | .delete r ok =>
    let x := s.replicas r
    match x.pass with
    | .deleting name cursor before (ek :: rest) =>
      if ok then some { s.setReplica r { x with pass := .deleting name cursor before rest } with
        deleted := ek :: s.deleted }
      else some { s.setReplica r { x with
          pass := .deleting name cursor before rest
          extDelCh := x.extDelCh ++ [ek] } with
        requeued := ek :: s.requeued }
    | _ => none
  | .put r logged =>
    let x := s.replicas r
    match x.pass with
    | .deleting name cursor before [] =>
      let s := s.setReplica r { x with pass := .idle }
      if logged then some { s with log := s.log ++ [⟨.setCursor name cursor, before⟩] } else some s
    | _ => none
  | .apply r k => (s.log[k]?).map fun c => s.setReplica r (applyCmd (s.replicas r) c.cmd)

end DelCluster
end ChubaoFS
