import ChubaoFS.Base.Prog
import ChubaoFS.Rpc

namespace ChubaoFS

variable {n : Nat}

structure PartitionRange (n : Nat) where
  id : Fin n
  start : UInt64
  endId : UInt64

def PartitionRange.key (r : PartitionRange n) : Nat := r.start.toNat

structure MetaWrapper (n : Nat) where
  ranges : OrdTree (PartitionRange n) PartitionRange.key

/-- What a call is for: `undo` marks the calls that take back an earlier one, `expect` is the
inode the caller takes the dentry to name. -/
structure Note where
  undo : Bool := false
  expect : Option UInt64 := none

/-- The length of the UTF-8 sequence that the bytes begin with, or 0. -/
def runeLen : Bytes → Nat
  | [] => 0
  | b :: rest =>
    let isIn (i : Nat) (lo hi : UInt8) := rest[i]?.any fun c => lo ≤ c && c ≤ hi
    if b < 0x80 then 1
    else if b < 0xC2 then 0
    else if b < 0xE0 then if isIn 0 0x80 0xBF then 2 else 0
    else if b < 0xF0 then
      if isIn 0 (if b = 0xE0 then 0xA0 else 0x80) (if b = 0xED then 0x9F else 0xBF) &&
        isIn 1 0x80 0xBF then 3 else 0
    else if b < 0xF5 then
      if isIn 0 (if b = 0xF0 then 0x90 else 0x80) (if b = 0xF4 then 0x8F else 0xBF) &&
        isIn 1 0x80 0xBF && isIn 2 0x80 0xBF then 4 else 0
    else 0

/-- `len` bytes are left of a sequence. -/
def coerceUtf8 : Nat → Bytes → Bytes
  | _, [] => []
  | len + 1, b :: rest => b :: coerceUtf8 len rest
  | 0, b :: rest =>
    match runeLen (b :: rest) with
    | 0 => 0xEF :: 0xBF :: 0xBD :: coerceUtf8 0 rest
    | len + 1 => b :: coerceUtf8 len rest

/-- A name as it comes through JSON: a byte that is not of valid UTF-8 is U+FFFD then. The calls
below take their names so, as their requests carry them. -/
def jsonName : Bytes → Bytes := coerceUtf8 0

example : jsonName [0xC3, 0xA9, 0xFF, 97] = [0xC3, 0xA9, 0xEF, 0xBF, 0xBD, 97] := by decide

abbrev Client (n : Nat) (α : Type) := Prog Note (Request n) (fun r => Answer r.Body) α

namespace Client

variable {α : Type}

def undoing : Note := { undo := true }

def dcreate (mp : Fin n) (parentID : UInt64) (name : Bytes) (inode : UInt64) (mode : UInt32)
    (k : Answer Unit → Client n α) : Client n α :=
  if parentID = inode then k (.refused .exist)
  else .call {} (.dcreate mp parentID name inode mode) k

def dupdate (note : Note) (mp : Fin n) (parentID : UInt64) (name : Bytes) (newInode : UInt64)
    (k : Answer UInt64 → Client n α) : Client n α :=
  if parentID = newInode then k (.refused .exist)
  else .call note (.dupdate mp parentID name newInode) k

end Client

namespace MetaWrapper

open Client

variable (mw : MetaWrapper n)

def getPartitionByInode (ino : UInt64) : Option (Fin n) :=
  match (mw.ranges.descendLessOrEqual ino.toNat).head? with
  | none => none
  | some mp => if ino > mp.endId ∨ ino < mp.start then none else some mp.id

def tryOrder (rwPartitions : List (Fin n)) (epoch : Nat) : List (Fin n) :=
  (List.range rwPartitions.length).filterMap fun i =>
    rwPartitions[(epoch + i) % rwPartitions.length]?

/-- The dentry for an inode that was just created in `mp`. -/
def createDentryFor (parentMP mp : Fin n) (parentID : UInt64) (name : Bytes) (mode : UInt32)
    (info : InodeInfo) : Client n (Except Errno (Option InodeInfo)) :=
  dcreate parentMP parentID name info.inode mode fun
    | .ok () => .ret (.ok (some info))
    | .refused .exist => .ret (.error .eexist)
    | a => .call undoing (.iunlink mp info.inode) fun _ =>
        .call undoing (.ievict mp info.inode) fun _ => .ret (.error a.errno)

def createInodeIn (parentMP : Fin n) (parentID : UInt64) (name : Bytes) (mode uid gid : UInt32)
    (target : Bytes) : List (Fin n) → Client n (Except Errno (Option InodeInfo))
  | [] => .ret (.error .enomem)
  | mp :: mps => .call {} (.icreate mp mode uid gid target) fun
      | .ok info => createDentryFor parentMP mp parentID name mode info
      | _ => createInodeIn parentMP parentID name mode uid gid target mps

def createLl (rwPartitions : List (Fin n)) (epoch : Nat) (parentID : UInt64) (name : Bytes)
    (mode uid gid : UInt32) (target : Bytes) : Client n (Except Errno (Option InodeInfo)) :=
  match mw.getPartitionByInode parentID with
  | none => .ret (.error .enoent)
  | some parentMP =>
    createInodeIn parentMP parentID name mode uid gid target (tryOrder rwPartitions epoch)

def deleteDentryOf (parentMP : Fin n) (parentID : UInt64) (name : Bytes) :
    Client n (Except Errno (Option InodeInfo)) :=
  .call {} (.ddelete parentMP parentID name) fun
    | .ok inode =>
      match mw.getPartitionByInode inode with
      | none => .ret (.ok none)
      | some mp => .call {} (.iunlink mp inode) fun
          | .ok info => .ret (.ok (some info))
          | _ => .ret (.ok none)
    | a => .ret (.error a.errno)

def deleteLl (parentID : UInt64) (name : Bytes) (dir : Bool) :
    Client n (Except Errno (Option InodeInfo)) :=
  match mw.getPartitionByInode parentID with
  | none => .ret (.error .enoent)
  | some parentMP =>
    if dir then
      .call {} (.lookup parentMP parentID name) fun
        | .ok (inode, mode) =>
          if !isDir mode then .ret (.error .einval)
          else
            match mw.getPartitionByInode inode with
            | none => .ret (.error .eagain)
            | some mp => .call {} (.iget mp inode) fun
                | .ok info =>
                  if info.nlink > 2 then .ret (.error .enotempty)
                  else deleteDentryOf mw parentMP parentID name
                | a => .ret (.error a.errno)
        | a => .ret (.error a.errno)
    else deleteDentryOf mw parentMP parentID name

def link (parentID : UInt64) (name : Bytes) (ino : UInt64) :
    Client n (Except Errno (Option InodeInfo)) :=
  match mw.getPartitionByInode parentID with
  | none => .ret (.error .enoent)
  | some parentMP =>
    match mw.getPartitionByInode ino with
    | none => .ret (.error .enoent)
    | some mp => .call {} (.ilink mp ino) fun
        | .ok info => dcreate parentMP parentID name ino info.mode fun
            | .ok () => .ret (.ok (some info))
            | .refused .exist => .ret (.error .eexist)
            | _ => .call undoing (.iunlink mp ino) fun _ => .ret (.error .eagain)
        | a => .ret (.error a.errno)

/-- The operands of a rename, with the partitions of the two parents, of the inode and the inode
itself as the first lookup found it. -/
structure Renaming (n : Nat) where
  srcParentMP : Fin n
  srcParentID : UInt64
  srcName : Bytes
  dstParentMP : Fin n
  dstParentID : UInt64
  dstName : Bytes
  srcMP : Fin n
  inode : UInt64
  mode : UInt32

def dropLink (x : Renaming n) (err : Errno) : Client n (Except Errno (Option InodeInfo)) :=
  .call undoing (.iunlink x.srcMP x.inode) fun _ => .ret (.error err)

def afterRestore (x : Renaming n) (err : Errno) :
    Answer UInt64 → Client n (Except Errno (Option InodeInfo))
  | .ok _ => dropLink x err
  | _ => .ret (.error err)

def restoring (x : Renaming n) : Note := { undo := true, expect := some x.inode }

def restoreDst (x : Renaming n) (oldInode : UInt64) (err : Errno) :
    Client n (Except Errno (Option InodeInfo)) :=
  if oldInode = 0 then
    .call (restoring x) (.ddelete x.dstParentMP x.dstParentID x.dstName) (afterRestore x err)
  else dupdate (restoring x) x.dstParentMP x.dstParentID x.dstName oldInode (afterRestore x err)

def deleteSrc (x : Renaming n) (oldInode : UInt64) : Client n (Except Errno (Option InodeInfo)) :=
  .call { expect := some x.inode } (.ddelete x.srcParentMP x.srcParentID x.srcName) fun
    | .ok _ => .call {} (.iunlink x.srcMP x.inode) fun _ =>
        if oldInode = 0 then .ret (.ok none)
        else
          match mw.getPartitionByInode oldInode with
          | none => .ret (.ok none)
          | some inodeMP => .call {} (.iunlink inodeMP oldInode) fun _ => .ret (.ok none)
    | a => restoreDst x oldInode a.errno

def createDst (x : Renaming n) : Client n (Except Errno (Option InodeInfo)) :=
  dcreate x.dstParentMP x.dstParentID x.dstName x.inode x.mode fun
    | .ok () => deleteSrc mw x 0
    | .failed => dropLink x .eagain
    | .refused status =>
      if status = .exist ∧ isRegular x.mode then
        dupdate {} x.dstParentMP x.dstParentID x.dstName x.inode fun
          | .ok oldInode => deleteSrc mw x oldInode
          | .failed => dropLink x .eagain
          | .refused status => dropLink x (statusToErrno status)
      else dropLink x (statusToErrno status)

def renameLl (srcParentID : UInt64) (srcName : Bytes) (dstParentID : UInt64) (dstName : Bytes) :
    Client n (Except Errno (Option InodeInfo)) :=
  match mw.getPartitionByInode srcParentID with
  | none => .ret (.error .enoent)
  | some srcParentMP =>
    match mw.getPartitionByInode dstParentID with
    | none => .ret (.error .enoent)
    | some dstParentMP =>
      .call {} (.lookup srcParentMP srcParentID srcName) fun
        | .ok (inode, mode) =>
          match mw.getPartitionByInode inode with
          | none => .ret (.error .enoent)
          | some srcMP => .call {} (.ilink srcMP inode) fun
              | .ok _ => createDst mw ⟨srcParentMP, srcParentID, srcName, dstParentMP, dstParentID,
                  dstName, srcMP, inode, mode⟩
              | a => .ret (.error a.errno)
        | a => .ret (.error a.errno)

inductive Op (n : Nat)
  | create (rwPartitions : List (Fin n)) (epoch : Nat) (parentID : UInt64) (name : Bytes)
      (mode uid gid : UInt32) (target : Bytes)
  | link (parentID : UInt64) (name : Bytes) (ino : UInt64)
  | delete (parentID : UInt64) (name : Bytes) (dir : Bool)
  | rename (srcParentID : UInt64) (srcName : Bytes) (dstParentID : UInt64) (dstName : Bytes)

def prog : Op n → Client n (Except Errno (Option InodeInfo))
  | .create rwPartitions epoch parentID name mode uid gid target =>
    mw.createLl rwPartitions epoch parentID name mode uid gid target
  | .link parentID name ino => mw.link parentID name ino
  | .delete parentID name dir => mw.deleteLl parentID name dir
  | .rename srcParentID srcName dstParentID dstName =>
    mw.renameLl srcParentID srcName dstParentID dstName

end MetaWrapper
end ChubaoFS
