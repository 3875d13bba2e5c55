import ChubaoFS.FsmCases

namespace ChubaoFS

structure InodeInfo where
  inode : UInt64
  mode : UInt32
  nlink : UInt32
  size : UInt64
  uid : UInt32
  gid : UInt32
  generation : UInt64
  modifyTime : Int64
  createTime : Int64
  accessTime : Int64
  target : Bytes
  deriving DecidableEq, Inhabited

def InodeOf.replyInfo {ε : Type} (ino : InodeOf ε) : Option InodeInfo :=
  if ino.flag &&& InodeOf.deleteMarkFlag > 0 then none
  else some
    { inode := ino.inode
      mode := ino.type
      nlink := ino.nLink
      size := ino.size
      uid := ino.uid
      gid := ino.gid
      generation := ino.generation
      modifyTime := ino.modifyTime
      createTime := ino.createTime
      accessTime := ino.accessTime
      target := ino.linkTarget }

/-! What a meta partition does with a request, as its result code and reply body. The raft
command goes through, so the request is answered. -/

namespace MetaPartition

def nextInodeID (mp : MetaPartition) : Option (UInt64 × MetaPartition) :=
  if mp.cursor ≥ mp.endId then none
  else some (mp.cursor + 1, { mp with cursor := mp.cursor + 1 })

def reqInode (now : Int64) (ino : UInt64) : Inode := InodeOf.new OrdTree.empty ino 0 now

def newInode (now : Int64) (inoID : UInt64) (mode uid gid : UInt32) (target : Bytes) : Inode :=
  { InodeOf.new OrdTree.empty inoID mode now with uid := uid, gid := gid, linkTarget := target }

def createInode (mp : MetaPartition) (now : Int64) (mode uid gid : UInt32) (target : Bytes) :
    MetaPartition × ResultCode × InodeInfo :=
  match mp.nextInodeID with
  | none => (mp, .opInodeFullErr, default)
  | some (inoID, mp) =>
    let ino := newInode now inoID mode uid gid target
    let (mp, resp) := mp.applyCreateInode ino
    if resp = .opOk then
      match ino.replyInfo with
      | some info => (mp, .opOk, info)
      | none => (mp, .opNotExistErr, default)
    else (mp, .opNotExistErr, default)

def unlinkInode (mp : MetaPartition) (now : Int64) (inode : UInt64) :
    MetaPartition × ResultCode × InodeInfo :=
  let (mp, msg) := mp.fsmUnlinkInode (reqInode now inode)
  (mp, msg.status, (msg.msg.bind InodeOf.replyInfo).getD default)

def inodeGet (mp : MetaPartition) (now : Int64) (inode : UInt64) :
    MetaPartition × ResultCode × InodeInfo :=
  let (mp, retMsg) := mp.getInode now inode
  match retMsg.msg.bind InodeOf.replyInfo with
  | some info => (mp, .opOk, info)
  | none => (mp, .opNotExistErr, default)

def createInodeLink (mp : MetaPartition) (now : Int64) (inode : UInt64) :
    MetaPartition × ResultCode × InodeInfo :=
  let (mp, retMsg) := mp.fsmCreateLinkInode (reqInode now inode)
  match retMsg.msg.bind InodeOf.replyInfo with
  | some info => (mp, .opOk, info)
  | none => (mp, .opNotExistErr, default)

def evictInode (mp : MetaPartition) (now : Int64) (inode : UInt64) : MetaPartition × ResultCode :=
  let (mp, msg) := mp.fsmEvictInode (reqInode now inode)
  (mp, msg.status)

def createDentry (mp : MetaPartition) (dentry : Dentry) : MetaPartition × ResultCode :=
  if dentry.parentId = dentry.inode then (mp, .opExistErr) else mp.fsmCreateDentry dentry

def deleteDentry (mp : MetaPartition) (parentID : UInt64) (name : Bytes) :
    MetaPartition × ResultCode × UInt64 :=
  let (mp, retMsg) := mp.fsmDeleteDentry ⟨parentID, name, 0, 0⟩
  (mp, retMsg.status, retMsg.msg.inode)

def updateDentry (mp : MetaPartition) (parentID : UInt64) (name : Bytes) (inode : UInt64) :
    MetaPartition × ResultCode × UInt64 :=
  if parentID = inode then (mp, .opExistErr, 0)
  else
    let (mp, msg) := mp.fsmUpdateDentry ⟨parentID, name, inode, 0⟩
    (mp, msg.status, msg.msg.inode)

def lookup (mp : MetaPartition) (parentID : UInt64) (name : Bytes) : ResultCode × UInt64 × UInt32 :=
  match mp.getDentry ⟨parentID, name, 0, 0⟩ with
  | (some dentry, status) => (status, dentry.inode, dentry.type)
  | (none, status) => (status, 0, 0)

end MetaPartition

inductive Status
  | exist
  | noent
  | full
  | again
  | error
  | inval
  | notPerm
  deriving DecidableEq, Repr

inductive Errno
  | enoent
  | eexist
  | eagain
  | enomem
  | einval
  | eperm
  | eio
  | enotempty
  deriving DecidableEq, Repr

def statusToErrno : Status → Errno
  | .exist => .eexist
  | .noent => .enoent
  | .full => .enomem
  | .again => .eagain
  | .inval => .einval
  | .notPerm => .eperm
  | .error => .eperm

/-- How a call ends for the client: status OK with the body of the reply, another status, or an
error of the transport, which leaves the status unknown. -/
inductive Answer (β : Type)
  | ok (body : β)
  | refused (status : Status)
  | failed
  deriving DecidableEq

namespace Answer

variable {β : Type}

def parseStatus (body : β) : ResultCode → Answer β
  | .opOk => .ok body
  | .opExistErr => .refused .exist
  | .opNotExistErr => .refused .noent
  | .opInodeFullErr => .refused .full
  | .opAgain => .refused .again
  | .opArgMismatchErr => .refused .inval
  | .opErr => .refused .error

def errno : Answer β → Errno
  | ok _ => .eagain
  | refused status => statusToErrno status
  | failed => .eio

end Answer

inductive Request (n : Nat)
  | icreate (mp : Fin n) (mode uid gid : UInt32) (target : Bytes)
  | iunlink (mp : Fin n) (inode : UInt64)
  | ievict (mp : Fin n) (inode : UInt64)
  | ilink (mp : Fin n) (inode : UInt64)
  | iget (mp : Fin n) (inode : UInt64)
  | lookup (mp : Fin n) (parentID : UInt64) (name : Bytes)
  | dcreate (mp : Fin n) (parentID : UInt64) (name : Bytes) (inode : UInt64) (mode : UInt32)
  | ddelete (mp : Fin n) (parentID : UInt64) (name : Bytes)
  | dupdate (mp : Fin n) (parentID : UInt64) (name : Bytes) (newInode : UInt64)

namespace Request

variable {n : Nat}

abbrev Body : Request n → Type
  | icreate .. => InodeInfo
  | iunlink .. => InodeInfo
  | ievict .. => Unit
  | ilink .. => InodeInfo
  | iget .. => InodeInfo
  | lookup .. => UInt64 × UInt32
  | dcreate .. => Unit
  | ddelete .. => UInt64
  | dupdate .. => UInt64

end Request

abbrev Volume (n : Nat) := Fin n → MetaPartition

namespace Volume

variable {n : Nat}

def put {β : Type} (V : Volume n) (p : Fin n) (r : MetaPartition × ResultCode × β) :
    Volume n × Answer β :=
  (Function.update V p r.1, .parseStatus r.2.2 r.2.1)

def serve (now : Int64) : (r : Request n) → Volume n → Volume n × Answer r.Body
  | .icreate p mode uid gid target, V => V.put p ((V p).createInode now mode uid gid target)
  | .iunlink p inode, V => V.put p ((V p).unlinkInode now inode)
  | .ievict p inode, V =>
    let (mp, status) := (V p).evictInode now inode
    V.put p (mp, status, ())
  | .ilink p inode, V => V.put p ((V p).createInodeLink now inode)
  | .iget p inode, V => V.put p ((V p).inodeGet now inode)
  | .lookup p parentID name, V =>
    let (status, body) := (V p).lookup parentID name
    (V, .parseStatus body status)
  | .dcreate p parentID name inode mode, V =>
    let (mp, status) := (V p).createDentry ⟨parentID, name, inode, mode⟩
    V.put p (mp, status, ())
  | .ddelete p parentID name, V => V.put p ((V p).deleteDentry parentID name)
  | .dupdate p parentID name newInode, V =>
    V.put p ((V p).updateDentry parentID name newInode)

end Volume
end ChubaoFS
