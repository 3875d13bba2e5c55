import ChubaoFS.Base.Files
import ChubaoFS.ExtentCache
import ChubaoFS.ExtentHandler

namespace ChubaoFS

open Bytes

/-! A file that one client uses: its streamer, the inode on the meta node, and the extents on the
data nodes. Every packet is acknowledged and every call of the meta node succeeds. -/

structure ExtentPlace where
  partitionId : UInt64
  extentId : UInt64
  extentOffset : Nat
  deriving DecidableEq

/-- `nodes` are the extents by data partition and extent id. `fresh` and `unshared` tell of the
places that the data nodes have chosen. -/
structure ClientFile where
  inode : Inode
  nodes : UInt64 → UInt64 → Bytes
  extents : ExtentCache
  handlers : Nat → ExtentHandler
  nextHandler : Nat
  handler : Option Nat
  dirtylist : List Nat
  dirty : Bool
  fresh : Bool
  unshared : Bool

namespace ClientFile

def isFresh (s : ClientFile) (mode : StoreMode) (size : Nat) (p : ExtentPlace) : Bool :=
  p.partitionId ≠ 0 ∧ p.extentId ≠ 0 ∧ (s.nodes p.partitionId p.extentId).length ≤ p.extentOffset ∧
    p.extentOffset + size < 2 ^ 64 ∧ (mode = .normal → p.extentOffset = 0)

def isUnshared (s : ClientFile) (fileOffset size : Nat) (p : ExtentPlace) : Bool :=
  ∀ d ∈ s.inode.extents.items, fileOffset < d.key → d.key < fileOffset + size →
    ¬ (d.partitionId = p.partitionId ∧ d.extentId = p.extentId)

def setHandler (s : ClientFile) (id : Nat) (eh : ExtentHandler) : ClientFile :=
  { s with handlers := Function.update s.handlers id eh }

def writeNode (s : ClientFile) (p e : UInt64) (data : Bytes) (offset : Nat) : ClientFile :=
  { s with nodes := fun p' e' =>
      if p' = p ∧ e' = e then writeAt (s.nodes p e) data offset else s.nodes p' e' }

abbrev Placement := ClientFile → StoreMode → Nat → ExtentPlace

variable (place : Placement)

/-- The data nodes give a handler the place `p` for `size` bytes. -/
def give (s : ClientFile) (eh : ExtentHandler) (size : Nat) (p : ExtentPlace) : ClientFile :=
  { s with
    fresh := s.fresh && s.isFresh eh.storeMode size p
    unshared := s.unshared && s.isUnshared eh.fileOffset size p }

def accept (s : ClientFile) (id : Nat) (packet : StreamPacket) (request : List StreamPacket)
    (p e : UInt64) (extOffset : Nat) : ClientFile :=
  (s.writeNode p e packet.data extOffset).setHandler id
    ({ s.handlers id with request := request, extent := some (p, e) }.acknowledged packet p e
      extOffset)

def deliver (s : ClientFile) (id : Nat) : ClientFile :=
  let eh := s.handlers id
  match eh.request with
  | [] => s
  | packet :: request =>
    let p := place s eh.storeMode packet.data.length
    match eh.storeMode, eh.extent with
    | .normal, some (p, e) =>
      s.accept id packet request p e (packet.kernelOffset - eh.fileOffset)
    | .normal, none =>
      (s.give eh packet.data.length p).accept id packet request p.partitionId p.extentId
        (packet.kernelOffset - eh.fileOffset)
    | .tiny, _ =>
      (s.give eh packet.data.length p).accept id packet request p.partitionId p.extentId
        p.extentOffset

def deliverNext (s : ClientFile) (id : Nat) : Nat → ClientFile
  | 0 => s
  | n + 1 => (s.deliver place id).deliverNext id n

def waitForFlush (s : ClientFile) (id : Nat) : ClientFile :=
  s.deliverNext place id (s.handlers id).request.length

def appendExtentKey (s : ClientFile) (id : Nat) : ClientFile :=
  let eh := s.handlers id
  let s := match eh.key with
    | none => s
    | some key =>
      if eh.dirty then
        { s with
          extents := s.extents.append key true
          inode := (s.inode.appendKeys [key] s.inode.modifyTime).1 }
      else { s with extents := s.extents.append key false }
  s.setHandler id { eh with dirty := false }

/-- `ExtentHandler.flush` -/
def flushHandler (s : ClientFile) (id : Nat) : ClientFile :=
  let s := s.setHandler id (s.handlers id).flushPacket
  let s := (s.waitForFlush place id).appendExtentKey id
  if (s.handlers id).storeMode = .tiny then s.setHandler id (s.handlers id).setClosed else s

/-- The loop of `Streamer.flush`. -/
def flushList (s : ClientFile) : List Nat → ClientFile
  | [] => s
  | id :: ids =>
    let s := s.flushHandler place id
    let s := { s with dirtylist := s.dirtylist.tail }
    let s := if (s.handlers id).status = .opened then { s with dirty := false } else s
    s.flushList ids

def flush (s : ClientFile) : ClientFile := s.flushList place s.dirtylist

/-- The loop of `traverse`, which always looks at the front of the list. -/
def traverseList (s : ClientFile) : Nat → ClientFile
  | 0 => s
  | n + 1 =>
    match s.dirtylist with
    | [] => s
    | id :: ids =>
      if (s.handlers id).status = .opened then s.traverseList n
      else
        let s := s.setHandler id (s.handlers id).flushPacket
        if (s.handlers id).request ≠ [] then s.traverseList n
        else { s.appendExtentKey id with dirtylist := ids }.traverseList n

def traverse (s : ClientFile) : ClientFile := s.traverseList s.dirtylist.length

def closeOpenHandler (s : ClientFile) : ClientFile :=
  match s.handler with
  | none => s
  | some id =>
    let s := s.setHandler id (s.handlers id).setClosed
    { s.flushHandler place id with handler := none }

def newHandler (s : ClientFile) (offset : Nat) (mode : StoreMode) : ClientFile :=
  { s.setHandler s.nextHandler (.new offset mode) with
    nextHandler := s.nextHandler + 1
    handler := some s.nextHandler
    dirty := false }

/-- The loop of `doWrite`, and whether the data was taken. -/
def tryWrite (s : ClientFile) (data : Bytes) (offset : Nat) (mode : StoreMode) :
    Nat → ClientFile × Bool
  | 0 => (s, false)
  | n + 1 =>
    let s := if s.handler = none then s.newHandler offset mode else s
    match s.handler with
    | none => (s, false)
    | some id =>
      match (s.handlers id).write data offset with
      | none => tryWrite (s.closeOpenHandler place) data offset mode n
      | some (eh, ek) =>
        ({ s.setHandler id eh with
            dirtylist := if s.dirty then s.dirtylist else s.dirtylist ++ [id]
            dirty := true
            extents := s.extents.append ek false }, true)

def doWrite (s : ClientFile) (data : Bytes) (offset : Nat) : ClientFile × Bool :=
  s.tryWrite place data offset
    (if tinySizeLimit < offset + data.length then .normal else .tiny) 3

def overwritePackets (s : ClientFile) (p e : UInt64) (extOffset : Nat) : Nat → Bytes → ClientFile
  | 0, _ => s
  | fuel + 1, data =>
    if data = [] then s
    else
      let packSize := min data.length blockSize
      (s.writeNode p e (data.take packSize) extOffset).overwritePackets p e (extOffset + packSize)
        fuel (data.drop packSize)

def doOverwrite (s : ClientFile) (data : Bytes) (offset : Nat) : ClientFile × Bool :=
  let s := s.flush place
  match s.extents.get offset with
  | none => (s, false)
  | some ek =>
    if ek.partitionId = 0 then (s, false)
    else (s.overwritePackets ek.partitionId ek.extentId
      (offset - ek.key + ek.extentOffset.toNat) data.length data, true)

def writeRequest (s : ClientFile) (req : ExtentRequest) : ClientFile × Bool :=
  match req.extentKey with
  | some _ => s.doOverwrite place req.data req.fileOffset
  | none => s.doWrite place req.data req.fileOffset

def writeRequests (s : ClientFile) (total : Nat) : List ExtentRequest → ClientFile × Nat × Bool
  | [] => (s, total, true)
  | req :: reqs =>
    let (s, ok) := s.writeRequest place req
    if ok then s.writeRequests (total + req.size) reqs else (s, total, false)

/-- `Streamer.write` -/
def write (s : ClientFile) (data : Bytes) (offset : Nat) : ClientFile × Nat × Bool :=
  let requests := s.extents.prepareWriteRequests offset data.length data
  let overwrites := requests.filter fun req => req.extentKey.isSome
  let s := overwrites.foldl (fun s _ => s.flush place) s
  let requests := if overwrites = [] then requests
    else s.extents.prepareWriteRequests offset data.length data
  let (s, total, ok) := s.writeRequests place 0 requests
  ({ s with extents := if s.extents.size < offset + total then
      s.extents.setSize (offset + total) false else s.extents }, total, ok)

/-- `ExtentReader.Read` -/
def readExtent (s : ClientFile) (ek : ExtentKey) (req : ExtentRequest) : Bytes :=
  ((s.nodes ek.partitionId ek.extentId).drop
    (req.fileOffset - ek.key + ek.extentOffset.toNat)).take req.size

/-- The loop of `Streamer.read`, with what it reads. -/
def readRequests (s : ClientFile) : List ExtentRequest → Bytes
  | [] => []
  | req :: reqs =>
    match req.extentKey with
    | none =>
      if s.extents.size < req.fileOffset + req.size then
        if s.extents.size < req.fileOffset then []
        else List.replicate (s.extents.size - req.fileOffset) 0
      else List.replicate req.size 0 ++ s.readRequests reqs
    | some ek =>
      let got := s.readExtent ek req
      if got.length < req.size then got else got ++ s.readRequests reqs

/-- `ExtentClient.Read`; `data` is the buffer that is to be filled. -/
def read (s : ClientFile) (data : Bytes) (offset : Nat) : ClientFile × Bytes :=
  let s := s.flush place
  let requests := s.extents.prepareReadRequests offset data.length data
  let unknown := requests.any fun req => match req.extentKey with
    | none => false
    | some ek => ek.partitionId == 0 || ek.extentId == 0
  if unknown then
    let s := s.flush place
    (s, s.readRequests (s.extents.prepareReadRequests offset data.length data))
  else (s, s.readRequests requests)

/-- `Streamer.truncate` -/
def truncate (s : ClientFile) (size : Nat) : ClientFile :=
  let s := (s.closeOpenHandler place).flush place
  let s := { s with inode := (s.inode.truncateKeys (UInt64.ofNat size) s.inode.modifyTime).1 }
  if s.extents.size ≤ size then { s with extents := s.extents.setSize size true }
  else { s with extents :=
      s.extents.update s.inode.generation s.inode.size.toNat s.inode.extents.items }

end ClientFile

inductive FileEvent
  | write (data : Bytes) (offset : Nat)
  | flush
  | truncate (size : Nat)
  | read (data : Bytes) (offset : Nat)
  | deliver
  | tick

namespace ClientFile

variable (place : Placement)

def run (s : ClientFile) : FileEvent → ClientFile
  | .write data offset => (s.write place data offset).1
  | .flush => s.flush place
  | .truncate size => s.truncate place size
  | .read data offset => (s.read place data offset).1
  | .deliver =>
    match s.handler with
    | none => s
    | some id => s.deliver place id
  | .tick => s.traverse

end ClientFile

def FileEvent.spec (file : Bytes) : FileEvent → Bytes
  | write data offset => writeAt file data offset
  | truncate size => file.take size ++ List.replicate (size - file.length) 0
  | _ => file

def ClientFile.step (place : ClientFile.Placement) (s : ClientFile × Bytes) (e : FileEvent) :
    Option (ClientFile × Bytes) :=
  some (s.1.run place e, e.spec s.2)

end ChubaoFS
