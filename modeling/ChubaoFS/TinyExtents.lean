import Mathlib.Data.List.Dedup
import ChubaoFS.Proto
import ChubaoFS.ReplProtocol

namespace ChubaoFS

/-! The tiny extents of a data partition: their watermarks, the two channels that their ids go
through, the rounds that repair them and the functions that packets run. -/

def pageSize : Nat := 4096

def blockSize : Nat := 131072

def maxUint32 : Nat := 4294967295

def roundUp (n : Nat) : Nat := if n % pageSize ≠ 0 then n + (pageSize - n % pageSize) else n

theorem le_roundUp (n : Nat) : n ≤ roundUp n := by
  unfold roundUp
  split
  · exact Nat.le_add_right _ _
  · exact Nat.le_refl _

structure ExtentInfo where
  fileID : UInt64
  size : Nat
  isDeleted : Bool

/-- A round of `repair` after its tasks are built: the ids to give back, the extents of the leader
that are short with the size that they should have, and where the first of them is being written. -/
structure RepairRound where
  available : List UInt64
  broken : List UInt64
  toBeRepaired : List (UInt64 × Nat)
  currFixOffset : Option Nat

inductive RepairPhase
  | idle
  | taking (ids : List UInt64)
  | giveBack (ids : List UInt64)
  | running (round : RepairRound)

/-- What an `ExtentStore` keeps about tiny extents. -/
structure TinyExtents where
  sizes : UInt64 → Option Nat
  available : List UInt64
  broken : List UInt64
  repair : RepairPhase

namespace TinyExtents

def ids : List UInt64 := (List.range 64).map fun i => UInt64.ofNat (i + 1)

/-- After `initTinyExtent`, on what was on the disk. -/
def initTinyExtent (onDisk : UInt64 → Nat) : TinyExtents where
  sizes := fun id => if isTinyExtent id then some (roundUp (onDisk id)) else none
  available := []
  broken := ids
  repair := .idle

def getTinyExtentOffset (s : TinyExtents) (id : UInt64) : Option Nat := (s.sizes id).map roundUp

def chanHasRoom (ch : List UInt64) : Bool := decide (ch.length < tinyExtentCount.toNat)

def sendToAvailable (s : TinyExtents) (id : UInt64) : Option TinyExtents :=
  if chanHasRoom s.available then some { s with available := s.available ++ [id] } else none

def sendToBroken (s : TinyExtents) (id : UInt64) : Option TinyExtents :=
  if chanHasRoom s.broken then some { s with broken := s.broken ++ [id] } else none

/-- `Write` on a tiny extent; `err` is what the file system answers. -/
def writeTiny (s : TinyExtents) (id : UInt64) (offset : Int) (size : Nat) (err : Option ErrText) :
    Except ErrText TinyExtents :=
  match s.sizes id with
  | none => .error .extentNotFound
  | some _ =>
    let index := offset + size
    if (maxUint32 : Int) ≤ index then .error .other
    else
      match err with
      | some e => .error e
      | none =>
        -- a file has no negative offsets
        if offset < 0 then .error .other
        else .ok { s with
          sizes := Function.update s.sizes id (some (roundUp index.toNat)) }

/-! Rounds of repair. -/

def extentOf (infos : List ExtentInfo) (id : UInt64) : Option ExtentInfo :=
  infos.reverse.find? fun info => info.fileID == id

def largerInfo (acc : Option ExtentInfo) (info : Option ExtentInfo) : Option ExtentInfo :=
  match info with
  | none => acc
  | some info =>
    if info.isDeleted then acc
    else
      match acc with
      | none => some info
      | some m => if m.size < info.size then some info else some m

/-- The entry of `extentInfoMap`. -/
def maxInfo (tasks : List (List ExtentInfo)) (id : UInt64) : Option ExtentInfo :=
  tasks.foldl (fun acc infos => largerInfo acc (extentOf infos id)) none

def isShort (max : ExtentInfo) (info : Option ExtentInfo) : Bool :=
  match info with
  | none => false
  | some info => !info.isDeleted && decide (info.size < max.size)

def hasBeenRepaired (tasks : List (List ExtentInfo)) (id : UInt64) (max : ExtentInfo) : Bool :=
  tasks.all fun infos => !isShort max (extentOf infos id)

/-- `prepareRepairTasks`; the first task is the leader's. -/
def prepareRepairTasks (tasks : List (List ExtentInfo)) : RepairRound :=
  let found := ((tasks.flatMap fun infos => infos.map ExtentInfo.fileID).dedup).filterMap fun id =>
    (maxInfo tasks id).map fun max => (id, max)
  let tiny := found.filter fun x => isTinyExtent x.1
  { available := (tiny.filter fun x => hasBeenRepaired tasks x.1 x.2).map Prod.fst
    broken := (tiny.filter fun x => !hasBeenRepaired tasks x.1 x.2).map Prod.fst
    toBeRepaired := (found.filter fun x => isShort x.2 (extentOf (tasks.headD []) x.1)).map
      fun x => (x.1, x.2.size)
    currFixOffset := none }

/-- `GetAllWatermarks` with a `TinyExtentFilter`. -/
def tinyExtentFilter (filters : List UInt64) (infos : List ExtentInfo) : List ExtentInfo :=
  infos.filter fun info => isTinyExtent info.fileID && filters.contains info.fileID &&
    !info.isDeleted

def localInfos (s : TinyExtents) (filters : List UInt64) : List ExtentInfo :=
  filters.dedup.filterMap fun id => (s.sizes id).map fun size => ⟨id, size, false⟩

inductive RepairEvent
  | moveToBroken
  | start
  | take
  | buildFails
  | build (remotes : List (List ExtentInfo))
  | giveBack
  | fixStart
  | fixChunk (size : UInt32) (err : Option ErrText)
  | fixEnds
  | sendAvailable (id : UInt64)
  | sendBroken (id : UInt64)
  | finish

def repairStep (s : TinyExtents) : RepairEvent → Option TinyExtents
  | .moveToBroken =>
    match s.repair, s.available with
    | .idle, id :: rest => { s with available := rest }.sendToBroken id
    | _, _ => none
  | .start =>
    match s.repair with
    | .idle => some { s with repair := .taking [] }
    | _ => none
  | .take =>
    match s.repair, s.broken with
    | .taking ids, id :: rest => some { s with broken := rest, repair := .taking (ids ++ [id]) }
    | _, _ => none
  | .buildFails =>
    match s.repair with
    | .taking ids => some { s with repair := .giveBack ids }
    | _ => none
  | .build remotes =>
    match s.repair with
    | .taking ids => some { s with
        repair := .running (prepareRepairTasks
          (s.localInfos ids :: remotes.map (tinyExtentFilter ids))) }
    | _ => none
  | .giveBack =>
    match s.repair with
    | .giveBack (id :: rest) => { s with repair := .giveBack rest }.sendToBroken id
    | _ => none
  | .fixStart =>
    match s.repair with
    | .running round =>
      match round.toBeRepaired, round.currFixOffset with
      | (id, size) :: rest, none =>
        match s.sizes id with
        | none => some { s with repair := .running { round with toBeRepaired := rest } }
        | some w =>
          if size ≤ w then some { s with repair := .running { round with toBeRepaired := rest } }
          else some { s with repair := .running { round with currFixOffset := some w } }
      | _, _ => none
    | _ => none
  | .fixChunk size err =>
    match s.repair with
    | .running round =>
      match round.toBeRepaired, round.currFixOffset with
      | (id, target) :: rest, some offset =>
        -- an empty reply ends the extent's repair as an error does
        if offset < target ∧ size ≠ 0 then
          match s.writeTiny id offset size.toNat err with
          | .error _ => some { s with
              repair := .running { round with toBeRepaired := rest, currFixOffset := none } }
          | .ok s => some { s with
              repair := .running { round with currFixOffset := some (offset + size.toNat) } }
        else none
      | _, _ => none
    | _ => none
  | .fixEnds =>
    match s.repair with
    | .running round =>
      match round.toBeRepaired, round.currFixOffset with
      | _ :: rest, some _ => some { s with
          repair := .running { round with toBeRepaired := rest, currFixOffset := none } }
      | _, _ => none
    | _ => none
  | .sendAvailable id =>
    match s.repair with
    | .running round =>
      if round.toBeRepaired = [] ∧ id ∈ round.available then
        { s with repair := .running { round with available := round.available.erase id }
          }.sendToAvailable id
      else none
    | _ => none
  | .sendBroken id =>
    match s.repair with
    | .running round =>
      if round.toBeRepaired = [] ∧ id ∈ round.broken then
        { s with repair := .running { round with broken := round.broken.erase id }
          }.sendToBroken id
      else none
    | _ => none
  | .finish =>
    match s.repair with
    | .taking [] => some { s with repair := .idle }
    | .giveBack [] => some { s with repair := .idle }
    | .running round =>
      if round.available = [] ∧ round.broken = [] then some { s with repair := .idle } else none
    | _ => none

end TinyExtents

/-- What decides a slice of a packet's functions from outside: the state of the disk, the file
system and, for what is not modelled, the other partitions and the other operations. -/
structure NodeOutcome where
  noSpace : Bool
  diskBroken : Bool
  failure : Option ErrText
  resultCode : UInt8
  extentID : UInt64
  extentOffset : Int
  size : UInt32
  crc : UInt32
  streamed : List Packet

structure DataNode where
  partitionID : UInt64
  checksumIEEE : Bytes → UInt32

namespace DataNode

variable (node : DataNode)

def prepareFailed (s : TinyExtents) (p : Packet) (msg : ErrText) :
    TinyExtents × Packet × Progress :=
  (s, p.packErrorBody .preparePkt msg, .failed)

def checkStoreMode (p : Packet) : Bool :=
  p.extentType == tinyExtentType || p.extentType == normalExtentType

def checkCrc (p : Packet) : Bool :=
  !p.isWriteOperation || node.checksumIEEE (p.data.take p.size.toNat) == p.crc

/-- The first slice of `addExtentInfo`. -/
def addExtentInfo (o : NodeOutcome) (s : TinyExtents) (p : Packet) :
    TinyExtents × Packet × Progress :=
  if p.isLeaderPacket && p.isTinyExtentType && p.isWriteOperation then
    match s.available with
    | [] => prepareFailed s p .other
    | id :: rest => ({ s with available := rest }, { p with extentID := id }, .goesOn)
  else if p.isLeaderPacket && p.isCreateExtentOperation then
    match o.failure with
    | some msg => prepareFailed s p msg
    | none => (s, { p with extentID := o.extentID }, .done)
  else if p.isLeaderPacket && p.isMarkDeleteExtentOperation && p.isTinyExtentType then
    match o.failure with
    | some msg => prepareFailed s p msg
    | none => (s, { p with size := o.size }, .done)
  else (s, p, .done)

/-- `Prepare`. Its second slice reads the watermark of the extent that the first one took. -/
def prepare (o : NodeOutcome) (n : Nat) (s : TinyExtents) (p : Packet) :
    TinyExtents × Packet × Progress :=
  match n with
  | 0 =>
    if p.isMasterCommand then (s, p, .done)
    else if !checkStoreMode p then prepareFailed s p .other
    else if !node.checkCrc p then prepareFailed s p .other
    else if p.partitionID ≠ node.partitionID then
      match o.failure with
      | some msg => prepareFailed s { p with object := .otherPartition } msg
      | none => (s, { p with
          object := .otherPartition, extentID := o.extentID, extentOffset := o.extentOffset,
          size := o.size }, .done)
    else if (p.isWriteOperation || p.isCreateExtentOperation) && o.noSpace then
      prepareFailed s { p with object := .partition } .noSpace
    else addExtentInfo o s { p with object := .partition }
  | _ + 1 =>
    match s.getTinyExtentOffset p.extentID with
    | none => prepareFailed s p .other
    | some offset => (s, { p with extentOffset := offset }, .done)

/-- One round of the loop of `handleWritePacket`, which writes block by block. -/
def handleWritePacket (o : NodeOutcome) (n : Nat) (s : TinyExtents) (p : Packet) :
    TinyExtents × Packet × List Packet × Bool :=
  let written := n * blockSize
  let currSize := min (p.size.toNat - written) blockSize
  let result :=
    if n = 0 ∧ o.noSpace = true then .error .noSpace
    else if n = 0 ∧ o.diskBroken = true then .error .other
    else if isTinyExtent p.extentID then
      s.writeTiny p.extentID (p.extentOffset + written) currSize o.failure
    else
      match o.failure with
      | some msg => .error msg
      | none => .ok s
  match result with
  | .error msg => (s, p.packErrorBody .write msg, [], true)
  | .ok s =>
    if p.size.toNat ≤ written + currSize then (s, p.packetOkReply, [], true) else (s, p, [], false)

/-- `OperatePacket`. What a read answers it writes to the client by itself. -/
def operatePacket (o : NodeOutcome) (n : Nat) (s : TinyExtents) (p : Packet) :
    TinyExtents × Packet × List Packet × Bool :=
  if p.isWriteOperation && p.object == .partition then handleWritePacket o n s p
  else if p.isReadExtentOperation then
    (s, { p with
      resultCode := o.resultCode, extentOffset := o.extentOffset, size := o.size, crc := o.crc
      }, o.streamed, true)
  else (s, { p with resultCode := o.resultCode, size := o.size }, [], true)

def releaseExtent (s : TinyExtents) (p : Packet) : Option (TinyExtents × Packet) :=
  if !isTinyExtent p.extentID || p.isReleased then some (s, p)
  else if !p.isTinyExtentType || !p.isLeaderPacket || !p.isWriteOperation then some (s, p)
  else
    match p.object with
    | .none => some (s, p)
    | .otherPartition => some (s, { p with isReleased := true })
    | .partition =>
      (if p.isErrPacket then s.sendToBroken p.extentID else s.sendToAvailable p.extentID).map
        fun s => (s, { p with isReleased := true })

def setNeedReply (p : Packet) : Packet := { p with
  needReply := if p.isReadExtentOperation then false else p.isMasterCommand || p.needReply }

def post (s : TinyExtents) (p : Packet) : Option (TinyExtents × Packet) :=
  if p.isMasterCommand || !p.isLeaderPacket then some (s, setNeedReply p)
  else releaseExtent s (setNeedReply p)

def funcs : ReplFuncs TinyExtents NodeOutcome where
  prepareFunc := fun o n s p => some (node.prepare o n s p)
  operatorFunc := fun o n s p => some (operatePacket o n s p)
  postFunc := post

abbrev Event := ServerEvent NodeOutcome TinyExtents.RepairEvent

def step (s : Server TinyExtents) (e : Event) : Option (Server TinyExtents) :=
  s.step node.funcs TinyExtents.repairStep e

end DataNode
end ChubaoFS
