import ChubaoFS.Base.Bytes

namespace ChubaoFS

/-! The packets that data nodes exchange with clients and with each other. -/

def opInitResultCode : UInt8 := 0x00

def opCreateExtent : UInt8 := 0x01

def opMarkDelete : UInt8 := 0x02

def opWrite : UInt8 := 0x03

def opRead : UInt8 := 0x04

def opStreamRead : UInt8 := 0x05

def opExtentRepairRead : UInt8 := 0x09

def opSyncWrite : UInt8 := 0x13

def opReadTinyDelete : UInt8 := 0x14

def opCreateDataPartition : UInt8 := 0x60

def opDeleteDataPartition : UInt8 := 0x61

def opLoadDataPartition : UInt8 := 0x62

def opDataNodeHeartbeat : UInt8 := 0x63

def opDecommissionDataPartition : UInt8 := 0x66

def opOk : UInt8 := 0xF0

def opIntraGroupNetErr : UInt8 := 0xF3

def opArgMismatchErr : UInt8 := 0xF4

def opNotExistErr : UInt8 := 0xF5

def opDiskNoSpaceErr : UInt8 := 0xF6

def opAgain : UInt8 := 0xF9

def opTryOtherAddr : UInt8 := 0xFC

def tinyExtentType : UInt8 := 0

def normalExtentType : UInt8 := 1

/-- The byte of `AddrSplit`. -/
def addrSplit : UInt8 := 47

inductive PacketAction
  | sendToFollowers
  | receiveFromFollower
  | preparePkt
  | createExtent
  | markDelete
  | write
  | other

/-- The first of the texts that `identificationErrorResultCode` looks for that stands in the message
of an error. -/
inductive ErrText
  | parameterMismatch
  | unknownOp
  | dataPartitionNotExists
  | extentNotFound
  | extentHasBeenDeleted
  | noSpace
  | tryAgain
  | notLeader
  | other
  deriving DecidableEq

def identificationErrorResultCode (action : PacketAction) (msg : ErrText) : UInt8 :=
  match action, msg with
  | .receiveFromFollower, _ => opIntraGroupNetErr
  | .sendToFollowers, _ => opIntraGroupNetErr
  | _, .parameterMismatch => opArgMismatchErr
  | _, .unknownOp => opArgMismatchErr
  | _, .dataPartitionNotExists => opTryOtherAddr
  | _, .extentNotFound => opNotExistErr
  | _, .extentHasBeenDeleted => opNotExistErr
  | _, .noSpace => opDiskNoSpaceErr
  | _, .tryAgain => opAgain
  | _, .notLeader => opTryOtherAddr
  | _, .other => opIntraGroupNetErr

/-- What `p.Object` points to: nothing, the partition that is looked at or another one of the
node. -/
inductive PacketObject
  | none
  | partition
  | otherPartition
  deriving DecidableEq

structure Packet where
  opcode : UInt8
  extentType : UInt8
  resultCode : UInt8
  remainingFollowers : UInt8
  crc : UInt32
  size : UInt32
  argLen : UInt32
  partitionID : UInt64
  extentID : UInt64
  extentOffset : Int
  reqID : UInt64
  arg : Bytes
  data : Bytes
  followersAddrs : List Bytes
  -- whether `followerConns[i]` is set
  followerConns : List Bool
  isReleased : Bool
  object : PacketObject
  needReply : Bool

namespace Packet

/-- A packet as `ReadFromConnFromCli` fills it in from what stands on the connection. -/
def readFromConnFromCli (wire : Packet) : Packet := { wire with
  followersAddrs := [], followerConns := [], isReleased := false, object := .none,
  needReply := true }

def isErrPacket (p : Packet) : Bool := p.resultCode != opOk

def isForwardPacket (p : Packet) : Bool := decide (0 < p.remainingFollowers)

def isMasterCommand (p : Packet) : Bool :=
  p.opcode == opDataNodeHeartbeat || p.opcode == opLoadDataPartition ||
    p.opcode == opCreateDataPartition || p.opcode == opDeleteDataPartition ||
    p.opcode == opDecommissionDataPartition

def isWriteOperation (p : Packet) : Bool := p.opcode == opWrite || p.opcode == opSyncWrite

def isCreateExtentOperation (p : Packet) : Bool := p.opcode == opCreateExtent

def isMarkDeleteExtentOperation (p : Packet) : Bool := p.opcode == opMarkDelete

def isTinyExtentType (p : Packet) : Bool := p.extentType == tinyExtentType

def isReadExtentOperation (p : Packet) : Bool :=
  p.opcode == opStreamRead || p.opcode == opExtentRepairRead || p.opcode == opRead ||
    p.opcode == opReadTinyDelete

def isLeaderPacket (p : Packet) : Bool :=
  p.isForwardPacket &&
    (p.isWriteOperation || p.isCreateExtentOperation || p.isMarkDeleteExtentOperation)

def packErrorBody (p : Packet) (action : PacketAction) (msg : ErrText) : Packet :=
  { p with resultCode := identificationErrorResultCode action msg }

def packetOkReply (p : Packet) : Packet :=
  { p with resultCode := opOk, size := 0, data := [], argLen := 0 }

def clean (p : Packet) : Packet := { p with
  followerConns := List.replicate p.followerConns.length false, object := .none, data := [],
  arg := [] }

def resolveFollowersAddr (p : Packet) : Packet × Bool :=
  if p.arg.length < p.argLen.toNat then (p.packErrorBody .preparePkt .other, false)
  else
    let followerAddrs := (p.arg.take p.argLen.toNat).splitOn addrSplit
    let followerNum := UInt8.ofNat (followerAddrs.length - 1)
    let p := { p with
      followersAddrs := followerAddrs.take followerNum.toNat
      followerConns := List.replicate followerNum.toNat false }
    -- the field has no sign, so that the test never fires
    if p.remainingFollowers < 0 then (p.packErrorBody .preparePkt .other, false) else (p, true)

/-- What became of the packet's way to one follower: no connection, a broken one, or the packet was
written. -/
inductive Sending
  | noConn
  | broken
  | sent

def sendRequestFrom (sends : Nat → Sending) (index : Nat) : Nat → Packet → Packet × Bool
  | 0, p => (p, true)
  | left + 1, p =>
    match sends index with
    | .noConn => (p.packErrorBody .sendToFollowers .other, false)
    | .broken =>
      ({ p with followerConns := p.followerConns.set index true, remainingFollowers := 0
        }.packErrorBody .sendToFollowers .other, false)
    | .sent => sendRequestFrom sends (index + 1) left
        { p with followerConns := p.followerConns.set index true, remainingFollowers := 0 }

def sendRequestToAllFollowers (p : Packet) (sends : Nat → Sending) : Packet × Bool :=
  sendRequestFrom sends 0 p.followersAddrs.length p

def answers (reply request : Packet) : Bool :=
  reply.reqID == request.reqID && reply.partitionID == request.partitionID &&
    reply.extentOffset == request.extentOffset && reply.crc == request.crc &&
    reply.extentID == request.extentID

/-- `reply` is what is read from the connection of the follower, if anything. -/
def checkLocalResultAndReceiveFromFollower (request : Packet) (index : Nat)
    (reply : Option Packet) : Bool :=
  if request.followerConns[index]? ≠ some true then false
  else if request.isErrPacket then false
  else
    match reply with
    | none => false
    | some reply => reply.answers request && !reply.isErrPacket

end Packet
end ChubaoFS
