import ChubaoFS.ExtentHandler

namespace ChubaoFS

/-! An extent handler and the handlers that recover its packets, one for the other. A sender and a
receiver run beside each other for each of them, and packets pass through both. -/

structure Payload where
  reqID : Nat
  kernelOffset : Nat
  data : Bytes
  deriving DecidableEq

structure ChainPacket where
  payload : Payload
  errCount : Nat
  partitionID : UInt64
  extentID : UInt64
  extentOffset : Nat
  crc : UInt32
  deriving DecidableEq

structure WriteReply where
  reqID : Nat
  ok : Bool
  partitionID : UInt64
  extentID : UInt64
  extentOffset : Nat
  crc : UInt32
  deriving DecidableEq

structure WriteAck where
  payload : Payload
  partitionID : UInt64
  extentID : UInt64
  extentOffset : Nat
  deriving DecidableEq

inductive StatusSwap
  | setClosed
  | setRecovery
  | setError
  deriving DecidableEq

def StatusSwap.run : StatusSwap → ExtentStatus → ExtentStatus
  | setClosed, .opened => .closed
  | setRecovery, .closed => .recovery
  | setError, .recovery => .error
  | _, status => status

/-- `ExtentStatusRecovery` or beyond. -/
def ExtentStatus.inRecovery : ExtentStatus → Bool
  | recovery => true
  | error => true
  | _ => false

inductive SenderState
  | idle
  | took (packet : ChainPacket)
  | allocating (packet : ChainPacket)
  | placed (packet : ChainPacket)
  | swapping (packet : ChainPacket) (swaps : List StatusSwap)
  | handing (packet : ChainPacket)
  | stopped
  deriving DecidableEq

inductive ReceiverState
  | idle
  | took (packet : ChainPacket)
  | reading (packet : ChainPacket)
  | swapping (packet : ChainPacket) (swaps : List StatusSwap)
  | recovering (packet : ChainPacket)
  | entering
  | discarding (packet : ChainPacket)
  | stopped
  deriving DecidableEq

def SenderState.packets : SenderState → List ChainPacket
  | idle => []
  | stopped => []
  | took packet => [packet]
  | allocating packet => [packet]
  | placed packet => [packet]
  | swapping packet _ => [packet]
  | handing packet => [packet]

def ReceiverState.packets : ReceiverState → List ChainPacket
  | idle => []
  | stopped => []
  | entering => []
  | took packet => [packet]
  | reading packet => [packet]
  | swapping packet _ => [packet]
  | recovering packet => [packet]
  | discarding packet => [packet]

/-- How `processReply` begins. -/
def ReceiverState.judge (packet : ChainPacket) : ExtentStatus → ReceiverState
  | .error => discarding packet
  | .recovery => recovering packet
  | _ => reading packet

/-- `place` is the data partition and the extent. `sent` and `replies` went over its connection;
`counted` and `discarded` are the packets that the receiver put in the key or gave up. -/
structure ChainHandler where
  fileOffset : Nat
  storeMode : StoreMode
  status : ExtentStatus
  place : Option (UInt64 × UInt64)
  request : List ChainPacket
  reply : List ChainPacket
  sender : SenderState
  receiver : ReceiverState
  key : Option ExtentKey
  dirty : Bool
  sent : List ChainPacket
  replies : List WriteReply
  counted : List Payload
  discarded : List Payload
  deriving DecidableEq

def maxPacketErrorCount : Nat := 32

namespace ChainHandler

def new (fileOffset : Nat) (storeMode : StoreMode) : ChainHandler where
  fileOffset := fileOffset
  storeMode := storeMode
  status := .opened
  place := none
  request := []
  reply := []
  sender := .idle
  receiver := .idle
  key := none
  dirty := false
  sent := []
  replies := []
  counted := []
  discarded := []

/-- One step of the sender. `place` is what `allocateExtent` comes back with, and `sends` tells
whether `writeToConn` succeeds; what it has written when it fails may still get there. -/
def stepSender (crc32 : Bytes → UInt32) (eh : ChainHandler) (place : Option (UInt64 × UInt64))
    (sends : Bool) : Option ChainHandler :=
  match eh.sender with
  | .stopped => none
  | .idle =>
    match eh.request with
    | [] => none
    | packet :: request => some { eh with request := request, sender := .took packet }
  | .took packet =>
    if eh.status.inRecovery then some { eh with sender := .handing packet }
    else if eh.place = none then some { eh with sender := .allocating packet }
    else some { eh with sender := .placed packet }
  | .allocating packet =>
    match place with
    | none => some { eh with sender := .swapping packet [.setClosed, .setRecovery, .setError] }
    | some (partitionID, extID) => some { eh with
        place := some (partitionID, if eh.storeMode = .normal then extID else 0)
        sender := .placed packet }
  | .placed packet =>
    match eh.place with
    | none => none
    | some (partitionID, extID) =>
      let packet := { packet with
        partitionID := partitionID
        extentID := extID
        extentOffset := packet.payload.kernelOffset - eh.fileOffset
        crc := crc32 packet.payload.data }
      some { eh with
        sent := eh.sent ++ [packet]
        sender := if sends then .handing packet
          else .swapping packet [.setClosed, .setRecovery] }
  | .swapping packet [] => some { eh with sender := .handing packet }
  | .swapping packet (swap :: swaps) => some { eh with
      status := swap.run eh.status
      sender := .swapping packet swaps }
  | .handing packet => some { eh with reply := eh.reply ++ [packet], sender := .idle }

def accepts (packet : ChainPacket) (reply : WriteReply) : Bool :=
  reply.ok && (packet.payload.reqID == reply.reqID && packet.partitionID == reply.partitionID) &&
    reply.crc == packet.crc

/-- The end of `processReply`, for a packet that was written. -/
def count (eh : ChainHandler) (packet : ChainPacket) (reply : WriteReply) : ChainHandler :=
  let extID := if eh.storeMode = .tiny then reply.extentID else packet.extentID
  let extOffset := if eh.storeMode = .tiny then reply.extentOffset
    else packet.payload.kernelOffset - eh.fileOffset
  let size := UInt32.ofNat packet.payload.data.length
  { eh with
    key := some (match eh.key with
      | none => {
          fileOffset := UInt64.ofNat eh.fileOffset
          partitionId := packet.partitionID
          extentId := extID
          extentOffset := UInt64.ofNat extOffset
          size := size
          crc := 0 }
      | some key => { key with size := key.size + size })
    dirty := true
    counted := eh.counted ++ [packet.payload]
    receiver := .idle }

/-- `recoverPacket`: the packet is pushed to the handler behind, which is made for the first. -/
def recoverPacket (eh : ChainHandler) (behind : List ChainHandler) (packet : ChainPacket) :
    List ChainHandler :=
  let packet := { packet with errCount := packet.errCount + 1 }
  if maxPacketErrorCount ≤ packet.errCount then { eh with receiver := .discarding packet } :: behind
  else match behind with
    | next :: rest =>
      { eh with receiver := .idle } :: { next with request := next.request ++ [packet] } :: rest
    | [] => [{ eh with receiver := .entering },
        { new packet.payload.kernelOffset .normal with status := .closed, request := [packet] }]

/-- One step of the receiver, for a handler and those behind it. `read` is the reply that comes from
the connection; without one the read fails. -/
def stepReceiver (eh : ChainHandler) (behind : List ChainHandler) (read : Option Nat) :
    Option (List ChainHandler) :=
  match eh.receiver with
  | .stopped => none
  | .idle =>
    match eh.reply with
    | [] => none
    | packet :: reply => some ({ eh with reply := reply, receiver := .took packet } :: behind)
  | .took packet => some ({ eh with receiver := .judge packet eh.status } :: behind)
  | .reading packet =>
    match read.bind (eh.replies[·]?) with
    | none => some ({ eh with
        receiver := .swapping packet [.setClosed, .setRecovery] } :: behind)
    | some reply =>
      if accepts packet reply then some (eh.count packet reply :: behind)
      else some ({ eh with receiver := .swapping packet [.setClosed, .setRecovery] } :: behind)
  | .swapping packet [] => some ({ eh with receiver := .recovering packet } :: behind)
  | .swapping packet (swap :: swaps) => some ({ eh with
      status := swap.run eh.status
      receiver := .swapping packet swaps } :: behind)
  | .recovering packet => some (eh.recoverPacket behind packet)
  | .entering => some ({ eh with receiver := .idle } :: behind)
  | .discarding packet => some ({ eh with
      status := StatusSwap.setError.run eh.status
      discarded := eh.discarded ++ [packet.payload]
      receiver := .idle } :: behind)

def answer (eh : ChainHandler) (packet : ChainPacket) (ok : Bool) (extentID : UInt64)
    (extentOffset : Nat) (crc : UInt32) : WriteReply where
  reqID := packet.payload.reqID
  ok := ok
  partitionID := packet.partitionID
  extentID := if eh.storeMode = .tiny then extentID else packet.extentID
  extentOffset := if eh.storeMode = .tiny then extentOffset else packet.extentOffset
  crc := crc

end ChainHandler

def changeAt (f : ChainHandler → List ChainHandler → Option (List ChainHandler)) :
    Nat → List ChainHandler → Option (List ChainHandler)
  | _, [] => none
  | 0, eh :: behind => f eh behind
  | depth + 1, eh :: behind => (changeAt f depth behind).map (eh :: ·)

/-- `pushed` are the packets that were put in the first handler, and `acks` what data nodes have
acknowledged. -/
structure RecoveryChain where
  handlers : List ChainHandler
  pushed : List Payload
  acks : List WriteAck
  deriving DecidableEq

inductive ChainEvent
  | push (payload : Payload)
  | close (depth : Nat)
  | sender (depth : Nat) (place : Option (UInt64 × UInt64)) (sends : Bool)
  | receiver (depth : Nat) (read : Option Nat)
  | answer (depth index : Nat) (ok : Bool) (extentID : UInt64) (extentOffset : Nat) (crc : UInt32)
  | append (depth : Nat)
  | stopSender (depth : Nat)
  | stopReceiver (depth : Nat)
  deriving DecidableEq

def Payload.size (ps : List Payload) : Nat := (ps.map fun p => p.data.length).sum

namespace RecoveryChain

/-- A chain of one handler, which is to hold a file from `offset` on. -/
def new (offset : Nat) (mode : StoreMode) : RecoveryChain := ⟨[.new offset mode], [], []⟩

def push (c : RecoveryChain) (p : Payload) : Option RecoveryChain :=
  match c.handlers with
  | [] => none
  | eh :: behind =>
    if p.data ≠ [] ∧ p.kernelOffset = eh.fileOffset + Payload.size c.pushed ∧
        Payload.size c.pushed + p.data.length ≤ extentSize ∧
        p.reqID ∉ c.pushed.map Payload.reqID then
      some { c with
        handlers := { eh with request := eh.request ++ [⟨p, 0, 0, 0, 0, 0⟩] } :: behind
        pushed := c.pushed ++ [p] }
    else none

def change (c : RecoveryChain) (depth : Nat)
    (f : ChainHandler → List ChainHandler → Option (List ChainHandler)) : Option RecoveryChain :=
  (changeAt f depth c.handlers).map fun handlers => { c with handlers := handlers }

def answer (c : RecoveryChain) (depth index : Nat) (ok : Bool) (extentID : UInt64)
    (extentOffset : Nat) (crc : UInt32) : Option RecoveryChain :=
  match c.handlers[depth]? with
  | none => none
  | some eh =>
    match eh.sent[index]? with
    | none => none
    | some packet =>
      let reply := eh.answer packet ok extentID extentOffset crc
      let ack : WriteAck :=
        ⟨packet.payload, reply.partitionID, reply.extentID, reply.extentOffset⟩
      { c with acks := if ok then c.acks ++ [ack] else c.acks }.change depth fun eh behind =>
          some ({ eh with replies := eh.replies ++ [reply] } :: behind)

def step (crc32 : Bytes → UInt32) (c : RecoveryChain) : ChainEvent → Option RecoveryChain
  | .push p => c.push p
  | .close depth => c.change depth fun eh behind =>
      some ({ eh with status := StatusSwap.setClosed.run eh.status } :: behind)
  | .sender depth place sends => c.change depth fun eh behind =>
      (eh.stepSender crc32 place sends).map (· :: behind)
  | .receiver depth read => c.change depth fun eh behind => eh.stepReceiver behind read
  | .answer depth index ok extentID extentOffset crc =>
    c.answer depth index ok extentID extentOffset crc
  | .append depth => c.change depth fun eh behind => some ({ eh with dirty := false } :: behind)
  | .stopSender depth => c.change depth fun eh behind =>
      if eh.sender = .idle then
        some ({ eh with
          sender := .stopped, status := StatusSwap.setClosed.run eh.status } :: behind)
      else none
  | .stopReceiver depth => c.change depth fun eh behind =>
      if eh.receiver = .idle then some ({ eh with receiver := .stopped } :: behind) else none

end RecoveryChain
end ChubaoFS
