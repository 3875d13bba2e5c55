import ChubaoFS.ReplPacket
import ChubaoFS.Base.Run

namespace ChubaoFS

/-! The four goroutines that serve one client connection of a data node, as steps over the packets
that they hand to each other, and a node that serves many connections. -/

def requestChanSize : Nat := 10240

inductive Progress
  | goesOn
  | done
  | failed

/-- The functions that a `ReplProtocol` is made with, over what the connections of the node share.
Each runs in slices, between which other goroutines may run; a slice gets the number of slices
before it and what the outside does to it. A slice of `operatorFunc` also yields the replies that it
writes to the client by itself and whether it was the last one. A slice that has to wait is
`none`. -/
structure ReplFuncs (σ ω : Type) where
  prepareFunc : ω → Nat → σ → Packet → Option (σ × Packet × Progress)
  operatorFunc : ω → Nat → σ → Packet → Option (σ × Packet × List Packet × Bool)
  postFunc : σ → Packet → Option (σ × Packet)

inductive Stage
  | unread
  | reading
  | queued
  | operating
  | operated
  | answered
  | closed
  deriving DecidableEq

/-- A packet with what happened to it. Nothing reads the other fields than `packet`. -/
structure ReplRequest where
  wire : Packet
  packet : Packet
  stage : Stage
  -- whether `operatorFunc` finished without an error, once it has
  localResult : Option Bool
  -- the replies of followers that were read for the packet and passed the checks
  replies : List (Bytes × Packet)

inductive ReaderPhase
  | idle
  | preparing (i n : Nat)
  | exited

inductive OperatorPhase
  | idle
  | operating (i n : Nat) (forward : Bool)
  | exited

inductive ReceiverPhase
  | idle
  | receiving (i index : Nat)
  | exited

inductive WriterPhase
  | idle
  | exited

structure ReplProtocol where
  heap : Nat → ReplRequest
  next : Nat
  packetList : List Nat
  ackCh : Nat
  toBeProcessedCh : List Nat
  responseCh : List Nat
  -- whether `exitC` is closed
  exitC : Bool
  reader : ReaderPhase
  operator : OperatorPhase
  receiver : ReceiverPhase
  writer : WriterPhase
  -- what the client was sent, with the request that it was sent for
  sent : List (Nat × Packet)

inductive ReplEvent (ω : Type)
  | read (wire : Packet)
  | prepare (outcome : ω)
  | readerExit
  | forward (sends : Nat → Packet.Sending)
  | operate (outcome : ω)
  | operatorExit
  | ack
  | reply (reply : Option Packet)
  | replied
  | receiverExit
  | write (ok : Bool)
  | writerExit
  | clean

namespace ReplProtocol

def emptyPacket : Packet :=
  ⟨0, 0, 0, 0, 0, 0, 0, 0, 0, 0, 0, [], [], [], [], false, .none, true⟩

def newReplProtocol : ReplProtocol where
  heap := fun _ => ⟨emptyPacket, emptyPacket, .unread, none, []⟩
  next := 0
  packetList := []
  ackCh := 0
  toBeProcessedCh := []
  responseCh := []
  exitC := false
  reader := .idle
  operator := .idle
  receiver := .idle
  writer := .idle
  sent := []

def setRequest (rp : ReplProtocol) (i : Nat) (r : ReplRequest) : ReplProtocol :=
  { rp with heap := Function.update rp.heap i r }

def hasRoom (ch : List Nat) : Bool := decide (ch.length < requestChanSize)

def putResponse (rp : ReplProtocol) (i : Nat) (r : ReplRequest) : ReplProtocol :=
  { rp.setRequest i { r with stage := .answered } with
    responseCh := if hasRoom rp.responseCh then rp.responseCh ++ [i] else rp.responseCh }

def readerPut (rp : ReplProtocol) (room : Bool) : ReplProtocol :=
  { rp with reader := if room then .idle else .exited, exitC := rp.exitC || !room }

/-- First half of `readPkgAndPrepare`. -/
def readPkg (rp : ReplProtocol) (wire : Packet) : Option ReplProtocol :=
  match rp.reader with
  | .idle =>
    let resolved := wire.readFromConnFromCli.resolveFollowersAddr
    let rp' := { rp with next := rp.next + 1 }
    let r : ReplRequest := ⟨wire, resolved.1, .reading, none, []⟩
    if resolved.2 then some { rp'.setRequest rp.next r with reader := .preparing rp.next 0 }
    else some ((rp'.putResponse rp.next r).readerPut (hasRoom rp.responseCh))
  | _ => none

/-- A slice of `prepareFunc`, after whose last one the packet goes on to the operator or back to the
client. -/
def prepare {σ ω : Type} (f : ReplFuncs σ ω) (s : σ) (rp : ReplProtocol) (o : ω) :
    Option (σ × ReplProtocol) :=
  match rp.reader with
  | .preparing i n =>
    match f.prepareFunc o n s (rp.heap i).packet with
    | none => none
    | some (s', p, progress) =>
      let r := { rp.heap i with packet := p }
      match progress with
      | .goesOn => some (s', { rp.setRequest i r with reader := .preparing i (n + 1) })
      | .failed => some (s', (rp.putResponse i r).readerPut (hasRoom rp.responseCh))
      | .done => some (s', { rp.setRequest i { r with stage := .queued } with
          toBeProcessedCh :=
            if hasRoom rp.toBeProcessedCh then rp.toBeProcessedCh ++ [i] else rp.toBeProcessedCh
          }.readerPut (hasRoom rp.toBeProcessedCh))
  | _ => none

def forward (rp : ReplProtocol) (sends : Nat → Packet.Sending) : Option ReplProtocol :=
  match rp.operator, rp.toBeProcessedCh with
  | .idle, i :: rest =>
    let r := rp.heap i
    let rp := { rp with toBeProcessedCh := rest }
    if r.packet.isForwardPacket then
      let res := r.packet.sendRequestToAllFollowers sends
      let r := { r with packet := { res.1 with remainingFollowers := r.packet.remainingFollowers } }
      if res.2 then
        some { rp.setRequest i { r with stage := .operating } with
          operator := .operating i 0 true, packetList := rp.packetList ++ [i] }
      else some (rp.putResponse i r)
    else some { rp.setRequest i { r with stage := .operating } with
      operator := .operating i 0 false }
  | _, _ => none

/-- A slice of `operatorFunc`, after whose last one the packet waits for the followers or goes to
the client. -/
def operate {σ ω : Type} (f : ReplFuncs σ ω) (s : σ) (rp : ReplProtocol) (o : ω) :
    Option (σ × ReplProtocol) :=
  match rp.operator with
  | .operating i n forward =>
    match f.operatorFunc o n s (rp.heap i).packet with
    | none => none
    | some (s', p, streamed, finished) =>
      let r := { rp.heap i with packet := p }
      let rp := { rp with sent := rp.sent ++ streamed.map fun reply => (i, reply) }
      if finished then
        let r := { r with localResult := some !p.isErrPacket }
        if forward then
          some (s', { rp.setRequest i { r with stage := .operated } with
            operator := .idle
            ackCh := if rp.ackCh < requestChanSize then rp.ackCh + 1 else rp.ackCh })
        else some (s', { rp.putResponse i r with operator := .idle })
      else some (s', { rp.setRequest i r with operator := .operating i (n + 1) forward })
  | _ => none

def ack (rp : ReplProtocol) : Option ReplProtocol :=
  match rp.receiver with
  | .idle =>
    if 0 < rp.ackCh then
      match rp.packetList with
      | [] => some { rp with ackCh := rp.ackCh - 1 }
      | i :: _ => some { rp with ackCh := rp.ackCh - 1, receiver := .receiving i 0 }
    else none
  | _ => none

def deletePacket (rp : ReplProtocol) (i : Nat) (r : ReplRequest) : ReplProtocol :=
  { rp.putResponse i r with packetList := rp.packetList.erase i, receiver := .idle }

/-- One round of the loop of `reciveAllFollowerResponse`. -/
def receive (rp : ReplProtocol) (reply : Option Packet) : Option ReplProtocol :=
  match rp.receiver with
  | .receiving i index =>
    let r := rp.heap i
    match r.packet.followersAddrs[index]? with
    | none => none
    | some addr =>
      match r.packet.checkLocalResultAndReceiveFromFollower index reply, reply with
      | true, some reply =>
        some { rp.setRequest i { r with replies := r.replies ++ [(addr, reply)] } with
          receiver := .receiving i (index + 1) }
      | _, _ =>
        some (rp.deletePacket i
        { r with packet := r.packet.packErrorBody .receiveFromFollower .other })
  | _ => none

def replied (rp : ReplProtocol) : Option ReplProtocol :=
  match rp.receiver with
  | .receiving i index =>
    let r := rp.heap i
    if index < r.packet.followersAddrs.length then none
    else some (rp.deletePacket i { r with packet := r.packet.packetOkReply })
  | _ => none

/-- `postFunc` and `clean`, for a packet that leaves the protocol. -/
def close {σ ω : Type} (f : ReplFuncs σ ω) (s : σ) (rp : ReplProtocol) (i : Nat) :
    Option (σ × Packet × ReplProtocol) :=
  match f.postFunc s (rp.heap i).packet with
  | none => none
  | some (s', p) =>
    some (s', p, rp.setRequest i { rp.heap i with packet := p.clean, stage := .closed })

def writeResponse {σ ω : Type} (f : ReplFuncs σ ω) (s : σ) (rp : ReplProtocol) (ok : Bool) :
    Option (σ × ReplProtocol) :=
  match rp.writer, rp.responseCh with
  | .idle, i :: rest =>
    match close f s { rp with responseCh := rest } i with
    | none => none
    | some (s', p, rp') =>
      if p.needReply then
        some (s', { rp' with
          sent := rp'.sent ++ [(i, p)], exitC := rp'.exitC || p.isErrPacket || !ok })
      else some (s', { rp' with exitC := rp'.exitC || p.isErrPacket })
  | _, _ => none

/-- The packet that `cleanResource` turns to next, once the goroutines are gone. -/
def nextToClean (rp : ReplProtocol) : Option (Nat × ReplProtocol) :=
  match rp.reader, rp.operator, rp.receiver, rp.writer with
  | .exited, .exited, .exited, .exited =>
    match rp.packetList, rp.toBeProcessedCh, rp.responseCh with
    | i :: rest, _, _ => some (i, { rp with packetList := rest })
    | [], i :: rest, _ => some (i, { rp with toBeProcessedCh := rest })
    | [], [], i :: rest => some (i, { rp with responseCh := rest })
    | [], [], [] => none
  | _, _, _, _ => none

def cleanResource {σ ω : Type} (f : ReplFuncs σ ω) (s : σ) (rp : ReplProtocol) :
    Option (σ × ReplProtocol) :=
  match rp.nextToClean with
  | none => none
  | some (i, rp) => (close f s rp i).map fun (s', _, rp') => (s', rp')

def step {σ ω : Type} (f : ReplFuncs σ ω) (s : σ) (rp : ReplProtocol) :
    ReplEvent ω → Option (σ × ReplProtocol)
  | .read wire => (rp.readPkg wire).map (s, ·)
  | .prepare o => rp.prepare f s o
  | .readerExit =>
    match rp.reader with
    | .idle => some (s, { rp with reader := .exited, exitC := true })
    | _ => none
  | .forward sends => (rp.forward sends).map (s, ·)
  | .operate o => rp.operate f s o
  | .operatorExit =>
    match rp.operator, rp.exitC with
    | .idle, true => some (s, { rp with operator := .exited })
    | _, _ => none
  | .ack => rp.ack.map (s, ·)
  | .reply reply => (rp.receive reply).map (s, ·)
  | .replied => rp.replied.map (s, ·)
  | .receiverExit =>
    match rp.receiver, rp.exitC with
    | .idle, true => some (s, { rp with receiver := .exited })
    | _, _ => none
  | .write ok => rp.writeResponse f s ok
  | .writerExit =>
    match rp.writer, rp.exitC with
    | .idle, true => some (s, { rp with writer := .exited })
    | _, _ => none
  | .clean => rp.cleanResource f s

end ReplProtocol

structure Server (σ : Type) where
  shared : σ
  conns : Nat → ReplProtocol

inductive ServerEvent (ω ε : Type)
  | conn (c : Nat) (e : ReplEvent ω)
  | other (e : ε)

namespace Server

def new {σ : Type} (s : σ) : Server σ := ⟨s, fun _ => .newReplProtocol⟩

/-- `other` is what the node does beside serving connections. -/
def step {σ ω ε : Type} (f : ReplFuncs σ ω) (other : σ → ε → Option σ) (s : Server σ) :
    ServerEvent ω ε → Option (Server σ)
  | .conn c e => ((s.conns c).step f s.shared e).map fun (shared, rp) =>
      ⟨shared, Function.update s.conns c rp⟩
  | .other e => (other s.shared e).map fun shared => { s with shared := shared }

end Server
end ChubaoFS
