import ChubaoFS.TinyExtents

namespace ChubaoFS

open List Bytes

/-! Packets on a connection: the header of fixed length, the argument and the body. -/

def protoMagic : UInt8 := 0xFF

def packetHeaderSize : Nat := 57

structure PacketHeader where
  magic : UInt8
  extentType : UInt8
  opcode : UInt8
  resultCode : UInt8
  remainingFollowers : UInt8
  crc : UInt32
  size : UInt32
  argLen : UInt32
  partitionID : UInt64
  extentID : UInt64
  extentOffset : Int64
  reqID : Int64
  kernelOffset : UInt64
  deriving DecidableEq

/-- A packet with its slices; `data` may be nil. -/
structure WirePacket where
  header : PacketHeader
  arg : Bytes
  data : Option Bytes
  deriving DecidableEq

inductive FrameErr
  | read (err : ReadErr)
  | badMagic (magic : UInt8)
  deriving DecidableEq

def marshalHeader (h : PacketHeader) : Bytes :=
  [h.magic, h.extentType, h.opcode, h.resultCode, h.remainingFollowers] ++
    (putUInt32 h.crc ++ (putUInt32 h.size ++ (putUInt32 h.argLen ++ (putUInt64 h.partitionID ++
      (putUInt64 h.extentID ++ (putInt64 h.extentOffset ++ (putInt64 h.reqID ++
        putUInt64 h.kernelOffset)))))))

def bytesBetween (b : Bytes) (i j : Nat) : Bytes := (b.drop i).take (j - i)

def unmarshalHeader (b : Bytes) : Except FrameErr PacketHeader :=
  if b.getD 0 0 ≠ protoMagic then .error (.badMagic (b.getD 0 0))
  else .ok {
    magic := b.getD 0 0
    extentType := b.getD 1 0
    opcode := b.getD 2 0
    resultCode := b.getD 3 0
    remainingFollowers := b.getD 4 0
    crc := toUInt32 (bytesBetween b 5 9)
    size := toUInt32 (bytesBetween b 9 13)
    argLen := toUInt32 (bytesBetween b 13 17)
    partitionID := toUInt64 (bytesBetween b 17 25)
    extentID := toUInt64 (bytesBetween b 25 33)
    extentOffset := (toUInt64 (bytesBetween b 33 41)).toInt64
    reqID := (toUInt64 (bytesBetween b 41 49)).toInt64
    kernelOffset := toUInt64 (bytesBetween b 49 packetHeaderSize) }

def writeToConn (p : WirePacket) : Bytes :=
  marshalHeader p.header ++ (p.arg.take p.header.argLen.toNat ++
    match p.data with
    | none => []
    | some data => if p.header.size ≠ 0 then data.take p.header.size.toNat else [])

def PacketHeader.isReadRequest (h : PacketHeader) : Bool :=
  (h.opcode == opRead || h.opcode == opStreamRead || h.opcode == opExtentRepairRead) &&
    h.resultCode == opInitResultCode

def PacketHeader.bodySize (h : PacketHeader) : Nat := if h.isReadRequest then 0 else h.size.toNat

def readBytes (n : Nat) (b : Bytes) : Except FrameErr (Bytes × Bytes) :=
  (readFull n b).mapError .read

def readArg (h : PacketHeader) (b : Bytes) : Except FrameErr (Bytes × Bytes) :=
  if 0 < h.argLen then readBytes h.argLen.toNat b else .ok ([], b)

def readFrame (b : Bytes) : Except FrameErr ((PacketHeader × Bytes × Bytes) × Bytes) := do
  let (header, b) ← readBytes packetHeaderSize b
  let h ← unmarshalHeader header
  let (arg, b) ← readArg h b
  let (body, b) ← readBytes h.bodySize b
  return ((h, arg, body), b)

/-- `proto.Packet.ReadFromConn`. -/
def readFromConn (b : Bytes) : Except FrameErr (WirePacket × Bytes) := do
  let ((h, arg, body), b) ← readFrame b
  return (⟨h, arg, some body⟩, b)

/-- `repl.Packet.ReadFromConnFromCli` takes the buffer for a whole block from a pool. -/
def readFromConnFromCli (pooled : Bytes) (b : Bytes) : Except FrameErr (WirePacket × Bytes) := do
  let ((h, arg, body), b) ← readFrame b
  let data := if h.opcode == opWrite && h.bodySize == blockSize then body ++ pooled.drop h.bodySize
    else body
  return (⟨h, arg, some data⟩, b)

def readPackets (read : Nat → Bytes → Except FrameErr (WirePacket × Bytes)) :
    Nat → Nat → Bytes → Except FrameErr (List WirePacket × Bytes)
  | _, 0, b => .ok ([], b)
  | i, n + 1, b => do
    let (p, b) ← read i b
    let (ps, b) ← readPackets read (i + 1) n b
    return (p :: ps, b)

namespace WirePacket

/-- The first `Size` bytes, and nothing for a request to read. -/
def body (p : WirePacket) : Bytes :=
  if p.header.isReadRequest then [] else (p.data.getD []).take p.header.size.toNat

def WellFormed (p : WirePacket) : Prop :=
  p.header.magic = protoMagic ∧ p.header.argLen.toNat = p.arg.length ∧
    (p.header.isReadRequest = true ∧ p.data = none ∨ p.header.isReadRequest = false ∧
        ((∃ data, p.data = some data ∧ data.length = p.header.size.toNat) ∨ p.header.size = 0))

/-- `q` was read where `p` was written. -/
def Received (p q : WirePacket) : Prop :=
  q.header = p.header ∧ q.arg = p.arg ∧ (q.data.getD []).take q.header.size.toNat = p.body

end WirePacket

theorem length_marshalHeader (h : PacketHeader) : (marshalHeader h).length = packetHeaderSize := by
  simp [marshalHeader, putInt64, packetHeaderSize]

variable {x : Bytes} {h : PacketHeader} {rest : Bytes}

theorem bytesBetween_skip {i j : Nat} (h : x.length ≤ i) :
    bytesBetween (x ++ rest) i j = bytesBetween rest (i - x.length) (j - x.length) := by
  unfold bytesBetween
  rw [drop_append, drop_of_length_le h, nil_append]
  congr 1
  omega

theorem bytesBetween_here {j : Nat} (h : x.length = j) : bytesBetween (x ++ rest) 0 j = x := by
  unfold bytesBetween
  rw [drop_zero, Nat.sub_zero, take_left' h]

theorem unmarshalHeader_marshalHeader (hmagic : h.magic = protoMagic) :
    unmarshalHeader (marshalHeader h) = .ok h := by
  have hfirst : (marshalHeader h).getD 0 0 = protoMagic := hmagic
  have hlast : bytesBetween (putUInt64 h.kernelOffset) 0 8 = putUInt64 h.kernelOffset :=
    take_of_length_le (by simp)
  unfold unmarshalHeader
  rw [if_neg (not_not_intro hfirst)]
  unfold marshalHeader putInt64
  simp (disch := simp) only [bytesBetween_skip, bytesBetween_here, length_cons, length_nil,
    length_putUInt32, length_putUInt64, packetHeaderSize, Nat.reduceAdd, Nat.reduceSub, hlast]
  simp

variable {p : WirePacket}

theorem length_body (hp : p.WellFormed) : p.body.length = p.header.bodySize := by
  unfold WirePacket.body PacketHeader.bodySize
  obtain ⟨hread, -⟩ | ⟨hread, ⟨data, hdata, hlen⟩ | hsize⟩ := hp.2.2
  · rw [hread]
    rfl
  · rw [hread, hdata]
    exact length_take_of_le (Nat.le_of_eq hlen.symm)
  · rw [hread, hsize]
    simp

theorem writeToConn_eq (hp : p.WellFormed) :
    writeToConn p = marshalHeader p.header ++ (p.arg ++ p.body) := by
  obtain ⟨-, harg, hdata⟩ := hp
  unfold writeToConn WirePacket.body
  rw [harg, take_length]
  congr 2
  obtain ⟨hread, hnone⟩ | ⟨hread, ⟨data, hsome, -⟩ | hsize⟩ := hdata
  · rw [hnone, if_pos hread]
  · rw [hsome, hread]
    by_cases hzero : p.header.size = 0
    · rw [hzero]
      rfl
    · exact if_pos hzero
  · rw [hread, hsize]
    cases p.data <;> rfl

theorem readBytes_append {n : Nat} (rest : Bytes) (h : x.length = n) :
    readBytes n (x ++ rest) = .ok (x, rest) := by
  unfold readBytes
  rw [readFull_append rest h]
  rfl

theorem readArg_append {arg : Bytes} (rest : Bytes) (hlen : h.argLen.toNat = arg.length) :
    readArg h (arg ++ rest) = .ok (arg, rest) := by
  unfold readArg
  split
  · exact readBytes_append rest hlen.symm
  rename_i hzero
  have hnil : arg = [] := by
    refine eq_nil_of_length_eq_zero ?_
    rw [← hlen]
    exact Nat.eq_zero_of_not_pos fun hpos => hzero (UInt32.lt_iff_toNat_lt.mpr hpos)
  rw [hnil]
  rfl

section

variable (hp : p.WellFormed)
include hp

theorem readFrame_writeToConn (rest : Bytes) :
    readFrame (writeToConn p ++ rest) = .ok ((p.header, p.arg, p.body), rest) := by
  have hheader := readBytes_append (p.arg ++ (p.body ++ rest)) (length_marshalHeader p.header)
  have hunmarshal := unmarshalHeader_marshalHeader hp.1
  have harg := readArg_append (p.body ++ rest) hp.2.1
  have hbody := readBytes_append rest (length_body hp)
  unfold readFrame
  rw [writeToConn_eq hp, append_assoc, append_assoc]
  simp only [hheader, hunmarshal, harg, hbody, bind, Except.bind, pure, Except.pure]

theorem take_body : p.body.take p.header.size.toNat = p.body := by
  refine take_of_length_le ?_
  rw [length_body hp]
  unfold PacketHeader.bodySize
  split
  · exact Nat.zero_le _
  · exact Nat.le_refl _

theorem readFromConn_writeToConn (rest : Bytes) :
    ∃ q, readFromConn (writeToConn p ++ rest) = .ok (q, rest) ∧ p.Received q := by
  refine ⟨⟨p.header, p.arg, some p.body⟩, ?_, rfl, rfl, take_body hp⟩
  unfold readFromConn
  rw [readFrame_writeToConn hp]
  rfl

theorem readFromConnFromCli_writeToConn (pooled rest : Bytes) :
    ∃ q, readFromConnFromCli pooled (writeToConn p ++ rest) = .ok (q, rest) ∧ p.Received q := by
  refine ⟨⟨p.header, p.arg, some (if p.header.opcode == opWrite && p.header.bodySize == blockSize
    then p.body ++ pooled.drop p.header.bodySize else p.body)⟩, ?_, rfl, rfl, ?_⟩
  · unfold readFromConnFromCli
    rw [readFrame_writeToConn hp]
    rfl
  · dsimp only [Option.getD]
    split
    next hwhole =>
      obtain ⟨hwrite, -⟩ := Bool.and_eq_true_iff.mp hwhole
      have hread : p.header.isReadRequest = false := by
        unfold PacketHeader.isReadRequest
        rw [eq_of_beq hwrite]
        rfl
      have hlen := length_body hp
      unfold PacketHeader.bodySize at hlen
      rw [hread] at hlen
      exact take_left' hlen
    · exact take_body hp

end

theorem readPackets_writeToConn {read : Nat → Bytes → Except FrameErr (WirePacket × Bytes)}
    (hread : ∀ i (p : WirePacket), p.WellFormed → ∀ rest,
      ∃ q, read i (writeToConn p ++ rest) = .ok (q, rest) ∧ p.Received q)
    (ps : List WirePacket) (hps : ∀ p ∈ ps, p.WellFormed) (i : Nat) (rest : Bytes) :
    ∃ qs, readPackets read i ps.length (ps.flatMap writeToConn ++ rest) = .ok (qs, rest) ∧
      List.Forall₂ WirePacket.Received ps qs := by
  induction ps generalizing i with
  | nil => exact ⟨[], rfl, .nil⟩
  | cons p ps ih =>
    obtain ⟨q, hq, hp⟩ := hread i p (hps p (mem_cons_self ..))
      (ps.flatMap writeToConn ++ rest)
    obtain ⟨qs, hqs, hall⟩ := ih (fun p hp => hps p (mem_cons_of_mem _ hp)) (i + 1)
    refine ⟨q :: qs, ?_, .cons hp hall⟩
    rw [flatMap_cons, append_assoc, length_cons, readPackets]
    simp only [hq, hqs, bind, Except.bind, pure, Except.pure]

/-- Packets that are written one after the other are read back in the same order, to the last
byte. -/
theorem packets_read_back (ps : List WirePacket) (hps : ∀ p ∈ ps, p.WellFormed)
    (pooled : Nat → Bytes) :
    (∃ qs, readPackets (fun _ => readFromConn) 0 ps.length (ps.flatMap writeToConn) =
        .ok (qs, []) ∧ List.Forall₂ WirePacket.Received ps qs) ∧
      ∃ qs, readPackets (fun i => readFromConnFromCli (pooled i)) 0 ps.length
        (ps.flatMap writeToConn) = .ok (qs, []) ∧ List.Forall₂ WirePacket.Received ps qs := by
  have hproto := readPackets_writeToConn (fun _ _ hp rest => readFromConn_writeToConn hp rest)
    ps hps 0 []
  have hrepl := readPackets_writeToConn
    (fun i _ hp rest => readFromConnFromCli_writeToConn hp (pooled i) rest) ps hps 0 []
  rw [append_nil] at hproto hrepl
  exact ⟨hproto, hrepl⟩

/-- A request to read and a reply with two bytes. -/
theorem packets_read_back_two :
    ∃ request reply : WirePacket, request.WellFormed ∧ reply.WellFormed ∧
      request.header.isReadRequest = true ∧ reply.body = [7, 8] ∧
      ∃ qs, readPackets (fun _ => readFromConn) 0 2 ([request, reply].flatMap writeToConn) =
        .ok (qs, []) ∧ List.Forall₂ WirePacket.Received [request, reply] qs := by
  let request : WirePacket :=
    ⟨⟨protoMagic, normalExtentType, opStreamRead, opInitResultCode, 0, 0, 2, 0, 1, 1025, 0, 5, 0⟩,
      [], none⟩
  let reply : WirePacket :=
    ⟨⟨protoMagic, normalExtentType, opStreamRead, opOk, 0, 0, 2, 0, 1, 1025, 0, 5, 0⟩, [],
      some [7, 8]⟩
  have hrequest : request.WellFormed := ⟨rfl, rfl, .inl ⟨rfl, rfl⟩⟩
  have hreply : reply.WellFormed := ⟨rfl, rfl, .inr ⟨rfl, .inl ⟨_, rfl, rfl⟩⟩⟩
  refine ⟨request, reply, hrequest, hreply, rfl, rfl,
    (packets_read_back [request, reply] ?_ fun _ => []).1⟩
  intro p hp
  obtain rfl | hp := mem_cons.mp hp
  · exact hrequest
  · obtain rfl := mem_singleton.mp hp
    exact hreply

end ChubaoFS
