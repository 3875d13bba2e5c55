import ChubaoFS.ExtentBytes
import ChubaoFS.TinyExtents

namespace ChubaoFS

open List

/-! The handler of one extent in a client: it cuts what is written into packets, and it puts
together the key for the packets that were acknowledged. -/

inductive StoreMode
  | tiny
  | normal
  deriving DecidableEq

inductive ExtentStatus
  | opened
  | closed
  | recovery
  | error
  deriving DecidableEq

structure StreamPacket where
  kernelOffset : Nat
  data : Bytes
  errCount : Nat
  deriving DecidableEq

/-- The numbers that handlers are known by stand for pointers to them. `extent` is the data
partition and the extent of a handler that has been given one. While the receiver has handed its
packet to a new recovery handler and has yet to enter that in the dirty list, the new handler stands
in `entering`. -/
structure ExtentHandler where
  fileOffset : Nat
  storeMode : StoreMode
  status : ExtentStatus
  packet : Option StreamPacket
  size : Nat
  request : List StreamPacket
  reply : List StreamPacket
  extent : Option (UInt64 × UInt64)
  key : Option ExtentKey
  dirty : Bool
  recoverHandler : Option Nat
  entering : Option Nat
  deriving DecidableEq

def tinySizeLimit : Nat := 1048576

def extentSize : Nat := 1024 * blockSize

def StoreMode.blksize : StoreMode → Nat
  | tiny => tinySizeLimit
  | normal => blockSize

namespace ExtentHandler

def new (fileOffset : Nat) (storeMode : StoreMode) : ExtentHandler where
  fileOffset := fileOffset
  storeMode := storeMode
  status := .opened
  packet := none
  size := 0
  request := []
  reply := []
  extent := none
  key := none
  dirty := false
  recoverHandler := none
  entering := none

def setClosed (eh : ExtentHandler) : ExtentHandler :=
  if eh.status = .opened then { eh with status := .closed } else eh

def pushToRequest (eh : ExtentHandler) (packet : StreamPacket) : ExtentHandler :=
  { eh with request := eh.request ++ [packet] }

def flushPacket (eh : ExtentHandler) : ExtentHandler :=
  match eh.packet with
  | none => eh
  | some packet => { eh.pushToRequest packet with packet := none }

/-- The loop of `write`; `offset` is where `data` goes. -/
def fill : Nat → ExtentHandler → Nat → Bytes → ExtentHandler
  | 0, eh, _, _ => eh
  | fuel + 1, eh, offset, data =>
    if data = [] then eh
    else
      let packet := eh.packet.getD ⟨offset, [], 0⟩
      let write := min data.length (eh.storeMode.blksize - packet.data.length)
      let packet' := { packet with data := packet.data ++ data.take write }
      let eh' := { eh with packet := some packet' }
      fill fuel (if eh.storeMode.blksize ≤ packet'.data.length then eh'.flushPacket else eh')
        (offset + write) (data.drop write)

def localKey (eh : ExtentHandler) : ExtentKey where
  fileOffset := UInt64.ofNat eh.fileOffset
  partitionId := 0
  extentId := 0
  extentOffset := 0
  size := UInt32.ofNat eh.size
  crc := 0

/-- `none` is the error for a handler that cannot take what is written. -/
def write (eh : ExtentHandler) (data : Bytes) (offset : Nat) : Option (ExtentHandler × ExtentKey) :=
  if eh.status ≠ .opened then none
  else if eh.fileOffset + eh.size ≠ offset ∨ extentSize < eh.size + data.length ∨
      eh.storeMode = .tiny ∧ tinySizeLimit < eh.size + data.length then none
  else
    let eh := { fill data.length eh offset data with size := eh.size + data.length }
    some (eh, eh.localKey)

/-- The end of `processReply` for a packet that was written. -/
def acknowledged (eh : ExtentHandler) (packet : StreamPacket) (partitionId extID : UInt64)
    (extOffset : Nat) : ExtentHandler :=
  { eh with
    key := some (match eh.key with
      | none => {
          fileOffset := UInt64.ofNat eh.fileOffset
          partitionId := partitionId
          extentId := extID
          extentOffset := UInt64.ofNat extOffset
          size := UInt32.ofNat packet.data.length
          crc := 0 }
      | some key => { key with size := key.size + UInt32.ofNat packet.data.length })
    dirty := true }

def queue (eh : ExtentHandler) : List StreamPacket := eh.request ++ eh.packet.toList

theorem flushPacket_eq (eh : ExtentHandler) :
    eh.flushPacket = { eh with request := eh.queue, packet := none } := by
  obtain ⟨fo, m, st, packet, n, r, rp, ex, k, d, rh, en⟩ := eh
  unfold flushPacket queue pushToRequest
  cases packet with
  | none => simp
  | some packet => simp

end ExtentHandler

namespace StreamPacket

/-- The packets are for the range from `a` to `b`, one after the other. -/
def Follow : Nat → List StreamPacket → Nat → Prop
  | a, [], b => a = b
  | a, p :: ps, b => p.kernelOffset = a ∧ p.data ≠ [] ∧ Follow (a + p.data.length) ps b

def bytes (ps : List StreamPacket) : Bytes := ps.flatMap data

@[simp] theorem bytes_append (ps qs : List StreamPacket) :
    bytes (ps ++ qs) = bytes ps ++ bytes qs := flatMap_append

@[simp] theorem bytes_cons (p : StreamPacket) (ps : List StreamPacket) :
    bytes (p :: ps) = p.data ++ bytes ps := rfl

@[simp] theorem bytes_nil : bytes [] = [] := rfl

theorem follow_append {ps qs : List StreamPacket} {a b : Nat} :
    Follow a (ps ++ qs) b ↔ ∃ m, Follow a ps m ∧ Follow m qs b := by
  induction ps generalizing a with
  | nil => exact ⟨fun h => ⟨a, rfl, h⟩, fun ⟨m, hm, h⟩ => hm ▸ h⟩
  | cons p ps ih =>
    constructor
    · rintro ⟨hp, hne, h⟩
      obtain ⟨m, hm, h⟩ := ih.mp h
      exact ⟨m, ⟨hp, hne, hm⟩, h⟩
    · rintro ⟨m, ⟨hp, hne, hm⟩, h⟩
      exact ⟨hp, hne, ih.mpr ⟨m, hm, h⟩⟩

theorem Follow.length {ps : List StreamPacket} {a b : Nat} (h : Follow a ps b) :
    a + (bytes ps).length = b := by
  induction ps generalizing a with
  | nil => exact h
  | cons p ps ih =>
    have := ih h.2.2
    rw [bytes_cons, length_append]
    omega

end StreamPacket

namespace ExtentHandler

open StreamPacket (Follow bytes)

/-- The packets that a handler has in hand reach to `offset`, and only the last one is not full. -/
structure Fits (eh : ExtentHandler) (a offset : Nat) : Prop where
  follow : Follow a eh.queue offset
  full : ∀ packet ∈ eh.request, eh.storeMode.blksize ≤ packet.data.length
  room : ∀ packet, eh.packet = some packet → packet.data.length < eh.storeMode.blksize

variable {eh : ExtentHandler} {a offset : Nat} {data : Bytes}

theorem Fits.round (h : eh.Fits a offset) (hne : data ≠ []) :
    ∃ n request packet, 0 < n ∧ n ≤ data.length ∧ (∀ fuel, fill (fuel + 1) eh offset data =
        fill fuel { eh with request := request, packet := packet } (offset + n) (data.drop n)) ∧
      ({ eh with request := request, packet := packet } : ExtentHandler).Fits a (offset + n) ∧
      bytes ({ eh with request := request, packet := packet } : ExtentHandler).queue =
        bytes eh.queue ++ data.take n := by
  have hblk : 0 < eh.storeMode.blksize := by cases eh.storeMode <;> decide
  have hdata : 0 < data.length := length_pos_iff.mpr hne
  have hroom : (eh.packet.getD ⟨offset, [], 0⟩).data.length < eh.storeMode.blksize := by
    cases hp : eh.packet with
    | none => exact hblk
    | some packet => exact h.room packet hp
  -- the packet that is filled, with what it follows
  obtain ⟨m, hm, hlast⟩ : ∃ m, Follow a eh.request m ∧
      m + (eh.packet.getD ⟨offset, [], 0⟩).data.length = offset ∧
      (eh.packet.getD ⟨offset, [], 0⟩).kernelOffset = m := by
    obtain ⟨m, hm, hp⟩ := StreamPacket.follow_append.mp h.follow
    cases hpacket : eh.packet with
    | none =>
      rw [hpacket] at hp
      exact ⟨m, hm, hp, hp.symm⟩
    | some packet =>
      rw [hpacket] at hp
      exact ⟨m, hm, hp.2.2, hp.1⟩
  have hbytes : bytes eh.queue = bytes eh.request ++ (eh.packet.getD ⟨offset, [], 0⟩).data := by
    unfold queue
    cases eh.packet <;> simp
  obtain ⟨n, hn⟩ : ∃ n, n = min data.length
      (eh.storeMode.blksize - (eh.packet.getD ⟨offset, [], 0⟩).data.length) := ⟨_, rfl⟩
  obtain ⟨packet', hpacket'⟩ : ∃ p : StreamPacket, p = { eh.packet.getD ⟨offset, [], 0⟩ with
      data := (eh.packet.getD ⟨offset, [], 0⟩).data ++ data.take n } := ⟨_, rfl⟩
  have hpos : 0 < n := by omega
  have htake : (data.take n).length = n := by
    rw [length_take]
    omega
  have hlen : packet'.data.length = (eh.packet.getD ⟨offset, [], 0⟩).data.length + n := by
    rw [hpacket', length_append, htake]
  have hfill (fuel : Nat) : fill (fuel + 1) eh offset data =
      fill fuel (if eh.storeMode.blksize ≤ packet'.data.length then
        ({ eh with packet := some packet' } : ExtentHandler).flushPacket
        else { eh with packet := some packet' }) (offset + n) (data.drop n) := by
    rw [fill, if_neg hne, hpacket', hn]
  have hfollow : Follow m [packet'] (offset + n) := by
    refine ⟨?_, ?_, ?_⟩
    · rw [hpacket']
      exact hlast.2
    · exact ne_nil_of_length_pos (by omega)
    · change m + packet'.data.length = offset + n
      omega
  have hqueue : Follow a (eh.request ++ [packet']) (offset + n) :=
    StreamPacket.follow_append.mpr ⟨m, hm, hfollow⟩
  have hqbytes : bytes (eh.request ++ [packet']) = bytes eh.queue ++ data.take n := by
    rw [hbytes, StreamPacket.bytes_append, StreamPacket.bytes_cons, StreamPacket.bytes_nil,
      append_nil, hpacket', append_assoc]
  by_cases hfull : eh.storeMode.blksize ≤ packet'.data.length
  · refine ⟨n, eh.request ++ [packet'], none, hpos, by omega, fun fuel => ?_, ⟨?_, ?_, nofun⟩, ?_⟩
    · rw [hfill, if_pos hfull]
      rfl
    · unfold queue
      rw [Option.toList_none, append_nil]
      exact hqueue
    · intro packet hp
      obtain hp | hp := mem_append.mp hp
      · exact h.full packet hp
      · exact mem_singleton.mp hp ▸ hfull
    · unfold queue
      rw [Option.toList_none, append_nil]
      exact hqbytes
  refine ⟨n, eh.request, some packet', hpos, by omega, fun fuel => ?_, ⟨hqueue, h.full, ?_⟩,
    hqbytes⟩
  · rw [hfill, if_neg hfull]
  · rintro _ ⟨⟩
    exact Nat.lt_of_not_le hfull

theorem Fits.fill (fuel : Nat) (h : eh.Fits a offset) (hfuel : data.length ≤ fuel) :
    ∃ request packet,
      ExtentHandler.fill fuel eh offset data = { eh with request := request, packet := packet } ∧
      ({ eh with request := request, packet := packet } : ExtentHandler).Fits a
        (offset + data.length) ∧
      bytes ({ eh with request := request, packet := packet } : ExtentHandler).queue =
        bytes eh.queue ++ data := by
  induction fuel generalizing eh offset data with
  | zero =>
    obtain rfl := length_eq_zero_iff.mp (Nat.le_zero.mp hfuel)
    exact ⟨eh.request, eh.packet, rfl, h, (append_nil _).symm⟩
  | succ fuel ih =>
    by_cases hne : data = []
    · refine ⟨eh.request, eh.packet, ?_, ?_, ?_⟩
      · rw [ExtentHandler.fill, if_pos hne]
      · rw [hne]
        exact h
      · rw [hne]
        exact (append_nil _).symm
    obtain ⟨n, request, packet, hpos, hle, hfill, hfits, hbytes⟩ := h.round hne
    have hdrop : (data.drop n).length ≤ fuel := by
      rw [length_drop]
      omega
    obtain ⟨request', packet', hrest, hfits', hbytes'⟩ := ih hfits hdrop
    refine ⟨request', packet', ?_, ?_, ?_⟩
    · rw [hfill, hrest]
    · rwa [length_drop, Nat.add_assoc, Nat.add_sub_cancel' hle] at hfits'
    · rw [hbytes] at hbytes'
      refine hbytes'.trans ?_
      rw [append_assoc, take_append_drop]

theorem Fits.length_queue_le (h : eh.Fits a offset) (hle : offset ≤ a + eh.storeMode.blksize) :
    eh.queue.length ≤ 1 := by
  have hfollow := h.follow
  unfold queue at hfollow ⊢
  cases hr : eh.request with
  | nil =>
    rw [nil_append]
    exact Option.length_toList_le
  | cons packet request =>
    rw [hr, cons_append] at hfollow
    obtain ⟨-, -, hrest⟩ := hfollow
    have hfull := h.full packet (hr ▸ mem_cons_self ..)
    have hlen := hrest.length
    rw [cons_append, length_cons]
    cases hq : request ++ eh.packet.toList with
    | nil => exact Nat.le_refl 1
    | cons next rest =>
      rw [hq] at hrest hlen
      have hpos : 0 < next.data.length := length_pos_iff.mpr hrest.2.1
      rw [StreamPacket.bytes_cons, length_append] at hlen
      omega

end ExtentHandler
end ChubaoFS
