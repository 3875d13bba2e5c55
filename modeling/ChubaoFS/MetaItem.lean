import ChubaoFS.Marshal

namespace ChubaoFS

open Bytes

def opFSMCreateInode : UInt32 := 0

def opFSMCreateDentry : UInt32 := 2

def opExtentFileSnapshot : UInt32 := 19

inductive SnapErr
  | eof
  | unexpectedEOF
  | readFile
  | unknownOp (op : UInt32)
  | indexOutOfRange
  deriving DecidableEq, Repr

def SnapErr.ofRead : ReadErr → SnapErr
  | .eof => .eof
  | .unexpectedEOF => .unexpectedEOF

structure MetaItem where
  op : UInt32
  k : Bytes
  v : Bytes
  deriving DecidableEq, Repr

namespace MetaItem

def frame (s : MetaItem) : Bytes :=
  putUInt32 s.op ++ putUInt32 (UInt32.ofNat s.k.length) ++ s.k ++
    putUInt32 (UInt32.ofNat s.v.length) ++ s.v

def marshalBinary (s : MetaItem) : Except SnapErr Bytes := .ok s.frame

def decode (raw : Bytes) : Except ReadErr MetaItem := do
  let (op, buff) ← readUInt32 raw
  let (lenK, buff) ← readUInt32 buff
  let (k, buff) ← readSlice lenK.toNat buff
  let (lenV, buff) ← readUInt32 buff
  let (v, _) ← readSlice lenV.toNat buff
  return ⟨op, k, v⟩

def unmarshalBinary (raw : Bytes) : Except SnapErr MetaItem := (decode raw).mapError SnapErr.ofRead

variable {s : MetaItem}

theorem unmarshalBinary_frame (hk : s.k.length < 2 ^ 32) :
    unmarshalBinary s.frame = .ok { s with v := s.v.take (s.v.length % 2 ^ 32) } := by
  have hkn : (UInt32.ofNat s.k.length).toNat = s.k.length := UInt32.toNat_ofNat_of_lt' hk
  have hvn : (UInt32.ofNat s.v.length).toNat = s.v.length % 2 ^ 32 := by simp
  have hv : readSlice (s.v.length % 2 ^ 32) s.v =
      .ok (s.v.take (s.v.length % 2 ^ 32), s.v.drop (s.v.length % 2 ^ 32)) := by
    have hle : (s.v.take (s.v.length % 2 ^ 32)).length = s.v.length % 2 ^ 32 :=
      List.length_take_of_le (Nat.mod_le _ _)
    have hread := readSlice_append (s.v.drop (s.v.length % 2 ^ 32)) hle
    rwa [List.take_append_drop] at hread
  simp only [unmarshalBinary, decode, frame, List.append_assoc, readUInt32_put, bind, Except.bind,
    hkn, readSlice_append _ rfl, hvn, hv, pure, Except.pure, Except.mapError]

theorem unmarshalBinary_frame_of_short (hk : s.k.length < 2 ^ 32) (hv : s.v.length < 2 ^ 32) :
    unmarshalBinary s.frame = .ok s := by
  rw [unmarshalBinary_frame hk, Nat.mod_eq_of_lt hv, List.take_length]

theorem length_frame (s : MetaItem) : 12 ≤ s.frame.length := by
  simp only [frame, List.length_append, length_putUInt32]
  omega

end MetaItem

def InodeOf.snapshotItem (i : Inode) : MetaItem := ⟨opFSMCreateInode, i.marshalKey, i.marshalValue⟩

theorem InodeOf.length_marshalKey (i : Inode) : i.marshalKey.length < 2 ^ 32 := by
  simp [marshalKey]

theorem InodeOf.inode_eq_of_frame {i j : Inode} (h : i.snapshotItem.frame = j.snapshotItem.frame) :
    i.inode = j.inode := by
  have hi := MetaItem.unmarshalBinary_frame (s := i.snapshotItem) i.length_marshalKey
  have hj := MetaItem.unmarshalBinary_frame (s := j.snapshotItem) j.length_marshalKey
  rw [h, hj] at hi
  exact (putUInt64_injective (congrArg MetaItem.k (Except.ok.inj hi))).symm

end ChubaoFS
