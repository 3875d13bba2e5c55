import ChubaoFS.Base.Files
import ChubaoFS.Base.Run
import ChubaoFS.Proto

namespace ChubaoFS

open Bytes

/-! The log of the ranges that were deleted from tiny extents, and how a follower catches up
with the log of its leader. -/

def everyTinyDeleteRecordSize : Nat := 24

def maxSyncTinyDeleteBufferSize : Nat := 2400000

structure TinyDeleteRecord where
  extentID : UInt64
  offset : Int64
  size : Int64
  deriving DecidableEq

def marshalTinyExtent (r : TinyDeleteRecord) : Bytes :=
  putUInt64 r.extentID ++ putInt64 r.offset ++ putInt64 r.size

def unMarshalTinyExtent (data : Bytes) : TinyDeleteRecord where
  extentID := toUInt64 (data.take 8)
  offset := (toUInt64 ((data.drop 8).take 8)).toInt64
  size := (toUInt64 ((data.drop 16).take 8)).toInt64

@[simp] theorem length_marshalTinyExtent (r : TinyDeleteRecord) :
    (marshalTinyExtent r).length = 24 := by
  simp [marshalTinyExtent, putInt64]

@[simp] theorem unMarshalTinyExtent_marshal (r : TinyDeleteRecord) :
    unMarshalTinyExtent (marshalTinyExtent r) = r := by
  have hid : (putUInt64 r.extentID).length = 8 := length_putUInt64 _
  have hoff : (putInt64 r.offset).length = 8 := length_putUInt64 _
  have hsize : (putInt64 r.size).length = 8 := length_putUInt64 _
  unfold unMarshalTinyExtent marshalTinyExtent
  rw [List.append_assoc, List.take_left' hid, List.drop_left' hid, List.take_left' hoff,
    ← List.append_assoc, List.drop_left' (by simp [hid, hoff]), List.take_of_length_le (by omega)]
  unfold putInt64
  simp

structure DeleteOutcome where
  punched : Bool
  written : Bool

/-- What an `ExtentStore` keeps for deletions from tiny extents: the log, the offset of its last
record, the sizes of the extents and the ranges that were punched out of them. -/
structure TinyDeleteLog where
  tinyExtentDeleteFp : Bytes
  baseTinyDeleteOffset : Nat
  dataSize : UInt64 → Option Int64
  punched : List TinyDeleteRecord

namespace TinyDeleteLog

def newExtentStore (dataSize : UInt64 → Option Int64) : TinyDeleteLog := ⟨[], 0, dataSize, []⟩

/-- `NewExtentStore` on the file that is there. -/
def restart (s : TinyDeleteLog) : TinyDeleteLog :=
  { s with baseTinyDeleteOffset := s.tinyExtentDeleteFp.length }

def nextTinyDeleteFileOffset (s : TinyDeleteLog) : TinyDeleteLog :=
  { s with baseTinyDeleteOffset := s.baseTinyDeleteOffset + everyTinyDeleteRecordSize }

def recordTinyDelete (s : TinyDeleteLog) (r : TinyDeleteRecord) (tinyDeleteFileOffset : Nat)
    (written : Bool) : TinyDeleteLog :=
  if written then { s with
    tinyExtentDeleteFp := writeAt s.tinyExtentDeleteFp (marshalTinyExtent r) tinyDeleteFileOffset
    baseTinyDeleteOffset := if s.baseTinyDeleteOffset < tinyDeleteFileOffset
      then tinyDeleteFileOffset else s.baseTinyDeleteOffset }
  else s

/-- `DeleteTiny` punches whole pages. -/
def deleteTiny (r : TinyDeleteRecord) (punched : Bool) : Bool :=
  r.offset % 4096 == 0 && punched

def tinyDelete (s : TinyDeleteLog) (dataSize : Int64) (r : TinyDeleteRecord)
    (tinyDeleteFileOffset : Nat) (o : DeleteOutcome) : TinyDeleteLog :=
  if dataSize < r.offset + r.size then s
  else if deleteTiny r o.punched then
    { s with punched := r :: s.punched }.recordTinyDelete r tinyDeleteFileOffset o.written
  else s

/-- `MarkDelete` for a tiny extent. -/
def markDelete (s : TinyDeleteLog) (r : TinyDeleteRecord) (tinyDeleteFileOffset : Nat)
    (o : DeleteOutcome) : TinyDeleteLog :=
  match s.dataSize r.extentID with
  | none => s
  | some dataSize => s.tinyDelete dataSize r tinyDeleteFileOffset o

def recordAt (s : TinyDeleteLog) (offset : Nat) : Option TinyDeleteRecord :=
  (readAt s.tinyExtentDeleteFp offset everyTinyDeleteRecordSize).map unMarshalTinyExtent

end TinyDeleteLog

/-! The leader sends its log in rounds; `files` is what it finds in the file at each of them. -/

inductive TinyDeleteReply
  | data (body : Bytes) (crc : UInt32)
  | error

def sendTinyDeletes (checksumIEEE : Bytes → UInt32) : List Bytes → Nat → Nat → List TinyDeleteReply
  | [], _, _ => []
  | file :: files, needReplySize, offset =>
    if needReplySize = 0 then []
    else
      let currReadSize := min needReplySize maxSyncTinyDeleteBufferSize
      match readAt file offset currReadSize with
      | none => [.error]
      | some body => .data body (checksumIEEE body) ::
          sendTinyDeletes checksumIEEE files (needReplySize - currReadSize) (offset + currReadSize)

def handlePacketToReadTinyDelete (checksumIEEE : Bytes → UInt32) (leader : TinyDeleteLog)
    (files : List Bytes) (extentOffset : Nat) : List TinyDeleteReply :=
  sendTinyDeletes checksumIEEE files (leader.baseTinyDeleteOffset - extentOffset) extentOffset

inductive SyncErr
  | read
  | errPacket
  | crcNotMatch
  | unavailableSize
  deriving DecidableEq

def recordsOf (body : Bytes) : List TinyDeleteRecord :=
  (List.range (body.length / everyTinyDeleteRecordSize)).map fun index =>
    unMarshalTinyExtent (block everyTinyDeleteRecordSize body index)

namespace TinyDeleteLog

/-- The inner loop. An error of `MarkDelete` is ignored; `outcome` is by the offset in the file. -/
def replayRecords (outcome : Nat → DeleteOutcome) :
    List TinyDeleteRecord → TinyDeleteLog → Nat → TinyDeleteLog
  | [], s, _ => s
  | r :: rest, s, localTinyDeleteFileSize =>
    let next := localTinyDeleteFileSize + everyTinyDeleteRecordSize
    replayRecords outcome rest
      (if isTinyExtent r.extentID then s.markDelete r next (outcome next) else s) next

def readReplies (checksumIEEE : Bytes → UInt32) (outcome : Nat → DeleteOutcome)
    (leaderTinyDeleteFileSize : Nat) :
    List TinyDeleteReply → TinyDeleteLog → Nat → TinyDeleteLog × Option SyncErr
  | replies, s, localTinyDeleteFileSize =>
    if leaderTinyDeleteFileSize ≤ localTinyDeleteFileSize then (s, none)
    else
      match replies with
      | [] => (s, some .read)
      | .error :: _ => (s, some .errPacket)
      | .data body crc :: rest =>
        if crc ≠ checksumIEEE body then (s, some .crcNotMatch)
        else if body.length % everyTinyDeleteRecordSize ≠ 0 then (s, some .unavailableSize)
        else
          let records := recordsOf body
          readReplies checksumIEEE outcome leaderTinyDeleteFileSize rest
            (replayRecords outcome records s localTinyDeleteFileSize)
            (localTinyDeleteFileSize + records.length * everyTinyDeleteRecordSize)

/-- What a run of `doStreamFixTinyDeleteRecord` leaves, and whether it asked for anything. -/
structure SyncResult where
  log : TinyDeleteLog
  requested : Bool
  err : Option SyncErr

def doStreamFixTinyDeleteRecord (checksumIEEE : Bytes → UInt32) (outcome : Nat → DeleteOutcome)
    (leaderTinyDeleteFileSize : Nat) (isFullSync : Bool) (serve : Nat → List TinyDeleteReply)
    (s : TinyDeleteLog) : SyncResult :=
  let localTinyDeleteFileSize := if isFullSync then 0 else s.baseTinyDeleteOffset
  if leaderTinyDeleteFileSize ≤ localTinyDeleteFileSize then ⟨s, false, none⟩
  else
    let (s, err) := readReplies checksumIEEE outcome leaderTinyDeleteFileSize
      (serve localTinyDeleteFileSize) s localTinyDeleteFileSize
    ⟨s, true, err⟩

end TinyDeleteLog
end ChubaoFS
