import ChubaoFS.Base.Run
import ChubaoFS.ExtentSpans
import ChubaoFS.PartitionRefine

namespace ChubaoFS

/-! Appends and truncations of one file, from any clients. -/

namespace ExtentsTree

/-- Each key is as `P` says of the tree that it is appended to. -/
def AllKeys (P : ExtentsTree → ExtentKey → Prop) : ExtentsTree → List ExtentKey → Prop
  | _, [] => True
  | e, k :: ks => P e k ∧ AllKeys P (append e k).1 ks

instance decidableAllKeys {P : ExtentsTree → ExtentKey → Prop} [∀ e k, Decidable (P e k)] :
    ∀ e ks, Decidable (AllKeys P e ks)
  | _, [] => inferInstanceAs (Decidable True)
  | e, k :: ks =>
    have := decidableAllKeys (P := P) (append e k).1 ks
    inferInstanceAs (Decidable (_ ∧ _))

end ExtentsTree

namespace InodeOf

structure Intact (i : Inode) : Prop where
  sound : ExtentsTree.Sound i.extents
  size : ∀ k ∈ i.extents.items, k.stop ≤ i.size.toNat

variable {acc : Inode × List ExtentKey} {k : ExtentKey} {i : Inode}

theorem toNat_size_appendStep (h : ExtentsTree.Sound (ExtentsTree.append acc.1.extents k).1) :
    (appendStep acc k).1.size.toNat =
      max acc.1.size.toNat (ExtentsTree.maxEnd (appendStep acc k).1.extents) := by
  have hsize := ExtentsTree.toNat_size h
  have hext : (appendStep acc k).1.extents = (ExtentsTree.append acc.1.extents k).1 := rfl
  rw [hext, ← hsize]
  unfold appendStep
  dsimp only
  split
  next hlt =>
    have := UInt64.lt_iff_toNat_lt.mp hlt
    omega
  next hge =>
    have := UInt64.le_iff_toNat_le.mp (UInt64.not_lt.mp hge)
    omega

theorem Intact.appendStep (h : acc.1.Intact) (hpos : 0 < k.size)
    (hk : ExtentsTree.Clears acc.1.extents k) : (InodeOf.appendStep acc k).1.Intact := by
  have hsound := h.sound.append hpos hk
  refine ⟨hsound, fun d hd => ?_⟩
  rw [toNat_size_appendStep hsound]
  have := ExtentsTree.stop_le_maxEnd hd
  omega

theorem Intact.appendKeys (h : i.Intact) {keys : List ExtentKey} (ct : Int64)
    (hk : ExtentsTree.AllKeys (fun e k => 0 < k.size ∧ e.Clears k) i.extents keys) :
    (i.appendKeys keys ct).1.Intact := by
  have hfold (keys : List ExtentKey) (acc : Inode × List ExtentKey) (h : acc.1.Intact)
      (hk : ExtentsTree.AllKeys (fun e k => 0 < k.size ∧ e.Clears k) acc.1.extents keys) :
      (keys.foldl InodeOf.appendStep acc).1.Intact := by
    induction keys generalizing acc with
    | nil => exact h
    | cons k keys ih => exact ih _ (h.appendStep hk.1.1 hk.1.2) hk.2
  have hall := hfold keys (i, []) h hk
  exact ⟨hall.sound, hall.size⟩

theorem Intact.truncateKeys (h : i.Intact) (length : UInt64) (ct : Int64) :
    (i.truncateKeys length ct).1.Intact ∧
      ∀ k ∈ (i.truncateKeys length ct).1.extents.items, k.stop ≤ length.toNat :=
  ⟨⟨(h.sound.truncate length).1, (h.sound.truncate length).2⟩, (h.sound.truncate length).2⟩

end InodeOf

inductive ExtentEvent
  | append (keys : ExtentsTree) (ct : Int64)
  | truncate (length : UInt64) (ct : Int64)

namespace ExtentEvent

def command (ino : UInt64) : ExtentEvent → MetaPartition.Command
  | append keys ct => .extentsAdd (InodeOf.new keys ino 0 ct)
  | truncate length ct => .extentTruncate { InodeOf.new OrdTree.empty ino 0 ct with size := length }

def run (i : Inode) : ExtentEvent → Inode × List ExtentKey
  | append keys ct => i.appendKeys keys.items ct
  | truncate length ct => i.truncateKeys length ct

def positive : ExtentEvent → Bool
  | append keys _ => keys.items.all fun k => 0 < k.size
  | truncate _ _ => true

theorem run_rest (i : Inode) (e : ExtentEvent) :
    (e.run i).1.inode = i.inode ∧ (e.run i).1.type = i.type ∧ (e.run i).1.flag = i.flag := by
  have hfold (keys : List ExtentKey) (acc : Inode × List ExtentKey) :
      (keys.foldl InodeOf.appendStep acc).1.inode = acc.1.inode ∧
        (keys.foldl InodeOf.appendStep acc).1.type = acc.1.type ∧
        (keys.foldl InodeOf.appendStep acc).1.flag = acc.1.flag := by
    induction keys generalizing acc with
    | nil => exact ⟨rfl, rfl, rfl⟩
    | cons k keys ih => exact ih _
  cases e with
  | append keys ct => exact hfold keys.items (i, [])
  | truncate length ct => exact ⟨rfl, rfl, rfl⟩

end ExtentEvent

namespace MetaPartition

/-- The partition has the file, by value `i`, and would append to it and cut it. -/
structure FileAt (mp : MetaPartition) (ino : UInt64) (i : Inode) : Prop where
  owns : mp.OwnsExtents
  found : mp.value.inode? ino = some i
  live : i.shouldDelete = false
  file : isDir i.type = false

def extentStep (ino : UInt64) (mp : MetaPartition) (e : ExtentEvent) : Option MetaPartition :=
  some (mp.apply (e.command ino))

variable {mp : MetaPartition} {ino : UInt64} {i : Inode}

theorem FileAt.step (h : mp.FileAt ino i) (e : ExtentEvent) :
    (mp.apply (e.command ino)).FileAt ino (e.run i).1 := by
  obtain ⟨hid, htype, hflag⟩ := e.run_rest i
  have hsame : (e.run i).1.key = i.key := congrArg UInt64.toNat hid
  have hkey : (e.run i).1.key = ino.toNat := hsame.trans (OrdTree.key_of_get? h.found)
  refine ⟨h.owns.apply _, ?_, ?_, ?_⟩
  · rw [value_apply h.owns]
    have hput : mp.value.apply (e.command ino) =
        { mp.value with inodeTree := mp.value.inodeTree.insert (e.run i).1 } := by
      cases e with
      | append keys ct =>
        dsimp only [ExtentEvent.command, PartitionValue.apply, PartitionValue.alterInode,
          InodeOf.new]
        rw [h.found]
        dsimp only
        rw [h.live]
        rfl
      | truncate length ct =>
        dsimp only [ExtentEvent.command, PartitionValue.apply, PartitionValue.alterInode,
          InodeOf.new]
        rw [h.found]
        dsimp only
        rw [h.live, h.file]
        rfl
    unfold PartitionValue.inode?
    rw [hput, OrdTree.get?_insert]
    exact if_pos hkey.symm
  · unfold InodeOf.shouldDelete
    rw [hflag]
    exact h.live
  · rw [htype]
    exact h.file

def extentsAt (mp : MetaPartition) (ino : UInt64) : ExtentsTree :=
  match mp.value.inode? ino with
  | none => OrdTree.empty
  | some i => i.extents

theorem FileAt.extentsAt (h : mp.FileAt ino i) : mp.extentsAt ino = i.extents := by
  unfold MetaPartition.extentsAt
  rw [h.found]

/-- Each key that is appended is as `P` says of the keys the file has then. -/
def Appends (P : ExtentsTree → ExtentKey → Prop) (ino : UInt64) (mp : MetaPartition) :
    ExtentEvent → Prop
  | .append keys _ => ExtentsTree.AllKeys P (mp.extentsAt ino) keys.items
  | .truncate _ _ => True

instance (P : ExtentsTree → ExtentKey → Prop) [∀ e k, Decidable (P e k)] (ino : UInt64)
    (mp : MetaPartition) (e : ExtentEvent) : Decidable (mp.Appends P ino e) :=
  match e with
  | .append keys _ => inferInstanceAs (Decidable (ExtentsTree.AllKeys _ _ keys.items))
  | .truncate _ _ => inferInstanceAs (Decidable True)

theorem FileAt.allKeys {P : ExtentsTree → ExtentKey → Prop} (h : mp.FileAt ino i)
    {keys : ExtentsTree} {ct : Int64} (ha : mp.Appends P ino (.append keys ct)) :
    ExtentsTree.AllKeys P i.extents keys.items := by
  unfold Appends at ha
  rwa [h.extentsAt] at ha

def AppendsClear (ino : UInt64) (mp : MetaPartition) (e : ExtentEvent) : Prop :=
  mp.Appends (fun e k => 0 < k.size ∧ e.Clears k) ino e

instance (ino : UInt64) (mp : MetaPartition) (e : ExtentEvent) :
    Decidable (AppendsClear ino mp e) := inferInstanceAs (Decidable (mp.Appends _ ino e))

theorem intact_of_reach {mp' : MetaPartition} {i₀ : Inode} (h : mp.FileAt ino i₀) (hi : i₀.Intact)
    (hr : Reach (extentStep ino) (AppendsClear ino) mp mp') : ∃ i, mp'.FileAt ino i ∧ i.Intact := by
  refine hr.invariant (P := fun mp => ∃ i, mp.FileAt ino i ∧ i.Intact) ⟨i₀, h, hi⟩ ?_
  rintro mp e _ ⟨i, hat, hi⟩ ha hs
  obtain rfl := Option.some.inj hs
  refine ⟨_, hat.step e, ?_⟩
  cases e with
  | append keys ct => exact hi.appendKeys ct (hat.allKeys ha)
  | truncate length ct => exact (hi.truncateKeys length ct).1

/-- However appends and truncations of a file follow one another, if the appends meet the condition
the keys of the file stay apart, its size covers them, and a truncation leaves none past the new
length; the size that it gives the last key fits its 32 bits. -/
theorem extents_intact {mp mp' : MetaPartition} {ino : UInt64} {i₀ : Inode}
    (h : mp.FileAt ino i₀) (hi : i₀.Intact)
    (hr : Reach (extentStep ino) (AppendsClear ino) mp mp') :
    ∃ i, mp'.value.inode? ino = some i ∧
      (∀ a ∈ i.extents.items, ∀ b ∈ i.extents.items, a ≠ b → a.Apart b) ∧
      (∀ k ∈ i.extents.items, k.stop ≤ i.size.toNat) ∧
      ∀ length ct, ∃ i', (mp'.apply (ExtentEvent.command ino (.truncate length ct))).value.inode?
          ino = some i' ∧
        (∀ k ∈ i'.extents.items, k.stop ≤ length.toNat) ∧
        ∀ k ∈ i.extents.items, k.key < length.toNat → k.fileEnd > length →
          (length - k.fileOffset).toUInt32.toNat = length.toNat - k.key := by
  obtain ⟨i, hat, hi⟩ := intact_of_reach h hi hr
  refine ⟨i, hat.found, hi.sound.apart, hi.size, fun length ct => ?_⟩
  refine ⟨_, (hat.step (.truncate length ct)).found, (hi.truncateKeys length ct).2, ?_⟩
  intro k _ hlt hend
  exact (ExtentKey.toNat_cut_size hlt hend).1

def newFile5 : MetaPartition :=
  (new 0 100).apply (.createInode (InodeOf.new OrdTree.empty 5 0o644 0))

theorem fileAt_newFile5 : newFile5.FileAt 5 (InodeOf.new OrdTree.empty 5 0o644 0) :=
  ⟨(ownsExtents_new 0 100).apply _, rfl, rfl, rfl⟩

def appendOne (offset extent : UInt64) (size : UInt32) : ExtentEvent :=
  .append (OrdTree.empty.insert ⟨offset, 1, extent, 0, size, 0⟩) 0

def overwrite : List ExtentEvent := [appendOne 0 1 100, appendOne 100 2 50, appendOne 100 3 80]

theorem extents_intact_overwrite : ∃ mp' : MetaPartition,
    Reach (extentStep 5) (AppendsClear 5) newFile5 mp' ∧
      (mp'.extentsAt 5).items = [⟨0, 1, 1, 0, 100, 0⟩, ⟨100, 1, 3, 0, 80, 0⟩] ∧
      ∃ i, mp'.value.inode? 5 = some i ∧ ∀ k ∈ i.extents.items, k.stop ≤ i.size.toNat := by
  refine ⟨_, .of_checked overwrite rfl .start, ?_, ?_⟩
  · rfl
  · obtain ⟨i, hi, -, hsize, -⟩ := extents_intact fileAt_newFile5 ⟨ExtentsTree.sound_empty, nofun⟩
      (.of_checked overwrite rfl .start)
    exact ⟨i, hi, hsize⟩

/-- A key is appended that reaches from inside the first one behind it; a truncation into both then
cuts the second one only. -/
theorem overlapping_key_kept : ∃ mp' : MetaPartition,
    Reach (extentStep 5) (fun _ e => e.positive = true) newFile5 mp' ∧
      (mp'.extentsAt 5).items = [⟨0, 1, 1, 0, 100, 0⟩, ⟨50, 1, 2, 0, 100, 0⟩] ∧
      ((mp'.apply (ExtentEvent.command 5 (.truncate 60 0))).extentsAt 5).items =
        [⟨0, 1, 1, 0, 100, 0⟩, ⟨50, 1, 2, 0, 10, 0⟩] := by
  refine ⟨_, .of_checked [appendOne 0 1 100, appendOne 50 2 100] rfl .start, ?_, ?_⟩
  · rfl
  · rfl

end MetaPartition
end ChubaoFS
