import ChubaoFS.FileSize

namespace ChubaoFS

open List UInt64 Bytes

/-! `File.Write` on a stream whose keys may not be loaded yet, or be older than those of the meta
node. -/

def ClientFile.byteAt (s : ClientFile) (o : Nat) : UInt8 :=
  match s.inode.extents.at? ExtentKey.stop o with
  | none => 0
  | some k => (s.nodes k.partitionId k.extentId).getD (k.extentOffset.toNat + (o - k.key)) 0

/-- `Streamer.GetExtents` -/
def ClientFile.getExtents (s : ClientFile) : ClientFile :=
  { s with extents :=
      s.extents.update s.inode.generation s.inode.size.toNat s.inode.extents.items }

def ClientFile.isLoaded (s : ClientFile) : Bool :=
  s.handler = none ∧ s.dirtylist = [] ∧
    s.extents = ⟨s.inode.generation, s.inode.size.toNat, s.inode.extents⟩

/-- A file that a client has opened. The keys are asked for `once`. The stream is `level` as long as
no other client changes the file behind its back. -/
structure FileStream where
  client : ClientFile
  once : Bool
  level : Bool

inductive StreamEvent
  | reopen
  | write (offset : Nat) (data : Bytes) (sync : Bool)
  | call (e : FileEvent)
  | refresh
  | loadFailed
  | other (inode : Inode) (nodes : Nodes)

/-- `ExtentClient.Read` and `ExtentClient.Write` load the keys first. -/
def FileEvent.loads : FileEvent → Bool
  | write .. | read .. => true
  | _ => false

namespace FileStream

def settle (s : FileStream) : FileStream := { s with level := s.level || s.client.isLoaded }

def load (s : FileStream) : FileStream :=
  if s.once then s else settle { s with client := s.client.getExtents, once := true }

/-- A single zero behind the end, as `posix_fallocate` writes it. -/
def allocates (s : FileStream) (offset : Nat) (data : Bytes) : Bool :=
  s.client.extents.size < offset ∧ data = [0]

variable (place : ClientFile.Placement)

/-- `File.Write`, and whether it returns without an error. -/
def write (s : FileStream) (offset : Nat) (data : Bytes) (sync : Bool) : FileStream × Bool :=
  if s.allocates offset data then
    ({ s with client := s.client.truncate place (offset + data.length) }, true)
  else
    let s := s.load
    let (client, _, ok) := s.client.write place data offset
    ({ s with client := if ok && sync then client.flush place else client }, ok)

def before (s : FileStream) (e : FileEvent) : FileStream := if e.loads then s.load else s

def step (s : FileStream) : StreamEvent → Option FileStream
  | .reopen => some (settle ⟨{ s.client with
      extents := ⟨0, 0, OrdTree.empty⟩
      handler := none
      dirtylist := []
      dirty := false }, false, false⟩)
  | .write offset data sync => some (s.write place offset data sync).1.settle
  | .call e => some (settle { s.before e with client := (s.before e).client.run place e })
  | .refresh => some (settle { s with client := s.client.getExtents })
  | .loadFailed => some { s with once := true }
  | .other inode nodes =>
    some { s with client := { s.client with inode := inode, nodes := nodes }, level := false }

end FileStream

namespace ClientFile

variable {place : Placement} {s : ClientFile} {file data : Bytes} {id size : Nat}

structure Served (s : ClientFile) (file : Bytes) : Prop where
  stored : Stored s.inode.extents s.nodes file 0 0
  length : s.inode.size.toNat = file.length
  small : file.length < 2 ^ 63

theorem Served.byteAt (h : s.Served file) {o : Nat} (ho : o < file.length) :
    s.byteAt o = file.getD o 0 := by
  unfold ClientFile.byteAt
  split
  next hnone =>
    refine (h.stored.zeros o ho (by omega) fun k hk hin => ?_).symm
    have hfalse := find?_eq_none.mp hnone k hk
    simp only [Bool.and_eq_true, decide_eq_true_eq] at hfalse
    exact hfalse hin
  next k hk =>
    obtain ⟨hmem, hfrom, hto⟩ := OrdTree.mem_of_at? hk
    exact h.stored.holds k hmem (.inr (Nat.zero_le _)) o hfrom hto

structure Whole (s : ClientFile) (file : Bytes) : Prop where
  inv : s.Inv file
  covered : s.Covered
  reaches : s.Reaches

theorem Inv.clean (h : s.Inv file) (hnil : s.dirtylist = []) : s.Clean file := by
  obtain hc | ⟨id, ids, hb⟩ := h
  · exact hc
  · exact absurd (hnil.symm.trans hb.dirtylist).symm (append_ne_nil_of_right_ne_nil _ nofun)

theorem Inv.gen (h : s.Inv file) : s.extents.gen = s.inode.generation := by
  obtain hc | ⟨id, ids, hb⟩ := h
  · exact hc.synced.gen
  · exact hb.synced.gen

theorem Clean.whole (h : s.Clean file) (hsize : s.inode.size.toNat = file.length) :
    s.Whole file := by
  have hcache := h.synced.size
  have hends : ∀ k ∈ s.inode.extents.items, k.fileEnd.toNat ≤ file.length := by
    intro k hk
    rw [ExtentKey.toNat_fileEnd (h.stored.sound.small k hk)]
    exact h.stored.ends k hk
  refine ⟨.inl h, ⟨fun k hk => hcache ▸ hends k hk, ?_, by omega⟩, .inl (by omega)⟩
  rw [hsize]
  unfold ExtentsTree.size
  split
  · exact Nat.zero_le _
  next m hm => exact hends m (OrdTree.mem_of_max? hm)

theorem Clean.served (h : s.Clean file) (hc : s.Covered) (hr : s.Reaches) : s.Served file :=
  ⟨h.stored, h.inode_size hc hr, h.synced.small⟩

theorem Whole.flush (h : s.Whole file) (hfresh : (s.flush place).fresh = true)
    (hun : (s.flush place).unshared = true) :
    (s.flush place).Whole file ∧ (s.flush place).Served file := by
  obtain ⟨hc, -⟩ := h.inv.flush hfresh hun
  have hcov := ((steps_wider place).flush s).covered h.covered
  have hreach := h.inv.reaches_flush h.reaches hfresh hun
  exact ⟨⟨.inl hc, hcov, hreach⟩, hc.served hcov hreach⟩

theorem Whole.write {offset : Nat} (h : s.Whole file) (hne : data ≠ [])
    (hbig : data.length ≤ extentSize) (hsmall : offset + data.length < 2 ^ 63)
    (hfresh : (s.write place data offset).1.fresh = true)
    (hun : (s.write place data offset).1.unshared = true) :
    (s.write place data offset).2 = (data.length, true) ∧
      (s.write place data offset).1.Whole (writeAt file data offset) := by
  obtain ⟨hok, hinv⟩ := h.inv.write hne hbig hsmall hfresh hun
  exact ⟨hok, hinv, (wider_write s place data offset).covered h.covered,
    (h.inv.write_keeps ⟨fun h hr => h.reaches_flush hr, fun h hr => h.reaches_writeRequest hr⟩
      h.reaches hne hbig hsmall hfresh hun).2.2⟩

theorem size_truncate (place : Placement) (s : ClientFile) (size : Nat) :
    (s.truncate place size).inode.size = ofNat size := by
  unfold ClientFile.truncate
  dsimp only
  split
  · rfl
  · rfl

theorem toNat_ofNat_size (h : size < 2 ^ 63) : (ofNat size).toNat = size :=
  toNat_ofNat_of_lt' (by
    change _ < 2 ^ 64
    omega)

theorem length_truncated (file : Bytes) (size : Nat) :
    (file.take size ++ replicate (size - file.length) 0).length = size := by
  rw [length_append, length_take, length_replicate]
  omega

theorem Whole.truncate (h : s.Whole file) (hsize : size < 2 ^ 63)
    (hgen : s.inode.generation.toNat + 2 < 2 ^ 64) (hfresh : (s.truncate place size).fresh = true)
    (hun : (s.truncate place size).unshared = true) :
    (s.truncate place size).Whole (file.take size ++ replicate (size - file.length) 0) := by
  refine (h.inv.truncate hsize hgen hfresh hun).whole ?_
  rw [size_truncate, toNat_ofNat_size hsize, length_truncated]

theorem Inv.traverse_eq (h : s.Inv file) (hkept : s.KeysKept) :
    ∃ l, s.traverse = { s with dirtylist := l } := by
  have hsound := h.sound
  have hsize := h.size
  obtain hc | ⟨id, ids, hb⟩ := h
  · exact ⟨_, traverseList_done s.dirtylist.length hsound hsize hc.listed.done
      (hkept.closed hc.listed fun _ hid => hid)
      (show ∀ id ∈ [], (s.handlers id).status = .opened from nofun) (append_nil _).symm⟩
  · have hopened : ∀ j ∈ [id], (s.handlers j).status = .opened := by
      intro j hj
      rw [mem_singleton.mp hj]
      exact hb.opened
    exact ⟨_, traverseList_done s.dirtylist.length hsound hsize hb.listed.done
      (hkept.closed hb.listed fun j hj => hb.dirtylist ▸ mem_append_left _ hj) hopened
      hb.dirtylist⟩

theorem Whole.run (h : s.Whole file) (e : FileEvent) (he : Sheltered place (s, file) e) :
    (s.run place e).Whole (e.spec file) := by
  have hinv := h.inv.run e he
  obtain ⟨⟨hasked, hfresh⟩, hun, hkept⟩ := he
  cases e with
  | write data offset => exact (h.write hasked.1 hasked.2.1 hasked.2.2 hfresh hun).2
  | flush => exact (h.flush hfresh hun).1
  | truncate size => exact h.truncate hasked.1 hasked.2 hfresh hun
  | read data offset =>
    refine ⟨hinv, (wider_read s place data offset).covered h.covered, ?_⟩
    unfold ClientFile.run ClientFile.read at hfresh hun ⊢
    dsimp only at hfresh hun ⊢
    split at hfresh
    next hunknown =>
      rw [if_pos hunknown] at hun ⊢
      have hlater := (steps_later place).flush (s.flush place)
      obtain ⟨hw, -⟩ := h.flush (hlater.1 hfresh) (hlater.2 hun)
      exact (hw.flush hfresh hun).1.reaches
    next hknown =>
      rw [if_neg hknown] at hun ⊢
      exact (h.flush hfresh hun).1.reaches
  | deliver =>
    have hsame : (s.run place .deliver).inode = s.inode ∧
        (s.run place .deliver).extents = s.extents := by
      unfold ClientFile.run
      dsimp only
      split
      · exact ⟨rfl, rfl⟩
      next id _ => exact ⟨(sent_deliver place s id).inode, (sent_deliver place s id).extents⟩
    refine ⟨hinv, (wider_of_inode hsame.1 (Nat.le_of_eq (by rw [hsame.2]))).covered h.covered, ?_⟩
    unfold Reaches
    rw [hsame.1, hsame.2]
    exact h.reaches
  | tick =>
    obtain ⟨l, hl⟩ := h.inv.traverse_eq hkept
    change s.traverse.Inv file at hinv
    change s.traverse.Whole file
    rw [hl] at hinv ⊢
    exact ⟨hinv, { h.covered with }, h.reaches⟩

/-! ### A stream that is not level -/

theorem truncate_idle (place : Placement) (hnil : s.dirtylist = [])
    (hidle : ∀ id, s.handler = some id → ∃ k, (s.handlers id).Idle k) (size : Nat) :
    (s.truncate place size).inode = (s.inode.truncateKeys (ofNat size) s.inode.modifyTime).1 ∧
      (s.truncate place size).nodes = s.nodes ∧ (s.truncate place size).dirtylist = [] ∧
      (s.truncate place size).handler = none := by
  obtain ⟨t, ht, hi, hn, hd, hh⟩ : ∃ t, s.closeOpenHandler place = t ∧ t.inode = s.inode ∧
      t.nodes = s.nodes ∧ t.dirtylist = [] ∧ t.handler = none := by
    unfold ClientFile.closeOpenHandler
    split
    next hnone => exact ⟨s, rfl, rfl, rfl, hnil, hnone⟩
    rename_i id hid
    obtain ⟨k, hk⟩ := hidle id hid
    refine ⟨_, rfl, ?_⟩
    have hk' : ((s.setHandler id (s.handlers id).setClosed).handlers id).Idle k := by
      rw [setHandler_handlers]
      exact hk.setClosed
    dsimp only
    rw [flushHandler_idle hk']
    exact ⟨rfl, rfl, hnil, rfl⟩
  have hflush : t.flush place = t := by
    unfold ClientFile.flush
    rw [hd]
    rfl
  unfold ClientFile.truncate
  rw [ht, hflush]
  dsimp only
  rw [hi]
  split
  all_goals exact ⟨rfl, hn, hd, hh⟩

theorem Served.truncate {t : ClientFile} (h : s.Served file) (hsize : size < 2 ^ 63)
    (hi : t.inode = (s.inode.truncateKeys (ofNat size) s.inode.modifyTime).1)
    (hn : t.nodes = s.nodes) : t.Served (file.take size ++ replicate (size - file.length) 0) := by
  have hnat := toNat_ofNat_size hsize
  refine ⟨?_, ?_, by rw [length_truncated]; exact hsize⟩
  · rw [hn, hi]
    change Stored (s.inode.extents.truncate (ofNat size)) _ _ 0 0
    by_cases hle : file.length ≤ size
    · rw [truncate_of_le h.stored.sound fun k hk => by
        have := h.stored.ends k hk
        omega]
      exact h.stored.resize hle
    have hcut := h.stored.cut (ofNat size) (by omega)
    rw [hnat] at hcut
    rwa [show size - file.length = 0 by omega, replicate_zero, append_nil]
  · rw [hi, length_truncated]
    exact hnat

theorem Inv.getExtents (h : s.Inv file) (hgen : s.inode.generation ≠ 0) : s.getExtents = s := by
  unfold ClientFile.getExtents ExtentCache.update
  rw [if_pos (by rw [h.gen]; exact ⟨hgen, UInt64.le_refl _⟩)]

theorem Served.whole (h : s.Served file) (hl : s.isLoaded = true) : s.Whole file := by
  obtain ⟨hnone, hnil, hext⟩ := of_decide_eq_true hl
  have hinv : s.Inv file := Loaded.inv ⟨h.length ▸ hext, h.stored, h.small, hnone, hnil⟩
  exact (hinv.clean hnil).whole h.length

end ClientFile

namespace FileStream

open ClientFile (Served)

/-! ### Runs -/

variable {place : ClientFile.Placement} {s : FileStream} {file : Bytes} {offset : Nat}
  {data : Bytes} {sync : Bool} {c : ClientFile} {e : FileEvent}

def Permitted (place : ClientFile.Placement) (s : FileStream) (e : StreamEvent) : Prop :=
  s.client.inode.generation ≠ 0 ∧ s.client.inode.generation.toNat + 2 < 2 ^ 64 ∧
    match e with
    | .write offset data sync => (data ≠ [] ∧ data.length ≤ extentSize ∧
        offset + data.length < 2 ^ 63) ∧ (s.write place offset data sync).1.client.fresh = true
    | .call e => (s.before e).client.Asked e ∧ ((s.before e).client.run place e).fresh = true
    | .other inode nodes => s.client.inode.generation.toNat < inode.generation.toNat ∧
        ∃ file, Served { s.client with inode := inode, nodes := nodes } file
    | _ => True

def Orderly (place : ClientFile.Placement) (s : FileStream) (e : StreamEvent) : Prop :=
  s.Permitted place e ∧
    match e with
    | .reopen => s.client.dirtylist = []
    | .write offset data sync => (s.write place offset data sync).1.client.unshared = true ∧
        if s.allocates offset data then s.level = true ∨
          s.client.dirtylist = [] ∧ s.client.inode.size.toNat ≤ offset + data.length
        else s.load.level = true
    | .call e => ((s.before e).client.run place e).unshared = true ∧
        if (s.before e).level then (s.before e).client.Kept e
        else s.client.dirtylist = [] ∧ ∀ data offset, e ≠ .write data offset
    | _ => True

structure Good (s : FileStream) : Prop where
  whole : s.level = true → ∃ file, s.client.Whole file
  served : s.level = false → ∃ file, s.client.Served file
  idle : s.level = false → s.client.dirtylist = [] →
    ∀ id, s.client.handler = some id → ∃ k, (s.client.handlers id).Idle k

theorem good_of_whole (hl : s.level = true) (h : s.client.Whole file) : s.Good :=
  ⟨fun _ => ⟨file, h⟩, fun hf => Bool.noConfusion (hl.symm.trans hf),
    fun hf => Bool.noConfusion (hl.symm.trans hf)⟩

namespace Good

variable (h : s.Good)
include h

theorem settle : s.settle.Good := by
  unfold FileStream.settle
  cases hl : s.level with
  | true => exact good_of_whole rfl (h.whole hl).choose_spec
  | false =>
    obtain ⟨file, hs⟩ := h.served hl
    cases hloaded : s.client.isLoaded with
    | true => exact good_of_whole rfl (hs.whole hloaded)
    | false => exact ⟨nofun, fun _ => ⟨file, hs⟩, fun _ => h.idle hl⟩

section

variable (hgen : s.client.inode.generation ≠ 0)
include hgen

theorem getExtents (once : Bool) : Good { s with client := s.client.getExtents, once := once } := by
  cases hl : s.level with
  | true =>
    obtain ⟨file, hw⟩ := h.whole hl
    rw [hw.inv.getExtents hgen]
    exact good_of_whole rfl hw
  | false =>
    obtain ⟨file, hs⟩ := h.served hl
    exact ⟨nofun, fun _ => ⟨file, hs.stored, hs.length, hs.small⟩, fun _ => h.idle hl⟩

theorem load : s.load.Good := by
  unfold FileStream.load
  split
  · exact h
  · exact (h.getExtents hgen true).settle

theorem client_load (hl : s.level = true) : s.load.client = s.client ∧ s.load.level = true := by
  obtain ⟨file, hw⟩ := h.whole hl
  unfold FileStream.load FileStream.settle
  split
  · exact ⟨rfl, hl⟩
  refine ⟨hw.inv.getExtents hgen, ?_⟩
  dsimp only
  rw [hl]
  rfl

end

variable (hnil : s.client.dirtylist = [])
include hnil

theorem served_of_nil : ∃ file, s.client.Served file := by
  cases hl : s.level with
  | true =>
    obtain ⟨file, hw⟩ := h.whole hl
    exact ⟨file, (hw.inv.clean hnil).served hw.covered hw.reaches⟩
  | false => exact h.served hl

theorem idle_of_nil (id : Nat) (hid : s.client.handler = some id) :
    ∃ k, (s.client.handlers id).Idle k := by
  cases hl : s.level with
  | true =>
    obtain ⟨file, hw⟩ := h.whole hl
    obtain ⟨k, hk⟩ := (hw.inv.clean hnil).settled id hid
    exact ⟨k, hk.idle⟩
  | false => exact h.idle hl hnil id hid

theorem reopen : Good ⟨{ s.client with
      extents := ⟨0, 0, OrdTree.empty⟩, handler := none, dirtylist := [],
      dirty := false }, false, false⟩ := by
  obtain ⟨file, hs⟩ := h.served_of_nil hnil
  exact ⟨nofun, fun _ => ⟨file, hs.stored, hs.length, hs.small⟩, fun _ _ => nofun⟩

end Good

def Describes (s : FileStream) (file : Bytes) : Prop :=
  s.level = true ∧ s.client.Whole file ∨ s.client.dirtylist = [] ∧ s.client.Served file

theorem Describes.flush (h : s.Describes file) (hfresh : (s.client.flush place).fresh = true)
    (hun : (s.client.flush place).unshared = true) : (s.client.flush place).Served file := by
  obtain ⟨-, hw⟩ | ⟨hnil, hs⟩ := h
  · exact (hw.flush hfresh hun).2
  · unfold ClientFile.flush
    rw [hnil]
    exact hs

theorem load_rest (s : FileStream) : s.load.client.inode = s.client.inode ∧
    s.load.client.nodes = s.client.nodes ∧ s.load.client.dirtylist = s.client.dirtylist := by
  unfold FileStream.load
  split
  all_goals exact ⟨rfl, rfl, rfl⟩

theorem dirtylist_of_load (hl : s.level = false) (h : s.load.level = true) :
    s.client.dirtylist = [] := by
  unfold FileStream.load at h
  split at h
  · cases hl.symm.trans h
  unfold FileStream.settle at h
  dsimp only at h
  rw [hl, Bool.false_or] at h
  exact (of_decide_eq_true h).2.1

/-- `file'` has all that `file` has outside of the range from `a` to `b`. -/
def Frames (file file' : Bytes) (a b : Nat) : Prop :=
  file.length ≤ file'.length ∧ ∀ o < file.length, ¬ (a ≤ o ∧ o < b) → file'.getD o 0 = file.getD o 0

theorem frames_writeAt (file data : Bytes) (offset : Nat) :
    Frames file (writeAt file data offset) offset (offset + data.length) := by
  refine ⟨?_, fun o _ hout => ?_⟩
  · rw [length_writeAt]
    exact Nat.le_max_left ..
  · rw [getD_writeAt, if_neg hout]

theorem frames_truncate {size : Nat} (h : file.length ≤ size) (a b : Nat) :
    Frames file (file.take size ++ replicate (size - file.length) 0) a b := by
  refine ⟨?_, fun o ho _ => ?_⟩
  · rw [ClientFile.length_truncated]
    exact h
  · rw [take_of_length_le h]
    exact getD_append _ _ _ _ ho

structure Wrote (s : FileStream) (a b : Nat) (r : FileStream × Bool) : Prop where
  ok : r.2 = true
  good : r.1.Good
  frames : ∃ file file', s.Describes file ∧ r.1.Describes file' ∧ Frames file file' a b

theorem Good.allocate (h : s.Good) (hsmall : offset + data.length < 2 ^ 63)
    (hgen : s.client.inode.generation.toNat + 2 < 2 ^ 64) (hend : s.client.extents.size < offset)
    (hfresh : (s.client.truncate place (offset + data.length)).fresh = true)
    (hun : (s.client.truncate place (offset + data.length)).unshared = true)
    (hcond : s.level = true ∨
      s.client.dirtylist = [] ∧ s.client.inode.size.toNat ≤ offset + data.length) :
    s.Wrote offset (offset + data.length)
      ({ s with client := s.client.truncate place (offset + data.length) }, true) := by
  cases hl : s.level with
  | true =>
    obtain ⟨file, hw⟩ := h.whole hl
    have hlen := hw.inv.size
    have hw' := hw.truncate hsmall hgen hfresh hun
    exact ⟨rfl, good_of_whole rfl hw', file, _, .inl ⟨hl, hw⟩, .inl ⟨rfl, hw'⟩,
      frames_truncate (by omega) ..⟩
  | false =>
    obtain ⟨hnil, hle⟩ := hcond.resolve_left (by rw [hl]; exact Bool.noConfusion)
    obtain ⟨file, hs⟩ := h.served hl
    obtain ⟨hi, hn, hd, hnone⟩ := ClientFile.truncate_idle place hnil (h.idle hl hnil)
      (offset + data.length)
    have hs' := hs.truncate hsmall hi hn
    refine ⟨rfl, ⟨Bool.noConfusion, fun _ => ⟨_, hs'⟩, fun _ _ id hid => ?_⟩, file, _,
      .inr ⟨hnil, hs⟩,
      .inr ⟨hd, hs'⟩, frames_truncate (hs.length ▸ hle) ..⟩
    exact absurd (hnone.symm.trans hid) (Option.some_ne_none id).symm

theorem Good.write (h : s.Good) (he : s.Orderly place (.write offset data sync)) :
    s.Wrote offset (offset + data.length) (s.write place offset data sync) := by
  obtain ⟨⟨hgen, hnext, ⟨hne, hbig, hsmall⟩, hfresh⟩, hun, hcond⟩ := he
  unfold FileStream.write at hfresh hun ⊢
  by_cases halloc : s.allocates offset data = true
  · rw [if_pos halloc] at hfresh hun hcond ⊢
    exact h.allocate hsmall hnext (of_decide_eq_true halloc).1 hfresh hun hcond
  rw [if_neg halloc] at hfresh hun hcond ⊢
  dsimp only at hfresh hun ⊢
  obtain ⟨file, hw⟩ := (h.load hgen).whole hcond
  obtain ⟨r, hr⟩ : ∃ r, r = s.load.client.write place data offset := ⟨_, rfl⟩
  rw [← hr] at hfresh hun ⊢
  have hlater : ClientFile.Later r.1 (if r.2.2 && sync then r.1.flush place else r.1) := by
    split
    · exact (ClientFile.steps_later place).flush _
    · exact .refl _
  obtain ⟨hok, hw₁⟩ : r.2 = (data.length, true) ∧ r.1.Whole (writeAt file data offset) := by
    have hf := hlater.1 hfresh
    have hu := hlater.2 hun
    rw [hr] at hf hu ⊢
    exact hw.write hne hbig hsmall hf hu
  have hw₂ : (if r.2.2 && sync then r.1.flush place else r.1).Whole (writeAt file data offset) := by
    split at hfresh
    next hsync =>
      rw [if_pos hsync] at hun ⊢
      exact (hw₁.flush hfresh hun).1
    next hsync =>
      rw [if_neg hsync]
      exact hw₁
  refine ⟨congrArg Prod.snd hok, good_of_whole hcond hw₂, file, _, ?_, .inl ⟨hcond, hw₂⟩,
    frames_writeAt file data offset⟩
  cases hl : s.level with
  | true =>
    rw [(h.client_load hgen hl).1] at hw
    exact .inl ⟨hl, hw⟩
  | false =>
    have hnil := dirtylist_of_load hl hcond
    obtain ⟨hi, hn, hd⟩ := s.load_rest
    have hs := (hw.inv.clean (hd.trans hnil)).served hw.covered hw.reaches
    refine .inr ⟨hnil, ?_, ?_, hs.small⟩
    · rw [← hi, ← hn]
      exact hs.stored
    · rw [← hi]
      exact hs.length

theorem run_idle (hnil : c.dirtylist = [])
    (hidle : ∀ id, c.handler = some id → ∃ k, (c.handlers id).Idle k)
    (hwrite : ∀ data offset, e ≠ .write data offset) (htruncate : ∀ size, e ≠ .truncate size) :
    c.run place e = c := by
  have hflush : c.flush place = c := by
    unfold ClientFile.flush
    rw [hnil]
    rfl
  cases e with
  | write data offset => exact absurd rfl (hwrite data offset)
  | flush => exact hflush
  | truncate size => exact absurd rfl (htruncate size)
  | read data offset =>
    change (c.read place data offset).1 = c
    unfold ClientFile.read
    dsimp only
    rw [hflush]
    split
    · exact hflush
    · rfl
  | deliver =>
    unfold ClientFile.run
    dsimp only
    split
    · rfl
    next id hid =>
      obtain ⟨k, hk⟩ := hidle id hid
      unfold ClientFile.deliver
      simp only [hk.request]
  | tick =>
    change c.traverse = c
    unfold ClientFile.traverse
    rw [hnil]
    rfl

theorem Good.call (h : s.Good) (he : s.Orderly place (.call e)) :
    Good { s.before e with client := (s.before e).client.run place e } := by
  obtain ⟨⟨hgen, -, hasked, hfresh⟩, hun, hcond⟩ := he
  have hb : (s.before e).Good := by
    unfold FileStream.before
    split
    · exact h.load hgen
    · exact h
  have hnil : (s.before e).client.dirtylist = s.client.dirtylist := by
    unfold FileStream.before
    split
    · exact s.load_rest.2.2
    · rfl
  generalize s.before e = t at hb hnil hasked hfresh hun hcond ⊢
  cases hl : t.level with
  | true =>
    obtain ⟨file, hw⟩ := hb.whole hl
    rw [if_pos hl] at hcond
    exact good_of_whole hl (hw.run e ⟨⟨hasked, hfresh⟩, hun, hcond⟩)
  | false =>
    have hnot (ht : t.level = true) : False := Bool.noConfusion (hl.symm.trans ht)
    rw [if_neg hnot] at hcond
    have hd := hnil.trans hcond.1
    obtain ⟨file, hs⟩ := hb.served hl
    by_cases htrunc : ∃ size, e = .truncate size
    · obtain ⟨size, rfl⟩ := htrunc
      obtain ⟨hi, hn, -, hnone⟩ := ClientFile.truncate_idle place hd (hb.idle hl hd) size
      refine ⟨fun ht => (hnot ht).elim, fun _ => ⟨_, hs.truncate hasked.1 hi hn⟩,
        fun _ _ id hid => ?_⟩
      exact absurd (hnone.symm.trans hid) (Option.some_ne_none id).symm
    · rw [run_idle hd (hb.idle hl hd) hcond.2 fun size heq => htrunc ⟨size, heq⟩]
      exact hb

theorem Good.step (h : s.Good) {e : StreamEvent} {s' : FileStream} (he : s.Orderly place e)
    (hs : s.step place e = some s') : s'.Good := by
  unfold FileStream.step at hs
  cases e with
  | reopen =>
    cases hs
    exact (h.reopen he.2).settle
  | write offset data sync =>
    cases hs
    exact (h.write he).good.settle
  | call e =>
    cases hs
    exact (h.call he).settle
  | refresh =>
    cases hs
    exact (h.getExtents he.1.1 s.once).settle
  | loadFailed =>
    cases hs
    exact { h with }
  | other inode nodes =>
    cases hs
    obtain ⟨⟨-, -, -, file, hfile⟩, -⟩ := he
    exact ⟨nofun, fun _ => ⟨file, hfile⟩, fun _ => h.idle_of_nil⟩

structure Opened (s : FileStream) : Prop where
  level : s.level = false
  handler : s.client.handler = none
  served : ∃ file, s.client.Served file

/-- In a run that is orderly, a write makes the file no shorter and leaves what is outside of its
range. The file before is what a flush without the write would leave. -/
theorem write_keeps_rest {s₀ : FileStream} (h₀ : s₀.Opened)
    (h : Reach (step place) (Orderly place) s₀ s)
    (he : s.Orderly place (.write offset data sync)) (hf : s.Orderly place (.call .flush))
    (hfresh : ((s.write place offset data sync).1.client.flush place).fresh = true)
    (hun : ((s.write place offset data sync).1.client.flush place).unshared = true) :
    (s.write place offset data sync).2 = true ∧ (s.client.flush place).inode.size ≤
        ((s.write place offset data sync).1.client.flush place).inode.size ∧
      ∀ o < (s.client.flush place).inode.size.toNat, ¬ (offset ≤ o ∧ o < offset + data.length) →
        ((s.write place offset data sync).1.client.flush place).byteAt o =
          (s.client.flush place).byteAt o := by
  have hgood : s.Good := by
    refine h.invariant ?_ fun _ _ _ hs he hstep => hs.step he hstep
    exact ⟨fun ht => Bool.noConfusion (h₀.level.symm.trans ht), fun _ => h₀.served,
      fun _ _ id hid => absurd (h₀.handler.symm.trans hid) (Option.some_ne_none id).symm⟩
  obtain ⟨hok, -, file, file', hdesc, hdesc', hlen, hsame⟩ := hgood.write he
  have hs := hdesc.flush hf.1.2.2.2 hf.2.1
  have hs' := hdesc'.flush hfresh hun
  refine ⟨hok, ?_, fun o ho hout => ?_⟩
  · rw [le_iff_toNat_le, hs.length, hs'.length]
    exact hlen
  · rw [hs.length] at ho
    rw [hs'.byteAt (by omega), hs.byteAt ho]
    exact hsame o ho hout

/-! ### A file with one key -/

def oneKeyInode : Inode :=
  { InodeOf.new (OrdTree.empty.insert ⟨2, 1, 1, 0, 6, 0⟩) 5 0 0 with size := 8, generation := 3 }

def oneKeyNodes : Nodes := fun p e => if p = 1 ∧ e = 1 then [1, 2, 3, 4, 5, 6] else []

theorem served_oneKey (hi : c.inode = oneKeyInode) (hn : c.nodes = oneKeyNodes) :
    c.Served [0, 0, 1, 2, 3, 4, 5, 6] := by
  have hmem (k : ExtentKey) (hk : k ∈ oneKeyInode.extents.items) : k = ⟨2, 1, 1, 0, 6, 0⟩ :=
    mem_singleton.mp hk
  refine ⟨?_, by rw [hi]; rfl, by decide⟩
  rw [hi, hn]
  refine ⟨⟨⟨?_, ?_⟩, ?_⟩, ?_, ?_, ?_, fun _ _ => .inr (.inl (Nat.zero_le _)), ?_, ?_, ?_⟩
  · intro k hk
    rw [hmem k hk]
    decide
  · intro k hk d hd hlt
    rw [hmem k hk, hmem d hd] at hlt
    exact absurd hlt (Nat.lt_irrefl _)
  · intro k hk
    rw [hmem k hk]
    decide
  · intro k hk
    rw [hmem k hk]
    decide
  · intro k hk
    rw [hmem k hk]
    unfold ExtentKey.Within
    decide
  · intro k hk d hd hne
    exact absurd ((hmem k hk).trans (hmem d hd).symm) hne
  · intro k hk _ i hi hlt
    rw [hmem k hk] at hi hlt ⊢
    have hall : ∀ i < 8, 2 ≤ i → (oneKeyNodes 1 1).getD (0 + (i - 2)) 0 =
        getD [0, 0, 1, 2, 3, 4, 5, 6] i 0 := by decide
    exact hall i hlt hi
  · intro i hi _ hout
    have hall : ∀ i < 8, ¬ (2 ≤ i ∧ i < 8) →
        getD ([0, 0, 1, 2, 3, 4, 5, 6] : Bytes) i 0 = 0 := by decide
    exact hall i hi (hout ⟨2, 1, 1, 0, 6, 0⟩ (mem_singleton.mpr rfl))
  · intro k hk
    rw [hmem k hk]
    decide

def justOpened : FileStream where
  client := { ClientFile.empty with
    inode := oneKeyInode
    nodes := oneKeyNodes
    extents := ⟨0, 0, OrdTree.empty⟩ }
  once := false
  level := false

theorem opened_justOpened : justOpened.Opened := ⟨rfl, rfl, _, served_oneKey rfl rfl⟩

theorem write_keeps_rest_loaded : (justOpened.write ClientFile.newExtent 3 [9, 9] false).2 = true ∧
      ∀ o < 8, ¬ (3 ≤ o ∧ o < 5) →
        ((justOpened.write ClientFile.newExtent 3 [9, 9] false).1.client.flush
          ClientFile.newExtent).byteAt o = justOpened.client.byteAt o := by
  have hf : justOpened.Orderly ClientFile.newExtent (.call .flush) :=
    ⟨⟨by decide, by decide, trivial, rfl⟩, rfl, by rw [if_neg nofun]; exact ⟨rfl, nofun⟩⟩
  have hw : justOpened.Orderly ClientFile.newExtent (.write 3 [9, 9] false) :=
    ⟨⟨by decide, by decide, ⟨by decide, by decide, by decide⟩, by decide +kernel⟩,
      by decide +kernel, by decide +kernel⟩
  obtain ⟨hok, -, hrest⟩ := write_keeps_rest opened_justOpened .start hw hf (by decide +kernel)
    (by decide +kernel)
  exact ⟨hok, hrest⟩

/-- A zero that is written inside of a file whose keys are not loaded cuts the file behind it. And a
write by the keys of an older file takes the place of a key that reaches behind its range. -/
theorem write_removes_bytes :
    (justOpened.Opened ∧ justOpened.Permitted ClientFile.newExtent (.write 3 [0] false) ∧
      (justOpened.write ClientFile.newExtent 3 [0] false).2 = true ∧
      (justOpened.client.flush ClientFile.newExtent).inode.size = 8 ∧
      ((justOpened.write ClientFile.newExtent 3 [0] false).1.client.flush
        ClientFile.newExtent).inode.size = 4) ∧
    ∃ s₀ s, s₀.Opened ∧ Reach (step ClientFile.newExtent) (Permitted ClientFile.newExtent) s₀ s ∧
      s.Permitted ClientFile.newExtent (.write 0 [9, 9, 9] false) ∧
      (s.write ClientFile.newExtent 0 [9, 9, 9] false).2 = true ∧
      (s.client.flush ClientFile.newExtent).byteAt 5 = 4 ∧
      ((s.write ClientFile.newExtent 0 [9, 9, 9] false).1.client.flush
        ClientFile.newExtent).byteAt 5 = 0 := by
  constructor
  · exact ⟨opened_justOpened, ⟨by decide, by decide, ⟨by decide, by decide, by decide⟩, rfl⟩, rfl,
      rfl, by decide +kernel⟩
  · have hempty : ClientFile.empty.Served [] :=
      ⟨⟨ExtentsTree.sound_empty, nofun, nofun, nofun, nofun, nofun, nofun, nofun⟩, rfl, by decide⟩
    refine ⟨⟨ClientFile.empty, true, false⟩, _, ⟨rfl, rfl, [], hempty⟩,
      .next .start (e := .other oneKeyInode oneKeyNodes)
        ⟨by decide, by decide, by decide, _, served_oneKey rfl rfl⟩ rfl,
      ⟨by decide, by decide, ⟨by decide, by decide, by decide⟩, ?_⟩, ?_, ?_, ?_⟩
    all_goals decide +kernel

end FileStream
end ChubaoFS
