import ChubaoFS.Base.Maps
import ChubaoFS.TinyExtents

namespace ChubaoFS

open UInt64 (le_refl le_of_lt le_trans not_lt)

/-! The extents of a data partition on one replica: what is known of each of them in memory, the
files that hold them, and the largest id that was given out. -/

def minExtentID : UInt64 := 1024

def updateCrcInterval : Int64 := 600

def extentSizeLimit : Nat := blockSize * 1024

/-- What `extentInfoMap` says about an extent. -/
structure ExtentEntry where
  size : Nat
  isDeleted : Bool
  modifyTime : Int64
  deriving DecidableEq

structure ExtentFile where
  length : Nat
  modTime : Int64
  deriving DecidableEq

abbrev ExtentInfoMap := AList fun _ : UInt64 => ExtentEntry

abbrev ExtentFiles := AList fun _ : UInt64 => ExtentFile

structure ExtentStore where
  baseExtentID : UInt64
  extentInfoMap : ExtentInfoMap
  /-- The first eight bytes of `EXTENT_META`, if the file has them. -/
  baseOnDisk : Option UInt64
  files : ExtentFiles

/-- What the file system answers to `Create`: whether the file could be opened and whether the base
was written. -/
structure CreateOutcome where
  opened : Bool
  persisted : Bool
  deriving DecidableEq

/-- Ids are printed as signed integers when a file is made, so that the larger ones begin with a
minus sign: `RegexpExtentFile` does not know these names, and `MarkDelete` does not use them. -/
def hasDigitName (extentID : UInt64) : Bool := extentID < 9223372036854775808

namespace ExtentStore

variable {s s' : ExtentStore} {id i : UInt64} {now : Int64} {o : CreateOutcome}

def hasExtent (s : ExtentStore) (id : UInt64) : Bool := (s.extentInfoMap.lookup id).isSome

def live (s : ExtentStore) (id : UInt64) : Option ExtentEntry :=
  (s.extentInfoMap.lookup id).filter fun ei => !ei.isDeleted

def nextExtentID (s : ExtentStore) : UInt64 × ExtentStore :=
  (s.baseExtentID + 1, { s with baseExtentID := s.baseExtentID + 1 })

def updateBaseExtentID (s : ExtentStore) (id : UInt64) (persisted : Bool) : ExtentStore :=
  if isTinyExtent id then s
  else if s.baseExtentID ≤ id then
    { s with
      baseExtentID := id
      baseOnDisk := if persisted then some id else s.baseOnDisk }
  else s

/-- `none` stands for an error. -/
def create (s : ExtentStore) (id : UInt64) (now : Int64) (o : CreateOutcome) : Option ExtentStore :=
  if s.hasExtent id then none
  -- the file is opened with `O_EXCL`
  else if (s.files.lookup id).isSome || !o.opened then none
  else
    let ei : ExtentEntry := ⟨0, false, if isTinyExtent id then 0 else now⟩
    some (updateBaseExtentID
      { s with
        files := s.files.insert id ⟨0, now⟩
        extentInfoMap := s.extentInfoMap.insert id ei } id o.persisted)

/-- The watermark after a write that ends at `index`. -/
def dataSizeAfter (id : UInt64) (dataSize index : Nat) (isUpdateSize : Bool) : Nat :=
  if isTinyExtent id then if isUpdateSize then roundUp index else dataSize
  else max dataSize index

def accepts (id : UInt64) (offset size : Nat) : Bool :=
  if isTinyExtent id then offset + size < maxUint32
  else offset + size ≤ extentSizeLimit && offset < extentSizeLimit && size != 0 && size ≤ blockSize

/-- `none` stands for an error. -/
def write (s : ExtentStore) (id : UInt64) (offset size : Nat) (isUpdateSize : Bool) (now : Int64) :
    Option ExtentStore :=
  match s.live id, s.files.lookup id with
  | some ei, some f =>
    if accepts id offset size then
      some { s with
        files := s.files.insert id ⟨max f.length (offset + size), now⟩
        extentInfoMap := s.extentInfoMap.insert id
          { ei with
            size := dataSizeAfter id ei.size (offset + size) isUpdateSize
            modifyTime := if isTinyExtent id then ei.modifyTime else now } }
    else none
  | _, _ => none

/-- `removed` is what the file system answers. A tiny extent stays, only its pages are given
back. -/
def markDelete (s : ExtentStore) (id : UInt64) (now : Int64) (removed : Bool) : ExtentStore :=
  match s.live id with
  | none => s
  | some ei =>
    if isTinyExtent id then s
    else if hasDigitName id && (s.files.lookup id).isSome && removed then
      { s with
        files := s.files.erase id
        extentInfoMap := s.extentInfoMap.insert id
          { ei with
            isDeleted := true
            modifyTime := now } }
    else s

def expired (now : Int64) (ei : ExtentEntry) : Bool :=
  ei.isDeleted && decide (updateCrcInterval < now - ei.modifyTime)

/-- The first half of `autoComputeExtentCrc`: what was deleted long ago is forgotten. -/
def autoComputeExtentCrc (s : ExtentStore) (now : Int64) : ExtentStore :=
  let deleteExtents := s.extentInfoMap.entries.filter fun ei => expired now ei.2
  { s with extentInfoMap := deleteExtents.foldl (fun m ei => m.erase ei.1) s.extentInfoMap }

/-! Opening a store on the files that are there. -/

def restoreFromFS (id : UInt64) (f : ExtentFile) : ExtentEntry :=
  if isTinyExtent id then ⟨roundUp f.length, false, 0⟩ else ⟨f.length, false, f.modTime⟩

def loadedInfos (files : ExtentFiles) : ExtentInfoMap :=
  (files.entries.filter fun f => hasDigitName f.1).foldl
    (fun m f => m.insert f.1 (restoreFromFS f.1 f.2)) ∅

def largestID (base : UInt64) (files : ExtentFiles) : UInt64 :=
  (files.entries.filter fun f => hasDigitName f.1).foldl
    (fun base f => if !isTinyExtent f.1 && decide (base < f.1) then f.1 else base) base

def initBaseFileID (baseOnDisk : Option UInt64) (files : ExtentFiles) : ExtentStore :=
  let baseFileID := largestID (baseOnDisk.getD 0) files
  { baseExtentID := if baseFileID < minExtentID then minExtentID else baseFileID
    extentInfoMap := loadedInfos files
    baseOnDisk := baseOnDisk
    files := files }

@[irreducible] def initTinyExtent (s : ExtentStore) (now : Int64) : ExtentStore :=
  TinyExtents.ids.foldl (fun s id => (s.create id now ⟨true, true⟩).getD s) s

def newExtentStore (baseOnDisk : Option UInt64) (files : ExtentFiles) (now : Int64) : ExtentStore :=
  initTinyExtent (initBaseFileID baseOnDisk files) now

def restart (s : ExtentStore) (now : Int64) : ExtentStore := newExtentStore s.baseOnDisk s.files now

/-! Reports. -/

def normalExtentFilter (now : Int64) (id : UInt64) (ei : ExtentEntry) : Bool :=
  !isTinyExtent id && decide (updateCrcInterval < now - ei.modifyTime) && !ei.isDeleted &&
    decide (0 < ei.size)

/-- `GetAllWatermarks` with the filter of normal extents. -/
def getAllWatermarks (s : ExtentStore) (now : Int64) : List ExtentInfo :=
  (s.extentInfoMap.entries.filter fun ei => normalExtentFilter now ei.1 ei.2).map
    fun ei => ⟨ei.1, ei.2.size, ei.2.isDeleted⟩

def storeSize (s : ExtentStore) : UInt64 :=
  s.extentInfoMap.entries.foldl (fun totalSize ei => totalSize + UInt64.ofNat ei.2.size) 0

/-! What the operations do to one id. -/

variable (s)

@[simp] theorem updateBaseExtentID_extentInfoMap (id : UInt64) (persisted : Bool) :
    (s.updateBaseExtentID id persisted).extentInfoMap = s.extentInfoMap := by
  unfold updateBaseExtentID
  split
  · rfl
  · split <;> rfl

@[simp] theorem updateBaseExtentID_files (id : UInt64) (persisted : Bool) :
    (s.updateBaseExtentID id persisted).files = s.files := by
  unfold updateBaseExtentID
  split
  · rfl
  · split <;> rfl

variable {s}

theorem create_eq_some (h : s.create id now o = some s') :
    s.extentInfoMap.lookup id = none ∧ s.files.lookup id = none ∧ s' = updateBaseExtentID { s with
          files := s.files.insert id ⟨0, now⟩, extentInfoMap := s.extentInfoMap.insert id
            ⟨0, false, if isTinyExtent id then 0 else now⟩ } id o.persisted := by
  unfold create hasExtent at h
  split at h
  · cases h
  rename_i hmap
  split at h
  · cases h
  next hfile =>
    obtain ⟨hfile, -⟩ := not_or.mp (mt Bool.or_eq_true_iff.mpr hfile)
    exact ⟨Option.not_isSome_iff_eq_none.mp hmap, Option.not_isSome_iff_eq_none.mp hfile,
      (Option.some.inj h).symm⟩

theorem lookup_create (h : s.create id now o = some s') (hi : i ≠ id) :
    s'.extentInfoMap.lookup i = s.extentInfoMap.lookup i ∧
      s'.files.lookup i = s.files.lookup i := by
  obtain ⟨-, -, rfl⟩ := create_eq_some h
  simp only [updateBaseExtentID_extentInfoMap, updateBaseExtentID_files,
    AList.lookup_insert_ne hi, and_self]

theorem markDelete_cases (s : ExtentStore) (id : UInt64) (now : Int64) (removed : Bool) :
    s.markDelete id now removed = s ∨
      ∃ ei, s.live id = some ei ∧ isTinyExtent id = false ∧ hasDigitName id = true ∧
        s.markDelete id now removed = { s with
            files := s.files.erase id, extentInfoMap := s.extentInfoMap.insert id { ei with
                isDeleted := true, modifyTime := now } } := by
  unfold markDelete
  split
  · exact .inl rfl
  rename_i ei hei
  split
  · exact .inl rfl
  rename_i htiny
  split
  next h =>
    obtain ⟨⟨hname, -⟩, -⟩ := by simpa only [Bool.and_eq_true] using h
    exact .inr ⟨ei, hei, Bool.eq_false_of_not_eq_true htiny, hname, rfl⟩
  · exact .inl rfl

theorem write_eq_some {offset size : Nat} {isUpdateSize : Bool}
    (h : s.write id offset size isUpdateSize now = some s') :
    ∃ ei f, s.live id = some ei ∧ s.files.lookup id = some f ∧ s' = { s with
        files := s.files.insert id ⟨max f.length (offset + size), now⟩
        extentInfoMap := s.extentInfoMap.insert id { ei with
            size := dataSizeAfter id ei.size (offset + size) isUpdateSize
            modifyTime := if isTinyExtent id then ei.modifyTime else now } } := by
  unfold write at h
  split at h
  next ei f hei hf =>
    split at h
    · exact ⟨ei, f, hei, hf, (Option.some.inj h).symm⟩
    · cases h
  · cases h

theorem live_eq_some {ei : ExtentEntry} (h : s.live id = some ei) :
    s.extentInfoMap.lookup id = some ei ∧ ei.isDeleted = false := by
  obtain ⟨hlookup, hdel⟩ := Option.filter_eq_some_iff.mp h
  exact ⟨hlookup, by simpa using hdel⟩

/-! Opening a store again. -/

theorem lookup_loadedInfos (files : ExtentFiles) (id : UInt64) : (loadedInfos files).lookup id =
      ((files.lookup id).filter fun _ => hasDigitName id).map (restoreFromFS id) := by
  have hnodup : (files.entries.filter fun f => hasDigitName f.1).NodupKeys :=
    files.nodupKeys.sublist List.filter_sublist
  unfold loadedInfos
  rw [Maps.lookup_foldl_insert _ _ _ hnodup,
    Maps.dlookup_filter (fun id _ => hasDigitName id) _ files.nodupKeys]
  exact Option.or_none

theorem lookup_autoComputeExtentCrc (s : ExtentStore) (now : Int64) (id : UInt64) :
    (s.autoComputeExtentCrc now).extentInfoMap.lookup id =
      (s.extentInfoMap.lookup id).filter fun ei => !expired now ei := by
  dsimp only [autoComputeExtentCrc]
  rw [Maps.lookup_foldl_erase,
    Maps.dlookup_filter (fun _ ei => expired now ei) _ s.extentInfoMap.nodupKeys]
  change (if ((s.extentInfoMap.lookup id).filter _).isSome then none else _) = _
  cases s.extentInfoMap.lookup id with
  | none => rfl
  | some ei =>
    cases h : expired now ei with
    | true | false => simp [Option.filter, h]

theorem le_foldl_largest (l : List (Sigma fun _ : UInt64 => ExtentFile)) (base : UInt64) :
    base ≤ l.foldl (fun base f => if !isTinyExtent f.1 && decide (base < f.1) then f.1 else base)
        base ∧ ∀ f ∈ l, isTinyExtent f.1 = false →
        f.1 ≤ l.foldl (fun base f => if !isTinyExtent f.1 && decide (base < f.1) then f.1 else base)
          base := by
  induction l generalizing base with
  | nil => exact ⟨le_refl _, fun f hf => absurd hf List.not_mem_nil⟩
  | cons x l ih =>
    have hbase : base ≤ if !isTinyExtent x.1 && decide (base < x.1) then x.1 else base := by
      split
      next h => exact le_of_lt (of_decide_eq_true (Bool.and_eq_true_iff.mp h).2)
      · exact le_refl _
    obtain ⟨hle, hrest⟩ := ih (if !isTinyExtent x.1 && decide (base < x.1) then x.1 else base)
    refine ⟨le_trans hbase hle, fun f hf hnormal => ?_⟩
    obtain rfl | hf := List.mem_cons.mp hf
    · refine le_trans ?_ hle
      rw [hnormal]
      split
      · exact le_refl _
      next h => exact not_lt.mp fun hlt => h (by simp [hlt])
    · exact hrest f hf hnormal

theorem file_le_largestID {f : ExtentFile} {files : ExtentFiles} (base : UInt64)
    (hf : files.lookup id = some f) (hname : hasDigitName id = true)
    (hnormal : isTinyExtent id = false) : id ≤ largestID base files := by
  have hmem : ⟨id, f⟩ ∈ files.entries.filter fun f => hasDigitName f.1 :=
    List.mem_filter.mpr ⟨List.of_mem_dlookup hf, hname⟩
  exact (le_foldl_largest _ base).2 _ hmem hnormal

theorem largestID_le_initBaseFileID (baseOnDisk : Option UInt64) (files : ExtentFiles) :
    minExtentID ≤ (initBaseFileID baseOnDisk files).baseExtentID ∧
      largestID (baseOnDisk.getD 0) files ≤ (initBaseFileID baseOnDisk files).baseExtentID := by
  unfold initBaseFileID
  dsimp only
  split
  next h => exact ⟨le_refl _, le_of_lt h⟩
  next h => exact ⟨not_lt.mp h, le_refl _⟩

theorem isTinyExtent_of_mem_ids (h : id ∈ TinyExtents.ids) : isTinyExtent id = true :=
  List.all_eq_true.mp (by decide +kernel : TinyExtents.ids.all isTinyExtent = true) id h

structure SameNormal (s s' : ExtentStore) : Prop where
  base : s'.baseExtentID = s.baseExtentID
  disk : s'.baseOnDisk = s.baseOnDisk
  lookup : ∀ i, isTinyExtent i = false → s'.extentInfoMap.lookup i = s.extentInfoMap.lookup i
  file : ∀ i, isTinyExtent i = false → s'.files.lookup i = s.files.lookup i

theorem sameNormal_create (h : s.create id now o = some s') (hid : isTinyExtent id = true) :
    SameNormal s s' := by
  have hne : ∀ i, isTinyExtent i = false → i ≠ id := by
    rintro i hi rfl
    rw [hid] at hi
    cases hi
  refine ⟨?_, ?_, fun i hi => (lookup_create h (hne i hi)).1,
    fun i hi => (lookup_create h (hne i hi)).2⟩
  all_goals
    obtain ⟨-, -, rfl⟩ := create_eq_some h
    unfold updateBaseExtentID
    rw [if_pos hid]

variable (s) (now)

theorem sameNormal_initTinyExtent : SameNormal s (s.initTinyExtent now) := by
  unfold initTinyExtent
  refine List.foldlRecOn _ _ ⟨rfl, rfl, fun _ _ => rfl, fun _ _ => rfl⟩ fun t ht id hid => ?_
  cases hc : t.create id now ⟨true, true⟩ with
  | none => exact ht
  | some t' =>
    have h := sameNormal_create hc (isTinyExtent_of_mem_ids hid)
    exact ⟨h.base.trans ht.base, h.disk.trans ht.disk,
      fun i hi => (h.lookup i hi).trans (ht.lookup i hi),
      fun i hi => (h.file i hi).trans (ht.file i hi)⟩

theorem sameNormal_restart : SameNormal (initBaseFileID s.baseOnDisk s.files) (s.restart now) := by
  unfold restart newExtentStore
  exact sameNormal_initTinyExtent _ _

end ExtentStore
end ChubaoFS
