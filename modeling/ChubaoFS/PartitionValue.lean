import ChubaoFS.FsmEffect
import ChubaoFS.PartitionLoad

namespace ChubaoFS

open List OrdTree ExtentRefs
open InodeOf (cutLast)

/-! A meta partition by value. The partition in memory holds its inodes in cells and their extent
keys in a heap, and shares both with clones; what it stores is the trees by value. Here the
commands are stated on those trees, and the commands in memory are shown to follow them. -/

namespace ExtentsTree

def append (e : ExtentsTree) (ext : ExtentKey) : ExtentsTree × List ExtentKey :=
  let items := (e.ascendRange ext.key ext.fileEnd.toNat).filter fun d => !d.sameExtent ext
  ((items.foldl (fun e d => e.erase d.key) e).insert ext, items)

def size (e : ExtentsTree) : UInt64 :=
  match e.max? with
  | none => 0
  | some k => k.fileEnd

def cutLast (e : ExtentsTree) (length : UInt64) : ExtentsTree :=
  match e.max? with
  | none => e
  | some k =>
    if k.fileEnd > length then e.insert { k with size := (length - k.fileOffset).toUInt32 } else e

end ExtentsTree

namespace InodeOf

def appendStep (acc : Inode × List ExtentKey) (ext : ExtentKey) : Inode × List ExtentKey :=
  let (e, delItems) := ExtentsTree.append acc.1.extents ext
  let size := ExtentsTree.size e
  ({ acc.1 with extents := e, size := if acc.1.size < size then size else acc.1.size },
    acc.2 ++ delItems)

def appendKeys (i : Inode) (exts : List ExtentKey) (ct : Int64) : Inode × List ExtentKey :=
  let (i, items) := exts.foldl appendStep (i, [])
  ({ i with generation := i.generation + 1, modifyTime := ct }, items)

def truncateKeys (i : Inode) (length : UInt64) (ct : Int64) : Inode × List ExtentKey :=
  let delExtents := i.extents.ascendGreaterOrEqual (some length.toNat)
  ({ i with
      extents := ExtentsTree.cutLast (delExtents.foldl (fun e d => e.erase d.key) i.extents) length
      size := length
      modifyTime := ct
      generation := i.generation + 1 },
    delExtents)

end InodeOf

structure PartitionValue where
  endId : UInt64
  cursor : UInt64
  inodeTree : InodeTree
  dentryTree : DentryTree

namespace PartitionValue

def inode? (v : PartitionValue) (ino : UInt64) : Option Inode := v.inodeTree.get? ino.toNat

def alterInode (v : PartitionValue) (ino : UInt64) (f : Inode → Option Inode) : PartitionValue :=
  match v.inode? ino with
  | none => v
  | some i =>
    if i.shouldDelete then v
    else
      match f i with
      | none => { v with inodeTree := v.inodeTree.erase ino.toNat }
      | some i' => { v with inodeTree := v.inodeTree.insert i' }

def createInode (v : PartitionValue) (ino : Inode) : PartitionValue :=
  { v with
    cursor := if v.cursor < ino.inode then ino.inode else v.cursor
    inodeTree := if (v.inode? ino.inode).isSome then v.inodeTree else v.inodeTree.insert ino }

def unlinked (t : Int64) (i : Inode) : Option Inode :=
  let i' := ({ i with modifyTime := t }).decNLink
  if isDir i'.type && i'.isEmptyDir then none else some i'

def evicted (i : Inode) : Inode :=
  if (if isDir i.type then i.isEmptyDir else i.isTempFile) then i.setDeleteMark else i

def createDentry (v : PartitionValue) (dentry : Dentry) : PartitionValue :=
  match v.inode? dentry.parentId with
  | none => v
  | some parIno =>
    if !parIno.shouldDelete && isDir parIno.type && (v.dentryTree.get? dentry.key).isNone then
      { v with dentryTree := v.dentryTree.insert dentry }.alterInode dentry.parentId
        fun i => some i.incNLink
    else v

def deleteDentry (v : PartitionValue) (dentry : Dentry) : PartitionValue :=
  match v.dentryTree.get? dentry.key with
  | none => v
  | some _ =>
    { v with dentryTree := v.dentryTree.erase dentry.key }.alterInode dentry.parentId
      fun i => some i.decNLink

def updateDentry (v : PartitionValue) (dentry : Dentry) : PartitionValue :=
  match v.dentryTree.get? dentry.key with
  | none => v
  | some d => { v with dentryTree := v.dentryTree.insert { d with inode := dentry.inode } }

def apply (v : PartitionValue) : MetaPartition.Command → PartitionValue
  | .createInode ino => v.createInode ino
  | .unlinkInode ino => v.alterInode ino.inode (unlinked ino.modifyTime)
  | .createDentry dentry => v.createDentry dentry
  | .deleteDentry dentry => v.deleteDentry dentry
  | .updatePartition endId => { v with endId := endId }
  | .extentsAdd ino =>
    v.alterInode ino.inode fun i => some (i.appendKeys ino.extents.items ino.modifyTime).1
  | .storeTick => v
  | .updateDentry dentry => v.updateDentry dentry
  | .extentTruncate ino =>
    v.alterInode ino.inode fun i =>
      some (if isDir i.type then i else (i.truncateKeys ino.size ino.modifyTime).1)
  | .createLinkInode ino => v.alterInode ino.inode fun i => some i.incNLink
  | .evictInode ino => v.alterInode ino.inode fun i => some (evicted i)
  | .internalDeleteInode inos =>
    inos.foldl (fun v ino => { v with inodeTree := v.inodeTree.erase ino.toNat }) v
  | .setAttr req =>
    v.alterInode req.inode fun i => some (i.setAttr req.valid req.mode req.uid req.gid)

theorem ext_get? {v v' : PartitionValue} (he : v'.endId = v.endId) (hc : v'.cursor = v.cursor)
    (hi : ∀ k, v'.inodeTree.get? k = v.inodeTree.get? k) (hd : v'.dentryTree = v.dentryTree) :
    v' = v := by
  have ht := OrdTree.ext_get? hi
  cases v
  cases v'
  cases he
  cases hc
  cases ht
  cases hd
  rfl

end PartitionValue

open MetaPartition (storeInode)

/-! ### Extent keys behind references -/

def ExtentHeap.value (h : ExtentHeap) (r : ExtentRef) : ExtentKey := h.obj r.ref

def ExtentHeap.Holds (h : ExtentHeap) (r : ExtentRef) : Prop :=
  r.ref < h.next ∧ (h.obj r.ref).fileOffset = r.fileOffset

variable {h : ExtentHeap} {r : ExtentRef} {h' : ExtentHeap}

theorem ExtentHeap.Holds.key (hr : h.Holds r) : (h.value r).key = r.key :=
    congrArg UInt64.toNat hr.2

structure ExtentHeap.Keeps (h h' : ExtentHeap) : Prop where
  next : h.next ≤ h'.next
  offset : ∀ r < h.next, (h'.obj r).fileOffset = (h.obj r).fileOffset

theorem ExtentHeap.Keeps.holds (hk : h.Keeps h') (hr : h.Holds r) : h'.Holds r :=
  ⟨hr.1.trans_le hk.next, (hk.offset _ hr.1).trans hr.2⟩

theorem ExtentHeap.keeps_refl (h : ExtentHeap) : h.Keeps h := ⟨le_rfl, fun _ _ => rfl⟩

theorem ExtentHeap.keeps_setSize (h : ExtentHeap) (r : Nat) (size : UInt32) :
    h.Keeps (h.setSize r size) := by
  refine ⟨le_rfl, fun r' _ => ?_⟩
  unfold setSize
  dsimp only
  split
  next heq => rw [heq]
  · rfl

structure ExtentHeap.Allocated (h : ExtentHeap) (ks : List ExtentKey)
    (a : ExtentHeap × List ExtentRef) : Prop where
  next : h.next ≤ a.1.next
  old : ∀ r < h.next, a.1.obj r = h.obj r
  values : a.2.map a.1.value = ks
  fresh : ∀ r ∈ a.2, h.next ≤ r.ref ∧ a.1.Holds r

theorem ExtentHeap.allocated_allocAll (h : ExtentHeap) (ks : List ExtentKey) :
    h.Allocated ks (h.allocAll ks) := by
  induction ks generalizing h with
  | nil => exact ⟨le_rfl, fun _ _ => rfl, rfl, nofun⟩
  | cons k ks ih =>
    have hrest := ih (h.alloc k).1
    have hnext : h.next + 1 ≤ ((h.alloc k).1.allocAll ks).1.next := hrest.next
    have hobj : ((h.alloc k).1.allocAll ks).1.obj h.next = k :=
      (hrest.old h.next (Nat.lt_succ_self _)).trans (if_pos rfl)
    refine ⟨Nat.le_of_succ_le hnext, ?_, ?_, ?_⟩
    · intro r hr
      exact (hrest.old r (Nat.lt_succ_of_lt hr)).trans (if_neg (Nat.ne_of_lt hr))
    · exact congrArg₂ cons hobj hrest.values
    · intro r hr
      obtain rfl | hr := mem_cons.mp hr
      · exact ⟨le_rfl, hnext, congrArg ExtentKey.fileOffset hobj⟩
      · obtain ⟨hle, hh⟩ := hrest.fresh r hr
        exact ⟨Nat.le_of_succ_le hle, hh⟩

theorem ExtentHeap.Allocated.keeps {ks : List ExtentKey} {a : ExtentHeap × List ExtentRef}
    (ha : h.Allocated ks a) : h.Keeps a.1 :=
  ⟨ha.next, fun r hr => congrArg ExtentKey.fileOffset (ha.old r hr)⟩

def InodeOf.Held (h : ExtentHeap) (i : InodeCell) : Prop := ∀ r ∈ i.extents.items, h.Holds r

variable {i : InodeCell}

theorem InodeOf.Held.image (hi : i.Held h) :
    OrdTree.Image h.value i.extents (storeInode h i).extents :=
  image_foldl_insert h.value i.extents fun r hr => (hi r hr).key

theorem storeInode_of_image {e : ExtentsTree} (he : OrdTree.Image h.value i.extents e) :
    storeInode h i = { i with extents := e } := by
  have hi : OrdTree.Image h.value i.extents (storeInode h i).extents :=
    image_foldl_insert h.value i.extents he.keys
  exact congrArg (fun e : ExtentsTree => ({ i with extents := e } : Inode))
    (OrdTree.ext_items (hi.items.trans he.items.symm))

theorem storeInode_congr (heq : ∀ r ∈ i.extents.items, h'.obj r.ref = h.obj r.ref) :
    storeInode h' i = storeInode h i := by
  unfold storeInode
  congr 1
  apply foldl_ext
  intro e r hr
  rw [heq r hr]

/-! ### Appends and truncations -/

section Append

variable {h : ExtentHeap} {e : ExtentRefs} {e' : ExtentsTree}

theorem ExtentRefs.append_image (he : OrdTree.Image h.value e e') (hr : (h.value r).key = r.key) :
    OrdTree.Image h.value (append h e r).1 (ExtentsTree.append e' (h.value r)).1 ∧
      (append h e r).2.map h.value = (ExtentsTree.append e' (h.value r)).2 := by
  have hitems : (append h e r).2.map h.value = (ExtentsTree.append e' (h.value r)).2 := by
    unfold append ExtentsTree.append
    dsimp only
    rw [hr, he.ascendRange, filter_map]
    rfl
  refine ⟨?_, hitems⟩
  have hkeys (d : ExtentRef) (hd : d ∈ (append h e r).2) : (h.value d).key = d.key :=
    he.keys d (mem_of_mem_filter (mem_of_mem_filter hd))
  have hfold := (he.foldl_erase hkeys).insert hr
  rw [hitems] at hfold
  exact hfold

theorem ExtentRefs.size_image (he : OrdTree.Image h.value e e') :
    size h e = ExtentsTree.size e' := by
  unfold size ExtentsTree.size
  rw [he.max?]
  cases e.max? <;> rfl

theorem ExtentRefs.mem_append {x : ExtentRef} (hx : x ∈ (append h e r).1.items) :
    x = r ∨ x ∈ e.items := by
  obtain hx | ⟨hx, -⟩ := mem_insert.mp hx
  · exact .inl hx
  · exact .inr (MetaPartition.mem_of_mem_foldl_erase hx)

end Append

/-- One round of the loop of `AppendExtents`. -/
def InodeOf.appendRef (h : ExtentHeap) (acc : InodeCell × List ExtentRef) (ext : ExtentRef) :
    InodeCell × List ExtentRef :=
  let (e, delItems) := ExtentRefs.append h acc.1.extents ext
  let size := ExtentRefs.size h e
  ({ acc.1 with extents := e, size := if acc.1.size < size then size else acc.1.size },
    acc.2 ++ delItems)

theorem InodeOf.appendExtents_eq (h : ExtentHeap) (i : InodeCell) (exts : List ExtentRef)
    (ct : Int64) : i.appendExtents h exts ct = let (i, items) := exts.foldl (appendRef h) (i, [])
      ({ i with generation := i.generation + 1, modifyTime := ct }, items) := rfl

variable {h : ExtentHeap} {exts : List ExtentRef}

theorem InodeOf.foldl_appendRef (hexts : ∀ r ∈ exts, h.Holds r) (acc : InodeCell × List ExtentRef)
    (hacc : acc.1.Held h) :
    (exts.foldl (appendRef h) acc).1.Held h ∧ storeInode h (exts.foldl (appendRef h) acc).1 =
        ((exts.map h.value).foldl appendStep (storeInode h acc.1, acc.2.map h.value)).1 ∧
      (exts.foldl (appendRef h) acc).2.map h.value =
        ((exts.map h.value).foldl appendStep (storeInode h acc.1, acc.2.map h.value)).2 := by
  induction exts generalizing acc with
  | nil => exact ⟨hacc, rfl, rfl⟩
  | cons r exts ih =>
    have hr := hexts r (mem_cons_self ..)
    have him := hacc.image
    obtain ⟨happ, hdel⟩ := append_image him hr.key
    have hheld : (appendRef h acc r).1.Held h := by
      intro x hx
      obtain rfl | hx := mem_append hx
      · exact hr
      · exact hacc x hx
    have hone : (storeInode h (appendRef h acc r).1, (appendRef h acc r).2.map h.value) =
        appendStep (storeInode h acc.1, acc.2.map h.value) (h.value r) := by
      have hval : storeInode h (appendRef h acc r).1 = { (appendRef h acc r).1 with
            extents := (ExtentsTree.append (storeInode h acc.1).extents (h.value r)).1 } :=
        storeInode_of_image happ
      rw [hval]
      unfold appendRef appendStep
      dsimp only
      rw [size_image happ, map_append, hdel]
      rfl
    have hrest := ih (fun x hx => hexts x (mem_cons_of_mem r hx)) (appendRef h acc r) hheld
    rw [hone] at hrest
    exact hrest

variable {i : InodeCell}

theorem InodeOf.mem_appendExtents {ct : Int64}
    (hr : r ∈ (i.appendExtents h exts ct).1.extents.items) : r ∈ i.extents.items ∨ r ∈ exts := by
  have hfold (l : List ExtentRef) (acc : InodeCell × List ExtentRef)
      (hr : r ∈ (l.foldl (InodeOf.appendRef h) acc).1.extents.items) :
      r ∈ acc.1.extents.items ∨ r ∈ l := by
    induction l generalizing acc with
    | nil => exact .inl hr
    | cons x l ih =>
      obtain hr | hr := ih _ hr
      · obtain rfl | hr := mem_append hr
        · exact .inr (mem_cons_self ..)
        · exact .inl hr
      · exact .inr (mem_cons_of_mem x hr)
  exact hfold exts (i, []) hr

theorem InodeOf.key_appendKeys (i : Inode) (exts : List ExtentKey) (ct : Int64) :
    (i.appendKeys exts ct).1.key = i.key := by
  have hfold (acc : Inode × List ExtentKey) :
      (exts.foldl InodeOf.appendStep acc).1.inode = acc.1.inode := by
    induction exts generalizing acc with
    | nil => rfl
    | cons ext exts ih => exact ih (InodeOf.appendStep acc ext)
  exact congrArg UInt64.toNat (hfold (i, []))

theorem storeInode_appendExtents (ct : Int64) (hexts : ∀ r ∈ exts, h.Holds r) (hi : i.Held h) :
    storeInode h (i.appendExtents h exts ct).1 =
        ((storeInode h i).appendKeys (exts.map h.value) ct).1 ∧
      (i.appendExtents h exts ct).2.map h.value =
        ((storeInode h i).appendKeys (exts.map h.value) ct).2 := by
  obtain ⟨-, hv, hd⟩ := InodeOf.foldl_appendRef hexts (i, []) hi
  rw [InodeOf.appendExtents_eq]
  unfold InodeOf.appendKeys
  refine ⟨?_, hd⟩
  exact congrArg (fun j : Inode => { j with generation := j.generation + 1, modifyTime := ct }) hv

theorem ExtentHeap.keeps_cutLast (h : ExtentHeap) (e : ExtentRefs) (length : UInt64) :
    h.Keeps (cutLast h e length) := by
  unfold cutLast
  split
  · exact h.keeps_refl
  next r _ =>
    split
    · exact h.keeps_setSize _ _
    · exact h.keeps_refl

variable {e : ExtentRefs}

theorem ExtentHeap.obj_cutLast {length : UInt64} {r : Nat} (hr : ∀ x, e.max? = some x → x.ref ≠ r) :
    (cutLast h e length).obj r = h.obj r := by
  unfold cutLast
  split
  · rfl
  next x hx =>
    split
    · exact if_neg (Ne.symm (hr x hx))
    · rfl

theorem ExtentRefs.eq_of_ref (he : ∀ r ∈ e.items, h.Holds r) {r' : ExtentRef} (hr : r ∈ e.items)
    (hr' : r' ∈ e.items) (heq : r.ref = r'.ref) : r = r' := by
  apply eq_of_mem_of_key hr hr'
  rw [← (he r hr).key, ← (he r' hr').key, ExtentHeap.value, ExtentHeap.value, heq]

theorem ExtentRefs.cutLast_image {e' : ExtentsTree} (hh : ∀ r ∈ e.items, h.Holds r)
    (he : OrdTree.Image h.value e e') (length : UInt64) :
    OrdTree.Image (cutLast h e length).value e (ExtentsTree.cutLast e' length) := by
  unfold cutLast ExtentsTree.cutLast
  rw [he.max?]
  cases hm : e.max? with
  | none => exact he
  | some r =>
    have hr := mem_of_max? hm
    dsimp only [Option.map_some]
    by_cases hlen : (h.value r).fileEnd > length
    · rw [if_pos hlen]
      rw [ExtentHeap.value] at hlen
      rw [if_pos hlen]
      have hcut : (h.setSize r.ref (length - (h.obj r.ref).fileOffset).toUInt32).value r =
          { h.value r with size := (length - (h.value r).fileOffset).toUInt32 } := if_pos rfl
      rw [← hcut]
      refine he.replace hr ?_ ?_
      · intro x hx hne
        exact if_neg fun heq => hne (eq_of_ref hh hx hr heq)
      · rw [hcut]
        exact he.keys r hr
    rw [if_neg hlen]
    rw [ExtentHeap.value] at hlen
    rw [if_neg hlen]
    exact he

theorem storeInode_extentsTruncate (hi : i.Held h) (length : UInt64) (ct : Int64) :
    let del := i.extents.ascendGreaterOrEqual (some length.toNat)
    let i' := i.extentsTruncate del length ct
    storeInode (cutLast h i'.extents length) i' = ((storeInode h i).truncateKeys length ct).1 ∧
      del.map h.value = ((storeInode h i).truncateKeys length ct).2 := by
  intro del i'
  have hdel : del.map h.value = ((storeInode h i).truncateKeys length ct).2 :=
    (hi.image.ascendGreaterOrEqual length.toNat).symm
  refine ⟨?_, hdel⟩
  have hkeys (d : ExtentRef) (hd : d ∈ del) : (h.value d).key = d.key :=
    hi.image.keys d (mem_of_mem_filter hd)
  have herase := hi.image.foldl_erase hkeys
  rw [hdel] at herase
  have hheld (r : ExtentRef) (hr : r ∈ i'.extents.items) : h.Holds r :=
    hi r (MetaPartition.mem_of_mem_foldl_erase hr)
  exact storeInode_of_image (cutLast_image hheld herase length)

end ChubaoFS
