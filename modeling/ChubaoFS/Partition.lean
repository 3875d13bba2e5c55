import ChubaoFS.Base.ObjTree
import ChubaoFS.Inode

namespace ChubaoFS

/-! Extent keys in memory are shared between the copies of an inode, so an inode holds
references to them. The file offset of a key never changes. -/

structure ExtentRef where
  fileOffset : UInt64
  ref : Nat
  deriving DecidableEq, Inhabited

def ExtentRef.key (r : ExtentRef) : Nat := r.fileOffset.toNat

abbrev ExtentRefs := OrdTree ExtentRef ExtentRef.key

abbrev InodeCell := InodeOf ExtentRefs

structure ExtentHeap where
  obj : Nat → ExtentKey
  next : Nat

namespace ExtentHeap

def empty : ExtentHeap := ⟨fun _ => default, 0⟩

def alloc (h : ExtentHeap) (k : ExtentKey) : ExtentHeap × ExtentRef :=
  (⟨fun r => if r = h.next then k else h.obj r, h.next + 1⟩, ⟨k.fileOffset, h.next⟩)

def allocAll (h : ExtentHeap) : List ExtentKey → ExtentHeap × List ExtentRef
  | [] => (h, [])
  | k :: ks =>
    let (h, r) := h.alloc k
    let (h, rs) := allocAll h ks
    (h, r :: rs)

def setSize (h : ExtentHeap) (r : Nat) (size : UInt32) : ExtentHeap :=
  { h with obj := fun r' => if r' = r then { h.obj r with size := size } else h.obj r' }

end ExtentHeap

namespace ExtentRefs

def append (h : ExtentHeap) (e : ExtentRefs) (key : ExtentRef) : ExtentRefs × List ExtentRef :=
  let ext := h.obj key.ref
  let delItems := e.ascendRange key.key ext.fileEnd.toNat
  let items := delItems.filter fun d => !(h.obj d.ref).sameExtent ext
  ((items.foldl (fun e d => e.erase d.key) e).insert key, items)

def size (h : ExtentHeap) (e : ExtentRefs) : UInt64 :=
  match e.max? with
  | none => 0
  | some r => (h.obj r.ref).fileEnd

end ExtentRefs

namespace InodeOf

def appendExtents (h : ExtentHeap) (i : InodeCell) (exts : List ExtentRef) (ct : Int64) :
    InodeCell × List ExtentRef :=
  let step := fun (acc : InodeCell × List ExtentRef) (ext : ExtentRef) =>
    let (e, delItems) := ExtentRefs.append h acc.1.extents ext
    let size := ExtentRefs.size h e
    ({ acc.1 with extents := e, size := if acc.1.size < size then size else acc.1.size },
      acc.2 ++ delItems)
  let (i, items) := exts.foldl step (i, [])
  ({ i with generation := i.generation + 1, modifyTime := ct }, items)

/-- Drop the given extents, then cut the last one that is left at `length`. -/
def extentsTruncate (i : InodeCell) (exts : List ExtentRef) (length : UInt64) (ct : Int64) :
    InodeCell :=
  { i with
    extents := exts.foldl (fun e d => e.erase d.key) i.extents
    size := length
    modifyTime := ct
    generation := i.generation + 1 }

def cutLast (h : ExtentHeap) (e : ExtentRefs) (length : UInt64) : ExtentHeap :=
  match e.max? with
  | none => h
  | some r =>
    if (h.obj r.ref).fileEnd > length then
      h.setSize r.ref (length - (h.obj r.ref).fileOffset).toUInt32
    else h

def touch (t : Int64) (i : InodeCell) : InodeCell := { i with accessTime := t }

theorem key_touch (t : Int64) (i : InodeCell) : (i.touch t).key = i.key := rfl

def unlink (t : Int64) (i : InodeCell) : InodeCell := ({ i with modifyTime := t }).decNLink

section

variable (t : Int64) (i : InodeCell)

@[simp] theorem key_unlink : (i.unlink t).key = i.key := by
  simp [unlink, key]

@[simp] theorem type_unlink : (i.unlink t).type = i.type := by
  simp [unlink]

@[simp] theorem shouldDelete_unlink : (i.unlink t).shouldDelete = i.shouldDelete :=
  shouldDelete_decNLink { i with modifyTime := t }

@[simp] theorem extents_unlink : (i.unlink t).extents = i.extents := by
  simp [unlink]

end

variable {i : InodeCell}

theorem toNat_unlink_file {t : Int64} (h : isDir i.type = false) :
    (i.unlink t).nLink.toNat = i.nLink.toNat - 1 :=
  toNat_decNLink_file h

theorem toNat_unlink_dir {t : Int64} (h : isDir i.type = true) :
    (i.unlink t).nLink.toNat = if 2 < i.nLink.toNat then i.nLink.toNat - 1 else i.nLink.toNat :=
  toNat_decNLink_dir h

def SameLinks (i j : InodeCell) : Prop :=
  j.inode = i.inode ∧ j.type = i.type ∧ j.nLink = i.nLink ∧ j.flag = i.flag

theorem sameLinks_appendExtents (h : ExtentHeap) (i : InodeCell) (exts : List ExtentRef)
    (ct : Int64) : i.SameLinks (i.appendExtents h exts ct).1 := by
  have hfold (l : List ExtentRef) (acc : InodeCell × List ExtentRef) :
      acc.1.SameLinks (l.foldl (fun (acc : InodeCell × List ExtentRef) (ext : ExtentRef) =>
        let (e, delItems) := ExtentRefs.append h acc.1.extents ext
        let size := ExtentRefs.size h e
        (({ acc.1 with extents := e, size := if acc.1.size < size then size else acc.1.size } :
          InodeCell), acc.2 ++ delItems)) acc).1 := by
    induction l generalizing acc with
    | nil => exact ⟨rfl, rfl, rfl, rfl⟩
    | cons ext l ih =>
      rw [List.foldl_cons]
      exact ih _
  exact hfold exts (i, [])

theorem sameLinks_extentsTruncate (i : InodeCell) (exts : List ExtentRef) (length : UInt64)
    (ct : Int64) : i.SameLinks (i.extentsTruncate exts length ct) := ⟨rfl, rfl, rfl, rfl⟩

end InodeOf

/-- What is to be stored: clones of the trees, still read through their cells, or the trees
themselves. -/
inductive StoreMsg
  | clone (inodeTree : OrdTree (Nat × Nat) Prod.fst) (dentryTree : DentryTree)
  | live

/-- A replica of a meta partition in memory. The free list and the clones point to inode cells;
`shared` are the cells that nodes from before the last clone of the tree hold. -/
structure MetaPartition where
  start : UInt64
  endId : UInt64
  cursor : UInt64
  inodeTree : ObjTree InodeCell InodeOf.key
  dentryTree : DentryTree
  exts : ExtentHeap
  freeList : List Nat
  extDelCh : List Nat
  shared : List Nat
  storeChan : List StoreMsg

namespace MetaPartition

def new (start endId : UInt64) : MetaPartition where
  start := start
  endId := endId
  cursor := start
  inodeTree := ObjTree.empty
  dentryTree := OrdTree.empty
  exts := ExtentHeap.empty
  freeList := []
  extDelCh := []
  shared := []
  storeChan := []

def inode? (mp : MetaPartition) (ino : UInt64) : Option InodeCell := mp.inodeTree.get? ino.toNat

def updateInode (mp : MetaPartition) (ino : UInt64) (f : InodeCell → InodeCell)
    (hf : ∀ i, (f i).key = i.key) : MetaPartition :=
  { mp with inodeTree := mp.inodeTree.update ino.toNat f hf }

def insertInode (mp : MetaPartition) (i : InodeCell) : MetaPartition :=
  { mp with inodeTree := mp.inodeTree.insert i }

def deleteInode (mp : MetaPartition) (ino : UInt64) : MetaPartition :=
  { mp with inodeTree := mp.inodeTree.erase ino.toNat }

def pushFree (mp : MetaPartition) (p : Nat) : MetaPartition :=
  { mp with freeList := mp.freeList ++ [p] }

def load (h : ExtentHeap) (i : Inode) : ExtentHeap × InodeCell :=
  let (h, refs) := h.allocAll i.extents.items
  (h, { i with extents := refs.foldl OrdTree.insert OrdTree.empty })

end MetaPartition
end ChubaoFS
