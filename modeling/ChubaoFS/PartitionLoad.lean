import ChubaoFS.FsmCases
import ChubaoFS.SnapshotTransfer

namespace ChubaoFS

open List ObjTree

/-! A partition that is loaded from its snapshot files, or that takes over a snapshot. -/

namespace MetaPartition

def idOf (mp : MetaPartition) (p : Nat) : UInt64 := (mp.inodeTree.cell p).inode

def allocInode (mp : MetaPartition) (i : InodeCell) : MetaPartition :=
  { mp with inodeTree := mp.inodeTree.alloc i }

def loadInode (mp : MetaPartition) (ino : Inode) : MetaPartition :=
  let (exts, cell) := load mp.exts ino
  let mp' :=
    match mp.inode? ino.inode with
    | none => { mp with exts := exts }.insertInode cell
    | some _ => { mp with exts := exts }.allocInode cell
  let mp' := if !isDir ino.type && ino.shouldDelete then mp'.pushFree mp.inodeTree.next else mp'
  { mp' with cursor := if mp'.cursor < ino.inode then ino.inode else mp'.cursor }

def storeInode (h : ExtentHeap) (i : InodeCell) : Inode :=
  { i with extents := i.extents.items.foldl (fun e r => e.insert (h.obj r.ref)) OrdTree.empty }

end MetaPartition

structure SnapshotFiles where
  inodeTree : InodeTree
  dentryTree : DentryTree

namespace MetaPartition

def storeInodes (mp : MetaPartition) (index : OrdTree (Nat × Nat) Prod.fst) : InodeTree :=
  index.items.foldl (fun t e => t.insert (storeInode mp.exts (mp.inodeTree.cell e.2)))
    OrdTree.empty

def store (mp : MetaPartition) : StoreMsg → SnapshotFiles
  | .clone index dentryTree => ⟨mp.storeInodes index, dentryTree⟩
  | .live => ⟨mp.storeInodes mp.inodeTree.index, mp.dentryTree⟩

def blank (mp : MetaPartition) (dentryTree : DentryTree) : MetaPartition :=
  { mp with
    cursor := mp.start
    inodeTree := mp.inodeTree.clear
    dentryTree := dentryTree
    freeList := []
    extDelCh := []
    shared := []
    storeChan := [] }

def loadFiles (mp : MetaPartition) (files : SnapshotFiles) : MetaPartition :=
  files.inodeTree.items.foldl loadInode (mp.blank files.dentryTree)

def installInode (mp : MetaPartition) (ino : Inode) : MetaPartition :=
  let (exts, cell) := load mp.exts ino
  { mp with exts := exts }.insertInode cell

def dropTrees (mp : MetaPartition) (cursor : UInt64) (dentryTree : DentryTree) : MetaPartition :=
  let frozen := mp.storeChan.map fun
    | .live => .clone mp.inodeTree.index mp.dentryTree
    | msg => msg
  { mp with
    cursor := cursor
    inodeTree := mp.inodeTree.clear
    dentryTree := dentryTree
    shared := []
    storeChan := frozen ++ [.live] }

/-- The end of `ApplySnapshot`: what was received takes the place of the trees. -/
def installSnapshot (mp : MetaPartition) (image : PartitionImage) : MetaPartition :=
  image.inodeTree.items.foldl installInode (mp.dropTrees image.cursor image.dentryTree)

variable {mp : MetaPartition} {ino : Inode} {p : Nat}

theorem idOf_of_grows {mp' : MetaPartition} (h : mp.inodeTree.Grows mp'.inodeTree)
    (hp : p < mp.inodeTree.next) : mp'.idOf p = mp.idOf p :=
  UInt64.toNat_inj.mp (h.2 p hp)

theorem inode?_idOf (h : mp.inodeTree.addr? (mp.idOf p).toNat = some p) :
    mp.inode? (mp.idOf p) = some (mp.inodeTree.cell p) :=
  inode?_eq_some_iff.mpr ⟨p, h, rfl⟩

theorem loadInode_new (h : mp.inode? ino.inode = none) :
    (mp.loadInode ino).inodeTree = mp.inodeTree.insert (load mp.exts ino).2 ∧
      (mp.loadInode ino).freeList = if !isDir ino.type && ino.shouldDelete then
        mp.freeList ++ [mp.inodeTree.next] else mp.freeList := by
  unfold loadInode
  dsimp only
  rw [h]
  dsimp only
  split
  all_goals exact ⟨rfl, rfl⟩

/-- A partition that has read `read` from the file. -/
structure Loaded (read : List Inode) (mp : MetaPartition) : Prop where
  own : ∀ p ∈ mp.freeList, mp.inodeTree.addr? (mp.idOf p).toNat = some p ∧
    (mp.inodeTree.cell p).shouldDelete = true
  nodup : (mp.freeList.map mp.idOf).Nodup
  source : ∀ ino i, mp.inode? ino = some i → ∃ j ∈ read, j.inode = ino ∧ i.type = j.type ∧
    i.nLink = j.nLink ∧ i.flag = j.flag
  queued : ∀ ino i, mp.inode? ino = some i → isDir i.type = false → i.shouldDelete = true →
    ino ∈ mp.freeList.map mp.idOf

theorem Loaded.loadInode {read : List Inode} (h : Loaded read mp)
    (hnew : ∀ j ∈ read, j.inode ≠ ino.inode) : Loaded (read ++ [ino]) (mp.loadInode ino) := by
  have hnone : mp.inode? ino.inode = none := by
    cases hi : mp.inode? ino.inode with
    | none => rfl
    | some i =>
      obtain ⟨j, hj, hid, -⟩ := h.source _ i hi
      exact absurd hid (hnew j hj)
  obtain ⟨ht, hl⟩ := loadInode_new hnone
  have hgrow : mp.inodeTree.Grows (mp.loadInode ino).inodeTree := by
    rw [ht]
    exact grows_insert _ _
  have hlt (p : Nat) (hp : p ∈ mp.freeList) : p < mp.inodeTree.next := addr?_lt_next (h.own p hp).1
  have hkey : InodeOf.key (load mp.exts ino).2 = ino.inode.toNat := rfl
  have hget (x : UInt64) : (mp.loadInode ino).inode? x =
      if x = ino.inode then some (load mp.exts ino).2 else mp.inode? x := by
    unfold inode?
    rw [ht, get?_insert, hkey]
    simp only [UInt64.toNat_inj]
  have hcell : (mp.loadInode ino).inodeTree.cell mp.inodeTree.next = (load mp.exts ino).2 := by
    rw [ht]
    exact if_pos rfl
  have hidNext : (mp.loadInode ino).idOf mp.inodeTree.next = ino.inode := by
    unfold idOf
    rw [hcell]
    rfl
  have hids : mp.freeList.map (mp.loadInode ino).idOf = mp.freeList.map mp.idOf :=
    map_congr_left fun p hp => idOf_of_grows hgrow (hlt p hp)
  have hfree : ino.inode ∉ mp.freeList.map mp.idOf := by
    intro hmem
    obtain ⟨p, hp, hid⟩ := mem_map.mp hmem
    have hi := inode?_idOf (h.own p hp).1
    rw [hid, hnone] at hi
    cases hi
  have hmap : (mp.loadInode ino).freeList.map (mp.loadInode ino).idOf =
      if !isDir ino.type && ino.shouldDelete then mp.freeList.map mp.idOf ++ [ino.inode]
      else mp.freeList.map mp.idOf := by
    rw [hl]
    split
    · rw [map_append, hids, map_singleton, hidNext]
    · exact hids
  constructor
  · intro p hp
    rw [hl] at hp
    have hold (hp : p ∈ mp.freeList) :
        (mp.loadInode ino).inodeTree.addr? ((mp.loadInode ino).idOf p).toNat = some p ∧
          ((mp.loadInode ino).inodeTree.cell p).shouldDelete = true := by
      have hne : (mp.idOf p).toNat ≠ ino.inode.toNat := by
        rw [Ne, UInt64.toNat_inj]
        intro heq
        exact hfree (mem_map.mpr ⟨p, hp, heq⟩)
      rw [idOf_of_grows hgrow (hlt p hp), ht, addr?_insert, hkey, if_neg hne,
        cell_insert_of_lt _ _ (hlt p hp)]
      exact h.own p hp
    split at hp
    next hmark =>
      obtain hp | hp := mem_append.mp hp
      · exact hold hp
      · obtain rfl := mem_singleton.mp hp
        have hd : ino.shouldDelete = true := by
          simp only [Bool.and_eq_true] at hmark
          exact hmark.2
        refine ⟨?_, ?_⟩
        · rw [hidNext, ht, addr?_insert, hkey, if_pos rfl]
        · rw [hcell]
          exact hd
    · exact hold hp
  · rw [hmap]
    split
    · exact nodup_append.mpr ⟨h.nodup, nodup_singleton _, fun x hx y hy heq => by
      rw [mem_singleton.mp hy] at heq
      exact hfree (heq ▸ hx)⟩
    · exact h.nodup
  · intro x i hi
    rw [hget] at hi
    split at hi
    next hx =>
      obtain rfl := Option.some.inj hi
      exact ⟨ino, mem_append_right _ (mem_singleton.mpr rfl), hx.symm, rfl, rfl, rfl⟩
    · obtain ⟨j, hj, hrest⟩ := h.source x i hi
      exact ⟨j, mem_append_left _ hj, hrest⟩
  · intro x i hi hdir hmark
    rw [hget] at hi
    rw [hmap]
    split at hi
    next hx =>
      obtain rfl := Option.some.inj hi
      have hdir' : isDir ino.type = false := hdir
      have hmark' : ino.shouldDelete = true := hmark
      rw [if_pos (by rw [hdir', hmark']; rfl), hx]
      exact mem_append_right _ (mem_singleton.mpr rfl)
    have hq := h.queued x i hi hdir hmark
    split
    · exact mem_append_left _ hq
    · exact hq

theorem Loaded.foldl (read : List Inode) {rest : List Inode} (h : Loaded read mp)
    (hs : (read ++ rest).Pairwise fun i j => i.key < j.key) :
    Loaded (read ++ rest) (rest.foldl MetaPartition.loadInode mp) := by
  induction rest generalizing read mp with
  | nil =>
    rw [append_nil]
    exact h
  | cons ino rest ih =>
    have hnew (j : Inode) (hj : j ∈ read) : j.inode ≠ ino.inode := by
      intro heq
      have hlt := (pairwise_append.mp hs).2.2 j hj ino (mem_cons_self ..)
      unfold InodeOf.key at hlt
      rw [heq] at hlt
      omega
    have hsplit : read ++ ino :: rest = (read ++ [ino]) ++ rest := by simp
    rw [hsplit] at hs ⊢
    exact ih _ (h.loadInode hnew) hs

variable (mp)

section

variable (files : SnapshotFiles)

theorem loaded_loadFiles : Loaded files.inodeTree.items (mp.loadFiles files) := by
  unfold loadFiles
  refine Loaded.foldl [] ⟨nofun, nodup_nil, ?_, ?_⟩ files.inodeTree.sorted
  all_goals
    intro ino i hi
    cases hi

theorem grows_loadFiles : mp.inodeTree.Grows (mp.loadFiles files).inodeTree := by
  have hone (mp : MetaPartition) (ino : Inode) :
      mp.inodeTree.Grows (mp.loadInode ino).inodeTree := by
    unfold loadInode
    dsimp only
    cases mp.inode? ino.inode with
    | none =>
      dsimp only
      split <;> exact grows_insert _ _
    | some i =>
      dsimp only
      split <;> exact grows_alloc _ _
  have hall (l : List Inode) (mp : MetaPartition) :
      mp.inodeTree.Grows (l.foldl loadInode mp).inodeTree := by
    induction l generalizing mp with
    | nil => exact grows_refl _
    | cons ino l ih => exact (hone mp ino).trans (ih _)
  exact (grows_clear mp.inodeTree).trans (hall _ (mp.blank files.dentryTree))

end

variable {mp}

theorem foldl_installInode (l : List Inode) (mp : MetaPartition) :
    mp.inodeTree.Grows (l.foldl installInode mp).inodeTree ∧
      (l.foldl installInode mp).freeList = mp.freeList ∧
      ∀ ino i, (l.foldl installInode mp).inode? ino = some i →
        mp.inode? ino = some i ∨ ∃ j ∈ l, j.inode = ino ∧ ∃ h, i = (load h j).2 := by
  induction l generalizing mp with
  | nil => exact ⟨grows_refl _, rfl, fun ino i hi => .inl hi⟩
  | cons j l ih =>
    obtain ⟨hg, hl, hi⟩ := ih (mp.installInode j)
    refine ⟨(grows_insert _ _).trans hg, hl, ?_⟩
    intro ino i hino
    obtain hold | ⟨j', hj', hrest⟩ := hi ino i hino
    · have hget : (mp.installInode j).inode? ino =
          if ino = j.inode then some (load mp.exts j).2 else mp.inode? ino :=
        inode?_insertInode _ _ _
      rw [hget] at hold
      split at hold
      next heq =>
        obtain rfl := Option.some.inj hold
        exact .inr ⟨j, mem_cons_self .., heq.symm, mp.exts, rfl⟩
      · exact .inl hold
    · exact .inr ⟨j', mem_cons_of_mem j hj', hrest⟩

variable (mp)

section

variable (image : PartitionImage)

theorem grows_installSnapshot : mp.inodeTree.Grows (mp.installSnapshot image).inodeTree :=
  (grows_clear mp.inodeTree).trans
    (foldl_installInode _ (mp.dropTrees image.cursor image.dentryTree)).1

theorem freeList_installSnapshot : (mp.installSnapshot image).freeList = mp.freeList :=
    (foldl_installInode _ _).2.1

end

variable {mp}

theorem inode?_installSnapshot {image : PartitionImage} {ino : UInt64} {i : InodeCell}
    (h : (mp.installSnapshot image).inode? ino = some i) :
    ∃ j ∈ image.inodeTree.items, j.inode = ino ∧ ∃ h, i = (load h j).2 := by
  obtain hold | hnew := (foldl_installInode _ _).2.2 ino i h
  · cases hold
  · exact hnew

end MetaPartition
end ChubaoFS
