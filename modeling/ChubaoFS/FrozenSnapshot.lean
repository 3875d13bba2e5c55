import ChubaoFS.Base.Run
import ChubaoFS.PartitionRefine
import ChubaoFS.SnapshotFile

namespace ChubaoFS.MetaPartition

open InodeOf ObjTree

/-! A captured tree while commands are applied to the partition it was captured from. -/

inductive Captured (mp : MetaPartition) : MetaPartition → Prop
  | storeTick : Captured mp mp.storeTick
  | snapshot : Captured mp mp.cloneInodeTree

def logStep (mp : MetaPartition) (e : Command × List Nat) : Option MetaPartition :=
  some ((mp.copyInodes e.2).apply e.1)

def Isolates (mp : MetaPartition) (e : Command × List Nat) : Bool :=
  (mp.copyGets e.1).all fun ino => !mp.isShared ino.toNat || e.2.contains ino.toNat

/-- The last key that begins before `length`, when it ends behind it. -/
def keyAcross (mp : MetaPartition) (i : InodeCell) (length : UInt64) : Option Nat :=
  match (i.extents.items.filter fun r => r.key < length.toNat).getLast? with
  | none => none
  | some r => if (mp.exts.obj r.ref).fileEnd > length then some r.ref else none

def capturedKeys (mp : MetaPartition) (index : OrdTree (Nat × Nat) Prod.fst) : List Nat :=
  index.items.flatMap fun e => (mp.inodeTree.cell e.2).extents.items.map ExtentRef.ref

def SparesKeys (index : OrdTree (Nat × Nat) Prod.fst) (mp : MetaPartition) : Command → Bool
  | .extentTruncate ino =>
    (mp.inode? ino.inode).all fun i =>
      (mp.keyAcross i ino.size).all fun r => !(mp.capturedKeys index).contains r
  | _ => true

/-! ### What a command writes -/

variable {mp : MetaPartition} {c : Command} {ino : UInt64}

theorem Change.copyGets {i : InodeCell} {f : InodeCell → InodeCell} (h : Change i c ino f)
    (hd : ∀ dentry, c = .deleteDentry dentry → (mp.dentryTree.get? dentry.key).isSome = true) :
    mp.copyGets c = some ino := by
  cases h with
  | delDentry => exact if_pos (hd _ rfl)
  | _ => rfl

theorem cell_apply {p : Nat} (hp : p < mp.inodeTree.next)
    (hget : ∀ ino, mp.copyGets c = some ino → mp.inodeTree.addr? ino.toNat ≠ some p) :
    (mp.apply c).inodeTree.cell p = mp.inodeTree.cell p := by
  -- a dentry that is not there is not deleted, and its parent is not taken out
  by_cases hd : ∀ dentry, c = .deleteDentry dentry → (mp.dentryTree.get? dentry.key).isSome = true
  · have heff := mp.apply_effect c
    generalize mp.apply c = mp' at heff ⊢
    cases heff with
    | same ht _ => rw [ht]
    | created _ ht _ => rw [ht, cell_insert_of_lt _ _ hp]
    | changed hf _ hch ht _ => rw [ht, cell_update, if_neg (hget _ (hch.copyGets hd))]
    | orphaned _ _ _ _ _ ht _ => rw [ht, cell_update, if_neg (hget _ rfl)]
    | removed _ _ ht _ =>
      rw [ht]
      exact (cell_update _ _ _ (key_unlink _) _).trans (if_neg (hget _ rfl))
    | freed ht _ =>
      rw [ht, ObjTree.cell_foldl_erase]
  push Not at hd
  obtain ⟨dentry, rfl, hno⟩ := hd
  simp only [apply]
  obtain ⟨-, hr⟩ | ⟨d, hk, -⟩ := mp.fsmDeleteDentry_cases dentry
  · rw [hr]
  · rw [hk] at hno
    exact absurd rfl hno

theorem addr?_of_apply {k p : Nat} (h : (mp.apply c).inodeTree.addr? k = some p)
    (hp : p < mp.inodeTree.next) : mp.inodeTree.addr? k = some p := by
  have heff := mp.apply_effect c
  generalize mp.apply c = mp' at heff h
  have herase (t : ObjTree InodeCell key) (k' : Nat) (h : (t.erase k').addr? k = some p) :
      t.addr? k = some p := by
    rw [addr?_erase] at h
    split at h
    · cases h
    · exact h
  have hfold (inos : List UInt64) (t : ObjTree InodeCell key)
      (h : (inos.foldl (fun t ino => t.erase ino.toNat) t).addr? k = some p) :
      t.addr? k = some p := by
    induction inos generalizing t with
    | nil => exact h
    | cons ino inos ih => exact herase t _ (ih (t.erase ino.toNat) h)
  cases heff with
  | same ht _ | changed hf _ _ ht _ | orphaned _ _ _ _ _ ht _ => rwa [ht] at h
  | created _ ht _ =>
    rw [ht, addr?_insert] at h
    split at h
    · obtain rfl := Option.some.inj h
      exact absurd hp (Nat.lt_irrefl _)
    · exact h
  | removed _ _ ht _ =>
    rw [ht] at h
    exact herase _ _ h
  | freed ht _ =>
    rw [ht] at h
    exact hfold _ _ h

theorem shared_apply (hc : c ≠ .storeTick) : (mp.apply c).shared = mp.shared := by
  by_cases hnew : ∃ ino, c = .createInode ino
  · obtain ⟨ino, rfl⟩ := hnew
    simp only [apply, applyCreateInode, fsmCreateInode]
    split <;> rfl
  · exact (rest_apply (fun ino heq => hnew ⟨ino, heq⟩) hc).shared

theorem obj_apply {r : Nat} (hr : r < mp.exts.next)
    (hcut : ∀ ino i, c = .extentTruncate ino → mp.inode? ino.inode = some i →
      mp.keyAcross i ino.size ≠ some r) : (mp.apply c).exts.obj r = mp.exts.obj r := by
  obtain ⟨hx, -⟩ | ⟨ino, rfl⟩ | ⟨ino, rfl⟩ | ⟨ino, rfl⟩ := mp.exts_apply c
  · rw [hx]
  · simp only [apply, applyCreateInode, fsmCreateInode]
    split
    · rfl
    · exact (mp.exts.allocated_allocAll ino.extents.items).old r hr
  · simp only [apply]
    unfold fsmAppendExtents
    cases mp.inode? ino.inode with
    | none => rfl
    | some i =>
      dsimp only
      split
      · rfl
      · exact (mp.exts.allocated_allocAll ino.extents.items).old r hr
  · simp only [apply]
    unfold fsmExtentsTruncate
    cases hi : mp.inode? ino.inode with
    | none => rfl
    | some i =>
      dsimp only
      split
      · rfl
      split
      · rfl
      · have hmax : (i.extentsTruncate (i.extents.ascendGreaterOrEqual (some ino.size.toNat))
            ino.size ino.modifyTime).extents.max? =
              (i.extents.items.filter fun r => r.key < ino.size.toNat).getLast? :=
          congrArg List.getLast? (OrdTree.items_erase_from i.extents ino.size.toNat)
        have hno := hcut ino i rfl hi
        unfold keyAcross at hno
        unfold updateInode cutLast
        dsimp only
        rw [hmax]
        split
        · rfl
        rename_i x hx
        rw [hx] at hno
        dsimp only at hno
        split
        next hlt =>
          rw [if_pos hlt] at hno
          exact if_neg fun heq : r = x.ref => hno (congrArg some heq.symm)
        · rfl

/-! ### The captured tree -/

/-- The cells and keys of the captured tree are as they were in `mp₀`. -/
structure Frozen (index : OrdTree (Nat × Nat) Prod.fst) (mp₀ mp : MetaPartition) : Prop where
  cell : ∀ e ∈ index.items, e.2 < mp.inodeTree.next ∧ mp.inodeTree.cell e.2 = mp₀.inodeTree.cell e.2
  shared : ∀ e ∈ index.items, ∀ k, mp.inodeTree.addr? k = some e.2 → e.2 ∈ mp.shared
  keys : ∀ e ∈ index.items, ∀ r ∈ (mp₀.inodeTree.cell e.2).extents.items,
    r.ref < mp.exts.next ∧ mp.exts.obj r.ref = mp₀.exts.obj r.ref

variable {index : OrdTree (Nat × Nat) Prod.fst} {mp₀ mp : MetaPartition} {e : Nat × Nat}

theorem mem_capturedKeys (h : Frozen index mp₀ mp) (he : e ∈ index.items) {r : ExtentRef}
    (hr : r ∈ (mp₀.inodeTree.cell e.2).extents.items) : r.ref ∈ mp.capturedKeys index := by
  refine List.mem_flatMap.mpr ⟨e, he, List.mem_map_of_mem ?_⟩
  rw [(h.cell e he).2]
  exact hr

structure SharesCells (index : OrdTree (Nat × Nat) Prod.fst) (mp : MetaPartition) : Prop where
  bound : ∀ e ∈ index.items, e.2 < mp.inodeTree.next
  shared : ∀ e ∈ index.items, ∀ k, mp.inodeTree.addr? k = some e.2 → e.2 ∈ mp.shared

variable {copied : List Nat}

theorem SharesCells.not_addr?_copied (h : SharesCells index mp)
    (hi : mp.Isolates (c, copied) = true) (he : e ∈ index.items) (hget : mp.copyGets c = some ino) :
    (mp.copyInodes copied).inodeTree.addr? ino.toNat ≠ some e.2 := by
  intro haddr
  have hlt := h.bound e he
  have hbefore : mp.inodeTree.addr? ino.toNat = some e.2 := addr?_of_copyItems haddr hlt
  have hshared : mp.isShared ino.toNat = true := by
    unfold isShared
    rw [hbefore]
    exact List.contains_iff_mem.mpr (h.shared e he _ hbefore)
  have hcopied : ino.toNat ∈ copied := by
    unfold Isolates at hi
    simpa [hget, hshared] using hi
  have hfresh := addr?_copyItems_of_mem hcopied haddr
  omega

theorem SharesCells.step (h : SharesCells index mp) (hi : mp.Isolates (c, copied) = true) :
    SharesCells index ((mp.copyInodes copied).apply c) ∧ ∀ e ∈ index.items,
      ((mp.copyInodes copied).apply c).inodeTree.cell e.2 = mp.inodeTree.cell e.2 := by
  obtain ⟨hnext, hcells⟩ := mp.inodeTree.copyItems_grows copied
  have hlt (e : Nat × Nat) (he : e ∈ index.items) :
      e.2 < (mp.copyInodes copied).inodeTree.next := (h.bound e he).trans_le hnext
  refine ⟨⟨fun e he => ?_, fun e he k haddr => ?_⟩, fun e he => ?_⟩
  · exact (hlt e he).trans_le ((mp.copyInodes copied).apply_effect c).grows.1
  · by_cases hc : c = .storeTick
    · subst hc
      exact List.mem_map.mpr ⟨(k, e.2), addr?_eq_some_iff.mp haddr, rfl⟩
    · rw [shared_apply hc]
      have hmid := addr?_of_apply haddr (hlt e he)
      exact h.shared e he k (addr?_of_copyItems hmid (h.bound e he))
  · rw [cell_apply (hlt e he) fun ino hget => h.not_addr?_copied hi he hget]
    exact hcells e.2 (h.bound e he)

theorem frozen_step (h : Frozen index mp₀ mp) (hi : mp.Isolates (c, copied) = true)
    (hs : SparesKeys index mp c = true) : Frozen index mp₀ ((mp.copyInodes copied).apply c) := by
  obtain ⟨hshares, hcell⟩ :=
    SharesCells.step ⟨fun e he => (h.cell e he).1, h.shared⟩ hi
  refine ⟨fun e he => ⟨hshares.bound e he, (hcell e he).trans (h.cell e he).2⟩, hshares.shared, ?_⟩
  intro e he r hr
  obtain ⟨hrlt, hobj⟩ := h.keys e he r hr
  refine ⟨hrlt.trans_le ((mp.copyInodes copied).keeps_apply c).next, ?_⟩
  rw [← hobj]
  refine obj_apply hrlt ?_
  rintro ino i rfl hino hcut
  have hino' : mp.inode? ino.inode = some i := by
    rw [← hino]
    exact (get?_copyItems _ _ _).symm
  have hcut' : mp.keyAcross i ino.size = some r.ref := hcut
  have hmem := mem_capturedKeys h he hr
  unfold SparesKeys at hs
  simp [hino', hcut', hmem] at hs

theorem store_of_frozen (h : Frozen index mp₀ mp) :
    mp.storeInodes index = mp₀.storeInodes index := by
  unfold storeInodes
  apply List.foldl_ext
  intro t e he
  rw [(h.cell e he).2, storeInode_congr fun r hr => (h.keys e he r hr).2]

theorem frozen_captured (hown : mp.OwnsExtents) (hc : Captured mp mp₀) :
    Frozen mp.inodeTree.index mp mp₀ := by
  have hkeys (e : Nat × Nat) (he : e ∈ mp.inodeTree.index.items) (r : ExtentRef)
      (hr : r ∈ (mp.inodeTree.cell e.2).extents.items) : r.ref < mp.exts.next := by
    have hget : mp.inodeTree.get? e.1 = some (mp.inodeTree.cell e.2) :=
      get?_eq_some_iff.mpr ⟨e.2, addr?_eq_some_iff.mpr he, rfl⟩
    exact (hown.held _ _ hget r hr).1
  have hshared (e : Nat × Nat) (he : e ∈ mp.inodeTree.index.items) :
      e.2 ∈ mp.inodeTree.index.items.map Prod.snd := List.mem_map_of_mem he
  cases hc with
  | storeTick => exact ⟨fun e he => ⟨mp.inodeTree.bound e he, rfl⟩, fun e he _ _ => hshared e he,
      fun e he r hr => ⟨hkeys e he r hr, rfl⟩⟩
  | snapshot => exact ⟨fun e he => ⟨mp.inodeTree.bound e he, rfl⟩, fun e he _ _ => hshared e he,
      fun e he r hr => ⟨hkeys e he r hr, rfl⟩⟩

/-- What is stored of a captured tree is what it was when it was captured, whatever commands have
been applied since, if none of them truncated inside a key of the tree. -/
theorem stored_as_captured {mp' : MetaPartition} (hown : mp.OwnsExtents) (hc : Captured mp mp₀)
    (hr : Reach logStep (fun s e => s.Isolates e = true ∧
      SparesKeys mp.inodeTree.index s e.1 = true) mp₀ mp') :
    let msg := StoreMsg.clone mp.inodeTree.index mp.dentryTree
    inodeFile (mp'.store msg).inodeTree = inodeFile (mp.store msg).inodeTree ∧
      dentryFile (mp'.store msg).dentryTree = dentryFile (mp.store msg).dentryTree := by
  have hfrozen : Frozen mp.inodeTree.index mp mp' := by
    refine hr.invariant (frozen_captured hown hc) ?_
    rintro s ⟨c, copied⟩ s' h ⟨hi, hs⟩ hstep
    obtain rfl := Option.some.inj hstep
    exact frozen_step h hi hs
  refine ⟨?_, rfl⟩
  exact congrArg inodeFile (store_of_frozen hfrozen)

def file5 (size : UInt64) (exts : List ExtentKey) : Inode :=
  { (InodeOf.new OrdTree.empty 5 0o644 0 : Inode) with
    size := size, extents := exts.foldl OrdTree.insert OrdTree.empty }

def withFile5 : MetaPartition :=
  ((new 0 100).apply (.createInode (file5 0 []))).apply
    (.extentsAdd (file5 0 [⟨0, 1, 1, 0, 100, 0⟩]))

def cutBetween : List (Command × List Nat) :=
  [(.extentsAdd (file5 0 [⟨100, 1, 2, 0, 100, 0⟩]), [5]), (.extentTruncate (file5 100 []), [])]

theorem stored_as_captured_cutBetween : ∃ mp' : MetaPartition,
    Reach logStep (fun s e => s.Isolates e = true ∧
      SparesKeys withFile5.inodeTree.index s e.1 = true) withFile5.storeTick mp' ∧
      (mp'.inode? 5).map generation ≠ (withFile5.inode? 5).map generation ∧
      inodeFile (mp'.store (.clone withFile5.inodeTree.index withFile5.dentryTree)).inodeTree =
        inodeFile (withFile5.store .live).inodeTree := by
  refine ⟨_, .of_checked cutBetween rfl .start, ?_, ?_⟩
  · decide
  · exact (stored_as_captured (((ownsExtents_new 0 100).apply _).apply _) .storeTick
      (.of_checked cutBetween rfl .start)).1

/-- The file is cut inside its key after the trees were captured. -/
theorem truncate_changes_captured : ∃ mp' : MetaPartition,
    Reach logStep (fun s e => s.Isolates e = true) withFile5.storeTick mp' ∧
      inodeFile (mp'.store (.clone withFile5.inodeTree.index withFile5.dentryTree)).inodeTree ≠
        inodeFile (withFile5.store .live).inodeTree := by
  refine ⟨_, .of_checked [(.extentTruncate (file5 50 []), [5])] rfl .start, ?_⟩
  decide +kernel

end ChubaoFS.MetaPartition
