import ChubaoFS.PartitionValue

namespace ChubaoFS

open OrdTree InodeOf PartitionValue ObjTree Option
open PartitionValue (unlinked)
open Option (bind_some map_map map_some)
open Bool (eq_false_iff)

open MetaPartition (storeInode)

theorem PartitionValue.get?_alterInode {f : Inode → Option Inode}
    (hf : ∀ i i', f i = some i' → i'.key = i.key) (v : PartitionValue) (ino : UInt64) (k : Nat) :
    (v.alterInode ino f).inodeTree.get? k = if k = ino.toNat then
        (v.inodeTree.get? k).bind fun i => if i.shouldDelete then some i else f i
      else v.inodeTree.get? k := by
  unfold alterInode inode?
  cases hi : v.inodeTree.get? ino.toNat with
  | none =>
    dsimp only
    split
    next hk => rw [hk, hi, Option.bind_none]
    · rfl
  | some i =>
    have hkey := OrdTree.key_of_get? hi
    dsimp only
    by_cases hd : i.shouldDelete = true
    · rw [if_pos hd]
      split
      next hk => rw [hk, hi, bind_some, if_pos hd]
      · rfl
    rw [if_neg hd]
    cases hfi : f i with
    | none =>
      rw [OrdTree.get?_erase]
      split
      next hk => rw [hk, hi, bind_some, if_neg hd, hfi]
      · rfl
    | some i' =>
      rw [OrdTree.get?_insert, hf i i' hfi, hkey]
      split
      next hk => rw [hk, hi, bind_some, if_neg hd, hfi]
      · rfl

theorem PartitionValue.alterInode_rest (v : PartitionValue) (ino : UInt64)
    (f : Inode → Option Inode) : (v.alterInode ino f).endId = v.endId ∧
      (v.alterInode ino f).cursor = v.cursor ∧ (v.alterInode ino f).dentryTree = v.dentryTree := by
  unfold alterInode
  split
  · exact ⟨rfl, rfl, rfl⟩
  split
  · exact ⟨rfl, rfl, rfl⟩
  · split <;> exact ⟨rfl, rfl, rfl⟩

namespace MetaPartition

def value (mp : MetaPartition) : PartitionValue where
  endId := mp.endId
  cursor := mp.cursor
  inodeTree := mp.storeInodes mp.inodeTree.index
  dentryTree := mp.dentryTree

section

variable (mp : MetaPartition)

theorem storeInodes_image {index : OrdTree (Nat × Nat) Prod.fst}
    (h : ∀ e ∈ index.items, (mp.inodeTree.cell e.2).key = e.1) :
    OrdTree.Image (fun e => storeInode mp.exts (mp.inodeTree.cell e.2)) index
      (mp.storeInodes index) :=
  image_foldl_insert _ index h

theorem get?_value (k : Nat) :
    mp.value.inodeTree.get? k = (mp.inodeTree.get? k).map (storeInode mp.exts) := by
  have him := mp.storeInodes_image mp.inodeTree.keyed
  refine (him.get? k).trans ?_
  unfold ObjTree.get? ObjTree.addr?
  rw [map_map, map_map]
  rfl

theorem inode?_value (ino : UInt64) :
    mp.value.inode? ino = (mp.inode? ino).map (storeInode mp.exts) := mp.get?_value ino.toNat

end

/-- The extent keys of every inode are in the heap, and no two inodes share one. -/
structure OwnsExtents (mp : MetaPartition) : Prop where
  held : ∀ k i, mp.inodeTree.get? k = some i → i.Held mp.exts
  apart : ∀ k k' i i', k ≠ k' → mp.inodeTree.get? k = some i → mp.inodeTree.get? k' = some i' →
    ∀ r ∈ i.extents.items, ∀ r' ∈ i'.extents.items, r.ref ≠ r'.ref

theorem ownsExtents_of_empty {mp : MetaPartition} (h : ∀ k, mp.inodeTree.get? k = none) :
    mp.OwnsExtents := by
  constructor
  · intro k i hi
    rw [h] at hi
    cases hi
  · intro k k' i i' _ hi
    rw [h] at hi
    cases hi

theorem ownsExtents_new (start endId : UInt64) : (new start endId).OwnsExtents :=
  ownsExtents_of_empty fun _ => rfl

section Alter

variable {mp mp' : MetaPartition} {ino : UInt64} {f : Inode → Option Inode}
  (hf : ∀ i i', f i = some i' → i'.key = i.key)
include hf

theorem value_alter (he : mp'.endId = mp.endId)
    (hc : mp'.cursor = mp.cursor) (hd : mp'.dentryTree = mp.dentryTree)
    (hother : ∀ k, k ≠ ino.toNat → (mp'.inodeTree.get? k).map (storeInode mp'.exts) =
      (mp.inodeTree.get? k).map (storeInode mp.exts))
    (hself : (mp'.inode? ino).map (storeInode mp'.exts) =
      ((mp.inode? ino).map (storeInode mp.exts)).bind fun i =>
        if i.shouldDelete then some i else f i) : mp'.value = mp.value.alterInode ino f := by
  obtain ⟨he', hc', hd'⟩ := mp.value.alterInode_rest ino f
  refine ext_get? (he.trans he'.symm) (hc.trans hc'.symm) ?_ (hd.trans hd'.symm)
  intro k
  rw [mp.value.get?_alterInode hf, get?_value, get?_value]
  split
  next hk =>
    rw [hk]
    exact hself
  next hk => exact hother k hk

theorem value_alter_same (h : ∀ i, mp.inode? ino = some i → i.shouldDelete = false →
      f (storeInode mp.exts i) = some (storeInode mp.exts i)) :
    mp.value = mp.value.alterInode ino f := by
  refine value_alter hf rfl rfl rfl (fun _ _ => rfl) ?_
  cases hi : mp.inode? ino with
  | none => rfl
  | some i =>
    rw [map_some, bind_some]
    split
    · rfl
    next hd => exact (h i hi (eq_false_iff.mpr hd)).symm

/-- Nothing changes where there is no live inode. -/
theorem value_alter_dead (h : ∀ i, mp.inode? ino = some i → i.shouldDelete = true) :
    mp.value = mp.value.alterInode ino f :=
  value_alter_same hf fun i hi hd => absurd (hd.symm.trans (h i hi)) Bool.false_ne_true

theorem value_alter_none (h : mp.inode? ino = none) : mp.value = mp.value.alterInode ino f :=
  value_alter_same hf fun _ hi => absurd (h.symm.trans hi) nofun

theorem value_alter_update (g : InodeCell → InodeCell) (hg : ∀ i, (g i).key = i.key) {i : InodeCell}
    (ht : mp'.inodeTree = mp.inodeTree.update ino.toNat g hg)
    (he : mp'.endId = mp.endId) (hc : mp'.cursor = mp.cursor) (hd : mp'.dentryTree = mp.dentryTree)
    (hother : ∀ k, k ≠ ino.toNat → (mp.inodeTree.get? k).map (storeInode mp'.exts) =
      (mp.inodeTree.get? k).map (storeInode mp.exts))
    (hi : mp.inode? ino = some i) (hdel : i.shouldDelete = false)
    (hgf : some (storeInode mp'.exts (g i)) = f (storeInode mp.exts i)) :
    mp'.value = mp.value.alterInode ino f := by
  refine value_alter hf he hc hd ?_ ?_
  · intro k hk
    rw [ht, get?_update, if_neg hk]
    exact hother k hk
  · have hnot : ¬ (storeInode mp.exts i).shouldDelete = true := eq_false_iff.mp hdel
    rw [inode?_of_update ht, if_pos rfl, hi, map_some, map_some, map_some, bind_some, if_neg hnot]
    exact hgf

end Alter

theorem storeInode_decNLink (h : ExtentHeap) (i : InodeCell) :
    storeInode h i.decNLink = (storeInode h i).decNLink := by
  unfold decNLink
  split
  next hd =>
    rw [if_pos (show isDir (storeInode h i).type = true from hd)]
    split
    next hn => rw [if_pos (show (storeInode h i).nLink > 2 from hn)]; rfl
    next hn => rw [if_neg (show ¬ (storeInode h i).nLink > 2 from hn)]
  rename_i hd
  rw [if_neg (show ¬ isDir (storeInode h i).type = true from hd)]
  split
  next hn => rw [if_pos (show (storeInode h i).nLink > 0 from hn)]; rfl
  next hn => rw [if_neg (show ¬ (storeInode h i).nLink > 0 from hn)]

theorem storeInode_unlink (h : ExtentHeap) (t : Int64) (i : InodeCell) :
    storeInode h (i.unlink t) = ({ storeInode h i with modifyTime := t } : Inode).decNLink :=
  storeInode_decNLink h { i with modifyTime := t }

theorem load_image (h : ExtentHeap) (ino : Inode) :
    OrdTree.Image (load h ino).1.value (load h ino).2.extents ino.extents := by
  have hall := h.allocated_allocAll ino.extents.items
  have hkey (r : ExtentRef) (hr : r ∈ (h.allocAll ino.extents.items).2) :
      ((h.allocAll ino.extents.items).1.value r).key = r.key := (hall.fresh r hr).2.key
  have hsorted : (h.allocAll ino.extents.items).2.Pairwise fun a b => a.key < b.key := by
    have hs := ino.extents.sorted
    rw [← hall.values, List.pairwise_map] at hs
    apply hs.imp_of_mem
    intro a b ha hb hlt
    rwa [hkey a ha, hkey b hb] at hlt
  have hitems : (load h ino).2.extents.items = (h.allocAll ino.extents.items).2 :=
    foldl_insert_append _ empty hsorted
  refine ⟨?_, ?_⟩
  · rw [hitems]
    exact hall.values.symm
  · intro r hr
    rw [hitems] at hr
    exact hkey r hr

variable {mp : MetaPartition} {mp' : MetaPartition}

theorem OwnsExtents.storeInode_allocAll (hown : mp.OwnsExtents) (ks : List ExtentKey) (k : Nat) :
    (mp.inodeTree.get? k).map (storeInode (mp.exts.allocAll ks).1) =
      (mp.inodeTree.get? k).map (storeInode mp.exts) := by
  cases hk : mp.inodeTree.get? k with
  | none => rfl
  | some j =>
    refine congrArg some (storeInode_congr fun r hr => ?_)
    exact (mp.exts.allocated_allocAll ks).old _ (hown.held k j hk r hr).1

theorem value_createInode (hown : mp.OwnsExtents) (ino : Inode) :
    (mp.apply (.createInode ino)).value = mp.value.apply (.createInode ino) := by
  let mp₁ := { mp with cursor := if mp.cursor < ino.inode then ino.inode else mp.cursor }
  have happ : mp.apply (.createInode ino) = (mp₁.fsmCreateInode ino).1 := rfl
  have hfound : (mp.value.inode? ino.inode).isSome = (mp.inode? ino.inode).isSome := by
    rw [inode?_value, Option.isSome_map]
  rw [happ]
  dsimp only [PartitionValue.apply]
  unfold PartitionValue.createInode
  rw [hfound]
  obtain ⟨i, hi, hr⟩ | ⟨hn, hr⟩ := mp₁.fsmCreateInode_cases ino
  · have hi' : mp.inode? ino.inode = some i := hi
    rw [hr, hi']
    rfl
  · have hn' : mp.inode? ino.inode = none := hn
    rw [hr, hn']
    refine PartitionValue.ext_get? rfl rfl ?_ rfl
    intro k
    have hget : (({ mp₁ with exts := (load mp₁.exts ino).1 }.insertInode
        (load mp₁.exts ino).2).inodeTree.get? k) =
          if k = ino.key then some (load mp.exts ino).2 else mp.inodeTree.get? k :=
      ObjTree.get?_insert _ _ _
    refine (get?_value _ k).trans ?_
    rw [hget, if_neg (by simp : ¬ (none : Option InodeCell).isSome = true), OrdTree.get?_insert,
      get?_value]
    split
    · exact congrArg some (storeInode_of_image (load_image mp.exts ino))
    · exact hown.storeInode_allocAll ino.extents.items k

section

variable (mp : MetaPartition)

theorem value_unlinkInode (ino : Inode) :
    (mp.apply (.unlinkInode ino)).value = mp.value.apply (.unlinkInode ino) := by
  have hf (i i' : Inode) (h : unlinked ino.modifyTime i = some i') : i'.key = i.key := by
    unfold unlinked at h
    dsimp only at h
    split at h
    · cases h
    · cases h
      exact InodeOf.key_decNLink _
  have hval (i : InodeCell) : unlinked ino.modifyTime (storeInode mp.exts i) =
      if isDir i.type && (i.unlink ino.modifyTime).isEmptyDir then none
      else some (storeInode mp.exts (i.unlink ino.modifyTime)) := by
    have htype : (storeInode mp.exts (i.unlink ino.modifyTime)).type = i.type :=
      InodeOf.type_unlink ino.modifyTime i
    unfold unlinked
    dsimp only
    rw [← storeInode_unlink, htype]
    rfl
  simp only [apply, PartitionValue.apply]
  obtain ⟨hr, hmark⟩ | ⟨p, i, mp', -, -, hi, hd, hok, hr⟩ := mp.fsmUnlinkInode_cases ino
  · rw [hr]
    exact value_alter_dead hf hmark
  · rw [hr]
    have hkept (hno : ¬ (isDir i.type && (i.unlink ino.modifyTime).isEmptyDir) = true) :
        some (storeInode mp.exts (i.unlink ino.modifyTime)) =
          unlinked ino.modifyTime (storeInode mp.exts i) := by
      rw [hval, if_neg hno]
    cases hok with
    | file hfile _ | freed hfile _ =>
      exact value_alter_update hf _ (InodeOf.key_unlink _) rfl rfl rfl rfl (fun _ _ => rfl) hi hd
        (hkept (by simp [hfile]))
    | dir hdir hne =>
      refine value_alter_update hf _ (InodeOf.key_unlink _) rfl rfl rfl rfl (fun _ _ => rfl) hi hd
        (hkept ?_)
      rw [Bool.and_eq_true, InodeOf.isEmptyDir_iff]
      exact fun h => hne h.2
    | removed hdir hz =>
      refine value_alter hf rfl rfl rfl ?_ ?_
      · intro k hk
        unfold deleteInode updateInode
        dsimp only
        rw [ObjTree.get?_erase, if_neg hk, ObjTree.get?_update, if_neg hk]
      · have hgone : (((mp.updateInode ino.inode (InodeOf.unlink ino.modifyTime)
            (InodeOf.key_unlink ino.modifyTime)).deleteInode ino.inode).inode? ino.inode) = none :=
            by
          refine (ObjTree.get?_erase _ _ _).trans (if_pos rfl)
        have hnot : ¬ (storeInode mp.exts i).shouldDelete = true := eq_false_iff.mp hd
        have hempty : (isDir i.type && (i.unlink ino.modifyTime).isEmptyDir) = true := by
          rw [hdir, InodeOf.isEmptyDir_iff.mpr hz]
          rfl
        rw [hgone, hi, map_some, bind_some, if_neg hnot, hval, if_pos hempty]
        rfl

section

variable (dentry : Dentry)

theorem value_createDentry :
    (mp.apply (.createDentry dentry)).value = mp.value.apply (.createDentry dentry) := by
  have hf (i i' : Inode) (h : some i.incNLink = some i') : i'.key = i.key := Option.some.inj h ▸ rfl
  simp only [apply, PartitionValue.apply]
  unfold fsmCreateDentry PartitionValue.createDentry
  rw [inode?_value]
  cases hi : mp.inode? dentry.parentId with
  | none => rfl
  | some i =>
    dsimp only [map_some]
    have hmark : (storeInode mp.exts i).shouldDelete = i.shouldDelete := rfl
    have htype : (storeInode mp.exts i).type = i.type := rfl
    have hdt : mp.value.dentryTree = mp.dentryTree := rfl
    rw [hmark, htype, hdt]
    cases hd : i.shouldDelete with
    | true => rfl
    | false =>
      cases hdir : isDir i.type with
      | false => rfl
      | true =>
        cases hk : mp.dentryTree.get? dentry.key with
        | some d => rfl
        | none =>
          let mp₁ := { mp with dentryTree := mp.dentryTree.insert dentry }
          have hmain : (mp₁.updateInode dentry.parentId InodeOf.incNLink
              InodeOf.key_incNLink).value =
                mp₁.value.alterInode dentry.parentId fun i => some i.incNLink :=
            value_alter_update hf _ InodeOf.key_incNLink rfl rfl rfl rfl (fun _ _ => rfl) hi hd rfl
          exact hmain

theorem value_deleteDentry :
    (mp.apply (.deleteDentry dentry)).value = mp.value.apply (.deleteDentry dentry) := by
  simp only [apply, PartitionValue.apply]
  unfold fsmDeleteDentry PartitionValue.deleteDentry
  have hdt : mp.value.dentryTree = mp.dentryTree := rfl
  rw [hdt]
  cases hk : mp.dentryTree.get? dentry.key with
  | none => rfl
  | some d =>
    dsimp only
    let mp₁ := { mp with dentryTree := mp.dentryTree.erase dentry.key }
    have hf (i i' : Inode) (h : some i.decNLink = some i') : i'.key = i.key := by
      cases h
      exact InodeOf.key_decNLink i
    -- a parent that is missing or marked keeps its links
    have hmain : (mp₁.updateInode dentry.parentId decParent key_decParent).value =
        mp₁.value.alterInode dentry.parentId fun i => some i.decNLink := by
      refine value_alter hf rfl rfl rfl ?_ ?_
      · intro k hk
        unfold updateInode
        dsimp only
        rw [ObjTree.get?_update, if_neg hk]
      · rw [inode?_updateInode, if_pos rfl]
        cases hi : mp₁.inode? dentry.parentId with
        | none => rfl
        | some i =>
          rw [map_some, map_some, map_some, bind_some]
          unfold decParent
          by_cases hd : i.shouldDelete = true
          · rw [if_pos hd, if_pos (show (storeInode mp₁.exts i).shouldDelete = true from hd)]
            rfl
          · rw [if_neg hd, if_neg (show ¬ (storeInode mp₁.exts i).shouldDelete = true from hd)]
            exact congrArg some (storeInode_decNLink mp₁.exts i)
    exact hmain

theorem value_updateDentry :
    (mp.apply (.updateDentry dentry)).value = mp.value.apply (.updateDentry dentry) := by
  simp only [apply, PartitionValue.apply]
  unfold fsmUpdateDentry PartitionValue.updateDentry
  have hdt : mp.value.dentryTree = mp.dentryTree := rfl
  rw [hdt]
  cases mp.dentryTree.get? dentry.key with
  | none => rfl
  | some d => rfl

end

theorem value_createLinkInode (ino : Inode) :
    (mp.apply (.createLinkInode ino)).value = mp.value.apply (.createLinkInode ino) := by
  have hf (i i' : Inode) (h : some i.incNLink = some i') : i'.key = i.key := some.inj h ▸ rfl
  simp only [apply, apply]
  obtain ⟨hr, hmark⟩ | ⟨i, hi, hd, hr⟩ := mp.fsmCreateLinkInode_cases ino
  · rw [hr]
    exact value_alter_dead hf hmark
  · rw [hr]
    exact value_alter_update hf _ key_incNLink rfl rfl rfl rfl (fun _ _ => rfl) hi hd rfl

theorem value_evictInode (ino : Inode) :
    (mp.apply (.evictInode ino)).value = mp.value.apply (.evictInode ino) := by
  have hf (i i' : Inode) (h : some (evicted i) = some i') : i'.key = i.key := by
    cases h
    unfold evicted
    generalize (if isDir i.type then i.isEmptyDir else i.isTempFile) = marked
    cases marked <;> rfl
  have hval (i : InodeCell) : evicted (storeInode mp.exts i) =
      if (if isDir i.type then i.isEmptyDir else i.isTempFile) then
        storeInode mp.exts i.setDeleteMark else storeInode mp.exts i := rfl
  simp only [apply, apply]
  unfold fsmEvictInode
  cases hi : mp.inode? ino.inode with
  | none => exact value_alter_none hf hi
  | some i =>
    have hsame (hno : (if isDir i.type then i.isEmptyDir else i.isTempFile) = false)
        (j : InodeCell) (hj : mp.inode? ino.inode = some j) :
        some (evicted (storeInode mp.exts j)) = some (storeInode mp.exts j) := by
      rw [hi] at hj
      cases hj
      rw [hval, if_neg (by rw [hno]; exact Bool.false_ne_true)]
    dsimp only
    split
    next hd =>
      exact value_alter_dead hf fun j hj => some.inj (hi.symm.trans hj) ▸ hd
    rename_i hd
    have hlive : i.shouldDelete = false := eq_false_iff.mpr hd
    split
    next hdir =>
      split
      next he =>
        refine value_alter_update hf _ key_setDeleteMark rfl rfl rfl rfl
          (fun _ _ => rfl) hi hlive ?_
        rw [hval, hdir, if_pos rfl, if_pos he]
        rfl
      next he =>
        refine value_alter_same hf fun j hj _ => hsame ?_ j hj
        rw [if_pos hdir]
        exact eq_false_iff.mpr he
    rename_i hdir
    split
    next ht =>
      refine value_alter_update hf _ key_setDeleteMark rfl rfl rfl rfl (fun _ _ => rfl) hi hlive ?_
      rw [hval, if_neg hdir, if_pos ht]
      rfl
    next ht =>
      refine value_alter_same hf fun j hj _ => hsame ?_ j hj
      rw [if_neg hdir]
      exact eq_false_iff.mpr ht

theorem value_setAttr (req : SetattrRequest) :
    (mp.apply (.setAttr req)).value = mp.value.apply (.setAttr req) := by
  have hf (i i' : Inode) (h : some (i.setAttr req.valid req.mode req.uid req.gid) = some i') :
      i'.key = i.key := some.inj h ▸ rfl
  simp only [apply, apply]
  unfold fsmSetAttr
  cases hi : mp.inode? req.inode with
  | none => exact value_alter_none hf hi
  | some i =>
    dsimp only
    split
    next hd =>
      exact value_alter_dead hf fun j hj => some.inj (hi.symm.trans hj) ▸ hd
    next hd =>
      exact value_alter_update hf _ (fun i => i.key_setAttr req.valid req.mode req.uid req.gid) rfl
        rfl rfl rfl (fun _ _ => rfl) hi (eq_false_iff.mpr hd) rfl

end

theorem value_extentsAdd (hown : mp.OwnsExtents) (ino : Inode) :
    (mp.apply (.extentsAdd ino)).value = mp.value.apply (.extentsAdd ino) := by
  have hf (i i' : Inode) (h : some (i.appendKeys ino.extents.items ino.modifyTime).1 = some i') :
      i'.key = i.key := by
    cases h
    exact key_appendKeys i _ _
  simp only [apply, apply]
  unfold fsmAppendExtents
  cases hi : mp.inode? ino.inode with
  | none => exact value_alter_none hf hi
  | some i =>
    dsimp only
    split
    next hd =>
      exact value_alter_dead hf fun j hj => some.inj (hi.symm.trans hj) ▸ hd
    rename_i hd
    have hall := mp.exts.allocated_allocAll ino.extents.items
    have hheld : i.Held (mp.exts.allocAll ino.extents.items).1 :=
      fun r hr => hall.keeps.holds (hown.held _ i hi r hr)
    have hold : storeInode (mp.exts.allocAll ino.extents.items).1 i = storeInode mp.exts i :=
      storeInode_congr fun r hr => hall.old _ (hown.held _ i hi r hr).1
    have hval := (storeInode_appendExtents ino.modifyTime
      (fun r hr => (hall.fresh r hr).2) hheld).1
    rw [hall.values, hold] at hval
    exact value_alter_update hf _
      (fun j => congrArg UInt64.toNat (j.sameLinks_appendExtents _ _ ino.modifyTime).1)
      rfl rfl rfl rfl (fun k _ => hown.storeInode_allocAll ino.extents.items k) hi
      (eq_false_iff.mpr hd) (congrArg some hval)

theorem value_extentTruncate (hown : mp.OwnsExtents) (ino : Inode) :
    (mp.apply (.extentTruncate ino)).value = mp.value.apply (.extentTruncate ino) := by
  have hf (i i' : Inode) (h : some (if isDir i.type then i
      else (i.truncateKeys ino.size ino.modifyTime).1) = some i') : i'.key = i.key := by
    cases h
    split <;> rfl
  simp only [apply, apply]
  unfold fsmExtentsTruncate
  cases hi : mp.inode? ino.inode with
  | none => exact value_alter_none hf hi
  | some i =>
    dsimp only
    split
    next hd =>
      exact value_alter_dead hf fun j hj => some.inj (hi.symm.trans hj) ▸ hd
    rename_i hd
    split
    next hdir =>
      refine value_alter_same hf fun j hj _ => ?_
      rw [hi] at hj
      cases hj
      exact congrArg some (if_pos hdir)
    rename_i hdir
    obtain ⟨hval, -⟩ := storeInode_extentsTruncate (hown.held _ i hi) ino.size ino.modifyTime
    let g := fun j : InodeCell => j.extentsTruncate
      (i.extents.ascendGreaterOrEqual (some ino.size.toNat)) ino.size ino.modifyTime
    have hnot : ¬ isDir (storeInode mp.exts i).type = true := hdir
    refine value_alter_update hf g (fun _ => rfl) rfl rfl rfl rfl ?_ hi
      (eq_false_iff.mpr hd) (congrArg some (hval.trans (if_neg hnot).symm))
    -- the key that is cut is one of this inode, so no other inode refers to it
    intro k hk
    cases hj : mp.inodeTree.get? k with
    | none => rfl
    | some j =>
      refine congrArg some (storeInode_congr fun r hr => ExtentHeap.obj_cutLast fun x hx => ?_)
      exact hown.apart _ k i j (Ne.symm hk) hi hj x
        (mem_of_mem_foldl_erase (mem_of_max? hx)) r hr

theorem value_internalDeleteInode (mp : MetaPartition) (inos : List UInt64) :
    (mp.apply (.internalDeleteInode inos)).value = mp.value.apply (.internalDeleteInode inos) := by
  simp only [apply, PartitionValue.apply]
  unfold internalDelete
  induction inos generalizing mp with
  | nil => rfl
  | cons ino inos ih =>
    rw [List.foldl_cons, List.foldl_cons, ih]
    congr 1
    refine PartitionValue.ext_get? rfl rfl ?_ rfl
    intro k
    refine (get?_value _ k).trans ?_
    unfold deleteInode
    dsimp only
    rw [ObjTree.get?_erase, OrdTree.get?_erase, get?_value]
    split <;> rfl

theorem value_apply (hown : mp.OwnsExtents) (c : Command) :
    (mp.apply c).value = mp.value.apply c := by
  cases c with
  | createInode ino => exact value_createInode hown ino
  | unlinkInode ino => exact mp.value_unlinkInode ino
  | createDentry dentry => exact mp.value_createDentry dentry
  | deleteDentry dentry => exact mp.value_deleteDentry dentry
  | updatePartition endId => rfl
  | extentsAdd ino => exact value_extentsAdd hown ino
  | storeTick => rfl
  | updateDentry dentry => exact mp.value_updateDentry dentry
  | extentTruncate ino => exact value_extentTruncate hown ino
  | createLinkInode ino => exact mp.value_createLinkInode ino
  | evictInode ino => exact mp.value_evictInode ino
  | internalDeleteInode inos => exact mp.value_internalDeleteInode inos
  | setAttr req => exact mp.value_setAttr req

/-! ### Whose keys are whose -/

theorem OwnsExtents.step (hown : mp.OwnsExtents) (ino : UInt64) (hkeep : mp.exts.Keeps mp'.exts)
    (hmem : ∀ x i r, mp'.inode? x = some i → r ∈ i.extents.items →
      (∃ j, mp.inode? x = some j ∧ r ∈ j.extents.items) ∨
        (x = ino ∧ mp.exts.next ≤ r.ref ∧ mp'.exts.Holds r)) : mp'.OwnsExtents := by
  -- every key of the tree is filed under an inode id
  have hid {k : Nat} {i : InodeCell} (hi : mp'.inodeTree.get? k = some i) :
      i.inode.toNat = k ∧ mp'.inode? i.inode = some i := by
    have hk := key_of_get? hi
    refine ⟨hk, ?_⟩
    rw [← hk] at hi
    exact hi
  constructor
  · intro k i hi r hr
    obtain ⟨j, hj, hr'⟩ | ⟨-, -, hh⟩ := hmem _ i r (hid hi).2 hr
    · exact hkeep.holds (hown.held _ j hj r hr')
    · exact hh
  · intro k k' i i' hne hi hi' r hr r' hr' heq
    obtain ⟨hk, hx⟩ := hid hi
    obtain ⟨hk', hx'⟩ := hid hi'
    obtain ⟨j, hj, hm⟩ | ⟨hino, hfresh, -⟩ := hmem _ i r hx hr
    · have hlt := (hown.held _ j hj r hm).1
      obtain ⟨j', hj', hm'⟩ | ⟨-, hfresh', -⟩ := hmem _ i' r' hx' hr'
      · refine hown.apart _ _ j j' ?_ hj hj' r hm r' hm' heq
        rw [hk, hk']
        exact hne
      · omega
    · obtain ⟨j', hj', hm'⟩ | ⟨hino', -, -⟩ := hmem _ i' r' hx' hr'
      · have hlt := (hown.held _ j' hj' r' hm').1
        omega
      · exact hne (hk.symm.trans ((congrArg UInt64.toNat (hino.trans hino'.symm)).trans hk'))

theorem load_fresh {h : ExtentHeap} {i : Inode} {r : ExtentRef}
    (hr : r ∈ (load h i).2.extents.items) : h.next ≤ r.ref ∧ (load h i).1.Holds r := by
  have hmem (l : List ExtentRef) (e : ExtentRefs) (hr : r ∈ (l.foldl OrdTree.insert e).items) :
      r ∈ e.items ∨ r ∈ l := by
    induction l generalizing e with
    | nil => exact .inl hr
    | cons x l ih =>
      obtain hr | hr := ih _ hr
      · obtain rfl | ⟨hr, -⟩ := OrdTree.mem_insert.mp hr
        · exact .inr (List.mem_cons_self ..)
        · exact .inl hr
      · exact .inr (List.mem_cons_of_mem x hr)
  obtain hr | hr := hmem _ OrdTree.empty hr
  · cases hr
  · exact (h.allocated_allocAll i.extents.items).fresh r hr

variable (mp)

theorem exts_apply (c : Command) : ((mp.apply c).exts = mp.exts ∧ ∀ x, mp.addsExtents c x = false) ∨
    (∃ ino, c = .createInode ino) ∨ (∃ ino, c = .extentsAdd ino) ∨
      ∃ ino, c = .extentTruncate ino := by
  cases c with
  | createInode ino => exact .inr (.inl ⟨ino, rfl⟩)
  | extentsAdd ino => exact .inr (.inr (.inl ⟨ino, rfl⟩))
  | extentTruncate ino => exact .inr (.inr (.inr ⟨ino, rfl⟩))
  | storeTick => exact .inl ⟨rfl, fun _ => rfl⟩
  | _ => refine .inl ⟨And.right (quiet_apply ?_ ?_ ?_ ?_), fun _ => rfl⟩ <;> nofun

theorem keeps_apply (c : Command) : mp.exts.Keeps (mp.apply c).exts := by
  obtain ⟨hx, -⟩ | ⟨ino, rfl⟩ | ⟨ino, rfl⟩ | ⟨ino, rfl⟩ := mp.exts_apply c
  · rw [hx]
    exact mp.exts.keeps_refl
  · simp only [apply, applyCreateInode, fsmCreateInode]
    split
    · exact mp.exts.keeps_refl
    · exact (mp.exts.allocated_allocAll ino.extents.items).keeps
  · simp only [apply]
    unfold fsmAppendExtents
    cases mp.inode? ino.inode with
    | none => exact mp.exts.keeps_refl
    | some i =>
      dsimp only
      split
      · exact mp.exts.keeps_refl
      · exact (mp.exts.allocated_allocAll ino.extents.items).keeps
  · simp only [apply]
    unfold fsmExtentsTruncate
    cases mp.inode? ino.inode with
    | none => exact mp.exts.keeps_refl
    | some i =>
      dsimp only
      split
      · exact mp.exts.keeps_refl
      split
      · exact mp.exts.keeps_refl
      · exact mp.exts.keeps_cutLast _ _

theorem mem_extents_apply (c : Command) : ∃ ino, ∀ x i r,
    (mp.apply c).inode? x = some i → r ∈ i.extents.items →
      (∃ j, mp.inode? x = some j ∧ r ∈ j.extents.items) ∨
        (x = ino ∧ mp.exts.next ≤ r.ref ∧ (mp.apply c).exts.Holds r) := by
  have hother (hadds : ∀ x, mp.addsExtents c x = false) (x : UInt64) (i : InodeCell) (r : ExtentRef)
      (hi : (mp.apply c).inode? x = some i) (hr : r ∈ i.extents.items) :=
    (mp.apply_effect c).extents_mem (hadds x) hi hr
  obtain ⟨-, hadds⟩ | ⟨ino, rfl⟩ | ⟨ino, rfl⟩ | ⟨ino, rfl⟩ := mp.exts_apply c
  · exact ⟨0, fun x i r hi hr => .inl (hother hadds x i r hi hr)⟩
  · refine ⟨ino.inode, fun x i r hi hr => ?_⟩
    let mp₁ := { mp with cursor := if mp.cursor < ino.inode then ino.inode else mp.cursor }
    have happ : mp.apply (.createInode ino) = (mp₁.fsmCreateInode ino).1 := rfl
    rw [happ] at hi ⊢
    obtain ⟨j, -, hok⟩ | ⟨-, hok⟩ := mp₁.fsmCreateInode_cases ino
    · rw [hok] at hi
      exact .inl ⟨i, hi, hr⟩
    · rw [hok] at hi ⊢
      have hget : ({ mp₁ with exts := (load mp₁.exts ino).1 }.insertInode
          (load mp₁.exts ino).2).inode? x =
            if x = ino.inode then some (load mp.exts ino).2 else mp.inode? x :=
        inode?_insertInode _ _ _
      have hi' := hget.symm.trans hi
      split at hi'
      next hx =>
        cases hi'
        exact .inr ⟨hx, load_fresh hr⟩
      · exact .inl ⟨i, hi', hr⟩
  · refine ⟨ino.inode, fun x j r => ?_⟩
    simp only [MetaPartition.apply]
    unfold fsmAppendExtents
    intro hj hr
    cases hi : mp.inode? ino.inode with
    | none =>
      rw [hi] at hj
      exact .inl ⟨j, hj, hr⟩
    | some i =>
      rw [hi] at hj
      dsimp only at hj ⊢
      split at hj
      · exact .inl ⟨j, hj, hr⟩
      rename_i hd
      rw [if_neg hd]
      have hall := mp.exts.allocated_allocAll ino.extents.items
      have hget := (get?_update mp.inodeTree ino.inode.toNat x.toNat _
        fun i => congrArg UInt64.toNat
          (i.sameLinks_appendExtents _ _ ino.modifyTime).1).symm.trans hj
      split at hget
      next hx =>
        obtain ⟨j', hj', rfl⟩ := map_eq_some_iff.mp hget
        obtain hr | hr := mem_appendExtents hr
        · exact .inl ⟨j', hj', hr⟩
        · exact .inr ⟨UInt64.toNat_inj.mp hx, hall.fresh r hr⟩
      · exact .inl ⟨j, hget, hr⟩
  · exact ⟨0, fun x i r hi hr => .inl (hother (fun _ => rfl) x i r hi hr)⟩

variable {mp}

theorem OwnsExtents.apply (hown : mp.OwnsExtents) (c : Command) : (mp.apply c).OwnsExtents := by
  obtain ⟨ino, hmem⟩ := mp.mem_extents_apply c
  exact hown.step ino (mp.keeps_apply c) hmem

/-! ### Reads, copies and clones -/

theorem OwnsExtents.of_get? (hown : mp.OwnsExtents) (hx : mp'.exts = mp.exts)
    (h : ∀ k i, mp'.inodeTree.get? k = some i →
      ∃ j, mp.inodeTree.get? k = some j ∧ i.extents = j.extents) : mp'.OwnsExtents := by
  constructor
  · intro k i hi
    obtain ⟨j, hj, he⟩ := h k i hi
    unfold InodeOf.Held
    rw [hx, he]
    exact hown.held k j hj
  · intro k k' i i' hne hi hi'
    obtain ⟨j, hj, he⟩ := h k i hi
    obtain ⟨j', hj', he'⟩ := h k' i' hi'
    rw [he, he']
    exact hown.apart k k' j j' hne hj hj'

theorem OwnsExtents.copyInodes (hown : mp.OwnsExtents) (copied : List Nat) :
    (mp.copyInodes copied).OwnsExtents := by
  refine hown.of_get? rfl fun k i hi => ⟨i, ?_, rfl⟩
  rwa [MetaPartition.copyInodes, get?_copyItems] at hi

theorem value_copyInodes (mp : MetaPartition) (copied : List Nat) :
    (mp.copyInodes copied).value = mp.value := by
  refine ext_get? rfl rfl ?_ rfl
  intro k
  rw [get?_value, get?_value, copyInodes, get?_copyItems]

theorem OwnsExtents.getInode (hown : mp.OwnsExtents) (now : Int64) (ino : UInt64) :
    (mp.getInode now ino).1.OwnsExtents := by
  obtain hr | hr := mp.getInode_cases now ino
  · rw [hr]
    exact hown
  · rw [hr]
    refine hown.of_get? rfl fun k i hi => ?_
    rw [updateInode, get?_update] at hi
    split at hi
    · obtain ⟨j, hj, rfl⟩ := map_eq_some_iff.mp hi
      exact ⟨j, hj, rfl⟩
    · exact ⟨i, hi, rfl⟩

/-! ### Partitions that are loaded or take over a snapshot -/

theorem OwnsExtents.loadInode (hown : mp.OwnsExtents) (ino : Inode) :
    (mp.loadInode ino).OwnsExtents := by
  have hexts : (mp.loadInode ino).exts = (load mp.exts ino).1 := by
    unfold MetaPartition.loadInode
    dsimp only
    cases mp.inode? ino.inode <;> dsimp only <;> split <;> rfl
  have hkeep : mp.exts.Keeps (mp.loadInode ino).exts := by
    rw [hexts]
    exact (mp.exts.allocated_allocAll ino.extents.items).keeps
  refine hown.step ino.inode hkeep ?_
  intro x i r hi hr
  rw [hexts]
  cases hfound : mp.inode? ino.inode with
  | none =>
    unfold inode? at hi
    rw [(loadInode_new hfound).1, ObjTree.get?_insert] at hi
    split at hi
    next hx =>
      cases hi
      exact .inr ⟨UInt64.toNat_inj.mp hx, load_fresh hr⟩
    · exact .inl ⟨i, hi, hr⟩
  | some j =>
    have hsame : (mp.loadInode ino).inode? x = mp.inode? x := by
      unfold MetaPartition.loadInode
      rw [hfound]
      dsimp only
      split <;> exact ObjTree.get?_alloc _ _ _
    rw [hsame] at hi
    exact .inl ⟨i, hi, hr⟩

/-- In every run, whichever inodes are copied before a command, the cells hold what plain values
do. -/
theorem value_run (run : List (List Nat × Command)) (start endId : UInt64) :
    (run.foldl (fun mp e => (mp.copyInodes e.1).apply e.2) (new start endId)).value =
      (run.map Prod.snd).foldl PartitionValue.apply (new start endId).value := by
  have hown := ownsExtents_new start endId
  generalize new start endId = mp at hown ⊢
  induction run generalizing mp with
  | nil => rfl
  | cons e run ih =>
    have hcopy := hown.copyInodes e.1
    rw [List.foldl_cons, ih _ (hcopy.apply e.2), value_apply hcopy, value_copyInodes]
    rfl

end MetaPartition
end ChubaoFS
