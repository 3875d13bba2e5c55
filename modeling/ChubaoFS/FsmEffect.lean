import ChubaoFS.FsmCases

namespace ChubaoFS.MetaPartition

open InodeOf ObjTree

/-! What a command does to the inode tree and the free list. -/

inductive Change (i : InodeCell) : Command → UInt64 → (InodeCell → InodeCell) → Prop
  | link {ino : Inode} : i.shouldDelete = false →
      Change i (.createLinkInode ino) ino.inode InodeOf.incNLink
  | unlinkFile {ino : Inode} : i.shouldDelete = false → isDir i.type = false →
      (i.unlink ino.modifyTime).nLink.toNat ≠ 0 →
      Change i (.unlinkInode ino) ino.inode (InodeOf.unlink ino.modifyTime)
  | unlinkDir {ino : Inode} : i.shouldDelete = false → isDir i.type = true →
      Change i (.unlinkInode ino) ino.inode (InodeOf.unlink ino.modifyTime)
  | evict {ino : Inode} : i.shouldDelete = false → i.nLink.toNat = (if isDir i.type then 2 else 0) →
      Change i (.evictInode ino) ino.inode InodeOf.setDeleteMark
  | setAttr {req : SetattrRequest} : i.shouldDelete = false →
      Change i (.setAttr req) req.inode fun i => i.setAttr req.valid req.mode req.uid req.gid
  | append {ino : Inode} {f : InodeCell → InodeCell} : i.shouldDelete = false →
      (∀ j : InodeCell, j.SameLinks (f j)) → Change i (.extentsAdd ino) ino.inode f
  | truncate {ino : Inode} {f : InodeCell → InodeCell} : i.shouldDelete = false →
      (∀ j : InodeCell, j.SameLinks (f j)) →
      (∀ (j : InodeCell) (r : ExtentRef), r ∈ (f j).extents.items → r ∈ j.extents.items) →
      Change i (.extentTruncate ino) ino.inode f
  | addDentry {dentry : Dentry} : i.shouldDelete = false → isDir i.type = true →
      Change i (.createDentry dentry) dentry.parentId InodeOf.incNLink
  | delDentry {dentry : Dentry} : Change i (.deleteDentry dentry) dentry.parentId decParent

inductive Effect (mp : MetaPartition) : Command → MetaPartition → Prop
  | same {c : Command} {mp' : MetaPartition} : mp'.inodeTree = mp.inodeTree →
      mp'.freeList = mp.freeList → Effect mp c mp'
  | created {ino : Inode} {mp' : MetaPartition} : mp.inode? ino.inode = none →
      mp'.inodeTree = mp.inodeTree.insert (load mp.exts ino).2 → mp'.freeList = mp.freeList →
      Effect mp (.createInode ino) mp'
  | changed {c : Command} {ino : UInt64} {i : InodeCell} {f : InodeCell → InodeCell}
      {mp' : MetaPartition} (hf : ∀ i, (f i).key = i.key) : mp.inode? ino = some i →
      Change i c ino f → mp'.inodeTree = mp.inodeTree.update ino.toNat f hf →
      mp'.freeList = mp.freeList → Effect mp c mp'
  | orphaned {ino : Inode} {p : Nat} {i : InodeCell} {mp' : MetaPartition} :
      mp.inodeTree.addr? ino.inode.toNat = some p → mp.inodeTree.cell p = i →
      i.shouldDelete = false → isDir i.type = false →
      (i.unlink ino.modifyTime).nLink.toNat = 0 →
      mp'.inodeTree = mp.inodeTree.update ino.inode.toNat (InodeOf.unlink ino.modifyTime)
        (InodeOf.key_unlink ino.modifyTime) →
      mp'.freeList = mp.freeList ++ [p] → Effect mp (.unlinkInode ino) mp'
  | removed {ino : Inode} {i : InodeCell} {mp' : MetaPartition} :
      mp.inode? ino.inode = some i → isDir i.type = true →
      mp'.inodeTree = (mp.inodeTree.update ino.inode.toNat (InodeOf.unlink ino.modifyTime)
        (InodeOf.key_unlink ino.modifyTime)).erase ino.inode.toNat →
      mp'.freeList = mp.freeList → Effect mp (.unlinkInode ino) mp'
  | freed {inos : List UInt64} {mp' : MetaPartition} :
      mp'.inodeTree = inos.foldl (fun t ino => t.erase ino.toNat) mp.inodeTree →
      mp'.freeList = mp.freeList → Effect mp (.internalDeleteInode inos) mp'

theorem internalDelete_eq (mp : MetaPartition) (inos : List UInt64) :
    (mp.internalDelete inos).inodeTree = inos.foldl (fun t ino => t.erase ino.toNat) mp.inodeTree ∧
      (mp.internalDelete inos).freeList = mp.freeList := by
  unfold internalDelete
  induction inos generalizing mp with
  | nil => exact ⟨rfl, rfl⟩
  | cons ino inos ih => exact ih (mp.deleteInode ino)

variable {r : ExtentRef}

theorem mem_of_mem_foldl_erase {l : List ExtentRef} {e : ExtentRefs}
    (h : r ∈ (l.foldl (fun e d => e.erase d.key) e).items) : r ∈ e.items := by
  induction l generalizing e with
  | nil => exact h
  | cons d l ih => exact (OrdTree.mem_erase.mp (ih h)).1

section

variable (mp : MetaPartition)

theorem effect_append (ino : Inode) : Effect mp (.extentsAdd ino) (mp.apply (.extentsAdd ino)) := by
  unfold apply fsmAppendExtents
  dsimp only
  cases h : mp.inode? ino.inode with
  | none => exact .same rfl rfl
  | some i =>
    dsimp only
    cases hd : i.shouldDelete with
    | true =>
      rw [if_pos rfl]
      exact .same rfl rfl
    | false =>
      rw [if_neg (by decide)]
      exact .changed (fun j => congrArg UInt64.toNat (j.sameLinks_appendExtents _ _ _).1) h
        (.append hd fun j => j.sameLinks_appendExtents _ _ _) rfl rfl

theorem effect_truncate (ino : Inode) :
    Effect mp (.extentTruncate ino) (mp.apply (.extentTruncate ino)) := by
  unfold apply fsmExtentsTruncate
  dsimp only
  cases h : mp.inode? ino.inode with
  | none => exact .same rfl rfl
  | some i =>
    dsimp only
    cases hd : i.shouldDelete with
    | true =>
      rw [if_pos rfl]
      exact .same rfl rfl
    | false =>
      rw [if_neg (by decide)]
      split
      · exact .same rfl rfl
      let f := fun j : InodeCell => j.extentsTruncate
        (i.extents.ascendGreaterOrEqual (some ino.size.toNat)) ino.size ino.modifyTime
      have hsub (j : InodeCell) (r : ExtentRef) (hr : r ∈ (f j).extents.items) :
          r ∈ j.extents.items := mem_of_mem_foldl_erase hr
      have hlinks (j : InodeCell) : j.SameLinks (f j) := j.sameLinks_extentsTruncate _ _ _
      exact .changed (f := f) (fun _ => rfl) h (.truncate hd hlinks hsub) rfl rfl

theorem apply_effect (c : Command) : Effect mp c (mp.apply c) := by
  cases c with
  | createInode ino =>
    let mp₁ := { mp with cursor := if mp.cursor < ino.inode then ino.inode else mp.cursor }
    have happ : mp.apply (.createInode ino) = (mp₁.fsmCreateInode ino).1 := rfl
    rw [happ]
    obtain ⟨i, -, hr⟩ | ⟨hn, hr⟩ := mp₁.fsmCreateInode_cases ino
    · rw [hr]
      exact .same rfl rfl
    · rw [hr]
      exact .created hn rfl rfl
  | unlinkInode ino =>
    simp only [apply]
    obtain ⟨hr, -⟩ | ⟨p, i, mp', hp, hc, hi, hd, hok, hr⟩ := mp.fsmUnlinkInode_cases ino
    · rw [hr]
      exact .same rfl rfl
    · rw [hr]
      cases hok with
      | file hfile hne => exact .changed (key_unlink _) hi (.unlinkFile hd hfile hne) rfl rfl
      | freed hfile hz => exact .orphaned hp hc hd hfile hz rfl rfl
      | dir hdir _ => exact .changed (key_unlink _) hi (.unlinkDir hd hdir) rfl rfl
      | removed hdir _ => exact .removed hi hdir rfl rfl
  | createDentry dentry =>
    simp only [apply]
    obtain ⟨status, -, hr⟩ | ⟨i, hi, hd, hdir, -, hr⟩ := mp.fsmCreateDentry_cases dentry
    · rw [hr]
      exact .same rfl rfl
    · rw [hr]
      exact .changed key_incNLink hi (.addDentry hd hdir) rfl rfl
  | deleteDentry dentry =>
    simp only [apply]
    obtain ⟨-, hr⟩ | ⟨d, -, hr⟩ := mp.fsmDeleteDentry_cases dentry
    · rw [hr]
      exact .same rfl rfl
    · rw [hr]
      cases hi : mp.inode? dentry.parentId with
      | none => exact .same (update_of_get?_none key_decParent hi) rfl
      | some i => exact .changed key_decParent hi .delDentry rfl rfl
  | updatePartition endId | storeTick => exact .same rfl rfl
  | extentsAdd ino => exact effect_append mp ino
  | updateDentry dentry =>
    simp only [apply]
    obtain ⟨-, hr⟩ | ⟨d, -, hr⟩ := mp.fsmUpdateDentry_cases dentry
    all_goals
      rw [hr]
      exact .same rfl rfl
  | extentTruncate ino => exact effect_truncate mp ino
  | createLinkInode ino =>
    simp only [apply]
    obtain ⟨hr, -⟩ | ⟨i, hi, hd, hr⟩ := mp.fsmCreateLinkInode_cases ino
    · rw [hr]
      exact .same rfl rfl
    · rw [hr]
      exact .changed key_incNLink hi (.link hd) rfl rfl
  | evictInode ino =>
    simp only [apply]
    obtain hr | ⟨i, hi, hd, hn, hr⟩ := mp.fsmEvictInode_cases ino
    · rw [hr]
      exact .same rfl rfl
    · rw [hr]
      exact .changed key_setDeleteMark hi (.evict hd hn) rfl rfl
  | internalDeleteInode inos =>
    obtain ⟨ht, hl⟩ := mp.internalDelete_eq inos
    exact .freed ht hl
  | setAttr req =>
    simp only [apply]
    obtain hr | ⟨i, hi, hd, hr⟩ := mp.fsmSetAttr_cases req
    · rw [hr]
      exact .same rfl rfl
    · rw [hr]
      exact .changed (fun i => i.key_setAttr _ _ _ _) hi (.setAttr hd) rfl rfl

end

variable {mp mp' : MetaPartition} {c : Command}

theorem Effect.grows (h : Effect mp c mp') : mp.inodeTree.Grows mp'.inodeTree := by
  cases h with
  | same ht _ =>
    rw [ht]
    exact grows_refl _
  | created _ ht _ =>
    rw [ht]
    exact grows_insert _ _
  | changed hf _ _ ht _ =>
    rw [ht]
    exact grows_update _ _ _ hf
  | orphaned _ _ _ _ _ ht _ =>
    rw [ht]
    exact grows_update _ _ _ _
  | removed _ _ ht _ =>
    rw [ht]
    exact (grows_update _ _ _ _).trans (grows_erase _ _)
  | freed ht _ =>
    rw [ht]
    exact grows_foldl (fun t ino => grows_erase t _) _ _

variable (mp)

theorem getInode_cases (now : Int64) (ino : UInt64) : (mp.getInode now ino).1 = mp ∨
      (mp.getInode now ino).1 = mp.updateInode ino (touch now) (key_touch now) := by
  unfold getInode
  cases mp.inode? ino with
  | none => exact .inl rfl
  | some i =>
    dsimp only
    split
    · exact .inl rfl
    · exact .inr rfl

theorem freeList_getInode (now : Int64) (ino : UInt64) :
    (mp.getInode now ino).1.freeList = mp.freeList := by
  obtain hr | hr := mp.getInode_cases now ino
  · rw [hr]
  · rw [hr]
    rfl

variable {mp} {ino x : UInt64} {f : InodeCell → InodeCell}

theorem inode?_of_update {hf : ∀ i, (f i).key = i.key}
    (h : mp'.inodeTree = mp.inodeTree.update ino.toNat f hf) :
    mp'.inode? x = if x = ino then (mp.inode? x).map f else mp.inode? x := by
  unfold inode?
  rw [h, get?_update]
  simp only [UInt64.toNat_inj]

variable {i : InodeCell}

theorem inode?_getInode {now : Int64} (h : (mp.getInode now ino).1.inode? x = some i) :
    ∃ j t, mp.inode? x = some j ∧ i = { j with accessTime := t } := by
  obtain hr | hr := mp.getInode_cases now ino
  · rw [hr] at h
    exact ⟨i, i.accessTime, h, rfl⟩
  · rw [hr, inode?_updateInode] at h
    split at h
    · obtain ⟨j, hj, rfl⟩ := Option.map_eq_some_iff.mp h
      exact ⟨j, now, hj, rfl⟩
    · exact ⟨i, i.accessTime, h, rfl⟩

theorem extents_getInode (mp : MetaPartition) (now : Int64) (ino : UInt64) (p : Nat) :
    ((mp.getInode now ino).1.inodeTree.cell p).extents = (mp.inodeTree.cell p).extents := by
  obtain hr | hr := mp.getInode_cases now ino
  · rw [hr]
  · rw [hr, updateInode]
    dsimp only
    rw [cell_update]
    split <;> rfl

theorem inode?_of_insert (h : mp'.inodeTree = mp.inodeTree.insert i) :
    mp'.inode? x = if x = i.inode then some i else mp.inode? x := by
  unfold inode?
  rw [h, get?_insert]
  simp only [key, UInt64.toNat_inj]

theorem inode?_of_eq (h : mp'.inodeTree = mp.inodeTree) (x : UInt64) :
    mp'.inode? x = mp.inode? x := by
  unfold inode?
  rw [h]

theorem inode?_of_alloc (h : mp'.inodeTree = mp.inodeTree.alloc i) (x : UInt64) :
    mp'.inode? x = mp.inode? x := by
  unfold inode?
  rw [h, get?_alloc]

theorem inode?_copyInodes (mp : MetaPartition) (copied : List Nat) (x : UInt64) :
    (mp.copyInodes copied).inode? x = mp.inode? x :=
  get?_copyItems _ _ _

theorem inode?_of_removed {hf : ∀ i, (f i).key = i.key}
    (h : mp'.inodeTree = (mp.inodeTree.update ino.toNat f hf).erase ino.toNat)
    (hi : mp'.inode? x = some i) : mp.inode? x = some i := by
  unfold inode? at hi
  rw [h, get?_erase] at hi
  split at hi
  · cases hi
  next hne => rwa [get?_update, if_neg hne] at hi

theorem inode?_of_foldl_erase {inos : List UInt64}
    (h : mp'.inodeTree = inos.foldl (fun t ino => t.erase ino.toNat) mp.inodeTree)
    (hi : mp'.inode? x = some i) : mp.inode? x = some i ∧ x ∉ inos := by
  unfold inode? at hi ⊢
  rw [h] at hi
  clear h
  generalize mp.inodeTree = t at hi ⊢
  induction inos generalizing t with
  | nil => exact ⟨hi, List.not_mem_nil⟩
  | cons ino inos ih =>
    obtain ⟨hget, hno⟩ := ih _ hi
    rw [get?_erase] at hget
    split at hget
    · cases hget
    next hne =>
      refine ⟨hget, ?_⟩
      rw [List.mem_cons, not_or]
      exact ⟨fun heq => hne (congrArg UInt64.toNat heq), hno⟩

def addsExtents (mp : MetaPartition) (c : Command) (ino : UInt64) : Bool :=
  match c with
  | .extentsAdd j => j.inode == ino && (mp.inode? ino).any fun i => !i.shouldDelete
  | .createInode j => j.inode == ino && (mp.inode? ino).isNone && !j.extents.items.isEmpty
  | _ => false

theorem Change.extents_mem (h : Change i c ino f) (hi : mp.inode? ino = some i)
    (ha : mp.addsExtents c ino = false) (hr : r ∈ (f i).extents.items) : r ∈ i.extents.items := by
  cases h with
  | link | evict | setAttr | addDentry => exact hr
  | unlinkFile | unlinkDir => rwa [extents_unlink] at hr
  | append hm _ => simp [addsExtents, hi, hm] at ha
  | truncate _ _ hsub => exact hsub i r hr
  | delDentry =>
    unfold decParent at hr
    split at hr
    · exact hr
    · rwa [extents_decNLink] at hr

theorem extents_load_nil {h : ExtentHeap} {i : Inode} (hi : i.extents.items = []) :
    (load h i).2.extents.items = [] := by
  unfold load
  rw [hi]
  rfl

theorem Effect.extents_mem (h : Effect mp c mp') (ha : mp.addsExtents c x = false)
    (hi : mp'.inode? x = some i) (hr : r ∈ i.extents.items) :
    ∃ j, mp.inode? x = some j ∧ r ∈ j.extents.items := by
  cases h with
  | same ht _ =>
    rw [inode?_of_eq ht] at hi
    exact ⟨i, hi, hr⟩
  | @created ino _ hn ht _ =>
    rw [inode?_of_insert ht] at hi
    split at hi
    next hx =>
      obtain rfl := Option.some.inj hi
      have hx' : ino.inode = x := hx.symm
      subst hx'
      have hnil : ino.extents.items = [] := by simpa [addsExtents, hn] using ha
      rw [extents_load_nil hnil] at hr
      cases hr
    · exact ⟨i, hi, hr⟩
  | changed hf hj hc ht _ =>
    rw [inode?_of_update ht] at hi
    split at hi
    next hx =>
      subst hx
      rw [hj] at hi
      obtain rfl := Option.some.inj hi
      exact ⟨_, hj, hc.extents_mem hj ha hr⟩
    · exact ⟨i, hi, hr⟩
  | orphaned hp hc _ _ _ ht _ =>
    rw [inode?_of_update ht] at hi
    split at hi
    next hx =>
      subst hx
      obtain ⟨j, hj, rfl⟩ := Option.map_eq_some_iff.mp hi
      rw [extents_unlink] at hr
      exact ⟨j, hj, hr⟩
    · exact ⟨i, hi, hr⟩
  | removed _ _ ht _ => exact ⟨i, inode?_of_removed ht hi, hr⟩
  | freed ht _ => exact ⟨i, (inode?_of_foldl_erase ht hi).1, hr⟩

structure Rest (mp mp' : MetaPartition) : Prop where
  start : mp'.start = mp.start
  cursor : mp'.cursor = mp.cursor
  shared : mp'.shared = mp.shared
  storeChan : mp'.storeChan = mp.storeChan

theorem rest_refl (mp : MetaPartition) : Rest mp mp := ⟨rfl, rfl, rfl, rfl⟩

variable (hnew : ∀ ino, c ≠ .createInode ino)
include hnew

/-- Only the commands that create inodes or write extent keys, and the tick, go further. -/
theorem quiet_apply (hadd : ∀ ino, c ≠ .extentsAdd ino) (htrunc : ∀ ino, c ≠ .extentTruncate ino)
    (htick : c ≠ .storeTick) : Rest mp (mp.apply c) ∧ (mp.apply c).exts = mp.exts := by
  have hsame : Rest mp mp ∧ mp.exts = mp.exts := ⟨mp.rest_refl, rfl⟩
  cases c with
  | createInode ino => exact absurd rfl (hnew ino)
  | unlinkInode ino =>
    simp only [apply]
    obtain ⟨hr, -⟩ | ⟨p, i, mp', -, -, -, -, hok, hr⟩ := mp.fsmUnlinkInode_cases ino
    · rwa [hr]
    · rw [hr]
      cases hok <;> exact ⟨⟨rfl, rfl, rfl, rfl⟩, rfl⟩
  | createDentry dentry =>
    simp only [apply]
    obtain ⟨status, -, hr⟩ | ⟨i, -, -, -, -, hr⟩ := mp.fsmCreateDentry_cases dentry
    · rwa [hr]
    · rw [hr]
      exact ⟨⟨rfl, rfl, rfl, rfl⟩, rfl⟩
  | deleteDentry dentry =>
    simp only [apply]
    obtain ⟨-, hr⟩ | ⟨d, -, hr⟩ := mp.fsmDeleteDentry_cases dentry
    · rwa [hr]
    · rw [hr]
      exact ⟨⟨rfl, rfl, rfl, rfl⟩, rfl⟩
  | updatePartition endId => exact ⟨⟨rfl, rfl, rfl, rfl⟩, rfl⟩
  | extentsAdd ino => exact absurd rfl (hadd ino)
  | storeTick => exact absurd rfl htick
  | updateDentry dentry =>
    simp only [apply]
    obtain ⟨-, hr⟩ | ⟨d, -, hr⟩ := mp.fsmUpdateDentry_cases dentry
    · rwa [hr]
    · rw [hr]
      exact ⟨⟨rfl, rfl, rfl, rfl⟩, rfl⟩
  | extentTruncate ino => exact absurd rfl (htrunc ino)
  | createLinkInode ino =>
    simp only [apply]
    obtain ⟨hr, -⟩ | ⟨i, -, -, hr⟩ := mp.fsmCreateLinkInode_cases ino
    · rwa [hr]
    · rw [hr]
      exact ⟨⟨rfl, rfl, rfl, rfl⟩, rfl⟩
  | evictInode ino =>
    simp only [apply]
    obtain hr | ⟨i, -, -, -, hr⟩ := mp.fsmEvictInode_cases ino
    · rwa [hr]
    · rw [hr]
      exact ⟨⟨rfl, rfl, rfl, rfl⟩, rfl⟩
  | internalDeleteInode inos =>
    clear hnew hadd htrunc htick
    simp only [apply]
    unfold internalDelete
    induction inos generalizing mp with
    | nil => exact hsame
    | cons ino inos ih =>
      obtain ⟨⟨hs, hc, hsh, hch⟩, hx⟩ := @ih (mp.deleteInode ino) ⟨rest_refl _, rfl⟩
      exact ⟨⟨hs, hc, hsh, hch⟩, hx⟩
  | setAttr req =>
    simp only [apply]
    obtain hr | ⟨i, -, -, hr⟩ := mp.fsmSetAttr_cases req
    · rwa [hr]
    · rw [hr]
      exact ⟨⟨rfl, rfl, rfl, rfl⟩, rfl⟩

theorem rest_apply (htick : c ≠ .storeTick) : Rest mp (mp.apply c) := by
  by_cases hadd : ∃ ino, c = .extentsAdd ino
  · obtain ⟨ino, rfl⟩ := hadd
    simp only [apply]
    have hstep := mp.fsmAppendExtents_step ino
    generalize (mp.fsmAppendExtents ino).1 = mp' at hstep ⊢
    cases hstep <;> exact ⟨rfl, rfl, rfl, rfl⟩
  by_cases htrunc : ∃ ino, c = .extentTruncate ino
  · obtain ⟨ino, rfl⟩ := htrunc
    simp only [apply]
    have hstep := mp.fsmExtentsTruncate_step ino
    generalize (mp.fsmExtentsTruncate ino).1 = mp' at hstep ⊢
    cases hstep <;> exact ⟨rfl, rfl, rfl, rfl⟩
  exact (quiet_apply hnew (not_exists.mp hadd) (not_exists.mp htrunc) htick).1

end ChubaoFS.MetaPartition
