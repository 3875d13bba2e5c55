import ChubaoFS.FreeList

namespace ChubaoFS

open List ObjTree
open List.Subset (refl)
open MetaPartition (inode?_idOf isShared addsExtents idOf_of_grows inode?)

/-! Which extents of a freed inode were deleted. -/

theorem ExtentRefs.append_of_above {h : ExtentHeap} {e : ExtentRefs} {ext : ExtentRef}
    (habove : ∀ x ∈ e.items, x.key < ext.key) : (append h e ext).1 = e.insert ext := by
  have hnone : e.ascendRange ext.key (h.obj ext.ref).fileEnd.toNat = [] := by
    apply filter_eq_nil_iff.mpr
    intro x hx
    have hlt := habove x hx
    simp only [decide_eq_true_eq]
    omega
  unfold append
  dsimp only
  rw [hnone]
  rfl

theorem ExtentRefs.foldl_append_sorted (h : ExtentHeap) (l : List ExtentRef) (e : ExtentRefs)
    (hs : (e.items ++ l).Pairwise fun a b => a.key < b.key) :
    l.foldl (fun e ext => (append h e ext).1) e = l.foldl OrdTree.insert e := by
  induction l generalizing e with
  | nil => rfl
  | cons ext l ih =>
    have habove (x : ExtentRef) (hx : x ∈ e.items) : x.key < ext.key :=
      (pairwise_append.mp hs).2.2 x hx ext (mem_cons_self ..)
    have hins : (e.insert ext).items = e.items ++ [ext] := OrdTree.place_append habove
    rw [foldl_cons, foldl_cons, append_of_above habove]
    exact ih _ (by simpa [hins] using hs)

namespace MetaPartition

theorem extents_requeue {mp : MetaPartition} {now : Int64} {p : Nat} {reExt : List ExtentRef}
    (hs : reExt.Sublist (mp.inodeTree.cell p).extents.items) :
    ((mp.requeue now p reExt).inodeTree.cell mp.inodeTree.next).extents.items = reExt := by
  have hsorted : reExt.Pairwise fun a b => a.key < b.key :=
    (mp.inodeTree.cell p).extents.sorted.sublist hs
  unfold requeue pushFree allocInode
  dsimp only [alloc]
  rw [if_pos rfl]
  dsimp only [InodeOf.new]
  rw [ExtentRefs.foldl_append_sorted mp.exts reExt OrdTree.empty hsorted]
  exact OrdTree.foldl_insert_append reExt OrdTree.empty hsorted

theorem Effect.extents_cell {mp mp' : MetaPartition} {c : Command} (h : Effect mp c mp') {p : Nat}
    (hp : p < mp.inodeTree.next) (hown : mp'.inodeTree.addr? (mp'.idOf p).toNat ≠ some p) :
    (mp'.inodeTree.cell p).extents = (mp.inodeTree.cell p).extents := by
  have hupdate {ino : UInt64} {f : InodeCell → InodeCell} {hf : ∀ i, (f i).key = i.key}
      (ht : mp'.inodeTree = mp.inodeTree.update ino.toNat f hf) :
      mp'.inodeTree.cell p = mp.inodeTree.cell p := by
    rw [ht, cell_update, if_neg]
    intro hq
    have haddr : mp'.inodeTree.addr? ino.toNat = some p := by
      rw [ht]
      exact hq
    have hid : (mp'.idOf p).toNat = ino.toNat := key_cell_of_addr? haddr
    exact hown (hid ▸ haddr)
  cases h with
  | same ht _ => rw [ht]
  | created _ ht _ => rw [ht, cell_insert_of_lt _ _ hp]
  | changed hf _ _ ht _ | orphaned _ _ _ _ _ ht _ => rw [hupdate ht]
  | removed _ _ ht _ =>
    rw [ht]
    dsimp only [erase]
    rw [cell_update]
    split
    · rw [InodeOf.extents_unlink]
    · rfl
  | freed ht _ =>
    rw [ht, ObjTree.cell_foldl_erase]

theorem addr?_extentsAdd (mp : MetaPartition) (j : Inode) (k : Nat) :
    (mp.apply (.extentsAdd j)).inodeTree.addr? k = mp.inodeTree.addr? k := by
  cases mp.effect_append j with
  | same ht _ => rw [ht]
  | changed hf _ _ ht _ =>
    rw [ht]
    rfl

end MetaPartition

namespace Replica

def Covers (s : Replica) (p : Nat) : Prop :=
  ∀ i, s.mp.inode? (s.mp.idOf p) = some i → ∀ r ∈ i.extents.items,
    r.ref ∈ s.deleted ∨ r ∈ (s.mp.inodeTree.cell p).extents.items

def Cleared (s : Replica) (p : Nat) : Prop :=
  ∀ i, s.mp.inode? (s.mp.idOf p) = some i → ∀ r ∈ i.extents.items, r.ref ∈ s.deleted

def seen (s : Replica) (p : Nat) : Bool :=
  s.mp.inodeTree.addr? (s.mp.idOf p).toNat == some p && !s.mp.shared.contains p &&
    !s.worker.walked.contains p

def addsUnseen (s : Replica) (e : ReplicaEvent) (p : Nat) : Bool :=
  match e with
  | .apply c _ => s.mp.addsExtents c (s.mp.idOf p) && !s.seen p
  | .applySnapshot image =>
    image.inodeTree.items.any fun j => j.inode == s.mp.idOf p && !j.extents.items.isEmpty
  | _ => false

/-- No pending inode gets extents that its pointer does not see. -/
def SeesExtents (s : Replica) (e : ReplicaEvent) : Prop := ∀ p ∈ s.pending, s.addsUnseen e p = false

variable {s : Replica} {p : Nat}

theorem covers_of_own (h : s.mp.inodeTree.addr? (s.mp.idOf p).toNat = some p) : s.Covers p := by
  intro i hi r hr
  rw [inode?_idOf h] at hi
  obtain rfl := Option.some.inj hi
  exact .inr hr

theorem mem_pending_of_walked (h : p ∈ s.worker.walked) : p ∈ s.pending := by
  have hheld : p ∈ s.worker.held := by
    cases hw : s.worker <;> rw [hw] at h <;> simp [DeleteWorker.walked, DeleteWorker.held] at h ⊢
    · exact .inr h
    · exact h
  simp [pending, hheld]

structure NoLeak (s : Replica) : Prop where
  bounded : s.Bounded
  covers : ∀ p ∈ s.pending, s.Covers p
  cleared : ∀ p ∈ s.worker.walked, s.Cleared p

variable {s' : Replica} {c : MetaPartition.Command} {copied : List Nat}

theorem Covers.of_same (h : s.Covers p) (hid : s'.mp.idOf p = s.mp.idOf p)
    (ht : ∀ i, s'.mp.inode? (s.mp.idOf p) = some i → ∀ r ∈ i.extents.items,
      ∃ j, s.mp.inode? (s.mp.idOf p) = some j ∧ r ∈ j.extents.items)
    (hc : (s'.mp.inodeTree.cell p).extents = (s.mp.inodeTree.cell p).extents)
    (hd : s.deleted ⊆ s'.deleted) : s'.Covers p := by
  intro i hi r hr
  rw [hid] at hi
  obtain ⟨j, hj, hr'⟩ := ht i hi r hr
  rw [hc]
  exact (h j hj r hr').imp_left fun h => hd h

theorem Cleared.of_same (h : s.Cleared p) (hid : s'.mp.idOf p = s.mp.idOf p)
    (ht : ∀ i, s'.mp.inode? (s.mp.idOf p) = some i → ∀ r ∈ i.extents.items,
      ∃ j, s.mp.inode? (s.mp.idOf p) = some j ∧ r ∈ j.extents.items)
    (hd : s.deleted ⊆ s'.deleted) : s'.Cleared p := by
  intro i hi r hr
  rw [hid] at hi
  obtain ⟨j, hj, hr'⟩ := ht i hi r hr
  exact hd (h j hj r hr')

theorem own_applied (hcopies : s.mp.CopiesFor copied) (hseen : s.seen p = true)
    (ha : s.mp.addsExtents c (s.mp.idOf p) = true) :
    ((s.mp.copyInodes copied).apply c).inodeTree.addr? (s.mp.idOf p).toNat = some p := by
  simp only [seen, Bool.and_eq_true, beq_iff_eq, Bool.not_eq_true'] at hseen
  obtain ⟨⟨hown, hshared⟩, -⟩ := hseen
  have hmem : (s.mp.idOf p).toNat ∉ copied := by
    intro hmem
    have hsh := hcopies.2 _ hmem
    unfold isShared at hsh
    rw [hown] at hsh
    simp only [hshared] at hsh
    cases hsh
  cases c with
  | extentsAdd j =>
    rw [MetaPartition.addr?_extentsAdd]
    exact (addr?_copyItems_of_not_mem _ hmem).trans hown
  | createInode j =>
    simp [addsExtents, inode?_idOf hown] at ha
  | _ => cases ha

theorem noLeak_applied (h : s.NoLeak) (hk : s.SeesExtents (.apply c copied))
    (hcopies : s.mp.CopiesFor copied) :
    NoLeak { s with mp := (s.mp.copyInodes copied).apply c } := by
  have hst : Stepped s (.apply c copied) { s with mp := (s.mp.copyInodes copied).apply c } :=
    .applied
  have heff := (s.mp.copyInodes copied).apply_effect c
  have hget := s.mp.inode?_copyInodes copied
  have hadds (ino : UInt64) :
      (s.mp.copyInodes copied).addsExtents c ino = s.mp.addsExtents c ino := by
    unfold addsExtents
    simp only [hget]
  have hgrow : s.mp.inodeTree.Grows (s.mp.copyInodes copied).inodeTree := grows_copyItems _ _
  have hid {p : Nat} (hp : p ∈ s.pending) :
      ((s.mp.copyInodes copied).apply c).idOf p = s.mp.idOf p :=
    idOf_of_grows hst.grows (h.bounded p hp)
  -- the tree's inode has no extent that it did not have before, unless the pointer sees it
  have htree {p : Nat} (ha : s.mp.addsExtents c (s.mp.idOf p) = false) (i : InodeCell)
      (hi : ((s.mp.copyInodes copied).apply c).inode? (s.mp.idOf p) = some i) (r : ExtentRef)
      (hr : r ∈ i.extents.items) :
      ∃ j, s.mp.inode? (s.mp.idOf p) = some j ∧ r ∈ j.extents.items := by
    obtain ⟨j, hj, hr'⟩ := heff.extents_mem ((hadds _).trans ha) hi hr
    exact ⟨j, (hget _).symm.trans hj, hr'⟩
  refine ⟨bounded_step h.bounded hst, ?_, ?_⟩
  · intro p hp
    obtain hp | ⟨i, hown, -⟩ := mem_pending_applied (s.mp.copyInodes copied) rfl heff hp
    · by_cases hown : ((s.mp.copyInodes copied).apply c).inodeTree.addr?
          (((s.mp.copyInodes copied).apply c).idOf p).toNat = some p
      · exact covers_of_own hown
      · have ha : s.mp.addsExtents c (s.mp.idOf p) = false := by
          cases ha : s.mp.addsExtents c (s.mp.idOf p) with
          | false => rfl
          | true =>
            have hseen : s.seen p = true := by simpa [addsUnseen, ha] using hk p hp
            rw [hid hp] at hown
            exact absurd (own_applied hcopies hseen ha) hown
        refine (h.covers p hp).of_same (hid hp) (htree ha) ?_ (refl _)
        have hlt : p < (s.mp.copyInodes copied).inodeTree.next := (h.bounded p hp).trans_le hgrow.1
        refine (heff.extents_cell hlt hown).trans (congrArg InodeOf.extents ?_)
        exact (copyItems_grows s.mp.inodeTree copied).2 p (h.bounded p hp)
    · exact covers_of_own hown
  · intro p hp
    have hmem := mem_pending_of_walked (s := s) hp
    have hwalked : s.seen p = false := by
      have hmem : p ∈ s.worker.walked := hp
      simp [seen, hmem]
    have ha : s.mp.addsExtents c (s.mp.idOf p) = false := by
      simpa [addsUnseen, hwalked] using hk p hmem
    exact (h.cleared p hp).of_same (hid hmem) (htree ha) (refl _)

theorem noLeak_step {e : ReplicaEvent} (h : s.NoLeak) (ha : s.Admits e) (hk : s.SeesExtents e)
    (hst : Stepped s e s') : s'.NoLeak := by
  have hid {p : Nat} (hp : p ∈ s.pending) : s'.mp.idOf p = s.mp.idOf p :=
    idOf_of_grows hst.grows (h.bounded p hp)
  have hb := bounded_step h.bounded hst
  -- the steps that leave the tree alone
  have hstay (ht : s'.mp.inodeTree = s.mp.inodeTree) (hd : s.deleted ⊆ s'.deleted) :
      (∀ p ∈ s.pending, s'.Covers p) ∧ ∀ p ∈ s.worker.walked, s'.Cleared p := by
    have hsame (p : Nat) (i : InodeCell) (hi : s'.mp.inode? (s.mp.idOf p) = some i) (r : ExtentRef)
        (hr : r ∈ i.extents.items) :
        ∃ j, s.mp.inode? (s.mp.idOf p) = some j ∧ r ∈ j.extents.items :=
      ⟨i, (MetaPartition.inode?_of_eq ht _).symm.trans hi, hr⟩
    refine ⟨fun p hp => ?_, fun p hp => ?_⟩
    · exact (h.covers p hp).of_same (hid hp) (hsame p) (by rw [ht]) hd
    · exact (h.cleared p hp).of_same (hid (mem_pending_of_walked hp)) (hsame p) hd
  cases hst with
  | applied => exact noLeak_applied h hk ha
  | @touched now ino =>
    have hsame {p : Nat} (i : InodeCell)
        (hi : (s.mp.getInode now ino).1.inode? (s.mp.idOf p) = some i) (r : ExtentRef)
        (hr : r ∈ i.extents.items) :
        ∃ j, s.mp.inode? (s.mp.idOf p) = some j ∧ r ∈ j.extents.items := by
      obtain ⟨j, t, hj, rfl⟩ := MetaPartition.inode?_getInode hi
      exact ⟨j, hj, hr⟩
    refine ⟨hb, fun p hp => ?_, fun p hp => ?_⟩
    · rw [pending_getInode] at hp
      exact (h.covers p hp).of_same (hid hp) hsame (s.mp.extents_getInode _ _ p)
        (refl _)
    · exact (h.cleared p hp).of_same (hid (mem_pending_of_walked hp)) hsame
        (refl _)
  | moved ht hperm hwalked hd =>
    obtain ⟨hcov, hcl⟩ := hstay ht (by rw [hd]; exact refl _)
    exact ⟨hb, fun p hp => hcov p (hperm.subset hp), fun p hp => hcl p (hwalked hp)⟩
  | doubled ht hperm hmem hwalked hd =>
    obtain ⟨hcov, hcl⟩ := hstay ht (by rw [hd]; exact refl _)
    refine ⟨hb, fun p hp => ?_, fun p hp => hcl p (hwalked hp)⟩
    obtain rfl | hp := mem_cons.mp (hperm.subset hp)
    · exact hcov p hmem
    · exact hcov p hp
  | @cleaned _ q _ ht hperm hmem hwalked hd =>
    obtain ⟨hcov, hcl⟩ := hstay ht (by rw [hd]; exact subset_append_right _ _)
    refine ⟨hb, fun p hp => hcov p (hperm.subset hp), fun p hp => ?_⟩
    rw [hwalked, mem_append, mem_singleton] at hp
    obtain hp | rfl := hp
    · exact hcl p hp
    · intro i hi r hr
      obtain hdel | hcell := hcov p hmem i hi r hr
      · exact hdel
      · rw [hd, mem_append]
        rw [ht] at hcell
        exact .inl (mem_map_of_mem hcell)
  | @requeued _ now q reExt done others _ ht hperm hperm' hwalked hd hsub hall =>
    have hget := MetaPartition.inode?_of_alloc ht
    have hsame (p : Nat) (i : InodeCell) (hi : s'.mp.inode? (s.mp.idOf p) = some i) (r : ExtentRef)
        (hr : r ∈ i.extents.items) :
        ∃ j, s.mp.inode? (s.mp.idOf p) = some j ∧ r ∈ j.extents.items :=
      ⟨i, (hget _).symm.trans hi, hr⟩
    have hdel : s.deleted ⊆ s'.deleted := by
      rw [hd]
      exact subset_append_right _ _
    refine ⟨hb, fun p hp => ?_, fun p hp => ?_⟩
    · obtain rfl | hp := mem_cons.mp (hperm'.subset hp)
      · -- the inode with the extents that are left stands for the one it was made from
        have hq : q ∈ s.pending := hperm.symm.subset (mem_cons_self ..)
        intro i hi r hr
        have hnew : s'.mp.idOf s.mp.inodeTree.next = s.mp.idOf q := MetaPartition.idOf_requeued ht
        rw [hnew, hget] at hi
        rw [ht, MetaPartition.extents_requeue hsub]
        obtain hr' | hr' := h.covers q hq i hi r hr
        · exact .inl (hdel hr')
        · obtain hre | hdone := hall r hr'
          · exact .inr hre
          · rw [hd, mem_append]
            exact .inl (.inl hdone)
      · have hp' : p ∈ s.pending := hperm.symm.subset (mem_cons_of_mem q hp)
        refine (h.covers p hp').of_same (hid hp') (hsame p) ?_ hdel
        rw [ht]
        exact congrArg InodeOf.extents (cell_alloc_of_lt _ _ (h.bounded p hp'))
    · rw [hwalked] at hp
      exact (h.cleared p hp).of_same (hid (mem_pending_of_walked hp)) (hsame p) hdel
  | committed hw hmp hperm hw' hd =>
    obtain ⟨hcov, hcl⟩ := hstay (by rw [hmp]) (by rw [hd]; exact refl _)
    refine ⟨hb, fun p hp => hcov p (hperm.symm.subset (mem_append_right _ hp)), ?_⟩
    rw [hw']
    exact nofun
  | dropped _ hmp hperm hw' hd =>
    obtain ⟨hcov, hcl⟩ := hstay (by rw [hmp]) (by rw [hd]; exact refl _)
    refine ⟨hb, fun p hp => hcov p (hperm.symm.subset (mem_cons_of_mem _ hp)), ?_⟩
    rw [hw']
    exact hcl
  | restarted =>
    refine ⟨hb, fun p hp => ?_, nofun⟩
    rw [pending_restart] at hp
    exact covers_of_own ((MetaPartition.loaded_loadFiles s.mp s.files).own p hp).1
  | @installed image =>
    have hnone {p : Nat} (hp : p ∈ s.pending) (i : InodeCell)
        (hi : (s.mp.installSnapshot image).inode? (s.mp.idOf p) = some i) :
        i.extents.items = [] := by
      obtain ⟨j, hj, hino, g, rfl⟩ := MetaPartition.inode?_installSnapshot hi
      have hr := hk p hp
      simp only [addsUnseen, any_eq_false] at hr
      have hj' := hr j hj
      rw [hino] at hj'
      exact MetaPartition.extents_load_nil (by simpa using hj')
    have hcleared {p : Nat} (hp : p ∈ s.pending) :
        Cleared { s with mp := s.mp.installSnapshot image } p := by
      intro i hi r hr
      rw [show (s.mp.installSnapshot image).idOf p = s.mp.idOf p from hid hp] at hi
      rw [hnone hp i hi] at hr
      cases hr
    refine ⟨hb, fun p hp i hi r hr => ?_, fun p hp => hcleared (mem_pending_of_walked hp)⟩
    rw [pending_installSnapshot] at hp
    exact .inl (hcleared hp i hi r hr)

/-- As long as no inode that waits to be freed is given extents which the pointer to it does not
see, an inode is committed only when all its extents are deleted. -/
theorem cleared_of_shouldCommit {start endId : UInt64} {s : Replica}
    (h : Reached SeesExtents start endId s) {rest shouldCommit : List Nat}
    (hw : s.worker = .deleting rest shouldCommit) {p : Nat} (hp : p ∈ shouldCommit) :
    s.Cleared p := by
  have hinv : s.NoLeak := by
    refine Reach.invariant h ⟨nofun, nofun, nofun⟩ ?_
    intro s e s' hinv ⟨ha, hk⟩ hs
    exact noLeak_step hinv ha hk (stepped_of_step hs)
  refine hinv.cleared p ?_
  rw [hw]
  exact hp

instance (s : Replica) (e : ReplicaEvent) : Decidable (s.SeesExtents e) :=
  inferInstanceAs (Decidable (∀ p ∈ s.pending, s.addsUnseen e p = false))

def newExtent : Inode :=
  InodeOf.new (OrdTree.empty.insert ⟨0, 1, 1, 0, 10, 0⟩) 1 0 0

def freePass : List ReplicaEvent :=
  [.beginPass 86401, .pop, .pop, .pushTemp, .persist false, .persist false, .deleteExtents 0 [] 0]

def unlinkAppendFree : List ReplicaEvent :=
  [.apply (.createInode oneFile) [], .apply (.unlinkInode oneFile) [],
    .apply (.extentsAdd newExtent) []] ++ freePass

def unlinkTickAppendFree : List ReplicaEvent :=
  [.apply (.createInode oneFile) [], .apply (.unlinkInode oneFile) [], .apply .storeTick [],
    .apply (.extentsAdd newExtent) [1]] ++ freePass

theorem cleared_of_shouldCommit_unlinked :
    ∃ s, Reached SeesExtents 0 100 s ∧ s.worker = .deleting [] [0] ∧ s.Cleared 0 := by
  have hrun : ∃ s, unlinkAppendFree.foldlM
      (fun (s : Replica) e => if s.Admits e ∧ s.SeesExtents e then s.step e else none)
      (new 0 100) = some s ∧ s.worker = .deleting [] [0] := ⟨_, rfl, rfl⟩
  obtain ⟨s, hrun, hw⟩ := hrun
  have hr : Reached SeesExtents 0 100 s := Reach.of_checked _ hrun .start
  exact ⟨s, hr, hw, cleared_of_shouldCommit hr hw (mem_singleton.mpr rfl)⟩

/-- After a snapshot the append goes to a copy of the inode; the pass frees the old cell. -/
theorem extent_leaked : ∃ s i, Reached (fun _ _ => True) 0 100 s ∧ s.worker = .deleting [] [0] ∧
      s.mp.inode? (s.mp.idOf 0) = some i ∧ i.extents.items = [⟨0, 0⟩] ∧ s.deleted = [] := by
  have hrun : ∃ s i, unlinkTickAppendFree.foldlM
      (fun (s : Replica) e => if s.Admits e ∧ True then s.step e else none) (new 0 100) = some s ∧
      s.worker = .deleting [] [0] ∧ s.mp.inode? (s.mp.idOf 0) = some i ∧
      i.extents.items = [⟨0, 0⟩] ∧ s.deleted = [] := ⟨_, _, rfl, rfl, rfl, rfl, rfl⟩
  obtain ⟨s, i, hrun, hrest⟩ := hrun
  exact ⟨s, i, Reach.of_checked _ hrun .start, hrest⟩

end Replica
end ChubaoFS
