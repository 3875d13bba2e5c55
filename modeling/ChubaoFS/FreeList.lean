import ChubaoFS.FsmEffect
import ChubaoFS.PartitionLoad
import ChubaoFS.Base.Run

namespace ChubaoFS

open ObjTree
open List.Subset (refl)
open MetaPartition (pushFree)
open List (count_append count_cons count_nil)

/-! The free list and the two workers that empty it. The list holds pointers to inode cells, which
the tree may have copied or dropped since. -/

def batchCounts : Nat := 100

def tempFileValidTime : Int64 := 86400

def InodeOf.delayed (curTime : Int64) (ino : InodeCell) : Bool :=
  !ino.shouldDelete && ino.nLink == 0 &&
    (decide (curTime - ino.modifyTime ≤ tempFileValidTime) ||
      decide (curTime - ino.accessTime ≤ tempFileValidTime) ||
      decide (curTime - ino.createTime ≤ tempFileValidTime))

/-- A pass of `deleteWorker`: it pops a batch, pushes the inodes that are put off back, writes the
others to the file of deleted inodes, deletes the extents of each and commits those that have none
left, or pushes them back when the commit fails. -/
inductive DeleteWorker
  | idle
  | popping (curTime : Int64) (idx : Nat) (buff temp : List Nat)
  | pushing (buff temp : List Nat)
  | persisting (written rest : List Nat)
  | deleting (rest shouldCommit : List Nat)
  | returning (rest : List Nat)

/-- A pass of `checkFreelistWorker`. -/
inductive CheckWorker
  | idle
  | popping (idx : Nat) (buff : List Nat)
  | checking (rest : List Nat)

def DeleteWorker.held : DeleteWorker → List Nat
  | idle => []
  | popping _ _ buff temp => buff ++ temp
  | pushing buff temp => buff ++ temp
  | persisting written rest => written ++ rest
  | deleting rest shouldCommit => rest ++ shouldCommit
  | returning rest => rest

def DeleteWorker.walked : DeleteWorker → List Nat
  | deleting _ shouldCommit => shouldCommit
  | returning rest => rest
  | _ => []

def CheckWorker.held : CheckWorker → List Nat
  | idle => []
  | popping _ buff => buff
  | checking rest => rest

namespace MetaPartition

def popFree (mp : MetaPartition) : Option (Nat × MetaPartition) :=
  match mp.freeList with
  | [] => none
  | p :: freeList => some (p, { mp with freeList := freeList })

def internalHasInode (mp : MetaPartition) (p : Nat) : Bool :=
  (mp.inodeTree.addr? (mp.idOf p).toNat).isSome

def requeue (mp : MetaPartition) (now : Int64) (p : Nat) (reExt : List ExtentRef) : MetaPartition :=
  let ino := mp.inodeTree.cell p
  let extents := reExt.foldl (fun e ext => (ExtentRefs.append mp.exts e ext).1) OrdTree.empty
  (mp.allocInode (InodeOf.new extents ino.inode ino.type now)).pushFree mp.inodeTree.next

theorem idOf_requeue (mp : MetaPartition) (now : Int64) (p : Nat) (reExt : List ExtentRef) :
    (mp.requeue now p reExt).idOf mp.inodeTree.next = mp.idOf p := by
  unfold idOf requeue pushFree allocInode
  dsimp only [alloc]
  rw [if_pos rfl]
  rfl

variable {now : Int64}

theorem idOf_requeued {mp mp' : MetaPartition} {p : Nat} {reExt : List ExtentRef}
    (ht : mp'.inodeTree = (mp.requeue now p reExt).inodeTree) :
    mp'.idOf mp.inodeTree.next = mp.idOf p := by
  rw [← mp.idOf_requeue now p reExt]
  unfold idOf
  rw [ht]

end MetaPartition

/-- A replica with its workers. `deleted` are the extent keys that data nodes have deleted. -/
structure Replica where
  mp : MetaPartition
  worker : DeleteWorker
  checker : CheckWorker
  files : SnapshotFiles
  deleted : List Nat

inductive ReplicaEvent
  | apply (c : MetaPartition.Command) (copied : List Nat)
  | getInode (now : Int64) (ino : UInt64)
  | snapshot
  | beginPass (curTime : Int64)
  | pop
  | pushTemp
  | persist (err : Bool)
  | deleteExtents (k : Nat) (failed : List Nat) (now : Int64)
  | commit (err : Bool)
  | pushBack
  | beginCheck
  | checkPop
  | check (err : Bool)
  | dump (k : Nat)
  | restart
  | applySnapshot (image : PartitionImage)

namespace Replica

def new (start endId : UInt64) : Replica :=
  ⟨MetaPartition.new start endId, .idle, .idle, ⟨OrdTree.empty, OrdTree.empty⟩, []⟩

def pending (s : Replica) : List Nat := s.mp.freeList ++ (s.worker.held ++ s.checker.held)

def step (s : Replica) : ReplicaEvent → Option Replica
  | .apply c copied => some { s with mp := (s.mp.copyInodes copied).apply c }
  | .getInode now ino => some { s with mp := (s.mp.getInode now ino).1 }
  | .snapshot => some { s with mp := s.mp.cloneInodeTree }
  | .beginPass curTime =>
    match s.worker with
    | .idle => some { s with worker := .popping curTime 0 [] [] }
    | _ => none
  | .pop =>
    match s.worker with
    | .popping curTime idx buff temp =>
      if idx < batchCounts then
        match s.mp.popFree with
        | none => some { s with worker := .pushing buff temp }
        | some (p, mp) =>
          if (mp.inodeTree.cell p).delayed curTime then
            some { s with mp := mp, worker := .popping curTime (idx + 1) buff (temp ++ [p]) }
          else some { s with mp := mp, worker := .popping curTime (idx + 1) (buff ++ [p]) temp }
      else some { s with worker := .pushing buff temp }
    | _ => none
  | .pushTemp =>
    match s.worker with
    | .pushing buff (p :: temp) =>
      some { s with mp := s.mp.pushFree p, worker := .pushing buff temp }
    | .pushing buff [] => some { s with worker := .persisting [] buff }
    | _ => none
  | .persist err =>
    match s.worker with
    | .persisting written (p :: rest) =>
      some { s with
        mp := if err then s.mp.pushFree p else s.mp
        worker := .persisting (written ++ [p]) rest }
    | .persisting written [] => some { s with worker := .deleting written [] }
    | _ => none
  | .deleteExtents k failed now =>
    match s.worker with
    | .deleting rest shouldCommit =>
      match rest[k]? with
      | none => none
      | some p =>
        let exts := (s.mp.inodeTree.cell p).extents.items
        let reExt := exts.filter fun ext => failed.contains ext.ref
        let done := (exts.filter fun ext => !failed.contains ext.ref).map ExtentRef.ref
        if reExt = [] then
          some { s with
            worker := .deleting (rest.eraseIdx k) (shouldCommit ++ [p])
            deleted := done ++ s.deleted }
        else
          some { s with
            mp := s.mp.requeue now p reExt
            worker := .deleting (rest.eraseIdx k) shouldCommit
            deleted := done ++ s.deleted }
    | _ => none
  | .commit err =>
    match s.worker with
    | .deleting [] shouldCommit =>
      if err then some { s with worker := .returning shouldCommit }
      else some { s with worker := .idle }
    | _ => none
  | .pushBack =>
    match s.worker with
    | .returning (p :: rest) => some { s with mp := s.mp.pushFree p, worker := .returning rest }
    | .returning [] => some { s with worker := .idle }
    | _ => none
  | .beginCheck =>
    match s.checker with
    | .idle => some { s with checker := .popping 0 [] }
    | _ => none
  | .checkPop =>
    match s.checker with
    | .popping idx buff =>
      if idx < batchCounts then
        match s.mp.popFree with
        | none => some { s with checker := .checking buff }
        | some (p, mp) => some { s with mp := mp, checker := .popping (idx + 1) (buff ++ [p]) }
      else some { s with checker := .checking buff }
    | _ => none
  | .check err =>
    match s.checker with
    | .checking (p :: rest) =>
      if s.mp.internalHasInode p ∨ err = true then
        some { s with mp := s.mp.pushFree p, checker := .checking rest }
      else some { s with checker := .checking rest }
    | .checking [] => some { s with checker := .idle }
    | _ => none
  | .dump k =>
    match s.mp.storeChan[k]? with
    | none => none
    | some msg => some { s with
        mp := { s.mp with storeChan := s.mp.storeChan.drop (k + 1) }
        files := s.mp.store msg }
  | .restart => some { s with mp := s.mp.loadFiles s.files, worker := .idle, checker := .idle }
  | .applySnapshot image => some { s with mp := s.mp.installSnapshot image }

def Admits (s : Replica) : ReplicaEvent → Prop
  | .apply _ copied => s.mp.CopiesFor copied
  | _ => True

instance (s : Replica) (e : ReplicaEvent) : Decidable (s.Admits e) :=
  match e with
  | .apply _ copied => inferInstanceAs (Decidable (s.mp.CopiesFor copied))
  | .getInode .. | .snapshot | .beginPass _ | .pop | .pushTemp | .persist _ | .deleteExtents ..
  | .commit _ | .pushBack | .beginCheck | .checkPop | .check _ | .dump _ | .restart
  | .applySnapshot _ => inferInstanceAs (Decidable True)

def Reached (allow : Replica → ReplicaEvent → Prop) (start endId : UInt64) : Replica → Prop :=
  Reach step (fun s e => s.Admits e ∧ allow s e) (new start endId)

inductive Stepped (s : Replica) : ReplicaEvent → Replica → Prop
  | applied {c : MetaPartition.Command} {copied : List Nat} :
      Stepped s (.apply c copied) { s with mp := (s.mp.copyInodes copied).apply c }
  | touched {now : Int64} {ino : UInt64} :
      Stepped s (.getInode now ino) { s with mp := (s.mp.getInode now ino).1 }
  | moved {e : ReplicaEvent} {s' : Replica} : s'.mp.inodeTree = s.mp.inodeTree →
      s'.pending.Perm s.pending → s'.worker.walked ⊆ s.worker.walked → s'.deleted = s.deleted →
      Stepped s e s'
  | doubled {p : Nat} {s' : Replica} : s'.mp.inodeTree = s.mp.inodeTree →
      s'.pending.Perm (p :: s.pending) → p ∈ s.pending → s'.worker.walked ⊆ s.worker.walked →
      s'.deleted = s.deleted → Stepped s (.persist true) s'
  | cleaned {e : ReplicaEvent} {p : Nat} {s' : Replica} : s'.mp.inodeTree = s.mp.inodeTree →
      s'.pending.Perm s.pending → p ∈ s.pending → s'.worker.walked = s.worker.walked ++ [p] →
      s'.deleted = (s.mp.inodeTree.cell p).extents.items.map ExtentRef.ref ++ s.deleted →
      Stepped s e s'
  | requeued {e : ReplicaEvent} {now : Int64} {p : Nat} {reExt : List ExtentRef} {done : List Nat}
      {others : List Nat} {s' : Replica} :
      s'.mp.inodeTree = (s.mp.requeue now p reExt).inodeTree →
      s.pending.Perm (p :: others) → s'.pending.Perm (s.mp.inodeTree.next :: others) →
      s'.worker.walked = s.worker.walked → s'.deleted = done ++ s.deleted →
      reExt.Sublist (s.mp.inodeTree.cell p).extents.items →
      (∀ ext ∈ (s.mp.inodeTree.cell p).extents.items, ext ∈ reExt ∨ ext.ref ∈ done) →
      Stepped s e s'
  | committed {shouldCommit : List Nat} {s' : Replica} : s.worker = .deleting [] shouldCommit →
      s'.mp = s.mp → s.pending.Perm (shouldCommit ++ s'.pending) → s'.worker = .idle →
      s'.deleted = s.deleted → Stepped s (.commit false) s'
  | dropped {p : Nat} {s' : Replica} : s.mp.inode? (s.mp.idOf p) = none → s'.mp = s.mp →
      s.pending.Perm (p :: s'.pending) → s'.worker = s.worker → s'.deleted = s.deleted →
      Stepped s (.check false) s'
  | restarted : Stepped s .restart
      { s with mp := s.mp.loadFiles s.files, worker := .idle, checker := .idle }
  | installed {image : PartitionImage} : Stepped s (.applySnapshot image)
      { s with mp := s.mp.installSnapshot image }

variable {p : Nat} {mp' mp : MetaPartition}

theorem popFree_eq_some (h : mp.popFree = some (p, mp')) :
    mp.freeList = p :: mp'.freeList ∧ mp'.inodeTree = mp.inodeTree := by
  unfold MetaPartition.popFree at h
  split at h
  · cases h
  next q freeList hl =>
    cases h
    exact ⟨hl, rfl⟩

theorem perm_of_count {l l' : List Nat} (h : ∀ a, l.count a = l'.count a) : l.Perm l' :=
  List.perm_iff_count.mpr h

variable {s s' : Replica}

theorem stepped_pop (hs : s.step .pop = some s') : Stepped s .pop s' := by
  simp only [step] at hs
  split at hs
  next curTime idx buff temp hw =>
    have hend : Stepped s .pop { s with worker := .pushing buff temp } :=
      .moved rfl (by simp only [pending, hw, DeleteWorker.held]; exact .refl _)
      (by simp [DeleteWorker.walked]) rfl
    split at hs
    · split at hs
      · cases hs
        exact hend
      next p mp hp =>
        obtain ⟨hl, ht⟩ := popFree_eq_some hp
        split at hs
        all_goals
          cases hs
          refine .moved ht (perm_of_count fun a => ?_) (by simp [DeleteWorker.walked]) rfl
          simp only [pending, hw, hl, DeleteWorker.held, count_append, count_cons, count_nil]
          omega
    · cases hs
      exact hend
  · cases hs

variable {e : ReplicaEvent}

theorem stepped_worker
    (he : e = .pushTemp ∨ (∃ err, e = .persist err) ∨ (∃ err, e = .commit err) ∨ e = .pushBack)
    (hs : s.step e = some s') : Stepped s e s' := by
  obtain rfl | ⟨err, rfl⟩ | ⟨err, rfl⟩ | rfl := he
  · simp only [step] at hs
    split at hs
    next buff p temp hw =>
      cases hs
      refine .moved rfl (perm_of_count fun a => ?_) (by simp [DeleteWorker.walked]) rfl
      simp only [pending, hw, DeleteWorker.held, pushFree, count_append, count_cons, count_nil]
      omega
    next buff hw =>
      cases hs
      refine .moved rfl (perm_of_count fun a => ?_) (by simp [DeleteWorker.walked]) rfl
      simp only [pending, hw, DeleteWorker.held, count_append, count_nil]
      omega
    · cases hs
  · simp only [step] at hs
    split at hs
    next written p rest hw =>
      cases hs
      cases err with
      | false =>
        refine .moved rfl (perm_of_count fun a => ?_) (by simp [DeleteWorker.walked]) rfl
        simp [pending, hw, DeleteWorker.held, count_cons]
      | true =>
        refine .doubled (p := p) rfl (perm_of_count fun a => ?_) ?_ (by simp [DeleteWorker.walked])
          rfl
        · simp [pending, hw, DeleteWorker.held, pushFree, count_cons]
          omega
        · simp [pending, hw, DeleteWorker.held]
    next written hw =>
      cases hs
      refine .moved rfl (perm_of_count fun a => ?_) (by simp [DeleteWorker.walked]) rfl
      simp [pending, hw, DeleteWorker.held]
    · cases hs
  · simp only [step] at hs
    split at hs
    next shouldCommit hw =>
      cases err with
      | true =>
        cases hs
        refine .moved rfl (perm_of_count fun a => ?_) ?_ rfl
        · simp [pending, hw, DeleteWorker.held]
        · rw [hw]
          exact refl _
      | false =>
        cases hs
        refine .committed hw rfl (perm_of_count fun a => ?_) rfl rfl
        simp [pending, hw, DeleteWorker.held]
        omega
    · cases hs
  · simp only [step] at hs
    split at hs
    next p rest hw =>
      cases hs
      refine .moved rfl (perm_of_count fun a => ?_) ?_ rfl
      · simp [pending, hw, DeleteWorker.held, pushFree, count_cons]
      · rw [hw]
        exact List.subset_cons_self _ _
    next hw =>
      cases hs
      refine .moved rfl (perm_of_count fun a => ?_) (by simp [DeleteWorker.walked]) rfl
      simp [pending, hw, DeleteWorker.held]
    · cases hs

theorem stepped_deleteExtents {k : Nat} {failed : List Nat}
    (hs : s.step (.deleteExtents k failed now) = some s') :
    Stepped s (.deleteExtents k failed now) s' := by
  simp only [step] at hs
  split at hs
  next rest shouldCommit hw =>
    split at hs
    · cases hs
    rename_i p hp
    obtain ⟨hk, hget⟩ := List.getElem?_eq_some_iff.mp hp
    have hperm : (p :: rest.eraseIdx k).Perm rest := by
      subst hget
      exact ((List.erase_getElem hk).symm.cons _).trans
        (List.perm_cons_erase (List.getElem_mem hk)).symm
    split at hs
    next hnone =>
      cases hs
      have hall : (s.mp.inodeTree.cell p).extents.items.filter
          (fun ext => !failed.contains ext.ref) = (s.mp.inodeTree.cell p).extents.items := by
        rw [List.filter_eq_self]
        intro ext hext
        have hno := List.filter_eq_nil_iff.mp hnone ext hext
        simpa using hno
      refine .cleaned rfl (perm_of_count fun a => ?_) ?_ (by rw [hw]; rfl) (by rw [hall])
      · have hc := hperm.count_eq a
        simp [pending, hw, DeleteWorker.held, count_cons] at hc ⊢
        omega
      · have hmem : p ∈ rest := hperm.subset (List.mem_cons_self ..)
        simp [pending, hw, DeleteWorker.held, hmem]
    cases hs
    let others := s.mp.freeList ++ ((rest.eraseIdx k ++ shouldCommit) ++ s.checker.held)
    have hbefore : s.pending.Perm (p :: others) := perm_of_count fun a => by
      have hc := hperm.count_eq a
      simp [others, pending, hw, DeleteWorker.held, count_cons] at hc ⊢
      omega
    refine .requeued rfl hbefore (perm_of_count fun a => ?_)
      (by rw [hw]; rfl) rfl List.filter_sublist ?_
    · simp [others, pending, DeleteWorker.held, MetaPartition.requeue, pushFree,
        MetaPartition.allocInode, count_cons]
      omega
    · intro ext hext
      by_cases hf : failed.contains ext.ref = true
      · exact .inl (List.mem_filter.mpr ⟨hext, hf⟩)
      · exact .inr (List.mem_map_of_mem (List.mem_filter.mpr ⟨hext, by simpa using hf⟩))
  · cases hs

theorem inode?_eq_none_of_not_has (h : mp.internalHasInode p = false) :
    mp.inode? (mp.idOf p) = none := by
  unfold MetaPartition.internalHasInode at h
  unfold MetaPartition.inode? get?
  cases ha : mp.inodeTree.addr? (mp.idOf p).toNat with
  | none => rfl
  | some q =>
    rw [ha] at h
    cases h

theorem stepped_checker (he : e = .beginCheck ∨ e = .checkPop ∨ ∃ err, e = .check err)
    (hs : s.step e = some s') : Stepped s e s' := by
  obtain rfl | rfl | ⟨err, rfl⟩ := he
  · simp only [step] at hs
    split at hs
    next hc =>
      cases hs
      refine .moved rfl (perm_of_count fun a => ?_) (refl _) rfl
      simp [pending, hc, CheckWorker.held]
    · cases hs
  · simp only [step] at hs
    split at hs
    next idx buff hc =>
      have hend : Stepped s .checkPop { s with checker := .checking buff } := by
        refine .moved rfl (perm_of_count fun a => ?_) (refl _) rfl
        simp [pending, hc, CheckWorker.held]
      split at hs
      · split at hs
        · cases hs
          exact hend
        next p mp hp =>
          obtain ⟨hl, ht⟩ := popFree_eq_some hp
          cases hs
          refine .moved ht (perm_of_count fun a => ?_) (refl _) rfl
          simp [pending, hc, hl, CheckWorker.held, count_cons]
          omega
      · cases hs
        exact hend
    · cases hs
  · simp only [step] at hs
    split at hs
    next p rest hc =>
      split at hs
      · cases hs
        refine .moved rfl (perm_of_count fun a => ?_) (refl _) rfl
        simp [pending, hc, CheckWorker.held, pushFree, count_cons]
        omega
      rename_i hno
      cases hs
      obtain ⟨hhas, rfl⟩ : s.mp.internalHasInode p = false ∧ err = false := by
        simpa using hno
      refine .dropped (inode?_eq_none_of_not_has hhas) rfl (perm_of_count fun a => ?_) rfl rfl
      simp [pending, hc, CheckWorker.held, count_cons]
      omega
    next hc =>
      cases hs
      refine .moved rfl (perm_of_count fun a => ?_) (refl _) rfl
      simp [pending, hc, CheckWorker.held]
    · cases hs

theorem stepped_of_step (hs : s.step e = some s') : Stepped s e s' := by
  cases e with
  | apply c copied =>
    cases hs
    exact .applied
  | getInode now ino =>
    cases hs
    exact .touched
  | snapshot =>
    cases hs
    exact .moved rfl (.refl _) (refl _) rfl
  | beginPass curTime =>
    simp only [step] at hs
    split at hs
    next hw =>
      cases hs
      refine .moved rfl (perm_of_count fun a => ?_) (by simp [DeleteWorker.walked]) rfl
      simp [pending, hw, DeleteWorker.held]
    · cases hs
  | pop => exact stepped_pop hs
  | pushTemp => exact stepped_worker (.inl rfl) hs
  | persist err => exact stepped_worker (.inr (.inl ⟨err, rfl⟩)) hs
  | deleteExtents k failed now => exact stepped_deleteExtents hs
  | commit err => exact stepped_worker (.inr (.inr (.inl ⟨err, rfl⟩))) hs
  | pushBack => exact stepped_worker (.inr (.inr (.inr rfl))) hs
  | beginCheck => exact stepped_checker (.inl rfl) hs
  | checkPop => exact stepped_checker (.inr (.inl rfl)) hs
  | check err => exact stepped_checker (.inr (.inr ⟨err, rfl⟩)) hs
  | dump k =>
    simp only [step] at hs
    split at hs
    · cases hs
    · cases hs
      exact .moved rfl (.refl _) (refl _) rfl
  | restart =>
    cases hs
    exact .restarted
  | applySnapshot image =>
    cases hs
    exact .installed

theorem Stepped.grows (h : Stepped s e s') : s.mp.inodeTree.Grows s'.mp.inodeTree := by
  cases h with
  | @applied c copied =>
    have hcopy : s.mp.inodeTree.Grows (s.mp.copyInodes copied).inodeTree := grows_copyItems _ _
    exact hcopy.trans ((s.mp.copyInodes copied).apply_effect c).grows
  | touched =>
    obtain hr | hr := s.mp.getInode_cases _ _
    · rw [hr]
      exact grows_refl _
    · rw [hr]
      exact grows_update _ _ _ (InodeOf.key_touch _)
  | moved ht _ _ _ | doubled ht _ _ _ _ | cleaned ht _ _ _ _ => exact ht ▸ grows_refl _
  | requeued ht _ _ _ _ _ _ => exact ht ▸ grows_alloc _ _
  | committed _ hmp _ _ _ | dropped _ hmp _ _ _ => exact hmp ▸ grows_refl _
  | restarted => exact MetaPartition.grows_loadFiles _ _
  | installed => exact MetaPartition.grows_installSnapshot _ _

theorem mem_pending_applied (mp : MetaPartition) {c : MetaPartition.Command}
    (hl : mp.freeList = s.mp.freeList) (h : mp.Effect c mp')
    (hp : p ∈ ({ s with mp := mp' } : Replica).pending) :
    p ∈ s.pending ∨ ∃ i, mp'.inodeTree.addr? (mp'.idOf p).toNat = some p ∧
      mp'.inode? (mp'.idOf p) = some i ∧ i.nLink.toNat = 0 := by
  have hsame (hfree : mp'.freeList = mp.freeList) : p ∈ s.pending := by
    unfold pending at hp ⊢
    rw [← hl, ← hfree]
    exact hp
  cases h with
  | same _ hfree | created _ _ hfree | changed _ _ _ _ hfree | removed _ _ _ hfree
  | freed _ hfree => exact .inl (hsame hfree)
  | @orphaned ino q i _ hq hc _ _ hz ht hfree =>
    have hcell : mp'.inodeTree.cell q = i.unlink ino.modifyTime := by
      rw [ht, cell_update, if_pos hq, hc]
    have hid : mp'.idOf q = ino.inode := by
      have hkey : i.inode = ino.inode :=
        MetaPartition.inode_of_inode? (MetaPartition.inode?_eq_some_iff.mpr ⟨q, hq, hc⟩)
      unfold MetaPartition.idOf
      rw [hcell, InodeOf.unlink, InodeOf.inode_decNLink]
      exact hkey
    have hown : mp'.inodeTree.addr? (mp'.idOf q).toNat = some q := by
      rw [hid, ht]
      exact hq
    have hnew : mp'.inode? (mp'.idOf q) = some (i.unlink ino.modifyTime) := by
      rw [MetaPartition.inode?_idOf hown, hcell]
    unfold pending at hp ⊢
    rw [hfree, hl] at hp
    simp only [List.mem_append, List.mem_singleton] at hp ⊢
    obtain (hp | rfl) | hp := hp
    · exact .inl (.inl hp)
    · exact .inr ⟨_, hown, hnew, hz⟩
    · exact .inl (.inr hp)

theorem pending_getInode (s : Replica) (now : Int64) (ino : UInt64) :
    pending { s with mp := (s.mp.getInode now ino).1 } = s.pending := by
  unfold pending
  rw [MetaPartition.freeList_getInode]

theorem pending_installSnapshot (s : Replica) (image : PartitionImage) :
    pending { s with mp := s.mp.installSnapshot image } = s.pending := by
  unfold pending
  rw [MetaPartition.freeList_installSnapshot]

theorem pending_restart (s : Replica) (mp : MetaPartition) :
    pending { s with mp := mp, worker := .idle, checker := .idle } = mp.freeList := by
  simp [pending, DeleteWorker.held, CheckWorker.held]

def Bounded (s : Replica) : Prop := ∀ p ∈ s.pending, p < s.mp.inodeTree.next

theorem bounded_step (hb : s.Bounded) (h : Stepped s e s') : s'.Bounded := by
  intro p hp
  have hold (hp : p ∈ s.pending) : p < s'.mp.inodeTree.next := (hb p hp).trans_le h.grows.1
  cases h with
  | @applied c copied =>
    obtain hp | ⟨i, hown, -⟩ := mem_pending_applied (s.mp.copyInodes copied) rfl
      (MetaPartition.apply_effect _ _) hp
    · exact hold hp
    · exact addr?_lt_next hown
  | touched =>
    rw [pending_getInode] at hp
    exact hold hp
  | moved _ hperm _ _ | cleaned _ hperm _ _ _ => exact hold (hperm.subset hp)
  | doubled _ hperm hmem _ _ =>
    obtain rfl | hp := List.mem_cons.mp (hperm.subset hp)
    · exact hold hmem
    · exact hold hp
  | requeued ht hperm hperm' _ _ _ _ =>
    obtain rfl | hp := List.mem_cons.mp (hperm'.subset hp)
    · rw [ht]
      exact Nat.lt_succ_self _
    · exact hold (hperm.symm.subset (List.mem_cons_of_mem _ hp))
  | committed _ _ hperm _ _ => exact hold (hperm.symm.subset (List.mem_append_right _ hp))
  | dropped _ _ hperm _ _ => exact hold (hperm.symm.subset (List.mem_cons_of_mem _ hp))
  | restarted =>
    rw [pending_restart] at hp
    exact addr?_lt_next ((MetaPartition.loaded_loadFiles s.mp s.files).own p hp).1
  | installed =>
    rw [pending_installSnapshot] at hp
    exact hold hp

def oneFile : Inode := InodeOf.new OrdTree.empty 1 0 0

end Replica
end ChubaoFS
