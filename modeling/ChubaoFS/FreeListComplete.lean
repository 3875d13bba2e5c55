import ChubaoFS.FreeList

namespace ChubaoFS

open List InodeOf
open MetaPartition (idOf_of_grows)

/-! Whether every orphan is on the free list. -/

namespace MetaPartition

/-- What a command must find for no orphan to appear off the free list, and none to be put on it
twice. `queued` are the ids that are pending. -/
def keepsQueued (mp : MetaPartition) (queued : List UInt64) : Command → Bool
  | .createInode j => (mp.inode? j.inode).isSome || !j.isOrphan
  | .unlinkInode j =>
    (mp.inode? j.inode).all fun i =>
      i.shouldDelete || isDir i.type || decide (1 < i.nLink.toNat) || !queued.contains j.inode
  | .createLinkInode j =>
    (mp.inode? j.inode).all fun i =>
      i.shouldDelete || isDir i.type || decide (i.nLink.toNat + 1 < 2 ^ 32)
  | .deleteDentry d => (mp.inode? d.parentId).all fun i => i.shouldDelete || isDir i.type
  | .setAttr req =>
    (mp.inode? req.inode).all fun i =>
      i.shouldDelete || !isDir i.type || i.nLink != 0 ||
        isDir (i.setAttr req.valid req.mode req.uid req.gid).type
  | _ => true

variable {i : InodeCell} {queued : List UInt64} {c : Command} {ε : Type}

theorem isOrphan_iff {i : InodeOf ε} : i.isOrphan = true ↔
    isDir i.type = false ∧ (i.shouldDelete = true ∨ i.nLink.toNat = 0) := by
  simp [isOrphan, ← UInt32.toNat_inj]

theorem not_isOrphan_of_isDir {i : InodeOf ε} (h : isDir i.type = true) : i.isOrphan = false := by
  simp [isOrphan, h]

theorem Change.isOrphan {mp : MetaPartition} {ino : UInt64} {f : InodeCell → InodeCell}
    (h : Change i c ino f) (hi : mp.inode? ino = some i) (hk : mp.keepsQueued queued c = true)
    (ho : (f i).isOrphan = true) : i.isOrphan = true := by
  cases h with
  | link hm =>
    obtain ⟨hfile, hd⟩ := isOrphan_iff.mp ho
    have hfile' : isDir i.type = false := hfile
    have hlt : i.nLink.toNat + 1 < 2 ^ 32 := by simpa [keepsQueued, hi, hm, hfile'] using hk
    rw [shouldDelete_incNLink, toNat_incNLink hlt, hm] at hd
    obtain hd | hd := hd
    · cases hd
    · omega
  | unlinkFile hm hfile hne =>
    obtain ⟨-, hd⟩ := isOrphan_iff.mp ho
    rw [shouldDelete_unlink, hm] at hd
    obtain hd | hd := hd
    · cases hd
    · exact absurd hd hne
  | unlinkDir hm hdir =>
    rw [not_isOrphan_of_isDir (by rw [type_unlink]; exact hdir)] at ho
    cases ho
  | evict hm hn =>
    obtain ⟨hfile, -⟩ := isOrphan_iff.mp ho
    have hfile' : isDir i.type = false := hfile
    rw [hfile'] at hn
    exact isOrphan_iff.mpr ⟨hfile', .inr hn⟩
  | setAttr hm =>
    obtain ⟨hfile, hd⟩ := isOrphan_iff.mp ho
    have hz : i.nLink.toNat = 0 := by
      obtain hd | hd := hd
      · have hd' : i.shouldDelete = true := hd
        rw [hm] at hd'
        cases hd'
      · exact hd
    have hz' : i.nLink = 0 := UInt32.toNat_inj.mp hz
    have hold : isDir i.type = false := by simpa [keepsQueued, hi, hm, hz', hfile] using hk
    exact isOrphan_iff.mpr ⟨hold, .inr hz⟩
  | append _ hf | truncate _ hf _ =>
    obtain ⟨-, ht, hn, hf⟩ := hf i
    unfold isOrphan shouldDelete at ho ⊢
    rwa [ht, hn, hf] at ho
  | addDentry _ hdir =>
    have hno : i.incNLink.isOrphan = false := not_isOrphan_of_isDir hdir
    rw [hno] at ho
    cases ho
  | delDentry =>
    cases hm : i.shouldDelete with
    | true =>
      unfold decParent at ho
      rwa [if_pos hm] at ho
    | false =>
      have hdir : isDir i.type = true := by simpa [keepsQueued, hi, hm] using hk
      rw [not_isOrphan_of_isDir (by rw [type_decParent]; exact hdir)] at ho
      cases ho

theorem Effect.isOrphan {mp mp' : MetaPartition} (h : Effect mp c mp')
    (hk : mp.keepsQueued queued c = true) {x : UInt64} (hi : mp'.inode? x = some i)
    (ho : i.isOrphan = true) :
    ((∃ j, mp.inode? x = some j ∧ j.isOrphan = true) ∧ (mp'.freeList = mp.freeList ∨
        ∃ p, mp'.freeList = mp.freeList ++ [p] ∧ p < mp.inodeTree.next ∧ mp.idOf p ≠ x)) ∨
    (x ∉ queued ∧ ∃ p, mp'.freeList = mp.freeList ++ [p] ∧ p < mp.inodeTree.next ∧
      mp.idOf p = x) := by
  cases h with
  | same ht hl =>
    rw [inode?_of_eq ht] at hi
    exact .inl ⟨⟨i, hi, ho⟩, .inl hl⟩
  | @created ino _ hn ht hl =>
    rw [inode?_of_insert ht] at hi
    split at hi
    next hx =>
      obtain rfl := Option.some.inj hi
      have hno : ino.isOrphan = false := by simpa [keepsQueued, hn] using hk
      have ho' : ino.isOrphan = true := ho
      rw [hno] at ho'
      cases ho'
    · exact .inl ⟨⟨i, hi, ho⟩, .inl hl⟩
  | changed hf hj hc ht hl =>
    rw [inode?_of_update ht] at hi
    split at hi
    next hx =>
      subst hx
      rw [hj] at hi
      obtain rfl := Option.some.inj hi
      exact .inl ⟨⟨_, hj, hc.isOrphan hj hk ho⟩, .inl hl⟩
    · exact .inl ⟨⟨i, hi, ho⟩, .inl hl⟩
  | @orphaned ino p j _ hp hc hm hfile hz ht hl =>
    have hj : mp.inode? ino.inode = some j := inode?_eq_some_iff.mpr ⟨p, hp, hc⟩
    have hid : mp.idOf p = ino.inode := by
      unfold idOf
      rw [hc, inode_of_inode? hj]
    have hlt := ObjTree.addr?_lt_next hp
    rw [inode?_of_update ht] at hi
    split at hi
    next hx =>
      subst hx
      rw [toNat_unlink_file hfile] at hz
      have hone : ¬ 1 < j.nLink.toNat := by omega
      have hnot : ino.inode ∉ queued := by simpa [keepsQueued, hj, hm, hfile, hone] using hk
      exact .inr ⟨hnot, p, hl, hlt, hid⟩
    next hx => exact .inl ⟨⟨i, hi, ho⟩, .inr ⟨p, hl, hlt, fun heq => hx (heq.symm.trans hid)⟩⟩
  | removed _ _ ht hl => exact .inl ⟨⟨i, inode?_of_removed ht hi, ho⟩, .inl hl⟩
  | freed ht hl => exact .inl ⟨⟨i, (inode?_of_foldl_erase ht hi).1, ho⟩, .inl hl⟩

end MetaPartition

namespace Replica

def queued (s : Replica) : List UInt64 := s.pending.map s.mp.idOf

/-- What is asked of the inputs: the commands find what they must, the ids of a pass are written
down without an error, no inode that a pass commits is left in the tree as an orphan, the stored
files without links bear the mark, and an orphan of a snapshot is queued once. -/
def keepsQueued (s : Replica) : ReplicaEvent → Bool
  | .apply c _ => s.mp.keepsQueued s.queued c
  | .persist err => !err
  | .commit err =>
    err || s.worker.walked.all fun p => (s.mp.inode? (s.mp.idOf p)).all fun i => !i.isOrphan
  | .restart =>
    s.files.inodeTree.items.all fun j => isDir j.type || j.shouldDelete || j.nLink != 0
  | .applySnapshot image =>
    image.inodeTree.items.all fun j => !j.isOrphan || s.queued.count j.inode == 1
  | _ => true

def KeepsQueued (s : Replica) (e : ReplicaEvent) : Prop := s.keepsQueued e = true

instance (s : Replica) (e : ReplicaEvent) : Decidable (s.KeepsQueued e) :=
  inferInstanceAs (Decidable (s.keepsQueued e = true))

def Complete (s : Replica) : Prop :=
  ∀ x i, s.mp.inode? x = some i → i.isOrphan = true → s.queued.count x = 1

variable {s : Replica} {s' : Replica}

theorem count_queued {l : List Nat} (hb : s.Bounded) (hgrow : s.mp.inodeTree.Grows s'.mp.inodeTree)
    (hl : ∀ p ∈ l, p ∈ s.pending) (hp : s'.pending.Perm l) (x : UInt64) :
    s'.queued.count x = (l.map s.mp.idOf).count x := by
  have hmap : l.map s'.mp.idOf = l.map s.mp.idOf :=
    map_congr_left fun p hp => idOf_of_grows hgrow (hb p (hl p hp))
  rw [← hmap]
  exact (hp.map _).count_eq x

theorem complete_applied {c : MetaPartition.Command} {copied : List Nat} (hb : s.Bounded)
    (hc : s.Complete) (hk : s.KeepsQueued (.apply c copied)) :
    Complete { s with mp := (s.mp.copyInodes copied).apply c } := by
  intro x i hi ho
  have hst : Stepped s (.apply c copied) { s with mp := (s.mp.copyInodes copied).apply c } :=
    .applied
  have heff := (s.mp.copyInodes copied).apply_effect c
  have hget := s.mp.inode?_copyInodes copied
  have hk' : (s.mp.copyInodes copied).keepsQueued s.queued c = true := by
    unfold KeepsQueued keepsQueued MetaPartition.keepsQueued at hk
    unfold MetaPartition.keepsQueued
    simp only [hget]
    exact hk
  have hold : (s.pending.map ((s.mp.copyInodes copied).apply c).idOf).count x =
      s.queued.count x := by
    have hmap : s.pending.map ((s.mp.copyInodes copied).apply c).idOf = s.queued :=
      map_congr_left fun p hp => idOf_of_grows hst.grows (hb p hp)
    rw [hmap]
  have hfree : (s.mp.copyInodes copied).freeList = s.mp.freeList := rfl
  have hadd {p : Nat}
      (hl : ((s.mp.copyInodes copied).apply c).freeList = (s.mp.copyInodes copied).freeList ++ [p])
      (hp : p < (s.mp.copyInodes copied).inodeTree.next) :
      (queued { s with mp := (s.mp.copyInodes copied).apply c }).count x =
        s.queued.count x + if (s.mp.copyInodes copied).idOf p = x then 1 else 0 := by
    have hid := idOf_of_grows heff.grows hp
    rw [← hold]
    unfold queued pending
    dsimp only
    rw [hl, hfree]
    simp only [map_append, map_cons, map_nil, count_append, count_cons, count_nil, hid, beq_iff_eq]
    omega
  obtain ⟨⟨j, hj, hoj⟩, hl⟩ | ⟨hnot, p, hl, hp, hid⟩ := heff.isOrphan hk' hi ho
  · have hone := hc x j ((hget x).symm.trans hj) hoj
    obtain hl | ⟨p, hl, hp, hid⟩ := hl
    · unfold queued pending
      dsimp only
      rw [hl, hfree]
      exact hold.trans hone
    · rw [hadd hl hp, if_neg hid, hone]
  · rw [hadd hl hp, if_pos hid, count_eq_zero.mpr hnot]

theorem complete_step {e : ReplicaEvent} (hb : s.Bounded) (hc : s.Complete) (hk : s.KeepsQueued e)
    (hst : Stepped s e s') : s'.Complete := by
  have hgrow := hst.grows
  cases hst with
  | applied => exact complete_applied hb hc hk
  | @touched now ino =>
    intro x i hi ho
    obtain ⟨j, t, hj, rfl⟩ := MetaPartition.inode?_getInode hi
    rw [count_queued hb hgrow (fun _ h => h) (.of_eq (s.pending_getInode now ino))]
    exact hc x j hj ho
  | moved ht hperm _ _ | cleaned ht hperm _ _ _ =>
    intro x i hi ho
    rw [count_queued hb hgrow (fun _ h => h) hperm]
    exact hc x i ((MetaPartition.inode?_of_eq ht x).symm.trans hi) ho
  | doubled => cases hk
  | @requeued _ now q reExt _ others _ ht hperm hperm' _ _ _ _ =>
    intro x i hi ho
    have hi' : s.mp.inode? x = some i := (MetaPartition.inode?_of_alloc ht x).symm.trans hi
    have hnew : s'.mp.idOf s.mp.inodeTree.next = s.mp.idOf q := MetaPartition.idOf_requeued ht
    have hothers : others.map s'.mp.idOf = others.map s.mp.idOf :=
      map_congr_left fun p hp => idOf_of_grows hgrow
        (hb p (hperm.symm.subset (mem_cons_of_mem q hp)))
    have hone := hc x i hi' ho
    unfold queued at hone ⊢
    rw [(hperm.map _).count_eq x, map_cons] at hone
    rw [(hperm'.map _).count_eq x, map_cons, hothers, hnew]
    exact hone
  | @committed shouldCommit _ hw hmp hperm _ _ =>
    intro x i hi ho
    rw [hmp] at hi
    have hone := hc x i hi ho
    have hnot : x ∉ shouldCommit.map s.mp.idOf := by
      intro hmem
      obtain ⟨p, hp, hid⟩ := mem_map.mp hmem
      unfold KeepsQueued keepsQueued at hk
      rw [hw] at hk
      have hall := all_eq_true.mp hk p hp
      rw [hid, hi] at hall
      simp [ho] at hall
    unfold queued at hone ⊢
    rw [(hperm.map _).count_eq x, map_append, count_append, count_eq_zero.mpr hnot] at hone
    rw [hmp]
    omega
  | @dropped p _ hnone hmp hperm _ _ =>
    intro x i hi ho
    rw [hmp] at hi
    have hone := hc x i hi ho
    have hne : s.mp.idOf p ≠ x := by
      intro heq
      rw [heq, hi] at hnone
      cases hnone
    unfold queued at hone ⊢
    rw [(hperm.map _).count_eq x, map_cons, count_cons_of_ne hne] at hone
    rw [hmp]
    exact hone
  | restarted =>
    intro x i hi ho
    have hloaded := MetaPartition.loaded_loadFiles s.mp s.files
    obtain ⟨hfile, -⟩ := MetaPartition.isOrphan_iff.mp ho
    obtain ⟨j, hj, -, htype, hn, hflag⟩ := hloaded.source x i hi
    have hmark : i.shouldDelete = true := by
      have hall := all_eq_true.mp hk j hj
      obtain ⟨-, hd | hd⟩ := MetaPartition.isOrphan_iff.mp ho
      · exact hd
      · rw [htype] at hfile
        have hz : j.nLink = 0 := hn ▸ UInt32.toNat_inj.mp hd
        have hmark : j.shouldDelete = true := by simpa [hfile, hz] using hall
        unfold shouldDelete at hmark ⊢
        rw [hflag]
        exact hmark
    have hmem := hloaded.queued x i hi hfile hmark
    rw [queued, pending_restart]
    exact count_eq_one_of_mem hloaded.nodup hmem
  | @installed image =>
    intro x i hi ho
    obtain ⟨j, hj, hino, h, rfl⟩ := MetaPartition.inode?_installSnapshot hi
    have hall := all_eq_true.mp hk j hj
    have hoj : j.isOrphan = true := ho
    rw [count_queued hb hgrow (fun _ h => h) (.of_eq (s.pending_installSnapshot image))]
    have hone : s.queued.count j.inode = 1 := by simpa [hoj] using hall
    rw [← hino]
    exact hone

/-- In a run that keeps the orphans queued, every orphan is on the free list just once or in the
hands of a worker. -/
theorem orphan_queued {start endId : UInt64} {s : Replica} (h : Reached KeepsQueued start endId s)
    {x : UInt64} {i : InodeCell} (hi : s.mp.inode? x = some i) (ho : i.isOrphan = true) :
    (s.mp.freeList.map s.mp.idOf).count x = 1 ∨
      x ∈ (s.worker.held ++ s.checker.held).map s.mp.idOf := by
  have hinv : s.Bounded ∧ s.Complete := by
    refine Reach.invariant (P := fun s => s.Bounded ∧ s.Complete) h ⟨nofun, ?_⟩ ?_
    · intro x i hi
      cases hi
    · intro s e s' ⟨hb, hc⟩ ⟨_, hk⟩ hs
      have hst := stepped_of_step hs
      exact ⟨bounded_step hb hst, complete_step hb hc hk hst⟩
  have hone := hinv.2 x i hi ho
  unfold queued pending at hone
  rw [map_append, count_append] at hone
  by_cases hmem : x ∈ (s.worker.held ++ s.checker.held).map s.mp.idOf
  · exact .inr hmem
  · rw [count_eq_zero.mpr hmem] at hone
    exact .inl hone

def unlinkAndDelay : List ReplicaEvent :=
  [.apply (.createInode oneFile) [], .apply (.unlinkInode oneFile) [], .beginPass 0, .pop, .pop,
    .pushTemp]

theorem orphan_queued_delayed :
    ∃ s i, Reached KeepsQueued 0 100 s ∧ s.mp.inode? 1 = some i ∧ i.isOrphan = true ∧
      ((s.mp.freeList.map s.mp.idOf).count 1 = 1 ∨
        1 ∈ (s.worker.held ++ s.checker.held).map s.mp.idOf) := by
  have hrun : ∃ s i, unlinkAndDelay.foldlM
      (fun (s : Replica) e => if s.Admits e ∧ s.KeepsQueued e then s.step e else none)
      (new 0 100) = some s ∧ s.mp.inode? 1 = some i ∧ i.isOrphan = true := ⟨_, _, rfl, rfl, rfl⟩
  obtain ⟨s, i, hrun, hi, ho⟩ := hrun
  have hr : Reached KeepsQueued 0 100 s := Reach.of_checked _ hrun .start
  exact ⟨s, i, hr, hi, ho, orphan_queued hr hi ho⟩

def unlinkAndCommit : List ReplicaEvent :=
  [.apply (.createInode oneFile) [], .apply (.unlinkInode oneFile) [], .beginPass 86401, .pop, .pop,
    .pushTemp, .persist false, .persist false, .deleteExtents 0 [] 0, .commit false]

/-- The leader keeps the inode in its own tree after it was freed, and forgets it. -/
theorem orphan_forgotten :
    ∃ s i, Reached (fun _ _ => True) 0 100 s ∧ s.mp.inode? 1 = some i ∧ i.isOrphan = true ∧
      s.mp.freeList = [] ∧ s.worker.held = [] ∧ s.checker.held = [] := by
  have hrun : ∃ s i, unlinkAndCommit.foldlM
      (fun (s : Replica) e => if s.Admits e ∧ True then s.step e else none) (new 0 100) = some s ∧
      s.mp.inode? 1 = some i ∧ i.isOrphan = true ∧ s.mp.freeList = [] ∧ s.worker.held = [] ∧
      s.checker.held = [] := ⟨_, _, rfl, rfl, rfl, rfl, rfl, rfl⟩
  obtain ⟨s, i, hrun, hrest⟩ := hrun
  exact ⟨s, i, Reach.of_checked _ hrun .start, hrest⟩

end Replica
end ChubaoFS
