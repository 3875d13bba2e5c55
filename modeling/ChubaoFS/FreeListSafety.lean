import ChubaoFS.FreeList

namespace ChubaoFS

/-! Which inodes the extents are deleted of. -/

namespace MetaPartition

def Dead (mp : MetaPartition) (ino : UInt64) : Prop :=
  ∀ i, mp.inode? ino = some i → i.shouldDelete = true ∨ i.nLink.toNat = 0

def revives (mp : MetaPartition) (c : Command) (ino : UInt64) : Bool :=
  match c with
  | .createInode j => j.inode == ino && (mp.inode? ino).isNone && !j.shouldDelete && j.nLink != 0
  | .createLinkInode j => j.inode == ino && (mp.inode? ino).any fun i => !i.shouldDelete
  | .createDentry d =>
    d.parentId == ino && (mp.inode? ino).any fun i => !i.shouldDelete && isDir i.type
  | _ => false

theorem toNat_decNLink_le {ε : Type} (i : InodeOf ε) : i.decNLink.nLink.toNat ≤ i.nLink.toNat := by
  cases hdir : isDir i.type with
  | true =>
    rw [InodeOf.toNat_decNLink_dir hdir]
    split <;> omega
  | false =>
    rw [InodeOf.toNat_decNLink_file hdir]
    omega

theorem dead_decNLink {ε : Type} {i : InodeOf ε} (hd : i.shouldDelete = true ∨ i.nLink.toNat = 0) :
    i.decNLink.shouldDelete = true ∨ i.decNLink.nLink.toNat = 0 := by
  have hle := toNat_decNLink_le i
  rw [InodeOf.shouldDelete_decNLink]
  exact hd.imp_right fun h => by omega

theorem Change.dead {mp : MetaPartition} {i : InodeCell} {c : Command} {ino : UInt64}
    {f : InodeCell → InodeCell} (h : Change i c ino f) (hi : mp.inode? ino = some i)
    (hr : mp.revives c ino = false) (hd : i.shouldDelete = true ∨ i.nLink.toNat = 0) :
    (f i).shouldDelete = true ∨ (f i).nLink.toNat = 0 := by
  cases h with
  | link hm => simp [revives, hi, hm] at hr
  | unlinkFile | unlinkDir => exact dead_decNLink hd
  | evict => exact .inl i.shouldDelete_setDeleteMark
  | setAttr => exact hd
  | append _ hf | truncate _ hf _ =>
    obtain ⟨-, -, hn, hf⟩ := hf i
    unfold InodeOf.shouldDelete at hd ⊢
    rwa [hn, hf]
  | addDentry hm hdir => simp [revives, hi, hm, hdir] at hr
  | delDentry =>
    unfold decParent
    split
    · exact hd
    · exact dead_decNLink hd

theorem Effect.dead {mp mp' : MetaPartition} {c : Command} {x : UInt64} (h : Effect mp c mp')
    (hd : mp.Dead x) (hr : mp.revives c x = false) : mp'.Dead x := by
  intro i hi
  cases h with
  | same ht _ =>
    rw [inode?_of_eq ht] at hi
    exact hd i hi
  | @created ino _ hn ht _ =>
    rw [inode?_of_insert ht] at hi
    split at hi
    next hx =>
      cases hi
      have hx' : ino.inode = x := hx.symm
      subst hx'
      have hdead : ino.shouldDelete = true ∨ ino.nLink = 0 := by
        simpa [revives, hn, Classical.or_iff_not_imp_left] using hr
      exact hdead.imp_right fun h => UInt32.toNat_inj.mpr h
    · exact hd i hi
  | changed hf hj hc ht _ =>
    rw [inode?_of_update ht] at hi
    split at hi
    next hx =>
      subst hx
      rw [hj] at hi
      cases hi
      exact hc.dead hj hr (hd _ hj)
    · exact hd i hi
  | orphaned hp hc _ _ hz ht _ =>
    rw [inode?_of_update ht] at hi
    split at hi
    next hx =>
      subst hx
      rw [inode?_eq_some_iff.mpr ⟨_, hp, hc⟩] at hi
      cases hi
      exact .inr hz
    · exact hd i hi
  | removed _ _ ht _ => exact hd i (inode?_of_removed ht hi)
  | freed ht _ => exact hd i (inode?_of_foldl_erase ht hi).1

end MetaPartition

namespace Replica

def revives (s : Replica) (e : ReplicaEvent) (ino : UInt64) : Bool :=
  match e with
  | .apply c _ => s.mp.revives c ino
  | .applySnapshot image =>
    image.inodeTree.items.any fun j => j.inode == ino && !j.shouldDelete && j.nLink != 0
  | _ => false

/-- No pending inode is brought back to life. -/
def KeepsDead (s : Replica) (e : ReplicaEvent) : Prop :=
  ∀ p ∈ s.pending, s.revives e (s.mp.idOf p) = false

theorem dead_step {s s' : Replica} {e : ReplicaEvent} (hb : s.Bounded)
    (hd : ∀ p ∈ s.pending, s.mp.Dead (s.mp.idOf p)) (hk : s.KeepsDead e) (h : Stepped s e s') :
    ∀ p ∈ s'.pending, s'.mp.Dead (s'.mp.idOf p) := by
  intro p hp
  have hid (hp : p ∈ s.pending) : s'.mp.idOf p = s.mp.idOf p :=
    MetaPartition.idOf_of_grows h.grows (hb p hp)
  have hold (hp : p ∈ s.pending) (ht : s'.mp.inodeTree = s.mp.inodeTree) :
      s'.mp.Dead (s'.mp.idOf p) := by
    intro i hi
    rw [hid hp, MetaPartition.inode?_of_eq ht] at hi
    exact hd p hp i hi
  cases h with
  | @applied c copied =>
    obtain hp | ⟨i, -, hi, hz⟩ := mem_pending_applied (s.mp.copyInodes copied) rfl
      (MetaPartition.apply_effect _ _) hp
    · rw [hid hp]
      refine (MetaPartition.apply_effect _ c).dead ?_ ?_
      · intro i hi
        rw [MetaPartition.inode?_copyInodes] at hi
        exact hd p hp i hi
      · have hr := hk p hp
        unfold revives MetaPartition.revives at hr
        unfold MetaPartition.revives
        simp only [MetaPartition.inode?_copyInodes]
        exact hr
    · intro j hj
      rw [hi] at hj
      cases hj
      exact .inr hz
  | touched =>
    rw [pending_getInode] at hp
    rw [hid hp]
    intro i hi
    obtain ⟨j, t, hj, rfl⟩ := MetaPartition.inode?_getInode hi
    exact hd p hp j hj
  | moved ht hperm _ _ | cleaned ht hperm _ _ _ => exact hold (hperm.subset hp) ht
  | doubled ht hperm hmem _ _ =>
    obtain rfl | hp := List.mem_cons.mp (hperm.subset hp)
    · exact hold hmem ht
    · exact hold hp ht
  | @requeued _ now q reExt _ _ _ ht hperm hperm' _ _ _ _ =>
    have hq (q : Nat) (hq : q ∈ s.pending) : s'.mp.Dead (s.mp.idOf q) := by
      intro i hi
      rw [MetaPartition.inode?_of_alloc ht] at hi
      exact hd q hq i hi
    obtain rfl | hp := List.mem_cons.mp (hperm'.subset hp)
    · have hnew : s'.mp.idOf s.mp.inodeTree.next = s.mp.idOf q := MetaPartition.idOf_requeued ht
      rw [hnew]
      exact hq q (hperm.symm.subset (List.mem_cons_self ..))
    · have hp' := hperm.symm.subset (List.mem_cons_of_mem q hp)
      rw [hid hp']
      exact hq p hp'
  | committed _ hmp hperm _ _ =>
    exact hold (hperm.symm.subset (List.mem_append_right _ hp)) (by rw [hmp])
  | dropped _ hmp hperm _ _ =>
    exact hold (hperm.symm.subset (List.mem_cons_of_mem _ hp)) (by rw [hmp])
  | restarted =>
    rw [pending_restart] at hp
    obtain ⟨hown, hmark⟩ := (MetaPartition.loaded_loadFiles s.mp s.files).own p hp
    intro i hi
    rw [MetaPartition.inode?_idOf hown] at hi
    cases hi
    exact .inl hmark
  | installed =>
    rw [pending_installSnapshot] at hp
    rw [hid hp]
    intro i hi
    obtain ⟨j, hj, hino, h, rfl⟩ := MetaPartition.inode?_installSnapshot hi
    have hr := hk p hp
    simp only [revives, List.any_eq_false] at hr
    have hj' := hr j hj
    rw [hino] at hj'
    have hdead : j.shouldDelete = true ∨ j.nLink = 0 := by
      simpa [Classical.or_iff_not_imp_left] using hj'
    exact hdead.imp_right fun h => UInt32.toNat_inj.mpr h

/-- As long as no pending inode is brought back to life, `deleteMarkedInodes` deletes the extents
of dead inodes only. -/
theorem dead_of_deleting {start endId : UInt64} {s : Replica} (h : Reached KeepsDead start endId s)
    {rest shouldCommit : List Nat} (hw : s.worker = .deleting rest shouldCommit) {p : Nat}
    (hp : p ∈ rest) : s.mp.Dead (s.mp.idOf p) := by
  have hinv : s.Bounded ∧ ∀ p ∈ s.pending, s.mp.Dead (s.mp.idOf p) := by
    refine Reach.invariant (P := fun s => s.Bounded ∧ ∀ p ∈ s.pending, s.mp.Dead (s.mp.idOf p)) h
      ⟨nofun, nofun⟩ ?_
    intro s e s' ⟨hb, hd⟩ ⟨_, hk⟩ hs
    have hst := stepped_of_step hs
    exact ⟨bounded_step hb hst, dead_step hb hd hk hst⟩
  refine hinv.2 p ?_
  unfold pending
  rw [hw]
  simp [DeleteWorker.held, hp]

instance (s : Replica) (e : ReplicaEvent) : Decidable (s.KeepsDead e) :=
  inferInstanceAs (Decidable (∀ p ∈ s.pending, s.revives e (s.mp.idOf p) = false))

def unlinkAndFree : List ReplicaEvent :=
  [.apply (.createInode oneFile) [], .apply (.unlinkInode oneFile) [], .beginPass 86401, .pop, .pop,
    .pushTemp, .persist false, .persist false]

theorem dead_of_deleting_unlinked :
    ∃ s, Reached KeepsDead 0 100 s ∧ s.worker = .deleting [0] [] ∧ s.mp.Dead (s.mp.idOf 0) := by
  have hrun : ∃ s, unlinkAndFree.foldlM
      (fun (s : Replica) e => if s.Admits e ∧ s.KeepsDead e then s.step e else none) (new 0 100) =
        some s ∧ s.worker = .deleting [0] [] := ⟨_, rfl, rfl⟩
  obtain ⟨s, hrun, hw⟩ := hrun
  have hr : Reached KeepsDead 0 100 s := Reach.of_checked unlinkAndFree hrun .start
  exact ⟨s, hr, hw, dead_of_deleting hr hw (List.mem_singleton.mpr rfl)⟩

/-- A link makes the file live again, and the next pass deletes its extents without delay. -/
theorem live_inode_deleted :
    ∃ s i, Reached (fun _ _ => True) 0 100 s ∧ s.worker = .deleting [0] [] ∧
      s.mp.inode? (s.mp.idOf 0) = some i ∧ i.shouldDelete = false ∧ i.nLink = 1 := by
  have hrun : ∃ s i, [.apply (.createInode oneFile) [], .apply (.unlinkInode oneFile) [],
      .apply (.createLinkInode oneFile) [], .beginPass 0, .pop, .pop, .pushTemp, .persist false,
      .persist false].foldlM
      (fun (s : Replica) e => if s.Admits e ∧ True then s.step e else none) (new 0 100) = some s ∧
      s.worker = .deleting [0] [] ∧ s.mp.inode? (s.mp.idOf 0) = some i ∧
      i.shouldDelete = false ∧ i.nLink = 1 := ⟨_, _, rfl, rfl, rfl, rfl, rfl⟩
  obtain ⟨s, i, hrun, hrest⟩ := hrun
  exact ⟨s, i, Reach.of_checked _ hrun .start, hrest⟩

end Replica
end ChubaoFS
