import ChubaoFS.FreeList

namespace ChubaoFS

open List MetaPartition Option

/-! How the replicas of a partition are told to remove the inodes that were freed. This goes past
the raft log, from the replica that freed them to each of its peers. -/

/-- A call of `syncToRaftFollowersFreeInode` in progress: what is to be removed, the peers that are
still to be told, and whether one of the others failed. -/
structure FreeSync (n : Nat) where
  hasDeleteInodes : List UInt64
  raftPeers : List (Fin n)
  failed : Bool

/-- `freed` are the inodes of the batches for which the call has returned no error. -/
structure ReplicaGroup (n : Nat) where
  replica : Fin n → Replica
  sync : Fin n → Option (FreeSync n)
  freed : List UInt64

inductive GroupEvent (n : Nat)
  | act (i : Fin n) (e : ReplicaEvent)
  | beginSync (i : Fin n)
  | notify (i : Fin n) (processed replied : Bool)
  | endSync (i : Fin n)

namespace ReplicaGroup

variable {n : Nat}

def new (n : Nat) (start endId : UInt64) : ReplicaGroup n where
  replica _ := Replica.new start endId
  sync _ := none
  freed := []

def getPeers (i : Fin n) : List (Fin n) := (List.finRange n).filter (· ≠ i)

def setReplica (g : ReplicaGroup n) (i : Fin n) (r : Replica) : ReplicaGroup n :=
  { g with replica := Function.update g.replica i r }

def act (g : ReplicaGroup n) (i : Fin n) (e : ReplicaEvent) : Option (ReplicaGroup n) :=
  match e with
  | .commit _ => none
  | .restart => ((g.replica i).step e).map fun r =>
      { g.setReplica i r with sync := Function.update g.sync i none }
  | _ => ((g.replica i).step e).map (g.setReplica i)

def beginSync (g : ReplicaGroup n) (i : Fin n) : Option (ReplicaGroup n) :=
  match (g.replica i).worker, g.sync i with
  | .deleting [] shouldCommit, none =>
    if shouldCommit = [] then none
    else
      let inos := shouldCommit.map (g.replica i).mp.idOf
      some { g with sync := Function.update g.sync i (some ⟨inos, getPeers i, false⟩) }
  | _, _ => none

def internalDelete (g : ReplicaGroup n) (j : Fin n) (inos : List UInt64) : ReplicaGroup n :=
  g.setReplica j { g.replica j with mp := (g.replica j).mp.internalDelete inos }

def notify (g : ReplicaGroup n) (i : Fin n) (processed replied : Bool) : Option (ReplicaGroup n) :=
  match g.sync i with
  | some ⟨inos, target :: raftPeers, failed⟩ =>
    let g := if processed then g.internalDelete target inos else g
    let failed := failed || !(processed && replied)
    some { g with sync := Function.update g.sync i (some ⟨inos, raftPeers, failed⟩) }
  | _ => none

def endSync (g : ReplicaGroup n) (i : Fin n) : Option (ReplicaGroup n) :=
  match g.sync i with
  | some ⟨inos, [], failed⟩ =>
    ((g.replica i).step (.commit failed)).map fun r =>
      { g.setReplica i r with
        sync := Function.update g.sync i none
        freed := if failed then g.freed else inos ++ g.freed }
  | _ => none

def step (g : ReplicaGroup n) : GroupEvent n → Option (ReplicaGroup n)
  | .act i e => g.act i e
  | .beginSync i => g.beginSync i
  | .notify i processed replied => g.notify i processed replied
  | .endSync i => g.endSync i

def Admits (g : ReplicaGroup n) : GroupEvent n → Prop
  | .act i e => (g.replica i).Admits e
  | _ => True

def Reached (allow : ReplicaGroup n → GroupEvent n → Prop) (start endId : UInt64) :
    ReplicaGroup n → Prop :=
  Reach step (fun g e => g.Admits e ∧ allow g e) (new n start endId)

end ReplicaGroup

def Replica.brings (s : Replica) (e : ReplicaEvent) (ino : UInt64) : Bool :=
  match e with
  | .apply (.createInode j) _ => j.inode == ino
  | .restart => s.files.inodeTree.items.any fun j => j.inode == ino
  | .applySnapshot image => image.inodeTree.items.any fun j => j.inode == ino
  | _ => false

theorem MetaPartition.Effect.inode?_old {mp mp' : MetaPartition} {c : Command} {x : UInt64}
    (h : Effect mp c mp') (hnew : ∀ j, c = .createInode j → j.inode ≠ x)
    (hx : mp.inode? x = none) : mp'.inode? x = none := by
  cases h with
  | same ht _ => rwa [inode?_of_eq ht]
  | created _ ht _ =>
    rw [inode?_of_insert ht, if_neg fun heq => hnew _ rfl heq.symm]
    exact hx
  | changed hf _ _ ht _ | orphaned _ _ _ _ _ ht _ =>
    rw [inode?_of_update ht, hx]
    split <;> rfl
  | removed _ _ ht _ =>
    by_contra hne
    obtain ⟨i, hi⟩ := Option.ne_none_iff_exists'.mp hne
    rw [inode?_of_removed ht hi] at hx
    cases hx
  | @freed inos _ ht _ =>
    cases hi : mp'.inode? x with
    | none => rfl
    | some i =>
      rw [(inode?_of_foldl_erase ht hi).1] at hx
      cases hx

variable {e : ReplicaEvent}

theorem Replica.Stepped.inode?_none {s s' : Replica} {x : UInt64} (h : Replica.Stepped s e s')
    (hb : s.brings e x = false) (hx : s.mp.inode? x = none) : s'.mp.inode? x = none := by
  cases h with
  | @applied c copied =>
    refine (apply_effect _ c).inode?_old ?_ ?_
    · rintro j rfl
      simpa [brings] using hb
    · exact (s.mp.inode?_copyInodes copied x).trans hx
  | @touched now ino =>
    cases hi : (s.mp.getInode now ino).1.inode? x with
    | none => rfl
    | some i =>
      obtain ⟨j, -, hj, -⟩ := inode?_getInode hi
      rw [hx] at hj
      cases hj
  | moved ht _ _ _ | doubled ht _ _ _ _ | cleaned ht _ _ _ _ => rwa [inode?_of_eq ht]
  | requeued ht _ _ _ _ _ _ => exact (inode?_of_alloc ht x).trans hx
  | committed _ hmp _ _ _ | dropped _ hmp _ _ _ => rwa [hmp]
  | restarted =>
    cases hi : (s.mp.loadFiles s.files).inode? x with
    | none => rfl
    | some i =>
      obtain ⟨j, hj, hino, -⟩ := (loaded_loadFiles s.mp s.files).source x i hi
      have hne := any_eq_false.mp hb j hj
      simp [hino] at hne
  | @installed image =>
    cases hi : (s.mp.installSnapshot image).inode? x with
    | none => rfl
    | some i =>
      obtain ⟨j, hj, hino, -⟩ := inode?_installSnapshot hi
      have hne := any_eq_false.mp hb j hj
      simp [hino] at hne

namespace ReplicaGroup

variable {n : Nat}

def told (g : ReplicaGroup n) (j : Fin n) : List UInt64 :=
  g.freed ++ (List.finRange n).flatMap fun i =>
    match g.sync i with
    | none => []
    | some s => if i ≠ j ∧ s.failed = false ∧ j ∉ s.raftPeers then s.hasDeleteInodes else []

variable {g : ReplicaGroup n} {x : UInt64} {j : Fin n}

theorem mem_told : x ∈ g.told j ↔
    x ∈ g.freed ∨ ∃ i s, i ≠ j ∧ g.sync i = some s ∧ s.failed = false ∧ j ∉ s.raftPeers ∧
      x ∈ s.hasDeleteInodes := by
  unfold told
  rw [mem_append, mem_flatMap]
  refine or_congr_right ⟨?_, ?_⟩
  · rintro ⟨i, -, hx⟩
    split at hx
    · cases hx
    next s hs =>
      split at hx
      next hc => exact ⟨i, s, hc.1, hs, hc.2.1, hc.2.2, hx⟩
      · cases hx
  · rintro ⟨i, s, hij, hs, hok, hpeer, hx⟩
    refine ⟨i, mem_finRange i, ?_⟩
    rw [hs]
    dsimp only
    rw [if_pos ⟨hij, hok, hpeer⟩]
    exact hx

/-- No replica takes up an inode that it was told to free, by a create, a restart or a snapshot,
and the replica that ends a sync without a failure has dropped the inodes itself. -/
def KeepsFreed (g : ReplicaGroup n) : GroupEvent n → Prop
  | .act j e => (g.told j).all (fun x => !(g.replica j).brings e x) = true
  | .endSync i => (g.sync i).all (fun s => s.failed ||
      s.hasDeleteInodes.all fun x => ((g.replica i).mp.inode? x).isNone) = true
  | _ => True

def Removed (g : ReplicaGroup n) : Prop :=
  ∀ j, ∀ x ∈ g.told j, (g.replica j).mp.inode? x = none

theorem inode?_internalDelete {mp : MetaPartition} {inos : List UInt64}
    (h : mp.inode? x = none ∨ x ∈ inos) : (mp.internalDelete inos).inode? x = none := by
  cases hi : (mp.internalDelete inos).inode? x with
  | none => rfl
  | some i =>
    obtain ⟨hold, hnot⟩ := inode?_of_foldl_erase (mp.internalDelete_eq inos).1 hi
    obtain h | h := h
    · rw [h] at hold
      cases hold
    · exact absurd h hnot

variable {g' : ReplicaGroup n}

theorem told_of_sync (hf : g'.freed = g.freed) (hs : ∀ i s, g'.sync i = some s → g.sync i = some s)
    (h : x ∈ g'.told j) : x ∈ g.told j := by
  rw [mem_told] at h ⊢
  obtain h | ⟨i, s, hi, hsync, hrest⟩ := h
  · exact .inl (hf ▸ h)
  · exact .inr ⟨i, s, hi, hs i s hsync, hrest⟩

variable {i : Fin n}

theorem act_eq (h : g.act i e = some g') :
    ∃ r, (g.replica i).step e = some r ∧ g'.replica = Function.update g.replica i r ∧
      g'.freed = g.freed ∧ ∀ k s, g'.sync k = some s → g.sync k = some s := by
  unfold act at h
  split at h
  · cases h
  · obtain ⟨r, hr, rfl⟩ := map_eq_some_iff.mp h
    refine ⟨r, hr, rfl, rfl, ?_⟩
    intro k s hk
    by_cases hki : k = i
    · subst hki
      simp at hk
    · simpa [hki] using hk
  · obtain ⟨r, hr, rfl⟩ := map_eq_some_iff.mp h
    exact ⟨r, hr, rfl, rfl, fun k s hk => hk⟩

theorem removed_act (h : g.Removed) (hk : g.KeepsFreed (.act i e)) (hs : g.act i e = some g') :
    g'.Removed := by
  obtain ⟨r, hr, hrep, hf, hsync⟩ := act_eq hs
  intro j x htold
  have htold' := told_of_sync hf hsync htold
  rw [hrep]
  by_cases hji : j = i
  · subst hji
    rw [Function.update_self]
    have hbrings : (g.replica j).brings e x = false := by
      simpa using all_eq_true.mp hk x htold'
    exact (Replica.stepped_of_step hr).inode?_none hbrings (h j x htold')
  · rw [Function.update_of_ne hji]
    exact h j x htold'

theorem removed_beginSync (h : g.Removed) (hs : g.beginSync i = some g') : g'.Removed := by
  unfold beginSync at hs
  split at hs
  next shouldCommit hw hnone =>
    split at hs
    · cases hs
    obtain rfl := some.inj hs
    intro j x htold
    obtain hx | ⟨k, s, hkj, hk, hok, hpeer, hx⟩ := mem_told.mp htold
    · exact h j x (mem_told.mpr (.inl hx))
    · by_cases hki : k = i
      · -- no peer has been told yet
        subst hki
        obtain rfl : _ = s := some.inj (by simpa using hk)
        have hmem : j ∈ getPeers k := by simp [getPeers, Ne.symm hkj]
        exact absurd hmem hpeer
      · have hk' : g.sync k = some s := by simpa [hki] using hk
        exact h j x (mem_told.mpr (.inr ⟨k, s, hkj, hk', hok, hpeer, hx⟩))
  · cases hs

theorem replica_internalDelete (g : ReplicaGroup n) (t j : Fin n) (inos : List UInt64) :
    (g.internalDelete t inos).replica j = if j = t then
      { g.replica t with mp := (g.replica t).mp.internalDelete inos } else g.replica j := by
  unfold internalDelete setReplica
  by_cases hj : j = t
  · subst hj
    simp
  · simp [hj]

theorem removed_notify {processed replied : Bool} (h : g.Removed)
    (hs : g.notify i processed replied = some g') : g'.Removed := by
  unfold notify at hs
  split at hs
  next inos t raftPeers failed hsync =>
    obtain rfl := some.inj hs
    -- a replica that has not an inode does not get it from a notification
    have hold {j : Fin n} {x : UInt64} (hx : (g.replica j).mp.inode? x = none) :
        ((if processed then g.internalDelete t inos else g).replica j).mp.inode? x = none := by
      split
      · rw [replica_internalDelete]
        split
        next heq => exact inode?_internalDelete (.inl (heq ▸ hx))
        · exact hx
      · exact hx
    have hfreed : (if processed then g.internalDelete t inos else g).freed = g.freed := by
      split <;> rfl
    have hsame : (if processed then g.internalDelete t inos else g).sync = g.sync := by
      split <;> rfl
    intro j x htold
    obtain hx | ⟨k, s, hkj, hk, hok, hpeer, hx⟩ := mem_told.mp htold
    · exact hold (h j x (mem_told.mpr (.inl (hfreed ▸ hx))))
    · dsimp only at hk
      rw [hsame] at hk
      by_cases hki : k = i
      · subst hki
        obtain rfl : _ = s := some.inj (by simpa using hk)
        obtain ⟨hfail, hproc, -⟩ : failed = false ∧ processed = true ∧ replied = true := by
          simpa using hok
        subst hproc
        by_cases hjt : j = t
        · dsimp only
          rw [if_pos rfl, replica_internalDelete, if_pos hjt]
          exact inode?_internalDelete (.inr hx)
        · have hnot : j ∉ t :: raftPeers := by simpa [hjt] using hpeer
          exact hold (h j x (mem_told.mpr (.inr ⟨k, _, hkj, hsync, hfail, hnot, hx⟩)))
      · have hk' : g.sync k = some s := by simpa [hki] using hk
        exact hold (h j x (mem_told.mpr (.inr ⟨k, s, hkj, hk', hok, hpeer, hx⟩)))
  · cases hs

theorem removed_endSync (h : g.Removed) (hk : g.KeepsFreed (.endSync i))
    (hs : g.endSync i = some g') : g'.Removed := by
  unfold endSync at hs
  split at hs
  next inos failed hsync =>
    obtain ⟨r, hr, rfl⟩ := map_eq_some_iff.mp hs
    have hst := Replica.stepped_of_step hr
    have hold {j : Fin n} {x : UInt64} (hx : (g.replica j).mp.inode? x = none) :
        ((g.setReplica i r).replica j).mp.inode? x = none := by
      unfold setReplica
      by_cases hji : j = i
      · subst hji
        simpa using hst.inode?_none rfl hx
      · simpa [hji] using hx
    intro j x htold
    apply hold
    obtain hx | ⟨k, s, hkj, hsk, hok, hpeer, hx⟩ := mem_told.mp htold
    · dsimp only at hx
      cases failed with
      | true => exact h j x (mem_told.mpr (.inl hx))
      | false =>
        obtain hx | hx := mem_append.mp hx
        · by_cases hji : j = i
          · subst hji
            dsimp only [KeepsFreed] at hk
            rw [hsync] at hk
            have hall : ∀ x ∈ inos, (g.replica j).mp.inode? x = none := by simpa using hk
            exact hall x hx
          · exact h j x (mem_told.mpr
              (.inr ⟨i, _, Ne.symm hji, hsync, rfl, not_mem_nil, hx⟩))
        · exact h j x (mem_told.mpr (.inl hx))
    · by_cases hki : k = i
      · subst hki
        simp at hsk
      · have hk' : g.sync k = some s := by simpa [hki] using hsk
        exact h j x (mem_told.mpr (.inr ⟨k, s, hkj, hk', hok, hpeer, hx⟩))
  · cases hs

/-- In a run in which the replicas keep clear of freed inodes, no replica has an inode of a batch
for which the call has returned no error. -/
theorem freed_removed {start endId : UInt64} {g : ReplicaGroup n}
    (h : Reached KeepsFreed start endId g) {x : UInt64} (hx : x ∈ g.freed) (j : Fin n) :
    (g.replica j).mp.inode? x = none := by
  have hinv : g.Removed := by
    refine Reach.invariant h ?_ ?_
    · intro j x hx
      obtain hx | ⟨i, s, -, hs, -⟩ := mem_told.mp hx
      · cases hx
      · cases hs
    · intro g e g' hinv ⟨_, hk⟩ hs
      cases e with
      | act i e => exact removed_act hinv hk hs
      | beginSync i => exact removed_beginSync hinv hs
      | notify i processed replied => exact removed_notify hinv hs
      | endSync i => exact removed_endSync hinv hk hs
  exact hinv j x (mem_told.mpr (.inl hx))

instance (g : ReplicaGroup n) (e : GroupEvent n) : Decidable (g.Admits e) :=
  match e with
  | .act i e => inferInstanceAs (Decidable ((g.replica i).Admits e))
  | .beginSync _ | .notify .. | .endSync _ => inferInstanceAs (Decidable True)

instance (g : ReplicaGroup n) (e : GroupEvent n) : Decidable (g.KeepsFreed e) :=
  match e with
  | .act j e =>
    inferInstanceAs (Decidable ((g.told j).all (fun x => !(g.replica j).brings e x) = true))
  | .endSync i => inferInstanceAs (Decidable ((g.sync i).all (fun s => s.failed ||
      s.hasDeleteInodes.all fun x => ((g.replica i).mp.inode? x).isNone) = true))
  | .beginSync _ | .notify .. => inferInstanceAs (Decidable True)

def unlinkAndSync : List (GroupEvent 2) :=
  let leader : Fin 2 := ⟨0, Nat.two_pos⟩
  let follower : Fin 2 := ⟨1, Nat.one_lt_two⟩
  [.act leader (.apply (.createInode Replica.oneFile) []),
    .act leader (.apply (.unlinkInode Replica.oneFile) []),
    .act follower (.apply (.createInode Replica.oneFile) []),
    .act follower (.apply (.unlinkInode Replica.oneFile) []),
    .act leader (.beginPass 86401), .act leader .pop, .act leader .pop, .act leader .pushTemp,
    .act leader (.persist false), .act leader (.persist false),
    .act leader (.deleteExtents 0 [] 0), .beginSync leader, .notify leader true true]

def removeAndReturn : List (GroupEvent 2) :=
  [.act ⟨0, Nat.two_pos⟩ (.apply (.internalDeleteInode [1]) []), .endSync ⟨0, Nat.two_pos⟩]

theorem freed_removed_own : ∃ g : ReplicaGroup 2, Reached KeepsFreed 0 100 g ∧ g.freed = [1] ∧
      ∀ j, (g.replica j).mp.inode? 1 = none := by
  have hrun : ∃ g, (unlinkAndSync ++ removeAndReturn).foldlM (fun (g : ReplicaGroup 2) e =>
        if g.Admits e ∧ g.KeepsFreed e then g.step e else none) (new 2 0 100) = some g ∧
      g.freed = [1] := ⟨_, rfl, rfl⟩
  obtain ⟨g, hrun, hf⟩ := hrun
  have hr : Reached KeepsFreed 0 100 g := Reach.of_checked _ hrun .start
  have hx : 1 ∈ g.freed := by
    rw [hf]
    exact mem_singleton.mpr rfl
  exact ⟨g, hr, hf, freed_removed hr hx⟩

/-- The leader does not tell itself: it keeps the inode that the follower has removed. -/
theorem leader_keeps_freed : ∃ (g : ReplicaGroup 2) (leader follower : Fin 2) (i : InodeCell),
      Reached (fun _ _ => True) 0 100 g ∧ g.freed = [1] ∧
      (g.replica follower).mp.inode? 1 = none ∧ (g.replica leader).mp.inode? 1 = some i := by
  have hrun : ∃ g i, (unlinkAndSync ++ [GroupEvent.endSync ⟨0, Nat.two_pos⟩]).foldlM
      (fun (g : ReplicaGroup 2) e => if g.Admits e ∧ True then g.step e else none)
      (new 2 0 100) = some g ∧ g.freed = [1] ∧
      (g.replica ⟨1, Nat.one_lt_two⟩).mp.inode? 1 = none ∧
      (g.replica ⟨0, Nat.two_pos⟩).mp.inode? 1 = some i := ⟨_, _, rfl, rfl, rfl, rfl⟩
  obtain ⟨g, i, hrun, hrest⟩ := hrun
  exact ⟨g, _, _, i, Reach.of_checked _ hrun .start, hrest⟩

end ReplicaGroup
end ChubaoFS
