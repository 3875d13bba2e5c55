import ChubaoFS.ExtentStore

namespace ChubaoFS

open ExtentEntry
open Maps (total)

/-! A replica that was added to a data partition waits for its repair before it starts raft: it
compares the size of its store with the size that the primary reported. -/

inductive StoreOp
  | create (id : UInt64) (now : Int64) (o : CreateOutcome)
  | write (id : UInt64) (offset size : Nat) (isUpdateSize : Bool) (now : Int64)
  | markDelete (id : UInt64) (now : Int64) (removed : Bool)
  | autoComputeExtentCrc (now : Int64)

def ExtentStore.run (s : ExtentStore) : StoreOp → Option ExtentStore
  | .create id now o => s.create id now o
  | .write id offset size isUpdateSize now => s.write id offset size isUpdateSize now
  | .markDelete id now removed => some (s.markDelete id now removed)
  | .autoComputeExtentCrc now => some (s.autoComputeExtentCrc now)

structure RaftStart where
  primary : ExtentStore
  replica : ExtentStore
  /-- The variable of `StartRaftAfterRepair`. -/
  partitionSize : UInt64
  /-- The loop has a size and is about to compare it. -/
  comparing : Bool
  /-- What the primary held when it answered the request for its size. -/
  answered : Option ExtentInfoMap
  /-- What the replica held when it started raft. -/
  started : Option ExtentInfoMap

inductive RaftStartEvent
  | onPrimary (op : StoreOp)
  | onReplica (op : StoreOp)
  /-- The reply is read without a look at its result code: `errorBody` are the first bytes of the
  text of an error. -/
  | getPartitionSize (errorBody : Option UInt64)
  | haveSize
  | compare (ok : Bool)

namespace RaftStart

open ExtentStore

def new (primary replica : ExtentStore) : RaftStart := ⟨primary, replica, 0, false, none, none⟩

def step (s : RaftStart) : RaftStartEvent → Option RaftStart
  | .onPrimary op => (s.primary.run op).map fun primary => { s with primary := primary }
  | .onReplica op => (s.replica.run op).map fun replica => { s with replica := replica }
  | .getPartitionSize errorBody =>
    if s.started.isNone && !s.comparing && s.partitionSize == 0 then
      some { s with
        partitionSize := errorBody.getD s.primary.storeSize
        comparing := true
        answered := some s.primary.extentInfoMap }
    else none
  | .haveSize =>
    if s.started.isNone && !s.comparing && s.partitionSize != 0 then
      some { s with comparing := true }
    else none
  | .compare ok =>
    if s.comparing then
      if s.replica.storeSize < s.partitionSize then some { s with comparing := false }
      else some { s with
        comparing := false
        started := if ok then some s.replica.extentInfoMap else none }
    else none

/-- Every normal extent that was not deleted in `answered` is there, and as long. -/
def Complete (answered started : ExtentInfoMap) : Prop :=
  ∀ id ei, isTinyExtent id = false → answered.lookup id = some ei → ei.isDeleted = false →
    ∃ ei', started.lookup id = some ei' ∧ ei'.isDeleted = false ∧ ei.size ≤ ei'.size

def Counted (answered : ExtentInfoMap) (replica : ExtentInfoMap) : Prop :=
  (∀ x ∈ replica.entries, ∃ ei ∈ answered.lookup x.1, x.2.size ≤ ei.size ∧
      (x.2.isDeleted = true → ei.isDeleted = true)) ∧
    (∀ x ∈ answered.entries, isTinyExtent x.1 = false → x.2.isDeleted = false → x.2.size = 0 →
      (replica.lookup x.1).isSome = true) ∧
    Maps.total ExtentEntry.size answered.entries < 2 ^ 64

/-- A comparison that passes is with the size that the primary had, not with the text of an error,
and of two stores whose sizes say which extents are there. -/
def Comparable (s : RaftStart) : RaftStartEvent → Prop
  | .compare _ => ¬ s.replica.storeSize < s.partitionSize → ∀ answered ∈ s.answered,
      s.partitionSize.toNat = Maps.total ExtentEntry.size answered.entries % 2 ^ 64 ∧
        Counted answered s.replica.extentInfoMap
  | _ => True

instance decidableCounted (answered replica : ExtentInfoMap) :
    Decidable (Counted answered replica) := by
  unfold Counted
  infer_instance

instance decidableComparable (s : RaftStart) (e : RaftStartEvent) : Decidable (s.Comparable e) := by
  cases e <;> unfold Comparable <;> infer_instance

theorem toNat_storeSize (s : ExtentStore) :
    s.storeSize.toNat = total size s.extentInfoMap.entries % 2 ^ 64 := by
  have hfold : ∀ (l : List (Sigma fun _ : UInt64 => ExtentEntry)) (n : UInt64),
      (l.foldl (fun totalSize ei => totalSize + UInt64.ofNat ei.2.size) n).toNat =
        (n.toNat + total size l) % 2 ^ 64 := by
    intro l
    induction l with
    | nil => exact fun n => (Nat.mod_eq_of_lt n.toNat_lt).symm
    | cons x l ih =>
      intro n
      have hcons : total size (x :: l) = x.2.size + total size l := rfl
      rw [List.foldl_cons, ih, UInt64.toNat_add, UInt64.toNat_ofNat', hcons]
      omega
  unfold storeSize
  rw [hfold, UInt64.toNat_zero, Nat.zero_add]

theorem Counted.complete {answered replica : ExtentInfoMap} (h : Counted answered replica)
    (hsum : total size answered.entries ≤
      total size replica.entries) : Complete answered replica := by
  obtain ⟨hcounted, hempty, -⟩ := h
  have hle : ∀ x ∈ replica.entries, ∃ ei, answered.lookup x.1 = some ei ∧ x.2.size ≤ ei.size :=
    fun x hx => (hcounted x hx).imp fun _ hei => ⟨hei.1, hei.2.1⟩
  intro id ei hn hei hdel
  have hkey := (Maps.total_add_le size replica.nodupKeys hle).2 ei hei
  have hthere := hempty ⟨id, ei⟩ (List.of_mem_dlookup hei) hn hdel
  cases hr : replica.lookup id with
  | none =>
    change _ ≤ _ + ((replica.lookup id).map _).getD 0 at hkey
    rw [hr] at hkey hthere
    change _ ≤ _ + 0 at hkey
    have hzero : ei.size = 0 := by omega
    cases hthere hzero
  | some ei' =>
    refine ⟨ei', rfl, ?_, ?_⟩
    · obtain ⟨ei'', hei'', -, hmark⟩ := hcounted ⟨id, ei'⟩ (List.of_mem_dlookup hr)
      obtain rfl := Option.some.inj (hei.symm.trans hei'')
      cases hd : ei'.isDeleted with
      | false => rfl
      | true => exact absurd (hmark hd) (by simp [hdel])
    · change _ ≤ _ + ((replica.lookup id).map _).getD 0 at hkey
      rw [hr] at hkey
      change _ ≤ _ + ei'.size at hkey
      omega

structure Inv (s : RaftStart) : Prop where
  asked : s.answered = none → s.partitionSize = 0 ∧ s.comparing = false
  complete : ∀ started ∈ s.started, ∃ answered ∈ s.answered, Complete answered started

variable {s s' : RaftStart}

theorem inv_compare {ok : Bool} (h : s.Inv) (hc : s.Comparable (.compare ok))
    (hcomparing : s.comparing = true) (hsize : ¬ s.replica.storeSize < s.partitionSize) :
    ∃ answered ∈ s.answered, Complete answered s.replica.extentInfoMap := by
  cases ha : s.answered with
  | none =>
    rw [(h.asked ha).2] at hcomparing
    cases hcomparing
  | some answered =>
    obtain ⟨htotal, hcount⟩ := hc hsize answered ha
    have hle : ∀ x ∈ s.replica.extentInfoMap.entries,
        ∃ ei, answered.lookup x.1 = some ei ∧ x.2.size ≤ ei.size :=
      fun x hx => (hcount.1 x hx).imp fun _ hei => ⟨hei.1, hei.2.1⟩
    have hless := (Maps.total_add_le (a := 0) size s.replica.extentInfoMap.nodupKeys hle).1
    have hlocal := toNat_storeSize s.replica
    have hfits := hcount.2.2
    rw [Nat.mod_eq_of_lt hfits] at htotal
    rw [Nat.mod_eq_of_lt (Nat.lt_of_le_of_lt hless hfits)] at hlocal
    rw [UInt64.lt_iff_toNat_lt, htotal, hlocal] at hsize
    exact ⟨answered, rfl, hcount.complete (Nat.le_of_not_lt hsize)⟩

theorem inv_step {e : RaftStartEvent} (h : s.Inv) (he : s.Comparable e)
    (hs : s.step e = some s') : s'.Inv := by
  cases e with
  | onPrimary op =>
    obtain ⟨primary, -, rfl⟩ := Option.map_eq_some_iff.mp hs
    exact { h with }
  | onReplica op =>
    obtain ⟨replica, -, rfl⟩ := Option.map_eq_some_iff.mp hs
    exact { h with }
  | getPartitionSize errorBody =>
    dsimp only [step] at hs
    split at hs
    next hcond =>
      cases hs
      obtain ⟨⟨hstarted, -⟩, -⟩ := by simpa only [Bool.and_eq_true] using hcond
      refine ⟨nofun, fun started hmem => ?_⟩
      dsimp only at hmem
      rw [Option.isNone_iff_eq_none.mp hstarted] at hmem
      cases hmem
    · cases hs
  | haveSize =>
    dsimp only [step] at hs
    split at hs
    next hcond =>
      cases hs
      refine { h with asked := fun hnone => ?_ }
      rw [(h.asked hnone).1] at hcond
      simp at hcond
    · cases hs
  | compare ok =>
    dsimp only [step] at hs
    split at hs
    next hcomparing =>
      split at hs
      · cases hs
        exact { h with asked := fun hnone => ⟨(h.asked hnone).1, rfl⟩ }
      rename_i hsize
      cases hs
      refine ⟨fun hnone => ⟨(h.asked hnone).1, rfl⟩, fun started hstarted => ?_⟩
      dsimp only at hstarted
      split at hstarted
      · cases hstarted
        exact inv_compare (s := s) h he hcomparing hsize
      · cases hstarted
    · cases hs

/-- A replica that starts raft has all that the primary held when it reported its size. -/
theorem started_complete {primary replica : ExtentStore}
    (hr : Reach step Comparable (new primary replica) s) {started : ExtentInfoMap}
    (hstarted : s.started = some started) :
    ∃ answered, s.answered = some answered ∧ Complete answered started := by
  have hnew : (new primary replica).Inv := ⟨fun _ => ⟨rfl, rfl⟩, nofun⟩
  exact (hr.invariant hnew fun _ _ _ h he hs => inv_step h he hs).complete started hstarted

/-- The replica is behind at first, and starts raft after it has got the extent. -/
theorem started_complete_one :
    ∃ s, Reach step Comparable (new (newExtentStore none ∅ 0) (newExtentStore none ∅ 0)) s ∧
      ∃ started, s.started = some started ∧ (started.lookup 1025).isSome = true ∧
        ∃ answered, s.answered = some answered ∧ Complete answered started := by
  obtain ⟨s, hr, hp⟩ := Reach.exists_checked step Comparable
    (new (newExtentStore none ∅ 0) (newExtentStore none ∅ 0))
    [.onPrimary (.create 1025 0 ⟨true, true⟩), .onPrimary (.write 1025 0 4096 true 10),
      .getPartitionSize none, .compare true, .onReplica (.create 1025 20 ⟨true, true⟩),
      .onReplica (.write 1025 0 4096 true 30), .haveSize, .compare true]
    (fun s => s.started.any fun started => (started.lookup 1025).isSome) (by decide +kernel)
  cases hstarted : s.started with
  | none => simp [hstarted] at hp
  | some started =>
    exact ⟨s, hr, started, hstarted, by simpa [hstarted] using hp, started_complete hr hstarted⟩

/-- The primary answers when it has two extents of one page each. One of them grows by a page. A
round of repair later creates both on the replica, which starts raft as soon as it has copied that
one: the other is still empty. -/
theorem started_incomplete :
    ∃ s, Reach step (fun _ _ => True) (new (newExtentStore none ∅ 0) (newExtentStore none ∅ 0)) s ∧
      ∃ answered started, s.answered = some answered ∧ s.started = some started ∧
        ¬ Complete answered started := by
  obtain ⟨s, hr, hp⟩ := Reach.exists_checked step (fun _ _ => True)
    (new (newExtentStore none ∅ 0) (newExtentStore none ∅ 0))
    [.onPrimary (.create 1025 0 ⟨true, true⟩), .onPrimary (.write 1025 0 4096 true 10),
      .onPrimary (.create 1026 0 ⟨true, true⟩), .onPrimary (.write 1026 0 4096 true 10),
      .getPartitionSize none, .compare true, .onPrimary (.write 1025 4096 4096 true 20),
      .onReplica (.create 1025 700 ⟨true, true⟩), .onReplica (.create 1026 700 ⟨true, true⟩),
      .onReplica (.write 1025 0 8192 true 710), .haveSize, .compare true]
    (fun s => s.answered.any (fun answered => answered.lookup 1026 == some ⟨4096, false, 10⟩) &&
      s.started.any fun started => started.lookup 1026 == some ⟨0, false, 700⟩) (by decide +kernel)
  obtain ⟨ha, hs⟩ := Bool.and_eq_true_iff.mp hp
  cases hanswered : s.answered with
  | none => simp [hanswered] at ha
  | some answered =>
    cases hstarted : s.started with
    | none => simp [hstarted] at hs
    | some started =>
      refine ⟨s, hr, answered, started, hanswered, hstarted, fun hc => ?_⟩
      rw [hanswered] at ha
      rw [hstarted] at hs
      obtain ⟨ei, hei, -, hsize⟩ := hc 1026 ⟨4096, false, 10⟩ rfl (eq_of_beq ha) rfl
      obtain rfl := Option.some.inj (hei.symm.trans (eq_of_beq hs))
      exact absurd hsize (by decide)

end RaftStart
end ChubaoFS
