import ChubaoFS.Base.Run
import ChubaoFS.MasterMemory

namespace ChubaoFS.Master

/-! What the master finds out about a partition from its replicas. -/

namespace DataPartition

def hasMissingOneReplica (dp : DataPartition) (replicaNum : Int) : Bool :=
  dp.replicas.length ≤ replicaNum - 1

def liveReplicas (dp : DataPartition) : List DataReplica :=
  dp.replicas.filter fun r => r.live && r.addr ∈ dp.hosts

/-- The replicas that are counted are the first ones, as many as there are live ones. -/
def canBeOffLine (dp : DataPartition) (offlineAddr : Text) : Bool :=
  let otherLiveReplicas :=
    (dp.replicas.take dp.liveReplicas.length).filter (·.addr ≠ offlineAddr)
  (dp.replicaNum / 2).toNat ≤ otherLiveReplicas.length

/-- Among the first replicas, which are the ones counted, no fewer are at the address than among the
live ones. -/
def CountsAtLeast (dp : DataPartition) (offlineAddr : Text) : Prop :=
  dp.liveReplicas.countP (·.addr = offlineAddr) ≤
    (dp.replicas.take dp.liveReplicas.length).countP (·.addr = offlineAddr)

theorem length_filter_ne (l : List DataReplica) (addr : Text) :
    (l.filter (·.addr ≠ addr)).length + l.countP (·.addr = addr) = l.length := by
  rw [l.length_eq_countP_add_countP fun r => r.addr = addr, ← List.countP_eq_length_filter,
    Nat.add_comm]
  simp

theorem length_take_live (dp : DataPartition) :
    (dp.replicas.take dp.liveReplicas.length).length = dp.liveReplicas.length := by
  have hle : dp.liveReplicas.length ≤ dp.replicas.length := List.length_filter_le ..
  simp [hle]

/-- The checks leave enough live replicas elsewhere, whatever the `ReplicaNum`, exactly when the
first replicas count for the live ones at the address, or half of any `uint8` is left. -/
theorem canBeOffLine_iff (dp : DataPartition) (offlineAddr : Text) :
    (∀ (replicaNum : UInt8) (volReplicaNum : Int),
      let dp := { dp with replicaNum := replicaNum }
      dp.hasMissingOneReplica volReplicaNum = false → dp.canBeOffLine offlineAddr = true →
        (replicaNum / 2).toNat ≤ (dp.liveReplicas.filter (·.addr ≠ offlineAddr)).length) ↔
    dp.CountsAtLeast offlineAddr ∨
      127 ≤ (dp.liveReplicas.filter (·.addr ≠ offlineAddr)).length := by
  have hlive := length_filter_ne dp.liveReplicas offlineAddr
  have hfirst := length_filter_ne (dp.replicas.take dp.liveReplicas.length) offlineAddr
  rw [length_take_live] at hfirst
  unfold CountsAtLeast
  constructor
  · intro h
    by_contra hno
    obtain ⟨hlt, hfew⟩ := not_or.mp hno
    -- the least `ReplicaNum` for which the live ones elsewhere are too few
    obtain ⟨half, hhalf⟩ : ∃ m, m = (dp.liveReplicas.filter (·.addr ≠ offlineAddr)).length + 1 :=
      ⟨_, rfl⟩
    have hnum : (UInt8.ofNat (2 * half) / 2).toNat = half := by
      have htwo : (2 : UInt8).toNat = 2 := rfl
      rw [UInt8.toNat_div, UInt8.toNat_ofNat', htwo]
      omega
    have hcount : half ≤
        ((dp.replicas.take dp.liveReplicas.length).filter (·.addr ≠ offlineAddr)).length := by omega
    have hleft := h (UInt8.ofNat (2 * half)) 0 (decide_eq_false (by omega))
      (decide_eq_true (hnum.symm ▸ hcount))
    rw [hnum] at hleft
    change half ≤ (dp.liveReplicas.filter (·.addr ≠ offlineAddr)).length at hleft
    omega
  · intro h replicaNum _ _ _ hcan
    have hhalf : (replicaNum / 2).toNat ≤ 127 := by
      have htwo : (2 : UInt8).toNat = 2 := rfl
      have := replicaNum.toNat_lt
      rw [UInt8.toNat_div, htwo]
      omega
    have hcount : (replicaNum / 2).toNat ≤
        ((dp.replicas.take dp.liveReplicas.length).filter (·.addr ≠ offlineAddr)).length :=
      of_decide_eq_true hcan
    change _ ≤ (dp.liveReplicas.filter (·.addr ≠ offlineAddr)).length
    omega

/-- Two dead replicas stand before the one that lives. -/
def deadFirst : DataPartition :=
  { newDataPartition 1 3 "v".toList 1 with
    hosts := ["b".toList, "c".toList, "a".toList]
    replicas := [⟨"b".toList, [], false, false⟩, ⟨"c".toList, [], false, false⟩,
      ⟨"a".toList, [], true, true⟩] }

theorem deadFirst_canBeOffLine :
    deadFirst.hasMissingOneReplica 3 = false ∧ deadFirst.canBeOffLine "a".toList = true ∧
      (deadFirst.replicaNum / 2).toNat = 1 ∧
      deadFirst.liveReplicas.filter (·.addr ≠ "a".toList) = [] := by decide

end DataPartition

/-! The status of a meta partition. -/

/-- A `MetaReplica` with what its status depends on. -/
structure ReportedReplica where
  addr : Text
  isLeader : Bool
  status : Int8
  reportTime : Int64
  -- `metaNode.IsActive`
  nodeActive : Bool
  deriving DecidableEq

def defaultMetaPartitionTimeOutSec : Int64 := 600

def ReportedReplica.isActive (now : Int64) (mr : ReportedReplica) : Bool :=
  mr.nodeActive && mr.status ≠ unavailable && now - mr.reportTime < defaultMetaPartitionTimeOutSec

structure StatusChecks where
  replicas : List ReportedReplica
  status : Int8
  now : Int64
  -- the replicas, the time and the number of replicas of the last `checkStatus`
  checked : Option (List ReportedReplica × Int64 × Nat)
  deriving DecidableEq

inductive StatusEvent
  -- `checkStatus` and `checkLeader`, in `checkMetaPartitions`
  | check (replicaNum : Nat)
  -- a report of a host of the partition
  | updateMetaPartition (addr : Text) (nodeActive : Bool) (status : Int8) (isLeader : Bool)
  | nodeActive (addr : Text) (active : Bool)
  | time (now : Int64)

namespace StatusChecks

def getLiveReplicas (now : Int64) (replicas : List ReportedReplica) : List ReportedReplica :=
  replicas.filter (·.isActive now)

/-- The loop leaves its variable at the last replica when none is a leader. -/
def getMetaReplicaLeader (replicas : List ReportedReplica) : Option ReportedReplica :=
  (replicas.find? (·.isLeader)).or replicas.getLast?

/-- No status when the variable is nil, which ends the program. -/
def checkStatus (s : StatusChecks) (replicaNum : Nat) : Option Int8 :=
  if (getLiveReplicas s.now s.replicas).length ≤ replicaNum / 2 then some unavailable
  else (getMetaReplicaLeader s.replicas).map (·.status)

def checkLeader (s : StatusChecks) : List ReportedReplica :=
  s.replicas.map fun mr => if mr.isActive s.now then mr else { mr with isLeader := false }

def updateMetric (s : StatusChecks) (addr : Text) (nodeActive : Bool) (status : Int8)
    (isLeader : Bool) : List ReportedReplica :=
  let replicas := if s.replicas.any (·.addr = addr) then s.replicas
    else s.replicas ++ [⟨addr, false, unavailable, s.now, nodeActive⟩]
  replicas.map fun mr => if mr.addr = addr then
    { mr with status := status, isLeader := isLeader, reportTime := s.now } else mr

def step (s : StatusChecks) : StatusEvent → Option StatusChecks
  | .check replicaNum =>
    (s.checkStatus replicaNum).map fun status =>
      { s with status := status, replicas := s.checkLeader,
               checked := some (s.replicas, s.now, replicaNum) }
  | .updateMetaPartition addr nodeActive status isLeader =>
    some { s with replicas := s.updateMetric addr nodeActive status isLeader }
  | .nodeActive addr active =>
    some { s with replicas := s.replicas.map fun mr =>
      if mr.addr = addr then { mr with nodeActive := active } else mr }
  | .time now => some { s with now := now }

/-- More than half of the replicas were live at the last check, one was marked as the leader, and
the status is the leader's. -/
def Reflects (s : StatusChecks) : Prop :=
  ∀ replicas now replicaNum, s.checked = some (replicas, now, replicaNum) →
    s.status ≠ unavailable → replicaNum / 2 < (getLiveReplicas now replicas).length ∧
      ∃ mr ∈ replicas, mr.isLeader = true ∧ s.status = mr.status

/-- A check finds too few live replicas, or a leader, or a last replica that is unavailable. -/
def Led (s : StatusChecks) : StatusEvent → Prop
  | .check replicaNum => (getLiveReplicas s.now s.replicas).length ≤ replicaNum / 2 ∨
      (∃ mr ∈ s.replicas, mr.isLeader = true) ∨
      ∀ mr ∈ s.replicas.getLast?, mr.status = unavailable
  | _ => True

theorem reflects_check {s s' : StatusChecks} {replicaNum : Nat} (hled : s.Led (.check replicaNum))
    (hs : s.step (.check replicaNum) = some s') : s'.Reflects := by
  obtain ⟨status, hstatus, rfl⟩ := Option.map_eq_some_iff.mp hs
  rintro replicas now n hchecked hne
  obtain ⟨rfl, rfl, rfl⟩ : s.replicas = replicas ∧ s.now = now ∧ replicaNum = n := by
    simpa using hchecked
  unfold checkStatus at hstatus
  split at hstatus
  · exact absurd (Option.some.inj hstatus).symm hne
  next hlive =>
    refine ⟨by omega, ?_⟩
    obtain ⟨mr, hmr, rfl⟩ := Option.map_eq_some_iff.mp hstatus
    unfold getMetaReplicaLeader at hmr
    cases hfind : s.replicas.find? (·.isLeader) with
    | some leader =>
      obtain rfl : leader = mr := by simpa [hfind] using hmr
      exact ⟨leader, List.mem_of_find?_eq_some hfind, List.find?_some hfind, rfl⟩
    | none =>
      have hlast : s.replicas.getLast? = some mr := by simpa [hfind] using hmr
      rcases hled with hfew | ⟨leader, hmem, hleader⟩ | hled
      · exact absurd hfew hlive
      · exact absurd hleader (List.find?_eq_none.mp hfind leader hmem)
      · exact absurd (hled mr hlast) hne

/-- In every run whose checks meet the condition, a status other than unavailable is that of a
replica marked as the leader, with more than half of the replicas live. -/
theorem status_reflects_leader {s₀ s : StatusChecks} (h₀ : s₀.checked = none)
    (h : Reach step Led s₀ s) : s.Reflects := by
  refine h.invariant ?_ ?_
  · intro replicas now n hchecked
    simp [h₀] at hchecked
  · intro s e s' hs hled hstep
    cases e with
    | check replicaNum => exact reflects_check hled hstep
    | updateMetaPartition addr nodeActive status isLeader => cases hstep; exact hs
    | nodeActive addr active => cases hstep; exact hs
    | time now => cases hstep; exact hs

def threeReplicas (leader : Bool) : StatusChecks where
  replicas := [⟨"a".toList, leader, readWrite, 0, true⟩, ⟨"b".toList, false, readWrite, 0, true⟩,
    ⟨"c".toList, false, readWrite, 0, true⟩]
  status := unavailable
  now := 1
  checked := none

theorem status_reflects_leader_three :
    ∃ s, Reach step Led (threeReplicas true) s ∧ s.status = readWrite ∧ s.Reflects := by
  have hstep : (threeReplicas true).step (.check 3) = some { threeReplicas true with
      status := readWrite, checked := some ((threeReplicas true).replicas, 1, 3) } := by decide
  have hled : (threeReplicas true).Led (.check 3) := Or.inr (Or.inl ⟨_, List.mem_cons_self, rfl⟩)
  have hreach := Reach.next .start hled hstep
  exact ⟨_, hreach, rfl, status_reflects_leader rfl hreach⟩

/-- Three live replicas without a leader pass for a partition that can be written. -/
theorem status_without_leader : ∃ s, Reach step (fun _ _ => True) (threeReplicas false) s ∧
    s.status = readWrite ∧ s.replicas.all (fun mr => !mr.isLeader) = true ∧ ¬ s.Reflects := by
  have hstep : (threeReplicas false).step (.check 3) = some { threeReplicas false with
      status := readWrite, checked := some ((threeReplicas false).replicas, 1, 3) } := by decide
  refine ⟨_, .next .start trivial hstep, rfl, rfl, fun h => ?_⟩
  obtain ⟨-, mr, hmem, hleader, -⟩ := h _ _ _ rfl (by decide)
  simp [threeReplicas] at hmem
  rcases hmem with rfl | rfl | rfl <;> cases hleader

end StatusChecks
end ChubaoFS.Master
