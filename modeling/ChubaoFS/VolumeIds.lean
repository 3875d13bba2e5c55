import ChubaoFS.InodeIds
import ChubaoFS.InodeRangesSafety

namespace ChubaoFS.Master

open Function UInt64 Option
open UInt64 (lt_irrefl not_lt le_trans le_of_lt)
open Option (some map_eq_some_iff map_some)

/-! The inode ids of a volume: the master, the replicas of its partitions on the meta nodes and the
messages between them. -/

structure VolumeIds where
  master : RangeMaster
  -- the replicas of a partition, by the address of their meta nodes
  groups : Map UInt64 (Text → ChubaoFS.MetaPartition)
  -- heartbeats and update tasks that were sent, each of which may arrive late or never
  reports : List (UInt64 × Text × MetaPartitionReport)
  tasks : List (UInt64 × UInt64)
  -- what `nextInodeID` has returned, with the partition
  returned : List (UInt64 × UInt64)

inductive IdsEvent
  | master (e : RangeEvent)
  | heartbeat (partitionID : UInt64) (addr : Text) (isLeader : Bool)
  | report (r : UInt64 × Text × MetaPartitionReport)
  | upperBound (r : UInt64 × Text × MetaPartitionReport) (hasEnough : Bool)
  | nextInodeID (partitionID : UInt64) (addr : Text)
  -- a replica applies a creation; whether it found the cursor too low
  | createInode (partitionID : UInt64) (addr : Text) (ino : Inode) (low : Bool)
  | apply (partitionID : UInt64) (addr : Text) (c : ChubaoFS.MetaPartition.Command)

namespace RangeMaster

def started (m : RangeMaster) : RangeEvent → Option (UInt64 × UInt64 × UInt64)
  | .initCreated (some _) =>
    match m.init with
    | some ⟨index, endId, some id⟩ =>
      let l : InitLoop := ⟨index, endId, some id⟩
      some (id, l.start, l.nextEnd m.count)
    | _ => none
  | .created id (some _) =>
    match m.calls.lookup id, m.vol.metaPartitions.lookup id with
    | some (.adding newID), some mp => some (newID, mp.endId + 1, defaultMaxMetaPartitionInodeID)
    | _, _ => none
  | _ => none

def sent (m : RangeMaster) : RangeEvent → Option (UInt64 × UInt64)
  | .stored id true =>
    match m.calls.lookup id, m.vol.metaPartitions.lookup id with
    | some (.cutting _), some mp => some (id, mp.endId)
    | _, _ => none
  | _ => none

end RangeMaster

def RangeEvent.isReport : RangeEvent → Bool
  | .report _ _ _ | .upperBound _ _ _ => true
  | _ => false

namespace VolumeIds

def new (vol : Vol) (metaPartitionID : UInt64) (count : Int) : VolumeIds :=
  { master := .new vol metaPartitionID count, groups := ∅, reports := [], tasks := [],
    returned := [] }

def replica (s : VolumeIds) (id : UInt64) (addr : Text) : Option ChubaoFS.MetaPartition :=
  (s.groups.lookup id).map (· addr)

def setReplica (s : VolumeIds) (id : UInt64) (addr : Text) (mp : ChubaoFS.MetaPartition) :
    VolumeIds :=
  { s with groups := match s.groups.lookup id with
    | none => s.groups
    | some g => s.groups.insert id (Function.update g addr mp) }

def masterStep (s : VolumeIds) (e : RangeEvent) : Option VolumeIds :=
  (s.master.step e).map fun m => { s with
    master := m
    groups := match s.master.started e with
      | some (id, start, endId) =>
        s.groups.insert id fun _ => ChubaoFS.MetaPartition.new start endId
      | none => s.groups
    tasks := (s.master.sent e).toList ++ s.tasks }

def canApply (s : VolumeIds) (id : UInt64) : ChubaoFS.MetaPartition.Command → Bool
  | .createInode _ => false
  | .updatePartition endId => (id, endId) ∈ s.tasks
  | _ => true

def step (s : VolumeIds) : IdsEvent → Option VolumeIds
  | .master e => if e.isReport then none else s.masterStep e
  | .heartbeat id addr isLeader =>
    (s.replica id addr).map fun mp =>
      { s with reports := (id, addr, ⟨mp.start, mp.cursor, isLeader⟩) :: s.reports }
  | .report r => if r ∈ s.reports then s.masterStep (.report r.1 r.2.1 r.2.2) else none
  | .upperBound r hasEnough =>
    if r ∈ s.reports then s.masterStep (.upperBound r.1 r.2.2 hasEnough) else none
  | .nextInodeID id addr =>
    (s.replica id addr).bind fun mp => mp.nextInodeID.map fun (x, mp') =>
      { s.setReplica id addr mp' with returned := (id, x) :: s.returned }
  | .createInode id addr ino low =>
    if (id, ino.inode) ∈ s.returned then
      (s.replica id addr).map fun mp =>
        let mp := if low then { mp with cursor := ino.inode } else mp
        s.setReplica id addr (mp.fsmCreateInode ino).1
    else none
  | .apply id addr c =>
    if s.canApply id c then (s.replica id addr).map fun mp => s.setReplica id addr (mp.apply c)
    else none

def keepsIds (s : VolumeIds) (id endId : UInt64) : Bool :=
  s.returned.all fun (p, x) => p ≠ id || x ≤ endId

def keeps (s : VolumeIds) : RangeEvent → Bool
  | .update id start => s.keepsIds id start
  | .upperBound id mr _ => s.keepsIds id mr.upperBound
  | _ => true

/-- No range is cut below an id that was given out, and none is given out past the end. -/
def Allowed (s : VolumeIds) : IdsEvent → Prop
  | .master e => s.master.Allowed e ∧ s.keeps e = true
  | .upperBound r hasEnough => s.keeps (.upperBound r.1 r.2.2 hasEnough) = true
  | .nextInodeID id addr => ∀ mp ∈ s.master.vol.metaPartitions.lookup id,
      ∀ r ∈ s.replica id addr, r.cursor < mp.endId
  | _ => True

end VolumeIds

/-! How far the ids of a partition reach. -/

open Ranges

def Open (T : Ranges.Table UInt64 UInt64) (init : Option InitLoop) (calls : Map UInt64 SplitPhase)
    (p : UInt64) : Prop :=
  init = none ∧ (∃ r, IsLast T p r) ∧
    ∀ phase, calls.lookup p = some phase → ∃ oldEnd, phase = .raising oldEnd

def Within (T : Ranges.Table UInt64 UInt64) (init : Option InitLoop) (calls : Map UInt64 SplitPhase)
    (p x : UInt64) : Prop :=
  ∃ r, T p = some r ∧ r.1 < x ∧ (x ≤ r.2 ∨ Open T init calls p)

section Change

variable {T : Ranges.Table UInt64 UInt64} {init : Option InitLoop} {calls : Map UInt64 SplitPhase}
  {p x id : UInt64} {r : UInt64 × UInt64} {phase : SplitPhase}

section

variable (h : Open T init calls p)
include h

theorem Open.eq (hlast : IsLast T id r) : p = id := by
  obtain ⟨-, ⟨r', hr'⟩, -⟩ := h
  exact hr'.eq hlast

theorem Open.erase (id : UInt64) : Open T init (calls.erase id) p := by
  refine ⟨h.1, h.2.1, fun phase hcall => h.2.2 phase ?_⟩
  by_cases hp : p = id
  · rw [hp, AList.lookup_erase] at hcall
    cases hcall
  · rwa [AList.lookup_erase_ne hp] at hcall

end

section

variable (h : Within T init calls p x)
include h

theorem Within.update_last (hlast : IsLast T id r) (hne : p ≠ id) (v : Option (UInt64 × UInt64))
    (init' : Option InitLoop) (calls' : Map UInt64 SplitPhase) :
    Within (update T id v) init' calls' p x := by
  obtain ⟨r', hr', hlo, hhi⟩ := h
  refine ⟨r', by rw [update_of_ne hne, hr'], hlo, .inl ?_⟩
  exact hhi.resolve_right fun ho => hne (ho.eq hlast)

theorem Within.le_of_call (hcall : calls.lookup id = some phase)
    (hne : ∀ oldEnd, phase ≠ .raising oldEnd) (hlast : IsLast T id r) :
    ∃ r', T p = some r' ∧ r'.1 < x ∧ x ≤ r'.2 := by
  obtain ⟨r', hr', hlo, hhi⟩ := h
  refine ⟨r', hr', hlo, hhi.resolve_right fun ho => ?_⟩
  obtain rfl := ho.eq hlast
  obtain ⟨oldEnd, heq⟩ := ho.2.2 phase hcall
  exact hne oldEnd heq

theorem Within.erase (id : UInt64) : Within T init (calls.erase id) p x := by
  obtain ⟨r, hr, hlo, hhi⟩ := h
  exact ⟨r, hr, hlo, hhi.imp_right fun ho => ho.erase id⟩

end

theorem Within.reopen (h : Within T none calls p x) (hlast : IsLast T id r) (e : UInt64)
    {calls' : Map UInt64 SplitPhase}
    (hcalls : ∀ phase, calls'.lookup id = some phase → ∃ oldEnd, phase = .raising oldEnd) :
    Within (update T id (some (r.1, e))) none calls' p x := by
  by_cases hp : p = id
  · subst hp
    obtain ⟨r', hr', hlo, -⟩ := h
    obtain rfl := some.inj (hlast.get.symm.trans hr')
    exact ⟨_, update_self .., hlo, .inr ⟨rfl, ⟨_, hlast.setEnd _⟩, hcalls⟩⟩
  · exact h.update_last hlast hp _ _ _

theorem Within.distinct (hasc : Ascending T) {q : UInt64} (hp : Within T init calls p x)
    (hq : Within T init calls q x) : p = q := by
  -- of two partitions the first one is not the last, so the id is before its end
  have hlt : ∀ {p q : UInt64}, Within T init calls p x → Within T init calls q x → ¬ p < q := by
    intro p q hp hq hpq
    obtain ⟨r, hr, -, hhi⟩ := hp
    obtain ⟨r', hr', hlo', -⟩ := hq
    have hle : x ≤ r.2 := by
      refine hhi.resolve_right fun ho => ?_
      obtain ⟨r₁, hr₁⟩ := ho.2.1
      exact lt_irrefl _ (UInt64.lt_of_lt_of_le hpq (hr₁.max hr'))
    have hbefore := hasc.lt hr hr' hpq
    exact lt_irrefl _ (UInt64.lt_of_le_of_lt hle (UInt64.lt_trans hbefore hlo'))
  exact UInt64.le_antisymm (not_lt.mp (hlt hq hp)) (not_lt.mp (hlt hp hq))

end Change

namespace RangeMaster

variable {m : RangeMaster} {e : RangeEvent} {T : Ranges.Table UInt64 UInt64} {counter : UInt64}
  {init : Option InitLoop} {calls : Map UInt64 SplitPhase} {failed : Bool} {p x : UInt64}
  {r : UInt64 × UInt64}

theorem ne_of_above {newID : UInt64} (h : Above T newID) (hp : T p = some r) : p ≠ newID := by
  rintro rfl
  exact lt_irrefl _ (h hp)

theorem Change.start (hok : m.Ok) (hc : m.Change e T counter init calls failed)
    (hr : m.table p = some r) : ∃ r', T p = some r' ∧ r'.1 = r.1 := by
  have hset : ∀ {id : UInt64} {mp : MetaPartition},
      m.vol.metaPartitions.lookup id = some mp → ∀ endId,
      ∃ r', update m.table id (some (mp.start, endId)) p = some r' ∧ r'.1 = r.1 := by
    intro id mp hmp endId
    by_cases hp : p = id
    · subst hp
      obtain rfl := some.inj ((table_of_lookup hmp).symm.trans hr)
      exact ⟨_, update_self .., rfl⟩
    · exact ⟨r, by rw [update_of_ne hp, hr], rfl⟩
  have hadd : ∀ {id : UInt64} {v : UInt64 × UInt64}, Above m.table id →
      ∃ r', update m.table id (some v) p = some r' ∧ r'.1 = r.1 := by
    intro id v habove
    exact ⟨r, by rw [update_of_ne (ne_of_above habove hr), hr], rfl⟩
  cases hc with
  | loopCreated hinit hid => exact hadd ((hok.ranges.loop hinit).id hid).1
  | updated hmp hfree hle | bounded hmp hfree hmax hend hle | raised hmp hfree hmax hend
  | restored hmp hcall hphase => exact hset hmp _
  | created hmp hcall =>
    obtain ⟨-, r', -, -, habove, -⟩ := hok.ranges.locked hcall
    exact hadd habove
  | _ => exact ⟨r, hr, rfl⟩

theorem Within.cut {id endId : UInt64} {mp : MetaPartition}
    (hmp : m.vol.metaPartitions.lookup id = some mp) (hmax : ¬ id < m.vol.maxPartitionID)
    (hw : Within m.table m.init m.calls p x) (hx : p = id → x ≤ endId) :
    Within (update m.table id (some (mp.start, endId))) init calls p x := by
  by_cases hp : p = id
  · subst hp
    obtain ⟨r, hr, hlo, -⟩ := hw
    obtain rfl := some.inj ((table_of_lookup hmp).symm.trans hr)
    exact ⟨_, update_self .., hlo, .inl (hx rfl)⟩
  · exact hw.update_last (isLast_of_not_lt hmp hmax) hp _ _ _

theorem Within.change (hok : m.Ok) (ha : m.Allowed e)
    (hc : m.Change e T counter init calls failed) (hw : Within m.table m.init m.calls p x)
    (hupdate : ∀ start, e = .update p start → x ≤ start)
    (hbound : ∀ mr hasEnough, e = .upperBound p mr hasEnough → x ≤ mr.upperBound) :
    Within T init calls p x := by
  have hr := hok.ranges
  cases hc with
  | same => exact hw
  | elsewhere => exact hw
  | loopAllocated hinit | loopFailed hinit =>
    obtain ⟨r, hget, hlo, hhi⟩ := hw
    exact ⟨r, hget, hlo, .inl (hhi.resolve_right fun ho => nomatch ho.1.symm.trans hinit)⟩
  | loopCreated hinit hid =>
    obtain ⟨r, hget, hlo, hhi⟩ := hw
    have hne := ne_of_above ((hr.loop hinit).id hid).1 hget
    refine ⟨r, by rw [Function.update_of_ne hne, hget], hlo, .inl ?_⟩
    exact hhi.resolve_right fun ho => nomatch ho.1.symm.trans hinit
  | updated hmp hfree hle =>
    exact Within.cut hmp (ha.2.1 ▸ lt_irrefl _) hw fun hp => hupdate _ (by rw [hp])
  | bounded hmp hfree hmax hend hle =>
    exact Within.cut hmp hmax hw fun hp => hbound _ _ (by rw [hp])
  | raised hmp hfree hmax hend =>
    have hinit : m.init = none := ha
    rw [hinit] at hw ⊢
    refine hw.reopen (isLast_of_not_lt hmp hmax) _ fun phase hcall => ?_
    rw [AList.lookup_insert] at hcall
    exact ⟨_, (some.inj hcall).symm⟩
  | restored hmp hcall hphase =>
    obtain ⟨hinit, r, hlast, -⟩ := hr.locked hcall
    obtain rfl := some.inj ((table_of_lookup hmp).symm.trans hlast.get)
    rw [hinit] at hw ⊢
    refine hw.reopen hlast _ fun phase hnone => ?_
    rw [AList.lookup_erase] at hnone
    cases hnone
  | cutStored hcall | allocated hcall =>
    obtain ⟨-, r, hlast, -⟩ := hr.locked hcall
    obtain ⟨r', hget, hlo, hhi⟩ := hw.le_of_call hcall (fun _ => (nomatch ·)) hlast
    exact ⟨r', hget, hlo, .inl hhi⟩
  | raiseStored hcall | abandoned hcall => exact hw.erase _
  | created hmp hcall =>
    obtain ⟨-, r, hlast, -, habove, -⟩ := hr.locked hcall
    obtain ⟨r', hget, hlo, hhi⟩ := hw.le_of_call hcall (fun _ => (nomatch ·)) hlast
    have hne := ne_of_above habove hget
    exact ⟨r', by rw [Function.update_of_ne hne, hget], hlo, .inl hhi⟩

end RangeMaster

/-! What replicas, reports and returned ids have to do with the ranges. -/

def Placed (T : Ranges.Table UInt64 UInt64) (p start cursor : UInt64) : Prop :=
  ∃ r, T p = some r ∧ start = r.1 ∧ start ≤ cursor ∧ cursor ≤ defaultMaxMetaPartitionInodeID

variable {T : Ranges.Table UInt64 UInt64}

theorem Placed.start_le_upperBound {p : UInt64} {mr : MetaPartitionReport}
    (h : Placed T p mr.start mr.maxInodeID) : mr.start ≤ mr.upperBound := by
  obtain ⟨-, -, -, hlo, hhi⟩ := h
  unfold MetaPartitionReport.upperBound
  simp only [defaultMaxMetaPartitionInodeID, defaultMetaPartitionInodeIDStep] at hhi ⊢
  split <;> grind

variable {e : RangeEvent}

theorem RangeMaster.Change.placed {m : RangeMaster} (hok : m.Ok) {counter : UInt64}
    {init : Option InitLoop} {calls : Map UInt64 SplitPhase} {failed : Bool}
    (hc : m.Change e T counter init calls failed) {p start cursor : UInt64}
    (h : Placed m.table p start cursor) : Placed T p start cursor := by
  obtain ⟨r, hr, hstart, hle⟩ := h
  obtain ⟨r', hr', heq⟩ := hc.start hok hr
  exact ⟨r', hr', hstart.trans heq.symm, hle⟩

namespace VolumeIds

structure Ok (s : VolumeIds) : Prop where
  master : s.master.Ok
  replica : ∀ {id addr mp}, s.replica id addr = some mp →
    Placed s.master.table id mp.start mp.cursor
  report : ∀ {r}, r ∈ s.reports → Placed s.master.table r.1 r.2.2.start r.2.2.maxInodeID
  returned : ∀ {id x}, (id, x) ∈ s.returned →
    Within s.master.table s.master.init s.master.calls id x ∧ x ≤ defaultMaxMetaPartitionInodeID

variable {s s' : VolumeIds} {id : UInt64} {addr : Text} {mp : ChubaoFS.MetaPartition}
  {c : ChubaoFS.MetaPartition.Command} {mp' : ChubaoFS.MetaPartition} {id' : UInt64}

theorem replica_setReplica {addr' : Text}
    (h : (s.setReplica id addr mp).replica id' addr' = some mp') :
    (id' = id ∧ mp' = mp) ∨ s.replica id' addr' = some mp' := by
  obtain ⟨g', hg', rfl⟩ := map_eq_some_iff.mp h
  unfold setReplica at hg'
  dsimp only at hg'
  split at hg'
  · exact .inr (by rw [replica, hg', map_some])
  rename_i g hg
  rw [Maps.lookup_insert] at hg'
  split at hg'
  next hid =>
    cases hg'
    by_cases ha : addr' = addr
    · subst ha
      exact .inl ⟨hid, update_self ..⟩
    · refine .inr ?_
      rw [replica, hid, hg, map_some, update_of_ne ha]
  · exact .inr (by rw [replica, hg', map_some])

theorem Ok.setReplica (h : s.Ok) (hmp : Placed s.master.table id mp.start mp.cursor) :
    (s.setReplica id addr mp).Ok := by
  refine { h with replica := fun hr => ?_ }
  rcases replica_setReplica hr with ⟨rfl, rfl⟩ | hr
  · exact hmp
  · exact h.replica hr

/-! Steps of the master. -/

theorem table_of_started {m m' : RangeMaster} {start endId : UInt64} (hs : m.step e = some m')
    (h : m.started e = some (id, start, endId)) : m'.table id = some (start, endId) := by
  unfold RangeMaster.started at h
  split at h
  next created =>
    split at h
    next index end' id' hinit =>
      obtain ⟨rfl, rfl, rfl⟩ : id' = id ∧ _ = start ∧ _ = endId := by
        simpa using h
      simp only [RangeMaster.step, hinit, some.injEq] at hs
      subst hs
      change (m.addPartition id' _ _ created).table id' = _
      rw [RangeMaster.table_addPartition, update_self]
    · cases h
  next id' created =>
    split at h
    next newID mp hcall hmp =>
      obtain ⟨rfl, rfl, rfl⟩ : newID = id ∧ _ = start ∧ _ = endId := by
        simpa using h
      simp only [RangeMaster.step, hcall, hmp, some.injEq] at hs
      subst hs
      change (m.addPartition newID _ _ created).table newID = _
      rw [RangeMaster.table_addPartition, update_self]
    · cases h
  · cases h

theorem le_of_keepsIds {endId x : UInt64} (h : s.keepsIds id endId = true)
    (hx : (id, x) ∈ s.returned) : x ≤ endId := by
  have hkeep := List.all_eq_true.mp h _ hx
  simpa using hkeep

theorem Ok.masterStep (h : s.Ok) (ha : s.master.Allowed e) (hkeep : s.keeps e = true)
    (hs : s.masterStep e = some s') : s'.Ok := by
  obtain ⟨m, hm, rfl⟩ := map_eq_some_iff.mp hs
  obtain ⟨hcount, hc⟩ := RangeMaster.changed_step hm
  have hok := h.master.step ha hm
  refine ⟨hok, fun {id addr mp} hr => ?_, fun hr => hc.placed h.master (h.report hr), fun hx => ?_⟩
  · obtain ⟨g, hg, rfl⟩ := map_eq_some_iff.mp hr
    have hold : s.groups.lookup id = some g → Placed m.table id (g addr).start (g addr).cursor :=
      fun hg => hc.placed h.master (h.replica (by rw [VolumeIds.replica, hg, map_some]))
    cases hst : s.master.started e with
    | none =>
      simp only [hst] at hg
      exact hold hg
    | some new =>
      obtain ⟨newID, start, endId⟩ := new
      simp only [hst, Maps.lookup_insert] at hg
      split at hg
      next hid =>
        cases hg
        have hget := table_of_started hm hst
        have hle := le_trans (hok.ranges.asc.le hget) (hok.ranges.bound hget)
        exact ⟨_, hid ▸ hget, rfl, UInt64.le_refl _, hle⟩
      · exact hold hg
  · obtain ⟨hw, hmax⟩ := h.returned hx
    refine ⟨RangeMaster.Within.change h.master ha hc hw ?_ ?_, hmax⟩
    · rintro start rfl
      exact le_of_keepsIds hkeep hx
    · rintro mr hasEnough rfl
      exact le_of_keepsIds hkeep hx

/-! Steps of the meta nodes. -/

theorem Ok.nextInodeID (h : s.Ok) (ha : s.Allowed (.nextInodeID id addr))
    (hs : s.step (.nextInodeID id addr) = some s') : s'.Ok := by
  obtain ⟨mp, hmp, hs⟩ := Option.bind_eq_some_iff.mp hs
  obtain ⟨⟨x, mp'⟩, hx, rfl⟩ := map_eq_some_iff.mp hs
  obtain ⟨r, hr, hstart, hlo, hhi⟩ := h.replica hmp
  obtain ⟨mpM, hmpM, rfl⟩ := RangeMaster.exists_of_table hr
  have hcursor : mp.cursor < mpM.endId := ha mpM hmpM mp hmp
  have hbound : mpM.endId ≤ defaultMaxMetaPartitionInodeID := h.master.ranges.bound hr
  obtain ⟨rfl, hlt, -⟩ := IdReplica.nextInodeID_eq hx
  have hle : x ≤ mpM.endId := by
    obtain ⟨-, hx⟩ := ite_none_left_eq_some.mp hx
    rw [← (Prod.mk.inj (some.inj hx)).1]
    grind
  have hmax := le_trans hle hbound
  have hplaced : Placed s.master.table id mp.start x :=
    ⟨_, hr, hstart, le_trans hlo (le_of_lt hlt), hmax⟩
  have hok : (s.setReplica id addr { mp with cursor := x }).Ok := h.setReplica hplaced
  refine { hok with returned := fun hx' => ?_ }
  rcases List.mem_cons.mp hx' with heq | hx'
  · cases heq
    exact ⟨⟨_, hr, UInt64.lt_of_le_of_lt (hstart ▸ hlo) hlt, .inl hle⟩, hmax⟩
  · exact h.returned hx'

theorem cursor_fsmCreateInode (mp : ChubaoFS.MetaPartition) (ino : Inode) :
    (mp.fsmCreateInode ino).1.start = mp.start ∧ (mp.fsmCreateInode ino).1.cursor = mp.cursor := by
  unfold ChubaoFS.MetaPartition.fsmCreateInode
  split
  all_goals exact ⟨rfl, rfl⟩

theorem Ok.createInode {ino : Inode} {low : Bool} (h : s.Ok)
    (hs : s.step (.createInode id addr ino low) = some s') : s'.Ok := by
  obtain ⟨hret, hs⟩ := Option.ite_none_right_eq_some.mp hs
  obtain ⟨mp, hmp, rfl⟩ := map_eq_some_iff.mp hs
  obtain ⟨⟨r, hr, hlo, -⟩, hmax⟩ := h.returned hret
  obtain ⟨r', hr', hstart, hle⟩ := h.replica hmp
  obtain rfl := some.inj (hr.symm.trans hr')
  apply h.setReplica
  rw [(cursor_fsmCreateInode _ ino).1, (cursor_fsmCreateInode _ ino).2]
  cases low with
  | true => exact ⟨_, hr, hstart, hstart ▸ le_of_lt hlo, hmax⟩
  | false => exact ⟨_, hr, hstart, hle⟩

theorem cursor_apply (hc : ∀ ino, c ≠ .createInode ino) :
    (mp.apply c).start = mp.start ∧ (mp.apply c).cursor = mp.cursor := by
  by_cases htick : c = .storeTick
  · subst htick
    exact ⟨rfl, rfl⟩
  have hrest : ChubaoFS.MetaPartition.Rest mp (mp.apply c) :=
    ChubaoFS.MetaPartition.rest_apply hc htick
  exact ⟨hrest.start, hrest.cursor⟩

theorem Ok.apply (h : s.Ok) (hs : s.step (.apply id addr c) = some s') : s'.Ok := by
  obtain ⟨hcan, hs⟩ := ite_none_right_eq_some.mp hs
  obtain ⟨mp, hmp, rfl⟩ := map_eq_some_iff.mp hs
  have hc : ∀ ino, c ≠ .createInode ino := by
    rintro ino rfl
    cases hcan
  apply h.setReplica
  rw [(cursor_apply hc).1, (cursor_apply hc).2]
  exact h.replica hmp

theorem Ok.upperBound {r : UInt64 × Text × MetaPartitionReport} {hasEnough : Bool} (h : s.Ok)
    (ha : s.Allowed (.upperBound r hasEnough)) (hs : s.step (.upperBound r hasEnough) = some s') :
    s'.Ok := by
  obtain ⟨hr, hs⟩ := ite_none_right_eq_some.mp hs
  refine h.masterStep ?_ ha hs
  intro mp hmp
  obtain ⟨r', hr', hstart, hle⟩ := h.report hr
  obtain rfl := some.inj ((RangeMaster.table_of_lookup hmp).symm.trans hr')
  have hbound := (h.report hr).start_le_upperBound
  rwa [hstart] at hbound

theorem Ok.step {e : IdsEvent} (h : s.Ok) (ha : s.Allowed e) (hs : s.step e = some s') : s'.Ok := by
  cases e with
  | master e =>
    obtain ⟨-, hs⟩ := ite_none_left_eq_some.mp hs
    exact h.masterStep ha.1 ha.2 hs
  | heartbeat id addr isLeader =>
    obtain ⟨mp, hmp, rfl⟩ := map_eq_some_iff.mp hs
    refine { h with report := fun hr => ?_ }
    rcases List.mem_cons.mp hr with rfl | hr
    · exact h.replica hmp
    · exact h.report hr
  | report r =>
    obtain ⟨hr, hs⟩ := ite_none_right_eq_some.mp hs
    exact h.masterStep (e := .report r.1 r.2.1 r.2.2) trivial rfl hs
  | upperBound r hasEnough => exact h.upperBound ha hs
  | nextInodeID id addr => exact h.nextInodeID ha hs
  | createInode id addr ino low => exact h.createInode hs
  | apply id addr c => exact h.apply hs

theorem ok_new (vol : Vol) (metaPartitionID : UInt64) {count : Int} (h : count ≤ 549755813888) :
    (new vol metaPartitionID count).Ok :=
  ⟨RangeMaster.ok_new vol metaPartitionID h, fun hr => (nomatch hr), fun hr => (nomatch hr),
    fun hx => (nomatch hx)⟩

def DistinctIds (s : VolumeIds) : Prop :=
  ∀ p q x, (p, x) ∈ s.returned → (q, x) ∈ s.returned → p = q

/-- No two meta partitions of a volume give out the same inode id. -/
theorem inode_ids_distinct (vol : Vol) (metaPartitionID : UInt64) {count : Int}
    (hcount : count ≤ 549755813888)
    (h : Reach step Allowed (new vol metaPartitionID count) s) : s.DistinctIds := by
  have hok : s.Ok :=
    h.invariant (ok_new vol metaPartitionID hcount) fun _ _ _ hok ha hs => hok.step ha hs
  intro p q x hp hq
  exact (hok.returned hp).1.distinct hok.master.ranges.asc (hok.returned hq).1

instance decidableAllowed (s : VolumeIds) (e : IdsEvent) : Decidable (s.Allowed e) :=
  match e with
  | .master _ => inferInstanceAs (Decidable (_ ∧ _))
  | .upperBound _ _ => inferInstanceAs (Decidable (_ = _))
  | .nextInodeID _ _ => inferInstanceAs (Decidable (∀ mp ∈ _, ∀ r ∈ _, _))
  | .heartbeat _ _ _ | .report _ | .createInode _ _ _ _ | .apply _ _ _ =>
    inferInstanceAs (Decidable True)

def sampleNew : VolumeIds := new (newVol 1 "vol".toList "owner".toList GB 10) 0 3

def sampleSplit : List IdsEvent :=
  [.master (.initAllocated true), .master (.initCreated (some RangeMaster.sampleCreated)),
    .master (.initAllocated true), .master (.initCreated (some RangeMaster.sampleCreated)),
    .master (.initAllocated true), .master (.initCreated (some RangeMaster.sampleCreated)),
    .heartbeat 3 "a".toList true, .report (3, "a".toList, ⟨33554433, 33554433, true⟩),
    .upperBound (3, "a".toList, ⟨33554433, 33554433, true⟩) true, .master (.stored 3 true),
    .master (.allocated 3 true), .master (.created 3 (some RangeMaster.sampleCreated))]

theorem inode_ids_distinct_split : ∃ s : VolumeIds, Reach step Allowed sampleNew s ∧
    s.returned = [(4, 50331651), (3, 33554434)] ∧ s.DistinctIds := by
  obtain ⟨s, hreach, h⟩ := Reach.exists_checked step Allowed sampleNew
    (sampleSplit ++ [.nextInodeID 3 "a".toList, .nextInodeID 4 "a".toList])
    (fun s => decide (s.returned = [(4, 50331651), (3, 33554434)])) (by decide +kernel)
  exact ⟨s, hreach, of_decide_eq_true h, inode_ids_distinct _ _ (by decide) hreach⟩

/-! A partition that has not heard of its new end. -/

theorem replica_setReplica_self (h : s.replica id addr = some mp) (mp' : ChubaoFS.MetaPartition) :
    (s.setReplica id addr mp').replica id addr = some mp' := by
  obtain ⟨g, hg, -⟩ := map_eq_some_iff.mp h
  simp only [replica, setReplica, hg, AList.lookup_insert, map_some, update_self]

theorem replica_setReplica_of_ne (hne : id' ≠ id) (addr' : Text) (mp : ChubaoFS.MetaPartition) :
    (s.setReplica id addr mp).replica id' addr' = s.replica id' addr' := by
  unfold replica setReplica
  dsimp only
  split
  · rfl
  · rw [AList.lookup_insert_ne hne]

theorem reach_nextInodeIDs {s₀ : VolumeIds} (h : s.replica id addr = some mp) (k : Nat)
    (hk : mp.cursor.toNat + k ≤ mp.endId.toNat) (hs : Reach step (fun _ _ => True) s₀ s) :
    ∃ s' c, Reach step (fun _ _ => True) s₀ s' ∧ c.toNat = mp.cursor.toNat + k ∧
      s'.replica id addr = some { mp with cursor := c } ∧
      (∀ y ∈ s.returned, y ∈ s'.returned) ∧ (0 < k → (id, c) ∈ s'.returned) ∧
      ∀ id' addr', id' ≠ id → s'.replica id' addr' = s.replica id' addr' := by
  induction k with
  | zero =>
    exact ⟨s, mp.cursor, hs, rfl, h, fun _ hy => hy, fun h0 => absurd h0 (Nat.lt_irrefl 0),
      fun _ _ _ => rfl⟩
  | succ k ih =>
    obtain ⟨s₁, c, hreach, hc, hrep, hmono, -, hother⟩ := ih (by omega)
    have hlt : ¬ c ≥ mp.endId := by
      rw [ge_iff_le, UInt64.le_iff_toNat_le]
      omega
    have hsucc : (c + 1).toNat = mp.cursor.toNat + (k + 1) := by
      have hmax := mp.endId.toNat_lt
      rw [UInt64.toNat_add, UInt64.toNat_one]
      omega
    have hnext : ({ mp with cursor := c } : ChubaoFS.MetaPartition).nextInodeID =
        some (c + 1, { mp with cursor := c + 1 }) := if_neg hlt
    have hstep : s₁.step (.nextInodeID id addr) = some
        { s₁.setReplica id addr { mp with cursor := c + 1 } with
          returned := (id, c + 1) :: s₁.returned } := by
      simp only [step, hrep, Option.bind_some, hnext, map_some]
    refine ⟨_, c + 1, .next hreach trivial hstep, hsucc, replica_setReplica_self hrep _, ?_, ?_, ?_⟩
    · exact fun y hy => List.mem_cons_of_mem _ (hmono y hy)
    · exact fun _ => List.mem_cons_self ..
    · intro id' addr' hne
      exact (replica_setReplica_of_ne hne addr' _).trans (hother id' addr' hne)

def bounds (s : VolumeIds) (id : UInt64) (addr : Text) : Option (UInt64 × UInt64) :=
  (s.replica id addr).map fun mp => (mp.cursor, mp.endId)

theorem inode_id_returned_twice : ∃ s, Reach step (fun _ _ => True) sampleNew s ∧
      (3, 50331651) ∈ s.returned ∧ (4, 50331651) ∈ s.returned := by
  obtain ⟨s, hreach, h⟩ := Reach.exists_checked step (fun _ _ => True) sampleNew sampleSplit
    (fun s => decide (s.bounds 3 "a".toList = some (33554433, defaultMaxMetaPartitionInodeID) ∧
      s.bounds 4 "a".toList = some (50331650, defaultMaxMetaPartitionInodeID)))
    (by decide +kernel)
  obtain ⟨h3, h4⟩ := of_decide_eq_true h
  obtain ⟨mp3, hmp3, hb3⟩ := Option.map_eq_some_iff.mp h3
  obtain ⟨mp4, hmp4, hb4⟩ := Option.map_eq_some_iff.mp h4
  obtain ⟨hcur3, hend3⟩ := Prod.mk.inj hb3
  obtain ⟨hcur4, hend4⟩ := Prod.mk.inj hb4
  have hmax : defaultMaxMetaPartitionInodeID.toNat = 9223372036854775807 := rfl
  have hc3 : mp3.cursor.toNat = 33554433 := hcur3 ▸ rfl
  have hc4 : mp4.cursor.toNat = 50331650 := hcur4 ▸ rfl
  -- the task with the new end of partition 3 is still under way
  obtain ⟨s₁, c₁, hreach₁, hc₁, -, -, hret₁, hother⟩ :=
    reach_nextInodeIDs hmp3 16777218 (by rw [hc3, hend3, hmax]; decide) hreach
  obtain ⟨s₂, c₂, hreach₂, hc₂, -, hmono, hret₂, -⟩ :=
    reach_nextInodeIDs ((hother 4 _ (by decide)).trans hmp4) 1
      (by rw [hc4, hend4, hmax]; decide) hreach₁
  obtain rfl : c₁ = 50331651 := UInt64.toNat_inj.mp (hc₁.trans (by rw [hc3]; rfl))
  obtain rfl : c₂ = 50331651 := UInt64.toNat_inj.mp (hc₂.trans (by rw [hc4]; rfl))
  exact ⟨s₂, hreach₂, hmono _ (hret₁ (by decide)), hret₂ (by decide)⟩

end VolumeIds
end ChubaoFS.Master
