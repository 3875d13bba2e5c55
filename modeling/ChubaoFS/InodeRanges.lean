import ChubaoFS.Base.Maps
import ChubaoFS.Base.Ranges
import ChubaoFS.Base.Run
import ChubaoFS.MasterMemory

namespace ChubaoFS.Master

def defaultInitMetaPartitionCount : Nat := 3

def Vol.maxPartitionID (vol : Vol) : UInt64 :=
  vol.metaPartitions.keys.foldl (fun maxID id => if id > maxID then id else maxID) 0

structure MetaPartitionReport where
  start : UInt64
  maxInodeID : UInt64
  isLeader : Bool
  deriving DecidableEq, Repr

/-- The end that `updateInodeIDUpperBound` gives to a partition after a report. -/
def MetaPartitionReport.upperBound (mr : MetaPartitionReport) : UInt64 :=
  if mr.maxInodeID ≤ 0 then mr.start + defaultMetaPartitionInodeIDStep
  else mr.maxInodeID + defaultMetaPartitionInodeIDStep

/-- `updateMetaPartition` for a report from a host of the partition. -/
def MetaPartition.updateMetaPartition (mp : MetaPartition) (addr : Text)
    (mr : MetaPartitionReport) : MetaPartition :=
  if addr ∈ mp.hosts then
    let replicas := if mp.replicas.any (·.addr = addr) then mp.replicas
      else mp.replicas ++ [⟨addr, false, true⟩]
    { mp with
      maxNodeID := mr.maxInodeID
      replicas := replicas.map fun r =>
        if r.addr = addr then { r with isLeader := mr.isLeader } else r }
  else mp

inductive SplitPhase
  -- the end is lowered and is being stored; with the old end
  | cutting (oldEnd : UInt64)
  -- `checkEnd` has raised the end and is storing it; with the old end
  | raising (oldEnd : UInt64)
  -- `createMetaPartition` has been called
  | creating
  -- it has allocated an id
  | adding (partitionID : UInt64)
  deriving DecidableEq, Repr

/-- The loop of `initMetaPartitions`. -/
structure InitLoop where
  index : Nat
  endId : UInt64
  partitionID : Option UInt64
  deriving DecidableEq, Repr

namespace InitLoop

def start (l : InitLoop) : UInt64 := if l.index ≠ 0 then l.endId + 1 else 0

def nextEnd (l : InitLoop) (count : Nat) : UInt64 :=
  if l.index + 1 = count then defaultMaxMetaPartitionInodeID
  else defaultMetaPartitionInodeIDStep * UInt64.ofNat (l.index + 1)

def next (l : InitLoop) (count : Nat) : Option InitLoop :=
  if l.index + 1 = count then none else some ⟨l.index + 1, l.nextEnd count, none⟩

end InitLoop

instance lawfulBEqIds : LawfulBEq (UInt64 × UInt64) := inferInstance

structure RangeMaster where
  vol : Vol
  -- the allocator of the whole cluster
  metaPartitionID : UInt64
  count : Nat
  init : Option InitLoop
  -- calls of `updateInodeIDRange` that wait for the lock of the partition they have picked
  picked : List (UInt64 × UInt64)
  calls : Map UInt64 SplitPhase
  creationFailed : Bool

/-- What `createMetaPartition` makes on the meta nodes. -/
structure Created where
  hosts : List Text
  peers : List Peer
  replicas : List MetaReplica
  deriving DecidableEq, Repr

inductive RangeEvent
  -- an iteration of `initMetaPartitions` allocates its id, or fails before it has one
  | initAllocated (ok : Bool)
  | initCreated (created : Option Created)
  -- `updateInodeIDRange` of the cluster, up to the lock and from there
  | pick (start : UInt64)
  | update (partitionID start : UInt64)
  | report (partitionID : UInt64) (addr : Text) (mr : MetaPartitionReport)
  | upperBound (partitionID : UInt64) (mr : MetaPartitionReport) (hasEnough : Bool)
  | checkEnd (partitionID : UInt64)
  -- the submission of a changed end
  | stored (partitionID : UInt64) (ok : Bool)
  | allocated (partitionID : UInt64) (ok : Bool)
  | created (partitionID : UInt64) (created : Option Created)
  -- other changes of the replicas of a partition
  | replicas (partitionID : UInt64) (replicas : List MetaReplica)
  | allocatedElsewhere
  deriving Repr

namespace RangeMaster

def new (vol : Vol) (metaPartitionID : UInt64) (count : Int) : RangeMaster :=
  { vol := { vol with metaPartitions := ∅ }
    metaPartitionID := metaPartitionID
    count := if count < defaultInitMetaPartitionCount then defaultInitMetaPartitionCount
      else count.toNat
    init := some ⟨0, 0, none⟩, picked := [], calls := ∅, creationFailed := false }

def setPartition (s : RangeMaster) (id : UInt64) (mp : MetaPartition) : RangeMaster :=
  { s with vol := { s.vol with metaPartitions := s.vol.metaPartitions.insert id mp } }

def unlock (s : RangeMaster) (id : UInt64) : RangeMaster := { s with calls := s.calls.erase id }

def addPartition (s : RangeMaster) (id start endId : UInt64) (created : Created) : RangeMaster :=
  let mp := newMetaPartition id start endId s.vol.mpReplicaNum s.vol.name s.vol.id
  { s with vol := s.vol.addMetaPartition { mp with
      hosts := created.hosts, peers := created.peers, replicas := created.replicas
      status := readWrite } }

/-- `MetaPartition.updateInodeIDRange` up to the submission. -/
def updateInodeIDRange (s : RangeMaster) (id : UInt64) (mp : MetaPartition) (endId : UInt64) :
    RangeMaster :=
  if endId > defaultMaxMetaPartitionInodeID - defaultMetaPartitionInodeIDStep then s
  else if mp.hasLeader = false then s
  else { s.setPartition id { mp with endId := endId } with
         calls := s.calls.insert id (.cutting mp.endId) }

def free (s : RangeMaster) (id : UInt64) : Bool := (s.calls.lookup id).isNone

def locked (s : RangeMaster) (id : UInt64) (f : MetaPartition → RangeMaster) : Option RangeMaster :=
  if s.free id then (s.vol.metaPartitions.lookup id).map f else none

def step (s : RangeMaster) : RangeEvent → Option RangeMaster
  | .initAllocated ok =>
    match s.init with
    | some ⟨index, endId, none⟩ =>
      let l : InitLoop := ⟨index, endId, none⟩
      some (if ok then { s with
          metaPartitionID := s.metaPartitionID + 1
          init := some { l with partitionID := some (s.metaPartitionID + 1) } }
        else { s with init := l.next s.count, creationFailed := true })
    | _ => none
  | .initCreated created =>
    match s.init with
    | some ⟨index, endId, some id⟩ =>
      let l : InitLoop := ⟨index, endId, some id⟩
      match created with
      | none => some { s with init := l.next s.count, creationFailed := true }
      | some created =>
        some { s.addPartition id l.start (l.nextEnd s.count) created with init := l.next s.count }
    | _ => none
  | .pick start =>
    let id := s.vol.maxPartitionID
    match s.vol.metaPartitions.lookup id with
    | none => some s
    | some mp =>
      if start < mp.maxNodeID then some s
      else if mp.hasLeader = false then some s
      else some { s with picked := (id, start) :: s.picked }
  | .update id start =>
    if (id, start) ∈ s.picked then
      s.locked id fun mp =>
        { s with picked := s.picked.erase (id, start) }.updateInodeIDRange id mp start
    else none
  | .report id addr mr => s.locked id fun mp => s.setPartition id (mp.updateMetaPartition addr mr)
  | .upperBound id mr hasEnough =>
    s.locked id fun mp =>
      if mp.hasLeader = false then s
      else if id < s.vol.maxPartitionID then s
      else if mp.endId = defaultMaxMetaPartitionInodeID ∧ hasEnough = true then
        s.updateInodeIDRange id mp mr.upperBound
      else s
  | .checkEnd id =>
    s.locked id fun mp =>
      if id ≠ s.vol.maxPartitionID then s
      else if mp.endId ≠ defaultMaxMetaPartitionInodeID then
        { s.setPartition id { mp with endId := defaultMaxMetaPartitionInodeID } with
          calls := s.calls.insert id (.raising mp.endId) }
      else s
  | .stored id ok =>
    match s.calls.lookup id, s.vol.metaPartitions.lookup id with
    | some (.cutting oldEnd), some mp =>
      some (if ok then { s with calls := s.calls.insert id .creating }
        else (s.setPartition id { mp with endId := oldEnd }).unlock id)
    | some (.raising oldEnd), some mp =>
      some (if ok then s.unlock id
        else (s.setPartition id { mp with endId := oldEnd }).unlock id)
    | _, _ => none
  | .allocated id ok =>
    match s.calls.lookup id with
    | some .creating =>
      some (if ok then { s with
          metaPartitionID := s.metaPartitionID + 1
          calls := s.calls.insert id (.adding (s.metaPartitionID + 1)) }
        else { s.unlock id with creationFailed := true })
    | _ => none
  | .created id created =>
    match s.calls.lookup id, s.vol.metaPartitions.lookup id with
    | some (.adding newID), some mp =>
      match created with
      | none => some { s.unlock id with creationFailed := true }
      | some created =>
        let s' := s.addPartition newID (mp.endId + 1) defaultMaxMetaPartitionInodeID created
        some (s'.unlock id)
    | _, _ => none
  | .replicas id replicas =>
    s.locked id fun mp => s.setPartition id { mp with replicas := replicas }
  | .allocatedElsewhere => some { s with metaPartitionID := s.metaPartitionID + 1 }

def table (s : RangeMaster) : Ranges.Table UInt64 UInt64 :=
  fun id => (s.vol.metaPartitions.lookup id).map fun mp => (mp.start, mp.endId)

end RangeMaster

open Ranges

/-! Steps. -/

theorem Vol.le_maxPartitionID {vol : Vol} {id : UInt64} {mp : MetaPartition}
    (h : vol.metaPartitions.lookup id = some mp) : id ≤ vol.maxPartitionID := by
  -- the running maximum only grows, and is at least every id it has seen
  have hfold : ∀ (l : List UInt64) (a : UInt64),
      a ≤ l.foldl (fun maxID id => if id > maxID then id else maxID) a ∧
      ∀ x ∈ l, x ≤ l.foldl (fun maxID id => if id > maxID then id else maxID) a := by
    intro l
    induction l with
    | nil => exact fun a => ⟨UInt64.le_refl a, fun x hx => absurd hx List.not_mem_nil⟩
    | cons y l ih =>
      intro a
      obtain ⟨hacc, hmem⟩ := ih (if y > a then y else a)
      have hboth : a ≤ (if y > a then y else a) ∧ y ≤ (if y > a then y else a) := by
        split <;> grind
      refine ⟨UInt64.le_trans hboth.1 hacc, fun x hx => ?_⟩
      rcases List.mem_cons.mp hx with rfl | hx
      · exact UInt64.le_trans hboth.2 hacc
      · exact hmem x hx
  have hkey : id ∈ vol.metaPartitions.keys := by
    rw [← AList.mem_keys, ← AList.lookup_isSome, h]
    rfl
  exact (hfold _ _).2 id hkey

namespace RangeMaster

variable {s s' : RangeMaster} {id : UInt64} {mp : MetaPartition}

theorem table_of_lookup (h : s.vol.metaPartitions.lookup id = some mp) :
    s.table id = some (mp.start, mp.endId) := by
  rw [table, h]
  rfl

theorem exists_of_table {r : UInt64 × UInt64} (h : s.table id = some r) :
    ∃ mp, s.vol.metaPartitions.lookup id = some mp ∧ (mp.start, mp.endId) = r :=
  Option.map_eq_some_iff.mp h

variable (s)

theorem table_setPartition (id : UInt64) (mp : MetaPartition) :
    (s.setPartition id mp).table = Function.update s.table id (some (mp.start, mp.endId)) := by
  funext i
  simp only [table, setPartition, Maps.lookup_insert]
  by_cases hi : i = id
  · subst hi
    rw [if_pos rfl, Function.update_self]
    rfl
  · rw [if_neg hi, Function.update_of_ne hi]
    rfl

theorem table_addPartition (id start endId : UInt64) (created : Created) :
    (s.addPartition id start endId created).table =
      Function.update s.table id (some (start, endId)) :=
  table_setPartition s id _

variable {s} {mp' : MetaPartition}

section

variable (h : s.vol.metaPartitions.lookup id = some mp)
include h

theorem isLast_of_not_lt (hmax : ¬ id < s.vol.maxPartitionID) :
    IsLast s.table id (mp.start, mp.endId) := by
  refine ⟨table_of_lookup h, fun hi => ?_⟩
  obtain ⟨mp', hmp', -⟩ := exists_of_table hi
  exact UInt64.le_trans (Vol.le_maxPartitionID hmp') (UInt64.not_lt.mp hmax)

end

theorem locked_eq_some {f : MetaPartition → RangeMaster} (h : s.locked id f = some s') :
    ∃ mp, s.vol.metaPartitions.lookup id = some mp ∧ s.calls.lookup id = none ∧ s' = f mp := by
  obtain ⟨hfree, h⟩ := Option.ite_none_right_eq_some.mp h
  obtain ⟨mp, hmp, rfl⟩ := Option.map_eq_some_iff.mp h
  exact ⟨mp, hmp, Option.isNone_iff_eq_none.mp hfree, rfl⟩

/-- What an event can do to the ranges, the allocator, the loop, the locks and the mark of a failed
creation. -/
inductive Change (s : RangeMaster) : RangeEvent → Table UInt64 UInt64 → UInt64 →
    Option InitLoop → Map UInt64 SplitPhase → Bool → Prop
  | same {e : RangeEvent} : Change s e s.table s.metaPartitionID s.init s.calls s.creationFailed
  | elsewhere : Change s .allocatedElsewhere s.table (s.metaPartitionID + 1) s.init s.calls
      s.creationFailed
  | loopAllocated {index : Nat} {endId : UInt64} (hinit : s.init = some ⟨index, endId, none⟩) :
      Change s (.initAllocated true) s.table (s.metaPartitionID + 1)
        (some ⟨index, endId, some (s.metaPartitionID + 1)⟩) s.calls s.creationFailed
  | loopFailed {e : RangeEvent} {l : InitLoop} (hinit : s.init = some l) :
      Change s e s.table s.metaPartitionID (l.next s.count) s.calls true
  | loopCreated {l : InitLoop} {id : UInt64} {created : Created} (hinit : s.init = some l)
      (hid : l.partitionID = some id) :
      Change s (.initCreated (some created))
        (Function.update s.table id (some (l.start, l.nextEnd s.count))) s.metaPartitionID
        (l.next s.count) s.calls s.creationFailed
  | updated {id endId : UInt64} {mp : MetaPartition}
      (hmp : s.vol.metaPartitions.lookup id = some mp) (hfree : s.calls.lookup id = none)
      (hle : endId ≤ defaultMaxMetaPartitionInodeID - defaultMetaPartitionInodeIDStep) :
      Change s (.update id endId) (Function.update s.table id (some (mp.start, endId)))
        s.metaPartitionID s.init (s.calls.insert id (.cutting mp.endId)) s.creationFailed
  | bounded {id : UInt64} {mr : MetaPartitionReport} {hasEnough : Bool} {mp : MetaPartition}
      (hmp : s.vol.metaPartitions.lookup id = some mp) (hfree : s.calls.lookup id = none)
      (hmax : ¬ id < s.vol.maxPartitionID) (hend : mp.endId = defaultMaxMetaPartitionInodeID)
      (hle : mr.upperBound ≤ defaultMaxMetaPartitionInodeID - defaultMetaPartitionInodeIDStep) :
      Change s (.upperBound id mr hasEnough)
        (Function.update s.table id (some (mp.start, mr.upperBound))) s.metaPartitionID s.init
        (s.calls.insert id (.cutting mp.endId)) s.creationFailed
  | raised {id : UInt64} {mp : MetaPartition} (hmp : s.vol.metaPartitions.lookup id = some mp)
      (hfree : s.calls.lookup id = none) (hmax : ¬ id < s.vol.maxPartitionID)
      (hend : mp.endId ≠ defaultMaxMetaPartitionInodeID) :
      Change s (.checkEnd id)
        (Function.update s.table id (some (mp.start, defaultMaxMetaPartitionInodeID)))
        s.metaPartitionID s.init (s.calls.insert id (.raising mp.endId)) s.creationFailed
  | restored {id oldEnd : UInt64} {phase : SplitPhase} {mp : MetaPartition}
      (hmp : s.vol.metaPartitions.lookup id = some mp) (hcall : s.calls.lookup id = some phase)
      (hphase : phase = .cutting oldEnd ∨ phase = .raising oldEnd) :
      Change s (.stored id false) (Function.update s.table id (some (mp.start, oldEnd)))
        s.metaPartitionID s.init (s.calls.erase id) s.creationFailed
  | cutStored {id oldEnd : UInt64} (hcall : s.calls.lookup id = some (.cutting oldEnd)) :
      Change s (.stored id true) s.table s.metaPartitionID s.init (s.calls.insert id .creating)
        s.creationFailed
  | raiseStored {id oldEnd : UInt64} (hcall : s.calls.lookup id = some (.raising oldEnd)) :
      Change s (.stored id true) s.table s.metaPartitionID s.init (s.calls.erase id)
        s.creationFailed
  | allocated {id : UInt64} (hcall : s.calls.lookup id = some .creating) :
      Change s (.allocated id true) s.table (s.metaPartitionID + 1) s.init
        (s.calls.insert id (.adding (s.metaPartitionID + 1))) s.creationFailed
  | abandoned {e : RangeEvent} {id : UInt64} {phase : SplitPhase}
      (hcall : s.calls.lookup id = some phase) :
      Change s e s.table s.metaPartitionID s.init (s.calls.erase id) true
  | created {id newID : UInt64} {mp : MetaPartition} {created : Created}
      (hmp : s.vol.metaPartitions.lookup id = some mp)
      (hcall : s.calls.lookup id = some (.adding newID)) :
      Change s (.created id (some created))
        (Function.update s.table newID (some (mp.endId + 1, defaultMaxMetaPartitionInodeID)))
        s.metaPartitionID s.init (s.calls.erase id) s.creationFailed

def Changed (s : RangeMaster) (e : RangeEvent) (s' : RangeMaster) : Prop :=
  s'.count = s.count ∧ s.Change e s'.table s'.metaPartitionID s'.init s'.calls s'.creationFailed

variable {ok : Bool} {created : Option Created} {start : UInt64}

theorem changed_initAllocated (hs : s.step (.initAllocated ok) = some s') :
    s.Changed (.initAllocated ok) s' := by
  simp only [step] at hs
  split at hs
  next index endId hinit =>
    cases hs
    cases ok with
    | true => exact ⟨rfl, .loopAllocated hinit⟩
    | false => exact ⟨rfl, .loopFailed hinit⟩
  · cases hs

theorem changed_initCreated (hs : s.step (.initCreated created) = some s') :
    s.Changed (.initCreated created) s' := by
  simp only [step] at hs
  split at hs
  next index endId id hinit =>
    split at hs
    · cases hs
      exact ⟨rfl, .loopFailed hinit⟩
    rename_i created
    cases hs
    refine ⟨rfl, ?_⟩
    change s.Change _ (s.addPartition id _ _ created).table s.metaPartitionID _ s.calls _
    rw [table_addPartition]
    exact .loopCreated hinit rfl
  · cases hs

theorem changed_pick (hs : s.step (.pick start) = some s') : s.Changed (.pick start) s' := by
  simp only [step] at hs
  split at hs
  · cases hs
    exact ⟨rfl, .same⟩
  split at hs
  · cases hs
    exact ⟨rfl, .same⟩
  · split at hs
    all_goals
      cases hs
      exact ⟨rfl, .same⟩

theorem updateInodeIDRange_cases (s : RangeMaster) (id : UInt64) (mp : MetaPartition)
    (endId : UInt64) : s.updateInodeIDRange id mp endId = s ∨
      endId ≤ defaultMaxMetaPartitionInodeID - defaultMetaPartitionInodeIDStep ∧
      s.updateInodeIDRange id mp endId = { s.setPartition id { mp with endId := endId } with
        calls := s.calls.insert id (.cutting mp.endId) } := by
  unfold updateInodeIDRange
  split
  · exact .inl rfl
  next hover =>
    split
    · exact .inl rfl
    · exact .inr ⟨UInt64.not_lt.mp hover, rfl⟩

theorem changed_update (hs : s.step (.update id start) = some s') :
    s.Changed (.update id start) s' := by
  obtain ⟨-, hs⟩ := Option.ite_none_right_eq_some.mp hs
  obtain ⟨mp, hmp, hfree, rfl⟩ := locked_eq_some hs
  rcases updateInodeIDRange_cases { s with picked := s.picked.erase (id, start) } id mp start with
    heq | ⟨hle, heq⟩
  · rw [heq]
    exact ⟨rfl, .same⟩
  · rw [heq]
    refine ⟨rfl, ?_⟩
    change s.Change _ (s.setPartition id _).table s.metaPartitionID s.init _ _
    rw [table_setPartition]
    exact .updated hmp hfree hle

theorem changed_upperBound {mr : MetaPartitionReport} {hasEnough : Bool}
    (hs : s.step (.upperBound id mr hasEnough) = some s') :
    s.Changed (.upperBound id mr hasEnough) s' := by
  obtain ⟨mp, hmp, hfree, rfl⟩ := locked_eq_some hs
  split
  · exact ⟨rfl, .same⟩
  split
  · exact ⟨rfl, .same⟩
  next hmax =>
    split
    next hend =>
      rcases s.updateInodeIDRange_cases id mp mr.upperBound with heq | ⟨hle, heq⟩
      · rw [heq]
        exact ⟨rfl, .same⟩
      · rw [heq]
        refine ⟨rfl, ?_⟩
        change s.Change _ (s.setPartition id _).table s.metaPartitionID s.init _ _
        rw [table_setPartition]
        exact .bounded hmp hfree hmax hend.1 hle
    · exact ⟨rfl, .same⟩

theorem changed_checkEnd (hs : s.step (.checkEnd id) = some s') : s.Changed (.checkEnd id) s' := by
  obtain ⟨mp, hmp, hfree, rfl⟩ := locked_eq_some hs
  split
  · exact ⟨rfl, .same⟩
  rename_i hid
  split
  next hend =>
    refine ⟨rfl, ?_⟩
    change s.Change _ (s.setPartition id _).table s.metaPartitionID s.init _ _
    rw [table_setPartition]
    exact .raised hmp hfree (not_not.mp hid ▸ UInt64.lt_irrefl _) hend
  · exact ⟨rfl, .same⟩

theorem changed_restored {oldEnd : UInt64} {phase : SplitPhase}
    (hcall : s.calls.lookup id = some phase)
    (hphase : phase = .cutting oldEnd ∨ phase = .raising oldEnd)
    (hmp : s.vol.metaPartitions.lookup id = some mp) :
    s.Changed (.stored id false) ((s.setPartition id { mp with endId := oldEnd }).unlock id) := by
  refine ⟨rfl, ?_⟩
  have hchange := Change.restored hmp hcall hphase
  change s.Change _ (s.setPartition id _).table s.metaPartitionID s.init _ _
  rw [table_setPartition]
  exact hchange

theorem changed_stored (hs : s.step (.stored id ok) = some s') : s.Changed (.stored id ok) s' := by
  simp only [step] at hs
  split at hs
  next oldEnd mp hcall hmp =>
    cases hs
    cases ok with
    | true => exact ⟨rfl, .cutStored hcall⟩
    | false => exact changed_restored hcall (.inl rfl) hmp
  next oldEnd mp hcall hmp =>
    cases hs
    cases ok with
    | true => exact ⟨rfl, .raiseStored hcall⟩
    | false => exact changed_restored hcall (.inr rfl) hmp
  · cases hs

theorem changed_allocated (hs : s.step (.allocated id ok) = some s') :
    s.Changed (.allocated id ok) s' := by
  simp only [step] at hs
  split at hs
  next hcall =>
    cases hs
    cases ok with
    | true => exact ⟨rfl, .allocated hcall⟩
    | false => exact ⟨rfl, .abandoned hcall⟩
  · cases hs

theorem changed_created (hs : s.step (.created id created) = some s') :
    s.Changed (.created id created) s' := by
  simp only [step] at hs
  split at hs
  next newID mp hcall hmp =>
    split at hs
    · cases hs
      exact ⟨rfl, .abandoned hcall⟩
    rename_i created
    cases hs
    refine ⟨rfl, ?_⟩
    change s.Change _ (s.addPartition newID _ _ created).table s.metaPartitionID s.init _ _
    rw [table_addPartition]
    exact .created hmp hcall
  · cases hs

theorem changed_setPartition (e : RangeEvent) (hmp : s.vol.metaPartitions.lookup id = some mp)
    (hstart : mp'.start = mp.start) (hend : mp'.endId = mp.endId) :
    s.Changed e (s.setPartition id mp') := by
  refine ⟨rfl, ?_⟩
  rw [table_setPartition, hstart, hend, ← table_of_lookup hmp, Function.update_eq_self]
  exact .same

theorem changed_step {e : RangeEvent} (hs : s.step e = some s') : s.Changed e s' := by
  cases e with
  | initAllocated ok => exact changed_initAllocated hs
  | initCreated created => exact changed_initCreated hs
  | pick start => exact changed_pick hs
  | update id start => exact changed_update hs
  | report id addr mr =>
    obtain ⟨mp, hmp, -, rfl⟩ := locked_eq_some hs
    have hrange : (mp.updateMetaPartition addr mr).start = mp.start ∧
        (mp.updateMetaPartition addr mr).endId = mp.endId := by
      unfold MetaPartition.updateMetaPartition
      split
      all_goals exact ⟨rfl, rfl⟩
    exact changed_setPartition _ hmp hrange.1 hrange.2
  | upperBound id mr hasEnough => exact changed_upperBound hs
  | checkEnd id => exact changed_checkEnd hs
  | stored id ok => exact changed_stored hs
  | allocated id ok => exact changed_allocated hs
  | created id created => exact changed_created hs
  | replicas id replicas =>
    obtain ⟨mp, hmp, -, rfl⟩ := locked_eq_some hs
    exact changed_setPartition _ hmp rfl rfl
  | allocatedElsewhere =>
    cases hs
    exact ⟨rfl, .elsewhere⟩

end RangeMaster
end ChubaoFS.Master
