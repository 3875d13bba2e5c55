import ChubaoFS.Base.Decimal
import ChubaoFS.Base.Run

namespace ChubaoFS

open Function Bytes

/-! The applied index of a data partition: raft raises it entry by entry, the repair of
extents takes it over from the other replicas, and a timer writes it to the file that raft is
restarted from. -/

inductive RaftCmd
  | randomWrite (extentID : UInt64)
  /-- What cannot be decoded, or is no random write. -/
  | unknown
  | memberChange
  /-- Raft keeps its own entries to itself. -/
  | empty

inductive WriteErr
  | extentNotFound
  | extentHasBeenDeleted
  | other

def checkWriteErrs : WriteErr → Bool
  | .extentNotFound => true
  | .extentHasBeenDeleted => true
  | .other => false

def maxRetryCounts : Nat := 10

inductive ApplyResult
  | written
  | ignored
  | failed

/-- The loop of `ApplyRandomWrite`, on what `Write` returns at each attempt. -/
def retryWrite (write : Nat → Option WriteErr) (i : Nat) : Nat → ApplyResult
  | 0 => .failed
  | left + 1 =>
    match write i with
    | none => .written
    | some e => if checkWriteErrs e then .ignored else retryWrite write (i + 1) left

def applyRandomWrite (write : Nat → Option WriteErr) : ApplyResult :=
  retryWrite write 0 maxRetryCounts

/-- `finishing` is between the work on an entry and the return from `Apply`. -/
inductive RaftPhase
  | notStarted
  | running (curApplied : UInt64)
  | finishing (index : UInt64) (ok : Bool)
  | stopped

/-- A replica of a data partition. Of the extents it is kept which ones there are, of the writes
which entries they come from; `heldAt` says of an entry that its extent was there when the applied
index came to cover the entry. -/
structure DataReplica where
  appliedID : UInt64
  applyIndexFile : Option Bytes
  storing : Option UInt64
  raft : RaftPhase
  stopRaftC : Bool
  hasExtent : UInt64 → Bool
  written : UInt64 → Bool
  heldAt : UInt64 → Bool

namespace DataReplica

def newDataPartition : DataReplica where
  appliedID := 0
  applyIndexFile := none
  storing := none
  raft := .notStarted
  stopRaftC := false
  hasExtent := fun _ => false
  written := fun _ => false
  heldAt := fun _ => false

/-- `Write` of the extent store; `disk` is what the disk does. -/
def write (s : DataReplica) (extentID : UInt64) (disk : Bool) : Option WriteErr :=
  if s.hasExtent extentID then if disk then none else some .other else some .extentNotFound

/-- The first half of `Apply`. -/
def applyWrite (s : DataReplica) (index extentID : UInt64) (disk : Nat → Bool) : DataReplica :=
  match applyRandomWrite fun i => s.write extentID (disk i) with
  | .written => { s with
      raft := .finishing index true
      written := Function.update s.written index true
      heldAt := Function.update s.heldAt index (s.hasExtent extentID) }
  | .ignored => { s with
      raft := .finishing index true
      heldAt := Function.update s.heldAt index (s.hasExtent extentID) }
  | .failed => { s with raft := .finishing index false }

def minAppliedID : List UInt64 → Option UInt64
  | [] => none
  | id :: rest => some (rest.foldl (fun acc id => if id < acc then id else acc) id)

/-- The applied index that `DoExtentStoreRepair` takes over. -/
def adopted (extentsToBeCreated allAppliedIDs : List UInt64) : Option UInt64 :=
  if extentsToBeCreated = [] then none else (minAppliedID allAppliedIDs).filter fun id => 0 < id

def loadAppliedID (file : Option Bytes) : UInt64 :=
  match file with
  | none => 0
  | some data =>
    match scanUInt64 data with
    | none => 0
    | some (id, _) => id

inductive Event
  | startRaft
  | handOver (disk : Nat → Bool)
  | finish
  | stopRaft
  | adopt (extentsToBeCreated allAppliedIDs : List UInt64)
  | create (extentID : UInt64)
  | markDelete (extentID : UInt64)
  | storeBegins
  | storeEnds
  | storeFails
  | restart

variable (log : UInt64 → RaftCmd)

def targetHeld (s : DataReplica) (index : UInt64) : Bool :=
  match log index with
  | .randomWrite id => s.hasExtent id
  | _ => false

def step (s : DataReplica) : Event → Option DataReplica
  | .startRaft =>
    match s.raft with
    | .notStarted => some { s with raft := .running s.appliedID }
    | _ => none
  | .handOver disk =>
    match s.raft with
    | .running cur =>
      match log (cur + 1) with
      | .empty => some { s with raft := .running (cur + 1) }
      | .memberChange => some { s with raft := .finishing (cur + 1) true }
      | .unknown => some { s with raft := .finishing (cur + 1) false }
      | .randomWrite id => some (s.applyWrite (cur + 1) id disk)
    | _ => none
  | .finish =>
    match s.raft with
    | .finishing index true => some { s with appliedID := index, raft := .running index }
    | .finishing index false => some { s with stopRaftC := true, raft := .running index }
    | _ => none
  | .stopRaft =>
    match s.raft, s.stopRaftC with
    | .running _, true => some { s with raft := .stopped, stopRaftC := false }
    | _, _ => none
  | .adopt created ids =>
    match adopted created ids with
    | none => some s
    | some id => some { s with
        appliedID := id
        heldAt := fun i => if s.appliedID < i ∧ i ≤ id then s.targetHeld log i else s.heldAt i }
  | .create id => some { s with hasExtent := Function.update s.hasExtent id true }
  | .markDelete id => some { s with hasExtent := Function.update s.hasExtent id false }
  | .storeBegins =>
    match s.storing with
    | none => some { s with storing := some s.appliedID }
    | some _ => none
  | .storeEnds =>
    match s.storing with
    | some id => some { s with storing := none, applyIndexFile := some (putDecimal id.toNat) }
    | none => none
  | .storeFails => some { s with storing := none }
  | .restart => some { s with
      appliedID := loadAppliedID s.applyIndexFile
      storing := none
      raft := .running (loadAppliedID s.applyIndexFile)
      stopRaftC := false }

def Sound (s : DataReplica) (applied : UInt64) : Prop :=
  ∀ i, i ≤ applied → ∀ id, log i = .randomWrite id → s.heldAt i = true → s.written i = true

def Spare (s : DataReplica) (i : UInt64) : Prop := s.targetHeld log i = true → s.written i = true

/-- An applied index is taken over from the other replicas only if no write up to it is missing
in an extent of this one, and no entry is handed over once an entry failed. -/
def Cautious (s : DataReplica) : Event → Prop
  | .adopt created ids => ∀ id ∈ adopted created ids, ∀ i, s.appliedID < i → i ≤ id → s.Spare log i
  | .handOver _ => s.stopRaftC = false
  | _ => True

structure SoundInv (s : DataReplica) : Prop where
  applied : s.Sound log s.appliedID
  file : ∀ data, s.applyIndexFile = some data → ∃ id : UInt64, data = putDecimal id.toNat ∧
    s.Sound log id
  storing : ∀ id, s.storing = some id → s.Sound log id
  running : ∀ cur, s.raft = .running cur → s.stopRaftC = false → s.Sound log cur
  finishing : ∀ index ok, s.raft = .finishing index ok →
    s.stopRaftC = false ∧ (ok = true → s.Sound log index)

variable {log} {s s' : DataReplica}

theorem Sound.mono {a b : UInt64} (h : s.Sound log b) (hab : a ≤ b) : s.Sound log a :=
  fun i hi => h i (UInt64.le_trans hi hab)

variable {cur : UInt64}

theorem le_succ_cases {i : UInt64} (h : i ≤ cur + 1) : i ≤ cur ∨ i = cur + 1 := by
  have hsucc : (cur + 1).toNat = (cur.toNat + 1) % 2 ^ 64 := UInt64.toNat_add ..
  rw [UInt64.le_iff_toNat_le] at h ⊢
  rw [← UInt64.toNat_inj]
  omega

theorem Sound.succ (h : s.Sound log cur)
    (hnext : ∀ id, log (cur + 1) = .randomWrite id → s.heldAt (cur + 1) = true →
      s.written (cur + 1) = true) : s.Sound log (cur + 1) := by
  intro i hi id hid hheld
  obtain hi | rfl := le_succ_cases hi
  · exact h i hi id hid hheld
  · exact hnext id hid hheld

theorem Sound.of_le {a : UInt64} (h : s.Sound log a) (hwritten : ∀ i, s.written i → s'.written i)
    (hheld : ∀ i, s'.heldAt i = true → s.heldAt i = true ∨ s'.written i = true) :
    s'.Sound log a := by
  intro i hi id hid hi'
  obtain hold | hnew := hheld i hi'
  · exact hwritten i (h i hi id hid hold)
  · exact hnew

theorem loadAppliedID_putDecimal (id : UInt64) :
    loadAppliedID (some (putDecimal id.toNat)) = id := by
  have hscan := scanUInt64_putDecimal id [] nofun
  rw [List.append_nil] at hscan
  unfold loadAppliedID
  dsimp only
  rw [hscan]

theorem SoundInv.load (h : s.SoundInv log) : s.Sound log (loadAppliedID s.applyIndexFile) := by
  cases hfile : s.applyIndexFile with
  | none => exact h.applied.mono (UInt64.zero_le ..)
  | some data =>
    obtain ⟨id, rfl, hid⟩ := h.file data hfile
    rw [loadAppliedID_putDecimal]
    exact hid

theorem retryWrite_ne_ignored {write : Nat → Option WriteErr}
    (h : ∀ i e, write i = some e → checkWriteErrs e = false) (i left : Nat) :
    retryWrite write i left ≠ .ignored := by
  induction left generalizing i with
  | zero => nofun
  | succ left ih =>
    unfold retryWrite
    split
    · nofun
    next e he =>
      rw [h i e he]
      exact ih (i + 1)

variable {id : UInt64}

theorem not_held_of_ignored {disk : Nat → Bool}
    (h : applyRandomWrite (fun i => s.write id (disk i)) = .ignored) : s.hasExtent id = false := by
  by_contra hheld
  refine retryWrite_ne_ignored (fun i e he => ?_) 0 maxRetryCounts h
  unfold write at he
  rw [if_pos (Bool.eq_true_of_not_eq_false hheld)] at he
  split at he
  · cases he
  · cases he
    rfl

structure Keeps (log : UInt64 → RaftCmd) (s s' : DataReplica) : Prop where
  sound : ∀ a, s.Sound log a → s'.Sound log a
  file : s'.applyIndexFile = s.applyIndexFile
  storing : s'.storing = s.storing

section

variable (h : s.SoundInv log)
include h

theorem SoundInv.of_keeps (hk : Keeps log s s') (happlied : s'.Sound log s'.appliedID)
    (hrunning : ∀ cur, s'.raft = .running cur → s'.stopRaftC = false → s'.Sound log cur)
    (hfinishing : ∀ index ok, s'.raft = .finishing index ok →
      s'.stopRaftC = false ∧ (ok = true → s'.Sound log index)) : s'.SoundInv log where
  applied := happlied
  file := by
    intro data hdata
    obtain ⟨id, hid, hsound⟩ := h.file data (hk.file ▸ hdata)
    exact ⟨id, hid, hk.sound id hsound⟩
  storing := fun id hid => hk.sound id (h.storing id (hk.storing ▸ hid))
  running := hrunning
  finishing := hfinishing

theorem SoundInv.applyWrite (hcur : s.Sound log cur) (hstop : s.stopRaftC = false)
    (disk : Nat → Bool) : (s.applyWrite (cur + 1) id disk).SoundInv log := by
  unfold DataReplica.applyWrite
  split
  · have hk : Keeps log s { s with
        raft := .finishing (cur + 1) true
        written := update s.written (cur + 1) true
        heldAt := update s.heldAt (cur + 1) (s.hasExtent id) } := by
      refine ⟨fun a ha => ha.of_le (fun i hi => ?_) (fun i hi => ?_), rfl, rfl⟩
      · dsimp only
        rw [update_apply, hi, ite_self]
      · dsimp only at hi ⊢
        by_cases hne : i = cur + 1
        · rw [hne, update_self]
          exact .inr rfl
        · rw [update_of_ne hne] at hi
          exact .inl hi
    refine h.of_keeps hk (hk.sound _ h.applied) nofun ?_
    rintro index ok ⟨rfl, rfl⟩
    refine ⟨hstop, fun _ => (hk.sound _ hcur).succ fun _ _ _ => ?_⟩
    exact update_self ..
  next hign =>
    have hno := not_held_of_ignored hign
    have hk : Keeps log s { s with
        raft := .finishing (cur + 1) true
        heldAt := update s.heldAt (cur + 1) (s.hasExtent id) } := by
      refine ⟨fun a ha => ha.of_le (fun i hi => hi) (fun i hi => ?_), rfl, rfl⟩
      dsimp only at hi
      by_cases hne : i = cur + 1
      · rw [hne, update_self, hno] at hi
        cases hi
      · rw [update_of_ne hne] at hi
        exact .inl hi
    refine h.of_keeps hk (hk.sound _ h.applied) nofun ?_
    rintro index ok ⟨rfl, rfl⟩
    refine ⟨hstop, fun _ => (hk.sound _ hcur).succ fun _ _ hheld => ?_⟩
    dsimp only at hheld
    rw [update_self, hno] at hheld
    cases hheld
  · refine h.of_keeps ⟨fun _ ha => ha, rfl, rfl⟩ h.applied nofun ?_
    rintro index ok ⟨rfl, rfl⟩
    exact ⟨hstop, nofun⟩

theorem SoundInv.adopt (hspare : ∀ i, s.appliedID < i → i ≤ id → s.Spare log i) : { s with
      appliedID := id
      heldAt := fun i => if s.appliedID < i ∧ i ≤ id then s.targetHeld log i else s.heldAt i
      }.SoundInv log := by
  have hk : Keeps log s { s with
      appliedID := id
      heldAt := fun i => if s.appliedID < i ∧ i ≤ id then s.targetHeld log i else s.heldAt i } := by
    refine ⟨fun a ha => ha.of_le (fun i hi => hi) (fun i hi => ?_), rfl, rfl⟩
    dsimp only at hi ⊢
    split at hi
    next hin => exact .inr (hspare i hin.1 hin.2 hi)
    · exact .inl hi
  refine h.of_keeps hk ?_ (fun cur hcur hstop => hk.sound _ (h.running cur hcur hstop))
    fun index ok hraft => (h.finishing index ok hraft).imp_right fun hs hok => hk.sound _ (hs hok)
  intro i hi entry hentry hheld
  by_cases hle : i ≤ s.appliedID
  · exact hk.sound _ h.applied i hle entry hentry hheld
  have hlt : s.appliedID < i := UInt64.not_le.mp hle
  dsimp only at hheld
  rw [if_pos ⟨hlt, hi⟩] at hheld
  exact hspare i hlt hi hheld

theorem soundInv_step {e : Event} (ha : s.Cautious log e) (hs : s.step log e = some s') :
    s'.SoundInv log := by
  cases e with
  | startRaft =>
    dsimp only [step] at hs
    split at hs
    · cases hs
      refine h.of_keeps ⟨fun _ ha => ha, rfl, rfl⟩ h.applied ?_ nofun
      rintro cur ⟨rfl⟩ _
      exact h.applied
    · cases hs
  | handOver disk =>
    dsimp only [step] at hs
    split at hs
    next cur hraft =>
      have hcur := h.running cur hraft ha
      split at hs
      next hcmd =>
        cases hs
        refine h.of_keeps ⟨fun _ ha => ha, rfl, rfl⟩ h.applied ?_ nofun
        rintro _ ⟨rfl⟩ _
        exact hcur.succ fun id hid => absurd (hcmd.symm.trans hid) nofun
      next hcmd =>
        cases hs
        refine h.of_keeps ⟨fun _ ha => ha, rfl, rfl⟩ h.applied nofun ?_
        rintro index ok ⟨rfl, rfl⟩
        exact ⟨ha, fun _ => hcur.succ fun id hid => absurd (hcmd.symm.trans hid) nofun⟩
      · cases hs
        refine h.of_keeps ⟨fun _ ha => ha, rfl, rfl⟩ h.applied nofun ?_
        rintro index ok ⟨rfl, rfl⟩
        exact ⟨ha, nofun⟩
      next id _ =>
        cases hs
        exact h.applyWrite hcur ha disk
    · cases hs
  | finish =>
    dsimp only [step] at hs
    split at hs
    next index hraft =>
      cases hs
      have hindex := (h.finishing index true hraft).2 rfl
      refine h.of_keeps ⟨fun _ ha => ha, rfl, rfl⟩ hindex ?_ nofun
      rintro cur ⟨rfl⟩ _
      exact hindex
    next index hraft =>
      cases hs
      exact h.of_keeps ⟨fun _ ha => ha, rfl, rfl⟩ h.applied nofun nofun
    · cases hs
  | stopRaft =>
    dsimp only [step] at hs
    split at hs
    · cases hs
      exact h.of_keeps ⟨fun _ ha => ha, rfl, rfl⟩ h.applied nofun nofun
    · cases hs
  | adopt created ids =>
    dsimp only [step] at hs
    split at hs
    · exact Option.some.inj hs ▸ h
    next id hid =>
      cases hs
      exact h.adopt (ha id hid)
  | create id | markDelete id =>
    cases hs
    exact h.of_keeps ⟨fun _ ha => ha, rfl, rfl⟩ h.applied h.running h.finishing
  | storeBegins =>
    dsimp only [step] at hs
    split at hs
    · cases hs
      exact { h with storing := fun id hid => Option.some.inj hid ▸ h.applied }
    · cases hs
  | storeEnds =>
    dsimp only [step] at hs
    split at hs
    next id hid =>
      cases hs
      exact { h with
        file := fun data hdata => ⟨id, (Option.some.inj hdata).symm, h.storing id hid⟩
        storing := nofun }
    · cases hs
  | storeFails =>
    cases hs
    exact { h with storing := nofun }
  | restart =>
    cases hs
    refine ⟨h.load, h.file, nofun, ?_, nofun⟩
    rintro cur ⟨rfl⟩ _
    exact h.load

end

/-- In every run in which the repair takes over no index beyond entries that are still to be
written, and raft hands over nothing after a failed entry, each random write up to the applied index
whose extent was there is in it. -/
theorem applied_writes_present (log : UInt64 → RaftCmd) {s : DataReplica}
    (hr : Reach (step log) (Cautious log) newDataPartition s) {i id : UInt64}
    (hi : i ≤ s.appliedID) (hid : log i = .randomWrite id) (hheld : s.heldAt i = true) :
    s.written i = true := by
  have hinv : s.SoundInv log := by
    refine hr.invariant ?_ fun _ _ _ h ha hs => soundInv_step h ha hs
    exact ⟨nofun, nofun, nofun, nofun, nofun⟩
  exact hinv.applied i hi id hid hheld

def oneWrite (i : UInt64) : RaftCmd := if i = 1 then .randomWrite 1025 else .empty

theorem applied_writes_present_one : ∃ s, Reach (step oneWrite) (Cautious oneWrite)
    newDataPartition s ∧ 1 ≤ s.appliedID ∧ s.heldAt 1 = true ∧ s.written 1 = true := by
  have hr : Reach (step oneWrite) (Cautious oneWrite) newDataPartition _ :=
    .next (.next (.next (.next (.next .start
      (e := .create 1025) trivial rfl) (e := .startRaft) trivial rfl)
      (e := .handOver fun _ => true) rfl rfl) (e := .finish) trivial rfl)
      (e := .adopt [1026] [1])
      (fun id hid i hlt hle => absurd (UInt64.lt_of_lt_of_le hlt hle)
        (Option.some.inj hid ▸ UInt64.lt_irrefl _)) rfl
  refine ⟨_, hr, UInt64.le_refl 1, rfl, ?_⟩
  exact applied_writes_present oneWrite hr (UInt64.le_refl 1) rfl rfl

def leaptOver : List Event :=
  [.create 1025, .startRaft, .adopt [1026] [1], .storeBegins, .storeEnds, .restart]

theorem skipped_random_write : ∃ s, Reach (step oneWrite) (fun _ _ => True) newDataPartition s ∧
    s.appliedID = 1 ∧ s.heldAt 1 = true ∧ s.hasExtent 1025 = true ∧ s.written 1 = false ∧
    s.raft = .running 1 := by
  refine ⟨_, .of_foldlM leaptOver rfl (fun _ _ _ => trivial) .start, ?_, ?_, ?_, ?_, ?_⟩
  all_goals rfl

end DataReplica
end ChubaoFS
