import ChubaoFS.MasterMemory
import ChubaoFS.Base.Bytes
import ChubaoFS.Base.Run

namespace ChubaoFS.Master

open List Option Master KeyStore

variable {V : Type} (json : Codec V) {r : Record}

structure MetadataFsm (V : Type) where
  store : KeyStore Text V
  applied : UInt64

def Op.isDelete : Op → Bool
  | .deleteDataNode | .deleteMetaNode | .deleteVol | .deleteDataPartition
  | .deleteMetaPartition => true
  | _ => false

namespace MetadataFsm

def new : MetadataFsm V := { store := .empty, applied := 0 }

/-- `DeleteKeyAndPutIndex`: of the other keys there is only the index. -/
def delKeyAndPutIndex (store : KeyStore Text V) (k : Text) (index : V) : KeyStore Text V :=
  if Master.applied = k then KeyStore.del store k
  else (KeyStore.del store k).put Master.applied index

def apply (mf : MetadataFsm V) (cmd : RaftCmd V) (index : UInt64) : MetadataFsm V :=
  { store :=
      if cmd.op.isDelete then delKeyAndPutIndex mf.store cmd.k (json.uint.marshal index)
      else (mf.store.put cmd.k cmd.v).put Master.applied (json.uint.marshal index)
    applied := index }

structure Entry where
  op : Op
  record : Record
  index : UInt64

def step (mf : MetadataFsm V) (e : Entry) : Option (MetadataFsm V) :=
  if e.op ∈ e.record.ops then some (mf.apply json (e.record.cmd json e.op) e.index) else none

end MetadataFsm

/-! Sending a snapshot. -/

structure MetadataSnapshot (V : Type) where
  applied : UInt64
  iterator : List (Text × V)

def MetadataFsm.snapshot (mf : MetadataFsm V) : MetadataSnapshot V :=
  { applied := mf.applied, iterator := mf.store.items }

namespace MetadataSnapshot

/-- `Next`, with nothing at the end of the iteration. -/
def next (ms : MetadataSnapshot V) : Option (V × MetadataSnapshot V) :=
  match ms.iterator with
  | [] => none
  | (k, v) :: rest =>
    some (json.cmd.marshal ⟨setOpType k, k, v⟩, { ms with iterator := rest })

/-- What successive calls of `Next` return, up to a number of calls. -/
def nexts (ms : MetadataSnapshot V) : Nat → List V
  | 0 => []
  | n + 1 =>
    match ms.next json with
    | none => []
    | some (data, ms') => data :: nexts ms' n

def stream (ms : MetadataSnapshot V) : List V := ms.nexts json (ms.iterator.length + 1)

def itemData (x : Text × V) : V := json.cmd.marshal ⟨setOpType x.1, x.1, x.2⟩

theorem nexts_eq (n : Nat) (ms : MetadataSnapshot V) (h : ms.iterator.length < n) :
    ms.nexts json n = ms.iterator.map (itemData json) := by
  induction n generalizing ms with
  | zero => exact absurd h (Nat.not_lt_zero _)
  | succ n ih =>
    cases hit : ms.iterator with
    | nil => simp [nexts, next, hit]
    | cons x rest =>
      rw [hit, length_cons] at h
      simp only [nexts, next, hit, map_cons]
      rw [ih _ (by simpa using h)]
      rfl

end MetadataSnapshot

/-! Receiving it. -/

structure Server (V : Type) where
  fsm : MetadataFsm V
  cluster : Cluster

namespace Server

def storedUint (store : KeyStore Text V) (k : Text) : Except MasterError UInt64 :=
  match store.get k with
  | none => .ok 0
  | some v => Cluster.parseUint json v

/-- `IDAllocator.restore`. -/
def restoreIDAlloc (s : Server V) : Except MasterError (Server V) := do
  let dataPartitionID ← storedUint json s.fsm.store maxDataPartitionIDKey
  let metaPartitionID ← storedUint json s.fsm.store maxMetaPartitionIDKey
  let commonID ← storedUint json s.fsm.store maxCommonIDKey
  return { s with cluster := { s.cluster with
    idAlloc := ⟨dataPartitionID, metaPartitionID, commonID⟩ } }

/-- `MetadataFsm.restore`. -/
def restoreFsm (s : Server V) : Except MasterError (Server V) := do
  let index ← storedUint json s.fsm.store Master.applied
  return { s with fsm := { s.fsm with applied := index } }

def handleApplySnapshot (s : Server V) : Except MasterError (Server V) := do
  let s ← s.restoreFsm json
  s.restoreIDAlloc json

/-- The loop of `ApplySnapshot`: it ends at the first error, with what it has written so far. -/
def applyData (s : Server V) : List V → Server V × Option MasterError
  | [] => (s, none)
  | data :: rest =>
    match json.cmd.unmarshal data with
    | none => (s, some .unmarshal)
    | some cmd =>
      let s := { s with fsm := { s.fsm with store := s.fsm.store.put cmd.k cmd.v } }
      match s.cluster.handleApply json cmd with
      | .error e => (s, some e)
      | .ok c => applyData { s with cluster := c } rest

def applySnapshot (s : Server V) (data : List V) : Server V × Option MasterError :=
  match s.applyData json data with
  | (s, some e) => (s, some e)
  | (s, none) =>
    match s.handleApplySnapshot json with
    | .ok s => (s, none)
    | .error e => (s, some e)

end Server

/-! What a leader's store can hold. -/

def Stored (x : Text × V) : Prop :=
  (∃ r : Record, x = (r.key, r.value json)) ∨ ∃ n, x = (Master.applied, json.uint.marshal n)

namespace MetadataFsm

structure Recorded (mf : MetadataFsm V) : Prop where
  stored : ∀ k v, mf.store.get k = some v → Stored json (k, v)
  index : Server.storedUint json mf.store Master.applied = .ok mf.applied

variable {json} {mf mf' : MetadataFsm V}

theorem storedUint_put (s : KeyStore Text V) (k : Text) (n : UInt64) :
    Server.storedUint json (s.put k (json.uint.marshal n)) k = .ok n := by
  simp [Server.storedUint, get_put, Cluster.parseUint]

theorem Recorded.step {e : Entry} (h : mf.Recorded json) (he : mf.step json e = some mf') :
    mf'.Recorded json := by
  obtain rfl := some.inj (ite_none_right_eq_some.mp he).2
  have hne : Master.applied ≠ (e.record.cmd json e.op).k := e.record.key_ne_applied.symm
  unfold apply
  split
  · rw [delKeyAndPutIndex, if_neg hne]
    refine ⟨fun k v hk => ?_, storedUint_put _ _ _⟩
    rw [KeyStore.get_put, KeyStore.get_del] at hk
    split at hk
    next hka => exact .inr ⟨e.index, by rw [hka, ← some.inj hk]⟩
    split at hk
    · cases hk
    · exact h.stored k v hk
  refine ⟨fun k v hk => ?_, storedUint_put _ _ _⟩
  rw [KeyStore.get_put, KeyStore.get_put] at hk
  split at hk
  next hka => exact .inr ⟨e.index, by rw [hka, ← some.inj hk]⟩
  split at hk
  next hkr => exact .inl ⟨e.record, by rw [hkr, ← some.inj hk]; rfl⟩
  · exact h.stored k v hk

theorem recorded_of_reach (h : Reach (step json) (fun _ _ => True) new mf) : mf.Recorded json :=
  h.invariant ⟨fun _ _ h => (nomatch h), rfl⟩ fun _ _ _ hr _ he => hr.step he

end MetadataFsm

/-! The memory of the receiver. -/

namespace Cluster

def HasVol (c : Cluster) (name : Text) : Prop := (c.vols.lookup name).isSome = true

variable {c : Cluster} {name : Text}

theorem hasVol_setVol {vol : Vol} (h : c.HasVol name) (n : Text) :
    (c.setVol name vol).HasVol n ↔ c.HasVol n := by
  unfold HasVol setVol
  by_cases hn : n = name
  · subst hn
    rw [AList.lookup_insert]
    exact iff_of_true rfl h
  · rw [AList.lookup_insert_ne hn]

def snapshotCmd (r : Record) : RaftCmd V := ⟨setOpType r.key, r.key, r.value json⟩

theorem handleApply_snapshotCmd (c : Cluster) (r : Record) :
    c.handleApply json (snapshotCmd json r) =
      c.handleApply json ⟨r.snapshotOp, r.key, r.value json⟩ := by
  rw [snapshotCmd, Record.setOpType_key]

theorem handleApply_partition (hr : r.partitionVol = some name) :
    ∃ f : Vol → Vol, c.handleApply json (snapshotCmd json r) =
      (c.getVol name).map fun vol => c.setVol name (f vol) := by
  rw [handleApply_snapshotCmd]
  cases r with
  | dataPartition dpv =>
    cases hr
    exact c.applyAddDataPartition_marshal dpv
  | metaPartition mpv =>
    cases hr
    exact c.applyAddMetaPartition_marshal mpv
  | _ => cases hr

variable (c)

theorem handleApply_other (hr : r.partitionVol = none) :
    ∃ c', c.handleApply json (snapshotCmd json r) = .ok c' ∧
      ((∀ vv, r ≠ .vol vv) → c'.vols = c.vols) := by
  rw [handleApply_snapshotCmd]
  cases r with
  | dataPartition dpv => cases hr
  | metaPartition mpv => cases hr
  | vol vv => exact ⟨_, c.applyAddVol_marshal vv, fun hne => absurd rfl (hne vv)⟩
  | metaNode mnv =>
    refine ⟨_, c.applyAddMetaNode_marshal mnv, fun _ => ?_⟩
    split <;> rfl
  | cluster cv => exact ⟨_, c.applyPutCluster_marshal cv, fun _ => rfl⟩
  | nodeSet nsv => exact ⟨_, c.applyAddNodeSet_marshal nsv, fun _ => rfl⟩
  | dataNode dnv => exact ⟨_, c.applyAddDataNode_marshal dnv, fun _ => rfl⟩
  | maxDataPartitionID id | maxMetaPartitionID id | maxCommonID id =>
    exact ⟨c, rfl, fun _ => rfl⟩

theorem handleApply_record (r : Record) : (∀ name ∈ r.partitionVol, c.HasVol name) ∧
      (∃ c', c.handleApply json (snapshotCmd json r) = .ok c' ∧
        ((∀ vv, r ≠ .vol vv) → ∀ name, c'.HasVol name ↔ c.HasVol name)) ∨
    (∃ name ∈ r.partitionVol, ¬ c.HasVol name) ∧
      c.handleApply json (snapshotCmd json r) = .error .volNotFound := by
  cases hr : r.partitionVol with
  | none =>
    obtain ⟨c', hc', hvols⟩ := c.handleApply_other json hr
    refine .inl ⟨nofun, c', hc', fun hne name => ?_⟩
    rw [HasVol, hvols hne, HasVol]
  | some name =>
    obtain ⟨f, hf⟩ := handleApply_partition json hr
    by_cases hvol : c.HasVol name
    · obtain ⟨vol, hget⟩ := isSome_iff_exists.mp hvol
      rw [getVol, hget] at hf
      refine .inl ⟨fun n hn => ?_, _, hf, fun _ n => hasVol_setVol hvol n⟩
      rwa [← some.inj hn]
    · rw [getVol, not_isSome_iff_eq_none.mp hvol] at hf
      exact .inr ⟨⟨name, rfl, hvol⟩, hf⟩

end Cluster

theorem Record.key_lt_volKey {name : Text} (h : r.partitionVol = some name) (id : UInt64) :
    r.key < volKey id := by
  cases r with
  | dataPartition dpv | metaPartition mpv =>
    refine cons_lt_cons_iff.mpr (.inr ⟨rfl, cons_lt_cons_iff.mpr (.inl ?_)⟩)
    decide
  | _ => cases h

namespace Server

def VolsKnown (c : Cluster) (l : List (Text × V)) : Prop :=
  ∀ r : Record, (r.key, r.value json) ∈ l → ∀ name ∈ r.partitionVol, c.HasVol name

theorem applyData_cons (s : Server V) (x : Text × V) (rest : List V) :
    s.applyData json (MetadataSnapshot.itemData json x :: rest) =
      match s.cluster.handleApply json ⟨setOpType x.1, x.1, x.2⟩ with
      | .error e => ({ s with fsm.store := s.fsm.store.put x.1 x.2 }, some e)
      | .ok c => applyData json ⟨{ s.fsm with store := s.fsm.store.put x.1 x.2 }, c⟩ rest := by
  simp only [applyData, MetadataSnapshot.itemData, Coding.unmarshal_marshal]

variable {c : Cluster} {l : List (Text × V)}

theorem VolsKnown.congr {c' : Cluster} (h : ∀ name, c'.HasVol name ↔ c.HasVol name) :
    VolsKnown json c' l ↔ VolsKnown json c l := by
  unfold VolsKnown
  simp only [h]

theorem volsKnown_after_vol {vv : VolValue} (h : ∀ y ∈ l, volKey vv.id < y.1) :
    VolsKnown json c l := by
  intro r hr name hname
  have hlt := h _ hr
  exact absurd hlt (not_lt_of_gt (r.key_lt_volKey hname vv.id))

theorem volsKnown_cons (hknown : ∀ name ∈ r.partitionVol, c.HasVol name) :
    VolsKnown json c ((r.key, r.value json) :: l) ↔ VolsKnown json c l := by
  refine ⟨fun h r' hr' => h r' (mem_cons_of_mem _ hr'), fun h r' hr' name hname => ?_⟩
  obtain heq | hr' := mem_cons.mp hr'
  · -- a record with the same key and value is applied in the same way
    obtain ⟨hkey, hvalue⟩ := Prod.mk.inj heq
    have hcmd : Cluster.snapshotCmd json r' = Cluster.snapshotCmd json r := by
      rw [Cluster.snapshotCmd, Cluster.snapshotCmd, hkey, hvalue]
    obtain ⟨hok, -⟩ | ⟨-, herr⟩ := c.handleApply_record json r'
    · exact hok name hname
    · obtain ⟨-, c', hc', -⟩ | ⟨⟨n, hn, hno⟩, -⟩ := c.handleApply_record json r
      · rw [hcmd, hc'] at herr
        cases herr
      · exact absurd (hknown n hn) hno
  · exact h r' hr' name hname

theorem applyData_eq_none_iff (hl : l.Pairwise fun a b => a.1 < b.1)
    (hstored : ∀ x ∈ l, Stored json x) (s : Server V) :
    (s.applyData json (l.map (MetadataSnapshot.itemData json))).2 = none ↔
      VolsKnown json s.cluster l := by
  induction l generalizing s with
  | nil => exact iff_of_true rfl fun _ h => nomatch h
  | cons x l ih =>
    obtain ⟨hx, hsorted⟩ := pairwise_cons.mp hl
    have hrest := fun y hy => hstored y (mem_cons_of_mem _ hy)
    rw [map_cons, applyData_cons]
    obtain ⟨r, rfl⟩ | ⟨n, rfl⟩ := hstored x mem_cons_self
    · have hcmd : Cluster.snapshotCmd json r = ⟨setOpType r.key, r.key, r.value json⟩ := rfl
      rw [← hcmd]
      obtain ⟨hknown, c, hc, hsame⟩ | ⟨⟨name, hname, hno⟩, herr⟩ :=
        s.cluster.handleApply_record json r
      · rw [hc, volsKnown_cons json hknown]
        refine (ih hsorted hrest _).trans ?_
        by_cases hv : ∀ vv, r ≠ .vol vv
        · exact VolsKnown.congr json (hsame hv)
        push Not at hv
        obtain ⟨vv, rfl⟩ := hv
        exact iff_of_true (volsKnown_after_vol json hx) (volsKnown_after_vol json hx)
      · rw [herr]
        exact iff_of_false (nomatch ·) fun h => hno (h r mem_cons_self name hname)
    · have hop : setOpType applied = .unset := by decide
      rw [hop]
      refine (ih hsorted hrest _).trans
        ⟨fun h r hr => ?_, fun h r hr => h r (mem_cons_of_mem _ hr)⟩
      obtain heq | hr := mem_cons.mp hr
      · exact absurd (Prod.mk.inj heq).1 r.key_ne_applied
      · exact h r hr

variable {s : Server V}

theorem applyData_fsm (h : (s.applyData json (l.map (MetadataSnapshot.itemData json))).2 = none) :
    (s.applyData json (l.map (MetadataSnapshot.itemData json))).1.fsm =
      { s.fsm with store := s.fsm.store.puts l } := by
  induction l generalizing s with
  | nil => rfl
  | cons x l ih =>
    rw [map_cons, applyData_cons] at h ⊢
    cases hc : s.cluster.handleApply json ⟨setOpType x.1, x.1, x.2⟩ with
    | error e =>
      rw [hc] at h
      cases h
    | ok c =>
      rw [hc] at h
      exact ih h

theorem value_of_unset (h : setOpType r.key = .unset) :
    ∃ n, r.value json = json.uint.marshal n := by
  rw [r.setOpType_key] at h
  cases r with
  | maxDataPartitionID id | maxMetaPartitionID id | maxCommonID id => exact ⟨id, rfl⟩
  | _ => cases h

theorem storedUint_of_stored {store : KeyStore Text V}
    (h : ∀ k v, store.get k = some v → Stored json (k, v)) {k : Text} (hk : setOpType k = .unset) :
    ∃ n, storedUint json store k = .ok n := by
  unfold storedUint
  cases hget : store.get k with
  | none => exact ⟨0, rfl⟩
  | some v =>
    have hv : ∃ n, v = json.uint.marshal n := by
      obtain ⟨r, hr⟩ | ⟨n, hn⟩ := h k v hget
      · obtain ⟨hkey, hvalue⟩ := Prod.mk.inj hr
        obtain ⟨n, hn⟩ := value_of_unset json (hkey ▸ hk)
        exact ⟨n, hvalue.trans hn⟩
      · exact ⟨n, (Prod.mk.inj hn).2⟩
    obtain ⟨n, rfl⟩ := hv
    exact ⟨n, by simp [Cluster.parseUint]⟩

theorem restoreIDAlloc_of_stored (h : ∀ k v, s.fsm.store.get k = some v → Stored json (k, v)) :
    ∃ ids, s.restoreIDAlloc json = .ok { s with cluster := { s.cluster with idAlloc := ids } } := by
  obtain ⟨dp, hdp⟩ := storedUint_of_stored json h
    (by decide : setOpType maxDataPartitionIDKey = .unset)
  obtain ⟨mp, hmp⟩ := storedUint_of_stored json h
    (by decide : setOpType maxMetaPartitionIDKey = .unset)
  obtain ⟨cm, hcm⟩ := storedUint_of_stored json h (by decide : setOpType maxCommonIDKey = .unset)
  refine ⟨⟨dp, mp, cm⟩, ?_⟩
  rw [restoreIDAlloc, hdp, hmp, hcm]
  rfl

theorem restoreFsm_of_index {index : UInt64} (h : storedUint json s.fsm.store applied = .ok index) :
    s.restoreFsm json = .ok { s with fsm := { s.fsm with applied := index } } := by
  rw [restoreFsm, h]
  rfl

theorem handleApplySnapshot_of_recorded {mf : MetadataFsm V} (hmf : mf.Recorded json)
    (hstore : s.fsm.store = mf.store) :
    ∃ s', s.handleApplySnapshot json = .ok s' ∧ s'.fsm = mf := by
  obtain ⟨ids, hids⟩ := restoreIDAlloc_of_stored json
    (s := { s with fsm := { s.fsm with applied := mf.applied } }) (hstore ▸ hmf.stored)
  have hrun : s.handleApplySnapshot json =
      .ok ⟨{ s.fsm with applied := mf.applied }, { s.cluster with idAlloc := ids }⟩ := by
    rw [handleApplySnapshot, restoreFsm_of_index json (hstore ▸ hmf.index)]
    exact hids
  refine ⟨_, hrun, ?_⟩
  cases mf
  simp only [hstore]

theorem handleApplySnapshot_store {s' : Server V} (h : s.handleApplySnapshot json = .ok s') :
    s'.fsm.store = s.fsm.store := by
  obtain ⟨s₁, hs₁, h⟩ := Bytes.bind_eq_ok h
  obtain ⟨index, -, hs₁⟩ := Bytes.bind_eq_ok hs₁
  obtain ⟨dp, -, h⟩ := Bytes.bind_eq_ok h
  obtain ⟨mp, -, h⟩ := Bytes.bind_eq_ok h
  obtain ⟨cm, -, h⟩ := Bytes.bind_eq_ok h
  rw [← Except.ok.inj h, ← Except.ok.inj hs₁]

end Server

namespace MetadataFsm

/-- A snapshot of the leader is taken over as it is by the followers that already have, in memory,
every volume with a partition, and have no key in the store that the leader lacks. -/
theorem snapshot_transfers_iff {leader : MetadataFsm V}
    (h : Reach (step json) (fun _ _ => True) new leader) (follower : Server V) :
    ((follower.applySnapshot json (leader.snapshot.stream json)).2 = none ∧
      (follower.applySnapshot json (leader.snapshot.stream json)).1.fsm.store = leader.store ∧
      (follower.applySnapshot json (leader.snapshot.stream json)).1.fsm.applied =
        leader.snapshot.applied) ↔
    (∀ r : Record, leader.store.get r.key = some (r.value json) → ∀ name ∈ r.partitionVol,
      follower.cluster.HasVol name) ∧
    ∀ k, leader.store.get k = none → follower.fsm.store.get k = none := by
  have hrec := recorded_of_reach h
  have hknown : Server.VolsKnown json follower.cluster leader.store.items ↔
      ∀ r : Record, leader.store.get r.key = some (r.value json) → ∀ name ∈ r.partitionVol,
        follower.cluster.HasVol name := by
    unfold Server.VolsKnown
    simp only [mem_items]
  have hloop := Server.applyData_eq_none_iff json leader.store.sorted
    (fun x hx => hrec.stored x.1 x.2 (mem_items.mp hx)) follower
  rw [← hknown, ← hloop, ← puts_items_eq_iff, MetadataSnapshot.stream,
    MetadataSnapshot.nexts_eq json _ _ (Nat.lt_succ_self _)]
  have hfsm := Server.applyData_fsm json (s := follower) (l := leader.store.items)
  have hdata : leader.snapshot.iterator = leader.store.items := rfl
  rw [hdata, Server.applySnapshot]
  generalize hrun : follower.applyData json (leader.store.items.map _) = run at hfsm
  obtain ⟨s, err⟩ := run
  cases err with
  | some e => exact iff_of_false (fun h => nomatch h.1) fun h => nomatch h.1
  | none =>
    have hstore : s.fsm.store = follower.fsm.store.puts leader.store.items := by
      rw [hfsm rfl]
    refine ⟨fun ⟨hok, hsame, _⟩ => ⟨rfl, ?_⟩, fun ⟨_, hsame⟩ => ?_⟩
    · simp only at hok hsame
      cases hh : s.handleApplySnapshot json with
      | error e => rw [hh] at hok; cases hok
      | ok s' =>
        rw [hh] at hsame
        rw [← hstore, ← Server.handleApplySnapshot_store json hh]
        exact hsame
    · obtain ⟨s', hh, heq⟩ := Server.handleApplySnapshot_of_recorded json hrec (hstore.trans hsame)
      simp only [hh]
      exact ⟨trivial, congrArg MetadataFsm.store heq, congrArg MetadataFsm.applied heq⟩

/-! A leader with one volume and one data partition in it. -/

def sampleVol : VolValue :=
  { id := 1, name := "vol".toList, replicaNum := 3, status := normal, dataPartitionSize := GB,
    capacity := 10, owner := "owner".toList }

def samplePartition : DataPartitionValue :=
  { partitionID := 1, replicaNum := 3, hosts := "a_b_c".toList, peers := [], status := readWrite,
    volID := 1, volName := "vol".toList, replicas := [] }

def sampleEntries : List Entry :=
  [⟨.addVol, .vol sampleVol, 1⟩, ⟨.allocDataPartitionID, .maxDataPartitionID 1, 2⟩,
    ⟨.addDataPartition, .dataPartition samplePartition, 3⟩]

def sampleCluster (vols : Map Text Vol) : Cluster :=
  { name := "c".toList, metaNodeThreshold := 0, nodeSetCapacity := 18, disableAutoAllocate := false,
    vols := vols, dataNodes := ∅, metaNodes := ∅, nodeSets := ∅, idAlloc := ⟨0, 0, 0⟩ }

def emptyFollower : Server Plain := ⟨MetadataFsm.new, sampleCluster ∅⟩

def olderFollower : Server Plain :=
  ⟨⟨KeyStore.put .empty (volKey 1) (plain.vol.marshal sampleVol), 1⟩,
    sampleCluster (AList.singleton "vol".toList (newVol 1 "vol".toList [] GB 10))⟩

def volsListed (c : Cluster) (l : List (Text × Plain)) : Bool :=
  l.all fun x => match x.2 with
    | .dataPartition dpv => (c.vols.lookup dpv.volName).isSome
    | .metaPartition mpv => (c.vols.lookup mpv.volName).isSome
    | _ => true

theorem volsKnown_of_volsListed {c : Cluster} {l : List (Text × Plain)}
    (h : volsListed c l = true) : Server.VolsKnown plain c l := by
  intro r hr name hname
  have hx := all_eq_true.mp h _ hr
  cases r with
  | dataPartition dpv | metaPartition mpv => rw [← some.inj hname]; exact hx
  | _ => cases hname

theorem snapshot_transfers_older : ∃ leader : MetadataFsm Plain,
    Reach (step plain) (fun _ _ => True) new leader ∧
      (olderFollower.applySnapshot plain (leader.snapshot.stream plain)).1.fsm.store =
        leader.store := by
  obtain ⟨leader, hreach, h⟩ := Reach.exists_checked (step plain) (fun _ _ => True) new
    sampleEntries
    (fun leader => volsListed olderFollower.cluster leader.store.items &&
      olderFollower.fsm.store.items.all fun x => (leader.store.get x.1).isSome) (by decide +kernel)
  obtain ⟨hvols, hkeys⟩ := Bool.and_eq_true_iff.mp h
  refine ⟨leader, hreach, ((snapshot_transfers_iff plain hreach olderFollower).mpr ⟨?_, ?_⟩).2.1⟩
  · intro r hr
    exact volsKnown_of_volsListed hvols r (mem_items.mpr hr)
  · intro k hk
    by_contra hne
    obtain ⟨v, hv⟩ := ne_none_iff_exists'.mp hne
    have hsome := all_eq_true.mp hkeys _ (mem_items.mpr hv)
    rw [hk] at hsome
    exact absurd hsome (by decide)

/-- A new follower refuses the partition, whose key comes before that of its volume; and a follower
keeps the key of a volume that the leader has deleted. -/
theorem snapshot_refused_or_stale :
    (∃ leader : MetadataFsm Plain, Reach (step plain) (fun _ _ => True) new leader ∧
      (emptyFollower.applySnapshot plain (leader.snapshot.stream plain)).2 = some .volNotFound) ∧
    ∃ leader : MetadataFsm Plain, Reach (step plain) (fun _ _ => True) new leader ∧
      (olderFollower.applySnapshot plain (leader.snapshot.stream plain)).2 = none ∧
      leader.store.get (volKey 1) = none ∧
      (olderFollower.applySnapshot plain (leader.snapshot.stream plain)).1.fsm.store.get
        (volKey 1) = some (plain.vol.marshal sampleVol) := by
  constructor
  · obtain ⟨leader, hreach, h⟩ := Reach.exists_checked (step plain) (fun _ _ => True) new
      sampleEntries (fun leader => decide
        ((emptyFollower.applySnapshot plain (leader.snapshot.stream plain)).2 = some .volNotFound))
      (by decide +kernel)
    exact ⟨leader, hreach, of_decide_eq_true h⟩
  · obtain ⟨leader, hreach, h⟩ := Reach.exists_checked (step plain) (fun _ _ => True) new
      [⟨.addVol, .vol sampleVol, 1⟩, ⟨.deleteVol, .vol sampleVol, 2⟩] (fun leader => decide
        ((olderFollower.applySnapshot plain (leader.snapshot.stream plain)).2 = none ∧
          leader.store.get (volKey 1) = none ∧
          (olderFollower.applySnapshot plain (leader.snapshot.stream plain)).1.fsm.store.get
            (volKey 1) = some (plain.vol.marshal sampleVol)))
      (by decide +kernel)
    exact ⟨leader, hreach, of_decide_eq_true h⟩

end MetadataFsm
end ChubaoFS.Master
