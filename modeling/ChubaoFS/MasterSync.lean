import ChubaoFS.MasterSnapshot
import ChubaoFS.Base.Maps

namespace ChubaoFS.Master

open Option
open Record (cmd)
open DataPartitionMap (get_put)

variable {V : Type} (json : Codec V) {r' : Record}

inductive CallError
  | volNotExists
  | volAuthKeyNotMatch
  | capacityLess
  | persistenceByRaft
  | noTarget
  | creationFailed
  deriving DecidableEq, Repr

namespace Server

/-- `submit`: a failed submission has no effect on the store. -/
def submit (s : Server V) (cmd : RaftCmd V) (ok : Bool) : Option (Server V) :=
  if ok then some { s with fsm := s.fsm.apply json cmd (s.fsm.applied + 1) } else none

def withVol (s : Server V) (name : Text) (vol : Vol) : Server V :=
  { s with cluster := s.cluster.setVol name vol }

/-- `matchKey` compares the key of the client with a digest of the key of the server. -/
abbrev MatchKey := Text → Text → Bool

def updateVol (matchKey : MatchKey) (s : Server V) (name authKey : Text) (capacity : Int64)
    (ok : Bool) : Server V × Option CallError :=
  match s.cluster.vols.lookup name with
  | none => (s, some .volNotExists)
  | some vol =>
    if matchKey vol.owner authKey = false then (s, some .volAuthKeyNotMatch)
    else if capacity.toUInt64 < vol.capacity then (s, some .capacityLess)
    else
      let vol := { vol with capacity := capacity.toUInt64 }
      match s.submit json (Record.cmd json .updateVol (.vol (newVolValue vol))) ok with
      | none => (s.withVol name vol, some .persistenceByRaft)
      | some s => (s.withVol name vol, none)

def markDeleteVol (matchKey : MatchKey) (s : Server V) (name authKey : Text) (ok : Bool) :
    Server V × Option CallError :=
  match s.cluster.vols.lookup name with
  | none => (s, some .volNotExists)
  | some vol =>
    if matchKey vol.owner authKey = false then (s, some .volAuthKeyNotMatch)
    else
      let vol := { vol with status := markDelete }
      match s.submit json (Record.cmd json .updateVol (.vol (newVolValue vol))) ok with
      | none => (s.withVol name { vol with status := normal }, some .persistenceByRaft)
      | some s => (s.withVol name vol, none)

/-- `syncPutCluster` of a changed cluster, which is put back when the submission fails. -/
def putCluster (s : Server V) (c : Cluster) (ok : Bool) : Server V × Option CallError :=
  match s.submit json (Record.cmd json .putCluster (.cluster (newClusterValue c))) ok with
  | none => (s, some .persistenceByRaft)
  | some s => ({ s with cluster := c }, none)

def setMetaNodeThreshold (s : Server V) (threshold : UInt32) (ok : Bool) :
    Server V × Option CallError :=
  s.putCluster json { s.cluster with metaNodeThreshold := threshold } ok

def setDisableAutoAllocate (s : Server V) (disable : Bool) (ok : Bool) :
    Server V × Option CallError :=
  s.putCluster json { s.cluster with disableAutoAllocate := disable } ok

/-- `syncUpdateMetaPartition` of a changed partition; the fields that the callers change are put
back when the submission fails. -/
def putMetaPartition (s : Server V) (vol : Vol) (name : Text) (mp : MetaPartition) (ok : Bool) :
    Server V × Option CallError :=
  match s.submit json (Record.cmd json .updateMetaPartition
      (.metaPartition (newMetaPartitionValue mp))) ok with
  | none => (s, some .persistenceByRaft)
  | some s => (s.withVol name (vol.addMetaPartition mp), none)

def persistToRocksDB (s : Server V) (name : Text) (partitionID : UInt64) (newHosts : List Text)
    (newPeers : List Peer) (ok : Bool) : Server V × Option CallError :=
  match s.cluster.vols.lookup name with
  | none => (s, none)
  | some vol =>
    match vol.metaPartitions.lookup partitionID with
    | none => (s, none)
    | some mp =>
      s.putMetaPartition json vol name { mp with hosts := newHosts, peers := newPeers } ok

/-! Creating a meta partition. -/

/-- What happens around `createMetaPartition`. -/
structure Creation where
  -- the choice of `chooseTargetMetaHosts`
  targets : Option (List Text × List Peer)
  idSubmitted : Bool
  -- the replicas that `afterCreation` adds, unless a host fails
  created : Option (List MetaReplica)
  addSubmitted : Bool
  deriving Repr

def allocateMetaPartitionID (s : Server V) (ok : Bool) : Option (Server V × UInt64) :=
  let id := s.cluster.idAlloc.metaPartitionID + 1
  (s.submit json (Record.cmd json .allocMetaPartitionID (.maxMetaPartitionID id)) ok).map fun s =>
    ({ s with cluster := { s.cluster with
      idAlloc := { s.cluster.idAlloc with metaPartitionID := id } } }, id)

def createMetaPartition (s : Server V) (volName : Text) (start endId : UInt64) (env : Creation) :
    Server V × Option CallError :=
  match s.cluster.vols.lookup volName with
  | none => (s, some .volNotExists)
  | some vol =>
    match env.targets with
    | none => (s, some .noTarget)
    | some (hosts, peers) =>
      match s.allocateMetaPartitionID json env.idSubmitted with
      | none => (s, some .persistenceByRaft)
      | some (s, id) =>
        match env.created with
        | none => (s, some .creationFailed)
        | some replicas =>
          let mp := { newMetaPartition id start endId vol.mpReplicaNum volName vol.id with
                      hosts := hosts, peers := peers, replicas := replicas, status := readWrite }
          match s.submit json (Record.cmd json .addMetaPartition
              (.metaPartition (newMetaPartitionValue mp))) env.addSubmitted with
          | none => (s, some .persistenceByRaft)
          | some s => (s.withVol volName (vol.addMetaPartition mp), none)

/-- `MetaPartition.updateInodeIDRange`. -/
def updateInodeIDRange (s : Server V) (name : Text) (partitionID endId : UInt64) (ok : Bool)
    (env : Creation) : Server V × Option CallError :=
  match s.cluster.vols.lookup name with
  | none => (s, none)
  | some vol =>
    match vol.metaPartitions.lookup partitionID with
    | none => (s, none)
    | some mp =>
      if endId > defaultMaxMetaPartitionInodeID - defaultMetaPartitionInodeIDStep then (s, none)
      -- without a leader there is no task to update it
      else if mp.hasLeader = false then (s, none)
      else
        match s.putMetaPartition json vol name { mp with endId := endId } ok with
        | (s, some e) => (s, some e)
        | (s, none) =>
          s.createMetaPartition json mp.volName (endId + 1) defaultMaxMetaPartitionInodeID env

/-- `DataPartition.updateForOffline`; when the submission fails the hosts and peers are put
back. -/
def updateForOffline (s : Server V) (name : Text) (partitionID : UInt64)
    (offlineAddr newAddr : Text) (newPeers : List Peer) (ok : Bool) :
    Server V × Option CallError :=
  match s.cluster.vols.lookup name with
  | none => (s, none)
  | some vol =>
    match vol.dataPartitions.get partitionID with
    | none => (s, none)
    | some dp =>
      let newHosts := if offlineAddr ∈ dp.hosts then dp.hosts.erase offlineAddr else []
      let dp := { dp with hosts := newHosts ++ [newAddr], peers := newPeers }
      match s.submit json (Record.cmd json .updateDataPartition
          (.dataPartition (newDataPartitionValue dp))) ok with
      | none => (s, some .persistenceByRaft)
      | some s => (s.withVol name (vol.putDataPartition dp), none)

end Server

/-! Runs. -/

inductive MasterCall
  | updateVol (name authKey : Text) (capacity : Int64) (ok : Bool)
  | markDeleteVol (name authKey : Text) (ok : Bool)
  | setMetaNodeThreshold (threshold : UInt32) (ok : Bool)
  | setDisableAutoAllocate (disable ok : Bool)
  | updateInodeIDRange (name : Text) (partitionID endId : UInt64) (ok : Bool)
      (env : Server.Creation)
  | persistToRocksDB (name : Text) (partitionID : UInt64) (newHosts : List Text)
      (newPeers : List Peer) (ok : Bool)
  | updateForOffline (name : Text) (partitionID : UInt64) (offlineAddr newAddr : Text)
      (newPeers : List Peer) (ok : Bool)

def Server.call (matchKey : Server.MatchKey) (s : Server V) :
    MasterCall → Server V × Option CallError
  | .updateVol name authKey capacity ok => s.updateVol json matchKey name authKey capacity ok
  | .markDeleteVol name authKey ok => s.markDeleteVol json matchKey name authKey ok
  | .setMetaNodeThreshold threshold ok => s.setMetaNodeThreshold json threshold ok
  | .setDisableAutoAllocate disable ok => s.setDisableAutoAllocate json disable ok
  | .updateInodeIDRange name id endId ok env => s.updateInodeIDRange json name id endId ok env
  | .persistToRocksDB name id hosts peers ok => s.persistToRocksDB json name id hosts peers ok
  | .updateForOffline name id offlineAddr newAddr peers ok =>
    s.updateForOffline json name id offlineAddr newAddr peers ok

def Server.callStep (matchKey : Server.MatchKey) (s : Server V) (call : MasterCall) :
    Option (Server V) :=
  some (s.call json matchKey call).1

/-! What the memory stands for in the store. -/

inductive Vol.Persists (vol : Vol) : Record → Prop
  | vol : Persists vol (.vol (newVolValue vol))
  | metaPartition {id : UInt64} {mp : MetaPartition} (h : vol.metaPartitions.lookup id = some mp) :
      Persists vol (.metaPartition (newMetaPartitionValue mp))
  | dataPartition {id : UInt64} {dp : DataPartition} (h : vol.dataPartitions.get id = some dp) :
      Persists vol (.dataPartition (newDataPartitionValue dp))

structure Vol.WellFormed (vol : Vol) : Prop where
  metaPartition : ∀ id mp, vol.metaPartitions.lookup id = some mp →
    mp.partitionID = id ∧ mp.volID = vol.id
  dataPartition : ∀ id dp, vol.dataPartitions.get id = some dp → dp.volID = vol.id

structure Cluster.WellFormed (c : Cluster) : Prop where
  vols : ∀ name vol, c.vols.lookup name = some vol → vol.WellFormed
  ids : ∀ name vol name' vol', c.vols.lookup name = some vol → c.vols.lookup name' = some vol' →
    vol.id = vol'.id → name = name'

/-- The persisted fields in memory are the values of the store. Until it is first written, the
record of the cluster stands for the configuration. -/
structure Server.Synced (config : ClusterValue) (s : Server V) : Prop where
  vols : ∀ name vol, s.cluster.vols.lookup name = some vol → ∀ r, vol.Persists r →
    s.fsm.store.get r.key = some (r.value json)
  cluster : (s.fsm.store.get (clusterKey s.cluster.name)).getD (json.cluster.marshal config) =
    json.cluster.marshal (newClusterValue s.cluster)

namespace Record

def volID : Record → Option UInt64
  | vol vv => some vv.id
  | metaPartition mpv => some mpv.volID
  | dataPartition dpv => some dpv.volID
  | _ => none

variable {r : Record}

theorem key_ne_of_op (h : r.snapshotOp ≠ r'.snapshotOp) : r.key ≠ r'.key := by
  intro hkey
  rw [← setOpType_key, ← setOpType_key, hkey] at h
  exact h rfl

variable {v v' : UInt64}

theorem metaPartitionKey_inj {p p' : UInt64} (h : metaPartitionKey v p = metaPartitionKey v' p') :
    v = v' ∧ p = p' := by
  obtain ⟨hv, hp⟩ := formatUint_append_inj (List.append_cancel_left h)
  exact ⟨hv, formatUint_inj hp⟩

theorem dataPartitionKey_inj {p p' : UInt64} (h : dataPartitionKey v p = dataPartitionKey v' p') :
    v = v' ∧ p = p' := by
  obtain ⟨hv, hp⟩ := formatUint_append_inj (List.append_cancel_left h)
  exact ⟨hv, formatUint_inj hp⟩

theorem key_ne_of_volID (hr : r.volID = some v) (hr' : r'.volID = some v') (hne : v ≠ v') :
    r.key ≠ r'.key := by
  intro hkey
  have hop : r.snapshotOp = r'.snapshotOp := by rw [← setOpType_key, ← setOpType_key, hkey]
  cases r with
  | vol vv =>
    cases r' with
    | vol vv' =>
      cases hr
      cases hr'
      exact hne (formatUint_inj (List.append_cancel_left hkey))
    | _ => cases hop
  | metaPartition mpv =>
    cases r' with
    | metaPartition mpv' =>
      cases hr
      cases hr'
      exact hne (metaPartitionKey_inj hkey).1
    | _ => cases hop
  | dataPartition dpv =>
    cases r' with
    | dataPartition dpv' =>
      cases hr
      cases hr'
      exact hne (dataPartitionKey_inj hkey).1
    | _ => cases hop
  | _ => cases hr

theorem clusterKey_ne_key (name : Text) (hr : r.volID = some v) : clusterKey name ≠ r.key := by
  refine key_ne_of_op (r := .cluster ⟨name, 0, false⟩) ?_
  cases r with
  | vol vv | metaPartition mpv | dataPartition dpv => exact (nomatch ·)
  | _ => cases hr

end Record

variable {vol : Vol} {mp : MetaPartition} {id : UInt64} {vol' : Vol} {newPeers : List Peer}
  {dp : DataPartition} {env : Creation} {authKey : Text} {c : Cluster} {r : Record} {ok : Bool}
  {op : Op} {endId : UInt64}

theorem Vol.Persists.volID (h : vol.Persists r) (hw : vol.WellFormed) : r.volID = some vol.id := by
  cases h with
  | vol => rfl
  | metaPartition h => exact congrArg some (hw.metaPartition _ _ h).2
  | dataPartition h => exact congrArg some (hw.dataPartition _ _ h)

/-! Changing one volume. -/

theorem lookup_setVol (c : Cluster) (name : Text) (vol : Vol) (n : Text) :
    (c.setVol name vol).vols.lookup n = if n = name then some vol else c.vols.lookup n :=
  Maps.lookup_insert ..

theorem Cluster.WellFormed.setVol {name : Text} (hw : c.WellFormed)
    (hvol : c.vols.lookup name = some vol) (hid : vol'.id = vol.id) (hvol' : vol'.WellFormed) :
    (c.setVol name vol').WellFormed := by
  constructor
  · intro n v hv
    rw [lookup_setVol] at hv
    split at hv
    · cases hv
      exact hvol'
    · exact hw.vols n v hv
  · -- the changed volume keeps its id, so its old state stands for it
    have hold : ∀ n v, (c.setVol name vol').vols.lookup n = some v →
        ∃ v₀, c.vols.lookup n = some v₀ ∧ v₀.id = v.id := by
      intro n v hv
      rw [lookup_setVol] at hv
      split at hv
      next hn =>
        cases hv
        exact ⟨vol, by rw [hn, hvol], hid.symm⟩
      · exact ⟨v, hv, rfl⟩
    intro n v n' v' hv hv' heq
    obtain ⟨v₀, hv₀, hid₀⟩ := hold n v hv
    obtain ⟨v₁, hv₁, hid₁⟩ := hold n' v' hv'
    exact hw.ids n v₀ n' v₁ hv₀ hv₁ (by rw [hid₀, hid₁, heq])

theorem Vol.WellFormed.addMetaPartition (hw : vol.WellFormed) (hmp : mp.volID = vol.id) :
    (vol.addMetaPartition mp).WellFormed := by
  refine ⟨fun id mp' h => ?_, hw.dataPartition⟩
  simp only [Vol.addMetaPartition, Maps.lookup_insert] at h
  split at h
  next hid =>
    cases h
    exact ⟨hid.symm, hmp⟩
  · exact hw.metaPartition id mp' h

theorem Vol.WellFormed.putDataPartition (hw : vol.WellFormed) (hdp : dp.volID = vol.id) :
    (vol.putDataPartition dp).WellFormed := by
  refine ⟨hw.metaPartition, fun id dp' h => ?_⟩
  simp only [Vol.putDataPartition, get_put] at h
  split at h
  · cases h
    exact hdp
  · exact hw.dataPartition id dp' h

/-- What a change of a volume may do to its records: `r` is new, and the others keep their
keys. -/
def Vol.Rewrites (vol vol' : Vol) (r : Record) : Prop :=
  ∀ r', vol'.Persists r' → r' = r ∨ (vol.Persists r' ∧ r'.key ≠ r.key)

theorem Vol.rewrites_vol (hmp : vol'.metaPartitions = vol.metaPartitions)
    (hdp : vol'.dataPartitions = vol.dataPartitions) :
    vol.Rewrites vol' (.vol (newVolValue vol')) := by
  intro r' h
  cases h with
  | vol => exact .inl rfl
  | metaPartition h =>
    exact .inr ⟨.metaPartition (hmp ▸ h), Record.key_ne_of_op (nomatch ·)⟩
  | dataPartition h =>
    exact .inr ⟨.dataPartition (hdp ▸ h), Record.key_ne_of_op (nomatch ·)⟩

theorem Vol.rewrites_addMetaPartition (mp : MetaPartition) (hw : vol.WellFormed) :
    vol.Rewrites (vol.addMetaPartition mp) (.metaPartition (newMetaPartitionValue mp)) := by
  intro r' h
  cases h with
  | vol => exact .inr ⟨.vol, Record.key_ne_of_op (nomatch ·)⟩
  | @metaPartition id mp' h =>
    simp only [Vol.addMetaPartition, Maps.lookup_insert] at h
    split at h
    · cases h
      exact .inl rfl
    next hne =>
      refine .inr ⟨.metaPartition h, fun hkey => hne ?_⟩
      rw [← (hw.metaPartition id mp' h).1]
      exact (Record.metaPartitionKey_inj hkey).2
  | dataPartition h => exact .inr ⟨.dataPartition h, Record.key_ne_of_op (nomatch ·)⟩

theorem Vol.rewrites_putDataPartition (vol : Vol) (dp : DataPartition) :
    vol.Rewrites (vol.putDataPartition dp) (.dataPartition (newDataPartitionValue dp)) := by
  intro r' h
  cases h with
  | vol => exact .inr ⟨.vol, Record.key_ne_of_op (nomatch ·)⟩
  | metaPartition h => exact .inr ⟨.metaPartition h, Record.key_ne_of_op (nomatch ·)⟩
  | @dataPartition id dp' h =>
    simp only [Vol.putDataPartition, get_put] at h
    split at h
    · cases h
      exact .inl rfl
    rename_i hne
    have hid : dp'.partitionID = id := by simpa using List.find?_some h
    refine .inr ⟨.dataPartition h, fun hkey => hne ?_⟩
    rw [← hid]
    exact (Record.dataPartitionKey_inj hkey).2

namespace Server

variable {json} {config : ClusterValue} {s s' : Server V}

/-! Submissions. -/

variable {ok : Bool}

theorem submit_some {cmd : RaftCmd V} (h : s.submit json cmd ok = some s') :
    s' = { s with fsm := s.fsm.apply json cmd (s.fsm.applied + 1) } :=
  (some.inj (ite_none_right_eq_some.mp h).2).symm

theorem get_apply (mf : MetadataFsm V) (hop : op.isDelete = false) (r : Record) (index : UInt64)
    {k : Text} (hk : k ≠ Master.applied) : (mf.apply json (r.cmd json op) index).store.get k =
      if k = r.key then some (r.value json) else mf.store.get k := by
  have hdel : (r.cmd json op).op.isDelete = false := hop
  simp only [MetadataFsm.apply, hdel, Bool.false_eq_true, if_false, KeyStore.get_put, if_neg hk]
  by_cases hkr : k = r.key
  all_goals simp [hkr, cmd]

theorem clusterKey_ne_applied (name : Text) : clusterKey name ≠ Master.applied :=
  Record.key_ne_applied (.cluster ⟨name, 0, false⟩)

structure Good (json : Codec V) (config : ClusterValue) (s : Server V) : Prop where
  synced : s.Synced json config
  wf : s.cluster.WellFormed

variable {name : Text} {vol : Vol}

section

variable (h : s.Good json config)
include h

theorem Good.submit_withVol (hs : s.submit json (r.cmd json op) ok = some s')
    (hop : op.isDelete = false) (hvol : s.cluster.vols.lookup name = some vol)
    (hr : r.volID = some vol.id) (hid : vol'.id = vol.id) (hvol' : vol'.WellFormed)
    (hre : vol.Rewrites vol' r) : (s'.withVol name vol').Good json config := by
  rw [submit_some hs]
  refine ⟨⟨?_, ?_⟩, h.wf.setVol hvol hid hvol'⟩
  · intro n v hv r' hr'
    change (s.cluster.setVol name vol').vols.lookup n = some v at hv
    change (s.fsm.apply json (r.cmd json op) _).store.get _ = _
    rw [get_apply _ hop _ _ r'.key_ne_applied]
    rw [lookup_setVol] at hv
    split at hv
    · cases hv
      rcases hre r' hr' with rfl | ⟨hold, hne⟩
      · rw [if_pos rfl]
      · rw [if_neg hne]
        exact h.synced.vols name vol hvol r' hold
    next hn =>
      have hne : v.id ≠ vol.id := fun heq => hn (h.wf.ids n v name vol hv hvol heq)
      rw [if_neg (Record.key_ne_of_volID (hr'.volID (h.wf.vols n v hv)) hr hne)]
      exact h.synced.vols n v hv r' hr'
  · change ((s.fsm.apply json (r.cmd json op) _).store.get (clusterKey s.cluster.name)).getD _ = _
    rw [get_apply _ hop _ _ (clusterKey_ne_applied _), if_neg (Record.clusterKey_ne_key _ hr)]
    exact h.synced.cluster

theorem Good.submit_alloc (hs : s.allocateMetaPartitionID json ok = some (s', id)) :
    s'.Good json config ∧ s'.cluster.vols = s.cluster.vols := by
  obtain ⟨t, ht, heq⟩ := map_eq_some_iff.mp hs
  obtain rfl := (Prod.mk.inj heq).1
  rw [submit_some ht]
  refine ⟨⟨⟨?_, ?_⟩, h.wf.1, h.wf.2⟩, rfl⟩
  · intro n v hv r' hr'
    change (s.fsm.apply json (cmd json _ _) _).store.get _ = _
    have hne : r'.key ≠
        (Record.maxMetaPartitionID (s.cluster.idAlloc.metaPartitionID + 1)).key := by
      cases hr' <;> exact Record.key_ne_of_op (nomatch ·)
    rw [get_apply _ rfl _ _ r'.key_ne_applied, if_neg hne]
    exact h.synced.vols n v hv r' hr'
  · change ((s.fsm.apply json (cmd json _ _) _).store.get (clusterKey s.cluster.name)).getD _
      = _
    have hne : clusterKey s.cluster.name ≠
        (Record.maxMetaPartitionID (s.cluster.idAlloc.metaPartitionID + 1)).key :=
      Record.key_ne_of_op (r := .cluster ⟨s.cluster.name, 0, false⟩) (nomatch ·)
    rw [get_apply _ rfl _ _ (clusterKey_ne_applied _), if_neg hne]
    exact h.synced.cluster

theorem Good.putCluster (hvols : c.vols = s.cluster.vols) :
    (s.putCluster json c ok).1.Good json config := by
  unfold Server.putCluster
  split
  · exact h
  rename_i s' hs
  rw [submit_some hs]
  refine ⟨⟨?_, ?_⟩, ?_⟩
  · intro n v hv r' hr'
    change (s.fsm.apply json (cmd json _ _) _).store.get _ = _
    have hne : r'.key ≠ (Record.cluster (newClusterValue c)).key := by
      cases hr' <;> exact Record.key_ne_of_op (nomatch ·)
    rw [get_apply _ rfl _ _ r'.key_ne_applied, if_neg hne]
    exact h.synced.vols n v (hvols ▸ hv) r' hr'
  · change ((s.fsm.apply json (cmd json _ _) _).store.get (clusterKey c.name)).getD _ = _
    have hkey : clusterKey c.name = (Record.cluster (newClusterValue c)).key := rfl
    rw [get_apply _ rfl _ _ (clusterKey_ne_applied _), if_pos hkey]
    rfl
  · exact ⟨fun n v hv => h.wf.vols n v (hvols ▸ hv),
      fun n v n' v' hv hv' => h.wf.ids n v n' v' (hvols ▸ hv) (hvols ▸ hv')⟩

theorem Good.withVol_self (hvol : s.cluster.vols.lookup name = some vol) :
    (s.withVol name vol).Good json config := by
  have hlookup : ∀ n, (s.withVol name vol).cluster.vols.lookup n = s.cluster.vols.lookup n := by
    intro n
    rw [withVol, lookup_setVol]
    split
    next hn => rw [hn, hvol]
    · rfl
  refine ⟨⟨?_, h.synced.cluster⟩, ?_, ?_⟩
  · exact fun n v hv => h.synced.vols n v (hlookup n ▸ hv)
  · exact fun n v hv => h.wf.vols n v (hlookup n ▸ hv)
  · exact fun n v n' v' hv hv' => h.wf.ids n v n' v' (hlookup n ▸ hv) (hlookup n' ▸ hv')

end

/-! One call. -/

theorem Good.putMetaPartition (h : s.Good json config)
    (hvol : s.cluster.vols.lookup name = some vol) (hmp : mp.volID = vol.id) :
    (s.putMetaPartition json vol name mp ok).1.Good json config := by
  have hw := h.wf.vols name vol hvol
  unfold Server.putMetaPartition
  split
  · exact h
  next s' hs =>
    exact h.submit_withVol hs rfl hvol (congrArg some hmp) rfl (hw.addMetaPartition hmp)
      (Vol.rewrites_addMetaPartition mp hw)

theorem Good.createMetaPartition {volName : Text} {start : UInt64} (h : s.Good json config) :
    (s.createMetaPartition json volName start endId env).1.Good json config := by
  unfold Server.createMetaPartition
  split
  · exact h
  rename_i vol hvol
  split
  · exact h
  rename_i hosts peers _
  split
  · exact h
  rename_i s₁ id hs₁
  obtain ⟨h₁, hvols⟩ := h.submit_alloc hs₁
  rw [← hvols] at hvol
  have hw := h₁.wf.vols volName vol hvol
  split
  · exact h₁
  rename_i replicas _
  dsimp only
  split
  · exact h₁
  next s₂ hs₂ =>
    exact h₁.submit_withVol hs₂ rfl hvol rfl rfl (hw.addMetaPartition rfl)
      (Vol.rewrites_addMetaPartition _ hw)

variable {partitionID : UInt64} (h : s.Good json config)
include h

theorem Good.updateInodeIDRange :
    (s.updateInodeIDRange json name partitionID endId ok env).1.Good json config := by
  unfold Server.updateInodeIDRange
  split
  · exact h
  rename_i vol hvol
  split
  · exact h
  rename_i mp hmp
  split
  · exact h
  split
  · exact h
  · have hid : mp.volID = vol.id := ((h.wf.vols name vol hvol).metaPartition _ _ hmp).2
    have hput : (s.putMetaPartition json vol name { mp with endId := endId } ok).1.Good
        json config := h.putMetaPartition hvol hid
    split
    next s₁ e hs₁ => rwa [hs₁] at hput
    next s₁ hs₁ =>
      rw [hs₁] at hput
      exact hput.createMetaPartition

theorem Good.persistToRocksDB {newHosts : List Text} :
    (s.persistToRocksDB json name partitionID newHosts newPeers ok).1.Good json config := by
  unfold Server.persistToRocksDB
  split
  · exact h
  rename_i vol hvol
  split
  · exact h
  next mp hmp =>
    exact h.putMetaPartition hvol ((h.wf.vols name vol hvol).metaPartition _ _ hmp).2

theorem Good.updateForOffline {offlineAddr newAddr : Text} :
    (s.updateForOffline json name partitionID offlineAddr newAddr newPeers ok).1.Good json
      config := by
  unfold Server.updateForOffline
  split
  · exact h
  rename_i vol hvol
  have hw := h.wf.vols name vol hvol
  split
  · exact h
  rename_i dp hdp
  have hid := hw.dataPartition _ _ hdp
  dsimp only
  split
  · exact h
  next s' hs =>
    exact h.submit_withVol hs rfl hvol (congrArg some hid) rfl (hw.putDataPartition hid)
      (Vol.rewrites_putDataPartition vol _)

end Server

/-- Where a submission fails, the capacity asked for is not above the volume's, and the volume to
be deleted has not been marked before. -/
def Server.Harmless (matchKey : Server.MatchKey) (s : Server V) : MasterCall → Prop
  | .updateVol name authKey capacity ok =>
    ok = true ∨ ∀ vol ∈ s.cluster.vols.lookup name, matchKey vol.owner authKey = true →
      capacity.toUInt64 ≤ vol.capacity
  | .markDeleteVol name authKey ok =>
    ok = true ∨ ∀ vol ∈ s.cluster.vols.lookup name, matchKey vol.owner authKey = true →
      vol.status = normal
  | _ => True

namespace Server

variable {json} {config : ClusterValue} {s s' : Server V} {matchKey : MatchKey} {name : Text}

section

variable (h : s.Good json config)
include h

theorem Good.updateVol {capacity : Int64}
    (ha : s.Harmless matchKey (.updateVol name authKey capacity ok)) :
    (s.updateVol json matchKey name authKey capacity ok).1.Good json config := by
  unfold Server.updateVol
  split
  · exact h
  rename_i vol hvol
  have hw := h.wf.vols name vol hvol
  split
  · exact h
  rename_i hkey
  split
  · exact h
  rename_i hcap
  dsimp only
  split
  next hs =>
    -- the submission fails, so the capacity is the old one
    have hok : ok ≠ true := fun hok => by simp [submit, hok] at hs
    have hle := (ha.resolve_left hok) vol hvol (by simpa using hkey)
    have hsame : capacity.toUInt64 = vol.capacity := UInt64.le_antisymm hle (UInt64.not_lt.mp hcap)
    rw [hsame]
    exact h.withVol_self hvol
  next s' hs =>
    exact h.submit_withVol hs rfl hvol rfl rfl ⟨hw.1, hw.2⟩ (Vol.rewrites_vol rfl rfl)

theorem Good.markDeleteVol (ha : s.Harmless matchKey (.markDeleteVol name authKey ok)) :
    (s.markDeleteVol json matchKey name authKey ok).1.Good json config := by
  unfold Server.markDeleteVol
  split
  · exact h
  rename_i vol hvol
  have hw := h.wf.vols name vol hvol
  split
  · exact h
  rename_i hkey
  dsimp only
  split
  next hs =>
    have hok : ok ≠ true := fun hok => by simp [submit, hok] at hs
    have hstatus := (ha.resolve_left hok) vol hvol (by simpa using hkey)
    rw [← hstatus]
    exact h.withVol_self hvol
  next s' hs =>
    exact h.submit_withVol hs rfl hvol rfl rfl ⟨hw.1, hw.2⟩ (Vol.rewrites_vol rfl rfl)

theorem Good.call {call : MasterCall} (ha : s.Harmless matchKey call) :
    (s.call json matchKey call).1.Good json config := by
  cases call with
  | updateVol name authKey capacity ok => exact h.updateVol ha
  | markDeleteVol name authKey ok => exact h.markDeleteVol ha
  | setMetaNodeThreshold threshold ok | setDisableAutoAllocate disable ok => exact h.putCluster rfl
  | updateInodeIDRange name id endId ok env => exact h.updateInodeIDRange
  | persistToRocksDB name id hosts peers ok => exact h.persistToRocksDB
  | updateForOffline name id offlineAddr newAddr peers ok => exact h.updateForOffline

end

variable (matchKey) in
/-- After any harmless calls the store has just the records of what the master has in memory. -/
theorem calls_keep_synced {s₀ : Server V} (h₀ : s₀.Synced json config) (hw : s₀.cluster.WellFormed)
    (h : Reach (callStep json matchKey) (Harmless matchKey) s₀ s) : s.Synced json config := by
  have hgood : s.Good json config := by
    refine h.invariant ⟨h₀, hw⟩ ?_
    intro s call s' hs ha hstep
    cases hstep
    exact hs.call ha
  exact hgood.synced

def sampleMetaPartition : MetaPartition :=
  { newMetaPartition 1 0 defaultMaxMetaPartitionInodeID 3 "vol".toList 1 with
    hosts := ["a".toList], replicas := [⟨"a".toList, true, true⟩] }

def sampleDataPartition : DataPartition :=
  { newDataPartition 1 3 "vol".toList 1 with hosts := ["a".toList, "b".toList] }

def sampleVolume : Vol :=
  ((newVol 1 "vol".toList "owner".toList GB 10).addMetaPartition
    sampleMetaPartition).putDataPartition sampleDataPartition

def sampleConfig : ClusterValue := newClusterValue (MetadataFsm.sampleCluster ∅)

def sampleStore : KeyStore Text Plain :=
  ((KeyStore.put .empty (volKey 1) (plain.vol.marshal (newVolValue sampleVolume))).put
    (metaPartitionKey 1 1) (plain.metaPartition.marshal
      (newMetaPartitionValue sampleMetaPartition))).put
    (dataPartitionKey 1 1) (plain.dataPartition.marshal (newDataPartitionValue sampleDataPartition))

def sampleLeader : Server Plain :=
  ⟨⟨sampleStore, 3⟩, (MetadataFsm.sampleCluster ∅).setVol "vol".toList sampleVolume⟩

theorem sampleLeader_lookup {vol : Vol} (h : sampleLeader.cluster.vols.lookup name = some vol) :
    name = "vol".toList ∧ vol = sampleVolume := by
  rw [sampleLeader, lookup_setVol] at h
  split at h
  next hn => exact ⟨hn, (some.inj h).symm⟩
  · cases h

theorem sampleVolume_metaPartition (h : sampleVolume.metaPartitions.lookup id = some mp) :
    id = 1 ∧ mp = sampleMetaPartition := by
  simp only [sampleVolume, Vol.putDataPartition, Vol.addMetaPartition, Maps.lookup_insert] at h
  split at h
  next hid => exact ⟨hid, (some.inj h).symm⟩
  · cases h

theorem sampleVolume_dataPartition (h : sampleVolume.dataPartitions.get id = some dp) :
    dp = sampleDataPartition := by
  simp only [sampleVolume, Vol.putDataPartition, get_put] at h
  split at h
  · exact (some.inj h).symm
  · cases h

theorem sampleLeader_synced : sampleLeader.Synced plain sampleConfig := by
  refine ⟨?_, by decide +kernel⟩
  intro name vol hvol r hr
  obtain ⟨rfl, rfl⟩ := sampleLeader_lookup hvol
  cases hr with
  | vol => decide +kernel
  | metaPartition h =>
    obtain ⟨rfl, rfl⟩ := sampleVolume_metaPartition h
    decide +kernel
  | dataPartition h =>
    obtain rfl := sampleVolume_dataPartition h
    decide +kernel

theorem sampleLeader_wellFormed : sampleLeader.cluster.WellFormed := by
  constructor
  · intro name vol hvol
    obtain ⟨rfl, rfl⟩ := sampleLeader_lookup hvol
    constructor
    · intro id mp h
      obtain ⟨rfl, rfl⟩ := sampleVolume_metaPartition h
      exact ⟨rfl, rfl⟩
    · intro id dp h
      obtain rfl := sampleVolume_dataPartition h
      rfl
  · intro name vol name' vol' hvol hvol' _
    rw [(sampleLeader_lookup hvol).1, (sampleLeader_lookup hvol').1]

/-- An update that is stored and one that is not. -/
theorem calls_keep_synced_sample : ∃ s : Server Plain,
    Reach (callStep plain fun _ _ => true) (Harmless fun _ _ => true) sampleLeader s ∧
      s.Synced plain sampleConfig := by
  have h₁ : Reach (callStep plain fun _ _ => true) (Harmless fun _ _ => true) sampleLeader _ :=
    .next .start (e := .updateVol "vol".toList [] 20 true) (.inl rfl) rfl
  have h₂ : Reach (callStep plain fun _ _ => true) (Harmless fun _ _ => true) sampleLeader _ :=
    .next h₁ (e := .setMetaNodeThreshold 1 false) trivial rfl
  exact ⟨_, h₂, calls_keep_synced _ sampleLeader_synced sampleLeader_wellFormed h₂⟩

def storedAs (s : Server Plain) (name : Text) (vv : VolValue) (p : Vol → Bool) : Bool :=
  (s.cluster.vols.lookup name).any fun vol =>
    decide (s.fsm.store.get (volKey vol.id) = some (plain.vol.marshal vv)) && p vol

theorem not_synced_of_storedAs {s : Server Plain} {vv : VolValue} {p : Vol → Bool}
    (h : storedAs s name vv p = true) (hp : ∀ vol, p vol = true → newVolValue vol ≠ vv) :
    ¬ s.Synced plain config := by
  intro hsynced
  cases hvol : s.cluster.vols.lookup name with
  | none => simp [storedAs, hvol] at h
  | some vol =>
    simp only [storedAs, hvol, any_some, Bool.and_eq_true, decide_eq_true_eq] at h
    have hget : some (plain.vol.marshal vv) = some (plain.vol.marshal (newVolValue vol)) :=
      h.1.symm.trans (hsynced.vols name vol hvol _ .vol)
    exact hp vol h.2 (Plain.vol.inj (some.inj hget)).symm

/-- A capacity that stays in memory only, and a deleted volume that is normal again in memory. -/
theorem calls_leave_volume :
    sampleLeader.Synced plain sampleConfig ∧ sampleLeader.cluster.WellFormed ∧
    (∃ s, Reach (callStep plain fun _ _ => true) (fun _ _ => True) sampleLeader s ∧
      storedAs s "vol".toList (newVolValue sampleVolume) (·.capacity = 20) = true ∧
      ¬ s.Synced plain sampleConfig) ∧
    ∃ s, Reach (callStep plain fun _ _ => true) (fun _ _ => True) sampleLeader s ∧
      storedAs s "vol".toList (newVolValue { sampleVolume with status := markDelete })
        (·.status = normal) = true ∧
      ¬ s.Synced plain sampleConfig := by
  refine ⟨sampleLeader_synced, sampleLeader_wellFormed, ?_, ?_⟩
  · obtain ⟨s, hreach, h⟩ := Reach.exists_checked (callStep plain fun _ _ => true) (fun _ _ => True)
      sampleLeader [.updateVol "vol".toList [] 20 false]
      (fun s => storedAs s "vol".toList (newVolValue sampleVolume) (·.capacity = 20))
      (by decide +kernel)
    refine ⟨s, hreach, h, not_synced_of_storedAs h ?_⟩
    intro vol hvol heq
    have hcap : vol.capacity = 10 := congrArg VolValue.capacity heq
    rw [hcap] at hvol
    exact absurd hvol (by decide)
  · obtain ⟨s, hreach, h⟩ := Reach.exists_checked (callStep plain fun _ _ => true) (fun _ _ => True)
      sampleLeader [.markDeleteVol "vol".toList [] true, .markDeleteVol "vol".toList [] false]
      (fun s => storedAs s "vol".toList (newVolValue { sampleVolume with status := markDelete })
        (·.status = normal))
      (by decide +kernel)
    refine ⟨s, hreach, h, not_synced_of_storedAs h ?_⟩
    intro vol hvol heq
    have hstatus : vol.status = markDelete := congrArg VolValue.status heq
    rw [hstatus] at hvol
    exact absurd hvol (by decide)

end Server
end ChubaoFS.Master
