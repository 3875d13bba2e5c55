import ChubaoFS.MasterRecords
import Mathlib.Data.List.AList

namespace ChubaoFS.Master

open List

/-! Nodes and their sets. -/

structure DataNode where
  id : UInt64
  nodeSetID : UInt64
  addr : Text
  rackName : Text
  isActive : Bool
  availableSpace : UInt64
  deriving DecidableEq, Repr

def newDataNode (addr : Text) : DataNode :=
  { id := 0, nodeSetID := 0, addr := addr, rackName := [], isActive := false, availableSpace := 0 }

def GB : UInt64 := 1073741824

def DataNode.isWriteAble (node : DataNode) : Bool := node.isActive && 10 * GB < node.availableSpace

structure MetaNode where
  id : UInt64
  nodeSetID : UInt64
  addr : Text
  -- what `isWritable` finds
  writable : Bool
  deriving DecidableEq, Repr

def newMetaNode (addr : Text) : MetaNode :=
  { id := 0, nodeSetID := 0, addr := addr, writable := false }

structure NodeSet where
  id : UInt64
  capacity : Int
  metaNodeLen : Int
  dataNodeLen : Int
  deriving DecidableEq, Repr

def newNodeSet (id : UInt64) (capacity : Int) : NodeSet :=
  { id := id, capacity := capacity, metaNodeLen := 0, dataNodeLen := 0 }

/-! Partitions. -/

structure MetaReplica where
  addr : Text
  isLeader : Bool
  -- what `isActive` finds
  active : Bool
  deriving DecidableEq, Repr

structure MetaPartition where
  partitionID : UInt64
  start : UInt64
  endId : UInt64
  maxNodeID : UInt64
  replicas : List MetaReplica
  replicaNum : UInt8
  status : Int8
  volID : UInt64
  volName : Text
  hosts : List Text
  peers : List Peer
  deriving DecidableEq, Repr

-- proto.ReadOnly, proto.ReadWrite, proto.Unavailable
def readOnly : Int8 := 1
def readWrite : Int8 := 2
def unavailable : Int8 := -1

def newMetaPartition (partitionID start endId : UInt64) (replicaNum : UInt8) (volName : Text)
    (volID : UInt64) : MetaPartition :=
  { partitionID := partitionID, start := start, endId := endId, maxNodeID := 0, replicas := [],
    replicaNum := replicaNum, status := unavailable, volID := volID, volName := volName,
    hosts := [], peers := [] }

-- 1<<63 - 1 and 1 << 24
def defaultMaxMetaPartitionInodeID : UInt64 := 9223372036854775807
def defaultMetaPartitionInodeIDStep : UInt64 := 16777216

/-- What `getMetaReplicaLeader` finds. -/
def MetaPartition.hasLeader (mp : MetaPartition) : Bool := mp.replicas.any (·.isLeader)

structure DataReplica where
  addr : Text
  diskPath : Text
  isLeader : Bool
  -- what `isLive` finds
  live : Bool
  deriving DecidableEq, Repr

structure DataPartition where
  partitionID : UInt64
  replicaNum : UInt8
  hosts : List Text
  peers : List Peer
  replicas : List DataReplica
  status : Int8
  volID : UInt64
  volName : Text
  deriving DecidableEq, Repr

def newDataPartition (id : UInt64) (replicaNum : UInt8) (volName : Text) (volID : UInt64) :
    DataPartition :=
  { partitionID := id, replicaNum := replicaNum, hosts := [], peers := [], replicas := [],
    status := readOnly, volID := volID, volName := volName }

def hostsToString (hosts : List Text) : Text := [underlineSeparator].intercalate hosts

def splitHosts (hosts : Text) : List Text := hosts.splitOn underlineSeparator

def newMetaPartitionValue (mp : MetaPartition) : MetaPartitionValue :=
  { partitionID := mp.partitionID, start := mp.start, endId := mp.endId, volID := mp.volID,
    replicaNum := mp.replicaNum, status := mp.status, volName := mp.volName,
    hosts := hostsToString mp.hosts, peers := mp.peers }

def newDataPartitionValue (dp : DataPartition) : DataPartitionValue :=
  { partitionID := dp.partitionID, replicaNum := dp.replicaNum, hosts := hostsToString dp.hosts,
    peers := dp.peers, status := dp.status, volID := dp.volID, volName := dp.volName,
    replicas := dp.replicas.map fun r => ⟨r.addr, r.diskPath⟩ }

/-- `DataPartitionMap`: the partitions of a volume in the order in which they came, one for each
id. -/
structure DataPartitionMap where
  partitions : List DataPartition
  distinct : (partitions.map DataPartition.partitionID).Nodup
  deriving DecidableEq

namespace DataPartitionMap

def empty : DataPartitionMap := ⟨[], List.nodup_nil⟩

def get (m : DataPartitionMap) (id : UInt64) : Option DataPartition :=
  m.partitions.find? fun dp => dp.partitionID = id

def replace (dp : DataPartition) (l : List DataPartition) : List DataPartition :=
  l.map fun p => if p.partitionID = dp.partitionID then dp else p

theorem map_partitionID_replace (dp : DataPartition) (l : List DataPartition) :
    (replace dp l).map DataPartition.partitionID = l.map DataPartition.partitionID := by
  unfold replace
  rw [map_map]
  apply map_congr_left
  intro p _
  by_cases h : p.partitionID = dp.partitionID
  · simp [h]
  · simp [h]

theorem distinct_append {l : List DataPartition} {dp : DataPartition}
    (h : (l.map DataPartition.partitionID).Nodup) (hnew : ∀ p ∈ l, p.partitionID ≠ dp.partitionID) :
    ((l ++ [dp]).map DataPartition.partitionID).Nodup := by
  rw [map_append, map_singleton]
  apply nodup_append.mpr
  refine ⟨h, nodup_singleton _, ?_⟩
  intro a ha b hb
  obtain ⟨p, hp, rfl⟩ := mem_map.mp ha
  rw [mem_singleton.mp hb]
  exact hnew p hp

/-- `put`: replace the partition of the id, or append. -/
def put (m : DataPartitionMap) (dp : DataPartition) : DataPartitionMap :=
  if h : ∀ p ∈ m.partitions, p.partitionID ≠ dp.partitionID then
    ⟨m.partitions ++ [dp], distinct_append m.distinct h⟩
  else
    ⟨replace dp m.partitions, by rw [map_partitionID_replace]; exact m.distinct⟩

theorem get_put (m : DataPartitionMap) (dp : DataPartition) (id : UInt64) :
    (m.put dp).get id = if id = dp.partitionID then some dp else m.get id := by
  unfold put get
  split
  next h =>
    rw [find?_append]
    by_cases hid : id = dp.partitionID
    · have hnone : m.partitions.find? (fun p => decide (p.partitionID = id)) = none :=
        find?_eq_none.mpr fun p hp => by simpa [hid] using h p hp
      rw [hnone, if_pos hid]
      simp [hid]
    · have hdp : dp.partitionID ≠ id := Ne.symm hid
      simp [hid, hdp]
  rename_i h
  push Not at h
  obtain ⟨p, hp, hpid⟩ := h
  simp only [replace, find?_map]
  by_cases hid : id = dp.partitionID
  · rw [if_pos hid]
    have hfound : (m.partitions.find? ((fun q => decide (q.partitionID = id)) ∘
        fun q => if q.partitionID = dp.partitionID then dp else q)).isSome = true := by
      apply find?_isSome.mpr
      exact ⟨p, hp, by simp [hpid, hid]⟩
    obtain ⟨q, hq⟩ := Option.isSome_iff_exists.mp hfound
    have hqid := find?_some hq
    rw [hq, Option.map_some]
    by_cases hqd : q.partitionID = dp.partitionID
    · rw [if_pos hqd]
    · rw [Function.comp_apply, if_neg hqd, decide_eq_true_eq] at hqid
      exact absurd (hqid.trans hid) hqd
  rw [if_neg hid]
  have hcongr : ((fun q : DataPartition => decide (q.partitionID = id)) ∘
      fun q => if q.partitionID = dp.partitionID then dp else q) =
        fun q => decide (q.partitionID = id) := by
    funext q
    by_cases hqd : q.partitionID = dp.partitionID
    · simp [hqd, Ne.symm hid]
    · simp [hqd]
  rw [hcongr]
  cases hq : m.partitions.find? (fun q => decide (q.partitionID = id)) with
  | none => rfl
  | some q =>
    have hqid : q.partitionID = id := by simpa using find?_some hq
    rw [Option.map_some, if_neg (by rw [hqid]; exact hid)]

end DataPartitionMap

/-! Volumes. -/

abbrev Map (α β : Type) := AList fun _ : α => β

-- the status of a volume
def normal : UInt8 := 0
def markDelete : UInt8 := 1

structure Vol where
  id : UInt64
  name : Text
  owner : Text
  dpReplicaNum : UInt8
  mpReplicaNum : UInt8
  status : UInt8
  dataPartitionSize : UInt64
  capacity : UInt64
  metaPartitions : Map UInt64 MetaPartition
  dataPartitions : DataPartitionMap

def defaultReplicaNum : UInt8 := 3

def defaultDataPartitionSize : UInt64 := 120 * GB

def newVol (id : UInt64) (name owner : Text) (dpSize capacity : UInt64) : Vol :=
  { id := id, name := name, owner := owner, dpReplicaNum := defaultReplicaNum,
    mpReplicaNum := defaultReplicaNum, status := normal,
    -- a size of zero is below a gigabyte as well
    dataPartitionSize := if dpSize < GB then defaultDataPartitionSize else dpSize,
    capacity := capacity, metaPartitions := ∅, dataPartitions := .empty }

def newVolValue (vol : Vol) : VolValue :=
  { id := vol.id, name := vol.name, replicaNum := vol.mpReplicaNum, status := vol.status,
    dataPartitionSize := vol.dataPartitionSize, capacity := vol.capacity, owner := vol.owner }

def Vol.addMetaPartition (vol : Vol) (mp : MetaPartition) : Vol :=
  { vol with metaPartitions := vol.metaPartitions.insert mp.partitionID mp }

def Vol.putDataPartition (vol : Vol) (dp : DataPartition) : Vol :=
  { vol with dataPartitions := vol.dataPartitions.put dp }

/-! The cluster in memory. -/

structure IDAllocator where
  dataPartitionID : UInt64
  metaPartitionID : UInt64
  commonID : UInt64
  deriving DecidableEq, Repr

structure Cluster where
  name : Text
  metaNodeThreshold : UInt32
  nodeSetCapacity : Int
  disableAutoAllocate : Bool
  vols : Map Text Vol
  dataNodes : Map Text DataNode
  metaNodes : Map Text MetaNode
  nodeSets : Map UInt64 NodeSet
  idAlloc : IDAllocator

def newClusterValue (c : Cluster) : ClusterValue :=
  { name := c.name, threshold := c.metaNodeThreshold,
    disableAutoAllocate := c.disableAutoAllocate }

inductive MasterError
  | unmarshal
  | parseUint
  | volNotFound
  | metaPartitionNotFound
  | dataPartitionNotFound
  | nodeSetNotFound
  deriving DecidableEq, Repr

namespace Cluster

def getVol (c : Cluster) (name : Text) : Except MasterError Vol :=
  match c.vols.lookup name with
  | some vol => .ok vol
  | none => .error .volNotFound

/-- `putVol` leaves a volume of the name as it is. -/
def putVol (c : Cluster) (vol : Vol) : Cluster :=
  if (c.vols.lookup vol.name).isSome then c
  else { c with vols := c.vols.insert vol.name vol }

def setVol (c : Cluster) (name : Text) (vol : Vol) : Cluster :=
  { c with vols := c.vols.insert name vol }

variable {V : Type} (json : Codec V)

def decode {α : Type} (coding : Coding α V) (v : V) : Except MasterError α :=
  match coding.unmarshal v with
  | some a => .ok a
  | none => .error .unmarshal

def parseUint (v : V) : Except MasterError UInt64 :=
  match json.uint.unmarshal v with
  | some n => .ok n
  | none => .error .parseUint

def applyPutCluster (c : Cluster) (v : V) : Except MasterError Cluster := do
  let cv ← decode json.cluster v
  return { c with metaNodeThreshold := cv.threshold, disableAutoAllocate := cv.disableAutoAllocate }

def putNodeSet (c : Cluster) (ns : NodeSet) : Cluster :=
  { c with nodeSets := c.nodeSets.insert ns.id ns }

def applyAddNodeSet (c : Cluster) (v : V) : Except MasterError Cluster := do
  let nsv ← decode json.nodeSet v
  return c.putNodeSet (newNodeSet nsv.id c.nodeSetCapacity)

def applyUpdateNodeSet (c : Cluster) (v : V) : Except MasterError Cluster := do
  let nsv ← decode json.nodeSet v
  match c.nodeSets.lookup nsv.id with
  | none => throw .nodeSetNotFound
  | some ns =>
    return c.putNodeSet { ns with dataNodeLen := nsv.dataNodeLen, metaNodeLen := nsv.metaNodeLen }

def storeDataNode (c : Cluster) (dnv : DataNodeValue) : Cluster :=
  let node := { newDataNode dnv.addr with id := dnv.id, nodeSetID := dnv.nodeSetID }
  { c with dataNodes := c.dataNodes.insert node.addr node }

def applyAddDataNode (c : Cluster) (v : V) : Except MasterError Cluster := do
  let dnv ← decode json.dataNode v
  return c.storeDataNode dnv

def applyDeleteDataNode (c : Cluster) (v : V) : Except MasterError Cluster := do
  let _ ← decode json.dataNode v
  return c

def storeMetaNode (c : Cluster) (mnv : MetaNodeValue) : Cluster :=
  let node := { newMetaNode mnv.addr with id := mnv.id, nodeSetID := mnv.nodeSetID }
  { c with metaNodes := c.metaNodes.insert node.addr node }

def applyAddMetaNode (c : Cluster) (v : V) : Except MasterError Cluster := do
  let mnv ← decode json.metaNode v
  return if (c.metaNodes.lookup mnv.addr).isSome then c else c.storeMetaNode mnv

def applyDeleteMetaNode (c : Cluster) (v : V) : Except MasterError Cluster := do
  let _ ← decode json.metaNode v
  return c

def applyAddVol (c : Cluster) (v : V) : Except MasterError Cluster := do
  let vv ← decode json.vol v
  return c.putVol (newVol vv.id vv.name vv.owner vv.dataPartitionSize vv.capacity)

def applyUpdateVol (c : Cluster) (v : V) : Except MasterError Cluster := do
  let vv ← decode json.vol v
  let vol ← c.getVol vv.name
  return c.setVol vv.name { vol with status := vv.status, capacity := vv.capacity }

def applyDeleteVol (c : Cluster) (v : V) : Except MasterError Cluster := do
  let vv ← decode json.vol v
  return { c with vols := c.vols.erase vv.name }

def applyAddMetaPartition (c : Cluster) (v : V) : Except MasterError Cluster := do
  let mpv ← decode json.metaPartition v
  let mp := newMetaPartition mpv.partitionID mpv.start mpv.endId mpv.replicaNum mpv.volName
    mpv.volID
  let vol ← c.getVol mpv.volName
  return c.setVol mpv.volName (vol.addMetaPartition
    { mp with peers := mpv.peers, hosts := splitHosts mpv.hosts, status := mpv.status })

def applyUpdateMetaPartition (c : Cluster) (v : V) : Except MasterError Cluster := do
  let mpv ← decode json.metaPartition v
  let vol ← c.getVol mpv.volName
  match vol.metaPartitions.lookup mpv.partitionID with
  | none => throw .metaPartitionNotFound
  | some mp =>
    let mp' := { mp with start := mpv.start, endId := mpv.endId, peers := mpv.peers,
                         hosts := splitHosts mpv.hosts }
    return c.setVol mpv.volName
      { vol with metaPartitions := vol.metaPartitions.insert mpv.partitionID mp' }

def applyAddDataPartition (c : Cluster) (v : V) : Except MasterError Cluster := do
  let dpv ← decode json.dataPartition v
  let vol ← c.getVol dpv.volName
  let dp := newDataPartition dpv.partitionID dpv.replicaNum vol.name vol.id
  return c.setVol dpv.volName (vol.putDataPartition
    { dp with hosts := splitHosts dpv.hosts, peers := dpv.peers, status := dpv.status })

def applyUpdateDataPartition (c : Cluster) (v : V) : Except MasterError Cluster := do
  let dpv ← decode json.dataPartition v
  let vol ← c.getVol dpv.volName
  match vol.dataPartitions.get dpv.partitionID with
  | none => throw .dataPartitionNotFound
  | some dp =>
    return c.setVol dpv.volName (vol.putDataPartition
      { dp with hosts := splitHosts dpv.hosts, peers := dpv.peers })

def handleApply (c : Cluster) (cmd : RaftCmd V) : Except MasterError Cluster :=
  match cmd.op with
  | .putCluster => c.applyPutCluster json cmd.v
  | .addNodeSet => c.applyAddNodeSet json cmd.v
  | .updateNodeSet => c.applyUpdateNodeSet json cmd.v
  | .addDataNode => c.applyAddDataNode json cmd.v
  | .deleteDataNode => c.applyDeleteDataNode json cmd.v
  | .addMetaNode => c.applyAddMetaNode json cmd.v
  | .deleteMetaNode => c.applyDeleteMetaNode json cmd.v
  | .addVol => c.applyAddVol json cmd.v
  | .updateVol => c.applyUpdateVol json cmd.v
  | .deleteVol => c.applyDeleteVol json cmd.v
  | .addMetaPartition => c.applyAddMetaPartition json cmd.v
  | .updateMetaPartition => c.applyUpdateMetaPartition json cmd.v
  | .addDataPartition => c.applyAddDataPartition json cmd.v
  | .updateDataPartition => c.applyUpdateDataPartition json cmd.v
  | .allocCommonID => do
    let id ← parseUint json cmd.v
    return { c with idAlloc := { c.idAlloc with commonID := id } }
  | .allocDataPartitionID => do
    let id ← parseUint json cmd.v
    return { c with idAlloc := { c.idAlloc with dataPartitionID := id } }
  | .allocMetaPartitionID => do
    let id ← parseUint json cmd.v
    return { c with idAlloc := { c.idAlloc with metaPartitionID := id } }
  | .unset | .deleteDataPartition | .deleteMetaPartition => .ok c

/-! The records of a snapshot, applied. -/

variable {json}

theorem decode_marshal {α : Type} (coding : Coding α V) (a : α) :
    decode coding (coding.marshal a) = .ok a := by
  rw [decode, coding.unmarshal_marshal]

variable (c : Cluster)

theorem applyPutCluster_marshal (cv : ClusterValue) :
    c.applyPutCluster json (json.cluster.marshal cv) =
      .ok { c with metaNodeThreshold := cv.threshold,
                   disableAutoAllocate := cv.disableAutoAllocate } := by
  rw [applyPutCluster, decode_marshal]; rfl

theorem applyAddNodeSet_marshal (nsv : NodeSetValue) :
    c.applyAddNodeSet json (json.nodeSet.marshal nsv) =
      .ok (c.putNodeSet (newNodeSet nsv.id c.nodeSetCapacity)) := by
  rw [applyAddNodeSet, decode_marshal]; rfl

theorem applyAddDataNode_marshal (dnv : DataNodeValue) :
    c.applyAddDataNode json (json.dataNode.marshal dnv) = .ok (c.storeDataNode dnv) := by
  rw [applyAddDataNode, decode_marshal]; rfl

theorem applyAddMetaNode_marshal (mnv : MetaNodeValue) :
    c.applyAddMetaNode json (json.metaNode.marshal mnv) =
      .ok (if (c.metaNodes.lookup mnv.addr).isSome then c else c.storeMetaNode mnv) := by
  rw [applyAddMetaNode, decode_marshal]; rfl

theorem applyAddVol_marshal (vv : VolValue) : c.applyAddVol json (json.vol.marshal vv) =
      .ok (c.putVol (newVol vv.id vv.name vv.owner vv.dataPartitionSize vv.capacity)) := by
  rw [applyAddVol, decode_marshal]; rfl

theorem applyAddMetaPartition_marshal (mpv : MetaPartitionValue) :
    ∃ f : Vol → Vol, c.applyAddMetaPartition json (json.metaPartition.marshal mpv) =
      (c.getVol mpv.volName).map fun vol => c.setVol mpv.volName (f vol) := by
  refine ⟨fun vol => vol.addMetaPartition
    { newMetaPartition mpv.partitionID mpv.start mpv.endId mpv.replicaNum mpv.volName mpv.volID with
      peers := mpv.peers, hosts := splitHosts mpv.hosts, status := mpv.status }, ?_⟩
  rw [applyAddMetaPartition, decode_marshal]
  change (c.getVol mpv.volName).bind _ = _
  cases c.getVol mpv.volName <;> rfl

theorem applyAddDataPartition_marshal (dpv : DataPartitionValue) :
    ∃ f : Vol → Vol, c.applyAddDataPartition json (json.dataPartition.marshal dpv) =
      (c.getVol dpv.volName).map fun vol => c.setVol dpv.volName (f vol) := by
  refine ⟨fun vol => vol.putDataPartition
    { newDataPartition dpv.partitionID dpv.replicaNum vol.name vol.id with
      hosts := splitHosts dpv.hosts, peers := dpv.peers, status := dpv.status }, ?_⟩
  rw [applyAddDataPartition, decode_marshal]
  change (c.getVol dpv.volName).bind _ = _
  cases c.getVol dpv.volName <;> rfl

end Cluster
end ChubaoFS.Master
