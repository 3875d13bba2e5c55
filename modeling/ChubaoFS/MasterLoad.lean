import ChubaoFS.MasterSnapshot
import ChubaoFS.Base.Maps

namespace ChubaoFS.Master

open List Option MetadataFsm
open DataPartitionMap (get_put get)

variable {V : Type} (json : Codec V) {mf : MetadataFsm V} {store : KeyStore Text V} {α : Type}
  {p : α → Bool} {l : Listing} {c : Cluster}

structure MapOrder (α : Type) where
  order : List α → List α
  perm : ∀ l, (order l).Perm l

def seekForPrefix (store : KeyStore Text V) (acronym : Text) : List (Text × V) :=
  store.items.filter fun x => (keyPrefix acronym).isPrefixOf x.1

namespace Cluster

/-- `clearVols` and a new topology; the maps of the nodes are not touched. -/
def clearMetadata (c : Cluster) : Cluster := { c with vols := ∅, nodeSets := ∅ }

def loadEach {α : Type} (coding : Coding α V) (acronym : Text) (add : Cluster → α → Cluster)
    (walk : MapOrder (Text × V)) (store : KeyStore Text V) (c : Cluster) :
    Except MasterError Cluster :=
  ((walk.order (seekForPrefix store acronym)).map Prod.snd).foldlM
    (fun c v => do
      let a ← decode coding v
      return add c a) c

def addClusterValue (c : Cluster) (cv : ClusterValue) : Cluster :=
  { c with metaNodeThreshold := cv.threshold }

def loadClusterValue := loadEach json.cluster clusterAcronym addClusterValue

def addNodeSet (c : Cluster) (nsv : NodeSetValue) : Cluster :=
  c.putNodeSet { newNodeSet nsv.id c.nodeSetCapacity with
    metaNodeLen := nsv.metaNodeLen, dataNodeLen := nsv.dataNodeLen }

def loadNodeSets := loadEach json.nodeSet nodeSetAcronym addNodeSet

def loadDataNodes := loadEach json.dataNode dataNodeAcronym storeDataNode

def loadMetaNodes := loadEach json.metaNode metaNodeAcronym storeMetaNode

def volOf (vv : VolValue) : Vol :=
  { newVol vv.id vv.name vv.owner vv.dataPartitionSize vv.capacity with status := vv.status }

def addVol (c : Cluster) (vv : VolValue) : Cluster := c.putVol (volOf vv)

def loadVols := loadEach json.vol volAcronym addVol

def inVol (c : Cluster) (name : Text) (volID : UInt64) (change : Vol → Vol) : Cluster :=
  match c.vols.lookup name with
  | none => c
  | some vol => if vol.id ≠ volID then c else c.setVol name (change vol)

def metaPartitionOf (vol : Vol) (mpv : MetaPartitionValue) : MetaPartition :=
  { newMetaPartition mpv.partitionID mpv.start mpv.endId vol.mpReplicaNum vol.name mpv.volID with
    hosts := splitHosts mpv.hosts, peers := mpv.peers }

def addMetaPartition (c : Cluster) (mpv : MetaPartitionValue) : Cluster :=
  c.inVol mpv.volName mpv.volID fun vol => vol.addMetaPartition (metaPartitionOf vol mpv)

def loadMetaPartitions := loadEach json.metaPartition metaPartitionAcronym addMetaPartition

/-- `afterCreation`, whose error the loader does not look at. -/
def afterCreation (nodes : Map Text DataNode) (dp : DataPartition) (rv : ReplicaValue) :
    DataPartition :=
  match nodes.lookup rv.addr with
  | none => dp
  | some node =>
    if dp.replicas.any fun r => r.addr = node.addr then dp
    else { dp with replicas := dp.replicas ++ [⟨node.addr, rv.diskPath, false, node.isActive⟩] }

def dataPartitionOf (nodes : Map Text DataNode) (dpv : DataPartitionValue) : DataPartition :=
  dpv.replicas.foldl (afterCreation nodes)
    { newDataPartition dpv.partitionID dpv.replicaNum dpv.volName dpv.volID with
      hosts := splitHosts dpv.hosts, peers := dpv.peers }

def addDataPartition (c : Cluster) (dpv : DataPartitionValue) : Cluster :=
  c.inVol dpv.volName dpv.volID fun vol => vol.putDataPartition (dataPartitionOf c.dataNodes dpv)

def loadDataPartitions := loadEach json.dataPartition dataPartitionAcronym addDataPartition

end Cluster

/-- The seven loaders in the order of `loadMetadata`. -/
def Cluster.loadTables (walk : MapOrder (Text × V)) (store : KeyStore Text V) (c : Cluster) :
    Except MasterError Cluster := do
  let c ← loadClusterValue json walk store c
  let c ← loadNodeSets json walk store c
  let c ← loadDataNodes json walk store c
  let c ← loadMetaNodes json walk store c
  let c ← loadVols json walk store c
  let c ← loadMetaPartitions json walk store c
  loadDataPartitions json walk store c

/-- `loadMetadata`, which panics where the result is an error. -/
def Server.loadMetadata (walk : MapOrder (Text × V)) (s : Server V) :
    Except MasterError (Server V) := do
  let s := { s with cluster := s.cluster.clearMetadata }
  let s ← s.restoreIDAlloc json
  let s ← s.restoreFsm json
  let c ← s.cluster.loadTables json walk s.fsm.store
  return { s with cluster := c }

/-! The records of one kind. -/

structure Table (json : Codec V) (α : Type) where
  acronym : Text
  coding : Coding α V
  record : α → Record
  key_record : ∀ a, keyPrefix acronym <+: (record a).key := by exact fun _ => List.prefix_append ..
  value_record : ∀ a, (record a).value json = coding.marshal a := by exact fun _ => rfl
  of_key : ∀ r : Record, keyPrefix acronym <+: r.key → ∃ a, r = record a

theorem snapshotOp_of_key {r : Record} {acronym : Text} (hsep : keySeparator ∉ acronym)
    (h : keyPrefix acronym <+: r.key) : r.snapshotOp = setOpType (keyPrefix acronym) := by
  obtain ⟨rest, hrest⟩ := h
  have hnil := splitOn_keyPrefix hsep []
  rw [append_nil] at hnil
  rw [← r.setOpType_key, ← hrest, setOpType, setOpType, splitOn_keyPrefix hsep, hnil]

theorem exists_of_op {α : Type} {record : α → Record} {acronym : Text} (op : Op)
    (hsep : keySeparator ∉ acronym) (hop : setOpType (keyPrefix acronym) = op)
    (h : ∀ r : Record, r.snapshotOp = op → ∃ a, r = record a) (r : Record)
    (hr : keyPrefix acronym <+: r.key) : ∃ a, r = record a :=
  h r ((snapshotOp_of_key hsep hr).trans hop)

namespace Table

def clusters : Table json ClusterValue where
  acronym := clusterAcronym
  coding := json.cluster
  record := .cluster
  of_key := exists_of_op .putCluster (by decide) (by decide) fun r hop => by
    cases r with
    | cluster a => exact ⟨a, rfl⟩
    | _ => cases hop

def nodeSets : Table json NodeSetValue where
  acronym := nodeSetAcronym
  coding := json.nodeSet
  record := .nodeSet
  of_key := exists_of_op .addNodeSet (by decide) (by decide) fun r hop => by
    cases r with
    | nodeSet a => exact ⟨a, rfl⟩
    | _ => cases hop

def dataNodes : Table json DataNodeValue where
  acronym := dataNodeAcronym
  coding := json.dataNode
  record := .dataNode
  of_key := exists_of_op .addDataNode (by decide) (by decide) fun r hop => by
    cases r with
    | dataNode a => exact ⟨a, rfl⟩
    | _ => cases hop

def metaNodes : Table json MetaNodeValue where
  acronym := metaNodeAcronym
  coding := json.metaNode
  record := .metaNode
  of_key := exists_of_op .addMetaNode (by decide) (by decide) fun r hop => by
    cases r with
    | metaNode a => exact ⟨a, rfl⟩
    | _ => cases hop

def vols : Table json VolValue where
  acronym := volAcronym
  coding := json.vol
  record := .vol
  of_key := exists_of_op .addVol (by decide) (by decide) fun r hop => by
    cases r with
    | vol a => exact ⟨a, rfl⟩
    | _ => cases hop

def metaPartitions : Table json MetaPartitionValue where
  acronym := metaPartitionAcronym
  coding := json.metaPartition
  record := .metaPartition
  of_key := exists_of_op .addMetaPartition (by decide) (by decide) fun r hop => by
    cases r with
    | metaPartition a => exact ⟨a, rfl⟩
    | _ => cases hop

def dataPartitions : Table json DataPartitionValue where
  acronym := dataPartitionAcronym
  coding := json.dataPartition
  record := .dataPartition
  of_key := exists_of_op .addDataPartition (by decide) (by decide) fun r hop => by
    cases r with
    | dataPartition a => exact ⟨a, rfl⟩
    | _ => cases hop

variable {json} {α : Type} (t : Table json α)

def Holds (store : KeyStore Text V) (a : α) : Prop :=
  store.get (t.record a).key = some ((t.record a).value json)

def entry (a : α) : Text × V := ((t.record a).key, (t.record a).value json)

def Walked (walk : MapOrder (Text × V)) (store : KeyStore Text V) (xs : List α) : Prop :=
  xs.map t.entry = walk.order (seekForPrefix store t.acronym)

variable {t} {walk : MapOrder (Text × V)} {store : KeyStore Text V}

theorem mem_seekForPrefix {x : Text × V} : x ∈ seekForPrefix store t.acronym ↔
    store.get x.1 = some x.2 ∧ keyPrefix t.acronym <+: x.1 := by
  rw [seekForPrefix, mem_filter, isPrefixOf_iff_prefix]
  exact and_congr_left' KeyStore.mem_items

theorem exists_walked (t : Table json α) (walk : MapOrder (Text × V))
    (hstored : ∀ k v, store.get k = some v → Stored json (k, v)) :
    ∃ xs, t.Walked walk store xs := by
  change walk.order (seekForPrefix store t.acronym) ∈ Set.range (map t.entry)
  rw [Set.range_list_map]
  rintro ⟨k, v⟩ hx
  obtain ⟨hget, hkey⟩ := mem_seekForPrefix.mp ((walk.perm _).mem_iff.mp hx)
  obtain ⟨r, hr⟩ | ⟨n, hn⟩ := hstored k v hget
  · cases hr
    obtain ⟨a, rfl⟩ := t.of_key r hkey
    exact ⟨a, rfl⟩
  · obtain ⟨rest, hrest⟩ := hkey
    rw [(Prod.mk.inj hn).1] at hrest
    exact absurd (cons.inj hrest).1 (by decide)

theorem entry_injective : Function.Injective t.entry := by
  intro a b h
  have hvalue := (Prod.mk.inj h).2
  rw [t.value_record, t.value_record] at hvalue
  have hsome := congrArg t.coding.unmarshal hvalue
  rw [t.coding.unmarshal_marshal, t.coding.unmarshal_marshal] at hsome
  exact some.inj hsome

theorem Walked.mem_iff {xs : List α} (h : t.Walked walk store xs) (a : α) :
    a ∈ xs ↔ t.Holds store a := by
  rw [← List.mem_map_of_injective entry_injective, h, (walk.perm _).mem_iff, mem_seekForPrefix]
  exact and_iff_left (t.key_record a)

theorem Walked.loadEach {xs : List α} (h : t.Walked walk store xs) (add : Cluster → α → Cluster)
    (c : Cluster) :
    Cluster.loadEach t.coding t.acronym add walk store c = .ok (xs.foldl add c) := by
  have hvalues : (walk.order (seekForPrefix store t.acronym)).map Prod.snd =
      xs.map t.coding.marshal := by
    rw [← h, List.map_map]
    exact List.map_congr_left fun a _ => t.value_record a
  rw [Cluster.loadEach, hvalues]
  clear h hvalues
  induction xs generalizing c with
  | nil => rfl
  | cons a xs ih =>
    rw [List.map_cons, List.foldlM_cons, Cluster.decode_marshal]
    exact ih (add c a)

end Table

/-! What the loops of the loaders leave. -/

namespace Cluster

theorem foldl_addClusterValue (l : List ClusterValue) (c : Cluster) : l.foldl addClusterValue c =
      { c with metaNodeThreshold :=
          (l.getLast?.map ClusterValue.threshold).getD c.metaNodeThreshold } := by
  induction l using reverseRecOn with
  | nil => rfl
  | append_singleton l cv ih =>
    rw [foldl_append, ih]
    simp [addClusterValue]

def nodeSetOf (capacity : Int) (nsv : NodeSetValue) : NodeSet :=
  { newNodeSet nsv.id capacity with metaNodeLen := nsv.metaNodeLen, dataNodeLen := nsv.dataNodeLen }

theorem foldl_addNodeSet (l : List NodeSetValue) (c : Cluster) : l.foldl addNodeSet c = { c with
      nodeSets := l.foldl (fun m nsv => m.insert nsv.id (nodeSetOf c.nodeSetCapacity nsv))
        c.nodeSets } := by
  induction l generalizing c with
  | nil => rfl
  | cons nsv l ih => rw [foldl_cons, ih]; rfl

def dataNodeOf (dnv : DataNodeValue) : DataNode :=
  { newDataNode dnv.addr with id := dnv.id, nodeSetID := dnv.nodeSetID }

theorem foldl_storeDataNode (l : List DataNodeValue) (c : Cluster) :
    l.foldl storeDataNode c = { c with
      dataNodes := l.foldl (fun m dnv => m.insert dnv.addr (dataNodeOf dnv)) c.dataNodes } := by
  induction l generalizing c with
  | nil => rfl
  | cons dnv l ih => rw [foldl_cons, ih]; rfl

def metaNodeOf (mnv : MetaNodeValue) : MetaNode :=
  { newMetaNode mnv.addr with id := mnv.id, nodeSetID := mnv.nodeSetID }

theorem foldl_storeMetaNode (l : List MetaNodeValue) (c : Cluster) :
    l.foldl storeMetaNode c = { c with
      metaNodes := l.foldl (fun m mnv => m.insert mnv.addr (metaNodeOf mnv)) c.metaNodes } := by
  induction l generalizing c with
  | nil => rfl
  | cons mnv l ih => rw [foldl_cons, ih]; rfl

theorem foldl_addVol (l : List VolValue) (c : Cluster) : l.foldl addVol c = { c with
      vols := l.foldl (fun m vv => if (m.lookup vv.name).isSome then m
        else m.insert vv.name (volOf vv)) c.vols } := by
  induction l generalizing c with
  | nil => rfl
  | cons vv l ih =>
    rw [foldl_cons, ih, foldl_cons]
    have hname : (volOf vv).name = vv.name := rfl
    unfold addVol putVol
    rw [hname]
    by_cases h : (c.vols.lookup vv.name).isSome = true
    · rw [if_pos h, if_pos h]
    · rw [if_neg h, if_neg h]

def rest (c : Cluster) : Cluster := { c with vols := ∅ }

theorem rest_inVol (c : Cluster) (name : Text) (volID : UInt64) (change : Vol → Vol) :
    (c.inVol name volID change).rest = c.rest := by
  unfold inVol
  split
  · rfl
  · split <;> rfl

theorem lookup_inVol (c : Cluster) (name name' : Text) (volID : UInt64) (change : Vol → Vol) :
    (c.inVol name volID change).vols.lookup name' = (c.vols.lookup name').map fun vol =>
      if name = name' ∧ volID = vol.id then change vol else vol := by
  unfold inVol
  by_cases hname : name = name'
  · subst hname
    cases hvol : c.vols.lookup name with
    | none => simp [hvol]
    | some vol =>
      by_cases hid : vol.id = volID
      · simp [hid, setVol]
      · simp [hid, Ne.symm hid, hvol]
  have hid : (fun vol : Vol =>
      if name = name' ∧ volID = vol.id then change vol else vol) = id := by
    funext vol
    simp [hname]
  rw [hid, Option.map_id]
  cases hvol : c.vols.lookup name with
  | none => rfl
  | some vol =>
    by_cases hid : vol.id = volID
    · simp only [hid, ne_eq, not_true_eq_false, if_false]
      exact AList.lookup_insert_ne (Ne.symm hname)
    · simp [hid]

theorem lookup_foldl_inVol {vname : α → Text} {vid : α → UInt64} (add : Vol → α → Vol)
    (step : Cluster → α → Cluster) {l : List α} {c₀ : Cluster}
    (hstep : ∀ c a, c.rest = c₀.rest → step c a = c.inVol (vname a) (vid a) fun vol => add vol a)
    (hid : ∀ vol a, (add vol a).id = vol.id) (hc : c.rest = c₀.rest) (name : Text) :
    (l.foldl step c).rest = c₀.rest ∧ (l.foldl step c).vols.lookup name =
      (c.vols.lookup name).map fun vol =>
        (l.filter fun a => vname a = name ∧ vid a = vol.id).foldl add vol := by
  induction l generalizing c with
  | nil => simp [hc]
  | cons a l ih =>
    have hrest : (step c a).rest = c₀.rest := by rw [hstep c a hc, rest_inVol, hc]
    obtain ⟨hkeep, hlookup⟩ := ih hrest
    refine ⟨hkeep, ?_⟩
    rw [List.foldl_cons, hlookup, hstep c a hc, lookup_inVol, Option.map_map]
    congr 1
    funext vol
    by_cases ha : vname a = name ∧ vid a = vol.id
    · rw [Function.comp_apply, if_pos ha, List.filter_cons_of_pos (by simpa using ha), hid]
      rfl
    · rw [Function.comp_apply, if_neg ha, List.filter_cons_of_neg (by simpa using ha)]

theorem foldl_addMetaPartition (l : List MetaPartitionValue) (vol : Vol) :
    l.foldl (fun vol mpv => vol.addMetaPartition (metaPartitionOf vol mpv)) vol = { vol with
      metaPartitions := l.foldl (fun m mpv => m.insert mpv.partitionID (metaPartitionOf vol mpv))
        vol.metaPartitions } := by
  induction l generalizing vol with
  | nil => rfl
  | cons mpv l ih => rw [foldl_cons, ih]; rfl

variable (nodes : Map Text DataNode)

theorem foldl_putDataPartition (l : List DataPartitionValue) (vol : Vol) :
    l.foldl (fun vol dpv => vol.putDataPartition (dataPartitionOf nodes dpv)) vol = { vol with
      dataPartitions := l.foldl (fun m dpv => m.put (dataPartitionOf nodes dpv))
        vol.dataPartitions } := by
  induction l generalizing vol with
  | nil => rfl
  | cons dpv l ih => rw [foldl_cons, ih]; rfl

theorem dataPartitionOf_fields (dpv : DataPartitionValue) :
    { dataPartitionOf nodes dpv with replicas := [] } =
      { newDataPartition dpv.partitionID dpv.replicaNum dpv.volName dpv.volID with
        hosts := splitHosts dpv.hosts, peers := dpv.peers } := by
  refine Maps.foldl_keeps (fun dp : DataPartition => { dp with replicas := [] }) ?_ dpv.replicas _
  intro dp rv
  unfold afterCreation
  split
  · rfl
  · split <;> rfl

end Cluster

/-! What a leader knows after loading. -/

structure MetaPartitionView where
  partitionID : UInt64
  start : UInt64
  endId : UInt64
  hosts : List Text
  peers : List Peer

def MetaPartition.view (mp : MetaPartition) : MetaPartitionView :=
  ⟨mp.partitionID, mp.start, mp.endId, mp.hosts, mp.peers⟩

structure DataPartitionView where
  partitionID : UInt64
  hosts : List Text
  peers : List Peer

def DataPartition.view (dp : DataPartition) : DataPartitionView :=
  ⟨dp.partitionID, dp.hosts, dp.peers⟩

structure VolView where
  value : VolValue
  metaPartitions : UInt64 → Option MetaPartitionView
  dataPartitions : UInt64 → Option DataPartitionView

def Vol.view (vol : Vol) : VolView where
  value := newVolValue vol
  metaPartitions id := (vol.metaPartitions.lookup id).map MetaPartition.view
  dataPartitions id := (vol.dataPartitions.get id).map DataPartition.view

def newDataNodeValue (node : DataNode) : DataNodeValue := ⟨node.id, node.nodeSetID, node.addr⟩

def newMetaNodeValue (node : MetaNode) : MetaNodeValue := ⟨node.id, node.nodeSetID, node.addr⟩

structure ClusterView where
  vols : Text → Option VolView
  dataNodes : Text → Option DataNodeValue
  metaNodes : Text → Option MetaNodeValue
  nodeSets : UInt64 → Option NodeSet
  metaNodeThreshold : UInt32
  disableAutoAllocate : Bool

def Cluster.view (c : Cluster) : ClusterView where
  vols name := (c.vols.lookup name).map Vol.view
  dataNodes addr := (c.dataNodes.lookup addr).map newDataNodeValue
  metaNodes addr := (c.metaNodes.lookup addr).map newMetaNodeValue
  nodeSets id := c.nodeSets.lookup id
  metaNodeThreshold := c.metaNodeThreshold
  disableAutoAllocate := c.disableAutoAllocate

structure Listing where
  clusters : List ClusterValue
  nodeSets : List NodeSetValue
  dataNodes : List DataNodeValue
  metaNodes : List MetaNodeValue
  vols : List VolValue
  metaPartitions : List MetaPartitionValue
  dataPartitions : List DataPartitionValue

structure Listing.Of (json : Codec V) (walk : MapOrder (Text × V)) (store : KeyStore Text V)
    (l : Listing) : Prop where
  clusters : (Table.clusters json).Walked walk store l.clusters
  nodeSets : (Table.nodeSets json).Walked walk store l.nodeSets
  dataNodes : (Table.dataNodes json).Walked walk store l.dataNodes
  metaNodes : (Table.metaNodes json).Walked walk store l.metaNodes
  vols : (Table.vols json).Walked walk store l.vols
  metaPartitions : (Table.metaPartitions json).Walked walk store l.metaPartitions
  dataPartitions : (Table.dataPartitions json).Walked walk store l.dataPartitions

theorem exists_listing (walk : MapOrder (Text × V))
    (hstored : ∀ k v, store.get k = some v → Stored json (k, v)) :
    ∃ l : Listing, l.Of json walk store := by
  obtain ⟨clusters, hclusters⟩ := (Table.clusters json).exists_walked walk hstored
  obtain ⟨nodeSets, hnodeSets⟩ := (Table.nodeSets json).exists_walked walk hstored
  obtain ⟨dataNodes, hdataNodes⟩ := (Table.dataNodes json).exists_walked walk hstored
  obtain ⟨metaNodes, hmetaNodes⟩ := (Table.metaNodes json).exists_walked walk hstored
  obtain ⟨vols, hvols⟩ := (Table.vols json).exists_walked walk hstored
  obtain ⟨mps, hmps⟩ := (Table.metaPartitions json).exists_walked walk hstored
  obtain ⟨dps, hdps⟩ := (Table.dataPartitions json).exists_walked walk hstored
  exact ⟨⟨clusters, nodeSets, dataNodes, metaNodes, vols, mps, dps⟩,
    ⟨hclusters, hnodeSets, hdataNodes, hmetaNodes, hvols, hmps, hdps⟩⟩

namespace Cluster

def loadedRest (c : Cluster) (l : Listing) : Cluster :=
  { c with
    metaNodeThreshold := (l.clusters.getLast?.map ClusterValue.threshold).getD c.metaNodeThreshold
    nodeSets := l.nodeSets.foldl (fun m nsv => m.insert nsv.id (nodeSetOf c.nodeSetCapacity nsv))
      c.nodeSets
    dataNodes := l.dataNodes.foldl (fun m dnv => m.insert dnv.addr (dataNodeOf dnv)) c.dataNodes
    metaNodes := l.metaNodes.foldl (fun m mnv => m.insert mnv.addr (metaNodeOf mnv)) c.metaNodes }

def loaded (c : Cluster) (l : Listing) : Cluster :=
  l.dataPartitions.foldl addDataPartition (l.metaPartitions.foldl addMetaPartition
    (l.vols.foldl addVol (c.loadedRest l)))

end Cluster

theorem Cluster.loadTables_eq {walk : MapOrder (Text × V)}
    (h : l.Of json walk store) (c : Cluster) : c.loadTables json walk store = .ok (c.loaded l) := by
  have hclusters c : loadClusterValue json walk store c =
      .ok (l.clusters.foldl addClusterValue c) := h.clusters.loadEach _ _
  have hnodeSets c : loadNodeSets json walk store c =
      .ok (l.nodeSets.foldl addNodeSet c) := h.nodeSets.loadEach _ _
  have hdataNodes c : loadDataNodes json walk store c =
      .ok (l.dataNodes.foldl storeDataNode c) := h.dataNodes.loadEach _ _
  have hmetaNodes c : loadMetaNodes json walk store c =
      .ok (l.metaNodes.foldl storeMetaNode c) := h.metaNodes.loadEach _ _
  have hvols c : loadVols json walk store c = .ok (l.vols.foldl addVol c) := h.vols.loadEach _ _
  have hmps c : loadMetaPartitions json walk store c =
      .ok (l.metaPartitions.foldl addMetaPartition c) := h.metaPartitions.loadEach _ _
  have hdps c : loadDataPartitions json walk store c =
      .ok (l.dataPartitions.foldl addDataPartition c) := h.dataPartitions.loadEach _ _
  simp only [loadTables, Except.bind, hclusters, hnodeSets, hdataNodes, hmetaNodes, hvols, hmps,
    hdps, bind]
  rw [foldl_addClusterValue, foldl_addNodeSet, foldl_storeDataNode, foldl_storeMetaNode]
  rfl

theorem Server.loadMetadata_eq {walk : MapOrder (Text × V)} {s : Server V} (hrec : mf.Recorded json)
    (hstore : s.fsm.store = mf.store) (h : l.Of json walk mf.store) :
    ∃ ids, s.loadMetadata json walk =
      .ok ⟨mf, ({ s.cluster.clearMetadata with idAlloc := ids }).loaded l⟩ := by
  obtain ⟨⟨store, index⟩, c⟩ := s
  obtain rfl : store = mf.store := hstore
  obtain ⟨ids, hids⟩ := restoreIDAlloc_of_stored json (s := ⟨⟨mf.store, index⟩, c.clearMetadata⟩)
    hrec.stored
  refine ⟨ids, ?_⟩
  have hfsm : restoreFsm json ⟨⟨mf.store, index⟩, { c.clearMetadata with idAlloc := ids }⟩ =
      .ok ⟨mf, { c.clearMetadata with idAlloc := ids }⟩ :=
    restoreFsm_of_index json hrec.index
  rw [loadMetadata, hids]
  change (restoreFsm json ⟨⟨mf.store, index⟩, { c.clearMetadata with idAlloc := ids }⟩).bind _ = _
  rw [hfsm]
  change (Cluster.loadTables json walk mf.store _).bind _ = _
  rw [Cluster.loadTables_eq json h]
  rfl

/-! Reading the loaded cluster. -/

namespace Cluster

def ownMetaPartitions (l : Listing) (vv : VolValue) : List MetaPartitionValue :=
  l.metaPartitions.filter fun mpv => mpv.volName = vv.name ∧ mpv.volID = vv.id

def ownDataPartitions (l : Listing) (vv : VolValue) : List DataPartitionValue :=
  l.dataPartitions.filter fun dpv => dpv.volName = vv.name ∧ dpv.volID = vv.id

theorem loaded_spec (c : Cluster) (l : Listing) (hc : c.vols = ∅) :
    (c.loaded l).rest = (c.loadedRest l).rest ∧
    ∀ name, (c.loaded l).vols.lookup name = (l.vols.find? fun vv => vv.name = name).map fun vv =>
      { volOf vv with
        metaPartitions := (ownMetaPartitions l vv).foldl
          (fun m mpv => m.insert mpv.partitionID (metaPartitionOf (volOf vv) mpv)) ∅
        dataPartitions := (ownDataPartitions l vv).foldl
          (fun m dpv => m.put (dataPartitionOf (c.loadedRest l).dataNodes dpv)) .empty } := by
  have hvols name : (l.vols.foldl addVol (c.loadedRest l)).vols.lookup name =
      (l.vols.find? fun vv => vv.name = name).map volOf := by
    rw [foldl_addVol]
    exact (Maps.lookup_foldl_insert_first _ _ _ _).trans (by simp [loadedRest, hc])
  have hrest : (l.vols.foldl addVol (c.loadedRest l)).rest = (c.loadedRest l).rest := by
    rw [foldl_addVol]; rfl
  have hmps name := lookup_foldl_inVol (l := l.metaPartitions) _ addMetaPartition
    (fun c a _ => rfl) (fun _ _ => rfl) hrest name
  have hnodes (c' : Cluster) (h : c'.rest = (c.loadedRest l).rest) :
      c'.dataNodes = (c.loadedRest l).dataNodes :=
    (congrArg Cluster.dataNodes h : c'.rest.dataNodes = _)
  have hdps name := lookup_foldl_inVol (l := l.dataPartitions)
    (fun vol dpv => vol.putDataPartition (dataPartitionOf (c.loadedRest l).dataNodes dpv))
    addDataPartition (fun c' a h => by rw [addDataPartition, hnodes c' h]) (fun _ _ => rfl)
    (hmps []).1 name
  refine ⟨(hdps []).1, fun name => (hdps name).2.trans ?_⟩
  rw [(hmps name).2, hvols, Option.map_map, Option.map_map]
  cases hvv : l.vols.find? (fun vv => decide (vv.name = name)) with
  | none => rfl
  | some vv =>
    have hname : vv.name = name := by simpa using List.find?_some hvv
    simp only [Option.map_some, Function.comp_apply]
    rw [foldl_addMetaPartition, foldl_putDataPartition, ← hname]
    rfl

end Cluster

namespace Listing

def volView (l : Listing) (vv : VolValue) : VolView where
  value := newVolValue (Cluster.volOf vv)
  metaPartitions id := ((Cluster.ownMetaPartitions l vv).reverse.find? fun mpv =>
    mpv.partitionID = id).map fun mpv =>
      ⟨mpv.partitionID, mpv.start, mpv.endId, splitHosts mpv.hosts, mpv.peers⟩
  dataPartitions id := ((Cluster.ownDataPartitions l vv).reverse.find? fun dpv =>
    dpv.partitionID = id).map fun dpv => ⟨dpv.partitionID, splitHosts dpv.hosts, dpv.peers⟩

def view (l : Listing) (c : Cluster) : ClusterView where
  vols name := (l.vols.find? fun vv => vv.name = name).map l.volView
  dataNodes addr := (l.dataNodes.reverse.find? fun dnv => dnv.addr = addr).or
    ((c.dataNodes.lookup addr).map newDataNodeValue)
  metaNodes addr := (l.metaNodes.reverse.find? fun mnv => mnv.addr = addr).or
    ((c.metaNodes.lookup addr).map newMetaNodeValue)
  nodeSets id := (l.nodeSets.reverse.find? fun nsv => nsv.id = id).map
    (Cluster.nodeSetOf c.nodeSetCapacity)
  metaNodeThreshold := (l.clusters.getLast?.map ClusterValue.threshold).getD c.metaNodeThreshold
  disableAutoAllocate := c.disableAutoAllocate

section

variable (nodes : Map Text DataNode)

theorem view_dataPartitionOf (dpv : DataPartitionValue) :
    (Cluster.dataPartitionOf nodes dpv).view = ⟨dpv.partitionID, splitHosts dpv.hosts, dpv.peers⟩ :=
  (congrArg DataPartition.view (Cluster.dataPartitionOf_fields nodes dpv) :
    { Cluster.dataPartitionOf nodes dpv with replicas := [] }.view = _)

theorem get_put_dataPartitionOf (m : DataPartitionMap) (dpv : DataPartitionValue) (id : UInt64) :
    (m.put (Cluster.dataPartitionOf nodes dpv)).get id =
      if id = dpv.partitionID then some (Cluster.dataPartitionOf nodes dpv) else m.get id := by
  have hid : (Cluster.dataPartitionOf nodes dpv).partitionID = dpv.partitionID :=
    congrArg DataPartitionView.partitionID (view_dataPartitionOf nodes dpv)
  rw [get_put, hid]

theorem view_loadedVol (l : Listing) (vv : VolValue) : Vol.view { Cluster.volOf vv with
      metaPartitions := (Cluster.ownMetaPartitions l vv).foldl
        (fun m mpv => m.insert mpv.partitionID (Cluster.metaPartitionOf (Cluster.volOf vv) mpv)) ∅
      dataPartitions := (Cluster.ownDataPartitions l vv).foldl
        (fun m dpv => m.put (Cluster.dataPartitionOf nodes dpv)) .empty } = l.volView vv := by
  unfold Vol.view volView
  congr 1
  · funext id
    rw [Maps.lookup_foldl_insert_last, AList.lookup_empty, Option.or_none, Option.map_map]
    rfl
  · funext id
    rw [Maps.get_foldl_last get (get_put_dataPartitionOf nodes)]
    have hnone : get .empty id = none := rfl
    rw [hnone, Option.or_none, Option.map_map]
    congr 1
    funext dpv
    exact view_dataPartitionOf nodes dpv

end

theorem view_loaded (c : Cluster) (l : Listing) (hvols : c.vols = ∅) (hsets : c.nodeSets = ∅) :
    (c.loaded l).view = l.view c := by
  obtain ⟨hrest, hlookup⟩ := c.loaded_spec l hvols
  have hfield {β : Type} (f : Cluster → β) (hf : ∀ c, f c.rest = f c) :
      f (c.loaded l) = f (c.loadedRest l) := by
    rw [← hf, hrest, hf]
  unfold Cluster.view Listing.view
  rw [hfield Cluster.dataNodes fun _ => rfl, hfield Cluster.metaNodes fun _ => rfl,
    hfield Cluster.nodeSets fun _ => rfl, hfield Cluster.metaNodeThreshold fun _ => rfl,
    hfield Cluster.disableAutoAllocate fun _ => rfl]
  congr 1
  · funext name
    rw [hlookup name, Option.map_map]
    congr 1
    funext vv
    exact view_loadedVol _ l vv
  · funext addr
    rw [Cluster.loadedRest, Maps.lookup_foldl_insert_last, Option.map_or, Option.map_map]
    have hid : newDataNodeValue ∘ Cluster.dataNodeOf = id := rfl
    rw [hid, Option.map_id]
    rfl
  · funext addr
    rw [Cluster.loadedRest, Maps.lookup_foldl_insert_last, Option.map_or, Option.map_map]
    have hid : newMetaNodeValue ∘ Cluster.metaNodeOf = id := rfl
    rw [hid, Option.map_id]
    rfl
  · funext id
    rw [Cluster.loadedRest, Maps.lookup_foldl_insert_last, hsets, AList.lookup_empty,
      Option.or_none]

end Listing

/-! When two leaders agree. -/

/-- The memories agree where the store does not decide: on the nodes without a record and on the
settings that are not read back. -/
structure Cluster.Agree (store : KeyStore Text V) (c c' : Cluster) : Prop where
  dataNodes : ∀ addr, (∀ dnv, (Table.dataNodes json).Holds store dnv → dnv.addr ≠ addr) →
    (c.dataNodes.lookup addr).map newDataNodeValue = (c'.dataNodes.lookup addr).map newDataNodeValue
  metaNodes : ∀ addr, (∀ mnv, (Table.metaNodes json).Holds store mnv → mnv.addr ≠ addr) →
    (c.metaNodes.lookup addr).map newMetaNodeValue = (c'.metaNodes.lookup addr).map newMetaNodeValue
  threshold : (∀ cv, ¬ (Table.clusters json).Holds store cv) →
    c.metaNodeThreshold = c'.metaNodeThreshold
  disableAutoAllocate : c.disableAutoAllocate = c'.disableAutoAllocate

/-- No two records compete: for the threshold, for the address of a node or for the name of a
volume. -/
structure Unambiguous (store : KeyStore Text V) : Prop where
  clusters : ∀ cv cv', (Table.clusters json).Holds store cv →
    (Table.clusters json).Holds store cv' → cv.threshold = cv'.threshold
  dataNodes : ∀ dnv dnv', (Table.dataNodes json).Holds store dnv →
    (Table.dataNodes json).Holds store dnv' → dnv.addr = dnv'.addr → dnv = dnv'
  metaNodes : ∀ mnv mnv', (Table.metaNodes json).Holds store mnv →
    (Table.metaNodes json).Holds store mnv' → mnv.addr = mnv'.addr → mnv = mnv'
  vols : ∀ vv vv', (Table.vols json).Holds store vv → (Table.vols json).Holds store vv' →
    vv.name = vv'.name → vv = vv'

namespace Table

variable {json} {α : Type} {t : Table json α} {store : KeyStore Text V}

theorem Holds.eq_of_key {a b : α} (ha : t.Holds store a) (hb : t.Holds store b)
    (h : (t.record a).key = (t.record b).key) : a = b := by
  apply t.entry_injective
  rw [Holds, h, hb] at ha
  rw [entry, entry, h, some.inj ha]

end Table

namespace Listing

variable {json} {walk walk' : MapOrder (Text × V)} {store : KeyStore Text V} {l l' : Listing}

theorem Of.find?_eq {t : Table json α} {xs xs' : List α} (h : t.Walked walk store xs)
    (h' : t.Walked walk' store xs')
    (hone : ∀ a b, t.Holds store a → t.Holds store b → p a = true → p b = true → a = b) :
    xs.find? p = xs'.find? p ∧ xs.reverse.find? p = xs'.reverse.find? p := by
  have hmem a : a ∈ xs ↔ a ∈ xs' := by rw [h.mem_iff, h'.mem_iff]
  refine ⟨Maps.find?_congr_of_unique hmem ?_, Maps.find?_congr_of_unique (by simpa using hmem) ?_⟩
  · intro a ha b hb
    exact hone a b ((h.mem_iff a).mp ha) ((h.mem_iff b).mp hb)
  · intro a ha b hb
    exact hone a b ((h.mem_iff a).mp (mem_reverse.mp ha))
      ((h.mem_iff b).mp (mem_reverse.mp hb))

theorem Of.volView_eq (h : l.Of json walk store) (h' : l'.Of json walk' store) (vv : VolValue) :
    l.volView vv = l'.volView vv := by
  unfold volView Cluster.ownMetaPartitions Cluster.ownDataPartitions
  congr 1
  · funext id
    simp only [← filter_reverse, find?_filter]
    rw [(Of.find?_eq h.metaPartitions h'.metaPartitions ?_).2]
    intro a b ha hb hpa hpb
    simp only [decide_eq_true_eq] at hpa hpb
    refine ha.eq_of_key hb ?_
    simp only [Table.metaPartitions, Record.key]
    rw [hpa.1.2, hpa.2, hpb.1.2, hpb.2]
  · funext id
    simp only [← filter_reverse, find?_filter]
    rw [(Of.find?_eq h.dataPartitions h'.dataPartitions ?_).2]
    intro a b ha hb hpa hpb
    simp only [decide_eq_true_eq] at hpa hpb
    refine ha.eq_of_key hb ?_
    simp only [Table.dataPartitions, Record.key]
    rw [hpa.1.2, hpa.2, hpb.1.2, hpb.2]

theorem find?_reverse_eq_none {t : Table json α} {xs : List α} (h : t.Walked walk store xs)
    (hnone : xs.reverse.find? p = none) {a : α} (ha : t.Holds store a) : ¬ p a = true :=
  find?_eq_none.mp hnone a (mem_reverse.mpr ((h.mem_iff a).mpr ha))

theorem Of.view_eq (h : l.Of json walk store) (h' : l'.Of json walk' store) {c' : Cluster}
    (hc : c.Agree json store c') (hone : Unambiguous json store)
    (hcfg : c.nodeSetCapacity = c'.nodeSetCapacity) : l.view c = l'.view c' := by
  unfold view
  congr 1
  · funext name
    have hfind := (Of.find?_eq h.vols h'.vols (p := fun vv => vv.name = name)
      fun vv vv' hv hv' hn hn' => hone.vols vv vv' hv hv' (by simp_all)).1
    rw [hfind]
    congr 1
    funext vv
    exact h.volView_eq h' vv
  · funext addr
    have hfind := (Of.find?_eq h.dataNodes h'.dataNodes (p := fun dnv => dnv.addr = addr)
      fun a b ha hb hpa hpb => hone.dataNodes a b ha hb (by simp_all)).2
    rw [← hfind]
    cases hf : l.dataNodes.reverse.find? (fun dnv => decide (dnv.addr = addr)) with
    | some dnv => rfl
    | none =>
      exact hc.dataNodes addr fun dnv hd =>
        by simpa using find?_reverse_eq_none h.dataNodes hf hd
  · funext addr
    have hfind := (Of.find?_eq h.metaNodes h'.metaNodes (p := fun mnv => mnv.addr = addr)
      fun a b ha hb hpa hpb => hone.metaNodes a b ha hb (by simp_all)).2
    rw [← hfind]
    cases hf : l.metaNodes.reverse.find? (fun mnv => decide (mnv.addr = addr)) with
    | some mnv => rfl
    | none =>
      exact hc.metaNodes addr fun mnv hm =>
        by simpa using find?_reverse_eq_none h.metaNodes hf hm
  · funext id
    have hfind := (Of.find?_eq h.nodeSets h'.nodeSets (p := fun nsv => nsv.id = id)
      fun a b ha hb hpa hpb => ha.eq_of_key hb (by simp_all [Table.nodeSets, Record.key])).2
    rw [hfind, hcfg]
  · have hmem cv : cv ∈ l.clusters ↔ cv ∈ l'.clusters := by
      rw [h.clusters.mem_iff, h'.clusters.mem_iff]
    cases hl : l.clusters.getLast? with
    | none =>
      have hnil := getLast?_eq_none_iff.mp hl
      have hnil' : l'.clusters = [] := eq_nil_iff_forall_not_mem.mpr fun cv hcv =>
        by simpa [hnil] using (hmem cv).mpr hcv
      rw [hnil']
      exact hc.threshold fun cv hcv => by simpa [hnil] using (h.clusters.mem_iff cv).mpr hcv
    | some cv =>
      have hcv := (h.clusters.mem_iff cv).mp (mem_of_getLast? hl)
      cases hl' : l'.clusters.getLast? with
      | none =>
        have hnil := getLast?_eq_none_iff.mp hl'
        simpa [hnil] using (h'.clusters.mem_iff cv).mpr hcv
      | some cv' =>
        exact hone.clusters cv cv' hcv ((h'.clusters.mem_iff cv').mp (mem_of_getLast? hl'))
  · exact hc.disableAutoAllocate

end Listing

/-! Walks that begin or end at a given entry. -/

namespace MapOrder

variable {α : Type}

def asListed : MapOrder α := ⟨fun l => l, fun _ => .refl _⟩

open Classical in
noncomputable def startAt (x : α) : MapOrder α where
  order l := if x ∈ l then x :: l.erase x else l
  perm l := by
    split
    next h => exact (List.perm_cons_erase h).symm
    · exact .refl _

open Classical in
noncomputable def endAt (x : α) : MapOrder α where
  order l := if x ∈ l then l.erase x ++ [x] else l
  perm l := by
    split
    next h => exact (List.perm_append_singleton x _).trans (List.perm_cons_erase h).symm
    · exact .refl _

end MapOrder

namespace Table

variable {json} {α : Type} {t : Table json α} {store : KeyStore Text V} {a : α} {xs : List α}

theorem Holds.mem_seekForPrefix (h : t.Holds store a) : t.entry a ∈ seekForPrefix store t.acronym :=
  Table.mem_seekForPrefix.mpr ⟨h, t.key_record a⟩

theorem Holds.walked_startAt (ha : t.Holds store a) (h : t.Walked (.startAt (t.entry a)) store xs) :
    ∃ ys, xs = a :: ys := by
  unfold Walked MapOrder.startAt at h
  simp only [ha.mem_seekForPrefix, if_true] at h
  obtain ⟨b, ys, rfl, hb, -⟩ := map_eq_cons_iff.mp h
  exact ⟨ys, by rw [t.entry_injective hb]⟩

theorem Holds.walked_endAt (ha : t.Holds store a) (h : t.Walked (.endAt (t.entry a)) store xs) :
    ∃ ys, xs = ys ++ [a] := by
  unfold Walked MapOrder.endAt at h
  simp only [ha.mem_seekForPrefix, if_true] at h
  obtain ⟨ys, zs, rfl, -, hz⟩ := map_eq_append_iff.mp h
  obtain ⟨b, ws, rfl, hb, hw⟩ := map_eq_cons_iff.mp hz
  obtain rfl := map_eq_nil_iff.mp hw
  exact ⟨ys, by rw [t.entry_injective hb]⟩

end Table

namespace Server

variable {json}

theorem view_loadMetadata (hrec : mf.Recorded json) {m : Server V} (hm : m.fsm.store = mf.store)
    (walk : MapOrder (Text × V)) :
    ∃ l : Listing, l.Of json walk mf.store ∧ ∃ s, m.loadMetadata json walk = .ok s ∧
      s.cluster.view = l.view m.cluster := by
  obtain ⟨l, hl⟩ := exists_listing json walk hrec.stored
  obtain ⟨ids, hids⟩ := loadMetadata_eq json hrec hm hl
  exact ⟨l, hl, _, hids, Listing.view_loaded _ l rfl rfl⟩

theorem agree_of_view_eq {walk walk' : MapOrder (Text × V)} {l' : Listing}
    (h : l.Of json walk mf.store) (h' : l'.Of json walk' mf.store) {c' : Cluster}
    (heq : l.view c = l'.view c') : c.Agree json mf.store c' := by
  refine ⟨fun addr hno => ?_, fun addr hno => ?_, fun hno => ?_,
    congrArg (·.disableAutoAllocate) heq⟩
  · have hnone {walk : MapOrder (Text × V)} {l : Listing} (h : l.Of json walk mf.store) :
        l.dataNodes.reverse.find? (fun dnv => decide (dnv.addr = addr)) = none :=
      find?_eq_none.mpr fun dnv hd => by
        simpa using hno dnv ((h.dataNodes.mem_iff dnv).mp (mem_reverse.mp hd))
    have hview := congrFun (congrArg (·.dataNodes) heq) addr
    simpa [Listing.view, hnone h, hnone h'] using hview
  · have hnone {walk : MapOrder (Text × V)} {l : Listing} (h : l.Of json walk mf.store) :
        l.metaNodes.reverse.find? (fun mnv => decide (mnv.addr = addr)) = none :=
      find?_eq_none.mpr fun mnv hd => by
        simpa using hno mnv ((h.metaNodes.mem_iff mnv).mp (mem_reverse.mp hd))
    have hview := congrFun (congrArg (·.metaNodes) heq) addr
    simpa [Listing.view, hnone h, hnone h'] using hview
  · have hnil {walk : MapOrder (Text × V)} {l : Listing} (h : l.Of json walk mf.store) :
        l.clusters = [] :=
      eq_nil_iff_forall_not_mem.mpr fun cv hcv => hno cv ((h.clusters.mem_iff cv).mp hcv)
    have hview := congrArg (·.metaNodeThreshold) heq
    simpa [Listing.view, hnil h, hnil h'] using hview

/-- Loading gives the same view for every two walks over the maps just when the memories agree
where the store does not decide and no two records compete. -/
theorem loadMetadata_view_iff {mf : MetadataFsm V}
    (hreach : Reach (step json) (fun _ _ => True) new mf)
    {m m' : Server V} (hm : m.fsm.store = mf.store) (hm' : m'.fsm.store = mf.store)
    (hcfg : m.cluster.nodeSetCapacity = m'.cluster.nodeSetCapacity) :
    (∀ walk walk' s s', m.loadMetadata json walk = .ok s → m'.loadMetadata json walk' = .ok s' →
      s.cluster.view = s'.cluster.view) ↔
    m.cluster.Agree json mf.store m'.cluster ∧ Unambiguous json mf.store := by
  have hrec := recorded_of_reach hreach
  have hload := view_loadMetadata hrec hm
  have hload' := view_loadMetadata hrec hm'
  constructor
  · intro h
    -- what both leaders know after any two walks
    have hview walk walk' : ∃ l l' : Listing, l.Of json walk mf.store ∧ l'.Of json walk' mf.store ∧
        l.view m.cluster = l'.view m'.cluster := by
      obtain ⟨l, hl, s, hs, hsl⟩ := hload walk
      obtain ⟨l', hl', s', hs', hsl'⟩ := hload' walk'
      exact ⟨l, l', hl, hl', by rw [← hsl, ← hsl', h walk walk' s s' hs hs']⟩
    refine ⟨?_, ⟨?_, ?_, ?_, ?_⟩⟩
    · obtain ⟨l, l', hl, hl', heq⟩ := hview .asListed .asListed
      exact agree_of_view_eq hl hl' heq
    · intro cv cv' hcv hcv'
      obtain ⟨l, l', hl, hl', heq⟩ := hview (.endAt _) (.endAt _)
      obtain ⟨ys, hys⟩ := hcv.walked_endAt hl.clusters
      obtain ⟨ys', hys'⟩ := hcv'.walked_endAt hl'.clusters
      simpa [Listing.view, hys, hys'] using congrArg (·.metaNodeThreshold) heq
    · intro dnv dnv' hd hd' haddr
      obtain ⟨l, l', hl, hl', heq⟩ := hview (.endAt _) (.endAt _)
      obtain ⟨ys, hys⟩ := hd.walked_endAt hl.dataNodes
      obtain ⟨ys', hys'⟩ := hd'.walked_endAt hl'.dataNodes
      simpa [Listing.view, hys, hys', haddr] using congrFun (congrArg (·.dataNodes) heq) dnv'.addr
    · intro mnv mnv' hd hd' haddr
      obtain ⟨l, l', hl, hl', heq⟩ := hview (.endAt _) (.endAt _)
      obtain ⟨ys, hys⟩ := hd.walked_endAt hl.metaNodes
      obtain ⟨ys', hys'⟩ := hd'.walked_endAt hl'.metaNodes
      simpa [Listing.view, hys, hys', haddr] using congrFun (congrArg (·.metaNodes) heq) mnv'.addr
    · intro vv vv' hv hv' hname
      obtain ⟨l, l', hl, hl', heq⟩ := hview (.startAt _) (.startAt _)
      obtain ⟨ys, hys⟩ := hv.walked_startAt hl.vols
      obtain ⟨ys', hys'⟩ := hv'.walked_startAt hl'.vols
      have hvol := congrFun (congrArg (·.vols) heq) vv'.name
      simp only [Listing.view, hys, hys', hname, decide_true, find?_cons_of_pos,
        map_some, some.injEq] at hvol
      have hid : vv.id = vv'.id := congrArg (fun v => v.value.id) hvol
      refine hv.eq_of_key hv' ?_
      simp only [Table.vols, Record.key, hid]
  · rintro ⟨hagree, hone⟩ walk walk' s s' hs hs'
    obtain ⟨l, hl, s₁, hs₁, hsl⟩ := hload walk
    obtain ⟨l', hl', s₁', hs₁', hsl'⟩ := hload' walk'
    rw [hs] at hs₁
    rw [hs'] at hs₁'
    rw [Except.ok.inj hs₁, Except.ok.inj hs₁', hsl, hsl']
    exact hl.view_eq hl' hagree hone hcfg

def onlySampleVol (store : KeyStore Text Plain) : Bool :=
  store.items.all fun x => match x.2 with
    | .vol vv => vv = MetadataFsm.sampleVol
    | .cluster _ | .dataNode _ | .metaNode _ => false
    | _ => true

theorem loadMetadata_view_sample : ∃ mf : MetadataFsm Plain,
    Reach (step plain) (fun _ _ => True) new mf ∧
      ∀ walk walk' s s', loadMetadata plain walk ⟨mf, emptyFollower.cluster⟩ = .ok s →
        loadMetadata plain walk' ⟨mf, olderFollower.cluster⟩ = .ok s' →
        s.cluster.view = s'.cluster.view := by
  obtain ⟨mf, hreach, h⟩ := Reach.exists_checked (step plain) (fun _ _ => True)
    new sampleEntries (fun mf => onlySampleVol mf.store) (by decide +kernel)
  have hall {x : Text × Plain} (hx : mf.store.get x.1 = some x.2) :=
    all_eq_true.mp h x (KeyStore.mem_items.mpr hx)
  have hvol (vv : VolValue) (hv : (Table.vols plain).Holds mf.store vv) :
      vv = sampleVol := of_decide_eq_true (hall (x := (_, .vol vv)) hv)
  have hcluster (cv : ClusterValue) (hc : (Table.clusters plain).Holds mf.store cv) : False :=
    absurd (hall (x := (_, .cluster cv)) hc) Bool.false_ne_true
  have hdata (dnv : DataNodeValue) (hd : (Table.dataNodes plain).Holds mf.store dnv) : False :=
    absurd (hall (x := (_, .dataNode dnv)) hd) Bool.false_ne_true
  have hmeta (mnv : MetaNodeValue) (hm : (Table.metaNodes plain).Holds mf.store mnv) : False :=
    absurd (hall (x := (_, .metaNode mnv)) hm) Bool.false_ne_true
  refine ⟨mf, hreach, (loadMetadata_view_iff hreach rfl rfl rfl).mpr
    ⟨⟨?_, ?_, ?_, rfl⟩, ⟨?_, ?_, ?_, ?_⟩⟩⟩
  · exact fun _ _ => rfl
  · exact fun _ _ => rfl
  · exact fun _ => rfl
  · exact fun cv _ hc => (hcluster cv hc).elim
  · exact fun dnv _ hd => (hdata dnv hd).elim
  · exact fun mnv _ hm => (hmeta mnv hm).elim
  · exact fun vv vv' hv hv' _ => (hvol vv hv).trans (hvol vv' hv').symm

def sampleNode : DataNodeValue := { id := 1, nodeSetID := 1, addr := "a".toList }

def formerLeader : Cluster :=
  { (MetadataFsm.sampleCluster ∅).storeDataNode sampleNode with disableAutoAllocate := true }

/-- The node has left and automatic allocation is disabled; the former leader still has the node,
and the other one does not know the setting. -/
theorem loadMetadata_differs : ∃ mf : MetadataFsm Plain,
    Reach (step plain) (fun _ _ => True) new mf ∧
    mf.store.get (clusterKey "c".toList) = some (.cluster ⟨"c".toList, 0, true⟩) ∧
    mf.store.get (dataNodeKey 1 "a".toList) = none ∧
    ∃ s s', loadMetadata plain .asListed ⟨mf, formerLeader⟩ = .ok s ∧
      loadMetadata plain .asListed ⟨mf, sampleCluster ∅⟩ = .ok s' ∧
      s.cluster.view.dataNodes "a".toList = some sampleNode ∧
      s'.cluster.view.dataNodes "a".toList = none ∧
      s.cluster.view.disableAutoAllocate = true ∧ s'.cluster.view.disableAutoAllocate = false := by
  obtain ⟨mf, hreach, h⟩ := Reach.exists_checked (step plain) (fun _ _ => True)
    new
    [⟨.addDataNode, .dataNode sampleNode, 1⟩, ⟨.putCluster, .cluster ⟨"c".toList, 0, true⟩, 2⟩,
      ⟨.deleteDataNode, .dataNode sampleNode, 3⟩]
    (fun mf => decide
      (mf.store.get (clusterKey "c".toList) = some (.cluster ⟨"c".toList, 0, true⟩) ∧
      mf.store.get (dataNodeKey 1 "a".toList) = none) &&
      match loadMetadata plain .asListed ⟨mf, formerLeader⟩,
          loadMetadata plain .asListed ⟨mf, sampleCluster ∅⟩ with
      | .ok s, .ok s' => decide (s.cluster.view.dataNodes "a".toList = some sampleNode ∧
          s'.cluster.view.dataNodes "a".toList = none ∧
          s.cluster.view.disableAutoAllocate = true ∧
          s'.cluster.view.disableAutoAllocate = false)
      | _, _ => false) (by decide +kernel)
  obtain ⟨hstore, hview⟩ := Bool.and_eq_true_iff.mp h
  obtain ⟨hcluster, hnode⟩ := of_decide_eq_true hstore
  refine ⟨mf, hreach, hcluster, hnode, ?_⟩
  split at hview
  next s s' hs hs' => exact ⟨s, s', hs, hs', of_decide_eq_true hview⟩
  · exact absurd hview Bool.false_ne_true

end Server
end ChubaoFS.Master
