import ChubaoFS.Base.KeyStore
import Mathlib.Order.Lex
import Mathlib.Data.Char
import Mathlib.Data.List.Lex

namespace ChubaoFS.Master

open List

abbrev Text := List Char

instance lawfulBEqText : LawfulBEq Text := inferInstance

structure Peer where
  id : UInt64
  addr : Text
  deriving DecidableEq, Repr

/-! The value objects of the store. -/

structure ClusterValue where
  name : Text
  /-- The bits of the 32-bit float. -/
  threshold : UInt32
  disableAutoAllocate : Bool
  deriving DecidableEq, Repr

structure MetaPartitionValue where
  partitionID : UInt64
  start : UInt64
  endId : UInt64
  volID : UInt64
  replicaNum : UInt8
  status : Int8
  volName : Text
  hosts : Text
  peers : List Peer
  deriving DecidableEq, Repr

structure ReplicaValue where
  addr : Text
  diskPath : Text
  deriving DecidableEq, Repr

structure DataPartitionValue where
  partitionID : UInt64
  replicaNum : UInt8
  hosts : Text
  peers : List Peer
  status : Int8
  volID : UInt64
  volName : Text
  replicas : List ReplicaValue
  deriving DecidableEq, Repr

structure VolValue where
  id : UInt64
  name : Text
  replicaNum : UInt8
  status : UInt8
  dataPartitionSize : UInt64
  capacity : UInt64
  owner : Text
  deriving DecidableEq, Repr

structure DataNodeValue where
  id : UInt64
  nodeSetID : UInt64
  addr : Text
  deriving DecidableEq, Repr

structure MetaNodeValue where
  id : UInt64
  nodeSetID : UInt64
  addr : Text
  deriving DecidableEq, Repr

structure NodeSetValue where
  id : UInt64
  capacity : Int
  metaNodeLen : Int
  dataNodeLen : Int
  deriving DecidableEq, Repr

/-! Raft commands. -/

inductive Op
  -- the zero value of a command's operation
  | unset
  | addMetaNode
  | addDataNode
  | addDataPartition
  | addVol
  | addMetaPartition
  | updateDataPartition
  | updateMetaPartition
  | deleteDataNode
  | deleteMetaNode
  | allocDataPartitionID
  | allocMetaPartitionID
  | allocCommonID
  | putCluster
  | updateVol
  | deleteVol
  | deleteDataPartition
  | deleteMetaPartition
  | addNodeSet
  | updateNodeSet
  deriving DecidableEq, Repr

structure RaftCmd (V : Type) where
  op : Op
  k : Text
  v : V
  deriving DecidableEq, Repr

structure Coding (α V : Type) where
  marshal : α → V
  unmarshal : V → Option α
  unmarshal_marshal : ∀ a, unmarshal (marshal a) = some a

attribute [simp] Coding.unmarshal_marshal

/-- How values become byte strings: `encoding/json` for the objects and the commands, `strconv` for
the numbers. -/
structure Codec (V : Type) where
  cluster : Coding ClusterValue V
  nodeSet : Coding NodeSetValue V
  dataPartition : Coding DataPartitionValue V
  vol : Coding VolValue V
  metaPartition : Coding MetaPartitionValue V
  metaNode : Coding MetaNodeValue V
  dataNode : Coding DataNodeValue V
  uint : Coding UInt64 V
  cmd : Coding (RaftCmd V) V

/-! Keys. -/

def keySeparator : Char := '#'

def underlineSeparator : Char := '_'

def metaNodeAcronym : Text := "mn".toList
def dataNodeAcronym : Text := "dn".toList
def dataPartitionAcronym : Text := "dp".toList
def metaPartitionAcronym : Text := "mp".toList
def volAcronym : Text := "vol".toList
def clusterAcronym : Text := "c".toList
def nodeSetAcronym : Text := "s".toList

def maxDataPartitionIDKey : Text := keySeparator :: "max_dp_id".toList
def maxMetaPartitionIDKey : Text := keySeparator :: "max_mp_id".toList
def maxCommonIDKey : Text := keySeparator :: "max_common_id".toList

def applied : Text := "applied".toList

def keyPrefix (acronym : Text) : Text := keySeparator :: (acronym ++ [keySeparator])

def formatUint (n : UInt64) : Text := Nat.toDigits 10 n.toNat

def clusterKey (name : Text) : Text := keyPrefix clusterAcronym ++ name

def nodeSetKey (id : UInt64) : Text := keyPrefix nodeSetAcronym ++ formatUint id

def dataPartitionKey (volID partitionID : UInt64) : Text :=
  keyPrefix dataPartitionAcronym ++ (formatUint volID ++ keySeparator :: formatUint partitionID)

def volKey (id : UInt64) : Text := keyPrefix volAcronym ++ formatUint id

def metaPartitionKey (volID partitionID : UInt64) : Text :=
  keyPrefix metaPartitionAcronym ++ (formatUint volID ++ keySeparator :: formatUint partitionID)

def metaNodeKey (id : UInt64) (addr : Text) : Text :=
  keyPrefix metaNodeAcronym ++ (formatUint id ++ keySeparator :: addr)

def dataNodeKey (id : UInt64) (addr : Text) : Text :=
  keyPrefix dataNodeAcronym ++ (formatUint id ++ keySeparator :: addr)

theorem formatUint_inj {m n : UInt64} (h : formatUint m = formatUint n) : m = n := by
  have hof := congrArg (fun l => Nat.ofDigitChars 10 l 0) h
  simp only [formatUint, Nat.ofDigitChars_toDigits (by decide : 1 < 10) (le_refl 10)] at hof
  exact UInt64.toNat_inj.mp hof

theorem separator_not_mem_formatUint (n : UInt64) : keySeparator ∉ formatUint n := by
  intro h
  have hdigit := Nat.isDigit_of_mem_toDigits (by decide) (le_refl 10) h
  exact absurd hdigit (by decide)

theorem formatUint_append_inj {m n : UInt64} {a b : Text}
    (h : formatUint m ++ keySeparator :: a = formatUint n ++ keySeparator :: b) :
    m = n ∧ a = b := by
  have hsplit := congrArg (splitOn keySeparator) h
  rw [splitOn_append_cons_self_of_not_mem (separator_not_mem_formatUint m),
    splitOn_append_cons_self_of_not_mem (separator_not_mem_formatUint n)] at hsplit
  obtain rfl := formatUint_inj (cons.inj hsplit).1
  exact ⟨rfl, (cons.inj (append_cancel_left h)).2⟩

def setOpType (k : Text) : Op :=
  match k.splitOn keySeparator with
  | _ :: word :: _ =>
    if word = metaNodeAcronym then .addMetaNode
    else if word = dataNodeAcronym then .addDataNode
    else if word = dataPartitionAcronym then .addDataPartition
    else if word = metaPartitionAcronym then .addMetaPartition
    else if word = volAcronym then .addVol
    else if word = clusterAcronym then .putCluster
    else if word = nodeSetAcronym then .addNodeSet
    -- these three keys start with a separator, which a word never does
    else if word = maxDataPartitionIDKey then .allocDataPartitionID
    else if word = maxMetaPartitionIDKey then .allocMetaPartitionID
    else if word = maxCommonIDKey then .allocCommonID
    else .unset
  | _ => .unset

theorem splitOn_keyPrefix {acronym : Text} (h : keySeparator ∉ acronym) (rest : Text) :
    (keyPrefix acronym ++ rest).splitOn keySeparator =
      [] :: acronym :: rest.splitOn keySeparator := by
  have hcons : keyPrefix acronym ++ rest =
      [] ++ keySeparator :: (acronym ++ keySeparator :: rest) := by
    simp [keyPrefix]
  rw [hcons, splitOn_append_cons_self_of_not_mem not_mem_nil, splitOn_append_cons_self_of_not_mem h]

/-! What the master writes. -/

inductive Record
  | cluster (cv : ClusterValue)
  | nodeSet (nsv : NodeSetValue)
  | dataPartition (dpv : DataPartitionValue)
  | vol (vv : VolValue)
  | metaPartition (mpv : MetaPartitionValue)
  | metaNode (mnv : MetaNodeValue)
  | dataNode (dnv : DataNodeValue)
  | maxDataPartitionID (id : UInt64)
  | maxMetaPartitionID (id : UInt64)
  | maxCommonID (id : UInt64)
  deriving DecidableEq, Repr

namespace Record

def key : Record → Text
  | cluster cv => clusterKey cv.name
  | nodeSet nsv => nodeSetKey nsv.id
  | dataPartition dpv => dataPartitionKey dpv.volID dpv.partitionID
  | vol vv => volKey vv.id
  | metaPartition mpv => metaPartitionKey mpv.volID mpv.partitionID
  | metaNode mnv => metaNodeKey mnv.id mnv.addr
  | dataNode dnv => dataNodeKey dnv.id dnv.addr
  | maxDataPartitionID _ => maxDataPartitionIDKey
  | maxMetaPartitionID _ => maxMetaPartitionIDKey
  | maxCommonID _ => maxCommonIDKey

variable {V : Type} (json : Codec V)

def value : Record → V
  | cluster cv => json.cluster.marshal cv
  | nodeSet nsv => json.nodeSet.marshal nsv
  | dataPartition dpv => json.dataPartition.marshal dpv
  | vol vv => json.vol.marshal vv
  | metaPartition mpv => json.metaPartition.marshal mpv
  | metaNode mnv => json.metaNode.marshal mnv
  | dataNode dnv => json.dataNode.marshal dnv
  | maxDataPartitionID id | maxMetaPartitionID id | maxCommonID id => json.uint.marshal id

def ops : Record → List Op
  | cluster _ => [.putCluster]
  | nodeSet _ => [.addNodeSet, .updateNodeSet]
  | dataPartition _ => [.addDataPartition, .updateDataPartition, .deleteDataPartition]
  | vol _ => [.addVol, .updateVol, .deleteVol]
  | metaPartition _ => [.addMetaPartition, .updateMetaPartition, .deleteMetaPartition]
  | metaNode _ => [.addMetaNode, .deleteMetaNode]
  | dataNode _ => [.addDataNode, .deleteDataNode]
  | maxDataPartitionID _ => [.allocDataPartitionID]
  | maxMetaPartitionID _ => [.allocMetaPartitionID]
  | maxCommonID _ => [.allocCommonID]

/-- `putVolInfo`, `putMetaPartitionInfo` and the other builders of commands. -/
def cmd (op : Op) (r : Record) : RaftCmd V := ⟨op, r.key, r.value json⟩

def snapshotOp : Record → Op
  | cluster _ => .putCluster
  | nodeSet _ => .addNodeSet
  | dataPartition _ => .addDataPartition
  | vol _ => .addVol
  | metaPartition _ => .addMetaPartition
  | metaNode _ => .addMetaNode
  | dataNode _ => .addDataNode
  | maxDataPartitionID _ | maxMetaPartitionID _ | maxCommonID _ => .unset

theorem setOpType_key (r : Record) : setOpType r.key = r.snapshotOp := by
  cases r with
  | maxDataPartitionID id => exact (by decide : setOpType maxDataPartitionIDKey = .unset)
  | maxMetaPartitionID id => exact (by decide : setOpType maxMetaPartitionIDKey = .unset)
  | maxCommonID id => exact (by decide : setOpType maxCommonIDKey = .unset)
  | _ =>
    simp only [key, clusterKey, nodeSetKey, dataPartitionKey, volKey, metaPartitionKey, metaNodeKey,
      dataNodeKey, setOpType]
    rw [splitOn_keyPrefix (by decide)]
    rfl

def partitionVol : Record → Option Text
  | dataPartition dpv => some dpv.volName
  | metaPartition mpv => some mpv.volName
  | _ => none

theorem key_ne_applied (r : Record) : r.key ≠ applied := by
  have hhead : r.key.head? = some keySeparator := by cases r <;> rfl
  intro h
  rw [h] at hhead
  exact absurd hhead (by decide)

end Record

/-! An encoding that keeps the values as they are. -/

inductive Plain
  | cluster (cv : ClusterValue)
  | nodeSet (nsv : NodeSetValue)
  | dataPartition (dpv : DataPartitionValue)
  | vol (vv : VolValue)
  | metaPartition (mpv : MetaPartitionValue)
  | metaNode (mnv : MetaNodeValue)
  | dataNode (dnv : DataNodeValue)
  | uint (n : UInt64)
  | cmd (op : Op) (k : Text) (v : Plain)
  deriving DecidableEq, Repr

def plain : Codec Plain where
  cluster := ⟨.cluster, fun | .cluster cv => some cv | _ => none, fun _ => rfl⟩
  nodeSet := ⟨.nodeSet, fun | .nodeSet nsv => some nsv | _ => none, fun _ => rfl⟩
  dataPartition := ⟨.dataPartition, fun | .dataPartition dpv => some dpv | _ => none, fun _ => rfl⟩
  vol := ⟨.vol, fun | .vol vv => some vv | _ => none, fun _ => rfl⟩
  metaPartition := ⟨.metaPartition, fun | .metaPartition mpv => some mpv | _ => none, fun _ => rfl⟩
  metaNode := ⟨.metaNode, fun | .metaNode mnv => some mnv | _ => none, fun _ => rfl⟩
  dataNode := ⟨.dataNode, fun | .dataNode dnv => some dnv | _ => none, fun _ => rfl⟩
  uint := ⟨.uint, fun | .uint n => some n | _ => none, fun _ => rfl⟩
  cmd := ⟨fun c => .cmd c.op c.k c.v, fun | .cmd op k v => some ⟨op, k, v⟩ | _ => none,
    fun _ => rfl⟩

end ChubaoFS.Master
