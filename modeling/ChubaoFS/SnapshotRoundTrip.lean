import ChubaoFS.PartitionRefine
import ChubaoFS.SnapshotFile

namespace ChubaoFS

open List OrdTree UInt64 Option UInt32
open UInt64 (le_of_lt le_refl not_lt le_trans)
open LoadErr (record)

open Bytes

/-! Loading what was stored. -/

namespace InodeOf

theorem marshal_eq (i : Inode) : i.marshal = putUInt32 8 ++ (i.marshalKey ++
    (putUInt32 (UInt32.ofNat i.marshalValue.length) ++ i.marshalValue)) := by
  have hkey : UInt32.ofNat i.marshalKey.length = 8 := by simp [marshalKey]
  rw [marshal, putSized, putSized, hkey, List.append_assoc]

theorem length_marshal (i : Inode) : i.marshal.length = 16 + i.marshalValue.length := by
  rw [marshal_eq]
  simp only [length_append, length_putUInt32, marshalKey, length_putUInt64]
  omega

theorem unmarshal_fields (i j : Inode) {k : Nat} (hk : k = i.marshalValue.length % 2 ^ 32) :
    j.unmarshal (putUInt32 8 ++ (i.marshalKey ++
        (putUInt32 (UInt32.ofNat i.marshalValue.length) ++ i.marshalValue.take k))) =
      (unmarshalValue.result { j with inode := i.inode } (i.marshalValue.take k)).mapError
        SnapErr.ofRead := by
  have hkey : i.marshalKey.length = (8 : UInt32).toNat := by simp [marshalKey]
  have hlen : (UInt32.ofNat i.marshalValue.length).toNat = k := by
    rw [hk]
    simp
  have hval : readSlice k (i.marshalValue.take k) = .ok (i.marshalValue.take k, []) := by
    have hle : (i.marshalValue.take k).length = k :=
      List.length_take_of_le (by rw [hk]; exact Nat.mod_le _ _)
    have hread := readSlice_append [] hle
    rwa [List.append_nil] at hread
  unfold unmarshal
  simp only [readUInt32_put, Except.mapError, bind, Except.bind, readSlice_append _ hkey,
    unmarshalKey_marshalKey, Option.elim_some, hlen, hval]

variable {i j : Inode} {i' : Inode}

theorem unmarshal_marshal (h : i.marshal.length < 2 ^ 32) (hj : j.linkTarget = [])
    (he : j.extents = empty) : j.unmarshal i.marshal = .ok i := by
  have hlen := i.length_marshal
  have hvalue := i.length_marshalValue
  have hk : i.marshalValue.length = i.marshalValue.length % 2 ^ 32 :=
    (Nat.mod_eq_of_lt (by omega)).symm
  have hread := unmarshal_fields i j hk
  rw [take_length] at hread
  have hexec := unmarshalValue_marshalValue (j := { j with inode := i.inode })
    (by omega : i.linkTarget.length < 2 ^ 32) hj he
  rw [marshal_eq, hread, Decode.result_of_exec hexec]
  rfl

theorem length_of_unmarshal {m : Nat} (h : j.unmarshal (i.marshal.take m) = .ok i') : 16 ≤ m := by
  unfold unmarshal at h
  obtain ⟨p, hp, h⟩ := bind_eq_ok h
  obtain ⟨q, hq, h⟩ := bind_eq_ok h
  obtain ⟨k, -, h⟩ := bind_eq_ok h
  obtain ⟨r, hr, -⟩ := bind_eq_ok h
  have hp := mapError_eq_ok hp
  have hlen := length_of_readUInt32 _ _ _ hp
  have hrest := (length_of_readSlice (mapError_eq_ok hq)).2
  have hval := length_of_readUInt32 _ _ _ (mapError_eq_ok hr)
  have htake := List.length_take_le m i.marshal
  rw [marshal_eq] at hp
  have hkey : p.1.toNat = 8 := congrArg UInt32.toNat (readUInt32_take hp)
  omega

theorem unmarshal_cut (ht : i.linkTarget.length < 2 ^ 32) (h : 2 ^ 32 ≤ i.marshal.length)
    (hj : j.linkTarget = []) (he : j.extents = empty)
    (hr : j.unmarshal (i.marshal.take (i.marshal.length % 2 ^ 32)) = .ok i') :
    i'.inode = i.inode ∧ i'.extents.length < i.extents.length := by
  have hlen := i.length_marshal
  have hmod := Nat.mod_lt i.marshal.length (Nat.two_pow_pos 32)
  have hkey : i.marshalKey.length = 8 := by simp [marshalKey]
  generalize hm : i.marshal.length % 2 ^ 32 = m at hr hmod
  have hfields := length_of_unmarshal hr
  have htake : i.marshal.take m = putUInt32 8 ++ (i.marshalKey ++
      (putUInt32 (ofNat i.marshalValue.length) ++ i.marshalValue.take (m - 16))) := by
    have hm : m = (putUInt32 8 ++ (i.marshalKey ++
        putUInt32 (ofNat i.marshalValue.length))).length + (m - 16) := by
      simp only [length_append, hkey, length_putUInt32]
      omega
    rw [marshal_eq, hm]
    simp only [← append_assoc]
    rw [take_length_add_append]
    congr
  have hk : m - 16 = i.marshalValue.length % 2 ^ 32 := by omega
  rw [htake, unmarshal_fields i j hk] at hr
  have hexec := Decode.exec_of_result (mapError_eq_ok hr)
  have hid := unmarshalValue_keeps_inode.exec { j with inode := i.inode }
    (i.marshalValue.take (m - 16))
  have hcut := unmarshalValue_take (j := { j with inode := i.inode })
    (k := m - 16) ht hj he (by omega)
  rw [hexec] at hid hcut
  obtain ⟨e, herr⟩ | hfew := hcut
  · cases herr
  · exact ⟨hid, hfew⟩

end InodeOf

namespace Dentry

theorem length_marshal (d : Dentry) : d.marshal.length = 28 + d.name.length := by
  simp only [marshal, putSized, marshalKey, marshalValue, length_append, length_putUInt32,
    length_putUInt64]
  omega

theorem length_marshalKey (d : Dentry) : d.marshalKey.length = 8 + d.name.length := by
  rw [marshalKey, length_append, length_putUInt64]

theorem unmarshalKey_marshalKey (d d' : Dentry) :
    unmarshalKey.result d' d.marshalKey = .ok { d' with parentId := d.parentId, name := d.name } :=
    by
  refine Decode.result_of_exec ?_
  unfold Decode.exec unmarshalKey marshalKey
  rw [field_bind (readUInt64_put _ _)]
  rfl

theorem unmarshalValue_marshalValue (d d' : Dentry) :
    unmarshalValue.result d' d.marshalValue = .ok { d' with inode := d.inode, type := d.type } := by
  have htype := readUInt32_put d.type []
  rw [append_nil] at htype
  refine Decode.result_of_exec ?_
  unfold Decode.exec unmarshalValue marshalValue
  rw [field_bind (readUInt64_put _ _), field_eq htype]

variable {d d' : Dentry}

theorem unmarshal_marshal (h : d.marshal.length < 2 ^ 32) : d'.unmarshal d.marshal = .ok d := by
  have hlen := d.length_marshal
  have hkey : d.marshalKey.length = (UInt32.ofNat d.marshalKey.length).toNat := by
    have hlt : d.marshalKey.length < 2 ^ 32 := by
      rw [length_marshalKey]
      omega
    exact (UInt32.toNat_ofNat_of_lt' hlt).symm
  have hval : d.marshalValue.length = (UInt32.ofNat d.marshalValue.length).toNat := by
    simp [marshalValue]
  have hslice := readSlice_append [] hval
  rw [List.append_nil] at hslice
  unfold unmarshal marshal putSized
  simp only [List.append_assoc, readUInt32_put, Except.mapError, bind, Except.bind,
    readSlice_append _ hkey, unmarshalKey_marshalKey, hslice, unmarshalValue_marshalValue]

theorem length_of_unmarshalKey {b : Bytes} (h : unmarshalKey.result d b = .ok d') :
    8 ≤ b.length := by
  by_contra hlt
  have hread : Decode.Consumes 8 (field (σ := Dentry) readUInt64
      fun x d => { d with parentId := x }) := Decode.Consumes.field length_of_readUInt64 _
  obtain ⟨e, t, he⟩ := hread.short d (Nat.lt_of_not_le hlt)
  have hexec := Decode.exec_of_result h
  simp only [Decode.exec, unmarshalKey, bind, EStateM.bind, he] at hexec
  cases hexec

theorem unmarshal_cut {d'' : Dentry} (hn : d.name.length < 2 ^ 32) (h : 2 ^ 32 ≤ d.marshal.length) :
    d'.unmarshal (d.marshal.take (d.marshal.length % 2 ^ 32)) ≠ .ok d'' := by
  intro hr
  have hlen := d.length_marshal
  have htake := List.length_take_le (d.marshal.length % 2 ^ 32) d.marshal
  unfold unmarshal at hr
  obtain ⟨p, hp, hr⟩ := bind_eq_ok hr
  obtain ⟨q, hq, hr⟩ := bind_eq_ok hr
  obtain ⟨k, hk, hr⟩ := bind_eq_ok hr
  obtain ⟨r, hr, -⟩ := bind_eq_ok hr
  have hp := mapError_eq_ok hp
  have hplen := length_of_readUInt32 _ _ _ hp
  obtain ⟨hqkey, hqlen⟩ := length_of_readSlice (mapError_eq_ok hq)
  have hkey := length_of_unmarshalKey (mapError_eq_ok hk)
  have hval := length_of_readUInt32 _ _ _ (mapError_eq_ok hr)
  have hfront : p.1 = UInt32.ofNat d.marshalKey.length := by
    rw [marshal, putSized, List.append_assoc] at hp
    exact readUInt32_take hp
  have hsize : p.1.toNat = (8 + d.name.length) % 2 ^ 32 := by
    rw [hfront, length_marshalKey]
    simp
  omega

end Dentry

namespace PartitionValue

theorem get?_createInode (v : PartitionValue) (ino : Inode) (k : Nat) :
    (v.createInode ino).inodeTree.get? k =
      if k = ino.key then some ((v.inodeTree.get? k).getD ino) else v.inodeTree.get? k := by
  unfold createInode inode?
  dsimp only
  cases hi : v.inodeTree.get? ino.inode.toNat with
  | none =>
    rw [if_neg (by simp), get?_insert]
    split
    next hk =>
      have hnone : v.inodeTree.get? k = none := hk ▸ hi
      rw [hnone, getD_none]
    · rfl
  | some i =>
    rw [if_pos isSome_some]
    split
    next hk =>
      have hsome : v.inodeTree.get? k = some i := hk ▸ hi
      rw [hsome, getD_some]
    · rfl

variable {v : PartitionValue} {ino : Inode}

theorem inode?_createInode (ino : Inode) {x : UInt64} {i : Inode} (h : v.inode? x = some i) :
    (v.createInode ino).inode? x = some i := by
  unfold inode? at h ⊢
  rw [get?_createInode, h, getD_some, ite_self]

theorem inode?_createInode_self (h : v.inode? ino.inode = none) :
    (v.createInode ino).inode? ino.inode = some ino := by
  unfold inode? at h ⊢
  rw [get?_createInode, h, getD_none]
  exact if_pos rfl

theorem inode?_createInode_of_lt {j : Inode} (h : ino.key < j.key) :
    (v.createInode ino).inode? j.inode = v.inode? j.inode := by
  unfold inode?
  rw [get?_createInode]
  exact if_neg (Nat.ne_of_gt h)

theorem inodeTree_foldl_createInode (l : List Inode) (v : PartitionValue)
    (hs : l.Pairwise fun i j => i.key < j.key) (hnew : ∀ i ∈ l, v.inode? i.inode = none) :
    (l.foldl createInode v).inodeTree = l.foldl OrdTree.insert v.inodeTree := by
  induction l generalizing v with
  | nil => rfl
  | cons i l ih =>
    obtain ⟨hlt, hs⟩ := List.pairwise_cons.mp hs
    have hi : (v.createInode i).inodeTree = v.inodeTree.insert i := by
      unfold createInode
      dsimp only
      rw [hnew i List.mem_cons_self]
      exact if_neg (by simp)
    rw [List.foldl_cons, List.foldl_cons, ← hi]
    refine ih _ hs fun j hj => ?_
    rw [inode?_createInode_of_lt (hlt j hj)]
    exact hnew j (List.mem_cons_of_mem i hj)

theorem cursor_createInode (v : PartitionValue) (ino : Inode) :
    v.cursor ≤ (v.createInode ino).cursor ∧ ino.inode ≤ (v.createInode ino).cursor := by
  unfold createInode
  dsimp only
  split
  next h => exact ⟨le_of_lt h, le_refl _⟩
  next h => exact ⟨le_refl _, not_lt.mp h⟩

theorem cursor_foldl_createInode (l : List Inode) (v : PartitionValue) :
    v.cursor ≤ (l.foldl createInode v).cursor ∧
      ∀ i ∈ l, i.inode ≤ (l.foldl createInode v).cursor := by
  induction l generalizing v with
  | nil => exact ⟨le_refl _, nofun⟩
  | cons i l ih =>
    obtain ⟨hv, hi⟩ := v.cursor_createInode i
    obtain ⟨hrest, hall⟩ := ih (v.createInode i)
    refine ⟨le_trans hv hrest, fun j hj => ?_⟩
    obtain rfl | hj := List.mem_cons.mp hj
    · exact le_trans hi hrest
    · exact hall j hj

end PartitionValue

namespace MetaPartition

variable {mp : MetaPartition}

theorem value_loadInode (hown : mp.OwnsExtents) (ino : Inode) :
    (mp.loadInode ino).value = mp.value.createInode ino := by
  have hrest : (mp.loadInode ino).exts = (load mp.exts ino).1 ∧
      (mp.loadInode ino).endId = mp.endId ∧
      (mp.loadInode ino).cursor = (mp.value.createInode ino).cursor ∧
      (mp.loadInode ino).dentryTree = mp.dentryTree := by
    unfold loadInode
    dsimp only
    cases mp.inode? ino.inode <;> dsimp only <;> split <;> exact ⟨rfl, rfl, rfl, rfl⟩
  obtain ⟨hexts, hend, hcursor, hdentry⟩ := hrest
  refine PartitionValue.ext_get? hend hcursor ?_ hdentry
  intro k
  rw [PartitionValue.get?_createInode, get?_value, get?_value, hexts,
    ← hown.storeInode_allocAll ino.extents.items k]
  cases hfound : mp.inode? ino.inode with
  | none =>
    have hkey : InodeOf.key (load mp.exts ino).2 = ino.key := rfl
    rw [(loadInode_new hfound).1, ObjTree.get?_insert, hkey]
    split
    next hk =>
      have hnone : mp.inodeTree.get? k = none := hk ▸ hfound
      rw [hnone]
      exact congrArg some (storeInode_of_image (load_image mp.exts ino))
    · rfl
  | some j =>
    have hsame : (mp.loadInode ino).inodeTree.get? k = mp.inodeTree.get? k := by
      unfold loadInode
      rw [hfound]
      dsimp only
      split <;> exact ObjTree.get?_alloc _ _ _
    rw [hsame]
    split
    next hk =>
      have hsome : mp.inodeTree.get? k = some j := hk ▸ hfound
      rw [hsome]
      rfl
    · rfl

theorem value_foldl_loadInode (l : List Inode) (hown : mp.OwnsExtents) :
    (l.foldl loadInode mp).value = l.foldl PartitionValue.createInode mp.value ∧
      (l.foldl loadInode mp).OwnsExtents := by
  induction l generalizing mp with
  | nil => exact ⟨rfl, hown⟩
  | cons i l ih =>
    rw [foldl_cons, foldl_cons, ← value_loadInode hown]
    exact ih (hown.loadInode i)

variable {i : Inode}

theorem putInode_marshal (mp : MetaPartition) (now : Int64) (h : i.marshal.length < 2 ^ 32) :
    putInode now mp i.marshal = .ok (mp.loadInode i) := by
  unfold putInode
  rw [InodeOf.unmarshal_marshal h rfl rfl]

theorem readFile_inodes {l : List Inode} (now : Int64) (mp : MetaPartition)
    (h : ∀ i ∈ l, i.marshal.length < 2 ^ 32) :
    readFile (record .inode) (putInode now) mp (l.flatMap fun i => putSized i.marshal) =
      .ok (l.foldl loadInode mp) := by
  induction l generalizing mp with
  | nil => rfl
  | cons i l ih =>
    obtain ⟨hi, hl⟩ := forall_mem_cons.mp h
    rw [flatMap_cons, readFile_putSized_of_lt mp hi, putInode_marshal mp now hi]
    exact ih _ hl

variable {mp' : MetaPartition} {now : Int64} {body : Bytes} {l : List Dentry}

theorem inode?_putInode {x : UInt64} (h : mp.OwnsExtents ∧ mp.value.inode? x = some i)
    (hput : putInode now mp body = .ok mp') : mp'.OwnsExtents ∧ mp'.value.inode? x = some i := by
  unfold putInode at hput
  split at hput
  · cases hput
  rename_i ino hino
  cases hput
  refine ⟨h.1.loadInode ino, ?_⟩
  rw [value_loadInode h.1]
  exact PartitionValue.inode?_createInode ino h.2

theorem readFile_inode_cut {rest : Bytes}
    (hown : mp.OwnsExtents) (hnew : mp.value.inode? i.inode = none)
    (ht : i.linkTarget.length < 2 ^ 32) (hlong : 2 ^ 32 ≤ i.marshal.length)
    (h : readFile (record .inode) (putInode now) mp (putSized i.marshal ++ rest) =
      .ok mp') : mp'.value.inode? i.inode ≠ some i := by
  rw [readFile_putSized] at h
  obtain ⟨mp₁, hput, h⟩ := bind_eq_ok h
  unfold putInode at hput
  split at hput
  · cases hput
  rename_i j hj
  cases hput
  obtain ⟨hid, hfew⟩ := InodeOf.unmarshal_cut ht hlong rfl rfl hj
  have hfound : (mp.loadInode j).value.inode? i.inode = some j := by
    rw [← hid] at hnew ⊢
    rw [value_loadInode hown]
    exact PartitionValue.inode?_createInode_self hnew
  have hkept := readRecords_invariant
    (fun _ _ _ hs hput => inode?_putInode hs hput) ⟨hown.loadInode j, hfound⟩ h
  rw [hkept.2]
  intro heq
  cases heq
  omega

theorem readFile_inodes_cut {l : List Inode}
    (hown : mp.OwnsExtents) (hs : l.Pairwise fun i j => i.key < j.key)
    (hnew : ∀ i ∈ l, mp.value.inode? i.inode = none)
    (ht : ∀ i ∈ l, i.linkTarget.length < 2 ^ 32) (hlong : ∃ i ∈ l, 2 ^ 32 ≤ i.marshal.length)
    (h : readFile (record .inode) (putInode now) mp
      (l.flatMap fun i => putSized i.marshal) = .ok mp') :
    ∃ i ∈ l, mp'.value.inode? i.inode ≠ some i := by
  induction l generalizing mp with
  | nil =>
    obtain ⟨i, hi, -⟩ := hlong
    cases hi
  | cons i l ih =>
    obtain ⟨hlt, hs⟩ := pairwise_cons.mp hs
    rw [flatMap_cons] at h
    have hi := hnew i mem_cons_self
    by_cases hfit : i.marshal.length < 2 ^ 32
    · rw [readFile_putSized_of_lt mp hfit, putInode_marshal mp now hfit] at h
      have hrest : ∃ j ∈ l, 2 ^ 32 ≤ j.marshal.length := by
        obtain ⟨j, hj, hlong⟩ := hlong
        obtain rfl | hj := mem_cons.mp hj
        · omega
        · exact ⟨j, hj, hlong⟩
      have hnew' (j : Inode) (hj : j ∈ l) : (mp.loadInode i).value.inode? j.inode = none := by
        rw [value_loadInode hown, PartitionValue.inode?_createInode_of_lt (hlt j hj)]
        exact hnew j (mem_cons_of_mem i hj)
      obtain ⟨j, hj, hne⟩ := ih (hown.loadInode i) hs hnew'
        (fun j hj => ht j (mem_cons_of_mem i hj)) hrest h
      exact ⟨j, mem_cons_of_mem i hj, hne⟩
    · exact ⟨i, mem_cons_self, readFile_inode_cut hown hi (ht i mem_cons_self)
        (Nat.le_of_not_lt hfit) h⟩

theorem putDentry_marshal {d : Dentry} (h : d.marshal.length < 2 ^ 32)
    (hnew : mp.dentryTree.get? d.key = none) :
    putDentry mp d.marshal = .ok { mp with dentryTree := mp.dentryTree.insert d } := by
  unfold putDentry fsmForceDentry
  rw [Dentry.unmarshal_marshal h]
  dsimp only
  rw [hnew]
  exact if_pos rfl

theorem readFile_dentries (mp : MetaPartition) (hs : l.Pairwise fun d e => d.key < e.key)
    (hnew : ∀ d ∈ l, mp.dentryTree.get? d.key = none) (h : ∀ d ∈ l, d.marshal.length < 2 ^ 32) :
    readFile (record .dentry) putDentry mp (l.flatMap fun d => putSized d.marshal) =
      .ok { mp with dentryTree := l.foldl insert mp.dentryTree } := by
  induction l generalizing mp with
  | nil => rfl
  | cons d l ih =>
    obtain ⟨hd, hl⟩ := forall_mem_cons.mp h
    obtain ⟨hlt, hs⟩ := pairwise_cons.mp hs
    rw [flatMap_cons, readFile_putSized_of_lt mp hd, putDentry_marshal hd (hnew d mem_cons_self)]
    refine ih _ hs (fun e he => ?_) hl
    rw [get?_insert, if_neg (ne_of_gt (hlt e he))]
    exact hnew e (mem_cons_of_mem d he)

theorem readFile_dentries_cut
    (hs : l.Pairwise fun d e => d.key < e.key) (hnew : ∀ d ∈ l, mp.dentryTree.get? d.key = none)
    (hn : ∀ d ∈ l, d.name.length < 2 ^ 32)
    (h : readFile (record .dentry) putDentry mp (l.flatMap fun d => putSized d.marshal) =
      .ok mp') : ∀ d ∈ l, d.marshal.length < 2 ^ 32 := by
  induction l generalizing mp with
  | nil => exact nofun
  | cons d l ih =>
    obtain ⟨hlt, hs⟩ := pairwise_cons.mp hs
    rw [flatMap_cons] at h
    by_cases hfit : d.marshal.length < 2 ^ 32
    · rw [readFile_putSized_of_lt mp hfit, putDentry_marshal hfit (hnew d mem_cons_self)] at h
      refine forall_mem_cons.mpr ⟨hfit, ih hs (fun e he => ?_)
        (fun e he => hn e (mem_cons_of_mem d he)) h⟩
      dsimp only
      rw [get?_insert, if_neg (ne_of_gt (hlt e he))]
      exact hnew e (mem_cons_of_mem d he)
    rw [readFile_putSized] at h
    obtain ⟨mp₁, hput, -⟩ := bind_eq_ok h
    unfold putDentry at hput
    split at hput
    · cases hput
    next e he =>
      exact absurd he (Dentry.unmarshal_cut (hn d mem_cons_self) (Nat.le_of_not_lt hfit))

theorem scanApplyID_applyIDFile (applyID cursor : UInt64) :
    scanApplyID (applyIDFile applyID cursor) = some (applyID, cursor) := by
  have hdigit : isDigit bar = false := by decide
  have hfirst := scanUInt64_putDecimal applyID (bar :: putDecimal cursor.toNat)
    fun d hd => some.inj hd ▸ hdigit
  have hsecond := scanUInt64_putDecimal cursor [] nofun
  have hbar : (applyIDFile applyID cursor).contains bar = true := by simp [applyIDFile]
  rw [append_nil] at hsecond
  unfold scanApplyID
  rw [hbar]
  unfold applyIDFile
  rw [hfirst]
  dsimp only
  rw [if_pos rfl, if_pos rfl, hsecond]
  rfl

variable (mp)

theorem loadApplyID_applyIDFile (applyID cursor : UInt64) :
    mp.loadApplyID (some (applyIDFile applyID cursor)) =
      .ok ({ mp with cursor := if cursor > mp.cursor then cursor else mp.cursor }, applyID) := by
  have hne : applyIDFile applyID cursor ≠ [] := by simp [applyIDFile]
  unfold loadApplyID
  dsimp only
  rw [if_neg hne, scanApplyID_applyIDFile]

theorem dentryTree_loadInode (ino : Inode) : (mp.loadInode ino).dentryTree = mp.dentryTree := by
  unfold loadInode
  dsimp only
  cases mp.inode? ino.inode <;> dsimp only <;> split <;> rfl

variable {mp}

theorem dentryTree_putInode {t : DentryTree} (h : mp.dentryTree = t)
    (hput : putInode now mp body = .ok mp') : mp'.dentryTree = t := by
  unfold putInode at hput
  split at hput
  · cases hput
  next ino hino =>
    cases hput
    rw [dentryTree_loadInode, h]

theorem inodeTree_putDentry {t : InodeTree} (h : mp.value.inodeTree = t)
    (hput : putDentry mp body = .ok mp') : mp'.value.inodeTree = t := by
  unfold putDentry fsmForceDentry at hput
  split at hput
  · cases hput
  rename_i d hd
  cases hfound : mp.dentryTree.get? d.key with
  | none =>
    rw [hfound] at hput
    dsimp only at hput
    rw [if_pos rfl] at hput
    cases hput
    exact h
  | some e =>
    rw [hfound] at hput
    dsimp only at hput
    split at hput
    · cases hput
    · cases hput

variable {applyID : UInt64}

theorem inodeTree_loadApplyID {data : Option Bytes} (h : mp.loadApplyID data = .ok (mp', applyID)) :
    mp'.value.inodeTree = mp.value.inodeTree := by
  unfold loadApplyID at h
  split at h
  · obtain ⟨rfl, -⟩ := Prod.mk.inj (Except.ok.inj h)
    rfl
  split at h
  · cases h
  split at h
  · cases h
  · obtain ⟨rfl, -⟩ := Prod.mk.inj (Except.ok.inj h)
    rfl

variable {cursor : UInt64} {files : SnapshotFiles}

theorem applyID_of_loadDir {applyID' : UInt64}
    (h : mp.loadDir now (files.dir applyID cursor) = .ok (mp', applyID')) : applyID' = applyID := by
  obtain ⟨mp₁, -, h⟩ := bind_eq_ok h
  obtain ⟨mp₂, -, h⟩ := bind_eq_ok h
  unfold SnapshotFiles.dir at h
  dsimp only at h
  rw [loadApplyID_applyIDFile] at h
  exact (Prod.mk.inj (Except.ok.inj h)).2.symm

theorem loadDir_of_fits (start endId applyID cursor : UInt64) (now : Int64)
    (hi : ∀ i ∈ files.inodeTree.items, i.marshal.length < 2 ^ 32)
    (hd : ∀ d ∈ files.dentryTree.items, d.marshal.length < 2 ^ 32) :
    ∃ mp, (new start endId).loadDir now (files.dir applyID cursor) = .ok (mp, applyID) ∧
      mp.store .live = files ∧ cursor ≤ mp.cursor ∧
      ∀ i ∈ files.inodeTree.items, i.inode ≤ mp.cursor := by
  obtain ⟨hvalue, -⟩ := value_foldl_loadInode files.inodeTree.items (ownsExtents_new start endId)
  obtain ⟨-, hcursor⟩ := PartitionValue.cursor_foldl_createInode files.inodeTree.items
    (new start endId).value
  have htree := PartitionValue.inodeTree_foldl_createInode files.inodeTree.items
    (new start endId).value files.inodeTree.sorted fun _ _ => rfl
  have hino := readFile_inodes now (new start endId) hi
  have hempty : (files.inodeTree.items.foldl loadInode (new start endId)).dentryTree =
      OrdTree.empty :=
    readRecords_invariant (fun _ _ _ hs hput => dentryTree_putInode hs hput) rfl hino
  rw [← hvalue] at hcursor htree
  generalize files.inodeTree.items.foldl loadInode (new start endId) = mp at *
  have hden := readFile_dentries mp files.dentryTree.sorted
    (fun d _ => by rw [hempty]; rfl) hd
  rw [hempty, OrdTree.foldl_insert_items] at hden
  have happly := loadApplyID_applyIDFile { mp with dentryTree := files.dentryTree } applyID cursor
  refine ⟨{ mp with
    dentryTree := files.dentryTree
    cursor := if cursor > mp.cursor then cursor else mp.cursor }, ?_, ?_, ?_, fun i hi => ?_⟩
  · unfold loadDir SnapshotFiles.dir loadFile inodeFile dentryFile
    dsimp only
    rw [hino]
    dsimp only [bind, Except.bind]
    rw [hden]
    exact happly
  · have hinodes : mp.value.inodeTree = files.inodeTree :=
      htree.trans (OrdTree.foldl_insert_items _)
    cases files
    cases hinodes
    rfl
  · dsimp only
    split
    · exact le_refl _
    next h => exact not_lt.mp h
  · have hle : i.inode ≤ mp.cursor := hcursor i hi
    dsimp only
    split
    next h => exact le_trans hle (le_of_lt h)
    · exact hle

theorem dentries_fit_of_loadDir {start endId : UInt64} {r : MetaPartition × UInt64}
    (hn : ∀ d ∈ files.dentryTree.items, d.name.length < 2 ^ 32)
    (h : (new start endId).loadDir now (files.dir applyID cursor) = .ok r) :
    ∀ d ∈ files.dentryTree.items, d.marshal.length < 2 ^ 32 := by
  obtain ⟨mp₁, hino, h⟩ := bind_eq_ok h
  obtain ⟨mp₂, hden, -⟩ := bind_eq_ok h
  have hdentry : mp₁.dentryTree = empty :=
    readRecords_invariant (fun _ _ _ hs hput => dentryTree_putInode hs hput) rfl hino
  refine readFile_dentries_cut files.dentryTree.sorted (fun d _ => ?_) hn hden
  rw [hdentry]
  rfl

theorem fits_of_loadDir {start endId : UInt64}
    (ht : ∀ i ∈ files.inodeTree.items, i.linkTarget.length < 2 ^ 32)
    (hn : ∀ d ∈ files.dentryTree.items, d.name.length < 2 ^ 32)
    (hload : (new start endId).loadDir now (files.dir applyID cursor) = .ok (mp, applyID))
    (hstore : mp.store .live = files) : (∀ i ∈ files.inodeTree.items, i.marshal.length < 2 ^ 32) ∧
      ∀ d ∈ files.dentryTree.items, d.marshal.length < 2 ^ 32 := by
  refine ⟨fun i hi => ?_, dentries_fit_of_loadDir hn hload⟩
  obtain ⟨mp₁, hino, hload⟩ := bind_eq_ok hload
  obtain ⟨mp₂, hden, hload⟩ := bind_eq_ok hload
  have htree : mp₁.value.inodeTree = files.inodeTree := by
    have hkept : mp₂.value.inodeTree = mp₁.value.inodeTree :=
      readRecords_invariant (fun _ _ _ hs hput => inodeTree_putDentry hs hput) rfl hden
    rw [← hkept, ← inodeTree_loadApplyID hload, ← hstore]
    rfl
  by_contra hlong
  obtain ⟨j, hj, hne⟩ := readFile_inodes_cut (ownsExtents_new start endId)
    files.inodeTree.sorted (fun _ _ => rfl) ht ⟨i, hi, Nat.le_of_not_lt hlong⟩ hino
  refine hne ?_
  unfold PartitionValue.inode?
  rw [htree]
  exact get?_eq_some_iff.mpr ⟨hj, rfl⟩

/-- Loading what was stored gives the trees and the applied index back, and a cursor that is not
behind, if and only if every record fits its length field. -/
theorem loadDir_stored (start endId applyID cursor : UInt64) (now : Int64) (files : SnapshotFiles)
    (ht : ∀ i ∈ files.inodeTree.items, i.linkTarget.length < 2 ^ 32)
    (hn : ∀ d ∈ files.dentryTree.items, d.name.length < 2 ^ 32) :
    (∃ mp, (new start endId).loadDir now (files.dir applyID cursor) = .ok (mp, applyID) ∧
        mp.store .live = files ∧ cursor ≤ mp.cursor ∧
        ∀ i ∈ files.inodeTree.items, i.inode ≤ mp.cursor) ↔
      (∀ i ∈ files.inodeTree.items, i.marshal.length < 2 ^ 32) ∧
        ∀ d ∈ files.dentryTree.items, d.marshal.length < 2 ^ 32 := by
  constructor
  · rintro ⟨mp, hload, hstore, -, -⟩
    exact fits_of_loadDir ht hn hload hstore
  · rintro ⟨hi, hd⟩
    exact loadDir_of_fits start endId applyID cursor now hi hd

def smallFiles : SnapshotFiles where
  inodeTree := (OrdTree.empty.insert (InodeOf.new OrdTree.empty 1 modeDir 0)).insert
    { InodeOf.new (OrdTree.empty.insert ⟨0, 3, 4, 0, 100, 0⟩) 11 0o644 0 with size := 100 }
  dentryTree := OrdTree.empty.insert ⟨1, [97], 11, 0o644⟩

theorem loadDir_stored_small : ∃ mp,
    (new 0 100).loadDir 5 (smallFiles.dir 7 12) = .ok (mp, 7) ∧ mp.store .live = smallFiles ∧
      (12 : UInt64) ≤ mp.cursor ∧ ∀ i ∈ smallFiles.inodeTree.items, i.inode ≤ mp.cursor :=
  (loadDir_stored 0 100 7 12 5 smallFiles (by decide) (by decide)).mpr
    ⟨by decide +kernel, by decide +kernel⟩

def longLink : Inode :=
  { InodeOf.new OrdTree.empty 2 0 0 with linkTarget := List.replicate (2 ^ 32 - 1) 0 }

def longLinkFiles : SnapshotFiles := ⟨OrdTree.empty.insert longLink, OrdTree.empty⟩

/-- The record of the symlink does not fit its own length field, and is not read back. -/
theorem long_link_not_loaded : (∀ i ∈ longLinkFiles.inodeTree.items, i.linkTarget.length < 2 ^ 32) ∧
      (∀ d ∈ longLinkFiles.dentryTree.items, d.name.length < 2 ^ 32) ∧
      ¬ ∃ mp, (new 0 100).loadDir 0 (longLinkFiles.dir 1 2) = .ok (mp, 1) ∧
        mp.store .live = longLinkFiles := by
  have hitems : longLinkFiles.inodeTree.items = [longLink] := rfl
  have hlen : longLink.linkTarget.length = 2 ^ 32 - 1 := length_replicate
  have ht : ∀ i ∈ longLinkFiles.inodeTree.items, i.linkTarget.length < 2 ^ 32 := by
    rw [hitems, forall_mem_singleton, hlen]
    omega
  have hn : ∀ d ∈ longLinkFiles.dentryTree.items, d.name.length < 2 ^ 32 := nofun
  refine ⟨ht, hn, ?_⟩
  rintro ⟨mp, hload, hstore⟩
  have hfits := (fits_of_loadDir ht hn hload hstore).1
  rw [hitems, forall_mem_singleton, InodeOf.length_marshal, InodeOf.length_marshalValue,
    hlen] at hfits
  omega

end MetaPartition
end ChubaoFS
