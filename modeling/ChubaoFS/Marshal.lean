import ChubaoFS.Base.Decode
import ChubaoFS.Inode

namespace ChubaoFS

open List OrdTree UInt32 Bytes

namespace ExtentKey

def marshalBinary (k : ExtentKey) : Bytes :=
  putUInt64 k.fileOffset ++ putUInt64 k.partitionId ++ putUInt64 k.extentId ++
    putUInt64 k.extentOffset ++ putUInt32 k.size ++ putUInt32 k.crc

def unmarshalBinary : Decode ExtentKey Unit := do
  field readUInt64 fun x k => { k with fileOffset := x }
  field readUInt64 fun x k => { k with partitionId := x }
  field readUInt64 fun x k => { k with extentId := x }
  field readUInt64 fun x k => { k with extentOffset := x }
  field readUInt32 fun x k => { k with size := x }
  field readUInt32 fun x k => { k with crc := x }

theorem length_marshalBinary (k : ExtentKey) : k.marshalBinary.length = 40 := by
  simp [marshalBinary]

theorem unmarshalBinary_marshalBinary (j k : ExtentKey) (rest : Bytes) :
    unmarshalBinary (j, k.marshalBinary ++ rest) = .ok () (k, rest) := by
  unfold unmarshalBinary marshalBinary
  simp only [append_assoc, field_bind (readUInt64_put _ _), field_bind (readUInt32_put _ _),
    field_eq (readUInt32_put _ _)]

theorem unmarshalBinary_consumes : Decode.Consumes 40 unmarshalBinary :=
  (Decode.Consumes.field length_of_readUInt64 _).bind fun _ =>
    (Decode.Consumes.field length_of_readUInt64 _).bind fun _ =>
    (Decode.Consumes.field length_of_readUInt64 _).bind fun _ =>
    (Decode.Consumes.field length_of_readUInt64 _).bind fun _ =>
    (Decode.Consumes.field length_of_readUInt32 _).bind fun _ =>
    Decode.Consumes.field length_of_readUInt32 _

end ExtentKey

namespace ExtentsTree

def marshalBinary (e : ExtentsTree) : Bytes := e.items.flatMap ExtentKey.marshalBinary

def unmarshalKey : Decode ExtentsTree Unit := fun (e, b) =>
  match ExtentKey.unmarshalBinary (default, b) with
  | .ok _ (k, rest) => .ok () (e.insert k, rest)
  | .error err (_, rest) => .error err (e, rest)

def unmarshalKeys : Nat → Decode ExtentsTree Unit
  | 0, (e, b) => .ok () (e, b)
  | fuel + 1, (e, b) =>
    if b = [] then .ok () (e, b) else (unmarshalKey >>= fun _ => unmarshalKeys fuel) (e, b)

def unmarshalBinary (e : ExtentsTree) (data : Bytes) : ExtentsTree × Option ReadErr :=
  (unmarshalKeys (data.length + 1)).exec e data

theorem unmarshalKeys_cons (fuel : Nat) (e : ExtentsTree) {b rest : Bytes} {k : ExtentKey}
    (h : ExtentKey.unmarshalBinary (default, b) = .ok () (k, rest)) :
    unmarshalKeys (fuel + 1) (e, b) = unmarshalKeys fuel (e.insert k, rest) := by
  have hlen := ExtentKey.unmarshalBinary_consumes _ _ _ _ _ h
  have hb : b ≠ [] := by
    intro hnil
    rw [hnil, length_nil] at hlen
    omega
  rw [unmarshalKeys, if_neg hb]
  simp only [bind, EStateM.bind, unmarshalKey, h]

theorem unmarshalKeys_flatMap (l : List ExtentKey) {fuel : Nat} (e : ExtentsTree)
    (hf : l.length < fuel) :
    unmarshalKeys fuel (e, l.flatMap ExtentKey.marshalBinary) = .ok () (l.foldl insert e, []) := by
  induction l generalizing e fuel with
  | nil =>
    cases fuel with
    | zero => simp at hf
    | succ fuel => simp [unmarshalKeys]
  | cons k l ih =>
    cases fuel with
    | zero => simp at hf
    | succ fuel =>
      have hkey := ExtentKey.unmarshalBinary_marshalBinary default k
        (l.flatMap ExtentKey.marshalBinary)
      have hl : l.length < fuel := by simpa using hf
      rw [flatMap_cons, unmarshalKeys_cons fuel e hkey, ih _ hl, foldl_cons]

theorem length_marshalBinary (e : ExtentsTree) : e.marshalBinary.length = 40 * e.length := by
  have hlen (l : List ExtentKey) : (l.flatMap ExtentKey.marshalBinary).length = 40 * l.length := by
    induction l with
    | nil => rfl
    | cons k l ih =>
      rw [flatMap_cons, length_append, ExtentKey.length_marshalBinary, ih, length_cons]
      omega
  exact hlen e.items

theorem unmarshalBinary_marshalBinary (e : ExtentsTree) :
    unmarshalBinary OrdTree.empty e.marshalBinary = (e, none) := by
  have hlen : e.items.length < e.marshalBinary.length + 1 := by
    rw [length_marshalBinary, OrdTree.length]
    omega
  have hrun := unmarshalKeys_flatMap e.items OrdTree.empty hlen
  rw [OrdTree.foldl_insert_items] at hrun
  simp only [unmarshalBinary, Decode.exec, marshalBinary] at hrun ⊢
  rw [hrun]

theorem length_unmarshalKeys (fuel : Nat) (e : ExtentsTree) (b : Bytes) :
    40 * ((unmarshalKeys fuel).exec e b).1.length ≤ 40 * e.length + b.length := by
  induction fuel generalizing e b with
  | zero => simp [unmarshalKeys, Decode.exec]
  | succ fuel ih =>
    by_cases hb : b = []
    · simp [unmarshalKeys, Decode.exec, hb]
    cases hk : ExtentKey.unmarshalBinary (default, b) with
    | ok u p =>
      have hlen := ExtentKey.unmarshalBinary_consumes _ _ _ _ _ hk
      have hins := e.length_insert_le p.1
      have hrest := ih (e.insert p.1) p.2
      have hstep := unmarshalKeys_cons fuel e hk
      rw [Decode.exec, hstep]
      rw [Decode.exec] at hrest
      omega
    | error err p =>
      have hstep : unmarshalKeys (fuel + 1) (e, b) = .error err (e, p.2) := by
        rw [unmarshalKeys, if_neg hb]
        simp only [bind, EStateM.bind, unmarshalKey, hk]
      rw [Decode.exec, hstep]
      exact Nat.le_add_right _ _

end ExtentsTree

namespace InodeOf

def marshalKey (i : Inode) : Bytes := putUInt64 i.inode

def marshalHeader (i : Inode) : Bytes :=
  putUInt32 i.type ++ putUInt32 i.uid ++ putUInt32 i.gid ++ putUInt64 i.size ++
    putUInt64 i.generation ++ putInt64 i.createTime ++ putInt64 i.accessTime ++
    putInt64 i.modifyTime ++ putUInt32 (UInt32.ofNat i.linkTarget.length)

def marshalCounts (i : Inode) : Bytes :=
  putUInt32 i.nLink ++ putInt32 i.flag ++ putUInt64 i.reserved

def marshalTail (i : Inode) : Bytes :=
  i.linkTarget ++ (i.marshalCounts ++ ExtentsTree.marshalBinary i.extents)

def marshalValue (i : Inode) : Bytes := i.marshalHeader ++ i.marshalTail

def unmarshalHeader : Decode Inode UInt32 := do
  field readUInt32 fun x i => { i with type := x }
  field readUInt32 fun x i => { i with uid := x }
  field readUInt32 fun x i => { i with gid := x }
  field readUInt64 fun x i => { i with size := x }
  field readUInt64 fun x i => { i with generation := x }
  field readInt64 fun x i => { i with createTime := x }
  field readInt64 fun x i => { i with accessTime := x }
  field readInt64 fun x i => { i with modifyTime := x }
  read readUInt32

def unmarshalLinkTarget (symSize : UInt32) : Decode Inode Unit := fun (i, b) =>
  if symSize > 0 then
    match readFull symSize.toNat b with
    | .ok (target, rest) => .ok () ({ i with linkTarget := target }, rest)
    | .error e =>
      let filled := b.take symSize.toNat ++ List.replicate (symSize.toNat - b.length) 0
      .error e ({ i with linkTarget := filled }, [])
  else .ok () (i, b)

def unmarshalCounts : Decode Inode Unit := do
  field readUInt32 fun x i => { i with nLink := x }
  field readInt32 fun x i => { i with flag := x }
  field readUInt64 fun x i => { i with reserved := x }

def unmarshalExtents : Decode Inode Unit := fun (i, b) =>
  if b = [] then .ok () (i, b)
  else match ExtentsTree.unmarshalBinary i.extents b with
    | (e, none) => .ok () ({ i with extents := e }, [])
    | (e, some err) => .error err ({ i with extents := e }, [])

def unmarshalTail (symSize : UInt32) : Decode Inode Unit := do
  unmarshalLinkTarget symSize
  unmarshalCounts
  unmarshalExtents

def unmarshalValue : Decode Inode Unit := unmarshalHeader >>= unmarshalTail

theorem length_marshalHeader (i : Inode) : i.marshalHeader.length = 56 := by
  simp [marshalHeader, putInt64]

theorem length_marshalCounts (i : Inode) : i.marshalCounts.length = 16 := by
  simp [marshalCounts, putInt32]

theorem length_marshalValue (i : Inode) :
    i.marshalValue.length = 72 + i.linkTarget.length + 40 * i.extents.length := by
  have hext := ExtentsTree.length_marshalBinary i.extents
  simp only [marshalValue, marshalTail, length_append, length_marshalHeader,
    length_marshalCounts, hext]
  omega

/-- What the header of `i` makes of an inode. -/
def withHeader (j i : Inode) : Inode :=
  { j with type := i.type, uid := i.uid, gid := i.gid, size := i.size, generation := i.generation,
           createTime := i.createTime, accessTime := i.accessTime, modifyTime := i.modifyTime }

theorem unmarshalHeader_marshalHeader (i j : Inode) (rest : Bytes) :
    unmarshalHeader (j, i.marshalHeader ++ rest) =
      .ok (ofNat i.linkTarget.length) (j.withHeader i, rest) := by
  unfold unmarshalHeader marshalHeader
  simp only [append_assoc, field_bind (readUInt32_put _ _), field_bind (readUInt64_put _ _),
    field_bind (readInt64_put _ _), read_eq (readUInt32_put _ _), withHeader]

theorem unmarshalCounts_marshalCounts (i j : Inode) (rest : Bytes) :
    unmarshalCounts (j, i.marshalCounts ++ rest) =
      .ok () ({ j with nLink := i.nLink, flag := i.flag, reserved := i.reserved }, rest) := by
  unfold unmarshalCounts marshalCounts
  simp only [append_assoc, field_bind (readUInt32_put _ _), field_bind (readInt32_put _ _),
    field_eq (readUInt64_put _ _)]

variable {i : Inode}

theorem unmarshalLinkTarget_append {target : Bytes} (rest : Bytes) (h : target.length < 2 ^ 32)
    (hi : i.linkTarget = []) : unmarshalLinkTarget (ofNat target.length) (i, target ++ rest) =
      .ok () ({ i with linkTarget := target }, rest) := by
  have hn : (ofNat target.length).toNat = target.length := toNat_ofNat_of_lt' h
  cases target with
  | nil =>
    obtain ⟨ino, ty, uid, gid, size, gen, ct, at', mt, lt, nl, fl, rsv, ext⟩ := i
    obtain rfl : lt = [] := hi
    rfl
  | cons y ys =>
    have hpos : ofNat (y :: ys).length > 0 := by
      rw [gt_iff_lt, lt_iff_toNat_lt, hn]
      simp
    simp only [unmarshalLinkTarget, if_pos hpos, hn, readFull_append rest rfl]

theorem unmarshalExtents_marshalBinary (e : ExtentsTree) (h : i.extents = empty) :
    unmarshalExtents (i, ExtentsTree.marshalBinary e) = .ok () ({ i with extents := e }, []) := by
  unfold unmarshalExtents
  by_cases hb : ExtentsTree.marshalBinary e = []
  · have hlen := ExtentsTree.length_marshalBinary e
    rw [hb, length_nil] at hlen
    have he : e = i.extents := by
      rw [h]
      exact length_eq_zero_iff.mp (by omega)
    simp only [hb, if_true]
    rw [he]
  · simp only [if_neg hb, h, ExtentsTree.unmarshalBinary_marshalBinary]

variable {j : Inode} {b : Bytes}

theorem unmarshalValue_marshalValue (ht : i.linkTarget.length < 2 ^ 32) (hj : j.linkTarget = [])
    (he : j.extents = empty) :
    unmarshalValue.exec j i.marshalValue = ({ i with inode := j.inode }, none) := by
  have hlink : (j.withHeader i).linkTarget = [] := hj
  have hext : (j.withHeader i).extents = empty := he
  unfold Decode.exec unmarshalValue unmarshalTail marshalValue marshalTail
  simp only [bind, EStateM.bind, unmarshalHeader_marshalHeader,
    unmarshalLinkTarget_append _ ht hlink, unmarshalCounts_marshalCounts,
    unmarshalExtents_marshalBinary, hext]
  rfl

/-! Values that lost their end. -/

theorem unmarshalHeader_consumes : Decode.Consumes 56 unmarshalHeader :=
  (Decode.Consumes.field length_of_readUInt32 _).bind fun _ =>
    (Decode.Consumes.field length_of_readUInt32 _).bind fun _ =>
    (Decode.Consumes.field length_of_readUInt32 _).bind fun _ =>
    (Decode.Consumes.field length_of_readUInt64 _).bind fun _ =>
    (Decode.Consumes.field length_of_readUInt64 _).bind fun _ =>
    (Decode.Consumes.field length_of_readInt64 _).bind fun _ =>
    (Decode.Consumes.field length_of_readInt64 _).bind fun _ =>
    (Decode.Consumes.field length_of_readInt64 _).bind fun _ =>
    Decode.Consumes.read length_of_readUInt32

theorem unmarshalCounts_consumes : Decode.Consumes 16 unmarshalCounts :=
  (Decode.Consumes.field length_of_readUInt32 _).bind fun _ =>
    (Decode.Consumes.field (length_of_map length_of_readUInt32) _).bind fun _ =>
    Decode.Consumes.field length_of_readUInt64 _

theorem unmarshalHeader_keeps :
    Decode.Keeps (fun i : Inode => (i.inode, i.linkTarget, i.extents)) unmarshalHeader := by
  unfold unmarshalHeader
  iterate 8 refine Decode.Keeps.bind (Decode.Keeps.field _ fun _ _ => rfl) fun _ => ?_
  exact Decode.Keeps.read _ _

theorem unmarshalCounts_keeps :
    Decode.Keeps (fun i : Inode => (i.inode, i.linkTarget, i.extents)) unmarshalCounts := by
  unfold unmarshalCounts
  iterate 2 refine Decode.Keeps.bind (Decode.Keeps.field _ fun _ _ => rfl) fun _ => ?_
  exact Decode.Keeps.field _ fun _ _ => rfl

theorem unmarshalExtents_keeps :
    Decode.Keeps (fun i : Inode => (i.inode, i.linkTarget)) unmarshalExtents := by
  intro i b
  simp only [unmarshalExtents]
  by_cases hb : b = []
  · rw [if_pos hb]
  · rw [if_neg hb]
    rcases ExtentsTree.unmarshalBinary i.extents b with ⟨e, _ | err⟩ <;> rfl

theorem unmarshalLinkTarget_keeps (symSize : UInt32) :
    Decode.Keeps (fun i : Inode => (i.inode, i.extents)) (unmarshalLinkTarget symSize) := by
  intro i b
  simp only [unmarshalLinkTarget]
  by_cases hn : symSize > 0
  · rw [if_pos hn]
    cases readFull symSize.toNat b <;> rfl
  · rw [if_neg hn]

theorem unmarshalValue_keeps_inode : Decode.Keeps InodeOf.inode unmarshalValue :=
  (unmarshalHeader_keeps.map Prod.fst).bind fun symSize =>
    ((unmarshalLinkTarget_keeps symSize).map Prod.fst).bind fun _ =>
    (unmarshalCounts_keeps.map Prod.fst).bind fun _ => unmarshalExtents_keeps.map Prod.fst

theorem length_extents_unmarshal (i : Inode) (b : Bytes) (h : i.extents = empty) :
    40 * ((unmarshalCounts >>= fun _ => unmarshalExtents).exec i b).1.extents.length ≤
      b.length - 16 := by
  have hkeep := unmarshalCounts_keeps i b
  cases hc : unmarshalCounts (i, b) with
  | error e t =>
    rw [hc] at hkeep
    have hext : t.1.extents = empty := (congrArg (fun p => p.2.2) hkeep).trans h
    simp [Decode.exec, bind, EStateM.bind, hc, hext]
  | ok u t =>
    rw [hc] at hkeep
    have hext : t.1.extents = empty := (congrArg (fun p => p.2.2) hkeep).trans h
    have hlen := unmarshalCounts_consumes i b u t.1 t.2 hc
    have hkeys := ExtentsTree.length_unmarshalKeys (t.2.length + 1) t.1.extents t.2
    have hexec : ((unmarshalCounts >>= fun _ => unmarshalExtents).exec i b).1.extents =
        if t.2 = [] then t.1.extents else (ExtentsTree.unmarshalBinary t.1.extents t.2).1 := by
      simp only [Decode.exec, bind, EStateM.bind, hc, unmarshalExtents]
      by_cases hb : t.2 = []
      · simp [hb]
      · simp only [if_neg hb]
        rcases ExtentsTree.unmarshalBinary t.1.extents t.2 with ⟨e, _ | err⟩ <;> rfl
    rw [hexec]
    split
    · simp [hext]
    rw [ExtentsTree.unmarshalBinary]
    rw [hext, length_empty] at hkeys
    rw [hext]
    omega

/-- What a record too short for the value cuts off is what a new inode has anyway: a symlink
target that is zero from where it is cut, one link, no flags and no extents. -/
structure CutIsDefault (i : Inode) : Prop where
  large : 2 ^ 32 ≤ i.linkTarget.length + 16
  small : i.linkTarget.length < 2 ^ 32
  zeros : i.linkTarget.drop (i.linkTarget.length + 16 - 2 ^ 32) = List.replicate (2 ^ 32 - 16) 0
  nLink : i.nLink = 1
  flag : i.flag = 0
  reserved : i.reserved = 0
  extents : i.extents = OrdTree.empty

theorem unmarshalLinkTarget_short (i : Inode) {symSize : UInt32} (h : b.length < symSize.toNat) :
    ∃ e, unmarshalLinkTarget symSize (i, b) =
      .error e ({ i with linkTarget := b ++ replicate (symSize.toNat - b.length) 0 }, []) := by
  have hpos : symSize > 0 := by
    rw [gt_iff_lt, lt_iff_toNat_lt]
    exact Nat.lt_of_le_of_lt (Nat.zero_le _) h
  obtain ⟨e, he⟩ := readFull_short h
  have htake : b.take symSize.toNat = b := take_of_length_le (Nat.le_of_lt h)
  exact ⟨e, by simp only [unmarshalLinkTarget, if_pos hpos, he, htake]⟩

theorem length_unmarshalLinkTarget (symSize : UInt32) (b : Bytes) (h : i.linkTarget = []) :
    ((unmarshalLinkTarget symSize).exec i b).1.linkTarget.length < 2 ^ 32 := by
  have hsize := symSize.toNat_lt
  by_cases hpos : symSize > 0
  · cases hr : readFull symSize.toNat b with
    | ok p =>
      have hp := (readFull_split hr).1
      simp only [Decode.exec, unmarshalLinkTarget, if_pos hpos, hr]
      omega
    | error e =>
      simp only [Decode.exec, unmarshalLinkTarget, if_pos hpos, hr, length_append,
        length_take, length_replicate]
      omega
  · simp [Decode.exec, unmarshalLinkTarget, if_neg hpos, h]

theorem unmarshalValue_no_header (hb : b.length < 56) :
    (unmarshalValue.exec j b).1.linkTarget = j.linkTarget ∧
      (unmarshalValue.exec j b).1.extents = j.extents := by
  have hkeep := unmarshalHeader_keeps j b
  cases hh : unmarshalHeader (j, b) with
  | ok n t =>
    have hlen := unmarshalHeader_consumes j b n t.1 t.2 hh
    omega
  | error e t =>
    rw [hh] at hkeep
    have hexec : (unmarshalValue.exec j b).1 = t.1 := by
      simp only [Decode.exec, unmarshalValue, bind, EStateM.bind, hh]
    rw [hexec]
    exact ⟨congrArg (fun p => p.2.1) hkeep, congrArg (fun p => p.2.2) hkeep⟩

theorem unmarshalValue_header (i j : Inode) (rest : Bytes) :
    unmarshalValue.exec j (i.marshalHeader ++ rest) =
      (unmarshalTail (ofNat i.linkTarget.length)).exec (j.withHeader i) rest := by
  unfold Decode.exec unmarshalValue
  simp only [bind, EStateM.bind, unmarshalHeader_marshalHeader]

theorem length_linkTarget_unmarshal (symSize : UInt32) (b : Bytes) (h : j.linkTarget = []) :
    ((unmarshalTail symSize).exec j b).1.linkTarget.length < 2 ^ 32 := by
  have hlen := length_unmarshalLinkTarget symSize b h
  have hkeep : Decode.Keeps (fun i : Inode => i.linkTarget)
      (unmarshalCounts >>= fun _ => unmarshalExtents) :=
    (unmarshalCounts_keeps.map fun p => p.2.1).bind fun _ => unmarshalExtents_keeps.map Prod.snd
  cases hl : unmarshalLinkTarget symSize (j, b) with
  | ok u t =>
    have hrest := hkeep.exec t.1 t.2
    simp only [Decode.exec, hl] at hlen
    simp only [Decode.exec, unmarshalTail, bind, EStateM.bind, hl] at hrest ⊢
    rw [hrest]
    exact hlen
  | error e t =>
    simp only [Decode.exec, hl] at hlen
    simp only [Decode.exec, unmarshalTail, bind, EStateM.bind, hl]
    exact hlen

variable {k : Nat}

theorem unmarshalTail_whole_target (hj : j.linkTarget = []) (he : j.extents = empty)
    (ht : i.linkTarget.length < 2 ^ 32) (hk : i.linkTarget.length ≤ k) :
    40 * ((unmarshalTail (ofNat i.linkTarget.length)).exec j
      (i.marshalTail.take k)).1.extents.length ≤ k - i.linkTarget.length - 16 := by
  have hmore : i.marshalTail.take k = i.linkTarget ++
      (i.marshalCounts ++ ExtentsTree.marshalBinary i.extents).take (k - i.linkTarget.length) := by
    rw [marshalTail, take_append, take_of_length_le hk]
  have hlink := unmarshalLinkTarget_append ((i.marshalCounts ++
    ExtentsTree.marshalBinary i.extents).take (k - i.linkTarget.length)) ht hj
  have hbound := length_extents_unmarshal { j with linkTarget := i.linkTarget }
    ((i.marshalCounts ++ ExtentsTree.marshalBinary i.extents).take (k - i.linkTarget.length)) he
  have hle : ((i.marshalCounts ++ ExtentsTree.marshalBinary i.extents).take
      (k - i.linkTarget.length)).length ≤ k - i.linkTarget.length := length_take_le _ _
  simp only [Decode.exec, unmarshalTail, bind, EStateM.bind, hmore, hlink] at hbound ⊢
  omega

theorem unmarshalTail_cut_target (ht : i.linkTarget.length < 2 ^ 32)
    (hk : k < i.linkTarget.length) :
    ((unmarshalTail (ofNat i.linkTarget.length)).exec j (i.marshalTail.take k)).1 =
      { j with linkTarget := i.linkTarget.take k ++ replicate (i.linkTarget.length - k) 0 } := by
  have hn : (ofNat i.linkTarget.length).toNat = i.linkTarget.length := toNat_ofNat_of_lt' ht
  have htake : i.marshalTail.take k = i.linkTarget.take k := by
    rw [marshalTail, take_append_of_le_length (Nat.le_of_lt hk)]
  have hlen : (i.linkTarget.take k).length = k := length_take_of_le (Nat.le_of_lt hk)
  have hshort : (i.linkTarget.take k).length < (ofNat i.linkTarget.length).toNat := by
    omega
  obtain ⟨e, hexec⟩ := unmarshalLinkTarget_short j hshort
  simp only [Decode.exec, unmarshalTail, bind, EStateM.bind, htake, hexec, hn, hlen]

theorem unmarshalValue_take (ht : i.linkTarget.length < 2 ^ 32) (hj : j.linkTarget = [])
    (he : j.extents = empty) (hk : k < i.marshalValue.length) :
    (∃ e, (unmarshalValue.exec j (i.marshalValue.take k)).2 = some e) ∨
      (unmarshalValue.exec j (i.marshalValue.take k)).1.extents.length < i.extents.length := by
  have hlen := i.length_marshalValue
  by_cases hshort : k < 56
  · obtain ⟨e, t, hh⟩ := unmarshalHeader_consumes.short j (b := i.marshalValue.take k)
      (by rw [length_take]; omega)
    refine .inl ⟨e, ?_⟩
    simp only [Decode.exec, unmarshalValue, bind, EStateM.bind, hh]
  have htake : i.marshalValue.take k = i.marshalHeader ++ i.marshalTail.take (k - 56) := by
    rw [marshalValue, take_append, length_marshalHeader, take_of_length_le]
    rw [length_marshalHeader]
    omega
  have hlink : (j.withHeader i).linkTarget = [] := hj
  have hext : (j.withHeader i).extents = empty := he
  have hn : (ofNat i.linkTarget.length).toNat = i.linkTarget.length := toNat_ofNat_of_lt' ht
  rw [htake, unmarshalValue_header]
  by_cases hfull : i.linkTarget.length ≤ k - 56
  · have hbound := unmarshalTail_whole_target hlink hext ht hfull
    by_cases hcounts : k - 56 - i.linkTarget.length < 16
    · have hmore : i.marshalTail.take (k - 56) = i.linkTarget ++
          (i.marshalCounts ++ ExtentsTree.marshalBinary i.extents).take
            (k - 56 - i.linkTarget.length) := by
        rw [marshalTail, take_append, take_of_length_le hfull]
      obtain ⟨e, t, hc⟩ := unmarshalCounts_consumes.short
        ({ j.withHeader i with linkTarget := i.linkTarget } : Inode)
        (b := (i.marshalCounts ++ ExtentsTree.marshalBinary i.extents).take
          (k - 56 - i.linkTarget.length)) (by rw [length_take]; omega)
      refine .inl ⟨e, ?_⟩
      simp only [Decode.exec, unmarshalTail, bind, EStateM.bind, hmore,
        unmarshalLinkTarget_append _ ht hlink, hc]
    · right
      omega
  have hcut : (i.marshalTail.take (k - 56)).length < (ofNat i.linkTarget.length).toNat := by
    rw [length_take]
    omega
  obtain ⟨e, hc⟩ := unmarshalLinkTarget_short (j.withHeader i) hcut
  refine .inl ⟨e, ?_⟩
  simp only [Decode.exec, unmarshalTail, bind, EStateM.bind, hc]

theorem unmarshalValue_cut (hj : j.linkTarget = []) (he : j.extents = empty)
    (hcounts : j.nLink = 1 ∧ j.flag = 0 ∧ j.reserved = 0) (hid : j.inode = i.inode)
    (h : 2 ^ 32 ≤ i.marshalValue.length) :
    (unmarshalValue.exec j (i.marshalValue.take (i.marshalValue.length % 2 ^ 32))).1 = i ↔
      i.CutIsDefault := by
  have hlen := i.length_marshalValue
  have hdiv := Nat.div_add_mod i.marshalValue.length (2 ^ 32)
  have hmod := Nat.mod_lt i.marshalValue.length (Nat.two_pow_pos 32)
  have hq : 1 ≤ i.marshalValue.length / 2 ^ 32 := Nat.div_pos h (Nat.two_pow_pos 32)
  have hzero : i.extents.length = 0 ↔ i.extents = empty := length_eq_zero_iff
  generalize hm : i.marshalValue.length % 2 ^ 32 = m at hdiv hmod ⊢
  have hcut : i.CutIsDefault → m - 56 = i.linkTarget.length + 16 - 2 ^ 32 ∧ 56 ≤ m := by
    intro hc
    have hlarge := hc.large
    have hsmall := hc.small
    have hext := hzero.mpr hc.extents
    omega
  by_cases hshort : m < 56
  · obtain ⟨hlink, hext⟩ := unmarshalValue_no_header (j := j) (b := i.marshalValue.take m)
      (by rw [length_take]; omega)
    constructor
    · intro heq
      rw [heq, hj] at hlink
      rw [heq, he, ← hzero] at hext
      rw [hlink, length_nil] at hlen
      omega
    · intro hc
      have := hcut hc
      omega
  have htake : i.marshalValue.take m = i.marshalHeader ++ i.marshalTail.take (m - 56) := by
    rw [marshalValue, take_append, length_marshalHeader, take_of_length_le]
    rw [length_marshalHeader]
    omega
  have hlink : (j.withHeader i).linkTarget = [] := hj
  have hext : (j.withHeader i).extents = empty := he
  rw [htake, unmarshalValue_header]
  by_cases hsmall : i.linkTarget.length < 2 ^ 32
  · by_cases hfull : i.linkTarget.length ≤ m - 56
    · constructor
      · intro heq
        have hbound := unmarshalTail_whole_target hlink hext hsmall hfull
        rw [heq] at hbound
        omega
      · intro hc
        have hlarge := hc.large
        have hk := (hcut hc).1
        omega
    · rw [unmarshalTail_cut_target hsmall (by omega)]
      constructor
      · intro heq
        have hi : i.extents = empty := by rw [← heq]; exact he
        have hlarge := hzero.mpr hi
        have hdrop := congrArg (fun x : Inode => x.linkTarget.drop (m - 56)) heq
        have hpre : (i.linkTarget.take (m - 56)).length = m - 56 := length_take_of_le (by omega)
        dsimp only at hdrop
        rw [drop_left' hpre] at hdrop
        have hk : i.linkTarget.length + 16 - 2 ^ 32 = m - 56 := by omega
        have hr : 2 ^ 32 - 16 = i.linkTarget.length - (m - 56) := by omega
        refine ⟨by omega, hsmall, by rw [hk, hr, ← hdrop], ?_, ?_, ?_, hi⟩
        · rw [← heq]; exact hcounts.1
        · rw [← heq]; exact hcounts.2.1
        · rw [← heq]; exact hcounts.2.2
      · intro hc
        have hk := (hcut hc).1
        have hlarge := hc.large
        have hr : i.linkTarget.length - (i.linkTarget.length + 16 - 2 ^ 32) = 2 ^ 32 - 16 := by
          omega
        have hcat : i.linkTarget.take (i.linkTarget.length + 16 - 2 ^ 32) ++
            replicate (2 ^ 32 - 16) 0 = i.linkTarget := by
          rw [← hc.zeros, take_append_drop]
        rw [hk, hr, hcat]
        simp only [withHeader, hid, hcounts, he, ← hc.nLink, ← hc.flag, ← hc.reserved, ← hc.extents]
  constructor
  · intro heq
    have hlt := length_linkTarget_unmarshal (ofNat i.linkTarget.length)
      (i.marshalTail.take (m - 56)) hlink
    rw [heq] at hlt
    omega
  · intro hc
    exact absurd hc.small hsmall

end InodeOf

namespace Dentry

def marshalKey (d : Dentry) : Bytes := putUInt64 d.parentId ++ d.name

def unmarshalKey : Decode Dentry Unit := do
  field readUInt64 fun x d => { d with parentId := x }
  modify fun (d, b) => ({ d with name := b }, b)

def marshalValue (d : Dentry) : Bytes := putUInt64 d.inode ++ putUInt32 d.type

def unmarshalValue : Decode Dentry Unit := do
  field readUInt64 fun x d => { d with inode := x }
  field readUInt32 fun x d => { d with type := x }

end Dentry
end ChubaoFS
