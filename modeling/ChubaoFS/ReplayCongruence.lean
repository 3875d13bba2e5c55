import ChubaoFS.ExtentSpans
import ChubaoFS.SnapshotRoundTrip

namespace ChubaoFS

open OrdTree ExtentKey ExtentsTree UInt64 Option
open UInt64 (not_lt le_of_lt)
open ExtentKey (cut)

/-! Partitions that differ in what commands do not look at: the access times of their inodes, and
the sizes and last keys of inodes that were cut behind the back of a stored tree. -/

abbrev SizedKeys := UInt64 × ExtentsTree

namespace SizedKeys

/-- One round of `AppendExtents`. -/
def append (a : SizedKeys) (ext : ExtentKey) : SizedKeys :=
  let e := (ExtentsTree.append a.2 ext).1
  (if a.1 < ExtentsTree.size e then ExtentsTree.size e else a.1, e)

def truncate (a : SizedKeys) (length : UInt64) : SizedKeys :=
  (length, ExtentsTree.cutLast
    ((a.2.ascendGreaterOrEqual (some length.toNat)).foldl (fun e d => e.erase d.key) a.2) length)

end SizedKeys

structure KeysCongr (P : UInt64 → SizedKeys → SizedKeys → Prop) : Prop where
  refl : ∀ ino a, P ino a a
  append : ∀ {ino a b} (ext : ExtentKey), P ino a b → P ino (a.append ext) (b.append ext)
  truncate : ∀ {ino a b} (length : UInt64), P ino a b →
    P ino (a.truncate length) (b.truncate length)

namespace InodeOf

def Like (P : UInt64 → SizedKeys → SizedKeys → Prop) (i j : Inode) : Prop :=
  ∃ t n e, j = { i with accessTime := t, size := n, extents := e } ∧
    P i.inode (i.size, i.extents) (n, e)

variable {P : UInt64 → SizedKeys → SizedKeys → Prop} {i j : Inode}

theorem Like.type (h : i.Like P j) : j.type = i.type := by
  obtain ⟨t, n, e, rfl, -⟩ := h
  rfl

theorem Like.shouldDelete (h : i.Like P j) : j.shouldDelete = i.shouldDelete := by
  obtain ⟨t, n, e, rfl, -⟩ := h
  rfl

theorem decNLink_with (i : Inode) (t : Int64) (n : UInt64) (e : ExtentsTree) :
    ({ i with accessTime := t, size := n, extents := e } : Inode).decNLink =
      { i.decNLink with accessTime := t, size := n, extents := e } := by
  unfold decNLink
  dsimp only
  split <;> split <;> rfl

theorem size_decNLink (i : Inode) : i.decNLink.size = i.size := by
  rw [decNLink_eq]

theorem foldl_appendStep (exts : List ExtentKey) (i : Inode) (items : List ExtentKey) :
    (exts.foldl appendStep (i, items)).1 = { i with
        size := (exts.foldl SizedKeys.append (i.size, i.extents)).1
        extents := (exts.foldl SizedKeys.append (i.size, i.extents)).2 } := by
  induction exts generalizing i items with
  | nil => rfl
  | cons ext exts ih => exact ih _ _

end InodeOf

namespace PartitionValue

inductive Alters : (Inode → Option Inode) → Prop
  | unlink (t : Int64) : Alters (unlinked t)
  | incNLink : Alters fun i => some i.incNLink
  | decNLink : Alters fun i => some i.decNLink
  | append (exts : List ExtentKey) (t : Int64) : Alters fun i => some (i.appendKeys exts t).1
  | truncate (length : UInt64) (t : Int64) :
      Alters fun i => some (if isDir i.type then i else (i.truncateKeys length t).1)
  | evict : Alters fun i => some (evicted i)
  | setAttr (valid mode uid gid : UInt32) : Alters fun i => some (i.setAttr valid mode uid gid)

variable {f : Inode → Option Inode}

theorem Alters.key (h : Alters f) (i i' : Inode) (hi : f i = some i') : i'.key = i.key := by
  cases h with
  | unlink t =>
    unfold unlinked at hi
    dsimp only at hi
    split at hi
    · cases hi
    · cases hi
      exact InodeOf.key_decNLink _
  | incNLink | setAttr valid mode uid gid =>
    cases hi
    rfl
  | decNLink =>
    cases hi
    exact i.key_decNLink
  | append exts t =>
    cases hi
    exact i.key_appendKeys exts t
  | truncate length t =>
    cases hi
    split <;> rfl
  | evict =>
    cases hi
    unfold evicted
    split <;> split <;> rfl

variable {P : UInt64 → SizedKeys → SizedKeys → Prop} {v w : PartitionValue}

theorem Alters.like (h : Alters f) (hP : KeysCongr P) {i j : Inode} (hij : i.Like P j) :
    Option.Rel (InodeOf.Like P) (f i) (f j) := by
  obtain ⟨t, n, e, rfl, hkeys⟩ := hij
  cases h with
  | unlink t' =>
    unfold unlinked
    dsimp only
    have hdec := InodeOf.decNLink_with { i with modifyTime := t' } t n e
    dsimp only at hdec
    rw [hdec]
    unfold InodeOf.isEmptyDir
    dsimp only
    split
    · exact .none
    refine .some ⟨t, n, e, rfl, ?_⟩
    rw [InodeOf.inode_decNLink, InodeOf.size_decNLink, InodeOf.extents_decNLink]
    exact hkeys
  | incNLink | setAttr valid mode uid gid => exact .some ⟨t, n, e, rfl, hkeys⟩
  | decNLink =>
    refine .some ⟨t, n, e, InodeOf.decNLink_with i t n e, ?_⟩
    rw [InodeOf.inode_decNLink, InodeOf.size_decNLink, InodeOf.extents_decNLink]
    exact hkeys
  | append exts t' =>
    have hfold : P i.inode (exts.foldl SizedKeys.append (i.size, i.extents))
        (exts.foldl SizedKeys.append (n, e)) := by
      generalize (i.size, i.extents) = a at hkeys
      generalize (n, e) = b at hkeys
      induction exts generalizing a b with
      | nil => exact hkeys
      | cons ext exts ih => exact ih _ _ (hP.append ext hkeys)
    refine .some ⟨t, (exts.foldl SizedKeys.append (n, e)).1,
      (exts.foldl SizedKeys.append (n, e)).2, ?_, ?_⟩
    · unfold InodeOf.appendKeys
      dsimp only
      rw [InodeOf.foldl_appendStep, InodeOf.foldl_appendStep]
    · unfold InodeOf.appendKeys
      dsimp only
      rw [InodeOf.foldl_appendStep]
      exact hfold
  | truncate length t' =>
    dsimp only
    split
    · exact .some ⟨t, n, e, rfl, hkeys⟩
    · exact .some ⟨t, _, _, rfl, hP.truncate length hkeys⟩
  | evict =>
    unfold evicted InodeOf.isEmptyDir InodeOf.isTempFile
    dsimp only
    split <;> split <;> exact .some ⟨t, n, e, rfl, hkeys⟩

structure Related (P : UInt64 → SizedKeys → SizedKeys → Prop) (v w : PartitionValue) : Prop where
  dentries : w.dentryTree = v.dentryTree
  inodes : ∀ k, Option.Rel (InodeOf.Like P) (v.inodeTree.get? k) (w.inodeTree.get? k)

variable (h : Related P v w)
include h

theorem Related.alterInode (hP : KeysCongr P) (hf : Alters f) (ino : UInt64) :
    Related P (v.alterInode ino f) (w.alterInode ino f) := by
  refine ⟨?_, fun k => ?_⟩
  · rw [(w.alterInode_rest ino f).2.2, (v.alterInode_rest ino f).2.2]
    exact h.dentries
  · rw [v.get?_alterInode hf.key, w.get?_alterInode hf.key]
    split
    · have hk := h.inodes k
      revert hk
      generalize v.inodeTree.get? k = a
      generalize w.inodeTree.get? k = b
      rintro (⟨hij⟩ | _)
      · rename_i i j
        rw [bind_some, bind_some, hij.shouldDelete]
        split
        · exact .some hij
        · exact hf.like hP hij
      · exact .none
    · exact h.inodes k

theorem Related.inode? (ino : UInt64) : v.inode? ino = none ∧ w.inode? ino = none ∨
      ∃ i j, v.inode? ino = some i ∧ w.inode? ino = some j ∧ i.Like P j := by
  have hk := h.inodes ino.toNat
  unfold PartitionValue.inode?
  generalize v.inodeTree.get? ino.toNat = a at hk
  generalize w.inodeTree.get? ino.toNat = b at hk
  cases hk with
  | none => exact .inl ⟨rfl, rfl⟩
  | some hij => exact .inr ⟨_, _, rfl, rfl, hij⟩

theorem Related.createInode (hP : KeysCongr P) (ino : Inode) :
    Related P (v.createInode ino) (w.createInode ino) := by
  refine ⟨h.dentries, fun k => ?_⟩
  rw [get?_createInode, get?_createInode]
  split
  · have hk := h.inodes k
    generalize v.inodeTree.get? k = a at hk
    generalize w.inodeTree.get? k = b at hk
    cases hk with
    | none => exact .some ⟨ino.accessTime, ino.size, ino.extents, rfl, hP.refl _ _⟩
    | some hij => exact .some hij
  · exact h.inodes k

theorem Related.eraseInodes (inos : List UInt64) :
    Related P (v.apply (.internalDeleteInode inos)) (w.apply (.internalDeleteInode inos)) := by
  unfold PartitionValue.apply
  dsimp only
  induction inos generalizing v w with
  | nil => exact h
  | cons ino inos ih =>
    refine ih ⟨h.dentries, fun k => ?_⟩
    rw [get?_erase, get?_erase]
    split
    · exact .none
    · exact h.inodes k

theorem Related.apply (hP : KeysCongr P) (c : MetaPartition.Command) :
    Related P (v.apply c) (w.apply c) := by
  cases c with
  | createInode ino => exact h.createInode hP ino
  | unlinkInode ino => exact h.alterInode hP (.unlink ino.modifyTime) ino.inode
  | createDentry dentry =>
    unfold PartitionValue.apply PartitionValue.createDentry
    dsimp only
    obtain ⟨hv, hw⟩ | ⟨i, j, hv, hw, hij⟩ := h.inode? dentry.parentId
    · rw [hv, hw]
      exact h
    · rw [hv, hw]
      dsimp only
      rw [hij.shouldDelete, hij.type, h.dentries]
      split
      · have hput : Related P { v with dentryTree := v.dentryTree.insert dentry }
            { w with dentryTree := w.dentryTree.insert dentry } :=
          ⟨congrArg (·.insert dentry) h.dentries, h.inodes⟩
        rw [h.dentries] at hput
        exact hput.alterInode hP .incNLink dentry.parentId
      · exact h
  | deleteDentry dentry =>
    unfold PartitionValue.apply PartitionValue.deleteDentry
    dsimp only
    rw [h.dentries]
    split
    · exact h
    have hdel : Related P { v with dentryTree := v.dentryTree.erase dentry.key }
        { w with dentryTree := v.dentryTree.erase dentry.key } := ⟨rfl, h.inodes⟩
    exact hdel.alterInode hP .decNLink dentry.parentId
  | updatePartition endId => exact ⟨h.dentries, h.inodes⟩
  | extentsAdd ino =>
    exact h.alterInode hP (.append ino.extents.items ino.modifyTime) ino.inode
  | storeTick => exact h
  | updateDentry dentry =>
    unfold PartitionValue.apply PartitionValue.updateDentry
    dsimp only
    rw [h.dentries]
    split
    · exact h
    · exact ⟨rfl, h.inodes⟩
  | extentTruncate ino => exact h.alterInode hP (.truncate ino.size ino.modifyTime) ino.inode
  | createLinkInode ino => exact h.alterInode hP .incNLink ino.inode
  | evictInode ino => exact h.alterInode hP .evict ino.inode
  | internalDeleteInode inos => exact h.eraseInodes inos
  | setAttr req =>
    exact h.alterInode hP (.setAttr req.valid req.mode req.uid req.gid) req.inode

theorem Related.foldl (hP : KeysCongr P) (cs : List MetaPartition.Command) :
    Related P (cs.foldl PartitionValue.apply v) (cs.foldl PartitionValue.apply w) := by
  induction cs generalizing v w with
  | nil => exact h
  | cons c cs ih => exact ih (h.apply hP c)

end PartitionValue

/-! ### Keys that were cut -/

variable {k : ExtentKey} {length : UInt64} {o : Nat}

theorem ExtentKey.fileEnd_cut (h : k.fileOffset < length) :
    (k.cut length).fileEnd = if k.fileEnd > length then length else k.fileEnd := by
  unfold cut
  split
  next hlt =>
    unfold ExtentKey.fileEnd at hlt ⊢
    dsimp only
    have hsize := k.size.toNat_lt
    have hlength := length.toNat_lt
    rw [gt_iff_lt, UInt64.lt_iff_toNat_lt, UInt64.toNat_add, UInt32.toNat_toUInt64] at hlt
    rw [UInt64.lt_iff_toNat_lt] at h
    apply UInt64.toNat_inj.mp
    rw [UInt64.toNat_add, UInt32.toNat_toUInt64, UInt64.toNat_toUInt32,
      UInt64.toNat_sub_of_le _ _ (UInt64.le_iff_toNat_le.mpr (Nat.le_of_lt h))]
    omega
  · rfl

theorem ExtentKey.cut_of_le (h : k.fileEnd ≤ length) : k.cut length = k :=
    if_neg (not_lt.mpr h)

theorem ExtentKey.cut_cut {a b : UInt64} (ha : k.fileOffset < a) :
    (k.cut a).cut b = k.cut (if a < b then a else b) := by
  have hend := fileEnd_cut ha
  by_cases hlong : k.fileEnd > a
  · rw [if_pos hlong] at hend
    split
    next hab => exact cut_of_le (hend.symm ▸ le_of_lt hab)
    rename_i hab
    have hba : b ≤ a := not_lt.mp hab
    obtain hlt | rfl := UInt64.lt_or_eq_of_le hba
    · rw [cut, hend, if_pos hlt, cut, if_pos hlong, cut, if_pos (UInt64.lt_trans hlt hlong)]
    · exact cut_of_le (UInt64.le_of_eq hend)
  have hle : k.fileEnd ≤ a := not_lt.mp hlong
  rw [cut_of_le hle]
  split
  next hab => rw [cut_of_le hle, cut_of_le (UInt64.le_trans hle (le_of_lt hab))]
  · rfl

theorem ExtentKey.cut_comm {a b : UInt64} (ha : k.fileOffset < a) (hb : k.fileOffset < b) :
    (k.cut a).cut b = (k.cut b).cut a := by
  rw [cut_cut ha, cut_cut hb]
  congr 1
  split <;> split
  next hab hba => exact absurd hba (UInt64.lt_asymm hab)
  · rfl
  · rfl
  next hab hba => exact UInt64.le_antisymm (not_lt.mp hab) (not_lt.mp hba)

theorem ExtentsTree.get?_append (e : ExtentsTree) (ext : ExtentKey) (k : Nat) :
    (append e ext).1.get? k = if k = ext.key then some ext else (e.get? k).filter fun x =>
        !(decide (ext.key ≤ k ∧ k < ext.fileEnd.toNat) && !x.sameExtent ext) := by
  unfold append
  dsimp only
  rw [get?_insert]
  split
  · rfl
  rw [get?_of_items_filter (items_foldl_erase _ e)]
  cases hget : e.get? k with
  | none => rfl
  | some x =>
    obtain ⟨hx, rfl⟩ := get?_eq_some_iff.mp hget
    rw [filter_some, filter_some]
    refine if_congr ?_ rfl rfl
    rw [decide_eq_true_eq, Bool.not_eq_true', Bool.and_eq_false_iff, decide_eq_false_iff_not,
      Bool.not_eq_false']
    constructor
    · intro h
      by_contra hno
      push Not at hno
      refine h x (List.mem_filter.mpr ⟨List.mem_filter.mpr ⟨hx, ?_⟩, ?_⟩) rfl
      · exact decide_eq_true hno.1
      · simpa using hno.2
    · intro h a ha heq
      obtain ⟨ha, hext⟩ := List.mem_filter.mp ha
      obtain ⟨ha, hrange⟩ := List.mem_filter.mp ha
      obtain rfl := eq_of_mem_of_key hx ha heq
      obtain h | h := h
      · exact h (of_decide_eq_true hrange)
      · rw [h] at hext
        cases hext

theorem ExtentsTree.get?_cutLast (e : ExtentsTree) (length : UInt64) (k : Nat) :
    (cutLast e length).get? k =
      (e.get? k).map fun x => if e.max?.map key = some k then x.cut length else x := by
  unfold cutLast
  cases hmax : e.max? with
  | none =>
    have hnil : e.items = [] := List.getLast?_eq_none_iff.mp hmax
    have hnone : e.get? k = none := get?_eq_none_iff.mpr (by rw [hnil]; nofun)
    rw [hnone]
    rfl
  | some m =>
    have hm : e.get? m.key = some m := get?_eq_some_iff.mpr ⟨mem_of_max? hmax, rfl⟩
    have hput : (e.insert (m.cut length)).get? k =
        (e.get? k).map fun x => if some m.key = some k then x.cut length else x := by
      rw [get?_insert, ExtentKey.key_cut]
      split
      next hk =>
        rw [hk, hm, map_some, if_pos rfl]
      rename_i hk
      cases e.get? k with
      | none => rfl
      | some x =>
        rw [map_some, if_neg]
        exact fun heq => hk (some.inj heq).symm
    rw [map_some, ← hput]
    unfold cut
    dsimp only
    split
    · rfl
    · rw [← insert_erase, erase_insert hm]

def SizedKeys.lastBefore (a : SizedKeys) (length : UInt64) : Option Nat :=
  (a.2.items.filter fun x => x.key < length.toNat).getLast?.map ExtentKey.key

theorem SizedKeys.get?_truncate (a : SizedKeys) (length : UInt64) (k : Nat) :
    (a.truncate length).2.get? k = if k < length.toNat then (a.2.get? k).map
      fun x => if a.lastBefore length = some k then x.cut length else x else none := by
  have hitems := items_erase_from a.2 length.toNat
  have hfilter : (a.2.get? k).filter (fun x => decide (x.key < length.toNat)) =
      if k < length.toNat then a.2.get? k else none := by
    cases hget : a.2.get? k with
    | none => rw [ite_self, filter_none]
    | some x =>
      rw [filter_some, key_of_get? hget]
      exact if_congr decide_eq_true_iff rfl rfl
  unfold SizedKeys.truncate
  dsimp only
  rw [get?_cutLast, get?_of_items_filter hitems, hfilter]
  unfold SizedKeys.lastBefore max?
  rw [hitems]
  by_cases hk : k < length.toNat
  · rw [if_pos hk, if_pos hk]
  · rw [if_neg hk, if_neg hk, map_none]

/-- The keys of two inodes are the same, but for those at the offset `o`, which are the same up to
`length`. -/
def CutAt (o : Nat) (length : UInt64) (a b : SizedKeys) : Prop :=
  ∀ k, (a.2.get? k).map (fun x => if k = o then x.cut length else x) =
    (b.2.get? k).map fun x => if k = o then x.cut length else x

namespace CutAt

variable {o : Nat} {length : UInt64} {a b : SizedKeys}

theorem cases (h : CutAt o length a b) (k : Nat) : a.2.get? k = none ∧ b.2.get? k = none ∨
    ∃ x y, a.2.get? k = some x ∧ b.2.get? k = some y ∧ (k ≠ o → x = y) ∧
      x.cut length = y.cut length := by
  have hk := h k
  cases ha : a.2.get? k with
  | none =>
    rw [ha, map_none] at hk
    exact .inl ⟨rfl, map_eq_none_iff.mp hk.symm⟩
  | some x =>
    rw [ha, map_some] at hk
    obtain ⟨y, hy, hxy⟩ := map_eq_some_iff.mp hk.symm
    refine .inr ⟨x, y, rfl, hy, fun hne => ?_, ?_⟩
    · rw [if_neg hne, if_neg hne] at hxy
      exact hxy.symm
    · split at hxy
      · exact hxy.symm
      · rw [hxy]

theorem of_cases (h : ∀ k, a.2.get? k = none ∧ b.2.get? k = none ∨
    ∃ x y, a.2.get? k = some x ∧ b.2.get? k = some y ∧ (k ≠ o → x = y) ∧
      x.cut length = y.cut length) : CutAt o length a b := by
  intro k
  obtain ⟨ha, hb⟩ | ⟨x, y, ha, hb, hne, hcut⟩ := h k
  · rw [ha, hb]
  · rw [ha, hb, map_some, map_some]
    split
    · rw [hcut]
    next hk => rw [hne hk]

variable (h : CutAt o length a b)
include h

theorem append (ext : ExtentKey) : CutAt o length (a.append ext) (b.append ext) := by
  refine of_cases fun k => ?_
  unfold SizedKeys.append
  dsimp only
  rw [get?_append, get?_append]
  split
  · exact .inr ⟨ext, ext, rfl, rfl, fun _ => rfl, rfl⟩
  obtain ⟨ha, hb⟩ | ⟨x, y, ha, hb, hne, hcut⟩ := h.cases k
  · rw [ha, hb]
    exact .inl ⟨rfl, rfl⟩
  · have hsame : x.sameExtent ext = y.sameExtent ext := by
      rw [← x.sameExtent_cut length, hcut, y.sameExtent_cut]
    rw [ha, hb, filter_some, filter_some, hsame]
    split
    · exact .inr ⟨x, y, rfl, rfl, hne, hcut⟩
    · exact .inl ⟨rfl, rfl⟩

theorem lastBefore (n : UInt64) : a.lastBefore n = b.lastBefore n := by
  have hlast (a : SizedKeys) : a.lastBefore n =
      ((a.2.ascendGreaterOrEqual (some n.toNat)).foldl (fun e d => e.erase d.key) a.2).max?.map
        key := by
    unfold SizedKeys.lastBefore max?
    rw [items_erase_from]
  rw [hlast, hlast]
  refine map_key_max?_congr fun k => ?_
  rw [get?_of_items_filter (items_erase_from a.2 _), get?_of_items_filter (items_erase_from b.2 _)]
  obtain ⟨ha, hb⟩ | ⟨x, y, ha, hb, -⟩ := h.cases k
  · rw [ha, hb]
  · rw [ha, hb, filter_some, filter_some, key_of_get? ha, key_of_get? hb]
    split <;> rfl

theorem truncate (ho : o < length.toNat) (n : UInt64) :
    CutAt o length (a.truncate n) (b.truncate n) := by
  refine of_cases fun k => ?_
  rw [SizedKeys.get?_truncate, SizedKeys.get?_truncate, h.lastBefore n]
  by_cases hk : k < n.toNat
  · rw [if_pos hk, if_pos hk]
    obtain ⟨ha, hb⟩ | ⟨x, y, ha, hb, hne, hcut⟩ := h.cases k
    · rw [ha, hb]
      exact .inl ⟨rfl, rfl⟩
    · rw [ha, hb]
      refine .inr ⟨_, _, rfl, rfl, fun hko => by rw [hne hko], ?_⟩
      dsimp only
      split
      · by_cases hko : k = o
        · -- the cut at `length` and the one at `n` may be made in any order
          have hoff {z : ExtentKey} {e : ExtentsTree} (hz : e.get? k = some z) (m : UInt64)
              (hm : k < m.toNat) : z.fileOffset < m := by
            have hz' : z.key = k := key_of_get? hz
            rw [← hz'] at hm
            exact lt_iff_toNat_lt.mpr hm
          rw [cut_comm (hoff ha n hk) (hoff ha length (hko ▸ ho)), hcut,
            cut_comm (hoff hb length (hko ▸ ho)) (hoff hb n hk)]
        · rw [hne hko]
      · exact hcut
  · rw [if_neg hk, if_neg hk]
    exact .inl ⟨rfl, rfl⟩

theorem truncate_eq (hlast : a.lastBefore length = some o) :
    a.truncate length = b.truncate length := by
  refine Prod.ext rfl (ext_get? fun k => ?_)
  rw [SizedKeys.get?_truncate, SizedKeys.get?_truncate, ← h.lastBefore length, hlast]
  split
  · obtain ⟨ha, hb⟩ | ⟨x, y, ha, hb, hne, hcut⟩ := h.cases k
    · rw [ha, hb]
    · rw [ha, hb, map_some, map_some]
      split
      · rw [hcut]
      next hko => rw [hne fun heq => hko (congrArg some heq.symm)]
  · rfl

end CutAt

def SameKeys (_ : UInt64) (a b : SizedKeys) : Prop := a = b

theorem keysCongr_same : KeysCongr SameKeys where
  refl := fun _ _ => rfl
  append := fun ext h => congrArg (SizedKeys.append · ext) h
  truncate := fun length h => congrArg (SizedKeys.truncate · length) h

/-- Besides, the inode `x` was cut. -/
def CutIn (x : UInt64) (o : Nat) (length : UInt64) (ino : UInt64) (a b : SizedKeys) : Prop :=
  a = b ∨ ino = x ∧ CutAt o length a b

theorem keysCongr_cutIn (x : UInt64) (ho : o < length.toNat) : KeysCongr (CutIn x o length) where
  refl := fun _ _ => .inl rfl
  append := by
    rintro ino a b ext (rfl | ⟨hino, h⟩)
    · exact .inl rfl
    · exact .inr ⟨hino, h.append ext⟩
  truncate := by
    rintro ino a b n (rfl | ⟨hino, h⟩)
    · exact .inl rfl
    · exact .inr ⟨hino, h.truncate ho n⟩

namespace PartitionValue

variable {v w : PartitionValue}

theorem Related.truncate_cut {ino : Inode} (h : Related (CutIn ino.inode o ino.size) v w)
    {i : Inode} (hi : v.inode? ino.inode = some i) (hd : i.shouldDelete = false)
    (hdir : isDir i.type = false)
    (hlast : SizedKeys.lastBefore (i.size, i.extents) ino.size = some o) :
    Related SameKeys (v.apply (.extentTruncate ino)) (w.apply (.extentTruncate ino)) := by
  have hf := Alters.truncate ino.size ino.modifyTime
  refine ⟨?_, fun k => ?_⟩
  · exact ((w.alterInode_rest _ _).2.2.trans h.dentries).trans (v.alterInode_rest _ _).2.2.symm
  · unfold PartitionValue.apply
    dsimp only
    rw [v.get?_alterInode hf.key, w.get?_alterInode hf.key]
    have hk := h.inodes k
    split
    next hkey =>
      subst hkey
      have hi' : v.inodeTree.get? ino.inode.toNat = some i := hi
      rw [hi'] at hk ⊢
      generalize w.inodeTree.get? ino.inode.toNat = b at hk
      cases hk with
      | some hij =>
        obtain ⟨t, n, e, rfl, hkeys⟩ := hij
        have htrunc : SizedKeys.truncate (i.size, i.extents) ino.size =
            SizedKeys.truncate (n, e) ino.size := by
          obtain heq | ⟨-, hcut⟩ := hkeys
          · rw [heq]
          · exact hcut.truncate_eq hlast
        have hmark (j : Inode) (hj : j.shouldDelete = i.shouldDelete) (hj' : j.type = i.type) :
            (some j).bind (fun j => if j.shouldDelete then some j else
              some (if isDir j.type then j else (j.truncateKeys ino.size ino.modifyTime).1)) =
              some (j.truncateKeys ino.size ino.modifyTime).1 := by
          rw [bind_some, hj, hd, hj', hdir]
          rfl
        rw [hmark i rfl rfl, hmark { i with accessTime := t, size := n, extents := e } rfl rfl]
        exact .some ⟨t, ino.size, (SizedKeys.truncate (n, e) ino.size).2, rfl, htrunc⟩
    rename_i hne
    generalize hv : v.inodeTree.get? k = a at hk
    generalize w.inodeTree.get? k = b at hk
    cases hk with
    | none => exact .none
    | some hij =>
      obtain ⟨t, n, e, rfl, hkeys⟩ := hij
      obtain heq | ⟨hino, -⟩ := hkeys
      · exact .some ⟨t, n, e, rfl, heq⟩
      · refine absurd ?_ hne
        rw [← key_of_get? hv]
        exact congrArg toNat hino

def SameTrees (v w : PartitionValue) : Prop :=
  v.dentryTree = w.dentryTree ∧ ∀ k,
    (v.inodeTree.get? k).map (fun i => { i with accessTime := 0 }) =
    (w.inodeTree.get? k).map fun i => { i with accessTime := 0 }

theorem sameTrees_iff : SameTrees v w ↔ Related SameKeys v w := by
  constructor
  · rintro ⟨hd, hi⟩
    refine ⟨hd.symm, fun k => ?_⟩
    have hk := hi k
    generalize v.inodeTree.get? k = a at hk ⊢
    generalize w.inodeTree.get? k = b at hk ⊢
    cases a with
    | none =>
      cases b with
      | none => exact .none
      | some j => cases hk
    | some i =>
      cases b with
      | none => cases hk
      | some j =>
        obtain ⟨_, _, _, _, _, _, _, t, _, _, _, _, _, _⟩ := j
        cases i
        cases hk
        exact .some ⟨t, _, _, rfl, rfl⟩
  · rintro ⟨hd, hi⟩
    refine ⟨hd.symm, fun k => ?_⟩
    have hk := hi k
    generalize v.inodeTree.get? k = a at hk ⊢
    generalize w.inodeTree.get? k = b at hk ⊢
    cases hk with
    | none => rfl
    | some hij =>
      obtain ⟨t, n, e, rfl, hkeys⟩ := hij
      cases hkeys
      rfl

theorem SameTrees.trans {u : PartitionValue} (h : SameTrees u v) (h' : SameTrees v w) :
    SameTrees u w :=
  ⟨h.1.trans h'.1, fun k => (h.2 k).trans (h'.2 k)⟩

theorem SameTrees.symm (h : SameTrees v w) : SameTrees w v :=
  ⟨h.1.symm, fun k => (h.2 k).symm⟩

theorem SameTrees.foldl (h : SameTrees v w) (cs : List MetaPartition.Command) :
    SameTrees (cs.foldl PartitionValue.apply v) (cs.foldl PartitionValue.apply w) :=
  sameTrees_iff.mpr ((sameTrees_iff.mp h).foldl keysCongr_same cs)

end PartitionValue
end ChubaoFS
