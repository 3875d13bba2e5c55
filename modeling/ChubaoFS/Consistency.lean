import ChubaoFS.SdkApi
import ChubaoFS.RpcCases

namespace ChubaoFS

variable {n : Nat}

namespace MetaWrapper

structure Mapped (mw : MetaWrapper n) (V : Volume n) : Prop where
  listed : ∀ p, ∃ r ∈ mw.ranges.items, r.id = p ∧ r.start = (V p).start ∧ r.endId = (V p).endId
  disjoint : ∀ r ∈ mw.ranges.items, ∀ r' ∈ mw.ranges.items, r.start < r'.start → r.endId < r'.start

theorem Mapped.getPartitionByInode {mw : MetaWrapper n} {V : Volume n} (h : mw.Mapped V)
    {p : Fin n} {ino : UInt64} (hstart : (V p).start ≤ ino) (hend : ino ≤ (V p).endId) :
    mw.getPartitionByInode ino = some p := by
  obtain ⟨r, hr, hid, hs, he⟩ := h.listed p
  have hmem : r ∈ mw.ranges.descendLessOrEqual ino.toNat := by
    rw [← hs] at hstart
    exact OrdTree.mem_descendLessOrEqual.mpr ⟨hr, UInt64.le_iff_toNat_le.mp hstart⟩
  -- the head is the range of `p`: a later start would lie beyond its end
  cases hd : mw.ranges.descendLessOrEqual ino.toNat with
  | nil =>
    rw [hd] at hmem
    cases hmem
  | cons a l =>
    have hsorted : (a :: l).Pairwise fun x y => y.key < x.key := by
      rw [← hd]
      exact List.pairwise_reverse.mpr (mw.ranges.sorted.filter _)
    have ha : a ∈ mw.ranges.items ∧ a.key ≤ ino.toNat :=
      OrdTree.mem_descendLessOrEqual.mp (by simp [hd])
    have heq : a = r := by
      rw [hd] at hmem
      obtain rfl | hl := List.mem_cons.mp hmem
      · rfl
      · have hlt : r.start < a.start :=
          UInt64.lt_iff_toNat_lt.mpr ((List.pairwise_cons.mp hsorted).1 r hl)
        have hgap := UInt64.lt_iff_toNat_lt.mp (h.disjoint r hr a ha.1 hlt)
        rw [he] at hgap
        have hle := UInt64.le_iff_toNat_le.mp hend
        have hkey : a.start.toNat ≤ ino.toNat := ha.2
        omega
    subst heq
    have hin : ¬ (ino > a.endId ∨ ino < a.start) := by
      rw [hs, he]
      rintro (hgt | hlt)
      · exact UInt64.lt_irrefl _ (UInt64.lt_of_lt_of_le hgt hend)
      · exact UInt64.lt_irrefl _ (UInt64.lt_of_lt_of_le hlt hstart)
    unfold MetaWrapper.getPartitionByInode
    rw [hd, List.head?_cons]
    dsimp only
    rw [if_neg hin, hid]

end MetaWrapper

/-- A namespace in which every dentry lies under a directory and names an inode that is there, and
every regular file has a link for each dentry that names it. -/
structure FilesCounted (mw : MetaWrapper n) (V : Volume n) : Prop where
  mapped : mw.Mapped V
  cursor : ∀ p, (V p).start ≤ (V p).cursor
  used : ∀ p ino i, V.toNamespace.node p ino = some i → ino ≤ (V p).cursor
  parent : ∀ p, ∀ d ∈ (V.toNamespace.dents p).items, mw.getPartitionByInode d.parentId = some p ∧
      ∃ i, V.toNamespace.node p d.parentId = some i ∧ isDir i.type = true
  target : ∀ p, ∀ d ∈ (V.toNamespace.dents p).items, ∃ q i,
    mw.getPartitionByInode d.inode = some q ∧ V.toNamespace.node q d.inode = some i ∧
      i.shouldDelete = false
  file : ∀ ino p i, mw.getPartitionByInode ino = some p → V.toNamespace.node p ino = some i →
    isRegular i.type = true → i.nLink.toNat = V.toNamespace.names ino

/-- Every link count is right, and a dentry has the type of its inode. -/
structure Consistent (mw : MetaWrapper n) (V : Volume n) : Prop extends FilesCounted mw V where
  nonzero : ∀ p ino i, V.toNamespace.node p ino = some i → ino ≠ 0
  kind : ∀ p, ∀ d ∈ (V.toNamespace.dents p).items, ∀ q i,
    mw.getPartitionByInode d.inode = some q → V.toNamespace.node q d.inode = some i →
      i.type &&& modeType = d.type &&& modeType
  dir : ∀ ino p i, mw.getPartitionByInode ino = some p → V.toNamespace.node p ino = some i →
    isDir i.type = true → i.nLink.toNat = 2 + V.toNamespace.children ino

/-! A volume of one partition: the root directory and one entry `s` in it, a file or a directory. -/

def oneRange : MetaWrapper 1 := ⟨OrdTree.empty.insert ⟨0, 0, 100⟩⟩

def oneEntry (mode : UInt32) : Volume 1 := fun _ =>
  (((MetaPartition.new 0 100).apply
    (.createInode (MetaPartition.newInode 0 1 modeDir 0 0 []))).apply
    (.createInode (MetaPartition.newInode 0 2 mode 0 0 []))).apply
      (.createDentry ⟨1, [115], 2, mode⟩)

variable {mode : UInt32}

section

variable (hm : mode = 0 ∨ mode = modeDir)
include hm

theorem oneEntry_ids (p : Fin 1) :
    (oneEntry mode p).start = 0 ∧ (oneEntry mode p).endId = 100 ∧ (oneEntry mode p).cursor = 2 ∧
      (oneEntry mode p).dentryTree.items = [⟨1, [115], 2, mode⟩] ∧
      (oneEntry mode p).inodeTree.index.items = [(1, 0), (2, 1)] := by
  obtain rfl | rfl := hm <;> exact ⟨rfl, rfl, rfl, rfl, rfl⟩

theorem oneEntry_nodes (p : Fin 1) {x : UInt64} {i : InodeCell}
    (hi : (oneEntry mode).toNamespace.node p x = some i) :
    i.shouldDelete = false ∧ ((x = 1 ∧ i.type = modeDir ∧ i.nLink = 3) ∨
      (x = 2 ∧ i.type = mode ∧ i.nLink = if isDir mode then 2 else 1)) := by
  obtain rfl := Fin.fin_one_eq_zero p
  obtain ⟨a, ha, -⟩ := MetaPartition.inode?_eq_some_iff.mp hi
  have hmem := ObjTree.addr?_eq_some_iff.mp ha
  rw [(oneEntry_ids hm 0).2.2.2.2] at hmem
  obtain hx | hx : x = 1 ∨ x = 2 := by
    simp only [List.mem_cons, Prod.mk.injEq, List.not_mem_nil, or_false, ← UInt64.toNat_inj]
      at hmem ⊢
    exact hmem.imp And.left And.left
  · subst hx
    obtain rfl | rfl := hm <;> obtain rfl := Option.some.inj hi <;>
      exact ⟨by decide, .inl ⟨rfl, rfl, rfl⟩⟩
  · subst hx
    obtain rfl | rfl := hm <;> obtain rfl := Option.some.inj hi <;>
      exact ⟨by decide, .inr ⟨rfl, rfl, by decide⟩⟩

theorem oneEntry_has : (∃ i, (oneEntry mode).toNamespace.node 0 1 = some i) ∧
      ∃ i, (oneEntry mode).toNamespace.node 0 2 = some i := by
  obtain rfl | rfl := hm <;> exact ⟨⟨_, rfl⟩, ⟨_, rfl⟩⟩

theorem mapped_oneRange : oneRange.Mapped (oneEntry mode) := by
  constructor
  · intro p
    obtain ⟨hs, he, -⟩ := oneEntry_ids hm p
    exact ⟨⟨0, 0, 100⟩, List.mem_singleton.mpr rfl, (Fin.fin_one_eq_zero p).symm, hs.symm, he.symm⟩
  · intro r hr r' hr' hlt
    obtain rfl := List.mem_singleton.mp hr
    obtain rfl := List.mem_singleton.mp hr'
    exact absurd hlt (UInt64.lt_irrefl _)

end

theorem route_oneRange : oneRange.getPartitionByInode 1 = some 0 ∧
    oneRange.getPartitionByInode 2 = some 0 := by decide

variable (hm : mode = 0 ∨ mode = modeDir)
include hm

theorem dents_oneEntry {p : Fin 1} {d : Dentry}
    (h : d ∈ ((oneEntry mode).toNamespace.dents p).items) : d = ⟨1, [115], 2, mode⟩ := by
  have hitems : ((oneEntry mode).toNamespace.dents p).items = [⟨1, [115], 2, mode⟩] :=
    (oneEntry_ids hm p).2.2.2.1
  rw [hitems] at h
  exact List.mem_singleton.mp h

theorem consistent_oneEntry : Consistent oneRange (oneEntry mode) where
  mapped := mapped_oneRange hm
  cursor p := by
    obtain ⟨hs, -, hc, -⟩ := oneEntry_ids hm p
    rw [hs, hc]
    decide
  used p ino i hi := by
    rw [(oneEntry_ids hm p).2.2.1]
    obtain ⟨-, ⟨rfl, -⟩ | ⟨rfl, -⟩⟩ := oneEntry_nodes hm p hi <;> decide
  parent p d hd := by
    obtain rfl := dents_oneEntry hm hd
    obtain ⟨⟨i, hi⟩, -⟩ := oneEntry_has hm
    rw [Fin.fin_one_eq_zero p]
    refine ⟨route_oneRange.1, i, hi, ?_⟩
    obtain ⟨-, ⟨-, ht, -⟩ | ⟨hx, -⟩⟩ := oneEntry_nodes hm 0 hi
    · rw [ht]
      decide
    · exact absurd hx (by decide)
  target p d hd := by
    obtain rfl := dents_oneEntry hm hd
    obtain ⟨-, i, hi⟩ := oneEntry_has hm
    exact ⟨0, i, route_oneRange.2, hi, (oneEntry_nodes hm 0 hi).1⟩
  file ino p i _ hi hreg := by
    obtain ⟨-, ⟨-, ht, -⟩ | ⟨rfl, ht, hl⟩⟩ := oneEntry_nodes hm p hi
    · rw [ht] at hreg
      exact absurd hreg (by decide)
    · rw [ht] at hreg
      obtain rfl | rfl := hm
      · rw [hl]
        rfl
      · exact absurd hreg (by decide)
  nonzero p ino i hi := by
    obtain ⟨-, ⟨rfl, -⟩ | ⟨rfl, -⟩⟩ := oneEntry_nodes hm p hi <;> decide
  kind p d hd q i _ hi := by
    obtain rfl := dents_oneEntry hm hd
    obtain ⟨-, ⟨hx, -⟩ | ⟨-, ht, -⟩⟩ := oneEntry_nodes hm q hi
    · have h21 : (2 : UInt64) = 1 := hx
      exact absurd h21 (by decide)
    · rw [ht]
  dir ino p i _ hi hdir := by
    obtain ⟨-, ⟨rfl, ht, hl⟩ | ⟨rfl, ht, hl⟩⟩ := oneEntry_nodes hm p hi
    · rw [hl]
      obtain rfl | rfl := hm <;> rfl
    · rw [ht] at hdir
      obtain rfl | rfl := hm
      · exact absurd hdir (by decide)
      · rw [hl]
        rfl

end ChubaoFS
