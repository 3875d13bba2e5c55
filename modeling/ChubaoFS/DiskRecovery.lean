import ChubaoFS.MasterMemory
import Mathlib.Data.List.TakeWhile

namespace ChubaoFS.Master

open List

/-! The partitions of bad disks, which are followed until they have recovered. -/

/-- The nearest `float64`, ties going to the even one. -/
def float64 (n : UInt64) : Nat :=
  let ulp := Nat.pow 2 (n.toNat.log2 - 52)
  let q := n.toNat / ulp
  let r := n.toNat % ulp
  (if ulp < 2 * r ∨ ulp = 2 * r ∧ q % 2 = 1 then q + 1 else q) * ulp

structure BadPartition where
  volName : Text
  -- `Used` of the replicas
  used : List UInt64

namespace BadPartition

/-- The values of `tmpDiff`. A difference below 2^53 is exact, and a larger one stays as large. -/
def diffs (p : BadPartition) : List Nat :=
  p.used.flatMap fun used => p.used.head?.toList.map fun first =>
    ((float64 used : Int) - float64 first).natAbs

def Near (p : BadPartition) : Prop :=
  ∀ used ∈ p.used, ∀ first ∈ p.used.head?, ((used.toNat : Int) - first.toNat).natAbs < GB.toNat

end BadPartition

/-- `BadDataPartitionIds`: the disks with their partitions, as `Range` comes to them. -/
structure BadDisks where
  disks : List (Text × List UInt64)
  distinct : (disks.map Prod.fst).Nodup

def BadDisks.ids (b : BadDisks) : List (Text × UInt64) :=
  b.disks.flatMap fun disk => disk.2.map (disk.1, ·)

structure DiskRecovery where
  getDataPartitionByID : UInt64 → Option BadPartition
  -- `dpReplicaNum` of the volume
  getVol : Text → Option UInt8

namespace DiskRecovery

/-- The partition, unless the loop goes on with the next one. -/
def compared (c : DiskRecovery) (partitionID : UInt64) : Option BadPartition := do
  let partition ← c.getDataPartitionByID partitionID
  let dpReplicaNum ← c.getVol partition.volName
  if partition.used.length = 0 ∨ partition.used.length < dpReplicaNum.toNat then none
  else some partition

/-- The loops over the disks and over the partitions of each of them: the partitions that are left
in the lists, and those whose `isRecover` is cleared. The largest difference is kept from one
partition to the next, and from one disk to the next. -/
def checkIds (c : DiskRecovery) :
    Nat → List (Text × UInt64) → List (Text × UInt64) × List UInt64
  | _, [] => ([], [])
  | diff, (key, partitionID) :: ids =>
    match c.compared partitionID with
    | none => c.checkIds diff ids
    | some partition =>
      let diff := partition.diffs.foldl max diff
      let (newBadDpIds, recovered) := c.checkIds diff ids
      if diff < GB.toNat then (newBadDpIds, partitionID :: recovered)
      else ((key, partitionID) :: newBadDpIds, recovered)

def checkDiskRecoveryProgress (c : DiskRecovery) (b : BadDisks) :
    List (Text × UInt64) × List UInt64 := c.checkIds 0 b.ids

/-- The partition has enough replicas, and all of them are near to the first one. -/
def Recovered (c : DiskRecovery) (id : UInt64) : Prop :=
  ∃ p dpReplicaNum, c.getDataPartitionByID id = some p ∧ c.getVol p.volName = some dpReplicaNum ∧
    dpReplicaNum.toNat ≤ p.used.length ∧ p.Near

/-- A pass drops just the partitions that are gone or have recovered from the lists of their disks,
and clears `isRecover` of none but the latter. -/
def Exact (c : DiskRecovery) (b : BadDisks) : Prop :=
  (∀ x ∈ b.ids, x ∉ (c.checkDiskRecoveryProgress b).1 ↔
    c.getDataPartitionByID x.2 = none ∨ c.Recovered x.2) ∧
  ∀ id ∈ (c.checkDiskRecoveryProgress b).2, c.Recovered id

structure Uniform (c : DiskRecovery) (b : BadDisks) : Prop where
  counted : ∀ x ∈ b.ids, ∀ p, c.getDataPartitionByID x.2 = some p →
    ∃ dpReplicaNum, c.getVol p.volName = some dpReplicaNum ∧ dpReplicaNum.toNat ≤ p.used.length
  -- the rounded values are near just when the values are
  rounded : ∀ x ∈ b.ids, ∀ p, c.compared x.2 = some p →
    ((∀ diff ∈ p.diffs, diff < GB.toNat) ↔ p.Near)
  together : ∀ x ∈ b.ids, ∀ y ∈ b.ids, ∀ p q, c.compared x.2 = some p → c.compared y.2 = some q →
    p.Near → q.Near

variable {c : DiskRecovery} {id : UInt64} {p : BadPartition} {x : Text × UInt64} {b : BadDisks}

def far (c : DiskRecovery) (x : Text × UInt64) : Bool :=
  (c.compared x.2).any fun p => p.diffs.any (GB.toNat ≤ ·)

theorem far_eq_false_iff (h : c.compared x.2 = some p) :
    c.far x = false ↔ ∀ d ∈ p.diffs, d < GB.toNat := by simp [far, h]

theorem foldl_max_lt_iff (l : List Nat) (d n : Nat) :
    l.foldl max d < n ↔ d < n ∧ ∀ x ∈ l, x < n := by
  induction l generalizing d with
  | nil => simp
  | cons x l ih => simp [ih, and_assoc]

/-- Behind a partition that is far, every one that is compared is left. -/
theorem checkIds_eq (c : DiskRecovery) (diff : Nat) (ids : List (Text × UInt64)) :
    (c.checkIds diff ids).1 = (if diff < GB.toNat then ids.dropWhile (!c.far ·) else ids).filter
      (fun x => (c.compared x.2).isSome) ∧
    ∀ id ∈ (c.checkIds diff ids).2, ∃ x ∈ ids, x.2 = id ∧ (c.compared id).isSome ∧
      c.far x = false := by
  induction ids generalizing diff with
  | nil => simp [checkIds]
  | cons x ids ih =>
    cases h : c.compared x.2 with
    | none =>
      have hfar : c.far x = false := by simp [far, h]
      obtain ⟨hleft, hrec⟩ := ih diff
      simp only [checkIds, h]
      refine ⟨?_, fun id hid => (hrec id hid).imp fun y hy => hy.imp_left (.tail x)⟩
      by_cases hd : diff < GB.toNat <;> simp [hleft, hd, hfar, h]
    | some p =>
      obtain ⟨hleft, hrec⟩ := ih (p.diffs.foldl max diff)
      have hlt := foldl_max_lt_iff p.diffs diff GB.toNat
      rw [← far_eq_false_iff h] at hlt
      by_cases hd : p.diffs.foldl max diff < GB.toNat
      · obtain ⟨hd', hx⟩ := hlt.mp hd
        simp only [checkIds, h, hd, if_true] at hleft ⊢
        refine ⟨by simp [hleft, hd', hx], forall_mem_cons.mpr ⟨?_, fun id hid => ?_⟩⟩
        · exact ⟨x, .head _, rfl, by simp [h], hx⟩
        · exact (hrec id hid).imp fun y hy => hy.imp_left (.tail x)
      · simp only [checkIds, h, hd, if_false] at hleft ⊢
        refine ⟨?_, fun id hid => (hrec id hid).imp fun y hy => hy.imp_left (.tail x)⟩
        rw [hlt] at hd
        by_cases hd' : diff < GB.toNat
        · simp [hleft, hd', show c.far x = true by simpa [hd'] using hd, h]
        · simp [hleft, hd', h]

theorem mem_left_iff : x ∈ (c.checkDiskRecoveryProgress b).1 ↔
    x ∈ b.ids.dropWhile (!c.far ·) ∧ (c.compared x.2).isSome := by
  rw [checkDiskRecoveryProgress, (c.checkIds_eq 0 b.ids).1, mem_filter]
  rfl

theorem mem_dropWhile_of_far (hx : x ∈ b.ids) (hfar : c.far x = true) :
    x ∈ b.ids.dropWhile (!c.far ·) := by
  rw [← takeWhile_append_dropWhile (p := (!c.far ·)) (l := b.ids)] at hx
  refine (mem_append.mp hx).resolve_left fun h => ?_
  simpa [hfar] using mem_takeWhile_imp h

theorem compared_eq_some_iff : c.compared id = some p ↔ c.getDataPartitionByID id = some p ∧
    p.used ≠ [] ∧ ∃ dpReplicaNum, c.getVol p.volName = some dpReplicaNum ∧
      dpReplicaNum.toNat ≤ p.used.length := by
  simp only [compared, Option.bind_eq_bind, Option.bind_eq_some_iff]
  constructor
  · rintro ⟨q, hq, n, hn, h⟩
    split at h
    · cases h
    next hlen =>
      cases h
      push Not at hlen
      exact ⟨hq, length_eq_zero_iff.not.mp hlen.1, n, hn, hlen.2⟩
  · rintro ⟨hp, hne, n, hn, hle⟩
    refine ⟨p, hp, n, hn, if_neg ?_⟩
    simpa [hne] using hle

theorem recovered_of_compared (h : c.compared id = some p) :
    c.getDataPartitionByID id = none ∨ c.Recovered id ↔ p.Near := by
  obtain ⟨hp, -, n, hn, hle⟩ := compared_eq_some_iff.mp h
  constructor
  · rintro (hnone | ⟨q, m, hq, -, -, hnear⟩)
    · simp [hnone] at hp
    · exact Option.some.inj (hp.symm.trans hq) ▸ hnear
  · exact fun hnear => .inr ⟨p, n, hp, hn, hle, hnear⟩

theorem Exact.mem_iff (h : c.Exact b) (hx : x ∈ b.ids) (hc : c.compared x.2 = some p) :
    x ∈ b.ids.dropWhile (!c.far ·) ↔ ¬ p.Near := by
  rw [← recovered_of_compared hc, ← h.1 x hx, mem_left_iff, hc]
  simp

/-- The disk and the partition can come first. -/
theorem exists_front (hx : x ∈ b.ids) : ∃ b' : BadDisks, b'.ids.Perm b.ids ∧ ∃ front rest,
    b'.ids = front ++ rest ∧ x ∈ front ∧ (∀ y ∈ front, y = x) ∧ x ∉ rest := by
  obtain ⟨⟨key, ids⟩, hids, hid⟩ := mem_flatMap.mp hx
  obtain ⟨id, hid, rfl⟩ := mem_map.mp hid
  obtain ⟨others, hp⟩ : ∃ others, b.disks.Perm ((key, ids) :: others) := ⟨_, perm_cons_erase hids⟩
  have hkeys := (hp.map Prod.fst).nodup_iff.mp b.distinct
  refine ⟨⟨(key, ids.filter (· = id) ++ ids.filter (¬ · = id)) :: others, hkeys⟩, ?_,
    (ids.filter (· = id)).map (key, ·), (ids.filter (¬ · = id)).map (key, ·) ++
      others.flatMap fun disk => disk.2.map (disk.1, ·), by simp [BadDisks.ids], ?_, by simp, ?_⟩
  · refine Perm.trans ?_ (hp.symm.flatMap_right _)
    refine (Perm.map _ ?_).append_right _
    simpa using filter_append_perm (· = id) ids
  · simpa using hid
  · rw [map_cons, nodup_cons] at hkeys
    simp only [mem_append, mem_map, mem_flatMap, Prod.mk.injEq, not_or]
    refine ⟨by simp, ?_⟩
    rintro ⟨disk, hdisk, -, -, hkey, -⟩
    exact hkeys.1 (mem_map.mpr ⟨disk, hdisk, hkey⟩)

/-- A pass is exact in every order just when each partition that is there has its volume and enough
replicas, rounding does not bring `Used` values to the other side of the limit, and either all of
the partitions that are compared have recovered or none has. -/
theorem exact_iff (c : DiskRecovery) (b : BadDisks) :
    (∀ b' : BadDisks, b'.ids.Perm b.ids → c.Exact b') ↔ c.Uniform b := by
  constructor
  · intro h
    have hself := h b (.refl _)
    have hrounded : ∀ x ∈ b.ids, ∀ p, c.compared x.2 = some p →
        ((∀ diff ∈ p.diffs, diff < GB.toNat) ↔ p.Near) := by
      intro x hx p hc
      rw [← far_eq_false_iff hc]
      constructor
      · intro hfar
        obtain ⟨b', hp, front, rest, hids, -, hfront, hrest⟩ := exists_front hx
        by_contra hnear
        have hmem := ((h b' hp).mem_iff (hp.mem_iff.mpr hx) hc).mpr hnear
        rw [hids, dropWhile_append_of_pos fun y hy => by simp [hfront y hy, hfar]] at hmem
        exact hrest ((dropWhile_sublist _).subset hmem)
      · intro hnear
        by_contra hfar
        have hmem := mem_dropWhile_of_far hx (Bool.not_eq_false _ ▸ hfar)
        exact (hself.mem_iff hx hc).mp hmem hnear
    refine ⟨fun x hx p hp => ?_, hrounded, fun x hx y hy p q hxc hyc hnear => ?_⟩
    · cases hc : c.compared x.2 with
      | some q =>
        obtain ⟨hq, -, hn⟩ := compared_eq_some_iff.mp hc
        exact Option.some.inj (hq.symm.trans hp) ▸ hn
      | none =>
        have hdrop := (hself.1 x hx).mp fun hmem => by simpa [hc] using (mem_left_iff.mp hmem).2
        obtain hnone | ⟨q, n, hq, hn, hle, -⟩ := hdrop
        · simp [hnone] at hp
        · exact Option.some.inj (hq.symm.trans hp) ▸ ⟨n, hn, hle⟩
    · by_contra hfar
      rw [← hrounded y hy q hyc, ← far_eq_false_iff hyc, Bool.not_eq_false] at hfar
      obtain ⟨b', hp, front, rest, hids, hy, hfront, -⟩ := exists_front hy
      have hall : b'.ids.dropWhile (!c.far ·) = b'.ids := by
        obtain ⟨z, front, rfl⟩ := exists_cons_of_ne_nil (ne_nil_of_mem hy)
        rw [hids, cons_append, dropWhile_cons_of_neg]
        simp [hfront z (.head _), hfar]
      have hx' := hp.mem_iff.mpr hx
      exact ((h b' hp).mem_iff hx' hxc).mp (hall.symm ▸ hx') hnear
  · intro h b' hp
    have hfar {x} (hx : x ∈ b'.ids) {p} (hc : c.compared x.2 = some p) :
        c.far x = false ↔ p.Near :=
      (far_eq_false_iff hc).trans (h.rounded x (hp.mem_iff.mp hx) p hc)
    refine ⟨fun x hx => ?_, fun id hid => ?_⟩
    · rw [mem_left_iff]
      cases hc : c.compared x.2 with
      | none =>
        refine iff_of_true (by simp) ?_
        cases hget : c.getDataPartitionByID x.2 with
        | none => exact .inl rfl
        | some p =>
          obtain ⟨n, hn, hle⟩ := h.counted x (hp.mem_iff.mp hx) p hget
          have hused : p.used = [] := by
            by_contra hne
            simp [compared_eq_some_iff.mpr ⟨hget, hne, n, hn, hle⟩] at hc
          exact .inr ⟨p, n, hget, hn, hle, by simp [BadPartition.Near, hused]⟩
      | some p =>
        rw [recovered_of_compared hc, ← hfar hx hc]
        constructor
        · intro hdrop
          by_contra hne
          exact hdrop ⟨mem_dropWhile_of_far hx (Bool.not_eq_false _ ▸ hne), rfl⟩
        · rintro hnear ⟨hmem, -⟩
          rw [dropWhile_eq_nil_iff.mpr] at hmem
          · exact not_mem_nil hmem
          · intro y hy
            cases hyc : c.compared y.2 with
            | none => simp [far, hyc]
            | some q =>
              have hnear' := h.together x (hp.mem_iff.mp hx) y (hp.mem_iff.mp hy) p q hc hyc
                ((hfar hx hc).mp hnear)
              rw [(hfar hy hyc).mpr hnear', Bool.not_false]
    · obtain ⟨x, hx, rfl, hc, hnear⟩ := (c.checkIds_eq 0 b'.ids).2 id hid
      obtain ⟨p, hc⟩ := Option.isSome_iff_exists.mp hc
      obtain ⟨hget, -, n, hn, hle⟩ := compared_eq_some_iff.mp hc
      exact ⟨p, n, hget, hn, hle, (hfar hx hc).mp hnear⟩

/-- A partition with different replicas before one that has recovered. -/
def farFirst : DiskRecovery where
  getDataPartitionByID id :=
    if id = 1 then some ⟨[], [0, GB]⟩ else if id = 2 then some ⟨[], [0, 0]⟩ else none
  getVol _ := some 2

theorem farFirst_left : farFirst.Recovered 2 ∧
    (farFirst.checkDiskRecoveryProgress ⟨[([], [1, 2])], by decide⟩).1 = [([], 1), ([], 2)] ∧
    (farFirst.checkDiskRecoveryProgress ⟨[([], [2, 1])], by decide⟩).1 = [([], 1)] := by
  refine ⟨⟨⟨[], [0, 0]⟩, 2, rfl, rfl, by decide, ?_⟩, by decide, by decide⟩
  simp [BadPartition.Near, GB]

end DiskRecovery
end ChubaoFS.Master
