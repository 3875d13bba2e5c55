import ChubaoFS.MasterMemory

namespace ChubaoFS.Master

open List

/-! The racks of a node set, and the choice of some of them. -/

structure Rack where
  name : Text
  dataNodes : List DataNode

/-- `canWrite(1)`. -/
def Rack.canWrite (rack : Rack) : Bool :=
  rack.dataNodes.any fun node => node.isActive && node.isWriteAble

structure RackSet where
  racks : List Text
  -- the racks of the map, which are listed in any order
  rackMap : List Rack
  rackIndex : Nat

inductive AllocError
  | noRackToCreateDataPartition
  | indexOutOfRange
  deriving DecidableEq

namespace RackSet

def getRack (ns : RackSet) (name : Text) : Option Rack := ns.rackMap.find? (·.name = name)

/-- The loop appends to the list that it counts by. Nothing is returned for an index outside of the
rack list. -/
def allocLoop (ns : RackSet) (replicaNum : Int) (excludeRack : List Text) :
    Nat → Nat → Nat → List Rack → Option (List Rack × Nat)
  | 0, _, rackIndex, racks => some (racks, rackIndex)
  | n + 1, i, rackIndex, racks =>
    if i < racks.length then
      let rackIndex := if racks.length ≤ rackIndex then 0 else rackIndex
      match ns.racks[rackIndex]? with
      | none => none
      | some rName =>
        if rName ∈ excludeRack then ns.allocLoop replicaNum excludeRack n (i + 1) rackIndex racks
        else
          match ns.getRack rName with
          | none => ns.allocLoop replicaNum excludeRack n (i + 1) rackIndex racks
          | some rack =>
            let racks := if rack.canWrite then racks ++ [rack] else racks
            if replicaNum ≤ racks.length then some (racks, rackIndex + 1)
            else ns.allocLoop replicaNum excludeRack n (i + 1) (rackIndex + 1) racks
    else some (racks, rackIndex)

/-- `allocRacks`, with the racks of the map in the order of `getAllRacks`. The loop goes on while
the list is shorter than the number of replicas, so it ends within the rounds that it has here. -/
def allocRacks (ns : RackSet) (allRacks : List Rack) (replicaNum : Int) (excludeRack : List Text) :
    Except AllocError (List Rack) :=
  if ns.rackMap.length = 1 then .ok allRacks
  else
    match ns.allocLoop replicaNum excludeRack (allRacks.length + replicaNum.toNat) 0 ns.rackIndex
        allRacks with
    | none => .error .indexOutOfRange
    | some (racks, _) =>
      if racks.isEmpty then .error .noRackToCreateDataPartition
      else .ok (racks.take replicaNum.toNat)

/-- There are two racks at least, and the rack list has the names of those in the map. -/
structure Registered (ns : RackSet) : Prop where
  several : 2 ≤ ns.rackMap.length
  distinct : (ns.rackMap.map Rack.name).Nodup
  names : ns.racks.Perm (ns.rackMap.map Rack.name)

structure Allocated (replicaNum : Int) (excludeRack : List Text)
    (r : Except AllocError (List Rack)) : Prop where
  inside : r ≠ .error .indexOutOfRange
  distinct : ∀ racks, r = .ok racks → (racks.map Rack.name).Nodup
  writable : ∀ racks, r = .ok racks → ∀ rack ∈ racks, rack.canWrite = true
  included : ∀ racks, r = .ok racks → ∀ rack ∈ racks, rack.name ∉ excludeRack
  length : ∀ racks, r = .ok racks → racks.length ≤ replicaNum

variable {ns : RackSet} {replicaNum : Int} {excludeRack : List Text} {racks racks' all : List Rack}

theorem prefix_allocLoop {n i rackIndex j : Nat}
    (h : ns.allocLoop replicaNum excludeRack n i rackIndex racks = some (racks', j)) :
    racks <+: racks' := by
  induction n generalizing i rackIndex racks with
  | zero =>
    cases h
    exact prefix_rfl
  | succ n ih =>
    unfold allocLoop at h
    split at h
    · dsimp only at h
      split at h
      · cases h
      · split at h
        · exact ih h
        · split at h
          · exact ih h
          next rack _ =>
            have hlonger : racks <+: if rack.canWrite then racks ++ [rack] else racks := by
              split
              · exact prefix_append ..
              · exact prefix_rfl
            generalize (if rack.canWrite then racks ++ [rack] else racks) = longer at h hlonger
            split at h
            · cases h
              exact hlonger
            · exact hlonger.trans (ih h)
    · cases h
      exact prefix_rfl

/-- With racks that can all be taken, the first round of the loop appends one of them again. -/
theorem allocLoop_first (replicaNum : Int) (hreg : ns.Registered) (hall : all.Perm ns.rackMap)
    (hok : ∀ rack ∈ ns.rackMap, rack.canWrite = true ∧ rack.name ∉ excludeRack) (n : Nat) :
    ∃ rack ∈ ns.rackMap, ∃ j, ns.allocLoop replicaNum excludeRack (n + 1) 0 ns.rackIndex all =
        if replicaNum ≤ (all ++ [rack]).length then some (all ++ [rack], j)
        else ns.allocLoop replicaNum excludeRack n 1 j (all ++ [rack]) := by
  have hlen := hall.length_eq
  have hnames := hreg.names.length_eq
  have hseveral := hreg.several
  rw [length_map] at hnames
  have hlt : (if all.length ≤ ns.rackIndex then 0 else ns.rackIndex) < ns.racks.length := by
    split <;> omega
  have hmem := hreg.names.mem_iff.mp (getElem_mem hlt)
  obtain ⟨rack, hrack, hname⟩ := mem_map.mp hmem
  have hget : ns.getRack rack.name = some rack := by
    cases hfind : ns.getRack rack.name with
    | none => exact absurd (by simp) (find?_eq_none.mp hfind rack hrack)
    | some found =>
      have heq : found.name = rack.name := by simpa using find?_some hfind
      rw [inj_on_of_nodup_map hreg.distinct (mem_of_find?_eq_some hfind) hrack heq]
  refine ⟨rack, hrack, (if all.length ≤ ns.rackIndex then 0 else ns.rackIndex) + 1, ?_⟩
  rw [allocLoop, if_pos (by omega)]
  dsimp only
  rw [getElem?_eq_getElem hlt, ← hname]
  simp [hget, hok rack hrack]

theorem exists_prefix (hreg : ns.Registered) (hall : all.Perm ns.rackMap)
    (h : Allocated replicaNum excludeRack (ns.allocRacks all replicaNum excludeRack)) :
    ∃ racks j, ns.allocLoop replicaNum excludeRack (all.length + replicaNum.toNat) 0 ns.rackIndex
        all = some (racks, j) ∧ all <+: racks ∧
      ns.allocRacks all replicaNum excludeRack = .ok (racks.take replicaNum.toNat) := by
  have hseveral := hreg.several
  have hlen := hall.length_eq
  have hinside := h.inside
  unfold allocRacks at hinside ⊢
  rw [if_neg (by omega)] at hinside ⊢
  cases hloop : ns.allocLoop replicaNum excludeRack (all.length + replicaNum.toNat) 0 ns.rackIndex
      all with
  | none => simp [hloop] at hinside
  | some r =>
    obtain ⟨racks, j⟩ := r
    have hprefix := prefix_allocLoop hloop
    refine ⟨racks, j, rfl, hprefix, if_neg fun hempty => ?_⟩
    have hle := hprefix.length_le
    rw [isEmpty_iff.mp hempty, length_nil] at hle
    omega

/-- Whatever the order of the map, the racks are as they should be exactly when there are enough of
them and all of them can be taken: the list starts with all racks, those that cannot write and the
excluded ones too, and a rack that is appended is in it twice. -/
theorem allocRacks_iff (hreg : ns.Registered) (hnum : 1 ≤ replicaNum) :
    (∀ all, all.Perm ns.rackMap →
      Allocated replicaNum excludeRack (ns.allocRacks all replicaNum excludeRack)) ↔
    replicaNum ≤ ns.rackMap.length ∧
      ∀ rack ∈ ns.rackMap, rack.canWrite = true ∧ rack.name ∉ excludeRack := by
  have hseveral := hreg.several
  constructor
  · intro h
    have hok : ∀ rack ∈ ns.rackMap, rack.canWrite = true ∧ rack.name ∉ excludeRack := by
      intro rack hrack
      obtain ⟨s, t, hsplit⟩ := append_of_mem hrack
      have hall : (rack :: (s ++ t)).Perm ns.rackMap := hsplit ▸ perm_middle.symm
      obtain ⟨racks, j, -, ⟨rest, rfl⟩, hr⟩ := exists_prefix hreg hall (h _ hall)
      have hfirst : rack ∈ (rack :: (s ++ t) ++ rest).take replicaNum.toNat := by
        obtain ⟨m, hm⟩ : ∃ m, replicaNum.toNat = m + 1 := ⟨replicaNum.toNat - 1, by omega⟩
        simp [hm]
      exact ⟨(h _ hall).writable _ hr rack hfirst, (h _ hall).included _ hr rack hfirst⟩
    refine ⟨?_, hok⟩
    by_contra hmany
    have hall := List.Perm.refl ns.rackMap
    obtain ⟨racks, j, hloop, -, hr⟩ := exists_prefix hreg hall (h _ hall)
    obtain ⟨n, hn⟩ : ∃ n, ns.rackMap.length + replicaNum.toNat = n + 1 :=
      Nat.exists_eq_succ_of_ne_zero (by omega)
    obtain ⟨rack, hrack, k, hfirst⟩ := allocLoop_first replicaNum hreg hall hok n
    have htwice : (ns.rackMap ++ [rack]) <+: racks := by
      rw [hn, hfirst] at hloop
      split at hloop
      · cases hloop
        exact prefix_rfl
      · exact prefix_allocLoop hloop
    have htake : (ns.rackMap ++ [rack]) <+: racks.take replicaNum.toNat := by
      refine prefix_take_iff.mpr ⟨htwice, ?_⟩
      rw [length_append, length_singleton]
      omega
    have hnodup := ((h _ hall).distinct _ hr).sublist (htake.sublist.map Rack.name)
    rw [map_append, nodup_append] at hnodup
    exact hnodup.2.2 _ (mem_map_of_mem hrack) _ (by simp) rfl
  · rintro ⟨hle, hok⟩ all hall
    have hlen := hall.length_eq
    obtain ⟨n, hn⟩ : ∃ n, all.length + replicaNum.toNat = n + 1 :=
      Nat.exists_eq_succ_of_ne_zero (by omega)
    obtain ⟨rack, hrack, k, hfirst⟩ := allocLoop_first replicaNum hreg hall hok n
    rw [if_pos (by rw [length_append, length_singleton]; omega)] at hfirst
    have hr : ns.allocRacks all replicaNum excludeRack = .ok (all.take replicaNum.toNat) := by
      unfold allocRacks
      rw [if_neg (by omega), hn, hfirst]
      simp [take_append_of_le_length (show replicaNum.toNat ≤ all.length by omega)]
    rw [hr]
    refine ⟨nofun, ?_, ?_, ?_, ?_⟩ <;> rintro racks ⟨⟩
    · exact ((hall.map Rack.name).nodup_iff.mpr hreg.distinct).sublist
        ((take_sublist ..).map _)
    · exact fun rack hrack => (hok rack (hall.mem_iff.mp (mem_of_mem_take hrack))).1
    · exact fun rack hrack => (hok rack (hall.mem_iff.mp (mem_of_mem_take hrack))).2
    · rw [length_take]
      omega

def sampleRack (name : String) : Rack :=
  ⟨name.toList, [⟨1, 1, name.toList, name.toList, true, 20 * GB⟩]⟩

def twoRacks : RackSet :=
  ⟨["r".toList, "s".toList], [sampleRack "r", sampleRack "s"], 0⟩

theorem allocRacks_iff_twoRacks : Allocated 2 [] (twoRacks.allocRacks twoRacks.rackMap 2 []) :=
  (allocRacks_iff ⟨by decide, by decide, by decide⟩ (by decide)).mpr ⟨by decide, by decide⟩ _
    (.refl _)

/-- A rack twice for three replicas, an index outside of the list for five, and a rack that is
excluded. -/
theorem allocRacks_twoRacks_wrong :
    ((twoRacks.allocRacks twoRacks.rackMap 3 []).toOption.map (·.map Rack.name)) =
      some ["r".toList, "s".toList, "r".toList] ∧
    (match twoRacks.allocRacks twoRacks.rackMap 5 [] with
      | .error e => some e
      | .ok _ => none) = some .indexOutOfRange ∧
    ((twoRacks.allocRacks twoRacks.rackMap 1 ["r".toList]).toOption.map (·.map Rack.name)) =
      some ["r".toList] := by decide

end RackSet
end ChubaoFS.Master
