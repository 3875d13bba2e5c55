import ChubaoFS.ExtentStore

namespace ChubaoFS

/-! The ids of extents over the life of a store: they are given out, extents are created and
deleted, and the store is opened again on what is on its disk. -/

/-- A store with the ids that `Create` has succeeded for. -/
structure IdHistory where
  store : ExtentStore
  created : List UInt64

inductive ExtentIdEvent
  | nextExtentID
  | create (id : UInt64) (now : Int64) (o : CreateOutcome)
  | markDelete (id : UInt64) (now : Int64) (removed : Bool)
  | autoComputeExtentCrc (now : Int64)
  | restart (now : Int64)

namespace IdHistory

open ExtentStore
open UInt64 (le_trans le_refl)

def new (now : Int64) : IdHistory := ⟨newExtentStore none ∅ now, TinyExtents.ids⟩

def step (h : IdHistory) : ExtentIdEvent → Option IdHistory
  | .nextExtentID => some { h with store := h.store.nextExtentID.2 }
  | .create id now o =>
    match h.store.create id now o with
    | none => some h
    | some s => some ⟨s, id :: h.created⟩
  | .markDelete id now removed => some { h with store := h.store.markDelete id now removed }
  | .autoComputeExtentCrc now => some { h with store := h.store.autoComputeExtentCrc now }
  | .restart now => some { h with store := h.store.restart now }

/-- A normal extent that was created has no id above the recorded one and above those of all files
that the store finds when it is opened. -/
def idsRecorded (h : IdHistory) : Bool := h.created.all fun id =>
  isTinyExtent id || decide (id ≤ h.store.baseOnDisk.getD 0) || h.store.files.keys.any fun id' =>
    decide (id ≤ id') && !isTinyExtent id' && hasDigitName id'

/-- The ids do not run out, and at a restart those that were used are recorded. -/
def Recorded (h : IdHistory) : ExtentIdEvent → Prop
  | .nextExtentID => h.store.baseExtentID < 18446744073709551615
  | .restart _ => h.idsRecorded = true
  | _ => True

instance decidableRecorded (h : IdHistory) (e : ExtentIdEvent) : Decidable (h.Recorded e) := by
  cases e <;> unfold Recorded <;> infer_instance

theorem toNat_nextExtentID {s : ExtentStore} (h : s.baseExtentID < 18446744073709551615) :
    s.nextExtentID.1.toNat = s.baseExtentID.toNat + 1 := by
  have hlt : s.baseExtentID.toNat < 18446744073709551615 := UInt64.lt_iff_toNat_lt.mp h
  change (s.baseExtentID + 1).toNat = _
  rw [UInt64.toNat_add]
  change (s.baseExtentID.toNat + 1) % 2 ^ 64 = _
  omega

structure Covered (s : ExtentStore) (created : List UInt64) : Prop where
  least : minExtentID ≤ s.baseExtentID
  disk : s.baseOnDisk.getD 0 ≤ s.baseExtentID
  below : ∀ id ∈ created, isTinyExtent id = false → id ≤ s.baseExtentID

namespace Covered

variable {s s' : ExtentStore} {created : List UInt64} {id : UInt64} {now : Int64}
  {o : CreateOutcome}

theorem nextExtentID (h : Covered s created) (hmax : s.baseExtentID < 18446744073709551615) :
    Covered s.nextExtentID.2 created := by
  have hle : s.baseExtentID ≤ s.nextExtentID.2.baseExtentID := by
    rw [UInt64.le_iff_toNat_le]
    exact Nat.le_of_lt (toNat_nextExtentID hmax ▸ Nat.lt_succ_self _)
  exact ⟨le_trans h.least hle, le_trans h.disk hle,
    fun id hid hn => le_trans (h.below id hid hn) hle⟩

theorem updateBaseExtentID_le (s : ExtentStore) (id : UInt64) (persisted : Bool) :
    s.baseExtentID ≤ (s.updateBaseExtentID id persisted).baseExtentID ∧
      (isTinyExtent id = false → id ≤ (s.updateBaseExtentID id persisted).baseExtentID) ∧
      ((s.updateBaseExtentID id persisted).baseOnDisk = s.baseOnDisk ∨
        (s.updateBaseExtentID id persisted).baseOnDisk =
          some (s.updateBaseExtentID id persisted).baseExtentID) := by
  unfold updateBaseExtentID
  split
  next h => exact ⟨le_refl _, fun hn => absurd h (by simp [hn]), .inl rfl⟩
  split
  next h =>
    refine ⟨h, fun _ => le_refl _, ?_⟩
    cases persisted with
    | true => exact .inr rfl
    | false => exact .inl rfl
  next h => exact ⟨le_refl _, fun _ => UInt64.le_of_lt (UInt64.not_le.mp h), .inl rfl⟩

variable (h : Covered s created)
include h

theorem create (hc : s.create id now o = some s') : Covered s' (id :: created) := by
  obtain ⟨-, -, hs'⟩ := create_eq_some hc
  obtain ⟨hbase, hid, hdisk⟩ := updateBaseExtentID_le
    { s with
      files := s.files.insert id ⟨0, now⟩
      extentInfoMap := s.extentInfoMap.insert id ⟨0, false, if isTinyExtent id then 0 else now⟩ }
    id o.persisted
  rw [← hs'] at hbase hid hdisk
  refine ⟨le_trans h.least hbase, ?_, fun i hi hn => ?_⟩
  · obtain he | he := hdisk
    · rw [he]
      exact le_trans h.disk hbase
    · rw [he]
      exact le_refl _
  · obtain rfl | hi := List.mem_cons.mp hi
    · exact hid hn
    · exact le_trans (h.below i hi hn) hbase

theorem markDelete (removed : Bool) : Covered (s.markDelete id now removed) created := by
  obtain he | ⟨ei, -, hn, -, he⟩ := markDelete_cases s id now removed
  · rw [he]
    exact h
  · rw [he]
    exact { h with }

omit h in
theorem restart (now : Int64) (hkept : IdHistory.idsRecorded ⟨s, created⟩ = true) :
    Covered (s.restart now) created := by
  obtain ⟨hleast, hlarge⟩ := largestID_le_initBaseFileID s.baseOnDisk s.files
  have hsame := sameNormal_restart s now
  have hdisk : (s.restart now).baseOnDisk = s.baseOnDisk := hsame.disk
  rw [← hsame.base] at hleast hlarge
  have hle := le_trans (le_foldl_largest _ _).1 hlarge
  refine ⟨hleast, hdisk ▸ hle, fun i hi hn => ?_⟩
  have hkept := List.all_eq_true.mp hkept i hi
  simp only [hn, Bool.false_or, Bool.or_eq_true, decide_eq_true_eq, List.any_eq_true,
    Bool.and_eq_true, Bool.not_eq_true'] at hkept
  obtain hk | ⟨i', hf, ⟨hi', hn'⟩, hname⟩ := hkept
  · exact le_trans hk hle
  · obtain ⟨f, hf⟩ := Option.isSome_iff_exists.mp (AList.lookup_isSome.mpr (AList.mem_keys.mpr hf))
    exact le_trans hi' (le_trans (file_le_largestID _ hf hname hn') hlarge)

end Covered

theorem covered_step {h h' : IdHistory} {e : ExtentIdEvent} (hc : Covered h.store h.created)
    (he : h.Recorded e) (hs : h.step e = some h') : Covered h'.store h'.created := by
  cases e with
  | nextExtentID =>
    cases hs
    exact hc.nextExtentID he
  | create id now o =>
    dsimp only [step] at hs
    split at hs
    · cases hs
      exact hc
    next s hs' =>
      cases hs
      exact hc.create hs'
  | markDelete id now removed =>
    cases hs
    exact hc.markDelete removed
  | autoComputeExtentCrc now =>
    cases hs
    exact { hc with }
  | restart now =>
    cases hs
    exact .restart now he

theorem covered_newExtentStore (now : Int64) :
    Covered (newExtentStore none ∅ now) TinyExtents.ids := by
  have hsame := sameNormal_initTinyExtent (initBaseFileID none ∅) now
  have htiny : ∀ id ∈ TinyExtents.ids, isTinyExtent id ≠ false := by
    intro id hid
    rw [isTinyExtent_of_mem_ids hid]
    exact Bool.noConfusion
  unfold newExtentStore
  refine ⟨?_, ?_, fun id hid hn => absurd hn (htiny id hid)⟩
  · rw [hsame.base]
    decide
  · rw [hsame.base, hsame.disk]
    decide

/-- No id is given out that an extent was already created with. -/
theorem nextExtentID_fresh {now : Int64} {h : IdHistory} (hr : Reach step Recorded (new now) h)
    (hlast : h.Recorded .nextExtentID) : h.store.nextExtentID.1 ∉ h.created := by
  have hnew : Covered (new now).store (new now).created := by
    unfold new
    exact covered_newExtentStore now
  have hc : Covered h.store h.created :=
    hr.invariant hnew
      fun _ _ _ hc he hs => covered_step hc he hs
  have hnext : h.store.nextExtentID.1.toNat = h.store.baseExtentID.toNat + 1 :=
    toNat_nextExtentID hlast
  have hleast := UInt64.le_iff_toNat_le.mp hc.least
  intro hmem
  cases htiny : isTinyExtent h.store.nextExtentID.1 with
  | true =>
    have hlt : _ < 65 := UInt64.lt_iff_toNat_lt.mp
      (of_decide_eq_true (Bool.and_eq_true_iff.mp htiny).2)
    change 1024 ≤ _ at hleast
    omega
  | false =>
    have hle := UInt64.le_iff_toNat_le.mp (hc.below _ hmem htiny)
    omega

/-- Two ids are given out, and the extent with the second of them is created and deleted. -/
theorem nextExtentID_fresh_two : ∃ h, Reach step Recorded (new 0) h ∧ h.created.head? = some 1026 ∧
      h.store.nextExtentID.1 = 1027 ∧ h.store.nextExtentID.1 ∉ h.created := by
  obtain ⟨h, hr, hp⟩ := Reach.exists_checked step Recorded (new 0)
    [.nextExtentID, .nextExtentID, .create 1026 0 ⟨true, true⟩, .markDelete 1026 700 true,
      .restart 800]
    (fun h => h.created.head? == some 1026 && h.store.nextExtentID.1 == 1027 &&
      decide (h.Recorded .nextExtentID))
    (by decide +kernel)
  obtain ⟨⟨hhead, hnext⟩, hlast⟩ := by simpa only [Bool.and_eq_true] using hp
  exact ⟨h, hr, eq_of_beq hhead, eq_of_beq hnext, nextExtentID_fresh hr (of_decide_eq_true hlast)⟩

/-- Two ids are given out, the extent with the first of them is created and deleted, and the id is
given out again after a restart. -/
theorem nextExtentID_again :
    ∃ h, Reach step (fun _ _ => True) (new 0) h ∧ h.store.nextExtentID.1 ∈ h.created := by
  obtain ⟨h, hr, hp⟩ := Reach.exists_checked step (fun _ _ => True) (new 0)
    [.nextExtentID, .nextExtentID, .create 1025 0 ⟨true, true⟩, .markDelete 1025 700 true,
      .restart 800]
    (fun h => decide (h.store.nextExtentID.1 ∈ h.created)) (by decide +kernel)
  exact ⟨h, hr, of_decide_eq_true hp⟩

end IdHistory
end ChubaoFS
