import ChubaoFS.InodeRanges

namespace ChubaoFS.Master

open Function UInt64 Option
open UInt64 (le_of_lt le_trans le_refl lt_of_le_of_lt)
open Function (update)
open Option (some)

/-! What holds between two steps. -/

open Ranges

def SplitPhase.Ok (T : Table UInt64 UInt64) (counter : UInt64) (failed : Bool)
    (r : UInt64 × UInt64) : SplitPhase → Prop
  | .cutting oldEnd => r.1 ≤ oldEnd ∧ oldEnd ≤ defaultMaxMetaPartitionInodeID ∧
      r.2 ≤ defaultMaxMetaPartitionInodeID - defaultMetaPartitionInodeIDStep ∧
      (failed = false → oldEnd = defaultMaxMetaPartitionInodeID)
  | .raising oldEnd => r.1 ≤ oldEnd ∧ oldEnd ≤ defaultMaxMetaPartitionInodeID ∧ failed = true
  | .creating => r.2 ≤ defaultMaxMetaPartitionInodeID - defaultMetaPartitionInodeIDStep
  | .adding newID => r.2 ≤ defaultMaxMetaPartitionInodeID - defaultMetaPartitionInodeIDStep ∧
      Above T newID ∧ newID ≤ counter

/-- What the loop of `initMetaPartitions` knows. -/
structure InitLoop.Ok (T : Table UInt64 UInt64) (counter : UInt64) (count : Nat) (failed : Bool)
    (l : InitLoop) : Prop where
  index : l.index < count
  endId : l.endId.toNat = 16777216 * l.index
  ends : ∀ {id r}, T id = some r → l.index ≠ 0 ∧ r.2 ≤ l.endId
  id : ∀ {id}, l.partitionID = some id → Above T id ∧ id ≤ counter
  last : failed = false → l.index ≠ 0 → ∃ id r, T id = some r ∧ r.2 = l.endId

structure RangesOk (count : Nat) (T : Table UInt64 UInt64) (counter : UInt64)
    (init : Option InitLoop) (calls : Map UInt64 SplitPhase) (failed : Bool) : Prop where
  asc : Ascending T
  bound : ∀ {id r}, T id = some r → r.2 ≤ defaultMaxMetaPartitionInodeID
  ids : ∀ {id r}, T id = some r → id ≤ counter
  filled : failed = false → Filled T
  loop : ∀ {l}, init = some l → l.Ok T counter count failed
  locked : ∀ {id phase}, calls.lookup id = some phase →
    init = none ∧ ∃ r, IsLast T id r ∧ phase.Ok T counter failed r
  built : init = none → failed = false → ∃ id r, IsLast T id r ∧
    (calls.lookup id = none → r.2 = defaultMaxMetaPartitionInodeID)

structure RangeMaster.Ok (s : RangeMaster) : Prop where
  count : s.count ≤ 549755813888
  ranges : RangesOk s.count s.table s.metaPartitionID s.init s.calls s.creationFailed

variable {e : UInt64}

theorem succ_of_le (h : e ≤ defaultMaxMetaPartitionInodeID - defaultMetaPartitionInodeIDStep) :
    e < e + 1 ∧ e + 1 ≤ defaultMaxMetaPartitionInodeID ∧ ∀ x, x < e + 1 → x ≤ e := by
  simp only [defaultMaxMetaPartitionInodeID, defaultMetaPartitionInodeIDStep] at h ⊢
  grind

namespace RangesOk

variable {count : Nat} {T : Table UInt64 UInt64} {counter : UInt64} {init : Option InitLoop}
  {calls : Map UInt64 SplitPhase} {failed : Bool} {id : UInt64} {r : UInt64 × UInt64}
  {phase : SplitPhase} {r₁ r' : UInt64 × UInt64} {phase' : SplitPhase} {counter' i : UInt64}

section

variable (h : RangesOk count T counter init calls failed)
include h

section

variable (hlast : IsLast T id r)
include hlast

variable {id' : UInt64}

theorem only (hcall : calls.lookup id' = some phase) : id' = id := by
  obtain ⟨-, r', hlast', -⟩ := h.locked hcall
  exact hlast'.eq hlast

theorem lookup_insert_call (hcall : (calls.insert id phase).lookup id' = some phase') :
    id' = id ∧ phase' = phase := by
  rw [Maps.lookup_insert] at hcall
  split at hcall
  next hid => exact ⟨hid, (some.inj hcall).symm⟩
  next hid => exact absurd (h.only hlast hcall) hid

theorem lookup_erase_call (id' : UInt64) : (calls.erase id).lookup id' = none := by
  by_cases hid : id' = id
  · rw [hid, AList.lookup_erase]
  rw [AList.lookup_erase_ne hid]
  cases hcall : calls.lookup id' with
  | none => rfl
  | some phase => exact absurd (h.only hlast hcall) hid

end

theorem ids_update (hid : id ≤ counter) (hi : update T id (some r') i = some r₁) : i ≤ counter := by
  rcases update_eq_some hi with ⟨rfl, -⟩ | ⟨-, hi⟩
  · exact hid
  · exact h.ids hi

theorem bound_update (hr' : r'.2 ≤ defaultMaxMetaPartitionInodeID)
    (hi : update T id (some r') i = some r₁) : r₁.2 ≤ defaultMaxMetaPartitionInodeID := by
  rcases update_eq_some hi with ⟨-, rfl⟩ | ⟨-, hi⟩
  · exact hr'
  · exact h.bound hi

end

/-! The end of the last partition changes. -/

section

variable (h : RangesOk count T counter none calls failed)
include h

variable (hlast : IsLast T id r)
include hlast

theorem setEnd (hlo : r.1 ≤ e) (hhi : e ≤ defaultMaxMetaPartitionInodeID)
    {calls' : Map UInt64 SplitPhase}
    (hcalls : ∀ {id' phase}, calls'.lookup id' = some phase → id' = id ∧
      phase.Ok (update T id (some (r.1, e))) counter failed (r.1, e))
    (hbuilt : failed = false → calls'.lookup id = none → e = defaultMaxMetaPartitionInodeID) :
    RangesOk count (update T id (some (r.1, e))) counter none calls' failed where
  asc := h.asc.setEnd hlast hlo
  bound := h.bound_update hhi
  ids := h.ids_update (h.ids hlast.get)
  filled hf := (h.filled hf).setEnd h.asc hlast
  loop hl := nomatch hl
  locked hcall := by
    obtain ⟨rfl, hok⟩ := hcalls hcall
    exact ⟨rfl, _, hlast.setEnd _, hok⟩
  built _ hf := ⟨id, _, hlast.setEnd _, hbuilt hf⟩

variable (hfree : calls.lookup id = none)
include hfree

theorem cut (hlo : r.1 ≤ e)
    (hhi : e ≤ defaultMaxMetaPartitionInodeID - defaultMetaPartitionInodeIDStep) :
    RangesOk count (update T id (some (r.1, e))) counter none
      (calls.insert id (.cutting r.2)) failed := by
  have hmax : e ≤ defaultMaxMetaPartitionInodeID :=
    le_of_lt (UInt64.lt_of_lt_of_le (succ_of_le hhi).1 (succ_of_le hhi).2.1)
  refine h.setEnd hlast hlo hmax (fun hcall => ?_) fun _ hnone => ?_
  · obtain ⟨rfl, rfl⟩ := h.lookup_insert_call hlast hcall
    refine ⟨rfl, h.asc.le hlast.get, h.bound hlast.get, hhi, fun hf => ?_⟩
    obtain ⟨m, r', hm, hend⟩ := h.built rfl hf
    obtain rfl := hm.eq hlast
    obtain rfl := some.inj (hm.get.symm.trans hlast.get)
    exact hend hfree
  · rw [AList.lookup_insert] at hnone
    cases hnone

theorem raise (hend : r.2 ≠ defaultMaxMetaPartitionInodeID) :
    RangesOk count (update T id (some (r.1, defaultMaxMetaPartitionInodeID))) counter none
      (calls.insert id (.raising r.2)) failed := by
  have hfailed : failed = true := by
    cases hf : failed with
    | true => rfl
    | false =>
      obtain ⟨m, r', hm, hmax⟩ := h.built rfl hf
      obtain rfl := hm.eq hlast
      obtain rfl := some.inj (hm.get.symm.trans hlast.get)
      exact absurd (hmax hfree) hend
  have hle := h.bound hlast.get
  refine h.setEnd hlast (le_trans (h.asc.le hlast.get) hle) (le_refl _)
    (fun hcall => ?_) fun _ _ => rfl
  obtain ⟨rfl, rfl⟩ := h.lookup_insert_call hlast hcall
  exact ⟨rfl, h.asc.le hlast.get, hle, hfailed⟩

end

section

variable (h : RangesOk count T counter init calls failed)
include h

section

variable (hcall : calls.lookup id = some phase)
include hcall

theorem restore {oldEnd : UInt64}
    (hphase : phase = .cutting oldEnd ∨ phase = .raising oldEnd) (hget : T id = some r) :
    RangesOk count (update T id (some (r.1, oldEnd))) counter init (calls.erase id) failed := by
  obtain ⟨rfl, r', hlast, hok⟩ := h.locked hcall
  obtain rfl := some.inj (hlast.get.symm.trans hget)
  have hold : r'.1 ≤ oldEnd ∧ oldEnd ≤ defaultMaxMetaPartitionInodeID ∧
      (failed = false → oldEnd = defaultMaxMetaPartitionInodeID) := by
    rcases hphase with rfl | rfl
    · exact ⟨hok.1, hok.2.1, hok.2.2.2⟩
    · exact ⟨hok.1, hok.2.1, fun hf => absurd (hf.symm.trans hok.2.2) (nomatch ·)⟩
  refine h.setEnd hlast hold.1 hold.2.1 (fun hc => ?_) fun hf _ => hold.2.2 hf
  rw [h.lookup_erase_call hlast] at hc
  cases hc

/-! The lock of the last partition passes on, with the ranges as they are. -/

theorem setCall (hcounter : counter ≤ counter')
    (hok : ∀ {r}, IsLast T id r → phase.Ok T counter failed r → phase'.Ok T counter' failed r) :
    RangesOk count T counter' init (calls.insert id phase') failed := by
  obtain ⟨rfl, r, hlast, hphase⟩ := h.locked hcall
  exact {
    __ := h
    ids := fun hi => le_trans (h.ids hi) hcounter
    loop := fun hl => nomatch hl
    locked := fun hc => by
      obtain ⟨rfl, rfl⟩ := h.lookup_insert_call hlast hc
      exact ⟨rfl, r, hlast, hok hlast hphase⟩
    built := fun _ _ => ⟨id, r, hlast, fun hnone => by
      rw [AList.lookup_insert] at hnone
      cases hnone⟩ }

theorem giveUp : RangesOk count T counter init (calls.erase id) true := by
  obtain ⟨rfl, r, hlast, -⟩ := h.locked hcall
  exact {
    __ := h
    filled := fun hf => nomatch hf
    loop := fun hl => nomatch hl
    locked := fun hc => by
      rw [h.lookup_erase_call hlast] at hc
      cases hc
    built := fun _ hf => nomatch hf }

end

theorem raiseCounter (hle : counter ≤ counter') : RangesOk count T counter' init calls failed where
  __ := h
  ids hi := le_trans (h.ids hi) hle
  loop hl := by
    have hold := h.loop hl
    refine { hold with id := fun hid => ?_ }
    exact ⟨(hold.id hid).1, le_trans (hold.id hid).2 hle⟩
  locked {id phase} hcall := by
    obtain ⟨hinit, r, hlast, hok⟩ := h.locked hcall
    refine ⟨hinit, r, hlast, ?_⟩
    cases phase with
    | adding newID => exact ⟨hok.1, hok.2.1, le_trans hok.2.2 hle⟩
    | _ => exact hok

/-! A new partition. -/

theorem above_counter (hcounter : counter < counter + 1) : Above T (counter + 1) :=
  fun _ _ hi => lt_of_le_of_lt (h.ids hi) hcounter

theorem addSuccessor {newID : UInt64}
    (hcall : calls.lookup id = some (.adding newID)) (hget : T id = some r) : RangesOk count
      (update T newID (some (r.2 + 1, defaultMaxMetaPartitionInodeID))) counter init
      (calls.erase id) failed := by
  obtain ⟨rfl, r', hlast, hend, habove, hle⟩ := h.locked hcall
  obtain rfl := some.inj (hlast.get.symm.trans hget)
  obtain ⟨hlt, hmax, hnext⟩ := succ_of_le hend
  have hends : ∀ {i r₁}, T i = some r₁ → r₁.2 < r'.2 + 1 := by
    intro i r₁ hi
    refine lt_of_le_of_lt ?_ hlt
    by_cases him : i = id
    · obtain rfl := some.inj (hlast.get.symm.trans (him ▸ hi))
      exact le_refl _
    · have hlt' := h.asc.lt hi hlast.get (hlast.lt hi him)
      exact le_trans (le_of_lt hlt') (h.asc.le hlast.get)
  exact {
    asc := h.asc.add habove hmax hends
    bound := h.bound_update (le_refl _)
    ids := h.ids_update hle
    filled := fun hf => (h.filled hf).add habove fun x hx => ⟨id, r', hlast.get, hnext x hx⟩
    loop := fun hl => nomatch hl
    locked := fun hc => by
      rw [h.lookup_erase_call hlast] at hc
      cases hc
    built := fun _ _ => ⟨newID, _, IsLast.add habove _, fun _ => rfl⟩ }

end

/-! The loop of `initMetaPartitions`. -/

theorem loopAllocated {index : Nat} {endId : UInt64}
    (h : RangesOk count T counter (some ⟨index, endId, none⟩) calls failed)
    (hcounter : counter < counter + 1) :
    RangesOk count T (counter + 1) (some ⟨index, endId, some (counter + 1)⟩) calls failed where
  __ := h
  ids hi := le_trans (h.ids hi) (le_of_lt hcounter)
  loop hl := by
    cases hl
    have hold := h.loop rfl
    refine { hold with id := fun hid => ?_ }
    cases hid
    exact ⟨h.above_counter hcounter, le_refl _⟩
  locked hcall := absurd (h.locked hcall).1 (nomatch ·)
  built hnone := nomatch hnone

end RangesOk

namespace InitLoop

variable {count : Nat} {T : Table UInt64 UInt64} {counter : UInt64} {failed : Bool} {l : InitLoop}

theorem Ok.index_lt (h : l.Ok T counter count failed) (hcount : count ≤ 549755813888) :
    l.index < 549755813888 :=
  Nat.lt_of_lt_of_le h.index hcount

theorem toNat_step_mul {n : Nat} (h : n ≤ 549755813888) :
    (defaultMetaPartitionInodeIDStep * UInt64.ofNat n).toNat = 16777216 * n := by
  have hstep : defaultMetaPartitionInodeIDStep.toNat = 16777216 := rfl
  rw [UInt64.toNat_mul, UInt64.toNat_ofNat', hstep]
  omega

theorem Ok.nextEnd_facts (h : l.Ok T counter count failed) (hcount : count ≤ 549755813888) :
    l.start ≤ l.nextEnd count ∧ l.nextEnd count ≤ defaultMaxMetaPartitionInodeID ∧
      l.endId ≤ l.nextEnd count ∧ l.endId < l.endId + 1 ∧
      (l.index + 1 ≠ count → (l.nextEnd count).toNat = 16777216 * (l.index + 1)) := by
  have hindex := h.index_lt hcount
  have hendId := h.endId
  have hsucc : (l.endId + 1).toNat = l.endId.toNat + 1 := by
    rw [UInt64.toNat_add, UInt64.toNat_one]
    omega
  have hstart : l.start.toNat ≤ 16777216 * l.index + 1 := by
    unfold start
    split
    · omega
    · exact Nat.zero_le _
  have hnext : (l.nextEnd count).toNat = 9223372036854775807 ∨
      (l.index + 1 < count ∧ (l.nextEnd count).toNat = 16777216 * (l.index + 1)) := by
    unfold nextEnd
    split
    · exact .inl rfl
    next hne => exact .inr ⟨Nat.lt_of_le_of_ne h.index hne, toNat_step_mul (by omega)⟩
  have hmax : defaultMaxMetaPartitionInodeID.toNat = 9223372036854775807 := rfl
  simp only [UInt64.le_iff_toNat_le, UInt64.lt_iff_toNat_lt]
  refine ⟨by omega, by omega, by omega, by omega, fun hne => ?_⟩
  rw [nextEnd, if_neg hne]
  exact toNat_step_mul (by omega)

end InitLoop

namespace RangesOk

variable {count : Nat} {T : Table UInt64 UInt64} {counter : UInt64}
  {calls : Map UInt64 SplitPhase} {failed : Bool} {l : InitLoop}
  (h : RangesOk count T counter (some l) calls failed) (hcount : count ≤ 549755813888)
include h hcount

theorem loopFailed : RangesOk count T counter (l.next count) calls true where
  __ := h
  filled hf := nomatch hf
  loop hl := by
    have hold := h.loop rfl
    obtain ⟨-, -, hle, -, hend⟩ := hold.nextEnd_facts hcount
    obtain ⟨hne, hl⟩ := Option.ite_none_left_eq_some.mp hl
    cases hl
    refine ⟨?_, hend hne, fun hi => ?_, fun hid => (nomatch hid), fun hf => (nomatch hf)⟩
    · exact Nat.lt_of_le_of_ne hold.index hne
    · exact ⟨Nat.succ_ne_zero _, le_trans (hold.ends hi).2 hle⟩
  locked hcall := absurd (h.locked hcall).1 (nomatch ·)
  built _ hf := nomatch hf

theorem loopCreated {id : UInt64} (hid : l.partitionID = some id) :
    RangesOk count (update T id (some (l.start, l.nextEnd count))) counter (l.next count)
      calls failed := by
  have hold := h.loop rfl
  obtain ⟨habove, hidc⟩ := hold.id hid
  obtain ⟨hstart, hmax, hle, hlt, hend⟩ := hold.nextEnd_facts hcount
  have hstartEq : l.index ≠ 0 → l.start = l.endId + 1 := fun hne => if_pos hne
  have hends : ∀ {i r'}, T i = some r' → r'.2 < l.start := by
    intro i r' hi
    obtain ⟨hne, hle'⟩ := hold.ends hi
    rw [hstartEq hne]
    exact lt_of_le_of_lt hle' hlt
  have hfilled : failed = false → ∀ x, x < l.start → ∃ i r', T i = some r' ∧ x ≤ r'.2 := by
    intro hf x hx
    by_cases hzero : l.index = 0
    · rw [InitLoop.start, if_neg (not_not.mpr hzero)] at hx
      exact absurd hx UInt64.not_lt_zero
    obtain ⟨i, r', hi, hr'⟩ := hold.last hf hzero
    rw [hstartEq hzero] at hx
    exact ⟨i, r', hi, by rw [hr']; grind⟩
  exact {
    asc := h.asc.add habove hstart hends
    bound := h.bound_update hmax
    ids := h.ids_update hidc
    filled := fun hf => (h.filled hf).add habove (hfilled hf)
    loop := fun hl => by
      obtain ⟨hne, hl⟩ := Option.ite_none_left_eq_some.mp hl
      cases hl
      refine ⟨Nat.lt_of_le_of_ne hold.index hne, hend hne, fun hi => ⟨Nat.succ_ne_zero _, ?_⟩,
        fun hid => (nomatch hid), fun _ _ => ⟨id, _, Function.update_self .., rfl⟩⟩
      rcases update_eq_some hi with ⟨-, rfl⟩ | ⟨-, hi⟩
      · exact le_refl _
      · exact le_trans (hold.ends hi).2 hle
    locked := fun hcall => absurd (h.locked hcall).1 (nomatch ·)
    built := fun hnone _ => by
      refine ⟨id, _, IsLast.add habove _, fun _ => ?_⟩
      unfold InitLoop.next at hnone
      split at hnone
      next hlast => exact if_pos hlast
      · cases hnone }

end RangesOk

namespace RangeMaster

variable {s s' : RangeMaster} {id : UInt64} {mp : MetaPartition} {e : RangeEvent}

/-! Runs. -/

/-- The update of a range is safe where it finds its partition to be the last one of a volume that
is built, and the new end not below the start; the loop of `initMetaPartitions` is not to meet
`checkEnd`. -/
def Allowed (s : RangeMaster) : RangeEvent → Prop
  | .update id start => s.init = none ∧ id = s.vol.maxPartitionID ∧
      ∀ mp ∈ s.vol.metaPartitions.lookup id, mp.start ≤ start
  | .upperBound id mr _ => ∀ mp ∈ s.vol.metaPartitions.lookup id, mp.start ≤ mr.upperBound
  | .checkEnd _ => s.init = none
  | .initAllocated _ | .allocated _ _ | .allocatedElsewhere =>
    s.metaPartitionID ≠ 18446744073709551615
  | _ => True

theorem lt_succ_of_ne {n : UInt64} (h : n ≠ 18446744073709551615) : n < n + 1 := by grind

theorem Ok.init_none (h : s.Ok) (hmp : s.vol.metaPartitions.lookup id = some mp)
    (hend : mp.endId = defaultMaxMetaPartitionInodeID) : s.init = none := by
  cases hinit : s.init with
  | none => rfl
  | some l =>
    have hl := h.ranges.loop hinit
    have hle : mp.endId ≤ l.endId := (hl.ends (table_of_lookup hmp)).2
    have hindex := hl.index_lt h.count
    have hendId := hl.endId
    rw [hend, le_iff_toNat_le] at hle
    have hmax : defaultMaxMetaPartitionInodeID.toNat = 9223372036854775807 := rfl
    omega

theorem Ok.change (h : s.Ok) (ha : s.Allowed e) {T : Table UInt64 UInt64} {counter : UInt64}
    {init : Option InitLoop} {calls : Map UInt64 SplitPhase} {failed : Bool}
    (hc : s.Change e T counter init calls failed) :
    RangesOk s.count T counter init calls failed := by
  have hr := h.ranges
  cases hc with
  | same => exact hr
  | elsewhere => exact hr.raiseCounter (le_of_lt (lt_succ_of_ne ha))
  | loopAllocated hinit =>
    rw [hinit] at hr
    exact hr.loopAllocated (lt_succ_of_ne ha)
  | loopFailed hinit =>
    rw [hinit] at hr
    exact hr.loopFailed h.count
  | loopCreated hinit hid =>
    rw [hinit] at hr
    exact hr.loopCreated h.count hid
  | updated hmp hfree hle =>
    obtain ⟨hinit, hid, hstart⟩ := ha
    rw [hinit] at hr ⊢
    exact hr.cut (isLast_of_not_lt hmp (hid ▸ UInt64.lt_irrefl _)) hfree (hstart _ hmp) hle
  | bounded hmp hfree hmax hend hle =>
    rw [h.init_none hmp hend] at hr ⊢
    exact hr.cut (isLast_of_not_lt hmp hmax) hfree (ha _ hmp) hle
  | raised hmp hfree hmax hend =>
    have hinit : s.init = none := ha
    rw [hinit] at hr ⊢
    exact hr.raise (isLast_of_not_lt hmp hmax) hfree hend
  | restored hmp hcall hphase => exact hr.restore hcall hphase (table_of_lookup hmp)
  | cutStored hcall => exact hr.setCall hcall (le_refl _) fun _ hok => hok.2.2.1
  | raiseStored hcall =>
    -- the end was raised only because a creation had failed before
    obtain ⟨-, r, -, -, -, hfailed⟩ := hr.locked hcall
    have hgive := hr.giveUp hcall
    rwa [← hfailed] at hgive
  | allocated hcall =>
    have hlt := lt_succ_of_ne ha
    refine hr.setCall hcall (le_of_lt hlt) fun _ hok => ?_
    exact ⟨hok, hr.above_counter hlt, le_refl _⟩
  | abandoned hcall => exact hr.giveUp hcall
  | created hmp hcall => exact hr.addSuccessor hcall (table_of_lookup hmp)

theorem Ok.step (h : s.Ok) (ha : s.Allowed e) (hs : s.step e = some s') : s'.Ok := by
  obtain ⟨hcount, hc⟩ := changed_step hs
  exact ⟨hcount ▸ h.count, hcount ▸ h.change ha hc⟩

theorem ok_new (vol : Vol) (metaPartitionID : UInt64) {count : Int} (h : count ≤ 549755813888) :
    (new vol metaPartitionID count).Ok := by
  have hcount : 0 < (new vol metaPartitionID count).count ∧
      (new vol metaPartitionID count).count ≤ 549755813888 := by
    have hnew : (new vol metaPartitionID count).count = if count < 3 then 3 else count.toNat := rfl
    rw [hnew]
    split
    · decide
    · omega
  exact {
    count := hcount.2
    ranges := {
      asc := ⟨fun hi => (nomatch hi), fun hi => (nomatch hi)⟩
      bound := fun hi => nomatch hi
      ids := fun hi => nomatch hi
      filled := fun _ _ _ _ hi => nomatch hi
      loop := fun hl => by
        cases hl
        exact ⟨hcount.1, rfl, fun hi => (nomatch hi), fun hid => (nomatch hid),
          fun _ hne => absurd rfl hne⟩
      locked := fun hc => nomatch hc
      built := fun hnone => nomatch hnone } }

/-! The ranges of a volume. -/

def Covered (s : RangeMaster) (x : UInt64) : Prop :=
  ∃ id mp, s.vol.metaPartitions.lookup id = some mp ∧
    ((mp.start ≤ x ∧ x ≤ mp.endId) ∨ (s.free id = false ∧ mp.endId < x))

structure Safe (s : RangeMaster) : Prop where
  le : ∀ id mp, s.vol.metaPartitions.lookup id = some mp → mp.start ≤ mp.endId
  disjoint : ∀ id mp id' mp', s.vol.metaPartitions.lookup id = some mp →
    s.vol.metaPartitions.lookup id' = some mp' → id ≠ id' →
    mp.endId < mp'.start ∨ mp'.endId < mp.start
  covers : s.init = none → s.creationFailed = false →
    ∀ x, x ≤ defaultMaxMetaPartitionInodeID → s.Covered x

theorem Ok.covered (h : s.Ok) (hinit : s.init = none) (hfailed : s.creationFailed = false)
    {x : UInt64} (hx : x ≤ defaultMaxMetaPartitionInodeID) : s.Covered x := by
  obtain ⟨id, r, hlast, hend⟩ := h.ranges.built hinit hfailed
  by_cases hle : x ≤ r.2
  · obtain ⟨i, r', hi, hin⟩ := h.ranges.filled hfailed hlast.get hle
    obtain ⟨mp, hmp, rfl⟩ := exists_of_table hi
    exact ⟨i, mp, hmp, .inl hin⟩
  obtain ⟨mp, hmp, rfl⟩ := exists_of_table hlast.get
  refine ⟨id, mp, hmp, .inr ⟨?_, UInt64.not_le.mp hle⟩⟩
  cases hcall : s.calls.lookup id with
  | none => exact absurd (hend hcall ▸ hx) hle
  | some phase => rw [free, hcall]; rfl

theorem Ok.safe (h : s.Ok) : s.Safe where
  le _ _ hmp := h.ranges.asc.le (table_of_lookup hmp)
  disjoint _ _ _ _ hmp hmp' hne :=
    h.ranges.asc.disjoint (table_of_lookup hmp) (table_of_lookup hmp') hne
  covers hinit hfailed _ hx := h.covered hinit hfailed hx

/-- The ranges of a volume's meta partitions never overlap, and once it is built they leave no
inode id out. -/
theorem ranges_safe (vol : Vol) (metaPartitionID : UInt64) {count : Int}
    (hcount : count ≤ 549755813888)
    (h : Reach step Allowed (new vol metaPartitionID count) s) : s.Safe :=
  (h.invariant (ok_new vol metaPartitionID hcount) fun _ _ _ hok ha hs => hok.step ha hs).safe

instance decidableAllowed (s : RangeMaster) (e : RangeEvent) : Decidable (s.Allowed e) :=
  match e with
  | .update _ _ => inferInstanceAs (Decidable (_ ∧ _ ∧ _))
  | .upperBound _ _ _ => inferInstanceAs (Decidable (∀ mp ∈ _, _))
  | .checkEnd _ => inferInstanceAs (Decidable (_ = _))
  | .initAllocated _ | .allocated _ _ | .allocatedElsewhere => inferInstanceAs (Decidable (_ ≠ _))
  | .initCreated _ | .pick _ | .report _ _ _ | .stored _ _ | .created _ _ | .replicas _ _ =>
    inferInstanceAs (Decidable True)

def sampleCreated : Created := ⟨["a".toList], [], [⟨"a".toList, false, true⟩]⟩

def sampleBuilt : List RangeEvent :=
  [.initAllocated true, .initCreated (some sampleCreated), .initAllocated true,
    .initCreated (some sampleCreated), .initAllocated true, .initCreated (some sampleCreated),
    .report 3 "a".toList ⟨33554433, 33554433, true⟩]

def sampleNew : RangeMaster := new (newVol 1 "vol".toList "owner".toList GB 10) 0 3

theorem ranges_safe_split : ∃ s : RangeMaster, Reach step Allowed sampleNew s ∧
    s.table 3 = some (33554433, 50331649) ∧
    s.table 5 = some (50331650, defaultMaxMetaPartitionInodeID) ∧ s.Safe := by
  obtain ⟨s, hreach, h⟩ := Reach.exists_checked step Allowed sampleNew
    (sampleBuilt ++ [.upperBound 3 ⟨33554433, 33554433, true⟩ true, .stored 3 true,
      .allocatedElsewhere, .allocated 3 true, .created 3 (some sampleCreated)])
    (fun s => decide (s.table 3 = some (33554433, 50331649) ∧
      s.table 5 = some (50331650, defaultMaxMetaPartitionInodeID)))
    (by decide +kernel)
  obtain ⟨h3, h5⟩ := of_decide_eq_true h
  exact ⟨s, hreach, h3, h5, ranges_safe _ _ (by decide) hreach⟩

theorem Safe.disjoint_table (h : s.Safe) {r r' : UInt64 × UInt64} (hr : s.table id = some r)
    (hr' : s.table id' = some r') (hne : id ≠ id') : r.2 < r'.1 ∨ r'.2 < r.1 := by
  obtain ⟨mp, hmp, rfl⟩ := exists_of_table hr
  obtain ⟨mp', hmp', rfl⟩ := exists_of_table hr'
  exact h.disjoint id mp id' mp' hmp hmp' hne

/-- Two calls that have picked the same partition; a pass of `checkEnd` during
`initMetaPartitions`; and a call whose start lies before the partition. -/
theorem ranges_overlap : (∃ s, Reach step (fun _ _ => True) sampleNew s ∧
      s.table 3 = some (33554433, 60000000) ∧
      s.table 4 = some (50000001, defaultMaxMetaPartitionInodeID) ∧ ¬ s.Safe) ∧
    (∃ s, Reach step (fun _ _ => True) sampleNew s ∧
      s.table 2 = some (16777217, defaultMaxMetaPartitionInodeID) ∧
      s.table 3 = some (33554433, defaultMaxMetaPartitionInodeID) ∧ ¬ s.Safe) ∧
    ∃ s, Reach step (fun _ _ => True) sampleNew s ∧ s.table 3 = some (33554433, 5) ∧ ¬ s.Safe := by
  refine ⟨?_, ?_, ?_⟩
  · obtain ⟨s, hreach, h⟩ := Reach.exists_checked step (fun _ _ => True) sampleNew
      (sampleBuilt ++ [.pick 50000000, .pick 60000000, .update 3 50000000, .stored 3 true,
        .allocated 3 true, .created 3 (some sampleCreated), .update 3 60000000])
      (fun s => decide (s.table 3 = some (33554433, 60000000) ∧
        s.table 4 = some (50000001, defaultMaxMetaPartitionInodeID))) (by decide +kernel)
    obtain ⟨h3, h4⟩ := of_decide_eq_true h
    exact ⟨s, hreach, h3, h4, fun hsafe =>
      absurd (hsafe.disjoint_table h3 h4 (by decide)) (by decide)⟩
  · obtain ⟨s, hreach, h⟩ := Reach.exists_checked step (fun _ _ => True) sampleNew
      [.initAllocated true, .initCreated (some sampleCreated), .initAllocated true,
        .initCreated (some sampleCreated), .checkEnd 2, .stored 2 true, .initAllocated true,
        .initCreated (some sampleCreated)]
      (fun s => decide (s.table 2 = some (16777217, defaultMaxMetaPartitionInodeID) ∧
        s.table 3 = some (33554433, defaultMaxMetaPartitionInodeID))) (by decide +kernel)
    obtain ⟨h2, h3⟩ := of_decide_eq_true h
    exact ⟨s, hreach, h2, h3, fun hsafe =>
      absurd (hsafe.disjoint_table h2 h3 (by decide)) (by decide)⟩
  · obtain ⟨s, hreach, h⟩ := Reach.exists_checked step (fun _ _ => True) sampleNew
      (sampleBuilt ++ [.report 3 "a".toList ⟨33554433, 0, true⟩, .pick 5, .update 3 5])
      (fun s => decide (s.table 3 = some (33554433, 5))) (by decide +kernel)
    have h3 := of_decide_eq_true h
    refine ⟨s, hreach, h3, fun hsafe => ?_⟩
    obtain ⟨mp, hmp, hr⟩ := exists_of_table h3
    obtain ⟨hstart, hend⟩ := Prod.mk.inj hr
    have hle := hsafe.le 3 mp hmp
    rw [hstart, hend] at hle
    exact absurd hle (by decide)

end RangeMaster
end ChubaoFS.Master
