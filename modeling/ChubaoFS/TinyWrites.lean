import Mathlib.Data.List.Perm.Subperm
import ChubaoFS.TinyTokens

namespace ChubaoFS

open List Function Option
open RepairPhase (running)

/-! Each tiny extent is in one channel, with one packet or with the repair; so the packets
that write to one of them do so one after the other. -/

def RepairPhase.ids : RepairPhase → List UInt64
  | .idle => []
  | .taking ids => ids
  | .giveBack ids => ids
  | .running round => round.available ++ round.broken

namespace TinyExtents

def tokens (t : TinyExtents) : List UInt64 := t.available ++ t.broken ++ t.repair.ids

def fixing (t : TinyExtents) : Option (UInt64 × Nat) :=
  match t.repair with
  | .running round =>
    match round.toBeRepaired, round.currFixOffset with
    | (id, _) :: _, some offset => some (id, offset)
    | _, _ => none
  | _ => none

def TasksHeld (t : TinyExtents) : Prop :=
  ∀ round, t.repair = .running round → ∀ x ∈ round.toBeRepaired, x.1 ∈ round.broken

variable {id : UInt64} {infos : List ExtentInfo} {info : ExtentInfo} {ids : List UInt64}

theorem extentOf_fileID (h : extentOf infos id = some info) : info ∈ infos ∧ info.fileID = id :=
  ⟨mem_reverse.mp (mem_of_find?_eq_some h), eq_of_beq (find?_some h :)⟩

theorem mem_prepareRepairTasks {tasks : List (List ExtentInfo)}
    (h : id ∈ (prepareRepairTasks tasks).available ++ (prepareRepairTasks tasks).broken) :
    ∃ infos ∈ tasks, ∃ info ∈ infos, info.fileID = id := by
  have hfound : ∃ max, (id, max) ∈ ((tasks.flatMap fun infos => infos.map ExtentInfo.fileID).dedup
      ).filterMap fun id => (maxInfo tasks id).map fun max => (id, max) := by
    obtain h | h := mem_append.mp h
    all_goals
      obtain ⟨x, hx, rfl⟩ := mem_map.mp h
      exact ⟨x.2, mem_of_mem_filter (mem_of_mem_filter hx)⟩
  obtain ⟨max, hmax⟩ := hfound
  obtain ⟨id', hid', heq⟩ := mem_filterMap.mp hmax
  obtain ⟨_, _, heq⟩ := map_eq_some_iff.mp heq
  obtain ⟨rfl, _⟩ := Prod.mk.inj heq
  obtain ⟨infos, hinfos, hid⟩ := mem_flatMap.mp (mem_dedup.mp hid')
  obtain ⟨info, hinfo, rfl⟩ := mem_map.mp hid
  exact ⟨infos, hinfos, info, hinfo, rfl⟩

theorem nodup_prepareRepairTasks (tasks : List (List ExtentInfo)) :
    ((prepareRepairTasks tasks).available ++ (prepareRepairTasks tasks).broken).Nodup := by
  have hfst (l : List UInt64) : ((l.filterMap fun id => (maxInfo tasks id).map fun max =>
      (id, max)).map Prod.fst).Sublist l := by
    induction l with
    | nil => exact .slnil
    | cons id l ih =>
      rw [filterMap_cons]
      cases maxInfo tasks id with
      | none => exact ih.cons id
      | some max => exact ih.cons_cons id
  unfold prepareRepairTasks
  rw [← map_append]
  refine (List.Perm.map Prod.fst (filter_append_perm _ _)).nodup_iff.mpr ?_
  exact ((nodup_dedup _).sublist (hfst _)).sublist (filter_sublist.map _)

theorem toBeRepaired_broken {remotes : List (List ExtentInfo)}
    (htiny : ∀ info ∈ infos, isTinyExtent info.fileID = true) :
    ∀ x ∈ (prepareRepairTasks (infos :: remotes)).toBeRepaired,
      x.1 ∈ (prepareRepairTasks (infos :: remotes)).broken := by
  intro x hx
  obtain ⟨y, hy, rfl⟩ := mem_map.mp hx
  obtain ⟨hy, hshort⟩ := mem_filter.mp hy
  refine mem_map.mpr ⟨y, mem_filter.mpr ⟨mem_filter.mpr ⟨hy, ?_⟩, ?_⟩, rfl⟩
  · dsimp only [headD_cons] at hshort
    cases hof : extentOf infos y.1 with
    | none =>
      rw [hof] at hshort
      cases hshort
    | some info =>
      obtain ⟨hmem, hid⟩ := extentOf_fileID hof
      exact hid ▸ htiny info hmem
  · have hleader : hasBeenRepaired (infos :: remotes) y.1 y.2 = false := by
      unfold hasBeenRepaired
      rw [all_cons]
      dsimp only [headD_cons] at hshort
      rw [hshort]
      rfl
    rw [hleader]
    rfl

variable {t : TinyExtents}

theorem mem_localInfos (h : info ∈ t.localInfos ids) :
    info.fileID ∈ ids ∧ t.sizes info.fileID = some info.size := by
  obtain ⟨id, hid, heq⟩ := mem_filterMap.mp h
  obtain ⟨size, hsize, rfl⟩ := map_eq_some_iff.mp heq
  exact ⟨mem_dedup.mp hid, hsize⟩

variable {t t' : TinyExtents}

theorem sendToBroken_eq (h : t.sendToBroken id = some t') :
    t' = { t with broken := t.broken ++ [id] } := by
  unfold sendToBroken at h
  split at h
  · exact (some.inj h).symm
  · cases h

theorem sendToAvailable_eq (h : t.sendToAvailable id = some t') :
    t' = { t with available := t.available ++ [id] } := by
  unfold sendToAvailable at h
  split at h
  · exact (some.inj h).symm
  · cases h

/-- What a step of the repair does: ids only move, and of the watermarks at most that of the extent
that is being repaired changes. -/
structure RepairMove (t t' : TinyExtents) : Prop where
  tasks : t'.TasksHeld
  tokens : t'.tokens.Subperm t.tokens
  sizes : t'.sizes = t.sizes ∧ (∀ id offset, t'.fixing = some (id, offset) →
        t.fixing = some (id, offset) ∨ t.sizes id = some offset) ∨
    ∃ id offset size, t.fixing = some (id, offset) ∧ (t.sizes id).isSome = true ∧
      t'.fixing = some (id, offset + size) ∧
      t'.sizes = Function.update t.sizes id (some (roundUp (offset + size)))

theorem fixing_eq_none {round : RepairRound} (hr : t.repair = .running round)
    (hcur : round.currFixOffset = none) : t.fixing = none := by
  unfold fixing
  rw [hr]
  dsimp only
  rw [hcur]
  cases round.toBeRepaired <;> rfl

theorem RepairMove.of_perm (hsizes : t'.sizes = t.sizes) (htasks : t'.TasksHeld)
    (hfix : t'.fixing = none ∨ t'.fixing = t.fixing)
    (hcount : ∀ id, t'.tokens.count id = t.tokens.count id) : RepairMove t t' := by
  refine ⟨htasks, (perm_iff_count.mpr hcount).subperm, .inl ⟨hsizes, fun id offset h => ?_⟩⟩
  obtain hfix | hfix := hfix
  · exact absurd (hfix.symm.trans h) nofun
  · exact .inl (hfix ▸ h)

theorem repairMove_build (hsizes : ∀ id w, t.sizes id = some w → isTinyExtent id = true)
    (hr : t.repair = .taking ids) (remotes : List (List ExtentInfo)) :
    RepairMove t { t with repair := .running (prepareRepairTasks
      (t.localInfos ids :: remotes.map (tinyExtentFilter ids))) } := by
  have hids : t.repair.ids = ids := by
    rw [hr]
    rfl
  refine ⟨?_, ?_, .inl
    ⟨rfl, fun id offset h => absurd ((fixing_eq_none rfl rfl).symm.trans h) nofun⟩⟩
  · intro round hround
    obtain rfl := running.inj hround
    exact toBeRepaired_broken fun info hinfo => hsizes _ _ (mem_localInfos hinfo).2
  · unfold tokens
    refine .append (.refl _) ?_
    rw [hids]
    refine subperm_of_subset (nodup_prepareRepairTasks _) fun id hid => ?_
    obtain ⟨infos, hinfos, info, hinfo, rfl⟩ := mem_prepareRepairTasks hid
    obtain rfl | hinfos := mem_cons.mp hinfos
    · exact (mem_localInfos hinfo).1
    · obtain ⟨remote, _, rfl⟩ := mem_map.mp hinfos
      have hfilter := (mem_filter.mp hinfo).2
      simp only [Bool.and_eq_true, contains_iff_mem] at hfilter
      exact hfilter.1.2

/-- The ids stay with the repair, and no extent is being repaired. -/
theorem RepairMove.of_ids {phase : RepairPhase} (hids : phase.ids = t.repair.ids)
    (hround : ∀ round, phase = .running round →
      (∀ x ∈ round.toBeRepaired, x.1 ∈ round.broken) ∧ round.currFixOffset = none) :
    RepairMove t { t with repair := phase } := by
  refine .of_perm rfl (fun round h => (hround round h).1) (.inl ?_) fun x => ?_
  · cases phase with
    | running round => exact fixing_eq_none rfl (hround round rfl).2
    | idle | taking _ | giveBack _ => rfl
  · unfold TinyExtents.tokens
    rw [hids]

section Fix

variable (htasks : t.TasksHeld)
include htasks

theorem repairMove_fixStart (hs : t.repairStep .fixStart = some t') : RepairMove t t' := by
  dsimp only [repairStep] at hs
  split at hs
  next round hr =>
    split at hs
    next id size rest htodo hcur =>
      have hheld := htasks round hr
      have hdone : RepairMove t { t with repair := .running { round with toBeRepaired := rest } } :=
        .of_ids (by rw [hr]; rfl) fun _ h =>
          running.inj h ▸ ⟨fun x hx => hheld x (htodo ▸ mem_cons_of_mem _ hx), hcur⟩
      split at hs
      · exact some.inj hs ▸ hdone
      rename_i w hw
      split at hs
      · exact some.inj hs ▸ hdone
      cases hs
      refine ⟨fun _ h => running.inj h ▸ hheld, ?_, .inl ⟨rfl, fun id' offset hfix => ?_⟩⟩
      · unfold tokens
        rw [hr]
        exact .refl _
      · dsimp only [fixing] at hfix
        rw [htodo] at hfix
        cases hfix
        exact .inr hw
    · cases hs
  · cases hs

theorem repairMove_fixChunk {size : UInt32} {err : Option ErrText}
    (hs : t.repairStep (.fixChunk size err) = some t') : RepairMove t t' := by
  dsimp only [repairStep] at hs
  split at hs
  next round hr =>
    split at hs
    next id target rest offset htodo hcur =>
      have hheld := htasks round hr
      split at hs
      · split at hs
        · cases hs
          exact .of_ids (by rw [hr]; rfl) fun _ h =>
            running.inj h ▸ ⟨fun x hx => hheld x (htodo ▸ mem_cons_of_mem _ hx), rfl⟩
        next t₁ hwrite =>
          cases hs
          obtain ⟨_, hsome, rfl⟩ := DataNode.writeTiny_ok hwrite
          refine ⟨fun _ h => running.inj h ▸ hheld, ?_,
            .inr ⟨id, offset, size.toNat, ?_, hsome, ?_, rfl⟩⟩
          · unfold tokens
            rw [hr]
            exact .refl _
          · unfold fixing
            rw [hr]
            dsimp only
            rw [htodo, hcur]
          · dsimp only [fixing]
            rw [htodo]
      · cases hs
    · cases hs
  · cases hs

theorem repairMove_fixEnds (hs : t.repairStep .fixEnds = some t') : RepairMove t t' := by
  dsimp only [repairStep] at hs
  split at hs
  next round hr =>
    split at hs
    next x rest offset htodo hcur =>
      cases hs
      exact .of_ids (by rw [hr]; rfl) fun _ h =>
        running.inj h ▸ ⟨fun y hy => htasks round hr y (htodo ▸ mem_cons_of_mem _ hy), rfl⟩
    · cases hs
  · cases hs

end Fix

theorem repairMove (hsizes : ∀ id w, t.sizes id = some w → isTinyExtent id = true)
    (htasks : t.TasksHeld) {e : RepairEvent} (hs : t.repairStep e = some t') : RepairMove t t' := by
  cases e with
  | fixStart => exact repairMove_fixStart htasks hs
  | fixChunk size err => exact repairMove_fixChunk htasks hs
  | fixEnds => exact repairMove_fixEnds htasks hs
  | moveToBroken =>
    dsimp only [repairStep] at hs
    split at hs
    next id rest hr havail =>
      obtain rfl := sendToBroken_eq hs
      refine .of_perm rfl htasks (.inr rfl) fun x => ?_
      unfold tokens
      rw [havail]
      simp only [count_append, count_cons, count_nil]
      omega
    · cases hs
  | start | buildFails =>
    dsimp only [repairStep] at hs
    split at hs
    next hr =>
      cases hs
      exact .of_ids (by rw [hr]; rfl) nofun
    · cases hs
  | take =>
    dsimp only [repairStep] at hs
    split at hs
    next ids id rest hr hbroken =>
      cases hs
      refine .of_perm rfl nofun (.inl rfl) fun x => ?_
      unfold tokens
      rw [hr, hbroken]
      simp only [RepairPhase.ids, count_append, count_cons, count_nil]
      omega
    · cases hs
  | build remotes =>
    dsimp only [repairStep] at hs
    split at hs
    next ids hr =>
      cases hs
      exact repairMove_build hsizes hr remotes
    · cases hs
  | giveBack =>
    dsimp only [repairStep] at hs
    split at hs
    next id rest hr =>
      obtain rfl := sendToBroken_eq hs
      refine .of_perm rfl nofun (.inl rfl) fun x => ?_
      unfold tokens
      rw [hr]
      simp only [RepairPhase.ids, count_append, count_cons, count_nil]
      omega
    · cases hs
  | sendAvailable id | sendBroken id =>
    dsimp only [repairStep] at hs
    split at hs
    next round hr =>
      split at hs
      next hsend =>
        first
          | obtain rfl := sendToAvailable_eq hs
          | obtain rfl := sendToBroken_eq hs
        refine .of_perm rfl ?_ (.inl ?_) fun x => ?_
        · exact fun _ h y hy => absurd (hsend.1 ▸ running.inj h ▸ hy) not_mem_nil
        · dsimp only [fixing]
          rw [hsend.1]
        · have hperm := (perm_cons_erase hsend.2).count_eq x
          unfold tokens
          rw [hr]
          simp only [RepairPhase.ids, count_append, count_cons, count_nil] at hperm ⊢
          omega
      · cases hs
    · cases hs
  | finish =>
    dsimp only [repairStep] at hs
    split at hs
    next hr =>
      cases hs
      exact .of_ids (by rw [hr]; rfl) nofun
    next hr =>
      cases hs
      exact .of_ids (by rw [hr]; rfl) nofun
    next round hr =>
      split at hs
      next hempty =>
        cases hs
        refine .of_ids ?_ nofun
        rw [hr]
        simp only [RepairPhase.ids, hempty.1, hempty.2, append_nil]
      · cases hs
    · cases hs

end TinyExtents

structure TinyInv (node : DataNode) {ι : Type} (req : ι → ReplRequest) (t : TinyExtents) :
    Prop where
  tiny : ∀ id ∈ t.tokens, isTinyExtent id = true
  sizes : ∀ id w, t.sizes id = some w → isTinyExtent id = true
  tasks : t.TasksHeld
  nodup : t.tokens.Nodup
  apart : ∀ x, (req x).packet.owns = true → (req x).packet.extentID ∉ t.tokens
  single : ∀ x y, (req x).packet.owns = true → (req y).packet.owns = true →
    (req x).packet.extentID = (req y).packet.extentID → x = y
  below : ∀ x, (req x).Written node → ∃ w : Nat, t.sizes (req x).packet.extentID = some w ∧
    (req x).stop ≤ w
  -- whoever may write to an extent does so behind all that was written there
  behind : ∀ x y, (req x).Pending → (req y).Written node →
    (req y).packet.extentID = (req x).packet.extentID → (req y).stop ≤ (req x).packet.extentOffset
  disjoint : ∀ x y, x ≠ y → (req x).Written node → (req y).Written node →
    (req x).packet.extentID = (req y).packet.extentID →
      (req x).stop ≤ (req y).packet.extentOffset ∨ (req y).stop ≤ (req x).packet.extentOffset
  fixing : ∀ id offset, t.fixing = some (id, offset) → ∀ x, (req x).Written node →
    (req x).packet.extentID = id → (req x).stop ≤ offset

namespace TinyInv

variable {node : DataNode} {ι : Type} [DecidableEq ι] {req : ι → ReplRequest} {t t' : TinyExtents}
  {x : ι} {r : ReplRequest}

def Kept (node : DataNode) (r r' : ReplRequest) : Prop :=
  r'.Written node → r.Written node ∧ r'.packet.extentID = r.packet.extentID ∧
    r'.packet.extentOffset = r.packet.extentOffset ∧ r'.wire = r.wire

theorem Kept.stop_eq {r r' : ReplRequest} (h : Kept node r r') (hw : r'.Written node) :
    r'.stop = r.stop := by
  obtain ⟨_, _, hoff, hwire⟩ := h hw
  unfold ReplRequest.stop
  rw [hoff, hwire]

theorem kept_update (hr : Kept node (req x) r) (y : ι) : Kept node (req y) (update req x r y) := by
  by_cases hy : y = x
  · subst hy
    rw [update_self]
    exact hr
  · rw [update_of_ne hy]
    exact fun hw => ⟨hw, rfl, rfl, rfl⟩

theorem of_kept (h : TinyInv node req t) (hr : Kept node (req x) r) (hsizes : t'.sizes = t.sizes)
    (hrepair : t'.repair = t.repair) (htiny : ∀ id ∈ t'.tokens, isTinyExtent id = true)
    (hnodup : t'.tokens.Nodup) (hself : r.packet.owns = true → r.packet.extentID ∉ t'.tokens ∧
      ∀ y, y ≠ x → (req y).packet.owns = true → r.packet.extentID ≠ (req y).packet.extentID)
    (hothers : ∀ y, y ≠ x → (req y).packet.owns = true → (req y).packet.extentID ∉ t'.tokens)
    (hpending : r.Pending → ∀ y, (req y).Written node →
      (req y).packet.extentID = r.packet.extentID → (req y).stop ≤ r.packet.extentOffset) :
    TinyInv node (update req x r) t' where
  tiny := htiny
  sizes := hsizes ▸ h.sizes
  tasks := by
    unfold TinyExtents.TasksHeld
    rw [hrepair]
    exact h.tasks
  nodup := hnodup
  apart := by
    intro y hy
    by_cases hyx : y = x
    · subst hyx
      rw [update_self] at hy ⊢
      exact (hself hy).1
    · rw [update_of_ne hyx] at hy ⊢
      exact hothers y hyx hy
  single := by
    intro y z hy hz heq
    by_cases hyx : y = x
    · by_cases hzx : z = x
      · rw [hyx, hzx]
      · subst hyx
        rw [update_self] at hy heq
        rw [update_of_ne hzx] at hz heq
        exact absurd heq ((hself hy).2 z hzx hz)
    by_cases hzx : z = x
    · subst hzx
      rw [update_self] at hz heq
      rw [update_of_ne hyx] at hy heq
      exact absurd heq.symm ((hself hz).2 y hyx hy)
    · rw [update_of_ne hyx] at hy heq
      rw [update_of_ne hzx] at hz heq
      exact h.single y z hy hz heq
  below := by
    intro y hw
    have hk := kept_update hr y
    obtain ⟨hold, hid, _, _⟩ := hk hw
    rw [hk.stop_eq hw, hid, hsizes]
    exact h.below y hold
  behind := by
    intro y z hy hz hid
    have hk := kept_update hr z
    obtain ⟨hold, hzid, _, _⟩ := hk hz
    rw [hk.stop_eq hz]
    rw [hzid] at hid
    by_cases hyx : y = x
    · subst hyx
      rw [update_self] at hy hid ⊢
      exact hpending hy z hold hid
    · rw [update_of_ne hyx] at hy hid ⊢
      exact h.behind y z hy hold hid
  disjoint := by
    intro y z hne hy hz hid
    have hky := kept_update hr y
    have hkz := kept_update hr z
    obtain ⟨hyold, hyid, hyoff, _⟩ := hky hy
    obtain ⟨hzold, hzid, hzoff, _⟩ := hkz hz
    rw [hky.stop_eq hy, hkz.stop_eq hz, hyoff, hzoff]
    exact h.disjoint y z hne hyold hzold (hyid.symm.trans (hid.trans hzid))
  fixing := by
    intro id offset hfix y hw hid
    have hk := kept_update hr y
    obtain ⟨hold, hyid, _, _⟩ := hk hw
    rw [hk.stop_eq hw]
    unfold TinyExtents.fixing at hfix
    rw [hrepair] at hfix
    exact h.fixing id offset hfix y hold (hyid.symm.trans hid)

theorem tokens_take {id : UInt64} {rest : List UInt64} (hfirst : t.available = id :: rest) :
    t.tokens = id :: { t with available := rest }.tokens := by
  unfold TinyExtents.tokens
  rw [hfirst]
  rfl

theorem tokens_give (t : TinyExtents) (id : UInt64) (broken : Bool) :
    (if broken then { t with broken := t.broken ++ [id] }
      else { t with available := t.available ++ [id] }).tokens.Perm (id :: t.tokens) := by
  refine perm_iff_count.mpr fun y => ?_
  unfold TinyExtents.tokens
  split
  all_goals
    simp only [count_append, count_cons, count_nil]
    omega

variable (h : TinyInv node req t)
include h

omit [DecidableEq ι] in
theorem apart_of_same (howner : (req x).packet.owns = true)
    (hid : r.packet.extentID = (req x).packet.extentID) : r.packet.extentID ∉ t.tokens ∧
      ∀ y, y ≠ x → (req y).packet.owns = true → r.packet.extentID ≠ (req y).packet.extentID :=
  ⟨hid ▸ h.apart x howner, fun y hyx hy heq => hyx (h.single y x hy howner (heq.symm.trans hid))⟩

omit [DecidableEq ι] in
theorem fixing_mem_tokens {id : UInt64} {offset : Nat} (hfix : t.fixing = some (id, offset)) :
    id ∈ t.tokens := by
  unfold TinyExtents.fixing at hfix
  split at hfix
  next round hround =>
    split at hfix
    next htodo _ =>
      obtain ⟨rfl, _⟩ := Prod.mk.inj (some.inj hfix)
      have hbroken := h.tasks round hround _ (htodo ▸ mem_cons_self ..)
      unfold TinyExtents.tokens
      rw [hround]
      exact mem_append_right _ (mem_append_right _ hbroken)
    · cases hfix
  · cases hfix

theorem write {w : Nat} (hpending : (req x).Pending) (hcore : r.packet.core = (req x).packet.core)
    (hlower : (req x).packet.extentOffset ≤ w) (hupper : r.Written node → r.stop ≤ w)
    (hover : r.Written node → ¬ r.Pending) : TinyInv node (update req x r)
      { t with sizes := Function.update t.sizes (req x).packet.extentID (some w) } := by
  obtain ⟨_, hid, hoff, _, _⟩ := Packet.core_eq_iff.mp hcore
  have howns := Packet.owns_of_core hcore
  -- the other writes to the extent end before this one begins
  have hkept (y : ι) (hy : (update req x r y).Written node) :
      y = x ∨ (req y).Written node ∧ update req x r y = req y := by
    by_cases hyx : y = x
    · exact .inl hyx
    · rw [update_of_ne hyx] at hy ⊢
      exact .inr ⟨hy, rfl⟩
  refine ⟨h.tiny, ?_, h.tasks, h.nodup, ?_, ?_, ?_, ?_, ?_, ?_⟩
  · intro id w' hw'
    by_cases hidx : id = (req x).packet.extentID
    · rw [hidx]
      exact (Packet.owns_iff.mp hpending.1).2.2.2.2.2
    dsimp only at hw'
    rw [update_of_ne hidx] at hw'
    exact h.sizes id w' hw'
  · intro y hy
    by_cases hyx : y = x
    · subst hyx
      rw [update_self] at hy ⊢
      exact hid ▸ h.apart y (howns ▸ hy)
    · rw [update_of_ne hyx] at hy ⊢
      exact h.apart y hy
  · intro y z hy hz heq
    have hsame (y : ι) : (update req x r y).packet.owns = (req y).packet.owns ∧
        (update req x r y).packet.extentID = (req y).packet.extentID := by
      by_cases hyx : y = x
      · subst hyx
        rw [update_self]
        exact ⟨howns, hid⟩
      · rw [update_of_ne hyx]
        exact ⟨rfl, rfl⟩
    rw [(hsame y).1] at hy
    rw [(hsame z).1] at hz
    rw [(hsame y).2, (hsame z).2] at heq
    exact h.single y z hy hz heq
  · intro y hy
    obtain rfl | ⟨hyold, heq⟩ := hkept y hy
    · rw [update_self] at hy ⊢
      refine ⟨w, ?_, hupper hy⟩
      dsimp only
      rw [hid, update_self]
    · rw [heq]
      by_cases hyid : (req y).packet.extentID = (req x).packet.extentID
      · refine ⟨w, ?_, Int.le_trans (h.behind x y hpending hyold hyid) hlower⟩
        dsimp only
        rw [hyid, update_self]
      dsimp only
      rw [update_of_ne hyid]
      exact h.below y hyold
  · intro y z hy hz heq
    by_cases hyx : y = x
    · subst hyx
      rw [update_self] at hy heq ⊢
      obtain rfl | ⟨hzold, hzeq⟩ := hkept z hz
      · rw [update_self] at hz
        exact absurd hy (hover hz)
      · rw [hzeq] at heq ⊢
        rw [hoff]
        exact h.behind y z hpending hzold (heq.trans hid)
    rw [update_of_ne hyx] at hy heq ⊢
    obtain rfl | ⟨hzold, hzeq⟩ := hkept z hz
    · rw [update_self, hid] at heq
      exact absurd (h.single y z hy.1 hpending.1 heq.symm) hyx
    · rw [hzeq] at heq ⊢
      exact h.behind y z hy hzold heq
  · intro y z hne hy hz heq
    obtain rfl | ⟨hyold, hyeq⟩ := hkept y hy
    · obtain rfl | ⟨hzold, hzeq⟩ := hkept z hz
      · exact absurd rfl hne
      · rw [hzeq] at heq ⊢
        rw [update_self] at heq ⊢
        rw [hoff]
        exact .inr (h.behind y z hpending hzold (heq.symm.trans hid))
    · obtain rfl | ⟨hzold, hzeq⟩ := hkept z hz
      · rw [hyeq] at heq ⊢
        rw [update_self] at heq ⊢
        rw [hoff]
        exact .inl (h.behind z y hpending hyold (heq.trans hid))
      · rw [hyeq, hzeq] at heq ⊢
        exact h.disjoint y z hne hyold hzold heq
  · intro id offset hfix y hy heq
    obtain rfl | ⟨hyold, hyeq⟩ := hkept y hy
    · -- the extent that is repaired is no packet's
      rw [update_self, hid] at heq
      exact absurd (heq ▸ h.fixing_mem_tokens hfix) (h.apart y hpending.1)
    · rw [hyeq] at heq ⊢
      exact h.fixing id offset hfix y hyold heq

theorem move (hm : TinyMove node (req x) t r t') : TinyInv node (update req x r) t' := by
  cases hm with
  | quiet howner hwritten hpending =>
    refine h.of_kept hwritten rfl rfl h.tiny h.nodup (fun hr => ?_) (fun y _ => h.apart y)
      fun hp y hy hid => ?_
    · obtain ⟨hold, hid⟩ := howner hr
      exact h.apart_of_same hold hid
    · obtain ⟨hold, hoff⟩ := hpending hp
      rw [hoff]
      exact h.behind x y hold hy (hid.trans (howner hp.1).2)
  | @take id rest hfirst hold hid hstage hwritten =>
    have htokens := tokens_take hfirst
    have hnd := nodup_cons.mp (htokens ▸ h.nodup)
    refine h.of_kept (fun hw => absurd hw hwritten) rfl rfl
      (fun y hy => h.tiny y (htokens ▸ mem_cons_of_mem _ hy)) hnd.2
      (fun _ => ⟨hid ▸ hnd.1, fun y _ hy heq => h.apart y hy ?_⟩)
      (fun y _ hy hmem => h.apart y hy (htokens ▸ mem_cons_of_mem _ hmem)) fun hp => ?_
    · rw [← heq, hid, htokens]
      exact mem_cons_self ..
    · obtain hp | hp := hp.2
      all_goals cases hstage.symm.trans hp
  | @place w howner hsize hid hoff hwritten =>
    refine h.of_kept (fun hw => absurd hw hwritten) rfl rfl h.tiny h.nodup
      (fun _ => h.apart_of_same howner hid) (fun y _ => h.apart y) fun _ y hy hyid => ?_
    obtain ⟨w', hw', hstop⟩ := h.below y hy
    rw [hyid, hid, hsize] at hw'
    cases hw'
    rw [hoff]
    have := le_roundUp w
    omega
  | write hpending _ hcore hlower hupper hover =>
    exact h.write hpending hcore hlower hupper hover
  | release howner hfree hwritten hgiven =>
    have hperm := hgiven ▸ tokens_give t (req x).packet.extentID (req x).packet.isErrPacket
    have hmem (y : UInt64) : y ∈ t'.tokens ↔ y = (req x).packet.extentID ∨ y ∈ t.tokens := by
      rw [hperm.mem_iff, mem_cons]
    have hsame : t'.sizes = t.sizes ∧ t'.repair = t.repair := by
      rw [hgiven]
      split
      all_goals exact ⟨rfl, rfl⟩
    have hfree : r.packet.owns ≠ true := hfree ▸ Bool.noConfusion
    refine h.of_kept hwritten hsame.1 hsame.2 (fun id hid => ?_) ?_ (fun hr => absurd hr hfree)
      (fun y hyx hy hid => ?_) fun hp => absurd hp.1 hfree
    · obtain rfl | hid := (hmem id).mp hid
      · exact (Packet.owns_iff.mp howner).2.2.2.2.2
      · exact h.tiny id hid
    · exact hperm.nodup_iff.mpr (nodup_cons.mpr ⟨h.apart x howner, h.nodup⟩)
    · obtain hid | hid := (hmem _).mp hid
      · exact hyx (h.single y x hy howner hid)
      · exact h.apart y hy hid

omit [DecidableEq ι] in
theorem repair {e : TinyExtents.RepairEvent} (hs : t.repairStep e = some t') :
    TinyInv node req t' := by
  obtain ⟨htasks, htokens, hsizes⟩ := TinyExtents.repairMove h.sizes h.tasks hs
  have hsub := htokens.subset
  have hnodup : t'.tokens.Nodup := by
    obtain ⟨l, hperm, hsub⟩ := htokens
    exact hperm.nodup_iff.mp (h.nodup.sublist hsub)
  obtain ⟨hsizes, hfix⟩ | ⟨id, offset, size, hfix, hsome, hfix', hsizes⟩ := hsizes
  · refine ⟨fun id hid => h.tiny id (hsub hid), hsizes ▸ h.sizes, htasks, hnodup,
      fun x hx hid => h.apart x hx (hsub hid), h.single, hsizes ▸ h.below, h.behind, h.disjoint, ?_⟩
    intro id offset hf x hx hid
    obtain hold | hold := hfix id offset hf
    · exact h.fixing id offset hold x hx hid
    · obtain ⟨w, hw, hstop⟩ := h.below x hx
      rw [hid, hold] at hw
      exact some.inj hw ▸ hstop
  · refine ⟨fun id hid => h.tiny id (hsub hid), ?_, htasks, hnodup,
      fun x hx hid => h.apart x hx (hsub hid), h.single, ?_, h.behind, h.disjoint, ?_⟩
    · intro id' w hw
      rw [hsizes] at hw
      by_cases hid : id' = id
      · obtain ⟨w', hw'⟩ := isSome_iff_exists.mp hsome
        exact hid ▸ h.sizes id w' hw'
      · rw [update_of_ne hid] at hw
        exact h.sizes id' w hw
    · intro x hx
      rw [hsizes]
      by_cases hid : (req x).packet.extentID = id
      · refine ⟨_, by rw [hid, update_self], ?_⟩
        have hstop := h.fixing id offset hfix x hx hid
        have hround := le_roundUp (offset + size)
        omega
      · rw [update_of_ne hid]
        exact h.below x hx
    · intro id' offset' hf x hx hid
      obtain ⟨rfl, rfl⟩ := Prod.mk.inj (some.inj (hfix'.symm.trans hf))
      have hstop := h.fixing id offset hfix x hx hid
      omega

end TinyInv

namespace DataNode

variable {node : DataNode} {onDisk : UInt64 → Nat} {s s' : Server TinyExtents}

theorem nodeTidy_started : NodeTidy node (started onDisk) where
  acks := fun _ => ⟨[], ReplProtocol.acks_new⟩
  tidy := fun _ _ => ⟨fun h => absurd rfl h, fun h => absurd rfl h, nofun, nofun, fun _ => rfl,
    nofun, nofun, fun _ => rfl⟩
  reader := nofun

def requests (s : Server TinyExtents) (x : Nat × Nat) : ReplRequest := (s.conns x.1).heap x.2

theorem requests_update {rp : ReplProtocol} {c i : Nat} {r : ReplRequest}
    (hheap : rp.heap = update (s.conns c).heap i r) :
    requests ⟨t, update s.conns c rp⟩ = update (requests s) (c, i) r := by
  funext ⟨d, j⟩
  unfold requests
  dsimp only
  by_cases hd : d = c
  · subst hd
    rw [update_self, hheap]
    by_cases hj : j = i
    · subst hj
      rw [update_self, update_self]
    · rw [update_of_ne hj, update_of_ne fun h => hj (Prod.mk.inj h).2]
  · rw [update_of_ne hd, update_of_ne fun h => hd (Prod.mk.inj h).1]

theorem tinyInv_started : TinyInv node (requests (started onDisk)) (started onDisk).shared where
  tiny := all_eq_true.mp (by decide +kernel : TinyExtents.ids.all isTinyExtent = true)
  sizes := by
    intro id w h
    by_contra hid
    dsimp only [started, Server.new, TinyExtents.initTinyExtent] at h
    rw [if_neg hid] at h
    cases h
  tasks := nofun
  nodup := (by decide +kernel : TinyExtents.ids.Nodup)
  apart := nofun
  single := nofun
  below := fun _ hw => absurd hw.2 nofun
  behind := fun _ _ hp => absurd hp.1 nofun
  disjoint := fun _ _ _ hw => absurd hw.2 nofun
  fixing := nofun

/-- Every write that is read has a normal extent id in its header, and a tiny one has followers. -/
abbrev AllAskForTiny (node : DataNode) := Reads (Packet.AsksForTiny node)

theorem tinyInv_step (h : NodeTidy node s ∧ TinyInv node (requests s) s.shared) {e : Event}
    (ha : node.AllAskForTiny s e) (hs : node.step s e = some s') :
    NodeTidy node s' ∧ TinyInv node (requests s') s'.shared := by
  obtain ⟨htidy, hinv⟩ := h
  cases e with
  | other e =>
    obtain ⟨t', hstep, rfl⟩ := map_eq_some_iff.mp hs
    exact ⟨{ htidy with }, hinv.repair hstep⟩
  | conn c e =>
    obtain ⟨⟨t', rp⟩, hstep, rfl⟩ := map_eq_some_iff.mp hs
    have hask (wire : Packet) (he : e = .read wire) : wire.AsksForTiny node := by
      subst he
      exact ha
    have havail (id : UInt64) (hid : id ∈ s.shared.available) : isTinyExtent id = true :=
      hinv.tiny id (mem_append_left _ (mem_append_left _ hid))
    obtain ⟨htidy', i, r, hheap, hmove⟩ := htidy.conn havail hask hstep
    refine ⟨htidy', ?_⟩
    rw [requests_update hheap]
    exact hinv.move hmove

theorem tinyInv_run {P : Packet → Prop} (hP : ∀ wire, P wire → wire.AsksForTiny node)
    (hr : Reach node.step (Reads P) (started onDisk) s) :
    NodeTidy node s ∧ TinyInv node (requests s) s.shared := by
  refine hr.invariant ⟨nodeTidy_started, tinyInv_started⟩ fun s e _ h ha hs => tinyInv_step h ?_ hs
  unfold AllAskForTiny Reads
  split
  · exact hP _ ha
  · trivial

theorem NodeTidy.written (h : NodeTidy node s) {c i : Nat} {p : Packet}
    (hsent : (i, p) ∈ (s.conns c).sent) (hw : ((s.conns c).heap i).wire.TinyWrite node)
    (hok : p.resultCode = opOk) : (requests s (c, i)).Written node ∧
      p.extentID = (requests s (c, i)).packet.extentID ∧
      p.extentOffset = (requests s (c, i)).packet.extentOffset := by
  obtain ⟨done, hacks⟩ := h.acks c
  obtain ⟨hread, hacked⟩ := hacks.sent _ hsent
  obtain ⟨hpos, haddrs⟩ := ((h.tidy c i).asks hread hw.1 hw.2.1).2 hw.2.2
  obtain ⟨_, hhead, hacked⟩ := hacked (not_read_of_write hw.2.1) hpos
    (bne_eq_false_iff_eq.mpr hok)
  unfold Packet.head at hhead
  simp only [Prod.mk.injEq] at hhead
  exact ⟨⟨hw, hacked.1 haddrs⟩, hhead.2.2.2.2.1, hhead.2.2.2.2.2.1⟩

def tinyWriteFor (extentID reqID : UInt64) : Packet :=
  { createFor [102, 47] with
    opcode := opWrite, extentType := tinyExtentType, size := 2, extentID := extentID
    reqID := reqID, data := [1, 2] }

def repairOne : List Event :=
  [.other .start, .other .take, .other (.build []), .other (.sendAvailable 1), .other .finish]

def writeUpTo (c : Nat) (wire : Packet) : List Event :=
  [.conn c (.read wire), .conn c (.prepare (outcome opOk)), .conn c (.prepare (outcome opOk)),
    .conn c (.forward fun _ => .sent)]

/-- No tiny extent is offered twice, and one that a packet holds is neither offered nor held by
another packet. -/
theorem tiny_extents_exclusive (node : DataNode) (onDisk : UInt64 → Nat) {s : Server TinyExtents}
    (hr : Reach node.step node.AllAskForTiny (started onDisk) s) :
    s.shared.tokens.Nodup ∧ ∀ x, (requests s x).packet.owns →
      (requests s x).packet.extentID ∉ s.shared.tokens ∧ ∀ y, (requests s y).packet.owns →
        (requests s x).packet.extentID = (requests s y).packet.extentID → x = y := by
  obtain ⟨-, hinv⟩ := tinyInv_run (fun _ h => h) hr
  exact ⟨hinv.nodup, fun x hx => ⟨hinv.apart x hx, fun y => hinv.single x y hx⟩⟩

theorem tiny_extents_exclusive_taken : ∃ s : Server TinyExtents,
    Reach node7.step node7.AllAskForTiny (started fun _ => 0) s ∧
    (requests s (0, 0)).packet.owns ∧ (requests s (0, 0)).packet.extentID ∉ s.shared.tokens :=
  have hr : Reach node7.step node7.AllAskForTiny (started fun _ => 0) _ :=
    .of_checked (repairOne ++ writeUpTo 0 (tinyWriteFor 0 5)) rfl .start
  ⟨_, hr, rfl, ((tiny_extents_exclusive node7 _ hr).2 (0, 0) rfl).1⟩

end DataNode
end ChubaoFS
