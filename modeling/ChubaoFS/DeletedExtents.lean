import ChubaoFS.ExtentStore

namespace ChubaoFS

open List Function Option AList

/-! Replicas that delete extents while rounds of repair create what some of them are missing. -/

open ExtentStore

/-- The extents to create on the `n` replicas, by the report of each of them. -/
def buildExtentCreationTasks (n : Nat) (reports : List (List ExtentInfo)) : List (Fin n × UInt64) :=
  ((reports.flatMap fun infos => infos.map ExtentInfo.fileID).dedup).flatMap fun id =>
    match TinyExtents.maxInfo reports id with
    | none => []
    | some max =>
      if isTinyExtent id then []
      else ((List.finRange n).filter fun i : Fin n =>
        (TinyExtents.extentOf (reports.getD i []) id).isNone && !max.isDeleted).map fun i => (i, id)

theorem reported_of_mem_creation {n : Nat} {reports : List (List ExtentInfo)}
    {task : Fin n × UInt64} (h : task ∈ buildExtentCreationTasks n reports) :
    ∃ infos ∈ reports, ∃ info ∈ infos, info.fileID = task.2 := by
  obtain ⟨id, hid, htask⟩ := mem_flatMap.mp h
  obtain ⟨infos, hinfos, hid⟩ := mem_flatMap.mp (mem_dedup.mp hid)
  obtain ⟨info, hinfo, rfl⟩ := mem_map.mp hid
  refine ⟨infos, hinfos, info, hinfo, ?_⟩
  split at htask
  · cases htask
  split at htask
  · cases htask
  · obtain ⟨i, -, rfl⟩ := mem_map.mp htask
    rfl

structure RepairCluster (n : Nat) where
  stores : Fin n → ExtentStore
  /-- The reports that each round under way has collected, in the order of the replicas. -/
  rounds : List (List (List ExtentInfo))
  /-- Extents that a task in a replica's hands, or on its way there, tells it to create. -/
  toBeCreated : List (Fin n × UInt64)
  /-- Where `MarkDelete` has deleted which extent. -/
  deleted : List (Fin n × UInt64)
  /-- What a repair has created on a replica that had deleted it. -/
  revived : List (Fin n × UInt64)

inductive RepairClusterEvent (n : Nat)
  | create (i : Fin n) (id : UInt64) (now : Int64) (o : CreateOutcome)
  | write (i : Fin n) (id : UInt64) (offset size : Nat) (isUpdateSize : Bool) (now : Int64)
  | markDelete (i : Fin n) (id : UInt64) (now : Int64) (removed : Bool)
  | autoComputeExtentCrc (i : Fin n) (now : Int64)
  | restart (i : Fin n) (now : Int64)
  | startRound
  | collect (round : Nat) (now : Int64)
  | build (round : Nat)
  | giveUp (round : Nat)
  | repair (task : Nat) (now : Int64) (o : CreateOutcome)
  | lose (task : Nat)

namespace RepairCluster

variable {n : Nat}

def new (n : Nat) (now : Int64) : RepairCluster n :=
  ⟨fun _ => newExtentStore none ∅ now, [], [], [], []⟩

def setStore (s : RepairCluster n) (i : Fin n) (st : ExtentStore) : RepairCluster n :=
  { s with stores := Function.update s.stores i st }

/-- `DoRepair` on the leader and `DoExtentStoreRepair` on its followers, for one extent. -/
def doRepair (s : RepairCluster n) (i : Fin n) (id : UInt64) (now : Int64) (o : CreateOutcome) :
    RepairCluster n :=
  match (s.stores i).create id now o with
  | none => s
  | some st =>
    { s.setStore i st with
      revived := if (i, id) ∈ s.deleted then (i, id) :: s.revived else s.revived }

def step (s : RepairCluster n) : RepairClusterEvent n → Option (RepairCluster n)
  | .create i id now o => ((s.stores i).create id now o).map (s.setStore i)
  | .write i id offset size isUpdateSize now =>
    ((s.stores i).write id offset size isUpdateSize now).map (s.setStore i)
  | .markDelete i id now removed =>
    let st := (s.stores i).markDelete id now removed
    some { s.setStore i st with
      deleted := if ((s.stores i).live id).isSome && (st.live id).isNone then (i, id) :: s.deleted
        else s.deleted }
  | .autoComputeExtentCrc i now => some (s.setStore i ((s.stores i).autoComputeExtentCrc now))
  | .restart i now => some (s.setStore i ((s.stores i).restart now))
  | .startRound => some { s with rounds := [] :: s.rounds }
  | .collect k now =>
    match s.rounds[k]? with
    | none => none
    | some round =>
      if h : round.length < n then
        let report := (s.stores ⟨round.length, h⟩).getAllWatermarks now
        some { s with rounds := s.rounds.set k (round ++ [report]) }
      else none
  | .build k =>
    match s.rounds[k]? with
    | none => none
    | some round =>
      if round.length = n then
        some { s with
          rounds := s.rounds.eraseIdx k
          toBeCreated := s.toBeCreated ++ buildExtentCreationTasks n round }
      else none
  | .giveUp k => some { s with rounds := s.rounds.eraseIdx k }
  | .repair k now o =>
    match s.toBeCreated[k]? with
    | none => none
    | some (i, id) =>
      some { s.doRepair i id now o with toBeCreated := s.toBeCreated.eraseIdx k }
  | .lose k => some { s with toBeCreated := s.toBeCreated.eraseIdx k }

def Gone (s : RepairCluster n) (id : UInt64) : Prop :=
  (∀ i, (s.stores i).files.lookup id = none) ∧
    (∀ round ∈ s.rounds, ∀ infos ∈ round, ∀ info ∈ infos, info.fileID ≠ id) ∧
    ∀ task ∈ s.toBeCreated, task.2 ≠ id

/-- No extent is created again under a deleted id, and a mark is forgotten only when no file and
no task of the extent is left anywhere. -/
def DeletedFirst (s : RepairCluster n) : RepairClusterEvent n → Prop
  | .create _ id _ _ => ∀ i, (i, id) ∉ s.deleted
  | .autoComputeExtentCrc i now =>
    ∀ ei ∈ (s.stores i).extentInfoMap.entries, expired now ei.2 = true → s.Gone ei.1
  | .restart i _ =>
    ∀ ei ∈ (s.stores i).extentInfoMap.entries, ei.2.isDeleted = true → s.Gone ei.1
  | _ => True

instance decidableGone (s : RepairCluster n) (id : UInt64) : Decidable (s.Gone id) :=
  -- over the list, not over all tasks that there could be
  have : Decidable (∀ task ∈ s.toBeCreated, task.2 ≠ id) := List.decidableBAll _ _
  inferInstanceAs (Decidable (_ ∧ _ ∧ _))

instance decidableDeletedFirst (s : RepairCluster n) (e : RepairClusterEvent n) :
    Decidable (s.DeletedFirst e) := by
  cases e <;> unfold DeletedFirst <;> infer_instance

end RepairCluster

/-! What the operations of one store do to the files and to the marks of deleted extents. -/

namespace ExtentStore

variable {s s' : ExtentStore} {id i : UInt64} {now : Int64} {o : CreateOutcome} {offset size : Nat}
  {isUpdateSize removed : Bool} {ei : ExtentEntry}

def Held (s : ExtentStore) : Prop :=
  ∀ id ei, isTinyExtent id = false → s.live id = some ei → s.files.lookup id ≠ none

def Marked (s : ExtentStore) (id : UInt64) : Prop :=
  ∃ ei, s.extentInfoMap.lookup id = some ei ∧ ei.isDeleted = true

theorem not_marked_of_live (h : s.live id = some ei) : ¬ s.Marked id := by
  rintro ⟨ei', hei', hdel⟩
  obtain ⟨hlookup, hlive⟩ := live_eq_some h
  cases hlookup.symm.trans hei'
  rw [hlive] at hdel
  cases hdel

theorem live_congr (h : s'.extentInfoMap.lookup id = s.extentInfoMap.lookup id) :
    s'.live id = s.live id := by
  unfold live
  rw [h]

section

variable (hs : s.Held)
include hs

theorem Held.create (h : s.create id now o = some s') : s'.Held := by
  intro i ei hn hlive
  by_cases hi : i = id
  · subst hi
    obtain ⟨-, -, rfl⟩ := create_eq_some h
    rw [updateBaseExtentID_files]
    dsimp only
    rw [lookup_insert]
    nofun
  obtain ⟨hmap, hfile⟩ := lookup_create h hi
  rw [hfile]
  rw [live_congr hmap] at hlive
  exact hs i ei hn hlive

theorem Held.write (h : s.write id offset size isUpdateSize now = some s') : s'.Held := by
  obtain ⟨ei, f, -, -, rfl⟩ := write_eq_some h
  intro i ei hn hlive
  dsimp only
  by_cases hi : i = id
  · subst hi
    rw [lookup_insert]
    nofun
  rw [lookup_insert_ne hi]
  refine hs i ei hn ?_
  rw [← hlive]
  exact (live_congr (lookup_insert_ne hi)).symm

theorem Held.markDelete : (s.markDelete id now removed).Held := by
  obtain he | ⟨ei, -, -, -, he⟩ := markDelete_cases s id now removed
  · rw [he]
    exact hs
  · rw [he]
    intro i ei hn hlive
    by_cases hi : i = id
    · subst hi
      obtain ⟨hlookup, hdel⟩ := live_eq_some hlive
      dsimp only at hlookup
      rw [lookup_insert] at hlookup
      cases some.inj hlookup
      cases hdel
    dsimp only
    rw [lookup_erase_ne hi]
    refine hs i ei hn ?_
    rw [← hlive]
    exact (live_congr (lookup_insert_ne hi)).symm

theorem Held.autoComputeExtentCrc : (s.autoComputeExtentCrc now).Held := by
  intro i ei hn hlive
  obtain ⟨hlookup, hdel⟩ := live_eq_some hlive
  rw [lookup_autoComputeExtentCrc] at hlookup
  obtain ⟨hlookup, -⟩ := filter_eq_some_iff.mp hlookup
  refine hs i ei hn ?_
  exact filter_eq_some_iff.mpr ⟨hlookup, by simpa using hdel⟩

end

theorem held_restart (s : ExtentStore) (now : Int64) : (s.restart now).Held := by
  intro i ei hn hlive
  have hsame := sameNormal_restart s now
  obtain ⟨hlookup, -⟩ := live_eq_some hlive
  rw [hsame.file i hn]
  rw [hsame.lookup i hn] at hlookup
  intro hnone
  dsimp only [initBaseFileID] at hlookup hnone
  rw [lookup_loadedInfos, hnone] at hlookup
  cases hlookup

theorem lookup_files_write (h : s.write id offset size isUpdateSize now = some s')
    (hi : s.files.lookup i = none) : s'.files.lookup i = none := by
  obtain ⟨ei, f, -, hf, rfl⟩ := write_eq_some h
  have hne : i ≠ id := by
    rintro rfl
    cases hi.symm.trans hf
  dsimp only
  rw [lookup_insert_ne hne]
  exact hi

theorem lookup_files_markDelete (hi : s.files.lookup i = none) :
    (s.markDelete id now removed).files.lookup i = none := by
  obtain he | ⟨ei, -, -, -, he⟩ := markDelete_cases s id now removed
  · rw [he]
    exact hi
  · rw [he]
    by_cases hne : i = id
    · subst hne
      exact lookup_erase ..
    dsimp only
    rw [lookup_erase_ne hne]
    exact hi

theorem Marked.create (hm : s.Marked i) (h : s.create id now o = some s') : s'.Marked i := by
  have hne : i ≠ id := by
    rintro rfl
    obtain ⟨ei, hei, -⟩ := hm
    cases hei.symm.trans (create_eq_some h).1
  obtain ⟨ei, hei, hdel⟩ := hm
  exact ⟨ei, (lookup_create h hne).1.trans hei, hdel⟩

theorem Marked.write (hm : s.Marked i) (h : s.write id offset size isUpdateSize now = some s') :
    s'.Marked i := by
  obtain ⟨ei, f, hlive, -, rfl⟩ := write_eq_some h
  have hne : i ≠ id := by
    rintro rfl
    exact not_marked_of_live hlive hm
  obtain ⟨ei, hei, hdel⟩ := hm
  exact ⟨ei, (lookup_insert_ne hne).trans hei, hdel⟩

theorem Marked.markDelete (hm : s.Marked i) : (s.markDelete id now removed).Marked i := by
  obtain he | ⟨ei, hlive, -, -, he⟩ := markDelete_cases s id now removed
  · rw [he]
    exact hm
  · rw [he]
    have hne : i ≠ id := by
      rintro rfl
      exact not_marked_of_live hlive hm
    obtain ⟨ei, hei, hdel⟩ := hm
    exact ⟨ei, (lookup_insert_ne hne).trans hei, hdel⟩

theorem marked_markDelete (hlive : s.live id = some ei)
    (hnone : (s.markDelete id now removed).live id = none) :
    isTinyExtent id = false ∧ (s.markDelete id now removed).Marked id := by
  obtain he | ⟨ei, -, hn, -, he⟩ := markDelete_cases s id now removed
  · rw [he, hlive] at hnone
    cases hnone
  · rw [he]
    exact ⟨hn, _, lookup_insert .., rfl⟩

theorem Marked.autoComputeExtentCrc (hm : s.Marked id) (now : Int64) :
    (s.autoComputeExtentCrc now).Marked id ∨
      ∃ ei ∈ s.extentInfoMap.entries, expired now ei.2 = true ∧ ei.1 = id := by
  obtain ⟨ei, hei, hdel⟩ := hm
  cases hexp : expired now ei with
  | true => exact .inr ⟨⟨id, ei⟩, of_mem_dlookup hei, hexp, rfl⟩
  | false =>
    refine .inl ⟨ei, ?_, hdel⟩
    rw [lookup_autoComputeExtentCrc, hei]
    exact filter_eq_some_iff.mpr ⟨rfl, by simp [hexp]⟩

theorem live_of_mem_getAllWatermarks {info : ExtentInfo} (h : info ∈ s.getAllWatermarks now) :
    isTinyExtent info.fileID = false ∧ ∃ ei, s.live info.fileID = some ei := by
  obtain ⟨ei, hei, rfl⟩ := mem_map.mp h
  obtain ⟨hmem, hfilter⟩ := mem_filter.mp hei
  obtain ⟨⟨⟨htiny, -⟩, hdel⟩, -⟩ := by
    simpa only [normalExtentFilter, Bool.and_eq_true, Bool.not_eq_true'] using hfilter
  have hlookup := mem_dlookup s.extentInfoMap.nodupKeys hmem
  exact ⟨htiny, ei.2, filter_eq_some_iff.mpr ⟨hlookup, by simp [hdel]⟩⟩

end ExtentStore

namespace RepairCluster

variable {n : Nat} {s s' : RepairCluster n} {i : Fin n} {id : UInt64} {st : ExtentStore}
  {o : CreateOutcome} {now : Int64}

structure Remembers (s : RepairCluster n) : Prop where
  held : ∀ i, (s.stores i).Held
  normal : ∀ d ∈ s.deleted, isTinyExtent d.2 = false
  marked : ∀ d ∈ s.deleted, (s.stores d.1).Marked d.2 ∨ s.Gone d.2
  unrevived : s.revived = []

theorem Gone.setStore (h : s.Gone id) (hst : st.files.lookup id = none) :
    (s.setStore i st).Gone id := by
  refine ⟨fun j => ?_, h.2⟩
  dsimp only [RepairCluster.setStore]
  by_cases hj : j = i
  · subst hj
    rw [update_self]
    exact hst
  · rw [update_of_ne hj]
    exact h.1 j

section

variable (h : s.Remembers)
include h

theorem Remembers.setStore (hheld : (s.stores i).Held → st.Held)
    (hmarked : ∀ id, (i, id) ∈ s.deleted → (s.stores i).Marked id → st.Marked id ∨ s.Gone id)
    (hfile : ∀ d ∈ s.deleted, s.Gone d.2 → st.files.lookup d.2 = none) :
    (s.setStore i st).Remembers := by
  refine ⟨fun j => ?_, h.normal, fun d hd => ?_, h.unrevived⟩
  · dsimp only [RepairCluster.setStore]
    by_cases hj : j = i
    · subst hj
      rw [update_self]
      exact hheld (h.held j)
    · rw [update_of_ne hj]
      exact h.held j
  · have hgone : s.Gone d.2 → (s.setStore i st).Gone d.2 := fun hg => hg.setStore (hfile d hd hg)
    obtain hm | hg := h.marked d hd
    · dsimp only [RepairCluster.setStore]
      by_cases hj : d.1 = i
      · subst hj
        rw [update_self]
        exact (hmarked d.2 hd hm).imp_right hgone
      · rw [update_of_ne hj]
        exact .inl hm
    · exact .inr (hgone hg)

theorem Remembers.messages {rounds : List (List (List ExtentInfo))}
    {toBeCreated : List (Fin n × UInt64)} (hgone : ∀ d ∈ s.deleted, s.Gone d.2 →
      (∀ round ∈ rounds, ∀ infos ∈ round, ∀ info ∈ infos, info.fileID ≠ d.2) ∧
        ∀ task ∈ toBeCreated, task.2 ≠ d.2) : { s with
      rounds := rounds, toBeCreated := toBeCreated : RepairCluster n }.Remembers :=
  { h with marked := fun d hd => (h.marked d hd).imp_right fun hg => ⟨hg.1, hgone d hd hg⟩ }

theorem Remembers.create (hfirst : ∀ d ∈ s.deleted, s.Gone d.2 → d.2 ≠ id)
    (hc : (s.stores i).create id now o = some st) : (s.setStore i st).Remembers :=
  h.setStore (fun hs => hs.create hc) (fun _ _ hm => .inl (hm.create hc)) fun d hd hg => by
    rw [(lookup_create hc (hfirst d hd hg)).2]
    exact hg.1 i

theorem remembers_markDelete (i : Fin n) (id : UInt64) (now : Int64) (removed : Bool) :
    ((s.setStore i ((s.stores i).markDelete id now removed)).Remembers) ∧
      ∀ d ∈ (if ((s.stores i).live id).isSome &&
          (((s.stores i).markDelete id now removed).live id).isNone
        then (i, id) :: s.deleted else s.deleted),
        d ∈ s.deleted ∨ d = (i, id) ∧ isTinyExtent id = false ∧
          ((s.stores i).markDelete id now removed).Marked id := by
  refine ⟨h.setStore Held.markDelete (fun _ _ hm => .inl hm.markDelete)
    (fun d _ hg => lookup_files_markDelete (hg.1 i)), fun d hd => ?_⟩
  split at hd
  next hmarked =>
    obtain ⟨hlive, hnone⟩ := Bool.and_eq_true_iff.mp hmarked
    obtain ⟨ei, hlive⟩ := isSome_iff_exists.mp hlive
    obtain rfl | hd := mem_cons.mp hd
    · exact .inr ⟨rfl, marked_markDelete hlive (isNone_iff_eq_none.mp hnone)⟩
    · exact .inl hd
  · exact .inl hd

theorem Remembers.doRepair (htask : (i, id) ∈ s.toBeCreated) :
    (s.doRepair i id now o).Remembers := by
  unfold RepairCluster.doRepair
  split
  · exact h
  rename_i st hc
  have hnew := h.create (fun d _ hg => (hg.2.2 _ htask).symm) hc
  have hfresh : (i, id) ∉ s.deleted := by
    intro hd
    obtain ⟨ei, hei, -⟩ := (h.marked _ hd).resolve_right fun hg => hg.2.2 _ htask rfl
    cases hei.symm.trans (create_eq_some hc).1
  rw [if_neg hfresh]
  exact hnew

end

theorem toBeCreated_doRepair (s : RepairCluster n) (i : Fin n) (id : UInt64) (now : Int64)
    (o : CreateOutcome) : (s.doRepair i id now o).toBeCreated = s.toBeCreated := by
  unfold RepairCluster.doRepair
  split <;> rfl

theorem remembers_step {e : RepairClusterEvent n} (h : s.Remembers) (he : s.DeletedFirst e)
    (hs : s.step e = some s') : s'.Remembers := by
  cases e with
  | create i id now o =>
    obtain ⟨st, hc, rfl⟩ := map_eq_some_iff.mp hs
    refine h.create (fun d hd _ heq => he d.1 ?_) hc
    rw [← heq]
    exact hd
  | write i id offset size isUpdateSize now =>
    obtain ⟨st, hw, rfl⟩ := map_eq_some_iff.mp hs
    exact h.setStore (fun hh => hh.write hw) (fun _ _ hm => .inl (hm.write hw))
      fun d _ hg => lookup_files_write hw (hg.1 i)
  | markDelete i id now removed =>
    cases hs
    obtain ⟨hnew, hdeleted⟩ := remembers_markDelete h i id now removed
    refine ⟨hnew.held, fun d hd => ?_, fun d hd => ?_, hnew.unrevived⟩
    · obtain hd | ⟨rfl, hn, -⟩ := hdeleted d hd
      · exact h.normal d hd
      · exact hn
    · obtain hd | ⟨rfl, -, hm⟩ := hdeleted d hd
      · exact hnew.marked d hd
      · refine .inl ?_
        dsimp only [RepairCluster.setStore]
        rw [update_self]
        exact hm
  | autoComputeExtentCrc i now =>
    cases hs
    refine h.setStore Held.autoComputeExtentCrc (fun id _ hm => ?_) fun d _ hg => hg.1 i
    obtain hm | ⟨ei, hei, hexp, rfl⟩ := hm.autoComputeExtentCrc now
    · exact .inl hm
    · exact .inr (he ei hei hexp)
  | restart i now =>
    cases hs
    refine h.setStore (fun _ => held_restart _ now) (fun id _ hm => ?_) fun d hd hg => ?_
    · obtain ⟨ei, hei, hdel⟩ := hm
      exact .inr (he ⟨id, ei⟩ (of_mem_dlookup hei) hdel)
    · rw [(sameNormal_restart _ now).file d.2 (h.normal d hd)]
      exact hg.1 i
  | startRound =>
    cases hs
    refine h.messages fun d _ hg => ⟨fun round hround => ?_, hg.2.2⟩
    obtain rfl | hround := mem_cons.mp hround
    · intro infos hinfos
      cases hinfos
    · exact hg.2.1 round hround
  | collect k now =>
    dsimp only [step] at hs
    split at hs
    · cases hs
    rename_i round hk
    split at hs
    next hlt =>
      cases hs
      refine h.messages fun d _ hg => ⟨fun r hr infos hinfos info hinfo heq => ?_, hg.2.2⟩
      obtain hr | rfl := mem_or_eq_of_mem_set hr
      · exact hg.2.1 r hr infos hinfos info hinfo heq
      obtain hinfos | hinfos := mem_append.mp hinfos
      · exact hg.2.1 round (mem_of_getElem? hk) infos hinfos info hinfo heq
      -- what the replica reports has a file
      · obtain rfl := mem_singleton.mp hinfos
        obtain ⟨hn, ei, hlive⟩ := live_of_mem_getAllWatermarks hinfo
        exact h.held _ info.fileID ei hn hlive (heq ▸ hg.1 _)
    · cases hs
  | build k =>
    dsimp only [step] at hs
    split at hs
    · cases hs
    rename_i round hk
    split at hs
    · cases hs
      have hround := mem_of_getElem? hk
      refine h.messages fun d _ hg => ⟨fun r hr => hg.2.1 r (mem_of_mem_eraseIdx hr), ?_⟩
      intro task htask
      obtain htask | htask := mem_append.mp htask
      · exact hg.2.2 task htask
      · obtain ⟨infos, hinfos, info, hinfo, heq⟩ := reported_of_mem_creation htask
        exact heq ▸ hg.2.1 round hround infos hinfos info hinfo
    · cases hs
  | giveUp k =>
    cases hs
    exact h.messages fun d _ hg => ⟨fun r hr => hg.2.1 r (mem_of_mem_eraseIdx hr), hg.2.2⟩
  | repair k now o =>
    dsimp only [step] at hs
    split at hs
    · cases hs
    rename_i i id hk
    cases hs
    have hmem : ∀ task ∈ s.toBeCreated.eraseIdx k, task ∈ (s.doRepair i id now o).toBeCreated := by
      intro task htask
      rw [toBeCreated_doRepair]
      exact mem_of_mem_eraseIdx htask
    exact (h.doRepair (mem_of_getElem? hk)).messages fun d _ hg =>
      ⟨hg.2.1, fun task htask => hg.2.2 task (hmem task htask)⟩
  | lose k =>
    cases hs
    exact h.messages fun d _ hg =>
      ⟨hg.2.1, fun task htask => hg.2.2 task (mem_of_mem_eraseIdx htask)⟩

theorem remembers_new (n : Nat) (now : Int64) : (new n now).Remembers := by
  refine ⟨fun i id ei hn hlive => ?_, nofun, nofun, rfl⟩
  obtain ⟨hlookup, -⟩ := live_eq_some hlive
  have hsame := sameNormal_initTinyExtent (initBaseFileID none ∅) now
  dsimp only [new, newExtentStore] at hlookup
  rw [hsame.lookup id hn] at hlookup
  cases hlookup

/-- Repairs create nothing that the replica had deleted. -/
theorem repair_never_revives {now : Int64} (hr : Reach step DeletedFirst (new n now) s) :
    s.revived = [] :=
  (hr.invariant (remembers_new n now) fun _ _ _ h he hs => remembers_step h he hs).unrevived

/-- Two replicas have deleted an extent and forget about it before the next round of repair, which
creates another extent that the first replica is missing. -/
theorem repair_never_revives_two : ∃ s : RepairCluster 2, Reach step DeletedFirst (new 2 0) s ∧
      s.deleted = [(1, 1025), (0, 1025)] ∧ ((s.stores 0).live 1026).isSome = true ∧
      s.revived = [] := by
  obtain ⟨s, hr, hp⟩ := Reach.exists_checked step DeletedFirst (new 2 0)
    [.create 0 1025 0 ⟨true, true⟩, .create 1 1025 0 ⟨true, true⟩, .write 1 1025 0 4096 true 10,
      .create 1 1026 0 ⟨true, true⟩, .write 1 1026 0 4096 true 10, .markDelete 0 1025 20 true,
      .markDelete 1 1025 30 true, .restart 0 700, .autoComputeExtentCrc 1 700, .startRound,
      .collect 0 710, .collect 0 720, .build 0, .repair 0 730 ⟨true, true⟩]
    (fun s => decide (s.deleted = [(1, 1025), (0, 1025)]) && ((s.stores 0).live 1026).isSome)
    (by decide +kernel)
  obtain ⟨hdeleted, hlive⟩ := Bool.and_eq_true_iff.mp hp
  exact ⟨s, hr, of_decide_eq_true hdeleted, hlive, repair_never_revives hr⟩

/-- The first replica deletes an extent and is restarted. The other has not deleted it yet, and the
next round creates it again. -/
theorem repair_revives : ∃ s : RepairCluster 2, Reach step (fun _ _ => True) (new 2 0) s ∧
      s.revived = [(0, 1025)] := by
  obtain ⟨s, hr, hp⟩ := Reach.exists_checked step (fun _ _ => True) (new 2 0)
    [.create 0 1025 0 ⟨true, true⟩, .create 1 1025 0 ⟨true, true⟩, .write 1 1025 0 4096 true 10,
      .markDelete 0 1025 20 true, .restart 0 700, .startRound, .collect 0 710, .collect 0 720,
      .build 0, .repair 0 730 ⟨true, true⟩]
    (fun s => decide (s.revived = [(0, 1025)])) (by decide +kernel)
  exact ⟨s, hr, of_decide_eq_true hp⟩

end RepairCluster
end ChubaoFS
