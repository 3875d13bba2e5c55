import ChubaoFS.MasterMemory

namespace ChubaoFS.Master

open List

/-! The check of the checksums that the replicas of an extent report. -/

structure FileMetadata where
  crc : UInt32
  locAddr : Text
  deriving DecidableEq

structure FileCrc where
  crc : UInt32
  count : Nat
  -- `meta`
  metadata : FileMetadata

/-- `sort.Sort` of a `fileCrcSorter`. It need not be stable. -/
structure FileCrcSorter where
  sort : List FileCrc → List FileCrc
  perm : ∀ fileCrcArr, (sort fileCrcArr).Perm fileCrcArr
  sorted : ∀ fileCrcArr, (sort fileCrcArr).Pairwise (·.count ≤ ·.count)

/-- Replicas as `addReplica` lets them be. -/
structure ReplicaList where
  replicas : List DataReplica
  distinct : (replicas.map DataReplica.addr).Nodup

inductive ExtentWarning
  | manyMissing
  | missingReplica
  | allDifferent
  | badCrc (addr : Text)

def emptyCrcValue : UInt32 := 4045511210
def defaultIntervalToCheckCrc : Int64 := 1200
def intervalToCheckMissingReplica : Int64 := 600

def FileMetadata.Empty (fm : FileMetadata) : Prop := fm.crc = emptyCrcValue ∨ fm.crc = 0

instance (fm : FileMetadata) : Decidable fm.Empty := inferInstanceAs (Decidable (_ ∨ _))

/-- The second loop of `needCrcRepair`. -/
def differs (baseCrc : UInt32) : List FileMetadata → Bool
  | [] => false
  | fm :: fms => if fm.Empty then false else if fm.crc ≠ baseCrc then true else differs baseCrc fms

def needRepair : List FileMetadata → Bool
  | [] => false
  | fm :: fms => differs fm.crc (fm :: fms)

def addCrc (fm : FileMetadata) : List FileCrc → List FileCrc
  | [] => [⟨fm.crc, 1, fm⟩]
  | c :: cs => if c.crc = fm.crc then { c with count := c.count + 1 } :: cs else c :: addCrc fm cs

def calculateCrc (badVfNodes : List FileMetadata) : List FileCrc :=
  badVfNodes.foldl (fun fileCrcArr fm => addCrc fm fileCrcArr) []

/-- The end of `checkExtentFile`. -/
def compareCrcs (s : FileCrcSorter) (fms : List FileMetadata) : List ExtentWarning :=
  let fileCrcArr := s.sort (calculateCrc fms)
  match fileCrcArr.getLast? with
  | none => []
  | some c =>
    if c.count = 1 then [.allDifferent]
    else fileCrcArr.dropLast.map fun c => .badCrc c.metadata.locAddr

structure FileInCore where
  name : Text
  lastModify : Int64
  metadataArray : List FileMetadata

namespace FileInCore

def getFileMetaByAddr (fc : FileInCore) (replica : DataReplica) : Option FileMetadata :=
  fc.metadataArray.find? (·.locAddr = replica.addr)

/-- The first loop of `needCrcRepair`. -/
def metas (fc : FileInCore) (liveVols : List DataReplica) : List FileMetadata :=
  liveVols.filterMap fc.getFileMetaByAddr

def needCrcRepair (fc : FileInCore) (liveVols : List DataReplica) : List FileMetadata × Bool :=
  (fc.metas liveVols, needRepair (fc.metas liveVols))

/-- The check before the checksums are compared: the files that are known to miss a replica, the
warnings, and whether it goes on. -/
def checkReplicas (fc : FileInCore) (now : Int64) (missing : Map Text Int64) (found live : Nat) :
    Map Text Int64 × List ExtentWarning × Bool :=
  if now - fc.lastModify ≤ defaultIntervalToCheckCrc then (missing, [], false)
  else if found < live ∧ intervalToCheckMissingReplica < now - fc.lastModify then
    if 400 < missing.keys.length then (missing, [.manyMissing], false)
    else
      match missing.lookup fc.name with
      | none => (missing.insert fc.name now, [], false)
      | some lastReportTime =>
        if now - lastReportTime < intervalToCheckMissingReplica then (missing, [], false)
        else (missing, [.missingReplica], true)
  else (missing, [], true)

def checkExtentFile (fc : FileInCore) (s : FileCrcSorter) (now : Int64) (missing : Map Text Int64)
    (liveReplicas : List DataReplica) : Map Text Int64 × List ExtentWarning :=
  let (fms, repair) := fc.needCrcRepair liveReplicas
  let (missing, warnings, go) := fc.checkReplicas now missing fms.length liveReplicas.length
  (missing, warnings ++ bif go && repair then compareCrcs s fms else [])

end FileInCore

/-! The verdict. -/

variable {fms fms' : List FileMetadata} {arr : List FileCrc} {crc : UInt32} {a b : FileMetadata}

/-- Every checksum is there, or those that are there agree. -/
def Settled (fms : List FileMetadata) : Prop :=
  ∀ a ∈ fms, a.Empty → ∀ b ∈ fms, ¬ b.Empty → ∀ c ∈ fms, ¬ c.Empty → b.crc = c.crc

theorem differs_iff (h : (∀ a ∈ fms, ¬ a.Empty) ∨ ∀ a ∈ fms, ¬ a.Empty → a.crc = crc) :
    differs crc fms = true ↔ (∀ a ∈ fms, ¬ a.Empty) ∧ ∃ a ∈ fms, a.crc ≠ crc := by
  induction fms with
  | nil => simp [differs]
  | cons fm fms ih =>
    have ih := ih (h.imp (fun h a ha => h a (.tail _ ha)) fun h a ha => h a (.tail _ ha))
    grind [differs]

theorem needRepair_iff (h : Settled fms) : needRepair fms = true ↔
    (∀ a ∈ fms, ¬ a.Empty) ∧ ∃ a ∈ fms, ∃ b ∈ fms, a.crc ≠ b.crc := by
  cases fms with
  | nil => simp [needRepair]
  | cons fm fms =>
    by_cases hfm : fm.Empty
    · simp [needRepair, differs, hfm]
    · rw [needRepair, differs_iff]
      · grind
      · grind [Settled]

/-! What is reported. -/

/-- The replicas with the checksum. -/
def group (fms : List FileMetadata) (crc : UInt32) : List FileMetadata := fms.filter (·.crc = crc)

theorem mem_group : a ∈ group fms crc ↔ a ∈ fms ∧ a.crc = crc := by simp [group]

def FileCrc.ofGroup (crc : UInt32) : List FileMetadata → List FileCrc
  | [] => []
  | fm :: fms => [⟨crc, fms.length + 1, fm⟩]

theorem filter_addCrc (fm : FileMetadata) (arr : List FileCrc) (crc : UInt32) :
    (addCrc fm arr).filter (·.crc = crc) = if fm.crc = crc then addCrc fm (arr.filter (·.crc = crc))
      else arr.filter (·.crc = crc) := by
  induction arr with
  | nil => by_cases h : fm.crc = crc <;> simp [addCrc, h]
  | cons c arr ih =>
    by_cases hc : c.crc = fm.crc <;> by_cases hk : fm.crc = crc
    · simp [addCrc, hc, hk]
    · simp [addCrc, hc, hk]
    · have hck : c.crc ≠ crc := fun e => hc (e.trans hk.symm)
      simp [addCrc, hck, hk, ih]
    · simp [addCrc, hc, filter_cons, hk, ih]

/-- There is one element for each checksum, with the first of its replicas and their number. -/
theorem filter_calculateCrc (fms : List FileMetadata) (crc : UInt32) :
    (calculateCrc fms).filter (·.crc = crc) = FileCrc.ofGroup crc (group fms crc) := by
  rw [← fms.reverse_reverse]
  induction fms.reverse with
  | nil => rfl
  | cons fm fms ih =>
    rw [reverse_cons, calculateCrc, foldl_append, group, filter_append]
    refine (filter_addCrc ..).trans ?_
    change (if _ then addCrc fm ((calculateCrc _).filter _) else (calculateCrc _).filter _) = _
    rw [ih, ← group]
    by_cases h : fm.crc = crc
    · cases group fms.reverse crc <;> simp [FileCrc.ofGroup, addCrc, h]
    · simp [h]

theorem mem_calculateCrc_iff {c : FileCrc} : c ∈ calculateCrc fms ↔
    ∃ rest, group fms c.crc = c.metadata :: rest ∧ c.count = rest.length + 1 := by
  have h : c ∈ calculateCrc fms ↔ c ∈ FileCrc.ofGroup c.crc (group fms c.crc) := by
    rw [← filter_calculateCrc]
    simp
  rw [h]
  cases c
  cases hg : group fms _ with
  | nil => simp [FileCrc.ofGroup]
  | cons fm rest => simp [FileCrc.ofGroup, eq_comm, and_comm]

/-- Of every checksum but one of the most frequent ones the first replica is reported. -/
theorem exists_top (s : FileCrcSorter) (fms : List FileMetadata) : ∃ top,
    (∀ crc, (group fms crc).length ≤ (group fms top).length) ∧
    ∀ addr, .badCrc addr ∈ compareCrcs s fms ↔ 1 < (group fms top).length ∧
      ∃ a, (group fms a.crc).head? = some a ∧ a.crc ≠ top ∧ a.locAddr = addr := by
  have hperm := s.perm (calculateCrc fms)
  have hsorted := s.sorted (calculateCrc fms)
  have hmem {c : FileCrc} : c ∈ s.sort (calculateCrc fms) ↔ _ :=
    hperm.mem_iff.trans mem_calculateCrc_iff
  have hgroup {crc : UInt32} {fm : FileMetadata} {rest : List FileMetadata}
      (h : group fms crc = fm :: rest) : ⟨crc, rest.length + 1, fm⟩ ∈ s.sort (calculateCrc fms) :=
    hmem.mpr ⟨rest, h, rfl⟩
  rcases (s.sort (calculateCrc fms)).eq_nil_or_concat with hnil | ⟨init, top, hl⟩
  · have hnone (crc : UInt32) : group fms crc = [] := by
      cases hg : group fms crc with
      | nil => rfl
      | cons fm rest => simpa [hnil] using hgroup hg
    exact ⟨0, by simp [hnone], by simp [compareCrcs, hnil, hnone]⟩
  · rw [concat_eq_append] at hl
    rw [hl] at hperm hsorted hmem hgroup
    rw [pairwise_append] at hsorted
    obtain ⟨rest, hrest, hcount⟩ := hmem.mp (mem_append_right init (mem_singleton_self top))
    have hother : ∀ c ∈ init, c.crc ≠ top.crc := by
      have hone := (hperm.filter (·.crc = top.crc)).length_eq
      rw [filter_calculateCrc, hrest] at hone
      simpa [FileCrc.ofGroup] using hone
    refine ⟨top.crc, fun crc => ?_, fun addr => ?_⟩
    · cases hg : group fms crc with
      | nil => exact Nat.zero_le _
      | cons fm rest' =>
        rw [hrest, length_cons, length_cons, ← hcount]
        rcases mem_append.mp (hgroup hg) with hinit | hlast
        · exact hsorted.2.2 _ hinit top (mem_singleton_self top)
        · exact (mem_singleton.mp hlast) ▸ Nat.le_refl _
    · by_cases h1 : top.count = 1
      · simp [compareCrcs, hl, h1, hrest, show rest = [] by simpa [h1] using hcount]
      · have hlt : 1 < (group fms top.crc).length := by
          rw [hrest, length_cons]
          omega
        simp only [compareCrcs, hl, getLast?_concat, h1, if_false, dropLast_concat,
          mem_map, ExtentWarning.badCrc.injEq, hlt, true_and]
        constructor
        · rintro ⟨c, hc, rfl⟩
          obtain ⟨rest', hrest', -⟩ := hmem.mp (mem_append_left [top] hc)
          have hcrc : c.metadata.crc = c.crc := (mem_group.mp (hrest' ▸ mem_cons_self)).2
          exact ⟨c.metadata, by rw [hcrc, hrest', head?_cons], hcrc ▸ hother c hc, rfl⟩
        · rintro ⟨a, ha, hne, rfl⟩
          obtain ⟨rest', hrest'⟩ := head?_eq_some_iff.mp ha
          rcases mem_append.mp (hgroup hrest') with hinit | hlast
          · exact ⟨_, hinit, rfl⟩
          · exact absurd (mem_singleton.mp hlast ▸ rfl) hne

/-- Several replicas have one checksum at most. -/
def OneShared (fms : List FileMetadata) : Prop :=
  ∀ crc crc', 1 < (group fms crc).length → 1 < (group fms crc').length → crc = crc'

theorem badCrc_of_perm {s : FileCrcSorter} {addr : Text} (hone : OneShared fms)
    (hp : fms'.Perm fms) (h : .badCrc addr ∈ compareCrcs s fms) :
    .badCrc addr ∈ compareCrcs s fms' := by
  obtain ⟨top, -, hbad⟩ := exists_top s fms
  obtain ⟨top', hmax', hbad'⟩ := exists_top s fms'
  obtain ⟨htop, a, ha, hne, rfl⟩ := (hbad addr).mp h
  have hgroup (crc : UInt32) : (group fms' crc).Perm (group fms crc) := hp.filter _
  have htop' : 1 < (group fms' top').length :=
    Nat.lt_of_lt_of_le ((hgroup top).length_eq ▸ htop) (hmax' top)
  obtain rfl := hone _ _ htop ((hgroup top').length_eq ▸ htop')
  refine (hbad' _).mpr ⟨htop', a, ?_, hne, rfl⟩
  -- the only replica of its checksum is the first one in every order
  obtain ⟨rest, hrest⟩ := head?_eq_some_iff.mp ha
  cases rest with
  | nil =>
    have hall := hgroup a.crc
    rw [hrest] at hall
    rw [perm_singleton.mp hall, head?_cons]
  | cons b rest => exact absurd (hone _ _ (by simp [hrest]) htop) hne

namespace FileInCore

variable {fc : FileInCore} {s : FileCrcSorter} {now : Int64} {missing : Map Text Int64}
  {live : List DataReplica} {addr : Text}

/-- The checksums are compared. -/
def Compares (fc : FileInCore) (now : Int64) (missing : Map Text Int64) (live : List DataReplica) :
    Prop :=
  (fc.checkReplicas now missing (fc.metas live).length live.length).2.2 = true

theorem badCrc_checkExtentFile_iff : .badCrc addr ∈ (fc.checkExtentFile s now missing live).2 ↔
    fc.Compares now missing live ∧ needRepair (fc.metas live) = true ∧
      .badCrc addr ∈ compareCrcs s (fc.metas live) := by
  have hnone : .badCrc addr ∉
      (fc.checkReplicas now missing (fc.metas live).length live.length).2.1 := by
    unfold checkReplicas
    repeat' split
    all_goals simp
  simp only [checkExtentFile, needCrcRepair, mem_append, hnone, false_or, Compares]
  cases (fc.checkReplicas now missing (fc.metas live).length live.length).2.2 <;>
    cases needRepair (fc.metas live) <;> simp

theorem mem_metas (ha : a ∈ fc.metas live) : ∃ r ∈ live, fc.getFileMetaByAddr r = some a ∧
    a.locAddr = r.addr ∧ fc.metadataArray.find? (·.locAddr = a.locAddr) = some a := by
  obtain ⟨r, hr, hra⟩ := mem_filterMap.mp ha
  have haddr : a.locAddr = r.addr := by simpa using find?_some hra
  exact ⟨r, hr, hra, haddr, haddr ▸ hra⟩

theorem exists_order (ha : a ∈ fc.metas live) (hb : b ∈ fc.metas live) (hne : a ≠ b) :
    ∃ live' fms, live'.Perm live ∧ fc.metas live' = a :: b :: fms := by
  obtain ⟨r, hr, hra, -⟩ := mem_metas ha
  obtain ⟨q, hq, hqb, -⟩ := mem_metas hb
  have hqr : q ≠ r := by
    rintro rfl
    exact hne (Option.some.inj (hra.symm.trans hqb))
  have hp := (perm_cons_erase hr).trans
    ((perm_cons_erase ((mem_erase_of_ne hqr).mpr hq)).cons r)
  exact ⟨_, ((live.erase r).erase q).filterMap fc.getFileMetaByAddr, hp.symm,
    by simp [metas, hra, hqb]⟩

theorem nodup_metas (fc : FileInCore) (live : ReplicaList) : (fc.metas live.replicas).Nodup := by
  refine (pairwise_map.mp live.distinct).filterMap _ ?_
  rintro r q hne a hr _ hq rfl
  have hra : a.locAddr = r.addr := by simpa using find?_some hr
  have hqa : a.locAddr = q.addr := by simpa using find?_some hq
  exact hne (hra.symm.trans hqa)

theorem settled_of_order (h : ∀ live', live'.Perm live →
      needRepair (fc.metas live') = needRepair (fc.metas live)) : Settled (fc.metas live) := by
  intro a ha hempty b hb hbf c hc hcf
  by_contra hne
  obtain ⟨o, fms, ho, hfms⟩ := exists_order ha hb (fun e => hbf (e ▸ hempty))
  obtain ⟨p, fms', hp, hfms'⟩ := exists_order hb hc (fun e => hne (e ▸ rfl))
  have hsame := (h o ho).trans (h p hp).symm
  rw [hfms, hfms'] at hsame
  simp [needRepair, differs, hempty, hbf, hcf, Ne.symm hne] at hsame

/-- With another replica of a shared checksum in front, that one would be reported for it. -/
theorem oneShared_of_order {live : ReplicaList} (h : ∀ live', live'.Perm live.replicas →
      ∀ addr, .badCrc addr ∈ compareCrcs s (fc.metas live.replicas) →
        .badCrc addr ∈ compareCrcs s (fc.metas live')) : OneShared (fc.metas live.replicas) := by
  obtain ⟨top, hmax, hbad⟩ := exists_top s (fc.metas live.replicas)
  suffices htop : ∀ crc, 1 < (group (fc.metas live.replicas) crc).length → crc = top from
    fun crc crc' hcrc hcrc' => (htop crc hcrc).trans (htop crc' hcrc').symm
  intro crc hcrc
  by_contra hne
  rcases hg : group (fc.metas live.replicas) crc with _ | ⟨x, _ | ⟨y, rest⟩⟩
  · simp [hg] at hcrc
  · simp [hg] at hcrc
  have hnodup : (x :: y :: rest).Nodup := hg ▸ (fc.nodup_metas live).filter _
  have hyx : y ≠ x := by
    rintro rfl
    simp at hnodup
  obtain ⟨hx, rfl⟩ := mem_group.mp (hg ▸ mem_cons_self)
  obtain ⟨hy, hyc⟩ := mem_group.mp (hg ▸ mem_cons_of_mem x mem_cons_self)
  have hreport := (hbad x.locAddr).mpr
    ⟨Nat.lt_of_lt_of_le hcrc (hmax _), x, by rw [hg, head?_cons], hne, rfl⟩
  obtain ⟨o, fms, ho, hfms⟩ := exists_order hy hx hyx
  obtain ⟨top', -, hbad'⟩ := exists_top s (fc.metas o)
  obtain ⟨-, x', hx', -, haddr⟩ := (hbad' _).mp (h o ho _ hreport)
  have hmem' := (mem_group.mp (mem_of_head? hx')).1
  obtain ⟨-, -, -, -, hfind⟩ := mem_metas hx
  obtain ⟨-, -, -, -, hfind'⟩ := mem_metas hmem'
  obtain rfl : x = x' := Option.some.inj (hfind.symm.trans (haddr ▸ hfind'))
  rw [hfms, group, filter_cons_of_pos (by simpa using hyc), head?_cons] at hx'
  exact hyx (Option.some.inj hx')

/-- The verdict and the reported replicas are the same in every order of the replicas just when no
checksum is missing beside two that differ, and, where they are compared, no two checksums have
several replicas each. -/
theorem order_irrelevant_iff (fc : FileInCore) (s : FileCrcSorter) (now : Int64)
    (missing : Map Text Int64) (live : ReplicaList) :
    (∀ live', live'.Perm live.replicas →
      (fc.needCrcRepair live').2 = (fc.needCrcRepair live.replicas).2 ∧
      ∀ addr, .badCrc addr ∈ (fc.checkExtentFile s now missing live').2 ↔
        .badCrc addr ∈ (fc.checkExtentFile s now missing live.replicas).2) ↔
    Settled (fc.metas live.replicas) ∧ (fc.Compares now missing live.replicas →
      (∀ fm ∈ fc.metas live.replicas, ¬ fm.Empty) → OneShared (fc.metas live.replicas)) := by
  simp only [badCrc_checkExtentFile_iff]
  constructor
  · intro h
    have hset := settled_of_order fun o ho => (h o ho).1
    refine ⟨hset, fun hgo hfull => ?_⟩
    by_cases hrepair : needRepair (fc.metas live.replicas) = true
    · exact oneShared_of_order fun o ho addr hbad =>
        (((h o ho).2 addr).mpr ⟨hgo, hrepair, hbad⟩).2.2
    · intro crc crc' hcrc hcrc'
      obtain ⟨a, ha⟩ := exists_mem_of_length_pos (Nat.zero_lt_of_lt hcrc)
      obtain ⟨b, hb⟩ := exists_mem_of_length_pos (Nat.zero_lt_of_lt hcrc')
      rw [mem_group] at ha hb
      by_contra hne
      exact hrepair ((needRepair_iff hset).mpr
        ⟨hfull, a, ha.1, b, hb.1, fun e => hne (ha.2.symm.trans (e.trans hb.2))⟩)
  · rintro ⟨hset, hone⟩ o ho
    have hp : (fc.metas o).Perm (fc.metas live.replicas) := ho.filterMap _
    have hset' : Settled (fc.metas o) := by simpa only [Settled, hp.mem_iff] using hset
    have hrepair : needRepair (fc.metas o) = needRepair (fc.metas live.replicas) := by
      rw [Bool.eq_iff_iff, needRepair_iff hset, needRepair_iff hset']
      simp only [hp.mem_iff]
    refine ⟨hrepair, fun addr => ?_⟩
    rw [hrepair, Compares, hp.length_eq, ho.length_eq]
    refine and_congr_right fun hgo => and_congr_right fun hneed => ?_
    have hone := hone hgo ((needRepair_iff hset).mp hneed).1
    have hone' : OneShared (fc.metas o) := by
      simpa only [OneShared, group, (hp.filter _).length_eq] using hone
    exact ⟨badCrc_of_perm hone' hp.symm, badCrc_of_perm hone hp⟩

/-- Two checksums that differ, and one that is empty. -/
def mixed : FileInCore := ⟨[], 0, [⟨1, ['a']⟩, ⟨2, ['b']⟩, ⟨0, ['c']⟩]⟩

theorem mixed_verdicts :
    let a : DataReplica := ⟨['a'], [], true, true⟩
    let b : DataReplica := ⟨['b'], [], false, true⟩
    let c : DataReplica := ⟨['c'], [], false, true⟩
    (mixed.needCrcRepair [a, b, c]).2 = true ∧ (mixed.needCrcRepair [c, a, b]).2 = false := by
  decide

end FileInCore
end ChubaoFS.Master
