import ChubaoFS.RenameAlone

namespace ChubaoFS

open OrdTree MetaPartition InodeOf Option Prog Prod
open Namespace (node_setNode node_setNode_self unlinked setNode_setNode)
open Client (dcreate dupdate)
open Volume (afterUnlink)

variable {n : Nat} {mw : MetaWrapper n} {V V' : Volume n} {clock : ℕ → Int64}
  {fault : ℕ → Option Status} {k : InodeCell} {ino : UInt64}

/-- A call that `fault` picks out is answered with a status and has no effect; the calls that take
something back are served. -/
def faulty (clock : ℕ → Int64) (fault : ℕ → Option Status) (i : ℕ) (note : Note) (r : Request n)
    (V : Volume n) : Volume n × Answer r.Body :=
  match note.undo, fault i with
  | false, some status => (V, .refused status)
  | _, _ => V.serve (clock i) r

theorem faulty_undo {i : ℕ} {note : Note} {r : Request n} (h : note.undo = true) :
    faulty clock fault i note r V = V.serve (clock i) r := by
  unfold faulty
  rw [h]

section

variable (clock : ℕ → Int64) (fault : ℕ → Option Status) (i : ℕ)

theorem faulty_cases (note : Note) (r : Request n) (V : Volume n) :
    faulty clock fault i note r V = V.serve (clock i) r ∨
      ∃ status, faulty clock fault i note r V = (V, .refused status) := by
  unfold faulty
  split
  · exact .inr ⟨_, rfl⟩
  · exact .inl rfl

theorem faulty_dcreate (p : Fin n) (parentID : UInt64) (name : Bytes) (inode : UInt64)
    (mode : UInt32) (V : Volume n) :
    (∃ status, faulty clock fault i {} (.dcreate p parentID name inode mode) V =
      (V, .refused status)) ∨
    ∃ k V', V.toNamespace.node p parentID = some k ∧ k.shouldDelete = false ∧
      isDir k.type = true ∧ V.toNamespace.dentryAt? p parentID name = none ∧
      faulty clock fault i {} (.dcreate p parentID name inode mode) V = (V', .ok ()) ∧
      V'.toNamespace = V.toNamespace.withDentry p ⟨parentID, name, inode, mode⟩ k := by
  obtain hserve | hbad := faulty_cases clock fault i {} (.dcreate p parentID name inode mode) V
  · rw [hserve]
    obtain ⟨status, hs, -⟩ | ⟨k, V', -, hk, hd, hdir, hnew, hs, hns, -⟩ :=
      V.serve_dcreate (clock i) p parentID name inode mode
    · exact .inl ⟨status, hs⟩
    · exact .inr ⟨k, V', hk, hd, hdir, hnew, hs, hns⟩
  · exact .inl hbad

theorem faulty_ilink (p : Fin n) (ino : UInt64) (V : Volume n) :
    (∃ status, faulty clock fault i {} (.ilink p ino) V = (V, .refused status)) ∨
    ∃ c V' info, V.toNamespace.node p ino = some c ∧ c.shouldDelete = false ∧
      faulty clock fault i {} (.ilink p ino) V = (V', .ok info) ∧
      V'.toNamespace = V.toNamespace.setNode p ino (some c.incNLink) := by
  obtain hserve | hbad := faulty_cases clock fault i {} (.ilink p ino) V
  · rw [hserve]
    obtain ⟨status, hs, -⟩ | ⟨c, V', info, hc, hd, hs, -, hns, -⟩ := V.serve_ilink (clock i) p ino
    · exact .inl ⟨status, hs⟩
    · exact .inr ⟨c, V', info, hc, hd, hs, hns⟩
  · exact .inl hbad

theorem faulty_dupdate (p : Fin n) (parentID : UInt64) (name : Bytes) (newInode : UInt64)
    (V : Volume n) : (∃ status, faulty clock fault i {} (.dupdate p parentID name newInode) V =
      (V, .refused status)) ∨ ∃ d V', V.toNamespace.dentryAt? p parentID name = some d ∧
      faulty clock fault i {} (.dupdate p parentID name newInode) V = (V', .ok d.inode) ∧
      V'.toNamespace = V.toNamespace.withTarget p d newInode := by
  obtain hserve | hbad := faulty_cases clock fault i {} (.dupdate p parentID name newInode) V
  · rw [hserve]
    obtain ⟨status, hs, -⟩ | ⟨d, V', -, hget, hs, hns, -⟩ :=
      V.serve_dupdate (clock i) p parentID name newInode
    · exact .inl ⟨status, hs⟩
    · exact .inr ⟨d, V', hget, hs, hns⟩
  · exact .inl hbad

theorem faulty_lookup (p : Fin n) (parentID : UInt64) (name : Bytes) (V : Volume n) :
    (∃ status, faulty clock fault i {} (.lookup p parentID name) V = (V, .refused status)) ∨
    ∃ d, V.toNamespace.dentryAt? p parentID name = some d ∧
      faulty clock fault i {} (.lookup p parentID name) V = (V, .ok (d.inode, d.type)) := by
  obtain hserve | hbad := faulty_cases clock fault i {} (.lookup p parentID name) V
  · rw [hserve]
    obtain ⟨-, hs⟩ | ⟨d, hget, hs⟩ := V.serve_lookup (clock i) p parentID name
    · exact .inl ⟨_, hs⟩
    · exact .inr ⟨d, hget, hs⟩
  · exact .inl hbad

end

theorem InodeOf.nLink_incNLink_ne (i : InodeCell) : i.incNLink.nLink ≠ i.nLink := by
  intro h
  have hto := toNat_incNLink_mod (i := i)
  have hlt := i.nLink.toNat_lt
  rw [h] at hto
  omega

namespace Namespace

variable {d : Dentry} {s : Namespace n} {p : Fin n}

theorem withoutDentry_withDentry (hnew : s.dentryAt? p d.parentId d.name = none) :
    (s.withDentry p d k).withoutDentry p d.parentId d.name =
      s.setNode p d.parentId (some (decParent k.incNLink)) := by
  have hback : ((s.dents p).insert d).erase (dentryKey d.parentId d.name) = s.dents p := by
    apply ext_get?
    intro c
    have hkey : d.key = dentryKey d.parentId d.name := rfl
    rw [get?_erase, get?_insert, hkey]
    split
    next hc => rw [hc]; exact hnew.symm
    · rfl
  unfold withoutDentry withDentry
  rw [dents_setNode, dents_setDents_self, node_setNode_self, map_some, hback,
    setDents_setNode, setDents_setDents, setNode_setNode, setDents_eq_self rfl]

theorem dentryAt?_withDentry_self :
    (s.withDentry p d k).dentryAt? p d.parentId d.name = some d := by
  unfold withDentry
  exact (dentryAt?_setDents_insert s p p d d.parentId d.name).trans (if_pos ⟨rfl, rfl, rfl⟩)

theorem withTarget_withTarget (hd : s.dentryAt? p d.parentId d.name = some d) :
    (s.withTarget p d ino).withTarget p { d with inode := ino } d.inode = s := by
  have hback : ((s.dents p).insert { d with inode := ino }).insert d = s.dents p := by
    apply ext_get?
    intro c
    rw [get?_insert, get?_insert]
    have hkey : ({ d with inode := ino } : Dentry).key = d.key := rfl
    have hget : (s.dents p).get? d.key = some d := hd
    rw [hkey]
    split
    next hc => rw [hc, hget]
    · rfl
  unfold withTarget
  rw [dents_setDents_self, setDents_setDents, hback, setDents_eq_self rfl]

end Namespace

/-- A failed operation left nothing behind: the dentries are the same, every inode is there with its
links, and an inode that was not there before has none. -/
structure NoTrace (s s' : Namespace n) : Prop where
  dents : s'.dents = s.dents
  kept : ∀ p x i, s.node p x = some i → ∃ i', s'.node p x = some i' ∧ i'.nLink = i.nLink
  created : ∀ p x i', s.node p x = none → s'.node p x = some i' → i'.nLink = 0

theorem NoTrace.refl (s : Namespace n) : NoTrace s s := by
  refine ⟨rfl, fun p x i hi => ⟨i, hi, rfl⟩, ?_⟩
  intro p x i' hnone hi'
  rw [hnone] at hi'
  cases hi'

variable {s : Namespace n} {Q : (r : Request n) → Answer r.Body → Prop} {p : Fin n}
  {j : Option InodeCell} {parentID old : UInt64} {s' : Namespace n} {info : InodeInfo}
  {new : InodeCell} {target name : Bytes} {err : Errno} {t : Int64}

theorem NoTrace.dentryAt? (h : NoTrace s s') (p : Fin n) (parentID : UInt64) (name : Bytes) :
    s'.dentryAt? p parentID name = s.dentryAt? p parentID name := by
  unfold Namespace.dentryAt?
  rw [h.dents]

def Restorable (i : InodeCell) : Prop :=
  (isDir i.type = true → 3 ≤ i.nLink.toNat) ∧ i.nLink.toNat + 1 < 2 ^ 32

theorem restorable_iff {i : InodeCell} :
    (∃ i', afterUnlink t i.incNLink = some i' ∧ i'.nLink = i.nLink) ↔ Restorable i := by
  unfold Restorable
  by_cases hdir : isDir i.type = true → 2 ≤ i.nLink.toNat
  · rw [afterUnlink_incNLink hdir]
    constructor
    · rintro ⟨hne, hmax⟩
      refine ⟨fun hd => ?_, hmax⟩
      have hge := hdir hd
      have hne2 : i.nLink.toNat ≠ 2 := fun h2 => hne ⟨hd, h2⟩
      omega
    · rintro ⟨hge, hmax⟩
      refine ⟨?_, hmax⟩
      rintro ⟨hd, h2⟩
      have hge' := hge hd
      omega
  obtain ⟨hd, hlt⟩ : isDir i.type = true ∧ i.nLink.toNat < 2 := by
    simpa using hdir
  constructor
  · rintro ⟨i', hi', hsame⟩
    obtain rfl := unlink_of_afterUnlink hi'
    have hinc : i.incNLink.nLink.toNat = i.nLink.toNat + 1 := toNat_incNLink (by omega)
    have hun := toNat_unlink_dir (t := t) (i := i.incNLink) hd
    rw [hinc, if_neg (by omega)] at hun
    rw [← UInt32.toNat_inj, hun] at hsame
    omega
  · rintro ⟨hge, -⟩
    have hge' := hge hd
    omega

theorem noTrace_setNode_iff {t : Namespace n} {i : InodeCell} (hs : s.node p ino = some i)
    (ht : t.node p ino = some i) :
    NoTrace s (t.setNode p ino j) ↔ NoTrace s t ∧ ∃ i', j = some i' ∧ i'.nLink = i.nLink := by
  constructor
  · intro h
    refine ⟨⟨h.dents, ?_, ?_⟩, ?_⟩
    · intro q x k hk
      by_cases hx : q = p ∧ x = ino
      · obtain ⟨rfl, rfl⟩ := hx
        exact ⟨i, ht, congrArg _ (some.inj (hs.symm.trans hk))⟩
      obtain ⟨k', hk', hl⟩ := h.kept q x k hk
      rw [node_setNode, if_neg hx] at hk'
      exact ⟨k', hk', hl⟩
    · intro q x k' hnone hk'
      refine h.created q x k' hnone ?_
      rw [node_setNode, if_neg]
      · exact hk'
      · rintro ⟨rfl, rfl⟩
        rw [hs] at hnone
        cases hnone
    · obtain ⟨i', hi', hl⟩ := h.kept p ino i hs
      rw [node_setNode_self] at hi'
      exact ⟨i', hi', hl⟩
  · rintro ⟨h, i', rfl, hl⟩
    refine ⟨h.dents, ?_, ?_⟩
    · intro q x k hk
      rw [node_setNode]
      split
      next hx =>
        obtain ⟨rfl, rfl⟩ := hx
        obtain rfl : i = k := some.inj (hs.symm.trans hk)
        exact ⟨i', rfl, hl⟩
      · exact h.kept q x k hk
    · intro q x k' hnone hk'
      rw [node_setNode, if_neg] at hk'
      · exact h.created q x k' hnone hk'
      · rintro ⟨rfl, rfl⟩
        rw [hs] at hnone
        cases hnone

theorem noTrace_setNode_new_iff (hnew : s.node p ino = none) :
    NoTrace s (s.setNode p ino j) ↔ ∀ i', j = some i' → i'.nLink = 0 := by
  constructor
  · intro h i' hi'
    refine h.created p ino i' hnew ?_
    rw [node_setNode_self]
    exact hi'
  · intro h
    refine ⟨rfl, ?_, ?_⟩
    · intro q x k hk
      rw [node_setNode, if_neg]
      · exact ⟨k, hk, rfl⟩
      · rintro ⟨rfl, rfl⟩
        rw [hnew] at hk
        cases hk
    · intro q x k' hnone hk'
      rw [node_setNode] at hk'
      split at hk'
      · exact h k' hk'
      · rw [hnone] at hk'
        cases hk'

/-! The answers that decide whether a failed operation can leave a trace. -/

def dcreateExist : (r : Request n) → Answer r.Body → Prop
  | .dcreate .., .refused .exist => True
  | _, _ => False

def dcreateOk : (r : Request n) → Answer r.Body → Prop
  | .dcreate .., .ok _ => True
  | _, _ => False

def dupdateOk : (r : Request n) → Answer r.Body → Prop
  | .dupdate .., .ok _ => True
  | _, _ => False

def ilinkOk : (r : Request n) → Answer r.Body → Prop
  | .ilink .., .ok _ => True
  | _, _ => False

def icreateGave (ino : UInt64) : (r : Request n) → Answer r.Body → Prop
  | .icreate .., .ok info => info.inode = ino
  | _, _ => False

def RenameRestores (x : MetaWrapper.Renaming n) (s : Namespace n) (i : InodeCell)
    (created updated : Prop) : Prop :=
  Restorable i ∧ (created → ∀ k, s.node x.dstParentMP x.dstParentID = some k →
      2 ≤ k.nLink.toNat ∧ k.nLink.toNat + 1 < 2 ^ 32) ∧
    (updated → ∀ d, s.dentryAt? x.dstParentMP x.dstParentID x.dstName = some d →
      d.inode ≠ 0 ∧ d.inode ≠ x.dstParentID)

/-- When a failed operation leaves no trace. `saw Q` says that one of its calls was answered as `Q`
says. A create must not find its name taken, and the new inode must not be its own parent. A link
must not find its name taken or link a directory into itself, and must be able to drop the link. -/
def FailsClean (mw : MetaWrapper n) (s : Namespace n)
    (saw : ((r : Request n) → Answer r.Body → Prop) → Prop) : MetaWrapper.Op n → Prop
  | .create _ _ parentID _ _ _ _ _ => ¬ saw dcreateExist ∧ ¬ saw (icreateGave parentID)
  | .link parentID _ ino => saw ilinkOk → parentID ≠ ino ∧ ¬ saw dcreateExist ∧
      ∀ p i, mw.getPartitionByInode ino = some p → s.node p ino = some i → Restorable i
  | .delete .. => True
  | .rename srcParentID srcName dstParentID dstName => saw ilinkOk → ∀ P Q p d i,
      mw.getPartitionByInode srcParentID = some P → mw.getPartitionByInode dstParentID = some Q →
      s.dentryAt? P srcParentID srcName = some d → mw.getPartitionByInode d.inode = some p →
      s.node p d.inode = some i →
      RenameRestores ⟨P, srcParentID, srcName, Q, dstParentID, dstName, p, d.inode, d.type⟩ s i
        (saw dcreateOk) (saw dupdateOk)

namespace MetaWrapper

open Client

variable {ino : UInt64} {s : Namespace n} {mp : Fin n}

theorem noTrace_discard {V : Volume n} (t t' : Int64)
    (hs : V.toNamespace = s.setNode mp ino (some new)) (hnew : s.node mp ino = none)
    (hd : new.shouldDelete = false) (hl : new.nLink = if isDir new.type then 2 else 1) :
    NoTrace s ((V.serve t (.iunlink mp ino)).1.serve t' (.ievict mp ino)).1.toNamespace := by
  have hnode : V.toNamespace.node mp ino = some new := by rw [hs, node_setNode_self]
  have hun : (V.serve t (.iunlink mp ino)).1.toNamespace =
      s.setNode mp ino (afterUnlink t new) := by
    rw [Volume.toNamespace_serve_iunlink, unlinked, hnode]
    dsimp only
    rw [if_neg (by rw [hd]; decide), hs, setNode_setNode]
  have hzero (i' : InodeCell) (hi' : afterUnlink t new = some i') : i'.nLink = 0 := by
    unfold afterUnlink at hi'
    split at hi'
    · cases hi'
    rename_i hcond
    cases hi'
    cases hdir : isDir new.type with
    | true =>
      have hto := toNat_unlink_dir (t := t) hdir
      rw [hl, hdir] at hto
      exact absurd ⟨hdir, hto⟩ hcond
    | false =>
      have hto := toNat_unlink_file (t := t) hdir
      rw [hl, hdir] at hto
      exact UInt32.toNat_inj.mp hto
  obtain ⟨V₂, hV₂, -, hsame | ⟨i, hi, -, -, hns⟩⟩ :=
    (V.serve t (.iunlink mp ino)).1.serve_ievict t' mp ino
  · rw [hV₂, hsame, hun, noTrace_setNode_new_iff hnew]
    exact hzero
  · rw [hun, node_setNode_self] at hi
    rw [hV₂, hns, hun, setNode_setNode, noTrace_setNode_new_iff hnew]
    intro i' hi'
    cases hi'
    exact hzero i hi

variable {parentID : UInt64} {name : Bytes} {mode : UInt32} {i : ℕ} {e : Errno} {parentMP : Fin n}

theorem createDentryFor_failed (hs : V.toNamespace = s.setNode mp info.inode (some new))
    (hnew : s.node mp info.inode = none) (hd : new.shouldDelete = false)
    (hl : new.nLink = if isDir new.type then 2 else 1)
    (hr : (createDentryFor parentMP mp parentID name mode info).run (faulty clock fault) i V =
      (V', .error e)) : NoTrace s V'.toNamespace ↔
      ¬ (createDentryFor parentMP mp parentID name mode info).Saw (faulty clock fault)
          dcreateExist i V ∧ info.inode ≠ parentID := by
  have hleft : ¬ NoTrace s V.toNamespace := by
    rw [hs, noTrace_setNode_new_iff hnew]
    intro hz
    have hzero := hz new rfl
    rw [hl] at hzero
    split at hzero <;> exact absurd hzero (by decide)
  have hundo := noTrace_discard (clock (i + 1)) (clock (i + 1 + 1)) hs hnew hd hl
  unfold createDentryFor dcreate at hr ⊢
  by_cases hself : parentID = info.inode
  · rw [if_pos hself] at hr
    obtain rfl : V = V' := congrArg fst hr
    simp [hleft, hself]
  rw [if_neg hself] at hr ⊢
  rw [run_call] at hr
  rw [saw_call]
  have hne : info.inode ≠ parentID := Ne.symm hself
  obtain ⟨status, ha⟩ | ⟨k, V₁, -, -, -, -, ha, -⟩ :=
    faulty_dcreate clock fault i parentMP parentID name info.inode mode V
  · rw [ha] at hr ⊢
    by_cases hst : status = .exist
    · subst hst
      obtain rfl : V = V' := congrArg fst hr
      simp [hleft, dcreateExist]
    -- the new inode is unlinked and evicted, and neither call creates a dentry
    cases status with
    | exist => exact absurd rfl hst
    | _ =>
      have hV' : V' = _ := (congrArg fst hr).symm
      refine iff_of_true (by rw [hV']; exact hundo) ⟨?_, hne⟩
      rintro (h | h | h | h) <;> exact h
  · rw [ha] at hr
    cases congrArg snd hr

theorem createDentryFor_no_icreate {x : UInt64} :
    ¬ (createDentryFor parentMP mp parentID name mode info).Saw (faulty clock fault)
      (icreateGave x) i V := by
  unfold createDentryFor dcreate
  split
  · exact not_false
  refine not_saw_call (fun _ => not_false) fun a j V => ?_
  split
  · exact not_false
  · exact not_false
  · exact not_saw_call (fun _ => not_false) fun _ _ _ =>
    not_saw_call (fun _ => not_false) fun _ _ _ => not_false

theorem createInodeIn_failed {uid gid : UInt32} {mps : List (Fin n)} (hs : V.toNamespace = s)
    (hr : (createInodeIn parentMP parentID name mode uid gid target mps).run (faulty clock fault)
      i V = (V', .error e)) : NoTrace s V'.toNamespace ↔
      ¬ (createInodeIn parentMP parentID name mode uid gid target mps).Saw (faulty clock fault)
          dcreateExist i V ∧
        ¬ (createInodeIn parentMP parentID name mode uid gid target mps).Saw (faulty clock fault)
          (icreateGave parentID) i V := by
  induction mps generalizing i V with
  | nil =>
    obtain rfl : V = V' := congrArg fst hr
    rw [hs]
    exact iff_of_true (NoTrace.refl s) ⟨not_false, not_false⟩
  | cons mp mps ih =>
    -- a partition that creates nothing is passed over
    have hskip {V₁ : Volume n} {status : Status} (hns : V₁.toNamespace = s)
        (ha : faulty clock fault i {} (.icreate mp mode uid gid target) V = (V₁, .refused status)) :
        NoTrace s V'.toNamespace ↔
          ¬ (createInodeIn parentMP parentID name mode uid gid target (mp :: mps)).Saw
              (faulty clock fault) dcreateExist i V ∧
            ¬ (createInodeIn parentMP parentID name mode uid gid target (mp :: mps)).Saw
              (faulty clock fault) (icreateGave parentID) i V := by
      unfold createInodeIn at hr ⊢
      rw [run_call, ha] at hr
      rw [saw_call, saw_call, ha]
      simp only [dcreateExist, icreateGave, false_or]
      exact ih hns hr
    obtain hserve | ⟨status, hbad⟩ :=
      faulty_cases clock fault i {} (.icreate mp mode uid gid target) V
    · obtain ⟨V₁, status, ha, hns, -⟩ |
        ⟨V₁, info, new, ha, -, -, hnone, htype, hd, hl, hns, -⟩ :=
        V.serve_icreate (clock i) mp mode uid gid target
      · exact hskip (hns.trans hs) (hserve.trans ha)
      · unfold createInodeIn at hr ⊢
        rw [run_call, hserve, ha] at hr
        rw [saw_call, saw_call, hserve, ha]
        rw [hs] at hnone hns
        rw [← htype] at hl
        simp only [dcreateExist, icreateGave, false_or, createDentryFor_no_icreate, or_false]
        exact createDentryFor_failed hns hnone hd hl hr
    · exact hskip hs hbad

theorem createLl_failed {rwPartitions : List (Fin n)} {epoch : ℕ} {uid gid : UInt32}
    (hr : (mw.createLl rwPartitions epoch parentID name mode uid gid target).run
      (faulty clock fault) 0 V = (V', .error e)) : NoTrace V.toNamespace V'.toNamespace ↔
      ¬ (mw.createLl rwPartitions epoch parentID name mode uid gid target).Saw
          (faulty clock fault) dcreateExist 0 V ∧
        ¬ (mw.createLl rwPartitions epoch parentID name mode uid gid target).Saw
          (faulty clock fault) (icreateGave parentID) 0 V := by
  unfold createLl at hr ⊢
  cases hP : mw.getPartitionByInode parentID with
  | none =>
    rw [hP] at hr
    obtain rfl : V = V' := congrArg fst hr
    exact iff_of_true (NoTrace.refl _) ⟨not_false, not_false⟩
  | some parentMP =>
    rw [hP] at hr
    exact createInodeIn_failed rfl hr

theorem noTrace_dropped_iff {i : InodeCell} (hi : s.node p ino = some i)
    (hi' : s'.node p ino = some i) (hd : i.shouldDelete = false)
    (hs : V.toNamespace = s'.setNode p ino (some i.incNLink)) :
    NoTrace s (V.serve t (.iunlink p ino)).1.toNamespace ↔ NoTrace s s' ∧ Restorable i := by
  have hun : (V.serve t (.iunlink p ino)).1.toNamespace =
      s'.setNode p ino (afterUnlink t i.incNLink) := by
    rw [Volume.toNamespace_serve_iunlink, unlinked, hs, node_setNode_self]
    dsimp only
    rw [if_neg (by rw [i.shouldDelete_incNLink, hd]; decide), setNode_setNode]
  rw [hun, noTrace_setNode_iff hi hi', restorable_iff]

theorem not_noTrace_linked {i : InodeCell} (hi : s.node p ino = some i) :
    ¬ NoTrace s (s.setNode p ino (some i.incNLink)) := by
  rw [noTrace_setNode_iff hi hi]
  rintro ⟨-, i', hi', hl⟩
  cases hi'
  exact nLink_incNLink_ne i hl

theorem link_failed
    (hr : (mw.link parentID name ino).run (faulty clock fault) 0 V = (V', .error e)) :
    NoTrace V.toNamespace V'.toNamespace ↔
      ((mw.link parentID name ino).Saw (faulty clock fault) ilinkOk 0 V → parentID ≠ ino ∧
        ¬ (mw.link parentID name ino).Saw (faulty clock fault) dcreateExist 0 V ∧
        ∀ p i, mw.getPartitionByInode ino = some p → V.toNamespace.node p ino = some i →
          Restorable i) := by
  unfold link at hr ⊢
  cases hP : mw.getPartitionByInode parentID with
  | none =>
    rw [hP] at hr
    obtain rfl : V = V' := congrArg fst hr
    exact iff_of_true (NoTrace.refl _) fun h => h.elim
  | some parentMP =>
    rw [hP] at hr
    cases hp : mw.getPartitionByInode ino with
    | none =>
      rw [hp] at hr
      obtain rfl : V = V' := congrArg fst hr
      exact iff_of_true (NoTrace.refl _) fun h => h.elim
    | some mp =>
      rw [hp] at hr
      dsimp only at hr ⊢
      rw [run_call] at hr
      rw [saw_call, saw_call]
      obtain ⟨status, ha⟩ | ⟨i, V₁, info, hi, hd, ha, hns⟩ := faulty_ilink clock fault 0 mp ino V
      · rw [ha] at hr ⊢
        obtain rfl : V = V' := congrArg fst hr
        refine iff_of_true (NoTrace.refl _) ?_
        rintro (h | h) <;> exact h.elim
      · rw [ha] at hr ⊢
        have hleft : ¬ NoTrace V.toNamespace V₁.toNamespace := by
          rw [hns]
          exact not_noTrace_linked hi
        have hinode : (∀ p i, some mp = some p → V.toNamespace.node p ino = some i →
            Restorable i) ↔ Restorable i := by
          refine ⟨fun h => h mp i rfl hi, fun h p i' hp' hi' => ?_⟩
          cases hp'
          rwa [← some.inj (hi.symm.trans hi')]
        rw [hinode]
        dsimp only at hr
        simp only [ilinkOk, true_or, true_imp_iff, dcreateExist, false_or]
        unfold dcreate at hr ⊢
        by_cases hself : parentID = ino
        · rw [if_pos hself] at hr
          obtain rfl : V₁ = V' := congrArg fst hr
          exact iff_of_false hleft fun h => h.1 hself
        rw [if_neg hself] at hr ⊢
        rw [run_call] at hr
        rw [saw_call]
        obtain ⟨status, ha'⟩ | ⟨k, V₂, -, -, -, -, ha', -⟩ :=
          faulty_dcreate clock fault (0 + 1) parentMP parentID name ino info.mode V₁
        · rw [ha'] at hr ⊢
          by_cases hst : status = .exist
          · subst hst
            obtain rfl : V₁ = V' := congrArg fst hr
            exact iff_of_false hleft fun h => h.2.1 (.inl trivial)
          cases status with
          | exist => exact absurd rfl hst
          | _ =>
            have hV' : V' = _ := (congrArg fst hr).symm
            rw [hV']
            refine (noTrace_dropped_iff hi hi hd hns).trans ⟨fun h => ⟨hself, ?_, h.2⟩,
              fun h => ⟨NoTrace.refl _, h.2.2⟩⟩
            rintro (h | h | h) <;> exact h
        · rw [ha'] at hr
          cases congrArg snd hr

variable {x : Renaming n}

section

variable (hQ : ∀ p ino a, ¬ Q (.iunlink p ino) a)
include hQ

theorem dropLink_no_calls : ¬ (dropLink x err).Saw (faulty clock fault) Q i V :=
  not_saw_call (fun a => hQ _ _ a) fun _ _ _ => not_false

theorem afterRestore_no_calls {a : Answer UInt64} :
    ¬ (afterRestore x err a).Saw (faulty clock fault) Q i V := by
  cases a with
  | ok ino => exact dropLink_no_calls hQ
  | refused status | failed => exact not_false

end

theorem deleteSrc_no_calls (hun : ∀ p ino a, ¬ Q (.iunlink p ino) a)
    (hdel : ∀ p ino name a, ¬ Q (.ddelete p ino name) a)
    (hup : old = 0 ∨ ∀ p ino name y a, ¬ Q (.dupdate p ino name y) a) :
    ¬ (mw.deleteSrc x old).Saw (faulty clock fault) Q i V := by
  refine not_saw_call (fun a => hdel _ _ _ a) fun a j V => ?_
  cases a with
  | ok ino =>
    refine not_saw_call (fun a => hun _ _ a) fun a j V => ?_
    split
    · exact not_false
    split
    · exact not_false
    · exact not_saw_call (fun a => hun _ _ a) fun _ _ _ => not_false
  | _ =>
    dsimp only
    unfold restoreDst dupdate
    split
    · exact not_saw_call (fun a => hdel _ _ _ a) fun a j V => afterRestore_no_calls hun
    rename_i hne
    split
    · exact afterRestore_no_calls hun
    · have hup' := hup.resolve_left hne
      exact not_saw_call (fun a => hup' _ _ _ _ a) fun a j V => afterRestore_no_calls hun

section Rename

variable {x : Renaming n} {s : Namespace n} {i : InodeCell} {j : ℕ} {err e : Errno}

theorem deleteSrc_failed (hr : (mw.deleteSrc x old).run (faulty clock fault) j V = (V', .error e)) :
    ∃ err j', (restoreDst x old err).run (faulty clock fault) j' V = (V', .error e) := by
  unfold deleteSrc at hr
  rw [run_call] at hr
  have hrefused {status : Status} (ha : faulty clock fault j { expect := some x.inode }
      (.ddelete x.srcParentMP x.srcParentID x.srcName) V = (V, .refused status)) :
      ∃ err j', (restoreDst x old err).run (faulty clock fault) j' V = (V', .error e) := by
    rw [ha] at hr
    exact ⟨_, _, hr⟩
  obtain hserve | ⟨status, hbad⟩ := faulty_cases clock fault j { expect := some x.inode }
      (.ddelete x.srcParentMP x.srcParentID x.srcName) V
  · obtain ⟨-, ha⟩ | ⟨d, V₁, -, ha, -⟩ :=
      V.serve_ddelete (clock j) x.srcParentMP x.srcParentID x.srcName
    · exact hrefused (hserve.trans ha)
    · rw [hserve, ha] at hr
      dsimp only at hr
      rw [run_call] at hr
      split at hr
      · cases congrArg snd hr
      split at hr
      all_goals cases congrArg snd hr
  · exact hrefused hbad

theorem nLink_decParent_incNLink (hd : k.shouldDelete = false) (hdir : isDir k.type = true) :
    (decParent k.incNLink).nLink = k.nLink ↔ 2 ≤ k.nLink.toNat ∧ k.nLink.toNat + 1 < 2 ^ 32 := by
  have hinc : k.incNLink.nLink.toNat = (k.nLink.toNat + 1) % 2 ^ 32 := by
    rw [incNLink, UInt32.toNat_add]
    rfl
  have hlt : k.nLink.toNat < 2 ^ 32 := k.nLink.toNat_lt
  have hdec := toNat_decNLink_dir (i := k.incNLink) hdir
  rw [hinc] at hdec
  unfold decParent
  rw [if_neg (by rw [k.shouldDelete_incNLink, hd]; decide), ← UInt32.toNat_inj, hdec]
  split <;> omega

section

variable (hi : s.node x.srcMP x.inode = some i)
include hi

section

variable (hd : i.shouldDelete = false)
include hd

theorem restoreDst_created (hne : x.dstParentID ≠ x.inode)
    (hk : s.node x.dstParentMP x.dstParentID = some k) (hkd : k.shouldDelete = false)
    (hkdir : isDir k.type = true) (hnew : s.dentryAt? x.dstParentMP x.dstParentID x.dstName = none)
    (hs : V.toNamespace = (s.setNode x.srcMP x.inode (some i.incNLink)).withDentry x.dstParentMP
      ⟨x.dstParentID, x.dstName, x.inode, x.mode⟩ k)
    (hr : (restoreDst x 0 err).run (faulty clock fault) j V = (V', .error e)) :
    NoTrace s V'.toNamespace ↔ Restorable i ∧ 2 ≤ k.nLink.toNat ∧ k.nLink.toNat + 1 < 2 ^ 32 := by
  have hgone : V.toNamespace.withoutDentry x.dstParentMP x.dstParentID x.dstName =
      (s.setNode x.dstParentMP x.dstParentID
        (some (decParent k.incNLink))).setNode x.srcMP x.inode
          (some i.incNLink) := by
    rw [hs, Namespace.setNode_comm _ hne.symm]
    exact Namespace.withoutDentry_withDentry hnew
  unfold restoreDst at hr
  rw [if_pos rfl, run_call, faulty_undo rfl] at hr
  obtain ⟨hget, -⟩ | ⟨d, V₁, -, ha, hns, -⟩ :=
    V.serve_ddelete (clock j) x.dstParentMP x.dstParentID x.dstName
  · rw [hs, Namespace.dentryAt?_withDentry_self] at hget
    cases hget
  · rw [ha] at hr
    have hV' : V' = _ := (congrArg fst hr).symm
    have hi' : (s.setNode x.dstParentMP x.dstParentID
        (some (decParent k.incNLink))).node x.srcMP x.inode = some i := by
      rw [Namespace.node_setNode_of_ne _ hne.symm, hi]
    rw [hV']
    refine (noTrace_dropped_iff hi hi' hd (hns.trans hgone)).trans ?_
    rw [noTrace_setNode_iff hk hk, ← nLink_decParent_incNLink hkd hkdir, and_comm]
    simp [NoTrace.refl]

theorem restoreDst_updated {d : Dentry} (hne : x.dstParentID ≠ x.inode)
    (hget : s.dentryAt? x.dstParentMP x.dstParentID x.dstName = some d)
    (hs : V.toNamespace = (s.setNode x.srcMP x.inode (some i.incNLink)).withTarget x.dstParentMP
      d x.inode) (hr : (restoreDst x d.inode err).run (faulty clock fault) j V = (V', .error e)) :
    NoTrace s V'.toNamespace ↔ Restorable i ∧ d.inode ≠ 0 ∧ d.inode ≠ x.dstParentID := by
  obtain ⟨hpar, hname⟩ : x.dstParentID = d.parentId ∧ x.dstName = d.name :=
    dentryKey_inj.mp (Namespace.key_of_dentryAt? hget).symm
  have hset : V.toNamespace.dentryAt? x.dstParentMP x.dstParentID x.dstName =
      some { d with inode := x.inode } := by
    rw [hs]
    exact (Namespace.dentryAt?_setDents_insert _ _ _ _ _ _).trans (if_pos ⟨rfl, hpar, hname⟩)
  unfold restoreDst dupdate at hr
  by_cases hzero : d.inode = 0
  · -- taken for a new dentry, the old one is deleted
    refine iff_of_false ?_ fun h => h.2.1 hzero
    rw [if_pos hzero, run_call, faulty_undo rfl] at hr
    obtain ⟨hget', -⟩ | ⟨d', V₁, -, ha, hns, -⟩ :=
      V.serve_ddelete (clock j) x.dstParentMP x.dstParentID x.dstName
    · rw [hset] at hget'
      cases hget'
    · rw [ha] at hr
      have hV' : V' = (V₁.serve (clock (j + 1)) (.iunlink x.srcMP x.inode)).1 :=
        (congrArg fst hr).symm
      have hgone : V₁.toNamespace =
        V.toNamespace.withoutDentry x.dstParentMP x.dstParentID x.dstName := hns
      intro h
      have hsame := h.dentryAt? x.dstParentMP x.dstParentID x.dstName
      rw [hV', Volume.toNamespace_serve_iunlink, Namespace.dentryAt?_unlinked, hgone,
        Namespace.dentryAt?_withoutDentry, if_pos ⟨rfl, rfl, rfl⟩, hget] at hsame
      cases hsame
  rw [if_neg hzero] at hr
  by_cases hself : x.dstParentID = d.inode
  · -- the dentry named its own parent, which no update brings back
    refine iff_of_false ?_ fun h => h.2.2 hself.symm
    rw [if_pos hself] at hr
    obtain rfl : V = V' := congrArg fst hr
    intro h
    have hsame := h.dentryAt? x.dstParentMP x.dstParentID x.dstName
    rw [hset, hget] at hsame
    have hino : x.inode = d.inode := congrArg Dentry.inode (some.inj hsame)
    exact hne (hself.trans hino.symm)
  rw [if_neg hself, run_call, faulty_undo rfl] at hr
  obtain ⟨status, -, hbad⟩ | ⟨d', V₁, -, hget', ha, hns, -⟩ :=
    V.serve_dupdate (clock j) x.dstParentMP x.dstParentID x.dstName d.inode
  · obtain hbad | hbad := hbad
    · exact absurd hbad hself
    · rw [hset] at hbad
      cases hbad
  · rw [ha] at hr
    have hV' : V' = _ := (congrArg fst hr).symm
    obtain rfl : _ = d' := some.inj (hset.symm.trans hget')
    have hback : V₁.toNamespace = s.setNode x.srcMP x.inode (some i.incNLink) := by
      rw [hns, hs]
      refine Namespace.withTarget_withTarget ?_
      rw [← hpar, ← hname]
      exact hget
    rw [hV']
    refine (noTrace_dropped_iff hi hi hd hback).trans ?_
    exact ⟨fun h => ⟨h.2, hzero, Ne.symm hself⟩, fun h => ⟨NoTrace.refl s, h.1⟩⟩

variable (hs : V.toNamespace = s.setNode x.srcMP x.inode (some i.incNLink))
include hs

theorem dropLink_failed (hr : (dropLink x err).run (faulty clock fault) j V = (V', .error e)) :
    NoTrace s V'.toNamespace ↔ Restorable i := by
  have hV' : V' = _ := (congrArg fst hr).symm
  rw [hV']
  refine (noTrace_dropped_iff hi hi hd hs).trans ?_
  exact and_iff_right (NoTrace.refl s)

theorem createDst_failed (hr : (mw.createDst x).run (faulty clock fault) j V = (V', .error e)) :
    NoTrace s V'.toNamespace ↔ RenameRestores x s i
      ((mw.createDst x).Saw (faulty clock fault) dcreateOk j V)
      ((mw.createDst x).Saw (faulty clock fault) dupdateOk j V) := by
  -- the destination was not touched
  have hdrop {err : Errno} {j' : ℕ} {created updated : Prop}
      (hr' : (dropLink x err).run (faulty clock fault) j' V = (V', .error e))
      (hc : ¬ created) (hu : ¬ updated) :
      NoTrace s V'.toNamespace ↔ RenameRestores x s i created updated := by
    rw [dropLink_failed hi hd hs hr']
    exact ⟨fun h => ⟨h, fun h' => absurd h' hc, fun h' => absurd h' hu⟩, fun h => h.1⟩
  unfold createDst dcreate at hr ⊢
  by_cases hself : x.dstParentID = x.inode
  · unfold dupdate at hr ⊢
    rw [if_pos hself, if_pos hself] at hr
    rw [if_pos hself, if_pos hself]
    dsimp only at hr ⊢
    by_cases hreg : Status.exist = Status.exist ∧ isRegular x.mode = true
    · rw [if_pos hreg] at hr ⊢
      exact hdrop hr (dropLink_no_calls fun _ _ _ => not_false)
        (dropLink_no_calls fun _ _ _ => not_false)
    rw [if_neg hreg] at hr ⊢
    exact hdrop hr (dropLink_no_calls fun _ _ _ => not_false)
      (dropLink_no_calls fun _ _ _ => not_false)
  rw [if_neg hself] at hr ⊢
  rw [run_call] at hr
  rw [saw_call, saw_call]
  obtain ⟨status, ha⟩ | ⟨k, V₁, hk, hkd, hkdir, hnew, ha, hns⟩ :=
    faulty_dcreate clock fault j x.dstParentMP x.dstParentID x.dstName x.inode x.mode V
  · rw [ha] at hr ⊢
    simp only [dcreateOk, dupdateOk, false_or] at hr ⊢
    by_cases hreg : status = .exist ∧ isRegular x.mode = true
    · rw [if_pos hreg] at hr ⊢
      unfold dupdate at hr ⊢
      rw [if_neg hself] at hr ⊢
      rw [run_call] at hr
      rw [saw_call, saw_call]
      obtain ⟨status', ha'⟩ | ⟨d, V₁, hget, ha', hns⟩ :=
        faulty_dupdate clock fault (j + 1) x.dstParentMP x.dstParentID x.dstName x.inode V
      · rw [ha'] at hr ⊢
        simp only [dcreateOk, dupdateOk, false_or] at hr ⊢
        exact hdrop hr (dropLink_no_calls fun _ _ _ => not_false)
          (dropLink_no_calls fun _ _ _ => not_false)
      · rw [ha'] at hr ⊢
        obtain ⟨err, j', hr'⟩ := deleteSrc_failed hr
        rw [hs] at hget hns
        refine (restoreDst_updated hi hd hself hget hns hr').trans ⟨fun h => ⟨h.1, ?_, ?_⟩, ?_⟩
        · rintro (hc | hc)
          · exact hc.elim
          · exact absurd hc (deleteSrc_no_calls (fun _ _ _ => not_false)
              (fun _ _ _ _ => not_false) (.inr fun _ _ _ _ _ => not_false))
        · intro _ d' hd'
          rw [← some.inj (hget.symm.trans hd')]
          exact h.2
        · exact fun h => ⟨h.1, h.2.2 (.inl trivial) d hget⟩
    rw [if_neg hreg] at hr ⊢
    exact hdrop hr (dropLink_no_calls fun _ _ _ => not_false)
      (dropLink_no_calls fun _ _ _ => not_false)
  · rw [ha] at hr ⊢
    obtain ⟨err, j', hr'⟩ := deleteSrc_failed hr
    rw [hs] at hk hnew hns
    rw [Namespace.node_setNode_of_ne _ hself] at hk
    refine (restoreDst_created hi hd hself hk hkd hkdir hnew hns hr').trans
      ⟨fun h => ⟨h.1, ?_, ?_⟩, ?_⟩
    · intro _ k' hk'
      rw [← some.inj (hk.symm.trans hk')]
      exact h.2
    · rintro (hu | hu)
      · exact hu.elim
      · exact absurd hu (deleteSrc_no_calls (fun _ _ _ => not_false)
          (fun _ _ _ _ => not_false) (.inl rfl))
    · exact fun h => ⟨h.1, h.2.1 (.inl trivial) k hk⟩

end
end

theorem renameLl_failed {sp dp : UInt64} {sn dn : Bytes}
    (hr : (mw.renameLl sp sn dp dn).run (faulty clock fault) 0 V = (V', .error e)) :
    NoTrace V.toNamespace V'.toNamespace ↔ FailsClean mw V.toNamespace
      (fun Q => (mw.renameLl sp sn dp dn).Saw (faulty clock fault) Q 0 V)
      (.rename sp sn dp dn) := by
  -- an operation that ends before the link is taken changes nothing
  have hearly (hV : V = V') {P : Prop} (hsaw : ¬ P) {R : Prop} :
      NoTrace V.toNamespace V'.toNamespace ↔ (P → R) := by
    subst hV
    exact iff_of_true (NoTrace.refl _) fun h => absurd h hsaw
  unfold FailsClean
  dsimp only
  unfold renameLl at hr ⊢
  cases hP : mw.getPartitionByInode sp with
  | none =>
    rw [hP] at hr
    exact hearly (congrArg fst hr) not_false
  | some P =>
    rw [hP] at hr
    cases hQ : mw.getPartitionByInode dp with
    | none =>
      rw [hQ] at hr
      exact hearly (congrArg fst hr) not_false
    | some Q =>
      rw [hQ] at hr
      dsimp only at hr ⊢
      rw [run_call] at hr
      simp only [saw_call]
      obtain ⟨status, ha⟩ | ⟨d, hget, ha⟩ := faulty_lookup clock fault 0 P sp sn V
      · rw [ha] at hr ⊢
        refine hearly (congrArg fst hr) ?_
        rintro (h | h) <;> exact h
      · rw [ha] at hr ⊢
        dsimp only at hr ⊢
        cases hp : mw.getPartitionByInode d.inode with
        | none =>
          rw [hp] at hr
          refine hearly (congrArg fst hr) ?_
          rintro (h | h) <;> exact h
        | some p =>
          rw [hp] at hr
          dsimp only at hr ⊢
          rw [run_call] at hr
          simp only [saw_call]
          obtain ⟨status, ha'⟩ | ⟨i, V₁, info, hi, hd, ha', hns⟩ :=
            faulty_ilink clock fault (0 + 1) p d.inode V
          · rw [ha'] at hr ⊢
            refine hearly (congrArg fst hr) ?_
            rintro (h | h | h) <;> exact h
          · rw [ha'] at hr ⊢
            simp only [ilinkOk, dcreateOk, dupdateOk, false_or, true_or, true_imp_iff] at hr ⊢
            refine (createDst_failed hi hd hns hr).trans ⟨?_, ?_⟩
            · intro h P' Q' p' d' i' hP' hQ' hget' hp' hi'
              cases hP'
              cases hQ'
              obtain rfl := some.inj (hget.symm.trans hget')
              obtain rfl := some.inj (hp.symm.trans hp')
              obtain rfl := some.inj (hi.symm.trans hi')
              exact h
            · exact fun h => h P Q p d i rfl rfl hget hp hi

theorem deleteDentryOf_failed
    (hr : (mw.deleteDentryOf p parentID name).run (faulty clock fault) j V = (V', .error e)) :
    V' = V := by
  unfold deleteDentryOf at hr
  rw [run_call] at hr
  obtain hserve | ⟨status, hbad⟩ := faulty_cases clock fault j {} (.ddelete p parentID name) V
  · obtain ⟨-, ha⟩ | ⟨d, V₁, -, ha, -⟩ := V.serve_ddelete (clock j) p parentID name
    · rw [hserve, ha] at hr
      exact (congrArg fst hr).symm
    · rw [hserve, ha] at hr
      dsimp only at hr
      split at hr
      · cases congrArg snd hr
      · rw [run_call] at hr
        split at hr <;> cases congrArg snd hr
  · rw [hbad] at hr
    exact (congrArg fst hr).symm

theorem noTrace_iget :
    NoTrace V.toNamespace (faulty clock fault j {} (.iget p ino) V).1.toNamespace := by
  obtain hserve | ⟨status, hbad⟩ := faulty_cases clock fault j {} (.iget p ino) V
  · obtain ⟨V₁, hV₁, -, hsame | ⟨i, hi, hns⟩⟩ := V.serve_iget (clock j) p ino
    · rw [hserve, hV₁, hsame]
      exact NoTrace.refl _
    · rw [hserve, hV₁, hns, noTrace_setNode_iff hi hi]
      exact ⟨NoTrace.refl _, _, rfl, rfl⟩
  · rw [hbad]
    exact NoTrace.refl _

theorem deleteLl_failed {dir : Bool}
    (hr : (mw.deleteLl parentID name dir).run (faulty clock fault) 0 V = (V', .error e)) :
    NoTrace V.toNamespace V'.toNamespace := by
  have hearly {V₁ : Volume n} (hV : V₁ = V') (h : NoTrace V.toNamespace V₁.toNamespace) :
      NoTrace V.toNamespace V'.toNamespace := hV ▸ h
  unfold deleteLl at hr
  split at hr
  · exact hearly (congrArg fst hr) (NoTrace.refl _)
  rename_i p hp
  split at hr
  · rw [run_call] at hr
    obtain ⟨status, ha⟩ | ⟨d, -, ha⟩ := faulty_lookup clock fault 0 p parentID name V
    · rw [ha] at hr
      exact hearly (congrArg fst hr) (NoTrace.refl _)
    · rw [ha] at hr
      dsimp only at hr
      split at hr
      · exact hearly (congrArg fst hr) (NoTrace.refl _)
      split at hr
      · exact hearly (congrArg fst hr) (NoTrace.refl _)
      rename_i q hq
      rw [run_call] at hr
      have hget : NoTrace V.toNamespace
          (faulty clock fault (0 + 1) {} (.iget q d.inode) V).1.toNamespace := noTrace_iget
      split at hr
      · split at hr
        · exact hearly (congrArg fst hr) hget
        · exact hearly (deleteDentryOf_failed hr).symm hget
      · exact hearly (congrArg fst hr) hget
  · exact hearly (deleteDentryOf_failed hr).symm (NoTrace.refl _)

end Rename
end MetaWrapper

/-- An operation that runs alone and returns an error, whichever of its calls are refused, leaves
no trace exactly when it fails clean. -/
theorem failed_noTrace_iff {op : MetaWrapper.Op n} {e : Errno}
    (hr : (mw.prog op).run (faulty clock fault) 0 V = (V', .error e)) :
    NoTrace V.toNamespace V'.toNamespace ↔ FailsClean mw V.toNamespace
      (fun Q => (mw.prog op).Saw (faulty clock fault) Q 0 V) op := by
  cases op with
  | create rwPartitions epoch parentID name mode uid gid target =>
    exact MetaWrapper.createLl_failed hr
  | link parentID name ino => exact MetaWrapper.link_failed hr
  | delete parentID name dir => exact iff_of_true (MetaWrapper.deleteLl_failed hr) trivial
  | rename sp sn dp dn => exact MetaWrapper.renameLl_failed hr

/-- A link whose dentry is refused for another reason than its name drops the link. -/
theorem failed_noTrace_link_full : ∃ V', (oneRange.prog (.link 1 [116] 2)).run
        (faulty (fun _ => 0) fun i => if i = 1 then some .full else none) 0 (oneEntry 0) =
        (V', .error .eagain) ∧
      NoTrace (oneEntry 0).toNamespace V'.toNamespace := by
  have hrun : ∃ V', (oneRange.prog (.link 1 [116] 2)).run
      (faulty (fun _ => 0) fun i => if i = 1 then some .full else none) 0 (oneEntry 0) =
      (V', .error .eagain) := ⟨_, rfl⟩
  obtain ⟨V', hr⟩ := hrun
  refine ⟨V', hr, (failed_noTrace_iff hr).mpr ?_⟩
  rintro -
  refine ⟨by decide, ?_, ?_⟩
  · rintro (h | h | h | h) <;> exact h
  · intro p i _ hi
    obtain rfl := Fin.fin_one_eq_zero p
    cases hi
    exact ⟨by decide, by decide⟩

/-- A link under a name that is taken returns an error and leaves the file with two links. -/
theorem link_exist_leaves_link :
    ∃ V', (oneRange.prog (.link 1 [115] 2)).run (faulty (fun _ => 0) fun _ => none) 0
        (oneEntry 0) = (V', .error .eexist) ∧
      ((oneEntry 0).toNamespace.node 0 2).map nLink = some 1 ∧
      (V'.toNamespace.node 0 2).map nLink = some 2 ∧
      ¬ NoTrace (oneEntry 0).toNamespace V'.toNamespace := by
  refine ⟨_, rfl, rfl, rfl, ?_⟩
  intro h
  obtain ⟨i', hi', hl⟩ := h.kept 0 2 _ rfl
  cases hi'
  exact absurd hl (by decide)

end ChubaoFS
