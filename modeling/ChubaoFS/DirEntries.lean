import ChubaoFS.Base.Run
import ChubaoFS.FsmCases

namespace ChubaoFS.MetaPartition

open OrdTree MetaPartition InodeOf

def children (mp : MetaPartition) (ino : UInt64) : Nat :=
  mp.dentryTree.items.countP fun d => d.parentId = ino

variable {mp : MetaPartition}

theorem children_eq_zero_iff {ino : UInt64} :
    mp.children ino = 0 ↔ ∀ d ∈ mp.dentryTree.items, d.parentId ≠ ino := by
  simp [children, List.countP_eq_zero]

/-- The command removes the directory, or marks it for deletion. -/
def Destroys (mp : MetaPartition) (ino : UInt64) : Command → Prop
  | .unlinkInode c => c.inode = ino ∧ (∃ i, mp.inode? ino = some i ∧ isDir i.type = true) ∧
      (mp.apply (.unlinkInode c)).inode? ino = none
  | .evictInode c => c.inode = ino ∧
      (∃ i, mp.inode? ino = some i ∧ isDir i.type = true ∧ i.shouldDelete = false) ∧
      ∃ j, (mp.apply (.evictInode c)).inode? ino = some j ∧ j.shouldDelete = true
  | _ => False

/-- A directory that still has entries is not unlinked, no type is changed from or to a
directory, a new directory has its two links, and no link count wraps. -/
def KeepsDirs (mp : MetaPartition) : Command → Prop
  | .unlinkInode c => ∀ i, mp.inode? c.inode = some i → isDir i.type = true →
      ¬ (2 < i.nLink.toNat ∧ i.nLink.toNat ≤ 2 + mp.children c.inode)
  | .setAttr req => ∀ i, mp.inode? req.inode = some i → i.shouldDelete = false →
      isDir (i.setAttr req.valid req.mode req.uid req.gid).type = isDir i.type
  | .createInode c => isDir c.type = true → 2 ≤ c.nLink.toNat
  | .createDentry d => ∀ i, mp.inode? d.parentId = some i → i.nLink.toNat + 1 < 2 ^ 32
  | .createLinkInode c => ∀ i, mp.inode? c.inode = some i → isDir i.type = true →
      i.nLink.toNat + 1 < 2 ^ 32
  | .internalDeleteInode inos => ∀ ino ∈ inos, mp.children ino = 0
  | _ => True

def Covered (i : Option InodeCell) (n : Nat) : Prop :=
  match i with
  | none => n = 0
  | some i => if isDir i.type = true ∧ i.shouldDelete = false then 2 + n ≤ i.nLink.toNat else n = 0

def DirsCovered (mp : MetaPartition) : Prop := ∀ ino, Covered (mp.inode? ino) (mp.children ino)

variable {i : InodeCell} {n : Nat}

section

variable (h : Covered (some i) n)
include h

theorem Covered.none_of_file (hf : isDir i.type = false) : n = 0 := by
  simpa [Covered, hf] using h

theorem Covered.le_of_dir (hd : isDir i.type = true) (hm : i.shouldDelete = false) :
    2 + n ≤ i.nLink.toNat := by
  simpa [Covered, hd, hm] using h

end

theorem covered_of_zero {i : Option InodeCell}
    (h : ∀ j, i = some j → isDir j.type = true → j.shouldDelete = false → 2 ≤ j.nLink.toNat) :
    Covered i 0 := by
  cases i with
  | none => rfl
  | some j =>
    unfold Covered
    dsimp only
    split
    next hj => exact h j rfl hj.1 hj.2
    · rfl

theorem DirsCovered.update (h : mp.DirsCovered) {ino : UInt64} {f : InodeCell → InodeCell}
    {hf : ∀ i, (f i).key = i.key} (hi : mp.inode? ino = some i)
    (hc : Covered (some (f i)) (mp.children ino)) : (mp.updateInode ino f hf).DirsCovered := by
  intro ino'
  have hch : (mp.updateInode ino f hf).children ino' = mp.children ino' := rfl
  rw [hch, inode?_updateInode]
  by_cases he : ino' = ino
  · subst he
    rw [if_pos rfl, hi]
    exact hc
  · rw [if_neg he]
    exact h ino'

variable {ino : Inode}

section

variable (h : mp.DirsCovered)
include h

theorem DirsCovered.createInode (ha : mp.KeepsDirs (.createInode ino)) :
    (mp.apply (.createInode ino)).DirsCovered := by
  let mp₁ := { mp with cursor := if mp.cursor < ino.inode then ino.inode else mp.cursor }
  have h₁ : mp₁.DirsCovered := h
  have happ : mp.apply (.createInode ino) = (mp₁.fsmCreateInode ino).1 := rfl
  rw [happ]
  obtain ⟨i, -, hr⟩ | ⟨hn, hr⟩ := fsmCreateInode_cases mp₁ ino
  · rw [hr]
    exact h₁
  · rw [hr]
    intro ino'
    have hc := h₁ ino'
    rw [inode?_insertInode]
    split
    next he =>
      obtain rfl : ino' = ino.inode := he
      rw [hn] at hc
      have hz : mp₁.children ino.inode = 0 := hc
      have hgoal : Covered (some (load mp₁.exts ino).2) 0 := by
        apply covered_of_zero
        intro j hj hd _
        obtain rfl := Option.some.inj hj
        exact ha hd
      exact hz ▸ hgoal
    · exact hc

theorem DirsCovered.createLinkInode (ha : mp.KeepsDirs (.createLinkInode ino)) :
    (mp.fsmCreateLinkInode ino).1.DirsCovered := by
  obtain ⟨hr, -⟩ | ⟨i, hi, hd, hr⟩ := fsmCreateLinkInode_cases mp ino
  · rw [hr]
    exact h
  · rw [hr]
    refine h.update hi ?_
    have hc := h ino.inode
    rw [hi] at hc
    unfold Covered
    dsimp only
    split
    next hdir =>
      have hle := hc.le_of_dir hdir.1 hd
      rw [toNat_incNLink (ha i hi hdir.1)]
      omega
    next hdir =>
      have hfile : isDir i.type = false := by simpa [hd] using hdir
      exact hc.none_of_file hfile

section

variable (ha : mp.KeepsDirs (.unlinkInode ino))
include ha

theorem DirsCovered.children_of_unlink (hi : mp.inode? ino.inode = some i)
    (hd : i.shouldDelete = false) (hdir : isDir i.type = true) :
    2 + mp.children ino.inode ≤ (i.unlink ino.modifyTime).nLink.toNat := by
  have hc := h ino.inode
  rw [hi] at hc
  have hle := hc.le_of_dir hdir hd
  have hex := ha i hi hdir
  rw [toNat_unlink_dir hdir]
  split <;> omega

theorem DirsCovered.unlinkInode : (mp.fsmUnlinkInode ino).1.DirsCovered := by
  obtain ⟨hr, -⟩ | ⟨p, i, mp', -, -, hi, hd, hok, hr⟩ := fsmUnlinkInode_cases mp ino
  · rw [hr]
    exact h
  · rw [hr]
    have hc := h ino.inode
    rw [hi] at hc
    have hupd : (mp.updateInode ino.inode (unlink ino.modifyTime)
        (key_unlink ino.modifyTime)).DirsCovered := by
      refine h.update hi ?_
      unfold Covered
      dsimp only
      split
      next hdir =>
        rw [type_unlink] at hdir
        exact h.children_of_unlink ha hi hd hdir.1
      next hdir =>
        rw [type_unlink, shouldDelete_unlink] at hdir
        exact hc.none_of_file (by simpa [hd] using hdir)
    cases hok with
    | file | freed | dir => exact hupd
    | removed hdir h2 =>
      have hle := h.children_of_unlink ha hi hd hdir
      intro ino'
      rw [inode?_deleteInode]
      split
      next he =>
        subst he
        have hz : mp.children ino.inode = 0 := by omega
        exact hz
      · exact hupd ino'

end

theorem DirsCovered.evictInode (ino : Inode) : (mp.fsmEvictInode ino).1.DirsCovered := by
  obtain hr | ⟨i, hi, hd, hn, hr⟩ := fsmEvictInode_cases mp ino
  · rw [hr]
    exact h
  · rw [hr]
    refine h.update hi ?_
    have hc := h ino.inode
    rw [hi] at hc
    have hz : mp.children ino.inode = 0 := by
      by_cases hdir : isDir i.type = true
      · have hle := hc.le_of_dir hdir hd
        rw [if_pos hdir] at hn
        omega
      · exact hc.none_of_file (by simpa using hdir)
    simp [Covered, hz]

theorem DirsCovered.setAttr {req : SetattrRequest} (ha : mp.KeepsDirs (.setAttr req)) :
    (mp.fsmSetAttr req).DirsCovered := by
  obtain hr | ⟨i, hi, hd, hr⟩ := fsmSetAttr_cases mp req
  · rw [hr]
    exact h
  · rw [hr]
    refine h.update hi ?_
    have hc := h req.inode
    rw [hi] at hc
    have hdir := ha i hi hd
    unfold Covered at hc ⊢
    dsimp only at hc ⊢
    rw [hdir]
    exact hc

theorem DirsCovered.extents {mp' : MetaPartition} {ino : UInt64} (hs : ExtentsStep mp ino mp') :
    mp'.DirsCovered := by
  cases hs with
  | refused => exact h
  | @changed i exts extDelCh change links hi hd =>
    have h₁ : DirsCovered { mp with exts := exts, extDelCh := extDelCh } := h
    refine h₁.update hi ?_
    obtain ⟨-, ht, hn, hf⟩ := links i
    have hc := h ino
    rw [hi] at hc
    unfold Covered shouldDelete at hc ⊢
    dsimp only at hc ⊢
    rw [ht, hn, hf]
    exact hc

theorem DirsCovered.createDentry {dentry : Dentry} (ha : mp.KeepsDirs (.createDentry dentry)) :
    (mp.fsmCreateDentry dentry).1.DirsCovered := by
  obtain ⟨status, -, hr⟩ | ⟨i, hi, hd, hdir, hnew, hr⟩ := fsmCreateDentry_cases mp dentry
  · rw [hr]
    exact h
  · rw [hr]
    let mp₁ := { mp with dentryTree := mp.dentryTree.insert dentry }
    change DirsCovered (mp₁.updateInode dentry.parentId incNLink key_incNLink)
    intro ino
    have hcount : mp₁.children ino = mp.children ino + if dentry.parentId = ino then 1 else 0 := by
      simpa [children, mp₁] using
        countP_insert_new hnew fun d => decide (d.parentId = ino)
    have hc := h ino
    have hch : (mp₁.updateInode dentry.parentId incNLink key_incNLink).children ino =
      mp₁.children ino := rfl
    rw [hch, hcount, inode?_updateInode]
    by_cases he : ino = dentry.parentId
    · subst he
      have hi' : mp₁.inode? dentry.parentId = some i := hi
      rw [hi] at hc
      rw [if_pos rfl, if_pos rfl, hi', Option.map_some]
      have hle := hc.le_of_dir hdir hd
      have hinc := toNat_incNLink (ha i hi)
      unfold Covered
      dsimp only
      rw [if_pos ⟨hdir, hd⟩, hinc]
      omega
    · rw [if_neg he, if_neg (Ne.symm he)]
      exact hc

theorem DirsCovered.deleteDentry (dentry : Dentry) : (mp.fsmDeleteDentry dentry).1.DirsCovered := by
  obtain ⟨-, hr⟩ | ⟨d, hget, hr⟩ := fsmDeleteDentry_cases mp dentry
  · rw [hr]
    exact h
  · rw [hr]
    have hkey : d.key = dentry.key := OrdTree.key_of_get? hget
    have hpar : d.parentId = dentry.parentId := (dentryKey_inj.mp hkey).1
    let mp₁ := { mp with dentryTree := mp.dentryTree.erase dentry.key }
    change DirsCovered (mp₁.updateInode dentry.parentId decParent key_decParent)
    intro ino
    have hcount : mp.children ino = mp₁.children ino + if d.parentId = ino then 1 else 0 := by
      simpa [children, mp₁] using countP_erase hget fun d => decide (d.parentId = ino)
    have hc := h ino
    have hch : (mp₁.updateInode dentry.parentId decParent key_decParent).children ino =
      mp₁.children ino := rfl
    rw [hch, inode?_updateInode]
    by_cases he : ino = dentry.parentId
    · subst he
      rw [if_pos hpar] at hcount
      have hsame : mp₁.inode? dentry.parentId = mp.inode? dentry.parentId := rfl
      rw [if_pos rfl, hsame]
      -- only an unmarked directory has a dentry to lose
      cases hi : mp.inode? dentry.parentId with
      | none =>
        rw [hi] at hc
        have hz : mp.children dentry.parentId = 0 := hc
        omega
      | some i =>
        rw [hi] at hc
        by_cases hdir : isDir i.type = true ∧ i.shouldDelete = false
        · have hle := hc.le_of_dir hdir.1 hdir.2
          have hdec := toNat_decNLink_dir hdir.1
          have hlt : 2 < i.nLink.toNat := by omega
          rw [if_pos hlt] at hdec
          unfold Covered
          rw [Option.map_some, decParent, if_neg (by simp [hdir.2])]
          dsimp only
          rw [type_decNLink, shouldDelete_decNLink, if_pos hdir, hdec]
          omega
        have hz : mp.children dentry.parentId = 0 := by
          unfold Covered at hc
          dsimp only at hc
          rwa [if_neg hdir] at hc
        omega
    rw [if_neg he]
    have hne : d.parentId ≠ ino := fun hd => he (hd.symm.trans hpar)
    rw [if_neg hne] at hcount
    rw [hcount] at hc
    exact hc

theorem DirsCovered.updateDentry (dentry : Dentry) : (mp.fsmUpdateDentry dentry).1.DirsCovered := by
  obtain ⟨-, hr⟩ | ⟨d, hget, hr⟩ := fsmUpdateDentry_cases mp dentry
  · rw [hr]
    exact h
  · rw [hr]
    intro ino
    let d' : Dentry := { d with inode := dentry.inode }
    have hget' : mp.dentryTree.get? d'.key = some d := by
      have hkey : d.key = dentry.key := key_of_get? hget
      rw [← hkey] at hget
      exact hget
    have hrep := countP_insert_replace hget' fun d => decide (d.parentId = ino)
    have hcount : (mp.dentryTree.insert d').items.countP (fun d => d.parentId = ino) =
      mp.children ino := Nat.add_right_cancel hrep
    have hc := h ino
    rw [← hcount] at hc
    exact hc

theorem DirsCovered.internalDelete {inos : List UInt64} (ha : ∀ ino ∈ inos, mp.children ino = 0) :
    (mp.internalDelete inos).DirsCovered := by
  unfold MetaPartition.internalDelete
  induction inos generalizing mp with
  | nil => exact h
  | cons ino inos ih =>
    rw [List.foldl_cons]
    apply ih
    · intro ino'
      rw [inode?_deleteInode]
      split
      next he => exact he ▸ ha ino (List.mem_cons_self ..)
      · exact h ino'
    · exact fun ino' hm => ha ino' (List.mem_cons_of_mem _ hm)

theorem DirsCovered.apply {cmd : Command} (ha : mp.KeepsDirs cmd) : (mp.apply cmd).DirsCovered := by
  cases cmd with
  | createInode ino => exact h.createInode ha
  | unlinkInode ino => exact h.unlinkInode ha
  | createDentry dentry => exact h.createDentry ha
  | deleteDentry dentry => exact h.deleteDentry dentry
  | updatePartition endId => exact h
  | extentsAdd ino => exact h.extents (fsmAppendExtents_step mp ino)
  | storeTick => exact h
  | updateDentry dentry => exact h.updateDentry dentry
  | extentTruncate ino => exact h.extents (fsmExtentsTruncate_step mp ino)
  | createLinkInode ino => exact h.createLinkInode ha
  | evictInode ino => exact h.evictInode ino
  | internalDeleteInode inos => exact h.internalDelete ha
  | setAttr req => exact h.setAttr ha

end

theorem dirsCovered_new (start endId : UInt64) : (new start endId).DirsCovered := by
  intro ino
  simp [Covered, new, inode?, children, empty, ObjTree.get?, ObjTree.empty, ObjTree.addr?, get?]

abbrev ReachedBy (allow : MetaPartition → Command → Prop) (start endId : UInt64) :
    MetaPartition → Prop :=
  Reach (fun mp cmd => some (mp.apply cmd)) allow (new start endId)

theorem dirsCovered_of_reachedBy {start endId : UInt64} (h : ReachedBy KeepsDirs start endId mp) :
    mp.DirsCovered := by
  refine h.invariant (dirsCovered_new start endId) ?_
  intro mp cmd mp' hc ha hs
  rw [← Option.some.inj hs]
  exact hc.apply ha

/-- A directory that goes has no dentries. -/
theorem no_dentries_of_destroys {start endId : UInt64} {mp : MetaPartition} {cmd : Command}
    {ino : UInt64} (h : ReachedBy KeepsDirs start endId mp) (ha : mp.KeepsDirs cmd)
    (hdest : mp.Destroys ino cmd) : ∀ d ∈ mp.dentryTree.items, d.parentId ≠ ino := by
  rw [← children_eq_zero_iff]
  have hcov := dirsCovered_of_reachedBy h
  have hafter := hcov.apply ha ino
  cases cmd with
  | unlinkInode c =>
    obtain ⟨rfl, -, hgone⟩ := hdest
    rw [hgone] at hafter
    obtain ⟨hr, -⟩ | ⟨p, i, mp', -, -, -, -, hok, hr⟩ := fsmUnlinkInode_cases mp c
    · have hsame : mp.apply (.unlinkInode c) = mp := by rw [apply, hr]
      rwa [hsame] at hafter
    · have hsame : (mp.apply (.unlinkInode c)).children c.inode = mp.children c.inode := by
        rw [apply, hr]
        cases hok <;> rfl
      rwa [hsame] at hafter
  | evictInode c =>
    obtain ⟨rfl, ⟨i, hi, -, hd⟩, j, hj, hm⟩ := hdest
    rw [hj] at hafter
    have hz : (mp.apply (.evictInode c)).children c.inode = 0 := by
        simpa [Covered, hm] using hafter
    obtain hr | ⟨i, -, -, -, hr⟩ := fsmEvictInode_cases mp c
    all_goals
      rw [apply, hr] at hz
      exact hz
  | _ => exact hdest.elim

/-- A new directory, as `CreateInode` puts it into the raft command. -/
def newDir (ino : UInt64) : Inode := InodeOf.new OrdTree.empty ino modeDir 0

/-- An empty directory is made and unlinked. -/
theorem no_dentries_of_destroys_newDir :
    let mp := (new 0 100).apply (.createInode (newDir 1))
    mp.Destroys 1 (.unlinkInode (newDir 1)) ∧ ∀ d ∈ mp.dentryTree.items, d.parentId ≠ 1 := by
  have hreach : ReachedBy KeepsDirs 0 100 ((new 0 100).apply (.createInode (newDir 1))) :=
    .next .start (by intro _; decide) rfl
  have hdest : ((new 0 100).apply (.createInode (newDir 1))).Destroys 1
      (.unlinkInode (newDir 1)) := ⟨rfl, ⟨_, rfl, by decide⟩, rfl⟩
  refine ⟨hdest, no_dentries_of_destroys hreach ?_ hdest⟩
  intro i hi _
  obtain rfl := Option.some.inj hi
  decide

/-- Directory 1 gets an entry, which gives it a third link; one unlink of it then takes the
directory away and leaves the entry. -/
theorem unlink_removes_dir_with_dentry :
    ∃ mp, ReachedBy (fun _ _ => True) 0 100 mp ∧ mp.Destroys 1 (.unlinkInode (newDir 1)) ∧
      ∃ d ∈ mp.dentryTree.items, d.parentId = 1 := by
  refine ⟨((new 0 100).apply (.createInode (newDir 1))).apply (.createDentry ⟨1, [97], 2, 0⟩),
    .next (.next .start trivial rfl) trivial rfl, ⟨rfl, ⟨_, rfl, by decide⟩, rfl⟩, ?_⟩
  exact ⟨⟨1, [97], 2, 0⟩, List.mem_cons_self .., rfl⟩

end ChubaoFS.MetaPartition
