import ChubaoFS.Namespace

namespace ChubaoFS

open Function MetaPartition Answer

variable {n : Nat} {f : InodeCell → InodeCell} {i : Option InodeCell} {ε : Type}
  {hf : ∀ i, (f i).key = i.key}

namespace InodeOf

theorem deleteMark_pos_iff {i : InodeOf ε} :
    i.flag &&& deleteMarkFlag > 0 ↔ i.shouldDelete = true := by
  have hcases : i.flag &&& deleteMarkFlag = 0 ∨ i.flag &&& deleteMarkFlag = deleteMarkFlag := by
    have hbit (b : BitVec 32) : b &&& 1#32 = 0#32 ∨ b &&& 1#32 = 1#32 := by
      rw [BitVec.and_one_eq_setWidth_ofBool_getLsbD]
      cases b.getLsbD 0
      · exact .inl (by decide)
      · exact .inr (by decide)
    obtain h | h := hbit i.flag.toBitVec
    · exact .inl (Int32.toBitVec.inj h)
    · exact .inr (Int32.toBitVec.inj h)
  unfold shouldDelete
  obtain h | h := hcases
  · rw [h]
    decide
  · rw [h]
    decide

theorem replyInfo_of_unmarked {i : InodeOf ε} (h : i.shouldDelete = false) :
    ∃ info, i.replyInfo = some info ∧ info.inode = i.inode ∧ info.mode = i.type ∧
      info.nlink = i.nLink := by
  unfold replyInfo
  rw [if_neg (by rw [deleteMark_pos_iff, h]; decide)]
  exact ⟨_, rfl, rfl, rfl, rfl⟩

end InodeOf

namespace Volume

def toNamespace (V : Volume n) : Namespace n := ⟨fun p => (V p).inode?, fun p => (V p).dentryTree⟩

def SameIds (V V' : Volume n) : Prop :=
  ∀ p, (V' p).start = (V p).start ∧ (V' p).endId = (V p).endId ∧ (V' p).cursor = (V p).cursor

variable {V : Volume n} {p : Fin n} {mp : MetaPartition}

theorem sameIds_update
    (h : mp.start = (V p).start ∧ mp.endId = (V p).endId ∧ mp.cursor = (V p).cursor) :
    V.SameIds (update V p mp) := by
  intro q
  by_cases hq : q = p
  · subst hq
    rw [update_self]
    exact h
  · rw [update_of_ne hq]
    exact ⟨rfl, rfl, rfl⟩

theorem toNamespace_update {s : Namespace n}
    (hnode : ∀ q x, s.node q x = if q = p then mp.inode? x else (V q).inode? x)
    (hdents : ∀ q, s.dents q = if q = p then mp.dentryTree else (V q).dentryTree) :
    toNamespace (update V p mp) = s := by
  have hn : (fun q => (update V p mp q).inode?) = s.node := by
    funext q x
    rw [hnode]
    by_cases hq : q = p
    · subst hq
      rw [update_self, if_pos rfl]
    · rw [update_of_ne hq, if_neg hq]
  have hd : (fun q => (update V p mp q).dentryTree) = s.dents := by
    funext q
    rw [hdents]
    by_cases hq : q = p
    · subst hq
      rw [update_self, if_pos rfl]
    · rw [update_of_ne hq, if_neg hq]
  unfold toNamespace
  rw [hn, hd]

variable {ino : UInt64}

section

variable (hnode : ∀ x, mp.inode? x = if x = ino then i else (V p).inode? x)
include hnode

theorem toNamespace_update_both :
    toNamespace (update V p mp) = (V.toNamespace.setDents p mp.dentryTree).setNode p ino i := by
  apply toNamespace_update
  · intro q x
    rw [Namespace.node_setNode]
    by_cases hq : q = p
    · subst hq
      rw [if_pos rfl, hnode]
      simp only [true_and]
      rfl
    · rw [if_neg hq, if_neg fun h => hq h.1]
      rfl
  · exact fun q => rfl

theorem toNamespace_update_node (hdents : mp.dentryTree = (V p).dentryTree) :
    toNamespace (update V p mp) = V.toNamespace.setNode p ino i := by
  rw [toNamespace_update_both hnode, hdents]
  exact congrArg (fun s => Namespace.setNode s p ino i) (Namespace.setDents_eq_self rfl)

end

variable {i : InodeCell}

theorem inode?_updateInode_of (hi : mp.inode? ino = some i) (x : UInt64) :
    (mp.updateInode ino f hf).inode? x = if x = ino then some (f i) else mp.inode? x := by
  rw [inode?_updateInode]
  split
  next hx => rw [hx, hi, Option.map_some]
  · rfl

theorem toNamespace_updateInode (hi : (V p).inode? ino = some i) :
    toNamespace (update V p ((V p).updateInode ino f hf)) =
      V.toNamespace.setNode p ino (some (f i)) :=
  toNamespace_update_node (inode?_updateInode_of hi) rfl

theorem serve_ilink (V : Volume n) (now : Int64) (p : Fin n) (ino : UInt64) :
    (∃ status, V.serve now (.ilink p ino) = (V, .refused status) ∧
      ∀ i, V.toNamespace.node p ino = some i → i.shouldDelete = true) ∨
    (∃ i V' info, V.toNamespace.node p ino = some i ∧ i.shouldDelete = false ∧
      V.serve now (.ilink p ino) = (V', .ok info) ∧ info.mode = i.type ∧
      V'.toNamespace = V.toNamespace.setNode p ino (some i.incNLink) ∧ V.SameIds V') := by
  obtain ⟨hr, hm⟩ | ⟨i, hi, hd, hr⟩ := (V p).fsmCreateLinkInode_cases (reqInode now ino)
  · refine .inl ⟨.noent, ?_, hm⟩
    simp [serve, put, createInodeLink, hr, parseStatus]
  · obtain ⟨info, hinfo, -, hmode, -⟩ :=
      InodeOf.replyInfo_of_unmarked (i.shouldDelete_incNLink.trans hd)
    refine .inr ⟨i, update V p ((V p).updateInode ino InodeOf.incNLink
      InodeOf.key_incNLink), info, hi, hd, ?_, hmode, toNamespace_updateInode hi,
      sameIds_update ⟨rfl, rfl, rfl⟩⟩
    simp only [serve, put, createInodeLink, hr, Option.bind_some, hinfo, parseStatus]
    rfl

def afterUnlink (t : Int64) (i : InodeCell) : Option InodeCell :=
  if isDir i.type = true ∧ (i.unlink t).nLink.toNat = 2 then none else some (i.unlink t)

theorem toNamespace_unlinkOk {now : Int64} {a : Nat} {mp' : MetaPartition}
    (hi : (V p).inode? ino = some i) (hok : (V p).UnlinkOk (reqInode now ino) a i mp') :
    toNamespace (update V p mp') = V.toNamespace.setNode p ino (afterUnlink now i) := by
  have hupd (x : UInt64) : ((V p).updateInode ino (InodeOf.unlink now)
      (InodeOf.key_unlink now)).inode? x =
      if x = ino then some (i.unlink now) else (V p).inode? x :=
    inode?_updateInode_of hi x
  unfold afterUnlink
  cases hok with
  | file hfile _ | freed hfile _ =>
    rw [if_neg (by simp [hfile])]
    exact toNamespace_update_node hupd rfl
  | dir hdir hne =>
    rw [if_neg fun h => hne h.2]
    exact toNamespace_update_node hupd rfl
  | removed hdir h2 =>
    rw [if_pos ⟨hdir, h2⟩]
    refine toNamespace_update_node ?_ rfl
    intro x
    rw [inode?_deleteInode]
    split
    next hx => exact (if_pos hx).symm
    next hx => exact (hupd x).trans ((if_neg hx).trans (if_neg hx).symm)

variable (V : Volume n)

theorem serve_iunlink (now : Int64) (p : Fin n) (ino : UInt64) :
    (∃ status, V.serve now (.iunlink p ino) = (V, .refused status) ∧
      ∀ i, V.toNamespace.node p ino = some i → i.shouldDelete = true) ∨
    (∃ i V' info, V.toNamespace.node p ino = some i ∧ i.shouldDelete = false ∧
      V.serve now (.iunlink p ino) = (V', .ok info) ∧
      V'.toNamespace = V.toNamespace.setNode p ino (afterUnlink now i) ∧ V.SameIds V') := by
  obtain ⟨hr, hm⟩ | ⟨a, i, mp', -, -, hi, hd, hok, hr⟩ :=
    (V p).fsmUnlinkInode_cases (reqInode now ino)
  · refine .inl ⟨.noent, ?_, hm⟩
    simp [serve, put, unlinkInode, hr, parseStatus]
  · refine .inr ⟨i, update V p mp', ((i.unlink now).replyInfo).getD default, hi, hd, ?_,
      toNamespace_unlinkOk hi hok, sameIds_update ?_⟩
    · simp only [serve, put, unlinkInode, hr, Option.bind_some, parseStatus]
      rfl
    · cases hok <;> exact ⟨rfl, rfl, rfl⟩

theorem sameIds_refl : V.SameIds V := fun _ => ⟨rfl, rfl, rfl⟩

variable (now : Int64) (p : Fin n)

theorem serve_ievict (ino : UInt64) :
    ∃ V', (V.serve now (.ievict p ino)).1 = V' ∧ V.SameIds V' ∧ (V'.toNamespace = V.toNamespace ∨
        ∃ i, V.toNamespace.node p ino = some i ∧ i.shouldDelete = false ∧
          i.nLink.toNat = (if isDir i.type then 2 else 0) ∧
          V'.toNamespace = V.toNamespace.setNode p ino (some i.setDeleteMark)) := by
  have hV : (V.serve now (.ievict p ino)).1 =
    update V p ((V p).fsmEvictInode (reqInode now ino)).1 := rfl
  rw [hV]
  refine ⟨_, rfl, ?_⟩
  obtain hr | ⟨i, hi, hd, hn, hr⟩ := (V p).fsmEvictInode_cases (reqInode now ino)
  · rw [hr, update_eq_self]
    exact ⟨sameIds_refl V, .inl rfl⟩
  · rw [hr]
    exact ⟨sameIds_update ⟨rfl, rfl, rfl⟩, .inr ⟨i, hi, hd, hn, toNamespace_updateInode hi⟩⟩

theorem serve_iget (ino : UInt64) :
    ∃ V', (V.serve now (.iget p ino)).1 = V' ∧ V.SameIds V' ∧ (V'.toNamespace = V.toNamespace ∨
        ∃ i, V.toNamespace.node p ino = some i ∧
          V'.toNamespace = V.toNamespace.setNode p ino (some (i.touch now))) := by
  have hV : (V.serve now (.iget p ino)).1 = update V p ((V p).getInode now ino).1 := by
    simp only [serve, put, inodeGet]
    split <;> rfl
  rw [hV]
  refine ⟨_, rfl, ?_⟩
  unfold getInode
  cases hi : (V p).inode? ino with
  | none =>
    dsimp only
    rw [update_eq_self]
    exact ⟨sameIds_refl V, .inl rfl⟩
  | some i =>
    dsimp only
    split
    · rw [update_eq_self]
      exact ⟨sameIds_refl V, .inl rfl⟩
    · exact ⟨sameIds_update ⟨rfl, rfl, rfl⟩, .inr ⟨i, hi, toNamespace_updateInode hi⟩⟩

section

variable (parentID : UInt64) (name : Bytes)

theorem serve_lookup : (V.toNamespace.dentryAt? p parentID name = none ∧
      V.serve now (.lookup p parentID name) = (V, .refused .noent)) ∨
    (∃ d, V.toNamespace.dentryAt? p parentID name = some d ∧
      V.serve now (.lookup p parentID name) = (V, .ok (d.inode, d.type))) := by
  have hkey : (⟨parentID, name, 0, 0⟩ : Dentry).key = dentryKey parentID name := rfl
  have hdent : V.toNamespace.dentryAt? p parentID name =
    (V p).dentryTree.get? (dentryKey parentID name) := rfl
  simp only [serve, lookup, getDentry, hkey, hdent]
  cases (V p).dentryTree.get? (dentryKey parentID name) with
  | none => exact .inl ⟨rfl, rfl⟩
  | some d => exact .inr ⟨d, rfl, rfl⟩

theorem serve_dcreate (inode : UInt64) (mode : UInt32) :
    (∃ status, V.serve now (.dcreate p parentID name inode mode) = (V, .refused status) ∧
      (status = .exist ↔ parentID = inode ∨ (V p).DentryExists ⟨parentID, name, inode, mode⟩)) ∨
    (∃ i V', parentID ≠ inode ∧ V.toNamespace.node p parentID = some i ∧ i.shouldDelete = false ∧
      isDir i.type = true ∧ V.toNamespace.dentryAt? p parentID name = none ∧
      V.serve now (.dcreate p parentID name inode mode) = (V', .ok ()) ∧
      V'.toNamespace = (V.toNamespace.setDents p
        ((V.toNamespace.dents p).insert ⟨parentID, name, inode, mode⟩)).setNode p parentID
          (some i.incNLink) ∧ V.SameIds V') := by
  let dentry : Dentry := ⟨parentID, name, inode, mode⟩
  have hserve : V.serve now (.dcreate p parentID name inode mode) =
    V.put p (((V p).createDentry dentry).1, ((V p).createDentry dentry).2, ()) := rfl
  by_cases heq : parentID = inode
  · refine .inl ⟨.exist, ?_, by simp [heq]⟩
    rw [hserve, createDentry, if_pos heq]
    simp [put, parseStatus]
  have hexist := (V p).fsmCreateDentry_exist_iff dentry
  have hcreate : (V p).createDentry dentry = (V p).fsmCreateDentry dentry := if_neg heq
  rw [hserve, hcreate]
  obtain ⟨code, hne, hr⟩ | ⟨i, hi, hd, hdir, hnew, hr⟩ := (V p).fsmCreateDentry_cases dentry
  · rw [hr] at hexist
    have hput : V.put p (V p, code, ()) = (V, parseStatus () code) := by
      rw [put, update_eq_self]
    rw [hr, hput]
    cases code with
    | opOk => exact absurd rfl hne
    | opExistErr => exact .inl ⟨.exist, rfl, by simpa [heq] using hexist⟩
    | opNotExistErr => exact .inl ⟨.noent, rfl, by simpa [heq] using hexist⟩
    | opArgMismatchErr => exact .inl ⟨.inval, rfl, by simpa [heq] using hexist⟩
    | opInodeFullErr => exact .inl ⟨.full, rfl, by simpa [heq] using hexist⟩
    | opAgain => exact .inl ⟨.again, rfl, by simpa [heq] using hexist⟩
    | opErr => exact .inl ⟨.error, rfl, by simpa [heq] using hexist⟩
  · rw [hr]
    have hi' : inode? { V p with dentryTree := (V p).dentryTree.insert dentry }
      parentID = some i := hi
    exact .inr ⟨i, _, heq, hi, hd, hdir, hnew, rfl,
      toNamespace_update_both (inode?_updateInode_of hi'), sameIds_update ⟨rfl, rfl, rfl⟩⟩

theorem serve_ddelete : (V.toNamespace.dentryAt? p parentID name = none ∧
      V.serve now (.ddelete p parentID name) = (V, .refused .noent)) ∨
    (∃ d V', V.toNamespace.dentryAt? p parentID name = some d ∧
      V.serve now (.ddelete p parentID name) = (V', .ok d.inode) ∧
      V'.toNamespace = (V.toNamespace.setDents p
        ((V.toNamespace.dents p).erase (dentryKey parentID name))).setNode p parentID
          ((V.toNamespace.node p parentID).map decParent) ∧ V.SameIds V') := by
  obtain ⟨hget, hr⟩ | ⟨d, hget, hr⟩ := (V p).fsmDeleteDentry_cases ⟨parentID, name, 0, 0⟩
  · refine .inl ⟨hget, ?_⟩
    simp [serve, put, deleteDentry, hr, parseStatus]
  · refine .inr ⟨d, update V p ((V p).fsmDeleteDentry ⟨parentID, name, 0, 0⟩).1, hget, ?_, ?_, ?_⟩
    · simp [serve, put, deleteDentry, hr, parseStatus]
    · rw [hr]
      refine toNamespace_update_both ?_
      intro x
      rw [inode?_updateInode]
      split
      next hx => rw [hx]; rfl
      · rfl
    · rw [hr]
      exact sameIds_update ⟨rfl, rfl, rfl⟩

theorem serve_dupdate (newInode : UInt64) :
    (∃ status, V.serve now (.dupdate p parentID name newInode) = (V, .refused status) ∧
      (parentID = newInode ∨ V.toNamespace.dentryAt? p parentID name = none)) ∨
    (∃ d V', parentID ≠ newInode ∧ V.toNamespace.dentryAt? p parentID name = some d ∧
      V.serve now (.dupdate p parentID name newInode) = (V', .ok d.inode) ∧
      V'.toNamespace = V.toNamespace.setDents p
        ((V.toNamespace.dents p).insert { d with inode := newInode }) ∧ V.SameIds V') := by
  have hserve : V.serve now (.dupdate p parentID name newInode) =
    V.put p ((V p).updateDentry parentID name newInode) := rfl
  rw [hserve, updateDentry]
  by_cases heq : parentID = newInode
  · refine .inl ⟨.exist, ?_, .inl heq⟩
    rw [if_pos heq]
    simp [put, parseStatus]
  rw [if_neg heq]
  obtain ⟨hget, hr⟩ | ⟨d, hget, hr⟩ := (V p).fsmUpdateDentry_cases ⟨parentID, name, newInode, 0⟩
  · refine .inl ⟨.noent, ?_, .inr hget⟩
    rw [hr]
    simp [put, parseStatus]
  · refine .inr ⟨d, update V p
      ((V p).fsmUpdateDentry ⟨parentID, name, newInode, 0⟩).1, heq, hget, ?_, ?_, ?_⟩
    · rw [hr]
      rfl
    · rw [hr]
      exact toNamespace_update (fun q x => by
        split
        next hq => rw [hq]; rfl
        · rfl) fun q => rfl
    · rw [hr]
      exact sameIds_update ⟨rfl, rfl, rfl⟩

end

theorem serve_icreate (mode uid gid : UInt32) (target : Bytes) :
    (∃ V' status, V.serve now (.icreate p mode uid gid target) = (V', .refused status) ∧
      V'.toNamespace = V.toNamespace ∧ ∀ q, (V' q).start = (V q).start ∧
        (V' q).endId = (V q).endId ∧ (V q).cursor ≤ (V' q).cursor) ∨
    (∃ V' info i, V.serve now (.icreate p mode uid gid target) = (V', .ok info) ∧
      (V p).cursor < (V p).endId ∧ info.inode = (V p).cursor + 1 ∧
      V.toNamespace.node p info.inode = none ∧
      i.type = mode ∧ i.shouldDelete = false ∧ i.nLink = (if isDir mode then 2 else 1) ∧
      V'.toNamespace = V.toNamespace.setNode p info.inode (some i) ∧
      ∀ q, (V' q).start = (V q).start ∧ (V' q).endId = (V q).endId ∧
        (V' q).cursor = if q = p then info.inode else (V q).cursor) := by
  have hserve : V.serve now (.icreate p mode uid gid target) =
    V.put p ((V p).createInode now mode uid gid target) := rfl
  rw [hserve]
  unfold MetaPartition.createInode MetaPartition.nextInodeID
  by_cases hfull : (V p).cursor ≥ (V p).endId
  · refine .inl ⟨V, .full, ?_, rfl, fun q => ⟨rfl, rfl, UInt64.le_refl _⟩⟩
    rw [if_pos hfull]
    simp [put, parseStatus]
  have hlt : (V p).cursor < (V p).endId := UInt64.not_le.mp hfull
  have hmono : (V p).cursor ≤ (V p).cursor + 1 := by
    rw [UInt64.le_iff_toNat_le]
    have hnat : (V p).cursor.toNat < (V p).endId.toNat := UInt64.lt_iff_toNat_lt.mp hlt
    have hend := (V p).endId.toNat_lt
    rw [UInt64.toNat_add]
    have h1 : (1 : UInt64).toNat = 1 := rfl
    omega
  rw [if_neg hfull]
  dsimp only
  let ino := MetaPartition.newInode now ((V p).cursor + 1) mode uid gid target
  let mp₁ : MetaPartition := { V p with cursor := (V p).cursor + 1 }
  have hcur : (if mp₁.cursor < ino.inode then ino.inode else mp₁.cursor) = mp₁.cursor :=
    if_neg (UInt64.lt_irrefl _)
  have happ : mp₁.applyCreateInode ino = mp₁.fsmCreateInode ino := by
    unfold MetaPartition.applyCreateInode
    rw [hcur]
  have hunmarked : ino.shouldDelete = false := by
    change ((0 : Int32) &&& InodeOf.deleteMarkFlag == InodeOf.deleteMarkFlag) = false
    decide
  obtain ⟨info, hinfo, hid, -, -⟩ := InodeOf.replyInfo_of_unmarked hunmarked
  replace hid : info.inode = (V p).cursor + 1 := hid
  obtain ⟨i, -, hr⟩ | ⟨hn, hr⟩ := mp₁.fsmCreateInode_cases ino
  · refine .inl ⟨Function.update V p mp₁, .noent, ?_, ?_, ?_⟩
    · simp only [mp₁, ino] at happ hr
      simp [put, happ, hr, parseStatus, mp₁]
    · exact toNamespace_update (fun q x => by
        split
        next hq => rw [hq]; rfl
        · rfl) fun q => by
        split
        next hq => rw [hq]; rfl
        · rfl
    · intro q
      by_cases hq : q = p
      · subst hq
        rw [Function.update_self]
        exact ⟨rfl, rfl, hmono⟩
      · rw [Function.update_of_ne hq]
        exact ⟨rfl, rfl, UInt64.le_refl _⟩
  · refine .inr ⟨Function.update V p (mp₁.fsmCreateInode ino).1, info,
      (MetaPartition.load mp₁.exts ino).2, ?_, hlt, hid, ?_, rfl, hunmarked, rfl, ?_, ?_⟩
    · simp only [mp₁, ino] at happ hr hinfo ⊢
      simp [put, happ, hr, hinfo, parseStatus]
    · rw [hid]
      exact hn
    · rw [hr, hid]
      refine toNamespace_update_node ?_ rfl
      intro x
      rw [MetaPartition.inode?_insertInode]
      rfl
    · intro q
      rw [hr, hid]
      by_cases hq : q = p
      · subst hq
        rw [Function.update_self, if_pos rfl]
        exact ⟨rfl, rfl, rfl⟩
      · rw [Function.update_of_ne hq, if_neg hq]
        exact ⟨rfl, rfl, rfl⟩

end Volume
end ChubaoFS
