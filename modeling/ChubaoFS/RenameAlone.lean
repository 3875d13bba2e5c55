import ChubaoFS.ConcurrentClients

namespace ChubaoFS

open OrdTree MetaPartition InodeOf Option Volume
open Prod (snd)

variable {n : Nat} {mw : MetaWrapper n} {V V' : Volume n} {s : Namespace n} {i : InodeCell}
  {e : Dentry} {t : Int64} {α : Type}

namespace Namespace

def unlinked (t : Int64) (p : Fin n) (ino : UInt64) (s : Namespace n) : Namespace n :=
  match s.node p ino with
  | none => s
  | some i => if i.shouldDelete then s else s.setNode p ino (Volume.afterUnlink t i)

def withoutDentry (p : Fin n) (parentID : UInt64) (name : Bytes) (s : Namespace n) : Namespace n :=
  (s.setDents p ((s.dents p).erase (dentryKey parentID name))).setNode p parentID
    ((s.node p parentID).map MetaPartition.decParent)

/-- Put a dentry into a directory `i`. -/
def withDentry (p : Fin n) (d : Dentry) (i : InodeCell) (s : Namespace n) : Namespace n :=
  (s.setDents p ((s.dents p).insert d)).setNode p d.parentId (some i.incNLink)

def withTarget (p : Fin n) (d : Dentry) (ino : UInt64) (s : Namespace n) : Namespace n :=
  s.setDents p ((s.dents p).insert { d with inode := ino })

@[simp] theorem dents_unlinked (t : Int64) (p : Fin n) (ino : UInt64) (s : Namespace n) :
    (s.unlinked t p ino).dents = s.dents := by
  unfold unlinked
  split
  · rfl
  · split <;> rfl

variable {p : Fin n}

theorem node_unlinked_of_ne (t : Int64) {q : Fin n} {ino x : UInt64} (h : ¬ (q = p ∧ x = ino))
    (s : Namespace n) : (s.unlinked t p ino).node q x = s.node q x := by
  unfold unlinked
  split
  · rfl
  split
  · rfl
  · rw [node_setNode, if_neg h]

theorem node_unlinked_self {ino : UInt64}
    (hi : s.node p ino = some i) (hd : i.shouldDelete = false) :
    (s.unlinked t p ino).node p ino = afterUnlink t i := by
  unfold unlinked
  rw [hi]
  dsimp only
  rw [if_neg (by rw [hd]; decide), node_setNode_self]

@[simp] theorem dentryAt?_unlinked (t : Int64) (p q : Fin n) (ino parentID : UInt64) (name : Bytes)
    (s : Namespace n) : (s.unlinked t p ino).dentryAt? q parentID name =
    s.dentryAt? q parentID name := by
  unfold dentryAt?
  rw [dents_unlinked]

section

variable (s : Namespace n)

theorem dentryAt?_setDents_insert (p q : Fin n) (d : Dentry) (parentID : UInt64)
    (name : Bytes) : (s.setDents p ((s.dents p).insert d)).dentryAt? q parentID name =
      if q = p ∧ parentID = d.parentId ∧ name = d.name then some d
      else s.dentryAt? q parentID name := by
  unfold dentryAt?
  rw [dents_setDents]
  by_cases hq : q = p
  · subst hq
    have hkey : dentryKey parentID name = d.key ↔ parentID = d.parentId ∧ name = d.name :=
      dentryKey_inj
    rw [if_pos rfl, get?_insert]
    simp only [hkey, true_and]
  · rw [if_neg hq, if_neg fun h => hq h.1]

theorem dentryAt?_withoutDentry (p q : Fin n) (parentID parentID' : UInt64)
    (name name' : Bytes) : (s.withoutDentry p parentID name).dentryAt? q parentID' name' =
      if q = p ∧ parentID' = parentID ∧ name' = name then none
      else s.dentryAt? q parentID' name' := by
  unfold dentryAt? withoutDentry
  rw [dents_setNode, dents_setDents]
  by_cases hq : q = p
  · subst hq
    rw [if_pos rfl, get?_erase]
    simp only [dentryKey_inj, true_and]
  · rw [if_neg hq, if_neg fun h => hq h.1]

theorem node_withoutDentry (p q : Fin n) (parentID x : UInt64) (name : Bytes) :
    (s.withoutDentry p parentID name).node q x =
      if q = p ∧ x = parentID then (s.node p parentID).map decParent else s.node q x := rfl

end

theorem children_pos_of_mem {d : Dentry} (h : d ∈ (s.dents p).items) :
    0 < s.children d.parentId := by
  have hle : (s.dents p).items.countP (fun e => e.parentId = d.parentId) ≤ s.children d.parentId :=
    Finset.single_le_sum (f := fun q => (s.dents q).items.countP fun e => e.parentId = d.parentId)
      (fun _ _ => Nat.zero_le _) (Finset.mem_univ p)
  have hpos : 0 < (s.dents p).items.countP fun e => e.parentId = d.parentId :=
    List.countP_pos_iff.mpr ⟨d, h, by simp⟩
  omega

end Namespace

theorem Volume.toNamespace_serve_iunlink (V : Volume n) (now : Int64) (p : Fin n) (ino : UInt64) :
    (V.serve now (.iunlink p ino)).1.toNamespace = V.toNamespace.unlinked now p ino := by
  unfold Namespace.unlinked
  obtain ⟨status, hr, hm⟩ | ⟨i, V', info, hi, hd, hr, hns, -⟩ := V.serve_iunlink now p ino
  · rw [hr]
    cases hi : V.toNamespace.node p ino with
    | none => rfl
    | some i =>
      dsimp only
      rw [if_pos (hm i hi)]
  · rw [hr, hi, hns]
    dsimp only
    rw [if_neg (by rw [hd]; decide)]

/-- An operation run with nobody else at work; `clock i` is the time of its call `i`. -/
def runAlone {α : Type} (clock : ℕ → Int64) (p : Client n α) (i : ℕ) (V : Volume n) :
    Volume n × α :=
  p.run (fun i _ r V => V.serve (clock i) r) i V

theorem runAlone_call (clock : ℕ → Int64) (note : Note) (r : Request n)
    (k : Answer r.Body → Client n α) (i : ℕ) (V : Volume n) : runAlone clock (.call note r k) i V =
      runAlone clock (k (V.serve (clock i) r).2) (i + 1) (V.serve (clock i) r).1 := rfl

namespace MetaWrapper

def dropOld (mw : MetaWrapper n) (t : Int64) (oldInode : UInt64) (s : Namespace n) : Namespace n :=
  if oldInode = 0 then s
  else
    match mw.getPartitionByInode oldInode with
    | none => s
    | some p => s.unlinked t p oldInode

theorem dropLink_ne_ok (x : Renaming n) (err : Errno) (clock : ℕ → Int64) (i : ℕ) (V : Volume n) :
    (runAlone clock (dropLink x err) i V).2 ≠ .ok none := by
  unfold dropLink
  rw [runAlone_call]
  exact nofun

theorem restoreDst_ne_ok (x : Renaming n) (old : UInt64) (err : Errno) (clock : ℕ → Int64) (i : ℕ)
    (V : Volume n) : (runAlone clock (restoreDst x old err) i V).2 ≠ .ok none := by
  have hafter (a : Answer UInt64) (i : ℕ) (V : Volume n) :
      (runAlone clock (afterRestore x err a) i V).2 ≠ .ok none := by
    cases a with
    | ok ino => exact dropLink_ne_ok x err clock i V
    | refused status | failed => exact nofun
  unfold restoreDst Client.dupdate
  split
  · exact hafter _ _ _
  split
  all_goals exact hafter _ _ _

variable {clock : ℕ → Int64} {i : ℕ}

theorem deleteSrc_ok {x : Renaming n} {old : UInt64}
    (hr : runAlone clock (mw.deleteSrc x old) i V = (V', .ok none)) :
    (∃ d, V.toNamespace.dentryAt? x.srcParentMP x.srcParentID x.srcName = some d) ∧
      V'.toNamespace = mw.dropOld (clock (i + 2)) old
        ((V.toNamespace.withoutDentry x.srcParentMP x.srcParentID x.srcName).unlinked
          (clock (i + 1)) x.srcMP x.inode) := by
  unfold deleteSrc at hr
  rw [runAlone_call] at hr
  obtain ⟨-, hs⟩ | ⟨d, V₁, hget, hs, hns, -⟩ :=
    V.serve_ddelete (clock i) x.srcParentMP x.srcParentID x.srcName
  · rw [hs] at hr
    exact absurd (congrArg snd hr) (restoreDst_ne_ok x old _ clock _ _)
  · rw [hs] at hr
    dsimp only at hr
    rw [runAlone_call] at hr
    refine ⟨⟨d, hget⟩, ?_⟩
    have hdel : V₁.toNamespace =
      V.toNamespace.withoutDentry x.srcParentMP x.srcParentID x.srcName := hns
    have hdrop := V₁.toNamespace_serve_iunlink (clock (i + 1)) x.srcMP x.inode
    rw [hdel] at hdrop
    unfold dropOld
    split at hr
    next hz =>
      rw [if_pos hz, ← hdrop]
      exact congrArg (fun r => r.1.toNamespace) hr.symm
    rename_i hz
    rw [if_neg hz]
    cases hp : mw.getPartitionByInode old with
    | none =>
      rw [hp] at hr
      rw [← hdrop]
      exact congrArg (fun r => r.1.toNamespace) hr.symm
    | some p =>
      rw [hp] at hr
      rw [← hdrop]
      dsimp only
      rw [← toNamespace_serve_iunlink]
      exact congrArg (fun r => r.1.toNamespace) hr.symm

/-- The destination names the inode: as a new dentry, or in the place of `old` in a dentry of the
same type that was there. -/
inductive DstSet (s : Namespace n) (Q : Fin n) (dstParentID : UInt64) (dstName : Bytes)
    (inode : UInt64) (mode : UInt32) : Namespace n → UInt64 → Prop
  | created {k : InodeCell} : dstParentID ≠ inode → s.node Q dstParentID = some k →
      s.dentryAt? Q dstParentID dstName = none →
      DstSet s Q dstParentID dstName inode mode
        (s.withDentry Q ⟨dstParentID, dstName, inode, mode⟩ k) 0
  | updated {e : Dentry} : dstParentID ≠ inode → isRegular mode = true →
      s.dentryAt? Q dstParentID dstName = some e → e.type = mode →
      DstSet s Q dstParentID dstName inode mode (s.withTarget Q e inode) e.inode

theorem createDst_ok {x : Renaming n} (hr : runAlone clock (mw.createDst x) i V = (V', .ok none)) :
    ∃ s₂ old t₁ t₂,
      DstSet V.toNamespace x.dstParentMP x.dstParentID x.dstName x.inode x.mode s₂ old ∧
      (∃ d, s₂.dentryAt? x.srcParentMP x.srcParentID x.srcName = some d) ∧
      V'.toNamespace = mw.dropOld t₂ old
        ((s₂.withoutDentry x.srcParentMP x.srcParentID x.srcName).unlinked t₁ x.srcMP x.inode) := by
  unfold createDst Client.dcreate at hr
  by_cases hself : x.dstParentID = x.inode
  · -- both checks for a dentry that names its parent end in an error
    rw [if_pos hself] at hr
    unfold Client.dupdate at hr
    rw [if_pos hself] at hr
    dsimp only at hr
    split at hr <;> exact absurd (congrArg snd hr) (dropLink_ne_ok x _ clock _ _)
  rw [if_neg hself, runAlone_call] at hr
  obtain ⟨status, hs, hexist⟩ | ⟨k, V₁, -, hk, -, -, hnew, hs, hns, -⟩ :=
    V.serve_dcreate (clock i) x.dstParentMP x.dstParentID x.dstName x.inode x.mode
  · rw [hs] at hr
    dsimp only at hr
    split at hr
    next hreg =>
      unfold Client.dupdate at hr
      rw [if_neg hself, runAlone_call] at hr
      obtain ⟨status', hs', -⟩ | ⟨e, V₁, -, hget, hs', hns, -⟩ :=
        V.serve_dupdate (clock (i + 1)) x.dstParentMP x.dstParentID x.dstName x.inode
      · rw [hs'] at hr
        exact absurd (congrArg snd hr) (dropLink_ne_ok x _ clock _ _)
      · rw [hs'] at hr
        obtain ⟨hsrc, hV'⟩ := deleteSrc_ok hr
        have htype : e.type = x.mode := by
          obtain hc | ⟨-, e', -, -, -, hget', ht⟩ := hexist.mp hreg.1
          · exact absurd hc hself
          · obtain rfl : e = e' := some.inj (hget.symm.trans hget')
            exact ht
        have hset : V₁.toNamespace = V.toNamespace.withTarget x.dstParentMP e x.inode := hns
        rw [hset] at hsrc hV'
        exact ⟨_, e.inode, _, _, .updated hself hreg.2 hget htype, hsrc, hV'⟩
    · exact absurd (congrArg snd hr) (dropLink_ne_ok x _ clock _ _)
  · rw [hs] at hr
    obtain ⟨hsrc, hV'⟩ := deleteSrc_ok hr
    have hset : V₁.toNamespace = V.toNamespace.withDentry x.dstParentMP
      ⟨x.dstParentID, x.dstName, x.inode, x.mode⟩ k := hns
    rw [hset] at hsrc hV'
    exact ⟨_, 0, _, _, .created hself hk hnew, hsrc, hV'⟩

theorem renameLl_ok {sp dp : UInt64} {sn dn : Bytes}
    (hr : runAlone clock (mw.renameLl sp sn dp dn) 0 V = (V', .ok none)) : ∃ P Q q d i s₂ old t₁ t₂,
      mw.getPartitionByInode sp = some P ∧ mw.getPartitionByInode dp = some Q ∧
      V.toNamespace.dentryAt? P sp sn = some d ∧ mw.getPartitionByInode d.inode = some q ∧
      V.toNamespace.node q d.inode = some i ∧ i.shouldDelete = false ∧
      DstSet (V.toNamespace.setNode q d.inode (some i.incNLink)) Q dp dn d.inode d.type s₂ old ∧
      (∃ d', s₂.dentryAt? P sp sn = some d') ∧
      V'.toNamespace = mw.dropOld t₂ old ((s₂.withoutDentry P sp sn).unlinked t₁ q d.inode) := by
  unfold renameLl at hr
  split at hr
  · cases congrArg snd hr
  rename_i P hP
  split at hr
  · cases congrArg snd hr
  rename_i Q hQ
  rw [runAlone_call] at hr
  obtain ⟨-, hs⟩ | ⟨d, hget, hs⟩ := V.serve_lookup (clock 0) P sp sn
  · rw [hs] at hr
    cases congrArg snd hr
  · rw [hs] at hr
    dsimp only at hr
    split at hr
    · cases congrArg snd hr
    rename_i q hq
    rw [runAlone_call] at hr
    obtain ⟨status, hs', -⟩ | ⟨i, V₁, info, hi, hd, hs', -, hns, -⟩ :=
      V.serve_ilink (clock (0 + 1)) q d.inode
    · rw [hs'] at hr
      cases congrArg snd hr
    · rw [hs'] at hr
      obtain ⟨s₂, old, t₁, t₂, hset, hsrc, hV'⟩ := createDst_ok hr
      rw [hns] at hset
      exact ⟨P, Q, q, d, i, s₂, old, t₁, t₂, hP, hQ, hget, hq, hi, hd, hset, hsrc, hV'⟩

end MetaWrapper

theorem afterUnlink_incNLink (hdir : isDir i.type = true → 2 ≤ i.nLink.toNat) :
    (∃ i', afterUnlink t i.incNLink = some i' ∧ i'.nLink = i.nLink) ↔
      ¬ (isDir i.type = true ∧ i.nLink.toNat = 2) ∧ i.nLink.toNat + 1 < 2 ^ 32 := by
  have hlt : i.nLink.toNat < 2 ^ 32 := i.nLink.toNat_lt
  have hinc := toNat_incNLink_mod (i := i)
  have hsome : (∃ i', afterUnlink t i.incNLink = some i' ∧ i'.nLink = i.nLink) ↔
      ¬ (isDir i.type = true ∧ (i.incNLink.unlink t).nLink.toNat = 2) ∧
        (i.incNLink.unlink t).nLink.toNat = i.nLink.toNat := by
    unfold afterUnlink
    rw [type_incNLink]
    split
    next hc => simp [hc]
    next hc => simp [hc, ← UInt32.toNat_inj]
  rw [hsome]
  by_cases hd : isDir i.type = true
  · have hge := hdir hd
    have hun := toNat_unlink_dir (t := t) (i := i.incNLink) hd
    rw [hinc] at hun
    rw [hun]
    simp only [hd, true_and]
    by_cases hmax : i.nLink.toNat + 1 < 2 ^ 32
    · rw [Nat.mod_eq_of_lt hmax, if_pos (by omega)]
      omega
    have hwrap : (i.nLink.toNat + 1) % 2 ^ 32 = 0 := by omega
    rw [hwrap, if_neg (by omega)]
    omega
  have hun := toNat_unlink_file (t := t) (i := i.incNLink) (by simpa using hd)
  rw [hinc] at hun
  rw [hun]
  simp only [hd, Bool.false_eq_true, false_and, not_false_eq_true, true_and]
  by_cases hmax : i.nLink.toNat + 1 < 2 ^ 32
  · rw [Nat.mod_eq_of_lt hmax]
    omega
  have hwrap : (i.nLink.toNat + 1) % 2 ^ 32 = 0 := by omega
  rw [hwrap]
  omega

/-- What a rename is for: the destination resolves to the inode, which keeps its links, the source
name is gone, an overwritten file has a link fewer, and the rest is as before but for the link
counts of the two parents. -/
structure RenamedAs (mw : MetaWrapper n) (s s' : Namespace n) (P Q q : Fin n) (sp : UInt64)
    (sn : Bytes) (dp : UInt64) (dn : Bytes) (d : Dentry) (i : InodeCell) : Prop where
  resolves : ∃ e, s'.dentryAt? Q dp dn = some e ∧ e.inode = d.inode
  kept : ∃ i', s'.node q d.inode = some i' ∧ i'.nLink = i.nLink
  gone : ¬ (sp = dp ∧ sn = dn) → s'.dentryAt? P sp sn = none
  overwritten : ∀ e r j, s.dentryAt? Q dp dn = some e → mw.getPartitionByInode e.inode = some r →
    s.node r e.inode = some j → isRegular j.type = true →
      ∃ j', s'.node r e.inode = some j' ∧ j'.nLink.toNat + 1 = j.nLink.toNat
  dents : ∀ R a b, ¬ (R = P ∧ a = sp ∧ b = sn) → ¬ (R = Q ∧ a = dp ∧ b = dn) →
    s'.dentryAt? R a b = s.dentryAt? R a b
  nodes : ∀ R x, ¬ (R = q ∧ x = d.inode) → (∀ e, s.dentryAt? Q dp dn = some e → x ≠ e.inode) →
    s'.node R x = s.node R x ∨
      ((x = sp ∨ x = dp) ∧ ∃ k l, s.node R x = some k ∧ s'.node R x = some { k with nLink := l })

def Renamed (mw : MetaWrapper n) (s s' : Namespace n) (sp : UInt64) (sn : Bytes) (dp : UInt64)
    (dn : Bytes) : Prop :=
  ∃ P Q q d i, mw.getPartitionByInode sp = some P ∧ mw.getPartitionByInode dp = some Q ∧
    s.dentryAt? P sp sn = some d ∧ mw.getPartitionByInode d.inode = some q ∧
    s.node q d.inode = some i ∧ RenamedAs mw s s' P Q q sp sn dp dn d i

/-- The source is not the directory it stands in, the destination is no other name of it, it is
not a directory with two links, and its link count does not wrap. -/
def RenameSafe (mw : MetaWrapper n) (s : Namespace n) (sp : UInt64) (sn : Bytes) (dp : UInt64)
    (dn : Bytes) : Prop :=
  ∀ P Q q d i, mw.getPartitionByInode sp = some P → mw.getPartitionByInode dp = some Q →
    s.dentryAt? P sp sn = some d → mw.getPartitionByInode d.inode = some q →
    s.node q d.inode = some i →
      d.inode ≠ sp ∧ (∀ e, s.dentryAt? Q dp dn = some e → e.inode ≠ d.inode) ∧
      ¬ (isDir i.type = true ∧ i.nLink.toNat = 2) ∧ i.nLink.toNat + 1 < 2 ^ 32

structure RenameRun (mw : MetaWrapper n) (s s' : Namespace n) (P Q q : Fin n) (sp : UInt64)
    (sn : Bytes) (dp : UInt64) (dn : Bytes) (d : Dentry) (i : InodeCell) (s₂ : Namespace n)
    (old : UInt64) (t₁ t₂ : Int64) : Prop where
  srcParent : mw.getPartitionByInode sp = some P
  dstParent : mw.getPartitionByInode dp = some Q
  source : s.dentryAt? P sp sn = some d
  route : mw.getPartitionByInode d.inode = some q
  node : s.node q d.inode = some i
  unmarked : i.shouldDelete = false
  set : MetaWrapper.DstSet (s.setNode q d.inode (some i.incNLink)) Q dp dn d.inode d.type s₂ old
  final : s' = mw.dropOld t₂ old ((s₂.withoutDentry P sp sn).unlinked t₁ q d.inode)

namespace RenameRun

variable {s s' s₂ : Namespace n} {P Q q : Fin n} {sp dp old : UInt64} {sn dn : Bytes} {d : Dentry}
  {i : InodeCell} {t₁ t₂ : Int64}

theorem dst_ne (h : RenameRun mw s s' P Q q sp sn dp dn d i s₂ old t₁ t₂) : dp ≠ d.inode := by
  cases h.set with
  | created hne | updated hne => exact hne

variable (mw)

theorem dents_dropOld (t : Int64) (old : UInt64) (s : Namespace n) :
    (mw.dropOld t old s).dents = s.dents := by
  unfold MetaWrapper.dropOld
  split
  · rfl
  split
  · rfl
  · exact Namespace.dents_unlinked t _ old s

theorem node_dropOld_of_ne (t : Int64) {old x : UInt64} (hx : old = 0 ∨ x ≠ old) (s : Namespace n)
    (R : Fin n) : (mw.dropOld t old s).node R x = s.node R x := by
  unfold MetaWrapper.dropOld
  split
  · rfl
  next hz =>
    split
    · rfl
    · exact Namespace.node_unlinked_of_ne t (fun hc => (hx.resolve_left hz) hc.2) s

variable {mw}

section

variable (h : RenameRun mw s s' P Q q sp sn dp dn d i s₂ old t₁ t₂)
include h

theorem dentryAt? (R : Fin n) (a : UInt64) (b : Bytes) : s'.dentryAt? R a b =
      if R = P ∧ a = sp ∧ b = sn then none
      else if R = Q ∧ a = dp ∧ b = dn then some ⟨dp, dn, d.inode, d.type⟩
      else s.dentryAt? R a b := by
  have hdrop : s'.dentryAt? R a b = (s₂.withoutDentry P sp sn).dentryAt? R a b := by
    rw [h.final]
    unfold Namespace.dentryAt?
    rw [dents_dropOld, Namespace.dents_unlinked]
  rw [hdrop, Namespace.dentryAt?_withoutDentry]
  congr 1
  cases h.set with
  | @created k _ _ _ =>
    exact Namespace.dentryAt?_setDents_insert s Q R ⟨dp, dn, d.inode, d.type⟩ a b
  | @updated e _ _ hget htype =>
    have he := Namespace.parentId_of_dentryAt? hget
    have heq : ({ e with inode := d.inode } : Dentry) = ⟨dp, dn, d.inode, d.type⟩ := by
      rw [← he.1, ← he.2, ← htype]
    have hput := Namespace.dentryAt?_setDents_insert s Q R { e with inode := d.inode } a b
    rw [heq] at hput
    unfold Namespace.withTarget
    rw [heq]
    exact hput

theorem node_set (R : Fin n) (x : UInt64) :
    s₂.node R x = (s.setNode q d.inode (some i.incNLink)).node R x ∨
      (R = Q ∧ x = dp ∧ ∃ k, s.node R x = some k ∧ s₂.node R x = some k.incNLink) := by
  cases h.set with
  | @created k hne hk hnone =>
    by_cases hx : R = Q ∧ x = dp
    · obtain ⟨rfl, rfl⟩ := hx
      rw [Namespace.node_setNode_of_ne s hne] at hk
      exact .inr ⟨rfl, rfl, k, hk, if_pos ⟨rfl, rfl⟩⟩
    · exact .inl (if_neg hx)
  | updated => exact .inl rfl

theorem node_set_inode : s₂.node q d.inode = some i.incNLink := by
  obtain hn | ⟨-, hx, -⟩ := h.node_set q d.inode
  · rw [hn, Namespace.node_setNode_self]
  · exact absurd hx.symm h.dst_ne

theorem node_inode (hold : old ≠ d.inode) (hsp : d.inode ≠ sp) :
    s'.node q d.inode = afterUnlink t₁ i.incNLink := by
  have hdel : (s₂.withoutDentry P sp sn).node q d.inode = some i.incNLink := by
    rw [Namespace.node_withoutDentry, if_neg fun hc => hsp hc.2, h.node_set_inode]
  rw [h.final, node_dropOld_of_ne mw t₂ (.inr (Ne.symm hold))]
  exact Namespace.node_unlinked_self hdel (i.shouldDelete_incNLink.trans h.unmarked)

theorem old_of_dst (he : s.dentryAt? Q dp dn = some e) : old = e.inode ∧ isRegular d.type = true ∧
      e.type = d.type := by
  cases h.set with
  | created _ _ hnone =>
    have hget : (none : Option Dentry) = some e := hnone.symm.trans he
    cases hget
  | @updated e' _ hreg hget htype =>
    obtain rfl : e' = e := some.inj (hget.symm.trans he)
    exact ⟨rfl, hreg, htype⟩

theorem old_of_no_dst (he : s.dentryAt? Q dp dn = none) : old = 0 := by
  cases h.set with
  | created => rfl
  | @updated e' _ _ hget _ =>
    have hnone : (none : Option Dentry) = some e' := he.symm.trans hget
    cases hnone

theorem source_mem : d ∈ (s.dents P).items ∧ d.parentId = sp :=
  ⟨mem_of_get? h.source, (Namespace.parentId_of_dentryAt? h.source).1⟩

end

variable (hc : Consistent mw V)
include hc

variable (h : RenameRun mw V.toNamespace s' P Q q sp sn dp dn d i s₂ old t₁ t₂)
include h

theorem type_source : i.type &&& modeType = d.type &&& modeType :=
  hc.kind P d h.source_mem.1 q i h.route h.node

theorem old_file (he : V.toNamespace.dentryAt? Q dp dn = some e) :
    ∃ r j, mw.getPartitionByInode e.inode = some r ∧ V.toNamespace.node r e.inode = some j ∧
      j.shouldDelete = false ∧ isRegular j.type = true ∧ e.inode ≠ 0 ∧ e.inode ≠ sp := by
  have hmem : e ∈ (V.toNamespace.dents Q).items := mem_of_get? he
  obtain ⟨-, hreg, htype⟩ := h.old_of_dst he
  obtain ⟨r, j, hr, hj, hd⟩ := hc.target Q e hmem
  have hregj : isRegular j.type = true := by
    rw [isRegular_eq_of_kind (hc.kind Q e hmem r j hr hj), htype]
    exact hreg
  refine ⟨r, j, hr, hj, hd, hregj, hc.nonzero r _ j hj, ?_⟩
  intro hsp
  obtain ⟨hmemd, hpar⟩ := h.source_mem
  obtain ⟨hP, k, hk, hdir⟩ := hc.parent P d hmemd
  rw [hpar, ← hsp] at hP hk
  obtain rfl : r = P := some.inj (hr.symm.trans hP)
  obtain rfl : j = k := some.inj (hj.symm.trans hk)
  rw [isDir_eq_false_of_isRegular hregj] at hdir
  cases hdir

theorem node_other {R : Fin n} {x : UInt64} (hx : ¬ (R = q ∧ x = d.inode))
    (hold : old = 0 ∨ x ≠ old) : s'.node R x = V.toNamespace.node R x ∨
      ((x = sp ∨ x = dp) ∧ ∃ k l, V.toNamespace.node R x = some k ∧
        s'.node R x = some { k with nLink := l }) := by
  have hend : s'.node R x = (s₂.withoutDentry P sp sn).node R x := by
    rw [h.final, node_dropOld_of_ne mw t₂ hold, Namespace.node_unlinked_of_ne t₁ hx]
  have hset : s₂.node R x = V.toNamespace.node R x ∨ (x = dp ∧ ∃ k l,
      V.toNamespace.node R x = some k ∧ s₂.node R x = some { k with nLink := l }) := by
    obtain hn | ⟨-, hxd, k, hk, hn⟩ := h.node_set R x
    · rw [hn, Namespace.node_setNode, if_neg hx]
      exact .inl rfl
    · exact .inr ⟨hxd, k, _, hk, hn⟩
  rw [hend, Namespace.node_withoutDentry]
  split
  next hP =>
    obtain ⟨rfl, rfl⟩ := hP
    obtain ⟨hmem, hpar⟩ := h.source_mem
    obtain ⟨-, k, hk, -⟩ := hc.parent R d hmem
    rw [hpar] at hk
    have hdec (k' : InodeCell) : ∃ l, decParent k' = { k' with nLink := l } := by
      unfold decParent
      split
      · exact ⟨k'.nLink, rfl⟩
      · exact ⟨_, k'.decNLink_eq⟩
    refine .inr ⟨.inl rfl, ?_⟩
    obtain hsame | ⟨-, k', l, hk', hn⟩ := hset
    · obtain ⟨l, hl⟩ := hdec k
      exact ⟨k, l, hk, by rw [hsame, hk, map_some, hl]⟩
    · obtain ⟨l', hl'⟩ := hdec { k' with nLink := l }
      exact ⟨k', l', hk', by rw [hn, map_some, hl']⟩
  obtain hsame | ⟨hxd, hex⟩ := hset
  · exact .inl hsame
  · exact .inr ⟨.inr hxd, hex⟩

theorem links_ge (hdir : isDir i.type = true) : 2 ≤ i.nLink.toNat := by
  have hn := hc.dir d.inode q i h.route h.node hdir
  omega

theorem renamedAs (hsp : d.inode ≠ sp)
    (hdst : ∀ e, V.toNamespace.dentryAt? Q dp dn = some e → e.inode ≠ d.inode)
    (hempty : ¬ (isDir i.type = true ∧ i.nLink.toNat = 2)) (hmax : i.nLink.toNat + 1 < 2 ^ 32) :
    RenamedAs mw V.toNamespace s' P Q q sp sn dp dn d i := by
  have hsrc_ne_dst : ¬ (sp = dp ∧ sn = dn) := by
    rintro ⟨rfl, rfl⟩
    obtain rfl : P = Q := some.inj (h.srcParent.symm.trans h.dstParent)
    exact hdst d h.source rfl
  have hold : old ≠ d.inode := by
    cases he : V.toNamespace.dentryAt? Q dp dn with
    | none =>
      rw [h.old_of_no_dst he]
      exact Ne.symm (hc.nonzero q _ i h.node)
    | some e =>
      rw [(h.old_of_dst he).1]
      exact hdst e he
  refine ⟨⟨⟨dp, dn, d.inode, d.type⟩, ?_, rfl⟩, ?_, ?_, ?_, ?_, ?_⟩
  · rw [h.dentryAt? Q dp dn, if_neg fun hx => hsrc_ne_dst ⟨hx.2.1.symm, hx.2.2.symm⟩,
      if_pos ⟨rfl, rfl, rfl⟩]
  · rw [h.node_inode hold hsp]
    exact (afterUnlink_incNLink (h.links_ge hc)).mpr ⟨hempty, hmax⟩
  · intro _
    rw [h.dentryAt? P sp sn, if_pos ⟨rfl, rfl, rfl⟩]
  · intro e r j he hr hj hreg
    obtain ⟨r', j', hr', hj', hd, -, hne0, hne⟩ := h.old_file hc he
    obtain rfl : r = r' := some.inj (hr.symm.trans hr')
    obtain rfl : j = j' := some.inj (hj.symm.trans hj')
    have hfile := isDir_eq_false_of_isRegular hreg
    -- the file has a link, since the destination named it
    have hpos : 0 < j.nLink.toNat := by
      rw [hc.file e.inode r j hr hj hreg]
      exact Namespace.names_pos_iff.mpr ⟨Q, e, mem_of_get? he, rfl⟩
    have hkeep : ((s₂.withoutDentry P sp sn).unlinked t₁ q d.inode).node r e.inode = some j := by
      rw [Namespace.node_unlinked_of_ne t₁ fun hx => hdst e he hx.2,
        Namespace.node_withoutDentry, if_neg fun hx => hne hx.2]
      obtain hn | ⟨hrQ, hxd, k, hk, -⟩ := h.node_set r e.inode
      · rw [hn, Namespace.node_setNode_of_ne _ (hdst e he), hj]
      · -- the parent of the destination is a directory
        obtain ⟨-, k', hk', hdir⟩ := hc.parent Q e (mem_of_get? he)
        rw [(Namespace.parentId_of_dentryAt? he).1, ← hxd, ← hrQ, hj] at hk'
        cases hk'
        rw [hfile] at hdir
        cases hdir
    refine ⟨j.unlink t₂, ?_, ?_⟩
    · rw [h.final, (h.old_of_dst he).1]
      unfold MetaWrapper.dropOld
      rw [if_neg hne0, hr]
      dsimp only
      rw [Namespace.node_unlinked_self hkeep hd, afterUnlink, if_neg (by simp [hfile])]
    · rw [toNat_unlink_file hfile]
      omega
  · intro R a b hs hd
    rw [h.dentryAt? R a b, if_neg hs, if_neg hd]
  · intro R x hx hxe
    refine h.node_other hc hx ?_
    cases he : V.toNamespace.dentryAt? Q dp dn with
    | none => exact .inl (h.old_of_no_dst he)
    | some e => exact .inr ((h.old_of_dst he).1 ▸ hxe e he)

theorem not_kept_of_self (hsp : d.inode = sp) :
    ¬ ∃ i', s'.node q d.inode = some i' ∧ i'.nLink = i.nLink := by
  obtain ⟨hmem, hpar⟩ := h.source_mem
  obtain ⟨hP, k, hk, hdir⟩ := hc.parent P d hmem
  rw [hpar, ← hsp] at hP hk
  obtain rfl : q = P := some.inj (h.route.symm.trans hP)
  obtain rfl : i = k := some.inj (h.node.symm.trans hk)
  have hdird : isDir d.type = true := by rw [← isDir_eq_of_kind (h.type_source hc)]; exact hdir
  have hold : old = 0 := by
    cases he : V.toNamespace.dentryAt? Q dp dn with
    | none => exact h.old_of_no_dst he
    | some e =>
      have hreg := (h.old_of_dst he).2.1
      rw [isDir_eq_false_of_isRegular hreg] at hdird
      cases hdird
  have hchild := Namespace.children_pos_of_mem hmem
  rw [hpar, ← hsp] at hchild
  have hlinks := hc.dir d.inode q i h.route h.node hdir
  have hun : i.incNLink.shouldDelete = false := i.shouldDelete_incNLink.trans h.unmarked
  have hdec : decParent i.incNLink = i.incNLink.decNLink := if_neg (by rw [hun]; decide)
  have hdel : (s₂.withoutDentry q sp sn).node q d.inode = some i.incNLink.decNLink := by
    rw [Namespace.node_withoutDentry, if_pos ⟨rfl, hsp⟩, ← hsp, h.node_set_inode, map_some, hdec]
  have hund : i.incNLink.decNLink.shouldDelete = false := by
    rw [shouldDelete_decNLink, hun]
  have hend : s'.node q d.inode = afterUnlink t₁ i.incNLink.decNLink := by
    rw [h.final, node_dropOld_of_ne mw t₂ (.inl hold)]
    exact Namespace.node_unlinked_self hdel hund
  rintro ⟨i', hi', hsame⟩
  rw [hend] at hi'
  obtain rfl := unlink_of_afterUnlink hi'
  -- two links go, one came
  have hlt : i.nLink.toNat < 2 ^ 32 := i.nLink.toNat_lt
  have hinc := toNat_incNLink_mod (i := i)
  have hd₁ := toNat_decNLink_dir (i := i.incNLink) hdir
  have hd₂ := toNat_unlink_dir (t := t₁) (i := i.incNLink.decNLink)
    (by rw [type_decNLink]; exact hdir)
  rw [← UInt32.toNat_inj, hd₂] at hsame
  split at hsame <;> split at hd₁ <;> omega

end RenameRun

/-- A rename run alone that returns nil did what it is for exactly when it was safe; both are said
of the names as the meta nodes get them. -/
theorem rename_alone_iff {sp dp : UInt64} (srcName dstName : Bytes) {clock : ℕ → Int64}
    (hc : Consistent mw V)
    (hr : runAlone clock (mw.renameLl sp (jsonName srcName) dp (jsonName dstName)) 0 V =
      (V', .ok none)) :
    Renamed mw V.toNamespace V'.toNamespace sp (jsonName srcName) dp (jsonName dstName) ↔
      RenameSafe mw V.toNamespace sp (jsonName srcName) dp (jsonName dstName) := by
  generalize jsonName srcName = sn, jsonName dstName = dn at hr ⊢
  obtain ⟨P, Q, q, d, i, s₂, old, t₁, t₂, hP, hQ, hget, hq, hi, hd, hset, -, hfin⟩ :=
    MetaWrapper.renameLl_ok hr
  have h : RenameRun mw V.toNamespace V'.toNamespace P Q q sp sn dp dn d i s₂ old t₁ t₂ :=
    ⟨hP, hQ, hget, hq, hi, hd, hset, hfin⟩
  constructor
  · rintro ⟨P', Q', q', d', i', hP', hQ', hget', hq', hi',
      hpost⟩ P₁ Q₁ q₁ d₁ i₁ hP₁ hQ₁ hget₁ hq₁ hi₁
    obtain rfl : P' = P := some.inj (hP'.symm.trans hP)
    obtain rfl : Q' = Q := some.inj (hQ'.symm.trans hQ)
    obtain rfl : d' = d := some.inj (hget'.symm.trans hget)
    obtain rfl : q' = q := some.inj (hq'.symm.trans hq)
    obtain rfl : i' = i := some.inj (hi'.symm.trans hi)
    obtain rfl : P₁ = P' := some.inj (hP₁.symm.trans hP)
    obtain rfl : Q₁ = Q' := some.inj (hQ₁.symm.trans hQ)
    obtain rfl : d₁ = d' := some.inj (hget₁.symm.trans hget)
    obtain rfl : q₁ = q' := some.inj (hq₁.symm.trans hq)
    obtain rfl : i₁ = i' := some.inj (hi₁.symm.trans hi)
    have hsp : d₁.inode ≠ sp := fun hself => h.not_kept_of_self hc hself hpost.kept
    have hdst (e : Dentry) (he : V.toNamespace.dentryAt? Q₁ dp dn = some e) :
        e.inode ≠ d₁.inode := by
      intro heq
      -- it would have to keep its links and to lose one
      have hreg : isRegular i₁.type = true := by
        rw [isRegular_eq_of_kind (h.type_source hc)]
        exact (h.old_of_dst he).2.1
      obtain ⟨j, hj, hlinks⟩ := hpost.kept
      obtain ⟨j', hj', hlinks'⟩ := hpost.overwritten e q₁ i₁ he (heq ▸ hq₁) (heq ▸ hi₁) hreg
      rw [heq, hj] at hj'
      cases hj'
      rw [hlinks] at hlinks'
      omega
    have hold : old ≠ d₁.inode := by
      cases he : V.toNamespace.dentryAt? Q₁ dp dn with
      | none =>
        rw [h.old_of_no_dst he]
        exact Ne.symm (hc.nonzero q₁ _ i₁ hi₁)
      | some e =>
        rw [(h.old_of_dst he).1]
        exact hdst e he
    have hkept := hpost.kept
    rw [h.node_inode hold hsp] at hkept
    exact ⟨hsp, hdst, (afterUnlink_incNLink (h.links_ge hc)).mp hkept⟩
  · intro hsafe
    obtain ⟨hsp, hdst, hempty, hmax⟩ := hsafe P Q q d i hP hQ hget hq hi
    exact ⟨P, Q, q, d, i, hP, hQ, hget, hq, hi, h.renamedAs hc hsp hdst hempty hmax⟩

/-- A file is renamed in its directory. -/
theorem rename_alone_file :
    ∃ V', runAlone (fun _ => 0) (oneRange.renameLl 1 [115] 1 [100]) 0 (oneEntry 0) =
        (V', .ok none) ∧
      Renamed oneRange (oneEntry 0).toNamespace V'.toNamespace 1 [115] 1 [100] := by
  have hrun : ∃ V', runAlone (fun _ => 0) (oneRange.renameLl 1 [115] 1 [100]) 0 (oneEntry 0) =
    (V', .ok none) := ⟨_, rfl⟩
  obtain ⟨V', hr⟩ := hrun
  refine ⟨V', hr, (rename_alone_iff [115] [100] (consistent_oneEntry (.inl rfl)) hr).mpr ?_⟩
  intro P Q q d i hP hQ hget hq hi
  obtain rfl := Fin.fin_one_eq_zero P
  obtain rfl := Fin.fin_one_eq_zero Q
  obtain rfl := Fin.fin_one_eq_zero q
  cases hget
  cases hi
  exact ⟨by decide, nofun, by decide, by decide⟩

/-- The rename of an empty directory returns nil and destroys it. -/
theorem rename_alone_empty_dir : Consistent oneRange (oneEntry modeDir) ∧
      ∃ V', runAlone (fun _ => 0) (oneRange.renameLl 1 [115] 1 [100]) 0 (oneEntry modeDir) =
          (V', .ok none) ∧
        V'.toNamespace.node 0 2 = none ∧
        ¬ Renamed oneRange (oneEntry modeDir).toNamespace V'.toNamespace 1 [115] 1 [100] := by
  refine ⟨consistent_oneEntry (.inr rfl), _, rfl, rfl, ?_⟩
  rintro ⟨P, Q, q, d, i, -, -, hget, -, -, hpost⟩
  obtain rfl := Fin.fin_one_eq_zero P
  obtain rfl := Fin.fin_one_eq_zero q
  cases hget
  obtain ⟨i', hi', -⟩ := hpost.kept
  cases hi'

end ChubaoFS
