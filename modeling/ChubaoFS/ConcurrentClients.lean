import ChubaoFS.Consistency
import ChubaoFS.LinkLedger

namespace ChubaoFS

open MetaPartition InodeOf UInt64 Option Namespace Volume
open UInt64 (le_refl le_trans le_iff_toNat_le)
open Option (some)

variable {n : Nat} {mw : MetaWrapper n} {V V' : Volume n} {c c' : UInt64 → ℕ}

def InodeOf.backing (i : InodeCell) : ℕ := if i.shouldDelete = true then 0 else i.nLink.toNat

variable {i : InodeCell}

theorem InodeOf.backing_of_unmarked (h : i.shouldDelete = false) : i.backing = i.nLink.toNat :=
    if_neg (by rw [h]; decide)

structure Rooted (mw : MetaWrapper n) (V : Volume n) : Prop where
  mapped : mw.Mapped V
  cursor : ∀ p, (V p).start ≤ (V p).cursor
  used : ∀ p ino i, V.toNamespace.node p ino = some i → ino ≤ (V p).cursor
  parent : ∀ p, ∀ d ∈ (V.toNamespace.dents p).items, d.parentId ≤ (V p).cursor ∧
    ∀ i, V.toNamespace.node p d.parentId = some i → isDir i.type = true

/-- The dentries that name a regular file, and the links that clients hold of it, are backed by
its link count. -/
structure Backed (mw : MetaWrapper n) (V : Volume n) (c : UInt64 → ℕ) : Prop
    extends Rooted mw V where
  given : ∀ ino p, mw.getPartitionByInode ino = some p → 0 < V.toNamespace.names ino + c ino →
    ino ≤ (V p).cursor
  links : ∀ ino p i, mw.getPartitionByInode ino = some p → V.toNamespace.node p ino = some i →
    isRegular i.type = true → V.toNamespace.names ino + c ino ≤ i.backing

def Volume.IdsGrow (V V' : Volume n) : Prop :=
  ∀ p, (V' p).start = (V p).start ∧ (V' p).endId = (V p).endId ∧ (V p).cursor ≤ (V' p).cursor

theorem Volume.SameIds.grow (h : V.SameIds V') : V.IdsGrow V' := by
  intro p
  obtain ⟨hs, he, hc⟩ := h p
  exact ⟨hs, he, hc ▸ le_refl _⟩

theorem MetaWrapper.Mapped.grow (h : mw.Mapped V) (hids : V.IdsGrow V') : mw.Mapped V' := by
  refine ⟨?_, h.disjoint⟩
  intro p
  obtain ⟨r, hr, hid, hs, he⟩ := h.listed p
  exact ⟨r, hr, hid, hs.trans (hids p).1.symm, he.trans (hids p).2.1.symm⟩

def Volume.KeepsTypes (V V' : Volume n) : Prop :=
  ∀ p x i', V'.toNamespace.node p x = some i' →
    ∃ i, V.toNamespace.node p x = some i ∧ i'.type = i.type

def Volume.KeepsParents (V V' : Volume n) : Prop :=
  ∀ p, ∀ d' ∈ (V'.toNamespace.dents p).items,
    (∃ d ∈ (V.toNamespace.dents p).items, d.parentId = d'.parentId) ∨
      ∃ i, V.toNamespace.node p d'.parentId = some i ∧ isDir i.type = true

theorem Rooted.frame (h : Rooted mw V) (hids : V.IdsGrow V') (hnode : V.KeepsTypes V')
    (hdents : V.KeepsParents V') : Rooted mw V' where
  mapped := h.mapped.grow hids
  cursor p := by
    rw [(hids p).1]
    exact le_trans (h.cursor p) (hids p).2.2
  used p ino i' hi' := by
    obtain ⟨i, hi, -⟩ := hnode p ino i' hi'
    exact le_trans (h.used p ino i hi) (hids p).2.2
  parent p d' hd' := by
    have hold : d'.parentId ≤ (V p).cursor ∧
        ∀ i, V.toNamespace.node p d'.parentId = some i → isDir i.type = true := by
      obtain ⟨d, hd, hpar⟩ | ⟨i, hi, hdir⟩ := hdents p d' hd'
      · rw [← hpar]
        exact h.parent p d hd
      · refine ⟨h.used p _ i hi, ?_⟩
        intro j hj
        rw [hi] at hj
        rw [← some.inj hj]
        exact hdir
    refine ⟨le_trans hold.1 (hids p).2.2, ?_⟩
    intro i' hi'
    obtain ⟨i, hi, ht⟩ := hnode p _ i' hi'
    rw [ht]
    exact hold.2 i hi

theorem Backed.frame (h : Backed mw V c) (hids : V.IdsGrow V') (hnode : V.KeepsTypes V')
    (hdents : V.KeepsParents V')
    (hgiven : ∀ x p, mw.getPartitionByInode x = some p → 0 < V'.toNamespace.names x + c' x →
      0 < V.toNamespace.names x + c x ∨ ∃ i, V.toNamespace.node p x = some i)
    (hlinks : ∀ x p i i', mw.getPartitionByInode x = some p → V.toNamespace.node p x = some i →
      V'.toNamespace.node p x = some i' → isRegular i'.type = true →
      V'.toNamespace.names x + c' x + i.backing ≤ V.toNamespace.names x + c x + i'.backing) :
    Backed mw V' c' where
  toRooted := h.toRooted.frame hids hnode hdents
  given ino p hp hpos := by
    refine le_trans ?_ (hids p).2.2
    obtain hold | ⟨i, hi⟩ := hgiven ino p hp hpos
    · exact h.given ino p hp hold
    · exact h.used p ino i hi
  links ino p i' hp hi' hreg := by
    obtain ⟨i, hi, ht⟩ := hnode p ino i' hi'
    have hbefore := h.links ino p i hp hi (ht ▸ hreg)
    have hstep := hlinks ino p i i' hp hi hi' hreg
    omega

theorem Volume.keepsTypes_of_eq (h : V'.toNamespace.node = V.toNamespace.node) :
    V.KeepsTypes V' := by
  intro p x i hi
  rw [h] at hi
  exact ⟨i, hi, rfl⟩

theorem Volume.keepsParents_of_eq (h : V'.toNamespace.dents = V.toNamespace.dents) :
    V.KeepsParents V' := by
  intro p d hd
  rw [h] at hd
  exact .inl ⟨d, hd, rfl⟩

variable {p : Fin n} {ino : UInt64} {j : Option InodeCell} {s : Namespace n}

theorem Volume.keepsTypes_of_setNode (h : V'.toNamespace = s.setNode p ino j)
    (hs : s.node = V.toNamespace.node) (hi : V.toNamespace.node p ino = some i)
    (hj : ∀ i', j = some i' → i'.type = i.type) : V.KeepsTypes V' := by
  intro q x i' hi'
  rw [h, node_setNode] at hi'
  split at hi'
  next hx =>
    obtain ⟨rfl, rfl⟩ := hx
    exact ⟨i, hi, hj i' hi'⟩
  · rw [hs] at hi'
    exact ⟨i', hi', rfl⟩

theorem Backed.drop (h : Backed mw V c) (hle : ∀ x, c' x ≤ c x) : Backed mw V c' := by
  refine h.frame (Volume.SameIds.grow (sameIds_refl V)) (keepsTypes_of_eq rfl)
    (keepsParents_of_eq rfl) ?_ ?_
  · intro x p _ hpos
    have hx := hle x
    exact .inl (by omega)
  · intro x p i i' _ hi hi' _
    rw [hi] at hi'
    cases hi'
    have hx := hle x
    omega

/-- A link count does not wrap, and a request that removes or redirects a name finds the inode
which its client looked up. -/
def LinksAsExpected (_ : Int64) (note : Note) : Request n → Volume n → Prop
  | .ilink p ino, V => ∀ i, V.toNamespace.node p ino = some i → isRegular i.type = true →
      i.nLink.toNat + 1 < 2 ^ 32
  | .ddelete p parentID name, V => ∀ e d, note.expect = some e →
      V.toNamespace.dentryAt? p parentID name = some d → d.inode = e
  | .dupdate p parentID name _, V => ∀ e d, note.expect = some e →
      V.toNamespace.dentryAt? p parentID name = some d → d.inode = e
  | _, _ => True

def Paid (mw : MetaWrapper n) (now : Int64) (note : Note) (r : Request n) (V : Volume n)
    (c : UInt64 → ℕ) : Prop :=
  (linkLedger mw).expects note r (V.serve now r).2 ∧
    Backed mw (V.serve now r).1 (c + (linkLedger mw).earn note r (V.serve now r).2)

theorem Backed.setNode (h : Backed mw V c) (hids : V.SameIds V')
    (hns : V'.toNamespace = V.toNamespace.setNode p ino j)
    (hi : V.toNamespace.node p ino = some i) (htype : ∀ i', j = some i' → i'.type = i.type)
    (hother : ∀ x, x ≠ ino → c' x ≤ c x)
    (hfar : mw.getPartitionByInode ino ≠ some p → c' ino ≤ c ino)
    (hlocal : ∀ i', j = some i' → isRegular i.type = true →
      c' ino + i.backing ≤ c ino + i'.backing) : Backed mw V' c' := by
  refine h.frame hids.grow (keepsTypes_of_setNode hns rfl hi htype)
    (keepsParents_of_eq (by rw [hns]; rfl)) ?_ ?_
  · intro x q hq hpos
    rw [hns, names_setNode] at hpos
    by_cases hx : x = ino
    · subst hx
      by_cases hp : q = p
      · exact .inr ⟨i, hp ▸ hi⟩
      · have hle := hfar fun he => hp (some.inj (hq.symm.trans he))
        exact .inl (by omega)
    · have hle := hother x hx
      exact .inl (by omega)
  · intro x q k k' hq hk hk' hreg
    rw [hns, node_setNode] at hk'
    rw [hns, names_setNode]
    split at hk'
    next hx =>
      obtain ⟨rfl, rfl⟩ := hx
      obtain rfl : i = k := some.inj (hi.symm.trans hk)
      have hle := hlocal k' hk' (htype k' hk' ▸ hreg)
      omega
    rename_i hx
    obtain rfl : k = k' := some.inj (hk.symm.trans hk')
    have hle : c' x ≤ c x := by
      by_cases hino : x = ino
      · subst hino
        exact hfar fun he => hx ⟨some.inj (hq.symm.trans he), rfl⟩
      · exact hother x hino
    omega

variable {now : Int64} {note : Note} {i' : InodeCell}

theorem Backed.ilink (h : Backed mw V c) (ha : LinksAsExpected now note (.ilink p ino) V) :
    Paid mw now note (.ilink p ino) V c := by
  unfold Paid
  obtain ⟨status, hr, -⟩ | ⟨i, V', info, hi, hd, hr, -, hns, hids⟩ := V.serve_ilink now p ino
  · rw [hr]
    exact ⟨trivial, h.drop fun x => Nat.le_refl _⟩
  · rw [hr]
    have hearn : (linkLedger mw).earn note (.ilink p ino) (.ok info) =
      if mw.getPartitionByInode ino = some p then oneLink ino else 0 := rfl
    rw [hearn]
    refine ⟨trivial, h.setNode hids hns hi ?_ ?_ ?_ ?_⟩
    · intro i' hi'
      rw [← some.inj hi', type_incNLink]
    · intro x hx
      split <;> simp [oneLink_apply, Ne.symm hx]
    · intro hfar
      rw [if_neg hfar, add_zero]
    · intro i' hi' hreg
      cases hi'
      have hinc := toNat_incNLink (ha i hi hreg)
      rw [backing_of_unmarked hd, backing_of_unmarked (i := i.incNLink) hd, hinc]
      split
      · simp only [Pi.add_apply, oneLink_apply, if_pos]
        omega
      · simp

theorem unlink_of_afterUnlink {t : Int64} (h : afterUnlink t i = some i') : i' = i.unlink t := by
  unfold afterUnlink at h
  split at h
  · cases h
  · exact (some.inj h).symm

theorem Backed.iunlink (h : Backed mw V (c + oneLink ino)) :
    Paid mw now note (.iunlink p ino) V c := by
  have hearn (a : Answer InodeInfo) : c + (linkLedger mw).earn note (.iunlink p ino) a = c := by
    cases a <;> exact add_zero c
  have hle (x : UInt64) : c x ≤ (c + oneLink ino) x := Nat.le_add_right _ _
  unfold Paid
  rw [hearn]
  obtain ⟨status, hr, -⟩ | ⟨i, V', info, hi, hd, hr, hns, hids⟩ := V.serve_iunlink now p ino
  · rw [hr]
    exact ⟨trivial, h.drop hle⟩
  · rw [hr]
    refine ⟨trivial, h.setNode hids hns hi ?_ (fun x _ => hle x) (fun _ => hle ino) ?_⟩
    · intro i' hi'
      rw [unlink_of_afterUnlink hi', type_unlink]
    · intro i' hi' hreg
      obtain rfl := unlink_of_afterUnlink hi'
      have hdec := toNat_unlink_file (t := now) (isDir_eq_false_of_isRegular hreg)
      have hd' : (i.unlink now).shouldDelete = false := by rw [shouldDelete_unlink, hd]
      rw [backing_of_unmarked hd, backing_of_unmarked hd', hdec, Pi.add_apply,
        oneLink_apply, if_pos rfl]
      omega

theorem Backed.neutral (h : Backed mw V c) (hids : V.SameIds V')
    (hns : V'.toNamespace = V.toNamespace ∨ ∃ p ino i i', V.toNamespace.node p ino = some i ∧
      V'.toNamespace = V.toNamespace.setNode p ino (some i') ∧ i'.type = i.type ∧
      (isRegular i.type = true → i.backing ≤ i'.backing)) : Backed mw V' c := by
  obtain hsame | ⟨p, ino, i, i', hi, hset, htype, hle⟩ := hns
  · refine h.frame hids.grow (keepsTypes_of_eq (by rw [hsame]))
      (keepsParents_of_eq (by rw [hsame])) ?_ ?_
    · intro x q _ hpos
      rw [hsame] at hpos
      exact .inl hpos
    · intro x q j j' _ hj hj' _
      rw [hsame, hj] at hj'
      cases hj'
      rw [hsame]
  · refine h.setNode hids hset hi ?_ (fun x _ => Nat.le_refl _) (fun _ => Nat.le_refl _) ?_
    · intro k hk
      rw [← some.inj hk, htype]
    · intro k hk hreg
      cases hk
      have hb := hle hreg
      omega

theorem Backed.ievict (h : Backed mw V c) : Paid mw now note (.ievict p ino) V c := by
  have hearn (a : Answer Unit) : c + (linkLedger mw).earn note (.ievict p ino) a = c := by
    cases a <;> exact add_zero c
  unfold Paid
  rw [hearn]
  refine ⟨by cases (V.serve now (.ievict p ino)).2 <;> trivial, ?_⟩
  obtain ⟨V', hV', hids, hsame | ⟨i, hi, hd, hn, hns⟩⟩ := V.serve_ievict now p ino
  · rw [hV']
    exact h.neutral hids (.inl hsame)
  · rw [hV']
    refine h.neutral hids (.inr ⟨p, ino, i, i.setDeleteMark, hi, hns, rfl, ?_⟩)
    intro hreg
    rw [isDir_eq_false_of_isRegular hreg] at hn
    rw [backing_of_unmarked hd, hn]
    exact Nat.zero_le _

theorem Backed.iget (h : Backed mw V c) : Paid mw now note (.iget p ino) V c := by
  have hearn (a : Answer InodeInfo) : c + (linkLedger mw).earn note (.iget p ino) a = c := by
    cases a <;> exact add_zero c
  unfold Paid
  rw [hearn]
  refine ⟨by cases (V.serve now (.iget p ino)).2 <;> trivial, ?_⟩
  obtain ⟨V', hV', hids, hsame | ⟨i, hi, hns⟩⟩ := V.serve_iget now p ino
  · rw [hV']
    exact h.neutral hids (.inl hsame)
  · rw [hV']
    exact h.neutral hids (.inr ⟨p, ino, i, i.touch now, hi, hns, rfl, fun _ => Nat.le_refl _⟩)

variable {parentID : UInt64} {name : Bytes}

theorem Backed.lookup (h : Backed mw V c) : Paid mw now note (.lookup p parentID name) V c := by
  unfold Paid
  obtain ⟨-, hr⟩ | ⟨d, -, hr⟩ := V.serve_lookup now p parentID name
  all_goals
    rw [hr]
    exact ⟨trivial, h.drop fun x => Nat.le_refl _⟩

theorem Backed.move (h : Backed mw V c) (hids : V.SameIds V') (htypes : V.KeepsTypes V')
    (hparents : V.KeepsParents V')
    (hnode : ∀ p x i i', V.toNamespace.node p x = some i → V'.toNamespace.node p x = some i' →
      isRegular i'.type = true → i = i')
    (htotal : ∀ x, V'.toNamespace.names x + c' x = V.toNamespace.names x + c x) :
    Backed mw V' c' := by
  refine h.frame hids.grow htypes hparents ?_ ?_
  · intro x p _ hpos
    rw [htotal] at hpos
    exact .inl hpos
  · intro x p i i' _ hi hi' hreg
    obtain rfl := hnode p x i i' hi hi' hreg
    rw [htotal]

variable {x : UInt64} {r : Request n} {mode : UInt32}

theorem eq_of_setNode_dir {q : Fin n} (hdir : ∀ k, j = some k → isDir k.type = true)
    (hi : s.node q x = some i) (hi' : (s.setNode p ino j).node q x = some i')
    (hreg : isRegular i'.type = true) : i = i' := by
  rw [node_setNode] at hi'
  split at hi'
  · have hd := hdir i' hi'
    rw [isDir_eq_false_of_isRegular hreg] at hd
    cases hd
  · exact some.inj (hi.symm.trans hi')

theorem Backed.dcreate (h : Backed mw V (c + oneLink ino)) :
    Paid mw now note (.dcreate p parentID name ino mode) V c := by
  unfold Paid
  obtain ⟨status, hr, -⟩ | ⟨i, V', -, hi, -, hdir, hnew, hr, hns, hids⟩ :=
    V.serve_dcreate now p parentID name ino mode
  · rw [hr]
    exact ⟨trivial, h⟩
  · rw [hr]
    refine ⟨trivial, h.move hids ?_ ?_ ?_ ?_⟩
    · exact keepsTypes_of_setNode hns rfl hi fun i' hi' => by
        rw [← some.inj hi', type_incNLink]
    · intro q d' hd'
      rw [hns, dents_setNode, dents_setDents] at hd'
      split at hd'
      next hq =>
        subst hq
        obtain rfl | ⟨hold, -⟩ := OrdTree.mem_insert.mp hd'
        · exact .inr ⟨i, hi, hdir⟩
        · exact .inl ⟨d', hold, rfl⟩
      · exact .inl ⟨d', hd', rfl⟩
    · intro q x k k' hk hk' hreg
      rw [hns] at hk'
      refine eq_of_setNode_dir ?_ hk hk' hreg
      intro j hj
      rw [← some.inj hj, type_incNLink]
      exact hdir
    · intro x
      have hearn : c + (linkLedger mw).earn note (.dcreate p parentID name ino mode) (.ok ()) =
        c := add_zero c
      have hnames := names_insert (d := ⟨parentID, name, ino, mode⟩) hnew x
      rw [hearn, hns, names_setNode, hnames, Pi.add_apply, oneLink_apply]
      dsimp only
      omega

theorem Backed.ddelete (h : Backed mw V c)
    (ha : LinksAsExpected now note (.ddelete p parentID name) V) :
    Paid mw now note (.ddelete p parentID name) V c := by
  unfold Paid
  obtain ⟨-, hr⟩ | ⟨d, V', hget, hr, hns, hids⟩ := V.serve_ddelete now p parentID name
  · rw [hr]
    exact ⟨trivial, h.drop fun x => Nat.le_refl _⟩
  · rw [hr]
    refine ⟨fun e he => ha e d he hget, ?_⟩
    have hpar := (parentId_of_dentryAt? hget).1
    have hdir (i : InodeCell) (hi : V.toNamespace.node p parentID = some i) :
        isDir i.type = true := by
      rw [← hpar] at hi
      exact (h.parent p d (OrdTree.mem_of_get? hget)).2 i hi
    have hparDec (k : InodeCell)
        (hk : (V.toNamespace.node p parentID).map decParent = some k) :
        ∃ i, V.toNamespace.node p parentID = some i ∧ k.type = i.type := by
      obtain ⟨i, hi, rfl⟩ := map_eq_some_iff.mp hk
      exact ⟨i, hi, type_decParent i⟩
    refine h.move hids ?_ ?_ ?_ ?_
    · intro q x i' hi'
      rw [hns, node_setNode] at hi'
      split at hi'
      next hx =>
        obtain ⟨rfl, rfl⟩ := hx
        exact hparDec i' hi'
      · exact ⟨i', hi', rfl⟩
    · intro q d' hd'
      rw [hns, dents_setNode, dents_setDents] at hd'
      split at hd'
      next hq =>
        subst hq
        exact .inl ⟨d', (OrdTree.mem_erase.mp hd').1, rfl⟩
      · exact .inl ⟨d', hd', rfl⟩
    · intro q x k k' hk hk' hreg
      rw [hns] at hk'
      refine eq_of_setNode_dir ?_ hk hk' hreg
      intro j hj
      obtain ⟨i, hi, ht⟩ := hparDec j hj
      rw [ht]
      exact hdir i hi
    · intro x
      have hnames := names_erase hget x
      rw [hns, names_setNode, hnames]
      change _ + (c x + oneLink d.inode x) = _
      rw [oneLink_apply]
      omega

theorem Backed.dupdate {newInode : UInt64} (h : Backed mw V (c + oneLink newInode))
    (ha : LinksAsExpected now note (.dupdate p parentID name newInode) V) :
    Paid mw now note (.dupdate p parentID name newInode) V c := by
  unfold Paid
  obtain ⟨status, hr, -⟩ | ⟨d, V', -, hget, hr, hns, hids⟩ :=
    V.serve_dupdate now p parentID name newInode
  · rw [hr]
    exact ⟨trivial, h⟩
  · rw [hr]
    refine ⟨fun e he => ha e d he hget, ?_⟩
    let d' : Dentry := { d with inode := newInode }
    have hget' : (V.toNamespace.dents p).get? d'.key = some d := by
      have hkey : d.key = dentryKey parentID name := key_of_dentryAt? hget
      have hsame : d'.key = d.key := rfl
      rw [hsame, hkey]
      exact hget
    have hmem := OrdTree.mem_of_get? hget
    refine h.move hids (keepsTypes_of_eq (by rw [hns]; rfl)) ?_ ?_ ?_
    · intro q e he
      rw [hns, dents_setDents] at he
      split at he
      next hq =>
        subst hq
        obtain rfl | ⟨hold, -⟩ := OrdTree.mem_insert.mp he
        · exact .inl ⟨d, hmem, rfl⟩
        · exact .inl ⟨e, hold, rfl⟩
      · exact .inl ⟨e, he, rfl⟩
    · intro q x k k' hk hk' _
      rw [hns] at hk'
      exact some.inj (hk.symm.trans hk')
    · intro x
      have hnames := names_replace hget' x
      rw [hns]
      change names _ x + (c x + oneLink d.inode x) = _ + (c x + oneLink newInode x)
      rw [oneLink_apply, oneLink_apply]
      simp only [d'] at hnames
      omega

theorem Backed.icreate (h : Backed mw V c) {uid gid : UInt32} {target : Bytes} :
    Paid mw now note (.icreate p mode uid gid target) V c := by
  unfold Paid
  obtain ⟨V', status, hr, hns, hids⟩ |
    ⟨V', info, i, hr, hlt, hid, hnew, htype, hd, hlinks, hns, hids⟩ :=
    V.serve_icreate now p mode uid gid target
  · rw [hr]
    refine ⟨trivial, h.frame hids (keepsTypes_of_eq (by rw [hns]))
      (keepsParents_of_eq (by rw [hns])) ?_ ?_⟩
    · intro x q _ hpos
      rw [hns] at hpos
      exact .inl hpos
    · intro x q j j' _ hj hj' _
      rw [hns, hj] at hj'
      cases hj'
      rw [hns]
      exact Nat.le_refl _
  · rw [hr]
    refine ⟨trivial, ?_⟩
    have hnat : info.inode.toNat = (V p).cursor.toNat + 1 := by
      have hlt' := UInt64.lt_iff_toNat_lt.mp hlt
      have hmax := (V p).endId.toNat_lt
      rw [hid, UInt64.toNat_add]
      exact Nat.mod_eq_of_lt (by simp only [UInt64.toNat_one]; omega)
    have hgrow : V.IdsGrow V' := by
      intro q
      refine ⟨(hids q).1, (hids q).2.1, ?_⟩
      rw [(hids q).2.2]
      split
      next hq =>
        rw [hq, le_iff_toNat_le]
        omega
      · exact le_refl _
    -- the new id is routed to the partition that gave it out
    have hroute : mw.getPartitionByInode info.inode = some p := by
      apply h.mapped.getPartitionByInode
      · have hs := le_iff_toNat_le.mp (h.cursor p)
        rw [le_iff_toNat_le]
        omega
      · have hlt' := UInt64.lt_iff_toNat_lt.mp hlt
        rw [le_iff_toNat_le]
        omega
    -- and nobody names or holds it yet
    have hfresh : V.toNamespace.names info.inode + c info.inode = 0 := by
      by_contra hpos
      have hle := le_iff_toNat_le.mp (h.given info.inode p hroute (by omega))
      omega
    have hcur : (V' p).cursor = info.inode := by
      rw [(hids p).2.2, if_pos rfl]
    have hnode (q : Fin n) (x : UInt64) (i' : InodeCell)
        (hi' : V'.toNamespace.node q x = some i') :
        (q = p ∧ x = info.inode ∧ i' = i) ∨
          ((q = p → x ≠ info.inode) ∧ V.toNamespace.node q x = some i') := by
      rw [hns, Namespace.node_setNode] at hi'
      split at hi'
      next hx => exact .inl ⟨hx.1, hx.2, (some.inj hi').symm⟩
      next hx => exact .inr ⟨fun hq hxe => hx ⟨hq, hxe⟩, hi'⟩
    have hearn (x : UInt64) : (c + (linkLedger mw).earn note
        (.icreate p mode uid gid target) (.ok info)) x = c x + if info.inode = x then 1 else 0 := by
      rw [← oneLink_apply]
      rfl
    refine { mapped := h.mapped.grow hgrow, cursor := ?_, used := ?_, parent := ?_, given := ?_,
             links := ?_ }
    · intro q
      rw [(hids q).1]
      exact le_trans (h.cursor q) (hgrow q).2.2
    · intro q x i' hi'
      obtain ⟨rfl, rfl, -⟩ | ⟨-, hold⟩ := hnode q x i' hi'
      · exact hcur ▸ le_refl _
      · exact le_trans (h.used q x i' hold) (hgrow q).2.2
    · intro q d hdm
      have hdm' : d ∈ (V.toNamespace.dents q).items := by rwa [hns] at hdm
      obtain ⟨hle, hdir⟩ := h.parent q d hdm'
      refine ⟨le_trans hle (hgrow q).2.2, ?_⟩
      intro i' hi'
      obtain ⟨rfl, hpar, -⟩ | ⟨-, hold⟩ := hnode q d.parentId i' hi'
      · rw [hpar, le_iff_toNat_le] at hle
        omega
      · exact hdir i' hold
    · intro x q hq hpos
      rw [hns, Namespace.names_setNode, hearn] at hpos
      split at hpos
      next hx =>
        subst hx
        obtain rfl : p = q := some.inj (hroute.symm.trans hq)
        exact hcur ▸ le_refl _
      · exact le_trans (h.given x q hq hpos) (hgrow q).2.2
    · intro x q i' hq hi' hreg
      rw [hns, Namespace.names_setNode, hearn]
      obtain ⟨rfl, rfl, rfl⟩ | ⟨hne, hold⟩ := hnode q x i' hi'
      · have hone : i'.nLink.toNat = 1 := by
          rw [htype] at hreg
          rw [hlinks, isDir_eq_false_of_isRegular hreg]
          rfl
        rw [InodeOf.backing_of_unmarked hd, hone, if_pos rfl]
        omega
      · have hx : info.inode ≠ x := by
          rintro rfl
          exact hne (some.inj (hq.symm.trans hroute)) rfl
        rw [if_neg hx]
        exact h.links x q i' hq hold hreg

theorem Backed.serve (ha : LinksAsExpected now note r V)
    (h : Backed mw V (c + (linkLedger mw).spend note r)) : Paid mw now note r V c := by
  have hzero (h : Backed mw V (c + 0)) : Backed mw V c := by rwa [add_zero] at h
  cases r with
  | icreate p mode uid gid target => exact (hzero h).icreate
  | iunlink p ino => exact Backed.iunlink h
  | ievict p ino => exact (hzero h).ievict
  | ilink p ino => exact (hzero h).ilink ha
  | iget p ino => exact (hzero h).iget
  | lookup p parentID name => exact (hzero h).lookup
  | dcreate p parentID name ino mode => exact Backed.dcreate h
  | ddelete p parentID name => exact (hzero h).ddelete ha
  | dupdate p parentID name newInode => exact Backed.dupdate h ha

theorem FilesCounted.backed (h : FilesCounted mw V) : Backed mw V 0 where
  __ := h
  parent p d hd := by
    obtain ⟨-, i, hi, hdir⟩ := h.parent p d hd
    refine ⟨h.used p _ i hi, ?_⟩
    intro j hj
    rw [← some.inj (hi.symm.trans hj)]
    exact hdir
  given ino p hp hpos := by
    obtain ⟨q, d, hd, rfl⟩ := names_pos_iff.mp hpos
    obtain ⟨q', i, hq', hi, -⟩ := h.target q d hd
    obtain rfl : q' = p := some.inj (hq'.symm.trans hp)
    exact h.used q' _ i hi
  links ino p i hp hi hreg := by
    have hfile := h.file ino p i hp hi hreg
    cases hd : i.shouldDelete with
    | false =>
      rw [backing_of_unmarked hd, hfile]
      exact Nat.le_refl _
    | true =>
      -- a marked inode is named by nobody
      have hz : V.toNamespace.names ino = 0 := by
        by_contra hne
        obtain ⟨q, d, hdm, rfl⟩ := names_pos_iff.mp (Nat.pos_of_ne_zero hne)
        obtain ⟨q', j, hq', hj, hdj⟩ := h.target q d hdm
        obtain rfl : q' = p := some.inj (hq'.symm.trans hp)
        obtain rfl : j = i := some.inj (hj.symm.trans hi)
        rw [hd] at hdj
        cases hdj
      rw [hz]
      exact Nat.zero_le _

abbrev Clients (n : Nat) :=
  Pool (Volume n) Note (Request n) (fun r => Answer r.Body) (Except Errno (Option InodeInfo))

abbrev Clients.step (mw : MetaWrapper n) (s : Clients n) :
    PoolEvent (MetaWrapper.Op n) Int64 → Option (Clients n) :=
  Pool.step mw.prog (fun now r V => V.serve now r) s

abbrev Clients.Reached (mw : MetaWrapper n)
    (allow : Clients n → PoolEvent (MetaWrapper.Op n) Int64 → Prop) (s : Clients n) :
    Clients n → Prop :=
  Reach (Clients.step mw) allow s

theorem balanced_of_reached (h : FilesCounted mw V) {s : Clients n}
    (hs : Clients.Reached mw (Pool.Admits LinksAsExpected) ⟨V, []⟩ s) :
    (linkLedger mw).Balanced (Backed mw) s := by
  refine hs.invariant ⟨[], .nil, h.backed⟩ ?_
  intro s e s' hb ha hstep
  exact hb.step mw.prog_follows (fun now note r V c hadmit hinv => hinv.serve hadmit) ha hstep

theorem Volume.serve_keeps_file (hi : V.toNamespace.node p x = some i)
    (hreg : isRegular i.type = true) :
    ∃ i', (V.serve now r).1.toNamespace.node p x = some i' ∧ isRegular i'.type = true := by
  have hkeep : ∃ i', V.toNamespace.node p x = some i' ∧ isRegular i'.type = true := ⟨i, hi, hreg⟩
  have hset {V' : Volume n} {s : Namespace n} {q : Fin n} {ino : UInt64} {j : Option InodeCell}
      (hns : V'.toNamespace = s.setNode q ino j) (hs : s.node = V.toNamespace.node)
      (hj : ∀ k, V.toNamespace.node q ino = some k → isRegular k.type = true →
        ∃ i', j = some i' ∧ i'.type = k.type) :
      ∃ i', V'.toNamespace.node p x = some i' ∧ isRegular i'.type = true := by
    rw [hns, node_setNode]
    split
    next hx =>
      obtain ⟨rfl, rfl⟩ := hx
      obtain ⟨i', hi', ht⟩ := hj i hi hreg
      exact ⟨i', hi', ht ▸ hreg⟩
    · rw [hs]
      exact hkeep
  have hput {V' : Volume n} {s : Namespace n} {q : Fin n} {ino : UInt64} {k k' : InodeCell}
      (hk : V.toNamespace.node q ino = some k) (hns : V'.toNamespace = s.setNode q ino (some k'))
      (hs : s.node = V.toNamespace.node) (ht : k'.type = k.type) :
      ∃ i', V'.toNamespace.node p x = some i' ∧ isRegular i'.type = true :=
    hset hns hs fun j hj _ => ⟨k', rfl, some.inj (hk.symm.trans hj) ▸ ht⟩
  cases r with
  | icreate q mode uid gid target =>
    obtain ⟨V', status, hr, hns, -⟩ | ⟨V', info, k, hr, -, -, hnew, -, -, -, hns, -⟩ :=
      V.serve_icreate now q mode uid gid target
    · rw [hr, hns]
      exact hkeep
    · rw [hr]
      refine hset hns rfl ?_
      intro j hj
      rw [hnew] at hj
      cases hj
  | iunlink q ino =>
    obtain ⟨status, hr, -⟩ | ⟨k, V', info, hk, -, hr, hns, -⟩ := V.serve_iunlink now q ino
    · rw [hr]
      exact hkeep
    · rw [hr]
      refine hset hns rfl ?_
      intro j hj hreg'
      obtain rfl : k = j := some.inj (hk.symm.trans hj)
      refine ⟨k.unlink now, if_neg ?_, type_unlink now k⟩
      rw [isDir_eq_false_of_isRegular hreg']
      simp
  | ievict q ino =>
    obtain ⟨V', hV', -, hsame | ⟨k, hk, -, -, hns⟩⟩ := V.serve_ievict now q ino
    · rw [hV', hsame]
      exact hkeep
    · rw [hV']
      exact hput hk hns rfl rfl
  | ilink q ino =>
    obtain ⟨status, hr, -⟩ | ⟨k, V', info, hk, -, hr, -, hns, -⟩ := V.serve_ilink now q ino
    · rw [hr]
      exact hkeep
    · rw [hr]
      exact hput hk hns rfl rfl
  | iget q ino =>
    obtain ⟨V', hV', -, hsame | ⟨k, hk, hns⟩⟩ := V.serve_iget now q ino
    · rw [hV', hsame]
      exact hkeep
    · rw [hV']
      exact hput hk hns rfl rfl
  | lookup q parentID name =>
    obtain ⟨-, hr⟩ | ⟨d, -, hr⟩ := V.serve_lookup now q parentID name
    all_goals
      rw [hr]
      exact hkeep
  | dcreate q parentID name ino mode =>
    obtain ⟨status, hr, -⟩ | ⟨k, V', -, hk, -, -, -, hr, hns, -⟩ :=
      V.serve_dcreate now q parentID name ino mode
    · rw [hr]
      exact hkeep
    · rw [hr]
      exact hput hk hns rfl rfl
  | ddelete q parentID name =>
    obtain ⟨-, hr⟩ | ⟨d, V', -, hr, hns, -⟩ := V.serve_ddelete now q parentID name
    · rw [hr]
      exact hkeep
    · rw [hr]
      refine hset hns rfl ?_
      intro j hj _
      rw [hj]
      exact ⟨decParent j, rfl, type_decParent j⟩
  | dupdate q parentID name newInode =>
    obtain ⟨status, hr, -⟩ | ⟨d, V', -, -, hr, hns, -⟩ :=
      V.serve_dupdate now q parentID name newInode
    · rw [hr]
      exact hkeep
    · rw [hr, hns]
      exact hkeep

theorem file_stays {allow : Clients n → PoolEvent (MetaWrapper.Op n) Int64 → Prop}
    {s₁ s₂ : Clients n} (hs : Clients.Reached mw allow s₁ s₂)
    (hi : s₁.state.toNamespace.node p x = some i) (hreg : isRegular i.type = true) :
    ∃ i', s₂.state.toNamespace.node p x = some i' ∧ isRegular i'.type = true := by
  refine hs.invariant (P := fun s =>
    ∃ i', s.state.toNamespace.node p x = some i' ∧ isRegular i'.type = true) ⟨i, hi, hreg⟩ ?_
  rintro s e s' ⟨i, hi, hreg⟩ - hstep
  cases e with
  | start op =>
    cases hstep
    exact ⟨i, hi, hreg⟩
  | step k now =>
    unfold Clients.step Pool.step at hstep
    dsimp only at hstep
    split at hstep
    · cases hstep
      exact serve_keeps_file hi hreg
    · cases hstep

/-- A regular file that was there at any time is there at any later time, with a link for each
dentry that names it. -/
theorem named_file_backed {s₁ s₂ : Clients n} (h : FilesCounted mw V)
    (h₁ : Clients.Reached mw (Pool.Admits LinksAsExpected) ⟨V, []⟩ s₁)
    (h₂ : Clients.Reached mw (Pool.Admits LinksAsExpected) s₁ s₂) {p : Fin n} {ino : UInt64}
    {i : InodeCell} (hp : mw.getPartitionByInode ino = some p)
    (hi : s₁.state.toNamespace.node p ino = some i) (hreg : isRegular i.type = true) :
    ∃ j, s₂.state.toNamespace.node p ino = some j ∧
      s₂.state.toNamespace.names ino ≤ j.nLink.toNat := by
  obtain ⟨j, hj, hregj⟩ := file_stays h₂ hi hreg
  obtain ⟨held, -, hb⟩ := balanced_of_reached h (h₁.trans h₂)
  have hlinks := hb.links ino p j hp hj hregj
  refine ⟨j, hj, ?_⟩
  unfold backing at hlinks
  split at hlinks <;> omega

/-- A client takes a link of the file. -/
theorem named_file_backed_ilink :
    ∃ s, Clients.Reached oneRange (Pool.Admits LinksAsExpected) ⟨(oneEntry 0), []⟩ s ∧
      s.progs ≠ [] ∧ ∃ j, s.state.toNamespace.node 0 2 = some j ∧
        s.state.toNamespace.names 2 ≤ j.nLink.toNat := by
  have hstart : Clients.Reached oneRange (Pool.Admits LinksAsExpected) ⟨(oneEntry 0), []⟩
      ⟨(oneEntry 0), [oneRange.prog (.link 1 [100] 2)]⟩ :=
    .next (e := .start (.link 1 [100] 2)) .start trivial rfl
  have hlink : Pool.Admits LinksAsExpected
      (⟨(oneEntry 0), [oneRange.prog (.link 1 [100] 2)]⟩ : Clients 1)
      (.step 0 0 : PoolEvent (MetaWrapper.Op 1) Int64) := by
    intro note r k h
    obtain ⟨-, rfl, -⟩ := Prog.call.inj (some.inj h)
    intro i hi _
    cases hi
    decide
  have hstep := Reach.next hstart hlink rfl
  exact ⟨_, hstep, nofun,
    named_file_backed (consistent_oneEntry (.inl rfl)).toFilesCounted .start hstep (by decide) rfl
    (by decide)⟩

/-- While one client has renamed `s` to `d` but not yet deleted the dentry `s`, others delete `s`
and make a new file of that name. The rename then deletes the new dentry and drops the last link of
the file that `d` names. -/
def lostName : List (PoolEvent (MetaWrapper.Op 1) Int64) :=
  [.start (.rename 1 [115] 1 [100]), .step 0 0, .step 0 0, .step 0 0,
   .start (.delete 1 [115] false), .step 1 0, .step 1 0,
   .start (.create [⟨0, Nat.one_pos⟩] 0 1 [115] 0 0 0 []), .step 2 0, .step 2 0,
   .step 0 0, .step 0 0]

theorem rename_frees_named_file : FilesCounted oneRange (oneEntry 0) ∧
      ∃ s, Clients.Reached oneRange (fun _ _ => True) ⟨(oneEntry 0), []⟩ s ∧
        oneRange.getPartitionByInode 2 = some 0 ∧
        ∃ i, s.state.toNamespace.node 0 2 = some i ∧ isRegular i.type = true ∧
          i.nLink.toNat = 0 ∧ s.state.toNamespace.names 2 = 1 :=
  ⟨(consistent_oneEntry (.inl rfl)).toFilesCounted, _,
    Reach.of_foldlM lostName rfl (fun _ _ _ => trivial) .start, by decide, _, rfl, by decide,
    by decide, rfl⟩

end ChubaoFS
