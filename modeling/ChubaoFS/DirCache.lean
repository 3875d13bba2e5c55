import ChubaoFS.RenameAlone

namespace ChubaoFS

open MetaPartition Function Option

variable {n : Nat} {α : Type} {dir : UInt64} {name : Bytes} {V : Volume n} {d : Dentry}
  {dcache : UInt64 → Bytes → Option UInt64} {ino : UInt64} {q : Fin n}

/-! The names that a client caches. `Dir.ReadDirAll` keeps the children it lists in the `dcache` of
the directory, and `Dir.Lookup` asks the meta partition only for a name that is not there. -/

def MetaPartition.readDir (mp : MetaPartition) (parentID : UInt64) : List Dentry :=
  mp.dentryTree.ascendRange (dentryKey parentID []) (dentryKey (parentID + 1) [])

def MetaWrapper.lookupLl (mw : MetaWrapper n) (parentID : UInt64) (name : Bytes) :
    Client n (Except Errno UInt64) :=
  match mw.getPartitionByInode parentID with
  | none => .ret (.error .enoent)
  | some parentMP => .call {} (.lookup parentMP parentID name) fun
      | .ok (inode, _) => .ret (.ok inode)
      | a => .ret (.error a.errno)

/-- One client of a volume: `dcache` holds the entries of each `Dir` that have not expired. -/
structure DirClient (n : Nat) where
  volume : Volume n
  dcache : UInt64 → Bytes → Option UInt64

namespace DirClient

inductive Op (n : Nat)
  | readDirAll (dir : UInt64)
  -- `Mkdir` too, which only sets the directory bit of the mode
  | create (dir : UInt64) (name : Bytes) (mode uid gid : UInt32) (rwPartitions : List (Fin n))
      (epoch : Nat)
  | remove (dir : UInt64) (name : Bytes) (isDir : Bool)
  | rename (dir : UInt64) (oldName : Bytes) (dstDir : UInt64) (newName : Bytes)
  | expire (dir : UInt64)

variable (mw : MetaWrapper n)

def listed (children : List Dentry) : Bytes → Option UInt64 :=
  children.foldl (fun dcache child => Function.update dcache child.name (some child.inode))
    fun _ => none

def deleted (dcache : UInt64 → Bytes → Option UInt64) (dir : UInt64) (name : Bytes) :
    UInt64 → Bytes → Option UInt64 :=
  Function.update dcache dir (Function.update (dcache dir) name none)

def call (s : DirClient n) (clock : ℕ → Int64) (p : Client n (Except Errno (Option InodeInfo)))
    (dcache : UInt64 → Bytes → Option UInt64) : Option (DirClient n) :=
  match runAlone clock p 0 s.volume with
  | (V, .ok _) => some ⟨V, dcache⟩
  | (_, .error _) => none

/-- A successful call, with the times at which the meta nodes serve its requests. -/
def step (s : DirClient n) : (ℕ → Int64) × Op n → Option (DirClient n)
  | (_, .readDirAll dir) => (mw.getPartitionByInode dir).map fun mp =>
      { s with dcache := Function.update s.dcache dir (listed (((s.volume mp).readDir dir).map
        fun child => { child with name := jsonName child.name })) }
  | (clock, .create dir name mode uid gid rwPartitions epoch) =>
    s.call clock (mw.createLl rwPartitions epoch dir (jsonName name) mode uid gid []) s.dcache
  | (clock, .remove dir name isDir) =>
    s.call clock (mw.deleteLl dir (jsonName name) isDir) (deleted s.dcache dir name)
  | (clock, .rename dir oldName dstDir newName) =>
    s.call clock (mw.renameLl dir (jsonName oldName) dstDir (jsonName newName))
      (deleted s.dcache dir oldName)
  | (_, .expire dir) => some { s with dcache := Function.update s.dcache dir fun _ => none }

def lookup (s : DirClient n) (clock : ℕ → Int64) (dir : UInt64) (name : Bytes) :
    Except Errno UInt64 :=
  match s.dcache dir name with
  | some ino => .ok ino
  | none => (runAlone clock (mw.lookupLl dir (jsonName name)) 0 s.volume).2

def dentry? (s : DirClient n) (dir : UInt64) (name : Bytes) : Option Dentry :=
  (mw.getPartitionByInode dir).bind fun p => s.volume.toNamespace.dentryAt? p dir name

/-- No dentry that a call changes is cached when it returns: a rename does not go to a name that the
cache of the new directory holds, and JSON does not make another cached name of the one that is
removed or renamed. The names that are listed are UTF-8, as all that came to the server. -/
def Uncached (s : DirClient n) : (ℕ → Int64) × Op n → Prop
  | (_, .readDirAll dir) => ∀ mp, mw.getPartitionByInode dir = some mp →
      ∀ child ∈ (s.volume mp).readDir dir, jsonName child.name = child.name
  | (_, .remove dir name _) => deleted s.dcache dir name dir (jsonName name) = none
  | (_, .rename dir oldName dstDir newName) =>
    deleted s.dcache dir oldName dir (jsonName oldName) = none ∧
      deleted s.dcache dir oldName dstDir (jsonName newName) = none
  | _ => True

end DirClient

/-! No request but `ddelete` and `dupdate` changes a dentry that is there. -/

def Request.Spares (dir : UInt64) (name : Bytes) : Request n → Prop
  | .ddelete _ parentID x => ¬ (dir = parentID ∧ name = x)
  | .dupdate _ parentID x _ => ¬ (dir = parentID ∧ name = x)
  | _ => True

theorem Volume.dentryAt?_serve {r : Request n} (hr : r.Spares dir name)
    (h : V.toNamespace.dentryAt? q dir name = some d) (now : Int64) :
    (V.serve now r).1.toNamespace.dentryAt? q dir name = some d := by
  cases r with
  | icreate p mode uid gid target =>
    obtain ⟨V', _, hs, hns, -⟩ | ⟨V', _, i, hs, -, -, -, -, -, -, hns, -⟩ :=
      V.serve_icreate now p mode uid gid target
    · rw [hs, hns, h]
    · rw [hs, hns]
      exact h
  | iunlink p ino =>
    rw [V.toNamespace_serve_iunlink, Namespace.dentryAt?_unlinked, h]
  | ievict p ino =>
    obtain ⟨V', hs, -, hns | ⟨i, -, -, -, hns⟩⟩ := V.serve_ievict now p ino
    · rw [hs, hns, h]
    · rw [hs, hns]
      exact h
  | ilink p ino =>
    obtain ⟨_, hs, -⟩ | ⟨i, V', _, -, -, hs, -, hns, -⟩ := V.serve_ilink now p ino
    · rw [hs, h]
    · rw [hs, hns]
      exact h
  | iget p ino =>
    obtain ⟨V', hs, -, hns | ⟨i, -, hns⟩⟩ := V.serve_iget now p ino
    · rw [hs, hns, h]
    · rw [hs, hns]
      exact h
  | lookup p parentID x => exact h
  | dcreate p parentID x inode mode =>
    obtain ⟨_, hs, -⟩ | ⟨i, V', -, -, -, -, hnew, hs, hns, -⟩ :=
      V.serve_dcreate now p parentID x inode mode
    · rw [hs, h]
    · have hkey : ¬ (q = p ∧ dir = parentID ∧ name = x) := by
        rintro ⟨rfl, rfl, rfl⟩
        rw [h] at hnew
        cases hnew
      rw [hs, hns]
      exact (Namespace.dentryAt?_setDents_insert ..).trans ((if_neg hkey).trans h)
  | ddelete p parentID x =>
    obtain ⟨-, hs⟩ | ⟨_, V', -, hs, hns, -⟩ := V.serve_ddelete now p parentID x
    · rw [hs, h]
    · rw [hs, hns]
      exact (Namespace.dentryAt?_withoutDentry ..).trans ((if_neg fun hc => hr hc.2).trans h)
  | dupdate p parentID x newInode =>
    obtain ⟨_, hs, -⟩ | ⟨e, V', -, he, hs, hns, -⟩ := V.serve_dupdate now p parentID x newInode
    · rw [hs, h]
    · obtain ⟨hp, hx⟩ := dentryKey_inj.mp (Namespace.key_of_dentryAt? he)
      rw [hs, hns]
      refine (Namespace.dentryAt?_setDents_insert ..).trans ((if_neg fun hc => hr ?_).trans h)
      exact ⟨hc.2.1.trans hp, hc.2.2.trans hx⟩

namespace Client

def Spares (dir : UInt64) (name : Bytes) : Client n α → Prop
  | .ret _ => True
  | .call _ r k => r.Spares dir name ∧ ∀ a, Spares dir name (k a)

theorem Spares.dentryAt? {p : Client n α} (hp : p.Spares dir name)
    (h : V.toNamespace.dentryAt? q dir name = some d) (clock : ℕ → Int64) (i : ℕ) :
    (runAlone clock p i V).1.toNamespace.dentryAt? q dir name = some d := by
  induction p generalizing i V with
  | ret a => exact h
  | call note r k ih =>
    rw [runAlone_call]
    exact ih _ (hp.2 _) (Volume.dentryAt?_serve hp.1 h (clock i)) (i + 1)

variable {mp : Fin n} {parentID ino : UInt64} {x : Bytes} {mode : UInt32} {note : Note}

theorem spares_dcreate {k : Answer Unit → Client n α} (hk : ∀ a, (k a).Spares dir name) :
    (dcreate mp parentID x ino mode k).Spares dir name := by
  unfold dcreate
  split
  · exact hk _
  · exact ⟨trivial, hk⟩

theorem spares_dupdate {k : Answer UInt64 → Client n α} (hne : ¬ (dir = parentID ∧ name = x))
    (hk : ∀ a, (k a).Spares dir name) : (dupdate note mp parentID x ino k).Spares dir name := by
  unfold dupdate
  split
  · exact hk _
  · exact ⟨hne, hk⟩

end Client

namespace MetaWrapper

open Client

variable (mw : MetaWrapper n) {parentID : UInt64} {x : Bytes} {mode uid gid : UInt32}

theorem spares_createLl (rwPartitions : List (Fin n)) (epoch : Nat) (target : Bytes) :
    (mw.createLl rwPartitions epoch parentID x mode uid gid target).Spares dir name := by
  unfold createLl
  split
  · trivial
  next parentMP _ =>
  induction tryOrder rwPartitions epoch with
  | nil => trivial
  | cons mp mps ih =>
    refine ⟨trivial, fun a => ?_⟩
    obtain info | _ | _ := a
    · refine spares_dcreate fun a => ?_
      obtain _ | status | _ := a
      · trivial
      · cases status with
        | exist => trivial
        | _ => exact ⟨trivial, fun _ => ⟨trivial, fun _ => trivial⟩⟩
      · exact ⟨trivial, fun _ => ⟨trivial, fun _ => trivial⟩⟩
    · exact ih
    · exact ih

theorem spares_deleteDentryOf (parentMP : Fin n) (hne : ¬ (dir = parentID ∧ name = x)) :
    (mw.deleteDentryOf parentMP parentID x).Spares dir name := by
  refine ⟨hne, fun a => ?_⟩
  obtain inode | _ | _ := a
  · dsimp only
    split
    · trivial
    · exact ⟨trivial, fun a => by cases a <;> trivial⟩
  · trivial
  · trivial

theorem spares_deleteLl (isDir : Bool) (hne : ¬ (dir = parentID ∧ name = x)) :
    (mw.deleteLl parentID x isDir).Spares dir name := by
  unfold deleteLl
  split
  · trivial
  next parentMP _ =>
  have hdelete := mw.spares_deleteDentryOf parentMP hne
  split
  · refine ⟨trivial, fun a => ?_⟩
    obtain body | _ | _ := a
    · dsimp only
      split
      · trivial
      split
      · trivial
      refine ⟨trivial, fun a => ?_⟩
      obtain info | _ | _ := a
      · dsimp only
        split
        · trivial
        · exact hdelete
      · trivial
      · trivial
    · trivial
    · trivial
  · exact hdelete

section Rename

variable {y : Renaming n} (hsrc : ¬ (dir = y.srcParentID ∧ name = y.srcName))
  (hdst : ¬ (dir = y.dstParentID ∧ name = y.dstName))

theorem spares_dropLink (err : Errno) : (dropLink y err).Spares dir name :=
  ⟨trivial, fun _ => trivial⟩

include hdst

theorem spares_restoreDst (old : UInt64) (err : Errno) :
    (restoreDst y old err).Spares dir name := by
  have hafter (a : Answer UInt64) : (afterRestore y err a).Spares dir name := by
    obtain _ | _ | _ := a
    · exact spares_dropLink err
    · trivial
    · trivial
  unfold restoreDst
  split
  · exact ⟨hdst, hafter⟩
  · exact spares_dupdate hdst hafter

include hsrc

theorem spares_deleteSrc (old : UInt64) : (mw.deleteSrc y old).Spares dir name := by
  refine ⟨hsrc, fun a => ?_⟩
  obtain _ | _ | _ := a
  · refine ⟨trivial, fun _ => ?_⟩
    dsimp only
    split
    · trivial
    split
    · trivial
    · exact ⟨trivial, fun _ => trivial⟩
  all_goals exact spares_restoreDst hdst old _

theorem spares_createDst : (mw.createDst y).Spares dir name := by
  refine spares_dcreate fun a => ?_
  obtain _ | status | _ := a
  · exact mw.spares_deleteSrc hsrc hdst 0
  · dsimp only
    split
    · refine spares_dupdate hdst fun a => ?_
      obtain old | _ | _ := a
      · exact mw.spares_deleteSrc hsrc hdst old
      all_goals exact spares_dropLink _
    · exact spares_dropLink _
  · exact spares_dropLink _

end Rename

theorem spares_renameLl {sp dp : UInt64} {sn dn : Bytes} (hsrc : ¬ (dir = sp ∧ name = sn))
    (hdst : ¬ (dir = dp ∧ name = dn)) : (mw.renameLl sp sn dp dn).Spares dir name := by
  unfold renameLl
  split
  · trivial
  split
  · trivial
  refine ⟨trivial, fun a => ?_⟩
  obtain body | _ | _ := a
  · dsimp only
    split
    · trivial
    refine ⟨trivial, fun a => ?_⟩
    obtain _ | _ | _ := a
    · exact mw.spares_createDst hsrc hdst
    · trivial
    · trivial
  · trivial
  · trivial

end MetaWrapper

namespace DirClient

variable {mw : MetaWrapper n} {s s' : DirClient n}

/-- Every entry of the cache is a dentry of the meta partition. -/
def Coherent (mw : MetaWrapper n) (s : DirClient n) : Prop :=
  ∀ dir name ino, s.dcache dir name = some ino →
    jsonName name = name ∧ ∃ d, s.dentry? mw dir name = some d ∧ d.inode = ino

theorem listed_eq_some {children : List Dentry} (h : listed children name = some ino) :
    ∃ d ∈ children, d.name = name ∧ d.inode = ino := by
  unfold listed at h
  induction children using List.reverseRecOn with
  | nil => cases h
  | append_singleton l c ih =>
    rw [List.foldl_append, List.foldl_cons, List.foldl_nil, update_apply] at h
    split at h
    next hc => exact ⟨c, by simp, hc.symm, some.inj h⟩
    · obtain ⟨d, hd, hrest⟩ := ih h
      exact ⟨d, List.mem_append_left _ hd, hrest⟩

theorem parentId_of_mem_readDir {mp : MetaPartition} (h : d ∈ mp.readDir dir) :
    d.parentId = dir ∧ d ∈ mp.dentryTree.items := by
  obtain ⟨hmem, hrange⟩ := List.mem_filter.mp h
  obtain ⟨hlo, hhi⟩ := of_decide_eq_true hrange
  refine ⟨?_, hmem⟩
  have hlo' : dir.toNat ≤ d.parentId.toNat := by
    obtain hlt | ⟨heq, -⟩ := Prod.Lex.le_iff.mp hlo
    · exact Nat.le_of_lt hlt
    · exact Nat.le_of_eq heq
  have hhi' : d.parentId.toNat < (dir + 1).toNat := by
    obtain hlt | ⟨-, hlt⟩ := Prod.Lex.lt_iff.mp hhi
    · exact hlt
    · exact absurd hlt (List.not_lt_nil _)
  rw [UInt64.toNat_add] at hhi'
  have hone : (1 : UInt64).toNat = 1 := rfl
  exact UInt64.toNat_inj.mp (by omega)

theorem Coherent.call {clock : ℕ → Int64} {p : Client n (Except Errno (Option InodeInfo))}
    (h : s.Coherent mw)
    (hsub : ∀ dir name ino, dcache dir name = some ino → s.dcache dir name = some ino)
    (hp : ∀ dir name, dcache dir name ≠ none → p.Spares dir name)
    (hs : s.call clock p dcache = some s') : s'.Coherent mw := by
  have hV : s'.volume = (runAlone clock p 0 s.volume).1 ∧ s'.dcache = dcache := by
    unfold DirClient.call at hs
    split at hs
    next V _ heq =>
      cases hs
      exact ⟨by rw [heq], rfl⟩
    · cases hs
  intro dir name ino hino
  rw [hV.2] at hino
  obtain ⟨hname, d, hd, rfl⟩ := h dir name ino (hsub dir name ino hino)
  obtain ⟨q, hq, hget⟩ := bind_eq_some_iff.mp hd
  refine ⟨hname, d, bind_eq_some_iff.mpr ⟨q, hq, ?_⟩, rfl⟩
  rw [hV.1]
  exact (hp dir name (hino ▸ some_ne_none _)).dentryAt? hget clock 0

theorem deleted_apply (dcache : UInt64 → Bytes → Option UInt64) (dir dir' : UInt64)
    (name name' : Bytes) : deleted dcache dir name dir' name' =
      if dir' = dir ∧ name' = name then none else dcache dir' name' := by
  unfold deleted
  by_cases hd : dir' = dir
  · subst hd
    simp [update_apply]
  · simp [hd]

theorem deleted_eq_some {dir' : UInt64} {name' : Bytes}
    (h : deleted dcache dir name dir' name' = some ino) :
    ¬ (dir' = dir ∧ name' = name) ∧ dcache dir' name' = some ino := by
  rw [deleted_apply] at h
  split at h
  · cases h
  · exact ⟨‹_›, h⟩

theorem Coherent.step {e : (ℕ → Int64) × Op n} (h : s.Coherent mw) (ha : s.Uncached mw e)
    (hs : s.step mw e = some s') : s'.Coherent mw := by
  obtain ⟨clock, op⟩ := e
  cases op with
  | readDirAll dir =>
    obtain ⟨p, hp, rfl⟩ := map_eq_some_iff.mp hs
    intro dir' name ino hino
    dsimp only at hino
    by_cases hd : dir' = dir
    · subst hd
      rw [update_self] at hino
      obtain ⟨_, hchild, rfl, rfl⟩ := listed_eq_some hino
      obtain ⟨d, hd, rfl⟩ := List.mem_map.mp hchild
      have hname := ha p hp d hd
      obtain ⟨rfl, hmem⟩ := parentId_of_mem_readDir hd
      dsimp only
      rw [hname]
      exact ⟨hname, d, bind_eq_some_iff.mpr
        ⟨p, hp, OrdTree.get?_eq_some_iff.mpr ⟨hmem, rfl⟩⟩, rfl⟩
    · rw [update_of_ne hd] at hino
      exact h dir' name ino hino
  | create dir name mode uid gid rwPartitions epoch =>
    exact h.call (fun _ _ _ => id) (fun _ _ _ => mw.spares_createLl rwPartitions epoch []) hs
  | remove dir name isDir =>
    refine h.call (fun _ _ _ hc => (deleted_eq_some hc).2) (fun _ _ hc => ?_) hs
    refine mw.spares_deleteLl isDir ?_
    rintro ⟨rfl, rfl⟩
    exact hc ha
  | rename dir oldName dstDir newName =>
    refine h.call (fun _ _ _ hc => (deleted_eq_some hc).2) (fun _ _ hc => ?_) hs
    refine mw.spares_renameLl ?_ ?_
    · rintro ⟨rfl, rfl⟩
      exact hc ha.1
    · rintro ⟨rfl, rfl⟩
      exact hc ha.2
  | expire dir =>
    cases hs
    intro dir' name ino hino
    dsimp only at hino
    rw [update_apply] at hino
    split at hino
    · cases hino
    · exact h dir' name ino hino

/-- A client alone on the volume, from empty caches on. -/
theorem lookup_of_reach (V : Volume n) (h : Reach (step mw) (Uncached mw) ⟨V, fun _ _ => none⟩ s)
    (clock : ℕ → Int64) (dir : UInt64) (name : Bytes) :
    s.lookup mw clock dir name =
      match s.dentry? mw dir (jsonName name) with
      | some d => .ok d.inode
      | none => .error .enoent := by
  have hcoh : s.Coherent mw := by
    refine h.invariant ?_ fun s e s' hc ha hs => hc.step ha hs
    intro _ _ _ hnone
    cases hnone
  unfold lookup
  split
  next ino hino =>
    obtain ⟨hname, d, hd, rfl⟩ := hcoh dir name ino hino
    rw [hname, hd]
  · unfold dentry? MetaWrapper.lookupLl
    cases mw.getPartitionByInode dir with
    | none => rfl
    | some p =>
      dsimp only [bind_some]
      rw [runAlone_call]
      obtain ⟨hget, hr⟩ | ⟨d, hget, hr⟩ := s.volume.serve_lookup (clock 0) p dir (jsonName name)
      all_goals
        rw [hr, hget]
        rfl

/-- An entry of the root is listed and another one is renamed. -/
theorem lookup_of_reach_renamed : ∃ s, Reach (step oneRange) (Uncached oneRange)
    ⟨oneEntry 0, fun _ _ => none⟩ s ∧ s.lookup oneRange (fun _ => 0) 1 [100] = .ok 2 := by
  have hrun : ∃ s, Reach (step oneRange) (Uncached oneRange) ⟨oneEntry 0, fun _ _ => none⟩ s ∧
      (s.dentry? oneRange 1 (jsonName [100])).map Dentry.inode = some 2 :=
    ⟨_, .next (e := (fun _ => 0, .rename 1 [115] 1 [100]))
      (.next (e := (fun _ => 0, .readDirAll 1)) .start
        (fun mp _ => by rw [Fin.fin_one_eq_zero mp]; decide) rfl) ⟨rfl, rfl⟩ rfl, rfl⟩
  obtain ⟨s, h, hd⟩ := hrun
  obtain ⟨d, hd, hino⟩ := map_eq_some_iff.mp hd
  refine ⟨s, h, (lookup_of_reach _ h _ _ _).trans ?_⟩
  rw [hd, ← hino]

/-- A file is renamed over one whose name was listed: the lookup finds the old inode. -/
theorem lookup_stale_after_rename : ∃ s, Reach (step oneRange) (fun _ _ => True)
    ⟨oneEntry 0, fun _ _ => none⟩ s ∧ s.lookup oneRange (fun _ => 0) 1 [100] = .ok 3 ∧
      (s.dentry? oneRange 1 [100]).map Dentry.inode = some 2 :=
  ⟨_, .next (e := (fun _ => 0, .rename 1 [115] 1 [100]))
    (.next (e := (fun _ => 0, .readDirAll 1))
      (.next (e := (fun _ => 0, .create 1 [100] 0 0 0 [0] 0)) .start trivial rfl) trivial rfl)
    trivial rfl, rfl, rfl⟩

end DirClient
end ChubaoFS
