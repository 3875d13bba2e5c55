import ChubaoFS.SdkApi
import ChubaoFS.RpcCases

namespace ChubaoFS

variable {n : Nat} {k : Answer InodeInfo → Client n α}

def oneLink (ino : UInt64) : UInt64 → ℕ := Pi.single ino 1

theorem oneLink_apply (ino x : UInt64) : oneLink ino x = if ino = x then 1 else 0 := by
  rw [oneLink, Pi.single_apply]
  simp only [eq_comm]

def linkLedger (mw : MetaWrapper n) :
    Ledger Note (Request n) (fun r => Answer r.Body) (UInt64 → ℕ) where
  spend _
    | .iunlink _ ino => oneLink ino
    | .dcreate _ _ _ ino _ => oneLink ino
    | .dupdate _ _ _ ino => oneLink ino
    | _ => 0
  earn _
    | .icreate .., .ok info => oneLink info.inode
    | .ilink p ino, .ok _ => if mw.getPartitionByInode ino = some p then oneLink ino else 0
    | .dcreate .., .ok _ => 0
    | .dcreate _ _ _ ino _, _ => oneLink ino
    | .ddelete .., .ok ino => oneLink ino
    | .dupdate .., .ok old => oneLink old
    | .dupdate _ _ _ ino, _ => oneLink ino
    | _, _ => 0
  expects note
    | .ddelete .., .ok ino => ∀ e, note.expect = some e → ino = e
    | .dupdate .., .ok old => ∀ e, note.expect = some e → old = e
    | _, _ => True

namespace MetaWrapper

open Client

variable (mw : MetaWrapper n) {α : Type} {mp : Fin n} {parentID inode : UInt64} {name : Bytes}
  {rest : UInt64 → ℕ}

theorem follows_dcreate {mode : UInt32} {k : Answer Unit → Client n α}
    (hok : (linkLedger mw).Follows (k (.ok ())) rest)
    (hbad : ∀ a, a ≠ .ok () → (linkLedger mw).Follows (k a) (rest + oneLink inode)) :
    (linkLedger mw).Follows (dcreate mp parentID name inode mode k) (rest + oneLink inode) := by
  unfold dcreate
  split
  · exact hbad _ nofun
  refine ⟨rest, rfl, ?_⟩
  intro a _
  cases a with
  | ok u => exact hok.add_zero
  | refused status | failed => exact hbad _ nofun

variable {note : Note}

theorem follows_dupdate {newInode : UInt64} {k : Answer UInt64 → Client n α}
    (hok : ∀ old, (∀ e, note.expect = some e → old = e) →
      (linkLedger mw).Follows (k (.ok old)) (rest + oneLink old))
    (hbad : ∀ a, (∀ old, a ≠ .ok old) → (linkLedger mw).Follows (k a) (rest + oneLink newInode)) :
    (linkLedger mw).Follows (dupdate note mp parentID name newInode k)
      (rest + oneLink newInode) := by
  unfold dupdate
  split
  · exact hbad _ nofun
  refine ⟨rest, rfl, ?_⟩
  intro a ha
  cases a with
  | ok old => exact hok old ha
  | refused status | failed => exact hbad _ nofun

theorem follows_iunlink (hk : ∀ a, (linkLedger mw).Follows (k a) rest) :
    (linkLedger mw).Follows (.call note (.iunlink mp inode) k) (rest + oneLink inode) := by
  refine ⟨rest, rfl, ?_⟩
  intro a _
  cases a <;> exact (hk _).add_zero

theorem follows_ilink (hroute : mw.getPartitionByInode inode = some mp)
    (hok : ∀ info, (linkLedger mw).Follows (k (.ok info)) (rest + oneLink inode))
    (hbad : ∀ a, (∀ info, a ≠ .ok info) → (linkLedger mw).Follows (k a) rest) :
    (linkLedger mw).Follows (.call note (.ilink mp inode) k) rest := by
  refine ⟨rest, (add_zero rest).symm, ?_⟩
  intro a _
  cases a with
  | ok info => simpa [linkLedger, hroute] using hok info
  | refused status => exact (hbad (.refused status) nofun).add_zero
  | failed => exact (hbad .failed nofun).add_zero

theorem follows_ddelete {k : Answer UInt64 → Client n α}
    (hok : ∀ ino, (∀ e, note.expect = some e → ino = e) →
      (linkLedger mw).Follows (k (.ok ino)) (rest + oneLink ino))
    (hbad : ∀ a, (∀ ino, a ≠ .ok ino) → (linkLedger mw).Follows (k a) rest) :
    (linkLedger mw).Follows (.call note (.ddelete mp parentID name) k) rest := by
  refine ⟨rest, (add_zero rest).symm, ?_⟩
  intro a ha
  cases a with
  | ok ino => exact hok ino ha
  | refused status => exact (hbad (.refused status) nofun).add_zero
  | failed => exact (hbad .failed nofun).add_zero

theorem follows_read {r : Request n} {k : Answer r.Body → Client n α}
    (hspend : (linkLedger mw).spend note r = 0) (hearn : ∀ a, (linkLedger mw).earn note r a = 0)
    (hk : ∀ a, (linkLedger mw).Follows (k a) rest) :
    (linkLedger mw).Follows (.call note r k) rest := by
  refine ⟨rest, by rw [hspend, add_zero], ?_⟩
  intro a _
  rw [hearn, add_zero]
  exact hk a

theorem createDentryFor_follows (parentMP mp : Fin n) (parentID : UInt64) (name : Bytes)
    (mode : UInt32) (info : InodeInfo) :
    (linkLedger mw).Follows (createDentryFor parentMP mp parentID name mode info)
      (0 + oneLink info.inode) := by
  refine mw.follows_dcreate trivial ?_
  intro a ha
  have hundo (b : Answer Unit) : (linkLedger mw).Follows
      (.call undoing (.iunlink mp info.inode) fun _ =>
        .call undoing (.ievict mp info.inode) fun _ =>
          .ret (.error b.errno) : Client n (Except Errno (Option InodeInfo)))
      (0 + oneLink info.inode) :=
    mw.follows_iunlink fun _ => mw.follows_read rfl (fun b => by cases b <;> rfl) fun _ => trivial
  cases a with
  | ok u => exact absurd rfl ha
  | failed => exact hundo .failed
  | refused status =>
    cases status with
    | exist => trivial
    | _ => exact hundo _

theorem createInodeIn_follows (parentMP : Fin n) (parentID : UInt64) (name : Bytes)
    (mode uid gid : UInt32) (target : Bytes) (mps : List (Fin n)) :
    (linkLedger mw).Follows (createInodeIn parentMP parentID name mode uid gid target mps) 0 := by
  induction mps with
  | nil => trivial
  | cons mp mps ih =>
    refine ⟨0, rfl, ?_⟩
    intro a _
    cases a with
    | ok info => exact mw.createDentryFor_follows parentMP mp parentID name mode info
    | refused status | failed => exact ih

theorem deleteDentryOf_follows (parentMP : Fin n) (parentID : UInt64) (name : Bytes) :
    (linkLedger mw).Follows (mw.deleteDentryOf parentMP parentID name) 0 := by
  refine mw.follows_ddelete ?_ ?_
  · intro ino _
    dsimp only
    split
    · trivial
    refine mw.follows_iunlink ?_
    intro a
    cases a <;> trivial
  · intro a ha
    cases a with
    | ok ino => exact absurd rfl (ha ino)
    | refused status | failed => trivial

theorem deleteLl_follows (parentID : UInt64) (name : Bytes) (dir : Bool) :
    (linkLedger mw).Follows (mw.deleteLl parentID name dir) 0 := by
  unfold deleteLl
  split
  · trivial
  rename_i parentMP _
  split
  · refine mw.follows_read rfl (fun a => by cases a <;> rfl) ?_
    intro a
    split
    next inode mode =>
      split
      · trivial
      split
      · trivial
      · refine mw.follows_read rfl (fun a => by cases a <;> rfl) ?_
        intro a
        split
        next info =>
          split
          · trivial
          · exact mw.deleteDentryOf_follows parentMP parentID name
        · trivial
    · trivial
  · exact mw.deleteDentryOf_follows parentMP parentID name

theorem link_follows (parentID : UInt64) (name : Bytes) (ino : UInt64) :
    (linkLedger mw).Follows (mw.link parentID name ino) 0 := by
  unfold link
  split
  · trivial
  rename_i parentMP _
  split
  · trivial
  rename_i mp hroute
  refine mw.follows_ilink hroute ?_ ?_
  · intro info
    refine mw.follows_dcreate trivial ?_
    intro a ha
    have hundo : (linkLedger mw).Follows
        (.call undoing (.iunlink mp ino) fun _ => .ret (.error .eagain) :
          Client n (Except Errno (Option InodeInfo))) (0 + oneLink ino) :=
      mw.follows_iunlink fun _ => trivial
    cases a with
    | ok u => exact absurd rfl ha
    | failed => exact hundo
    | refused status =>
      cases status with
      | exist => trivial
      | _ => exact hundo
  · intro a ha
    cases a with
    | ok info => exact absurd rfl (ha info)
    | refused status | failed => trivial

section

variable (x : Renaming n)

theorem dropLink_follows (err : Errno) (rest : UInt64 → ℕ) :
    (linkLedger mw).Follows (dropLink x err) (rest + oneLink x.inode) :=
  mw.follows_iunlink fun _ => trivial

theorem restoreDst_follows (oldInode : UInt64) (err : Errno) :
    (linkLedger mw).Follows (restoreDst x oldInode err)
      (if oldInode = 0 then 0 else oneLink oldInode) := by
  have hrestored (a : Answer UInt64) (ha : ∀ ino, a ≠ .ok ino) (c : UInt64 → ℕ) :
      (linkLedger mw).Follows (afterRestore x err a) c := by
    cases a with
    | ok ino => exact absurd rfl (ha ino)
    | refused status | failed => trivial
  unfold restoreDst
  split
  · refine mw.follows_ddelete ?_ fun a ha => hrestored a ha _
    intro ino hino
    obtain rfl := hino x.inode rfl
    exact mw.dropLink_follows x err 0
  have hzero : oneLink oldInode = 0 + oneLink oldInode := (zero_add _).symm
  rw [hzero]
  refine mw.follows_dupdate ?_ fun a ha => hrestored a ha _
  intro old hold
  obtain rfl := hold x.inode rfl
  exact mw.dropLink_follows x err 0

theorem deleteSrc_follows (oldInode : UInt64) : (linkLedger mw).Follows (mw.deleteSrc x oldInode)
      (if oldInode = 0 then 0 else oneLink oldInode) := by
  refine mw.follows_ddelete ?_ ?_
  · intro ino hino
    obtain rfl := hino x.inode rfl
    refine mw.follows_iunlink ?_
    intro _
    split
    · trivial
    split
    · trivial
    · have hzero : oneLink oldInode = 0 + oneLink oldInode := (zero_add _).symm
      rw [hzero]
      exact mw.follows_iunlink fun _ => trivial
  · intro a ha
    cases a with
    | ok ino => exact absurd rfl (ha ino)
    | refused status | failed => exact mw.restoreDst_follows x oldInode _

theorem createDst_follows : (linkLedger mw).Follows (mw.createDst x) (0 + oneLink x.inode) := by
  refine mw.follows_dcreate ?_ ?_
  · exact mw.deleteSrc_follows x 0
  · intro a ha
    cases a with
    | ok u => exact absurd rfl ha
    | failed => exact mw.dropLink_follows x _ 0
    | refused status =>
      dsimp only
      split
      · refine mw.follows_dupdate ?_ ?_
        · intro old _
          have hdel := mw.deleteSrc_follows x old
          split at hdel
          · simpa [add_comm] using hdel.add (oneLink old)
          · simpa using hdel
        · intro a ha
          cases a with
          | ok old => exact absurd rfl (ha old)
          | failed | refused status => exact mw.dropLink_follows x _ 0
      · exact mw.dropLink_follows x _ 0

end

theorem renameLl_follows (srcParentID : UInt64) (srcName : Bytes) (dstParentID : UInt64)
    (dstName : Bytes) :
    (linkLedger mw).Follows (mw.renameLl srcParentID srcName dstParentID dstName) 0 := by
  unfold renameLl
  split
  · trivial
  split
  · trivial
  · refine mw.follows_read rfl (fun a => by cases a <;> rfl) ?_
    intro a
    split
    next inode mode =>
      split
      · trivial
      rename_i srcMP hroute
      refine mw.follows_ilink hroute ?_ ?_
      · intro info
        exact mw.createDst_follows ⟨_, _, _, _, _, _, _, inode, mode⟩
      · intro a ha
        cases a with
        | ok info => exact absurd rfl (ha info)
        | refused status | failed => trivial
    · trivial

theorem prog_follows (op : Op n) : (linkLedger mw).Follows (mw.prog op) 0 := by
  cases op with
  | create rwPartitions epoch parentID name mode uid gid target =>
    unfold prog createLl
    dsimp only
    split
    · trivial
    · exact mw.createInodeIn_follows _ parentID name mode uid gid target _
  | link parentID name ino => exact mw.link_follows parentID name ino
  | delete parentID name dir => exact mw.deleteLl_follows parentID name dir
  | rename srcParentID srcName dstParentID dstName =>
    exact mw.renameLl_follows srcParentID srcName dstParentID dstName

end MetaWrapper
end ChubaoFS
