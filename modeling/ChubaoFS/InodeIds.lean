import Mathlib
import ChubaoFS.Base.Run
import ChubaoFS.FsmEffect
import ChubaoFS.PartitionLoad
import ChubaoFS.Rpc

namespace ChubaoFS

open List MetaPartition UInt64 Option
open UInt64 (le_refl not_lt le_of_lt le_trans)
open Command (createInode)
open Option (some map_eq_some_iff)
open MetaPartition (loadInode)

open MetaPartition (Command)

/-! The ids that the replicas of a partition hand out, over restarts and snapshots. -/

structure PartitionSnapshot where
  applyID : Nat
  inodeTree : InodeTree
  dentryTree : DentryTree

/-- `ApplySnapshot` starts from zero and takes the highest inode id of the snapshot. -/
def PartitionSnapshot.cursor (snap : PartitionSnapshot) : UInt64 :=
  snap.inodeTree.items.foldl (fun cursor ino => if cursor < ino.inode then ino.inode else cursor) 0

/-- A replica in memory and on disk. `applyID` is the number of commands of the log it has applied,
`checked` what `Apply` found when it compared the cursor with the id of the inode to create, and
`ticks` are the apply indexes of the messages for the store. -/
structure IdReplica where
  mp : MetaPartition
  applyID : Nat
  checked : Option Bool
  ticks : List Nat
  files : SnapshotFiles
  filesID : Nat
  filesCursor : UInt64

namespace IdReplica

def new (start endId : UInt64) : IdReplica :=
  ⟨MetaPartition.new start endId, 0, none, [], ⟨OrdTree.empty, OrdTree.empty⟩, 0, 0⟩

/-- The first half of `Apply` for a creation: the cursor is read. -/
def check (r : IdReplica) (ino : Inode) : IdReplica :=
  { r with checked := some (decide (r.mp.cursor < ino.inode)) }

def create (r : IdReplica) (ino : Inode) (copied : List Nat) (low : Bool) : IdReplica :=
  let mp := if low then { r.mp with cursor := ino.inode } else r.mp
  { r with
    mp := ((mp.copyInodes copied).fsmCreateInode ino).1
    applyID := r.applyID + 1
    checked := none }

def apply (r : IdReplica) (c : Command) (copied : List Nat) : Option IdReplica :=
  match c, r.checked with
  | .createInode ino, some low => some (r.create ino copied low)
  | .createInode _, none => none
  | .storeTick, _ => some { r with
      mp := r.mp.storeTick
      applyID := r.applyID + 1
      checked := none
      ticks := r.ticks ++ [r.applyID + 1] }
  | c, _ => some { r with
      mp := (r.mp.copyInodes copied).apply c
      applyID := r.applyID + 1
      checked := none }

def dump (r : IdReplica) (k : Nat) : Option IdReplica :=
  match r.mp.storeChan[k]?, r.ticks[k]? with
  | some msg, some tick => some { r with
      mp := { r.mp with storeChan := r.mp.storeChan.drop (k + 1) }
      ticks := r.ticks.drop (k + 1)
      files := r.mp.store msg
      filesID := tick
      filesCursor := r.mp.cursor }
  | _, _ => none

def restart (r : IdReplica) : IdReplica :=
  let mp := r.mp.loadFiles r.files
  { r with
    mp := { mp with cursor := if r.filesCursor > mp.cursor then r.filesCursor else mp.cursor }
    applyID := r.filesID
    checked := none
    ticks := [] }

def snapshot (r : IdReplica) : PartitionSnapshot :=
  ⟨r.applyID, r.mp.storeInodes r.mp.inodeTree.index, r.mp.dentryTree⟩

def install (r : IdReplica) (snap : PartitionSnapshot) : IdReplica :=
  { r with
    mp := r.mp.installSnapshot ⟨0, snap.cursor, snap.inodeTree, snap.dentryTree, OrdTree.empty⟩
    applyID := snap.applyID
    ticks := r.ticks ++ [snap.applyID] }

end IdReplica

structure IdGroup (n : Nat) where
  log : List Command
  replica : Fin n → IdReplica
  snapshots : List PartitionSnapshot

inductive IdEvent (n : Nat)
  | commit (c : Command)
  | takeId (i : Fin n)
  | check (i : Fin n)
  | apply (i : Fin n) (copied : List Nat)
  | free (i : Fin n) (inos : List UInt64)
  | dump (i : Fin n) (k : Nat)
  | restart (i : Fin n)
  | snapshot (i : Fin n)
  | install (i : Fin n) (k : Nat)

namespace IdGroup

variable {n : Nat}

def new (n : Nat) (start endId : UInt64) : IdGroup n := ⟨[], fun _ => .new start endId, []⟩

def setReplica (g : IdGroup n) (i : Fin n) (r : IdReplica) : IdGroup n :=
  { g with replica := Function.update g.replica i r }

/-- `Apply` and `ApplySnapshot` are called one after the other, the latter with a snapshot that is
not behind the replica. -/
def step (g : IdGroup n) : IdEvent n → Option (IdGroup n)
  | .commit c => some { g with log := g.log ++ [c] }
  | .takeId i =>
    (g.replica i).mp.nextInodeID.map fun (_, mp) => g.setReplica i { g.replica i with mp := mp }
  | .check i =>
    match g.log[(g.replica i).applyID]?, (g.replica i).checked with
    | some (.createInode ino), none => some (g.setReplica i ((g.replica i).check ino))
    | _, _ => none
  | .apply i copied =>
    match g.log[(g.replica i).applyID]? with
    | none => none
    | some c => ((g.replica i).apply c copied).map (g.setReplica i)
  | .free i inos =>
    some (g.setReplica i { g.replica i with mp := (g.replica i).mp.internalDelete inos })
  | .dump i k => ((g.replica i).dump k).map (g.setReplica i)
  | .restart i => some (g.setReplica i (g.replica i).restart)
  | .snapshot i => some { g with snapshots := g.snapshots ++ [(g.replica i).snapshot] }
  | .install i k =>
    match g.snapshots[k]?, (g.replica i).checked with
    | some snap, none =>
      if (g.replica i).applyID ≤ snap.applyID then
        some (g.setReplica i ((g.replica i).install snap))
      else none
    | _, _ => none

end IdGroup

def createdIds (log : List Command) : List UInt64 :=
  log.filterMap fun
    | .createInode ino => some ino.inode
    | _ => none

def PartitionSnapshot.reaches (snap : PartitionSnapshot) (x : UInt64) : Bool :=
  x == 0 || snap.inodeTree.items.any fun ino => x ≤ ino.inode

def IdGroup.CoversIds {n : Nat} (start : UInt64) (g : IdGroup n) : IdEvent n → Bool
  | .install _ k =>
    (g.snapshots[k]?).all fun snap =>
      snap.reaches start && (createdIds (g.log.take snap.applyID)).all snap.reaches
  | _ => true

variable {snap : PartitionSnapshot}

theorem PartitionSnapshot.le_cursor {x : UInt64} (h : snap.reaches x = true) : x ≤ snap.cursor := by
  have hfold (l : List Inode) (c : UInt64) :
      c ≤ l.foldl (fun cursor ino => if cursor < ino.inode then ino.inode else cursor) c ∧
        ∀ ino ∈ l, ino.inode ≤
          l.foldl (fun cursor ino => if cursor < ino.inode then ino.inode else cursor) c := by
    induction l generalizing c with
    | nil => exact ⟨le_refl c, nofun⟩
    | cons i l ih =>
      obtain ⟨hle, hall⟩ := ih (if c < i.inode then i.inode else c)
      have hi : i.inode ≤ if c < i.inode then i.inode else c := by
        split
        · exact le_refl _
        next hn => exact not_lt.mp hn
      have hc : c ≤ if c < i.inode then i.inode else c := by
        split
        next hlt => exact le_of_lt hlt
        · exact le_refl _
      refine ⟨le_trans hc hle, ?_⟩
      intro ino hino
      obtain rfl | hino := List.mem_cons.mp hino
      · exact le_trans hi hle
      · exact hall ino hino
  unfold reaches at h
  obtain hz | hany := Bool.or_eq_true_iff.mp h
  · rw [eq_of_beq hz]
    exact (hfold _ 0).1
  · obtain ⟨ino, hino, hle⟩ := List.any_eq_true.mp hany
    exact le_trans (of_decide_eq_true hle) ((hfold _ 0).2 ino hino)

structure IdReplica.CursorOk (start : UInt64) (log : List Command) (r : IdReplica) : Prop where
  applied : r.applyID ≤ log.length
  started : r.mp.start = start ∧ start ≤ r.mp.cursor
  cursor : ∀ x ∈ createdIds (log.take r.applyID), x ≤ r.mp.cursor
  checking : r.checked ≠ none → r.applyID < log.length
  low : r.checked = some true → ∀ ino, log[r.applyID]? = some (.createInode ino) →
    start ≤ ino.inode ∧ ∀ x ∈ createdIds (log.take r.applyID), x ≤ ino.inode
  notLow : r.checked = some false → ∀ ino, log[r.applyID]? = some (.createInode ino) →
    ino.inode ≤ r.mp.cursor
  ticks : ∀ t ∈ r.ticks, t ≤ r.applyID
  files : r.filesID ≤ log.length ∧ ∀ x ∈ createdIds (log.take r.filesID), x ≤ r.filesCursor

namespace IdReplica

variable {start : UInt64} {log : List Command} {r : IdReplica} {x : UInt64}

theorem createdIds_take_mono {k m : Nat} (h : k ≤ m) (hx : x ∈ createdIds (log.take k)) :
    x ∈ createdIds (log.take m) := by
  have hp : log.take k <+: log.take m := take_prefix_take_left h
  exact (hp.sublist.filterMap _).subset hx

variable {c : Command}

theorem mem_createdIds_succ (hc : log[r.applyID]? = some c)
    (hx : x ∈ createdIds (log.take (r.applyID + 1))) :
    x ∈ createdIds (log.take r.applyID) ∨ ∃ ino, c = .createInode ino ∧ x = ino.inode := by
  rw [take_add_one, hc] at hx
  unfold createdIds at hx ⊢
  rw [filterMap_append, mem_append] at hx
  obtain hx | hx := hx
  · exact .inl hx
  · refine .inr ?_
    cases c with
    | createInode ino => exact ⟨ino, rfl, by simpa using hx⟩
    | _ => simp at hx

theorem cursorOk_new (start endId : UInt64) : (new start endId).CursorOk start [] where
  applied := le_rfl
  started := ⟨rfl, le_refl _⟩
  cursor := nofun
  checking h := absurd rfl h
  low := nofun
  notLow := nofun
  ticks := nofun
  files := ⟨le_rfl, nofun⟩

theorem CursorOk.commit (h : r.CursorOk start log) (c : Command) :
    r.CursorOk start (log ++ [c]) := by
  have htake {k : Nat} (hk : k ≤ log.length) : (log ++ [c]).take k = log.take k :=
    take_append_of_le_length hk
  have hlen : log.length ≤ (log ++ [c]).length := by simp
  have hnext (hc : r.checked ≠ none) : (log ++ [c])[r.applyID]? = log[r.applyID]? :=
    getElem?_append_left (h.checking hc)
  refine ⟨h.applied.trans hlen, h.started, ?_, fun hc => (h.checking hc).trans_le hlen, ?_, ?_,
    h.ticks, h.files.1.trans hlen, ?_⟩
  · rw [htake h.applied]
    exact h.cursor
  · intro hc
    rw [htake h.applied, hnext (by rw [hc]; nofun)]
    exact h.low hc
  · intro hc
    rw [hnext (by rw [hc]; nofun)]
    exact h.notLow hc
  · rw [htake h.files.1]
    exact h.files.2

variable {mp : MetaPartition} {copied : List Nat} {r' : IdReplica} {ino : Inode}

section

variable (h : r.CursorOk start log)
include h

theorem CursorOk.raise (hs : mp.start = r.mp.start) (hc : r.mp.cursor ≤ mp.cursor) :
    { r with mp := mp }.CursorOk start log where
  __ := h
  started := ⟨hs.trans h.started.1, le_trans h.started.2 hc⟩
  cursor x hx := le_trans (h.cursor x hx) hc
  notLow hn ino hino := le_trans (h.notLow hn ino hino) hc

theorem CursorOk.check (hnext : log[r.applyID]? = some (.createInode ino)) :
    (r.check ino).CursorOk start log where
  __ := h
  checking _ := (List.getElem?_eq_some_iff.mp hnext).1
  low hl ino' hino := by
    have hino' : some (createInode ino) = some (.createInode ino') := hnext.symm.trans hino
    obtain rfl := createInode.inj (some.inj hino')
    have hlt : r.mp.cursor < ino.inode := of_decide_eq_true (some.inj hl)
    have hle := le_of_lt hlt
    exact ⟨le_trans h.started.2 hle, fun x hx => le_trans (h.cursor x hx) hle⟩
  notLow hn ino' hino := by
    have hino' : some (createInode ino) = some (.createInode ino') := hnext.symm.trans hino
    obtain rfl := createInode.inj (some.inj hino')
    exact not_lt.mp (of_decide_eq_false (some.inj hn))

theorem CursorOk.advance (hnext : log[r.applyID]? = some c) {ticks : List Nat}
    (hs : mp.start = start) (hle : start ≤ mp.cursor)
    (hold : ∀ x ∈ createdIds (log.take r.applyID), x ≤ mp.cursor)
    (hnew : ∀ ino, c = .createInode ino → ino.inode ≤ mp.cursor)
    (hticks : ∀ t ∈ ticks, t ≤ r.applyID + 1) :
    { r with mp := mp, applyID := r.applyID + 1, checked := none, ticks := ticks }.CursorOk
      start log where
  applied := (List.getElem?_eq_some_iff.mp hnext).1
  started := ⟨hs, hle⟩
  cursor x hx := by
    obtain hx | ⟨ino, hc, rfl⟩ := mem_createdIds_succ hnext hx
    · exact hold x hx
    · exact hnew ino hc
  checking hc := absurd rfl hc
  low := nofun
  notLow := nofun
  ticks := hticks
  files := h.files

theorem CursorOk.create {low : Bool} (hnext : log[r.applyID]? = some (.createInode ino))
    (hlow : r.checked = some low) : (r.create ino copied low).CursorOk start log := by
  have hticks (t : Nat) (ht : t ∈ r.ticks) : t ≤ r.applyID + 1 := Nat.le_succ_of_le (h.ticks t ht)
  have hrest (mp : MetaPartition) : ((mp.copyInodes copied).fsmCreateInode ino).1.start = mp.start ∧
        ((mp.copyInodes copied).fsmCreateInode ino).1.cursor = mp.cursor := by
    unfold MetaPartition.fsmCreateInode
    split <;> exact ⟨rfl, rfl⟩
  have hid {x : UInt64} (hx : ino.inode ≤ x) (j : Inode)
      (hj : createInode ino = .createInode j) : j.inode ≤ x :=
    createInode.inj hj ▸ hx
  unfold IdReplica.create
  cases low with
  | true =>
    obtain ⟨hle, hold⟩ := h.low hlow ino hnext
    obtain ⟨hs, hc⟩ := hrest { r.mp with cursor := ino.inode }
    exact h.advance hnext (hs.trans h.started.1) (hc ▸ hle) (fun x hx => hc ▸ hold x hx)
      (hid (hc ▸ le_refl _)) hticks
  | false =>
    obtain ⟨hs, hc⟩ := hrest r.mp
    exact h.advance hnext (hs.trans h.started.1) (hc ▸ h.started.2)
      (fun x hx => hc ▸ h.cursor x hx) (hid (hc ▸ h.notLow hlow ino hnext)) hticks

end

theorem apply_other (r : IdReplica) (copied : List Nat) (hnew : ∀ ino, c ≠ .createInode ino)
    (htick : c ≠ .storeTick) : r.apply c copied = some { r with
      mp := (r.mp.copyInodes copied).apply c, applyID := r.applyID + 1, checked := none } := by
  cases c with
  | createInode ino => exact absurd rfl (hnew ino)
  | storeTick => exact absurd rfl htick
  | _ => rfl

theorem CursorOk.apply (h : r.CursorOk start log) (hnext : log[r.applyID]? = some c)
    (hr : r.apply c copied = some r') : r'.CursorOk start log := by
  have hticks (t : Nat) (ht : t ∈ r.ticks) : t ≤ r.applyID + 1 := Nat.le_succ_of_le (h.ticks t ht)
  by_cases hnew : ∃ ino, c = .createInode ino
  · obtain ⟨ino, rfl⟩ := hnew
    cases hlow : r.checked with
    | none => simp [IdReplica.apply, hlow] at hr
    | some low =>
      have hr' : r.apply (.createInode ino) copied = some (r.create ino copied low) := by
        simp [IdReplica.apply, hlow]
      obtain rfl := some.inj (hr'.symm.trans hr)
      exact h.create hnext hlow
  by_cases htick : c = .storeTick
  · subst htick
    cases hr
    refine h.advance hnext h.started.1 h.started.2 h.cursor nofun ?_
    intro t ht
    obtain ht | ht := mem_append.mp ht
    · exact hticks t ht
    · rw [mem_singleton.mp ht]
  · have hno (ino : Inode) : c ≠ .createInode ino := fun heq => hnew ⟨ino, heq⟩
    rw [r.apply_other copied hno htick] at hr
    cases hr
    have hrest : MetaPartition.Rest (r.mp.copyInodes copied) _ := rest_apply hno htick
    have hc : ((r.mp.copyInodes copied).apply c).cursor = r.mp.cursor := hrest.cursor
    refine h.advance hnext (hrest.start.trans h.started.1) (hc ▸ h.started.2)
      (fun x hx => hc ▸ h.cursor x hx) ?_ hticks
    intro ino heq
    exact absurd heq (hno ino)

theorem CursorOk.dump (h : r.CursorOk start log) {k : Nat} (hr : r.dump k = some r') :
    r'.CursorOk start log := by
  unfold IdReplica.dump at hr
  split at hr
  next msg tick hmsg htick =>
    cases hr
    have hle := h.ticks tick (mem_of_getElem? htick)
    exact ⟨h.applied, h.started, h.cursor, h.checking, h.low, h.notLow,
      fun t ht => h.ticks t (mem_of_mem_drop ht), hle.trans h.applied,
      fun x hx => h.cursor x (createdIds_take_mono hle hx)⟩
  · cases hr

theorem start_loadFiles (mp : MetaPartition) (files : SnapshotFiles) :
    (mp.loadFiles files).start = mp.start ∧ mp.start ≤ (mp.loadFiles files).cursor := by
  have hraise (c x : UInt64) : c ≤ if c < x then x else c := by
    split
    next hlt => exact le_of_lt hlt
    · exact le_refl _
  have hone (mp : MetaPartition) (ino : Inode) : (mp.loadInode ino).start = mp.start ∧
      mp.cursor ≤ (mp.loadInode ino).cursor := by
    unfold loadInode
    dsimp only
    cases mp.inode? ino.inode <;> dsimp only <;> split <;> exact ⟨rfl, hraise _ _⟩
  have hall (l : List Inode) (mp : MetaPartition) : (l.foldl loadInode mp).start = mp.start ∧
        mp.cursor ≤ (l.foldl loadInode mp).cursor := by
    induction l generalizing mp with
    | nil => exact ⟨rfl, le_refl _⟩
    | cons ino l ih =>
      obtain ⟨hs, hc⟩ := hone mp ino
      obtain ⟨hs', hc'⟩ := ih (mp.loadInode ino)
      exact ⟨hs'.trans hs, le_trans hc hc'⟩
  exact hall _ (mp.blank files.dentryTree)

theorem CursorOk.restart (h : r.CursorOk start log) : r.restart.CursorOk start log := by
  obtain ⟨hs, hle⟩ := start_loadFiles r.mp r.files
  have hraise : (r.mp.loadFiles r.files).cursor ≤ r.restart.mp.cursor ∧
      r.filesCursor ≤ r.restart.mp.cursor := by
    unfold IdReplica.restart
    dsimp only
    split
    next hgt => exact ⟨le_of_lt hgt, le_refl _⟩
    next hle => exact ⟨le_refl _, not_lt.mp hle⟩
  refine ⟨h.files.1, ⟨hs.trans h.started.1, ?_⟩, ?_, fun hc => absurd rfl hc, nofun, nofun, nofun,
    h.files⟩
  · rw [← h.started.1]
    exact le_trans hle hraise.1
  · exact fun x hx => le_trans (h.files.2 x hx) hraise.2

theorem cursor_installSnapshot (mp : MetaPartition) (image : PartitionImage) :
    (mp.installSnapshot image).start = mp.start ∧
      (mp.installSnapshot image).cursor = image.cursor := by
  have hall (l : List Inode) (mp : MetaPartition) : (l.foldl installInode mp).start = mp.start ∧
        (l.foldl installInode mp).cursor = mp.cursor := by
    induction l generalizing mp with
    | nil => exact ⟨rfl, rfl⟩
    | cons ino l ih => exact ih (mp.installInode ino)
  exact hall _ (mp.dropTrees image.cursor image.dentryTree)

theorem CursorOk.install (h : r.CursorOk start log) (hidle : r.checked = none)
    (hle : r.applyID ≤ snap.applyID) (hlog : snap.applyID ≤ log.length)
    (hstart : snap.reaches start = true)
    (hids : ∀ x ∈ createdIds (log.take snap.applyID), snap.reaches x = true) :
    (r.install snap).CursorOk start log := by
  obtain ⟨hs, hc⟩ := cursor_installSnapshot r.mp
    ⟨0, snap.cursor, snap.inodeTree, snap.dentryTree, OrdTree.empty⟩
  have hc' : (r.install snap).mp.cursor = snap.cursor := hc
  have hnone : (r.install snap).checked = none := hidle
  refine ⟨hlog, ⟨hs.trans h.started.1, ?_⟩, ?_, fun hne => absurd hnone hne, ?_, ?_, ?_, h.files⟩
  · rw [hc']
    exact PartitionSnapshot.le_cursor hstart
  · intro x hx
    rw [hc']
    exact PartitionSnapshot.le_cursor (hids x hx)
  · intro hl
    rw [hnone] at hl
    cases hl
  · intro hl
    rw [hnone] at hl
    cases hl
  · intro t ht
    obtain ht | ht := mem_append.mp ht
    · exact (h.ticks t ht).trans hle
    · rw [mem_singleton.mp ht]
      exact le_rfl

theorem nextInodeID_eq {mp' : MetaPartition} (h : mp.nextInodeID = some (x, mp')) :
    mp' = { mp with cursor := x } ∧ mp.cursor < x ∧ x ≤ mp.endId := by
  unfold MetaPartition.nextInodeID at h
  split at h
  · cases h
  rename_i hlt
  cases h
  have hend : mp.cursor.toNat < mp.endId.toNat := UInt64.lt_iff_toNat_lt.mp (UInt64.not_le.mp hlt)
  have hmax := mp.endId.toNat_lt
  have hnat : (mp.cursor + 1).toNat = mp.cursor.toNat + 1 := by
    rw [UInt64.toNat_add]
    exact Nat.mod_eq_of_lt (by simpa using by omega)
  refine ⟨rfl, ?_, ?_⟩
  · rw [UInt64.lt_iff_toNat_lt, hnat]
    exact Nat.lt_succ_self _
  · rw [UInt64.le_iff_toNat_le, hnat]
    exact hend

end IdReplica

namespace IdGroup

variable {n : Nat} {start : UInt64}

structure Ok (start : UInt64) (g : IdGroup n) : Prop where
  replica : ∀ i, (g.replica i).CursorOk start g.log
  snapshots : ∀ snap ∈ g.snapshots, snap.applyID ≤ g.log.length

theorem Ok.setReplica {g : IdGroup n} (h : g.Ok start) (i : Fin n) {r : IdReplica}
    (hr : r.CursorOk start g.log) : (g.setReplica i r).Ok start := by
  refine ⟨fun j => ?_, h.snapshots⟩
  unfold IdGroup.setReplica
  by_cases hj : j = i
  · subst hj
    dsimp only
    rw [Function.update_self]
    exact hr
  dsimp only
  rw [Function.update_of_ne hj]
  exact h.replica j

theorem ok_step {g g' : IdGroup n} {e : IdEvent n} (h : g.Ok start)
    (hc : g.CoversIds start e = true) (hs : g.step e = some g') : g'.Ok start := by
  cases e with
  | commit c =>
    cases hs
    refine ⟨fun i => (h.replica i).commit c, fun snap hsnap => ?_⟩
    exact (h.snapshots snap hsnap).trans (by simp)
  | takeId i =>
    obtain ⟨⟨x, mp⟩, hx, rfl⟩ := map_eq_some_iff.mp hs
    obtain ⟨rfl, hlt, -⟩ := IdReplica.nextInodeID_eq hx
    exact h.setReplica i ((h.replica i).raise rfl (le_of_lt hlt))
  | check i =>
    simp only [step] at hs
    split at hs
    next ino hnext _ =>
      cases hs
      exact h.setReplica i ((h.replica i).check hnext)
    · cases hs
  | apply i copied =>
    simp only [step] at hs
    split at hs
    · cases hs
    next c hnext =>
      obtain ⟨r, hr, rfl⟩ := map_eq_some_iff.mp hs
      exact h.setReplica i ((h.replica i).apply hnext hr)
  | free i inos =>
    cases hs
    have hrest : MetaPartition.Rest (g.replica i).mp ((g.replica i).mp.internalDelete inos) :=
      rest_apply (c := .internalDeleteInode inos) nofun nofun
    exact h.setReplica i ((h.replica i).raise hrest.start (hrest.cursor ▸ le_refl _))
  | dump i k =>
    obtain ⟨r, hr, rfl⟩ := map_eq_some_iff.mp hs
    exact h.setReplica i ((h.replica i).dump hr)
  | restart i =>
    cases hs
    exact h.setReplica i (h.replica i).restart
  | snapshot i =>
    cases hs
    refine ⟨h.replica, fun snap hsnap => ?_⟩
    obtain hsnap | hsnap := List.mem_append.mp hsnap
    · exact h.snapshots snap hsnap
    · rw [List.mem_singleton.mp hsnap]
      exact (h.replica i).applied
  | install i k =>
    simp only [step] at hs
    split at hs
    next snap hsnap hidle =>
      split at hs
      next hle =>
        cases hs
        dsimp only [CoversIds] at hc
        rw [hsnap, Option.all_some, Bool.and_eq_true, List.all_eq_true] at hc
        exact h.setReplica i ((h.replica i).install hidle hle
          (h.snapshots snap (List.mem_of_getElem? hsnap)) hc.1 hc.2)
      · cases hs
    · cases hs

/-- A replica never has its cursor below an id it has applied, and the id it would give to the next
inode is new to it and in the range of the partition. -/
theorem nextInodeID_fresh (start endId : UInt64) {g : IdGroup n}
    (hr : Reach step (fun g e => g.CoversIds start e = true) (new n start endId) g) (i : Fin n) :
    (∀ x ∈ createdIds (g.log.take (g.replica i).applyID), x ≤ (g.replica i).mp.cursor) ∧
      ∀ x mp, (g.replica i).mp.nextInodeID = some (x, mp) →
        x ∉ createdIds (g.log.take (g.replica i).applyID) ∧ start < x ∧
          x ≤ (g.replica i).mp.endId := by
  have hok : g.Ok start := by
    refine hr.invariant ⟨fun _ => IdReplica.cursorOk_new start endId, nofun⟩ ?_
    exact fun _ _ _ h hc hs => ok_step h hc hs
  have hcur := (hok.replica i).cursor
  refine ⟨hcur, ?_⟩
  intro x mp hx
  obtain ⟨-, hlt, hle⟩ := IdReplica.nextInodeID_eq hx
  refine ⟨fun hmem => ?_, ?_, hle⟩
  · exact absurd hlt (UInt64.not_lt.mpr (hcur x hmem))
  · exact UInt64.lt_of_le_of_lt (hok.replica i).started.2 hlt

def createTwo : List (IdEvent 2) :=
  [.takeId 0, .commit (.createInode (InodeOf.new OrdTree.empty 11 0o644 0)), .check 0, .apply 0 [],
   .takeId 0, .commit (.createInode (InodeOf.new OrdTree.empty 12 modeDir 0)), .check 0,
     .apply 0 []]

theorem nextInodeID_fresh_createTwo : ∃ g : IdGroup 2,
    Reach step (fun g e => g.CoversIds 10 e = true) (new 2 10 100) g ∧
      (g.replica 1).applyID = 2 ∧ (g.replica 1).mp.nextInodeID.map Prod.fst = some 13 ∧
      13 ∉ createdIds (g.log.take (g.replica 1).applyID) := by
  refine ⟨_, .of_checked (createTwo ++ [.snapshot 0, .install 1 0]) rfl .start, ?_, ?_, ?_⟩
  · rfl
  · rfl
  · exact ((nextInodeID_fresh 10 100
      (.of_checked (createTwo ++ [.snapshot 0, .install 1 0]) rfl .start) 1).2 13 _ rfl).1

/-- The directory is removed before the snapshot is taken; its id is then given out again. -/
theorem removed_id_reused : ∃ g : IdGroup 2, Reach step (fun _ _ => True) (new 2 10 100) g ∧
      12 ∈ createdIds (g.log.take (g.replica 1).applyID) ∧ (g.replica 1).mp.cursor < 12 ∧
      (g.replica 1).mp.nextInodeID.map Prod.fst = some 12 := by
  refine ⟨_, .of_checked (createTwo ++ [.commit (.unlinkInode (reqInode 0 12)),
    .apply 0 [], .snapshot 0, .install 1 0]) rfl .start, ?_, ?_, ?_⟩
  · decide
  · decide
  · rfl

end IdGroup
end ChubaoFS
