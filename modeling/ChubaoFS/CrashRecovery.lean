import ChubaoFS.FrozenSnapshot
import ChubaoFS.ReplayCongruence
import ChubaoFS.StoreCrash

namespace ChubaoFS

open List OrdTree InodeOf PartitionValue ObjTree UInt64 Option
open UInt64 (not_lt not_le le_trans le_of_lt lt_of_le_of_lt le_refl lt_trans)
open List (mem_singleton)

open MetaPartition (Command storeInode)

/-! A replica that stores its trees, crashes and replays its log, next to one that never crashes. -/

def after (log : List (UInt64 × Command)) (a : UInt64) : List (UInt64 × Command) :=
  log.filter fun e => a < e.1

/-- Trees that a store tick has cloned. Whether a notification has removed an inode since then is
kept to speak about it. -/
structure Capture where
  applyIndex : UInt64
  inodeTree : OrdTree (Nat × Nat) Prod.fst
  dentryTree : DentryTree
  freed : Bool

/-- `memory` is missing if a load has failed. The peer gets the same commands and notifications. -/
structure CrashReplica where
  memory : Option MetaPartition
  applyID : UInt64
  log : List (UInt64 × Command)
  captured : List Capture
  disk : SnapshotDir
  diskFreed : Bool
  peer : MetaPartition

inductive CrashEvent
  | apply (index : UInt64) (c : Command) (copied peerCopied : List Nat)
  | replay (copied : List Nat)
  | inodeGet (now : Int64) (ino : UInt64)
  | peerInodeGet (now : Int64) (ino : UInt64)
  | freeInodes (inos : List UInt64)
  | store (k : Nat)
  | crash (start endId : UInt64) (now : Int64)

namespace CrashReplica

def start (startId endId : UInt64) : CrashReplica where
  memory := some (MetaPartition.new startId endId)
  applyID := 0
  log := []
  captured := []
  disk := ⟨none, none, none⟩
  diskFreed := false
  peer := MetaPartition.new startId endId

def todo (s : CrashReplica) : List (UInt64 × Command) := after s.log s.applyID

def applied (s : CrashReplica) (mp : MetaPartition) (e : UInt64 × Command) (copied : List Nat) :
    CrashReplica :=
  let mp := (mp.copyInodes copied).apply e.2
  { s with
    memory := some mp
    applyID := e.1
    captured := match e.2 with
      | .storeTick => s.captured ++ [⟨e.1, mp.inodeTree.index, mp.dentryTree, false⟩]
      | _ => s.captured }

def step (s : CrashReplica) : CrashEvent → Option CrashReplica
  | .apply index c copied peerCopied =>
    match s.memory, s.todo with
    | some mp, [] =>
      if s.applyID < index then
        some { s.applied mp (index, c) copied with
          log := s.log ++ [(index, c)]
          peer := (s.peer.copyInodes peerCopied).apply c }
      else none
    | _, _ => none
  | .replay copied =>
    match s.memory, s.todo with
    | some mp, e :: _ => some (s.applied mp e copied)
    | _, _ => none
  | .inodeGet now ino => some { s with memory := s.memory.map fun mp => (mp.getInode now ino).1 }
  | .peerInodeGet now ino => some { s with peer := (s.peer.getInode now ino).1 }
  | .freeInodes inos =>
    let removes := inos.any fun ino => (s.peer.inode? ino).isSome
    some { s with
      memory := s.memory.map fun mp => mp.internalDelete inos
      peer := s.peer.internalDelete inos
      captured := s.captured.map fun m => { m with freed := m.freed || removes }
      diskFreed := s.diskFreed || removes }
  | .store k =>
    match s.memory, s.captured[k]? with
    | some mp, some m =>
      some { s with
        disk := (mp.store (.clone m.inodeTree m.dentryTree)).dir m.applyIndex mp.cursor
        diskFreed := m.freed }
    | _, _ => none
  | .crash startId endId now =>
    match (MetaPartition.new startId endId).loadDir now s.disk with
    | .error _ => some { s with memory := none, captured := [] }
    | .ok (mp, applyID) => some { s with memory := some mp, applyID := applyID, captured := [] }

/-- A command copies the inodes that it changes under a snapshot, what is stored fits its length
fields, and the log is replayed neither while inodes are freed nor over an image without them. -/
def Careful (s : CrashReplica) : CrashEvent → Prop
  | .apply _ c copied _ => ∀ mp ∈ s.memory, mp.Isolates (c, copied) = true
  | .replay copied => ∀ mp ∈ s.memory, ∀ e ∈ s.todo.head?, mp.Isolates (e.2, copied) = true
  | .freeInodes _ => s.todo.isEmpty = true
  | .store k => ∀ mp ∈ s.memory, ∀ m ∈ s.captured[k]?,
      (mp.store (.clone m.inodeTree m.dentryTree)).Fits
  | .crash _ _ _ => s.diskFreed = false
  | _ => True

end CrashReplica

/-! ### What is between two points of the log -/

def between (log : List (UInt64 × Command)) (a b : UInt64) : List (UInt64 × Command) :=
  log.filter fun e => a < e.1 && e.1 ≤ b

section Log

variable {log : List (UInt64 × Command)} {a b : UInt64} {e : UInt64 × Command}

theorem le_of_after_nil (h : after log b = []) : ∀ e ∈ log, e.1 ≤ b := by
  intro e he
  have hno := List.filter_eq_nil_iff.mp h e he
  exact not_lt.mp fun hlt => hno (decide_eq_true hlt)

theorem after_eq_nil (h : ∀ e ∈ log, e.1 ≤ b) : after log b = [] := by
  refine List.filter_eq_nil_iff.mpr fun e he hlt => ?_
  exact not_lt.mpr (h e he) (of_decide_eq_true hlt)

theorem after_eq_self (h : ∀ e ∈ log, b < e.1) : after log b = log :=
  filter_eq_self.mpr fun e he => decide_eq_true (h e he)

theorem between_eq_nil_of_lt (h : ∀ e ∈ log, b < e.1) : between log a b = [] := by
  refine List.filter_eq_nil_iff.mpr fun e he hin => ?_
  have hle := of_decide_eq_true (Bool.and_eq_true_iff.mp hin).2
  exact not_le.mpr (h e he) hle

theorem between_congr {b' : UInt64} (hb : ∀ e ∈ log, e.1 ≤ b) (hb' : ∀ e ∈ log, e.1 ≤ b') :
    between log a b = between log a b' := by
  refine filter_congr fun e he => ?_
  rw [decide_eq_true (hb e he), decide_eq_true (hb' e he)]

theorem between_singleton (hlo : a < e.1) (hhi : e.1 ≤ b) : between [e] a b = [e] := by
  refine filter_eq_self.mpr fun e' he' => ?_
  obtain rfl := mem_singleton.mp he'
  exact Bool.and_eq_true_iff.mpr ⟨decide_eq_true hlo, decide_eq_true hhi⟩

section

variable (log' : List (UInt64 × Command))

theorem after_append : after (log ++ log') a = after log a ++ after log' a := filter_append ..

theorem between_append : between (log ++ log') a b = between log a b ++ between log' a b :=
    filter_append ..

end

theorem after_snoc (h : a < e.1) : after (log ++ [e]) a = after log a ++ [e] := by
  have hone : after [e] a = [e] := after_eq_self fun e' he' => by
    rw [mem_singleton.mp he']
    exact h
  rw [after_append, hone]

theorem between_snoc (hall : ∀ e ∈ log, e.1 ≤ b) (ha : a ≤ b) (he : b < e.1) :
    between (log ++ [e]) a e.1 = between log a b ++ [e] := by
  have hall' (e' : UInt64 × Command) (he' : e' ∈ log) : e'.1 ≤ e.1 :=
    le_trans (hall e' he') (le_of_lt he)
  rw [between_append, between_singleton (lt_of_le_of_lt ha he) (le_refl _),
    between_congr hall' hall]

variable (hs : log.Pairwise fun e e' => e.1 < e'.1)
include hs

theorem split_of_after {rest : List (UInt64 × Command)} (h : after log b = e :: rest) :
    after log e.1 = rest ∧ b < e.1 ∧ ∀ a, a ≤ b → between log a e.1 = between log a b ++ [e] := by
  obtain ⟨l₁, l₂, rfl, hl₁, hlt, rfl⟩ := List.filter_eq_cons_iff.mp h
  have hbe : b < e.1 := of_decide_eq_true hlt
  have hlow (e' : UInt64 × Command) (he' : e' ∈ l₁) : e'.1 ≤ b :=
    not_lt.mp fun hgt => hl₁ e' he' (decide_eq_true hgt)
  have hhigh (e' : UInt64 × Command) (he' : e' ∈ l₂) : e.1 < e'.1 :=
    (List.pairwise_cons.mp (List.pairwise_append.mp hs).2.1).1 e' he'
  have hhigh' (e' : UInt64 × Command) (he' : e' ∈ l₂) : b < e'.1 := lt_trans hbe (hhigh e' he')
  have hlow' (e' : UInt64 × Command) (he' : e' ∈ l₁) : e'.1 ≤ e.1 :=
    le_trans (hlow e' he') (le_of_lt hbe)
  have hcons (a b : UInt64) : between (e :: l₂) a b = between [e] a b ++ between l₂ a b := by
    rw [← between_append]
    rfl
  refine ⟨?_, hbe, fun a ha => ?_⟩
  · have hself : after [e] e.1 = [] := after_eq_nil fun e' he' => by
      rw [mem_singleton.mp he']
      exact le_refl _
    have hstep : after (e :: l₂) e.1 = after l₂ e.1 := by
      rw [← List.singleton_append, after_append, hself, List.nil_append]
    rw [after_append, after_eq_nil hlow', List.nil_append, hstep, after_eq_self hhigh]
    exact (after_eq_self hhigh').symm
  · have hout : between [e] a b = [] := between_eq_nil_of_lt fun e' he' => by
      rw [mem_singleton.mp he']
      exact hbe
    rw [between_append, between_append, hcons, hcons, hout, between_eq_nil_of_lt hhigh,
      between_eq_nil_of_lt hhigh', between_congr hlow' hlow,
      between_singleton (lt_of_le_of_lt ha hbe) (le_refl _), List.append_nil,
      List.append_nil, List.append_nil]

theorem after_eq_between (hab : a ≤ b) : after log a = between log a b ++ after log b := by
  induction log with
  | nil => rfl
  | cons e log ih =>
    obtain ⟨hlt, hs⟩ := List.pairwise_cons.mp hs
    have hcons : e :: log = [e] ++ log := rfl
    rw [hcons, after_append, after_append, between_append, ih hs]
    by_cases hle : e.1 ≤ b
    · have hnil : after [e] b = [] := after_eq_nil fun e' he' => by
        rw [mem_singleton.mp he']
        exact hle
      have hone : after [e] a = between [e] a b := List.filter_congr fun e' he' => by
        rw [mem_singleton.mp he', decide_eq_true hle, Bool.and_true]
      rw [hnil, hone, List.nil_append, List.append_assoc]
    have hgt : b < e.1 := not_le.mp hle
    have hall (e' : UInt64 × Command) (he' : e' ∈ [e] ++ log) : b < e'.1 := by
      obtain rfl | he' := List.mem_cons.mp he'
      · exact hgt
      · exact lt_trans hgt (hlt e' he')
    have hone : ∀ e' ∈ [e], b < e'.1 := fun e' he' => hall e' (List.mem_append_left _ he')
    have hrest : ∀ e' ∈ log, b < e'.1 := fun e' he' => hall e' (List.mem_append_right _ he')
    rw [between_eq_nil_of_lt hone, between_eq_nil_of_lt hrest, after_eq_self hone,
      after_eq_self hrest, after_eq_self fun e' he' => lt_of_le_of_lt hab (hone e' he')]
    rfl

end Log

namespace MetaPartition

/-! ### The keys that a captured tree shares -/

theorem obj_apply_cases (mp : MetaPartition) (c : Command) :
    (∀ r < mp.exts.next, (mp.apply c).exts.obj r = mp.exts.obj r) ∨
      ∃ ino i x, c = .extentTruncate ino ∧ mp.inode? ino.inode = some i ∧ i.shouldDelete = false ∧
        isDir i.type = false ∧
        (i.extents.items.filter fun r => r.key < ino.size.toNat).getLast? = some x ∧
        ∀ r, (mp.apply c).exts.obj r =
          if r = x.ref then (mp.exts.obj r).cut ino.size else mp.exts.obj r := by
  by_cases hcut : ∃ ino, c = .extentTruncate ino
  · obtain ⟨ino, rfl⟩ := hcut
    simp only [apply]
    unfold fsmExtentsTruncate
    cases hi : mp.inode? ino.inode with
    | none => exact .inl fun _ _ => rfl
    | some i =>
      dsimp only
      split
      · exact .inl fun _ _ => rfl
      rename_i hd
      split
      · exact .inl fun _ _ => rfl
      rename_i hdir
      have hmax : (i.extentsTruncate (i.extents.ascendGreaterOrEqual (some ino.size.toNat))
          ino.size ino.modifyTime).extents.max? =
            (i.extents.items.filter fun r => r.key < ino.size.toNat).getLast? :=
        congrArg getLast? (items_erase_from i.extents ino.size.toNat)
      unfold updateInode cutLast
      dsimp only
      rw [hmax]
      cases hx : (i.extents.items.filter fun r => r.key < ino.size.toNat).getLast? with
      | none => exact .inl fun _ _ => rfl
      | some x =>
        refine .inr ⟨ino, i, x, rfl, hi, Bool.eq_false_iff.mpr hd, Bool.eq_false_iff.mpr hdir,
          hx, fun r => ?_⟩
        dsimp only
        unfold ExtentKey.cut
        by_cases hlt : (mp.exts.obj x.ref).fileEnd > ino.size
        · rw [if_pos hlt]
          unfold ExtentHeap.setSize
          dsimp only
          split
          next heq => rw [heq, if_pos hlt]
          · rfl
        rw [if_neg hlt]
        split
        next heq => rw [heq, if_neg hlt]
        · rfl
  refine .inl fun r hr => obj_apply hr ?_
  intro ino i hc
  exact absurd ⟨ino, hc⟩ hcut

/-- A captured tree whose cells are read through the partition: what they refer to is in the heap,
and an inode of the tree that refers to the same key is the same inode. -/
structure Shares (index : OrdTree (Nat × Nat) Prod.fst) (mp : MetaPartition) : Prop extends
    SharesCells index mp where
  keyed : ∀ e ∈ index.items, (mp.inodeTree.cell e.2).key = e.1
  held : ∀ e ∈ index.items, (mp.inodeTree.cell e.2).Held mp.exts
  own : ∀ e ∈ index.items, ∀ r ∈ (mp.inodeTree.cell e.2).extents.items, ∀ x i,
    mp.inode? x = some i → ∀ r' ∈ i.extents.items, r'.ref = r.ref → x.toNat = e.1

variable {index : OrdTree (Nat × Nat) Prod.fst} {mp : MetaPartition} {c : Command}
  {copied : List Nat}

theorem shares_of_owns (hown : mp.OwnsExtents) : Shares mp.inodeTree.index mp.storeTick := by
  have hget {e : Nat × Nat} (he : e ∈ mp.inodeTree.index.items) :
      mp.inodeTree.get? e.1 = some (mp.inodeTree.cell e.2) :=
    get?_eq_some_iff.mpr ⟨e.2, addr?_eq_some_iff.mpr he, rfl⟩
  refine ⟨⟨mp.inodeTree.bound, fun e he _ _ => mem_map_of_mem he⟩, mp.inodeTree.keyed,
    fun e he => hown.held _ _ (hget he), fun e he r hr x i hi r' hr' heq => ?_⟩
  by_contra hne
  exact hown.apart _ _ _ _ hne hi (hget he) r' hr' r hr heq

theorem Shares.step (h : Shares index mp) (hi : mp.Isolates (c, copied) = true) :
    Shares index ((mp.copyInodes copied).apply c) := by
  obtain ⟨hshares, hcell⟩ := h.toSharesCells.step hi
  have hkeep := (mp.copyInodes copied).keeps_apply c
  refine ⟨hshares, fun e he => ?_, fun e he r hr => ?_, fun e he r hr x i hx r' hr' heq => ?_⟩
  · rw [hcell e he]
    exact h.keyed e he
  · rw [hcell e he] at hr
    exact hkeep.holds (h.held e he r hr)
  · rw [hcell e he] at hr
    obtain ⟨ino, hmem⟩ := (mp.copyInodes copied).mem_extents_apply c
    obtain ⟨j, hj, hr'⟩ | ⟨-, hfresh, -⟩ := hmem x i r' hx hr'
    · have hj' : mp.inode? x = some j := (get?_copyItems _ _ _).symm.trans hj
      exact h.own e he r hr x j hj' r' hr' heq
    · have hlt : r.ref < mp.exts.next := (h.held e he r hr).1
      have hnext : (mp.copyInodes copied).exts.next = mp.exts.next := rfl
      omega

theorem Shares.getInode (h : Shares index mp) (now : Int64) (ino : UInt64) :
    Shares index (mp.getInode now ino).1 := by
  obtain hr | hr := mp.getInode_cases now ino
  · rw [hr]
    exact h
  · rw [hr]
    have hcell (p : Nat) : ((mp.updateInode ino (touch now)
        (key_touch now)).inodeTree.cell p).extents = (mp.inodeTree.cell p).extents := by
      rw [← hr]
      exact mp.extents_getInode now ino p
    refine ⟨⟨h.bound, h.shared⟩, fun e he => ?_, fun e he => ?_, fun e he r hr x i hx r' hr' => ?_⟩
    · exact (key_cell_update _ _ _ (key_touch now) _).trans (h.keyed e he)
    · unfold InodeOf.Held
      rw [hcell]
      exact h.held e he
    · rw [hcell] at hr
      rw [inode?_updateInode] at hx
      split at hx
      · obtain ⟨j, hj, rfl⟩ := map_eq_some_iff.mp hx
        exact h.own e he r hr x j hj r' hr'
      · exact h.own e he r hr x i hx r' hr'

end MetaPartition

/-! ### What a captured tree would store -/

open MetaPartition PartitionValue

def Capture.value (m : Capture) (mp : MetaPartition) : PartitionValue where
  endId := mp.endId
  cursor := mp.cursor
  inodeTree := mp.storeInodes m.inodeTree
  dentryTree := m.dentryTree

section Captured

variable {m : Capture} {mp mp' : MetaPartition} {c : Command} {copied : List Nat} {i : InodeCell}

theorem Capture.get?_value (h : ∀ e ∈ m.inodeTree.items, (mp.inodeTree.cell e.2).key = e.1)
    (k : Nat) : (m.value mp).inodeTree.get? k =
      (m.inodeTree.get? k).map fun e => storeInode mp.exts (mp.inodeTree.cell e.2) :=
  (mp.storeInodes_image h).get? k

theorem Capture.related_value {P : UInt64 → SizedKeys → SizedKeys → Prop}
    (h : Shares m.inodeTree mp) (h' : Shares m.inodeTree mp')
    (hcell : ∀ e ∈ m.inodeTree.items, (storeInode mp.exts (mp.inodeTree.cell e.2)).Like P
      (storeInode mp'.exts (mp'.inodeTree.cell e.2))) : Related P (m.value mp) (m.value mp') := by
  refine ⟨rfl, fun k => ?_⟩
  rw [get?_value h.keyed, get?_value h'.keyed]
  cases hk : m.inodeTree.get? k with
  | none => exact .none
  | some e => exact .some (hcell e (get?_eq_some_iff.mp hk).1)

theorem like_cut {h h' : ExtentHeap} {x : ExtentRef} {length ino : UInt64}
    (hi : i.Held h) (hi' : i.Held h') (hx : h.Holds x) (hlt : x.key < length.toNat)
    (hobj : ∀ r ∈ i.extents.items, h'.obj r.ref =
      if r.ref = x.ref then (h.obj r.ref).cut length else h.obj r.ref)
    (hino : ∀ r ∈ i.extents.items, r.ref = x.ref → i.inode = ino) :
    (storeInode h i).Like (CutIn ino x.key length) (storeInode h' i) := by
  refine ⟨i.accessTime, i.size, (storeInode h' i).extents, rfl, ?_⟩
  by_cases hmem : ∃ r ∈ i.extents.items, r.ref = x.ref
  · obtain ⟨r₀, hr₀, href⟩ := hmem
    refine .inr ⟨hino r₀ hr₀ href, CutAt.of_cases fun k => ?_⟩
    dsimp only
    rw [hi.image.get? k, hi'.image.get? k]
    cases hk : i.extents.get? k with
    | none => exact .inl ⟨rfl, rfl⟩
    | some r =>
      obtain ⟨hr, hkey⟩ := get?_eq_some_iff.mp hk
      have hval : h'.value r = if r.ref = x.ref then (h.value r).cut length else h.value r :=
        hobj r hr
      -- a key is in the heap under one offset
      have hsame (heq : r.ref = x.ref) : k = x.key := by
        rw [← hkey, ← (hi r hr).key, ← hx.key]
        unfold ExtentHeap.value
        rw [heq]
      refine .inr ⟨h.value r, h'.value r, rfl, rfl, fun hne => ?_, ?_⟩
      · rw [hval, if_neg fun heq => hne (hsame heq)]
      · rw [hval]
        split
        next heq =>
          have hoff : (h.value r).fileOffset < length := by
            rw [lt_iff_toNat_lt]
            exact ((hi r hr).key.trans (hkey.trans (hsame heq))).trans_lt hlt
          rw [ExtentKey.cut_cut hoff, ite_self]
        · rfl
  refine .inl (Prod.ext rfl ?_)
  refine congrArg extents (storeInode_congr fun r hr => ?_).symm
  rw [hobj r hr, if_neg fun heq => hmem ⟨r, hr, heq⟩]

theorem Capture.value_apply (h : Shares m.inodeTree mp) (hown : mp.OwnsExtents)
    (hi : mp.Isolates (c, copied) = true) :
    Related SameKeys (m.value mp) (m.value ((mp.copyInodes copied).apply c)) ∨
      ∃ ino i x, c = .extentTruncate ino ∧ mp.inode? ino.inode = some i ∧ i.shouldDelete = false ∧
        isDir i.type = false ∧
        (i.extents.items.filter fun r => r.key < ino.size.toNat).getLast? = some x ∧
        Related (CutIn ino.inode x.key ino.size) (m.value mp)
          (m.value ((mp.copyInodes copied).apply c)) := by
  have h' := h.step hi
  obtain ⟨-, hcell⟩ := h.toSharesCells.step hi
  obtain hobj | ⟨ino, i, x, rfl, hino, hd, hdir, hx, hobj⟩ :=
    (mp.copyInodes copied).obj_apply_cases c
  · refine .inl (related_value h h' fun e he => ?_)
    have hsame : storeInode ((mp.copyInodes copied).apply c).exts (mp.inodeTree.cell e.2) =
        storeInode mp.exts (mp.inodeTree.cell e.2) :=
      storeInode_congr fun r hr => hobj r.ref (h.held e he r hr).1
    rw [hcell e he, hsame]
    exact ⟨_, _, _, rfl, rfl⟩
  · have hino' : mp.inode? ino.inode = some i := (ObjTree.get?_copyItems _ _ _).symm.trans hino
    obtain ⟨hxi, hlt⟩ := List.mem_filter.mp (List.mem_of_getLast? hx)
    refine .inr ⟨ino, i, x, rfl, hino', hd, hdir, hx, related_value h h' fun e he => ?_⟩
    have hheld' := h'.held e he
    rw [hcell e he] at hheld' ⊢
    refine like_cut (h.held e he) hheld' (hown.held _ i hino' x hxi) (of_decide_eq_true hlt)
      (fun r _ => hobj r.ref) fun r hr heq => ?_
    have hid := h.own e he r hr _ i hino' x hxi heq.symm
    exact UInt64.toNat_inj.mp ((h.keyed e he).trans hid.symm)

theorem lastBefore_storeInode {h : ExtentHeap} (hi : i.Held h) (length : UInt64) :
    SizedKeys.lastBefore ((storeInode h i).size, (storeInode h i).extents) length =
      (i.extents.items.filter fun r => r.key < length.toNat).getLast?.map ExtentRef.key := by
  have hkey (r : ExtentRef) (hr : r ∈ i.extents.items) : (h.value r).key = r.key := (hi r hr).key
  have hfilter : (i.extents.items.filter fun r => decide ((h.value r).key < length.toNat)) =
      i.extents.items.filter fun r => decide (r.key < length.toNat) :=
    List.filter_congr fun r hr => by rw [hkey r hr]
  unfold SizedKeys.lastBefore
  dsimp only
  rw [hi.image.items, List.filter_map, List.getLast?_map, Option.map_map]
  refine (congrArg (fun l => (List.getLast? l).map _) hfilter).trans ?_
  cases hl : (i.extents.items.filter fun r => r.key < length.toNat).getLast? with
  | none => rfl
  | some r => exact congrArg some (hkey r (List.mem_filter.mp (List.mem_of_getLast? hl)).1)

theorem Capture.replays_apply (h : Shares m.inodeTree mp) (hown : mp.OwnsExtents)
    (hi : mp.Isolates (c, copied) = true) {cs : List Command}
    (hr : SameTrees (cs.foldl apply (m.value mp)) mp.value) : SameTrees ((cs ++ [c]).foldl apply
      (m.value ((mp.copyInodes copied).apply c))) ((mp.copyInodes copied).apply c).value := by
  have hvalue : ((mp.copyInodes copied).apply c).value = mp.value.apply c := by
    rw [MetaPartition.value_apply (hown.copyInodes copied), value_copyInodes]
  have hnext : SameTrees ((cs ++ [c]).foldl apply (m.value mp))
      ((mp.copyInodes copied).apply c).value := by
    rw [foldl_append, hvalue]
    exact hr.foldl [c]
  obtain hsame | ⟨ino, i, x, rfl, hino, hd, hdir, hx, hcut⟩ := value_apply h hown hi
  · exact ((sameTrees_iff.mpr hsame).foldl (cs ++ [c])).symm.trans hnext
  · refine SameTrees.trans ?_ hnext
    rw [foldl_append, foldl_append]
    have hlt := of_decide_eq_true (mem_filter.mp (mem_of_getLast? hx)).2
    have hfold := hcut.foldl (keysCongr_cutIn ino.inode hlt) cs
    -- the inode that is truncated, as the replay finds it
    have hfound := inode?_value mp ino.inode
    rw [hino, map_some] at hfound
    obtain ⟨hnone, -⟩ | ⟨j, i', hj, hi', hlike⟩ := (sameTrees_iff.mp hr.symm).inode? ino.inode
    · rw [hfound] at hnone
      cases hnone
    · rw [hfound] at hj
      cases hj
      obtain ⟨t, n, e, rfl, hkeys⟩ := hlike
      have hlast := lastBefore_storeInode (hown.held _ i hino) ino.size
      rw [hx, map_some, hkeys] at hlast
      exact (sameTrees_iff.mpr (hfold.truncate_cut hi' hd hdir hlast)).symm

end Captured

/-! ### Reads and notifications -/

theorem sameTrees_getInode (mp : MetaPartition) (now : Int64) (ino : UInt64) :
    SameTrees (mp.getInode now ino).1.value mp.value := by
  obtain hr | hr := mp.getInode_cases now ino
  · rw [hr]
    exact ⟨rfl, fun _ => rfl⟩
  · rw [hr]
    refine ⟨rfl, fun k => ?_⟩
    rw [MetaPartition.get?_value, MetaPartition.get?_value, updateInode, ObjTree.get?_update]
    split
    · rw [Option.map_map, Option.map_map, Option.map_map]
      rfl
    · rfl

variable {mp : MetaPartition}

theorem Capture.sameTrees_getInode {m : Capture} (h : Shares m.inodeTree mp) (now : Int64)
    (ino : UInt64) : SameTrees (m.value (mp.getInode now ino).1) (m.value mp) := by
  refine (sameTrees_iff.mpr (related_value h (h.getInode now ino) fun e _ => ?_)).symm
  obtain hr | hr := mp.getInode_cases now ino
  · rw [hr]
    exact ⟨_, _, _, rfl, rfl⟩
  · rw [hr, updateInode]
    dsimp only
    rw [cell_update]
    split
    · exact ⟨now, _, _, rfl, rfl⟩
    · exact ⟨_, _, _, rfl, rfl⟩

theorem MetaPartition.Shares.internalDelete {index : OrdTree (Nat × Nat) Prod.fst}
    (h : Shares index mp) (inos : List UInt64) : Shares index (mp.internalDelete inos) := by
  have hi : mp.Isolates (.internalDeleteInode inos, []) = true := rfl
  exact h.step hi

theorem value_internalDelete (mp : MetaPartition) (inos : List UInt64) :
    (mp.internalDelete inos).value = mp.value.apply (.internalDeleteInode inos) :=
  mp.value_internalDeleteInode inos

variable {inos : List UInt64}

theorem sameTrees_internalDelete {v : PartitionValue} (h : ∀ ino ∈ inos, v.inode? ino = none) :
    SameTrees (v.apply (.internalDeleteInode inos)) v := by
  induction inos generalizing v with
  | nil => exact ⟨rfl, fun _ => rfl⟩
  | cons ino inos ih =>
    obtain ⟨hno, hrest⟩ := List.forall_mem_cons.mp h
    have hget (k : Nat) : (v.inodeTree.erase ino.toNat).get? k = v.inodeTree.get? k := by
      rw [OrdTree.get?_erase]
      split
      next hk =>
        rw [hk]
        exact hno.symm
      · rfl
    have hone : SameTrees { v with inodeTree := v.inodeTree.erase ino.toNat } v :=
      ⟨rfl, fun k => by rw [hget]⟩
    exact SameTrees.trans (ih fun x hx => (hget x.toNat).trans (hrest x hx)) hone

namespace CrashReplica

/-! ### The invariant -/

structure CaptureSound (log : List (UInt64 × Command)) (applyID : UInt64) (mp : MetaPartition)
    (m : Capture) : Prop where
  shares : Shares m.inodeTree mp
  old : m.applyIndex ≤ applyID
  replays : m.freed = false →
    SameTrees (((between log m.applyIndex applyID).map Prod.snd).foldl PartitionValue.apply
      (m.value mp)) mp.value

def filesValue (files : SnapshotFiles) : PartitionValue :=
  ⟨0, 0, files.inodeTree, files.dentryTree⟩

/-- A process that starts on the disk loads trees that replay to those of the peer, if no
notification has come since they were captured. -/
structure DiskSound (s : CrashReplica) (files : SnapshotFiles) (applyID : UInt64) : Prop where
  loads : ∀ startId endId now, ∃ mp,
    (MetaPartition.new startId endId).loadDir now s.disk = .ok (mp, applyID) ∧ mp.OwnsExtents ∧
      mp.store .live = files
  old : applyID ≤ s.applyID
  replays : s.diskFreed = false →
    SameTrees (((after s.log applyID).map Prod.snd).foldl PartitionValue.apply (filesValue files))
      s.peer.value

structure MemorySound (s : CrashReplica) (mp : MetaPartition) : Prop where
  owns : mp.OwnsExtents
  replays : SameTrees (((after s.log s.applyID).map Prod.snd).foldl PartitionValue.apply mp.value)
    s.peer.value
  captured : ∀ m ∈ s.captured, CaptureSound s.log s.applyID mp m

structure Sound (s : CrashReplica) : Prop where
  sorted : s.log.Pairwise fun e e' => e.1 < e'.1
  peer : s.peer.OwnsExtents
  memory : ∃ mp, s.memory = some mp ∧ s.MemorySound mp
  disk : ∃ files applyID, s.DiskSound files applyID

theorem sound_start (startId endId : UInt64) : (start startId endId).Sound where
  sorted := List.Pairwise.nil
  peer := ownsExtents_new startId endId
  memory := ⟨_, rfl, ownsExtents_new startId endId, ⟨rfl, fun _ => rfl⟩, nofun⟩
  disk := ⟨⟨OrdTree.empty, OrdTree.empty⟩, 0,
    fun a b _ => ⟨MetaPartition.new a b, rfl, ownsExtents_new a b, rfl⟩, le_refl _,
    fun _ => ⟨rfl, fun _ => rfl⟩⟩

variable {s s' : CrashReplica} {copied : List Nat}

theorem captureSound_applied {log' : List (UInt64 × Command)} {e : UInt64 × Command}
    (h : s.MemorySound mp) (hi : mp.Isolates (e.2, copied) = true) (hlt : s.applyID < e.1)
    (hbetween : ∀ a, a ≤ s.applyID → between log' a e.1 = between s.log a s.applyID ++ [e])
    (hend : between log' e.1 e.1 = []) : ∀ m ∈ (s.applied mp e copied).captured,
      CaptureSound log' e.1 ((mp.copyInodes copied).apply e.2) m := by
  have hold (m : Capture) (hm : m ∈ s.captured) :
      CaptureSound log' e.1 ((mp.copyInodes copied).apply e.2) m := by
    have hsound := h.captured m hm
    refine ⟨hsound.shares.step hi, le_trans hsound.old (le_of_lt hlt), fun hf => ?_⟩
    rw [hbetween _ hsound.old, List.map_append]
    exact Capture.replays_apply hsound.shares h.owns hi (hsound.replays hf)
  intro m hm
  obtain ⟨index, c⟩ := e
  by_cases hc : c = .storeTick
  · subst hc
    obtain hm | hm := List.mem_append.mp hm
    · exact hold m hm
    · obtain rfl := mem_singleton.mp hm
      refine ⟨shares_of_owns (h.owns.copyInodes copied), le_refl _, fun _ => ?_⟩
      rw [hend]
      exact ⟨rfl, fun _ => rfl⟩
  refine hold m ?_
  unfold applied at hm
  cases c with
  | storeTick => exact absurd rfl hc
  | _ => exact hm

theorem between_self {log : List (UInt64 × Command)} (a : UInt64) : between log a a = [] := by
  refine List.filter_eq_nil_iff.mpr fun e _ hin => ?_
  obtain ⟨hlt, hle⟩ := Bool.and_eq_true_iff.mp hin
  exact not_le.mpr (of_decide_eq_true hlt) (of_decide_eq_true hle)

theorem sound_apply {index : UInt64} {c : Command} {peerCopied : List Nat} (h : s.Sound)
    (hc : s.Careful (.apply index c copied peerCopied))
    (hs : s.step (.apply index c copied peerCopied) = some s') : s'.Sound := by
  obtain ⟨mp, hmem, hmp⟩ := h.memory
  have hi : mp.Isolates (c, copied) = true := hc mp hmem
  dsimp only [step] at hs
  rw [hmem] at hs
  cases htodo : s.todo with
  | cons e rest =>
    rw [htodo] at hs
    cases hs
  | nil =>
    rw [htodo] at hs
    dsimp only at hs
    split at hs
    next hlt =>
      cases hs
      have hall := le_of_after_nil htodo
      have hpeer : ((s.peer.copyInodes peerCopied).apply c).value = s.peer.value.apply c := by
        rw [MetaPartition.value_apply (h.peer.copyInodes peerCopied), value_copyInodes]
      have hvalue : ((mp.copyInodes copied).apply c).value = mp.value.apply c := by
        rw [MetaPartition.value_apply (hmp.owns.copyInodes copied), value_copyInodes]
      refine ⟨?_, (h.peer.copyInodes peerCopied).apply c, ⟨_, rfl, ?_, ?_, ?_⟩, ?_⟩
      · refine List.pairwise_append.mpr ⟨h.sorted, List.pairwise_singleton _ _, ?_⟩
        intro e he e' he'
        rw [mem_singleton.mp he']
        exact lt_of_le_of_lt (hall e he) hlt
      · exact (hmp.owns.copyInodes copied).apply c
      · have hnil : after (s.log ++ [(index, c)]) index = [] := after_eq_nil fun e he => by
          obtain he | he := List.mem_append.mp he
          · exact le_trans (hall e he) (le_of_lt hlt)
          · rw [mem_singleton.mp he]
            exact le_refl _
        have hbefore := hmp.replays
        have htodo' : after s.log s.applyID = [] := htodo
        rw [htodo'] at hbefore
        dsimp only [applied]
        rw [hnil, hpeer, hvalue]
        exact hbefore.foldl [c]
      · exact captureSound_applied hmp hi hlt (fun a ha => between_snoc hall ha hlt)
          (between_self index)
      · obtain ⟨files, applyID, hd⟩ := h.disk
        have hle := le_trans hd.old (le_of_lt hlt)
        refine ⟨files, applyID, hd.loads, hle, fun hf => ?_⟩
        dsimp only [applied]
        have hlt' : applyID < ((index, c) : UInt64 × Command).1 := lt_of_le_of_lt hd.old hlt
        rw [after_snoc hlt', List.map_append, List.foldl_append, hpeer]
        exact (hd.replays hf).foldl [c]
    · cases hs

theorem sound_replay (h : s.Sound) (hc : s.Careful (.replay copied))
    (hs : s.step (.replay copied) = some s') : s'.Sound := by
  obtain ⟨mp, hmem, hmp⟩ := h.memory
  dsimp only [step] at hs
  rw [hmem] at hs
  cases htodo : s.todo with
  | nil =>
    rw [htodo] at hs
    cases hs
  | cons e rest =>
    rw [htodo] at hs
    cases hs
    have hi : mp.Isolates (e.2, copied) = true := hc mp hmem e (by rw [htodo]; rfl)
    obtain ⟨hrest, hlt, hbetween⟩ := split_of_after h.sorted htodo
    have hvalue : ((mp.copyInodes copied).apply e.2).value = mp.value.apply e.2 := by
      rw [MetaPartition.value_apply (hmp.owns.copyInodes copied), value_copyInodes]
    refine ⟨h.sorted, h.peer, ⟨_, rfl, ?_, ?_, ?_⟩, ?_⟩
    · exact (hmp.owns.copyInodes copied).apply e.2
    · have hbefore := hmp.replays
      have htodo' : after s.log s.applyID = e :: rest := htodo
      rw [htodo'] at hbefore
      dsimp only [applied]
      rw [hrest, hvalue]
      exact hbefore
    · exact captureSound_applied hmp hi hlt hbetween (between_self e.1)
    · obtain ⟨files, applyID, hd⟩ := h.disk
      exact ⟨files, applyID, hd.loads, le_trans hd.old (le_of_lt hlt), hd.replays⟩

variable {now : Int64} {ino : UInt64}

theorem sound_inodeGet (h : s.Sound) (hs : s.step (.inodeGet now ino) = some s') : s'.Sound := by
  cases hs
  obtain ⟨mp, hmem, hmp⟩ := h.memory
  have hread := sameTrees_getInode mp now ino
  refine ⟨h.sorted, h.peer, ⟨(mp.getInode now ino).1, ?_, hmp.owns.getInode now ino, ?_, ?_⟩, ?_⟩
  · dsimp only
    rw [hmem]
    rfl
  · exact (hread.foldl _).trans hmp.replays
  · intro m hm
    have hsound := hmp.captured m hm
    refine ⟨hsound.shares.getInode now ino, hsound.old, fun hf => ?_⟩
    have hcap := Capture.sameTrees_getInode hsound.shares now ino
    exact ((hcap.foldl _).trans (hsound.replays hf)).trans hread.symm
  · obtain ⟨files, applyID, hd⟩ := h.disk
    exact ⟨files, applyID, hd.loads, hd.old, hd.replays⟩

theorem sound_peerInodeGet (h : s.Sound) (hs : s.step (.peerInodeGet now ino) = some s') :
    s'.Sound := by
  cases hs
  obtain ⟨mp, hmem, hmp⟩ := h.memory
  have hread := (sameTrees_getInode s.peer now ino).symm
  refine ⟨h.sorted, h.peer.getInode now ino, ⟨mp, hmem, hmp.owns, hmp.replays.trans hread,
    hmp.captured⟩, ?_⟩
  obtain ⟨files, applyID, hd⟩ := h.disk
  exact ⟨files, applyID, hd.loads, hd.old, fun hf => (hd.replays hf).trans hread⟩

theorem sound_freeInodes (h : s.Sound) (hc : s.Careful (.freeInodes inos))
    (hs : s.step (.freeInodes inos) = some s') : s'.Sound := by
  cases hs
  obtain ⟨mp, hmem, hmp⟩ := h.memory
  have htodo : after s.log s.applyID = [] := isEmpty_iff.mp hc
  have hsame : SameTrees mp.value s.peer.value := by
    have hreplays := hmp.replays
    rw [htodo] at hreplays
    exact hreplays
  -- a notification that finds nothing to remove changes nothing
  have hpeer (hno : (inos.any fun ino => (s.peer.inode? ino).isSome) = false) :
      SameTrees s.peer.value (s.peer.internalDelete inos).value := by
    rw [value_internalDelete]
    refine (sameTrees_internalDelete fun ino hino => ?_).symm
    have hnone := any_eq_false.mp hno ino hino
    rw [inode?_value, not_isSome_iff_eq_none.mp hnone]
    rfl
  have hboth : SameTrees (mp.internalDelete inos).value (s.peer.internalDelete inos).value := by
    rw [value_internalDelete, value_internalDelete]
    exact hsame.foldl [.internalDeleteInode inos]
  refine ⟨h.sorted, h.peer.apply (.internalDeleteInode inos),
    ⟨mp.internalDelete inos, ?_, hmp.owns.apply (.internalDeleteInode inos), ?_, ?_⟩, ?_⟩
  · dsimp only
    rw [hmem]
    rfl
  · dsimp only
    rw [htodo]
    exact hboth
  · intro m' hm'
    obtain ⟨m, hm, rfl⟩ := mem_map.mp hm'
    have hsound := hmp.captured m hm
    refine ⟨hsound.shares.internalDelete inos, hsound.old, fun hf => ?_⟩
    obtain ⟨hold, hno⟩ := Bool.or_eq_false_iff.mp hf
    have hcap : Related SameKeys (m.value mp) (m.value (mp.internalDelete inos)) := by
      have hi : mp.Isolates (.internalDeleteInode inos, []) = true := rfl
      obtain hrel | ⟨ino, i, x, hcmd, -⟩ := Capture.value_apply hsound.shares hmp.owns hi
      · exact hrel
      · cases hcmd
    have hmain := ((sameTrees_iff.mpr hcap).symm.foldl
      ((between s.log m.applyIndex s.applyID).map Prod.snd)).trans (hsound.replays hold)
    exact hmain.trans (hsame.trans ((hpeer hno).trans hboth.symm))
  · obtain ⟨files, applyID, hd⟩ := h.disk
    refine ⟨files, applyID, hd.loads, hd.old, fun hf => ?_⟩
    obtain ⟨hold, hno⟩ := Bool.or_eq_false_iff.mp hf
    exact (hd.replays hold).trans (hpeer hno)

theorem ownsExtents_loadDir {mp' : MetaPartition} {dir : SnapshotDir} {applyID : UInt64}
    (hown : mp.OwnsExtents) (h : mp.loadDir now dir = .ok (mp', applyID)) : mp'.OwnsExtents := by
  obtain ⟨mp₁, hino, h⟩ := Bytes.bind_eq_ok h
  obtain ⟨mp₂, hden, h⟩ := Bytes.bind_eq_ok h
  have hinode {mp mp' : MetaPartition} {body : Bytes} (hown : mp.OwnsExtents)
      (hput : putInode now mp body = .ok mp') : mp'.OwnsExtents := by
    unfold putInode at hput
    split at hput
    · cases hput
    next ino _ =>
      cases hput
      exact hown.loadInode ino
  have hdentry {mp mp' : MetaPartition} {body : Bytes} (hown : mp.OwnsExtents)
      (hput : putDentry mp body = .ok mp') : mp'.OwnsExtents := by
    unfold putDentry fsmForceDentry at hput
    split at hput
    · cases hput
    rename_i d _
    cases hfound : mp.dentryTree.get? d.key with
    | none =>
      rw [hfound] at hput
      dsimp only at hput
      rw [if_pos rfl] at hput
      cases hput
      exact ⟨hown.held, hown.apart⟩
    | some e =>
      rw [hfound] at hput
      dsimp only at hput
      split at hput
      · cases hput
      · cases hput
  have h₁ : mp₁.OwnsExtents := by
    unfold loadFile at hino
    split at hino
    · cases hino
      exact hown
    · exact Bytes.readRecords_invariant (fun _ _ _ hs hput => hinode hs hput) hown hino
  have h₂ : mp₂.OwnsExtents := by
    unfold loadFile at hden
    split at hden
    · cases hden
      exact h₁
    · exact Bytes.readRecords_invariant (fun _ _ _ hs hput => hdentry hs hput) h₁ hden
  unfold loadApplyID at h
  split at h
  · obtain ⟨rfl, -⟩ := Prod.mk.inj (Except.ok.inj h)
    exact h₂
  split at h
  · cases h
  · split at h
    · cases h
    · obtain ⟨rfl, -⟩ := Prod.mk.inj (Except.ok.inj h)
      exact ⟨h₂.held, h₂.apart⟩

theorem sound_store {k : Nat} (h : s.Sound) (hc : s.Careful (.store k))
    (hs : s.step (.store k) = some s') : s'.Sound := by
  obtain ⟨mp, hmem, hmp⟩ := h.memory
  dsimp only [step] at hs
  rw [hmem] at hs
  cases hk : s.captured[k]? with
  | none =>
    rw [hk] at hs
    cases hs
  | some m =>
    rw [hk] at hs
    cases hs
    have hsound := hmp.captured m (mem_of_getElem? hk)
    obtain ⟨hfitI, hfitD⟩ := hc mp hmem m hk
    refine ⟨h.sorted, h.peer, ⟨mp, rfl, hmp.owns, hmp.replays, hmp.captured⟩,
      mp.store (.clone m.inodeTree m.dentryTree), m.applyIndex, fun a b now => ?_, hsound.old,
      fun hf => ?_⟩
    · obtain ⟨mp', hload, hstore, -⟩ := loadDir_of_fits a b m.applyIndex mp.cursor now hfitI hfitD
      exact ⟨mp', hload, ownsExtents_loadDir (ownsExtents_new a b) hload, hstore⟩
    · dsimp only
      rw [after_eq_between h.sorted hsound.old, map_append, foldl_append]
      have hstart : SameTrees (filesValue (mp.store (.clone m.inodeTree m.dentryTree)))
          (m.value mp) := ⟨rfl, fun _ => rfl⟩
      exact (((hstart.foldl _).trans (hsound.replays hf)).foldl _).trans hmp.replays

theorem sound_crash {startId endId : UInt64} (h : s.Sound)
    (hc : s.Careful (.crash startId endId now)) (hs : s.step (.crash startId endId now) = some s') :
    s'.Sound := by
  obtain ⟨files, applyID, hd⟩ := h.disk
  obtain ⟨mp, hload, hown, hstore⟩ := hd.loads startId endId now
  dsimp only [step] at hs
  rw [hload] at hs
  cases hs
  have hstart : SameTrees mp.value (filesValue files) := by
    subst hstore
    exact ⟨rfl, fun _ => rfl⟩
  exact ⟨h.sorted, h.peer, ⟨mp, rfl, hown, (hstart.foldl _).trans (hd.replays hc), nofun⟩, files,
    applyID, hd.loads, le_refl _, hd.replays⟩

theorem sound_step {e : CrashEvent} (h : s.Sound) (hc : s.Careful e) (hs : s.step e = some s') :
    s'.Sound := by
  cases e with
  | apply index c copied peerCopied => exact sound_apply h hc hs
  | replay copied => exact sound_replay h hc hs
  | inodeGet now ino => exact sound_inodeGet h hs
  | peerInodeGet now ino => exact sound_peerInodeGet h hs
  | freeInodes inos => exact sound_freeInodes h hc hs
  | store k => exact sound_store h hc hs
  | crash startId endId now => exact sound_crash h hc hs

/-- Whenever the replica has replayed its log, its trees are those of a replica that never
crashed, but for access times. -/
theorem recovered_as_peer (startId endId : UInt64)
    (hr : Reach step Careful (start startId endId) s) (htodo : s.todo = []) :
    ∃ mp, s.memory = some mp ∧ SameTrees mp.value s.peer.value := by
  have h : s.Sound :=
    hr.invariant (sound_start startId endId) fun _ _ _ h hc hs => sound_step h hc hs
  obtain ⟨mp, hmem, hmp⟩ := h.memory
  have hreplays := hmp.replays
  have hnil : after s.log s.applyID = [] := htodo
  rw [hnil] at hreplays
  exact ⟨mp, hmem, hreplays⟩

instance decidableCareful (s : CrashReplica) : (e : CrashEvent) → Decidable (s.Careful e)
  | .apply _ c copied _ =>
    inferInstanceAs (Decidable (∀ mp ∈ s.memory, mp.Isolates (c, copied) = true))
  | .replay copied => inferInstanceAs (Decidable (∀ mp ∈ s.memory, ∀ e ∈ s.todo.head?,
      mp.Isolates (e.2, copied) = true))
  | .inodeGet _ _ => inferInstanceAs (Decidable True)
  | .peerInodeGet _ _ => inferInstanceAs (Decidable True)
  | .freeInodes _ => inferInstanceAs (Decidable (s.todo.isEmpty = true))
  | .store k => inferInstanceAs (Decidable (∀ mp ∈ s.memory, ∀ m ∈ s.captured[k]?,
      (mp.store (.clone m.inodeTree m.dentryTree)).Fits))
  | .crash _ _ _ => inferInstanceAs (Decidable (s.diskFreed = false))

def cutAndCrash : List CrashEvent :=
  [.apply 1 (.createInode (file5 0 [])) [] [],
    .apply 2 (.extentsAdd (file5 0 [⟨0, 1, 1, 0, 100, 0⟩])) [] [], .apply 3 .storeTick [] [],
    .apply 4 (.extentTruncate (file5 50 [])) [5] [], .store 0, .inodeGet 7 5, .crash 0 100 8,
    .replay []]

set_option maxRecDepth 2000 in
theorem recovered_as_peer_cutAndCrash : ∃ s, Reach step Careful (start 0 100) s ∧
    (s.peer.inode? 5).map size = some 50 ∧
    ∃ mp, s.memory = some mp ∧ SameTrees mp.value s.peer.value := by
  have hr : Reach step Careful (start 0 100) _ := .of_checked cutAndCrash rfl .start
  exact ⟨_, hr, rfl, recovered_as_peer 0 100 hr rfl⟩

def file2 : Inode := InodeOf.new OrdTree.empty 2 0o644 0

def freeAndCrash : List CrashEvent :=
  [.apply 1 (.createInode file2) [] [], .apply 2 (.unlinkInode file2) [] [], .freeInodes [2],
    .crash 0 100 0, .replay [], .replay []]

/-- The replay brings the removed inode back. -/
theorem replay_brings_back_freed : ∃ s, Reach step (fun _ _ => True) (start 0 100) s ∧
    s.todo = [] ∧ ∃ mp, s.memory = some mp ∧ ¬ SameTrees mp.value s.peer.value := by
  refine ⟨_, .of_foldlM freeAndCrash rfl (fun _ _ _ => trivial) .start, rfl, _, rfl, ?_⟩
  rintro ⟨-, hsame⟩
  have hat := congrArg isSome (hsame 2)
  rw [isSome_map, isSome_map] at hat
  exact absurd hat (by decide)

end CrashReplica
end ChubaoFS
