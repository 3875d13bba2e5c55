import ChubaoFS.ExtentWriters

namespace ChubaoFS

open OrdTree InodeOf
open List (mem_cons pairwise_cons)

/-! The extents of a file as a map of its bytes. -/

structure BytePlace where
  partitionId : UInt64
  extentId : UInt64
  offset : Nat
  deriving DecidableEq, Repr

namespace ExtentKey

/-- Where the key puts the byte `o` of the file. -/
def placeAt (k : ExtentKey) (o : Nat) : BytePlace where
  partitionId := k.partitionId
  extentId := k.extentId
  offset := k.extentOffset.toNat + (o - k.key)

@[simp] theorem sameExtent_self (k : ExtentKey) : k.sameExtent k = true := by
  simp [sameExtent]

theorem sameExtent_comm (k k' : ExtentKey) : k.sameExtent k' = k'.sameExtent k := by
  unfold sameExtent
  rw [BEq.comm, BEq.comm (a := k.extentId)]

/-- The key meets no byte of `d`, or covers it; a key of its own extent it covers only if both
begin at one place of the file and of the extent. -/
def Takes (k d : ExtentKey) : Prop :=
  d.Apart k ∨ (k.key ≤ d.key ∧ d.stop ≤ k.stop) ∧
    (d.key = k.key ∧ d.extentOffset = k.extentOffset ∨ d.sameExtent k = false)

instance (k d : ExtentKey) : Decidable (k.Takes d) := inferInstanceAs (Decidable (_ ∨ _))

end ExtentKey

inductive ExtentOp
  | put (k : ExtentKey)
  | cut (length : UInt64)

namespace ExtentOp

def lastWrite : List ExtentOp → Nat → Option BytePlace
  | [], _ => none
  | put k :: ops, o => if k.key ≤ o ∧ o < k.stop then some (k.placeAt o) else lastWrite ops o
  | cut length :: ops, o => if o < length.toNat then lastWrite ops o else none

def lastLength (length₀ : Nat) : List ExtentOp → Nat
  | [] => length₀
  | put _ :: ops => lastLength length₀ ops
  | cut length :: _ => length.toNat

end ExtentOp

def ExtentEvent.ops : ExtentEvent → List ExtentOp
  | append keys _ => (keys.items.map .put).reverse
  | truncate length _ => [.cut length]

namespace ExtentsTree

open ExtentKey (stop)

def byteAt (e : ExtentsTree) (o : Nat) : Option BytePlace :=
  (OrdTree.at? stop e o).map fun k => k.placeAt o

def Accepts (e : ExtentsTree) (k : ExtentKey) : Prop :=
  0 < k.size ∧ k.stop < 2 ^ 64 ∧ ∀ d ∈ e.items, k.Takes d

instance (e : ExtentsTree) (k : ExtentKey) : Decidable (e.Accepts k) :=
  inferInstanceAs (Decidable (_ ∧ _ ∧ _))

variable {e : ExtentsTree} {k : ExtentKey}

theorem Accepts.clears (h : e.Accepts k) : e.Clears k := by
  refine ⟨h.2.1, fun d hd => ?_⟩
  obtain hap | ⟨hcov, hext⟩ := h.2.2 d hd
  · exact .inl hap
  · exact .inr ⟨hcov.1, hext.imp_left And.left⟩

section Append

variable {e : ExtentsTree} {k : ExtentKey} (he : e.Sound)
include he

variable (hk : e.Accepts k)
include hk

theorem mem_append_of_accepts (x : ExtentKey) :
    x ∈ (append e k).1.items ↔ x = k ∨ x ∈ e.items ∧ x.Apart k :=
  mem_append_of_clears he hk.1 hk.clears x

theorem byteAt_append (o : Nat) : byteAt (append e k).1 o =
      if k.key ≤ o ∧ o < k.stop then some (k.placeAt o) else byteAt e o := by
  have hpos : k.key < k.stop := Nat.lt_add_of_pos_right (UInt32.lt_iff_toNat_lt.mp hk.1)
  have hcover (d : ExtentKey) (hd : d ∈ e.items) :
      d.Apart k ∨ k.key ≤ d.key ∧ d.stop ≤ k.stop := (hk.2.2 d hd).imp_right And.left
  unfold byteAt
  rw [he.spans.at?_put hpos (mem_append_of_accepts he hk) hcover]
  split <;> rfl

theorem maxEnd_le_append : e.maxEnd ≤ maxEnd (append e k).1 := by
  have hmem := mem_append_of_accepts he hk
  refine maxEnd_le fun d hd => ?_
  obtain hap | ⟨hcov, -⟩ := hk.2.2 d hd
  · exact stop_le_maxEnd ((hmem d).mpr (.inr ⟨hd, hap⟩))
  · exact Nat.le_trans hcov.2 (stop_le_maxEnd ((hmem k).mpr (.inl rfl)))

end Append

theorem byteAt_truncate (he : e.Sound) (length : UInt64) (o : Nat) :
    byteAt (truncate e length) o = if o < length.toNat then byteAt e o else none := by
  unfold byteAt
  rw [he.spans.at?_cut (ExtentKey.key_cut length)
    (fun k hk hlt => ExtentKey.stop_cut (he.small k hk) hlt) (mem_truncate he length)]
  split
  · rw [Option.map_map]
    have hplace (k : ExtentKey) : (k.cut length).placeAt o = k.placeAt o := by
      unfold ExtentKey.cut
      split <;> rfl
    exact congrArg (Option.map · _) (funext hplace)
  · rfl

/-! ### The keys of one command -/

def appendAll (e : ExtentsTree) : List ExtentKey → ExtentsTree × List ExtentKey
  | [] => (e, [])
  | k :: ks => ((appendAll (append e k).1 ks).1, (append e k).2 ++ (appendAll (append e k).1 ks).2)

variable {keys : List ExtentKey} {x : ExtentKey}

theorem AllKeys.apart_of_mem (he : e.Sound) (h : AllKeys Accepts e keys) (hx : x ∈ e.items)
    (hlt : ∀ k ∈ keys, x.key < k.key) : ∀ k ∈ keys, x.Apart k := by
  induction keys generalizing e with
  | nil => nofun
  | cons k keys ih =>
    have hap : x.Apart k := by
      obtain hap | ⟨hcov, -⟩ := h.1.2.2 x hx
      · exact hap
      · have := hlt k (List.mem_cons_self ..)
        omega
    have hmem := (mem_append_of_accepts he h.1 x).mpr (.inr ⟨hx, hap⟩)
    have hrest := ih (he.append h.1.1 h.1.clears) h.2 hmem
      fun k' hk' => hlt k' (List.mem_cons_of_mem k hk')
    intro k' hk'
    obtain rfl | hk' := mem_cons.mp hk'
    · exact hap
    · exact hrest k' hk'

section AppendAll

variable {e : ExtentsTree} {keys : List ExtentKey} (he : e.Sound)
include he

section

variable (h : AllKeys Accepts e keys)
include h

section

variable (hs : keys.Pairwise fun a b => a.key < b.key)
include hs

theorem AllKeys.pairwise : keys.Pairwise ExtentKey.Apart := by
  induction keys generalizing e with
  | nil => exact .nil
  | cons k keys ih =>
    obtain ⟨hlt, hs⟩ := pairwise_cons.mp hs
    have hsound := he.append h.1.1 h.1.clears
    have hmem := (mem_append_of_accepts he h.1 k).mpr (.inl rfl)
    exact .cons (h.2.apart_of_mem hsound hmem hlt) (ih hsound h.2 hs)

theorem AllKeys.takes (hx : x ∈ e.items) : ∀ k ∈ keys, k.Takes x := by
  induction keys generalizing e with
  | nil => nofun
  | cons k keys ih =>
    obtain ⟨hap, -⟩ := pairwise_cons.mp (h.pairwise he hs)
    intro k' hk'
    obtain rfl | hk' := mem_cons.mp hk'
    · exact h.1.2.2 x hx
    · obtain hxk | ⟨hcov, -⟩ := h.1.2.2 x hx
      · have hmem := (mem_append_of_accepts he h.1 x).mpr (.inr ⟨hx, hxk⟩)
        exact ih (he.append h.1.1 h.1.clears) h.2 (pairwise_cons.mp hs).2 hmem k' hk'
      · refine .inl ?_
        obtain hle | hle := hap k' hk'
        · exact .inl (Nat.le_trans hcov.2 hle)
        · exact .inr (Nat.le_trans hle hcov.1)

theorem mem_appendAll (x : ExtentKey) :
    x ∈ (appendAll e keys).1.items ↔ x ∈ keys ∨ x ∈ e.items ∧ ∀ k ∈ keys, x.Apart k := by
  induction keys generalizing e with
  | nil => simp [appendAll]
  | cons k keys ih =>
    obtain ⟨hap, -⟩ := pairwise_cons.mp (h.pairwise he hs)
    have hrest := ih (he.append h.1.1 h.1.clears) h.2 (pairwise_cons.mp hs).2
    rw [appendAll, hrest, mem_append_of_accepts he h.1, mem_cons, List.forall_mem_cons]
    constructor
    · rintro (hx | ⟨rfl | ⟨hx, hxk⟩, hall⟩)
      · exact .inl (.inr hx)
      · exact .inl (.inl rfl)
      · exact .inr ⟨hx, hxk, hall⟩
    · rintro ((rfl | hx) | ⟨hx, hxk, hall⟩)
      · exact .inr ⟨.inl rfl, hap⟩
      · exact .inl hx
      · exact .inr ⟨.inr ⟨hx, hxk⟩, hall⟩

end

theorem sound_appendAll : Sound (appendAll e keys).1 := by
  induction keys generalizing e with
  | nil => exact he
  | cons k keys ih => exact ih (he.append h.1.1 h.1.clears) h.2

end

theorem mem_dropped_of_accepts (hk : e.Accepts k) :
    x ∈ (append e k).2 ↔ x ∈ e.items ∧ ¬ x.Apart k ∧ x.sameExtent k = false := by
  rw [mem_dropped hk.2.1]
  refine and_congr_right fun hx => and_congr_left fun _ => ?_
  have hpos := he.spans.pos x hx
  constructor
  · rintro hin (hap | hap)
    · omega
    · omega
  · intro hmeet
    obtain hap | ⟨hcov, -⟩ := hk.2.2 x hx
    · exact absurd hap hmeet
    · exact ⟨hcov.1, by omega⟩

variable (h : AllKeys Accepts e keys)
include h

variable (hs : keys.Pairwise fun a b => a.key < b.key)
include hs

theorem mem_dropped_appendAll (x : ExtentKey) :
    x ∈ (appendAll e keys).2 ↔ x ∈ e.items ∧ ∃ k ∈ keys, ¬ x.Apart k ∧ x.sameExtent k = false := by
  induction keys generalizing e with
  | nil => simp [appendAll]
  | cons k keys ih =>
    have htakes (hx : x ∈ e.items) := h.takes he hs hx
    obtain ⟨hap, -⟩ := pairwise_cons.mp (h.pairwise he hs)
    have hrest := ih (he.append h.1.1 h.1.clears) h.2 (pairwise_cons.mp hs).2
    rw [appendAll, List.mem_append, mem_dropped_of_accepts he h.1, hrest,
      mem_append_of_accepts he h.1]
    constructor
    · rintro (⟨hx, hmeet⟩ | ⟨rfl | ⟨hx, -⟩, k', hk', hmeet⟩)
      · exact ⟨hx, k, List.mem_cons_self .., hmeet⟩
      · exact absurd (hap k' hk') hmeet.1
      · exact ⟨hx, k', List.mem_cons_of_mem k hk', hmeet⟩
    · rintro ⟨hx, k', hk', hmeet⟩
      obtain rfl | hk' := mem_cons.mp hk'
      · exact .inl ⟨hx, hmeet⟩
      · refine .inr ⟨.inr ⟨hx, ?_⟩, k', hk', hmeet⟩
        -- what `k` covers is apart from the other keys
        obtain hxk | ⟨hcov, -⟩ := htakes hx k (List.mem_cons_self ..)
        · exact hxk
        · refine absurd ?_ hmeet.1
          obtain hle | hle := hap k' hk'
          · exact .inl (Nat.le_trans hcov.2 hle)
          · exact .inr (Nat.le_trans hle hcov.1)

theorem nodup_dropped_appendAll : (appendAll e keys).2.Nodup := by
  induction keys generalizing e with
  | nil => exact .nil
  | cons k keys ih =>
    have hsound := he.append h.1.1 h.1.clears
    have hs' := (pairwise_cons.mp hs).2
    refine List.Nodup.append ?_ (ih hsound h.2 hs') ?_
    · exact (nodup_items e).filter _ |>.filter _
    · intro x hx hrest
      obtain ⟨-, hmeet, hext⟩ := (mem_dropped_of_accepts he h.1).mp hx
      obtain ⟨hmem, -⟩ := (mem_dropped_appendAll hsound h.2 hs' x).mp hrest
      obtain rfl | ⟨-, hap⟩ := (mem_append_of_accepts he h.1 x).mp hmem
      · rw [ExtentKey.sameExtent_self] at hext
        cases hext
      · exact hmeet hap

end AppendAll

def gone (e : ExtentsTree) (x : ExtentKey) : Bool :=
  e.items.all fun y => !(y.key == x.key && y.extentOffset == x.extentOffset && y.sameExtent x)

variable {e : ExtentsTree}

theorem gone_iff : e.gone x = true ↔ ∀ y ∈ e.items, y.key = x.key →
    y.extentOffset = x.extentOffset → y.sameExtent x = false := by
  simp only [gone, List.all_eq_true, Bool.not_eq_true', Bool.and_eq_false_imp, Bool.and_eq_true,
    beq_iff_eq, and_imp]

theorem perm_dropped_appendAll (he : e.Sound) (h : AllKeys Accepts e keys)
    (hs : keys.Pairwise fun a b => a.key < b.key) :
    (appendAll e keys).2.Perm (e.items.filter (appendAll e keys).1.gone) := by
  have hsound := sound_appendAll he h
  have hmem := mem_appendAll he h hs
  refine (List.perm_ext_iff_of_nodup (nodup_dropped_appendAll he h hs)
    ((nodup_items e).filter _)).mpr fun x => ?_
  rw [mem_dropped_appendAll he h hs, List.mem_filter, gone_iff]
  refine and_congr_right fun hx => ?_
  constructor
  · rintro ⟨k, hk, hmeet, hext⟩ y hy hkey -
    obtain hap | ⟨hcov, -⟩ := h.takes he hs hx k hk
    · exact absurd hap hmeet
    obtain hy' | ⟨hy', hall⟩ := (hmem y).mp hy
    · -- both new keys hold the byte where `x` begins
      have hxpos := he.spans.pos x hx
      have hypos := hsound.spans.pos y hy
      have heq : y = k := hsound.spans.eq_of_start (o := x.key) hy ((hmem k).mpr (.inl hk))
        (by omega) (by omega)
      rw [heq, ExtentKey.sameExtent_comm]
      exact hext
    · rw [eq_of_mem_of_key hy' hx hkey] at hall
      exact absurd (hall k hk) hmeet
  · intro hgone
    by_contra hnone
    have hmeets : ¬ ∀ k ∈ keys, x.Apart k := by
      intro hall
      have hself := hgone x ((hmem x).mpr (.inr ⟨hx, hall⟩)) rfl rfl
      rw [ExtentKey.sameExtent_self] at hself
      cases hself
    obtain ⟨k, hk⟩ := not_forall.mp hmeets
    obtain ⟨hk, hmeet⟩ := Classical.not_imp.mp hk
    obtain hap | ⟨-, ⟨hkey, hoff⟩ | hext⟩ := h.takes he hs hx k hk
    · exact hmeet hap
    · have hext := hgone k ((hmem k).mpr (.inl hk)) hkey.symm hoff.symm
      rw [ExtentKey.sameExtent_comm] at hext
      exact hnone ⟨k, hk, hmeet, hext⟩
    · exact hnone ⟨k, hk, hmeet, hext⟩

theorem dropped_truncate (he : e.Sound) (length : UInt64) :
    e.ascendGreaterOrEqual (some length.toNat) = e.items.filter (truncate e length).gone := by
  refine List.filter_congr fun x hx => ?_
  rw [Bool.eq_iff_iff, decide_eq_true_eq, gone_iff]
  constructor
  · intro hle y hy hkey
    obtain ⟨k, -, hlt, rfl⟩ := (mem_truncate he length y).mp hy
    rw [ExtentKey.key_cut] at hkey
    omega
  · intro hgone
    by_contra hlt
    have hcut := hgone (x.cut length)
      ((mem_truncate he length _).mpr ⟨x, hx, Nat.lt_of_not_le hlt, rfl⟩) (x.key_cut length)
      (by unfold ExtentKey.cut; split <;> rfl)
    rw [ExtentKey.sameExtent_cut, ExtentKey.sameExtent_self] at hcut
    cases hcut

end ExtentsTree

/-- The file is what the changes, newest first, make of one of `length₀` bytes without extents. -/
structure InodeOf.Refines (length₀ : Nat) (ops : List ExtentOp) (i : Inode) : Prop where
  sound : ExtentsTree.Sound i.extents
  bytes : ∀ o, ExtentsTree.byteAt i.extents o = ExtentOp.lastWrite ops o
  size : i.size.toNat = max (ExtentOp.lastLength length₀ ops) (ExtentsTree.maxEnd i.extents)

namespace InodeOf.Refines

variable {length₀ : Nat} {ops : List ExtentOp}

theorem appendStep {acc : Inode × List ExtentKey} (h : acc.1.Refines length₀ ops)
    (hk : ExtentsTree.Accepts acc.1.extents k) :
    (InodeOf.appendStep acc k).1.Refines length₀ (.put k :: ops) := by
  have hsound := h.sound.append hk.1 hk.clears
  refine ⟨hsound, fun o => ?_, ?_⟩
  · refine (ExtentsTree.byteAt_append h.sound hk o).trans ?_
    unfold ExtentOp.lastWrite
    rw [h.bytes]
  · rw [toNat_size_appendStep hsound, h.size]
    have hle : ExtentsTree.maxEnd acc.1.extents ≤
      ExtentsTree.maxEnd (InodeOf.appendStep acc k).1.extents :=
        ExtentsTree.maxEnd_le_append h.sound hk
    have hlen : ExtentOp.lastLength length₀ (.put k :: ops) = ExtentOp.lastLength length₀ ops := rfl
    omega

variable {i : Inode} (h : i.Refines length₀ ops)
include h

theorem appendKeys (ct : Int64) (hk : ExtentsTree.AllKeys ExtentsTree.Accepts i.extents keys) :
    (i.appendKeys keys ct).1.Refines length₀ ((keys.map .put).reverse ++ ops) := by
  have hfold (keys : List ExtentKey) (ops : List ExtentOp) (acc : Inode × List ExtentKey)
      (h : acc.1.Refines length₀ ops)
      (hk : ExtentsTree.AllKeys ExtentsTree.Accepts acc.1.extents keys) :
      (keys.foldl InodeOf.appendStep acc).1.Refines length₀ ((keys.map .put).reverse ++ ops) := by
    induction keys generalizing ops acc with
    | nil => exact h
    | cons k keys ih =>
      rw [List.map_cons, List.reverse_cons, List.append_assoc]
      exact ih (.put k :: ops) _ (h.appendStep hk.1) hk.2
  have hall := hfold keys ops (i, []) h hk
  exact { hall with }

theorem truncateKeys (length : UInt64) (ct : Int64) :
    (i.truncateKeys length ct).1.Refines length₀ (.cut length :: ops) := by
  obtain ⟨hsound, hle⟩ := h.sound.truncate length
  refine ⟨hsound, fun o => ?_, ?_⟩
  · refine (ExtentsTree.byteAt_truncate h.sound length o).trans ?_
    unfold ExtentOp.lastWrite
    rw [h.bytes]
  · exact (Nat.max_eq_left (ExtentsTree.maxEnd_le hle)).symm

end InodeOf.Refines

theorem InodeOf.appendKeys_eq (i : Inode) (keys : List ExtentKey) (ct : Int64) :
    (i.appendKeys keys ct).1.extents = (ExtentsTree.appendAll i.extents keys).1 ∧
      (i.appendKeys keys ct).2 = (ExtentsTree.appendAll i.extents keys).2 := by
  have hfold (keys : List ExtentKey) (acc : Inode × List ExtentKey) :
      (keys.foldl appendStep acc).1.extents = (ExtentsTree.appendAll acc.1.extents keys).1 ∧
        (keys.foldl appendStep acc).2 = acc.2 ++ (ExtentsTree.appendAll acc.1.extents keys).2 := by
    induction keys generalizing acc with
    | nil => exact ⟨rfl, (List.append_nil _).symm⟩
    | cons k keys ih =>
      obtain ⟨hext, hdrop⟩ := ih (appendStep acc k)
      exact ⟨hext, hdrop.trans (List.append_assoc ..)⟩
  exact hfold keys (i, [])

theorem ExtentEvent.perm_run (hi : ExtentsTree.Sound i.extents) (e : ExtentEvent)
    (he : ∀ keys ct, e = .append keys ct →
      ExtentsTree.AllKeys ExtentsTree.Accepts i.extents keys.items) :
    (e.run i).2.Perm (i.extents.items.filter (ExtentsTree.gone (e.run i).1.extents)) := by
  cases e with
  | append keys ct =>
    obtain ⟨hext, hdrop⟩ := i.appendKeys_eq keys.items ct
    unfold run
    rw [hext, hdrop]
    exact ExtentsTree.perm_dropped_appendAll hi (he keys ct rfl) keys.sorted
  | truncate length ct => exact .of_eq (ExtentsTree.dropped_truncate hi length)

namespace MetaPartition

theorem FileAt.sent {mp : MetaPartition} {ino : UInt64} (h : mp.FileAt ino i) (e : ExtentEvent) :
    ∃ refs, (mp.apply (e.command ino)).extDelCh = mp.extDelCh ++ refs ∧
      refs.map (mp.apply (e.command ino)).exts.obj = (e.run i).2 := by
  have hfound := h.found
  rw [inode?_value] at hfound
  obtain ⟨c, hc, rfl⟩ := Option.map_eq_some_iff.mp hfound
  have hheld : c.Held mp.exts := h.owns.held _ c hc
  have hlive : c.shouldDelete = false := h.live
  have hfile : isDir c.type = false := h.file
  cases e with
  | append keys ct =>
    have hall := mp.exts.allocated_allocAll keys.items
    have hold : storeInode (mp.exts.allocAll keys.items).1 c = storeInode mp.exts c :=
      storeInode_congr fun r hr => hall.old _ (hheld r hr).1
    have hdrop := (storeInode_appendExtents ct (fun r hr => (hall.fresh r hr).2)
      fun r hr => hall.keeps.holds (hheld r hr)).2
    rw [hall.values, hold] at hdrop
    dsimp only [ExtentEvent.command, apply, fsmAppendExtents, InodeOf.new]
    rw [hc]
    dsimp only
    rw [hlive]
    refine ⟨_, rfl, ?_⟩
    rw [List.map_map]
    exact hdrop
  | truncate length ct =>
    obtain ⟨-, hdrop⟩ := storeInode_extentsTruncate hheld length ct
    dsimp only [ExtentEvent.command, apply, fsmExtentsTruncate, InodeOf.new]
    rw [hc]
    dsimp only
    rw [hlive, hfile]
    refine ⟨_, rfl, ?_⟩
    rw [List.map_map]
    refine Eq.trans (List.map_congr_left fun r hr => ?_) hdrop
    -- the key that is cut is one of those that stay
    refine ExtentHeap.obj_cutLast fun x hx heq => ?_
    have hx' := OrdTree.mem_of_max? hx
    have hitems := OrdTree.items_erase_from c.extents length.toNat
    dsimp only [InodeOf.extentsTruncate] at hx'
    rw [hitems, List.mem_filter, decide_eq_true_eq] at hx'
    obtain ⟨hr, hle⟩ := List.mem_filter.mp hr
    rw [ExtentRefs.eq_of_ref hheld hx'.1 hr heq] at hx'
    exact absurd (of_decide_eq_true hle) (Nat.not_le_of_lt hx'.2)

end MetaPartition

structure TracedFile where
  mp : MetaPartition
  ops : List ExtentOp

namespace TracedFile

def step (ino : UInt64) (s : TracedFile) (e : ExtentEvent) : Option TracedFile :=
  some ⟨s.mp.apply (e.command ino), e.ops ++ s.ops⟩

def Accepted (ino : UInt64) (s : TracedFile) (e : ExtentEvent) : Prop :=
  s.mp.Appends ExtentsTree.Accepts ino e

instance (ino : UInt64) (s : TracedFile) (e : ExtentEvent) : Decidable (s.Accepted ino e) :=
  inferInstanceAs (Decidable (s.mp.Appends _ ino e))

variable {ino : UInt64} {mp : MetaPartition} {i₀ : Inode} {s : TracedFile}

theorem refines_of_reach (h : mp.FileAt ino i₀) (hempty : i₀.extents = empty)
    (hr : Reach (step ino) (Accepted ino) ⟨mp, []⟩ s) :
    ∃ i, s.mp.FileAt ino i ∧ i.Refines i₀.size.toNat s.ops := by
  refine hr.invariant (P := fun s => ∃ i, s.mp.FileAt ino i ∧ i.Refines i₀.size.toNat s.ops) ?_ ?_
  · refine ⟨i₀, h, ?_, fun o => ?_, ?_⟩
    · rw [hempty]
      exact ExtentsTree.sound_empty
    · rw [hempty]
      rfl
    · rw [hempty]
      exact (Nat.max_zero _).symm
  · rintro s e _ ⟨i, hat, hi⟩ ha hs
    obtain rfl := Option.some.inj hs
    refine ⟨_, hat.step e, ?_⟩
    cases e with
    | append keys ct => exact hi.appendKeys ct (hat.allKeys ha)
    | truncate length ct => exact hi.truncateKeys length ct

/-- Along every run the extents are a map of the bytes of the file to where they were last
written, and its size is the farthest of the last truncation and of their ends. What the next
change sends to be deleted are the keys whose place, in the file and in their extent, no key of this
extent has afterwards. -/
theorem extents_refine_bytes (h : mp.FileAt ino i₀) (hempty : i₀.extents = empty)
    (hr : Reach (step ino) (Accepted ino) ⟨mp, []⟩ s) :
    ∃ i, s.mp.value.inode? ino = some i ∧
      (∀ a ∈ i.extents.items, ∀ b ∈ i.extents.items, a ≠ b → a.Apart b) ∧
      (∀ o, ExtentsTree.byteAt i.extents o = ExtentOp.lastWrite s.ops o) ∧
      i.size.toNat = max (ExtentOp.lastLength i₀.size.toNat s.ops)
        (ExtentsTree.maxEnd i.extents) ∧
      ∀ e, s.Accepted ino e → ∃ i' refs, (s.mp.apply (e.command ino)).value.inode? ino = some i' ∧
        (∀ length ct, e = .truncate length ct → i'.size = length) ∧
        (s.mp.apply (e.command ino)).extDelCh = s.mp.extDelCh ++ refs ∧
        (refs.map (s.mp.apply (e.command ino)).exts.obj).Perm
          (i.extents.items.filter (ExtentsTree.gone i'.extents)) := by
  obtain ⟨i, hat, hi⟩ := refines_of_reach h hempty hr
  refine ⟨i, hat.found, hi.sound.apart, hi.bytes, hi.size, fun e he => ?_⟩
  obtain ⟨refs, hch, hsent⟩ := hat.sent e
  refine ⟨_, refs, (hat.step e).found, ?_, hch, ?_⟩
  · rintro length ct rfl
    rfl
  · rw [hsent]
    refine e.perm_run hi.sound ?_
    rintro keys ct rfl
    exact hat.allKeys he

open MetaPartition (newFile5 fileAt_newFile5 appendOne)

def growCutCover : List ExtentEvent :=
  [appendOne 0 1 100, appendOne 0 1 120, .truncate 50 0, appendOne 0 2 60]

theorem extents_refine_bytes_growCutCover : ∃ s : TracedFile,
    Reach (step 5) (Accepted 5) ⟨newFile5, []⟩ s ∧ ExtentOp.lastWrite s.ops 10 = some ⟨1, 2, 10⟩ ∧
      ∃ i, s.mp.value.inode? 5 = some i ∧
        ∀ o, ExtentsTree.byteAt i.extents o = ExtentOp.lastWrite s.ops o := by
  refine ⟨_, .of_checked growCutCover rfl .start, ?_, ?_⟩
  · rfl
  · obtain ⟨i, hi, -, hbytes, -⟩ := extents_refine_bytes fileAt_newFile5 rfl
      (.of_checked growCutCover rfl .start)
    exact ⟨i, hi, hbytes⟩

def Covering (ino : UInt64) (s : TracedFile) (e : ExtentEvent) : Prop :=
  s.mp.Appends (fun e k => 0 < k.size ∧
    ∀ d ∈ e.items, d.Apart k ∨ k.key ≤ d.key ∧ d.stop ≤ k.stop) ino e

instance (ino : UInt64) (s : TracedFile) (e : ExtentEvent) : Decidable (s.Covering ino e) :=
  inferInstanceAs (Decidable (s.mp.Appends _ ino e))

/-- A key that covers another one of its own extent leaves it in the tree, and so does one that ends
past what 64 bits can say; one that grows is not sent to be deleted as it was; and a truncation may
have made the file longer than its keys. -/
theorem covering_keys_diverge : (∃ s : TracedFile, Reach (step 5) (Covering 5) ⟨newFile5, []⟩ s ∧
      (s.mp.extentsAt 5).items = [⟨0, 1, 1, 0, 200, 0⟩, ⟨100, 1, 1, 0, 50, 0⟩]) ∧
    (∃ s : TracedFile, Reach (step 5) (Covering 5) ⟨newFile5, []⟩ s ∧ (s.mp.extentsAt 5).items =
        [⟨18446744073709551606, 1, 2, 0, 20, 0⟩, ⟨18446744073709551611, 1, 1, 0, 3, 0⟩]) ∧
    (∃ s : TracedFile, Reach (step 5) (Covering 5) ⟨newFile5, []⟩ s ∧
      (s.mp.extentsAt 5).items = [⟨0, 1, 1, 0, 10, 0⟩] ∧
      Covering 5 s (appendOne 0 1 20) ∧
      ((s.mp.apply ((appendOne 0 1 20).command 5)).extentsAt 5).items = [⟨0, 1, 1, 0, 20, 0⟩] ∧
      (s.mp.apply ((appendOne 0 1 20).command 5)).extDelCh = s.mp.extDelCh) ∧
    ∃ s : TracedFile, Reach (step 5) (Covering 5) ⟨newFile5, []⟩ s ∧
      (s.mp.extentsAt 5).items = [⟨0, 1, 1, 0, 10, 0⟩] ∧
      (s.mp.value.inode? 5).map size = some 100 := by
  refine ⟨⟨_, .of_checked [appendOne 100 1 50, appendOne 0 1 200] rfl .start, ?_⟩,
    ⟨_, .of_checked [appendOne 18446744073709551611 1 3, appendOne 18446744073709551606 2 20] rfl
      .start, ?_⟩,
    ⟨_, .of_checked [appendOne 0 1 10] rfl .start, ?_⟩,
    ⟨_, .of_checked [.truncate 100 0, appendOne 0 1 10] rfl .start, ?_⟩⟩
  · rfl
  · rfl
  · exact ⟨rfl, by decide, rfl, rfl⟩
  · exact ⟨rfl, rfl⟩

end TracedFile
end ChubaoFS
