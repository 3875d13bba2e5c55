import ChubaoFS.ClientBytes

namespace ChubaoFS

open OrdTree ExtentKey
open List.Subset (refl)
open ExtentCache (size_append root_append update)

/-! Several clients of one inode. A client takes the keys that the meta node answers to a refresh
unless its own generation is at least theirs, and counts that generation on with every change of
its own. -/

/-- What the meta node answers to a refresh; `alone` as long as its client does nothing else. -/
structure ExtentsReply where
  gen : UInt64
  size : UInt64
  extents : List ExtentKey
  alone : Bool
  deriving DecidableEq

/-- A client: its cache, the ranges that its handlers have written and not appended yet, the change
that it has asked the meta node for, and the answers on their way to a refresh. -/
structure CacheClient where
  extents : ExtentCache
  unsynced : List (Nat × Nat)
  appending : Option ExtentKey
  truncating : Option UInt64
  replies : List ExtentsReply
  deriving DecidableEq

structure SharedInode where
  inode : Inode
  clients : Nat → CacheClient

inductive CacheEvent
  | write (c : Nat) (ek : ExtentKey)
  | appendExtentKey (c : Nat) (ek : ExtentKey) (dirty : Bool)
  | appended (c : Nat)
  | appendFailed (c : Nat)
  | truncate (c : Nat) (size : UInt64)
  | truncated (c : Nat)
  | getExtents (c : Nat)
  | update (c : Nat) (i : Nat)
  deriving DecidableEq

def remaining (ek : ExtentKey) (ranges : List (Nat × Nat)) : List (Nat × Nat) :=
  (ranges.flatMap fun r => [(r.1, min r.2 ek.key), (max r.1 ek.stop, r.2)]).filter
    fun r => r.1 < r.2

namespace CacheClient

def idle (client : CacheClient) : Bool := client.appending.isNone && client.truncating.isNone

def Quiet (client : CacheClient) (r : ExtentsReply) : Prop :=
  client.unsynced = [] ∧ client.appending = none ∧ client.truncating = none ∧ r.alone = true

instance decidableQuiet (client : CacheClient) (r : ExtentsReply) : Decidable (client.Quiet r) :=
  inferInstanceAs (Decidable (_ ∧ _))

def overtaken (replies : List ExtentsReply) : List ExtentsReply :=
  replies.map fun r => { r with alone := false }

def act (client : CacheClient) (extents : ExtentCache) (unsynced : List (Nat × Nat))
    (appending : Option ExtentKey) (truncating : Option UInt64) : CacheClient :=
  ⟨extents, unsynced, appending, truncating, overtaken client.replies⟩

def write (client : CacheClient) (ek : ExtentKey) : CacheClient :=
  client.act (client.extents.append ek false) ((ek.key, ek.stop) :: client.unsynced) none none

def appendExtentKey (client : CacheClient) (ek : ExtentKey) (dirty : Bool) : CacheClient :=
  if dirty then client.act (client.extents.append ek true)
    ((ek.key, ek.stop) :: client.unsynced) (some ek) none
  else client.act (client.extents.append ek false) client.unsynced none none

def truncated (client : CacheClient) (size : UInt64) : CacheClient :=
  client.act (if client.extents.size ≤ size.toNat then client.extents.setSize size.toNat true
    else client.extents) client.unsynced none none

def getExtents (client : CacheClient) (inode : Inode) : CacheClient :=
  { client with replies := overtaken client.replies ++
      [⟨inode.generation, inode.size, inode.extents.items, true⟩] }

def update (client : CacheClient) (i : Nat) (r : ExtentsReply) : CacheClient :=
  { client with
    extents := client.extents.update r.gen r.size.toNat r.extents
    replies := overtaken (client.replies.eraseIdx i) }

end CacheClient

namespace SharedInode

def set (s : SharedInode) (c : Nat) (inode : Inode) (client : CacheClient) : SharedInode :=
  ⟨inode, fun d => if d = c then client else s.clients d⟩

def step (s : SharedInode) : CacheEvent → Option SharedInode
  | .write c ek =>
    if (s.clients c).idle then some (s.set c s.inode ((s.clients c).write ek)) else none
  | .appendExtentKey c ek dirty =>
    if (s.clients c).idle then some (s.set c s.inode ((s.clients c).appendExtentKey ek dirty))
    else none
  | .appended c =>
    (s.clients c).appending.map fun ek =>
      s.set c (s.inode.appendKeys [ek] 0).1 ((s.clients c).act (s.clients c).extents
        (remaining ek (s.clients c).unsynced) none none)
  | .appendFailed c =>
    (s.clients c).appending.map fun _ =>
      s.set c s.inode ((s.clients c).act (s.clients c).extents (s.clients c).unsynced none none)
  | .truncate c size =>
    -- everything is flushed first
    if (s.clients c).idle ∧ (s.clients c).unsynced = [] then
      some (s.set c (s.inode.truncateKeys size 0).1
        ((s.clients c).act (s.clients c).extents [] none (some size)))
    else none
  | .truncated c =>
    (s.clients c).truncating.map fun size => s.set c s.inode ((s.clients c).truncated size)
  | .getExtents c => some (s.set c s.inode ((s.clients c).getExtents s.inode))
  | .update c i =>
    ((s.clients c).replies[i]?).map fun r => s.set c s.inode ((s.clients c).update i r)

end SharedInode

/-! ### What is not appended yet -/

variable {ek : ExtentKey} {ranges : List (Nat × Nat)}

theorem mem_remaining {r : Nat × Nat} (hr : r ∈ ranges) {a b : Nat}
    (h : (a, b) = (r.1, min r.2 ek.key) ∨ (a, b) = (max r.1 ek.stop, r.2)) (hlt : a < b) :
    (a, b) ∈ remaining ek ranges := by
  refine List.mem_filter.mpr ⟨List.mem_flatMap.mpr ⟨r, hr, ?_⟩, decide_eq_true hlt⟩
  rw [List.mem_cons, List.mem_singleton]
  exact h

def Outside (ranges : List (Nat × Nat)) (o : Nat) : Prop := ∀ r ∈ ranges, ¬ (r.1 ≤ o ∧ o < r.2)

theorem outside_of_remaining {o : Nat} (h : Outside (remaining ek ranges) o)
    (ho : ¬ (ek.key ≤ o ∧ o < ek.stop)) : Outside ranges o := by
  rintro r hr ⟨hfrom, hto⟩
  by_cases hlt : o < ek.key
  · exact h _ (mem_remaining hr (.inl rfl) (by omega)) ⟨hfrom, by dsimp only; omega⟩
  · exact h _ (mem_remaining hr (.inr rfl) (by omega)) ⟨by dsimp only; omega, hto⟩

/-! ### The keys of an inode -/

structure InodeOf.Filled (i : Inode) : Prop where
  pos : ∀ k ∈ i.extents.items, k.key < k.stop
  small : ∀ k ∈ i.extents.items, k.stop < 2 ^ 64
  last : ∀ m, i.extents.max? = some m → m.stop ≤ i.size.toNat

namespace InodeOf.Filled

variable {i : Inode} {k : ExtentKey}

theorem key_lt (h : Filled i) (hk : k ∈ i.extents.items) : k.key < i.size.toNat := by
  obtain ⟨m, hm⟩ := exists_max? hk
  have := key_le_of_max? hm hk
  have := h.pos m (mem_of_max? hm)
  have := h.last m hm
  omega

variable {e : ExtentsTree} {m : ExtentKey}

theorem max_lay (hm : (e.lay stop k).max? = some m) : m = k ∨ e.max? = some m ∧ k.stop ≤ m.key := by
  obtain rfl | ⟨hme, hne, hout⟩ := mem_lay.mp (mem_of_max? hm)
  · exact .inl rfl
  have hkm : k.key ≤ m.key := key_le_of_max? hm (mem_lay.mpr (.inl rfl))
  have hbehind : k.stop ≤ m.key := Nat.le_of_not_lt fun hlt => hout ⟨hkm, hlt⟩
  obtain ⟨l, hl⟩ := exists_max? hme
  have hml := key_le_of_max? hl hme
  have hlk : l.key ≠ k.key := fun heq => hne (Nat.le_antisymm (by omega) hkm)
  have hlmem : l ∈ (e.lay stop k).items :=
    mem_lay.mpr (.inr ⟨mem_of_max? hl, hlk, fun hin => by omega⟩)
  have hlm := key_le_of_max? hm hlmem
  rw [eq_of_mem_of_key hme (mem_of_max? hl) (Nat.le_antisymm hml hlm)]
  exact .inr ⟨hl, by omega⟩

theorem appendKeys_spec (h : Filled i) (ct : Int64) (hsmall : k.stop < 2 ^ 64)
    (hpos : k.key < k.stop)
    (hext : ∀ d ∈ i.extents.items, k.key < d.key → d.key < k.stop → d.sameExtent k = false) :
    (i.appendKeys [k] ct).1.extents = i.extents.lay stop k ∧
      (i.appendKeys [k] ct).1.size.toNat = max i.size.toNat k.stop := by
  have hroot : (i.appendKeys [k] ct).1.extents = i.extents.lay stop k :=
    ExtentsTree.append_eq_lay hsmall hext
  refine ⟨hroot, ?_⟩
  obtain ⟨m, hm⟩ := exists_max?
    (mem_lay.mpr (.inl rfl) : k ∈ (i.extents.lay stop k).items)
  have hsize : (i.appendKeys [k] ct).1.size =
      if i.size < m.fileEnd then m.fileEnd else i.size := by
    have hend : ExtentsTree.size (ExtentsTree.append i.extents k).1 = m.fileEnd := by
      rw [show (ExtentsTree.append i.extents k).1 = _ from hroot]
      unfold ExtentsTree.size
      rw [hm]
    rw [← hend]
    rfl
  rw [hsize]
  obtain rfl | ⟨hmax, hbehind⟩ := max_lay hm
  · split
    all_goals
      next hlt =>
        rw [UInt64.lt_iff_toNat_lt, toNat_fileEnd hsmall] at hlt
        first | rw [toNat_fileEnd hsmall] | skip
        omega
  · have hmem := mem_of_max? hmax
    have hlast := h.last m hmax
    have hmpos := h.pos m hmem
    rw [if_neg]
    · omega
    · rw [UInt64.lt_iff_toNat_lt, toNat_fileEnd (h.small m hmem)]
      omega

variable {ct : Int64}

theorem appendKeys (h : Filled i) (hsmall : k.stop < 2 ^ 64) (hpos : k.key < k.stop)
    (hext : ∀ d ∈ i.extents.items, k.key < d.key → d.key < k.stop → d.sameExtent k = false) :
    Filled (i.appendKeys [k] ct).1 := by
  obtain ⟨hroot, hsize⟩ := h.appendKeys_spec ct hsmall hpos hext
  refine ⟨?_, ?_, ?_⟩
  all_goals rw [hroot]
  · intro x hx
    obtain rfl | hx := mem_lay.mp hx
    · exact hpos
    · exact h.pos x hx.1
  · intro x hx
    obtain rfl | hx := mem_lay.mp hx
    · exact hsmall
    · exact h.small x hx.1
  · intro m hm
    rw [hsize]
    obtain rfl | ⟨hmax, -⟩ := max_lay hm
    · exact Nat.le_max_right ..
    · exact Nat.le_trans (h.last m hmax) (Nat.le_max_left ..)

variable {n : UInt64}

theorem max_cutLast (hm : (ExtentsTree.cutLast e n).max? = some m) :
    ∃ l, e.max? = some l ∧ m = l.cut n := by
  unfold ExtentsTree.cutLast at hm
  cases hl : e.max? with
  | none => rw [hl] at hm; exact nomatch hl.symm.trans hm
  | some l =>
    refine ⟨l, rfl, ?_⟩
    rw [hl] at hm
    dsimp only at hm
    split at hm
    next hend =>
      have hlm := key_le_of_max? hm (mem_insert.mpr (.inl rfl))
      obtain rfl | ⟨hme, hne⟩ := mem_insert.mp (mem_of_max? hm)
      · exact (if_pos hend).symm
      · exact absurd (Nat.le_antisymm (key_le_of_max? hl hme) hlm) hne
    next hend => exact (Option.some.inj (hm.symm.trans hl)).trans (if_neg hend).symm

theorem mem_cutLast {x : ExtentKey} (hx : x ∈ (ExtentsTree.cutLast e n).items) :
    ∃ k ∈ e.items, x = k ∨ x = k.cut n := by
  unfold ExtentsTree.cutLast at hx
  cases hl : e.max? with
  | none => rw [hl] at hx; exact ⟨x, hx, .inl rfl⟩
  | some l =>
    rw [hl] at hx
    dsimp only at hx
    split at hx
    next hend =>
      obtain rfl | ⟨hxe, -⟩ := mem_insert.mp hx
      · exact ⟨l, mem_of_max? hl, .inr (if_pos hend).symm⟩
      · exact ⟨x, hxe, .inl rfl⟩
    · exact ⟨x, hx, .inl rfl⟩

theorem truncateKeys (h : Filled i) (n : UInt64) : Filled (i.truncateKeys n ct).1 := by
  obtain ⟨e, he⟩ : ∃ e, e = (i.extents.ascendGreaterOrEqual (some n.toNat)).foldl
    (fun e d => e.erase d.key) i.extents := ⟨_, rfl⟩
  have hroot : (i.truncateKeys n ct).1.extents = ExtentsTree.cutLast e n := by rw [he]; rfl
  have hmem : ∀ k ∈ e.items, k ∈ i.extents.items ∧ k.key < n.toNat := by
    intro k hk
    rw [he, items_erase_from, List.mem_filter] at hk
    exact ⟨hk.1, of_decide_eq_true hk.2⟩
  have hcut : ∀ k ∈ e.items, (k.cut n).stop = min k.stop n.toNat := fun k hk =>
    stop_cut (h.small k (hmem k hk).1) (hmem k hk).2
  refine ⟨?_, ?_, ?_⟩
  all_goals rw [hroot]
  · intro x hx
    obtain ⟨k, hk, rfl | rfl⟩ := mem_cutLast hx
    · exact h.pos x (hmem x hk).1
    · rw [hcut k hk, key_cut]
      exact Nat.lt_min.mpr ⟨h.pos k (hmem k hk).1, (hmem k hk).2⟩
  · intro x hx
    obtain ⟨k, hk, rfl | rfl⟩ := mem_cutLast hx
    · exact h.small x (hmem x hk).1
    · rw [hcut k hk]
      exact Nat.lt_of_le_of_lt (Nat.min_le_left ..) (h.small k (hmem k hk).1)
  · intro m hm
    obtain ⟨l, hl, rfl⟩ := max_cutLast hm
    rw [hcut l (mem_of_max? hl)]
    exact Nat.min_le_right ..

theorem extents_truncateKeys (h : Filled i) (hle : i.size.toNat ≤ n.toNat) :
    (i.truncateKeys n ct).1.extents = i.extents := by
  have hnone : i.extents.ascendGreaterOrEqual (some n.toNat) = [] := by
    refine List.filter_eq_nil_iff.mpr fun k hk => ?_
    have := h.key_lt hk
    simp
    omega
  unfold InodeOf.truncateKeys
  dsimp only
  rw [hnone, List.foldl_nil]
  unfold ExtentsTree.cutLast
  split
  · rfl
  rename_i m hm
  refine if_neg ?_
  have := h.last m hm
  rw [gt_iff_lt, UInt64.lt_iff_toNat_lt, toNat_fileEnd (h.small m (mem_of_max? hm))]
  omega

end InodeOf.Filled

/-! ### A cache that is level with the inode -/

structure Synced (cache : ExtentCache) (e : ExtentsTree) (size : Nat)
    (unsynced : List (Nat × Nat)) : Prop where
  keys : ∀ o, Outside unsynced o → cache.root.get? o = e.get? o
  size_le : size ≤ cache.size
  size_eq : cache.size = size ∨ ∃ r ∈ unsynced, r.1 < r.2 ∧ cache.size = r.2

namespace Synced

variable {cache : ExtentCache} {e : ExtentsTree} {size : Nat} {unsynced : List (Nat × Nat)}

section

variable (h : Synced cache e size unsynced)
include h

theorem write (hsmall : ek.stop < 2 ^ 64) (hpos : ek.key < ek.stop) (sync : Bool) :
    Synced (cache.append ek sync) e size ((ek.key, ek.stop) :: unsynced) := by
  have hsize : (cache.append ek sync).size = max cache.size ek.stop := size_append hsmall
  refine ⟨fun o ho => ?_, ?_, ?_⟩
  · obtain ⟨hout, ho⟩ := List.forall_mem_cons.mp ho
    have hne : o ≠ ek.key := fun heq => hout (by dsimp only; omega)
    rw [root_append hsmall, get?_lay, laid, if_neg hne, if_neg hout]
    exact h.keys o ho
  · rw [hsize]
    exact Nat.le_trans h.size_le (Nat.le_max_left ..)
  · rw [hsize]
    by_cases hle : cache.size ≤ ek.stop
    · rw [Nat.max_eq_right hle]
      exact .inr ⟨_, List.mem_cons_self .., hpos, rfl⟩
    rw [Nat.max_eq_left (Nat.le_of_not_le hle)]
    obtain heq | ⟨r, hr, hrest⟩ := h.size_eq
    · exact .inl heq
    · exact .inr ⟨r, List.mem_cons_of_mem _ hr, hrest⟩

theorem append (hsmall : ek.stop < 2 ^ 64) (sync : Bool) :
    Synced (cache.append ek sync) (e.lay stop ek) (max size ek.stop)
      (remaining ek ((ek.key, ek.stop) :: unsynced)) := by
  have hsize : (cache.append ek sync).size = max cache.size ek.stop := size_append hsmall
  have hle := h.size_le
  refine ⟨fun o ho => ?_, by omega, ?_⟩
  · rw [root_append hsmall, get?_lay, get?_lay]
    unfold laid
    split
    · rfl
    split
    · rfl
    next hout =>
      exact h.keys o fun r hr => outside_of_remaining ho hout r (List.mem_cons_of_mem _ hr)
  · rw [hsize]
    obtain heq | ⟨r, hr, hlt, heq⟩ := h.size_eq
    · exact .inl (by omega)
    · by_cases hend : r.2 ≤ ek.stop
      · exact .inl (by omega)
      · refine .inr ⟨(max r.1 ek.stop, r.2), ?_, by dsimp only; omega, by dsimp only; omega⟩
        exact mem_remaining (List.mem_cons_of_mem _ hr) (.inr rfl) (by omega)

end

theorem refl (gen : UInt64) (e : ExtentsTree) (size : Nat) (unsynced : List (Nat × Nat)) :
    Synced ⟨gen, size, e⟩ e size unsynced := ⟨fun _ _ => rfl, Nat.le_refl _, .inl rfl⟩

theorem eq_of_nil (h : Synced cache e size []) : cache.root = e ∧ cache.size = size := by
  refine ⟨ext_get? fun o => h.keys o nofun, ?_⟩
  obtain heq | ⟨r, hr, -⟩ := h.size_eq
  · exact heq
  · cases hr

end Synced

def Level (cache : ExtentCache) (gen : Nat) (e : ExtentsTree) (size : Nat)
    (unsynced : List (Nat × Nat)) : Prop :=
  cache.gen.toNat ≤ gen ∧ (cache.gen.toNat = gen → Synced cache e size unsynced)

variable {cache : ExtentCache}

theorem level_of_lt {gen size : Nat} {e : ExtentsTree} {unsynced : List (Nat × Nat)}
    (h : cache.gen.toNat < gen) : Level cache gen e size unsynced :=
    ⟨Nat.le_of_lt h, fun heq => absurd heq (Nat.ne_of_lt h)⟩

namespace CacheClient

structure Even (i : Inode) (c : CacheClient) : Prop where
  idle : c.appending = none → c.truncating = none →
    Level c.extents i.generation.toNat i.extents i.size.toNat c.unsynced
  append : ∀ ek, c.appending = some ek → ek.key < ek.stop ∧ ek.stop < 2 ^ 64 ∧
    Level c.extents (i.generation.toNat + 1) (i.extents.lay ExtentKey.stop ek)
      (max i.size.toNat ek.stop) (remaining ek c.unsynced)
  truncate : ∀ n, c.truncating = some n → c.extents.gen.toNat < i.generation.toNat ∧
    (c.extents.gen.toNat + 1 = i.generation.toNat → c.extents.size ≤ n.toNat →
      Synced (c.extents.setSize n.toNat true) i.extents i.size.toNat c.unsynced)

def Known (i : Inode) (c : CacheClient) (r : ExtentsReply) : Prop :=
  ∃ e : ExtentsTree, r.extents = e.items ∧ r.gen.toNat ≤ i.generation.toNat ∧
    (r.gen.toNat = i.generation.toNat → e = i.extents ∧ r.size = i.size) ∧
    (r.alone = true → c.appending = none → c.truncating = none →
      Level c.extents r.gen.toNat e r.size.toNat c.unsynced)

variable {i i' : Inode} {c : CacheClient} {r : ExtentsReply}

theorem Even.later (h : Even i c) (hgen : i'.generation.toNat = i.generation.toNat + 1) :
    Even i' c where
  idle ha ht := by
    have := (h.idle ha ht).1
    exact level_of_lt (by omega)
  append ek hek := by
    obtain ⟨hpos, hsmall, hle, -⟩ := h.append ek hek
    exact ⟨hpos, hsmall, level_of_lt (by omega)⟩
  truncate n hn := by
    have := (h.truncate n hn).1
    exact ⟨by omega, fun heq => absurd heq (by omega)⟩

theorem Known.later (h : Known i c r) (hgen : i'.generation.toNat = i.generation.toNat + 1) :
    Known i' c r := by
  obtain ⟨e, he, hle, -, halone⟩ := h
  exact ⟨e, he, by omega, fun heq => absurd heq (by omega), halone⟩

theorem Known.overtaken (h : Known i c r) (c' : CacheClient) :
    Known i c' { r with alone := false } := by
  obtain ⟨e, he, hle, hsame, -⟩ := h
  exact ⟨e, he, hle, hsame, nofun⟩

theorem Even.of_idle (ha : c.appending = none) (ht : c.truncating = none)
    (h : Level c.extents i.generation.toNat i.extents i.size.toNat c.unsynced) : Even i c :=
  ⟨fun _ _ => h, fun _ hek => (nomatch ha.symm.trans hek), fun _ hn => (nomatch ht.symm.trans hn)⟩

end CacheClient

namespace SharedInode

def Held (cache : ExtentCache) (ek : ExtentKey) : Prop :=
  ek ∈ cache.root.items ∧ ek.stop ≤ cache.size ∧
    ∀ d ∈ cache.root.items, ek.key ≤ d.key → d.key < ek.stop → d = ek

instance decidableHeld (cache : ExtentCache) (ek : ExtentKey) : Decidable (Held cache ek) :=
  inferInstanceAs (Decidable (_ ∧ _))

def Permitted (s : SharedInode) (e : CacheEvent) : Prop :=
  s.inode.generation.toNat + 2 < 2 ^ 64 ∧
    match e with
    | .write _ ek | .appendExtentKey _ ek _ => ek.key < ek.stop ∧ ek.stop < 2 ^ 64
    | _ => True

/-- No append fails; a key put in the cache unsynced is there already; no key of the same extent
starts inside one that is appended; no client asks for an update while it truncates. -/
def Orderly (s : SharedInode) (e : CacheEvent) : Prop :=
  s.Permitted e ∧
    match e with
    | .appendFailed _ => False
    | .appendExtentKey c ek false => Held (s.clients c).extents ek
    | .appended c => ∀ ek ∈ (s.clients c).appending, ∀ d ∈ s.inode.extents.items,
        ek.key < d.key → d.key < ek.stop → d.sameExtent ek = false
    | .update c _ => (s.clients c).truncating = none
    | _ => True

instance decidablePermitted (s : SharedInode) (e : CacheEvent) : Decidable (s.Permitted e) := by
  unfold Permitted
  cases e <;> infer_instance

instance decidableOrderly (s : SharedInode) (e : CacheEvent) : Decidable (s.Orderly e) := by
  unfold Orderly
  cases e with
  | appendExtentKey c ek dirty => cases dirty <;> infer_instance
  | _ => infer_instance

structure Inv (s : SharedInode) : Prop where
  inode : s.inode.Filled
  even : ∀ c, (s.clients c).Even s.inode
  known : ∀ c, ∀ r ∈ (s.clients c).replies, (s.clients c).Known s.inode r

namespace Inv

variable {s : SharedInode} {c : Nat} {client : CacheClient}

theorem set (h : s.Inv) (heven : client.Even s.inode)
    (hknown : ∀ r ∈ client.replies, client.Known s.inode r) : (s.set c s.inode client).Inv where
  inode := h.inode
  even d := by
    unfold SharedInode.set
    dsimp only
    split
    · exact heven
    · exact h.even d
  known d := by
    unfold SharedInode.set
    dsimp only
    split
    · exact hknown
    · exact h.known d

theorem change (h : s.Inv) {i : Inode} (hi : i.Filled)
    (hgen : i.generation.toNat = s.inode.generation.toNat + 1) (heven : client.Even i)
    (hknown : ∀ r ∈ client.replies, client.Known i r) : (s.set c i client).Inv where
  inode := hi
  even d := by
    unfold SharedInode.set
    dsimp only
    split
    · exact heven
    · exact (h.even d).later hgen
  known d := by
    unfold SharedInode.set
    dsimp only
    split
    · exact hknown
    · exact fun r hr => (h.known d r hr).later hgen

theorem overtaken (h : s.Inv) {replies : List ExtentsReply}
    (hsub : replies ⊆ (s.clients c).replies) :
    ∀ r ∈ CacheClient.overtaken replies, client.Known s.inode r := by
  intro r hr
  obtain ⟨r₀, hr₀, rfl⟩ := List.mem_map.mp hr
  exact (h.known c r₀ (hsub hr₀)).overtaken client

theorem idle (h : s.Inv) (hidle : (s.clients c).idle = true) :
    (s.clients c).appending = none ∧ (s.clients c).truncating = none ∧
      Level (s.clients c).extents s.inode.generation.toNat s.inode.extents s.inode.size.toNat
        (s.clients c).unsynced := by
  obtain ⟨ha, ht⟩ := Bool.and_eq_true_iff.mp hidle
  have ha := Option.isNone_iff_eq_none.mp ha
  have ht := Option.isNone_iff_eq_none.mp ht
  exact ⟨ha, ht, (h.even c).idle ha ht⟩

theorem toNat_succ {n : UInt64} (h : n.toNat + 1 < 2 ^ 64) : (n + 1).toNat = n.toNat + 1 := by
  rw [UInt64.toNat_add]
  exact Nat.mod_eq_of_lt h

variable {ek : ExtentKey}

theorem write (h : s.Inv) (hidle : (s.clients c).idle = true) (hpos : ek.key < ek.stop)
    (hsmall : ek.stop < 2 ^ 64) : (s.set c s.inode ((s.clients c).write ek)).Inv := by
  obtain ⟨-, -, hle, hsync⟩ := h.idle hidle
  refine h.set (.of_idle rfl rfl ⟨hle, fun heq => ?_⟩) (h.overtaken (refl _))
  exact (hsync heq).write hsmall hpos false

theorem append_of_held (hsmall : ek.stop < 2 ^ 64) (h : Held cache ek) :
    cache.append ek false = cache := by
  obtain ⟨hmem, hsize, halone⟩ := h
  have hroot : cache.root.lay stop ek = cache.root := by
    refine ext_mem fun x => ?_
    rw [mem_lay]
    constructor
    · rintro (rfl | hx)
      · exact hmem
      · exact hx.1
    · intro hx
      by_cases heq : x = ek
      · exact .inl heq
      · refine .inr ⟨hx, fun hkey => heq (eq_of_mem_of_key hx hmem hkey), fun hin => ?_⟩
        exact heq (halone x hx hin.1 hin.2)
  have hroot' : (cache.append ek false).root = cache.root := (root_append hsmall).trans hroot
  have hsize' : (cache.append ek false).size = cache.size :=
    (size_append hsmall).trans (Nat.max_eq_left hsize)
  have hgen' : (cache.append ek false).gen = cache.gen := rfl
  cases hc : cache.append ek false
  rw [hc] at hroot' hsize' hgen'
  cases cache
  congr

section

variable (h : s.Inv)
include h

theorem again (hidle : (s.clients c).idle = true) (hsmall : ek.stop < 2 ^ 64)
    (hheld : Held (s.clients c).extents ek) :
    (s.set c s.inode ((s.clients c).appendExtentKey ek false)).Inv := by
  obtain ⟨-, -, hlevel⟩ := h.idle hidle
  refine h.set (.of_idle rfl rfl ?_) (h.overtaken (refl _))
  change Level ((s.clients c).extents.append ek false) _ _ _ _
  rw [append_of_held hsmall hheld]
  exact hlevel

theorem appendExtentKey (hidle : (s.clients c).idle = true) (hpos : ek.key < ek.stop)
    (hsmall : ek.stop < 2 ^ 64) (hgen : s.inode.generation.toNat + 2 < 2 ^ 64) :
    (s.set c s.inode ((s.clients c).appendExtentKey ek true)).Inv := by
  obtain ⟨-, -, hle, hsync⟩ := h.idle hidle
  refine h.set ⟨nofun, fun k hk => ?_, nofun⟩ (h.overtaken (refl _))
  cases hk
  have hnext : ((s.clients c).extents.append ek true).gen.toNat =
      (s.clients c).extents.gen.toNat + 1 := toNat_succ (by omega)
  refine ⟨hpos, hsmall, ?_, fun heq => ?_⟩
  · change ((s.clients c).extents.append ek true).gen.toNat ≤ _
    omega
  · change ((s.clients c).extents.append ek true).gen.toNat = _ at heq
    exact (hsync (by omega)).append hsmall true

theorem appended (hek : (s.clients c).appending = some ek)
    (hgen : s.inode.generation.toNat + 2 < 2 ^ 64)
    (hext : ∀ d ∈ s.inode.extents.items, ek.key < d.key → d.key < ek.stop →
      d.sameExtent ek = false) :
    (s.set c (s.inode.appendKeys [ek] 0).1 ((s.clients c).act (s.clients c).extents
      (remaining ek (s.clients c).unsynced) none none)).Inv := by
  obtain ⟨hpos, hsmall, hlevel⟩ := (h.even c).append ek hek
  have hnext : (s.inode.appendKeys [ek] 0).1.generation.toNat = s.inode.generation.toNat + 1 :=
    toNat_succ (n := s.inode.generation) (by omega)
  obtain ⟨hroot, hsize⟩ := h.inode.appendKeys_spec 0 hsmall hpos hext
  refine h.change (h.inode.appendKeys hsmall hpos hext) hnext (.of_idle rfl rfl ?_) ?_
  · rw [hnext, hroot, hsize]
    exact hlevel
  · exact fun r hr => (h.overtaken (refl _) r hr).later hnext

theorem truncate (hidle : (s.clients c).idle = true) (hnil : (s.clients c).unsynced = [])
    (size : UInt64) (hgen : s.inode.generation.toNat + 2 < 2 ^ 64) :
    (s.set c (s.inode.truncateKeys size 0).1
      ((s.clients c).act (s.clients c).extents [] none (some size))).Inv := by
  obtain ⟨-, -, hle, hsync⟩ := h.idle hidle
  have hnext : (s.inode.truncateKeys size 0).1.generation.toNat =
      s.inode.generation.toNat + 1 := toNat_succ (by omega)
  refine h.change (h.inode.truncateKeys size) hnext ⟨nofun, nofun, fun n hn => ?_⟩ ?_
  · cases hn
    rw [hnext]
    refine ⟨Nat.lt_succ_of_le hle, fun heq hsize => ?_⟩
    have hsync := hsync (Nat.succ.inj heq)
    rw [hnil] at hsync
    obtain ⟨hroot, hold⟩ := hsync.eq_of_nil
    have hkeep : (s.inode.truncateKeys size 0).1.extents = s.inode.extents :=
      h.inode.extents_truncateKeys (Nat.le_trans (Nat.le_of_eq hold.symm) hsize)
    refine ⟨fun o _ => ?_, Nat.le_refl _, .inl rfl⟩
    rw [hkeep]
    exact congrArg (get? · o) hroot
  · exact fun r hr => (h.overtaken (refl _) r hr).later hnext

theorem truncated {size : UInt64} (hsize : (s.clients c).truncating = some size) :
    (s.set c s.inode ((s.clients c).truncated size)).Inv := by
  obtain ⟨hlt, hsync⟩ := (h.even c).truncate size hsize
  refine h.set (.of_idle rfl rfl ?_) (h.overtaken (refl _))
  change Level (if _ then _ else _) _ _ _ _
  split
  next hle =>
    have hnext : ((s.clients c).extents.setSize size.toNat true).gen.toNat =
        (s.clients c).extents.gen.toNat + 1 := by
      have := s.inode.generation.toNat_lt
      exact toNat_succ (by omega)
    exact ⟨by omega, fun heq => hsync (by omega) hle⟩
  · exact level_of_lt hlt

theorem getExtents : (s.set c s.inode ((s.clients c).getExtents s.inode)).Inv := by
  have heven := h.even c
  refine h.set { heven with } fun r hr => ?_
  obtain hr | hr := List.mem_append.mp hr
  · exact h.overtaken (refl _) r hr
  · obtain rfl := List.mem_singleton.mp hr
    exact ⟨s.inode.extents, rfl, Nat.le_refl _, fun _ => ⟨rfl, rfl⟩,
      fun _ ha ht => heven.idle ha ht⟩

end

theorem update_cases (cache : ExtentCache) (gen : UInt64) (size : Nat) (e : ExtentsTree) :
    cache.update gen size e.items = cache ∧ gen.toNat ≤ cache.gen.toNat ∨
      cache.update gen size e.items = ⟨gen, size, e⟩ := by
  unfold update
  split
  next hold => exact .inl ⟨rfl, UInt64.le_iff_toNat_le.mp hold.2⟩
  · exact .inr (by rw [foldl_insert_items])

theorem update (h : s.Inv) {i : Nat} {r : ExtentsReply}
    (hr : (s.clients c).replies[i]? = some r) (ht : (s.clients c).truncating = none) :
    (s.set c s.inode ((s.clients c).update i r)).Inv := by
  have heven := h.even c
  obtain ⟨e, he, hle, hsame, -⟩ := h.known c r (List.mem_of_getElem? hr)
  refine h.set ?_ (h.overtaken (List.eraseIdx_subset ..))
  obtain ⟨heq, -⟩ | heq := update_cases (s.clients c).extents r.gen r.size.toNat e
  all_goals
    rw [← he] at heq
    unfold CacheClient.update
    rw [heq]
  · exact { heven with }
  · refine ⟨fun _ _ => ⟨hle, fun hgen => ?_⟩, fun ek hek => ?_, fun n hn => ?_⟩
    · obtain ⟨rfl, hsize⟩ := hsame hgen
      dsimp only
      rw [hsize]
      exact .refl ..
    · obtain ⟨hpos, hsmall, -⟩ := heven.append ek hek
      exact ⟨hpos, hsmall, level_of_lt (Nat.lt_succ_of_le hle)⟩
    · exact nomatch ht.symm.trans hn

theorem step (h : s.Inv) {e : CacheEvent} {s' : SharedInode} (he : s.Orderly e)
    (hs : s.step e = some s') : s'.Inv := by
  obtain ⟨⟨hgen, hkey⟩, hcond⟩ := he
  unfold SharedInode.step at hs
  cases e with
  | write c ek =>
    obtain ⟨hidle, hs⟩ := Option.ite_none_right_eq_some.mp hs
    cases hs
    exact h.write hidle hkey.1 hkey.2
  | appendExtentKey c ek dirty =>
    obtain ⟨hidle, hs⟩ := Option.ite_none_right_eq_some.mp hs
    cases hs
    cases dirty with
    | false => exact h.again hidle hkey.2 hcond
    | true => exact h.appendExtentKey hidle hkey.1 hkey.2 hgen
  | appended c =>
    obtain ⟨ek, hek, rfl⟩ := Option.map_eq_some_iff.mp hs
    exact h.appended hek hgen (hcond ek hek)
  | appendFailed c => exact hcond.elim
  | truncate c size =>
    obtain ⟨⟨hidle, hnil⟩, hs⟩ := Option.ite_none_right_eq_some.mp hs
    cases hs
    exact h.truncate hidle hnil size hgen
  | truncated c =>
    obtain ⟨size, hsize, rfl⟩ := Option.map_eq_some_iff.mp hs
    exact h.truncated hsize
  | getExtents c =>
    cases hs
    exact h.getExtents
  | update c i =>
    obtain ⟨r, hr, rfl⟩ := Option.map_eq_some_iff.mp hs
    exact h.update hr hcond

end Inv

structure Opened (s : SharedInode) : Prop where
  inode : s.inode.Filled
  generation : 0 < s.inode.generation.toNat
  clients : ∀ c, s.clients c = ⟨⟨0, 0, OrdTree.empty⟩, [], none, none, []⟩

theorem Opened.inv {s : SharedInode} (h : s.Opened) : s.Inv where
  inode := h.inode
  even c := by
    rw [h.clients c]
    exact .of_idle rfl rfl (level_of_lt h.generation)
  known c := by
    rw [h.clients c]
    exact nofun

/-- In a run that is orderly, a refresh leaves in the cache of a client that is quiet what the meta
node answered. -/
theorem refresh_takes_reply {s₀ s : SharedInode} (h₀ : s₀.Opened) (h : Reach step Orderly s₀ s)
    {c : Nat} {r : ExtentsReply} (hr : r ∈ (s.clients c).replies)
    (hquiet : (s.clients c).Quiet r) :
    ((s.clients c).extents.update r.gen r.size.toNat r.extents).root.items = r.extents ∧
      ((s.clients c).extents.update r.gen r.size.toNat r.extents).size = r.size.toNat := by
  have hinv : s.Inv := h.invariant h₀.inv fun _ _ _ hs he hstep => hs.step he hstep
  obtain ⟨hnil, ha, ht, halone⟩ := hquiet
  obtain ⟨e, he, -, -, hlevel⟩ := hinv.known c r hr
  obtain ⟨hle, hsync⟩ := hlevel halone ha ht
  rw [he]
  obtain ⟨heq, hge⟩ | heq := Inv.update_cases (s.clients c).extents r.gen r.size.toNat e
  · have hsync := hsync (Nat.le_antisymm hle hge)
    rw [hnil] at hsync
    obtain ⟨hroot, hsize⟩ := hsync.eq_of_nil
    rw [heq, hroot]
    exact ⟨rfl, hsize⟩
  · rw [heq]
    exact ⟨rfl, rfl⟩

def opened : SharedInode :=
  ⟨InodeOf.new OrdTree.empty 5 0 0, fun _ => ⟨⟨0, 0, OrdTree.empty⟩, [], none, none, []⟩⟩

/-- The first client has its own key in the cache when the second one appends another. -/
theorem refresh_takes_reply_of_second : ∃ s r, Reach step Orderly opened s ∧
    r ∈ (s.clients 0).replies ∧ (s.clients 0).extents.root.items = [⟨0, 1, 1, 0, 10, 0⟩] ∧
      ((s.clients 0).extents.update r.gen r.size.toNat r.extents).root.items =
        [⟨0, 1, 1, 0, 10, 0⟩, ⟨10, 1, 2, 0, 10, 0⟩] := by
  obtain ⟨s, hreach, hs⟩ := Reach.exists_checked step Orderly opened
    [.getExtents 0, .update 0 0, .write 0 ⟨0, 0, 0, 0, 10, 0⟩,
      .appendExtentKey 0 ⟨0, 1, 1, 0, 10, 0⟩ true, .appended 0, .getExtents 1, .update 1 0,
      .appendExtentKey 1 ⟨10, 1, 2, 0, 10, 0⟩ true, .appended 1,
      .appendExtentKey 0 ⟨0, 1, 1, 0, 10, 0⟩ false, .getExtents 0]
    (fun s => (s.clients 0).extents.root.items = [⟨0, 1, 1, 0, 10, 0⟩] ∧
      ∃ r ∈ (s.clients 0).replies, (s.clients 0).Quiet r ∧
        r.extents = [⟨0, 1, 1, 0, 10, 0⟩, ⟨10, 1, 2, 0, 10, 0⟩]) (by decide +kernel)
  obtain ⟨hold, r, hr, hquiet, hext⟩ := of_decide_eq_true hs
  refine ⟨s, r, hreach, hr, hold, ?_⟩
  have hopened : opened.Opened := ⟨⟨nofun, nofun, nofun⟩, by decide, fun _ => rfl⟩
  rw [(refresh_takes_reply hopened hreach hr hquiet).1, hext]

def Stale (s : SharedInode) : Prop :=
  ∃ r ∈ (s.clients 0).replies, (s.clients 0).Quiet r ∧
    ((s.clients 0).extents.update r.gen r.size.toNat r.extents).root.items ≠ r.extents

instance decidableStale (s : SharedInode) : Decidable s.Stale :=
  inferInstanceAs (Decidable (∃ r ∈ _, _))

/-- An append that fails is counted all the same, so another client's append goes unnoticed. The
same comes of a key that a closed handler puts back, of two keys of one extent, and of a refresh
between a truncate and the size that it sets. -/
theorem refresh_keeps_stale :
    (∃ s, Reach step Permitted opened s ∧ s.Stale ∧ (s.clients 0).extents.gen.toNat = 3 ∧
      s.inode.extents.items = [⟨0, 1, 1, 0, 10, 0⟩, ⟨10, 1, 2, 0, 10, 0⟩]) ∧
    (∃ s, Reach step Permitted opened s ∧ s.Stale ∧
      s.inode.extents.items = [⟨100, 1, 2, 0, 10, 0⟩]) ∧
    (∃ s, Reach step Permitted opened s ∧ s.Stale ∧
      s.inode.extents.items = [⟨0, 1, 1, 5, 15, 0⟩, ⟨5, 1, 1, 0, 5, 0⟩]) ∧
    ∃ s, Reach step Permitted opened s ∧ s.Stale ∧ s.inode.size.toNat = 30 := by
  refine ⟨?_, ?_, ?_, ?_⟩
  · obtain ⟨s, hreach, hs⟩ := Reach.exists_checked step Permitted opened
      [.getExtents 0, .update 0 0, .appendExtentKey 0 ⟨0, 1, 1, 0, 10, 0⟩ true, .appendFailed 0,
        .appendExtentKey 0 ⟨0, 1, 1, 0, 10, 0⟩ true, .appended 0,
        .appendExtentKey 1 ⟨10, 1, 2, 0, 10, 0⟩ true, .appended 1, .getExtents 0]
      (fun s => s.Stale ∧ (s.clients 0).extents.gen.toNat = 3 ∧
        s.inode.extents.items = [⟨0, 1, 1, 0, 10, 0⟩, ⟨10, 1, 2, 0, 10, 0⟩]) (by decide +kernel)
    exact ⟨s, hreach, of_decide_eq_true hs⟩
  · obtain ⟨s, hreach, hs⟩ := Reach.exists_checked step Permitted opened
      [.getExtents 0, .update 0 0, .appendExtentKey 0 ⟨0, 1, 1, 0, 10, 0⟩ true, .appended 0,
        .truncate 1 0, .truncated 1, .getExtents 0, .update 0 0,
        .appendExtentKey 0 ⟨0, 1, 1, 0, 10, 0⟩ false,
        .appendExtentKey 0 ⟨100, 1, 2, 0, 10, 0⟩ true, .appended 0, .getExtents 0]
      (fun s => s.Stale ∧ s.inode.extents.items = [⟨100, 1, 2, 0, 10, 0⟩]) (by decide +kernel)
    exact ⟨s, hreach, of_decide_eq_true hs⟩
  · obtain ⟨s, hreach, hs⟩ := Reach.exists_checked step Permitted opened
      [.getExtents 0, .update 0 0, .appendExtentKey 0 ⟨5, 1, 1, 0, 5, 0⟩ true, .appended 0,
        .appendExtentKey 0 ⟨0, 1, 1, 5, 15, 0⟩ true, .appended 0, .getExtents 0]
      (fun s => s.Stale ∧ s.inode.extents.items = [⟨0, 1, 1, 5, 15, 0⟩, ⟨5, 1, 1, 0, 5, 0⟩])
      (by decide +kernel)
    exact ⟨s, hreach, of_decide_eq_true hs⟩
  · obtain ⟨s, hreach, hs⟩ := Reach.exists_checked step Permitted opened
      [.getExtents 0, .update 0 0, .appendExtentKey 0 ⟨0, 1, 1, 0, 10, 0⟩ true, .appended 0,
        .truncate 0 20, .getExtents 0, .update 0 0, .truncated 0,
        .appendExtentKey 1 ⟨20, 1, 2, 0, 10, 0⟩ true, .appended 1, .getExtents 0]
      (fun s => s.Stale ∧ s.inode.size.toNat = 30) (by decide +kernel)
    exact ⟨s, hreach, of_decide_eq_true hs⟩

end SharedInode
end ChubaoFS
