import ChubaoFS.ExtentBytes

namespace ChubaoFS

open List OrdTree ExtentKey Nat
open List (mem_cons_self mem_cons)

/-! The extent cache of a client: the keys of a file, and how they split a range of the file into
requests. -/

structure ExtentRequest where
  fileOffset : Nat
  size : Nat
  data : Bytes
  extentKey : Option ExtentKey
  deriving DecidableEq

structure ExtentCache where
  gen : UInt64
  size : Nat
  root : ExtentsTree
  deriving DecidableEq

namespace ExtentCache

def update (cache : ExtentCache) (gen : UInt64) (size : Nat) (eks : List ExtentKey) : ExtentCache :=
  if cache.gen ≠ 0 ∧ gen ≤ cache.gen then cache
  else ⟨gen, size, eks.foldl OrdTree.insert OrdTree.empty⟩

def append (cache : ExtentCache) (ek : ExtentKey) (sync : Bool) : ExtentCache where
  gen := if sync then cache.gen + 1 else cache.gen
  size := if cache.size < ek.fileEnd.toNat then ek.fileEnd.toNat else cache.size
  root := ((cache.root.ascendRange ek.key ek.fileEnd.toNat).foldl (fun t d => t.erase d.key)
    cache.root).insert ek

def setSize (cache : ExtentCache) (size : Nat) (sync : Bool) : ExtentCache :=
  { cache with size := size, gen := if sync then cache.gen + 1 else cache.gen }

def get (cache : ExtentCache) (offset : Nat) : Option ExtentKey :=
  match cache.root.descendLessOrEqual offset with
  | [] => none
  | ek :: _ => if ek.key ≤ offset ∧ offset < ek.fileEnd.toNat then some ek else none

/-- The request for what lies from `start` to `stop`, of a range that begins at `offset`. -/
def newExtentRequest (offset : Nat) (data : Bytes) (start stop : Nat) (ek : Option ExtentKey) :
    ExtentRequest :=
  ⟨start, stop - start, (data.drop (start - offset)).take (stop - start), ek⟩

def keysFrom (cache : ExtentCache) (offset size : Nat) : List ExtentKey :=
  let lower := match cache.root.descendLessOrEqual offset with
    | [] => 0
    | ek :: _ => ek.key
  cache.root.ascendRange lower (offset + size)

section

variable {ι : Type} [LT ι] [LE ι] [DecidableLT ι] [DecidableLE ι] (ekStart ekEnd : ExtentKey → ι)
  (request : ι → ι → Option ExtentKey → ExtentRequest) (stop : ι)

def readWalk : List ExtentKey → ι → List ExtentRequest × ι
  | [], start => ([], start)
  | ek :: eks, start =>
    if start < ekStart ek then
      if stop ≤ ekStart ek then ([], start)
      else if stop < ekEnd ek then
        ([request start (ekStart ek) none, request (ekStart ek) stop (some ek)], stop)
      else
        let (requests, start') := readWalk eks (ekEnd ek)
        (request start (ekStart ek) none :: request (ekStart ek) (ekEnd ek) (some ek) :: requests,
          start')
    else if start < ekEnd ek then
      if stop ≤ ekEnd ek then ([request start stop (some ek)], stop)
      else
        let (requests, start') := readWalk eks (ekEnd ek)
        (request start (ekEnd ek) (some ek) :: requests, start')
    else readWalk eks start

def writeWalk : List ExtentKey → ι → List ExtentRequest × ι
  | [], start => ([], start)
  | ek :: eks, start =>
    if start ≤ ekStart ek then
      if stop ≤ ekStart ek then ([], start)
      else if stop < ekEnd ek then
        ((if start < ekStart ek then [request start (ekStart ek) none] else []) ++
          [request (ekStart ek) stop (some ek)], stop)
      else writeWalk eks start
    else if start < ekEnd ek then
      if stop ≤ ekEnd ek then ([request start stop (some ek)], stop)
      else
        let (requests, start') := writeWalk eks (ekEnd ek)
        (request start (ekEnd ek) (some ek) :: requests, start')
    else writeWalk eks start

def withLastHole : List ExtentRequest × ι → List ExtentRequest
  | (requests, start) => if start < stop then requests ++ [request start stop none] else requests

end

/-- For a range that ends below `2 ^ 63`; `GoInt.prepareReadRequests` is for any. -/
def prepareReadRequests (cache : ExtentCache) (offset size : Nat) (data : Bytes) :
    List ExtentRequest :=
  let request := newExtentRequest offset data
  withLastHole request (offset + size)
    (readWalk key stop request (offset + size) (cache.keysFrom offset size) offset)

def prepareWriteRequests (cache : ExtentCache) (offset size : Nat) (data : Bytes) :
    List ExtentRequest :=
  let request := newExtentRequest offset data
  withLastHole request (offset + size)
    (writeWalk key stop request (offset + size) (cache.keysFrom offset size) offset)

/-! The same on `int`, in which the end of a key or of the range may be negative. -/

namespace GoInt

def int (n : Nat) : Int := Int.bmod n (Nat.pow 2 64)

/-- A slice out of range, which panics, is cut. -/
def newExtentRequest (offset : Nat) (data : Bytes) (start stop : Int) (ek : Option ExtentKey) :
    ExtentRequest :=
  ExtentCache.newExtentRequest offset data start.toNat stop.toNat ek

def prepareReadRequests (cache : ExtentCache) (offset size : Nat) (data : Bytes) :
    List ExtentRequest :=
  let request := newExtentRequest offset data
  withLastHole request (int (offset + size)) (readWalk (fun ek => int ek.key)
    (fun ek => int ek.stop) request (int (offset + size)) (cache.keysFrom offset size) (int offset))

def prepareWriteRequests (cache : ExtentCache) (offset size : Nat) (data : Bytes) :
    List ExtentRequest :=
  let request := newExtentRequest offset data
  withLastHole request (int (offset + size)) (writeWalk (fun ek => int ek.key)
    (fun ek => int ek.stop) request (int (offset + size)) (cache.keysFrom offset size) (int offset))

end GoInt

/-! ### Changes of the keys -/

section Append

variable {cache : ExtentCache} {ek : ExtentKey} {sync : Bool} (h : ek.stop < 2 ^ 64)
include h

theorem root_append : (cache.append ek sync).root = cache.root.lay stop ek := by
  unfold append lay
  rw [toNat_fileEnd h]

theorem size_append : (cache.append ek sync).size = max cache.size ek.stop := by
  unfold append
  rw [toNat_fileEnd h]
  dsimp only
  split <;> omega

end Append

theorem root_update (cache : ExtentCache) {gen : UInt64} {size : Nat} {e : ExtentsTree}
    (h : cache.gen < gen) : cache.update gen size e.items = ⟨gen, size, e⟩ := by
  unfold update
  rw [if_neg fun hle => absurd h (UInt64.not_lt.mpr hle.2), foldl_insert_items]

theorem get_eq_some_iff {cache : ExtentCache} (hs : cache.root.Sound) {offset : Nat}
    {ek : ExtentKey} :
    cache.get offset = some ek ↔ ek ∈ cache.root.items ∧ ek.key ≤ offset ∧ offset < ek.stop := by
  unfold get
  cases hd : cache.root.descendLessOrEqual offset with
  | nil =>
    refine ⟨nofun, fun h => ?_⟩
    have hmem : ek ∈ cache.root.descendLessOrEqual offset := mem_descendLessOrEqual.mpr ⟨h.1, h.2.1⟩
    rw [hd] at hmem
    cases hmem
  | cons x xs =>
    have hx : x ∈ cache.root.items ∧ x.key ≤ offset :=
      mem_descendLessOrEqual.mp (hd ▸ mem_cons_self ..)
    dsimp only
    rw [toNat_fileEnd (hs.small x hx.1)]
    split
    next hin =>
      refine ⟨fun h => Option.some.inj h ▸ ⟨hx.1, hin⟩, fun h => ?_⟩
      rw [hs.spans.eq_of_start hx.1 h.1 hin h.2]
    rename_i hout
    refine ⟨nofun, fun h => ?_⟩
    -- the greatest key from `offset` down would be beyond the one that `offset` is in
    have hle : ek.key ≤ x.key := key_le_of_descend hd h.1 h.2.1
    obtain hlt | heq := lt_or_eq_of_le hle
    · have := hs.spans.apart ek h.1 x hx.1 hlt
      have := hx.2
      omega
    · rw [eq_of_mem_of_key h.1 hx.1 heq] at h
      exact absurd h.2 hout

/-! ### The requests for a range -/

/-- The requests follow each other from `a` to `b`, and each is as `P` says. -/
def Tiles (offset : Nat) (data : Bytes) (P : Nat → Nat → Option ExtentKey → Prop) :
    Nat → Nat → List ExtentRequest → Prop
  | a, b, [] => a = b
  | a, b, r :: rs => ∃ m, a < m ∧ r = newExtentRequest offset data a m r.extentKey ∧
      P a m r.extentKey ∧ Tiles offset data P m b rs

variable {P : Nat → Nat → Option ExtentKey → Prop}

theorem Tiles.le {offset a b : Nat} {data : Bytes} {reqs : List ExtentRequest}
    (h : Tiles offset data P a b reqs) : a ≤ b := by
  induction reqs generalizing a with
  | nil => exact le_of_eq h
  | cons r reqs ih =>
    obtain ⟨m, ham, -, -, hrest⟩ := h
    exact le_trans (le_of_lt ham) (ih hrest)

/-- What is read from `a` to `b` is a part of one key, or of none. -/
def ReadPart (root : ExtentsTree) (a b : Nat) : Option ExtentKey → Prop
  | none => ∀ k ∈ root.items, k.stop ≤ a ∨ b ≤ k.key
  | some k => k ∈ root.items ∧ k.key ≤ a ∧ b ≤ k.stop

def WritePart (root : ExtentsTree) (a b : Nat) : Option ExtentKey → Prop
  | none => ∀ k ∈ root.items, k.stop ≤ a ∨ b ≤ k.key ∨ a ≤ k.key ∧ k.stop ≤ b
  | some k => k ∈ root.items ∧ k.key ≤ a ∧ b ≤ k.stop

section Walk

variable {offset stop : Nat} {data : Bytes}
  {request : Nat → Nat → Option ExtentKey → ExtentRequest}

theorem withLastHole_cons (r : ExtentRequest) (p : List ExtentRequest × Nat) :
    withLastHole request stop (r :: p.1, p.2) = r :: withLastHole request stop p := by
  unfold withLastHole
  dsimp only
  split <;> rfl

theorem withLastHole_stop (requests : List ExtentRequest) :
    withLastHole request stop (requests, stop) = requests := if_neg (lt_irrefl stop)

theorem tiles_lastHole {start : Nat} (hle : start ≤ stop) (hole : P start stop none) :
    Tiles offset data P start stop
      (withLastHole (newExtentRequest offset data) stop ([], start)) := by
  unfold withLastHole
  dsimp only
  split
  next hlt => exact ⟨stop, hlt, rfl, hole, rfl⟩
  next hge => exact Nat.le_antisymm hle (Nat.le_of_not_lt hge)

variable {root : ExtentsTree} (hs : OrdTree.Spans ExtentKey.stop root)
include hs

variable (eks : List ExtentKey) (start : Nat) (hmem : ∀ k ∈ eks, k ∈ root.items ∧ k.key < stop)
include hmem

variable (hsorted : eks.Pairwise fun a b => a.key < b.key)
include hsorted

theorem tiles_readWalk (hrest : ∀ k ∈ root.items, k ∈ eks ∨ k.stop ≤ start ∨ stop ≤ k.key)
    (hle : start ≤ stop) (hlt : eks ≠ [] → start < stop) :
    Tiles offset data (ReadPart root) start stop
      (withLastHole (newExtentRequest offset data) stop
        (readWalk key ExtentKey.stop (newExtentRequest offset data) stop eks start)) := by
  induction eks generalizing start with
  | nil =>
    refine tiles_lastHole hle fun k hk => ?_
    exact (hrest k hk).resolve_left List.not_mem_nil
  | cons ek eks ih =>
    obtain ⟨hek, hekstop⟩ := hmem ek (mem_cons_self ..)
    obtain ⟨hfirst, hsorted⟩ := List.pairwise_cons.mp hsorted
    have hmem' : ∀ k ∈ eks, k ∈ root.items ∧ k.key < stop := fun k hk =>
      hmem k (List.mem_cons_of_mem _ hk)
    have hahead : ∀ k ∈ eks, ek.stop ≤ k.key := fun k hk =>
      hs.apart ek hek k (hmem' k hk).1 (hfirst k hk)
    have hpos := hs.pos ek hek
    have hstart := hlt (List.cons_ne_nil _ _)
    have hhole : start < ek.key → ReadPart root start ek.key none := by
      intro hbefore k hk
      obtain hin | hbehind | hbeyond := hrest k hk
      · obtain rfl | hin := mem_cons.mp hin
        · exact .inr (le_refl _)
        · exact .inr (le_of_lt (hfirst k hin))
      · exact .inl hbehind
      · exact .inr (by omega)
    have hnext : ek.stop ≤ stop → start ≤ ek.stop → Tiles offset data (ReadPart root) ek.stop stop
        (withLastHole (newExtentRequest offset data) stop
          (readWalk key ExtentKey.stop (newExtentRequest offset data) stop eks ek.stop)) := by
      intro hend hstartle
      refine ih ek.stop hmem' hsorted (fun k hk => ?_) hend fun hne => ?_
      · obtain hin | hbehind | hbeyond := hrest k hk
        · obtain rfl | hin := mem_cons.mp hin
          · exact .inr (.inl (le_refl _))
          · exact .inl hin
        · exact .inr (.inl (le_trans hbehind hstartle))
        · exact .inr (.inr hbeyond)
      · obtain ⟨k, hk⟩ := List.exists_mem_of_ne_nil _ hne
        exact lt_of_le_of_lt (hahead k hk) (hmem' k hk).2
    unfold readWalk
    split
    next hbefore =>
      rw [if_neg (by omega)]
      split
      next hshort =>
        rw [withLastHole_stop]
        exact ⟨ek.key, hbefore, rfl, hhole hbefore, stop, hekstop, rfl,
          ⟨hek, le_refl _, le_of_lt hshort⟩, rfl⟩
      rename_i hlong
      dsimp only
      rw [withLastHole_cons _ (_ :: _, _), withLastHole_cons]
      exact ⟨ek.key, hbefore, rfl, hhole hbefore, ek.stop, hpos, rfl,
        ⟨hek, le_refl _, le_refl _⟩, hnext (by omega) (by omega)⟩
    rename_i hin
    split
    next hinside =>
      split
      next hshort =>
        rw [withLastHole_stop]
        exact ⟨stop, hstart, rfl, ⟨hek, by omega, hshort⟩, rfl⟩
      rename_i hlong
      dsimp only
      rw [withLastHole_cons]
      exact ⟨ek.stop, hinside, rfl, ⟨hek, by omega, le_refl _⟩, hnext (by omega) (by omega)⟩
    rename_i hbehind
    refine ih start hmem' hsorted (fun k hk => ?_) hle fun _ => hstart
    obtain hin | hrest := hrest k hk
    · obtain rfl | hin := mem_cons.mp hin
      · exact .inr (.inl (by omega))
      · exact .inl hin
    · exact .inr hrest

theorem tiles_writeWalk (hrest : ∀ k ∈ root.items, k ∈ eks ∨ k.stop ≤ start ∨ stop ≤ k.key ∨
      start ≤ k.key ∧ k.stop ≤ stop ∧ ∀ k' ∈ eks, k.stop ≤ k'.key) (hle : start ≤ stop)
    (hlt : eks ≠ [] → start < stop) : Tiles offset data (WritePart root) start stop
      (withLastHole (newExtentRequest offset data) stop
        (writeWalk key ExtentKey.stop (newExtentRequest offset data) stop eks start)) := by
  induction eks generalizing start with
  | nil =>
    refine tiles_lastHole hle fun k hk => ?_
    obtain hin | hbehind | hbeyond | ⟨hfrom, hto, -⟩ := hrest k hk
    · cases hin
    · exact .inl hbehind
    · exact .inr (.inl hbeyond)
    · exact .inr (.inr ⟨hfrom, hto⟩)
  | cons ek eks ih =>
    obtain ⟨hek, hekstop⟩ := hmem ek (mem_cons_self ..)
    obtain ⟨hfirst, hsorted⟩ := List.pairwise_cons.mp hsorted
    have hmem' : ∀ k ∈ eks, k ∈ root.items ∧ k.key < stop := fun k hk =>
      hmem k (List.mem_cons_of_mem _ hk)
    have hahead : ∀ k ∈ eks, ek.stop ≤ k.key := fun k hk =>
      hs.apart ek hek k (hmem' k hk).1 (hfirst k hk)
    have hpos := hs.pos ek hek
    have hstart := hlt (List.cons_ne_nil _ _)
    unfold writeWalk
    split
    next hbefore =>
      rw [if_neg (by omega)]
      split
      next hshort =>
        rw [withLastHole_stop]
        have hlast : Tiles offset data (WritePart root) ek.key stop
            [newExtentRequest offset data ek.key stop (some ek)] :=
          ⟨stop, hekstop, rfl, ⟨hek, le_refl _, le_of_lt hshort⟩, rfl⟩
        split
        next hhole =>
          refine ⟨ek.key, hhole, rfl, fun k hk => ?_, hlast⟩
          obtain hin | hbehind | hbeyond | ⟨hfrom, -, hto⟩ := hrest k hk
          · obtain rfl | hin := mem_cons.mp hin
            · exact .inr (.inl (le_refl _))
            · exact .inr (.inl (le_of_lt (hfirst k hin)))
          · exact .inl hbehind
          · exact .inr (.inl (by omega))
          · exact .inr (.inr ⟨hfrom, hto ek (mem_cons_self ..)⟩)
        next hat =>
          rw [show start = ek.key by omega]
          exact hlast
      rename_i hlong
      refine ih start hmem' hsorted (fun k hk => ?_) hle fun _ => hstart
      obtain hin | hbehind | hbeyond | ⟨hfrom, hto, hbetween⟩ := hrest k hk
      · obtain rfl | hin := mem_cons.mp hin
        · exact .inr (.inr (.inr ⟨hbefore, by omega, hahead⟩))
        · exact .inl hin
      · exact .inr (.inl hbehind)
      · exact .inr (.inr (.inl hbeyond))
      · exact .inr (.inr (.inr ⟨hfrom, hto, fun k' hk' =>
          hbetween k' (List.mem_cons_of_mem _ hk')⟩))
    rename_i hin
    split
    next hinside =>
      split
      next hshort =>
        rw [withLastHole_stop]
        exact ⟨stop, hstart, rfl, ⟨hek, by omega, hshort⟩, rfl⟩
      rename_i hlong
      dsimp only
      rw [withLastHole_cons]
      refine ⟨ek.stop, hinside, rfl, ⟨hek, by omega, le_refl _⟩,
        ih ek.stop hmem' hsorted (fun k hk => ?_) (by omega) fun hne => ?_⟩
      · obtain hin' | hbehind | hbeyond | ⟨hfrom, -, hto⟩ := hrest k hk
        · obtain rfl | hin' := mem_cons.mp hin'
          · exact .inr (.inl (le_refl _))
          · exact .inl hin'
        · exact .inr (.inl (by omega))
        · exact .inr (.inr (.inl hbeyond))
        · have := hto ek (mem_cons_self ..)
          exact .inr (.inl (by omega))
      · obtain ⟨k, hk⟩ := List.exists_mem_of_ne_nil _ hne
        exact lt_of_le_of_lt (hahead k hk) (hmem' k hk).2
    rename_i hbehind
    refine ih start hmem' hsorted (fun k hk => ?_) hle fun _ => hstart
    obtain hin' | hbehind' | hbeyond | ⟨hfrom, hto, hbetween⟩ := hrest k hk
    · obtain rfl | hin' := mem_cons.mp hin'
      · exact .inr (.inl (by omega))
      · exact .inl hin'
    · exact .inr (.inl hbehind')
    · exact .inr (.inr (.inl hbeyond))
    · exact .inr (.inr (.inr ⟨hfrom, hto, fun k' hk' =>
        hbetween k' (List.mem_cons_of_mem _ hk')⟩))

end Walk

variable {cache : ExtentCache}

theorem keysFrom_spec (hs : OrdTree.Spans stop cache.root) (offset size : Nat) :
    (∀ k ∈ cache.keysFrom offset size, k ∈ cache.root.items ∧ k.key < offset + size) ∧
      ((cache.keysFrom offset size).Pairwise fun a b => a.key < b.key) ∧ ∀ k ∈ cache.root.items,
        k ∈ cache.keysFrom offset size ∨ k.stop ≤ offset ∨ offset + size ≤ k.key := by
  unfold keysFrom ascendRange
  dsimp only
  refine ⟨fun k hk => ?_, cache.root.sorted.sublist filter_sublist, fun k hk => ?_⟩
  · obtain ⟨hk, hrange⟩ := mem_filter.mp hk
    exact ⟨hk, (of_decide_eq_true hrange).2⟩
  · by_cases hstop : k.key < offset + size
    swap
    · exact .inr (.inr (Nat.le_of_not_lt hstop))
    cases hd : cache.root.descendLessOrEqual offset with
    | nil => exact .inl (mem_filter.mpr ⟨hk, decide_eq_true ⟨Nat.zero_le _, hstop⟩⟩)
    | cons x xs =>
      have hx : x ∈ cache.root.items ∧ x.key ≤ offset :=
        mem_descendLessOrEqual.mp (hd ▸ mem_cons_self ..)
      by_cases hle : x.key ≤ k.key
      · exact .inl (mem_filter.mpr ⟨hk, decide_eq_true ⟨hle, hstop⟩⟩)
      · have := hs.apart k hk x hx.1 (Nat.lt_of_not_le hle)
        exact .inr (.inl (by omega))

section

variable (hs : OrdTree.Spans ExtentKey.stop cache.root)
include hs

theorem tiles_prepareReadRequests {offset size : Nat} (hsize : 0 < size) (data : Bytes) :
    Tiles offset data (ReadPart cache.root) offset (offset + size)
      (cache.prepareReadRequests offset size data) := by
  obtain ⟨hmem, hsorted, hrest⟩ := keysFrom_spec hs offset size
  exact tiles_readWalk hs _ offset hmem hsorted hrest (by omega) fun _ => by omega

theorem tiles_prepareWriteRequests {offset size : Nat} (hsize : 0 < size) (data : Bytes) :
    Tiles offset data (WritePart cache.root) offset (offset + size)
      (cache.prepareWriteRequests offset size data) := by
  obtain ⟨hmem, hsorted, hrest⟩ := keysFrom_spec hs offset size
  refine tiles_writeWalk hs _ offset hmem hsorted (fun k hk => ?_) (by omega) fun _ => by omega
  obtain hin | hbehind | hbeyond := hrest k hk
  · exact .inl hin
  · exact .inr (.inl hbehind)
  · exact .inr (.inr (.inl hbeyond))

end

namespace GoInt

theorem int_of_lt {n : Nat} (h : n < 2 ^ 63) : int n = n := by
  unfold int
  exact Int.bmod_eq_of_le (by omega) (by norm_num; omega)

section

variable {eks : List ExtentKey} (hsmall : ∀ k ∈ eks, k.stop < 2 ^ 63) (offset stop start : Nat)
  (data : Bytes)
include hsmall

theorem readWalk_int : readWalk (fun ek => int ek.key) (fun ek => int ek.stop)
      (newExtentRequest offset data) (stop : Int) eks (start : Int) = Prod.map id Nat.cast
    (readWalk key ExtentKey.stop (ExtentCache.newExtentRequest offset data) stop eks start) := by
  induction eks generalizing start with
  | nil => rfl
  | cons ek eks ih =>
    obtain ⟨hek, hrest⟩ := forall_mem_cons.mp hsmall
    have hkey := int_of_lt (lt_of_le_of_lt (Nat.le_add_right ..) hek : ek.key < 2 ^ 63)
    simp only [readWalk, hkey, int_of_lt hek, Int.ofNat_lt, Int.ofNat_le, ih hrest]
    split_ifs <;> rfl

theorem writeWalk_int : writeWalk (fun ek => int ek.key) (fun ek => int ek.stop)
      (newExtentRequest offset data) (stop : Int) eks (start : Int) = Prod.map id Nat.cast
    (writeWalk key ExtentKey.stop (ExtentCache.newExtentRequest offset data) stop eks start) := by
  induction eks generalizing start with
  | nil => rfl
  | cons ek eks ih =>
    obtain ⟨hek, hrest⟩ := forall_mem_cons.mp hsmall
    have hkey := int_of_lt (lt_of_le_of_lt (Nat.le_add_right ..) hek : ek.key < 2 ^ 63)
    simp only [writeWalk, hkey, int_of_lt hek, Int.ofNat_lt, Int.ofNat_le, ih hrest]
    split_ifs <;> rfl

end

theorem withLastHole_int (offset stop : Nat) (data : Bytes) (p : List ExtentRequest × Nat) :
    withLastHole (newExtentRequest offset data) (stop : Int) (Prod.map id Nat.cast p) =
      withLastHole (ExtentCache.newExtentRequest offset data) stop p := by
  simp only [withLastHole, Prod.map, Int.ofNat_lt]
  rfl

variable (hs : OrdTree.Spans ExtentKey.stop cache.root)
  (hsmall : ∀ k ∈ cache.root.items, k.stop < 2 ^ 63) {offset size : Nat}
  (hend : offset + size < 2 ^ 63) (data : Bytes)
include hs hsmall hend

theorem prepareReadRequests_eq :
    prepareReadRequests cache offset size data = cache.prepareReadRequests offset size data := by
  have hkeys := fun k hk => hsmall k ((keysFrom_spec hs offset size).1 k hk).1
  unfold prepareReadRequests
  dsimp only
  rw [int_of_lt hend, int_of_lt (by omega), readWalk_int hkeys, withLastHole_int]
  rfl

theorem prepareWriteRequests_eq :
    prepareWriteRequests cache offset size data = cache.prepareWriteRequests offset size data := by
  have hkeys := fun k hk => hsmall k ((keysFrom_spec hs offset size).1 k hk).1
  unfold prepareWriteRequests
  dsimp only
  rw [int_of_lt hend, int_of_lt (by omega), writeWalk_int hkeys, withLastHole_int]
  rfl

end GoInt

/-- The requests are not empty and follow each other through the range, each with its part of the
data. -/
structure Partitions (offset size : Nat) (data : Bytes) (reqs : List ExtentRequest) : Prop where
  ranges : reqs.flatMap (fun r => List.range' r.fileOffset r.size) = List.range' offset size
  pos : ∀ r ∈ reqs, 0 < r.size
  length : ∀ r ∈ reqs, r.data.length = r.size
  data : ∀ r ∈ reqs, r.data = (data.drop (r.fileOffset - offset)).take r.size

section Partitions

variable {offset size : Nat} {data : Bytes} {reqs : List ExtentRequest}

theorem Tiles.range' {a b : Nat} (h : Tiles offset data P a b reqs) :
    reqs.flatMap (fun r => range' r.fileOffset r.size) = range' a (b - a) := by
  induction reqs generalizing a with
  | nil =>
    obtain rfl : a = b := h
    simp
  | cons r reqs ih =>
    obtain ⟨m, ham, hr, -, hrest⟩ := h
    have hmb := hrest.le
    have hlen : b - a = (m - a) + (b - m) := by omega
    rw [flatMap_cons, ih hrest, hr, hlen, ← range'_append_1]
    simp [newExtentRequest, Nat.add_sub_cancel' (Nat.le_of_lt ham)]

theorem Tiles.mem {a b : Nat} {r : ExtentRequest}
    (h : Tiles offset data P a b reqs) (hr : r ∈ reqs) :
    a ≤ r.fileOffset ∧ 0 < r.size ∧ r.fileOffset + r.size ≤ b ∧
      r.data = (data.drop (r.fileOffset - offset)).take r.size ∧
      P r.fileOffset (r.fileOffset + r.size) r.extentKey := by
  induction reqs generalizing a with
  | nil => cases hr
  | cons r' reqs ih =>
    obtain ⟨m, ham, heq, hP, hrest⟩ := h
    obtain rfl | hr := mem_cons.mp hr
    · have hle := hrest.le
      have hoff : r.fileOffset = a := by rw [heq]; rfl
      have hsize : r.size = m - a := by rw [heq]; rfl
      have hdata : r.data = (data.drop (a - offset)).take (m - a) := by rw [heq]; rfl
      rw [hoff, hsize, hdata, Nat.add_sub_cancel' (Nat.le_of_lt ham)]
      exact ⟨Nat.le_refl _, by omega, hle, rfl, hP⟩
    · obtain ⟨hle, hpart⟩ := ih hrest hr
      exact ⟨by omega, hpart⟩

theorem Tiles.partitions (h : Tiles offset data P offset (offset + size) reqs)
    (hdata : size ≤ data.length) : Partitions offset size data reqs where
  ranges := by simpa using h.range'
  pos r hr := (h.mem hr).2.1
  length r hr := by
    obtain ⟨hle, hpos, hstop, hslice, -⟩ := h.mem hr
    rw [hslice, length_take, length_drop]
    omega
  data r hr := (h.mem hr).2.2.2.1

section

variable (hs : OrdTree.Spans stop cache.root)
  (hsmall : ∀ k ∈ cache.root.items, k.stop < 2 ^ 63) (hsize : 0 < size)
  (hend : offset + size < 2 ^ 63) (hdata : size ≤ data.length)
include hs hsmall hsize hend hdata

/-- A request without a key is a hole: every key that meets it lies inside of it, and a key appended
for it leaves the other keys as they are. -/
theorem prepareWriteRequests_split :
    Partitions offset size data (GoInt.prepareWriteRequests cache offset size data) ∧
      ∀ r ∈ GoInt.prepareWriteRequests cache offset size data,
        (∀ k, r.extentKey = some k → k ∈ cache.root.items ∧ k.key ≤ r.fileOffset ∧
          r.fileOffset + r.size ≤ k.stop) ∧
        (r.extentKey = none →
          (∀ k ∈ cache.root.items, ∀ o, r.fileOffset ≤ o ∧ o < r.fileOffset + r.size →
            k.key ≤ o ∧ o < k.stop → r.fileOffset ≤ k.key ∧ k.stop ≤ r.fileOffset + r.size) ∧
          ∀ ek sync, ek.key = r.fileOffset → ek.stop = r.fileOffset + r.size →
            ∀ k, k ∈ (cache.append ek sync).root.items ↔
              k = ek ∨ k ∈ cache.root.items ∧ ExtentKey.Apart k ek) := by
  rw [GoInt.prepareWriteRequests_eq hs hsmall hend]
  have htiles := @tiles_prepareWriteRequests _ hs offset _ hsize data
  refine ⟨htiles.partitions hdata, fun r hr => ?_⟩
  obtain ⟨-, hpos, hstop, -, hpart⟩ := htiles.mem hr
  constructor
  · intro k hk
    rwa [hk] at hpart
  · intro hnone
    rw [hnone] at hpart
    refine ⟨fun k hk o ho hko => ?_, fun ek sync hkey hek k => ?_⟩
    · have := hpart k hk
      omega
    · rw [root_append (by omega)]
      refine hs.mem_lay_of_cover (by omega) (fun x hx => ?_) k
      have := hpart x hx
      unfold OrdTree.Apart
      omega

/-- The requests tile the range that is read, and tell what is a hole. -/
theorem prepareReadRequests_split :
    Partitions offset size data (GoInt.prepareReadRequests cache offset size data) ∧
      (∀ k ∈ cache.root.items, ∀ o, offset ≤ o → o < offset + size →
        ((∃ r ∈ GoInt.prepareReadRequests cache offset size data, r.extentKey = some k ∧
          r.fileOffset ≤ o ∧ o < r.fileOffset + r.size) ↔ k.key ≤ o ∧ o < k.stop)) ∧
      ∀ r ∈ GoInt.prepareReadRequests cache offset size data,
        (∀ k, r.extentKey = some k → k ∈ cache.root.items) ∧
        (r.extentKey = none → ∀ k ∈ cache.root.items, ∀ o,
          r.fileOffset ≤ o ∧ o < r.fileOffset + r.size → ¬ (k.key ≤ o ∧ o < k.stop)) := by
  rw [GoInt.prepareReadRequests_eq hs hsmall hend]
  have htiles := @tiles_prepareReadRequests _ hs offset _ hsize data
  have hsplit := htiles.partitions hdata
  have hhole (r : ExtentRequest) (hr : r ∈ cache.prepareReadRequests offset size data)
      (hnone : r.extentKey = none) (k : ExtentKey) (hk : k ∈ cache.root.items) (o : Nat)
      (ho : r.fileOffset ≤ o ∧ o < r.fileOffset + r.size) : ¬ (k.key ≤ o ∧ o < k.stop) := by
    obtain ⟨-, -, -, -, hpart⟩ := htiles.mem hr
    rw [hnone] at hpart
    have := hpart k hk
    omega
  have hkey (r : ExtentRequest) (hr : r ∈ cache.prepareReadRequests offset size data)
      (k : ExtentKey) (hk : r.extentKey = some k) :
      k ∈ cache.root.items ∧ k.key ≤ r.fileOffset ∧ r.fileOffset + r.size ≤ k.stop := by
    obtain ⟨-, -, -, -, hpart⟩ := htiles.mem hr
    rwa [hk] at hpart
  refine ⟨hsplit, fun k hk o hlo hhi => ⟨?_, fun hko => ?_⟩, fun r hr =>
    ⟨fun k hk => (hkey r hr k hk).1, hhole r hr⟩⟩
  · rintro ⟨r, hr, hrk, ho⟩
    have := hkey r hr k hrk
    omega
  · -- the position is in some request, and the key of that one can only be `k`
    have ho : o ∈ (cache.prepareReadRequests offset size data).flatMap fun r =>
        range' r.fileOffset r.size := by
      rw [hsplit.ranges, mem_range'_1]
      exact ⟨hlo, hhi⟩
    obtain ⟨r, hr, ho⟩ := mem_flatMap.mp ho
    rw [mem_range'_1] at ho
    cases hrk : r.extentKey with
    | none => exact absurd hko (hhole r hr hrk k hk o ho)
    | some k' =>
      obtain ⟨hk', hfrom, hto⟩ := hkey r hr k' hrk
      rw [hs.eq_of_start hk hk' hko ⟨by omega, by omega⟩]
      exact ⟨r, hr, hrk, ho⟩

end

/-- Two keys with a hole between them. -/
def twoKeys : ExtentCache :=
  ⟨1, 12, (OrdTree.empty.insert ⟨2, 1, 1025, 0, 4, 0⟩).insert ⟨8, 1, 1026, 0, 4, 0⟩⟩

theorem spans_twoKeys : OrdTree.Spans stop twoKeys.root :=
  ⟨by decide, by decide⟩

theorem prepareWriteRequests_split_twoKeys :
    ((GoInt.prepareWriteRequests twoKeys 3 6 [1, 2, 3, 4, 5, 6]).map fun r =>
        (r.fileOffset, r.data, r.extentKey.isSome)) =
      [(3, [1, 2, 3], true), (6, [4, 5], false), (8, [6], true)] ∧
    Partitions 3 6 [1, 2, 3, 4, 5, 6] (GoInt.prepareWriteRequests twoKeys 3 6 [1, 2, 3, 4, 5, 6]) :=
  ⟨by decide, (prepareWriteRequests_split spans_twoKeys (by decide) (by decide) (by decide)
    (by decide)).1⟩

theorem prepareReadRequests_split_twoKeys :
    ((GoInt.prepareReadRequests twoKeys 0 4 [0, 0, 0, 0]).map fun r =>
        (r.fileOffset, r.size, r.extentKey.isSome)) = [(0, 2, false), (2, 2, true)] ∧
    Partitions 0 4 [0, 0, 0, 0] (GoInt.prepareReadRequests twoKeys 0 4 [0, 0, 0, 0]) :=
  ⟨by decide, (prepareReadRequests_split spans_twoKeys (by decide) (by decide) (by decide)
    (by decide)).1⟩

/-- One key, whose end is negative as an `int`. -/
def topKey : ExtentCache :=
  ⟨1, 2 ^ 63 + 5, OrdTree.empty.insert ⟨0x7ffffffffffffffb, 1, 1025, 0, 10, 0⟩⟩

theorem prepareWriteRequests_topKey : OrdTree.Spans stop topKey.root ∧
    ∃ r ∈ GoInt.prepareWriteRequests topKey (2 ^ 63 - 5) 3 [1, 2, 3], r.extentKey = none ∧
      ∃ k ∈ topKey.root.items, k.key = r.fileOffset ∧ r.fileOffset + r.size < k.stop :=
  ⟨⟨by decide +kernel, by decide +kernel⟩, by decide +kernel⟩

theorem prepareReadRequests_topKey : OrdTree.Spans stop topKey.root ∧
    ∃ r ∈ GoInt.prepareReadRequests topKey (2 ^ 63 - 5) 3 [0, 0, 0], r.extentKey = none ∧
      ∃ k ∈ topKey.root.items, k.key = r.fileOffset ∧ r.fileOffset < k.stop :=
  ⟨⟨by decide +kernel, by decide +kernel⟩, by decide +kernel⟩

end Partitions
end ExtentCache
end ChubaoFS
