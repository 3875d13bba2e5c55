import ChubaoFS.ClientBytes

namespace ChubaoFS

open List OrdTree ExtentKey

/-! What holds of a file between the calls of its client, and that flushes keep it. -/

/-- Nothing is left to be done for the handler, whose range has the key `k`. -/
structure ExtentHandler.Idle (eh : ExtentHandler) (k : ExtentKey) : Prop where
  request : eh.request = []
  packet : eh.packet = none
  clean : eh.dirty = false
  key : eh.key = some k
  shut : eh.storeMode = .tiny → eh.status ≠ .opened

namespace ExtentHandler

variable {eh : ExtentHandler} {k : ExtentKey}

theorem Idle.setClosed (h : eh.Idle k) : eh.setClosed.Idle k := by
  unfold ExtentHandler.setClosed
  split
  · exact { h with shut := fun _ => nofun }
  · exact h

theorem Idle.flushPacket (h : eh.Idle k) : eh.flushPacket = eh := by
  unfold ExtentHandler.flushPacket
  rw [h.packet]

end ExtentHandler

namespace ClientFile

variable {place : Placement} {s : ClientFile} {file : Bytes} {id : Nat} {k : ExtentKey}

variable (s)

@[simp] theorem setHandler_self (id : Nat) : s.setHandler id (s.handlers id) = s := by
  unfold setHandler
  rw [Function.update_eq_self]

theorem setHandler_handlers (id : Nat) (eh : ExtentHandler) :
    (s.setHandler id eh).handlers id = eh := Function.update_self ..

theorem setHandler_handlers_ne {id j : Nat} (h : j ≠ id) (eh : ExtentHandler) :
    (s.setHandler id eh).handlers j = s.handlers j := Function.update_of_ne h ..

variable {s} {s' : ClientFile}

theorem appendExtentKey_idle (h : (s.handlers id).Idle k) :
    s.appendExtentKey id = { s with extents := s.extents.append k false } := by
  have hself : ({ s.handlers id with dirty := false } : ExtentHandler) = s.handlers id := by
    rw [← h.clean]
  unfold ClientFile.appendExtentKey
  dsimp only
  rw [hself]
  simp only [h.key, h.clean, Bool.false_eq_true, if_false]
  exact setHandler_self { s with extents := s.extents.append k false } id

theorem flushHandler_idle (h : (s.handlers id).Idle k) :
    s.flushHandler place id = { s with extents := s.extents.append k false } := by
  have hwait : s.waitForFlush place id = s := by
    unfold ClientFile.waitForFlush
    rw [h.request]
    rfl
  rw [flushHandler_eq, h.flushPacket, setHandler_self, hwait, appendExtentKey_idle h]
  dsimp only
  split
  next htiny =>
    rw [ExtentHandler.setClosed, if_neg (h.shut htiny)]
    exact setHandler_self { s with extents := s.extents.append k false } id
  · rfl

/-! ### The flags are never set again -/

/-- The places given up to `s'` have been good only if those up to `s` were. -/
def Later (s s' : ClientFile) : Prop :=
  (s'.fresh = true → s.fresh = true) ∧ (s'.unshared = true → s.unshared = true)

theorem Later.refl (s : ClientFile) : Later s s := ⟨fun h => h, fun h => h⟩

theorem Later.trans {s'' : ClientFile} (h : Later s s') (h' : Later s' s'') : Later s s'' :=
  ⟨fun hf => h.1 (h'.1 hf), fun hu => h.2 (h'.2 hu)⟩

section

variable (place : Placement)

theorem later_flushHandler (s : ClientFile) (id : Nat) : Later s (s.flushHandler place id) := by
  have hsent := sent_deliverNext place
    ((s.setHandler id (s.handlers id).flushPacket).handlers id).request.length
    (s.setHandler id (s.handlers id).flushPacket) id
  obtain ⟨-, -, -, -, -, -, hf, hu⟩ := appendExtentKey_rest
    ((s.setHandler id (s.handlers id).flushPacket).waitForFlush place id) id
  have hlater : Later s
      (((s.setHandler id (s.handlers id).flushPacket).waitForFlush place id).appendExtentKey id) :=
    ⟨fun h => hsent.fresh (hf ▸ h), fun h => hsent.unshared (hu ▸ h)⟩
  rw [flushHandler_eq]
  dsimp only
  split
  · exact hlater
  · exact hlater

end

theorem le_size_append (cache : ExtentCache) (ek : ExtentKey) (sync : Bool) :
    cache.size ≤ (cache.append ek sync).size ∧
      ek.fileEnd.toNat ≤ (cache.append ek sync).size := by
  unfold ExtentCache.append
  dsimp only
  split <;> omega

/-- A preorder along which the client's steps go. -/
structure StepOrder (place : Placement) (R : ClientFile → ClientFile → Prop) : Prop where
  refl : ∀ s, R s s
  trans : ∀ {s s' s''}, R s s' → R s' s'' → R s s''
  quiet : ∀ {s s' : ClientFile}, s'.fresh = s.fresh → s'.unshared = s.unshared →
    s'.inode = s.inode → s.extents.size ≤ s'.extents.size → R s s'
  flushHandler : ∀ s id, R s (s.flushHandler place id)

theorem steps_later (place : Placement) : StepOrder place Later where
  refl := .refl
  trans := .trans
  quiet := fun hf hu _ _ => ⟨fun h => hf ▸ h, fun h => hu ▸ h⟩
  flushHandler := later_flushHandler place

namespace StepOrder

variable {R : ClientFile → ClientFile → Prop} (h : StepOrder place R)
include h

theorem flushList (ids : List Nat) (s : ClientFile) : R s (s.flushList place ids) := by
  induction ids generalizing s with
  | nil => exact h.refl s
  | cons id ids ih =>
    refine h.trans (h.flushHandler s id) (h.trans ?_ (ih _))
    split
    all_goals exact h.quiet rfl rfl rfl (le_refl _)

theorem flush (s : ClientFile) : R s (s.flush place) := h.flushList s.dirtylist s

theorem foldl_flush (l : List ExtentRequest) (s : ClientFile) :
    R s (l.foldl (fun s _ => s.flush place) s) := by
  induction l generalizing s with
  | nil => exact h.refl s
  | cons r l ih => exact h.trans (h.flush s) (ih _)

theorem closeOpenHandler (s : ClientFile) : R s (s.closeOpenHandler place) := by
  unfold ClientFile.closeOpenHandler
  split
  · exact h.refl s
  next id _ =>
    have hclosed : R s (s.setHandler id (s.handlers id).setClosed) :=
      h.quiet rfl rfl rfl (le_refl _)
    refine h.trans hclosed (h.trans (h.flushHandler _ id) ?_)
    exact h.quiet rfl rfl rfl (le_refl _)

theorem tryWrite (data : Bytes) (offset : Nat) (mode : StoreMode) (n : Nat) (s : ClientFile) :
    R s (s.tryWrite place data offset mode n).1 := by
  induction n generalizing s with
  | zero => exact h.refl s
  | succ n ih =>
    unfold ClientFile.tryWrite
    dsimp only
    obtain ⟨t, ht⟩ : ∃ t, t = if s.handler = none then s.newHandler offset mode else s := ⟨_, rfl⟩
    have hnew : R s t := by
      rw [ht]
      split
      all_goals exact h.quiet rfl rfl rfl (le_refl _)
    rw [← ht]
    refine h.trans hnew ?_
    split
    · exact h.refl _
    split
    · exact h.trans (h.closeOpenHandler _) (ih _)
    · exact h.quiet rfl rfl rfl (le_size_append ..).1

theorem overwritePackets (p e : UInt64) (fuel : Nat) (s : ClientFile) (off : Nat)
    (data : Bytes) : R s (s.overwritePackets p e off fuel data) := by
  induction fuel generalizing s off data with
  | zero => exact h.refl s
  | succ fuel ih =>
    unfold ClientFile.overwritePackets
    split
    · exact h.refl s
    · refine h.trans ?_ (ih ..)
      exact h.quiet rfl rfl rfl (le_refl _)

theorem writeRequest (s : ClientFile) (req : ExtentRequest) :
    R s (s.writeRequest place req).1 := by
  unfold ClientFile.writeRequest
  split
  · refine h.trans (h.flush s) ?_
    unfold ClientFile.doOverwrite
    dsimp only
    split
    · exact h.refl _
    split
    · exact h.refl _
    · exact h.overwritePackets ..
  · exact h.tryWrite ..

theorem writeRequests (reqs : List ExtentRequest) (s : ClientFile) (total : Nat) :
    R s (s.writeRequests place total reqs).1 := by
  induction reqs generalizing s total with
  | nil => exact h.refl s
  | cons req reqs ih =>
    refine h.trans (h.writeRequest s req) ?_
    unfold ClientFile.writeRequests
    dsimp only
    split
    · exact ih ..
    · exact h.refl _

end StepOrder

/-! ### The invariant -/

def Done (s : ClientFile) (file : Bytes) (id : Nat) : Prop :=
  (s.handlers id).status = .closed ∧ ∃ k, (s.handlers id).Idle k ∧ k.stop ≤ file.length

def keysOf (s : ClientFile) (ids : List Nat) : List ExtentKey :=
  ids.filterMap fun id => (s.handlers id).key

/-- The handlers in the dirty list that are done: to put their keys in the cache again, in the order
of the list, changes nothing. -/
structure Listed (s : ClientFile) (file : Bytes) (ids : List Nat) : Prop where
  done : ∀ id ∈ ids, s.Done file id
  other : ∀ id ∈ ids, s.handler ≠ some id ∧ id < s.nextHandler
  stable : (s.keysOf ids).foldl (OrdTree.lay ExtentKey.stop) s.inode.extents = s.inode.extents

structure Settled (s : ClientFile) (id : Nat) (k : ExtentKey) : Prop where
  idle : (s.handlers id).Idle k
  mem : k ∈ s.inode.extents.items
  start : k.key = (s.handlers id).fileOffset
  stop : k.stop = (s.handlers id).fileOffset + (s.handlers id).size
  state : (s.handlers id).status = .closed ∨ (s.handlers id).status = .opened ∧ s.dirty = false ∧
    (s.handlers id).storeMode = .normal ∧ (s.handlers id).size ≤ extentSize ∧
    (s.handlers id).extent = some (k.partitionId, k.extentId) ∧ k.extentOffset = 0 ∧
    (s.nodes k.partitionId k.extentId).length = k.size.toNat

structure Clean (s : ClientFile) (file : Bytes) : Prop where
  synced : s.Synced file
  root : s.extents.root = s.inode.extents
  stored : Stored s.inode.extents s.nodes file 0 0
  listed : s.Listed file s.dirtylist
  settled : ∀ id, s.handler = some id → ∃ k, s.Settled id k

structure Ready (s : ClientFile) (file : Bytes) (id : Nat) : Prop extends s.InHand file id where
  opened : (s.handlers id).status = .opened
  fits : (s.handlers id).Fits ((s.handlers id).fileOffset + (s.handlers id).acked)
    ((s.handlers id).fileOffset + (s.handlers id).size)
  tiny : (s.handlers id).storeMode = .tiny → (s.handlers id).size ≤ tinySizeLimit ∧
    ((s.handlers id).key ≠ none → (s.handlers id).size = tinySizeLimit)

structure Busy (s : ClientFile) (file : Bytes) (id : Nat) (ids : List Nat) : Prop
    extends s.Ready file id where
  synced : s.Synced file
  handler : s.handler = some id
  dirty : s.dirty = true
  dirtylist : s.dirtylist = ids ++ [id]
  listed : s.Listed file ids
  root : s.extents.root = s.inode.extents.lay ExtentKey.stop (s.handlers id).localKey
  pos : 0 < (s.handlers id).size
  unsaved : (s.handlers id).queue ≠ [] ∨ (s.handlers id).dirty = true

def Inv (s : ClientFile) (file : Bytes) : Prop :=
  s.Clean file ∨ ∃ id ids, s.Busy file id ids

/-! ### The spans of a cache -/

/-- Some key reaches from `a` to `b`. -/
def HasSpan (root : ExtentsTree) (a b : Nat) : Prop := ∃ k ∈ root.items, k.key = a ∧ k.stop = b

/-- The two have the same spans that end behind `p`. -/
def Keeps (p : Nat) (root root' : ExtentsTree) : Prop :=
  ∀ a b, p < b → (HasSpan root a b ↔ HasSpan root' a b)

theorem Keeps.refl (p : Nat) (root : ExtentsTree) : Keeps p root root := fun _ _ _ => Iff.rfl

theorem Keeps.trans {p q : Nat} {r₁ r₂ r₃ : ExtentsTree} (h : Keeps p r₁ r₂) (hpq : p ≤ q)
    (h' : Keeps q r₂ r₃) : Keeps q r₁ r₃ := fun a b hb =>
  (h a b (Nat.lt_of_le_of_lt hpq hb)).trans (h' a b hb)

theorem keeps_lay (p : Nat) (root : ExtentsTree) {k k' : ExtentKey} (hkey : k.key = k'.key)
    (hstop : k.stop = k'.stop) : Keeps p (root.lay stop k) (root.lay stop k') := by
  have half {k k' : ExtentKey} (hkey : k.key = k'.key) (hstop : k.stop = k'.stop) (a b : Nat)
      (h : HasSpan (root.lay stop k) a b) :
      HasSpan (root.lay stop k') a b := by
    obtain ⟨x, hx, hxa, hxb⟩ := h
    obtain rfl | ⟨hx, hne, hout⟩ := mem_lay.mp hx
    · exact ⟨k', mem_lay.mpr (.inl rfl), hkey ▸ hxa, hstop ▸ hxb⟩
    · rw [hkey] at hne hout
      rw [hstop] at hout
      exact ⟨x, mem_lay.mpr (.inr ⟨hx, hne, hout⟩), hxa, hxb⟩
  exact fun a b _ => ⟨half hkey hstop a b, half hkey.symm hstop.symm a b⟩

/-! ### Flushes -/

theorem append_of_mem {cache : ExtentCache} (hs : cache.root.Sound) (hk : k ∈ cache.root.items)
    (hsize : k.stop ≤ cache.size) : cache.append k false = cache := by
  have hsmall := hs.small k hk
  have hroot : (cache.append k false).root = cache.root := by
    rw [ExtentCache.root_append hsmall, hs.spans.lay_of_mem hk]
  have hsize' : (cache.append k false).size = cache.size := by
    rw [ExtentCache.size_append hsmall, Nat.max_eq_left hsize]
  calc cache.append k false
      = ⟨cache.gen, (cache.append k false).size, (cache.append k false).root⟩ := rfl
    _ = cache := by rw [hroot, hsize']

theorem flushList_done (place : Placement) {ids : List Nat} (rest : List Nat)
    (hdone : ∀ id ∈ ids, s.Done file id)
    (hsize : s.extents.size = file.length) (hsmall : file.length < 2 ^ 63) :
    s.flushList place (ids ++ rest) = { s with
      extents := ⟨s.extents.gen, s.extents.size, (s.keysOf ids).foldl (lay stop) s.extents.root⟩
      dirtylist := s.dirtylist.drop ids.length }.flushList place rest := by
  induction ids generalizing s with
  | nil => rfl
  | cons id ids ih =>
    obtain ⟨hclosed, k, hidle, hend⟩ := hdone id (mem_cons_self ..)
    have hkeys : s.keysOf (id :: ids) = k :: s.keysOf ids := filterMap_cons_some hidle.key
    have hcache : s.extents.append k false =
        ⟨s.extents.gen, s.extents.size, s.extents.root.lay stop k⟩ := by
      have hroot : (s.extents.append k false).root = s.extents.root.lay stop k :=
        ExtentCache.root_append (by omega)
      have hsize' : (s.extents.append k false).size = s.extents.size := by
        rw [ExtentCache.size_append (by omega), Nat.max_eq_left (by omega)]
      rw [← hroot, ← hsize']
      rfl
    rw [cons_append, ClientFile.flushList, flushHandler_idle hidle]
    dsimp only
    rw [if_neg (by rw [hclosed]; nofun), hcache, hkeys]
    refine (@ih { s with
      extents := ⟨s.extents.gen, s.extents.size, s.extents.root.lay stop k⟩
      dirtylist := s.dirtylist.tail } (fun j hj => hdone j (mem_cons_of_mem _ hj))
      hsize).trans ?_
    dsimp only
    rw [foldl_cons, length_cons, drop_tail]
    rfl

theorem Clean.flush (h : s.Clean file) : s.flush place = { s with dirtylist := [] } := by
  have heq := flushList_done place [] h.listed.done h.synced.size
    h.synced.small
  rw [append_nil, h.root, h.listed.stable, ← h.root, drop_length] at heq
  exact heq

theorem Clean.forget (h : s.Clean file) : Clean { s with dirtylist := [] } file where
  synced := { h.synced with }
  __ := h
  listed := ⟨nofun, nofun, rfl⟩
  settled id hid := by
    obtain ⟨k, hk⟩ := h.settled id hid
    exact ⟨k, hk.idle, hk.mem, hk.start, hk.stop, hk.state⟩

theorem localKey_span {eh : ExtentHandler} (hf : eh.fileOffset + eh.size < 2 ^ 63)
    (hn : eh.size ≤ extentSize) :
    eh.localKey.key = eh.fileOffset ∧ eh.localKey.stop = eh.fileOffset + eh.size := by
  have hlimit : extentSize < 2 ^ 32 := by decide
  have hkey : eh.localKey.key = eh.fileOffset := UInt64.toNat_ofNat_of_lt' (by
    change _ < 2 ^ 64
    omega)
  have hsize : eh.localKey.size.toNat = eh.size := UInt32.toNat_ofNat_of_lt' (by
    change _ < 2 ^ 32
    omega)
  refine ⟨hkey, ?_⟩
  unfold stop
  rw [hkey, hsize]

theorem flushList_single (place : Placement) (s : ClientFile) (id : Nat) : s.flushList place [id] =
      { s.flushHandler place id with
        dirtylist := (s.flushHandler place id).dirtylist.tail
        dirty := if ((s.flushHandler place id).handlers id).status = .opened then false
          else (s.flushHandler place id).dirty } := by
  unfold ClientFile.flushList
  dsimp only
  split
  · rfl
  · rfl

namespace Busy

variable {ids : List Nat} (h : s.Busy file id ids)
include h

theorem pending : s.Pending file id := ⟨h.toInHand, h.unsaved⟩

theorem span : (s.handlers id).localKey.key = (s.handlers id).fileOffset ∧
      (s.handlers id).localKey.stop = (s.handlers id).fileOffset + (s.handlers id).size :=
  localKey_span h.carries.small.1 h.carries.small.2

theorem flush (hfresh : (s.flush place).fresh = true) (hun : (s.flush place).unshared = true) :
    (s.flush place).Clean file ∧ Keeps 0 s.extents.root (s.flush place).extents.root := by
  obtain ⟨hkey, hstop⟩ := h.span
  obtain ⟨s₁, hs₁⟩ : ∃ t : ClientFile, t = { s with
      extents := ⟨s.extents.gen, s.extents.size, (s.keysOf ids).foldl (lay stop) s.extents.root⟩
      dirtylist := [id] } := ⟨_, rfl⟩
  have heq : s.flush place = s₁.flushList place [id] := by
    unfold ClientFile.flush
    rw [h.dirtylist, flushList_done place [id] h.listed.done h.synced.size h.synced.small,
      h.dirtylist, drop_left, hs₁]
  rw [flushList_single] at heq
  rw [heq] at hfresh hun ⊢
  have hp : s₁.Pending file id := by
    rw [hs₁]
    exact ⟨{ h with }, h.unsaved⟩
  have hsynced : s₁.Synced file := by
    rw [hs₁]
    exact { h.synced with }
  have hhandlers : s₁.handlers = s.handlers := by rw [hs₁]
  -- the keys of the handlers before it do not show behind the key of this one
  have hroot : ∀ k : ExtentKey, k.key = (s₁.handlers id).fileOffset →
      k.stop = (s₁.handlers id).fileOffset + (s₁.handlers id).size →
      s₁.extents.root.lay stop k = s₁.inode.extents.lay stop k := by
    rw [hhandlers]
    intro k hk hks
    rw [hs₁]
    dsimp only
    rw [h.root]
    exact lay_foldl_lay h.listed.stable (hk.trans hkey.symm) (hks.trans hstop.symm)
  obtain ⟨k, hf⟩ := hp.flushHandler (by rw [hhandlers]; exact h.pos) hroot hsynced hfresh hun
  have hinode : (s₁.flushHandler place id).inode.extents = s.inode.extents.lay stop k := by
    rw [hf.inode, hs₁]
  have hstart := hf.start
  have hkstop := hf.stop
  rw [hhandlers] at hstart hkstop
  refine ⟨⟨?_, hf.root, hf.stored, ?_, ?_⟩, ?_⟩
  · exact { hf.synced with }
  · dsimp only
    rw [hf.dirtylist, hs₁]
    exact ⟨nofun, nofun, rfl⟩
  · intro j hj
    obtain rfl : id = j := by
      have hj' : (s₁.flushHandler place id).handler = some j := hj
      rw [hf.handler, hs₁, h.handler] at hj'
      exact Option.some.inj hj'
    have hstatus := hf.status
    rw [hhandlers, h.opened] at hstatus
    refine ⟨k, { hf with shut := fun htiny hopen => ?_ }, ?_, ?_, ?_, ?_⟩
    · rw [if_pos ⟨by rw [← hhandlers, ← hf.storeMode]; exact htiny, rfl⟩] at hstatus
      rw [hstatus] at hopen
      cases hopen
    · dsimp only
      rw [hinode]
      exact mem_lay.mpr (.inl rfl)
    · exact hf.start.trans hf.fileOffset.symm
    · dsimp only
      rw [hf.stop, hf.fileOffset, hf.size]
    · cases hm : (s.handlers id).storeMode with
      | tiny =>
        rw [if_pos ⟨hm, rfl⟩] at hstatus
        exact .inl hstatus
      | normal =>
        rw [if_neg (fun htiny => nomatch hm ▸ htiny.1)] at hstatus
        have hm₁ : (s₁.handlers id).storeMode = .normal := by rw [hhandlers]; exact hm
        obtain ⟨hext, hoff, hlen⟩ := hf.grows hm₁
        refine .inr ⟨hstatus, if_pos hstatus, hf.storeMode.trans hm₁, ?_, hext, hoff, hlen⟩
        dsimp only
        rw [hf.size, hhandlers]
        exact h.carries.small.2
  · dsimp only
    rw [h.root, hf.root, hinode]
    exact keeps_lay 0 _ (hkey.trans hstart.symm) (hstop.trans hkstop.symm)

end Busy

theorem Inv.flush (h : s.Inv file) (hfresh : (s.flush place).fresh = true)
    (hun : (s.flush place).unshared = true) :
    (s.flush place).Clean file ∧ Keeps 0 s.extents.root (s.flush place).extents.root := by
  obtain hc | ⟨id, ids, hb⟩ := h
  · rw [hc.flush]
    exact ⟨hc.forget, .refl 0 _⟩
  · exact hb.flush hfresh hun

/-! ### The handler in use is closed -/

variable {ids : List Nat}

theorem keysOf_congr (h : ∀ id ∈ ids, s'.handlers id = s.handlers id) :
    s'.keysOf ids = s.keysOf ids :=
  filterMap_congr fun id hid => by rw [h id hid]

theorem Listed.setHandler (h : s.Listed file ids) (hid : s.handler = some id) (eh : ExtentHandler) :
    (s.setHandler id eh).Listed file ids := by
  have hsame : ∀ j ∈ ids, (s.setHandler id eh).handlers j = s.handlers j := fun j hj =>
    setHandler_handlers_ne s (fun heq : j = id => (h.other j hj).1 (heq ▸ hid)) eh
  refine ⟨fun j hj => ?_, h.other, ?_⟩
  · unfold Done
    rw [hsame j hj]
    exact h.done j hj
  · rw [keysOf_congr hsame]
    exact h.stable

theorem Clean.closeOpenHandler (h : s.Clean file) (hid : s.handler = some id) :
    s.closeOpenHandler place =
      { s.setHandler id (s.handlers id).setClosed with handler := none } := by
  obtain ⟨k, hk⟩ := h.settled id hid
  have hidle : ((s.setHandler id (s.handlers id).setClosed).handlers id).Idle k := by
    rw [setHandler_handlers]
    exact hk.idle.setClosed
  have hcache : s.extents.append k false = s.extents := by
    refine append_of_mem ?_ ?_ ?_
    · rw [h.root]
      exact h.stored.sound
    · rw [h.root]
      exact hk.mem
    · rw [h.synced.size]
      exact h.stored.ends k hk.mem
  unfold ClientFile.closeOpenHandler
  rw [hid]
  dsimp only
  rw [flushHandler_idle hidle]
  change ({ s.setHandler id (s.handlers id).setClosed with
    extents := s.extents.append k false, handler := none } : ClientFile) = _
  rw [hcache]
  rfl

theorem Clean.closed (h : s.Clean file) (hid : s.handler = some id) :
    Clean { s.setHandler id (s.handlers id).setClosed with handler := none } file := by
  have hl := h.listed.setHandler hid (s.handlers id).setClosed
  exact ⟨{ h.synced with known := nofun }, h.root, h.stored,
    { hl with other := fun j hj => ⟨nofun, (hl.other j hj).2⟩ }, nofun⟩

theorem Busy.closeOpenHandler (h : s.Busy file id ids)
    (hfresh : (s.closeOpenHandler place).fresh = true)
    (hun : (s.closeOpenHandler place).unshared = true) :
    (s.closeOpenHandler place).Clean file ∧ (s.closeOpenHandler place).handler = none ∧
      (s.closeOpenHandler place).inode.generation = s.inode.generation + 1 ∧
      Keeps 0 s.extents.root (s.closeOpenHandler place).extents.root := by
  obtain ⟨hkey, hstop⟩ := h.span
  obtain ⟨s₁, hs₁⟩ : ∃ t, t = s.setHandler id (s.handlers id).setClosed := ⟨_, rfl⟩
  have heq : s.closeOpenHandler place = { s₁.flushHandler place id with handler := none } := by
    unfold ClientFile.closeOpenHandler
    rw [h.handler, hs₁]
  rw [heq] at hfresh hun ⊢
  have hself : s₁.handlers id = { s.handlers id with status := .closed } := by
    rw [hs₁, setHandler_handlers]
    exact if_pos h.opened
  have hp : s₁.Pending file id := by
    refine ⟨⟨?_, ?_, ?_, ?_⟩, ?_⟩ <;> rw [hself]
    · rw [hs₁]
      exact h.stored
    · rw [hs₁]
      exact { h.carries with }
    · rw [hs₁]
      exact h.apart
    · rw [hs₁]
      exact h.unshared
    · exact h.unsaved
  have hsynced : s₁.Synced file := by
    rw [hs₁]
    exact { h.synced with }
  have hlisted : s₁.Listed file ids := by
    rw [hs₁]
    exact h.listed.setHandler h.handler _
  have hroot : ∀ k : ExtentKey, k.key = (s₁.handlers id).fileOffset →
      k.stop = (s₁.handlers id).fileOffset + (s₁.handlers id).size →
      s₁.extents.root.lay stop k = s₁.inode.extents.lay stop k := by
    rw [hself, hs₁]
    intro k hk hks
    change s.extents.root.lay stop k = s.inode.extents.lay stop k
    rw [h.root]
    have hpos := h.pos
    exact lay_lay (Nat.le_of_eq (hk.trans hkey.symm)) (Nat.le_of_eq (hstop.trans hks.symm))
      (by omega)
  obtain ⟨k, hf⟩ := hp.flushHandler (by rw [hself]; exact h.pos) hroot hsynced hfresh hun
  have hinode : (s₁.flushHandler place id).inode.extents = s.inode.extents.lay stop k := by
    rw [hf.inode, hs₁]
    rfl
  have hstart := hf.start
  have hkstop := hf.stop
  have hstatus := hf.status
  rw [hself] at hstart hkstop hstatus
  dsimp only at hstart hkstop hstatus
  rw [if_neg (fun hopen => nomatch hopen.2)] at hstatus
  have hne : ∀ j ∈ ids, j ≠ id := fun j hj heq => (h.listed.other j hj).1 (heq ▸ h.handler)
  have hothers : ∀ j ∈ ids, (s₁.flushHandler place id).handlers j = s₁.handlers j := fun j hj =>
    hf.others j (hne j hj)
  have hend := h.carries.ends h.pos
  refine ⟨⟨?_, hf.root, hf.stored, ?_, nofun⟩, rfl, ?_, ?_⟩
  · exact { hf.synced with known := nofun }
  · have hlist : (s₁.flushHandler place id).dirtylist = ids ++ [id] := by
      rw [hf.dirtylist, hs₁]
      exact h.dirtylist
    dsimp only
    rw [hlist]
    refine ⟨fun j hj => ?_, fun j hj => ⟨nofun, ?_⟩, ?_⟩
    · obtain hj | hj := mem_append.mp hj
      · unfold Done
        dsimp only
        rw [hothers j hj]
        exact hlisted.done j hj
      · obtain rfl := mem_singleton.mp hj
        refine ⟨hstatus, k, { hf with shut := fun _ => ?_ }, ?_⟩
        · dsimp only
          rw [hstatus]
          nofun
        · rw [hkstop]
          exact hend
    · dsimp only
      rw [hf.nextHandler, hs₁]
      obtain hj | hj := mem_append.mp hj
      · exact (h.listed.other j hj).2
      · exact mem_singleton.mp hj ▸ h.synced.known id h.handler
    · have hkeys : (s₁.flushHandler place id).keysOf (ids ++ [id]) = s₁.keysOf ids ++ [k] := by
        refine filterMap_append.trans ?_
        rw [show filterMap _ ids = _ from keysOf_congr hothers]
        congr 1
        exact filterMap_cons_some hf.key
      change ((s₁.flushHandler place id).keysOf (ids ++ [id])).foldl (lay stop)
        (s₁.flushHandler place id).inode.extents = (s₁.flushHandler place id).inode.extents
      rw [hkeys, hf.inode]
      exact foldl_lay_concat hlisted.stable k
  · exact hf.generation.trans (by rw [hs₁]; rfl)
  · dsimp only
    rw [h.root, hf.root, hinode]
    exact keeps_lay 0 _ (hkey.trans hstart.symm) (hstop.trans hkstop.symm)

theorem Inv.closeOpenHandler (h : s.Inv file) (hfresh : (s.closeOpenHandler place).fresh = true)
    (hun : (s.closeOpenHandler place).unshared = true) :
    (s.closeOpenHandler place).Clean file ∧ (s.closeOpenHandler place).handler = none ∧
      ((s.closeOpenHandler place).inode.generation = s.inode.generation ∨
        (s.closeOpenHandler place).inode.generation = s.inode.generation + 1) ∧
      Keeps 0 s.extents.root (s.closeOpenHandler place).extents.root := by
  obtain hc | ⟨id, ids, hb⟩ := h
  · cases hid : s.handler with
    | none =>
      have heq : s.closeOpenHandler place = s := by
        unfold ClientFile.closeOpenHandler
        rw [hid]
      rw [heq]
      exact ⟨hc, hid, .inl rfl, .refl 0 _⟩
    | some id =>
      rw [hc.closeOpenHandler hid]
      exact ⟨hc.closed hid, rfl, .inl rfl, .refl 0 _⟩
  · obtain ⟨hc, hnone, hgen, hkeeps⟩ := hb.closeOpenHandler hfresh hun
    exact ⟨hc, hnone, .inr hgen, hkeeps⟩

end ClientFile
end ChubaoFS
