import ChubaoFS.ClientWrites

namespace ChubaoFS

open Bytes List UInt64
open UInt64 (ofNat)

/-! A client's file is an array of bytes. -/

namespace ClientFile

variable {place : Placement} {s : ClientFile} {file data : Bytes} {id a b : Nat} {k : ExtentKey}
  {offset : Nat}

/-! ### Reads -/

theorem Clean.readRequests (h : s.Clean file) {reqs : List ExtentRequest}
    (htiles : ExtentCache.Tiles offset data (ExtentCache.ReadPart s.extents.root) a b reqs) :
    s.readRequests reqs = (file.drop a).take (b - a) := by
  induction reqs generalizing a with
  | nil =>
    obtain rfl : a = b := htiles
    rw [Nat.sub_self, take_zero]
    rfl
  | cons r reqs ih =>
    obtain ⟨m, ham, hr, hpart, hrest⟩ := htiles
    have hmb := hrest.le
    have hoffset : r.fileOffset = a := by rw [hr]; rfl
    have hsize : r.size = m - a := by rw [hr]; rfl
    have hsplit : (file.drop a).take (b - a) =
        (file.drop a).take (m - a) ++ (file.drop m).take (b - m) := by
      rw [show b - a = (m - a) + (b - m) by omega, take_add, drop_drop,
        show a + (m - a) = m by omega]
    have hnext := ih hrest
    have hlen := h.synced.size
    rw [hsplit]
    unfold ClientFile.readRequests
    cases hk : r.extentKey with
    | none =>
      rw [hk] at hpart
      -- no key covers what lies between
      have hzeros : (file.drop a).take (m - a) = replicate (min (m - a) (file.length - a)) 0 := by
        refine ext_getD (by simp) fun j hj => ?_
        rw [length_take, length_drop] at hj
        rw [getD_take_drop _ (by omega), getD_replicate _ (by omega)]
        refine h.stored.zeros (a + j) (by omega) (by omega) fun k hkm hin => ?_
        have := hpart k (h.root ▸ hkm)
        omega
      dsimp only
      rw [hoffset, hsize, hlen, hzeros, show a + (m - a) = m by omega]
      by_cases hshort : file.length < m
      · rw [if_pos hshort, drop_of_length_le (Nat.le_of_lt hshort), take_nil,
          append_nil, show min (m - a) (file.length - a) = file.length - a by omega]
        split
        next hbehind => rw [show file.length - a = 0 by omega, replicate_zero]
        · rfl
      · rw [if_neg hshort, hnext, show min (m - a) (file.length - a) = m - a by omega]
    | some k =>
      rw [hk] at hpart
      obtain ⟨hmem, hle, hend⟩ := hpart
      rw [h.root] at hmem
      have hstop : k.stop = k.key + k.size.toNat := rfl
      have hends := h.stored.ends k hmem
      have hwithin := h.stored.within k hmem
      unfold ExtentKey.Within at hwithin
      have hgot : s.readExtent k r = (file.drop a).take (m - a) := by
        unfold readExtent
        rw [hoffset, hsize]
        refine ext_getD ?_ fun j hj => ?_
        · simp only [length_take, length_drop]
          omega
        · rw [length_take, length_drop] at hj
          rw [getD_take_drop _ (by omega), getD_take_drop _ (by omega),
            ← h.stored.holds k hmem (.inr (Nat.zero_le _)) (a + j) (by omega) (by omega)]
          congr 1
          omega
      dsimp only
      rw [hgot, hsize, if_neg, hnext]
      rw [length_take, length_drop]
      omega

theorem Inv.read (h : s.Inv file) (hne : data ≠ [])
    (hfresh : (s.read place data offset).1.fresh = true)
    (hun : (s.read place data offset).1.unshared = true) :
    (s.read place data offset).2 = (file.drop offset).take data.length ∧
      (s.read place data offset).1.Clean file := by
  have hpos : 0 < data.length := length_pos_iff.mpr hne
  have hread {t : ClientFile} (hc : t.Clean file) :
      t.readRequests (t.extents.prepareReadRequests offset data.length data) =
        (file.drop offset).take data.length := by
    have hsound := Inv.sound (.inl hc)
    rw [hc.readRequests (ExtentCache.tiles_prepareReadRequests hsound.spans hpos data),
      Nat.add_sub_cancel_left]
  unfold ClientFile.read at hfresh hun ⊢
  dsimp only at hfresh hun ⊢
  split at hfresh
  next hunknown =>
    rw [if_pos hunknown] at hun ⊢
    have hlater := (steps_later place).flush (s.flush place)
    obtain ⟨hc, -⟩ := h.flush (hlater.1 hfresh) (hlater.2 hun)
    obtain ⟨hc', -⟩ := Inv.flush (.inl hc) hfresh hun
    exact ⟨hread hc', hc'⟩
  next hknown =>
    rw [if_neg hknown] at hun ⊢
    obtain ⟨hc, -⟩ := h.flush hfresh hun
    exact ⟨hread hc, hc⟩

/-! ### Truncation -/

theorem truncate_of_le {e : ExtentsTree} {length : UInt64} (hs : e.Sound)
    (h : ∀ k ∈ e.items, k.stop ≤ length.toNat) : e.truncate length = e := by
  have hcut : ∀ k ∈ e.items, k.cut length = k := by
    intro k hk
    have := h k hk
    unfold ExtentKey.cut
    rw [if_neg]
    rw [gt_iff_lt, lt_iff_toNat_lt, ExtentKey.toNat_fileEnd (hs.small k hk)]
    omega
  refine OrdTree.ext_mem fun x => ?_
  rw [ExtentsTree.mem_truncate hs]
  constructor
  · rintro ⟨k, hk, -, rfl⟩
    rwa [hcut k hk]
  · intro hx
    have := hs.spans.pos x hx
    have := h x hx
    exact ⟨x, hx, by omega, (hcut x hx).symm⟩

theorem Inv.truncate {size : Nat} (h : s.Inv file) (hsize : size < 2 ^ 63)
    (hgen : s.inode.generation.toNat + 2 < 2 ^ 64) (hfresh : (s.truncate place size).fresh = true)
    (hun : (s.truncate place size).unshared = true) :
    (s.truncate place size).Clean (file.take size ++ List.replicate (size - file.length) 0) := by
  obtain ⟨s₁, hs₁⟩ : ∃ t, t = s.closeOpenHandler place := ⟨_, rfl⟩
  have hlater : Later s₁ (s.truncate place size) := by
    rw [hs₁]
    refine ((steps_later place).flush _).trans ?_
    unfold ClientFile.truncate
    dsimp only
    split
    all_goals exact .refl _
  obtain ⟨hc, hnone, hgen₁, -⟩ : s₁.Clean file ∧ s₁.handler = none ∧
      (s₁.inode.generation = s.inode.generation ∨
        s₁.inode.generation = s.inode.generation + 1) ∧ _ := by
    have hf := hlater.1 hfresh
    have hu := hlater.2 hun
    rw [hs₁] at hf hu ⊢
    exact h.closeOpenHandler hf hu
  have hnat : (ofNat size).toNat = size := UInt64.toNat_ofNat_of_lt' (by
    change _ < 2 ^ 64
    omega)
  have hnext : (s₁.inode.generation + 1).toNat = s₁.inode.generation.toNat + 1 := by
    have hlt : s₁.inode.generation.toNat ≤ s.inode.generation.toNat + 1 := by
      obtain hgen₁ | hgen₁ := hgen₁
      · rw [hgen₁]
        omega
      · rw [hgen₁, UInt64.toNat_add]
        exact Nat.le_trans (Nat.mod_le _ _) (Nat.le_refl _)
    rw [UInt64.toNat_add]
    exact Nat.mod_eq_of_lt (by
      change _ + 1 < _
      omega)
  obtain ⟨s₂, hs₂⟩ : ∃ t : ClientFile, t = { s₁ with
      dirtylist := []
      inode := (s₁.inode.truncateKeys (ofNat size) s₁.inode.modifyTime).1 } := ⟨_, rfl⟩
  have heq : s.truncate place size =
      if s₂.extents.size ≤ size then { s₂ with extents := s₂.extents.setSize size true }
      else { s₂ with
        extents :=
          s₂.extents.update s₂.inode.generation s₂.inode.size.toNat s₂.inode.extents.items } := by
    unfold ClientFile.truncate
    rw [← hs₁, hc.flush, hs₂]
  rw [heq, hs₂]
  dsimp only
  have hlen := hc.synced.size
  have hsmall := hc.synced.small
  by_cases hle : s₁.extents.size ≤ size
  · rw [if_pos hle]
    rw [hlen] at hle
    have hsame : (s₁.inode.truncateKeys (ofNat size) s₁.inode.modifyTime).1.extents =
        s₁.inode.extents := by
      refine truncate_of_le hc.stored.sound fun k hk => ?_
      have := hc.stored.ends k hk
      omega
    refine ⟨⟨congrArg (· + 1) hc.synced.gen, ?_, ?_, ?_⟩, ?_, ?_, ⟨nofun, nofun, rfl⟩, ?_⟩
    · rw [List.length_append, List.length_take, List.length_replicate]
      change size = _
      omega
    · rw [List.length_append, List.length_take, List.length_replicate]
      omega
    · intro j hj
      exact nomatch hnone.symm.trans hj
    · exact hc.root.trans hsame.symm
    · dsimp only
      rw [hsame]
      exact hc.stored.resize hle
    · intro j hj
      exact nomatch hnone.symm.trans hj
  rw [if_neg hle]
  rw [hlen] at hle
  have hupdate : s₁.extents.update
      (s₁.inode.truncateKeys (ofNat size) s₁.inode.modifyTime).1.generation
      (s₁.inode.truncateKeys (ofNat size) s₁.inode.modifyTime).1.size.toNat
      (s₁.inode.truncateKeys (ofNat size) s₁.inode.modifyTime).1.extents.items =
      ⟨s₁.inode.generation + 1, (ofNat size).toNat, s₁.inode.extents.truncate (ofNat size)⟩ := by
    refine ExtentCache.root_update s₁.extents ?_
    rw [hc.synced.gen, UInt64.lt_iff_toNat_lt]
    exact Nat.lt_of_lt_of_eq (Nat.lt_succ_self _) hnext.symm
  have hcut := hc.stored.cut (ofNat size) (by omega)
  rw [hupdate]
  rw [hnat] at hcut ⊢
  rw [show size - file.length = 0 by omega, List.replicate_zero, List.append_nil]
  refine ⟨⟨rfl, ?_, ?_, ?_⟩, rfl, hcut, ⟨nofun, nofun, rfl⟩, ?_⟩
  · rw [List.length_take]
    change size = _
    omega
  · rw [List.length_take]
    omega
  all_goals
    intro j hj
    exact nomatch hnone.symm.trans hj

/-! ### What goes on beside the calls -/

def KeysKept (s : ClientFile) : Prop :=
  ∀ id ∈ s.dirtylist, (s.handlers id).status ≠ .opened →
    ∃ k ∈ s.extents.root.items, (s.handlers id).key = some k

variable {ids : List Nat}

theorem traverseList_done {rest : List Nat} (n : Nat) (hs : s.extents.root.Sound)
    (hsize : s.extents.size = file.length) (hdone : ∀ id ∈ ids, s.Done file id)
    (hkept : ∀ id ∈ ids, ∃ k ∈ s.extents.root.items, (s.handlers id).key = some k)
    (hrest : ∀ id ∈ rest, (s.handlers id).status = .opened) (hlist : s.dirtylist = ids ++ rest) :
    s.traverseList n = { s with dirtylist := ids.drop n ++ rest } := by
  induction n generalizing s ids with
  | zero =>
    rw [drop_zero, ← hlist]
    rfl
  | succ n ih =>
    cases ids with
    | nil =>
      have hself : ({ s with dirtylist := [].drop n ++ rest } : ClientFile) = s := by
        rw [drop_nil, ← hlist]
      have hagain := ih hs hsize hdone hkept hrest hlist
      rw [nil_append] at hlist
      unfold traverseList
      rw [hlist]
      cases rest with
      | nil =>
        rw [drop_nil] at hself ⊢
        exact hself.symm
      | cons id rest =>
        dsimp only
        rw [if_pos (hrest id (mem_cons_self ..)), hagain, drop_nil, drop_nil]
    | cons id ids =>
      obtain ⟨hclosed, k, hidle, hend⟩ := hdone id (mem_cons_self ..)
      obtain ⟨k', hmem, hkey⟩ := hkept id (mem_cons_self ..)
      obtain rfl := Option.some.inj (hidle.key.symm.trans hkey)
      have hcache : s.extents.append k false = s.extents :=
        append_of_mem hs hmem (by rw [hsize]; exact hend)
      unfold traverseList
      rw [hlist, cons_append]
      dsimp only
      rw [if_neg (by rw [hclosed]; nofun), hidle.flushPacket, setHandler_self,
        if_neg (not_not_intro hidle.request), appendExtentKey_idle hidle, hcache]
      refine (@ih { s with dirtylist := ids ++ rest } ids hs hsize
        (fun j hj => hdone j (mem_cons_of_mem _ hj))
        (fun j hj => hkept j (mem_cons_of_mem _ hj)) hrest rfl).trans ?_
      rw [drop_succ_cons]

theorem Listed.drop (h : s.Listed file ids) (n : Nat) : s.Listed file (ids.drop n) := by
  induction n generalizing ids with
  | zero => exact h
  | succ n ih =>
    cases ids with
    | nil => exact h
    | cons id ids =>
      obtain ⟨-, k, hidle, -⟩ := h.done id (mem_cons_self ..)
      refine ih ⟨fun j hj => h.done j (mem_cons_of_mem _ hj),
        fun j hj => h.other j (mem_cons_of_mem _ hj), ?_⟩
      have hstable := h.stable
      rw [show s.keysOf (id :: ids) = k :: s.keysOf ids from
        filterMap_cons_some hidle.key] at hstable
      exact OrdTree.foldl_lay_tail hstable

theorem KeysKept.closed (hkept : s.KeysKept) {ids : List Nat} (hl : s.Listed file ids)
    (hsub : ∀ id ∈ ids, id ∈ s.dirtylist) :
    ∀ id ∈ ids, ∃ k ∈ s.extents.root.items, (s.handlers id).key = some k := by
  intro id hid
  refine hkept id (hsub id hid) ?_
  rw [(hl.done id hid).1]
  nofun

theorem Inv.traverse (h : s.Inv file) (hkept : s.KeysKept) : s.traverse.Inv file := by
  have hsound := h.sound
  have hsize := h.size
  unfold ClientFile.traverse
  obtain hc | ⟨id, ids, hb⟩ := h
  · rw [traverseList_done s.dirtylist.length hsound hsize hc.listed.done
      (hkept.closed hc.listed fun _ hid => hid)
      (show ∀ id ∈ [], (s.handlers id).status = .opened from nofun) (append_nil _).symm,
      append_nil]
    have hl := hc.listed.drop s.dirtylist.length
    refine .inl ⟨{ hc.synced with }, hc.root, hc.stored, { hl with }, fun j hj => ?_⟩
    obtain ⟨k, hk⟩ := hc.settled j hj
    exact ⟨k, hk.idle, hk.mem, hk.start, hk.stop, hk.state⟩
  · have hopened : ∀ j ∈ [id], (s.handlers j).status = .opened := by
      intro j hj
      rw [mem_singleton.mp hj]
      exact hb.opened
    rw [traverseList_done s.dirtylist.length hsound hsize hb.listed.done
      (hkept.closed hb.listed fun j hj => hb.dirtylist ▸ mem_append_left _ hj) hopened
      hb.dirtylist]
    have hl := hb.listed.drop s.dirtylist.length
    exact .inr ⟨id, _, ⟨⟨{ hb with }, hb.opened, hb.fits, hb.tiny⟩, { hb.synced with }, hb.handler,
      hb.dirty, rfl, { hl with }, hb.root, hb.pos, hb.unsaved⟩⟩

theorem Busy.deliver (h : s.Busy file id ids) (hfresh : (s.deliver place id).fresh = true)
    (hun : (s.deliver place id).unshared = true) : (s.deliver place id).Busy file id ids := by
  cases hreq : (s.handlers id).request with
  | nil =>
    have heq : s.deliver place id = s := by
      unfold ClientFile.deliver
      simp only [hreq]
    rwa [heq]
  | cons packet request =>
    obtain ⟨hp, p, e, off, heq⟩ := h.pending.deliver hreq hfresh hun
    have hsent := sent_deliver place s id
    have hrequest : ((s.deliver place id).handlers id).request = request := by
      rw [heq, show ((s.accept id packet request p e off).handlers id) = _ from
        Function.update_self ..]
      rfl
    have hfull := h.fits.full packet (hreq ▸ mem_cons_self ..)
    have hpacket : packet.data.length ≤ (s.handlers id).size := by
      have hlen := h.carries.follow.length
      unfold ExtentHandler.queue at hlen
      rw [hreq, cons_append, StreamPacket.bytes_cons, length_append] at hlen
      omega
    have hne : ∀ j ∈ ids, j ≠ id := fun j hj heq => (h.listed.other j hj).1 (heq ▸ h.handler)
    have hothers : ∀ j ∈ ids, (s.deliver place id).handlers j = s.handlers j := fun j hj =>
      hsent.others j (hne j hj)
    refine ⟨⟨hp.toInHand, hsent.status.trans h.opened, ⟨hp.carries.follow, ?_, ?_⟩, ?_⟩,
      ⟨?_, ?_, h.synced.small, ?_⟩, hsent.handler.trans h.handler, hsent.dirty.trans h.dirty,
      hsent.dirtylist.trans h.dirtylist, ⟨fun j hj => ?_, fun j hj => ?_, ?_⟩, ?_, ?_, hp.unsaved⟩
    · intro q hq
      rw [hrequest] at hq
      rw [hsent.storeMode]
      exact h.fits.full q (hreq ▸ mem_cons_of_mem _ hq)
    · intro q hq
      rw [hsent.packet] at hq
      rw [hsent.storeMode]
      exact h.fits.room q hq
    · intro hmode
      rw [hsent.storeMode] at hmode
      rw [hsent.size]
      have hle := (h.tiny hmode).1
      rw [hmode] at hfull
      exact ⟨hle, fun _ => Nat.le_antisymm hle (Nat.le_trans hfull hpacket)⟩
    · rw [hsent.extents, hsent.inode]
      exact h.synced.gen
    · rw [hsent.extents]
      exact h.synced.size
    · intro j hj
      rw [hsent.nextHandler]
      exact h.synced.known j (hsent.handler ▸ hj)
    · unfold Done
      rw [hothers j hj]
      exact h.listed.done j hj
    · rw [hsent.handler, hsent.nextHandler]
      exact h.listed.other j hj
    · rw [keysOf_congr hothers, hsent.inode]
      exact h.listed.stable
    · have hlocal : ((s.deliver place id).handlers id).localKey = (s.handlers id).localKey := by
        unfold ExtentHandler.localKey
        rw [hsent.fileOffset, hsent.size]
      rw [hsent.extents, hsent.inode, hlocal]
      exact h.root
    · rw [hsent.size]
      exact h.pos

/-! ### Runs -/

def Asked (s : ClientFile) : FileEvent → Prop
  | .write data offset | .read data offset =>
    data ≠ [] ∧ data.length ≤ extentSize ∧ offset + data.length < 2 ^ 63
  | .truncate size => size < 2 ^ 63 ∧ s.inode.generation.toNat + 2 < 2 ^ 64
  | _ => True

def Kept (s : ClientFile) : FileEvent → Prop
  | .tick => s.KeysKept
  | _ => True

def Permitted (place : Placement) (s : ClientFile × Bytes) (e : FileEvent) : Prop :=
  s.1.Asked e ∧ (s.1.run place e).fresh = true

/-- A call with bounds that fit, given places that are its own; a tick finds the keys of the
handlers that it drops in the cache. -/
def Sheltered (place : Placement) (s : ClientFile × Bytes) (e : FileEvent) : Prop :=
  Permitted place s e ∧ (s.1.run place e).unshared = true ∧ s.1.Kept e

instance decidableAsked (s : ClientFile) : (e : FileEvent) → Decidable (s.Asked e)
  | .write .. | .read .. | .truncate _ => inferInstanceAs (Decidable (_ ∧ _))
  | .flush | .deliver | .tick => .isTrue trivial

instance decidableKeysKept (s : ClientFile) : Decidable s.KeysKept := by
  unfold KeysKept
  infer_instance

instance decidableKept (s : ClientFile) : (e : FileEvent) → Decidable (s.Kept e)
  | .tick => decidableKeysKept s
  | .write .. | .read .. | .truncate _ | .flush | .deliver => .isTrue trivial

instance decidablePermitted (place : Placement) (s : ClientFile × Bytes) (e : FileEvent) :
    Decidable (Permitted place s e) := inferInstanceAs (Decidable (_ ∧ _))

instance decidableSheltered (place : Placement) (s : ClientFile × Bytes) (e : FileEvent) :
    Decidable (Sheltered place s e) := inferInstanceAs (Decidable (_ ∧ _))

structure Loaded (s : ClientFile) (file : Bytes) : Prop where
  extents : s.extents = ⟨s.inode.generation, file.length, s.inode.extents⟩
  stored : Stored s.inode.extents s.nodes file 0 0
  small : file.length < 2 ^ 63
  handler : s.handler = none
  dirtylist : s.dirtylist = []

theorem Loaded.inv (h : s.Loaded file) : s.Inv file := by
  refine .inl ⟨⟨?_, ?_, h.small, ?_⟩, ?_, h.stored, ?_, ?_⟩
  · rw [h.extents]
  · rw [h.extents]
  · intro id hid
    exact nomatch h.handler.symm.trans hid
  · rw [h.extents]
  · rw [h.dirtylist]
    exact ⟨nofun, nofun, rfl⟩
  · intro id hid
    exact nomatch h.handler.symm.trans hid

theorem Inv.run (h : s.Inv file) (e : FileEvent) (he : Sheltered place (s, file) e) :
    (s.run place e).Inv (e.spec file) := by
  obtain ⟨⟨hasked, hfresh⟩, hun, hkept⟩ := he
  cases e with
  | write data offset => exact (h.write hasked.1 hasked.2.1 hasked.2.2 hfresh hun).2
  | flush => exact .inl (h.flush hfresh hun).1
  | truncate size => exact .inl (h.truncate hasked.1 hasked.2 hfresh hun)
  | read data offset => exact .inl (h.read hasked.1 hfresh hun).2
  | deliver =>
    unfold ClientFile.run at hfresh hun ⊢
    dsimp only at hfresh hun ⊢
    obtain hc | ⟨id, ids, hb⟩ := h
    · cases hid : s.handler with
      | none => exact .inl hc
      | some id =>
        obtain ⟨k, hk⟩ := hc.settled id hid
        have heq : s.deliver place id = s := by
          unfold ClientFile.deliver
          simp only [hk.idle.request]
        dsimp only
        rw [heq]
        exact .inl hc
    · rw [hb.handler] at hfresh hun ⊢
      exact .inr ⟨id, ids, hb.deliver hfresh hun⟩
  | tick => exact h.traverse hkept

/-- In a run without a tick that finds a replaced key and without two tiny writes that share an
extent where they overlap, the file is an array of bytes. -/
theorem reads_and_writes_as_array {place : Placement} {s₀ : ClientFile} {file₀ : Bytes}
    (h₀ : s₀.Loaded file₀) {s : ClientFile × Bytes}
    (h : Reach (step place) (Sheltered place) (s₀, file₀) s) :
    s.1.extents.size = s.2.length ∧ (∀ data offset, Sheltered place s (.read data offset) →
        (s.1.read place data offset).2 = (s.2.drop offset).take data.length) ∧
      ∀ data offset, Sheltered place s (.write data offset) →
        (s.1.write place data offset).2 = (data.length, true) := by
  have hinv : s.1.Inv s.2 := by
    refine h.invariant (P := fun s => s.1.Inv s.2) h₀.inv fun s e s' hs he hstep => ?_
    obtain rfl := Option.some.inj hstep
    exact hs.run e he
  refine ⟨hinv.size, fun data offset he => ?_, fun data offset he => ?_⟩
  · obtain ⟨⟨hasked, hfresh⟩, hun, -⟩ := he
    exact (hinv.read hasked.1 hfresh hun).1
  · obtain ⟨⟨hasked, hfresh⟩, hun, -⟩ := he
    exact (hinv.write hasked.1 hasked.2.1 hasked.2.2 hfresh hun).1

def empty : ClientFile where
  inode := InodeOf.new OrdTree.empty 5 0 0
  nodes _ _ := []
  extents := ⟨1, 0, OrdTree.empty⟩
  handlers _ := .new 0 .normal
  nextHandler := 0
  handler := none
  dirtylist := []
  dirty := false
  fresh := true
  unshared := true

theorem loaded_empty : empty.Loaded [] where
  extents := rfl
  stored := ⟨⟨OrdTree.spans_empty, nofun⟩, nofun, nofun, nofun, nofun, nofun, nofun, nofun⟩
  small := by decide
  handler := rfl
  dirtylist := rfl

def newExtent : Placement := fun s _ _ =>
  ⟨1, ((List.range 64).map fun n => UInt64.ofNat (n + 1)).find? (fun e => s.nodes 1 e = [])
    |>.getD 1, 0⟩

def oneExtent : Placement := fun s _ _ => ⟨1, 1, 4096 * ((s.nodes 1 1).length / 4096 + 1)⟩

theorem reads_and_writes_as_array_overwritten : ∃ s : ClientFile × Bytes,
    Reach (step newExtent) (Sheltered newExtent) (empty, []) s ∧
      s.2 = [1, 7, 7, 4, 0, 9] ∧ s.1.extents.size = 6 ∧
      ((s.1.read newExtent (replicate 8 0) 1).2 = [7, 7, 4, 0, 9]) := by
  obtain ⟨s, hreach, hs⟩ := Reach.exists_checked (step newExtent) (Sheltered newExtent) (empty, [])
    [.write [1, 2, 3, 4] 0, .flush, .write [7, 7] 1, .tick, .write [9] 5]
    (fun s => decide (s.2 = [1, 7, 7, 4, 0, 9]) &&
      decide (Sheltered newExtent s (.read (replicate 8 0) 1))) (by decide +kernel)
  obtain ⟨hfile, hread⟩ := Bool.and_eq_true_iff.mp hs
  have hfile := of_decide_eq_true hfile
  obtain ⟨hsize, hreads, -⟩ := reads_and_writes_as_array loaded_empty hreach
  have hread := hreads _ _ (of_decide_eq_true hread)
  rw [hfile] at hsize hread
  exact ⟨s, hreach, hfile, hsize, hread⟩

/-- A tick puts the key of a closed handler in the cache again, over that of a later write; and two
tiny writes in one extent leave the old key on the meta node. -/
theorem read_old_bytes :
    (∃ s : ClientFile × Bytes, Reach (step newExtent) (Permitted newExtent) (empty, []) s ∧
      Permitted newExtent s (.read (replicate 20 0) 0) ∧
      (s.1.read newExtent (replicate 20 0) 0).2 ≠ (s.2.drop 0).take 20) ∧
    ∃ s : ClientFile × Bytes, Reach (step oneExtent) (Permitted oneExtent) (empty, []) s ∧
      Permitted oneExtent s (.read (replicate 8 0) 6) ∧
      (s.1.read oneExtent (replicate 8 0) 6).2 ≠ (s.2.drop 6).take 8 := by
  constructor
  · obtain ⟨s, hreach, hs⟩ := Reach.exists_checked (step newExtent) (Permitted newExtent)
      (empty, []) [.write (replicate 10 1) 0, .write (replicate 20 2) 0, .tick,
        .write (replicate 2 3) 10]
      (fun s => decide (Permitted newExtent s (.read (replicate 20 0) 0)) &&
        decide ((s.1.read newExtent (replicate 20 0) 0).2 ≠ (s.2.drop 0).take 20))
      (by decide +kernel)
    obtain ⟨hread, hne⟩ := Bool.and_eq_true_iff.mp hs
    exact ⟨s, hreach, of_decide_eq_true hread, of_decide_eq_true hne⟩
  · obtain ⟨s, hreach, hs⟩ := Reach.exists_checked (step oneExtent) (Permitted oneExtent)
      (empty, []) [.write (replicate 5 1) 5, .write (replicate 15 2) 0, .truncate 14]
      (fun s => decide (Permitted oneExtent s (.read (replicate 8 0) 6)) &&
        decide ((s.1.read oneExtent (replicate 8 0) 6).2 ≠ (s.2.drop 6).take 8))
      (by decide +kernel)
    obtain ⟨hread, hne⟩ := Bool.and_eq_true_iff.mp hs
    exact ⟨s, hreach, of_decide_eq_true hread, of_decide_eq_true hne⟩

end ClientFile
end ChubaoFS
