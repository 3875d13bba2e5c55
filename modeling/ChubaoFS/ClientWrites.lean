import ChubaoFS.ClientFlush

namespace ChubaoFS

open Bytes Nat List ExtentHandler
open ExtentKey (stop)
open Option (some)
open StreamPacket (bytes)

/-! A write changes the file as it would change an array of bytes. -/

variable {offset : Nat}

theorem ExtentHandler.of_write {eh : ExtentHandler} {data : Bytes} {r : ExtentHandler × ExtentKey}
    (h : eh.write data offset = some r) :
    eh.status = .opened ∧ eh.fileOffset + eh.size = offset ∧ eh.size + data.length ≤ extentSize ∧
      (eh.storeMode = .tiny → eh.size + data.length ≤ tinySizeLimit) := by
  unfold write at h
  split at h
  · cases h
  rename_i hopen
  split at h
  · cases h
  next hroom =>
    rw [not_or, not_or, not_and] at hroom
    exact ⟨not_not.mp hopen, not_not.mp hroom.1, Nat.le_of_not_lt hroom.2.1,
      fun hmode => Nat.le_of_not_lt (hroom.2.2 hmode)⟩

namespace ClientFile

variable {place : Placement} {s : ClientFile} {file data : Bytes} {id a b : Nat} {k : ExtentKey}

def took (s : ClientFile) (id : Nat) (eh : ExtentHandler) : ClientFile :=
  { s.setHandler id eh with
    dirtylist := if s.dirty then s.dirtylist else s.dirtylist ++ [id]
    dirty := true
    extents := s.extents.append eh.localKey false }

theorem tryWrite_succ (place : Placement) (hid : s.handler = some id) (mode : StoreMode) (n : Nat) :
    s.tryWrite place data a mode (n + 1) = match (s.handlers id).write data a with
      | none => (s.closeOpenHandler place).tryWrite place data a mode n
      | some (eh, ek) => ({ s.setHandler id eh with
          dirtylist := if s.dirty then s.dirtylist else s.dirtylist ++ [id], dirty := true
          extents := s.extents.append ek false }, true) := by
  rw [ClientFile.tryWrite]
  dsimp only
  rw [if_neg (by rw [hid]; nofun)]
  cases hwrite : (s.handlers id).write data a <;> simp [hid, hwrite]

variable {ids : List Nat} {root : ExtentsTree}

theorem Listed.took (h : s.Listed file ids) (hid : s.handler = some id) (eh : ExtentHandler)
    {file' : Bytes} (hle : file.length ≤ file'.length) : (s.took id eh).Listed file' ids := by
  have hl := h.setHandler hid eh
  refine { hl with done := fun j hj => ?_ }
  obtain ⟨hclosed, k, hidle, hend⟩ := hl.done j hj
  exact ⟨hclosed, k, hidle, le_trans hend hle⟩

theorem keeps_lay_hole (hhole : ExtentCache.WritePart root a b none) (hab : a < b) (hle : k.key ≤ a)
    (hstop : k.stop = b) : Keeps b root (root.lay stop k) := by
  intro c d hd
  constructor
  · rintro ⟨x, hx, hxc, hxd⟩
    have := hhole x hx
    exact ⟨x, OrdTree.mem_lay.mpr (.inr ⟨hx, by omega, by omega⟩), hxc, hxd⟩
  · rintro ⟨x, hx, hxc, hxd⟩
    obtain rfl | ⟨hx, -⟩ := OrdTree.mem_lay.mp hx
    · omega
    · exact ⟨x, hx, hxc, hxd⟩

/-- All of a normal extent is its handler's. -/
theorem Ready.other_extent {d : ExtentKey} (h : s.Ready file id)
    (hk : (s.handlers id).key = some k) (hmode : (s.handlers id).storeMode = .normal)
    (hd : d ∈ s.inode.extents.items)
    (hbehind : (s.handlers id).fileOffset + (s.handlers id).size ≤ d.key) :
    d.sameExtent k = false := by
  obtain ⟨-, hoff, hlen⟩ := h.carries.grows hmode k hk
  have hsep := h.apart k hk d hd (.inr (by omega))
  have hdpos := h.stored.sound.spans.pos d hd
  have hdin := h.stored.within d hd
  have hdstop : d.stop = d.key + d.size.toNat := rfl
  unfold ExtentKey.sameExtent
  rw [Bool.and_eq_false_iff, beq_eq_false_iff_ne, beq_eq_false_iff_ne]
  by_contra hboth
  obtain ⟨hp, he⟩ : d.partitionId = k.partitionId ∧ d.extentId = k.extentId := by
    rw [not_or, not_not, not_not] at hboth
    exact hboth
  have := hsep hp.symm he.symm
  unfold ExtentKey.Within at hdin
  rw [hp, he] at hdin
  rw [hoff, UInt64.toNat_zero] at this
  omega

section

variable (h : s.Ready file id) (hne : data ≠ [])
  (ha : (s.handlers id).fileOffset + (s.handlers id).size = a) (hb : b = a + data.length)
  (hbig : (s.handlers id).size + data.length ≤ extentSize)
  (htiny : (s.handlers id).storeMode = .tiny →
    (s.handlers id).size + data.length ≤ tinySizeLimit) (hsmall : b < 2 ^ 63)
  (hhole : ∀ d ∈ s.inode.extents.items, d.stop ≤ (s.handlers id).fileOffset ∨ a ≤ d.key →
    d.stop ≤ a ∨ b ≤ d.key ∨ a ≤ d.key ∧ d.stop ≤ b)
include h hne ha hb hbig htiny hsmall hhole

theorem Ready.write : ∃ eh, (s.handlers id).write data a = some (eh, eh.localKey) ∧
      eh.fileOffset = (s.handlers id).fileOffset ∧
      eh.size = (s.handlers id).size + data.length ∧ eh.queue ≠ [] ∧
      (s.setHandler id eh).Ready (writeAt file data a) id := by
  have hpos : 0 < data.length := List.length_pos_iff.mpr hne
  have hc := h.carries
  have hfits := h.fits
  rw [ha] at hfits
  obtain ⟨request, packet, hfill, hfits', hbytes⟩ := hfits.fill data.length (Nat.le_refl _)
  obtain ⟨eh, heh⟩ : ∃ eh : ExtentHandler, eh = { s.handlers id with
      request := request, packet := packet, size := (s.handlers id).size + data.length } := ⟨_, rfl⟩
  have hqueue : bytes eh.queue = bytes (s.handlers id).queue ++ data := by
    rw [heh]
    exact hbytes
  have hf : eh.fileOffset = (s.handlers id).fileOffset := by rw [heh]
  have hn : eh.size = (s.handlers id).size + data.length := by rw [heh]
  have hm : eh.storeMode = (s.handlers id).storeMode := by rw [heh]
  have hkey : eh.key = (s.handlers id).key := by rw [heh]
  have hext : eh.extent = (s.handlers id).extent := by rw [heh]
  have hacked : eh.acked = (s.handlers id).acked := by
    unfold ExtentHandler.acked
    rw [hkey]
  have hfitsEh : eh.Fits (eh.fileOffset + eh.acked) (eh.fileOffset + eh.size) := by
    rw [hf, hn, hacked, ← Nat.add_assoc, ha, heh]
    exact { hfits' with }
  have hqne : eh.queue ≠ [] := by
    intro hnil
    rw [hnil, StreamPacket.bytes_nil] at hqueue
    exact hne (List.append_eq_nil_iff.mp hqueue.symm).2
  have htotal := hc.follow.length
  -- a handler for a tiny extent that sent its packet has no room left
  have hunsent : (s.handlers id).storeMode = .tiny → (s.handlers id).key = none := by
    intro hmode
    by_contra hsome
    have := (h.tiny hmode).2 hsome
    have := htiny hmode
    omega
  refine ⟨eh, ?_, hf, hn, hqne, ⟨⟨?_, ?_, ?_, ?_⟩, ?_, ?_, ?_⟩⟩
  · unfold ExtentHandler.write
    rw [if_neg (not_not_intro h.opened), if_neg, hfill, heh]
    rintro (hoff | hlimit | ⟨hmode, hlimit⟩)
    · exact hoff ha
    · omega
    · have := htiny hmode
      omega
  all_goals rw [setHandler_handlers]
  · rw [hf, hn, ← Nat.add_assoc, ha, ← hb]
    have hstored := h.stored
    rw [ha] at hstored
    exact hstored.extend (by omega) hb hhole
  · refine ⟨hfitsEh.follow, fun j hj => ?_, ?_, ?_, ?_, ?_, ?_, ?_⟩
    · rw [hqueue] at hj ⊢
      rw [hf, hacked, getD_writeAt]
      rw [List.length_append] at hj
      by_cases hold : j < (bytes (s.handlers id).queue).length
      · rw [if_neg (by omega), List.getD_append _ _ _ _ hold]
        exact hc.queued j hold
      rw [if_pos (by omega), List.getD_append_right _ _ _ _ (by omega)]
      congr 1
      omega
    · rw [hf, hn]
      exact ⟨by omega, hbig⟩
    · intro _
      rw [hf, hn, length_writeAt]
      omega
    · intro k hk
      rw [hkey] at hk
      obtain ⟨hkf, hknown, hkpos, hwithin, hholds⟩ := hc.keyed k hk
      refine ⟨hkf.trans hf.symm, hknown, hkpos, hwithin, hholds.congr fun i hi hlt => ?_⟩
      have hstop : k.stop = k.key + k.size.toNat := rfl
      have := ExtentHandler.acked_of_key hk
      rw [getD_writeAt, if_neg (by omega)]
    · intro hmode k hk
      rw [hext]
      exact hc.grows (hm ▸ hmode) k (hkey ▸ hk)
    · intro hnone
      rw [hext]
      exact hc.unplaced (hkey ▸ hnone)
    · intro hmode
      have hnone := hunsent (hm ▸ hmode)
      have hle := hfitsEh.length_queue_le (by
        have := htiny (hm ▸ hmode)
        rw [hmode, hn]
        change _ ≤ _ + tinySizeLimit
        omega)
      have hqpos := List.length_pos_iff.mpr hqne
      exact .inr ⟨hkey.trans hnone, by omega⟩
  · intro k hk d hd hout
    rw [hkey] at hk
    rw [hf, hn] at hout
    exact h.apart k hk d hd (by omega)
  · intro k hk d hd hfrom hto
    rw [hkey] at hk
    rw [hf] at hfrom hto
    by_cases hold : d.key < (s.handlers id).fileOffset + (s.handlers id).size
    · exact h.unshared k hk d hd hfrom hold
    have hmode : (s.handlers id).storeMode = .normal := by
      cases hmode : (s.handlers id).storeMode with
      | normal => rfl
      | tiny =>
        rw [hunsent hmode] at hk
        cases hk
    exact h.other_extent hk hmode hd (by omega)
  · rw [heh]
    exact h.opened
  · exact hfitsEh
  · intro hmode
    refine ⟨?_, fun hsome => ?_⟩
    · rw [hn]
      exact htiny (hm ▸ hmode)
    · exact absurd (hkey.trans (hunsent (hm ▸ hmode))) hsome

theorem Ready.took (hsynced : s.Synced file) (hid : s.handler = some id)
    (hlisted : s.Listed file ids)
    (hlist : (if s.dirty then s.dirtylist else s.dirtylist ++ [id]) = ids ++ [id])
    (hroot : ∀ k : ExtentKey, k.key = (s.handlers id).fileOffset → a ≤ k.stop →
      s.extents.root.lay stop k = s.inode.extents.lay stop k)
    (hpart : ExtentCache.WritePart s.extents.root a b none) :
    ∃ eh, (s.handlers id).write data a = some (eh, eh.localKey) ∧
      (s.took id eh).Busy (writeAt file data a) id ids ∧
      Keeps b s.extents.root (s.took id eh).extents.root := by
  obtain ⟨eh, hwrite, hf, hn, hqueue, hready⟩ := h.write hne ha hb hbig htiny hsmall hhole
  have hpos : 0 < data.length := length_pos_iff.mpr hne
  have hself : (s.took id eh).handlers id = eh := setHandler_handlers s id eh
  obtain ⟨hkey, hstop⟩ : eh.localKey.key = (s.handlers id).fileOffset ∧ eh.localKey.stop = b := by
    obtain ⟨hkey, hstop⟩ := localKey_span (show eh.fileOffset + eh.size < 2 ^ 63 by omega)
      (by omega)
    exact ⟨hkey.trans hf, by omega⟩
  have hextents : (s.took id eh).extents.root = s.extents.root.lay stop eh.localKey :=
    ExtentCache.root_append (by omega)
  have htook : (s.took id eh).Ready (writeAt file data a) id :=
    ⟨{ hready with }, hready.opened, hready.fits, hready.tiny⟩
  refine ⟨eh, hwrite, ⟨htook, ?_, hid, rfl, hlist, ?_, ?_, ?_, ?_⟩, ?_⟩
  · refine ⟨hsynced.gen, ?_, ?_, hsynced.known⟩
    · refine (ExtentCache.size_append (by omega)).trans ?_
      rw [hsynced.size, hstop, length_writeAt, hb]
    · have := hsynced.small
      rw [length_writeAt]
      omega
  · refine hlisted.took hid eh ?_
    rw [length_writeAt]
    exact le_max_left _ _
  · rw [hextents, hself]
    exact hroot _ hkey (by omega)
  · rw [hself, hn]
    omega
  · rw [hself]
    exact .inl hqueue
  · rw [hextents]
    exact keeps_lay_hole hpart (by omega) (by omega) hstop

end

theorem Settled.ready (h : s.Clean file) (hk : s.Settled id k)
    (hopen : (s.handlers id).status = .opened) : s.Ready file id := by
  obtain ⟨-, hmode, hbig, hext, hoff, hlen⟩ := (hk.state.resolve_left (by
    rw [hopen]
    nofun)).2
  have hst := h.stored
  have hpos := hst.sound.spans.pos k hk.mem
  have hend := hst.ends k hk.mem
  have hsmall := h.synced.small
  have hstart := hk.start
  have hstop := hk.stop
  have hsize : k.stop = k.key + k.size.toNat := rfl
  have hqueue : (s.handlers id).queue = [] := by
    unfold queue
    rw [hk.idle.request, hk.idle.packet]
    rfl
  have hkey : ∀ k', (s.handlers id).key = some k' → k' = k := fun k' hk' =>
    some.inj (hk'.symm.trans hk.idle.key)
  have hacked := acked_of_key hk.idle.key
  have hfollow : StreamPacket.Follow ((s.handlers id).fileOffset + (s.handlers id).acked)
      (s.handlers id).queue ((s.handlers id).fileOffset + (s.handlers id).size) := by
    rw [hqueue]
    change _ = _
    omega
  have hclear : ∀ d ∈ s.inode.extents.items, d ≠ k → d.stop ≤ k.key ∨ k.stop ≤ d.key := by
    intro d hd hne
    have := hst.sound.apart d hd k hk.mem hne
    unfold ExtentKey.Apart OrdTree.Apart at this
    omega
  refine ⟨⟨?_, ⟨hfollow, ?_, ⟨by omega, hbig⟩, fun _ => by omega, ?_, ?_, ?_, ?_⟩, ?_, ?_⟩, hopen,
    ⟨hfollow, ?_, ?_⟩, ?_⟩
  · refine hst.except fun d hd => ?_
    by_cases hd' : d = k
    · rw [hd']
      omega
    · have := hclear d hd hd'
      omega
  · intro j hj
    rw [hqueue] at hj
    cases hj
  · intro k' hk'
    rw [hkey k' hk']
    exact ⟨hstart, hst.known k hk.mem, by omega, hst.within k hk.mem,
      hst.holds k hk.mem (.inr (zero_le _))⟩
  · intro _ k' hk'
    rw [hkey k' hk']
    exact ⟨hext, hoff, hlen⟩
  · intro hnone
    rw [hk.idle.key] at hnone
    cases hnone
  · exact fun _ => .inl hqueue
  · intro k' hk' d hd hout
    rw [hkey k' hk']
    refine hst.separate k hk.mem d hd fun heq => ?_
    rw [← heq] at hout
    omega
  · intro k' hk' d hd hfrom hto
    have hne : d ≠ k := fun heq => by
      rw [heq] at hfrom
      omega
    have := hclear d hd hne
    have := hst.sound.spans.pos d hd
    omega
  · intro packet hp
    rw [hk.idle.request] at hp
    cases hp
  · intro packet hp
    rw [hk.idle.packet] at hp
    cases hp
  · intro htiny
    rw [hmode] at htiny
    cases htiny

theorem Clean.newHandler (h : s.Clean file) (hsmall : a < 2 ^ 63)
    (hhole : ∀ d ∈ s.inode.extents.items, d.stop ≤ a ∨ a ≤ d.key) (mode : StoreMode) :
    (s.newHandler a mode).Ready file s.nextHandler ∧ (s.newHandler a mode).Synced file ∧
      (s.newHandler a mode).Listed file s.dirtylist := by
  have hself : (s.newHandler a mode).handlers s.nextHandler = .new a mode :=
    setHandler_handlers s s.nextHandler _
  have hsame : ∀ j ∈ s.dirtylist, (s.newHandler a mode).handlers j = s.handlers j := fun j hj =>
    setHandler_handlers_ne s (Nat.ne_of_lt (h.listed.other j hj).2) _
  refine ⟨⟨⟨?_, ?_, ?_, ?_⟩, ?_, ?_, ?_⟩, { h.synced with known := ?_ },
    fun j hj => ?_, fun j hj => ⟨fun heq => ?_, ?_⟩, ?_⟩
  · rw [hself]
    refine h.stored.except fun d hd => ?_
    obtain hd | hd := hhole d hd
    · exact .inl hd
    · exact .inr (.inl hd)
  · rw [hself]
    exact ⟨rfl, nofun, ⟨hsmall, Nat.zero_le _⟩, nofun, nofun, nofun, fun _ => rfl,
      fun _ => .inl rfl⟩
  · rw [hself]
    nofun
  · rw [hself]
    nofun
  · rw [hself]
    rfl
  · rw [hself]
    exact ⟨rfl, nofun, nofun⟩
  · rw [hself]
    exact fun _ => ⟨Nat.zero_le _, fun hsome => absurd rfl hsome⟩
  · intro j hj
    obtain rfl := some.inj (show some s.nextHandler = some j from hj)
    exact Nat.lt_succ_self _
  · unfold Done
    rw [hsame j hj]
    exact h.listed.done j hj
  · have := (h.listed.other j hj).2
    obtain rfl := some.inj (show some s.nextHandler = some j from heq)
    exact Nat.lt_irrefl _ this
  · exact Nat.lt_succ_of_lt (h.listed.other j hj).2
  · rw [keysOf_congr hsame]
    exact h.listed.stable

theorem Busy.mem_root (h : s.Busy file id ids) (d : ExtentKey) :
    d ∈ s.extents.root.items ↔ d = (s.handlers id).localKey ∨ d ∈ s.inode.extents.items ∧
      (d.stop ≤ (s.handlers id).fileOffset ∨
        (s.handlers id).fileOffset + (s.handlers id).size ≤ d.key) := by
  obtain ⟨hkey, hstop⟩ := h.span
  have hpos := h.pos
  rw [h.root, h.stored.sound.spans.mem_lay_of_cover (by omega)]
  · unfold OrdTree.Apart
    rw [hkey, hstop]
  · intro d hd
    have := h.stored.clear d hd
    unfold OrdTree.Apart
    omega

theorem Inv.sound (h : s.Inv file) : s.extents.root.Sound := by
  obtain hc | ⟨id, ids, hb⟩ := h
  · rw [hc.root]
    exact hc.stored.sound
  · obtain ⟨hkey, hstop⟩ := hb.span
    have hpos := hb.pos
    have hsmall := hb.carries.small.1
    refine ⟨hb.stored.sound.spans.put (a := (s.handlers id).localKey) (by omega) fun d => ?_,
      fun d hd => ?_⟩
    · rw [hb.mem_root]
      unfold OrdTree.Apart
      rw [hkey, hstop]
    · obtain rfl | ⟨hd, -⟩ := (hb.mem_root d).mp hd
      · omega
      · exact hb.stored.sound.small d hd

def Written (s : ClientFile) (file data : Bytes) (a : Nat) (r : ClientFile × Bool) : Prop :=
  r.2 = true ∧ r.1.Inv (writeAt file data a) ∧
    Keeps (a + data.length) s.extents.root r.1.extents.root

section Hole

variable (hne : data ≠ []) (hbig : data.length ≤ extentSize) (hsmall : a + data.length < 2 ^ 63)

include hne hbig hsmall

theorem Clean.tryWrite (h : s.Clean file) (hnone : s.handler = none) (n : Nat)
    (hpart : ExtentCache.WritePart s.extents.root a (a + data.length) none) {mode : StoreMode}
    (hmode : mode = .tiny → data.length ≤ tinySizeLimit) :
    s.Written file data a (s.tryWrite place data a mode (n + 1)) := by
  have hself : (s.newHandler a mode).handlers s.nextHandler = .new a mode :=
    setHandler_handlers s s.nextHandler _
  have hclear : ∀ d ∈ s.inode.extents.items,
      d.stop ≤ a ∨ a + data.length ≤ d.key ∨ a ≤ d.key ∧ d.stop ≤ a + data.length := by
    intro d hd
    rw [← h.root] at hd
    exact hpart d hd
  obtain ⟨hready, hsynced, hlisted⟩ := h.newHandler (show a < 2 ^ 63 by omega)
    (fun d hd => by have := hclear d hd; omega) mode
  obtain ⟨eh, hwrite, hbusy, hkeeps⟩ := hready.took hne
    (by rw [hself]; rfl) rfl (by rw [hself]; exact (zero_add _).trans_le hbig)
    (by rw [hself]; exact fun hm => (zero_add _).trans_le (hmode hm)) hsmall
    (fun d hd _ => hclear d hd) hsynced rfl hlisted rfl
    (fun k _ _ => by rw [show (s.newHandler a mode).extents.root = _ from h.root]; rfl) hpart
  have hfirst : s.tryWrite place data a mode (n + 1) =
      (s.newHandler a mode).tryWrite place data a mode (n + 1) := by
    rw [ClientFile.tryWrite, ClientFile.tryWrite]
    dsimp only
    rw [if_pos hnone, if_neg nofun]
  rw [hfirst, tryWrite_succ place rfl, hwrite]
  exact ⟨rfl, .inr ⟨_, _, hbusy⟩, hkeeps⟩

theorem Inv.doWrite (h : s.Inv file)
    (hpart : ExtentCache.WritePart s.extents.root a (a + data.length) none)
    (hfresh : (s.doWrite place data a).1.fresh = true)
    (hun : (s.doWrite place data a).1.unshared = true) :
    s.Written file data a (s.doWrite place data a) := by
  have hmode : (if tinySizeLimit < a + data.length then StoreMode.normal else .tiny) = .tiny →
      data.length ≤ tinySizeLimit := by
    split
    · nofun
    · exact fun _ => by omega
  unfold ClientFile.doWrite at hfresh hun ⊢
  cases hid : s.handler with
  | none =>
    obtain hc | ⟨id, ids, hb⟩ := h
    · exact hc.tryWrite hne hbig hsmall hid 2 hpart hmode
    · rw [hb.handler] at hid
      cases hid
  | some id =>
    rw [tryWrite_succ place hid] at hfresh hun ⊢
    cases hwrite : (s.handlers id).write data a with
    | none =>
      rw [hwrite] at hfresh hun
      dsimp only at hfresh hun ⊢
      have hlater := (steps_later place).tryWrite data a
        (if tinySizeLimit < a + data.length then StoreMode.normal else .tiny) 2
        (s.closeOpenHandler place)
      obtain ⟨hc, hnone, -, hkeeps⟩ := h.closeOpenHandler (hlater.1 hfresh) (hlater.2 hun)
      have hpart' : ExtentCache.WritePart (s.closeOpenHandler place).extents.root a
          (a + data.length) none := by
        intro d hd
        by_cases hpos : 0 < d.stop
        · obtain ⟨x, hx, hkey, hstop⟩ := (hkeeps d.key d.stop hpos).mpr ⟨d, hd, rfl, rfl⟩
          have := hpart x hx
          omega
        · exact .inl (by omega)
      obtain ⟨hok, hinv, hkeeps'⟩ : (s.closeOpenHandler place).Written file data a
          ((s.closeOpenHandler place).tryWrite place data a _ 2) :=
        hc.tryWrite hne hbig hsmall hnone 1 hpart' hmode
      exact ⟨hok, hinv, hkeeps.trans (zero_le _) hkeeps'⟩
    | some r =>
      obtain ⟨hopen, hend, hroom, htiny⟩ := of_write hwrite
      obtain ⟨eh, hw, hbusy, hkeeps⟩ : ∃ eh, (s.handlers id).write data a = some (eh, eh.localKey) ∧
          (∃ ids, (s.took id eh).Busy (writeAt file data a) id ids) ∧
          Keeps (a + data.length) s.extents.root (s.took id eh).extents.root := by
        obtain hc | ⟨id', ids, hb⟩ := h
        · obtain ⟨k, hk⟩ := hc.settled id hid
          have hdirty := (hk.state.resolve_left (by rw [hopen]; nofun)).2.1
          obtain ⟨eh, hw, hbusy, hkeeps⟩ := (hk.ready hc hopen).took hne hend rfl hroom htiny
            hsmall (fun d hd _ => hpart d (hc.root ▸ hd)) hc.synced hid hc.listed
            (by rw [hdirty]; rfl) (fun k _ _ => by rw [hc.root]) hpart
          exact ⟨eh, hw, ⟨_, hbusy⟩, hkeeps⟩
        · obtain rfl := some.inj (hid.symm.trans hb.handler)
          obtain ⟨hkey, hstop⟩ := hb.span
          have hpos := hb.pos
          obtain ⟨eh, hw, hbusy, hkeeps⟩ := hb.toReady.took hne hend rfl hroom htiny
            hsmall (fun d hd hout => hpart d ((hb.mem_root d).mpr (.inr ⟨hd, by omega⟩)))
            hb.synced hid hb.listed (by rw [hb.dirty, if_pos rfl, hb.dirtylist])
            (fun k hk hks => by
              rw [hb.root]
              exact OrdTree.lay_lay (by omega) (by omega) (by omega)) hpart
          exact ⟨eh, hw, ⟨_, hbusy⟩, hkeeps⟩
      obtain ⟨ids, hbusy⟩ := hbusy
      obtain rfl := some.inj (hwrite.symm.trans hw)
      exact ⟨rfl, .inr ⟨id, ids, hbusy⟩, hkeeps⟩

end Hole

/-! ### Overwrites in place -/

theorem writeNode_nil {p e : UInt64} {off : Nat} (h : off ≤ (s.nodes p e).length) :
    s.writeNode p e [] off = s := by
  have hnodes : (fun p' e' => if p' = p ∧ e' = e then writeAt (s.nodes p e) [] off
      else s.nodes p' e') = s.nodes := by
    funext p' e'
    split
    next heq => rw [heq.1, heq.2, Bytes.writeAt_nil h]
    · rfl
  unfold writeNode
  rw [hnodes]

theorem writeNode_writeNode (s : ClientFile) (p e : UInt64) (d₁ d₂ : Bytes) (off : Nat) :
    (s.writeNode p e d₁ off).writeNode p e d₂ (off + d₁.length) =
      s.writeNode p e (d₁ ++ d₂) off := by
  have hnodes : (fun p' e' => if p' = p ∧ e' = e then
      writeAt ((s.writeNode p e d₁ off).nodes p e) d₂ (off + d₁.length)
      else (s.writeNode p e d₁ off).nodes p' e') = (s.writeNode p e (d₁ ++ d₂) off).nodes := by
    funext p' e'
    rw [nodes_writeNode_self, writeAt_writeAt]
    unfold writeNode
    dsimp only
    split
    · rfl
    · rfl
  change ({ s with nodes := _ } : ClientFile) = _
  rw [hnodes]
  rfl

theorem overwritePackets_eq (p e : UInt64) (fuel : Nat) (s : ClientFile) (off : Nat)
    (data : Bytes) (hfuel : data.length ≤ fuel) (hlen : off + data.length ≤ (s.nodes p e).length) :
    s.overwritePackets p e off fuel data = s.writeNode p e data off := by
  induction fuel generalizing s off data with
  | zero =>
    obtain rfl := length_eq_zero_iff.mp (le_zero.mp hfuel)
    exact (writeNode_nil hlen).symm
  | succ fuel ih =>
    unfold ClientFile.overwritePackets
    split
    next hnil =>
      rw [hnil] at hlen ⊢
      exact (writeNode_nil hlen).symm
    rename_i hne
    have hpos : 0 < data.length := length_pos_iff.mpr hne
    have hblock : 0 < blockSize := by decide
    have htake : (data.take (min data.length blockSize)).length = min data.length blockSize := by
      rw [length_take]
      omega
    have hjoin := writeNode_writeNode s p e (data.take (min data.length blockSize))
      (data.drop (min data.length blockSize)) off
    rw [htake, take_append_drop] at hjoin
    dsimp only
    rw [ih]
    · exact hjoin
    · rw [length_drop]
      omega
    · rw [nodes_writeNode_self, length_writeAt, length_drop]
      omega

theorem Clean.overwrite (h : s.Clean file) (hk : k ∈ s.inode.extents.items) (hle : k.key ≤ a)
    (hend : a + data.length ≤ k.stop) :
    (s.writeNode k.partitionId k.extentId data (a - k.key + k.extentOffset.toNat)).Clean
      (writeAt file data a) := by
  have hstop : k.stop = k.key + k.size.toNat := rfl
  have hends := h.stored.ends k hk
  have hwithin := h.stored.within k hk
  unfold ExtentKey.Within at hwithin
  have hlen : (writeAt file data a).length = file.length := by
    rw [length_writeAt]
    omega
  have hnodes (p e : UInt64) : ((s.writeNode k.partitionId k.extentId data
      (a - k.key + k.extentOffset.toNat)).nodes p e).length = (s.nodes p e).length := by
    unfold writeNode
    dsimp only
    split
    next heq =>
      rw [length_writeAt, heq.1, heq.2]
      omega
    · rfl
  refine ⟨⟨h.synced.gen, ?_, ?_, h.synced.known⟩, h.root, h.stored.overwrite hk hle hend, ?_, ?_⟩
  · rw [hlen]
    exact h.synced.size
  · rw [hlen]
    exact h.synced.small
  · refine { h.listed with done := fun j hj => ?_ }
    unfold Done
    rw [hlen]
    exact h.listed.done j hj
  · intro j hj
    obtain ⟨k', hk'⟩ := h.settled j hj
    refine ⟨k', hk'.idle, hk'.mem, hk'.start, hk'.stop, ?_⟩
    rw [hnodes]
    exact hk'.state

theorem Inv.doOverwrite (h : s.Inv file) {c d : Nat} (hspan : HasSpan s.extents.root c d)
    (hne : data ≠ []) (hle : c ≤ a) (hend : a + data.length ≤ d)
    (hfresh : (s.doOverwrite place data a).1.fresh = true)
    (hun : (s.doOverwrite place data a).1.unshared = true) :
    s.Written file data a (s.doOverwrite place data a) := by
  have hpos : 0 < data.length := length_pos_iff.mpr hne
  have hflags : (s.doOverwrite place data a).1.fresh = (s.flush place).fresh ∧
      (s.doOverwrite place data a).1.unshared = (s.flush place).unshared := by
    have hpackets (p e : UInt64) (fuel : Nat) (t : ClientFile) (off : Nat) (bs : Bytes) :
        (t.overwritePackets p e off fuel bs).fresh = t.fresh ∧
          (t.overwritePackets p e off fuel bs).unshared = t.unshared := by
      induction fuel generalizing t off bs with
      | zero => exact ⟨rfl, rfl⟩
      | succ fuel ih =>
        unfold ClientFile.overwritePackets
        split
        · exact ⟨rfl, rfl⟩
        · exact ih ..
    unfold ClientFile.doOverwrite
    dsimp only
    split
    · exact ⟨rfl, rfl⟩
    split
    · exact ⟨rfl, rfl⟩
    · exact hpackets ..
  obtain ⟨hc, hkeeps⟩ := h.flush (hflags.1 ▸ hfresh) (hflags.2 ▸ hun)
  obtain ⟨k, hk, rfl, rfl⟩ := (hkeeps c d (by omega)).mp hspan
  have hget : (s.flush place).extents.get a = some k := by
    refine (ExtentCache.get_eq_some_iff ?_).mpr ⟨hk, hle, by omega⟩
    rw [hc.root]
    exact hc.stored.sound
  rw [hc.root] at hk
  have hstop : k.stop = k.key + k.size.toNat := rfl
  have hwithin := hc.stored.within k hk
  unfold ExtentKey.Within at hwithin
  have heq : s.doOverwrite place data a = ((s.flush place).writeNode k.partitionId k.extentId data
        (a - k.key + k.extentOffset.toNat), true) := by
    unfold ClientFile.doOverwrite
    dsimp only
    rw [hget]
    dsimp only
    rw [if_neg (hc.stored.known k hk), overwritePackets_eq _ _ _ _ _ _ (le_refl _) (by omega)]
  rw [heq]
  exact ⟨rfl, .inl (hc.overwrite hk hle hend), hkeeps.trans (zero_le _) (.refl _ _)⟩

/-! ### All requests of a write -/

theorem Inv.writeRequest {req : ExtentRequest} {p m : Nat} (h : s.Inv file)
    (hpart : ExtentCache.WritePart root p m req.extentKey) (hkeeps : Keeps p root s.extents.root)
    (hpm : p < m) (hoffset : req.fileOffset = p) (hlen : p + req.data.length = m)
    (hbig : req.data.length ≤ extentSize) (hsmall : m < 2 ^ 63)
    (hfresh : (s.writeRequest place req).1.fresh = true)
    (hun : (s.writeRequest place req).1.unshared = true) :
    s.Written file req.data p (s.writeRequest place req) := by
  have hne : req.data ≠ [] := ne_nil_of_length_pos (by omega)
  unfold ClientFile.writeRequest at hfresh hun ⊢
  rw [hoffset] at hfresh hun ⊢
  cases hk : req.extentKey with
  | none =>
    rw [hk] at hpart hfresh hun
    refine h.doWrite hne hbig (by omega) (fun d hd => ?_) hfresh hun
    by_cases hbehind : d.stop ≤ p
    · exact .inl hbehind
    obtain ⟨x, hx, hkey, hstop⟩ := (hkeeps d.key d.stop (by omega)).mpr ⟨d, hd, rfl, rfl⟩
    have := hpart x hx
    omega
  | some k =>
    rw [hk] at hpart hfresh hun
    obtain ⟨hmem, hle, hend⟩ := hpart
    have hspan := (hkeeps k.key k.stop (by omega)).mp ⟨k, hmem, rfl, rfl⟩
    exact h.doOverwrite hspan hne hle (by omega) hfresh hun

/-- A property of the client that the flushes and the requests of a write keep. -/
structure KeptByWrite (place : Placement) (P : ClientFile → Prop) : Prop where
  flush : ∀ {s file}, s.Inv file → P s → (s.flush place).fresh = true →
    (s.flush place).unshared = true → P (s.flush place)
  request : ∀ {s file root req p m}, s.Inv file → P s →
    ExtentCache.WritePart root p m req.extentKey → Keeps p root s.extents.root → p < m →
    req.fileOffset = p → p + req.data.length = m → m < 2 ^ 63 →
    (s.writeRequest place req).1.fresh = true → (s.writeRequest place req).1.unshared = true →
    s.Written file req.data p (s.writeRequest place req) → P (s.writeRequest place req).1

variable {P : ClientFile → Prop}

theorem Inv.writeRequests (hP : KeptByWrite place P) {stop total p : Nat}
    {reqs : List ExtentRequest} (h : s.Inv file) (hs : P s)
    (htiles : ExtentCache.Tiles offset data (ExtentCache.WritePart root) p stop reqs)
    (hkeeps : Keeps p root s.extents.root) (hp : p = offset + total)
    (hstop : stop = offset + data.length) (hbig : data.length ≤ extentSize) (hsmall : stop < 2 ^ 63)
    (hfresh : (s.writeRequests place total reqs).1.fresh = true)
    (hun : (s.writeRequests place total reqs).1.unshared = true) :
    (s.writeRequests place total reqs).2 = (data.length, true) ∧
      P (s.writeRequests place total reqs).1 ∧ (p < stop →
        (s.writeRequests place total reqs).1.Inv (writeAt file (data.drop (p - offset)) p)) := by
  induction reqs generalizing s file total p with
  | nil =>
    obtain rfl : p = stop := htiles
    exact ⟨Prod.ext (show total = data.length by omega) rfl, hs,
      fun hlt => absurd hlt (Nat.lt_irrefl _)⟩
  | cons r reqs ih =>
    obtain ⟨m, hpm, hr, hpart, hrest⟩ := htiles
    have hms := hrest.le
    have hoffset : r.fileOffset = p := by rw [hr]; rfl
    have hsize : r.size = m - p := by rw [hr]; rfl
    have hdata : r.data = (data.drop (p - offset)).take (m - p) := by rw [hr]; rfl
    have hlen : r.data.length = m - p := by
      rw [hdata, List.length_take, List.length_drop]
      omega
    -- the state after this request
    obtain ⟨r₁, hr₁⟩ : ∃ r₁, r₁ = s.writeRequest place r := ⟨_, rfl⟩
    have hcons : s.writeRequests place total (r :: reqs) =
        if r₁.2 then r₁.1.writeRequests place (total + r.size) reqs else (r₁.1, total, false) := by
      rw [hr₁]
      rfl
    rw [hcons] at hfresh hun ⊢
    have hlater : Later r₁.1 (if r₁.2 then r₁.1.writeRequests place (total + r.size) reqs
        else (r₁.1, total, false)).1 := by
      split
      · exact (steps_later place).writeRequests ..
      · exact .refl _
    obtain ⟨⟨hok, hinv, hkeeps'⟩, hs₁⟩ : s.Written file r.data p r₁ ∧ P r₁.1 := by
      have hf := hlater.1 hfresh
      have hu := hlater.2 hun
      rw [hr₁] at hf hu ⊢
      have hw := h.writeRequest hpart hkeeps hpm hoffset (by omega) (by omega) (by omega) hf hu
      exact ⟨hw, hP.request h hs hpart hkeeps hpm hoffset (by omega) (by omega) hf hu hw⟩
    rw [hlen, show p + (m - p) = m by omega] at hkeeps'
    rw [hok, if_pos rfl] at hfresh hun ⊢
    obtain ⟨hresult, hend, hnext⟩ := ih hinv hs₁ hrest
      (hkeeps.trans (Nat.le_of_lt hpm) hkeeps') (by omega) hfresh hun
    refine ⟨hresult, hend, fun _ => ?_⟩
    have hsplit : data.drop (p - offset) = r.data ++ data.drop (m - offset) := by
      rw [hdata, show m - offset = (p - offset) + (m - p) by omega, ← List.drop_drop,
        List.take_append_drop]
    obtain hlt | rfl := Nat.lt_or_eq_of_le hms
    · have hdone := hnext hlt
      rwa [show m = p + r.data.length by omega, writeAt_writeAt,
        show p + r.data.length - offset = m - offset by omega, ← hsplit] at hdone
    · -- the last request
      have hnil : reqs = [] := by
        cases reqs with
        | nil => rfl
        | cons r' reqs' =>
          obtain ⟨m', hlt, -, -, hrest'⟩ := hrest
          exact absurd hrest'.le (Nat.not_le_of_lt hlt)
      rw [hnil, hsplit, List.drop_of_length_le (by omega), List.append_nil]
      exact hinv

theorem Inv.foldl_flush (hP : KeptByWrite place P) (h : s.Inv file) (hs : P s)
    (l : List ExtentRequest) (hfresh : (l.foldl (fun s _ => s.flush place) s).fresh = true)
    (hun : (l.foldl (fun s _ => s.flush place) s).unshared = true) :
    (l.foldl (fun s _ => s.flush place) s).Inv file ∧ P (l.foldl (fun s _ => s.flush place) s) := by
  induction l generalizing s with
  | nil => exact ⟨h, hs⟩
  | cons r l ih =>
    have hlater := (steps_later place).foldl_flush l (s.flush place)
    have hf := hlater.1 hfresh
    have hu := hlater.2 hun
    exact ih (.inl (h.flush hf hu).1) (hP.flush h hs hf hu) hfresh hun

theorem Inv.size (h : s.Inv file) : s.extents.size = file.length := by
  obtain hc | ⟨id, ids, hb⟩ := h
  · exact hc.synced.size
  · exact hb.synced.size

theorem Inv.write_keeps (hP : KeptByWrite place P) (h : s.Inv file) (hs : P s) (hne : data ≠ [])
    (hbig : data.length ≤ extentSize) (hsmall : offset + data.length < 2 ^ 63)
    (hfresh : (s.write place data offset).1.fresh = true)
    (hun : (s.write place data offset).1.unshared = true) :
    (s.write place data offset).2 = (data.length, true) ∧
      (s.write place data offset).1.Inv (writeAt file data offset) ∧
      P (s.write place data offset).1 := by
  have hpos : 0 < data.length := List.length_pos_iff.mpr hne
  obtain ⟨l, hl⟩ : ∃ l, l = (s.extents.prepareWriteRequests offset data.length data).filter
      fun req => req.extentKey.isSome := ⟨_, rfl⟩
  obtain ⟨s₁, hs₁⟩ : ∃ t, t = l.foldl (fun s _ => s.flush place) s := ⟨_, rfl⟩
  -- without an overwrite no flush comes in between
  have hreqs : (if l = [] then s.extents.prepareWriteRequests offset data.length data
      else s₁.extents.prepareWriteRequests offset data.length data) =
      s₁.extents.prepareWriteRequests offset data.length data := by
    split
    next hnil =>
      rw [hs₁, hnil]
      rfl
    · rfl
  obtain ⟨r, hr⟩ : ∃ r, r = s₁.writeRequests place 0
      (s₁.extents.prepareWriteRequests offset data.length data) := ⟨_, rfl⟩
  have heq : s.write place data offset =
      ({ r.1 with extents := if r.1.extents.size < offset + r.2.1 then
          r.1.extents.setSize (offset + r.2.1) false else r.1.extents }, r.2.1, r.2.2) := by
    rw [hr, ← hreqs, hs₁, hl]
    rfl
  rw [heq] at hfresh hun ⊢
  rw [hr] at hfresh hun
  have hlater := (steps_later place).writeRequests
    (s₁.extents.prepareWriteRequests offset data.length data) s₁ 0
  have hf := hlater.1 hfresh
  have hu := hlater.2 hun
  obtain ⟨hinv₁, hP₁⟩ : s₁.Inv file ∧ P s₁ := by
    rw [hs₁] at hf hu ⊢
    exact h.foldl_flush hP hs l hf hu
  obtain ⟨hresult, hend, hinv⟩ := hinv₁.writeRequests hP hP₁
    (ExtentCache.tiles_prepareWriteRequests hinv₁.sound.spans hpos data) (.refl _ _) rfl rfl hbig
    hsmall hfresh hun
  have hfile := hinv (by omega)
  rw [Nat.sub_self, List.drop_zero, ← hr] at hfile
  rw [← hr] at hresult hend
  have hsize := hfile.size
  rw [length_writeAt] at hsize
  refine ⟨hresult, ?_⟩
  rw [hresult]
  dsimp only
  rw [if_neg (by omega)]
  exact ⟨hfile, hend⟩

theorem Inv.write (h : s.Inv file) (hne : data ≠ []) (hbig : data.length ≤ extentSize)
    (hsmall : offset + data.length < 2 ^ 63) (hfresh : (s.write place data offset).1.fresh = true)
    (hun : (s.write place data offset).1.unshared = true) :
    (s.write place data offset).2 = (data.length, true) ∧
      (s.write place data offset).1.Inv (writeAt file data offset) := by
  have hkept : KeptByWrite place fun _ => True := ⟨by simp, by simp⟩
  obtain ⟨hresult, hinv, -⟩ := h.write_keeps hkept trivial hne hbig hsmall hfresh hun
  exact ⟨hresult, hinv⟩

end ClientFile
end ChubaoFS
