import ChubaoFS.ClientArray

namespace ChubaoFS

open Bytes ExtentsTree Nat
open ExtentsTree (append size)

/-! The size of a file on the meta node and in the cache of its client. -/

theorem ExtentHandler.fileOffset_fill (fuel : Nat) (eh : ExtentHandler) (offset : Nat)
    (data : Bytes) : (fill fuel eh offset data).fileOffset = eh.fileOffset := by
  induction fuel generalizing eh offset data with
  | zero => rfl
  | succ fuel ih =>
    unfold fill
    split
    · rfl
    dsimp only
    rw [ih]
    split
    · rw [flushPacket_eq]
    · rfl

namespace ClientFile

variable {place : Placement} {s s' : ClientFile} {file data : Bytes} {id a : Nat}

structure Covered (s : ClientFile) : Prop where
  ends : ∀ k ∈ s.inode.extents.items, k.fileEnd.toNat ≤ s.extents.size
  last : (ExtentsTree.size s.inode.extents).toNat ≤ s.inode.size.toNat
  le : s.inode.size.toNat ≤ s.extents.size

/-- From `s` to `s'` the size on the meta node only grows. -/
structure Wider (s s' : ClientFile) : Prop where
  mono : s.inode.size.toNat ≤ s'.inode.size.toNat
  covered : s.Covered → s'.Covered

theorem Wider.refl (s : ClientFile) : Wider s s := ⟨le_refl _, fun h => h⟩

theorem Wider.trans {s'' : ClientFile} (h : Wider s s') (h' : Wider s' s'') : Wider s s'' :=
  ⟨le_trans h.mono h'.mono, fun hc => h'.covered (h.covered hc)⟩

theorem wider_of_inode (hi : s'.inode = s.inode) (hle : s.extents.size ≤ s'.extents.size) :
    Wider s s' := by
  refine ⟨by rw [hi], fun h => ⟨fun k hk => ?_, ?_, ?_⟩⟩
  · rw [hi] at hk
    exact le_trans (h.ends k hk) hle
  · rw [hi]
    exact h.last
  · rw [hi]
    exact le_trans h.le hle

theorem wider_setHandler (s : ClientFile) (id : Nat) (eh : ExtentHandler) :
    Wider s (s.setHandler id eh) := wider_of_inode rfl (le_refl _)

theorem wider_appendKeys {key : ExtentKey} {ct : Int64} {extents : ExtentCache}
    (hle : s.extents.size ≤ extents.size) (hkey : key.fileEnd.toNat ≤ extents.size) :
    Wider s { s with extents := extents, inode := (s.inode.appendKeys [key] ct).1 } := by
  obtain ⟨e, he⟩ : ∃ e, e = (append s.inode.extents key).1 := ⟨_, rfl⟩
  have hroot : (s.inode.appendKeys [key] ct).1.extents = e := he.symm
  have hsize : (s.inode.appendKeys [key] ct).1.size =
      if s.inode.size < size e then size e else s.inode.size := by
    rw [he]
    rfl
  have hmax : (s.inode.appendKeys [key] ct).1.size.toNat =
      max s.inode.size.toNat (size e).toNat := by
    rw [hsize]
    split
    all_goals
      next hlt =>
        rw [UInt64.lt_iff_toNat_lt] at hlt
        omega
  refine ⟨?_, fun h => ?_⟩
  · dsimp only
    rw [hmax]
    exact Nat.le_max_left ..
  have hends : ∀ k ∈ e.items, k.fileEnd.toNat ≤ extents.size := by
    intro k hk
    rw [he, ExtentsTree.mem_append] at hk
    obtain rfl | hk := hk
    · exact hkey
    · exact Nat.le_trans (h.ends k hk.1.1) hle
  refine ⟨fun k hk => hends k (hroot ▸ hk), ?_, ?_⟩
  · dsimp only
    rw [hroot, hmax]
    exact Nat.le_max_right ..
  · dsimp only
    rw [hmax]
    refine Nat.max_le.mpr ⟨Nat.le_trans h.le hle, ?_⟩
    unfold ExtentsTree.size
    split
    · exact Nat.zero_le _
    next m hm => exact hends m (OrdTree.mem_of_max? hm)

theorem wider_appendExtentKey (s : ClientFile) (id : Nat) : Wider s (s.appendExtentKey id) := by
  unfold ClientFile.appendExtentKey
  dsimp only
  refine Wider.trans ?_ (wider_setHandler _ id _)
  split
  · exact .refl s
  rename_i key _
  obtain ⟨hle, hkey⟩ := le_size_append s.extents key true
  obtain ⟨hle', -⟩ := le_size_append s.extents key false
  split
  · exact wider_appendKeys hle hkey
  · exact wider_of_inode rfl hle'

section

variable (place : Placement)

theorem wider_flushHandler (s : ClientFile) (id : Nat) : Wider s (s.flushHandler place id) := by
  obtain ⟨t, ht⟩ : ∃ t, t =
    (s.setHandler id (s.handlers id).flushPacket).waitForFlush place id := ⟨_, rfl⟩
  have hsent : Sent id (s.setHandler id (s.handlers id).flushPacket) t := by
    rw [ht]
    exact sent_deliverNext ..
  have hwait : Wider s t := wider_of_inode hsent.inode (le_of_eq (by rw [hsent.extents]; rfl))
  refine (hwait.trans (wider_appendExtentKey t id)).trans ?_
  rw [flushHandler_eq, ← ht]
  dsimp only
  split
  · exact wider_setHandler _ id _
  · exact .refl _

theorem steps_wider : StepOrder place Wider where
  refl := .refl
  trans := .trans
  quiet := fun _ _ => wider_of_inode
  flushHandler := wider_flushHandler place

variable (s)

theorem wider_write (data : Bytes) (offset : Nat) : Wider s (s.write place data offset).1 := by
  unfold ClientFile.write
  dsimp only
  generalize hl : (s.extents.prepareWriteRequests offset data.length data).filter
    (fun req => req.extentKey.isSome) = l
  have hflush := (steps_wider place).foldl_flush l s
  generalize l.foldl (fun s _ => s.flush place) s = s₁ at hflush ⊢
  generalize (if l = [] then s.extents.prepareWriteRequests offset data.length data
    else s₁.extents.prepareWriteRequests offset data.length data) = reqs
  refine hflush.trans (((steps_wider place).writeRequests reqs s₁ 0).trans (wider_of_inode rfl ?_))
  dsimp only
  split
  next hlt => exact le_of_lt hlt
  · exact le_refl _

theorem wider_read (data : Bytes) (offset : Nat) : Wider s (s.read place data offset).1 := by
  unfold ClientFile.read
  dsimp only
  split
  · exact ((steps_wider place).flush s).trans ((steps_wider place).flush _)
  · exact (steps_wider place).flush s

end

/-! ### The size that the meta node is told -/

def Reaches (s : ClientFile) : Prop :=
  s.extents.size ≤ s.inode.size.toNat ∨ ∃ k ∈ s.extents.root.items, s.extents.size ≤ k.stop

theorem Clean.inode_size (h : s.Clean file) (hc : s.Covered) (hr : s.Reaches) :
    s.inode.size.toNat = file.length := by
  have hsize := h.synced.size
  have hle := hc.le
  obtain hr | ⟨k, hk, hr⟩ := hr
  · omega
  rw [h.root] at hk
  obtain ⟨m, hm⟩ := OrdTree.exists_max? hk
  have hkm := h.stored.sound.spans.stop_le_max hm hk
  have hlast := hc.last
  unfold ExtentsTree.size at hlast
  rw [hm] at hlast
  dsimp only at hlast
  rw [ExtentKey.toNat_fileEnd (h.stored.sound.small m (OrdTree.mem_of_max? hm))] at hlast
  omega

theorem Reaches.keeps (h : s.Reaches) (hw : Wider s s') {p : Nat}
    (hk : Keeps p s.extents.root s'.extents.root) (hp : p < s.extents.size)
    (hsize : s'.extents.size = s.extents.size) : s'.Reaches := by
  obtain h | ⟨k, hmem, h⟩ := h
  · exact .inl (by rw [hsize]; exact le_trans h hw.mono)
  · obtain ⟨k', hk', -, hstop⟩ := (hk k.key k.stop (by omega)).mp ⟨k, hmem, rfl, rfl⟩
    exact .inr ⟨k', hk', by omega⟩

theorem Inv.reaches_flush (h : s.Inv file) (hr : s.Reaches)
    (hfresh : (s.flush place).fresh = true) (hun : (s.flush place).unshared = true) :
    (s.flush place).Reaches := by
  obtain ⟨hc, hkeeps⟩ := h.flush hfresh hun
  have hsize : (s.flush place).extents.size = s.extents.size := by rw [hc.synced.size, h.size]
  by_cases hpos : 0 < s.extents.size
  · exact hr.keeps ((steps_wider place).flush s) hkeeps hpos hsize
  · exact .inl (by omega)

theorem tryWrite_reaches {mode : StoreMode} {n : Nat} (hsmall : a + data.length < 2 ^ 63)
    (h : (s.tryWrite place data a mode n).2 = true) :
    ∃ k ∈ (s.tryWrite place data a mode n).1.extents.root.items, a + data.length ≤ k.stop := by
  induction n generalizing s with
  | zero => cases h
  | succ n ih =>
    unfold ClientFile.tryWrite at h ⊢
    dsimp only at h ⊢
    obtain ⟨t, ht⟩ : ∃ t, t = if s.handler = none then s.newHandler a mode else s := ⟨_, rfl⟩
    rw [← ht] at h ⊢
    cases hid : t.handler with
    | none =>
      rw [hid] at h
      cases h
    | some id =>
      rw [hid] at h
      dsimp only at h ⊢
      cases hw : (t.handlers id).write data a with
      | none =>
        rw [hw] at h
        exact ih h
      | some r =>
        obtain ⟨-, hend, hroom, -⟩ := ExtentHandler.of_write hw
        obtain ⟨heq, hbig, hkey⟩ : r.1.fileOffset + r.1.size = a + data.length ∧
            r.1.size ≤ extentSize ∧ r.2 = r.1.localKey := by
          unfold ExtentHandler.write at hw
          split at hw
          · cases hw
          split at hw
          · cases hw
          · obtain rfl := Option.some.inj hw
            refine ⟨?_, hroom, rfl⟩
            dsimp only
            rw [ExtentHandler.fileOffset_fill]
            omega
        obtain ⟨-, hstop⟩ := localKey_span (show r.1.fileOffset + r.1.size < 2 ^ 63 by omega) hbig
        refine ⟨r.1.localKey, ?_, by omega⟩
        dsimp only
        rw [hkey, ExtentCache.root_append (by omega)]
        exact OrdTree.mem_lay.mpr (.inl rfl)

theorem extents_overwritePackets (p e : UInt64) (fuel : Nat) (s : ClientFile) (off : Nat)
    (data : Bytes) : (s.overwritePackets p e off fuel data).extents = s.extents := by
  induction fuel generalizing s off data with
  | zero => rfl
  | succ fuel ih =>
    unfold ClientFile.overwritePackets
    split
    · rfl
    · exact ih ..

theorem doOverwrite_flush (place : Placement) (s : ClientFile) (data : Bytes) (offset : Nat) :
    (s.doOverwrite place data offset).1.extents = (s.flush place).extents ∧
      Later (s.flush place) (s.doOverwrite place data offset).1 := by
  unfold ClientFile.doOverwrite
  dsimp only
  split
  · exact ⟨rfl, .refl _⟩
  split
  · exact ⟨rfl, .refl _⟩
  · exact ⟨extents_overwritePackets .., (steps_later place).overwritePackets ..⟩

section Request

variable {root : ExtentsTree} {p m : Nat}

theorem Inv.reaches_writeRequest {req : ExtentRequest} (h : s.Inv file) (hr : s.Reaches)
    (hpart : ExtentCache.WritePart root p m req.extentKey) (hkeeps : Keeps p root s.extents.root)
    (hpm : p < m) (hoffset : req.fileOffset = p) (hlen : p + req.data.length = m)
    (hsmall : m < 2 ^ 63) (hfresh : (s.writeRequest place req).1.fresh = true)
    (hun : (s.writeRequest place req).1.unshared = true)
    (hw : s.Written file req.data p (s.writeRequest place req)) :
    (s.writeRequest place req).1.Reaches := by
  obtain ⟨hok, hinv, hkeeps'⟩ := hw
  have hsize := hinv.size
  have hold := h.size
  rw [length_writeAt] at hsize
  by_cases hlt : m < file.length
  · refine hr.keeps ((steps_wider place).writeRequest s req) hkeeps' ?_ ?_
    all_goals omega
  -- the request reaches to the end of the file
  suffices hkey : ∃ k ∈ (s.writeRequest place req).1.extents.root.items, m ≤ k.stop by
    obtain ⟨k, hk, hstop⟩ := hkey
    exact .inr ⟨k, hk, by omega⟩
  unfold ClientFile.writeRequest at hok hfresh hun ⊢
  rw [hoffset] at hok hfresh hun ⊢
  cases hk : req.extentKey with
  | none =>
    rw [hk] at hok
    obtain ⟨k, hmem, hstop⟩ := tryWrite_reaches (by omega) hok
    exact ⟨k, hmem, by omega⟩
  | some k =>
    rw [hk] at hpart hfresh hun
    obtain ⟨hmem, -, hend⟩ := hpart
    obtain ⟨hextents, hlater⟩ := doOverwrite_flush place s req.data p
    obtain ⟨-, hflush⟩ := h.flush (hlater.1 hfresh) (hlater.2 hun)
    have hspan := (hkeeps k.key k.stop (by omega)).mp ⟨k, hmem, rfl, rfl⟩
    obtain ⟨k', hk', -, hstop⟩ := (hflush k.key k.stop (by omega)).mp hspan
    dsimp only
    rw [hextents]
    exact ⟨k', hk', by omega⟩

end Request

end ClientFile
end ChubaoFS
