import ChubaoFS.ClientFile

namespace ChubaoFS

open List Function Option ExtentHandler Nat
open ExtentKey (stop)
open StreamPacket (bytes_cons)

open Bytes

/-! Where the bytes of a client's file are: what the keys on the meta node hold, and what is still
with a handler. -/

abbrev Nodes := UInt64 → UInt64 → Bytes

namespace ExtentKey

def Within (nodes : Nodes) (k : ExtentKey) : Prop :=
  k.extentOffset.toNat + k.size.toNat ≤ (nodes k.partitionId k.extentId).length

def Separate (k d : ExtentKey) : Prop :=
  k.partitionId = d.partitionId → k.extentId = d.extentId →
    k.extentOffset.toNat + k.size.toNat ≤ d.extentOffset.toNat ∨
      d.extentOffset.toNat + d.size.toNat ≤ k.extentOffset.toNat

def Holds (nodes : Nodes) (file : Bytes) (k : ExtentKey) : Prop :=
  ∀ i, k.key ≤ i → i < k.stop →
    (nodes k.partitionId k.extentId).getD (k.extentOffset.toNat + (i - k.key)) 0 = file.getD i 0

theorem Separate.symm {k d : ExtentKey} (h : k.Separate d) : d.Separate k := fun hp he =>
  (h hp.symm he.symm).symm

variable {file : Bytes}

theorem Holds.congr {nodes : Nodes} {file' : Bytes} {k : ExtentKey} (h : k.Holds nodes file)
    (hfile : ∀ i, k.key ≤ i → i < k.stop → file'.getD i 0 = file.getD i 0) : k.Holds nodes file' :=
    fun i hi hlt => (h i hi hlt).trans (hfile i hi hlt).symm

end ExtentKey

def Grown (nodes nodes' : Nodes) : Prop :=
  ∀ p e, (nodes p e).length ≤ (nodes' p e).length ∧
    ∀ j < (nodes p e).length, (nodes' p e).getD j 0 = (nodes p e).getD j 0

variable {nodes' : Nodes}

theorem ExtentKey.Within.grow {nodes : Nodes} {k : ExtentKey} (h : k.Within nodes)
    (hg : Grown nodes nodes') : k.Within nodes' := le_trans h (hg _ _).1

theorem ExtentKey.Holds.grow {nodes : Nodes} {k : ExtentKey} (h : k.Holds nodes file)
    (hw : k.Within nodes) (hg : Grown nodes nodes') : k.Holds nodes' file := by
  intro i hi hlt
  have hstop : k.stop = k.key + k.size.toNat := rfl
  have hw' : k.extentOffset.toNat + k.size.toNat ≤ (nodes k.partitionId k.extentId).length := hw
  rw [(hg _ _).2 _ (by omega)]
  exact h i hi hlt

/-- What the file has outside of the range from `a` to `b` is where the keys tell. -/
structure Stored (e : ExtentsTree) (nodes : Nodes) (file : Bytes) (a b : Nat) : Prop where
  sound : e.Sound
  known : ∀ k ∈ e.items, k.partitionId ≠ 0
  within : ∀ k ∈ e.items, k.Within nodes
  separate : ∀ k ∈ e.items, ∀ d ∈ e.items, k ≠ d → k.Separate d
  clear : ∀ k ∈ e.items, k.stop ≤ a ∨ b ≤ k.key ∨ a ≤ k.key ∧ k.stop ≤ b
  holds : ∀ k ∈ e.items, k.stop ≤ a ∨ b ≤ k.key → k.Holds nodes file
  zeros : ∀ i < file.length, ¬ (a ≤ i ∧ i < b) →
    (∀ k ∈ e.items, ¬ (k.key ≤ i ∧ i < k.stop)) → file.getD i 0 = 0
  ends : ∀ k ∈ e.items, k.stop ≤ file.length

namespace Stored

variable {e : ExtentsTree} {nodes nodes' : Nodes} {file data : Bytes} {a b c : Nat}

theorem grow (h : Stored e nodes file a b) (hg : Grown nodes nodes') :
    Stored e nodes' file a b where
  __ := h
  within k hk := (h.within k hk).grow hg
  holds k hk hout := (h.holds k hk hout).grow (h.within k hk) hg

theorem except (h : Stored e nodes file 0 0)
    (hclear : ∀ k ∈ e.items, k.stop ≤ a ∨ b ≤ k.key ∨ a ≤ k.key ∧ k.stop ≤ b) :
    Stored e nodes file a b where
  __ := h
  clear := hclear
  holds k hk _ := h.holds k hk (.inr (zero_le _))
  zeros i hi _ hno := h.zeros i hi (by omega) hno

theorem extend (h : Stored e nodes file a b) (hab : a ≤ b) (hc : c = b + data.length)
    (hhole : ∀ k ∈ e.items, k.stop ≤ a ∨ b ≤ k.key →
      k.stop ≤ b ∨ c ≤ k.key ∨ b ≤ k.key ∧ k.stop ≤ c) :
    Stored e nodes (writeAt file data b) a c where
  __ := h
  clear k hk := by
    have hpos := h.sound.spans.pos k hk
    obtain hleft | hright | hin := h.clear k hk
    · exact .inl hleft
    · have := hhole k hk (.inr hright)
      omega
    · omega
  holds k hk hout := by
    have hpos := h.sound.spans.pos k hk
    have hout' : k.stop ≤ a ∨ b ≤ k.key := by omega
    refine (h.holds k hk hout').congr fun i hi hlt => ?_
    rw [getD_writeAt, if_neg (by omega)]
  zeros i hi hout hno := by
    rw [getD_writeAt, if_neg (by omega)]
    by_cases hlt : i < file.length
    · exact h.zeros i hlt (by omega) hno
    · exact getD_eq_default _ _ (by omega)
  ends k hk := by
    have := h.ends k hk
    rw [length_writeAt]
    omega

theorem lay (h : Stored e nodes file a b) {k : ExtentKey} (hkey : k.key = a) (hstop : k.stop = b)
    (hpos : a < b) (hsmall : b < 2 ^ 64) (hknown : k.partitionId ≠ 0) (hwithin : k.Within nodes)
    (hholds : k.Holds nodes file) (hend : b ≤ file.length)
    (hsep : ∀ d ∈ e.items, d.stop ≤ a ∨ b ≤ d.key → k.Separate d) :
    Stored (e.lay stop k) nodes file 0 0 := by
  have hcover : ∀ d ∈ e.items, OrdTree.Apart ExtentKey.key stop d k ∨
      k.key ≤ d.key ∧ d.stop ≤ k.stop := by
    intro d hd
    have := h.clear d hd
    unfold OrdTree.Apart
    omega
  have hmem := h.sound.spans.mem_lay_of_cover (by omega) hcover
  have hout (d : ExtentKey) (hap : OrdTree.Apart ExtentKey.key stop d k) :
      d.stop ≤ a ∨ b ≤ d.key := by
    unfold OrdTree.Apart at hap
    omega
  refine ⟨⟨h.sound.spans.put (by omega) hmem, ?_⟩, ?_, ?_, ?_,
    fun _ _ => .inr (.inl (zero_le _)), ?_, ?_, ?_⟩
  · intro d hd
    obtain rfl | ⟨hd, -⟩ := (hmem d).mp hd
    · omega
    · exact h.sound.small d hd
  · intro d hd
    obtain rfl | ⟨hd, -⟩ := (hmem d).mp hd
    · exact hknown
    · exact h.known d hd
  · intro d hd
    obtain rfl | ⟨hd, -⟩ := (hmem d).mp hd
    · exact hwithin
    · exact h.within d hd
  · intro x hx d hd hne
    obtain rfl | ⟨hxe, hxk⟩ := (hmem x).mp hx
    · obtain rfl | ⟨hde, hdk⟩ := (hmem d).mp hd
      · exact absurd rfl hne
      · exact hsep d hde (hout d hdk)
    · obtain rfl | ⟨hde, -⟩ := (hmem d).mp hd
      · exact (hsep x hxe (hout x hxk)).symm
      · exact h.separate x hxe d hde hne
  · intro d hd _
    obtain rfl | ⟨hd, hdk⟩ := (hmem d).mp hd
    · exact hholds
    · exact h.holds d hd (hout d hdk)
  · intro i hi _ hno
    have hk := hno k ((hmem k).mpr (.inl rfl))
    refine h.zeros i hi (by omega) fun d hd hin => ?_
    obtain hap | hcov := hcover d hd
    · exact hno d ((hmem d).mpr (.inr ⟨hd, hap⟩)) hin
    · omega
  · intro d hd
    obtain rfl | ⟨hd, -⟩ := (hmem d).mp hd
    · omega
    · exact h.ends d hd

variable (h : Stored e nodes file 0 0)
include h

theorem overwrite {k : ExtentKey} (hk : k ∈ e.items) {offset : Nat} (hle : k.key ≤ offset)
    (hend : offset + data.length ≤ k.stop) :
    Stored e (fun p' e' => if p' = k.partitionId ∧ e' = k.extentId then
        writeAt (nodes k.partitionId k.extentId) data (offset - k.key + k.extentOffset.toNat)
      else nodes p' e') (writeAt file data offset) 0 0 := by
  have hstop : k.stop = k.key + k.size.toNat := rfl
  have hlen : ∀ p e, (nodes p e).length ≤ ((fun p' e' =>
      if p' = k.partitionId ∧ e' = k.extentId then
        writeAt (nodes k.partitionId k.extentId) data (offset - k.key + k.extentOffset.toNat)
      else nodes p' e') p e).length := by
    intro p e
    dsimp only
    split
    next heq =>
      rw [length_writeAt, heq.1, heq.2]
      exact le_max_left _ _
    · exact le_refl _
  refine ⟨h.sound, h.known, fun d hd => le_trans (h.within d hd) (hlen _ _), h.separate,
    fun _ _ => .inr (.inl (zero_le _)), ?_, ?_, ?_⟩
  · intro d hd hout i hi hlt
    have hheld := h.holds d hd hout i hi hlt
    by_cases hdk : d = k
    · subst hdk
      dsimp only
      rw [if_pos ⟨rfl, rfl⟩, getD_writeAt, getD_writeAt]
      by_cases hin : offset ≤ i ∧ i < offset + data.length
      · rw [if_pos (by omega), if_pos hin]
        congr 1
        omega
      · rw [if_neg (by omega), if_neg hin]
        exact hheld
    have hap := h.sound.apart d hd k hk hdk
    unfold ExtentKey.Apart OrdTree.Apart at hap
    rw [getD_writeAt, if_neg (by omega), ← hheld]
    dsimp only
    split
    next heq =>
      have hsep := h.separate d hd k hk hdk heq.1 heq.2
      have hdstop : d.stop = d.key + d.size.toNat := rfl
      rw [heq.1, heq.2, getD_writeAt, if_neg (by omega)]
    · rfl
  · intro i hi _ hno
    have hki := hno k hk
    have hkend := h.ends k hk
    rw [length_writeAt] at hi
    rw [getD_writeAt, if_neg (by omega)]
    exact h.zeros i (by omega) (by omega) hno
  · intro d hd
    have := h.ends d hd
    rw [length_writeAt]
    omega

theorem resize {size : Nat} (hle : file.length ≤ size) :
    Stored e nodes (file.take size ++ replicate (size - file.length) 0) 0 0 := by
  have hget : ∀ i, (file.take size ++ replicate (size - file.length) 0).getD i 0 =
      file.getD i 0 := by
    intro i
    rw [take_of_length_le hle]
    by_cases hi : i < file.length
    · exact getD_append _ _ _ _ hi
    rw [getD_append_right _ _ _ _ (by omega), getD_eq_default file _ (by omega),
      getD_eq_getElem?_getD, getElem?_replicate]
    split <;> rfl
  refine { h with holds := fun k hk hout => (h.holds k hk hout).congr fun i _ _ => hget i, zeros :=
    fun i hi hout hno => ?_, ends := fun k hk => ?_ }
  · rw [hget]
    by_cases hlt : i < file.length
    · exact h.zeros i hlt hout hno
    · exact getD_eq_default _ _ (by omega)
  · have := h.ends k hk
    rw [length_append, length_take, length_replicate]
    omega

end Stored

variable {k : ExtentKey} {eh : ExtentHandler} {e : ExtentsTree} {off : Nat}

theorem ExtentKey.size_cut_le {length : UInt64} (hlt : k.key < length.toNat) :
    (k.cut length).size.toNat ≤ k.size.toNat := by
  unfold cut
  split
  next hend =>
    obtain ⟨hsize, hstop⟩ := toNat_cut_size hlt hend
    unfold stop at hstop
    dsimp only
    omega
  · exact le_refl _

theorem ExtentKey.cut_place (length : UInt64) (k : ExtentKey) :
    (k.cut length).partitionId = k.partitionId ∧ (k.cut length).extentId = k.extentId ∧
      (k.cut length).extentOffset = k.extentOffset := by
  unfold cut
  split <;> exact ⟨rfl, rfl, rfl⟩

theorem Stored.cut {nodes : Nodes} (h : Stored e nodes file 0 0) (length : UInt64)
    (hle : length.toNat ≤ file.length) :
    Stored (e.truncate length) nodes (file.take length.toNat) 0 0 := by
  have hmem := ExtentsTree.mem_truncate h.sound length
  obtain ⟨hsound, hends⟩ := h.sound.truncate length
  have hlen : (file.take length.toNat).length = length.toNat := by
    rw [length_take]
    omega
  have hget : ∀ i < length.toNat, (file.take length.toNat).getD i 0 = file.getD i 0 := by
    intro i hi
    rw [getD_eq_getElem?_getD, getD_eq_getElem?_getD, getElem?_take_of_lt hi]
  refine ⟨hsound, ?_, ?_, ?_, fun _ _ => .inr (.inl (zero_le _)), ?_, ?_, ?_⟩
  · intro x hx
    obtain ⟨k, hk, -, rfl⟩ := (hmem x).mp hx
    rw [(k.cut_place length).1]
    exact h.known k hk
  · intro x hx
    obtain ⟨k, hk, hlt, rfl⟩ := (hmem x).mp hx
    obtain ⟨hp, hid, hoff⟩ := k.cut_place length
    have := h.within k hk
    have := ExtentKey.size_cut_le hlt
    unfold ExtentKey.Within at *
    rw [hp, hid, hoff]
    omega
  · intro x hx y hy hne
    obtain ⟨k, hk, hlt, rfl⟩ := (hmem x).mp hx
    obtain ⟨d, hd, hltd, rfl⟩ := (hmem y).mp hy
    have hkd : k ≠ d := fun heq => hne (by rw [heq])
    obtain ⟨hp, hid, hoff⟩ := k.cut_place length
    obtain ⟨hp', hid', hoff'⟩ := d.cut_place length
    have := ExtentKey.size_cut_le hlt
    have := ExtentKey.size_cut_le hltd
    have hsep := h.separate k hk d hd hkd
    unfold ExtentKey.Separate at *
    rw [hp, hid, hoff, hp', hid', hoff']
    intro h₁ h₂
    have := hsep h₁ h₂
    omega
  · intro x hx _ i hi hlt
    have hxend := hends x hx
    obtain ⟨k, hk, hklt, rfl⟩ := (hmem x).mp hx
    obtain ⟨hp, hid, hoff⟩ := k.cut_place length
    have hstop := ExtentKey.stop_cut (h.sound.small k hk) hklt
    rw [k.key_cut] at hi
    rw [hp, hid, hoff, k.key_cut, hget i (by omega)]
    exact h.holds k hk (.inr (zero_le _)) i hi (by omega)
  · intro i hi hout hno
    rw [hlen] at hi
    rw [hget i hi]
    refine h.zeros i (by omega) hout fun k hk hin => ?_
    have hklt : k.key < length.toNat := by omega
    refine hno (k.cut length) ((hmem _).mpr ⟨k, hk, hklt, rfl⟩) ?_
    rw [k.key_cut, ExtentKey.stop_cut (h.sound.small k hk) hklt]
    omega
  · intro x hx
    rw [hlen]
    exact hends x hx

theorem ExtentsTree.append_eq_lay (hsmall : k.stop < 2 ^ 64)
    (h : ∀ d ∈ e.items, k.key < d.key → d.key < k.stop → d.sameExtent k = false) :
    (append e k).1 = e.lay stop k := by
  refine OrdTree.ext_mem fun x => ?_
  rw [mem_append, OrdTree.mem_lay, mem_dropped hsmall]
  refine or_congr_right ?_
  constructor
  · rintro ⟨⟨hx, hnot⟩, hne⟩
    refine ⟨hx, hne, fun hin => hnot ⟨hx, hin, h x hx ?_ hin.2⟩⟩
    exact lt_of_le_of_ne hin.1 hne.symm
  · rintro ⟨hx, hne, hout⟩
    exact ⟨⟨hx, fun hdrop => hout hdrop.2.1⟩, hne⟩

/-! ### What a handler has in hand -/

def ExtentHandler.acked (eh : ExtentHandler) : Nat :=
  match eh.key with
  | none => 0
  | some k => k.size.toNat

theorem ExtentHandler.acked_of_key (h : eh.key = some k) : eh.acked = k.size.toNat := by
  unfold acked
  rw [h]

theorem ExtentHandler.acked_of_none (h : eh.key = none) : eh.acked = 0 := by
  unfold acked
  rw [h]

open StreamPacket (Follow)

/-- The bytes of the handler's range are on the data nodes up to some place, and from there on in
its packets. -/
structure Carries (nodes : Nodes) (file : Bytes) (eh : ExtentHandler) : Prop where
  follow : Follow (eh.fileOffset + eh.acked) eh.queue (eh.fileOffset + eh.size)
  queued : ∀ j < (StreamPacket.bytes eh.queue).length,
    (StreamPacket.bytes eh.queue).getD j 0 = file.getD (eh.fileOffset + eh.acked + j) 0
  small : eh.fileOffset + eh.size < 2 ^ 63 ∧ eh.size ≤ extentSize
  ends : 0 < eh.size → eh.fileOffset + eh.size ≤ file.length
  keyed : ∀ k, eh.key = some k → k.key = eh.fileOffset ∧ k.partitionId ≠ 0 ∧ 0 < k.size.toNat ∧
    k.Within nodes ∧ k.Holds nodes file
  grows : eh.storeMode = .normal → ∀ k, eh.key = some k →
    eh.extent = some (k.partitionId, k.extentId) ∧ k.extentOffset = 0 ∧
      (nodes k.partitionId k.extentId).length = k.size.toNat
  unplaced : eh.key = none → eh.extent = none
  single : eh.storeMode = .tiny → eh.queue = [] ∨ eh.key = none ∧ eh.queue.length = 1

namespace ClientFile

variable {place : Placement} {s : ClientFile} {file : Bytes} {id : Nat}

structure InHand (s : ClientFile) (file : Bytes) (id : Nat) : Prop where
  stored : Stored s.inode.extents s.nodes file (s.handlers id).fileOffset
    ((s.handlers id).fileOffset + (s.handlers id).size)
  carries : Carries s.nodes file (s.handlers id)
  apart : ∀ k, (s.handlers id).key = some k → ∀ d ∈ s.inode.extents.items,
    d.stop ≤ (s.handlers id).fileOffset ∨
      (s.handlers id).fileOffset + (s.handlers id).size ≤ d.key → k.Separate d
  unshared : ∀ k, (s.handlers id).key = some k → ∀ d ∈ s.inode.extents.items,
    (s.handlers id).fileOffset < d.key →
      d.key < (s.handlers id).fileOffset + (s.handlers id).size → d.sameExtent k = false

structure Pending (s : ClientFile) (file : Bytes) (id : Nat) : Prop extends s.InHand file id where
  unsaved : (s.handlers id).queue ≠ [] ∨ (s.handlers id).dirty = true

theorem give_eq_self {size : Nat} {p : ExtentPlace} (hfresh : (s.give eh size p).fresh = true)
    (hun : (s.give eh size p).unshared = true) :
    s.give eh size p = s ∧ s.isFresh eh.storeMode size p = true ∧
      s.isUnshared eh.fileOffset size p = true := by
  obtain ⟨hs, hf⟩ := Bool.and_eq_true_iff.mp hfresh
  obtain ⟨hs', hu⟩ := Bool.and_eq_true_iff.mp hun
  refine ⟨?_, hf, hu⟩
  unfold give
  rw [hf, hu, hs, hs', Bool.and_self, ← hs]
  nth_rewrite 2 [hs]
  rw [← hs']

variable {packet : StreamPacket} {request : List StreamPacket}

theorem deliver_eq (hc : Carries s.nodes file (s.handlers id))
    (hreq : (s.handlers id).request = packet :: request)
    (hfresh : (deliver place s id).fresh = true) (hun : (deliver place s id).unshared = true) :
    ∃ p e off, deliver place s id = s.accept id packet request p e off ∧
      (s.nodes p e).length ≤ off ∧ off + packet.data.length < 2 ^ 64 ∧ p ≠ 0 ∧
      ((s.handlers id).storeMode = .normal →
        off = (s.handlers id).acked ∧ (s.nodes p e).length = (s.handlers id).acked) ∧
      (∀ k, (s.handlers id).key = some k → (s.handlers id).storeMode = .normal ∧
        k.partitionId = p ∧ k.extentId = e ∧ k.extentOffset = 0) ∧
      ((s.handlers id).key = none → ∀ d ∈ s.inode.extents.items,
        (s.handlers id).fileOffset < d.key →
        d.key < (s.handlers id).fileOffset + packet.data.length →
        ¬ (d.partitionId = p ∧ d.extentId = e)) := by
  have hqueue : (s.handlers id).queue = packet :: (request ++ (s.handlers id).packet.toList) := by
    unfold queue
    rw [hreq]
    rfl
  have hoffset : packet.kernelOffset - (s.handlers id).fileOffset = (s.handlers id).acked := by
    have := hc.follow
    rw [hqueue] at this
    rw [this.1]
    omega
  have hlen : packet.data.length ≤ extentSize := by
    have hl := hc.follow.length
    rw [hqueue, bytes_cons, length_append] at hl
    have := hc.small.2
    omega
  unfold deliver at hfresh hun ⊢
  simp only [hreq] at hfresh hun ⊢
  cases hm : (s.handlers id).storeMode with
  | tiny =>
    simp only [hm] at hfresh hun ⊢
    obtain ⟨hself, hf, hu⟩ := give_eq_self hfresh hun
    obtain ⟨hp, -, hle, hsmall, -⟩ := of_decide_eq_true hf
    refine ⟨_, _, _, by rw [hself], hle, hsmall, hp, nofun, fun k hk => ?_,
      fun _ => of_decide_eq_true hu⟩
    obtain hnil | ⟨hnone, -⟩ := hc.single hm
    · rw [hqueue] at hnil
      cases hnil
    · rw [hk] at hnone
      cases hnone
  | normal =>
    simp only [hm] at hfresh hun ⊢
    cases hext : (s.handlers id).extent with
    | none =>
      simp only [hext] at hfresh hun ⊢
      have hkey : (s.handlers id).key = none := by
        cases hk : (s.handlers id).key with
        | none => rfl
        | some k =>
          rw [(hc.grows hm k hk).1] at hext
          cases hext
      have hacked := acked_of_none hkey
      obtain ⟨hself, hf, hu⟩ := give_eq_self hfresh hun
      obtain ⟨hp, -, hle, hsmall, hzero⟩ := of_decide_eq_true hf
      have hoff := hzero hm
      refine ⟨_, _, _, by rw [hself], by omega, by omega, hp, fun _ => ⟨hoffset, by omega⟩,
        fun k hk => ?_, fun _ => of_decide_eq_true hu⟩
      rw [hk] at hkey
      cases hkey
    | some pe =>
      obtain ⟨p, e⟩ := pe
      simp only
      obtain ⟨k, hk⟩ : ∃ k, (s.handlers id).key = some k := by
        cases hk : (s.handlers id).key with
        | none =>
          rw [hc.unplaced hk] at hext
          cases hext
        | some k => exact ⟨k, rfl⟩
      obtain ⟨hextk, hoffk, hlenk⟩ := hc.grows hm k hk
      obtain ⟨rfl, rfl⟩ := Prod.mk.inj (some.inj (hext.symm.trans hextk))
      have hacked := acked_of_key hk
      have hsize := k.size.toNat_lt
      refine ⟨_, _, _, rfl, by omega, ?_, (hc.keyed k hk).2.1, fun _ => ⟨hoffset, by omega⟩,
        fun k' hk' => ?_, fun hnone => ?_⟩
      · unfold extentSize blockSize at hlen
        omega
      · obtain rfl := some.inj (hk.symm.trans hk')
        exact ⟨trivial, rfl, rfl, hoffk⟩
      · rw [hk] at hnone
        cases hnone

theorem grown_writeNode {p e : UInt64} (data : Bytes) (h : (s.nodes p e).length ≤ off) :
    Grown s.nodes (s.writeNode p e data off).nodes := by
  intro p' e'
  unfold writeNode
  dsimp only
  split
  next heq =>
    rw [heq.1, heq.2, length_writeAt]
    refine ⟨le_max_left _ _, fun j hj => ?_⟩
    rw [getD_writeAt, if_neg (by omega)]
  · exact ⟨le_refl _, fun _ _ => rfl⟩

theorem nodes_writeNode_self (s : ClientFile) (p e : UInt64) (data : Bytes) (off : Nat) :
    (s.writeNode p e data off).nodes p e = writeAt (s.nodes p e) data off := if_pos ⟨rfl, rfl⟩

theorem acknowledged_key (eh : ExtentHandler) (packet : StreamPacket) (p e : UInt64) (off : Nat)
    (hf : eh.fileOffset < 2 ^ 64) (hsize : eh.acked + packet.data.length < 2 ^ 32)
    (hoff : off < 2 ^ 64) (hkey : ∀ k, eh.key = some k → k.key = eh.fileOffset ∧
      k.partitionId = p ∧ k.extentId = e ∧ k.extentOffset.toNat + eh.acked = off) :
    ∃ k, (eh.acknowledged packet p e off).key = some k ∧ k.key = eh.fileOffset ∧
      k.partitionId = p ∧ k.extentId = e ∧ k.extentOffset.toNat + eh.acked = off ∧
      k.size.toNat = eh.acked + packet.data.length := by
  refine ⟨_, rfl, ?_⟩
  cases hk : eh.key with
  | none =>
    have hacked := acked_of_none hk
    rw [hacked, zero_add] at hsize
    refine ⟨UInt64.toNat_ofNat_of_lt' hf, rfl, rfl, ?_, ?_⟩
    · rw [hacked]
      exact UInt64.toNat_ofNat_of_lt' hoff
    · rw [hacked, zero_add]
      exact UInt32.toNat_ofNat_of_lt' hsize
  | some k =>
    obtain ⟨hkf, hp, he, hko⟩ := hkey k hk
    rw [acked_of_key hk] at hsize hko ⊢
    refine ⟨hkf, hp, he, hko, ?_⟩
    dsimp only
    have hlen : packet.data.length < UInt32.size := lt_of_le_of_lt (le_add_left _ _) hsize
    rw [UInt32.toNat_add, UInt32.toNat_ofNat_of_lt' hlen]
    exact mod_eq_of_lt hsize

theorem next_key {nodes : Nodes} (hc : Carries nodes file eh) {p e : UInt64}
    (hreq : eh.request = packet :: request) (hle : (nodes p e).length ≤ off)
    (hsmall : off + packet.data.length < 2 ^ 64) (hnormal : eh.storeMode = .normal →
      off = eh.acked ∧ (nodes p e).length = eh.acked)
    (hkey : ∀ k, eh.key = some k → eh.storeMode = .normal ∧
      k.partitionId = p ∧ k.extentId = e ∧ k.extentOffset = 0) (hg : Grown nodes nodes')
    (hnodes : nodes' p e = writeAt (nodes p e) packet.data off) :
    ∃ k, (eh.acknowledged packet p e off).key = some k ∧ k.key = eh.fileOffset ∧
      k.partitionId = p ∧ k.extentId = e ∧ k.extentOffset.toNat + eh.acked = off ∧
      k.size.toNat = eh.acked + packet.data.length ∧ k.Within nodes' ∧ k.Holds nodes' file := by
  have hqueue : eh.queue = packet :: (request ++ eh.packet.toList) := by
    unfold queue
    rw [hreq]
    rfl
  have htotal := hc.follow.length
  rw [hqueue, bytes_cons, length_append] at htotal
  have hlimit : extentSize < 2 ^ 32 := by decide
  have hbound := hc.small
  have hfirst : ∀ k, eh.key = some k → k.extentOffset.toNat + eh.acked = off := by
    intro k hk
    obtain ⟨hm, -, -, hzero⟩ := hkey k hk
    rw [hzero, (hnormal hm).1]
    exact zero_add _
  obtain ⟨k', hk', hkf, hkp, hke, hkoff, hksize⟩ := acknowledged_key eh packet p e off (by omega)
    (by omega) (by omega)
    fun k hk => ⟨(hc.keyed k hk).1, (hkey k hk).2.1, (hkey k hk).2.2.1, hfirst k hk⟩
  refine ⟨k', hk', hkf, hkp, hke, hkoff, hksize, ?_, ?_⟩
  · unfold ExtentKey.Within
    rw [hkp, hke, hnodes, length_writeAt]
    omega
  · intro i hi hlt
    have hstop : k'.stop = k'.key + k'.size.toNat := rfl
    rw [hkp, hke, hkf]
    by_cases hacked : i < eh.fileOffset + eh.acked
    · -- a byte that was on the data nodes before
      cases hk : eh.key with
      | none =>
        rw [acked_of_none hk] at hacked
        omega
      | some k =>
        obtain ⟨hkey', -, -, hwithin, hholds⟩ := hc.keyed k hk
        obtain ⟨-, hp', he', -⟩ := hkey k hk
        have hkstop : k.stop = k.key + k.size.toNat := rfl
        have hsize := acked_of_key hk
        have := hfirst k hk
        have hbyte := hholds.grow hwithin hg i (by omega) (by omega)
        rw [hp', he', hkey'] at hbyte
        rw [← hbyte]
        congr 1
        omega
    have hj := hc.queued (i - (eh.fileOffset + eh.acked)) (by
      rw [hqueue, bytes_cons, length_append]
      omega)
    rw [hqueue, bytes_cons, getD_append _ _ _ _ (by omega),
      show eh.fileOffset + eh.acked + (i - (eh.fileOffset + eh.acked)) = i by omega] at hj
    rw [hnodes, getD_writeAt, if_pos (by omega), ← hj]
    congr 1
    omega

theorem Pending.deliver (h : s.Pending file id) (hreq : (s.handlers id).request = packet :: request)
    (hfresh : (s.deliver place id).fresh = true) (hun : (s.deliver place id).unshared = true) :
    (s.deliver place id).Pending file id ∧ ∃ p e off,
      s.deliver place id = s.accept id packet request p e off := by
  have hc := h.carries
  obtain ⟨p, e, off, heq, hle, hsmall, hp, hnormal, hkey, hplace⟩ := deliver_eq hc hreq hfresh hun
  have hg : Grown s.nodes (s.accept id packet request p e off).nodes := grown_writeNode _ hle
  have hnodes : (s.accept id packet request p e off).nodes p e =
      writeAt (s.nodes p e) packet.data off := nodes_writeNode_self ..
  obtain ⟨k, hk, hkf, hkp, hke, hkoff, hksize, hwithin, hholds⟩ :=
    next_key hc hreq hle hsmall hnormal hkey hg hnodes
  obtain ⟨eh, heh⟩ : ∃ eh, eh = (s.accept id packet request p e off).handlers id := ⟨_, rfl⟩
  have hhandler : eh = ({ s.handlers id with
      request := request, extent := some (p, e) } : ExtentHandler).acknowledged packet p e off :=
    heh.trans (update_self ..)
  have hkey' : eh.key = some k := by
    rw [hhandler]
    exact hk
  have hqueue : (s.handlers id).queue = packet :: eh.queue := by
    rw [hhandler]
    unfold queue
    rw [hreq]
    rfl
  have hacked : eh.acked = (s.handlers id).acked + packet.data.length :=
    (acked_of_key hkey').trans hksize
  have hfields : eh.fileOffset = (s.handlers id).fileOffset ∧ eh.size = (s.handlers id).size ∧
      eh.storeMode = (s.handlers id).storeMode ∧ eh.extent = some (p, e) ∧ eh.dirty = true := by
    rw [hhandler]
    exact ⟨rfl, rfl, rfl, rfl, rfl⟩
  obtain ⟨hf, hn, hm, hext, hdirty⟩ := hfields
  obtain ⟨hko, hne, hrest⟩ := hqueue ▸ hc.follow
  have htotal := hc.follow.length
  rw [hqueue, bytes_cons, length_append] at htotal
  have hpos : 0 < packet.data.length := length_pos_iff.mpr hne
  have hcarries : Carries (s.accept id packet request p e off).nodes file eh := by
    refine ⟨?_, fun j hj => ?_, ?_, ?_, ?_, ?_, ?_, ?_⟩
    · rw [hf, hacked, hn, ← Nat.add_assoc]
      exact hrest
    · have hbyte := hc.queued (packet.data.length + j) (by
        rw [hqueue, bytes_cons, length_append]
        omega)
      rw [hqueue, bytes_cons, getD_append_right _ _ _ _ (by omega),
        Nat.add_sub_cancel_left] at hbyte
      rw [hbyte, hf, hacked]
      congr 1
      omega
    · rw [hf, hn]
      exact hc.small
    · rw [hf, hn]
      exact hc.ends
    · intro k' hk'
      obtain rfl := some.inj (hkey'.symm.trans hk')
      exact ⟨hkf.trans hf.symm, hkp ▸ hp, by omega, hwithin, hholds⟩
    · intro hmode k' hk'
      obtain rfl := some.inj (hkey'.symm.trans hk')
      obtain ⟨hoff, hlen⟩ := hnormal (hm ▸ hmode)
      refine ⟨by rw [hext, hkp, hke], UInt64.toNat_inj.mp (by rw [UInt64.toNat_zero]; omega), ?_⟩
      rw [hkp, hke, hnodes, length_writeAt]
      omega
    · intro hnone
      rw [hkey'] at hnone
      cases hnone
    · intro hmode
      obtain hnil | ⟨-, hone⟩ := hc.single (hm ▸ hmode)
      · rw [hqueue] at hnil
        cases hnil
      · rw [hqueue, length_cons] at hone
        exact .inl (length_eq_zero_iff.mp (by omega))
  -- a key in the extent of the new one lies before what was written just now
  have hbefore : ∀ d ∈ s.inode.extents.items, d.partitionId = p → d.extentId = e →
      0 < d.size.toNat ∧ d.extentOffset.toNat + d.size.toNat ≤ (s.nodes p e).length := by
    intro d hd hdp hde
    have hdpos := h.stored.sound.spans.pos d hd
    have hdin := h.stored.within d hd
    unfold ExtentKey.Within at hdin
    rw [hdp, hde] at hdin
    have hstop : d.stop = d.key + d.size.toNat := rfl
    exact ⟨by omega, hdin⟩
  rw [heq]
  refine ⟨⟨⟨?_, ?_, ?_, ?_⟩, ?_⟩, p, e, off, rfl⟩ <;> rw [← heh]
  · rw [hf, hn]
    exact h.stored.grow hg
  · exact hcarries
  · intro k' hk' d hd hout hdp hde
    obtain rfl := some.inj (hkey'.symm.trans hk')
    rw [hf, hn] at hout
    obtain ⟨hdpos, hdin⟩ := hbefore d hd (hdp.symm.trans hkp) (hde.symm.trans hke)
    cases hkold : (s.handlers id).key with
    | none =>
      have := acked_of_none hkold
      exact .inr (by omega)
    | some k₀ =>
      obtain ⟨hmode, hp₀, he₀, hoff₀⟩ := hkey k₀ hkold
      have hsep := h.apart k₀ hkold d hd hout (by rw [hp₀, ← hkp, hdp]) (by rw [he₀, ← hke, hde])
      have := hnormal hmode
      have := acked_of_key hkold
      rw [hoff₀, UInt64.toNat_zero] at hsep
      omega
  · intro k' hk' d hd hfrom hto
    obtain rfl := some.inj (hkey'.symm.trans hk')
    rw [hf] at hfrom hto
    rw [hn] at hto
    have hnot : ¬ (d.partitionId = p ∧ d.extentId = e) := by
      cases hkold : (s.handlers id).key with
      | none =>
        cases hmode : (s.handlers id).storeMode with
        | normal =>
          rintro ⟨hdp, hde⟩
          have := hbefore d hd hdp hde
          have := hnormal hmode
          have := acked_of_none hkold
          omega
        | tiny =>
          -- a tiny write is one packet
          have hacked₀ := acked_of_none hkold
          have hnil : eh.queue = [] := by
            obtain hnil | ⟨-, hone⟩ := hc.single hmode
            · rw [hqueue] at hnil
              cases hnil
            · rw [hqueue, length_cons] at hone
              exact length_eq_zero_iff.mp (by omega)
          rw [hnil, StreamPacket.bytes_nil, length_nil] at htotal
          exact hplace hkold d hd hfrom (by omega)
      | some k₀ =>
        obtain ⟨-, hp₀, he₀, -⟩ := hkey k₀ hkold
        have hshared := h.unshared k₀ hkold d hd hfrom hto
        rintro ⟨hdp, hde⟩
        unfold ExtentKey.sameExtent at hshared
        rw [hp₀, he₀, hdp, hde] at hshared
        simp at hshared
    unfold ExtentKey.sameExtent
    rw [hkp, hke, Bool.and_eq_false_iff, beq_eq_false_iff_ne, beq_eq_false_iff_ne]
    exact not_and_or.mp hnot
  · exact .inr hdirty

/-- Between `s` and `s'` packets of the handler were sent, and nothing else happened. -/
structure Sent (id : Nat) (s s' : ClientFile) : Prop where
  inode : s'.inode = s.inode
  extents : s'.extents = s.extents
  nextHandler : s'.nextHandler = s.nextHandler
  handler : s'.handler = s.handler
  dirtylist : s'.dirtylist = s.dirtylist
  dirty : s'.dirty = s.dirty
  others : ∀ j, j ≠ id → s'.handlers j = s.handlers j
  fileOffset : (s'.handlers id).fileOffset = (s.handlers id).fileOffset
  size : (s'.handlers id).size = (s.handlers id).size
  storeMode : (s'.handlers id).storeMode = (s.handlers id).storeMode
  status : (s'.handlers id).status = (s.handlers id).status
  packet : (s'.handlers id).packet = (s.handlers id).packet
  fresh : s'.fresh = true → s.fresh = true
  unshared : s'.unshared = true → s.unshared = true

theorem Sent.refl (id : Nat) (s : ClientFile) : Sent id s s :=
  ⟨rfl, rfl, rfl, rfl, rfl, rfl, fun _ _ => rfl, rfl, rfl, rfl, rfl, rfl, fun h => h, fun h => h⟩

theorem Sent.trans {s' s'' : ClientFile} (h : Sent id s s') (h' : Sent id s' s'') :
    Sent id s s'' where
  inode := h'.inode.trans h.inode
  extents := h'.extents.trans h.extents
  nextHandler := h'.nextHandler.trans h.nextHandler
  handler := h'.handler.trans h.handler
  dirtylist := h'.dirtylist.trans h.dirtylist
  dirty := h'.dirty.trans h.dirty
  others j hj := (h'.others j hj).trans (h.others j hj)
  fileOffset := h'.fileOffset.trans h.fileOffset
  size := h'.size.trans h.size
  storeMode := h'.storeMode.trans h.storeMode
  status := h'.status.trans h.status
  packet := h'.packet.trans h.packet
  fresh hf := h.fresh (h'.fresh hf)
  unshared hu := h.unshared (h'.unshared hu)

theorem sent_accept (s : ClientFile) (id : Nat) (packet : StreamPacket)
    (request : List StreamPacket) (p e : UInt64) (off : Nat) :
    Sent id s (s.accept id packet request p e off) := by
  have hself : (s.accept id packet request p e off).handlers id = _ := update_self ..
  refine ⟨rfl, rfl, rfl, rfl, rfl, rfl, fun j hj => update_of_ne hj .., ?_, ?_, ?_, ?_, ?_,
    fun h => h, fun h => h⟩
  all_goals
    rw [hself]
    rfl

variable (place)

theorem sent_deliver (s : ClientFile) (id : Nat) : Sent id s (s.deliver place id) := by
  have hgive (eh : ExtentHandler) (size : Nat) (p : ExtentPlace) : Sent id s (s.give eh size p) :=
    { Sent.refl id s with
      fresh := fun h => (Bool.and_eq_true_iff.mp h).1
      unshared := fun h => (Bool.and_eq_true_iff.mp h).1 }
  unfold deliver
  dsimp only
  split
  · exact .refl id s
  split
  · exact sent_accept ..
  all_goals exact (hgive ..).trans (sent_accept ..)

theorem sent_deliverNext (n : Nat) (s : ClientFile) (id : Nat) :
    Sent id s (s.deliverNext place id n) := by
  induction n generalizing s with
  | zero => exact .refl id s
  | succ n ih => exact (sent_deliver place s id).trans (ih _)

variable {place}

section

variable (h : s.Pending file id)
include h

theorem Pending.deliverNext {n : Nat} (hn : (s.handlers id).request.length = n)
    (hfresh : (s.deliverNext place id n).fresh = true)
    (hun : (s.deliverNext place id n).unshared = true) :
    (s.deliverNext place id n).Pending file id ∧
      ((s.deliverNext place id n).handlers id).request = [] := by
  induction n generalizing s with
  | zero => exact ⟨h, length_eq_zero_iff.mp hn⟩
  | succ n ih =>
    obtain ⟨packet, request, hreq⟩ := exists_cons_of_length_eq_add_one hn
    have hrest := sent_deliverNext place n (s.deliver place id) id
    obtain ⟨hnext, p, e, off, heq⟩ := h.deliver hreq (hrest.fresh hfresh) (hrest.unshared hun)
    refine ih hnext ?_ hfresh hun
    rw [heq, show ((s.accept id packet request p e off).handlers id) = _ from
      update_self ..]
    rw [hreq, length_cons] at hn
    exact succ.inj hn

theorem Pending.waitForFlush (hpacket : (s.handlers id).packet = none)
    (hfresh : (s.waitForFlush place id).fresh = true)
    (hun : (s.waitForFlush place id).unshared = true) : (s.waitForFlush place id).Pending file id ∧
      ((s.waitForFlush place id).handlers id).queue = [] ∧ Sent id s (s.waitForFlush place id) := by
  have hsent := sent_deliverNext place (s.handlers id).request.length s id
  obtain ⟨hnext, hnil⟩ := h.deliverNext rfl hfresh hun
  refine ⟨hnext, ?_, hsent⟩
  have hnone := hsent.packet.trans hpacket
  unfold queue ClientFile.waitForFlush
  rw [hnil, hnone]
  rfl

theorem Pending.appendExtentKey (hnil : (s.handlers id).queue = [])
    (hpos : 0 < (s.handlers id).size) (hroot : ∀ k : ExtentKey, k.key = (s.handlers id).fileOffset →
      k.stop = (s.handlers id).fileOffset + (s.handlers id).size →
      s.extents.root.lay stop k = s.inode.extents.lay stop k)
    (hsize : s.extents.size = file.length) :
    ∃ k, (s.handlers id).key = some k ∧ k.key = (s.handlers id).fileOffset ∧
      k.stop = (s.handlers id).fileOffset + (s.handlers id).size ∧
      Stored (s.inode.extents.lay stop k) s.nodes file 0 0 ∧
      (s.appendExtentKey id).inode.extents = s.inode.extents.lay stop k ∧
      (s.appendExtentKey id).inode.generation = s.inode.generation + 1 ∧
      (s.appendExtentKey id).extents =
        ⟨s.extents.gen + 1, file.length, s.inode.extents.lay stop k⟩ := by
  have hc := h.carries
  have hend := hc.small
  have hends := hc.ends hpos
  have hacked : (s.handlers id).acked = (s.handlers id).size := by
    have := hc.follow
    rw [hnil] at this
    exact add_left_cancel this
  obtain ⟨k, hk⟩ : ∃ k, (s.handlers id).key = some k := by
    cases hk : (s.handlers id).key with
    | none =>
      rw [acked_of_none hk] at hacked
      omega
    | some k => exact ⟨k, rfl⟩
  have hdirty : (s.handlers id).dirty = true := h.unsaved.resolve_left (not_not_intro hnil)
  obtain ⟨hkey, hknown, -, hwithin, hholds⟩ := hc.keyed k hk
  have hstop : k.stop = (s.handlers id).fileOffset + (s.handlers id).size := by
    have := acked_of_key hk
    unfold stop
    omega
  have happend : (ExtentsTree.append s.inode.extents k).1 = s.inode.extents.lay stop k := by
    refine ExtentsTree.append_eq_lay (by omega) fun d hd hfrom hto => ?_
    exact h.unshared k hk d hd (by omega) (by omega)
  refine ⟨k, hk, hkey, hstop, ?_, ?_, ?_, ?_⟩
  · exact h.stored.lay hkey hstop (by omega) (by omega) hknown hwithin hholds hends
      (h.apart k hk)
  all_goals
    unfold ClientFile.appendExtentKey
    simp only [hk, hdirty, if_true]
  · exact happend
  · rfl
  · change s.extents.append k true = _
    have hsize' : (s.extents.append k true).size = max s.extents.size k.stop :=
      ExtentCache.size_append (by omega)
    have hroot' : (s.extents.append k true).root = s.extents.root.lay stop k :=
      ExtentCache.root_append (by omega)
    rw [hroot k hkey hstop] at hroot'
    rw [hsize, max_eq_left (by omega)] at hsize'
    rw [← hroot', ← hsize']
    rfl

structure Synced (s : ClientFile) (file : Bytes) : Prop where
  gen : s.extents.gen = s.inode.generation
  size : s.extents.size = file.length
  small : file.length < 2 ^ 63
  known : ∀ id, s.handler = some id → id < s.nextHandler

/-- What the handler had in hand is now told of by the key `k` on the meta node. -/
structure Flushed (s s' : ClientFile) (file : Bytes) (id : Nat) (k : ExtentKey) : Prop where
  stored : Stored s'.inode.extents s'.nodes file 0 0
  inode : s'.inode.extents = s.inode.extents.lay ExtentKey.stop k
  generation : s'.inode.generation = s.inode.generation + 1
  root : s'.extents.root = s'.inode.extents
  synced : s'.Synced file
  start : k.key = (s.handlers id).fileOffset
  stop : k.stop = (s.handlers id).fileOffset + (s.handlers id).size
  grows : (s.handlers id).storeMode = .normal →
    (s'.handlers id).extent = some (k.partitionId, k.extentId) ∧ k.extentOffset = 0 ∧
      (s'.nodes k.partitionId k.extentId).length = k.size.toNat
  key : (s'.handlers id).key = some k
  request : (s'.handlers id).request = []
  packet : (s'.handlers id).packet = none
  clean : (s'.handlers id).dirty = false
  fileOffset : (s'.handlers id).fileOffset = (s.handlers id).fileOffset
  size : (s'.handlers id).size = (s.handlers id).size
  storeMode : (s'.handlers id).storeMode = (s.handlers id).storeMode
  status : (s'.handlers id).status =
    if (s.handlers id).storeMode = .tiny ∧ (s.handlers id).status = .opened then .closed
    else (s.handlers id).status
  others : ∀ j, j ≠ id → s'.handlers j = s.handlers j
  nextHandler : s'.nextHandler = s.nextHandler
  handler : s'.handler = s.handler
  dirtylist : s'.dirtylist = s.dirtylist
  dirty : s'.dirty = s.dirty

theorem Pending.flushPacket : (s.setHandler id (s.handlers id).flushPacket).Pending file id := by
  have hself : (s.setHandler id (s.handlers id).flushPacket).handlers id =
      { s.handlers id with request := (s.handlers id).queue, packet := none } := by
    rw [← flushPacket_eq]
    exact update_self ..
  have hqueue : ({ s.handlers id with request := (s.handlers id).queue, packet := none } :
      ExtentHandler).queue = (s.handlers id).queue := append_nil _
  have hc := h.carries
  refine ⟨⟨?_, ?_, ?_, ?_⟩, ?_⟩ <;> rw [hself]
  · exact h.stored
  · refine { hc with follow := ?_, queued := ?_, single := ?_ } <;> rw [hqueue]
    · exact hc.follow
    · exact hc.queued
    · exact hc.single
  · exact h.apart
  · exact h.unshared
  · rw [hqueue]
    exact h.unsaved

end

theorem appendExtentKey_rest (s : ClientFile) (id : Nat) : (s.appendExtentKey id).handlers =
        update s.handlers id { s.handlers id with dirty := false } ∧
      (s.appendExtentKey id).nodes = s.nodes ∧ (s.appendExtentKey id).nextHandler = s.nextHandler ∧
      (s.appendExtentKey id).handler = s.handler ∧ (s.appendExtentKey id).dirtylist = s.dirtylist ∧
      (s.appendExtentKey id).dirty = s.dirty ∧ (s.appendExtentKey id).fresh = s.fresh ∧
      (s.appendExtentKey id).unshared = s.unshared := by
  unfold ClientFile.appendExtentKey setHandler
  dsimp only
  split
  · exact ⟨rfl, rfl, rfl, rfl, rfl, rfl, rfl, rfl⟩
  split
  all_goals exact ⟨rfl, rfl, rfl, rfl, rfl, rfl, rfl, rfl⟩

theorem flushHandler_eq (place : Placement) (s : ClientFile) (id : Nat) : s.flushHandler place id =
      let s := ((s.setHandler id (s.handlers id).flushPacket).waitForFlush place id).appendExtentKey
        id
      if (s.handlers id).storeMode = .tiny then s.setHandler id (s.handlers id).setClosed else s :=
  rfl

theorem Pending.flushHandler (h : s.Pending file id) (hpos : 0 < (s.handlers id).size)
    (hroot : ∀ k : ExtentKey, k.key = (s.handlers id).fileOffset →
      k.stop = (s.handlers id).fileOffset + (s.handlers id).size →
      s.extents.root.lay stop k = s.inode.extents.lay stop k)
    (hs : s.Synced file) (hfresh : (s.flushHandler place id).fresh = true)
    (hun : (s.flushHandler place id).unshared = true) :
    ∃ k, Flushed s (s.flushHandler place id) file id k := by
  obtain ⟨s₁, hs₁⟩ : ∃ t, t = s.setHandler id (s.handlers id).flushPacket := ⟨_, rfl⟩
  obtain ⟨s₂, hs₂⟩ : ∃ t, t = s₁.waitForFlush place id := ⟨_, rfl⟩
  obtain ⟨s₃, hs₃⟩ : ∃ t, t = s₂.appendExtentKey id := ⟨_, rfl⟩
  have heq : s.flushHandler place id =
      if (s₃.handlers id).storeMode = .tiny then s₃.setHandler id (s₃.handlers id).setClosed
      else s₃ := by
    rw [hs₃, hs₂, hs₁]
    exact flushHandler_eq place s id
  obtain ⟨hhandlers, hnodes, hnext, hhandler, hlist, hdirty, hfresh₃, hun₃⟩ := by
    have := appendExtentKey_rest s₂ id
    rwa [← hs₃] at this
  have hflags : (s.flushHandler place id).fresh = s₂.fresh ∧
      (s.flushHandler place id).unshared = s₂.unshared := by
    rw [heq]
    split
    all_goals exact ⟨hfresh₃, hun₃⟩
  have hself₁ : s₁.handlers id =
      { s.handlers id with request := (s.handlers id).queue, packet := none } := by
    rw [hs₁, ← flushPacket_eq]
    exact update_self ..
  have hp₁ : s₁.Pending file id := hs₁ ▸ h.flushPacket
  obtain ⟨hp₂, hnil, hsent⟩ : s₂.Pending file id ∧ (s₂.handlers id).queue = [] ∧ Sent id s₁ s₂ := by
    rw [hs₂] at hflags ⊢
    exact hp₁.waitForFlush (by rw [hself₁]) (hflags.1 ▸ hfresh) (hflags.2 ▸ hun)
  have hf : (s₂.handlers id).fileOffset = (s.handlers id).fileOffset := by
    rw [hsent.fileOffset, hself₁]
  have hn : (s₂.handlers id).size = (s.handlers id).size := by
    rw [hsent.size, hself₁]
  have hm : (s₂.handlers id).storeMode = (s.handlers id).storeMode := by
    rw [hsent.storeMode, hself₁]
  have hstatus : (s₂.handlers id).status = (s.handlers id).status := by
    rw [hsent.status, hself₁]
  have hothers : ∀ j, j ≠ id → s₂.handlers j = s.handlers j := by
    intro j hj
    rw [hsent.others j hj, hs₁]
    exact update_of_ne hj ..
  have hinode : s₂.inode = s.inode := by rw [hsent.inode, hs₁]; rfl
  have hextents : s₂.extents = s.extents := by rw [hsent.extents, hs₁]; rfl
  obtain ⟨k, hk, hkey, hstop, hstored, hinode₃, hgen₃, hextents₃⟩ :=
    hp₂.appendExtentKey hnil (by rwa [hn]) (by rw [hf, hn, hinode, hextents]; exact hroot)
      (by rw [hextents, hs.size])
  rw [← hs₃] at hinode₃ hgen₃ hextents₃
  rw [hinode] at hstored hinode₃ hgen₃ hextents₃
  rw [hf] at hkey
  rw [hf, hn] at hstop
  obtain ⟨hrequest, hpacket⟩ := append_eq_nil_iff.mp hnil
  have hself₃ : s₃.handlers id = { s₂.handlers id with dirty := false } := by
    rw [hhandlers]
    exact update_self ..
  -- closing the handler of a tiny extent changes no more than its status
  obtain ⟨eh, heh, hfinal⟩ : ∃ eh, eh = (if (s₃.handlers id).storeMode = .tiny then
      (s₃.handlers id).setClosed else s₃.handlers id) ∧
      s.flushHandler place id = s₃.setHandler id eh := by
    refine ⟨_, rfl, ?_⟩
    rw [heq]
    split
    · rfl
    · unfold setHandler
      rw [update_eq_self]
  have hclosed : eh = { s₂.handlers id with dirty := false, status := eh.status } ∧
      eh.status = if (s.handlers id).storeMode = .tiny ∧ (s.handlers id).status = .opened then
        .closed else (s.handlers id).status := by
    rw [heh, hself₃, hm, ← hstatus]
    unfold setClosed
    by_cases htiny : (s.handlers id).storeMode = .tiny
    · by_cases hopen : (s₂.handlers id).status = .opened
      all_goals simp [htiny, hopen]
    · simp [htiny]
  have hself : (s₃.setHandler id eh).handlers id =
      { s₂.handlers id with dirty := false, status := eh.status } := by
    rw [← hclosed.1]
    exact update_self ..
  rw [hfinal]
  refine ⟨k, ?_, hinode₃, hgen₃, ?_, ⟨?_, ?_, hs.small, ?_⟩, hkey, hstop, ?_, ?_, ?_, ?_, ?_, ?_,
    ?_, ?_, ?_, ?_, ?_, ?_, ?_, ?_⟩
  · change Stored s₃.inode.extents s₃.nodes file 0 0
    rw [hinode₃, hnodes]
    exact hstored
  · change s₃.extents.root = s₃.inode.extents
    rw [hextents₃, hinode₃]
  · change s₃.extents.gen = s₃.inode.generation
    rw [hextents₃, hgen₃, hextents, hs.gen]
  · change s₃.extents.size = file.length
    rw [hextents₃]
  · intro j hj
    change s₃.handler = some j at hj
    change j < s₃.nextHandler
    rw [hhandler, hsent.handler, hs₁] at hj
    rw [hnext, hsent.nextHandler, hs₁]
    exact hs.known j hj
  · intro hmode
    rw [hself]
    change (s₂.handlers id).extent = _ ∧ _ ∧ (s₃.nodes _ _).length = _
    rw [hnodes]
    exact hp₂.carries.grows (hm.trans hmode) k hk
  · rw [hself]
    exact hk
  · rw [hself]
    exact hrequest
  · rw [hself]
    exact toList_eq_nil_iff.mp hpacket
  · rw [hself]
  · rw [hself]
    exact hf
  · rw [hself]
    exact hn
  · rw [hself]
    exact hm
  · rw [hself]
    exact hclosed.2
  · intro j hj
    rw [show (s₃.setHandler id eh).handlers j = s₃.handlers j from update_of_ne hj ..,
      hhandlers, update_of_ne hj, hothers j hj]
  · change s₃.nextHandler = s.nextHandler
    rw [hnext, hsent.nextHandler, hs₁]
    rfl
  · change s₃.handler = s.handler
    rw [hhandler, hsent.handler, hs₁]
    rfl
  · change s₃.dirtylist = s.dirtylist
    rw [hlist, hsent.dirtylist, hs₁]
    rfl
  · change s₃.dirty = s.dirty
    rw [hdirty, hsent.dirty, hs₁]
    rfl

end ClientFile
end ChubaoFS
