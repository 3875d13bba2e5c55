import ChubaoFS.ReplAcks

namespace ChubaoFS

open Function Option
open Bool (and_eq_true_iff eq_false_iff)
open DataNode (prepare operatePacket)

/-! Which packets hold a tiny extent, and what the functions of the data node do to the extents
through the packets. -/

namespace Packet

def TinyWrite (node : DataNode) (wire : Packet) : Prop :=
  wire.partitionID = node.partitionID ∧ wire.isWriteOperation = true ∧ wire.isTinyExtentType = true

/-- A write leaves the choice of the tiny extent to the node. -/
def AsksForTiny (node : DataNode) (wire : Packet) : Prop :=
  wire.partitionID = node.partitionID → wire.isWriteOperation = true →
    isTinyExtent wire.extentID = false ∧ (wire.isTinyExtentType = true →
      0 < wire.remainingFollowers ∧ wire.resolved.followersAddrs ≠ [])

instance (node : DataNode) (wire : Packet) : Decidable (wire.AsksForTiny node) :=
  inferInstanceAs (Decidable (_ → _ → _ ∧ (_ → _ ∧ _)))

/-- The packet holds a tiny extent: `releaseExtent` will give it back. -/
def owns (p : Packet) : Bool :=
  p.object == .partition && !p.isReleased && p.isTinyExtentType && p.isLeaderPacket &&
    p.isWriteOperation && isTinyExtent p.extentID

def frame (p : Packet) : UInt8 × UInt8 × UInt8 × UInt64 :=
  (p.opcode, p.extentType, p.remainingFollowers, p.partitionID)

variable {p q : Packet}

theorem core_eq_iff : p.core = q.core ↔ p.frame = q.frame ∧
    p.extentID = q.extentID ∧ p.extentOffset = q.extentOffset ∧ p.object = q.object ∧
    p.isReleased = q.isReleased := by
  unfold core frame
  simp only [Prod.mk.injEq]
  tauto

theorem kind_of_frame (h : p.frame = q.frame) :
    p.isWriteOperation = q.isWriteOperation ∧ p.isTinyExtentType = q.isTinyExtentType ∧
      p.isLeaderPacket = q.isLeaderPacket ∧ p.partitionID = q.partitionID ∧
      p.isMasterCommand = q.isMasterCommand := by
  unfold frame at h
  simp only [Prod.mk.injEq] at h
  obtain ⟨hop, htype, hfollow, hpart⟩ := h
  unfold isLeaderPacket isMasterCommand isWriteOperation isCreateExtentOperation
    isMarkDeleteExtentOperation isTinyExtentType isForwardPacket
  rw [hop, htype, hfollow]
  exact ⟨rfl, rfl, rfl, hpart, rfl⟩

theorem owns_of_core (h : p.core = q.core) : p.owns = q.owns := by
  obtain ⟨hframe, hid, _, hobj, hrel⟩ := core_eq_iff.mp h
  obtain ⟨hw, ht, hl, _, _⟩ := kind_of_frame hframe
  unfold owns
  rw [hw, ht, hl, hid, hobj, hrel]

theorem owns_iff : p.owns = true ↔ p.object = .partition ∧ p.isReleased = false ∧
    p.isTinyExtentType = true ∧ p.isLeaderPacket = true ∧ p.isWriteOperation = true ∧
    isTinyExtent p.extentID = true := by
  unfold owns
  simp only [Bool.and_eq_true, beq_iff_eq, Bool.not_eq_true']
  tauto

theorem resolved_core (wire : Packet) : wire.resolved.core = wire.readFromConnFromCli.core ∧
    wire.resolved.size = wire.size := by
  unfold resolved resolveFollowersAddr
  split
  · exact ⟨rfl, rfl⟩
  dsimp only
  split
  all_goals exact ⟨rfl, rfl⟩

end Packet

namespace ReplRequest

def Pending (r : ReplRequest) : Prop :=
  r.packet.owns = true ∧ (r.stage = .queued ∨ r.stage = .operating)

def Written (node : DataNode) (r : ReplRequest) : Prop :=
  r.wire.TinyWrite node ∧ r.localResult = some true

def stop (r : ReplRequest) : Int := r.packet.extentOffset + r.wire.size.toNat

structure Tidy (node : DataNode) (r : ReplRequest) : Prop where
  asks : r.stage ≠ .unread → r.wire.AsksForTiny node
  frame : r.stage ≠ .unread → r.packet.frame = r.wire.frame
  object : r.packet.object = .partition → r.wire.partitionID = node.partitionID
  normal : r.packet.object = .partition → r.wire.isWriteOperation = true →
    isTinyExtent r.packet.extentID = true → r.wire.isTinyExtentType = true
  unreleased : r.stage ≠ .closed → r.packet.isReleased = false
  owner : r.stage = .queued ∨ r.stage = .operating → r.wire.TinyWrite node → r.packet.owns = true
  size : r.stage = .reading ∨ r.stage = .queued ∨ r.stage = .operating →
    r.wire.TinyWrite node → r.packet.size = r.wire.size
  unfinished : r.stage = .reading ∨ r.stage = .queued ∨ r.stage = .operating → r.localResult = none

end ReplRequest

inductive TinyMove (node : DataNode) (r : ReplRequest) (t : TinyExtents) :
    ReplRequest → TinyExtents → Prop
  | quiet {r' : ReplRequest}
      (owner : r'.packet.owns = true →
        r.packet.owns = true ∧ r'.packet.extentID = r.packet.extentID)
      (written : r'.Written node → r.Written node ∧ r'.packet.extentID = r.packet.extentID ∧
        r'.packet.extentOffset = r.packet.extentOffset ∧ r'.wire = r.wire)
      (pending : r'.Pending → r.Pending ∧ r'.packet.extentOffset = r.packet.extentOffset) :
      TinyMove node r t r' t
  | take {r' : ReplRequest} {id : UInt64} {rest : List UInt64} (first : t.available = id :: rest)
      (old : r.packet.owns = false) (owner : r'.packet.extentID = id)
      (stage : r'.stage = .reading) (written : ¬ r'.Written node) :
      TinyMove node r t r' { t with available := rest }
  | place {r' : ReplRequest} {w : Nat} (owner : r.packet.owns = true)
      (size : t.sizes r.packet.extentID = some w) (same : r'.packet.extentID = r.packet.extentID)
      (offset : r'.packet.extentOffset = roundUp w) (written : ¬ r'.Written node) :
      TinyMove node r t r' t
  | write {r' : ReplRequest} {w : Nat} (pending : r.Pending) (old : ¬ r.Written node)
      (same : r'.packet.core = r.packet.core)
      (lower : r.packet.extentOffset ≤ w) (upper : r'.Written node → r'.stop ≤ w)
      (ended : r'.Written node → ¬ r'.Pending) :
      TinyMove node r t r'
        { t with sizes := Function.update t.sizes r.packet.extentID (some w) }
  | release {r' : ReplRequest} {t' : TinyExtents} (owner : r.packet.owns = true)
      (free : r'.packet.owns = false)
      (written : r'.Written node → r.Written node ∧ r'.packet.extentID = r.packet.extentID ∧
        r'.packet.extentOffset = r.packet.extentOffset ∧ r'.wire = r.wire)
      (given : t' = if r.packet.isErrPacket then
          { t with broken := t.broken ++ [r.packet.extentID] }
        else { t with available := t.available ++ [r.packet.extentID] }) : TinyMove node r t r' t'

namespace DataNode

variable {node : DataNode}

/-- The cases of `prepare`'s first slice. -/
inductive Prepared (node : DataNode) (t : TinyExtents) (p : Packet) :
    TinyExtents → Packet → Progress → Prop
  | failed {q : Packet} (frame : q.frame = p.frame) (id : q.extentID = p.extentID)
      (rel : q.isReleased = p.isReleased)
      (object : q.object = p.object ∨ q.object = .otherPartition ∨
        q.object = .partition ∧ p.partitionID = node.partitionID) : Prepared node t p t q .failed
  | took {id : UInt64} {rest : List UInt64} (first : t.available = id :: rest)
      (part : p.partitionID = node.partitionID) (tiny : p.isTinyExtentType = true)
      (leader : p.isLeaderPacket = true) (write : p.isWriteOperation = true) :
      Prepared node t p { t with available := rest }
        { p with object := .partition, extentID := id } .goesOn
  | plain {q : Packet} (frame : q.frame = p.frame) (rel : q.isReleased = p.isReleased)
      (object : p.isMasterCommand = true ∧ q = p ∨ q.object = .otherPartition ∧
          p.partitionID ≠ node.partitionID ∨
        q.object = .partition ∧ p.partitionID = node.partitionID ∧
          (p.isWriteOperation = true → q.extentID = p.extentID ∧ q.size = p.size ∧
            ¬ (p.isLeaderPacket = true ∧ p.isTinyExtentType = true))) : Prepared node t p t q .done

variable {p : Packet}

theorem not_create_of_write (h : p.isWriteOperation = true) :
    p.isCreateExtentOperation = false ∧ p.isMarkDeleteExtentOperation = false := by
  unfold Packet.isWriteOperation at h
  unfold Packet.isCreateExtentOperation Packet.isMarkDeleteExtentOperation
  obtain h | h := Bool.or_eq_true_iff.mp h
  all_goals
    rw [eq_of_beq h]
    exact ⟨rfl, rfl⟩

theorem prepared_addExtentInfo (o : NodeOutcome) (t : TinyExtents)
    (hpart : p.partitionID = node.partitionID) :
    let res := addExtentInfo o t { p with object := .partition }
    Prepared node t p res.1 res.2.1 res.2.2 := by
  have hfail (msg : ErrText) : Prepared node t p t
      ({ p with object := .partition }.packErrorBody .preparePkt msg) .failed :=
    .failed rfl rfl rfl (.inr (.inr ⟨rfl, hpart⟩))
  dsimp only
  unfold addExtentInfo
  split
  next hkind =>
    obtain ⟨hkind, hwrite⟩ := and_eq_true_iff.mp hkind
    obtain ⟨hleader, htiny⟩ := and_eq_true_iff.mp hkind
    cases havail : t.available with
    | nil => exact hfail _
    | cons id rest => exact .took havail hpart htiny hleader hwrite
  rename_i hkind
  have hplain (q : Packet) (hframe : q.frame = p.frame) (hrel : q.isReleased = p.isReleased)
      (hobj : q.object = .partition)
      (hw : p.isWriteOperation = true → q.extentID = p.extentID ∧ q.size = p.size) :
      Prepared node t p t q .done := by
    refine .plain hframe hrel (.inr (.inr ⟨hobj, hpart, fun h => ⟨(hw h).1, (hw h).2, ?_⟩⟩))
    rintro ⟨hleader, htiny⟩
    refine hkind (and_eq_true_iff.mpr ⟨and_eq_true_iff.mpr ⟨?_, htiny⟩, h⟩)
    exact hleader
  split
  next hcreate =>
    split
    · exact hfail _
    refine hplain _ rfl rfl rfl fun h => ?_
    have hc : p.isCreateExtentOperation = true := (and_eq_true_iff.mp hcreate).2
    exact absurd (hc.symm.trans (not_create_of_write h).1) Bool.noConfusion
  split
  next hmark =>
    split
    · exact hfail _
    refine hplain _ rfl rfl rfl fun h => ?_
    have hm : p.isMarkDeleteExtentOperation = true :=
      (and_eq_true_iff.mp (and_eq_true_iff.mp hmark).1).2
    exact absurd (hm.symm.trans (not_create_of_write h).2) Bool.noConfusion
  · exact hplain _ rfl rfl rfl fun _ => ⟨rfl, rfl⟩

theorem prepared (node : DataNode) (o : NodeOutcome) (t : TinyExtents) (p : Packet) :
    let res := node.prepare o 0 t p
    Prepared node t p res.1 res.2.1 res.2.2 := by
  dsimp only [prepare]
  split
  next hmaster => exact .plain rfl rfl (.inl ⟨hmaster, rfl⟩)
  split
  · exact .failed rfl rfl rfl (.inl rfl)
  · split
    · exact .failed rfl rfl rfl (.inl rfl)
    · split
      next hpart =>
        split
        · exact .failed rfl rfl rfl (.inr (.inl rfl))
        · exact .plain rfl rfl (.inr (.inl ⟨rfl, hpart⟩))
      next hpart =>
        have hpart : p.partitionID = node.partitionID := Decidable.not_not.mp hpart
        split
        · exact .failed rfl rfl rfl (.inr (.inr ⟨rfl, hpart⟩))
        · exact prepared_addExtentInfo o t hpart

theorem writeTiny_ok {t t' : TinyExtents} {id : UInt64} {offset : Int} {size : Nat}
    {err : Option ErrText} (h : t.writeTiny id offset size err = .ok t') :
    0 ≤ offset ∧ (t.sizes id).isSome = true ∧
      t' = { t with sizes := update t.sizes id (some (roundUp (offset + size).toNat)) } := by
  unfold TinyExtents.writeTiny at h
  split at h
  · cases h
  rename_i hsome
  dsimp only at h
  split at h
  · cases h
  split at h
  · cases h
  · split at h
    · cases h
    next hneg =>
      exact ⟨Int.not_lt.mp hneg, by rw [hsome]; rfl, (Except.ok.inj h).symm⟩

theorem handleWritePacket_normal (o : NodeOutcome) (n : Nat) (t : TinyExtents)
    (hid : isTinyExtent p.extentID = false) : let res := handleWritePacket o n t p
    res.1 = t ∧ res.2.1.core = p.core ∧ (res.2.2.2 = false → res.2.1 = p) := by
  dsimp only
  unfold handleWritePacket
  rw [hid]
  dsimp only
  split
  · exact ⟨rfl, rfl, nofun⟩
  rename_i t' hres
  have ht : t' = t := by
    split at hres
    · cases hres
    split at hres
    · cases hres
    · split at hres
      next hfalse => cases hfalse
      · split at hres
        · cases hres
        · exact (Except.ok.inj hres).symm
  split
  · exact ⟨ht, rfl, nofun⟩
  · exact ⟨ht, rfl, fun _ => rfl⟩

theorem handleWritePacket_tiny (o : NodeOutcome) (n : Nat) (t : TinyExtents)
    (hid : isTinyExtent p.extentID = true) : let res := handleWritePacket o n t p
    res.2.1.core = p.core ∧ (res.1 = t ∧ res.2.2.2 = true ∧ res.2.1.isErrPacket = true ∨
        ∃ w : Nat, res.1 = { t with
            sizes := update t.sizes p.extentID (some w) } ∧ p.extentOffset ≤ w ∧
          (res.2.2.2 = true → p.extentOffset + p.size.toNat ≤ w) ∧
          (res.2.2.2 = false → res.2.1 = p)) := by
  dsimp only
  unfold handleWritePacket
  rw [hid]
  dsimp only
  split
  · exact ⟨rfl, .inl ⟨rfl, rfl, Packet.packErrorBody_isErrPacket ..⟩⟩
  rename_i t' hres
  split at hres
  · cases hres
  split at hres
  · cases hres
  · rw [if_pos rfl] at hres
    obtain ⟨hpos, _, rfl⟩ := writeTiny_ok hres
    have hround := le_roundUp
      (p.extentOffset + ↑(n * blockSize) + ↑(min (p.size.toNat - n * blockSize) blockSize)).toNat
    split
    next hfin =>
      refine ⟨rfl, .inr ⟨_, rfl, ?_, fun _ => ?_, nofun⟩⟩
      · omega
      · omega
    · refine ⟨rfl, .inr ⟨_, rfl, ?_, nofun, fun _ => rfl⟩⟩
      omega

theorem not_master_of_write (h : p.isWriteOperation = true) : p.isMasterCommand = false := by
  unfold Packet.isWriteOperation at h
  unfold Packet.isMasterCommand
  obtain h | h := Bool.or_eq_true_iff.mp h
  all_goals
    rw [eq_of_beq h]
    rfl

theorem not_read_of_write (h : p.isWriteOperation = true) : p.isReadExtentOperation = false := by
  unfold Packet.isWriteOperation at h
  unfold Packet.isReadExtentOperation
  obtain h | h := Bool.or_eq_true_iff.mp h
  all_goals
    rw [eq_of_beq h]
    rfl

theorem post_cases {t t' : TinyExtents} {p' : Packet} (h : post t p = some (t', p')) :
    p'.frame = p.frame ∧ p'.extentID = p.extentID ∧ p'.extentOffset = p.extentOffset ∧
      (p.owns = false ∧ t' = t ∨ p.owns = true ∧
        t' = if p.isErrPacket then { t with broken := t.broken ++ [p.extentID] }
          else { t with available := t.available ++ [p.extentID] }) := by
  unfold post at h
  split at h
  next hno =>
    cases h
    refine ⟨rfl, rfl, rfl, .inl ⟨?_, rfl⟩⟩
    rw [eq_false_iff]
    intro howns
    obtain ⟨_, _, _, hleader, hwrite, _⟩ := Packet.owns_iff.mp howns
    rw [hleader, not_master_of_write hwrite] at hno
    cases hno
  have howns : (setNeedReply p).owns = p.owns := rfl
  rw [← howns]
  unfold releaseExtent at h
  split at h
  next hno =>
    cases h
    refine ⟨rfl, rfl, rfl, .inl ⟨?_, rfl⟩⟩
    rw [eq_false_iff]
    intro howns
    obtain ⟨_, hrel, _, _, _, hid⟩ := Packet.owns_iff.mp howns
    rw [hrel, hid] at hno
    cases hno
  rename_i hid
  split at h
  next hno =>
    cases h
    refine ⟨rfl, rfl, rfl, .inl ⟨?_, rfl⟩⟩
    rw [eq_false_iff]
    intro howns
    obtain ⟨_, _, htiny, hleader, hwrite, _⟩ := Packet.owns_iff.mp howns
    rw [htiny, hleader, hwrite] at hno
    cases hno
  rename_i hkind
  have hother (ho : (setNeedReply p).object ≠ .partition) : (setNeedReply p).owns = false := by
    rw [eq_false_iff]
    exact fun howns => ho (Packet.owns_iff.mp howns).1
  split at h
  next hobj =>
    cases h
    exact ⟨rfl, rfl, rfl, .inl ⟨hother (hobj ▸ nofun), rfl⟩⟩
  next hobj =>
    cases h
    exact ⟨rfl, rfl, rfl, .inl ⟨hother (hobj ▸ nofun), rfl⟩⟩
  next hobj =>
    obtain ⟨t₁, hsend, heq⟩ := map_eq_some_iff.mp h
    cases heq
    refine ⟨rfl, rfl, rfl, .inr ⟨Packet.owns_iff.mpr ⟨hobj, ?_⟩, ?_⟩⟩
    · simp only [Bool.or_eq_true, Bool.not_eq_true', not_or, Bool.not_eq_true,
        Bool.not_eq_false] at hid hkind
      tauto
    · split at hsend
      next herr =>
        rw [if_pos (show p.isErrPacket = true from herr)]
        unfold TinyExtents.sendToBroken at hsend
        split at hsend
        · exact (some.inj hsend).symm
        · cases hsend
      next herr =>
        rw [if_neg (show ¬ p.isErrPacket = true from herr)]
        unfold TinyExtents.sendToAvailable at hsend
        split at hsend
        · exact (some.inj hsend).symm
        · cases hsend

end DataNode

/-- What is known of the packet that a reader is at, after `n` slices. -/
def ReplRequest.ReadUpTo (r : ReplRequest) (n : Nat) : Prop :=
  if n = 0 then r.packet.object = .none ∧ r.packet.extentID = r.wire.extentID
  else r.packet.owns = true

structure NodeTidy (node : DataNode) (s : Server TinyExtents) : Prop where
  acks : ∀ c, ∃ done, (s.conns c).Acks done
  tidy : ∀ c i, ((s.conns c).heap i).Tidy node
  reader : ∀ c i n, (s.conns c).reader = .preparing i n → ((s.conns c).heap i).ReadUpTo n

namespace ReplRequest

variable {node : DataNode} {r r' : ReplRequest} {t t' : TinyExtents} {q : Packet}

theorem Tidy.tinyWrite (h : r.Tidy node) (hst : r.stage ≠ .unread)
    (hobj : r.packet.object = .partition) (hw : r.packet.isWriteOperation = true)
    (hid : isTinyExtent r.packet.extentID = true) : r.wire.TinyWrite node := by
  have hw' : r.wire.isWriteOperation = true := (Packet.kind_of_frame (h.frame hst)).1 ▸ hw
  exact ⟨h.object hobj, hw', h.normal hobj hw' hid⟩

theorem not_written_of_none (h : r.localResult = none) : ¬ r.Written node :=
  fun hw => absurd (h.symm.trans hw.2) nofun

theorem Tidy.read {wire : Packet} (hasks : wire.AsksForTiny node) (hw : r.wire = wire)
    (hp : r.packet = wire.resolved) (hres : r.localResult = none)
    (hst : r.stage = .reading ∨ r.stage = .answered) :
    r.Tidy node ∧ r.packet.owns = false ∧ r.ReadUpTo 0 := by
  obtain ⟨hcore, hsize⟩ := Packet.resolved_core wire
  obtain ⟨hframe, hid, _, hobj, hrel⟩ := Packet.core_eq_iff.mp hcore
  have hnone : r.packet.object = .none := by
    rw [hp, hobj]
    rfl
  have hno : r.packet.object ≠ .partition := hnone ▸ nofun
  have hrun : ¬ (r.stage = .queued ∨ r.stage = .operating) := by
    obtain hst | hst := hst
    all_goals
      rw [hst]
      nofun
  refine ⟨⟨fun _ => hw ▸ hasks, fun _ => ?_, fun h => absurd h hno, fun h => absurd h hno,
    fun _ => ?_, fun h => absurd h hrun, fun _ _ => ?_, fun _ => hres⟩, ?_, ?_⟩
  · rw [hp, hw]
    exact hframe
  · rw [hp, hrel]
    rfl
  · rw [hp, hw]
    exact hsize
  · rw [eq_false_iff]
    exact fun howns => hno (Packet.owns_iff.mp howns).1
  · refine (if_pos rfl).mpr ⟨hnone, ?_⟩
    rw [hp, hw, hid]
    rfl

variable (h : r.Tidy node)
include h

theorem Tidy.not_owner (hst : r.stage ≠ .unread) (hframe : q.frame = r.packet.frame)
    (hid : q.extentID = r.wire.extentID)
    (hobj : q.object = .partition → r.packet.partitionID = node.partitionID) :
    q.owns = false ∧ (q.object = .partition → r.wire.isWriteOperation = true →
      isTinyExtent q.extentID = false) := by
  obtain ⟨hw, _, _, hpart, _⟩ := Packet.kind_of_frame (hframe.trans (h.frame hst))
  have hpart' := (Packet.kind_of_frame (h.frame hst)).2.2.2.1
  have hno (ho : q.object = .partition) (hwrite : r.wire.isWriteOperation = true) :
      isTinyExtent q.extentID = false :=
    hid ▸ (h.asks hst (hpart' ▸ hobj ho) hwrite).1
  refine ⟨?_, hno⟩
  rw [eq_false_iff]
  intro howns
  obtain ⟨ho, _, _, _, hwrite, htiny⟩ := Packet.owns_iff.mp howns
  exact absurd (htiny.symm.trans (hno ho (hw ▸ hwrite))) Bool.noConfusion

theorem Tidy.prepare_first (hst : r.stage = .reading) (hread : r.ReadUpTo 0)
    (htiny : ∀ id ∈ t.available, isTinyExtent id = true) {g : Progress}
    (hp : DataNode.Prepared node t r.packet t' q g) :
    Tidy node { r with packet := q, stage := g.stage } ∧
      TinyMove node r t { r with packet := q, stage := g.stage } t' ∧
      (g = .goesOn → q.owns = true) := by
  have hunread : r.stage ≠ .unread := hst ▸ nofun
  have hasks := h.asks hunread
  have hframe := h.frame hunread
  obtain ⟨hw, ht, _, hpart, _⟩ := Packet.kind_of_frame hframe
  obtain ⟨hnone, hid⟩ := (if_pos rfl).mp hread
  have hrel := h.unreleased (hst ▸ nofun)
  have hres := h.unfinished (.inl hst)
  have hold : r.packet.owns = false := by
    rw [eq_false_iff]
    exact fun howns => absurd (hnone.symm.trans (Packet.owns_iff.mp howns).1) nofun
  have hquiet {q : Packet} {st : Stage} (hq : q.owns = false) :
      TinyMove node r t { r with packet := q, stage := st } t :=
    .quiet (fun howns => absurd (hq.symm.trans howns) Bool.noConfusion)
      (fun hwr => absurd hwr (not_written_of_none hres))
      (fun hpend => absurd (hq.symm.trans hpend.1) Bool.noConfusion)
  cases hp with
  | failed hqframe hqid hqrel hqobj =>
    have hobj : q.object = .partition → r.packet.partitionID = node.partitionID := by
      intro ho
      obtain hqobj | hqobj | hqobj := hqobj
      · exact absurd (ho.symm.trans (hqobj.trans hnone)) nofun
      · exact absurd (ho.symm.trans hqobj) nofun
      · exact hqobj.2
    obtain ⟨howns, hnormal⟩ := h.not_owner hunread hqframe (hqid.trans hid) hobj
    refine ⟨⟨fun _ => hasks, fun _ => hqframe.trans hframe, fun ho => hpart ▸ hobj ho, ?_,
      fun _ => hqrel.trans hrel, nofun, nofun, nofun⟩, hquiet howns, nofun⟩
    intro ho hwrite htiny
    exact absurd (htiny.symm.trans (hnormal ho hwrite)) Bool.noConfusion
  | took hfirst hpartition htype hleader hwrite =>
    refine ⟨⟨fun _ => hasks, fun _ => hframe, fun _ => hpart ▸ hpartition, fun _ _ _ => ht ▸ htype,
      fun _ => hrel, nofun, fun _ htw => h.size (.inl hst) htw, fun _ => hres⟩,
      .take hfirst hold rfl rfl (not_written_of_none hres), fun _ => ?_⟩
    refine Packet.owns_iff.mpr ⟨rfl, hrel, htype, hleader, hwrite, htiny _ ?_⟩
    exact hfirst ▸ List.mem_cons_self ..
  | plain hqframe hqrel hqobj =>
    -- a tiny write of the partition would have been given an extent
    have hno : ¬ r.wire.TinyWrite node := by
      rintro ⟨hpartition, hwrite, htype⟩
      rw [← hw] at hwrite
      obtain ⟨hmaster, _⟩ | ⟨_, hother⟩ | ⟨_, _, hplain⟩ := hqobj
      · exact absurd (hmaster.symm.trans (DataNode.not_master_of_write hwrite)) Bool.noConfusion
      · exact hother (hpart ▸ hpartition)
      · refine (hplain hwrite).2.2 ⟨?_, ht ▸ htype⟩
        have hforward := ((hasks hpartition (hw ▸ hwrite)).2 htype).1
        unfold Packet.isLeaderPacket Packet.isForwardPacket
        rw [hwrite, (Prod.mk.inj (Prod.mk.inj (Prod.mk.inj hframe).2).2).1, decide_eq_true hforward]
        rfl
    have hnormal : q.object = .partition → r.wire.isWriteOperation = true →
        isTinyExtent q.extentID = true → False := by
      intro ho hwrite htiny
      obtain ⟨_, rfl⟩ | ⟨hother, _⟩ | ⟨_, hpartition, hplain⟩ := hqobj
      · exact absurd (ho.symm.trans hnone) nofun
      · exact absurd (ho.symm.trans hother) nofun
      · rw [(hplain (hw ▸ hwrite)).1, hid, (hasks (hpart ▸ hpartition) hwrite).1] at htiny
        cases htiny
    have hobject : q.object = .partition → r.packet.partitionID = node.partitionID := by
      intro ho
      obtain ⟨_, rfl⟩ | ⟨hother, _⟩ | ⟨_, hpartition, _⟩ := hqobj
      · exact absurd (ho.symm.trans hnone) nofun
      · exact absurd (ho.symm.trans hother) nofun
      · exact hpartition
    have howns : q.owns = false := by
      rw [eq_false_iff]
      intro howns
      obtain ⟨ho, _, _, _, hwrite, htiny⟩ := Packet.owns_iff.mp howns
      exact hnormal ho ((Packet.kind_of_frame (hqframe.trans hframe)).1 ▸ hwrite) htiny
    exact ⟨⟨fun _ => hasks, fun _ => hqframe.trans hframe, fun ho => hpart ▸ hobject ho,
      fun ho hwrite htiny => (hnormal ho hwrite htiny).elim, fun _ => hqrel.trans hrel,
      fun _ htw => absurd htw hno, fun _ htw => absurd htw hno, fun _ => hres⟩,
      hquiet howns, nofun⟩

theorem Tidy.prepare_second (hst : r.stage = .reading)
    (howns : r.packet.owns = true) (o : NodeOutcome) (n : Nat) :
    let res := node.prepare o (n + 1) t r.packet
    Tidy node { r with packet := res.2.1, stage := res.2.2.stage } ∧
      TinyMove node r t { r with packet := res.2.1, stage := res.2.2.stage } res.1 ∧
      res.2.2 ≠ .goesOn := by
  have hunread : r.stage ≠ .unread := hst ▸ nofun
  have hrel := h.unreleased (hst ▸ nofun)
  have hres := h.unfinished (.inl hst)
  dsimp only [prepare]
  split
  · refine ⟨⟨fun _ => h.asks hunread, fun _ => h.frame hunread, h.object, h.normal, fun _ => hrel,
      nofun, nofun, nofun⟩, ?_, nofun⟩
    refine .quiet (fun _ => ⟨howns, rfl⟩) (fun hwr => absurd hwr (not_written_of_none hres)) ?_
    intro hpend
    obtain hp | hp := hpend.2
    all_goals cases hp
  rename_i offset hoffset
  obtain ⟨w, hw, rfl⟩ := map_eq_some_iff.mp hoffset
  exact ⟨⟨fun _ => h.asks hunread, fun _ => h.frame hunread, h.object, h.normal, fun _ => hrel,
    fun _ _ => howns, fun _ htw => h.size (.inl hst) htw, fun _ => hres⟩,
    .place howns hw rfl rfl (not_written_of_none hres), nofun⟩

omit h in
theorem late_of {st : Stage} (hst : st = .operated ∨ st = .answered) :
    ¬ (st = .queued ∨ st = .operating) ∧ ¬ (st = .reading ∨ st = .queued ∨ st = .operating) := by
  obtain rfl | rfl := hst
  all_goals exact ⟨nofun, nofun⟩

/-- The request that results is tidy if the packet kept its core. -/
theorem Tidy.of_core (hst : r.stage = .operating) {st : Stage} (p : Packet) (fin : Bool)
    (hcore : p.core = r.packet.core)
    (hfin : if fin then st = .operated ∨ st = .answered else st = .operating)
    (hsize : fin = false → p = r.packet) :
    Tidy node { r with
      packet := p, stage := st
      localResult := if fin then some !p.isErrPacket else r.localResult } := by
  have hunread : r.stage ≠ .unread := hst ▸ nofun
  obtain ⟨hpframe, hpid, _, hpobj, hprel⟩ := Packet.core_eq_iff.mp hcore
  refine ⟨fun _ => h.asks hunread, fun _ => hpframe.trans (h.frame hunread),
    fun ho => h.object (hpobj ▸ ho), ?_, fun _ => hprel.trans (h.unreleased (hst ▸ nofun)),
    ?_, ?_, ?_⟩
  · intro ho hw hid
    exact h.normal (hpobj ▸ ho) hw (hpid ▸ hid)
  · intro hs htw
    cases fin with
    | true => exact absurd hs (late_of hfin).1
    | false => exact hsize rfl ▸ h.owner (.inr hst) htw
  · intro hs htw
    cases fin with
    | true => exact absurd hs (late_of hfin).2
    | false => exact hsize rfl ▸ h.size (.inr (.inr hst)) htw
  · intro hs
    cases fin with
    | true => exact absurd hs (late_of hfin).2
    | false => exact h.unfinished (.inr (.inr hst))

/-- What another operation changes is not looked at. -/
theorem Tidy.other (hst : r.stage = .operating) (hno : r.packet.owns = false) {st : Stage}
    (p : Packet) (hpframe : p.frame = r.packet.frame) (hpid : p.extentID = r.packet.extentID)
    (hpobj : p.object = r.packet.object) (hprel : p.isReleased = r.packet.isReleased)
    (hs : st = .operated ∨ st = .answered) :
    Tidy node { r with packet := p, stage := st, localResult := some !p.isErrPacket } ∧
      TinyMove node r t
        { r with packet := p, stage := st, localResult := some !p.isErrPacket } t := by
  have hunread : r.stage ≠ .unread := hst ▸ nofun
  have howns : p.owns = false := by
    obtain ⟨hw, ht, hl, _, _⟩ := Packet.kind_of_frame hpframe
    unfold Packet.owns at hno ⊢
    rw [hw, ht, hl, hpid, hpobj, hprel]
    exact hno
  refine ⟨⟨fun _ => h.asks hunread, fun _ => hpframe.trans (h.frame hunread),
    fun ho => h.object (hpobj ▸ ho), fun ho hw hid => h.normal (hpobj ▸ ho) hw (hpid ▸ hid),
    fun _ => hprel.trans (h.unreleased (hst ▸ nofun)), fun hq => absurd hq (late_of hs).1,
    fun hq => absurd hq (late_of hs).2, fun hq => absurd hq (late_of hs).2⟩, ?_⟩
  exact .quiet (fun ho => absurd (howns.symm.trans ho) Bool.noConfusion)
    (fun hwr => absurd (hno.symm.trans (h.owner (.inr hst) hwr.1)) Bool.noConfusion)
    (fun hpend => absurd (howns.symm.trans hpend.1) Bool.noConfusion)

theorem Tidy.operate (hst : r.stage = .operating) (o : NodeOutcome) (n : Nat)
    (st : Stage) (hst' : if (operatePacket o n t r.packet).2.2.2 then
      st = .operated ∨ st = .answered else st = .operating) :
    let res := operatePacket o n t r.packet
    let r' := { r with
      packet := res.2.1, stage := st
      localResult := if res.2.2.2 then some !res.2.1.isErrPacket else r.localResult }
    Tidy node r' ∧ TinyMove node r t r' res.1 := by
  have hunread : r.stage ≠ .unread := hst ▸ nofun
  have hres := h.unfinished (.inr (.inr hst))
  dsimp only
  unfold operatePacket at hst' ⊢
  split
  next hkind =>
    rw [if_pos hkind] at hst'
    obtain ⟨hw, hobj⟩ := and_eq_true_iff.mp hkind
    have hobj : r.packet.object = .partition := eq_of_beq hobj
    by_cases hid : isTinyExtent r.packet.extentID = true
    · have htw := h.tinyWrite hunread hobj hw hid
      have howns := h.owner (.inr hst) htw
      obtain ⟨hcore, hcase⟩ := DataNode.handleWritePacket_tiny o n t hid
      obtain ⟨ht, hfin, herr⟩ | ⟨w, ht, hlow, hup, hmore⟩ := hcase
      · rw [hfin] at hst'
        refine ⟨h.of_core hst _ _ hcore (hfin ▸ hst') fun hf =>
          absurd (hfin.symm.trans hf) Bool.noConfusion, ?_⟩
        rw [ht]
        refine .quiet (fun _ => ⟨howns, (Packet.core_eq_iff.mp hcore).2.1⟩) ?_ ?_
        · intro hwr
          have := hwr.2
          rw [hfin, if_pos rfl, herr] at this
          cases this
        · exact fun hpend => absurd hpend.2 (late_of hst').1
      · refine ⟨h.of_core hst _ _ hcore hst' hmore, ?_⟩
        have hfinished {fin : Bool} {b : Bool}
            (hwr : (if fin then some b else r.localResult) = some true) : fin = true := by
          cases fin with
          | true => rfl
          | false => exact absurd (hres.symm.trans hwr) nofun
        rw [ht]
        refine .write ⟨howns, .inr hst⟩ (not_written_of_none hres) hcore hlow ?_ ?_
        · intro hwr
          have hstop := hup (hfinished hwr.2)
          rw [h.size (.inr (.inr hst)) htw] at hstop
          unfold stop
          dsimp only
          rw [(Packet.core_eq_iff.mp hcore).2.2.1]
          exact hstop
        · intro hwr hpend
          rw [hfinished hwr.2] at hst'
          exact absurd hpend.2 (late_of hst').1
    rw [Bool.not_eq_true] at hid
    obtain ⟨ht, hcore, hmore⟩ := DataNode.handleWritePacket_normal o n t hid
    have hno : r.packet.owns = false := by
      rw [eq_false_iff]
      intro howns
      exact absurd (hid.symm.trans (Packet.owns_iff.mp howns).2.2.2.2.2) Bool.noConfusion
    have howns := (Packet.owns_of_core hcore).trans hno
    refine ⟨h.of_core hst _ _ hcore hst' hmore, ?_⟩
    rw [ht]
    refine .quiet (fun ho => absurd (howns.symm.trans ho) Bool.noConfusion) ?_
      (fun hpend => absurd (howns.symm.trans hpend.1) Bool.noConfusion)
    intro hwr
    exact absurd (hno.symm.trans (h.owner (.inr hst) hwr.1)) Bool.noConfusion
  rename_i hkind
  rw [if_neg hkind] at hst'
  have hno : r.packet.owns = false := by
    rw [eq_false_iff]
    intro howns
    obtain ⟨hobj, _, _, _, hw, _⟩ := Packet.owns_iff.mp howns
    exact hkind (and_eq_true_iff.mpr ⟨hw, beq_iff_eq.mpr hobj⟩)
  split
  next hread =>
    rw [if_pos hread] at hst'
    exact h.other hst hno _ rfl rfl rfl rfl hst'
  next hread =>
    rw [if_neg hread] at hst'
    exact h.other hst hno _ rfl rfl rfl rfl hst'

theorem Tidy.close (hst : r.stage ≠ .unread) {p : Packet}
    (hp : DataNode.post t r.packet = some (t', p)) :
    Tidy node { r with packet := p.clean, stage := .closed } ∧
      TinyMove node r t { r with packet := p.clean, stage := .closed } t' := by
  obtain ⟨hframe, hid, hoff, hcase⟩ := DataNode.post_cases hp
  have hfree : p.clean.owns = false := by
    rw [eq_false_iff]
    exact fun howns => absurd (Packet.owns_iff.mp howns).1 nofun
  refine ⟨⟨fun _ => h.asks hst, fun _ => hframe.trans (h.frame hst), nofun, nofun,
    fun hne => absurd rfl hne, nofun, nofun, nofun⟩, ?_⟩
  obtain ⟨_, rfl⟩ | ⟨howns, ht⟩ := hcase
  · exact .quiet (fun ho => absurd (hfree.symm.trans ho) Bool.noConfusion)
      (fun hwr => ⟨hwr, hid, hoff, rfl⟩)
      (fun hpend => absurd (hfree.symm.trans hpend.1) Bool.noConfusion)
  · exact .release howns hfree (fun hwr => ⟨hwr, hid, hoff, rfl⟩) ht

theorem Tidy.pass (hp : r.Passed r') : r'.Tidy node ∧ TinyMove node r t r' t := by
  obtain ⟨hframe, hid, hoff, hobj, hrel⟩ := Packet.core_eq_iff.mp hp.core
  have howns := Packet.owns_of_core hp.core
  have hold : r.stage ≠ .unread ∧ r.stage ≠ .closed := by
    obtain hst | hst := hp.stage
    all_goals exact ⟨hst.1 ▸ nofun, hst.1 ▸ nofun⟩
  have hback : r'.stage = .reading ∨ r'.stage = .queued ∨ r'.stage = .operating →
      r.stage = .queued ∧ r'.packet.size = r.packet.size := by
    obtain ⟨hst, hsize, _⟩ | ⟨_, hst⟩ := hp.stage
    · exact fun _ => ⟨hst, hsize⟩
    · obtain hst | hst := hst
      all_goals
        rw [hst]
        nofun
  have hwritten : r'.Written node → r.Written node ∧ r'.packet.extentID = r.packet.extentID ∧
      r'.packet.extentOffset = r.packet.extentOffset ∧ r'.wire = r.wire := by
    intro hwr
    refine ⟨⟨hp.wire ▸ hwr.1, hp.localResult ▸ hwr.2⟩, hid, hoff, hp.wire⟩
  refine ⟨⟨fun _ => hp.wire ▸ h.asks hold.1, fun _ => ?_, fun ho => ?_, fun ho hw htiny => ?_,
    fun _ => hrel.trans (h.unreleased hold.2), fun hs htw => ?_, fun hs htw => ?_, fun hs => ?_⟩,
    .quiet (fun ho => ⟨howns ▸ ho, hid⟩) hwritten fun hpend => ⟨⟨howns ▸ hpend.1, ?_⟩, hoff⟩⟩
  · rw [hp.wire]
    exact hframe.trans (h.frame hold.1)
  · rw [hp.wire]
    exact h.object (hobj ▸ ho)
  · rw [hp.wire] at hw ⊢
    exact h.normal (hobj ▸ ho) hw (hid ▸ htiny)
  · exact howns.trans (h.owner (.inl (hback (.inr hs)).1) (hp.wire ▸ htw))
  · obtain ⟨hst, hsize⟩ := hback hs
    rw [hsize, hp.wire]
    exact h.size (.inr (.inl hst)) (hp.wire ▸ htw)
  · exact hp.localResult.trans (h.unfinished (.inr (.inl (hback hs).1)))
  · exact .inl (hback (.inr hpend.2)).1

end ReplRequest

namespace NodeTidy

variable {node : DataNode} {s : Server TinyExtents} {t' : TinyExtents} {c i : Nat}
  {rp' : ReplProtocol} {r : ReplRequest}

theorem update (h : NodeTidy node s) (hacks : ∃ done, rp'.Acks done)
    (hheap : rp'.heap = update (s.conns c).heap i r) (hr : r.Tidy node)
    (hreader : ∀ j n, rp'.reader = .preparing j n → (update (s.conns c).heap i r j).ReadUpTo n) :
    NodeTidy node ⟨t', update s.conns c rp'⟩ where
  acks := by
    intro d
    by_cases hd : d = c
    · subst hd
      dsimp only
      rw [update_self]
      exact hacks
    dsimp only
    rw [update_of_ne hd]
    exact h.acks d
  tidy := by
    intro d j
    by_cases hd : d = c
    · subst hd
      dsimp only
      rw [update_self, hheap]
      by_cases hj : j = i
      · subst hj
        rw [update_self]
        exact hr
      · rw [update_of_ne hj]
        exact h.tidy d j
    dsimp only
    rw [update_of_ne hd]
    exact h.tidy d j
  reader := by
    intro d j n
    by_cases hd : d = c
    · subst hd
      dsimp only
      rw [update_self, hheap]
      exact hreader j n
    dsimp only
    rw [update_of_ne hd]
    exact h.reader d j n

theorem reader_update (h : NodeTidy node s) (hreader : rp'.reader = (s.conns c).reader)
    (hi : ((s.conns c).heap i).stage ≠ .reading) (j n : Nat) (hj : rp'.reader = .preparing j n) :
    (Function.update (s.conns c).heap i r j).ReadUpTo n := by
  obtain ⟨done, hacks⟩ := h.acks c
  rw [hreader] at hj
  have hstage : ((s.conns c).heap j).stage = .reading :=
    (hacks.head (k := .reading) (congrArg ReaderPhase.ids hj)).1
  have hne : j ≠ i := fun he => hi (he ▸ hstage)
  rw [Function.update_of_ne hne]
  exact h.reader c j n hj

theorem of_ids_nil {reader : ReaderPhase} (h : reader.ids = []) {j n : Nat}
    (hj : reader = .preparing j n) : False := by
  rw [hj] at h
  cases h

theorem conn (h : NodeTidy node s) (htiny : ∀ id ∈ s.shared.available, isTinyExtent id = true)
    {e : ReplEvent NodeOutcome} (he : ∀ wire, e = .read wire → wire.AsksForTiny node)
    (hs : (s.conns c).step node.funcs s.shared e = some (t', rp')) :
    NodeTidy node ⟨t', Function.update s.conns c rp'⟩ ∧ ∃ i r,
      rp'.heap = Function.update (s.conns c).heap i r ∧
        TinyMove node ((s.conns c).heap i) s.shared r t' := by
  obtain ⟨done, hacks⟩ := h.acks c
  have hacks' := hacks.step node.lawful hs
  cases hacks.effect hs with
  | read hheap hunread hnew hstage =>
    obtain ⟨hwire, hpacket, hres⟩ := hnew
    obtain ⟨htidy, howns, hread⟩ := ReplRequest.Tidy.read (he _ rfl) hwire hpacket hres
      (hstage.imp And.left And.left)
    refine ⟨h.update hacks' hheap htidy ?_, _, _, hheap, ?_⟩
    · intro j n hj
      obtain ⟨_, hreader⟩ | ⟨_, hreader⟩ := hstage
      · rw [hreader] at hj
        cases hj
        rw [Function.update_self]
        exact hread
      · exact (of_ids_nil hreader hj).elim
    · exact .quiet (fun ho => absurd (howns.symm.trans ho) Bool.noConfusion)
        (fun hwr => absurd hwr (ReplRequest.not_written_of_none hres))
        (fun hpend => absurd (howns.symm.trans hpend.1) Bool.noConfusion)
  | @prepare o i n t₁ p g rp₁ hreader hold hfunc hheap hreader' =>
    have hread := h.reader c i n hreader
    suffices hstep : ReplRequest.Tidy node
        { (s.conns c).heap i with packet := p, stage := g.stage } ∧
        TinyMove node ((s.conns c).heap i) s.shared
          { (s.conns c).heap i with packet := p, stage := g.stage } t' ∧
        (g = .goesOn → p.owns = true) by
      refine ⟨h.update hacks' hheap hstep.1 ?_, _, _, hheap, hstep.2.1⟩
      intro j m hj
      obtain hreader' | ⟨hg, hreader'⟩ := hreader'
      · exact (of_ids_nil hreader' hj).elim
      · rw [hreader'] at hj
        cases hj
        rw [Function.update_self]
        exact (if_neg (Nat.succ_ne_zero n)).mpr (hstep.2.2 hg)
    cases n with
    | zero =>
      have hprepared := DataNode.prepared node o s.shared ((s.conns c).heap i).packet
      have hfunc : node.prepare o 0 s.shared ((s.conns c).heap i).packet = (t', p, g) :=
        Option.some.inj hfunc
      rw [hfunc] at hprepared
      exact (h.tidy c i).prepare_first hold hread htiny hprepared
    | succ n =>
      have hfunc : node.prepare o (n + 1) s.shared ((s.conns c).heap i).packet = (t', p, g) :=
        Option.some.inj hfunc
      have hsecond := (h.tidy c i).prepare_second (t := s.shared) hold
        ((if_neg (Nat.succ_ne_zero n)).mp hread) o n
      rw [hfunc] at hsecond
      exact ⟨hsecond.1, hsecond.2.1, fun hg => absurd hg hsecond.2.2⟩
  | @operate o i n t₁ p l fin st rp₁ hold hfunc hheap hstage hreader' =>
    have hfunc : operatePacket o n s.shared ((s.conns c).heap i).packet =
        (t', p, l, fin) := Option.some.inj hfunc
    have hop := (h.tidy c i).operate hold o n st (by rw [hfunc]; exact hstage)
    rw [hfunc] at hop
    exact ⟨h.update hacks' hheap hop.1 (h.reader_update hreader' (hold ▸ nofun)), _, _, hheap,
      hop.2⟩
  | @close _ i t₁ p rp₁ hold hfunc hheap hreader' =>
    have hst : ((s.conns c).heap i).stage ≠ .unread ∧ ((s.conns c).heap i).stage ≠ .reading := by
      obtain hold | hold | hold := hold
      all_goals exact ⟨hold ▸ nofun, hold ▸ nofun⟩
    have hclose := (h.tidy c i).close hst.1 hfunc
    exact ⟨h.update hacks' hheap hclose.1 (h.reader_update hreader' hst.2), _, _, hheap, hclose.2⟩
  | @pass _ i r rp₁ hheap hpassed hreader' =>
    have hst : ((s.conns c).heap i).stage ≠ .reading := by
      obtain hold | hold := hpassed.stage
      all_goals exact hold.1 ▸ nofun
    have hpass := (h.tidy c i).pass (t := s.shared) hpassed
    exact ⟨h.update hacks' hheap hpass.1 (h.reader_update hreader' hst), _, _, hheap, hpass.2⟩
  | still hheap hreader' =>
    have hheap : rp'.heap = Function.update (s.conns c).heap 0 ((s.conns c).heap 0) := by
      rw [Function.update_eq_self]
      exact hheap
    refine ⟨h.update hacks' hheap (h.tidy c 0) ?_, _, _, hheap, ?_⟩
    · intro j n hj
      rw [Function.update_eq_self]
      obtain hreader' | hreader' := hreader'
      · exact h.reader c j n (hreader' ▸ hj)
      · exact (of_ids_nil hreader' hj).elim
    · exact .quiet (fun ho => ⟨ho, rfl⟩) (fun hwr => ⟨hwr, rfl, rfl, rfl⟩)
        (fun hpend => ⟨hpend, rfl⟩)

end NodeTidy
end ChubaoFS
