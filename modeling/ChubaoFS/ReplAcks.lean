import ChubaoFS.ReplEffects
import ChubaoFS.TinyExtents

namespace ChubaoFS

open Function Option

/-! What a client may conclude from an `OpOk` of a data node. -/

namespace DataNode

variable (node : DataNode)

section

variable (o : NodeOutcome)

theorem addExtentInfo_route (s : TinyExtents) (p : Packet) :
    (addExtentInfo o s p).2.1.route = p.route ∧
      ((addExtentInfo o s p).2.2 = .failed → (addExtentInfo o s p).2.1.isErrPacket = true) := by
  have hfail (msg : ErrText) : (prepareFailed s p msg).2.1.route = p.route ∧
      ((prepareFailed s p msg).2.2 = .failed → (prepareFailed s p msg).2.1.isErrPacket = true) :=
    ⟨rfl, fun _ => Packet.packErrorBody_isErrPacket ..⟩
  unfold addExtentInfo
  split
  · split
    · exact hfail _
    · exact ⟨rfl, nofun⟩
  split
  · split
    · exact hfail _
    · exact ⟨rfl, nofun⟩
  · split
    · split
      · exact hfail _
      · exact ⟨rfl, nofun⟩
    · exact ⟨rfl, nofun⟩

variable (n : Nat) (s : TinyExtents) (p : Packet)

theorem prepare_route :
    (node.prepare o n s p).2.1.route = p.route ∧ ((node.prepare o n s p).2.2 = .failed →
      (node.prepare o n s p).2.1.isErrPacket = true) := by
  have hfail (q : Packet) (hq : q.route = p.route) (msg : ErrText) :
      (prepareFailed s q msg).2.1.route = p.route ∧ ((prepareFailed s q msg).2.2 = .failed →
        (prepareFailed s q msg).2.1.isErrPacket = true) :=
    ⟨hq, fun _ => Packet.packErrorBody_isErrPacket ..⟩
  unfold DataNode.prepare
  split
  · split
    · exact ⟨rfl, nofun⟩
    · split
      · exact hfail p rfl _
      · split
        · exact hfail p rfl _
        · split
          · split
            · exact hfail _ rfl _
            · exact ⟨rfl, nofun⟩
          · split
            · exact hfail _ rfl _
            · exact addExtentInfo_route o s _
  split
  · exact hfail p rfl _
  · exact ⟨rfl, nofun⟩

theorem handleWritePacket_route :
    (handleWritePacket o n s p).2.1.route = p.route ∧ (handleWritePacket o n s p).2.2.1 = [] := by
  unfold handleWritePacket
  dsimp only
  split
  · exact ⟨rfl, rfl⟩
  split
  all_goals exact ⟨rfl, rfl⟩

theorem operatePacket_route : (operatePacket o n s p).2.1.route = p.route ∧
      (p.isReadExtentOperation = false → (operatePacket o n s p).2.2.1 = []) := by
  unfold operatePacket
  split
  · exact (handleWritePacket_route o n s p).imp_right fun h _ => h
  split
  next hread => exact ⟨rfl, fun h => absurd (hread.symm.trans h) Bool.noConfusion⟩
  · exact ⟨rfl, fun _ => rfl⟩

end

variable {s s' : TinyExtents} {p p' : Packet}

theorem releaseExtent_same (h : releaseExtent s p = some (s', p')) :
    p'.head = p.head ∧ p'.route = p.route := by
  unfold releaseExtent at h
  split at h
  · exact (Prod.mk.inj (some.inj h)).2 ▸ ⟨rfl, rfl⟩
  split at h
  · exact (Prod.mk.inj (some.inj h)).2 ▸ ⟨rfl, rfl⟩
  · split at h
    · exact (Prod.mk.inj (some.inj h)).2 ▸ ⟨rfl, rfl⟩
    · exact (Prod.mk.inj (some.inj h)).2 ▸ ⟨rfl, rfl⟩
    · obtain ⟨_, _, heq⟩ := map_eq_some_iff.mp h
      exact (Prod.mk.inj heq).2 ▸ ⟨rfl, rfl⟩

theorem post_head (h : post s p = some (s', p')) : p'.head = p.head := by
  unfold post at h
  split at h
  · exact (Prod.mk.inj (some.inj h)).2 ▸ rfl
  · exact (releaseExtent_same h).1.trans rfl

theorem post_route (h : post s p = some (s', p')) : p'.route = p.route := by
  unfold post at h
  split at h
  · exact (Prod.mk.inj (some.inj h)).2 ▸ rfl
  · exact (releaseExtent_same h).2.trans rfl

theorem lawful : node.funcs.Lawful where
  prepare_route := by
    intro o n s p s' p' g h
    have := (node.prepare_route o n s p).1
    rw [some.inj h] at this
    exact this
  prepare_failed := by
    intro o n s p s' p' h
    have := (node.prepare_route o n s p).2
    rw [some.inj h] at this
    exact this rfl
  operator_route := by
    intro o n s p s' p' l b h
    have := (operatePacket_route o n s p).1
    rw [some.inj h] at this
    exact this
  operator_silent := by
    intro o n s p s' p' l b h hread
    have := (operatePacket_route o n s p).2 hread
    rw [some.inj h] at this
    exact this
  post_route := post_route
  post_head := post_head

end DataNode

def DataNode.started (onDisk : UInt64 → Nat) : Server TinyExtents := .new (.initTinyExtent onDisk)

section runs

variable {node : DataNode} {allow : Server TinyExtents → DataNode.Event → Prop}
  {onDisk : UInt64 → Nat} {s : Server TinyExtents}

theorem DataNode.acks_run (hr : Reach node.step allow (started onDisk) s) (c : Nat) :
    ∃ done, (s.conns c).Acks done := by
  refine hr.invariant (P := fun s => ∀ c, ∃ done, (s.conns c).Acks done)
    (fun _ => ⟨[], ReplProtocol.acks_new⟩) ?_ c
  intro s e s' h _ hs c
  cases e with
  | other e =>
    obtain ⟨_, _, rfl⟩ := map_eq_some_iff.mp hs
    exact h c
  | conn d e =>
    obtain ⟨⟨shared, rp⟩, hstep, rfl⟩ := map_eq_some_iff.mp hs
    by_cases hc : c = d
    · subst hc
      obtain ⟨done, hacks⟩ := h c
      dsimp only
      rw [update_self]
      exact hacks.step node.lawful hstep
    dsimp only
    rw [update_of_ne hc]
    exact h c

theorem DataNode.wires_run {P : Packet → Prop}
    (hP : ∀ s c wire, allow s (.conn c (.read wire)) → P wire)
    (hr : Reach node.step allow (started onDisk) s) (c i : Nat)
    (hi : ((s.conns c).heap i).stage ≠ .unread) : P ((s.conns c).heap i).wire := by
  induction hr generalizing c i with
  | start => exact absurd rfl hi
  | @next s s' e hr ha hs ih =>
    cases e with
    | other e =>
      obtain ⟨_, _, rfl⟩ := map_eq_some_iff.mp hs
      exact ih c i hi
    | conn d e =>
      obtain ⟨⟨shared, rp⟩, hstep, rfl⟩ := map_eq_some_iff.mp hs
      dsimp only at hi ⊢
      by_cases hc : c = d
      · subst hc
        obtain ⟨done, hacks⟩ := acks_run hr c
        rw [update_self] at hi ⊢
        -- only `read` brings a packet in; all other steps keep it
        have hkeep {j : Nat} {r : ReplRequest}
            (hheap : rp.heap = update (s.conns c).heap j r)
            (hj : ((s.conns c).heap j).stage ≠ .unread)
            (hw : r.wire = ((s.conns c).heap j).wire) : P (rp.heap i).wire := by
          rw [hheap] at hi ⊢
          by_cases hij : i = j
          · subst hij
            rw [update_self, hw]
            exact ih c i hj
          · rw [update_of_ne hij] at hi ⊢
            exact ih c i hi
        cases hacks.effect hstep with
        | read hheap hunread hnew _ =>
          rw [hheap] at hi ⊢
          by_cases hij : i = (s.conns c).next
          · subst hij
            rw [update_self, hnew.1]
            exact hP _ _ _ ha
          · rw [update_of_ne hij] at hi ⊢
            exact ih c i hi
        | prepare _ hold _ hheap _ => exact hkeep hheap (hold ▸ nofun) rfl
        | operate hold _ hheap _ _ => exact hkeep hheap (hold ▸ nofun) rfl
        | close hold _ hheap _ =>
          refine hkeep hheap ?_ rfl
          obtain hold | hold | hold := hold
          all_goals exact hold ▸ nofun
        | pass hheap hpassed _ =>
          refine hkeep hheap ?_ hpassed.wire
          obtain hold | hold := hpassed.stage
          all_goals exact hold.1 ▸ nofun
        | still hheap _ =>
          rw [hheap] at hi ⊢
          exact ih c i hi
      · rw [update_of_ne hc] at hi ⊢
        exact ih c i hi

end runs

/-- A packet for followers is no read and lists as many different ones as it is to go to. -/
def Packet.ListsFollowers (wire : Packet) : Prop :=
  0 < wire.remainingFollowers →
    wire.remainingFollowers.toNat ≤ wire.resolved.followersAddrs.dedup.length ∧
      wire.isReadExtentOperation = false

instance (wire : Packet) : Decidable wire.ListsFollowers :=
  inferInstanceAs (Decidable (_ → _ ∧ _))

def ReplRequest.Replicated (r : ReplRequest) (p : Packet) : Prop :=
  r.localResult = some true ∧ ∃ addrs : List Bytes, addrs.Nodup ∧
    addrs.length = r.wire.remainingFollowers.toNat ∧
    ∀ a ∈ addrs, ∃ reply, (a, reply) ∈ r.replies ∧ reply.resultCode = opOk ∧ reply.answers p = true

theorem ReplRequest.Acked.replicated {r : ReplRequest} {p : Packet} (h : r.Acked p)
    (hw : r.wire.ListsFollowers) (hpos : 0 < r.wire.remainingFollowers) : r.Replicated p := by
  obtain ⟨hlen, _⟩ := hw hpos
  refine ⟨h.1 fun hnil => ?_, r.wire.resolved.followersAddrs.dedup.take _,
    (List.nodup_dedup _).sublist (List.take_sublist ..), List.length_take_of_le hlen,
    fun a ha => h.2 a (List.mem_dedup.mp (List.mem_of_mem_take ha))⟩
  rw [hnil] at hlen
  exact absurd (UInt8.lt_iff_toNat_lt.mp hpos) (Nat.not_lt_of_le hlen)

namespace DataNode

/-- A packet that is read is as `P` says. -/
def Reads (P : Packet → Prop) (_ : Server TinyExtents) : Event → Prop
  | .conn _ (.read wire) => P wire
  | _ => True

instance decidableReads (P : Packet → Prop) [DecidablePred P] (s : Server TinyExtents)
    (e : Event) : Decidable (Reads P s e) :=
  match e with
  | .conn _ (.read wire) => inferInstanceAs (Decidable (P wire))
  | .conn _ (.prepare _) | .conn _ .readerExit | .conn _ (.forward _) | .conn _ (.operate _)
  | .conn _ .operatorExit | .conn _ .ack | .conn _ (.reply _) | .conn _ .replied
  | .conn _ .receiverExit | .conn _ (.write _) | .conn _ .writerExit | .conn _ .clean
  | .other _ => isTrue trivial

abbrev ReadsListed := Reads Packet.ListsFollowers

/-- In every run whose packets list their followers, a packet for followers is answered with `OpOk`
only after it was executed here and by as many different followers as it was to go to. -/
theorem ok_reply_replicated (node : DataNode) (onDisk : UInt64 → Nat) {s : Server TinyExtents}
    (hr : Reach node.step ReadsListed (started onDisk) s) {c i : Nat} {p : Packet}
    (hsent : (i, p) ∈ (s.conns c).sent)
    (hpos : 0 < ((s.conns c).heap i).wire.remainingFollowers) (hok : p.resultCode = opOk) :
    ((s.conns c).heap i).Replicated p := by
  obtain ⟨done, hacks⟩ := acks_run hr c
  obtain ⟨hread, hacked⟩ := hacks.sent _ hsent
  have hlists := wires_run (fun _ _ _ h => h) hr c i hread
  obtain ⟨_, _, hacked⟩ := hacked (hlists hpos).2 hpos (bne_eq_false_iff_eq.mpr hok)
  exact hacked.replicated hlists hpos

def createFor (arg : Bytes) : Packet where
  opcode := opCreateExtent
  extentType := normalExtentType
  resultCode := opInitResultCode
  remainingFollowers := 1
  crc := 0
  size := 0
  argLen := UInt32.ofNat arg.length
  partitionID := 7
  extentID := 0
  extentOffset := 0
  reqID := 5
  arg := arg
  data := []
  followersAddrs := []
  followerConns := []
  isReleased := false
  object := .none
  needReply := true

/-- Everything outside goes well, and the operation ends with `code`. -/
def outcome (code : UInt8) : NodeOutcome := ⟨false, false, none, code, 1025, 0, 0, 0, []⟩

def node7 : DataNode := ⟨7, fun _ => 0⟩

def createdTwice : List Event :=
  [.conn 0 (.read (createFor [102, 47])), .conn 0 (.prepare (outcome opOk)),
    .conn 0 (.forward fun _ => .sent), .conn 0 (.operate (outcome opOk)), .conn 0 .ack,
    .conn 0 (.reply (some { createFor [] with resultCode := opOk, extentID := 1025 })),
    .conn 0 .replied, .conn 0 (.write true)]

theorem ok_reply_replicated_create : ∃ s : Server TinyExtents,
    Reach node7.step ReadsListed (started fun _ => 0) s ∧ ∃ p, (0, p) ∈ (s.conns 0).sent ∧
      p.resultCode = opOk ∧ ((s.conns 0).heap 0).Replicated p := by
  refine ⟨_, .of_checked createdTwice rfl .start, _, List.mem_singleton.mpr rfl, rfl, ?_⟩
  exact ok_reply_replicated node7 (fun _ => 0) (.of_checked createdTwice rfl .start)
    (List.mem_singleton.mpr rfl) (by decide) rfl

def createdNowhere : List Event :=
  [.conn 0 (.read (createFor [])), .conn 0 (.prepare (outcome opOk)),
    .conn 0 (.forward fun _ => .sent), .conn 0 (.operate (outcome opDiskNoSpaceErr)),
    .conn 0 .ack, .conn 0 .replied, .conn 0 (.write true)]

/-- The local operation failed and nobody else was asked, and yet the answer is `OpOk`. -/
theorem unreplicated_ok_reply : ∃ s : Server TinyExtents,
    Reach node7.step (fun _ _ => True) (started fun _ => 0) s ∧ ∃ p, (0, p) ∈ (s.conns 0).sent ∧
      p.resultCode = opOk ∧ ((s.conns 0).heap 0).wire.remainingFollowers = 1 ∧
      ((s.conns 0).heap 0).localResult = some false ∧ ((s.conns 0).heap 0).replies = [] := by
  refine ⟨_, .of_foldlM createdNowhere rfl (fun _ _ _ => trivial) .start, _,
    List.mem_singleton.mpr rfl, ?_, ?_, ?_, ?_⟩
  all_goals rfl

end DataNode
end ChubaoFS
