import ChubaoFS.Base.Places
import ChubaoFS.ReplProtocol

namespace ChubaoFS

open List Function Option Nat

/-! Where each packet of a connection is and what is known of it there, kept from step to step. -/

namespace Packet

def route (p : Packet) : UInt8 × List Bytes × UInt8 :=
  (p.remainingFollowers, p.followersAddrs, p.opcode)

def head (p : Packet) : UInt8 × UInt8 × UInt64 × UInt64 × UInt64 × Int × UInt32 :=
  (p.resultCode, p.remainingFollowers, p.reqID, p.partitionID, p.extentID, p.extentOffset, p.crc)

variable {p : Packet} {q : Packet}

theorem isErrPacket_of_head (h : p.head = q.head) : p.isErrPacket = q.isErrPacket := by
  unfold isErrPacket
  rw [(Prod.mk.inj h).1]

variable (p)

theorem packErrorBody_isErrPacket (action : PacketAction) (msg : ErrText) :
    (p.packErrorBody action msg).isErrPacket = true := by
  cases action <;> cases msg <;> rfl

theorem resolveFollowersAddr_same :
    p.resolveFollowersAddr.1.remainingFollowers = p.remainingFollowers ∧
      p.resolveFollowersAddr.1.opcode = p.opcode := by
  unfold resolveFollowersAddr
  split
  · exact ⟨rfl, rfl⟩
  dsimp only
  split
  · exact ⟨rfl, rfl⟩
  · exact ⟨rfl, rfl⟩

variable {p}

theorem resolveFollowersAddr_failed (h : p.resolveFollowersAddr.2 = false) :
    p.resolveFollowersAddr.1.isErrPacket = true := by
  unfold resolveFollowersAddr at h ⊢
  split at h
  next hlen =>
    rw [if_pos hlen]
    exact packErrorBody_isErrPacket ..
  rw [if_neg (UInt8.not_lt.mpr UInt8.zero_le)] at h
  cases h

theorem sendRequestFrom_keeps (sends : Nat → Sending) (index left : Nat) (p : Packet) :
    (sendRequestFrom sends index left p).1.followersAddrs = p.followersAddrs ∧
      (sendRequestFrom sends index left p).1.opcode = p.opcode ∧
      ((sendRequestFrom sends index left p).2 = false →
        (sendRequestFrom sends index left p).1.isErrPacket = true) := by
  induction left generalizing index p with
  | zero => exact ⟨rfl, rfl, nofun⟩
  | succ left ih =>
    unfold sendRequestFrom
    split
    · exact ⟨rfl, rfl, fun _ => packErrorBody_isErrPacket ..⟩
    · exact ⟨rfl, rfl, fun _ => packErrorBody_isErrPacket ..⟩
    · exact ih _ _

end Packet

structure ReplFuncs.Lawful {σ ω : Type} (f : ReplFuncs σ ω) : Prop where
  prepare_route : ∀ {o n s p s' p' g}, f.prepareFunc o n s p = some (s', p', g) → p'.route = p.route
  prepare_failed : ∀ {o n s p s' p'}, f.prepareFunc o n s p = some (s', p', .failed) →
    p'.isErrPacket = true
  operator_route : ∀ {o n s p s' p' l b}, f.operatorFunc o n s p = some (s', p', l, b) →
    p'.route = p.route
  operator_silent : ∀ {o n s p s' p' l b}, f.operatorFunc o n s p = some (s', p', l, b) →
    p.isReadExtentOperation = false → l = []
  post_route : ∀ {s p s' p'}, f.postFunc s p = some (s', p') → p'.route = p.route
  post_head : ∀ {s p s' p'}, f.postFunc s p = some (s', p') → p'.head = p.head

def Packet.resolved (wire : Packet) : Packet := wire.readFromConnFromCli.resolveFollowersAddr.1

theorem Packet.resolved_followers (wire : Packet) :
    wire.resolved.remainingFollowers = wire.remainingFollowers :=
  wire.readFromConnFromCli.resolveFollowersAddr_same.1

theorem Packet.isReadExtentOperation_of_route {p wire : Packet}
    (h : p.route = wire.resolved.route) : p.isReadExtentOperation = wire.isReadExtentOperation := by
  have hop : p.opcode = wire.opcode :=
    (Prod.mk.inj (Prod.mk.inj h).2).2.trans wire.readFromConnFromCli.resolveFollowersAddr_same.2
  unfold isReadExtentOperation
  rw [hop]

namespace ReplRequest

def Acked (r : ReplRequest) (p : Packet) : Prop :=
  (r.wire.resolved.followersAddrs ≠ [] → r.localResult = some true) ∧
    ∀ a ∈ r.wire.resolved.followersAddrs, ∃ reply, (a, reply) ∈ r.replies ∧
      reply.resultCode = opOk ∧ reply.answers p = true

/-- The replies of the first `k` followers are in. -/
def Received (r : ReplRequest) (k : Nat) : Prop :=
  (0 < k → r.packet.isErrPacket = false) ∧
    ∀ a ∈ r.packet.followersAddrs.take k, ∃ reply, (a, reply) ∈ r.replies ∧
      reply.resultCode = opOk ∧ reply.answers r.packet = true

def Good (r : ReplRequest) : Prop :=
  match r.stage with
  | .unread => True
  | .operated => r.packet.route = r.wire.resolved.route ∧ r.localResult = some !r.packet.isErrPacket
  | .answered => r.packet.route = r.wire.resolved.route ∧
      (0 < r.wire.remainingFollowers → r.packet.isErrPacket = false → r.Acked r.packet)
  | _ => r.packet.route = r.wire.resolved.route

variable {r : ReplRequest}

theorem Acked.of_head {p q : Packet} (h : r.Acked p) (hq : q.head = p.head) : r.Acked q := by
  have hans (reply : Packet) : reply.answers q = reply.answers p := by
    obtain ⟨_, h⟩ := Prod.mk.inj hq
    obtain ⟨_, h⟩ := Prod.mk.inj h
    obtain ⟨hreq, h⟩ := Prod.mk.inj h
    obtain ⟨hpart, h⟩ := Prod.mk.inj h
    obtain ⟨hext, h⟩ := Prod.mk.inj h
    obtain ⟨hoff, hcrc⟩ := Prod.mk.inj h
    unfold Packet.answers
    rw [hreq, hpart, hext, hoff, hcrc]
  refine ⟨h.1, fun a hm => ?_⟩
  obtain ⟨reply, hr, hok, hmatch⟩ := h.2 a hm
  exact ⟨reply, hr, hok, (hans reply).trans hmatch⟩

theorem Received.acked {k : Nat} (h : r.Received k)
    (hroute : r.packet.route = r.wire.resolved.route)
    (hres : r.localResult = some !r.packet.isErrPacket) (hk : r.packet.followersAddrs.length ≤ k) :
    r.Acked r.packet := by
  have haddrs : r.packet.followersAddrs = r.wire.resolved.followersAddrs :=
    (Prod.mk.inj (Prod.mk.inj hroute).2).1
  unfold Acked
  rw [← haddrs]
  refine ⟨fun hne => ?_, ?_⟩
  · rw [hres, h.1 (Nat.lt_of_lt_of_le (length_pos_of_ne_nil hne) hk)]
    rfl
  · rw [← take_of_length_le hk]
    exact h.2

end ReplRequest

def ReaderPhase.ids : ReaderPhase → List Nat
  | .preparing i _ => [i]
  | _ => []

def OperatorPhase.ids : OperatorPhase → List Nat
  | .operating i _ _ => [i]
  | _ => []

def OperatorPhase.listed : OperatorPhase → List Nat
  | .operating i _ true => [i]
  | _ => []

def ReceiverPhase.ids : ReceiverPhase → List Nat
  | .receiving i _ => [i]
  | _ => []

namespace ReplProtocol

/-- Where the requests of a stage stand; `done` are those of the list that the operator is through
with. -/
def held (rp : ReplProtocol) (done : List Nat) : Stage → List Nat
  | .reading => rp.reader.ids
  | .queued => rp.toBeProcessedCh
  | .operating => rp.operator.ids
  | .operated => done
  | .answered => rp.responseCh
  | _ => []

def SentAcked (heap : Nat → ReplRequest) (sent : List (Nat × Packet)) : Prop :=
  ∀ x ∈ sent, (heap x.1).stage ≠ .unread ∧
    ((heap x.1).wire.isReadExtentOperation = false → 0 < (heap x.1).wire.remainingFollowers →
      x.2.isErrPacket = false → (heap x.1).stage = .closed ∧
        x.2.head = (heap x.1).packet.head ∧ (heap x.1).Acked x.2)

structure Acks (rp : ReplProtocol) (done : List Nat) : Prop where
  good : ∀ i, (rp.heap i).Good
  fresh : ∀ i, rp.next ≤ i → (rp.heap i).stage = .unread
  placed : Placed (fun i => (rp.heap i).stage) (rp.held done)
  list : rp.packetList = done ++ rp.operator.listed
  -- a token of `ackCh` stands for a packet of the list that the operator is through with
  counted : rp.receiver ≠ .exited → rp.ackCh + rp.receiver.ids.length ≤ done.length
  first : ∀ i k, rp.receiver = .receiving i k → done.head? = some i ∧ (rp.heap i).Received k
  alone : ∀ i n, rp.operator = .operating i n false → ¬ 0 < (rp.heap i).wire.remainingFollowers
  sent : SentAcked rp.heap rp.sent

theorem acks_new : newReplProtocol.Acks [] where
  good := fun _ => trivial
  fresh := fun _ _ => rfl
  placed := fun k => by cases k <;> exact ⟨nodup_nil, nofun⟩
  list := rfl
  counted := fun _ => le_refl 0
  first := nofun
  alone := nofun
  sent := nofun

section update

variable {heap : Nat → ReplRequest} {i : Nat} {r : ReplRequest}

theorem stage_update : (fun j => (update heap i r j).stage) =
    update (fun j => (heap j).stage) i r.stage := by
  funext j
  by_cases hj : j = i
  · subst hj
    rw [update_self, update_self]
  · rw [update_of_ne hj, update_of_ne hj]

theorem good_update (h : ∀ j, (heap j).Good) (hr : r.Good) (j : Nat) :
    (update heap i r j).Good := by
  by_cases hj : j = i
  · subst hj
    rwa [update_self]
  · rw [update_of_ne hj]
    exact h j

theorem SentAcked.update {sent : List (Nat × Packet)} (h : SentAcked heap sent)
    (hi : (heap i).stage ≠ .closed) (hr : r.stage ≠ .unread)
    (hw : (heap i).stage = .unread ∨ r.wire = (heap i).wire) :
    SentAcked (update heap i r) sent := by
  intro x hx
  obtain ⟨hread, hack⟩ := h x hx
  by_cases hxi : x.1 = i
  · rw [hxi, update_self]
    rw [hxi] at hread hack
    refine ⟨hr, fun hno hf hok => ?_⟩
    obtain hw | hw := hw
    · exact absurd hw hread
    · exact absurd (hack (hw ▸ hno) (hw ▸ hf) hok).1 hi
  · rw [update_of_ne hxi]
    exact ⟨hread, hack⟩

end update

section steps

variable {σ ω : Type} {f : ReplFuncs σ ω} {s s' : σ} {rp rp' : ReplProtocol} {done : List Nat}
  {i : Nat} {r : ReplRequest} {o : ω}

section

variable (h : rp.Acks done)
include h

/-- The first request of a channel or of a goroutine. -/
theorem Acks.head {k : Stage} {rest : List Nat} (hheld : rp.held done k = i :: rest) :
    (rp.heap i).stage = k ∧ rest.Sublist (rp.held done k) ∧ i ∉ rest := by
  have hnd := (h.placed k).1
  rw [hheld] at hnd
  refine ⟨h.placed.place_eq (hheld ▸ mem_cons_self ..), ?_, (nodup_cons.mp hnd).1⟩
  rw [hheld]
  exact sublist_cons_self ..

theorem Acks.first_update (hi : (rp.heap i).stage ≠ .operated) (j k : Nat)
    (hj : rp.receiver = .receiving j k) :
    done.head? = some j ∧ (update rp.heap i r j).Received k := by
  obtain ⟨hhead, hrec⟩ := h.first j k hj
  have hstage : (rp.heap j).stage = .operated := h.placed.place_eq (mem_of_mem_head? hhead)
  have hne : j ≠ i := fun he => hi (he ▸ hstage)
  rw [update_of_ne hne]
  exact ⟨hhead, hrec⟩

theorem Acks.alone_update (hi : (rp.heap i).stage ≠ .operating) (j n : Nat)
    (hj : rp.operator = .operating j n false) :
    ¬ 0 < (update rp.heap i r j).wire.remainingFollowers := by
  have hstage : (rp.heap j).stage = .operating :=
    (h.head (k := .operating) (congrArg OperatorPhase.ids hj)).1
  have hne : j ≠ i := fun he => hi (he ▸ hstage)
  rw [update_of_ne hne]
  exact h.alone j n hj

theorem Acks.route (hi : (rp.heap i).stage ≠ .unread) :
    (rp.heap i).packet.route = (rp.heap i).wire.resolved.route := by
  have hgood := h.good i
  unfold ReplRequest.Good at hgood
  cases hst : (rp.heap i).stage with
  | unread => exact absurd hst hi
  | operated | answered =>
    rw [hst] at hgood
    exact hgood.1
  | _ =>
    rw [hst] at hgood
    exact hgood

theorem Acks.lt_next (hi : (rp.heap i).stage ≠ .unread) : i < rp.next :=
  Nat.lt_of_not_le fun hle => hi (h.fresh i hle)

theorem Acks.move {done' : List Nat} (k₀ k : Stage) (hheap : rp'.heap = update rp.heap i r)
    (hi : (rp.heap i).stage = k₀) (hr : r.stage = k) (hgood : r.Good)
    (hnext : rp.next ≤ rp'.next ∧ i < rp'.next) (hsent : SentAcked (update rp.heap i r) rp'.sent)
    (hfrom : (rp'.held done' k₀).Sublist (rp.held done k₀) ∧ i ∉ rp'.held done' k₀)
    (hto : (rp'.held done' k).Sublist (rp.held done k ++ [i]))
    (hlist : rp'.packetList = done' ++ rp'.operator.listed)
    (hcounted : rp'.receiver ≠ .exited → rp'.ackCh + rp'.receiver.ids.length ≤ done'.length)
    (hfirst : ∀ j n, rp'.receiver = .receiving j n →
      done'.head? = some j ∧ (update rp.heap i r j).Received n)
    (halone : ∀ j n, rp'.operator = .operating j n false →
      ¬ 0 < (update rp.heap i r j).wire.remainingFollowers)
    (hrest : ∀ l, l ≠ k₀ → l ≠ k → (rp'.held done' l).Sublist (rp.held done l) := by
      intro l hl hl'
      cases l <;> first | exact absurd rfl hl | exact absurd rfl hl' | exact .refl _)
    (hk : k₀ ≠ k := by decide) : rp'.Acks done' where
  good := hheap ▸ good_update h.good hgood
  fresh := by
    intro j hj
    rw [hheap, update_of_ne (by omega)]
    exact h.fresh j (by omega)
  placed := by
    rw [hheap, stage_update, hr]
    exact h.placed.move hi hk hfrom hto hrest
  list := hlist
  counted := hcounted
  first := hheap ▸ hfirst
  alone := hheap ▸ halone
  sent := hheap ▸ hsent

end

theorem sublist_put (ch : List Nat) (i : Nat) :
    (if hasRoom ch then ch ++ [i] else ch).Sublist (ch ++ [i]) := by
  split
  · exact .refl _
  · exact sublist_append_left ..

theorem readerPut_ids (rp : ReplProtocol) (room : Bool) : (rp.readerPut room).reader.ids = [] := by
  cases room <;> rfl

section

variable (h : rp.Acks done)
include h

theorem Acks.readPkg {wire : Packet} (hs : rp.readPkg wire = some rp') : rp'.Acks done := by
  have hunread := h.fresh rp.next (le_refl _)
  have hop : (rp.heap rp.next).stage ≠ .operated := hunread ▸ nofun
  have hop' : (rp.heap rp.next).stage ≠ .operating := hunread ▸ nofun
  have hsent (r : ReplRequest) (hr : r.stage ≠ .unread) :
      SentAcked (update rp.heap rp.next r) rp.sent :=
    h.sent.update (hunread ▸ nofun) hr (.inl hunread)
  unfold ReplProtocol.readPkg at hs
  split at hs
  next hidle =>
    dsimp only at hs
    split at hs
    next hok =>
      cases hs
      exact h.move .unread .reading rfl hunread rfl rfl
        ⟨le_succ _, lt_succ_self _⟩ (hsent _ nofun) ⟨.refl _, nofun⟩
        (sublist_append_right ..) h.list h.counted (h.first_update hop) (h.alone_update hop')
    rename_i hfail
    cases hs
    have herr := Packet.resolveFollowersAddr_failed (Bool.not_eq_true _ ▸ hfail)
    refine h.move .unread .answered rfl hunread rfl ⟨rfl, ?_⟩
      ⟨le_succ _, lt_succ_self _⟩ (hsent _ nofun) ⟨.refl _, nofun⟩ (sublist_put _ _)
      h.list h.counted (h.first_update hop) (h.alone_update hop') ?_
    · intro _ hok
      exact absurd (herr.symm.trans hok) nofun
    · intro l hl hl'
      cases l with
      | reading =>
        unfold held
        rw [readerPut_ids]
        exact nil_sublist _
      | unread => exact absurd rfl hl
      | answered => exact absurd rfl hl'
      | _ => exact .refl _
  · cases hs

theorem Acks.stay (hheap : rp'.heap = update rp.heap i r) (hr : r.stage = (rp.heap i).stage)
    (hread : (rp.heap i).stage ≠ .unread) (hgood : r.Good) (hnext : rp'.next = rp.next)
    (hsent : SentAcked (update rp.heap i r) rp'.sent)
    (hheld : ∀ l, rp'.held done l = rp.held done l)
    (hlist : rp'.packetList = done ++ rp'.operator.listed)
    (hcounted : rp'.receiver ≠ .exited → rp'.ackCh + rp'.receiver.ids.length ≤ done.length)
    (hfirst : ∀ j n, rp'.receiver = .receiving j n →
      done.head? = some j ∧ (update rp.heap i r j).Received n)
    (halone : ∀ j n, rp'.operator = .operating j n false →
      ¬ 0 < (update rp.heap i r j).wire.remainingFollowers) : rp'.Acks done where
  good := hheap ▸ good_update h.good hgood
  fresh := by
    intro j hj
    have hlt := h.lt_next hread
    rw [hheap, update_of_ne (by omega)]
    exact h.fresh j (by omega)
  placed := by
    rw [hheap, stage_update, hr, update_eq_self]
    exact h.placed.drop fun l => hheld l ▸ .refl _
  list := hlist
  counted := hcounted
  first := hheap ▸ hfirst
  alone := hheap ▸ halone
  sent := hheap ▸ hsent

theorem Acks.prepare (hf : f.Lawful) (hs : rp.prepare f s o = some (s', rp')) : rp'.Acks done := by
  unfold ReplProtocol.prepare at hs
  split at hs
  next i n hreader =>
    have hi : (rp.heap i).stage = .reading :=
      (h.head (k := .reading) (congrArg ReaderPhase.ids hreader)).1
    have hlt := h.lt_next (i := i) (hi ▸ nofun)
    have hop : (rp.heap i).stage ≠ .operated := hi ▸ nofun
    have hop' : (rp.heap i).stage ≠ .operating := hi ▸ nofun
    have hold := h.route (i := i) (hi ▸ nofun)
    have hsent (r : ReplRequest) (hr : r.stage ≠ .unread) (hw : r.wire = (rp.heap i).wire) :
        SentAcked (update rp.heap i r) rp.sent :=
      h.sent.update (hi ▸ nofun) hr (.inr hw)
    split at hs
    · cases hs
    rename_i s₁ p progress hp
    have hroute := (hf.prepare_route hp).trans hold
    split at hs
    · cases hs
      refine h.stay rfl rfl (hi ▸ nofun) ?_ rfl (hsent _ (hi ▸ nofun) rfl) ?_ h.list h.counted
        (h.first_update hop) (h.alone_update hop')
      · unfold ReplRequest.Good
        rw [hi]
        exact hroute
      · intro l
        cases l with
        | reading =>
          unfold held
          rw [hreader]
          rfl
        | _ => rfl
    · cases hs
      have herr := hf.prepare_failed hp
      refine h.move .reading .answered rfl hi rfl ⟨hroute, ?_⟩
        ⟨le_refl _, hlt⟩ (hsent _ nofun rfl) ?_ (sublist_put _ _) h.list h.counted
        (h.first_update hop) (h.alone_update hop')
      · intro _ hok
        exact absurd (herr.symm.trans hok) nofun
      · unfold held
        rw [readerPut_ids]
        exact ⟨nil_sublist _, nofun⟩
    · cases hs
      refine h.move .reading .queued rfl hi rfl hroute
        ⟨le_refl _, hlt⟩ (hsent _ nofun rfl) ?_ (sublist_put _ _) h.list h.counted
        (h.first_update hop) (h.alone_update hop')
      · unfold held
        rw [readerPut_ids]
        exact ⟨nil_sublist _, nofun⟩
  · cases hs

theorem Acks.forward {sends : Nat → Packet.Sending} (hs : rp.forward sends = some rp') :
    rp'.Acks done := by
  unfold ReplProtocol.forward at hs
  split at hs
  next i rest hidle hch =>
    obtain ⟨hi, hfrom⟩ := h.head (k := .queued) hch
    have hlt := h.lt_next (i := i) (hi ▸ nofun)
    have hop : (rp.heap i).stage ≠ .operated := hi ▸ nofun
    have hop' : (rp.heap i).stage ≠ .operating := hi ▸ nofun
    have hold := h.route (i := i) (hi ▸ nofun)
    have hsent (r : ReplRequest) (hr : r.stage ≠ .unread) (hw : r.wire = (rp.heap i).wire) :
        SentAcked (update rp.heap i r) rp.sent :=
      h.sent.update (hi ▸ nofun) hr (.inr hw)
    have hlisted : rp.packetList = done := by
      rw [h.list, hidle]
      exact append_nil _
    have hids : rp.held done .operating = [] := by
      unfold held
      rw [hidle]
      rfl
    dsimp only at hs
    split at hs
    next hfwd =>
      obtain ⟨haddrs, hopcode, herr⟩ := Packet.sendRequestFrom_keeps sends 0
        (rp.heap i).packet.followersAddrs.length (rp.heap i).packet
      have hroute : Packet.route { ((rp.heap i).packet.sendRequestToAllFollowers sends).1 with
          remainingFollowers := (rp.heap i).packet.remainingFollowers } =
          (rp.heap i).packet.route := Prod.ext rfl (Prod.ext haddrs hopcode)
      split at hs
      next hok =>
        cases hs
        refine h.move .queued .operating rfl hi rfl (hroute.trans hold)
          ⟨Nat.le_refl _, hlt⟩ (hsent _ nofun rfl) hfrom (sublist_append_right ..) ?_
          h.counted (h.first_update hop) nofun
        · rw [← hlisted]
          rfl
      rename_i hfail
      cases hs
      refine h.move .queued .answered rfl hi rfl ⟨hroute.trans hold, ?_⟩
        ⟨Nat.le_refl _, hlt⟩ (hsent _ nofun rfl) hfrom (sublist_put _ _) h.list h.counted
        (h.first_update hop) (h.alone_update hop')
      · intro _ hok
        exact absurd ((herr (Bool.not_eq_true _ ▸ hfail)).symm.trans hok) nofun
    rename_i hfwd
    cases hs
    refine h.move .queued .operating rfl hi rfl hold ⟨Nat.le_refl _, hlt⟩
      (hsent _ nofun rfl) hfrom (sublist_append_right ..) ?_ h.counted
      (h.first_update hop) ?_
    · rw [hlisted]
      exact (append_nil _).symm
    · intro j n hj
      cases hj
      rw [update_self, ← Packet.resolved_followers, ← (Prod.mk.inj hold).1]
      exact fun hpos => hfwd (decide_eq_true hpos)
  · cases hs

end

variable {p : Packet}

section

variable (h : rp.Acks done)
include h

theorem Acks.streamed (hi : (rp.heap i).stage = .operating) {streamed : List Packet}
    (hsilent : p.isReadExtentOperation = false → streamed = []) (hp : (rp.heap i).packet = p) :
    SentAcked rp.heap (rp.sent ++ streamed.map fun reply => (i, reply)) := by
  intro x hx
  obtain hx | hx := mem_append.mp hx
  · exact h.sent x hx
  · obtain ⟨reply, hreply, rfl⟩ := mem_map.mp hx
    refine ⟨hi ▸ nofun, fun hno _ _ => ?_⟩
    have hold := h.route (i := i) (hi ▸ nofun)
    rw [hsilent (hp ▸ (Packet.isReadExtentOperation_of_route hold).trans hno)] at hreply
    cases hreply

theorem Acks.operate (hf : f.Lawful) (hs : rp.operate f s o = some (s', rp')) :
    ∃ done', rp'.Acks done' := by
  unfold ReplProtocol.operate at hs
  split at hs
  next i n fwd hop =>
    have hi : (rp.heap i).stage = .operating :=
      (h.head (k := .operating) (congrArg OperatorPhase.ids hop)).1
    have hlt := h.lt_next (i := i) (hi ▸ nofun)
    have hne : (rp.heap i).stage ≠ .operated := hi ▸ nofun
    have hold := h.route (i := i) (hi ▸ nofun)
    split at hs
    · cases hs
    rename_i s₁ p streamed finished hp
    have hroute := (hf.operator_route hp).trans hold
    have hsent (r : ReplRequest) (hr : r.stage ≠ .unread) (hw : r.wire = (rp.heap i).wire) :
        SentAcked (update rp.heap i r)
          (rp.sent ++ streamed.map fun reply => (i, reply)) :=
      (h.streamed hi (hf.operator_silent hp) rfl).update (hi ▸ nofun) hr (.inr hw)
    split at hs
    · split at hs
      next hfwd =>
        cases hs
        refine ⟨done ++ [i], ?_⟩
        refine h.move .operating .operated rfl hi rfl
          ⟨hroute, rfl⟩ ⟨le_refl _, hlt⟩ (hsent _ nofun rfl)
          ⟨nil_sublist _, nofun⟩ (.refl _) ?_ ?_ ?_ nofun
        · have hlist := h.list
          rw [hop, hfwd] at hlist
          exact hlist.trans (append_nil _).symm
        · intro hex
          have := h.counted hex
          rw [length_append, length_singleton]
          dsimp only [setRequest]
          split <;> omega
        · intro j k hj
          obtain ⟨hhead, hrec⟩ := h.first_update hne j k hj
          refine ⟨?_, hrec⟩
          rw [head?_append, hhead]
          rfl
      next hfwd =>
        cases hs
        rw [Bool.not_eq_true] at hfwd
        subst hfwd
        refine ⟨done, ?_⟩
        refine h.move .operating .answered rfl hi rfl ⟨hroute, ?_⟩
          ⟨le_refl _, hlt⟩ (hsent _ nofun rfl) ⟨nil_sublist _, nofun⟩
          (sublist_put _ _) ?_ h.counted (h.first_update hne) nofun
        · exact fun hpos => absurd hpos (h.alone i n hop)
        · have hlist := h.list
          rw [hop] at hlist
          exact hlist
    cases hs
    refine ⟨done, ?_⟩
    refine h.stay rfl rfl (hi ▸ nofun) ?_ rfl (hsent _ (hi ▸ nofun) rfl) ?_ ?_ h.counted
      (h.first_update hne) ?_
    · unfold ReplRequest.Good
      rw [hi]
      exact hroute
    · intro l
      cases l with
      | operating =>
        unfold held
        rw [hop]
        rfl
      | _ => rfl
    · have hlist := h.list
      rw [hop] at hlist
      cases fwd <;> exact hlist
    · intro j m hj
      cases hj
      rw [update_self]
      exact h.alone i n hop
  · cases hs

theorem Acks.ack (hs : rp.ack = some rp') : rp'.Acks done := by
  unfold ReplProtocol.ack at hs
  split at hs
  next hidle =>
    have hcount := h.counted (hidle ▸ nofun)
    rw [hidle] at hcount
    split at hs
    next hpos =>
      split at hs
      next hnil =>
        cases hs
        refine { h with counted := fun _ => ?_, first := h.first }
        dsimp only
        rw [hidle]
        omega
      rename_i i rest hcons
      cases hs
      have hlist := h.list
      cases hdone : done with
      | nil =>
        rw [hdone] at hcount
        exact absurd hcount (by simp only [length_nil]; omega)
      | cons j done' =>
        rw [hcons, hdone] at hlist
        obtain ⟨rfl, _⟩ := cons.inj hlist
        rw [← hdone]
        refine { h with counted := fun _ => ?_, first := ?_ }
        · dsimp only [ReceiverPhase.ids] at hcount ⊢
          rw [length_nil] at hcount
          rw [length_singleton]
          omega
        · intro j k hj
          cases hj
          refine ⟨by rw [hdone]; rfl, nofun, ?_⟩
          rw [take_zero]
          exact nofun
    · cases hs
  · cases hs

theorem Acks.deletePacket {k : Nat} (hrec : rp.receiver = .receiving i k)
    (hw : r.wire = (rp.heap i).wire) (hgood : ReplRequest.Good { r with stage := .answered }) :
    ∃ done', (rp.deletePacket i r).Acks done' := by
  obtain ⟨hhead, _⟩ := h.first i k hrec
  have hmem : i ∈ done := mem_of_mem_head? hhead
  have hi : (rp.heap i).stage = .operated := h.placed.place_eq hmem
  have hcount := h.counted (hrec ▸ nofun)
  rw [hrec] at hcount
  cases done with
  | nil => cases hhead
  | cons j done' =>
    cases hhead
    have hnd := (nodup_cons.mp (h.placed .operated).1).1
    refine ⟨done', ?_⟩
    refine h.move .operated .answered rfl hi rfl hgood
      ⟨le_refl _, h.lt_next (hi ▸ nofun)⟩ (h.sent.update (hi ▸ nofun) nofun (.inr hw))
      ⟨sublist_cons_self .., hnd⟩ (sublist_put _ _) ?_ ?_ nofun
      (h.alone_update (hi ▸ nofun))
    · have hlist := h.list
      dsimp only [ReplProtocol.deletePacket]
      rw [hlist, cons_append, erase_cons_head]
      rfl
    · intro _
      dsimp only [ReceiverPhase.ids, length_singleton, length_cons] at hcount ⊢
      dsimp only [ReplProtocol.deletePacket, putResponse, setRequest, ReceiverPhase.ids, length_nil]
      omega

theorem Acks.receive {reply : Option Packet} (hs : rp.receive reply = some rp') :
    ∃ done', rp'.Acks done' := by
  unfold ReplProtocol.receive at hs
  split at hs
  next i k hrec =>
    obtain ⟨hhead, hreceived⟩ := h.first i k hrec
    have hi : (rp.heap i).stage = .operated := h.placed.place_eq (mem_of_mem_head? hhead)
    have hold := h.good i
    unfold ReplRequest.Good at hold
    rw [hi] at hold
    dsimp only at hs
    split at hs
    · cases hs
    rename_i addr haddr
    split at hs
    next reply hcheck =>
      cases hs
      refine ⟨done, ?_⟩
      refine h.stay rfl rfl (hi ▸ nofun) ?_ rfl (h.sent.update (hi ▸ nofun) (hi ▸ nofun) (.inr rfl))
        (fun l => by cases l <;> rfl) h.list ?_ ?_ (h.alone_update (hi ▸ nofun))
      · unfold ReplRequest.Good
        rw [hi]
        exact hold
      · have := h.counted (hrec ▸ nofun)
        rw [hrec] at this
        exact fun _ => this
      · intro j m hj
        cases hj
        refine ⟨hhead, ?_⟩
        rw [update_self]
        unfold Packet.checkLocalResultAndReceiveFromFollower at hcheck
        split at hcheck
        · cases hcheck
        split at hcheck
        · cases hcheck
        next hok =>
          obtain ⟨hans, hreply⟩ := Bool.and_eq_true_iff.mp hcheck
          refine ⟨fun _ => Bool.not_eq_true _ ▸ hok, fun a ha => ?_⟩
          rw [take_add_one, haddr] at ha
          obtain ha | ha := mem_append.mp ha
          · obtain ⟨q, hq, hrest⟩ := hreceived.2 a ha
            exact ⟨q, mem_append_left _ hq, hrest⟩
          · obtain rfl := mem_singleton.mp ha
            refine ⟨reply, mem_append_right _ (mem_singleton_self _), ?_, hans⟩
            exact bne_eq_false_iff_eq.mp (Bool.not_eq_true' _ ▸ hreply)
    cases hs
    refine h.deletePacket hrec rfl ⟨hold.1, fun _ hok => ?_⟩
    rw [Packet.packErrorBody_isErrPacket] at hok
    cases hok
  · cases hs

theorem Acks.replied (hs : rp.replied = some rp') : ∃ done', rp'.Acks done' := by
  unfold ReplProtocol.replied at hs
  split at hs
  next i k hrec =>
    obtain ⟨hhead, hreceived⟩ := h.first i k hrec
    have hi : (rp.heap i).stage = .operated := h.placed.place_eq (mem_of_mem_head? hhead)
    have hold := h.good i
    unfold ReplRequest.Good at hold
    rw [hi] at hold
    dsimp only at hs
    split at hs
    · cases hs
    next hall =>
      cases hs
      refine h.deletePacket hrec rfl ⟨hold.1, fun _ _ => ?_⟩
      exact hreceived.acked hold.1 hold.2 (Nat.le_of_not_lt hall)
  · cases hs

end

theorem close_eq (hs : rp.close f s i = some (s', p, rp')) :
    f.postFunc s (rp.heap i).packet = some (s', p) ∧
      rp' = rp.setRequest i { rp.heap i with packet := p.clean, stage := .closed } := by
  unfold close at hs
  split at hs
  · cases hs
  next hp =>
    obtain ⟨rfl, hpair⟩ := Prod.mk.inj (some.inj hs)
    cases hpair
    exact ⟨hp, rfl⟩

variable (h : rp.Acks done)
include h

theorem Acks.good_close (hf : f.Lawful) (hi : (rp.heap i).stage ≠ .unread)
    (hp : f.postFunc s (rp.heap i).packet = some (s', p)) :
    ReplRequest.Good { rp.heap i with packet := p.clean, stage := .closed } :=
  (hf.post_route hp).trans (h.route hi)

theorem Acks.writeResponse {ok : Bool} (hf : f.Lawful)
    (hs : rp.writeResponse f s ok = some (s', rp')) : rp'.Acks done := by
  unfold ReplProtocol.writeResponse at hs
  split at hs
  next i rest _ hch =>
    obtain ⟨hi, hfrom⟩ := h.head (k := .answered) hch
    have hlt := h.lt_next (i := i) (hi ▸ nofun)
    have hold := h.good i
    unfold ReplRequest.Good at hold
    rw [hi] at hold
    split at hs
    · cases hs
    rename_i s₁ p rp₁ hclose
    obtain ⟨hp, rfl⟩ := close_eq hclose
    have hhead := hf.post_head hp
    have hsent : SentAcked (update rp.heap i
        { rp.heap i with packet := p.clean, stage := .closed }) rp.sent :=
      h.sent.update (hi ▸ nofun) nofun (.inr rfl)
    split at hs
    · cases hs
      refine h.move .answered .closed rfl hi rfl (h.good_close hf (hi ▸ nofun) hp)
        ⟨le_refl _, hlt⟩ ?_ hfrom (nil_sublist _)
        h.list h.counted (h.first_update (hi ▸ nofun)) (h.alone_update (hi ▸ nofun))
      intro x hx
      obtain hx | hx := mem_append.mp hx
      · exact hsent x hx
      · obtain rfl := mem_singleton.mp hx
        rw [update_self]
        refine ⟨nofun, fun _ hpos hok => ⟨rfl, rfl, ?_⟩⟩
        rw [Packet.isErrPacket_of_head hhead] at hok
        exact (hold.2 hpos hok).of_head hhead
    cases hs
    exact h.move .answered .closed rfl hi rfl (h.good_close hf (hi ▸ nofun) hp)
      ⟨le_refl _, hlt⟩ hsent hfrom (nil_sublist _)
      h.list h.counted (h.first_update (hi ▸ nofun)) (h.alone_update (hi ▸ nofun))
  · cases hs

theorem Acks.cleanResource (hf : f.Lawful)
    (hs : rp.cleanResource f s = some (s', rp')) : ∃ done', rp'.Acks done' := by
  unfold ReplProtocol.cleanResource at hs
  split at hs
  · cases hs
  rename_i i rp₁ hnext
  obtain ⟨⟨s₁, p, rp₂⟩, hclose, heq⟩ := map_eq_some_iff.mp hs
  obtain ⟨rfl, rfl⟩ := Prod.mk.inj heq
  obtain ⟨hp, rfl⟩ := close_eq hclose
  unfold nextToClean at hnext
  split at hnext
  next _ hop hrec _ =>
    have hlisted : rp.packetList = done := by
      rw [h.list, hop]
      exact append_nil _
    split at hnext
    next j rest hch =>
      obtain ⟨rfl, rfl⟩ := Prod.mk.inj (some.inj hnext)
      rw [hch] at hlisted
      subst hlisted
      have hi : (rp.heap j).stage = .operated := h.placed.place_eq (mem_cons_self ..)
      refine ⟨rest, ?_⟩
      refine h.move .operated .closed rfl hi rfl (h.good_close hf (hi ▸ nofun) hp)
        ⟨Nat.le_refl _, h.lt_next (hi ▸ nofun)⟩ (h.sent.update (hi ▸ nofun) nofun (.inr rfl))
        ⟨sublist_cons_self .., (nodup_cons.mp (h.placed .operated).1).1⟩
        (nil_sublist _) ?_ (fun hex => absurd hrec hex)
        (fun j k hj => absurd (hrec.symm.trans hj) nofun) (h.alone_update (hi ▸ nofun))
      · dsimp only [setRequest]
        rw [hop]
        exact (append_nil _).symm
    next j rest _ hch =>
      obtain ⟨rfl, rfl⟩ := Prod.mk.inj (some.inj hnext)
      obtain ⟨hi, hfrom⟩ := h.head (k := .queued) hch
      refine ⟨done, ?_⟩
      exact h.move .queued .closed rfl hi rfl (h.good_close hf (hi ▸ nofun) hp)
        ⟨Nat.le_refl _, h.lt_next (hi ▸ nofun)⟩ (h.sent.update (hi ▸ nofun) nofun (.inr rfl))
        hfrom (nil_sublist _) h.list h.counted (h.first_update (hi ▸ nofun))
        (h.alone_update (hi ▸ nofun))
    next j rest _ _ hch =>
      obtain ⟨rfl, rfl⟩ := Prod.mk.inj (some.inj hnext)
      obtain ⟨hi, hfrom⟩ := h.head (k := .answered) hch
      refine ⟨done, ?_⟩
      exact h.move .answered .closed rfl hi rfl (h.good_close hf (hi ▸ nofun) hp)
        ⟨Nat.le_refl _, h.lt_next (hi ▸ nofun)⟩ (h.sent.update (hi ▸ nofun) nofun (.inr rfl))
        hfrom (nil_sublist _) h.list h.counted (h.first_update (hi ▸ nofun))
        (h.alone_update (hi ▸ nofun))
    · cases hnext
  · cases hnext

theorem Acks.leave (hheap : rp'.heap = rp.heap) (hnext : rp'.next = rp.next)
    (hsent : rp'.sent = rp.sent) (hheld : ∀ l, (rp'.held done l).Sublist (rp.held done l))
    (hlist : rp'.packetList = done ++ rp'.operator.listed) (hack : rp'.ackCh = rp.ackCh)
    (hrec : rp'.receiver = rp.receiver ∨ rp'.receiver = .exited)
    (hop : rp'.operator = rp.operator ∨ rp'.operator = .exited) : rp'.Acks done where
  good := hheap ▸ h.good
  fresh := hheap ▸ hnext ▸ h.fresh
  placed := hheap ▸ h.placed.drop hheld
  list := hlist
  counted := by
    intro hex
    obtain hrec | hrec := hrec
    · rw [hack, hrec]
      exact h.counted (hrec ▸ hex)
    · exact absurd hrec hex
  first := by
    intro j k hj
    obtain hrec | hrec := hrec
    · rw [hheap]
      exact h.first j k (hrec.symm.trans hj)
    · exact absurd (hrec.symm.trans hj) nofun
  alone := by
    intro j n hj
    obtain hop | hop := hop
    · rw [hheap]
      exact h.alone j n (hop.symm.trans hj)
    · exact absurd (hop.symm.trans hj) nofun
  sent := hheap ▸ hsent ▸ h.sent

theorem Acks.step {e : ReplEvent ω} (hf : f.Lawful)
    (hs : rp.step f s e = some (s', rp')) : ∃ done', rp'.Acks done' := by
  cases e with
  | read wire =>
    obtain ⟨rp₁, hrp, heq⟩ := map_eq_some_iff.mp hs
    obtain ⟨_, rfl⟩ := Prod.mk.inj heq
    exact ⟨done, h.readPkg hrp⟩
  | prepare o => exact ⟨done, h.prepare hf hs⟩
  | readerExit =>
    dsimp only [ReplProtocol.step] at hs
    split at hs
    next hidle =>
      obtain ⟨_, rfl⟩ := Prod.mk.inj (some.inj hs)
      refine ⟨done, h.leave rfl rfl rfl ?_ h.list rfl (.inl rfl) (.inl rfl)⟩
      intro l
      cases l with
      | reading => exact nil_sublist _
      | _ => exact .refl _
    · cases hs
  | forward sends =>
    obtain ⟨rp₁, hrp, heq⟩ := map_eq_some_iff.mp hs
    obtain ⟨_, rfl⟩ := Prod.mk.inj heq
    exact ⟨done, h.forward hrp⟩
  | operate o => exact h.operate hf hs
  | operatorExit =>
    dsimp only [ReplProtocol.step] at hs
    split at hs
    next hidle _ =>
      obtain ⟨_, rfl⟩ := Prod.mk.inj (some.inj hs)
      have hlist := h.list
      rw [hidle] at hlist
      refine ⟨done, h.leave rfl rfl rfl ?_ hlist rfl (.inl rfl) (.inr rfl)⟩
      intro l
      cases l with
      | operating => exact nil_sublist _
      | _ => exact .refl _
    · cases hs
  | ack =>
    obtain ⟨rp₁, hrp, heq⟩ := map_eq_some_iff.mp hs
    obtain ⟨_, rfl⟩ := Prod.mk.inj heq
    exact ⟨done, h.ack hrp⟩
  | reply reply =>
    obtain ⟨rp₁, hrp, heq⟩ := map_eq_some_iff.mp hs
    obtain ⟨_, rfl⟩ := Prod.mk.inj heq
    exact h.receive hrp
  | replied =>
    obtain ⟨rp₁, hrp, heq⟩ := map_eq_some_iff.mp hs
    obtain ⟨_, rfl⟩ := Prod.mk.inj heq
    exact h.replied hrp
  | receiverExit =>
    dsimp only [ReplProtocol.step] at hs
    split at hs
    · obtain ⟨_, rfl⟩ := Prod.mk.inj (some.inj hs)
      exact ⟨done, h.leave rfl rfl rfl (fun l => by cases l <;> exact .refl _) h.list rfl (.inr rfl)
        (.inl rfl)⟩
    · cases hs
  | write ok => exact ⟨done, h.writeResponse hf hs⟩
  | writerExit =>
    dsimp only [ReplProtocol.step] at hs
    split at hs
    · obtain ⟨_, rfl⟩ := Prod.mk.inj (some.inj hs)
      exact ⟨done, h.leave rfl rfl rfl (fun l => by cases l <;> exact .refl _) h.list rfl (.inl rfl)
        (.inl rfl)⟩
    · cases hs
  | clean => exact h.cleanResource hf hs

end steps
end ReplProtocol
end ChubaoFS
