import ChubaoFS.ReplStages

namespace ChubaoFS

open List Option

/-! What a step does to the requests, apart from where they stand. -/

def Packet.core (p : Packet) :
    UInt8 × UInt8 × UInt8 × UInt64 × UInt64 × Int × PacketObject × Bool :=
  (p.opcode, p.extentType, p.remainingFollowers, p.partitionID, p.extentID, p.extentOffset,
    p.object, p.isReleased)

theorem Packet.sendRequestFrom_core (sends : Nat → Sending) (index left : Nat) (p : Packet) :
    { (sendRequestFrom sends index left p).1 with remainingFollowers := p.remainingFollowers
      }.core = p.core ∧ (sendRequestFrom sends index left p).1.size = p.size := by
  suffices h : ∀ (q : Packet), { q with remainingFollowers := p.remainingFollowers }.core = p.core →
      q.size = p.size → { (sendRequestFrom sends index left q).1 with
        remainingFollowers := p.remainingFollowers }.core = p.core ∧
          (sendRequestFrom sends index left q).1.size = p.size from h p rfl rfl
  induction left generalizing index with
  | zero => exact fun q hq hsize => ⟨hq, hsize⟩
  | succ left ih =>
    intro q hq hsize
    unfold sendRequestFrom
    split
    · exact ⟨hq, hsize⟩
    · exact ⟨hq, hsize⟩
    · exact ih _ _ hq hsize

structure ReplRequest.Passed (r r' : ReplRequest) : Prop where
  wire : r'.wire = r.wire
  localResult : r'.localResult = r.localResult
  core : r'.packet.core = r.packet.core
  stage : r.stage = .queued ∧ r'.packet.size = r.packet.size ∧
      (r'.stage = .operating ∨ r'.stage = .answered) ∨
    r.stage = .operated ∧ (r'.stage = .operated ∨ r'.stage = .answered)

def Progress.stage : Progress → Stage
  | .goesOn => .reading
  | .done => .queued
  | .failed => .answered

inductive Effect {σ ω : Type} (f : ReplFuncs σ ω) (s : σ) (rp : ReplProtocol) :
    ReplEvent ω → σ → ReplProtocol → Prop
  | read {wire : Packet} {r : ReplRequest} {rp' : ReplProtocol}
      (heap : rp'.heap = Function.update rp.heap rp.next r)
      (unread : (rp.heap rp.next).stage = .unread)
      (new : r.wire = wire ∧ r.packet = wire.resolved ∧ r.localResult = none)
      (stage : r.stage = .reading ∧ rp'.reader = .preparing rp.next 0 ∨
        r.stage = .answered ∧ rp'.reader.ids = []) : Effect f s rp (.read wire) s rp'
  | prepare {o : ω} {i n : Nat} {s' : σ} {p : Packet} {g : Progress} {rp' : ReplProtocol}
      (reader : rp.reader = .preparing i n) (old : (rp.heap i).stage = .reading)
      (func : f.prepareFunc o n s (rp.heap i).packet = some (s', p, g))
      (heap : rp'.heap = Function.update rp.heap i { rp.heap i with packet := p, stage := g.stage })
      (reader' : rp'.reader.ids = [] ∨ g = .goesOn ∧ rp'.reader = .preparing i (n + 1)) :
      Effect f s rp (.prepare o) s' rp'
  | operate {o : ω} {i n : Nat} {s' : σ} {p : Packet} {l : List Packet} {finished : Bool}
      {st : Stage} {rp' : ReplProtocol} (old : (rp.heap i).stage = .operating)
      (func : f.operatorFunc o n s (rp.heap i).packet = some (s', p, l, finished))
      (heap : rp'.heap = Function.update rp.heap i { rp.heap i with
        packet := p
        stage := st
        localResult := if finished then some !p.isErrPacket else (rp.heap i).localResult })
      (stage : if finished then st = .operated ∨ st = .answered else st = .operating)
      (reader' : rp'.reader = rp.reader) : Effect f s rp (.operate o) s' rp'
  | close {e : ReplEvent ω} {i : Nat} {s' : σ} {p : Packet} {rp' : ReplProtocol}
      (old : (rp.heap i).stage = .queued ∨ (rp.heap i).stage = .operated ∨
        (rp.heap i).stage = .answered)
      (func : f.postFunc s (rp.heap i).packet = some (s', p))
      (heap : rp'.heap =
        Function.update rp.heap i { rp.heap i with packet := p.clean, stage := .closed })
      (reader' : rp'.reader = rp.reader) : Effect f s rp e s' rp'
  | pass {e : ReplEvent ω} {i : Nat} {r : ReplRequest} {rp' : ReplProtocol}
      (heap : rp'.heap = Function.update rp.heap i r) (passed : (rp.heap i).Passed r)
      (reader' : rp'.reader = rp.reader) : Effect f s rp e s rp'
  | still {e : ReplEvent ω} {rp' : ReplProtocol} (heap : rp'.heap = rp.heap)
      (reader' : rp'.reader = rp.reader ∨ rp'.reader.ids = []) : Effect f s rp e s rp'

namespace ReplProtocol

variable {σ ω : Type} {f : ReplFuncs σ ω} {s s' : σ} {rp rp' : ReplProtocol} {done : List Nat}
  {e : ReplEvent ω} {o : ω} (h : rp.Acks done)
include h

theorem Acks.effect_readPkg {wire : Packet} (hs : rp.readPkg wire = some rp') :
    Effect f s rp (.read wire) s rp' := by
  have hunread := h.fresh rp.next (Nat.le_refl _)
  unfold ReplProtocol.readPkg at hs
  split at hs
  · dsimp only at hs
    split at hs
    · cases hs
      exact .read rfl hunread ⟨rfl, rfl, rfl⟩ (.inl ⟨rfl, rfl⟩)
    · cases hs
      exact .read rfl hunread ⟨rfl, rfl, rfl⟩ (.inr ⟨rfl, readerPut_ids ..⟩)
  · cases hs

theorem Acks.effect_prepare (hs : rp.prepare f s o = some (s', rp')) :
    Effect f s rp (.prepare o) s' rp' := by
  unfold ReplProtocol.prepare at hs
  split at hs
  next i n hreader =>
    have hi : (rp.heap i).stage = .reading :=
      (h.head (k := .reading) (congrArg ReaderPhase.ids hreader)).1
    split at hs
    · cases hs
    rename_i s₁ p g hp
    dsimp only at hs
    split at hs
    · cases hs
      refine .prepare hreader hi hp ?_ (.inr ⟨rfl, rfl⟩)
      dsimp only [setRequest, Progress.stage]
      rw [hi]
    all_goals
      cases hs
      exact .prepare hreader hi hp rfl (.inl (readerPut_ids ..))
  · cases hs

theorem Acks.effect_forward {sends : Nat → Packet.Sending}
    (hs : rp.forward sends = some rp') : Effect f s rp (.forward sends) s rp' := by
  unfold ReplProtocol.forward at hs
  split at hs
  next i rest hidle hch =>
    have hi : (rp.heap i).stage = .queued := (h.head (k := .queued) hch).1
    obtain ⟨hcore, hsize⟩ := Packet.sendRequestFrom_core sends 0
      (rp.heap i).packet.followersAddrs.length (rp.heap i).packet
    dsimp only at hs
    split at hs
    · split at hs
      · cases hs
        exact .pass rfl ⟨rfl, rfl, hcore, .inl ⟨hi, hsize, .inl rfl⟩⟩ rfl
      · cases hs
        exact .pass rfl ⟨rfl, rfl, hcore, .inl ⟨hi, hsize, .inr rfl⟩⟩ rfl
    · cases hs
      exact .pass rfl ⟨rfl, rfl, rfl, .inl ⟨hi, rfl, .inl rfl⟩⟩ rfl
  · cases hs

theorem Acks.effect_operate (hs : rp.operate f s o = some (s', rp')) :
    Effect f s rp (.operate o) s' rp' := by
  unfold ReplProtocol.operate at hs
  split at hs
  next i n fwd hop =>
    have hi : (rp.heap i).stage = .operating :=
      (h.head (k := .operating) (congrArg OperatorPhase.ids hop)).1
    split at hs
    · cases hs
    rename_i s₁ p streamed finished hp
    dsimp only at hs
    split at hs
    next hfin =>
      subst hfin
      split at hs
      · cases hs
        exact .operate hi hp rfl (.inl rfl) rfl
      · cases hs
        exact .operate hi hp rfl (.inr rfl) rfl
    rename_i hfin
    rw [Bool.not_eq_true] at hfin
    subst hfin
    cases hs
    exact .operate hi hp rfl hi rfl
  · cases hs

theorem Acks.effect_receiver {i k : Nat} (hrec : rp.receiver = .receiving i k) {r : ReplRequest}
    (hheap : rp'.heap = Function.update rp.heap i r) (hreader : rp'.reader = rp.reader)
    (hw : r.wire = (rp.heap i).wire) (hres : r.localResult = (rp.heap i).localResult)
    (hcore : r.packet.core = (rp.heap i).packet.core)
    (hst : r.stage = (rp.heap i).stage ∨ r.stage = .answered) : Effect f s rp e s rp' := by
  have hi : (rp.heap i).stage = .operated :=
    h.placed.place_eq (mem_of_mem_head? (h.first i k hrec).1)
  exact .pass hheap ⟨hw, hres, hcore, .inr ⟨hi, hst.imp_left fun heq => heq.trans hi⟩⟩ hreader

theorem Acks.effect_receive {reply : Option Packet}
    (hs : rp.receive reply = some rp') : Effect f s rp (.reply reply) s rp' := by
  unfold ReplProtocol.receive at hs
  split at hs
  next i k hrec =>
    dsimp only at hs
    split at hs
    · cases hs
    split at hs
    · cases hs
      exact h.effect_receiver hrec rfl rfl rfl rfl rfl (.inl rfl)
    · cases hs
      exact h.effect_receiver hrec rfl rfl rfl rfl rfl (.inr rfl)
  · cases hs

theorem Acks.effect_replied (hs : rp.replied = some rp') : Effect f s rp .replied s rp' := by
  unfold ReplProtocol.replied at hs
  split at hs
  next i k hrec =>
    dsimp only at hs
    split at hs
    · cases hs
    · cases hs
      exact h.effect_receiver hrec rfl rfl rfl rfl rfl (.inr rfl)
  · cases hs

theorem Acks.effect_writeResponse {ok : Bool}
    (hs : rp.writeResponse f s ok = some (s', rp')) : Effect f s rp (.write ok) s' rp' := by
  unfold ReplProtocol.writeResponse at hs
  split at hs
  next i rest _ hch =>
    have hi : (rp.heap i).stage = .answered := (h.head (k := .answered) hch).1
    split at hs
    · cases hs
    rename_i s₁ p rp₁ hclose
    obtain ⟨hp, rfl⟩ := close_eq hclose
    split at hs
    all_goals
      cases hs
      exact .close (.inr (.inr hi)) hp rfl rfl
  · cases hs

theorem Acks.effect_cleanResource
    (hs : rp.cleanResource f s = some (s', rp')) : Effect f s rp .clean s' rp' := by
  unfold ReplProtocol.cleanResource at hs
  split at hs
  · cases hs
  rename_i i rp₁ hnext
  obtain ⟨⟨s₁, p, rp₂⟩, hclose, heq⟩ := map_eq_some_iff.mp hs
  cases heq
  obtain ⟨hp, rfl⟩ := close_eq hclose
  unfold nextToClean at hnext
  split at hnext
  next _ hop hrec _ =>
    split at hnext
    next j rest hch =>
      cases hnext
      have hlist := h.list
      rw [hch, hop] at hlist
      refine .close (.inr (.inl (h.placed.place_eq ?_))) hp rfl rfl
      exact (hlist.trans (append_nil _)) ▸ mem_cons_self ..
    next j rest _ hch =>
      cases hnext
      exact .close (.inl (h.head (k := .queued) hch).1) hp rfl rfl
    next j rest _ _ hch =>
      cases hnext
      exact .close (.inr (.inr (h.head (k := .answered) hch).1)) hp rfl rfl
    · cases hnext
  · cases hnext

theorem Acks.effect (hs : rp.step f s e = some (s', rp')) : Effect f s rp e s' rp' := by
  cases e with
  | read wire =>
    obtain ⟨rp₁, hrp, heq⟩ := map_eq_some_iff.mp hs
    cases heq
    exact h.effect_readPkg hrp
  | prepare o => exact h.effect_prepare hs
  | readerExit =>
    dsimp only [ReplProtocol.step] at hs
    split at hs
    · cases hs
      exact .still rfl (.inr rfl)
    · cases hs
  | forward sends =>
    obtain ⟨rp₁, hrp, heq⟩ := map_eq_some_iff.mp hs
    cases heq
    exact h.effect_forward hrp
  | operate o => exact h.effect_operate hs
  | operatorExit | receiverExit | writerExit =>
    dsimp only [ReplProtocol.step] at hs
    split at hs
    · cases hs
      exact .still rfl (.inl rfl)
    · cases hs
  | ack =>
    obtain ⟨rp₁, hrp, heq⟩ := map_eq_some_iff.mp hs
    cases heq
    unfold ReplProtocol.ack at hrp
    split at hrp
    · split at hrp
      · split at hrp
        all_goals exact some.inj hrp ▸ .still rfl (.inl rfl)
      · cases hrp
    · cases hrp
  | reply reply =>
    obtain ⟨rp₁, hrp, heq⟩ := map_eq_some_iff.mp hs
    cases heq
    exact h.effect_receive hrp
  | replied =>
    obtain ⟨rp₁, hrp, heq⟩ := map_eq_some_iff.mp hs
    cases heq
    exact h.effect_replied hrp
  | write ok => exact h.effect_writeResponse hs
  | clean => exact h.effect_cleanResource hs

end ReplProtocol
end ChubaoFS
