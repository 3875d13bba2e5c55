import ChubaoFS.RecoveryChain

namespace ChubaoFS

open List Option Nat ChainPacket ExtentStatus ReceiverState

/-! The keys of a chain of handlers tell exactly of the packets that were acknowledged. -/

namespace Payload

/-- The payloads follow each other from `a` to `b`. -/
def Follow : Nat → List Payload → Nat → Prop
  | a, [], b => a = b
  | a, p :: ps, b => p.kernelOffset = a ∧ p.data ≠ [] ∧ Follow (a + p.data.length) ps b

@[simp] theorem size_nil : size [] = 0 := rfl

@[simp] theorem size_append (ps qs : List Payload) : size (ps ++ qs) = size ps + size qs := by
  unfold size
  rw [map_append, List.sum_append]

@[simp] theorem size_singleton (p : Payload) : size [p] = p.data.length := by
  simp [size]

theorem size_cons (p : Payload) (ps : List Payload) : size (p :: ps) = p.data.length + size ps := by
  simp [size]

theorem follow_append {ps qs : List Payload} {a b : Nat} :
    Follow a (ps ++ qs) b ↔ Follow a ps (a + size ps) ∧ Follow (a + size ps) qs b := by
  induction ps generalizing a with
  | nil => exact ⟨fun h => ⟨rfl, h⟩, fun h => h.2⟩
  | cons p ps ih =>
    rw [cons_append, size_cons, ← add_assoc]
    constructor
    · rintro ⟨hp, hne, h⟩
      obtain ⟨h₁, h₂⟩ := ih.mp h
      exact ⟨⟨hp, hne, h₁⟩, h₂⟩
    · rintro ⟨⟨hp, hne, h₁⟩, h₂⟩
      exact ⟨hp, hne, ih.mpr ⟨h₁, h₂⟩⟩

theorem Follow.size {ps : List Payload} {a b : Nat} (h : Follow a ps b) : a + size ps = b := by
  induction ps generalizing a with
  | nil => exact h
  | cons p ps ih =>
    rw [size_cons, ← add_assoc]
    exact ih h.2.2

end Payload

def ExtentStatus.rank : ExtentStatus → Nat
  | opened => 0
  | closed => 1
  | recovery => 2
  | error => 3

theorem ExtentStatus.inRecovery_iff {status : ExtentStatus} :
    status.inRecovery = true ↔ 2 ≤ status.rank := by
  cases status <;> decide

namespace StatusSwap

theorem rank_run_le (swap : StatusSwap) {s s' : ExtentStatus} (h : s.rank ≤ s'.rank) :
    (swap.run s).rank ≤ (swap.run s').rank := by
  revert h
  cases swap <;> cases s <;> cases s' <;> decide

theorem le_rank_run (swap : StatusSwap) (s : ExtentStatus) : s.rank ≤ (swap.run s).rank := by
  cases swap <;> cases s <;> decide

theorem rank_foldl_le (swaps : List StatusSwap) {s s' : ExtentStatus} (h : s.rank ≤ s'.rank) :
    (swaps.foldl (fun s swap => swap.run s) s).rank ≤
      (swaps.foldl (fun s swap => swap.run s) s').rank := by
  induction swaps generalizing s s' with
  | nil => exact h
  | cons swap swaps ih => exact ih (swap.rank_run_le h)

end StatusSwap

namespace ChainHandler

def pipe (eh : ChainHandler) : List ChainPacket :=
  eh.receiver.packets ++ eh.reply ++ eh.sender.packets ++ eh.request

def rest (eh : ChainHandler) : List Payload := eh.discarded ++ eh.pipe.map ChainPacket.payload

def flow : List ChainHandler → List Payload
  | [] => []
  | eh :: behind => eh.counted ++ flow behind ++ eh.rest

def front (eh : ChainHandler) : List ChainPacket :=
  eh.receiver.packets ++ eh.reply ++ (match eh.sender with
    | .handing packet => [packet]
    | _ => [])

structure Keyed (acks : List WriteAck) (eh : ChainHandler) : Prop where
  unkeyed : eh.counted = [] → eh.key = none
  keyed : eh.counted ≠ [] → ∃ k, eh.key = some k ∧ k.key = eh.fileOffset ∧
    k.size.toNat = Payload.size eh.counted ∧
    (eh.storeMode = .normal → eh.place = some (k.partitionId, k.extentId) ∧ k.extentOffset = 0)
  acked : eh.storeMode = .normal → ∀ p ∈ eh.counted, ∃ partitionID extentID,
    eh.place = some (partitionID, extentID) ∧
      ⟨p, partitionID, extentID, p.kernelOffset - eh.fileOffset⟩ ∈ acks

structure Wired (acks : List WriteAck) (pushed : List Payload) (eh : ChainHandler) : Prop where
  sent : ∀ p ∈ eh.sent, eh.place = some (p.partitionID, p.extentID) ∧
    p.extentOffset = p.payload.kernelOffset - eh.fileOffset ∧ p.payload ∈ pushed
  replies : ∀ r ∈ eh.replies, r.ok = true → ∃ p ∈ eh.sent, p.payload.reqID = r.reqID ∧
    (eh.storeMode = .normal → ⟨p.payload, p.partitionID, p.extentID, p.extentOffset⟩ ∈ acks)
  front : eh.status.inRecovery = false → ∀ p ∈ eh.front, p ∈ eh.sent
  reading : ∀ p, eh.receiver = .reading p → p ∈ eh.sent
  allocating : ∀ p, eh.sender = .allocating p → eh.place = none

/-- How the states of sender and receiver go with the status; `last` means that no handler is
behind. -/
structure Staged (last : Prop) (eh : ChainHandler) : Prop where
  reading : ∀ p, eh.receiver = .reading p → last ∧ eh.discarded = []
  swapping : ∀ p swaps, eh.receiver = .swapping p swaps → last ∧ eh.discarded = [] ∧
    2 ≤ (swaps.foldl (fun s swap => swap.run s) eh.status).rank
  recovering : ∀ p, eh.receiver = .recovering p → eh.discarded = [] ∧ 2 ≤ eh.status.rank
  discarding : ∀ p, eh.receiver = .discarding p → 2 ≤ eh.status.rank
  sending : ∀ p swaps, eh.sender = .swapping p swaps →
    2 ≤ (swaps.foldl (fun s swap => swap.run s) eh.status).rank
  behind : ¬ last → 2 ≤ eh.status.rank
  discarded : eh.discarded ≠ [] → eh.status = .error

structure Sound (acks : List WriteAck) (pushed : List Payload) (a : Nat) (last : Prop)
    (eh : ChainHandler) : Prop where
  start : eh.fileOffset = a
  keyed : eh.Keyed acks
  wired : eh.Wired acks pushed
  staged : eh.Staged last

def Good (acks : List WriteAck) (pushed : List Payload) : Nat → List ChainHandler → Prop
  | _, [] => True
  | a, eh :: behind => eh.Sound acks pushed a (behind = []) ∧
      Good acks pushed (a + Payload.size eh.counted) behind

section Status

variable {last : Prop} {eh : ChainHandler} {pushed : List Payload} {acks : List WriteAck}

theorem Staged.swap (h : eh.Staged last) (swap : StatusSwap) :
    Staged last { eh with status := swap.run eh.status } where
  reading := h.reading
  swapping p swaps hp := by
    obtain ⟨hlast, hnil, hrank⟩ := h.swapping p swaps hp
    exact ⟨hlast, hnil, le_trans hrank
      (StatusSwap.rank_foldl_le swaps (swap.le_rank_run eh.status))⟩
  recovering p hp := ⟨(h.recovering p hp).1,
    le_trans (h.recovering p hp).2 (swap.le_rank_run eh.status)⟩
  discarding p hp := le_trans (h.discarding p hp) (swap.le_rank_run eh.status)
  sending p swaps hp := le_trans (h.sending p swaps hp)
    (StatusSwap.rank_foldl_le swaps (swap.le_rank_run eh.status))
  behind hl := le_trans (h.behind hl) (swap.le_rank_run eh.status)
  discarded hd := by
    rw [h.discarded hd]
    cases swap <;> rfl

theorem Wired.swap (h : eh.Wired acks pushed) (swap : StatusSwap) :
    Wired acks pushed { eh with status := swap.run eh.status } where
  __ := h
  front hno := h.front (by
    have := swap.le_rank_run eh.status
    by_contra hin
    have hin := inRecovery_iff.mp (Bool.not_eq_false _ ▸ hin)
    have hin' := inRecovery_iff.mpr (le_trans hin this)
    exact Bool.false_ne_true (hno.symm.trans hin'))

theorem Sound.swap {a : Nat} (h : eh.Sound acks pushed a last) (swap : StatusSwap) :
    Sound acks pushed a last { eh with status := swap.run eh.status } :=
  ⟨h.start, { h.keyed with }, h.wired.swap swap, h.staged.swap swap⟩

end Status

section Sender

variable {crc32 : Bytes → UInt32} {place : Option (UInt64 × UInt64)} {sends : Bool}
  {acks : List WriteAck} {pushed : List Payload} {a : Nat} {last : Prop} {eh eh' : ChainHandler}

theorem Sound.withSender (h : eh.Sound acks pushed a last) (sender : SenderState)
    (hfront : eh.status.inRecovery = false →
      ∀ p ∈ ({ eh with sender := sender } : ChainHandler).front, p ∈ eh.sent)
    (halloc : ∀ p, sender = .allocating p → eh.place = none)
    (hswaps : ∀ p swaps, sender = .swapping p swaps →
      2 ≤ (swaps.foldl (fun s swap => swap.run s) eh.status).rank) :
    Sound acks pushed a last { eh with sender := sender } where
  start := h.start
  keyed := { h.keyed with }
  wired := { h.wired with front := hfront, allocating := halloc }
  staged := { h.staged with sending := hswaps }

theorem front_subset (eh : ChainHandler) (sender : SenderState) (hs : ∀ p, sender ≠ .handing p) :
    ∀ p ∈ ({ eh with sender := sender } : ChainHandler).front, p ∈ eh.front := by
  intro p hp
  unfold front at hp ⊢
  rw [mem_append] at hp ⊢
  obtain hp | hp := hp
  · exact .inl hp
  · cases sender with
    | handing q => exact absurd rfl (hs q)
    | _ => cases hp

theorem Sound.placed (h : eh.Sound acks pushed a last) {packet : ChainPacket}
    (hsender : eh.sender = .allocating packet) (place : UInt64 × UInt64) :
    Sound acks pushed a last { eh with place := some place, sender := .placed packet } := by
  have hnone := h.wired.allocating packet hsender
  -- nothing was sent before there was a place
  have hsent : ∀ p, p ∉ eh.sent := fun p hp => by
    have := (h.wired.sent p hp).1
    rw [hnone] at this
    cases this
  have hcounted : eh.storeMode = .normal → eh.counted = [] := by
    intro hmode
    refine eq_nil_iff_forall_not_mem.mpr fun p hp => ?_
    obtain ⟨_, _, hsome, -⟩ := h.keyed.acked hmode p hp
    rw [hnone] at hsome
    cases hsome
  refine ⟨h.start, ⟨h.keyed.unkeyed, fun hne => ?_, fun hmode p hp => ?_⟩,
    ⟨fun p hp => absurd hp (hsent p), h.wired.replies, fun hno p hp =>
      h.wired.front hno p (eh.front_subset (.placed packet) nofun p hp), h.wired.reading, nofun⟩,
    { h.staged with sending := nofun }⟩
  · obtain ⟨k, hk, hkey, hsize, -⟩ := h.keyed.keyed hne
    exact ⟨k, hk, hkey, hsize, fun hmode => absurd (hcounted hmode) hne⟩
  · change p ∈ eh.counted at hp
    rw [hcounted hmode] at hp
    cases hp

theorem Sound.send (h : eh.Sound acks pushed a last) {packet : ChainPacket}
    (hplace : eh.place = some (packet.partitionID, packet.extentID))
    (hoffset : packet.extentOffset = packet.payload.kernelOffset - eh.fileOffset)
    (hpushed : packet.payload ∈ pushed) (sends : Bool) : Sound acks pushed a last { eh with
      sent := eh.sent ++ [packet]
      sender := if sends then .handing packet
        else .swapping packet [.setClosed, .setRecovery] } := by
  refine ⟨h.start, { h.keyed with }, ⟨fun p hp => ?_, fun r hr hok => ?_, fun hno p hp => ?_,
    fun p hp => mem_append_left _ (h.wired.reading p hp), fun p hp => ?_⟩,
    { h.staged with sending := fun p swaps hp => ?_ }⟩
  · obtain hp | hp := mem_append.mp hp
    · exact h.wired.sent p hp
    · obtain rfl := mem_singleton.mp hp
      exact ⟨hplace, hoffset, hpushed⟩
  · obtain ⟨p, hp, hrest⟩ := h.wired.replies r hr hok
    exact ⟨p, mem_append_left _ hp, hrest⟩
  · unfold front at hp
    rw [mem_append] at hp
    obtain hp | hp := hp
    · exact mem_append_left _ (h.wired.front hno p (mem_append_left _ hp))
    · cases sends with
      | true =>
        obtain rfl := mem_singleton.mp hp
        exact mem_append_right _ (mem_singleton_self _)
      | false => cases hp
  · cases sends <;> cases hp
  · cases sends with
    | true => cases hp
    | false =>
      cases hp
      change 2 ≤ ([StatusSwap.setClosed, .setRecovery].foldl _ eh.status).rank
      cases eh.status <;> decide

theorem Sound.stepSender (h : eh.Sound acks pushed a last)
    (hpipe : ∀ p ∈ eh.pipe, p.payload ∈ pushed) (hs : eh.stepSender crc32 place sends = some eh') :
    eh'.Sound acks pushed a last ∧ eh'.counted = eh.counted ∧ eh'.rest = eh.rest := by
  have hfront {sender : SenderState} (hsender : ∀ p, sender ≠ .handing p) :
      eh.status.inRecovery = false →
        ∀ p ∈ ({ eh with sender := sender } : ChainHandler).front, p ∈ eh.sent :=
    fun hno p hp => h.wired.front hno p (eh.front_subset sender hsender p hp)
  have hlate (hin : 2 ≤ eh.status.rank) {l : List ChainPacket} :
      eh.status.inRecovery = false → ∀ p ∈ l, p ∈ eh.sent := fun hno =>
    absurd (hno.symm.trans (inRecovery_iff.mpr hin)) Bool.false_ne_true
  have hrest {sender : SenderState}
      (hp : sender.packets.map payload = eh.sender.packets.map payload) :
      ({ eh with sender := sender } : ChainHandler).rest = eh.rest := by
    unfold rest pipe
    simp only [map_append, hp]
  unfold ChainHandler.stepSender at hs
  cases hsender : eh.sender with
  | stopped =>
    rw [hsender] at hs
    cases hs
  | idle =>
    rw [hsender] at hs
    dsimp only at hs
    split at hs
    · cases hs
    rename_i packet request hreq
    cases hs
    have hnext := h.withSender (.took packet) (hfront nofun) nofun nofun
    refine ⟨⟨hnext.start, { h.keyed with },
      { h.wired with front := hnext.wired.front, allocating := nofun },
      { h.staged with sending := nofun }⟩, rfl, ?_⟩
    unfold rest pipe
    simp [hreq, hsender, SenderState.packets]
  | took packet =>
    rw [hsender] at hs
    dsimp only at hs
    split at hs
    next hin =>
      cases hs
      exact ⟨h.withSender _ (hlate (inRecovery_iff.mp hin)) nofun nofun, rfl,
        hrest (by rw [hsender]; rfl)⟩
    split at hs
    next hplace =>
      cases hs
      exact ⟨h.withSender _ (hfront nofun) (fun _ _ => hplace) nofun, rfl,
        hrest (by rw [hsender]; rfl)⟩
    · cases hs
      exact ⟨h.withSender _ (hfront nofun) nofun nofun, rfl, hrest (by rw [hsender]; rfl)⟩
  | allocating packet =>
    rw [hsender] at hs
    dsimp only at hs
    split at hs
    · cases hs
      refine ⟨h.withSender _ (hfront nofun) nofun fun p swaps heq => ?_, rfl,
        hrest (by rw [hsender]; rfl)⟩
      cases heq
      cases eh.status <;> decide
    cases hs
    exact ⟨h.placed hsender _, rfl, hrest (by rw [hsender]; rfl)⟩
  | placed packet =>
    rw [hsender] at hs
    dsimp only at hs
    split at hs
    · cases hs
    rename_i partitionID extID hplace
    have hpushed : packet.payload ∈ pushed := by
      refine hpipe packet ?_
      unfold pipe
      rw [hsender]
      simp [SenderState.packets]
    cases hs
    refine ⟨h.send ?_ ?_ ?_ sends, rfl, hrest ?_⟩
    · exact hplace
    · rfl
    · exact hpushed
    · rw [hsender]
      cases sends <;> simp [SenderState.packets]
  | swapping packet swaps =>
    have hrank := h.staged.sending packet swaps hsender
    rw [hsender] at hs
    cases swaps with
    | nil =>
      cases hs
      exact ⟨h.withSender _ (hlate hrank) nofun nofun, rfl, hrest (by rw [hsender]; rfl)⟩
    | cons swap swaps =>
      cases hs
      have hnext := (h.swap swap).withSender (.swapping packet swaps)
        (fun hno p hp => (h.swap swap).wired.front hno p
          (front_subset _ (.swapping packet swaps) nofun p hp)) nofun
        fun p swaps' heq => by
          cases heq
          exact hrank
      exact ⟨hnext, rfl, hrest (by rw [hsender]; rfl)⟩
  | handing packet =>
    rw [hsender] at hs
    cases hs
    refine ⟨⟨h.start, { h.keyed with },
      { h.wired with front := fun hno p hp => h.wired.front hno p ?_, allocating := nofun },
      { h.staged with sending := nofun }⟩, rfl, ?_⟩
    · unfold front at hp ⊢
      rw [hsender]
      simpa using hp
    · unfold rest pipe
      simp [hsender, SenderState.packets]

end Sender

section Receiver

variable {acks : List WriteAck} {pushed : List Payload} {a b : Nat} {last : Prop}
  {eh : ChainHandler} {behind l : List ChainHandler} {read : Option Nat}

theorem Sound.withReceiver (h : eh.Sound acks pushed a last) (receiver : ReceiverState)
    (hpackets : ∀ p ∈ receiver.packets, p ∈ eh.receiver.packets)
    (hreading : ∀ p, receiver = .reading p → p ∈ eh.sent ∧ last ∧ eh.discarded = [])
    (hswaps : ∀ p swaps, receiver = .swapping p swaps → last ∧ eh.discarded = [] ∧
      2 ≤ (swaps.foldl (fun s swap => swap.run s) eh.status).rank)
    (hrecovering : ∀ p, receiver = .recovering p → eh.discarded = [] ∧ 2 ≤ eh.status.rank)
    (hdiscarding : ∀ p, receiver = .discarding p → 2 ≤ eh.status.rank) :
    Sound acks pushed a last { eh with receiver := receiver } where
  start := h.start
  keyed := { h.keyed with }
  wired := by
    refine { h.wired with front := fun hno p hp => h.wired.front hno p ?_, reading := fun p hp =>
      (hreading p hp).1 }
    unfold front at hp ⊢
    simp only [mem_append] at hp ⊢
    obtain (hp | hp) | hp := hp
    · exact .inl (.inl (hpackets p hp))
    · exact .inl (.inr hp)
    · exact .inr hp
  staged := ⟨fun p hp => (hreading p hp).2, hswaps, hrecovering, hdiscarding, h.staged.sending,
    h.staged.behind, h.staged.discarded⟩

theorem rest_withReceiver (eh : ChainHandler) {receiver : ReceiverState}
    (hp : receiver.packets.map payload = eh.receiver.packets.map payload) :
    ({ eh with receiver := receiver } : ChainHandler).rest = eh.rest := by
  unfold rest pipe
  simp only [map_append, hp]

theorem Sound.pushRequest (h : eh.Sound acks pushed a last) (packet : ChainPacket) :
    Sound acks pushed a last { eh with request := eh.request ++ [packet] } ∧
      ({ eh with request := eh.request ++ [packet] } : ChainHandler).rest =
        eh.rest ++ [packet.payload] := by
  refine ⟨⟨h.start, { h.keyed with }, { h.wired with }, { h.staged with }⟩, ?_⟩
  unfold rest pipe
  simp

variable {packet : ChainPacket}

theorem Sound.count (h : eh.Sound acks pushed a last) {reply : WriteReply}
    (hreceiver : eh.receiver = .reading packet) (hreply : reply ∈ eh.replies)
    (haccepts : accepts packet reply = true)
    (huniq : ∀ p ∈ pushed, ∀ q ∈ pushed, p.reqID = q.reqID → p = q)
    (hnext : packet.payload.kernelOffset = a + Payload.size eh.counted)
    (hsize : Payload.size eh.counted + packet.payload.data.length ≤ extentSize)
    (hsmall : a < 2 ^ 63) : (eh.count packet reply).Sound acks pushed a last := by
  have hlimit : extentSize < 2 ^ 32 := by decide
  have hsent := h.wired.reading packet hreceiver
  obtain ⟨hplace, hoffset, hpushed⟩ := h.wired.sent packet hsent
  have hlen : (UInt32.ofNat packet.payload.data.length).toNat = packet.payload.data.length :=
    UInt32.toNat_ofNat_of_lt' (by
      change _ < 2 ^ 32
      omega)
  -- the packet that the reply answers is this one
  obtain ⟨q, hq, hid, hack⟩ := h.wired.replies reply hreply (by
    unfold accepts at haccepts
    simp only [Bool.and_eq_true] at haccepts
    exact haccepts.1.1)
  have hsame : q.payload = packet.payload := by
    refine huniq _ (h.wired.sent q hq).2.2 _ hpushed (hid.trans ?_)
    unfold accepts at haccepts
    simp only [Bool.and_eq_true, beq_iff_eq] at haccepts
    exact haccepts.1.2.1.symm
  refine ⟨h.start, ⟨fun hnil => ?_, fun _ => ?_, fun hmode p hp => ?_⟩,
    { h.wired with front := fun hno p hp => h.wired.front hno p ?_, reading := nofun }, ⟨nofun,
    nofun, nofun, nofun, h.staged.sending, h.staged.behind, h.staged.discarded⟩⟩
  · exact absurd hnil (append_ne_nil_of_right_ne_nil _ (cons_ne_nil _ _))
  · have hcounted : (eh.count packet reply).counted = eh.counted ++ [packet.payload] := rfl
    rw [hcounted, Payload.size_append, Payload.size_singleton]
    refine ⟨_, rfl, ?_⟩
    by_cases hnil : eh.counted = []
    · rw [h.keyed.unkeyed hnil, hnil, Payload.size_nil, Nat.zero_add]
      refine ⟨UInt64.toNat_ofNat_of_lt' (by
        rw [h.start]
        change _ < 2 ^ 64
        omega), hlen, fun hmode => ?_⟩
      change eh.storeMode = .normal at hmode
      dsimp only
      rw [hmode, if_neg nofun, if_neg nofun, hnext, hnil, h.start]
      refine ⟨hplace, ?_⟩
      rw [Payload.size_nil, Nat.add_zero, Nat.sub_self]
      rfl
    obtain ⟨k, hk, hkey, hksize, hkplace⟩ := h.keyed.keyed hnil
    rw [hk]
    refine ⟨hkey, ?_, hkplace⟩
    dsimp only
    rw [UInt32.toNat_add, hlen, hksize]
    exact Nat.mod_eq_of_lt (by omega)
  · obtain hp | hp := mem_append.mp hp
    · exact h.keyed.acked hmode p hp
    · obtain rfl := mem_singleton.mp hp
      obtain ⟨hqplace, hqoffset, -⟩ := h.wired.sent q hq
      refine ⟨q.partitionID, q.extentID, hqplace, ?_⟩
      have := hack hmode
      rw [hqoffset, hsame] at this
      exact this
  · unfold front at hp ⊢
    rw [hreceiver]
    simp only [mem_append] at hp ⊢
    obtain (hp | hp) | hp := hp
    · cases hp
    · exact .inl (.inr hp)
    · exact .inr hp

/-- What a step makes of a handler and those behind it. -/
def Kept (acks : List WriteAck) (pushed : List Payload) (a : Nat) (old l : List ChainHandler) :
    Prop :=
  Good acks pushed a l ∧ flow l = flow old ∧ l ≠ []

theorem Kept.of_rest {eh' : ChainHandler} (h : eh'.Sound acks pushed a (behind = []))
    (hb : Good acks pushed (a + Payload.size eh.counted) behind)
    (hcounted : eh'.counted = eh.counted) (hrest : eh'.rest = eh.rest) :
    Kept acks pushed a (eh :: behind) (eh' :: behind) := by
  refine ⟨⟨h, hcounted ▸ hb⟩, ?_, cons_ne_nil _ _⟩
  unfold flow
  rw [hcounted, hrest]

section Step

variable (h : eh.Sound acks pushed a (behind = []))
  (hb : Good acks pushed (a + Payload.size eh.counted) behind)
include h hb

/-- The receiver goes on with the packet that it has. -/
theorem kept_receiver (receiver : ReceiverState) (hp : receiver.packets = eh.receiver.packets)
    (hreading : ∀ p, receiver = .reading p → p ∈ eh.sent ∧ behind = [] ∧ eh.discarded = [])
    (hswaps : ∀ p swaps, receiver = .swapping p swaps → behind = [] ∧ eh.discarded = [] ∧
      2 ≤ (swaps.foldl (fun s swap => swap.run s) eh.status).rank)
    (hrecovering : ∀ p, receiver = .recovering p → eh.discarded = [] ∧ 2 ≤ eh.status.rank)
    (hdiscarding : ∀ p, receiver = .discarding p → 2 ≤ eh.status.rank) :
    Kept acks pushed a (eh :: behind) ({ eh with receiver := receiver } :: behind) :=
  .of_rest (h.withReceiver receiver (fun _ hmem => hp ▸ hmem) hreading hswaps hrecovering
    hdiscarding) hb rfl (rest_withReceiver eh (congrArg _ hp))

theorem kept_idle {reply : List ChainPacket} (hreceiver : eh.receiver = .idle)
    (hreply : eh.reply = packet :: reply) : Kept acks pushed a (eh :: behind)
      ({ eh with reply := reply, receiver := .took packet } :: behind) := by
  refine .of_rest ⟨h.start, { h.keyed with },
    { h.wired with front := fun hno p hp => h.wired.front hno p ?_, reading := nofun },
    ⟨nofun, nofun, nofun, nofun, h.staged.sending, h.staged.behind, h.staged.discarded⟩⟩ hb rfl ?_
  · unfold front at hp ⊢
    rw [hreceiver, hreply]
    exact hp
  · unfold rest pipe
    simp [hreceiver, hreply, packets]

theorem kept_took (hreceiver : eh.receiver = .took packet) : Kept acks pushed a (eh :: behind)
    ({ eh with receiver := .judge packet eh.status } :: behind) := by
  have hnone (hne : eh.status ≠ .error) : eh.discarded = [] := by
    by_contra hd
    exact hne (h.staged.discarded hd)
  have hreading (hno : eh.status.inRecovery = false) : Kept acks pushed a (eh :: behind)
      ({ eh with receiver := .reading packet } :: behind) := by
    refine kept_receiver h hb _ (by rw [hreceiver]; rfl) (fun p hp => ?_) nofun nofun nofun
    obtain rfl := reading.inj hp
    refine ⟨h.wired.front hno _ ?_, ?_, hnone fun herr => ?_⟩
    · unfold front
      rw [hreceiver]
      exact mem_append_left _ (mem_append_left _ (mem_singleton_self _))
    · by_contra hne
      exact Bool.false_ne_true (hno.symm.trans (inRecovery_iff.mpr (h.staged.behind hne)))
    · rw [herr] at hno
      cases hno
  cases hstatus : eh.status with
  | opened | closed =>
    dsimp only [judge]
    rw [← hstatus]
    exact hreading (by rw [hstatus]; rfl)
  | recovery =>
    dsimp only [judge]
    rw [← hstatus]
    refine kept_receiver h hb (.recovering packet) (by rw [hreceiver]; rfl) nofun nofun
      (fun p _ => ⟨hnone ?_, ?_⟩) nofun
    · rw [hstatus]
      nofun
    · rw [hstatus]
      exact le_refl _
  | error =>
    dsimp only [judge]
    rw [← hstatus]
    refine kept_receiver h hb (.discarding packet) (by rw [hreceiver]; rfl) nofun nofun nofun
      fun p _ => ?_
    rw [hstatus]
    decide

theorem kept_swapping {swap : StatusSwap} {swaps : List StatusSwap}
    (hreceiver : eh.receiver = .swapping packet (swap :: swaps)) : Kept acks pushed a (eh :: behind)
      ({ eh with status := swap.run eh.status, receiver := .swapping packet swaps } :: behind) := by
  obtain ⟨hlast, hnil, hrank⟩ := h.staged.swapping packet _ hreceiver
  refine .of_rest ((h.swap swap).withReceiver (.swapping packet swaps)
    (by rw [hreceiver]; exact fun p hp => hp) nofun (fun p swaps' heq => ?_) nofun nofun) hb rfl
    (rest_withReceiver eh (by rw [hreceiver]; rfl))
  cases heq
  exact ⟨hlast, hnil, hrank⟩

theorem kept_discard (hreceiver : eh.receiver = .discarding packet) :
    Kept acks pushed a (eh :: behind) ({ eh with
      status := StatusSwap.setError.run eh.status
      discarded := eh.discarded ++ [packet.payload]
      receiver := .idle } :: behind) := by
  have hrank := h.staged.discarding packet hreceiver
  have herror : StatusSwap.setError.run eh.status = .error := by
    cases hstatus : eh.status with
    | opened | closed => rw [hstatus] at hrank; revert hrank; decide
    | recovery => rfl
    | error => rfl
  have hstaged := h.staged.swap .setError
  refine .of_rest ⟨h.start, { h.keyed with },
    { h.wired with front := fun hno => ?_, reading := nofun },
    ⟨nofun, nofun, nofun, nofun, hstaged.sending, hstaged.behind, fun _ => herror⟩⟩ hb rfl ?_
  · change (StatusSwap.setError.run eh.status).inRecovery = false at hno
    rw [herror] at hno
    cases hno
  · unfold rest pipe
    simp [hreceiver, packets]

variable (hfollow : Payload.Follow a (flow (eh :: behind)) b)
include hfollow

omit hb in
theorem kept_count {reply : WriteReply} (hlimit : b ≤ a + extentSize) (hsmall : b < 2 ^ 63)
    (huniq : ∀ p ∈ pushed, ∀ q ∈ pushed, p.reqID = q.reqID → p = q)
    (hreceiver : eh.receiver = .reading packet) (hreply : reply ∈ eh.replies)
    (haccepts : accepts packet reply = true) :
    Kept acks pushed a (eh :: behind) (eh.count packet reply :: behind) := by
  obtain ⟨hlast, hnil⟩ := h.staged.reading packet hreceiver
  have hrest : eh.rest = packet.payload ::
      (eh.reply ++ eh.sender.packets ++ eh.request).map payload := by
    unfold rest pipe
    simp [hreceiver, hnil, packets]
  have hwhole : flow (eh :: behind) = eh.counted ++ eh.rest := by
    unfold flow
    rw [hlast]
    simp [flow]
  rw [hwhole, hrest, Payload.follow_append] at hfollow
  obtain ⟨-, hoffset, -, hafter⟩ := hfollow
  have hend := hafter.size
  refine ⟨⟨h.count hreceiver hreply haccepts huniq hoffset (by omega) (by omega), ?_⟩, ?_,
    cons_ne_nil _ _⟩
  · rw [hlast]
    trivial
  · rw [hwhole, hrest, hlast]
    unfold flow rest pipe ChainHandler.count
    simp [flow, hnil, packets]

theorem kept_recoverPacket (hreceiver : eh.receiver = .recovering packet) :
    Kept acks pushed a (eh :: behind) (eh.recoverPacket behind packet) := by
  obtain ⟨hnil, hrank⟩ := h.staged.recovering packet hreceiver
  have hidle : Sound acks pushed a False { eh with receiver := .idle } :=
    { h.withReceiver .idle nofun nofun nofun nofun nofun with
      staged := ⟨nofun, nofun, nofun, nofun, h.staged.sending, fun _ => hrank,
        h.staged.discarded⟩ }
  unfold ChainHandler.recoverPacket
  dsimp only
  split
  · have hlate : eh.status.inRecovery ≠ false := fun hno =>
      Bool.false_ne_true (hno.symm.trans (inRecovery_iff.mpr hrank))
    exact .of_rest ⟨h.start, { h.keyed with },
      { h.wired with front := fun hno => absurd hno hlate, reading := nofun },
      ⟨nofun, nofun, nofun, fun _ _ => hrank, h.staged.sending, h.staged.behind,
        h.staged.discarded⟩⟩ hb rfl (rest_withReceiver eh (by rw [hreceiver]; rfl))
  have hrest : eh.rest = packet.payload ::
      ({ eh with receiver := .idle } : ChainHandler).rest := by
    unfold rest pipe
    simp [hreceiver, hnil, packets]
  cases behind with
  | cons next rest =>
    obtain ⟨hn, hrest'⟩ := hb
    obtain ⟨hn', hnrest⟩ := hn.pushRequest { packet with errCount := packet.errCount + 1 }
    refine ⟨⟨?_, hn', hrest'⟩, ?_, cons_ne_nil _ _⟩
    · exact { hidle with staged := ⟨nofun, nofun, nofun, nofun,
        h.staged.sending, fun _ => hrank, h.staged.discarded⟩ }
    · unfold flow flow
      rw [hnrest, hrest]
      simp
  | nil =>
    have hoffset : packet.payload.kernelOffset = a + Payload.size eh.counted := by
      have hwhole : flow (eh :: []) = eh.counted ++ eh.rest := by
        unfold flow
        simp [flow]
      rw [hwhole, hrest, Payload.follow_append] at hfollow
      exact hfollow.2.1
    refine ⟨⟨?_, ⟨?_, ?_, ?_, ?_⟩, trivial⟩, ?_, cons_ne_nil _ _⟩
    · exact ⟨hidle.start, { h.keyed with },
        { h.wired with front := hidle.wired.front, reading := nofun }, ⟨nofun, nofun, nofun,
        nofun, h.staged.sending, fun _ => hrank, h.staged.discarded⟩⟩
    · exact hoffset
    · exact ⟨fun _ => rfl, fun hne => absurd rfl hne, nofun⟩
    · exact ⟨nofun, nofun, nofun, nofun, nofun⟩
    · exact ⟨nofun, nofun, nofun, nofun, nofun, fun hne => absurd rfl hne,
        fun hne => absurd rfl hne⟩
    · unfold flow flow
      rw [hrest]
      simp [flow, rest, pipe, packets, SenderState.packets, ChainHandler.new]

theorem kept_stepReceiver (hlimit : b ≤ a + extentSize) (hsmall : b < 2 ^ 63)
    (huniq : ∀ p ∈ pushed, ∀ q ∈ pushed, p.reqID = q.reqID → p = q)
    (hs : eh.stepReceiver behind read = some l) : Kept acks pushed a (eh :: behind) l := by
  unfold ChainHandler.stepReceiver at hs
  cases hreceiver : eh.receiver with
  | stopped =>
    rw [hreceiver] at hs
    cases hs
  | idle =>
    rw [hreceiver] at hs
    dsimp only at hs
    split at hs
    · cases hs
    rename_i packet reply hreply
    cases hs
    exact kept_idle h hb hreceiver hreply
  | took packet =>
    rw [hreceiver] at hs
    cases hs
    exact kept_took h hb hreceiver
  | reading packet =>
    rw [hreceiver] at hs
    dsimp only at hs
    obtain ⟨hlast, hnil⟩ := h.staged.reading packet hreceiver
    have hfail := kept_receiver h hb (.swapping packet [.setClosed, .setRecovery])
      (by rw [hreceiver]; rfl) nofun (fun p swaps heq => ⟨hlast, hnil, by
        cases heq
        cases eh.status <;> decide⟩) nofun nofun
    split at hs
    · cases hs
      exact hfail
    rename_i reply hread
    split at hs
    next haccepts =>
      cases hs
      obtain ⟨i, -, hi⟩ := bind_eq_some_iff.mp hread
      exact kept_count h hfollow hlimit hsmall huniq hreceiver (mem_of_getElem? hi) haccepts
    · cases hs
      exact hfail
  | swapping packet swaps =>
    obtain ⟨-, hnil, hrank⟩ := h.staged.swapping packet swaps hreceiver
    rw [hreceiver] at hs
    cases swaps with
    | nil =>
      cases hs
      exact kept_receiver h hb _ (by rw [hreceiver]; rfl) nofun nofun (fun p _ => ⟨hnil, hrank⟩)
        nofun
    | cons swap swaps =>
      cases hs
      exact kept_swapping h hb hreceiver
  | recovering packet =>
    rw [hreceiver] at hs
    cases hs
    exact kept_recoverPacket h hb hfollow hreceiver
  | entering =>
    rw [hreceiver] at hs
    cases hs
    exact kept_receiver h hb .idle (by rw [hreceiver]; rfl) nofun nofun nofun nofun
  | discarding packet =>
    rw [hreceiver] at hs
    cases hs
    exact kept_discard h hb hreceiver

end Step

end Receiver

/-! ### The whole chain -/

section Chain

variable {acks acks' : List WriteAck} {pushed pushed' : List Payload} {a b : Nat}
  {eh : ChainHandler} {handlers : List ChainHandler} {last : Prop}

theorem Sound.mono (h : eh.Sound acks pushed a last) (hacks : ∀ x ∈ acks, x ∈ acks')
    (hpushed : ∀ p ∈ pushed, p ∈ pushed') : eh.Sound acks' pushed' a last where
  __ := h
  keyed := ⟨h.keyed.unkeyed, h.keyed.keyed, fun hmode p hp => by
    obtain ⟨partitionID, extentID, hplace, hack⟩ := h.keyed.acked hmode p hp
    exact ⟨partitionID, extentID, hplace, hacks _ hack⟩⟩
  wired := by
    refine { h.wired with sent := fun p hp => ?_, replies := fun r hr hok => ?_ }
    · obtain ⟨hplace, hoffset, hmem⟩ := h.wired.sent p hp
      exact ⟨hplace, hoffset, hpushed _ hmem⟩
    · obtain ⟨p, hp, hid, hack⟩ := h.wired.replies r hr hok
      exact ⟨p, hp, hid, fun hmode => hacks _ (hack hmode)⟩

theorem Good.mono (h : Good acks pushed a handlers) (hacks : ∀ x ∈ acks, x ∈ acks')
    (hpushed : ∀ p ∈ pushed, p ∈ pushed') : Good acks' pushed' a handlers := by
  induction handlers generalizing a with
  | nil => trivial
  | cons eh behind ih => exact ⟨h.1.mono hacks hpushed, ih h.2⟩

def KeepsFlow (acks : List WriteAck) (pushed : List Payload)
    (f : ChainHandler → List ChainHandler → Option (List ChainHandler)) (eh : ChainHandler) :
    Prop :=
  ∀ a b behind l, eh.Sound acks pushed a (behind = []) →
    Good acks pushed (a + Payload.size eh.counted) behind →
    Payload.Follow a (flow (eh :: behind)) b → b ≤ a + extentSize → b < 2 ^ 63 →
    (∀ p ∈ flow (eh :: behind), p ∈ pushed) → f eh behind = some l →
    Kept acks pushed a (eh :: behind) l

variable {f : ChainHandler → List ChainHandler → Option (List ChainHandler)} {depth : Nat}

theorem Good.changeAt {handlers' : List ChainHandler} (h : Good acks pushed a handlers)
    (hf : ∀ eh, handlers[depth]? = some eh → KeepsFlow acks pushed f eh)
    (hfollow : Payload.Follow a (flow handlers) b) (hlimit : b ≤ a + extentSize)
    (hsmall : b < 2 ^ 63) (hmem : ∀ p ∈ flow handlers, p ∈ pushed)
    (hc : ChubaoFS.changeAt f depth handlers = some handlers') :
    Kept acks pushed a handlers handlers' := by
  induction handlers generalizing depth a b handlers' with
  | nil =>
    unfold ChubaoFS.changeAt at hc
    cases hc
  | cons eh behind ih =>
    cases depth with
    | zero => exact hf eh rfl a b behind handlers' h.1 h.2 hfollow hlimit hsmall hmem hc
    | succ depth =>
      obtain ⟨behind', hc', rfl⟩ := map_eq_some_iff.mp hc
      have hwhole : flow (eh :: behind) = eh.counted ++ (flow behind ++ eh.rest) := append_assoc ..
      rw [hwhole, Payload.follow_append, Payload.follow_append] at hfollow
      obtain ⟨-, hmiddle, hlast⟩ := hfollow
      have hend := hlast.size
      obtain ⟨hgood, hsame, hne⟩ := ih h.2 hf hmiddle (by omega) (by omega)
        (fun p hp => hmem p (by
          rw [hwhole]
          exact mem_append_right _ (mem_append_left _ hp))) hc'
      have hsome : behind ≠ [] := by
        rintro rfl
        unfold ChubaoFS.changeAt at hc'
        cases hc'
      refine ⟨⟨?_, hgood⟩, ?_, cons_ne_nil _ _⟩
      · rw [eq_false hne]
        have hsound := h.1
        rw [eq_false hsome] at hsound
        exact hsound
      · unfold flow
        rw [hsame]

theorem mem_pipe_of_flow {behind : List ChainHandler}
    (hmem : ∀ p ∈ flow (eh :: behind), p ∈ pushed) : ∀ p ∈ eh.pipe, p.payload ∈ pushed := by
  intro p hp
  refine hmem _ (mem_append_right _ (mem_append_right _ ?_))
  exact mem_map_of_mem hp

theorem keepsFlow_of_alone {f : ChainHandler → Option ChainHandler}
    (hf : ∀ a last eh eh', eh.Sound acks pushed a last → (∀ p ∈ eh.pipe, p.payload ∈ pushed) →
      f eh = some eh' →
      eh'.Sound acks pushed a last ∧ eh'.counted = eh.counted ∧ eh'.rest = eh.rest) :
    ∀ eh, KeepsFlow acks pushed (fun eh behind => (f eh).map (· :: behind)) eh := by
  intro eh a b behind l hs hg _ _ _ hmem hl
  obtain ⟨eh', heh', rfl⟩ := map_eq_some_iff.mp hl
  obtain ⟨hs', hcounted, hrest⟩ := hf a _ eh eh' hs (mem_pipe_of_flow hmem) heh'
  exact .of_rest hs' hg hcounted hrest

end Chain
end ChainHandler

namespace RecoveryChain

open ChainHandler

/-- The chain for a range that starts at `a`. -/
structure Inv (a : Nat) (c : RecoveryChain) : Prop where
  good : Good c.acks c.pushed a c.handlers
  flow : flow c.handlers = c.pushed
  follow : Payload.Follow a c.pushed (a + Payload.size c.pushed)
  size : Payload.size c.pushed ≤ extentSize
  nodup : (c.pushed.map Payload.reqID).Nodup

variable {a : Nat} {c c' : RecoveryChain} {p : Payload}

theorem inv_new (a : Nat) (mode : StoreMode) : Inv a (new a mode) where
  good := ⟨⟨rfl, ⟨fun _ => rfl, fun h => absurd rfl h, nofun⟩, ⟨nofun, nofun, nofun, nofun, nofun⟩,
    ⟨nofun, nofun, nofun, nofun, nofun, fun h => absurd rfl h, fun h => absurd rfl h⟩⟩, trivial⟩
  flow := rfl
  follow := rfl
  size := zero_le _
  nodup := nodup_nil

theorem Inv.change (h : c.Inv a) (ha : a + extentSize < 2 ^ 63)
    (hf : ∀ eh, c.handlers[depth]? = some eh → KeepsFlow c.acks c.pushed f eh)
    (hc : c.change depth f = some c') : c'.Inv a := by
  obtain ⟨handlers, hh, rfl⟩ := map_eq_some_iff.mp hc
  have hsize := h.size
  have hfollow : Payload.Follow a (ChainHandler.flow c.handlers) (a + Payload.size c.pushed) := by
    rw [h.flow]
    exact h.follow
  obtain ⟨hgood, hflow, -⟩ := h.good.changeAt hf hfollow (by omega) (by omega)
    (fun p hp => h.flow ▸ hp) hh
  exact { h with good := hgood, flow := hflow.trans h.flow }

theorem Inv.push (h : c.Inv a) (hc : c.push p = some c') : c'.Inv a := by
  unfold RecoveryChain.push at hc
  split at hc
  · cases hc
  rename_i eh behind hhandlers
  split at hc
  next hp =>
    cases hc
    obtain ⟨hne, hoffset, hsize, hfresh⟩ := hp
    have hgood := h.good
    have hflow := h.flow
    rw [hhandlers] at hgood hflow
    obtain ⟨hs, hb⟩ := hgood.mono (fun _ hx => hx)
      (fun q (hq : q ∈ c.pushed) => mem_append_left [p] hq)
    obtain ⟨hs', hrest⟩ := hs.pushRequest ⟨p, 0, 0, 0, 0, 0⟩
    rw [hs.start] at hoffset
    refine ⟨⟨hs', hb⟩, ?_, ?_, ?_, ?_⟩
    · rw [← hflow]
      unfold ChainHandler.flow
      rw [hrest]
      exact (append_assoc ..).symm
    · rw [Payload.size_append, Payload.size_singleton, Payload.follow_append]
      exact ⟨h.follow, hoffset, hne, by change _ = _; omega⟩
    · rw [Payload.size_append, Payload.size_singleton]
      exact hsize
    · rw [map_append, nodup_append]
      refine ⟨h.nodup, nodup_singleton _, fun x hx y hy heq => ?_⟩
      rw [mem_singleton.mp hy] at heq
      exact hfresh (heq ▸ hx)
  · cases hc

variable {acks : List WriteAck} {pushed : List Payload} {eh : ChainHandler}

theorem keepsFlow_answer {reply : WriteReply} (hmem : packet ∈ eh.sent)
    (hid : packet.payload.reqID = reply.reqID) (hack : reply.ok = true → eh.storeMode = .normal →
      ⟨packet.payload, packet.partitionID, packet.extentID, packet.extentOffset⟩ ∈ acks) :
    KeepsFlow acks pushed
      (fun eh behind => some ({ eh with replies := eh.replies ++ [reply] } :: behind)) eh := by
  intro a b behind l hs hg _ _ _ _ hl
  cases hl
  refine ⟨⟨⟨hs.start, { hs.keyed with }, { hs.wired with replies := fun r hr hok => ?_ },
    { hs.staged with }⟩, hg⟩, rfl, cons_ne_nil _ _⟩
  obtain hr | hr := mem_append.mp hr
  · exact hs.wired.replies r hr hok
  · obtain rfl := mem_singleton.mp hr
    exact ⟨packet, hmem, hid, hack hok⟩

theorem Inv.answer (h : c.Inv a) (ha : a + extentSize < 2 ^ 63) {index : Nat} {ok : Bool}
    {extentID : UInt64} {extentOffset : Nat} {crc : UInt32}
    (hc : c.answer depth index ok extentID extentOffset crc = some c') : c'.Inv a := by
  unfold RecoveryChain.answer at hc
  split at hc
  · cases hc
  rename_i eh heh
  split at hc
  · cases hc
  rename_i packet hpacket
  dsimp only at hc
  obtain ⟨acks, hacks⟩ : ∃ l : List WriteAck, l = if ok then c.acks ++ [⟨packet.payload,
      (eh.answer packet ok extentID extentOffset crc).partitionID,
      (eh.answer packet ok extentID extentOffset crc).extentID,
      (eh.answer packet ok extentID extentOffset crc).extentOffset⟩] else c.acks := ⟨_, rfl⟩
  rw [← hacks] at hc
  have hsub : ∀ x ∈ c.acks, x ∈ acks := by
    intro x hx
    rw [hacks]
    split
    · exact mem_append_left _ hx
    · exact hx
  have hinv : Inv a { c with acks := acks } := { h with good := h.good.mono hsub fun _ hp => hp }
  refine hinv.change ha (fun eh' heh' => ?_) hc
  obtain rfl := some.inj (heh.symm.trans heh')
  refine keepsFlow_answer (mem_of_getElem? hpacket) rfl fun hok hmode => ?_
  change ok = true at hok
  rw [hacks, if_pos hok]
  refine mem_append_right _ (mem_singleton.mpr ?_)
  unfold ChainHandler.answer
  dsimp only
  rw [hmode, if_neg nofun, if_neg nofun]

theorem Inv.step {crc32 : Bytes → UInt32} (h : c.Inv a) (ha : a + extentSize < 2 ^ 63)
    {e : ChainEvent} (hc : c.step crc32 e = some c') : c'.Inv a := by
  have hswap {eh : ChainHandler} {a : Nat} {last : Prop}
      (hs : eh.Sound c.acks c.pushed a last) := hs.swap .setClosed
  cases e with
  | push p => exact h.push hc
  | close depth =>
    refine h.change ha (fun eh _ => ?_) hc
    intro a b behind l hs hg _ _ _ _ hl
    cases hl
    exact ⟨⟨hswap hs, hg⟩, rfl, cons_ne_nil _ _⟩
  | sender depth place sends =>
    exact h.change ha (fun eh _ => keepsFlow_of_alone
      (fun a last eh eh' hs hpipe heh' => hs.stepSender hpipe heh') eh) hc
  | receiver depth read =>
    refine h.change ha (fun eh _ => ?_) hc
    intro a b behind l hs hg hfollow hlimit hsmall _ hl
    exact kept_stepReceiver hs hg hfollow hlimit hsmall
      (fun _ hp _ hq heq => inj_on_of_nodup_map h.nodup hp hq heq) hl
  | answer depth index ok extentID extentOffset crc => exact h.answer ha hc
  | append depth =>
    refine h.change ha (fun eh _ => ?_) hc
    intro a b behind l hs hg _ _ _ _ hl
    cases hl
    exact ⟨⟨⟨hs.start, { hs.keyed with }, { hs.wired with },
      { hs.staged with }⟩, hg⟩, rfl, cons_ne_nil _ _⟩
  | stopSender depth =>
    refine h.change ha (fun eh _ => ?_) hc
    intro a b behind l hs hg _ _ _ _ hl
    dsimp only at hl
    split at hl
    next hidle =>
      cases hl
      have hnext := (hswap hs).withSender .stopped
        (fun hno p hp => (hswap hs).wired.front hno p (front_subset _ .stopped nofun p hp)) nofun
        nofun
      refine ⟨⟨hnext, hg⟩, ?_, cons_ne_nil _ _⟩
      unfold ChainHandler.flow rest pipe
      rw [hidle]
      rfl
    · cases hl
  | stopReceiver depth =>
    refine h.change ha (fun eh _ => ?_) hc
    intro a b behind l hs hg _ _ _ _ hl
    dsimp only at hl
    split at hl
    next hidle =>
      cases hl
      refine ⟨⟨hs.withReceiver .stopped nofun nofun nofun nofun nofun, hg⟩, ?_, cons_ne_nil _ _⟩
      unfold ChainHandler.flow
      rw [rest_withReceiver eh (by rw [hidle]; rfl)]
    · cases hl

/-! ### What the keys tell -/

/-- The keys cover ranges that follow each other from `a` on. -/
def KeysFrom : Nat → List ExtentKey → Prop
  | _, [] => True
  | a, k :: ks => k.key = a ∧ a < k.stop ∧ KeysFrom k.stop ks

variable {a : Nat} {ks : List ExtentKey}

theorem KeysFrom.le (h : KeysFrom a ks) : ∀ k ∈ ks, a ≤ k.key := by
  induction ks generalizing a with
  | nil => nofun
  | cons k ks ih =>
    intro d hd
    obtain ⟨hkey, hlt, hrest⟩ := h
    obtain rfl | hd := mem_cons.mp hd
    · exact le_of_eq hkey.symm
    · exact le_trans (le_of_lt hlt) (ih hrest d hd)

theorem KeysFrom.pairwise (h : KeysFrom a ks) : ks.Pairwise fun k d => k.stop ≤ d.key := by
  induction ks generalizing a with
  | nil => exact .nil
  | cons k ks ih => exact .cons h.2.2.le (ih h.2.2)

variable {b : Nat}

theorem key_of_good {rest : List Payload} (h : eh.Sound acks pushed a last)
    (hfollow : Payload.Follow a (eh.counted ++ rest) b) {k : ExtentKey} (hk : eh.key = some k) :
    k.key = a ∧ k.stop = a + Payload.size eh.counted ∧ a < k.stop ∧
      Payload.Follow k.key eh.counted k.stop ∧ (eh.storeMode = .normal → ∀ p ∈ eh.counted,
        ⟨p, k.partitionId, k.extentId, k.extentOffset.toNat + (p.kernelOffset - k.key)⟩ ∈
          acks) := by
  have hne : eh.counted ≠ [] := fun hnil => by
    rw [h.keyed.unkeyed hnil] at hk
    cases hk
  obtain ⟨k', hk', hkey, hsize, hplace⟩ := h.keyed.keyed hne
  obtain rfl := some.inj (hk.symm.trans hk')
  rw [h.start] at hkey
  have hstop : k.stop = a + Payload.size eh.counted := by
    unfold ExtentKey.stop
    rw [hkey, hsize]
  obtain ⟨hcounted, -⟩ := Payload.follow_append.mp hfollow
  have hpos : 0 < Payload.size eh.counted := by
    cases hc : eh.counted with
    | nil => exact absurd hc hne
    | cons p ps =>
      rw [hc] at hcounted
      have := length_pos_iff.mpr hcounted.2.1
      rw [Payload.size_cons]
      omega
  refine ⟨hkey, hstop, by omega, ?_, fun hmode p hp => ?_⟩
  · rw [hkey, hstop]
    exact hcounted
  · obtain ⟨partitionID, extentID, hsome, hack⟩ := h.keyed.acked hmode p hp
    obtain ⟨hsome', hzero⟩ := hplace hmode
    obtain ⟨rfl, rfl⟩ := Prod.mk.inj (some.inj (hsome.symm.trans hsome'))
    rw [hzero, UInt64.toNat_zero, zero_add, hkey]
    rw [h.start] at hack
    exact hack

variable {handlers : List ChainHandler}

section

variable (h : Good acks pushed a handlers)
include h

variable (hfollow : Payload.Follow a (flow handlers) b)
include hfollow

theorem keysFrom_of_good : KeysFrom a (handlers.filterMap ChainHandler.key) := by
  induction handlers generalizing a b with
  | nil => trivial
  | cons eh behind ih =>
    have hwhole : flow (eh :: behind) = eh.counted ++ (flow behind ++ eh.rest) := append_assoc ..
    rw [hwhole] at hfollow
    obtain ⟨-, hmiddle⟩ := Payload.follow_append.mp hfollow
    have hnext := ih h.2 (Payload.follow_append.mp hmiddle).1
    cases hk : eh.key with
    | none =>
      have hnil : eh.counted = [] := by
        by_contra hne
        obtain ⟨k, hsome, -⟩ := h.1.keyed.keyed hne
        rw [hk] at hsome
        cases hsome
      rw [filterMap_cons_none hk]
      rw [hnil] at hnext
      exact hnext
    | some k =>
      obtain ⟨hkey, hstop, hlt, -⟩ := key_of_good h.1 hfollow hk
      rw [filterMap_cons_some hk]
      exact ⟨hkey, hlt, hstop ▸ hnext⟩

theorem forall_of_good (heh : eh ∈ handlers) : ∃ a' b' last rest, eh.Sound acks pushed a' last ∧
      Payload.Follow a' (eh.counted ++ rest) b' := by
  induction handlers generalizing a b with
  | nil => cases heh
  | cons eh' behind ih =>
    have hwhole : flow (eh' :: behind) = eh'.counted ++ (flow behind ++ eh'.rest) := append_assoc ..
    rw [hwhole] at hfollow
    obtain rfl | heh := mem_cons.mp heh
    · exact ⟨a, b, _, _, h.1, hfollow⟩
    · obtain ⟨-, hmiddle⟩ := Payload.follow_append.mp hfollow
      exact ih h.2 (Payload.follow_append.mp hmiddle).1 heh

end

theorem flow_eq_counted_append (handlers : List ChainHandler) :
    ∃ rest, flow handlers = handlers.flatMap ChainHandler.counted ++ rest := by
  induction handlers with
  | nil => exact ⟨[], rfl⟩
  | cons eh behind ih =>
    obtain ⟨rest, hrest⟩ := ih
    refine ⟨rest ++ eh.rest, ?_⟩
    unfold flow
    rw [hrest, flatMap_cons]
    simp

theorem mem_flow (h : p ∈ flow handlers) : ∃ eh ∈ handlers, p ∈ eh.counted ∨ p ∈ eh.rest := by
  induction handlers with
  | nil => cases h
  | cons eh behind ih =>
    unfold flow at h
    rw [mem_append, mem_append] at h
    obtain (h | h) | h := h
    · exact ⟨eh, mem_cons_self .., .inl h⟩
    · obtain ⟨eh', heh', hp⟩ := ih h
      exact ⟨eh', mem_cons_of_mem _ heh', hp⟩
    · exact ⟨eh, mem_cons_self .., .inr h⟩

/-- The keys of a chain that starts at `a` are exact. -/
structure KeysExact (a : Nat) (c : RecoveryChain) : Prop where
  contiguous : KeysFrom a (c.handlers.filterMap ChainHandler.key)
  disjoint : (c.handlers.filterMap ChainHandler.key).Pairwise fun k d => k.stop ≤ d.key
  first : ∀ p ∈ c.pushed.head?, p.kernelOffset = a
  unkeyed : ∀ eh ∈ c.handlers, eh.key = none → eh.counted = []
  covered : ∀ eh ∈ c.handlers, ∀ k, eh.key = some k → Payload.Follow k.key eh.counted k.stop
  acked : ∀ eh ∈ c.handlers, ∀ k, eh.key = some k → eh.storeMode = .normal → ∀ p ∈ eh.counted,
    ⟨p, k.partitionId, k.extentId, k.extentOffset.toNat + (p.kernelOffset - k.key)⟩ ∈ c.acks
  once : ((c.handlers.flatMap ChainHandler.counted).map Payload.reqID).Nodup
  accounted : ∀ p ∈ c.pushed, (∃ eh ∈ c.handlers, p ∈ eh.counted) ∨
    (∃ eh ∈ c.handlers, p ∈ eh.pipe.map ChainPacket.payload) ∨
    ∃ eh ∈ c.handlers, p ∈ eh.discarded ∧ eh.status = .error

/-- Whatever fails, and however the senders and receivers take turns. -/
theorem recovery_keys_exact {crc32 : Bytes → UInt32} {a : Nat} (ha : a + extentSize < 2 ^ 63)
    {mode : StoreMode} {c : RecoveryChain}
    (h : Reach (step crc32) (fun _ _ => True) (new a mode) c) : c.KeysExact a := by
  have hinv : c.Inv a := h.invariant (inv_new a mode) fun _ _ _ hc _ hs => hc.step ha hs
  have hfollow : Payload.Follow a (flow c.handlers) (a + Payload.size c.pushed) := by
    rw [hinv.flow]
    exact hinv.follow
  have hkeys := keysFrom_of_good hinv.good hfollow
  refine ⟨hkeys, hkeys.pairwise, fun p hp => ?_, fun eh heh hnone => ?_, fun eh heh k hk => ?_,
    fun eh heh k hk => ?_, ?_, fun p hp => ?_⟩
  · have hpushed := hinv.follow
    cases hc : c.pushed with
    | nil =>
      rw [hc] at hp
      cases hp
    | cons q qs =>
      rw [hc] at hp hpushed
      cases hp
      exact hpushed.1
  · obtain ⟨_, _, _, _, hs, -⟩ := forall_of_good hinv.good hfollow heh
    by_contra hne
    obtain ⟨k, hk, -⟩ := hs.keyed.keyed hne
    rw [hnone] at hk
    cases hk
  · obtain ⟨_, _, _, _, hs, hf⟩ := forall_of_good hinv.good hfollow heh
    exact (key_of_good hs hf hk).2.2.2.1
  · obtain ⟨_, _, _, _, hs, hf⟩ := forall_of_good hinv.good hfollow heh
    exact (key_of_good hs hf hk).2.2.2.2
  · obtain ⟨rest, hrest⟩ := flow_eq_counted_append c.handlers
    have hnodup := hinv.nodup
    rw [← hinv.flow, hrest, map_append] at hnodup
    exact hnodup.of_append_left
  · obtain ⟨eh, heh, hcounted | hrest⟩ := mem_flow (hinv.flow ▸ hp)
    · exact .inl ⟨eh, heh, hcounted⟩
    · obtain hdisc | hpipe := mem_append.mp hrest
      · obtain ⟨_, _, _, _, hs, -⟩ := forall_of_good hinv.good hfollow heh
        exact .inr (.inr ⟨eh, heh, hdisc, hs.staged.discarded (ne_nil_of_mem hdisc)⟩)
      · exact .inr (.inl ⟨eh, heh, hpipe⟩)

/-- The first packet is acknowledged, the second cannot be sent and goes to a new handler. -/
theorem recovery_keys_exact_handed_on : ∃ c : RecoveryChain,
    Reach (step fun _ => 0) (fun _ _ => True) (new 100 .normal) c ∧
      (c.handlers.map fun eh => (eh.counted.map Payload.reqID, eh.status)) =
        [([1], .recovery), ([2], .closed)] ∧ c.KeysExact 100 := by
  obtain ⟨c, hreach, hc⟩ := Reach.exists_checked (step fun _ => 0) (fun _ _ => True)
    (new 100 .normal)
    ([.push ⟨1, 100, [7, 7]⟩, .push ⟨2, 102, [8]⟩] ++ replicate 5 (.sender 0 (some (3, 30)) true) ++
      [.answer 0 0 true 0 0 0, .receiver 0 none, .receiver 0 none] ++
      replicate 7 (.sender 0 none false) ++ [.receiver 0 (some 0)] ++
      replicate 3 (.receiver 0 none) ++ replicate 5 (.sender 1 (some (4, 40)) true) ++
      [.answer 1 0 true 0 0 0, .receiver 1 none, .receiver 1 none, .receiver 1 (some 0)])
    (fun c => decide ((c.handlers.map fun eh => (eh.counted.map Payload.reqID, eh.status)) =
      [([1], .recovery), ([2], .closed)])) (by decide +kernel)
  exact ⟨c, hreach, of_decide_eq_true hc, recovery_keys_exact (by decide) hreach⟩

end RecoveryChain
end ChubaoFS
