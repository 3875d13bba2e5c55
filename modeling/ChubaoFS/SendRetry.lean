import ChubaoFS.Base.Copies
import ChubaoFS.Consistency

namespace ChubaoFS

open List

variable {n : Nat} {r : Request n} {k : Nat}

namespace Request

/-- The raft command that the leader makes of a request at time `now`, a new inode getting the id
`inoID`; none when it answers without one. -/
def command (now : Int64) (inoID : UInt64) : Request n → Option MetaPartition.Command
  | .icreate _ mode uid gid target =>
    some (.createInode (MetaPartition.newInode now inoID mode uid gid target))
  | .iunlink _ inode => some (.unlinkInode (MetaPartition.reqInode now inode))
  | .ievict _ inode => some (.evictInode (MetaPartition.reqInode now inode))
  | .ilink _ inode => some (.createLinkInode (MetaPartition.reqInode now inode))
  | .iget .. => none
  | .lookup .. => none
  | .dcreate _ parentID name inode mode =>
    if parentID = inode then none else some (.createDentry ⟨parentID, name, inode, mode⟩)
  | .ddelete _ parentID name => some (.deleteDentry ⟨parentID, name, 0, 0⟩)
  | .dupdate _ parentID name newInode =>
    if parentID = newInode then none else some (.updateDentry ⟨parentID, name, newInode, 0⟩)

def isWrite : Request n → Bool
  | .iget .. => false
  | .lookup .. => false
  | _ => true

def Rejects : Request n → ResultCode → Prop
  | _, .opNotExistErr => True
  | _, .opAgain => True
  | _, .opErr => True
  | .icreate .., .opInodeFullErr => True
  | .dcreate _ parentID _ inode _, .opExistErr => parentID = inode
  | .dupdate _ parentID _ newInode, .opExistErr => parentID = newInode
  | .iget .., _ => True
  | .lookup .., _ => True
  | _, _ => False

end Request

namespace MetaPartition

def replyCode (mp : MetaPartition) : Command → ResultCode
  | .createInode ino =>
    if (mp.applyCreateInode ino).2 = .opOk ∧ ino.replyInfo.isSome then .opOk else .opNotExistErr
  | .unlinkInode ino => (mp.fsmUnlinkInode ino).2.status
  | .createDentry dentry => (mp.fsmCreateDentry dentry).2
  | .deleteDentry dentry => (mp.fsmDeleteDentry dentry).2.status
  | .updatePartition _ => .opOk
  | .extentsAdd ino => (mp.fsmAppendExtents ino).2
  | .storeTick => .opOk
  | .updateDentry dentry => (mp.fsmUpdateDentry dentry).2.status
  | .extentTruncate ino => (mp.fsmExtentsTruncate ino).2
  | .createLinkInode ino =>
    if ((mp.fsmCreateLinkInode ino).2.msg.bind InodeOf.replyInfo).isSome then .opOk
    else .opNotExistErr
  | .evictInode ino => (mp.fsmEvictInode ino).2.status
  | .internalDeleteInode _ => .opOk
  | .setAttr _ => .opOk

def answer (mp : MetaPartition) (c : Command) : MetaPartition × ResultCode :=
  (mp.apply c, mp.replyCode c)

end MetaPartition

/-! The client's side: one attempt at the leader it knows, then rounds over the members. -/

structure PartitionView (Addr : Type) where
  leaderAddr : Option Addr
  members : List Addr

def sendRetryLimit : Nat := 100

/-- Where the client stands. `last` is the code of the last reply, none after an error. -/
inductive SendState (Addr : Type)
  | start
  | waiting (attempt : Nat) (rest : List Addr) (round : Nat)
  | ready (rest : List Addr) (round : Nat) (last : Option ResultCode)
  | done (result : Option ResultCode)

structure Sending (Addr : Type) where
  net : Copies MetaPartition MetaPartition.Command ResultCode
  sent : Nat
  client : SendState Addr
  abandoned : List Nat

inductive SendEvent
  | network (e : CopyEvent MetaPartition.Command ResultCode)
  | noConn
  | send
  | receive (code : ResultCode)
  | fail
  | roundEnd (timeUp : Bool)

namespace Sending

variable {Addr : Type}

def start (mp : MetaPartition) : Sending Addr := ⟨Copies.start mp, 0, .start, []⟩

def emit (s : Sending Addr) (rest : List Addr) (round : Nat) : Sending Addr :=
  { s with net := s.net.send s.sent, sent := s.sent + 1, client := .waiting s.sent rest round }

def step (view : PartitionView Addr) (s : Sending Addr) : SendEvent → Option (Sending Addr)
  | .network e => (s.net.step MetaPartition.answer e).map fun net => { s with net := net }
  | .noConn =>
    match s.client with
    | .start => some { s with client := .ready view.members 0 none }
    | .ready (_ :: rest) round _ => some { s with client := .ready rest round none }
    | _ => none
  | .send =>
    match s.client with
    | .start => if view.leaderAddr.isSome then some (s.emit view.members 0) else none
    | .ready (_ :: rest) round _ => some (s.emit rest round)
    | _ => none
  | .receive code =>
    match s.client with
    | .waiting k rest round =>
      if (k, code) ∈ s.net.replies then
        if code.shouldRetry then
          some { s with client := .ready rest round (some code), abandoned := k :: s.abandoned }
        else some { s with client := .done (some code) }
      else none
    | _ => none
  | .fail =>
    match s.client with
    | .waiting k rest round =>
      some { s with client := .ready rest round none, abandoned := k :: s.abandoned }
    | _ => none
  | .roundEnd timeUp =>
    match s.client with
    | .ready [] round last =>
      if timeUp = false ∧ round + 1 < sendRetryLimit then
        some { s with client := .ready view.members (round + 1) last }
      else some { s with client := .done last }
    | _ => none

def Admits (r : Request n) (_ : Sending Addr) : SendEvent → Prop
  | .network e => Copies.Admits (fun c => ∃ now inoID, r.command now inoID = some c) r.Rejects
      (fun code => code.shouldRetry = true) e
  | _ => True

/-- The runs of one call of `sendToMetaPartition`. -/
def Reached (view : PartitionView Addr) (r : Request n) (mp : MetaPartition) :
    Sending Addr → Prop :=
  Reach (step view) (Admits r) (start mp)

def left (view : PartitionView Addr) : SendState Addr → Nat
  | .start => 1 + sendRetryLimit * view.members.length
  | .waiting _ rest round =>
    rest.length + (sendRetryLimit - (round + 1)) * view.members.length
  | .ready rest round _ => rest.length + (sendRetryLimit - (round + 1)) * view.members.length
  | .done _ => 0

def Follows (s : Sending Addr) : SendState Addr → Prop
  | .start => s.sent = 0
  | .waiting k _ _ => k + 1 = s.sent ∧ ∀ j < k, j ∈ s.abandoned
  | .ready _ _ last => (∀ j < s.sent, j ∈ s.abandoned) ∧
      ∀ code, last = some code → code.shouldRetry = true
  | .done result => (∀ j, j + 1 < s.sent → j ∈ s.abandoned) ∧
      (result = some .opOk → ∃ k, (k, .opOk) ∈ s.net.replies)

def Quiet (r : Request n) (code : ResultCode) : Prop := r.Rejects code ∨ code.shouldRetry = true

theorem not_quiet_opOk (hw : r.isWrite = true) : ¬ Quiet r .opOk := by
  rintro (h | h)
  · cases r <;> first | exact h | cases hw
  · cases h

structure Inv (view : PartitionView Addr) (r : Request n) (mp : MetaPartition)
    (s : Sending Addr) : Prop where
  sound : Copies.Sound MetaPartition.answer
    (fun c => ∃ now inoID, r.command now inoID = some c) (Quiet r) mp s.net
  unsent : ∀ k, s.sent ≤ k → s.net.copy k = .unsent
  budget : s.sent + left view s.client ≤ 1 + sendRetryLimit * view.members.length
  follows : s.Follows s.client

variable {view : PartitionView Addr} {r : Request n} {mp : MetaPartition} {s s' : Sending Addr}

theorem inv_start : Inv view r mp (start mp) where
  sound := Copies.sound_start
  unsent _ _ := rfl
  budget := by simp [start, left]
  follows := rfl

section

variable (h : Inv view r mp s)
include h

theorem Inv.setClient {client : SendState Addr} {abandoned : List Nat}
    (hb : left view client ≤ left view s.client)
    (hf : Follows { s with client := client, abandoned := abandoned } client) :
    Inv view r mp { s with client := client, abandoned := abandoned } where
  sound := h.sound
  unsent := h.unsent
  budget := by
    have hbudget := h.budget
    dsimp only
    omega
  follows := hf

theorem Inv.emit {rest : List Addr} {round : Nat}
    (hb : 1 + left view (.waiting s.sent rest round) ≤ left view s.client)
    (hall : ∀ j < s.sent, j ∈ s.abandoned) : Inv view r mp (s.emit rest round) where
  sound := h.sound.setCopy (by rw [h.unsent s.sent (Nat.le_refl _)]; exact nofun) nofun
  unsent k hk := by
    have hk' : s.sent + 1 ≤ k := hk
    exact (Function.update_of_ne (by omega) _ _).trans (h.unsent k (by omega))
  budget := by
    have hbudget := h.budget
    unfold Sending.emit
    dsimp only
    omega
  follows := ⟨rfl, hall⟩

theorem Inv.network {e : CopyEvent MetaPartition.Command ResultCode} (ha : Admits r s (.network e))
    (hs : s.step view (.network e) = some s') : Inv view r mp s' := by
  obtain ⟨net, hnet, rfl⟩ := Option.map_eq_some_iff.mp hs
  refine ⟨?_, ?_, h.budget, ?_⟩
  · exact h.sound.step (fun _ hc => .inl hc) (fun _ hc => .inr hc) ha hnet
  · exact fun k hk => Copies.unsent_of_step hnet (h.unsent k hk)
  · have hf := h.follows
    cases hc : s.client with
    | start | waiting k rest round | ready rest round last => rwa [hc] at hf
    | done result =>
      rw [hc] at hf
      refine ⟨hf.1, fun hres => ?_⟩
      obtain ⟨k, hk⟩ := hf.2 hres
      exact ⟨k, Copies.mem_replies_of_step hnet hk⟩

theorem Inv.step {e : SendEvent} (ha : Admits r s e) (hs : s.step view e = some s') :
    Inv view r mp s' := by
  have hf := h.follows
  cases e with
  | network e => exact h.network ha hs
  | noConn =>
    simp only [Sending.step] at hs
    split at hs
    next hc =>
      cases hs
      rw [hc] at hf
      refine h.setClient ?_ ⟨?_, nofun⟩
      · rw [hc]
        simp only [left, sendRetryLimit]
        omega
      · intro j hj
        have hz : s.sent = 0 := hf
        have hj' : j < s.sent := hj
        omega
    next a rest round last hc =>
      cases hs
      rw [hc] at hf
      refine h.setClient ?_ ⟨hf.1, nofun⟩
      rw [hc]
      simp only [left, length_cons]
      omega
    · cases hs
  | send =>
    simp only [Sending.step] at hs
    split at hs
    next hc =>
      split at hs
      · cases hs
        rw [hc] at hf
        have hz : s.sent = 0 := hf
        refine h.emit ?_ fun j hj => by omega
        rw [hc]
        simp only [left, sendRetryLimit]
        omega
      · cases hs
    next a rest round last hc =>
      cases hs
      rw [hc] at hf
      refine h.emit ?_ hf.1
      rw [hc]
      simp only [left, length_cons]
      omega
    · cases hs
  | receive code =>
    simp only [Sending.step] at hs
    split at hs
    next k rest round hc =>
      rw [hc] at hf
      obtain ⟨hk, hgone⟩ := hf
      split at hs
      next hmem =>
        split at hs
        next hretry =>
          cases hs
          refine h.setClient (by rw [hc]; exact Nat.le_refl _) ⟨?_, ?_⟩
          · intro j hj
            have hj' : j < s.sent := hj
            obtain rfl | hlt : j = k ∨ j < k := by omega
            · exact mem_cons_self ..
            · exact mem_cons_of_mem k (hgone j hlt)
          · intro code' hcode
            cases hcode
            exact hretry
        cases hs
        refine h.setClient (Nat.zero_le _) ⟨?_, ?_⟩
        · intro j hj
          have hj' : j + 1 < s.sent := hj
          exact hgone j (by omega)
        · intro hcode
          cases hcode
          exact ⟨k, hmem⟩
      · cases hs
    · cases hs
  | fail =>
    simp only [Sending.step] at hs
    split at hs
    next k rest round hc =>
      cases hs
      rw [hc] at hf
      obtain ⟨hk, hgone⟩ := hf
      refine h.setClient (by rw [hc]; exact Nat.le_refl _) ⟨?_, nofun⟩
      intro j hj
      have hj' : j < s.sent := hj
      obtain rfl | hlt : j = k ∨ j < k := by omega
      · exact mem_cons_self ..
      · exact mem_cons_of_mem k (hgone j hlt)
    · cases hs
  | roundEnd timeUp =>
    simp only [Sending.step] at hs
    split at hs
    next round last hc =>
      rw [hc] at hf
      split at hs
      next hmore =>
        cases hs
        refine h.setClient ?_ hf
        -- the members of the next round come out of the rounds that are left
        have hround : sendRetryLimit - (round + 1) = sendRetryLimit - (round + 1 + 1) + 1 := by
          omega
        rw [hc]
        simp only [left, length_nil]
        rw [hround, Nat.add_mul]
        omega
      cases hs
      refine h.setClient (Nat.zero_le _) ⟨fun j hj => hf.1 j ?_, ?_⟩
      · have hj' : j + 1 < s.sent := hj
        omega
      · intro hok
        cases hf.2 _ hok
    · cases hs

end

theorem Inv.lt_sent (h : Inv view r mp s) (hk : k ∈ s.net.applied) : k < s.sent := by
  by_contra hge
  have hset := h.sound.settled k hk
  rw [h.unsent k (by omega)] at hset
  cases hset

theorem Inv.last_of_not_abandoned (h : Inv view r mp s) (hk : k < s.sent) (hg : k ∉ s.abandoned) :
    k + 1 = s.sent := by
  have hf := h.follows
  cases hc : s.client with
  | start =>
    rw [hc] at hf
    have hz : s.sent = 0 := hf
    omega
  | waiting j rest round =>
    rw [hc] at hf
    by_contra hne
    have hj := hf.1
    exact hg (hf.2 k (by omega))
  | ready rest round last =>
    rw [hc] at hf
    exact absurd (hf.1 k hk) hg
  | done result =>
    rw [hc] at hf
    by_contra hne
    exact hg (hf.1 k (by omega))

end Sending

open Sending in
/-- A write is applied at most once for each copy that was sent, and the partition is what the log
with these applications makes of it. If the client is told OK, one of them ended so; and if no copy
that the client gave up on was applied, there is at most one, and one if it is told OK. -/
theorem sent_write_applied {Addr : Type} {view : PartitionView Addr} {r : Request n}
    {mp : MetaPartition} {s : Sending Addr} (hw : r.isWrite = true)
    (h : Reached view r mp s) :
    s.net.state = Copies.replay MetaPartition.answer mp s.net.log ∧
    (∀ k c, (some k, c) ∈ s.net.log → ∃ now inoID, r.command now inoID = some c) ∧
    s.net.applied.Nodup ∧ (∀ k ∈ s.net.applied, k < s.sent) ∧
    s.sent ≤ 1 + sendRetryLimit * view.members.length ∧
    (s.client = .done (some .opOk) → ∃ before k c after,
      s.net.log = before ++ (some k, c) :: after ∧
      ((Copies.replay MetaPartition.answer mp before).answer c).2 = .opOk) ∧
    ((∀ k ∈ s.abandoned, k ∉ s.net.applied) → s.net.applied.length ≤ 1 ∧
      (s.client = .done (some .opOk) → s.net.applied.length = 1)) := by
  have hi : Inv view r mp s := Reach.invariant h inv_start fun _ _ _ hi ha hs => hi.step ha hs
  have hreply (hok : s.client = .done (some .opOk)) : ∃ k, (k, .opOk) ∈ s.net.replies := by
    have hf := hi.follows
    rw [hok] at hf
    exact hf.2 rfl
  refine ⟨hi.sound.state, hi.sound.made, hi.sound.nodup, fun k => hi.lt_sent, ?_, ?_, ?_⟩
  · have hb := hi.budget
    omega
  · intro hok
    obtain ⟨k, hk⟩ := hreply hok
    obtain ⟨before, c, after, hlog, hcode⟩ :=
      (hi.sound.replied k .opOk hk).resolve_left (not_quiet_opOk hw)
    exact ⟨before, k, c, after, hlog, hcode⟩
  · intro hgone
    have hle : s.net.applied.length ≤ 1 := by
      have hsame : s.net.applied = replicate s.net.applied.length (s.sent - 1) := by
        refine eq_replicate_of_mem fun k hk => ?_
        have hlast := hi.last_of_not_abandoned (hi.lt_sent hk) fun hg => hgone k hg hk
        omega
      have hnodup := hi.sound.nodup
      rw [hsame, nodup_replicate] at hnodup
      exact hnodup
    refine ⟨hle, fun hok => ?_⟩
    obtain ⟨k, hk⟩ := hreply hok
    have hpos : 0 < s.net.applied.length :=
      length_pos_of_mem (hi.sound.applied_of_reply hk (not_quiet_opOk hw))
    omega

/-! A link of the file 2 whose first reply is lost, in a partition with one member. -/

def oneMember : PartitionView Unit := ⟨some (), [()]⟩

def linkCommand : MetaPartition.Command := .createLinkInode (MetaPartition.reqInode 0 2)

def replyLost : List SendEvent :=
  [.send, .network (.propose 0 linkCommand), .network (.commit 0), .fail,
   .send, .network (.propose 1 linkCommand), .network (.commit 1), .receive .opOk]

theorem admits_replyLost : ∀ e ∈ replyLost, ∀ s : Sending Unit,
    Sending.Admits (.ilink (0 : Fin 1) 2) s e := by
  have hmakes : ∃ now inoID, (Request.ilink (0 : Fin 1) 2).command now inoID = some linkCommand :=
    ⟨0, 0, rfl⟩
  simp [replyLost, Sending.Admits, Copies.Admits, hmakes]

/-- The client is told OK and one of the two applications ended so. -/
theorem sent_write_applied_link :
    ∃ s, Sending.Reached oneMember (.ilink (0 : Fin 1) 2) (oneEntry 0 0) s ∧
      s.client = .done (some .opOk) ∧ ∃ before k c after,
        s.net.log = before ++ (some k, c) :: after ∧
        ((Copies.replay MetaPartition.answer (oneEntry 0 0) before).answer c).2 = .opOk := by
  have hrun : Sending.Reached oneMember (.ilink (0 : Fin 1) 2) (oneEntry 0 0) _ :=
    Reach.of_foldlM replyLost rfl admits_replyLost .start
  exact ⟨_, hrun, rfl, (sent_write_applied rfl hrun).2.2.2.2.2.1 rfl⟩

/-- The client is told OK, and the file that had one link has three. -/
theorem ilink_applied_twice :
    ∃ s, Sending.Reached oneMember (.ilink (0 : Fin 1) 2) (oneEntry 0 0) s ∧
      s.client = .done (some .opOk) ∧ s.net.applied = [0, 1] ∧
      ((oneEntry 0 0).inode? 2).map InodeOf.nLink = some 1 ∧
      (s.net.state.inode? 2).map InodeOf.nLink = some 3 :=
  ⟨_, Reach.of_foldlM replyLost rfl admits_replyLost .start, rfl, rfl, rfl, rfl⟩

end ChubaoFS
