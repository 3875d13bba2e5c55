import ChubaoFS.AppliedIndex

namespace ChubaoFS

open UInt64 (le_refl le_of_eq le_trans le_of_lt not_lt zero_le)
open RaftPhase (running)
open Function (update_self update_of_ne)

/-! The raft logs of the replicas of a data partition. A leader collects the applied indices of all
replicas and tells them the minimum, at which each truncates its log; a replica that starts again
goes on from the index in its file. -/

namespace DataReplica

def resumeID (s : DataReplica) : UInt64 := loadAppliedID s.applyIndexFile

def raftStarted (s : DataReplica) : Bool :=
  match s.raft with
  | .notStarted => false
  | .stopped => false
  | _ => true

def possible (s : DataReplica) : Event → Bool
  | .handOver _ =>
    match s.raft with
    | .running cur => cur < cur + 1
    | _ => true
  | .adopt _ _ => false
  | .restart => false
  | _ => true

structure Ordered (s : DataReplica) : Prop where
  file : s.resumeID ≤ s.appliedID
  storing : ∀ id, s.storing = some id → s.resumeID ≤ id ∧ id ≤ s.appliedID
  running : ∀ cur, s.raft = .running cur → s.appliedID ≤ cur
  finishing : ∀ index ok, s.raft = .finishing index ok → s.appliedID ≤ index

variable {log : UInt64 → RaftCmd} {s s' : DataReplica}

theorem Ordered.of_eq (h : s.Ordered) (happlied : s'.appliedID = s.appliedID)
    (hfile : s'.applyIndexFile = s.applyIndexFile) (hstoring : s'.storing = s.storing)
    (hrunning : ∀ cur, s'.raft = .running cur → s.appliedID ≤ cur)
    (hfinishing : ∀ index ok, s'.raft = .finishing index ok → s.appliedID ≤ index) :
    s'.Ordered ∧ s.resumeID ≤ s'.resumeID := by
  have hresume : s'.resumeID = s.resumeID := congrArg loadAppliedID hfile
  refine ⟨⟨?_, ?_, ?_, ?_⟩, le_of_eq hresume.symm⟩
  · rw [hresume, happlied]
    exact h.file
  · rw [hresume, happlied, hstoring]
    exact h.storing
  · rw [happlied]
    exact hrunning
  · rw [happlied]
    exact hfinishing

theorem ordered_handOver (h : s.Ordered) {disk : Nat → Bool}
    (hp : s.possible (.handOver disk) = true) (hs : s.step log (.handOver disk) = some s') :
    s'.Ordered ∧ s.resumeID ≤ s'.resumeID := by
  dsimp only [step] at hs
  split at hs
  next cur hraft =>
    have hle := h.running cur hraft
    have hlt : cur < cur + 1 := by
      unfold possible at hp
      rw [hraft] at hp
      exact of_decide_eq_true hp
    have hnext : s.appliedID ≤ cur + 1 := le_trans hle (le_of_lt hlt)
    have hfin (index : UInt64) (ok ok' : Bool) (heq : RaftPhase.finishing (cur + 1) ok' =
        .finishing index ok) : s.appliedID ≤ index := by
      cases heq
      exact hnext
    split at hs
    · cases hs
      refine h.of_eq rfl rfl rfl ?_ nofun
      intro _ heq
      obtain rfl := running.inj heq
      exact hnext
    · cases hs
      exact h.of_eq rfl rfl rfl nofun fun index ok heq => hfin index ok _ heq
    · cases hs
      exact h.of_eq rfl rfl rfl nofun fun index ok heq => hfin index ok _ heq
    next id _ =>
      cases hs
      unfold applyWrite
      split
      all_goals exact h.of_eq rfl rfl rfl nofun fun index ok heq => hfin index ok _ heq
  · cases hs

theorem ordered_step (h : s.Ordered) {e : Event} (hp : s.possible e = true)
    (hs : s.step log e = some s') : s'.Ordered ∧ s.resumeID ≤ s'.resumeID := by
  cases e with
  | startRaft =>
    dsimp only [step] at hs
    split at hs
    · cases hs
      refine h.of_eq rfl rfl rfl ?_ nofun
      intro cur heq
      exact le_of_eq (running.inj heq)
    · cases hs
  | handOver disk => exact ordered_handOver h hp hs
  | finish =>
    dsimp only [step] at hs
    split at hs
    next index hraft =>
      cases hs
      have hle := h.finishing index true hraft
      refine ⟨⟨le_trans h.file hle, fun id hid => ?_, fun cur heq => ?_, nofun⟩, le_refl _⟩
      · exact ⟨(h.storing id hid).1, le_trans (h.storing id hid).2 hle⟩
      · exact le_of_eq (running.inj heq)
    next index hraft =>
      cases hs
      refine h.of_eq rfl rfl rfl ?_ nofun
      intro cur heq
      obtain rfl := running.inj heq
      exact h.finishing _ _ hraft
    · cases hs
  | stopRaft =>
    dsimp only [step] at hs
    split at hs
    · cases hs
      exact h.of_eq rfl rfl rfl nofun nofun
    · cases hs
  | adopt created ids => cases hp
  | create id | markDelete id =>
    cases hs
    exact h.of_eq rfl rfl rfl h.running h.finishing
  | storeBegins =>
    dsimp only [step] at hs
    split at hs
    · cases hs
      refine ⟨{ h with storing := fun id hid => ?_ }, le_refl _⟩
      cases hid
      exact ⟨h.file, le_refl _⟩
    · cases hs
  | storeEnds =>
    dsimp only [step] at hs
    split at hs
    next id hid =>
      cases hs
      obtain ⟨hlow, hhigh⟩ := h.storing id hid
      have hload := loadAppliedID_putDecimal id
      refine ⟨⟨?_, nofun, h.running, h.finishing⟩, ?_⟩
      · unfold resumeID
        rw [hload]
        exact hhigh
      · unfold resumeID at hlow ⊢
        rw [hload]
        exact hlow
    · cases hs
  | storeFails =>
    cases hs
    exact ⟨{ h with storing := nofun }, le_refl _⟩
  | restart => cases hp

theorem ordered_restart {s' : DataReplica} (hs : s.step log .restart = some s') :
    s'.Ordered ∧ s'.resumeID = s.resumeID := by
  cases hs
  refine ⟨⟨le_refl _, nofun, fun cur heq => ?_, nofun⟩, rfl⟩
  exact le_of_eq (running.inj heq)

variable {m : UInt64}

theorem minAppliedID_le {ids : List UInt64} (h : minAppliedID ids = some m) :
    ∀ id ∈ ids, m ≤ id := by
  have hfold (l : List UInt64) (acc : UInt64) :
      l.foldl (fun acc id => if id < acc then id else acc) acc ≤ acc ∧
        ∀ id ∈ l, l.foldl (fun acc id => if id < acc then id else acc) acc ≤ id := by
    induction l generalizing acc with
    | nil => exact ⟨le_refl _, nofun⟩
    | cons id l ih =>
      obtain ⟨hacc, hall⟩ := ih (if id < acc then id else acc)
      have hpick : (if id < acc then id else acc) ≤ acc ∧ (if id < acc then id else acc) ≤ id := by
        split
        next hlt => exact ⟨le_of_lt hlt, le_refl _⟩
        next hge => exact ⟨le_refl _, not_lt.mp hge⟩
      refine ⟨le_trans hacc hpick.1, List.forall_mem_cons.mpr ⟨?_, hall⟩⟩
      exact le_trans hacc hpick.2
  cases ids with
  | nil => cases h
  | cons id ids =>
    cases h
    obtain ⟨hacc, hall⟩ := hfold ids id
    exact List.forall_mem_cons.mpr ⟨hacc, hall⟩

end DataReplica

/-- What a call of `updateMaxMinAppliedID` is at: it asks one replica after the other, the reply of
one being on its way, and then it tells the minimum to one after the other. -/
inductive CollectPhase (n : Nat)
  | asking (allAppliedID : Fin n → UInt64) (replyNum : UInt8) (i : Nat) (reply : Option UInt64)
  | telling (minAppliedID : UInt64) (i : Nat)

structure Collect (n : Nat) where
  owner : Fin n
  phase : CollectPhase n

/-- `truncates` are the calls of `Truncate` that have been made, `truncIndex` is where the log on
disk is truncated. -/
structure LogNode where
  dp : DataReplica
  minAppliedID : UInt64
  lastTruncateID : UInt64
  truncates : List UInt64
  truncIndex : UInt64

/-- `mail` are requests whose sender does not wait any more; `answered` is the highest index that a
replica has answered with, for the statements only. -/
structure LogCluster (n : Nat) where
  node : Fin n → LogNode
  collects : List (Collect n)
  mail : List (Fin n × UInt64)
  answered : Fin n → UInt64

inductive TellOutcome
  | delivered
  | delayed
  | lost

inductive LogClusterEvent (n : Nat)
  | act (i : Fin n) (e : DataReplica.Event)
  | crash (i : Fin n)
  | collect (i : Fin n) (isLeader : Bool)
  | answer (k : Nat)
  | receive (k : Nat) (ok : Bool)
  | endAsking (k : Nat)
  | tell (k : Nat) (outcome : TellOutcome)
  | deliver (k : Nat)
  | truncateTimer (i : Fin n)
  | truncate (i : Fin n) (k : Nat) (lastIndex : UInt64) (ok : Bool)

namespace LogCluster

variable {n : Nat}

def defaultRaftLogsToRetain : UInt64 := 2000

def new : LogCluster n where
  node := fun _ => ⟨DataReplica.newDataPartition, 0, 0, [], 0⟩
  collects := []
  mail := []
  answered := fun _ => 0

def setNode (s : LogCluster n) (i : Fin n) (x : LogNode) : LogCluster n :=
  { s with node := Function.update s.node i x }

def handleBroadcastMinAppliedID (s : LogCluster n) (j : Fin n) (minAppliedID : UInt64) :
    LogCluster n :=
  if minAppliedID > 0 then s.setNode j { s.node j with minAppliedID := minAppliedID } else s

def truncateLog (truncIndex index lastIndex : UInt64) : UInt64 :=
  if lastIndex > defaultRaftLogsToRetain then
    let maxIndex := if index < lastIndex - defaultRaftLogsToRetain then index
      else lastIndex - defaultRaftLogsToRetain
    if maxIndex ≤ truncIndex then truncIndex else maxIndex
  else truncIndex

variable (log : UInt64 → RaftCmd)

def step (s : LogCluster n) : LogClusterEvent n → Option (LogCluster n)
  | .act i e =>
    if (s.node i).dp.possible e then
      ((s.node i).dp.step log e).map fun dp => s.setNode i { s.node i with dp := dp }
    else none
  | .crash i =>
    ((s.node i).dp.step log .restart).map fun dp =>
      { s.setNode i ⟨dp, 0, 0, [], (s.node i).truncIndex⟩ with
        collects := s.collects.filter fun c => c.owner != i }
  | .collect i isLeader =>
    if (s.node i).dp.raftStarted && isLeader && (s.node i).dp.appliedID != 0 then
      some { s with collects := s.collects ++ [⟨i, .asking (fun _ => 0) 0 0 none⟩] }
    else none
  | .answer k =>
    match s.collects[k]? with
    | some ⟨owner, .asking all replyNum i none⟩ =>
      if h : i < n then
        let appliedID := (s.node ⟨i, h⟩).dp.appliedID
        let highest := s.answered ⟨i, h⟩
        some { s with
          collects := s.collects.set k ⟨owner, .asking all replyNum i (some appliedID)⟩
          answered := Function.update s.answered ⟨i, h⟩
            (if highest < appliedID then appliedID else highest) }
      else none
    | _ => none
  | .receive k ok =>
    match s.collects[k]? with
    | some ⟨owner, .asking all replyNum i reply⟩ =>
      if h : i < n then
        match ok, reply with
        | true, some appliedID =>
          let all := Function.update all ⟨i, h⟩ appliedID
          some { s with collects :=
            s.collects.set k ⟨owner, .asking all (replyNum + 1) (i + 1) none⟩ }
        | true, none => none
        | false, _ =>
          -- its own index a replica gets without a message
          if owner = ⟨i, h⟩ then none
          else some { s with
            collects := s.collects.set k ⟨owner, .asking all replyNum (i + 1) none⟩ }
      else none
    | _ => none
  | .endAsking k =>
    match s.collects[k]? with
    | some ⟨owner, .asking all replyNum i _⟩ =>
      if i < n then none
      else if replyNum = 0 then some { s with collects := s.collects.eraseIdx k }
      else if replyNum = UInt8.ofNat n then
        (DataReplica.minAppliedID (List.ofFn all)).map fun m =>
          { s with collects := s.collects.set k ⟨owner, .telling m 0⟩ }
      else some { s with collects := s.collects.eraseIdx k }
    | _ => none
  | .tell k outcome =>
    match s.collects[k]? with
    | some ⟨owner, .telling m i⟩ =>
      if h : i < n then
        let j : Fin n := ⟨i, h⟩
        let next := s.collects.set k ⟨owner, .telling m (i + 1)⟩
        if owner = j then
          some { s.setNode j { s.node j with minAppliedID := m } with collects := next }
        else
          match outcome with
          | .delivered => some { s.handleBroadcastMinAppliedID j m with collects := next }
          | .delayed =>
            some { s with collects := s.collects.eraseIdx k, mail := s.mail ++ [(j, m)] }
          | .lost => some { s with collects := s.collects.eraseIdx k }
      else some { s with collects := s.collects.eraseIdx k }
    | _ => none
  | .deliver k =>
    match s.mail[k]? with
    | some (j, m) => some { s.handleBroadcastMinAppliedID j m with mail := s.mail.eraseIdx k }
    | none => none
  | .truncateTimer i =>
    let x := s.node i
    if x.dp.raftStarted && x.minAppliedID > x.lastTruncateID then
      some (s.setNode i { x with
        lastTruncateID := x.minAppliedID
        truncates := x.truncates ++ [x.minAppliedID] })
    else some s
  | .truncate i k lastIndex ok =>
    let x := s.node i
    match x.truncates[k]? with
    | some index =>
      if x.dp.appliedID ≤ lastIndex then
        some (s.setNode i { x with
          truncates := x.truncates.eraseIdx k
          truncIndex := if ok then truncateLog x.truncIndex index lastIndex else x.truncIndex })
      else none
    | none => none

/-- When a log is truncated, each replica has stored the indices that it answered with. -/
def AnswersStored (s : LogCluster n) : LogClusterEvent n → Prop
  | .truncate _ _ _ ok => ok = true → ∀ j, s.answered j ≤ (s.node j).dp.resumeID
  | _ => True

def Known (answered : Fin n → UInt64) (v : UInt64) : Prop := ∀ j, v ≤ answered j

def CollectSound (answered : Fin n → UInt64) (c : Collect n) : Prop :=
  match c.phase with
  | .asking all _ i reply => (∀ j, all j ≤ answered j) ∧
      ∀ v, reply = some v → ∀ h : i < n, v ≤ answered ⟨i, h⟩
  | .telling m _ => Known answered m

structure NodeSound (answered : Fin n → UInt64) (node : Fin n → LogNode) (x : LogNode) :
    Prop where
  ordered : x.dp.Ordered
  told : Known answered x.minAppliedID
  truncates : ∀ v ∈ x.truncates, Known answered v
  truncated : ∀ j, x.truncIndex ≤ (node j).dp.resumeID

structure Sound (s : LogCluster n) : Prop where
  node : ∀ i, NodeSound s.answered s.node (s.node i)
  collects : ∀ c ∈ s.collects, CollectSound s.answered c
  mail : ∀ m ∈ s.mail, Known s.answered m.2

variable {log} {s s' : LogCluster n} {answered answered' : Fin n → UInt64}
  {node node' : Fin n → LogNode} {all : Fin n → UInt64}
  {replyNum : UInt8} {owner : Fin n} {c : Collect n} {i : Nat}

theorem collectSound_next (hall : ∀ j, all j ≤ answered j) :
    CollectSound answered ⟨owner, .asking all replyNum i none⟩ := ⟨hall, nofun⟩

section

variable (hle : ∀ j, answered j ≤ answered' j)
include hle

theorem Known.mono {v : UInt64} (h : Known answered v) : Known answered' v :=
  fun j => le_trans (h j) (hle j)

theorem CollectSound.mono (h : CollectSound answered c) : CollectSound answered' c := by
  unfold CollectSound at h ⊢
  split at h
  · obtain ⟨hall, hreply⟩ := h
    exact ⟨fun j => le_trans (hall j) (hle j), fun v hv hi => le_trans (hreply v hv hi) (hle _)⟩
  · exact h.mono hle

end

variable {x : LogNode} {i : Fin n}

theorem NodeSound.later (h : NodeSound answered node x)
    (hl : ∀ j, (node j).dp.resumeID ≤ (node' j).dp.resumeID) : NodeSound answered node' x :=
  { h with truncated := fun j => le_trans (h.truncated j) (hl j) }

theorem known_zero : Known answered 0 := fun _ => zero_le ..

theorem resumeID_setNode (h : (s.node i).dp.resumeID ≤ x.dp.resumeID) (j : Fin n) :
    (s.node j).dp.resumeID ≤ ((s.setNode i x).node j).dp.resumeID := by
  unfold setNode
  dsimp only
  by_cases hj : j = i
  · subst hj
    rw [update_self]
    exact h
  · rw [update_of_ne hj]
    exact le_refl _

section

variable (h : s.Sound)
include h

theorem Sound.setNode (hx : NodeSound s.answered s.node x)
    (hfile : (s.node i).dp.resumeID ≤ x.dp.resumeID) : (s.setNode i x).Sound := by
  have hl := resumeID_setNode hfile
  refine ⟨fun j => ?_, h.collects, h.mail⟩
  by_cases hj : j = i
  · subst hj
    have hself : (s.setNode j x).node j = x := update_self ..
    rw [hself]
    exact hx.later hl
  have hother : (s.setNode i x).node j = s.node j := update_of_ne hj ..
  rw [hother]
  exact (h.node j).later hl

theorem Sound.setCollects {cs : List (Collect n)} (hcs : ∀ c ∈ cs, CollectSound s.answered c) :
    { s with collects := cs }.Sound :=
  ⟨h.node, hcs, h.mail⟩

theorem Sound.set (hc : CollectSound s.answered c) (k : Nat) :
    ∀ c' ∈ s.collects.set k c, CollectSound s.answered c' := by
  intro c' hc'
  obtain hc' | rfl := List.mem_or_eq_of_mem_set hc'
  · exact h.collects c' hc'
  · exact hc

theorem Sound.eraseIdx (k : Nat) : ∀ c ∈ s.collects.eraseIdx k, CollectSound s.answered c :=
  fun c hc => h.collects c (List.mem_of_mem_eraseIdx hc)

theorem Sound.tell (j : Fin n) (hm : Known s.answered m) :
    (s.setNode j { s.node j with minAppliedID := m }).Sound :=
  have hnode := h.node j
  h.setNode { hnode with told := hm } (le_refl _)

theorem Sound.handleBroadcast (j : Fin n) (hm : Known s.answered m) :
    (s.handleBroadcastMinAppliedID j m).Sound ∧
      (s.handleBroadcastMinAppliedID j m).answered = s.answered := by
  unfold handleBroadcastMinAppliedID
  split
  · exact ⟨h.tell j hm, rfl⟩
  · exact ⟨h, rfl⟩

end

theorem truncateLog_le (truncIndex index lastIndex : UInt64) :
    truncateLog truncIndex index lastIndex = truncIndex ∨
      truncateLog truncIndex index lastIndex ≤ index := by
  have hmax : (if index < lastIndex - defaultRaftLogsToRetain then index
      else lastIndex - defaultRaftLogsToRetain) ≤ index := by
    split
    · exact le_refl _
    next hge => exact not_lt.mp hge
  unfold truncateLog
  dsimp only
  generalize (if index < lastIndex - defaultRaftLogsToRetain then index
      else lastIndex - defaultRaftLogsToRetain) = maxIndex at hmax
  split
  · split
    · exact .inl rfl
    · exact .inr hmax
  · exact .inl rfl

variable {k : Nat}

section

variable (h : s.Sound)
include h

theorem sound_receive {ok : Bool} (hs : s.step log (.receive k ok) = some s') : s'.Sound := by
  dsimp only [step] at hs
  split at hs
  next owner all replyNum i reply hk =>
    obtain ⟨hall, hreply⟩ := h.collects _ (List.mem_of_getElem? hk)
    split at hs
    next hi =>
      split at hs
      next appliedID =>
        cases hs
        refine h.setCollects (h.set (collectSound_next fun j => ?_) k)
        by_cases hj : j = ⟨i, hi⟩
        · rw [hj, update_self]
          exact hreply appliedID rfl hi
        · rw [update_of_ne hj]
          exact hall j
      · cases hs
      · split at hs
        · cases hs
        · cases hs
          exact h.setCollects (h.set (collectSound_next hall) k)
    · cases hs
  · cases hs

theorem sound_answer (hs : s.step log (.answer k) = some s') : s'.Sound := by
  dsimp only [step] at hs
  split at hs
  next owner all replyNum i hk =>
    obtain ⟨hall, -⟩ := h.collects _ (List.mem_of_getElem? hk)
    split at hs
    next hi =>
      cases hs
      have hmax (v w : UInt64) : v ≤ (if v < w then w else v) ∧ w ≤ if v < w then w else v := by
        split
        next hlt => exact ⟨le_of_lt hlt, le_refl _⟩
        next hge => exact ⟨le_refl _, not_lt.mp hge⟩
      have hle (j : Fin n) : s.answered j ≤ Function.update s.answered ⟨i, hi⟩
          (if s.answered ⟨i, hi⟩ < (s.node ⟨i, hi⟩).dp.appliedID then
            (s.node ⟨i, hi⟩).dp.appliedID else s.answered ⟨i, hi⟩) j := by
        by_cases hj : j = ⟨i, hi⟩
        · rw [hj, update_self]
          exact (hmax _ _).1
        · rw [update_of_ne hj]
          exact le_refl _
      refine ⟨fun j => ?_, fun c hc => ?_, fun m hm => (h.mail m hm).mono hle⟩
      · exact { h.node j with
          told := (h.node j).told.mono hle
          truncates := fun v hv => ((h.node j).truncates v hv).mono hle }
      · obtain hc | rfl := List.mem_or_eq_of_mem_set hc
        · exact (h.collects c hc).mono hle
        · refine ⟨fun j => le_trans (hall j) (hle j), fun v hv _ => ?_⟩
          cases hv
          dsimp only
          rw [update_self]
          exact (hmax _ _).2
    · cases hs
  · cases hs

theorem sound_endAsking (hs : s.step log (.endAsking k) = some s') : s'.Sound := by
  dsimp only [step] at hs
  split at hs
  next owner all replyNum i reply hk =>
    obtain ⟨hall, -⟩ := h.collects _ (List.mem_of_getElem? hk)
    split at hs
    · cases hs
    split at hs
    · cases hs
      exact h.setCollects (h.eraseIdx k)
    · split at hs
      · obtain ⟨m, hm, rfl⟩ := Option.map_eq_some_iff.mp hs
        have hknown : Known s.answered m := fun j =>
          le_trans (DataReplica.minAppliedID_le hm (all j) (List.mem_ofFn.mpr ⟨j, rfl⟩))
            (hall j)
        have htell : CollectSound s.answered ⟨owner, .telling m 0⟩ := hknown
        exact h.setCollects (h.set htell k)
      · cases hs
        exact h.setCollects (h.eraseIdx k)
  · cases hs

theorem sound_tell {outcome : TellOutcome} (hs : s.step log (.tell k outcome) = some s') :
    s'.Sound := by
  dsimp only [step] at hs
  split at hs
  next owner m i hk =>
    have hm : Known s.answered m := h.collects _ (List.mem_of_getElem? hk)
    have hnext : CollectSound s.answered ⟨owner, .telling m (i + 1)⟩ := hm
    split at hs
    next hi =>
      split at hs
      · cases hs
        exact (h.tell ⟨i, hi⟩ hm).setCollects (h.set hnext k)
      split at hs
      · cases hs
        obtain ⟨hsound, heq⟩ := h.handleBroadcast ⟨i, hi⟩ hm
        exact hsound.setCollects (heq ▸ h.set hnext k)
      · cases hs
        refine ⟨h.node, h.eraseIdx k, fun x hx => ?_⟩
        obtain hx | hx := List.mem_append.mp hx
        · exact h.mail x hx
        · rw [List.mem_singleton.mp hx]
          exact hm
      · cases hs
        exact h.setCollects (h.eraseIdx k)
    · cases hs
      exact h.setCollects (h.eraseIdx k)
  · cases hs

theorem sound_step {e : LogClusterEvent n} (ha : s.AnswersStored e) (hs : s.step log e = some s') :
    s'.Sound := by
  cases e with
  | act i e =>
    dsimp only [step] at hs
    split at hs
    next hp =>
      obtain ⟨dp, hdp, rfl⟩ := Option.map_eq_some_iff.mp hs
      have hnode := h.node i
      obtain ⟨hordered, hle⟩ := DataReplica.ordered_step hnode.ordered hp hdp
      exact h.setNode { hnode with ordered := hordered } hle
    · cases hs
  | crash i =>
    dsimp only [step] at hs
    obtain ⟨dp, hdp, rfl⟩ := Option.map_eq_some_iff.mp hs
    have hnode := h.node i
    obtain ⟨hordered, heq⟩ := DataReplica.ordered_restart hdp
    have hset := h.setNode (i := i) (x := ⟨dp, 0, 0, [], (s.node i).truncIndex⟩)
      ⟨hordered, known_zero, nofun, hnode.truncated⟩ (le_of_eq heq.symm)
    exact hset.setCollects fun c hc => hset.collects c (List.mem_filter.mp hc).1
  | collect i isLeader =>
    dsimp only [step] at hs
    split at hs
    · cases hs
      refine h.setCollects fun c hc => ?_
      obtain hc | hc := List.mem_append.mp hc
      · exact h.collects c hc
      · rw [List.mem_singleton.mp hc]
        exact ⟨fun _ => zero_le .., nofun⟩
    · cases hs
  | answer k => exact sound_answer h hs
  | receive k ok => exact sound_receive h hs
  | endAsking k => exact sound_endAsking h hs
  | tell k outcome => exact sound_tell h hs
  | deliver k =>
    dsimp only [step] at hs
    split at hs
    next j m hk =>
      cases hs
      have hm : Known s.answered m := h.mail _ (List.mem_of_getElem? hk)
      obtain ⟨hsound, heq⟩ := h.handleBroadcast j hm
      exact { hsound with mail := fun x hx => heq ▸ h.mail x (List.mem_of_mem_eraseIdx hx) }
    · cases hs
  | truncateTimer i =>
    dsimp only [step] at hs
    have hnode := h.node i
    split at hs
    · cases hs
      refine h.setNode { hnode with truncates := fun v hv => ?_ }
        (le_refl _)
      obtain hv | hv := List.mem_append.mp hv
      · exact hnode.truncates v hv
      · rw [List.mem_singleton.mp hv]
        exact hnode.told
    · cases hs
      exact h
  | truncate i k lastIndex ok =>
    dsimp only [step] at hs
    have hnode := h.node i
    split at hs
    next index hk =>
      split at hs
      · cases hs
        have hindex := hnode.truncates index (List.mem_of_getElem? hk)
        refine h.setNode ⟨hnode.ordered, hnode.told,
          fun v hv => hnode.truncates v (List.mem_of_mem_eraseIdx hv), ?_⟩ (le_refl _)
        dsimp only
        split
        next hok =>
          obtain heq | hle := truncateLog_le (s.node i).truncIndex index lastIndex
          · rw [heq]
            exact hnode.truncated
          · exact fun j => le_trans hle (le_trans (hindex j) (ha hok j))
        · exact hnode.truncated
      · cases hs
    · cases hs

end

/-- No log is truncated beyond the index that any replica would go on from after a crash, if
replicas have stored what they answered with when a log is truncated. -/
theorem truncated_before_resume (log : UInt64 → RaftCmd) {s : LogCluster n}
    (hr : Reach (step log) AnswersStored new s) (i j : Fin n) :
    (s.node i).truncIndex ≤ (s.node j).dp.resumeID := by
  have hnew : (new : LogCluster n).Sound :=
    ⟨fun _ => ⟨⟨le_refl _, nofun, nofun, nofun⟩, known_zero, nofun, known_zero⟩, nofun, nofun⟩
  have h : s.Sound := hr.invariant hnew fun _ _ _ h ha hs => sound_step h ha hs
  exact (h.node i).truncated j

instance decidableAnswersStored (s : LogCluster n) : (e : LogClusterEvent n) →
    Decidable (s.AnswersStored e)
  | .truncate _ _ _ _ => inferInstanceAs (Decidable (_ → ∀ j, s.answered j ≤ _))
  | .act _ _ | .crash _ | .collect _ _ | .answer _ | .receive _ _ | .endAsking _ | .tell _ _
  | .deliver _ | .truncateTimer _ => inferInstanceAs (Decidable True)

def applyFirst : List (LogClusterEvent 2) :=
  [.act 0 .startRaft, .act 1 .startRaft, .act 0 (.handOver fun _ => true), .act 0 .finish,
    .act 1 (.handOver fun _ => true), .act 1 .finish]

def collectAndTruncate : List (LogClusterEvent 2) :=
  [.collect 0 true, .answer 0, .receive 0 true, .answer 0, .receive 0 true, .endAsking 0,
    .tell 0 .delivered, .tell 0 .delivered, .truncateTimer 0, .truncate 0 0 2001 true]

def storeFirst : List (LogClusterEvent 2) :=
  [.act 0 .storeBegins, .act 0 .storeEnds, .act 1 .storeBegins, .act 1 .storeEnds]

theorem truncated_before_resume_first :
    ∃ s : LogCluster 2, Reach (step DataReplica.oneWrite) AnswersStored new s ∧
      (s.node 0).truncIndex = 1 ∧ (s.node 0).truncIndex ≤ (s.node 1).dp.resumeID := by
  have hr : Reach (step DataReplica.oneWrite) AnswersStored (new : LogCluster 2) _ :=
    .of_checked (applyFirst ++ storeFirst ++ collectAndTruncate) rfl .start
  exact ⟨_, hr, rfl, truncated_before_resume DataReplica.oneWrite hr 0 1⟩

/-- The indices are collected before the timer has stored them. -/
theorem truncated_beyond_resume :
    ∃ s : LogCluster 2, Reach (step DataReplica.oneWrite) (fun _ _ => True) new s ∧
      (s.node 1).dp.resumeID < (s.node 0).truncIndex := by
  refine ⟨_, .of_foldlM (applyFirst ++ collectAndTruncate) rfl (fun _ _ _ => trivial) .start, ?_⟩
  decide

end LogCluster
end ChubaoFS
