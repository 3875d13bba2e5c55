import ChubaoFS.Base.Run

namespace ChubaoFS

/-! The loop of `startSchedule`, the dumps that it starts and the channel that feeds it. -/

inductive ScheduleState
  | running
  | stopped
  deriving DecidableEq

inductive TickCommand
  | startStoreTick
  | stopStoreTick
  | opFSMStoreTick

/-- A message of `storeChan`, without the trees that `store` writes. -/
structure TickMsg where
  command : TickCommand
  applyIndex : UInt64

/-- Where a `dumpFunc` is: in `store`, before it puts its message back, or before it leaves. -/
inductive DumpPhase
  | store
  | requeue
  | leave

/-- Where the loop is: at its head, in the `select`, or in the `Put` of a timer tick. -/
inductive LoopPhase
  | top
  | select
  | put
  | ended

structure Scheduler where
  scheduleState : ScheduleState
  curIndex : UInt64
  msgs : List TickMsg
  readyChan : Bool
  storeChan : List TickMsg
  dumps : List (TickMsg × DumpPhase)
  timer : Bool
  loop : LoopPhase

inductive ScheduleEvent
  | send (msg : TickMsg)
  | top
  | stopC
  | readyChan
  | receive
  | timer (applyID : UInt64)
  | put (ok leader : Bool)
  | stored (k : Nat) (ok : Bool)
  | requeue (k : Nat)
  | leave (k : Nat) (leader : Bool)

def storeChanSize : Nat := 5

namespace Scheduler

def startSchedule (curIndex : UInt64) : Scheduler where
  scheduleState := .stopped
  curIndex := curIndex
  msgs := []
  readyChan := false
  storeChan := []
  dumps := []
  timer := false
  loop := .top

def newer (curIndex : UInt64) (acc : UInt64 × Option TickMsg) (msg : TickMsg) :
    UInt64 × Option TickMsg :=
  if curIndex ≥ msg.applyIndex then acc
  else if acc.1 < msg.applyIndex then (msg.applyIndex, some msg)
  else acc

def maxMsg (curIndex : UInt64) (msgs : List TickMsg) : Option TickMsg :=
  (msgs.foldl (newer curIndex) (0, none)).2

def receive (s : Scheduler) (msg : TickMsg) : Scheduler :=
  match msg.command with
  | .startStoreTick => { s with timer := true }
  | .stopStoreTick => { s with timer := false }
  | .opFSMStoreTick => { s with msgs := s.msgs ++ [msg] }

def step (s : Scheduler) : ScheduleEvent → Option Scheduler
  | .send msg =>
    if s.storeChan.length < storeChanSize then some { s with storeChan := s.storeChan ++ [msg] }
    else none
  | .top =>
    match s.loop with
    | .top =>
      if s.msgs ≠ [] ∧ s.scheduleState = .stopped then
        -- the channel has room for one token; a second one would block the loop
        if s.readyChan then none
        else some { s with scheduleState := .running, readyChan := true, loop := .select }
      else some { s with loop := .select }
    | _ => none
  | .stopC =>
    match s.loop with
    | .select => some { s with timer := false, loop := .ended }
    | _ => none
  | .readyChan =>
    match s.loop with
    | .select =>
      if s.readyChan then
        match maxMsg s.curIndex s.msgs with
        | some msg => some { s with
            readyChan := false, msgs := [], loop := .top, dumps := s.dumps ++ [(msg, .store)] }
        | none => some { s with readyChan := false, msgs := [], loop := .top }
      else none
    | _ => none
  | .receive =>
    match s.loop, s.storeChan with
    | .select, msg :: rest => some { s.receive msg with storeChan := rest, loop := .top }
    | _, _ => none
  | .timer applyID =>
    match s.loop with
    | .select =>
      if s.timer then
        if applyID ≤ s.curIndex then some { s with timer := true, loop := .top }
        else some { s with timer := false, loop := .put }
      else none
    | _ => none
  | .put ok leader =>
    match s.loop with
    | .put => some { s with timer := s.timer || (!ok && leader), loop := .top }
    | _ => none
  | .stored k ok =>
    match s.dumps[k]? with
    | some (msg, .store) =>
      if ok then some { s with curIndex := msg.applyIndex, dumps := s.dumps.set k (msg, .leave) }
      else some { s with dumps := s.dumps.set k (msg, .requeue) }
    | _ => none
  | .requeue k =>
    match s.dumps[k]? with
    | some (msg, .requeue) =>
      if s.storeChan.length < storeChanSize then
        some { s with storeChan := s.storeChan ++ [msg], dumps := s.dumps.set k (msg, .leave) }
      else none
    | _ => none
  | .leave k leader =>
    match s.dumps[k]? with
    | some (_, .leave) => some { s with
        timer := s.timer || leader, scheduleState := .stopped, dumps := s.dumps.eraseIdx k }
    | _ => none

theorem maxMsg_isSome {curIndex : UInt64} {msgs : List TickMsg} {msg : TickMsg} (hm : msg ∈ msgs)
    (hlt : curIndex < msg.applyIndex) : (maxMsg curIndex msgs).isSome = true := by
  have hkeep (l : List TickMsg) (acc : UInt64 × Option TickMsg) (hacc : acc.2.isSome = true) :
      (l.foldl (newer curIndex) acc).2.isSome = true := by
    induction l generalizing acc with
    | nil => exact hacc
    | cons m l ih =>
      refine ih _ ?_
      unfold newer
      split
      · exact hacc
      split
      · rfl
      · exact hacc
  have hfold (l : List TickMsg) (acc : UInt64 × Option TickMsg) (hm : msg ∈ l)
      (hacc : acc.2 = none → acc.1 = 0) : (l.foldl (newer curIndex) acc).2.isSome = true := by
    induction l generalizing acc with
    | nil => cases hm
    | cons m l ih =>
      cases hnone : (newer curIndex acc m).2 with
      | some m' => exact hkeep l _ (by rw [hnone]; rfl)
      | none =>
        -- the round kept nothing, so `m` is not newer and the bound is still 0
        have hold : newer curIndex acc m = acc ∧ ¬ curIndex < m.applyIndex := by
          unfold newer at hnone ⊢
          split at hnone
          next hge => exact ⟨if_pos hge, UInt64.not_lt.mpr hge⟩
          rename_i hge
          split at hnone
          · cases hnone
          rename_i hle
          rw [hacc hnone] at hle
          have hpos : (0 : UInt64) < m.applyIndex :=
            UInt64.lt_of_le_of_lt (UInt64.zero_le) (UInt64.not_le.mp hge)
          exact absurd hpos hle
        obtain rfl | hm := List.mem_cons.mp hm
        · exact absurd hlt hold.2
        · rw [List.foldl_cons, hold.1]
          exact ih acc hm hacc
  exact hfold msgs (0, none) hm fun _ => rfl

/-- What the state `Running` stands for. -/
def Works (s : Scheduler) : Prop :=
  s.scheduleState = .running → s.readyChan = true ∨ s.dumps ≠ []

/-- A token is taken when some message is newer than the last dump. -/
def TokenForNewer (s : Scheduler) : ScheduleEvent → Prop
  | .readyChan => (s.msgs.any fun msg => s.curIndex < msg.applyIndex) = true
  | _ => True

instance (s : Scheduler) (e : ScheduleEvent) : Decidable (s.TokenForNewer e) := by
  cases e <;> unfold TokenForNewer <;> infer_instance

theorem Works.step {s s' : Scheduler} {e : ScheduleEvent} (h : s.Works) (he : s.TokenForNewer e)
    (hs : s.step e = some s') : s'.Works := by
  have hset (k : Nat) (d : TickMsg × DumpPhase) (hd : s.dumps ≠ []) : s.dumps.set k d ≠ [] := by
    rwa [ne_eq, List.set_eq_nil_iff]
  cases e with
  | send msg | stopC | put ok leader =>
    dsimp only [Scheduler.step] at hs
    split at hs
    · exact Option.some.inj hs ▸ h
    · cases hs
  | top =>
    dsimp only [Scheduler.step] at hs
    split at hs
    · split at hs
      · split at hs
        · cases hs
        · cases hs
          exact fun _ => .inl rfl
      · exact Option.some.inj hs ▸ h
    · cases hs
  | readyChan =>
    dsimp only [Scheduler.step] at hs
    split at hs
    · split at hs
      · split at hs
        next msg _ =>
          cases hs
          exact fun _ => .inr (List.append_ne_nil_of_right_ne_nil _ (List.cons_ne_nil _ _))
        next hnone =>
          obtain ⟨msg, hm, hlt⟩ := List.any_eq_true.mp he
          have hsome := maxMsg_isSome hm (of_decide_eq_true hlt)
          rw [hnone] at hsome
          cases hsome
      · cases hs
    · cases hs
  | receive =>
    dsimp only [Scheduler.step] at hs
    split at hs
    next msg rest _ _ =>
      cases hs
      unfold Scheduler.receive
      split
      all_goals exact h
    · cases hs
  | timer applyID =>
    dsimp only [Scheduler.step] at hs
    split at hs
    · split at hs
      · split at hs
        all_goals exact Option.some.inj hs ▸ h
      · cases hs
    · cases hs
  | stored k ok =>
    dsimp only [Scheduler.step] at hs
    split at hs
    next msg _ =>
      split at hs
      all_goals
        cases hs
        exact fun hrun => (h hrun).imp_right (hset k _)
    · cases hs
  | requeue k =>
    dsimp only [Scheduler.step] at hs
    split at hs
    next msg _ =>
      split at hs
      · cases hs
        exact fun hrun => (h hrun).imp_right (hset k _)
      · cases hs
    · cases hs
  | leave k leader =>
    dsimp only [Scheduler.step] at hs
    split at hs
    · cases hs
      exact nofun
    · cases hs

/-- In every run whose tokens are all taken for a newer message, the state `Running` means that a
token is pending or a dump in flight. -/
theorem running_has_work (curIndex : UInt64) {s : Scheduler}
    (hr : Reach step TokenForNewer (startSchedule curIndex) s)
    (hrun : s.scheduleState = .running) : s.readyChan = true ∨ s.dumps ≠ [] :=
  hr.invariant (P := Works) nofun (fun _ _ _ h he hs => h.step he hs) hrun

/-- A message, as `Apply` sends it. -/
def storeTick (applyIndex : UInt64) : TickMsg := ⟨.opFSMStoreTick, applyIndex⟩

def storeTwice : List ScheduleEvent :=
  [.send (storeTick 4), .top, .receive, .top, .readyChan, .stored 0 false, .requeue 0,
    .leave 0 true,
    .top, .receive, .top, .readyChan, .top]

theorem running_has_work_storeTwice : ∃ s, Reach step TokenForNewer (startSchedule 0) s ∧
    s.scheduleState = .running ∧ (s.readyChan = true ∨ s.dumps ≠ []) := by
  refine ⟨_, .of_checked storeTwice rfl .start, ?_, ?_⟩
  · rfl
  · exact running_has_work 0 (.of_checked storeTwice rfl .start) rfl

def staleMessage : List ScheduleEvent :=
  [.send (storeTick 4), .top, .receive, .top, .readyChan, .send (storeTick 5), .top, .receive,
    .stored 0 false, .requeue 0, .leave 0 true, .top, .readyChan, .top, .receive, .stored 0 true,
    .leave 0 true, .top, .readyChan, .send (storeTick 6), .top, .receive, .top]

/-- Message 6 waits for a state that nothing sets back. -/
theorem stale_message_wedges : ∃ s, Reach step (fun _ _ => True) (startSchedule 0) s ∧
    s.scheduleState = .running ∧ s.readyChan = false ∧ s.dumps = [] ∧ s.storeChan = [] ∧
      s.curIndex = 5 ∧ s.msgs = [storeTick 6] := by
  refine ⟨_, .of_foldlM staleMessage rfl (fun _ _ _ => trivial) .start, ?_, ?_, ?_, ?_, ?_, ?_⟩
  all_goals rfl

end Scheduler
end ChubaoFS
