import ChubaoFS.TinyDeletes

namespace ChubaoFS

open List Nat
open List.Subset (refl)

open Bytes

/-! What a run of the synchronisation leaves in the follower's log. -/

namespace TinyDeleteLog

/-- The record at the `i`-th place, with a zero record where there is none. -/
def place (file : Bytes) (i : Nat) : TinyDeleteRecord := unMarshalTinyExtent (block 24 file i)

variable {file : Bytes} {i : Nat}

theorem place_eq_zero (h : file.length ≤ 24 * i) :
    isTinyExtent (place file i).extentID = false := by
  unfold place
  rw [block_eq_zero h]
  decide

theorem place_writeAt (file : Bytes) (r : TinyDeleteRecord) (i j : Nat) :
    place (writeAt file (marshalTinyExtent r) (24 * i)) j = if j = i then r else place file j := by
  unfold place
  split
  next h =>
    rw [h, block_writeAt_self (length_marshalTinyExtent r), unMarshalTinyExtent_marshal]
  next h => rw [block_writeAt_ne (length_marshalTinyExtent r) file h]

variable {r : TinyDeleteRecord} {s : TinyDeleteLog}

theorem recordAt_eq_some : s.recordAt (24 * i) = some r ↔
      24 * i + 24 ≤ s.tinyExtentDeleteFp.length ∧ place s.tinyExtentDeleteFp i = r := by
  unfold recordAt place
  by_cases hlen : 24 * i + 24 ≤ s.tinyExtentDeleteFp.length
  · obtain ⟨body, hread⟩ : ∃ body, readAt s.tinyExtentDeleteFp (24 * i) (24 * 1) = some body :=
      ⟨_, if_pos hlen⟩
    obtain ⟨hbody, hblock⟩ := block_readAt hread one_pos
    have hread' : readAt s.tinyExtentDeleteFp (24 * i) everyTinyDeleteRecordSize = some body :=
      hread
    rw [hread', Option.map_some, Option.some.injEq, ← block_zero hbody, hblock]
    exact ⟨fun h => ⟨hlen, h⟩, And.right⟩
  have hread : readAt s.tinyExtentDeleteFp (24 * i) everyTinyDeleteRecordSize = none := if_neg hlen
  rw [hread]
  exact ⟨nofun, fun h => absurd h.1 hlen⟩

structure Aligned (s : TinyDeleteLog) : Prop where
  file : 24 ∣ s.tinyExtentDeleteFp.length
  base : 24 ∣ s.baseTinyDeleteOffset
  length : s.tinyExtentDeleteFp.length ≤ s.baseTinyDeleteOffset + 24

variable {offset : Nat}

theorem Aligned.recordTinyDelete (h : s.Aligned) (r : TinyDeleteRecord) (hoff : 24 ∣ offset)
    (written : Bool) : (s.recordTinyDelete r offset written).Aligned := by
  obtain ⟨hfile, hbase, hlen⟩ := h
  unfold TinyDeleteLog.recordTinyDelete
  split
  · refine ⟨?_, ?_, ?_⟩
    · dsimp only
      rw [length_writeAt, length_marshalTinyExtent]
      omega
    · dsimp only
      split
      · exact hoff
      · exact hbase
    · dsimp only
      rw [length_writeAt, length_marshalTinyExtent]
      split
      · omega
      · omega
  · exact ⟨hfile, hbase, hlen⟩

/-! A run over the records that stand at consecutive places of the leader's log. -/

def Replays (outcome : Nat → DeleteOutcome) (sent : Nat → TinyDeleteRecord) (i : Nat) : Prop :=
  isTinyExtent (sent i).extentID = true ∧
    deleteTiny (sent i) (outcome (24 * (i + 1))).punched = true ∧
    (outcome (24 * (i + 1))).written = true

def Within (s : TinyDeleteLog) (r : TinyDeleteRecord) : Prop :=
  isTinyExtent r.extentID = true → ∃ w, s.dataSize r.extentID = some w ∧ ¬ w < r.offset + r.size

/-- The log `t` is `s` with the records of the places from `a` to before `e` moved one place on. -/
structure Replayed (outcome : Nat → DeleteOutcome) (sent : Nat → TinyDeleteRecord)
    (s t : TinyDeleteLog) (a e : Nat) : Prop where
  moved : ∀ i, a ≤ i → i < e → Replays outcome sent i →
    place t.tinyExtentDeleteFp (i + 1) = sent i ∧
      24 * (i + 1) + 24 ≤ t.tinyExtentDeleteFp.length ∧ sent i ∈ t.punched
  other : ∀ j, (∀ i, a ≤ i → i < e → j = i + 1 → ¬ Replays outcome sent i) →
    place t.tinyExtentDeleteFp j = place s.tinyExtentDeleteFp j
  length : s.tinyExtentDeleteFp.length ≤ t.tinyExtentDeleteFp.length
  punched : s.punched ⊆ t.punched
  base : ∀ n, n ≤ t.baseTinyDeleteOffset ↔ n ≤ s.baseTinyDeleteOffset ∨
    ∃ i, a ≤ i ∧ i < e ∧ Replays outcome sent i ∧ n ≤ 24 * (i + 1)
  dataSize : t.dataSize = s.dataSize

variable {outcome : Nat → DeleteOutcome} {sent : Nat → TinyDeleteRecord} {s t : TinyDeleteLog}
  {a b e h : Nat}

theorem replayed_refl (s : TinyDeleteLog) (a : Nat) : Replayed outcome sent s s a a where
  moved := fun i ha he => absurd ha (not_le.mpr he)
  other := fun _ _ => rfl
  length := le_refl _
  punched := refl _
  base := by
    refine fun n => ⟨.inl, ?_⟩
    rintro (hn | ⟨i, ha, he, _⟩)
    · exact hn
    · exact absurd ha (not_le.mpr he)
  dataSize := rfl

theorem replayed_one (outcome : Nat → DeleteOutcome) (hw : s.Within (sent a)) :
    Replayed outcome sent s (if isTinyExtent (sent a).extentID then
        s.markDelete (sent a) (24 * (a + 1)) (outcome (24 * (a + 1))) else s) a (a + 1) := by
  have honly {i : Nat} (ha : a ≤ i) (he : i < a + 1) : i = a := by omega
  by_cases hrep : Replays outcome sent a
  · obtain ⟨htiny, hpunched, hwritten⟩ := hrep
    obtain ⟨w, hsize, hfits⟩ := hw htiny
    rw [if_pos htiny]
    unfold markDelete
    rw [hsize]
    dsimp only
    unfold tinyDelete
    rw [if_neg hfits, if_pos hpunched]
    unfold recordTinyDelete
    rw [if_pos hwritten]
    refine ⟨?_, ?_, ?_, ?_, ?_, rfl⟩
    · intro i ha he _
      obtain rfl := honly ha he
      dsimp only
      rw [place_writeAt, if_pos rfl, length_writeAt, length_marshalTinyExtent]
      exact ⟨rfl, le_max_right _ _, mem_cons_self ..⟩
    · intro j hj
      dsimp only
      rw [place_writeAt, if_neg]
      exact fun heq => hj a (le_refl a) (lt_succ_self a) heq ⟨htiny, hpunched, hwritten⟩
    · dsimp only
      rw [length_writeAt]
      exact le_max_left _ _
    · exact fun x hx => mem_cons_of_mem _ hx
    · intro n
      have hbase : n ≤ (if s.baseTinyDeleteOffset < 24 * (a + 1) then 24 * (a + 1)
          else s.baseTinyDeleteOffset) ↔ n ≤ s.baseTinyDeleteOffset ∨ n ≤ 24 * (a + 1) := by
        split <;> omega
      refine hbase.trans (or_congr_right ⟨fun hn => ?_, ?_⟩)
      · exact ⟨a, le_refl a, lt_succ_self a, ⟨htiny, hpunched, hwritten⟩, hn⟩
      · rintro ⟨i, ha, he, _, hn⟩
        obtain rfl := honly ha he
        exact hn
  -- the extents may have changed, but nothing was recorded
  have hnone (t : TinyDeleteLog) (hfile : t.tinyExtentDeleteFp = s.tinyExtentDeleteFp)
      (hbase : t.baseTinyDeleteOffset = s.baseTinyDeleteOffset)
      (hsize : t.dataSize = s.dataSize) (hpunched : s.punched ⊆ t.punched) :
      Replayed outcome sent s t a (a + 1) := by
    refine ⟨?_, fun _ _ => hfile ▸ rfl, hfile ▸ le_refl _, hpunched, ?_, hsize⟩
    · intro i ha he hi
      exact absurd (honly ha he ▸ hi) hrep
    · intro n
      rw [hbase]
      refine ⟨.inl, ?_⟩
      rintro (hn | ⟨i, ha, he, hi, _⟩)
      · exact hn
      · exact absurd (honly ha he ▸ hi) hrep
  split
  next htiny =>
    obtain ⟨w, hsize, hfits⟩ := hw htiny
    unfold markDelete
    rw [hsize]
    dsimp only
    unfold tinyDelete
    rw [if_neg hfits]
    split
    next hpunched =>
      unfold recordTinyDelete
      rw [if_neg fun hwritten => hrep ⟨htiny, hpunched, hwritten⟩]
      exact hnone _ rfl rfl rfl fun x hx => mem_cons_of_mem _ hx
    · exact hnone s rfl rfl rfl (refl _)
  · exact hnone s rfl rfl rfl (refl _)

theorem Replayed.trans {u : TinyDeleteLog} {m : Nat} (ha : a ≤ m) (he : m ≤ e)
    (h₁ : Replayed outcome sent s t a m) (h₂ : Replayed outcome sent t u m e) :
    Replayed outcome sent s u a e where
  moved := by
    intro i hai hie hi
    by_cases him : i < m
    · obtain ⟨hplace, hlen, hmem⟩ := h₁.moved i hai him hi
      refine ⟨?_, Nat.le_trans hlen h₂.length, h₂.punched hmem⟩
      rw [h₂.other (i + 1) fun k hk _ heq => absurd heq (by omega)]
      exact hplace
    · exact h₂.moved i (Nat.le_of_not_lt him) hie hi
  other := by
    intro j hj
    rw [h₂.other j fun i hmi hie => hj i (Nat.le_trans ha hmi) hie,
      h₁.other j fun i hai him => hj i hai (Nat.lt_of_lt_of_le him he)]
  length := Nat.le_trans h₁.length h₂.length
  punched := List.Subset.trans h₁.punched h₂.punched
  base := by
    intro n
    rw [h₂.base, h₁.base]
    constructor
    · rintro ((hn | ⟨i, hai, him, hi⟩) | ⟨i, hmi, hie, hi⟩)
      · exact .inl hn
      · exact .inr ⟨i, hai, Nat.lt_of_lt_of_le him he, hi⟩
      · exact .inr ⟨i, Nat.le_trans ha hmi, hie, hi⟩
    · rintro (hn | ⟨i, hai, hie, hi⟩)
      · exact .inl (.inl hn)
      · by_cases him : i < m
        · exact .inl (.inr ⟨i, hai, him, hi⟩)
        · exact .inr ⟨i, Nat.le_of_not_lt him, hie, hi⟩
  dataSize := h₂.dataSize.trans h₁.dataSize

theorem replayed_records (outcome : Nat → DeleteOutcome) (sent : Nat → TinyDeleteRecord) (n : Nat)
    (hw : ∀ i, a ≤ i → i < a + n → s.Within (sent i)) : Replayed outcome sent s
      (replayRecords outcome ((range' a n).map sent) s (24 * a)) a (a + n) := by
  induction n generalizing a s with
  | zero => exact replayed_refl s a
  | succ n ih =>
    have hone := replayed_one outcome (hw a (le_refl a) (by omega))
    rw [range'_succ, map_cons, replayRecords]
    refine hone.trans (le_succ a) (by omega) ?_
    have hrest := ih (a := a + 1) (s := if isTinyExtent (sent a).extentID then
        s.markDelete (sent a) (24 * (a + 1)) (outcome (24 * (a + 1))) else s) ?_
    · rw [show a + (n + 1) = a + 1 + n by omega]
      exact hrest
    · intro i hai hie
      unfold Within
      rw [hone.dataSize]
      exact hw i (by omega) (by omega)

/-! Which records a run gets. -/

/-- The record that the leader sends from its `i`-th place, if the first place that it sends is
`a`. -/
def sentAt (files : List Bytes) (a i : Nat) : TinyDeleteRecord :=
  place (files.getD ((i - a) / 100000) []) i

/-- Where a run from place `a` ends that has to get to place `b`, if the leader is at place `h`: it
takes whole rounds. -/
def sentEnd (a b h : Nat) : Nat := min h (a + (b - a + 99999) / 100000 * 100000)

theorem replayRecords_append (l l' : List TinyDeleteRecord) (s : TinyDeleteLog) (n : Nat) :
    replayRecords outcome (l ++ l') s n =
      replayRecords outcome l' (replayRecords outcome l s n) (n + 24 * l.length) := by
  induction l generalizing s n with
  | nil => rfl
  | cons r l ih =>
    rw [cons_append, replayRecords, ih, replayRecords, length_cons]
    congr 1
    unfold everyTinyDeleteRecordSize
    omega

variable {c : Nat} {files : List Bytes}

theorem recordsOf_readAt {body : Bytes} {a : Nat} (files : List Bytes)
    (hread : readAt file (24 * a) (24 * c) = some body) (hc : c ≤ 100000) :
    recordsOf body = (range' a c).map (sentAt (file :: files) a) ∧ body.length = 24 * c := by
  have hlen : body.length = 24 * c := by
    unfold readAt at hread
    split at hread
    · cases hread
      rw [length_take, length_drop]
      omega
    · cases hread
  refine ⟨?_, hlen⟩
  unfold recordsOf everyTinyDeleteRecordSize
  rw [hlen, Nat.mul_div_cancel_left c (by omega), range'_eq_map_range, map_map]
  refine map_congr_left fun index hindex => ?_
  have hlt := mem_range.mp hindex
  dsimp only [Function.comp]
  unfold sentAt place
  rw [(block_readAt hread hlt).2, Nat.add_sub_cancel_left,
    Nat.div_eq_of_lt (Nat.lt_of_lt_of_le hlt hc)]
  rfl

theorem sentAt_next (hc : c = min (h - a) 100000) (hi : a + c ≤ i) (hih : i < h) :
    sentAt (file :: files) a i = sentAt files (a + c) i := by
  have hfull : c = 100000 := by omega
  have hround : (i - a) / 100000 = (i - (a + c)) / 100000 + 1 := by omega
  unfold sentAt
  rw [hround]
  rfl

theorem readReplies_sent {checksumIEEE : Bytes → UInt32}
    (hrun : readReplies checksumIEEE outcome (24 * b)
      (sendTinyDeletes checksumIEEE files (24 * (h - a)) (24 * a)) s (24 * a) = (t, none)) :
    (a < b → b ≤ sentEnd a b h) ∧ t = replayRecords outcome
      ((range' a (sentEnd a b h - a)).map (sentAt files a)) s (24 * a) := by
  induction files generalizing a s with
  | nil =>
    unfold readReplies at hrun
    split at hrun
    next hle =>
      have hend : sentEnd a b h - a = 0 := by
        unfold sentEnd
        omega
      rw [hend]
      exact ⟨fun hab => absurd hle (by omega), (Prod.mk.inj hrun).1.symm⟩
    · cases hrun
  | cons file files ih =>
    unfold readReplies at hrun
    split at hrun
    next hle =>
      have hend : sentEnd a b h - a = 0 := by
        unfold sentEnd
        omega
      rw [hend]
      exact ⟨fun hab => absurd hle (by omega), (Prod.mk.inj hrun).1.symm⟩
    rename_i hlt
    have hab : a < b := by omega
    unfold sendTinyDeletes at hrun
    by_cases hneed : 24 * (h - a) = 0
    · rw [if_pos hneed] at hrun
      cases hrun
    rw [if_neg hneed] at hrun
    have hah : a < h := by omega
    obtain ⟨c, hc⟩ : ∃ c, c = min (h - a) 100000 := ⟨_, rfl⟩
    have hcurr : min (24 * (h - a)) maxSyncTinyDeleteBufferSize = 24 * c := by
      unfold maxSyncTinyDeleteBufferSize
      omega
    dsimp only at hrun
    rw [hcurr] at hrun
    cases hread : readAt file (24 * a) (24 * c) with
    | none =>
      rw [hread] at hrun
      cases hrun
    | some body =>
      rw [hread] at hrun
      obtain ⟨hrecords, hlen⟩ := recordsOf_readAt files hread (by omega)
      dsimp only at hrun
      rw [if_neg (fun hne => hne rfl), if_neg (by
        unfold everyTinyDeleteRecordSize
        omega), hrecords, length_map, length_range',
        show 24 * (h - a) - 24 * c = 24 * (h - (a + c)) by omega,
        show 24 * a + 24 * c = 24 * (a + c) by omega,
        show 24 * a + c * everyTinyDeleteRecordSize = 24 * (a + c) by
          unfold everyTinyDeleteRecordSize
          omega] at hrun
      obtain ⟨hend, rfl⟩ := ih hrun
      have hnext : sentEnd (a + c) b h = sentEnd a b h := by
        unfold sentEnd
        omega
      rw [hnext] at hend ⊢
      have hsplit : a + c ≤ sentEnd a b h := by
        unfold sentEnd
        omega
      refine ⟨fun _ => ?_, ?_⟩
      · by_cases hlast : a + c < b
        · exact hend hlast
        · omega
      · have hmap : (range' (a + c) (sentEnd a b h - (a + c))).map
            (sentAt files (a + c)) =
            (range' (a + c) (sentEnd a b h - (a + c))).map (sentAt (file :: files) a) := by
          refine map_congr_left fun i hi => ?_
          obtain ⟨hlo, hhi⟩ := mem_range'_1.mp hi
          refine (sentAt_next hc hlo ?_).symm
          have : sentEnd a b h ≤ h := min_le_left _ _
          omega
        rw [hmap, show sentEnd a b h - a = c + (sentEnd a b h - (a + c)) by omega,
          ← range'_append_1, map_append, replayRecords_append, length_map,
          length_range', show 24 * a + 24 * c = 24 * (a + c) by omega]

end TinyDeleteLog

/-! The logs that leaders and followers come to have. -/

structure TinyDeleteLeader where
  log : TinyDeleteLog
  handed : List Nat

namespace TinyDeleteLeader

inductive Event
  | next
  | record (r : TinyDeleteRecord) (tinyDeleteFileOffset : Nat)
  | restart

/-- Only `tinyDelete` records deletions, and only for tiny extents. -/
def step (l : TinyDeleteLeader) : Event → Option TinyDeleteLeader
  | .next => some
    { log := l.log.nextTinyDeleteFileOffset
      handed := l.log.nextTinyDeleteFileOffset.baseTinyDeleteOffset :: l.handed }
  | .record r offset =>
    if isTinyExtent r.extentID = true ∧ offset ∈ l.handed then some
      { log := l.log.recordTinyDelete r offset true
        handed := l.handed.erase offset }
    else none
  | .restart => some { log := l.log.restart, handed := [] }

def new (dataSize : UInt64 → Option Int64) : TinyDeleteLeader := ⟨.newExtentStore dataSize, []⟩

theorem aligned_step {l l' : TinyDeleteLeader} (h : l.log.Aligned ∧ ∀ o ∈ l.handed, 24 ∣ o)
    {e : Event} (hs : l.step e = some l') : l'.log.Aligned ∧ ∀ o ∈ l'.handed, 24 ∣ o := by
  obtain ⟨halign, hhanded⟩ := h
  obtain ⟨hfile, hbase, hlen⟩ := halign
  cases e with
  | next =>
    cases hs
    have hnext : 24 ∣ l.log.baseTinyDeleteOffset + everyTinyDeleteRecordSize :=
      Nat.dvd_add hbase (Nat.dvd_refl 24)
    refine ⟨⟨hfile, hnext, Nat.le_trans hlen (Nat.le_add_right _ 24)⟩, ?_⟩
    intro o ho
    obtain rfl | ho := mem_cons.mp ho
    · exact hnext
    · exact hhanded o ho
  | record r offset =>
    dsimp only [step] at hs
    split at hs
    next hok =>
      cases hs
      refine ⟨.recordTinyDelete ⟨hfile, hbase, hlen⟩ r (hhanded offset hok.2) true, ?_⟩
      exact fun o ho => hhanded o (mem_of_mem_erase ho)
    · cases hs
  | restart =>
    cases hs
    exact ⟨⟨hfile, hfile, Nat.le_add_right _ _⟩, nofun⟩

theorem aligned_run {allow : TinyDeleteLeader → Event → Prop} {l₀ l : TinyDeleteLeader}
    (hr : Reach step allow l₀ l) (h₀ : l₀.log.Aligned ∧ ∀ o ∈ l₀.handed, 24 ∣ o) :
    l.log.Aligned ∧ ∀ o ∈ l.handed, 24 ∣ o :=
  hr.invariant h₀
    fun _ _ _ h _ hs => aligned_step h hs

theorem aligned_new (dataSize : UInt64 → Option Int64) :
    (new dataSize).log.Aligned ∧ ∀ o ∈ (new dataSize).handed, 24 ∣ o :=
  ⟨⟨dvd_zero 24, dvd_zero 24, zero_le _⟩, nofun⟩

end TinyDeleteLeader

namespace TinyDeleteLog

inductive Event
  | next
  | markDelete (r : TinyDeleteRecord) (tinyDeleteFileOffset : Nat) (o : DeleteOutcome)
  | resize (extentID : UInt64) (dataSize : Int64)
  | restart

def step (s : TinyDeleteLog) : Event → Option TinyDeleteLog
  | .next => some s.nextTinyDeleteFileOffset
  | .markDelete r offset o => some (s.markDelete r offset o)
  | .resize id size => some { s with dataSize := Function.update s.dataSize id (some size) }
  | .restart => some s.restart

def FromLeader (_ : TinyDeleteLog) : Event → Prop
  | .markDelete _ offset _ => 24 ∣ offset
  | _ => True

instance (s : TinyDeleteLog) (e : Event) : Decidable (FromLeader s e) :=
  match e with
  | .markDelete _ offset _ => inferInstanceAs (Decidable (24 ∣ offset))
  | .next => isTrue trivial
  | .resize _ _ => isTrue trivial
  | .restart => isTrue trivial

structure Applied (s : TinyDeleteLog) : Prop where
  aligned : s.Aligned
  punched : ∀ i, isTinyExtent (place s.tinyExtentDeleteFp i).extentID = true →
    place s.tinyExtentDeleteFp i ∈ s.punched

variable {s : TinyDeleteLog} {j : Nat}

theorem Applied.markDelete (h : s.Applied) (r : TinyDeleteRecord) (hoff : 24 ∣ offset)
    (o : DeleteOutcome) : (s.markDelete r offset o).Applied := by
  unfold TinyDeleteLog.markDelete
  split
  · exact h
  unfold tinyDelete
  split
  · exact h
  split
  · have halign : { s with punched := r :: s.punched }.Aligned := { h.aligned with }
    refine ⟨halign.recordTinyDelete r hoff o.written, ?_⟩
    obtain ⟨i, rfl⟩ := hoff
    intro j hj
    unfold recordTinyDelete at hj ⊢
    split
    next hw =>
      rw [if_pos hw] at hj
      dsimp only at hj ⊢
      rw [place_writeAt] at hj ⊢
      split
      · exact mem_cons_self ..
      next hne =>
        rw [if_neg hne] at hj
        exact mem_cons_of_mem _ (h.punched j hj)
    next hw =>
      rw [if_neg hw] at hj
      exact mem_cons_of_mem _ (h.punched j hj)
  · exact h

theorem applied_run {dataSize : UInt64 → Option Int64}
    (hr : Reach step FromLeader (newExtentStore dataSize) s) : s.Applied := by
  refine hr.invariant ?_ ?_
  · refine ⟨⟨Nat.dvd_zero 24, Nat.dvd_zero 24, Nat.zero_le _⟩, fun i hi => ?_⟩
    exact absurd (hi.symm.trans (place_eq_zero (Nat.zero_le _))) nofun
  · intro s e s' h ha hs
    obtain ⟨⟨hfile, hbase, hlen⟩, hpunched⟩ := h
    cases e with
    | next =>
      cases hs
      exact ⟨⟨hfile, Nat.dvd_add hbase (Nat.dvd_refl 24),
        Nat.le_trans hlen (Nat.le_add_right _ 24)⟩, hpunched⟩
    | markDelete r offset o =>
      cases hs
      exact Applied.markDelete ⟨⟨hfile, hbase, hlen⟩, hpunched⟩ r ha o
    | resize id size =>
      cases hs
      exact ⟨⟨hfile, hbase, hlen⟩, hpunched⟩
    | restart =>
      cases hs
      exact ⟨⟨hfile, hfile, Nat.le_add_right _ _⟩, hpunched⟩

def Holds (s : TinyDeleteLog) (i : Nat) (r : TinyDeleteRecord) : Prop :=
  s.recordAt (24 * i) = some r ∧ isTinyExtent r.extentID = true

def IsPrefixOf (s leader : TinyDeleteLog) : Prop :=
  ∀ i r, leader.Holds i r → 24 * i < s.tinyExtentDeleteFp.length → s.Holds i r

theorem Applied.holds (h : s.Applied) {i : Nat} (hr : s.Holds i r) :
    s.Holds i r ∧ r ∈ s.punched := by
  have hplace := (recordAt_eq_some.mp hr.1).2
  exact ⟨hr, hplace ▸ h.punched i (hplace ▸ hr.2)⟩

section replayed

variable {outcome : Nat → DeleteOutcome} {sent : Nat → TinyDeleteRecord} {s t : TinyDeleteLog}
  {a e : Nat} (h : Replayed outcome sent s t a e)
include h

theorem Replayed.moved_of_missing
    (hmiss : s.tinyExtentDeleteFp.length ≤ 24 * j) (hj : t.Holds j r) :
    ∃ i, a ≤ i ∧ i < e ∧ j = i + 1 ∧ Replays outcome sent i := by
  by_contra hno
  have hsame := h.other j fun i hai hie hji hi => hno ⟨i, hai, hie, hji, hi⟩
  have htiny := hj.2
  rw [← (recordAt_eq_some.mp hj.1).2, hsame, place_eq_zero hmiss] at htiny
  cases htiny

theorem Replayed.kept (hs : s.Aligned) (hbase : s.baseTinyDeleteOffset = 24 * a)
    (hj : s.Holds j r) : t.Holds j r := by
  obtain ⟨hlen, hplace⟩ := recordAt_eq_some.mp hj.1
  refine ⟨recordAt_eq_some.mpr ⟨le_trans hlen h.length, ?_⟩, hj.2⟩
  rw [h.other j ?_]
  · exact hplace
  · intro i hai _ hji
    have := hs.length
    omega

end replayed
end TinyDeleteLog

/-- A run of the synchronisation: the leader when the task is built, when it gets the request and at
each round of its reply, and what the follower's kernel answers. -/
structure TinyDeleteExchange where
  checksumIEEE : Bytes → UInt32
  outcome : Nat → DeleteOutcome
  built : TinyDeleteLeader
  handling : TinyDeleteLeader
  rounds : List TinyDeleteLeader

namespace TinyDeleteExchange

variable (x : TinyDeleteExchange)

def files : List Bytes := x.rounds.map fun l => l.log.tinyExtentDeleteFp

def run (s : TinyDeleteLog) : TinyDeleteLog.SyncResult :=
  s.doStreamFixTinyDeleteRecord x.checksumIEEE x.outcome x.built.log.baseTinyDeleteOffset false
    (handlePacketToReadTinyDelete x.checksumIEEE x.handling.log x.files)

def wanted (s : TinyDeleteLog) : Nat := s.baseTinyDeleteOffset / 24

def target : Nat := x.built.log.baseTinyDeleteOffset / 24

def reached : Nat := x.handling.log.baseTinyDeleteOffset / 24

/-- The record that the leader sends from its `i`-th place. -/
def sent (s : TinyDeleteLog) (i : Nat) : TinyDeleteRecord :=
  TinyDeleteLog.sentAt x.files (wanted s) i

def sentEnd (s : TinyDeleteLog) : Nat := TinyDeleteLog.sentEnd (wanted s) x.target x.reached

def Replays (s : TinyDeleteLog) (i : Nat) : Prop :=
  TinyDeleteLog.Replays x.outcome (x.sent s) i

structure Valid : Prop where
  built : ∃ dataSize, Reach TinyDeleteLeader.step (fun _ _ => True) (.new dataSize) x.built
  handling : Reach TinyDeleteLeader.step (fun _ _ => True) x.built x.handling
  rounds : ∀ l ∈ x.rounds, Reach TinyDeleteLeader.step (fun _ _ => True) x.handling l

def RepeatsMissing (s : TinyDeleteLog) : Prop :=
  (∀ i r, x.built.log.Holds i r → s.tinyExtentDeleteFp.length ≤ 24 * i →
    wanted s < i ∧ x.sent s (i - 1) = r ∧ x.Replays s (i - 1)) ∧
  (wanted s < x.target → ∃ i, x.target ≤ i + 1 ∧ wanted s ≤ i ∧ i < x.sentEnd s ∧ x.Replays s i)

variable {x} {s : TinyDeleteLog}

theorem Valid.replayed (hx : x.Valid) (hs : s.Applied) (hend : (x.run s).err = none)
    (hin : ∀ i, wanted s ≤ i → i < x.sentEnd s → s.Within (x.sent s i)) :
    s.baseTinyDeleteOffset = 24 * wanted s ∧ x.built.log.baseTinyDeleteOffset = 24 * x.target ∧
      (x.target ≤ wanted s ∧ (x.run s).log = s ∨ wanted s < x.target ∧ x.target ≤ x.sentEnd s ∧
        TinyDeleteLog.Replayed x.outcome (x.sent s) s (x.run s).log (wanted s) (x.sentEnd s)) := by
  obtain ⟨dataSize, hbuilt⟩ := hx.built
  have hb := TinyDeleteLeader.aligned_run hbuilt (TinyDeleteLeader.aligned_new dataSize)
  have hh := TinyDeleteLeader.aligned_run hx.handling hb
  have hbase : s.baseTinyDeleteOffset = 24 * wanted s := (Nat.mul_div_cancel' hs.aligned.base).symm
  have htarget : x.built.log.baseTinyDeleteOffset = 24 * x.target :=
    (Nat.mul_div_cancel' hb.1.base).symm
  have hreached : x.handling.log.baseTinyDeleteOffset = 24 * x.reached :=
    (Nat.mul_div_cancel' hh.1.base).symm
  refine ⟨hbase, htarget, ?_⟩
  unfold run TinyDeleteLog.doStreamFixTinyDeleteRecord handlePacketToReadTinyDelete at hend ⊢
  rw [hreached, htarget] at hend ⊢
  simp only [Bool.false_eq_true, if_false] at hend ⊢
  rw [hbase, ← Nat.mul_sub] at hend ⊢
  split
  next hle => exact .inl ⟨by omega, rfl⟩
  rename_i hlt
  rw [if_neg hlt] at hend
  refine .inr ⟨by omega, ?_⟩
  generalize hres : TinyDeleteLog.readReplies _ _ _ _ _ _ = res at hend ⊢
  obtain ⟨t, err⟩ := res
  dsimp only at hend ⊢
  subst hend
  obtain ⟨hlong, rfl⟩ := TinyDeleteLog.readReplies_sent hres
  have hpos := hlong (by omega)
  refine ⟨hpos, ?_⟩
  have hcount : wanted s + (x.sentEnd s - wanted s) = x.sentEnd s := by
    have : x.target ≤ x.sentEnd s := hpos
    omega
  have := TinyDeleteLog.replayed_records x.outcome (x.sent s)
    (x.sentEnd s - wanted s) fun i hi hlt => hin i hi (hcount ▸ hlt)
  rw [hcount] at this
  exact this

theorem requested_eq_false : (x.run s).requested = false ↔
    x.built.log.baseTinyDeleteOffset ≤ s.baseTinyDeleteOffset := by
  unfold run TinyDeleteLog.doStreamFixTinyDeleteRecord
  simp only [Bool.false_eq_true, if_false]
  split
  next h => exact ⟨fun _ => h, fun _ => rfl⟩
  next h => exact ⟨nofun, fun hle => absurd hle h⟩

/-- A run of the synchronisation that ends without an error leaves the follower with every record
that the leader had when the task was built, each at its place and applied, and with nothing to ask
for a second time, exactly if the records that it lacks repeat. -/
theorem tiny_delete_sync_converges_iff (x : TinyDeleteExchange) (hx : x.Valid) {s : TinyDeleteLog}
    {dataSize : UInt64 → Option Int64}
    (hs : Reach TinyDeleteLog.step TinyDeleteLog.FromLeader (.newExtentStore dataSize) s)
    (hpre : s.IsPrefixOf x.built.log) (hend : (x.run s).err = none)
    (hin : ∀ i, wanted s ≤ i → i < x.sentEnd s → s.Within (x.sent s i)) :
    ((∀ i r, x.built.log.Holds i r → (x.run s).log.Holds i r ∧ r ∈ (x.run s).log.punched) ∧
      (x.run (x.run s).log).requested = false) ↔ x.RepeatsMissing s := by
  have happ := TinyDeleteLog.applied_run hs
  obtain ⟨hbase, htarget, hrun⟩ := hx.replayed happ hend hin
  obtain ⟨dataSize', hbuilt⟩ := hx.built
  have halign := (TinyDeleteLeader.aligned_run hbuilt (TinyDeleteLeader.aligned_new dataSize')).1
  -- the leader's records are no further than its last place
  have hlast {i : Nat} {r : TinyDeleteRecord} (h : x.built.log.Holds i r) : i ≤ x.target := by
    have hlen := (TinyDeleteLog.recordAt_eq_some.mp h.1).1
    have := halign.length
    omega
  rw [requested_eq_false, htarget]
  obtain ⟨hle, hlog⟩ | ⟨hlt, hsent, hrep⟩ := hrun
  · -- nothing is asked for: the follower must have everything
    rw [hlog, hbase]
    constructor
    · rintro ⟨hall, _⟩
      refine ⟨fun i r h hmiss => ?_, fun h => absurd hle (Nat.not_le.mpr h)⟩
      have := (TinyDeleteLog.recordAt_eq_some.mp (hall i r h).1.1).1
      omega
    · intro hrepeat
      refine ⟨fun i r h => ?_, Nat.mul_le_mul_left 24 hle⟩
      by_cases hmiss : s.tinyExtentDeleteFp.length ≤ 24 * i
      · have := (hrepeat.1 i r h hmiss).1
        have := hlast h
        omega
      · exact happ.holds (hpre i r h (Nat.lt_of_not_le hmiss))
  · constructor
    · rintro ⟨hall, hagain⟩
      refine ⟨fun i r h hmiss => ?_, fun _ => ?_⟩
      · obtain ⟨i, hai, hie, rfl, hr⟩ := hrep.moved_of_missing hmiss (hall i r h).1
        obtain ⟨hplace, _, _⟩ := hrep.moved i hai hie hr
        refine ⟨Nat.lt_succ_of_le hai, ?_, hr⟩
        exact hplace.symm.trans (TinyDeleteLog.recordAt_eq_some.mp (hall _ r h).1.1).2
      · obtain hold | ⟨i, hai, hie, hr, hn⟩ := (hrep.base _).mp hagain
        · omega
        · exact ⟨i, by omega, hai, hie, hr⟩
    · intro hrepeat
      refine ⟨fun i r h => ?_, ?_⟩
      · by_cases hmiss : s.tinyExtentDeleteFp.length ≤ 24 * i
        · obtain ⟨hi, hsame, hr⟩ := hrepeat.1 i r h hmiss
          obtain ⟨i, rfl⟩ := Nat.exists_eq_succ_of_ne_zero (Nat.ne_zero_of_lt hi)
          obtain ⟨hplace, hlen, hmem⟩ := hrep.moved i (by omega) (by have := hlast h; omega) hr
          rw [Nat.succ_sub_one] at hsame
          rw [hsame] at hplace hmem
          exact ⟨⟨TinyDeleteLog.recordAt_eq_some.mpr ⟨hlen, hplace⟩, h.2⟩, hmem⟩
        · obtain ⟨hold, hmem⟩ := happ.holds (hpre i r h (Nat.lt_of_not_le hmiss))
          exact ⟨hrep.kept happ.aligned hbase hold, hrep.punched hmem⟩
      · obtain ⟨i, hi, hai, hie, hr⟩ := hrepeat.2 hlt
        exact (hrep.base _).mpr (.inr ⟨i, hai, hie, hr, by omega⟩)

def page (offset : Int64) : TinyDeleteRecord := ⟨1, offset, 4096⟩

def twice (r r' : TinyDeleteRecord) : List TinyDeleteLeader.Event :=
  [.next, .record r 24, .next, .record r' 48]

def leaderOf (r r' : TinyDeleteRecord) : TinyDeleteLeader where
  log := ⟨writeAt (writeAt [] (marshalTinyExtent r) 24) (marshalTinyExtent r') 48, 48,
    fun _ => none, []⟩
  handed := []

def quiet (r r' : TinyDeleteRecord) : TinyDeleteExchange :=
  ⟨fun _ => 0, fun _ => ⟨true, true⟩, leaderOf r r', leaderOf r r', [leaderOf r r']⟩

theorem quiet_valid {o o' : Int64} : (quiet (page o) (page o')).Valid where
  built := ⟨fun _ => none, .of_foldlM (twice (page o) (page o')) rfl (fun _ _ _ => trivial) .start⟩
  handling := .start
  rounds := fun _ hl => mem_singleton.mp hl ▸ .start

theorem leaderOf_holds {o o' : Int64} {i : Nat} (h : (leaderOf (page o) (page o')).log.Holds i r) :
    i = 1 ∧ r = page o ∨ i = 2 ∧ r = page o' := by
  obtain ⟨hlen, hplace⟩ := TinyDeleteLog.recordAt_eq_some.mp h.1
  have hi : i < 3 := by
    unfold leaderOf at hlen
    simp only [length_writeAt, length_marshalTinyExtent, length_nil] at hlen
    omega
  have hfile : TinyDeleteLog.place (leaderOf (page o) (page o')).log.tinyExtentDeleteFp i =
      if i = 2 then page o' else if i = 1 then page o else TinyDeleteLog.place [] i := by
    have h₁ := TinyDeleteLog.place_writeAt [] (page o) 1 i
    have h₂ := TinyDeleteLog.place_writeAt (writeAt [] (marshalTinyExtent (page o)) (24 * 1))
      (page o') 2 i
    rw [h₁] at h₂
    exact h₂
  rw [hfile] at hplace
  split at hplace
  next h2 => exact .inr ⟨h2, hplace.symm⟩
  split at hplace
  next h1 => exact .inl ⟨h1, hplace.symm⟩
  · have htiny := h.2
    rw [← hplace, TinyDeleteLog.place_eq_zero (zero_le _)] at htiny
    cases htiny

def follower : TinyDeleteLog :=
  { TinyDeleteLog.newExtentStore (fun _ => some 8192) with
    tinyExtentDeleteFp := writeAt [] (marshalTinyExtent (page 0)) 24
    baseTinyDeleteOffset := 24
    punched := [page 0] }

theorem follower_reach : Reach TinyDeleteLog.step TinyDeleteLog.FromLeader
    (.newExtentStore fun _ => some 8192) follower :=
  .of_checked [.markDelete (page 0) 24 ⟨true, true⟩] rfl .start

theorem tiny_delete_sync_converges_iff_equal : (∀ i r, (leaderOf (page 0) (page 0)).log.Holds i r →
      ((quiet (page 0) (page 0)).run follower).log.Holds i r ∧
        r ∈ ((quiet (page 0) (page 0)).run follower).log.punched) ∧
      ((quiet (page 0) (page 0)).run ((quiet (page 0) (page 0)).run follower).log).requested =
        false := by
  refine (tiny_delete_sync_converges_iff (quiet (page 0) (page 0)) quiet_valid follower_reach
    ?_ (by decide +kernel) ?_).mpr ⟨?_, ?_⟩
  · intro i r h hi
    obtain ⟨rfl, rfl⟩ | ⟨rfl, rfl⟩ := leaderOf_holds h
    · exact ⟨rfl, rfl⟩
    · exact absurd hi (by decide)
  · intro i hi hlt
    obtain rfl : i = 1 := by
      have hw : wanted follower = 1 := rfl
      have he : (quiet (page 0) (page 0)).sentEnd follower = 2 := rfl
      omega
    exact fun _ => ⟨8192, rfl, by decide⟩
  · intro i r h hmiss
    obtain ⟨rfl, rfl⟩ | ⟨rfl, rfl⟩ := leaderOf_holds h
    · exact absurd hmiss (by decide)
    · exact ⟨by decide, rfl, rfl, rfl, rfl⟩
  · exact fun _ => ⟨1, by decide, by decide, by decide, rfl, rfl, rfl⟩

/-- A follower without records gets the leader's first record at the place of the second one; the
second record it does not get. -/
theorem shifted_tiny_delete_sync : (quiet (page 0) (page 4096)).Valid ∧
    (TinyDeleteLog.newExtentStore fun _ => some 8192).IsPrefixOf
      (quiet (page 0) (page 4096)).built.log ∧
    ((quiet (page 0) (page 4096)).run (.newExtentStore fun _ => some 8192)).err = none ∧
    (∀ i, i < (quiet (page 0) (page 4096)).sentEnd (.newExtentStore fun _ => some 8192) →
      (TinyDeleteLog.newExtentStore fun _ => some 8192).Within
        ((quiet (page 0) (page 4096)).sent (.newExtentStore fun _ => some 8192) i)) ∧
    (quiet (page 0) (page 4096)).built.log.Holds 1 (page 0) ∧
    (quiet (page 0) (page 4096)).built.log.Holds 2 (page 4096) ∧
    ¬ ((quiet (page 0) (page 4096)).run (.newExtentStore fun _ => some 8192)).log.Holds 1
      (page 0) ∧
    ((quiet (page 0) (page 4096)).run (.newExtentStore fun _ => some 8192)).log.Holds 2 (page 0) ∧
    page 4096 ∉ ((quiet (page 0) (page 4096)).run
      (.newExtentStore fun _ => some 8192)).log.punched := by
  refine ⟨quiet_valid, fun i r _ hi => absurd hi (not_lt_zero _), by decide +kernel, ?_,
    ⟨by decide +kernel, rfl⟩, ⟨by decide +kernel, rfl⟩, ?_, ⟨by decide +kernel, rfl⟩,
    by decide +kernel⟩
  · intro i hi
    have he : (quiet (page 0) (page 4096)).sentEnd (.newExtentStore fun _ => some 8192) = 2 := rfl
    obtain rfl | rfl : i = 0 ∨ i = 1 := by omega
    · exact fun h => absurd h (by decide)
    · exact fun _ => ⟨8192, rfl, by decide⟩
  · rintro ⟨h, _⟩
    revert h
    decide +kernel

end TinyDeleteExchange
end ChubaoFS
