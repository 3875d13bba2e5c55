import ChubaoFS.Base.Bytes

namespace Bytes

open List

/-! A file of records, each behind its length. -/

variable {σ ε : Type}

structure RecordErr (ε : Type) where
  header : ReadErr → ε
  body : ReadErr → ε

def readRecords (err : RecordErr ε) (put : σ → Bytes → Except ε σ) : Nat → σ → Bytes → Except ε σ
  | 0, s, _ => .ok s
  | fuel + 1, s, b =>
    if b = [] then .ok s
    else do
      let (length, b) ← (readUInt32 b).mapError err.header
      let (body, b) ← (readFull length.toNat b).mapError err.body
      let s ← put s body
      readRecords err put fuel s b

def readFile (err : RecordErr ε) (put : σ → Bytes → Except ε σ) (s : σ) (b : Bytes) :
    Except ε σ := readRecords err put (b.length + 1) s b

variable {err : RecordErr ε} {put : σ → Bytes → Except ε σ} {b : Bytes} {fuel : Nat}

theorem readRecords_fuel {fuel' : Nat} (s : σ) (h : b.length < fuel) (h' : b.length < fuel') :
    readRecords err put fuel s b = readRecords err put fuel' s b := by
  induction fuel generalizing fuel' s b with
  | zero => omega
  | succ fuel ih =>
    cases fuel' with
    | zero => omega
    | succ fuel' =>
      unfold readRecords
      split
      · rfl
      cases hlen : readUInt32 b with
      | error e => rfl
      | ok p =>
        have hp := length_of_readUInt32 _ _ _ hlen
        simp only [Except.mapError, bind, Except.bind]
        cases hbody : readFull p.1.toNat p.2 with
        | error e => rfl
        | ok q =>
          have hq := length_of_readFull hbody
          dsimp only
          cases put s q.1 with
          | error e => rfl
          | ok s' => exact ih s' (by omega) (by omega)

theorem readFile_putSized (s : σ) (x rest : Bytes) : readFile err put s (putSized x ++ rest) =
      put s (x.take (x.length % 2 ^ 32)) >>= fun s =>
        readFile err put s (x.drop (x.length % 2 ^ 32) ++ rest) := by
  have hn : (UInt32.ofNat x.length).toNat = x.length % 2 ^ 32 := by simp
  have hle : (x.take (x.length % 2 ^ 32)).length = x.length % 2 ^ 32 :=
    length_take_of_le (Nat.mod_le _ _)
  have hbody : readFull (x.length % 2 ^ 32) (x ++ rest) =
      .ok (x.take (x.length % 2 ^ 32), x.drop (x.length % 2 ^ 32) ++ rest) := by
    have hread := readFull_append (x.drop (x.length % 2 ^ 32) ++ rest) hle
    rwa [← append_assoc, take_append_drop] at hread
  have hne : putSized x ++ rest ≠ [] := by
    intro hnil
    have hlen := congrArg length hnil
    simp [putSized] at hlen
  have hlen : (x.drop (x.length % 2 ^ 32) ++ rest).length < (putSized x ++ rest).length := by
    simp only [putSized, length_append, length_drop, length_putUInt32]
    omega
  unfold readFile readRecords
  rw [if_neg hne, putSized, append_assoc, readUInt32_put]
  simp only [Except.mapError, bind, Except.bind, hn, hbody]
  cases put s (x.take (x.length % 2 ^ 32)) with
  | error e => rfl
  | ok s' =>
    rw [putSized, append_assoc] at hlen
    exact readRecords_fuel s' hlen (Nat.lt_succ_self _)

theorem readFile_putSized_of_lt (s : σ) {x : Bytes} (h : x.length < 2 ^ 32) (rest : Bytes) :
    readFile err put s (putSized x ++ rest) = put s x >>= fun s => readFile err put s rest := by
  rw [readFile_putSized, Nat.mod_eq_of_lt h, take_length, drop_length, nil_append]

theorem readRecords_invariant {P : σ → Prop} (hput : ∀ s b s', P s → put s b = .ok s' → P s')
    {s s' : σ} (hs : P s) (h : readRecords err put fuel s b = .ok s') : P s' := by
  induction fuel generalizing s b with
  | zero =>
    obtain rfl := Except.ok.inj h
    exact hs
  | succ fuel ih =>
    unfold readRecords at h
    split at h
    · obtain rfl := Except.ok.inj h
      exact hs
    obtain ⟨p, -, h⟩ := bind_eq_ok h
    obtain ⟨q, -, h⟩ := bind_eq_ok h
    obtain ⟨s₁, hp, h⟩ := bind_eq_ok h
    exact ih (hput s q.1 s₁ hs hp) h

end Bytes
