import Mathlib.Tactic.Ring

abbrev Bytes := List UInt8

namespace Bytes

open List
open Except (ok)

/-- The `n` low-order bytes of a number, most significant byte first. -/
def bigEndian : Nat → Nat → Bytes
  | 0, _ => []
  | n + 1, x => UInt8.ofNat (x / 256 ^ n) :: bigEndian n x

def toNat (b : Bytes) : Nat := b.foldl (fun acc x => acc * 256 + x.toNat) 0

@[simp] theorem length_bigEndian (n x : Nat) : (bigEndian n x).length = n := by
  induction n with
  | zero => rfl
  | succ n ih => simp [bigEndian, ih]

theorem foldl_bigEndian (n x acc : Nat) :
    (bigEndian n x).foldl (fun acc y => acc * 256 + y.toNat) acc = acc * 256 ^ n + x % 256 ^ n := by
  induction n generalizing acc with
  | zero => simp [bigEndian, Nat.mod_one]
  | succ n ih =>
    rw [bigEndian, foldl_cons, ih]
    have hbyte : (UInt8.ofNat (x / 256 ^ n)).toNat = x / 256 ^ n % 256 := by simp
    have hsplit : x % 256 ^ (n + 1) = x % 256 ^ n + 256 ^ n * (x / 256 ^ n % 256) := by
      rw [Nat.pow_succ, Nat.mod_mul]
    rw [hbyte, hsplit]
    ring

theorem toNat_bigEndian (n x : Nat) : toNat (bigEndian n x) = x % 256 ^ n := by
  simp [toNat, foldl_bigEndian]

def putUInt32 (x : UInt32) : Bytes := bigEndian 4 x.toNat

def putUInt64 (x : UInt64) : Bytes := bigEndian 8 x.toNat

def putInt32 (x : Int32) : Bytes := putUInt32 x.toUInt32

def putInt64 (x : Int64) : Bytes := putUInt64 x.toUInt64

def putSized (b : Bytes) : Bytes := putUInt32 (UInt32.ofNat b.length) ++ b

def toUInt32 (b : Bytes) : UInt32 := UInt32.ofNat (toNat b)

def toUInt64 (b : Bytes) : UInt64 := UInt64.ofNat (toNat b)

@[simp] theorem length_putUInt32 (x : UInt32) : (putUInt32 x).length = 4 := length_bigEndian 4 _

@[simp] theorem length_putUInt64 (x : UInt64) : (putUInt64 x).length = 8 := length_bigEndian 8 _

@[simp] theorem toUInt32_putUInt32 (x : UInt32) : toUInt32 (putUInt32 x) = x := by
  have hx : x.toNat % 256 ^ 4 = x.toNat := Nat.mod_eq_of_lt (by simpa using x.toNat_lt)
  rw [toUInt32, putUInt32, toNat_bigEndian, hx, UInt32.ofNat_toNat]

@[simp] theorem toUInt64_putUInt64 (x : UInt64) : toUInt64 (putUInt64 x) = x := by
  have hx : x.toNat % 256 ^ 8 = x.toNat := Nat.mod_eq_of_lt (by simpa using x.toNat_lt)
  rw [toUInt64, putUInt64, toNat_bigEndian, hx, UInt64.ofNat_toNat]

theorem putUInt64_injective {x y : UInt64} (h : putUInt64 x = putUInt64 y) : x = y := by
  rw [← toUInt64_putUInt64 x, h, toUInt64_putUInt64]

/-! Reads from a buffer, with the errors the reader of the byte stream reports. -/

inductive ReadErr
  | eof
  | unexpectedEOF
  deriving DecidableEq, Repr

/-- Read exactly `n` bytes. -/
def readFull (n : Nat) (b : Bytes) : Except ReadErr (Bytes × Bytes) :=
  if n = 0 then .ok ([], b)
  else if b = [] then .error .eof
  else if b.length < n then .error .unexpectedEOF
  else .ok (b.take n, b.drop n)

/-- Read into a zeroed slice of `n` bytes: a short buffer fills only its front,
and only an empty buffer is an error. -/
def readSlice (n : Nat) (b : Bytes) : Except ReadErr (Bytes × Bytes) :=
  if b = [] then if n = 0 then .ok ([], []) else .error .eof
  else .ok (b.take n ++ List.replicate (n - b.length) 0, b.drop n)

def readUInt32 (b : Bytes) : Except ReadErr (UInt32 × Bytes) :=
  (readFull 4 b).map fun (x, rest) => (toUInt32 x, rest)

def readUInt64 (b : Bytes) : Except ReadErr (UInt64 × Bytes) :=
  (readFull 8 b).map fun (x, rest) => (toUInt64 x, rest)

def readInt32 (b : Bytes) : Except ReadErr (Int32 × Bytes) :=
  (readUInt32 b).map fun (x, rest) => (x.toInt32, rest)

def readInt64 (b : Bytes) : Except ReadErr (Int64 × Bytes) :=
  (readUInt64 b).map fun (x, rest) => (x.toInt64, rest)

variable {n : Nat} {x : Bytes}

theorem readFull_append (rest : Bytes) (h : x.length = n) :
    readFull n (x ++ rest) = .ok (x, rest) := by
  subst h
  unfold readFull
  cases x with
  | nil => simp
  | cons y ys => simp

variable {b : Bytes}

theorem readFull_short (h : b.length < n) : ∃ e, readFull n b = .error e := by
  have hn : n ≠ 0 := by omega
  by_cases hb : b = []
  · exact ⟨.eof, by rw [readFull, if_neg hn, if_pos hb]⟩
  · exact ⟨.unexpectedEOF, by rw [readFull, if_neg hn, if_neg hb, if_pos h]⟩

variable {rest : Bytes}

theorem length_of_readSlice (h : readSlice n b = .ok (x, rest)) :
    x.length = n ∧ rest.length = b.length - n := by
  unfold readSlice at h
  split at h
  next hb =>
    split at h
    next hn =>
      obtain ⟨rfl, rfl⟩ := Prod.mk.inj (ok.inj h)
      rw [hb, hn]
      exact ⟨rfl, rfl⟩
    · cases h
  obtain ⟨rfl, rfl⟩ := Prod.mk.inj (ok.inj h)
  rw [length_append, length_take, length_replicate, length_drop]
  exact ⟨by omega, rfl⟩

theorem readSlice_append (rest : Bytes) (h : x.length = n) :
    readSlice n (x ++ rest) = .ok (x, rest) := by
  subst h
  unfold readSlice
  cases x with
  | nil => cases rest <;> simp
  | cons y ys => simp

@[simp] theorem readUInt32_put (x : UInt32) (rest : Bytes) :
    readUInt32 (putUInt32 x ++ rest) = .ok (x, rest) := by
  simp [readUInt32, readFull_append, Except.map]

@[simp] theorem readUInt64_put (x : UInt64) (rest : Bytes) :
    readUInt64 (putUInt64 x ++ rest) = .ok (x, rest) := by
  simp [readUInt64, readFull_append, Except.map]

@[simp] theorem readInt32_put (x : Int32) (rest : Bytes) :
    readInt32 (putInt32 x ++ rest) = .ok (x, rest) := by
  simp [readInt32, putInt32, Except.map]

@[simp] theorem readInt64_put (x : Int64) (rest : Bytes) :
    readInt64 (putInt64 x ++ rest) = .ok (x, rest) := by
  simp [readInt64, putInt64, Except.map]

variable {α β ε ε' : Type}

theorem bind_eq_ok {x : Except ε α} {f : α → Except ε β} {b : β} (h : x >>= f = .ok b) :
    ∃ a, x = .ok a ∧ f a = .ok b := by
  cases x with
  | error e => cases h
  | ok a => exact ⟨a, rfl, h⟩

theorem mapError_eq_ok {x : Except ε α} {f : ε → ε'} {a : α} (h : x.mapError f = .ok a) :
    x = .ok a := by
  cases x with
  | error e => cases h
  | ok b => exact congrArg ok (ok.inj h)

theorem readFull_split (h : readFull n b = .ok (x, rest)) : x.length = n ∧ b = x ++ rest := by
  unfold readFull at h
  split at h
  next hn =>
    cases h
    exact ⟨hn.symm, rfl⟩
  split at h
  · cases h
  · split at h
    · cases h
    next hlen =>
      cases h
      exact ⟨length_take_of_le (by omega), (take_append_drop n b).symm⟩

theorem length_of_readFull (h : readFull n b = .ok (x, rest)) : b.length = n + rest.length := by
  obtain ⟨hx, hb⟩ := readFull_split h
  rw [hb, length_append, hx]

theorem length_of_map {r : Bytes → Except ReadErr (α × Bytes)} {f : α → β}
    (h : ∀ b x rest, r b = .ok (x, rest) → b.length = n + rest.length) (b : Bytes) (y : β)
    (rest : Bytes) (hr : (r b).map (fun (x, rest) => (f x, rest)) = .ok (y, rest)) :
    b.length = n + rest.length := by
  cases hb : r b with
  | ok p =>
    rw [hb] at hr
    cases hr
    exact h b p.1 p.2 hb
  | error e =>
    rw [hb] at hr
    cases hr

theorem length_of_readUInt32 : ∀ (b : Bytes) (x : UInt32) (rest : Bytes),
    readUInt32 b = .ok (x, rest) → b.length = 4 + rest.length :=
  length_of_map fun _ _ _ => length_of_readFull

theorem readUInt32_take {x y : UInt32} {rest' : Bytes} {m : Nat}
    (h : readUInt32 ((putUInt32 x ++ rest).take m) = .ok (y, rest')) : y = x := by
  have hlen := length_of_readUInt32 _ _ _ h
  have hm := length_take_le m (putUInt32 x ++ rest)
  have hall : (putUInt32 x).take m = putUInt32 x :=
    take_of_length_le (by rw [length_putUInt32]; omega)
  rw [take_append, hall, readUInt32_put] at h
  exact (Prod.mk.inj (ok.inj h)).1.symm

theorem length_of_readUInt64 : ∀ (b : Bytes) (x : UInt64) (rest : Bytes),
    readUInt64 b = .ok (x, rest) → b.length = 8 + rest.length :=
  length_of_map fun _ _ _ => length_of_readFull

theorem length_of_readInt64 : ∀ (b : Bytes) (x : Int64) (rest : Bytes),
    readInt64 b = .ok (x, rest) → b.length = 8 + rest.length :=
  length_of_map length_of_readUInt64

end Bytes
