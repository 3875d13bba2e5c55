import ChubaoFS.Base.Bytes

namespace Bytes

open List

/-! Numbers written in decimal. -/

def digit (n : Nat) : UInt8 := UInt8.ofNat (48 + n)

def isDigit (b : UInt8) : Bool := 48 ≤ b.toNat && b.toNat ≤ 57

def decimalDigits : Nat → Nat → Bytes
  | 0, _ => []
  | fuel + 1, n => if n < 10 then [digit n] else decimalDigits fuel (n / 10) ++ [digit (n % 10)]

def putDecimal (n : Nat) : Bytes := decimalDigits (n + 1) n

def ofDecimal (b : Bytes) : Nat := b.foldl (fun acc d => acc * 10 + (d.toNat - 48)) 0

def scanUInt64 (b : Bytes) : Option (UInt64 × Bytes) :=
  let ds := b.takeWhile isDigit
  if ds = [] ∨ 2 ^ 64 ≤ ofDecimal ds then none
  else some (UInt64.ofNat (ofDecimal ds), b.dropWhile isDigit)

variable {n : Nat} {fuel : Nat}

theorem toNat_digit (h : n < 10) : (digit n).toNat = 48 + n := by
  unfold digit
  rw [UInt8.toNat_ofNat']
  exact Nat.mod_eq_of_lt (by omega)

theorem isDigit_digit (h : n < 10) : isDigit (digit n) = true := by
  unfold isDigit
  rw [toNat_digit h, Bool.and_eq_true, decide_eq_true_eq, decide_eq_true_eq]
  omega

theorem isDigit_of_mem_decimalDigits {d : UInt8} (h : d ∈ decimalDigits fuel n) :
    isDigit d = true := by
  induction fuel generalizing n with
  | zero => cases h
  | succ fuel ih =>
    unfold decimalDigits at h
    split at h
    next hlt =>
      rw [mem_singleton.mp h]
      exact isDigit_digit hlt
    obtain h | h := mem_append.mp h
    · exact ih h
    · rw [mem_singleton.mp h]
      exact isDigit_digit (Nat.mod_lt n (by omega))

theorem putDecimal_ne_nil (n : Nat) : putDecimal n ≠ [] := by
  unfold putDecimal decimalDigits
  split
  · exact cons_ne_nil _ _
  · exact append_ne_nil_of_right_ne_nil _ (cons_ne_nil _ _)

theorem ofDecimal_decimalDigits (h : n < fuel) : ofDecimal (decimalDigits fuel n) = n := by
  induction fuel generalizing n with
  | zero => omega
  | succ fuel ih =>
    unfold decimalDigits
    split
    next hlt =>
      rw [ofDecimal, foldl_cons, foldl_nil, toNat_digit hlt]
      omega
    rename_i hge
    have hrec := ih (show n / 10 < fuel by omega)
    rw [ofDecimal] at hrec
    rw [ofDecimal, foldl_append, hrec, foldl_cons, foldl_nil, toNat_digit (Nat.mod_lt n (by omega))]
    omega

theorem takeWhile_putDecimal (n : Nat) {rest : Bytes} (h : ∀ d ∈ rest.head?, isDigit d = false) :
    (putDecimal n ++ rest).takeWhile isDigit = putDecimal n ∧
      (putDecimal n ++ rest).dropWhile isDigit = rest := by
  have hall : ∀ d ∈ putDecimal n, isDigit d = true := fun d hd => isDigit_of_mem_decimalDigits hd
  rw [takeWhile_append_of_pos hall, dropWhile_append_of_pos hall]
  cases rest with
  | nil => simp
  | cons d rest =>
    have hd : isDigit d = false := h d rfl
    simp [hd]

theorem scanUInt64_putDecimal (x : UInt64) (rest : Bytes)
    (h : ∀ d ∈ rest.head?, isDigit d = false) :
    scanUInt64 (putDecimal x.toNat ++ rest) = some (x, rest) := by
  obtain ⟨ht, hd⟩ := takeWhile_putDecimal x.toNat h
  unfold scanUInt64
  dsimp only
  rw [ht, hd, putDecimal, ofDecimal_decimalDigits (Nat.lt_succ_self _), if_neg, UInt64.ofNat_toNat]
  rintro (hnil | hbig)
  · exact putDecimal_ne_nil _ hnil
  · exact absurd x.toNat_lt (by omega)

end Bytes
