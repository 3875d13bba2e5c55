import Mathlib.Data.List.GetD
import ChubaoFS.Base.Bytes

namespace Bytes

open List

/-! Files that are written and read at offsets, and the blocks of equal size that they hold. -/

def writeAt (file data : Bytes) (offset : Nat) : Bytes :=
  file.take offset ++ List.replicate (offset - file.length) 0 ++ data ++
    file.drop (offset + data.length)

def readAt (file : Bytes) (offset size : Nat) : Option Bytes :=
  if offset + size ≤ file.length then some ((file.drop offset).take size) else none

@[simp] theorem length_writeAt (file data : Bytes) (offset : Nat) :
    (writeAt file data offset).length = max file.length (offset + data.length) := by
  unfold writeAt
  simp only [length_append, length_take, length_replicate, length_drop]
  omega

theorem getD_writeAt (file data : Bytes) (offset k : Nat) : (writeAt file data offset).getD k 0 =
      if offset ≤ k ∧ k < offset + data.length then data.getD (k - offset) 0
      else file.getD k 0 := by
  have hpre : (file.take offset ++ replicate (offset - file.length) (0 : UInt8)).length =
      offset := by
    simp only [length_append, length_take, length_replicate]
    omega
  unfold writeAt
  rw [append_assoc]
  split
  next h =>
    rw [getD_append_right _ _ _ _ (by omega), hpre, getD_append _ _ _ _ (by omega)]
  rename_i h
  by_cases hk : k < offset
  · rw [getD_append _ _ _ _ (by omega)]
    by_cases hf : k < file.length
    · have htake : k < (file.take offset).length := by
        rw [length_take]
        omega
      rw [getD_append _ _ _ _ htake, getD_eq_getElem _ _ htake,
        getD_eq_getElem _ _ hf, getElem_take]
    have htake : (file.take offset).length ≤ k := by
      rw [length_take]
      omega
    rw [getD_append_right _ _ _ _ htake, getD_eq_default file _ (by omega)]
    rw [getD_eq_getElem?_getD, getElem?_replicate]
    split <;> rfl
  rw [getD_append_right _ _ _ _ (by omega), hpre,
    getD_append_right _ _ _ _ (by omega), getD_eq_getElem?_getD,
    getD_eq_getElem?_getD, getElem?_drop]
  congr 2
  omega

variable {f g : Bytes}

theorem ext_getD (hlen : f.length = g.length) (h : ∀ k < f.length, f.getD k 0 = g.getD k 0) :
    f = g := by
  refine ext_getElem hlen fun k hk hk' => ?_
  have hbyte := h k hk
  rwa [getD_eq_getElem _ _ hk, getD_eq_getElem _ _ hk'] at hbyte

variable {i n : Nat}

theorem getD_take_drop (f : Bytes) {k : Nat} (hk : k < n) :
    ((f.drop i).take n).getD k 0 = f.getD (i + k) 0 := by
  rw [getD_eq_getElem?_getD, getD_eq_getElem?_getD, getElem?_take_of_lt hk, getElem?_drop]

theorem writeAt_writeAt (file d₁ d₂ : Bytes) (offset : Nat) :
    writeAt (writeAt file d₁ offset) d₂ (offset + d₁.length) = writeAt file (d₁ ++ d₂) offset := by
  refine ext_getD ?_ fun k _ => ?_
  · simp only [length_writeAt, length_append]
    omega
  · rw [getD_writeAt, getD_writeAt, getD_writeAt, length_append]
    by_cases h₂ : offset + d₁.length ≤ k ∧ k < offset + d₁.length + d₂.length
    · rw [if_pos h₂, if_pos (by omega), getD_append_right _ _ _ _ (by omega)]
      congr 1
      omega
    rw [if_neg h₂]
    by_cases h₁ : offset ≤ k ∧ k < offset + d₁.length
    · rw [if_pos h₁, if_pos (by omega), getD_append _ _ _ _ (by omega)]
    · rw [if_neg h₁, if_neg (by omega)]

variable {file : Bytes} {j : Nat}

theorem writeAt_nil {offset : Nat} (h : offset ≤ file.length) : writeAt file [] offset = file := by
  refine ext_getD ?_ fun k _ => ?_
  · simp only [length_writeAt, length_nil]
    omega
  · rw [getD_writeAt, if_neg (by simp only [length_nil]; omega)]

theorem take_drop_congr (hlen : min n (f.length - i) = min n (g.length - i))
    (h : ∀ k < n, f.getD (i + k) 0 = g.getD (i + k) 0) : (f.drop i).take n = (g.drop i).take n := by
  refine ext_getElem (by simpa using hlen) fun k hk hk' => ?_
  rw [length_take, length_drop] at hk hk'
  have hbyte := h k (by omega)
  rw [getD_eq_getElem _ _ (by omega), getD_eq_getElem _ _ (by omega)] at hbyte
  simpa using hbyte

/-- The `i`-th block of `n` bytes, with zeros behind the end of the file. -/
def block (n : Nat) (file : Bytes) (i : Nat) : Bytes :=
  (List.range n).map fun k => file.getD (n * i + k) 0

@[simp] theorem length_block (n : Nat) (file : Bytes) (i : Nat) : (block n file i).length = n := by
  simp [block]

theorem block_congr (h : ∀ k < n, f.getD (n * i + k) 0 = g.getD (n * j + k) 0) :
    block n f i = block n g j :=
  map_congr_left fun k hk => h k (mem_range.mp hk)

variable {data : Bytes}

section

variable (h : data.length = n)
include h

theorem block_zero : block n data 0 = data := by
  unfold block
  refine ext_getElem (by simp [h]) fun k hk hk' => ?_
  rw [getElem_map, getElem_range, Nat.mul_zero, Nat.zero_add, getD_eq_getElem _ _ hk']

variable (file : Bytes)

theorem block_writeAt_self (i : Nat) : block n (writeAt file data (n * i)) i = data := by
  refine (block_congr fun k hk => ?_).trans (block_zero h)
  rw [getD_writeAt, if_pos ⟨by omega, by omega⟩]
  congr 1
  omega

theorem block_writeAt_ne (hij : j ≠ i) :
    block n (writeAt file data (n * i)) j = block n file j := by
  refine block_congr fun k hk => ?_
  rw [getD_writeAt, if_neg]
  rintro ⟨hlo, hhi⟩
  obtain hlt | hgt := Nat.lt_or_gt_of_ne hij
  · have := Nat.mul_le_mul_left n (Nat.succ_le_of_lt hlt)
    rw [Nat.mul_succ] at this
    omega
  · have := Nat.mul_le_mul_left n (Nat.succ_le_of_lt hgt)
    rw [Nat.mul_succ] at this
    omega

end

theorem block_eq_zero (h : file.length ≤ n * i) : block n file i = replicate n 0 := by
  refine eq_replicate_iff.mpr ⟨length_block .., fun b hb => ?_⟩
  obtain ⟨k, _, rfl⟩ := mem_map.mp hb
  exact getD_eq_default _ _ (by omega)

theorem block_readAt {c index : Nat} (h : readAt file (n * i) (n * c) = some data)
    (hindex : index < c) : data.length = n * c ∧ block n data index = block n file (i + index) := by
  unfold readAt at h
  split at h
  next hle =>
    obtain rfl := Option.some.inj h
    refine ⟨?_, block_congr fun k hk => ?_⟩
    · rw [length_take, length_drop]
      omega
    · have hlt : n * index + k < n * c := by
        have := Nat.mul_le_mul_left n (Nat.succ_le_of_lt hindex)
        rw [Nat.mul_succ] at this
        omega
      rw [getD_eq_getElem?_getD, getD_eq_getElem?_getD, getElem?_take_of_lt hlt,
        getElem?_drop, Nat.mul_add]
      congr 2
      omega
  · cases h

end Bytes
