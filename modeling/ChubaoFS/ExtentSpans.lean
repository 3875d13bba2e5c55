import Mathlib.Data.List.MinMax
import ChubaoFS.Base.Spans
import ChubaoFS.PartitionValue

namespace ChubaoFS

open List OrdTree UInt64

/-! The keys of a file as spans of it, under appends and truncations. -/

namespace ExtentKey

def stop (k : ExtentKey) : Nat := k.key + k.size.toNat

def Apart (k k' : ExtentKey) : Prop := OrdTree.Apart key stop k k'

instance (k k' : ExtentKey) : Decidable (k.Apart k') :=
  inferInstanceAs (Decidable (OrdTree.Apart key stop k k'))

variable {k : ExtentKey} {length : UInt64}

theorem toNat_fileEnd (h : k.stop < 2 ^ 64) : k.fileEnd.toNat = k.stop := by
  unfold fileEnd
  rw [UInt64.toNat_add, UInt32.toNat_toUInt64]
  exact Nat.mod_eq_of_lt h

/-- The key, if it starts before `length`, cut there. -/
def cut (length : UInt64) (k : ExtentKey) : ExtentKey :=
  if k.fileEnd > length then { k with size := (length - k.fileOffset).toUInt32 } else k

@[simp] theorem key_cut (length : UInt64) (k : ExtentKey) : (k.cut length).key = k.key := by
  unfold cut
  split <;> rfl

theorem sameExtent_cut (length : UInt64) (k k' : ExtentKey) :
    (k.cut length).sameExtent k' = k.sameExtent k' := by
  unfold cut
  split <;> rfl

theorem toNat_cut_size (hlt : k.key < length.toNat) (hend : k.fileEnd > length) :
    (length - k.fileOffset).toUInt32.toNat = length.toNat - k.key ∧ length.toNat < k.stop := by
  have hsub : (length - k.fileOffset).toNat = length.toNat - k.key :=
    UInt64.toNat_sub_of_le _ _ (UInt64.le_iff_toNat_le.mpr (Nat.le_of_lt hlt))
  have hlen := length.toNat_lt
  have hend' : length.toNat < k.fileEnd.toNat := UInt64.lt_iff_toNat_lt.mp hend
  have hmod : k.fileEnd.toNat = k.stop % 2 ^ 64 := by
    unfold fileEnd stop
    rw [UInt64.toNat_add, UInt32.toNat_toUInt64]
    rfl
  have hsize := k.size.toNat_lt
  have hkey : k.key < 2 ^ 64 := k.fileOffset.toNat_lt
  -- an end that wrapped around would lie before the start
  have hstop : length.toNat < k.stop := by
    unfold stop at hmod ⊢
    omega
  refine ⟨?_, hstop⟩
  unfold stop at hstop
  rw [UInt64.toNat_toUInt32, hsub]
  exact Nat.mod_eq_of_lt (by omega)

theorem stop_cut (hsmall : k.stop < 2 ^ 64) (hlt : k.key < length.toNat) :
    (k.cut length).stop = min k.stop length.toNat := by
  unfold cut
  split
  next hend =>
    obtain ⟨hsize, hstop⟩ := toNat_cut_size hlt hend
    have hkey : ({ k with size := (length - k.fileOffset).toUInt32 } : ExtentKey).stop =
        k.key + (length - k.fileOffset).toUInt32.toNat := rfl
    rw [hkey, hsize]
    omega
  next hend =>
    have hle : k.fileEnd.toNat ≤ length.toNat := UInt64.le_iff_toNat_le.mp (UInt64.not_lt.mp hend)
    rw [toNat_fileEnd hsmall] at hle
    omega

end ExtentKey

namespace ExtentsTree

open ExtentKey (stop)

structure Sound (e : ExtentsTree) : Prop where
  spans : OrdTree.Spans stop e
  small : ∀ k ∈ e.items, k.stop < 2 ^ 64

theorem sound_empty : Sound empty := ⟨spans_empty, nofun⟩

variable {e : ExtentsTree}

theorem Sound.apart (he : e.Sound) (a : ExtentKey) (ha : a ∈ e.items) (b : ExtentKey)
    (hb : b ∈ e.items) (hne : a ≠ b) : a.Apart b := by
  obtain hlt | heq | hlt := Nat.lt_trichotomy a.key b.key
  · exact .inl (he.spans.apart a ha b hb hlt)
  · exact absurd (eq_of_mem_of_key ha hb heq) hne
  · exact .inr (he.spans.apart b hb a ha hlt)

def Clears (e : ExtentsTree) (k : ExtentKey) : Prop :=
  k.stop < 2 ^ 64 ∧
    ∀ d ∈ e.items, d.Apart k ∨ k.key ≤ d.key ∧ (d.key = k.key ∨ d.sameExtent k = false)

instance (e : ExtentsTree) (k : ExtentKey) : Decidable (e.Clears k) :=
  inferInstanceAs (Decidable (_ ∧ _))

variable {k : ExtentKey} {x : ExtentKey}

theorem mem_dropped (hk : k.stop < 2 ^ 64) : x ∈ (append e k).2 ↔
      x ∈ e.items ∧ (k.key ≤ x.key ∧ x.key < k.stop) ∧ x.sameExtent k = false := by
  unfold append ascendRange
  dsimp only
  rw [mem_filter, mem_filter, ExtentKey.toNat_fileEnd hk, decide_eq_true_eq,
    Bool.not_eq_true', and_assoc]

theorem mem_append : x ∈ (append e k).1.items ↔
      x = k ∨ (x ∈ e.items ∧ x ∉ (append e k).2) ∧ x.key ≠ k.key := by
  have hdel : ∀ d ∈ (append e k).2, d ∈ e.items := fun d hd =>
    mem_of_mem_filter (mem_of_mem_filter hd)
  have hrest : x ∈ ((append e k).2.foldl (fun e d => erase e d.key) e).items ↔
      x ∈ e.items ∧ x ∉ (append e k).2 := by
    rw [items_foldl_erase, mem_filter, decide_eq_true_eq]
    refine and_congr_right fun hx => ⟨fun h hd => h x hd rfl, fun h d hd heq => ?_⟩
    rw [eq_of_mem_of_key hx (hdel d hd) heq] at h
    exact h hd
  rw [← hrest]
  exact mem_insert

theorem mem_append_of_clears (he : e.Sound) (hpos : 0 < k.size) (hk : e.Clears k) (x : ExtentKey) :
    x ∈ (append e k).1.items ↔ x = k ∨ x ∈ e.items ∧ x.Apart k := by
  have hksize : k.key < k.stop := Nat.lt_add_of_pos_right (UInt32.lt_iff_toNat_lt.mp hpos)
  rw [mem_append]
  refine or_congr_right ⟨?_, ?_⟩
  · rintro ⟨⟨hx, hdrop⟩, hne⟩
    refine ⟨hx, ?_⟩
    obtain hap | ⟨hle, hkey | hext⟩ := hk.2 x hx
    · exact hap
    · exact absurd hkey hne
    · by_contra hmeet
      refine hdrop ((mem_dropped hk.1).mpr ⟨hx, ⟨hle, ?_⟩, hext⟩)
      exact Nat.lt_of_not_le fun h => hmeet (.inr h)
  · rintro ⟨hx, hap⟩
    have hxsize := he.spans.pos x hx
    obtain hap | hap : x.stop ≤ k.key ∨ k.stop ≤ x.key := hap
    all_goals
      refine ⟨⟨hx, fun hdrop => ?_⟩, by omega⟩
      have := ((mem_dropped hk.1).mp hdrop).2.1
      omega

theorem Sound.append (he : e.Sound) (hpos : 0 < k.size) (hk : e.Clears k) :
    Sound (append e k).1 := by
  have hmem := mem_append_of_clears he hpos hk
  refine ⟨he.spans.put (Nat.lt_add_of_pos_right (UInt32.lt_iff_toNat_lt.mp hpos)) hmem, ?_⟩
  intro x hx
  obtain rfl | ⟨hx, -⟩ := (hmem x).mp hx
  · exact hk.1
  · exact he.small x hx

def truncate (e : ExtentsTree) (length : UInt64) : ExtentsTree :=
  cutLast ((e.ascendGreaterOrEqual (some length.toNat)).foldl (fun e d => e.erase d.key) e) length

theorem mem_truncate (he : e.Sound) (length : UInt64) (x : ExtentKey) :
    x ∈ (truncate e length).items ↔ ∃ k ∈ e.items, k.key < length.toNat ∧ x = k.cut length := by
  have hitems := items_erase_from e length.toNat
  unfold truncate cutLast
  generalize (e.ascendGreaterOrEqual (some length.toNat)).foldl (fun e d => e.erase d.key) e = e'
    at hitems ⊢
  have hmem (k : ExtentKey) : k ∈ e'.items ↔ k ∈ e.items ∧ k.key < length.toNat := by
    rw [hitems, mem_filter, decide_eq_true_eq]
  have hright : (∃ k ∈ e.items, k.key < length.toNat ∧ x = k.cut length) ↔
      ∃ k ∈ e'.items, x = k.cut length := by
    constructor
    · rintro ⟨k, hk, hlt, rfl⟩
      exact ⟨k, (hmem k).mpr ⟨hk, hlt⟩, rfl⟩
    · rintro ⟨k, hk, rfl⟩
      exact ⟨k, ((hmem k).mp hk).1, ((hmem k).mp hk).2, rfl⟩
  rw [hright]
  cases hm : e'.max? with
  | none =>
    have hnil : e'.items = [] := getLast?_eq_none_iff.mp hm
    simp [hnil]
  | some m =>
    obtain ⟨hme, hmlt⟩ := (hmem m).mp (mem_of_max? hm)
    have hrest (k : ExtentKey) (hk : k ∈ e'.items) (hne : k ≠ m) : k.cut length = k := by
      obtain ⟨hke, -⟩ := (hmem k).mp hk
      have hlt := (key_lt_of_max? hm hk).resolve_left hne
      have hle := he.spans.apart k hke m hme hlt
      refine if_neg fun hend => ?_
      have hend' : length.toNat < k.fileEnd.toNat := lt_iff_toNat_lt.mp hend
      rw [ExtentKey.toNat_fileEnd (he.small k hke)] at hend'
      omega
    dsimp only
    split
    next hend =>
      have hcut : { m with size := (length - m.fileOffset).toUInt32 } = m.cut length :=
        (if_pos hend).symm
      rw [hcut, mem_insert, ExtentKey.key_cut]
      constructor
      · rintro (rfl | ⟨hx, hne⟩)
        · exact ⟨m, mem_of_max? hm, rfl⟩
        · exact ⟨x, hx, (hrest x hx fun h => hne (congrArg ExtentKey.key h)).symm⟩
      · rintro ⟨k, hk, rfl⟩
        by_cases hkm : k = m
        · exact .inl (by rw [hkm])
        · rw [hrest k hk hkm]
          exact .inr ⟨hk, fun h => hkm (eq_of_mem_of_key hk (mem_of_max? hm) h)⟩
    rename_i hend
    have hcut (k : ExtentKey) (hk : k ∈ e'.items) : k.cut length = k := by
      by_cases hkm : k = m
      · rw [hkm]
        exact if_neg hend
      · exact hrest k hk hkm
    constructor
    · intro hx
      exact ⟨x, hx, (hcut x hx).symm⟩
    · rintro ⟨k, hk, rfl⟩
      rwa [hcut k hk]

theorem Sound.truncate (he : e.Sound) (length : UInt64) :
    Sound (truncate e length) ∧ ∀ k ∈ (ExtentsTree.truncate e length).items,
      k.stop ≤ length.toNat := by
  have hmem := mem_truncate he length
  have hstop (k : ExtentKey) (hk : k ∈ e.items) (hlt : k.key < length.toNat) :=
    ExtentKey.stop_cut (he.small k hk) hlt
  have hle (k : ExtentKey) (hk : k ∈ (ExtentsTree.truncate e length).items) :
      k.stop ≤ length.toNat := by
    obtain ⟨d, hd, hlt, rfl⟩ := (hmem k).mp hk
    rw [hstop d hd hlt]
    exact Nat.min_le_right _ _
  refine ⟨⟨he.spans.cut (ExtentKey.key_cut length) hstop hmem, fun k hk => ?_⟩, hle⟩
  exact Nat.lt_of_le_of_lt (hle k hk) length.toNat_lt

def maxEnd (e : ExtentsTree) : Nat := (e.items.map stop).foldr max 0

theorem stop_le_maxEnd (hk : k ∈ e.items) : k.stop ≤ e.maxEnd :=
    le_max_of_le (mem_map_of_mem hk) (Nat.le_refl _)

theorem maxEnd_le {n : Nat} (h : ∀ k ∈ e.items, k.stop ≤ n) : e.maxEnd ≤ n := by
  refine max_le_of_forall_le _ _ fun x hx => ?_
  obtain ⟨k, hk, rfl⟩ := mem_map.mp hx
  exact h k hk

theorem toNat_size (he : e.Sound) : (size e).toNat = e.maxEnd := by
  unfold size
  cases hm : e.max? with
  | none =>
    have hnil : e.items = [] := getLast?_eq_none_iff.mp hm
    rw [maxEnd, hnil]
    rfl
  | some m =>
    have hme := mem_of_max? hm
    dsimp only
    rw [ExtentKey.toNat_fileEnd (he.small m hme)]
    exact Nat.le_antisymm (stop_le_maxEnd hme) (maxEnd_le fun k hk => he.spans.stop_le_max hm hk)

end ExtentsTree
end ChubaoFS
