import Mathlib.Tactic.Common

/-! Tables of closed ranges, in which a range of a later id lies behind those of earlier ones. -/

namespace Ranges

open Function

abbrev Table (ι α : Type) := ι → Option (α × α)

variable {ι α : Type} {T : Table ι α} {m n : ι} {r : α × α} {r' : α × α} {i : ι}

theorem update_eq_some [DecidableEq ι] (h : update T m (some r) i = some r') :
    (i = m ∧ r' = r) ∨ (i ≠ m ∧ T i = some r') := by
  by_cases him : i = m
  · subst him
    rw [update_self] at h
    exact .inl ⟨rfl, (Option.some.inj h).symm⟩
  · rw [update_of_ne him] at h
    exact .inr ⟨him, h⟩

section Ids

variable [LE ι] [LT ι] [Std.IsLinearOrder ι] [Std.LawfulOrderLT ι]

structure IsLast (T : Table ι α) (m : ι) (r : α × α) : Prop where
  get : T m = some r
  max : ∀ {i r'}, T i = some r' → i ≤ m

def Above (T : Table ι α) (n : ι) : Prop := ∀ ⦃i r⦄, T i = some r → i < n

omit [LT ι] [Std.LawfulOrderLT ι] in
theorem IsLast.eq (h : IsLast T m r) (h' : IsLast T n r') : m = n :=
  Std.le_antisymm (h'.max h.get) (h.max h'.get)

theorem IsLast.lt (h : IsLast T m r) (hi : T i = some r') (hne : i ≠ m) : i < m :=
  Std.lt_of_le_of_ne (h.max hi) hne

variable [DecidableEq ι]

omit [LT ι] [Std.LawfulOrderLT ι] in
theorem IsLast.setEnd (h : IsLast T m r) (r' : α × α) : IsLast (update T m (some r')) m r' := by
  refine ⟨update_self .., fun hi => ?_⟩
  rcases update_eq_some hi with ⟨rfl, -⟩ | ⟨-, hi⟩
  · exact Std.le_refl _
  · exact h.max hi

theorem IsLast.add (h : Above T n) (r : α × α) : IsLast (update T n (some r)) n r := by
  refine ⟨update_self .., fun hi => ?_⟩
  rcases update_eq_some hi with ⟨rfl, -⟩ | ⟨-, hi⟩
  · exact Std.le_refl _
  · exact Std.le_of_lt (h hi)

end Ids

def Covers [LE α] (T : Table ι α) (x : α) : Prop := ∃ i r, T i = some r ∧ r.1 ≤ x ∧ x ≤ r.2

def Filled [LE α] (T : Table ι α) : Prop := ∀ ⦃i r x⦄, T i = some r → x ≤ r.2 → Covers T x

structure Ascending [LT ι] [LE α] [LT α] (T : Table ι α) : Prop where
  le : ∀ {i r}, T i = some r → r.1 ≤ r.2
  lt : ∀ {i j r r'}, T i = some r → T j = some r' → i < j → r.2 < r'.1

variable [LE ι] [LT ι] [Std.IsLinearOrder ι] [Std.LawfulOrderLT ι]
  [LE α] [LT α] [Std.IsLinearOrder α] [Std.LawfulOrderLT α]

omit [Std.IsLinearOrder α] [Std.LawfulOrderLT α] in
theorem Ascending.disjoint (h : Ascending T) {j : ι} {r : α × α} (hi : T i = some r)
    (hj : T j = some r') (hne : i ≠ j) : r.2 < r'.1 ∨ r'.2 < r.1 := by
  rcases Std.lt_trichotomy i j with hlt | heq | hlt
  · exact .inl (h.lt hi hj hlt)
  · exact absurd heq hne
  · exact .inr (h.lt hj hi hlt)

variable [DecidableEq ι] {e : α}

/-! Moving the end of the last range. -/

omit [Std.IsLinearOrder α] [Std.LawfulOrderLT α] in
theorem Ascending.setEnd (h : Ascending T) (hm : IsLast T m r) (he : r.1 ≤ e) :
    Ascending (update T m (some (r.1, e))) := by
  constructor
  · intro i r' hi
    rcases update_eq_some hi with ⟨-, rfl⟩ | ⟨-, hi⟩
    · exact he
    · exact h.le hi
  · intro i j r₁ r₂ hi hj hij
    rcases update_eq_some hi with ⟨rfl, -⟩ | ⟨-, hi'⟩
    · -- nothing comes behind the last range
      exact absurd (Std.lt_of_lt_of_le hij ((hm.setEnd (r.1, e)).max hj)) Std.lt_irrefl
    · rcases update_eq_some hj with ⟨rfl, rfl⟩ | ⟨-, hj⟩
      · have hlt := h.lt hi' hm.get hij
        exact hlt
      · exact h.lt hi' hj hij

theorem Filled.setEnd (h : Filled T) (hasc : Ascending T) (hm : IsLast T m r) :
    Filled (update T m (some (r.1, e))) := by
  -- what lies before the last range is covered by the others
  have hbefore : ∀ x, x < r.1 → Covers (update T m (some (r.1, e))) x := by
    intro x hx
    obtain ⟨i, r', hi, hlo, hhi⟩ := h hm.get (Std.le_of_lt (Std.lt_of_lt_of_le hx (hasc.le hm.get)))
    have him : i ≠ m := by
      rintro rfl
      obtain rfl := Option.some.inj (hm.get.symm.trans hi)
      exact Std.lt_irrefl (Std.lt_of_lt_of_le hx hlo)
    exact ⟨i, r', by rw [update_of_ne him, hi], hlo, hhi⟩
  intro i r' x hi hx
  rcases update_eq_some hi with ⟨rfl, rfl⟩ | ⟨him, hi⟩
  · by_cases hlo : r.1 ≤ x
    · exact ⟨i, _, update_self .., hlo, hx⟩
    · exact hbefore x (Std.not_le.mp hlo)
  · exact hbefore x (Std.lt_of_le_of_lt hx (hasc.lt hi hm.get (hm.lt hi him)))

/-! A range behind all others. -/

omit [Std.IsLinearOrder α] [Std.LawfulOrderLT α] in
theorem Ascending.add (h : Ascending T) (hn : Above T n) (hr : r.1 ≤ r.2)
    (hlt : ∀ {i r'}, T i = some r' → r'.2 < r.1) : Ascending (update T n (some r)) := by
  constructor
  · intro i r' hi
    rcases update_eq_some hi with ⟨-, rfl⟩ | ⟨-, hi⟩
    · exact hr
    · exact h.le hi
  · intro i j r₁ r₂ hi hj hij
    rcases update_eq_some hi with ⟨rfl, -⟩ | ⟨-, hi'⟩
    · exact absurd (Std.lt_of_lt_of_le hij ((IsLast.add hn r).max hj)) Std.lt_irrefl
    · rcases update_eq_some hj with ⟨rfl, rfl⟩ | ⟨-, hj⟩
      · exact hlt hi'
      · exact h.lt hi' hj hij

omit [Std.IsLinearOrder ι] [LT α] [Std.IsLinearOrder α] [Std.LawfulOrderLT α] in
theorem Covers.add {x : α} (h : Covers T x) (hn : Above T n) : Covers (update T n (some r)) x := by
  obtain ⟨i, r', hi, hx⟩ := h
  have hin : i ≠ n := by
    rintro rfl
    exact Std.lt_irrefl (hn hi)
  exact ⟨i, r', by rw [update_of_ne hin, hi], hx⟩

omit [Std.IsLinearOrder ι] in
theorem Filled.add (h : Filled T) (hn : Above T n)
    (hnext : ∀ x, x < r.1 → ∃ i r', T i = some r' ∧ x ≤ r'.2) : Filled (update T n (some r)) := by
  intro i r' x hi hx
  rcases update_eq_some hi with ⟨rfl, rfl⟩ | ⟨-, hi⟩
  · by_cases hlo : r'.1 ≤ x
    · exact ⟨i, r', update_self .., hlo, hx⟩
    · obtain ⟨j, r₁, hj, hxj⟩ := hnext x (Std.not_le.mp hlo)
      exact (h hj hxj).add hn
  · exact (h hi hx).add hn

end Ranges
