import ChubaoFS.Base.OrdTree

/-! Trees of half-open spans of numbers, ordered by where they start. -/

namespace OrdTree

open List

variable {α : Type} {start : α → Nat} (stop : α → Nat)

def Apart (start stop : α → Nat) (a b : α) : Prop := stop a ≤ start b ∨ stop b ≤ start a

instance (a b : α) : Decidable (Apart start stop a b) := inferInstanceAs (Decidable (_ ∨ _))

structure Spans (t : OrdTree α start) : Prop where
  pos : ∀ a ∈ t.items, start a < stop a
  apart : ∀ a ∈ t.items, ∀ b ∈ t.items, start a < start b → stop a ≤ start b

def at? (t : OrdTree α start) (o : Nat) : Option α :=
  t.items.find? fun a => decide (start a ≤ o) && decide (o < stop a)

variable {stop} {t t' : OrdTree α start} {a : α} {f : α → α} {n : Nat} {b : α}

theorem spans_empty : Spans stop (empty : OrdTree α start) := ⟨nofun, nofun⟩

theorem mem_of_at? {o : Nat} (h : t.at? stop o = some a) :
    a ∈ t.items ∧ start a ≤ o ∧ o < stop a := by
  have hp := find?_some h
  rw [Bool.and_eq_true, decide_eq_true_eq, decide_eq_true_eq] at hp
  exact ⟨mem_of_find?_eq_some h, hp⟩

namespace Spans

variable {o : Nat} (h : Spans stop t)
include h

theorem eq_of_start (ha : a ∈ t.items) (hb : b ∈ t.items) (hao : start a ≤ o ∧ o < stop a)
    (hbo : start b ≤ o ∧ o < stop b) : a = b := by
  refine eq_of_mem_of_key ha hb ?_
  obtain hlt | heq | hlt := Nat.lt_trichotomy (start a) (start b)
  · have := h.apart a ha b hb hlt
    omega
  · exact heq
  · have := h.apart b hb a ha hlt
    omega

theorem at?_iff : t.at? stop o = some a ↔ a ∈ t.items ∧ start a ≤ o ∧ o < stop a := by
  refine ⟨mem_of_at?, ?_⟩
  rintro ⟨ha, hao⟩
  cases hf : t.at? stop o with
  | none =>
    have hno := find?_eq_none.mp hf a ha
    rw [Bool.and_eq_true, decide_eq_true_eq, decide_eq_true_eq] at hno
    exact absurd hao hno
  | some b =>
    obtain ⟨hb, hbo⟩ := mem_of_at? hf
    rw [h.eq_of_start ha hb hao hbo]

theorem at?_congr {β : Type} {start' stop' : β → Nat} {u : OrdTree β start'}
    (h' : Spans stop' u) {f : α → β} (hmem : ∀ b, (b ∈ u.items ∧ start' b ≤ o ∧ o < stop' b) ↔
      ∃ a ∈ t.items, (start a ≤ o ∧ o < stop a) ∧ b = f a) :
    u.at? stop' o = (t.at? stop o).map f := by
  cases ht : t.at? stop o with
  | none =>
    rw [Option.map_none]
    cases hu : u.at? stop' o with
    | none => rfl
    | some b =>
      obtain ⟨a, ha, hao, -⟩ := (hmem b).mp (mem_of_at? hu)
      rw [h.at?_iff.mpr ⟨ha, hao⟩] at ht
      cases ht
  | some a =>
    obtain ⟨ha, hao⟩ := mem_of_at? ht
    exact h'.at?_iff.mpr ((hmem (f a)).mpr ⟨a, ha, hao, rfl⟩)

theorem put (hpos : start a < stop a)
    (hmem : ∀ x, x ∈ t'.items ↔ x = a ∨ x ∈ t.items ∧ Apart start stop x a) : Spans stop t' := by
  constructor
  · intro x hx
    obtain rfl | ⟨hx, -⟩ := (hmem x).mp hx
    · exact hpos
    · exact h.pos x hx
  · intro x hx y hy hlt
    obtain rfl | ⟨hx, hxa⟩ := (hmem x).mp hx
    · obtain rfl | ⟨hy, hya⟩ := (hmem y).mp hy
      · omega
      · have := h.pos y hy
        obtain hya | hya := hya
        · omega
        · exact hya
    · obtain rfl | ⟨hy, -⟩ := (hmem y).mp hy
      · have := h.pos x hx
        obtain hxa | hxa := hxa
        · exact hxa
        · omega
      · exact h.apart x hx y hy hlt

theorem at?_put (hpos : start a < stop a)
    (hmem : ∀ x, x ∈ t'.items ↔ x = a ∨ x ∈ t.items ∧ Apart start stop x a)
    (hcover : ∀ x ∈ t.items, Apart start stop x a ∨ start a ≤ start x ∧ stop x ≤ stop a) (o : Nat) :
    t'.at? stop o = if start a ≤ o ∧ o < stop a then some a else t.at? stop o := by
  have h' := h.put hpos hmem
  split
  next hao => exact h'.at?_iff.mpr ⟨(hmem a).mpr (.inl rfl), hao⟩
  rename_i hao
  have hcongr := h.at?_congr h' (o := o) (f := id) fun x => ?_
  · rwa [Option.map_id] at hcongr
  constructor
  · rintro ⟨hx, hxo⟩
    obtain rfl | ⟨hx, -⟩ := (hmem x).mp hx
    · exact absurd hxo hao
    · exact ⟨x, hx, hxo, rfl⟩
  · rintro ⟨_, hx, hxo, rfl⟩
    refine ⟨(hmem x).mpr (.inr ⟨hx, ?_⟩), hxo⟩
    obtain hap | hcov := hcover x hx
    · exact hap
    · omega

section

variable (hstart : ∀ a, start (f a) = start a)
include hstart

variable (hstop : ∀ a ∈ t.items, start a < n → stop (f a) = min (stop a) n)
include hstop

variable (hmem : ∀ x, x ∈ t'.items ↔ ∃ a ∈ t.items, start a < n ∧ x = f a)
include hmem

theorem cut : Spans stop t' := by
  constructor
  · intro x hx
    obtain ⟨a, ha, hlt, rfl⟩ := (hmem x).mp hx
    have := h.pos a ha
    rw [hstart, hstop a ha hlt]
    omega
  · intro x hx y hy hxy
    obtain ⟨a, ha, hlt, rfl⟩ := (hmem x).mp hx
    obtain ⟨b, hb, hltb, rfl⟩ := (hmem y).mp hy
    rw [hstart, hstart] at hxy
    have := h.apart a ha b hb hxy
    rw [hstop a ha hlt, hstart]
    omega

theorem at?_cut (o : Nat) : t'.at? stop o = if o < n then (t.at? stop o).map f else none := by
  have h' := h.cut hstart hstop hmem
  split
  next ho =>
    refine h.at?_congr h' fun x => ?_
    constructor
    · rintro ⟨hx, hxo⟩
      obtain ⟨a, ha, hlt, rfl⟩ := (hmem x).mp hx
      rw [hstart, hstop a ha hlt] at hxo
      exact ⟨a, ha, ⟨hxo.1, by omega⟩, rfl⟩
    · rintro ⟨a, ha, hao, rfl⟩
      have hlt : start a < n := by omega
      refine ⟨(hmem _).mpr ⟨a, ha, hlt, rfl⟩, ?_⟩
      rw [hstart, hstop a ha hlt]
      omega
  rename_i ho
  cases hx : t'.at? stop o with
  | none => rfl
  | some x =>
    obtain ⟨hx, hxo⟩ := mem_of_at? hx
    obtain ⟨a, ha, hlt, rfl⟩ := (hmem x).mp hx
    rw [hstop a ha hlt] at hxo
    omega

end

theorem stop_le_max {m : α} (hm : t.max? = some m) (ha : a ∈ t.items) : stop a ≤ stop m := by
  have hpos := h.pos m (mem_of_max? hm)
  obtain rfl | hlt := key_lt_of_max? hm ha
  · exact Nat.le_refl _
  · have := h.apart a ha m (mem_of_max? hm) hlt
    omega

end Spans

/-! A span takes the place of those that start inside it, whether they end inside it or not. -/

/-- What `lay` leaves at `o`. -/
def laid (start stop : α → Nat) (a : α) (o : Nat) (v : Option α) : Option α :=
  if o = start a then some a else if start a ≤ o ∧ o < stop a then none else v

variable (stop) in
def lay (t : OrdTree α start) (a : α) : OrdTree α start :=
  ((t.ascendRange (start a) (stop a)).foldl (fun t d => t.erase (start d)) t).insert a

theorem get?_lay (t : OrdTree α start) (a : α) (o : Nat) :
    (t.lay stop a).get? o = laid start stop a o (t.get? o) := by
  unfold lay laid
  rw [get?_insert]
  split
  · rfl
  rename_i hne
  rw [get?_of_items_filter (items_foldl_erase _ t) o]
  cases hg : t.get? o with
  | none => simp
  | some b =>
    obtain ⟨hb, rfl⟩ := get?_eq_some_iff.mp hg
    have hiff : (∀ d ∈ t.ascendRange (start a) (stop a), start b ≠ start d) ↔
        ¬ (start a ≤ start b ∧ start b < stop a) := by
      constructor
      · intro h hin
        exact h b (mem_filter.mpr ⟨hb, decide_eq_true hin⟩) rfl
      · intro h d hd heq
        rw [heq] at h
        exact h (of_decide_eq_true (mem_filter.mp hd).2)
    by_cases hin : start a ≤ start b ∧ start b < stop a
    · rw [if_pos hin, Option.filter_some_neg]
      exact Bool.eq_false_iff.mpr fun h => hiff.mp (of_decide_eq_true h) hin
    · rw [if_neg hin, Option.filter_some_pos]
      exact decide_eq_true (hiff.mpr hin)

theorem get?_foldl_lay (l : List α) (t : OrdTree α start) (o : Nat) :
    (l.foldl (lay stop) t).get? o = l.foldl (fun v a => laid start stop a o v) (t.get? o) := by
  induction l generalizing t with
  | nil => rfl
  | cons a l ih => rw [foldl_cons, foldl_cons, ih, get?_lay]

theorem foldl_laid_cases (start stop : α → Nat) (l : List α) (o : Nat) :
    (∀ v, l.foldl (fun v a => laid start stop a o v) v = v) ∨
      ∃ c, ∀ v, l.foldl (fun v a => laid start stop a o v) v = c := by
  induction l with
  | nil => exact .inl fun v => rfl
  | cons a l ih =>
    obtain hid | ⟨c, hc⟩ := ih
    · unfold laid
      by_cases hat : o = start a
      · exact .inr ⟨some a, fun v => by rw [foldl_cons, if_pos hat]; exact hid _⟩
      by_cases hin : start a ≤ o ∧ o < stop a
      · exact .inr ⟨none, fun v => by rw [foldl_cons, if_neg hat, if_pos hin]; exact hid _⟩
      · exact .inl fun v => by rw [foldl_cons, if_neg hat, if_neg hin]; exact hid _
    · exact .inr ⟨c, fun v => hc _⟩

theorem foldl_lay_concat {l : List α} (h : l.foldl (lay stop) t = t) (a : α) :
    (l ++ [a]).foldl (lay stop) (t.lay stop a) = t.lay stop a := by
  refine ext_get? fun o => ?_
  have ho := congrArg (get? · o) h
  rw [get?_foldl_lay] at ho
  rw [foldl_append, foldl_cons, foldl_nil, get?_lay, get?_foldl_lay, get?_lay]
  unfold laid
  split
  · rfl
  next hat =>
    split
    · rfl
    · exact ho

theorem foldl_lay_tail {l : List α} (h : (a :: l).foldl (lay stop) t = t) :
    l.foldl (lay stop) t = t := by
  refine ext_get? fun o => ?_
  have ho := congrArg (get? · o) h
  rw [foldl_cons, get?_foldl_lay, get?_lay] at ho
  rw [get?_foldl_lay]
  obtain hid | ⟨c, hc⟩ := foldl_laid_cases start stop l o
  · exact hid _
  · rw [hc] at ho ⊢
    exact ho

theorem lay_foldl_lay {l : List α} (h : l.foldl (lay stop) t = t) (hstart : start b = start a)
    (hstop : stop b = stop a) : (l.foldl (lay stop) (t.lay stop a)).lay stop b = t.lay stop b := by
  refine ext_get? fun o => ?_
  have ho := congrArg (get? · o) h
  rw [get?_foldl_lay] at ho
  rw [get?_lay, get?_lay, get?_foldl_lay, get?_lay]
  unfold laid
  rw [hstart, hstop]
  split
  · rfl
  next hat =>
    split
    · rfl
    next hin => exact ho

theorem lay_lay (hstart : start b ≤ start a) (hstop : stop a ≤ stop b) (hpos : start a < stop a) :
    (t.lay stop a).lay stop b = t.lay stop b := by
  refine ext_get? fun o => ?_
  rw [get?_lay, get?_lay, get?_lay]
  unfold laid
  split
  · rfl
  next hb =>
    split
    · rfl
    next hin => rw [if_neg (by omega), if_neg (by omega)]

theorem Spans.lay_of_mem (h : Spans stop t) (ha : a ∈ t.items) : t.lay stop a = t := by
  refine ext_get? fun o => ?_
  rw [get?_lay]
  unfold laid
  split
  next hat => exact (get?_eq_some_iff.mpr ⟨ha, hat.symm⟩).symm
  rename_i hat
  split
  next hin =>
    refine (get?_eq_none_iff.mpr fun b hb hbo => hat ?_).symm
    rw [h.eq_of_start ha hb hin ⟨Nat.le_of_eq hbo, hbo ▸ h.pos b hb⟩, hbo]
  · rfl

theorem mem_lay {x : α} : x ∈ (t.lay stop a).items ↔
      x = a ∨ x ∈ t.items ∧ start x ≠ start a ∧ ¬ (start a ≤ start x ∧ start x < stop a) := by
  have hget : x ∈ (t.lay stop a).items ↔ (t.lay stop a).get? (start x) = some x :=
    ⟨fun h => get?_eq_some_iff.mpr ⟨h, rfl⟩, fun h => (get?_eq_some_iff.mp h).1⟩
  rw [hget, get?_lay]
  unfold laid
  split
  next hat =>
    refine ⟨fun h => .inl (Option.some.inj h).symm, ?_⟩
    rintro (rfl | ⟨-, hne, -⟩)
    · rfl
    · exact absurd hat hne
  rename_i hat
  split
  next hin =>
    refine ⟨nofun, ?_⟩
    rintro (rfl | ⟨-, -, hout⟩)
    · exact absurd rfl hat
    · exact absurd hin hout
  rename_i hout
  rw [get?_eq_some_iff]
  constructor
  · rintro ⟨hx, -⟩
    exact .inr ⟨hx, hat, hout⟩
  · rintro (rfl | ⟨hx, -⟩)
    · exact absurd rfl hat
    · exact ⟨hx, rfl⟩

theorem Spans.mem_lay_of_cover (h : Spans stop t) (hpos : start a < stop a)
    (hcover : ∀ x ∈ t.items, Apart start stop x a ∨ start a ≤ start x ∧ stop x ≤ stop a) (x : α) :
    x ∈ (t.lay stop a).items ↔ x = a ∨ x ∈ t.items ∧ Apart start stop x a := by
  rw [mem_lay]
  refine or_congr_right (and_congr_right fun hx => ?_)
  have := h.pos x hx
  have := hcover x hx
  unfold Apart at *
  omega

end OrdTree
