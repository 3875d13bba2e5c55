import Mathlib.Data.List.Count
import Mathlib.Data.List.Pairwise
import Mathlib.Data.List.Sort

/-- An ordered search tree, given by what it holds: its items in ascending
order of their keys, no two of one key. -/
structure OrdTree (α : Type) {κ : Type} [LinearOrder κ] (key : α → κ) where
  items : List α
  sorted : items.Pairwise (fun a b => key a < key b)

namespace OrdTree

open List Option

variable {α κ : Type} [LinearOrder κ] {key : α → κ} {t : OrdTree α key} {a : α} {l : List α} {k : κ}
  {s : OrdTree α key} {x m b : α}

instance [DecidableEq α] : DecidableEq (OrdTree α key) := fun s t =>
  decidable_of_iff (s.items = t.items) (by cases s; cases t; simp)

theorem ext_items (h : s.items = t.items) : s = t := by
  cases s; cases t; simpa using h

def empty : OrdTree α key := ⟨[], .nil⟩

instance : Inhabited (OrdTree α key) := ⟨empty⟩

@[simp] theorem items_empty : (empty : OrdTree α key).items = [] := rfl

def length (t : OrdTree α key) : Nat := t.items.length

@[simp] theorem length_empty : (empty : OrdTree α key).length = 0 := rfl

theorem length_eq_zero_iff : t.length = 0 ↔ t = empty := by
  constructor
  · intro h
    exact ext_items (List.length_eq_zero_iff.mp h)
  · rintro rfl
    rfl

def get? (t : OrdTree α key) (k : κ) : Option α := t.items.find? (fun a => key a = k)

def ascendGreaterOrEqual (t : OrdTree α key) : Option κ → List α
  | none => t.items
  | some k => t.items.filter (fun a => k ≤ key a)

def ascendRange (t : OrdTree α key) (lo hi : κ) : List α :=
  t.items.filter (fun a => lo ≤ key a ∧ key a < hi)

def descendLessOrEqual (t : OrdTree α key) (k : κ) : List α :=
  (t.items.filter fun a => key a ≤ k).reverse

theorem mem_descendLessOrEqual : a ∈ t.descendLessOrEqual k ↔ a ∈ t.items ∧ key a ≤ k := by
  simp [descendLessOrEqual]

theorem key_le_of_descend (h : t.descendLessOrEqual k = x :: l) (ha : a ∈ t.items)
    (hle : key a ≤ k) : key a ≤ key x := by
  have hmem : a ∈ x :: l := h ▸ mem_descendLessOrEqual.mpr ⟨ha, hle⟩
  have hsorted : (x :: l).Pairwise (fun a b => key b < key a) := by
    rw [← h, descendLessOrEqual, pairwise_reverse]
    exact t.sorted.sublist filter_sublist
  obtain rfl | hl := mem_cons.mp hmem
  · exact le_refl _
  · exact le_of_lt ((pairwise_cons.mp hsorted).1 a hl)

def max? (t : OrdTree α key) : Option α := t.items.getLast?

theorem key_lt_of_max? (hm : t.max? = some m) (ha : a ∈ t.items) : a = m ∨ key a < key m := by
  obtain ⟨l, hl⟩ := getLast?_eq_some_iff.mp hm
  have hs := t.sorted
  rw [hl] at ha hs
  obtain ha | ha := mem_append.mp ha
  · exact .inr ((pairwise_append.mp hs).2.2 a ha m (mem_singleton.mpr rfl))
  · exact .inl (mem_singleton.mp ha)

theorem key_le_of_max? (hm : t.max? = some m) (ha : a ∈ t.items) : key a ≤ key m := by
  obtain rfl | hlt := key_lt_of_max? hm ha
  · exact le_refl _
  · exact le_of_lt hlt

theorem mem_of_max? (hm : t.max? = some m) : m ∈ t.items :=
  mem_of_getLast? hm

def place (key : α → κ) (a : α) : List α → List α
  | [] => [a]
  | b :: bs =>
    if key a < key b then a :: b :: bs
    else if key a = key b then a :: bs
    else b :: place key a bs

theorem mem_place (h : x ∈ place key a l) : x = a ∨ x ∈ l := by
  induction l with
  | nil => simpa [place] using h
  | cons b bs ih =>
    unfold place at h
    split at h
    · simpa using h
    split at h
    · rcases mem_cons.mp h with h | h
      · exact .inl h
      · exact .inr (mem_cons_of_mem b h)
    · rcases mem_cons.mp h with h | h
      · exact .inr (by simp [h])
      · exact (ih h).imp_right (mem_cons_of_mem b)

theorem place_sorted (a : α) (h : l.Pairwise (fun a b => key a < key b)) :
    (place key a l).Pairwise (fun a b => key a < key b) := by
  induction l with
  | nil => simp [place]
  | cons b bs ih =>
    obtain ⟨hb, hs⟩ := pairwise_cons.mp h
    unfold place
    split
    next hlt =>
      refine pairwise_cons.mpr ⟨?_, h⟩
      intro x hx
      rcases mem_cons.mp hx with rfl | hx
      · exact hlt
      · exact hlt.trans (hb x hx)
    rename_i hlt
    split
    next heq => exact pairwise_cons.mpr ⟨fun x hx => heq ▸ hb x hx, hs⟩
    rename_i hne
    refine pairwise_cons.mpr ⟨?_, ih hs⟩
    intro x hx
    rcases mem_place hx with rfl | hx
    · exact lt_of_le_of_ne (not_lt.mp hlt) (Ne.symm hne)
    · exact hb x hx

def insert (t : OrdTree α key) (a : α) : OrdTree α key :=
  ⟨place key a t.items, place_sorted a t.sorted⟩

theorem length_insert_le (t : OrdTree α key) (a : α) : (t.insert a).length ≤ t.length + 1 := by
  have hlen (l : List α) : (place key a l).length ≤ l.length + 1 := by
    induction l with
    | nil => simp [place]
    | cons b bs ih =>
      unfold place
      split
      · simp
      split
      · simp
      · simpa using ih
  exact hlen t.items

def erase (t : OrdTree α key) (k : κ) : OrdTree α key :=
  ⟨t.items.filter (fun a => key a ≠ k), t.sorted.sublist List.filter_sublist⟩

theorem key_of_get? (h : t.get? k = some a) : key a = k := by
  simpa using find?_some h

theorem mem_of_get? (h : t.get? k = some a) : a ∈ t.items :=
  mem_of_find?_eq_some h

theorem eq_of_mem_of_key (ha : a ∈ t.items) (hb : b ∈ t.items) (h : key a = key b) : a = b := by
  by_contra hne
  have hd : t.items.Pairwise (fun a b => key a ≠ key b) := t.sorted.imp fun hlt => ne_of_lt hlt
  have : Std.Symm (fun a b : α => key a ≠ key b) := ⟨fun _ _ hab => Ne.symm hab⟩
  exact hd.forall ha hb hne h

theorem nodup_items (t : OrdTree α key) : t.items.Nodup :=
  t.sorted.imp fun hlt heq => absurd (heq ▸ hlt) (lt_irrefl _)

theorem get?_eq_some_iff : t.get? k = some a ↔ a ∈ t.items ∧ key a = k := by
  constructor
  · exact fun h => ⟨mem_of_get? h, key_of_get? h⟩
  · rintro ⟨hm, hk⟩
    cases hg : t.get? k with
    | none =>
      have hno := find?_eq_none.mp hg a hm
      simp [hk] at hno
    | some b =>
      rw [eq_of_mem_of_key hm (mem_of_get? hg) (hk.trans (key_of_get? hg).symm)]

theorem get?_eq_none_iff : t.get? k = none ↔ ∀ a ∈ t.items, key a ≠ k := by
  simp [get?]

@[simp] theorem get?_empty (k : κ) : (empty : OrdTree α key).get? k = none := rfl

theorem ext_get? (h : ∀ k, s.get? k = t.get? k) : s = t := by
  apply ext_items
  have hmem : ∀ a, a ∈ s.items ↔ a ∈ t.items := by
    intro a
    have hs := get?_eq_some_iff (t := s) (k := key a) (a := a)
    have ht := get?_eq_some_iff (t := t) (k := key a) (a := a)
    rw [h] at hs
    simpa using hs.symm.trans ht
  have : Std.Antisymm (fun a b : α => key a < key b) := ⟨fun _ _ h h' => absurd h' (lt_asymm h)⟩
  have : Std.Irrefl (fun a b : α => key a < key b) := ⟨fun _ => lt_irrefl _⟩
  exact List.Pairwise.eq_of_mem_iff s.sorted t.sorted hmem

theorem ext_mem (h : ∀ a, a ∈ s.items ↔ a ∈ t.items) : s = t := by
  refine ext_get? fun k => ext fun a => ?_
  rw [get?_eq_some_iff, get?_eq_some_iff, h]

theorem mem_place_iff (h : l.Pairwise (fun a b => key a < key b)) :
    x ∈ place key a l ↔ x = a ∨ (x ∈ l ∧ key x ≠ key a) := by
  induction l with
  | nil => simp [place]
  | cons b bs ih =>
    obtain ⟨hb, hs⟩ := pairwise_cons.mp h
    unfold place
    split
    next hlt =>
      have hbig : ∀ y ∈ b :: bs, key y ≠ key a := by
        intro y hy
        rcases mem_cons.mp hy with rfl | hy
        · exact ne_of_gt hlt
        · exact ne_of_gt (hlt.trans (hb y hy))
      rw [mem_cons]
      exact or_congr_right ⟨fun hx => ⟨hx, hbig x hx⟩, And.left⟩
    rename_i hlt
    split
    next heq =>
      have hbig : ∀ y ∈ bs, key y ≠ key a := fun y hy => heq ▸ ne_of_gt (hb y hy)
      constructor
      · intro hx
        rcases mem_cons.mp hx with rfl | hx
        · exact .inl rfl
        · exact .inr ⟨mem_cons_of_mem b hx, hbig x hx⟩
      · rintro (rfl | ⟨hx, hne⟩)
        · simp
        · rcases mem_cons.mp hx with rfl | hx
          · exact absurd heq.symm hne
          · exact mem_cons_of_mem a hx
    rename_i hne
    have hba : key b ≠ key a := Ne.symm hne
    rw [mem_cons, ih hs, mem_cons]
    constructor
    · rintro (rfl | rfl | ⟨hx, hk⟩)
      · exact .inr ⟨.inl rfl, hba⟩
      · exact .inl rfl
      · exact .inr ⟨.inr hx, hk⟩
    · rintro (rfl | ⟨rfl | hx, hk⟩)
      · exact .inr (.inl rfl)
      · exact .inl rfl
      · exact .inr (.inr ⟨hx, hk⟩)

theorem mem_insert : x ∈ (t.insert a).items ↔ x = a ∨ (x ∈ t.items ∧ key x ≠ key a) :=
  mem_place_iff t.sorted

theorem mem_erase : x ∈ (t.erase k).items ↔ x ∈ t.items ∧ key x ≠ k := by
  simp [erase]

variable (t)

theorem get?_insert (a : α) (k : κ) :
    (t.insert a).get? k = if k = key a then some a else t.get? k := by
  split
  next h => exact get?_eq_some_iff.mpr ⟨mem_insert.mpr (.inl rfl), h.symm⟩
  rename_i h
  cases hg : t.get? k with
  | none =>
    rw [get?_eq_none_iff] at hg ⊢
    intro x hx
    rcases mem_insert.mp hx with rfl | ⟨hx, _⟩
    · exact Ne.symm h
    · exact hg x hx
  | some b =>
    obtain ⟨hb, hk⟩ := get?_eq_some_iff.mp hg
    exact get?_eq_some_iff.mpr ⟨mem_insert.mpr (.inr ⟨hb, hk ▸ h⟩), hk⟩

theorem get?_erase (k k' : κ) : (t.erase k).get? k' = if k' = k then none else t.get? k' := by
  split
  next h =>
    rw [get?_eq_none_iff]
    intro x hx
    exact h ▸ (mem_erase.mp hx).2
  rename_i h
  cases hg : t.get? k' with
  | none =>
    rw [get?_eq_none_iff] at hg ⊢
    exact fun x hx => hg x (mem_erase.mp hx).1
  | some b =>
    obtain ⟨hb, hk⟩ := get?_eq_some_iff.mp hg
    exact get?_eq_some_iff.mpr ⟨mem_erase.mpr ⟨hb, hk ▸ h⟩, hk⟩

variable {t}

/-! Counting the items that meet a condition. -/

theorem place_perm (h : ∀ x ∈ l, key x ≠ key a) : (place key a l).Perm (a :: l) := by
  induction l with
  | nil => exact .refl _
  | cons b bs ih =>
    have hb : key a ≠ key b := Ne.symm (h b (by simp))
    rw [place, if_neg hb]
    split
    · exact .refl _
    · exact ((ih fun x hx => h x (mem_cons_of_mem b hx)).cons b).trans (.swap a b bs)

theorem countP_insert_new (h : t.get? (key a) = none) (p : α → Bool) :
    (t.insert a).items.countP p = t.items.countP p + (if p a then 1 else 0) := by
  have hp : (t.insert a).items.Perm (a :: t.items) := place_perm (get?_eq_none_iff.mp h)
  rw [hp.countP_eq, countP_cons]

theorem insert_erase (t : OrdTree α key) (a : α) : (t.erase (key a)).insert a = t.insert a := by
  apply ext_get?
  intro k
  rw [get?_insert, get?_insert, get?_erase]
  split <;> rfl

theorem erase_insert (h : t.get? (key a) = some a) : (t.erase (key a)).insert a = t := by
  apply ext_get?
  intro k
  rw [get?_insert, get?_erase]
  split
  next hk => rw [hk, h]
  · rfl

theorem countP_erase (h : t.get? k = some a) (p : α → Bool) :
    t.items.countP p = (t.erase k).items.countP p + (if p a then 1 else 0) := by
  obtain rfl := key_of_get? h
  have hnone : (t.erase (key a)).get? (key a) = none := by rw [get?_erase, if_pos rfl]
  conv_lhs => rw [← erase_insert h]
  exact countP_insert_new hnone p

theorem countP_insert_replace (h : t.get? (key a) = some b) (p : α → Bool) :
    (t.insert a).items.countP p + (if p b then 1 else 0) =
      t.items.countP p + (if p a then 1 else 0) := by
  have hnone : (t.erase (key a)).get? (key a) = none := by rw [get?_erase, if_pos rfl]
  have hin := countP_insert_new hnone p
  have her := countP_erase h p
  rw [insert_erase] at hin
  omega

/-! Reading a tree back from its items in ascending order. -/

theorem place_append (h : ∀ x ∈ l, key x < key a) : place key a l = l ++ [a] := by
  induction l with
  | nil => rfl
  | cons b bs ih =>
    have hb := h b (by simp)
    rw [place, if_neg (lt_asymm hb), if_neg (ne_of_gt hb),
      ih fun x hx => h x (mem_cons_of_mem b hx), cons_append]

theorem foldl_insert_append (l : List α) (t : OrdTree α key)
    (h : (t.items ++ l).Pairwise (fun a b => key a < key b)) :
    (l.foldl insert t).items = t.items ++ l := by
  induction l generalizing t with
  | nil => simp
  | cons a l ih =>
    have hins : (t.insert a).items = t.items ++ [a] := by
      apply place_append
      intro x hx
      exact (pairwise_append.mp h).2.2 x hx a (by simp)
    have hl : ((t.insert a).items ++ l).Pairwise (fun a b => key a < key b) := by
      simpa [hins] using h
    rw [foldl_cons, ih _ hl, hins]
    simp

theorem find?_ascendGreaterOrEqual [DecidableEq α] {done rest : List α}
    (h : t.items = done ++ a :: rest) :
    (t.ascendGreaterOrEqual (done.getLast?.map key)).find? (fun b => done.getLast? ≠ some b) =
      some a := by
  rcases eq_nil_or_concat done with rfl | ⟨before, c, rfl⟩
  · simp [ascendGreaterOrEqual, h]
  · have hs := t.sorted
    rw [h, concat_eq_append, append_assoc, singleton_append, pairwise_append, pairwise_cons] at hs
    obtain ⟨-, ⟨hc, -⟩, hb⟩ := hs
    have hbefore : before.filter (fun b => key c ≤ key b) = [] := by
      apply filter_eq_nil_iff.mpr
      intro b hbm
      simpa using hb b hbm c (by simp)
    have hca : c ≠ a := fun he => lt_irrefl (key a) (he ▸ hc a (by simp))
    simp [ascendGreaterOrEqual, h, hbefore, (hc a (by simp)).le, hca]

theorem foldl_insert_items (t : OrdTree α key) : t.items.foldl insert empty = t := by
  apply ext_items
  simpa using foldl_insert_append t.items empty (by simpa using t.sorted)

theorem items_foldl_erase (l : List α) (t : OrdTree α key) :
    (l.foldl (fun s a => s.erase (key a)) t).items =
      t.items.filter fun x => ∀ a ∈ l, key x ≠ key a := by
  induction l generalizing t with
  | nil => simp
  | cons a l ih =>
    rw [List.foldl_cons, ih, erase, List.filter_filter]
    apply List.filter_congr
    intro x _
    simp [Bool.and_comm]

theorem get?_of_items_filter {t' : OrdTree α key} {p : α → Bool} (h : t'.items = t.items.filter p)
    (k : κ) : t'.get? k = (t.get? k).filter p := by
  cases hg : t.get? k with
  | none =>
    rw [get?_eq_none_iff] at hg
    rw [filter_none, get?_eq_none_iff, h]
    exact fun x hx => hg x (mem_of_mem_filter hx)
  | some a =>
    obtain ⟨ha, rfl⟩ := get?_eq_some_iff.mp hg
    by_cases hp : p a = true
    · rw [filter_some_pos hp, get?_eq_some_iff, h]
      exact ⟨mem_filter.mpr ⟨ha, hp⟩, rfl⟩
    rw [filter_some_neg (Bool.eq_false_iff.mpr hp), get?_eq_none_iff, h]
    intro x hx heq
    obtain ⟨hx, hpx⟩ := mem_filter.mp hx
    exact hp (eq_of_mem_of_key hx ha heq ▸ hpx)

theorem items_erase_from (t : OrdTree α key) (k : κ) :
    ((t.ascendGreaterOrEqual (some k)).foldl (fun s a => s.erase (key a)) t).items =
      t.items.filter fun x => key x < k := by
  rw [items_foldl_erase]
  apply filter_congr
  intro x hx
  rw [decide_eq_decide]
  constructor
  · intro h
    by_contra hge
    exact h x (mem_filter.mpr ⟨hx, by simpa using hge⟩) rfl
  · intro hlt a ha heq
    have hle : k ≤ key a := by simpa using (mem_filter.mp ha).2
    exact absurd (heq ▸ hlt) (not_lt.mpr hle)

theorem exists_max? (h : a ∈ t.items) : ∃ m, t.max? = some m := by
  cases hm : t.max? with
  | none => rw [getLast?_eq_none_iff.mp hm] at h; cases h
  | some m => exact ⟨m, rfl⟩

theorem map_key_max?_congr (h : ∀ k, (s.get? k).isSome = true ↔ (t.get? k).isSome = true) :
    s.max?.map key = t.max?.map key := by
  have hmem (t : OrdTree α key) (k : κ) : (t.get? k).isSome = true ↔ ∃ a ∈ t.items, key a = k := by
    rw [isSome_iff_exists]
    exact exists_congr fun _ => get?_eq_some_iff
  have hle {s t : OrdTree α key} {m m' : α} (hs : s.max? = some m) (ht : t.max? = some m')
      (h : (t.get? (key m)).isSome = true) : key m ≤ key m' := by
    obtain ⟨a, ha, heq⟩ := (hmem t _).mp h
    exact heq ▸ key_le_of_max? ht ha
  cases hs : s.max? with
  | none =>
    cases ht : t.max? with
    | none => rfl
    | some m =>
      obtain ⟨a, ha, -⟩ := (hmem s _).mp ((h _).mpr ((hmem t _).mpr ⟨m, mem_of_max? ht, rfl⟩))
      obtain ⟨m', hm'⟩ := exists_max? ha
      rw [hs] at hm'
      cases hm'
  | some m =>
    have hm := (h _).mp ((hmem s _).mpr ⟨m, mem_of_max? hs, rfl⟩)
    obtain ⟨a, ha, -⟩ := (hmem t _).mp hm
    obtain ⟨m', hm'⟩ := exists_max? ha
    have hback := (h _).mpr ((hmem t _).mpr ⟨m', mem_of_max? hm', rfl⟩)
    rw [hm', map_some, map_some, le_antisymm (hle hs hm' hm) (hle hm' hs hback)]

/-! A tree and its image under a map that keeps the keys. -/

variable {β : Type} {key' : β → κ}

structure Image (f : α → β) (t : OrdTree α key) (t' : OrdTree β key') : Prop where
  items : t'.items = t.items.map f
  keys : ∀ a ∈ t.items, key' (f a) = key a

theorem image_foldl_insert (f : α → β) (t : OrdTree α key) (h : ∀ a ∈ t.items, key' (f a) = key a) :
    Image f t (t.items.foldl (fun s a => s.insert (f a)) (empty : OrdTree β key')) := by
  refine ⟨?_, h⟩
  have hs : (t.items.map f).Pairwise fun a b => key' a < key' b := by
    rw [pairwise_map]
    apply t.sorted.imp_of_mem
    intro a b ha hb hlt
    rwa [h a ha, h b hb]
  rw [← foldl_map]
  simpa using foldl_insert_append (t.items.map f) empty (by simpa using hs)

namespace Image

variable {f : α → β} {t : OrdTree α key} {t' : OrdTree β key'}

theorem get? (h : Image f t t') (k : κ) : t'.get? k = (t.get? k).map f := by
  cases hg : t.get? k with
  | none =>
    rw [map_none, get?_eq_none_iff, h.items]
    intro b hb
    obtain ⟨a, ha, rfl⟩ := mem_map.mp hb
    rw [h.keys a ha]
    exact get?_eq_none_iff.mp hg a ha
  | some a =>
    obtain ⟨ha, hk⟩ := get?_eq_some_iff.mp hg
    rw [map_some, get?_eq_some_iff, h.items, h.keys a ha]
    exact ⟨mem_map_of_mem ha, hk⟩

theorem of_get? (hk : ∀ a ∈ t.items, key' (f a) = key a)
    (h : ∀ k, t'.get? k = (t.get? k).map f) : Image f t t' := by
  have him := image_foldl_insert f t hk
  rwa [ext_get? fun k => (h k).trans (him.get? k).symm]

variable (h : Image f t t')
include h

theorem max? : t'.max? = t.max?.map f := by
  unfold OrdTree.max?
  rw [h.items, getLast?_map]

theorem filter (p : κ → Bool) :
    t'.items.filter (fun b => p (key' b)) = (t.items.filter fun a => p (key a)).map f := by
  rw [h.items, List.filter_map]
  congr 1
  apply List.filter_congr
  intro a ha
  rw [Function.comp, h.keys a ha]

theorem ascendRange (lo hi : κ) : t'.ascendRange lo hi = (t.ascendRange lo hi).map f :=
  h.filter fun k => decide (lo ≤ k ∧ k < hi)

theorem ascendGreaterOrEqual (k : κ) :
    t'.ascendGreaterOrEqual (some k) = (t.ascendGreaterOrEqual (some k)).map f :=
  h.filter fun x => decide (k ≤ x)

theorem insert (ha : key' (f a) = key a) : Image f (t.insert a) (t'.insert (f a)) := by
  apply of_get?
  · intro x hx
    obtain rfl | ⟨hx, -⟩ := mem_insert.mp hx
    · exact ha
    · exact h.keys x hx
  · intro k
    rw [get?_insert, get?_insert, h.get?, ha]
    split <;> rfl

theorem erase (k : κ) : Image f (t.erase k) (t'.erase k) := by
  refine ⟨?_, fun a ha => h.keys a (mem_erase.mp ha).1⟩
  exact h.filter fun x => decide (x ≠ k)

theorem foldl_erase (hl : ∀ a ∈ l, key' (f a) = key a) :
    Image f (l.foldl (fun s a => s.erase (key a)) t)
      ((l.map f).foldl (fun s b => s.erase (key' b)) t') := by
  induction l generalizing t t' with
  | nil => exact h
  | cons a l ih =>
    rw [map_cons, foldl_cons, foldl_cons, hl a (mem_cons_self ..)]
    exact ih (h.erase (key a)) fun b hb => hl b (mem_cons_of_mem a hb)

theorem replace {g : α → β} (ha : a ∈ t.items) (hg : ∀ x ∈ t.items, x ≠ a → g x = f x)
    (hk : key' (g a) = key a) : Image g t (t'.insert (g a)) := by
  apply of_get?
  · intro x hx
    by_cases hxa : x = a
    · rw [hxa, hk]
    · rw [hg x hx hxa, h.keys x hx]
  · intro k
    rw [get?_insert, h.get?, hk]
    split
    next hka => rw [hka, get?_eq_some_iff.mpr ⟨ha, rfl⟩, map_some]
    rename_i hka
    cases hx : t.get? k with
    | none => rfl
    | some x =>
      obtain ⟨hmem, hkx⟩ := get?_eq_some_iff.mp hx
      have hne : x ≠ a := fun heq => hka (hkx.symm.trans (congrArg key heq))
      rw [map_some, map_some, hg x hmem hne]

end Image
end OrdTree
