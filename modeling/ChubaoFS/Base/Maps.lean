import Mathlib

namespace Maps

open List AList

/-! Loops that fill a map from a list of entries, or take entries out of it, and sums over the
entries of a map. -/

variable {α β γ : Type} [DecidableEq α] {a : α} {m : AList fun _ : α => β} {σ : Type}

theorem lookup_foldl_insert (f : α → γ → β) (l : List (Sigma fun _ : α => γ))
    (m : AList fun _ : α => β) (hl : l.NodupKeys) :
    (l.foldl (fun m x => m.insert x.1 (f x.1 x.2)) m).lookup a =
      ((l.dlookup a).map (f a)).or (m.lookup a) := by
  induction l generalizing m with
  | nil => rfl
  | cons x l ih =>
    obtain ⟨hx, hl⟩ := nodupKeys_cons.mp hl
    rw [foldl_cons, ih _ hl]
    by_cases h : a = x.1
    · subst h
      rw [dlookup_eq_none.mpr hx, lookup_insert, dlookup_cons_eq]
      rfl
    · rw [lookup_insert_ne h, dlookup_cons_ne _ _ h]

theorem dlookup_filter (p : α → β → Bool) (l : List (Sigma fun _ : α => β)) (hl : l.NodupKeys) :
    (l.filter fun x => p x.1 x.2).dlookup a = (l.dlookup a).filter (p a) := by
  induction l with
  | nil => rfl
  | cons x l ih =>
    obtain ⟨hx, hl⟩ := nodupKeys_cons.mp hl
    by_cases h : a = x.1
    · subst h
      rw [dlookup_cons_eq, filter_cons]
      split
      next hp => rw [dlookup_cons_eq, Option.filter_some_pos hp]
      next hp =>
        rw [ih hl, dlookup_eq_none.mpr hx, Option.filter_some, if_neg hp]
        rfl
    rw [dlookup_cons_ne _ _ h, ← ih hl, filter_cons]
    split
    · rw [dlookup_cons_ne _ _ h]
    · rfl

theorem lookup_foldl_erase (l : List (Sigma fun _ : α => β)) (m : AList fun _ : α => β) :
    (l.foldl (fun m x => m.erase x.1) m).lookup a =
      if (l.dlookup a).isSome then none else m.lookup a := by
  induction l generalizing m with
  | nil => rfl
  | cons x l ih =>
    rw [foldl_cons, ih]
    by_cases h : a = x.1
    · subst h
      rw [dlookup_cons_eq, lookup_erase, ite_self]
      rfl
    · rw [dlookup_cons_ne _ _ h, lookup_erase_ne h]

theorem lookup_insert (m : AList fun _ : α => β) (k : α) (b : β) :
    (m.insert k b).lookup a = if a = k then some b else m.lookup a := by
  split
  next h => rw [h, AList.lookup_insert]
  next h => exact AList.lookup_insert_ne h

theorem get_foldl_last (get : σ → α → Option β) {put : σ → γ → σ} {key : γ → α} {val : γ → β}
    (h : ∀ s x a, get (put s x) a = if a = key x then some (val x) else get s a) (l : List γ)
    (s : σ) :
    get (l.foldl put s) a = ((l.reverse.find? fun x => key x = a).map val).or (get s a) := by
  induction l generalizing s with
  | nil => rfl
  | cons x l ih =>
    rw [foldl_cons, ih, reverse_cons, find?_append, h]
    cases l.reverse.find? (fun x => decide (key x = a)) with
    | some y => rfl
    | none =>
      by_cases hx : key x = a
      · simp [hx]
      · simp [hx, Ne.symm hx]

theorem lookup_foldl_insert_last (key : γ → α) (val : γ → β) (l : List γ)
    (m : AList fun _ : α => β) : (l.foldl (fun m x => m.insert (key x) (val x)) m).lookup a =
      ((l.reverse.find? fun x => key x = a).map val).or (m.lookup a) :=
  get_foldl_last (fun m a => m.lookup a) (fun m x _ => lookup_insert m (key x) (val x)) l m

theorem lookup_foldl_insert_first (key : γ → α) (val : γ → β) (l : List γ)
    (m : AList fun _ : α => β) :
    (l.foldl (fun m x => if (m.lookup (key x)).isSome then m else m.insert (key x) (val x))
      m).lookup a = (m.lookup a).or ((l.find? fun x => key x = a).map val) := by
  induction l generalizing m with
  | nil => exact (Option.or_none).symm
  | cons x l ih =>
    rw [foldl_cons, ih, find?_cons]
    by_cases h : key x = a
    · subst h
      cases hm : m.lookup (key x) with
      | some b => simp [hm]
      | none => simp
    have hx : (if (m.lookup (key x)).isSome then m else m.insert (key x) (val x)).lookup a =
        m.lookup a := by
      split
      · rfl
      · exact lookup_insert_ne (Ne.symm h)
    rw [hx]
    simp [h]

theorem find?_congr_of_unique {p : γ → Bool} {l l' : List γ} (h : ∀ x, x ∈ l ↔ x ∈ l')
    (hone : ∀ x ∈ l, ∀ y ∈ l, p x = true → p y = true → x = y) : l.find? p = l'.find? p := by
  cases hl : l.find? p with
  | none =>
    symm
    apply find?_eq_none.mpr
    intro x hx
    exact find?_eq_none.mp hl x ((h x).mpr hx)
  | some x =>
    have hx := mem_of_find?_eq_some hl
    have hpx := find?_some hl
    cases hl' : l'.find? p with
    | none => exact absurd hpx (find?_eq_none.mp hl' x ((h x).mp hx))
    | some y =>
      have hy := (h y).mpr (mem_of_find?_eq_some hl')
      rw [hone x hx y hy hpx (find?_some hl')]

theorem foldl_keeps (g : σ → β) {f : σ → γ → σ} (h : ∀ s x, g (f s x) = g s) (l : List γ) (s : σ) :
    g (l.foldl f s) = g s := by
  induction l generalizing s with
  | nil => rfl
  | cons x l ih => rw [foldl_cons, ih, h]

/-! Sums. -/

def total (f : β → Nat) (l : List (Sigma fun _ : α => β)) : Nat := (l.map fun x => f x.2).sum

theorem total_erase (f : β → Nat) {b : β} (h : m.lookup a = some b) :
    total f m.entries = f b + total f (m.erase a).entries := by
  have hmem : a ∈ m.keys := lookup_isSome.mp (Option.isSome_iff_exists.mpr ⟨b, h⟩)
  obtain ⟨b', l₁, l₂, -, hm, he⟩ := exists_of_kerase hmem
  have hb : b' = b := by
    have hmem : ⟨a, b'⟩ ∈ m.entries := by
      rw [hm]
      exact mem_append_right _ (mem_cons_self ..)
    exact Option.some.inj ((mem_dlookup m.nodupKeys hmem).symm.trans h)
  subst hb
  change total f m.entries = f b' + total f (kerase a m.entries)
  rw [he, hm]
  simp only [total, map_append, map_cons, sum_append, sum_cons]
  omega

theorem total_add_le (f : β → Nat) {l : List (Sigma fun _ : α => β)} (hl : l.NodupKeys)
    (h : ∀ x ∈ l, ∃ b, m.lookup x.1 = some b ∧ f x.2 ≤ f b) :
    total f l ≤ total f m.entries ∧ ∀ b, m.lookup a = some b →
        total f l + f b ≤ total f m.entries + ((l.dlookup a).map f).getD 0 := by
  induction l generalizing m with
  | nil =>
    refine ⟨Nat.zero_le _, fun b hb => ?_⟩
    have := total_erase f hb
    change 0 + _ ≤ _ + 0
    omega
  | cons x l ih =>
    obtain ⟨hx, hl⟩ := nodupKeys_cons.mp hl
    obtain ⟨c, hc, hle⟩ := h x (mem_cons_self ..)
    have hrest : ∀ y ∈ l, ∃ b, (m.erase x.1).lookup y.1 = some b ∧ f y.2 ≤ f b := by
      intro y hy
      have hne : y.1 ≠ x.1 := fun he => hx (he ▸ mem_keys_of_mem hy)
      rw [lookup_erase_ne hne]
      exact h y (mem_cons_of_mem _ hy)
    obtain ⟨hsum, hkey⟩ := ih hl hrest
    have htotal := total_erase f hc
    have hcons : total f (x :: l) = f x.2 + total f l := rfl
    refine ⟨by omega, fun b hb => ?_⟩
    by_cases ha : a = x.1
    · subst ha
      obtain rfl := Option.some.inj (hc.symm.trans hb)
      rw [dlookup_cons_eq]
      change _ ≤ _ + f x.2
      omega
    have := hkey b (by rw [lookup_erase_ne ha]; exact hb)
    rw [dlookup_cons_ne _ _ ha]
    omega

end Maps
