import ChubaoFS.Base.OrdTree

abbrev KeyStore (κ V : Type) [LinearOrder κ] := OrdTree (κ × V) (Prod.fst : κ × V → κ)

namespace KeyStore

open OrdTree

variable {κ V : Type} [LinearOrder κ]

def get (s : KeyStore κ V) (k : κ) : Option V := (s.get? k).map Prod.snd

def put (s : KeyStore κ V) (k : κ) (v : V) : KeyStore κ V := s.insert (k, v)

def del (s : KeyStore κ V) (k : κ) : KeyStore κ V := s.erase k

theorem mem_items {s : KeyStore κ V} {k : κ} {v : V} : (k, v) ∈ s.items ↔ s.get k = some v := by
  constructor
  · intro h
    have hget : s.get? k = some (k, v) := get?_eq_some_iff.mpr ⟨h, rfl⟩
    simp [get, hget]
  · intro h
    obtain ⟨⟨k', v'⟩, hget, rfl⟩ := Option.map_eq_some_iff.mp h
    obtain rfl : k' = k := key_of_get? hget
    exact mem_of_get? hget

theorem get_put (s : KeyStore κ V) (k k' : κ) (v : V) :
    (s.put k v).get k' = if k' = k then some v else s.get k' := by
  unfold get put
  rw [get?_insert]
  split <;> rfl

theorem get_del (s : KeyStore κ V) (k k' : κ) :
    (s.del k).get k' = if k' = k then none else s.get k' := by
  unfold get del
  rw [get?_erase]
  split <;> rfl

theorem ext_get {s t : KeyStore κ V} (h : ∀ k, s.get k = t.get k) : s = t := by
  apply ext_mem
  rintro ⟨k, v⟩
  rw [mem_items, mem_items, h]

/-! Copying a listing into a store. -/

def puts (s : KeyStore κ V) (l : List (κ × V)) : KeyStore κ V :=
  l.foldl (fun s x => s.put x.1 x.2) s

theorem get_puts {l : List (κ × V)} (hl : l.Pairwise fun a b => a.1 < b.1) (s : KeyStore κ V)
    (k : κ) : (s.puts l).get k = ((l.find? fun x => x.1 = k).map Prod.snd).or (s.get k) := by
  induction l generalizing s with
  | nil => rfl
  | cons x l ih =>
    obtain ⟨hx, hl⟩ := List.pairwise_cons.mp hl
    have hcons : s.puts (x :: l) = (s.put x.1 x.2).puts l := rfl
    rw [hcons, ih hl, get_put, List.find?_cons]
    by_cases h : x.1 = k
    · have hnone : l.find? (fun y => decide (y.1 = k)) = none := by
        apply List.find?_eq_none.mpr
        intro y hy
        have hne : x.1 ≠ y.1 := ne_of_lt (hx y hy)
        simpa [h] using hne.symm
      simp [h, hnone]
    · have hk : k ≠ x.1 := Ne.symm h
      simp [h, hk]

theorem get_puts_items (s t : KeyStore κ V) (k : κ) :
    (s.puts t.items).get k = (t.get k).or (s.get k) :=
  get_puts t.sorted s k

theorem puts_items_eq_iff (s t : KeyStore κ V) :
    s.puts t.items = t ↔ ∀ k, t.get k = none → s.get k = none := by
  constructor
  · intro h k hk
    have hget := get_puts_items s t k
    rw [h, hk] at hget
    exact hget.symm
  · intro h
    apply ext_get
    intro k
    rw [get_puts_items]
    cases hk : t.get k with
    | none => exact h k hk
    | some v => rfl

end KeyStore
