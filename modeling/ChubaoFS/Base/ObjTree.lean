import ChubaoFS.Base.OrdTree

/-- A tree of mutable objects. Objects live in numbered cells and the index maps
a key to the cell of its item, so a pointer to an item that the tree has since
copied or dropped still reads the cell it was taken from. -/
structure ObjTree (α : Type) {κ : Type} [LinearOrder κ] (key : α → κ) where
  cell : Nat → α
  next : Nat
  index : OrdTree (κ × Nat) Prod.fst
  bound : ∀ e ∈ index.items, e.2 < next
  keyed : ∀ e ∈ index.items, key (cell e.2) = e.1

namespace ObjTree

variable {α κ : Type} [LinearOrder κ] {key : α → κ}

def empty [Inhabited α] : ObjTree α key where
  cell _ := default
  next := 0
  index := .empty
  bound := by simp
  keyed := by simp

def addr? (t : ObjTree α key) (k : κ) : Option Nat := (t.index.get? k).map Prod.snd

def get? (t : ObjTree α key) (k : κ) : Option α := (t.addr? k).map t.cell

variable {a : Nat} {t : ObjTree α key} {k : κ} {ks : List κ} {x : α}

theorem addr?_eq_some_iff : t.addr? k = some a ↔ (k, a) ∈ t.index.items := by
  constructor
  · intro h
    obtain ⟨⟨k', a'⟩, he, rfl⟩ := Option.map_eq_some_iff.mp h
    obtain ⟨hm, rfl⟩ := OrdTree.get?_eq_some_iff.mp he
    exact hm
  · intro h
    rw [addr?, OrdTree.get?_eq_some_iff.mpr ⟨h, rfl⟩]
    rfl

theorem key_cell_of_addr? (h : t.addr? k = some a) : key (t.cell a) = k :=
  t.keyed _ (addr?_eq_some_iff.mp h)

theorem addr?_lt_next (h : t.addr? k = some a) : a < t.next :=
  t.bound _ (addr?_eq_some_iff.mp h)

theorem get?_eq_some_iff : t.get? k = some x ↔ ∃ a, t.addr? k = some a ∧ t.cell a = x := by
  simp [get?]

theorem key_of_get? (h : t.get? k = some x) : key x = k := by
  obtain ⟨a, ha, rfl⟩ := get?_eq_some_iff.mp h
  exact key_cell_of_addr? ha

def update (t : ObjTree α key) (k : κ) (f : α → α) (hf : ∀ x, key (f x) = key x) :
    ObjTree α key where
  cell a := if t.addr? k = some a then f (t.cell a) else t.cell a
  next := t.next
  index := t.index
  bound := t.bound
  keyed e he := by
    split
    · rw [hf, t.keyed e he]
    · exact t.keyed e he

/-- A fresh object that is not in the tree; its cell is the old `next`. -/
def alloc (t : ObjTree α key) (x : α) : ObjTree α key where
  cell a := if a = t.next then x else t.cell a
  next := t.next + 1
  index := t.index
  bound e he := Nat.lt_succ_of_lt (t.bound e he)
  keyed e he := by rw [if_neg (Nat.ne_of_lt (t.bound e he)), t.keyed e he]

def insert (t : ObjTree α key) (x : α) : ObjTree α key where
  cell := (t.alloc x).cell
  next := t.next + 1
  index := t.index.insert (key x, t.next)
  bound e he := by
    rcases OrdTree.mem_insert.mp he with rfl | ⟨he, _⟩
    · exact Nat.lt_succ_self _
    · exact (t.alloc x).bound e he
  keyed e he := by
    rcases OrdTree.mem_insert.mp he with rfl | ⟨he, _⟩
    · simp [alloc]
    · exact (t.alloc x).keyed e he

def erase (t : ObjTree α key) (k : κ) : ObjTree α key where
  cell := t.cell
  next := t.next
  index := t.index.erase k
  bound e he := t.bound e (OrdTree.mem_erase.mp he).1
  keyed e he := t.keyed e (OrdTree.mem_erase.mp he).1

def copyItem (t : ObjTree α key) (k : κ) : ObjTree α key :=
  match t.get? k with
  | none => t
  | some x => t.insert x

def copyItems (t : ObjTree α key) (ks : List κ) : ObjTree α key := ks.foldl copyItem t

def clear (t : ObjTree α key) : ObjTree α key where
  cell := t.cell
  next := t.next
  index := .empty
  bound := by simp
  keyed := by simp

section

variable (t : ObjTree α key)

@[simp] theorem addr?_update (k k' : κ) (f : α → α)
    (hf : ∀ x, key (f x) = key x) : (t.update k f hf).addr? k' = t.addr? k' := rfl

@[simp] theorem addr?_alloc (x : α) (k : κ) : (t.alloc x).addr? k = t.addr? k := rfl

theorem addr?_insert (x : α) (k : κ) :
    (t.insert x).addr? k = if k = key x then some t.next else t.addr? k := by
  simp only [addr?, insert, OrdTree.get?_insert]
  split <;> rfl

theorem addr?_erase (k k' : κ) : (t.erase k).addr? k' = if k' = k then none else t.addr? k' := by
  simp only [addr?, erase, OrdTree.get?_erase]
  split <;> rfl

theorem get?_update (k k' : κ) (f : α → α) (hf : ∀ x, key (f x) = key x) :
    (t.update k f hf).get? k' = if k' = k then (t.get? k').map f else t.get? k' := by
  simp only [get?, addr?_update]
  split
  next h =>
    subst h
    cases ha : t.addr? k' with
    | none => rfl
    | some a => simp [update, ha]
  rename_i h
  cases ha : t.addr? k' with
  | none => rfl
  | some a =>
    have hne : t.addr? k ≠ some a := by
      intro hk
      exact h ((key_cell_of_addr? ha).symm.trans (key_cell_of_addr? hk))
    simp [update, hne]

theorem get?_insert (x : α) (k : κ) :
    (t.insert x).get? k = if k = key x then some x else t.get? k := by
  simp only [get?, addr?_insert]
  split
  · simp [insert, alloc]
  cases ha : t.addr? k with
  | none => rfl
  | some a => simp [insert, alloc, Nat.ne_of_lt (addr?_lt_next ha)]

theorem get?_erase (k k' : κ) : (t.erase k).get? k' = if k' = k then none else t.get? k' := by
  simp only [get?, addr?_erase]
  split <;> rfl

@[simp] theorem get?_alloc (x : α) (k : κ) : (t.alloc x).get? k = t.get? k := by
  simp only [get?, addr?_alloc]
  cases ha : t.addr? k with
  | none => rfl
  | some a => simp [alloc, Nat.ne_of_lt (addr?_lt_next ha)]

@[simp] theorem get?_copyItem (k k' : κ) : (t.copyItem k).get? k' = t.get? k' := by
  unfold copyItem
  split
  · rfl
  rename_i x hx
  rw [get?_insert, key_of_get? hx]
  split
  next h => rw [h, hx]
  · rfl

@[simp] theorem get?_copyItems (ks : List κ) (k : κ) : (t.copyItems ks).get? k = t.get? k := by
  induction ks generalizing t with
  | nil => rfl
  | cons k' ks ih => exact (ih (t.copyItem k')).trans (get?_copyItem t k' k)

end

theorem addr?_eq_none_of_get? (h : t.get? k = none) : t.addr? k = none :=
    Option.map_eq_none_iff.mp h

theorem update_of_get?_none {f : α → α} (hf : ∀ x, key (f x) = key x) (h : t.get? k = none) :
    t.update k f hf = t := by
  have hcell : (t.update k f hf).cell = t.cell := by
    funext a
    have hne : t.addr? k ≠ some a := by
      rw [addr?_eq_none_of_get? h]
      exact nofun
    exact if_neg hne
  cases t
  unfold update at hcell ⊢
  congr 1

/-! A cell in use keeps its key, and only an update of its own item writes it. -/

section

variable (t : ObjTree α key)

theorem cell_update (k : κ) (f : α → α) (hf : ∀ x, key (f x) = key x) (a : Nat) :
    (t.update k f hf).cell a = if t.addr? k = some a then f (t.cell a) else t.cell a := rfl

theorem cell_foldl_erase {β : Type*} (f : β → κ) (l : List β) (t : ObjTree α key) :
    (l.foldl (fun t b => t.erase (f b)) t).cell = t.cell := by
  induction l generalizing t with
  | nil => rfl
  | cons b l ih => exact ih (t.erase (f b))

theorem key_cell_update (k : κ) (f : α → α) (hf : ∀ x, key (f x) = key x)
    (a : Nat) : key ((t.update k f hf).cell a) = key (t.cell a) := by
  rw [cell_update]
  split
  · exact hf _
  · rfl

theorem cell_alloc_of_lt (x : α) (h : a < t.next) : (t.alloc x).cell a = t.cell a := by
  simp [alloc, Nat.ne_of_lt h]

theorem cell_insert_of_lt (x : α) (h : a < t.next) : (t.insert x).cell a = t.cell a :=
  cell_alloc_of_lt t x h

theorem copyItem_grows (k : κ) :
    t.next ≤ (t.copyItem k).next ∧ ∀ a < t.next, (t.copyItem k).cell a = t.cell a := by
  unfold copyItem
  split
  · exact ⟨le_rfl, fun _ _ => rfl⟩
  next x _ => exact ⟨Nat.le_succ _, fun a ha => cell_insert_of_lt t x ha⟩

theorem copyItems_grows (ks : List κ) :
    t.next ≤ (t.copyItems ks).next ∧ ∀ a < t.next, (t.copyItems ks).cell a = t.cell a := by
  induction ks generalizing t with
  | nil => exact ⟨le_rfl, fun _ _ => rfl⟩
  | cons k ks ih =>
    obtain ⟨hn, hc⟩ := copyItem_grows t k
    obtain ⟨hn', hc'⟩ := ih (t.copyItem k)
    exact ⟨hn.trans hn', fun a ha => (hc' a (Nat.lt_of_lt_of_le ha hn)).trans (hc a ha)⟩

theorem addr?_copyItems_of_not_mem (h : k ∉ ks) : (t.copyItems ks).addr? k = t.addr? k := by
  induction ks generalizing t with
  | nil => rfl
  | cons k' ks ih =>
    rw [List.mem_cons, not_or] at h
    refine (ih (t.copyItem k') h.2).trans ?_
    unfold copyItem
    split
    · rfl
    next x hx => rw [addr?_insert, if_neg (key_of_get? hx ▸ h.1)]

theorem addr?_copyItem (k k' : κ) :
    (t.copyItem k').addr? k = t.addr? k ∨ ∃ a, (t.copyItem k').addr? k = some a ∧ t.next ≤ a := by
  unfold copyItem
  split
  · exact .inl rfl
  rename_i x _
  rw [addr?_insert]
  split
  · exact .inr ⟨t.next, rfl, le_rfl⟩
  · exact .inl rfl

end

theorem addr?_of_copyItems (h : (t.copyItems ks).addr? k = some a) (ha : a < t.next) :
    t.addr? k = some a := by
  induction ks generalizing t with
  | nil => exact h
  | cons k' ks ih =>
    have hmid := ih h (ha.trans_le (copyItem_grows t k').1)
    obtain heq | ⟨b, hb, hle⟩ := addr?_copyItem t k k'
    · rwa [heq] at hmid
    · rw [hb] at hmid
      obtain rfl := Option.some.inj hmid
      omega

theorem addr?_copyItems_of_mem (hk : k ∈ ks) (h : (t.copyItems ks).addr? k = some a) :
    t.next ≤ a := by
  induction ks generalizing t with
  | nil => cases hk
  | cons k' ks ih =>
    have hgrow := (copyItem_grows t k').1
    by_cases hks : k ∈ ks
    · exact hgrow.trans (ih hks h)
    obtain rfl : k = k' := (List.mem_cons.mp hk).resolve_right hks
    have hsame : (t.copyItem k).addr? k = some a :=
      (addr?_copyItems_of_not_mem (t.copyItem k) hks).symm.trans h
    unfold copyItem at hsame
    split at hsame
    next hnone =>
      rw [addr?_eq_none_of_get? hnone] at hsame
      cases hsame
    next x hx =>
      rw [addr?_insert, if_pos (key_of_get? hx).symm] at hsame
      exact (Option.some.inj hsame).le

def Grows (t t' : ObjTree α key) : Prop :=
  t.next ≤ t'.next ∧ ∀ a < t.next, key (t'.cell a) = key (t.cell a)

theorem grows_refl (t : ObjTree α key) : t.Grows t := ⟨le_rfl, fun _ _ => rfl⟩

theorem Grows.trans {t₁ t₂ t₃ : ObjTree α key} (h : t₁.Grows t₂) (h' : t₂.Grows t₃) : t₁.Grows t₃ :=
  ⟨h.1.trans h'.1, fun a ha => (h'.2 a (ha.trans_le h.1)).trans (h.2 a ha)⟩

section

variable (t : ObjTree α key)

theorem grows_update (k : κ) (f : α → α) (hf : ∀ x, key (f x) = key x) :
    t.Grows (t.update k f hf) :=
  ⟨le_rfl, fun a _ => key_cell_update t k f hf a⟩

theorem grows_alloc (x : α) : t.Grows (t.alloc x) :=
  ⟨Nat.le_succ _, fun _ ha => congrArg key (cell_alloc_of_lt t x ha)⟩

theorem grows_insert (x : α) : t.Grows (t.insert x) :=
  ⟨Nat.le_succ _, fun _ ha => congrArg key (cell_insert_of_lt t x ha)⟩

theorem grows_erase (k : κ) : t.Grows (t.erase k) := ⟨le_rfl, fun _ _ => rfl⟩

theorem grows_clear : t.Grows t.clear := ⟨le_rfl, fun _ _ => rfl⟩

theorem grows_copyItems (ks : List κ) : t.Grows (t.copyItems ks) := by
  obtain ⟨hn, hc⟩ := copyItems_grows t ks
  exact ⟨hn, fun a ha => congrArg key (hc a ha)⟩

end

theorem grows_foldl {β : Type} {g : ObjTree α key → β → ObjTree α key}
    (hg : ∀ (t : ObjTree α key) (b : β), t.Grows (g t b)) (l : List β) (t : ObjTree α key) :
    t.Grows (l.foldl g t) := by
  induction l generalizing t with
  | nil => exact grows_refl t
  | cons b l ih => exact (hg t b).trans (ih (g t b))

end ObjTree
