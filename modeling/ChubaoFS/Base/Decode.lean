import ChubaoFS.Base.Bytes

namespace Bytes

abbrev Decode (σ : Type) := EStateM ReadErr (σ × Bytes)

variable {σ α β γ : Type}

def read (r : Bytes → Except ReadErr (α × Bytes)) : Decode σ α := fun (s, b) =>
  match r b with
  | .ok (x, rest) => .ok x (s, rest)
  | .error e => .error e (s, b)

def field (r : Bytes → Except ReadErr (α × Bytes)) (set : α → σ → σ) : Decode σ Unit := do
  let x ← read r
  modify fun (s, b) => (set x s, b)

def Decode.exec (d : Decode σ Unit) (s : σ) (b : Bytes) : σ × Option ReadErr :=
  match d (s, b) with
  | .ok _ (s', _) => (s', none)
  | .error e (s', _) => (s', some e)

def Decode.result (d : Decode σ Unit) (s : σ) (b : Bytes) : Except ReadErr σ :=
  match d.exec s b with
  | (s', none) => .ok s'
  | (_, some e) => .error e

variable {b : Bytes}

theorem Decode.exec_of_result {d : Decode σ Unit} {s s' : σ} (h : d.result s b = .ok s') :
    d.exec s b = (s', none) := by
  unfold result at h
  split at h
  next he =>
    obtain rfl := Except.ok.inj h
    exact he
  · cases h

theorem Decode.result_of_exec {d : Decode σ Unit} {s s' : σ} (h : d.exec s b = (s', none)) :
    d.result s b = .ok s' := by
  unfold result
  rw [h]

variable {rest : Bytes} {r : Bytes → Except ReadErr (α × Bytes)} {d : Decode σ α} {p : σ → γ}
  {x : α} {f : α → Decode σ β}

section

variable (h : r b = .ok (x, rest))
include h

theorem read_eq (s : σ) : read r (s, b) = .ok x (s, rest) := by
  simp [read, h]

theorem read_bind (f : α → Decode σ β) (s : σ) : (read r >>= f) (s, b) = f x (s, rest) := by
  simp [bind, EStateM.bind, read, h]

variable (set : α → σ → σ)

theorem field_eq (s : σ) : field r set (s, b) = .ok () (set x s, rest) := by
  unfold field
  rw [read_bind h]
  rfl

theorem field_bind (f : Unit → Decode σ β) (s : σ) :
    (field r set >>= f) (s, b) = f () (set x s, rest) := by
  simp only [bind, EStateM.bind, field_eq h]

end

def Decode.Keeps (p : σ → γ) (d : Decode σ α) : Prop :=
  ∀ s b, match d (s, b) with
    | .ok _ (s', _) => p s' = p s
    | .error _ (s', _) => p s' = p s

theorem Decode.Keeps.bind (hd : Keeps p d) (hf : ∀ x, Keeps p (f x)) : Keeps p (d >>= f) := by
  intro s b
  have h := hd s b
  simp only [Bind.bind, EStateM.bind]
  cases hr : d (s, b) with
  | ok x s' =>
    rw [hr] at h
    have h' := hf x s'.1 s'.2
    dsimp only at h ⊢
    rw [← h]
    exact h'
  | error e s' =>
    rw [hr] at h
    exact h

theorem Decode.Keeps.read (p : σ → γ) (r : Bytes → Except ReadErr (α × Bytes)) :
    Keeps p (Bytes.read r) := by
  intro s b
  simp only [Bytes.read]
  cases r b <;> rfl

theorem Decode.Keeps.field (r : Bytes → Except ReadErr (α × Bytes)) {set : α → σ → σ}
    (h : ∀ x s, p (set x s) = p s) : Keeps p (Bytes.field r set) :=
  (Keeps.read p r).bind fun x s _ => h x s

theorem Decode.Keeps.map {δ : Type} (h : Keeps p d) (f : γ → δ) : Keeps (fun s => f (p s)) d := by
  intro s b
  have hd := h s b
  cases hr : d (s, b) with
  | ok x t | error e t => rw [hr] at hd; exact congrArg f hd

theorem Decode.Keeps.exec {d : Decode σ Unit} (h : Keeps p d) (s : σ) (b : Bytes) :
    p (d.exec s b).1 = p s := by
  have hd := h s b
  unfold Decode.exec
  cases hr : d (s, b) with
  | ok x s' => rw [hr] at hd; exact hd
  | error e s' => rw [hr] at hd; exact hd

/-- A decoder takes `n` bytes off the buffer whenever it succeeds. -/
def Decode.Consumes (n : Nat) (d : Decode σ α) : Prop :=
  ∀ s b x s' b', d (s, b) = .ok x (s', b') → b.length = n + b'.length

variable {n : Nat}

theorem Decode.Consumes.short (h : Consumes n d) (s : σ) (hb : b.length < n) :
    ∃ e t, d (s, b) = .error e t := by
  cases hd : d (s, b) with
  | ok x t =>
    have hlen := h s b x t.1 t.2 hd
    omega
  | error e t => exact ⟨e, t, rfl⟩

theorem Decode.Consumes.bind {m : Nat} (hd : Consumes n d) (hf : ∀ x, Consumes m (f x)) :
    Consumes (n + m) (d >>= f) := by
  intro s b y s' b' h
  simp only [Bind.bind, EStateM.bind] at h
  cases hr : d (s, b) with
  | ok x t =>
    rw [hr] at h
    have h1 := hd s b x t.1 t.2 hr
    have h2 := hf x t.1 t.2 y s' b' h
    omega
  | error e t =>
    rw [hr] at h
    cases h

variable (h : ∀ b x rest, r b = .ok (x, rest) → b.length = n + rest.length)
include h

theorem Decode.Consumes.read : Consumes n (Bytes.read r : Decode σ α) := by
  intro s b x s' b' hr
  simp only [Bytes.read] at hr
  cases hb : r b with
  | ok p =>
    rw [hb] at hr
    cases hr
    exact h b p.1 p.2 hb
  | error e =>
    rw [hb] at hr
    cases hr

theorem Decode.Consumes.field (set : α → σ → σ) : Consumes n (Bytes.field r set) := by
  have hset (x : α) : Consumes 0 (modify fun (s, b) => (set x s, b)) := by
    intro s b y s' b' hr
    cases hr
    simp
  exact (Consumes.read h).bind hset

end Bytes
