import Mathlib.Algebra.BigOperators.Group.List.Basic
import ChubaoFS.Base.Run

/-- A program that makes calls and goes on with their answers. A note says what a call is made
for; no answer depends on it. -/
inductive Prog (N R : Type) (A : R → Type) (α : Type)
  | ret (a : α) : Prog N R A α
  | call (note : N) (r : R) (k : A r → Prog N R A α) : Prog N R A α

namespace Prog

variable {N R σ α : Type} {A : R → Type} {exec : N → (r : R) → σ → σ × A r} {Q : α → σ → Prop}
  {s : σ} {I : σ → Prop}

def run (exec : Nat → N → (r : R) → σ → σ × A r) : Prog N R A α → Nat → σ → σ × α
  | ret a, _, s => (s, a)
  | call note r k, i, s => run exec (k (exec i note r s).2) (i + 1) (exec i note r s).1

section

variable (exec : Nat → N → (r : R) → σ → σ × A r)

theorem run_call (note : N) (r : R) (k : A r → Prog N R A α) (i : Nat) (s : σ) :
    run exec (call note r k) i s = run exec (k (exec i note r s).2) (i + 1) (exec i note r s).1 :=
  rfl

/-- Some call of the run was answered as `Q` says. -/
def Saw (exec : Nat → N → (r : R) → σ → σ × A r) (Q : (r : R) → A r → Prop) :
    Prog N R A α → Nat → σ → Prop
  | ret _, _, _ => False
  | call note r k, i, s =>
    Q r (exec i note r s).2 ∨ Saw exec Q (k (exec i note r s).2) (i + 1) (exec i note r s).1

variable (Q : (r : R) → A r → Prop)

@[simp] theorem saw_ret (a : α) (i : Nat) (s : σ) : Saw exec Q (ret a : Prog N R A α) i s ↔ False :=
    Iff.rfl

theorem saw_call (note : N) (r : R) (k : A r → Prog N R A α) (i : Nat) (s : σ) :
    Saw exec Q (call note r k) i s ↔ Q r (exec i note r s).2 ∨
      Saw exec Q (k (exec i note r s).2) (i + 1) (exec i note r s).1 := Iff.rfl

end

theorem not_saw_call {exec : Nat → N → (r : R) → σ → σ × A r} {Q : (r : R) → A r → Prop} {note : N}
    {r : R} {k : A r → Prog N R A α} {i : Nat} (hr : ∀ a, ¬ Q r a)
    (hk : ∀ a j s', ¬ Saw exec Q (k a) j s') : ¬ Saw exec Q (call note r k) i s := by
  rw [saw_call]
  rintro (h | h)
  · exact hr _ h
  · exact hk _ _ _ h

/-- `I` holds before every call of the run and at its end, and `Q` of what it ends with. A run that
stops short, at whatever call, stops where `I` holds. -/
def Along (exec : N → (r : R) → σ → σ × A r) (I : σ → Prop) (Q : α → σ → Prop) :
    Prog N R A α → σ → Prop
  | ret a, s => I s ∧ Q a s
  | call note r k, s => I s ∧ Along exec I Q (k (exec note r s).2) (exec note r s).1

variable {p : Prog N R A α} (h : p.Along exec I Q s)
include h

theorem Along.here : I s := by
  cases p with
  | ret a | call note r k => exact h.1

theorem Along.run (i : Nat) : Q (p.run (fun _ => exec) i s).2 (p.run (fun _ => exec) i s).1 := by
  induction p generalizing s i with
  | ret a => exact h.2
  | call note r k ih => exact ih _ h.2 (i + 1)

end Prog

structure Pool (σ N R : Type) (A : R → Type) (α : Type) where
  state : σ
  progs : List (Prog N R A α)

inductive PoolEvent (O E : Type)
  | start (op : O)
  | step (i : Nat) (env : E)

namespace Pool

variable {N R O E σ α : Type} {A : R → Type}

def step (prog : O → Prog N R A α) (exec : E → (r : R) → σ → σ × A r) (s : Pool σ N R A α) :
    PoolEvent O E → Option (Pool σ N R A α)
  | .start op => some { s with progs := s.progs ++ [prog op] }
  | .step i env =>
    match s.progs[i]? with
    | some (.call _ r k) => some ⟨(exec env r s.state).1, s.progs.set i (k (exec env r s.state).2)⟩
    | _ => none

def Admits (allow : E → N → R → σ → Prop) (s : Pool σ N R A α) : PoolEvent O E → Prop
  | .start _ => True
  | .step i env => ∀ note r k, s.progs[i]? = some (.call note r k) → allow env note r s.state

end Pool

/-- Accounts for what the calls of a program hand over and get: a call needs `spend` in hand and
leaves the program with `earn` in place of it. Only answers that `expects` allows count. -/
structure Ledger (N R : Type) (A : R → Type) (C : Type) where
  spend : N → R → C
  earn : N → (r : R) → A r → C
  expects : N → (r : R) → A r → Prop

namespace Ledger

variable {N R O E σ α C : Type} {A : R → Type} [AddCommMonoid C]

def Follows (L : Ledger N R A C) : Prog N R A α → C → Prop
  | .ret _, _ => True
  | .call note r k, c => ∃ rest, c = rest + L.spend note r ∧
      ∀ a, L.expects note r a → L.Follows (k a) (rest + L.earn note r a)

variable {L : Ledger N R A C} {c : C}

theorem Follows.add (h : L.Follows p c) (d : C) : L.Follows p (d + c) := by
  induction p generalizing c with
  | ret a => trivial
  | call note r k ih =>
    obtain ⟨rest, rfl, hnext⟩ := h
    refine ⟨d + rest, (add_assoc d rest _).symm, ?_⟩
    intro a ha
    rw [add_assoc]
    exact ih a (hnext a ha)

theorem Follows.add_zero (h : L.Follows p c) : L.Follows p (c + 0) := by
  rwa [AddMonoid.add_zero]

/-- Every program of the pool follows the ledger with what it holds, and `inv` holds of the state
and of all that is held together. -/
def Balanced (L : Ledger N R A C) (inv : σ → C → Prop) (s : Pool σ N R A α) : Prop :=
  ∃ held : List C, List.Forall₂ L.Follows s.progs held ∧ inv s.state held.sum

theorem exists_replace {Q : Prog N R A α → C → Prop} {progs : List (Prog N R A α)} {held : List C}
    (h : List.Forall₂ Q progs held) {i : Nat} (hp : progs[i]? = some p) :
    ∃ c others, Q p c ∧ held.sum = others + c ∧ ∀ p' c', Q p' c' →
      ∃ held', List.Forall₂ Q (progs.set i p') held' ∧ held'.sum = others + c' := by
  induction h generalizing i with
  | nil => simp at hp
  | @cons q c progs held hq htail ih =>
    cases i with
    | zero =>
      obtain rfl : q = p := by simpa using hp
      refine ⟨c, held.sum, hq, ?_, ?_⟩
      · rw [List.sum_cons, add_comm]
      · intro p' c' hp'
        exact ⟨c' :: held, .cons hp' htail, by rw [List.sum_cons, add_comm]⟩
    | succ i =>
      obtain ⟨d, others, hd, hsum, hput⟩ := ih (by simpa using hp)
      refine ⟨d, c + others, hd, ?_, ?_⟩
      · rw [List.sum_cons, hsum, add_assoc]
      · intro p' c' hp'
        obtain ⟨held', hall, hsum'⟩ := hput p' c' hp'
        exact ⟨c :: held', .cons hq hall, by rw [List.sum_cons, hsum', add_assoc]⟩

theorem Balanced.step {inv : σ → C → Prop} {prog : O → Prog N R A α}
    {exec : E → (r : R) → σ → σ × A r} {allow : E → N → R → σ → Prop}
    (hprog : ∀ op, L.Follows (prog op) 0)
    (hcall : ∀ env note r s c, allow env note r s → inv s (c + L.spend note r) →
      L.expects note r (exec env r s).2 ∧ inv (exec env r s).1 (c + L.earn note r (exec env r s).2))
    {s s' : Pool σ N R A α} {e : PoolEvent O E} (h : L.Balanced inv s) (ha : s.Admits allow e)
    (hs : s.step prog exec e = some s') : L.Balanced inv s' := by
  obtain ⟨held, hall, hinv⟩ := h
  cases e with
  | start op =>
    obtain rfl := Option.some.inj hs
    refine ⟨held ++ [0], ?_, ?_⟩
    · exact List.rel_append hall (.cons (hprog op) .nil)
    · simpa using hinv
  | step i env =>
    unfold Pool.step at hs
    dsimp only at hs
    split at hs
    next note r k hp =>
      obtain rfl := Option.some.inj hs
      obtain ⟨c, others, ⟨rest, rfl, hnext⟩, hsum, hput⟩ := exists_replace hall hp
      rw [hsum, ← add_assoc] at hinv
      obtain ⟨hexp, hinv'⟩ := hcall env note r s.state (others + rest) (ha note r k hp) hinv
      obtain ⟨held', hall', hsum'⟩ := hput _ _ (hnext _ hexp)
      refine ⟨held', hall', ?_⟩
      rw [hsum', ← add_assoc]
      exact hinv'
    · cases hs

end Ledger
