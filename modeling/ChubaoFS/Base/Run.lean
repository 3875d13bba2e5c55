import Mathlib.Tactic.Common

/-- States that a run reaches from `s₀`, every event of it being admitted in the state it is
taken in. -/
inductive Reach {σ ε : Type} (step : σ → ε → Option σ) (allow : σ → ε → Prop) (s₀ : σ) : σ → Prop
  | start : Reach step allow s₀ s₀
  | next {s s' : σ} {e : ε} : Reach step allow s₀ s → allow s e → step s e = some s' →
      Reach step allow s₀ s'

instance neZeroTwo : @NeZero Nat Zero.ofOfNat0 2 := ⟨Nat.succ_ne_zero 1⟩

namespace Reach

variable {σ ε : Type} {step : σ → ε → Option σ} {allow : σ → ε → Prop} {s₀ s s' : σ}

theorem invariant {P : σ → Prop} (h : Reach step allow s₀ s) (h₀ : P s₀)
    (hstep : ∀ s e s', P s → allow s e → step s e = some s' → P s') : P s := by
  induction h with
  | start => exact h₀
  | next _ ha hs ih => exact hstep _ _ _ ih ha hs

theorem trans {s₁ s₂ : σ} (h₁ : Reach step allow s₀ s₁) (h₂ : Reach step allow s₁ s₂) :
    Reach step allow s₀ s₂ := by
  induction h₂ with
  | start => exact h₁
  | next _ ha hs ih => exact .next ih ha hs

theorem of_foldlM (events : List ε) (h : events.foldlM step s = some s')
    (ha : ∀ e ∈ events, ∀ t, allow t e) (hs : Reach step allow s₀ s) : Reach step allow s₀ s' := by
  induction events generalizing s with
  | nil =>
    obtain rfl := Option.some.inj h
    exact hs
  | cons e events ih =>
    obtain ⟨t, ht, hrest⟩ := Option.bind_eq_some_iff.mp h
    refine ih hrest ?_ (.next hs (ha e (List.mem_cons_self ..) s) ht)
    exact fun e' he' => ha e' (List.mem_cons_of_mem e he')

theorem of_checked [∀ s e, Decidable (allow s e)] (events : List ε)
    (h : events.foldlM (fun s e => if allow s e then step s e else none) s = some s')
    (hs : Reach step allow s₀ s) : Reach step allow s₀ s' := by
  induction events generalizing s with
  | nil =>
    obtain rfl := Option.some.inj h
    exact hs
  | cons e events ih =>
    obtain ⟨t, ht, hrest⟩ := Option.bind_eq_some_iff.mp h
    dsimp only at ht
    split at ht
    next ha => exact ih hrest (.next hs ha ht)
    · cases ht

theorem exists_checked (step : σ → ε → Option σ) (allow : σ → ε → Prop)
    [∀ s e, Decidable (allow s e)] (s₀ : σ) (events : List ε) (p : σ → Bool)
    (h : (events.foldlM (fun s e => if allow s e then step s e else none) s₀).any p = true) :
    ∃ s, Reach step allow s₀ s ∧ p s = true := by
  cases hs : events.foldlM (fun s e => if allow s e then step s e else none) s₀ with
  | none => simp [hs] at h
  | some s => exact ⟨s, of_checked events hs .start, by simpa [hs] using h⟩

end Reach
