import Mathlib.Data.List.Nodup
import ChubaoFS.Base.Run

/-! Copies of one request on their way to a replicated log. A copy is proposed at most once, may be
answered before its outcome is known, and may reach the log at any later time or never. -/

inductive Copy (C : Type)
  | unsent
  | flying
  | proposed (c : C)
  | settled

/-- The state that the log has led to, the copies with the replies to them, and the log itself.
An entry carries the number of its copy, or none when it is not of this request. -/
structure Copies (σ C K : Type) where
  state : σ
  copy : Nat → Copy C
  replies : List (Nat × K)
  log : List (Option Nat × C)

/-- A copy is turned down without a proposal, is answered while it goes on, is proposed, or is
applied; or an entry of somebody else is applied. -/
inductive CopyEvent (C K : Type)
  | reject (k : Nat) (code : K)
  | early (k : Nat) (code : K)
  | propose (k : Nat) (c : C)
  | commit (k : Nat)
  | other (c : C)

namespace Copies

open List Function

variable {σ C K : Type}

def start (s₀ : σ) : Copies σ C K := ⟨s₀, fun _ => .unsent, [], []⟩

def applied (s : Copies σ C K) : List Nat := s.log.filterMap Prod.fst

def replay (apply : σ → C → σ × K) (s₀ : σ) (log : List (Option Nat × C)) : σ :=
  log.foldl (fun s e => (apply s e.2).1) s₀

def send (k : Nat) (s : Copies σ C K) : Copies σ C K :=
  { s with copy := Function.update s.copy k .flying }

def step (apply : σ → C → σ × K) (s : Copies σ C K) : CopyEvent C K → Option (Copies σ C K)
  | .reject k code =>
    match s.copy k with
    | .flying => some { s with
        copy := Function.update s.copy k .settled, replies := (k, code) :: s.replies }
    | _ => none
  | .early k code =>
    match s.copy k with
    | .flying => some { s with replies := (k, code) :: s.replies }
    | .proposed _ => some { s with replies := (k, code) :: s.replies }
    | _ => none
  | .propose k c =>
    match s.copy k with
    | .flying => some { s with copy := Function.update s.copy k (.proposed c) }
    | _ => none
  | .commit k =>
    match s.copy k with
    | .proposed c => some
        { state := (apply s.state c).1
          copy := Function.update s.copy k .settled
          replies := (k, (apply s.state c).2) :: s.replies
          log := s.log ++ [(some k, c)] }
    | _ => none
  | .other c => some { s with state := (apply s.state c).1, log := s.log ++ [(none, c)] }

def Admits (makes : C → Prop) (rejects early : K → Prop) : CopyEvent C K → Prop
  | .reject _ code => rejects code
  | .early _ code => early code
  | .propose _ c => makes c
  | _ => True

def Explained (apply : σ → C → σ × K) (quiet : K → Prop) (s₀ : σ) (log : List (Option Nat × C))
    (k : Nat) (code : K) : Prop :=
  quiet code ∨ ∃ before c after, log = before ++ (some k, c) :: after ∧
    (apply (replay apply s₀ before) c).2 = code

structure Sound (apply : σ → C → σ × K) (makes : C → Prop) (quiet : K → Prop) (s₀ : σ)
    (s : Copies σ C K) : Prop where
  state : s.state = replay apply s₀ s.log
  nodup : s.applied.Nodup
  settled : ∀ k ∈ s.applied, s.copy k = .settled
  proposed : ∀ k c, s.copy k = .proposed c → makes c
  made : ∀ k c, (some k, c) ∈ s.log → makes c
  replied : ∀ k code, (k, code) ∈ s.replies → Explained apply quiet s₀ s.log k code

variable {apply : σ → C → σ × K} {makes : C → Prop} {quiet : K → Prop} {s₀ : σ}
  {s s' : Copies σ C K} {k : Nat} {code : K}

theorem Explained.append {log : List (Option Nat × C)} (h : Explained apply quiet s₀ log k code)
    (e : Option Nat × C) : Explained apply quiet s₀ (log ++ [e]) k code := by
  obtain hq | ⟨before, c, after, rfl, hcode⟩ := h
  · exact .inl hq
  · refine .inr ⟨before, c, after ++ [e], ?_, hcode⟩
    rw [append_assoc, cons_append]

theorem replay_append (log : List (Option Nat × C)) (e : Option Nat × C) :
    replay apply s₀ (log ++ [e]) = (apply (replay apply s₀ log) e.2).1 := by
  unfold replay
  rw [foldl_append]
  rfl

theorem sound_start : Sound apply makes quiet s₀ (start s₀) where
  state := rfl
  nodup := nodup_nil
  settled := nofun
  proposed := nofun
  made := nofun
  replied := nofun

section

variable (h : Sound apply makes quiet s₀ s)
include h

theorem Sound.setCopy {x : Copy C} (hk : s.copy k ≠ .settled)
    (hx : ∀ c, x = .proposed c → makes c) :
    Sound apply makes quiet s₀ { s with copy := update s.copy k x } where
  __ := h
  settled j hj := by
    have hne : j ≠ k := by
      rintro rfl
      exact hk (h.settled j hj)
    exact (update_of_ne hne _ _).trans (h.settled j hj)
  proposed j c hj := by
    dsimp only at hj
    by_cases hjk : j = k
    · subst hjk
      rw [update_self] at hj
      exact hx c hj
    · rw [update_of_ne hjk] at hj
      exact h.proposed j c hj

theorem Sound.reply (he : Explained apply quiet s₀ s.log k code) :
    Sound apply makes quiet s₀ { s with replies := (k, code) :: s.replies } where
  __ := h
  replied j c hj := by
    obtain hj | hj := mem_cons.mp hj
    · cases hj
      exact he
    · exact h.replied j c hj

theorem Sound.append {e : Option Nat × C}
    (he : ∀ k, e.1 = some k → s.copy k = .settled ∧ k ∉ s.applied ∧ makes e.2) :
    Sound apply makes quiet s₀ { s with state := (apply s.state e.2).1, log := s.log ++ [e] } where
  state := by rw [replay_append, ← h.state]
  nodup := by
    unfold applied
    rw [filterMap_append]
    refine List.Nodup.append h.nodup ?_ ?_
    · cases he : e.1 <;> simp [he]
    · intro k hk hlast
      obtain ⟨e', hmem, hnum⟩ := mem_filterMap.mp hlast
      rw [mem_singleton.mp hmem] at hnum
      exact (he k hnum).2.1 hk
  settled k hk := by
    unfold applied at hk
    rw [filterMap_append, mem_append] at hk
    obtain hk | hk := hk
    · exact h.settled k hk
    · obtain ⟨e', hmem, hnum⟩ := mem_filterMap.mp hk
      rw [mem_singleton.mp hmem] at hnum
      exact (he k hnum).1
  proposed := h.proposed
  made k c hk := by
    obtain hk | hk := mem_append.mp hk
    · exact h.made k c hk
    · obtain rfl := mem_singleton.mp hk
      exact (he k rfl).2.2
  replied k code hk := (h.replied k code hk).append e

end

inductive Stepped (apply : σ → C → σ × K) (s : Copies σ C K) : CopyEvent C K → Copies σ C K → Prop
  | reject {k : Nat} {code : K} : s.copy k = .flying → Stepped apply s (.reject k code)
      { s with copy := Function.update s.copy k .settled, replies := (k, code) :: s.replies }
  | early {k : Nat} {code : K} : Stepped apply s (.early k code)
      { s with replies := (k, code) :: s.replies }
  | propose {k : Nat} {c : C} : s.copy k = .flying → Stepped apply s (.propose k c)
      { s with copy := Function.update s.copy k (.proposed c) }
  | commit {k : Nat} {c : C} : s.copy k = .proposed c → Stepped apply s (.commit k)
      { state := (apply s.state c).1
        copy := Function.update s.copy k .settled
        replies := (k, (apply s.state c).2) :: s.replies
        log := s.log ++ [(some k, c)] }
  | other {c : C} : Stepped apply s (.other c)
      { s with state := (apply s.state c).1, log := s.log ++ [(none, c)] }

variable {e : CopyEvent C K}

theorem stepped_of_step (hs : s.step apply e = some s') : Stepped apply s e s' := by
  cases e with
  | reject k code =>
    simp only [Copies.step] at hs
    split at hs
    next hk =>
      cases hs
      exact .reject hk
    · cases hs
  | early k code =>
    simp only [Copies.step] at hs
    split at hs
    · cases hs
      exact .early
    · cases hs
      exact .early
    · cases hs
  | propose k c =>
    simp only [Copies.step] at hs
    split at hs
    next hk =>
      cases hs
      exact .propose hk
    · cases hs
  | commit k =>
    simp only [Copies.step] at hs
    split at hs
    next c hk =>
      cases hs
      exact .commit hk
    · cases hs
  | other c =>
    cases hs
    exact .other

theorem Sound.step {rejects early : K → Prop} (h : Sound apply makes quiet s₀ s)
    (hrej : ∀ code, rejects code → quiet code) (hearly : ∀ code, early code → quiet code)
    (ha : Admits makes rejects early e) (hs : s.step apply e = some s') :
    Sound apply makes quiet s₀ s' := by
  cases stepped_of_step hs with
  | @reject k code hk =>
    exact (h.setCopy (x := .settled) (by rw [hk]; exact nofun) nofun).reply (.inl (hrej code ha))
  | @early k code => exact h.reply (.inl (hearly code ha))
  | @propose k c hk =>
    refine h.setCopy (by rw [hk]; exact nofun) ?_
    intro c' hc'
    obtain rfl := Copy.proposed.inj hc'
    exact ha
  | @commit k c hk =>
    have hnew : k ∉ s.applied := by
      intro hmem
      have hset := h.settled k hmem
      rw [hk] at hset
      cases hset
    have hsettle : Sound apply makes quiet s₀
        { s with copy := update s.copy k .settled } :=
      h.setCopy (by rw [hk]; exact nofun) nofun
    have hlog := hsettle.append (e := (some k, c)) (by
      intro j hj
      cases hj
      exact ⟨update_self .., hnew, h.proposed k c hk⟩)
    refine hlog.reply (.inr ⟨s.log, c, [], rfl, ?_⟩)
    rw [← h.state]
  | @other c => exact h.append (e := (none, c)) nofun

theorem unsent_of_step (hs : s.step apply e = some s') (hk : s.copy k = .unsent) :
    s'.copy k = .unsent := by
  have hother {j : Nat} {x y : Copy C} (hj : s.copy j = y) (hy : y ≠ .unsent) :
      update s.copy j x k = .unsent := by
    rw [update_of_ne]
    · exact hk
    · rintro rfl
      exact hy (hj.symm.trans hk)
  cases stepped_of_step hs with
  | reject hj | propose hj | commit hj => exact hother hj nofun
  | early => exact hk
  | other => exact hk

theorem mem_replies_of_step {x : Nat × K} (hs : s.step apply e = some s') (hx : x ∈ s.replies) :
    x ∈ s'.replies := by
  cases stepped_of_step hs with
  | reject _ | early | commit _ => exact mem_cons_of_mem _ hx
  | propose _ => exact hx
  | other => exact hx

theorem Sound.applied_of_reply (h : Sound apply makes quiet s₀ s) (hr : (k, code) ∈ s.replies)
    (hq : ¬ quiet code) : k ∈ s.applied := by
  obtain ⟨before, c, after, hlog, -⟩ := (h.replied k code hr).resolve_left hq
  refine mem_filterMap.mpr ⟨(some k, c), ?_, rfl⟩
  rw [hlog]
  exact mem_append_right _ (mem_cons_self ..)

end Copies
