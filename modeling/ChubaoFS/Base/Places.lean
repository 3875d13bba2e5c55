import Mathlib.Data.List.Basic

def Placed {ι κ : Type} (place : ι → κ) (held : κ → List ι) : Prop :=
  ∀ k, (held k).Nodup ∧ ∀ i ∈ held k, place i = k

namespace Placed

variable {ι κ : Type} {place : ι → κ} {held held' : κ → List ι} {i : ι} {k k₀ : κ}
  (h : Placed place held)
include h

theorem place_eq (hi : i ∈ held k) : place i = k := (h k).2 i hi

theorem notMem (hi : place i ≠ k) : i ∉ held k :=
  fun hm => hi (h.place_eq hm)

theorem drop (hsub : ∀ k, (held' k).Sublist (held k)) : Placed place held' :=
  fun k => ⟨(h k).1.sublist (hsub k), fun _ hj => h.place_eq ((hsub k).subset hj)⟩

theorem move [DecidableEq ι] (hi : place i = k₀) (hne : k₀ ≠ k)
    (hfrom : (held' k₀).Sublist (held k₀) ∧ i ∉ held' k₀) (hto : (held' k).Sublist (held k ++ [i]))
    (hrest : ∀ l, l ≠ k₀ → l ≠ k → (held' l).Sublist (held l)) :
    Placed (Function.update place i k) held' := by
  intro l
  by_cases hl : l = k
  · subst hl
    have hnot := h.notMem (hi ▸ hne)
    have hnd : (held l ++ [i]).Nodup := by
      refine List.nodup_append.mpr ⟨(h l).1, List.pairwise_singleton _ i, ?_⟩
      rintro a ha b hb rfl
      exact hnot (List.mem_singleton.mp hb ▸ ha)
    refine ⟨hnd.sublist hto, fun j hj => ?_⟩
    obtain hj | hj := List.mem_append.mp (hto.subset hj)
    · have hij : j ≠ i := fun he => hnot (he ▸ hj)
      rw [Function.update_of_ne hij, h.place_eq hj]
    · rw [List.mem_singleton.mp hj, Function.update_self]
  have hsub : (held' l).Sublist (held l) ∧ i ∉ held' l := by
    by_cases hl₀ : l = k₀
    · exact hl₀ ▸ hfrom
    · have hs := hrest l hl₀ hl
      exact ⟨hs, fun hm => h.notMem (hi ▸ Ne.symm hl₀) (hs.subset hm)⟩
  refine ⟨(h l).1.sublist hsub.1, fun j hj => ?_⟩
  have hij : j ≠ i := fun he => hsub.2 (he ▸ hj)
  rw [Function.update_of_ne hij, h.place_eq (hsub.1.subset hj)]

end Placed
