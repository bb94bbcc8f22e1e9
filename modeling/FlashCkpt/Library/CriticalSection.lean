import Mathlib.Algebra.Order.Ring.Nat
import Mathlib.Logic.Function.Basic

/-! Threads over a shared state, one of which at most is in a critical section. What holds
of the shared state depends on where that thread is, so the invariant is stated at the
place of each thread that is alone there or outside. -/
namespace CriticalSection

universe u v
variable {Place : Type u} {Shared : Type v} {inside : Place → Bool} {At : Place → Shared → Prop}

/-- One thread at most is inside, and the shared state is as its place says. -/
structure Held (inside : Place → Bool) (At : Place → Shared → Prop) (place : Nat → Place)
    (shared : Shared) : Prop where
  one : ∀ t t', inside (place t) = true → inside (place t') = true → t = t'
  here : ∀ t, (∀ t', t' ≠ t → inside (place t') = false) → At (place t) shared

variable {place : Nat → Place} {shared shared' : Shared} {t : Nat} {p : Place}

theorem Held.others (h : Held inside At place shared) (hIn : inside (place t) = true) :
    ∀ t', t' ≠ t → inside (place t') = false := by
  intro t' hNe
  rw [← Bool.not_eq_true]
  exact fun hIn' => hNe (h.one t' t hIn' hIn)

theorem Held.at_inside (h : Held inside At place shared) (hIn : inside (place t) = true) :
    At (place t) shared := h.here t (h.others hIn)

/-- A thread takes a step while no other one is inside. Outside all places are alike. -/
theorem Held.step_alone
    (hOutside : ∀ p p' shared, inside p = false → inside p' = false → At p shared → At p' shared)
    (hOthers : ∀ t', t' ≠ t → inside (place t') = false) (hAt : At p shared') :
    Held inside At (Function.update place t p) shared' where
  one := by
    have hOnly : ∀ u, inside (Function.update place t p u) = true → u = t := by
      intro u hu
      by_contra hNe
      rw [Function.update_of_ne hNe, hOthers u hNe] at hu
      cases hu
    intro u u' hu hu'
    rw [hOnly u hu, hOnly u' hu']
  here := by
    intro u hAlone
    by_cases hSame : u = t
    · rw [hSame, Function.update_self]
      exact hAt
    · have hThere := hAlone t (Ne.symm hSame)
      rw [Function.update_self] at hThere
      rw [Function.update_of_ne hSame]
      exact hOutside p (place u) shared' hThere (hOthers u hSame) hAt

/-- The shared state changes in what no place depends on. -/
theorem Held.of_same (h : Held inside At place shared)
    (hSame : ∀ p, At p shared → At p shared') : Held inside At place shared' where
  one := h.one
  here := fun t hAlone => hSame _ (h.here t hAlone)

/-- A thread takes a step outside. -/
theorem Held.step_outside (h : Held inside At place shared)
    (hOutside : ∀ p p' shared, inside p = false → inside p' = false → At p shared → At p' shared)
    (hFrom : inside (place t) = false) (hTo : inside p = false)
    (hSame : ∀ p, At p shared → At p shared') :
    Held inside At (Function.update place t p) shared' where
  one := by
    have hOld : ∀ u, inside (Function.update place t p u) = true → inside (place u) = true := by
      intro u hu
      by_cases hThis : u = t
      · rw [hThis, Function.update_self, hTo] at hu
        cases hu
      · rwa [Function.update_of_ne hThis] at hu
    exact fun u u' hu hu' => h.one u u' (hOld u hu) (hOld u' hu')
  here := by
    intro u hAlone
    have hAloneOld : ∀ t', t' ≠ u → inside (place t') = false := by
      intro t' hNe
      by_cases hThis : t' = t
      · rw [hThis, hFrom]
      · have h' := hAlone t' hNe
        rwa [Function.update_of_ne hThis] at h'
    have hHere := hSame _ (h.here u hAloneOld)
    by_cases hThis : u = t
    · rw [hThis] at hHere ⊢
      rw [Function.update_self]
      exact hOutside _ p shared' hFrom hTo hHere
    · rwa [Function.update_of_ne hThis]

/-- No thread is inside when each that is would contradict its place. -/
theorem Held.none_inside (h : Held inside At place shared)
    (hNot : ∀ t', t' ≠ t → inside (place t') = true → ¬At (place t') shared) :
    ∀ t', t' ≠ t → inside (place t') = false := by
  intro t' hNe
  rw [← Bool.not_eq_true]
  exact fun hIn => hNot t' hNe hIn (h.at_inside hIn)

end CriticalSection
