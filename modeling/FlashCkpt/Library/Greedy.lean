import Mathlib.Data.List.Basic
import Mathlib.Data.List.Chain

/-! Cuts of a list into runs that are as long as they can be, from the front on. -/
namespace Greedy

variable {α : Type} {ok : List α → Prop}

/-- Each run is allowed, and with what follows it no longer one from its start is. -/
def Cuts (ok : List α → Prop) : List (List α) → Prop
  | [] => True
  | run :: rest => run ≠ [] ∧ ok run ∧
      (∀ more, more ≠ [] → more <+: rest.flatten → ¬ok (run ++ more)) ∧ Cuts ok rest

/-- The index of the first element of each run. -/
def starts : Nat → List (List α) → List Nat
  | _, [] => []
  | k, run :: rest => k :: starts (k + run.length) rest

/-- Two runs from one start, of which the first is as long as it can be, are one. -/
theorem nil_of_longest {run more back rest : List α}
    (hLongest : ∀ more, more ≠ [] → more <+: rest → ¬ok (run ++ more)) (hRest : rest = more ++ back)
    (hOk : ok (run ++ more)) : more = [] := by
  by_contra hMore
  exact hLongest more hMore (hRest ▸ List.prefix_append _ _) hOk

/-- A list has one such cut. -/
theorem Cuts.unique {runs runs' : List (List α)} (h : Cuts ok runs) (h' : Cuts ok runs')
    (hFlat : runs.flatten = runs'.flatten) : runs = runs' := by
  induction runs generalizing runs' with
  | nil =>
      cases runs' with
      | nil => rfl
      | cons run rest =>
          rw [List.flatten_nil, List.flatten_cons] at hFlat
          exact absurd (List.append_eq_nil_iff.mp hFlat.symm).1 h'.1
  | cons run rest ih =>
      cases runs' with
      | nil =>
          rw [List.flatten_nil, List.flatten_cons] at hFlat
          exact absurd (List.append_eq_nil_iff.mp hFlat).1 h.1
      | cons run' rest' =>
          obtain ⟨_, hOk, hLongest, hRest⟩ := h
          obtain ⟨_, hOk', hLongest', hRest'⟩ := h'
          rw [List.flatten_cons, List.flatten_cons] at hFlat
          have hSame : run = run' ∧ rest.flatten = rest'.flatten := by
            rcases List.append_eq_append_iff.mp hFlat with ⟨more, hRun, hBack⟩ | ⟨more, hRun, hBack⟩
            · obtain rfl := nil_of_longest hLongest hBack (hRun ▸ hOk')
              exact ⟨by rw [hRun, List.append_nil], hBack⟩
            · obtain rfl := nil_of_longest hLongest' hBack (hRun ▸ hOk)
              exact ⟨by rw [hRun, List.append_nil], hBack.symm⟩
          rw [hSame.1, ih hRest hRest' hSame.2]

/-- One step is enough to see that a run is as long as it can be, if what an allowed list
begins with is allowed. -/
theorem longest_of_next (hPrefix : ∀ front back, ok (front ++ back) → ok front) {run back : List α}
    (hNext : ∀ next rest, back = next :: rest → ¬ok (run ++ [next])) :
    ∀ more, more ≠ [] → more <+: back → ¬ok (run ++ more) := by
  intro more hMore hBack hOk
  cases more with
  | nil => exact hMore rfl
  | cons next rest =>
      obtain ⟨back', hSplit⟩ := hBack
      refine hNext next (rest ++ back') hSplit.symm (hPrefix _ rest ?_)
      rw [List.append_assoc]
      exact hOk

end Greedy
