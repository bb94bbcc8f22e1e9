import Mathlib.Algebra.Order.Ring.Nat
import Mathlib.Data.List.Nodup

/-! Dictionaries in insertion order: a key that is set again keeps its place, a
new key goes to the end. -/
namespace OrderedDict

universe u v
variable {κ : Type u} {ν : Type v} [DecidableEq κ]

/-- The entries with the value of one key written. -/
def setEntries (k : κ) (value : ν) : List (κ × ν) → List (κ × ν)
  | [] => [(k, value)]
  | e :: rest => if e.1 = k then (k, value) :: rest else e :: setEntries k value rest

theorem mem_keys_setEntries (k : κ) (value : ν) (entries : List (κ × ν)) (k' : κ) :
    k' ∈ (setEntries k value entries).map Prod.fst ↔ k' = k ∨ k' ∈ entries.map Prod.fst := by
  induction entries with
  | nil => simp [setEntries]
  | cons e rest ih =>
      rw [setEntries]
      split
      · rename_i hSame
        simp [hSame]
      · rw [List.map_cons, List.mem_cons, ih, List.map_cons, List.mem_cons]
        exact or_left_comm

theorem nodup_setEntries (k : κ) (value : ν) {entries : List (κ × ν)}
    (h : (entries.map Prod.fst).Nodup) : ((setEntries k value entries).map Prod.fst).Nodup := by
  induction entries with
  | nil => simp [setEntries]
  | cons e rest ih =>
      rw [List.map_cons, List.nodup_cons] at h
      rw [setEntries]
      split
      · rename_i hSame
        rw [List.map_cons, List.nodup_cons]
        exact ⟨hSame ▸ h.1, h.2⟩
      · rename_i hOther
        rw [List.map_cons, List.nodup_cons, mem_keys_setEntries]
        exact ⟨fun hMem => hMem.elim hOther h.1, ih h.2⟩

/-- A dictionary has every key once. -/
structure Dict (κ : Type u) (ν : Type v) where
  entries : List (κ × ν)
  nodup : (entries.map Prod.fst).Nodup

def Dict.empty : Dict κ ν := ⟨[], List.nodup_nil⟩

def Dict.get? (d : Dict κ ν) (k : κ) : Option ν := (d.entries.find? fun e => e.1 = k).map Prod.snd

def Dict.set (d : Dict κ ν) (k : κ) (value : ν) : Dict κ ν :=
  ⟨setEntries k value d.entries, nodup_setEntries k value d.nodup⟩

theorem find?_setEntries (k : κ) (value : ν) (entries : List (κ × ν)) (k' : κ) :
    ((setEntries k value entries).find? fun e => e.1 = k').map Prod.snd =
      if k' = k then some value else (entries.find? fun e => e.1 = k').map Prod.snd := by
  induction entries with
  | nil => by_cases hSame : k = k' <;> simp [setEntries, hSame, eq_comm]
  | cons e rest ih =>
      rw [setEntries]
      by_cases hHead : e.1 = k
      · by_cases hSame : k = k'
        · simp [hHead, hSame]
        · simp [hHead, hSame, Ne.symm hSame]
      · rw [if_neg hHead]
        by_cases hHere : e.1 = k'
        · have hOther : k' ≠ k := fun h => hHead (hHere.trans h)
          simp [hHere, hOther]
        · simpa [List.find?_cons, hHere] using ih

theorem Dict.get?_set (d : Dict κ ν) (k : κ) (value : ν) (k' : κ) :
    (d.set k value).get? k' = if k' = k then some value else d.get? k' :=
  find?_setEntries k value d.entries k'

theorem Dict.get?_empty (k : κ) : (Dict.empty : Dict κ ν).get? k = none := rfl

/-- The entries are what the keys give. -/
theorem Dict.mem_entries_iff (d : Dict κ ν) (k : κ) (value : ν) :
    (k, value) ∈ d.entries ↔ d.get? k = some value := by
  rw [Dict.get?, Option.map_eq_some_iff]
  constructor
  · intro hMem
    cases hFind : d.entries.find? fun e => e.1 = k with
    | none => simpa using List.find?_eq_none.mp hFind (k, value) hMem
    | some e =>
        have hKey : e.1 = k := by simpa using List.find?_some hFind
        exact ⟨e, rfl, congrArg Prod.snd (List.inj_on_of_nodup_map d.nodup
          (List.mem_of_find?_eq_some hFind) hMem hKey)⟩
  · rintro ⟨e, hFind, rfl⟩
    have hKey : e.1 = k := by simpa using List.find?_some hFind
    rw [← hKey]
    exact List.mem_of_find?_eq_some hFind

theorem countP_setEntries (k : κ) (value : ν) (p : ν → Bool) (entries : List (κ × ν)) :
    (setEntries k value entries).countP (fun e => p e.2) +
        (((entries.find? fun e => e.1 = k).map Prod.snd).elim false p).toNat =
      entries.countP (fun e => p e.2) + (p value).toNat := by
  induction entries with
  | nil => cases hValue : p value <;> simp [setEntries, hValue]
  | cons e rest ih =>
      rw [setEntries]
      by_cases hHead : e.1 = k
      · cases hOld : p e.2 <;> cases hNew : p value <;>
          simp [hHead, hOld, hNew]
      · rw [if_neg hHead, List.find?_cons_of_neg (by simpa using hHead)]
        rw [List.countP_cons, List.countP_cons]
        omega

/-- A count over the entries, before and after one key is written. -/
theorem Dict.countP_set (d : Dict κ ν) (k : κ) (value : ν) (p : ν → Bool) :
    (d.set k value).entries.countP (fun e => p e.2) + ((d.get? k).elim false p).toNat =
      d.entries.countP (fun e => p e.2) + (p value).toNat :=
  countP_setEntries k value p d.entries

end OrderedDict
