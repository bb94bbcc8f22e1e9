import FlashCkpt.Library.Transition
import Mathlib.Logic.Function.Basic

/-! The parameter counts that PHOS keeps for the kernels it has seen. Threads look a function
up in an open table of atomic words; the one that finds an empty entry asks the driver, stores
the count and then claims the entry. -/
namespace FlashCkpt.Emul.Phos

open Transition

/-- `FN_CACHE_SIZE`. -/
def fnCacheSize : Nat := 4096

/-- `PHOS_MAX_KERNEL_PARAMS`. -/
def maxKernelParams : Nat := 64

/-- `fn_cache_ent_t`: 0 for an entry that is empty. -/
structure FnCacheEnt where
  f : Nat
  nparams : Int
  deriving DecidableEq, Repr

/-- The driver library: whether it has `cuFuncGetParamInfo`, and for which parameters of a
function that succeeds. -/
structure Driver where
  found : Bool
  info : Nat → Nat → Bool

/-- The parameters from `n` on, one more than the sanity cap at most. -/
def countFrom (info : Nat → Bool) : (left n : Nat) → Nat
  | 0, n => n
  | left + 1, n => if info n then countFrom info left (n + 1) else n

/-- `query_param_count`, with the symbol resolved or not. -/
def Driver.queryParamCount (d : Driver) (resolved : Bool) (f : Nat) : Int :=
  if resolved then countFrom (d.info f) (maxKernelParams + 1) 0 else -1

/-- The count of a function itself. -/
def Driver.own (d : Driver) (f : Nat) : Int := d.queryParamCount d.found f

/-- Where a thread stands, with its function: in `scan_kernel_params_exact` up to the symbol,
or at a probe of `get_param_count_cached`. -/
inductive Probing where
  | out
  | enter (f : Nat)
  | exchange (f : Nat)
  | dlsym (f : Nat)
  | load (f probe : Nat)
  | query (f probe : Nat)
  | store (f probe : Nat) (n : Int)
  | claim (f probe : Nat) (n : Int)
  | fetch (f probe : Nat)
  deriving DecidableEq, Repr

/-- The table, `real_cuFuncGetParamInfo`, `g_func_info_resolved`, the threads and what has been
returned for which function. -/
structure FnCache where
  entries : Nat → FnCacheEnt
  real : Bool
  resolved : Bool
  place : Nat → Probing
  returned : List (Nat × Int)

/-- Behind `phos_init`, which has looked for the symbol. -/
def FnCache.init (d : Driver) : FnCache := ⟨fun _ => ⟨0, 0⟩, d.found, true, fun _ => .out, []⟩

/-- The entry that a probe looks at. -/
def fnIndex (f probe : Nat) : Nat := (f * 2654435769 % 2 ^ 64 % fnCacheSize + probe) % fnCacheSize

/-- A call for a function, or the next step of a thread. -/
inductive FnLabel where
  | call (thread f : Nat)
  | step (thread : Nat)
  deriving DecidableEq, Repr

def FnCache.go (s : FnCache) (thread : Nat) (p : Probing) : FnCache :=
  { s with place := Function.update s.place thread p }

def FnCache.answer (s : FnCache) (thread f : Nat) (n : Int) : FnCache :=
  { s with
    place := Function.update s.place thread .out
    returned := s.returned ++ [(f, n)] }

/-- The next of 32 probes; no function, or no probe left. -/
def FnCache.probe (s : FnCache) (thread f probe : Nat) : FnCache :=
  if f = 0 ∨ 32 ≤ probe then s.answer thread f (-1) else s.go thread (.load f probe)

def FnCache.put (s : FnCache) (i : Nat) (e : FnCacheEnt) : FnCache :=
  { s with entries := Function.update s.entries i e }

def nextFn (d : Driver) (s : FnCache) : FnLabel → Option FnCache
  | .call thread f => if s.place thread = .out then some (s.go thread (.enter f)) else none
  | .step thread =>
      match s.place thread with
      | .out => none
      | .enter f => some (if s.real then s.probe thread f 0 else s.go thread (.exchange f))
      | .exchange f =>
          let after := if s.resolved then s.probe thread f 0 else s.go thread (.dlsym f)
          some { after with resolved := true }
      | .dlsym f => some { s.probe thread f 0 with real := d.found }
      | .load f probe =>
          let cur := (s.entries (fnIndex f probe)).f
          some <|
            if cur = f then s.go thread (.fetch f probe)
            else if cur = 0 then s.go thread (.query f probe)
            else s.probe thread f (probe + 1)
      | .query f probe => some (s.go thread (.store f probe (d.queryParamCount s.real f)))
      | .store f probe n =>
          let i := fnIndex f probe
          some ((s.put i { s.entries i with nparams := n }).go thread (.claim f probe n))
      | .claim f probe n =>
          let i := fnIndex f probe
          some <|
            if (s.entries i).f = 0 then (s.put i { s.entries i with f := f }).answer thread f n
            else s.probe thread f (probe + 1)
      | .fetch f probe => some (s.answer thread f (s.entries (fnIndex f probe)).nparams)

/-- Every published entry has the count of its function, and every value returned for one is
that count or -1. -/
structure FnCache.Sound (d : Driver) (s : FnCache) : Prop where
  published : ∀ i, (s.entries i).f ≠ 0 → (s.entries i).nparams = d.own (s.entries i).f
  returned : ∀ r ∈ s.returned, r.2 = -1 ∨ r.2 = d.own r.1

/-- No thread stores a count into an entry that a function with another count has claimed, and
a thread claims an entry only with the count of its function in it. -/
def FnCache.Claims (d : Driver) (s : FnCache) : FnLabel → Prop
  | .call _ _ => True
  | .step thread =>
      match s.place thread with
      | .store f probe _ =>
          (s.entries (fnIndex f probe)).f = 0 ∨ d.own f = d.own (s.entries (fnIndex f probe)).f
      | .claim f probe _ =>
          (s.entries (fnIndex f probe)).f ≠ 0 ∨ (s.entries (fnIndex f probe)).nparams = d.own f
      | _ => True

/-- What a thread knows at its place. -/
def Stands (d : Driver) (entries : Nat → FnCacheEnt) : Probing → Prop
  | .out | .enter _ | .exchange _ | .dlsym _ => True
  | .load f _ | .query f _ => f ≠ 0
  | .store f _ n | .claim f _ n => f ≠ 0 ∧ n = d.own f
  | .fetch f probe => f ≠ 0 ∧ (entries (fnIndex f probe)).f = f

structure FnCache.Inv (d : Driver) (s : FnCache) : Prop where
  sound : s.Sound d
  real : s.real = d.found
  stands : ∀ thread, Stands d s.entries (s.place thread)

variable {d : Driver} {s t : FnCache}

theorem FnCache.inv_init (d : Driver) : (FnCache.init d).Inv d where
  sound := ⟨fun _ h => absurd rfl h, fun _ h => absurd h List.not_mem_nil⟩
  real := rfl
  stands := fun _ => trivial

theorem stands_update {entries : Nat → FnCacheEnt} {place : Nat → Probing} {p : Probing}
    (h : ∀ thread, Stands d entries (place thread)) (hp : Stands d entries p) (thread other : Nat) :
    Stands d entries (Function.update place thread p other) := by
  by_cases hSame : other = thread
  · rw [hSame, Function.update_self]
    exact hp
  · rw [Function.update_of_ne hSame]
    exact h other

theorem FnCache.Inv.go (h : s.Inv d) (thread : Nat) {p : Probing} (hp : Stands d s.entries p) :
    (s.go thread p).Inv d :=
  ⟨⟨h.sound.published, h.sound.returned⟩, h.real, stands_update h.stands hp thread⟩

theorem FnCache.Inv.answer (h : s.Inv d) (thread : Nat) {f : Nat} {n : Int}
    (hn : n = -1 ∨ n = d.own f) : (s.answer thread f n).Inv d where
  sound :=
    { published := h.sound.published
      returned := List.forall_mem_append.mpr ⟨h.sound.returned, by simpa using hn⟩ }
  real := h.real
  stands := @stands_update d s.entries s.place .out h.stands trivial thread

theorem FnCache.Inv.probe (h : s.Inv d) (thread f probe : Nat) : (s.probe thread f probe).Inv d := by
  rw [FnCache.probe]
  split
  · exact h.answer thread (.inl rfl)
  · rename_i hMore
    exact h.go thread fun hNull => hMore (.inl hNull)

/-- An entry that is claimed keeps its function. -/
theorem FnCache.Inv.put (h : s.Inv d) {i : Nat} {e : FnCacheEnt}
    (hKeep : (s.entries i).f ≠ 0 → e.f = (s.entries i).f) (hOwn : e.f ≠ 0 → e.nparams = d.own e.f) :
    (s.put i e).Inv d where
  sound :=
    { published := by
        intro j hj
        dsimp only [FnCache.put] at hj ⊢
        by_cases hSame : j = i
        · subst hSame
          rw [Function.update_self] at hj ⊢
          exact hOwn hj
        · rw [Function.update_of_ne hSame] at hj ⊢
          exact h.sound.published j hj
      returned := h.sound.returned }
  real := h.real
  stands := by
    intro thread
    have hStands := h.stands thread
    change Stands d (Function.update s.entries i e) (s.place thread)
    cases hPlace : s.place thread with
    | fetch f probe =>
        rw [hPlace] at hStands
        obtain ⟨hf, hFound⟩ := hStands
        refine ⟨hf, ?_⟩
        by_cases hSame : fnIndex f probe = i
        · rw [hSame] at hFound ⊢
          rw [Function.update_self, hKeep (hFound ▸ hf), hFound]
        · rw [Function.update_of_ne hSame]
          exact hFound
    | _ =>
        rw [hPlace] at hStands
        exact hStands

/-- A step that meets the condition keeps the table sound. -/
theorem FnCache.Inv.next (h : s.Inv d) {label : FnLabel} (hClaims : s.Claims d label)
    (hNext : nextFn d s label = some t) : t.Inv d := by
  cases label with
  | call thread f =>
      obtain ⟨_, hGo⟩ := Option.ite_none_right_eq_some.mp hNext
      cases hGo
      exact h.go thread trivial
  | step thread =>
      have hStands := h.stands thread
      rw [FnCache.Claims] at hClaims
      rw [nextFn] at hNext
      cases hPlace : s.place thread <;> rw [hPlace] at hStands hClaims hNext
      case out => cases hNext
      case enter f =>
        cases hNext
        split
        · exact h.probe thread f 0
        · exact h.go thread trivial
      case exchange f =>
        cases hNext
        have hAfter : (if s.resolved then s.probe thread f 0 else s.go thread (.dlsym f)).Inv d := by
          split
          · exact h.probe thread f 0
          · exact h.go thread trivial
        exact ⟨⟨hAfter.sound.published, hAfter.sound.returned⟩, hAfter.real, hAfter.stands⟩
      case dlsym f =>
        cases hNext
        have hAfter := h.probe thread f 0
        exact ⟨⟨hAfter.sound.published, hAfter.sound.returned⟩, rfl, hAfter.stands⟩
      case load f probe =>
        cases hNext
        split
        · rename_i hFound
          exact h.go thread ⟨hStands, hFound⟩
        · split
          · exact h.go thread hStands
          · exact h.probe thread f (probe + 1)
      case query f probe =>
        cases hNext
        exact h.go thread ⟨hStands, congrArg (d.queryParamCount · f) h.real⟩
      case store f probe n =>
        cases hNext
        have hPut : (s.put (fnIndex f probe) { s.entries (fnIndex f probe) with nparams := n }).Inv d :=
          h.put (fun _ => rfl) fun hClaimed => hStands.2.trans (hClaims.resolve_left hClaimed)
        exact hPut.go thread (p := .claim f probe n) hStands
      case claim f probe n =>
        cases hNext
        split
        · rename_i hEmpty
          refine FnCache.Inv.answer (h.put (fun hClaimed => absurd hEmpty hClaimed) fun _ => ?_) thread
            (.inr hStands.2)
          exact hClaims.resolve_left fun hClaimed => hClaimed hEmpty
        · exact h.probe thread f (probe + 1)
      case fetch f probe =>
        cases hNext
        refine h.answer thread (.inr ?_)
        have hOwn := h.sound.published (fnIndex f probe) (by rw [hStands.2]; exact hStands.1)
        rw [hStands.2] at hOwn
        exact hOwn

/-- A step that does not meet it publishes a wrong count. -/
theorem FnCache.Inv.claims_of_sound (h : s.Inv d) {label : FnLabel}
    (hNext : nextFn d s label = some t) (hSound : t.Sound d) : s.Claims d label := by
  cases label with
  | call thread f => trivial
  | step thread =>
      have hStands := h.stands thread
      rw [FnCache.Claims]
      rw [nextFn] at hNext
      cases hPlace : s.place thread <;> rw [hPlace] at hStands hNext
      case store f probe n =>
        cases hNext
        by_cases hEmpty : (s.entries (fnIndex f probe)).f = 0
        · exact .inl hEmpty
        · have hOwn := hSound.published (fnIndex f probe)
          simp only [FnCache.go, FnCache.put, Function.update_self] at hOwn
          exact .inr (hStands.2.symm.trans (hOwn hEmpty))
      case claim f probe n =>
        by_cases hEmpty : (s.entries (fnIndex f probe)).f = 0
        · dsimp only at hNext
          rw [if_pos hEmpty] at hNext
          cases hNext
          have hOwn := hSound.published (fnIndex f probe)
          simp only [FnCache.answer, FnCache.put, Function.update_self] at hOwn
          exact .inr (hOwn hStands.1)
        · exact .inl hEmpty
      all_goals trivial

/-- In every run, the table and what is returned stay sound as long as counts are stored and
entries are claimed without another function in between, and no longer. -/
theorem soundAlong_iff (d : Driver) (labels : List FnLabel) :
    Along (nextFn d) (fun s label => ∀ t, nextFn d s label = some t → t.Sound d) (FnCache.init d) labels ↔
      Along (nextFn d) (FnCache.Claims d) (FnCache.init d) labels := by
  refine along_congr_of_kept (fun s label t hClaims (h : s.Inv d) hNext => h.next hClaims hNext) ?_
    (FnCache.inv_init d) labels
  intro s label t h hNext
  refine ⟨fun hSound => h.claims_of_sound hNext (hSound t hNext), fun hClaims t' hNext' => ?_⟩
  exact (h.next hClaims hNext').sound

/-- A driver with a kernel of three parameters and one of a single one. -/
def twoKernels : Driver := ⟨true, fun f n => decide (n < if f = 0x1000 then 3 else 1)⟩

/-- Both find the same entry empty; the second thread stores its count behind the claim of the
first. -/
def lateStore : List FnLabel :=
  [.call 0 0x1000, .step 0, .step 0, .step 0, .call 1 0x2000, .step 1, .step 1, .step 1, .step 0,
    .step 0, .step 1]

theorem not_soundAlong_lateStore :
    ¬ ∀ d labels, Along (nextFn d) (fun s label => ∀ t, nextFn d s label = some t → t.Sound d)
      (FnCache.init d) labels := by
  intro h
  obtain ⟨s, hRun⟩ : ∃ s, execute (nextFn twoKernels) (.init twoKernels) lateStore = some s := ⟨_, rfl⟩
  have hSound := (h twoKernels lateStore).last (List.cons_ne_nil _ _) hRun
  have hOwn := hSound.published 0
  have hEntry : (execute (nextFn twoKernels) (.init twoKernels) lateStore).map (fun s => s.entries 0) =
      some ⟨0x1000, 1⟩ := by decide +kernel
  rw [hRun, Option.map_some, Option.some.injEq] at hEntry
  rw [hEntry] at hOwn
  exact absurd (hOwn (by decide)) (by decide +kernel)

end FlashCkpt.Emul.Phos
