import Mathlib.Data.List.TakeWhile
import FlashCkpt.Faults.BlockRuns
import FlashCkpt.Faults.Preprocess

/-! The service of a whole batch: the blocks of its faults are serviced one after the other, each of
them once, and each fault comes to one of the outcomes that the driver has for it. -/
namespace FlashCkpt.Faults

open Uvm (Prot Proc)

variable {V B : Type} {g n : Nat}

section Order

/-- A fault on a page of the block. -/
structure ManagedBlock.Contains (n : Nat) (m : ManagedBlock V g) (e : Entry V) : Prop where
  space : e.vaSpace = some m.space
  start : m.start ≤ e.faultAddress
  bound : e.faultAddress < m.start + n * pageSize

theorem dropWhile_disjoint {α : Type} {p : α → Bool} {l : List α}
    (hSorted : l.Pairwise fun a b => p b = true → p a = true) :
    ∀ a ∈ l.dropWhile p, ¬p a = true := by
  induction l with
  | nil => exact fun _ ha => absurd ha List.not_mem_nil
  | cons b l ih =>
      have hTail := List.pairwise_cons.mp hSorted
      cases hHead : p b with
      | true =>
          rw [List.dropWhile_cons_of_pos hHead]
          exact ih hTail.2
      | false =>
          rw [List.dropWhile_cons_of_neg (Bool.not_eq_true _ ▸ hHead)]
          rintro a ha hIs
          rcases List.mem_cons.mp ha with rfl | hRest
          · rw [hHead] at hIs
            cases hIs
          · rw [hTail.1 a hRest hIs] at hHead
            cases hHead

variable [LinearOrder V] {m : ManagedBlock V g} {e e' : Entry V}

/-- The place of the VA space of a fault in the ordered view. -/
def Entry.spaceKey (e : Entry V) : WithBot V := e.vaSpace

theorem sortKey_le_iff : e.sortKey ≤ e'.sortKey ↔ e.spaceKey < e'.spaceKey ∨ e.Precedes e' := by
  rw [Entry.sortKey, Entry.sortKey, Prod.Lex.toLex_le_toLex, Prod.Lex.toLex_le_toLex, Entry.Precedes,
    OrderDual.toDual_le_toDual]
  exact Iff.rfl

/-- The faults of a block follow each other in the ordered view. -/
theorem inBlock_of_le {first : Entry V} (hFirst : m.Contains n first) (hLe : first.sortKey ≤ e.sortKey)
    (hNext : e.sortKey ≤ e'.sortKey) (hIn : inBlock n m e' = true) : inBlock n m e = true := by
  rw [inBlock, Bool.and_eq_true, decide_eq_true_eq, decide_eq_true_eq] at hIn ⊢
  have hEnds : first.spaceKey = e'.spaceKey := hFirst.space.trans hIn.1.symm
  rcases sortKey_le_iff.mp hNext with hLess | ⟨hSame, hAddress⟩
  · rw [← hEnds] at hLess
    rcases sortKey_le_iff.mp hLe with hBack | hBack
    · exact absurd (lt_trans hBack hLess) (lt_irrefl _)
    · have hStart : first.spaceKey = e.spaceKey := hBack.1
      rw [hStart] at hLess
      exact absurd hLess (lt_irrefl _)
  · refine ⟨hSame.trans hIn.1, ?_⟩
    rcases hAddress with hLess | hBoth
    · exact Nat.lt_trans hLess hIn.2
    · rw [hBoth.1]
      exact hIn.2

/-- A fault in the same block as the first one lies behind its start. -/
theorem contains_of_inBlock {first : Entry V} (hFirst : m.Contains n first)
    (hLe : first.sortKey ≤ e.sortKey) (hIn : inBlock n m e = true) : m.Contains n e := by
  rw [inBlock, Bool.and_eq_true, decide_eq_true_eq, decide_eq_true_eq] at hIn
  refine ⟨hIn.1, ?_, hIn.2⟩
  have hEnds : first.spaceKey = e.spaceKey := hFirst.space.trans hIn.1.symm
  rcases sortKey_le_iff.mp hLe with hLess | ⟨-, hLess | hSame⟩
  · rw [hEnds] at hLess
    exact absurd hLess (lt_irrefl _)
  · exact Nat.le_trans hFirst.start (Nat.le_of_lt hLess)
  · rw [← hSame.1]
    exact hFirst.start

theorem inBlock_of_contains (h : m.Contains n e) : inBlock n m e = true := by
  rw [inBlock, Bool.and_eq_true, decide_eq_true_eq, decide_eq_true_eq]
  exact ⟨h.space, h.bound⟩

end Order

section Batches

variable [LinearOrder V] [DecidableEq B] {d : Driver V B g n} {l : List (Entry V)}

/-- What the service of a batch is given: the faults are in order and on pages, and those of a type that
cannot be serviced lie outside the managed blocks. -/
structure Driver.Ordered (d : Driver V B g n) (l : List (Entry V)) : Prop where
  sorted : l.Pairwise fun e e' => e.sortKey ≤ e'.sortKey
  aligned : ∀ e ∈ l, pageSize ∣ e.faultAddress
  apart : ∀ e ∈ l, e.isFatal = true → ∀ blk, ¬(d.managed blk).Contains n e

omit [DecidableEq B] in
theorem Driver.Ordered.of_sublist (h : d.Ordered l) {l' : List (Entry V)} (hSub : l'.Sublist l) :
    d.Ordered l' :=
  ⟨h.sorted.sublist hSub, fun e he => h.aligned e (hSub.subset he), fun e he => h.apart e (hSub.subset he)⟩

/-- The rounds of `service_fault_batch`, each with what it has found for its fault. -/
inductive Rounds (d : Driver V B g n) : Nat → List (List (Attempt g n)) → Nat → BatchState V B g n →
    List (Entry V) → List (Entry V) × BatchState V B g n × Bool → Prop
  | done {fuel i : Nat} {attempts : List (List (Attempt g n))} {s : BatchState V B g n} :
      Rounds d fuel attempts i s [] ([], s, true)
  | stopped {i : Nat} {attempts : List (List (Attempt g n))} {s : BatchState V B g n} {e : Entry V}
      {l : List (Entry V)} : Rounds d 0 attempts i s (e :: l) (e :: l, s, false)
  | fatal {fuel i : Nat} {attempts : List (List (Attempt g n))} {s : BatchState V B g n} {e : Entry V}
      {l : List (Entry V)} {out : List (Entry V) × BatchState V B g n × Bool} (flags : BatchFlags V)
      (hFatal : e.isFatal = true)
      (behind : Rounds d fuel attempts (i + 1) { s with scan := { s.scan with flags := flags } } l out) :
      Rounds d (fuel + 1) attempts i s (e :: l) (e :: out.1, out.2)
  | ignored {fuel i : Nat} {attempts : List (List (Attempt g n))} {s : BatchState V B g n} {e : Entry V}
      {l : List (Entry V)} {out : List (Entry V) × BatchState V B g n × Bool} (hFatal : e.isFatal = false)
      (hSpace : ∀ space, e.vaSpace = some space → d.gpuVaSpace space = false)
      (behind : Rounds d fuel attempts (i + 1) s l out) :
      Rounds d (fuel + 1) attempts i s (e :: l) (e :: out.1, out.2)
  | unmapped {fuel i : Nat} {attempts : List (List (Attempt g n))} {s : BatchState V B g n} {e : Entry V}
      {l : List (Entry V)} {out : List (Entry V) × BatchState V B g n × Bool} {space : V} {status : Status}
      (previous : Option (Entry V)) (hFatal : e.isFatal = false) (hSpace : e.vaSpace = some space)
      (hFind : d.find space e.faultAddress = .error status)
      (behind : Rounds d fuel attempts (i + 1) (({ s with
        scan := { s.scan with flags := (serviceFaultBatchFatalNotify status previous s.scan.flags e).2 } } :
        BatchState V B g n).replay d) l out) :
      Rounds d (fuel + 1) attempts i s (e :: l)
        ((serviceFaultBatchFatalNotify status previous s.scan.flags e).1 :: out.1, out.2)
  | serviced {fuel i : Nat} {attempts : List (List (Attempt g n))} {s : BatchState V B g n} {e : Entry V}
      {l : List (Entry V)} {out : List (Entry V) × BatchState V B g n × Bool} {blk : B}
      {serviced : Serviced V g n} (hContains : (d.managed blk).Contains n e)
      (hServiced : serviceFaultBatchBlock (d.managed blk) d.gpu i 0 (attempts.head?.getD []) s.scan
        (s.blocks blk) ((e :: l).takeWhile (inBlock n (d.managed blk))) = serviced)
      (hOk : serviced.ok = true)
      (behind : Rounds d fuel attempts.tail
        (i + ((e :: l).takeWhile (inBlock n (d.managed blk))).length)
        (({ s with
          scan := serviced.state
          blocks := Function.update s.blocks blk serviced.block
          visited := s.visited ++ [blk] } : BatchState V B g n).replay d)
        ((e :: l).dropWhile (inBlock n (d.managed blk))) out) :
      Rounds d (fuel + 1) attempts i s (e :: l) (serviced.entries ++ out.1, out.2)
  | failed {fuel i : Nat} {attempts : List (List (Attempt g n))} {s : BatchState V B g n} {e : Entry V}
      {l : List (Entry V)} {blk : B} {serviced : Serviced V g n}
      (hContains : (d.managed blk).Contains n e)
      (hServiced : serviceFaultBatchBlock (d.managed blk) d.gpu i 0 (attempts.head?.getD []) s.scan
        (s.blocks blk) ((e :: l).takeWhile (inBlock n (d.managed blk))) = serviced)
      (hOk : serviced.ok = false) :
      Rounds d (fuel + 1) attempts i s (e :: l)
        (serviced.entries ++ (e :: l).dropWhile (inBlock n (d.managed blk)),
          { s with
            scan := serviced.state
            blocks := Function.update s.blocks blk serviced.block
            visited := s.visited ++ [blk] }, false)

theorem serviceFaultBatch_rounds (d : Driver V B g n) (fuel i : Nat) (attempts : List (List (Attempt g n)))
    (previous : Option (Entry V)) (s : BatchState V B g n) (l : List (Entry V)) :
    Rounds d fuel attempts i s l (serviceFaultBatch d fuel attempts i previous s l) := by
  induction fuel generalizing attempts i previous s l with
  | zero =>
      cases l with
      | nil => exact .done
      | cons e l => exact .stopped
  | succ fuel ih =>
      cases l with
      | nil => exact .done
      | cons e l =>
          rw [serviceFaultBatch]
          cases hFatal : e.isFatal with
          | true => exact .fatal _ hFatal (ih ..)
          | false =>
              rw [if_neg Bool.false_ne_true]
              cases hSpace : e.vaSpace.filter fun space => d.gpuVaSpace space with
              | none =>
                  refine .ignored hFatal (fun space hIs => ?_) (ih ..)
                  rw [Option.filter_eq_none_iff] at hSpace
                  exact Bool.eq_false_iff.mpr (hSpace space hIs)
              | some space =>
                  have hIs := (Option.filter_eq_some_iff.mp hSpace).1
                  cases hFind : d.find space e.faultAddress with
                  | error status =>
                      simp only [hFind]
                      exact .unmapped previous hFatal hIs hFind (ih ..)
                  | ok blk =>
                      simp only [hFind]
                      obtain ⟨hManaged, hStart, hBound⟩ := d.find_holds space e.faultAddress blk hFind
                      have hContains : (d.managed blk).Contains n e := ⟨hManaged ▸ hIs, hStart, hBound⟩
                      split
                      · rename_i hOk
                        exact .serviced hContains rfl hOk (ih ..)
                      · rename_i hOk
                        exact .failed hContains rfl (Bool.eq_false_iff.mpr hOk)

/-- What becomes of a fault of the batch `view`, with the blocks as the batch leaves them. -/
inductive Outcome (d : Driver V B g n) (P : B → Uvm.Block g n → Prop) (Answers : Attempt g n → Prop)
    (view : List (Entry V)) (blocks : B → Uvm.Block g n) : Entry V → Entry V → Prop
  | fatal {e : Entry V} (hFatal : e.isFatal = true) : Outcome d P Answers view blocks e e
  | ignored {e : Entry V} (hFatal : e.isFatal = false)
      (hSpace : ∀ space, e.vaSpace = some space → d.gpuVaSpace space = false) : Outcome d P Answers view blocks e e
  | unmapped {e e' : Entry V} (space : V) (status : Status) (hSpace : e.vaSpace = some space)
      (hFind : d.find space e.faultAddress = .error status) (hKept : e.Kept e')
      (hFatal : e'.isFatal = true ↔ e.accessType ≠ .prefetch)
      (hMode : e'.isFatal = true → e'.cancelVaMode = .all) : Outcome d P Answers view blocks e e'
  | serviced {e e' : Entry V} (blk : B) (a : Attempt g n) (numRetries : Nat) (c : ServiceContext g)
      (b : Uvm.Block g n) (hAnswers : Answers a) (hContains : (d.managed blk).Contains n e)
      (hBlock : P blk b)
      (hJudged : ((d.managed blk).view d.gpu b a).Judges numRetries (ThrottledAt a 0 view) c e e')
      (hSound : ((d.managed blk).view d.gpu b a).Sound c view)
      (hServiced : serviceLocked (d.managed blk) d.gpu a c b = (blocks blk, true)) :
      Outcome d P Answers view blocks e e'

/-- What the service of the faults `l` of the batch `view` does, from the state `s` on. -/
structure Handled (d : Driver V B g n) (P : B → Uvm.Block g n → Prop) (Answers : Attempt g n → Prop)
    (view : List (Entry V)) (s : BatchState V B g n) (l : List (Entry V))
    (out : List (Entry V) × BatchState V B g n × Bool) : Prop where
  outcomes : List.Forall₂ (Outcome d P Answers view out.2.1.blocks) l out.1
  nodup : out.2.1.visited.Nodup
  visited : ∀ blk ∈ s.visited, blk ∈ out.2.1.visited
  frame : ∀ blk, blk ∈ s.visited ∨ blk ∉ out.2.1.visited → out.2.1.blocks blk = s.blocks blk
  preserved : ∀ blk, P blk (out.2.1.blocks blk)

variable {P : B → Uvm.Block g n → Prop} {Answers : Attempt g n → Prop} {view : List (Entry V)} {s : BatchState V B g n} {e e' : Entry V}
  {out : List (Entry V) × BatchState V B g n × Bool}

omit [LinearOrder V] [DecidableEq B] in
theorem replay_blocks (s : BatchState V B g n) : (s.replay d).blocks = s.blocks := by
  rw [BatchState.replay]
  split <;> rfl

omit [LinearOrder V] [DecidableEq B] in
theorem replay_visited (s : BatchState V B g n) : (s.replay d).visited = s.visited := by
  rw [BatchState.replay]
  split <;> rfl

omit [LinearOrder V] [DecidableEq B] in
/-- A fault that no block is serviced for. -/
theorem Handled.cons {s' : BatchState V B g n} (h : Handled d P Answers view s' l out)
    (hOutcome : Outcome d P Answers view out.2.1.blocks e e') (hBlocks : s'.blocks = s.blocks)
    (hVisited : s'.visited = s.visited) : Handled d P Answers view s (e :: l) (e' :: out.1, out.2) := by
  refine ⟨.cons hOutcome h.outcomes, h.nodup, fun blk hBlk => h.visited blk (hVisited ▸ hBlk),
    fun blk hBlk => ?_, h.preserved⟩
  rw [← hBlocks]
  exact h.frame blk (hVisited ▸ hBlk)

omit [LinearOrder V] [DecidableEq B] in
theorem throttledAt_of_view {a : Attempt g n} {i : Nat} {segment : List (Entry V)} (hView : view.drop i = l)
    (hPrefix : segment <+: l) {address : Nat} (h : ThrottledAt a i segment address) :
    ThrottledAt a 0 view address := by
  obtain ⟨k, e, hk, hAddress, hHint⟩ := h
  obtain ⟨rest, rfl⟩ := hPrefix
  refine ⟨i + k, e, ?_, hAddress, (Nat.zero_add (i + k)).symm ▸ hHint⟩
  rw [← List.getElem?_drop, hView, List.getElem?_append_left (List.getElem?_eq_some_iff.mp hk).1]
  exact hk

omit [DecidableEq B] in
/-- The faults of the block of the first one. -/
theorem Driver.Ordered.segment (h : d.Ordered (e :: l)) {blk : B}
    (hContains : (d.managed blk).Contains n e) :
    (∀ x ∈ (e :: l).takeWhile (inBlock n (d.managed blk)), (d.managed blk).Contains n x) ∧
      (∀ x ∈ (e :: l).dropWhile (inBlock n (d.managed blk)), ¬(d.managed blk).Contains n x) ∧
      Segment n (d.managed blk) ((e :: l).takeWhile (inBlock n (d.managed blk))) := by
  have hFirst : ∀ x ∈ e :: l, e.sortKey ≤ x.sortKey := fun x hx => by
    rcases List.mem_cons.mp hx with rfl | hRest
    · exact le_rfl
    · exact (List.pairwise_cons.mp h.sorted).1 x hRest
  have hSub := List.takeWhile_sublist (inBlock n (d.managed blk)) (l := e :: l)
  have hIn : ∀ x ∈ (e :: l).takeWhile (inBlock n (d.managed blk)), (d.managed blk).Contains n x :=
    fun x hx => contains_of_inBlock hContains (hFirst x (hSub.subset hx)) (List.mem_takeWhile_imp hx)
  refine ⟨hIn, fun x hx hAgain => ?_, ?_, fun x hx => ⟨(hIn x hx).start, ?_, (hIn x hx).bound⟩⟩
  · refine dropWhile_disjoint ?_ x hx (inBlock_of_contains hAgain)
    exact List.Pairwise.imp_of_mem (fun hx _ hLe hNext => inBlock_of_le hContains (hFirst _ hx) hLe hNext)
      h.sorted
  · refine List.Pairwise.imp_of_mem (fun hx hy hLe => ?_) (h.sorted.sublist hSub)
    refine (sortKey_le_iff.mp hLe).resolve_left fun hLess => ?_
    rw [Entry.spaceKey, Entry.spaceKey, (hIn _ hx).space, (hIn _ hy).space] at hLess
    exact lt_irrefl _ hLess
  · exact Nat.dvd_sub (h.aligned x (hSub.subset hx)) (d.managed blk).aligned

/-- The faults of a block that has not been serviced before, and the ones behind them. -/
theorem Handled.block (hStep : ∀ blk req b, req.processor = .gpu d.gpu → P blk b →
      P blk (serviceResidency (d.managed blk).range req b).1)
    {i : Nat} {attempts : List (Attempt g n)} {blk : B} {next : BatchState V B g n}
    (hAnswers : ∀ a ∈ attempts, Answers a) (hReady : d.Ordered (e :: l)) (hView : view.drop i = e :: l)
    (hContains : (d.managed blk).Contains n e) (hFresh : blk ∉ s.visited) (hP : ∀ blk, P blk (s.blocks blk))
    {serviced : Serviced V g n}
    (hServiced : serviceFaultBatchBlock (d.managed blk) d.gpu i 0 attempts s.scan (s.blocks blk)
      ((e :: l).takeWhile (inBlock n (d.managed blk))) = serviced) (hOk : serviced.ok = true)
    (hBlocks : next.blocks = Function.update s.blocks blk serviced.block)
    (hVisited : next.visited = s.visited ++ [blk])
    (h : (∀ blk, P blk (next.blocks blk)) →
      Handled d P Answers view next ((e :: l).dropWhile (inBlock n (d.managed blk))) out) :
    Handled d P Answers view s (e :: l) (serviced.entries ++ out.1, out.2) := by
  obtain ⟨hIn, -, hSegment⟩ := hReady.segment hContains
  have hPrefix := List.takeWhile_prefix (inBlock n (d.managed blk)) (l := e :: l)
  have hSub : ∀ x ∈ (e :: l).takeWhile (inBlock n (d.managed blk)), x ∈ view := fun x hx => by
    have hMem := hPrefix.subset hx
    rw [← hView] at hMem
    exact List.mem_of_mem_drop hMem
  obtain ⟨a, ha, k, b, hb, hLast⟩ := serviceFaultBatchBlock_last (P := P blk) (hStep blk) (hP blk) hSegment
    (fun x hx hFatal => absurd (hIn x hx) (hReady.apart x (hPrefix.subset hx) hFatal blk))
    (hServiced ▸ hOk : (serviceFaultBatchBlock (d.managed blk) d.gpu i 0 attempts s.scan (s.blocks blk)
      ((e :: l).takeWhile (inBlock n (d.managed blk)))).ok = true)
  rw [hServiced] at hLast
  have hAfter : P blk serviced.block := by
    have hLocked := serviceLocked_preserves (a := a) (c := serviced.state.context) (hStep blk) hb
    rwa [hLast.serviced] at hLocked
  have hRest := h fun blk' => by
    rw [hBlocks]
    by_cases hSame : blk' = blk
    · rw [hSame, Function.update_self]
      exact hAfter
    · rw [Function.update_of_ne hSame]
      exact hP blk'
  have hNew : blk ∈ next.visited := hVisited ▸ List.mem_append_right _ List.mem_cons_self
  have hStays : out.2.1.blocks blk = serviced.block := by
    rw [hRest.frame blk (.inl hNew), hBlocks, Function.update_self]
  refine ⟨?_, hRest.nodup, fun blk' hOld => ?_, fun blk' hOther => ?_, hRest.preserved⟩
  · have hHere : List.Forall₂ (Outcome d P Answers view out.2.1.blocks)
        ((e :: l).takeWhile (inBlock n (d.managed blk))) serviced.entries := by
      have hJudged := (List.forall₂_and_left _ _).mpr ⟨fun x hx => hIn x hx, hLast.judged⟩
      refine hJudged.imp fun x x' hBoth => .serviced blk a k serviced.state.context b (hAnswers a ha) hBoth.1 hb
        (hBoth.2.imp fun address => throttledAt_of_view hView hPrefix) (fun p hp page hPage => ?_)
        (hStays ▸ hLast.serviced)
      obtain ⟨y, hy, hPermits⟩ := hLast.sound p hp page hPage
      exact ⟨y, hSub y hy, hPermits⟩
    rw [← List.takeWhile_append_dropWhile (p := inBlock n (d.managed blk)) (l := e :: l)]
    exact List.rel_append hHere hRest.outcomes
  · exact hRest.visited blk' (hVisited ▸ List.mem_append_left _ hOld)
  · have hNe : blk' ≠ blk := by
      rintro rfl
      rcases hOther with hOld | hNever
      · exact hFresh hOld
      · exact hNever (hRest.visited _ hNew)
    rw [hRest.frame blk' (hOther.imp_left fun hOld => hVisited ▸ List.mem_append_left _ hOld), hBlocks,
      Function.update_of_ne hNe]

theorem fatalNotify_kept (status : Status) (previous : Option (Entry V)) (flags : BatchFlags V)
    (hFatal : e.isFatal = false) :
    e.Kept (serviceFaultBatchFatalNotify status previous flags e).1 ∧
      ((serviceFaultBatchFatalNotify status previous flags e).1.isFatal = true ↔ e.accessType ≠ .prefetch) ∧
      ((serviceFaultBatchFatalNotify status previous flags e).1.isFatal = true →
        (serviceFaultBatchFatalNotify status previous flags e).1.cancelVaMode = .all) := by
  have hMarked := markDuplicate_kept flags e (checkFaultEntryDuplicate e previous) previous
  rw [serviceFaultBatchFatalNotify]
  dsimp only
  generalize flags.markDuplicate e (checkFaultEntryDuplicate e previous) previous = marked at hMarked ⊢
  by_cases hPrefetch : e.accessType = .prefetch
  · rw [if_pos hPrefetch]
    have hNot : (marked.2.markInvalidPrefetch marked.1).1.isFatal = false := hMarked.2.trans hFatal
    refine ⟨hMarked.1.trans (markInvalidPrefetch_kept marked.2 marked.1).1, ?_, fun hIs => ?_⟩
    · exact iff_of_false (Bool.eq_false_iff.mp hNot) fun hOther => hOther hPrefetch
    · rw [hNot] at hIs
      cases hIs
  · rw [if_neg hPrefetch]
    exact ⟨hMarked.1.trans ⟨rfl, rfl, rfl, rfl⟩, iff_of_true rfl hPrefetch, fun _ => rfl⟩

/-- Rounds that come to the end of a batch have handled all its faults. -/
theorem Rounds.handled (hStep : ∀ blk req b, req.processor = .gpu d.gpu → P blk b →
      P blk (serviceResidency (d.managed blk).range req b).1)
    {fuel i : Nat} {attempts : List (List (Attempt g n))} (h : Rounds d fuel attempts i s l out)
    (hAnswers : ∀ asked ∈ attempts, ∀ a ∈ asked, Answers a) (hReady : d.Ordered l)
    (hView : view.drop i = l) (hNodup : s.visited.Nodup)
    (hBehind : ∀ blk ∈ s.visited, ∀ e ∈ l, ¬(d.managed blk).Contains n e) (hP : ∀ blk, P blk (s.blocks blk))
    (hOk : out.2.2 = true) : Handled d P Answers view s l out := by
  have hNext : ∀ {i : Nat} {e : Entry V} {l : List (Entry V)}, view.drop i = e :: l →
      view.drop (i + 1) = l := by
    intro i e l hView
    rw [← List.drop_drop, hView]
    rfl
  have hTail : ∀ {e : Entry V} {l : List (Entry V)}, d.Ordered (e :: l) → d.Ordered l :=
    fun hReady => hReady.of_sublist (List.sublist_cons_self _ _)
  have hRest : ∀ {s : BatchState V B g n} {e : Entry V} {l : List (Entry V)},
      (∀ blk ∈ s.visited, ∀ x ∈ e :: l, ¬(d.managed blk).Contains n x) →
      ∀ blk ∈ s.visited, ∀ x ∈ l, ¬(d.managed blk).Contains n x :=
    fun hBehind blk hOld x hx => hBehind blk hOld x (List.mem_cons_of_mem _ hx)
  induction h with
  | done => exact ⟨.nil, hNodup, fun _ h => h, fun _ _ => rfl, hP⟩
  | stopped => cases hOk
  | fatal flags hFatal behind ih =>
      have hHandled := ih hAnswers (hTail hReady) (hNext hView) hNodup (hRest hBehind) hP hOk
      exact hHandled.cons (.fatal hFatal) rfl rfl
  | ignored hFatal hSpace behind ih =>
      have hHandled := ih hAnswers (hTail hReady) (hNext hView) hNodup (hRest hBehind) hP hOk
      exact hHandled.cons (.ignored hFatal hSpace) rfl rfl
  | @unmapped _ _ _ s _ _ _ space status previous hFatal hSpace hFind behind ih =>
      obtain ⟨hKept, hMarked, hMode⟩ := fatalNotify_kept status previous s.scan.flags hFatal
      refine (ih hAnswers (hTail hReady) (hNext hView) ?_ ?_ ?_ hOk).cons
        (.unmapped space status hSpace hFind hKept hMarked hMode) (replay_blocks _) (replay_visited _)
      · rw [replay_visited]
        exact hNodup
      · rw [replay_visited]
        exact hRest hBehind
      · rw [replay_blocks]
        exact hP
  | @serviced _ _ attempts s e l _ blk _ hContains hServiced hBlockOk behind ih =>
      obtain ⟨-, hOut, -⟩ := hReady.segment hContains
      have hFresh : blk ∉ s.visited := fun hOld => hBehind blk hOld e List.mem_cons_self hContains
      refine Handled.block hStep ?_ hReady hView hContains hFresh hP hServiced hBlockOk
        (replay_blocks _) (replay_visited _) fun hAfter => ih ?_ ?_ ?_ ?_ ?_ hAfter hOk
      · cases attempts with
        | nil => exact fun _ ha => absurd ha List.not_mem_nil
        | cons asked _ => exact hAnswers asked List.mem_cons_self
      · exact fun asked hAsked => hAnswers asked (List.mem_of_mem_tail hAsked)
      · exact hReady.of_sublist (List.dropWhile_sublist _)
      · have hSplit := List.takeWhile_append_dropWhile (p := inBlock n (d.managed blk)) (l := e :: l)
        rw [← List.drop_drop, hView]
        exact (congrArg _ hSplit.symm).trans List.drop_left
      · rw [replay_visited]
        change (s.visited ++ [blk]).Nodup
        rw [← List.concat_eq_append]
        exact hNodup.concat hFresh
      · rw [replay_visited]
        intro blk' hMem x hx
        rcases List.mem_append.mp hMem with hOld | hNew
        · exact hBehind blk' hOld x (List.dropWhile_sublist _ |>.subset hx)
        · rw [List.mem_singleton.mp hNew]
          exact hOut x hx
  | failed => cases hOk

/-- What the service of a batch preserves of each block, whether it comes to its end or not. -/
theorem Rounds.preserves (hStep : ∀ blk req b, req.processor = .gpu d.gpu → P blk b →
      P blk (serviceResidency (d.managed blk).range req b).1)
    {fuel i : Nat} {attempts : List (List (Attempt g n))} (h : Rounds d fuel attempts i s l out)
    (hP : ∀ blk, P blk (s.blocks blk)) (blk : B) : P blk (out.2.1.blocks blk) := by
  have hUpdate : ∀ {i : Nat} {attempts : List (List (Attempt g n))} {s : BatchState V B g n}
      {segment : List (Entry V)} {blk : B} {serviced : Serviced V g n},
      serviceFaultBatchBlock (d.managed blk) d.gpu i 0 (attempts.head?.getD []) s.scan (s.blocks blk)
        segment = serviced → (∀ blk, P blk (s.blocks blk)) →
      ∀ blk', P blk' (Function.update s.blocks blk serviced.block blk') := by
    intro i attempts s segment blk serviced hServiced hP blk'
    by_cases hSame : blk' = blk
    · rw [hSame, Function.update_self, ← hServiced]
      exact serviceFaultBatchBlock_preserves (hStep blk) (hP blk)
    · rw [Function.update_of_ne hSame]
      exact hP blk'
  induction h with
  | done => exact hP blk
  | stopped => exact hP blk
  | fatal _ _ _ ih => exact ih hP
  | ignored _ _ _ ih => exact ih hP
  | unmapped _ _ _ _ _ ih =>
      refine ih fun blk => ?_
      rw [replay_blocks]
      exact hP blk
  | serviced _ hServiced _ _ ih =>
      refine ih fun blk => ?_
      rw [replay_blocks]
      exact hUpdate hServiced hP blk
  | failed _ hServiced => exact hUpdate hServiced hP blk

/-- With a round for each fault, a batch comes to its end unless the service of a block fails. -/
theorem Rounds.ends {fuel i : Nat} {attempts : List (List (Attempt g n))}
    (h : Rounds d fuel attempts i s l out) (hFuel : l.length ≤ fuel) (hFails : out.2.2 = false) :
    ∃ blk first asked state b segment,
      let serviced := serviceFaultBatchBlock (d.managed blk) d.gpu first 0 asked state b segment
      serviced.ok = false ∧ out.2.1.blocks blk = serviced.block := by
  induction h with
  | done => cases hFails
  | stopped => cases hFuel
  | fatal _ _ _ ih => exact ih (Nat.le_of_succ_le_succ hFuel) hFails
  | ignored _ _ _ ih => exact ih (Nat.le_of_succ_le_succ hFuel) hFails
  | unmapped _ _ _ _ _ ih => exact ih (Nat.le_of_succ_le_succ hFuel) hFails
  | serviced hContains _ _ _ ih =>
      refine ih ?_ hFails
      -- The block takes at least the first fault.
      rw [List.dropWhile_cons_of_pos (inBlock_of_contains hContains)]
      exact (List.dropWhile_sublist _).length_le.trans (Nat.le_of_succ_le_succ hFuel)
  | @failed _ i attempts s e l blk _ _ hServiced hOk =>
      refine ⟨blk, i, attempts.head?.getD [], s.scan, s.blocks blk,
        (e :: l).takeWhile (inBlock n (d.managed blk)), ?_⟩
      dsimp only
      rw [hServiced]
      exact ⟨hOk, Function.update_self ..⟩

end Batches

end FlashCkpt.Faults
