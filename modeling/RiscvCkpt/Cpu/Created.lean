import RiscvCkpt.Cpu.Scheduler

/-! Which entries of the settings become checkpoints. One cursor runs over the
sorted entries and moves at most once in a tick, so entries with the same start
have to share the micro-ops of one instruction. -/
namespace RiscvCkpt

open MachineInt

/-- The four numbers of a `ckptctrl` line: start, interval, warmup and times. -/
structure CtrlLine where
  v1 : Nat
  v2 : Nat
  v3 : Nat
  v4 : Nat
  deriving DecidableEq, Repr

def CtrlLine.ctrls (line : CtrlLine) : List CkptCtrl :=
  (List.range line.v4).map fun i =>
    let start := uint64 ((line.v1 : Int) + line.v2 * i - line.v3)
    { start := start, stop := (start + line.v2 + line.v3) % 2 ^ 64, warmup := line.v3 }

/-- The entries in the order of the cursor. -/
def initCtrls (lines : List CtrlLine) : List CkptCtrl :=
  (lines.flatMap CtrlLine.ctrls).insertionSort fun a b => a.start ≤ b.start

def microopsAt (run : List Step) (n : Nat) : Nat :=
  ((instrs run)[n]?.map fun i => i.shape.microops.length).getD 0

/-- Each entry has started exactly one checkpoint, with its own start, length and warmup. -/
def AllCreated (ctrls : List CkptCtrl) (cpu : Cpu) : Prop :=
  ((cpu.saved ++ cpu.pendingCkpts).map CkptInfo.window).Perm (ctrls.map CkptCtrl.window)

/-- The entries of which the cursor has passed are those whose windows exist. -/
structure CursorOk (ctrls : List CkptCtrl) (s : Sched) : Prop where
  created : (s.saved.map Closed.window ++ s.pending).Perm
      ((ctrls.take s.ckptidx).map CkptCtrl.window)
  exited : s.exited = true → s.pending = [] ∧ s.ckptidx = ctrls.length

section Cursor

variable {strict : Bool} {ctrls : List CkptCtrl} {n pc : Nat}
  {isCompressed counts : Bool} {s : Sched}

/-- Taking the next entry. -/
theorem take_next {ctrl : CkptCtrl} {k : Nat} (h : ctrls[k]? = some ctrl) :
    ctrls.take (k + 1) = ctrls.take k ++ [ctrl] := by
  rw [List.take_add_one, h, Option.toList_some]

theorem CursorOk.start (h : CursorOk ctrls s) (hExited : s.exited = false) :
    CursorOk ctrls (s.start ctrls n) := by
  simp only [Sched.start]
  cases hNext : ctrls[s.ckptidx]? with
  | none => exact h
  | some ctrl =>
      by_cases hStart : n = ctrl.start
      · simp only [if_pos hStart]
        refine ⟨?_, fun hNot => absurd hNot (by simp [hExited])⟩
        simp only
        rw [take_next hNext, List.map_append, ← List.append_assoc]
        exact h.created.append (List.Perm.refl _)
      · simp only [if_neg hStart]
        exact h

theorem CursorOk.close (h : CursorOk ctrls s) : CursorOk ctrls (s.close ctrls n pc) := by
  refine ⟨List.Perm.trans ?_ h.created, fun hExited => ?_⟩
  · have hWindows : ((s.pending.filter fun w => w.over n).map fun w => w.close n pc).map
        Closed.window =
        s.pending.filter fun w => w.over n := by
      rw [List.map_map]
      exact List.map_id _
    simp only [Sched.close, List.map_append, hWindows, List.append_assoc]
    exact (List.Perm.refl _).append (List.filter_append_perm _ _)
  · simp only [Sched.close, decide_eq_true_eq] at hExited
    exact hExited

theorem CursorOk.finish (h : CursorOk ctrls s) :
    CursorOk ctrls (s.finish strict ctrls n pc isCompressed) := by
  rcases s.finish_cases strict ctrls n pc isCompressed with hSame | ⟨-, hClose⟩ | ⟨-, -, -, hClose⟩
  · rwa [hSame]
  · rw [hClose]
    exact h.close
  · rw [hClose]
    exact h.close

theorem CursorOk.congr {s' : Sched} (h : CursorOk ctrls s) (hSaved : s'.saved = s.saved)
    (hPending : s'.pending = s.pending) (hIdx : s'.ckptidx = s.ckptidx)
    (hExited : s'.exited = s.exited) :
    CursorOk ctrls s' := by
  refine ⟨?_, ?_⟩
  · rw [hSaved, hPending, hIdx]
    exact h.created
  · rw [hExited, hPending, hIdx]
    exact h.exited

/-- A move of the schedule keeps the cursor right. -/
theorem CursorOk.move (h : CursorOk ctrls s) (m : Move) :
    CursorOk ctrls (s.move strict ctrls m) := by
  simp only [Sched.move]
  split
  · exact h
  · next hRunning =>
      have hExited : s.exited = false := Bool.eq_false_iff.mpr hRunning
      cases m with
      | ecall => exact h.congr rfl rfl rfl rfl
      | fault => exact h
      | commit pc isCompressed counts =>
          obtain ⟨-, -, hPending, hIdx, hSaved, hSame⟩ := s.count_fields counts
          have hCount : CursorOk ctrls (s.count counts) := h.congr hSaved hPending hIdx hSame
          have hStart : CursorOk ctrls ((s.count counts).start ctrls s.numInst) :=
            hCount.start (hSame.trans hExited)
          simp only [Sched.commit]
          split
          · obtain ⟨-, hNotePending, hNoteIdx, hNoteSaved, hNoteExited⟩ :=
              (((s.count counts).start ctrls s.numInst).finish strict ctrls s.numInst pc
                isCompressed).note_fields strict pc isCompressed
            exact hStart.finish.congr hNoteSaved hNotePending hNoteIdx hNoteExited
          · exact hStart

theorem CursorOk.inst (h : CursorOk ctrls s) (extra : Nat) :
    CursorOk ctrls (s.inst strict ctrls pc isCompressed extra) := by
  induction extra generalizing s with
  | zero => exact h.move _
  | succ extra ih => exact ih (h.move _)

/-- A step of the program keeps the cursor right. -/
theorem CursorOk.step (h : CursorOk ctrls s) (step : Step) :
    CursorOk ctrls (step.moveAll strict ctrls s) := by
  cases step with
  | instr i => exact h.inst _
  | ecall e =>
      rw [Step.moveAll]
      exact h.move _

/-- A run of the program keeps the cursor right. -/
theorem CursorOk.run (h : CursorOk ctrls s) (run : List Step) :
    CursorOk ctrls (run.foldl (fun s step => step.moveAll strict ctrls s) s) := by
  induction run generalizing s with
  | nil => exact h
  | cons step rest ih => exact ih (h.step step)

end Cursor

def startsAt (ctrls : List CkptCtrl) (v : Nat) : Nat := ctrls.countP fun ctrl => ctrl.start = v

section Counting

variable {strict : Bool} {ctrls : List CkptCtrl} {n pc : Nat}
  {isCompressed counts : Bool} {s : Sched}

theorem move_commit (h : s.exited = false) :
    s.move strict ctrls (.commit pc isCompressed counts) =
      s.commit strict ctrls pc isCompressed counts := by
  simp only [Sched.move, h, Bool.false_eq_true, if_false]

theorem move_exited (h : s.exited = true) (m : Move) : s.move strict ctrls m = s := if_pos h

/-- A commit uses at most one entry, and one that starts at its number. -/
theorem commit_used (hNum : s.exited = false → s.numInst = n) (v : Nat) :
    startsAt (ctrls.take (s.move strict ctrls (.commit pc isCompressed counts)).ckptidx) v ≤
      startsAt (ctrls.take s.ckptidx) v + if v = n then 1 else 0 := by
  cases hExited : s.exited with
  | true =>
      rw [move_exited hExited]
      exact Nat.le_add_right _ _
  | false =>
      rw [move_commit hExited, s.commit_ckptidx]
      split
      · next hNext =>
          obtain ⟨ctrl, hCtrl, hStart⟩ := hNext
          rw [take_next hCtrl, startsAt, List.countP_append, List.countP_singleton, ← startsAt]
          have hn : ctrl.start = n := hStart.symm.trans (hNum hExited)
          by_cases hv : v = n
          · simp [hv, hn]
          · simp [hv, hn, Ne.symm hv]
      · exact Nat.le_add_right _ _

/-- The entries that are left start at `n` or later, and at most `r` of them at `n`. -/
def Waiting (ctrls : List CkptCtrl) (n r : Nat) (s : Sched) : Prop :=
  (∀ ctrl ∈ ctrls.drop s.ckptidx, n ≤ ctrl.start) ∧ startsAt (ctrls.drop s.ckptidx) n ≤ r

/-- A commit serves one of the entries that start at its number, if there is one. -/
theorem Waiting.commit {r : Nat} (hSorted : ctrls.Pairwise fun a b => a.start ≤ b.start)
    (hNum : s.numInst = n) (h : Waiting ctrls n (r + 1) s) :
    Waiting ctrls n r (s.commit strict ctrls pc isCompressed counts) := by
  simp only [Waiting, s.commit_ckptidx]
  obtain ⟨hLater, hCount⟩ := h
  cases hRest : ctrls.drop s.ckptidx with
  | nil =>
      have hNone : ctrls[s.ckptidx]? = none := by
        rw [List.getElem?_eq_none_iff]
        exact List.drop_eq_nil_iff.mp hRest
      rw [if_neg (by simp [hNone]), hRest]
      exact ⟨by simp, Nat.zero_le _⟩
  | cons ctrl rest =>
      have hNext : ctrls[s.ckptidx]? = some ctrl := by
        rw [← List.head?_drop, hRest, List.head?_cons]
      have hAfter : ctrls.drop (s.ckptidx + 1) = rest := by
        rw [← List.tail_drop, hRest, List.tail_cons]
      rw [hRest] at hLater hCount
      by_cases hStart : ctrl.start = n
      · rw [if_pos ⟨ctrl, hNext, hNum.trans hStart.symm⟩, hAfter]
        refine ⟨fun other hOther => hLater other (List.mem_cons_of_mem _ hOther), ?_⟩
        simp only [startsAt, List.countP_cons, hStart, decide_true, if_true] at hCount
        simpa only [startsAt] using Nat.le_of_succ_le_succ hCount
      · have hWait : ¬ ∃ ctrl, ctrls[s.ckptidx]? = some ctrl ∧ s.numInst = ctrl.start := by
          rintro ⟨other, hOther, hEq⟩
          obtain rfl := Option.some.inj (hNext.symm.trans hOther)
          exact hStart (hEq.symm.trans hNum)
        rw [if_neg hWait, hRest]
        -- the entries are sorted, so none of them starts at `n`
        have hNone : startsAt (ctrl :: rest) n = 0 := by
          refine List.countP_eq_zero.mpr fun other hOther => ?_
          have hFirst := hLater ctrl (List.mem_cons_self ..)
          have hTail := (hSorted.sublist (List.drop_sublist s.ckptidx ctrls))
          rw [hRest] at hTail
          have hLe : ctrl.start ≤ other.start := by
            rcases List.mem_cons.mp hOther with rfl | hOther
            · exact Nat.le_refl _
            · exact (List.pairwise_cons.mp hTail).1 other hOther
          simp only [decide_eq_true_eq]
          omega
        exact ⟨hLater, hNone.trans_le (Nat.zero_le _)⟩

/-- Nothing is waiting once the simulator has exited. -/
theorem Waiting.of_exited {r : Nat} (h : CursorOk ctrls s) (hExited : s.exited = true) :
    Waiting ctrls n r s := by
  have hNil : ctrls.drop s.ckptidx = [] := List.drop_eq_nil_iff.mpr (h.exited hExited).2.ge
  simp [Waiting, hNil, startsAt]

/-- A commit uses up one of the entries that start at this number. -/
theorem Waiting.move {r : Nat} (hSorted : ctrls.Pairwise fun a b => a.start ≤ b.start)
    (hCursor : CursorOk ctrls s) (hNum : s.exited = false → s.numInst = n)
    (h : Waiting ctrls n (r + 1) s) :
    Waiting ctrls n r (s.move strict ctrls (.commit pc isCompressed counts)) := by
  cases hExited : s.exited with
  | true =>
      rw [move_exited hExited]
      exact .of_exited hCursor hExited
  | false =>
      rw [move_commit hExited]
      exact h.commit hSorted (hNum hExited)

/-- If nobody waits for `n` any more, the next number has come. -/
theorem Waiting.next (h : Waiting ctrls n 0 s) :
    ∀ ctrl ∈ ctrls.drop s.ckptidx, n + 1 ≤ ctrl.start := by
  intro ctrl hCtrl
  have hLe := h.1 ctrl hCtrl
  have hNot := List.countP_eq_zero.mp (Nat.le_zero.mp h.2) ctrl hCtrl
  simp only [decide_eq_true_eq] at hNot
  omega

/-- The counter, unless the simulator has exited. -/
theorem move_numInst (hNum : s.exited = false → s.numInst = n)
    (hRunning : (s.move strict ctrls (.commit pc isCompressed counts)).exited = false) :
    (s.move strict ctrls (.commit pc isCompressed counts)).numInst =
      if counts then n + 1 else n := by
  cases hExited : s.exited with
  | true => rw [move_exited hExited, hExited] at hRunning; exact absurd hRunning (by decide)
  | false => rw [move_commit hExited, s.commit_numInst, hNum hExited]

/-- An instruction adds one to the count. -/
theorem inst_numInst (hNum : s.exited = false → s.numInst = n) (extra : Nat)
    (hRunning : (s.inst strict ctrls pc isCompressed extra).exited = false) :
    (s.inst strict ctrls pc isCompressed extra).numInst = n + 1 := by
  induction extra generalizing s with
  | zero => exact move_numInst hNum hRunning
  | succ extra ih => exact ih (fun h => move_numInst hNum h) hRunning

/-- An instruction uses at most as many entries as it has micro-ops. -/
theorem inst_used (hNum : s.exited = false → s.numInst = n) (extra v : Nat) :
    startsAt (ctrls.take (s.inst strict ctrls pc isCompressed extra).ckptidx) v ≤
      startsAt (ctrls.take s.ckptidx) v + if v = n then extra + 1 else 0 := by
  induction extra generalizing s with
  | zero => exact commit_used hNum v
  | succ extra ih =>
      have hFirst := @commit_used strict ctrls n pc isCompressed false s hNum v
      have hRest := @ih (s.move strict ctrls (.commit pc isCompressed false))
        fun h => move_numInst hNum h
      rw [Sched.inst]
      split at hFirst <;> split at hRest <;> split <;> omega

/-- An instruction serves as many entries as it has micro-ops. -/
theorem inst_served (hSorted : ctrls.Pairwise fun a b => a.start ≤ b.start)
    (hCursor : CursorOk ctrls s) (hNum : s.exited = false → s.numInst = n) {extra : Nat}
    (h : Waiting ctrls n (extra + 1) s) :
    ∀ ctrl ∈ ctrls.drop (s.inst strict ctrls pc isCompressed extra).ckptidx,
      n + 1 ≤ ctrl.start := by
  induction extra generalizing s with
  | zero => exact (h.move hSorted hCursor hNum).next
  | succ extra ih =>
      exact ih (hCursor.move _) (fun h => move_numInst hNum h) (h.move hSorted hCursor hNum)

end Counting

section Run

variable {strict : Bool} {ctrls : List CkptCtrl} {done : List Step} {s : Sched}

/-- The micro-ops of an instruction are counted under its own number. -/
theorem microopsAt_instr (done : List Step) (i : Instr) (v : Nat) :
    microopsAt (done ++ [.instr i]) v =
      microopsAt done v + if v = (instrs done).length then i.shape.microops.length else 0 := by
  simp only [microopsAt, instrs_append, instrs]
  by_cases hOld : v < (instrs done).length
  · rw [List.getElem?_append_left hOld, if_neg (by omega), Nat.add_zero]
  · have hNone : (instrs done)[v]? = none := List.getElem?_eq_none (by omega)
    by_cases hNew : v = (instrs done).length
    · subst hNew
      simp
    · have hPast : (instrs done ++ [i])[v]? = none :=
        List.getElem?_eq_none (by rw [List.length_append, List.length_singleton]; omega)
      rw [hPast, hNone, if_neg hNew, Nat.add_zero]

theorem microopsAt_ecall (done : List Step) (e : Ecall) (v : Nat) :
    microopsAt (done ++ [.ecall e]) v = microopsAt done v := by
  simp only [microopsAt, instrs_append, instrs, List.append_nil]

/-- What a run has executed, a longer one has executed too. -/
theorem microopsAt_append {v : Nat} (more : List Step) (h : v < (instrs done).length) :
    microopsAt (done ++ more) v = microopsAt done v := by
  simp only [microopsAt, instrs_append, List.getElem?_append_left h]

/-- Between two steps: the count, and how many entries have been used. -/
structure UsedOk (ctrls : List CkptCtrl) (done : List Step) (s : Sched) : Prop where
  count : s.exited = false → s.numInst = (instrs done).length
  used : ∀ v, startsAt (ctrls.take s.ckptidx) v ≤ microopsAt done v

theorem moveAll_ecall_fields (e : Ecall) :
    ((Step.ecall e).moveAll strict ctrls s).ckptidx = s.ckptidx ∧
      ((Step.ecall e).moveAll strict ctrls s).exited = s.exited ∧
      ((Step.ecall e).moveAll strict ctrls s).numInst = s.numInst := by
  simp only [Step.moveAll, Sched.move]
  split <;> exact ⟨rfl, rfl, rfl⟩

/-- A step of the program keeps the count of the used entries right. -/
theorem UsedOk.step (h : UsedOk ctrls done s) (step : Step) :
    UsedOk ctrls (done ++ [step]) (step.moveAll strict ctrls s) := by
  cases step with
  | instr i =>
      have hMicro : i.shape.microops.length - 1 + 1 = i.shape.microops.length :=
        Nat.sub_add_cancel (List.length_pos_iff.mpr i.shape.microops_ne_nil)
      refine ⟨fun hRunning => ?_, fun v => ?_⟩
      · rw [instrs_append, List.length_append]
        exact inst_numInst h.count _ hRunning
      · rw [microopsAt_instr, ← hMicro]
        exact (inst_used h.count _ v).trans (Nat.add_le_add_right (h.used v) _)
  | ecall e =>
      obtain ⟨hIdx, hExited, hNum⟩ := @moveAll_ecall_fields strict ctrls s e
      refine ⟨?_, fun v => ?_⟩
      · rw [hExited, hNum, instrs_append, instrs, instrs, List.append_nil]
        exact h.count
      · rw [hIdx, microopsAt_ecall]
        exact h.used v

/-- A run of the program keeps the count of the used entries right. -/
theorem UsedOk.run (rest : List Step) (h : UsedOk ctrls done s) :
    UsedOk ctrls (done ++ rest) (rest.foldl (fun s step => step.moveAll strict ctrls s) s) := by
  induction rest generalizing done s with
  | nil => simpa using h
  | cons step rest ih =>
      have hRest := ih (@UsedOk.step strict ctrls done s h step)
      rwa [List.append_assoc] at hRest

/-- With enough micro-ops for every start, nobody is left behind: the entries
that still wait start at later instructions. -/
theorem served_run (hSorted : ctrls.Pairwise fun a b => a.start ≤ b.start) (rest : List Step)
    (hEnough : ∀ v, startsAt ctrls v ≤ microopsAt (done ++ rest) v) (hCursor : CursorOk ctrls s)
    (hUsed : UsedOk ctrls done s)
    (h : ∀ ctrl ∈ ctrls.drop s.ckptidx, (instrs done).length ≤ ctrl.start) :
    ∀ ctrl ∈ ctrls.drop (rest.foldl (fun s step => step.moveAll strict ctrls s) s).ckptidx,
      (instrs (done ++ rest)).length ≤ ctrl.start := by
  induction rest generalizing done s with
  | nil => simpa using h
  | cons step rest ih =>
      have hAppend : done ++ step :: rest = done ++ [step] ++ rest := by simp
      rw [hAppend] at hEnough ⊢
      refine ih hEnough (hCursor.step step) (hUsed.step step) ?_
      cases step with
      | instr i =>
          have hMicro : i.shape.microops.length - 1 + 1 = i.shape.microops.length :=
            Nat.sub_add_cancel (List.length_pos_iff.mpr i.shape.microops_ne_nil)
          have hHere : microopsAt (done ++ [.instr i] ++ rest) (instrs done).length =
              i.shape.microops.length := by
            rw [microopsAt_append rest (by simp [instrs])]
            simp [microopsAt, instrs]
          have hCount : startsAt (ctrls.drop s.ckptidx) (instrs done).length ≤
              i.shape.microops.length - 1 + 1 := by
            rw [hMicro, ← hHere]
            exact (List.drop_sublist _ _).countP_le.trans (hEnough _)
          rw [instrs_append, List.length_append]
          exact inst_served hSorted hCursor hUsed.count ⟨h, hCount⟩
      | ecall e =>
          obtain ⟨hIdx, -, -⟩ := @moveAll_ecall_fields strict ctrls s e
          rw [hIdx, instrs_append, instrs, instrs, List.append_nil]
          exact h

end Run

/-- The entries are sorted by their starts. -/
theorem initCtrls_sorted (lines : List CtrlLine) :
    (initCtrls lines).Pairwise fun a b => a.start ≤ b.start := List.pairwise_insertionSort _ _

/-- Every entry of a settings file starts exactly one checkpoint in a direct run
if and only if the run executes, for every start, at least as many micro-ops of
the instruction with that number as there are entries with that start. The
simulator exits only after all entries have been created and saved. -/
theorem all_created_iff (lines : List CtrlLine) (strictLength : Bool) (run : List Step) :
    let cpu := runSteps { ctrls := initCtrls lines, strictLength := strictLength } {} run
    (AllCreated (initCtrls lines) cpu ↔ ∀ v, startsAt (initCtrls lines) v ≤ microopsAt run v) ∧
      (cpu.exited = true → cpu.pendingCkpts = [] ∧
        (cpu.saved.map CkptInfo.window).Perm ((initCtrls lines).map CkptCtrl.window)) := by
  intro cpu
  have hSched : cpu.sched = run.foldl
      (fun s step => step.moveAll strictLength (initCtrls lines) s) {} := sched_runSteps rfl run
  have hStart : CursorOk (initCtrls lines) {} := ⟨List.Perm.refl _, fun h => absurd h (by decide)⟩
  have hCursor : CursorOk (initCtrls lines) cpu.sched := hSched ▸ hStart.run run
  have hUsedStart : UsedOk (initCtrls lines) [] {} := ⟨fun _ => rfl, fun v => Nat.zero_le _⟩
  have hUsed : UsedOk (initCtrls lines) run cpu.sched := hSched ▸ hUsedStart.run run
  have hWindows : (cpu.saved ++ cpu.pendingCkpts).map CkptInfo.window =
      cpu.sched.saved.map Closed.window ++ cpu.sched.pending := by
    rw [List.map_append, Cpu.sched, List.map_map]
    rfl
  have hCreated := hCursor.created
  rw [← hWindows] at hCreated
  refine ⟨⟨fun hAll v => ?_, fun hEnough => ?_⟩, fun hExited => ?_⟩
  · -- all entries are created only if the cursor has passed all of them
    have hLength := (hCreated.symm.trans hAll).length_eq
    rw [List.length_map, List.length_map, List.length_take] at hLength
    have hAllTaken : (initCtrls lines).take cpu.sched.ckptidx = initCtrls lines :=
      List.take_of_length_le (by omega)
    have hBound := hUsed.used v
    rwa [hAllTaken] at hBound
  · have hLater :=
      @served_run strictLength (initCtrls lines) [] {} (initCtrls_sorted lines) run hEnough
      hStart hUsedStart fun _ _ => Nat.zero_le _
    rw [← hSched] at hLater
    have hNone : (initCtrls lines).drop cpu.sched.ckptidx = [] := by
      refine List.eq_nil_iff_forall_not_mem.mpr fun ctrl hCtrl => ?_
      have hFar : (instrs run).length ≤ ctrl.start := hLater ctrl hCtrl
      have hOne : 0 < startsAt (initCtrls lines) ctrl.start :=
        List.countP_pos_iff.mpr ⟨ctrl, List.mem_of_mem_drop hCtrl, by simp⟩
      have hZero : microopsAt run ctrl.start = 0 := by
        rw [microopsAt, List.getElem?_eq_none hFar]
        rfl
      have hBound := hEnough ctrl.start
      omega
    rw [List.take_of_length_le (List.drop_eq_nil_iff.mp hNone)] at hCreated
    exact hCreated
  · obtain ⟨hPending, hIdx⟩ := hCursor.exited hExited
    have hNil : cpu.pendingCkpts = [] := List.map_eq_nil_iff.mp hPending
    rw [hNil, List.append_nil, hIdx, List.take_length] at hCreated
    exact ⟨hNil, hCreated⟩

/-- Of two entries that start at instruction 2, only one becomes a checkpoint,
although the run goes on behind the end of every entry. -/
theorem created_duplicate_lost :
    let ctrls := initCtrls [⟨0, 2, 0, 2⟩, ⟨2, 3, 0, 1⟩]
    let run := (List.range 7).map fun k => idle (0x1000 + 4 * k) .plain
    (∀ ctrl ∈ ctrls, ctrl.start < ctrl.stop ∧ ctrl.stop < (instrs run).length) ∧
      ¬ AllCreated ctrls (runSteps { ctrls := ctrls } {} run) := by
  intro ctrls run
  have hSched : (runSteps { ctrls := ctrls } {} run).sched.saved.length +
      (runSteps { ctrls := ctrls } {} run).sched.pending.length = 2 := by
    rw [sched_runSteps rfl]
    decide +kernel
  refine ⟨by decide +kernel, fun hAll => ?_⟩
  have hLength := hAll.length_eq
  simp only [Cpu.sched, List.length_map] at hSched
  rw [List.length_map, List.length_append, List.length_map, hSched] at hLength
  exact absurd hLength (by decide +kernel)

end RiscvCkpt
