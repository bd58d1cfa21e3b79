import RiscvCkpt.Cpu.Scheduler

/-! Where a checkpoint ends. The exit instruction is the first of its pc since
the last system call of the window, so that a replay which replaces it after that
call stops there. -/
namespace RiscvCkpt

open MachineInt

def calls : List Step → Nat
  | [] => 0
  | .instr _ :: rest => calls rest
  | .ecall _ :: rest => calls rest + 1

/-- The pcs of the instructions behind the last system call. -/
def sinceEcall : List Step → List Nat
  | [] => []
  | .instr i :: rest => if calls rest = 0 then i.pc :: sinceEcall rest else sinceEcall rest
  | .ecall _ :: rest => sinceEcall rest

/-- The steps that a replay makes which replaces the instruction at `exit_pc`
after so many system calls. -/
def replayed (exit_pc : Nat) : Nat → List Step → List Step
  | _, [] => []
  | n, .ecall e :: rest => .ecall e :: replayed exit_pc (n - 1) rest
  | 0, .instr i :: rest => if i.pc = exit_pc then [] else .instr i :: replayed exit_pc 0 rest
  | n + 1, .instr i :: rest => .instr i :: replayed exit_pc (n + 1) rest

/-- The checkpoint ends at the right place of the run: at its `simNums`-th
instruction, not before its length, and a replay stops exactly there. -/
def ExitsRight (run : List Step) (c : Closed) : Prop :=
  ∃ before first window exit after, run = before ++ .instr first :: window ++ .instr exit :: after ∧
    (instrs before).length = c.window.start ∧ (instrs window).length + 1 = c.simNums ∧
    c.window.length ≤ c.simNums ∧ c.exit_pc = exit.pc ∧ exit.pc ∉ sinceEcall window ∧
    replayed c.exit_pc (calls window) (window ++ .instr exit :: after) = window

/-- Every execution of an instruction at a pc has the same flag. -/
def SameFlags (flag : Nat → Bool) (run : List Step) : Prop :=
  ∀ i ∈ instrs run, i.isCompressed = flag i.pc

section Windows

@[simp] theorem calls_append (xs ys : List Step) : calls (xs ++ ys) = calls xs + calls ys := by
  induction xs with
  | nil => simp [calls]
  | cons step rest ih =>
      cases step with
      | instr i => exact ih
      | ecall e =>
          simp only [List.cons_append, calls, ih]
          omega

theorem sinceEcall_instr (window : List Step) (i : Instr) :
    sinceEcall (window ++ [.instr i]) = sinceEcall window ++ [i.pc] := by
  induction window with
  | nil => rfl
  | cons step rest ih =>
      cases step with
      | instr j =>
          simp only [List.cons_append, sinceEcall, calls_append, calls, Nat.add_zero, ih]
          split <;> simp
      | ecall e => exact ih

theorem sinceEcall_ecall (window : List Step) (e : Ecall) :
    sinceEcall (window ++ [.ecall e]) = [] := by
  induction window with
  | nil => rfl
  | cons step rest ih =>
      cases step with
      | instr j =>
          simp only [List.cons_append, sinceEcall, calls_append, calls, Nat.add_one_ne_zero,
          if_false, Nat.zero_add, ih]
      | ecall e => exact ih

/-- A replay runs through the window and stops behind it. -/
theorem replayed_window {window after : List Step} {exit : Instr}
    (h : exit.pc ∉ sinceEcall window) :
    replayed exit.pc (calls window) (window ++ .instr exit :: after) = window := by
  induction window with
  | nil => simp [replayed, calls]
  | cons step rest ih =>
      cases step with
      | ecall e => exact congrArg (Step.ecall e :: ·) (ih h)
      | instr i =>
          simp only [sinceEcall] at h
          cases hCalls : calls rest with
          | zero =>
              rw [hCalls] at ih
              simp only [hCalls, if_true, List.mem_cons, not_or] at h
              simp only [calls, hCalls, List.cons_append, replayed, if_neg (Ne.symm h.1), ih h.2]
          | succ n =>
              rw [hCalls] at ih
              simp only [hCalls, Nat.add_one_ne_zero, if_false] at h
              simp only [calls, hCalls, List.cons_append, replayed, ih h]

end Windows

/-- The window has been opened by an instruction of the run, and all pcs since
its last system call are noted, compressed instructions aside. -/
def OpenIn (flag : Nat → Bool) (done : List Step) (preinsts : Finset Nat) (w : Window) : Prop :=
  ∃ before first window, done = before ++ .instr first :: window ∧
    (instrs before).length = w.start ∧ ∀ pc ∈ sinceEcall window, flag pc = false → pc ∈ preinsts

/-- A window that has been closed, possibly by the instruction that opened it. -/
structure ClosedIn (done : List Step) (c : Closed) : Prop where
  isOver : (c.window.start + c.window.length) % 2 ^ 64 ≤ c.window.start + c.simNums
  place : c.simNums ≠ 0 → ∃ before first window exit after,
    done = before ++ .instr first :: window ++ .instr exit :: after ∧
    (instrs before).length = c.window.start ∧ (instrs window).length + 1 = c.simNums ∧
    c.exit_pc = exit.pc ∧ exit.pc ∉ sinceEcall window

/-- The schedule between two steps of the program. -/
structure SchedOk (flag : Nat → Bool) (done : List Step) (s : Sched) : Prop where
  count : s.exited = false → s.numInst = (instrs done).length
  pending : s.exited = false → ∀ w ∈ s.pending, OpenIn flag done s.preinsts w
  saved : ∀ c ∈ s.saved, ClosedIn done c

/-- The schedule while `cur` executes. A window may have been opened by it. -/
structure MidOk (flag : Nat → Bool) (done : List Step) (cur : Instr) (s : Sched) : Prop where
  count : s.numInst = (instrs done).length
  pending : ∀ w ∈ s.pending, OpenIn flag done s.preinsts w ∨ w.start = s.numInst
  saved : ∀ c ∈ s.saved, ClosedIn (done ++ [.instr cur]) c

section Commit

variable {ctrls : List CkptCtrl} {pc n : Nat} {isCompressed counts : Bool} {s : Sched} {w : Window}
  {c : Closed}

/-- A window that is pending behind a start was pending before, or starts now. -/
theorem mem_start_pending (h : w ∈ (s.start ctrls n).pending) : w ∈ s.pending ∨ w.start = n := by
  simp only [Sched.start] at h
  split at h
  · exact Or.inl h
  · split at h
    · next hStart =>
        rcases List.mem_append.mp h with hOld | hNew
        · exact Or.inl hOld
        · obtain rfl := List.mem_singleton.mp hNew
          exact Or.inr hStart.symm
    · exact Or.inl h

/-- What a commit can do to the schedule. -/
structure CommitOk (pc : Nat) (isCompressed counts : Bool) (s s' : Sched) : Prop where
  count : s'.numInst = if counts then s.numInst + 1 else s.numInst
  preinsts : s'.preinsts = if s.pending ≠ [] ∧ isCompressed = false then insert pc s.preinsts
    else s.preinsts
  pending : ∀ w ∈ s'.pending, w ∈ s.pending ∨ w.start = s.numInst
  saved : ∀ c ∈ s'.saved, c ∈ s.saved ∨ ∃ w, (w ∈ s.pending ∨ w.start = s.numInst) ∧
    w.over s.numInst = true ∧ c = w.close s.numInst pc ∧ isCompressed = false ∧ pc ∉ s.preinsts

/-- What a commit does to the schedule without `strictLength`. -/
theorem commit_ok (ctrls : List CkptCtrl) (pc : Nat) (isCompressed counts : Bool) (s : Sched) :
    CommitOk pc isCompressed counts s (s.commit false ctrls pc isCompressed counts) := by
  obtain ⟨-, hPre, hPending, -, hSaved, -⟩ := s.count_fields counts
  obtain ⟨-, hStartPre, hStartSaved, -⟩ := (s.count counts).start_fields ctrls s.numInst
  have hStarted : ∀ w ∈ ((s.count counts).start ctrls s.numInst).pending,
      w ∈ s.pending ∨ w.start = s.numInst := fun w hw => hPending ▸ mem_start_pending hw
  have hCount := s.commit_numInst false ctrls pc isCompressed counts
  rw [hPre] at hStartPre
  rw [hSaved] at hStartSaved
  simp only [Sched.commit] at hCount ⊢
  generalize (s.count counts).start ctrls s.numInst = started at *
  by_cases hValid : s.pending ≠ []
  · rw [if_pos hValid] at hCount ⊢
    obtain ⟨-, hNotePending, -, hNoteSaved, -⟩ :=
      (started.finish false ctrls s.numInst pc isCompressed).note_fields false pc isCompressed
    have hFinishPre := (started.finish_fields false ctrls s.numInst pc isCompressed).2.1
    refine ⟨hCount, ?_, ?_, ?_⟩
    · cases isCompressed <;> simp [Sched.note, hFinishPre, hStartPre, hValid]
    · rw [hNotePending]
      intro w hw
      rcases started.finish_cases false ctrls s.numInst pc isCompressed with
        hSame | ⟨hStrict, -⟩ | ⟨-, -, -, hClose⟩
      · exact hStarted w (hSame ▸ hw)
      · exact absurd hStrict (by decide)
      · rw [hClose] at hw
        exact hStarted w (List.mem_of_mem_filter hw)
    · rw [hNoteSaved]
      intro c hc
      rcases started.finish_cases false ctrls s.numInst pc isCompressed with
        hSame | ⟨hStrict, -⟩ | ⟨-, hFlag, hFresh, hClose⟩
      · exact Or.inl (hStartSaved ▸ hSame ▸ hc)
      · exact absurd hStrict (by decide)
      · rw [hClose] at hc
        rcases List.mem_append.mp hc with hOld | hNew
        · exact Or.inl (hStartSaved ▸ hOld)
        · obtain ⟨w, hw, rfl⟩ := List.mem_map.mp hNew
          obtain ⟨hMem, hOver⟩ := List.mem_filter.mp hw
          exact Or.inr ⟨w, hStarted w hMem, hOver, rfl, hFlag, hStartPre ▸ hFresh⟩
  · rw [if_neg hValid] at hCount ⊢
    refine ⟨hCount, ?_, hStarted, ?_⟩
    · rw [hStartPre, if_neg fun h => hValid h.1]
    · rw [hStartSaved]
      exact fun c hc => Or.inl hc

end Commit

section Run

variable {flag : Nat → Bool} {done : List Step} {preinsts preinsts' : Finset Nat} {w : Window}
  {c : Closed} {cur : Instr} {s : Sched} {ctrls : List CkptCtrl}

theorem OpenIn.mono (h : OpenIn flag done preinsts w) (hSub : preinsts ⊆ preinsts') :
    OpenIn flag done preinsts' w := by
  obtain ⟨before, first, window, hDone, hStart, hNoted⟩ := h
  exact ⟨before, first, window, hDone, hStart, fun pc hPc hFlag => hSub (hNoted pc hPc hFlag)⟩

/-- An open window stays open over an instruction that has been noted. -/
theorem OpenIn.instr (h : OpenIn flag done preinsts w)
    (hCur : flag cur.pc = false → cur.pc ∈ preinsts) :
    OpenIn flag (done ++ [.instr cur]) preinsts w := by
  obtain ⟨before, first, window, rfl, hStart, hNoted⟩ := h
  refine ⟨before, first, window ++ [.instr cur], by simp, hStart, fun pc hPc hFlag => ?_⟩
  rw [sinceEcall_instr] at hPc
  rcases List.mem_append.mp hPc with hOld | hNew
  · exact hNoted pc hOld hFlag
  · obtain rfl := List.mem_singleton.mp hNew
    exact hCur hFlag

/-- A system call clears the notes, and nothing has to be noted behind it. -/
theorem OpenIn.ecall (h : OpenIn flag done preinsts w) (e : Ecall) :
    OpenIn flag (done ++ [.ecall e]) preinsts' w := by
  obtain ⟨before, first, window, rfl, hStart, -⟩ := h
  refine ⟨before, first, window ++ [.ecall e], by simp, hStart, fun pc hPc => ?_⟩
  rw [sinceEcall_ecall] at hPc
  exact absurd hPc List.not_mem_nil

theorem ClosedIn.append (h : ClosedIn done c) (more : List Step) : ClosedIn (done ++ more) c := by
  refine ⟨h.isOver, fun hNums => ?_⟩
  obtain ⟨before, first, window, exit, after, rfl, hRest⟩ := h.place hNums
  exact ⟨before, first, window, exit, after ++ more, by simp, hRest⟩

/-- The number of simulated instructions does not wrap. -/
theorem simNums_exact {start n : Nat} (hLe : start ≤ n) (hLt : n < 2 ^ 63) :
    uint64 ((n : Int) - start) = n - start := by
  simp only [uint64]
  omega

/-- Closing by the instruction that has just opened the window. -/
theorem closedIn_at_start (hStart : w.start = (instrs done).length)
    (hLt : (instrs done).length < 2 ^ 63) (hOver : w.over (instrs done).length = true)
    (more : List Step) (pc : Nat) : ClosedIn more (w.close (instrs done).length pc) := by
  have hNums := simNums_exact (Nat.le_of_eq hStart) hLt
  refine ⟨?_, fun h => absurd ?_ h⟩
  · simp only [Window.over, decide_eq_true_eq] at hOver
    simp only [Window.close]
    omega
  · simp only [Window.close, hNums]
    omega

/-- Closing by a later instruction whose pc is not noted. -/
theorem OpenIn.closedIn (h : OpenIn flag done preinsts w) (hLt : (instrs done).length < 2 ^ 63)
    (hOver : w.over (instrs done).length = true) (hFlag : flag cur.pc = false)
    (hFresh : cur.pc ∉ preinsts) :
    ClosedIn (done ++ [.instr cur]) (w.close (instrs done).length cur.pc) := by
  obtain ⟨before, first, window, rfl, hStart, hNoted⟩ := h
  have hLength : (instrs (before ++ .instr first :: window)).length =
      w.start + (instrs window).length + 1 := by
    rw [instrs_append, List.length_append, hStart, instrs, List.length_cons]
    omega
  rw [hLength] at hOver hLt ⊢
  have hNums := simNums_exact (show w.start ≤ w.start + (instrs window).length + 1 by omega) hLt
  simp only [Window.over, decide_eq_true_eq] at hOver
  refine ⟨?_, fun _ => ⟨before, first, window, cur, [], by simp, hStart, ?_, rfl, ?_⟩⟩
  · simp only [Window.close, hNums]
    omega
  · simp only [Window.close, hNums]
    omega
  · exact fun hMem => hFresh (hNoted _ hMem hFlag)

/-- What a commit of `cur` closes is closed at the right place. -/
theorem MidOk.commit_saved {s' : Sched} {counts : Bool} (h : MidOk flag done cur s)
    (hLt : (instrs done).length < 2 ^ 63) (hFlag : cur.isCompressed = flag cur.pc)
    (hCommit : CommitOk cur.pc cur.isCompressed counts s s') :
    ∀ c ∈ s'.saved, ClosedIn (done ++ [.instr cur]) c := by
  intro c hc
  rcases hCommit.saved c hc with hOld | ⟨w, hw, hOver, rfl, hCompressed, hFresh⟩
  · exact h.saved c hOld
  · have hOpen : OpenIn flag done s.preinsts w ∨ w.start = s.numInst := hw.elim (h.pending w) Or.inr
    rw [h.count] at hOver hOpen ⊢
    rcases hOpen with hOpen | hStart
    · exact hOpen.closedIn hLt hOver (hFlag ▸ hCompressed) hFresh
    · exact closedIn_at_start hStart hLt hOver _ _

/-- A window that is pending behind a commit was open before, or starts with this instruction. -/
theorem MidOk.pending_kept {s' : Sched} {counts : Bool} (h : MidOk flag done cur s)
    (hCommit : CommitOk cur.pc cur.isCompressed counts s s') :
    ∀ w ∈ s'.pending, OpenIn flag done s'.preinsts w ∨ w.start = s.numInst := by
  have hSub : s.preinsts ⊆ s'.preinsts := by
    rw [hCommit.preinsts]
    split
    · exact Finset.subset_insert _ _
    · exact Finset.Subset.refl _
  intro w hw
  rcases hCommit.pending w hw with hOld | hNew
  · exact (h.pending w hOld).imp (fun hOpen => hOpen.mono hSub) id
  · exact Or.inr hNew

/-- One micro-op before the last keeps the schedule right. -/
theorem MidOk.micro (h : MidOk flag done cur s) (hLt : (instrs done).length < 2 ^ 63)
    (hFlag : cur.isCompressed = flag cur.pc) :
    MidOk flag done cur (s.move false ctrls (.commit cur.pc cur.isCompressed false)) := by
  simp only [Sched.move]
  split
  · exact h
  · have hCommit := commit_ok ctrls cur.pc cur.isCompressed false s
    have hCount := hCommit.count
    rw [if_neg (by decide)] at hCount
    refine ⟨hCount.trans h.count, ?_, h.commit_saved hLt hFlag hCommit⟩
    rw [hCount]
    exact h.pending_kept hCommit

/-- The last micro-op completes the instruction. Its pc is noted for every
window that was open before. -/
theorem MidOk.last (h : MidOk flag done cur s) (hLt : (instrs done).length < 2 ^ 63)
    (hFlag : cur.isCompressed = flag cur.pc) :
    SchedOk flag (done ++ [.instr cur])
      (s.move false ctrls (.commit cur.pc cur.isCompressed true)) := by
  simp only [Sched.move]
  split
  · next hExited =>
      exact ⟨fun hNot => absurd hExited (by simp [hNot]),
        fun hNot => absurd hExited (by simp [hNot]), h.saved⟩
  · have hCommit := commit_ok ctrls cur.pc cur.isCompressed true s
    have hCount := hCommit.count
    rw [if_pos rfl] at hCount
    refine ⟨fun _ => ?_, fun _ w hw => ?_, h.commit_saved hLt hFlag hCommit⟩
    · rw [hCount, h.count, instrs_append, List.length_append]
      rfl
    · have hNewOpen : w.start = s.numInst → OpenIn flag (done ++ [.instr cur])
          (s.commit false ctrls cur.pc cur.isCompressed true).preinsts w := fun hStart =>
        ⟨done, cur, [], rfl, (hStart.trans h.count).symm, by simp [sinceEcall]⟩
      rcases hCommit.pending w hw with hOld | hNew
      · rcases h.pending_kept hCommit w hw with hOpen | hStart
        · refine hOpen.instr fun hPlain => ?_
          rw [hCommit.preinsts, if_pos ⟨List.ne_nil_of_mem hOld, hFlag.trans hPlain⟩]
          exact Finset.mem_insert_self _ _
        · exact hNewOpen hStart
      · exact hNewOpen hNew

/-- A whole instruction keeps the schedule right. -/
theorem MidOk.inst (h : MidOk flag done cur s) (hLt : (instrs done).length < 2 ^ 63)
    (hFlag : cur.isCompressed = flag cur.pc) (extra : Nat) :
    SchedOk flag (done ++ [.instr cur]) (s.inst false ctrls cur.pc cur.isCompressed extra) := by
  induction extra generalizing s with
  | zero => exact h.last hLt hFlag
  | succ extra ih => exact ih (h.micro hLt hFlag)

theorem inst_exited (ctrls : List CkptCtrl) (pc : Nat) (isCompressed : Bool) (extra : Nat)
    (h : s.exited = true) : s.inst false ctrls pc isCompressed extra = s := by
  have hMove : ∀ m, s.move false ctrls m = s := fun m => if_pos h
  induction extra with
  | zero => exact hMove _
  | succ extra ih => rw [Sched.inst, hMove, ih]

/-- One step of the program keeps the schedule right. -/
theorem SchedOk.step (h : SchedOk flag done s) (hLt : (instrs done).length < 2 ^ 63) (step : Step)
    (hFlag : SameFlags flag [step]) :
    SchedOk flag (done ++ [step]) (step.moveAll false ctrls s) := by
  cases hExited : s.exited with
  | true =>
      have hSame : step.moveAll false ctrls s = s := by
        cases step with
        | instr i => exact inst_exited ctrls _ _ _ hExited
        | ecall e => exact if_pos hExited
      rw [hSame]
      exact ⟨fun hNot => absurd hExited (by simp [hNot]),
        fun hNot => absurd hExited (by simp [hNot]), fun c hc => (h.saved c hc).append _⟩
  | false =>
      cases step with
      | instr i =>
          have hMid : MidOk flag done i s := ⟨h.count hExited,
            fun w hw => Or.inl (h.pending hExited w hw), fun c hc => (h.saved c hc).append _⟩
          exact hMid.inst hLt (hFlag i (List.mem_singleton_self i)) _
      | ecall e =>
          simp only [Step.moveAll, Sched.move, hExited, Bool.false_eq_true, if_false]
          refine ⟨fun _ => ?_, fun _ w hw => (h.pending hExited w hw).ecall e,
            fun c hc => (h.saved c hc).append _⟩
          rw [instrs_append, instrs, instrs, List.append_nil]
          exact h.count hExited

/-- A whole run keeps the schedule right. -/
theorem SchedOk.run (rest : List Step) (h : SchedOk flag done s)
    (hLt : (instrs (done ++ rest)).length < 2 ^ 63) (hFlags : SameFlags flag rest) :
    SchedOk flag (done ++ rest) (rest.foldl (fun s step => step.moveAll false ctrls s) s) := by
  induction rest generalizing done s with
  | nil => simpa using h
  | cons step rest ih =>
      have hAppend : done ++ step :: rest = done ++ [step] ++ rest := by simp
      rw [hAppend] at hLt ⊢
      have hSplit : SameFlags flag [step] ∧ SameFlags flag rest := by
        cases step with
        | instr i =>
            exact ⟨fun j hj => hFlags j (List.mem_cons.mpr (Or.inl (List.mem_singleton.mp hj))),
            fun j hj => hFlags j (List.mem_cons_of_mem _ hj)⟩
        | ecall e => exact ⟨fun j hj => absurd hj List.not_mem_nil, hFlags⟩
      have hDone : (instrs done).length < 2 ^ 63 := by
        simp only [instrs_append, List.length_append] at hLt
        omega
      exact ih (h.step hDone step hSplit.1) hLt hSplit.2

end Run

/-- In a direct run without `strictLength`, a saved checkpoint ends at the right place if
its window is not empty and its end does not wrap around. -/
theorem exits_right {settings : CkptSettings} (hDirect : settings.readCkpt = none)
    (hStrict : settings.strictLength = false) {flag : Nat → Bool} {run : List Step}
    (hFlags : SameFlags flag run) (hCount : (instrs run).length < 2 ^ 63) {info : CkptInfo}
    (hSaved : info ∈ (runSteps settings {} run).saved) (hLength : 0 < info.length)
    (hWrap : info.startnum + info.length < 2 ^ 64) : ExitsRight run info.closed := by
  have hStart : SchedOk flag [] (Cpu.sched {}) :=
    ⟨fun _ => rfl, fun _ w hw => absurd hw List.not_mem_nil, fun c hc => absurd hc List.not_mem_nil⟩
  have hRun := @SchedOk.run flag [] _ settings.ctrls run hStart hCount hFlags
  have hSched := @sched_runSteps settings {} hDirect run
  rw [hStrict] at hSched
  rw [← hSched] at hRun
  have hClosed : ClosedIn run info.closed := hRun.saved _ (List.mem_map_of_mem hSaved)
  have hOver : (info.startnum + info.length) % 2 ^ 64 ≤ info.startnum + info.simNums :=
    hClosed.isOver
  rw [Nat.mod_eq_of_lt hWrap] at hOver
  have hNums : info.simNums ≠ 0 := by omega
  obtain ⟨before, first, window, exit, after, hRun, hBefore, hWindow, hPc, hFresh⟩ :=
    hClosed.place hNums
  refine ⟨before, first, window, exit, after, hRun, hBefore, hWindow, ?_, hPc, hFresh, ?_⟩
  · simp only [CkptInfo.closed, CkptInfo.window]
    omega
  · rw [hPc]
    exact replayed_window hFresh

def sampleRun : List Step :=
  [idle 0x1000 .plain, idle 0x1004 (.atomic true false), idle 0x1000 .plain,
    idle 0x1004 (.atomic true false)]

theorem exits_right_sample :
    ∃ info ∈ (runSteps { ctrls := [⟨0, 2, 0⟩] } {} sampleRun).saved,
      ExitsRight sampleRun info.closed := by
  have hSched : (runSteps { ctrls := [⟨0, 2, 0⟩] } {} sampleRun).sched.saved =
      [⟨⟨0, 2, 0⟩, 2, 0x1000⟩] := by
    rw [sched_runSteps rfl]
    decide +kernel
  have hMem : (⟨⟨0, 2, 0⟩, 2, 0x1000⟩ : Closed) ∈
      (runSteps { ctrls := [⟨0, 2, 0⟩] } {} sampleRun).sched.saved := by simp [hSched]
  obtain ⟨info, hInfo, hClosed⟩ := List.mem_map.mp hMem
  have hStart : info.startnum = 0 := congrArg (fun c => c.window.start) hClosed
  have hLength : info.length = 2 := congrArg (fun c => c.window.length) hClosed
  have hFlags : SameFlags (fun _ => false) sampleRun := by
    intro i hi
    simp only [sampleRun, idle, instrs, List.mem_cons, List.not_mem_nil, or_false] at hi
    rcases hi with rfl | rfl | rfl | rfl <;> rfl
  exact ⟨info, hInfo, exits_right rfl rfl hFlags (by decide) hInfo (by omega) (by omega)⟩

/-- An empty window behind an atomic instruction with `aq` is closed by the
second micro-op of that instruction. -/
theorem exits_inside_start :
    ∃ info ∈ (runSteps { ctrls := [⟨1, 1, 0⟩] } {} sampleRun).saved,
      ¬ ExitsRight sampleRun info.closed := by
  have hSched : (runSteps { ctrls := [⟨1, 1, 0⟩] } {} sampleRun).sched.saved =
      [⟨⟨1, 0, 0⟩, 0, 0x1004⟩] := by
    rw [sched_runSteps rfl]
    decide +kernel
  have hMem : (⟨⟨1, 0, 0⟩, 0, 0x1004⟩ : Closed) ∈
      (runSteps { ctrls := [⟨1, 1, 0⟩] } {} sampleRun).sched.saved := by simp [hSched]
  obtain ⟨info, hInfo, hClosed⟩ := List.mem_map.mp hMem
  refine ⟨info, hInfo, ?_⟩
  rintro ⟨before, first, window, exit, after, -, -, hNums, -⟩
  rw [hClosed] at hNums
  exact absurd hNums (Nat.succ_ne_zero _)

end RiscvCkpt
