import RiscvCkpt.Cpu.Windows

/-! Whether the saved text ranges cover what the window of a checkpoint executes. The
main loop enters an instruction when it goes through without a fault. A system call is
executed by returning one, so its page is saved only if another instruction of the
window lies on it. -/
namespace RiscvCkpt

open CkptInfo

/-- The tick enters the instruction at `pc` into the executed addresses. Apart from the
main loop, nothing calls `ckpt_addinst`. -/
def Tick.Notes (t : Tick) (pc : Nat) : Prop := .inst pc ∈ t.events ∨ t.fault = false ∧ pc = t.pc

/-- The tick executes its instruction: it goes through, or it is a system call. -/
def Tick.Executes (t : Tick) : Prop := t.fault = false ∨ t.isSyscall = true

def Tick.Byte (t : Tick) (b : Nat) : Prop := t.pc ≤ b ∧ b < t.pc + (if t.isCompressed then 2 else 4)

def counted (ts : List Tick) : Nat := (ts.filter fun t => !t.fault && t.counts).length

/-- The window of a pending checkpoint: the ticks behind the one that started it. -/
def OpenTicks (ctrls : List CkptCtrl) (done window : List Tick) (info : CkptInfo) : Prop :=
  ∃ before first, ∃ ctrl ∈ ctrls,
    done = before ++ first :: window ∧ first.fault = false ∧ counted before = ctrl.start ∧
    info = (ctrl.startAt first).noteAll window

/-- The window of a saved checkpoint: it was started in front of it and closed behind it. -/
def WindowTicks (ctrls : List CkptCtrl) (done window : List Tick) (info : CkptInfo) : Prop :=
  ∃ before first after, ∃ ctrl ∈ ctrls, ∃ exist n pc,
    done = before ++ first :: (window ++ after) ∧ first.fault = false ∧
      counted before = ctrl.start ∧
    info = ((ctrl.startAt first).noteAll window).close exist n pc

theorem counted_concat (ts : List Tick) (t : Tick) :
    counted (ts ++ [t]) = if !t.fault && t.counts then counted ts + 1 else counted ts := by
  rw [counted, List.filter_append, List.length_append, List.filter_singleton]
  cases !t.fault && t.counts <;> rfl

section Runs

variable {settings : CkptSettings} {cpu : Cpu} {t : Tick} {done window : List Tick}
  {info : CkptInfo} {ctrls : List CkptCtrl}

/-- An open window grows by the tick that is noted in it. -/
theorem OpenTicks.note (h : OpenTicks ctrls done window info) :
    OpenTicks ctrls (done ++ [t]) (window ++ [t]) (info.note t) := by
  obtain ⟨before, first, ctrl, hCtrl, rfl, hFault, hNum, rfl⟩ := h
  refine ⟨before, first, ctrl, hCtrl, ?_, hFault, hNum, ?_⟩
  · rw [List.append_assoc, List.cons_append]
  · exact (noteAll_append window [t] _).symm

/-- A window that is open can be closed. -/
theorem OpenTicks.close (h : OpenTicks ctrls done window info) (exist : Nat → UInt8) (n pc : Nat) :
    WindowTicks ctrls done window (info.close exist n pc) := by
  obtain ⟨before, first, ctrl, hCtrl, hDone, hFault, hNum, rfl⟩ := h
  refine ⟨before, first, [], ctrl, hCtrl, exist, n, pc, ?_, hFault, hNum, rfl⟩
  rw [List.append_nil]
  exact hDone

theorem WindowTicks.append (h : WindowTicks ctrls done window info) (more : List Tick) :
    WindowTicks ctrls (done ++ more) window info := by
  obtain ⟨before, first, after, ctrl, hCtrl, exist, n, pc, rfl, hFault, hNum, hInfo⟩ := h
  refine ⟨before, first, after ++ more, ctrl, hCtrl, exist, n, pc, ?_, hFault, hNum, hInfo⟩
  rw [List.append_assoc, List.cons_append, List.append_assoc]

/-- As long as the simulator runs, it has counted what the ticks have. -/
theorem numInst_counted (hDirect : settings.readCkpt = none) (ts : List Tick)
    (hRunning : (ticks settings {} ts).exited = false) :
    (ticks settings {} ts).numInst = counted ts := by
  induction ts using List.reverseRecOn with
  | nil => rfl
  | append_singleton done t ih =>
      have hNext : ticks settings {} (done ++ [t]) = tick settings (ticks settings {} done) t := by
        rw [ticks_append]
        rfl
      rw [hNext] at hRunning ⊢
      cases hExited : (ticks settings {} done).exited with
      | true =>
          rw [tick_exited hExited, hExited] at hRunning
          exact absurd hRunning Bool.false_ne_true.symm
      | false => rw [tick_numInst hDirect hExited, ih hExited, counted_concat]

/-- In a direct run a pending checkpoint takes note of the tick, nothing else. -/
theorem feed_direct (hDirect : settings.readCkpt = none) (cpu : Cpu) (t : Tick) (info : CkptInfo) :
    info.feed t.stack (cpu.batches settings t) = info.note t := by
  have hOwn : ∀ events, settings.own t events = events := fun events =>
    if_pos (relevant_direct hDirect t.pc)
  have hRepeated : cpu.repeated settings t = [] := by
    rw [Cpu.repeated, hDirect]
  rw [Cpu.batches, CkptInfo.note, hOwn, hOwn, hRepeated]
  cases t.fault with
  | true => rfl
  | false => rfl

theorem number_direct (hDirect : settings.readCkpt = none) (cpu : Cpu) (t : Tick) :
    cpu.number settings t = cpu.numInst := by
  rw [Cpu.number, isBenchInst_direct hDirect, if_neg Bool.false_ne_true]

/-- The windows of a direct run are what they are called. -/
theorem savedWindows_ticks (hDirect : settings.readCkpt = none) (ts : List Tick) :
    ∀ p ∈ savedWindows settings ts, WindowTicks settings.ctrls ts p.2 p.1 := by
  have hInd := @saved_induction _ settings [] (fun _ t window => window ++ [t])
    (fun done info window => OpenTicks settings.ctrls done window info)
    (fun done info window => WindowTicks settings.ctrls done window info)
  refine (hInd ?_ ?_ ?_ ?_ ts).2
  · intro done t ctrl hRunning hStarts
    have hDue := hStarts.due
    rw [number_direct hDirect, numInst_counted hDirect done hRunning] at hDue
    exact ⟨done, t, ctrl, List.mem_of_getElem? hStarts.next, rfl, hStarts.passed, hDue, rfl⟩
  · intro done t info window hOpen
    rw [feed_direct hDirect]
    exact hOpen.note
  · intro done info window exist n pc hOpen
    exact hOpen.close exist n pc
  · intro done t info window hClosed
    exact hClosed.append [t]

/-- A tick enters the address it notes. -/
theorem mem_note_textAccess (info : CkptInfo) (t : Tick) (a : Nat) :
    a ∈ (info.note t).textAccess ↔
      a ∈ info.textAccess ∨ ∃ pc, t.Notes pc ∧ (Event.inst pc).Executes a := by
  have hEvents : (∃ event ∈ t.events, event.Executes a) ↔
      ∃ pc, .inst pc ∈ t.events ∧ (Event.inst pc).Executes a := by
    constructor
    · rintro ⟨event, hEvent, hExec⟩
      obtain ⟨pc, rfl⟩ := hExec.inst
      exact ⟨pc, hEvent, hExec⟩
    · rintro ⟨pc, hEvent, hExec⟩
      exact ⟨_, hEvent, hExec⟩
  rw [CkptInfo.note]
  cases hFault : t.fault with
  | true =>
      rw [if_pos rfl, hooks_textAccess, hEvents]
      simp only [Tick.Notes, hFault, Bool.true_eq_false, false_and, or_false]
  | false =>
      rw [if_neg Bool.false_ne_true, hooks_textAccess, hooks_textAccess, hEvents]
      simp only [Tick.Notes, hFault, true_and, or_and_right, exists_or, List.mem_singleton,
        exists_eq_left, or_assoc]

/-- The executed addresses of a window are those that its ticks note. -/
theorem mem_noteAll_textAccess (info : CkptInfo) (ts : List Tick) (a : Nat) :
    a ∈ (info.noteAll ts).textAccess ↔
      a ∈ info.textAccess ∨ ∃ t ∈ ts, ∃ pc, t.Notes pc ∧ (Event.inst pc).Executes a := by
  induction ts generalizing info with
  | nil => simp [noteAll]
  | cons t rest ih =>
      have hCons : info.noteAll (t :: rest) = (info.note t).noteAll rest := rfl
      rw [hCons, ih, mem_note_textAccess, List.exists_mem_cons_iff, or_assoc]

theorem noteAll_textrange (info : CkptInfo) (ts : List Tick) :
    (info.noteAll ts).textrange = info.textrange := by
  induction ts generalizing info with
  | nil => rfl
  | cons t rest ih =>
      have hNote : (info.note t).textrange = info.textrange := by
        rw [note]
        split
        · exact (hooks_ranges _ _ _).1
        · rw [(hooks_ranges _ _ _).1, (hooks_ranges _ _ _).1]
      exact (ih (info.note t)).trans hNote

/-- The executed addresses of a saved checkpoint are those that its window has noted. -/
theorem WindowTicks.textAccess (h : WindowTicks ctrls done window info) (a : Nat) :
    a ∈ info.textAccess ↔ ∃ t ∈ window, ∃ pc, t.Notes pc ∧ (Event.inst pc).Executes a := by
  obtain ⟨before, first, after, ctrl, -, exist, n, pc, -, -, -, rfl⟩ := h
  have hClose : (((ctrl.startAt first).noteAll window).close exist n pc).textAccess =
      ((ctrl.startAt first).noteAll window).textAccess := rfl
  rw [hClose, mem_noteAll_textAccess]
  exact or_iff_right (Finset.notMem_empty a)

/-- The saved text holds the pages of the executed addresses. -/
theorem WindowTicks.holds (h : WindowTicks ctrls done window info)
    (hPcs : ∀ t ∈ window, ∀ pc, t.Notes pc → pc < 2 ^ 63) (b : Nat) :
    (∃ r ∈ info.textrange, r.Holds b) ↔ ∃ a ∈ info.textAccess, pageOf a = pageOf b := by
  have hNear : ∀ a ∈ info.textAccess, a < 2 ^ 63 + 4096 := by
    intro a ha
    obtain ⟨t, ht, pc, hNotes, hExec⟩ := (h.textAccess a).mp ha
    have hPc := hPcs t ht pc hNotes
    simp only [Event.Executes] at hExec
    omega
  obtain ⟨before, first, after, ctrl, -, exist, n, pc, -, -, -, rfl⟩ := h
  have hNone : ((ctrl.startAt first).noteAll window).textrange = [] := noteAll_textrange _ _
  rw [← getTextRange_holds hNear, CkptInfo.close, hNone]
  rfl

/-- The saved text holds a byte exactly if an instruction of the window that was noted
lies on its page. -/
theorem WindowTicks.textrange (h : WindowTicks ctrls done window info)
    (hPcs : ∀ t ∈ window, ∀ pc, t.Notes pc → pc < 2 ^ 63) (b : Nat) :
    (∃ r ∈ info.textrange, r.Holds b) ↔ ∃ t ∈ window, ∃ pc, t.Notes pc ∧ SharesPage pc b := by
  -- the second entry of a crossing instruction stands for its last byte
  have hPages : ∀ pc, (∃ a, (Event.inst pc).Executes a ∧ pageOf a = pageOf b) ↔
      SharesPage pc b := by
    intro pc
    simp only [Event.Executes, SharesPage, pageOf]
    constructor
    · rintro ⟨a, hExec, hPage⟩
      omega
    · intro hPage
      by_cases hOwn : b / 4096 * 4096 = pc / 4096 * 4096
      · exact ⟨pc, Or.inl rfl, hOwn.symm⟩
      · refine ⟨pc + 4096, Or.inr ⟨?_, rfl⟩, ?_⟩ <;> omega
  rw [h.holds hPcs]
  simp only [h.textAccess, ← hPages]
  constructor
  · rintro ⟨a, ⟨t, ht, pc, hNotes, hExec⟩, hPage⟩
    exact ⟨t, ht, pc, hNotes, a, hExec, hPage⟩
  · rintro ⟨t, ht, pc, hNotes, a, hExec, hPage⟩
    exact ⟨a, ⟨t, ht, pc, hNotes, hExec⟩, hPage⟩

/-- A tick of the window is a tick of the run. -/
theorem WindowTicks.subset (h : WindowTicks ctrls done window info) : window ⊆ done := by
  obtain ⟨before, first, after, ctrl, -, exist, n, pc, rfl, -⟩ := h
  intro t ht
  exact List.mem_append_right _ (List.mem_cons_of_mem _ (List.mem_append_left _ ht))

/-- The text of a saved checkpoint covers all instructions that its window executes,
system calls included, exactly if each page of a system call is also a page of an
instruction that goes through in the window. -/
theorem text_covered_iff (hDirect : settings.readCkpt = none) {run : List Step}
    (hPcs : ∀ t ∈ run.flatMap Step.ticks, ∀ pc, t.Notes pc → pc < 2 ^ 63) :
    (savedWindows settings (run.flatMap Step.ticks)).map Prod.fst =
      (runSteps settings {} run).saved ∧
    ∀ info window, (info, window) ∈ savedWindows settings (run.flatMap Step.ticks) →
      WindowTicks settings.ctrls (run.flatMap Step.ticks) window info ∧
      ((∀ t ∈ window, t.Executes → ∀ b, t.Byte b → ∃ r ∈ info.textrange, r.Holds b) ↔
        ∀ t ∈ window, t.isSyscall = true → ∀ b, t.Byte b →
          ∃ other ∈ window, ∃ pc, other.Notes pc ∧ SharesPage pc b) := by
  refine ⟨savedWindows_fst settings _, fun info window hSaved => ?_⟩
  have hWindow := savedWindows_ticks hDirect _ _ hSaved
  have hOwnPcs : ∀ t ∈ window, ∀ pc, t.Notes pc → pc < 2 ^ 63 := fun t ht =>
    hPcs t (hWindow.subset ht)
  refine ⟨hWindow, ?_⟩
  simp only [hWindow.textrange hOwnPcs]
  constructor
  · intro hAll t ht hCall
    exact hAll t ht (Or.inr hCall)
  · rintro hCalls t ht (hFault | hCall) b hb
    · -- an instruction that goes through notes both of its pages
      refine ⟨t, ht, t.pc, Or.inr ⟨hFault, rfl⟩, ?_⟩
      have hEnd : b < t.pc + 4 := by
        refine Nat.lt_of_lt_of_le hb.2 (Nat.add_le_add_left ?_ _)
        split <;> decide
      have hStart := hb.1
      simp only [SharesPage, pageOf]
      omega
    · exact hCalls t ht hCall b hb

end Runs

def callRun (pc : Nat) : List Step :=
  [idle 0x1000 .plain,
   .instr { pc := 0x2000, npc := pc, shape := .plain, isCompressed := false, faults := [],
            events := [], before := ⟨[], []⟩, after := ⟨[], []⟩, stack := fun _ _ => 0 },
   .ecall { pc := pc, npc := pc + 4, isCompressed := false, retries := [],
            events := [.sysenter pc 64 [], .sysret pc true 0], regs := ⟨[], []⟩,
            stack := fun _ _ => 0 },
   idle (pc + 4) .plain]

def callSettings : CkptSettings := { ctrls := [⟨0, 2, 0⟩] }

/-- The ticks of the run: none of them is a call except the third, and all are below `2 ^ 63`. -/
theorem callRun_ticks {pc : Nat} {t : Tick} (h : t ∈ (callRun pc).flatMap Step.ticks) :
    (∀ noted, t.Notes noted → noted = 0x1000 ∨ noted = 0x2000 ∨ noted = pc + 4) ∧
    (t.isSyscall = true → t.pc = pc ∧ t.isCompressed = false) := by
  simp only [callRun, idle, Step.ticks, Shape.microops, Instr.microTicks, List.map_nil,
    List.nil_append, List.flatMap_cons, List.flatMap_nil, List.cons_append, List.mem_cons,
    List.not_mem_nil, or_false] at h
  rcases h with rfl | rfl | rfl | rfl <;>
    simp [Tick.Notes, Instr.tick, Ecall.tick]

theorem callRun_pcs {pc : Nat} (hPc : pc < 2 ^ 62) :
    ∀ t ∈ (callRun pc).flatMap Step.ticks, ∀ noted, t.Notes noted → noted < 2 ^ 63 := by
  intro t ht noted hNotes
  have hNoted := (callRun_ticks ht).1 noted hNotes
  omega

/-- A call in the middle of the page of the jump is covered. -/
theorem text_covered_call :
    ∃ info window, (info, window) ∈ savedWindows callSettings
      ((callRun 0x2004).flatMap Step.ticks) ∧
      (∃ t ∈ window, t.isSyscall = true) ∧
      ∀ t ∈ window, t.Executes → ∀ b, t.Byte b → ∃ r ∈ info.textrange, r.Holds b := by
  obtain ⟨hSaved, hCovered⟩ := @text_covered_iff callSettings rfl (callRun 0x2004)
    (callRun_pcs (by decide))
  have hSome : (savedWindows callSettings ((callRun 0x2004).flatMap Step.ticks)).map
      (fun p => p.2.map fun t => (t.pc, t.fault, t.isSyscall)) =
      [[(0x2000, false, false), (0x2004, true, true), (0x2008, false, false)]] := by decide +kernel
  obtain ⟨⟨info, window⟩, hMem, hTicks⟩ := List.mem_map.mp
    (hSome ▸ List.mem_singleton_self _ : _ ∈ List.map _ _)
  have hCall : ∃ t ∈ window, (t.pc, t.fault, t.isSyscall) = (0x2004, true, true) :=
    List.mem_map.mp (hTicks ▸ List.mem_cons_of_mem _ (List.mem_cons_self ..))
  have hJump : ∃ t ∈ window, (t.pc, t.fault, t.isSyscall) = (0x2000, false, false) :=
    List.mem_map.mp (hTicks ▸ List.mem_cons_self ..)
  obtain ⟨call, hCallMem, hCall⟩ := hCall
  obtain ⟨jump, hJumpMem, hJump⟩ := hJump
  simp only [Prod.mk.injEq] at hCall hJump
  obtain ⟨hWindow, hIff⟩ := hCovered info window hMem
  refine ⟨info, window, hMem, ⟨call, hCallMem, hCall.2.2⟩, hIff.mpr ?_⟩
  intro t ht hSyscall b hb
  have hPc := (callRun_ticks (hWindow.subset ht)).2 hSyscall
  refine ⟨jump, hJumpMem, 0x2000, Or.inr ⟨hJump.2.1, hJump.1.symm⟩, ?_⟩
  simp only [Tick.Byte, hPc, Bool.false_eq_true, if_false] at hb
  simp only [SharesPage, pageOf]
  omega

/-- A call in the last word of a page of its own is recorded, but its page is not saved. -/
theorem text_misses_call :
    ∃ info window, (info, window) ∈ savedWindows callSettings
      ((callRun 0x3ffc).flatMap Step.ticks) ∧
      (∃ call ∈ info.sysinfos, call.pc = 0x3ffc) ∧
      (∃ t ∈ window, t.Executes ∧ t.Byte 0x3ffc) ∧ ¬ ∃ r ∈ info.textrange, r.Holds 0x3ffc := by
  have hSome : (savedWindows callSettings ((callRun 0x3ffc).flatMap Step.ticks)).map
      (fun p => (p.1.textAccess, p.1.sysinfos.map SyscallInfo.pc,
        p.2.map fun t => (t.pc, t.isSyscall, t.isCompressed))) =
      [({0x2000, 0x4000}, [0x3ffc],
        [(0x2000, false, false), (0x3ffc, true, false), (0x4000, false, false)])] := by
    decide +kernel
  obtain ⟨⟨info, window⟩, hMem, hInfo⟩ := List.mem_map.mp
    (hSome ▸ List.mem_singleton_self _ : _ ∈ List.map _ _)
  simp only [Prod.mk.injEq] at hInfo
  obtain ⟨hAccess, hCalls, hTicks⟩ := hInfo
  have hWindow := @savedWindows_ticks callSettings rfl _ _ hMem
  have hPcs : ∀ t ∈ window, ∀ pc, t.Notes pc → pc < 2 ^ 63 := fun t ht =>
    callRun_pcs (by decide) t (hWindow.subset ht)
  obtain ⟨call, hCall, hTick⟩ : ∃ t ∈ window, (t.pc, t.isSyscall, t.isCompressed) =
      (0x3ffc, true, false) :=
    List.mem_map.mp (hTicks ▸ List.mem_cons_of_mem _ (List.mem_cons_self ..))
  simp only [Prod.mk.injEq] at hTick
  refine ⟨info, window, hMem, ?_, ⟨call, hCall, Or.inr hTick.2.1, ?_⟩, ?_⟩
  · exact List.mem_map.mp (hCalls ▸ List.mem_singleton_self _ : _ ∈ List.map _ _)
  · simp only [Tick.Byte, hTick]
    decide
  · rw [hWindow.holds hPcs, hAccess]
    decide

end RiscvCkpt
