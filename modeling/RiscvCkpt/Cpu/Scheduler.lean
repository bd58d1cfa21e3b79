import RiscvCkpt.Cpu.Run

/-! The schedule of the checkpoints without what they record: which windows are
open, which have been closed and where. Without a checkpoint to re-create from,
the main loop refines this machine. -/
namespace RiscvCkpt

open MachineInt

structure Window where
  start : Nat
  length : Nat
  warmup : Nat
  deriving DecidableEq, Repr

structure Closed where
  window : Window
  simNums : Nat
  exit_pc : Nat
  deriving DecidableEq, Repr

structure Sched where
  numInst : Nat := 0
  preinsts : Finset Nat := ∅
  pending : List Window := []
  ckptidx : Nat := 0
  saved : List Closed := []
  exited : Bool := false

def CkptCtrl.window (ctrl : CkptCtrl) : Window :=
  ⟨ctrl.start, uint64 ((ctrl.stop : Int) - ctrl.start), ctrl.warmup⟩

def Window.over (w : Window) (n : Nat) : Bool := n ≥ (w.start + w.length) % 2 ^ 64

def Window.close (w : Window) (n pc : Nat) : Closed := ⟨w, uint64 ((n : Int) - w.start), pc⟩

/-- What the schedule sees of a tick. -/
inductive Move where
  | ecall
  | fault
  | commit (pc : Nat) (isCompressed counts : Bool)
  deriving DecidableEq, Repr

namespace Sched

/-- Open the window of the next entry if its number has come. -/
def start (ctrls : List CkptCtrl) (n : Nat) (s : Sched) : Sched :=
  match ctrls[s.ckptidx]? with
  | none => s
  | some ctrl =>
      if n = ctrl.start then
        { s with pending := s.pending ++ [ctrl.window], ckptidx := s.ckptidx + 1 }
      else s

def close (ctrls : List CkptCtrl) (n pc : Nat) (s : Sched) : Sched :=
  let left := s.pending.filter fun w => !w.over n
  { s with
    pending := left
    saved := s.saved ++ (s.pending.filter fun w => w.over n).map fun w => w.close n pc
    exited := left = [] ∧ s.ckptidx = ctrls.length }

def firstOver (n : Nat) (s : Sched) : Bool :=
  match s.pending with
  | [] => false
  | w :: _ => w.over n

def finish (strict : Bool) (ctrls : List CkptCtrl) (n pc : Nat) (isCompressed : Bool) (s : Sched) :
    Sched :=
  if s.firstOver n then
    if strict then s.close ctrls n 0
    else if !isCompressed && pc ∉ s.preinsts then s.close ctrls n pc
    else s
  else s

def note (strict : Bool) (pc : Nat) (isCompressed : Bool) (s : Sched) : Sched :=
  if !isCompressed && !strict then { s with preinsts := insert pc s.preinsts } else s

def count (counts : Bool) (s : Sched) : Sched :=
  if counts then { s with numInst := s.numInst + 1 } else s

def commit (strict : Bool) (ctrls : List CkptCtrl) (pc : Nat) (isCompressed counts : Bool)
    (s : Sched) : Sched :=
  let started := (s.count counts).start ctrls s.numInst
  if s.pending ≠ [] then (started.finish strict ctrls s.numInst pc isCompressed).note strict pc
  isCompressed else started

def move (strict : Bool) (ctrls : List CkptCtrl) (s : Sched) (m : Move) : Sched :=
  if s.exited then s
  else
    match m with
    | .ecall => { s with preinsts := ∅ }
    | .fault => s
    | .commit pc isCompressed counts => s.commit strict ctrls pc isCompressed counts

section Fields

variable (strict : Bool) (ctrls : List CkptCtrl) (n pc : Nat)
  (isCompressed counts : Bool) (s : Sched)

/-- Opening a window leaves the rest alone. -/
theorem start_fields :
    (s.start ctrls n).numInst = s.numInst ∧ (s.start ctrls n).preinsts = s.preinsts ∧
      (s.start ctrls n).saved = s.saved ∧ (s.start ctrls n).exited = s.exited := by
  simp only [start]
  split
  · exact ⟨rfl, rfl, rfl, rfl⟩
  · split <;> exact ⟨rfl, rfl, rfl, rfl⟩

/-- The end test closes all windows that are over, or changes nothing. -/
theorem finish_cases :
    s.finish strict ctrls n pc isCompressed = s ∨
      (strict = true ∧ s.finish strict ctrls n pc isCompressed = s.close ctrls n 0) ∨
      (strict = false ∧ isCompressed = false ∧ pc ∉ s.preinsts ∧
        s.finish strict ctrls n pc isCompressed = s.close ctrls n pc) := by
  simp only [finish]
  split
  · split
    · next hStrict => exact Or.inr (Or.inl ⟨hStrict, rfl⟩)
    · next hStrict =>
        split
        · next hExit =>
            simp only [Bool.and_eq_true, Bool.not_eq_true', decide_eq_true_eq] at hExit
            exact Or.inr (Or.inr ⟨Bool.eq_false_iff.mpr hStrict, hExit.1, hExit.2, rfl⟩)
        · exact Or.inl rfl
  · exact Or.inl rfl

/-- The end test moves neither the count nor the cursor, and notes nothing. -/
theorem finish_fields :
    (s.finish strict ctrls n pc isCompressed).numInst = s.numInst ∧
      (s.finish strict ctrls n pc isCompressed).preinsts = s.preinsts ∧
      (s.finish strict ctrls n pc isCompressed).ckptidx = s.ckptidx := by
  rcases s.finish_cases strict ctrls n pc isCompressed with hSame | ⟨-, hClose⟩ | ⟨-, -, -, hClose⟩
  · rw [hSame]
    exact ⟨rfl, rfl, rfl⟩
  · rw [hClose]
    exact ⟨rfl, rfl, rfl⟩
  · rw [hClose]
    exact ⟨rfl, rfl, rfl⟩

theorem note_fields :
    (s.note strict pc isCompressed).numInst = s.numInst ∧
      (s.note strict pc isCompressed).pending = s.pending ∧
      (s.note strict pc isCompressed).ckptidx = s.ckptidx ∧
      (s.note strict pc isCompressed).saved = s.saved ∧
      (s.note strict pc isCompressed).exited = s.exited := by
  simp only [note]
  split <;> exact ⟨rfl, rfl, rfl, rfl, rfl⟩

theorem count_fields :
    (s.count counts).numInst = (if counts then s.numInst + 1 else s.numInst) ∧
      (s.count counts).preinsts = s.preinsts ∧ (s.count counts).pending = s.pending ∧
      (s.count counts).ckptidx = s.ckptidx ∧ (s.count counts).saved = s.saved ∧
      (s.count counts).exited = s.exited := by
  cases counts <;> exact ⟨rfl, rfl, rfl, rfl, rfl, rfl⟩

theorem commit_numInst :
    (s.commit strict ctrls pc isCompressed counts).numInst =
      if counts then s.numInst + 1 else s.numInst := by
  rw [← (s.count_fields counts).1, ← ((s.count counts).start_fields ctrls s.numInst).1]
  simp only [commit]
  split
  · rw [(note_fields ..).1, (finish_fields ..).1]
  · rfl

/-- A commit moves the cursor exactly if the next entry starts at its number. -/
theorem commit_ckptidx :
    (s.commit strict ctrls pc isCompressed counts).ckptidx =
      if ∃ ctrl, ctrls[s.ckptidx]? = some ctrl ∧ s.numInst = ctrl.start then s.ckptidx + 1
      else s.ckptidx := by
  have hStart : ((s.count counts).start ctrls s.numInst).ckptidx =
      if ∃ ctrl, ctrls[s.ckptidx]? = some ctrl ∧ s.numInst = ctrl.start then s.ckptidx + 1
      else s.ckptidx := by
    have hIdx : (s.count counts).ckptidx = s.ckptidx := (s.count_fields counts).2.2.2.1
    simp only [start, hIdx]
    cases ctrls[s.ckptidx]? with
    | none => simp [hIdx]
    | some ctrl => by_cases hNum : s.numInst = ctrl.start <;> simp [hNum, hIdx]
  simp only [commit]
  split
  · rw [(note_fields ..).2.2.1, (finish_fields ..).2.2, hStart]
  · exact hStart

end Fields

/-- An instruction with so many micro-ops before its last one. -/
def inst (strict : Bool) (ctrls : List CkptCtrl) (pc : Nat) (isCompressed : Bool) :
    Nat → Sched → Sched
  | 0, s => s.move strict ctrls (.commit pc isCompressed true)
  | n + 1, s =>
      inst strict ctrls pc isCompressed n (s.move strict ctrls (.commit pc isCompressed false))

end Sched

/-- The effect of a step of the program on the schedule. -/
def Step.moveAll (strict : Bool) (ctrls : List CkptCtrl) (s : Sched) : Step → Sched
  | .instr i => s.inst strict ctrls i.pc i.isCompressed (i.shape.microops.length - 1)
  | .ecall _ => s.move strict ctrls .ecall

def CkptInfo.window (info : CkptInfo) : Window := ⟨info.startnum, info.length, info.warmup⟩

def CkptInfo.closed (info : CkptInfo) : Closed := ⟨info.window, info.simNums, info.exit_pc⟩

/-- The schedule's view of the main loop. -/
def Cpu.sched (cpu : Cpu) : Sched where
  numInst := cpu.numInst
  preinsts := cpu.preinsts
  pending := cpu.pendingCkpts.map CkptInfo.window
  ckptidx := cpu.ckptidx
  saved := cpu.saved.map CkptInfo.closed
  exited := cpu.exited

def Tick.move (t : Tick) : Move :=
  if t.isSyscall then .ecall else if t.fault then .fault else .commit t.pc t.isCompressed t.counts

section Refinement

variable {settings : CkptSettings} {cpu : Cpu} {t : Tick}

theorem CkptInfo.hooks_window (stack : Nat → Nat → UInt8) (info : CkptInfo) (events : List Event) :
    (info.hooks stack events).window = info.window := by
  have hHeader := congrArg CkptInfo.window (info.hooks_header stack events)
  exact hHeader

@[simp] theorem sched_hookAll (stack : Nat → Nat → UInt8) (events : List Event) :
    (cpu.hookAll stack events).sched = cpu.sched := by
  simp only [Cpu.sched, Cpu.hookAll, List.map_map, Function.comp_def, CkptInfo.hooks_window]

/-- A checkpoint is closed if its window is over. -/
theorem detectOver_eq (exist : Nat → UInt8) (info : CkptInfo) (n pc : Nat) :
    info.detectOver exist n pc = if info.window.over n then some (info.close exist n pc)
      else none := by
  simp [CkptInfo.detectOver, Window.over, CkptInfo.window]

theorem sched_countInst (t : Tick) : (cpu.countInst t).sched = cpu.sched.count t.counts := by
  simp only [Cpu.countInst, Sched.count]
  split <;> rfl

/-- The start of a checkpoint opens its window. -/
theorem sched_startCkpt (ctrls : List CkptCtrl) (n : Nat) (t : Tick) :
    (cpu.startCkpt ctrls n t).sched = cpu.sched.start ctrls n := by
  have hIdx : cpu.sched.ckptidx = cpu.ckptidx := rfl
  simp only [Cpu.startCkpt, Cpu.isCkptStart, Sched.start, hIdx]
  cases hCtrl : ctrls[cpu.ckptidx]? with
  | none => rfl
  | some ctrl =>
      by_cases hStart : n = ctrl.start
      · simp only [if_pos hStart, Cpu.addCkpt, Nat.add_sub_cancel,
          List.getD_eq_getElem?_getD, hCtrl, Option.getD_some, Cpu.sched, List.map_append,
          List.map_cons, List.map_nil]
        rw [hStart]
        rfl
      · simp only [if_neg hStart]

/-- `ckpt_detectOver` closes the windows that are over. -/
theorem sched_ckptDetectOver (ctrls : List CkptCtrl) (exist : Nat → UInt8) (n pc : Nat) :
    (cpu.ckptDetectOver ctrls exist n pc).sched = cpu.sched.close ctrls n pc := by
  have hOver : ∀ pending : List CkptInfo,
      (pending.filterMap fun info => info.detectOver exist n pc).map CkptInfo.closed =
        ((pending.map CkptInfo.window).filter fun w => w.over n).map fun w => w.close n pc := by
    intro pending
    induction pending with
    | nil => rfl
    | cons info rest ih =>
        rw [List.filterMap_cons, List.map_cons, List.filter_cons, detectOver_eq]
        by_cases hInfo : info.window.over n
        · rw [if_pos hInfo, if_pos hInfo, List.map_cons, List.map_cons, ih]
          rfl
        · rw [if_neg hInfo, if_neg hInfo, ih]
  have hLeft : ∀ pending : List CkptInfo,
      (pending.filter fun info => (info.detectOver exist n pc).isNone).map CkptInfo.window =
        (pending.map CkptInfo.window).filter fun w => !w.over n := by
    intro pending
    rw [List.filter_map]
    congr 1
    refine List.filter_congr fun info _ => ?_
    rw [detectOver_eq, Function.comp_apply]
    cases info.window.over n <;> rfl
  simp only [Cpu.ckptDetectOver, Cpu.sched, Sched.close, List.map_append, hOver, ← hLeft,
    List.map_eq_nil_iff]

theorem sched_firstOver (n : Nat) : cpu.firstOver n = cpu.sched.firstOver n := by
  cases hPending : cpu.pendingCkpts <;>
    simp [Cpu.firstOver, Sched.firstOver, Cpu.sched, hPending, Window.over, CkptInfo.window]

/-- The end test of a tick is that of the schedule. -/
theorem sched_endCkpt (n : Nat) (hSyscall : t.isSyscall = false) :
    (cpu.endCkpt settings n t).sched =
      (cpu.sched.finish settings.strictLength settings.ctrls n t.pc t.isCompressed).note
        settings.strictLength t.pc t.isCompressed := by
  have hNote : ∀ cpu : Cpu, (if !t.isCompressed && !settings.strictLength then
      { cpu with preinsts := insert t.pc cpu.preinsts } else cpu).sched =
      cpu.sched.note settings.strictLength t.pc t.isCompressed := by
    intro cpu
    simp only [Sched.note]
    split <;> rfl
  have hPre : cpu.sched.preinsts = cpu.preinsts := rfl
  simp only [Cpu.endCkpt, hNote, Sched.finish, ← sched_firstOver, hSyscall, Bool.not_false,
    Bool.and_true, hPre, ← sched_ckptDetectOver settings.ctrls (t.stack 0), apply_ite Cpu.sched]

/-- In a direct run, the main loop makes the moves of the schedule. -/
theorem sched_tick (hDirect : settings.readCkpt = none)
    (hFault : t.isSyscall = true → t.fault = true) :
    (tick settings cpu t).sched = cpu.sched.move settings.strictLength settings.ctrls t.move := by
  have hExited : cpu.sched.exited = cpu.exited := rfl
  cases hDone : cpu.exited with
  | true => simp only [tick, Sched.move, hExited, hDone, if_true]
  | false =>
      have hHooked : ∀ (c : Bool) (events : List Event) (cpu : Cpu),
          (if c then cpu.hookAll t.stack events else cpu).sched = cpu.sched := by
        intro c events cpu
        cases c
        · rfl
        · exact sched_hookAll t.stack events
      have hValid : cpu.hasValidCkpt = decide (cpu.sched.pending ≠ []) := by
        simp [Cpu.hasValidCkpt, Cpu.sched]
      rw [tick_eq_directTick hDirect t hDone]
      simp only [Sched.move, hExited, hDone, Bool.false_eq_true, if_false, directTick]
      cases hSyscall : t.isSyscall with
      | true =>
          simp only [if_true, hFault hSyscall, hHooked, Tick.move, hSyscall]
          rfl
      | false =>
          simp only [Bool.false_eq_true, if_false, Tick.move, hSyscall]
          cases hFaulty : t.fault with
          | true => simp only [if_true, hHooked]
          | false =>
              simp only [Bool.false_eq_true, if_false, Sched.commit]
              rw [apply_ite Cpu.sched, sched_endCkpt _ hSyscall, sched_startCkpt, hHooked,
                sched_countInst, hHooked]
              simp only [hValid, decide_eq_true_eq]
              rfl

/-- Ticks move the schedule, each by what it sees of it. -/
theorem sched_ticks (hDirect : settings.readCkpt = none) {ts : List Tick}
    (hFault : ∀ t ∈ ts, t.isSyscall = true → t.fault = true) :
    (ticks settings cpu ts).sched =
      (ts.map Tick.move).foldl (Sched.move settings.strictLength settings.ctrls) cpu.sched := by
  induction ts generalizing cpu with
  | nil => rfl
  | cons t rest ih =>
      rw [ticks, List.foldl_cons, ← ticks, ih fun t ht => hFault t (List.mem_cons_of_mem _ ht),
        sched_tick hDirect (hFault t (List.mem_cons_self ..)), List.map_cons, List.foldl_cons]

theorem move_fault (strict : Bool) (ctrls : List CkptCtrl) (s : Sched) :
    s.move strict ctrls .fault = s := by
  simp only [Sched.move, ite_self]

/-- Attempts that fault leave no trace in the schedule. -/
theorem foldl_faults (strict : Bool) (ctrls : List CkptCtrl) (s : Sched) {ms : List Move}
    (h : ∀ m ∈ ms, m = .fault) : ms.foldl (Sched.move strict ctrls) s = s := by
  induction ms with
  | nil => rfl
  | cons m rest ih =>
      rw [List.foldl_cons, h m (List.mem_cons_self ..), move_fault]
      exact ih fun m hm => h m (List.mem_cons_of_mem _ hm)

theorem microTicks_syscall {i : Instr} {regs : Regs} {ms : List Microop} :
    ∀ t ∈ i.microTicks regs ms, t.isSyscall = false := by
  induction ms generalizing regs with
  | nil => simp [Instr.microTicks]
  | cons m rest ih =>
      intro t ht
      cases m with
      | fence =>
          rcases List.mem_cons.mp ht with rfl | ht
          · rfl
          · exact ih t ht
      | op =>
          rcases List.mem_append.mp ht with ht | ht
          · obtain ⟨events, -, rfl⟩ := List.mem_map.mp ht
            rfl
          · rcases List.mem_cons.mp ht with rfl | ht
            · rfl
            · exact ih t ht

/-- The micro-ops of an instruction, one after the other. -/
theorem microTicks_moves {strict : Bool} {ctrls : List CkptCtrl} {i : Instr} {regs : Regs}
    {ms : List Microop} (hms : ms ≠ []) (s : Sched) :
    ((i.microTicks regs ms).map Tick.move).foldl (Sched.move strict ctrls) s =
      s.inst strict ctrls i.pc i.isCompressed (ms.length - 1) := by
  induction ms generalizing regs s with
  | nil => exact absurd rfl hms
  | cons m rest ih =>
      -- whatever the micro-op is, exactly one of its ticks goes through
      have hFirst : ((i.microTicks regs (m :: rest)).map Tick.move).foldl
          (Sched.move strict ctrls) s =
          ((i.microTicks (if m = .op then i.after else regs) rest).map Tick.move).foldl
            (Sched.move strict ctrls)
            (s.move strict ctrls (.commit i.pc i.isCompressed rest.isEmpty)) := by
        cases m with
        | fence => rfl
        | op =>
            have hFaults : ((i.faults.map fun events => i.tick rest.isEmpty true events regs).map
                Tick.move).foldl (Sched.move strict ctrls) s = s := by
              refine foldl_faults strict ctrls s fun m hm => ?_
              rw [List.map_map] at hm
              obtain ⟨events, -, rfl⟩ := List.mem_map.mp hm
              rfl
            rw [Instr.microTicks, List.map_append, List.foldl_append, hFaults]
            rfl
      rw [hFirst]
      cases rest with
      | nil => rfl
      | cons next rest => exact ih (List.cons_ne_nil _ _) _

/-- A step of the program moves the schedule as a whole. -/
theorem sched_step (hDirect : settings.readCkpt = none) (step : Step) :
    (ticks settings cpu step.ticks).sched =
      step.moveAll settings.strictLength settings.ctrls cpu.sched := by
  cases step with
  | instr i =>
      have hFault : ∀ t ∈ (Step.instr i).ticks, t.isSyscall = true → t.fault = true := by
        intro t ht hSyscall
        rw [microTicks_syscall t ht] at hSyscall
        exact absurd hSyscall (by decide)
      rw [sched_ticks hDirect hFault]
      exact microTicks_moves i.shape.microops_ne_nil _
  | ecall e =>
      have hAll : ∀ t ∈ (Step.ecall e).ticks, t.isSyscall = true ∧ t.fault = true := by
        intro t ht
        rcases List.mem_append.mp ht with ht | ht
        · obtain ⟨events, -, rfl⟩ := List.mem_map.mp ht
          exact ⟨rfl, rfl⟩
        · obtain rfl := List.mem_singleton.mp ht
          exact ⟨rfl, rfl⟩
      rw [sched_ticks hDirect fun t ht _ => (hAll t ht).2]
      -- clearing again changes nothing
      have hRetries : ∀ (retries : List (List Event)) (s : Sched),
          ((retries.map e.tick ++ [e.tick e.events]).map Tick.move).foldl
            (Sched.move settings.strictLength settings.ctrls) s =
            s.move settings.strictLength settings.ctrls .ecall := by
        intro retries
        induction retries with
        | nil => exact fun s => rfl
        | cons events rest ih =>
            intro s
            have hTwice : ∀ s : Sched, (s.move settings.strictLength settings.ctrls .ecall).move
                settings.strictLength settings.ctrls .ecall =
                s.move settings.strictLength settings.ctrls .ecall := by
              intro s
              by_cases hExited : s.exited = true <;> simp [Sched.move, hExited]
            rw [List.map_cons, List.cons_append, List.map_cons, List.foldl_cons, ih]
            exact hTwice s
      exact hRetries e.retries cpu.sched

/-- A direct run of the main loop is a run of the schedule. -/
theorem sched_runSteps (hDirect : settings.readCkpt = none) (run : List Step) :
    (runSteps settings cpu run).sched =
      run.foldl (fun s step => step.moveAll settings.strictLength settings.ctrls s) cpu.sched := by
  induction run generalizing cpu with
  | nil => rfl
  | cons step rest ih => rw [runSteps_cons, ih, sched_step hDirect, List.foldl_cons]

end Refinement

end RiscvCkpt
