import Mathlib.Data.List.Induction
import Mathlib.Data.List.Sort
import RiscvCkpt.Cpu.TraceCollect

/-! What a trace says about the run it was taken from: which branches were taken and where
control went, and which instructions the file of a trace interval contains. -/
namespace RiscvCkpt

/-- How an executed instruction leaves the program counter. `uret` sets the next pc without
the flags of a branch, and all micro-ops of an instruction but the last stay at it. -/
inductive Flow
  | fall
  | cond (offset : UInt64) (taken : Bool)
  | jump (target : UInt64)
  | ret (target : UInt64)
  | micro
  deriving DecidableEq, Repr

def Flow.isCond : Flow → Bool
  | .cond .. => true
  | _ => false

def Flow.isJump : Flow → Bool
  | .jump _ => true
  | _ => false

/-- `nextInstAddr` behind an instruction. The decoder sets it to the address behind the
instruction, a taken branch and a jump to their targets. -/
def Flow.npc (flow : Flow) (pc size : UInt64) : UInt64 :=
  match flow with
  | .fall | .micro => pc + size
  | .cond offset taken => if taken then pc + offset else pc + size
  | .jump target | .ret target => target

def Flow.next (flow : Flow) (pc size : UInt64) : UInt64 :=
  match flow with
  | .micro => pc
  | _ => flow.npc pc size

def instSize (isCompressed : Bool) : UInt64 := if isCompressed then 2 else 4

/-- An executed instruction with its size and its effect on the program counter. Branches and
jumps are flagged as the ISA description says. -/
structure Executed where
  step : TraceStep
  isCompressed : Bool
  flow : Flow
  isCondCtrl : step.inst.operation.isCondCtrl = flow.isCond
  isUncondCtrl : step.inst.operation.isUncondCtrl = flow.isJump
  npc : step.npc = flow.npc step.pc (instSize isCompressed)

namespace Executed

def size (e : Executed) : UInt64 := instSize e.isCompressed

def next (e : Executed) : UInt64 := e.flow.next e.step.pc e.size

/-- The record tells whether the branch went elsewhere than to the instruction behind it, and
where. -/
def OutcomeRight (e : Executed) : Prop :=
  ((recordTraces e.step).istaken ≠ 0 ↔ e.next ≠ e.step.pc + e.size) ∧
    ((recordTraces e.step).istaken ≠ 0 → (recordTraces e.step).target = e.next)

/-- The pc of the next record as it follows from this one and the size of the instruction. -/
def followingPc (e : Executed) : UInt64 :=
  if (recordTraces e.step).istaken ≠ 0 then (recordTraces e.step).target
  else (recordTraces e.step).pc + e.size

/-- A taken branch of four bytes over two bytes, or of two bytes over four. -/
def SkipsOther (e : Executed) : Prop := e.flow = .cond (6 - e.size) true

/-- An instruction as a whole, which sets the pc as a branch or not at all. -/
def Plain (e : Executed) : Prop :=
  e.flow ≠ .micro ∧ ∀ target, e.flow = .ret target → target = e.step.pc + e.size

end Executed

def Consecutive (run : List Executed) : Prop := run.IsChain fun a b => b.step.pc = a.next

/-- Every branch of the run is recorded right, and the pc of every record follows from the
record before it. -/
structure OutcomesRight (run : List Executed) : Prop where
  branches : ∀ e ∈ run, e.flow.isCond = true → e.OutcomeRight
  pcs : run.IsChain fun a b => (recordTraces b.step).pc = a.followingPc

section Branches

variable (e : Executed)

/-- A jump counts as taken, a conditional branch unless the next pc is two or four bytes ahead. -/
theorem Executed.istaken_eq :
    (recordTraces e.step).istaken =
      if e.flow.isCond then (if e.step.npc = e.step.pc + 2 ∨ e.step.npc = e.step.pc + 4 then 0
      else 1) else if e.flow.isJump then 1 else 0 := by
  rw [← e.isCondCtrl, ← e.isUncondCtrl]
  rfl

/-- The two candidates for the address behind a branch are that of its own size and that of the
other one, and they differ. -/
theorem Executed.istaken_cond (hCond : e.flow.isCond = true) :
    (recordTraces e.step).istaken = 0 ↔
      e.step.npc = e.step.pc + e.size ∨ e.step.npc = e.step.pc + (6 - e.size) := by
  have hEither : e.step.npc = e.step.pc + 2 ∨ e.step.npc = e.step.pc + 4 ↔
      e.step.npc = e.step.pc + e.size ∨ e.step.npc = e.step.pc + (6 - e.size) := by
    rw [size]
    cases e.isCompressed with
    | true => exact Iff.rfl
    | false => exact or_comm
  rw [e.istaken_eq, hCond, if_pos rfl, ← hEither]
  split
  · next hBehind => exact iff_of_true rfl hBehind
  · next hElse => exact iff_of_false (by decide) hElse

theorem Executed.sizes_differ : e.step.pc + e.size ≠ e.step.pc + (6 - e.size) := by
  rw [ne_eq, UInt64.add_right_inj, size]
  cases e.isCompressed <;> decide

theorem Executed.next_eq_npc (hWhole : e.flow ≠ .micro) : e.next = e.step.npc := by
  rw [e.npc, next, size]
  cases hFlow : e.flow with
  | micro => exact absurd hFlow hWhole
  | _ => rfl

/-- A branch skips the other size if its next pc is where an instruction of that size would end. -/
theorem Executed.skipsOther_iff :
    e.SkipsOther ↔ e.flow.isCond = true ∧ e.step.npc = e.step.pc + (6 - e.size) := by
  have hSizes := e.sizes_differ
  have hNpc := e.npc
  rw [SkipsOther]
  cases hFlow : e.flow with
  | cond offset taken =>
      rw [hFlow] at hNpc
      cases taken with
      | true => simp [hNpc, Flow.npc, Flow.isCond]
      | false =>
          refine iff_of_false (fun h => absurd (Flow.cond.inj h).2 Bool.false_ne_true) fun h =>
            hSizes ?_
          exact hNpc.symm.trans h.2
  | _ => simp [Flow.isCond]

/-- A branch is recorded wrong exactly if it goes where a branch of the other size would fall
through to. -/
theorem Executed.outcomeRight_iff (hCond : e.flow.isCond = true) :
    e.OutcomeRight ↔ ¬ e.SkipsOther := by
  have hWhole : e.flow ≠ .micro := by
    intro hFlow
    rw [hFlow] at hCond
    exact absurd hCond (by decide)
  have hTarget : (recordTraces e.step).target = e.step.npc := rfl
  have hSizes := e.sizes_differ
  rw [OutcomeRight, e.skipsOther_iff, ne_eq, e.istaken_cond hCond, e.next_eq_npc hWhole, hTarget]
  constructor
  · rintro ⟨hTaken, -⟩ ⟨-, hOther⟩
    refine hTaken.mpr ?_ (Or.inr hOther)
    rw [hOther]
    exact hSizes.symm
  · intro hElse
    have hOther : ¬ e.step.npc = e.step.pc + (6 - e.size) := fun h => hElse ⟨hCond, h⟩
    exact ⟨not_congr (or_iff_left hOther), fun _ => rfl⟩

/-- The pc of the next record follows exactly from a branch that is recorded right and from any
other plain instruction. -/
theorem Executed.followingPc_iff : e.next = e.followingPc ↔ ¬ e.SkipsOther ∧ e.Plain := by
  have hPc : (recordTraces e.step).pc = e.step.pc := rfl
  have hTarget : (recordTraces e.step).target = e.step.npc := rfl
  rw [followingPc, Plain, hPc, hTarget]
  by_cases hCond : e.flow.isCond = true
  · have hWhole : e.flow ≠ .micro ∧ ∀ target, e.flow = .ret target →
        target = e.step.pc + e.size := by
      constructor
      · intro hFlow
        rw [hFlow] at hCond
        exact absurd hCond (by decide)
      · intro target hFlow
        rw [hFlow] at hCond
        exact absurd hCond Bool.false_ne_true
    have hSizes := e.sizes_differ
    rw [and_iff_left hWhole, e.skipsOther_iff, e.next_eq_npc hWhole.1]
    split
    · next hTaken =>
        exact iff_of_true rfl fun h => hTaken ((e.istaken_cond hCond).mpr (Or.inr h.2))
    · next hFall =>
        have hEither := (e.istaken_cond hCond).mp (not_not.mp hFall)
        constructor
        · rintro hBehind ⟨-, hOther⟩
          exact hSizes (hBehind.symm.trans hOther)
        · intro hElse
          exact hEither.resolve_right fun h => hElse ⟨hCond, h⟩
  · have hElse : ¬ e.SkipsOther := fun h => hCond (e.skipsOther_iff.mp h).1
    have hNpc := e.npc
    rw [and_iff_right hElse, e.istaken_eq, if_neg hCond, next]
    cases hFlow : e.flow with
    | cond offset taken => exact absurd (by rw [hFlow]; rfl) hCond
    | jump target =>
        rw [hFlow] at hNpc
        simp [Flow.isJump, Flow.next, hNpc, Flow.npc]
    | fall => simp [Flow.isJump, Flow.next, Flow.npc]
    | ret target => simp [Flow.isJump, Flow.next, Flow.npc]
    | micro =>
        have hMoves : e.step.pc ≠ e.step.pc + e.size := by
          rw [size]
          cases e.isCompressed <;> simp [instSize]
        simpa [Flow.isJump, Flow.next] using hMoves

end Branches

/-- In a run of consecutive instructions all but the last one have a record behind them. -/
theorem pcs_follow_iff {run : List Executed} (hRun : Consecutive run) :
    (run.IsChain fun a b => (recordTraces b.step).pc = a.followingPc) ↔
      ∀ e ∈ run.dropLast, e.next = e.followingPc := by
  induction run with
  | nil => simp
  | cons first rest ih =>
      cases rest with
      | nil => simp
      | cons second others =>
          obtain ⟨hNext, hRest⟩ := List.isChain_cons_cons.mp hRun
          have hPc : (recordTraces second.step).pc = first.next := hNext
          rw [List.isChain_cons_cons, ih hRest, hPc, List.dropLast_cons_cons, List.forall_mem_cons]

/-- The trace of consecutive instructions tells every branch outcome and every next pc if and
only if no taken branch skips just what makes it look like a branch of the other size that falls
through, and all instructions but the last are plain: recorded as a whole and not a `uret` that
goes elsewhere. -/
theorem outcomes_recorded_iff (run : List Executed) (hRun : Consecutive run) :
    OutcomesRight run ↔ (∀ e ∈ run, ¬ e.SkipsOther) ∧ ∀ e ∈ run.dropLast, e.Plain := by
  constructor
  · rintro ⟨hBranches, hPcs⟩
    have hFollow := (pcs_follow_iff hRun).mp hPcs
    refine ⟨fun e hMem hSkips => ?_, fun e hMem => ((e.followingPc_iff).mp (hFollow e hMem)).2⟩
    have hCond := (e.skipsOther_iff.mp hSkips).1
    exact (e.outcomeRight_iff hCond).mp (hBranches e hMem hCond) hSkips
  · rintro ⟨hSkips, hPlain⟩
    refine ⟨fun e hMem hCond => (e.outcomeRight_iff hCond).mpr (hSkips e hMem), ?_⟩
    refine (pcs_follow_iff hRun).mpr fun e hMem => e.followingPc_iff.mpr ⟨?_, hPlain e hMem⟩
    exact hSkips e ((List.dropLast_sublist run).subset hMem)

def condFlags : InstFlags where
  isCondCtrl := true
  isDirectCtrl := true
  branch _ := rfl
  uncond h := absurd h Bool.false_ne_true

def sampleStep (flags : InstFlags) (pc npc : UInt64) : TraceStep where
  inst := ⟨flags, [], []⟩
  pc := pc
  npc := npc
  readIntReg _ := 0
  readFloatReg _ := 0
  memInfo := (0, 0)
  stack := ⟨0, 0, 0, 0, 0, 0, 0, [], [], []⟩

def takenBranch (pc : UInt64) (isCompressed : Bool) (offset : UInt64) : Executed where
  step := sampleStep condFlags pc (pc + offset)
  isCompressed := isCompressed
  flow := .cond offset true
  isCondCtrl := rfl
  isUncondCtrl := rfl
  npc := rfl

def fallsThrough (pc : UInt64) (isCompressed : Bool) : Executed where
  step := sampleStep aluFlags pc (pc + instSize isCompressed)
  isCompressed := isCompressed
  flow := .fall
  isCondCtrl := rfl
  isUncondCtrl := rfl
  npc := rfl

/-- A branch over more than one instruction. -/
theorem outcomes_recorded_far :
    Consecutive [takenBranch 0x10000 true 8, fallsThrough 0x10008 false] ∧
      OutcomesRight [takenBranch 0x10000 true 8, fallsThrough 0x10008 false] := by
  have hRun : Consecutive [takenBranch 0x10000 true 8, fallsThrough 0x10008 false] :=
    List.isChain_cons_cons.mpr ⟨by decide, List.IsChain.singleton _⟩
  refine ⟨hRun, (outcomes_recorded_iff _ hRun).mpr ⟨?_, ?_⟩⟩
  · simp [Executed.SkipsOther, takenBranch, fallsThrough, Executed.size, instSize]
  · simp [Executed.Plain, takenBranch]

/-- `c.beqz` over one compressed instruction is recorded as not taken. -/
theorem short_branch_lost :
    Consecutive [takenBranch 0x10000 true 4, fallsThrough 0x10004 false] ∧
      (takenBranch 0x10000 true 4).next = 0x10004 ∧
      (recordTraces (takenBranch 0x10000 true 4).step).istaken = 0 ∧
      (takenBranch 0x10000 true 4).followingPc = 0x10002 ∧
      ¬ OutcomesRight [takenBranch 0x10000 true 4, fallsThrough 0x10004 false] := by
  refine ⟨List.isChain_cons_cons.mpr ⟨by decide, List.IsChain.singleton _⟩, by decide, by decide,
    by decide, fun h => ?_⟩
  have hBranch := h.branches (takenBranch 0x10000 true 4) (List.mem_cons_self ..) rfl
  exact absurd (hBranch.1.mpr (by decide)) (by decide)

/-- A trace interval; `stop` is the source's `end`. -/
structure TraceCtrl where
  start : Nat
  stop : Nat
  deriving DecidableEq, Repr

/-- The three numbers of a `tracectrl` line: start, length and number of intervals. -/
structure TraceLine where
  v1 : Nat
  v2 : Nat
  v3 : Nat
  deriving DecidableEq, Repr

def TraceLine.ctrls (line : TraceLine) : List TraceCtrl :=
  (List.range line.v3).map fun i =>
    let start := (line.v1 + line.v2 * i) % 2 ^ 64
    ⟨start, (start + line.v2) % 2 ^ 64⟩

structure TraceSettings where
  minpc : UInt64 := 0
  maxpc : UInt64 := 0x9F0000000
  tracectrls : List TraceCtrl

/-- `init_trace_settings` sorts the intervals by their starts. -/
def sortTraceCtrls (tracectrls : List TraceCtrl) : List TraceCtrl :=
  tracectrls.insertionSort fun a b => a.start ≤ b.start

def TraceSettings.inRange (settings : TraceSettings) (step : TraceStep) : Bool :=
  step.pc ≥ settings.minpc ∧ step.pc ≤ settings.maxpc

/-- A trace file with the interval it was opened for, and what was written to it before and
after it was closed. -/
structure TraceLog where
  ctrl : TraceCtrl
  records : List TraceInfo := []
  closed : Bool := false
  stray : List TraceInfo := []
  deriving DecidableEq, Repr

/-- The variables of the trace collector. `former` are the files that `logfp` has pointed to. -/
structure TraceState where
  exeInstNum : Nat := 0
  ctrlidx : Nat := 0
  logfp : Option TraceLog := none
  former : List TraceLog := []
  traceOpen : Bool := true
  exited : Bool := false

namespace TraceState

def logs (state : TraceState) : List TraceLog := state.former ++ state.logfp.toList

/-- The file of an interval is opened at its start. -/
def atStart (ctrl : TraceCtrl) (opens : Bool) (state : TraceState) : TraceState :=
  if state.exeInstNum = ctrl.start then
    { state with
      former := state.logs
      logfp := if opens then some { ctrl := ctrl } else none
      traceOpen := state.traceOpen && opens }
  else state

/-- At the end of an interval the file is closed and the next interval is due. The pointer
keeps its value, and the simulator exits behind the last interval. -/
def atEnd (ctrl : TraceCtrl) (count : Nat) (state : TraceState) : TraceState :=
  if state.exeInstNum = ctrl.stop - 1 then
    { state with
      logfp := state.logfp.map fun log => { log with closed := true }
      ctrlidx := state.ctrlidx + 1
      exited := state.ctrlidx + 1 = count }
  else state

/-- `save_traceinfo`, as far as the file is concerned. -/
def write (info : TraceInfo) (state : TraceState) : TraceState :=
  { state with
    logfp := state.logfp.map fun log =>
      if log.closed then { log with stray := log.stray ++ [info] }
      else { log with records := log.records ++ [info] } }

end TraceState

section Collector

variable (settings : TraceSettings) (canOpen : Nat → Bool)

/-- `tracectrls[ctrlidx]`; the index is valid as long as the simulator runs. -/
def TraceSettings.ctrlAt (ctrlidx : Nat) : TraceCtrl := settings.tracectrls.getD ctrlidx ⟨0, 0⟩

/-- `need_record`. `canOpen` tells whether `fopen` succeeds for an interval. -/
def needRecord (step : TraceStep) (state : TraceState) : TraceState × Bool :=
  if settings.inRange step then
    let ctrl := settings.ctrlAt state.ctrlidx
    let ended := (state.atStart ctrl (canOpen state.ctrlidx)).atEnd ctrl settings.tracectrls.length
    if ended.exited then (ended, false)
    else
      let ctrl := settings.ctrlAt ended.ctrlidx
      ({ ended with exeInstNum := ended.exeInstNum + 1 },
        decide (ended.exeInstNum ≥ ctrl.start ∧ ended.exeInstNum < ctrl.stop))
  else (state, false)

/-- What an executed instruction does to the traces. -/
def traceTick (state : TraceState) (step : TraceStep) : TraceState :=
  if state.exited || !state.traceOpen then state
  else
    let needed := needRecord settings canOpen step state
    if needed.2 then needed.1.write (recordTraces step) else needed.1

def traceRun (steps : List TraceStep) : TraceState := steps.foldl (traceTick settings canOpen) {}

/-- Every closed file has one record for each instruction whose index lies in its interval, in
order, and nothing is written to a closed file. -/
def TracesExact (steps : List TraceStep) : Prop :=
  ∀ log ∈ (traceRun settings canOpen steps).logs,
    (log.closed = true → log.records = (((steps.filter settings.inRange).drop log.ctrl.start).take
      (log.ctrl.stop - log.ctrl.start)).map recordTraces) ∧
    log.stray = []

end Collector

section Intervals

variable {settings : TraceSettings} {canOpen : Nat → Bool} {first : TraceCtrl}

theorem traceRun_append (steps : List TraceStep) (step : TraceStep) :
    traceRun settings canOpen (steps ++ [step]) =
      traceTick settings canOpen (traceRun settings canOpen steps) step := by
  rw [traceRun, List.foldl_append]
  rfl

/-- An instruction without an index leaves the traces alone. -/
theorem traceTick_outside {state : TraceState} {step : TraceStep}
    (hOut : settings.inRange step = false) :
    traceTick settings canOpen state step = state := by
  simp [traceTick, needRecord, hOut]

/-- The collector before the first interval is over, with the instructions seen so far. -/
def beforeClose (first : TraceCtrl) (seen : List TraceStep) : TraceState where
  exeInstNum := seen.length
  logfp := if first.start < seen.length then
      some { ctrl := first, records := (seen.drop first.start).map recordTraces }
    else none

/-- The same with the file open, if the next instruction belongs to the interval. -/
def filling (first : TraceCtrl) (seen : List TraceStep) : TraceState where
  exeInstNum := seen.length
  logfp := if first.start ≤ seen.length then
      some { ctrl := first, records := (seen.drop first.start).map recordTraces }
    else none

theorem atStart_beforeClose (first : TraceCtrl) (seen : List TraceStep) :
    (beforeClose first seen).atStart first true = filling first seen := by
  rw [TraceState.atStart, filling, beforeClose]
  rcases Nat.lt_trichotomy seen.length first.start with hLt | hEq | hGt
  · simp only [if_neg hLt.ne, if_neg hLt.not_gt, if_neg (Nat.not_le.mpr hLt)]
  · have hNone : seen.drop first.start = [] := List.drop_eq_nil_of_le hEq.le
    simp only [if_pos hEq, if_neg hEq.le.not_gt, if_pos hEq.ge, hNone, TraceState.logs]
    rfl
  · simp only [if_neg hGt.ne', if_pos hGt, if_pos hGt.le]

theorem write_filling {first : TraceCtrl} {seen : List TraceStep} (hIn : first.start ≤ seen.length)
    (step : TraceStep) :
    TraceState.write (recordTraces step) { filling first seen with exeInstNum := seen.length + 1 } =
      beforeClose first (seen ++ [step]) := by
  rw [TraceState.write, filling, beforeClose, if_pos hIn, List.length_append, List.length_singleton,
    if_pos (Nat.lt_succ_of_le hIn), List.drop_append_of_le_length hIn, List.map_append]
  rfl

theorem ctrlAt_zero (hFirst : settings.tracectrls.head? = some first) :
    settings.ctrlAt 0 = first := by
  rw [TraceSettings.ctrlAt, List.getD_eq_getElem?_getD, ← List.head?_eq_getElem?, hFirst,
    Option.getD_some]

/-- Up to the last instruction of the first interval its file fills up. -/
theorem traceTick_beforeClose (hFirst : settings.tracectrls.head? = some first)
    (hOpen : canOpen 0 = true)
    {seen : List TraceStep} {step : TraceStep} (hIn : settings.inRange step = true)
    (hSeen : seen.length + 1 < first.stop) :
    traceTick settings canOpen (beforeClose first seen) step = beforeClose first
      (seen ++ [step]) := by
  have hNotEnd : (filling first seen).atEnd first settings.tracectrls.length = filling first seen :=
    if_neg (show ¬ seen.length = first.stop - 1 by omega)
  have hNeeded : needRecord settings canOpen step (beforeClose first seen) =
      ({ filling first seen with exeInstNum := seen.length + 1 },
        decide (seen.length ≥ first.start ∧ seen.length < first.stop)) := by
    rw [needRecord, if_pos hIn]
    simp only [show (beforeClose first seen).ctrlidx = 0 from rfl, ctrlAt_zero hFirst, hOpen,
      atStart_beforeClose, hNotEnd]
    have hRuns : ¬ (filling first seen).exited = true := Bool.false_ne_true
    rw [if_neg hRuns, show (filling first seen).ctrlidx = 0 from rfl, ctrlAt_zero hFirst]
    rfl
  have hRuns : ¬ ((beforeClose first seen).exited || !(beforeClose first seen).traceOpen) = true :=
    Bool.false_ne_true
  rw [traceTick, if_neg hRuns, hNeeded]
  simp only [decide_eq_true_eq]
  split
  · next hInterval => exact write_filling hInterval.1 step
  · next hEarly =>
      have hLt : ¬ first.start ≤ seen.length := fun h => hEarly ⟨h, by omega⟩
      rw [filling, beforeClose, if_neg hLt, List.length_append, List.length_singleton,
        if_neg (by omega)]

def ClosedWith (ctrl : TraceCtrl) (records : List TraceInfo) (state : TraceState) : Prop :=
  ∃ log ∈ state.logs, log.closed = true ∧ log.ctrl = ctrl ∧ log.records = records

section Closing

variable {ctrl : TraceCtrl} {records : List TraceInfo} {state : TraceState}

/-- A file that is closed stays closed when another one is opened. -/
theorem ClosedWith.atStart (h : ClosedWith ctrl records state) (next : TraceCtrl) (opens : Bool) :
    ClosedWith ctrl records (state.atStart next opens) := by
  obtain ⟨log, hLog, hClosed⟩ := h
  rw [TraceState.atStart]
  split
  · exact ⟨log, List.mem_append_left _ hLog, hClosed⟩
  · exact ⟨log, hLog, hClosed⟩

/-- What happens to the file that `logfp` points to happens to one file only. -/
theorem ClosedWith.logfp (h : ClosedWith ctrl records state) {change : TraceLog → TraceLog}
    (hChange : ∀ log, log.closed = true →
      (change log).closed = true ∧ (change log).ctrl = log.ctrl ∧
        (change log).records = log.records)
    {next : TraceState} (hFormer : next.former = state.former)
    (hLogfp : next.logfp = state.logfp.map change) :
    ClosedWith ctrl records next := by
  obtain ⟨log, hLog, hClosed, hCtrl, hRecords⟩ := h
  rw [TraceState.logs, List.mem_append, Option.mem_toList] at hLog
  rcases hLog with hLog | hLog
  · refine ⟨log, ?_, hClosed, hCtrl, hRecords⟩
    rw [TraceState.logs, hFormer]
    exact List.mem_append_left _ hLog
  · obtain ⟨hClosed', hCtrl', hRecords'⟩ := hChange log hClosed
    refine ⟨change log, ?_, hClosed', hCtrl'.trans hCtrl, hRecords'.trans hRecords⟩
    rw [TraceState.logs, hLogfp, List.mem_append, Option.mem_toList]
    exact Or.inr (Option.mem_map_of_mem change hLog)

theorem ClosedWith.atEnd (h : ClosedWith ctrl records state) (next : TraceCtrl) (count : Nat) :
    ClosedWith ctrl records (state.atEnd next count) := by
  rw [TraceState.atEnd]
  split
  · exact @ClosedWith.logfp _ _ _ h (fun log => { log with closed := true })
      (fun _ _ => ⟨rfl, rfl, rfl⟩) _
      rfl rfl
  · exact h

/-- A record is not written to a file that is closed. -/
theorem ClosedWith.write (h : ClosedWith ctrl records state) (info : TraceInfo) :
    ClosedWith ctrl records (state.write info) := by
  refine h.logfp (fun log hClosed => ?_) rfl rfl
  rw [if_pos hClosed]
  exact ⟨hClosed, rfl, rfl⟩

/-- A closed file keeps its records. -/
theorem ClosedWith.tick (h : ClosedWith ctrl records state) (step : TraceStep) :
    ClosedWith ctrl records (traceTick settings canOpen state step) := by
  have hNeeded : ClosedWith ctrl records (needRecord settings canOpen step state).1 := by
    rw [needRecord]
    split
    · have hEnded := (h.atStart (settings.ctrlAt state.ctrlidx) (canOpen state.ctrlidx)).atEnd
        (settings.ctrlAt state.ctrlidx) settings.tracectrls.length
      simp only
      split
      · exact hEnded
      · exact hEnded
    · exact h
  rw [traceTick]
  split
  · exact h
  · simp only
    split
    · exact hNeeded.write _
    · exact hNeeded

end Closing

/-- The last instruction of the first interval closes the file before it is recorded. -/
theorem traceTick_closes (hFirst : settings.tracectrls.head? = some first)
    (hOpen : canOpen 0 = true)
    (hLong : first.start < first.stop) {seen : List TraceStep} {step : TraceStep}
    (hIn : settings.inRange step = true) (hSeen : seen.length + 1 = first.stop) :
    ClosedWith first ((seen.drop first.start).map recordTraces)
      (traceTick settings canOpen (beforeClose first seen) step) := by
  have hEnded : ClosedWith first ((seen.drop first.start).map recordTraces)
      ((filling first seen).atEnd first settings.tracectrls.length) := by
    have hStarted : first.start ≤ seen.length := by omega
    have hLast : (filling first seen).exeInstNum = first.stop - 1 := by
      rw [← hSeen]
      rfl
    rw [TraceState.atEnd, if_pos hLast]
    refine ⟨{ ctrl := first, records := (seen.drop first.start).map recordTraces, closed := true },
      ?_, rfl, rfl, rfl⟩
    simp [TraceState.logs, filling, hStarted]
  have hNeeded : ClosedWith first ((seen.drop first.start).map recordTraces)
      (needRecord settings canOpen step (beforeClose first seen)).1 := by
    rw [needRecord, if_pos hIn]
    simp only [show (beforeClose first seen).ctrlidx = 0 from rfl, ctrlAt_zero hFirst, hOpen,
      atStart_beforeClose]
    split
    · exact hEnded
    · exact hEnded
  have hRuns : ¬ ((beforeClose first seen).exited || !(beforeClose first seen).traceOpen) = true :=
    Bool.false_ne_true
  rw [traceTick, if_neg hRuns]
  simp only
  split
  · exact hNeeded.write _
  · exact hNeeded

/-- A run whose first file can be opened: the file fills up, and is then closed one record too
early. -/
theorem traceRun_first (hFirst : settings.tracectrls.head? = some first) (hOpen : canOpen 0 = true)
    (hLong : first.start < first.stop) (steps : List TraceStep) :
    ((steps.filter settings.inRange).length < first.stop →
      traceRun settings canOpen steps = beforeClose first (steps.filter settings.inRange)) ∧
    (first.stop ≤ (steps.filter settings.inRange).length → ∃ records : List TraceInfo,
      records.length + 1 = first.stop - first.start ∧
        ClosedWith first records (traceRun settings canOpen steps)) := by
  induction steps using List.reverseRecOn with
  | nil => exact ⟨fun _ => rfl, fun h => absurd h (by simp; omega)⟩
  | append_singleton steps step ih =>
      obtain ⟨hBefore, hBehind⟩ := ih
      rw [traceRun_append]
      cases hIn : settings.inRange step with
      | false =>
          rw [traceTick_outside hIn, List.filter_append, List.filter_singleton, hIn]
          simpa using ⟨hBefore, hBehind⟩
      | true =>
          have hSeen : (steps ++ [step]).filter settings.inRange = steps.filter settings.inRange ++
              [step] := by
            rw [List.filter_append, List.filter_singleton, hIn]
            rfl
          rw [hSeen, List.length_append, List.length_singleton]
          refine ⟨fun hLt => ?_, fun hLe => ?_⟩
          · rw [hBefore (by omega)]
            exact traceTick_beforeClose hFirst hOpen hIn hLt
          · rcases Nat.lt_or_ge (steps.filter settings.inRange).length first.stop with hLt | hGe
            · refine ⟨((steps.filter settings.inRange).drop first.start).map recordTraces, ?_, ?_⟩
              · rw [List.length_map, List.length_drop]
                omega
              · rw [hBefore hLt]
                exact traceTick_closes hFirst hOpen hLong hIn (by omega)
            · obtain ⟨records, hLength, hClosed⟩ := hBehind hGe
              exact ⟨records, hLength, hClosed.tick step⟩

def Fileless (state : TraceState) : Prop := state.former = [] ∧ state.logfp = none

theorem Fileless.atEnd {state : TraceState} (h : Fileless state) (ctrl : TraceCtrl) (count : Nat) :
    Fileless (state.atEnd ctrl count) ∧ (state.atEnd ctrl count).traceOpen = state.traceOpen := by
  rw [TraceState.atEnd]
  split
  · exact ⟨⟨h.1, by rw [h.2]; rfl⟩, rfl⟩
  · exact ⟨h, rfl⟩

theorem Fileless.write {state : TraceState} (h : Fileless state) (info : TraceInfo) :
    Fileless (state.write info) := ⟨h.1, by rw [TraceState.write, h.2]; rfl⟩

/-- An idle collector counts on, up to the start of the first interval. -/
theorem traceTick_idle (hFirst : settings.tracectrls.head? = some first) (hOpen : canOpen 0 = false)
    (hLong : first.start < first.stop) {step : TraceStep}
    (hIn : settings.inRange step = true) {num : Nat} (hNum : num ≤ first.start) :
    Fileless (traceTick settings canOpen { exeInstNum := num } step) ∧
      ((traceTick settings canOpen { exeInstNum := num } step).traceOpen = true →
        ∃ later ≤ first.start, traceTick settings canOpen { exeInstNum := num } step =
          { exeInstNum := later }) := by
  have hTick : traceTick settings canOpen { exeInstNum := num } step =
      let needed := needRecord settings canOpen step { exeInstNum := num }
      if needed.2 then needed.1.write (recordTraces step) else needed.1 := rfl
  rcases Nat.lt_or_eq_of_le hNum with hLt | rfl
  · have hStart : TraceState.atStart first false { exeInstNum := num } = { exeInstNum := num } :=
      if_neg hLt.ne
    have hEnd : TraceState.atEnd first settings.tracectrls.length { exeInstNum := num } =
        { exeInstNum := num } := if_neg (show ¬ num = first.stop - 1 by omega)
    have hNeeded : needRecord settings canOpen step { exeInstNum := num } =
        ({ exeInstNum := num + 1 }, false) := by
      rw [needRecord, if_pos hIn]
      simp only [ctrlAt_zero hFirst, hOpen, hStart, hEnd]
      simp [hLt]
    rw [hTick, hNeeded]
    exact ⟨⟨rfl, rfl⟩, fun _ => ⟨num + 1, hLt, rfl⟩⟩
  · have hStart : Fileless (TraceState.atStart first false { exeInstNum := first.start }) ∧
        (TraceState.atStart first false { exeInstNum := first.start }).traceOpen = false := by
      rw [TraceState.atStart, if_pos rfl]
      exact ⟨⟨rfl, rfl⟩, rfl⟩
    obtain ⟨hEnded, hOff⟩ := hStart.1.atEnd first settings.tracectrls.length
    rw [hStart.2] at hOff
    have hNeeded : Fileless (needRecord settings canOpen step { exeInstNum := first.start }).1 ∧
        (needRecord settings canOpen step { exeInstNum := first.start }).1.traceOpen = false := by
      rw [needRecord, if_pos hIn]
      simp only [ctrlAt_zero hFirst, hOpen]
      split
      · exact ⟨hEnded, hOff⟩
      · exact ⟨hEnded, hOff⟩
    rw [hTick]
    simp only
    split
    · exact ⟨hNeeded.1.write _, fun hOn => absurd (hOn.symm.trans hNeeded.2) (by decide)⟩
    · exact ⟨hNeeded.1, fun hOn => absurd (hOn.symm.trans hNeeded.2) (by decide)⟩

/-- Without its first file the collector stays without files: it is idle up to the start of the
interval and switched off from there on. -/
theorem traceRun_unopened (hFirst : settings.tracectrls.head? = some first)
    (hOpen : canOpen 0 = false) (hLong : first.start < first.stop) (steps : List TraceStep) :
    Fileless (traceRun settings canOpen steps) ∧
      ((traceRun settings canOpen steps).traceOpen = true →
        ∃ num ≤ first.start, traceRun settings canOpen steps = { exeInstNum := num }) := by
  induction steps using List.reverseRecOn with
  | nil => exact ⟨⟨rfl, rfl⟩, fun _ => ⟨0, Nat.zero_le _, rfl⟩⟩
  | append_singleton steps step ih =>
      rw [traceRun_append]
      cases hIn : settings.inRange step with
      | false =>
          rw [traceTick_outside hIn]
          exact ih
      | true =>
          cases hTrace : (traceRun settings canOpen steps).traceOpen with
          | false =>
              have hOff : traceTick settings canOpen (traceRun settings canOpen steps) step =
                  traceRun settings canOpen steps := by
                rw [traceTick, if_pos (by rw [hTrace]; simp)]
              rw [hOff]
              exact ih
          | true =>
              obtain ⟨num, hNum, hState⟩ := ih.2 hTrace
              rw [hState]
              exact traceTick_idle hFirst hOpen hLong hIn hNum

end Intervals

/-- The files of a run are exact if and only if none is ever closed: the first one cannot be
opened, or the run ends before its interval does. The last instruction of an interval is never
recorded. That the intervals are disjoint plays no role. -/
theorem traces_exact_iff (settings : TraceSettings) (canOpen : Nat → Bool)
    (tracectrls : List TraceCtrl)
    (hCtrls : settings.tracectrls = sortTraceCtrls tracectrls) (hSome : tracectrls ≠ [])
    (hLong : ∀ ctrl ∈ tracectrls, ctrl.start < ctrl.stop) (steps : List TraceStep) :
    TracesExact settings canOpen steps ↔ canOpen 0 = false ∨
      ∀ first ∈ settings.tracectrls.head?, (steps.filter settings.inRange).length < first.stop := by
  obtain ⟨first, hFirst⟩ : ∃ first, settings.tracectrls.head? = some first := by
    refine Option.isSome_iff_exists.mp (List.isSome_head?.mpr ?_)
    rw [hCtrls]
    intro hNone
    have hPerm : (sortTraceCtrls tracectrls).Perm tracectrls := List.perm_insertionSort _ _
    rw [hNone] at hPerm
    exact hSome hPerm.nil_eq.symm
  have hMem : first ∈ tracectrls := by
    have hSorted := List.mem_of_head? hFirst
    rw [hCtrls] at hSorted
    exact (List.perm_insertionSort _ _).mem_iff.mp hSorted
  have hFirstLong := hLong first hMem
  simp only [hFirst, Option.mem_some_iff, forall_eq']
  cases hOpen : canOpen 0 with
  | false =>
      obtain ⟨hFormer, hLogfp⟩ := (traceRun_unopened hFirst hOpen hFirstLong steps).1
      refine iff_of_true (fun log hLog => ?_) (Or.inl rfl)
      rw [TraceState.logs, hFormer, hLogfp] at hLog
      exact absurd hLog List.not_mem_nil
  | true =>
      obtain ⟨hBefore, hBehind⟩ := traceRun_first hFirst hOpen hFirstLong steps
      rw [or_iff_right (by decide)]
      constructor
      · intro hExact
        by_contra hLe
        obtain ⟨records, hLength, log, hLog, hClosed, rfl, rfl⟩ := hBehind (Nat.le_of_not_lt hLe)
        have hRecords := congrArg List.length ((hExact log hLog).1 hClosed)
        rw [List.length_map, List.length_take, List.length_drop] at hRecords
        omega
      · intro hLt log hLog
        rw [hBefore hLt, TraceState.logs, beforeClose] at hLog
        have hOpenLog : log.closed = false ∧ log.stray = [] := by
          split at hLog
          · obtain rfl := List.mem_singleton.mp hLog
            exact ⟨rfl, rfl⟩
          · exact absurd hLog List.not_mem_nil
        exact ⟨fun hClosed => absurd (hClosed.symm.trans hOpenLog.1) (by decide), hOpenLog.2⟩

def pairSettings : TraceSettings where
  tracectrls := sortTraceCtrls (TraceLine.ctrls ⟨0, 2, 2⟩)

def straightLine (n : Nat) : List TraceStep :=
  (List.range n).map fun k =>
    sampleStep aluFlags (UInt64.ofNat (0x10000 + 4 * k)) (UInt64.ofNat (0x10004 + 4 * k))

/-- A run that ends within the first interval. -/
theorem traces_exact_short :
    TracesExact pairSettings (fun _ => true) (straightLine 1) := by
  refine (traces_exact_iff pairSettings (fun _ => true) (TraceLine.ctrls ⟨0, 2, 2⟩) rfl (by decide)
    (by decide) (straightLine 1)).mpr (Or.inr ?_)
  decide

/-- Both files of a run of four instructions lack the second instruction of their intervals. -/
theorem traces_lack_last :
    (traceRun pairSettings (fun _ => true) (straightLine 4)).logs.map
        (fun log => (log.ctrl, log.closed, log.records.map TraceInfo.pc)) =
      [(⟨0, 2⟩, true, [0x10000]), (⟨2, 4⟩, true, [0x10008])] ∧
    ¬ TracesExact pairSettings (fun _ => true) (straightLine 4) := by
  unfold TracesExact
  decide +kernel

end RiscvCkpt
