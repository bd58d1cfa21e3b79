import RiscvCkpt.Base.HeadQueue
import RiscvCkpt.Cpu.StartState

/-! Exact lengths. With `strictLength` no exit instruction is looked for: as soon as
the first pending checkpoint is over, all that are over are closed. The end test looks
at no other checkpoint, so one that is nested in an earlier one waits for it. -/
namespace RiscvCkpt

open MachineInt HeadQueue

def stepsAfter : Nat → List Step → List Step
  | _, [] => []
  | n, .ecall _ :: rest => stepsAfter n rest
  | 0, .instr _ :: rest => rest
  | n + 1, .instr _ :: rest => stepsAfter n rest

def stepsUpTo : Nat → List Step → List Step
  | 0, _ => []
  | _ + 1, [] => []
  | n + 1, .ecall e :: rest => .ecall e :: stepsUpTo (n + 1) rest
  | n + 1, .instr i :: rest => .instr i :: stepsUpTo n rest

def Window.begin (w : Window) (i : Instr) : CkptInfo :=
  CkptInfo.create w.start w.length w.warmup i.after.intregs i.after.fpregs i.pc i.npc

/-- What a run has recorded in the checkpoint of a window. -/
def Window.recorded (run : List Step) (w : Window) : CkptInfo :=
  match (instrs run)[w.start]? with
  | none => CkptInfo.create w.start w.length w.warmup [] [] 0 0
  | some i => (w.begin i).noteAll ((stepsAfter w.start run).flatMap Step.ticks)

/-- A saved checkpoint has its own length, and it holds what the `length` instructions
behind its start have recorded, together with the system calls among them. -/
def ExactLength (run : List Step) (info : CkptInfo) : Prop :=
  info.simNums = info.length ∧
  ∃ i exist, (instrs run)[info.startnum]? = some i ∧
    info = ((info.window.begin i).noteAll
      ((stepsUpTo info.length (stepsAfter info.startnum run)).flatMap Step.ticks)).close exist
        (info.startnum + info.length) 0

/-- The number from which on the checkpoint of an entry is over. -/
def CkptCtrl.due (ctrl : CkptCtrl) : Nat := max ctrl.stop ctrl.start

/-- The number at which the end test finds it over, if it is the first one that is pending. The
test is not made for a checkpoint that starts while none is pending. -/
def CkptCtrl.lead (ctrl : CkptCtrl) : Nat := max ctrl.stop (ctrl.start + 1)

/-- Entries that the counters can hold. The instructions that start them are executed in one
piece, and those that may end them do all their work in the first one. -/
structure PlainWindows (ctrls : List CkptCtrl) (run : List Step) : Prop where
  fits : ∀ ctrl ∈ ctrls, ctrl.lead < 2 ^ 64
  starts : ∀ ctrl ∈ ctrls, ∀ i, (instrs run)[ctrl.start]? = some i → i.shape.microops = [.op]
  ends : ∀ ctrl ∈ ctrls, ∀ i, (instrs run)[ctrl.lead]? = some i →
    i.shape.microops.head? = some .op

section Windows

variable {xs ys : List Step} {i : Instr} {n k : Nat}

/-- The steps behind an instruction go on with the run. -/
theorem stepsAfter_append (h : n < (instrs xs).length) :
    stepsAfter n (xs ++ ys) = stepsAfter n xs ++ ys := by
  induction xs generalizing n with
  | nil => exact absurd h (Nat.not_lt_zero _)
  | cons step rest ih =>
      cases step with
      | ecall e => exact ih h
      | instr i =>
          cases n with
          | zero => rfl
          | succ n => exact ih (Nat.lt_of_succ_lt_succ h)

theorem stepsAfter_instr (h : (instrs xs).length = n) :
    stepsAfter n (xs ++ .instr i :: ys) = ys := by
  induction xs generalizing n with
  | nil =>
      subst h
      rfl
  | cons step rest ih =>
      cases step with
      | ecall e => exact ih h
      | instr i =>
          subst h
          exact ih rfl

theorem instrs_stepsAfter (n : Nat) (xs : List Step) :
    (instrs (stepsAfter n xs)).length = (instrs xs).length - (n + 1) := by
  induction xs generalizing n with
  | nil => rw [stepsAfter, instrs, List.length_nil, Nat.zero_sub]
  | cons step rest ih =>
      cases step with
      | ecall e => exact ih n
      | instr i =>
          cases n with
          | zero => rfl
          | succ n =>
              rw [stepsAfter, ih, instrs, List.length_cons]
              omega

theorem stepsUpTo_instr (h : (instrs xs).length + 1 = k) :
    stepsUpTo k (xs ++ .instr i :: ys) = xs ++ [.instr i] := by
  induction xs generalizing k with
  | nil =>
      subst h
      simp only [instrs, List.length_nil, List.nil_append, stepsUpTo]
  | cons step rest ih =>
      subst h
      cases step with
      | ecall e => exact congrArg (Step.ecall e :: ·) (ih rfl)
      | instr i => exact congrArg (Step.instr i :: ·) (ih rfl)

/-- The window that starts behind instruction number `n` and ends with instruction `i`. -/
theorem stepsUpTo_stepsAfter (hk : 0 < k) (h : (instrs xs).length = n + k) :
    stepsUpTo k (stepsAfter n (xs ++ .instr i :: ys)) = stepsAfter n (xs ++ [.instr i]) := by
  have hStart : n < (instrs xs).length := by omega
  rw [stepsAfter_append hStart, stepsAfter_append hStart]
  apply stepsUpTo_instr
  rw [instrs_stepsAfter]
  omega

namespace Window

variable {w : Window} {run : List Step}

theorem recorded_window (run : List Step) (w : Window) : (w.recorded run).window = w := by
  rw [recorded]
  split
  · rfl
  · exact CkptInfo.noteAll_window _ _

/-- Every step behind the start is recorded. -/
theorem recorded_concat (h : w.start < (instrs run).length) (step : Step) :
    w.recorded (run ++ [step]) = (w.recorded run).noteAll step.ticks := by
  have hFirst : (instrs run)[w.start]? = some (instrs run)[w.start] := List.getElem?_eq_getElem h
  have hMore : (instrs (run ++ [step]))[w.start]? = some (instrs run)[w.start] := by
    rw [instrs_append, List.getElem?_append_left h, hFirst]
  rw [recorded, hMore, recorded, hFirst]
  simp only
  rw [stepsAfter_append h, List.flatMap_append, CkptInfo.noteAll_append, List.flatMap_singleton]

/-- The instruction that starts the checkpoint leaves nothing in it. -/
theorem recorded_start (h : (instrs run).length = w.start) :
    w.recorded (run ++ [.instr i]) = w.begin i := by
  have hFirst : (instrs (run ++ [.instr i]))[w.start]? = some i := by
    rw [instrs_append, ← h]
    exact List.getElem?_concat_length
  rw [recorded, hFirst]
  simp only
  rw [stepsAfter_instr h]
  rfl

/-- A window that ends with instruction number `stop` holds the steps between its ends. -/
theorem recorded_upTo {before after : List Step} {last : Instr} {stop : Nat}
    (hLast : (instrs before).length = stop) (hOrder : w.start ≤ stop) :
    ∃ first, (instrs (before ++ .instr last :: after))[w.start]? = some first ∧
      w.recorded (before ++ [.instr last]) = (w.begin first).noteAll
        ((stepsUpTo (stop - w.start)
          (stepsAfter w.start (before ++ .instr last :: after))).flatMap Step.ticks) := by
  rcases Nat.eq_or_lt_of_le hOrder with hEmpty | hPositive
  · -- an empty window starts and ends with the same instruction
    refine ⟨last, ?_, ?_⟩
    · rw [instrs_append, hEmpty, ← hLast]
      exact List.getElem?_append_right (Nat.le_refl _) |>.trans (by rw [Nat.sub_self]; rfl)
    · rw [recorded_start (hLast.trans hEmpty.symm), hEmpty, Nat.sub_self]
      simp only [stepsUpTo, List.flatMap_nil]
      rfl
  · have hStart : w.start < (instrs before).length := hLast ▸ hPositive
    have hFirst : ∀ later,
        (instrs (before ++ later))[w.start]? = some (instrs before)[w.start] := by
      intro later
      rw [instrs_append, List.getElem?_append_left hStart, List.getElem?_eq_getElem hStart]
    refine ⟨(instrs before)[w.start], hFirst _, ?_⟩
    rw [recorded, hFirst, stepsUpTo_stepsAfter (Nat.sub_pos_of_lt hPositive) (by omega)]

end Window

namespace CkptCtrl

variable {ctrl : CkptCtrl}

theorem due_le_lead (ctrl : CkptCtrl) : ctrl.due ≤ ctrl.lead := by
  rw [due, lead]
  omega

theorem stop_le_lead (ctrl : CkptCtrl) : ctrl.stop ≤ ctrl.lead := Nat.le_max_left ..

/-- Once it has been pending for an instruction, the checkpoint is found over when it is. -/
theorem lead_le_iff {n : Nat} (hStart : ctrl.start < n) : ctrl.lead ≤ n ↔ ctrl.stop ≤ n := by
  rw [lead]
  omega

theorem due_le_iff {n : Nat} (hStart : ctrl.start ≤ n) : ctrl.due ≤ n ↔ ctrl.stop ≤ n := by
  rw [due]
  omega

/-- The length of a window is the distance between its ends. -/
theorem window_length (hOrder : ctrl.start ≤ ctrl.stop) (hFits : ctrl.stop < 2 ^ 64) :
    ctrl.window.length = ctrl.stop - ctrl.start := by
  simp only [window, uint64]
  omega

/-- A window is over from its stop on. -/
theorem window_over (hFits : ctrl.stop < 2 ^ 64) (n : Nat) :
    ctrl.window.over n = decide (ctrl.stop ≤ n) := by
  have hStop : (ctrl.window.start + ctrl.window.length) % 2 ^ 64 = ctrl.stop := by
    simp only [window, uint64]
    omega
  rw [Window.over, hStop]

end CkptCtrl

end Windows

/-- The main loop has noted the ticks and done nothing else. -/
structure Noted (cpu : Cpu) (ts : List Tick) (counted : Nat) (next : Cpu) : Prop where
  pendingCkpts : next.pendingCkpts = cpu.pendingCkpts.map (CkptInfo.noteAll ts)
  saved : next.saved = cpu.saved
  exited : next.exited = false
  numInst : next.numInst = cpu.numInst + counted
  ckptidx : next.ckptidx = cpu.ckptidx

/-- No checkpoint starts and none is closed at the next number. -/
structure Cpu.Quiet (ctrls : List CkptCtrl) (cpu : Cpu) : Prop where
  starts : ∀ ctrl, ctrls[cpu.ckptidx]? = some ctrl → cpu.numInst ≠ ctrl.start
  ends : cpu.firstOver cpu.numInst = false

section Quiet

variable {settings : CkptSettings} {cpu mid next : Cpu} {t : Tick}
  {ts xs ys : List Tick} {i j : Nat}

theorem Noted.trans (hFirst : Noted cpu xs i mid) (hSecond : Noted mid ys j next) :
    Noted cpu (xs ++ ys) (i + j) next where
  pendingCkpts := by
    rw [hSecond.pendingCkpts, hFirst.pendingCkpts, List.map_map]
    apply List.map_congr_left
    intro info _
    exact (info.noteAll_append xs ys).symm
  saved := hSecond.saved.trans hFirst.saved
  exited := hSecond.exited
  numInst := by rw [hSecond.numInst, hFirst.numInst, Nat.add_assoc]
  ckptidx := hSecond.ckptidx.trans hFirst.ckptidx

theorem Noted.refl (hRunning : cpu.exited = false) : Noted cpu [] 0 cpu where
  pendingCkpts := (List.map_id _).symm
  saved := rfl
  exited := hRunning
  numInst := rfl
  ckptidx := rfl

/-- The end test reads no more than the windows. -/
theorem firstOver_congr
    (h : next.pendingCkpts.map CkptInfo.window = cpu.pendingCkpts.map CkptInfo.window)
    (n : Nat) : next.firstOver n = cpu.firstOver n := by
  rw [sched_firstOver, sched_firstOver, Sched.firstOver, Sched.firstOver, Cpu.sched, Cpu.sched, h]

theorem Noted.windows (h : Noted cpu ts i next) :
    next.pendingCkpts.map CkptInfo.window = cpu.pendingCkpts.map CkptInfo.window := by
  rw [h.pendingCkpts, List.map_map]
  apply List.map_congr_left
  intro info _
  exact info.noteAll_window ts

/-- What was quiet stays quiet as long as nothing is counted. -/
theorem Noted.quiet (h : Noted cpu ts 0 next) (hQuiet : cpu.Quiet settings.ctrls) :
    next.Quiet settings.ctrls where
  starts := by
    rw [h.ckptidx, h.numInst]
    exact hQuiet.starts
  ends := by
    rw [h.numInst, firstOver_congr h.windows]
    exact hQuiet.ends

/-- With `strictLength`, the end test asks for the first pending checkpoint only. -/
theorem endCkpt_strict (hStrict : settings.strictLength = true) (n : Nat) :
    cpu.endCkpt settings n t =
      if cpu.firstOver n then cpu.ckptDetectOver settings.ctrls (t.stack 0) n 0 else cpu := by
  simp only [Cpu.endCkpt, hStrict, if_true, Bool.not_true, Bool.and_false,
    Bool.false_eq_true, if_false]

/-- No checkpoint starts in a fault or away from its number. -/
theorem started_quiet (h : t.fault = true ∨
    ∀ ctrl, settings.ctrls[cpu.ckptidx]? = some ctrl → cpu.numInst ≠ ctrl.start) :
    cpu.started settings.ctrls t = [] := by
  rcases started_cases settings.ctrls cpu t with hNone | ⟨hFault, ctrl, hCtrl, hStart, -⟩
  · exact hNone
  · rw [hFault] at h
    exact absurd hStart (h.resolve_left Bool.false_ne_true ctrl hCtrl)

/-- Faults, and ticks at a quiet number, are only noted. -/
theorem tick_quiet (hDirect : settings.readCkpt = none) (hStrict : settings.strictLength = true)
    (hRunning : cpu.exited = false) (h : t.fault = true ∨ cpu.Quiet settings.ctrls) :
    Noted cpu [t] (if !t.fault && t.counts then 1 else 0) (tick settings cpu t) := by
  obtain ⟨next, hPending, hSaved, hExited, hNum, hIdx, hTick⟩ :=
    @tick_direct settings cpu t hDirect hRunning
  have hStarted : cpu.started settings.ctrls t = [] := started_quiet (h.imp_right Cpu.Quiet.starts)
  rw [hStarted, List.append_nil] at hPending
  rw [hStarted, List.length_nil, Nat.add_zero] at hIdx
  have hNoted : Noted cpu [t] (if !t.fault && t.counts then 1 else 0) next := by
    refine ⟨hPending, hSaved, hExited, ?_, hIdx⟩
    rw [hNum]
    split <;> rfl
  have hSame : tick settings cpu t = next := by
    rw [hTick]
    split
    · next hTest =>
        rw [Bool.and_eq_true, Bool.not_eq_true'] at hTest
        have hQuiet := h.resolve_left (Bool.eq_false_iff.mp hTest.1)
        rw [endCkpt_strict hStrict, firstOver_congr hNoted.windows, hQuiet.ends,
          if_neg Bool.false_ne_true]
    · rfl
  rw [hSame]
  exact hNoted

/-- Faults are noted and do nothing else. -/
theorem ticks_faults (hDirect : settings.readCkpt = none) (hStrict : settings.strictLength = true)
    (hRunning : cpu.exited = false) (hFault : ∀ t ∈ ts, t.fault = true) :
    Noted cpu ts 0 (ticks settings cpu ts) := by
  induction ts generalizing cpu with
  | nil => exact Noted.refl hRunning
  | cons t rest ih =>
      have hHead := hFault t (List.mem_cons_self ..)
      have hFirst := tick_quiet hDirect hStrict hRunning (Or.inl hHead)
      rw [hHead, Bool.not_true, Bool.false_and, if_neg Bool.false_ne_true] at hFirst
      exact hFirst.trans (ih hFirst.exited fun t ht => hFault t (List.mem_cons_of_mem _ ht))

/-- An instruction with a quiet number is only noted, however many micro-ops it has. -/
theorem ticks_quiet (hDirect : settings.readCkpt = none) (hStrict : settings.strictLength = true)
    (hRunning : cpu.exited = false) (hQuiet : cpu.Quiet settings.ctrls) (inst : Instr) (regs : Regs)
    {ms : List Microop} (hms : ms ≠ []) :
    Noted cpu (inst.microTicks regs ms) 1 (ticks settings cpu (inst.microTicks regs ms)) := by
  induction ms generalizing cpu regs with
  | nil => exact absurd rfl hms
  | cons m more ih =>
      obtain ⟨faults, events, regs', hFaults, hTicks⟩ := microTicks_cons inst regs m more
      rw [hTicks, ticks_append]
      have hFaulty := ticks_faults hDirect hStrict hRunning fun t ht => (hFaults t ht).1
      have hStill := hFaulty.quiet hQuiet
      have hCommit :=
        @tick_quiet settings _ (inst.tick more.isEmpty false events regs') hDirect hStrict
        hFaulty.exited (Or.inr hStill)
      cases more with
      | nil =>
          exact hFaulty.trans hCommit
      | cons second rest =>
          have hRest := ih hCommit.exited (hCommit.quiet hStill) regs' (List.cons_ne_nil _ _)
          exact hFaulty.trans (hCommit.trans hRest)

end Quiet

/-- The entries whose checkpoints are pending at a number. -/
def pendingAt (ctrls : List CkptCtrl) (n : Nat) : List CkptCtrl :=
  waiting CkptCtrl.due CkptCtrl.lead ctrls n

/-- The number at which the checkpoint of an entry is closed. -/
def closedAt (ctrls : List CkptCtrl) (ctrl : CkptCtrl) : Nat :=
  release CkptCtrl.due CkptCtrl.lead ctrls ctrl

/-- The pending checkpoints are those of the entries that still wait for their head,
and they hold what has been recorded. -/
structure StrictState (ctrls : List CkptCtrl) (done : List Step) (cpu : Cpu) : Prop where
  started : ∀ ctrl ∈ ctrls.take cpu.ckptidx, ctrl.start < (instrs done).length
  pendingCkpts : cpu.pendingCkpts = (pendingAt (ctrls.take cpu.ckptidx) (instrs done).length).map
    fun ctrl => ctrl.window.recorded done

/-- The checkpoint of an entry, closed at the instruction that releases it. -/
def ReleasedAt (ctrls : List CkptCtrl) (done : List Step) (info : CkptInfo) : Prop :=
  ∃ ctrl ∈ ctrls, ∃ before last after,
    done = before ++ .instr last :: after ∧ (instrs before).length = closedAt ctrls ctrl ∧
    info = (ctrl.window.recorded (before ++ [.instr last])).close (last.stack 0)
      (closedAt ctrls ctrl) 0

section Runs

variable {settings : CkptSettings} {ctrls : List CkptCtrl} {cpu mid next : Cpu} {done : List Step}
  {i : Instr} {t : Tick}

theorem ReleasedAt.append {info : CkptInfo} (h : ReleasedAt ctrls done info) (more : List Step) :
    ReleasedAt ctrls (done ++ more) info := by
  obtain ⟨ctrl, hCtrl, before, last, after, rfl, hNum, hInfo⟩ := h
  exact ⟨ctrl, hCtrl, before, last, after ++ more, by rw [List.append_assoc, List.cons_append],
    hNum, hInfo⟩

theorem mem_of_pendingAt {passed n : Nat} {ctrl : CkptCtrl}
    (h : ctrl ∈ pendingAt (ctrls.take passed) n) : ctrl ∈ ctrls :=
  List.mem_of_mem_take (List.mem_of_mem_filter h)

/-- The first one that is pending is not over before its end test. -/
theorem le_lead_head {head : CkptCtrl} {n : Nat} (h : head ∈ (pendingAt ctrls n).head?) :
    n ≤ head.lead := by
  obtain ⟨rest, hPending⟩ := List.head?_eq_some_iff.mp (Option.mem_def.mp h)
  exact (waiting_head CkptCtrl.due_le_lead hPending).2.1

/-- A step that is only noted. -/
theorem StrictState.noted {step : Step} {counted : Nat} (h : StrictState ctrls done cpu)
    (hNoted : Noted cpu step.ticks counted next)
    (hWaiting : pendingAt (ctrls.take cpu.ckptidx) (instrs (done ++ [step])).length =
      pendingAt (ctrls.take cpu.ckptidx) (instrs done).length) :
    StrictState ctrls (done ++ [step]) next where
  started := by
    intro ctrl hCtrl
    rw [hNoted.ckptidx] at hCtrl
    rw [instrs_append, List.length_append]
    exact Nat.lt_add_right _ (h.started ctrl hCtrl)
  pendingCkpts := by
    rw [hNoted.pendingCkpts, h.pendingCkpts, hNoted.ckptidx, hWaiting, List.map_map]
    apply List.map_congr_left
    intro ctrl hCtrl
    exact (Window.recorded_concat (h.started ctrl (List.mem_of_mem_filter hCtrl)) step).symm

/-- The end test reads the head of the entries that are pending. -/
theorem firstOver_recorded {queue : List CkptCtrl} {run : List Step}
    (hPending : cpu.pendingCkpts = queue.map fun ctrl => ctrl.window.recorded run)
    (hFits : ∀ ctrl ∈ queue, ctrl.lead < 2 ^ 64) (n : Nat) :
    cpu.firstOver n = ((queue.head?.map fun head => decide (head.stop ≤ n)).getD false) := by
  cases queue with
  | nil =>
      rw [Cpu.firstOver, hPending, List.map_nil, List.head?_nil, Option.map_none, Option.getD_none]
  | cons head rest =>
      have hStop := head.stop_le_lead.trans_lt (hFits head (List.mem_cons_self ..))
      rw [sched_firstOver, Sched.firstOver, Cpu.sched, hPending, List.map_cons, List.map_cons,
        Window.recorded_window, List.head?_cons, Option.map_some, Option.getD_some]
      exact CkptCtrl.window_over hStop n

/-- What holds after a part of the run: saved checkpoints have been closed when their
heads let them go. -/
structure StrictRun (ctrls : List CkptCtrl) (done : List Step) (cpu : Cpu) : Prop where
  saved : ∀ info ∈ cpu.saved, ReleasedAt ctrls done info
  numInst : cpu.exited = false → cpu.numInst = (instrs done).length
  state : cpu.exited = false → StrictState ctrls done cpu

/-- The state behind the tick that does the work of an instruction, when the end test is still
to come. -/
structure BeforeEnd (ctrls : List CkptCtrl) (done : List Step) (i : Instr) (next : Cpu) : Prop where
  saved : ∀ info ∈ next.saved, ReleasedAt ctrls done info
  started : ∀ ctrl ∈ ctrls.take next.ckptidx, ctrl.start < (instrs (done ++ [.instr i])).length
  pendingCkpts : next.pendingCkpts = (pendingAt (ctrls.take next.ckptidx) (instrs done).length).map
    fun ctrl => ctrl.window.recorded (done ++ [.instr i])

/-- The state behind the end test. -/
structure AfterEnd (ctrls : List CkptCtrl) (done : List Step) (i : Instr) (next : Cpu) : Prop where
  saved : ∀ info ∈ next.saved, ReleasedAt ctrls (done ++ [.instr i]) info
  state : StrictState ctrls (done ++ [.instr i]) next

/-- Those that are over are the entries that their head lets go now. -/
theorem BeforeEnd.close {head : CkptCtrl} {rest : List CkptCtrl} (h : BeforeEnd ctrls done i next)
    (hFits : ∀ ctrl ∈ ctrls, ctrl.lead < 2 ^ 64)
    (hPending : pendingAt (ctrls.take next.ckptidx) (instrs done).length = head :: rest)
    (hLeaves : head.lead ≤ (instrs done).length) :
    AfterEnd ctrls done i (next.ckptDetectOver ctrls (i.stack 0) (instrs done).length 0) := by
  have hOver : ∀ ctrl ∈ pendingAt (ctrls.take next.ckptidx) (instrs done).length,
      (ctrl.window.recorded (done ++ [.instr i])).detectOver (i.stack 0) (instrs done).length 0 =
        if ctrl.due ≤ (instrs done).length then
          some ((ctrl.window.recorded (done ++ [.instr i])).close (i.stack 0)
            (instrs done).length 0)
        else none := by
    intro ctrl hCtrl
    have hStop := ctrl.stop_le_lead.trans_lt (hFits ctrl (mem_of_pendingAt hCtrl))
    have hStart := h.started ctrl (List.mem_of_mem_filter hCtrl)
    rw [instrs_concat_length] at hStart
    rw [detectOver_eq, Window.recorded_window]
    refine if_congr ?_ rfl rfl
    rw [CkptCtrl.window_over hStop, decide_eq_true_eq,
      CkptCtrl.due_le_iff (Nat.le_of_lt_succ hStart)]
  obtain ⟨hLeft, hGo⟩ := waiting_due CkptCtrl.due_le_lead hPending hLeaves
  constructor
  · intro info hInfo
    rcases List.mem_append.mp hInfo with hInfo | hInfo
    · exact (h.saved info hInfo).append _
    · obtain ⟨before, hBefore, hClosed⟩ := List.mem_filterMap.mp hInfo
      rw [h.pendingCkpts] at hBefore
      obtain ⟨ctrl, hCtrl, rfl⟩ := List.mem_map.mp hBefore
      rw [hOver ctrl hCtrl] at hClosed
      split at hClosed
      · next hDue =>
          have hClosedAt : closedAt ctrls ctrl = (instrs done).length := by
            have hMore := release_append CkptCtrl.due_le_lead (List.mem_of_mem_filter hCtrl)
              (ctrls.drop next.ckptidx)
            rw [List.take_append_drop] at hMore
            exact hMore.trans (hGo ctrl hCtrl hDue)
          refine ⟨ctrl, mem_of_pendingAt hCtrl, done, i, [], rfl, hClosedAt.symm, ?_⟩
          rw [hClosedAt]
          exact (Option.some.inj hClosed).symm
      · exact absurd hClosed (by simp)
  · refine ⟨h.started, ?_⟩
    simp only [Cpu.ckptDetectOver]
    rw [instrs_concat_length, pendingAt, ← hLeft, h.pendingCkpts, List.filter_map]
    congr 1
    apply List.filter_congr
    intro ctrl hCtrl
    rw [Function.comp_apply, hOver ctrl hCtrl]
    split <;> simp_all

/-- While the head of the queue stays, all stay. -/
theorem BeforeEnd.keep (h : BeforeEnd ctrls done i next)
    (hLater : ∀ head ∈ (pendingAt (ctrls.take next.ckptidx) (instrs done).length).head?,
      (instrs done).length < head.lead) : AfterEnd ctrls done i next := by
  refine ⟨fun info hInfo => (h.saved info hInfo).append _, h.started, ?_⟩
  rw [h.pendingCkpts, pendingAt, pendingAt, instrs_concat_length,
    waiting_not_due CkptCtrl.due_le_lead hLater]

/-- What the end test finds when it is made: the head of the queue leaves. A checkpoint that has
just started while none was pending could not leave yet. -/
theorem BeforeEnd.test_iff {queue new : List CkptCtrl} (h : BeforeEnd ctrls done i next)
    (hFits : ∀ ctrl ∈ ctrls, ctrl.lead < 2 ^ 64)
    (hPending : pendingAt (ctrls.take next.ckptidx) (instrs done).length = queue ++ new)
    (hOld : ∀ ctrl ∈ queue, ctrl.start < (instrs done).length)
    (hNew : ∀ ctrl ∈ new, ctrl.start = (instrs done).length) :
    queue ≠ [] ∧ next.firstOver (instrs done).length = true ↔
      ∃ head ∈ (pendingAt (ctrls.take next.ckptidx) (instrs done).length).head?,
        head.lead ≤ (instrs done).length := by
  rw [firstOver_recorded h.pendingCkpts fun ctrl hCtrl => hFits ctrl (mem_of_pendingAt hCtrl),
    hPending]
  cases queue with
  | nil =>
      refine iff_of_false (by simp) ?_
      rintro ⟨head, hIn, hLead⟩
      have hStart := hNew head (List.mem_of_mem_head? hIn)
      rw [CkptCtrl.lead, hStart] at hLead
      omega
  | cons head rest =>
      simp [CkptCtrl.lead_le_iff (hOld head (List.mem_cons_self ..))]

def Instr.work (i : Instr) (last : Bool) : Tick := i.tick last false i.events i.after

/-- The entry that starts in a tick is pending behind the others. -/
theorem StrictRun.join {faults : List Tick} (h : StrictRun settings.ctrls done cpu)
    (hRunning : cpu.exited = false) (hFaults : Noted cpu faults 0 mid) (last : Bool) :
    let t := i.work last
    ∃ new, settings.ctrls.take (mid.ckptidx + (mid.started settings.ctrls t).length) =
        settings.ctrls.take cpu.ckptidx ++ new ∧
      (∀ ctrl ∈ new, ctrl.start = (instrs done).length) ∧
      pendingAt (settings.ctrls.take cpu.ckptidx ++ new) (instrs done).length =
        pendingAt (settings.ctrls.take cpu.ckptidx) (instrs done).length ++ new ∧
      mid.started settings.ctrls t =
        new.map fun ctrl => ctrl.window.recorded (done ++ [.instr i]) := by
  intro t
  rcases started_cases settings.ctrls mid t with hNone | ⟨-, ctrl, hNext, hStart, hNew⟩
  · refine ⟨[], ?_, nofun, ?_, hNone⟩
    · rw [hNone, List.length_nil, Nat.add_zero, hFaults.ckptidx, List.append_nil]
    · rw [List.append_nil, List.append_nil]
  · rw [hFaults.ckptidx] at hNext
    rw [hFaults.numInst, Nat.add_zero, h.numInst hRunning] at hStart
    refine ⟨[ctrl], ?_, ?_, ?_, ?_⟩
    · rw [hNew, List.length_singleton, hFaults.ckptidx, take_next hNext]
    · intro other hOther
      rw [List.mem_singleton.mp hOther, hStart]
    · have hDue : (instrs done).length ≤ ctrl.due := hStart ▸ Nat.le_max_right ..
      exact waiting_concat CkptCtrl.due_le_lead hDue
    · rw [hNew, List.map_singleton, Window.recorded_start hStart]
      rfl

/-- An instruction that does its work in the first micro-op: attempts, the tick that goes through,
and at most a fence behind it. -/
theorem work_ticks (hWork : i.shape.microops.head? = some .op) :
    ∃ faults : List Tick, (∀ t ∈ faults, t.fault = true) ∧
      (i.shape.microops = [.op] ∧ (Step.instr i).ticks = faults ++ [i.work true] ∨
        i.shape.microops ≠ [.op] ∧
          (Step.instr i).ticks = faults ++ [i.work false] ++ [i.tick true false [] i.after]) := by
  have hShape : i.shape.microops = [.op] ∨ i.shape.microops = [.op, .fence] := by
    cases hCase : i.shape with
    | plain => exact Or.inl rfl
    | atomic aq rl =>
        rw [hCase] at hWork
        revert hWork
        cases aq <;> cases rl <;> decide
  rcases hShape with hOne | hFence
  · refine ⟨i.faults.map fun events => i.tick true true events i.before, ?_, Or.inl ⟨hOne, ?_⟩⟩
    · intro t ht
      obtain ⟨events, -, rfl⟩ := List.mem_map.mp ht
      rfl
    · rw [Step.ticks, hOne]
      rfl
  · refine ⟨i.faults.map fun events => i.tick false true events i.before, ?_, Or.inr ⟨?_, ?_⟩⟩
    · intro t ht
      obtain ⟨events, -, rfl⟩ := List.mem_map.mp ht
      rfl
    · rw [hFence]
      decide
    · rw [Step.ticks, hFence, List.append_assoc]
      rfl

/-- A fence behind the work notes the instruction once more, which changes nothing. -/
theorem note_fence (info : CkptInfo) (last : Bool) (regs : Regs) :
    (info.note (i.work last)).note (i.tick true false [] regs) = info.note (i.work last) := by
  have hTwice : ∀ info : CkptInfo, (info.addinst i.pc).addinst i.pc = info.addinst i.pc := by
    intro info
    simp only [CkptInfo.addinst]
    split
    · simp [Finset.insert_comm]
    · simp
  exact hTwice (info.hooks i.stack i.events)

/-- The work of an instruction and the end test behind it. -/
theorem StrictRun.work (hDirect : settings.readCkpt = none) (hStrict : settings.strictLength = true)
    (hFits : ∀ ctrl ∈ settings.ctrls, ctrl.lead < 2 ^ 64) (h : StrictRun settings.ctrls done cpu)
    (hRunning : cpu.exited = false) {faults : List Tick} (hFaulty : ∀ t ∈ faults, t.fault = true)
    {last : Bool} (hNotes : ∀ info : CkptInfo,
      info.noteAll (Step.instr i).ticks = (info.noteAll faults).note (i.work last)) :
    AfterEnd settings.ctrls done i (ticks settings cpu (faults ++ [i.work last])) ∧
      (ticks settings cpu (faults ++ [i.work last])).numInst =
        (instrs done).length + if last then 1 else 0 := by
  have hState := h.state hRunning
  have hFaults := ticks_faults hDirect hStrict hRunning hFaulty
  rw [ticks_append]
  obtain ⟨mid, hMid⟩ : ∃ mid, mid = ticks settings cpu faults := ⟨_, rfl⟩
  rw [← hMid] at hFaults ⊢
  obtain ⟨next, hPending, hSaved, -, hNum, hIdx, hTick⟩ :=
    @tick_direct settings mid (i.work last) hDirect hFaults.exited
  obtain ⟨new, hTake, hNew, hQueue, hStarted⟩ :=
    @StrictRun.join _ _ mid _ i _ h hRunning hFaults last
  rw [← hIdx] at hTake
  have hMidNum : mid.numInst = (instrs done).length := by
    rw [hFaults.numInst, h.numInst hRunning, Nat.add_zero]
  have hOld : mid.pendingCkpts =
      (pendingAt (settings.ctrls.take cpu.ckptidx) (instrs done).length).map
        fun ctrl => (ctrl.window.recorded done).noteAll faults := by
    rw [hFaults.pendingCkpts, hState.pendingCkpts, List.map_map]
    rfl
  have hBefore : BeforeEnd settings.ctrls done i next := by
    refine ⟨?_, ?_, ?_⟩
    · rw [hSaved, hFaults.saved]
      exact h.saved
    · rw [hTake, instrs_concat_length]
      intro ctrl hCtrl
      rcases List.mem_append.mp hCtrl with hCtrl | hCtrl
      · exact Nat.lt_succ_of_lt (hState.started ctrl hCtrl)
      · rw [hNew ctrl hCtrl]
        exact Nat.lt_succ_self _
    · rw [hPending, hStarted, hOld, hTake, hQueue, List.map_append, List.map_map]
      congr 1
      apply List.map_congr_left
      intro ctrl hCtrl
      rw [Window.recorded_concat (hState.started ctrl (List.mem_of_mem_filter hCtrl)), hNotes]
      rfl
  have hTest : (mid.hasValidCkpt && next.firstOver (instrs done).length) = true ↔
      ∃ head ∈ (pendingAt (settings.ctrls.take next.ckptidx) (instrs done).length).head?,
        head.lead ≤ (instrs done).length := by
    rw [Bool.and_eq_true, Cpu.hasValidCkpt, hOld, decide_eq_true_eq, ne_eq, List.map_eq_nil_iff]
    apply hBefore.test_iff hFits
    · rw [hTake, hQueue]
    · exact fun ctrl hCtrl => hState.started ctrl (List.mem_of_mem_filter hCtrl)
    · exact hNew
  have hEnd : ticks settings mid [i.work last] =
      if mid.hasValidCkpt && next.firstOver (instrs done).length then
        next.ckptDetectOver settings.ctrls (i.stack 0) (instrs done).length 0
      else next := by
    have hOne : ticks settings mid [i.work last] = tick settings mid (i.work last) := rfl
    rw [hOne, hTick, endCkpt_strict hStrict, hMidNum]
    cases mid.hasValidCkpt <;> rfl
  have hCount : next.numInst = (instrs done).length + if last then 1 else 0 := by
    rw [hNum, hMidNum]
    cases last <;> rfl
  rw [hEnd]
  split
  · next hClose =>
      obtain ⟨head, hIn, hLeaves⟩ := hTest.mp hClose
      obtain ⟨rest, hHead⟩ := List.head?_eq_some_iff.mp (Option.mem_def.mp hIn)
      exact ⟨hBefore.close hFits hHead hLeaves, hCount⟩
  · next hStay =>
      refine ⟨hBefore.keep fun head hIn => Nat.lt_of_not_le fun hLeaves => ?_, hCount⟩
      exact hStay (hTest.mpr ⟨head, hIn, hLeaves⟩)

theorem ticks_exited {ts : List Tick} (hExited : cpu.exited = true) :
    ticks settings cpu ts = cpu := by
  induction ts with
  | nil => rfl
  | cons t rest ih =>
      rw [ticks, List.foldl_cons, tick_exited hExited]
      exact ih

/-- Nothing happens at a number at which no entry starts and the head stays. -/
theorem StrictState.quiet {n : Nat} (h : StrictState settings.ctrls done cpu)
    (hFits : ∀ ctrl ∈ settings.ctrls, ctrl.lead < 2 ^ 64) (hNum : cpu.numInst = n)
    (hStart : ∀ ctrl ∈ settings.ctrls, ctrl.start ≠ n) (hPassed : (instrs done).length ≤ n + 1)
    (hLater : ∀ head ∈ (pendingAt (settings.ctrls.take cpu.ckptidx) (instrs done).length).head?,
      n < head.lead) : cpu.Quiet settings.ctrls where
  starts := by
    intro ctrl hCtrl
    rw [hNum]
    exact (hStart ctrl (List.mem_of_getElem? hCtrl)).symm
  ends := by
    rw [firstOver_recorded h.pendingCkpts fun ctrl hCtrl => hFits ctrl (mem_of_pendingAt hCtrl),
      hNum]
    cases hHead : (pendingAt (settings.ctrls.take cpu.ckptidx) (instrs done).length).head? with
    | none => rfl
    | some head =>
        have hIn := List.mem_of_mem_head? (Option.mem_def.mpr hHead)
        have hBefore := h.started head (List.mem_of_mem_filter hIn)
        have hNot := hStart head (mem_of_pendingAt hIn)
        have hLead := hLater head (Option.mem_def.mpr hHead)
        refine decide_eq_false fun hStop => ?_
        rw [CkptCtrl.lead] at hLead
        omega

/-- An instruction that does its work in the first micro-op may close checkpoints. It may start
one if there is no other micro-op. -/
theorem StrictRun.instr_work (hDirect : settings.readCkpt = none)
    (hStrict : settings.strictLength = true) (hFits : ∀ ctrl ∈ settings.ctrls, ctrl.lead < 2 ^ 64)
    (h : StrictRun settings.ctrls done cpu) (hRunning : cpu.exited = false)
    (hWork : i.shape.microops.head? = some .op)
    (hStart : i.shape.microops = [.op] ∨ ∀ ctrl ∈ settings.ctrls,
      ctrl.start ≠ (instrs done).length) :
    StrictRun settings.ctrls (done ++ [.instr i]) (ticks settings cpu (Step.instr i).ticks) := by
  obtain ⟨faults, hFaulty, ⟨-, hTicks⟩ | ⟨hMore, hTicks⟩⟩ := work_ticks hWork
  · have hNotes : ∀ info : CkptInfo,
        info.noteAll (Step.instr i).ticks = (info.noteAll faults).note (i.work true) := by
      intro info
      rw [hTicks, CkptInfo.noteAll_append]
      rfl
    obtain ⟨hEnd, hNum⟩ := h.work hDirect hStrict hFits hRunning hFaulty hNotes
    rw [hTicks]
    refine ⟨hEnd.saved, fun _ => ?_, fun _ => hEnd.state⟩
    rw [hNum, instrs_concat_length, if_pos rfl]
  · have hFree := hStart.resolve_left hMore
    have hNotes : ∀ info : CkptInfo,
        info.noteAll (Step.instr i).ticks = (info.noteAll faults).note (i.work false) := by
      intro info
      rw [hTicks, CkptInfo.noteAll_append, CkptInfo.noteAll_append]
      exact note_fence (info.noteAll faults) false i.after
    obtain ⟨hEnd, hNum⟩ := h.work hDirect hStrict hFits hRunning hFaulty hNotes
    rw [if_neg Bool.false_ne_true, Nat.add_zero] at hNum
    rw [hTicks, ticks_append]
    generalize ticks settings cpu (faults ++ [i.work false]) = closed at hEnd hNum ⊢
    cases hExited : closed.exited with
    | true =>
        rw [ticks_exited hExited]
        exact ⟨hEnd.saved, fun hNot => absurd (hExited ▸ hNot) (by decide),
          fun hNot => absurd (hExited ▸ hNot) (by decide)⟩
    | false =>
        -- the fence finds those pending that are not over
        have hLater : ∀ head ∈ (pendingAt (settings.ctrls.take closed.ckptidx)
            (instrs (done ++ [.instr i])).length).head?, (instrs done).length < head.lead := by
          intro head hHead
          have hLead := le_lead_head hHead
          rwa [instrs_concat_length] at hLead
        have hQuiet := hEnd.state.quiet hFits hNum hFree (instrs_concat_length done i).le hLater
        have hNoted : Noted closed [i.tick true false [] i.after] 1
            (ticks settings closed [i.tick true false [] i.after]) :=
          tick_quiet hDirect hStrict hExited (Or.inr hQuiet)
        refine ⟨hNoted.saved ▸ hEnd.saved, fun _ => ?_,
          fun _ => ⟨hNoted.ckptidx ▸ hEnd.state.started, ?_⟩⟩
        · rw [hNoted.numInst, hNum, instrs_concat_length]
        · rw [hNoted.pendingCkpts, hEnd.state.pendingCkpts, List.map_map, hNoted.ckptidx]
          apply List.map_congr_left
          intro ctrl hCtrl
          have hBefore := hEnd.state.started ctrl (List.mem_of_mem_filter hCtrl)
          rw [instrs_concat_length] at hBefore
          have hOld : ctrl.window.start < (instrs done).length :=
            Nat.lt_of_le_of_ne (Nat.le_of_lt_succ hBefore) (hFree ctrl (mem_of_pendingAt hCtrl))
          rw [Function.comp_apply, Window.recorded_concat hOld, hNotes]
          exact note_fence _ false i.after

/-- An instruction at whose number nothing happens. -/
theorem StrictRun.instr_quiet (hDirect : settings.readCkpt = none)
    (hStrict : settings.strictLength = true) (hFits : ∀ ctrl ∈ settings.ctrls, ctrl.lead < 2 ^ 64)
    (h : StrictRun settings.ctrls done cpu) (hRunning : cpu.exited = false)
    (hNumber : ∀ ctrl ∈ settings.ctrls,
      ctrl.start ≠ (instrs done).length ∧ ctrl.lead ≠ (instrs done).length) :
    StrictRun settings.ctrls (done ++ [.instr i]) (ticks settings cpu (Step.instr i).ticks) := by
  have hState := h.state hRunning
  have hLater : ∀ head ∈ (pendingAt (settings.ctrls.take cpu.ckptidx) (instrs done).length).head?,
      (instrs done).length < head.lead := by
    intro head hHead
    have hIn := mem_of_pendingAt (List.mem_of_mem_head? hHead)
    exact Nat.lt_of_le_of_ne (le_lead_head hHead) (hNumber head hIn).2.symm
  have hQuiet := hState.quiet hFits (h.numInst hRunning)
    (fun ctrl hCtrl => (hNumber ctrl hCtrl).1) (Nat.le_succ _) hLater
  have hNoted := ticks_quiet hDirect hStrict hRunning hQuiet i i.before i.shape.microops_ne_nil
  refine ⟨fun info hInfo => ?_, fun _ => ?_, fun _ => hState.noted hNoted ?_⟩
  · exact (h.saved info (hNoted.saved ▸ hInfo)).append _
  · exact hNoted.numInst.trans (by rw [h.numInst hRunning, instrs_concat_length])
  · rw [instrs_concat_length]
    exact waiting_not_due CkptCtrl.due_le_lead hLater

/-- A step of a plain run keeps the state of the strict loop right. -/
theorem StrictRun.step {step : Step} (hDirect : settings.readCkpt = none)
    (hStrict : settings.strictLength = true) {run : List Step}
    (hPlain : PlainWindows settings.ctrls run) (h : StrictRun settings.ctrls done cpu)
    (hDone : done ++ [step] <+: run) :
    StrictRun settings.ctrls (done ++ [step]) (ticks settings cpu step.ticks) := by
  cases hExited : cpu.exited with
  | true =>
      rw [ticks_exited hExited]
      exact ⟨fun info hInfo => (h.saved info hInfo).append _,
        fun hNot => absurd (hExited ▸ hNot) (by decide),
        fun hNot => absurd (hExited ▸ hNot) (by decide)⟩
  | false =>
      cases step with
      | ecall e =>
          have hFault : ∀ t ∈ (Step.ecall e).ticks, t.fault = true := by
            intro t ht
            rcases List.mem_append.mp ht with ht | ht
            · obtain ⟨events, -, rfl⟩ := List.mem_map.mp ht
              rfl
            · rw [List.mem_singleton.mp ht]
              rfl
          have hNoted := ticks_faults hDirect hStrict hExited hFault
          have hSame : instrs (done ++ [.ecall e]) = instrs done := by
            rw [instrs_append]
            exact List.append_nil _
          refine ⟨fun info hInfo => (h.saved info (hNoted.saved ▸ hInfo)).append _, fun _ => ?_,
            fun _ => (h.state hExited).noted hNoted (by rw [hSame])⟩
          rw [hNoted.numInst, h.numInst hExited, hSame, Nat.add_zero]
      | instr i =>
          have hNumber : (instrs run)[(instrs done).length]? = some i := by
            obtain ⟨after, rfl⟩ := hDone
            rw [List.append_assoc, instrs_append]
            simp [instrs]
          by_cases hStart : ∃ ctrl ∈ settings.ctrls, ctrl.start = (instrs done).length
          · obtain ⟨ctrl, hCtrl, hAt⟩ := hStart
            have hOne := hPlain.starts ctrl hCtrl i (hAt ▸ hNumber)
            exact h.instr_work hDirect hStrict hPlain.fits hExited (hOne ▸ rfl) (Or.inl hOne)
          · push Not at hStart
            by_cases hEnd : ∃ ctrl ∈ settings.ctrls, ctrl.lead = (instrs done).length
            · obtain ⟨ctrl, hCtrl, hAt⟩ := hEnd
              have hWork := hPlain.ends ctrl hCtrl i (hAt ▸ hNumber)
              exact h.instr_work hDirect hStrict hPlain.fits hExited hWork (Or.inr hStart)
            · push Not at hEnd
              exact h.instr_quiet hDirect hStrict hPlain.fits hExited fun ctrl hCtrl =>
                ⟨hStart ctrl hCtrl, hEnd ctrl hCtrl⟩

/-- The state of the strict loop is right behind every part of a plain run. -/
theorem strictRun (hDirect : settings.readCkpt = none) (hStrict : settings.strictLength = true)
    {run : List Step} (hPlain : PlainWindows settings.ctrls run) (hDone : done <+: run) :
    StrictRun settings.ctrls done (runSteps settings {} done) := by
  induction done using List.reverseRecOn with
  | nil =>
      refine ⟨fun info hInfo => absurd hInfo List.not_mem_nil, fun _ => rfl, fun _ => ⟨?_, rfl⟩⟩
      intro ctrl hCtrl
      exact absurd hCtrl List.not_mem_nil
  | append_singleton before step ih =>
      rw [runSteps_append, runSteps_cons]
      exact (ih ((List.prefix_append _ _).trans hDone)).step hDirect hStrict hPlain hDone

/-- If all entries have a positive length, the first one in the schedule that ends no earlier
closes the checkpoint. -/
theorem closedAt_positive (hPositive : ∀ ctrl ∈ ctrls, ctrl.start < ctrl.stop)
    {ctrl leader : CkptCtrl}
    (hCtrl : ctrl ∈ ctrls) (hLeader : ctrls.find? (fun other => ctrl.stop ≤ other.stop) =
      some leader) :
    closedAt ctrls ctrl = leader.stop := by
  have hDue : ∀ other ∈ ctrls, other.due = other.stop := fun other hOther =>
    Nat.max_eq_left (hPositive other hOther).le
  have hLead : ∀ other ∈ ctrls, other.lead = other.due := fun other hOther =>
    (Nat.max_eq_left (hPositive other hOther)).trans (hDue other hOther).symm
  have hFind : ctrls.find? (fun other => ctrl.due ≤ other.due) = some leader := by
    rw [← hLeader, ← List.head?_filter, ← List.head?_filter]
    congr 1
    apply List.filter_congr
    intro other hOther
    rw [hDue ctrl hCtrl, hDue other hOther]
  exact (release_first CkptCtrl.due_le_lead hLead hFind).trans
    (hDue leader (List.mem_of_find?_eq_some hLeader))

/-- A checkpoint is closed behind its start, at a number that the counter can hold. -/
theorem closedAt_bounds (hFits : ∀ ctrl ∈ ctrls, ctrl.lead < 2 ^ 64) {ctrl : CkptCtrl}
    (hCtrl : ctrl ∈ ctrls) :
    ctrl.start ≤ closedAt ctrls ctrl ∧ closedAt ctrls ctrl < 2 ^ 64 := by
  obtain ⟨hExit, hDue, -⟩ := release_least CkptCtrl.due_le_lead hCtrl
  obtain ⟨leader, hLeader, hLeads, -⟩ := exists_release CkptCtrl.due_le_lead hExit
  exact ⟨(Nat.le_max_right ..).trans hDue, lt_of_eq_of_lt hLeads.symm (hFits leader hLeader)⟩

/-- With `strictLength`, a checkpoint that is saved has its exact length if and only if it is
closed at the end of its entry: the heads of the queue are closed at the number of their end, or
behind their start if they end no later, and each takes along those that are over. -/
theorem strictLength_exact_iff (hDirect : settings.readCkpt = none)
    (hStrict : settings.strictLength = true) {run : List Step}
    (hPlain : PlainWindows settings.ctrls run) {info : CkptInfo}
    (hSaved : info ∈ (runSteps settings {} run).saved) :
    ∃ ctrl ∈ settings.ctrls, info.window = ctrl.window ∧
      (ExactLength run info ↔ closedAt settings.ctrls ctrl = ctrl.stop) := by
  obtain ⟨ctrl, hCtrl, before, last, after, rfl, hLast, hInfo⟩ :=
    (strictRun hDirect hStrict hPlain (List.prefix_refl run)).saved info hSaved
  have hStop := ctrl.stop_le_lead.trans_lt (hPlain.fits ctrl hCtrl)
  have hWindow : info.window = ctrl.window := by
    rw [hInfo]
    exact Window.recorded_window _ _
  have hStartnum : info.startnum = ctrl.start := congrArg Window.start hWindow
  have hLength : info.length = ctrl.window.length := congrArg Window.length hWindow
  obtain ⟨hBegun, hClosed⟩ := closedAt_bounds hPlain.fits hCtrl
  have hNums : info.simNums = closedAt settings.ctrls ctrl - ctrl.start := by
    have hRecorded : (ctrl.window.recorded (before ++ [.instr last])).startnum = ctrl.start :=
      congrArg Window.start (Window.recorded_window _ _)
    rw [hInfo]
    simp only [CkptInfo.close, hRecorded, uint64]
    omega
  refine ⟨ctrl, hCtrl, hWindow, fun hExact => ?_, fun hOwn => ⟨?_, ?_⟩⟩
  · have hSame := hExact.1
    rw [hNums, hLength] at hSame
    simp only [CkptCtrl.window, uint64] at hSame
    omega
  · rw [hNums, hLength, CkptCtrl.window_length (hOwn ▸ hBegun) hStop, hOwn]
  · have hOrder : ctrl.start ≤ ctrl.stop := hOwn ▸ hBegun
    rw [CkptCtrl.window_length hOrder hStop] at hLength
    rw [hOwn] at hInfo hLast
    rw [hWindow, hStartnum, hLength, Nat.add_sub_cancel' hOrder]
    obtain ⟨first, hFirst, hRecorded⟩ :=
      @Window.recorded_upTo ctrl.window before after last ctrl.stop hLast hOrder
    exact ⟨first, last.stack 0, hFirst, hInfo.trans (by rw [hRecorded]; rfl)⟩

end Runs

def nestedSettings : CkptSettings := { ctrls := [⟨0, 5, 0⟩, ⟨1, 3, 0⟩], strictLength := true }

def idleRun : List Step := (List.range 7).map fun k => idle (0x1000 + 4 * k) .plain

theorem nested_saved : (runSteps nestedSettings {} idleRun).sched.saved =
    [⟨⟨0, 5, 0⟩, 5, 0⟩, ⟨⟨1, 2, 0⟩, 4, 0⟩] := by
  rw [sched_runSteps rfl]
  decide +kernel

theorem strictLength_exact_outer :
    ∃ info ∈ (runSteps nestedSettings {} idleRun).saved, ExactLength idleRun info := by
  have hMem : (⟨⟨0, 5, 0⟩, 5, 0⟩ : Closed) ∈ (runSteps nestedSettings {} idleRun).sched.saved := by
    rw [nested_saved]
    exact List.mem_cons_self ..
  obtain ⟨info, hInfo, hClosed⟩ := List.mem_map.mp hMem
  have hOne : ∀ i ∈ instrs idleRun, i.shape.microops = [.op] := by
    intro i hi
    simp only [idleRun, List.range_succ, List.range_zero, List.nil_append, List.cons_append,
      List.map_cons, List.map_nil, idle, instrs, List.mem_cons, List.not_mem_nil, or_false] at hi
    rcases hi with rfl | rfl | rfl | rfl | rfl | rfl | rfl <;> rfl
  have hPlain : PlainWindows nestedSettings.ctrls idleRun := by
    refine ⟨by decide, fun ctrl _ i hi => hOne i (List.mem_of_getElem? hi), fun ctrl _ i hi => ?_⟩
    rw [hOne i (List.mem_of_getElem? hi), List.head?_cons]
  obtain ⟨ctrl, hCtrl, hWindow, hExact⟩ := strictLength_exact_iff rfl rfl hPlain hInfo
  have hStart : ctrl.start = 0 :=
    (congrArg Window.start hWindow).symm.trans (congrArg (fun c => c.window.start) hClosed)
  refine ⟨info, hInfo, hExact.mpr ?_⟩
  rcases List.mem_cons.mp hCtrl with rfl | hOther
  · exact closedAt_positive (by decide) hCtrl rfl
  · rw [List.mem_singleton.mp hOther] at hStart
    exact absurd hStart (by decide)

/-- The nested checkpoint is closed with the outer one, two instructions late. -/
theorem strictLength_nested_late :
    ∃ info ∈ (runSteps nestedSettings {} idleRun).saved,
      info.length = 2 ∧ info.simNums = 4 ∧ ¬ ExactLength idleRun info := by
  have hMem : (⟨⟨1, 2, 0⟩, 4, 0⟩ : Closed) ∈ (runSteps nestedSettings {} idleRun).sched.saved := by
    rw [nested_saved]
    exact List.mem_cons_of_mem _ (List.mem_cons_self ..)
  obtain ⟨info, hInfo, hClosed⟩ := List.mem_map.mp hMem
  have hLength : info.length = 2 := congrArg (fun c => c.window.length) hClosed
  have hNums : info.simNums = 4 := congrArg Closed.simNums hClosed
  refine ⟨info, hInfo, hLength, hNums, fun hExact => ?_⟩
  have hSame := hExact.1
  omega

end RiscvCkpt
