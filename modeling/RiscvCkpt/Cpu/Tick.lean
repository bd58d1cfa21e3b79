import RiscvCkpt.Create.Interval
import RiscvCkpt.Restore.TakeoverSyscall

/-! The checkpoint logic of the simulator's main loop, `AtomicSimpleCPU::tick`:
which instructions and accesses are recorded, when a checkpoint starts and when
it is closed. -/
namespace RiscvCkpt

open ByteCodec MachineInt

/-- An entry of the schedule; `stop` is the source's `end`. -/
structure CkptCtrl where
  start : Nat
  stop : Nat
  warmup : Nat
  deriving DecidableEq, Repr

/-- What `initCkptSysInfo` keeps of the checkpoint that a re-creating run executes. -/
structure ReadCkpt where
  textstart : Nat
  textend : Nat
  instMap : List UInt8
  callinfo : List UInt8
  deriving DecidableEq, Repr

def ReadCkpt.isCkptInst (ckpt : ReadCkpt) (addr : Nat) : Bool :=
  if addr ≥ ckpt.textend ∨ addr < ckpt.textstart then false
  else
    let mapidx := uint32 ((addr / 4096 : Nat) - (ckpt.textstart / 4096 : Nat))
    ckpt.instMap.getD mapidx 0 = 1

/-- `ckpt_insert_syscall`: the calls of the recording hooks that repeat a recorded
system call; `none` where the source exits. -/
def ReadCkpt.insertSyscall (ckpt : ReadCkpt) (sysidx : Nat) : Option (List Event) :=
  let totalcallnum := wordAt 8 ckpt.callinfo 0
  if sysidx > totalcallnum then none
  else if sysidx = totalcallnum then some []
  else
    let infos := recordAt ckpt.callinfo
      (8 + totalcallnum * 4 + wordAt 4 ckpt.callinfo (8 + 4 * sysidx) * 40)
    let data_offset := infos.data_offset / 2 ^ 8
    let hasData := data_offset ≠ 0xffffffff
    let bufaddr := if hasData then wordAt 8 ckpt.callinfo data_offset else 0
    let data :=
      if hasData then (ckpt.callinfo.drop (data_offset + 8)).take (infos.num % 2 ^ 32) else []
    some [.sysenter infos.pc (infos.num / 2 ^ 32) [infos.p0, infos.p0, infos.p0],
      .sysexe infos.pc infos.ret bufaddr data,
      .sysret infos.pc (infos.data_offset % 256 = 1) infos.ret]

/-- The settings that the main loop reads. -/
structure CkptSettings where
  ctrls : List CkptCtrl
  strictLength : Bool := false
  readCkpt : Option ReadCkpt := none

structure Regs where
  intregs : List Nat
  fpregs : List Nat
  deriving DecidableEq, Repr

/-- What one tick executes: a whole instruction or one micro-op of it. `counts`
stands for `!isMicroop() || isLastMicroop()`, `npc` and `regs` are the next pc
and the registers after the execution, and `events` are the calls that it makes
of the recording hooks. `stack` is what their uninitialised arrays hold. -/
structure Tick where
  pc : Nat
  npc : Nat
  isSyscall : Bool
  isCompressed : Bool
  counts : Bool
  fault : Bool
  events : List Event
  regs : Regs
  stack : Nat → Nat → UInt8

/-- The variables of the main loop. `saved` collects the checkpoints that have
been written; `exited` is set once the simulator has called `exit`. -/
structure Cpu where
  numInst : Nat := 0
  preinsts : Finset Nat := ∅
  benchinsts : Nat := 0
  takeSysNum : Nat := 0
  lastIsBenchInst : Bool := false
  pendingCkpts : List CkptInfo := []
  ckptidx : Nat := 0
  saved : List CkptInfo := []
  exited : Bool := false

/-- `isBenchInst`; without a checkpoint to re-create from it stays `false`. -/
def CkptSettings.isBenchInst (settings : CkptSettings) (pc : Nat) : Bool :=
  match settings.readCkpt with
  | none => false
  | some ckpt => ckpt.isCkptInst pc

/-- Only the benchmark's own instructions matter in a re-creating run. -/
def CkptSettings.relevant (settings : CkptSettings) (pc : Nat) : Bool :=
  settings.readCkpt.isNone || settings.isBenchInst pc

namespace Cpu

def hasValidCkpt (cpu : Cpu) : Bool := cpu.pendingCkpts ≠ []

/-- Recording hooks reach every pending checkpoint. -/
def hookAll (stack : Nat → Nat → UInt8) (events : List Event) (cpu : Cpu) : Cpu :=
  { cpu with pendingCkpts := cpu.pendingCkpts.map fun info => info.hooks stack events }

def countInst (t : Tick) (cpu : Cpu) : Cpu :=
  if t.counts then { cpu with numInst := cpu.numInst + 1 } else cpu

/-- The part of `tick` for re-creating runs: count the benchmark's instructions,
and repeat a system call whenever control leaves its text. -/
def noteBench (settings : CkptSettings) (t : Tick) (cpu : Cpu) : Cpu :=
  match settings.readCkpt with
  | none => cpu
  | some ckpt =>
      let isBenchInst := ckpt.isCkptInst t.pc
      let cpu := if isBenchInst then { cpu with benchinsts := cpu.benchinsts + 1 } else cpu
      let cpu :=
        if !isBenchInst && cpu.lastIsBenchInst then
          match ckpt.insertSyscall cpu.takeSysNum with
          | none => { cpu with exited := true }
          | some events =>
              { cpu.hookAll t.stack events with takeSysNum := cpu.takeSysNum + 1, preinsts := ∅ }
        else cpu
      { cpu with lastIsBenchInst := isBenchInst }

/-- `isCkptStart`: the length of the checkpoint that starts now. -/
def isCkptStart (ctrls : List CkptCtrl) (simNum : Nat) (cpu : Cpu) : Option Nat :=
  match ctrls[cpu.ckptidx]? with
  | none => none
  | some ctrl =>
      if simNum = ctrl.start then some (uint64 ((ctrl.stop : Int) - ctrl.start)) else none

/-- `addCkpt`, after `isCkptStart` has moved the cursor. -/
def addCkpt (ctrls : List CkptCtrl) (startnum length : Nat) (t : Tick) (cpu : Cpu) : Cpu :=
  let warmup := (ctrls.getD (cpu.ckptidx - 1) ⟨0, 0, 0⟩).warmup
  let info := CkptInfo.create startnum length warmup t.regs.intregs t.regs.fpregs t.pc t.npc
  { cpu with pendingCkpts := cpu.pendingCkpts ++ [info] }

/-- Start the next checkpoint if its time has come. -/
def startCkpt (ctrls : List CkptCtrl) (numInst : Nat) (t : Tick) (cpu : Cpu) : Cpu :=
  match cpu.isCkptStart ctrls numInst with
  | none => cpu
  | some length => { cpu with ckptidx := cpu.ckptidx + 1 }.addCkpt ctrls numInst length t

/-- `ckpt_detectOver`: close and save every pending checkpoint that is over, and
exit behind the last one. -/
def ckptDetectOver (ctrls : List CkptCtrl) (exist : Nat → UInt8) (exit_place exit_pc : Nat)
    (cpu : Cpu) : Cpu :=
  let closed := cpu.pendingCkpts.filterMap fun info => info.detectOver exist exit_place exit_pc
  let left := cpu.pendingCkpts.filter fun info => (info.detectOver exist exit_place exit_pc).isNone
  { cpu with
    pendingCkpts := left
    saved := cpu.saved ++ closed
    exited := left = [] ∧ cpu.ckptidx = ctrls.length }

/-- `numInst >= pendingCkpts[0]->startnum + pendingCkpts[0]->length`. -/
def firstOver (numInst : Nat) (cpu : Cpu) : Bool :=
  match cpu.pendingCkpts with
  | [] => false
  | info :: _ => numInst ≥ (info.startnum + info.length) % 2 ^ 64

/-- The end test of `tick` and the note of the instructions seen. -/
def endCkpt (settings : CkptSettings) (numInst : Nat) (t : Tick) (cpu : Cpu) : Cpu :=
  let closed :=
    if cpu.firstOver numInst then
      if settings.strictLength then cpu.ckptDetectOver settings.ctrls (t.stack 0) numInst 0
      else if !t.isCompressed && !t.isSyscall && t.pc ∉ cpu.preinsts then
        cpu.ckptDetectOver settings.ctrls (t.stack 0) numInst t.pc
      else cpu
    else cpu
  if !t.isCompressed && !settings.strictLength then
    { closed with preinsts := insert t.pc closed.preinsts }
  else closed

end Cpu

/-- One round of `AtomicSimpleCPU::tick`. The number that the tests see is the
count before the instruction, or in a re-creating run the count of benchmark
steps with this one. -/
def tick (settings : CkptSettings) (cpu : Cpu) (t : Tick) : Cpu :=
  if cpu.exited then cpu
  else
    let cleared := if t.isSyscall then { cpu with preinsts := ∅ } else cpu
    let startlog := cleared.hasValidCkpt && settings.relevant t.pc
    let hooked := if startlog then cleared.hookAll t.stack t.events else cleared
    if t.fault then hooked
    else
      let numInst := if settings.isBenchInst t.pc then hooked.benchinsts + 1 else hooked.numInst
      let counted := (hooked.countInst t).noteBench settings t
      let noted := if startlog then counted.hookAll t.stack [.inst t.pc] else counted
      let started :=
        if settings.relevant t.pc then noted.startCkpt settings.ctrls numInst t else noted
      if startlog then started.endCkpt settings numInst t else started

def ticks (settings : CkptSettings) (cpu : Cpu) (ts : List Tick) : Cpu :=
  ts.foldl (tick settings) cpu

/-- The part of `tick` that is left without a checkpoint to re-create from. -/
def directTick (settings : CkptSettings) (cpu : Cpu) (t : Tick) : Cpu :=
  let cleared := if t.isSyscall then { cpu with preinsts := ∅ } else cpu
  let hooked := if cpu.hasValidCkpt then cleared.hookAll t.stack t.events else cleared
  if t.fault then hooked
  else
    let counted := hooked.countInst t
    let noted := if cpu.hasValidCkpt then counted.hookAll t.stack [.inst t.pc] else counted
    let started := noted.startCkpt settings.ctrls cpu.numInst t
    if cpu.hasValidCkpt then started.endCkpt settings cpu.numInst t else started

section Direct

variable {settings : CkptSettings} (hDirect : settings.readCkpt = none)

include hDirect

/-- Without a checkpoint to re-create from, no instruction is the benchmark's. -/
theorem isBenchInst_direct (pc : Nat) : settings.isBenchInst pc = false := by
  simp only [CkptSettings.isBenchInst, hDirect]

theorem relevant_direct (pc : Nat) : settings.relevant pc = true := by
  simp only [CkptSettings.relevant, hDirect, Option.isNone_none, Bool.true_or]

theorem noteBench_direct (t : Tick) (cpu : Cpu) : cpu.noteBench settings t = cpu := by
  simp only [Cpu.noteBench, hDirect]

/-- Without a checkpoint to re-create from, a tick is the direct part of it. -/
theorem tick_eq_directTick {cpu : Cpu} (t : Tick) (hRunning : cpu.exited = false) :
    tick settings cpu t = directTick settings cpu t := by
  have hValid : (if t.isSyscall then { cpu with preinsts := ∅ } else cpu).hasValidCkpt =
      cpu.hasValidCkpt := by
    split <;> rfl
  have hNum : ∀ valid : Bool, (if valid then
      (if t.isSyscall then { cpu with preinsts := ∅ } else cpu).hookAll t.stack t.events
      else if t.isSyscall then { cpu with preinsts := ∅ } else cpu).numInst = cpu.numInst := by
    intro valid
    cases valid <;> cases t.isSyscall <;> rfl
  rw [tick, if_neg (Bool.eq_false_iff.mp hRunning)]
  simp only [isBenchInst_direct hDirect, relevant_direct hDirect, noteBench_direct hDirect,
    hValid, hNum, Bool.and_true, Bool.false_eq_true, if_false, if_true, directTick]

end Direct

/-- Calls of the recording hooks that are made only for relevant instructions. -/
def CkptSettings.own (settings : CkptSettings) (t : Tick) (events : List Event) : List Event :=
  if settings.relevant t.pc then events else []

namespace Cpu

/-- The system call that a re-creating run repeats in the tick. -/
def repeated (settings : CkptSettings) (cpu : Cpu) (t : Tick) : List Event :=
  match settings.readCkpt with
  | none => []
  | some ckpt =>
      if !ckpt.isCkptInst t.pc && cpu.lastIsBenchInst then
        (ckpt.insertSyscall cpu.takeSysNum).getD []
      else []

/-- The number that the tests of `tick` see. -/
def number (settings : CkptSettings) (cpu : Cpu) (t : Tick) : Nat :=
  if settings.isBenchInst t.pc then cpu.benchinsts + 1 else cpu.numInst

end Cpu

section Hooks

variable {settings : CkptSettings} {cpu : Cpu} {t : Tick}

theorem hookAll_nil (stack : Nat → Nat → UInt8) (cpu : Cpu) : cpu.hookAll stack [] = cpu := by
  rw [Cpu.hookAll]
  simp only [CkptInfo.hooks, List.map_id']

theorem hookAll_none (stack : Nat → Nat → UInt8) (events : List Event) (h : cpu.pendingCkpts = []) :
    cpu.hookAll stack events = cpu := by
  rw [Cpu.hookAll, h, List.map_nil, ← h]

/-- The hooks for relevant instructions, whether or not a checkpoint is pending. -/
theorem hookIf_own {valid : Bool} (hNone : valid = false → cpu.pendingCkpts = [])
    (events : List Event) :
    (if valid && settings.relevant t.pc then cpu.hookAll t.stack events else cpu) =
      cpu.hookAll t.stack (settings.own t events) := by
  rw [CkptSettings.own]
  cases settings.relevant t.pc with
  | false => rw [Bool.and_false, if_neg Bool.false_ne_true, if_neg Bool.false_ne_true, hookAll_nil]
  | true =>
      rw [Bool.and_true, if_pos rfl]
      cases valid with
      | true => rfl
      | false => rw [if_neg Bool.false_ne_true, hookAll_none _ _ (hNone rfl)]

/-- What the note of a benchmark instruction changes: the records of the pending checkpoints. -/
theorem noteBench_fields (settings : CkptSettings) (cpu : Cpu) (t : Tick) :
    (cpu.noteBench settings t).pendingCkpts =
      cpu.pendingCkpts.map (fun info => info.hooks t.stack (cpu.repeated settings t)) ∧
    (cpu.noteBench settings t).saved = cpu.saved ∧
    (cpu.noteBench settings t).ckptidx = cpu.ckptidx := by
  have hQuiet : cpu.pendingCkpts.map (fun info => info.hooks t.stack []) = cpu.pendingCkpts :=
    congrArg Cpu.pendingCkpts (hookAll_nil t.stack cpu)
  cases hRead : settings.readCkpt with
  | none =>
      simp only [Cpu.noteBench, Cpu.repeated, hRead]
      exact ⟨hQuiet.symm, trivial, trivial⟩
  | some ckpt =>
      cases hInst : ckpt.isCkptInst t.pc with
      | true =>
          simp only [Cpu.noteBench, Cpu.repeated, hRead, hInst, if_true, Bool.not_true,
            Bool.false_and, Bool.false_eq_true, if_false]
          exact ⟨hQuiet.symm, trivial, trivial⟩
      | false =>
          simp only [Cpu.noteBench, Cpu.repeated, hRead, hInst, Bool.false_eq_true, if_false,
            Bool.not_false, Bool.true_and]
          cases cpu.lastIsBenchInst with
          | false => exact ⟨hQuiet.symm, rfl, rfl⟩
          | true =>
              cases ckpt.insertSyscall cpu.takeSysNum with
              | none => exact ⟨hQuiet.symm, rfl, rfl⟩
              | some events => exact ⟨rfl, rfl, rfl⟩

/-- `tick` with hooks that say themselves which calls they pass on. -/
theorem tick_eq_own (hRunning : cpu.exited = false) :
    ∃ seen, tick settings cpu t =
      let hooked := { cpu with preinsts := seen }.hookAll t.stack (settings.own t t.events)
      if t.fault then hooked
      else
        let counted := { hooked with numInst := if t.counts then cpu.numInst + 1 else cpu.numInst }
        let noted := (counted.noteBench settings t).hookAll t.stack (settings.own t [.inst t.pc])
        let started := if settings.relevant t.pc then
          noted.startCkpt settings.ctrls (cpu.number settings t) t else noted
        if cpu.hasValidCkpt && settings.relevant t.pc then
          started.endCkpt settings (cpu.number settings t) t else started := by
  obtain ⟨seen, hCleared⟩ : ∃ seen, (if t.isSyscall then { cpu with preinsts := ∅ } else cpu) =
      { cpu with preinsts := seen } := by
    cases t.isSyscall with
    | true => exact ⟨∅, rfl⟩
    | false => exact ⟨cpu.preinsts, rfl⟩
  -- without a pending checkpoint the hooks reach nothing
  have hNone : cpu.hasValidCkpt = false → cpu.pendingCkpts = [] := by
    simp [Cpu.hasValidCkpt]
  have hFirst := @hookIf_own settings { cpu with preinsts := seen } t _ hNone t.events
  generalize hHooked : { cpu with preinsts := seen }.hookAll t.stack (settings.own t t.events) =
    hooked at hFirst
  have hCount : hooked.countInst t =
      { hooked with numInst := if t.counts then cpu.numInst + 1 else cpu.numInst } := by
    rw [Cpu.countInst, ← hHooked]
    cases t.counts <;> rfl
  have hNumber : (if settings.isBenchInst t.pc then hooked.benchinsts + 1 else hooked.numInst) =
      cpu.number settings t := by
    rw [← hHooked]
    rfl
  have hSecond := @hookIf_own settings ((hooked.countInst t).noteBench settings t) t
    cpu.hasValidCkpt (fun h => by
      rw [(noteBench_fields settings _ t).1, hCount, ← hHooked, Cpu.hookAll, hNone h, List.map_nil,
        List.map_nil])
    [.inst t.pc]
  rw [hCount] at hSecond
  have hValid : ({ cpu with preinsts := seen } : Cpu).hasValidCkpt = cpu.hasValidCkpt := rfl
  refine ⟨seen, ?_⟩
  rw [tick, if_neg (Bool.eq_false_iff.mp hRunning), hCleared]
  simp only [hValid, hFirst, hHooked, hSecond, hCount, hNumber]

end Hooks

end RiscvCkpt
