import RiscvCkpt.Cpu.Tick

/-! Runs of the simulated program, as instructions and system calls, and the
ticks that the simulator makes of them. -/
namespace RiscvCkpt

/-- How the simulator executes an instruction: as it is, or as the micro-ops of
an atomic memory operation (AMO, LR or SC) with its two ordering bits. -/
inductive Shape where
  | plain
  | atomic (aq rl : Bool)
  deriving DecidableEq, Repr

inductive Microop where
  | fence
  | op
  deriving DecidableEq, Repr

/-- The list `microops` of the macro constructors of `amo.isa`. -/
def Shape.microops : Shape → List Microop
  | .plain => [.op]
  | .atomic aq rl =>
      if rl && aq then [.fence, .op, .fence]
      else if rl then [.fence, .op]
      else if aq then [.op, .fence]
      else [.op]

/-- An executed instruction. Its operation may be tried several times before it
goes through; `faults` holds the calls of the recording hooks of each attempt
that returned a fault, and `events` those of the last one. Fences change no
register and access no memory. -/
structure Instr where
  pc : Nat
  npc : Nat
  shape : Shape
  isCompressed : Bool
  faults : List (List Event)
  events : List Event
  before : Regs
  after : Regs
  stack : Nat → Nat → UInt8

def Instr.tick (i : Instr) (counts fault : Bool) (events : List Event) (regs : Regs) : Tick where
  pc := i.pc
  npc := i.npc
  isSyscall := false
  isCompressed := i.isCompressed
  counts := counts
  fault := fault
  events := events
  regs := regs
  stack := i.stack

/-- The ticks of the remaining micro-ops, from the given registers on. -/
def Instr.microTicks (i : Instr) (regs : Regs) : List Microop → List Tick
  | [] => []
  | .fence :: rest => i.tick rest.isEmpty false [] regs :: i.microTicks regs rest
  | .op :: rest =>
      i.faults.map (fun events => i.tick rest.isEmpty true events regs) ++
        i.tick rest.isEmpty false i.events i.after :: i.microTicks i.after rest

/-- A system call that the program passes. It returns a fault in every tick, and
may be retried. -/
structure Ecall where
  pc : Nat
  npc : Nat
  isCompressed : Bool
  retries : List (List Event)
  events : List Event
  regs : Regs
  stack : Nat → Nat → UInt8

def Ecall.tick (e : Ecall) (events : List Event) : Tick where
  pc := e.pc
  npc := e.npc
  isSyscall := true
  isCompressed := e.isCompressed
  counts := true
  fault := true
  events := events
  regs := e.regs
  stack := e.stack

inductive Step where
  | instr (i : Instr)
  | ecall (e : Ecall)

def Step.ticks : Step → List Tick
  | .instr i => i.microTicks i.before i.shape.microops
  | .ecall e => e.retries.map e.tick ++ [e.tick e.events]

def runSteps (settings : CkptSettings) (cpu : Cpu) (run : List Step) : Cpu :=
  ticks settings cpu (run.flatMap Step.ticks)

/-- The instructions of a run in order; instruction number `n` is the `n`-th of them. -/
def instrs : List Step → List Instr
  | [] => []
  | .instr i :: rest => i :: instrs rest
  | .ecall _ :: rest => instrs rest

@[simp] theorem instrs_append (xs ys : List Step) : instrs (xs ++ ys) = instrs xs ++ instrs ys := by
  induction xs with
  | nil => rfl
  | cons step rest ih =>
      cases step with
      | instr i => exact congrArg (i :: ·) ih
      | ecall e => exact ih

theorem instrs_concat_length (xs : List Step) (i : Instr) :
    (instrs (xs ++ [.instr i])).length = (instrs xs).length + 1 := by
  rw [instrs_append, List.length_append]
  rfl

theorem ticks_append (settings : CkptSettings) (cpu : Cpu) (xs ys : List Tick) :
    ticks settings cpu (xs ++ ys) = ticks settings (ticks settings cpu xs) ys :=
  List.foldl_append

theorem runSteps_append (settings : CkptSettings) (cpu : Cpu) (xs ys : List Step) :
    runSteps settings cpu (xs ++ ys) = runSteps settings (runSteps settings cpu xs) ys := by
  rw [runSteps, List.flatMap_append, ticks_append, runSteps, runSteps]

theorem runSteps_cons (settings : CkptSettings) (cpu : Cpu) (step : Step) (rest : List Step) :
    runSteps settings cpu (step :: rest) = runSteps settings
      (ticks settings cpu step.ticks) rest := by
  rw [runSteps, List.flatMap_cons, ticks_append, runSteps]

theorem Shape.microops_ne_nil (shape : Shape) : shape.microops ≠ [] := by
  cases shape with
  | plain => decide
  | atomic aq rl => cases aq <;> cases rl <;> decide

/-- In front of the tick in which a micro-op goes through there are only faults. -/
theorem microTicks_cons (i : Instr) (regs : Regs) (m : Microop) (more : List Microop) :
    ∃ (faults : List Tick) (events : List Event) (regs' : Regs),
      (∀ t ∈ faults, t.fault = true ∧ t.pc = i.pc) ∧
      i.microTicks regs (m :: more) =
        faults ++ i.tick more.isEmpty false events regs' :: i.microTicks regs' more := by
  cases m with
  | fence => exact ⟨[], [], regs, by simp, rfl⟩
  | op =>
      refine ⟨_, i.events, i.after, ?_, rfl⟩
      intro t ht
      obtain ⟨events, -, rfl⟩ := List.mem_map.mp ht
      exact ⟨rfl, rfl⟩

def idle (pc : Nat) (shape : Shape) : Step :=
  .instr { pc := pc, npc := pc + 4, shape := shape, isCompressed := false, faults := [],
           events := [], before := ⟨[], []⟩, after := ⟨[], []⟩, stack := fun _ _ => 0 }

end RiscvCkpt
