import RiscvCkpt.Cpu.StartState

/-! Creating a checkpoint from a checkpoint. The simulator runs the loader, which
replays the benchmark with a jump in place of every system call, and counts the
steps that it makes inside the benchmark's text. -/
namespace RiscvCkpt

/-- A step of the benchmark with what the re-creating run makes of it. A system
call has become a jump to `midPoint`, and the loader takes over from there. -/
inductive ReplayItem where
  | instr (i : Instr)
  | ecall (e : Ecall) (midPoint : Nat) (serve : List Tick)

namespace ReplayItem

def step : ReplayItem → Step
  | instr i => .instr i
  | ecall e _ _ => .ecall e

def jump (e : Ecall) (midPoint : Nat) : Tick where
  pc := e.pc
  npc := midPoint
  isSyscall := false
  isCompressed := false
  counts := true
  fault := false
  events := []
  regs := e.regs
  stack := e.stack

def ticks : ReplayItem → List Tick
  | instr i => i.microTicks i.before i.shape.microops
  | ecall e midPoint serve => jump e midPoint :: serve

/-- The benchmark executes inside its text, the loader outside. -/
def InText (ckpt : ReadCkpt) : ReplayItem → Prop
  | instr i => ckpt.isCkptInst i.pc = true
  | ecall e _ serve => ckpt.isCkptInst e.pc = true ∧ ∀ t ∈ serve, ckpt.isCkptInst t.pc = false

/-- An instruction that is executed in one tick. -/
def Single : ReplayItem → Prop
  | instr i => i.shape.microops.length = 1
  | ecall _ _ _ => False

end ReplayItem

/-- A re-creating run: the loader's own start, and then the benchmark from the
saved start on. -/
structure Recreation (ckpt : ReadCkpt) where
  boot : List Tick
  items : List ReplayItem
  boot_outside : ∀ t ∈ boot, ckpt.isCkptInst t.pc = false
  items_inside : ∀ item ∈ items, item.InText ckpt

/-- Where a checkpoint begins: the step of the benchmark that starts it, the saved
next pc, and the start number that is saved with it. -/
structure Began where
  item : Option Nat
  npc : Nat
  startnum : Nat
  deriving DecidableEq, Repr

/-- The beginning of the first checkpoint in a list of ticks, each with the step
that it belongs to. `ckptstartnum` is added to the number when it is saved. -/
def began (settings : CkptSettings) (ckptstartnum : Nat) :
    Cpu → List (Option Nat × Tick) → Option Began
  | _, [] => none
  | cpu, (item, t) :: rest =>
      if (tick settings cpu t).ckptidx ≠ cpu.ckptidx then
        some ⟨item, t.npc, ckptstartnum +
          if settings.isBenchInst t.pc then cpu.benchinsts + 1 else cpu.numInst⟩
      else began settings ckptstartnum (tick settings cpu t) rest

def labelled (ticks : ReplayItem → List Tick) : Nat → List ReplayItem → List (Option Nat × Tick)
  | _, [] => []
  | d, item :: rest => (ticks item).map (fun t => (some d, t)) ++ labelled ticks (d + 1) rest

/-- Direct creation: the benchmark up to the instruction `first`, from which the
old checkpoint starts, and on. Step 0 is `first` itself. -/
def directBegan (strictLength : Bool) (ctrl : CkptCtrl) (before : List Step) (first : Instr)
    (items : List ReplayItem) : Option Began :=
  began { ctrls := [ctrl], strictLength := strictLength } 0 {}
    ((before.flatMap Step.ticks).map (fun t => (none, t)) ++
      ((Step.instr first).ticks.map (fun t => (some 0, t)) ++
        labelled (fun item => item.step.ticks) 1 items))

/-- Creation from the old checkpoint, whose saved start is `ckptstartnum`. -/
def recreatedBegan (strictLength : Bool) (ctrl : CkptCtrl) {ckpt : ReadCkpt} (ckptstartnum : Nat)
    (recreation : Recreation ckpt) : Option Began :=
  began { ctrls := [ctrl], strictLength := strictLength, readCkpt := some ckpt } ckptstartnum {}
    (recreation.boot.map (fun t => (none, t)) ++ labelled ReplayItem.ticks 1 recreation.items)

structure Idle (cpu : Cpu) : Prop where
  pending : cpu.pendingCkpts = []
  ckptidx : cpu.ckptidx = 0
  exited : cpu.exited = false

section Idle

variable {strict : Bool} {ctrl : CkptCtrl} {cpu : Cpu} {ckptstartnum : Nat} {item : Option Nat}
  {t : Tick} {rest : List (Option Nat × Tick)}

/-- Behind `exit` nothing starts. -/
theorem began_exited {settings : CkptSettings} (h : cpu.exited = true) :
    began settings ckptstartnum cpu rest = none := by
  induction rest with
  | nil => rfl
  | cons head rest ih => rw [began, tick_exited h, if_neg (by simp), ih]

/-- The part of `tick` that is left while no checkpoint exists. -/
def idleTick (settings : CkptSettings) (cpu : Cpu) (t : Tick) : Cpu :=
  let cleared := if t.isSyscall then { cpu with preinsts := ∅ } else cpu
  if t.fault then cleared
  else
    let numInst := if settings.isBenchInst t.pc then cpu.benchinsts + 1 else cpu.numInst
    let counted := (cleared.countInst t).noteBench settings t
    if settings.relevant t.pc then counted.startCkpt settings.ctrls numInst t else counted

/-- A tick without a checkpoint is the idle part of it. -/
theorem tick_idle {settings : CkptSettings} (hIdle : Idle cpu) :
    tick settings cpu t = idleTick settings cpu t := by
  have hCleared : ∀ cleared : Cpu,
      cleared = (if t.isSyscall then { cpu with preinsts := ∅ } else cpu) →
      cleared.hasValidCkpt = false ∧ cleared.benchinsts = cpu.benchinsts ∧
        cleared.numInst = cpu.numInst := by
    intro cleared hEq
    subst hEq
    split
    · exact ⟨by simp [Cpu.hasValidCkpt, hIdle.pending], rfl, rfl⟩
    · exact ⟨by simp [Cpu.hasValidCkpt, hIdle.pending], rfl, rfl⟩
  obtain ⟨hNone, hBench, hNum⟩ := hCleared _ rfl
  rw [tick, if_neg (Bool.eq_false_iff.mp hIdle.exited)]
  simp only [hNone, Bool.false_and, Bool.false_eq_true, if_false, hBench, hNum, idleTick]

/-- Counting leaves the machine idle, or ends it where the loader has run out of
system calls. -/
structure Counted (settings : CkptSettings) (t : Tick) (cpu counted : Cpu) : Prop where
  pending : counted.pendingCkpts = []
  ckptidx : counted.ckptidx = 0
  exited : counted.exited = false ∨ settings.relevant t.pc = false
  numInst : counted.numInst = cpu.numInst + if t.counts = true then 1 else 0
  benchinsts : counted.benchinsts =
      cpu.benchinsts + if settings.isBenchInst t.pc = true then 1 else 0

theorem noteBench_idle {settings : CkptSettings} (hIdle : Idle cpu) :
    (cpu.noteBench settings t).pendingCkpts = [] ∧ (cpu.noteBench settings t).ckptidx = 0 ∧
    ((cpu.noteBench settings t).exited = false ∨ settings.relevant t.pc = false) ∧
    (cpu.noteBench settings t).numInst = cpu.numInst ∧
    (cpu.noteBench settings t).benchinsts =
      cpu.benchinsts + if settings.isBenchInst t.pc = true then 1 else 0 := by
  cases hRead : settings.readCkpt with
  | none =>
      simp only [Cpu.noteBench, CkptSettings.isBenchInst, hRead, Bool.false_eq_true, if_false]
      exact ⟨hIdle.pending, hIdle.ckptidx, Or.inl hIdle.exited, trivial, rfl⟩
  | some ckpt =>
      cases hInst : ckpt.isCkptInst t.pc with
      | true =>
          simp only [Cpu.noteBench, CkptSettings.isBenchInst, hRead, hInst, if_true, Bool.not_true,
            Bool.false_and, Bool.false_eq_true, if_false]
          exact ⟨hIdle.pending, hIdle.ckptidx, Or.inl hIdle.exited, trivial, trivial⟩
      | false =>
          have hOut : settings.relevant t.pc = false := by
            simp only [CkptSettings.relevant, CkptSettings.isBenchInst, hRead, hInst,
              Option.isNone_some, Bool.or_self]
          simp only [Cpu.noteBench, CkptSettings.isBenchInst, hRead, hInst, Bool.false_eq_true,
            if_false, Bool.not_false, Bool.true_and]
          split
          · split
            · exact ⟨hIdle.pending, hIdle.ckptidx, Or.inr hOut, rfl, rfl⟩
            · apply And.intro
              · simp only [Cpu.hookAll, hIdle.pending, List.map_nil]
              · exact ⟨hIdle.ckptidx, Or.inr hOut, rfl, rfl⟩
          · exact ⟨hIdle.pending, hIdle.ckptidx, Or.inr hOut, rfl, rfl⟩

theorem counted_idle (settings : CkptSettings) (t : Tick) (hIdle : Idle cpu) :
    Counted settings t cpu
      (((if t.isSyscall then { cpu with preinsts := ∅ } else cpu).countInst t).noteBench
        settings t) := by
  have hFirst : ∀ start : Cpu,
      start = (if t.isSyscall then { cpu with preinsts := ∅ } else cpu).countInst t →
      Idle start ∧ start.numInst = cpu.numInst + (if t.counts = true then 1 else 0) ∧
      start.benchinsts = cpu.benchinsts := by
    intro start hStart
    subst hStart
    simp only [Cpu.countInst]
    split <;> split <;> exact ⟨⟨hIdle.pending, hIdle.ckptidx, hIdle.exited⟩, rfl, rfl⟩
  obtain ⟨hStart, hNum, hBench⟩ := hFirst _ rfl
  obtain ⟨hPending, hIdx, hExited, hSameNum, hMore⟩ := @noteBench_idle _ t settings hStart
  exact ⟨hPending, hIdx, hExited, hSameNum.trans hNum, by rw [hMore, hBench]⟩

/-- With one entry in the schedule, the cursor moves exactly when its number has come. -/
theorem startCkpt_single {n : Nat} (hIdx : cpu.ckptidx = 0) :
    (n = ctrl.start → (cpu.startCkpt [ctrl] n t).ckptidx = 1) ∧
    (n ≠ ctrl.start → cpu.startCkpt [ctrl] n t = cpu) := by
  have hNext : [ctrl][cpu.ckptidx]? = some ctrl := by rw [hIdx]; rfl
  simp only [Cpu.startCkpt, Cpu.isCkptStart, hNext]
  constructor
  · intro h
    simp only [if_pos h, Cpu.addCkpt, hIdx]
  · intro h
    simp only [if_neg h]

/-- A tick while no checkpoint exists, in either kind of run. -/
theorem began_idle {read : Option ReadCkpt} (hIdle : Idle cpu) :
    let settings : CkptSettings := { ctrls := [ctrl], strictLength := strict, readCkpt := read }
    let number := if settings.isBenchInst t.pc then cpu.benchinsts + 1 else cpu.numInst
    let next := tick settings cpu t
    if t.fault = false ∧ settings.relevant t.pc = true ∧ number = ctrl.start then
      began settings ckptstartnum cpu ((item, t) :: rest) =
        some ⟨item, t.npc, ckptstartnum + number⟩
    else
      began settings ckptstartnum cpu ((item, t) :: rest) =
        began settings ckptstartnum next rest ∧
      (Idle next ∨ next.exited = true ∧ settings.relevant t.pc = false) ∧
      next.numInst = cpu.numInst + (if t.fault = false ∧ t.counts = true then 1 else 0) ∧
      next.benchinsts =
        cpu.benchinsts + if t.fault = false ∧ settings.isBenchInst t.pc = true then 1 else 0 := by
  intro settings number next
  have hNext : next = idleTick settings cpu t := tick_idle hIdle
  rw [idleTick] at hNext
  have hSkip : next.ckptidx = cpu.ckptidx → began settings ckptstartnum cpu ((item, t) :: rest) =
      began settings ckptstartnum next rest := by
    intro hSame
    rw [began, if_neg (not_not.mpr hSame)]
  cases hFault : t.fault with
  | true =>
      rw [if_pos hFault] at hNext
      simp only [Bool.true_eq_false, false_and, if_false, Nat.add_zero]
      have hFields : Idle next ∧ next.numInst = cpu.numInst ∧ next.benchinsts = cpu.benchinsts := by
        rw [hNext]
        split <;> exact ⟨⟨hIdle.pending, hIdle.ckptidx, hIdle.exited⟩, rfl, rfl⟩
      exact ⟨hSkip (hFields.1.ckptidx.trans hIdle.ckptidx.symm), Or.inl hFields.1, hFields.2⟩
  | false =>
      simp only [if_neg (Bool.eq_false_iff.mp hFault)] at hNext
      have hCounted := counted_idle settings t hIdle
      generalize Cpu.noteBench settings t (Cpu.countInst t _) = counted at hNext hCounted
      simp only [true_and]
      cases hRelevant : settings.relevant t.pc with
      | false =>
          simp only [hRelevant, Bool.false_eq_true, if_false] at hNext
          simp only [Bool.false_eq_true, false_and, if_false, and_true, hNext]
          have hSame : next.ckptidx = cpu.ckptidx := by
            rw [hNext, hCounted.ckptidx, hIdle.ckptidx]
          refine ⟨hNext ▸ hSkip hSame, ?_, hCounted.numInst, hCounted.benchinsts⟩
          cases hExited : counted.exited with
          | false => exact Or.inl ⟨hCounted.pending, hCounted.ckptidx, hExited⟩
          | true => exact Or.inr rfl
      | true =>
          simp only [hRelevant, if_true] at hNext
          have hRunning : counted.exited = false :=
            hCounted.exited.resolve_right (by rw [hRelevant]; decide)
          obtain ⟨hMove, hStay⟩ := @startCkpt_single ctrl counted t number hCounted.ckptidx
          simp only [true_and]
          by_cases hStart : number = ctrl.start
          · rw [if_pos hStart]
            have hMoved : next.ckptidx ≠ cpu.ckptidx := by
              rw [hNext, hIdle.ckptidx]
              exact (hMove hStart).trans_ne Nat.one_ne_zero
            rw [began, if_pos hMoved]
          · rw [if_neg hStart]
            have hSame : next = counted := hNext.trans (hStay hStart)
            rw [hSame] at hSkip ⊢
            exact ⟨hSkip (hCounted.ckptidx.trans hIdle.ckptidx.symm),
              Or.inl ⟨hCounted.pending, hCounted.ckptidx, hRunning⟩,
              hCounted.numInst, hCounted.benchinsts⟩

theorem relevant_recreate (ckpt : ReadCkpt) (pc : Nat) :
    CkptSettings.relevant
        { ctrls := [ctrl], strictLength := strict, readCkpt := some ckpt } pc = ckpt.isCkptInst pc ∧
      CkptSettings.isBenchInst
        { ctrls := [ctrl], strictLength := strict, readCkpt := some ckpt } pc =
          ckpt.isCkptInst pc :=
  ⟨rfl, rfl⟩

end Idle

section Direct

variable {strict : Bool} {ctrl : CkptCtrl} {cpu : Cpu} {item : Option Nat}
  {rest : List (Option Nat × Tick)}

/-- Ticks that fault are passed over. -/
theorem direct_faults {ts : List Tick} (hIdle : Idle cpu) (hFault : ∀ t ∈ ts, t.fault = true) :
    ∃ next, Idle next ∧ next.numInst = cpu.numInst ∧
      began { ctrls := [ctrl], strictLength := strict } 0 cpu
        (ts.map (fun t => (item, t)) ++ rest) =
        began { ctrls := [ctrl], strictLength := strict } 0 next rest := by
  induction ts generalizing cpu with
  | nil => exact ⟨cpu, hIdle, rfl, rfl⟩
  | cons t ts ih =>
      have hHead := hFault t (List.mem_cons_self ..)
      have hStep :=
        @began_idle strict ctrl cpu 0 item t (ts.map (fun t => (item, t)) ++ rest) none hIdle
      simp only [hHead, Bool.true_eq_false, false_and, if_false, Nat.add_zero] at hStep
      obtain ⟨hSkip, hCases, hNum, -⟩ := hStep
      have hNext := hCases.resolve_right fun h => absurd h.2 (by simp [CkptSettings.relevant])
      obtain ⟨last, hLast, hLastNum, hEq⟩ := ih hNext fun t ht =>
        hFault t (List.mem_cons_of_mem _ ht)
      exact ⟨last, hLast, hLastNum.trans hNum, hSkip.trans hEq⟩

/-- An instruction starts the checkpoint if it has the number, and is counted otherwise. -/
theorem direct_instr (i : Instr) {regs : Regs} {ms : List Microop} (hms : ms ≠ [])
    (hIdle : Idle cpu) :
    if cpu.numInst = ctrl.start then
      began { ctrls := [ctrl], strictLength := strict } 0 cpu
          ((i.microTicks regs ms).map (fun t => (item, t)) ++ rest) =
        some ⟨item, i.npc, cpu.numInst⟩
    else
      ∃ next, Idle next ∧ next.numInst = cpu.numInst + 1 ∧
        began { ctrls := [ctrl], strictLength := strict } 0 cpu
            ((i.microTicks regs ms).map (fun t => (item, t)) ++ rest) =
          began { ctrls := [ctrl], strictLength := strict } 0 next rest := by
  induction ms generalizing regs cpu with
  | nil => exact absurd rfl hms
  | cons m more ih =>
      obtain ⟨faults, events, regs', hFaults, hTicks⟩ := microTicks_cons i regs m more
      rw [hTicks, List.map_append, List.append_assoc, List.map_cons, List.cons_append]
      obtain ⟨start, hStart, hStartNum, hEq⟩ := @direct_faults strict ctrl cpu item
        ((item, i.tick more.isEmpty false events regs') ::
          ((i.microTicks regs' more).map (fun t => (item, t)) ++ rest)) faults hIdle
        fun t ht => (hFaults t ht).1
      rw [hEq, ← hStartNum]
      have hStep := @began_idle strict ctrl start 0 item (i.tick more.isEmpty false events regs')
        ((i.microTicks regs' more).map (fun t => (item, t)) ++ rest) none hStart
      have hDirect : ({ ctrls := [ctrl], strictLength := strict } : CkptSettings).readCkpt = none :=
        rfl
      simp only [Instr.tick, relevant_direct hDirect, isBenchInst_direct hDirect,
        Bool.false_eq_true, if_false, true_and, Nat.zero_add, Bool.true_eq_false, and_false,
        or_false] at hStep
      by_cases hNumber : start.numInst = ctrl.start
      · rw [if_pos hNumber] at hStep ⊢
        exact hStep
      · rw [if_neg hNumber] at hStep ⊢
        obtain ⟨hSkip, hNext, hNum, -⟩ := hStep
        cases more with
        | nil => exact ⟨_, hNext, hNum, hSkip⟩
        | cons m' more =>
            -- the count moves only with the last micro-op
            have hSame := hNum.trans (show _ = start.numInst from rfl)
            have hRest := @ih _ regs' (List.cons_ne_nil _ _) hNext
            rw [if_neg (fun h => hNumber (hSame.symm.trans h))] at hRest
            obtain ⟨last, hLast, hLastNum, hLastEq⟩ := hRest
            exact ⟨last, hLast, hLastNum.trans (congrArg (· + 1) hSame), hSkip.trans hLastEq⟩

/-- A system call of the benchmark starts no checkpoint. -/
theorem direct_ecall (e : Ecall) (hIdle : Idle cpu) :
    ∃ next, Idle next ∧ next.numInst = cpu.numInst ∧
      began { ctrls := [ctrl], strictLength := strict } 0 cpu
          ((Step.ecall e).ticks.map (fun t => (item, t)) ++ rest) =
        began { ctrls := [ctrl], strictLength := strict } 0 next rest := by
  apply direct_faults hIdle
  intro t ht
  rcases List.mem_append.mp ht with ht | ht
  · obtain ⟨events, -, rfl⟩ := List.mem_map.mp ht
    rfl
  · obtain rfl := List.mem_singleton.mp ht
    rfl

/-- The run in front of the old checkpoint's start. -/
theorem direct_before {before : List Step} (hIdle : Idle cpu)
    (hStart : cpu.numInst + (instrs before).length ≤ ctrl.start) :
    ∃ next, Idle next ∧ next.numInst = cpu.numInst + (instrs before).length ∧
      began { ctrls := [ctrl], strictLength := strict } 0 cpu
          ((before.flatMap Step.ticks).map (fun t => (item, t)) ++ rest) =
        began { ctrls := [ctrl], strictLength := strict } 0 next rest := by
  induction before generalizing cpu with
  | nil => exact ⟨cpu, hIdle, rfl, rfl⟩
  | cons step more ih =>
      rw [List.flatMap_cons, List.map_append, List.append_assoc]
      cases step with
      | instr i =>
          simp only [instrs, List.length_cons] at hStart ⊢
          have hStep := @direct_instr strict ctrl cpu item
            ((more.flatMap Step.ticks).map (fun t => (item, t)) ++ rest) i i.before i.shape.microops
            i.shape.microops_ne_nil hIdle
          rw [if_neg (by omega)] at hStep
          obtain ⟨next, hNext, hNum, hEq⟩ := hStep
          obtain ⟨last, hLast, hLastNum, hLastEq⟩ := ih hNext (by omega)
          exact ⟨last, hLast, by omega, hEq.trans hLastEq⟩
      | ecall e =>
          simp only [instrs] at hStart ⊢
          obtain ⟨next, hNext, hNum, hEq⟩ := @direct_ecall strict ctrl cpu item
            ((more.flatMap Step.ticks).map (fun t => (item, t)) ++ rest) e hIdle
          obtain ⟨last, hLast, hLastNum, hLastEq⟩ := ih hNext (by omega)
          exact ⟨last, hLast, by omega, hEq.trans hLastEq⟩

end Direct

section Recreated

variable {strict : Bool} {ctrl : CkptCtrl} {ckpt : ReadCkpt} {cpu : Cpu} {ckptstartnum : Nat}
  {item : Option Nat} {rest : List (Option Nat × Tick)}

/-- The loader's own ticks start nothing, but they may end the simulation. -/
theorem recreated_outside {ts : List Tick} (hIdle : Idle cpu)
    (hOut : ∀ t ∈ ts, ckpt.isCkptInst t.pc = false) :
    let settings : CkptSettings :=
      { ctrls := [ctrl], strictLength := strict, readCkpt := some ckpt }
    began settings ckptstartnum cpu (ts.map (fun t => (item, t)) ++ rest) = none ∨
      ∃ next, Idle next ∧ next.benchinsts = cpu.benchinsts ∧
        began settings ckptstartnum cpu (ts.map (fun t => (item, t)) ++ rest) =
          began settings ckptstartnum next rest := by
  intro settings
  induction ts generalizing cpu with
  | nil => exact Or.inr ⟨cpu, hIdle, rfl, rfl⟩
  | cons t ts ih =>
      have hHead := hOut t (List.mem_cons_self ..)
      have hStep := @began_idle strict ctrl cpu ckptstartnum item t
        (ts.map (fun t => (item, t)) ++ rest) (some ckpt) hIdle
      simp only [(relevant_recreate ckpt _).1, (relevant_recreate ckpt _).2, hHead,
        Bool.false_eq_true, false_and, and_false, if_false, and_true, Nat.add_zero] at hStep
      obtain ⟨hSkip, hCases, -, hBench⟩ := hStep
      rw [List.map_cons, List.cons_append]
      rcases hCases with hNext | hExited
      · rcases ih hNext fun t ht =>
          hOut t (List.mem_cons_of_mem _ ht) with hNone | ⟨last, hLast, hSame, hEq⟩
        · exact Or.inl (hSkip.trans hNone)
        · exact Or.inr ⟨last, hLast, hSame.trans hBench, hSkip.trans hEq⟩
      · exact Or.inl (hSkip.trans (began_exited hExited))

/-- Before the benchmark has run at all, the loader repeats no system call. -/
theorem tick_boot {t : Tick} (hIdle : Idle cpu) (hLast : cpu.lastIsBenchInst = false)
    (hOut : ckpt.isCkptInst t.pc = false) :
    let next := tick { ctrls := [ctrl], strictLength := strict, readCkpt := some ckpt } cpu t
    Idle next ∧ next.lastIsBenchInst = false ∧ next.benchinsts = cpu.benchinsts := by
  rw [tick_idle hIdle, idleTick]
  have hCleared : ∀ cleared : Cpu,
      cleared = (if t.isSyscall then { cpu with preinsts := ∅ } else cpu) →
      Idle cleared ∧ cleared.lastIsBenchInst = false ∧ cleared.benchinsts = cpu.benchinsts := by
    intro cleared hEq
    subst hEq
    split <;> exact ⟨⟨hIdle.pending, hIdle.ckptidx, hIdle.exited⟩, hLast, rfl⟩
  have hFirst := hCleared _ rfl
  generalize (if t.isSyscall then { cpu with preinsts := ∅ } else cpu) = cleared at hFirst
  obtain ⟨hStart, hStartLast, hBench⟩ := hFirst
  split
  · exact ⟨hStart, hStartLast, hBench⟩
  · simp only [(relevant_recreate ckpt _).1, hOut, Bool.false_eq_true, if_false, Cpu.noteBench,
      Cpu.countInst]
    split
    · simp only [hStartLast, Bool.and_false, Bool.false_eq_true, if_false]
      exact ⟨⟨hStart.pending, hStart.ckptidx, hStart.exited⟩, trivial, hBench⟩
    · simp only [hStartLast, Bool.and_false, Bool.false_eq_true, if_false]
      exact ⟨⟨hStart.pending, hStart.ckptidx, hStart.exited⟩, trivial, hBench⟩

/-- The loader's own ticks start no checkpoint and count nothing. -/
theorem recreated_boot {ts : List Tick} (hIdle : Idle cpu) (hLast : cpu.lastIsBenchInst = false)
    (hOut : ∀ t ∈ ts, ckpt.isCkptInst t.pc = false) :
    let settings : CkptSettings :=
      { ctrls := [ctrl], strictLength := strict, readCkpt := some ckpt }
    ∃ next, Idle next ∧ next.benchinsts = cpu.benchinsts ∧
      began settings ckptstartnum cpu (ts.map (fun t => (item, t)) ++ rest) =
        began settings ckptstartnum next rest := by
  intro settings
  induction ts generalizing cpu with
  | nil => exact ⟨cpu, hIdle, rfl, rfl⟩
  | cons t ts ih =>
      obtain ⟨hNext, hNextLast, hBench⟩ := @tick_boot strict ctrl ckpt cpu t hIdle hLast
        (hOut t (List.mem_cons_self ..))
      obtain ⟨last, hIdleLast, hSame, hEq⟩ := ih hNext hNextLast
        fun t ht => hOut t (List.mem_cons_of_mem _ ht)
      refine ⟨last, hIdleLast, hSame.trans hBench, ?_⟩
      rw [List.map_cons, List.cons_append, began,
        if_neg (not_not.mpr (hNext.ckptidx.trans hIdle.ckptidx.symm))]
      exact hEq

/-- Ticks of the benchmark that fault are passed over, like the direct ones. -/
theorem recreated_faults {ts : List Tick} (hIdle : Idle cpu) (hFault : ∀ t ∈ ts, t.fault = true)
    (hIn : ∀ t ∈ ts, ckpt.isCkptInst t.pc = true) :
    let settings : CkptSettings :=
      { ctrls := [ctrl], strictLength := strict, readCkpt := some ckpt }
    ∃ next, Idle next ∧ next.benchinsts = cpu.benchinsts ∧
      began settings ckptstartnum cpu (ts.map (fun t => (item, t)) ++ rest) =
        began settings ckptstartnum next rest := by
  intro settings
  induction ts generalizing cpu with
  | nil => exact ⟨cpu, hIdle, rfl, rfl⟩
  | cons t ts ih =>
      have hStep := @began_idle strict ctrl cpu ckptstartnum item t
        (ts.map (fun t => (item, t)) ++ rest) (some ckpt) hIdle
      simp only [(relevant_recreate ckpt _).1, (relevant_recreate ckpt _).2,
        hFault t (List.mem_cons_self ..), hIn t (List.mem_cons_self ..),
        Bool.true_eq_false, false_and, and_false, or_false, if_false, Nat.add_zero] at hStep
      obtain ⟨hSkip, hNext, -, hBench⟩ := hStep
      obtain ⟨last, hLast, hSame, hEq⟩ :=
        ih hNext (fun t ht => hFault t (List.mem_cons_of_mem _ ht))
        fun t ht => hIn t (List.mem_cons_of_mem _ ht)
      exact ⟨last, hLast, hSame.trans hBench, hSkip.trans hEq⟩

/-- A tick of the benchmark that goes through is counted, or starts the checkpoint. -/
theorem recreated_tick {t : Tick} (hFault : t.fault = false) (hIn : ckpt.isCkptInst t.pc = true)
    (hIdle : Idle cpu) :
    let settings : CkptSettings :=
      { ctrls := [ctrl], strictLength := strict, readCkpt := some ckpt }
    if cpu.benchinsts + 1 = ctrl.start then
      began settings ckptstartnum cpu ((item, t) :: rest) =
        some ⟨item, t.npc, ckptstartnum + ctrl.start⟩
    else
      ∃ next, Idle next ∧ next.benchinsts = cpu.benchinsts + 1 ∧
        began settings ckptstartnum cpu ((item, t) :: rest) =
          began settings ckptstartnum next rest := by
  have hStep := @began_idle strict ctrl cpu ckptstartnum item t rest (some ckpt) hIdle
  simp only [(relevant_recreate ckpt _).1, (relevant_recreate ckpt _).2, hFault, hIn, if_true,
    true_and, Bool.true_eq_false, and_false, or_false] at hStep
  by_cases hNumber : cpu.benchinsts + 1 = ctrl.start
  · rw [if_pos hNumber] at hStep ⊢
    rw [← hNumber]
    exact hStep
  · rw [if_neg hNumber] at hStep ⊢
    obtain ⟨hSkip, hNext, -, hBench⟩ := hStep
    exact ⟨_, hNext, hBench, hSkip⟩

/-- Every micro-op is counted, and the one with the number starts the checkpoint. -/
theorem recreated_instr (i : Instr) {regs : Regs} {ms : List Microop}
    (hIn : ckpt.isCkptInst i.pc = true) (hIdle : Idle cpu) :
    let settings : CkptSettings :=
      { ctrls := [ctrl], strictLength := strict, readCkpt := some ckpt }
    if cpu.benchinsts < ctrl.start ∧ ctrl.start ≤ cpu.benchinsts + ms.length then
      began settings ckptstartnum cpu ((i.microTicks regs ms).map (fun t => (item, t)) ++ rest) =
        some ⟨item, i.npc, ckptstartnum + ctrl.start⟩
    else
      ∃ next, Idle next ∧ next.benchinsts = cpu.benchinsts + ms.length ∧
        began settings ckptstartnum cpu ((i.microTicks regs ms).map (fun t => (item, t)) ++ rest) =
          began settings ckptstartnum next rest := by
  intro settings
  induction ms generalizing regs cpu with
  | nil =>
      rw [if_neg (by simp only [List.length_nil]; omega)]
      exact ⟨cpu, hIdle, rfl, rfl⟩
  | cons m more ih =>
      obtain ⟨faults, events, regs', hFaults, hTicks⟩ := microTicks_cons i regs m more
      rw [hTicks, List.map_append, List.append_assoc, List.map_cons, List.cons_append]
      obtain ⟨start, hStart, hStartNum, hEq⟩ :=
        @recreated_faults strict ctrl ckpt cpu ckptstartnum item
        ((item, i.tick more.isEmpty false events regs') ::
          ((i.microTicks regs' more).map (fun t => (item, t)) ++ rest)) faults hIdle
        (fun t ht => (hFaults t ht).1) fun t ht => by rw [(hFaults t ht).2, hIn]
      rw [hEq, ← hStartNum, List.length_cons]
      have hStep := @recreated_tick strict ctrl ckpt start ckptstartnum item
        ((i.microTicks regs' more).map (fun t => (item, t)) ++ rest)
        (i.tick more.isEmpty false events regs') rfl hIn hStart
      by_cases hNumber : start.benchinsts + 1 = ctrl.start
      · simp only [if_pos hNumber] at hStep
        rw [if_pos (by omega)]
        exact hStep
      · simp only [if_neg hNumber] at hStep
        obtain ⟨next, hNext, hBench, hSkip⟩ := hStep
        have hRest := @ih next regs' hNext
        by_cases hLater : start.benchinsts < ctrl.start ∧
            ctrl.start ≤ start.benchinsts + (more.length + 1)
        · rw [if_pos (by omega)] at hRest
          rw [if_pos hLater]
          exact hSkip.trans hRest
        · rw [if_neg (by omega)] at hRest
          rw [if_neg hLater]
          obtain ⟨last, hLast, hLastBench, hLastEq⟩ := hRest
          exact ⟨last, hLast, by omega, hSkip.trans hLastEq⟩

/-- A system call counts as one step, by its jump. -/
theorem recreated_ecall (e : Ecall) (midPoint : Nat) {serve : List Tick}
    (hIn : (ReplayItem.ecall e midPoint serve).InText ckpt) (hIdle : Idle cpu) :
    let settings : CkptSettings :=
      { ctrls := [ctrl], strictLength := strict, readCkpt := some ckpt }
    let ts := (ReplayItem.ecall e midPoint serve).ticks.map (fun t => (item, t)) ++ rest
    if cpu.benchinsts + 1 = ctrl.start then
      began settings ckptstartnum cpu ts = some ⟨item, midPoint, ckptstartnum + ctrl.start⟩
    else
      began settings ckptstartnum cpu ts = none ∨
        ∃ next, Idle next ∧ next.benchinsts = cpu.benchinsts + 1 ∧
          began settings ckptstartnum cpu ts = began settings ckptstartnum next rest := by
  intro settings ts
  have hStep := @recreated_tick strict ctrl ckpt cpu ckptstartnum item
    (serve.map (fun t => (item, t)) ++ rest) (ReplayItem.jump e midPoint) rfl hIn.1 hIdle
  by_cases hNumber : cpu.benchinsts + 1 = ctrl.start
  · simp only [if_pos hNumber] at hStep ⊢
    exact hStep
  · simp only [if_neg hNumber] at hStep ⊢
    obtain ⟨next, hNext, hBench, hSkip⟩ := hStep
    rcases @recreated_outside strict ctrl ckpt next ckptstartnum item rest serve hNext hIn.2 with
      hNone | ⟨last, hLast, hSame, hEq⟩
    · exact Or.inl (hSkip.trans hNone)
    · exact Or.inr ⟨last, hLast, hSame.trans hBench, hSkip.trans hEq⟩

end Recreated

section Agreement

variable {strict : Bool} {direct recreate : CkptCtrl} {ckpt : ReadCkpt} {s k d : Nat}
  {items : List ReplayItem} {cpuD cpuR : Cpu}

/-- A direct run that is long enough starts its checkpoint at one of the steps. -/
theorem direct_items (hIdle : Idle cpuD) (hAhead : cpuD.numInst ≤ direct.start)
    (hLong : direct.start - cpuD.numInst < (instrs (items.map ReplayItem.step)).length) :
    ∃ j npc, d ≤ j ∧ began { ctrls := [direct], strictLength := strict } 0 cpuD
      (labelled (fun item => item.step.ticks) d items) = some ⟨some j, npc, direct.start⟩ := by
  induction items generalizing cpuD d with
  | nil => exact absurd hLong (Nat.not_lt_zero _)
  | cons item rest ih =>
      rw [labelled]
      cases item with
      | instr i =>
          simp only [List.map_cons, ReplayItem.step, instrs, List.length_cons] at hLong
          have hStep := @direct_instr strict direct cpuD (some d)
            (labelled (fun item => item.step.ticks) (d + 1) rest) i i.before i.shape.microops
            i.shape.microops_ne_nil hIdle
          by_cases hNumber : cpuD.numInst = direct.start
          · rw [if_pos hNumber, hNumber] at hStep
            exact ⟨d, i.npc, Nat.le_refl d, hStep⟩
          · rw [if_neg hNumber] at hStep
            obtain ⟨next, hNext, hNum, hEq⟩ := hStep
            obtain ⟨j, npc, hj, hFound⟩ := @ih (d + 1) next hNext (by omega) (by omega)
            exact ⟨j, npc, by omega, hEq.trans hFound⟩
      | ecall e midPoint serve =>
          simp only [List.map_cons, ReplayItem.step, instrs] at hLong
          obtain ⟨next, hNext, hNum, hEq⟩ := @direct_ecall strict direct cpuD (some d)
            (labelled (fun item => item.step.ticks) (d + 1) rest) e hIdle
          obtain ⟨j, npc, hj, hFound⟩ := @ih (d + 1) next hNext (by omega) (by omega)
          exact ⟨j, npc, by omega, hEq.trans hFound⟩

/-- An instruction in front of the direct run's start. The re-creating run starts its
checkpoint in it, or the runs differ if they differ behind it. -/
theorem differ_instr {i : Instr} {rest : List ReplayItem} (hStart : direct.start = s + k)
    (hStart' : recreate.start = k) (hIn : ckpt.isCkptInst i.pc = true) (hDirect : Idle cpuD)
    (hRecreate : Idle cpuR) (hBefore : cpuD.numInst < s + k)
    (hLong : s + k - (cpuD.numInst + 1) < (instrs (rest.map ReplayItem.step)).length)
    (hRest : ∀ nextD nextR, Idle nextD → Idle nextR → nextD.numInst = cpuD.numInst + 1 →
      nextR.benchinsts = cpuR.benchinsts + i.shape.microops.length →
      ¬ (cpuR.benchinsts < k ∧ k ≤ nextR.benchinsts) →
      began { ctrls := [recreate], strictLength := strict, readCkpt := some ckpt } s nextR
          (labelled ReplayItem.ticks (d + 1) rest) ≠
        began { ctrls := [direct], strictLength := strict } 0 nextD
          (labelled (fun item => item.step.ticks) (d + 1) rest)) :
    began { ctrls := [recreate], strictLength := strict, readCkpt := some ckpt } s cpuR
        (labelled ReplayItem.ticks d (.instr i :: rest)) ≠
      began { ctrls := [direct], strictLength := strict } 0 cpuD
        (labelled (fun item => item.step.ticks) d (.instr i :: rest)) := by
  have hD := @direct_instr strict direct cpuD (some d)
    (labelled (fun item => item.step.ticks) (d + 1) rest) i i.before i.shape.microops
    i.shape.microops_ne_nil hDirect
  have hR := @recreated_instr strict recreate ckpt cpuR s (some d)
    (labelled ReplayItem.ticks (d + 1) rest) i i.before i.shape.microops hIn hRecreate
  rw [if_neg (by omega)] at hD
  obtain ⟨nextD, hNextD, hNum, hEqD⟩ := hD
  intro hSame
  by_cases hFound : cpuR.benchinsts < recreate.start ∧
      recreate.start ≤ cpuR.benchinsts + i.shape.microops.length
  · simp only [if_pos hFound] at hR
    obtain ⟨j, npc, hj, hLater⟩ := @direct_items strict direct (d + 1) rest nextD hNextD
      (by omega) (by omega)
    have hEq := hR.symm.trans (hSame.trans (hEqD.trans hLater))
    simp only [Option.some.injEq, Began.mk.injEq] at hEq
    omega
  · simp only [if_neg hFound] at hR
    obtain ⟨nextR, hNextR, hBench, hEqR⟩ := hR
    exact hRest nextD nextR hNextD hNextR hNum hBench (by omega)
      (hEqR.symm.trans (hSame.trans hEqD))

/-- A system call, which only the re-creating run counts: it starts its checkpoint there,
or the runs differ if they differ behind it. -/
theorem differ_ecall {e : Ecall} {midPoint : Nat} {serve : List Tick} {rest : List ReplayItem}
    (hStart : direct.start = s + k) (hStart' : recreate.start = k)
    (hIn : (ReplayItem.ecall e midPoint serve).InText ckpt) (hDirect : Idle cpuD)
    (hRecreate : Idle cpuR) (hBefore : cpuD.numInst ≤ s + k)
    (hLong : s + k - cpuD.numInst < (instrs (rest.map ReplayItem.step)).length)
    (hRest : ∀ nextD nextR, Idle nextD → Idle nextR → nextD.numInst = cpuD.numInst →
      nextR.benchinsts = cpuR.benchinsts + 1 → nextR.benchinsts ≠ k →
      began { ctrls := [recreate], strictLength := strict, readCkpt := some ckpt } s nextR
          (labelled ReplayItem.ticks (d + 1) rest) ≠
        began { ctrls := [direct], strictLength := strict } 0 nextD
          (labelled (fun item => item.step.ticks) (d + 1) rest)) :
    began { ctrls := [recreate], strictLength := strict, readCkpt := some ckpt } s cpuR
        (labelled ReplayItem.ticks d (.ecall e midPoint serve :: rest)) ≠
      began { ctrls := [direct], strictLength := strict } 0 cpuD
        (labelled (fun item => item.step.ticks) d (.ecall e midPoint serve :: rest)) := by
  obtain ⟨nextD, hNextD, hNum, hEqD⟩ := @direct_ecall strict direct cpuD (some d)
    (labelled (fun item => item.step.ticks) (d + 1) rest) e hDirect
  obtain ⟨j, npc, hj, hFoundD⟩ := @direct_items strict direct (d + 1) rest nextD hNextD
    (by omega) (by omega)
  have hR := @recreated_ecall strict recreate ckpt cpuR s (some d)
    (labelled ReplayItem.ticks (d + 1) rest) e midPoint serve hIn hRecreate
  intro hSame
  by_cases hFound : cpuR.benchinsts + 1 = recreate.start
  · simp only [if_pos hFound] at hR
    have hEq := hR.symm.trans (hSame.trans (hEqD.trans hFoundD))
    simp only [Option.some.injEq, Began.mk.injEq] at hEq
    omega
  · simp only [if_neg hFound] at hR
    rcases hR with hNone | ⟨nextR, hNextR, hBench, hEqR⟩
    · have hEq := hNone.symm.trans (hSame.trans (hEqD.trans hFoundD))
      exact absurd hEq (by simp)
    · exact hRest nextD nextR hNextD hNextR hNum hBench (by omega)
        (hEqR.symm.trans (hSame.trans hEqD))

/-- Once the re-creating run has counted more, it starts its checkpoint at an earlier
step, or not at all. -/
theorem items_behind (hStart : direct.start = s + k) (hStart' : recreate.start = k)
    (hItems : ∀ item ∈ items, item.InText ckpt) (hDirect : Idle cpuD) (hRecreate : Idle cpuR)
    (hCount : cpuR.benchinsts < k) (hMore : k + cpuD.numInst ≤ s + k + cpuR.benchinsts)
    (hLong : s + k - cpuD.numInst < (instrs (items.map ReplayItem.step)).length) :
    began { ctrls := [recreate], strictLength := strict, readCkpt := some ckpt } s cpuR
        (labelled ReplayItem.ticks d items) ≠
      began { ctrls := [direct], strictLength := strict } 0 cpuD
        (labelled (fun item => item.step.ticks) d items) := by
  induction items generalizing cpuD cpuR d with
  | nil => exact absurd hLong (Nat.not_lt_zero _)
  | cons item rest ih =>
      have hRest : ∀ item ∈ rest, item.InText ckpt := fun item h =>
        hItems item (List.mem_cons_of_mem _ h)
      have hHead := hItems item (List.mem_cons_self ..)
      cases item with
      | instr i =>
          simp only [List.map_cons, ReplayItem.step, instrs, List.length_cons] at hLong
          have hPos : 0 < i.shape.microops.length := List.length_pos_iff.mpr i.shape.microops_ne_nil
          apply differ_instr hStart hStart' hHead hDirect hRecreate (by omega) (by omega)
          intro nextD nextR hNextD hNextR hNum hBench hNot
          exact ih hRest hNextD hNextR (by omega) (by omega) (by omega)
      | ecall e midPoint serve =>
          simp only [List.map_cons, ReplayItem.step, instrs] at hLong
          apply differ_ecall hStart hStart' hHead hDirect hRecreate (by omega) (by omega)
          intro nextD nextR hNextD hNextR hNum hBench hNot
          exact ih hRest hNextD hNextR (by omega) (by omega) (by omega)

/-- Where both runs look for the next instruction, they find its first tick. -/
theorem agree_start {i : Instr} {rest : List ReplayItem} (hStart : direct.start = s + k)
    (hStart' : recreate.start = k) (hIn : ckpt.isCkptInst i.pc = true) (hDirect : Idle cpuD)
    (hRecreate : Idle cpuR) (hSame : cpuD.numInst = s + 1 + cpuR.benchinsts)
    (hHere : cpuR.benchinsts + 1 = k) :
    began { ctrls := [recreate], strictLength := strict, readCkpt := some ckpt } s cpuR
        (labelled ReplayItem.ticks d (.instr i :: rest)) =
      began { ctrls := [direct], strictLength := strict } 0 cpuD
        (labelled (fun item => item.step.ticks) d (.instr i :: rest)) := by
  have hPos : 0 < i.shape.microops.length := List.length_pos_iff.mpr i.shape.microops_ne_nil
  have hD := @direct_instr strict direct cpuD (some d)
    (labelled (fun item => item.step.ticks) (d + 1) rest) i i.before i.shape.microops
    i.shape.microops_ne_nil hDirect
  have hR := @recreated_instr strict recreate ckpt cpuR s (some d)
    (labelled ReplayItem.ticks (d + 1) rest) i i.before i.shape.microops hIn hRecreate
  have hFound : cpuR.benchinsts < recreate.start ∧
      recreate.start ≤ cpuR.benchinsts + i.shape.microops.length := by omega
  have hNumber : s + recreate.start = cpuD.numInst := by omega
  rw [if_pos (by omega)] at hD
  simp only [if_pos hFound, hNumber] at hR
  exact hR.trans hD.symm

/-- In front of the start, an instruction of one tick moves both runs on by one. -/
theorem agree_instr {i : Instr} {rest : List ReplayItem} (hStart : direct.start = s + k)
    (hStart' : recreate.start = k) (hIn : ckpt.isCkptInst i.pc = true) (hDirect : Idle cpuD)
    (hRecreate : Idle cpuR) (hSame : cpuD.numInst = s + 1 + cpuR.benchinsts)
    (hBefore : cpuR.benchinsts + 1 < k) (hOne : i.shape.microops.length = 1) :
    ∃ nextD nextR, Idle nextD ∧ Idle nextR ∧ nextD.numInst = cpuD.numInst + 1 ∧
      nextR.benchinsts = cpuR.benchinsts + 1 ∧
      (began { ctrls := [recreate], strictLength := strict, readCkpt := some ckpt } s cpuR
            (labelled ReplayItem.ticks d (.instr i :: rest)) =
          began { ctrls := [direct], strictLength := strict } 0 cpuD
            (labelled (fun item => item.step.ticks) d (.instr i :: rest)) ↔
        began { ctrls := [recreate], strictLength := strict, readCkpt := some ckpt } s nextR
            (labelled ReplayItem.ticks (d + 1) rest) =
          began { ctrls := [direct], strictLength := strict } 0 nextD
            (labelled (fun item => item.step.ticks) (d + 1) rest)) := by
  have hD := @direct_instr strict direct cpuD (some d)
    (labelled (fun item => item.step.ticks) (d + 1) rest) i i.before i.shape.microops
    i.shape.microops_ne_nil hDirect
  have hR := @recreated_instr strict recreate ckpt cpuR s (some d)
    (labelled ReplayItem.ticks (d + 1) rest) i i.before i.shape.microops hIn hRecreate
  rw [if_neg (by omega)] at hD
  simp only [hOne] at hR
  rw [if_neg (by omega)] at hR
  obtain ⟨nextD, hNextD, hNum, hEqD⟩ := hD
  obtain ⟨nextR, hNextR, hBench, hEqR⟩ := hR
  exact ⟨nextD, nextR, hNextD, hNextR, hNum, hBench, Eq.congr hEqR hEqD⟩

/-- While both runs have counted the same, they agree as long as every step is one
tick of an instruction. -/
theorem items_level (hStart : direct.start = s + k) (hStart' : recreate.start = k)
    (hItems : ∀ item ∈ items, item.InText ckpt) (hDirect : Idle cpuD) (hRecreate : Idle cpuR)
    (hCount : cpuR.benchinsts < k) (hSame : cpuD.numInst = s + 1 + cpuR.benchinsts)
    (hLong : s + k - cpuD.numInst < (instrs (items.map ReplayItem.step)).length) :
    began { ctrls := [recreate], strictLength := strict, readCkpt := some ckpt } s cpuR
          (labelled ReplayItem.ticks d items) =
        began { ctrls := [direct], strictLength := strict } 0 cpuD
          (labelled (fun item => item.step.ticks) d items) ↔
      (∀ item ∈ items.take (k - 1 - cpuR.benchinsts), item.Single) ∧
        ∃ i, items[k - 1 - cpuR.benchinsts]? = some (.instr i) := by
  induction items generalizing cpuD cpuR d with
  | nil => exact absurd hLong (Nat.not_lt_zero _)
  | cons item rest ih =>
      have hRest : ∀ item ∈ rest, item.InText ckpt := fun item h =>
        hItems item (List.mem_cons_of_mem _ h)
      have hHead := hItems item (List.mem_cons_self ..)
      cases item with
      | instr i =>
          simp only [List.map_cons, ReplayItem.step, instrs, List.length_cons] at hLong
          have hPos : 0 < i.shape.microops.length := List.length_pos_iff.mpr i.shape.microops_ne_nil
          by_cases hHere : cpuR.benchinsts + 1 = k
          · have hZero : k - 1 - cpuR.benchinsts = 0 := by omega
            rw [hZero]
            exact iff_of_true (agree_start hStart hStart' hHead hDirect hRecreate hSame hHere)
              ⟨by simp, i, rfl⟩
          · have hSucc : k - 1 - cpuR.benchinsts = k - 1 - (cpuR.benchinsts + 1) + 1 := by omega
            by_cases hOne : i.shape.microops.length = 1
            · obtain ⟨nextD, nextR, hNextD, hNextR, hNum, hBench, hAgree⟩ :=
                @agree_instr strict direct
                recreate ckpt s k d cpuD cpuR i rest hStart hStart' hHead hDirect hRecreate hSame
                (by omega) hOne
              have hLater :=
                @ih (d + 1) nextD nextR hRest hNextD hNextR (by omega) (by omega) (by omega)
              have hSingle : (ReplayItem.instr i).Single := hOne
              rw [hAgree, hLater, hSucc, List.take_succ_cons, List.getElem?_cons_succ,
                List.forall_mem_cons, hBench]
              simp only [hSingle, true_and]
            · -- this instruction is counted more than once
              apply iff_of_false
              · apply differ_instr hStart hStart' hHead hDirect hRecreate (by omega) (by omega)
                intro nextD nextR hNextD hNextR hNum hBench hNot
                exact items_behind hStart hStart' hRest hNextD hNextR (by omega)
                  (by omega) (by omega)
              · rw [hSucc, List.take_succ_cons]
                exact fun h => hOne (h.1 _ (List.mem_cons_self ..))
      | ecall e midPoint serve =>
          simp only [List.map_cons, ReplayItem.step, instrs] at hLong
          apply iff_of_false
          · apply differ_ecall hStart hStart' hHead hDirect hRecreate (by omega) (by omega)
            intro nextD nextR hNextD hNextR hNum hBench hNot
            exact items_behind hStart hStart' hRest hNextD hNextR (by omega) (by omega) (by omega)
          · rintro ⟨hSingle, i', hInstr⟩
            cases hIdx : k - 1 - cpuR.benchinsts with
            | zero =>
                rw [hIdx] at hInstr
                exact absurd hInstr (by simp)
            | succ r =>
                rw [hIdx, List.take_succ_cons] at hSingle
                exact hSingle _ (List.mem_cons_self ..)

/-- With start 0 the re-creating run never starts a checkpoint, because it counts
before it tests. -/
theorem items_never (hStart' : recreate.start = 0) (hItems : ∀ item ∈ items, item.InText ckpt)
    (hRecreate : Idle cpuR) :
    began { ctrls := [recreate], strictLength := strict, readCkpt := some ckpt } s cpuR
      (labelled ReplayItem.ticks d items) = none := by
  induction items generalizing cpuR d with
  | nil => rfl
  | cons item rest ih =>
      have hRest : ∀ item ∈ rest, item.InText ckpt := fun item h =>
        hItems item (List.mem_cons_of_mem _ h)
      have hHead := hItems item (List.mem_cons_self ..)
      rw [labelled]
      cases item with
      | instr i =>
          have hR := @recreated_instr strict recreate ckpt cpuR s (some d)
            (labelled ReplayItem.ticks (d + 1) rest) i i.before i.shape.microops hHead hRecreate
          simp only [hStart', Nat.not_lt_zero, false_and, if_false] at hR
          obtain ⟨nextR, hNextR, -, hEqR⟩ := hR
          exact hEqR.trans (ih hRest hNextR)
      | ecall e midPoint serve =>
          have hR := @recreated_ecall strict recreate ckpt cpuR s (some d)
            (labelled ReplayItem.ticks (d + 1) rest) e midPoint serve hHead hRecreate
          simp only [hStart', Nat.add_one_ne_zero, if_false] at hR
          rcases hR with hNone | ⟨nextR, hNextR, -, hEqR⟩
          · exact hNone
          · exact hEqR.trans (ih hRest hNextR)

end Agreement

/-- In a benchmark run whose instruction `first` has the number `s` of the old
checkpoint, the checkpoint that a re-creating run starts for `k` begins where the
one for `s + k` of the direct run does if and only if `k` is positive, the next
`k - 1` steps are instructions of one tick each, and the step behind them is an
instruction. -/
theorem recreated_agrees_iff {ckpt : ReadCkpt} (recreation : Recreation ckpt) (before : List Step)
    (first : Instr) (strict : Bool) (stop warmup stop' warmup' k : Nat)
    (hLong : k ≤ (instrs (recreation.items.map ReplayItem.step)).length) :
    recreatedBegan strict ⟨k, stop', warmup'⟩ (instrs before).length recreation =
        directBegan strict ⟨(instrs before).length + k, stop, warmup⟩ before first
          recreation.items ↔
      0 < k ∧ (∀ item ∈ recreation.items.take (k - 1), item.Single) ∧
        ∃ i, recreation.items[k - 1]? = some (.instr i) := by
  have hStart : Idle {} := ⟨rfl, rfl, rfl⟩
  rw [recreatedBegan, directBegan]
  obtain ⟨cpuD, hIdleD, hNumD, hEqD⟩ := @direct_before strict
    ⟨(instrs before).length + k, stop, warmup⟩ {} none
    ((Step.instr first).ticks.map (fun t => (some 0, t)) ++
      labelled (fun item => item.step.ticks) 1 recreation.items) before hStart
    (by simp only; omega)
  rw [hEqD]
  have hNum : cpuD.numInst = (instrs before).length := hNumD.trans (Nat.zero_add _)
  have hFirst := @direct_instr strict ⟨(instrs before).length + k, stop, warmup⟩ cpuD (some 0)
    (labelled (fun item => item.step.ticks) 1 recreation.items) first first.before
    first.shape.microops first.shape.microops_ne_nil hIdleD
  obtain ⟨cpuR, hIdleR, hBench, hEqR⟩ := @recreated_boot strict ⟨k, stop', warmup'⟩ ckpt {}
    (instrs before).length none (labelled ReplayItem.ticks 1 recreation.items)
    recreation.boot hStart
    rfl recreation.boot_outside
  rw [hEqR]
  rw [hNum] at hFirst
  rcases Nat.eq_zero_or_pos k with rfl | hPos
  · simp only [Nat.add_zero, if_true] at hFirst
    have hNone := @items_never strict ⟨0, stop', warmup'⟩ ckpt (instrs before).length 1
      recreation.items cpuR rfl recreation.items_inside hIdleR
    refine iff_of_false (fun hEqual => ?_) fun h => Nat.lt_irrefl 0 h.1
    exact absurd (hNone.symm.trans (hEqual.trans hFirst)) (by simp)
  · simp only [if_neg (show ¬ (instrs before).length = (instrs before).length + k by omega)]
      at hFirst
    obtain ⟨nextD, hNextD, hNextNum, hEqFirst⟩ := hFirst
    have hFirstTicks : (Step.instr first).ticks =
        first.microTicks first.before first.shape.microops := rfl
    rw [hFirstTicks, hEqFirst]
    have hLevel := @items_level strict ⟨(instrs before).length + k, stop, warmup⟩
      ⟨k, stop', warmup'⟩ ckpt (instrs before).length k 1 recreation.items nextD cpuR rfl rfl
      recreation.items_inside hNextD hIdleR (by rw [hBench]; exact hPos)
      (by rw [hNextNum, hBench]; rfl) (by omega)
    rw [hLevel, hBench]
    simp only [hPos, true_and]
    rfl

/-- A checkpoint with one page of text at 0x10000, from which a benchmark with a
system call as its second step is re-created. -/
def sampleReadCkpt : ReadCkpt where
  textstart := 0x10000
  textend := 0x11000
  instMap := [1]
  callinfo := []

def sampleInstr (pc : Nat) (shape : Shape) : Instr where
  pc := pc
  npc := pc + 4
  shape := shape
  isCompressed := false
  faults := []
  events := []
  before := ⟨[], []⟩
  after := ⟨[], []⟩
  stack := fun _ _ => 0

def sampleEcall : Ecall where
  pc := 0x10008
  npc := 0x1000c
  isCompressed := false
  retries := []
  events := []
  regs := ⟨[], []⟩
  stack := fun _ _ => 0

def sampleRecreation : Recreation sampleReadCkpt where
  boot := []
  items := [.instr (sampleInstr 0x10004 .plain), .ecall sampleEcall 0x12000 [],
    .instr (sampleInstr 0x1000c .plain)]
  boot_outside := fun _ h => absurd h List.not_mem_nil
  items_inside := List.forall_mem_cons.mpr ⟨rfl, List.forall_mem_cons.mpr
    ⟨⟨rfl, fun _ h => absurd h List.not_mem_nil⟩, List.forall_mem_cons.mpr
      ⟨rfl, fun _ h => absurd h List.not_mem_nil⟩⟩⟩

theorem recreated_agrees_next :
    recreatedBegan false ⟨1, 2, 0⟩ 0 sampleRecreation =
      directBegan false ⟨1, 2, 0⟩ [] (sampleInstr 0x10000 .plain) sampleRecreation.items :=
  (recreated_agrees_iff sampleRecreation [] (sampleInstr 0x10000 .plain) false 2 0 2 0 1
    (by decide)).mpr ⟨by decide, fun _ h => absurd h List.not_mem_nil, _, rfl⟩

/-- The jump that replaces the system call is counted as the second step, and the
saved next pc is the place of the trampoline. -/
theorem recreated_counts_ecall :
    recreatedBegan false ⟨2, 3, 0⟩ 0 sampleRecreation = some ⟨some 2, 0x12000, 2⟩ ∧
    directBegan false ⟨2, 3, 0⟩ [] (sampleInstr 0x10000 .plain) sampleRecreation.items =
      some ⟨some 3, 0x10010, 2⟩ := by
  constructor <;> decide +kernel

end RiscvCkpt
