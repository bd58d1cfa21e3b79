import RiscvCkpt.Base.ByteCodec
import RiscvCkpt.Base.ByteMemory
import RiscvCkpt.Fpga.SamplePeriod

/-! The function that a sample enters. It saves the integer registers, makes the processor
able to run compiled code, and at its end puts everything back and jumps to where the sample
happened. Its instructions take any number of cycles of the core, which counts on. -/
namespace RiscvCkpt.Boom

open ByteCodec ByteMemory Clocked

/-- What an instruction reads of the special registers, by its tag. -/
def Core.getUcsr {vaddrBits : Nat} (core : Core vaddrBits) (tag : Nat) : Option (BitVec 64) :=
  match tag with
  | 33 => some (core.procTag.setWidth 64)
  | 34 => some (core.sampleHappen.setWidth 64)
  | 35 => some core.userExitPC
  | 36 => some core.tempReg1
  | 37 => some core.tempReg2
  | 38 => some core.tempReg3
  | 39 => some core.tempReg4
  | 41 => some (core.exitFuncAddr.setWidth 64)
  | 42 => some core.maxEventNum
  | 43 => some core.nowEventNum
  | 44 => some (core.sampleEventSel.setWidth 64)
  | 45 => some (core.pfc_maxPriv.setWidth 64)
  | _ => none

/-- An instruction of the macros of `define.h`. `special` is `addi x0, reg, tag`; `la` is of
`tempStackMem`; `li` also stands for the `mv` of an operand; `code` is compiled code. -/
inductive Inst where
  | special (reg tag : Nat)
  | la (rd : Nat)
  | addi (rd rs1 imm : Nat)
  | li (rd : Nat) (value : BitVec 64)
  | sd (rs2 offset rs1 : Nat)
  | ld (rd offset rs1 : Nat)
  | toExitpc (rs1 : Nat)
  | ofExitpc (rd : Nat)
  | code

structure Machine (vaddrBits : Nat) where
  regs : Nat → BitVec 64
  memory : Memory
  exitpc : BitVec 64
  core : Core vaddrBits

def loadWord (memory : Memory) (addr : Nat) : BitVec 64 :=
  BitVec.ofNat 64 (wordValue (load memory addr 8))

/-- The instructions that have nothing to do with the special registers. -/
def Machine.exec {vaddrBits : Nat} (tempStackMem : Nat) (m : Machine vaddrBits) :
    Inst → Option (Machine vaddrBits)
  | .la rd => some { m with regs := Function.update m.regs rd (BitVec.ofNat 64 tempStackMem) }
  | .addi rd rs1 imm =>
      some { m with regs := Function.update m.regs rd (m.regs rs1 + BitVec.ofNat 64 imm) }
  | .li rd value => some { m with regs := Function.update m.regs rd value }
  | .sd rs2 offset rs1 =>
      some { m with
        memory := store m.memory ((m.regs rs1).toNat + offset) (wordBytes 8 (m.regs rs2).toNat) }
  | .ld rd offset rs1 =>
      some { m with
        regs := Function.update m.regs rd (loadWord m.memory ((m.regs rs1).toNat + offset)) }
  | .toExitpc rs1 => some { m with exitpc := m.regs rs1 }
  | .ofExitpc rd => some { m with regs := Function.update m.regs rd m.exitpc }
  | .special .. | .code => none

/-- The core goes through some cycles with these writes. -/
def Passes {vaddrBits : Nat} (icBlockBytes : Nat) (core : Core vaddrBits)
    (writes : List (BitVec 12 × BitVec 64)) (core' : Core vaddrBits) : Prop :=
  ∃ cycles : List (Cycle vaddrBits), cycles.flatMap (·.ucsr) = writes ∧
    run (Core.next icBlockBytes) core cycles = core'

/-- One instruction. By its tag a special one reads or writes; one that reads does so in some
cycle of its own. Compiled code leaves the words with the saved registers alone. -/
inductive Step {vaddrBits : Nat} (icBlockBytes tempStackMem : Nat) :
    Machine vaddrBits → Inst → Machine vaddrBits → Prop where
  | set {m : Machine vaddrBits} {reg tag : Nat} {core' : Core vaddrBits} (hSet : tag / 32 ≠ 1)
      (hPasses : Passes icBlockBytes m.core [(BitVec.ofNat 12 tag, m.regs reg)] core') :
      Step icBlockBytes tempStackMem m (.special reg tag) { m with core := core' }
  | get {m : Machine vaddrBits} {reg tag : Nat} {middle core' : Core vaddrBits} {value : BitVec 64}
      (hGet : tag / 32 = 1) (hBefore : Passes icBlockBytes m.core [] middle)
      (hValue : middle.getUcsr tag = some value) (hAfter : Passes icBlockBytes middle [] core') :
      Step icBlockBytes tempStackMem m (.special reg tag)
        { m with regs := Function.update m.regs reg value, core := core' }
  | own {m m' : Machine vaddrBits} {inst : Inst} {core' : Core vaddrBits}
      (hOwn : m.exec tempStackMem inst = some m') (hPasses : Passes icBlockBytes m.core [] core') :
      Step icBlockBytes tempStackMem m inst { m' with core := core' }
  | code {m : Machine vaddrBits} {regs : Nat → BitVec 64} {memory : Memory} {core' : Core vaddrBits}
      (hSpares : ∀ b, tempStackMem + 8 ≤ b → b < tempStackMem + 256 → memory b = m.memory b)
      (hPasses : Passes icBlockBytes m.core [] core') :
      Step icBlockBytes tempStackMem m .code ⟨regs, memory, m.exitpc, core'⟩

inductive Executes {vaddrBits : Nat} (icBlockBytes tempStackMem : Nat) :
    Machine vaddrBits → List Inst → Machine vaddrBits → Prop where
  | nil (m : Machine vaddrBits) : Executes icBlockBytes tempStackMem m [] m
  | cons {m m' m'' : Machine vaddrBits} {inst : Inst} {rest : List Inst}
      (hStep : Step icBlockBytes tempStackMem m inst m')
      (hRest : Executes icBlockBytes tempStackMem m' rest m'') :
      Executes icBlockBytes tempStackMem m (inst :: rest) m''

/-- `Regs_Operations`: the registers but `a0`. -/
def regsOperations (op : Nat → Inst) : List Inst := (List.range' 1 9 ++ List.range' 11 21).map op

def saveALLIntRegs : List Inst :=
  [.special 10 9, .la 10] ++ regsOperations (fun r => .sd r (8 * r) 10) ++
    [.special 11 36, .sd 11 (8 * 10) 10]

def loadALLIntRegs : List Inst :=
  [.la 10] ++ regsOperations (fun r => .ld r (8 * r) 10) ++ [.ld 10 (8 * 10) 10]

def loadBasicRegs : List Inst :=
  [.la 5, .addi 5 5 256, .ld 2 0 5, .ld 8 8 5, .ld 1 16 5, .ld 3 24 5, .ld 4 32 5]

/-- Macros that write values through `t0`, with compiled code around them. -/
def writeSpecials (writes : List (BitVec 12 × BitVec 64)) : List Inst :=
  writes.flatMap fun write => [.code, .li 5 write.2, .special 5 write.1.toNat]

/-- `sample_func` up to its last jump. -/
def sampleFunc (sampleFucAddr eventsel : BitVec 64) : List Inst :=
  saveALLIntRegs ++ (loadBasicRegs ++ [.code]) ++ [.special 5 35, .toExitpc 5] ++
    [.code, .ofExitpc 5, .special 5 9] ++ [.code, .special 0 127] ++
    writeSpecials ((7, 1) :: setSampleBaseInfo procTag sampleFucAddr ++
      setSampleCtrlReg 0 0 eventsel) ++
    [.code] ++ loadALLIntRegs

section Cycles

variable {vaddrBits icBlockBytes : Nat} {core middle core' : Core vaddrBits}

/-- Cycles in a row make their writes in a row. -/
theorem Passes.trans {first second : List (BitVec 12 × BitVec 64)}
    (hFirst : Passes icBlockBytes core first middle)
    (hSecond : Passes icBlockBytes middle second core') :
    Passes icBlockBytes core (first ++ second) core' := by
  obtain ⟨cycles, rfl, rfl⟩ := hFirst
  obtain ⟨later, rfl, rfl⟩ := hSecond
  exact ⟨cycles ++ later, List.flatMap_append, run_append ..⟩

/-- Without a limit there are no samples until one is written. -/
theorem Core.unarmed_run (hArmed : core.armed = false) {cycles : List (Cycle vaddrBits)}
    (hNone : cycles.countP Cycle.arms = 0) :
    total (next icBlockBytes) (fun core now => (core.sampled now).toNat) core cycles = 0 ∧
      (run (next icBlockBytes) core cycles).armed = false := by
  have hPaid := total_paid (next icBlockBytes) (fun core => core.armed.toNat)
    (arming_paid icBlockBytes) core cycles
  rw [total_countP, hArmed, hNone, Bool.toNat_false] at hPaid
  exact ⟨by omega, by
    simpa using (by omega : (run (next icBlockBytes) core cycles).armed.toNat = 0)⟩

/-- Without a limit, the special registers hold what was written. -/
theorem Passes.unarmed {writes : List (BitVec 12 × BitVec 64)}
    (hPasses : Passes icBlockBytes core writes core') (hArmed : core.armed = false)
    (hNone : (writes.any fun write => write.1.toNat = 4 && write.2 != 0) = false) :
    core'.armed = false ∧ core'.Alike (writes.foldl Core.setUcsr core) := by
  obtain ⟨cycles, rfl, rfl⟩ := hPasses
  have hCount : cycles.countP Cycle.arms = 0 := by
    rw [List.any_flatMap, List.any_eq_false] at hNone
    exact List.countP_eq_zero.mpr hNone
  obtain ⟨hSamples, hStill⟩ := Core.unarmed_run hArmed hCount
  exact ⟨hStill, Core.Alike.run icBlockBytes (Core.Alike.refl core) hSamples⟩

end Cycles

theorem loadWord_store (memory : Memory) (addr : Nat) (value : BitVec 64) :
    loadWord (store memory addr (wordBytes 8 value.toNat)) addr = value := by
  have hLoad := load_store_self memory addr (wordBytes 8 value.toNat)
  rw [wordBytes_length] at hLoad
  rw [loadWord, hLoad, wordValue_wordBytes, Nat.mod_eq_of_lt (by omega), BitVec.ofNat_toNat,
    BitVec.setWidth_eq]

theorem loadWord_store_other {memory : Memory} {addr other : Nat} {value : Nat}
    (h : addr + 8 ≤ other ∨ other + 8 ≤ addr) :
    loadWord (store memory other (wordBytes 8 value)) addr = loadWord memory addr := by
  rw [loadWord, load_store_disjoint (by rw [wordBytes_length]; exact h), loadWord]

section Execution

variable {vaddrBits icBlockBytes tempStackMem : Nat} {m m' : Machine vaddrBits}

theorem executes_append {first second : List Inst}
    (h : Executes icBlockBytes tempStackMem m (first ++ second) m') :
    ∃ middle, Executes icBlockBytes tempStackMem m first middle ∧
      Executes icBlockBytes tempStackMem middle second m' := by
  induction first generalizing m with
  | nil => exact ⟨m, .nil m, h⟩
  | cons inst rest ih =>
      cases h with
      | cons hStep hRest =>
          obtain ⟨middle, hFirst, hSecond⟩ := ih hRest
          exact ⟨middle, .cons hStep hFirst, hSecond⟩

/-- The instruction writes no special register, no memory and not `exitpc`. -/
def Inst.silent : Inst → Bool
  | .la _ | .addi .. | .li .. | .ld .. | .ofExitpc _ | .code => true
  | .special .. | .sd .. | .toExitpc _ => false

/-- What stays the same: the saved registers and `exitpc`. -/
def Machine.Spared (tempStackMem : Nat) (m m' : Machine vaddrBits) : Prop :=
  m'.exitpc = m.exitpc ∧ ∀ b, tempStackMem + 8 ≤ b → b < tempStackMem + 256 →
    m'.memory b = m.memory b

theorem Machine.Spared.trans {m'' : Machine vaddrBits} (h : m.Spared tempStackMem m')
    (h' : m'.Spared tempStackMem m'') : m.Spared tempStackMem m'' :=
  ⟨h'.1.trans h.1, fun b hLow hHigh => (h'.2 b hLow hHigh).trans (h.2 b hLow hHigh)⟩

/-- The saved registers stay in memory. -/
theorem Machine.Spared.loadWord (h : m.Spared tempStackMem m') {r : Nat} (hLow : 1 ≤ r)
    (hHigh : r < 32) :
    loadWord m'.memory (tempStackMem + 8 * r) = loadWord m.memory (tempStackMem + 8 * r) := by
  have hBytes : load m'.memory (tempStackMem + 8 * r) 8 = load m.memory (tempStackMem + 8 * r) 8 :=
    load_eq_iff.mpr fun b hFrom hTo => h.2 b (by omega) (by omega)
  rw [Boom.loadWord, hBytes, Boom.loadWord]

/-- An instruction with nothing to do with the special registers. -/
theorem Step.exec {inst : Inst} {m₁ : Machine vaddrBits}
    (hStep : Step icBlockBytes tempStackMem m inst m')
    (hExec : m.exec tempStackMem inst = some m₁) :
    Passes icBlockBytes m.core [] m'.core ∧ m'.regs = m₁.regs ∧ m'.memory = m₁.memory ∧
      m'.exitpc = m₁.exitpc := by
  cases hStep with
  | set | get | code => cases hExec
  | own hOwn hPasses =>
      obtain rfl := Option.some.inj (hOwn.symm.trans hExec)
      exact ⟨hPasses, rfl, rfl, rfl⟩

theorem Step.la {rd : Nat} (hStep : Step icBlockBytes tempStackMem m (.la rd) m') :
    Passes icBlockBytes m.core [] m'.core ∧
      m'.regs = Function.update m.regs rd (BitVec.ofNat 64 tempStackMem) ∧
      m'.memory = m.memory := by
  obtain ⟨hPasses, hRegs, hMemory, -⟩ := hStep.exec rfl
  exact ⟨hPasses, hRegs, hMemory⟩

theorem Step.sd {rs2 offset rs1 : Nat}
    (hStep : Step icBlockBytes tempStackMem m (.sd rs2 offset rs1) m') :
    Passes icBlockBytes m.core [] m'.core ∧ m'.regs = m.regs ∧
      m'.memory = store m.memory ((m.regs rs1).toNat + offset)
        (wordBytes 8 (m.regs rs2).toNat) := by
  obtain ⟨hPasses, hRegs, hMemory, -⟩ := hStep.exec rfl
  exact ⟨hPasses, hRegs, hMemory⟩

theorem Step.ld {rd offset rs1 : Nat}
    (hStep : Step icBlockBytes tempStackMem m (.ld rd offset rs1) m') :
    Passes icBlockBytes m.core [] m'.core ∧
      m'.regs = Function.update m.regs rd (loadWord m.memory ((m.regs rs1).toNat + offset)) ∧
      m'.memory = m.memory := by
  obtain ⟨hPasses, hRegs, hMemory, -⟩ := hStep.exec rfl
  exact ⟨hPasses, hRegs, hMemory⟩

/-- A silent instruction writes no special register and spares the saved registers. -/
theorem Step.silent {inst : Inst} (hStep : Step icBlockBytes tempStackMem m inst m')
    (h : inst.silent = true) :
    Passes icBlockBytes m.core [] m'.core ∧ m.Spared tempStackMem m' := by
  have hOther : ∀ m₁ : Machine vaddrBits, m.exec tempStackMem inst = some m₁ →
      m₁.memory = m.memory →
      m₁.exitpc = m.exitpc → Passes icBlockBytes m.core [] m'.core ∧ m.Spared tempStackMem m' := by
    intro m₁ hExec hMemory hExitpc
    obtain ⟨hPasses, -, hMemory', hExitpc'⟩ := hStep.exec hExec
    exact ⟨hPasses, hExitpc'.trans hExitpc, fun b _ _ => congrFun (hMemory'.trans hMemory) b⟩
  cases inst with
  | special | sd | toExitpc => cases h
  | la | addi | li | ld | ofExitpc => exact hOther _ rfl rfl rfl
  | code =>
      cases hStep with
      | own hOwn => cases hOwn
      | code hSpares hPasses => exact ⟨hPasses, rfl, hSpares⟩

/-- Silent instructions write no special register and spare the saved registers. -/
theorem Executes.silent {insts : List Inst} (hRun : Executes icBlockBytes tempStackMem m insts m')
    (h : (insts.all Inst.silent) = true) :
    Passes icBlockBytes m.core [] m'.core ∧ m.Spared tempStackMem m' := by
  induction insts generalizing m with
  | nil =>
      cases hRun
      exact ⟨⟨[], rfl, rfl⟩, rfl, fun b _ _ => rfl⟩
  | cons inst rest ih =>
      cases hRun with
      | cons hStep hRest =>
          rw [List.all_cons, Bool.and_eq_true] at h
          obtain ⟨hFirst, hSpared⟩ := hStep.silent h.1
          obtain ⟨hLater, hStill⟩ := ih hRest h.2
          exact ⟨hFirst.trans hLater, hSpared.trans hStill⟩

/-- An instruction that writes a special register. -/
theorem Step.special_set {reg tag : Nat}
    (hStep : Step icBlockBytes tempStackMem m (.special reg tag) m') (hTag : tag / 32 ≠ 1) :
    Passes icBlockBytes m.core [(BitVec.ofNat 12 tag, m.regs reg)] m'.core ∧ m'.regs = m.regs ∧
      m'.memory = m.memory ∧ m'.exitpc = m.exitpc := by
  cases hStep with
  | set hSet hPasses => exact ⟨hPasses, rfl, rfl, rfl⟩
  | get hGet => exact absurd hGet hTag
  | own hOwn => cases hOwn

/-- An instruction that reads a special register. -/
theorem Step.special_get {reg tag : Nat}
    (hStep : Step icBlockBytes tempStackMem m (.special reg tag) m') (hTag : tag / 32 = 1) :
    ∃ middle value, Passes icBlockBytes m.core [] middle ∧ middle.getUcsr tag = some value ∧
      Passes icBlockBytes middle [] m'.core ∧ m'.regs = Function.update m.regs reg value ∧
      m'.memory = m.memory := by
  cases hStep with
  | set hSet => exact absurd hTag hSet
  | get hGet hBefore hValue hAfter => exact ⟨_, _, hBefore, hValue, hAfter, rfl, rfl⟩
  | own hOwn => cases hOwn

/-- Compiled code, a value for `t0`, and the instruction that writes it. -/
theorem executes_write {tag : Nat} {put : Inst} {value : BitVec 64} {rest : List Inst}
    (hTag : tag / 32 ≠ 1) (hPut : ∀ m₁ : Machine vaddrBits, m₁.exitpc = m.exitpc →
      m₁.exec tempStackMem put =
        some ⟨Function.update m₁.regs 5 value, m₁.memory, m₁.exitpc, m₁.core⟩)
    (hRun : Executes icBlockBytes tempStackMem m (.code :: put :: .special 5 tag :: rest) m') :
    ∃ after, Passes icBlockBytes m.core [(BitVec.ofNat 12 tag, value)] after.core ∧
      m.Spared tempStackMem after ∧
      Executes icBlockBytes tempStackMem after rest m' := by
  obtain _ | ⟨hCode, hRun⟩ := hRun
  obtain _ | ⟨hValue, hRun⟩ := hRun
  obtain _ | ⟨hSpecial, hRun⟩ := hRun
  obtain ⟨hFirst, hSpared⟩ := hCode.silent rfl
  obtain ⟨hNext, hRegs, hMemory, hExitpc⟩ := hValue.exec (hPut _ hSpared.1)
  obtain ⟨hLast, -, hMemory', hExitpc'⟩ := hSpecial.special_set hTag
  simp only [hRegs, Function.update_self] at hLast
  exact ⟨_, (hFirst.trans hNext).trans hLast, ⟨(hExitpc'.trans hExitpc).trans hSpared.1,
    fun b hLow hHigh => (congrFun (hMemory'.trans hMemory) b).trans (hSpared.2 b hLow hHigh)⟩, hRun⟩

/-- Macros make their writes in order and spare the saved registers. -/
theorem executes_writeSpecials {writes : List (BitVec 12 × BitVec 64)}
    (hTags : ∀ write ∈ writes, write.1.toNat / 32 ≠ 1)
    (hRun : Executes icBlockBytes tempStackMem m (writeSpecials writes) m') :
    Passes icBlockBytes m.core writes m'.core ∧ m.Spared tempStackMem m' := by
  induction writes generalizing m with
  | nil => exact hRun.silent rfl
  | cons write rest ih =>
      rw [List.forall_mem_cons] at hTags
      obtain ⟨after, hFirst, hSpared, hRest⟩ := executes_write hTags.1 (fun _ _ => rfl) hRun
      obtain ⟨hLater, hStill⟩ := ih hTags.2 hRest
      rw [BitVec.ofNat_toNat, BitVec.setWidth_eq] at hFirst
      exact ⟨hFirst.trans hLater, hSpared.trans hStill⟩

/-- `GetExitPC`. -/
theorem executes_getExitPC (hArmed : m.core.armed = false)
    (hRun : Executes icBlockBytes tempStackMem m [.special 5 35, .toExitpc 5] m') :
    Passes icBlockBytes m.core [] m'.core ∧ m'.exitpc = m.core.userExitPC ∧
      m'.memory = m.memory := by
  obtain _ | ⟨hSpecial, hRun⟩ := hRun
  obtain _ | ⟨hTo, hRun⟩ := hRun
  cases hRun
  obtain ⟨middle, value, hBefore, hValue, hAfter, hRegs, hMemory⟩ := hSpecial.special_get rfl
  obtain ⟨hNext, -, hMemory', hExitpc⟩ := hTo.exec rfl
  have hPc : middle.userExitPC = m.core.userExitPC := (hBefore.unarmed hArmed rfl).2.userExitPC
  have hRead : value = m.core.userExitPC := (Option.some.inj hValue).symm.trans hPc
  have hT0 : m'.exitpc = value := hExitpc.trans ((congrFun hRegs 5).trans (Function.update_self ..))
  exact ⟨(hBefore.trans hAfter).trans hNext, hT0.trans hRead, hMemory'.trans hMemory⟩

/-- The stores of `Save_ALLIntRegs`. -/
theorem executes_saves {base : Nat} {indices : List Nat} (hBase : (m.regs 10).toNat = base)
    (hRun : Executes icBlockBytes tempStackMem m (indices.map fun r => .sd r (8 * r) 10) m') :
    Passes icBlockBytes m.core [] m'.core ∧ m'.regs = m.regs ∧
      ∀ r, loadWord m'.memory (base + 8 * r) =
        if r ∈ indices then m.regs r else loadWord m.memory (base + 8 * r) := by
  induction indices generalizing m with
  | nil =>
      cases hRun
      exact ⟨⟨[], rfl, rfl⟩, rfl, fun r => (if_neg List.not_mem_nil).symm⟩
  | cons first rest ih =>
      obtain _ | ⟨hStep, hRun⟩ := hRun
      obtain ⟨hFirst, hRegs, hMemory⟩ := hStep.sd
      obtain ⟨hLater, hRegs', hWords⟩ := ih (by rw [hRegs, hBase]) hRun
      refine ⟨hFirst.trans hLater, hRegs'.trans hRegs, fun r => ?_⟩
      rw [hWords, hRegs, hMemory, hBase]
      by_cases hRest : r ∈ rest
      · rw [if_pos hRest, if_pos (List.mem_cons_of_mem _ hRest)]
      · rw [if_neg hRest]
        by_cases hEq : r = first
        · subst hEq
          rw [if_pos (List.mem_cons_self ..), loadWord_store]
        · rw [if_neg (by simp [hEq, hRest]), loadWord_store_other (by omega)]

/-- `Save_ALLIntRegs` saves all registers, `a0` by way of a special one. -/
theorem executes_saveALLIntRegs (hArmed : m.core.armed = false)
    (hSpace : tempStackMem + 256 ≤ 2 ^ 64)
    (hRun : Executes icBlockBytes tempStackMem m saveALLIntRegs m') :
    Passes icBlockBytes m.core [(9, m.regs 10)] m'.core ∧
      ∀ r, 1 ≤ r → r < 32 → loadWord m'.memory (tempStackMem + 8 * r) = m.regs r := by
  obtain ⟨m₂, hRun, hEnd⟩ := executes_append hRun
  obtain ⟨m₁, hStart, hSaves⟩ := executes_append hRun
  obtain _ | ⟨hSet, hStart⟩ := hStart
  obtain _ | ⟨hLa, hStart⟩ := hStart
  cases hStart
  obtain ⟨hFirst, hRegs₀, -, -⟩ := hSet.special_set (by decide)
  obtain ⟨hNext, hRegs₁, -⟩ := hLa.la
  rw [hRegs₀] at hRegs₁
  have hBase : (m₁.regs 10).toNat = tempStackMem := by
    rw [hRegs₁, Function.update_self, BitVec.toNat_ofNat, Nat.mod_eq_of_lt (by omega)]
  obtain ⟨hSaved, hRegs₂, hWords⟩ := executes_saves hBase hSaves
  obtain _ | ⟨hGet, hEnd⟩ := hEnd
  obtain _ | ⟨hSd, hEnd⟩ := hEnd
  cases hEnd
  obtain ⟨middle, value, hBefore, hValue, hAfter, hRegs₃, hMemory₃⟩ := hGet.special_get rfl
  obtain ⟨hLast, -, hMemory₄⟩ := hSd.sd
  have hToRead : Passes icBlockBytes m.core [(9, m.regs 10)] middle :=
    ((hFirst.trans hNext).trans hSaved).trans hBefore
  have hA0 : value = m.regs 10 :=
    (Option.some.inj hValue).symm.trans (hToRead.unarmed hArmed rfl).2.tempReg1
  refine ⟨(hToRead.trans hAfter).trans hLast, fun r hLow hHigh => ?_⟩
  rw [hRegs₃, hMemory₃, Function.update_self, Function.update_of_ne (by decide), hRegs₂, hBase,
    hA0] at hMemory₄
  rw [hMemory₄]
  by_cases hIs : r = 10
  · subst hIs
    rw [loadWord_store]
  · rw [loadWord_store_other (by omega), hWords, if_pos, hRegs₁, Function.update_of_ne hIs]
    simp only [List.mem_append, List.mem_range'_1]
    omega

/-- The loads of `Load_ALLIntRegs`. -/
theorem executes_loads {base : Nat} {indices : List Nat} (hOwn : 10 ∉ indices)
    (hBase : (m.regs 10).toNat = base)
    (hRun : Executes icBlockBytes tempStackMem m (indices.map fun r => .ld r (8 * r) 10) m') :
    Passes icBlockBytes m.core [] m'.core ∧ m'.memory = m.memory ∧
      ∀ r, m'.regs r = if r ∈ indices then loadWord m.memory (base + 8 * r) else m.regs r := by
  induction indices generalizing m with
  | nil =>
      cases hRun
      exact ⟨⟨[], rfl, rfl⟩, rfl, fun r => (if_neg List.not_mem_nil).symm⟩
  | cons first rest ih =>
      rw [List.mem_cons, not_or] at hOwn
      obtain _ | ⟨hStep, hRun⟩ := hRun
      obtain ⟨hFirst, hRegs, hMemory⟩ := hStep.ld
      obtain ⟨hLater, hMemory', hRegs'⟩ :=
        ih hOwn.2 (by rw [hRegs, Function.update_of_ne hOwn.1, hBase]) hRun
      refine ⟨hFirst.trans hLater, hMemory'.trans hMemory, fun r => ?_⟩
      rw [hRegs', hRegs, hMemory, hBase]
      by_cases hRest : r ∈ rest
      · rw [if_pos hRest, if_pos (List.mem_cons_of_mem _ hRest)]
      · rw [if_neg hRest]
        by_cases hEq : r = first
        · subst hEq
          rw [if_pos (List.mem_cons_self ..), Function.update_self]
        · rw [if_neg (by simp [hEq, hRest]), Function.update_of_ne hEq]

/-- `Load_ALLIntRegs` restores all registers, `a0` last. -/
theorem executes_loadALLIntRegs (hSpace : tempStackMem + 256 ≤ 2 ^ 64)
    (hRun : Executes icBlockBytes tempStackMem m loadALLIntRegs m') :
    Passes icBlockBytes m.core [] m'.core ∧
      ∀ r, 1 ≤ r → r < 32 → m'.regs r = loadWord m.memory (tempStackMem + 8 * r) := by
  obtain ⟨m₂, hRun, hEnd⟩ := executes_append hRun
  obtain ⟨m₁, hLa, hLoads⟩ := executes_append hRun
  obtain _ | ⟨hLa, hNil⟩ := hLa
  cases hNil
  obtain ⟨hFirst, hRegs₁, hMemory₁⟩ := hLa.la
  have hBase : (m₁.regs 10).toNat = tempStackMem := by
    rw [hRegs₁, Function.update_self, BitVec.toNat_ofNat, Nat.mod_eq_of_lt (by omega)]
  obtain ⟨hLoaded, hMemory₂, hRegs₂⟩ := executes_loads (by decide) hBase hLoads
  obtain _ | ⟨hLast, hEnd⟩ := hEnd
  cases hEnd
  obtain ⟨hPassed, hRegs₃, -⟩ := hLast.ld
  refine ⟨(hFirst.trans hLoaded).trans hPassed, fun r hLow hHigh => ?_⟩
  rw [hRegs₃]
  by_cases hIs : r = 10
  · subst hIs
    rw [Function.update_self, hRegs₂, if_neg (by decide), hBase, hMemory₂, hMemory₁]
  · rw [Function.update_of_ne hIs, hRegs₂, if_pos, hMemory₁]
    simp only [List.mem_append, List.mem_range'_1]
    omega

/-- `sample_func`: the registers are back, `exitpc` stands in the register of the last jump, and
the special registers hold what was written. -/
theorem executes_sampleFunc (hArmed : m.core.armed = false) (hSpace : tempStackMem + 256 ≤ 2 ^ 64)
    {sampleFucAddr eventsel : BitVec 64}
    (hRun : Executes icBlockBytes tempStackMem m (sampleFunc sampleFucAddr eventsel) m') :
    (∀ r, 1 ≤ r → r < 32 → m'.regs r = m.regs r) ∧
      ∃ zero, Passes icBlockBytes m.core
        ((9, m.regs 10) :: (9, m.core.userExitPC) :: (127, zero) :: (7, 1) ::
        (setSampleBaseInfo procTag sampleFucAddr ++ setSampleCtrlReg 0 0 eventsel)) m'.core := by
  obtain ⟨m₇, hRun, hLoad⟩ := executes_append hRun
  obtain ⟨m₆, hRun, hCode⟩ := executes_append hRun
  obtain ⟨m₅, hRun, hWrites⟩ := executes_append hRun
  obtain ⟨m₄, hRun, hReset⟩ := executes_append hRun
  obtain ⟨m₃, hRun, hTemp⟩ := executes_append hRun
  obtain ⟨m₂, hRun, hExitPc⟩ := executes_append hRun
  obtain ⟨m₁, hSave, hBasic⟩ := executes_append hRun
  obtain ⟨hSaved, hWords⟩ := executes_saveALLIntRegs hArmed hSpace hSave
  obtain ⟨hBasic, hSpared₂⟩ := hBasic.silent rfl
  have hToPc := hSaved.trans hBasic
  obtain ⟨hUnarmed, hAlike⟩ := hToPc.unarmed hArmed rfl
  obtain ⟨hRead, hPc, hMemory₃⟩ := executes_getExitPC hUnarmed hExitPc
  have hPut : ∀ m₁ : Machine vaddrBits, m₁.exitpc = m₃.exitpc → m₁.exec tempStackMem (.ofExitpc 5) =
      some ⟨Function.update m₁.regs 5 m₃.exitpc, m₁.memory, m₁.exitpc, m₁.core⟩ := by
    intro m₁ hSame
    rw [← hSame]
    rfl
  obtain ⟨_, hWritten, hSpared₄, hNil⟩ := executes_write (by decide) hPut hTemp
  cases hNil
  obtain _ | ⟨hBefore, hReset⟩ := hReset
  obtain _ | ⟨hReset, hNil⟩ := hReset
  cases hNil
  obtain ⟨hPassed, hSpared⟩ := hBefore.silent rfl
  obtain ⟨hReset, -, hMemory₅, -⟩ := hReset.special_set (by decide)
  obtain ⟨hWrites, hSpared₆⟩ :=
    executes_writeSpecials (by simp [setSampleBaseInfo, setSampleCtrlReg]) hWrites
  obtain ⟨hCode, hSpared₇⟩ := hCode.silent rfl
  obtain ⟨hLast, hRegs⟩ := executes_loadALLIntRegs hSpace hLoad
  constructor
  · intro r hLow hHigh
    rw [hRegs r hLow hHigh, hSpared₇.loadWord hLow hHigh, hSpared₆.loadWord hLow hHigh, hMemory₅,
      hSpared.loadWord hLow hHigh, hSpared₄.loadWord hLow hHigh, hMemory₃,
      hSpared₂.loadWord hLow hHigh, hWords r hLow hHigh]
  · have hExit : m₃.exitpc = m.core.userExitPC := hPc.trans hAlike.userExitPC
    rw [hExit] at hWritten
    exact ⟨_,
      ((((((hToPc.trans hRead).trans hWritten).trans hPassed).trans hReset).trans hWrites).trans
        hCode).trans
      hLast⟩

end Execution

/-- What a sample leaves in the registers, if no instruction writes in the same cycle. -/
theorem Core.next_sampled {vaddrBits icBlockBytes : Nat} {core : Core vaddrBits}
    {now : Cycle vaddrBits} (hSampled : core.sampled now = true) (hNow : now.ucsr = []) :
    (core.next icBlockBytes now).armed = false ∧
      (core.next icBlockBytes now).userExitPC = (core.csrPc now icBlockBytes).setWidth 64 ∧
      (core.next icBlockBytes now).tempReg2 = core.tempReg2 ∧
      (core.next icBlockBytes now).tempReg3 = core.tempReg3 ∧
      (core.next icBlockBytes now).tempReg4 = core.tempReg4 := by
  have hExit : core.isOverFlowExcpt now = true := by rw [← sampled_eq, hSampled]
  have hCounted := counted_alike core now
  rw [next, hNow, List.foldl_nil, settled, recordExit, if_pos hExit, flushSample, if_pos hSampled]
  generalize core.countEvents now (core.warmUp now core) = counted at hCounted
  by_cases hFunc : core.exitFuncAddr ≠ 0
  · simp only [if_pos hFunc]
    exact ⟨rfl, trivial, hCounted.tempReg2, hCounted.tempReg3, hCounted.tempReg4⟩
  · simp only [if_neg hFunc]
    exact ⟨rfl, trivial, hCounted.tempReg2, hCounted.tempReg3, hCounted.tempReg4⟩

/-- The cycle commits `JmpTempReg(0)`. -/
structure Cycle.Returns {vaddrBits : Nat} (ret : Cycle vaddrBits) : Prop where
  unexceptional : ret.exception_thrown = false
  flushes : ret.flushCommit = true
  uret : ret.flushUop.isURet = true
  target : ret.flushUop.lrs1.toNat % 4 = 0
  noEret : ret.flushUop.isERET = false
  writes : ret.ucsr = []

/-- The flush of `JmpTempReg(0)` goes to the first temporary register. -/
theorem Core.redirect_return {vaddrBits icBlockBytes : Nat} {core : Core vaddrBits}
    (hArmed : core.armed = false)
    {ret : Cycle vaddrBits} (hReturns : ret.Returns) (now : Cycle vaddrBits) :
    (core.next icBlockBytes ret).redirect now icBlockBytes =
      some (core.tempReg1.setWidth vaddrBits) := by
  have hNot : core.sampled ret = false := by
    cases hSampled : core.sampled ret with
    | false => rfl
    | true => rw [armed_of_sampled hSampled] at hArmed; exact hArmed
  have hAlike := Alike.next icBlockBytes (Alike.refl core) hNot
  rw [hReturns.writes, List.foldl_nil] at hAlike
  have hLast : (core.next icBlockBytes ret).last = ret := rfl
  have hValid : ret.flushValid = true := by rw [Cycle.flushValid, hReturns.flushes, Bool.or_true]
  have hEvec : ret.flushTyp.useCsrEvec = false := by
    rw [Cycle.flushTyp, FlushType.getType, hValid, hReturns.unexceptional, hReturns.noEret,
      Bool.and_false]
    cases (false || ret.commit.any (·.head) && (headUop ret.commit).is_sys_pc2epc) <;> rfl
  rw [redirect, hLast, if_pos hValid, hEvec, if_neg Bool.false_ne_true]
  simp only [hReturns.uret, if_true, hReturns.target, hAlike.tempReg1]

section Sample

variable {vaddrBits icBlockBytes tempStackMem : Nat} {core : Core vaddrBits} {now : Cycle vaddrBits}

/-- A sample is transparent. The core enters `sample_func` and reports nothing to the kernel;
whatever its compiled code does and however long it takes, its last jump goes to the
instruction at which the sample happened, with the integer registers and the temporary
registers of the loader as they were; and there is no other sample before a limit is written. -/
theorem sample_transparent (hSampled : core.sampled now = true) (hFunc : core.exitFuncAddr ≠ 0)
    (hNow : now.ucsr = []) (hBits : vaddrBits ≤ 64) (hSpace : tempStackMem + 256 ≤ 2 ^ 64)
    {regs : Nat → BitVec 64} {memory : Memory} {exitpc sampleFucAddr eventsel : BitVec 64}
    {final : Machine vaddrBits}
    (hRun : Executes icBlockBytes tempStackMem ⟨regs, memory, exitpc, core.next icBlockBytes now⟩
      (sampleFunc sampleFucAddr eventsel) final) :
    core.redirect now icBlockBytes = some core.exitFuncAddr ∧ (core.csrException now).1 = false ∧
      (∀ r, 1 ≤ r → r < 32 → final.regs r = regs r) ∧
      (final.core.tempReg2 = core.tempReg2 ∧ final.core.tempReg3 = core.tempReg3 ∧
        final.core.tempReg4 = core.tempReg4) ∧
      (∀ ret after : Cycle vaddrBits, ret.Returns →
        (final.core.next icBlockBytes ret).redirect after icBlockBytes =
          some (core.csrPc now icBlockBytes)) ∧
      ∀ later : List (Cycle vaddrBits), later.countP Cycle.arms = 0 →
        total (Core.next icBlockBytes) (fun core now => (core.sampled now).toNat) final.core later =
          0 := by
  obtain ⟨hArmed, hExitPC, hTemps⟩ := @Core.next_sampled _ icBlockBytes _ _ hSampled hNow
  generalize core.next icBlockBytes now = entered at *
  obtain ⟨hRegs, zero, hPasses⟩ := executes_sampleFunc hArmed hSpace hRun
  obtain ⟨hStill, hAlike⟩ := hPasses.unarmed hArmed rfl
  have hEnters : core.redirect now icBlockBytes = some core.exitFuncAddr := by
    simp only [Core.sampled, Bool.and_eq_true] at hSampled
    rw [Core.redirect, if_pos hSampled.1.1, if_pos hSampled.1.2, if_pos (Bool.and_eq_true_iff.mpr
      ⟨hSampled.2.1, Bool.and_eq_true_iff.mpr hSampled.2.2⟩), if_pos hFunc]
  have hSilent : (core.csrException now).1 = false := by
    rw [Core.csrException, if_pos (Core.sampled_eq core now ▸ hSampled), if_pos hFunc]
  have hPc : final.core.tempReg1.setWidth vaddrBits = core.csrPc now icBlockBytes := by
    have hTemp : final.core.tempReg1 = (core.csrPc now icBlockBytes).setWidth 64 :=
      hAlike.tempReg1.trans hExitPC
    rw [hTemp, BitVec.setWidth_setWidth_of_le _ hBits, BitVec.setWidth_eq]
  refine ⟨hEnters, hSilent, hRegs,
    ⟨hAlike.tempReg2.trans hTemps.1, hAlike.tempReg3.trans hTemps.2.1,
    hAlike.tempReg4.trans hTemps.2.2⟩, fun ret after hReturns => ?_, fun later hLater => ?_⟩
  · rw [Core.redirect_return hStill hReturns, hPc]
  · exact (Core.unarmed_run hStill hLater).1

end Sample

/-- The instruction reads no special register but the exit pc and the first temporary one. -/
def Inst.readable : Inst → Bool
  | .special _ tag => tag / 32 != 1 || tag == 35 || tag == 36
  | _ => true

/-- Such instructions can be executed, in one cycle for each of their writes. -/
theorem executes_exists (icBlockBytes tempStackMem : Nat) {insts : List Inst}
    (hReads : insts.all Inst.readable = true) (m : Machine 40) :
    ∃ m', Executes icBlockBytes tempStackMem m insts m' := by
  induction insts generalizing m with
  | nil => exact ⟨m, .nil m⟩
  | cons inst rest ih =>
      rw [List.all_cons, Bool.and_eq_true] at hReads
      have hStay : Passes icBlockBytes m.core [] m.core := ⟨[], rfl, rfl⟩
      have hStep : ∃ m', Step icBlockBytes tempStackMem m inst m' := by
        cases inst with
        | special reg tag =>
            by_cases hGet : tag / 32 = 1
            · have hTag : tag = 35 ∨ tag = 36 := by simpa [Inst.readable, hGet] using hReads.1
              rcases hTag with rfl | rfl <;> exact ⟨_, .get hGet hStay rfl hStay⟩
            · exact ⟨_,
                .set hGet ⟨[Core.userCycle 0 [(BitVec.ofNat 12 tag, m.regs reg)]], rfl, rfl⟩⟩
        | code => exact ⟨⟨m.regs, m.memory, m.exitpc, m.core⟩, .code (fun _ _ _ => rfl) hStay⟩
        | la | addi | li | sd | ld | toExitpc | ofExitpc => exact ⟨_, .own rfl hStay⟩
      obtain ⟨m₁, hStep⟩ := hStep
      obtain ⟨m', hRun⟩ := ih hReads.2 m₁
      exact ⟨m', .cons hStep hRun⟩

def overflowCore : Core 40 :=
  { Core.resetCore with
    procTag := 0x1234567, exitFuncAddr := 0x10000, maxEventNum := 1, nowEventNum := 2
    last := { Core.userCycle 0 [] with exception_thrown := true, exc_cause := 17 } }

theorem sample_transparent_overflow :
    ∃ final, Executes 64 0x20000
      ⟨fun r => BitVec.ofNat 64 r, zero, 0, overflowCore.next 64 (Core.userCycle 0 [])⟩
        (sampleFunc 0x10000 0) final ∧
      ∀ r, 1 ≤ r → r < 32 → final.regs r = BitVec.ofNat 64 r := by
  have hReads : (sampleFunc 0x10000 0).all Inst.readable = true := by decide
  obtain ⟨final, hRun⟩ := executes_exists 64 0x20000 hReads _
  exact ⟨final, hRun,
    (sample_transparent (by decide) (by decide) rfl (by decide) (by decide) hRun).2.2.1⟩

end RiscvCkpt.Boom
