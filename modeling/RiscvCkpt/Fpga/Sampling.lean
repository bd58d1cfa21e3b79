import RiscvCkpt.Base.Clocked

/-! The registers with which the BOOM core samples a program, cycle by cycle. Every block of
the source reads the registers as they are, and of several connections to a register the last
one counts: the blocks follow one another on the next state in the order of the source. A
`RegNext` holds what its signal was in the cycle before. -/
namespace RiscvCkpt.Boom

open Clocked

inductive FlushType where
  | none
  | xcpt
  | eret
  | refetch
  | next
  deriving DecidableEq, Repr

/-- `useCsrEvec`: bit 0 of the type. -/
def FlushType.useCsrEvec : FlushType → Bool
  | .xcpt | .eret => true
  | .none | .refetch | .next => false

def FlushType.getType (valid i_xcpt i_eret i_refetch : Bool) : FlushType :=
  if !valid then .none
  else if i_eret then .eret
  else if i_xcpt then .xcpt
  else if i_refetch then .refetch
  else .next

/-- What is read of a micro-op that commits. `tag` is `inst(31, 20)`, `isERET` says that it is
`uopERET`, and `pc_lob` is the offset in its fetch block. -/
structure MicroOp where
  ucsrInst : Bool
  tag : BitVec 12
  lrs1 : BitVec 6
  flush_on_commit : Bool
  isERET : Bool
  is_sys_pc2epc : Bool
  is_br : Bool
  is_jalr : Bool
  debug_fsrc : BitVec 2
  is_rvc : Bool
  edge_inst : Bool
  pc_lob : Nat
  deriving DecidableEq, Inhabited

/-- A column of the row at the head of the reorder buffer: whether it is occupied, commits,
and commits an instruction. -/
structure Column where
  head : Bool
  valid : Bool
  arch_valid : Bool
  uop : MicroOp
  deriving DecidableEq

/-- What comes in during a cycle: the privilege, the row that commits, the exception, events
of the memory unit, the pcs of the fetch queue, and for each read port with an instruction
that writes a special register its tag and `rs1_data`. -/
structure Cycle (vaddrBits : Nat) where
  prv : BitVec 2
  commit : List Column
  exception_thrown : Bool
  exc_cause : BitVec 64
  acquire : Bool
  tlbMiss : Bool
  pc : BitVec vaddrBits
  com_pc : BitVec vaddrBits
  evec : BitVec vaddrBits
  ucsr : List (BitVec 12 × BitVec 64)

/-- `SpecialInst_URet`. -/
def MicroOp.isURet (uop : MicroOp) : Bool := uop.ucsrInst && uop.tag = 64

/-- `com_misp_cfi`; the source `BSRC_C` is 3. -/
def Column.misp_cfi (column : Column) : Bool :=
  column.arch_valid && (column.uop.is_br || column.uop.is_jalr) && column.uop.debug_fsrc = 3

def Column.flushes (column : Column) : Bool :=
  column.valid && (column.uop.flush_on_commit || column.uop.isURet)

/-- `PriorityMux(rob_head_vals, uops)`. -/
def headUop : List Column → MicroOp
  | [] => default
  | [column] => column.uop
  | column :: rest => if column.head then column.uop else headUop rest

namespace Cycle

variable {vaddrBits : Nat} (now : Cycle vaddrBits)

/-- `PopCount(rob.io.commit.arch_valids)`. -/
def commits : Nat := now.commit.countP (·.arch_valid)

/-- `PopCount(com_misp_cfi)`. -/
def mispredicts : Nat := now.commit.countP Column.misp_cfi

/-- `com_xcpt.valid`; a memory-ordering failure is not reported. -/
def xcptValid : Bool := now.exception_thrown && now.exc_cause != 16

def flushCommit : Bool := now.commit.any Column.flushes

def flushValid : Bool := now.exception_thrown || now.flushCommit

def flushUop : MicroOp :=
  if now.exception_thrown then headUop now.commit
  else ((now.commit.find? Column.flushes).map (·.uop)).getD default

def flushTyp : FlushType :=
  FlushType.getType now.flushValid (now.exception_thrown && now.exc_cause != 16)
    (now.flushCommit && now.flushUop.isERET)
    (now.exception_thrown || now.commit.any (·.head) && (headUop now.commit).is_sys_pc2epc)

end Cycle

/-- The special registers, and the last two cycles for the `RegNext`s. -/
structure Core (vaddrBits : Nat) where
  procTag : BitVec 32
  exitFuncAddr : BitVec vaddrBits
  warmupInstNum : BitVec 64
  maxEventNum : BitVec 64
  sampleEventSel : BitVec 3
  pfc_maxPriv : BitVec 2
  pfc_enable : BitVec 1
  sampleHappen : BitVec 32
  userExitPC : BitVec 64
  nowWarmupInsts : BitVec 64
  nowEventNum : BitVec 64
  tempReg1 : BitVec 64
  tempReg2 : BitVec 64
  tempReg3 : BitVec 64
  tempReg4 : BitVec 64
  last : Cycle vaddrBits
  lastButOne : Cycle vaddrBits

def causeOverFlow : BitVec 64 := 17

/-- `AlignPCToBoundary`. -/
def alignPC {vaddrBits : Nat} (pc : BitVec vaddrBits) (b : Nat) : BitVec vaddrBits :=
  ~~~(~~~pc ||| BitVec.ofNat vaddrBits (b - 1))

namespace Core

variable {vaddrBits : Nat}

section Signals

variable (core : Core vaddrBits) (now : Cycle vaddrBits)

def isTargetProc : Bool := core.procTag = 0x1234567

/-- The processor has been in user mode for this cycle and the two before. -/
def isUserMode : Bool := now.prv = 0 && core.last.prv = 0 && core.lastButOne.prv = 0

def armed : Bool := core.maxEventNum != 0

def sampleValid : Bool :=
  core.isUserMode now && core.isTargetProc && core.armed && core.warmupInstNum == 0

def warmupValid : Bool := core.isUserMode now && core.isTargetProc && core.warmupInstNum != 0

def overflowEvent : Bool := core.sampleValid now && core.nowEventNum > core.maxEventNum

/-- The events that `sampleEventSel` selects. Commits count one cycle late. -/
def events : Nat :=
  match core.sampleEventSel.toNat with
  | 0 => core.last.commits
  | 1 => now.mispredicts
  | 2 => now.acquire.toNat
  | 3 => now.tlbMiss.toNat
  | _ => 0

def isOverFlowExcpt : Bool :=
  (core.last.xcptValid && core.last.exc_cause = causeOverFlow) && core.overflowEvent now

/-- The branch of the flush logic that leaves the program. -/
def sampled : Bool :=
  core.last.flushValid && core.last.flushTyp.useCsrEvec &&
    (core.overflowEvent now && (core.last.xcptValid && core.last.exc_cause = causeOverFlow))

/-- `csr.io.pc`. -/
def csrPc (icBlockBytes : Nat) : BitVec vaddrBits :=
  alignPC now.com_pc icBlockBytes + BitVec.ofNat vaddrBits (headUop core.last.commit).pc_lob -
    (if (headUop core.last.commit).edge_inst then 2 else 0)

/-- `csr.io.exception` and `csr.io.cause`. An overflow is not reported, or as a user's call. -/
def csrException : Bool × BitVec 64 :=
  if core.isOverFlowExcpt now then (if core.exitFuncAddr ≠ 0 then (false, 2) else (true, 8))
  else (core.last.xcptValid, core.last.exc_cause)

/-- `io.ifu.redirect_pc` on a flush. -/
def redirect (icBlockBytes : Nat) : Option (BitVec vaddrBits) :=
  if core.last.flushValid then
    some <|
      if core.last.flushTyp.useCsrEvec then
        if core.overflowEvent now && (core.last.xcptValid && core.last.exc_cause =
          causeOverFlow) then
          if core.exitFuncAddr ≠ 0 then core.exitFuncAddr else now.evec
        else if core.last.flushTyp = .eret then core.lastButOne.evec else now.evec
      else
        let uop := core.last.flushUop
        let flush_pc := alignPC now.pc icBlockBytes + BitVec.ofNat vaddrBits uop.pc_lob -
          (if uop.edge_inst then 2 else 0)
        if uop.isURet then
          match uop.lrs1.toNat % 4 with
          | 0 => core.tempReg1.setWidth vaddrBits
          | 1 => core.tempReg2.setWidth vaddrBits
          | 2 => core.tempReg3.setWidth vaddrBits
          | _ => core.tempReg4.setWidth vaddrBits
        else if core.last.flushTyp = .refetch then flush_pc
        else flush_pc + (if uop.is_rvc then 2 else 4)
  else none

end Signals

section Blocks

variable (core : Core vaddrBits) (now : Cycle vaddrBits) (next : Core vaddrBits)

def warmUp : Core vaddrBits :=
  if core.warmupValid now then
    if core.nowWarmupInsts > core.warmupInstNum then
      { next with warmupInstNum := 0, nowWarmupInsts := 0, nowEventNum := 0 }
    else { next with nowWarmupInsts := core.nowWarmupInsts + BitVec.ofNat 64 core.last.commits }
  else next

def countEvents : Core vaddrBits :=
  if core.sampleValid now then
    { next with nowEventNum := core.nowEventNum + BitVec.ofNat 64 (core.events now) }
  else next

def flushSample : Core vaddrBits :=
  if core.sampled now then
    let left := if core.exitFuncAddr ≠ 0 then { next with procTag := 0 } else { next with
      sampleHappen := 1 }
    { left with maxEventNum := 0, nowEventNum := 0, pfc_enable := 0 }
  else next

def recordExit (icBlockBytes : Nat) : Core vaddrBits :=
  if core.isOverFlowExcpt now then { next with
    userExitPC := (core.csrPc now icBlockBytes).setWidth 64 } else next

/-- An instruction that writes a special register, by its tag. -/
def setUcsr (write : BitVec 12 × BitVec 64) : Core vaddrBits :=
  let rs1_data := write.2
  match write.1.toNat with
  | 1 => { next with procTag := rs1_data.setWidth 32 }
  | 2 => { next with exitFuncAddr := rs1_data.setWidth vaddrBits }
  | 3 => { next with sampleEventSel := rs1_data.setWidth 3 }
  | 4 => { next with maxEventNum := rs1_data, nowEventNum := 0 }
  | 5 => { next with warmupInstNum := rs1_data, nowWarmupInsts := 0 }
  | 6 => { next with pfc_maxPriv := rs1_data.setWidth 2 }
  | 7 => { next with pfc_enable := rs1_data.setWidth 1 }
  | 8 => { next with sampleHappen := rs1_data.setWidth 32 }
  | 9 => { next with tempReg1 := rs1_data }
  | 10 => { next with tempReg2 := rs1_data }
  | 11 => { next with tempReg3 := rs1_data }
  | 12 => { next with tempReg4 := rs1_data }
  | _ => next

end Blocks

/-- The blocks that run by themselves. -/
def settled (icBlockBytes : Nat) (core : Core vaddrBits) (now : Cycle vaddrBits) : Core vaddrBits :=
  core.recordExit now (core.flushSample now (core.countEvents now (core.warmUp now core)))
    icBlockBytes

/-- One cycle. The instructions that write special registers stand last in the source. -/
def next (icBlockBytes : Nat) (core : Core vaddrBits) (now : Cycle vaddrBits) : Core vaddrBits :=
  { now.ucsr.foldl setUcsr (core.settled icBlockBytes now) with
    last := now, lastButOne := core.last }

end Core

def Cycle.arms {vaddrBits : Nat} (now : Cycle vaddrBits) : Bool :=
  now.ucsr.any fun write => write.1.toNat = 4 && write.2 != 0

/-- A reported exception flushes, and to the vector of the exceptions. -/
theorem Cycle.flush_of_xcpt {vaddrBits : Nat} {now : Cycle vaddrBits}
    (hXcpt : now.xcptValid = true) :
    now.flushValid = true ∧ now.flushTyp.useCsrEvec = true := by
  have hThrown : now.exception_thrown = true := (Bool.and_eq_true_iff.mp hXcpt).1
  have hValid : now.flushValid = true := by rw [flushValid, hThrown, Bool.true_or]
  refine ⟨hValid, ?_⟩
  rw [xcptValid] at hXcpt
  rw [flushTyp, FlushType.getType, hValid, hXcpt]
  cases now.flushCommit && now.flushUop.isERET <;> rfl

namespace Core

variable {vaddrBits : Nat} (icBlockBytes : Nat) (core : Core vaddrBits) (now : Cycle vaddrBits)

/-- The exception unit and the flush logic agree on what a sample is. -/
theorem sampled_eq : core.sampled now = core.isOverFlowExcpt now := by
  rw [sampled, isOverFlowExcpt, Bool.and_comm (core.overflowEvent now)]
  cases hXcpt : core.last.xcptValid with
  | false => simp
  | true => simp [Cycle.flush_of_xcpt hXcpt]

variable {core now}

/-- A sample is taken above the limit only. -/
theorem sampleValid_of_sampled (h : core.sampled now = true) :
    core.sampleValid now = true ∧ core.maxEventNum < core.nowEventNum := by
  simp only [sampled, overflowEvent, Bool.and_eq_true, decide_eq_true_eq] at h
  exact h.2.1

theorem armed_of_sampled (h : core.sampled now = true) : core.armed = true := by
  have hValid := (sampleValid_of_sampled h).1
  simp only [sampleValid, Bool.and_eq_true] at hValid
  exact hValid.1.2

theorem isUserMode_of_sampleValid (h : core.sampleValid now = true) :
    core.isUserMode now = true := by
  simp only [sampleValid, Bool.and_eq_true] at h
  exact h.1.1.1

section Writes

variable (core) (write : BitVec 12 × BitVec 64)

/-- A write arms the counter only if it writes a limit. -/
theorem setUcsr_armed (h : (core.setUcsr write).armed = true) :
    core.armed = true ∨ (write.1.toNat = 4 && write.2 != 0) = true := by
  unfold setUcsr at h
  split at h
  case h_4 hTag =>
    rw [hTag]
    exact Or.inr h
  all_goals exact Or.inl h

/-- A write does not add events. -/
theorem setUcsr_nowEventNum : (core.setUcsr write).nowEventNum.toNat ≤ core.nowEventNum.toNat := by
  unfold setUcsr
  split
  case h_4 => exact Nat.zero_le _
  all_goals exact Nat.le_refl _

end Writes

/-- The writes of a cycle arm the counter only if one of them writes a limit. -/
theorem writes_armed {writes : List (BitVec 12 × BitVec 64)}
    (h : (writes.foldl setUcsr core).armed = true) :
    core.armed = true ∨ (writes.any fun write => write.1.toNat = 4 && write.2 != 0) = true := by
  induction writes generalizing core with
  | nil => exact Or.inl h
  | cons write rest ih =>
      rw [List.any_cons, Bool.or_eq_true]
      rcases ih h with hFirst | hLater
      · rcases setUcsr_armed core write hFirst with hOld | hWrite
        · exact Or.inl hOld
        · exact Or.inr (Or.inl hWrite)
      · exact Or.inr (Or.inr hLater)

theorem writes_nowEventNum (core : Core vaddrBits) (writes : List (BitVec 12 × BitVec 64)) :
    (writes.foldl setUcsr core).nowEventNum.toNat ≤ core.nowEventNum.toNat := by
  induction writes generalizing core with
  | nil => exact Nat.le_refl _
  | cons write rest ih =>
      exact Nat.le_trans (ih (core.setUcsr write)) (setUcsr_nowEventNum core write)

/-- A sample takes the limit away; nothing else of its own accord does. -/
theorem settled_maxEventNum (core : Core vaddrBits) (now : Cycle vaddrBits) :
    (core.settled icBlockBytes now).maxEventNum =
      if core.sampled now then 0 else core.maxEventNum := by
  have hWarm : (core.warmUp now core).maxEventNum = core.maxEventNum := by
    unfold warmUp
    split
    · split <;> rfl
    · rfl
  have hCount : (core.countEvents now (core.warmUp now core)).maxEventNum = core.maxEventNum := by
    unfold countEvents
    split <;> exact hWarm
  have hFlush : (core.flushSample now (core.countEvents now (core.warmUp now core))).maxEventNum =
      if core.sampled now then 0 else core.maxEventNum := by
    unfold flushSample
    split
    · rfl
    · exact hCount
  unfold settled recordExit
  split <;> exact hFlush

/-- A sample takes the count away, and it grows by the events of user mode only. -/
theorem settled_nowEventNum (core : Core vaddrBits) (now : Cycle vaddrBits) :
    (core.settled icBlockBytes now).nowEventNum.toNat ≤
      if core.sampled now then 0
      else core.nowEventNum.toNat + (if core.isUserMode now then core.events now else 0) := by
  have hWarm : (core.warmUp now core).nowEventNum.toNat ≤ core.nowEventNum.toNat := by
    unfold warmUp
    split
    · split
      · exact Nat.zero_le _
      · exact Nat.le_refl _
    · exact Nat.le_refl _
  have hCount : (core.countEvents now (core.warmUp now core)).nowEventNum.toNat ≤
      core.nowEventNum.toNat + (if core.isUserMode now then core.events now else 0) := by
    unfold countEvents
    split
    case isTrue hValid =>
      rw [if_pos (isUserMode_of_sampleValid hValid), BitVec.toNat_add, BitVec.toNat_ofNat,
        Nat.add_mod_mod]
      exact Nat.mod_le _ _
    case isFalse => exact Nat.le_trans hWarm (Nat.le_add_right _ _)
  have hFlush :
      (core.flushSample now (core.countEvents now (core.warmUp now core))).nowEventNum.toNat ≤
      if core.sampled now then 0
      else core.nowEventNum.toNat + (if core.isUserMode now then core.events now else 0) := by
    unfold flushSample
    split
    · exact Nat.le_refl 0
    · exact hCount
  unfold settled recordExit
  split <;> exact hFlush

/-- A sample uses the limit up, and only a write brings a new one. -/
theorem arming_paid (core : Core vaddrBits) (now : Cycle vaddrBits) :
    (core.sampled now).toNat + (core.next icBlockBytes now).armed.toNat ≤ core.armed.toNat +
      now.arms.toNat := by
  have hUses : core.sampled now = true → core.armed = true := armed_of_sampled
  have hBrings : (core.next icBlockBytes now).armed = true →
      core.armed = true ∧ core.sampled now = false ∨ now.arms = true := by
    intro hNext
    refine (writes_armed hNext).imp_left fun hKept => ?_
    rw [armed, settled_maxEventNum] at hKept
    cases hSampled : core.sampled now with
    | false =>
        rw [hSampled] at hKept
        exact ⟨hKept, rfl⟩
    | true =>
        rw [hSampled, if_pos rfl] at hKept
        exact absurd hKept (by decide)
  revert hUses hBrings
  cases core.sampled now <;> cases (core.next icBlockBytes now).armed <;> cases core.armed <;>
    cases now.arms <;> decide

/-- A sample has been counted for. -/
theorem events_paid (core : Core vaddrBits) (now : Cycle vaddrBits) :
    (if core.sampled now then core.maxEventNum.toNat + 1 else 0) +
        (core.next icBlockBytes now).nowEventNum.toNat ≤
      core.nowEventNum.toNat + (if core.isUserMode now then core.events now else 0) := by
  have hNext : (core.next icBlockBytes now).nowEventNum.toNat ≤
      (core.settled icBlockBytes now).nowEventNum.toNat :=
    writes_nowEventNum (core.settled icBlockBytes now) now.ucsr
  have hSettled := settled_nowEventNum icBlockBytes core now
  split
  case isTrue hSampled =>
    have hOver : core.maxEventNum.toNat < core.nowEventNum.toNat :=
      (sampleValid_of_sampled hSampled).2
    rw [if_pos hSampled] at hSettled
    omega
  case isFalse hSampled =>
    rw [if_neg hSampled] at hSettled
    omega

/-- In every run, whatever the program, the kernel and the memory unit do, a sample needs a
limit that was written for it alone, and more events in user mode than that limit. -/
theorem samples_bounded (core : Core vaddrBits) (cycles : List (Cycle vaddrBits)) :
    total (next icBlockBytes) (fun core now => (core.sampled now).toNat) core cycles ≤
        core.armed.toNat + cycles.countP Cycle.arms ∧
      total (next icBlockBytes)
        (fun core now => if core.sampled now then core.maxEventNum.toNat + 1 else 0)
          core cycles ≤
        core.nowEventNum.toNat +
          total (next icBlockBytes)
            (fun core now => if core.isUserMode now then core.events now else 0) core cycles := by
  have hArmings := total_paid (next icBlockBytes) (fun core => core.armed.toNat)
    (arming_paid icBlockBytes) core cycles
  have hEvents := total_paid (next icBlockBytes) (fun core => core.nowEventNum.toNat)
    (events_paid icBlockBytes) core cycles
  rw [total_countP] at hArmings
  exact ⟨by omega, by omega⟩

/-- The registers agree that only instructions and a sample change. -/
structure Alike (a b : Core vaddrBits) : Prop where
  procTag : a.procTag = b.procTag
  exitFuncAddr : a.exitFuncAddr = b.exitFuncAddr
  maxEventNum : a.maxEventNum = b.maxEventNum
  sampleEventSel : a.sampleEventSel = b.sampleEventSel
  pfc_maxPriv : a.pfc_maxPriv = b.pfc_maxPriv
  pfc_enable : a.pfc_enable = b.pfc_enable
  sampleHappen : a.sampleHappen = b.sampleHappen
  userExitPC : a.userExitPC = b.userExitPC
  tempReg1 : a.tempReg1 = b.tempReg1
  tempReg2 : a.tempReg2 = b.tempReg2
  tempReg3 : a.tempReg3 = b.tempReg3
  tempReg4 : a.tempReg4 = b.tempReg4

theorem Alike.refl (core : Core vaddrBits) : core.Alike core := by
  constructor <;> rfl

theorem Alike.setUcsr {a b : Core vaddrBits} (h : a.Alike b) (write : BitVec 12 × BitVec 64) :
    (a.setUcsr write).Alike (b.setUcsr write) := by
  obtain ⟨h1, h2, h3, h4, h5, h6, h7, h8, h9, h10, h11, h12⟩ := h
  unfold Core.setUcsr
  split <;> constructor <;> first | rfl | assumption

theorem Alike.writes {a b : Core vaddrBits} (h : a.Alike b)
    (writes : List (BitVec 12 × BitVec 64)) :
    (writes.foldl Core.setUcsr a).Alike (writes.foldl Core.setUcsr b) := by
  induction writes generalizing a b with
  | nil => exact h
  | cons write rest ih => exact ih (h.setUcsr write)

theorem Alike.trans {a b c : Core vaddrBits} (h : a.Alike b) (h' : b.Alike c) : a.Alike c where
  procTag := h.procTag.trans h'.procTag
  exitFuncAddr := h.exitFuncAddr.trans h'.exitFuncAddr
  maxEventNum := h.maxEventNum.trans h'.maxEventNum
  sampleEventSel := h.sampleEventSel.trans h'.sampleEventSel
  pfc_maxPriv := h.pfc_maxPriv.trans h'.pfc_maxPriv
  pfc_enable := h.pfc_enable.trans h'.pfc_enable
  sampleHappen := h.sampleHappen.trans h'.sampleHappen
  userExitPC := h.userExitPC.trans h'.userExitPC
  tempReg1 := h.tempReg1.trans h'.tempReg1
  tempReg2 := h.tempReg2.trans h'.tempReg2
  tempReg3 := h.tempReg3.trans h'.tempReg3
  tempReg4 := h.tempReg4.trans h'.tempReg4

/-- The warm-up and the counting leave these registers alone. -/
theorem counted_alike (core : Core vaddrBits) (now : Cycle vaddrBits) :
    (core.countEvents now (core.warmUp now core)).Alike core := by
  have hWarm : (core.warmUp now core).Alike core := by
    unfold warmUp
    split
    · split <;> constructor <;> rfl
    · exact Alike.refl core
  unfold countEvents
  split
  · obtain ⟨h1, h2, h3, h4, h5, h6, h7, h8, h9, h10, h11, h12⟩ := hWarm
    constructor <;> assumption
  · exact hWarm

/-- Without a sample, a cycle is its instructions. -/
theorem Alike.next {a b : Core vaddrBits} (h : a.Alike b) {now : Cycle vaddrBits}
    (hNot : a.sampled now = false) :
    (a.next icBlockBytes now).Alike (now.ucsr.foldl Core.setUcsr b) := by
  have hExit : a.isOverFlowExcpt now = false := by rw [← sampled_eq, hNot]
  have hSettled : (a.settled icBlockBytes now).Alike b := by
    rw [settled, recordExit, hExit, flushSample, hNot]
    exact (counted_alike a now).trans h
  obtain ⟨h1, h2, h3, h4, h5, h6, h7, h8, h9, h10, h11, h12⟩ := hSettled.writes now.ucsr
  constructor <;> assumption

/-- Without samples, a run is its instructions, whenever they come. -/
theorem Alike.run {a b : Core vaddrBits} (h : a.Alike b) {cycles : List (Cycle vaddrBits)}
    (hNone : total (Core.next icBlockBytes) (fun core now => (core.sampled now).toNat) a cycles =
      0) :
    (Clocked.run (Core.next icBlockBytes) a cycles).Alike
      ((cycles.flatMap (·.ucsr)).foldl Core.setUcsr b) := by
  induction cycles generalizing a b with
  | nil => exact h
  | cons now rest ih =>
      rw [total, Nat.add_eq_zero_iff] at hNone
      have hNot : a.sampled now = false := by simpa using hNone.1
      rw [List.flatMap_cons, List.foldl_append]
      exact ih (Alike.next icBlockBytes h hNot) hNone.2

end Core

end RiscvCkpt.Boom
