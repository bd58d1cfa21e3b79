import Mathlib.Algebra.Order.BigOperators.Group.List
import RiscvCkpt.Base.ByteParser
import RiscvCkpt.Cpu.DecodeCache

/-! Instruction traces. `record_traces` makes a record of every executed instruction and
`save_traceinfo` writes it to the trace file; the comment on the trace format says how the
file is to be read. -/
namespace RiscvCkpt

open ByteCodec ByteParser

inductive OpClass
  | IntMultOp
  | IntDivOp
  | OtherOp
  deriving DecidableEq, Repr

/-- The flags of an instruction that a trace depends on. A branch does not access memory
and has no floating-point registers, and an unconditional one is direct or indirect. -/
structure InstFlags where
  isLoad : Bool := false
  isAtomic : Bool := false
  isStore : Bool := false
  isFloating : Bool := false
  isCondCtrl : Bool := false
  isUncondCtrl : Bool := false
  isDirectCtrl : Bool := false
  isIndirectCtrl : Bool := false
  isInteger : Bool := false
  opClass : OpClass := .OtherOp
  branch : (isCondCtrl || isUncondCtrl) = true →
      (isLoad || isAtomic || isStore || isFloating) = false
  uncond : isUncondCtrl = true → (isDirectCtrl || isIndirectCtrl) = true

def covertInstType (flags : InstFlags) : UInt8 :=
  if flags.isLoad then 1
  else if flags.isAtomic then 1
  else if flags.isStore then 2
  else if flags.isFloating then 6
  else if flags.isCondCtrl then 3
  else if flags.isUncondCtrl then
    let type := if flags.isDirectCtrl then 4 else 8
    if flags.isIndirectCtrl then 5 else type
  else if flags.isInteger then
    if flags.opClass = .IntMultOp ∨ flags.opClass = .IntDivOp then 7 else 0
  else 8

structure TraceInfo where
  pc : UInt64
  type : UInt8
  memaddr : UInt64
  memsize : UInt8
  isbranch : UInt8
  istaken : UInt8
  target : UInt64
  sregs : List UInt8
  dregs : List UInt8
  dvalues : List UInt64
  deriving DecidableEq, Repr

/-- An executed instruction: the thread behind it, the last access to memory, and what the
uninitialised record holds. -/
structure TraceStep where
  inst : StaticInst InstFlags
  pc : UInt64
  npc : UInt64
  readIntReg : Nat → UInt64
  readFloatReg : Nat → UInt64
  memInfo : UInt64 × UInt64
  stack : TraceInfo

/-- The value of an output register. -/
def TraceStep.value (step : TraceStep) (reg : RegId) : UInt64 :=
  match reg.regClass with
  | .IntRegClass => step.readIntReg reg.idx
  | .FloatRegClass => step.readFloatReg reg.idx
  | _ => 0

def recordTraces (step : TraceStep) : TraceInfo :=
  let flags := step.inst.operation
  let type := covertInstType flags
  let accesses := type = 1 ∨ type = 2
  { pc := step.pc
    type := type
    memaddr := if accesses then (if step.pc = step.memInfo.1 then step.memInfo.2 else 0)
      else step.stack.memaddr
    memsize := if accesses then 1 else step.stack.memsize
    isbranch := if flags.isCondCtrl || flags.isUncondCtrl then 1 else 0
    istaken :=
      if flags.isCondCtrl then (if step.npc = step.pc + 2 ∨ step.npc = step.pc + 4 then 0 else 1)
      else if flags.isUncondCtrl then 1
      else 0
    target := step.npc
    sregs := (step.inst.srcRegIdx.take 4).map fun reg => UInt8.ofNat reg.idx
    dregs := (step.inst.destRegIdx.take 4).map fun reg => UInt8.ofNat reg.idx
    dvalues := (step.inst.destRegIdx.take 4).map step.value }

def saveTraceinfo (info : TraceInfo) : List UInt8 :=
  wordBytes 8 info.pc.toNat ++ ([info.type] ++
    ((if info.type = 1 ∨ info.type = 2 then wordBytes 8 info.memaddr.toNat ++
      [info.memsize] else []) ++
    ((if info.isbranch ≠ 0 then
        [info.istaken] ++ (if info.istaken ≠ 0 then wordBytes 8 info.target.toNat else [])
      else []) ++
    ((UInt8.ofNat info.sregs.length :: info.sregs) ++
    ((UInt8.ofNat info.dregs.length :: info.dregs) ++
      (info.dvalues.map UInt64.toNat).flatMap (wordBytes 8))))))

def traceFile (steps : List TraceStep) : List UInt8 :=
  steps.flatMap fun step => saveTraceinfo (recordTraces step)

structure TraceRecord where
  pc : Nat
  type : UInt8
  mem : Option (Nat × UInt8)
  branch : Option (UInt8 × Option Nat)
  sregs : List UInt8
  dregs : List UInt8
  dvalues : List Nat
  deriving DecidableEq, Repr

namespace TraceFormat

/-- `loadInstClass` and `storeInstClass`. -/
def isMem (type : UInt8) : Bool := type = 1 ∨ type = 2

/-- `condBranchInstClass`, `uncondDirectBranchInstClass` and `uncondIndirectBranchInstClass`. -/
def isBranch (type : UInt8) : Bool := type = 3 ∨ type = 4 ∨ type = 5

/-- The size of an output value by the name of its register. The format has no name above
the one of the flags. -/
def valueWidth (name : UInt8) : Option Nat :=
  if name < 32 ∨ name = 64 then some 8 else if name < 64 then some 16 else none

def parts : Parser (Nat × UInt8 × Option (Nat × UInt8) × Option (UInt8 × Option Nat) × List UInt8 ×
    List UInt8 × List Nat) :=
  andThen (word 8) fun _ => andThen byte fun type =>
    andThen (optional (isMem type) (andThen (word 8) fun _ => byte)) fun _ =>
    andThen (optional (isBranch type)
      (andThen byte fun taken => optional (taken ≠ 0) (word 8))) fun _ =>
    andThen counted fun _ => andThen counted fun dregs => words (dregs.map valueWidth)

def record : Parser TraceRecord :=
  map (fun (pc, type, mem, branch, sregs, dregs, dvalues) =>
    ⟨pc, type, mem, branch, sregs, dregs, dvalues⟩) parts

def traces : List UInt8 → Option (List TraceRecord) := all record

end TraceFormat

def TraceInfo.view (info : TraceInfo) : TraceRecord where
  pc := info.pc.toNat
  type := info.type
  mem := if info.type = 1 ∨ info.type = 2 then some (info.memaddr.toNat, info.memsize) else none
  branch := if info.isbranch ≠ 0 then
      some (info.istaken, if info.istaken ≠ 0 then some info.target.toNat else none)
    else none
  sregs := info.sregs
  dregs := info.dregs
  dvalues := info.dvalues.map UInt64.toNat

def TraceRecord.size (r : TraceRecord) : Nat :=
  8 + (1 + (r.mem.elim 0 (fun _ => 8 + 1) +
    (r.branch.elim 0 (fun out => 1 + out.2.elim 0 fun _ => 8) +
    (1 + r.sregs.length + (1 + r.dregs.length +
      ((r.dregs.map TraceFormat.valueWidth).map (·.getD 0)).sum)))))

/-- The reader of a record takes as many bytes as the format says. -/
theorem takes_record : Takes TraceFormat.record TraceRecord.size
    (fun r => none ∉ r.dregs.map TraceFormat.valueWidth) := by
  have hMem : Takes (andThen (word 8) fun _ => byte) (fun _ => 8 + 1) _ :=
    (takes_word 8).andThen fun _ => takes_byte
  have hBranch : Takes (andThen byte fun taken => optional (taken ≠ 0) (word 8))
      (fun out => 1 + out.2.elim 0 fun _ => 8) _ :=
    takes_byte.andThen fun taken => (takes_word 8).optional (taken ≠ 0)
  have hParts := (takes_word 8).andThen fun _ => takes_byte.andThen fun type =>
    (hMem.optional (TraceFormat.isMem type)).andThen fun _ =>
    (hBranch.optional (TraceFormat.isBranch type)).andThen fun _ =>
    takes_counted.andThen fun _ => takes_counted.andThen fun dregs =>
    takes_words (dregs.map TraceFormat.valueWidth)
  refine hParts.map (fun _ _ => rfl) ?_
  rintro ⟨pc, type, mem, branch, sregs, dregs, dvalues⟩ ⟨-, -, -, -, -, -, hKnown⟩
  exact hKnown

/-- The type byte tells the branches. -/
theorem isBranch_covertInstType (flags : InstFlags) :
    TraceFormat.isBranch (covertInstType flags) = (flags.isCondCtrl || flags.isUncondCtrl) := by
  by_cases hCtrl : (flags.isCondCtrl || flags.isUncondCtrl) = true
  · have hPlain := flags.branch hCtrl
    simp only [Bool.or_eq_false_iff] at hPlain
    obtain ⟨⟨⟨hLoad, hAtomic⟩, hStore⟩, hFloating⟩ := hPlain
    rw [hCtrl, covertInstType, hLoad, hAtomic, hStore, hFloating]
    cases hCond : flags.isCondCtrl with
    | true => rfl
    | false =>
        have hUncond : flags.isUncondCtrl = true := by rwa [hCond, Bool.false_or] at hCtrl
        have hKind := flags.uncond hUncond
        rw [hUncond]
        cases hIndirect : flags.isIndirectCtrl with
        | true => rfl
        | false =>
            rw [hIndirect, Bool.or_false] at hKind
            rw [hKind]
            rfl
  · rw [Bool.not_eq_true, Bool.or_eq_false_iff] at hCtrl
    rw [hCtrl.1, hCtrl.2, covertInstType, hCtrl.1, hCtrl.2]
    cases flags.isLoad <;> cases flags.isAtomic <;> cases flags.isStore <;>
      cases flags.isFloating <;> try rfl
    cases flags.isInteger with
    | false => rfl
    | true =>
        simp only [Bool.false_eq_true, if_false, if_true]
        split <;> rfl

section Records

variable (step : TraceStep)

theorem recordTraces_isbranch :
    TraceFormat.isBranch (recordTraces step).type = decide ((recordTraces step).isbranch ≠ 0) := by
  have hType := isBranch_covertInstType step.inst.operation
  have hFlag : (recordTraces step).isbranch =
      if step.inst.operation.isCondCtrl || step.inst.operation.isUncondCtrl then 1 else 0 := rfl
  rw [hFlag]
  refine hType.trans ?_
  cases hCtrl : (step.inst.operation.isCondCtrl || step.inst.operation.isUncondCtrl) with
  | true => rfl
  | false => rfl

/-- A record has at most four registers of each kind, and a value for each output. -/
theorem recordTraces_length :
    (recordTraces step).sregs.length ≤ 4 ∧ (recordTraces step).dregs.length ≤ 4 ∧
      (recordTraces step).dvalues.length = (recordTraces step).dregs.length := by
  simp [recordTraces]

end Records

/-- Without a name that the format reserves for vectors, the record is read back. -/
theorem reads_traceinfo {step : TraceStep}
    (h : ∀ name ∈ (recordTraces step).dregs, TraceFormat.valueWidth name = some 8) :
    Reads TraceFormat.record (saveTraceinfo (recordTraces step)) (recordTraces step).view := by
  obtain ⟨hSrc, hDest, hValues⟩ := recordTraces_length step
  have hIsBranch := recordTraces_isbranch step
  generalize recordTraces step = info at *
  have hWord : ∀ w : UInt64, Reads (word 8) (wordBytes 8 w.toNat) w.toNat := fun w =>
    reads_word w.toNat_lt
  have hWidths : info.dregs.map TraceFormat.valueWidth =
      (info.dvalues.map UInt64.toNat).map fun _ => some 8 := by
    rw [List.map_congr_left h, List.map_map]
    simp [Function.comp_def, hValues]
  have hMem : Reads (optional (TraceFormat.isMem info.type) (andThen (word 8) fun _ => byte)) _ _ :=
    Reads.optional fun _ => (hWord info.memaddr).andThen (reads_byte info.memsize)
  have hTarget : Reads (andThen byte fun taken => optional (taken ≠ 0) (word 8)) _ _ :=
    (reads_byte info.istaken).andThen (Reads.optional fun _ => hWord info.target)
  have hBranch := Reads.optional (c := info.isbranch ≠ 0) fun _ => hTarget
  rw [← hIsBranch] at hBranch
  have hNumbers : Reads (words (info.dregs.map TraceFormat.valueWidth)) _ _ :=
    reads_words hWidths fun n hn => by
      obtain ⟨w, -, rfl⟩ := List.mem_map.mp hn
      exact w.toNat_lt
  have hParts : Reads TraceFormat.parts (saveTraceinfo info) (info.view.pc, info.view.type,
      info.view.mem, info.view.branch, info.view.sregs, info.view.dregs, info.view.dvalues) := by
    refine (hWord info.pc).andThen
      ((reads_byte info.type).andThen (hMem.andThen (hBranch.andThen ?_)))
    exact (reads_counted (by omega)).andThen ((reads_counted (by omega)).andThen hNumbers)
  exact hParts.map _

/-- The values of known names take eight bytes each, or more. -/
theorem valueWidths_sum {names : List UInt8} (hKnown : none ∉ names.map TraceFormat.valueWidth) :
    8 * names.length ≤ ((names.map TraceFormat.valueWidth).map (·.getD 0)).sum ∧
    (8 * names.length = ((names.map TraceFormat.valueWidth).map (·.getD 0)).sum →
      ∀ name ∈ names, TraceFormat.valueWidth name = some 8) := by
  induction names with
  | nil => exact ⟨Nat.le_refl _, fun _ _ hName => absurd hName List.not_mem_nil⟩
  | cons name rest ih =>
      rw [List.map_cons, List.mem_cons, not_or] at hKnown
      obtain ⟨hLe, hEq⟩ := ih hKnown.2
      have hWidth : TraceFormat.valueWidth name = some 8 ∨
          TraceFormat.valueWidth name = some 16 := by
        have hSome := hKnown.1
        rw [TraceFormat.valueWidth] at hSome ⊢
        split
        · exact Or.inl rfl
        · split
          · exact Or.inr rfl
          · next hWide hLarge => exact absurd (by rw [if_neg hWide, if_neg hLarge]) hSome
      simp only [List.length_cons, List.map_cons, List.sum_cons, List.forall_mem_cons]
      rcases hWidth with hWidth | hWidth
      · rw [hWidth, Option.getD_some]
        exact ⟨by omega, fun hSame => ⟨rfl, hEq (by omega)⟩⟩
      · rw [hWidth, Option.getD_some]
        exact ⟨by omega, fun hSame => absurd hSame (by omega)⟩

/-- What is written of a record, by its view. -/
theorem saveTraceinfo_length (step : TraceStep) :
    (saveTraceinfo (recordTraces step)).length +
        (((recordTraces step).dregs.map TraceFormat.valueWidth).map (·.getD 0)).sum =
      (recordTraces step).view.size + 8 * (recordTraces step).dregs.length := by
  have hValues := (recordTraces_length step).2.2
  generalize recordTraces step = info at *
  have hNumbers : ((info.dvalues.map UInt64.toNat).flatMap (wordBytes 8)).length =
      info.dregs.length * 8 := by
    rw [length_flatMap_of_width (wordBytes_length 8), List.length_map, hValues]
  have hMem : (if info.type = 1 ∨ info.type = 2 then wordBytes 8 info.memaddr.toNat ++
      [info.memsize] else []).length = info.view.mem.elim 0 fun _ => 8 + 1 := by
    simp only [TraceInfo.view]
    split
    · simp
    · rfl
  have hBranch : (if info.isbranch ≠ 0 then
        [info.istaken] ++ (if info.istaken ≠ 0 then wordBytes 8 info.target.toNat else [])
      else []).length = info.view.branch.elim 0 (fun out => 1 + out.2.elim 0 fun _ => 8) := by
    simp only [TraceInfo.view]
    split
    · split
      · simp
      · rfl
    · rfl
  simp only [saveTraceinfo, List.length_append, wordBytes_length, hMem, hBranch, hNumbers,
    List.length_cons, List.length_nil, TraceRecord.size]
  simp only [TraceInfo.view]
  omega

/-- The name has the width that is written: an integer register, or the flags. -/
def PlainName (reg : RegId) : Prop := reg.idx % 256 < 32 ∨ reg.idx % 256 = 64

/-- The names with a width of eight bytes are the plain ones. -/
theorem plainName_iff (reg : RegId) :
    TraceFormat.valueWidth (UInt8.ofNat reg.idx) = some 8 ↔ PlainName reg := by
  have hLt : UInt8.ofNat reg.idx < 32 ↔ reg.idx % 256 < 32 := by
    rw [UInt8.lt_iff_toNat_lt, UInt8.toNat_ofNat']
    rfl
  have hEq : UInt8.ofNat reg.idx = 64 ↔ reg.idx % 256 = 64 := by
    rw [← UInt8.toNat_inj, UInt8.toNat_ofNat']
    rfl
  rw [TraceFormat.valueWidth, PlainName, ← hLt, ← hEq]
  split
  · next hPlain => exact iff_of_true rfl hPlain
  · next hPlain =>
      refine iff_of_false ?_ hPlain
      split
      · exact fun h => absurd (Option.some.inj h) (by decide)
      · exact (Option.some_ne_none 8).symm

theorem dregs_plain_iff (step : TraceStep) :
    (∀ name ∈ (recordTraces step).dregs, TraceFormat.valueWidth name = some 8) ↔
      ∀ reg ∈ step.inst.destRegIdx.take 4, PlainName reg := by
  have hRegs : (recordTraces step).dregs =
      (step.inst.destRegIdx.take 4).map fun reg => UInt8.ofNat reg.idx := rfl
  rw [hRegs, List.forall_mem_map]
  exact forall₂_congr fun reg _ => plainName_iff reg

/-- Trace files are read back exactly if no recorded output register has a name that the
format gives another width than the eight bytes which are written. Those are the names
from 32 on, among them those of the temporary registers. -/
theorem trace_roundtrip_iff (steps : List TraceStep) :
    TraceFormat.traces (traceFile steps) = some (steps.map fun step => (recordTraces step).view) ↔
      ∀ step ∈ steps, ∀ reg ∈ step.inst.destRegIdx.take 4, PlainName reg := by
  constructor
  · intro hRead
    obtain ⟨hLength, hKnown⟩ := takes_record.all hRead
    have hKnown : ∀ step ∈ steps, none ∉ (recordTraces step).dregs.map TraceFormat.valueWidth :=
      fun step hStep => hKnown _ (List.mem_map_of_mem hStep)
    rw [traceFile, List.length_flatMap, List.map_map] at hLength
    have hLe : ∀ step ∈ steps, (saveTraceinfo (recordTraces step)).length ≤
        (recordTraces step).view.size := by
      intro step hStep
      have hWritten := saveTraceinfo_length step
      have hSum := (valueWidths_sum (hKnown step hStep)).1
      omega
    intro step hStep
    refine (dregs_plain_iff step).mp ((valueWidths_sum (hKnown step hStep)).2 ?_)
    -- no record is read from less than was written, so none is read from more
    by_contra hLess
    have hWritten := saveTraceinfo_length step
    have hSum := (valueWidths_sum (hKnown step hStep)).1
    have hLt : (saveTraceinfo (recordTraces step)).length <
        (recordTraces step).view.size := by omega
    exact absurd hLength (List.sum_lt_sum _ _ hLe ⟨step, hStep, hLt⟩).ne
  · intro hPlain
    refine all_reads (fun step hStep => ?_) fun step _ => ?_
    · exact reads_traceinfo ((dregs_plain_iff step).mpr (hPlain step hStep))
    · rw [saveTraceinfo, wordBytes_succ]
      exact List.cons_ne_nil _ _

def aluFlags : InstFlags where
  isInteger := true
  branch _ := rfl
  uncond h := absurd h Bool.false_ne_true

def jalrFlags : InstFlags where
  isUncondCtrl := true
  isIndirectCtrl := true
  isInteger := true
  branch _ := rfl
  uncond _ := rfl

def traceIsa : IsaDecoder InstFlags where
  decodeInst word :=
    if word = taddinst then ⟨aluFlags, [intReg 1, intReg 0], [intReg 1]⟩
    else if word = tjalrinst then ⟨jalrFlags, [intReg 1], [intReg 0]⟩
    else ⟨aluFlags, [], []⟩
  add := aluFlags
  jalr := jalrFlags
  zeroReg := intReg 0
  decodeInst_add := rfl
  decodeInst_jalr := rfl

/-- `addi x0, x5, 9`, which moves `x5` to the first temporary register. -/
def tempStep : TraceStep where
  inst := (traceIsa.decode .create (fun _ => none) 0x00928013).1
  pc := 0x10000
  npc := 0x10004
  readIntReg _ := 7
  readFloatReg _ := 0
  memInfo := (0, 0)
  stack := ⟨0, 0, 0, 0, 0, 0, 0, [], [], []⟩

/-- The file of this instruction ends in the middle of its value. -/
theorem trace_temp_unreadable :
    tempStep.inst.destRegIdx = [intReg 32] ∧
    (recordTraces tempStep).view = ⟨0x10000, 0, none, none, [5, 0], [32], [7]⟩ ∧
    TraceFormat.traces (traceFile [tempStep]) = none := by
  decide +kernel

end RiscvCkpt
