import Mathlib.Algebra.Ring.Nat
import RiscvCkpt.Fpga.Sampling

/-! When the core raises its overflow. Seen from outside, a period is a warm-up that counts
instructions and then a stretch that counts events, and only cycles in user mode take part.
`init_start` sets such a period up. -/
namespace RiscvCkpt.Boom

open Clocked

/-- A cycle in user mode, by what there is to count. -/
structure Tick where
  insts : Nat
  events : Nat
  deriving DecidableEq, Repr

def instsOf (ticks : List Tick) : Nat := (ticks.map (·.insts)).sum

def eventsOf (ticks : List Tick) : Nat := (ticks.map (·.events)).sum

/-- The warm-up is over in the `k`-th cycle: it is the first that finds more instructions
counted than `warmup`. It counts nothing itself. -/
structure WarmedAt (warmup start : Nat) (ticks : List Tick) (k : Nat) : Prop where
  inside : k < ticks.length
  reached : warmup < start + instsOf (ticks.take k)
  first : ∀ j < k, start + instsOf (ticks.take j) ≤ warmup

/-- A period, with what it has counted. -/
inductive Phase where
  | warming (insts : Nat)
  | counting (events : Nat)
  deriving DecidableEq, Repr

def Phase.tick (warmup : Nat) : Phase → Tick → Phase
  | .warming insts, tick => if warmup < insts then .counting 0 else .warming (insts + tick.insts)
  | .counting events, tick => .counting (events + tick.events)

def Phase.counted : Phase → Nat
  | .warming _ => 0
  | .counting events => events

@[simp] theorem instsOf_cons (tick : Tick) (rest : List Tick) :
    instsOf (tick :: rest) = tick.insts + instsOf rest := by
      rw [instsOf, List.map_cons, List.sum_cons, instsOf]

@[simp] theorem eventsOf_cons (tick : Tick) (rest : List Tick) :
    eventsOf (tick :: rest) = tick.events + eventsOf rest := by
      rw [eventsOf, List.map_cons, List.sum_cons, eventsOf]

/-- Once the warm-up is over, every event counts. -/
theorem foldl_counting (warmup events : Nat) (ticks : List Tick) :
    ticks.foldl (Phase.tick warmup) (.counting events) = .counting (events + eventsOf ticks) := by
  induction ticks generalizing events with
  | nil => rfl
  | cons tick rest ih => rw [List.foldl_cons, Phase.tick, ih, eventsOf_cons, Nat.add_assoc]

/-- A period counts events from the cycle on behind the one that ends its warm-up. -/
theorem foldl_warming {warmup start : Nat} {ticks : List Tick} {events : Nat} :
    ticks.foldl (Phase.tick warmup) (.warming start) = .counting events ↔
      ∃ k, WarmedAt warmup start ticks k ∧ events = eventsOf (ticks.drop (k + 1)) := by
  induction ticks generalizing start with
  | nil =>
      constructor
      · intro h
        cases h
      · rintro ⟨k, hWarmed, -⟩
        exact absurd hWarmed.inside (Nat.not_lt_zero k)
  | cons tick rest ih =>
      rw [List.foldl_cons, Phase.tick]
      by_cases hOver : warmup < start
      · rw [if_pos hOver, foldl_counting]
        constructor
        · intro h
          refine ⟨0, ⟨Nat.zero_lt_succ _, hOver, fun j hj => absurd hj (Nat.not_lt_zero j)⟩, ?_⟩
          cases h
          exact Nat.zero_add _
        · rintro ⟨k, hWarmed, rfl⟩
          cases k with
          | zero => exact congrArg Phase.counting (Nat.zero_add _)
          | succ k => exact absurd (hWarmed.first 0 (Nat.zero_lt_succ k)) (Nat.not_le.mpr hOver)
      · rw [if_neg hOver, ih]
        have hTake : ∀ j, instsOf ((tick :: rest).take (j + 1)) =
            tick.insts + instsOf (rest.take j) :=
          fun j => by rw [List.take_succ_cons, instsOf_cons]
        constructor
        · rintro ⟨k, hWarmed, hEvents⟩
          refine ⟨k + 1, ⟨Nat.succ_lt_succ hWarmed.inside, ?_, ?_⟩, hEvents⟩
          · rw [hTake, ← Nat.add_assoc]
            exact hWarmed.reached
          · intro j hj
            cases j with
            | zero => exact Nat.not_lt.mp hOver
            | succ j =>
                rw [hTake, ← Nat.add_assoc]
                exact hWarmed.first j (Nat.lt_of_succ_lt_succ hj)
        · rintro ⟨k, hWarmed, hEvents⟩
          cases k with
          | zero => exact absurd hWarmed.reached hOver
          | succ k =>
              refine ⟨k, ⟨Nat.lt_of_succ_lt_succ hWarmed.inside, ?_, ?_⟩, hEvents⟩
              · rw [Nat.add_assoc, ← hTake]
                exact hWarmed.reached
              · intro j hj
                rw [Nat.add_assoc, ← hTake]
                exact hWarmed.first (j + 1) (Nat.succ_lt_succ hj)

/-- What is left to count fits the registers. -/
def Phase.Fits (ticks : List Tick) : Phase → Prop
  | .warming insts => insts + instsOf ticks < 2 ^ 64 ∧ eventsOf ticks < 2 ^ 64
  | .counting events => events + eventsOf ticks < 2 ^ 64

instance (ticks : List Tick) : DecidablePred (Phase.Fits ticks)
  | .warming _ => inferInstanceAs (Decidable (_ ∧ _))
  | .counting _ => inferInstanceAs (Decidable (_ < _))

/-- What is left to count still fits behind a tick. -/
theorem Phase.Fits.tick {warmup : Nat} {phase : Phase} {tick : Tick} {rest : List Tick}
    (h : phase.Fits (tick :: rest)) : (phase.tick warmup tick).Fits rest := by
  cases phase with
  | warming insts =>
      simp only [Fits, instsOf_cons, eventsOf_cons] at h
      rw [Phase.tick]
      split <;> simp only [Fits] <;> omega
  | counting events =>
      simp only [Fits, eventsOf_cons] at h
      simp only [Phase.tick, Fits]
      omega

theorem Phase.Fits.head {phase : Phase} {tick : Tick} {rest : List Tick}
    (h : phase.Fits (tick :: rest)) :
    phase.Fits [tick] := by
  have hInsts : instsOf [] = 0 := rfl
  have hEvents : eventsOf [] = 0 := rfl
  cases phase <;> simp only [Fits, instsOf_cons, eventsOf_cons, hInsts, hEvents] at h ⊢ <;> omega

structure Control where
  procTag : BitVec 32
  maxEventNum : BitVec 64
  warmupInstNum : BitVec 64
  nowWarmupInsts : BitVec 64
  nowEventNum : BitVec 64

/-- The registers are in this phase of a period with these limits. -/
def Control.InPeriod (control : Control) (warmup max : BitVec 64) (phase : Phase) : Prop :=
  control.procTag = 0x1234567 ∧ control.maxEventNum = max ∧ max ≠ 0 ∧
    match phase with
    | .warming insts => control.warmupInstNum = warmup ∧ warmup ≠ 0 ∧
      control.nowWarmupInsts.toNat = insts
    | .counting events => control.warmupInstNum = 0 ∧ control.nowEventNum.toNat = events

def Cycle.quiet {vaddrBits : Nat} (now : Cycle vaddrBits) : Bool :=
  now.ucsr.all fun write => write.1.toNat != 1 && write.1.toNat != 4 && write.1.toNat != 5

namespace Core

variable {vaddrBits : Nat}

def control (core : Core vaddrBits) : Control :=
  ⟨core.procTag, core.maxEventNum, core.warmupInstNum, core.nowWarmupInsts, core.nowEventNum⟩

/-- The cycles of a run in user mode. -/
def ticks (icBlockBytes : Nat) : Core vaddrBits → List (Cycle vaddrBits) → List Tick
  | _, [] => []
  | core, now :: rest =>
      if core.isUserMode now then
        ⟨core.last.commits, core.events now⟩ :: ticks icBlockBytes (core.next icBlockBytes now) rest
      else ticks icBlockBytes (core.next icBlockBytes now) rest

theorem setUcsr_control (core : Core vaddrBits) {write : BitVec 12 × BitVec 64}
    (h : (write.1.toNat != 1 && write.1.toNat != 4 && write.1.toNat != 5) = true) :
    (core.setUcsr write).control = core.control := by
  simp only [Bool.and_eq_true, bne_iff_ne] at h
  unfold setUcsr
  split
  case h_1 hTag => exact absurd hTag h.1.1
  case h_4 hTag => exact absurd hTag h.1.2
  case h_5 hTag => exact absurd hTag h.2
  all_goals rfl

/-- Writes to other special registers leave the period alone. -/
theorem writes_control (core : Core vaddrBits) {writes : List (BitVec 12 × BitVec 64)}
    (h : (writes.all fun write => write.1.toNat != 1 && write.1.toNat != 4 && write.1.toNat != 5) =
      true) :
    (writes.foldl setUcsr core).control = core.control := by
  induction writes generalizing core with
  | nil => rfl
  | cons write rest ih =>
      rw [List.all_cons, Bool.and_eq_true] at h
      rw [List.foldl_cons, ih _ h.2, setUcsr_control core h.1]

/-- What a cycle without a sample does to the registers of a period. -/
theorem next_control {icBlockBytes : Nat} {core : Core vaddrBits} {now : Cycle vaddrBits}
    (hQuiet : now.quiet = true) (hNot : core.sampled now = false) :
    (core.next icBlockBytes now).control =
      if core.warmupValid now then
        if core.nowWarmupInsts > core.warmupInstNum then
          { core.control with warmupInstNum := 0, nowWarmupInsts := 0, nowEventNum := 0 }
        else { core.control with
          nowWarmupInsts := core.nowWarmupInsts + BitVec.ofNat 64 core.last.commits }
      else if core.sampleValid now then
        { core.control with nowEventNum := core.nowEventNum + BitVec.ofNat 64 (core.events now) }
      else core.control := by
  have hSettled : (core.next icBlockBytes now).control = (core.settled icBlockBytes now).control :=
    writes_control (core.settled icBlockBytes now) hQuiet
  have hExit : core.isOverFlowExcpt now = false := by rw [← sampled_eq, hNot]
  have hWarming : core.warmupValid now = true → core.sampleValid now = false := by
    intro hValid
    simp only [warmupValid, Bool.and_eq_true, bne_iff_ne] at hValid
    rw [sampleValid, beq_false_of_ne hValid.2, Bool.and_false]
  rw [hSettled, settled, recordExit, hExit, flushSample, hNot, countEvents, warmUp]
  cases hValid : core.warmupValid now with
  | false =>
      cases core.sampleValid now <;> rfl
  | true =>
      rw [hWarming hValid]
      by_cases hOver : core.nowWarmupInsts > core.warmupInstNum
      · simp only [hOver, if_true]
        rfl
      · simp only [hOver, if_true, if_false]
        rfl

/-- In a period the process is the target and the counter is armed. -/
theorem inPeriod_signals {core : Core vaddrBits} {warmup max : BitVec 64} {phase : Phase}
    (hPeriod : core.control.InPeriod warmup max phase) :
    core.isTargetProc = true ∧ core.armed = true := by
  obtain ⟨hTag, hLimit, hMax, -⟩ := hPeriod
  exact ⟨decide_eq_true hTag, bne_iff_ne.mpr fun hZero => hMax (hLimit.symm.trans hZero)⟩

/-- A cycle is a step of the period if it is one of user mode, and none otherwise. -/
theorem inPeriod_next {icBlockBytes : Nat} {core : Core vaddrBits} {now : Cycle vaddrBits}
    {warmup max : BitVec 64} {phase : Phase} (hPeriod : core.control.InPeriod warmup max phase)
    (hQuiet : now.quiet = true) (hNot : core.sampled now = false)
    (hFits : core.isUserMode now = true → phase.Fits [⟨core.last.commits, core.events now⟩]) :
    (core.next icBlockBytes now).control.InPeriod warmup max
      (if core.isUserMode now then phase.tick warmup.toNat ⟨core.last.commits, core.events now⟩
        else phase) := by
  obtain ⟨hTarget, hArmed⟩ := inPeriod_signals hPeriod
  obtain ⟨hTag, hLimit, hMax, hStands⟩ := hPeriod
  rw [next_control hQuiet hNot]
  cases hUser : core.isUserMode now with
  | false =>
      rw [warmupValid, sampleValid, hUser]
      exact ⟨hTag, hLimit, hMax, hStands⟩
  | true =>
      have hFits := hFits hUser
      cases phase with
      | warming insts =>
          obtain ⟨hWarm, hSome, hInsts⟩ := hStands
          have hWarmInst : core.warmupInstNum = warmup := hWarm
          have hNow : core.nowWarmupInsts.toNat = insts := hInsts
          have hValid : core.warmupValid now = true := by
            rw [warmupValid, hUser, hTarget, hWarmInst, bne_iff_ne.mpr hSome]
            rfl
          have hOver : core.nowWarmupInsts > core.warmupInstNum ↔ warmup.toNat < insts := by
            rw [hWarmInst, ← hNow]
            rfl
          simp only [Phase.Fits, instsOf_cons] at hFits
          rw [if_pos hValid, if_pos rfl, Phase.tick]
          by_cases hDone : warmup.toNat < insts
          · rw [if_pos (hOver.mpr hDone), if_pos hDone]
            exact ⟨hTag, hLimit, hMax, rfl, rfl⟩
          · rw [if_neg (fun h => hDone (hOver.mp h)), if_neg hDone]
            refine ⟨hTag, hLimit, hMax, hWarm, hSome, ?_⟩
            simp only [BitVec.toNat_add, BitVec.toNat_ofNat, hNow]
            omega
      | counting events =>
          obtain ⟨hWarm, hEvents⟩ := hStands
          have hWarmInst : core.warmupInstNum = 0 := hWarm
          have hNow : core.nowEventNum.toNat = events := hEvents
          have hIdle : core.warmupValid now = false := by
            rw [warmupValid, hWarmInst]
            exact Bool.and_false _
          have hValid : core.sampleValid now = true := by
            rw [sampleValid, hUser, hTarget, hArmed, hWarmInst]
            rfl
          simp only [Phase.Fits, eventsOf_cons] at hFits
          rw [hIdle, if_neg Bool.false_ne_true, if_pos hValid, if_pos rfl, Phase.tick]
          refine ⟨hTag, hLimit, hMax, hWarm, ?_⟩
          simp only [BitVec.toNat_add, BitVec.toNat_ofNat, hNow]
          omega

/-- A run is the period's run over its cycles in user mode. -/
theorem inPeriod_run {icBlockBytes : Nat} {core : Core vaddrBits} {cycles : List (Cycle vaddrBits)}
    {warmup max : BitVec 64} {phase : Phase} (hPeriod : core.control.InPeriod warmup max phase)
    (hQuiet : ∀ now ∈ cycles, now.quiet = true)
    (hNone : total (next icBlockBytes) (fun core now => (core.sampled now).toNat) core cycles = 0)
    (hFits : phase.Fits (core.ticks icBlockBytes cycles)) :
    (run (next icBlockBytes) core cycles).control.InPeriod warmup max
      ((core.ticks icBlockBytes cycles).foldl (Phase.tick warmup.toNat) phase) := by
  induction cycles generalizing core phase with
  | nil => exact hPeriod
  | cons now rest ih =>
      rw [List.forall_mem_cons] at hQuiet
      rw [total, Nat.add_eq_zero_iff] at hNone
      have hNot : core.sampled now = false := by simpa using hNone.1
      cases hUser : core.isUserMode now with
      | false =>
          rw [ticks, hUser, if_neg Bool.false_ne_true] at hFits ⊢
          have hNext :=
            @inPeriod_next _ icBlockBytes _ _ _ _ _ hPeriod hQuiet.1 hNot (by simp [hUser])
          rw [hUser] at hNext
          exact ih hNext hQuiet.2 hNone.2 hFits
      | true =>
          rw [ticks, hUser, if_pos rfl] at hFits ⊢
          have hNext :=
            @inPeriod_next _ icBlockBytes _ _ _ _ _ hPeriod hQuiet.1 hNot (fun _ => hFits.head)
          rw [hUser] at hNext
          exact ih hNext hQuiet.2 hNone.2 hFits.tick

/-- In a warm-up no event is counted. -/
theorem nowEventNum_warming {icBlockBytes : Nat} {core : Core vaddrBits} {now : Cycle vaddrBits}
    {warmup max : BitVec 64} {insts : Nat}
    (hPeriod : core.control.InPeriod warmup max (.warming insts)) (hQuiet : now.quiet = true)
    (hNot : core.sampled now = false) (hZero : core.nowEventNum.toNat = 0) :
    (core.next icBlockBytes now).nowEventNum.toNat = 0 := by
  obtain ⟨-, -, -, hWarm, hSome, -⟩ := hPeriod
  have hIdle : core.sampleValid now = false := by
    have hLasts : core.warmupInstNum ≠ 0 := hWarm.trans_ne hSome
    rw [sampleValid, beq_false_of_ne hLasts, Bool.and_false]
  have hControl := congrArg Control.nowEventNum (@next_control _ icBlockBytes _ _ hQuiet hNot)
  rw [hIdle, if_neg Bool.false_ne_true] at hControl
  have hCases : (core.next icBlockBytes now).nowEventNum = 0 ∨
      (core.next icBlockBytes now).nowEventNum = core.nowEventNum := by
    split at hControl
    · split at hControl
      · exact Or.inl hControl
      · exact Or.inr hControl
    · exact Or.inr hControl
  rcases hCases with hCleared | hSame
  · rw [hCleared]
    rfl
  · rw [hSame, hZero]

/-- The event counter shows what the period has counted, if it was cleared before a warm-up. -/
theorem inPeriod_counted {icBlockBytes : Nat} {core : Core vaddrBits}
    {cycles : List (Cycle vaddrBits)} {warmup max : BitVec 64} {phase : Phase}
    (hPeriod : core.control.InPeriod warmup max phase)
    (hCounted : core.nowEventNum.toNat = phase.counted) (hQuiet : ∀ now ∈ cycles, now.quiet = true)
    (hNone : total (next icBlockBytes) (fun core now => (core.sampled now).toNat) core cycles = 0)
    (hFits : phase.Fits (core.ticks icBlockBytes cycles)) :
    (run (next icBlockBytes) core cycles).nowEventNum.toNat =
      ((core.ticks icBlockBytes cycles).foldl (Phase.tick warmup.toNat) phase).counted := by
  induction cycles generalizing core phase with
  | nil => exact hCounted
  | cons now rest ih =>
      rw [List.forall_mem_cons] at hQuiet
      rw [total, Nat.add_eq_zero_iff] at hNone
      have hNot : core.sampled now = false := by simpa using hNone.1
      -- the counter of a period that counts is its event count; in a warm-up it stays cleared
      have hStep : ∀ phase', (core.next icBlockBytes now).control.InPeriod warmup max phase' →
          ((∃ insts, phase' = .warming insts) → ∃ insts, phase = .warming insts) →
          (core.next icBlockBytes now).nowEventNum.toNat = phase'.counted := by
        intro phase' hNext hStays
        cases phase' with
        | counting events => exact hNext.2.2.2.2
        | warming insts =>
            obtain ⟨insts', rfl⟩ := hStays ⟨insts, rfl⟩
            exact nowEventNum_warming hPeriod hQuiet.1 hNot hCounted
      cases hUser : core.isUserMode now with
      | false =>
          rw [ticks, hUser, if_neg Bool.false_ne_true] at hFits ⊢
          have hNext :=
            @inPeriod_next _ icBlockBytes _ _ _ _ _ hPeriod hQuiet.1 hNot (by simp [hUser])
          rw [hUser] at hNext
          exact ih hNext (hStep _ hNext id) hQuiet.2 hNone.2 hFits
      | true =>
          rw [ticks, hUser, if_pos rfl] at hFits ⊢
          have hNext := @inPeriod_next _ icBlockBytes _ _ _ _ _ hPeriod hQuiet.1 hNot
            (fun _ => hFits.head)
          rw [hUser, if_pos rfl] at hNext
          refine ih hNext (hStep _ hNext ?_) hQuiet.2 hNone.2 hFits.tick
          cases phase with
          | warming insts => exact fun _ => ⟨insts, rfl⟩
          | counting events =>
              rintro ⟨insts, hWarming⟩
              cases hWarming

/-- The overflow is the event count of the period behind its limit. -/
theorem overflowEvent_inPeriod {core : Core vaddrBits} {warmup max : BitVec 64} {phase : Phase}
    (hPeriod : core.control.InPeriod warmup max phase) (now : Cycle vaddrBits) :
    core.overflowEvent now = true ↔
      core.isUserMode now = true ∧ ∃ events, phase = .counting events ∧ max.toNat < events := by
  obtain ⟨hTarget, hArmed⟩ := inPeriod_signals hPeriod
  obtain ⟨-, hLimit, -, hStands⟩ := hPeriod
  have hLimit : core.maxEventNum = max := hLimit
  rw [overflowEvent, sampleValid, hTarget, hArmed, hLimit, Bool.and_true, Bool.and_true,
    Bool.and_eq_true, Bool.and_eq_true, and_assoc]
  refine and_congr_right fun _ => ?_
  cases phase with
  | warming insts =>
      obtain ⟨hWarm, hSome, -⟩ := hStands
      have hNever : (core.warmupInstNum == 0) = false := beq_false_of_ne (hWarm.trans_ne hSome)
      rw [hNever]
      simp
  | counting events =>
      obtain ⟨hWarm, hEvents⟩ := hStands
      have hWarm : core.warmupInstNum = 0 := hWarm
      have hEvents : core.nowEventNum.toNat = events := hEvents
      rw [hWarm, decide_eq_true_iff, gt_iff_lt, BitVec.lt_def, hEvents]
      simp

end Core

/-- `SetSampleBaseInfo`: the tags and values that it writes. -/
def setSampleBaseInfo (ptag sampleFuncAddr : BitVec 64) : List (BitVec 12 × BitVec 64) :=
  [(1, ptag), (2, sampleFuncAddr)]

def setSampleCtrlReg (maxevent warmupinst eventsel : BitVec 64) : List (BitVec 12 × BitVec 64) :=
  [(4, maxevent), (5, warmupinst), (3, eventsel)]

def procTag : BitVec 64 := 0x1234567

/-- The writes of `init_start`: `SetCounterLevel("0")`, `RESET_COUNTER`, `SetPfcEnable(1)`,
then the description of the sample. -/
def initStart (sampleFucAddr maxevent warmupinst : BitVec 64) : List (BitVec 12 × BitVec 64) :=
  [(6, 0), (127, 0), (7, 1)] ++ setSampleBaseInfo procTag sampleFucAddr ++
    setSampleCtrlReg maxevent warmupinst 0

/-- The period is over its limit. Without a warm-up, events count from the write of the limit
on: `counted` of them came before these cycles. -/
def Exceeds (warmup max : BitVec 64) (counted : Nat) (ticks : List Tick) : Prop :=
  if warmup = 0 then max.toNat < counted + eventsOf ticks
  else ∃ k, WarmedAt warmup.toNat 0 ticks k ∧ max.toNat < eventsOf (ticks.drop (k + 1))

namespace Core

variable {vaddrBits : Nat} {icBlockBytes : Nat}

/-- A period that is just set up. -/
theorem overflowEvent_iff {core : Core vaddrBits} (hTag : core.procTag = 0x1234567)
    (hMax : core.maxEventNum ≠ 0)
    (hStart : core.nowWarmupInsts = 0) {cycles : List (Cycle vaddrBits)}
    (hQuiet : ∀ now ∈ cycles, now.quiet = true)
    (hNone : total (next icBlockBytes) (fun core now => (core.sampled now).toNat) core cycles = 0)
    (hInsts : instsOf (core.ticks icBlockBytes cycles) < 2 ^ 64)
    (hEvents : core.nowEventNum.toNat + eventsOf (core.ticks icBlockBytes cycles) < 2 ^ 64)
    (now : Cycle vaddrBits) :
    (run (next icBlockBytes) core cycles).overflowEvent now = true ↔
      (run (next icBlockBytes) core cycles).isUserMode now = true ∧
        Exceeds core.warmupInstNum core.maxEventNum core.nowEventNum.toNat
          (core.ticks icBlockBytes cycles) := by
  by_cases hWarm : core.warmupInstNum = 0
  · have hPeriod : core.control.InPeriod core.warmupInstNum core.maxEventNum
        (.counting core.nowEventNum.toNat) := ⟨hTag, rfl, hMax, hWarm, rfl⟩
    rw [overflowEvent_inPeriod (inPeriod_run hPeriod hQuiet hNone hEvents) now,
      foldl_counting, Exceeds, if_pos hWarm]
    simp
  · have hPeriod : core.control.InPeriod core.warmupInstNum core.maxEventNum (.warming 0) :=
      ⟨hTag, rfl, hMax, rfl, hWarm, congrArg BitVec.toNat hStart⟩
    have hFits : (Phase.warming 0).Fits (core.ticks icBlockBytes cycles) := by
      simp only [Phase.Fits]
      omega
    rw [overflowEvent_inPeriod (inPeriod_run hPeriod hQuiet hNone hFits) now, Exceeds, if_neg hWarm]
    refine and_congr_right fun _ => ?_
    constructor
    · rintro ⟨events, hPhase, hOver⟩
      obtain ⟨k, hWarmed, rfl⟩ := foldl_warming.mp hPhase
      exact ⟨k, hWarmed, hOver⟩
    · rintro ⟨k, hWarmed, hOver⟩
      exact ⟨_, foldl_warming.mpr ⟨k, hWarmed, rfl⟩, hOver⟩

/-- The phase in which the write of a limit leaves the core. A warm-up that is still there from
before goes on. -/
def phase (core : Core vaddrBits) : Phase :=
  if core.warmupInstNum = 0 then .counting 0 else .warming core.nowWarmupInsts.toNat

/-- The events that are counted in these cycles behind the write of a limit. -/
def countedIn (icBlockBytes : Nat) (core : Core vaddrBits) (cycles : List (Cycle vaddrBits)) :
    Nat :=
  ((core.ticks icBlockBytes cycles).foldl (Phase.tick core.warmupInstNum.toNat) core.phase).counted

/-- Without a warm-up that is left over these are all events. -/
theorem countedIn_idle {core : Core vaddrBits} (hIdle : core.warmupInstNum = 0)
    (cycles : List (Cycle vaddrBits)) :
    core.countedIn icBlockBytes cycles = eventsOf (core.ticks icBlockBytes cycles) := by
  rw [countedIn, phase, if_pos hIdle, foldl_counting]
  exact Nat.zero_add _

/-- A write of the limit starts a period. -/
theorem inPeriod_phase {core : Core vaddrBits} {max : BitVec 64} (hTag : core.procTag = 0x1234567)
    (hLimit : core.maxEventNum = max) (hMax : max ≠ 0) (hCleared : core.nowEventNum = 0) :
    core.control.InPeriod core.warmupInstNum max core.phase ∧
      core.nowEventNum.toNat = core.phase.counted := by
  rw [phase, hCleared]
  split
  · next hWarm => exact ⟨⟨hTag, hLimit, hMax, hWarm, congrArg BitVec.toNat hCleared⟩, rfl⟩
  · next hWarm => exact ⟨⟨hTag, hLimit, hMax, rfl, hWarm, rfl⟩, rfl⟩

/-- What a cycle counts does not depend on the registers that it writes. -/
theorem ticks_writes {core : Core vaddrBits} (cycles : List (Cycle vaddrBits))
    (last : Cycle vaddrBits) :
    core.ticks icBlockBytes (cycles ++ [{ last with ucsr := [] }]) =
      core.ticks icBlockBytes (cycles ++ [last]) := by
  induction cycles generalizing core with
  | nil => rfl
  | cons now rest ih => simp only [List.cons_append, ticks, ih]

/-- What the event counter shows when the warm-up is written. -/
theorem nowEventNum_limited {limited armed : Core vaddrBits} {max warmupinst : BitVec 64}
    {between : List (Cycle vaddrBits)} {last : Cycle vaddrBits}
    (hTag : limited.procTag = 0x1234567) (hLimit : limited.maxEventNum = max) (hMax : max ≠ 0)
    (hCleared : limited.nowEventNum = 0) (hBetween : ∀ now ∈ between, now.ucsr = [])
    (hLast : last.ucsr = [(5, warmupinst)])
    (hArmed : run (next icBlockBytes) limited (between ++ [last]) = armed)
    (hNone : total (next icBlockBytes) (fun core now => (core.sampled now).toNat) limited
      (between ++ [last]) = 0)
    (hSince : limited.phase.Fits (limited.ticks icBlockBytes (between ++ [last]))) :
    armed.nowEventNum.toNat = limited.countedIn icBlockBytes (between ++ [last]) := by
  obtain ⟨hPeriod, hCounted⟩ := inPeriod_phase hTag hLimit hMax hCleared
  have hQuiet : ∀ now ∈ between ++ [{ last with ucsr := [] }], now.quiet = true := by
    intro now hNow
    have hEmpty : now.ucsr = [] := by
      rcases List.mem_append.mp hNow with hIn | hIn
      · exact hBetween now hIn
      · rw [List.mem_singleton.mp hIn]
    rw [Cycle.quiet, hEmpty]
    rfl
  have hNone' : total (next icBlockBytes) (fun core now => (core.sampled now).toNat) limited
      (between ++ [{ last with ucsr := [] }]) = 0 := by
    rw [total_append] at hNone ⊢
    exact hNone
  rw [← ticks_writes] at hSince
  have hShown := inPeriod_counted hPeriod hCounted hQuiet hNone' hSince
  rw [ticks_writes] at hShown
  rw [countedIn, ← hShown, ← hArmed, run_append, run_append, run_cons, run_cons, run_nil, run_nil,
    next, hLast, next]
  rfl

/-- Wherever the writes of `init_start` fall in a run, from the cycle on that writes the
warm-up the core raises its overflow exactly in the cycles of user mode in which the period
is over its limit. What the kernel commits is not seen, and no other cycle can raise it. Without
a warm-up the period begins behind the cycle that writes the limit, and if none is left over from
before either, it counts all events from there on. -/
theorem initStart_overflow_iff {core : Core vaddrBits}
    {before between after : List (Cycle vaddrBits)} {limit last : Cycle vaddrBits}
    {sampleFucAddr maxevent warmupinst : BitVec 64}
    (hInit : before.flatMap (·.ucsr) ++ limit.ucsr ++ last.ucsr ++ [(3, 0)] =
      initStart sampleFucAddr maxevent warmupinst)
    (hLimit : limit.ucsr ≠ []) (hBetween : ∀ now ∈ between, now.ucsr = [])
    (hLast : last.ucsr = [(5, warmupinst)]) (hMax : maxevent ≠ 0) {limited armed : Core vaddrBits}
    (hLimited : run (next icBlockBytes) core (before ++ [limit]) = limited)
    (hArmed : run (next icBlockBytes) limited (between ++ [last]) = armed)
    (hQuiet : ∀ now ∈ after, now.quiet = true)
    (hNone : total (next icBlockBytes) (fun core now => (core.sampled now).toNat) core
      (before ++ [limit] ++ (between ++ [last] ++ after)) = 0)
    (hSince : limited.phase.Fits (limited.ticks icBlockBytes (between ++ [last])))
    (hInsts : instsOf (armed.ticks icBlockBytes after) < 2 ^ 64)
    (hEvents : limited.countedIn icBlockBytes (between ++ [last]) +
      eventsOf (armed.ticks icBlockBytes after) < 2 ^ 64) (now : Cycle vaddrBits) :
    ((run (next icBlockBytes) core
        (before ++ [limit] ++ (between ++ [last] ++ after))).overflowEvent now = true ↔
      (run (next icBlockBytes) core
          (before ++ [limit] ++ (between ++ [last] ++ after))).isUserMode now = true ∧
        Exceeds warmupinst maxevent (limited.countedIn icBlockBytes (between ++ [last]))
          (armed.ticks icBlockBytes after)) ∧
    (limited.warmupInstNum = 0 → limited.countedIn icBlockBytes (between ++ [last]) =
      eventsOf (limited.ticks icBlockBytes (between ++ [last]))) := by
  refine ⟨?_, fun hIdle => countedIn_idle hIdle _⟩
  rw [total_append _ _ _ (before ++ [limit]), hLimited, total_append _ _ _ (between ++ [last]),
    hArmed, Nat.add_eq_zero_iff, Nat.add_eq_zero_iff] at hNone
  obtain ⟨hFirst, hMiddle, hLater⟩ := hNone
  -- the write of the limit is the last one of its cycle
  obtain ⟨writes, write, hWrites⟩ := (List.eq_nil_or_concat limit.ucsr).resolve_left hLimit
  rw [List.concat_eq_append] at hWrites
  have hBefore : (before ++ [limit]).flatMap (·.ucsr) =
      [(6, 0), (127, 0), (7, 1), (1, Boom.procTag), (2, sampleFucAddr), (4, maxevent)] := by
    rw [List.flatMap_append, List.flatMap_singleton]
    rw [hLast] at hInit
    exact List.append_cancel_right (List.append_cancel_right hInit)
  have hWrite : write = (4, maxevent) := by
    have hEnd := congrArg List.getLast? hBefore
    rw [List.flatMap_append, List.flatMap_singleton, hWrites, ← List.append_assoc,
      List.getLast?_concat] at hEnd
    exact Option.some.inj hEnd
  have hAlike := Alike.run icBlockBytes (Alike.refl core) hFirst
  rw [hLimited, hBefore] at hAlike
  have hCleared : limited.nowEventNum = 0 := by
    rw [run_append, run_cons, run_nil] at hLimited
    rw [← hLimited, next, hWrites, hWrite, List.foldl_append]
    rfl
  have hSame := Alike.run icBlockBytes (Alike.refl limited) hMiddle
  have hNoWrites : between.flatMap (·.ucsr) = [] := List.flatMap_eq_nil_iff.mpr hBetween
  rw [hArmed, List.flatMap_append, hNoWrites, List.flatMap_singleton, hLast] at hSame
  have hTag : armed.procTag = 0x1234567 := hSame.procTag.trans hAlike.procTag
  have hMost : armed.maxEventNum = maxevent := hSame.maxEventNum.trans hAlike.maxEventNum
  have hEarlier : armed.nowEventNum.toNat = limited.countedIn icBlockBytes (between ++ [last]) :=
    nowEventNum_limited hAlike.procTag hAlike.maxEventNum hMax hCleared hBetween hLast hArmed
      hMiddle hSince
  have hWarm : armed.warmupInstNum = warmupinst ∧ armed.nowWarmupInsts = 0 := by
    rw [run_append, run_cons, run_nil] at hArmed
    rw [← hArmed, next, hLast]
    exact ⟨rfl, rfl⟩
  rw [← hEarlier] at hEvents ⊢
  rw [run_append _ _ (before ++ [limit]), hLimited, run_append _ _ (between ++ [last]), hArmed,
    overflowEvent_iff hTag (hMost ▸ hMax) hWarm.2 hQuiet hLater hInsts hEvents, hWarm.1, hMost]

def userCycle (insts : Nat) (ucsr : List (BitVec 12 × BitVec 64)) : Cycle 40 :=
  ⟨0, List.replicate insts ⟨true, true, true, default⟩, false, 0, false, false, 0, 0, 0, ucsr⟩

def resetCore : Core 40 :=
  ⟨0, 0, 0, 0, 0, 0, 0, 0, 0, 0, 0, 0, 0, 0, 0, userCycle 0 [], userCycle 0 []⟩

def startCycles : List (Cycle 40) :=
  ([(6, 0), (127, 0), (7, 1)] ++ setSampleBaseInfo Boom.procTag 0x10000).map
    fun write => userCycle 1 [write]

/-- With a warm-up of one instruction and a limit of one event, the overflow is there in the
sixth cycle: two instructions end the warm-up, a third is not counted, and two more are over
the limit. -/
theorem initStart_overflow_sixth :
    (run (next 64) resetCore (startCycles ++ [userCycle 1 [(4, 1)]] ++ ([userCycle 1 [(5, 1)]] ++
      userCycle 1 [(3, 0)] :: List.replicate 4 (userCycle 1 [])))).overflowEvent
        (userCycle 1 []) = true :=
  (@initStart_overflow_iff 40 64 resetCore startCycles [] _ _ _ 0x10000 1 1 rfl (by decide)
    (by decide) rfl (by decide) _ _ rfl rfl (by decide) (by decide) (by decide) (by decide)
    (by decide) _).1.mpr
    ⟨by decide, (if_neg (by decide)).mpr ⟨2, ⟨by decide, by decide, by decide⟩, by decide⟩⟩

end Core

end RiscvCkpt.Boom
