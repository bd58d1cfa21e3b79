import Mathlib.Data.List.GetD
import RiscvCkpt.Cpu.RecreatedCalls

/-! System calls under emulation. An `ecall` ends in a fault that calls the handler of the
emulator, stores its result and moves the pc behind the call; around the handler, the call
is recorded for the pending checkpoints. -/
namespace RiscvCkpt

open ByteMemory MachineInt

structure SyscallReturn where
  value : Int
  count : Nat
  retryFlag : Bool
  deriving DecidableEq, Repr

namespace SyscallReturn

def ofValue (v : Int) : SyscallReturn := ⟨v, 1, false⟩

/-- The constructor without arguments leaves the value as it was in memory. -/
def noValue (stack : Int) : SyscallReturn := ⟨stack, 0, false⟩

def ofValues (v1 _v2 : Int) : SyscallReturn := ⟨v1, 2, false⟩

def retry : SyscallReturn := { ofValue 0 with retryFlag := true }

def successful (ret : SyscallReturn) : Bool := ret.value ≥ 0 ∨ ret.value ≤ -4096

def needsRetry (ret : SyscallReturn) : Bool := ret.retryFlag

def suppressed (ret : SyscallReturn) : Bool := ret.count = 0

def returnValue (ret : SyscallReturn) : Int := ret.value

def encodedValue (ret : SyscallReturn) : Int := ret.value

/-- The values that a handler can produce. -/
inductive Made : SyscallReturn → Prop where
  | one (v : Int) : Made (ofValue v)
  | none (stack : Int) : Made (noValue stack)
  | two (v1 v2 : Int) : Made (ofValues v1 v2)
  | again : Made retry

/-- A retry comes with the value zero. -/
theorem Made.retried {ret : SyscallReturn} (h : ret.Made) (hRetry : ret.needsRetry = true) :
    ret.suppressed = false ∧ uint64 ret.encodedValue = 0 := by
  cases h with
  | one v => exact absurd hRetry Bool.false_ne_true
  | none stack => exact absurd hRetry Bool.false_ne_true
  | two v1 v2 => exact absurd hRetry Bool.false_ne_true
  | again => exact ⟨rfl, rfl⟩

end SyscallReturn

structure ThreadContext where
  pc : Nat
  npc : Nat
  regs : Nat → Nat
  memory : Memory

namespace ThreadContext

def setIntReg (tc : ThreadContext) (reg value : Nat) : ThreadContext :=
  { tc with regs := Function.update tc.regs reg value }

def params (tc : ThreadContext) : List Nat :=
  [tc.regs 10, tc.regs 11, tc.regs 12, tc.regs 13, tc.regs 14]

def entered (tc : ThreadContext) : SyscallInfo :=
  { pc := tc.pc, num := tc.regs 17 % 2 ^ 32, params := tc.params }

end ThreadContext

/-- A call of `ckpt_add_sysexe` from a handler. Its pc is that of the thread. -/
structure SysExe where
  ret : Nat
  bufaddr : Nat
  data : List UInt8
  deriving DecidableEq, Repr

def SysExe.event (pc : Nat) (exe : SysExe) : Event := .sysexe pc exe.ret exe.bufaddr exe.data

def SysExe.add (info : SyscallInfo) (exe : SysExe) : SyscallInfo :=
  { info with ret := exe.ret, bufaddr := exe.bufaddr, data := info.data ++ exe.data }

/-- What a handler leaves behind: its result, what it has recorded, and the thread. -/
structure Handled where
  ret : SyscallReturn
  exes : List SysExe
  tc : ThreadContext

/-- A handler; `none` where it ends the simulation. -/
abbrev Executor := ThreadContext → Option Handled

def storeResult (tc : ThreadContext) (ret : SyscallReturn) : ThreadContext :=
  if ret.suppressed || ret.needsRetry then tc
  else if ret.successful then tc.setIntReg 10 (uint64 ret.returnValue)
  else tc.setIntReg 10 (uint64 ret.encodedValue)

/-- `SyscallDesc::doSyscall`, with the recording on. The result is stored by the wrapper
around the handler. -/
def SyscallDesc.doSyscall (executor : Executor) (tc : ThreadContext) :
    Option (ThreadContext × List Event) :=
  (executor tc).map fun handled =>
    let returned := storeResult handled.tc handled.ret
    (returned, handled.exes.map (·.event tc.pc) ++
      [.sysret returned.pc (!handled.ret.suppressed) (uint64 handled.ret.encodedValue)])

/-- `EmuLinux::syscall`. The table is searched for the number as an `int`. -/
def EmuLinux.syscall (syscallDescs : Int → Executor) (tc : ThreadContext) :
    Option (ThreadContext × List Event) :=
  (SyscallDesc.doSyscall (syscallDescs (int32 (tc.regs 17))) tc).map fun result =>
    (result.1, .sysenter tc.pc (tc.regs 17) tc.params :: result.2)

/-- `RiscvFault::invoke` for a `SyscallFault` without a full system. The pc advances from
where it was, whatever the handler has returned. -/
def SyscallFault.invoke (syscallDescs : Int → Executor) (tc : ThreadContext) :
    Option (ThreadContext × List Event) :=
  (EmuLinux.syscall syscallDescs tc).map fun result =>
    ({ result.1 with pc := tc.npc, npc := tc.npc + 4 }, result.2)

/-- What the host answers to `read` and to `readlink`. -/
inductive HostResult where
  | failed (errno : Nat)
  | bytes (data : List UInt8)
  deriving DecidableEq, Repr

namespace HostResult

def result : HostResult → Int
  | failed _ => -1
  | bytes data => data.length

def errno : HostResult → Nat
  | failed errno => errno
  | bytes _ => 0

def data : HostResult → List UInt8
  | failed _ => []
  | bytes data => data

theorem result_cases (res : HostResult) :
    res.result = -1 ∧ res.data = [] ∨ res.result = res.data.length := by
  cases res with
  | failed errno => exact Or.inl ⟨rfl, rfl⟩
  | bytes data => exact Or.inr rfl

end HostResult

/-- A file of the host behind a file descriptor: the result of `poll`, the flag
`TGT_O_NONBLOCK`, and what `read` returns for a size. -/
structure HostFile where
  poll : Nat
  nonblock : Bool
  read : Nat → HostResult

/-- The host under the emulator. `realpath` is that of the program. -/
structure Host where
  fds : Int → Option HostFile
  tryReadString : Memory → Nat → Option String
  checkPathRedirect : String → String
  readlink : String → Nat → HostResult
  realpath : Option (List UInt8)

structure BufferArg where
  addr : Nat
  bytes : List UInt8
  deriving DecidableEq, Repr

namespace BufferArg

/-- The buffer starts with zeros. A negative size is no size for an array. -/
def new (addr : Nat) (size : Int) : Option BufferArg :=
  if size < 0 then none else some ⟨addr, List.replicate size.toNat 0⟩

/-- Write from the start of the buffer; `none` behind its end. -/
def fill (buf : BufferArg) (data : List UInt8) : Option BufferArg :=
  if data.length ≤ buf.bytes.length then
    some { buf with bytes := data ++ buf.bytes.drop data.length }
  else none

def copyOut (buf : BufferArg) (m : Memory) : Memory := store m buf.addr buf.bytes

end BufferArg

def ebadf : Int := -9

def efault : Int := -14

/-- `readFunc`. What was read is recorded, and the whole buffer is copied out. -/
def readFunc (host : Host) : Executor := fun tc =>
  match host.fds (int32 (tc.regs 10)) with
  | none => some ⟨.ofValue ebadf, [], tc⟩
  | some file =>
      if file.poll = 0 ∧ file.nonblock = false then some ⟨.retry, [], tc⟩
      else
        let nbytes := int32 (tc.regs 12)
        (BufferArg.new (tc.regs 11) nbytes).bind fun buf_arg =>
          let host_read := file.read nbytes.toNat
          (buf_arg.fill host_read.data).map fun buf_arg =>
            let bytes_read := host_read.result
            let datasize := if bytes_read > 0 then bytes_read.toNat else 0
            let memory := if bytes_read > 0 then buf_arg.copyOut tc.memory else tc.memory
            ⟨.ofValue (if bytes_read = -1 then -host_read.errno else bytes_read),
              [⟨uint64 bytes_read, tc.regs 11, buf_arg.bytes.take datasize⟩],
              { tc with memory := memory }⟩

/-- `strncpy`, which fills the rest of its destination with zeros. -/
def strncpy (source : List UInt8) (n : Nat) : List UInt8 :=
  source.take n ++ List.replicate (n - source.length) 0

/-- `readlinkFunc`. The whole buffer is copied out, also if the host has failed. -/
def readlinkFunc (host : Host) : Executor := fun tc =>
  match host.tryReadString tc.memory (tc.regs 10) with
  | none => some ⟨.ofValue efault, [], tc⟩
  | some pathname =>
      let path := host.checkPathRedirect pathname
      let bufsiz := tc.regs 12
      (BufferArg.new (tc.regs 11) (int32 bufsiz)).bind fun buf =>
        let linked : Option (Int × Nat × BufferArg) :=
          if path ≠ "/proc/self/exe" then
            let host_link := host.readlink path bufsiz
            (buf.fill host_link.data).map fun buf => (host_link.result, host_link.errno, buf)
          else
            host.realpath.bind fun real_path =>
              (buf.fill (strncpy real_path bufsiz)).map fun buf =>
                (int32 (if real_path.length > bufsiz then bufsiz else real_path.length), 0, buf)
        linked.map fun (result, errno, buf) =>
          ⟨.ofValue (if result = -1 then -errno else result),
            if result ≠ -1 then [⟨uint64 result, tc.regs 11, buf.bytes.take (uint32 result)⟩]
            else [], { tc with memory := buf.copyOut tc.memory }⟩

/-- The record of a handled call. `add_sysret` finds it under the pc of the thread. -/
def Handled.record (handled : Handled) (tc : ThreadContext) : SyscallInfo :=
  let executed := handled.exes.foldl SysExe.add tc.entered
  if handled.tc.pc = tc.pc then
    { executed with ret := uint64 handled.ret.encodedValue, hasret := !handled.ret.suppressed }
  else executed

theorem storeResult_pc (tc : ThreadContext) (ret : SyscallReturn) :
    (storeResult tc ret).pc = tc.pc := by
  rw [storeResult]
  split
  · rfl
  · split <;> rfl

/-- What the register holds behind a call. -/
theorem storeResult_a0 (tc : ThreadContext) (ret : SyscallReturn) :
    (storeResult tc ret).regs 10 =
      if ret.suppressed || ret.needsRetry then tc.regs 10 else uint64 ret.encodedValue := by
  rw [storeResult]
  split
  · rfl
  · split <;> rfl

/-- The entry of a call survives the hooks of its handler. -/
theorem executed_frame (exes : List SysExe) (info : SyscallInfo) :
    (exes.foldl SysExe.add info).pc = info.pc ∧ (exes.foldl SysExe.add info).num = info.num ∧
      (exes.foldl SysExe.add info).hasret = info.hasret ∧
      (exes.foldl SysExe.add info).params = info.params := by
  induction exes generalizing info with
  | nil => exact ⟨rfl, rfl, rfl, rfl⟩
  | cons exe rest ih => exact ih (exe.add info)

/-- The hooks of a handler fill the last record. -/
theorem callStep_exes (sysinfos : List SyscallInfo) (exes : List SysExe) (last : SyscallInfo) :
    (exes.map (·.event last.pc)).foldl callStep (sysinfos ++ [last]) =
      sysinfos ++ [exes.foldl SysExe.add last] := by
  induction exes generalizing last with
  | nil => rfl
  | cons exe rest ih =>
      have hStep : callStep (sysinfos ++ [last]) (exe.event last.pc) =
          sysinfos ++ [exe.add last] := by
        simp [callStep, SysExe.event, SysExe.add]
      rw [List.map_cons, List.foldl_cons, hStep]
      exact ih (exe.add last)

/-- The record of a call keeps its pc, its number and its parameters. -/
theorem Handled.record_frame (handled : Handled) (tc : ThreadContext) :
    (handled.record tc).pc = tc.pc ∧ (handled.record tc).num = tc.regs 17 % 2 ^ 32 ∧
      (handled.record tc).params = tc.params := by
  obtain ⟨hPc, hNum, -, hParams⟩ := executed_frame handled.exes tc.entered
  rw [record]
  split
  · exact ⟨hPc, hNum, hParams⟩
  · exact ⟨hPc, hNum, hParams⟩

/-- A call that the program passes leaves the pc behind itself and one record. -/
theorem invoke_records {syscallDescs : Int → Executor} {tc after : ThreadContext}
    {events : List Event} (h : SyscallFault.invoke syscallDescs tc = some (after, events)) :
    ∃ handled, syscallDescs (int32 (tc.regs 17)) tc = some handled ∧ after.pc = tc.npc ∧
      after.regs = (storeResult handled.tc handled.ret).regs ∧
      ∀ sysinfos, events.foldl callStep sysinfos = sysinfos ++ [handled.record tc] := by
  simp only [SyscallFault.invoke, EmuLinux.syscall, SyscallDesc.doSyscall,
    Option.map_eq_some_iff] at h
  obtain ⟨_, ⟨_, ⟨handled, hHandled, rfl⟩, rfl⟩, hResult⟩ := h
  obtain ⟨rfl, rfl⟩ := Prod.mk.inj hResult
  refine ⟨handled, hHandled, rfl, rfl, fun sysinfos => ?_⟩
  have hEnter : callStep sysinfos (.sysenter tc.pc (tc.regs 17) tc.params) =
      sysinfos ++ [tc.entered] := rfl
  have hPc := (executed_frame handled.exes tc.entered).1
  have hExes := callStep_exes sysinfos handled.exes tc.entered
  rw [List.foldl_cons, hEnter, List.foldl_append, storeResult_pc]
  change [_].foldl callStep ((handled.exes.map (·.event tc.entered.pc)).foldl callStep _) = _
  rw [hExes, Handled.record]
  generalize handled.exes.foldl SysExe.add tc.entered = executed at hPc ⊢
  have hPc : executed.pc = tc.pc := hPc
  by_cases hSame : handled.tc.pc = tc.pc
  · simp [callStep, hSame, hPc]
  · have hOther : ¬ tc.pc = handled.tc.pc := fun h => hSame h.symm
    simp [callStep, hSame, hOther, hPc]

/-- The hooks of a run: those of its instructions, and those of the calls that it passes,
each in its context. -/
def emulatedEvents (syscallDescs : Int → Executor) :
    List (Event ⊕ ThreadContext) → Option (List Event)
  | [] => some []
  | .inl event :: rest => (emulatedEvents syscallDescs rest).map (event :: ·)
  | .inr tc :: rest =>
      (SyscallFault.invoke syscallDescs tc).bind fun result =>
        (emulatedEvents syscallDescs rest).map (result.2 ++ ·)

def passedCalls (items : List (Event ⊕ ThreadContext)) : List ThreadContext :=
  items.filterMap fun item => match item with
    | .inl _ => none
    | .inr tc => some tc

/-- The record belongs to the call. -/
def Records (syscallDescs : Int → Executor) (tc : ThreadContext) (info : SyscallInfo) : Prop :=
  ∃ handled after hooks, syscallDescs (int32 (tc.regs 17)) tc = some handled ∧
    SyscallFault.invoke syscallDescs tc = some (after, hooks) ∧ after.pc = tc.npc ∧
    after.regs = (storeResult handled.tc handled.ret).regs ∧ info = handled.record tc

/-- A run leaves one record for every call, in order. -/
theorem emulated_calls {syscallDescs : Int → Executor} {items : List (Event ⊕ ThreadContext)}
    {events : List Event} (hRun : emulatedEvents syscallDescs items = some events)
    (hOther : ∀ event, .inl event ∈ items → event.isCall = false) :
    ∃ calls, List.Forall₂ (Records syscallDescs) (passedCalls items) calls ∧
      ∀ sysinfos, events.foldl callStep sysinfos = sysinfos ++ calls := by
  induction items generalizing events with
  | nil =>
      obtain rfl := Option.some.inj hRun
      exact ⟨[], .nil, fun sysinfos => (List.append_nil _).symm⟩
  | cons item rest ih =>
      have hRest : ∀ event, .inl event ∈ rest → event.isCall = false := fun event he =>
        hOther event (List.mem_cons_of_mem _ he)
      cases item with
      | inl event =>
          obtain ⟨later, hLater, rfl⟩ := Option.map_eq_some_iff.mp hRun
          obtain ⟨calls, hCalls, hFold⟩ := ih hLater hRest
          refine ⟨calls, hCalls, fun sysinfos => ?_⟩
          rw [List.foldl_cons, callStep_other (hOther event (List.mem_cons_self ..)), hFold]
      | inr tc =>
          obtain ⟨⟨after, hooks⟩, hInvoke, hMap⟩ := Option.bind_eq_some_iff.mp hRun
          obtain ⟨later, hLater, rfl⟩ := Option.map_eq_some_iff.mp hMap
          obtain ⟨handled, hHandled, hPc, hRegs, hStep⟩ := invoke_records hInvoke
          obtain ⟨calls, hCalls, hFold⟩ := ih hLater hRest
          refine ⟨handled.record tc :: calls,
            .cons ⟨handled, after, hooks, hHandled, hInvoke, hPc, hRegs, rfl⟩ hCalls,
            fun sysinfos => ?_⟩
          rw [List.foldl_append, hStep, hFold, List.append_assoc, List.singleton_append]

/-- The record shows what the program finds in `a0`. Behind a call that needs a retry the
register is unchanged, while the record shows zero. A handler that moves the thread
elsewhere hides its result from the record. -/
def Handled.ShowsResult (handled : Handled) (tc : ThreadContext) : Prop :=
  if handled.tc.pc = tc.pc then
    (handled.ret.suppressed = true → handled.tc.regs 10 = tc.regs 10) ∧
    (handled.ret.needsRetry = true → handled.tc.regs 10 = 0)
  else if handled.ret.suppressed || handled.ret.needsRetry then handled.tc.regs 10 = tc.regs 10
  else uint64 handled.ret.encodedValue = tc.regs 10

/-- A handler that leaves `a0` and the pc alone fails by a retry only. -/
theorem Handled.showsResult_iff {handled : Handled} {tc : ThreadContext}
    (hPc : handled.tc.pc = tc.pc) (hA0 : handled.tc.regs 10 = tc.regs 10) :
    handled.ShowsResult tc ↔ (handled.ret.needsRetry = true → tc.regs 10 = 0) := by
  rw [ShowsResult, if_pos hPc, hA0]
  exact and_iff_right fun _ => rfl

/-- The result that the record shows, and the one in the register. -/
theorem Handled.record_a0 {handled : Handled} (hMade : handled.ret.Made) (tc : ThreadContext) :
    (if (handled.record tc).hasret then (handled.record tc).ret
      else (handled.record tc).params.getD 0 0) =
      (storeResult handled.tc handled.ret).regs 10 ↔ handled.ShowsResult tc := by
  have hParams : (handled.record tc).params.getD 0 0 = tc.regs 10 := by
    rw [(handled.record_frame tc).2.2]
    rfl
  rw [hParams, ShowsResult]
  by_cases hPc : handled.tc.pc = tc.pc
  · rw [if_pos hPc, storeResult_a0, record, if_pos hPc]
    cases hRetry : handled.ret.needsRetry with
    | false =>
        cases hNone : handled.ret.suppressed with
        | false => simp
        | true => simp [eq_comm]
    | true =>
        obtain ⟨hValue, hZero⟩ := hMade.retried hRetry
        rw [hValue, hZero]
        simp [eq_comm]
  · have hHasret : (handled.record tc).hasret = false := by
      rw [record, if_neg hPc, (executed_frame ..).2.2.1]
      rfl
    rw [if_neg hPc, hHasret, storeResult_a0, if_neg Bool.false_ne_true]
    split
    · exact eq_comm
    · exact eq_comm

/-- Results of system calls in a replay. A run leaves one record for every call that it
passes, and the takeover of a call leaves in `a0` what the emulator left there exactly if
the record shows it; with a handler that leaves `a0` and the pc alone, unless the call
needs a retry and `a0` is not zero. -/
theorem replayed_result_iff {syscallDescs : Int → Executor} {items : List (Event ⊕ ThreadContext)}
    {events : List Event} (hRun : emulatedEvents syscallDescs items = some events)
    (hOther : ∀ event, .inl event ∈ items → event.isCall = false)
    (hHandled : ∀ tc handled, tc ∈ passedCalls items →
      syscallDescs (int32 (tc.regs 17)) tc = some handled →
      handled.ret.Made ∧ (handled.record tc).Fits)
    {start : CkptInfo} (hStart : start.sysinfos = []) (stack : Nat → Nat → UInt8)
    (exist : Nat → UInt8) (exit_place exit_pc : Nat) {new : List SyscallInfo}
    (hNew : new = ((start.hooks stack events).close exist exit_place exit_pc).sysinfos)
    (hSection : (saveSysInfo new).length < 2 ^ 32 - 1) :
    new.length = (passedCalls items).length ∧
    ∀ freeRanges places npc loaded ready,
      processJmp freeRanges places npc (readCkptsyscall (saveSysInfo new) loaded) = some ready →
      ∀ k tc handled, (passedCalls items)[k]? = some tc → tc.regs 17 < 2 ^ 32 →
        syscallDescs (int32 (tc.regs 17)) tc = some handled →
        ∀ regs loader, loader.runningInfo = { ready.runningInfo with nowcallnum := k } →
          regs 17 = tc.regs 17 →
          ∃ replayed emulated hooks, takeoverSyscall regs loader = some replayed ∧
            SyscallFault.invoke syscallDescs tc = some (emulated, hooks) ∧ emulated.pc = tc.npc ∧
            (replayed.program_intregs 10 = emulated.regs 10 ↔ handled.ShowsResult tc) ∧
            (handled.tc.pc = tc.pc → handled.tc.regs 10 = tc.regs 10 →
              (replayed.program_intregs 10 = emulated.regs 10 ↔
                (handled.ret.needsRetry = true → tc.regs 10 = 0))) := by
  obtain ⟨calls, hCalls, hFold⟩ := emulated_calls hRun hOther
  have hMade : new = calls := by
    have hAll := hFold start.sysinfos
    rw [← CkptInfo.hooks_sysinfos stack, hStart, List.nil_append] at hAll
    exact hNew.trans hAll
  subst hMade
  have hRecorded : ∀ (k : Nat) info, new[k]? = some info → ∃ tc, (passedCalls items)[k]? = some tc ∧
      Records syscallDescs tc info := by
    intro k info hInfo
    obtain ⟨hk, rfl⟩ := List.getElem?_eq_some_iff.mp hInfo
    have hk' := hCalls.length_eq ▸ hk
    exact ⟨_, List.getElem?_eq_getElem hk', hCalls.get hk' hk⟩
  have hFits : ∀ info ∈ new, info.Fits := by
    intro info hInfo
    obtain ⟨k, hk⟩ := List.getElem?_of_mem hInfo
    obtain ⟨tc, hTc, handled, _, _, hExec, _, _, _, rfl⟩ := hRecorded k info hk
    exact (hHandled tc handled (List.mem_of_getElem? hTc) hExec).2
  refine ⟨hCalls.length_eq.symm, ?_⟩
  intro freeRanges places npc loaded ready hReady k tc handled hTc hA7 hExec regs loader
    hLoader hRegs
  have hk : k < new.length := hCalls.length_eq ▸ (List.getElem?_eq_some_iff.mp hTc).1
  have hInfo := List.getElem?_eq_getElem hk
  obtain ⟨tc', hTc', handled', emulated, hooks, hExec', hInvoke, hPc, hEmulated, hRecord⟩ :=
    hRecorded k _ hInfo
  obtain rfl : tc = tc' := Option.some.inj (hTc.symm.trans hTc')
  obtain rfl : handled = handled' := Option.some.inj (hExec.symm.trans hExec')
  have hNum : regs 17 = (handled.record tc).num := by
    rw [(handled.record_frame tc).2.1, Nat.mod_eq_of_lt hA7, hRegs]
  rw [hRecord] at hInfo
  obtain ⟨-, hTakeover⟩ := callReplays_saved hFits hSection hReady hInfo rfl regs loader hLoader
  obtain ⟨i, p, replayed, -, -, -, hReplayed, hReplays⟩ := hTakeover hNum
  have hShows : replayed.program_intregs 10 = emulated.regs 10 ↔ handled.ShowsResult tc := by
    rw [hReplays.a0, hEmulated]
    exact handled.record_a0 (hHandled tc handled (List.mem_of_getElem? hTc) hExec).1 tc
  exact ⟨replayed, emulated, hooks, hReplayed, hInvoke, hPc, hShows,
    fun hSame hA0 => hShows.trans (handled.showsResult_iff hSame hA0)⟩

def sampleHost (poll : Nat) (res : HostResult) : Host where
  fds := fun fd => if fd = 3 then some ⟨poll, false, fun _ => res⟩ else none
  tryReadString := fun _ _ => some "link"
  checkPathRedirect := id
  readlink := fun _ _ => res
  realpath := none

def sampleCall : ThreadContext :=
  ⟨0x10010, 0x10014, fun x => if x = 17 then 63 else if x = 10 then 3
    else if x = 11 then 0x9000 else 4, fun _ => 1⟩

def sampleDescs (poll : Nat) : Int → Executor := fun num tc =>
  if num = 63 then readFunc (sampleHost poll (.bytes [7, 8, 9, 10])) tc else none

def sampleHooks (ret : Nat) (exes : List Event) : List Event :=
  .inst 0x1000c :: .sysenter 0x10010 63 [3, 0x9000, 4, 4, 4] :: exes ++ [.sysret 0x10010 true ret]

def sampleRead : SyscallInfo :=
  { pc := 0x10010, num := 63, ret := 4, hasret := true, bufaddr := 0x9000, data := [7, 8, 9, 10],
    params := [3, 0x9000, 4, 4, 4] }

/-- The file has bytes to read. -/
theorem replayed_result_read :
    ∃ ready, processJmp [⟨0x11000, 0x1000⟩] samplePlaces 0x10000
        (readCkptsyscall (saveSysInfo [sampleRead]) sampleLoader) = some ready ∧
      ∃ replayed emulated hooks, takeoverSyscall (fun _ => 63)
          { ready with runningInfo := { ready.runningInfo with nowcallnum := 0 } } = some replayed ∧
        SyscallFault.invoke (sampleDescs 1) sampleCall = some (emulated, hooks) ∧
        replayed.program_intregs 10 = emulated.regs 10 := by
  have hSome : (processJmp [⟨0x11000, 0x1000⟩] samplePlaces 0x10000
      (readCkptsyscall (saveSysInfo [sampleRead]) sampleLoader)).isSome := by
    decide +kernel
  obtain ⟨ready, hReady⟩ := Option.isSome_iff_exists.mp hSome
  have hNew : [sampleRead] = (((CkptInfo.create 5 10 0 [] [] 0x10000 0x10004).hooks (fun _ _ => 0)
      (sampleHooks 4 [.sysexe 0x10010 4 0x9000 [7, 8, 9, 10]])).close (fun _ =>
      0) 15 0x10024).sysinfos := by
    change _ = ((CkptInfo.create 5 10 0 [] [] 0x10000 0x10004).hooks (fun _ _ => 0) _).sysinfos
    rw [CkptInfo.hooks_sysinfos]
    rfl
  have hMade : ∀ tc handled, tc ∈ passedCalls [.inl (.inst 0x1000c), .inr sampleCall] →
      sampleDescs 1 (int32 (tc.regs 17)) tc = some handled →
      handled.ret.Made ∧ (handled.record tc).Fits := by
    intro tc handled hTc hHandled
    obtain rfl := List.mem_singleton.mp hTc
    obtain rfl := Option.some.inj hHandled
    exact ⟨.one 4, by constructor <;> decide⟩
  obtain ⟨-, hAll⟩ :=
    @replayed_result_iff (sampleDescs 1) [.inl (.inst 0x1000c), .inr sampleCall] _ rfl
    (by simp [Event.isCall]) hMade (CkptInfo.create 5 10 0 [] [] 0x10000 0x10004) rfl (fun _ _ => 0)
    (fun _ => 0) 15 0x10024 _ hNew (by decide +kernel)
  obtain ⟨replayed, emulated, hooks, hReplayed, hInvoke, -, -, hShows⟩ :=
    hAll _ _ _ _ ready hReady 0 sampleCall _ rfl (by decide) rfl (fun _ => 63)
      { ready with runningInfo := { ready.runningInfo with nowcallnum := 0 } } rfl rfl
  exact ⟨ready, hReady, replayed, emulated, hooks, hReplayed, hInvoke,
    (hShows rfl rfl).mpr fun hRetry => absurd hRetry Bool.false_ne_true⟩

/-- The file has nothing to read yet. The emulator leaves 3 in `a0` and moves on, and the
replay leaves 0. -/
theorem replayed_result_retry :
    sampleDescs 0 63 sampleCall = some ⟨.retry, [], sampleCall⟩ ∧
    emulatedEvents (sampleDescs 0) [.inl (.inst 0x1000c), .inr sampleCall] =
      some (sampleHooks 0 []) ∧
    ((CkptInfo.create 5 10 0 [] [] 0x10000 0x10004).hooks (fun _ _ => 0)
      (sampleHooks 0 [])).sysinfos =
      [{ sampleRead with ret := 0, bufaddr := 0, data := [] }] ∧
    ((SyscallFault.invoke (sampleDescs 0) sampleCall).map fun result =>
      (result.1.pc, result.1.regs 10)) =
      some (0x10014, 3) ∧
    ((processJmp [⟨0x11000, 0x1000⟩] samplePlaces 0x10000 (readCkptsyscall
        (saveSysInfo [{ sampleRead with ret := 0, bufaddr := 0, data := [] }]) sampleLoader)).bind
      fun ready => (takeoverSyscall (fun _ => 63) ready).map (·.program_intregs 10)) = some 0 := by
  refine ⟨rfl, by decide +kernel, ?_, by decide +kernel, by decide +kernel⟩
  rw [CkptInfo.hooks_sysinfos]
  rfl

section Output

variable {addr : Nat} {size : Int} {data : List UInt8} {buf filled : BufferArg}

/-- A new buffer that has been written to. -/
theorem BufferArg.fill_new (hNew : BufferArg.new addr size = some buf)
    (hFill : buf.fill data = some filled) :
    filled.addr = addr ∧ (filled.bytes.length : Int) = size ∧ (data.length : Int) ≤ size ∧
      ∀ i, filled.bytes.getD i 0 = data.getD i 0 := by
  rw [new, Option.ite_none_left_eq_some] at hNew
  obtain ⟨hSize, hBuf⟩ := hNew
  obtain rfl := Option.some.inj hBuf
  rw [fill, Option.ite_none_right_eq_some] at hFill
  obtain ⟨hLength, hFilled⟩ := hFill
  obtain rfl := Option.some.inj hFilled
  rw [List.length_replicate] at hLength
  refine ⟨rfl, ?_, by omega, fun i => ?_⟩
  · simp only [List.length_append, List.length_drop, List.length_replicate]
    omega
  · simp only [List.getD_eq_getElem?_getD, List.drop_replicate]
    by_cases hi : i < data.length
    · rw [List.getElem?_append_left hi]
    · rw [List.getElem?_append_right (by omega), List.getElem?_eq_none (by omega : data.length ≤ i),
        List.getElem?_replicate]
      split <;> rfl

/-- The first bytes of such a buffer do as well as all of it exactly if zeros stand behind
them already. -/
theorem BufferArg.copyOut_iff (hNew : BufferArg.new addr size = some buf)
    (hFill : buf.fill data = some filled) {n : Nat} (hZero : ∀ i, n ≤ i → data.getD i 0 = 0)
    (m : Memory) :
    store m addr (filled.bytes.take n) = filled.copyOut m ↔
      ∀ i : Nat, n ≤ i → (i : Int) < size → m (addr + i) = 0 := by
  obtain ⟨rfl, hLength, -, hBytes⟩ := BufferArg.fill_new hNew hFill
  rw [copyOut, store_take_eq_iff]
  constructor
  · intro h i hLow hHigh
    rw [h i hLow (by omega), hBytes, hZero i hLow]
  · intro h i hLow hHigh
    rw [h i hLow (by omega), hBytes, hZero i hLow]

end Output

def Handled.replayedOutput (handled : Handled) (tc : ThreadContext) : Memory :=
  store tc.memory (handled.record tc).bufaddr (handled.record tc).data

/-- What the replay writes is the output that the call has recorded. -/
theorem Handled.replayedOutput_eq (handled : Handled) (tc : ThreadContext) :
    handled.replayedOutput tc = store tc.memory (handled.exes.foldl SysExe.add tc.entered).bufaddr
      (handled.exes.foldl SysExe.add tc.entered).data := by
  rw [replayedOutput, record]
  split <;> rfl

/-- Without a hook, nothing is output. -/
theorem Handled.replayedOutput_none (ret : SyscallReturn) (tc after : ThreadContext) :
    Handled.replayedOutput ⟨ret, [], after⟩ tc = tc.memory := by
  rw [replayedOutput_eq]
  exact store_nil ..

theorem Handled.replayedOutput_one (ret : SyscallReturn) (exe : SysExe) (tc after : ThreadContext) :
    Handled.replayedOutput ⟨ret, [exe], after⟩ tc = store tc.memory exe.bufaddr exe.data := by
  rw [replayedOutput_eq]
  rfl

def Host.readData (host : Host) (tc : ThreadContext) : List UInt8 :=
  match host.fds (int32 (tc.regs 10)) with
  | none => []
  | some file =>
      if file.poll = 0 ∧ file.nonblock = false then []
      else (file.read (int32 (tc.regs 12)).toNat).data

/-- How many bytes of a link the host, or the emulator for the program's own path, puts into a
buffer. -/
def Host.linkLength (host : Host) (path : String) (bufsiz : Nat) : Nat :=
  if path ≠ "/proc/self/exe" then (host.readlink path bufsiz).data.length
  else min (host.realpath.getD []).length bufsiz

/-- A `read` of the host. -/
theorem readFunc_output {host : Host} {tc : ThreadContext} {handled : Handled}
    (h : readFunc host tc = some handled) :
    handled.replayedOutput tc = handled.tc.memory ↔
      (host.readData tc ≠ [] → ∀ i : Nat, (host.readData tc).length ≤ i →
        (i : Int) < int32 (tc.regs 12) → tc.memory (tc.regs 11 + i) = 0) := by
  rw [readFunc] at h
  rw [Host.readData]
  cases hFile : host.fds (int32 (tc.regs 10)) with
  | none =>
      simp only [hFile] at h
      obtain rfl := Option.some.inj h
      exact iff_of_true (Handled.replayedOutput_none ..) fun hSome => absurd rfl hSome
  | some file =>
      simp only [hFile] at h ⊢
      split at h
      · next hWaits =>
          obtain rfl := Option.some.inj h
          rw [if_pos hWaits]
          exact iff_of_true (Handled.replayedOutput_none ..) fun hSome => absurd rfl hSome
      · next hReady =>
          obtain ⟨buf, hNew, hMap⟩ := Option.bind_eq_some_iff.mp h
          obtain ⟨filled, hFill, rfl⟩ := Option.map_eq_some_iff.mp hMap
          rw [Handled.replayedOutput_one, if_neg hReady]
          clear h hMap
          generalize file.read (int32 (tc.regs 12)).toNat = res at hFill ⊢
          have hCopied :=
            BufferArg.copyOut_iff hNew hFill (fun _ => List.getD_eq_default _ _) tc.memory
          rcases res.result_cases with ⟨hFailed, hNone⟩ | hResult
          · rw [hFailed, hNone]
            exact iff_of_true (store_nil ..) fun hSome => absurd rfl hSome
          · rw [hResult]
            by_cases hSome : res.data = []
            · rw [hSome]
              exact iff_of_true (store_nil ..) fun hNot => absurd rfl hNot
            · have hPos : (res.data.length : Int) > 0 :=
                Int.natCast_pos.mpr (List.length_pos_iff.mpr hSome)
              simp only [if_pos hPos, Int.toNat_natCast, hCopied, forall_prop_of_true hSome]

theorem strncpy_length (source : List UInt8) (n : Nat) : (strncpy source n).length = n := by
  rw [strncpy, List.length_append, List.length_take, List.length_replicate]
  omega

/-- Behind the text there are zeros. -/
theorem strncpy_beyond {source : List UInt8} {n i : Nat}
    (h : (if source.length > n then n else source.length) ≤ i) :
    (strncpy source n).getD i 0 = 0 := by
  rw [strncpy, List.getD_append_right _ _ _ _ (by rw [List.length_take]; split at h <;> omega),
    List.getD_eq_getElem?_getD]
  exact List.getElem?_getD_replicate_default_eq ..

/-- The end of `readlinkFunc`, for a result without a byte behind it in the buffer. -/
theorem readlink_output {tc : ThreadContext} {buf filled : BufferArg} {data : List UInt8}
    {result : Int} {errno length : Nat}
    (hNew : BufferArg.new (tc.regs 11) (int32 (tc.regs 12)) = some buf)
    (hFill : buf.fill data = some filled)
    (hResult : result = -1 ∧ data = [] ∧ length = 0 ∨
      result = length ∧ length ≤ data.length ∧ ∀ i, length ≤ i → data.getD i 0 = 0) :
    Handled.replayedOutput ⟨.ofValue (if result = -1 then -errno else result), if result ≠ -1 then
        [⟨uint64 result, tc.regs 11, filled.bytes.take (uint32 result)⟩] else [],
        { tc with memory := filled.copyOut tc.memory }⟩ tc = filled.copyOut tc.memory ↔
      ∀ i : Nat, length ≤ i → (i : Int) < int32 (tc.regs 12) →
        tc.memory (tc.regs 11 + i) = 0 := by
  rcases hResult with ⟨rfl, rfl, rfl⟩ | ⟨rfl, hLength, hZero⟩
  · have hCopied :=
      @BufferArg.copyOut_iff _ _ _ _ _ hNew hFill 0 (fun i _ => List.getD_nil) tc.memory
    rw [List.take_zero, store_nil] at hCopied
    simp only [ne_eq, not_true_eq_false, if_false, Handled.replayedOutput_none, hCopied]
  · have hOk : ¬ (length : Int) = -1 := by omega
    obtain ⟨-, -, hFits, -⟩ := BufferArg.fill_new hNew hFill
    have hSize := int32_lt (tc.regs 12)
    have hOut : uint32 length = length := by
      simp only [uint32]
      omega
    have hCopied := BufferArg.copyOut_iff hNew hFill hZero tc.memory
    simp only [ne_eq, hOk, not_false_eq_true, if_true, Handled.replayedOutput_one, hOut, hCopied]

/-- A `readlink` of the host, or of the program's own path. -/
theorem readlinkFunc_output {host : Host} {tc : ThreadContext} {handled : Handled}
    (h : readlinkFunc host tc = some handled) :
    handled.replayedOutput tc = handled.tc.memory ↔
      ∀ pathname, host.tryReadString tc.memory (tc.regs 10) = some pathname →
        ∀ i : Nat, host.linkLength (host.checkPathRedirect pathname) (tc.regs 12) ≤ i →
          (i : Int) < int32 (tc.regs 12) → tc.memory (tc.regs 11 + i) = 0 := by
  rw [readlinkFunc] at h
  cases hPath : host.tryReadString tc.memory (tc.regs 10) with
  | none =>
      simp only [hPath] at h
      obtain rfl := Option.some.inj h
      exact iff_of_true (Handled.replayedOutput_none ..) fun _ hSome => nomatch hSome
  | some pathname =>
      simp only [hPath] at h
      obtain ⟨buf, hNew, hMap⟩ := Option.bind_eq_some_iff.mp h
      obtain ⟨⟨result, errno, filled⟩, hLinked, rfl⟩ := Option.map_eq_some_iff.mp hMap
      simp only [Option.some.injEq, forall_eq']
      rw [Host.linkLength]
      split at hLinked
      · next hOther =>
        rw [if_pos hOther]
        obtain ⟨_, hFill, hPair⟩ := Option.map_eq_some_iff.mp hLinked
        obtain ⟨rfl, rfl, rfl⟩ := hPair
        have hCases := (host.readlink (host.checkPathRedirect pathname) (tc.regs 12)).result_cases
        refine readlink_output hNew hFill (hCases.imp ?_ fun hResult => ?_)
        · rintro ⟨hFailed, hNone⟩
          exact ⟨hFailed, hNone, congrArg List.length hNone⟩
        · exact ⟨hResult, Nat.le_refl _, fun _ => List.getD_eq_default _ _⟩
      · next hOwn =>
        rw [if_neg hOwn]
        obtain ⟨real_path, hReal, hMap⟩ := Option.bind_eq_some_iff.mp hLinked
        obtain ⟨_, hFill, hPair⟩ := Option.map_eq_some_iff.mp hMap
        obtain ⟨rfl, rfl, rfl⟩ := hPair
        obtain ⟨-, -, hFits, -⟩ := BufferArg.fill_new hNew hFill
        have hSize := int32_lt (tc.regs 12)
        rw [strncpy_length] at hFits
        have hMin : (if real_path.length > tc.regs 12 then tc.regs 12 else real_path.length) =
            min real_path.length (tc.regs 12) := by
          split <;> omega
        rw [hReal, Option.getD_some, hMin]
        refine readlink_output hNew hFill (Or.inr ⟨int32_of_lt (by omega), ?_, fun i hi => ?_⟩)
        · rw [strncpy_length]
          exact Nat.min_le_right _ _
        · exact strncpy_beyond (hMin ▸ hi)

/-- The recorded output of `readFunc` and of `readlinkFunc`. It gives the memory behind the
call exactly if zeros stood in the part of the buffer that the result does not reach:
after a `read`, if it has read something; after a `readlink`, also if it has failed. -/
theorem recorded_output_iff (host : Host) (tc : ThreadContext) :
    (∀ handled, readFunc host tc = some handled →
      (handled.replayedOutput tc = handled.tc.memory ↔
        (host.readData tc ≠ [] → ∀ i : Nat, (host.readData tc).length ≤ i →
          (i : Int) < int32 (tc.regs 12) → tc.memory (tc.regs 11 + i) = 0))) ∧
    ∀ handled, readlinkFunc host tc = some handled →
      (handled.replayedOutput tc = handled.tc.memory ↔
        ∀ pathname, host.tryReadString tc.memory (tc.regs 10) = some pathname →
          ∀ i : Nat, host.linkLength (host.checkPathRedirect pathname) (tc.regs 12) ≤ i →
            (i : Int) < int32 (tc.regs 12) → tc.memory (tc.regs 11 + i) = 0) :=
  ⟨fun _ => readFunc_output, fun _ => readlinkFunc_output⟩

/-- A full `read`. -/
theorem recorded_output_full :
    ∃ handled, readFunc (sampleHost 1 (.bytes [7, 8, 9, 10])) sampleCall = some handled ∧
      handled.ret = .ofValue 4 ∧ handled.replayedOutput sampleCall = handled.tc.memory := by
  have hOutput := (recorded_output_iff (sampleHost 1 (.bytes [7, 8, 9, 10])) sampleCall).1 _ rfl
  refine ⟨_, rfl, rfl, hOutput.mpr fun _ i hLow hHigh => ?_⟩
  have hFull : 4 ≤ i := hLow
  have hSize : (i : Int) < 4 := hHigh
  omega

/-- A short `read` clears the rest of the buffer, and a failed `readlink` all of it; a
replay leaves the ones. -/
theorem recorded_output_short :
    (∃ handled, readFunc (sampleHost 1 (.bytes [7, 8])) sampleCall = some handled ∧
      handled.ret = .ofValue 2 ∧ handled.tc.memory 0x9002 = 0 ∧
      handled.replayedOutput sampleCall 0x9002 = 1) ∧
    ∃ handled, readlinkFunc (sampleHost 1 (.failed 22)) sampleCall = some handled ∧
      handled.ret = .ofValue (-22) ∧ handled.tc.memory 0x9000 = 0 ∧
      handled.replayedOutput sampleCall 0x9000 = 1 :=
  ⟨⟨_, rfl, rfl, rfl, rfl⟩, ⟨_, rfl, rfl, rfl, rfl⟩⟩

end RiscvCkpt
