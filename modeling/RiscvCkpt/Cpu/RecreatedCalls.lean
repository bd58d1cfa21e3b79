import RiscvCkpt.Cpu.Tick

/-! System calls in a re-creating run. `ckpt_insert_syscall` reads a call from the
section of the checkpoint that is executed and records it for the pending checkpoints,
which save it again in sections of their own. -/
namespace RiscvCkpt

open ByteCodec ByteMemory

def Event.isCall : Event → Bool
  | .sysenter _ _ _ => true
  | .sysexe _ _ _ _ => true
  | .sysret _ _ _ => true
  | _ => false

/-- What reaches a pending checkpoint while a checkpoint is executed: the hooks of
instructions and accesses, and the calls of `ckpt_insert_syscall` with their index.
`none` where the source exits. -/
def ReadCkpt.recorded (ckpt : ReadCkpt) : List (Event ⊕ Nat) → Option (List Event)
  | [] => some []
  | .inl event :: rest => (ckpt.recorded rest).map (event :: ·)
  | .inr sysidx :: rest =>
      (ckpt.insertSyscall sysidx).bind fun events => (ckpt.recorded rest).map (events ++ ·)

def insertedCalls (items : List (Event ⊕ Nat)) : List Nat :=
  items.filterMap fun item => match item with
    | .inl _ => none
    | .inr sysidx => some sysidx

theorem callStep_other {event : Event} (h : event.isCall = false) (sysinfos : List SyscallInfo) :
    callStep sysinfos event = sysinfos := by
  cases event with
  | inst pc => rfl
  | load addr size data => rfl
  | store addr size => rfl
  | sysenter pc num params => exact absurd h (Bool.false_ne_true ∘ Eq.symm)
  | sysexe pc ret bufaddr data => exact absurd h (Bool.false_ne_true ∘ Eq.symm)
  | sysret pc hasret ret => exact absurd h (Bool.false_ne_true ∘ Eq.symm)

/-- Enter, execute and return make one record. -/
theorem callStep_whole (sysinfos : List SyscallInfo) (pc num ret bufaddr : Nat) (params : List Nat)
    (data : List UInt8) (hasret : Bool) :
    [Event.sysenter pc num params, .sysexe pc ret bufaddr data,
      .sysret pc hasret ret].foldl callStep sysinfos =
      sysinfos ++
        [{ pc := pc, num := num % 2 ^ 32, ret := ret, hasret := hasret, bufaddr := bufaddr,
                     data := data, params := params }] := by
  simp [callStep]

/-- The hooks that record a call again. -/
def CallKey.events (key : CallKey) : List Event :=
  [.sysenter key.pc key.num [key.p0, key.p0, key.p0], .sysexe key.pc key.ret key.bufaddr key.data,
    .sysret key.pc key.hasret key.ret]

def CallKey.made (key : CallKey) : SyscallInfo :=
  { pc := key.pc, num := key.num % 2 ^ 32, ret := key.ret, hasret := key.hasret,
    bufaddr := key.bufaddr, data := key.data, params := [key.p0, key.p0, key.p0] }

theorem CallKey.made_fits {key : CallKey} (h : key.Fits) : key.made.Fits :=
  ⟨h.pc, Nat.mod_lt _ (by decide), h.p0, h.ret, h.bufaddr, h.data⟩

/-- A replay cannot tell the recorded call from the one it was made from. -/
theorem SyscallInfo.key_made {info : SyscallInfo} (h : info.Fits) :
    info.key.made.key = info.key := by
  simp only [CallKey.made, SyscallInfo.key, Nat.mod_eq_of_lt h.num, List.getD_cons_zero]
  split <;> rfl

section Inserted

variable {old : List SyscallInfo} {ckpt : ReadCkpt}

/-- Inserting a call of the checkpoint that is executed records it again. -/
theorem insertSyscall_saved (hFits : ∀ info ∈ old, info.Fits)
    (hOld : (saveSysInfo old).length < 2 ^ 32 - 1)
    (hCkpt : ckpt.callinfo = saveSysInfo old) {k : Nat}
    {info : SyscallInfo} (hInfo : old[k]? = some info) :
    ckpt.insertSyscall k = some info.key.events := by
  obtain ⟨idx, stored, hIdx, hStored, hKey⟩ := sysIdxs_stored hInfo
  have hk := (List.getElem?_eq_some_iff.mp hInfo).1
  have hLength := saveSysInfo_length old
  have hStoredLt := sysIdxs_lt hIdx
  have hStoredLe := storedCalls_length_le old
  have hTotal : wordAt 8 (saveSysInfo old) 0 = old.length := saveSysInfo_total (by omega)
  have hSysidx : wordAt 4 (saveSysInfo old) (8 + 4 * k) = idx := saveSysInfo_idx hIdx (by omega)
  have hPlace : 8 + old.length * 4 + idx * 40 = 8 + 4 * old.length + 40 * idx := by ring
  have hView := callKeyAt_saved hFits hOld hStored
  obtain ⟨place, -, hRecord⟩ := recordAt_saved hFits hOld hStored
  -- the flag is a bit, so that comparing it with one is as good as with zero
  have hFlag :
      decide ((recordAt (saveSysInfo old) (8 + 4 * old.length + 40 * idx)).data_offset % 256 = 1)
      = decide ((recordAt (saveSysInfo old) (8 + 4 * old.length + 40 * idx)).data_offset % 256 ≠
        0) := by
    rw [hRecord]
    cases stored.hasret with
    | false => simp
    | true => simp [Nat.add_mod]
  rw [hKey] at hView
  rw [ReadCkpt.insertSyscall, hCkpt, hTotal, if_neg (by omega), if_neg (by omega), ← hView]
  simp only [hSysidx, hPlace, CallKey.events, callKeyAt, hFlag]

/-- The calls that the new checkpoint holds in the end. -/
theorem recorded_calls (hFits : ∀ info ∈ old, info.Fits)
    (hOld : (saveSysInfo old).length < 2 ^ 32 - 1) (hCkpt : ckpt.callinfo = saveSysInfo old)
    {items : List (Event ⊕ Nat)} {i count : Nat}
    (hItems : insertedCalls items = List.range' i count)
    (hRange : i + count ≤ old.length) (hOther : ∀ event, .inl event ∈ items →
      event.isCall = false) :
    ∃ events, ckpt.recorded items = some events ∧ ∀ sysinfos,
      events.foldl callStep sysinfos =
        sysinfos ++ ((old.drop i).take count).map fun info => info.key.made := by
  induction items generalizing i count with
  | nil =>
      obtain rfl : count = 0 := by simpa [insertedCalls] using congrArg List.length hItems.symm
      exact ⟨[], rfl, fun sysinfos => by simp⟩
  | cons item rest ih =>
      have hRest : ∀ event, .inl event ∈ rest → event.isCall = false := fun event he =>
        hOther event (List.mem_cons_of_mem _ he)
      cases item with
      | inl event =>
          obtain ⟨events, hEvents, hFold⟩ := ih hItems hRange hRest
          refine ⟨event :: events, by rw [ReadCkpt.recorded, hEvents]; rfl, fun sysinfos => ?_⟩
          rw [List.foldl_cons, callStep_other (hOther event (List.mem_cons_self ..)), hFold]
      | inr sysidx =>
          have hInserted : insertedCalls (.inr sysidx :: rest) = sysidx :: insertedCalls rest := rfl
          rw [hInserted] at hItems
          cases count with
          | zero => exact absurd hItems (List.cons_ne_nil _ _)
          | succ count =>
              rw [List.range'_succ] at hItems
              obtain ⟨rfl, hLater⟩ := List.cons.inj hItems
              obtain ⟨events, hEvents, hFold⟩ := ih hLater (by omega) hRest
              have hk : sysidx < old.length := by omega
              have hInfo : old[sysidx]? = some (old.get ⟨sysidx, hk⟩) := List.getElem?_eq_getElem hk
              have hInsert := insertSyscall_saved hFits hOld hCkpt hInfo
              refine ⟨(old.get ⟨sysidx, hk⟩).key.events ++ events, ?_, fun sysinfos => ?_⟩
              · rw [ReadCkpt.recorded, hInsert, hEvents]
                rfl
              · rw [List.foldl_append, CallKey.events, callStep_whole, hFold,
                  List.drop_eq_getElem_cons hk, List.take_succ_cons, List.map_cons,
                  List.append_assoc]
                rfl

end Inserted

/-- Only the key of a call shows in its replay. -/
theorem ReplaysCall.of_key {info made : SyscallInfo} {entry : JmpRepInfo} {regs : Nat → Nat}
    {before after : Loader} (h : ReplaysCall made entry regs before after)
    (hKey : made.key = info.key) :
    ReplaysCall info entry regs before after := by
  have hKey' := hKey
  simp only [SyscallInfo.key, CallKey.mk.injEq] at hKey'
  obtain ⟨-, -, hHasret, hRet, hP0, hBufaddr, hData⟩ := hKey'
  have hWrite :
      (if made.data ≠ [] ∧ made.bufaddr ≠ 0 then store before.memory made.bufaddr made.data
      else before.memory) =
      if info.data ≠ [] ∧ info.bufaddr ≠ 0 then store before.memory info.bufaddr info.data
      else before.memory := by
    by_cases hEmpty : info.data = []
    · rw [if_neg (by simp [hData, hEmpty]), if_neg (by simp [hEmpty])]
    · have hSome : info.data.length ≠ 0 := fun hZero => hEmpty (List.length_eq_zero_iff.mp hZero)
      rw [hData, if_neg hSome, if_neg hSome] at hBufaddr
      rw [hData, hBufaddr]
  have hMemory := h.memory
  simp only [hWrite] at hMemory
  exact ⟨by rw [h.a0, hHasret, hRet, hP0], h.others, h.target, h.running, hMemory⟩

/-- The `k`-th takeover of a loader that is ready: it goes through if and only if `a7`
holds the number of the call, and then has the effect of the call and returns behind
its pc. -/
def CallReplays (ready : Loader) (k : Nat) (info : SyscallInfo) : Prop :=
  ∀ regs loader, loader.runningInfo = { ready.runningInfo with nowcallnum := k } →
    ((takeoverSyscall regs loader).isSome ↔ regs 17 = info.num) ∧
    (regs 17 = info.num → ∃ i p after, p.pc = info.pc ∧ retAddr i p = info.pc + 4 ∧
      ready.runningInfo.sysJmpinfos[i]? = some (jmpInfo i p) ∧
      takeoverSyscall regs loader = some after ∧ ReplaysCall info (jmpInfo i p) regs loader after)

/-- A takeover with another number exits. -/
theorem ReadsCalls.takeover_none {sysinfos : List SyscallInfo} {run : RunningInfo}
    (h : ReadsCalls sysinfos run) (hFits : ∀ info ∈ sysinfos, info.Fits) {k : Nat}
    {info : SyscallInfo} (hInfo : sysinfos[k]? = some info) {regs : Nat → Nat} {loader : Loader}
    (hCallinfo : loader.runningInfo.callinfo = run.callinfo)
    (hTotal : loader.runningInfo.totalcallnum = run.totalcallnum)
    (hNow : loader.runningInfo.nowcallnum = k) (hNum : regs 17 ≠ info.num) :
    takeoverSyscall regs loader = none := by
  obtain ⟨idx, stored, hIdx, hStored, hKey⟩ := sysIdxs_stored hInfo
  have hSysidx : loader.runningInfo.sysidx loader.runningInfo.nowcallnum = idx := by
    rw [RunningInfo.sysidx, hCallinfo, hNow]
    exact h.sysidx hIdx
  have hView : callKeyAt loader.runningInfo.callinfo (loader.runningInfo.infoaddr idx) =
      info.key := by
    rw [RunningInfo.infoaddr, hCallinfo, hTotal, ← hKey]
    exact h.callKey hFits hStored
  have hRecord : (recordAt loader.runningInfo.callinfo
      (loader.runningInfo.infoaddr idx)).num / 2 ^ 32 = info.num := congrArg CallKey.num hView
  have hA7 : Function.update (saveProgramIntRegs regs loader.program_intregs) 10
      (recordAt loader.runningInfo.callinfo (loader.runningInfo.infoaddr idx)).p0 17 = regs 17 := by
    rw [Function.update_of_ne (by decide)]
    exact if_neg (by decide)
  simp only [takeoverSyscall, hSysidx]
  split
  · rfl
  · rw [if_pos (by rw [hA7, hRecord]; exact hNum)]

/-- The calls of a saved section are replayed as they were recorded. -/
theorem callReplays_saved {sysinfos : List SyscallInfo} (hFits : ∀ info ∈ sysinfos, info.Fits)
    (hSection : (saveSysInfo sysinfos).length < 2 ^ 32 - 1) {freeRanges : List MemRangeInfo}
    {places : Places} {npc : Nat} {start ready : Loader}
    (hReady : processJmp freeRanges places npc (readCkptsyscall (saveSysInfo sysinfos) start) =
      some ready) {k : Nat} {info made : SyscallInfo} (hMade : sysinfos[k]? = some made)
    (hKey : made.key = info.key) : CallReplays ready k info := by
  simp only [processJmp, Option.map_eq_some_iff] at hReady
  obtain ⟨placed, hPlaced, rfl⟩ := hReady
  have hReads : ReadsCalls sysinfos (readCkptsyscall (saveSysInfo sysinfos) start).runningInfo := by
    have hLength := saveSysInfo_length sysinfos
    exact ⟨rfl, saveSysInfo_total (by omega), hSection⟩
  generalize readCkptsyscall (saveSysInfo sysinfos) start = loaded at *
  have hPc : made.pc = info.pc := congrArg CallKey.pc hKey
  have hNum : made.num = info.num := congrArg CallKey.num hKey
  intro regs loader hRunning
  have hTakeover : regs 17 = info.num → ∃ i p after, p.pc = info.pc ∧ retAddr i p = info.pc + 4 ∧
      (createInsts places loaded placed).runningInfo.sysJmpinfos[i]? = some (jmpInfo i p) ∧
      takeoverSyscall regs loader = some after ∧
      ReplaysCall info (jmpInfo i p) regs loader after := by
    intro hCall
    obtain ⟨i, p, after, hi, -, -, hp, hEntry, hAfter, hReplays⟩ :=
      hReads.takeover places hFits hPlaced hMade hRunning (hCall.trans hNum.symm)
    exact ⟨i, p, after, hp.trans hPc, by rw [retAddr, if_neg hi, hp, hPc], hEntry, hAfter,
      hReplays.of_key hKey⟩
  refine ⟨⟨fun hSome => ?_, fun hCall => ?_⟩, hTakeover⟩
  · by_contra hOther
    have hNone := hReads.takeover_none hFits hMade (by rw [hRunning]; rfl) (by rw [hRunning]; rfl)
      (by rw [hRunning]) fun h => hOther (h.trans hNum)
    rw [hNone] at hSome
    exact absurd hSome (by decide)
  · obtain ⟨i, p, after, -, -, -, hAfter, -⟩ := hTakeover hCall
    rw [hAfter]
    rfl

/-- Calls survive a re-creation: the `n`-th call of the checkpoint that is made while the
calls from the `i`-th on are inserted replays as the `i + n`-th call of the checkpoint
that was executed. -/
theorem recreated_calls_replay {old : List SyscallInfo} (hFits : ∀ info ∈ old, info.Fits)
    (hOld : (saveSysInfo old).length < 2 ^ 32 - 1) {ckpt : ReadCkpt}
    (hCkpt : ckpt.callinfo = saveSysInfo old) {items : List (Event ⊕ Nat)} {i count : Nat}
    (hItems : insertedCalls items = List.range' i count) (hRange : i + count ≤ old.length)
    (hOther : ∀ event, .inl event ∈ items → event.isCall = false) {start : CkptInfo}
    (hStart : start.sysinfos = []) (stack : Nat → Nat → UInt8) :
    ∃ events, ckpt.recorded items = some events ∧ ∀ exist exit_place exit_pc new,
      new = ((start.hooks stack events).close exist exit_place exit_pc).sysinfos →
      (saveSysInfo new).length < 2 ^ 32 - 1 →
      new.length = count ∧
      ∀ freeOld placesOld npcOld loaderOld readyOld freeNew placesNew npcNew loaderNew readyNew,
        processJmp freeOld placesOld npcOld (readCkptsyscall (saveSysInfo old) loaderOld) =
          some readyOld →
        processJmp freeNew placesNew npcNew (readCkptsyscall (saveSysInfo new) loaderNew) =
          some readyNew →
        ∀ n < count, ∃ info, old[i + n]? = some info ∧
          CallReplays readyOld (i + n) info ∧ CallReplays readyNew n info := by
  obtain ⟨events, hEvents, hFold⟩ := recorded_calls hFits hOld hCkpt hItems hRange hOther
  refine ⟨events, hEvents, ?_⟩
  intro exist exit_place exit_pc new hNew hSection
  have hMade : new = ((old.drop i).take count).map fun info => info.key.made := by
    have hCalls := hFold start.sysinfos
    rw [← CkptInfo.hooks_sysinfos stack, hStart, List.nil_append] at hCalls
    exact hNew.trans hCalls
  have hNewFits : ∀ info ∈ new, info.Fits := by
    rw [hMade]
    intro info hInfo
    obtain ⟨original, hOriginal, rfl⟩ := List.mem_map.mp hInfo
    exact CallKey.made_fits (hFits _ (List.mem_of_mem_drop (List.mem_of_mem_take hOriginal))).key
  refine ⟨by rw [hMade, List.length_map, List.length_take, List.length_drop]; omega, ?_⟩
  intro freeOld placesOld npcOld loaderOld readyOld freeNew placesNew npcNew loaderNew readyNew
    hReadyOld hReadyNew n hn
  have hLt : i + n < old.length := by omega
  have hInfo : old[i + n]? = some (old.get ⟨i + n, hLt⟩) := List.getElem?_eq_getElem hLt
  have hNth : new[n]? = some (old.get ⟨i + n, hLt⟩).key.made := by
    rw [hMade, List.getElem?_map, List.getElem?_take_of_lt hn, List.getElem?_drop, hInfo]
    rfl
  exact ⟨_, hInfo, callReplays_saved hFits hOld hReadyOld hInfo rfl,
    callReplays_saved hNewFits hSection hReadyNew hNth
      (SyscallInfo.key_made (hFits _ (List.get_mem ..)))⟩

def sampleCallCkpt : ReadCkpt := ⟨0x10000, 0x11000, [1], saveSysInfo sampleCalls⟩

def sampleNewCkpt : CkptInfo := CkptInfo.create 5 10 0 [] [] 0x10010 0x10014

/-- The second and the third call are inserted, with a load between them. -/
theorem recreated_calls_replay_sample :
    ∃ readyOld readyNew,
      processJmp [⟨0x11000, 0x1000⟩] samplePlaces 0x10000 sampleLoader = some readyOld ∧
      processJmp [⟨0x11000, 0x1000⟩] samplePlaces 0x10000
        (readCkptsyscall (saveSysInfo ((sampleCalls.drop 1).map fun info => info.key.made))
          sampleLoader) = some readyNew ∧
      ∃ info, sampleCalls[1]? = some info ∧ CallReplays readyOld 1 info ∧
      CallReplays readyNew 0 info := by
  have hFits : ∀ info ∈ sampleCalls, info.Fits := by
    intro info hInfo
    simp only [sampleCalls, List.mem_cons, List.not_mem_nil, or_false] at hInfo
    rcases hInfo with rfl | rfl | rfl <;> constructor <;> decide
  have hOldSome : (processJmp [⟨0x11000, 0x1000⟩] samplePlaces 0x10000 sampleLoader).isSome := by
    decide +kernel
  have hNewSome : (processJmp [⟨0x11000, 0x1000⟩] samplePlaces 0x10000
      (readCkptsyscall (saveSysInfo ((sampleCalls.drop 1).map fun info => info.key.made))
        sampleLoader)).isSome := by
    decide +kernel
  obtain ⟨readyOld, hReadyOld⟩ := Option.isSome_iff_exists.mp hOldSome
  obtain ⟨readyNew, hReadyNew⟩ := Option.isSome_iff_exists.mp hNewSome
  obtain ⟨events, hEvents, hAll⟩ := @recreated_calls_replay sampleCalls hFits (by decide +kernel)
    sampleCallCkpt rfl [.inr 1, .inl (.load 0x9000 2 [7, 8]), .inr 2] 1 2 rfl (by decide)
    (by simp [Event.isCall]) sampleNewCkpt rfl fun _ _ => 0
  have hNew : (sampleCalls.drop 1).map (fun info => info.key.made) =
      ((sampleNewCkpt.hooks (fun _ _ => 0) events).close (fun _ => 0) 15 0x10024).sysinfos := by
    have hRecorded : sampleCallCkpt.recorded [.inr 1, .inl (.load 0x9000 2 [7, 8]), .inr 2] = some
        [.sysenter 0x10020 63 [3, 3, 3], .sysexe 0x10020 2 0x9000 [7, 8], .sysret 0x10020 true 2,
          .load 0x9000 2 [7, 8],
          .sysenter 0x10010 64 [1, 1, 1], .sysexe 0x10010 5 0 [], .sysret 0x10010 true 5] := by
      decide +kernel
    obtain rfl := Option.some.inj (hRecorded.symm.trans hEvents)
    rw [CkptInfo.close_sysinfos, CkptInfo.hooks_sysinfos]
    rfl
  obtain ⟨-, hReplay⟩ := hAll _ _ _ _ hNew (by decide +kernel)
  exact ⟨readyOld, readyNew, hReadyOld, hReadyNew,
    hReplay _ _ _ _ _ _ _ _ _ _ hReadyOld hReadyNew 0 (by decide)⟩

end RiscvCkpt
