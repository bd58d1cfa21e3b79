import RiscvCkpt.Create.SaveSysInfo
import RiscvCkpt.Restore.UserJmp

/-! Handling a system call of the restored program. The loader looks the call
up in the section that `saveSysInfo` has written, repeats its recorded effect,
and returns behind the call through the entry that `processJmp` has built. -/
namespace RiscvCkpt

open ByteCodec ByteMemory MachineInt

/-- A record as the loader reads it (its `SyscallInfo`). -/
structure SyscallRecord where
  pc : Nat
  num : Nat
  p0 : Nat
  ret : Nat
  data_offset : Nat
  deriving DecidableEq, Repr

def recordAt (bytes : List UInt8) (offset : Nat) : SyscallRecord :=
  { pc := wordAt 8 bytes offset
    num := wordAt 8 bytes (offset + 8)
    p0 := wordAt 8 bytes (offset + 8 + 8)
    ret := wordAt 8 bytes (offset + 8 + 8 + 8)
    data_offset := wordAt 8 bytes (offset + 8 + 8 + 8 + 8) }

/-- `read_ckptsyscall`: the rest of the checkpoint file becomes the call information. -/
def readCkptsyscall (rest : List UInt8) (loader : Loader) : Loader :=
  { loader with
    runningInfo := { loader.runningInfo with
      callinfo := rest, nowcallnum := 0, totalcallnum := wordAt 8 rest 0 } }

/-- `Save_ProgramIntRegs`: every register except `x0` and `a0`. -/
def saveProgramIntRegs (regs program_intregs : Nat → Nat) : Nat → Nat := fun x =>
  if x = 0 ∨ x = 10 then program_intregs x else regs x

/-- The recorded output bytes of a call, if it has some, go to its buffer. -/
def writeCallData (callinfo : List UInt8) (infos : SyscallRecord) (m : Memory) : Memory :=
  let data_offset := infos.data_offset / 2 ^ 8
  if data_offset ≠ 0xffffffff then
    let data_size := infos.num % 2 ^ 32
    let bufaddr := wordAt 8 callinfo data_offset
    if bufaddr ≠ 0 then store m bufaddr ((callinfo.drop (data_offset + 8)).take data_size) else m
  else m

/-- `*((uint32_t *)runinfo->exitpc) = runinfo->exitJmpInst`. -/
def armExit (loader : Loader) : Loader :=
  { loader with
    memory := storeInst loader.memory loader.runningInfo.exitpc loader.runningInfo.exitJmpInst }

/-- `takeoverSyscall`, entered with these registers; `none` where it exits. -/
def takeoverSyscall (regs : Nat → Nat) (loader : Loader) : Option Loader :=
  let runinfo := loader.runningInfo
  let saved := saveProgramIntRegs regs loader.program_intregs
  if runinfo.nowcallnum ≥ runinfo.totalcallnum then none
  else
    let sysidx := runinfo.sysidx runinfo.nowcallnum
    let infos := recordAt runinfo.callinfo (runinfo.infoaddr sysidx)
    let saved := Function.update saved 10 infos.p0
    if saved 17 ≠ infos.num / 2 ^ 32 then none
    else
      let saved := if infos.data_offset % 256 ≠ 0 then Function.update saved 10 infos.ret else saved
      let entry := runinfo.sysJmpinfos.getD (sysidx + 1) ⟨0, 0, 0⟩
      let returning := updateJmpInst entry
        { loader with
          memory := writeCallData runinfo.callinfo infos loader.memory, program_intregs := saved }
      let counted := { returning with
        runningInfo := { runinfo with nowcallnum := runinfo.nowcallnum + 1 } }
      some (if runinfo.nowcallnum + 1 = runinfo.totalcallnum then armExit counted else counted)

/-- A call whose fields fit the variables that hold them. -/
structure SyscallInfo.Fits (info : SyscallInfo) : Prop where
  pc : info.pc < 2 ^ 64
  num : info.num < 2 ^ 32
  p0 : info.params.getD 0 0 < 2 ^ 64
  ret : info.ret < 2 ^ 64
  bufaddr : info.bufaddr < 2 ^ 64
  data : info.data.length < 2 ^ 31

/-- What the record and the data of a call are made of. -/
structure CallKey.Fits (key : CallKey) : Prop where
  pc : key.pc < 2 ^ 64
  num : key.num < 2 ^ 32
  p0 : key.p0 < 2 ^ 64
  ret : key.ret < 2 ^ 64
  bufaddr : key.bufaddr < 2 ^ 64
  data : key.data.length < 2 ^ 31

theorem SyscallInfo.Fits.key {info : SyscallInfo} (h : info.Fits) : info.key.Fits :=
  ⟨h.pc, h.num, h.p0, h.ret, by
    simp only [SyscallInfo.key]
    split
    · decide
    · exact h.bufaddr, h.data⟩

/-- The loader reads back the five words of a record. -/
theorem recordAt_of_drop {bytes after : List UInt8} {offset place : Nat} {info : SyscallInfo}
    (hFits : info.key.Fits) (hPlace : place < 2 ^ 32)
    (hDrop : bytes.drop offset = sysRecord info place ++ after) :
    recordAt bytes offset =
      ⟨info.pc, info.num * 2 ^ 32 + info.data.length, info.params.getD 0 0, info.ret,
        place * 2 ^ 8 + if info.hasret then 1 else 0⟩ := by
  have hPc : info.pc < 2 ^ 64 := hFits.pc
  have hNum : info.num < 2 ^ 32 := hFits.num
  have hP0 : info.params.getD 0 0 < 2 ^ 64 := hFits.p0
  have hRet : info.ret < 2 ^ 64 := hFits.ret
  have hData : info.data.length < 2 ^ 31 := hFits.data
  have hFlag : (if info.hasret then 1 else 0) < 2 := by split <;> decide
  simp only [sysRecord, List.append_assoc] at hDrop
  have hDrop1 := drop_past hDrop (wordBytes_length 8 _)
  have hDrop2 := drop_past hDrop1 (wordBytes_length 8 _)
  have hDrop3 := drop_past hDrop2 (wordBytes_length 8 _)
  have hDrop4 := drop_past hDrop3 (wordBytes_length 8 _)
  simp only [recordAt]
  rw [wordAt_of_drop hDrop (by omega), wordAt_of_drop hDrop1 (by omega),
    wordAt_of_drop hDrop2 (by omega), wordAt_of_drop hDrop3 (by omega),
    wordAt_of_drop hDrop4 (by omega)]

def callKeyAt (bytes : List UInt8) (offset : Nat) : CallKey :=
  let infos := recordAt bytes offset
  let place := infos.data_offset / 2 ^ 8
  { pc := infos.pc
    num := infos.num / 2 ^ 32
    hasret := infos.data_offset % 256 ≠ 0
    ret := infos.ret
    p0 := infos.p0
    bufaddr := if place ≠ 0xffffffff then wordAt 8 bytes place else 0
    data := if place ≠ 0xffffffff then (bytes.drop (place + 8)).take (infos.num % 2 ^ 32) else [] }

/-- The packed words come apart into what was put in. -/
theorem callKeyAt_of_record {bytes : List UInt8} {offset place : Nat} {info : SyscallInfo}
    (hSize : info.data.length < 2 ^ 31)
    (hRead : recordAt bytes offset =
      ⟨info.pc, info.num * 2 ^ 32 + info.data.length, info.params.getD 0 0, info.ret,
        place * 2 ^ 8 + if info.hasret then 1 else 0⟩) :
    callKeyAt bytes offset =
      { pc := info.pc, num := info.num, hasret := info.hasret, ret := info.ret,
        p0 := info.params.getD 0 0,
        bufaddr := if place ≠ 0xffffffff then wordAt 8 bytes place else 0,
        data := if place ≠ 0xffffffff then (bytes.drop (place + 8)).take info.data.length
          else [] } := by
  have hLow : info.data.length < 2 ^ 32 := by omega
  have hNum := packed_parts info.num hLow
  have hBit : (if info.hasret then 1 else 0) < 2 ^ 8 := by split <;> decide
  have hPlace := packed_parts place hBit
  have hFlag : decide ((if info.hasret then 1 else 0) ≠ 0) = info.hasret := by
    cases info.hasret <;> rfl
  simp only [callKeyAt, hRead, hNum, hPlace, show 256 = 2 ^ 8 from rfl, hFlag]

/-- The data that a takeover writes, in terms of the call it sees. -/
theorem writeCallData_eq (bytes : List UInt8) (offset : Nat) (m : Memory) :
    writeCallData bytes (recordAt bytes offset) m =
      if (callKeyAt bytes offset).bufaddr ≠ 0 then
        store m (callKeyAt bytes offset).bufaddr (callKeyAt bytes offset).data
      else m := by
  simp only [writeCallData, callKeyAt]
  by_cases hPlace : (recordAt bytes offset).data_offset / 2 ^ 8 ≠ 0xffffffff
  · simp only [if_pos hPlace]
  · simp only [if_neg hPlace, ne_eq, not_true_eq_false, if_false]

section Saved

variable {sysinfos : List SyscallInfo} {idx : Nat} {stored : SyscallInfo}

/-- A section below the limit has fewer calls than an index can count. -/
theorem storedCalls_length_le (sysinfos : List SyscallInfo) :
    (storedCalls sysinfos).length ≤ sysinfos.length := by
  have hSub : List.range (storedCalls sysinfos).length ⊆ sysIdxs sysinfos := fun c hc =>
    sysIdxs_surjective sysinfos (List.mem_range.mp hc)
  have hLe := (List.subperm_of_subset List.nodup_range hSub).length_le
  rwa [List.length_range, sysIdxs_length] at hLe

/-- Every index belongs to a stored record. -/
theorem sysIdxs_lt {i : Nat} (h : (sysIdxs sysinfos)[i]? = some idx) :
    idx < (storedCalls sysinfos).length := by
  have hi := (List.getElem?_eq_some_iff.mp h).1
  rw [sysIdxs_length] at hi
  obtain ⟨idx', stored, hIdx, hStored, -⟩ := storedCalls_sysIdxs sysinfos hi
  obtain rfl : idx = idx' := Option.some.inj (h.symm.trans hIdx)
  exact (List.getElem?_eq_some_iff.mp hStored).1

/-- Every stored call equals a recorded one. -/
theorem storedCalls_recorded (h : (storedCalls sysinfos)[idx]? = some stored) :
    ∃ info ∈ sysinfos, stored.key = info.key := by
  have hMem := sysIdxs_surjective sysinfos (List.getElem?_eq_some_iff.mp h).1
  obtain ⟨i, hi⟩ := List.getElem?_of_mem hMem
  have hLt := (List.getElem?_eq_some_iff.mp hi).1
  rw [sysIdxs_length] at hLt
  obtain ⟨idx', stored', hIdx, hStored, hKey⟩ := storedCalls_sysIdxs sysinfos hLt
  obtain rfl : idx = idx' := Option.some.inj (hi.symm.trans hIdx)
  obtain rfl : stored = stored' := Option.some.inj (h.symm.trans hStored)
  refine ⟨callAt sysinfos i, ?_, hKey⟩
  simp [callAt, List.getD_eq_getElem?_getD, List.getElem?_eq_getElem hLt]

/-- The stored records fit their fields if the recorded calls do. -/
theorem storedCalls_fits (hFits : ∀ info ∈ sysinfos, info.Fits)
    (h : (storedCalls sysinfos)[idx]? = some stored) : stored.key.Fits := by
  obtain ⟨info, hInfo, hKey⟩ := storedCalls_recorded h
  rw [hKey]
  exact (hFits info hInfo).key

/-- The record of a stored call, with the place of its data. -/
theorem recordAt_saved (hFits : ∀ info ∈ sysinfos, info.Fits)
    (hSection : (saveSysInfo sysinfos).length < 2 ^ 32 - 1)
    (h : (storedCalls sysinfos)[idx]? = some stored) :
    ∃ place, (storedPlaces sysinfos)[idx]? = some (stored, place) ∧
      recordAt (saveSysInfo sysinfos) (8 + 4 * sysinfos.length + 40 * idx) =
        ⟨stored.pc, stored.num * 2 ^ 32 + stored.data.length, stored.params.getD 0 0, stored.ret,
          place * 2 ^ 8 + if stored.hasret then 1 else 0⟩ := by
  have hKeyFits := storedCalls_fits hFits h
  obtain ⟨place, hPlaces⟩ : ∃ place, (storedPlaces sysinfos)[idx]? = some (stored, place) := by
    rw [← storedPlaces_map, List.getElem?_map, Option.map_eq_some_iff] at h
    obtain ⟨⟨info, place⟩, hEntry, rfl⟩ := h
    exact ⟨place, hEntry⟩
  have hPlace : place < 2 ^ 32 := by
    rcases saveSysInfo_data hPlaces with ⟨-, rfl⟩ | ⟨-, behind, hDrop⟩
    · decide
    · have hLength := congrArg List.length hDrop
      simp only [List.length_drop, List.length_append, sysData, wordBytes_length] at hLength
      omega
  obtain ⟨after, hRecord⟩ := saveSysInfo_record hPlaces
  exact ⟨place, hPlaces, recordAt_of_drop hKeyFits hPlace hRecord⟩

/-- The loader sees the stored calls as they were recorded. -/
theorem callKeyAt_saved (hFits : ∀ info ∈ sysinfos, info.Fits)
    (hSection : (saveSysInfo sysinfos).length < 2 ^ 32 - 1)
    (h : (storedCalls sysinfos)[idx]? = some stored) :
    callKeyAt (saveSysInfo sysinfos) (8 + 4 * sysinfos.length + 40 * idx) = stored.key := by
  have hKeyFits := storedCalls_fits hFits h
  have hData : stored.data.length < 2 ^ 31 := hKeyFits.data
  obtain ⟨place, hPlaces, hRead⟩ := recordAt_saved hFits hSection h
  rcases saveSysInfo_data hPlaces with ⟨hNone, rfl⟩ | ⟨hSome, behind, hDrop⟩
  · rw [callKeyAt_of_record hData hRead, SyscallInfo.key, if_pos hNone,
      List.length_eq_zero_iff.mp hNone]
    rfl
  · have hPlace : place < (saveSysInfo sysinfos).length := by
      have hLength := congrArg List.length hDrop
      simp only [List.length_drop, List.length_append, sysData, wordBytes_length] at hLength
      omega
    have hBufaddr : stored.bufaddr < 2 ^ 64 := by
      simpa only [SyscallInfo.key, if_neg hSome] using hKeyFits.bufaddr
    rw [sysData, List.append_assoc] at hDrop
    have hBytes := drop_past hDrop (wordBytes_length 8 _)
    rw [callKeyAt_of_record hData hRead, SyscallInfo.key, if_neg hSome, if_pos (by omega),
      if_pos (by omega), wordAt_of_drop hDrop (by omega), hBytes, List.take_left]

/-- The running information of a checkpoint with these calls. -/
structure ReadsCalls (sysinfos : List SyscallInfo) (run : RunningInfo) : Prop where
  callinfo : run.callinfo = saveSysInfo sysinfos
  totalcallnum : run.totalcallnum = sysinfos.length
  small : (saveSysInfo sysinfos).length < 2 ^ 32 - 1

variable {run : RunningInfo}

theorem ReadsCalls.count (h : ReadsCalls sysinfos run) : sysinfos.length < 2 ^ 30 := by
  have hLength := saveSysInfo_length sysinfos
  have hSmall := h.small
  omega

theorem ReadsCalls.sysidx {i : Nat} (h : ReadsCalls sysinfos run)
    (hIdx : (sysIdxs sysinfos)[i]? = some idx) : run.sysidx i = idx := by
  have hLt := sysIdxs_lt hIdx
  have hLe := storedCalls_length_le sysinfos
  have hCount := h.count
  rw [RunningInfo.sysidx, h.callinfo]
  exact saveSysInfo_idx hIdx (by omega)

/-- The index values are exactly the numbers of the stored records. -/
theorem ReadsCalls.sysidx_range (h : ReadsCalls sysinfos run) (c : Nat) :
    c < (storedCalls sysinfos).length ↔ ∃ i < run.totalcallnum, run.sysidx i = c := by
  rw [h.totalcallnum]
  constructor
  · intro hc
    obtain ⟨i, hi⟩ := List.getElem?_of_mem (sysIdxs_surjective sysinfos hc)
    have hLt := (List.getElem?_eq_some_iff.mp hi).1
    rw [sysIdxs_length] at hLt
    exact ⟨i, hLt, h.sysidx hi⟩
  · rintro ⟨i, hi, rfl⟩
    have hAt : (sysIdxs sysinfos)[i]? = some _ := sysIdxs_getElem? sysinfos hi
    rw [h.sysidx hAt]
    exact sysIdxs_lt hAt

/-- The scan ends at the last stored record. -/
theorem ReadsCalls.diffcallnum (h : ReadsCalls sysinfos run) :
    run.diffcallnum + 1 = (storedCalls sysinfos).length := by
  -- after `m` calls the maximum bounds all indices seen and is one of them
  have hScan : ∀ m ≤ run.totalcallnum, ∃ diff : Int, diff = (List.range m).foldl
      (fun diff i => if int32 (run.sysidx i) > diff then int32 (run.sysidx i) else diff) (-1) ∧
      (∀ i < m, (run.sysidx i : Int) ≤ diff) ∧ (diff = -1 ∨ ∃ i < m, diff = run.sysidx i) := by
    intro m
    induction m with
    | zero => exact fun _ => ⟨-1, rfl, by simp, Or.inl rfl⟩
    | succ m ih =>
        intro hm
        obtain ⟨diff, hDiff, hBound, hHit⟩ := ih (by omega)
        have hLt := (h.sysidx_range _).mpr ⟨m, hm, rfl⟩
        have hLe := storedCalls_length_le sysinfos
        have hCount := h.count
        rw [List.range_succ, List.foldl_append, List.foldl_cons, List.foldl_nil, ← hDiff,
          int32_of_lt (by omega)]
        refine ⟨_, rfl, fun i hi => ?_, ?_⟩
        · rcases Nat.lt_succ_iff_lt_or_eq.mp hi with hOld | rfl
          · have hLe := hBound i hOld
            split <;> omega
          · split <;> omega
        · split
          · exact Or.inr ⟨m, by omega, rfl⟩
          · exact hHit.imp id fun ⟨i, hi, hEq⟩ => ⟨i, by omega, hEq⟩
  obtain ⟨diff, hDiff, hBound, hHit⟩ := hScan run.totalcallnum (Nat.le_refl _)
  rw [RunningInfo.diffcallnum, ← hDiff]
  by_cases hEmpty : (storedCalls sysinfos).length = 0
  · rcases hHit with hNone | ⟨i, hi, -⟩
    · omega
    · have hLt := (h.sysidx_range _).mpr ⟨i, hi, rfl⟩
      omega
  · obtain ⟨i, hi, hTop⟩ := (h.sysidx_range ((storedCalls sysinfos).length - 1)).mp (by omega)
    have hLow := hBound i hi
    rcases hHit with hNone | ⟨j, hj, hEq⟩
    · omega
    · have hLt := (h.sysidx_range _).mpr ⟨j, hj, rfl⟩
      omega

/-- The loader sees the call that a stored record holds. -/
theorem ReadsCalls.callKey (h : ReadsCalls sysinfos run) (hFits : ∀ info ∈ sysinfos, info.Fits)
    (hStored : (storedCalls sysinfos)[idx]? = some stored) :
    callKeyAt run.callinfo (run.infoaddr idx) = stored.key := by
  rw [h.callinfo, RunningInfo.infoaddr, h.totalcallnum]
  exact callKeyAt_saved hFits h.small hStored

/-- The pcs of a checkpoint: its start, one for each stored record, and its exit. -/
theorem ReadsCalls.pcs_eq (h : ReadsCalls sysinfos run) (npc : Nat) :
    run.pcs npc = { label := 0, pc := npc } ::
      (List.range (storedCalls sysinfos).length).map
        (fun i => { label := i + 1, pc := wordAt 8 run.callinfo (run.infoaddr i) }) ++
      [{ label := run.totalcallnum + 1, pc := run.exitpc }] := by
  rw [RunningInfo.pcs, h.diffcallnum, Int.toNat_natCast]

theorem ReadsCalls.pcs_length (h : ReadsCalls sysinfos run) (npc : Nat) :
    (run.pcs npc).length = (storedCalls sysinfos).length + 2 := by
  simp [h.pcs_eq]

/-- The indices that the loader reads are in range. -/
theorem ReadsCalls.indexed (h : ReadsCalls sysinfos run) : run.Indexed where
  count := by
    have hCount := h.count
    rw [h.totalcallnum]
    omega
  sysidx i hi := by
    have hLt := (h.sysidx_range _).mpr ⟨i, hi, rfl⟩
    have hLe := storedCalls_length_le sysinfos
    rw [h.totalcallnum]
    omega

/-- The record that a call shares, by its index. -/
theorem sysIdxs_stored {k : Nat} {info : SyscallInfo} (h : sysinfos[k]? = some info) :
    ∃ idx stored, (sysIdxs sysinfos)[k]? = some idx ∧ (storedCalls sysinfos)[idx]? = some stored ∧
      stored.key = info.key := by
  obtain ⟨hk, -⟩ := List.getElem?_eq_some_iff.mp h
  obtain ⟨idx, stored, hIdx, hStored, hKey⟩ := storedCalls_sysIdxs sysinfos hk
  refine ⟨idx, stored, hIdx, hStored, ?_⟩
  rw [hKey, callAt, List.getD_eq_getElem?_getD, h, Option.getD_some]

/-- The pc of a stored record stands one place behind its index. -/
theorem ReadsCalls.pcs_record (h : ReadsCalls sysinfos run) (hFits : ∀ info ∈ sysinfos, info.Fits)
    (npc : Nat) (hStored : (storedCalls sysinfos)[idx]? = some stored) :
    (run.pcs npc)[idx + 1]? = some { label := idx + 1, pc := stored.pc } := by
  have hLt := (List.getElem?_eq_some_iff.mp hStored).1
  have hPc : (callKeyAt run.callinfo (run.infoaddr idx)).pc = stored.pc :=
    congrArg CallKey.pc (h.callKey hFits hStored)
  rw [h.pcs_eq, List.cons_append, List.getElem?_cons_succ, List.getElem?_append_left (by simpa),
    List.getElem?_map, List.getElem?_range hLt, Option.map_some, ← hPc]
  rfl

/-- The return entry behind a stored record goes back behind its pc. -/
theorem ReadsCalls.entry (places : Places) {loaded : Loader} {freeRanges : List MemRangeInfo}
    {npc : Nat} {placed : List PCs} (h : ReadsCalls sysinfos loaded.runningInfo)
    (hFits : ∀ info ∈ sysinfos, info.Fits)
    (hPlaced : findMidPoints freeRanges (loaded.runningInfo.pcs npc) = some placed)
    (hStored : (storedCalls sysinfos)[idx]? = some stored) :
    ∃ p, placed[idx + 1]? = some p ∧ idx + 1 + 1 < placed.length ∧ p.pc = stored.pc ∧
      (createInsts places loaded placed).runningInfo.sysJmpinfos[idx + 1]? =
        some (jmpInfo (idx + 1) p) := by
  have hKeys := findMidPoints_keys (h.indexed.pcs_labels npc) hPlaced
  have hAt := congrArg (fun keys => keys[idx + 1]?) hKeys
  simp only [List.getElem?_map, h.pcs_record hFits npc hStored, Option.map_some,
    Option.map_eq_some_iff] at hAt
  obtain ⟨p, hp, hpKey⟩ := hAt
  have hLast : idx + 1 + 1 < placed.length := by
    have hLt := (List.getElem?_eq_some_iff.mp hStored).1
    rw [← List.length_map PCs.key, hKeys, List.length_map, h.pcs_length]
    omega
  exact ⟨p, hp, hLast, congrArg Prod.snd hpKey, createInsts_sysJmpinfos places loaded hp hLast⟩

end Saved

/-- `after` is `before` with the effect of a recorded call: its result in `a0`,
its output in the buffer, the return prepared through `entry`, and the exit
patched behind the last call. No other byte of memory differs. -/
structure ReplaysCall (info : SyscallInfo) (entry : JmpRepInfo) (regs : Nat → Nat)
    (before after : Loader) : Prop where
  a0 : after.program_intregs 10 = if info.hasret then info.ret else info.params.getD 0 0
  others : ∀ x, x ≠ 0 → x ≠ 10 → after.program_intregs x = regs x
  target : after.tempMemory = entry.jalr_target
  running : after.runningInfo =
    { before.runningInfo with nowcallnum := before.runningInfo.nowcallnum + 1 }
  memory :
    let written := if info.data ≠ [] ∧ info.bufaddr ≠ 0 then
      store before.memory info.bufaddr info.data else before.memory
    let returning := storeInst written entry.jal_addr entry.jal_inst
    after.memory = if after.runningInfo.nowcallnum = after.runningInfo.totalcallnum then
      storeInst returning before.runningInfo.exitpc before.runningInfo.exitJmpInst else returning

/-- A takeover has the effect of the call that its record shows. -/
theorem takeoverSyscall_of_key {regs : Nat → Nat} {loader : Loader} {info : SyscallInfo}
    {entry : JmpRepInfo} {sysidx : Nat}
    (hLeft : loader.runningInfo.nowcallnum < loader.runningInfo.totalcallnum)
    (hIdx : loader.runningInfo.sysidx loader.runningInfo.nowcallnum = sysidx)
    (hKey : callKeyAt loader.runningInfo.callinfo (loader.runningInfo.infoaddr sysidx) = info.key)
    (hEntry : loader.runningInfo.sysJmpinfos[sysidx + 1]? = some entry)
    (hNum : regs 17 = info.num) :
    ∃ after, takeoverSyscall regs loader = some after ∧
      ReplaysCall info entry regs loader after := by
  have hWrite : writeCallData loader.runningInfo.callinfo
      (recordAt loader.runningInfo.callinfo (loader.runningInfo.infoaddr sysidx)) loader.memory =
      if info.data ≠ [] ∧ info.bufaddr ≠ 0 then store loader.memory info.bufaddr info.data
      else loader.memory := by
    rw [writeCallData_eq, hKey]
    by_cases hData : info.data = [] <;> simp [SyscallInfo.key, hData]
  simp only [callKeyAt, SyscallInfo.key, CallKey.mk.injEq] at hKey
  obtain ⟨-, hCall, hHasret, hRet, hP0, -, -⟩ := hKey
  have hSaved : ∀ x, x ≠ 0 → x ≠ 10 → saveProgramIntRegs regs loader.program_intregs x = regs x :=
    fun x h0 h10 => if_neg (by omega)
  simp only [takeoverSyscall, if_neg (Nat.not_le.mpr hLeft), hIdx, hWrite]
  generalize recordAt loader.runningInfo.callinfo (loader.runningInfo.infoaddr sysidx) = infos at *
  have hA7 : Function.update (saveProgramIntRegs regs loader.program_intregs) 10 infos.p0 17 =
      infos.num / 2 ^ 32 := by
    rw [Function.update_of_ne (by decide), hSaved 17 (by decide) (by decide), hCall, hNum]
  have hA0 : (if infos.data_offset % 256 ≠ 0 then
      Function.update (Function.update (saveProgramIntRegs regs loader.program_intregs) 10 infos.p0)
        10 infos.ret
      else Function.update (saveProgramIntRegs regs loader.program_intregs) 10 infos.p0) =
      Function.update (saveProgramIntRegs regs loader.program_intregs) 10
        (if info.hasret then info.ret else info.params.getD 0 0) := by
    rw [← hHasret, hRet, hP0]
    by_cases hFlag : infos.data_offset % 256 ≠ 0 <;> simp [hFlag]
  rw [if_neg (not_not.mpr hA7), hA0, List.getD_eq_getElem?_getD, hEntry, Option.getD_some]
  refine ⟨_, rfl, ?_⟩
  have hRegs : ∀ x, x ≠ 0 → x ≠ 10 →
      Function.update (saveProgramIntRegs regs loader.program_intregs) 10
      (if info.hasret then info.ret else info.params.getD 0 0) x = regs x :=
    fun x h0 h10 => (Function.update_of_ne h10 ..).trans (hSaved x h0 h10)
  by_cases hLast : loader.runningInfo.nowcallnum + 1 = loader.runningInfo.totalcallnum
  · rw [if_pos hLast]
    exact ⟨by simp only [armExit, updateJmpInst, Function.update_self], hRegs, rfl, rfl,
      (if_pos hLast).symm⟩
  · rw [if_neg hLast]
    exact ⟨by simp only [updateJmpInst, Function.update_self], hRegs, rfl, rfl, (if_neg hLast).symm⟩

/-- The loader sees the `k`-th call. -/
theorem ReadsCalls.key_of_call {sysinfos : List SyscallInfo} {run : RunningInfo} {k : Nat}
    {info : SyscallInfo} (h : ReadsCalls sysinfos run)
    (hFits : ∀ info ∈ sysinfos, info.Fits) (hInfo : sysinfos[k]? = some info) :
    callKeyAt run.callinfo (run.infoaddr (run.sysidx k)) = info.key := by
  obtain ⟨idx, stored, hIdx, hStored, hKey⟩ := sysIdxs_stored hInfo
  rw [h.sysidx hIdx, h.callKey hFits hStored, hKey]

/-- The takeover of the `k`-th recorded call has that call's effect, and its
entry belongs to the same pc. -/
theorem ReadsCalls.takeover {sysinfos : List SyscallInfo} (places : Places) {loaded loader : Loader}
    {freeRanges : List MemRangeInfo} {npc k : Nat} {placed : List PCs} {info : SyscallInfo}
    {regs : Nat → Nat} (h : ReadsCalls sysinfos loaded.runningInfo)
    (hFits : ∀ info ∈ sysinfos, info.Fits)
    (hPlaced : findMidPoints freeRanges (loaded.runningInfo.pcs npc) = some placed)
    (hInfo : sysinfos[k]? = some info)
    (hRunning : loader.runningInfo =
      { (createInsts places loaded placed).runningInfo with nowcallnum := k })
    (hNum : regs 17 = info.num) :
    ∃ i p after, i ≠ 0 ∧ placed[i]? = some p ∧ i + 1 < placed.length ∧ p.pc = info.pc ∧
      (createInsts places loaded placed).runningInfo.sysJmpinfos[i]? = some (jmpInfo i p) ∧
      takeoverSyscall regs loader = some after ∧
      ReplaysCall info (jmpInfo i p) regs loader after := by
  obtain ⟨idx, stored, hIdx, hStored, hKey⟩ := sysIdxs_stored hInfo
  obtain ⟨p, hp, hLast, hPc, hEntry⟩ := h.entry places hFits hPlaced hStored
  have hLeft : loader.runningInfo.nowcallnum < loader.runningInfo.totalcallnum := by
    rw [hRunning]
    exact h.totalcallnum ▸ (List.getElem?_eq_some_iff.mp hInfo).1
  have hSysidx : loader.runningInfo.sysidx loader.runningInfo.nowcallnum = idx := by
    rw [hRunning]
    exact h.sysidx hIdx
  have hView : callKeyAt loader.runningInfo.callinfo (loader.runningInfo.infoaddr idx) =
      info.key := by
    rw [hRunning, ← hKey]
    exact h.callKey hFits hStored
  have hLoaderEntry : loader.runningInfo.sysJmpinfos[idx + 1]? = some (jmpInfo (idx + 1) p) := by
    rw [hRunning]
    exact hEntry
  obtain ⟨after, hAfter, hReplays⟩ := takeoverSyscall_of_key hLeft hSysidx hView hLoaderEntry hNum
  exact ⟨idx + 1, p, after, Nat.succ_ne_zero idx, hp, hLast, hPc.trans (congrArg CallKey.pc hKey),
    hEntry, hAfter, hReplays⟩

/-- Every recorded call of a checkpoint is replayed with its recorded effect and
returns behind its own pc; the stored records are all different, their numbers
are exactly the indices in use, and so `processJmp` sees the pc of every call. -/
theorem takeoverSyscall_replays {sysinfos : List SyscallInfo} (hFits : ∀ info ∈ sysinfos, info.Fits)
    (hSection : (saveSysInfo sysinfos).length < 2 ^ 32 - 1) {freeRanges : List MemRangeInfo}
    {places : Places} {npc : Nat} {start ready : Loader}
    (hReady : processJmp freeRanges places npc (readCkptsyscall (saveSysInfo sysinfos) start) =
      some ready) :
    (∀ k info, sysinfos[k]? = some info → ∀ regs loader,
      loader.runningInfo = { ready.runningInfo with nowcallnum := k } → regs 17 = info.num →
      ∃ i p after, i ≠ 0 ∧ p.pc = info.pc ∧ retAddr i p = info.pc + 4 ∧
        ready.runningInfo.sysJmpinfos[i]? = some (jmpInfo i p) ∧
        takeoverSyscall regs loader = some after ∧
        ReplaysCall info (jmpInfo i p) regs loader after) ∧
    (∀ i j, i < j → j < (storedCalls sysinfos).length →
      callKeyAt ready.runningInfo.callinfo (ready.runningInfo.infoaddr i) ≠
        callKeyAt ready.runningInfo.callinfo (ready.runningInfo.infoaddr j)) ∧
    (∀ c, c < (storedCalls sysinfos).length ↔
      ∃ k < ready.runningInfo.totalcallnum, ready.runningInfo.sysidx k = c) ∧
    ∀ info ∈ sysinfos, ∃ p ∈ ready.runningInfo.pcs npc, p.label ≠ 0 ∧ p.pc = info.pc := by
  simp only [processJmp, Option.map_eq_some_iff] at hReady
  obtain ⟨placed, hPlaced, rfl⟩ := hReady
  have hReads : ReadsCalls sysinfos (readCkptsyscall (saveSysInfo sysinfos) start).runningInfo := by
    have hLength := saveSysInfo_length sysinfos
    exact ⟨rfl, saveSysInfo_total (by omega), hSection⟩
  generalize readCkptsyscall (saveSysInfo sysinfos) start = loaded at *
  refine ⟨?_, ?_, hReads.sysidx_range, ?_⟩
  · intro k info hInfo regs loader hRunning hNum
    obtain ⟨i, p, after, hi, -, -, hPc, hEntry, hAfter, hReplays⟩ :=
      hReads.takeover places hFits hPlaced hInfo hRunning hNum
    have hRet : retAddr i p = info.pc + 4 := by rw [retAddr, if_neg hi, hPc]
    exact ⟨i, p, after, hi, hPc, hRet, hEntry, hAfter, hReplays⟩
  · intro i j hij hj
    have hKeyAt : ∀ c (hc : c < (storedCalls sysinfos).length),
        callKeyAt loaded.runningInfo.callinfo (loaded.runningInfo.infoaddr c) =
          ((storedCalls sysinfos)[c]).key := fun c hc =>
      hReads.callKey hFits (List.getElem?_eq_getElem hc)
    exact (hKeyAt i (by omega)).trans_ne
      ((List.pairwise_iff_getElem.mp (storedCalls_distinct sysinfos) i j _ hj hij).trans_eq
        (hKeyAt j hj).symm)
  · intro info hInfo
    obtain ⟨k, hk⟩ := List.getElem?_of_mem hInfo
    obtain ⟨idx, stored, -, hStored, hKey⟩ := sysIdxs_stored hk
    exact ⟨_, List.mem_of_getElem? (hReads.pcs_record hFits npc hStored), Nat.succ_ne_zero idx,
      congrArg CallKey.pc hKey⟩

def sampleCalls : List SyscallInfo :=
  let write : SyscallInfo := { pc := 0x10010, num := 64, ret := 5, hasret := true, params := [1] }
  [write, { pc := 0x10020, num := 63, ret := 2, hasret := true, bufaddr := 0x9000, data := [7, 8],
            params := [3] }, write]

def samplePlaces : Places := ⟨0x20000, 0x20050, by decide⟩

def sampleLoader : Loader :=
  readCkptsyscall (saveSysInfo sampleCalls) ⟨zero, fun _ => 0, 0, ⟨0x10030, [], 0, 0, 0, []⟩⟩

theorem takeoverSyscall_replays_read :
    ∃ ready, processJmp [⟨0x11000, 0x1000⟩] samplePlaces 0x10000 sampleLoader = some ready ∧
      ∃ after, takeoverSyscall (fun _ => 63)
        { ready with runningInfo := { ready.runningInfo with nowcallnum := 1 } } = some after ∧
        after.program_intregs 10 = 2 := by
  have hFits : ∀ info ∈ sampleCalls, info.Fits := by
    intro info hInfo
    simp only [sampleCalls, List.mem_cons, List.not_mem_nil, or_false] at hInfo
    rcases hInfo with rfl | rfl | rfl <;> constructor <;> decide
  have hSome : (processJmp [⟨0x11000, 0x1000⟩] samplePlaces 0x10000 sampleLoader).isSome := by
    decide +kernel
  obtain ⟨ready, hReady⟩ := Option.isSome_iff_exists.mp hSome
  obtain ⟨i, p, after, -, -, -, -, hAfter, hReplays⟩ :=
    (takeoverSyscall_replays hFits (by decide +kernel) hReady).1 1 _ rfl (fun _ => 63)
      { ready with runningInfo := { ready.runningInfo with nowcallnum := 1 } } rfl rfl
  exact ⟨ready, hReady, after, hAfter, hReplays.a0⟩

end RiscvCkpt
