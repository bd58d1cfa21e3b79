import RiscvCkpt.Restore.TakeoverSyscall

/-! The tool that rewrites the system calls of an old checkpoint. The old section is a table
of ten-word records with the output data behind it; the new one is indexed and holds equal
calls once. -/
namespace RiscvCkpt

open ByteCodec

def oldRecord (info : SyscallInfo) (dataAddr : Nat) : List UInt8 :=
  [info.pc, info.num, info.params.getD 0 0, info.params.getD 1 0, info.params.getD 2 0,
    if info.hasret then 1 else 0, info.ret, info.bufaddr,
    if info.data.length = 0 then invalidAddr else dataAddr, info.data.length].flatMap (wordBytes 8)

/-- `CkptInfo::saveSysInfo1`: the bytes it writes. -/
def saveSysInfo1 (sysinfos : List SyscallInfo) : List UInt8 :=
  let dataAddr := 10 * 8 * sysinfos.length + 8
  wordBytes 8 sysinfos.length ++
    ((withPlaces SyscallInfo.data dataAddr sysinfos).flatMap
      (fun entry => oldRecord entry.1 entry.2) ++ sysinfos.flatMap SyscallInfo.data)

namespace RewriteSysInfo

structure OldSyscallInfo where
  pc : Nat
  num : Nat
  p0 : Nat
  p1 : Nat
  p2 : Nat
  hasret : Nat
  ret : Nat
  bufaddr : Nat
  data_offset : Nat
  data_size : Nat
  deriving DecidableEq, Repr

def sysinfoAt (bytes : List UInt8) (i : Nat) : OldSyscallInfo :=
  let word := fun k => wordAt 8 bytes (8 + i * 80 + k * 8)
  ⟨word 0, word 1, word 2, word 3, word 4, word 5, word 6, word 7, word 8, word 9⟩

def dataOf (bytes : List UInt8) (info : OldSyscallInfo) (size : Nat) : List UInt8 :=
  (bytes.drop info.data_offset).take size

def isSameSyscall (bytes : List UInt8) (info1 info2 : OldSyscallInfo) : Bool :=
  if info1.pc ≠ info2.pc then false
  else if info1.num ≠ info2.num then false
  else if info1.hasret ≠ info2.hasret then false
  else if info1.ret ≠ info2.ret then false
  else if info1.p0 ≠ info2.p0 then false
  else if info1.data_size = 0 then true
  else if info1.data_size ≠ info2.data_size then false
  else if info1.bufaddr ≠ info2.bufaddr then false
  else dataOf bytes info1 info1.data_size = dataOf bytes info2 info1.data_size

def dectectSysinfos (bytes : List UInt8) (idx : Nat) (pool : Pool) : Nat × Pool :=
  let info := sysinfoAt bytes idx
  let prepc := insert info.pc pool.prepc
  let prenum := insert (info.num % 2 ^ 32) pool.prenum
  if info.pc ∉ pool.prepc ∨ info.num % 2 ^ 32 ∉ pool.prenum then
    (pool.newinfos.length, ⟨prepc, prenum, pool.newinfos ++ [idx]⟩)
  else
    let c := pool.newinfos.findIdx fun kept => isSameSyscall bytes info (sysinfoAt bytes kept)
    if c = pool.newinfos.length then
      (pool.newinfos.length, ⟨prepc, prenum, pool.newinfos ++ [idx]⟩)
    else (c, ⟨prepc, prenum, pool.newinfos⟩)

def dedupStep (bytes : List UInt8) (state : Dedup) (i : Nat) : Dedup :=
  if (sysinfoAt bytes i).data_size ≠ 0 then
    let (res, pool) := dectectSysinfos bytes i state.newsysinfos1
    { state with sysIdxs := state.sysIdxs ++ [res], newsysinfos1 := pool }
  else
    let (res, pool) := dectectSysinfos bytes i state.newsysinfos
    { state with sysIdxs := state.sysIdxs ++ [res], newsysinfos := pool }

def dedup (bytes : List UInt8) (totalnum : Nat) : Dedup :=
  (List.range totalnum).foldl (dedupStep bytes) ⟨[], Pool.empty, Pool.empty⟩

def sysIdxs (bytes : List UInt8) (totalnum : Nat) : List Nat :=
  let state := dedup bytes totalnum
  (List.range totalnum).map fun i =>
    if (sysinfoAt bytes i).data_size ≠ 0 then
      state.sysIdxs.getD i 0 + state.newsysinfos.newinfos.length
    else state.sysIdxs.getD i 0

def newRecord (info : OldSyscallInfo) (dataAddr : Nat) : List UInt8 :=
  wordBytes 8 info.pc ++ (wordBytes 8 (info.num * 2 ^ 32 + info.data_size) ++
    (wordBytes 8 info.p0 ++ (wordBytes 8 info.ret ++
      wordBytes 8 (dataAddr * 2 ^ 8 + if info.hasret ≠ 0 then 1 else 0))))

def withDataAddr : Nat → List OldSyscallInfo → List (OldSyscallInfo × Nat)
  | _, [] => []
  | dataAddr, info :: rest => (info, dataAddr) :: withDataAddr (dataAddr + info.data_size + 8) rest

def process (totalnum : Nat) (bytes : List UInt8) : List UInt8 :=
  let state := dedup bytes totalnum
  let plain := state.newsysinfos.newinfos.map (sysinfoAt bytes)
  let withData := state.newsysinfos1.newinfos.map (sysinfoAt bytes)
  let idxSize := 4 * totalnum
  let infoSize := 5 * 8 * (plain.length + withData.length)
  let dataAddr := idxSize + infoSize + 8
  wordBytes 8 totalnum ++ ((sysIdxs bytes totalnum).flatMap (wordBytes 4) ++
    (plain.flatMap (fun info => newRecord info invalidAddr) ++
      ((withDataAddr dataAddr withData).flatMap (fun entry => newRecord entry.1 entry.2) ++
        withData.flatMap
        (fun info => wordBytes 8 info.bufaddr ++ dataOf bytes info info.data_size))))

def readCkptsyscall (bytes : List UInt8) : List UInt8 := process (wordAt 8 bytes 0) bytes

def OldSyscallInfo.key (bytes : List UInt8) (info : OldSyscallInfo) : CallKey :=
  { pc := info.pc, num := info.num, hasret := info.hasret ≠ 0, ret := info.ret, p0 := info.p0,
    bufaddr := if info.data_size = 0 then 0 else info.bufaddr,
    data := if info.data_size = 0 then [] else dataOf bytes info info.data_size }

structure Holds (bytes : List UInt8) (info : OldSyscallInfo) (call : SyscallInfo) : Prop where
  pc : info.pc = call.pc
  num : info.num = call.num
  p0 : info.p0 = call.params.getD 0 0
  hasret : info.hasret = if call.hasret then 1 else 0
  ret : info.ret = call.ret
  bufaddr : info.bufaddr = call.bufaddr
  data_size : info.data_size = call.data.length
  data : call.data.length ≠ 0 → dataOf bytes info call.data.length = call.data

section Holds

variable {bytes : List UInt8} {info info1 info2 : OldSyscallInfo} {call call1 call2 : SyscallInfo}

/-- An old record says about its call what the call says itself. -/
theorem Holds.key (h : Holds bytes info call) : info.key bytes = call.key := by
  have hFlag : decide ((if call.hasret then 1 else 0) ≠ 0) = call.hasret := by
    cases call.hasret <;> rfl
  rw [OldSyscallInfo.key, SyscallInfo.key, h.pc, h.num, h.hasret, hFlag, h.ret, h.p0,
    h.data_size, h.bufaddr]
  by_cases hNone : call.data.length = 0
  · rw [if_pos hNone, if_pos hNone, List.length_eq_zero_iff.mp hNone]
  · rw [if_neg hNone, if_neg hNone, h.data hNone]

/-- The tool compares the records as the recorder compares the calls. -/
theorem Holds.isSameSyscall (h1 : Holds bytes info1 call1) (h2 : Holds bytes info2 call2) :
    isSameSyscall bytes info1 info2 = RiscvCkpt.isSameSyscall call1 call2 := by
  have hFlags : (info1.hasret ≠ info2.hasret) = (call1.hasret ≠ call2.hasret) := by
    rw [h1.hasret, h2.hasret]
    cases call1.hasret <;> cases call2.hasret <;> simp
  simp only [RewriteSysInfo.isSameSyscall, RiscvCkpt.isSameSyscall, h1.pc, h2.pc, h1.num,
    h2.num, hFlags, h1.ret, h2.ret, h1.p0, h2.p0, h1.data_size, h2.data_size,
    h1.bufaddr, h2.bufaddr]
  -- the data are looked at only where both calls have some, of one size
  by_cases hNone : call1.data.length = 0
  · simp only [if_pos hNone]
  · by_cases hSize : call1.data.length = call2.data.length
    · have hData2 : dataOf bytes info2 call1.data.length = call2.data := by
        rw [hSize]
        exact h2.data (hSize ▸ hNone)
      rw [h1.data hNone, hData2]
    · simp only [if_pos hSize]

/-- The tool writes the record that the simulator writes for the call. -/
theorem Holds.newRecord (h : Holds bytes info call) (dataAddr : Nat) :
    newRecord info dataAddr = sysRecord call dataAddr := by
  have hFlag : (if info.hasret ≠ 0 then 1 else 0) = if call.hasret then 1 else 0 := by
    rw [h.hasret]
    cases call.hasret <;> rfl
  rw [RewriteSysInfo.newRecord, sysRecord, h.pc, h.num, h.data_size, h.p0, h.ret, hFlag]

end Holds

theorem findIdx_congr {α : Type*} {p q : α → Bool} {xs : List α} (h : ∀ x ∈ xs, p x = q x) :
    xs.findIdx p = xs.findIdx q := by
  induction xs with
  | nil => rfl
  | cons x rest ih =>
      obtain ⟨hFirst, hRest⟩ := List.forall_mem_cons.mp h
      rw [List.findIdx_cons, List.findIdx_cons, hFirst, ih hRest]

section Process

variable {bytes : List UInt8} {calls : List SyscallInfo}

/-- A pool with calls of the list only. -/
def Inside (calls : List SyscallInfo) (pool : Pool) : Prop :=
  ∀ kept ∈ pool.newinfos, kept < calls.length

/-- Detection adds only calls of the list to a pool. -/
theorem dectectSysinfos_inside {idx : Nat} {pool : Pool} (hPool : Inside calls pool)
    (hIdx : idx < calls.length) : Inside calls (RiscvCkpt.dectectSysinfos calls idx pool).2 := by
  have hMore : ∀ kept ∈ pool.newinfos ++ [idx], kept < calls.length := by
    intro kept hKept
    rcases List.mem_append.mp hKept with hOld | hNew
    · exact hPool kept hOld
    · rw [List.mem_singleton.mp hNew]
      exact hIdx
  simp only [RiscvCkpt.dectectSysinfos]
  split
  · exact hMore
  · split
    · exact hMore
    · exact hPool

variable (hHolds : ∀ i < calls.length, Holds bytes (sysinfoAt bytes i) (callAt calls i))

include hHolds

/-- The tool finds the same repetitions as the simulator. -/
theorem dectectSysinfos_eq {idx : Nat} {pool : Pool} (hPool : Inside calls pool)
    (hIdx : idx < calls.length) :
    dectectSysinfos bytes idx pool = RiscvCkpt.dectectSysinfos calls idx pool := by
  have hInfo := hHolds idx hIdx
  have hScan : (pool.newinfos.findIdx fun kept =>
        isSameSyscall bytes (sysinfoAt bytes idx) (sysinfoAt bytes kept)) =
      pool.newinfos.findIdx fun kept =>
      RiscvCkpt.isSameSyscall (callAt calls idx) (callAt calls kept) :=
    findIdx_congr fun kept hKept => hInfo.isSameSyscall (hHolds kept (hPool kept hKept))
  simp only [dectectSysinfos, RiscvCkpt.dectectSysinfos, hScan, hInfo.pc, hInfo.num]

/-- The first loop of `process` is that of `saveSysInfo`. -/
theorem dedup_eq {n : Nat} (hn : n ≤ calls.length) :
    dedup bytes n = (List.range n).foldl (RiscvCkpt.dedupStep calls) ⟨[], Pool.empty, Pool.empty⟩ ∧
      Inside calls (dedup bytes n).newsysinfos ∧ Inside calls (dedup bytes n).newsysinfos1 := by
  induction n with
  | zero => exact ⟨rfl, fun _ h => absurd h List.not_mem_nil, fun _ h => absurd h List.not_mem_nil⟩
  | succ n ih =>
      obtain ⟨hSame, hPlain, hData⟩ := ih (Nat.le_of_succ_le hn)
      have hStep : dedup bytes (n + 1) = dedupStep bytes (dedup bytes n) n := by
        rw [dedup, List.range_succ, List.foldl_append]
        rfl
      have hNext : dedupStep bytes (dedup bytes n) n =
          RiscvCkpt.dedupStep calls (dedup bytes n) n := by
        simp only [dedupStep, RiscvCkpt.dedupStep, (hHolds n hn).data_size,
          dectectSysinfos_eq hHolds hPlain hn, dectectSysinfos_eq hHolds hData hn]
      rw [hStep, List.range_succ, List.foldl_append, ← hSame, hNext]
      refine ⟨rfl, ?_, ?_⟩
      · rw [RiscvCkpt.dedupStep]
        split
        · exact hPlain
        · exact dectectSysinfos_inside hPlain hn
      · rw [RiscvCkpt.dedupStep]
        split
        · exact dectectSysinfos_inside hData hn
        · exact hData

/-- The tool gives the calls with data the same places as the simulator. -/
theorem withDataAddr_records (base : Nat) {idxs : List Nat} (hIdxs : ∀ i ∈ idxs, i < calls.length) :
    (withDataAddr base (idxs.map (sysinfoAt bytes))).flatMap
      (fun entry => newRecord entry.1 entry.2) =
      (RiscvCkpt.withDataAddr base (idxs.map (callAt calls))).flatMap
        fun entry => sysRecord entry.1 entry.2 := by
  induction idxs generalizing base with
  | nil => rfl
  | cons i rest ih =>
      obtain ⟨hFirst, hRest⟩ := List.forall_mem_cons.mp hIdxs
      have hInfo := hHolds i hFirst
      rw [List.map_cons, List.map_cons, withDataAddr, RiscvCkpt.withDataAddr, List.flatMap_cons,
        List.flatMap_cons, ih _ hRest, hInfo.newRecord, hInfo.data_size]

/-- Rewriting an old section makes the section that the recorder writes now. -/
theorem process_eq : process calls.length bytes = saveSysInfo calls := by
  obtain ⟨hSame, hPlain, hData⟩ := dedup_eq hHolds (Nat.le_refl _)
  have hDedup : dedup bytes calls.length = RiscvCkpt.dedup calls := hSame
  rw [hDedup] at hPlain hData
  have hIdxs : sysIdxs bytes calls.length = RiscvCkpt.sysIdxs calls := by
    rw [sysIdxs, RiscvCkpt.sysIdxs, hDedup]
    apply List.map_congr_left
    intro i hi
    rw [(hHolds i (List.mem_range.mp hi)).data_size]
  have hRecords : ((RiscvCkpt.dedup calls).newsysinfos.newinfos.map (sysinfoAt bytes)).flatMap
        (fun info => newRecord info invalidAddr) =
      ((RiscvCkpt.dedup calls).newsysinfos.newinfos.map (callAt calls)).flatMap
        fun info => sysRecord info invalidAddr := by
    rw [List.flatMap_map, List.flatMap_map]
    exact List.flatMap_congr fun i hi => (hHolds i (hPlain i hi)).newRecord _
  have hBytes : ((RiscvCkpt.dedup calls).newsysinfos1.newinfos.map (sysinfoAt bytes)).flatMap
        (fun info => wordBytes 8 info.bufaddr ++ dataOf bytes info info.data_size) =
      ((RiscvCkpt.dedup calls).newsysinfos1.newinfos.map (callAt calls)).flatMap sysData := by
    rw [List.flatMap_map, List.flatMap_map]
    apply List.flatMap_congr
    intro i hi
    have hInfo := hHolds i (hData i hi)
    have hSome : (callAt calls i).data.length ≠ 0 := (dedup_ok calls).withData.pure i hi
    rw [sysData, hInfo.bufaddr, hInfo.data_size, hInfo.data hSome]
  simp only [process, saveSysInfo, hIdxs, hDedup, Pool.calls, List.length_map, hRecords, hBytes,
    withDataAddr_records hHolds _ hData]

end Process

section Saved

theorem oldRecord_length (entry : SyscallInfo × Nat) : (oldRecord entry.1 entry.2).length = 80 :=
  length_flatMap_of_width (wordBytes_length 8) _

/-- Behind the number of calls stand the old records. -/
theorem saveSysInfo1_drop_records (calls : List SyscallInfo) :
    (saveSysInfo1 calls).drop 8 =
      (withPlaces SyscallInfo.data (10 * 8 * calls.length + 8) calls).flatMap
          (fun entry => oldRecord entry.1 entry.2) ++ calls.flatMap SyscallInfo.data := by
  rw [saveSysInfo1, List.drop_left' (wordBytes_length 8 _)]

/-- Behind the old records stand the data. -/
theorem saveSysInfo1_drop_data (calls : List SyscallInfo) :
    (saveSysInfo1 calls).drop (10 * 8 * calls.length + 8) = calls.flatMap SyscallInfo.data := by
  rw [Nat.add_comm]
  refine drop_past (saveSysInfo1_drop_records calls) ?_
  rw [length_flatMap_of_width oldRecord_length, ← List.length_map Prod.fst, withPlaces_map,
    Nat.mul_comm]

variable {calls : List SyscallInfo} (hFits : ∀ info ∈ calls, info.Fits)

include hFits

/-- The data of all calls take at most two gigabytes a call. -/
theorem data_length_le : (calls.flatMap SyscallInfo.data).length ≤ calls.length * 2 ^ 31 := by
  induction calls with
  | nil => exact Nat.zero_le _
  | cons info rest ih =>
      obtain ⟨hFirst, hRest⟩ := List.forall_mem_cons.mp hFits
      have hLe := ih hRest
      have hData := hFirst.data
      rw [List.flatMap_cons, List.length_append, List.length_cons]
      omega

/-- The tool reads the records that the recorder has written. -/
theorem sysinfoAt_saved (hCount : calls.length < 2 ^ 30) {i : Nat} (hi : i < calls.length) :
    Holds (saveSysInfo1 calls) (sysinfoAt (saveSysInfo1 calls) i) (callAt calls i) := by
  have hCall : calls[i]? = some (callAt calls i) := by
    rw [callAt, List.getD_eq_getElem?_getD, List.getElem?_eq_getElem hi, Option.getD_some]
  generalize callAt calls i = call at hCall
  obtain ⟨place, hPlace⟩ : ∃ place,
      (withPlaces SyscallInfo.data (10 * 8 * calls.length + 8) calls)[i]? = some (call, place) := by
    have hMap := hCall
    rw [← withPlaces_map (10 * 8 * calls.length + 8) calls, List.getElem?_map,
      Option.map_eq_some_iff] at hMap
    obtain ⟨⟨info, place⟩, hEntry, rfl⟩ := hMap
    exact ⟨place, hEntry⟩
  obtain ⟨hBase, after, hAfter⟩ := withPlaces_drop hPlace
  have hData : (saveSysInfo1 calls).drop place = call.data ++ after := by
    rw [← hAfter, ← saveSysInfo1_drop_data, List.drop_drop, Nat.add_sub_cancel' hBase]
  have hCallFits := hFits call (List.mem_of_getElem? hCall)
  -- the words of the record fit, the place because the data of all calls together do
  have hStart : call.data.length ≠ 0 → place < 2 ^ 64 := by
    intro hSome
    have hLength := congrArg List.length hAfter
    have hLe := data_length_le hFits
    rw [List.length_drop, List.length_append] at hLength
    omega
  have hOffset : (if call.data.length = 0 then invalidAddr else place) < 2 ^ 64 := by
    split
    · decide
    · next hSome => exact hStart hSome
  have hFlag : (if call.hasret then 1 else 0) < 2 ^ 64 := by split <;> decide
  have hRecord := drop_flatMap oldRecord_length (saveSysInfo1_drop_records calls) hPlace
  have hWord : ∀ {k n : Nat}, [call.pc, call.num, call.params.getD 0 0, call.params.getD 1 0,
      call.params.getD 2 0, if call.hasret then 1 else 0, call.ret, call.bufaddr,
      if call.data.length = 0 then invalidAddr else place, call.data.length][k]? = some n →
        n < 2 ^ 64 →
      wordAt 8 (saveSysInfo1 calls) (8 + i * 80 + k * 8) = n := fun h hn =>
    wordAt_words hRecord h (by omega)
  have hNum := hCallFits.num
  have hSize := hCallFits.data
  constructor
  · exact @hWord 0 _ rfl hCallFits.pc
  · exact @hWord 1 _ rfl (by omega)
  · exact @hWord 2 _ rfl hCallFits.p0
  · exact @hWord 5 _ rfl hFlag
  · exact @hWord 6 _ rfl hCallFits.ret
  · exact @hWord 7 _ rfl hCallFits.bufaddr
  · exact @hWord 9 _ rfl (by omega)
  · intro hSome
    have hAt : (sysinfoAt (saveSysInfo1 calls) i).data_offset = place :=
      (@hWord 8 _ rfl hOffset).trans (if_neg hSome)
    rw [dataOf, hAt, hData, List.take_left]

/-- The rewritten trace. For every list of calls whose fields fit their variables, `process`
makes of the old section a new one with the same number of calls, in which the record that
an index selects is seen by the loader as the old record with that number. -/
theorem process_preserves
    (hSmall : (process calls.length (saveSysInfo1 calls)).length < 2 ^ 32 - 1) :
    readCkptsyscall (saveSysInfo1 calls) = process calls.length (saveSysInfo1 calls) ∧
    wordAt 8 (process calls.length (saveSysInfo1 calls)) 0 = calls.length ∧
    ∀ i < calls.length,
      callKeyAt (process calls.length (saveSysInfo1 calls)) (8 + 4 * calls.length +
          40 * wordAt 4 (process calls.length (saveSysInfo1 calls)) (8 + 4 * i)) =
        (sysinfoAt (saveSysInfo1 calls) i).key (saveSysInfo1 calls) := by
  have hCount : calls.length < 2 ^ 30 := by
    have hIdxs : (sysIdxs (saveSysInfo1 calls) calls.length).length = calls.length := by
      rw [sysIdxs, List.length_map, List.length_range]
    rw [process, List.length_append, List.length_append,
      length_flatMap_of_width (wordBytes_length 4), hIdxs] at hSmall
    omega
  have hHolds := fun i hi => @sysinfoAt_saved calls hFits hCount i hi
  rw [process_eq hHolds] at hSmall ⊢
  refine ⟨?_, saveSysInfo_total (by omega), ?_⟩
  · have hTotal : wordAt 8 (saveSysInfo1 calls) 0 = calls.length :=
      wordAt_of_drop (List.drop_zero ..) (by omega)
    rw [readCkptsyscall, hTotal, process_eq hHolds]
  · intro i hi
    obtain ⟨idx, stored, hIdx, hStored, hKey⟩ := storedCalls_sysIdxs calls hi
    have hLt := sysIdxs_lt hIdx
    have hLe := storedCalls_length_le calls
    rw [saveSysInfo_idx hIdx (by omega), callKeyAt_saved hFits hSmall hStored, hKey,
      (hHolds i hi).key]

end Saved

def rewriteCalls : List SyscallInfo :=
  let read : SyscallInfo :=
    { pc := 0x10080, num := 63, ret := 2, hasret := true, bufaddr := 0x2000, data := [7, 8],
      params := [3, 0x2000, 2] }
  [read, { pc := 0x10090, num := 57, ret := 0, hasret := true, params := [3, 0, 0] }, read]

theorem process_preserves_read :
    callKeyAt (process 3 (saveSysInfo1 rewriteCalls)) (8 + 4 * 3 +
        40 * wordAt 4 (process 3 (saveSysInfo1 rewriteCalls)) (8 + 4 * 2)) =
      (sysinfoAt (saveSysInfo1 rewriteCalls) 2).key (saveSysInfo1 rewriteCalls) := by
  have hFits : ∀ info ∈ rewriteCalls, info.Fits := by
    intro info hInfo
    simp only [rewriteCalls, List.mem_cons, List.not_mem_nil, or_false] at hInfo
    rcases hInfo with rfl | rfl | rfl <;> constructor <;> decide
  exact (process_preserves hFits (by decide +kernel)).2.2 2 (by decide)

end RewriteSysInfo

end RiscvCkpt
