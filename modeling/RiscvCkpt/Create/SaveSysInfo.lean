import RiscvCkpt.Base.ByteCodec
import RiscvCkpt.Create.CkptInfo

/-! The system-call section of a checkpoint file. Equal calls are stored once:
the section holds, for every call, the index of its record, then the records
without output data, the records with output data, and the data. -/
namespace RiscvCkpt

open ByteCodec

/-- `isSameSyscall`. Output data are compared only if the first call has some. -/
def isSameSyscall (info1 info2 : SyscallInfo) : Bool :=
  if info1.pc ≠ info2.pc then false
  else if info1.num ≠ info2.num then false
  else if info1.hasret ≠ info2.hasret then false
  else if info1.ret ≠ info2.ret then false
  else if info1.params.getD 0 0 ≠ info2.params.getD 0 0 then false
  else if info1.data.length = 0 then true
  else if info1.data.length ≠ info2.data.length then false
  else if info1.bufaddr ≠ info2.bufaddr then false
  else info1.data = info2.data

/-- The calls kept so far, by their position in the recorded list, and the
two prefilters `prepc` and `prenum`. -/
structure Pool where
  prepc : Finset Nat
  prenum : Finset Nat
  newinfos : List Nat

def Pool.empty : Pool := ⟨∅, ∅, []⟩

def callAt (sysinfos : List SyscallInfo) (idx : Nat) : SyscallInfo := sysinfos.getD idx {}

/-- `dectect_Sysinfos`: the record that the `idx`-th call shares, which is a
new one unless both prefilters hit and the scan finds an equal call. -/
def dectectSysinfos (sysinfos : List SyscallInfo) (idx : Nat) (pool : Pool) : Nat × Pool :=
  let info := callAt sysinfos idx
  let prepc := insert info.pc pool.prepc
  let prenum := insert (info.num % 2 ^ 32) pool.prenum
  if info.pc ∉ pool.prepc ∨ info.num % 2 ^ 32 ∉ pool.prenum then
    (pool.newinfos.length, ⟨prepc, prenum, pool.newinfos ++ [idx]⟩)
  else
    let c := pool.newinfos.findIdx fun kept => isSameSyscall info (callAt sysinfos kept)
    if c = pool.newinfos.length then
      (pool.newinfos.length, ⟨prepc, prenum, pool.newinfos ++ [idx]⟩)
    else (c, ⟨prepc, prenum, pool.newinfos⟩)

/-- The state of the first loop of `saveSysInfo`: the indices so far, the pool
of calls without data and the pool of calls with data. -/
structure Dedup where
  sysIdxs : List Nat
  newsysinfos : Pool
  newsysinfos1 : Pool

def dedupStep (sysinfos : List SyscallInfo) (state : Dedup) (i : Nat) : Dedup :=
  if (callAt sysinfos i).data.length ≠ 0 then
    let (res, pool) := dectectSysinfos sysinfos i state.newsysinfos1
    { state with sysIdxs := state.sysIdxs ++ [res], newsysinfos1 := pool }
  else
    let (res, pool) := dectectSysinfos sysinfos i state.newsysinfos
    { state with sysIdxs := state.sysIdxs ++ [res], newsysinfos := pool }

def dedup (sysinfos : List SyscallInfo) : Dedup :=
  (List.range sysinfos.length).foldl (dedupStep sysinfos) ⟨[], Pool.empty, Pool.empty⟩

/-- The second loop: indices of calls with data move behind the other pool. -/
def sysIdxs (sysinfos : List SyscallInfo) : List Nat :=
  let state := dedup sysinfos
  (List.range sysinfos.length).map fun i =>
    if (callAt sysinfos i).data.length ≠ 0 then
      state.sysIdxs.getD i 0 + state.newsysinfos.newinfos.length
    else state.sysIdxs.getD i 0

/-- The five words of a record. The call number shares a word with the data
size, the result flag with the place of the data. -/
def sysRecord (info : SyscallInfo) (dataAddr : Nat) : List UInt8 :=
  wordBytes 8 info.pc ++ (wordBytes 8 (info.num * 2 ^ 32 + info.data.length) ++
    (wordBytes 8 (info.params.getD 0 0) ++ (wordBytes 8 info.ret ++
      wordBytes 8 (dataAddr * 2 ^ 8 + if info.hasret then 1 else 0))))

/-- `invalid_addr`: the place of the data of a call without data. -/
def invalidAddr : Nat := 0xffffffff

/-- What is stored behind the records for a call with data. -/
def sysData (info : SyscallInfo) : List UInt8 := wordBytes 8 info.bufaddr ++ info.data

/-- The calls with data, each with the running `data_addr`. -/
def withDataAddr : Nat → List SyscallInfo → List (SyscallInfo × Nat)
  | _, [] => []
  | dataAddr, info :: rest =>
      (info, dataAddr) :: withDataAddr (dataAddr + info.data.length + 8) rest

def Pool.calls (sysinfos : List SyscallInfo) (pool : Pool) : List SyscallInfo :=
  pool.newinfos.map (callAt sysinfos)

/-- `CkptInfo::saveSysInfo`: the bytes it writes. -/
def saveSysInfo (sysinfos : List SyscallInfo) : List UInt8 :=
  let state := dedup sysinfos
  let plain := state.newsysinfos.calls sysinfos
  let withData := state.newsysinfos1.calls sysinfos
  let idxSize := 4 * sysinfos.length
  let infoSize := 5 * 8 * (plain.length + withData.length)
  let dataAddr := idxSize + infoSize + 8
  wordBytes 8 sysinfos.length ++ ((sysIdxs sysinfos).flatMap (wordBytes 4) ++
    (plain.flatMap (fun info => sysRecord info invalidAddr) ++
      ((withDataAddr dataAddr withData).flatMap (fun entry => sysRecord entry.1 entry.2) ++
        withData.flatMap sysData)))

/-- What a replay can tell about a call. The buffer address of a call without
output data is not stored. -/
structure CallKey where
  pc : Nat
  num : Nat
  hasret : Bool
  ret : Nat
  p0 : Nat
  bufaddr : Nat
  data : List UInt8
  deriving DecidableEq, Repr

def SyscallInfo.key (info : SyscallInfo) : CallKey :=
  { pc := info.pc, num := info.num, hasret := info.hasret, ret := info.ret,
    p0 := info.params.getD 0 0, bufaddr := if info.data.length = 0 then 0 else info.bufaddr,
    data := info.data }

theorem mismatch_iff {p : Prop} [Decidable p] {rest : Bool} :
    (if ¬ p then false else rest) = true ↔ p ∧ rest = true := by
  by_cases h : p <;> simp [h]

/-- Among calls of one pool, the comparison decides equality of keys. -/
theorem isSameSyscall_iff {info1 info2 : SyscallInfo}
    (hKind : info1.data.length = 0 ↔ info2.data.length = 0) :
    isSameSyscall info1 info2 = true ↔ info1.key = info2.key := by
  simp only [isSameSyscall, ne_eq, mismatch_iff, SyscallInfo.key, CallKey.mk.injEq]
  by_cases hData : info1.data.length = 0
  · have hData1 := List.length_eq_zero_iff.mp hData
    have hData2 := List.length_eq_zero_iff.mp (hKind.mp hData)
    simp only [hData1, hData2, List.length_nil, if_true, and_true]
  · have hData2 : info2.data.length ≠ 0 := fun h => hData (hKind.mpr h)
    -- equal data have equal lengths, which the source compares first
    have hLength : info1.data.length = info2.data.length ∧ info1.bufaddr = info2.bufaddr ∧
        info1.data = info2.data ↔ info1.bufaddr = info2.bufaddr ∧ info1.data = info2.data :=
      ⟨fun h => h.2, fun h => ⟨congrArg List.length h.2, h⟩⟩
    simp only [if_neg hData, if_neg hData2, mismatch_iff, decide_eq_true_eq, hLength]

/-- What the detection keeps true of a pool that takes the calls of one kind. -/
structure PoolOk (sysinfos : List SyscallInfo) (kind : SyscallInfo → Prop) (pool : Pool) :
    Prop where
  prefiltered : ∀ kept ∈ pool.newinfos,
    (callAt sysinfos kept).pc ∈ pool.prepc ∧ (callAt sysinfos kept).num % 2 ^ 32 ∈ pool.prenum
  distinct : pool.newinfos.Pairwise fun x y => (callAt sysinfos x).key ≠ (callAt sysinfos y).key
  pure : ∀ kept ∈ pool.newinfos, kind (callAt sysinfos kept)

/-- One detection: the pool stays sound and grows at most by the new call, and
the returned index designates a kept call that is equal to it. -/
theorem dectectSysinfos_spec {sysinfos : List SyscallInfo} {kind : SyscallInfo → Prop} {pool : Pool}
    {idx : Nat} (hPool : PoolOk sysinfos kind pool) (hKind : kind (callAt sysinfos idx))
    (hSame : ∀ x y, kind x → kind y → (isSameSyscall x y = true ↔ x.key = y.key)) :
    PoolOk sysinfos kind (dectectSysinfos sysinfos idx pool).2 ∧
    (∃ kept, (dectectSysinfos sysinfos idx
      pool).2.newinfos[(dectectSysinfos sysinfos idx pool).1]? =
      some kept ∧ (callAt sysinfos kept).key = (callAt sysinfos idx).key) ∧
    ((dectectSysinfos sysinfos idx pool).2.newinfos = pool.newinfos ∨
      (dectectSysinfos sysinfos idx pool).2.newinfos = pool.newinfos ++ [idx] ∧
        (dectectSysinfos sysinfos idx pool).1 = pool.newinfos.length) := by
  -- a call that equals no kept one may be appended
  have hAppend : (∀ kept ∈ pool.newinfos, (callAt sysinfos kept).key ≠ (callAt sysinfos idx).key) →
      PoolOk sysinfos kind ⟨insert (callAt sysinfos idx).pc pool.prepc,
        insert ((callAt sysinfos idx).num % 2 ^ 32) pool.prenum, pool.newinfos ++ [idx]⟩ := by
    intro hNew
    refine ⟨?_, ?_, ?_⟩
    · refine List.forall_mem_concat.mpr
        ⟨fun kept hk => ?_, Finset.mem_insert_self .., Finset.mem_insert_self ..⟩
      have h := hPool.prefiltered kept hk
      exact ⟨Finset.mem_insert_of_mem h.1, Finset.mem_insert_of_mem h.2⟩
    · exact List.pairwise_concat.mpr ⟨hPool.distinct, hNew⟩
    · exact List.forall_mem_concat.mpr ⟨hPool.pure, hKind⟩
  by_cases hFilter : (callAt sysinfos idx).pc ∉ pool.prepc ∨
      (callAt sysinfos idx).num % 2 ^ 32 ∉ pool.prenum
  · simp only [dectectSysinfos, if_pos hFilter]
    refine ⟨hAppend fun kept hk hEq => ?_, ⟨idx, by simp, rfl⟩, Or.inr (by simp)⟩
    have hIn := hPool.prefiltered kept hk
    have hPc : (callAt sysinfos kept).pc = (callAt sysinfos idx).pc := congrArg CallKey.pc hEq
    have hNum : (callAt sysinfos kept).num = (callAt sysinfos idx).num := congrArg CallKey.num hEq
    rw [hPc, hNum] at hIn
    exact hFilter.elim (fun h => h hIn.1) fun h => h hIn.2
  · simp only [dectectSysinfos, if_neg hFilter]
    by_cases hScan : pool.newinfos.findIdx
        (fun kept => isSameSyscall (callAt sysinfos idx) (callAt sysinfos kept)) =
          pool.newinfos.length
    · simp only [if_pos hScan]
      refine ⟨hAppend fun kept hk hEq => ?_, ⟨idx, by simp, rfl⟩, Or.inr (by simp)⟩
      have hNone := List.findIdx_eq_length.mp hScan kept hk
      have hYes := (hSame _ _ hKind (hPool.pure kept hk)).mpr hEq.symm
      simp [hYes] at hNone
    · simp only [if_neg hScan]
      have hLt : pool.newinfos.findIdx
          (fun kept => isSameSyscall (callAt sysinfos idx) (callAt sysinfos kept)) <
            pool.newinfos.length := lt_of_le_of_ne List.findIdx_le_length hScan
      refine ⟨⟨?_, hPool.distinct, hPool.pure⟩, ⟨_, List.getElem?_eq_getElem hLt, ?_⟩,
        Or.inl (by simp)⟩
      · intro kept hk
        have h := hPool.prefiltered kept hk
        exact ⟨Finset.mem_insert_of_mem h.1, Finset.mem_insert_of_mem h.2⟩
      · have hYes := List.findIdx_getElem (w := hLt)
        exact ((hSame _ _ hKind (hPool.pure _ (List.getElem_mem hLt))).mp hYes).symm

/-- After `n` calls, the indices of the calls of one kind designate equal kept
calls, and every kept call is designated. -/
def Serves (sysinfos : List SyscallInfo) (kind : SyscallInfo → Prop) (n : Nat)
    (idxs newinfos : List Nat) :
    Prop :=
  (∀ i < n, kind (callAt sysinfos i) → ∃ kept, newinfos[idxs.getD i 0]? = some kept ∧
    (callAt sysinfos kept).key = (callAt sysinfos i).key) ∧
  ∀ c < newinfos.length, ∃ i < n, kind (callAt sysinfos i) ∧ idxs.getD i 0 = c

section Serves

variable {sysinfos : List SyscallInfo} {kind : SyscallInfo → Prop} {n : Nat}
  {idxs newinfos : List Nat}

theorem getD_snoc_old {i res : Nat} (hLength : idxs.length = n) (h : i < n) :
    (idxs ++ [res]).getD i 0 = idxs.getD i 0 := by
  simp only [List.getD_eq_getElem?_getD]
  rw [List.getElem?_append_left (by omega)]

theorem getD_snoc_new {res : Nat} (hLength : idxs.length = n) :
    (idxs ++ [res]).getD n 0 = res := by
  simp [List.getD_eq_getElem?_getD, ← hLength]

/-- A call of the other kind does not concern the pool. -/
theorem Serves.skip (h : Serves sysinfos kind n idxs newinfos) (hLength : idxs.length = n)
    (hKind : ¬ kind (callAt sysinfos n)) (res : Nat) :
    Serves sysinfos kind (n + 1) (idxs ++ [res]) newinfos := by
  refine ⟨fun i hi hk => ?_, fun c hc => ?_⟩
  · have hOld : i < n := by
      by_contra hGe
      obtain rfl : i = n := by omega
      exact hKind hk
    rw [getD_snoc_old hLength hOld]
    exact h.1 i hOld hk
  · obtain ⟨i, hi, hk, hIdx⟩ := h.2 c hc
    exact ⟨i, by omega, hk, (getD_snoc_old hLength hi).trans hIdx⟩

/-- A call of the pool's kind gets the index of an equal kept call. -/
theorem Serves.add {res : Nat} {newinfos' : List Nat} (h : Serves sysinfos kind n idxs newinfos)
    (hLength : idxs.length = n) (hKind : kind (callAt sysinfos n))
    (hFound : ∃ kept, newinfos'[res]? = some kept ∧
      (callAt sysinfos kept).key = (callAt sysinfos n).key)
    (hGrow : newinfos' = newinfos ∨ newinfos' = newinfos ++ [n] ∧ res = newinfos.length) :
    Serves sysinfos kind (n + 1) (idxs ++ [res]) newinfos' := by
  refine ⟨fun i hi hk => ?_, fun c hc => ?_⟩
  · by_cases hOld : i < n
    · rw [getD_snoc_old hLength hOld]
      obtain ⟨kept, hKept, hKey⟩ := h.1 i hOld hk
      refine ⟨kept, ?_, hKey⟩
      rcases hGrow with rfl | ⟨rfl, -⟩
      · exact hKept
      · rw [List.getElem?_append_left (List.getElem?_eq_some_iff.mp hKept).1]
        exact hKept
    · obtain rfl : i = n := by omega
      rw [getD_snoc_new hLength]
      exact hFound
  · by_cases hOld : c < newinfos.length
    · obtain ⟨i, hi, hk, hIdx⟩ := h.2 c hOld
      exact ⟨i, by omega, hk, (getD_snoc_old hLength hi).trans hIdx⟩
    · rcases hGrow with rfl | ⟨rfl, rfl⟩
      · exact absurd hc hOld
      · rw [List.length_append, List.length_singleton] at hc
        exact ⟨n, by omega, hKind, (getD_snoc_new hLength).trans (by omega)⟩

end Serves

def NoData (info : SyscallInfo) : Prop := info.data.length = 0

def HasData (info : SyscallInfo) : Prop := info.data.length ≠ 0

/-- What the first loop of `saveSysInfo` has established after `n` calls. -/
structure DedupOk (sysinfos : List SyscallInfo) (n : Nat) (state : Dedup) : Prop where
  length : state.sysIdxs.length = n
  plain : PoolOk sysinfos NoData state.newsysinfos
  withData : PoolOk sysinfos HasData state.newsysinfos1
  plainServes : Serves sysinfos NoData n state.sysIdxs state.newsysinfos.newinfos
  dataServes : Serves sysinfos HasData n state.sysIdxs state.newsysinfos1.newinfos

/-- One round of the first loop of `saveSysInfo`. -/
theorem DedupOk.step {sysinfos : List SyscallInfo} {n : Nat} {state : Dedup}
    (h : DedupOk sysinfos n state) : DedupOk sysinfos (n + 1) (dedupStep sysinfos state n) := by
  by_cases hData : (callAt sysinfos n).data.length ≠ 0
  · obtain ⟨hPool, hFound, hGrow⟩ := dectectSysinfos_spec h.withData hData fun x y hx hy =>
      isSameSyscall_iff (iff_of_false hx hy)
    simp only [dedupStep, if_pos hData]
    exact ⟨by simp [h.length], h.plain, hPool, h.plainServes.skip h.length hData _,
      h.dataServes.add h.length hData hFound hGrow⟩
  · have hNone : NoData (callAt sysinfos n) := not_not.mp hData
    obtain ⟨hPool, hFound, hGrow⟩ := dectectSysinfos_spec h.plain hNone fun x y hx hy =>
      isSameSyscall_iff (iff_of_true hx hy)
    simp only [dedupStep, if_neg hData]
    exact ⟨by simp [h.length], hPool, h.withData, h.plainServes.add h.length hNone hFound hGrow,
      h.dataServes.skip h.length hData _⟩

/-- The first loop gives every call an index that finds its record. -/
theorem dedup_ok (sysinfos : List SyscallInfo) :
    DedupOk sysinfos sysinfos.length (dedup sysinfos) := by
  have hRun : ∀ n, DedupOk sysinfos n
      ((List.range n).foldl (dedupStep sysinfos) ⟨[], Pool.empty, Pool.empty⟩) := by
    intro n
    induction n with
    | zero =>
        have hEmpty : ∀ kind, PoolOk sysinfos kind Pool.empty := fun kind =>
          ⟨by simp [Pool.empty], by simp [Pool.empty], by simp [Pool.empty]⟩
        have hServes : ∀ kind, Serves sysinfos kind 0 [] Pool.empty.newinfos := fun kind =>
          ⟨by simp, by simp [Pool.empty]⟩
        exact ⟨rfl, hEmpty _, hEmpty _, hServes _, hServes _⟩
    | succ n ih =>
        rw [List.range_succ, List.foldl_append]
        exact ih.step
  exact hRun sysinfos.length

def storedCalls (sysinfos : List SyscallInfo) : List SyscallInfo :=
  (dedup sysinfos).newsysinfos.calls sysinfos ++ (dedup sysinfos).newsysinfos1.calls sysinfos

theorem sysIdxs_length (sysinfos : List SyscallInfo) :
    (sysIdxs sysinfos).length = sysinfos.length := by
  simp [sysIdxs]

/-- The index of a call with data counts from behind the pool of those without. -/
theorem sysIdxs_getElem? (sysinfos : List SyscallInfo) {i : Nat} (h : i < sysinfos.length) :
    (sysIdxs sysinfos)[i]? = some (if (callAt sysinfos i).data.length ≠ 0 then
      (dedup sysinfos).sysIdxs.getD i 0 + (dedup sysinfos).newsysinfos.newinfos.length
    else (dedup sysinfos).sysIdxs.getD i 0) := by
  rw [sysIdxs, List.getElem?_map, List.getElem?_range h]
  rfl

/-- The index of a call designates a stored record that is equal to it. -/
theorem storedCalls_sysIdxs (sysinfos : List SyscallInfo) {i : Nat} (h : i < sysinfos.length) :
    ∃ idx stored, (sysIdxs sysinfos)[i]? = some idx ∧ (storedCalls sysinfos)[idx]? = some stored ∧
      stored.key = (callAt sysinfos i).key := by
  have hOk := dedup_ok sysinfos
  by_cases hData : (callAt sysinfos i).data.length ≠ 0
  · obtain ⟨kept, hKept, hKey⟩ := hOk.dataServes.1 i h hData
    refine ⟨_, callAt sysinfos kept, sysIdxs_getElem? sysinfos h, ?_, hKey⟩
    rw [if_pos hData, storedCalls, List.getElem?_append_right (by simp [Pool.calls])]
    simp only [Pool.calls, List.length_map, Nat.add_sub_cancel, List.getElem?_map, hKept,
      Option.map_some]
  · obtain ⟨kept, hKept, hKey⟩ := hOk.plainServes.1 i h (not_not.mp hData)
    refine ⟨_, callAt sysinfos kept, sysIdxs_getElem? sysinfos h, ?_, hKey⟩
    have hLt := (List.getElem?_eq_some_iff.mp hKept).1
    rw [if_neg hData, storedCalls, List.getElem?_append_left (by rwa [Pool.calls, List.length_map])]
    simp only [Pool.calls, List.getElem?_map, hKept, Option.map_some]

/-- Every stored record is designated by some call. -/
theorem sysIdxs_surjective (sysinfos : List SyscallInfo) {c : Nat}
    (h : c < (storedCalls sysinfos).length) : c ∈ sysIdxs sysinfos := by
  have hOk := dedup_ok sysinfos
  simp only [storedCalls, Pool.calls, List.length_append, List.length_map] at h
  simp only [sysIdxs, List.mem_map, List.mem_range]
  by_cases hPlain : c < (dedup sysinfos).newsysinfos.newinfos.length
  · obtain ⟨i, hi, hKind, hIdx⟩ := hOk.plainServes.2 c hPlain
    exact ⟨i, hi, (if_neg (not_not.mpr hKind)).trans hIdx⟩
  · obtain ⟨i, hi, hKind, hIdx⟩ := hOk.dataServes.2
      (c - (dedup sysinfos).newsysinfos.newinfos.length) (by omega)
    exact ⟨i, hi, (if_pos hKind).trans (by omega)⟩

/-- No two stored records are equal: inside a pool by detection, across the
pools because only one of them has data. -/
theorem storedCalls_distinct (sysinfos : List SyscallInfo) :
    (storedCalls sysinfos).Pairwise fun x y => x.key ≠ y.key := by
  have hOk := dedup_ok sysinfos
  refine List.pairwise_append.mpr ⟨List.pairwise_map.mpr hOk.plain.distinct,
    List.pairwise_map.mpr hOk.withData.distinct, ?_⟩
  intro x hx y hy hEq
  obtain ⟨i, hi, rfl⟩ := List.mem_map.mp hx
  obtain ⟨j, hj, rfl⟩ := List.mem_map.mp hy
  have hData : (callAt sysinfos i).data = (callAt sysinfos j).data := congrArg CallKey.data hEq
  have hNone := hOk.plain.pure i hi
  have hSome := hOk.withData.pure j hj
  simp only [NoData, HasData, hData] at hNone hSome
  exact hSome hNone

@[simp] theorem sysRecord_length (info : SyscallInfo) (dataAddr : Nat) :
    (sysRecord info dataAddr).length = 40 := by
  simp [sysRecord]

theorem entryRecord_length (entry : SyscallInfo × Nat) : (sysRecord entry.1 entry.2).length = 40 :=
  sysRecord_length entry.1 entry.2

/-- The stored records with the data place that each carries. -/
def storedPlaces (sysinfos : List SyscallInfo) : List (SyscallInfo × Nat) :=
  let plain := (dedup sysinfos).newsysinfos.calls sysinfos
  let withData := (dedup sysinfos).newsysinfos1.calls sysinfos
  plain.map (fun info => (info, invalidAddr)) ++
    withDataAddr (4 * sysinfos.length + 5 * 8 * (plain.length + withData.length) + 8) withData

def storedData (sysinfos : List SyscallInfo) : List UInt8 :=
  ((dedup sysinfos).newsysinfos1.calls sysinfos).flatMap sysData

/-- The running `data_addr` is the place where the data are written. -/
theorem withDataAddr_eq (base : Nat) (infos : List SyscallInfo) :
    withDataAddr base infos = withPlaces sysData base infos := by
  induction infos generalizing base with
  | nil => rfl
  | cons info rest ih =>
      have hLength : base + (sysData info).length = base + info.data.length + 8 := by
        rw [sysData, List.length_append, wordBytes_length]
        omega
      rw [withDataAddr, withPlaces, hLength, ih]

theorem withDataAddr_map (base : Nat) (infos : List SyscallInfo) :
    (withDataAddr base infos).map Prod.fst = infos := by
  rw [withDataAddr_eq, withPlaces_map]

theorem storedPlaces_map (sysinfos : List SyscallInfo) :
    (storedPlaces sysinfos).map Prod.fst = storedCalls sysinfos := by
  simp [storedPlaces, storedCalls, withDataAddr_map, Function.comp_def]

/-- The section as four consecutive parts. -/
theorem saveSysInfo_parts (sysinfos : List SyscallInfo) :
    saveSysInfo sysinfos = wordBytes 8 sysinfos.length ++
      ((sysIdxs sysinfos).flatMap (wordBytes 4) ++
      ((storedPlaces sysinfos).flatMap (fun entry => sysRecord entry.1 entry.2) ++
        storedData sysinfos)) := by
  simp [saveSysInfo, storedPlaces, storedData, List.flatMap_map]

section Layout

variable (sysinfos : List SyscallInfo)

/-- Behind the number of calls stand the indices. -/
theorem saveSysInfo_drop_idxs :
    (saveSysInfo sysinfos).drop 8 = (sysIdxs sysinfos).flatMap (wordBytes 4) ++
      ((storedPlaces sysinfos).flatMap (fun entry => sysRecord entry.1 entry.2) ++
        storedData sysinfos) := by
  rw [saveSysInfo_parts, List.drop_left' (wordBytes_length 8 _)]

/-- Behind the indices stand the records. -/
theorem saveSysInfo_drop_records :
    (saveSysInfo sysinfos).drop (8 + 4 * sysinfos.length) =
      (storedPlaces sysinfos).flatMap (fun entry => sysRecord entry.1 entry.2) ++
        storedData sysinfos := by
  refine drop_past (saveSysInfo_drop_idxs sysinfos) ?_
  rw [length_flatMap_of_width (wordBytes_length 4), sysIdxs_length, Nat.mul_comm]

/-- Behind the records stand the data. -/
theorem saveSysInfo_drop_data :
    (saveSysInfo sysinfos).drop (8 + 4 * sysinfos.length + 40 * (storedPlaces sysinfos).length) =
      storedData sysinfos := by
  refine drop_past (saveSysInfo_drop_records sysinfos) ?_
  rw [length_flatMap_of_width entryRecord_length, Nat.mul_comm]

theorem saveSysInfo_length : (saveSysInfo sysinfos).length =
    8 + 4 * sysinfos.length + 40 * (storedPlaces sysinfos).length +
      (storedData sysinfos).length := by
  rw [saveSysInfo_parts, List.length_append, List.length_append, List.length_append,
    wordBytes_length, length_flatMap_of_width (wordBytes_length 4), sysIdxs_length,
    length_flatMap_of_width entryRecord_length]
  ring

variable {sysinfos}

theorem saveSysInfo_total (h : sysinfos.length < 2 ^ 64) :
    wordAt 8 (saveSysInfo sysinfos) 0 = sysinfos.length := by
  have hDrop : (saveSysInfo sysinfos).drop 0 = _ := saveSysInfo_parts sysinfos
  exact wordAt_of_drop hDrop (by omega)

/-- The index of a call is read back. -/
theorem saveSysInfo_idx {i idx : Nat} (h : (sysIdxs sysinfos)[i]? = some idx)
    (hIdx : idx < 2 ^ 32) :
    wordAt 4 (saveSysInfo sysinfos) (8 + 4 * i) = idx := by
  have hDrop := drop_flatMap (wordBytes_length 4) (saveSysInfo_drop_idxs sysinfos) h
  rw [Nat.mul_comm] at hDrop
  exact wordAt_of_drop hDrop (by omega)

/-- The record of a stored call stands where its index says. -/
theorem saveSysInfo_record {idx place : Nat} {info : SyscallInfo}
    (h : (storedPlaces sysinfos)[idx]? = some (info, place)) :
    ∃ after, (saveSysInfo sysinfos).drop (8 + 4 * sysinfos.length + 40 * idx) =
      sysRecord info place ++ after := by
  have hDrop := drop_flatMap entryRecord_length (saveSysInfo_drop_records sysinfos) h
  rw [Nat.mul_comm idx] at hDrop
  exact ⟨_, hDrop⟩

/-- A stored record either has no data and says so, or its data stand where it says. -/
theorem saveSysInfo_data {idx place : Nat} {info : SyscallInfo}
    (h : (storedPlaces sysinfos)[idx]? = some (info, place)) :
    info.data.length = 0 ∧ place = invalidAddr ∨
    info.data.length ≠ 0 ∧ ∃ after, (saveSysInfo sysinfos).drop place = sysData info ++ after := by
  have hOk := dedup_ok sysinfos
  have hCount : (storedPlaces sysinfos).length =
      ((dedup sysinfos).newsysinfos.calls sysinfos).length +
        ((dedup sysinfos).newsysinfos1.calls sysinfos).length := by
    rw [← List.length_map Prod.fst, storedPlaces_map, storedCalls, List.length_append]
  rcases List.mem_append.mp (List.mem_of_getElem? h) with hPlain | hData
  · obtain ⟨kept, hKept, hEq⟩ := List.mem_map.mp hPlain
    obtain ⟨i, hi, rfl⟩ := List.mem_map.mp hKept
    obtain ⟨rfl, rfl⟩ := Prod.mk.inj hEq
    exact Or.inl ⟨hOk.plain.pure i hi, rfl⟩
  · have hMem : info ∈ (dedup sysinfos).newsysinfos1.calls sysinfos := by
      rw [← withDataAddr_map _ ((dedup sysinfos).newsysinfos1.calls sysinfos)]
      exact List.mem_map_of_mem hData
    obtain ⟨i, hi, rfl⟩ := List.mem_map.mp hMem
    obtain ⟨j, hj⟩ := List.getElem?_of_mem hData
    rw [withDataAddr_eq] at hj
    obtain ⟨hLe, after, hDrop⟩ := withPlaces_drop hj
    refine Or.inr ⟨hOk.withData.pure i hi, after, ?_⟩
    have hAt := saveSysInfo_drop_data sysinfos
    rw [← hDrop, ← storedData, ← hAt, List.drop_drop]
    congr 1
    omega

end Layout

end RiscvCkpt
