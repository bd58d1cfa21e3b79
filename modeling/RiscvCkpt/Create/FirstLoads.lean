import Mathlib.Data.List.Sort
import RiscvCkpt.Base.ByteCodec
import RiscvCkpt.Base.MachineInt
import RiscvCkpt.Create.Bookkeeping

/-! From recorded loads to the saved first loads: the first bytes are taken out
of the load records, sorted by address and packed into chunks of eight bytes. -/
namespace RiscvCkpt

open ByteCodec ByteMemory MachineInt

/-- Write the eight bytes of every chunk, in order. -/
def writeChunks (m : Memory) (chunks : List FirstLoadInfo) : Memory :=
  chunks.foldl (fun m chunk => store m chunk.addr chunk.data) m

namespace CkptInfo

/-- The inner loop of `getFistloads`: the mask is consumed from its low end. -/
def unpackFirst (addr : Nat) (data : List UInt8) : Nat → Nat → Nat → List (Nat × UInt8)
  | _, _, 0 => []
  | isFirst, j, n + 1 =>
      let rest := unpackFirst addr data (isFirst / 2) (j + 1) n
      if isFirst % 2 = 1 then (addr + j, data.getD j 0) :: rest else rest

/-- `temploads` of `getFistloads`. Its entries are loads of one byte, of which
only the address and `data[0]` are set. -/
def temploads (loads : List LoadInfo) : List (Nat × UInt8) :=
  loads.flatMap fun info => unpackFirst info.addr info.data info.first 0 info.size

/-- A chunk that holds one byte and is zero behind it. -/
def freshChunk (byte : Nat × UInt8) : FirstLoadInfo :=
  { addr := byte.1, data := (List.replicate 8 0).set 0 byte.2 }

/-- One round of the loop of `combine_loads`, with the chunk under
construction and the chunks already pushed. -/
def combineStep (state : FirstLoadInfo × List FirstLoadInfo) (byte : Nat × UInt8) :
    FirstLoadInfo × List FirstLoadInfo :=
  let info := state.1
  let len := byte.1 - info.addr
  if len < 8 then ({ info with data := info.data.set len byte.2 }, state.2)
  else (freshChunk byte, if wordValue info.data ≠ 0 then state.2 ++ [info] else state.2)

def sortLoads (bytes : List (Nat × UInt8)) : List (Nat × UInt8) :=
  bytes.insertionSort fun x y => x.1 ≤ y.1

/-- `CkptInfo::combine_loads`. The number of bytes is held in an `int`. -/
def combineLoads (firstloads : List FirstLoadInfo) (temploads : List (Nat × UInt8)) :
    List FirstLoadInfo :=
  let size := int32 temploads.length
  if size = 0 then firstloads
  else
    match sortLoads temploads with
    | [] => firstloads
    | byte :: rest =>
        let last := (rest.take (size - 1).toNat).foldl combineStep (freshChunk byte, firstloads)
        last.2 ++ [last.1]

def getFistloads (info : CkptInfo) : CkptInfo :=
  { info with
    loads := []
    firstloads := combineLoads info.firstloads (temploads info.loads) }

private def maskFrom (exist : Nat → UInt8) (data : List UInt8) (j n : Nat) : Nat × List UInt8 :=
  (List.range' j n).foldr
    (fun i state =>
      let isFirst := state.1 * 2 % 256
      if exist i = 0 then (isFirst + 1, state.2.set i (data.getD i 0)) else (isFirst, state.2))
    (0, List.replicate 8 0)

private theorem maskFrom_succ (exist : Nat → UInt8) (data : List UInt8) (j n : Nat) :
    maskFrom exist data j (n + 1) =
      let rest := maskFrom exist data (j + 1) n
      if exist j = 0 then (rest.1 * 2 % 256 + 1, rest.2.set j (data.getD j 0))
      else (rest.1 * 2 % 256, rest.2) := rfl

private theorem maskFrom_lt (exist : Nat → UInt8) (data : List UInt8) (j n : Nat) (h : n ≤ 8) :
    (maskFrom exist data j n).1 < 2 ^ n := by
  induction n generalizing j with
  | zero => simp [maskFrom]
  | succ n ih =>
      have hRest := ih (j + 1) (by omega)
      rw [maskFrom_succ, Nat.pow_succ]
      by_cases hj : exist j = 0
      · simp only [hj, if_true]
        omega
      · simp only [hj, if_false]
        omega

private theorem maskFrom_length (exist : Nat → UInt8) (data : List UInt8) (j n : Nat) :
    (maskFrom exist data j n).2.length = 8 := by
  induction n generalizing j with
  | zero => simp [maskFrom]
  | succ n ih =>
      rw [maskFrom_succ]
      by_cases hj : exist j = 0
      · simp [hj, ih]
      · simp [hj, ih]

/-- A byte copied at one index is not overwritten at the lower indices. -/
private theorem maskFrom_getD (exist : Nat → UInt8) (data : List UInt8) (j n k : Nat)
    (hLow : j ≤ k) (hHigh : k < j + n) (hEight : k < 8) (hFirst : exist k = 0) :
    (maskFrom exist data j n).2.getD k 0 = data.getD k 0 := by
  induction n generalizing j with
  | zero => omega
  | succ n ih =>
      have hLength := maskFrom_length exist data (j + 1) n
      rw [maskFrom_succ]
      by_cases hk : k = j
      · subst hk
        simp [hFirst, hLength, hEight]
      · have hRest := ih (j + 1) (by omega) (by omega)
        by_cases hj : exist j = 0
        · simp only [hj, if_true, List.getD_eq_getElem?_getD,
            List.getElem?_set_ne (Ne.symm hk)] at hRest ⊢
          exact hRest
        · simpa only [hj, if_false] using hRest

/-- Unpacking a mask gives back the indices it was made from, in order. -/
private theorem unpackFirst_maskFrom (addr : Nat) (exist : Nat → UInt8) (data bytes : List UInt8)
    (j n : Nat) (hEight : j + n ≤ 8)
    (hBytes : ∀ k, j ≤ k → k < j + n → exist k = 0 → bytes.getD k 0 = data.getD k 0) :
    unpackFirst addr bytes (maskFrom exist data j n).1 j n =
      ((List.range' j n).filter fun i => exist i = 0).map fun i => (addr + i, data.getD i 0) := by
  induction n generalizing j with
  | zero => rfl
  | succ n ih =>
      have hLt := maskFrom_lt exist data (j + 1) n (by omega)
      have hPow : 2 ^ n ≤ 2 ^ 7 := Nat.pow_le_pow_right (by omega) (by omega)
      have hRest := ih (j + 1) (by omega) fun k h1 h2 => hBytes k (by omega) (by omega)
      by_cases hj : exist j = 0
      · have hMask : (maskFrom exist data j (n + 1)).1 =
            (maskFrom exist data (j + 1) n).1 * 2 % 256 + 1 := by
          simp [maskFrom_succ, hj]
        have hHalf : (maskFrom exist data j (n + 1)).1 / 2 = (maskFrom exist data (j + 1) n).1 := by
          omega
        rw [unpackFirst, hHalf, hRest, if_pos (by omega), List.range'_succ,
          List.filter_cons_of_pos (by simpa using hj), List.map_cons,
          hBytes j (by omega) (by omega) hj]
      · have hMask : (maskFrom exist data j (n + 1)).1 =
            (maskFrom exist data (j + 1) n).1 * 2 % 256 := by
          simp [maskFrom_succ, hj]
        have hHalf : (maskFrom exist data j (n + 1)).1 / 2 = (maskFrom exist data (j + 1) n).1 := by
          omega
        rw [unpackFirst, hHalf, hRest, if_neg (by omega), List.range'_succ,
          List.filter_cons_of_neg (by simpa using hj)]

/-- A recorded load contributes exactly the bytes whose `exist` entry is zero. -/
theorem temploads_addload (stack : Nat → UInt8) (info : CkptInfo) (addr : Nat)
    (data : List UInt8) (size : Nat) (hSize : size ≤ 8) :
    temploads (addload stack info addr data size).loads =
      temploads info.loads ++
        ((List.range size).filter
          fun i => (addAddrInfo info.preAccess addr size stack).2 i = 0).map
            fun i => (addr + i, data.getD i 0) := by
  have hMask : ∀ exist, firstMask exist data size = maskFrom exist data 0 size := by
    intro exist
    simp only [firstMask, maskFrom, List.range_eq_range']
  have hUnpack := fun exist => unpackFirst_maskFrom addr exist data (maskFrom exist data 0 size).2
    0 size (by omega) fun k _ hk hFirst =>
    maskFrom_getD exist data 0 size k (by omega) hk (by omega) hFirst
  rw [List.range_eq_range']
  by_cases hZero : (firstMask (addAddrInfo info.preAccess addr size stack).2 data size).1 = 0
  · have hNone : ∀ n j, unpackFirst addr (maskFrom (addAddrInfo info.preAccess addr size stack).2
        data 0 size).2 0 j n = [] := by
      intro n
      induction n with
      | zero => exact fun _ => rfl
      | succ n ih => exact fun j => by simp [unpackFirst, ih]
    rw [← hUnpack, ← hMask, hZero, hMask, hNone]
    simp [addload, hZero]
  · rw [← hUnpack, ← hMask]
    simp [addload, hZero, temploads]

/-- A byte that lies in no chunk keeps its value. -/
theorem writeChunks_outside {m : Memory} {chunks : List FirstLoadInfo} {b : Nat}
    (h : ∀ chunk ∈ chunks, b < chunk.addr ∨ chunk.addr + chunk.data.length ≤ b) :
    writeChunks m chunks b = m b := by
  induction chunks generalizing m with
  | nil => rfl
  | cons chunk rest ih =>
      have hRest := @ih (store m chunk.addr chunk.data) fun c hc => h c (List.mem_cons_of_mem _ hc)
      exact hRest.trans (store_outside (h chunk (List.mem_cons_self ..)))

theorem writeChunks_snoc (m : Memory) (chunks : List FirstLoadInfo) (chunk : FirstLoadInfo) :
    writeChunks m (chunks ++ [chunk]) = store (writeChunks m chunks) chunk.addr chunk.data := by
  simp [writeChunks]

theorem writeChunks_append (m : Memory) (chunks later : List FirstLoadInfo) :
    writeChunks m (chunks ++ later) = writeChunks (writeChunks m chunks) later := by
  simp [writeChunks]

/-- A byte of a chunk that no later chunk covers. -/
theorem writeChunks_at (m : Memory) (before : List FirstLoadInfo) {chunk : FirstLoadInfo}
    {after : List FirstLoadInfo} {i : Nat} (hi : i < chunk.data.length)
    (hAfter : ∀ later ∈ after,
      chunk.addr + i < later.addr ∨ later.addr + later.data.length ≤ chunk.addr + i) :
    writeChunks m (before ++ chunk :: after) (chunk.addr + i) = chunk.data.getD i 0 := by
  have hRead := @store_inside (writeChunks m before) chunk.addr (chunk.addr + i) chunk.data
    (by omega) (by omega)
  rw [Nat.add_sub_cancel_left] at hRead
  rw [writeChunks_append, writeChunks, List.foldl_cons, ← writeChunks, writeChunks_outside hAfter]
  exact hRead

/-- Storing a fresh chunk over zeros sets a single byte. -/
theorem store_freshChunk {m : Memory} {byte : Nat × UInt8}
    (hZero : ∀ a, byte.1 ≤ a → a < byte.1 + 8 → m a = 0) :
    store m (freshChunk byte).addr (freshChunk byte).data = Function.update m byte.1 byte.2 := by
  rw [freshChunk, store_set (by simp), store_zeros (by simp) (by simpa using hZero)]
  simp

/-- What the loop of `combine_loads` has established once it has consumed the
bytes `done`: writing the pushed chunks and the one under construction into
zeroed memory sets exactly these bytes. A byte may have been recorded twice. -/
structure Combined (done : List (Nat × UInt8)) (info : FirstLoadInfo)
    (pushed : List FirstLoadInfo) : Prop where
  sized : ∀ chunk ∈ pushed ++ [info], chunk.data.length = 8
  spaced : (pushed ++ [info]).Pairwise fun c d => c.addr + 8 ≤ d.addr
  nonzero : ∀ chunk ∈ pushed, wordValue chunk.data ≠ 0
  reached : ∀ byte ∈ done, byte.1 < info.addr + 8
  sources : ∀ chunk ∈ pushed ++ [info], ∃ byte ∈ done, chunk.addr = byte.1
  memory : writeChunks zero (pushed ++ [info]) = setBytes zero done

namespace Combined

variable {done : List (Nat × UInt8)} {info : FirstLoadInfo} {pushed : List FirstLoadInfo}

/-- The open chunk starts at a byte that has been taken in. -/
theorem started (h : Combined done info pushed) : ∃ byte ∈ done, info.addr = byte.1 :=
  h.sources info (by simp)

/-- The chunks that are closed end before the open one. -/
theorem ends_le (h : Combined done info pushed) :
    ∀ chunk ∈ pushed, chunk.addr + chunk.data.length ≤ info.addr := by
  intro chunk hc
  have hSized := h.sized chunk (List.mem_append_left _ hc)
  have hSpaced := (List.pairwise_concat.mp h.spaced).2 chunk hc
  omega

/-- Nothing is written at or above the end of the chunk under construction. -/
theorem zero_above (h : Combined done info pushed) {b : Nat} (hb : info.addr + 8 ≤ b) :
    writeChunks zero (pushed ++ [info]) b = 0 := by
  refine (writeChunks_outside fun chunk hc => ?_).trans rfl
  rcases List.mem_append.mp hc with hc | hc
  · have := h.ends_le chunk hc
    omega
  · have hSized := h.sized chunk (List.mem_append_right _ hc)
    obtain rfl := List.mem_singleton.mp hc
    omega

/-- It is enough that a round sets the new byte and keeps the chunk shapes. -/
theorem extend (h : Combined done info pushed) {byte : Nat × UInt8} {info' : FirstLoadInfo}
    {pushed' : List FirstLoadInfo} (hNew : ∀ old ∈ done, old.1 ≤ byte.1)
    (hSized : ∀ chunk ∈ pushed' ++ [info'], chunk.data.length = 8)
    (hSpaced : (pushed' ++ [info']).Pairwise fun c d => c.addr + 8 ≤ d.addr)
    (hNonzero : ∀ chunk ∈ pushed', wordValue chunk.data ≠ 0)
    (hReached : byte.1 < info'.addr + 8)
    (hPushed : ∀ chunk ∈ pushed', chunk ∈ pushed ++ [info])
    (hStarted : info'.addr = info.addr ∨ info'.addr = byte.1)
    (hMemory : writeChunks zero (pushed' ++ [info']) =
      Function.update (writeChunks zero (pushed ++ [info])) byte.1 byte.2) :
    Combined (done ++ [byte]) info' pushed' where
  sized := hSized
  spaced := hSpaced
  nonzero := hNonzero
  reached := List.forall_mem_concat.mpr ⟨fun old ho => (hNew old ho).trans_lt hReached, hReached⟩
  sources := by
    refine List.forall_mem_concat.mpr ⟨fun chunk hc => ?_, ?_⟩
    · obtain ⟨old, ho, he⟩ := h.sources chunk (hPushed chunk hc)
      exact ⟨old, List.mem_append_left _ ho, he⟩
    · rcases hStarted with hs | hs
      · obtain ⟨old, ho, he⟩ := h.started
        exact ⟨old, List.mem_append_left _ ho, hs.trans he⟩
      · exact ⟨byte, by simp, hs⟩
  memory := by
    rw [hMemory, h.memory]
    simp only [setBytes, List.foldl_append, List.foldl_cons, List.foldl_nil]

/-- A zero chunk may be dropped: it sits above all others and stores zeros. -/
theorem drop_zero (h : Combined done info pushed) (hZero : wordValue info.data = 0) :
    writeChunks zero (pushed ++ [info]) = writeChunks zero pushed := by
  rw [writeChunks_snoc]
  refine store_zeros ((wordValue_eq_zero_iff _).mp hZero) fun a hLow _ => ?_
  exact writeChunks_outside fun chunk hc => Or.inr ((h.ends_le chunk hc).trans hLow)

theorem info_le (h : Combined done info pushed) {byte : Nat × UInt8}
    (hNew : ∀ old ∈ done, old.1 ≤ byte.1) : info.addr ≤ byte.1 := by
  obtain ⟨old, ho, he⟩ := h.started
  exact he ▸ hNew old ho

/-- The byte falls into the chunk under construction. -/
theorem inside (h : Combined done info pushed) {byte : Nat × UInt8}
    (hNew : ∀ old ∈ done, old.1 ≤ byte.1) (hLen : byte.1 - info.addr < 8) :
    Combined (done ++ [byte]) { info with data := info.data.set (byte.1 - info.addr) byte.2 }
      pushed := by
  have hInfo := h.info_le hNew
  obtain ⟨hSized, hLength⟩ := List.forall_mem_concat.mp h.sized
  obtain ⟨hSpaced, hBefore⟩ := List.pairwise_concat.mp h.spaced
  have hPlace : info.addr + (byte.1 - info.addr) = byte.1 := by omega
  refine h.extend hNew ?_ ?_ h.nonzero (by simp only; omega)
    (fun chunk hc => List.mem_append_left _ hc) (Or.inl rfl) ?_
  · exact List.forall_mem_concat.mpr ⟨hSized, List.length_set.trans hLength⟩
  · exact List.pairwise_concat.mpr ⟨hSpaced, hBefore⟩
  · rw [writeChunks_snoc, writeChunks_snoc, store_set (by omega), hPlace]

/-- The byte is too far away, and the chunk under construction, being zero, is left out. -/
theorem restart (h : Combined done info pushed) {byte : Nat × UInt8}
    (hNew : ∀ old ∈ done, old.1 ≤ byte.1) (hFar : info.addr + 8 ≤ byte.1)
    (hZero : wordValue info.data = 0) : Combined (done ++ [byte]) (freshChunk byte) pushed := by
  have hSized := (List.forall_mem_concat.mp h.sized).1
  obtain ⟨hSpaced, hBefore⟩ := List.pairwise_concat.mp h.spaced
  refine h.extend hNew ?_ ?_ h.nonzero (by simp [freshChunk])
    (fun chunk hc => List.mem_append_left _ hc) (Or.inr rfl) ?_
  · exact List.forall_mem_concat.mpr ⟨hSized, by simp [freshChunk]⟩
  · refine List.pairwise_concat.mpr ⟨hSpaced, fun chunk hc => ?_⟩
    have hEnd := hBefore chunk hc
    simp only [freshChunk]
    omega
  · rw [writeChunks_snoc, ← h.drop_zero hZero,
      store_freshChunk fun a hLow _ => h.zero_above (hFar.trans hLow)]

/-- The byte is too far away, and the chunk under construction is pushed. -/
theorem push (h : Combined done info pushed) {byte : Nat × UInt8}
    (hNew : ∀ old ∈ done, old.1 ≤ byte.1) (hFar : info.addr + 8 ≤ byte.1)
    (hNonzero : wordValue info.data ≠ 0) :
    Combined (done ++ [byte]) (freshChunk byte) (pushed ++ [info]) := by
  have hBefore := (List.pairwise_concat.mp h.spaced).2
  refine h.extend hNew ?_ ?_ ?_ (by simp [freshChunk]) (fun chunk hc => hc) (Or.inr rfl) ?_
  · exact List.forall_mem_concat.mpr ⟨h.sized, by simp [freshChunk]⟩
  · refine List.pairwise_concat.mpr
      ⟨h.spaced, List.forall_mem_concat.mpr ⟨fun chunk hc => ?_, hFar⟩⟩
    have hEnd := hBefore chunk hc
    simp only [freshChunk]
    omega
  · exact List.forall_mem_concat.mpr ⟨h.nonzero, hNonzero⟩
  · rw [writeChunks_snoc, store_freshChunk fun a hLow _ => h.zero_above (hFar.trans hLow)]

/-- One round of the loop, on a byte that is not below the bytes consumed so far. -/
theorem step (h : Combined done info pushed) {byte : Nat × UInt8}
    (hNew : ∀ old ∈ done, old.1 ≤ byte.1) :
    Combined (done ++ [byte]) (combineStep (info, pushed) byte).1
      (combineStep (info, pushed) byte).2 := by
  have hInfo := h.info_le hNew
  simp only [combineStep]
  by_cases hLen : byte.1 - info.addr < 8
  · simp only [if_pos hLen]
    exact h.inside hNew hLen
  · have hFar : info.addr + 8 ≤ byte.1 := by omega
    simp only [if_neg hLen]
    by_cases hZero : wordValue info.data = 0
    · simp only [hZero, ne_eq, not_true_eq_false, if_false]
      exact h.restart hNew hFar hZero
    · simp only [ne_eq, hZero, not_false_eq_true, if_true]
      exact h.push hNew hFar hZero

theorem init (byte : Nat × UInt8) : Combined [byte] (freshChunk byte) [] where
  sized := by simp [freshChunk]
  spaced := by simp
  nonzero := by simp
  reached := by simp [freshChunk]
  sources := by simp [freshChunk]
  memory := by
    rw [writeChunks_snoc, store_freshChunk (m := writeChunks zero []) fun _ _ _ => rfl]
    rfl

/-- The whole loop, over bytes in increasing order of address. -/
theorem foldl (h : Combined done info pushed) (bytes : List (Nat × UInt8))
    (hSorted : (done ++ bytes).Pairwise fun x y => x.1 ≤ y.1) :
    Combined (done ++ bytes) (bytes.foldl combineStep (info, pushed)).1
      (bytes.foldl combineStep (info, pushed)).2 := by
  induction bytes generalizing done info pushed with
  | nil => simpa using h
  | cons byte rest ih =>
      have hNew : ∀ old ∈ done, old.1 ≤ byte.1 := fun old ho =>
        (List.pairwise_append.mp hSorted).2.2 old ho byte (by simp)
      have hRest := ih (h.step hNew) (by simpa using hSorted)
      simpa using hRest

end Combined

/-- Fewer than `2 ^ 31` bytes: the loop runs over all of them. -/
theorem combineLoads_combined {bytes : List (Nat × UInt8)} (hCount : bytes.length < 2 ^ 31) :
    bytes = [] ∧ combineLoads [] bytes = [] ∨
    ∃ done info pushed, combineLoads [] bytes = pushed ++ [info] ∧ Combined done info pushed ∧
      done.Perm bytes := by
  have hPerm : (sortLoads bytes).Perm bytes := List.perm_insertionSort _ _
  have hSorted : (sortLoads bytes).Pairwise fun x y => x.1 ≤ y.1 := List.pairwise_insertionSort _ _
  cases hCase : sortLoads bytes with
  | nil =>
      obtain rfl : bytes = [] := by
        rw [hCase] at hPerm
        exact hPerm.symm.eq_nil
      exact Or.inl ⟨rfl, by simp [combineLoads, sortLoads]⟩
  | cons byte rest =>
      have hLength : bytes.length = rest.length + 1 := by
        rw [← hPerm.length_eq, hCase]
        rfl
      have hTake : rest.take (int32 bytes.length - 1).toNat = rest := by
        rw [int32_of_lt hCount]
        exact List.take_of_length_le (by omega)
      have hChunks : combineLoads [] bytes =
          (rest.foldl combineStep (freshChunk byte, [])).2 ++
            [(rest.foldl combineStep (freshChunk byte, [])).1] := by
        have hSize : int32 bytes.length ≠ 0 := by
          rw [int32_of_lt hCount]
          omega
        simp only [combineLoads, if_neg hSize, hCase, hTake]
      have hAll := (Combined.init byte).foldl rest (by simpa [hCase] using hSorted)
      rw [hCase] at hPerm
      exact Or.inr ⟨_, _, _, hChunks, hAll, hPerm⟩

/-- The bytes that the loop of `combine_loads` runs over: as many as its `int` counts,
and the first one even if that is negative. -/
def packedBytes (bytes : List (Nat × UInt8)) : List (Nat × UInt8) :=
  if int32 bytes.length = 0 then []
  else (sortLoads bytes).take ((int32 bytes.length - 1).toNat + 1)

/-- No byte is packed that was not loaded. -/
theorem packedBytes_subset {bytes : List (Nat × UInt8)} : packedBytes bytes ⊆ bytes := by
  intro byte hb
  rw [packedBytes] at hb
  split at hb
  · exact absurd hb List.not_mem_nil
  · exact (List.perm_insertionSort _ _).mem_iff.mp (List.mem_of_mem_take hb)

theorem packedBytes_nodup {bytes : List (Nat × UInt8)} (hDistinct : (bytes.map Prod.fst).Nodup) :
    ((packedBytes bytes).map Prod.fst).Nodup := by
  rw [packedBytes]
  split
  · exact List.nodup_nil
  · have hSorted : ((sortLoads bytes).map Prod.fst).Nodup :=
      ((List.perm_insertionSort _ _).map Prod.fst).nodup_iff.mpr hDistinct
    exact hSorted.sublist ((List.take_sublist _ _).map Prod.fst)

theorem packedBytes_length (bytes : List (Nat × UInt8)) : (packedBytes bytes).length < 2 ^ 31 := by
  rw [packedBytes]
  split
  · decide
  · have hLt := int32_lt bytes.length
    rw [List.length_take]
    omega

/-- Whatever the number of the bytes is, the loop packs a first part of them that an
`int` can count. -/
theorem combineLoads_packedBytes (bytes : List (Nat × UInt8)) :
    combineLoads [] bytes = combineLoads [] (packedBytes bytes) := by
  have hSorted : (sortLoads bytes).Pairwise fun x y => x.1 ≤ y.1 := List.pairwise_insertionSort _ _
  have hShort := packedBytes_length bytes
  rw [packedBytes] at hShort ⊢
  by_cases hSize : int32 bytes.length = 0
  · rw [combineLoads, if_pos hSize, if_pos hSize]
    rfl
  · rw [if_neg hSize] at hShort ⊢
    cases hCase : sortLoads bytes with
    | nil =>
        simp only [combineLoads, if_neg hSize, hCase]
        rfl
    | cons byte rest =>
        rw [hCase] at hSorted hShort
        rw [List.take_succ_cons] at hShort ⊢
        have hPart : sortLoads (byte :: rest.take (int32 bytes.length - 1).toNat) =
            byte :: rest.take (int32 bytes.length - 1).toNat := by
          apply List.Pairwise.insertionSort_eq
          exact hSorted.sublist ((List.take_sublist _ rest).cons_cons byte)
        simp only [combineLoads, if_neg hSize, hCase]
        generalize rest.take (int32 bytes.length - 1).toNat = part at *
        rw [List.length_cons] at hShort
        have hAll : part.take (((part.length + 1 : Nat) : Int) - 1).toNat = part :=
          List.take_of_length_le (by omega)
        have hSome : ((part.length + 1 : Nat) : Int) ≠ 0 := by omega
        simp only [List.length_cons, int32_of_lt hShort, if_neg hSome, hPart, hAll]

/-- Writing the packed chunks into zeroed memory sets a byte that was recorded with one
value, and no other byte. -/
theorem combineLoads_byte {bytes : List (Nat × UInt8)} (hCount : bytes.length < 2 ^ 31) {b : Nat}
    {v : UInt8} (hValue : ∀ byte ∈ bytes, byte.1 = b → byte.2 = v) :
    writeChunks zero (combineLoads [] bytes) b = if ∃ byte ∈ bytes, byte.1 = b then v else 0 := by
  rcases combineLoads_combined hCount with ⟨rfl, hNone⟩ | ⟨done, info, pushed, hSome, h, hPerm⟩
  · rw [hNone, if_neg (by simp)]
    rfl
  · rw [hSome, h.memory, setBytes_apply fun x hx => hValue x (hPerm.mem_iff.mp hx)]
    simp only [hPerm.mem_iff]
    rfl

/-- Writing the packed chunks into zeroed memory sets exactly the loaded bytes. -/
theorem combineLoads_memory (bytes : List (Nat × UInt8)) (hCount : bytes.length < 2 ^ 31)
    (hDistinct : (bytes.map Prod.fst).Nodup) :
    (∀ byte ∈ bytes, writeChunks zero (combineLoads [] bytes) byte.1 = byte.2) ∧
    (∀ b, (∀ byte ∈ bytes, byte.1 ≠ b) → writeChunks zero (combineLoads [] bytes) b = 0) := by
  constructor
  · intro byte hb
    have hValue : ∀ x ∈ bytes, x.1 = byte.1 → x.2 = byte.2 := fun x hx hSame =>
      congrArg Prod.snd (List.inj_on_of_nodup_map hDistinct hx hb hSame)
    rw [combineLoads_byte hCount hValue, if_pos ⟨byte, hb, rfl⟩]
  · intro b hNone
    have hValue : ∀ x ∈ bytes, x.1 = b → x.2 = 0 := fun x hx hSame => absurd hSame (hNone x hx)
    rw [combineLoads_byte hCount hValue, ite_self]

end CkptInfo

/-- Chunks as `combine_loads` leaves them: eight bytes each, at least eight
bytes apart, not at address zero, and fewer than an `int` can count. -/
structure ChunkList (linfos : List FirstLoadInfo) : Prop where
  sized : ∀ chunk ∈ linfos, chunk.data.length = 8
  spaced : linfos.Pairwise fun x y => x.addr + 8 ≤ y.addr
  nonzero : ∀ chunk ∈ linfos, chunk.addr ≠ 0
  below : ∀ chunk ∈ linfos, chunk.addr < 2 ^ 63
  count : linfos.length < 2 ^ 31

theorem ChunkList.sublist {linfos part : List FirstLoadInfo} (h : ChunkList linfos)
    (hPart : part.Sublist linfos) : ChunkList part where
  sized := fun chunk hc => h.sized chunk (hPart.subset hc)
  spaced := h.spaced.sublist hPart
  nonzero := fun chunk hc => h.nonzero chunk (hPart.subset hc)
  below := fun chunk hc => h.below chunk (hPart.subset hc)
  count := Nat.lt_of_le_of_lt hPart.length_le h.count

/-- The chunks have eight bytes, do not overlap and start at recorded bytes, so there are
no more of them than bytes. -/
theorem CkptInfo.combineLoads_shape {bytes : List (Nat × UInt8)} (hCount : bytes.length < 2 ^ 31) :
    (∀ chunk ∈ combineLoads [] bytes, chunk.data.length = 8) ∧
    (combineLoads [] bytes).Pairwise (fun x y => x.addr + 8 ≤ y.addr) ∧
    (∀ chunk ∈ combineLoads [] bytes, ∃ byte ∈ bytes, chunk.addr = byte.1) ∧
    (combineLoads [] bytes).length ≤ bytes.length := by
  rcases combineLoads_combined hCount with ⟨-, hNone⟩ | ⟨done, info, pushed, hSome, h, hPerm⟩
  · rw [hNone]
    exact ⟨by simp, by simp, by simp, Nat.zero_le _⟩
  · rw [hSome]
    have hSource : ∀ chunk ∈ pushed ++ [info], ∃ byte ∈ bytes, chunk.addr = byte.1 := by
      intro chunk hc
      obtain ⟨byte, hb, hEq⟩ := h.sources chunk hc
      exact ⟨byte, hPerm.mem_iff.mp hb, hEq⟩
    have hNodup : ((pushed ++ [info]).map FirstLoadInfo.addr).Nodup :=
      List.pairwise_map.mpr (h.spaced.imp fun hApart => by omega)
    have hSub : (pushed ++ [info]).map FirstLoadInfo.addr ⊆ bytes.map Prod.fst := by
      intro addr ha
      obtain ⟨chunk, hc, rfl⟩ := List.mem_map.mp ha
      obtain ⟨byte, hb, hEq⟩ := hSource chunk hc
      exact List.mem_map.mpr ⟨byte, hb, hEq.symm⟩
    have hLength := (List.subperm_of_subset hNodup hSub).length_le
    rw [List.length_map, List.length_map] at hLength
    exact ⟨h.sized, h.spaced, hSource, hLength⟩

/-- Bytes at addressable places are combined into chunks that can be saved. -/
theorem CkptInfo.combineLoads_chunkList {bytes : List (Nat × UInt8)}
    (hCount : bytes.length < 2 ^ 31)
    (hAddr : ∀ byte ∈ bytes, byte.1 ≠ 0 ∧ byte.1 < 2 ^ 63) : ChunkList (combineLoads [] bytes) := by
  obtain ⟨hSized, hSpaced, hSources, hLength⟩ := combineLoads_shape hCount
  have hPlace : ∀ chunk ∈ combineLoads [] bytes, chunk.addr ≠ 0 ∧ chunk.addr < 2 ^ 63 := by
    intro chunk hc
    obtain ⟨byte, hb, hEq⟩ := hSources chunk hc
    rw [hEq]
    exact hAddr byte hb
  exact ⟨hSized, hSpaced, fun c hc => (hPlace c hc).1, fun c hc => (hPlace c hc).2,
    Nat.lt_of_le_of_lt hLength hCount⟩

section Packing

variable {bytes : List (Nat × UInt8)} {chunks : List FirstLoadInfo}

/-- The bytes of a load record that its mask selects, with their addresses. -/
def LoadInfo.selected (info : LoadInfo) : List (Nat × UInt8) :=
  ((List.range info.size).filter fun j => info.first.testBit j).map fun j =>
    (info.addr + j, info.data.getD j 0)

/-- Packed chunks: eight bytes each, ascending and at least eight bytes apart, of which
only the last may be all zero, and with exactly the non-zero ones among the bytes. -/
structure PackedChunks (bytes : List (Nat × UInt8)) (chunks : List FirstLoadInfo) : Prop where
  sized : ∀ chunk ∈ chunks, chunk.data.length = 8
  spaced : chunks.Pairwise fun c d => c.addr + 8 ≤ d.addr
  nonzero : ∀ chunk ∈ chunks.dropLast, ∃ v ∈ chunk.data, v ≠ 0
  kept : ∀ byte ∈ bytes, byte.2 ≠ 0 →
    ∃ chunk ∈ chunks, ∃ i < 8, byte = (chunk.addr + i, chunk.data.getD i 0)
  others : ∀ chunk ∈ chunks, ∀ i < 8, (chunk.addr + i, chunk.data.getD i 0) ∉ bytes →
    chunk.data.getD i 0 = 0

/-- The inner loop of `getFistloads` selects the bytes whose bits are set. -/
theorem CkptInfo.unpackFirst_eq (addr : Nat) (data : List UInt8) (isFirst j n : Nat) :
    unpackFirst addr data isFirst j n =
      ((List.range' j n).filter fun i => isFirst.testBit (i - j)).map fun i =>
        (addr + i, data.getD i 0) := by
  induction n generalizing isFirst j with
  | zero => rfl
  | succ n ih =>
      have hRest : (List.range' (j + 1) n).filter (fun i => isFirst.testBit (i - j)) =
          (List.range' (j + 1) n).filter fun i => (isFirst / 2).testBit (i - (j + 1)) := by
        apply List.filter_congr
        intro i hi
        have hLow := (List.mem_range'_1.mp hi).1
        have hIndex : i - j = i - (j + 1) + 1 := by omega
        rw [hIndex, Nat.testBit_add_one]
      have hHead : isFirst.testBit (j - j) = decide (isFirst % 2 = 1) := by
        rw [Nat.sub_self, Nat.testBit_zero]
      simp only [unpackFirst, ih, List.range'_succ, List.filter_cons, hRest, hHead,
        decide_eq_true_eq]
      split
      · rfl
      · rfl

/-- The inner loop takes the bytes out that the masks select. -/
theorem CkptInfo.temploads_eq (loads : List LoadInfo) :
    temploads loads = loads.flatMap LoadInfo.selected := by
  apply List.flatMap_congr
  intro info _
  rw [unpackFirst_eq, LoadInfo.selected, List.range_eq_range']
  rfl

/-- `combine_loads` only pushes to the list that it is given. -/
theorem CkptInfo.combineLoads_append (firstloads : List FirstLoadInfo)
    (bytes : List (Nat × UInt8)) :
    combineLoads firstloads bytes = firstloads ++ combineLoads [] bytes := by
  have hLoop : ∀ (rest : List (Nat × UInt8)) info pushed,
      rest.foldl combineStep (info, firstloads ++ pushed) =
        ((rest.foldl combineStep (info, pushed)).1,
          firstloads ++ (rest.foldl combineStep (info, pushed)).2) := by
    intro rest
    induction rest with
    | nil => exact fun _ _ => rfl
    | cons byte rest ih =>
        intro info pushed
        simp only [List.foldl_cons, combineStep]
        split
        · exact ih _ _
        · split
          · rw [List.append_assoc]
            exact ih _ _
          · exact ih _ _
  simp only [combineLoads]
  split
  · exact (List.append_nil _).symm
  · cases sortLoads bytes with
    | nil => exact (List.append_nil _).symm
    | cons byte rest =>
        have hRest := hLoop (rest.take (int32 bytes.length - 1).toNat) (freshChunk byte) []
        rw [List.append_nil] at hRest
        simp only [hRest, List.append_assoc]

/-- A chunk that no other one overlaps is read back where it was written. -/
theorem writeChunks_inside (m : Memory) (hSized : ∀ chunk ∈ chunks, chunk.data.length = 8)
    (hSpaced : chunks.Pairwise fun c d => c.addr + 8 ≤ d.addr) {chunk : FirstLoadInfo}
    (hChunk : chunk ∈ chunks) {i : Nat} (hi : i < 8) :
    writeChunks m chunks (chunk.addr + i) = chunk.data.getD i 0 := by
  have hLength := hSized chunk hChunk
  obtain ⟨before, after, rfl⟩ := List.append_of_mem hChunk
  apply CkptInfo.writeChunks_at m before (by omega)
  intro later hLater
  have hSplit := (List.pairwise_append.mp hSpaced).2.1
  have hApart := (List.pairwise_cons.mp hSplit).1 later hLater
  omega

/-- `combine_loads` packs bytes of distinct addresses. -/
theorem CkptInfo.combineLoads_packs (hCount : bytes.length < 2 ^ 31)
    (hDistinct : (bytes.map Prod.fst).Nodup) : PackedChunks bytes (combineLoads [] bytes) := by
  obtain ⟨hSized, hSpaced, -, -⟩ := combineLoads_shape hCount
  obtain ⟨hSet, hOthers⟩ := combineLoads_memory bytes hCount hDistinct
  refine ⟨hSized, hSpaced, ?_, ?_, ?_⟩
  · intro chunk hChunk
    rcases combineLoads_combined hCount with ⟨-, hNone⟩ | ⟨done, info, pushed, hSome, h, -⟩
    · rw [hNone] at hChunk
      exact absurd hChunk List.not_mem_nil
    · rw [hSome, List.dropLast_concat] at hChunk
      by_contra hZero
      push Not at hZero
      exact h.nonzero chunk hChunk ((wordValue_eq_zero_iff _).mpr hZero)
  · intro byte hByte hValue
    have hInside : ∃ chunk ∈ combineLoads [] bytes, chunk.addr ≤ byte.1 ∧
        byte.1 < chunk.addr + 8 := by
      by_contra hOut
      push Not at hOut
      have hZero : writeChunks zero (combineLoads [] bytes) byte.1 = 0 := by
        apply writeChunks_outside
        intro chunk hChunk
        have hLength := hSized chunk hChunk
        have hFar := hOut chunk hChunk
        omega
      exact hValue ((hSet byte hByte).symm.trans hZero)
    obtain ⟨chunk, hChunk, hLow, hHigh⟩ := hInside
    have hAddr : chunk.addr + (byte.1 - chunk.addr) = byte.1 := by omega
    have hOffset : byte.1 - chunk.addr < 8 := by omega
    have hRead := writeChunks_inside zero hSized hSpaced hChunk hOffset
    rw [hAddr, hSet byte hByte] at hRead
    exact ⟨chunk, hChunk, byte.1 - chunk.addr, hOffset, Prod.ext hAddr.symm hRead⟩
  · intro chunk hChunk i hi hOther
    rw [← writeChunks_inside zero hSized hSpaced hChunk hi] at hOther ⊢
    apply hOthers
    intro byte hByte hSame
    rw [← hSame, hSet byte hByte] at hOther
    exact hOther hByte

/-- The first bytes of a checkpoint's loads are packed without loss, behind what `firstloads`
held before. Nothing is asked of the order and the sizes of the loads; below `2 ^ 63` the
signed difference that `combine_loads` takes of two addresses is the one of the model. -/
theorem CkptInfo.getFistloads_packs (info : CkptInfo)
    (hDistinct : ((info.loads.flatMap LoadInfo.selected).map Prod.fst).Nodup)
    (hCount : (info.loads.flatMap LoadInfo.selected).length < 2 ^ 31) :
    ∃ packed, info.getFistloads.firstloads = info.firstloads ++ packed ∧
      PackedChunks (info.loads.flatMap LoadInfo.selected) packed := by
  refine ⟨combineLoads [] (temploads info.loads), combineLoads_append .., ?_⟩
  rw [temploads_eq]
  exact combineLoads_packs hCount hDistinct

def mixedLoads : CkptInfo :=
  { CkptInfo.create 0 100 0 [] [] 0 0x10000 with
    loads :=
      [⟨0x3010, [5, 0, 7, 0, 0, 0, 0, 9], 0x85, 8⟩, ⟨0x3000, [0, 0, 0, 0, 0, 0, 0, 0], 0x0F, 4⟩,
        ⟨0x3014, [1, 2, 0, 0, 0, 0, 0, 0], 0x03, 2⟩] }

theorem getFistloads_packs_mixed :
    ((mixedLoads.loads.flatMap LoadInfo.selected).map Prod.fst).Nodup ∧
    ∃ packed, mixedLoads.getFistloads.firstloads = mixedLoads.firstloads ++ packed ∧
      PackedChunks (mixedLoads.loads.flatMap LoadInfo.selected) packed :=
  ⟨by decide +kernel, CkptInfo.getFistloads_packs mixedLoads (by decide +kernel)
    (by decide +kernel)⟩

end Packing

def chunkBytes (linfos : List FirstLoadInfo) : List (Nat × UInt8) :=
  linfos.flatMap fun chunk => (List.range 8).map fun k => (chunk.addr + k, chunk.data.getD k 0)

namespace CkptInfo

section ChunkBytes

theorem chunkBytes_cons (chunk : FirstLoadInfo) (rest : List FirstLoadInfo) :
    chunkBytes (chunk :: rest) = (chunk.addr, chunk.data.getD 0 0) ::
      ((List.range' 1 7).map fun k => (chunk.addr + k, chunk.data.getD k 0)) ++ chunkBytes rest :=
        rfl

/-- The bytes behind the first one fill a fresh chunk up. -/
theorem combineStep_fill {chunk : FirstLoadInfo} (hSize : chunk.data.length = 8)
    (pushed : List FirstLoadInfo) :
    ((List.range' 1 7).map fun k => (chunk.addr + k, chunk.data.getD k 0)).foldl combineStep
      (freshChunk (chunk.addr, chunk.data.getD 0 0), pushed) = (chunk, pushed) := by
  obtain ⟨addr, data⟩ := chunk
  match data, hSize with
  | [_, _, _, _, _, _, _, _], _ =>
      simp [combineStep, freshChunk, List.range']

theorem combineStep_chunkBytes {info : FirstLoadInfo} {linfos : List FirstLoadInfo}
    (hSized : ∀ chunk ∈ linfos, chunk.data.length = 8)
    (hSpaced : (info :: linfos).Pairwise fun x y => x.addr + 8 ≤ y.addr)
    (hWords : ∀ chunk ∈ info :: linfos, wordValue chunk.data ≠ 0) (pushed : List FirstLoadInfo) :
    ((chunkBytes linfos).foldl combineStep (info, pushed)).2 ++
      [((chunkBytes linfos).foldl combineStep (info, pushed)).1] = pushed ++ (info :: linfos) := by
  induction linfos generalizing info pushed with
  | nil => rfl
  | cons chunk rest ih =>
      obtain ⟨hInfo, hRest⟩ := List.pairwise_cons.mp hSpaced
      have hFar := hInfo chunk (List.mem_cons_self ..)
      have hPush : combineStep (info, pushed) (chunk.addr, chunk.data.getD 0 0) =
          (freshChunk (chunk.addr, chunk.data.getD 0 0), pushed ++ [info]) := by
        simp only [combineStep, if_neg (show ¬ chunk.addr - info.addr < 8 by omega),
          if_pos (hWords info (List.mem_cons_self ..))]
      rw [chunkBytes_cons, List.foldl_append, List.foldl_cons, hPush,
        combineStep_fill (hSized chunk (List.mem_cons_self ..)),
        ih (fun c hc => hSized c (List.mem_cons_of_mem _ hc)) hRest
          (fun c hc => hWords c (List.mem_cons_of_mem _ hc)), List.append_assoc,
          List.singleton_append]

/-- Chunks that do not overlap list their bytes in ascending order. -/
theorem chunkBytes_ascending {linfos : List FirstLoadInfo}
    (hSpaced : linfos.Pairwise fun x y => x.addr + 8 ≤ y.addr) :
    (chunkBytes linfos).Pairwise fun x y => x.1 < y.1 := by
  rw [chunkBytes, List.flatMap, List.pairwise_flatten]
  refine ⟨fun bytes hBytes => ?_, List.pairwise_map.mpr (hSpaced.imp fun hApart x hx y hy => ?_)⟩
  · obtain ⟨chunk, -, rfl⟩ := List.mem_map.mp hBytes
    exact List.pairwise_map.mpr (List.pairwise_lt_range.imp fun hLt => Nat.add_lt_add_left hLt _)
  · obtain ⟨k, hk, rfl⟩ := List.mem_map.mp hx
    obtain ⟨k', -, rfl⟩ := List.mem_map.mp hy
    have hEight := List.mem_range.mp hk
    simp only
    omega

/-- Chunks of which every byte was loaded come out of `combine_loads` as they are. -/
theorem combineLoads_chunkBytes {linfos : List FirstLoadInfo}
    (hSized : ∀ chunk ∈ linfos, chunk.data.length = 8)
    (hSpaced : linfos.Pairwise fun x y => x.addr + 8 ≤ y.addr)
    (hWords : ∀ chunk ∈ linfos, wordValue chunk.data ≠ 0) (hCount : linfos.length < 2 ^ 28) :
    combineLoads [] (chunkBytes linfos) = linfos := by
  have hLength : (chunkBytes linfos).length = linfos.length * 8 := by
    rw [chunkBytes, List.length_flatMap]
    simp only [List.length_map, List.length_range, List.map_const', List.sum_replicate_nat]
  have hSort : sortLoads (chunkBytes linfos) = chunkBytes linfos :=
    List.Pairwise.insertionSort_eq ((chunkBytes_ascending hSpaced).imp fun hLt => Nat.le_of_lt hLt)
  have hInt : int32 (chunkBytes linfos).length = ((linfos.length * 8 : Nat) : Int) := by
    rw [hLength, int32_of_lt (by omega)]
  rw [combineLoads, hSort, hInt]
  cases linfos with
  | nil => rfl
  | cons chunk rest =>
      rw [List.length_cons] at *
      rw [chunkBytes_cons] at hLength ⊢
      rw [List.cons_append, List.length_cons] at hLength
      simp only [List.cons_append]
      rw [if_neg (by omega), List.take_of_length_le (by omega), List.foldl_append,
        combineStep_fill (hSized chunk (List.mem_cons_self ..))]
      exact combineStep_chunkBytes (fun c hc => hSized c (List.mem_cons_of_mem _ hc))
        hSpaced hWords []

theorem chunkBytes_nodup {linfos : List FirstLoadInfo}
    (hSpaced : linfos.Pairwise fun x y => x.addr + 8 ≤ y.addr) :
    ((chunkBytes linfos).map Prod.fst).Nodup :=
  List.pairwise_map.mpr ((chunkBytes_ascending hSpaced).imp fun hLt => Nat.ne_of_lt hLt)

end ChunkBytes

end CkptInfo

end RiscvCkpt
