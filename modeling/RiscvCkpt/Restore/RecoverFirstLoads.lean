import RiscvCkpt.Fastlz.Incompressible

/-! Restoring the first loads: the three formats of the section, and when the
compressed one puts back exactly the chunks that were saved. A file is the list
of the bytes from the current position on. -/
namespace RiscvCkpt

open ByteCodec ByteMemory CkptInfo

/-- The loop over the bits of a map byte: a word is taken from the data for
every set bit. -/
def recoverBits (m : Memory) (taddr : Nat) (data : List UInt8) : Nat → Nat → Memory × List UInt8
  | _, 0 => (m, data)
  | bits, n + 1 =>
      if bits % 2 = 1 then recoverBits (store m taddr (data.take 8)) (taddr + 8) (data.drop 8)
        (bits / 2) n
      else recoverBits m (taddr + 8) data (bits / 2) n

def recoverMap (m : Memory) (taddr : Nat) (data : List UInt8) : List UInt8 → Memory × List UInt8
  | [] => (m, data)
  | byte :: rest =>
      let words := recoverBits m taddr data byte.toNat 8
      recoverMap words.1 (taddr + 64) words.2 rest

/-- One page behind its base address: the page size, the map and the words. -/
def recoverPage (m : Memory) (addr : Nat) (data : List UInt8) : Memory × List UInt8 :=
  let mapsize := wordAt 8 data 0 / 64
  recoverMap m addr (data.drop (8 + mapsize)) ((data.drop 8).take mapsize)

def recoverPages (m : Memory) (data : List UInt8) : Nat → Memory × List UInt8
  | 0 => (m, data)
  | infonum + 1 =>
      let addr := wordAt 8 data 0
      if addr = 0 then (m, data)
      else
        let page := recoverPage m addr (data.drop 8)
        recoverPages page.1 page.2 infonum

/-- `recovery_fastlz`. As in the tools nothing checks `compsize`: a block that is longer than
the buffer `compdata` is read over its end, and then the result is `none`. -/
def recoveryFastlz (fastlz : FastLZ) (m : Memory) (file : List UInt8) :
    Option (Memory × List UInt8) :=
  if h : wordAt 8 file 0 = 0 then some (m, file.drop 8)
  else
    let compsize := wordAt 8 file 0
    let infonum := wordAt 8 file 8
    let compdata := (file.drop 16).take compsize
    have : (file.drop (16 + compsize)).length < file.length := drop_block_lt h
    if MaxCompressSize + ExtraDataSize < compdata.length then none
    else
      let rawdata := fastlz.decompress compdata
      recoveryFastlz fastlz (recoverPages m rawdata infonum).1 (file.drop (16 + compsize))
  termination_by file.length

/-- `recovery_datamap`: pages without compression, up to a zero address. -/
def recoveryDatamap (m : Memory) (file : List UInt8) : Nat → Memory × List UInt8
  | 0 => (m, file)
  | fuel + 1 =>
      let addr := wordAt 8 file 0
      if addr = 0 then (m, file.drop 8)
      else
        let page := recoverPage m addr (file.drop 8)
        recoveryDatamap page.1 page.2 fuel

/-- `recovery_nocomp`: a count, then pairs of an address and a word. -/
def recoveryNocomp (m : Memory) (file : List UInt8) : Memory × List UInt8 :=
  let loadnum := wordAt 8 file 0
  ((List.range loadnum).foldl
    (fun m j => store m (wordAt 8 file (8 + 16 * j)) (wordBytes 8 (wordAt 8 file (8 + 16 * j + 8))))
    m, file.drop (8 + 16 * loadnum))

/-- `recovery_FirstLoad`: the tag decides; without a tag the position is set back. -/
def recoveryFirstLoad (fastlz : FastLZ) (m : Memory) (file : List UInt8) :
    Option (Memory × List UInt8) :=
  let compressTag := wordAt 8 file 0
  if compressTag = 0x123456 + 1 then some (recoveryDatamap m (file.drop 8) file.length)
  else if compressTag = 0x123456 + 2 ∨ compressTag = 0x123456 + 3 then
    recoveryFastlz fastlz m (file.drop 8)
  else some (recoveryNocomp m file)

section Reading

theorem writeChunks_cons (m : Memory) (chunk : FirstLoadInfo) (rest : List FirstLoadInfo) :
    writeChunks m (chunk :: rest) = writeChunks (store m chunk.addr chunk.data) rest := rfl

/-- Recovering the words of a map byte writes what reading them finds. -/
theorem recoverBits_eq (m : Memory) (taddr : Nat) (data : List UInt8) (bits n : Nat) :
    recoverBits m taddr data bits n =
      (writeChunks m (readBits taddr data bits n).1, (readBits taddr data bits n).2) := by
  induction n generalizing m taddr data bits with
  | zero => rfl
  | succ n ih =>
      rw [recoverBits, readBits]
      split
      · rw [ih, writeChunks_cons]
      · exact ih ..

theorem recoverMap_eq (m : Memory) (taddr : Nat) (data map : List UInt8) :
    recoverMap m taddr data map =
      (writeChunks m (readMap taddr data map).1, (readMap taddr data map).2) := by
  induction map generalizing m taddr data with
  | nil => rfl
  | cons byte rest ih => rw [recoverMap, readMap, recoverBits_eq, ih, writeChunks_append]

theorem recoverPage_eq (m : Memory) (addr : Nat) (data : List UInt8) :
    recoverPage m addr data = (writeChunks m (readPage addr data).1, (readPage addr data).2) :=
  recoverMap_eq ..

theorem recoverPages_eq (m : Memory) (data : List UInt8) (infonum : Nat) :
    recoverPages m data infonum =
      (writeChunks m (readPages data infonum).1, (readPages data infonum).2) := by
  induction infonum generalizing m data with
  | zero => rfl
  | succ infonum ih =>
      rw [recoverPages, readPages]
      split
      · rfl
      · simp only [recoverPage_eq, ih, writeChunks_append]

/-- Recovering compressed blocks writes what reading them finds, and stops where it stops. -/
theorem recoveryFastlz_eq (fastlz : FastLZ) (m : Memory) (file : List UInt8) :
    recoveryFastlz fastlz m file =
      (readFastlz fastlz file).map fun read => (writeChunks m read.1, read.2) := by
  induction hLength : file.length using Nat.strong_induction_on generalizing m file with
  | _ length ih =>
      rw [recoveryFastlz, readFastlz]
      split
      · rfl
      · next hMore =>
          have hShort := hLength ▸ drop_block_lt hMore
          simp only [recoverPages_eq, ih _ hShort _ _ rfl]
          split
          · rfl
          · simp only [Option.map_map, Function.comp_def, writeChunks_append]

/-- Recovering uncompressed pages writes what reading them finds. -/
theorem recoveryDatamap_eq (m : Memory) (file : List UInt8) (fuel : Nat) :
    recoveryDatamap m file fuel =
      (writeChunks m (readDatamap file fuel).1, (readDatamap file fuel).2) := by
  induction fuel generalizing m file with
  | zero => rfl
  | succ fuel ih =>
      rw [recoveryDatamap, readDatamap]
      split
      · rfl
      · simp only [recoverPage_eq, ih, writeChunks_append]

/-- Recovering a raw section writes what reading it finds. -/
theorem recoveryNocomp_eq (m : Memory) (file : List UInt8) :
    recoveryNocomp m file = (writeChunks m (readNocomp file).1, (readNocomp file).2) := by
  rw [recoveryNocomp, readNocomp, writeChunks, List.foldl_map]

/-- Restoring a section writes the entries that the tools read from it, one after
the other, whatever the bytes of the file are, and overruns its buffer where they do. -/
theorem recoveryFirstLoad_eq (fastlz : FastLZ) (m : Memory) (file : List UInt8) :
    recoveryFirstLoad fastlz m file =
      (readFirstLoad fastlz file).map fun read => (writeChunks m read.1, read.2) := by
  rw [recoveryFirstLoad, readFirstLoad]
  split
  · rw [Option.map_some, recoveryDatamap_eq]
  · split
    · exact recoveryFastlz_eq ..
    · rw [Option.map_some, recoveryNocomp_eq]

end Reading

section Page

variable {page : SavedPage}

/-- The bytes of the kept words, and no others, are overwritten. -/
theorem writeChunks_entriesFrom (m : Memory) (n a : Nat) :
    writeChunks m (page.entriesFrom 0 n) a =
      if page.base ≤ a ∧ a < page.base + 8 * n ∧ page.map.map1 ((a - page.base) / 8) = 1 then
        page.map.pagedata (a - page.base)
      else m a := by
  induction n with
  | zero =>
      rw [if_neg (by omega)]
      rfl
  | succ n ih =>
      have hLast : writeChunks m (page.entriesFrom 0 (n + 1)) =
          if page.map.map1 n = 1 then store (writeChunks m (page.entriesFrom 0 n))
          (page.base + 8 * n)
            (load page.map.pagedata (8 * n) 8) else writeChunks m (page.entriesFrom 0 n) := by
        rw [SavedPage.entriesFrom_append, writeChunks_append, Nat.zero_add]
        by_cases hKept : page.map.map1 n = 1
        · simp [SavedPage.entriesFrom, hKept, writeChunks]
        · simp [SavedPage.entriesFrom, hKept, writeChunks]
      rw [hLast]
      by_cases hIn : page.base + 8 * n ≤ a ∧ a < page.base + 8 * n + 8
      · have hWord : (a - page.base) / 8 = n := by omega
        rw [hWord]
        by_cases hKept : page.map.map1 n = 1
        · rw [if_pos hKept, store_inside hIn.1 (by rw [load_length]; omega), if_pos (by omega),
            load_getD (by omega)]
          exact congrArg page.map.pagedata (by omega)
        · rw [if_neg hKept, ih, if_neg (by omega), if_neg (fun h => hKept h.2.2)]
      · have hKeep : (if page.map.map1 n = 1 then
            store (writeChunks m (page.entriesFrom 0 n)) (page.base + 8 * n)
              (load page.map.pagedata (8 * n) 8)
            else writeChunks m (page.entriesFrom 0 n)) a =
              writeChunks m (page.entriesFrom 0 n) a := by
          split
          · exact store_outside (by rw [load_length]; omega)
          · rfl
        rw [hKeep, ih]
        exact if_congr (by omega) rfl rfl

/-- Dropping zero words loses nothing in memory that is zero there anyway. -/
theorem writeChunks_entries (hExact : page.map.Exact) {m : Memory}
    (hZero : ∀ b, page.base ≤ b → m b = 0) (a : Nat) :
    writeChunks m page.entries a =
      if page.base ≤ a ∧ a < page.base + MaxCoverSize then page.map.pagedata (a - page.base)
      else m a := by
  have hSize : page.base + 8 * 512 = page.base + MaxCoverSize := rfl
  rw [SavedPage.entries, writeChunks_entriesFrom, hSize]
  by_cases hIn : page.base ≤ a ∧ a < page.base + MaxCoverSize
  · rw [if_pos hIn]
    by_cases hKept : page.map.map1 ((a - page.base) / 8) = 1
    · rw [if_pos ⟨hIn.1, hIn.2, hKept⟩]
    · have hWord : wordValue (load page.map.pagedata (8 * ((a - page.base) / 8)) 8) = 0 := by
        rw [hExact, wordFlag] at hKept
        by_contra hNonzero
        exact hKept (if_neg hNonzero)
      have hBytes := (wordValue_eq_zero_iff _).mp hWord
      have hByte : page.map.pagedata (8 * ((a - page.base) / 8) + (a - page.base) % 8) = 0 :=
        hBytes _ (List.mem_map_of_mem (List.mem_range.mpr (Nat.mod_lt _ (by decide))))
      rw [if_neg (fun h => hKept h.2.2), hZero a hIn.1, ← hByte]
      exact congrArg page.map.pagedata (Nat.div_add_mod ..)
  · rw [if_neg (fun h => hIn ⟨h.1, h.2.1⟩), if_neg hIn]

end Page

/-- Entries in ascending order, none of which has a non-zero byte where a later one
begins or behind. Chunks that do not overlap are a special case; the words that a
reader cuts out of two pages may overlap. -/
def Layered (linfos : List FirstLoadInfo) : Prop :=
  linfos.Pairwise fun x y => x.addr < y.addr ∧ ∀ k, y.addr ≤ x.addr + k → x.data.getD k 0 = 0

/-- Chunks that do not overlap are layered. -/
theorem layered_of_spaced {linfos : List FirstLoadInfo}
    (hSized : ∀ chunk ∈ linfos, chunk.data.length = 8)
    (hSpaced : linfos.Pairwise fun x y => x.addr + 8 ≤ y.addr) : Layered linfos := by
  refine hSpaced.imp_of_mem fun {x y} hx _ hApart => ⟨by omega, fun k hk => ?_⟩
  have hLength := hSized x hx
  rw [List.getD_eq_getElem?_getD, List.getElem?_eq_none (by omega), Option.getD_none]

theorem ChunkList.layered {linfos : List FirstLoadInfo} (h : ChunkList linfos) : Layered linfos :=
  layered_of_spaced h.sized h.spaced

/-- Memory that is zero from every one of these entries on. -/
def ZeroFrom (m : Memory) (chunks : List FirstLoadInfo) : Prop :=
  ∀ chunk ∈ chunks, ∀ b, chunk.addr ≤ b → m b = 0

/-- A byte that is zero stays zero where the entries hold zeros. -/
theorem writeChunks_zero {m : Memory} {chunks : List FirstLoadInfo} {b : Nat} (hZero : m b = 0)
    (h : ∀ chunk ∈ chunks, chunk.addr ≤ b → chunk.data.getD (b - chunk.addr) 0 = 0) :
    writeChunks m chunks b = 0 := by
  induction chunks generalizing m with
  | nil => exact hZero
  | cons chunk rest ih =>
      rw [writeChunks_cons]
      apply ih
      · rw [store]
        split
        · next hIn => exact h chunk (List.mem_cons_self ..) hIn.1
        · exact hZero
      · exact fun c hc => h c (List.mem_cons_of_mem _ hc)

/-- Entries written below leave the memory above as it was. -/
theorem ZeroFrom.writeChunks {m : Memory} {chunks later : List FirstLoadInfo}
    (hLayered : Layered (chunks ++ later)) (hZero : ZeroFrom m (chunks ++ later)) :
    ZeroFrom (writeChunks m chunks) later := by
  intro chunk hc b hb
  apply writeChunks_zero (hZero chunk (List.mem_append_right _ hc) b hb)
  intro x hx hAbove
  apply ((List.pairwise_append.mp hLayered).2.2 x hx chunk hc).2
  omega

theorem ZeroFrom.left {m : Memory} {chunks later : List FirstLoadInfo}
    (h : ZeroFrom m (chunks ++ later)) : ZeroFrom m chunks := fun chunk hc =>
  h chunk (List.mem_append_left _ hc)

structure OnPage (first : FirstLoadInfo) (rest : List FirstLoadInfo) : Prop where
  sized : ∀ chunk ∈ first :: rest, chunk.data.length = 8
  bounds : ∀ chunk ∈ first :: rest,
    first.addr ≤ chunk.addr ∧ chunk.addr + 8 ≤ first.addr + MaxCoverSize

/-- The chunks that a page takes in start on it, each behind the one before. -/
theorem onPage_takeWhile {first : FirstLoadInfo} {rest : List FirstLoadInfo}
    (hSized : ∀ chunk ∈ first :: rest, chunk.data.length = 8) (hLayered : Layered (first :: rest)) :
    OnPage first (rest.takeWhile (inPage first.addr)) := by
  have hSub : ∀ chunk ∈ rest.takeWhile (inPage first.addr), chunk ∈ rest := fun chunk hc =>
    (List.takeWhile_sublist _).subset hc
  constructor
  · intro chunk hc
    rcases List.mem_cons.mp hc with rfl | hRest
    · exact hSized chunk (List.mem_cons_self ..)
    · exact hSized chunk (List.mem_cons_of_mem _ (hSub chunk hRest))
  · intro chunk hc
    rcases List.mem_cons.mp hc with rfl | hRest
    · simp only [MaxCoverSize]
      omega
    · have hAbove := ((List.pairwise_cons.mp hLayered).1 chunk (hSub chunk hRest)).1
      have hIn := List.mem_takeWhile_imp hRest
      simp only [inPage, decide_eq_true_eq, Nat.not_lt] at hIn
      omega

/-- A page holds what its entries put into memory from its base on. -/
theorem coverPage_spec {i : Nat} {first : FirstLoadInfo} {rest : List FirstLoadInfo} {m : Memory}
    (hIndex : i < 2 ^ 31) (hPage : OnPage first rest) (hZero : ∀ b, first.addr ≤ b → m b = 0) :
    (coverPage i first.addr (first :: rest)).Exact ∧
    ∀ o, (coverPage i first.addr (first :: rest)).pagedata o =
      writeChunks m (first :: rest) (first.addr + o) := by
  have hEmpty : (⟨zero, fun _ => 0⟩ : PageMap).Exact := fun word => by
    simp [wordFlag, load, zero]
  rw [coverPage, if_pos hIndex]
  exact @foldl_coverChunk first.addr (first :: rest) ⟨zero, fun _ => 0⟩ m hEmpty
    (fun o => (hZero _ (by omega)).symm) fun chunk hc =>
    ⟨(hPage.bounds chunk hc).1, hPage.sized chunk hc⟩

/-- Writing the words of a page does what writing its entries does. -/
theorem writeChunks_coverPage {i : Nat} {first : FirstLoadInfo} {rest : List FirstLoadInfo}
    {m : Memory} (hIndex : i < 2 ^ 31) (hPage : OnPage first rest)
    (hZero : ∀ b, first.addr ≤ b → m b = 0) :
    writeChunks m (SavedPage.entries ⟨first.addr, coverPage i first.addr (first :: rest)⟩) =
      writeChunks m (first :: rest) := by
  obtain ⟨hExact, hCopy⟩ := coverPage_spec hIndex hPage hZero
  funext a
  rw [writeChunks_entries hExact hZero]
  -- inside the page both sides hold the page's bytes, outside both leave memory alone
  by_cases hIn : first.addr ≤ a ∧ a < first.addr + MaxCoverSize
  · rw [if_pos hIn, hCopy]
    exact congrArg _ (Nat.add_sub_cancel' hIn.1)
  · rw [if_neg hIn, writeChunks_outside]
    intro chunk hc
    have hRange := hPage.bounds chunk hc
    have hLength := hPage.sized chunk hc
    omega

/-- A kept word has a byte that is not zero, and the byte stands in one of the entries that
the page was made from. -/
theorem entries_source {i : Nat} {first : FirstLoadInfo} {rest : List FirstLoadInfo}
    (hIndex : i < 2 ^ 31) (hPage : OnPage first rest) {word : FirstLoadInfo}
    (hWord : word ∈ SavedPage.entries ⟨first.addr, coverPage i first.addr (first :: rest)⟩) :
    ∃ a, word.addr ≤ a ∧ a < word.addr + 8 ∧
      ∃ chunk ∈ first :: rest, chunk.addr ≤ a ∧ chunk.data.getD (a - chunk.addr) 0 ≠ 0 := by
  obtain ⟨hExact, hCopy⟩ := @coverPage_spec i first rest zero hIndex hPage fun _ _ => rfl
  obtain ⟨c, -, hFlag, rfl⟩ := SavedPage.mem_entries hWord
  simp only at hFlag
  have hNonzero : wordValue (load (coverPage i first.addr (first :: rest)).pagedata (8 * c) 8) ≠
      0 := by
    intro hZero
    rw [hExact, wordFlag, if_pos hZero] at hFlag
    exact absurd hFlag (by decide)
  rw [ne_eq, wordValue_eq_zero_iff] at hNonzero
  simp only [not_forall] at hNonzero
  obtain ⟨byte, hByte, hValue⟩ := hNonzero
  obtain ⟨j, hj, rfl⟩ := List.mem_map.mp hByte
  rw [List.mem_range] at hj
  rw [hCopy] at hValue
  refine ⟨first.addr + (8 * c + j), by simp only; omega, by simp only; omega, ?_⟩
  by_contra hNone
  apply hValue
  apply writeChunks_zero rfl
  intro chunk hc hAbove
  by_contra hSome
  exact hNone ⟨chunk, hc, hAbove, hSome⟩

/-- A word that is saved has a byte that a chunk makes other than zero. -/
theorem savedPages_source {i : Nat} {linfos : List FirstLoadInfo}
    (hSized : ∀ chunk ∈ linfos, chunk.data.length = 8) (hLayered : Layered linfos)
    (hIndex : i + linfos.length < 2 ^ 31) {word : FirstLoadInfo}
    (hWord : word ∈ (savedPages i linfos).flatMap SavedPage.entries) :
    ∃ a, word.addr ≤ a ∧ a < word.addr + 8 ∧
      ∃ chunk ∈ linfos, chunk.addr ≤ a ∧ chunk.data.getD (a - chunk.addr) 0 ≠ 0 := by
  induction i, linfos using savedPages.induct with
  | case1 i =>
      rw [savedPages] at hWord
      exact absurd hWord List.not_mem_nil
  | case2 i first rest chunks ih =>
      have hSplit : chunks ++ rest.dropWhile (inPage first.addr) = first :: rest := by
        rw [List.cons_append, List.takeWhile_append_dropWhile]
      rw [savedPages, List.flatMap_cons] at hWord
      have hFrom : ∀ part : List FirstLoadInfo, part ⊆ first :: rest → (∃ a, word.addr ≤ a ∧
          a < word.addr + 8 ∧ ∃ chunk ∈ part, chunk.addr ≤ a ∧
          chunk.data.getD (a - chunk.addr) 0 ≠ 0) →
          ∃ a, word.addr ≤ a ∧ a < word.addr + 8 ∧
            ∃ chunk ∈ first :: rest, chunk.addr ≤ a ∧ chunk.data.getD (a - chunk.addr) 0 ≠ 0 := by
        rintro part hPart ⟨a, hLow, hHigh, chunk, hc, hSome⟩
        exact ⟨a, hLow, hHigh, chunk, hPart hc, hSome⟩
      rcases List.mem_append.mp hWord with hWord | hWord
      · apply hFrom chunks (hSplit ▸ List.subset_append_left _ _)
        exact entries_source (by omega) (onPage_takeWhile hSized hLayered) hWord
      · have hLater : rest.dropWhile (inPage first.addr) ⊆ first :: rest :=
          hSplit ▸ List.subset_append_right _ _
        have hLength := congrArg List.length hSplit
        rw [List.length_append] at hLength
        apply hFrom _ hLater
        exact ih (fun chunk hc => hSized chunk (hLater hc))
          (hLayered.sublist (hSplit ▸ List.sublist_append_right _ _)) (by omega) hWord

/-- The words of all pages, in place of the entries they were made from. -/
theorem writeChunks_savedPages {i : Nat} {linfos : List FirstLoadInfo} {m : Memory}
    (hSized : ∀ chunk ∈ linfos, chunk.data.length = 8) (hLayered : Layered linfos)
    (hIndex : i + linfos.length < 2 ^ 31) (hZero : ZeroFrom m linfos) :
    writeChunks m ((savedPages i linfos).flatMap SavedPage.entries) = writeChunks m linfos := by
  induction i, linfos using savedPages.induct generalizing m with
  | case1 i =>
      rw [savedPages]
      rfl
  | case2 i first rest chunks =>
      rename_i ih
      have hChunks : first :: rest.takeWhile (inPage first.addr) = chunks := rfl
      have hSplit : chunks ++ rest.dropWhile (inPage first.addr) = first :: rest := by
        rw [← hChunks, List.cons_append, List.takeWhile_append_dropWhile]
      have hFirst := hZero first (List.mem_cons_self ..)
      have hPage :=
        writeChunks_coverPage (by omega : i < 2 ^ 31) (onPage_takeWhile hSized hLayered) hFirst
      rw [savedPages, List.flatMap_cons, writeChunks_append, hPage, hChunks]
      rw [← hSplit] at hSized hLayered hIndex hZero ⊢
      rw [List.length_append] at hIndex
      rw [writeChunks_append]
      exact ih (fun c hc => hSized c (List.mem_append_right _ hc))
        (List.pairwise_append.mp hLayered).2.1 (by omega) (hZero.writeChunks hLayered)

theorem ChunkList.addressable {linfos : List FirstLoadInfo} (h : ChunkList linfos) :
    Addressable linfos := by
  intro chunk hc
  have hBelow := h.below chunk hc
  exact ⟨h.nonzero chunk hc, by omega⟩

/-- Restoring the section that `saveFLoads_comp` has written for such chunks puts them into
zeroed memory and stops at the end of the section, if the blocks fit the buffer; else it
writes behind the buffer. -/
theorem recoveryFirstLoad_saved (fastlz : FastLZ) {linfos : List FirstLoadInfo}
    (hChunks : ChunkList linfos) (after : List UInt8) :
    recoveryFirstLoad fastlz zero ((saveFLoadsComp fastlz WriteBuf.empty linfos).1 ++ after) =
      if BlocksFit fastlz linfos then some (writeChunks zero linfos, after) else none := by
  have hCount := hChunks.count
  have hRead := readFirstLoad_saveFLoadsComp fastlz hChunks.addressable (by omega) after
  have hMemory := @writeChunks_savedPages 0 linfos zero hChunks.sized hChunks.layered (by omega)
    fun _ _ _ _ => rfl
  rw [recoveryFirstLoad_eq, hRead, apply_ite (Option.map _), Option.map_some, Option.map_none,
    hMemory]

/-- The section restores the memory of its chunks, and is read up to its end, exactly if no
compressed block is longer than the reader's buffer. -/
theorem recovers_saved_iff (fastlz : FastLZ) {linfos : List FirstLoadInfo}
    (hChunks : ChunkList linfos) (after : List UInt8) :
    recoveryFirstLoad fastlz zero ((saveFLoadsComp fastlz WriteBuf.empty linfos).1 ++ after) =
        some (writeChunks zero linfos, after) ↔
      ∀ block ∈ blocks linfos,
        (fastlz.compress block.tempdata).length ≤ MaxCompressSize + ExtraDataSize := by
  rw [recoveryFirstLoad_saved fastlz hChunks, Option.ite_none_right_eq_some]
  exact and_iff_left rfl

/-- A compressor that stores the block as it is. -/
def storeLZ : FastLZ where
  compress := id
  decompress := id
  decompress_compress := fun _ _ => rfl
  compress_ne_nil := fun _ _ h => h
  compress_length := fun block h => Nat.lt_of_le_of_lt h (by decide)

def sampleChunks : List FirstLoadInfo :=
  [⟨0x1000, [1, 0, 0, 0, 0, 0, 0, 0]⟩, ⟨0x100b, [2, 3, 0, 0, 0, 0, 0, 4]⟩,
    ⟨0x1ffb, [5, 6, 7, 8, 9, 10, 11, 12]⟩]

theorem recovers_saved_sample :
    ChunkList sampleChunks ∧
    recoveryFirstLoad storeLZ zero
        ((saveFLoadsComp storeLZ WriteBuf.empty sampleChunks).1 ++ [42]) =
      some (writeChunks zero sampleChunks, [42]) := by
  have hChunks : ChunkList sampleChunks := by constructor <;> decide
  refine ⟨hChunks, (recovers_saved_iff storeLZ hChunks [42]).mpr fun block hBlock => ?_⟩
  exact fills_room (by decide) _ (mem_blocks hBlock)

/-- The first loads of a program that reads 7533 pages of noise: the only block, as FastLZ
compresses it, overruns the buffer of the restorer. -/
theorem recovery_overruns :
    let fastlz := (Fastlz.fastlzLevels .arch64).level1
    ChunkList (noise 1 7533) ∧
    recoveryFirstLoad fastlz zero
      (saveFLoadsComp fastlz WriteBuf.empty (noise 1 7533)).1 = none := by
  intro fastlz
  have hChunks : ChunkList (noise 1 7533) := noise_chunkList (by decide) (by decide)
  have hRecovery := recoveryFirstLoad_saved fastlz hChunks []
  rw [List.append_nil, if_neg (Fastlz.noise_overflows .arch64)] at hRecovery
  exact ⟨hChunks, hRecovery⟩

end RiscvCkpt
