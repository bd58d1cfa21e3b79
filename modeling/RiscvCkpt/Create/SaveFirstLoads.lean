import RiscvCkpt.Create.FirstLoads

/-! The compressed first-load section. Chunks are laid into pages that start at
their first chunk; of a page only the non-zero words are kept, behind a bit map;
pages are collected into blocks, and blocks are compressed by FastLZ. -/
namespace RiscvCkpt

open ByteCodec ByteMemory

def MaxCompressSize : Nat := 1024 * 1024 * 30

def ExtraDataSize : Nat := 1024 * 6

/-- `#define MaxCoverSize 4096`: the bytes of a page. -/
def MaxCoverSize : Nat := 4096

/-- What is assumed of FastLZ on blocks that fit `tempdata`: decompression
inverts compression, and the size that `fastlz_compress_level` returns is a
positive `int` unless the block is empty. -/
structure FastLZ where
  compress : List UInt8 → List UInt8
  decompress : List UInt8 → List UInt8
  decompress_compress : ∀ block, block.length ≤ MaxCompressSize + ExtraDataSize →
    decompress (compress block) = block
  compress_ne_nil : ∀ block, block.length ≤ MaxCompressSize + ExtraDataSize → block ≠ [] →
    compress block ≠ []
  compress_length : ∀ block, block.length ≤ MaxCompressSize + ExtraDataSize →
    (compress block).length < 2 ^ 31

/-- FastLZ at its two levels. `fastlz_decompress` finds the level in the block. -/
structure FastLZLevels where
  level1 : FastLZ
  level2 : FastLZ
  decompress_eq : level2.decompress = level1.decompress

def FastLZLevels.level (lz : FastLZLevels) (complevel : Nat) : FastLZ :=
  if complevel = 1 then lz.level1 else lz.level2

/-- `pagedata` and `map1`: the bytes of a page, and for each of its words
whether it is kept. -/
structure PageMap where
  pagedata : Memory
  map1 : Nat → Nat

def wordFlag (pagedata : Memory) (word : Nat) : Nat :=
  if wordValue (load pagedata (8 * word) 8) = 0 then 0 else 1

/-- One round of the page loop. A chunk that is not aligned to the page touches
two words. -/
def coverChunk (base : Nat) (page : PageMap) (chunk : FirstLoadInfo) : PageMap :=
  let offset := chunk.addr - base
  let pagedata := store page.pagedata offset chunk.data
  let a1 := offset % 8
  let word := (offset - a1) / 8
  let map1 := Function.update page.map1 word (wordFlag pagedata word)
  if a1 ≠ 0 then ⟨pagedata, Function.update map1 (word + 1) (wordFlag pagedata (word + 1))⟩
  else ⟨pagedata, map1⟩

/-- The page loop over the chunks from the `i`-th on. Its variable is an `int`
that starts at `i`, so it does not run from `2 ^ 31` on. -/
def coverPage (i base : Nat) (chunks : List FirstLoadInfo) : PageMap :=
  if i < 2 ^ 31 then chunks.foldl (coverChunk base) ⟨zero, fun _ => 0⟩ else ⟨zero, fun _ => 0⟩

/-- Eight map entries as one number, the first entry counting least. -/
def packFlags (map1 : Nat → Nat) (start n : Nat) : Nat :=
  (List.range' start n).foldr (fun c data => 2 * data + map1 c) 0

/-- `compress_map`: `map2` holds one bit for each entry of `map1`. -/
def compressMap (map1 : Nat → Nat) (size : Nat) : List UInt8 :=
  (List.range (size / 8)).map fun i => UInt8.ofNat (packFlags map1 (8 * i) 8)

def pageWords (base : Nat) (page : PageMap) : List Nat :=
  let map2 := compressMap page.map1 (MaxCoverSize / 8)
  [base, MaxCoverSize] ++
    (List.range 8).map (fun c => wordAt 8 map2 (8 * c)) ++
    ((List.range (MaxCoverSize / 8)).filter fun c => page.map1 c = 1).map
      fun c => wordValue (load page.pagedata (8 * c) 8)

/-- `tempdata` up to `tdsize`, and `infonum`. -/
structure WriteBuf where
  tempdata : List UInt8
  infonum : Nat
  deriving DecidableEq, Repr

def WriteBuf.empty : WriteBuf := ⟨[], 0⟩

/-- `compress_write`: what goes to the file, and the buffer afterwards. -/
def compressWrite (fastlz : FastLZ) (buf : WriteBuf) (data : List Nat) (last : Bool) :
    List UInt8 × WriteBuf :=
  let tempdata := buf.tempdata ++ data.flatMap (wordBytes 8)
  let infonum := buf.infonum + 1
  if tempdata.length < MaxCompressSize ∧ last = false then ([], ⟨tempdata, infonum⟩)
  else
    let compdata := fastlz.compress tempdata
    (wordBytes 8 compdata.length ++ (wordBytes 8 infonum ++ compdata), WriteBuf.empty)

/-- The chunks behind the first one that share its page. -/
def inPage (base : Nat) (chunk : FirstLoadInfo) : Bool := ¬ chunk.addr + 8 > base + MaxCoverSize

/-- The main loop of `saveFLoads_comp` from the `i`-th chunk on. -/
def savePages (fastlz : FastLZ) (i : Nat) (buf : WriteBuf) :
    List FirstLoadInfo → List UInt8 × WriteBuf
  | [] => ([], buf)
  | first :: rest =>
      let page := first :: rest.takeWhile (inPage first.addr)
      let later := rest.dropWhile (inPage first.addr)
      let written := compressWrite fastlz buf
        (pageWords first.addr (coverPage i first.addr page)) later.isEmpty
      let others := savePages fastlz (i + page.length) written.2 later
      (written.1 ++ others.1, others.2)
  termination_by linfos => linfos.length
  decreasing_by
    exact Nat.lt_succ_of_le (List.dropWhile_sublist _).length_le

def compTag : Nat := 0x123456 + 2

/-- `saveFLoads_comp`. The buffer is global and is handed from call to call. -/
def saveFLoadsComp (fastlz : FastLZ) (buf : WriteBuf) (linfos : List FirstLoadInfo) :
    List UInt8 × WriteBuf :=
  let pages := savePages fastlz 0 buf linfos
  (wordBytes 8 compTag ++ (pages.1 ++ wordBytes 8 0), pages.2)

def pageRecord (base : Nat) (page : PageMap) : List UInt8 :=
  (pageWords base page).flatMap (wordBytes 8)

/-- The kept words of a page from the `start`-th on. -/
def keptWords (page : PageMap) (start n : Nat) : List UInt8 :=
  ((List.range' start n).filter fun c => page.map1 c = 1).flatMap fun c =>
    load page.pagedata (8 * c) 8

theorem compressMap_length (map1 : Nat → Nat) (size : Nat) :
    (compressMap map1 size).length = size / 8 := by
  simp [compressMap]

/-- A record: the base address, the page size, the bit map, the kept words. -/
theorem pageRecord_parts (base : Nat) (page : PageMap) :
    pageRecord base page = wordBytes 8 base ++ (wordBytes 8 MaxCoverSize ++
      (compressMap page.map1 512 ++ keptWords page 0 512)) := by
  have hLength : (compressMap page.map1 512).length = 8 * 8 := compressMap_length page.map1 512
  have hMap := flatMap_wordAt hLength
  rw [List.range_eq_range'] at hMap
  have hWord : ∀ c, wordBytes 8 (wordValue (load page.pagedata (8 * c) 8)) =
      load page.pagedata (8 * c) 8 := fun c => by
    simpa using wordBytes_wordValue (load page.pagedata (8 * c) 8)
  simp only [pageRecord, pageWords, keptWords, show MaxCoverSize / 8 = 512 from rfl,
    List.flatMap_append, List.flatMap_map, List.flatMap_cons, List.flatMap_nil, hMap, hWord,
    List.range_eq_range', List.append_assoc, List.nil_append]

theorem keptWords_length_le (page : PageMap) (start n : Nat) :
    (keptWords page start n).length ≤ 8 * n := by
  rw [keptWords, length_flatMap_of_width (fun c => load_length page.pagedata (8 * c) 8)]
  have hFilter := List.length_filter_le (fun c => decide (page.map1 c = 1)) (List.range' start n)
  rw [List.length_range'] at hFilter
  omega

/-- A page record takes some room, and not more than the buffer keeps for it. -/
theorem pageRecord_length (base : Nat) (page : PageMap) :
    0 < (pageRecord base page).length ∧ (pageRecord base page).length ≤ ExtraDataSize := by
  have hWords := keptWords_length_le page 0 512
  rw [pageRecord_parts, List.length_append, List.length_append, List.length_append,
    wordBytes_length, wordBytes_length, compressMap_length]
  simp only [ExtraDataSize]
  omega

/-- A flag says of every word of the page whether it is zero. -/
def PageMap.Exact (page : PageMap) : Prop := ∀ word, page.map1 word = wordFlag page.pagedata word

/-- The words that a chunk touches are looked at again; the others keep their bytes. -/
theorem coverChunk_exact {base : Nat} {page : PageMap} {chunk : FirstLoadInfo}
    (h : page.Exact) (hData : chunk.data.length = 8) : (coverChunk base page chunk).Exact := by
  intro word
  have hOther : 8 * word + 8 ≤ chunk.addr - base ∨ chunk.addr - base + 8 ≤ 8 * word →
      wordFlag (store page.pagedata (chunk.addr - base) chunk.data) word =
        wordFlag page.pagedata word := by
    intro hApart
    rw [wordFlag, load_store_disjoint (by omega), wordFlag]
  by_cases hAligned : (chunk.addr - base) % 8 = 0
  · simp only [coverChunk, hAligned, ne_eq, not_true_eq_false, if_false, Function.update_apply]
    split
    · subst word
      rfl
    · rw [h word, hOther (by omega)]
  · simp only [coverChunk, ne_eq, hAligned, not_false_eq_true, if_true, Function.update_apply]
    split
    · subst word
      rfl
    · split
      · subst word
        rfl
      · rw [h word, hOther (by omega)]

/-- The page is a copy of what the chunks put into memory from its base on. -/
theorem foldl_coverChunk {base : Nat} {chunks : List FirstLoadInfo} {page : PageMap} {m : Memory}
    (hExact : page.Exact) (hCopy : ∀ o, page.pagedata o = m (base + o))
    (hChunks : ∀ chunk ∈ chunks, base ≤ chunk.addr ∧ chunk.data.length = 8) :
    (chunks.foldl (coverChunk base) page).Exact ∧
    ∀ o, (chunks.foldl (coverChunk base) page).pagedata o = writeChunks m chunks (base + o) := by
  induction chunks generalizing page m with
  | nil => exact ⟨hExact, hCopy⟩
  | cons chunk rest ih =>
      obtain ⟨hBase, hData⟩ := hChunks chunk (List.mem_cons_self ..)
      have hRest : ∀ c ∈ rest, base ≤ c.addr ∧ c.data.length = 8 := fun c hc =>
        hChunks c (List.mem_cons_of_mem _ hc)
      refine @ih _ (store m chunk.addr chunk.data) (coverChunk_exact hExact hData) ?_ hRest
      intro o
      have hPage : (coverChunk base page chunk).pagedata =
          store page.pagedata (chunk.addr - base) chunk.data := by
        simp only [coverChunk]
        split <;> rfl
      by_cases hIn : chunk.addr ≤ base + o ∧ base + o < chunk.addr + chunk.data.length
      · rw [hPage, store_inside (by omega) (by omega), store_inside hIn.1 hIn.2]
        congr 1
        omega
      · rw [hPage, store_outside (by omega), store_outside (by omega), hCopy]

end RiscvCkpt
