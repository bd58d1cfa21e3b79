import RiscvCkpt.Cpu.Tick
import RiscvCkpt.Restore.CkptFile
import RiscvCkpt.Restore.ReadFloads

/-! How a re-creating run tells the benchmark's instructions from the loader's. A byte map of
fixed size has an entry for each page from the first text range on; `initCkptSysInfo` fills it
from the ranges of the checkpoint, and `isCkptInst` looks an address up. -/
namespace RiscvCkpt

open ByteCodec MachineInt

def ctMapsize : Nat := 1024 * 64

/-- `n` rounds of the loop over the pages of a range; `none` where it leaves `ckptinst_map`. -/
def markPages (ckptinst_map : List UInt8) (start : Nat) : Nat → Option (List UInt8)
  | 0 => some ckptinst_map
  | n + 1 =>
      if start < ckptinst_map.length then markPages (ckptinst_map.set start 1) (start + 1) n
      else none

/-- One round of the loop over the ranges. The page numbers are 32-bit variables. -/
def mapRange (textstart : Nat) (ckptinst_map : List UInt8) (range : CodeRange) :
    Option (List UInt8) :=
  let start := uint32 (uint64 ((range.addr : Int) - textstart) / 4096 : Nat)
  let stop := uint32 (start + range.size / 4096 : Nat)
  markPages ckptinst_map start (stop - start)

/-- What `initCkptSysInfo` sets up for a checkpoint file. The start of the first range and the
end of the last one bound the text. `none` where the counter of the ranges, an `int`, overflows
or the map is left. -/
def initReadCkpt (file : List UInt8) : Option ReadCkpt :=
  let numtext := wordAt 8 file 0
  if numtext < 2 ^ 31 then
    let ranges := rangesAt file 8 numtext
    let textstart := (ranges.head?.map CodeRange.addr).getD 0x1000000000
    let textend := (ranges.getLast?.map fun range => uint64 (range.addr + range.size : Nat)).getD 0
    let place := (initCkptSysInfo file).2
    (ranges.foldlM (mapRange textstart) (List.replicate ctMapsize 0)).map fun instMap =>
      { textstart, textend, instMap, callinfo := file.drop (readFloads place (file.drop place)) }
  else none

/-- The entry that `isCkptInst` looks at for an address between the bounds. -/
def ReadCkpt.mapidx (ckpt : ReadCkpt) (addr : Nat) : Nat :=
  uint32 ((addr / 4096 : Nat) - (ckpt.textstart / 4096 : Nat))

/-- The map is built within its bounds; it is looked up within its bounds, and says of every
address whether it lies in a range. -/
def TextMapExact (ranges : List CodeRange) (rest : List UInt8) : Prop :=
  ∃ ckpt, initReadCkpt (rangeTable ranges ++ rest) = some ckpt ∧ ∀ addr < 2 ^ 64,
    (ckpt.textstart ≤ addr → addr < ckpt.textend → ckpt.mapidx addr < ctMapsize) ∧
    (ckpt.isCkptInst addr = true ↔ ∃ r ∈ ranges, r.Holds addr)

/-- The map has an entry for every page between the ranges, no range ends with the address
space, and an `int` counts the ranges. -/
structure MapFits (ranges : List CodeRange) : Prop where
  span : ∀ a ∈ ranges, ∀ b ∈ ranges, b.stop ≤ a.addr + 4096 * ctMapsize
  top : ∀ r ∈ ranges, r.stop < 2 ^ 64
  count : ranges.length < 2 ^ 31

section Marking

variable {ckptinst_map : List UInt8} {start n : Nat}

/-- Within the map the loop sets exactly its pages. -/
theorem markPages_spec (h : start + n ≤ ckptinst_map.length) :
    ∃ marked, markPages ckptinst_map start n = some marked ∧ marked.length = ckptinst_map.length ∧
      ∀ i, marked.getD i 0 = 1 ↔ (start ≤ i ∧ i < start + n) ∨ ckptinst_map.getD i 0 = 1 := by
  induction n generalizing ckptinst_map start with
  | zero =>
      refine ⟨ckptinst_map, rfl, rfl, fun i => ?_⟩
      have hNone : ¬ (start ≤ i ∧ i < start + 0) := by omega
      exact (or_iff_right hNone).symm
  | succ n ih =>
      have hSet : start + 1 + n ≤ (ckptinst_map.set start 1).length := by
        rw [List.length_set]
        omega
      obtain ⟨marked, hMarked, hLength, hEntry⟩ := ih hSet
      refine ⟨marked, ?_, by rw [hLength, List.length_set], fun i => ?_⟩
      · rw [markPages, if_pos (by omega), hMarked]
      · rw [hEntry, List.getD_eq_getElem?_getD, List.getElem?_set, List.getD_eq_getElem?_getD]
        by_cases hHere : start = i
        · subst hHere
          rw [if_pos rfl, if_pos (by omega), Option.getD_some]
          exact iff_of_true (Or.inr rfl) (Or.inl ⟨Nat.le_refl start, by omega⟩)
        · rw [if_neg hHere]
          have hPages : start + 1 ≤ i ∧ i < start + 1 + n ↔
              start ≤ i ∧ i < start + (n + 1) := by omega
          rw [hPages]

variable {textstart : Nat} {range : CodeRange}

/-- The page numbers of a range that the map has room for are exact. -/
theorem mapRange_eq (hLow : textstart ≤ range.addr)
    (hAligned : 4096 ∣ textstart ∧ 4096 ∣ range.addr ∧ 4096 ∣ range.size)
    (hHigh : range.stop ≤ textstart + 4096 * ctMapsize) :
    mapRange textstart ckptinst_map range =
      markPages ckptinst_map ((range.addr - textstart) / 4096) (range.size / 4096) ∧
    (range.addr - textstart) / 4096 + range.size / 4096 ≤ ctMapsize := by
  simp only [CodeRange.stop, ctMapsize] at hHigh ⊢
  have hStart : uint32 (uint64 ((range.addr : Int) - textstart) / 4096 : Nat) =
      (range.addr - textstart) / 4096 := by
    simp only [uint32, uint64]
    omega
  have hStop : uint32 ((range.addr - textstart) / 4096 + range.size / 4096 : Nat) =
      (range.addr - textstart) / 4096 + range.size / 4096 := by
    simp only [uint32]
    omega
  refine ⟨?_, by omega⟩
  simp only [mapRange, hStart, hStop, Nat.add_sub_cancel_left]

/-- A page of the map lies in the range. -/
def InPages (textstart i : Nat) (range : CodeRange) : Prop :=
  range.addr ≤ textstart + 4096 * i ∧ textstart + 4096 * i < range.stop

/-- After the loop over the ranges exactly their pages are set. -/
theorem mapRanges_spec {ranges : List CodeRange} (hLength : ckptinst_map.length = ctMapsize)
    (hStart : 4096 ∣ textstart) (hLow : ∀ r ∈ ranges, textstart ≤ r.addr)
    (hAligned : ∀ r ∈ ranges, 4096 ∣ r.addr ∧ 4096 ∣ r.size)
    (hHigh : ∀ r ∈ ranges, r.stop ≤ textstart + 4096 * ctMapsize) :
    ∃ marked, ranges.foldlM (mapRange textstart) ckptinst_map = some marked ∧
      ∀ i, marked.getD i 0 = 1 ↔ (∃ r ∈ ranges, InPages textstart i r) ∨
        ckptinst_map.getD i 0 = 1 := by
  induction ranges generalizing ckptinst_map with
  | nil => exact ⟨ckptinst_map, rfl, fun i => by simp⟩
  | cons range rest ih =>
      obtain ⟨hLowHere, hLowRest⟩ := List.forall_mem_cons.mp hLow
      obtain ⟨hAlignedHere, hAlignedRest⟩ := List.forall_mem_cons.mp hAligned
      obtain ⟨hHighHere, hHighRest⟩ := List.forall_mem_cons.mp hHigh
      obtain ⟨hRange, hRoom⟩ :=
        @mapRange_eq ckptinst_map _ _ hLowHere ⟨hStart, hAlignedHere⟩ hHighHere
      obtain ⟨first, hFirst, hFirstLength, hFirstEntry⟩ := markPages_spec (hLength ▸ hRoom)
      obtain ⟨marked, hMarked, hEntry⟩ :=
        ih (hFirstLength.trans hLength) hLowRest hAlignedRest hHighRest
      refine ⟨marked, ?_, fun i => ?_⟩
      · rw [List.foldlM_cons, hRange, hFirst]
        exact hMarked
      · have hPage : (range.addr - textstart) / 4096 ≤ i ∧
            i < (range.addr - textstart) / 4096 + range.size / 4096 ↔
              InPages textstart i range := by
          simp only [InPages, CodeRange.stop]
          omega
        rw [hEntry, hFirstEntry, hPage]
        rw [List.exists_mem_cons_iff, or_left_comm, or_assoc]

end Marking

section Bounds

variable {ranges : List CodeRange} (h : TextPages ranges)

include h

/-- Where the map of a file is built, its bounds are those of the ranges. -/
theorem TextPages.initReadCkpt_eq (rest : List UInt8) :
    ∃ callinfo, initReadCkpt (rangeTable ranges ++ rest) =
      if ranges.length < 2 ^ 31 then
        (ranges.foldlM (mapRange ((ranges.head?.map CodeRange.addr).getD 0x1000000000))
          (List.replicate ctMapsize 0)).map fun instMap =>
            { textstart := (ranges.head?.map CodeRange.addr).getD 0x1000000000
              textend := (ranges.getLast?.map fun range => uint64 (range.stop : Nat)).getD 0
              instMap := instMap
              callinfo := callinfo }
      else none := by
  obtain ⟨hCount, hRanges⟩ := h.read rest
  simp only [initReadCkpt, hCount, hRanges]
  exact ⟨_, rfl⟩

/-- The bounds of the text are those of the first and of the last range. -/
theorem TextPages.bounds {rest : List UInt8} {ckpt : ReadCkpt}
    (hCkpt : initReadCkpt (rangeTable ranges ++ rest) = some ckpt) :
    ranges.length < 2 ^ 31 ∧ (∀ first, ranges.head? = some first → ckpt.textstart = first.addr) ∧
      ∀ last, ranges.getLast? = some last → ckpt.textend = uint64 (last.stop : Nat) := by
  obtain ⟨callinfo, hInit⟩ := h.initReadCkpt_eq rest
  rw [hInit] at hCkpt
  split at hCkpt
  · next hCount =>
      obtain ⟨instMap, -, rfl⟩ := Option.map_eq_some_iff.mp hCkpt
      refine ⟨hCount, fun first hFirst => ?_, fun last hLast => ?_⟩
      · simp only [hFirst, Option.map_some, Option.getD_some]
      · simp only [hLast, Option.map_some, Option.getD_some]
  · exact absurd hCkpt (by simp)

end Bounds

theorem blankMap_entry (i : Nat) : ¬ (List.replicate ctMapsize (0 : UInt8)).getD i 0 = 1 := by
  rw [List.getD_eq_getElem?_getD, List.getElem?_replicate]
  split <;> decide

/-- A map that has room for all pages is built and is exact. -/
theorem textMapExact_of_fits {ranges : List CodeRange} (h : TextPages ranges)
    (hFits : MapFits ranges) (rest : List UInt8) : TextMapExact ranges rest := by
  obtain ⟨callinfo, hInit⟩ := h.initReadCkpt_eq rest
  rw [if_pos hFits.count] at hInit
  rcases rangeEnds ranges with rfl | ⟨first, last, hFirst, hLast⟩
  · refine ⟨_, hInit, fun addr _ => ⟨fun _ hEnd => absurd hEnd (Nat.not_lt_zero _), ?_⟩⟩
    simp [ReadCkpt.isCkptInst]
  · have hMem : first ∈ ranges := List.mem_of_head? hFirst
    have hLow := h.first_le hFirst
    have hHigh := h.le_last hLast
    have hTop := hFits.top last (List.mem_of_getLast? hLast)
    have hSpan := hFits.span first hMem last (List.mem_of_getLast? hLast)
    have hStart := (h.aligned first hMem).1
    have hEnd : uint64 (last.stop : Nat) = last.stop := by
      simp only [uint64]
      omega
    obtain ⟨marked, hMarked, hEntry⟩ :=
      @mapRanges_spec (List.replicate ctMapsize 0) first.addr ranges
      List.length_replicate hStart hLow h.aligned fun r hr => hFits.span first hMem r hr
    rw [hFirst, hLast, Option.map_some, Option.map_some, Option.getD_some, Option.getD_some, hEnd,
      hMarked, Option.map_some] at hInit
    refine ⟨_, hInit, fun addr hAddr => ?_⟩
    simp only [ReadCkpt.mapidx, ReadCkpt.isCkptInst]
    -- Within the bounds the 32-bit index is the number of the page.
    have hIndex : ¬ (addr ≥ last.stop ∨ addr < first.addr) →
        uint32 ((addr / 4096 : Nat) - (first.addr / 4096 : Nat)) = (addr - first.addr) / 4096 := by
      intro hIn
      simp only [uint32, ctMapsize] at hSpan ⊢
      omega
    constructor
    · intro hFrom hTo
      rw [hIndex (by omega)]
      omega
    · split
      · next hOut =>
          refine iff_of_false Bool.false_ne_true ?_
          rintro ⟨r, hr, hFrom, hTo⟩
          have hLowR := hLow r hr
          have hHighR := hHigh r hr
          omega
      · next hIn =>
          rw [hIndex hIn, decide_eq_true_iff, hEntry, or_iff_left (blankMap_entry _)]
          refine exists_congr fun r => and_congr_right fun hr => ?_
          obtain ⟨hBase, hSize⟩ := h.aligned r hr
          have hLowR := hLow r hr
          simp only [InPages, CodeRange.Holds, CodeRange.stop]
          omega

/-- Outside of that, some address is looked up past the end of the map, or the end of the text
is zero. -/
theorem fits_of_textMapExact {ranges : List CodeRange} (h : TextPages ranges) {rest : List UInt8}
    (hExact : TextMapExact ranges rest) : MapFits ranges := by
  obtain ⟨ckpt, hCkpt, hLookup⟩ := hExact
  obtain ⟨hCount, hTextstart, hTextend⟩ := h.bounds hCkpt
  rcases rangeEnds ranges with rfl | ⟨first, last, hFirst, hLast⟩
  · exact ⟨by simp, by simp, hCount⟩
  · have hStart := hTextstart first hFirst
    have hEnd := hTextend last hLast
    have hMem := List.mem_of_getLast? hLast
    obtain ⟨hAddr, -, hStop⟩ := h.addresses last hMem
    have hTop : last.stop < 2 ^ 64 := by
      refine Nat.lt_of_le_of_ne hStop fun hWhole => ?_
      have hInside := (hLookup (2 ^ 64 - 1) (by decide)).2.mpr ⟨last, hMem, by omega, by omega⟩
      have hZero : ckpt.textend = 0 := by
        rw [hEnd, hWhole]
        rfl
      rw [ReadCkpt.isCkptInst, if_pos (by omega)] at hInside
      exact Bool.false_ne_true hInside
    have hSpan : last.stop ≤ first.addr + 4096 * ctMapsize := by
      refine Nat.le_of_not_lt fun hFar => ?_
      have hIndex := (hLookup (first.addr + 4096 * ctMapsize) (by omega)).1
      simp only [hStart, hEnd, ReadCkpt.mapidx, uint64, uint32, ctMapsize] at hIndex hFar
      omega
    have hLow := h.first_le hFirst
    have hHigh := h.le_last hLast
    refine ⟨fun a ha b hb => ?_, fun r hr => Nat.lt_of_le_of_lt (hHigh r hr) hTop, hCount⟩
    have hLowA := hLow a ha
    have hHighB := hHigh b hb
    omega

/-- The map recognises exactly the text if and only if it has room for every page between the
ranges, which is 256 MiB, the last range does not end with the address space, and an `int`
counts the ranges. -/
theorem textMapExact_iff {ranges : List CodeRange} (h : TextPages ranges) (rest : List UInt8) :
    TextMapExact ranges rest ↔ MapFits ranges :=
  ⟨fits_of_textMapExact h, fun hFits => textMapExact_of_fits h hFits rest⟩

def nearText : List CodeRange := [⟨0x10000, 0x1000⟩, ⟨0x12000, 0x3000⟩]

theorem textMapExact_near : TextPages nearText ∧ TextMapExact nearText [] := by
  have hPages : TextPages nearText := by constructor <;> decide
  exact ⟨hPages, (textMapExact_iff hPages []).mpr (by constructor <;> decide)⟩

def farText : List CodeRange := [⟨0x10000, 0x1000⟩, ⟨0x10010000, 0x1000⟩]

/-- The page of the library is entry 65536 of the map, which has 65536 entries. -/
theorem textMap_overrun :
    TextPages farText ∧ initReadCkpt (rangeTable farText) = none ∧ ¬ TextMapExact farText [] := by
  have hPages : TextPages farText := by constructor <;> decide
  obtain ⟨callinfo, hInit⟩ := hPages.initReadCkpt_eq []
  have hLibrary : ∀ ckptinst_map : List UInt8, ckptinst_map.length = ctMapsize →
      mapRange 0x10000 ckptinst_map ⟨0x10010000, 0x1000⟩ = none := by
    intro ckptinst_map hLength
    have hPage : mapRange 0x10000 ckptinst_map ⟨0x10010000, 0x1000⟩ =
        markPages ckptinst_map ctMapsize 1 := by
      simp [mapRange, uint32, uint64, ctMapsize]
    rw [hPage, markPages, hLength, if_neg (Nat.lt_irrefl _)]
  have hProgram : ∀ ckptinst_map : List UInt8, ckptinst_map.length = ctMapsize →
      mapRange 0x10000 ckptinst_map ⟨0x10000, 0x1000⟩ = some (ckptinst_map.set 0 1) := by
    intro ckptinst_map hLength
    have hPage : mapRange 0x10000 ckptinst_map ⟨0x10000, 0x1000⟩ = markPages ckptinst_map 0 1 := by
      simp [mapRange, uint32, uint64]
    rw [hPage, markPages, hLength, if_pos (by decide), markPages]
  have hFold : ∀ blank : List UInt8, blank.length = ctMapsize →
      farText.foldlM (mapRange 0x10000) blank = none := by
    intro blank hBlank
    rw [farText, List.foldlM_cons, hProgram blank hBlank, Option.bind_eq_bind, Option.bind_some,
      List.foldlM_cons, hLibrary _ (List.length_set.trans hBlank), Option.bind_eq_bind,
      Option.bind_none]
  have hStart : (farText.head?.map CodeRange.addr).getD 0x1000000000 = 0x10000 := rfl
  have hNone : initReadCkpt (rangeTable farText) = none := by
    rw [List.append_nil] at hInit
    rw [hInit, if_pos (by decide), hStart, hFold _ List.length_replicate, Option.map_none]
  refine ⟨hPages, hNone, ?_⟩
  rintro ⟨ckpt, hCkpt, -⟩
  rw [List.append_nil, hNone] at hCkpt
  exact absurd hCkpt (by simp)

end RiscvCkpt
