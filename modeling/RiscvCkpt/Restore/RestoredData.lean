import RiscvCkpt.Restore.RestoredCode

/-! The data of a restored program. Whatever an interval loads before it stores there is in the
memory that the restorer leaves, if all that the interval touches is mapped and nothing of it
is mapped over the loader. A word of zeros is not saved, so a page must hold zeros there by
itself. -/
namespace RiscvCkpt

open ByteCodec ByteMemory MachineInt CkptInfo

/-- The interval can be restored: its text has a place in the table of `loadelf`, all that it
touches is mapped, away from the loader, the recorder books its loads right, and the blocks of
its first loads fit the reader. -/
structure Restorable (fastlz : FastLZ) (events : List Event) (ckpt : CkptInfo) : Prop where
  runs : (textRuns events).card ≤ 2048
  loader : AwayFromLoader events
  mapped : ∀ b, Touched events (events.foldl callStep []) b →
    textStart events ≤ b ∧ b < textStop events + 4096 ∨ uint64 (int32 (textStop events)) ≤ b
  booksRight : BooksRight ∅ events
  few : (firstLoads ∅ events).card < 2 ^ 31
  notNull : ∀ addr size data, .load addr size data ∈ events → addr ≠ 0
  blocks : BlocksFit fastlz ckpt.firstloads

/-- The interval loads a zero first from a page that holds code of its own. -/
def ZeroInText (events : List Event) (b : Nat) : Prop :=
  FirstLoad ∅ events (b, 0) ∧ pageOf b ∈ textPages events

/-- Outside of its ranges `loadelf` leaves the pages that it has mapped. -/
theorem loadelf_outside (elf : List UInt8) {ranges : List MemRangeInfo} {b : Nat}
    (h : ¬ ∃ r ∈ ranges, r.Holds b) (m : Memory) :
    loadelf elf ranges m b = mapFixed (textSeg ranges) m b := by
  have hRange : ∀ phdr, ∀ r ∈ ranges, ∀ state,
      (loadRange elf phdr state r).1 b = if r.Holds b then 0 else state.1 b := by
    intro phdr r hr state
    have hOut : ¬ r.Holds b := fun hb => h ⟨r, hr, hb⟩
    rw [if_neg hOut]
    simp only [CodeRange.Holds, CodeRange.stop] at hOut
    apply store_outside
    have hLength := List.length_take_le r.size
      (elf.drop (if uint64 ((r.addr : Int) - phdr.p_vaddr + phdr.p_offset) < 2 ^ 63 then
        uint64 ((r.addr : Int) - phdr.p_vaddr + phdr.p_offset) else state.2))
    omega
  cases hFind : (phdrs elf).find? fun header => header.1.isText with
  | none => simp only [loadelf, hFind]
  | some header =>
      have hFold := @foldl_read _ _ _ _ (fun state : Memory × Nat => state.1 b)
        (fun r : MemRangeInfo => r.Holds b) _ _ _ (hRange header.1)
        (mapFixed (textSeg ranges) m, header.2)
      rw [if_neg h] at hFold
      simp only [loadelf, hFind]
      exact hFold

section Interval

variable (interval : GuestInterval) (stack : Nat → Nat → UInt8) (exist : Nat → UInt8)
  {start : CkptInfo} (exit_place exit_pc : Nat) {fastlz : FastLZ}

/-- All that the interval touches is mapped. -/
theorem Restorable.touched (h : Restorable fastlz interval.events
      ((start.hooks stack interval.events).close exist exit_place exit_pc))
    (hStart : start.Started) {b : Nat}
    (hTouched : Touched interval.events (interval.events.foldl callStep []) b) :
    Mapped ((start.hooks stack interval.events).close exist exit_place exit_pc) b := by
  have hSame : (start.hooks stack interval.events).sysinfos =
      interval.events.foldl callStep [] := by
    rw [hooks_sysinfos, hStart.sysinfos]
  exact (mapped_of_touched interval stack exist exit_place exit_pc hStart
    (hSame.symm ▸ hTouched)).mpr (h.mapped b hTouched)

/-- The restorer goes through, and its memory has the first loads. -/
theorem Restorable.restores (h : Restorable fastlz interval.events
      ((start.hooks stack interval.events).close exist exit_place exit_pc))
    (hStart : start.Started) (hFresh : start.Fresh) (elf : List UInt8) {m : Memory}
    (hZeros : ∀ b, ZeroInText interval.events b → loadelf elf
      ((start.hooks stack interval.events).close exist exit_place exit_pc).textrange m b = 0)
    (after : List UInt8) :
    let ckpt := (start.hooks stack interval.events).close exist exit_place exit_pc
    let restored := writeChunks (allocMemrange ckpt.memrange (loadelf elf ckpt.textrange m))
      (savedWords ckpt)
    restoreMemory fastlz elf ckpt after m = some restored ∧
      ∀ byte, FirstLoad ∅ interval.events byte → restored byte.1 = byte.2 := by
  intro ckpt restored
  obtain ⟨-, hAddr, hCount, hMemory⟩ :=
    savedWords_memory interval stack exist exit_place exit_pc hFresh h.notNull
  have hTable := (textrange_length_le interval stack exist exit_place exit_pc hStart).trans h.runs
  have hSpares := h.loader.spares interval stack exist exit_place exit_pc hStart
  refine ⟨restoreMemory_eq fastlz elf hAddr (by omega) hTable hSpares h.blocks after m,
    fun byte hFirst => ?_⟩
  have hFit := hooks_recorded_length stack hFresh.knows interval.guest h.booksRight hFresh.loads
  have hSaved : writeChunks zero (savedWords ckpt) byte.1 = byte.2 :=
    (congrFun hMemory byte.1).trans (restoredMemory_hooks stack hFresh interval.guest h.booksRight
      (hFit.symm ▸ h.few) hFirst)
  have hWrites := writeChunks_writes (savedWords ckpt)
  by_cases hIn : Rewritten ckpt byte.1
  · rw [← hSaved]
    exact hWrites.inside byte.1 hIn _ _
  · -- a word that is not saved is zero, and so is the page
    have hZero : byte.2 = 0 := hSaved.symm.trans (hWrites.outside byte.1 hIn zero)
    have hAll : restored byte.1 = if ∃ r ∈ ckpt.memrange, r.size ≠ 0 ∧ r.addr ≤ byte.1 ∧
        byte.1 < r.addr + r.size + 4096 then 0 else loadelf elf ckpt.textrange m byte.1 := by
      rw [← allocMemrange_byte]
      exact hWrites.outside byte.1 hIn _
    rw [hAll, hZero]
    split
    · rfl
    · next hNone =>
        obtain ⟨event, hEvent, hLoads⟩ := hFirst.loads
        have hSeg := (h.touched interval stack exist exit_place exit_pc hStart
          (Or.inl ⟨event, hEvent, hLoads.accesses⟩)).resolve_right hNone
        by_cases hText : ∃ r ∈ ckpt.textrange, r.Holds byte.1
        · have hPage :=
            (textrange_holds_iff interval stack exist exit_place exit_pc hStart _).mp hText
          have hByte : (byte.1, 0) = byte := Prod.ext rfl hZero.symm
          exact hZeros byte.1 ⟨hByte.symm ▸ hFirst, hPage⟩
        · rw [loadelf_outside elf hText]
          exact if_pos hSeg

end Interval

end RiscvCkpt
