import RiscvCkpt.Create.Interval

/-! The address space of the simulated process: its memory areas, the pages that have
memory behind them, and the system calls that change both. An area gets its pages when
they are first accessed; pages are taken away by `unmapRegion` only. -/
namespace RiscvCkpt

open ByteMemory MachineInt

/-- A virtual memory area, and the `AddrRange` it is compared with. No file stands behind
it: a new page reads as zero. -/
structure VMA where
  start : Nat
  stop : Nat
  deriving DecidableEq, Repr

namespace VMA

def isStrictSuperset (vma range : VMA) : Bool := range.start > vma.start ∧ range.stop < vma.stop

def isSubset (vma range : VMA) : Bool := vma.start ≥ range.start ∧ vma.stop ≤ range.stop

def intersects (vma range : VMA) : Bool := ¬ (vma.start ≥ range.stop ∨ vma.stop ≤ range.start)

def contains (vma : VMA) (a : Nat) : Bool := vma.start ≤ a ∧ a < vma.stop

/-- `sanityCheck`. A failed assertion ends the simulation. -/
def sanityCheck (vma : VMA) : Option VMA :=
  if vma.start < vma.stop ∧ vma.start % 4096 = 0 ∧ vma.stop % 4096 = 0 then some vma else none

end VMA

def roundUp (n : Nat) : Nat := (n + 4095) % 2 ^ 64 / 4096 * 4096

/-- `MemState`, with the page table of its process and what its pages hold. -/
structure MemState where
  vmaList : List VMA
  pTable : Nat → Bool
  memory : Memory
  brkPoint : Nat
  endBrkPoint : Nat
  mmapEnd : Nat
  stackBase : Nat
  stackMin : Nat
  maxStackSize : Nat

namespace MemState

/-- `none` where the source panics: a page without an area. -/
def isUnmapped (s : MemState) (start_addr length : Nat) : Option Bool :=
  let end_addr := (start_addr + length) % 2 ^ 64
  if s.vmaList.any (·.intersects ⟨start_addr, end_addr⟩) then some false
  else if (List.range ((end_addr - start_addr + 4095) / 4096)).any
      fun i => s.pTable (pageOf (start_addr + 4096 * i)) then none
  else some true

def mapRegion (s : MemState) (start_addr length : Nat) : Option MemState :=
  (s.isUnmapped start_addr length).bind fun free =>
    if free then
      (VMA.sanityCheck ⟨start_addr, (start_addr + length) % 2 ^ 64⟩).map fun vma =>
        { s with vmaList := s.vmaList ++ [vma] }
    else none

/-- The loop of `unmapRegion` over the areas. A split ends it: the right part stays in
place, the left part is a copy at the end of the list. -/
def unmapVmas (range : VMA) : List VMA → Option (List VMA)
  | [] => some []
  | vma :: rest =>
      if vma.isStrictSuperset range then
        (VMA.sanityCheck ⟨vma.start, range.start⟩).bind fun left =>
          (VMA.sanityCheck ⟨range.stop, vma.stop⟩).map fun right => right :: rest ++ [left]
      else if vma.isSubset range then unmapVmas range rest
      else if vma.intersects range then
        (VMA.sanityCheck (if vma.start < range.start then ⟨vma.start, range.start⟩
          else ⟨range.stop, vma.stop⟩)).bind fun part => (unmapVmas range rest).map (part :: ·)
      else (unmapVmas range rest).map (vma :: ·)

/-- `MemState::unmapRegion`, for a page and a multiple of the page size. The loop over the
pages runs at least once, so a length of zero wraps around and takes every page. -/
def unmapRegion (s : MemState) (start_addr length : Nat) : Option MemState :=
  (unmapVmas ⟨start_addr, (start_addr + length) % 2 ^ 64⟩ s.vmaList).map fun vmas =>
    let bytes := if length = 0 then 2 ^ 64 else length
    { s with
      vmaList := vmas
      pTable := fun page => s.pTable page && !decide (uint64 ((page : Int) - start_addr) < bytes) }

/-- `MemState::updateBrkRegion`. The areas of the heap never shrink. -/
def updateBrkRegion (s : MemState) (old_brk new_brk : Nat) : Option MemState :=
  if new_brk < old_brk then some { s with brkPoint := new_brk }
  else
    let page_aligned_brk := roundUp new_brk
    if page_aligned_brk > s.endBrkPoint then
      let length := page_aligned_brk - s.endBrkPoint
      (s.isUnmapped s.endBrkPoint length).bind fun free =>
        if free then
          (s.mapRegion s.endBrkPoint length).map fun s =>
            { s with endBrkPoint := page_aligned_brk, brkPoint := new_brk }
        else some s
    else some { s with brkPoint := new_brk }

/-- The search of `extendMmap` for free addresses, which grows upwards on this machine. It
is tried once for every page of the address space. -/
def extendFrom (s : MemState) (length : Nat) : Nat → Nat → Option Nat
  | 0, _ => none
  | tries + 1, start =>
      (s.isUnmapped start length).bind fun free =>
        if free then some start else s.extendFrom length tries ((start + 4096) % 2 ^ 64)

def extendMmap (s : MemState) (length : Nat) : Option (MemState × Nat) :=
  (s.extendFrom length (2 ^ 52) s.mmapEnd).map fun start =>
    ({ s with mmapEnd := (start + length) % 2 ^ 64 }, start)

def einval : Nat := uint64 (-22)

def brkFunc (s : MemState) (new_brk : Nat) : Option (MemState × Nat) :=
  if new_brk = 0 ∨ new_brk = s.brkPoint then some (s, s.brkPoint)
  else (s.updateBrkRegion s.brkPoint new_brk).map fun s => (s, s.brkPoint)

def munmapFunc (s : MemState) (start length : Nat) : Option (MemState × Nat) :=
  if start % 4096 ≠ 0 then some (s, einval)
  else (s.unmapRegion start (roundUp length)).map fun s => (s, 0)

/-- Where `mmapFunc` maps: at `MAP_FIXED` addresses, at a hint that is free, or behind the
earlier mappings. -/
def mmapPlace (s : MemState) (start length : Nat) (fixed : Bool) : Option (MemState × Nat) :=
  if fixed then (s.unmapRegion start length).map fun s => (s, start)
  else if start = 0 then s.extendMmap length
  else (s.isUnmapped start length).bind fun free =>
    if free then some (s, start) else s.extendMmap length

/-- `mmapFunc` for `MAP_ANONYMOUS` (bit 5); `MAP_SHARED`, `MAP_PRIVATE` and `MAP_FIXED` are
the bits 0, 1 and 4. Mappings of files are not modelled. -/
def mmapFunc (s : MemState) (start length tgt_flags offset : Nat) : Option (MemState × Nat) :=
  if start % 4096 ≠ 0 ∨ offset % 4096 ≠ 0 ∨ tgt_flags.testBit 1 = tgt_flags.testBit 0 ∨
    length = 0 then
    some (s, einval)
  else if ¬ tgt_flags.testBit 5 then none
  else
    (s.mmapPlace start (roundUp length) (tgt_flags.testBit 4)).bind fun placed =>
      (placed.1.mapRegion placed.2 (roundUp length)).map fun s => (s, placed.2)

/-- The calls of the 64-bit table that change the address space; `none` for all others. -/
def doSyscall (s : MemState) (regs : Nat → Nat) : Option (MemState × Nat) :=
  if regs 17 = 214 then s.brkFunc (regs 10)
  else if regs 17 = 215 then s.munmapFunc (regs 10) (regs 11)
  else if regs 17 = 222 ∨ regs 17 = 1058 then s.mmapFunc (regs 10) (regs 11) (regs 13) (regs 15)
  else none

/-- `allocateMem` for one page, which must not be mapped yet to have an effect. -/
def allocateMem (s : MemState) (page : Nat) : MemState :=
  if s.pTable page then s
  else
    { s with
      pTable := Function.update s.pTable page true
      memory := fun b => if pageOf b = page then 0 else s.memory b }

/-- The loop of `fixupFault` that extends the stack by a number of pages. -/
def growStack (s : MemState) : Nat → Option MemState
  | 0 => some s
  | n + 1 =>
      let stackMin := uint64 ((s.stackMin : Int) - 4096)
      if uint64 ((s.stackBase : Int) - stackMin) > s.maxStackSize ∨ stackMin % 4096 ≠ 0 then none
      else ({ s with stackMin := stackMin }.allocateMem stackMin).growStack n

def fixupFault (s : MemState) (vaddr : Nat) : Option MemState :=
  if s.vmaList.any (·.contains vaddr) then some (s.allocateMem (pageOf vaddr))
  else if vaddr ≥ s.stackMin ∧ vaddr < s.stackBase then some (s.allocateMem (pageOf vaddr))
  else if vaddr < s.stackMin ∧ vaddr ≥ uint64 ((s.stackBase : Int) - s.maxStackSize) then
    s.growStack ((s.stackMin - vaddr + 4095) / 4096)
  else none

/-- Translate one address, with the fault that a missing page raises. -/
def touch (s : MemState) (vaddr : Nat) : Option MemState :=
  if s.pTable (pageOf vaddr) then some s
  else (s.fixupFault vaddr).filter fun s => s.pTable (pageOf vaddr)

/-- Translate an access: the page it starts on, and the page it ends on. -/
def access (s : MemState) (addr size : Nat) : Option MemState :=
  (s.touch addr).bind fun s => s.touch (addr + size - 1)

/-- What the process sees: pages that are not there yet will read as zero. -/
def view (s : MemState) : Memory := fun b => if s.pTable (pageOf b) then s.memory b else 0

/-- Pages are added, and what the process sees stays the same. -/
structure Faults (s s' : MemState) : Prop where
  pages : ∀ page, s.pTable page → s'.pTable page
  view : s'.view = s.view

theorem Faults.refl (s : MemState) : s.Faults s := ⟨fun _ h => h, rfl⟩

theorem Faults.trans {s s' s'' : MemState} (h : s.Faults s') (h' : s'.Faults s'') : s.Faults s'' :=
  ⟨fun page hPage => h'.pages page (h.pages page hPage), h'.view.trans h.view⟩

/-- Allocating a page leaves what the process sees as it is. -/
theorem allocateMem_faults (s : MemState) (page : Nat) : s.Faults (s.allocateMem page) := by
  rw [allocateMem]
  split
  · exact Faults.refl s
  · next hFree =>
      refine ⟨fun p hp => ?_, ?_⟩
      · have hNot : p ≠ page := fun hSame => hFree (hSame ▸ hp)
        exact (Function.update_of_ne hNot ..).trans hp
      · funext b
        by_cases hSame : pageOf b = page
        · simp only [view, hSame, Function.update_self, if_true]
          rw [if_neg hFree]
        · simp only [view, Function.update_of_ne hSame, if_neg hSame]

theorem growStack_faults {s s' : MemState} {n : Nat} (h : s.growStack n = some s') :
    s.Faults s' := by
  induction n generalizing s with
  | zero =>
      obtain rfl : s = s' := Option.some.inj h
      exact Faults.refl s
  | succ n ih =>
      rw [growStack] at h
      split at h
      · exact absurd h (Option.some_ne_none s').symm
      · have hFirst := allocateMem_faults { s with stackMin := uint64 ((s.stackMin : Int) - 4096) }
          (uint64 ((s.stackMin : Int) - 4096))
        exact Faults.trans ⟨hFirst.pages, hFirst.view⟩ (ih h)

theorem fixupFault_faults {s s' : MemState} {vaddr : Nat} (h : s.fixupFault vaddr = some s') :
    s.Faults s' := by
  rw [fixupFault] at h
  split at h
  · obtain rfl := Option.some.inj h
    exact allocateMem_faults s _
  · split at h
    · obtain rfl := Option.some.inj h
      exact allocateMem_faults s _
    · split at h
      · exact growStack_faults h
      · exact absurd h (Option.some_ne_none s').symm

/-- An address that has been translated is on a page that is there. -/
theorem touch_spec {s s' : MemState} {vaddr : Nat} (h : s.touch vaddr = some s') :
    s.Faults s' ∧ s'.pTable (pageOf vaddr) := by
  rw [touch] at h
  split at h
  · next hThere =>
      obtain rfl := Option.some.inj h
      exact ⟨Faults.refl s, hThere⟩
  · rw [Option.filter_eq_some_iff] at h
    exact ⟨fixupFault_faults h.1, h.2⟩

/-- Behind a translation, every byte of the access has its page. -/
theorem access_spec {s s' : MemState} {addr size : Nat} (hSize : size ≤ 8)
    (h : s.access addr size = some s') :
    s'.view = s.view ∧ ∀ b, addr ≤ b → b < addr + size → s'.pTable (pageOf b) := by
  obtain ⟨middle, hFirst, hLast⟩ := Option.bind_eq_some_iff.mp h
  obtain ⟨hStart, hThere⟩ := touch_spec hFirst
  obtain ⟨hStop, hEnd⟩ := touch_spec hLast
  refine ⟨(hStart.trans hStop).view, fun b hLow hHigh => ?_⟩
  have hPage : pageOf b = pageOf addr ∨ pageOf b = pageOf (addr + size - 1) := by
    simp only [pageOf]
    omega
  rcases hPage with hPage | hPage
  · rw [hPage]
    exact hStop.pages _ hThere
  · rw [hPage]
    exact hEnd

/-- Pages are taken away, and nothing else happens to memory. -/
structure Remaps (s s' : MemState) : Prop where
  pages : ∀ page, s'.pTable page → s.pTable page
  memory : s'.memory = s.memory

theorem Remaps.refl (s : MemState) : s.Remaps s := ⟨fun _ h => h, rfl⟩

theorem Remaps.trans {s s' s'' : MemState} (h : s.Remaps s') (h' : s'.Remaps s'') : s.Remaps s'' :=
  ⟨fun page hPage => h.pages page (h'.pages page hPage), h'.memory.trans h.memory⟩

theorem mapRegion_remaps {s s' : MemState} {start length : Nat}
    (h : s.mapRegion start length = some s') : s.Remaps s' := by
  obtain ⟨free, -, hMap⟩ := Option.bind_eq_some_iff.mp h
  split at hMap
  · obtain ⟨vma, -, rfl⟩ := Option.map_eq_some_iff.mp hMap
    exact ⟨fun _ hPage => hPage, rfl⟩
  · exact absurd hMap (Option.some_ne_none s').symm

theorem unmapRegion_remaps {s s' : MemState} {start length : Nat}
    (h : s.unmapRegion start length = some s') : s.Remaps s' := by
  obtain ⟨vmas, -, rfl⟩ := Option.map_eq_some_iff.mp h
  exact ⟨fun page hPage => (Bool.and_eq_true_iff.mp hPage).1, rfl⟩

theorem brkFunc_remaps {s s' : MemState} {new_brk ret : Nat}
    (h : s.brkFunc new_brk = some (s', ret)) : s.Remaps s' := by
  rw [brkFunc] at h
  split at h
  · obtain ⟨rfl, -⟩ := Prod.mk.inj (Option.some.inj h)
    exact Remaps.refl s
  · obtain ⟨changed, hBrk, hSame⟩ := Option.map_eq_some_iff.mp h
    obtain ⟨rfl, -⟩ := Prod.mk.inj hSame
    rw [updateBrkRegion] at hBrk
    split at hBrk
    · obtain rfl := Option.some.inj hBrk
      exact ⟨fun _ hPage => hPage, rfl⟩
    · simp only at hBrk
      split at hBrk
      · obtain ⟨free, -, hMap⟩ := Option.bind_eq_some_iff.mp hBrk
        split at hMap
        · obtain ⟨mapped, hMapped, rfl⟩ := Option.map_eq_some_iff.mp hMap
          exact (mapRegion_remaps hMapped).trans ⟨fun _ hPage => hPage, rfl⟩
        · obtain rfl := Option.some.inj hMap
          exact Remaps.refl _
      · obtain rfl := Option.some.inj hBrk
        exact ⟨fun _ hPage => hPage, rfl⟩

theorem munmapFunc_remaps {s s' : MemState} {start length ret : Nat}
    (h : s.munmapFunc start length = some (s', ret)) : s.Remaps s' := by
  rw [munmapFunc] at h
  split at h
  · obtain ⟨rfl, -⟩ := Prod.mk.inj (Option.some.inj h)
    exact Remaps.refl s
  · obtain ⟨changed, hUnmap, hSame⟩ := Option.map_eq_some_iff.mp h
    obtain ⟨rfl, -⟩ := Prod.mk.inj hSame
    exact unmapRegion_remaps hUnmap

theorem extendMmap_remaps {s s' : MemState} {length place : Nat}
    (h : s.extendMmap length = some (s', place)) : s.Remaps s' := by
  obtain ⟨start, -, hSame⟩ := Option.map_eq_some_iff.mp h
  obtain ⟨rfl, -⟩ := Prod.mk.inj hSame
  exact ⟨fun _ hPage => hPage, rfl⟩

theorem mmapPlace_remaps {s s' : MemState} {start length place : Nat} {fixed : Bool}
    (h : s.mmapPlace start length fixed = some (s', place)) : s.Remaps s' := by
  rw [mmapPlace] at h
  split at h
  · obtain ⟨changed, hUnmap, hSame⟩ := Option.map_eq_some_iff.mp h
    obtain ⟨rfl, -⟩ := Prod.mk.inj hSame
    exact unmapRegion_remaps hUnmap
  · split at h
    · exact extendMmap_remaps h
    · obtain ⟨free, -, hPlace⟩ := Option.bind_eq_some_iff.mp h
      split at hPlace
      · obtain ⟨rfl, -⟩ := Prod.mk.inj (Option.some.inj hPlace)
        exact Remaps.refl s
      · exact extendMmap_remaps hPlace

/-- `mmap` takes away at most pages. -/
theorem mmapFunc_remaps {s s' : MemState} {start length tgt_flags offset ret : Nat}
    (h : s.mmapFunc start length tgt_flags offset = some (s', ret)) : s.Remaps s' := by
  rw [mmapFunc] at h
  split at h
  · obtain ⟨rfl, -⟩ := Prod.mk.inj (Option.some.inj h)
    exact Remaps.refl s
  · split at h
    · exact absurd h (Option.some_ne_none _).symm
    · obtain ⟨placed, hPlace, hMap⟩ := Option.bind_eq_some_iff.mp h
      obtain ⟨mapped, hMapped, hSame⟩ := Option.map_eq_some_iff.mp hMap
      obtain ⟨rfl, -⟩ := Prod.mk.inj hSame
      exact (mmapPlace_remaps hPlace).trans (mapRegion_remaps hMapped)

/-- The system calls never add a page or change one that stays. -/
theorem doSyscall_remaps {s s' : MemState} {regs : Nat → Nat} {ret : Nat}
    (h : s.doSyscall regs = some (s', ret)) : s.Remaps s' := by
  rw [doSyscall] at h
  split at h
  · exact brkFunc_remaps h
  · split at h
    · exact munmapFunc_remaps h
    · split at h
      · exact mmapFunc_remaps h
      · exact absurd h (Option.some_ne_none _).symm

end MemState

end RiscvCkpt
