import RiscvCkpt.Restore.Coverage

/-! The space of the loader. The code and data of `readckpt` lie where no program is
expected to have its own; the question is whether the mappings that restore a checkpoint
stay away from it. Regions, the page behind a buffer and the page that both mapping
functions add can reach into it from outside. -/
namespace RiscvCkpt

open MachineInt CkptInfo

/-- Where the linker script puts `readckpt`. -/
def loaderStart : Nat := 0x1000000

/-- The initial `brk` of programs under `gem5`, which `readckpt` stays below. -/
def loaderStop : Nat := 0x1400000

def InLoader (b : Nat) : Prop := loaderStart ≤ b ∧ b < loaderStop

/-- All executed instructions, loads, stores, first loads and output buffers of the
interval lie outside the loader. -/
structure OutsideLoader (events : List Event) (ckpt : CkptInfo) : Prop where
  insts : ∀ pc ∈ executedPcs events, ∀ b, pc ≤ b → b < pc + 4 → ¬ InLoader b
  accesses : ∀ event ∈ events, ∀ b, event.Accesses b → ¬ InLoader b
  buffers : ∀ call ∈ ckpt.sysinfos, ∀ b, call.bufaddr ≤ b → b < call.bufaddr + call.data.length →
    ¬ InLoader b
  firstloads : ∀ load ∈ ckpt.firstloads, ∀ b, load.addr ≤ b → b < load.addr + 8 → ¬ InLoader b

/-- The range is mapped beside the loader. -/
def ApartFromLoader (r : MemRangeInfo) : Prop := r.stop ≤ loaderStart ∨ loaderStop ≤ r.addr

instance : DecidablePred ApartFromLoader := fun _ => inferInstanceAs (Decidable (_ ∨ _))

/-- Neither `loadelf` nor `alloc_memrange` maps anything over the loader that calls them. -/
def SparesLoader (textrange memrange : List MemRangeInfo) : Prop :=
  ApartFromLoader (textSeg textrange) ∧
    ∀ r ∈ memrange, r.size ≠ 0 → ApartFromLoader ⟨r.addr, r.size + 4096⟩

instance (textrange memrange : List MemRangeInfo) : Decidable (SparesLoader textrange memrange) :=
  inferInstanceAs (Decidable (_ ∧ _))

/-- The bytes around which an interval makes the restorer map memory: those that it accesses,
those around the output of a call, and those less than eight bytes behind a loaded one. -/
def BookedNear (events : List Event) (b : Nat) : Prop :=
  (∃ event ∈ events, event.Accesses b) ∨
    (∃ call ∈ events.foldl callStep [], call.data ≠ [] ∧ pageOf call.bufaddr ≤ b ∧
      b ≤ call.bufaddr + call.data.length + 4096) ∨
    ∃ event ∈ events, ∃ byte, event.Loads byte ∧ byte.1 ≤ b ∧ b < byte.1 + 8

/-- Code and data of the interval are away from the loader. -/
structure AwayFromLoader (events : List Event) : Prop where
  text : textStop events + 4096 ≤ loaderStart ∨ loaderStop ≤ textStart events
  data : ∀ b, BookedNear events b →
    b + AccessRange < loaderStart ∨ loaderStop ≤ b ∨
      regionOf b + AccessRange ≤ uint64 (int32 (textStop events))

/-- A mapped region without a byte in the loader lies beside it. -/
theorem apartFromLoader_of_none {r : MemRangeInfo} (hSize : 0 < r.size)
    (h : ∀ b, r.Holds b → ¬ InLoader b) : ApartFromLoader r := by
  by_contra hNot
  have hFirst := h (max r.addr loaderStart)
  simp only [ApartFromLoader, CodeRange.Holds, CodeRange.stop, InLoader, loaderStart,
    loaderStop] at *
  omega

section Interval

variable (interval : GuestInterval) (stack : Nat → Nat → UInt8) (exist : Nat → UInt8)
  {start : CkptInfo} (exit_place exit_pc : Nat)

/-- What the memory ranges map: up to a page behind every byte of a booked region that
is left by the cut. -/
theorem memrange_mapped (hStart : start.Started) (b : Nat) :
    let ckpt := (start.hooks stack interval.events).close exist exit_place exit_pc
    (∃ r ∈ ckpt.memrange, r.size ≠ 0 ∧ r.addr ≤ b ∧ b < r.addr + r.size + 4096) ↔
      ∃ u, uint64 (int32 (textStop interval.events)) ≤ u ∧
        (∃ b', Booked interval.events ckpt b' ∧ regionOf u = regionOf b') ∧ u ≤ b ∧
        b ≤ u + 4096 := by
  intro ckpt
  obtain ⟨hAbove, hHolds⟩ := close_memrange interval stack exist exit_place exit_pc hStart
  constructor
  · rintro ⟨r, hr, -, hLow, hHigh⟩
    -- the byte itself, or the last one of its range
    have hSize := (hAbove r hr).2
    have hLast : r.Holds (min b (r.addr + r.size - 1)) := by
      simp only [CodeRange.Holds, CodeRange.stop]
      omega
    obtain ⟨hCut, hKnown⟩ := (hHolds _).mp ⟨r, hr, hLast⟩
    exact ⟨_, hCut, hKnown, Nat.min_le_left .., by omega⟩
  · rintro ⟨u, hCut, hKnown, hLow, hHigh⟩
    obtain ⟨r, hr, hIn⟩ := (hHolds u).mpr ⟨hCut, hKnown⟩
    have hStop : u < r.addr + r.size := hIn.2
    exact ⟨r, hr, Nat.pos_iff_ne_zero.mp (hAbove r hr).2, hIn.1.trans hLow, by omega⟩

/-- A booked region and the page behind it stay away from the loader, or the cut
removes them. -/
theorem region_apart {k cut : Nat} (hRegion : regionOf k = k) :
    (∀ b, InLoader b → ¬ ∃ u, cut ≤ u ∧ regionOf u = k ∧ u ≤ b ∧ b ≤ u + 4096) ↔
      k + AccessRange + AccessRange ≤ loaderStart ∨ loaderStop ≤ k ∨ k + AccessRange ≤ cut := by
  simp only [regionOf, AccessRange] at hRegion
  constructor
  · intro hApart
    by_cases hCut : k + 8192 ≤ cut
    · exact Or.inr (Or.inr hCut)
    · -- the last byte of the region is left
      have hQuotient : (k + 8191) / 8192 = k / 8192 := by omega
      have hLast : regionOf (k + 8191) = k := by
        rw [regionOf, AccessRange, hQuotient]
        exact hRegion
      have hNone : ∀ b, InLoader b → ¬ (k + 8191 ≤ b ∧ b ≤ k + 8191 + 4096) := by
        intro b hb hNear
        exact hApart b hb ⟨k + 8191, by omega, hLast, hNear⟩
      have hFirst : ¬ (k + 8191 ≤ 0x1000000 ∧ 0x1000000 ≤ k + 8191 + 4096) :=
        hNone loaderStart ⟨Nat.le_refl _, by decide⟩
      have hOwn : ¬ (0x1000000 ≤ k + 8191 ∧ k + 8191 < 0x1400000) := fun hIn =>
        hNone (k + 8191) hIn ⟨Nat.le_refl _, Nat.le_add_right ..⟩
      clear hNone hApart hLast
      simp only [loaderStart, loaderStop, AccessRange]
      omega
  · rintro hApart b hb ⟨u, hCut, hOwn, hLow, hHigh⟩
    simp only [InLoader, loaderStart, loaderStop, AccessRange, regionOf] at *
    omega

/-- Nothing is mapped over the loader if and only if text and booked regions stay away from it. -/
theorem mapped_apart_iff (hStart : start.Started) :
    let ckpt := (start.hooks stack interval.events).close exist exit_place exit_pc
    (∀ b, Mapped ckpt b → ¬ InLoader b) ↔
    (textStop interval.events + 4096 ≤ loaderStart ∨ loaderStop ≤ textStart interval.events) ∧
    ∀ b, Booked interval.events ckpt b →
      b + AccessRange < loaderStart ∨ loaderStop ≤ b ∨
        regionOf b + AccessRange ≤ uint64 (int32 (textStop interval.events)) := by
  intro ckpt
  obtain ⟨hText, -⟩ := close_text interval stack exist exit_place exit_pc hStart
  have hOrder := (text_bounds interval.executes interval.guest).1
  have hSeg : (∀ b, (textStart interval.events ≤ b ∧ b < textStop interval.events + 4096) →
      ¬ InLoader b) ↔
      textStop interval.events + 4096 ≤ loaderStart ∨ loaderStop ≤ textStart interval.events := by
    constructor
    · intro hApart
      have hFirst := hApart (textStart interval.events)
      have hLoader := hApart loaderStart
      simp only [InLoader, loaderStart, loaderStop] at *
      omega
    · rintro hApart b hb hIn
      simp only [InLoader, loaderStart, loaderStop] at *
      omega
  have hBooked : ∀ b', (∀ b, InLoader b → ¬ ∃ u, uint64 (int32 (textStop interval.events)) ≤ u ∧
      regionOf u = regionOf b' ∧ u ≤ b ∧ b ≤ u + 4096) ↔
      b' + AccessRange < loaderStart ∨ loaderStop ≤ b' ∨
        regionOf b' + AccessRange ≤ uint64 (int32 (textStop interval.events)) := by
    intro b'
    have hRegion : regionOf (regionOf b') = regionOf b' := by
      simp only [regionOf, AccessRange]
      omega
    rw [region_apart hRegion]
    simp only [regionOf, AccessRange, loaderStart, loaderStop]
    omega
  rw [← hSeg]
  constructor
  · intro hApart
    refine ⟨fun b hb => hApart b (Or.inl ((hText b).mpr hb)), fun b' hb' => (hBooked b').mp ?_⟩
    rintro b hb ⟨u, hCut, hOwn, hNear⟩
    refine hApart b (Or.inr ?_) hb
    exact (memrange_mapped interval stack exist exit_place exit_pc hStart b).mpr
      ⟨u, hCut, ⟨b', hb', hOwn⟩, hNear⟩
  · rintro ⟨hSegApart, hAll⟩ b (hb | hb) hIn
    · exact hSegApart b ((hText b).mp hb) hIn
    · obtain ⟨u, hCut, ⟨b', hb', hOwn⟩, hNear⟩ :=
        (memrange_mapped interval stack exist exit_place exit_pc hStart b).mp hb
      exact (hBooked b').mpr (hAll b' hb') b hIn ⟨u, hCut, hOwn, hNear⟩

/-- Restoring leaves the loader alone exactly if the text from its lowest page to a page
behind its highest one is apart from it, and every booked byte lies more than a region
below it, or above it, or in a region that the cut at the end of the text removes. -/
theorem loader_untouched_iff (hStart : start.Started) {ckpt : CkptInfo}
    (hOver : (start.hooks stack interval.events).detectOver exist exit_place exit_pc = some ckpt) :
    (∀ b, Mapped ckpt b → ¬ InLoader b) ↔
    (textStop interval.events + 4096 ≤ loaderStart ∨ loaderStop ≤ textStart interval.events) ∧
    ∀ b, Booked interval.events ckpt b →
      b + AccessRange < loaderStart ∨ loaderStop ≤ b ∨
        regionOf b + AccessRange ≤ uint64 (int32 (textStop interval.events)) := by
  simp only [detectOver, Option.ite_none_right_eq_some, Option.some.injEq] at hOver
  obtain ⟨-, rfl⟩ := hOver
  exact mapped_apart_iff interval stack exist exit_place exit_pc hStart

/-- The checkpoint of an interval away from the loader. -/
theorem AwayFromLoader.spares (h : AwayFromLoader interval.events) (hStart : start.Started) :
    let ckpt := (start.hooks stack interval.events).close exist exit_place exit_pc
    SparesLoader ckpt.textrange ckpt.memrange := by
  have hApart := (mapped_apart_iff interval stack exist exit_place exit_pc hStart).mpr
    ⟨h.text, fun b hb => h.data b ?_⟩
  · refine ⟨apartFromLoader_of_none ?_ fun b hb => hApart b (Or.inl hb), fun r hr hSize =>
      apartFromLoader_of_none (Nat.add_pos_right _ (by decide)) fun b hb => hApart b (Or.inr ?_)⟩
    · have hFirst := (close_text interval stack exist exit_place exit_pc hStart).1
        (textStart interval.events)
      have hOrder := (text_bounds interval.executes interval.guest).1
      simp only [CodeRange.Holds, CodeRange.stop] at hFirst
      omega
    · exact ⟨r, hr, hSize, hb.1, by simpa only [CodeRange.stop, Nat.add_assoc] using hb.2⟩
  · rcases hb with hAccess | ⟨call, hCall, hRest⟩ | ⟨load, hLoad, hLow, hHigh⟩
    · exact Or.inl hAccess
    · rw [close_sysinfos, hooks_sysinfos, hStart.sysinfos] at hCall
      exact Or.inr (Or.inl ⟨call, hCall, hRest⟩)
    · obtain ⟨v, event, hEvent, hLoads⟩ := firstload_source interval stack hStart hLoad
      exact Or.inr (Or.inr ⟨event, hEvent, _, hLoads, hLow, hHigh⟩)

end Interval

section Sample

variable {addr : Nat} (h : addr < 2 ^ 63)

def loadedCkpt : CkptInfo :=
  (sampleStart.hooks (fun _ _ => 0) (loadAt addr h).events).close (fun _ => 0) 6 0x20000

theorem loadedCkpt_over : (sampleStart.hooks (fun _ _ => 0) (loadAt addr h).events).detectOver
    (fun _ => 0) 6 0x20000 = some (loadedCkpt h) := by
  obtain ⟨hStart, hLength⟩ := hooks_place (fun _ _ => 0) sampleStart (loadAt addr h).events
  rw [detectOver, hStart, hLength]
  rfl

theorem loadAt_accesses {b : Nat} (hb : ∃ event ∈ (loadAt addr h).events, event.Accesses b) :
    addr ≤ b ∧ b < addr + 8 := by
  obtain ⟨event, hEvent, hAccess⟩ := hb
  simp only [loadAt, List.mem_cons, List.not_mem_nil, or_false] at hEvent
  rcases hEvent with rfl | rfl
  · exact hAccess
  · exact hAccess.elim

end Sample

theorem loadedCkpt_low : (loadedCkpt (by decide : 0x30000 < 2 ^ 63)).firstloads =
    [⟨0x30000, [1, 2, 3, 4, 5, 6, 7, 8]⟩] := by decide +kernel

theorem loadedCkpt_edge : (loadedCkpt (by decide : 0xfff000 < 2 ^ 63)).firstloads =
    [⟨0xfff000, [1, 2, 3, 4, 5, 6, 7, 8]⟩] := by decide +kernel

/-- Data well below the loader does it no harm. -/
theorem loader_untouched_low :
    (sampleStart.hooks (fun _ _ => 0) (loadAt 0x30000 (by decide)).events).detectOver
      (fun _ => 0) 6 0x20000 =
      some (loadedCkpt (by decide : 0x30000 < 2 ^ 63)) ∧
    ∀ b, Mapped (loadedCkpt (by decide : 0x30000 < 2 ^ 63)) b → ¬ InLoader b := by
  refine ⟨loadedCkpt_over _,
    (loader_untouched_iff (loadAt 0x30000 (by decide)) (fun _ _ => 0) (fun _ => 0)
    6 0x20000 (create_started 5 1 0 [] [] 0 0x20000) (loadedCkpt_over _)).mpr ⟨Or.inl (by decide),
    ?_⟩⟩
  have hLow : ∀ b, 0x30000 ≤ b ∧ b < 0x30000 + 8 → b + AccessRange < loaderStart := by
    intro b hb
    simp only [AccessRange, loaderStart]
    omega
  rintro b (hb | ⟨call, hCall, -⟩ | ⟨load, hLoad, hb⟩)
  · exact Or.inl (hLow b (loadAt_accesses _ hb))
  · exact absurd hCall List.not_mem_nil
  · rw [loadedCkpt_low, List.mem_singleton] at hLoad
    rw [hLoad] at hb
    exact Or.inl (hLow b hb)

/-- A load from the last page below the loader: everything lies outside of it, and yet
the first page of the loader is mapped anew. -/
theorem loader_overwritten :
    ∃ ckpt, (sampleStart.hooks (fun _ _ => 0) (loadAt 0xfff000 (by decide)).events).detectOver
      (fun _ => 0) 6 0x20000 = some ckpt ∧
      OutsideLoader (loadAt 0xfff000 (by decide)).events ckpt ∧
      Mapped ckpt loaderStart ∧ InLoader loaderStart := by
  have hBelow : ∀ b, 0xfff000 ≤ b ∧ b < 0xfff000 + 8 → ¬ InLoader b := by
    rintro b hb hIn
    simp only [InLoader, loaderStart, loaderStop] at hIn
    omega
  refine ⟨_, loadedCkpt_over _, ⟨?_, ?_, ?_, ?_⟩, ?_, by decide, by decide⟩
  · intro pc hPc b hLow hHigh hIn
    have hPcs : executedPcs (loadAt 0xfff000 (by decide)).events = [0x20000] := rfl
    rw [hPcs, List.mem_singleton] at hPc
    simp only [InLoader, loaderStart, loaderStop] at hIn
    omega
  · intro event hEvent b hAccess
    exact hBelow b (loadAt_accesses _ ⟨event, hEvent, hAccess⟩)
  · intro call hCall
    exact absurd hCall List.not_mem_nil
  · intro load hLoad b hLow hHigh
    rw [loadedCkpt_edge, List.mem_singleton] at hLoad
    rw [hLoad] at hLow hHigh
    exact hBelow b ⟨hLow, hHigh⟩
  · refine Or.inr
      ((memrange_mapped (loadAt 0xfff000 (by decide)) (fun _ _ => 0) (fun _ => 0) 6 0x20000
      (create_started 5 1 0 [] [] 0 0x20000) loaderStart).mpr
        ⟨0xffffff, by decide, ⟨0xfff000, Or.inl ⟨_, List.mem_cons_self .., ?_⟩, by decide⟩,
          by decide, by decide⟩)
    exact ⟨by decide, by decide⟩

end RiscvCkpt
