import RiscvCkpt.Create.Interval
import RiscvCkpt.Restore.UserJmp

/-! Which memory exists when a checkpoint is restored. The loader maps the text
segment and the memory ranges that are left after their overlap with the text
was removed; the question is whether that covers what the interval touches. -/
namespace RiscvCkpt

open MachineInt CkptInfo

/-- The regions that `loadelf` and `alloc_memrange` map. -/
def Mapped (ckpt : CkptInfo) (b : Nat) : Prop :=
  (textSeg ckpt.textrange).Holds b ∨
    ∃ r ∈ ckpt.memrange, r.size ≠ 0 ∧ r.addr ≤ b ∧ b < r.addr + r.size + 4096

instance (ckpt : CkptInfo) : DecidablePred (Mapped ckpt) := fun _ =>
  inferInstanceAs (Decidable (_ ∨ _))

/-- All bytes of an access are mapped. -/
def MapsAccess (mapped : Nat → Prop) (addr size : Nat) : Prop := ∀ i < size, mapped (addr + i)

instance (mapped : Nat → Prop) [DecidablePred mapped] (addr size : Nat) :
    Decidable (MapsAccess mapped addr size) :=
  inferInstanceAs (Decidable (∀ i < size, mapped (addr + i)))

/-- A byte that the interval loads or stores, or that a recorded call writes. -/
def Touched (events : List Event) (sysinfos : List SyscallInfo) (b : Nat) : Prop :=
  (∃ event ∈ events, event.Accesses b) ∨
    ∃ call ∈ sysinfos, call.bufaddr ≤ b ∧ b < call.bufaddr + call.data.length

/-- A byte whose region is booked when the checkpoint is closed: it is accessed, or it
lies around the output of a call, or in one of the first loads. -/
def Booked (events : List Event) (ckpt : CkptInfo) (b : Nat) : Prop :=
  (∃ event ∈ events, event.Accesses b) ∨
    (∃ call ∈ ckpt.sysinfos, call.data ≠ [] ∧ pageOf call.bufaddr ≤ b ∧
      b ≤ call.bufaddr + call.data.length + 4096) ∨
    ∃ load ∈ ckpt.firstloads, load.addr ≤ b ∧ b < load.addr + 8

/-- The interval of a guest program, which executes at least one instruction. What its calls
write lies in the lower half of the address space, also where the outputs of several tries
have been put together. -/
structure GuestInterval where
  events : List Event
  guest : ∀ event ∈ events, event.Guest
  executes : executedPcs events ≠ []
  buffers : ∀ call ∈ events.foldl callStep [], call.bufaddr + call.data.length < 2 ^ 63

section Interval

variable (interval : GuestInterval) (stack : Nat → Nat → UInt8) (exist : Nat → UInt8)
  {start : CkptInfo} (exit_place exit_pc : Nat)

structure CkptInfo.Started (info : CkptInfo) : Prop where
  textAccess : info.textAccess = ∅
  keys : info.preAccess.keys = ∅
  textrange : info.textrange = []
  memrange : info.memrange = []
  loads : info.loads = []
  firstloads : info.firstloads = []
  sysinfos : info.sysinfos = []

/-- The executed addresses of a checkpoint are those of its interval. -/
theorem textAccess_started (hStart : start.Started) (a : Nat) :
    a ∈ (start.hooks stack interval.events).textAccess ↔
      ∃ pc ∈ executedPcs interval.events, a = pc ∨ pageOf pc + 4096 < pc + 4 ∧ a = pc + 4096 := by
  rw [start.hooks_textAccess, hStart.textAccess]
  simp only [Finset.notMem_empty, false_or]
  constructor
  · rintro ⟨event, hEvent, hExec⟩
    cases event <;> simp only [Event.Executes] at hExec
    exact ⟨_, mem_executedPcs.mpr hEvent, hExec⟩
  · rintro ⟨pc, hPc, hEq⟩
    exact ⟨_, mem_executedPcs.mp hPc, hEq⟩

theorem textAccess_near (hStart : start.Started) :
    ∀ a ∈ (start.hooks stack interval.events).textAccess, a < 2 ^ 63 + 4096 := by
  intro a ha
  obtain ⟨pc, hPc, hEq⟩ := (textAccess_started interval stack hStart a).mp ha
  have hGuest : pc < 2 ^ 63 := interval.guest _ (mem_executedPcs.mp hPc)
  omega

/-- The text ranges of the closed checkpoint reach from the lowest to the highest
executed page. -/
theorem close_textrange (hStart : start.Started) :
    ∃ first rest ranges r,
      ((start.hooks stack interval.events).close exist exit_place exit_pc).textrange =
        first :: rest ∧
      first :: rest = ranges ++ [r] ∧
      first.addr = textStart interval.events ∧ r.stop = textStop interval.events := by
  have hMem := textAccess_started interval stack hStart
  have hNear := textAccess_near interval stack hStart
  have hRanges : (start.hooks stack interval.events).textrange = [] :=
    (hooks_ranges stack start interval.events).1.trans hStart.textrange
  generalize start.hooks stack interval.events = info at *
  have hSort : ∀ a, a ∈ info.textAccess.sort ↔ a ∈ info.textAccess := fun a => Finset.mem_sort _
  obtain ⟨pc, hPc⟩ := List.exists_mem_of_ne_nil _ interval.executes
  have hSome : info.textAccess.sort ≠ [] :=
    List.ne_nil_of_mem ((hSort pc).mpr ((hMem pc).mpr ⟨pc, hPc, Or.inl rfl⟩))
  obtain ⟨ranges, r, top, hEq, hMerged⟩ := getRange_merged (by decide : 0 < 4096) (by decide) hSome
    (Finset.pairwise_sort _ _) (fun a ha => hNear a ((hSort a).mp ha)) fun a _ => rfl
  obtain ⟨first, rest, hFirst⟩ : ∃ first rest, ranges ++ [r] = first :: rest :=
    List.exists_cons_of_ne_nil (by simp)
  refine ⟨first, rest, ranges, r, ?_, hFirst.symm, ?_, ?_⟩
  · simp only [close, getTextRange, hRanges, hEq, hFirst]
  · obtain ⟨⟨a, ha, hAddr⟩, hLow⟩ := hMerged.first_addr (by decide) hFirst
    simp only [hSort, hMem] at ha hLow
    refine (textStart_eq ?_ fun pc hPc => hLow pc ⟨pc, hPc, Or.inl rfl⟩).symm
    -- the second page of a crossing instruction is not the lowest
    obtain ⟨pc, hPc, rfl | ⟨-, rfl⟩⟩ := ha
    · exact ⟨a, hPc, hAddr⟩
    · have hOwn := hLow pc ⟨pc, hPc, Or.inl rfl⟩
      omega
  · have hTop := hMerged.top_mem
    have hMax := hMerged.top_max
    simp only [hSort, hMem] at hTop hMax
    have hOwn : ∀ pc ∈ executedPcs interval.events, pc ≤ top := fun pc hPc =>
      hMax pc ⟨pc, hPc, Or.inl rfl⟩
    have hCross : ∀ pc ∈ executedPcs interval.events, pageOf pc + 4096 < pc + 4 → pc + 4096 ≤ top :=
      fun pc hPc hc => hMax _ ⟨pc, hPc, Or.inr ⟨hc, rfl⟩⟩
    rw [hMerged.stop]
    refine (textStop_eq ?_ fun pc hPc => ?_).symm
    · obtain ⟨pc, hPc, rfl | ⟨hc, rfl⟩⟩ := hTop
      · refine ⟨top, hPc, ?_⟩
        have hNot : ¬ pageOf top + 4096 < top + 4 := fun hc => by
          have hLe := hCross top hPc hc
          omega
        simp only [pageOf] at *
        omega
      · refine ⟨pc, hPc, ?_⟩
        simp only [pageOf] at *
        omega
    · have hLe := hOwn pc hPc
      have hNext := hCross pc hPc
      simp only [pageOf] at *
      omega

/-- They hold exactly the pages of the executed instructions. -/
theorem close_text_exact (hStart : start.Started) :
    ∃ total, ExactRanges 4096 (start.hooks stack interval.events).textAccess
      ((start.hooks stack interval.events).close exist exit_place exit_pc).textrange total := by
  have hRanges : (start.hooks stack interval.events).textrange = [] :=
    (hooks_ranges stack start interval.events).1.trans hStart.textrange
  obtain ⟨pc, hPc⟩ := List.exists_mem_of_ne_nil _ interval.executes
  have hSome : (start.hooks stack interval.events).textAccess.Nonempty :=
    ⟨pc, (textAccess_started interval stack hStart pc).mpr ⟨pc, hPc, Or.inl rfl⟩⟩
  obtain ⟨made, hMade, hExact⟩ := getRange_exactRanges (by decide : 0 < 4096) (by decide) hSome
    (textAccess_near interval stack hStart) (fun _ _ => rfl) []
  have hText : ((start.hooks stack interval.events).close exist exit_place exit_pc).textrange =
      made := by
    simp only [close, getTextRange, hRanges, hMade, List.nil_append]
  exact ⟨_, hText ▸ hExact⟩

/-- The regions known when the ranges are built. -/
theorem close_keys (hStart : start.Started) :
    let ckpt := (start.hooks stack interval.events).close exist exit_place exit_pc
    ∀ key, key ∈ ckpt.preAccess.keys ↔ ∃ b, Booked interval.events ckpt b ∧ key = regionOf b := by
  intro ckpt key
  have hSets := start.hooks_preAccess stack interval.guest key
  simp only [hStart.keys, Finset.notMem_empty, false_or] at hSets
  have hAccessed : (∃ event ∈ interval.events, event.Books key) ↔
      ∃ b, (∃ event ∈ interval.events, event.Accesses b) ∧ key = regionOf b := by
    constructor
    · rintro ⟨event, hEvent, hBooks⟩
      obtain ⟨b, hAccess, hKey⟩ := (Event.books_iff (interval.guest event hEvent)).mp hBooks
      exact ⟨b, ⟨event, hEvent, hAccess⟩, hKey⟩
    · rintro ⟨b, ⟨event, hEvent, hAccess⟩, hKey⟩
      exact ⟨event, hEvent, (Event.books_iff (interval.guest event hEvent)).mpr ⟨b, hAccess, hKey⟩⟩
  have hBuffers : (∃ a ∈ ckpt.sysinfos.flatMap bufferPages, key = regionOf a) ↔
      ∃ b, (∃ call ∈ ckpt.sysinfos, call.data ≠ [] ∧ pageOf call.bufaddr ≤ b ∧
        b ≤ call.bufaddr + call.data.length + 4096) ∧ key = regionOf b := by
    constructor
    · rintro ⟨a, ha, hKey⟩
      obtain ⟨call, hCall, hPage⟩ := List.mem_flatMap.mp ha
      obtain ⟨b, hData, hLow, hHigh, hb⟩ := bufferPages_region.mp ⟨a, hPage, hKey⟩
      exact ⟨b, ⟨call, hCall, hData, hLow, hHigh⟩, hb⟩
    · rintro ⟨b, ⟨call, hCall, hData, hLow, hHigh⟩, hb⟩
      obtain ⟨a, hPage, hKey⟩ := bufferPages_region.mpr ⟨b, hData, hLow, hHigh, hb⟩
      exact ⟨a, List.mem_flatMap.mpr ⟨call, hCall, hPage⟩, hKey⟩
  have hLoads : (∃ a ∈ ckpt.firstloads.flatMap firstloadPages, key = regionOf a) ↔
      ∃ b, (∃ load ∈ ckpt.firstloads, load.addr ≤ b ∧ b < load.addr + 8) ∧ key = regionOf b := by
    constructor
    · rintro ⟨a, ha, hKey⟩
      obtain ⟨load, hLoad, hPage⟩ := List.mem_flatMap.mp ha
      obtain ⟨b, hLow, hHigh, hb⟩ := firstloadPages_region.mp ⟨a, hPage, hKey⟩
      exact ⟨b, ⟨load, hLoad, hLow, hHigh⟩, hb⟩
    · rintro ⟨b, ⟨load, hLoad, hLow, hHigh⟩, hb⟩
      obtain ⟨a, hPage, hKey⟩ := firstloadPages_region.mpr ⟨b, hLow, hHigh, hb⟩
      exact ⟨a, List.mem_flatMap.mpr ⟨load, hLoad, hPage⟩, hKey⟩
  have hAll : key ∈ ckpt.preAccess.keys ↔
      ((∃ event ∈ interval.events, event.Books key) ∨
        ∃ a ∈ ckpt.sysinfos.flatMap bufferPages, key = regionOf a) ∨
        ∃ a ∈ ckpt.firstloads.flatMap firstloadPages, key = regionOf a := by
    rw [← hSets, ← mem_bookAddrs_keys _ (_, exist), ← mem_bookAddrs_keys]
    rfl
  rw [hAll, hAccessed, hBuffers, hLoads]
  simp only [Booked, or_and_right, exists_or, or_assoc]

/-- A first load starts at a byte that an event loads. -/
theorem firstload_source (hStart : start.Started) {load : FirstLoadInfo}
    (hLoad : load ∈ (start.hooks stack interval.events).getFistloads.firstloads) :
    ∃ v, ∃ event ∈ interval.events, event.Loads (load.addr, v) := by
  have hNone : (start.hooks stack interval.events).firstloads = [] :=
    (congrArg CkptInfo.firstloads (start.hooks_header stack interval.events)).trans
      hStart.firstloads
  simp only [getFistloads, hNone] at hLoad
  rw [combineLoads_packedBytes] at hLoad
  obtain ⟨-, -, hSources, -⟩ := combineLoads_shape (packedBytes_length _)
  obtain ⟨byte, hByte, hAddr⟩ := hSources load hLoad
  have hEvents := start.hooks_temploads stack interval.guest (packedBytes_subset hByte)
  rw [hStart.loads] at hEvents
  rcases hEvents with hOld | ⟨event, hEvent, hLoads⟩
  · exact absurd hOld List.not_mem_nil
  · exact ⟨byte.2, event, hEvent, hAddr ▸ hLoads⟩

/-- Everything that is booked lies below the upper half of the address space, or at most a
page and a load inside of it. -/
theorem booked_near (hStart : start.Started) {b : Nat}
    (hBooked : Booked interval.events
      ((start.hooks stack interval.events).close exist exit_place exit_pc) b) :
    b < 2 ^ 63 + AccessRange := by
  have hAccess : ∀ event ∈ interval.events, ∀ b, event.Accesses b → b < 2 ^ 63 + 8 := by
    intro event hEvent b hb
    have hGuest := interval.guest event hEvent
    cases event <;> simp only [Event.Accesses, Event.Guest] at hb hGuest <;> omega
  simp only [AccessRange]
  rcases hBooked with ⟨event, hEvent, hb⟩ | ⟨call, hCall, -, -, hHigh⟩ | ⟨load, hLoad, -, hHigh⟩
  · have hBelow := hAccess event hEvent b hb
    omega
  · rw [close_sysinfos, hooks_sysinfos, hStart.sysinfos] at hCall
    have hBelow := interval.buffers call hCall
    omega
  · obtain ⟨v, event, hEvent, hLoads⟩ := firstload_source interval stack hStart hLoad
    have hBelow := hAccess event hEvent load.addr hLoads.accesses
    omega

/-- A byte that is touched belongs to a region that is booked. -/
theorem Touched.booked {events : List Event} {ckpt : CkptInfo} {b : Nat}
    (h : Touched events ckpt.sysinfos b) : Booked events ckpt b := by
  rcases h with hAccess | ⟨call, hCall, hLow, hHigh⟩
  · exact Or.inl hAccess
  · refine Or.inr (Or.inl ⟨call, hCall, fun hNil => ?_, ?_, by omega⟩)
    · rw [hNil, List.length_nil] at hHigh
      omega
    · exact (Nat.div_mul_le_self ..).trans hLow

/-- The text segment as it is mapped, and the place where memory ranges are cut. -/
theorem close_text (hStart : start.Started) :
    let ckpt := (start.hooks stack interval.events).close exist exit_place exit_pc
    (∀ b, (textSeg ckpt.textrange).Holds b ↔
      textStart interval.events ≤ b ∧ b < textStop interval.events + 4096) ∧
    textend ckpt.textrange = uint64 (int32 (textStop interval.events)) := by
  intro ckpt
  obtain ⟨first, rest, ranges, r, hRanges, hLast, hFirst, hStop⟩ :=
    close_textrange interval stack exist exit_place exit_pc hStart
  obtain ⟨hOrder, hBelow⟩ := text_bounds interval.executes interval.guest
  have hGetLast : (first :: rest).getLastD ⟨0, 0⟩ = r := by
    rw [hLast, List.getLastD_concat]
  refine ⟨fun b => ?_, ?_⟩
  · simp only [ckpt, hRanges, textSeg, List.headD_cons, hGetLast, CodeRange.Holds,
      CodeRange.stop, hFirst]
    simp only [CodeRange.stop] at hStop
    have hSize := @uint64_of_lt ((r.addr : Int) + r.size + 4096 - textStart interval.events)
      (by omega) (by omega)
    omega
  · rw [textend, hRanges, hGetLast, hStop]

/-- The memory ranges hold the booked regions from the cut on. -/
theorem close_memrange (hStart : start.Started) :
    let ckpt := (start.hooks stack interval.events).close exist exit_place exit_pc
    (∀ r ∈ ckpt.memrange, uint64 (int32 (textStop interval.events)) ≤ r.addr ∧ 0 < r.size) ∧
    ∀ b, (∃ r ∈ ckpt.memrange, r.Holds b) ↔
      uint64 (int32 (textStop interval.events)) ≤ b ∧
        ∃ b', Booked interval.events ckpt b' ∧ regionOf b = regionOf b' := by
  intro ckpt
  obtain ⟨-, hCut⟩ := close_text interval stack exist exit_place exit_pc hStart
  have hKeys := close_keys interval stack exist exit_place exit_pc hStart
  have hAligned : ∀ key ∈ ckpt.preAccess.keys, regionOf key = key := by
    intro key hKey
    obtain ⟨b, -, rfl⟩ := (hKeys key).mp hKey
    simp only [regionOf, AccessRange]
    omega
  have hNear : ∀ key ∈ ckpt.preAccess.keys, key < 2 ^ 63 + AccessRange := by
    intro key hKey
    obtain ⟨b, hBooked, rfl⟩ := (hKeys key).mp hKey
    have hBelow := booked_near interval stack exist exit_place exit_pc hStart hBooked
    exact Nat.lt_of_le_of_lt (Nat.div_mul_le_self b AccessRange) hBelow
  obtain ⟨hSpaced, hSize, hHolds⟩ := getMemRange_spec hAligned hNear
  have hMem : ckpt.memrange = trimOverlap (uint64 (int32 (textStop interval.events)))
      (getMemRange ckpt.preAccess []).1 := by
    rw [← hCut, ← hStart.memrange, ← (hooks_ranges stack start interval.events).2]
    rfl
  rw [hMem]
  refine ⟨trimOverlap_above hSpaced hSize, fun b => ?_⟩
  rw [trimOverlap_holds hSpaced, hHolds b]
  exact and_congr_right fun _ => hKeys (regionOf b)

/-- A touched byte is mapped exactly if it lies in the mapped text, or not below
the cut. -/
theorem mapped_of_touched (hStart : start.Started) {b : Nat}
    (hTouched : Touched interval.events (start.hooks stack interval.events).sysinfos b) :
    Mapped ((start.hooks stack interval.events).close exist exit_place exit_pc) b ↔
      textStart interval.events ≤ b ∧ b < textStop interval.events + 4096 ∨
        uint64 (int32 (textStop interval.events)) ≤ b := by
  obtain ⟨hText, -⟩ := close_text interval stack exist exit_place exit_pc hStart
  obtain ⟨hAbove, hHolds⟩ := close_memrange interval stack exist exit_place exit_pc hStart
  rw [Mapped, hText b]
  refine or_congr_right ⟨?_, fun hCut => ?_⟩
  · rintro ⟨r, hr, -, hLow, -⟩
    exact (hAbove r hr).1.trans hLow
  · have hBooked : Booked interval.events
        ((start.hooks stack interval.events).close exist exit_place exit_pc) b :=
        Touched.booked hTouched
    obtain ⟨r, hr, hIn⟩ := (hHolds b).mpr ⟨hCut, b, hBooked, rfl⟩
    exact ⟨r, hr, Nat.pos_iff_ne_zero.mp (hAbove r hr).2, hIn.1, Nat.lt_add_right 4096 hIn.2⟩

/-- Memory is mapped for an interval exactly if whatever it touches lies on the
pages from the lowest to one behind the highest executed page, or not below the
end of the text as an `int` has it. -/
theorem interval_mapped_iff (hStart : start.Started) {ckpt : CkptInfo}
    (hOver : (start.hooks stack interval.events).detectOver exist exit_place exit_pc = some ckpt) :
    (∀ b, Touched interval.events (start.hooks stack interval.events).sysinfos b → Mapped ckpt b) ↔
    ∀ b, Touched interval.events (start.hooks stack interval.events).sysinfos b →
      textStart interval.events ≤ b ∧ b < textStop interval.events + 4096 ∨
        uint64 (int32 (textStop interval.events)) ≤ b := by
  simp only [detectOver, Option.ite_none_right_eq_some, Option.some.injEq] at hOver
  obtain ⟨-, rfl⟩ := hOver
  exact forall₂_congr fun b hTouched =>
    mapped_of_touched interval stack exist exit_place exit_pc hStart hTouched

end Interval

theorem CkptInfo.create_started (startnum length warmup : Nat) (intregs fpregs : List Nat)
    (pc npc : Nat) :
    (create startnum length warmup intregs fpregs pc npc).Started :=
      ⟨rfl, rfl, rfl, rfl, rfl, rfl, rfl⟩

def loadAt (addr : Nat) (h : addr < 2 ^ 63) : GuestInterval where
  events := [.load addr 8 [1, 2, 3, 4, 5, 6, 7, 8], .inst 0x20000]
  guest := by simpa [Event.Guest] using h
  executes := by simp [executedPcs]
  buffers := by simp [callStep]

def sampleStart : CkptInfo := create 5 1 0 [] [] 0 0x20000

/-- A load above the code is mapped. -/
theorem interval_mapped_above :
    ∃ ckpt, (sampleStart.hooks (fun _ _ => 0) (loadAt 0x30000 (by decide)).events).detectOver
      (fun _ => 0) 6 0x20000 = some ckpt ∧
      ∀ b, Touched (loadAt 0x30000 (by decide)).events [] b → Mapped ckpt b := by
  refine ⟨_, rfl,
    (interval_mapped_iff (loadAt 0x30000 (by decide)) (fun _ _ => 0) (fun _ => 0) 6 0x20000
    (create_started 5 1 0 [] [] 0 0x20000) rfl).mpr fun b hTouched => Or.inr ?_⟩
  have hStop : uint64 (int32 (textStop (loadAt 0x30000 (by decide)).events)) = 0x21000 := by decide
  rcases hTouched with ⟨event, hEvent, hAccess⟩ | ⟨call, hCall, -⟩
  · simp only [loadAt, List.mem_cons, List.not_mem_nil, or_false] at hEvent
    rcases hEvent with rfl | rfl
    · simp only [Event.Accesses] at hAccess
      omega
    · exact hAccess.elim
  · exact absurd hCall List.not_mem_nil

/-- A load below the lowest executed page is not mapped. -/
theorem interval_unmapped_below :
    ∃ ckpt, (sampleStart.hooks (fun _ _ => 0) (loadAt 0x10000 (by decide)).events).detectOver
      (fun _ => 0) 6 0x20000 = some ckpt ∧
      Touched (loadAt 0x10000 (by decide)).events [] 0x10000 ∧ ¬ Mapped ckpt 0x10000 := by
  have hTouched : Touched (loadAt 0x10000 (by decide)).events [] 0x10000 :=
    Or.inl ⟨_, List.mem_cons_self .., by decide, by decide⟩
  refine ⟨_, rfl, hTouched, fun hMapped => ?_⟩
  have hCovered :=
    (mapped_of_touched (loadAt 0x10000 (by decide)) (fun _ _ => 0) (fun _ => 0) 6 0x20000
    (create_started 5 1 0 [] [] 0 0x20000) hTouched).mp hMapped
  revert hCovered
  decide

end RiscvCkpt
