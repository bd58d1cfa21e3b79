import RiscvCkpt.Restore.Coverage
import RiscvCkpt.Restore.Trampoline

/-! The midpoints and the program's data. A gap between two text ranges is taken as
free, but the program may keep data there; the first loads from such a page are restored
before the jumps are written over them. -/
namespace RiscvCkpt

open ByteCodec ByteMemory MachineInt CkptInfo

def Event.Stores (b : Nat) : Event → Prop
  | .store addr size => addr ≤ b ∧ b < addr + size
  | _ => False

/-- The interval loads the byte without having stored it first. -/
def LoadedFirst (events : List Event) (b : Nat) : Prop :=
  ∃ before addr size data after, events = before ++ .load addr size data :: after ∧
    addr ≤ b ∧ b < addr + size ∧ ∀ event ∈ before, ¬ event.Stores b

def updateAll (loader : Loader) : Loader :=
  loader.runningInfo.sysJmpinfos.foldl (fun state info => updateJmpInst info state) loader

/-- Whatever the byte holds when step 6 begins, it holds that behind `processJmp` and the
returns that `updateJmpInst` prepares. -/
def SurvivesJumps (freeRanges : List MemRangeInfo) (places : Places) (npc : Nat) (loader : Loader)
    (b : Nat) : Prop :=
  ∀ m ready, processJmp freeRanges places npc { loader with memory := m } = some ready →
    (updateAll ready).memory b = m b

def InMidpoint (placed : List PCs) (b : Nat) : Prop :=
  ∃ p ∈ placed, p.midpoint ≤ b ∧ b < p.midpoint + freemem

/-- The bytes of the jumps: the way to the loader at the midpoint of every pc but the
first, the way back 32 bytes behind the midpoint of every pc but the last, and the
replaced system calls. -/
def JumpBytes (placed : List PCs) (b : Nat) : Prop :=
  (∃ p ∈ placed.drop 1, p.midpoint ≤ b ∧ b < p.midpoint + 16) ∨
    (∃ p ∈ (placed.drop 1).dropLast, p.pc ≤ b ∧ b < p.pc + 4) ∨
    ∃ p ∈ placed.dropLast, p.midpoint + 32 ≤ b ∧ b < p.midpoint + 48

section Jumps

variable {placed : List PCs} {places : Places} {loader : Loader}

/-- The jumps into the loader take 16 bytes of each midpoint and the replaced instructions. -/
theorem createInstsJmp2loader_writes (memaddr : Nat) (pcs : List PCs) :
    Writes (fun m => (createInstsJmp2loader memaddr m pcs).1) (fun b =>
      (∃ p ∈ pcs, p.midpoint ≤ b ∧ b < p.midpoint + 16) ∨
        ∃ p ∈ pcs.dropLast, p.pc ≤ b ∧ b < p.pc + 4) := by
  induction pcs with
  | nil => exact Writes.nothing.congr (by simp)
  | cons p rest ih =>
      have hEnter := storeInsts_writes p.midpoint (loadA0 memaddr ++ [createJALR 10])
      cases rest with
      | nil => exact hEnter.congr (by simp)
      | cons next more =>
          refine ((hEnter.comp (storeInst_writes p.pc (createJAL p.pc p.midpoint))).comp ih).congr
            fun b => ?_
          rw [List.dropLast_cons_of_ne_nil (List.cons_ne_nil next more),
            @List.exists_mem_cons_iff _ _ p, @List.exists_mem_cons_iff _ _ p]
          exact or_or_or_comm

/-- The jumps back take 12 bytes in the second half of each midpoint. -/
theorem createInstsJmp2prog_writes (memaddr : Nat) (pcs : List PCs) :
    Writes (fun m => (createInstsJmp2prog memaddr m pcs).1) (fun b =>
      ∃ p ∈ pcs, p.midpoint + 32 ≤ b ∧ b < p.midpoint + 32 + 12) :=
  Writes.foldl fun p _ => storeInsts_writes (p.midpoint + 32) (loadA0 memaddr)

/-- `createInsts` writes the ways to the loader, the replaced calls, and the three
instructions in front of the jump back. -/
theorem createInsts_writes (places : Places) (loader : Loader) (placed : List PCs) :
    Writes (fun m => (createInsts places { loader with memory := m } placed).memory) (fun b =>
      ((∃ p ∈ placed.drop 1, p.midpoint ≤ b ∧ b < p.midpoint + 16) ∨
        ∃ p ∈ (placed.drop 1).dropLast, p.pc ≤ b ∧ b < p.pc + 4) ∨
        ∃ p ∈ placed.dropLast, p.midpoint + 32 ≤ b ∧ b < p.midpoint + 32 + 12) :=
  (createInstsJmp2loader_writes (places.takeOverAddr % 4294967296) (placed.drop 1)).comp
    (createInstsJmp2prog_writes (places.a0 % 4294967296) placed.dropLast)

/-- `processJmp` changes the bytes of the jumps only. -/
theorem createInsts_outside (places : Places) (loader : Loader) {b : Nat}
    (h : ¬ JumpBytes placed b) : (createInsts places loader placed).memory b = loader.memory b := by
  apply (createInsts_writes places loader placed).outside b
  rintro ((hEnter | hCall) | ⟨p, hp, hLow, hHigh⟩)
  · exact h (Or.inl hEnter)
  · exact h (Or.inr (Or.inl hCall))
  · exact h (Or.inr (Or.inr ⟨p, hp, hLow, by omega⟩))

theorem updateAll_memory (infos : List JmpRepInfo) (loader : Loader) :
    (infos.foldl (fun state info => updateJmpInst info state) loader).memory =
      infos.foldl (fun m info => storeInst m info.jal_addr info.jal_inst) loader.memory := by
  induction infos generalizing loader with
  | nil => rfl
  | cons info rest ih => exact ih (updateJmpInst info loader)

/-- The jumps write their own bytes, and those only. -/
theorem jumps_write (places : Places) (loader : Loader) (placed : List PCs) :
    Writes (fun m => (updateAll (createInsts places { loader with memory := m } placed)).memory)
      (JumpBytes placed) := by
  have hBack : Writes (fun m => (placed.dropLast.mapIdx jmpInfo).foldl
      (fun m info => storeInst m info.jal_addr info.jal_inst) m)
      (fun b => ∃ info ∈ placed.dropLast.mapIdx jmpInfo, info.jal_addr ≤ b ∧
        b < info.jal_addr + 4) :=
    Writes.foldl fun info _ => storeInst_writes info.jal_addr info.jal_inst
  have hPlaces : ∀ b, (∃ info ∈ placed.dropLast.mapIdx jmpInfo,
      info.jal_addr ≤ b ∧ b < info.jal_addr + 4) ↔
      ∃ p ∈ placed.dropLast, p.midpoint + 44 ≤ b ∧ b < p.midpoint + 48 := by
    intro b
    constructor
    · rintro ⟨info, hInfo, hb⟩
      obtain ⟨i, hi, rfl⟩ := List.mem_mapIdx.mp hInfo
      exact ⟨_, List.getElem_mem hi, hb⟩
    · rintro ⟨p, hp, hb⟩
      obtain ⟨i, hi, rfl⟩ := List.mem_iff_getElem.mp hp
      exact ⟨_, List.mem_mapIdx.mpr ⟨i, hi, rfl⟩, hb⟩
  have hAll := ((createInsts_writes places loader placed).comp (hBack.congr hPlaces)).congr
    (t := JumpBytes placed) ?_
  · have hMemory : ∀ m, (updateAll (createInsts places { loader with memory := m } placed)).memory =
        (placed.dropLast.mapIdx jmpInfo).foldl
        (fun m info => storeInst m info.jal_addr info.jal_inst)
          (createInsts places { loader with memory := m } placed).memory := by
      intro m
      rw [updateAll, updateAll_memory]
      rfl
    simp only [hMemory]
    exact hAll
  · intro b
    -- the three instructions of the way back, and the jump behind them
    have hWay : (∃ p ∈ placed.dropLast, p.midpoint + 32 ≤ b ∧ b < p.midpoint + 48) ↔
        (∃ p ∈ placed.dropLast, p.midpoint + 32 ≤ b ∧ b < p.midpoint + 32 + 12) ∨
          ∃ p ∈ placed.dropLast, p.midpoint + 44 ≤ b ∧ b < p.midpoint + 48 := by
      constructor
      · rintro ⟨p, hp, hb⟩
        by_cases hJump : p.midpoint + 44 ≤ b
        · exact Or.inr ⟨p, hp, hJump, hb.2⟩
        · exact Or.inl ⟨p, hp, hb.1, by omega⟩
      · rintro (⟨p, hp, hb⟩ | ⟨p, hp, hb⟩)
        · exact ⟨p, hp, by omega⟩
        · exact ⟨p, hp, by omega⟩
    rw [JumpBytes, hWay]
    simp only [or_assoc]

/-- A byte survives the jumps if and only if it is none of theirs. -/
theorem survivesJumps_iff {freeRanges : List MemRangeInfo} {npc : Nat}
    (hPlaced : findMidPoints freeRanges (loader.runningInfo.pcs npc) = some placed) (b : Nat) :
    SurvivesJumps freeRanges places npc loader b ↔ ¬ JumpBytes placed b := by
  rw [← (jumps_write places loader placed).keeps_iff b]
  have hProcess : ∀ m, processJmp freeRanges places npc { loader with memory := m } =
      some (createInsts places { loader with memory := m } placed) := by
    intro m
    rw [processJmp, hPlaced, Option.map_some]
  constructor
  · intro hSurvives m
    exact hSurvives m _ (hProcess m)
  · intro hKeeps m ready hReady
    rw [hProcess m] at hReady
    rw [← Option.some.inj hReady]
    exact hKeeps m

/-- A `jal` at the pc reaches the end of the range that the search compares it with: the low
end from below, otherwise the high end. -/
def JumpReaches (pc : Nat) (r : MemRangeInfo) : Prop :=
  if pc < r.addr then (r.addr : Int) + freemem - pc ≤ MaxJALOffset
  else (pc : Int) - ((r.stop : Int) - freemem) ≤ MaxJALOffset

instance (pc : Nat) (r : MemRangeInfo) : Decidable (JumpReaches pc r) :=
  inferInstanceAs (Decidable (ite _ _ _))

/-- Where the jumps of a pc go: to the near end of the lowest free range in reach. -/
def jumpArea (frees : List MemRangeInfo) (pc : Nat) : Option Nat :=
  (frees.find? fun r => JumpReaches pc r).map fun r =>
    if pc < r.addr then r.addr else r.stop - freemem

/-- Free ranges with room for a midpoint, so near to the pcs that their distances fit an `int`. -/
structure NearRanges (frees : List MemRangeInfo) (pcs : List PCs) : Prop where
  large : ∀ r ∈ frees, freemem ≤ r.size
  addresses : ∀ r ∈ frees, r.stop ≤ 2 ^ 64
  span : ∀ p ∈ pcs, ∀ r ∈ frees, r.stop < p.pc + 2 ^ 31 ∧ p.pc + freemem < r.stop + 2 ^ 31

section Nearest

variable {passed frees left : List MemRangeInfo} {pcs : List PCs} {p : PCs} {midpoint : Nat}

theorem NearRanges.mono {pcs' : List PCs} (h : NearRanges frees pcs)
    (hFrees : ∀ r ∈ left, r ∈ frees) (hPcs : ∀ p ∈ pcs', p ∈ pcs) : NearRanges left pcs' where
  large r hr := h.large r (hFrees r hr)
  addresses r hr := h.addresses r (hFrees r hr)
  span p hp r hr := h.span p (hPcs p hp) r (hFrees r hr)

/-- Ranges out of reach are passed over. -/
theorem jumpArea_append {pc : Nat} (h : ∀ r ∈ passed, ¬ JumpReaches pc r) :
    jumpArea (passed ++ frees) pc = jumpArea frees pc := by
  have hNone : passed.find? (fun r => JumpReaches pc r) = none := by
    simpa only [List.find?_eq_none, decide_eq_true_eq] using h
  rw [jumpArea, List.find?_append, hNone, Option.none_or]
  rfl

/-- The search from the current range on ends at the lowest range in reach; what it passes
is out of reach for all higher pcs too. -/
theorem seekMidPoint_nearest (hNear : NearRanges frees [p])
    (h : seekMidPoint p.pc frees = some (midpoint, left)) :
    jumpArea frees p.pc = some midpoint ∧
      ∃ passed, frees = passed ++ left ∧ ∀ r ∈ passed, ∀ pc, p.pc ≤ pc → ¬ JumpReaches pc r := by
  induction frees with
  | nil => simp [seekMidPoint] at h
  | cons range rest ih =>
      have hLarge : 64 ≤ range.size := hNear.large range (List.mem_cons_self ..)
      have hSpan := hNear.span p (List.mem_singleton_self p) range (List.mem_cons_self ..)
      have hSize : range.stop = range.addr + range.size := rfl
      simp only [freemem] at hSpan
      rw [seekMidPoint_cons hLarge (hNear.addresses range (List.mem_cons_self ..)) hSpan.1 hSpan.2]
        at h
      have hStops : JumpReaches p.pc range →
          jumpArea (range :: rest) p.pc =
            some (if p.pc < range.addr then range.addr else range.stop - freemem) := by
        intro hReach
        rw [jumpArea, List.find?_cons_of_pos (by simpa using hReach), Option.map_some]
      split at h
      · next hAbove =>
          rw [Option.ite_none_right_eq_some] at h
          obtain ⟨hReach, hFound⟩ := h
          obtain ⟨rfl, rfl⟩ := Prod.mk.inj (Option.some.inj hFound)
          refine ⟨?_, [], rfl, by simp⟩
          rw [hStops (by simp only [JumpReaches, if_pos hAbove, freemem, MaxJALOffset]; omega),
            if_pos hAbove]
      · next hBelow =>
          split at h
          · next hReach =>
              obtain ⟨rfl, rfl⟩ := Prod.mk.inj (Option.some.inj h)
              refine ⟨?_, [], rfl, by simp⟩
              rw [hStops (by simp only [JumpReaches, if_neg hBelow, freemem, MaxJALOffset]; omega),
                if_neg hBelow]
              rfl
          · next hFar =>
              have hPassed : ∀ pc, p.pc ≤ pc → ¬ JumpReaches pc range := by
                intro pc hLe
                rw [JumpReaches, if_neg (by omega)]
                simp only [freemem, MaxJALOffset]
                omega
              obtain ⟨hArea, passed, rfl, hOut⟩ :=
                ih (hNear.mono (fun r hr => List.mem_cons_of_mem _ hr) fun _ hq => hq) h
              refine ⟨?_, range :: passed, rfl, List.forall_mem_cons.mpr ⟨hPassed, hOut⟩⟩
              rw [← hArea]
              exact @jumpArea_append [range] _ _
                (List.forall_mem_singleton.mpr (hPassed p.pc (Nat.le_refl _)))

/-- The outer loop: no pc that is left reaches a range that the search has passed. -/
theorem placeMidPoints_nearest {placed : List PCs} (hNear : NearRanges (passed ++ frees) pcs)
    (hSorted : pcs.Pairwise fun a b => a.pc ≤ b.pc)
    (hPassed : ∀ p ∈ pcs, ∀ r ∈ passed, ¬ JumpReaches p.pc r)
    (h : placeMidPoints frees pcs = some placed) :
    ∀ p ∈ placed, jumpArea (passed ++ frees) p.pc = some p.midpoint := by
  induction pcs generalizing passed frees placed with
  | nil =>
      obtain rfl := Option.some.inj h
      simp
  | cons p rest ih =>
      obtain ⟨hFirst, hRest⟩ := List.pairwise_cons.mp hSorted
      simp only [placeMidPoints, Option.bind_eq_some_iff, Option.map_eq_some_iff] at h
      obtain ⟨⟨midpoint, left⟩, hFound, tail, hTail, rfl⟩ := h
      obtain ⟨hArea, more, rfl, hOut⟩ := seekMidPoint_nearest
        (hNear.mono (fun r hr => List.mem_append_right _ hr) (by simp)) hFound
      refine List.forall_mem_cons.mpr ⟨?_, ?_⟩
      · rw [jumpArea_append (hPassed p (List.mem_cons_self ..))]
        exact hArea
      · rw [← List.append_assoc] at hNear ⊢
        refine ih (hNear.mono (fun _ hr => hr) fun q hq => List.mem_cons_of_mem _ hq) hRest ?_ hTail
        intro q hq r hr
        rcases List.mem_append.mp hr with hOld | hNew
        · exact hPassed q (List.mem_cons_of_mem _ hq) r hOld
        · exact hOut r hNew q.pc (hFirst q hq)

/-- Every midpoint is at the near end of the lowest free range in reach of its pc. -/
theorem findMidPoints_nearest {placed : List PCs} (hNear : NearRanges frees pcs)
    (h : findMidPoints frees pcs = some placed) :
    ∀ p ∈ placed, jumpArea frees p.pc = some p.midpoint := by
  simp only [findMidPoints, Option.map_eq_some_iff] at h
  obtain ⟨byPc, hByPc, rfl⟩ := h
  have hSorted : NearRanges ([] ++ frees) (pcs.insertionSort fun a b => a.pc ≤ b.pc) :=
    hNear.mono (fun _ hr => hr) fun p hp => (List.perm_insertionSort _ _).mem_iff.mp hp
  have hAll := placeMidPoints_nearest hSorted (List.pairwise_insertionSort _ _) (by simp) hByPc
  intro p hp
  exact hAll p ((List.perm_insertionSort _ _).mem_iff.mp hp)

end Nearest

/-- The byte lies in the area of one of these pcs, between the two offsets. -/
def InAreas (frees : List MemRangeInfo) (pcs : List PCs) (low high b : Nat) : Prop :=
  ∃ p ∈ pcs, ∃ area, jumpArea frees p.pc = some area ∧ area + low ≤ b ∧ b < area + high

/-- Midpoints and areas say the same about pcs with the same keys. -/
theorem inAreas_iff {frees : List MemRangeInfo} {pcs placed : List PCs}
    (hKeys : placed.map PCs.key = pcs.map PCs.key)
    (hAreas : ∀ p ∈ placed, jumpArea frees p.pc = some p.midpoint) (low high b : Nat) :
    InAreas frees pcs low high b ↔
      ∃ p ∈ placed, p.midpoint + low ≤ b ∧ b < p.midpoint + high := by
  constructor
  · rintro ⟨p, hp, area, hArea, hb⟩
    obtain ⟨q, hq, hKey⟩ := List.mem_map.mp (hKeys ▸ List.mem_map_of_mem hp)
    have hPc : q.pc = p.pc := congrArg Prod.snd hKey
    have hMid := hAreas q hq
    rw [hPc, hArea] at hMid
    obtain rfl := Option.some.inj hMid
    exact ⟨q, hq, hb⟩
  · rintro ⟨q, hq, hb⟩
    obtain ⟨p, hp, hKey⟩ := List.mem_map.mp (hKeys ▸ List.mem_map_of_mem hq)
    have hPc : p.pc = q.pc := congrArg Prod.snd hKey
    exact ⟨p, hp, q.midpoint, hPc ▸ hAreas q hq, hb⟩

/-- The jumps spare what the interval loads first exactly if, of the 64 bytes at the near
end of the lowest free range in reach of each pc, no such byte lies in the first 16 for a
system call or the exit, in the 16 from offset 32 on for the start or a system call, or in
a system call that reaches into one of these areas. -/
theorem midpoints_spare_loads_iff {freeRanges : List MemRangeInfo} {npc : Nat}
    (hIndexed : loader.runningInfo.Indexed)
    (hNear : NearRanges freeRanges (loader.runningInfo.pcs npc))
    (hPlaced : findMidPoints freeRanges (loader.runningInfo.pcs npc) = some placed)
    (events : List Event) :
    (∀ b, LoadedFirst events b → InMidpoint placed b →
      SurvivesJumps freeRanges places npc loader b) ↔
    ∀ b, LoadedFirst events b → InAreas freeRanges (loader.runningInfo.pcs npc) 0 64 b →
      ¬ InAreas freeRanges ((loader.runningInfo.pcs npc).drop 1) 0 16 b ∧
      ¬ InAreas freeRanges (loader.runningInfo.pcs npc).dropLast 32 48 b ∧
      ∀ p ∈ ((loader.runningInfo.pcs npc).drop 1).dropLast, b < p.pc ∨ p.pc + 4 ≤ b := by
  have hKeys := findMidPoints_keys (hIndexed.pcs_labels npc) hPlaced
  have hAreas := findMidPoints_nearest hNear hPlaced
  have hDrop : (placed.drop 1).map PCs.key = ((loader.runningInfo.pcs npc).drop 1).map PCs.key := by
    rw [List.map_drop, hKeys, List.map_drop]
  have hInit : placed.dropLast.map PCs.key = (loader.runningInfo.pcs npc).dropLast.map PCs.key := by
    rw [List.map_dropLast, hKeys, List.map_dropLast]
  have hCalls : (placed.drop 1).dropLast.map PCs.key =
      ((loader.runningInfo.pcs npc).drop 1).dropLast.map PCs.key := by
    rw [List.map_dropLast, hDrop, List.map_dropLast]
  refine forall₂_congr fun b _ => ?_
  rw [inAreas_iff hKeys hAreas, inAreas_iff hDrop fun p hp => hAreas p (List.mem_of_mem_drop hp),
    inAreas_iff hInit fun p hp => hAreas p (List.mem_of_mem_dropLast hp)]
  refine imp_congr_right fun _ => ?_
  have hPcs : (∀ p ∈ ((loader.runningInfo.pcs npc).drop 1).dropLast, b < p.pc ∨ p.pc + 4 ≤ b) ↔
      ¬ ∃ p ∈ (placed.drop 1).dropLast, p.pc ≤ b ∧ b < p.pc + 4 := by
    have hSplit : ∀ pcs : List PCs, (∀ p ∈ pcs, b < p.pc ∨ p.pc + 4 ≤ b) ↔
        ∀ key ∈ pcs.map PCs.key, b < key.2 ∨ key.2 + 4 ≤ b := fun pcs => by
      rw [List.forall_mem_map]
      rfl
    rw [hSplit, ← hCalls, ← hSplit]
    simp only [not_exists, not_and]
    exact forall₂_congr fun p _ => by omega
  rw [survivesJumps_iff hPlaced, JumpBytes, hPcs, not_or, not_or]
  simp only [Nat.add_zero]
  exact and_congr_right fun _ => and_comm

end Jumps

/-- Two instructions on the pages `0x1000` and `0x3000`; the first one loads from the page
between them. -/
def gapEvents (addr : Nat) : List Event :=
  [.load addr 8 [1, 2, 3, 4, 5, 6, 7, 8], .inst 0x1000, .inst 0x3000]

def gapCkpt (addr : Nat) : CkptInfo :=
  ((create 5 2 0 [] [] 0 0x1000).hooks (fun _ _ => 0) (gapEvents addr)).close (fun _ => 0) 7 0x3000

def gapLoader : Loader where
  memory := zero
  program_intregs := fun _ => 0
  tempMemory := 0
  runningInfo :=
    { exitpc := 0x3000, callinfo := List.replicate 8 0, nowcallnum := 0, totalcallnum := 0,
      exitJmpInst := 0, sysJmpinfos := [] }

def gapPlaces : Places := ⟨0x1100000, 0x1100008, by decide⟩

theorem gapCkpt_textrange : (gapCkpt 0x2020).textrange = [⟨0x1000, 4096⟩, ⟨0x3000, 4096⟩] := by
  have hText : ((create 5 2 0 [] [] 0 0x1000).hooks (fun _ _ => 0) (gapEvents 0x2020)).textAccess =
      [0x1000, 0x3000].toFinset := by decide +kernel
  have hSort : ([0x1000, 0x3000] : List Nat).toFinset.sort = [0x1000, 0x3000] :=
    (List.toFinset_sort (· ≤ ·) (by decide)).mpr (by decide)
  have hRange : (gapCkpt 0x2020).textrange = (getTextRange
      ((create 5 2 0 [] [] 0 0x1000).hooks (fun _ _ => 0) (gapEvents 0x2020)).textAccess []).1 :=
      rfl
  rw [hRange, hText, getTextRange, hSort]
  rfl

/-- Both midpoints lie in the gap, at its two ends. -/
theorem gap_placed : findMidPoints [⟨0x2000, 4096⟩] (gapLoader.runningInfo.pcs 0x1000) =
    some [⟨0, 0x1000, 0x2000⟩, ⟨1, 0x3000, 0x2fc0⟩] := by decide +kernel

theorem gapLoader_indexed : gapLoader.runningInfo.Indexed :=
  ⟨by decide, fun i hi => absurd hi (Nat.not_lt_zero i)⟩

theorem gap_near : NearRanges [⟨0x2000, 4096⟩] (gapLoader.runningInfo.pcs 0x1000) :=
  ⟨by decide, by decide, by decide⟩

/-- Data between the two parts of a midpoint is spared. -/
theorem midpoints_spare_sample :
    findMidPoints [⟨0x2000, 4096⟩] (gapLoader.runningInfo.pcs 0x1000) =
      some [⟨0, 0x1000, 0x2000⟩, ⟨1, 0x3000, 0x2fc0⟩] ∧
    ∀ b, LoadedFirst (gapEvents 0x2018) b →
      InMidpoint [⟨0, 0x1000, 0x2000⟩, ⟨1, 0x3000, 0x2fc0⟩] b →
      SurvivesJumps [⟨0x2000, 4096⟩] gapPlaces 0x1000 gapLoader b := by
  refine ⟨gap_placed, (midpoints_spare_loads_iff gapLoader_indexed gap_near gap_placed
    (gapEvents 0x2018)).mpr fun b hLoaded _ => ?_⟩
  obtain ⟨before, addr, size, data, after, hEvents, hLow, hHigh, -⟩ := hLoaded
  have hLoad : Event.load addr size data ∈ gapEvents 0x2018 := by
    rw [hEvents]
    exact List.mem_append_right _ (List.mem_cons_self ..)
  simp only [gapEvents, List.mem_cons, List.not_mem_nil, or_false, Event.load.injEq,
    reduceCtorEq] at hLoad
  obtain ⟨rfl, rfl, -⟩ := hLoad
  have hPcs : gapLoader.runningInfo.pcs 0x1000 = [⟨0, 0x1000, 0⟩, ⟨1, 0x3000, 0⟩] := rfl
  have hStart : jumpArea [⟨0x2000, 4096⟩] 0x1000 = some 0x2000 := by decide
  have hExit : jumpArea [⟨0x2000, 4096⟩] 0x3000 = some 0x2fc0 := by decide
  simp only [hPcs, InAreas, List.drop_succ_cons, List.drop_zero, List.mem_singleton,
    List.dropLast_cons_cons, List.dropLast_singleton, List.not_mem_nil, exists_eq_left,
    hStart, hExit, Option.some.injEq, exists_eq_left', IsEmpty.forall_iff, implies_true, and_true]
  omega

/-- A load from offset 32 of the gap: the restored bytes are overwritten by the way back
to the start of the program. -/
theorem midpoint_overwrites_data :
    ∃ ckpt placed,
      ((create 5 2 0 [] [] 0 0x1000).hooks (fun _ _ => 0) (gapEvents 0x2020)).detectOver
        (fun _ => 0) 7 0x3000 =
        some ckpt ∧
      findMidPoints (getRangeInfo ckpt.textrange) (gapLoader.runningInfo.pcs 0x1000) = some placed ∧
      LoadedFirst (gapEvents 0x2020) 0x2020 ∧ InMidpoint placed 0x2020 ∧
      ¬ SurvivesJumps (getRangeInfo ckpt.textrange) gapPlaces 0x1000 gapLoader 0x2020 := by
  have hFree : getRangeInfo (gapCkpt 0x2020).textrange = [⟨0x2000, 4096⟩] := by
    rw [gapCkpt_textrange]
    decide
  have hOver : ((create 5 2 0 [] [] 0 0x1000).hooks (fun _ _ => 0) (gapEvents 0x2020)).detectOver
      (fun _ => 0) 7 0x3000 = some (gapCkpt 0x2020) := by
    obtain ⟨hStart, hLength⟩ :=
      hooks_place (fun _ _ => 0) (create 5 2 0 [] [] 0 0x1000) (gapEvents 0x2020)
    rw [detectOver, hStart, hLength]
    rfl
  refine ⟨gapCkpt 0x2020, _, hOver, hFree ▸ gap_placed, ?_, ?_, ?_⟩
  · exact ⟨[], 0x2020, 8, _, _, rfl,
      by decide, by decide, fun event hEvent => absurd hEvent List.not_mem_nil⟩
  · exact ⟨⟨0, 0x1000, 0x2000⟩, List.mem_cons_self .., by decide, by decide⟩
  · rw [hFree, survivesJumps_iff gap_placed]
    exact not_not_intro
      (Or.inr (Or.inr ⟨⟨0, 0x1000, 0x2000⟩, List.mem_cons_self .., by decide, by decide⟩))

end RiscvCkpt
