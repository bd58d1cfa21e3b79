import RiscvCkpt.Create.DetectOver

/-! A recorded interval: the calls of the recording hooks between the start and
the end of a checkpoint, and the sets of code pages and memory regions that they
leave behind. -/
namespace RiscvCkpt

/-- The calls that reach a pending checkpoint. -/
inductive Event where
  | inst (pc : Nat)
  | load (addr size : Nat) (data : List UInt8)
  | store (addr size : Nat)
  | sysenter (pc num : Nat) (params : List Nat)
  | sysexe (pc ret bufaddr : Nat) (data : List UInt8)
  | sysret (pc : Nat) (hasret : Bool) (ret : Nat)
  deriving DecidableEq, Repr

/-- Events of a guest program: accesses of one to eight bytes, everything in the
lower half of the address space. -/
def Event.Guest : Event → Prop
  | .inst pc => pc < 2 ^ 63
  | .load addr size _ => addr < 2 ^ 63 ∧ 0 < size ∧ size ≤ 8
  | .store addr size => addr < 2 ^ 63 ∧ 0 < size ∧ size ≤ 8
  | .sysexe _ _ bufaddr data => bufaddr + data.length < 2 ^ 63
  | _ => True

instance : DecidablePred Event.Guest
  | .inst _ => inferInstanceAs (Decidable (_ < _))
  | .load _ _ _ => inferInstanceAs (Decidable (_ ∧ _ ∧ _))
  | .store _ _ => inferInstanceAs (Decidable (_ ∧ _ ∧ _))
  | .sysenter _ _ _ => inferInstanceAs (Decidable True)
  | .sysexe _ _ _ _ => inferInstanceAs (Decidable (_ < _))
  | .sysret _ _ _ => inferInstanceAs (Decidable True)

namespace CkptInfo

/-- One hook. `stack` is what the uninitialised `exist` array holds. -/
def hook (stack : Nat → UInt8) (info : CkptInfo) : Event → CkptInfo
  | .inst pc => info.addinst pc
  | .load addr size data => info.addload stack addr data size
  | .store addr size => info.addstore stack addr size
  | .sysenter pc num params => info.addSysenter pc num params
  | .sysexe pc ret bufaddr data => info.addSysexe pc ret bufaddr data
  | .sysret pc hasret ret => info.addSysret pc hasret ret

def hooks (stack : Nat → Nat → UInt8) (info : CkptInfo) : List Event → CkptInfo
  | [] => info
  | event :: rest => (info.hook (stack rest.length) event).hooks stack rest

end CkptInfo

def Event.Accesses (b : Nat) : Event → Prop
  | .load addr size _ => addr ≤ b ∧ b < addr + size
  | .store addr size => addr ≤ b ∧ b < addr + size
  | _ => False

def Event.Books (key : Nat) : Event → Prop
  | .load addr size _ => key = regionOf addr ∨ key = regionOf (addr + size - 1)
  | .store addr size => key = regionOf addr ∨ key = regionOf (addr + size - 1)
  | _ => False

/-- The event loads the byte with the given value. -/
def Event.Loads (byte : Nat × UInt8) : Event → Prop
  | .load addr size data => addr ≤ byte.1 ∧ byte.1 < addr + size ∧
    byte.2 = data.getD (byte.1 - addr) 0
  | _ => False

/-- A byte that is loaded is accessed. -/
theorem Event.Loads.accesses {event : Event} {byte : Nat × UInt8} (h : event.Loads byte) :
    event.Accesses byte.1 := by
  cases event with
  | load addr size data => exact ⟨h.1, h.2.1⟩
  | inst => exact h.elim
  | store => exact h.elim
  | sysenter => exact h.elim
  | sysexe => exact h.elim
  | sysret => exact h.elim

/-- The addresses that an event enters into `textAccess`. -/
def Event.Executes (a : Nat) : Event → Prop
  | .inst pc => a = pc ∨ pageOf pc + 4096 < pc + 4 ∧ a = pc + 4096
  | _ => False

theorem Event.Executes.inst {event : Event} {a : Nat} (h : event.Executes a) :
    ∃ pc, event = .inst pc := by
  cases event with
  | inst pc => exact ⟨pc, rfl⟩
  | load => exact h.elim
  | store => exact h.elim
  | sysenter => exact h.elim
  | sysexe => exact h.elim
  | sysret => exact h.elim

/-- What a hook does to the recorded calls. -/
def callStep (sysinfos : List SyscallInfo) (event : Event) : List SyscallInfo :=
  let updateLast (pc : Nat) (change : SyscallInfo → SyscallInfo) :=
    match sysinfos.getLast? with
    | none => sysinfos
    | some last => if last.pc ≠ pc then sysinfos else sysinfos.dropLast ++ [change last]
  match event with
  | .sysenter pc num params => sysinfos ++ [{ pc := pc, num := num % 2 ^ 32, params := params }]
  | .sysexe pc ret bufaddr data =>
      updateLast pc fun last =>
        { last with ret := ret, bufaddr := bufaddr, data := last.data ++ data }
  | .sysret pc hasret ret => updateLast pc fun last => { last with ret := ret, hasret := hasret }
  | _ => sysinfos

/-- The booked regions are those of the accessed bytes. -/
theorem Event.books_iff {event : Event} {key : Nat} (hGuest : event.Guest) :
    event.Books key ↔ ∃ b, event.Accesses b ∧ key = regionOf b := by
  have hSpan : ∀ addr size, 0 < size → size ≤ 8 →
      ((key = regionOf addr ∨ key = regionOf (addr + size - 1)) ↔
        ∃ b, (addr ≤ b ∧ b < addr + size) ∧ key = regionOf b) := by
    intro addr size hPos hSize
    constructor
    · rintro (rfl | rfl)
      · exact ⟨addr, ⟨Nat.le_refl _, Nat.lt_add_of_pos_right hPos⟩, rfl⟩
      · exact ⟨addr + size - 1, by omega, rfl⟩
    · rintro ⟨b, hb, rfl⟩
      simp only [regionOf, AccessRange]
      omega
  cases event with
  | load addr size data => exact hSpan addr size hGuest.2.1 hGuest.2.2
  | store addr size => exact hSpan addr size hGuest.2.1 hGuest.2.2
  | inst => simp only [Event.Books, Event.Accesses, false_and, exists_false]
  | sysenter => simp only [Event.Books, Event.Accesses, false_and, exists_false]
  | sysexe => simp only [Event.Books, Event.Accesses, false_and, exists_false]
  | sysret => simp only [Event.Books, Event.Accesses, false_and, exists_false]

namespace CkptInfo

/-- The hooks of a call that has been entered change the recorded calls, nothing else. -/
theorem updateLast_frame (info : CkptInfo) (pc : Nat) (change : SyscallInfo → SyscallInfo) :
    ∃ calls, info.updateLast pc change = { info with sysinfos := calls } := by
  rw [updateLast]
  cases info.sysinfos.getLast? with
  | none => exact ⟨_, rfl⟩
  | some last =>
      simp only
      split
      · exact ⟨_, rfl⟩
      · exact ⟨_, rfl⟩

theorem updateLast_keys (info : CkptInfo) (pc : Nat) (change : SyscallInfo → SyscallInfo) :
    (info.updateLast pc change).preAccess = info.preAccess ∧
    (info.updateLast pc change).textAccess = info.textAccess := by
  obtain ⟨calls, hCalls⟩ := info.updateLast_frame pc change
  rw [hCalls]
  exact ⟨rfl, rfl⟩

/-- What one hook adds to the executed addresses. -/
theorem hook_textAccess (stack : Nat → UInt8) (info : CkptInfo) (event : Event) (a : Nat) :
    a ∈ (info.hook stack event).textAccess ↔ a ∈ info.textAccess ∨ event.Executes a := by
  cases event with
  | inst pc =>
      simp only [hook, addinst, Event.Executes, pageOf]
      split <;> rename_i hCross <;> simp [hCross] <;> tauto
  | load addr size data =>
      obtain ⟨loads, hLoad⟩ := info.addload_frame stack addr data size
      rw [hook, hLoad]
      exact (or_iff_left id).symm
  | store addr size =>
      rw [hook, addstore]
      exact (or_iff_left id).symm
  | sysenter pc num params =>
      rw [hook, addSysenter]
      exact (or_iff_left id).symm
  | sysexe pc ret bufaddr data =>
      rw [hook, addSysexe, (updateLast_keys ..).2]
      exact (or_iff_left id).symm
  | sysret pc hasret ret =>
      rw [hook, addSysret, (updateLast_keys ..).2]
      exact (or_iff_left id).symm

/-- The executed addresses of an interval are those that its events enter. -/
theorem hooks_textAccess (stack : Nat → Nat → UInt8) (info : CkptInfo)
    (events : List Event) (a : Nat) :
    a ∈ (info.hooks stack events).textAccess ↔
      a ∈ info.textAccess ∨ ∃ event ∈ events, event.Executes a := by
  induction events generalizing info with
  | nil => simp [hooks]
  | cons event rest ih => rw [hooks, ih, hook_textAccess, List.exists_mem_cons_iff, or_assoc]

/-- What one hook adds to the regions. -/
theorem hook_preAccess (stack : Nat → UInt8) (info : CkptInfo) {event : Event}
    (hGuest : event.Guest) (key : Nat) :
    key ∈ (info.hook stack event).preAccess.keys ↔ key ∈ info.preAccess.keys ∨ event.Books key := by
  cases event with
  | inst pc =>
      rw [hook, addinst]
      exact (or_iff_left id).symm
  | load addr size data =>
      obtain ⟨-, hPos, hSize⟩ := hGuest
      rw [hook, addload_preAccess, mem_addAddrInfo_keys _ _ _ _ hPos (hSize.trans (by decide))]
      rfl
  | store addr size =>
      obtain ⟨-, hPos, hSize⟩ := hGuest
      rw [hook, addstore, mem_addAddrInfo_keys _ _ _ _ hPos (hSize.trans (by decide))]
      rfl
  | sysenter pc num params =>
      rw [hook, addSysenter]
      exact (or_iff_left id).symm
  | sysexe pc ret bufaddr data =>
      rw [hook, addSysexe, (updateLast_keys ..).1]
      exact (or_iff_left id).symm
  | sysret pc hasret ret =>
      rw [hook, addSysret, (updateLast_keys ..).1]
      exact (or_iff_left id).symm

/-- The booked regions of an interval are those that its events book. -/
theorem hooks_preAccess (stack : Nat → Nat → UInt8) (info : CkptInfo) {events : List Event}
    (hGuest : ∀ event ∈ events, event.Guest) (key : Nat) :
    key ∈ (info.hooks stack events).preAccess.keys ↔
      key ∈ info.preAccess.keys ∨ ∃ event ∈ events, event.Books key := by
  induction events generalizing info with
  | nil => simp [hooks]
  | cons event rest ih =>
      rw [hooks, ih _ fun e he => hGuest e (List.mem_cons_of_mem _ he),
        info.hook_preAccess _ (hGuest event (List.mem_cons_self ..)),
        List.exists_mem_cons_iff, or_assoc]

theorem updateLast_loads (info : CkptInfo) (pc : Nat) (change : SyscallInfo → SyscallInfo) :
    (info.updateLast pc change).loads = info.loads := by
  obtain ⟨calls, hCalls⟩ := info.updateLast_frame pc change
  rw [hCalls]

/-- A byte that a hook records is one that the event loads. -/
theorem hook_temploads (stack : Nat → UInt8) (info : CkptInfo) {event : Event}
    (hGuest : event.Guest)
    {byte : Nat × UInt8} (hByte : byte ∈ temploads (info.hook stack event).loads) :
    byte ∈ temploads info.loads ∨ event.Loads byte := by
  cases event with
  | load addr size data =>
      rw [hook, temploads_addload _ _ _ _ _ hGuest.2.2, List.mem_append] at hByte
      refine hByte.imp_right fun hNew => ?_
      obtain ⟨i, hi, rfl⟩ := List.mem_map.mp hNew
      have hIn := List.mem_range.mp (List.mem_filter.mp hi).1
      exact ⟨Nat.le_add_right .., Nat.add_lt_add_left hIn _, by rw [Nat.add_sub_cancel_left]⟩
  | inst =>
      rw [hook, addinst] at hByte
      exact Or.inl hByte
  | store =>
      rw [hook, addstore] at hByte
      exact Or.inl hByte
  | sysenter =>
      rw [hook, addSysenter] at hByte
      exact Or.inl hByte
  | sysexe =>
      rw [hook, addSysexe, updateLast_loads] at hByte
      exact Or.inl hByte
  | sysret =>
      rw [hook, addSysret, updateLast_loads] at hByte
      exact Or.inl hByte

/-- Every byte that a load has recorded was loaded by an event. -/
theorem hooks_temploads (stack : Nat → Nat → UInt8) (info : CkptInfo) {events : List Event}
    (hGuest : ∀ event ∈ events, event.Guest) {byte : Nat × UInt8}
    (hByte : byte ∈ temploads (info.hooks stack events).loads) :
    byte ∈ temploads info.loads ∨ ∃ event ∈ events, event.Loads byte := by
  induction events generalizing info with
  | nil => exact Or.inl hByte
  | cons event rest ih =>
      rcases ih _ (fun e he => hGuest e (List.mem_cons_of_mem _ he)) hByte with hOld | hLater
      · rcases info.hook_temploads _ (hGuest event (List.mem_cons_self ..)) hOld with hOld | hNew
        · exact Or.inl hOld
        · exact Or.inr ⟨event, List.mem_cons_self .., hNew⟩
      · obtain ⟨later, hIn, hLoads⟩ := hLater
        exact Or.inr ⟨later, List.mem_cons_of_mem _ hIn, hLoads⟩

theorem updateLast_sysinfos (info : CkptInfo) (pc : Nat) (change : SyscallInfo → SyscallInfo) :
    (info.updateLast pc change).sysinfos =
      match info.sysinfos.getLast? with
      | none => info.sysinfos
      | some last => if last.pc ≠ pc then info.sysinfos else info.sysinfos.dropLast ++
        [change last] := by
  rw [updateLast]
  cases info.sysinfos.getLast? with
  | none => rfl
  | some last =>
      simp only
      split <;> rfl

/-- A hook changes the recorded calls by the step of its event. -/
theorem hook_sysinfos (stack : Nat → UInt8) (info : CkptInfo) (event : Event) :
    (info.hook stack event).sysinfos = callStep info.sysinfos event := by
  cases event with
  | inst pc => rfl
  | load addr size data =>
      obtain ⟨loads, hLoad⟩ := info.addload_frame stack addr data size
      rw [hook, hLoad]
      rfl
  | store addr size =>
      rw [hook, addstore]
      rfl
  | sysenter pc num params => rfl
  | sysexe pc ret bufaddr data => exact updateLast_sysinfos ..
  | sysret pc hasret ret => exact updateLast_sysinfos ..

/-- The recorded calls of an interval are folded over its events. -/
theorem hooks_sysinfos (stack : Nat → Nat → UInt8) (info : CkptInfo) (events : List Event) :
    (info.hooks stack events).sysinfos = events.foldl callStep info.sysinfos := by
  induction events generalizing info with
  | nil => rfl
  | cons event rest ih => rw [hooks, ih, hook_sysinfos, List.foldl_cons]

/-- The part of a checkpoint that no recording hook changes. -/
def header (info : CkptInfo) : CkptInfo :=
  { info with loads := [], sysinfos := [], preAccess := RegionMap.empty, textAccess := ∅ }

theorem hook_header (stack : Nat → UInt8) (info : CkptInfo) (event : Event) :
    (info.hook stack event).header = info.header := by
  have hLast : ∀ pc change, (info.updateLast pc change).header = info.header := by
    intro pc change
    obtain ⟨calls, hCalls⟩ := info.updateLast_frame pc change
    rw [hCalls, header, header]
  cases event with
  | inst pc => rw [hook, addinst, header, header]
  | load addr size data =>
      obtain ⟨loads, hLoad⟩ := info.addload_frame stack addr data size
      rw [hook, hLoad, header, header]
  | store addr size => rw [hook, addstore, header, header]
  | sysenter pc num params => rw [hook, addSysenter, header, header]
  | sysexe pc ret bufaddr data => exact hLast _ _
  | sysret pc hasret ret => exact hLast _ _

/-- An interval leaves the header alone. -/
theorem hooks_header (stack : Nat → Nat → UInt8) (info : CkptInfo) (events : List Event) :
    (info.hooks stack events).header = info.header := by
  induction events generalizing info with
  | nil => rfl
  | cons event rest ih => exact (ih _).trans (info.hook_header _ event)

/-- The ranges are built when the checkpoint is closed, not before. -/
theorem hooks_ranges (stack : Nat → Nat → UInt8) (info : CkptInfo) (events : List Event) :
    (info.hooks stack events).textrange = info.textrange ∧
    (info.hooks stack events).memrange = info.memrange := by
  have hText := congrArg textrange (info.hooks_header stack events)
  have hMem := congrArg memrange (info.hooks_header stack events)
  exact ⟨hText, hMem⟩

theorem hooks_place (stack : Nat → Nat → UInt8) (info : CkptInfo) (events : List Event) :
    (info.hooks stack events).startnum = info.startnum ∧
    (info.hooks stack events).length = info.length := by
  have hStart := congrArg startnum (info.hooks_header stack events)
  have hLength := congrArg length (info.hooks_header stack events)
  exact ⟨hStart, hLength⟩

/-- The regions that the last bookings of `detectOver` add. -/
theorem mem_bookAddrs_keys (addrs : List Nat) (state : RegionMap × (Nat → UInt8)) (key : Nat) :
    key ∈ (bookAddrs addrs state).1.keys ↔
      key ∈ state.1.keys ∨ ∃ a ∈ addrs, key = regionOf a := by
  induction addrs generalizing state with
  | nil => simp [bookAddrs]
  | cons a rest ih =>
      rw [bookAddrs, List.foldl_cons, ← bookAddrs, ih,
        mem_addAddrInfo_keys _ _ _ _ (by decide) (by decide), Nat.add_sub_cancel, or_self,
        List.exists_mem_cons_iff, or_assoc]

theorem regionOf_pageOf (a : Nat) : regionOf (pageOf a) = regionOf a := by
  simp only [regionOf, pageOf, AccessRange]
  omega

/-- An output buffer books the regions from its first page to a page behind its end. -/
theorem bufferPages_region {info : SyscallInfo} {key : Nat} :
    (∃ a ∈ bufferPages info, key = regionOf a) ↔
      ∃ b, info.data ≠ [] ∧ pageOf info.bufaddr ≤ b ∧
        b ≤ info.bufaddr + info.data.length + 4096 ∧ key = regionOf b := by
  rw [bufferPages]
  split
  · next hNone =>
      have hNil : info.data = [] := List.eq_nil_of_length_eq_zero (Nat.lt_one_iff.mp hNone)
      simp [hNil]
  · next hSome =>
      have hData : info.data ≠ [] := fun hNil => hSome (by rw [hNil]; decide)
      constructor
      · rintro ⟨a, ha, rfl⟩
        obtain ⟨i, hi, rfl⟩ := List.mem_map.mp ha
        rw [List.mem_range] at hi
        refine ⟨pageOf info.bufaddr + 4096 * i, hData, Nat.le_add_right .., ?_, rfl⟩
        simp only [pageOf] at *
        omega
      · rintro ⟨b, -, hLow, hHigh, rfl⟩
        refine ⟨pageOf b, List.mem_map.mpr ⟨(pageOf b - pageOf info.bufaddr) / 4096, ?_, ?_⟩, ?_⟩
        · rw [List.mem_range]
          simp only [pageOf] at *
          omega
        · simp only [pageOf] at *
          omega
        · exact (regionOf_pageOf b).symm

/-- A first load books the regions of its eight bytes. -/
theorem firstloadPages_region {info : FirstLoadInfo} {key : Nat} :
    (∃ a ∈ firstloadPages info, key = regionOf a) ↔
      ∃ b, info.addr ≤ b ∧ b < info.addr + 8 ∧ key = regionOf b := by
  constructor
  · rintro ⟨a, ha, rfl⟩
    rw [firstloadPages] at ha
    split at ha
    · next hCross =>
        rcases List.mem_cons.mp ha with rfl | ha
        · exact ⟨info.addr, Nat.le_refl _, by omega, regionOf_pageOf _⟩
        · rw [List.mem_singleton] at ha
          refine ⟨pageOf info.addr + 4096, ?_, by omega, by rw [ha]⟩
          simp only [pageOf]
          omega
    · rw [List.mem_singleton.mp ha]
      exact ⟨info.addr, Nat.le_refl _, by omega, regionOf_pageOf _⟩
  · rintro ⟨b, hLow, hHigh, rfl⟩
    rw [firstloadPages]
    by_cases hPage : pageOf b = pageOf info.addr
    · refine ⟨pageOf info.addr, ?_, ?_⟩
      · split <;> exact List.mem_cons_self ..
      · rw [← hPage, regionOf_pageOf]
    · have hNext : pageOf b = pageOf info.addr + 4096 := by
        simp only [pageOf] at *
        omega
      have hCross : pageOf info.addr + 4096 < info.addr + 8 :=
        Nat.lt_of_le_of_lt (hNext ▸ Nat.div_mul_le_self b 4096) hHigh
      rw [if_pos hCross]
      refine ⟨pageOf info.addr + 4096, List.mem_cons_of_mem _ (List.mem_singleton_self _), ?_⟩
      rw [← hNext, regionOf_pageOf]

end CkptInfo

def executedPcs (events : List Event) : List Nat :=
  events.filterMap fun event => match event with
    | .inst pc => some pc
    | _ => none

/-- The lowest page on which an instruction starts. -/
def textStart (events : List Event) : Nat := ((executedPcs events).map pageOf).min?.getD 0

/-- The end of the highest page that a byte of an instruction lies on. -/
def textStop (events : List Event) : Nat :=
  ((executedPcs events).map fun pc => pageOf (pc + 3) + 4096).max?.getD 0

/-- The byte shares a page with an instruction of up to four bytes at `pc`. -/
def SharesPage (pc b : Nat) : Prop := pageOf b = pageOf pc ∨ pageOf b = pageOf (pc + 3)

def textPages (events : List Event) : Finset Nat :=
  ((executedPcs events).flatMap fun pc => [pageOf pc, pageOf (pc + 3)]).toFinset

/-- The last pages of their runs: the page behind is none of them. -/
def textRuns (events : List Event) : Finset Nat :=
  (textPages events).filter fun page => page + 4096 ∉ textPages events

/-- A byte is on a page of the text if it shares a page with an executed instruction. -/
theorem mem_textPages {events : List Event} {b : Nat} :
    pageOf b ∈ textPages events ↔ ∃ pc ∈ executedPcs events, SharesPage pc b := by
  simp only [textPages, List.mem_toFinset, List.mem_flatMap, List.mem_cons,
    List.not_mem_nil, or_false, SharesPage]

theorem mem_executedPcs {events : List Event} {pc : Nat} :
    pc ∈ executedPcs events ↔ .inst pc ∈ events := by
  simp only [executedPcs, List.mem_filterMap]
  constructor
  · rintro ⟨event, hEvent, hPc⟩
    cases event <;> simp at hPc
    exact hPc ▸ hEvent
  · exact fun h => ⟨_, h, rfl⟩

theorem textStart_eq {events : List Event} {low : Nat}
    (hMem : ∃ pc ∈ executedPcs events, low = pageOf pc)
    (hLow : ∀ pc ∈ executedPcs events, low ≤ pageOf pc) : textStart events = low := by
  obtain ⟨pc, hPc, rfl⟩ := hMem
  have hMin : ((executedPcs events).map pageOf).min? = some (pageOf pc) := by
    refine List.min?_eq_some_iff.mpr ⟨List.mem_map_of_mem hPc, fun b hb => ?_⟩
    obtain ⟨pc', hPc', rfl⟩ := List.mem_map.mp hb
    exact hLow pc' hPc'
  rw [textStart, hMin, Option.getD_some]

theorem textStop_eq {events : List Event} {high : Nat}
    (hMem : ∃ pc ∈ executedPcs events, high = pageOf (pc + 3) + 4096)
    (hHigh : ∀ pc ∈ executedPcs events, pageOf (pc + 3) + 4096 ≤ high) :
    textStop events = high := by
  obtain ⟨pc, hPc, rfl⟩ := hMem
  have hMax : ((executedPcs events).map fun pc => pageOf (pc + 3) + 4096).max? =
      some (pageOf (pc + 3) + 4096) := by
    refine List.max?_eq_some_iff.mpr ⟨List.mem_map.mpr ⟨pc, hPc, rfl⟩, fun b hb => ?_⟩
    obtain ⟨pc', hPc', rfl⟩ := List.mem_map.mp hb
    exact hHigh pc' hPc'
  rw [textStop, hMax, Option.getD_some]

/-- The text stops behind the highest page of an instruction. -/
theorem le_textStop {events : List Event} {pc : Nat} (h : pc ∈ executedPcs events) :
    pageOf (pc + 3) + 4096 ≤ textStop events := by
  have hMem : pageOf (pc + 3) + 4096 ∈ (executedPcs events).map fun pc => pageOf (pc + 3) + 4096 :=
    List.mem_map.mpr ⟨pc, h, rfl⟩
  obtain ⟨high, hHigh⟩ := Option.isSome_iff_exists.mp
    (List.isSome_max?_of_ne_nil (List.ne_nil_of_mem hMem))
  rw [textStop, hHigh, Option.getD_some]
  exact (List.max?_eq_some_iff.mp hHigh).2 _ hMem

/-- The text of an interval lies in the lower half of the address space. -/
theorem text_bounds {events : List Event} (hSome : executedPcs events ≠ [])
    (hGuest : ∀ event ∈ events, event.Guest) :
    textStart events ≤ textStop events ∧ textStop events < 2 ^ 63 + 8192 := by
  have hPages : ∀ f : Nat → Nat, (executedPcs events).map f ≠ [] := fun f h =>
    hSome (List.map_eq_nil_iff.mp h)
  obtain ⟨low, hLow⟩ := Option.isSome_iff_exists.mp (List.isSome_min?_of_ne_nil (hPages pageOf))
  obtain ⟨high, hHigh⟩ := Option.isSome_iff_exists.mp
    (List.isSome_max?_of_ne_nil (hPages fun pc => pageOf (pc + 3) + 4096))
  rw [textStart, textStop, hLow, hHigh, Option.getD_some, Option.getD_some]
  obtain ⟨pc, hPc, rfl⟩ := List.mem_map.mp (List.max?_eq_some_iff.mp hHigh).1
  have hBelow := (List.min?_eq_some_iff.mp hLow).2 _ (List.mem_map_of_mem hPc)
  have hAddr : pc < 2 ^ 63 := hGuest _ (mem_executedPcs.mp hPc)
  simp only [pageOf] at hBelow ⊢
  omega

end RiscvCkpt
