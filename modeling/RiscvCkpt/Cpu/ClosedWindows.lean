import RiscvCkpt.Cpu.ExecutedText

/-! What a checkpoint holds when it is closed. `getRange` dereferences the first entry
of the executed addresses and of the regions, so both have to hold one. They do if the
window recorded an instruction, and an access to memory or a system call with output.
Neither the schedule nor the main loop sees to that. -/
namespace RiscvCkpt

open CkptInfo

namespace Cpu

/-- What the ticks from a state on leave in a checkpoint that is pending in it. -/
def record (settings : CkptSettings) (cpu : Cpu) : List Tick → CkptInfo → CkptInfo
  | [], info => info
  | t :: rest, info =>
      (tick settings cpu t).record settings rest (info.feed t.stack (cpu.batches settings t))

/-- The calls of the recording hooks that the ticks make of it. -/
def recorded (settings : CkptSettings) (cpu : Cpu) : List Tick → List Event
  | [] => []
  | t :: rest => (cpu.batches settings t).flatten ++ (tick settings cpu t).recorded settings rest

end Cpu

def lastEntered (events : List Event) : Option Nat :=
  events.foldl (fun last event => match event with
    | .sysenter pc _ _ => some pc
    | _ => last) none

/-- Output of a system call is recorded: it belongs to the call that was entered last. -/
def RecordsOutput (events : List Event) : Prop :=
  ∃ before pc ret bufaddr data after, events = before ++ .sysexe pc ret bufaddr data :: after ∧
    data ≠ [] ∧ lastEntered before = some pc

/-- `getRange` finds a first entry in both sets, and the text has a last range. -/
structure CkptInfo.ClosesWell (info : CkptInfo) : Prop where
  text : info.textAccess.Nonempty
  regions : info.preAccess.keys.Nonempty
  textrange : info.textrange ≠ []

/-- What the recorded calls leave in a checkpoint that is still open. -/
structure CkptInfo.Recorded (events : List Event) (info : CkptInfo) : Prop where
  text : info.textAccess.Nonempty ↔ ∃ pc, .inst pc ∈ events
  regions : info.preAccess.keys.Nonempty ↔ ∃ event ∈ events, event.isAccess = true
  loads : info.loads ≠ [] → ∃ event ∈ events, event.isAccess = true
  firstloads : info.firstloads = []
  sysinfos : info.sysinfos = events.foldl callStep []
  textrange : info.textrange = []

/-- The window of a saved checkpoint: the ticks behind the one that started it, up to the
one that closed it. -/
def Cpu.ClosedWindow (settings : CkptSettings) (done : List Tick) (events : List Event)
    (info : CkptInfo) :
    Prop :=
  ∃ before first window after ctrl exist n pc,
    done = before ++ first :: (window ++ after) ∧
    (ticks settings {} before).Starts settings first ctrl ∧
    events = (ticks settings {} (before ++ [first])).recorded settings window ∧
    info = ((ticks settings {} (before ++ [first])).record settings window
      (ctrl.startAt first)).close exist n pc

def Cpu.OpenWindow (settings : CkptSettings) (done : List Tick) (events : List Event)
    (info : CkptInfo) : Prop :=
  ∃ before first window ctrl,
    done = before ++ first :: window ∧
    (ticks settings {} before).Starts settings first ctrl ∧
    events = (ticks settings {} (before ++ [first])).recorded settings window ∧
    info = (ticks settings {} (before ++ [first])).record settings window (ctrl.startAt first)

namespace CkptInfo

/-- The other hooks leave regions and loads alone. -/
theorem hook_other (stack : Nat → UInt8) (info : CkptInfo) {event : Event}
    (h : event.isAccess = false) :
    (info.hook stack event).preAccess = info.preAccess ∧
      (info.hook stack event).loads = info.loads := by
  cases event with
  | inst pc => exact ⟨rfl, rfl⟩
  | load addr size data => exact absurd h Bool.false_ne_true.symm
  | store addr size => exact absurd h Bool.false_ne_true.symm
  | sysenter pc num params => exact ⟨rfl, rfl⟩
  | sysexe pc ret bufaddr data => exact ⟨(updateLast_keys _ _ _).1, updateLast_loads _ _ _⟩
  | sysret pc hasret ret => exact ⟨(updateLast_keys _ _ _).1, updateLast_loads _ _ _⟩

theorem hook_textAccess_nonempty (stack : Nat → UInt8) (info : CkptInfo) (event : Event) :
    (info.hook stack event).textAccess.Nonempty ↔
      info.textAccess.Nonempty ∨ ∃ pc, event = .inst pc := by
  simp only [Finset.Nonempty, hook_textAccess, exists_or]
  apply or_congr_right
  constructor
  · rintro ⟨a, hExec⟩
    exact hExec.inst
  · rintro ⟨pc, rfl⟩
    exact ⟨pc, Or.inl rfl⟩

/-- A hook adds its event to what is recorded. -/
theorem Recorded.hook {events : List Event} {info : CkptInfo} (h : info.Recorded events)
    (stack : Nat → UInt8) (event : Event) :
    (info.hook stack event).Recorded (events ++ [event]) := by
  have hHeader := info.hook_header stack event
  have hMore : (∃ e ∈ events ++ [event], e.isAccess = true) ↔
      (∃ e ∈ events, e.isAccess = true) ∨ event.isAccess = true := by
    simp only [List.mem_append, List.mem_singleton, or_and_right, exists_or, exists_eq_left]
  constructor
  case text =>
    rw [hook_textAccess_nonempty, h.text, ← exists_or]
    simp only [List.mem_append, List.mem_singleton, eq_comm]
  case regions =>
    rw [hMore, ← h.regions]
    cases hAccess : event.isAccess with
    | true =>
        have hKeys := (info.hook_keys stack event).2 hAccess
        exact iff_of_true (Finset.nonempty_iff_ne_empty.mpr hKeys) (Or.inr rfl)
    | false =>
        rw [(info.hook_other stack hAccess).1]
        exact (or_iff_left Bool.false_ne_true).symm
  case loads =>
    rw [hMore]
    intro hLoads
    cases hAccess : event.isAccess with
    | true => exact Or.inr rfl
    | false =>
        rw [(info.hook_other stack hAccess).2] at hLoads
        exact Or.inl (h.loads hLoads)
  case firstloads => exact (congrArg CkptInfo.firstloads hHeader).trans h.firstloads
  case sysinfos =>
    rw [hook_sysinfos, h.sysinfos, List.foldl_append, List.foldl_cons, List.foldl_nil]
  case textrange => exact (congrArg CkptInfo.textrange hHeader).trans h.textrange

/-- The hooks of an interval add their events to what is recorded. -/
theorem Recorded.hooks {events : List Event} {info : CkptInfo} (h : info.Recorded events)
    (stack : Nat → Nat → UInt8) (more : List Event) :
    (info.hooks stack more).Recorded (events ++ more) := by
  induction more generalizing events info with
  | nil => rwa [List.append_nil]
  | cons event rest ih =>
      have hRest := ih (h.hook (stack rest.length) event)
      rwa [List.append_assoc, List.singleton_append] at hRest

theorem Recorded.feed {events : List Event} {info : CkptInfo} (h : info.Recorded events)
    (stack : Nat → Nat → UInt8) (batches : List (List Event)) :
    (info.feed stack batches).Recorded (events ++ batches.flatten) := by
  induction batches generalizing events info with
  | nil => rwa [List.flatten_nil, List.append_nil]
  | cons batch rest ih =>
      have hRest := ih (h.hooks stack batch)
      rwa [List.append_assoc, ← List.flatten_cons] at hRest

/-- The ticks of a run add the calls that they make to what is recorded. -/
theorem Recorded.record {events : List Event} {info : CkptInfo} (h : info.Recorded events)
    (settings : CkptSettings) (cpu : Cpu) (ts : List Tick) :
    (cpu.record settings ts info).Recorded (events ++ cpu.recorded settings ts) := by
  induction ts generalizing cpu events info with
  | nil => rwa [Cpu.recorded, List.append_nil]
  | cons t rest ih =>
      have hRest := ih (h.feed t.stack (cpu.batches settings t)) (tick settings cpu t)
      rwa [List.append_assoc] at hRest

/-- A new checkpoint holds nothing. -/
theorem Recorded.startAt (ctrl : CkptCtrl) (t : Tick) : (ctrl.startAt t).Recorded [] where
  text := by simp [CkptCtrl.startAt, create]
  regions := by simp [CkptCtrl.startAt, create, RegionMap.empty]
  loads := fun h => absurd rfl h
  firstloads := rfl
  sysinfos := rfl
  textrange := rfl

end CkptInfo

section Output

/-- A call more. -/
theorem lastEntered_concat (events : List Event) (event : Event) :
    lastEntered (events ++ [event]) = match event with
      | .sysenter pc _ _ => some pc
      | _ => lastEntered events := by
  rw [lastEntered, List.foldl_append]
  rfl

/-- Output is recorded by the last call of a sequence or by an earlier one. -/
theorem recordsOutput_concat (events : List Event) (event : Event) :
    RecordsOutput (events ++ [event]) ↔ RecordsOutput events ∨
      ∃ pc ret bufaddr data, event = .sysexe pc ret bufaddr data ∧ data ≠ [] ∧
        lastEntered events = some pc := by
  constructor
  · rintro ⟨before, pc, ret, bufaddr, data, after, hEvents, hData, hLast⟩
    rcases List.eq_nil_or_concat' after with rfl | ⟨rest, last, rfl⟩
    · obtain ⟨rfl, hEvent⟩ := List.append_inj' hEvents rfl
      exact Or.inr ⟨pc, ret, bufaddr, data, List.singleton_inj.mp hEvent, hData, hLast⟩
    · rw [← List.cons_append, ← List.append_assoc] at hEvents
      obtain ⟨rfl, -⟩ := List.append_inj' hEvents rfl
      exact Or.inl ⟨before, pc, ret, bufaddr, data, rest, rfl, hData, hLast⟩
  · rintro (⟨before, pc, ret, bufaddr, data, after, rfl, hData, hLast⟩ |
      ⟨pc, ret, bufaddr, data, rfl, hData, hLast⟩)
    · refine ⟨before, pc, ret, bufaddr, data, after ++ [event], ?_, hData, hLast⟩
      rw [List.append_assoc, List.cons_append]
    · exact ⟨events, pc, ret, bufaddr, data, [], rfl, hData, hLast⟩

/-- One hook more, seen from the recorded calls. -/
theorem callStep_output (calls : List SyscallInfo) (event : Event) :
    ((callStep calls event).getLast?.map SyscallInfo.pc = match event with
      | .sysenter pc _ _ => some pc
      | _ => calls.getLast?.map SyscallInfo.pc) ∧
    ((∃ call ∈ callStep calls event, call.data ≠ []) ↔ (∃ call ∈ calls, call.data ≠ []) ∨
      ∃ pc ret bufaddr data, event = .sysexe pc ret bufaddr data ∧ data ≠ [] ∧
        calls.getLast?.map SyscallInfo.pc = some pc) := by
  cases event with
  | inst pc => simp [callStep]
  | load addr size data => simp [callStep]
  | store addr size => simp [callStep]
  | sysenter pc num params => simp [callStep]
  | sysexe pc ret bufaddr data =>
      rcases List.eq_nil_or_concat' calls with rfl | ⟨rest, last, rfl⟩
      · simp [callStep]
      · by_cases hPc : last.pc = pc
        · simp [callStep, hPc, or_and_right, exists_or, or_assoc, imp_iff_not_or]
        · simp [callStep, hPc]
  | sysret pc hasret ret =>
      rcases List.eq_nil_or_concat' calls with rfl | ⟨rest, last, rfl⟩
      · simp [callStep]
      · by_cases hPc : last.pc = pc
        · simp [callStep, hPc]
        · simp [callStep, hPc]

/-- The recorded calls: the last one is the last that was entered, and one of them has
output if output was recorded. -/
theorem calls_output (events : List Event) :
    ((events.foldl callStep []).getLast?.map SyscallInfo.pc = lastEntered events) ∧
    ((∃ call ∈ events.foldl callStep [], call.data ≠ []) ↔ RecordsOutput events) := by
  induction events using List.reverseRecOn with
  | nil => exact ⟨rfl, by simp [RecordsOutput]⟩
  | append_singleton events event ih =>
      obtain ⟨hLast, hOutput⟩ := ih
      rw [List.foldl_append, recordsOutput_concat, lastEntered_concat, ← hOutput, ← hLast]
      exact callStep_output _ event

end Output

section Ticks

variable {settings : CkptSettings} {t : Tick} {done : List Tick} {events : List Event}
  {info : CkptInfo}

theorem record_concat (settings : CkptSettings) (cpu : Cpu) (ts : List Tick) (t : Tick)
    (info : CkptInfo) :
    cpu.record settings (ts ++ [t]) info =
      (cpu.record settings ts info).feed t.stack ((ticks settings cpu ts).batches settings t) := by
  induction ts generalizing cpu info with
  | nil => rfl
  | cons first rest ih => exact ih (tick settings cpu first) _

theorem recorded_concat (settings : CkptSettings) (cpu : Cpu) (ts : List Tick) (t : Tick) :
    cpu.recorded settings (ts ++ [t]) =
      cpu.recorded settings ts ++ ((ticks settings cpu ts).batches settings t).flatten := by
  induction ts generalizing cpu with
  | nil => exact List.append_nil _
  | cons first rest ih =>
      rw [List.cons_append, Cpu.recorded, Cpu.recorded, ih, List.append_assoc]
      rfl

/-- An open window sees the calls of the next tick. -/
theorem Cpu.OpenWindow.see (h : Cpu.OpenWindow settings done events info) :
    Cpu.OpenWindow settings (done ++ [t])
      (events ++ ((ticks settings {} done).batches settings t).flatten)
      (info.feed t.stack ((ticks settings {} done).batches settings t)) := by
  obtain ⟨before, first, window, ctrl, rfl, hStarts, rfl, rfl⟩ := h
  have hState : ticks settings {} (before ++ first :: window) =
      ticks settings (ticks settings {} (before ++ [first])) window := by
    rw [List.append_cons, ticks_append]
  refine ⟨before, first, window ++ [t], ctrl, ?_, hStarts, ?_, ?_⟩
  · rw [List.append_assoc, List.cons_append]
  · rw [recorded_concat, hState]
  · rw [record_concat, hState]

theorem Cpu.OpenWindow.close (h : Cpu.OpenWindow settings done events info) (exist : Nat → UInt8)
    (n pc : Nat) : Cpu.ClosedWindow settings done events (info.close exist n pc) := by
  obtain ⟨before, first, window, ctrl, rfl, hStarts, rfl, rfl⟩ := h
  refine ⟨before, first, window, [], ctrl, exist, n, pc, ?_, hStarts, rfl, rfl⟩
  rw [List.append_nil]

theorem Cpu.ClosedWindow.append (h : Cpu.ClosedWindow settings done events info)
    (more : List Tick) : Cpu.ClosedWindow settings (done ++ more) events info := by
  obtain ⟨before, first, window, after, ctrl, exist, n, pc, rfl, hRest⟩ := h
  refine ⟨before, first, window, after ++ more, ctrl, exist, n, pc, ?_, hRest⟩
  rw [List.append_assoc, List.cons_append, List.append_assoc]

/-- Every saved checkpoint has been closed with the calls of its window. -/
theorem savedCalls_window (settings : CkptSettings) (ts : List Tick) :
    ∀ p ∈ savedCalls settings ts, Cpu.ClosedWindow settings ts p.2 p.1 := by
  have hInd := @saved_induction _ settings []
    (fun cpu t calls => calls ++ (cpu.batches settings t).flatten)
    (fun done info events => Cpu.OpenWindow settings done events info)
    (fun done info events => Cpu.ClosedWindow settings done events info)
  refine (hInd ?_ ?_ ?_ ?_ ts).2
  · intro done t ctrl _ hStarts
    exact ⟨done, t, [], ctrl, rfl, hStarts, rfl, rfl⟩
  · intro done t info events hOpen
    exact hOpen.see
  · intro done info events exist n pc hOpen
    exact hOpen.close exist n pc
  · intro done t info events hClosed
    exact hClosed.append [t]

end Ticks

namespace CkptInfo

theorem bufferPages_ne_nil (call : SyscallInfo) : bufferPages call ≠ [] ↔ call.data ≠ [] := by
  cases hData : call.data with
  | nil => simp [bufferPages, hData]
  | cons byte rest => simp [bufferPages, hData]

/-- The regions of a closed checkpoint. -/
theorem Recorded.close_regions {events : List Event} {info : CkptInfo} (h : info.Recorded events)
    (exist : Nat → UInt8) (n pc : Nat) :
    (info.close exist n pc).preAccess.keys.Nonempty ↔
      (∃ event ∈ events, event.isAccess = true) ∨ RecordsOutput events := by
  by_cases hAccess : ∃ event ∈ events, event.isAccess = true
  · exact iff_of_true ((h.regions.mpr hAccess).mono (info.close_keys exist n pc)) (Or.inl hAccess)
  · have hLoads : info.loads = [] := not_not.mp (mt h.loads hAccess)
    have hPacked : info.getFistloads.firstloads = [] := by
      rw [getFistloads, hLoads, h.firstloads]
      rfl
    have hKeys : info.preAccess.keys = ∅ :=
      Finset.not_nonempty_iff_eq_empty.mp (mt h.regions.mp hAccess)
    rw [or_iff_right hAccess, ← (calls_output events).2, ← h.sysinfos]
    simp only [CkptInfo.close, hPacked, List.flatMap_nil, Finset.Nonempty,
      mem_bookAddrs_keys, hKeys, Finset.notMem_empty, false_or, List.not_mem_nil, false_and,
      exists_false, or_false]
    constructor
    · rintro ⟨key, a, ha, -⟩
      obtain ⟨call, hCall, hPage⟩ := List.mem_flatMap.mp ha
      exact ⟨call, hCall, (bufferPages_ne_nil call).mp (List.ne_nil_of_mem hPage)⟩
    · rintro ⟨call, hCall, hData⟩
      obtain ⟨a, hPage⟩ := List.exists_mem_of_ne_nil _ ((bufferPages_ne_nil call).mpr hData)
      exact ⟨_, a, List.mem_flatMap.mpr ⟨call, hCall, hPage⟩, rfl⟩

theorem getRange_ne_nil (unit : Nat) (ranges : List CodeRange) {addrs : List Nat} (h : addrs ≠ []) :
    (getRange unit ranges addrs).1 ≠ [] := by
  cases addrs with
  | nil => exact absurd rfl h
  | cons first rest => exact List.append_ne_nil_of_right_ne_nil _ (List.cons_ne_nil _ _)

/-- A closed checkpoint has a text range if it has executed something. -/
theorem close_textrange (info : CkptInfo) (exist : Nat → UInt8) (n pc : Nat)
    (h : info.textAccess.Nonempty) : (info.close exist n pc).textrange ≠ [] := by
  obtain ⟨a, ha⟩ := h
  have hSort : a ∈ info.textAccess.sort := (Finset.mem_sort _).mpr ha
  exact getRange_ne_nil 4096 info.textrange (List.ne_nil_of_mem hSort)

end CkptInfo

/-- What a closed checkpoint holds, by the calls that its window recorded. -/
theorem Cpu.ClosedWindow.spec {settings : CkptSettings} {ts : List Tick} {events : List Event}
    {info : CkptInfo} (h : Cpu.ClosedWindow settings ts events info) :
    (info.textAccess.Nonempty ↔ ∃ pc, .inst pc ∈ events) ∧
    (info.preAccess.keys.Nonempty ↔
      (∃ event ∈ events, event.isAccess = true) ∨ RecordsOutput events) ∧
    (info.textAccess.Nonempty → info.textrange ≠ []) := by
  obtain ⟨before, first, window, after, ctrl, exist, n, pc, -, -, rfl, rfl⟩ := h
  have hRecorded := (Recorded.startAt ctrl first).record settings
    (ticks settings {} (before ++ [first])) window
  generalize Cpu.record settings (ticks settings {} (before ++ [first])) window _ =
    last at hRecorded ⊢
  exact ⟨hRecorded.text, hRecorded.close_regions exist n pc, last.close_textrange exist n pc⟩

/-- Closing a checkpoint is well defined exactly if its window recorded an instruction,
and an access to memory or output of a system call. This holds for every schedule and every
run, with or without a checkpoint to re-create from. -/
theorem closes_well_iff (settings : CkptSettings) (ts : List Tick) :
    (savedCalls settings ts).map Prod.fst = (ticks settings {} ts).saved ∧
    ∀ info events, (info, events) ∈ savedCalls settings ts →
      Cpu.ClosedWindow settings ts events info ∧
      (info.ClosesWell ↔ (∃ pc, .inst pc ∈ events) ∧
        ((∃ event ∈ events, event.isAccess = true) ∨ RecordsOutput events)) := by
  refine ⟨savedCalls_fst settings ts, fun info events hSaved => ?_⟩
  have hWindow := savedCalls_window settings ts _ hSaved
  obtain ⟨hText, hRegions, hRange⟩ := hWindow.spec
  refine ⟨hWindow, ?_⟩
  rw [← hText, ← hRegions]
  constructor
  · intro hWell
    exact ⟨hWell.text, hWell.regions⟩
  · rintro ⟨hSomeText, hSomeRegion⟩
    exact ⟨hSomeText, hSomeRegion, hRange hSomeText⟩

def loadRun : List Step :=
  [idle 0x1000 .plain,
   .instr { pc := 0x1004, npc := 0x1008, shape := .plain, isCompressed := false, faults := [],
            events := [.load 0x9000 8 (List.replicate 8 7)], before := ⟨[], []⟩, after := ⟨[], []⟩,
            stack := fun _ _ => 0 },
   idle 0x1008 .plain]

def loadSettings : CkptSettings := { ctrls := [⟨0, 2, 0⟩] }

theorem closes_well_load :
    ∃ info ∈ (ticks loadSettings {} (loadRun.flatMap Step.ticks)).saved, info.ClosesWell := by
  have hSets : (ticks loadSettings {} (loadRun.flatMap Step.ticks)).saved.map
      (fun info => (info.textAccess, info.preAccess.keys)) = [({0x1004, 0x1008}, {0x8000})] := by
    decide +kernel
  obtain ⟨info, hSaved, hInfo⟩ :
    ∃ info ∈ (ticks loadSettings {} (loadRun.flatMap Step.ticks)).saved,
      (info.textAccess, info.preAccess.keys) = ({0x1004, 0x1008}, {0x8000}) := by
    apply List.mem_map.mp
    rw [hSets]
    exact List.mem_singleton_self _
  obtain ⟨hText, hRegions⟩ := Prod.mk.inj hInfo
  obtain ⟨hAll, hWell⟩ := closes_well_iff loadSettings (loadRun.flatMap Step.ticks)
  obtain ⟨⟨info', events⟩, hMem, rfl⟩ := List.mem_map.mp (hAll ▸ hSaved : info ∈ List.map _ _)
  obtain ⟨hWindow, hIff⟩ := hWell _ events hMem
  obtain ⟨hTextIff, hRegionsIff, -⟩ := hWindow.spec
  refine ⟨_, hSaved, hIff.mpr ⟨hTextIff.mp ?_, hRegionsIff.mp ?_⟩⟩
  · rw [hText]
    exact Finset.insert_nonempty _ _
  · rw [hRegions]
    exact Finset.singleton_nonempty _

def emptySettings : CkptSettings := { ctrls := [⟨0, 1, 0⟩, ⟨1, 1, 0⟩], strictLength := true }

/-- Instructions that access no memory leave the first window without a region. The second
window starts in the tick that ends the first. It is over at once and has recorded nothing. -/
theorem closing_empty :
    ∃ first second, (runSteps emptySettings {} [idle 0x1000 .plain, idle 0x1004 .plain]).saved =
        [first, second] ∧
      first.preAccess.keys = ∅ ∧ second.textAccess = ∅ ∧ ¬ first.ClosesWell ∧
      ¬ second.ClosesWell := by
  have hSets : (runSteps emptySettings {} [idle 0x1000 .plain, idle 0x1004 .plain]).saved.map
      (fun info => (info.textAccess, info.preAccess.keys)) = [({0x1004}, ∅), (∅, ∅)] := by
    decide +kernel
  obtain ⟨first, rest, hSaved, hFirst, hRest⟩ := List.map_eq_cons_iff.mp hSets
  obtain ⟨second, hSecond, hText⟩ := List.map_eq_singleton_iff.mp hRest
  obtain ⟨-, hKeys⟩ := Prod.mk.inj hFirst
  obtain ⟨hNone, -⟩ := Prod.mk.inj hText
  refine ⟨first, second, ?_, hKeys, hNone, ?_, ?_⟩
  · rw [hSaved, hSecond]
  · intro hWell
    exact Finset.not_nonempty_empty (hKeys ▸ hWell.regions)
  · intro hWell
    exact Finset.not_nonempty_empty (hNone ▸ hWell.text)

end RiscvCkpt
