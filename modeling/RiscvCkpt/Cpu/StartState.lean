import RiscvCkpt.Cpu.Created

/-! The state that a checkpoint starts from. A checkpoint takes the registers of
the tick that starts it, and from then on it records what the following ticks do.
An instruction of several micro-ops can start it before its operation is done. -/
namespace RiscvCkpt

open MachineInt

def Event.isAccess : Event → Bool
  | .load _ _ _ => true
  | .store _ _ => true
  | _ => false

/-- All calls of the recording hooks that the instruction makes. -/
def Instr.calls (i : Instr) : List Event := i.faults.flatten ++ i.events

def Shape.releases : Shape → Bool
  | .plain => false
  | .atomic _ rl => rl

def Instr.release (i : Instr) : Tick := i.tick false false [] i.before

def Cpu.checkpoints (cpu : Cpu) : List CkptInfo := cpu.saved ++ cpu.pendingCkpts

namespace CkptInfo

/-- The start of a checkpoint, as it is saved. -/
def origin (info : CkptInfo) : Nat × Regs × Nat :=
  (info.startnum, ⟨info.intregs, info.fpregs⟩, info.npc)

/-- Nothing is recorded yet but executed instructions. -/
structure Blank (info : CkptInfo) : Prop where
  keys : info.preAccess.keys = ∅
  loads : info.loads = []
  firstloads : info.firstloads = []
  sysinfos : info.sysinfos = []

/-- The checkpoint starts from the state behind the instruction, and it has
recorded no access to memory. -/
structure StartsRight (i : Instr) (info : CkptInfo) : Prop where
  origin : info.origin.2 = (i.after, i.npc)
  keys : info.preAccess.keys = ∅

def note (t : Tick) (info : CkptInfo) : CkptInfo :=
  if t.fault then info.hooks t.stack t.events
  else (info.hooks t.stack t.events).hooks t.stack [.inst t.pc]

/-- Booking an access adds at least the region it starts in. -/
theorem addAddrInfo_keys (regions : RegionMap) (addr size : Nat) (exist : Nat → UInt8) :
    insert (regionOf addr) regions.keys ⊆ (addAddrInfo regions addr size exist).1.keys := by
  simp only [addAddrInfo]
  generalize (if addr + size - 1 ≥ regionOf addr + AccessRange then
    addr + size - (regionOf addr + AccessRange) else 0) = len2
  by_cases hCross : len2 ≠ 0
  · rw [if_pos hCross, bookRegion_keys, bookRegion_keys]
    exact Finset.subset_insert _ _
  · rw [if_neg hCross, bookRegion_keys]

/-- A hook forgets no region, and an access leaves one behind. -/
theorem hook_keys (stack : Nat → UInt8) (info : CkptInfo) (event : Event) :
    info.preAccess.keys ⊆ (info.hook stack event).preAccess.keys ∧
    (event.isAccess = true → (info.hook stack event).preAccess.keys ≠ ∅) := by
  have hBooked : ∀ addr size, info.preAccess.keys ⊆
        (addAddrInfo info.preAccess addr size stack).1.keys ∧
      (addAddrInfo info.preAccess addr size stack).1.keys ≠ ∅ := by
    intro addr size
    have hKeys := addAddrInfo_keys info.preAccess addr size stack
    exact ⟨(Finset.subset_insert _ _).trans hKeys,
      Finset.ne_empty_of_mem (hKeys (Finset.mem_insert_self _ _))⟩
  cases event with
  | inst pc => exact ⟨Finset.Subset.refl _, fun h => absurd h Bool.false_ne_true⟩
  | load addr size data =>
      rw [hook, addload_preAccess]
      exact ⟨(hBooked addr size).1, fun _ => (hBooked addr size).2⟩
  | store addr size => exact ⟨(hBooked addr size).1, fun _ => (hBooked addr size).2⟩
  | sysenter pc num params => exact ⟨Finset.Subset.refl _, fun h => absurd h Bool.false_ne_true⟩
  | sysexe pc ret bufaddr data =>
      rw [hook, addSysexe, (updateLast_keys _ _ _).1]
      exact ⟨Finset.Subset.refl _, fun h => absurd h Bool.false_ne_true⟩
  | sysret pc hasret ret =>
      rw [hook, addSysret, (updateLast_keys _ _ _).1]
      exact ⟨Finset.Subset.refl _, fun h => absurd h Bool.false_ne_true⟩

/-- An interval keeps the booked regions, and an access books at least one. -/
theorem hooks_keys (stack : Nat → Nat → UInt8) (info : CkptInfo) (events : List Event) :
    info.preAccess.keys ⊆ (info.hooks stack events).preAccess.keys ∧
    ((∃ event ∈ events, event.isAccess = true) →
      (info.hooks stack events).preAccess.keys ≠ ∅) := by
  induction events generalizing info with
  | nil => exact ⟨Finset.Subset.refl _, by simp⟩
  | cons event rest ih =>
      obtain ⟨hFirst, hAccess⟩ := info.hook_keys (stack rest.length) event
      obtain ⟨hRest, hRestAccess⟩ := ih (info.hook (stack rest.length) event)
      refine ⟨hFirst.trans hRest, ?_⟩
      rintro ⟨other, hOther, hIs⟩
      rcases List.mem_cons.mp hOther with rfl | hOther
      · intro hNone
        exact hAccess hIs (Finset.subset_empty.mp (hNone ▸ hRest))
      · exact hRestAccess ⟨other, hOther, hIs⟩

theorem note_keys (t : Tick) (info : CkptInfo) :
    info.preAccess.keys ⊆ (info.note t).preAccess.keys ∧
    ((∃ event ∈ t.events, event.isAccess = true) → (info.note t).preAccess.keys ≠ ∅) := by
  have hEvents := info.hooks_keys t.stack t.events
  simp only [note]
  split <;> exact hEvents

/-- An access that has been recorded, or comes in the tick, shows behind the tick. -/
theorem note_keys_ne {t : Tick} {info : CkptInfo}
    (h : info.preAccess.keys ≠ ∅ ∨ ∃ event ∈ t.events, event.isAccess = true) :
    (info.note t).preAccess.keys ≠ ∅ := by
  rcases h with hOld | hNew
  · exact fun hNone => hOld (Finset.subset_empty.mp (hNone ▸ (info.note_keys t).1))
  · exact (info.note_keys t).2 hNew

theorem note_origin (t : Tick) (info : CkptInfo) : (info.note t).origin = info.origin := by
  have hEvents := congrArg origin (info.hooks_header t.stack t.events)
  simp only [note]
  split <;> exact hEvents

def noteAll (ts : List Tick) (info : CkptInfo) : CkptInfo :=
  ts.foldl (fun info t => info.note t) info

theorem noteAll_append (xs ys : List Tick) (info : CkptInfo) :
    info.noteAll (xs ++ ys) = (info.noteAll xs).noteAll ys := List.foldl_append

theorem note_window (t : Tick) (info : CkptInfo) : (info.note t).window = info.window := by
  rw [note]
  split
  · exact info.hooks_window t.stack t.events
  · exact (hooks_window _ _ _).trans (info.hooks_window t.stack t.events)

theorem noteAll_window (ts : List Tick) (info : CkptInfo) :
    (info.noteAll ts).window = info.window := by
  induction ts generalizing info with
  | nil => rfl
  | cons t rest ih => exact (ih (info.note t)).trans (info.note_window t)

/-- A tick without calls records no more than its pc. -/
theorem Blank.note {t : Tick} {info : CkptInfo} (h : info.Blank) (hQuiet : t.events = []) :
    (info.note t).Blank := by
  simp only [CkptInfo.note, hQuiet]
  split
  · exact h
  · exact ⟨h.keys, h.loads, h.firstloads, h.sysinfos⟩

/-- Closing a checkpoint keeps its booked regions. -/
theorem close_keys (exist : Nat → UInt8) (info : CkptInfo) (n pc : Nat) :
    info.preAccess.keys ⊆ (info.close exist n pc).preAccess.keys := by
  intro key hKey
  exact (mem_bookAddrs_keys _ _ key).mpr (Or.inl ((mem_bookAddrs_keys _ _ key).mpr (Or.inl hKey)))

/-- A blank checkpoint has no booked region when it is closed. -/
theorem Blank.close {info : CkptInfo} (h : info.Blank) (exist : Nat → UInt8) (n pc : Nat) :
    (info.close exist n pc).preAccess.keys = ∅ := by
  have hPacked : info.getFistloads.firstloads = [] := by
    rw [getFistloads, h.loads, h.firstloads]
    rfl
  simp only [CkptInfo.close, hPacked, h.sysinfos, List.flatMap_nil]
  exact h.keys

end CkptInfo

/-- The checkpoint that the tick starts, if any. -/
def Cpu.started (ctrls : List CkptCtrl) (cpu : Cpu) (t : Tick) : List CkptInfo :=
  if t.fault then []
  else
    match ctrls[cpu.ckptidx]? with
    | none => []
    | some ctrl =>
        if cpu.numInst = ctrl.start then
          [CkptInfo.create cpu.numInst (uint64 ((ctrl.stop : Int) - ctrl.start)) ctrl.warmup
            t.regs.intregs t.regs.fpregs t.pc t.npc]
        else []

/-- The checkpoint that an entry starts in a tick. -/
def CkptCtrl.startAt (ctrl : CkptCtrl) (t : Tick) : CkptInfo :=
  CkptInfo.create ctrl.start ctrl.window.length ctrl.warmup t.regs.intregs t.regs.fpregs t.pc t.npc

section Ticks

variable {settings : CkptSettings} {cpu : Cpu} {t : Tick}

/-- A tick starts no checkpoint, or that of the next entry. -/
theorem started_cases (ctrls : List CkptCtrl) (cpu : Cpu) (t : Tick) :
    cpu.started ctrls t = [] ∨
    t.fault = false ∧ ∃ ctrl, ctrls[cpu.ckptidx]? = some ctrl ∧ cpu.numInst = ctrl.start ∧
      cpu.started ctrls t = [ctrl.startAt t] := by
  rw [Cpu.started]
  split
  · exact Or.inl rfl
  · next hFault =>
      split
      · exact Or.inl rfl
      · next ctrl hCtrl =>
          by_cases hStart : cpu.numInst = ctrl.start
          · refine Or.inr ⟨Bool.eq_false_iff.mpr hFault, ctrl, hCtrl, hStart, ?_⟩
            rw [if_pos hStart, hStart]
            rfl
          · exact Or.inl (if_neg hStart)

/-- A tick that goes through starts the checkpoint of the next entry, if its number has come. -/
theorem startCkpt_fields (ctrls : List CkptCtrl) (hFault : t.fault = false) {noted : Cpu}
    (hIdx : noted.ckptidx = cpu.ckptidx) :
    (noted.startCkpt ctrls cpu.numInst t).pendingCkpts = noted.pendingCkpts ++ cpu.started ctrls t ∧
    (noted.startCkpt ctrls cpu.numInst t).saved = noted.saved ∧
    (noted.startCkpt ctrls cpu.numInst t).exited = noted.exited ∧
    (noted.startCkpt ctrls cpu.numInst t).numInst = noted.numInst ∧
    (noted.startCkpt ctrls cpu.numInst t).ckptidx =
      cpu.ckptidx + (cpu.started ctrls t).length := by
  simp only [Cpu.startCkpt, Cpu.isCkptStart, Cpu.started, hFault, hIdx,
    Bool.false_eq_true, if_false]
  cases hCtrl : ctrls[cpu.ckptidx]? with
  | none => simp [hIdx]
  | some ctrl =>
      by_cases hStart : cpu.numInst = ctrl.start
      · simp only [if_pos hStart, Cpu.addCkpt, Nat.add_sub_cancel, List.getD_eq_getElem?_getD,
          hCtrl, Option.getD_some, List.length_cons, List.length_nil, and_self]
      · simp only [if_neg hStart, List.append_nil, List.length_nil, Nat.add_zero, hIdx, and_self]

/-- Closing, seen from the pending checkpoints: nothing happens, or those that
are over go to the saved ones. -/
def ClosesSome (pending saved : List CkptInfo) (next : Cpu) : Prop :=
  ∃ exist n pc,
    next.pendingCkpts = (pending.filter fun info => (info.detectOver exist n pc).isNone) ∧
    next.saved = saved ++ pending.filterMap (fun info => info.detectOver exist n pc) ∧
    (next.exited = true → next.pendingCkpts = [])

/-- Closing moves checkpoints from the pending to the saved ones, and makes none. -/
theorem ClosesSome.mem {pending saved : List CkptInfo} {next : Cpu}
    (h : ClosesSome pending saved next) :
    (∀ info ∈ next.pendingCkpts, info ∈ pending) ∧
    (∀ info ∈ next.saved, info ∈ saved ∨
      ∃ before ∈ pending, ∃ exist n pc, info = before.close exist n pc) := by
  obtain ⟨exist, n, pc, hPending, hSaved, -⟩ := h
  rw [hPending, hSaved]
  refine ⟨fun info hInfo => List.mem_of_mem_filter hInfo, fun info hInfo => ?_⟩
  rcases List.mem_append.mp hInfo with hOld | hNew
  · exact Or.inl hOld
  · obtain ⟨before, hBefore, hOver⟩ := List.mem_filterMap.mp hNew
    rw [detectOver_eq] at hOver
    split at hOver
    · exact Or.inr ⟨before, hBefore, exist, n, pc, (Option.some.inj hOver).symm⟩
    · exact absurd hOver (by simp)

/-- The end test closes some checkpoints or none. -/
theorem endCkpt_cases (n : Nat) :
    let next := cpu.endCkpt settings n t
    next.numInst = cpu.numInst ∧
    (next.pendingCkpts = cpu.pendingCkpts ∧ next.saved = cpu.saved ∧ next.exited = cpu.exited ∨
      ClosesSome cpu.pendingCkpts cpu.saved next) := by
  have hClose : ∀ exit_pc, ClosesSome cpu.pendingCkpts cpu.saved
      (cpu.ckptDetectOver settings.ctrls (t.stack 0) n exit_pc) := by
    intro exit_pc
    refine ⟨t.stack 0, n, exit_pc, rfl, rfl, fun hExited => ?_⟩
    simp only [Cpu.ckptDetectOver, decide_eq_true_eq] at hExited
    exact hExited.1
  simp only [Cpu.endCkpt]
  obtain ⟨closed, hClosed, hNum, hCases⟩ : ∃ closed : Cpu,
      closed = (if cpu.firstOver n then
        if settings.strictLength then cpu.ckptDetectOver settings.ctrls (t.stack 0) n 0
        else if !t.isCompressed && !t.isSyscall && t.pc ∉ cpu.preinsts then
          cpu.ckptDetectOver settings.ctrls (t.stack 0) n t.pc
        else cpu
      else cpu) ∧ closed.numInst = cpu.numInst ∧
      (closed.pendingCkpts = cpu.pendingCkpts ∧ closed.saved = cpu.saved ∧
        closed.exited = cpu.exited ∨ ClosesSome cpu.pendingCkpts cpu.saved closed) := by
    refine ⟨_, rfl, ?_⟩
    split
    · split
      · exact ⟨rfl, Or.inr (hClose 0)⟩
      · split
        · exact ⟨rfl, Or.inr (hClose t.pc)⟩
        · exact ⟨rfl, Or.inl ⟨rfl, rfl, rfl⟩⟩
    · exact ⟨rfl, Or.inl ⟨rfl, rfl, rfl⟩⟩
  rw [← hClosed]
  split <;> exact ⟨hNum, hCases⟩

/-- A tick of a direct run: every pending checkpoint takes note of it, the next one may
start, and if some were pending before and the instruction goes through, the end test
follows. -/
theorem tick_direct (hDirect : settings.readCkpt = none) (hRunning : cpu.exited = false) :
    ∃ next : Cpu,
      next.pendingCkpts = cpu.pendingCkpts.map (CkptInfo.note t) ++ cpu.started settings.ctrls t ∧
      next.saved = cpu.saved ∧ next.exited = false ∧
      next.numInst = (if !t.fault && t.counts then cpu.numInst + 1 else cpu.numInst) ∧
      next.ckptidx = cpu.ckptidx + (cpu.started settings.ctrls t).length ∧
      tick settings cpu t = if !t.fault && cpu.hasValidCkpt then next.endCkpt settings cpu.numInst t
        else next := by
  have hOwn : ∀ events, settings.own t events = events := fun events =>
    if_pos (relevant_direct hDirect t.pc)
  have hNumber : cpu.number settings t = cpu.numInst := by
    simp only [Cpu.number, isBenchInst_direct hDirect, Bool.false_eq_true, if_false]
  obtain ⟨seen, hTick⟩ := @tick_eq_own settings cpu t hRunning
  simp only [hOwn, hNumber, relevant_direct hDirect, noteBench_direct hDirect, Bool.and_true,
    if_true] at hTick
  cases hFault : t.fault with
  | true =>
      rw [hFault, if_pos rfl] at hTick
      have hNote : CkptInfo.note t = fun info => info.hooks t.stack t.events := by
        funext info
        rw [CkptInfo.note, if_pos hFault]
      refine ⟨{ cpu with preinsts := seen }.hookAll t.stack t.events, ?_, rfl, hRunning,
        rfl, ?_, ?_⟩
      · rw [Cpu.started, if_pos hFault, List.append_nil, hNote]
        rfl
      · rw [Cpu.started, if_pos hFault]
        rfl
      · rw [hTick, Bool.not_true, Bool.false_and, if_neg Bool.false_ne_true]
  | false =>
      rw [hFault, if_neg Bool.false_ne_true] at hTick
      have hNote : CkptInfo.note t =
          (fun info => info.hooks t.stack [.inst t.pc]) ∘ fun info =>
          info.hooks t.stack t.events := by
        funext info
        rw [CkptInfo.note, if_neg (Bool.eq_false_iff.mp hFault), Function.comp_apply]
      generalize hNoted : Cpu.hookAll t.stack [.inst t.pc] _ = noted at hTick
      have hIdx : noted.ckptidx = cpu.ckptidx := by rw [← hNoted]; rfl
      obtain ⟨hStartPending, hStartSaved, hStartExited, hStartNum, hStartIdx⟩ :=
        startCkpt_fields settings.ctrls hFault hIdx
      refine ⟨noted.startCkpt settings.ctrls cpu.numInst t, ?_, ?_, ?_, ?_, hStartIdx, ?_⟩
      · rw [hStartPending, ← hNoted, hNote, ← List.map_map]
        rfl
      · rw [hStartSaved, ← hNoted]
        rfl
      · rw [hStartExited, ← hNoted]
        exact hRunning
      · rw [hStartNum, ← hNoted, Bool.not_false, Bool.true_and]
        rfl
      · rw [hTick, Bool.not_false, Bool.true_and]

/-- Everything that a tick of a direct run can do to the checkpoints. -/
theorem tick_cases (hDirect : settings.readCkpt = none) (hRunning : cpu.exited = false) :
    let all := cpu.pendingCkpts.map (CkptInfo.note t) ++ cpu.started settings.ctrls t
    let next := tick settings cpu t
    cpu.numInst ≤ next.numInst ∧
    (next.pendingCkpts = all ∧ next.saved = cpu.saved ∧ next.exited = false ∨
      t.fault = false ∧ ClosesSome all cpu.saved next) := by
  intro all next
  obtain ⟨noted, hPending, hSaved, hExited, hNum, -, hTick⟩ :=
    @tick_direct settings cpu t hDirect hRunning
  have hNumLe : cpu.numInst ≤ noted.numInst := by
    rw [hNum]
    split
    · exact Nat.le_succ _
    · exact Nat.le_refl _
  have hNext : next = tick settings cpu t := rfl
  rw [hNext, hTick]
  split
  · next hTest =>
      obtain ⟨hEndNum, hEnd⟩ := @endCkpt_cases settings noted t cpu.numInst
      rw [hPending, hSaved, hExited] at hEnd
      have hFault : t.fault = false := by
        rw [Bool.and_eq_true, Bool.not_eq_true'] at hTest
        exact hTest.1
      exact ⟨hEndNum.symm ▸ hNumLe, hEnd.imp_right fun h => ⟨hFault, h⟩⟩
  · exact ⟨hNumLe, Or.inl ⟨hPending, hSaved, hExited⟩⟩

/-- A tick counts an instruction if it goes through and is the last of it. -/
theorem tick_numInst (hDirect : settings.readCkpt = none) (hRunning : cpu.exited = false) :
    (tick settings cpu t).numInst =
      if !t.fault && t.counts then cpu.numInst + 1 else cpu.numInst := by
  obtain ⟨noted, -, -, -, hNum, -, hTick⟩ := @tick_direct settings cpu t hDirect hRunning
  rw [hTick, ← hNum]
  split
  · exact (@endCkpt_cases settings noted t cpu.numInst).1
  · rfl

theorem tick_exited (hExited : cpu.exited = true) : tick settings cpu t = cpu := if_pos hExited

/-- A checkpoint starts blank, with the number, registers and pc of its tick. -/
theorem started_origin {ctrls : List CkptCtrl} {info : CkptInfo} (h : info ∈ cpu.started ctrls t) :
    t.fault = false ∧ info.origin = (cpu.numInst, t.regs, t.npc) ∧ info.Blank := by
  rcases started_cases ctrls cpu t with hNone | ⟨hFault, ctrl, -, hStart, hNew⟩
  · exact absurd (hNone ▸ h) List.not_mem_nil
  · rw [hNew, List.mem_singleton] at h
    subst h
    rw [hStart]
    exact ⟨hFault, rfl, rfl, rfl, rfl, rfl⟩

/-- A checkpoint of the next state is a saved one, or one of the pending and
started ones, as it is or closed. -/
theorem tick_pending (hDirect : settings.readCkpt = none) (hRunning : cpu.exited = false) :
    let all := cpu.pendingCkpts.map (CkptInfo.note t) ++ cpu.started settings.ctrls t
    let next := tick settings cpu t
    (∀ info ∈ next.pendingCkpts, info ∈ all) ∧
    (∀ info ∈ next.saved, info ∈ cpu.saved ∨
      ∃ before ∈ all, ∃ exist n pc, info = before.close exist n pc) := by
  rcases (@tick_cases settings cpu t hDirect hRunning).2 with ⟨hPending, hSaved, -⟩ | ⟨-, hCloses⟩
  · exact ⟨fun info h => hPending ▸ h, fun info h => Or.inl (hSaved ▸ h)⟩
  · exact hCloses.mem

/-- No checkpoint gets lost: it stays, pending or saved. -/
theorem tick_keeps (hDirect : settings.readCkpt = none) (hRunning : cpu.exited = false)
    {info : CkptInfo}
    (h : info ∈ cpu.pendingCkpts.map (CkptInfo.note t) ++ cpu.started settings.ctrls t) :
    ∃ info' ∈ (tick settings cpu t).checkpoints,
      info'.origin = info.origin ∧ info.preAccess.keys ⊆ info'.preAccess.keys := by
  rcases (@tick_cases settings cpu t hDirect hRunning).2 with
    ⟨hPending, -, -⟩ | ⟨-, exist, n, pc, hPending, hSaved, -⟩
  · exact ⟨info, List.mem_append_right _ (hPending ▸ h), rfl, Finset.Subset.refl _⟩
  · cases hOver : info.detectOver exist n pc with
    | none =>
        refine ⟨info, List.mem_append_right _ ?_, rfl, Finset.Subset.refl _⟩
        rw [hPending]
        exact List.mem_filter.mpr ⟨h, by rw [hOver]; rfl⟩
    | some closed =>
        refine ⟨closed, List.mem_append_left _ ?_, ?_⟩
        · rw [hSaved]
          exact List.mem_append_right _ (List.mem_filterMap.mpr ⟨info, h, hOver⟩)
        · rw [detectOver_eq] at hOver
          split at hOver
          · obtain rfl := Option.some.inj hOver
            exact ⟨rfl, info.close_keys exist n pc⟩
          · exact absurd hOver (by simp)

theorem tick_keeps_saved (hDirect : settings.readCkpt = none) {info : CkptInfo}
    (h : info ∈ cpu.saved) : info ∈ (tick settings cpu t).saved := by
  cases hExited : cpu.exited with
  | true => rwa [tick_exited hExited]
  | false =>
      rcases (@tick_cases settings cpu t hDirect hExited).2 with
        ⟨-, hSaved, -⟩ | ⟨-, exist, n, pc, -, hSaved, -⟩
      · rwa [hSaved]
      · rw [hSaved]
        exact List.mem_append_left _ h

/-- What a checkpoint has recorded stays recorded. -/
theorem ticks_keep (hDirect : settings.readCkpt = none) (ts : List Tick) {info : CkptInfo}
    (h : info ∈ cpu.checkpoints) :
    ∃ info' ∈ (ticks settings cpu ts).checkpoints,
      info'.origin = info.origin ∧ info.preAccess.keys ⊆ info'.preAccess.keys := by
  induction ts generalizing cpu info with
  | nil => exact ⟨info, h, rfl, Finset.Subset.refl _⟩
  | cons t rest ih =>
      obtain ⟨next, hNext, hOrigin, hKeys⟩ : ∃ next ∈ (tick settings cpu t).checkpoints,
          next.origin = info.origin ∧ info.preAccess.keys ⊆ next.preAccess.keys := by
        rcases List.mem_append.mp h with hSaved | hPending
        · exact ⟨info, List.mem_append_left _ (tick_keeps_saved hDirect hSaved), rfl,
            Finset.Subset.refl _⟩
        · cases hExited : cpu.exited with
          | true => exact ⟨info, by rwa [tick_exited hExited], rfl, Finset.Subset.refl _⟩
          | false =>
              obtain ⟨next, hNext, hOrigin, hKeys⟩ := tick_keeps hDirect hExited
                (List.mem_append_left _ (List.mem_map_of_mem hPending))
              exact ⟨next, hNext, hOrigin.trans (info.note_origin t),
                (info.note_keys t).1.trans hKeys⟩
      obtain ⟨last, hLast, hLastOrigin, hLastKeys⟩ := ih hNext
      exact ⟨last, hLast, hLastOrigin.trans hOrigin, hKeys.trans hLastKeys⟩

/-- A checkpoint is older than the tick, or it starts with the tick's own state. -/
theorem tick_origin (hDirect : settings.readCkpt = none) {info : CkptInfo}
    (h : info ∈ (tick settings cpu t).checkpoints) :
    (∃ old ∈ cpu.checkpoints, old.origin = info.origin) ∨
      info.origin = (cpu.numInst, t.regs, t.npc) := by
  cases hExited : cpu.exited with
  | true =>
      rw [tick_exited hExited] at h
      exact Or.inl ⟨info, h, rfl⟩
  | false =>
      obtain ⟨hPending, hSaved⟩ := @tick_pending settings cpu t hDirect hExited
      have hAll : ∀ before ∈ cpu.pendingCkpts.map (CkptInfo.note t) ++ cpu.started settings.ctrls t,
          (∃ old ∈ cpu.checkpoints, old.origin = before.origin) ∨
            before.origin = (cpu.numInst, t.regs, t.npc) := by
        intro before hBefore
        rcases List.mem_append.mp hBefore with hOld | hNew
        · obtain ⟨old, hIn, rfl⟩ := List.mem_map.mp hOld
          exact Or.inl ⟨old, List.mem_append_right _ hIn, (old.note_origin t).symm⟩
        · exact Or.inr (started_origin hNew).2.1
      rcases List.mem_append.mp h with h | h
      · rcases hSaved info h with h | ⟨before, hBefore, exist, n, pc, rfl⟩
        · exact Or.inl ⟨info, List.mem_append_left _ h, rfl⟩
        · exact hAll before hBefore
      · exact hAll info (hPending info h)

/-- Whatever starts from here on has at least the present number. -/
theorem ticks_origin (hDirect : settings.readCkpt = none) (ts : List Tick) {info : CkptInfo}
    (h : info ∈ (ticks settings cpu ts).checkpoints) :
    (∃ old ∈ cpu.checkpoints, old.origin = info.origin) ∨
      cpu.exited = false ∧ cpu.numInst ≤ info.startnum := by
  induction ts generalizing cpu with
  | nil => exact Or.inl ⟨info, h, rfl⟩
  | cons t rest ih =>
      cases hExited : cpu.exited with
      | true =>
          have hRest := @ih (tick settings cpu t) h
          rw [tick_exited hExited, hExited] at hRest
          simpa using hRest
      | false =>
          rcases ih h with ⟨old, hOld, hOrigin⟩ | ⟨-, hLater⟩
          · rcases tick_origin hDirect hOld with ⟨older, hOlder, hSame⟩ | hNew
            · exact Or.inl ⟨older, hOlder, hSame.trans hOrigin⟩
            · have hStart : cpu.numInst = info.startnum :=
                congrArg Prod.fst (hNew.symm.trans hOrigin)
              exact Or.inr ⟨rfl, hStart.le⟩
          · exact Or.inr ⟨rfl, (tick_cases hDirect hExited).1.trans hLater⟩

end Ticks

/-- The checkpoints that start at instruction number `n` are right so far. -/
structure FreshOk (i : Instr) (n : Nat) (cpu : Cpu) : Prop where
  pending : ∀ info ∈ cpu.pendingCkpts, info.startnum = n →
      info.origin.2 = (i.after, i.npc) ∧ info.Blank
  saved : ∀ info ∈ cpu.saved, info.startnum = n → info.StartsRight i

def NonePending (n : Nat) (cpu : Cpu) : Prop := ∀ info ∈ cpu.pendingCkpts, info.startnum ≠ n

section Fresh

variable {settings : CkptSettings} {cpu : Cpu} {t : Tick} {i : Instr} {n : Nat}

/-- The checkpoints of instruction number `n` start right as long as they are right so far. -/
theorem FreshOk.startsRight (h : FreshOk i n cpu) :
    ∀ info ∈ cpu.checkpoints, info.startnum = n → info.StartsRight i := by
  intro info hInfo hStart
  rcases List.mem_append.mp hInfo with hSaved | hPending
  · exact h.saved info hSaved hStart
  · obtain ⟨hOrigin, hBlank⟩ := h.pending info hPending hStart
    exact ⟨hOrigin, hBlank.keys⟩

/-- A tick that leaves the registers of the whole instruction keeps them right, as
long as it makes no call that one of them would record. -/
theorem FreshOk.tick (hDirect : settings.readCkpt = none) (h : FreshOk i n cpu)
    (hNpc : t.npc = i.npc) (hRegs : t.fault = false → t.regs = i.after)
    (hQuiet : t.events = [] ∨ NonePending n cpu) : FreshOk i n (tick settings cpu t) := by
  cases hExited : cpu.exited with
  | true => rwa [tick_exited hExited]
  | false =>
      obtain ⟨hPending, hSaved⟩ := @tick_pending settings cpu t hDirect hExited
      have hAll : ∀ info ∈ cpu.pendingCkpts.map (CkptInfo.note t) ++ cpu.started settings.ctrls t,
          info.startnum = n → info.origin.2 = (i.after, i.npc) ∧ info.Blank := by
        intro info hInfo hStart
        rcases List.mem_append.mp hInfo with hOld | hNew
        · obtain ⟨old, hIn, rfl⟩ := List.mem_map.mp hOld
          have hNote := old.note_origin t
          have hOldStart : old.startnum = n := (congrArg Prod.fst hNote).symm.trans hStart
          obtain ⟨hOrigin, hBlank⟩ := h.pending old hIn hOldStart
          have hNoCalls : t.events = [] := hQuiet.resolve_right fun hNone => hNone old hIn hOldStart
          exact ⟨(congrArg Prod.snd hNote).trans hOrigin, hBlank.note hNoCalls⟩
        · obtain ⟨hFault, hOrigin, hBlank⟩ := started_origin hNew
          refine ⟨?_, hBlank⟩
          rw [hOrigin, hRegs hFault, hNpc]
      refine ⟨fun info hInfo => hAll info (hPending info hInfo), fun info hInfo hStart => ?_⟩
      rcases hSaved info hInfo with hOld | ⟨before, hBefore, exist, k, pc, rfl⟩
      · exact h.saved info hOld hStart
      · obtain ⟨hOrigin, hBlank⟩ := hAll before hBefore hStart
        exact ⟨hOrigin, hBlank.close exist k pc⟩

/-- An attempt that faults starts no checkpoint. -/
theorem NonePending.fault (hDirect : settings.readCkpt = none) (hFault : t.fault = true)
    (h : NonePending n cpu) : NonePending n (RiscvCkpt.tick settings cpu t) := by
  cases hExited : cpu.exited with
  | true => rwa [tick_exited hExited]
  | false =>
      intro info hInfo hStart
      rcases List.mem_append.mp ((tick_pending hDirect hExited).1 info hInfo) with hOld | hNew
      · obtain ⟨old, hIn, rfl⟩ := List.mem_map.mp hOld
        exact h old hIn ((congrArg Prod.fst (old.note_origin t)).symm.trans hStart)
      · exact absurd (hFault.symm.trans (started_origin hNew).1) (by decide)

/-- Faults of the instruction do no harm if they record nothing or nothing is pending. -/
theorem FreshOk.faults (hDirect : settings.readCkpt = none) {counts : Bool} {regs : Regs}
    {faults : List (List Event)} (h : FreshOk i n cpu)
    (hQuiet : faults.flatten = [] ∨ NonePending n cpu) :
    let next := ticks settings cpu (faults.map fun events => i.tick counts true events regs)
    FreshOk i n next ∧ (NonePending n cpu → NonePending n next) := by
  induction faults generalizing cpu with
  | nil => exact ⟨h, id⟩
  | cons events rest ih =>
      have hFirst : events = [] ∨ NonePending n cpu :=
        hQuiet.imp_left fun hNil => List.flatten_eq_nil_iff.mp hNil _ (List.mem_cons_self ..)
      have hNone : NonePending n cpu →
          NonePending n (RiscvCkpt.tick settings cpu (i.tick counts true events regs)) :=
        fun hNone => hNone.fault hDirect rfl
      have hRestQuiet : rest.flatten = [] ∨
          NonePending n (RiscvCkpt.tick settings cpu (i.tick counts true events regs)) := by
        refine hQuiet.imp (fun hNil => ?_) hNone
        rw [List.flatten_cons] at hNil
        exact (List.append_eq_nil_iff.mp hNil).2
      have hNext : FreshOk i n (RiscvCkpt.tick settings cpu (i.tick counts true events regs)) :=
        h.tick hDirect rfl (fun hNot => absurd hNot (by simp [Instr.tick])) hFirst
      obtain ⟨hRest, hRestNone⟩ := ih hNext hRestQuiet
      exact ⟨hRest, fun h => hRestNone (hNone h)⟩

/-- The fences behind the operation. -/
theorem FreshOk.fences (hDirect : settings.readCkpt = none) {rest : List Microop}
    (hFences : ∀ m ∈ rest, m = .fence) (h : FreshOk i n cpu) :
    FreshOk i n (ticks settings cpu (i.microTicks i.after rest)) := by
  induction rest generalizing cpu with
  | nil => exact h
  | cons m rest ih =>
      obtain rfl := hFences m (List.mem_cons_self ..)
      exact ih (fun m hm => hFences m (List.mem_cons_of_mem _ hm))
        (h.tick hDirect rfl (fun _ => rfl) (Or.inl rfl))

/-- The operation with the attempts before it and the fences behind it. -/
theorem FreshOk.op (hDirect : settings.readCkpt = none) {regs : Regs} {rest : List Microop}
    (hFences : ∀ m ∈ rest, m = .fence) (h : FreshOk i n cpu)
    (hQuiet : i.calls = [] ∨ NonePending n cpu) :
    FreshOk i n (ticks settings cpu (i.microTicks regs (.op :: rest))) := by
  have hSplit : i.calls = [] → i.faults.flatten = [] ∧ i.events = [] := fun hNil =>
    List.append_eq_nil_iff.mp hNil
  rw [Instr.microTicks, ticks_append]
  obtain ⟨hFaults, hNone⟩ := h.faults hDirect (hQuiet.imp_left fun hNil => (hSplit hNil).1)
  exact FreshOk.fences hDirect hFences (hFaults.tick hDirect rfl (fun _ => rfl)
    (hQuiet.imp (fun hNil => (hSplit hNil).2) hNone))

/-- A pending checkpoint stays pending over the attempts, and of the calls only those of the
operation may be left to record. -/
theorem faults_recorded (hDirect : settings.readCkpt = none) {counts : Bool} {regs : Regs}
    {faults : List (List Event)} {info : CkptInfo} {event : Event} (hRunning : cpu.exited = false)
    (hInfo : info ∈ cpu.pendingCkpts) (hAccess : event.isAccess = true)
    (hLeft : info.preAccess.keys ≠ ∅ ∨ event ∈ faults.flatten ∨ event ∈ i.events) :
    let next := ticks settings cpu (faults.map fun events => i.tick counts true events regs)
    next.exited = false ∧ ∃ info' ∈ next.pendingCkpts, info'.origin = info.origin ∧
      (info'.preAccess.keys ≠ ∅ ∨ event ∈ i.events) := by
  induction faults generalizing cpu info with
  | nil => exact ⟨hRunning, info, hInfo, rfl, hLeft.imp_right fun h => by simpa using h⟩
  | cons events more ih =>
      rcases (@tick_cases settings cpu (i.tick counts true events regs) hDirect hRunning).2
        with ⟨hPending, -, hStill⟩ | ⟨hNot, -⟩
      · have hNext : info.note (i.tick counts true events regs) ∈
            (RiscvCkpt.tick settings cpu (i.tick counts true events regs)).pendingCkpts := by
          rw [hPending]
          exact List.mem_append_left _ (List.mem_map_of_mem hInfo)
        have hKeys : (info.note (i.tick counts true events regs)).preAccess.keys ≠ ∅ ∨
            event ∈ more.flatten ∨ event ∈ i.events := by
          rcases hLeft with hKeys | hHere | hOp
          · exact Or.inl (CkptInfo.note_keys_ne (Or.inl hKeys))
          · rw [List.flatten_cons] at hHere
            rcases List.mem_append.mp hHere with hFirst | hMore
            · exact Or.inl (CkptInfo.note_keys_ne (Or.inr ⟨event, hFirst, hAccess⟩))
            · exact Or.inr (Or.inl hMore)
          · exact Or.inr (Or.inr hOp)
        obtain ⟨hRun, last, hLast, hOrigin, hEnd⟩ := ih hStill hNext hKeys
        exact ⟨hRun, last, hLast, hOrigin.trans (info.note_origin _), hEnd⟩
      · exact absurd hNot (by simp [Instr.tick])

/-- A checkpoint that is recording sees every call of the operation. -/
theorem op_recorded (hDirect : settings.readCkpt = none) {regs : Regs} {rest : List Microop}
    {info : CkptInfo} (hRunning : cpu.exited = false) (hInfo : info ∈ cpu.pendingCkpts)
    {event : Event} (hEvent : event ∈ i.calls) (hAccess : event.isAccess = true) :
    ∃ info' ∈ (ticks settings cpu (i.microTicks regs (.op :: rest))).checkpoints,
      info'.origin = info.origin ∧ info'.preAccess.keys ≠ ∅ := by
  obtain ⟨hStill, pending, hPending, hOrigin, hLeft⟩ := @faults_recorded settings cpu i hDirect
    rest.isEmpty regs i.faults info event hRunning hInfo hAccess
    (Or.inr (List.mem_append.mp hEvent))
  rw [Instr.microTicks, ticks_append]
  have hKeys : (pending.note (i.tick rest.isEmpty false i.events i.after)).preAccess.keys ≠ ∅ :=
    CkptInfo.note_keys_ne (hLeft.imp_right fun hOp => ⟨event, hOp, hAccess⟩)
  obtain ⟨next, hNext, hNextOrigin, hNextKeys⟩ := tick_keeps hDirect hStill
    (List.mem_append_left _ (List.mem_map_of_mem hPending))
  obtain ⟨last, hLast, hLastOrigin, hLastKeys⟩ :=
    ticks_keep hDirect (i.microTicks i.after rest) hNext
  refine ⟨last, hLast,
    hLastOrigin.trans (hNextOrigin.trans ((pending.note_origin _).trans hOrigin)),
    fun hNone => hKeys (Finset.subset_empty.mp ?_)⟩
  rw [← hNone]
  exact hNextKeys.trans hLastKeys

/-- Where no checkpoint has the number, all that have it are fresh. -/
theorem FreshOk.of_none (h : ∀ info ∈ cpu.checkpoints, info.startnum ≠ n) : FreshOk i n cpu where
  pending := fun info hInfo hStart => absurd hStart (h info (List.mem_append_right _ hInfo))
  saved := fun info hInfo hStart => absurd hStart (h info (List.mem_append_left _ hInfo))

/-- Where no checkpoint has the number, the operation can only start right ones. -/
theorem FreshOk.op_of_none (hDirect : settings.readCkpt = none) {regs : Regs} {rest : List Microop}
    (hFences : ∀ m ∈ rest, m = .fence) (h : ∀ info ∈ cpu.checkpoints, info.startnum ≠ n) :
    FreshOk i n (ticks settings cpu (i.microTicks regs (.op :: rest))) :=
  (FreshOk.of_none h).op hDirect hFences
    (Or.inr fun info hInfo => h info (List.mem_append_right _ hInfo))

/-- The simulator exits only behind the last pending checkpoint. -/
theorem tick_running (hDirect : settings.readCkpt = none) (hRunning : cpu.exited = false)
    {info : CkptInfo} (hPending : info ∈ (tick settings cpu t).pendingCkpts) :
    (tick settings cpu t).exited = false := by
  rcases (@tick_cases settings cpu t hDirect hRunning).2 with
    ⟨-, -, hStill⟩ | ⟨-, exist, n, pc, -, -, hNil⟩
  · exact hStill
  · rw [Bool.eq_false_iff]
    intro hExited
    rw [hNil hExited] at hPending
    exact absurd hPending List.not_mem_nil

/-- A checkpoint that the release fence starts can only be right if the operation changes
no register, and makes no call while the checkpoint is recording. -/
theorem release_safe (hDirect : settings.readCkpt = none) {rest : List Microop}
    (hAccess : ∀ event ∈ i.calls, event.isAccess = true)
    (hOld : ∀ info ∈ cpu.checkpoints, info.startnum ≠ n)
    (hRight :
      ∀ info ∈ (ticks settings cpu (i.microTicks i.before (.fence :: .op :: rest))).checkpoints,
      info.startnum = n → info.StartsRight i) :
    ∀ info ∈ (tick settings cpu i.release).checkpoints, info.startnum = n →
      i.before = i.after ∧ (info ∈ (tick settings cpu i.release).pendingCkpts → i.calls = []) := by
  intro info hInfo hStart
  have hOrigin : info.origin.2 = (i.before, i.npc) := by
    rcases tick_origin hDirect hInfo with ⟨old, hIn, hSame⟩ | hNew
    · exact absurd ((congrArg Prod.fst hSame).trans hStart) (hOld old hIn)
    · rw [hNew]
      rfl
  obtain ⟨last, hLast, hLastOrigin, -⟩ :=
    ticks_keep hDirect (i.microTicks i.before (.op :: rest)) hInfo
  have hLastRight := hRight last hLast ((congrArg Prod.fst hLastOrigin).trans hStart)
  have hSame : (i.before, i.npc) = (i.after, i.npc) := by
    rw [← hOrigin, ← hLastOrigin, hLastRight.origin]
  refine ⟨congrArg Prod.fst hSame, fun hPending => ?_⟩
  by_contra hCalls
  obtain ⟨event, hEvent⟩ := List.exists_mem_of_ne_nil _ hCalls
  have hRunning : cpu.exited = false := by
    rw [Bool.eq_false_iff]
    intro hExited
    rw [tick_exited hExited] at hInfo
    exact hOld info hInfo hStart
  obtain ⟨other, hOther, hOtherOrigin, hKeys⟩ := @op_recorded settings _ i hDirect i.before rest
    info (tick_running hDirect hRunning hPending) hPending event hEvent (hAccess event hEvent)
  exact hKeys (hRight other hOther ((congrArg Prod.fst hOtherOrigin).trans hStart)).keys

/-- Under these conditions the checkpoint is right. -/
theorem release_right (hDirect : settings.readCkpt = none) {rest : List Microop}
    (hFences : ∀ m ∈ rest, m = .fence) (hOld : ∀ info ∈ cpu.checkpoints, info.startnum ≠ n)
    (hSafe : ∀ info ∈ (tick settings cpu i.release).checkpoints, info.startnum = n →
      i.before = i.after ∧ (info ∈ (tick settings cpu i.release).pendingCkpts → i.calls = [])) :
    ∀ info ∈ (ticks settings cpu (i.microTicks i.before (.fence :: .op :: rest))).checkpoints,
      info.startnum = n → info.StartsRight i := by
  by_cases hStarted : ∃ info ∈ (tick settings cpu i.release).checkpoints, info.startnum = n
  · obtain ⟨info, hInfo, hStart⟩ := hStarted
    have hSame := (hSafe info hInfo hStart).1
    have hFence : FreshOk i n (tick settings cpu i.release) :=
      (FreshOk.of_none hOld).tick hDirect rfl (fun _ => hSame) (Or.inl rfl)
    have hQuiet : i.calls = [] ∨ NonePending n (tick settings cpu i.release) := by
      by_contra hNot
      simp only [not_or, NonePending, not_forall, not_not] at hNot
      obtain ⟨hCalls, other, hOther, hOtherStart⟩ := hNot
      exact hCalls ((hSafe other (List.mem_append_right _ hOther) hOtherStart).2 hOther)
    exact (hFence.op hDirect hFences hQuiet).startsRight
  · have hNone : ∀ info ∈ (tick settings cpu i.release).checkpoints, info.startnum ≠ n :=
      fun info hInfo hStart => hStarted ⟨info, hInfo, hStart⟩
    exact (FreshOk.op_of_none hDirect hFences hNone).startsRight

end Fresh

/-- An instruction is an operation between fences. -/
theorem Shape.microops_cases (shape : Shape) : ∃ rest : List Microop, (∀ m ∈ rest, m = .fence) ∧
    shape.microops = if shape.releases then .fence :: .op :: rest else .op :: rest := by
  cases shape with
  | plain => exact ⟨[], by simp, rfl⟩
  | atomic aq rl =>
      cases aq
      · exact ⟨[], by simp, by cases rl <;> rfl⟩
      · exact ⟨[.fence], by simp, by cases rl <;> rfl⟩

/-- Every checkpoint that starts at the instruction behind `before` starts from the
state behind that instruction, and has recorded none of its accesses. -/
def StartsOk (settings : CkptSettings) (before : List Step) (i : Instr) : Prop :=
  ∀ info ∈ (runSteps settings {} (before ++ [.instr i])).checkpoints,
    info.startnum = (instrs before).length → info.StartsRight i

/-- If the release fence of the instruction starts a checkpoint, its operation
changes no register; and it makes no call while that checkpoint is recording. -/
def SafeStart (settings : CkptSettings) (before : List Step) (i : Instr) : Prop :=
  i.shape.releases = true →
    ∀ info ∈ (tick settings (runSteps settings {} before) i.release).checkpoints,
      info.startnum = (instrs before).length →
        i.before = i.after ∧
        (info ∈ (tick settings (runSteps settings {} before) i.release).pendingCkpts → i.calls = [])

section Run

variable {settings : CkptSettings}

/-- What holds of the schedule behind every run. -/
theorem sched_run (hDirect : settings.readCkpt = none) (run : List Step) :
    CursorOk settings.ctrls (runSteps settings {} run).sched ∧
    UsedOk settings.ctrls run (runSteps settings {} run).sched := by
  rw [sched_runSteps hDirect]
  have hStart : CursorOk settings.ctrls {} := ⟨List.Perm.refl _, fun h => absurd h (by decide)⟩
  have hUsed : UsedOk settings.ctrls [] {} := ⟨fun _ => rfl, fun v => Nat.zero_le _⟩
  exact ⟨hStart.run run, hUsed.run run⟩

/-- The windows of all checkpoints are those of the schedule, in order. -/
theorem checkpoints_windows (cpu : Cpu) :
    cpu.checkpoints.map CkptInfo.window = cpu.sched.saved.map Closed.window ++
      cpu.sched.pending := by
  rw [Cpu.checkpoints, List.map_append, Cpu.sched, List.map_map]
  rfl

/-- All checkpoints have started at instructions of the run. -/
theorem startnum_lt (hDirect : settings.readCkpt = none) (run : List Step) {info : CkptInfo}
    (h : info ∈ (runSteps settings {} run).checkpoints) : info.startnum < (instrs run).length := by
  obtain ⟨hCursor, hUsed⟩ := sched_run hDirect run
  have hWindow : info.window ∈ (settings.ctrls.take
      (runSteps settings {} run).sched.ckptidx).map CkptCtrl.window := by
    rw [← hCursor.created.mem_iff, ← checkpoints_windows]
    exact List.mem_map_of_mem h
  obtain ⟨ctrl, hCtrl, hEq⟩ := List.mem_map.mp hWindow
  have hStart : ctrl.start = info.startnum := congrArg Window.start hEq
  have hOne : 0 < startsAt (settings.ctrls.take (runSteps settings {} run).sched.ckptidx)
      info.startnum := List.countP_pos_iff.mpr ⟨ctrl, hCtrl, by simp [hStart]⟩
  have hMicro := hOne.trans_le (hUsed.used info.startnum)
  by_contra hFar
  rw [microopsAt, List.getElem?_eq_none (Nat.le_of_not_lt hFar)] at hMicro
  exact absurd hMicro (by decide)

/-- The checkpoints of an instruction start right if and only if their start is safe. -/
theorem startsOk_iff (hDirect : settings.readCkpt = none) (before : List Step) (i : Instr)
    (hAccess : ∀ event ∈ i.calls, event.isAccess = true) :
    StartsOk settings before i ↔ SafeStart settings before i := by
  obtain ⟨rest, hFences, hMicro⟩ := i.shape.microops_cases
  have hMid : runSteps settings {} (before ++ [.instr i]) =
      ticks settings (runSteps settings {} before) (i.microTicks i.before i.shape.microops) := by
    rw [runSteps_append, runSteps_cons]
    rfl
  have hOld : ∀ info ∈ (runSteps settings {} before).checkpoints,
      info.startnum ≠ (instrs before).length :=
    fun info hInfo => (startnum_lt hDirect before hInfo).ne
  rw [StartsOk, SafeStart, hMid, hMicro]
  cases hShape : i.shape.releases with
  | false =>
      refine iff_of_true ?_ fun h => absurd h (by decide)
      exact (FreshOk.op_of_none hDirect hFences hOld).startsRight
  | true =>
      simp only [if_true, forall_const]
      exact ⟨release_safe hDirect hAccess hOld, release_right hDirect hFences hOld⟩

/-- Every checkpoint of a run belongs to the instruction with its number, and keeps
the start that it had when that instruction was done. -/
theorem checkpoint_started (hDirect : settings.readCkpt = none) (run : List Step)
    {info : CkptInfo} (h : info ∈ (runSteps settings {} run).checkpoints) :
    ∃ before i after, run = before ++ .instr i :: after ∧ info.startnum = (instrs before).length ∧
      ∃ start ∈ (runSteps settings {} (before ++ [.instr i])).checkpoints,
        start.origin = info.origin := by
  induction run using List.reverseRecOn generalizing info with
  | nil => exact absurd h List.not_mem_nil
  | append_singleton run step ih =>
      have hLt := startnum_lt hDirect _ h
      have hStep : runSteps settings {} (run ++ [step]) =
          ticks settings (runSteps settings {} run) step.ticks := by
        rw [runSteps_append, runSteps_cons]
        rfl
      have hCases := h
      rw [hStep] at hCases
      rcases ticks_origin hDirect step.ticks hCases with ⟨old, hOld, hOrigin⟩ | ⟨hRunning, hNew⟩
      · obtain ⟨before, i, after, rfl, hStart, start, hIn, hSame⟩ := ih hOld
        refine ⟨before, i, after ++ [step], by simp, ?_, start, hIn, hSame.trans hOrigin⟩
        exact (congrArg Prod.fst hOrigin).symm.trans hStart
      · have hCount : (instrs run).length ≤ info.startnum :=
          ((sched_run hDirect run).2.count hRunning) ▸ hNew
        cases step with
        | instr i =>
            refine ⟨run, i, [], rfl, ?_, info, h, rfl⟩
            simp only [instrs_append, instrs, List.length_append, List.length_singleton] at hLt
            omega
        | ecall e =>
            simp only [instrs_append, instrs, List.append_nil] at hLt
            omega

end Run

/-- In a direct run every checkpoint belongs to an instruction of the run. All of
them start from the state behind that instruction, with none of its accesses, if
and only if no release fence starts one ahead of an operation that matters. -/
theorem start_state_iff {settings : CkptSettings} (hDirect : settings.readCkpt = none)
    (run : List Step) (hAccess : ∀ i ∈ instrs run, ∀ event ∈ i.calls, event.isAccess = true) :
    (∀ info ∈ (runSteps settings {} run).checkpoints,
      ∃ before i after, run = before ++ .instr i :: after ∧
        info.startnum = (instrs before).length ∧
        ∃ start ∈ (runSteps settings {} (before ++ [.instr i])).checkpoints,
          start.origin = info.origin) ∧
    ((∀ before i after, run = before ++ .instr i :: after → StartsOk settings before i) ↔
      ∀ before i after, run = before ++ .instr i :: after → SafeStart settings before i) := by
  refine ⟨fun info hInfo => checkpoint_started hDirect run hInfo, ?_⟩
  refine forall_congr' fun before => forall_congr' fun i => forall_congr' fun after => ?_
  refine forall_congr' fun hRun => startsOk_iff hDirect before i (hAccess i ?_)
  rw [hRun, instrs_append, instrs]
  exact List.mem_append_right _ (List.mem_cons_self ..)

def sampleAmo (aq rl : Bool) : Instr where
  pc := 0x1004
  npc := 0x1008
  shape := .atomic aq rl
  isCompressed := false
  faults := []
  events := [.load 0x2000 8 [7, 0, 0, 0, 0, 0, 0, 0]]
  before := ⟨[0], []⟩
  after := ⟨[7], []⟩
  stack := fun _ _ => 0

theorem start_state_acquire :
    let settings : CkptSettings := { ctrls := [⟨1, 3, 0⟩] }
    let run := [idle 0x1000 .plain, .instr (sampleAmo true false)]
    ∀ before i after, run = before ++ .instr i :: after → StartsOk settings before i := by
  intro settings run
  have hAccess : ∀ i ∈ instrs run, ∀ event ∈ i.calls, event.isAccess = true := by decide +kernel
  have hShapes : ∀ i ∈ instrs run, i.shape.releases = false := by decide +kernel
  refine (start_state_iff rfl run hAccess).2.mpr fun before i after hRun hReleases => ?_
  have hMem : i ∈ instrs run := by
    rw [hRun, instrs_append, instrs]
    exact List.mem_append_right _ (List.mem_cons_self ..)
  exact absurd (hReleases.symm.trans (hShapes i hMem)) (by decide)

/-- With the release bit, the same AMO starts the checkpoint from the registers in
front of it, and its load is recorded. -/
theorem start_state_release :
    let settings : CkptSettings := { ctrls := [⟨1, 3, 0⟩] }
    let amo := sampleAmo false true
    (runSteps settings {} [idle 0x1000 .plain, .instr amo]).checkpoints.map
        (fun info => (info.startnum, info.intregs, info.npc, info.preAccess.keys)) =
      [(1, [0], 0x1008, {0x2000})] ∧
    amo.after.intregs = [7] ∧ ¬ StartsOk settings [idle 0x1000 .plain] amo := by
  intro settings amo
  have hEval : (runSteps settings {} [idle 0x1000 .plain, .instr amo]).checkpoints.map
        (fun info => (info.startnum, info.intregs, info.npc, info.preAccess.keys)) =
      [(1, [0], 0x1008, {0x2000})] := by decide +kernel
  refine ⟨hEval, rfl, fun h => ?_⟩
  have hMem : (1, [0], 0x1008, {0x2000}) ∈
      (runSteps settings {} [idle 0x1000 .plain, .instr amo]).checkpoints.map
        (fun info => (info.startnum, info.intregs, info.npc, info.preAccess.keys)) := by
    rw [hEval]
    exact List.mem_singleton_self _
  obtain ⟨info, hInfo, hFields⟩ := List.mem_map.mp hMem
  simp only [Prod.mk.injEq] at hFields
  have hRight := h info hInfo hFields.1
  have hKeys := hFields.2.2.2.symm.trans hRight.keys
  exact absurd hKeys (by decide)

end RiscvCkpt
