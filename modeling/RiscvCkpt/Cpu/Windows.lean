import RiscvCkpt.Cpu.StartState

/-! The windows of the checkpoints of a run. Each pending or saved checkpoint is followed
through the ticks that it takes note of: those behind the one that starts it, up to the one
that closes it. -/
namespace RiscvCkpt

open CkptInfo

namespace Cpu

/-- The calls of the recording hooks that reach a pending checkpoint in the tick, by the
three places of `tick` that make them. -/
def batches (settings : CkptSettings) (cpu : Cpu) (t : Tick) : List (List Event) :=
  if t.fault then [settings.own t t.events]
  else [settings.own t t.events, cpu.repeated settings t, settings.own t [.inst t.pc]]

/-- The tick starts the checkpoint of the entry. -/
structure Starts (settings : CkptSettings) (cpu : Cpu) (t : Tick) (ctrl : CkptCtrl) : Prop where
  passed : t.fault = false
  relevant : settings.relevant t.pc = true
  next : settings.ctrls[cpu.ckptidx]? = some ctrl
  due : cpu.number settings t = ctrl.start

def starting (settings : CkptSettings) (cpu : Cpu) (t : Tick) : Option CkptCtrl :=
  if t.fault || !settings.relevant t.pc then none
  else settings.ctrls[cpu.ckptidx]?.filter fun ctrl => cpu.number settings t = ctrl.start

end Cpu

def CkptInfo.feed (stack : Nat → Nat → UInt8) (batches : List (List Event)) (info : CkptInfo) :
    CkptInfo :=
  batches.foldl (fun info events => info.hooks stack events) info

/-- The checkpoints that the end test of the tick looks at: those that were pending have
taken note of the tick, and the one that it starts is blank. -/
def Cpu.reached (settings : CkptSettings) (cpu : Cpu) (t : Tick) : List CkptInfo :=
  cpu.pendingCkpts.map (CkptInfo.feed t.stack (cpu.batches settings t)) ++
    (cpu.starting settings t).toList.map fun ctrl => ctrl.startAt t

/-- What the end test of the tick makes of a checkpoint. -/
def Cpu.over (settings : CkptSettings) (cpu : Cpu) (t : Tick) (info : CkptInfo) : Option CkptInfo :=
  info.detectOver (t.stack 0) (cpu.number settings t) (if settings.strictLength then 0 else t.pc)

section Ticks

variable {settings : CkptSettings} {cpu : Cpu} {t : Tick}

/-- The entry that a tick starts, if any. -/
theorem Cpu.starting_eq_some {ctrl : CkptCtrl} :
    cpu.starting settings t = some ctrl ↔ cpu.Starts settings t ctrl := by
  rw [Cpu.starting]
  constructor
  · intro h
    split at h
    · exact absurd h (Option.some_ne_none ctrl).symm
    · next hNot =>
        rw [Bool.or_eq_true, not_or, Bool.not_eq_true, Bool.not_eq_true', Bool.not_eq_false] at hNot
        obtain ⟨hNext, hDue⟩ := Option.filter_eq_some_iff.mp h
        exact ⟨hNot.1, hNot.2, hNext, of_decide_eq_true hDue⟩
  · rintro ⟨hPassed, hRelevant, hNext, hDue⟩
    rw [hPassed, hRelevant, hNext, Bool.not_true, Bool.or_false, if_neg Bool.false_ne_true]
    exact Option.filter_eq_some_iff.mpr ⟨rfl, decide_eq_true hDue⟩

/-- Starting the next checkpoint, if its time has come. -/
theorem startCkpt_starting (hFault : t.fault = false) {noted : Cpu}
    (hIdx : noted.ckptidx = cpu.ckptidx) :
    let next := if settings.relevant t.pc then
      noted.startCkpt settings.ctrls (cpu.number settings t) t else noted
    next.pendingCkpts = noted.pendingCkpts ++
      (cpu.starting settings t).toList.map (fun ctrl => ctrl.startAt t) ∧
    next.saved = noted.saved := by
  rw [Cpu.starting, hFault, Bool.false_or]
  cases settings.relevant t.pc with
  | false => exact ⟨(List.append_nil _).symm, rfl⟩
  | true =>
      simp only [if_true, Bool.not_true, Bool.false_eq_true, if_false, Cpu.startCkpt,
        Cpu.isCkptStart, hIdx]
      cases hCtrl : settings.ctrls[cpu.ckptidx]? with
      | none => exact ⟨(List.append_nil _).symm, rfl⟩
      | some ctrl =>
          by_cases hStart : cpu.number settings t = ctrl.start
          · simp only [Option.filter_some, hStart, decide_true, if_true, Cpu.addCkpt,
              Nat.add_sub_cancel, List.getD_eq_getElem?_getD, hCtrl, Option.getD_some, and_true]
            rfl
          · simp only [Option.filter_some, hStart, decide_false, Bool.false_eq_true, if_false,
              Option.toList_none, List.map_nil, List.append_nil, and_self]

/-- Up to the start of the next checkpoint nothing is saved, and every pending one has
taken note of the tick. -/
theorem noted_fields (hFault : t.fault = false) (seen : Finset Nat) (n : Nat) :
    let hooked := { cpu with preinsts := seen }.hookAll t.stack (settings.own t t.events)
    let noted := ({ hooked with numInst := n }.noteBench settings t).hookAll t.stack
      (settings.own t [.inst t.pc])
    noted.pendingCkpts = cpu.pendingCkpts.map (CkptInfo.feed t.stack (cpu.batches settings t)) ∧
    noted.saved = cpu.saved ∧ noted.ckptidx = cpu.ckptidx := by
  intro hooked noted
  obtain ⟨hPending, hSaved, hIdx⟩ := noteBench_fields settings { hooked with numInst := n } t
  have hRepeated : ({ hooked with numInst := n } : Cpu).repeated settings t =
      cpu.repeated settings t := rfl
  refine ⟨?_, hSaved, hIdx⟩
  have hNoted : noted.pendingCkpts =
      ({ hooked with numInst := n }.noteBench settings t).pendingCkpts.map
        (CkptInfo.feed t.stack [settings.own t [.inst t.pc]]) := rfl
  have hHooked : hooked.pendingCkpts = cpu.pendingCkpts.map
      (CkptInfo.feed t.stack [settings.own t t.events]) := rfl
  rw [hNoted, hPending, hRepeated, hHooked, List.map_map, List.map_map]
  simp only [Cpu.batches, hFault, Bool.false_eq_true, if_false]
  rfl

/-- The end test leaves everything as it is, or saves whatever is over. -/
theorem endCkpt_over (start : Cpu) :
    let next := start.endCkpt settings (cpu.number settings t) t
    next.pendingCkpts = start.pendingCkpts ∧ next.saved = start.saved ∨
    next.pendingCkpts =
      (start.pendingCkpts.filter fun info => (cpu.over settings t info).isNone) ∧
    next.saved = start.saved ++ start.pendingCkpts.filterMap (cpu.over settings t) := by
  have hClosed : ∀ closed : Cpu,
      let next := if !t.isCompressed && !settings.strictLength then
        { closed with preinsts := insert t.pc closed.preinsts } else closed
      next.pendingCkpts = closed.pendingCkpts ∧ next.saved = closed.saved := by
    intro closed
    simp only
    split
    · exact ⟨rfl, rfl⟩
    · exact ⟨rfl, rfl⟩
  simp only [Cpu.endCkpt, hClosed]
  split
  · by_cases hStrict : settings.strictLength = true
    · have hOver : cpu.over settings t =
          fun info => info.detectOver (t.stack 0) (cpu.number settings t) 0 := by
        funext info
        rw [Cpu.over, if_pos hStrict]
      rw [if_pos hStrict, hOver]
      exact Or.inr ⟨rfl, rfl⟩
    · have hOver : cpu.over settings t =
          fun info => info.detectOver (t.stack 0) (cpu.number settings t) t.pc := by
        funext info
        rw [Cpu.over, if_neg hStrict]
      rw [if_neg hStrict, hOver]
      split
      · exact Or.inr ⟨rfl, rfl⟩
      · exact Or.inl ⟨rfl, rfl⟩
  · exact Or.inl ⟨rfl, rfl⟩

/-- Everything that a tick can do to the checkpoints, in a direct run or a re-creating one. -/
theorem tick_reached (hRunning : cpu.exited = false) :
    let next := tick settings cpu t
    next.pendingCkpts = cpu.reached settings t ∧ next.saved = cpu.saved ∨
    next.pendingCkpts =
      ((cpu.reached settings t).filter fun info => (cpu.over settings t info).isNone) ∧
    next.saved = cpu.saved ++ (cpu.reached settings t).filterMap (cpu.over settings t) := by
  obtain ⟨seen, hTick⟩ := @tick_eq_own settings cpu t hRunning
  rw [hTick]
  cases hFault : t.fault with
  | true =>
      refine Or.inl ⟨?_, rfl⟩
      rw [Cpu.reached, Cpu.starting, Cpu.batches, hFault, Bool.true_or, if_pos rfl, if_pos rfl]
      exact (List.append_nil _).symm
  | false =>
      simp only [Bool.false_eq_true, if_false]
      obtain ⟨hPending, hSaved, hIdx⟩ := @noted_fields settings cpu t hFault seen
        (if t.counts then cpu.numInst + 1 else cpu.numInst)
      generalize Cpu.hookAll t.stack (settings.own t [.inst t.pc]) _ =
        noted at hPending hSaved hIdx ⊢
      obtain ⟨hStartPending, hStartSaved⟩ := @startCkpt_starting settings cpu t hFault noted hIdx
      rw [hPending, ← Cpu.reached] at hStartPending
      rw [hSaved] at hStartSaved
      split
      · rw [← hStartPending, ← hStartSaved]
        exact endCkpt_over _
      · exact Or.inl ⟨hStartPending, hStartSaved⟩

end Ticks

/-- The pending and the saved checkpoints, each with what has been seen in its window. -/
structure Track (γ : Type) where
  pending : List (CkptInfo × γ) := []
  saved : List (CkptInfo × γ) := []

section Track

variable {γ : Type} (settings : CkptSettings) (blank : γ) (see : Cpu → Tick → γ → γ)

/-- Follow one tick. Something was closed exactly if there are more saved checkpoints. -/
def Track.tick (cpu : Cpu) (t : Tick) (track : Track γ) : Track γ :=
  if cpu.exited then track
  else
    let all :=
      track.pending.map (fun p => (p.1.feed t.stack (cpu.batches settings t), see cpu t p.2)) ++
      (cpu.starting settings t).toList.map fun ctrl => (ctrl.startAt t, blank)
    if (RiscvCkpt.tick settings cpu t).saved.length = cpu.saved.length then
      { track with pending := all }
    else
      { pending := all.filter fun p => (cpu.over settings t p.1).isNone
        saved := track.saved ++
          all.filterMap fun p => (cpu.over settings t p.1).map fun info => (info, p.2) }

/-- The simulator and the windows of its checkpoints after some ticks. -/
def trackTicks (ts : List Tick) : Cpu × Track γ :=
  ts.foldl (fun state t =>
    (tick settings state.1 t, state.2.tick settings blank see state.1 t)) ({}, {})

variable {settings blank see}

theorem trackTicks_concat (done : List Tick) (t : Tick) :
    trackTicks settings blank see (done ++ [t]) =
      (tick settings (trackTicks settings blank see done).1 t,
        (trackTicks settings blank see done).2.tick settings blank see
          (trackTicks settings blank see done).1 t) :=
  List.foldl_append

theorem trackTicks_cpu (ts : List Tick) :
    (trackTicks settings blank see ts).1 = ticks settings {} ts := by
  induction ts using List.reverseRecOn with
  | nil => rfl
  | append_singleton done t ih =>
      rw [trackTicks_concat, ticks_append, ih]
      rfl

/-- A checkpoint closes to itself with what was seen. -/
theorem map_over (cpu : Cpu) (t : Tick) (all : List (CkptInfo × γ)) :
    ((all.filter fun p => (cpu.over settings t p.1).isNone).map Prod.fst =
      (all.map Prod.fst).filter fun info => (cpu.over settings t info).isNone) ∧
    ((all.filterMap fun p => (cpu.over settings t p.1).map fun info => (info, p.2)).map Prod.fst =
      (all.map Prod.fst).filterMap (cpu.over settings t)) := by
  constructor
  · rw [List.filter_map]
    rfl
  · rw [List.map_filterMap, List.filterMap_map]
    congr 1
    funext p
    rw [Option.map_map, Function.comp_apply]
    exact Option.map_id'

/-- The track follows the simulator. -/
theorem Track.tick_fst {cpu : Cpu} {track : Track γ} (t : Tick)
    (hPending : track.pending.map Prod.fst = cpu.pendingCkpts)
    (hSaved : track.saved.map Prod.fst = cpu.saved) :
    (track.tick settings blank see cpu t).pending.map Prod.fst =
      (RiscvCkpt.tick settings cpu t).pendingCkpts ∧
    (track.tick settings blank see cpu t).saved.map Prod.fst =
      (RiscvCkpt.tick settings cpu t).saved := by
  rw [Track.tick]
  cases hExited : cpu.exited with
  | true =>
      rw [if_pos rfl, tick_exited hExited]
      exact ⟨hPending, hSaved⟩
  | false =>
      rw [if_neg Bool.false_ne_true]
      obtain ⟨all, hAll⟩ : ∃ all, all =
          track.pending.map (fun p => (p.1.feed t.stack (cpu.batches settings t), see cpu t p.2)) ++
            (cpu.starting settings t).toList.map (fun ctrl => (ctrl.startAt t, blank)) := ⟨_, rfl⟩
      have hReached : all.map Prod.fst = cpu.reached settings t := by
        rw [hAll, Cpu.reached, ← hPending, List.map_append, List.map_map, List.map_map,
          List.map_map]
        rfl
      obtain ⟨hLeft, hClosed⟩ := @map_over γ settings cpu t all
      simp only [← hAll]
      rw [hReached] at hLeft hClosed
      rcases @tick_reached settings cpu t hExited with ⟨hNext, hSame⟩ | ⟨hNext, hMore⟩
      · rw [if_pos (by rw [hSame]), hNext, hSame]
        exact ⟨hReached, hSaved⟩
      · split
        · next hLength =>
            -- nothing was over
            rw [hMore, List.length_append, Nat.add_eq_left, List.length_eq_zero_iff,
              List.filterMap_eq_nil_iff] at hLength
            have hNone : (cpu.reached settings t).filter
                (fun info => (cpu.over settings t info).isNone) = cpu.reached settings t :=
              List.filter_eq_self.mpr fun info hInfo =>
                Option.isNone_iff_eq_none.mpr (hLength info hInfo)
            rw [hNext, hMore, hNone, List.filterMap_eq_nil_iff.mpr hLength, List.append_nil]
            exact ⟨hReached, hSaved⟩
        · rw [hNext, hMore, List.map_append, hSaved, hClosed, hLeft]
          exact ⟨rfl, rfl⟩

/-- The track has the pending and the saved checkpoints of the run, in order. -/
theorem trackTicks_fst (ts : List Tick) :
    (trackTicks settings blank see ts).2.pending.map Prod.fst =
      (ticks settings {} ts).pendingCkpts ∧
    (trackTicks settings blank see ts).2.saved.map Prod.fst = (ticks settings {} ts).saved := by
  induction ts using List.reverseRecOn with
  | nil => exact ⟨rfl, rfl⟩
  | append_singleton done t ih =>
      rw [← trackTicks_cpu, trackTicks_concat]
      rw [← trackTicks_cpu] at ih
      exact Track.tick_fst t ih.1 ih.2

/-- What holds of a checkpoint and its window when it starts, and is kept by every tick it
takes note of, holds of every saved checkpoint before it was closed. -/
theorem saved_induction {Open Closed : List Tick → CkptInfo → γ → Prop}
    (hStart : ∀ done t ctrl, (ticks settings {} done).exited = false →
      (ticks settings {} done).Starts settings t ctrl → Open (done ++ [t]) (ctrl.startAt t) blank)
    (hSee : ∀ done t info seen, Open done info seen →
      Open (done ++ [t]) (info.feed t.stack ((ticks settings {} done).batches settings t))
        (see (ticks settings {} done) t seen))
    (hClose : ∀ done info seen exist n pc, Open done info seen →
      Closed done (info.close exist n pc) seen)
    (hLater : ∀ done t info seen, Closed done info seen → Closed (done ++ [t]) info seen)
    (ts : List Tick) :
    ((ticks settings {} ts).exited = false →
      ∀ p ∈ (trackTicks settings blank see ts).2.pending, Open ts p.1 p.2) ∧
    ∀ p ∈ (trackTicks settings blank see ts).2.saved, Closed ts p.1 p.2 := by
  induction ts using List.reverseRecOn with
  | nil =>
      exact ⟨fun _ p hp => absurd hp List.not_mem_nil, fun p hp => absurd hp List.not_mem_nil⟩
  | append_singleton done t ih =>
      obtain ⟨hOpen, hClosed⟩ := ih
      have hOld : ∀ p ∈ (trackTicks settings blank see done).2.saved,
          Closed (done ++ [t]) p.1 p.2 :=
        fun p hp => hLater done t p.1 p.2 (hClosed p hp)
      have hNext : ticks settings {} (done ++ [t]) = tick settings (ticks settings {} done) t := by
        rw [ticks_append]
        rfl
      rw [hNext, trackTicks_concat, trackTicks_cpu]
      generalize (trackTicks settings blank see done).2 = track at hOpen hOld ⊢
      cases hExited : (ticks settings {} done).exited with
      | true =>
          rw [Track.tick, if_pos hExited, tick_exited hExited, hExited]
          exact ⟨fun hRunning => absurd hRunning Bool.false_ne_true.symm, hOld⟩
      | false =>
          rw [Track.tick, if_neg (Bool.eq_false_iff.mp hExited)]
          obtain ⟨all, hAll⟩ : ∃ all, all =
              track.pending.map (fun p => (p.1.feed t.stack
                ((ticks settings {} done).batches settings t),
                see (ticks settings {} done) t p.2)) ++
              ((ticks settings {} done).starting settings t).toList.map
                (fun ctrl => (ctrl.startAt t, blank)) := ⟨_, rfl⟩
          have hEach : ∀ p ∈ all, Open (done ++ [t]) p.1 p.2 := by
            rw [hAll]
            intro p hp
            rcases List.mem_append.mp hp with hp | hp
            · obtain ⟨old, hMem, rfl⟩ := List.mem_map.mp hp
              exact hSee done t old.1 old.2 (hOpen hExited old hMem)
            · obtain ⟨ctrl, hMem, rfl⟩ := List.mem_map.mp hp
              exact hStart done t ctrl hExited (Cpu.starting_eq_some.mp (Option.mem_toList.mp hMem))
          simp only [← hAll]
          split
          · exact ⟨fun _ => hEach, hOld⟩
          · refine ⟨fun _ p hp => hEach p (List.mem_of_mem_filter hp), fun p hp => ?_⟩
            rcases List.mem_append.mp hp with hp | hp
            · exact hOld p hp
            · obtain ⟨before, hMem, hSome⟩ := List.mem_filterMap.mp hp
              obtain ⟨info, hOver, rfl⟩ := Option.map_eq_some_iff.mp hSome
              rw [Cpu.over, detectOver_eq, Option.ite_none_right_eq_some] at hOver
              rw [← Option.some.inj hOver.2]
              exact hClose _ _ _ _ _ _ (hEach before hMem)

end Track

/-- The saved checkpoints of a run, each with the ticks of its window. -/
def savedWindows (settings : CkptSettings) (ts : List Tick) : List (CkptInfo × List Tick) :=
  (trackTicks settings [] (fun _ t window => window ++ [t]) ts).2.saved

/-- The saved checkpoints of a run, each with the calls of the recording hooks that its
window has made. -/
def savedCalls (settings : CkptSettings) (ts : List Tick) : List (CkptInfo × List Event) :=
  (trackTicks settings [] (fun cpu t calls => calls ++ (cpu.batches settings t).flatten) ts).2.saved

theorem savedWindows_fst (settings : CkptSettings) (ts : List Tick) :
    (savedWindows settings ts).map Prod.fst = (ticks settings {} ts).saved :=
  (trackTicks_fst ts).2

theorem savedCalls_fst (settings : CkptSettings) (ts : List Tick) :
    (savedCalls settings ts).map Prod.fst = (ticks settings {} ts).saved :=
  (trackTicks_fst ts).2

end RiscvCkpt
