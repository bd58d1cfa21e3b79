import RiscvCkpt.Cpu.Hooks
import RiscvCkpt.Cpu.MemState
import RiscvCkpt.Restore.MidPointData
import RiscvCkpt.Restore.RestoredData

/-! Replay across the system calls that change the address space. The emulator takes pages
away and gives new ones; the loader that stands in for it returns the recorded result and
maps nothing. A byte that was accessed before its page was taken away keeps its old value
in the replay, and what the restorer has not mapped cannot be accessed at all. -/
namespace RiscvCkpt

open ByteCodec ByteMemory FirstAccess MachineInt CkptInfo

/-- What the program does: an instruction, an access, or a system call with these registers. -/
inductive ProgramStep where
  | inst (pc : Nat)
  | load (addr size : Nat)
  | store (addr : Nat) (bytes : List UInt8)
  | ecall (pc : Nat) (regs : Nat → Nat)

namespace ProgramStep

def Guest : ProgramStep → Prop
  | .inst pc => pc < 2 ^ 63
  | .load addr size => GuestAccess (.load addr size)
  | .store addr bytes => GuestAccess (.store addr bytes)
  | .ecall pc regs => pc < 2 ^ 64 ∧ ∀ x, regs x < 2 ^ 64

def span : ProgramStep → Finset Nat
  | .inst _ => ∅
  | .load addr size => Finset.Ico addr (addr + size)
  | .store addr bytes => Finset.Ico addr (addr + bytes.length)
  | .ecall _ _ => ∅

def Loads (b : Nat) : ProgramStep → Prop
  | .load addr size => addr ≤ b ∧ b < addr + size
  | _ => False

instance (b : Nat) : DecidablePred (Loads b)
  | .inst _ => inferInstanceAs (Decidable False)
  | .load _ _ => inferInstanceAs (Decidable (_ ∧ _))
  | .store _ _ => inferInstanceAs (Decidable False)
  | .ecall _ _ => inferInstanceAs (Decidable False)

def access? : ProgramStep → Option Access
  | .load addr size => some (.load addr size)
  | .store addr bytes => some (.store addr bytes)
  | _ => none

/-- What the step returns to the program from this memory, if it is a load. -/
def returned (m : Memory) : ProgramStep → List (List UInt8)
  | .load addr size => [ByteMemory.load m addr size]
  | _ => []

end ProgramStep

/-- One step of the emulator, with `n` more to come, and the hooks that it calls. -/
def MemState.step (sim : Simulator) (n : Nat) (s : MemState) :
    ProgramStep → Option (MemState × List Event)
  | .inst pc => some (s, [.inst pc])
  | .load addr size => (s.access addr size).map fun s => (s, sim.loadCalls n s.memory addr size)
  | .store addr bytes =>
      (s.access addr bytes.length).map fun s =>
        ({ s with memory := ByteMemory.store s.memory addr bytes }, [.store addr bytes.length])
  | .ecall pc regs =>
      (s.doSyscall regs).map fun result =>
        (result.1, [.sysenter pc (regs 17) [regs 10, regs 11, regs 12, regs 13, regs 14],
          .sysret pc true (result.2 % 2 ^ 64)])

/-- A recorded interval: everything that the hooks are told, and what the loads return. -/
def MemState.run (sim : Simulator) (s : MemState) :
    List ProgramStep → Option (List Event × List (List UInt8))
  | [] => some ([], [])
  | step :: rest =>
      (s.step sim rest.length step).bind fun next =>
        (next.1.run sim rest).map fun later =>
          (next.2 ++ later.1, step.returned next.1.memory ++ later.2)

/-- The replay: accesses go to the memory of the loader, where it is mapped, and system calls
to `takeoverSyscall`. -/
def replay (mapped : Nat → Prop) [DecidablePred mapped] :
    Loader → List ProgramStep → Option (List (List UInt8))
  | _, [] => some []
  | loader, .inst _ :: rest => replay mapped loader rest
  | loader, .load addr size :: rest =>
      if MapsAccess mapped addr size then
        (replay mapped loader rest).map (ByteMemory.load loader.memory addr size :: ·)
      else none
  | loader, .store addr bytes :: rest =>
      if MapsAccess mapped addr bytes.length then
        replay mapped { loader with memory := ByteMemory.store loader.memory addr bytes } rest
      else none
  | loader, .ecall _ regs :: rest =>
      (takeoverSyscall regs loader).bind fun after => replay mapped after rest

/-- The page of the byte was there and has been taken away, with a value that a new page
does not have. -/
def MemState.Lost (s s' : MemState) (b : Nat) : Prop :=
  s.pTable (pageOf b) ∧ ¬ s'.pTable (pageOf b) ∧ s.memory b ≠ 0

instance (s s' : MemState) : DecidablePred (s.Lost s') := fun _ =>
  inferInstanceAs (Decidable (_ ∧ _ ∧ _))

/-- The stale bytes behind a step from `s` to `s'`: accessed before and lost since, and not
stored again. -/
def ProgramStep.staleAfter (seen stale : Finset Nat) (s s' : MemState) : ProgramStep → Finset Nat
  | .inst _ => stale
  | .load _ _ => stale
  | .store addr bytes => stale \ Finset.Ico addr (addr + bytes.length)
  | .ecall _ _ => stale ∪ seen.filter (s.Lost s')

/-- No step loads a stale byte. -/
def NoStaleLoad (sim : Simulator) (seen stale : Finset Nat) (s : MemState) : List ProgramStep → Prop
  | [] => True
  | step :: rest =>
      (∀ b ∈ stale, ¬ step.Loads b) ∧
        match s.step sim rest.length step with
        | none => True
        | some next =>
            NoStaleLoad sim (seen ∪ step.span) (step.staleAfter seen stale s next.1) next.1 rest

instance decidableNoStaleLoad (sim : Simulator) : (seen stale : Finset Nat) → (s : MemState) →
    (steps : List ProgramStep) → Decidable (NoStaleLoad sim seen stale s steps)
  | _, _, _, [] => isTrue trivial
  | seen, stale, s, step :: rest =>
      have : Decidable (match s.step sim rest.length step with
          | none => True
          | some next =>
              NoStaleLoad sim (seen ∪ step.span) (step.staleAfter seen stale s next.1)
                next.1 rest) :=
        match s.step sim rest.length step with
        | none => isTrue trivial
        | some _ => decidableNoStaleLoad sim _ _ _ rest
      inferInstanceAs (Decidable (_ ∧ _))

section Steps

variable {sim : Simulator} {n : Nat} {s s' : MemState} {events : List Event}

/-- Every load of the program stays in one cache line. -/
def LoadsInLine (sim : Simulator) (steps : List ProgramStep) : Prop :=
  ∀ addr size, .load addr size ∈ steps → InLine sim.line addr size

theorem LoadsInLine.tail {step : ProgramStep} {rest : List ProgramStep}
    (h : LoadsInLine sim (step :: rest)) : LoadsInLine sim rest := fun addr size hLoad =>
  h addr size (List.mem_cons_of_mem _ hLoad)

/-- A run that gets through makes its first step, and gets through from there. -/
theorem MemState.run_cons {step : ProgramStep} {rest : List ProgramStep}
    {returned : List (List UInt8)} (h : s.run sim (step :: rest) = some (events, returned)) :
    ∃ s' now later returns, s.step sim rest.length step = some (s', now) ∧
      s'.run sim rest = some (later, returns) ∧ events = now ++ later ∧
      returned = step.returned s'.memory ++ returns := by
  obtain ⟨⟨s', now⟩, hStep, hRest⟩ := Option.bind_eq_some_iff.mp h
  obtain ⟨⟨later, returns⟩, hLater, hBoth⟩ := Option.map_eq_some_iff.mp hRest
  obtain ⟨hEvents, hReturned⟩ := Prod.mk.inj hBoth
  exact ⟨s', now, later, returns, hStep, hLater, hEvents.symm, hReturned.symm⟩

/-- A load in one line is told to the hooks with what the process sees. -/
theorem MemState.step_load {addr size : Nat} (hSize : size ≤ 8) (hLine : InLine sim.line addr size)
    (h : s.step sim n (.load addr size) = some (s', events)) :
    s'.view = s.view ∧ events = [.load addr size (ByteMemory.load s.view addr size)] ∧
      ByteMemory.load s'.memory addr size = ByteMemory.load s.view addr size := by
  obtain ⟨middle, hAccess, hSame⟩ := Option.map_eq_some_iff.mp h
  obtain ⟨rfl, rfl⟩ := Prod.mk.inj hSame
  obtain ⟨hView, hThere⟩ := MemState.access_spec hSize hAccess
  have hData : ByteMemory.load middle.memory addr size = ByteMemory.load middle.view addr size := by
    apply load_congr
    intro i hi
    rw [MemState.view, if_pos (hThere (addr + i) (Nat.le_add_right ..) (Nat.add_lt_add_left hi _))]
  rw [sim.loadCalls_inLine hLine, hData, hView]
  exact ⟨rfl, rfl, rfl⟩

/-- A store changes what the process sees, and the hooks are told of it. -/
theorem MemState.step_store {addr : Nat} {bytes : List UInt8} (hSize : bytes.length ≤ 8)
    (h : s.step sim n (.store addr bytes) = some (s', events)) :
    s'.view = ByteMemory.store s.view addr bytes ∧ events = [.store addr bytes.length] := by
  obtain ⟨middle, hAccess, hSame⟩ := Option.map_eq_some_iff.mp h
  obtain ⟨rfl, rfl⟩ := Prod.mk.inj hSame
  obtain ⟨hView, hThere⟩ := MemState.access_spec hSize hAccess
  refine ⟨?_, rfl⟩
  rw [← hView]
  funext b
  by_cases hIn : addr ≤ b ∧ b < addr + bytes.length
  · rw [store_inside hIn.1 hIn.2, MemState.view, if_pos (hThere b hIn.1 hIn.2)]
    exact store_inside hIn.1 hIn.2
  · have hOut : b < addr ∨ addr + bytes.length ≤ b := by omega
    rw [store_outside hOut]
    simp only [MemState.view, store_outside hOut]

/-- A system call changes the mapping only, and both hooks are told of it. -/
theorem MemState.step_ecall {pc : Nat} {regs : Nat → Nat}
    (h : s.step sim n (.ecall pc regs) = some (s', events)) :
    s.Remaps s' ∧ regs 17 < 2 ^ 32 ∧ ∃ ret < 2 ^ 64,
      events = [.sysenter pc (regs 17) [regs 10, regs 11, regs 12, regs 13, regs 14],
        .sysret pc true ret] := by
  obtain ⟨result, hCall, hSame⟩ := Option.map_eq_some_iff.mp h
  obtain ⟨rfl, rfl⟩ := Prod.mk.inj hSame
  refine ⟨MemState.doSyscall_remaps hCall, ?_, _, Nat.mod_lt _ (by decide), rfl⟩
  rw [MemState.doSyscall] at hCall
  split at hCall
  · omega
  · split at hCall
    · omega
    · split at hCall
      · omega
      · exact absurd hCall (Option.some_ne_none _).symm

/-- What the process sees behind a call: new pages where old ones were taken away. -/
theorem MemState.Remaps.view_eq (h : s.Remaps s') (b : Nat) :
    s'.view b = if s'.pTable (pageOf b) then s.view b else 0 := by
  by_cases hThere : s'.pTable (pageOf b)
  · rw [if_pos hThere, MemState.view, MemState.view, if_pos hThere,
      if_pos (h.pages _ hThere), h.memory]
  · rw [if_neg hThere, MemState.view, if_neg hThere]

/-- No step loads a stale byte: not the first one, and none behind it. -/
theorem noStaleLoad_cons {seen stale : Finset Nat} {step : ProgramStep} {rest : List ProgramStep}
    (hStep : s.step sim rest.length step = some (s', events)) :
    NoStaleLoad sim seen stale s (step :: rest) ↔ (∀ b ∈ stale, ¬ step.Loads b) ∧
      NoStaleLoad sim (seen ∪ step.span) (step.staleAfter seen stale s s') s' rest := by
  rw [NoStaleLoad, hStep]

end Steps

/-- The memory of a replay beside the emulator: they agree on the accessed bytes except the
stale ones, which the replay still has and the emulator has not. -/
structure Mirrors (m : Memory) (s : MemState) (seen stale : Finset Nat) : Prop where
  agrees : ∀ b ∈ seen, b ∉ stale → m b = s.view b
  kept : ∀ b ∈ stale, m b ≠ 0
  gone : ∀ b ∈ stale, s.view b = 0

namespace Mirrors

variable {m : Memory} {s s' : MemState} {seen stale : Finset Nat}

/-- A load whose new bytes are right returns the same on both sides exactly if none of its
bytes is stale. -/
theorem same_iff (h : Mirrors m s seen stale) {addr size : Nat}
    (hNew : ∀ b, addr ≤ b → b < addr + size → b ∉ seen → m b = s.view b) :
    (∀ b, addr ≤ b → b < addr + size → m b = s.view b) ↔
      ∀ b ∈ stale, ¬ (ProgramStep.load addr size).Loads b := by
  constructor
  · intro hSame b hb hIn
    apply h.kept b hb
    rw [hSame b hIn.1 hIn.2]
    exact h.gone b hb
  · intro hNone b hLow hHigh
    by_cases hSeen : b ∈ seen
    · exact h.agrees b hSeen fun hb => hNone b hb ⟨hLow, hHigh⟩
    · exact hNew b hLow hHigh hSeen

/-- The replay still mirrors the process after a load of bytes on which they agree. -/
theorem load (h : Mirrors m s seen stale) {addr size : Nat} (hView : s'.view = s.view)
    (hSame : ∀ b, addr ≤ b → b < addr + size → m b = s.view b) :
    Mirrors m s' (seen ∪ Finset.Ico addr (addr + size)) stale where
  agrees := by
    intro b hb hFresh
    rw [hView]
    rcases Finset.mem_union.mp hb with hOld | hNew
    · exact h.agrees b hOld hFresh
    · exact hSame b (Finset.mem_Ico.mp hNew).1 (Finset.mem_Ico.mp hNew).2
  kept := h.kept
  gone := by
    rw [hView]
    exact h.gone

/-- A store makes its bytes agree, stale or not. -/
theorem store (h : Mirrors m s seen stale) {addr : Nat} {bytes : List UInt8}
    (hView : s'.view = ByteMemory.store s.view addr bytes) :
    Mirrors (ByteMemory.store m addr bytes) s' (seen ∪ Finset.Ico addr (addr + bytes.length))
      (stale \ Finset.Ico addr (addr + bytes.length)) := by
  have hOutside : ∀ b, b ∉ Finset.Ico addr (addr + bytes.length) →
      ByteMemory.store m addr bytes b = m b ∧ s'.view b = s.view b := by
    intro b hb
    rw [Finset.mem_Ico] at hb
    rw [hView]
    exact ⟨store_outside (by omega), store_outside (by omega)⟩
  constructor
  · intro b hb hFresh
    by_cases hIn : b ∈ Finset.Ico addr (addr + bytes.length)
    · obtain ⟨hLow, hHigh⟩ := Finset.mem_Ico.mp hIn
      rw [hView, store_inside hLow hHigh, store_inside hLow hHigh]
    · obtain ⟨hMem, hSee⟩ := hOutside b hIn
      have hOld := (Finset.mem_union.mp hb).resolve_right hIn
      rw [hMem, hSee]
      exact h.agrees b hOld fun hStale => hFresh (Finset.mem_sdiff.mpr ⟨hStale, hIn⟩)
  · intro b hb
    obtain ⟨hStale, hIn⟩ := Finset.mem_sdiff.mp hb
    rw [(hOutside b hIn).1]
    exact h.kept b hStale
  · intro b hb
    obtain ⟨hStale, hIn⟩ := Finset.mem_sdiff.mp hb
    rw [(hOutside b hIn).2]
    exact h.gone b hStale

/-- A call makes those seen bytes stale whose pages it takes away. -/
theorem ecall (h : Mirrors m s seen stale) (hRemaps : s.Remaps s') :
    Mirrors m s' seen (stale ∪ seen.filter (s.Lost s')) := by
  have hLost : ∀ b ∈ seen.filter (s.Lost s'), b ∉ stale → m b ≠ 0 ∧ s'.view b = 0 := by
    intro b hb hFresh
    obtain ⟨hSeen, hThere, hGone, hValue⟩ := Finset.mem_filter.mp hb
    rw [h.agrees b hSeen hFresh, hRemaps.view_eq, if_neg hGone, MemState.view, if_pos hThere]
    exact ⟨hValue, rfl⟩
  constructor
  · intro b hb hFresh
    rw [Finset.mem_union, not_or] at hFresh
    rw [h.agrees b hb hFresh.1, hRemaps.view_eq]
    split
    · rfl
    · next hGone =>
        -- the page is gone, or was never there, and the byte is not lost
        rw [MemState.view]
        split
        · next hThere =>
            by_contra hValue
            exact hFresh.2 (Finset.mem_filter.mpr ⟨hb, hThere, hGone, hValue⟩)
        · rfl
  · intro b hb
    by_cases hOld : b ∈ stale
    · exact h.kept b hOld
    · exact (hLost b ((Finset.mem_union.mp hb).resolve_left hOld) hOld).1
  · intro b hb
    by_cases hOld : b ∈ stale
    · rw [hRemaps.view_eq, h.gone b hOld, ite_self]
    · exact (hLost b ((Finset.mem_union.mp hb).resolve_left hOld) hOld).2

end Mirrors

/-- The accesses alone, from a memory that has the first loads: they return what the
emulator has returned exactly if no stale byte is loaded. -/
theorem loads_eq_iff {sim : Simulator} {steps : List ProgramStep} {s : MemState} {m : Memory}
    {seen stale : Finset Nat} {events : List Event} {returned : List (List UInt8)}
    (hRun : s.run sim steps = some (events, returned)) (hGuest : ∀ step ∈ steps, step.Guest)
    (hLine : LoadsInLine sim steps) (hMirrors : Mirrors m s seen stale)
    (hFirst : ∀ byte, FirstLoad seen events byte → m byte.1 = byte.2) :
    loads m (steps.filterMap ProgramStep.access?) = returned ↔
      NoStaleLoad sim seen stale s steps := by
  induction steps generalizing s m seen stale events returned with
  | nil =>
      obtain ⟨rfl, rfl⟩ := Prod.mk.inj (Option.some.inj hRun)
      exact iff_of_true rfl trivial
  | cons step rest ih =>
      obtain ⟨s', now, later, returns, hStep, hLater, rfl, rfl⟩ := MemState.run_cons hRun
      have hTail := fun step hs => hGuest step (List.mem_cons_of_mem _ hs)
      have hHead := hGuest step (List.mem_cons_self ..)
      have hInLine := hLine.tail
      rw [noStaleLoad_cons hStep]
      cases step with
      | inst pc =>
          obtain ⟨rfl, rfl⟩ := Prod.mk.inj (Option.some.inj hStep)
          rw [show (ProgramStep.inst pc).span = ∅ from rfl, Finset.union_empty]
          have hKeep : ∀ byte, FirstLoad seen later byte → m byte.1 = byte.2 := by
            intro byte hByte
            have hQuiet : FirstLoad (seen ∪ ∅) later byte := by
              rw [Finset.union_empty]
              exact hByte
            exact hFirst byte (Or.inr hQuiet)
          exact (ih hLater hTail hInLine hMirrors hKeep).trans
            (and_iff_right fun _ _ hLoads => hLoads).symm
      | load addr size =>
          have hSize : size ≤ 8 := (GuestAccess.size_bounds hHead).2
          obtain ⟨hView, rfl, hData⟩ :=
            MemState.step_load hSize (hLine addr size (List.mem_cons_self ..)) hStep
          have hNew : ∀ b, addr ≤ b → b < addr + size → b ∉ seen → m b = s.view b := by
            intro b hLow hHigh hSeen
            have hIn : b - addr < size := by omega
            have hByte : (ByteMemory.load s.view addr size).getD (b - addr) 0 = s.view b := by
              rw [load_getD hIn, Nat.add_sub_cancel' hLow]
            exact hFirst (b, s.view b) (Or.inl ⟨hSeen, hLow, hHigh, hByte.symm⟩)
          have hRest : (∀ b, addr ≤ b → b < addr + size → m b = s.view b) →
              (loads m (rest.filterMap ProgramStep.access?) = returns ↔
                NoStaleLoad sim (seen ∪ Finset.Ico addr (addr + size)) stale s' rest) := by
            intro hSame
            exact ih hLater hTail hInLine (hMirrors.load hView hSame) fun byte hByte =>
              hFirst byte (Or.inr hByte)
          have hClean := hMirrors.same_iff hNew
          calc loads m ((ProgramStep.load addr size :: rest).filterMap ProgramStep.access?) =
                (ProgramStep.load addr size).returned s'.memory ++ returns
              ↔ ByteMemory.load m addr size = ByteMemory.load s'.memory addr size ∧
                  loads m (rest.filterMap ProgramStep.access?) = returns :=
                List.cons_eq_cons
            _ ↔ (∀ b, addr ≤ b → b < addr + size → m b = s.view b) ∧
                  NoStaleLoad sim (seen ∪ Finset.Ico addr (addr + size)) stale s' rest := by
                rw [hData, load_eq_iff]
                exact and_congr_right hRest
            _ ↔ _ := and_congr_left fun _ => hClean
      | store addr bytes =>
          obtain ⟨hView, rfl⟩ := MemState.step_store (GuestAccess.size_bounds hHead).2 hStep
          have hKeep : ∀ byte, FirstLoad (seen ∪ Finset.Ico addr (addr + bytes.length)) later byte →
              ByteMemory.store m addr bytes byte.1 = byte.2 := by
            intro byte hByte
            have hOut : byte.1 ∉ Finset.Ico addr (addr + bytes.length) := fun hIn =>
              hByte.not_seen (Finset.mem_union_right _ hIn)
            rw [Finset.mem_Ico] at hOut
            rw [store_outside (by omega)]
            exact hFirst byte (Or.inr hByte)
          exact (ih hLater hTail hInLine (hMirrors.store hView) hKeep).trans
            (and_iff_right fun _ _ hLoads => hLoads).symm
      | ecall pc regs =>
          obtain ⟨hRemaps, -, ret, -, rfl⟩ := MemState.step_ecall hStep
          rw [show (ProgramStep.ecall pc regs).span = ∅ from rfl, Finset.union_empty]
          have hKeep : ∀ byte, FirstLoad seen later byte → m byte.1 = byte.2 := by
            intro byte hByte
            have hQuiet : FirstLoad (seen ∪ ∅ ∪ ∅) later byte := by
              rw [Finset.union_empty, Finset.union_empty]
              exact hByte
            exact hFirst byte (Or.inr (Or.inr hQuiet))
          exact (ih hLater hTail hInLine (hMirrors.ecall hRemaps) hKeep).trans
            (and_iff_right fun _ _ hLoads => hLoads).symm

/-- The recorded calls are those of the program, in order. None of them has output. -/
def CallsMatch : List ProgramStep → List SyscallInfo → Prop
  | [], calls => calls = []
  | .inst _ :: rest, calls => CallsMatch rest calls
  | .load _ _ :: rest, calls => CallsMatch rest calls
  | .store _ _ :: rest, calls => CallsMatch rest calls
  | .ecall _ regs :: rest, calls =>
      ∃ call later, calls = call :: later ∧ regs 17 = call.num ∧ call.data = [] ∧
        CallsMatch rest later

/-- A call that is entered and returned from. -/
theorem callStep_returned (sysinfos : List SyscallInfo) (pc num ret : Nat) (params : List Nat) :
    [Event.sysenter pc num params, .sysret pc true ret].foldl callStep sysinfos =
      sysinfos ++
        [{ pc := pc, num := num % 2 ^ 32, params := params, ret := ret, hasret := true }] := by
  simp [callStep]

/-- The calls that a run leaves in its checkpoint. -/
theorem run_calls {sim : Simulator} {steps : List ProgramStep} {s : MemState} {events : List Event}
    {returned : List (List UInt8)} (hRun : s.run sim steps = some (events, returned))
    (hGuest : ∀ step ∈ steps, step.Guest) (hLine : LoadsInLine sim steps)
    (sysinfos : List SyscallInfo) :
    ∃ calls, events.foldl callStep sysinfos = sysinfos ++ calls ∧ CallsMatch steps calls ∧
      ∀ call ∈ calls, call.Fits ∧ call.bufaddr + call.data.length = 0 := by
  induction steps generalizing s sysinfos events returned with
  | nil =>
      obtain ⟨rfl, -⟩ := Prod.mk.inj (Option.some.inj hRun)
      exact ⟨[], (List.append_nil _).symm, rfl, fun call hCall => absurd hCall List.not_mem_nil⟩
  | cons step rest ih =>
      obtain ⟨s', now, later, returns, hStep, hLater, rfl, -⟩ := MemState.run_cons hRun
      have hTail := fun step hs => hGuest step (List.mem_cons_of_mem _ hs)
      have hHead := hGuest step (List.mem_cons_self ..)
      cases step with
      | inst pc =>
          obtain ⟨-, rfl⟩ := Prod.mk.inj (Option.some.inj hStep)
          exact ih hLater hTail hLine.tail sysinfos
      | load addr size =>
          obtain ⟨-, rfl, -⟩ := MemState.step_load (GuestAccess.size_bounds hHead).2
            (hLine addr size (List.mem_cons_self ..)) hStep
          exact ih hLater hTail hLine.tail sysinfos
      | store addr bytes =>
          obtain ⟨-, rfl⟩ := MemState.step_store (GuestAccess.size_bounds hHead).2 hStep
          exact ih hLater hTail hLine.tail sysinfos
      | ecall pc regs =>
          obtain ⟨-, hNum, ret, hRet, rfl⟩ := MemState.step_ecall hStep
          let call : SyscallInfo :=
            { pc := pc, num := regs 17, params := [regs 10, regs 11, regs 12, regs 13, regs 14],
              ret := ret, hasret := true }
          obtain ⟨calls, hCalls, hMatch, hFits⟩ := ih hLater hTail hLine.tail (sysinfos ++ [call])
          have hCall : call.Fits :=
            ⟨hHead.1, hNum, hHead.2 10, hRet, Nat.two_pow_pos 64, Nat.two_pow_pos 31⟩
          refine ⟨call :: calls, ?_, ⟨call, calls, rfl, rfl, rfl, hMatch⟩,
            List.forall_mem_cons.mpr ⟨⟨hCall, rfl⟩, hFits⟩⟩
          rw [List.foldl_append, callStep_returned, Nat.mod_eq_of_lt hNum, hCalls,
            List.append_assoc, List.singleton_append]

/-- A run of guest steps calls the hooks with guest events. -/
theorem run_guest {sim : Simulator} {steps : List ProgramStep} {s : MemState} {events : List Event}
    {returned : List (List UInt8)} (hRun : s.run sim steps = some (events, returned))
    (hGuest : ∀ step ∈ steps, step.Guest) (hLine : LoadsInLine sim steps) :
    ∀ event ∈ events, event.Guest := by
  induction steps generalizing s events returned with
  | nil =>
      obtain ⟨rfl, -⟩ := Prod.mk.inj (Option.some.inj hRun)
      exact fun event hEvent => absurd hEvent List.not_mem_nil
  | cons step rest ih =>
      obtain ⟨s', now, later, returns, hStep, hLater, rfl, -⟩ := MemState.run_cons hRun
      have hTail := ih hLater (fun step hs => hGuest step (List.mem_cons_of_mem _ hs)) hLine.tail
      have hHead := hGuest step (List.mem_cons_self ..)
      cases step with
      | inst pc =>
          obtain ⟨-, rfl⟩ := Prod.mk.inj (Option.some.inj hStep)
          exact List.forall_mem_cons.mpr ⟨hHead, hTail⟩
      | load addr size =>
          obtain ⟨-, rfl, -⟩ := MemState.step_load (GuestAccess.size_bounds hHead).2
            (hLine addr size (List.mem_cons_self ..)) hStep
          exact List.forall_mem_cons.mpr ⟨⟨hHead.1, GuestAccess.size_bounds hHead⟩, hTail⟩
      | store addr bytes =>
          obtain ⟨-, rfl⟩ := MemState.step_store (GuestAccess.size_bounds hHead).2 hStep
          exact List.forall_mem_cons.mpr ⟨⟨hHead.1, GuestAccess.size_bounds hHead⟩, hTail⟩
      | ecall pc regs =>
          obtain ⟨-, -, ret, -, rfl⟩ := MemState.step_ecall hStep
          exact List.forall_mem_cons.mpr ⟨trivial, List.forall_mem_cons.mpr ⟨trivial, hTail⟩⟩

/-- The places that the loader patches: the jumps, and the exit behind the last call. -/
def PatchPlace (placed : List PCs) (exitpc : Nat) (b : Nat) : Prop :=
  JumpBytes placed b ∨ exitpc ≤ b ∧ b < exitpc + 4

/-- A call without output leaves everything but the patched places as it was. -/
theorem ReplaysCall.outside {call : SyscallInfo} {entry : JmpRepInfo} {regs : Nat → Nat}
    {before after : Loader} (h : ReplaysCall call entry regs before after) (hData : call.data = [])
    {b : Nat} (hJal : ¬ (entry.jal_addr ≤ b ∧ b < entry.jal_addr + 4))
    (hExit : ¬ (before.runningInfo.exitpc ≤ b ∧ b < before.runningInfo.exitpc + 4)) :
    after.memory b = before.memory b := by
  have hReturn := (storeInst_writes entry.jal_addr entry.jal_inst).outside b hJal before.memory
  have hMemory := h.memory
  simp only [hData, ne_eq, not_true_eq_false, false_and, if_false] at hMemory
  rw [hMemory]
  split
  · exact ((storeInst_writes _ _).outside b hExit _).trans hReturn
  · exact hReturn

/-- A replay returns what the accesses alone return, as long as no load reads a patched
place: the calls come in the recorded order, and each is found in its record. -/
theorem replay_eq {sysinfos : List SyscallInfo} (places : Places) {loaded : Loader}
    {freeRanges : List MemRangeInfo} {npc : Nat} {placed : List PCs}
    (h : ReadsCalls sysinfos loaded.runningInfo) (hFits : ∀ call ∈ sysinfos, call.Fits)
    (hPlaced : findMidPoints freeRanges (loaded.runningInfo.pcs npc) = some placed)
    {steps : List ProgramStep}
    (hApart : ∀ step ∈ steps, ∀ b, step.Loads b → ¬ PatchPlace placed loaded.runningInfo.exitpc b)
    {mapped : Nat → Prop} [DecidablePred mapped]
    (hMapped : ∀ step ∈ steps, ∀ b ∈ step.span, mapped b) {before calls : List SyscallInfo}
    (hCalls : sysinfos = before ++ calls)
    (hMatch : CallsMatch steps calls) {loader : Loader} {m : Memory}
    (hRunning : loader.runningInfo =
      { (createInsts places loaded placed).runningInfo with nowcallnum := before.length })
    (hAgree : ∀ b, ¬ PatchPlace placed loaded.runningInfo.exitpc b → loader.memory b = m b) :
    replay mapped loader steps = some (loads m (steps.filterMap ProgramStep.access?)) := by
  induction steps generalizing before calls loader m with
  | nil => rfl
  | cons step rest ih =>
      have hTail := fun step hs => hApart step (List.mem_cons_of_mem _ hs)
      have hHead := hApart step (List.mem_cons_self ..)
      have hThere := hMapped step (List.mem_cons_self ..)
      replace ih := @ih hTail fun step hs => hMapped step (List.mem_cons_of_mem _ hs)
      have hAccess : ∀ {addr size}, step.span = Finset.Ico addr (addr + size) →
          MapsAccess mapped addr size := by
        intro addr size hSpan i hi
        apply hThere
        rw [hSpan, Finset.mem_Ico]
        omega
      cases step with
      | inst pc => exact ih hCalls hMatch hRunning hAgree
      | load addr size =>
          have hSame : ByteMemory.load loader.memory addr size = ByteMemory.load m addr size :=
            load_eq_iff.mpr fun b hLow hHigh => hAgree b (hHead b ⟨hLow, hHigh⟩)
          rw [replay, if_pos (hAccess rfl), ih hCalls hMatch hRunning hAgree, hSame]
          rfl
      | store addr bytes =>
          rw [replay, if_pos (hAccess rfl)]
          refine ih hCalls hMatch hRunning fun b hb => ?_
          simp only [ByteMemory.store, hAgree b hb]
      | ecall pc regs =>
          obtain ⟨call, later, rfl, hNum, hData, hRest⟩ := hMatch
          have hCall : sysinfos[before.length]? = some call := by
            rw [hCalls, List.getElem?_append_right (Nat.le_refl _), Nat.sub_self,
              List.getElem?_cons_zero]
          obtain ⟨i, p, after, -, hp, hLast, -, -, hAfter, hReplays⟩ :=
            h.takeover places hFits hPlaced hCall hRunning hNum
          have hExitpc : loader.runningInfo.exitpc = loaded.runningInfo.exitpc := by
            rw [hRunning]
            rfl
          rw [replay, hAfter, Option.bind_some]
          have hNext : sysinfos = (before ++ [call]) ++ later := by
            rw [hCalls, List.append_assoc]
            rfl
          refine ih hNext hRest ?_ fun b hb => ?_
          · rw [hReplays.running, hRunning, List.length_append, List.length_singleton]
          · rw [hReplays.outside hData ?_ ?_]
            · exact hAgree b hb
            · rintro ⟨hLow, hHigh⟩
              refine hb (Or.inl (Or.inr (Or.inr ⟨p, ?_, ?_⟩)))
              · rw [List.mem_iff_getElem?]
                exact ⟨i, by rw [List.getElem?_dropLast, if_pos (by omega), hp]⟩
              · simp only [jmpInfo] at hLow hHigh
                omega
            · rw [hExitpc]
              exact fun hIn => hb (Or.inr hIn)

/-- What a run accesses, its events touch. -/
theorem run_touched {sim : Simulator} {steps : List ProgramStep} {s : MemState}
    {events : List Event}
    {returned : List (List UInt8)} (hRun : s.run sim steps = some (events, returned))
    (hGuest : ∀ step ∈ steps, step.Guest) (hLine : LoadsInLine sim steps) :
    ∀ step ∈ steps, ∀ b ∈ step.span, ∃ event ∈ events, event.Accesses b := by
  induction steps generalizing s events returned with
  | nil => exact fun step hStep => absurd hStep List.not_mem_nil
  | cons first rest ih =>
      obtain ⟨s', now, later, returns, hStep, hLater, rfl, -⟩ := MemState.run_cons hRun
      have hTail := ih hLater (fun step hs => hGuest step (List.mem_cons_of_mem _ hs)) hLine.tail
      have hHead := hGuest first (List.mem_cons_self ..)
      have hNow : ∀ b ∈ first.span, ∃ event ∈ now, event.Accesses b := by
        cases first with
        | inst pc => exact fun b hb => absurd hb (Finset.notMem_empty b)
        | load addr size =>
            obtain ⟨-, rfl, -⟩ := MemState.step_load (GuestAccess.size_bounds hHead).2
              (hLine addr size (List.mem_cons_self ..)) hStep
            exact fun b hb => ⟨_, List.mem_singleton_self _, Finset.mem_Ico.mp hb⟩
        | store addr bytes =>
            obtain ⟨-, rfl⟩ := MemState.step_store (GuestAccess.size_bounds hHead).2 hStep
            exact fun b hb => ⟨_, List.mem_singleton_self _, Finset.mem_Ico.mp hb⟩
        | ecall pc regs => exact fun b hb => absurd hb (Finset.notMem_empty b)
      intro step hIn b hb
      rcases List.mem_cons.mp hIn with rfl | hIn
      · obtain ⟨event, hEvent, hAccess⟩ := hNow b hb
        exact ⟨event, List.mem_append_left _ hEvent, hAccess⟩
      · obtain ⟨event, hEvent, hAccess⟩ := hTail step hIn b hb
        exact ⟨event, List.mem_append_right _ hEvent, hAccess⟩

/-- From the checkpoint of the run, the replay loads what the restored memory holds. -/
theorem replay_restored {sim : Simulator} {start : MemState} {steps : List ProgramStep}
    {events : List Event} {returned : List (List UInt8)}
    (hRun : start.run sim steps = some (events, returned)) (hGuest : ∀ step ∈ steps, step.Guest)
    (hLine : LoadsInLine sim steps) (hExecutes : executedPcs events ≠ [])
    (stack : Nat → Nat → UInt8) (exist : Nat → UInt8) {exit_place exit_pc : Nat}
    {info ckpt : CkptInfo} (hStart : info.Started) (hFresh : info.Fresh)
    (hOver : (info.hooks stack events).detectOver exist exit_place exit_pc = some ckpt)
    {fastlz : FastLZ} (hRestorable : Restorable fastlz events ckpt)
    (hZeros : ∀ b, ¬ ZeroInText events b)
    (hSection : (saveSysInfo ckpt.sysinfos).length < 2 ^ 32 - 1) {elf after : List UInt8}
    {m : Memory} {loader : Loader}
    (hMemory : restoreMemory fastlz elf ckpt after m = some loader.memory)
    {freeRanges : List MemRangeInfo} (places : Places) {npc : Nat} {placed : List PCs}
    (hPlaced : findMidPoints freeRanges
      ((readCkptsyscall (saveSysInfo ckpt.sysinfos) loader).runningInfo.pcs npc) = some placed)
    (hApart : ∀ step ∈ steps, ∀ b, step.Loads b →
      ¬ PatchPlace placed loader.runningInfo.exitpc b) :
    ((processJmp freeRanges places npc (readCkptsyscall (saveSysInfo ckpt.sysinfos) loader)).bind
      fun ready => replay (Mapped ckpt) ready steps) =
        some (loads loader.memory (steps.filterMap ProgramStep.access?)) ∧
      ∀ byte, FirstLoad ∅ events byte → loader.memory byte.1 = byte.2 := by
  obtain ⟨calls, hCalls, hMatch, hFits⟩ := run_calls hRun hGuest hLine []
  rw [List.nil_append] at hCalls
  simp only [detectOver, Option.ite_none_right_eq_some, Option.some.injEq] at hOver
  obtain ⟨-, rfl⟩ := hOver
  have hBuffers : ∀ call ∈ events.foldl callStep [],
      call.bufaddr + call.data.length < 2 ^ 63 := by
    intro call hCall
    rw [hCalls] at hCall
    rw [(hFits call hCall).2]
    decide
  let interval : GuestInterval := ⟨events, run_guest hRun hGuest hLine, hExecutes, hBuffers⟩
  obtain ⟨hRestored, hFirst⟩ := hRestorable.restores interval stack exist exit_place exit_pc
    hStart hFresh elf (fun b hZero => absurd hZero (hZeros b)) after
  have hThere : ∀ step ∈ steps, ∀ b ∈ step.span,
      Mapped ((info.hooks stack events).close exist exit_place exit_pc) b :=
    fun step hStep b hb => hRestorable.touched interval stack exist exit_place exit_pc hStart
      (Or.inl (run_touched hRun hGuest hLine step hStep b hb))
  have hSaved : ((info.hooks stack events).close exist exit_place exit_pc).sysinfos = calls := by
    rw [close_sysinfos, hooks_sysinfos, hStart.sysinfos, hCalls]
  have hLength := saveSysInfo_length calls
  rw [hSaved] at hSection hPlaced ⊢
  have hReads : ReadsCalls calls (readCkptsyscall (saveSysInfo calls) loader).runningInfo :=
    ⟨rfl, saveSysInfo_total (by omega), hSection⟩
  have hReplay := @replay_eq calls places _ freeRanges npc placed hReads
    (fun call hCall => (hFits call hCall).1) hPlaced steps hApart _ _ hThere [] calls rfl hMatch
    (createInsts places (readCkptsyscall (saveSysInfo calls) loader) placed) loader.memory rfl
    fun b hb => createInsts_outside places _ fun hJump => hb (Or.inl hJump)
  rw [processJmp, hPlaced, Option.map_some, Option.bind_some]
  rw [← Option.some.inj (hRestored.symm.trans hMemory)] at hReplay ⊢
  exact ⟨hReplay, hFirst⟩

/-- Replay across mapping calls. Every load stays in one cache line, the interval can be restored
and loads no zero first from a page of its code, and the loads stay clear of the places that the
loader patches. Then the replay from the restored checkpoint returns, load by load, what the
emulator has returned exactly if no load reads a byte that was accessed, then lost its page with
a value other than zero, and was not stored since. -/
theorem mapping_replay_iff {sim : Simulator} {start : MemState} {steps : List ProgramStep}
    {events : List Event} {returned : List (List UInt8)}
    (hRun : start.run sim steps = some (events, returned)) (hGuest : ∀ step ∈ steps, step.Guest)
    (hLine : LoadsInLine sim steps) (hExecutes : executedPcs events ≠ [])
    (stack : Nat → Nat → UInt8) (exist : Nat → UInt8) {exit_place exit_pc : Nat}
    {info ckpt : CkptInfo} (hStart : info.Started) (hFresh : info.Fresh)
    (hOver : (info.hooks stack events).detectOver exist exit_place exit_pc = some ckpt)
    {fastlz : FastLZ} (hRestorable : Restorable fastlz events ckpt)
    (hZeros : ∀ b, ¬ ZeroInText events b)
    (hSection : (saveSysInfo ckpt.sysinfos).length < 2 ^ 32 - 1) {elf after : List UInt8}
    {m : Memory}
    {loader : Loader} (hMemory : restoreMemory fastlz elf ckpt after m = some loader.memory)
    {freeRanges : List MemRangeInfo} (places : Places) {npc : Nat} {placed : List PCs}
    (hPlaced : findMidPoints freeRanges
      ((readCkptsyscall (saveSysInfo ckpt.sysinfos) loader).runningInfo.pcs npc) = some placed)
    (hApart : ∀ step ∈ steps, ∀ b, step.Loads b → ¬ PatchPlace placed loader.runningInfo.exitpc b) :
    ((processJmp freeRanges places npc (readCkptsyscall (saveSysInfo ckpt.sysinfos) loader)).bind
      fun ready => replay (Mapped ckpt) ready steps) = some returned ↔
    NoStaleLoad sim ∅ ∅ start steps := by
  obtain ⟨hReplay, hFirst⟩ := replay_restored hRun hGuest hLine hExecutes stack exist hStart hFresh
    hOver hRestorable hZeros hSection hMemory places hPlaced hApart
  have hMirrors : Mirrors loader.memory start ∅ ∅ := ⟨by simp, by simp, by simp⟩
  rw [hReplay, Option.some.injEq]
  exact loads_eq_iff hRun hGuest hLine hMirrors hFirst

def remapStart : MemState where
  vmaList := [⟨0x100000, 0x101000⟩]
  pTable := fun _ => false
  memory := zero
  brkPoint := 0x80000
  endBrkPoint := 0x80000
  mmapEnd := 0x200000
  stackBase := 0x7f000000
  stackMin := 0x7efff000
  maxStackSize := 0x1000

def remapSim : Simulator := ⟨64, Nat.succ_pos 63, fun _ => zero, fun _ => 0, fun _ _ => false⟩

def munmapRegs : Nat → Nat := fun x => if x = 17 then 215 else [0x100000, 4096].getD (x - 10) 0

def mmapRegs : Nat → Nat :=
  fun x => if x = 17 then 222 else [0x100000, 4096, 3, 0x22].getD (x - 10) 0

def remapSteps (later : List ProgramStep) : List ProgramStep :=
  .store 0x100000 [5] :: .inst 0x2000c :: .ecall 0x20010 munmapRegs ::
    .ecall 0x20020 mmapRegs :: later

def remapEvents (later : List Event) : List Event :=
  .store 0x100000 1 :: .inst 0x2000c :: .sysenter 0x20010 215 [0x100000, 4096, 0, 0, 0] ::
    .sysret 0x20010 true 0 :: .sysenter 0x20020 222 [0x100000, 4096, 3, 0x22, 0] ::
    .sysret 0x20020 true 0x100000 :: later

def remapCkpt (later : List Event) : CkptInfo :=
  ((create 5 1 0 [] [] 0 0x20000).hooks (fun _ _ => 0) (remapEvents later)).close
    (fun _ => 0) 6 0x20030

theorem remapCkpt_over (later : List Event) :
    ((create 5 1 0 [] [] 0 0x20000).hooks (fun _ _ => 0) (remapEvents later)).detectOver
      (fun _ => 0) 6 0x20030 = some (remapCkpt later) := by
  obtain ⟨hStart, hLength⟩ :=
    hooks_place (fun _ _ => 0) (create 5 1 0 [] [] 0 0x20000) (remapEvents later)
  rw [detectOver, hStart, hLength]
  rfl

def remapLoader (m : Memory) : Loader := ⟨m, fun _ => 0, 0, ⟨0x20030, [], 0, 0, 0, []⟩⟩

def remapPlaces : Places := gapPlaces

theorem remapSteps_guest {later : List ProgramStep} (h : ∀ step ∈ later, step.Guest) :
    ∀ step ∈ remapSteps later, step.Guest := by
  have hRegs : ∀ (num : Nat) (args : List Nat), num < 2 ^ 64 → (∀ a ∈ args, a < 2 ^ 64) →
      ∀ x, (if x = 17 then num else args.getD (x - 10) 0) < 2 ^ 64 := by
    intro num args hNum hArgs x
    split
    · exact hNum
    · rw [List.getD_eq_getElem?_getD]
      cases hArg : args[x - 10]? with
      | none => exact Nat.two_pow_pos 64
      | some a => exact hArgs a (List.mem_of_getElem? hArg)
  have hStore : GuestAccess (.store 0x100000 [5]) := by decide
  have hInst : (ProgramStep.inst 0x2000c).Guest := show 0x2000c < 2 ^ 63 by decide
  refine List.forall_mem_cons.mpr ⟨hStore, List.forall_mem_cons.mpr ⟨hInst,
    List.forall_mem_cons.mpr ⟨⟨by decide, ?_⟩, List.forall_mem_cons.mpr ⟨⟨by decide, ?_⟩, h⟩⟩⟩⟩
  · exact hRegs 215 _ (by decide) (by decide)
  · exact hRegs 222 _ (by decide) (by decide)

/-- The only instruction is far below the only byte that is accessed. -/
theorem remap_restorable {later : List Event} (hGuest : ∀ event ∈ remapEvents later, event.Guest)
    (hPcs : executedPcs (remapEvents later) = [0x2000c])
    (hCalls : ∀ call ∈ (remapEvents later).foldl callStep [], call.bufaddr = 0 ∧ call.data = [])
    (hBytes : ∀ event ∈ remapEvents later, ∀ b, event.Accesses b → b = 0x100000)
    (hRight : BooksRight ∅ (remapEvents later))
    (hFew : (firstLoads ∅ (remapEvents later)).card < 2 ^ 31)
    (hNone : (remapCkpt later).firstloads = []) :
    Restorable storeLZ (remapEvents later) (remapCkpt later) where
  runs := by
    rw [textRuns, textPages, hPcs]
    decide
  loader := by
    refine ⟨Or.inl (by rw [textStop, hPcs]; decide), fun b hb => Or.inl ?_⟩
    simp only [AccessRange, loaderStart]
    rcases hb with ⟨event, hEvent, hb⟩ | ⟨call, hCall, hData, -⟩ |
      ⟨event, hEvent, byte, hLoads, -, hHigh⟩
    · have hAt := hBytes event hEvent b hb
      omega
    · exact absurd (hCalls call hCall).2 hData
    · have hAt := hBytes event hEvent _ hLoads.accesses
      omega
  mapped := by
    have hStop : uint64 (int32 (textStop (remapEvents later))) = 0x21000 := by
      rw [textStop, hPcs]
      decide
    rw [hStop]
    rintro b (⟨event, hEvent, hb⟩ | ⟨call, hCall, -, hHigh⟩)
    · have hAt := hBytes event hEvent b hb
      omega
    · rw [(hCalls call hCall).1, (hCalls call hCall).2] at hHigh
      exact absurd hHigh (Nat.not_lt_zero b)
  booksRight := hRight
  few := hFew
  notNull := by
    rintro addr size data hLoad rfl
    have hSize := (hGuest _ hLoad).2.1
    exact absurd (hBytes _ hLoad 0 ⟨Nat.le_refl 0, by omega⟩) (by decide)
  blocks := by
    rw [hNone]
    decide +kernel

/-- Both calls, the start and the exit share the first midpoint of the gap. -/
def remapPlaced : List PCs :=
  [⟨0, 0x20000, 0x21000⟩, ⟨1, 0x20010, 0x21000⟩, ⟨2, 0x20020, 0x21000⟩, ⟨3, 0x20030, 0x21000⟩]

theorem remap_placed {later : List Event}
    (hCalls : (remapCkpt later).sysinfos = (remapCkpt []).sysinfos) (m : Memory) :
    findMidPoints [⟨0x21000, 0x1000⟩] ((readCkptsyscall (saveSysInfo (remapCkpt later).sysinfos)
      (remapLoader m)).runningInfo.pcs 0x20000) = some remapPlaced := by
  have hClosed : findMidPoints [⟨0x21000, 0x1000⟩]
      ((readCkptsyscall (saveSysInfo (remapCkpt []).sysinfos)
      (remapLoader zero)).runningInfo.pcs 0x20000) = some remapPlaced := by decide +kernel
  rw [hCalls]
  exact hClosed

theorem remap_apart {later : List ProgramStep}
    (h : ∀ step ∈ later, ∀ b, step.Loads b → b = 0x100000) :
    ∀ step ∈ remapSteps later, ∀ b, step.Loads b → ¬ PatchPlace remapPlaced 0x20030 b := by
  intro step hStep b hLoads hPatch
  simp only [remapSteps, List.mem_cons] at hStep
  rcases hStep with rfl | rfl | rfl | rfl | hStep
  case inr.inr.inr.inr =>
    have hAt := h step hStep b hLoads
    simp only [PatchPlace, JumpBytes, remapPlaced, List.drop_succ_cons, List.drop_zero,
      List.dropLast_cons_cons, List.dropLast_singleton, List.mem_cons, List.not_mem_nil, or_false,
      exists_eq_or_imp, exists_eq_left] at hPatch
    omega
  all_goals exact hLoads

theorem remapEvents_accesses {later : List Event}
    (h : ∀ event ∈ later, ∀ b, event.Accesses b → b = 0x100000) :
    ∀ event ∈ remapEvents later, ∀ b, event.Accesses b → b = 0x100000 := by
  intro event hEvent b hb
  simp only [remapEvents, List.mem_cons] at hEvent
  rcases hEvent with rfl | rfl | rfl | rfl | rfl | rfl | hEvent
  · simp only [Event.Accesses] at hb
    omega
  all_goals first | exact h event hEvent b hb | exact hb.elim

/-- Without a first load none is from a code page. -/
theorem not_zeroInText {events : List Event} (hNone : firstLoads ∅ events = ∅) (b : Nat) :
    ¬ ZeroInText events b := by
  rintro ⟨hFirst, -⟩
  have hIn := mem_firstLoads.mpr ⟨0, hFirst⟩
  rw [hNone] at hIn
  exact Finset.notMem_empty b hIn

def storedEvents : List Event := remapEvents [.store 0x100000 1, .load 0x100000 1 [6]]

def storedCkpt : CkptInfo := remapCkpt [.store 0x100000 1, .load 0x100000 1 [6]]

theorem stored_guest : ∀ event ∈ storedEvents, event.Guest := by decide

theorem stored_accesses : ∀ event ∈ storedEvents, ∀ b, event.Accesses b → b = 0x100000 := by
  refine remapEvents_accesses ?_
  simp only [List.forall_mem_cons, Event.Accesses, List.not_mem_nil, false_imp_iff, implies_true,
    and_true]
  constructor <;> intro b hb <;> omega

theorem stored_firstLoads : firstLoads ∅ storedEvents = ∅ := by decide +kernel

theorem stored_restorable : Restorable storeLZ storedEvents storedCkpt :=
  remap_restorable stored_guest rfl (by decide) stored_accesses
    (by simp only [BooksRight, remapEvents]; decide)
    (by rw [← storedEvents, stored_firstLoads]; decide) (by decide +kernel)

/-- The page is stored to again before it is loaded: the replay is right. -/
theorem mapping_replay_stored :
    ∃ restored, restoreMemory storeLZ codeElf storedCkpt [] zero = some restored ∧
      ((processJmp [⟨0x21000, 0x1000⟩] remapPlaces 0x20000
          (readCkptsyscall (saveSysInfo storedCkpt.sysinfos) (remapLoader restored))).bind
        fun ready => replay (Mapped storedCkpt) ready
          (remapSteps [.store 0x100000 [6], .load 0x100000 1])) = some [[6]] := by
  have hStore : GuestAccess (.store 0x100000 [6]) := by decide
  have hLoad : GuestAccess (.load 0x100000 1) := by decide
  have hGuest : ∀ step ∈ [ProgramStep.store 0x100000 [6], .load 0x100000 1], step.Guest :=
    List.forall_mem_cons.mpr ⟨hStore, List.forall_mem_singleton.mpr hLoad⟩
  have hLine : LoadsInLine remapSim (remapSteps [.store 0x100000 [6], .load 0x100000 1]) := by
    intro addr size hIn
    simp only [remapSteps, List.mem_cons, reduceCtorEq, ProgramStep.load.injEq, List.not_mem_nil,
      or_false, false_or] at hIn
    rw [hIn.1, hIn.2]
    decide
  have hLoads : ∀ step ∈ [ProgramStep.store 0x100000 [6], .load 0x100000 1], ∀ b, step.Loads b →
      b = 0x100000 := by
    simp only [List.forall_mem_cons, ProgramStep.Loads, List.not_mem_nil, false_imp_iff,
      implies_true, and_true, true_and]
    intro b hb
    omega
  obtain ⟨hRestored, -⟩ :=
    stored_restorable.restores ⟨storedEvents, stored_guest, by decide, by decide⟩
    (fun _ _ => 0) (fun _ => 0) 6 0x20030 (create_started 5 1 0 [] [] 0 0x20000) ⟨rfl, rfl, rfl⟩
    codeElf (fun b hZero => absurd hZero (not_zeroInText stored_firstLoads b)) []
  exact ⟨_, hRestored, (@mapping_replay_iff remapSim remapStart _ _ [[6]] (by decide +kernel)
    (remapSteps_guest hGuest) hLine (by decide) (fun _ _ => 0) (fun _ => 0) 6 0x20030 _ _
    (create_started 5 1 0 [] [] 0 0x20000) ⟨rfl, rfl, rfl⟩ (remapCkpt_over _) storeLZ
    stored_restorable
    (not_zeroInText stored_firstLoads) (by decide +kernel) codeElf [] zero (remapLoader _) hRestored
    [⟨0x21000, 0x1000⟩] remapPlaces 0x20000 remapPlaced (remap_placed (by decide +kernel) _)
    (remap_apart hLoads)).mpr (by decide +kernel)⟩

def staleEvents : List Event := remapEvents [.load 0x100000 1 [0]]

def staleCkpt : CkptInfo := remapCkpt [.load 0x100000 1 [0]]

theorem stale_guest : ∀ event ∈ staleEvents, event.Guest := by decide

theorem stale_accesses : ∀ event ∈ staleEvents, ∀ b, event.Accesses b → b = 0x100000 := by
  refine remapEvents_accesses (List.forall_mem_singleton.mpr ?_)
  simp only [Event.Accesses]
  intro b hb
  omega

theorem stale_firstLoads : firstLoads ∅ staleEvents = ∅ := by decide +kernel

theorem stale_restorable : Restorable storeLZ staleEvents staleCkpt :=
  remap_restorable stale_guest rfl (by decide) stale_accesses
    (by simp only [BooksRight, remapEvents]; decide)
    (by rw [← staleEvents, stale_firstLoads]; decide) (by decide +kernel)

/-- The page comes back with zeros, and everything else is as it should be: the guest loads 0
and the replay the byte that was stored before the page was given back. -/
theorem mapping_replay_stale :
    remapStart.run remapSim (remapSteps [.load 0x100000 1]) = some (staleEvents, [[0]]) ∧
      (∀ step ∈ remapSteps [.load 0x100000 1], step.Guest) ∧
      LoadsInLine remapSim (remapSteps [.load 0x100000 1]) ∧
      Restorable storeLZ staleEvents staleCkpt ∧ (∀ b, ¬ ZeroInText staleEvents b) ∧
      ∃ restored, restoreMemory storeLZ codeElf staleCkpt [] zero = some restored ∧
        ((processJmp [⟨0x21000, 0x1000⟩] remapPlaces 0x20000
            (readCkptsyscall (saveSysInfo staleCkpt.sysinfos) (remapLoader restored))).bind
          fun ready => replay (Mapped staleCkpt) ready (remapSteps [.load 0x100000 1])) =
            some [[5]] := by
  have hLoad : GuestAccess (.load 0x100000 1) := by decide
  have hRun : remapStart.run remapSim (remapSteps [.load 0x100000 1]) =
      some (staleEvents, [[0]]) := by
    decide +kernel
  have hLater : ∀ step ∈ [ProgramStep.load 0x100000 1], step.Guest :=
    List.forall_mem_singleton.mpr hLoad
  have hGuest := remapSteps_guest hLater
  have hLine : LoadsInLine remapSim (remapSteps [.load 0x100000 1]) := by
    intro addr size hIn
    simp only [remapSteps, List.mem_cons, reduceCtorEq, ProgramStep.load.injEq, List.not_mem_nil,
      or_false, false_or] at hIn
    rw [hIn.1, hIn.2]
    decide
  have hLoads : ∀ step ∈ [ProgramStep.load 0x100000 1], ∀ b, step.Loads b → b = 0x100000 := by
    refine List.forall_mem_singleton.mpr ?_
    simp only [ProgramStep.Loads]
    intro b hb
    omega
  have hZeros := not_zeroInText stale_firstLoads
  obtain ⟨hRestored, -⟩ :=
    stale_restorable.restores ⟨staleEvents, stale_guest, by decide, by decide⟩
    (fun _ _ => 0) (fun _ => 0) 6 0x20030 (create_started 5 1 0 [] [] 0 0x20000) ⟨rfl, rfl, rfl⟩
    codeElf (fun b hZero => absurd hZero (hZeros b)) []
  obtain ⟨hReplay, -⟩ :=
    @replay_restored remapSim remapStart _ _ [[0]] hRun hGuest hLine (by decide)
    (fun _ _ => 0) (fun _ => 0) 6 0x20030 _ _ (create_started 5 1 0 [] [] 0 0x20000) ⟨rfl, rfl, rfl⟩
    (remapCkpt_over _) storeLZ stale_restorable hZeros (by decide +kernel) codeElf [] zero
    (remapLoader _) hRestored [⟨0x21000, 0x1000⟩] remapPlaces 0x20000 remapPlaced
    (remap_placed (by decide +kernel) _) (remap_apart hLoads)
  refine ⟨hRun, hGuest, hLine, stale_restorable, hZeros, _, hRestored, hReplay.trans ?_⟩
  have hStored : ∀ m : Memory,
      loads m ((remapSteps [.load 0x100000 1]).filterMap ProgramStep.access?) =
      [[5]] := fun m => rfl
  exact congrArg some (hStored _)

end RiscvCkpt
