import RiscvCkpt.Base.Dialogue
import RiscvCkpt.Cpu.Hooks
import RiscvCkpt.Restore.RestoredData

/-! A recorded run and its replay, instruction by instruction. Any program is run twice: on the
simulator, where the kernel serves its system calls and the hooks are told of it, and under one of
the loaders, which takes the calls over. As long as the program stays away from what the loader
keeps for itself, both machines give it the same replies. -/
namespace RiscvCkpt

open ByteMemory CkptInfo Dialogue

/-- What the instructions of a program ask of the machine: an instruction is fetched, makes its
accesses and is committed. An AMO is one access, with what it does to the bytes that it finds. A
system call is a request of its own, with the registers it is made with; its instruction is the
one that the loader replaces. -/
inductive Request where
  | fetch (pc size : Nat)
  | load (addr size : Nat)
  | store (addr : Nat) (bytes : List UInt8)
  | amo (addr size : Nat) (op : List UInt8 → List UInt8)
  | commit (pc : Nat)
  | ecall (pc : Nat) (regs : Nat → Nat)

/-- What the machine replies. Behind a call the program finds itself at a pc with registers. -/
inductive Reply where
  | done
  | data (bytes : List UInt8)
  | back (npc : Nat) (regs : Nat → Nat)

/-- What the kernel does for a call: the result, and the output that it writes, if any. -/
structure CallEffect where
  hasret : Bool
  ret : Nat
  output : Option (Nat × List UInt8)

namespace CallEffect

variable (effect : CallEffect) (pc : Nat) (regs : Nat → Nat)

def bufaddr : Nat := (effect.output.getD (0, [])).1

def data : List UInt8 := (effect.output.getD (0, [])).2

def events : List Event :=
  .sysenter pc (regs 17) [regs 10, regs 11, regs 12, regs 13, regs 14] ::
    ((effect.output.map fun output => Event.sysexe pc effect.ret output.1 output.2).toList ++
      [.sysret pc effect.hasret effect.ret])

def call : SyscallInfo :=
  { pc := pc, num := regs 17 % 2 ^ 32, ret := effect.ret, hasret := effect.hasret,
    bufaddr := effect.bufaddr, data := effect.data,
    params := [regs 10, regs 11, regs 12, regs 13, regs 14] }

def results : Nat → Nat := if effect.hasret then Function.update regs 10 effect.ret else regs

def write (m : Memory) : Memory := ByteMemory.store m effect.bufaddr effect.data

/-- Output goes to the buffer of the program. -/
def Writable : Prop := effect.data ≠ [] → effect.bufaddr ≠ 0

end CallEffect

structure World where
  memory : Memory
  events : List Event

namespace World

def calls (w : World) : List SyscallInfo := w.events.foldl callStep []

def tell (w : World) (m : Memory) (events : List Event) : World := ⟨m, w.events ++ events⟩

end World

/-- The event accesses the byte or writes it. -/
def Event.Involves (event : Event) (b : Nat) : Prop := event.Accesses b ∨ event.Writes b

def World.Involves (w : World) (b : Nat) : Prop := ∃ event ∈ w.events, event.Involves b

/-- The simulator serves a request in its `n`-th step. What the hooks are told of a load or of an
AMO need not be what the program gets. The code is never changed. In a call, the kernel may also
change memory that it has told the hooks nothing about, if the program has not seen it yet. -/
inductive RecordStep (sim : Simulator) (code : Memory) :
    World → Request → Reply → World → Prop where
  | fetch {w : World} {pc size : Nat} (hCode : load w.memory pc size = load code pc size) :
      RecordStep sim code w (.fetch pc size) .done w
  | load {w : World} (n addr size : Nat) :
      RecordStep sim code w (.load addr size) (.data (load w.memory addr size))
        (w.tell w.memory (sim.loadCalls n w.memory addr size))
  | store {w : World} (addr : Nat) (bytes : List UInt8) :
      RecordStep sim code w (.store addr bytes) .done
        (w.tell (store w.memory addr bytes) [.store addr bytes.length])
  | amo {w : World} {n addr size : Nat} {op : List UInt8 → List UInt8} {told : List Event}
      (hTold : sim.amoCalls n w.memory addr size = some told)
      (hSize : (op (load w.memory addr size)).length = size) :
      RecordStep sim code w (.amo addr size op) (.data (load w.memory addr size))
        (w.tell (store w.memory addr (op (load w.memory addr size))) told)
  | commit {w : World} (pc : Nat) :
      RecordStep sim code w (.commit pc) .done (w.tell w.memory [.inst pc])
  | ecall {w : World} {pc : Nat} {regs : Nat → Nat} {m : Memory} (effect : CallEffect)
      (hNum : regs 17 < 2 ^ 32) (hWritable : effect.Writable)
      (hKept : ∀ b, w.Involves b ∨ effect.bufaddr ≤ b ∧ b < effect.bufaddr + effect.data.length →
        m b = effect.write w.memory b) :
      RecordStep sim code w (.ecall pc regs) (.back ((pc + 4) % 2 ^ 64) (effect.results regs))
        (w.tell m (effect.events pc regs))

/-- The hooks are told the right bytes: a load stays in one cache line, and an AMO meets no page
fault. -/
def Request.ToldRight (sim : Simulator) : Request → Prop
  | .load addr size => InLine sim.line addr size
  | .amo addr _ _ => ∀ n, sim.faults n addr = false
  | _ => True

def Request.isCall : Request → Bool
  | .ecall _ _ => true
  | _ => false

def callsIn (dialogue : List (Request × Reply)) : Nat := dialogue.countP fun turn => turn.1.isCall

/-- Each byte of each instruction that is fetched, with the dialogue behind the fetch. -/
def EachFetched (P : Nat → List (Request × Reply) → Prop) : List (Request × Reply) → Prop
  | [] => True
  | (request, _) :: later =>
      (match request with
        | .fetch pc size => ∀ b, pc ≤ b → b < pc + size → P b later
        | _ => True) ∧ EachFetched P later

/-- `Context_Operation("ld x")` or `("fld f")` with the load of register 10 behind it. The list
of the registers begins with register 1. -/
def loadContext (saved regs : Nat → Nat) : Nat → Nat := fun x => if x = 0 then regs x else saved x

def loadProgramIntRegs (program_intregs regs : Nat → Nat) : Nat → Nat :=
  loadContext program_intregs regs

/-- What a program is replayed on: memory, as far as it is mapped, and a way to take its system
calls over. A call at a pc puts the program at another one, with the registers it has there. -/
structure Restorer (State : Type) where
  mapped : Nat → Prop
  memory : State → Memory
  setMemory : State → Memory → State
  takesOver : State → Nat → (Nat → Nat) → Nat → (Nat → Nat) → State → Prop
  memory_setMemory : ∀ s m, memory (setMemory s m) = m

/-- The program in a replay. Instructions are executed from the memory of the program, and the
system calls are taken over. There is no step for an access to a byte that is not mapped. -/
inductive ReplayStep {State : Type} (code : Memory) (restorer : Restorer State) :
    State → Request → Reply → State → Prop where
  | fetch {s : State} {pc size : Nat} (hMapped : MapsAccess restorer.mapped pc size)
      (hCode : load (restorer.memory s) pc size = load code pc size) :
      ReplayStep code restorer s (.fetch pc size) .done s
  | load {s : State} {addr size : Nat} (hMapped : MapsAccess restorer.mapped addr size) :
      ReplayStep code restorer s (.load addr size) (.data (load (restorer.memory s) addr size)) s
  | store {s : State} {addr : Nat} {bytes : List UInt8}
      (hMapped : MapsAccess restorer.mapped addr bytes.length) :
      ReplayStep code restorer s (.store addr bytes) .done
        (restorer.setMemory s (store (restorer.memory s) addr bytes))
  | amo {s : State} {addr size : Nat} {op : List UInt8 → List UInt8}
      (hMapped : MapsAccess restorer.mapped addr size) :
      ReplayStep code restorer s (.amo addr size op) (.data (load (restorer.memory s) addr size))
        (restorer.setMemory s
          (store (restorer.memory s) addr (op (load (restorer.memory s) addr size))))
  | commit {s : State} (pc : Nat) : ReplayStep code restorer s (.commit pc) .done s
  | ecall {s s' : State} {pc npc : Nat} {regs regs' : Nat → Nat}
      (hTaken : restorer.takesOver s pc regs npc regs' s') :
      ReplayStep code restorer s (.ecall pc regs) (.back npc regs') s'

section Recording

variable {sim : Simulator} {code : Memory} {w u final : World} {request : Request} {reply : Reply}

theorem callsIn_cons (later : List (Request × Reply)) :
    callsIn ((request, reply) :: later) = callsIn later + if request.isCall then 1 else 0 :=
  List.countP_cons

theorem EachFetched.mono {P Q : Nat → List (Request × Reply) → Prop}
    (hImp : ∀ b later, P b later → Q b later)
    {dialogue : List (Request × Reply)} (h : EachFetched P dialogue) : EachFetched Q dialogue := by
  induction dialogue with
  | nil => trivial
  | cons turn later ih =>
      obtain ⟨request, reply⟩ := turn
      refine ⟨?_, ih h.2⟩
      cases request with
      | fetch pc size => exact fun b hLow hHigh => hImp b later (h.1 b hLow hHigh)
      | load => trivial
      | store => trivial
      | amo => trivial
      | commit => trivial
      | ecall => trivial

/-- The hooks of a call add one record. -/
theorem CallEffect.foldl_events (effect : CallEffect) (pc : Nat) (regs : Nat → Nat)
    (calls : List SyscallInfo) :
    (effect.events pc regs).foldl callStep calls = calls ++ [effect.call pc regs] := by
  rcases hOutput : effect.output with _ | output <;>
    simp [CallEffect.events, CallEffect.call, CallEffect.bufaddr, CallEffect.data,
      hOutput, callStep]

/-- A call involves the bytes of its output. -/
theorem CallEffect.mem_involves {effect : CallEffect} {pc b : Nat} {regs : Nat → Nat} :
    (∃ event ∈ effect.events pc regs, event.Involves b) ↔
      effect.bufaddr ≤ b ∧ b < effect.bufaddr + effect.data.length := by
  rcases hOutput : effect.output with _ | output
  · simp [CallEffect.events, CallEffect.bufaddr, CallEffect.data, hOutput, Event.Involves,
      Event.Accesses, Event.Writes]
  · simp [CallEffect.events, CallEffect.bufaddr, CallEffect.data, hOutput, Event.Involves,
      Event.Accesses, Event.Writes]

/-- A byte is involved if it was before, or by one of the events. -/
theorem World.tell_involves {m : Memory} {events : List Event} {b : Nat} :
    (w.tell m events).Involves b ↔ w.Involves b ∨ ∃ event ∈ events, event.Involves b := by
  simp only [World.Involves, World.tell, List.mem_append, or_and_right, exists_or]

theorem World.tell_calls (m : Memory) (events : List Event) :
    (w.tell m events).calls = events.foldl callStep w.calls := List.foldl_append

theorem World.tell_ecall (m : Memory) (effect : CallEffect) (pc : Nat) (regs : Nat → Nat) :
    (w.tell m (effect.events pc regs)).calls = w.calls ++ [effect.call pc regs] := by
  rw [w.tell_calls, effect.foldl_events]

/-- Loads are no calls. -/
theorem foldl_callStep_loads {addr size : Nat} {events : List Event}
    (h : ∀ event ∈ events, ∃ bytes, event = .load addr size bytes) (calls : List SyscallInfo) :
    events.foldl callStep calls = calls := by
  induction events generalizing calls with
  | nil => rfl
  | cons event rest ih =>
      obtain ⟨⟨bytes, rfl⟩, hRest⟩ := List.forall_mem_cons.mp h
      exact ih hRest calls

/-- A step only adds to what the hooks have been told, and a call adds one record. -/
theorem RecordStep.grows (h : RecordStep sim code w request reply u) :
    w.events <+: u.events ∧ w.calls <+: u.calls ∧
      u.calls.length = w.calls.length + if request.isCall then 1 else 0 := by
  have hTell : ∀ m events, events.foldl callStep w.calls = w.calls →
      w.events <+: (w.tell m events).events ∧ w.calls <+: (w.tell m events).calls ∧
        (w.tell m events).calls.length = w.calls.length := by
    intro m events hSame
    rw [w.tell_calls, hSame]
    exact ⟨List.prefix_append .., List.prefix_rfl, rfl⟩
  cases h with
  | fetch => exact ⟨List.prefix_rfl, List.prefix_rfl, rfl⟩
  | load n addr size =>
      exact hTell _ _ (foldl_callStep_loads (fun event => Simulator.mem_loadCalls) w.calls)
  | store addr bytes => exact hTell _ _ rfl
  | amo hTold =>
      exact hTell _ _ (foldl_callStep_loads (fun event => Simulator.mem_amoCalls hTold) w.calls)
  | commit pc => exact hTell _ _ rfl
  | @ecall pc regs m effect =>
      rw [w.tell_ecall]
      exact ⟨List.prefix_append .., List.prefix_append .., List.length_append⟩

/-- Along a recorded run the events and the calls grow, by one call for each that is made. -/
theorem recorded_grows {dialogue : List (Request × Reply)}
    (h : Dialogue.Serves (RecordStep sim code) w dialogue final) :
    w.events <+: final.events ∧ w.calls <+: final.calls ∧
      final.calls.length = w.calls.length + callsIn dialogue := by
  refine h.keeps (P := fun w dialogue => w.events <+: final.events ∧ w.calls <+: final.calls ∧
    final.calls.length = w.calls.length + callsIn dialogue) ?_ ⟨List.prefix_rfl,
    List.prefix_rfl, rfl⟩
  intro w request reply next later hStep ⟨hEvents, hCalls, hLength⟩
  obtain ⟨hTold, hMade, hCount⟩ := hStep.grows
  refine ⟨hTold.trans hEvents, hMade.trans hCalls, ?_⟩
  rw [hLength, hCount, callsIn_cons]
  omega

theorem Touched.mono {events events' : List Event} {calls calls' : List SyscallInfo} {b : Nat}
    (h : Touched events calls b) (hEvents : events <+: events') (hCalls : calls <+: calls') :
    Touched events' calls' b := by
  rcases h with ⟨event, hEvent, hIn⟩ | ⟨call, hCall, hIn⟩
  · exact Or.inl ⟨event, hEvents.subset hEvent, hIn⟩
  · exact Or.inr ⟨call, hCalls.subset hCall, hIn⟩

/-- What a request involves is accessed, or belongs to the output of a call that is recorded. -/
theorem RecordStep.touched (h : RecordStep sim code w request reply u)
    (hBefore : ∀ b, w.Involves b → Touched w.events w.calls b) :
    ∀ b, u.Involves b → Touched u.events u.calls b := by
  obtain ⟨hEvents, hCalls, -⟩ := h.grows
  have hTold : ∀ {m events}, u = w.tell m events →
      (∀ b, (∃ event ∈ events, event.Involves b) → Touched u.events u.calls b) →
      ∀ b, u.Involves b → Touched u.events u.calls b := by
    intro m events hU hNew b hIn
    rw [hU, World.tell_involves] at hIn
    rcases hIn with hOld | hEvent
    · exact (hBefore b hOld).mono hEvents hCalls
    · exact hNew b hEvent
  have hLoads : ∀ {m addr size events}, u = w.tell m events →
      (∀ event ∈ events, ∃ bytes, event = .load addr size bytes) →
      ∀ b, u.Involves b → Touched u.events u.calls b := by
    intro m addr size events hU hAll
    refine hTold hU ?_
    rintro b ⟨event, hEvent, hIn⟩
    obtain ⟨bytes, rfl⟩ := hAll event hEvent
    exact Or.inl ⟨_, hU ▸ List.mem_append_right _ hEvent, hIn.resolve_right id⟩
  cases h with
  | fetch => exact hBefore
  | load => exact hLoads rfl fun event => Simulator.mem_loadCalls
  | store addr bytes =>
      refine hTold rfl ?_
      rintro b ⟨event, hEvent, hIn⟩
      refine Or.inl ⟨event, List.mem_append_right _ hEvent, ?_⟩
      obtain rfl := List.mem_singleton.mp hEvent
      exact hIn.elim id id
  | amo hAmo => exact hLoads rfl fun event => Simulator.mem_amoCalls hAmo
  | commit =>
      refine hTold rfl ?_
      rintro b ⟨event, hEvent, hIn⟩
      obtain rfl := List.mem_singleton.mp hEvent
      exact (hIn.elim id id).elim
  | @ecall pc regs m effect =>
      refine hTold rfl fun b hIn => Or.inr ⟨effect.call pc regs, ?_, CallEffect.mem_involves.mp hIn⟩
      rw [w.tell_ecall]
      exact List.mem_append_right _ (List.mem_singleton_self _)

/-- A load of bytes that have not been accessed before is the first one. -/
theorem firstLoad_of_new {before after : List Event} {addr size b : Nat} {data : List UInt8}
    {seen : Finset Nat} (hSeen : b ∉ seen) (hNew : ∀ event ∈ before, ¬ event.Accesses b)
    (hLow : addr ≤ b) (hHigh : b < addr + size) :
    FirstLoad seen (before ++ .load addr size data :: after) (b, data.getD (b - addr) 0) := by
  induction before generalizing seen with
  | nil => exact Or.inl ⟨hSeen, hLow, hHigh, rfl⟩
  | cons event rest ih =>
      obtain ⟨hFirst, hRest⟩ := List.forall_mem_cons.mp hNew
      refine Or.inr (ih ?_ hRest)
      rw [Finset.mem_union, not_or]
      refine ⟨hSeen, fun hSpan => hFirst ?_⟩
      cases event with
      | load => exact Finset.mem_Ico.mp hSpan
      | store => exact Finset.mem_Ico.mp hSpan
      | inst => exact absurd hSpan (Finset.notMem_empty b)
      | sysenter => exact absurd hSpan (Finset.notMem_empty b)
      | sysexe => exact absurd hSpan (Finset.notMem_empty b)
      | sysret => exact absurd hSpan (Finset.notMem_empty b)

end Recording

/-- The restorer replays these calls, one after the other. Behind the first `k` of them it has
overwritten some bytes of the program. While nobody else writes to those that it keeps for
itself, it takes the next call over, and the effect is the recorded one. -/
structure Replays {State : Type} (restorer : Restorer State) (calls : List SyscallInfo)
    (keeps : Nat → Prop) (overwritten : Nat → Nat → Prop) (Ready : Nat → State → Prop) : Prop where
  kept : ∀ {k b}, overwritten k b → keeps b
  grows : ∀ {k b}, k < calls.length → overwritten k b → overwritten (k + 1) b
  other : ∀ {k s m}, Ready k s → (∀ b, keeps b → m b = restorer.memory s b) →
    Ready k (restorer.setMemory s m)
  call : ∀ {k s pc regs} {effect : CallEffect}, Ready k s → calls[k]? = some (effect.call pc regs) →
    regs 17 < 2 ^ 32 → effect.Writable →
    (∀ b, effect.bufaddr ≤ b → b < effect.bufaddr + effect.data.length →
      restorer.mapped b ∧ ¬ keeps b) →
    ∃ s', restorer.takesOver s pc regs ((pc + 4) % 2 ^ 64) (effect.results regs) s' ∧
      Ready (k + 1) s' ∧
      ∀ b, ¬ overwritten (k + 1) b → restorer.memory s' b = effect.write (restorer.memory s) b

/-- The memory in the middle of a replay, beside the simulator at the same place: outside of what
is overwritten by now, the bytes that have been seen are equal and the others are as they were
restored. -/
structure Shadows (overwritten : Nat → Nat → Prop) (restored : Memory) (w : World)
    (memory : Memory) : Prop where
  seen : ∀ b, ¬ overwritten w.calls.length b → w.Involves b → memory b = w.memory b
  fresh : ∀ b, ¬ overwritten w.calls.length b → ¬ w.Involves b → memory b = restored b

/-- The fetches find the instructions of the program: the bytes are mapped and restored, and not
overwritten when the calls behind the fetch are all that is left. -/
def FetchesClear (calls : List SyscallInfo) (mapped : Nat → Prop) (overwritten : Nat → Nat → Prop)
    (restored code : Memory) : List (Request × Reply) → Prop :=
  EachFetched fun b later => mapped b ∧ restored b = code b ∧
    ∀ k, k + callsIn later = calls.length → ¬ overwritten k b

section Replaying

variable {sim : Simulator} {overwritten : Nat → Nat → Prop} {restored memory code : Memory}
  {w : World}

/-- What the memory holds where nothing is overwritten. -/
theorem Shadows.memory_eq (h : Shadows overwritten restored w memory) {b : Nat}
    (hb : ¬ overwritten w.calls.length b) (hRestored : ¬ w.Involves b → restored b = w.memory b) :
    memory b = w.memory b := by
  by_cases hIn : w.Involves b
  · exact h.seen b hb hIn
  · exact (h.fresh b hb hIn).trans (hRestored hIn)

/-- A request that writes some bytes, or none, and is told to the hooks. -/
theorem Shadows.written (h : Shadows overwritten restored w memory) {m m' : Memory}
    {events : List Event} (addr : Nat) (bytes : List UInt8)
    (hGrows : ∀ b, overwritten w.calls.length b → overwritten (w.tell m events).calls.length b)
    (hTold : ∀ b, addr ≤ b → b < addr + bytes.length → ∃ event ∈ events, event.Involves b)
    (hKnown : ∀ b, (∃ event ∈ events, event.Involves b) → ¬ (addr ≤ b ∧ b < addr + bytes.length) →
      memory b = w.memory b)
    (hSimulated : ∀ b, (w.tell m events).Involves b → m b = store w.memory addr bytes b)
    (hReplayed : ∀ b, ¬ overwritten (w.tell m events).calls.length b →
      m' b = store memory addr bytes b) :
    Shadows overwritten restored (w.tell m events) m' := by
  constructor
  · intro b hb hIn
    rw [hReplayed b hb]
    refine Eq.trans ?_ (hSimulated b hIn).symm
    by_cases hNew : addr ≤ b ∧ b < addr + bytes.length
    · rw [store_inside hNew.1 hNew.2, store_inside hNew.1 hNew.2]
    · rw [store_outside (by omega), store_outside (by omega)]
      rcases World.tell_involves.mp hIn with hOld | hEvent
      · exact h.seen b (fun hBefore => hb (hGrows b hBefore)) hOld
      · exact hKnown b hEvent hNew
  · intro b hb hOut
    rw [World.tell_involves, not_or] at hOut
    have hNot : ¬ (addr ≤ b ∧ b < addr + bytes.length) := fun hIn => hOut.2 (hTold b hIn.1 hIn.2)
    rw [hReplayed b hb, store_outside (by omega)]
    exact h.fresh b (fun hBefore => hb (hGrows b hBefore)) hOut.1

/-- A request that writes nothing. -/
theorem Shadows.untouched (h : Shadows overwritten restored w memory) {event : Event}
    (hQuiet : (w.tell w.memory [event]).calls = w.calls)
    (hKnown : ∀ b, event.Involves b → memory b = w.memory b) :
    Shadows overwritten restored (w.tell w.memory [event]) memory := by
  refine h.written 0 [] (fun b hb => hQuiet.symm ▸ hb) ?_ ?_ ?_ ?_
  · intro b _ hHigh
    exact absurd hHigh (Nat.not_lt_zero b)
  · rintro b ⟨_, hEvent, hIn⟩ -
    obtain rfl := List.mem_singleton.mp hEvent
    exact hKnown b hIn
  · intro b _
    rw [store_nil]
  · intro b _
    rw [store_nil]

variable {State : Type} {restorer : Restorer State} {keeps : Nat → Prop}
  {Ready : Nat → State → Prop} {s : State}

/-- A byte that is loaded now was restored with its value, if it has not been seen before. -/
theorem firstLoad_restored {final : World} {addr size : Nat} {after : List Event}
    (hEvents : w.events ++ .load addr size (ByteMemory.load w.memory addr size) :: after =
      final.events)
    (hLoads : ∀ byte, FirstLoad ∅ final.events byte → restored byte.1 = byte.2) {b : Nat}
    (hLow : addr ≤ b) (hHigh : b < addr + size) (hUnseen : ¬ w.Involves b) :
    restored b = w.memory b := by
  have hByte : (ByteMemory.load w.memory addr size).getD (b - addr) 0 = w.memory b := by
    rw [load_getD (by omega), Nat.add_sub_cancel' hLow]
  have hFirst : FirstLoad ∅ final.events (b, w.memory b) := by
    rw [← hEvents, ← hByte]
    exact firstLoad_of_new (Finset.notMem_empty b)
      (fun event hEvent hIn => hUnseen ⟨event, hEvent, Or.inl hIn⟩) hLow hHigh
  exact hLoads _ hFirst

/-- A request that writes the bytes that its event involves. -/
theorem Replays.writes {calls : List SyscallInfo} {addr : Nat} {bytes : List UInt8} {event : Event}
    (h : Replays restorer calls keeps overwritten Ready) (hReady : Ready w.calls.length s)
    (hShadows : Shadows overwritten restored w (restorer.memory s))
    (hQuiet : (w.tell (ByteMemory.store w.memory addr bytes) [event]).calls = w.calls)
    (hInside : ∀ b, event.Involves b ↔ addr ≤ b ∧ b < addr + bytes.length)
    (hFree : ∀ b, event.Involves b → ¬ keeps b) :
    let u := w.tell (ByteMemory.store w.memory addr bytes) [event]
    let next := restorer.setMemory s (ByteMemory.store (restorer.memory s) addr bytes)
    Ready u.calls.length next ∧ Shadows overwritten restored u (restorer.memory next) := by
  have hAll : ∀ b, (∃ told ∈ [event], told.Involves b) ↔ addr ≤ b ∧ b < addr + bytes.length := by
    simpa using hInside
  constructor
  · refine hQuiet.symm ▸ h.other hReady fun b hb => store_outside ?_
    by_contra hIn
    exact hFree b ((hInside b).mpr ⟨by omega, by omega⟩) hb
  · refine hShadows.written addr bytes (fun b hb => hQuiet.symm ▸ hb)
      (fun b hLow hHigh => (hAll b).mpr ⟨hLow, hHigh⟩)
      (fun b hEvent hOut => absurd ((hAll b).mp hEvent) hOut) (fun _ _ => rfl) fun b _ => ?_
    rw [restorer.memory_setMemory]

/-- A fetch finds the code where it is restored and not overwritten. -/
theorem Shadows.fetched (h : Shadows overwritten restored w memory) {pc size : Nat}
    (hCode : ByteMemory.load w.memory pc size = ByteMemory.load code pc size)
    (hClear : ∀ b, pc ≤ b → b < pc + size →
      restored b = code b ∧ ¬ overwritten w.calls.length b) :
    ByteMemory.load memory pc size = ByteMemory.load code pc size := by
  refine load_eq_iff.mpr fun b hLow hHigh => ?_
  obtain ⟨hRestored, hFree⟩ := hClear b hLow hHigh
  have hByte : w.memory b = code b := load_eq_iff.mp hCode b hLow hHigh
  exact (h.memory_eq hFree fun _ => hRestored.trans hByte.symm).trans hByte

/-- A request that is told as a load finds what the simulator has found. -/
theorem Replays.loaded {calls : List SyscallInfo} {final : World} {addr size : Nat}
    {after : List Event} (h : Replays restorer calls keeps overwritten Ready)
    (hShadows : Shadows overwritten restored w (restorer.memory s))
    (hEvents : w.events ++ .load addr size (ByteMemory.load w.memory addr size) :: after =
      final.events)
    (hLoads : ∀ byte, FirstLoad ∅ final.events byte → restored byte.1 = byte.2)
    (hApart : ∀ b, addr ≤ b → b < addr + size → ¬ keeps b) :
    ∀ b, addr ≤ b → b < addr + size → restorer.memory s b = w.memory b := by
  intro b hLow hHigh
  have hFree : ¬ overwritten w.calls.length b := fun hOver =>
    hApart b hLow hHigh (h.kept hOver)
  exact hShadows.memory_eq hFree (firstLoad_restored hEvents hLoads hLow hHigh)

/-- A call that is taken over has the effect that it had on the simulator. -/
theorem Replays.ecall {calls : List SyscallInfo} {pc : Nat} {regs : Nat → Nat} {m : Memory}
    {effect : CallEffect} (h : Replays restorer calls keeps overwritten Ready)
    (hReady : Ready w.calls.length s)
    (hShadows : Shadows overwritten restored w (restorer.memory s))
    (hCall : calls[w.calls.length]? = some (effect.call pc regs)) (hNum : regs 17 < 2 ^ 32)
    (hWritable : effect.Writable)
    (hOutput : ∀ b, effect.bufaddr ≤ b → b < effect.bufaddr + effect.data.length →
      restorer.mapped b ∧ ¬ keeps b)
    (hKept : ∀ b, w.Involves b ∨ effect.bufaddr ≤ b ∧ b < effect.bufaddr + effect.data.length →
      m b = effect.write w.memory b) :
    let u := w.tell m (effect.events pc regs)
    ∃ next, restorer.takesOver s pc regs ((pc + 4) % 2 ^ 64) (effect.results regs) next ∧
      Ready u.calls.length next ∧ Shadows overwritten restored u (restorer.memory next) := by
  intro u
  have hCount : u.calls.length = w.calls.length + 1 := by
    rw [w.tell_ecall, List.length_append, List.length_singleton]
  have hMore : w.calls.length < calls.length := (List.getElem?_eq_some_iff.mp hCall).1
  obtain ⟨next, hTaken, hNext, hMemory⟩ := h.call hReady hCall hNum hWritable hOutput
  refine ⟨next, hTaken, hCount.symm ▸ hNext, hShadows.written effect.bufaddr effect.data
    (fun b hb => hCount.symm ▸ h.grows hMore hb)
    (fun b hLow hHigh => CallEffect.mem_involves.mpr ⟨hLow, hHigh⟩)
    (fun b hEvent hOut => absurd (CallEffect.mem_involves.mp hEvent) hOut) (fun b hIn => ?_)
    fun b hb => hMemory b (hCount ▸ hb)⟩
  rw [World.tell_involves, CallEffect.mem_involves] at hIn
  exact hKept b hIn

/-- One request: the restorer gives the reply of the simulator. -/
theorem Replays.step {u final : World} {request : Request} {reply : Reply}
    {later : List (Request × Reply)} (h : Replays restorer final.calls keeps overwritten Ready)
    (hLoads : ∀ byte, FirstLoad ∅ final.events byte → restored byte.1 = byte.2)
    (hApart : ∀ event ∈ final.events, ∀ b, event.Involves b → restorer.mapped b ∧ ¬ keeps b)
    (hStep : RecordStep sim code w request reply u) (hRight : request.ToldRight sim)
    (hRest : Dialogue.Serves (RecordStep sim code) u later final)
    (hReady : Ready w.calls.length s)
    (hShadows : Shadows overwritten restored w (restorer.memory s))
    (hFetches : FetchesClear final.calls restorer.mapped overwritten restored code
      ((request, reply) :: later)) :
    ∃ next, ReplayStep code restorer s request reply next ∧ Ready u.calls.length next ∧
      Shadows overwritten restored u (restorer.memory next) := by
  obtain ⟨⟨after, hEvents⟩, hCalls, hLeft⟩ := recorded_grows hRest
  have hTold : ∀ event ∈ u.events, ∀ b, event.Involves b → restorer.mapped b ∧ ¬ keeps b := by
    intro event hEvent
    apply hApart
    rw [← hEvents]
    exact List.mem_append_left _ hEvent
  -- a request that is told by one event stays away from what the restorer keeps
  have hFound : ∀ {m event}, u = w.tell m [event] → ∀ b, event.Involves b →
      restorer.mapped b ∧ ¬ keeps b := by
    rintro m event rfl
    exact hTold event (List.mem_append_right _ (List.mem_singleton_self _))
  have hLoaded : ∀ {addr size m},
      u = w.tell m [.load addr size (ByteMemory.load w.memory addr size)] →
      MapsAccess restorer.mapped addr size ∧
        ∀ b, addr ≤ b → b < addr + size → restorer.memory s b = w.memory b := by
    intro addr size m hU
    have hIn : ∀ b, addr ≤ b → b < addr + size → restorer.mapped b ∧ ¬ keeps b :=
      fun b hLow hHigh => hFound hU b (Or.inl ⟨hLow, hHigh⟩)
    rw [hU, World.tell, List.append_assoc] at hEvents
    exact ⟨fun i hi => (hIn (addr + i) (by omega) (by omega)).1,
      h.loaded hShadows hEvents hLoads fun b hLow hHigh => (hIn b hLow hHigh).2⟩
  cases hStep with
  | @fetch pc size hCode =>
      have hMapped : MapsAccess restorer.mapped pc size := fun i hi =>
        (hFetches.1 (pc + i) (by omega) (by omega)).1
      have hSame := hShadows.fetched hCode fun b hLow hHigh =>
        ⟨(hFetches.1 b hLow hHigh).2.1, (hFetches.1 b hLow hHigh).2.2 _ hLeft.symm⟩
      exact ⟨s, .fetch hMapped hSame, hReady, hShadows⟩
  | load n addr size =>
      rw [Simulator.loadCalls_inLine hRight] at hLoaded ⊢
      obtain ⟨hMapped, hSame⟩ := hLoaded rfl
      have hData : ByteMemory.load (restorer.memory s) addr size =
          ByteMemory.load w.memory addr size := load_eq_iff.mpr hSame
      have hQuiet := w.tell_calls w.memory [.load addr size (ByteMemory.load w.memory addr size)]
      refine ⟨s, hData ▸ .load hMapped, hQuiet.symm ▸ hReady, hShadows.untouched hQuiet ?_⟩
      rintro b (⟨hLow, hHigh⟩ | hWrite)
      · exact hSame b hLow hHigh
      · exact hWrite.elim
  | store addr bytes =>
      have hMapped : MapsAccess restorer.mapped addr bytes.length := fun i hi =>
        (hFound rfl (addr + i) (Or.inl ⟨by omega, by omega⟩)).1
      exact ⟨_, .store hMapped, h.writes hReady hShadows (w.tell_calls _ _)
        (by simp [Event.Involves, Event.Accesses, Event.Writes]) fun b hb => (hFound rfl b hb).2⟩
  | @amo n addr size op told hAmo hSize =>
      obtain rfl := Simulator.amoCalls_present hAmo (hRight n)
      obtain ⟨hMapped, hSame⟩ := hLoaded rfl
      have hStep := @ReplayStep.amo _ code restorer s addr size op hMapped
      rw [load_eq_iff.mpr hSame] at hStep
      exact ⟨_, hStep, h.writes hReady hShadows (w.tell_calls _ _)
        (by simp [Event.Involves, Event.Accesses, Event.Writes, hSize])
        fun b hb => (hFound rfl b hb).2⟩
  | commit pc =>
      have hQuiet := w.tell_calls w.memory [.inst pc]
      refine ⟨s, .commit pc, hQuiet.symm ▸ hReady, hShadows.untouched hQuiet ?_⟩
      rintro b (hIn | hIn)
      · exact hIn.elim
      · exact hIn.elim
  | @ecall pc regs m effect hNum hWritable hKept =>
      have hCall : final.calls[w.calls.length]? = some (effect.call pc regs) := by
        obtain ⟨more, hMore⟩ := hCalls
        rw [← hMore, w.tell_ecall, List.append_assoc,
          List.getElem?_append_right (Nat.le_refl _), Nat.sub_self]
        rfl
      have hOutput : ∀ b, effect.bufaddr ≤ b → b < effect.bufaddr + effect.data.length →
          restorer.mapped b ∧ ¬ keeps b := by
        intro b hLow hHigh
        obtain ⟨event, hEvent, hIn⟩ :=
          (@CallEffect.mem_involves effect pc b regs).mpr ⟨hLow, hHigh⟩
        exact hTold event (List.mem_append_right _ hEvent) b hIn
      obtain ⟨next, hTaken, hNext⟩ :=
        h.ecall hReady hShadows hCall hNum hWritable hOutput hKept
      exact ⟨next, .ecall hTaken, hNext⟩

/-- A program is replayed as it has run on the simulator. -/
theorem Replays.runs {Own : Type} {program : Program Own Request Reply} {p p' : Own} {m : Memory}
    {dialogue : List (Request × Reply)} {final : World}
    (h : Replays restorer final.calls keeps overwritten Ready)
    (hRun : Runs program (RecordStep sim code) p ⟨m, []⟩ dialogue p' final)
    (hRight : ∀ turn ∈ dialogue, turn.1.ToldRight sim)
    (hFetches : FetchesClear final.calls restorer.mapped overwritten restored code dialogue)
    (hLoads : ∀ byte, FirstLoad ∅ final.events byte → restored byte.1 = byte.2)
    (hApart : ∀ event ∈ final.events, ∀ b, event.Involves b → restorer.mapped b ∧ ¬ keeps b)
    (hReady : Ready 0 s) (hRestored : ∀ b, ¬ overwritten 0 b → restorer.memory s b = restored b) :
    ∃ last, Runs program (ReplayStep code restorer) p s dialogue p' last ∧
      Ready final.calls.length last := by
  let related : List (Request × Reply) → World → State → Prop := fun later w s =>
    (Ready w.calls.length s ∧ Shadows overwritten restored w (restorer.memory s)) ∧
      (∀ turn ∈ later, turn.1.ToldRight sim) ∧
      FetchesClear final.calls restorer.mapped overwritten restored code later
  have hStep : ∀ {w u s request reply later}, RecordStep sim code w request reply u →
      Dialogue.Serves (RecordStep sim code) u later final →
      related ((request, reply) :: later) w s →
      ∃ next, ReplayStep code restorer s request reply next ∧ related later u next := by
    rintro w u s request reply later hStep hRest ⟨⟨hReady, hShadows⟩, hRight, hFetches⟩
    obtain ⟨hNow, hLater⟩ := List.forall_mem_cons.mp hRight
    obtain ⟨next, hReplayed, hNext⟩ :=
      h.step hLoads hApart hStep hNow hRest hReady hShadows hFetches
    exact ⟨next, hReplayed, hNext, hLater, hFetches.2⟩
  have hNone : ∀ b, ¬ (World.mk m []).Involves b := by simp [World.Involves]
  have hStart : related dialogue ⟨m, []⟩ s :=
    ⟨⟨hReady, fun b _ hIn => absurd hIn (hNone b), fun b hb _ => hRestored b hb⟩, hRight, hFetches⟩
  obtain ⟨last, hLast, ⟨hReady', -⟩, -⟩ := hRun.mirrored hStep hStart
  exact ⟨last, hLast, hReady'⟩

end Replaying

/-- The registers of the program behind a takeover that leaves it the result in `a0`. -/
theorem CallEffect.registers {effect : CallEffect} {pc : Nat} {regs own saved : Nat → Nat}
    (hA0 : saved 10 = if effect.hasret then effect.ret else (effect.call pc regs).params.getD 0 0)
    (hOthers : ∀ x, x ≠ 0 → x ≠ 10 → saved x = regs x) (hZero : own 0 = regs 0) :
    loadProgramIntRegs saved own = effect.results regs := by
  have hResult : effect.results regs 10 = saved 10 := by
    rw [hA0, CallEffect.results]
    split
    · rw [Function.update_self]
    · rfl
  have hKept : ∀ x, x ≠ 10 → effect.results regs x = regs x := by
    intro x hx
    rw [CallEffect.results]
    split
    · exact Function.update_of_ne hx ..
    · rfl
  funext x
  rw [loadProgramIntRegs, loadContext]
  by_cases hx : x = 10
  · rw [hx, hResult, if_neg (by decide)]
  · rw [hKept x hx]
    split
    · next h0 => rw [h0, hZero]
    · next h0 => exact hOthers x h0 hx

end RiscvCkpt
