import RiscvCkpt.Create.Interval

/-! The recording hooks in the memory accesses of the simulated CPU. Loads go
fragment by fragment over the cache lines they touch. -/
namespace RiscvCkpt

open ByteMemory

/-- One attempt to execute an access: whether it returns a fault, and the calls
of `ckpt_addload` that it makes. -/
structure Attempt where
  fault : Bool
  calls : List Event
  deriving DecidableEq, Repr

/-- What an access reads: the size of a cache line, which fragments fault in the
translation of their address, the memory of the program, and the host's own
memory, which holds the buffer for the result at `data`. -/
structure AccessEnv where
  line : Nat
  line_pos : 0 < line
  faults : Nat → Bool
  guest : Memory
  host : Memory
  data : Nat

/-- The same access over other contents of both memories. -/
def AccessEnv.withMemory (env : AccessEnv) (guest host : Memory) : AccessEnv :=
  { env with guest := guest, host := host }

/-- `frag_size` in `genMemFragmentRequest`; all bytes of a load are enabled. -/
def fragSize (line frag_addr size_left : Nat) : Nat := min (line - frag_addr % line) size_left

/-- The loop of `readMem`. It moves its own `data` pointer from fragment to
fragment. `none` is for running out of rounds. -/
def readLoop (env : AccessEnv) (addr size : Nat) : Nat → Nat → Nat → Nat → Memory → Option Attempt
  | 0, _, _, _, _ => none
  | rounds + 1, frag_addr, data, size_left, host =>
      let frag_size := fragSize env.line frag_addr size_left
      if env.faults frag_addr then some ⟨true, []⟩
      else
        let host := store host data (load env.guest frag_addr frag_size)
        if size_left - frag_size = 0 then some ⟨false, [.load addr size (load host data size)]⟩
        else readLoop env addr size rounds (frag_addr + frag_size) (data + frag_size)
          (size_left - frag_size) host

/-- `AtomicSimpleCPU::readMem` while a checkpoint is pending. -/
def readMem (env : AccessEnv) (addr size : Nat) : Option Attempt :=
  readLoop env addr size (size + 1) addr env.data size env.host

/-- `AtomicSimpleCPU::amoMem` while a checkpoint is pending; `none` for its panic. -/
def amoMem (env : AccessEnv) (addr size : Nat) : Option Attempt :=
  if (addr + size - 1) / env.line * env.line > addr then none
  else
    let fault := env.faults addr
    let host := if fault then env.host else store env.host env.data (load env.guest addr size)
    some ⟨fault, [.load addr size (load host env.data size)]⟩

inductive AccessKind where
  | load
  | amo
  deriving DecidableEq, Repr

/-- An attempt that faults calls no hook. One that completes calls it once, with
the bytes of the program's memory. -/
def Attempt.Faithful (guest : Memory) (addr size : Nat) (attempt : Attempt) : Prop :=
  attempt.calls = if attempt.fault then [] else [.load addr size (load guest addr size)]

def InLine (line addr size : Nat) : Prop := addr % line + size ≤ line

instance (line addr size : Nat) : Decidable (InLine line addr size) :=
  inferInstanceAs (Decidable (_ ≤ _))

/-- The places where the fragments of an access of the bytes up to `stop` begin. -/
def FragStart (line addr stop a : Nat) : Prop :=
  a = addr ∨ addr < a ∧ a < stop ∧ a % line = 0

/-- The attempt of this access is recorded as it should be. An AMO that panics
ends the simulation. -/
def AccessKind.HandsOver (env : AccessEnv) (addr size : Nat) : AccessKind → Prop
  | .load => ∃ attempt, readMem env addr size = some attempt ∧
      attempt.Faithful env.guest addr size
  | .amo => ∀ attempt, amoMem env addr size = some attempt →
      attempt.Faithful env.guest addr size

/-- What decides whether an attempt is recorded right, whatever the memories hold. -/
def AccessKind.Sound (env : AccessEnv) (addr size : Nat) : AccessKind → Prop
  | .load => InLine env.line addr size ∨
      ∃ a, FragStart env.line addr (addr + size) a ∧ env.faults a = true
  | .amo => InLine env.line addr size → env.faults addr = false

section Loops

variable {env : AccessEnv} {addr size : Nat}

theorem fragSize_pos {frag_addr size_left : Nat} (h : 0 < size_left) :
    0 < fragSize env.line frag_addr size_left := by
  have hLine := Nat.mod_lt frag_addr env.line_pos
  simp only [fragSize]
  omega

/-- The loop ends before its rounds do. -/
theorem readLoop_isSome {rounds frag_addr data size_left : Nat} {host : Memory}
    (hRounds : size_left < rounds) :
    (readLoop env addr size rounds frag_addr data size_left host).isSome := by
  induction rounds generalizing frag_addr data size_left host with
  | zero => exact absurd hRounds (Nat.not_lt_zero _)
  | succ rounds ih =>
      simp only [readLoop]
      split
      · rfl
      · split
        · rfl
        · next hLeft =>
            have hPos := @fragSize_pos env frag_addr size_left (by omega)
            exact ih (by omega)

/-- A load that stays in one line hands over what it has read. -/
theorem readMem_inLine (h : InLine env.line addr size) :
    readMem env addr size = some (if env.faults addr then ⟨true, []⟩
      else ⟨false, [.load addr size (load env.guest addr size)]⟩) := by
  have hFrag : fragSize env.line addr size = size := by
    simp only [fragSize, InLine] at *
    omega
  have hRead : load (store env.host env.data (load env.guest addr size)) env.data size =
      load env.guest addr size := by
    have hSelf := load_store_self env.host env.data (load env.guest addr size)
    rwa [load_length] at hSelf
  simp only [readMem, readLoop, hFrag, Nat.sub_self, if_true, hRead]
  split <;> rfl

/-- Behind the first fragment, a load hands over bytes from the place that the
moved pointer designates. -/
theorem readLoop_moved {rounds frag_addr data size_left : Nat} {host : Memory} {attempt : Attempt}
    (hPlace : frag_addr + size_left = addr + size) (hMoved : addr < frag_addr)
    (hLeft : 0 < size_left)
    (h : readLoop env addr size rounds frag_addr data size_left host = some attempt)
    (hDone : attempt.fault = false) :
    ∃ from' bytes, addr < from' ∧ attempt.calls = [.load addr size bytes] ∧
      bytes.head? = some (env.guest from') := by
  induction rounds generalizing frag_addr data size_left host with
  | zero => exact absurd h (by simp [readLoop])
  | succ rounds ih =>
      have hPos := @fragSize_pos env frag_addr size_left hLeft
      have hLe : fragSize env.line frag_addr size_left ≤ size_left := Nat.min_le_right _ _
      simp only [readLoop] at h
      split at h
      · obtain rfl := Option.some.inj h
        exact absurd hDone (by simp)
      · split at h
        · obtain rfl := Option.some.inj h
          refine ⟨frag_addr, _, hMoved, rfl, ?_⟩
          obtain ⟨rest, rfl⟩ : ∃ rest, size = rest + 1 := ⟨size - 1, by omega⟩
          rw [load, List.head?_map, List.head?_range]
          simp only [Nat.add_one_ne_zero, if_false, Option.map_some, Nat.add_zero]
          rw [store_inside (Nat.le_refl _) (by rw [load_length]; omega), Nat.sub_self,
            load_getD hPos, Nat.add_zero]
        · exact ih (by omega) (by omega) (by omega) h

/-- An attempt tells of no other load. -/
theorem readLoop_calls {rounds frag_addr data size_left : Nat} {host : Memory} {attempt : Attempt}
    (h : readLoop env addr size rounds frag_addr data size_left host = some attempt) {event : Event}
    (hEvent : event ∈ attempt.calls) : ∃ bytes, event = .load addr size bytes := by
  induction rounds generalizing frag_addr data size_left host with
  | zero => exact absurd h (by simp [readLoop])
  | succ rounds ih =>
      simp only [readLoop] at h
      split at h
      · obtain rfl := Option.some.inj h
        exact absurd hEvent List.not_mem_nil
      · split at h
        · obtain rfl := Option.some.inj h
          exact ⟨_, List.mem_singleton.mp hEvent⟩
        · exact ih h

/-- An attempt of an AMO tells the hooks of loads at its own address only. -/
theorem amoMem_calls {attempt : Attempt} (h : amoMem env addr size = some attempt) {event : Event}
    (hEvent : event ∈ attempt.calls) : ∃ bytes, event = .load addr size bytes := by
  simp only [amoMem, Option.ite_none_left_eq_some, Option.some.injEq] at h
  obtain ⟨-, rfl⟩ := h
  exact ⟨_, List.mem_singleton.mp hEvent⟩

/-- The end of the line of an address is the next line boundary. -/
theorem line_end {line : Nat} (h : 0 < line) (addr : Nat) :
    addr + (line - addr % line) = line * (addr / line + 1) := by
  have hLt := Nat.mod_lt addr h
  have hSplit := Nat.div_add_mod addr line
  rw [Nat.mul_add, Nat.mul_one]
  omega

/-- No line begins strictly between an address and the end of its line. -/
theorem line_end_le {line addr a : Nat} (h : 0 < line) (hLt : addr < a) (hStart : a % line = 0) :
    addr + (line - addr % line) ≤ a := by
  have hEnd := line_end h addr
  obtain ⟨k, rfl⟩ := Nat.dvd_of_mod_eq_zero hStart
  have hDiv : addr / line < k := Nat.div_lt_of_lt_mul hLt
  rw [hEnd]
  exact Nat.mul_le_mul_left line hDiv

/-- A round of the loop ends the access, or goes on at the next line. -/
theorem fragStart_round {frag_addr size_left a : Nat} :
    FragStart env.line frag_addr (frag_addr + size_left) a ↔
      a = frag_addr ∨ size_left - fragSize env.line frag_addr size_left ≠ 0 ∧
        FragStart env.line (frag_addr + fragSize env.line frag_addr size_left)
          (frag_addr + size_left) a := by
  have hLine := Nat.mod_lt frag_addr env.line_pos
  have hEnd := line_end env.line_pos frag_addr
  have hBoundary : (frag_addr + (env.line - frag_addr % env.line)) % env.line = 0 := by
    rw [hEnd]
    exact Nat.mul_mod_right _ _
  rcases Nat.lt_or_ge (env.line - frag_addr % env.line) size_left with hMore | hLast
  · have hFrag : fragSize env.line frag_addr size_left = env.line - frag_addr % env.line :=
      Nat.min_eq_left (Nat.le_of_lt hMore)
    rw [hFrag]
    constructor
    · rintro (rfl | ⟨hLow, hHigh, hStart⟩)
      · exact Or.inl rfl
      · have hNext := line_end_le env.line_pos hLow hStart
        refine Or.inr ⟨by omega, ?_⟩
        rcases Nat.eq_or_lt_of_le hNext with hEq | hLt
        · exact Or.inl hEq.symm
        · exact Or.inr ⟨hLt, hHigh, hStart⟩
    · rintro (rfl | ⟨-, rfl | ⟨hLow, hHigh, hStart⟩⟩)
      · exact Or.inl rfl
      · exact Or.inr ⟨by omega, by omega, hBoundary⟩
      · exact Or.inr ⟨by omega, hHigh, hStart⟩
  · have hFrag : fragSize env.line frag_addr size_left = size_left := Nat.min_eq_right hLast
    rw [hFrag]
    constructor
    · rintro (rfl | ⟨hLow, hHigh, hStart⟩)
      · exact Or.inl rfl
      · have hNext := line_end_le env.line_pos hLow hStart
        omega
    · rintro (rfl | ⟨hNo, -⟩)
      · exact Or.inl rfl
      · omega

/-- The loop returns a fault exactly if a fragment faults, and then without a call. -/
theorem readLoop_fault {rounds frag_addr data size_left : Nat} {host : Memory} {attempt : Attempt}
    (hLeft : 0 < size_left)
    (h : readLoop env addr size rounds frag_addr data size_left host = some attempt) :
    (attempt.fault = true ↔
      ∃ a, FragStart env.line frag_addr (frag_addr + size_left) a ∧ env.faults a = true) ∧
    (attempt.fault = true → attempt.calls = []) := by
  induction rounds generalizing frag_addr data size_left host with
  | zero => exact absurd h (by simp [readLoop])
  | succ rounds ih =>
      simp only [readLoop] at h
      split at h
      · next hFault =>
          obtain rfl := Option.some.inj h
          exact ⟨iff_of_true rfl ⟨frag_addr, Or.inl rfl, hFault⟩, fun _ => rfl⟩
      · next hFault =>
          simp only [fragStart_round]
          split at h
          · next hZero =>
              obtain rfl := Option.some.inj h
              refine ⟨iff_of_false (by simp) ?_, fun hNo => absurd hNo (by simp)⟩
              rintro ⟨a, rfl | ⟨hNo, -⟩, hA⟩
              · exact hFault hA
              · exact hNo hZero
          · next hMore =>
              have hLe : fragSize env.line frag_addr size_left ≤ size_left := Nat.min_le_right _ _
              have hRest := ih (by omega) h
              rw [show frag_addr + fragSize env.line frag_addr size_left +
                (size_left - fragSize env.line frag_addr size_left) = frag_addr + size_left
                by omega] at hRest
              refine ⟨hRest.1.trans ⟨?_, ?_⟩, hRest.2⟩
              · rintro ⟨a, hStart, hA⟩
                exact ⟨a, Or.inr ⟨hMore, hStart⟩, hA⟩
              · rintro ⟨a, rfl | ⟨-, hStart⟩, hA⟩
                · exact absurd hA hFault
                · exact ⟨a, hStart, hA⟩

/-- A load over several lines that completes hands over bytes from behind its
first line. -/
theorem readMem_crossing {attempt : Attempt} (hCross : ¬ InLine env.line addr size)
    (h : readMem env addr size = some attempt) (hDone : attempt.fault = false) :
    ∃ from' bytes, addr < from' ∧ attempt.calls = [.load addr size bytes] ∧
      bytes.head? = some (env.guest from') := by
  have hLine := Nat.mod_lt addr env.line_pos
  have hFrag : fragSize env.line addr size = env.line - addr % env.line := by
    simp only [fragSize, InLine] at *
    omega
  simp only [InLine] at hCross
  rw [readMem, readLoop] at h
  simp only [hFrag] at h
  split at h
  · obtain rfl := Option.some.inj h
    exact absurd hDone (by simp)
  · rw [if_neg (by omega)] at h
    exact readLoop_moved (by omega) (by omega) (by omega) h hDone

/-- The panic of `amoMem` is for accesses over several lines. -/
theorem amoMem_panics_iff (hSize : 0 < size) :
    (addr + size - 1) / env.line * env.line > addr ↔ ¬ InLine env.line addr size := by
  have hLine := Nat.mod_lt addr env.line_pos
  have hEnd := line_end env.line_pos addr
  rw [Nat.mul_comm] at hEnd
  constructor
  · intro hPanic hIn
    simp only [InLine] at hIn
    have hSame : (addr + size - 1) / env.line < addr / env.line + 1 := by
      rw [Nat.div_lt_iff_lt_mul env.line_pos]
      omega
    have hLe := Nat.mul_le_mul_right env.line (Nat.lt_succ_iff.mp hSame)
    have hDown := Nat.div_mul_le_self addr env.line
    omega
  · intro hCross
    simp only [InLine] at hCross
    have hNext : addr / env.line + 1 ≤ (addr + size - 1) / env.line := by
      rw [Nat.le_div_iff_mul_le env.line_pos]
      omega
    have hLe := Nat.mul_le_mul_right env.line hNext
    omega

/-- An AMO in one line is told once: with what the memory holds, or the packet if it faults. -/
theorem amoMem_inLine (hSize : 0 < size) (h : InLine env.line addr size) :
    amoMem env addr size = some ⟨env.faults addr, [.load addr size
      (if env.faults addr then load env.host env.data size else load env.guest addr size)]⟩ := by
  have hRead : load (store env.host env.data (load env.guest addr size)) env.data size =
      load env.guest addr size := by
    have hSelf := load_store_self env.host env.data (load env.guest addr size)
    rwa [load_length] at hSelf
  rw [amoMem, if_neg (fun hPanic => (amoMem_panics_iff hSize).mp hPanic h)]
  cases env.faults addr
  · simp [hRead]
  · simp

end Loops

/-- A load is recorded right for all memory contents if and only if it stays in
one cache line or returns a fault, and an AMO if and only if it returns none. -/
theorem handsOver_iff (env : AccessEnv) (kind : AccessKind) (addr size : Nat) (hSize : 0 < size) :
    (∀ guest host, kind.HandsOver (env.withMemory guest host) addr size) ↔
      kind.Sound env addr size := by
  cases kind with
  | load =>
      constructor
      · intro h
        by_contra hNot
        simp only [AccessKind.Sound, not_or] at hNot
        -- a memory whose only byte that is not zero is the first one that is read
        let guest : Memory := fun a => if a = addr then 1 else 0
        obtain ⟨attempt, hRead, hFaithful⟩ := h guest zero
        have hDone : attempt.fault = false :=
          Bool.eq_false_iff.mpr fun hFault => hNot.2 ((readLoop_fault hSize hRead).1.mp hFault)
        obtain ⟨from', bytes, hMoved, hCalls, hHead⟩ :=
          @readMem_crossing (env.withMemory guest zero) addr size attempt hNot.1 hRead hDone
        rw [Attempt.Faithful, hCalls, hDone] at hFaithful
        simp only [Bool.false_eq_true, if_false, List.cons.injEq, Event.load.injEq, true_and,
          and_true] at hFaithful
        obtain ⟨rest, rfl⟩ : ∃ rest, size = rest + 1 := ⟨size - 1, by omega⟩
        rw [hFaithful, load, List.head?_map, List.head?_range] at hHead
        simp [AccessEnv.withMemory, guest, Nat.ne_of_gt hMoved] at hHead
      · intro hSound guest host
        by_cases hIn : InLine env.line addr size
        · refine ⟨_, @readMem_inLine (env.withMemory guest host) addr size hIn, ?_⟩
          rw [Attempt.Faithful]
          split <;> rfl
        · obtain ⟨attempt, hRead⟩ := Option.isSome_iff_exists.mp
            (@readLoop_isSome (env.withMemory guest host) addr size (size + 1) addr
              env.data size host (Nat.lt_succ_self size))
          obtain ⟨hFault, hQuiet⟩ := readLoop_fault hSize hRead
          have hIs := hFault.mpr (hSound.resolve_left hIn)
          refine ⟨attempt, hRead, ?_⟩
          rw [Attempt.Faithful, hQuiet hIs, hIs, if_pos rfl]
  | amo =>
      by_cases hIn : InLine env.line addr size
      · constructor
        · intro h _
          have hFaithful := h zero zero _
            (@amoMem_inLine (env.withMemory zero zero) addr size hSize hIn)
          cases hFault : env.faults addr with
          | false => rfl
          | true => simp [Attempt.Faithful, AccessEnv.withMemory, hFault] at hFaithful
        · intro hSound guest host attempt hAttempt
          rw [@amoMem_inLine (env.withMemory guest host) addr size hSize hIn] at hAttempt
          obtain rfl := Option.some.inj hAttempt
          simp [Attempt.Faithful, AccessEnv.withMemory, hSound hIn]
      · refine iff_of_true ?_ fun h => absurd h hIn
        intro guest host attempt hAttempt
        rw [amoMem, if_pos ((@amoMem_panics_iff (env.withMemory guest host) addr size
          hSize).mpr hIn)] at hAttempt
        exact absurd hAttempt (by simp)

/-- The simulator as the loads of a run see it: the size of a cache line, the host's own memory
in each step, with the buffer for the result, and whether an address meets a page fault first. -/
structure Simulator where
  line : Nat
  line_pos : 0 < line
  host : Nat → Memory
  data : Nat → Nat
  faults : Nat → Nat → Bool

namespace Simulator

variable (sim : Simulator) (n : Nat) (guest : Memory) (addr size : Nat)

def env (faults : Bool) : AccessEnv :=
  ⟨sim.line, sim.line_pos, fun _ => faults, guest, sim.host n, sim.data n⟩

/-- What the recorder is told of a load in the `n`-th step. An attempt that meets a page fault
is made again and tells it nothing, so the pages of the load are there. -/
def loadCalls : List Event :=
  ((readMem (sim.env n guest false) addr size).map Attempt.calls).getD []

/-- What it is told of an AMO in the `n`-th step, of the attempt with a page fault too; `none`
for its panic. -/
def amoCalls : Option (List Event) :=
  (amoMem (sim.env n guest false) addr size).map fun last =>
    (if sim.faults n addr then ((amoMem (sim.env n guest true) addr size).map Attempt.calls).getD []
      else []) ++ last.calls

variable {sim n guest addr size}

/-- A load in one line is told once, with what it returns. -/
theorem loadCalls_inLine (h : InLine sim.line addr size) (n : Nat) (guest : Memory) :
    sim.loadCalls n guest addr size = [.load addr size (load guest addr size)] := by
  rw [loadCalls, @readMem_inLine (sim.env n guest false) addr size h]
  rfl

/-- Whatever it is told of a load, it is told of one at that address. -/
theorem mem_loadCalls {event : Event} (h : event ∈ sim.loadCalls n guest addr size) :
    ∃ bytes, event = .load addr size bytes := by
  cases hRead : readMem (sim.env n guest false) addr size with
  | none =>
      rw [loadCalls, hRead] at h
      exact absurd h List.not_mem_nil
  | some attempt =>
      rw [loadCalls, hRead] at h
      exact readLoop_calls hRead h

theorem mem_amoCalls {told : List Event} {event : Event}
    (hTold : sim.amoCalls n guest addr size = some told) (h : event ∈ told) :
    ∃ bytes, event = .load addr size bytes := by
  simp only [amoCalls, Option.map_eq_some_iff] at hTold
  obtain ⟨last, hLast, rfl⟩ := hTold
  rcases List.mem_append.mp h with hFirst | hLater
  · split at hFirst
    · cases hAttempt : amoMem (sim.env n guest true) addr size with
      | none =>
          rw [hAttempt] at hFirst
          exact absurd hFirst List.not_mem_nil
      | some attempt =>
          rw [hAttempt] at hFirst
          exact amoMem_calls hAttempt hFirst
    · exact absurd hFirst List.not_mem_nil
  · exact amoMem_calls hLast hLater

/-- An AMO whose page is there is told as the load that it makes. -/
theorem amoCalls_present {told : List Event} (hTold : sim.amoCalls n guest addr size = some told)
    (hPage : sim.faults n addr = false) : told = [.load addr size (load guest addr size)] := by
  simp only [amoCalls, Option.map_eq_some_iff, hPage, Bool.false_eq_true, if_false,
    List.nil_append] at hTold
  obtain ⟨last, hLast, rfl⟩ := hTold
  have hRead : load (store (sim.host n) (sim.data n) (load guest addr size)) (sim.data n) size =
      load guest addr size := by
    have hSelf := load_store_self (sim.host n) (sim.data n) (load guest addr size)
    rwa [load_length] at hSelf
  simp only [amoMem, env, Option.ite_none_left_eq_some, Option.some.injEq, Bool.false_eq_true,
    if_false, hRead] at hLast
  rw [← hLast.2]

end Simulator

/-- A machine with lines of 64 bytes and one page that is not mapped yet. Every
byte of the program's memory holds its own address. -/
def sampleAccess (unmapped : Nat) : AccessEnv where
  line := 64
  line_pos := by decide
  faults := fun a => a / 4096 = unmapped
  guest := fun a => UInt8.ofNat a
  host := zero
  data := 0

theorem handsOver_iff_word :
    AccessKind.Sound (sampleAccess 1) 60 4 .load ∧
    ∀ guest host, AccessKind.HandsOver ((sampleAccess 1).withMemory guest host) 60 4 .load := by
  have hSound : AccessKind.Sound (sampleAccess 1) 60 4 .load := Or.inl (by decide)
  exact ⟨hSound, (handsOver_iff (sampleAccess 1) .load 60 4 (by decide)).mpr hSound⟩

/-- A doubleword over a line boundary is handed over from its second line on, with
bytes from behind the buffer; an AMO hands over its buffer before the page exists. -/
theorem handsOver_fails :
    readMem (sampleAccess 1) 60 8 = some ⟨false, [.load 60 8 [64, 65, 66, 67, 0, 0, 0, 0]]⟩ ∧
    load (sampleAccess 1).guest 60 8 = [60, 61, 62, 63, 64, 65, 66, 67] ∧
    ¬ AccessKind.HandsOver (sampleAccess 1) 60 8 .load ∧
    amoMem (sampleAccess 1) 4104 8 = some ⟨true, [.load 4104 8 [0, 0, 0, 0, 0, 0, 0, 0]]⟩ ∧
    ¬ AccessKind.HandsOver (sampleAccess 1) 4104 8 .amo := by
  have hRead : readMem (sampleAccess 1) 60 8 =
      some ⟨false, [.load 60 8 [64, 65, 66, 67, 0, 0, 0, 0]]⟩ := by decide +kernel
  have hAmo : amoMem (sampleAccess 1) 4104 8 =
      some ⟨true, [.load 4104 8 [0, 0, 0, 0, 0, 0, 0, 0]]⟩ := by decide +kernel
  refine ⟨hRead, by decide +kernel, ?_, hAmo, ?_⟩
  · rintro ⟨attempt, hAttempt, hFaithful⟩
    rw [hRead] at hAttempt
    obtain rfl := Option.some.inj hAttempt
    exact absurd hFaithful (by simp only [Attempt.Faithful]; decide +kernel)
  · intro h
    exact absurd (h _ hAmo) (by simp [Attempt.Faithful])

end RiscvCkpt
