import RiscvCkpt.Cpu.DecodeCache
import RiscvCkpt.Cpu.Tick

/-! How wide the exit instruction is. `tick` asks the instruction object for
`isCompressed`, but `Decoder::decode` sets this field only where
`Support_ReadCkpt_TempRegs` is not defined, and the creating simulator defines it.
No constructor sets it either, so `tick` sees what the memory of the object held. -/
namespace RiscvCkpt

open ByteCodec ByteMemory

/-- What the fields `isCompressed` hold in an instruction object and in the objects of
its micro-ops. -/
structure CompressedFlags where
  object : Bool
  microop : Nat → Bool

/-- The field of the object itself, or of the one that `fetchMicroop(upc)` returns. -/
def CompressedFlags.read (flags : CompressedFlags) : Option Nat → Bool
  | none => flags.object
  | some upc => flags.microop upc

/-- The generated decoder in a memory that is not cleared: a new object for a word is
left with the flags that stand there. -/
def IsaDecoder.inMemory {Op : Type} (isa : IsaDecoder Op) (flags : Nat → CompressedFlags) :
    IsaDecoder (Op × CompressedFlags) where
  decodeInst word :=
    { operation := ((isa.decodeInst word).operation, flags word)
      srcRegIdx := (isa.decodeInst word).srcRegIdx
      destRegIdx := (isa.decodeInst word).destRegIdx }
  add := (isa.add, flags taddinst)
  jalr := (isa.jalr, flags tjalrinst)
  zeroReg := isa.zeroReg
  decodeInst_add := by rw [isa.decodeInst_add]
  decodeInst_jalr := by rw [isa.decodeInst_jalr]

/-- The words that `decoder.isa` decodes to `ecall`. -/
def isEcall (word : Nat) : Bool :=
  word % 128 = 0x73 ∧ word / 2 ^ 12 % 8 = 0 ∧ word / 2 ^ 25 % 128 = 0 ∧ word / 2 ^ 20 % 32 = 0

/-- The generated decoder with what `tick` asks of an object besides `isCompressed`. Only
words of four bytes are micro-coded. -/
structure ExecIsa (Op : Type) extends IsaDecoder Op where
  isSyscall : Op → Bool
  microops : Nat → Nat
  isSyscall_decodeInst : ∀ word, isSyscall (decodeInst word).operation = isEcall word
  microops_compressed : ∀ word, compressed word = true → microops word = 0

/-- An instruction that the simulator fetches: its word, and the ticks that execute it,
each with the micro-op that it executes. -/
structure Fetch where
  pc : Nat
  word : Nat
  parts : List (Option Nat × Tick)

def Fetch.size (fetch : Fetch) : Nat := if compressed fetch.word then 2 else 4

/-- The tick of a part, with what it sees of the object. -/
def Fetch.tick (fetch : Fetch) (isSyscall : Bool) (flags : CompressedFlags)
    (part : Option Nat × Tick) :
    Tick :=
  { part.2 with pc := fetch.pc, isSyscall := isSyscall, isCompressed := flags.read part.1 }

/-- A micro-coded instruction is executed by its micro-ops, any other one by itself. -/
def Fetch.Executes {Op : Type} (isa : ExecIsa Op) (fetch : Fetch) : Prop :=
  ∀ part ∈ fetch.parts, match part.1 with
    | none => isa.microops fetch.word = 0
    | some upc => upc < isa.microops fetch.word

/-- The simulator with its decoder: the cache, and the number of calls of `decode`. -/
structure FetchState (Op : Type) where
  cpu : Cpu := {}
  instMap : Nat → Option (StaticInst (Op × CompressedFlags)) := fun _ => none
  calls : Nat := 0

section Fetching

variable {Op : Type} (isa : ExecIsa Op) (memory : Nat → Nat → CompressedFlags)
  (settings : CkptSettings)

/-- One call of `decode`. `memory n` is what a new object of the `n`-th call is left with. -/
def FetchState.decode (state : FetchState Op) (fetch : Fetch) :
    StaticInst (Op × CompressedFlags) × (Nat → Option (StaticInst (Op × CompressedFlags))) :=
  (isa.inMemory (memory state.calls)).decode .create state.instMap fetch.word

/-- The ticks that follow, with what they see of the object that it returns. -/
def FetchState.ticks (state : FetchState Op) (fetch : Fetch) : List Tick :=
  let object := (state.decode isa memory fetch).1.operation
  fetch.parts.map (fetch.tick (isa.isSyscall object.1) object.2)

def FetchState.step (state : FetchState Op) (fetch : Fetch) : FetchState Op where
  cpu := RiscvCkpt.ticks settings state.cpu (state.ticks isa memory fetch)
  instMap := (state.decode isa memory fetch).2
  calls := state.calls + 1

def fetchRun (run : List Fetch) : FetchState Op :=
  run.foldl (FetchState.step isa memory settings) {}

def Examines (run : List Fetch) (fetch : Fetch) (t : Tick) : Prop :=
  ∃ before after, run = before ++ fetch :: after ∧
    t ∈ (fetchRun isa memory settings before).ticks isa memory fetch

/-- The checkpoint is saved while the instruction is executed. -/
def SavedAt (run : List Fetch) (info : CkptInfo) (fetch : Fetch) : Prop :=
  ∃ before after, run = before ++ fetch :: after ∧
    info ∈ (fetchRun isa memory settings (before ++ [fetch])).cpu.saved.drop
      (fetchRun isa memory settings before).cpu.saved.length

end Fetching

/-- The checkpoint ends at an instruction of four bytes other than `ecall`, and a jump
that is stored there overwrites this instruction and nothing else. -/
structure ExitFits (info : CkptInfo) (fetch : Fetch) : Prop where
  pc : info.exit_pc = fetch.pc
  wide : compressed fetch.word = false
  notEcall : isEcall fetch.word = false
  overwrites : ∀ jump, Writes (fun m => storeInst m info.exit_pc jump)
    fun b => fetch.pc ≤ b ∧ b < fetch.pc + fetch.size

section Saving

variable {settings : CkptSettings} {cpu : Cpu}

theorem hookAll_saved (stack : Nat → Nat → UInt8) (events : List Event) :
    (cpu.hookAll stack events).saved = cpu.saved := rfl

theorem countInst_saved (t : Tick) : (cpu.countInst t).saved = cpu.saved := by
  simp only [Cpu.countInst]
  split <;> rfl

theorem noteBench_saved (settings : CkptSettings) (t : Tick) :
    (cpu.noteBench settings t).saved = cpu.saved := (noteBench_fields settings cpu t).2.1

theorem startCkpt_saved (ctrls : List CkptCtrl) (n : Nat) (t : Tick) :
    (cpu.startCkpt ctrls n t).saved = cpu.saved := by
  simp only [Cpu.startCkpt]
  split <;> rfl

/-- What a tick saves ends at its own pc, and the tick has asked the object. -/
def SavesAt (t : Tick) (old new : List CkptInfo) : Prop :=
  ∃ closed, new = old ++ closed ∧
    ∀ info ∈ closed, info.exit_pc = t.pc ∧ t.isCompressed = false ∧ t.isSyscall = false

theorem SavesAt.none {t : Tick} (old : List CkptInfo) : SavesAt t old old :=
  ⟨[], (List.append_nil old).symm, fun _ h => absurd h List.not_mem_nil⟩

theorem SavesAt.ite {t : Tick} {old : List CkptInfo} {c : Prop} [Decidable c] {x y : Cpu}
    (hx : SavesAt t old x.saved) (hy : SavesAt t old y.saved) :
    SavesAt t old (if c then x else y).saved := by
  split
  · exact hx
  · exact hy

/-- The end test saves checkpoints that end at the pc of the tick. -/
theorem endCkpt_saved (hStrict : settings.strictLength = false) (n : Nat) (t : Tick) :
    SavesAt t cpu.saved (cpu.endCkpt settings n t).saved := by
  have hNote : (cpu.endCkpt settings n t).saved =
      (if cpu.firstOver n then
        if !t.isCompressed && !t.isSyscall && t.pc ∉ cpu.preinsts then
          cpu.ckptDetectOver settings.ctrls (t.stack 0) n t.pc
        else cpu
      else cpu).saved := by
    simp only [Cpu.endCkpt, hStrict, Bool.false_eq_true, if_false]
    split <;> rfl
  rw [hNote]
  split
  · split
    · next hExit =>
        simp only [Bool.and_eq_true, Bool.not_eq_true'] at hExit
        refine ⟨_, rfl, fun info hInfo => ⟨?_, hExit.1.1, hExit.1.2⟩⟩
        obtain ⟨pending, -, hOver⟩ := List.mem_filterMap.mp hInfo
        simp only [CkptInfo.detectOver] at hOver
        split at hOver
        · obtain rfl := Option.some.inj hOver
          rfl
        · exact absurd hOver (Option.some_ne_none info).symm
    · exact SavesAt.none _
  · exact SavesAt.none _

/-- Whatever a tick saves ends at its own pc. -/
theorem tick_savesAt (hStrict : settings.strictLength = false) (t : Tick) :
    SavesAt t cpu.saved (tick settings cpu t).saved := by
  have hEnd : ∀ {started : Cpu} {n : Nat}, started.saved = cpu.saved →
      SavesAt t cpu.saved (started.endCkpt settings n t).saved := fun hStarted =>
    hStarted ▸ endCkpt_saved hStrict _ t
  have hSame : ∀ {c : Cpu}, c.saved = cpu.saved → SavesAt t cpu.saved c.saved := fun h =>
    h ▸ SavesAt.none _
  simp only [tick]
  apply SavesAt.ite (SavesAt.none _)
  apply SavesAt.ite
  · apply hSame
    simp only [apply_ite Cpu.saved, hookAll_saved, ite_self]
  · apply SavesAt.ite
    · apply hEnd
      simp only [apply_ite Cpu.saved, startCkpt_saved, hookAll_saved, noteBench_saved,
        countInst_saved, ite_self]
    · apply hSame
      simp only [apply_ite Cpu.saved, startCkpt_saved, hookAll_saved, noteBench_saved,
        countInst_saved, ite_self]

/-- What a run of ticks saves, it saves in one of them. -/
theorem ticks_savesAt (hStrict : settings.strictLength = false) (ts : List Tick) :
    ∃ closed, (ticks settings cpu ts).saved = cpu.saved ++ closed ∧
      ∀ info ∈ closed, ∃ t ∈ ts, info.exit_pc = t.pc ∧ t.isCompressed = false ∧
      t.isSyscall = false := by
  induction ts generalizing cpu with
  | nil => exact ⟨[], (List.append_nil _).symm, fun _ h => absurd h List.not_mem_nil⟩
  | cons t rest ih =>
      obtain ⟨first, hFirst, hAt⟩ := @tick_savesAt settings cpu hStrict t
      obtain ⟨later, hLater, hIn⟩ := @ih (tick settings cpu t)
      refine ⟨first ++ later, ?_, ?_⟩
      · rw [← List.append_assoc, ← hFirst]
        exact hLater
      · intro info hInfo
        rcases List.mem_append.mp hInfo with hHere | hThere
        · exact ⟨t, List.mem_cons_self .., hAt info hHere⟩
        · obtain ⟨s, hs, hExit⟩ := hIn info hThere
          exact ⟨s, List.mem_cons_of_mem _ hs, hExit⟩

end Saving

section Objects

variable {Op : Type} {isa : ExecIsa Op} {memory : Nat → Nat → CompressedFlags}
  {instMap : Nat → Option (StaticInst (Op × CompressedFlags))}

/-- The word under which `decode` keeps the object of a word. -/
def cacheKey (word : Nat) : Nat :=
  match tempInstCreate word with
  | none => word
  | some temp => temp.standin

/-- An object of the word from one of the first calls, with flags that nobody has set. -/
def ObjectOf (isa : ExecIsa Op) (memory : Nat → Nat → CompressedFlags) (calls word : Nat)
    (si : StaticInst (Op × CompressedFlags)) : Prop :=
  si.operation.1 = (isa.decodeInst word).operation ∧
    ∃ n, n < calls ∧ si.operation.2 = memory n word

theorem ObjectOf.later {calls word : Nat} {si : StaticInst (Op × CompressedFlags)}
    (h : ObjectOf isa memory calls word si) : ObjectOf isa memory (calls + 1) word si := by
  obtain ⟨hOperation, n, hn, hFlags⟩ := h
  exact ⟨hOperation, n, Nat.lt_succ_of_lt hn, hFlags⟩

theorem setRegs_operation {Op : Type} (temp : TempInst) (si : StaticInst Op) :
    (temp.setRegs si).operation = si.operation := by
  cases temp <;> rfl

/-- One call of `decode` returns an object of the word's key, and keeps it there. -/
theorem decode_objectOf {n : Nat}
    (hCache : ∀ key si, instMap key = some si → ObjectOf isa memory n key si) (word : Nat) :
    ObjectOf isa memory (n + 1) (cacheKey word)
      ((isa.inMemory (memory n)).decode .create instMap word).1 ∧
    ∀ key si, ((isa.inMemory (memory n)).decode .create instMap word).2 key = some si →
      ObjectOf isa memory (n + 1) key si := by
  have hNew : ∀ key, ObjectOf isa memory (n + 1) key ((isa.inMemory (memory n)).decodeInst key) :=
    fun key => ⟨rfl, n, Nat.lt_succ_self n, rfl⟩
  have hUpdate : ∀ {key si}, ObjectOf isa memory (n + 1) key si → ∀ other object,
      Function.update instMap key (some si) other = some object →
        ObjectOf isa memory (n + 1) other object := by
    intro key si hObject other object hSlot
    rw [Function.update_apply] at hSlot
    split at hSlot
    · next hSame =>
        obtain rfl := Option.some.inj hSlot
        rwa [hSame]
    · exact (hCache other object hSlot).later
  cases hTemp : tempInstCreate word with
  | none =>
      have hObject : ObjectOf isa memory (n + 1) word
          ((instMap word).getD ((isa.inMemory (memory n)).decodeInst word)) := by
        cases hSlot : instMap word with
        | none => exact hNew word
        | some si => exact (hCache word si hSlot).later
      simp only [IsaDecoder.decode, DecoderCopy.tempInst, cacheKey, hTemp]
      exact ⟨hObject, hUpdate hObject⟩
  | some temp =>
      have hObject : ObjectOf isa memory (n + 1) temp.standin
          (temp.setRegs ((isa.inMemory (memory n)).decodeInst temp.standin)) := by
        rw [ObjectOf, setRegs_operation]
        exact hNew temp.standin
      simp only [IsaDecoder.decode, DecoderCopy.tempInst, cacheKey, hTemp]
      exact ⟨hObject, hUpdate hObject⟩

theorem fetchRun_snoc (settings : CkptSettings) (run : List Fetch) (fetch : Fetch) :
    fetchRun isa memory settings (run ++ [fetch]) =
      (fetchRun isa memory settings run).step isa memory settings fetch := by
  rw [fetchRun, List.foldl_append]
  rfl

theorem fetchRun_calls (settings : CkptSettings) (run : List Fetch) :
    (fetchRun isa memory settings run).calls = run.length := by
  induction run using List.reverseRecOn with
  | nil => rfl
  | append_singleton before fetch ih =>
      rw [fetchRun_snoc, List.length_append]
      exact congrArg (· + 1) ih

/-- Every object that a run leaves in the cache. -/
theorem fetchRun_objects (settings : CkptSettings) (run : List Fetch) :
    ∀ key si, (fetchRun isa memory settings run).instMap key = some si →
      ObjectOf isa memory (fetchRun isa memory settings run).calls key si := by
  induction run using List.reverseRecOn with
  | nil => exact fun _ _ h => absurd h (Option.some_ne_none _).symm
  | append_singleton before fetch ih =>
      rw [fetchRun_snoc]
      exact (decode_objectOf ih fetch.word).2

/-- The object of an instruction of the run has been created by one of its calls. -/
theorem decode_object (settings : CkptSettings) (before after : List Fetch) (fetch : Fetch) :
    ObjectOf isa memory (before ++ fetch :: after).length (cacheKey fetch.word)
      ((fetchRun isa memory settings before).decode isa memory fetch).1 := by
  obtain ⟨hOperation, n, hn, hFlags⟩ :=
    (decode_objectOf (@fetchRun_objects Op isa memory settings before) fetch.word).1
  refine ⟨hOperation, n, ?_, hFlags⟩
  rw [fetchRun_calls] at hn
  rw [List.length_append, List.length_cons]
  omega

end Objects

section Exits

variable {Op : Type} {isa : ExecIsa Op} {memory : Nat → Nat → CompressedFlags}
  {settings : CkptSettings}

/-- A compressed word is no access to a temporary register. -/
theorem tempInstCreate_compressed {word : Nat} (h : compressed word = true) :
    tempInstCreate word = none := by
  rw [tempInstCreate, if_pos h]

theorem cacheKey_compressed {word : Nat} (h : compressed word = true) : cacheKey word = word := by
  rw [cacheKey, tempInstCreate_compressed h]

theorem not_isEcall_of_compressed {word : Nat} (h : compressed word = true) :
    isEcall word = false := by
  simp only [compressed, decide_eq_true_eq] at h
  simp only [isEcall, decide_eq_false_iff_not]
  omega

/-- An access to a temporary register is an `addi`. -/
theorem cacheKey_ecall {word : Nat} (h : isEcall word = true) : cacheKey word = word := by
  simp only [isEcall, decide_eq_true_eq] at h
  have hOpcode : ¬ word % 128 = 0x13 := by omega
  rw [cacheKey, tempInstCreate]
  split
  · rfl
  · next temp hTemp => simp [hOpcode] at hTemp

/-- Every checkpoint is saved while some instruction is executed. -/
theorem savedAt_of_saved (hStrict : settings.strictLength = false) (run : List Fetch) :
    ∀ info ∈ (fetchRun isa memory settings run).cpu.saved,
      ∃ fetch, SavedAt isa memory settings run info fetch := by
  induction run using List.reverseRecOn with
  | nil => exact fun _ h => absurd h List.not_mem_nil
  | append_singleton before last ih =>
      intro info hInfo
      by_cases hOld : info ∈ (fetchRun isa memory settings before).cpu.saved
      · obtain ⟨fetch, first, after, rfl, hHere⟩ := ih info hOld
        exact ⟨fetch, first, after ++ [last], by simp, hHere⟩
      · refine ⟨last, before, [], rfl, ?_⟩
        rw [fetchRun_snoc] at hInfo ⊢
        obtain ⟨closed, hClosed, -⟩ := @ticks_savesAt settings
          (fetchRun isa memory settings before).cpu hStrict _
        rw [FetchState.step] at hInfo ⊢
        rw [hClosed] at hInfo ⊢
        rw [List.drop_left]
        exact (List.mem_append.mp hInfo).resolve_left hOld

/-- The memory of every object that the run may create for a compressed word held `true`. -/
def NarrowMarked (memory : Nat → Nat → CompressedFlags) (run : List Fetch) : Prop :=
  ∀ fetch ∈ run, compressed fetch.word = true →
    ∀ n < run.length, (memory n fetch.word).object = true

/-- The memory of every object that the run may create and execute held the width of the word. -/
def AllMarked (memory : Nat → Nat → CompressedFlags) (run : List Fetch) : Prop :=
  ∀ fetch ∈ run, ∀ part ∈ fetch.parts, ∀ n < run.length,
    (memory n (cacheKey fetch.word)).read part.1 = compressed fetch.word

/-- The exit of a saved checkpoint fits if the objects of compressed words happen to be marked. -/
theorem exitFits_of_savedAt (hStrict : settings.strictLength = false) {run : List Fetch}
    (hRun : ∀ fetch ∈ run, fetch.Executes isa) (hMemory : NarrowMarked memory run)
    {info : CkptInfo} {fetch : Fetch} (hSaved : SavedAt isa memory settings run info fetch) :
    ExitFits info fetch := by
  obtain ⟨before, after, rfl, hInfo⟩ := hSaved
  have hMem : fetch ∈ before ++ fetch :: after := by simp
  have hObject := @decode_object Op isa memory settings before after fetch
  rw [fetchRun_snoc] at hInfo
  simp only [FetchState.step, FetchState.ticks] at hInfo
  generalize (fetchRun isa memory settings before).decode isa memory fetch =
    decoded at hInfo hObject
  obtain ⟨closed, hClosed, hAt⟩ := @ticks_savesAt settings
    (fetchRun isa memory settings before).cpu hStrict
    (fetch.parts.map (fetch.tick (isa.isSyscall decoded.1.operation.1) decoded.1.operation.2))
  rw [hClosed, List.drop_left] at hInfo
  obtain ⟨t, ht, hPc, hFlag, hSyscall⟩ := hAt info hInfo
  obtain ⟨part, hPart, rfl⟩ := List.mem_map.mp ht
  simp only [Fetch.tick] at hPc hFlag hSyscall
  obtain ⟨hOperation, n, hn, hFlags⟩ := hObject
  have hWide : compressed fetch.word = false := by
    by_contra hNarrow
    rw [Bool.not_eq_false] at hNarrow
    have hExecutes := hRun fetch hMem part hPart
    rw [hFlags, cacheKey_compressed hNarrow] at hFlag
    cases hMicro : part.1 with
    | none =>
        rw [hMicro, CompressedFlags.read, hMemory fetch hMem hNarrow n hn] at hFlag
        exact absurd hFlag (by decide)
    | some upc =>
        simp only [hMicro, isa.microops_compressed fetch.word hNarrow] at hExecutes
        exact absurd hExecutes (Nat.not_lt_zero upc)
  have hNotEcall : isEcall fetch.word = false := by
    by_contra hEcall
    rw [Bool.not_eq_false] at hEcall
    rw [hOperation, cacheKey_ecall hEcall, isa.isSyscall_decodeInst, hEcall] at hSyscall
    exact absurd hSyscall (by decide)
  refine ⟨hPc, hWide, hNotEcall, fun jump => ?_⟩
  rw [hPc, Fetch.size, if_neg (by simp [hWide])]
  exact storeInst_writes fetch.pc jump

/-- Every tick sees the width of its instruction if the memory held it. -/
theorem examines_flag {run : List Fetch} (hMemory : AllMarked memory run) {fetch : Fetch} {t : Tick}
    (h : Examines isa memory settings run fetch t) : t.isCompressed = compressed fetch.word := by
  obtain ⟨before, after, rfl, ht⟩ := h
  obtain ⟨part, hPart, rfl⟩ := List.mem_map.mp ht
  obtain ⟨-, n, hn, hFlags⟩ := @decode_object Op isa memory settings before after fetch
  simp only [Fetch.tick, hFlags]
  exact hMemory fetch (by simp) part hPart n hn

/-- In a run without `strictLength`, every checkpoint ends at an instruction of four bytes
other than `ecall` if the memory of all objects for the compressed words of the run held
`true`. If the memory of all objects held the width of their words, so does `isCompressed`
in every tick. -/
theorem exits_fit (hStrict : settings.strictLength = false) {run : List Fetch}
    (hRun : ∀ fetch ∈ run, fetch.Executes isa) :
    (NarrowMarked memory run →
      ∀ info ∈ (fetchRun isa memory settings run).cpu.saved, info.exit_pc ≠ 0 →
        (∃ fetch, SavedAt isa memory settings run info fetch) ∧
          ∀ fetch, SavedAt isa memory settings run info fetch → ExitFits info fetch) ∧
    (AllMarked memory run → ∀ fetch t, Examines isa memory settings run fetch t →
      t.isCompressed = compressed fetch.word) := by
  refine ⟨fun hNarrow info hInfo _ =>
    ⟨savedAt_of_saved hStrict run info hInfo, fun fetch hSaved => ?_⟩,
    fun hAll fetch t hExamines => examines_flag hAll hExamines⟩
  exact exitFits_of_savedAt hStrict hRun hNarrow hSaved

end Exits

section Narrow

variable {Op : Type} {isa : ExecIsa Op} {memory : Nat → Nat → CompressedFlags}

def bareTick (pc : Nat) : Tick where
  pc := pc
  npc := pc + 2
  isSyscall := false
  isCompressed := false
  counts := true
  fault := false
  events := []
  regs := ⟨[], []⟩
  stack := fun _ _ => 0

def skipped : Fetch := ⟨0x2000, 0x13, []⟩

def executed (pc word : Nat) : Fetch := ⟨pc, word, [(none, bareTick pc)]⟩

def narrowRun (n word : Nat) : List Fetch :=
  List.replicate n skipped ++ [executed 0x1000 word] ++ [executed 0x1002 word]

def shortSettings : CkptSettings := { ctrls := [⟨0, 1, 0⟩] }

/-- Decoding alone fills the cache and leaves the simulator as it is. -/
theorem fetchRun_skipped (n : Nat) :
    (fetchRun isa memory shortSettings (List.replicate n skipped)).cpu = {} ∧
    (fetchRun isa memory shortSettings (List.replicate n skipped)).calls = n ∧
    ∀ word, word ≠ 0x13 →
      (fetchRun isa memory shortSettings (List.replicate n skipped)).instMap word = none := by
  induction n with
  | zero => exact ⟨rfl, rfl, fun _ _ => rfl⟩
  | succ n ih =>
      obtain ⟨hCpu, hCalls, hCache⟩ := ih
      rw [List.replicate_succ', fetchRun_snoc]
      refine ⟨hCpu, congrArg (· + 1) hCalls, fun word hWord => ?_⟩
      exact (Function.update_of_ne hWord _ _).trans (hCache word hWord)

/-- The execution of a compressed word whose object has the flag `false`. -/
theorem step_narrow {state : FetchState Op} {pc word : Nat} {si : StaticInst (Op × CompressedFlags)}
    (hNarrow : compressed word = true) {calls : Nat} (hObject : ObjectOf isa memory calls word si)
    (hFlag : si.operation.2.object = false)
    (hSlot : (state.instMap word).getD
      ((isa.inMemory (memory state.calls)).decodeInst word) = si) :
    state.step isa memory shortSettings (executed pc word) =
      { cpu := tick shortSettings state.cpu (bareTick pc)
        instMap := Function.update state.instMap word (some si)
        calls := state.calls + 1 } := by
  have hDecode : state.decode isa memory (executed pc word) =
      (si, Function.update state.instMap word (some si)) := by
    simp only [FetchState.decode, executed, IsaDecoder.decode, DecoderCopy.tempInst,
      tempInstCreate_compressed hNarrow, hSlot]
  have hSyscall : isa.isSyscall si.operation.1 = false := by
    rw [hObject.1, isa.isSyscall_decodeInst]
    exact not_isEcall_of_compressed hNarrow
  have hTick : (executed pc word).tick false si.operation.2 (none, bareTick pc) = bareTick pc := by
    simp only [Fetch.tick, CompressedFlags.read, hFlag]
    rfl
  have hTicks : state.ticks isa memory (executed pc word) = [bareTick pc] := by
    rw [FetchState.ticks, hDecode, hSyscall]
    exact congrArg (fun t => [t]) hTick
  rw [FetchState.step, hTicks, hDecode]
  rfl

/-- Where the memory of the object held `false`, the checkpoint ends at the compressed
instruction. -/
theorem savedAt_narrow {n word : Nat} (hNarrow : compressed word = true)
    (hMemory : (memory n word).object = false) :
    ∃ info ∈ (fetchRun isa memory shortSettings (narrowRun n word)).cpu.saved,
      SavedAt isa memory shortSettings (narrowRun n word) info (executed 0x1002 word) ∧
        info.exit_pc = 0x1002 := by
  have hWord : word ≠ 0x13 := by
    rintro rfl
    exact absurd hNarrow (by decide)
  obtain ⟨hCpu, hCalls, hCache⟩ := @fetchRun_skipped Op isa memory n
  have hObject : ObjectOf isa memory (n + 1) word ((isa.inMemory (memory n)).decodeInst word) :=
    ⟨rfl, n, Nat.lt_succ_self n, rfl⟩
  -- the first execution creates the object, the second finds it in the cache
  have hFirst : fetchRun isa memory shortSettings
      (List.replicate n skipped ++ [executed 0x1000 word]) =
      _ := (fetchRun_snoc _ _ _).trans
    (step_narrow hNarrow hObject hMemory (by rw [hCache word hWord, hCalls, Option.getD_none]))
  have hSecond : fetchRun isa memory shortSettings (narrowRun n word) = _ :=
    (fetchRun_snoc _ _ _).trans
      (step_narrow hNarrow hObject hMemory
        (by simp only [hFirst, Function.update_self, Option.getD_some]))
  have hExit : ((tick shortSettings (tick shortSettings {} (bareTick 0x1000))
      (bareTick 0x1002)).saved.drop (tick shortSettings {} (bareTick 0x1000)).saved.length).map
        CkptInfo.exit_pc = [0x1002] := by
    decide +kernel
  have hMem := hExit ▸ List.mem_singleton_self 0x1002
  obtain ⟨info, hInfo, hPc⟩ := List.mem_map.mp hMem
  have hHere : info ∈ (fetchRun isa memory shortSettings (narrowRun n word)).cpu.saved.drop
      (fetchRun isa memory shortSettings
        (List.replicate n skipped ++ [executed 0x1000 word])).cpu.saved.length := by
    rw [hSecond, hFirst, hCpu]
    exact hInfo
  exact ⟨info, List.mem_of_mem_drop hHere, ⟨_, [], rfl, hHere⟩, hPc⟩

theorem narrowRun_executes (n : Nat) {word : Nat} (hNarrow : compressed word = true) :
    ∀ fetch ∈ narrowRun n word, fetch.Executes isa := by
  have hWhole : ∀ pc, (executed pc word).Executes isa := by
    intro pc part hPart
    obtain rfl := List.mem_singleton.mp hPart
    exact isa.microops_compressed word hNarrow
  intro fetch hFetch
  rcases List.mem_append.mp hFetch with hBefore | hLast
  · rcases List.mem_append.mp hBefore with hSkipped | hFirst
    · rw [List.eq_of_mem_replicate hSkipped]
      exact fun part hPart => absurd hPart List.not_mem_nil
    · rw [List.mem_singleton.mp hFirst]
      exact hWhole 0x1000
  · rw [List.mem_singleton.mp hLast]
    exact hWhole 0x1002

end Narrow

/-- In every run without `strictLength` every checkpoint ends at an instruction of four
bytes other than `ecall`, if and only if the memory of every object for a compressed word
held `true` when the object was created. -/
theorem exits_fit_iff {Op : Type} (isa : ExecIsa Op) (memory : Nat → Nat → CompressedFlags) :
    (∀ settings run, settings.strictLength = false → (∀ fetch ∈ run, fetch.Executes isa) →
      ∀ info ∈ (fetchRun isa memory settings run).cpu.saved, info.exit_pc ≠ 0 →
        (∃ fetch, SavedAt isa memory settings run info fetch) ∧
          ∀ fetch, SavedAt isa memory settings run info fetch → ExitFits info fetch) ↔
      ∀ n word, compressed word = true → (memory n word).object = true := by
  constructor
  · intro hFits n word hNarrow
    by_contra hMemory
    rw [Bool.not_eq_true] at hMemory
    obtain ⟨info, hInfo, hSaved, hPc⟩ := @savedAt_narrow Op isa memory n word hNarrow hMemory
    have hExits :=
      hFits shortSettings (narrowRun n word) rfl (narrowRun_executes n hNarrow) info hInfo
      (by rw [hPc]; decide)
    have hWide : compressed word = false := (hExits.2 _ hSaved).wide
    exact absurd (hWide.symm.trans hNarrow) (by decide)
  · intro hMemory settings run hStrict hRun info hInfo _
    refine ⟨savedAt_of_saved hStrict run info hInfo, fun fetch hSaved => ?_⟩
    exact exitFits_of_savedAt hStrict hRun (fun f _ hNarrow n _ => hMemory n f.word hNarrow) hSaved

/-- Operations that are the words themselves; atomic instructions are micro-coded. -/
def wordIsa : ExecIsa Nat where
  decodeInst word :=
    if word = taddinst then ⟨taddinst, [intReg 1, intReg 0], [intReg 1]⟩
    else if word = tjalrinst then ⟨tjalrinst, [intReg 1], [intReg 0]⟩
    else ⟨word, [], []⟩
  add := taddinst
  jalr := tjalrinst
  zeroReg := intReg 0
  decodeInst_add := rfl
  decodeInst_jalr := rfl
  isSyscall := isEcall
  microops word := if word % 128 = 0x2f then 1 else 0
  isSyscall_decodeInst := by
    intro word
    split
    · next hAdd => rw [hAdd]
    · split
      · next hJalr => rw [hJalr]
      · rfl
  microops_compressed := by
    intro word hNarrow
    simp only [compressed, decide_eq_true_eq] at hNarrow
    exact if_neg (by omega)

/-- Memory in which every object happens to find the width of its word. -/
def markedMemory : Nat → Nat → CompressedFlags := fun _ word => ⟨compressed word, fun _ => false⟩

def mixedRun : List Fetch := [executed 0x1000 0x0001, executed 0x1002 0x13, executed 0x1006 0x13]

/-- The checkpoint ends at the first `nop`. -/
theorem exits_fit_mixed :
    (fetchRun wordIsa markedMemory shortSettings mixedRun).cpu.saved.map CkptInfo.exit_pc =
      [0x1002] ∧
    (∀ info ∈ (fetchRun wordIsa markedMemory shortSettings mixedRun).cpu.saved, info.exit_pc ≠ 0 →
      (∃ fetch, SavedAt wordIsa markedMemory shortSettings mixedRun info fetch) ∧
        ∀ fetch, SavedAt wordIsa markedMemory shortSettings mixedRun info fetch →
          ExitFits info fetch) ∧
    ∀ fetch t, Examines wordIsa markedMemory shortSettings mixedRun fetch t →
      t.isCompressed = compressed fetch.word := by
  have hOne : ∀ fetch ∈ mixedRun, wordIsa.microops fetch.word = 0 ∧
      ∀ part ∈ fetch.parts, part.1 = none ∧
      compressed (cacheKey fetch.word) = compressed fetch.word := by
    decide
  have hRun : ∀ fetch ∈ mixedRun, fetch.Executes wordIsa := by
    intro fetch hFetch part hPart
    rw [((hOne fetch hFetch).2 part hPart).1]
    exact (hOne fetch hFetch).1
  have hAll : AllMarked markedMemory mixedRun := by
    intro fetch hFetch part hPart n _
    rw [((hOne fetch hFetch).2 part hPart).1]
    exact ((hOne fetch hFetch).2 part hPart).2
  have hFits := @exits_fit Nat wordIsa markedMemory shortSettings rfl mixedRun hRun
  exact ⟨by decide +kernel, hFits.1 fun _ _ hNarrow _ _ => hNarrow, hFits.2 hAll⟩

def clearedMemory : Nat → Nat → CompressedFlags := fun _ _ => ⟨false, fun _ => false⟩

/-- In cleared memory a checkpoint ends at a `c.nop`, and the jump that is stored there
changes the instruction behind it. -/
theorem exit_at_compressed :
    ∃ info ∈ (fetchRun wordIsa clearedMemory shortSettings (narrowRun 0 0x0001)).cpu.saved,
      SavedAt wordIsa clearedMemory shortSettings (narrowRun 0 0x0001) info
        (executed 0x1002 0x0001) ∧
      info.exit_pc = 0x1002 ∧ ¬ ExitFits info (executed 0x1002 0x0001) ∧
      storeInst zero info.exit_pc 0x0040006f 0x1004 ≠ zero 0x1004 := by
  obtain ⟨info, hInfo, hSaved, hPc⟩ :=
    @savedAt_narrow Nat wordIsa clearedMemory 0 0x0001 (by decide) rfl
  refine ⟨info, hInfo, hSaved, hPc, fun hFits => ?_, ?_⟩
  · exact absurd hFits.wide (by decide)
  · rw [hPc]
    decide +kernel

end RiscvCkpt
