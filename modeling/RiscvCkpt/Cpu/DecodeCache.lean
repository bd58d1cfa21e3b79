import Mathlib.Algebra.Group.Nat.Defs
import Mathlib.Logic.Function.Basic

/-! `Decoder::decode` with the instructions for temporary registers. Their encodings
are decoded as an `add` or a `jalr` whose registers are then replaced in the object
that the cache holds under the word of that `add` or `jalr`. -/
namespace RiscvCkpt

inductive RegClass
  | IntRegClass
  | FloatRegClass
  | VecRegClass
  | VecElemClass
  | VecPredRegClass
  | CCRegClass
  | MiscRegClass
  deriving DecidableEq, Repr

structure RegId where
  regClass : RegClass
  idx : Nat
  deriving DecidableEq, Repr

def intReg (idx : Nat) : RegId := ⟨.IntRegClass, idx⟩

/-- A decoded instruction: what it does, and its registers. -/
structure StaticInst (Op : Type) where
  operation : Op
  srcRegIdx : List RegId
  destRegIdx : List RegId
  deriving DecidableEq, Repr

namespace StaticInst

variable {Op : Type}

def setSrcRegIdx (si : StaticInst Op) (i : Nat) (val : RegId) : StaticInst Op :=
  { si with srcRegIdx := si.srcRegIdx.set i val }

def setDestRegIdx (si : StaticInst Op) (i : Nat) (val : RegId) : StaticInst Op :=
  { si with destRegIdx := si.destRegIdx.set i val }

end StaticInst

def taddinst : Nat := 0x80b3

/-- `tjalrinst`: `jalr x0, 0(x1)`, the return from a function. -/
def tjalrinst : Nat := 0x8067

def compressed (inst : Nat) : Bool := inst % 4 < 3

/-- An access to a temporary register, with the register numbers that are put into
the decoded object. -/
inductive TempInst
  | read (rtemp rd : Nat)
  | write (rs1 rtemp : Nat)
  | jump (rtemp : Nat)
  deriving DecidableEq, Repr

namespace TempInst

def rtemp : TempInst → Nat
  | .read rtemp _ => rtemp
  | .write _ rtemp => rtemp
  | .jump rtemp => rtemp

def standin : TempInst → Nat
  | .read _ _ => taddinst
  | .write _ _ => taddinst
  | .jump _ => tjalrinst

/-- The registers of the decoded object are replaced. -/
def setRegs {Op : Type} (temp : TempInst) (si : StaticInst Op) : StaticInst Op :=
  match temp with
  | .read rtemp rd => (si.setSrcRegIdx 0 (intReg rtemp)).setDestRegIdx 0 (intReg rd)
  | .write rs1 rtemp => (si.setSrcRegIdx 0 (intReg rs1)).setDestRegIdx 0 (intReg rtemp)
  | .jump rtemp => si.setSrcRegIdx 0 (intReg rtemp)

end TempInst

/-- The two copies of the decoder differ in the encodings. -/
inductive DecoderCopy
  | create
  | restore
  deriving DecidableEq, Repr

/-- `isRTemp`, `isWTemp` and `isJTemp` of the creating simulator: `addi x0, rs1, imm`. -/
def tempInstCreate (machInst : Nat) : Option TempInst :=
  if compressed machInst then none
  else
    let opcode := machInst % 128
    let imm12 := machInst / 2 ^ 20 % 2 ^ 32
    let func3 := machInst / 2 ^ 12 % 8
    let rs1 := machInst / 2 ^ 15 % 32
    let rd := machInst / 2 ^ 7 % 32
    let isNewInst := opcode = 0x13 ∧ func3 = 0 ∧ rd = 0
    if isNewInst ∧ imm12 ≥ 36 ∧ imm12 ≤ 39 then some (.read (32 + imm12 - 36) rs1)
    else if isNewInst ∧ imm12 ≥ 9 ∧ imm12 ≤ 12 then some (.write rs1 (32 + imm12 - 9))
    else if isNewInst ∧ imm12 = 64 then some (.jump (32 + rs1 % 4))
    else none

/-- The same of the restoring simulator: `add`, `sub` and `or` with destination `x0`. -/
def tempInstRestore (machInst : Nat) : Option TempInst :=
  if compressed machInst then none
  else
    let opcode := machInst % 128
    let func7 := machInst / 2 ^ 25 % 2 ^ 32
    let func3 := machInst / 2 ^ 12 % 8
    let rs1 := machInst / 2 ^ 15 % 32
    let rs2 := machInst / 2 ^ 20 % 32
    let rd := machInst / 2 ^ 7 % 32
    if opcode = 0x33 ∧ func7 = 0 ∧ func3 = 0 ∧ rd = 0 then some (.read (rs2 + 32) rs1)
    else if opcode = 0x33 ∧ func7 = 0x20 ∧ func3 = 0 ∧ rd = 0 then some (.write rs1 (rs2 + 32))
    else if opcode = 0x33 ∧ func7 = 0 ∧ func3 = 6 ∧ rd = 0 then some (.jump (rs2 + 32))
    else none

def DecoderCopy.tempInst : DecoderCopy → Nat → Option TempInst
  | .create => tempInstCreate
  | .restore => tempInstRestore

/-- The generated decoder, of which only the two words that stand in for others matter. -/
structure IsaDecoder (Op : Type) where
  decodeInst : Nat → StaticInst Op
  add : Op
  jalr : Op
  zeroReg : RegId
  decodeInst_add : decodeInst taddinst = ⟨add, [intReg 1, zeroReg], [intReg 1]⟩
  decodeInst_jalr : decodeInst tjalrinst = ⟨jalr, [intReg 1], [zeroReg]⟩

namespace IsaDecoder

variable {Op : Type} (isa : IsaDecoder Op) (copy : DecoderCopy)

/-- `Decoder::decode`, with the cache `instMap`. The word of an access to a temporary
register is replaced, decoded anew and changed in the cache. -/
def decode (instMap : Nat → Option (StaticInst Op)) (machInst : Nat) :
    StaticInst Op × (Nat → Option (StaticInst Op)) :=
  match copy.tempInst machInst with
  | none =>
      let si := (instMap machInst).getD (isa.decodeInst machInst)
      (si, Function.update instMap machInst (some si))
  | some temp =>
      let si := temp.setRegs (isa.decodeInst temp.standin)
      (si, Function.update instMap temp.standin (some si))

def cacheAfter (history : List Nat) : Nat → Option (StaticInst Op) :=
  history.foldl (fun instMap machInst => (isa.decode copy instMap machInst).2) fun _ => none

/-- What an access to a temporary register is meant to be: an `add` of zero, or a `jalr`. -/
def tempMeaning : TempInst → StaticInst Op
  | .read rtemp rd => ⟨isa.add, [intReg rtemp, isa.zeroReg], [intReg rd]⟩
  | .write rs1 rtemp => ⟨isa.add, [intReg rs1, isa.zeroReg], [intReg rtemp]⟩
  | .jump rtemp => ⟨isa.jalr, [intReg rtemp], [isa.zeroReg]⟩

/-- What a word is meant to be decoded to. -/
def meaning (machInst : Nat) : StaticInst Op :=
  match copy.tempInst machInst with
  | none => isa.decodeInst machInst
  | some temp => isa.tempMeaning temp

/-- No earlier call has used the word as a stand-in. -/
def Unshared (history : List Nat) (key : Nat) : Prop :=
  ∀ word ∈ history, ∀ temp, copy.tempInst word = some temp → temp.standin ≠ key

end IsaDecoder

section Encodings

/-- Temporary registers have names behind the architectural ones. -/
theorem tempInstCreate_rtemp {word : Nat} {temp : TempInst} (h : tempInstCreate word = some temp) :
    32 ≤ temp.rtemp := by
  rw [tempInstCreate] at h
  split at h
  · exact absurd h (Option.some_ne_none temp).symm
  · simp only at h
    split at h
    · next hRead =>
        obtain rfl := Option.some.inj h
        have hImm := hRead.2.1
        simp only [TempInst.rtemp]
        omega
    · split at h
      · next hWrite =>
          obtain rfl := Option.some.inj h
          have hImm := hWrite.2.1
          simp only [TempInst.rtemp]
          omega
      · split at h
        · obtain rfl := Option.some.inj h
          exact Nat.le_add_right _ _
        · exact absurd h (Option.some_ne_none temp).symm

theorem tempInstRestore_rtemp {word : Nat} {temp : TempInst}
    (h : tempInstRestore word = some temp) :
    32 ≤ temp.rtemp := by
  rw [tempInstRestore] at h
  split at h
  · exact absurd h (Option.some_ne_none temp).symm
  · simp only at h
    split at h
    · obtain rfl := Option.some.inj h
      exact Nat.le_add_left _ _
    · split at h
      · obtain rfl := Option.some.inj h
        exact Nat.le_add_left _ _
      · split at h
        · obtain rfl := Option.some.inj h
          exact Nat.le_add_left _ _
        · exact absurd h (Option.some_ne_none temp).symm

/-- A temporary register is not one of the 32 of the program. -/
theorem DecoderCopy.rtemp_ge (copy : DecoderCopy) {word : Nat} {temp : TempInst}
    (h : copy.tempInst word = some temp) : 32 ≤ temp.rtemp := by
  cases copy with
  | create => exact tempInstCreate_rtemp h
  | restore => exact tempInstRestore_rtemp h

/-- The stand-ins are ordinary instructions. -/
theorem DecoderCopy.tempInst_standin (copy : DecoderCopy) (temp : TempInst) :
    copy.tempInst temp.standin = none := by
  have hAdd : copy.tempInst taddinst = none := by cases copy <;> decide
  have hJalr : copy.tempInst tjalrinst = none := by cases copy <;> decide
  cases temp with
  | read rtemp rd => exact hAdd
  | write rs1 rtemp => exact hAdd
  | jump rtemp => exact hJalr

end Encodings

namespace IsaDecoder

variable {Op : Type} (isa : IsaDecoder Op) {copy : DecoderCopy}

/-- The stand-in with its registers replaced is what the access is meant to be. -/
theorem setRegs_standin (temp : TempInst) :
    temp.setRegs (isa.decodeInst temp.standin) = isa.tempMeaning temp := by
  cases temp with
  | read rtemp rd => rw [TempInst.standin, isa.decodeInst_add]; rfl
  | write rs1 rtemp => rw [TempInst.standin, isa.decodeInst_add]; rfl
  | jump rtemp => rw [TempInst.standin, isa.decodeInst_jalr]; rfl

/-- An object with a temporary register is not what its stand-in means. -/
theorem tempMeaning_ne {temp : TempInst} (h : 32 ≤ temp.rtemp) :
    isa.tempMeaning temp ≠ isa.decodeInst temp.standin := by
  have hOne : ∀ {idx : Nat}, intReg idx = intReg 1 → idx = 1 := fun hEq => congrArg RegId.idx hEq
  cases temp with
  | read rtemp rd =>
      rw [TempInst.standin, isa.decodeInst_add]
      intro hEq
      have hReg := hOne (List.cons.inj (congrArg StaticInst.srcRegIdx hEq)).1
      rw [TempInst.rtemp, hReg] at h
      exact absurd h (by decide)
  | write rs1 rtemp =>
      rw [TempInst.standin, isa.decodeInst_add]
      intro hEq
      have hReg := hOne (List.cons.inj (congrArg StaticInst.destRegIdx hEq)).1
      rw [TempInst.rtemp, hReg] at h
      exact absurd h (by decide)
  | jump rtemp =>
      rw [TempInst.standin, isa.decodeInst_jalr]
      intro hEq
      have hReg := hOne (List.cons.inj (congrArg StaticInst.srcRegIdx hEq)).1
      rw [TempInst.rtemp, hReg] at h
      exact absurd h (by decide)

/-- What the cache holds after a sequence of calls: under a word that was used as a
stand-in the object of such an access, under any other word what the word means. -/
structure CacheOk (copy : DecoderCopy) (history : List Nat)
    (instMap : Nat → Option (StaticInst Op)) :
    Prop where
  plain : ∀ key, Unshared copy history key → ∀ si, instMap key = some si → si = isa.decodeInst key
  shared : ∀ key, ¬ Unshared copy history key →
    ∃ temp : TempInst, 32 ≤ temp.rtemp ∧ temp.standin = key ∧
      instMap key = some (isa.tempMeaning temp)

theorem unshared_snoc {history : List Nat} {word key : Nat} :
    Unshared copy (history ++ [word]) key ↔
      Unshared copy history key ∧ ∀ temp, copy.tempInst word = some temp → temp.standin ≠ key := by
  simp only [Unshared, List.mem_append, List.mem_singleton]
  constructor
  · exact fun h => ⟨fun w hw => h w (Or.inl hw), h word (Or.inr rfl)⟩
  · rintro ⟨hOld, hNew⟩ w (hw | rfl)
    · exact hOld w hw
    · exact hNew

/-- One call keeps this. -/
theorem CacheOk.step {history : List Nat} {instMap : Nat → Option (StaticInst Op)}
    (h : isa.CacheOk copy history instMap) (word : Nat) :
    isa.CacheOk copy (history ++ [word]) (isa.decode copy instMap word).2 := by
  cases hTemp : copy.tempInst word with
  | none =>
      have hSame : ∀ key, Unshared copy (history ++ [word]) key ↔ Unshared copy history key := by
        intro key
        rw [unshared_snoc]
        exact and_iff_left fun temp hSome =>
          absurd (hTemp.symm.trans hSome) (Option.some_ne_none _).symm
      simp only [decode, hTemp]
      constructor
      · intro key hKey si hSi
        rw [hSame] at hKey
        rw [Function.update_apply] at hSi
        split at hSi
        · next hWord =>
            subst hWord
            cases hSlot : instMap key with
            | none => rw [hSlot] at hSi; exact (Option.some.inj hSi).symm
            | some cached =>
                rw [hSlot] at hSi
                exact (Option.some.inj hSi).symm.trans (h.plain key hKey cached hSlot)
        · exact h.plain key hKey si hSi
      · intro key hKey
        rw [hSame] at hKey
        obtain ⟨temp, hReg, hStandin, hSlot⟩ := h.shared key hKey
        refine ⟨temp, hReg, hStandin, ?_⟩
        rw [Function.update_apply]
        split
        · next hWord => rw [← hWord, hSlot]; rfl
        · exact hSlot
  | some temp =>
      simp only [decode, hTemp, isa.setRegs_standin]
      constructor
      · intro key hKey si hSi
        obtain ⟨hOld, hNew⟩ := unshared_snoc.mp hKey
        rw [Function.update_of_ne (Ne.symm (hNew temp hTemp))] at hSi
        exact h.plain key hOld si hSi
      · intro key hKey
        by_cases hHere : temp.standin = key
        · refine ⟨temp, copy.rtemp_ge hTemp, hHere, ?_⟩
          rw [← hHere, Function.update_self]
        · have hOld : ¬ Unshared copy history key := by
            intro hOld
            apply hKey
            rw [unshared_snoc]
            refine ⟨hOld, fun other hOther => ?_⟩
            obtain rfl := Option.some.inj (hTemp.symm.trans hOther)
            exact hHere
          obtain ⟨old, hReg, hStandin, hSlot⟩ := h.shared key hOld
          refine ⟨old, hReg, hStandin, ?_⟩
          rw [Function.update_of_ne (Ne.symm hHere), hSlot]

/-- After any sequence of calls. -/
theorem cacheAfter_ok (history : List Nat) :
    isa.CacheOk copy history (isa.cacheAfter copy history) := by
  have hRun : ∀ rest done instMap, isa.CacheOk copy done instMap →
      isa.CacheOk copy (done ++ rest)
        (rest.foldl (fun instMap machInst => (isa.decode copy instMap machInst).2) instMap) := by
    intro rest
    induction rest with
    | nil =>
        intro done instMap h
        rwa [List.append_nil]
    | cons word rest ih =>
        intro done instMap h
        have hNext := ih (done ++ [word]) _ (h.step isa word)
        rwa [List.append_assoc] at hNext
  refine hRun history [] (fun _ => none) ⟨fun key _ si hSi => ?_, fun key hKey => ?_⟩
  · exact absurd hSi (Option.some_ne_none si).symm
  · exact absurd (fun word hWord => absurd hWord List.not_mem_nil) hKey

/-- A word is decoded to what it means if and only if no earlier call has used it as a
stand-in. An access to a temporary register is always decoded to what it means. -/
theorem decode_meaning_iff (copy : DecoderCopy) (history : List Nat) (word : Nat) :
    (isa.decode copy (isa.cacheAfter copy history) word).1 = isa.meaning copy word ↔
      Unshared copy history word := by
  have hCache := @cacheAfter_ok Op isa copy history
  cases hTemp : copy.tempInst word with
  | none =>
      simp only [decode, meaning, hTemp]
      constructor
      · intro hRight
        by_contra hShared
        obtain ⟨temp, hReg, hStandin, hSlot⟩ := hCache.shared word hShared
        rw [hSlot, Option.getD_some, ← hStandin] at hRight
        exact isa.tempMeaning_ne hReg hRight
      · intro hPlain
        cases hSlot : isa.cacheAfter copy history word with
        | none => rfl
        | some si => exact hCache.plain word hPlain si hSlot
  | some temp =>
      simp only [decode, meaning, hTemp, isa.setRegs_standin, true_iff]
      intro old _ other _ hStandin
      have hNone := copy.tempInst_standin other
      rw [hStandin, hTemp] at hNone
      exact absurd hNone (Option.some_ne_none temp)

end IsaDecoder

def sampleIsa : IsaDecoder Nat where
  decodeInst word :=
    if word = taddinst then ⟨0x33, [intReg 1, intReg 0], [intReg 1]⟩
    else if word = tjalrinst then ⟨0x67, [intReg 1], [intReg 0]⟩
    else ⟨word % 128, [], []⟩
  add := 0x33
  jalr := 0x67
  zeroReg := intReg 0
  decodeInst_add := rfl
  decodeInst_jalr := rfl

/-- After a jump through a temporary register, `addi x0, x2, 64`, the return of a
function is decoded to the same jump. -/
theorem decode_return_shared :
    (sampleIsa.decode .create (sampleIsa.cacheAfter .create [0x04010013]) tjalrinst).1 =
      ⟨0x67, [intReg 34], [intReg 0]⟩ ∧
    sampleIsa.meaning .create tjalrinst = ⟨0x67, [intReg 1], [intReg 0]⟩ := by
  decide +kernel

end RiscvCkpt
