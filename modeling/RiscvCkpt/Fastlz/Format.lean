import RiscvCkpt.Base.ByteCodec
import RiscvCkpt.Base.ByteMemory
import RiscvCkpt.Base.Lz77

/-! How FastLZ writes a stream of tokens. A literal run of at most 32 bytes stands behind
its length; a match is a length and a distance, at level 2 also a long one. The routines
that write literals copy whole words and leave bytes behind the place they stop at, which
the next routine overwrites. -/
namespace RiscvCkpt.Fastlz

open ByteCodec ByteMemory Lz77

/-- The two builds of the source, with and without `FLZ_ARCH64`. -/
inductive Build where
  | arch64
  | portable
  deriving DecidableEq, Repr

def maxCopy : Nat := 32

def maxLen : Nat := 264

def maxL1Distance : Nat := 8192

def maxL2Distance : Nat := 8191

def maxFarDistance : Nat := 65535 + maxL2Distance - 1

/-- An output buffer and the place `op` behind what has been written. -/
structure Out where
  buf : Memory
  op : Nat

namespace Out

def text (out : Out) : List UInt8 := load out.buf 0 out.op

def write (out : Out) (bytes : List UInt8) (n : Nat) : Out :=
  ⟨store out.buf out.op bytes, out.op + n⟩

def put (out : Out) (value : Nat) : Out := out.write [UInt8.ofNat value] 1

end Out

/-- The number of bytes that `flz_copy64` copies. The portable version takes the count for
one of words. -/
def copyWidth : Build → Nat → Nat
  | .arch64, count => if count < 16 then (if 8 ≤ count then 16 else 8) else 32
  | .portable, count => count * 8

/-- How far behind its count `flz_copy64` writes at most. -/
def copySlack : Build → Nat
  | .arch64 => 16
  | .portable => 217

def flzCopy64 (build : Build) (input buf : Memory) (dest src count : Nat) : Memory :=
  store buf dest (load input src (copyWidth build count))

def flzCopy256 (input buf : Memory) (dest src _count : Nat) : Memory :=
  store buf dest (load input src 32)

/-- The loop of `flz_smallcopy` over whole words, and the `memcpy` of what is left. -/
def smallcopyWords (input buf : Memory) (dest src count : Nat) : Memory :=
  if 8 < count then
    smallcopyWords input (store buf dest (load input src 8)) (dest + 8) (src + 8) (count - 8)
  else store buf dest (load input src count)
  termination_by count

def flzSmallcopy : Build → (input buf : Memory) → (dest src count : Nat) → Memory
  | .arch64, input, buf, dest, src, count => smallcopyWords input buf dest src count
  | .portable, input, buf, dest, src, count => store buf dest (load input src count)

/-- The loop that `flz_literals` and `flz_finalize` share, for the copies they use. -/
def putRuns (full part : (buf : Memory) → (dest src count : Nat) → Memory) (runs src : Nat)
    (out : Out) : Out :=
  if maxCopy ≤ runs then
    let out := out.put (maxCopy - 1)
    putRuns full part (runs - maxCopy) (src + maxCopy)
      ⟨full out.buf out.op src maxCopy, out.op + maxCopy⟩
  else if 0 < runs then
    let out := out.put (runs - 1)
    ⟨part out.buf out.op src runs, out.op + runs⟩
  else out
  termination_by runs
  decreasing_by
    simp only [maxCopy] at *
    omega

def flzLiterals (build : Build) (input : Memory) (runs src : Nat) (out : Out) : Out :=
  putRuns (flzCopy256 input) (flzCopy64 build input) runs src out

def flzFinalize (build : Build) (input : Memory) (runs src : Nat) (out : Out) : Out :=
  putRuns (flzSmallcopy build input) (flzSmallcopy build input) runs src out

def flz1Match (len distance : Nat) (out : Out) : Out :=
  if maxLen - 2 < len then
    flz1Match (len - (maxLen - 2)) distance
      (((out.put (7 * 32 + (distance - 1) / 256)).put (maxLen - 2 - 7 - 2)).put
        ((distance - 1) % 256))
  else if len < 7 then
    (out.put (len * 32 + (distance - 1) / 256)).put ((distance - 1) % 256)
  else
    ((out.put (7 * 32 + (distance - 1) / 256)).put (len - 7)).put ((distance - 1) % 256)
  termination_by len
  decreasing_by
    simp only [maxLen] at *
    omega

/-- `for (len -= 7; len >= 255; len -= 255) *op++ = 255; *op++ = len;` -/
def putLength (len : Nat) (out : Out) : Out :=
  if 255 ≤ len then putLength (len - 255) (out.put 255) else out.put len
  termination_by len

def flz2Match (len distance : Nat) (out : Out) : Out :=
  let distance := distance - 1
  if distance < maxL2Distance then
    if len < 7 then (out.put (len * 32 + distance / 256)).put (distance % 256)
    else (putLength (len - 7) (out.put (7 * 32 + distance / 256))).put (distance % 256)
  else
    let far := distance - maxL2Distance
    if len < 7 then
      (((out.put (len * 32 + 31)).put 255).put (far / 256)).put (far % 256)
    else
      (((putLength (len - 7) (out.put (7 * 32 + 31))).put 255).put (far / 256)).put (far % 256)

/-! The stream that these routines write. -/

def literalTokens (input : Memory) (runs src : Nat) : List (Token UInt8) :=
  if maxCopy ≤ runs then
    .literal (load input src maxCopy) :: literalTokens input (runs - maxCopy) (src + maxCopy)
  else if 0 < runs then [.literal (load input src runs)]
  else []
  termination_by runs
  decreasing_by
    simp only [maxCopy] at *
    omega

theorem literalTokens_more (input : Memory) {runs : Nat} (src : Nat) (h : maxCopy ≤ runs) :
    literalTokens input runs src =
      .literal (load input src maxCopy) :: literalTokens input (runs - maxCopy)
        (src + maxCopy) := by
  rw [literalTokens, if_pos h]

theorem literalTokens_last (input : Memory) {runs : Nat} (src : Nat) (hLess : runs < maxCopy)
    (hSome : 0 < runs) :
    literalTokens input runs src = [.literal (load input src runs)] := by
  rw [literalTokens, if_neg (Nat.not_le_of_lt hLess), if_pos hSome]

@[simp] theorem literalTokens_zero (input : Memory) (src : Nat) :
    literalTokens input 0 src = [] := by
  rw [literalTokens, if_neg (by decide), if_neg (Nat.lt_irrefl 0)]

/-- The match tokens of level 1: a long match is cut. -/
def matchTokens1 (len distance : Nat) : List (Token UInt8) :=
  if maxLen - 2 < len then .copy distance (maxLen - 2) :: matchTokens1 (len - (maxLen - 2)) distance
  else [.copy distance (len + 2)]
  termination_by len
  decreasing_by
    simp only [maxLen] at *
    omega

def literalCode (run : List UInt8) : List UInt8 := UInt8.ofNat (run.length - 1) :: run

def code1 : Token UInt8 → List UInt8
  | .literal run => literalCode run
  | .copy distance length =>
      if length < 9 then
        [UInt8.ofNat ((length - 2) * 32 + (distance - 1) / 256), UInt8.ofNat ((distance - 1) % 256)]
      else
        [UInt8.ofNat (7 * 32 + (distance - 1) / 256), UInt8.ofNat (length - 9),
          UInt8.ofNat ((distance - 1) % 256)]

/-- The bytes behind the first one of a long length at level 2. -/
def lengthCode (len : Nat) : List UInt8 :=
  List.replicate (len / 255) 255 ++ [UInt8.ofNat (len % 255)]

/-- The first bytes of a match at level 2, with the five bits that its distance puts into
the first one. -/
def matchHead (length high : Nat) : List UInt8 :=
  if length < 9 then [UInt8.ofNat ((length - 2) * 32 + high)]
  else UInt8.ofNat (7 * 32 + high) :: lengthCode (length - 9)

def code2 : Token UInt8 → List UInt8
  | .literal run => literalCode run
  | .copy distance length =>
      if distance - 1 < maxL2Distance then
        matchHead length ((distance - 1) / 256) ++ [UInt8.ofNat ((distance - 1) % 256)]
      else
        matchHead length 31 ++ [255, UInt8.ofNat ((distance - 1 - maxL2Distance) / 256),
          UInt8.ofNat ((distance - 1 - maxL2Distance) % 256)]

/-! What has been appended to an output buffer. -/

/-- From one state of the output to another: `bytes` stand behind what was there, and
further than `slack` behind them nothing has changed. -/
structure Appends (slack : Nat) (out out' : Out) (bytes : List UInt8) : Prop where
  op : out'.op = out.op + bytes.length
  text : out'.text = out.text ++ bytes
  beyond : ∀ a, out'.op + slack ≤ a → out'.buf a = out.buf a

namespace Appends

variable {slack : Nat} {out out' out'' : Out} {bytes bytes' : List UInt8}

theorem refl (slack : Nat) (out : Out) : Appends slack out out [] := by
  refine ⟨rfl, ?_, fun _ _ => rfl⟩
  rw [List.append_nil]

theorem trans (h : Appends slack out out' bytes) (h' : Appends slack out' out'' bytes') :
    Appends slack out out'' (bytes ++ bytes') where
  op := by rw [h'.op, h.op, List.length_append, Nat.add_assoc]
  text := by rw [h'.text, h.text, List.append_assoc]
  beyond := by
    intro a ha
    have hOp := h'.op
    rw [h'.beyond a ha, h.beyond a (by omega)]

/-- A block whose first part counts. -/
theorem write (slack : Nat) (out : Out) {block : List UInt8} {n : Nat} (hLow : n ≤ block.length)
    (hHigh : block.length ≤ n + slack) : Appends slack out (out.write block n) (block.take n) where
  op := by rw [Out.write, List.length_take, Nat.min_eq_left hLow]
  text := by
    have hBefore : load (store out.buf out.op block) 0 out.op = load out.buf 0 out.op :=
      load_store_disjoint (Or.inl (by omega))
    rw [Out.text, Out.text, Out.write, load_add, hBefore, Nat.zero_add, ← load_take hLow,
      load_store_self]
  beyond := by
    intro a ha
    simp only [Out.write] at ha ⊢
    exact store_outside (by omega)

theorem put (slack : Nat) (out : Out) (value : Nat) :
    Appends slack out (out.put value) [UInt8.ofNat value] :=
  write slack out (Nat.le_refl 1) (by simp)

end Appends

section Literals

/-- A copy out of the input that takes at most `slack` bytes more than it is asked for. -/
def Copies (slack : Nat) (input : Memory) (copy : (buf : Memory) → (dest src count : Nat) → Memory)
    (count : Nat) : Prop :=
  ∃ width, count ≤ width ∧ width ≤ count + slack ∧
    ∀ buf dest src, copy buf dest src count = store buf dest (load input src width)

/-- `flz_copy64` copies what it is asked for and not much more. -/
theorem copies_flzCopy64 (build : Build) (input : Memory) {count : Nat} (h : count < maxCopy) :
    Copies (copySlack build) input (flzCopy64 build input) count := by
  rw [maxCopy] at h
  refine ⟨copyWidth build count, ?_, ?_, fun _ _ _ => rfl⟩
  · cases build with
    | arch64 =>
        simp only [copyWidth]
        split_ifs <;> omega
    | portable =>
        simp only [copyWidth]
        omega
  · cases build with
    | arch64 =>
        simp only [copyWidth, copySlack]
        split_ifs <;> omega
    | portable =>
        simp only [copyWidth, copySlack]
        omega

theorem copies_flzCopy256 (slack : Nat) (input : Memory) :
    Copies slack input (flzCopy256 input) maxCopy :=
  ⟨maxCopy, Nat.le_refl _, Nat.le_add_right .., fun _ _ _ => rfl⟩

/-- Copying by words comes to the same as copying at once. -/
theorem smallcopyWords_eq (input buf : Memory) (dest src count : Nat) :
    smallcopyWords input buf dest src count = store buf dest (load input src count) := by
  induction buf, dest, src, count using smallcopyWords.induct input with
  | case1 buf dest src count hMore ih =>
      have hSplit : count = 8 + (count - 8) := by omega
      have hStores := store_append buf dest (load input src 8) (load input (src + 8) (count - 8))
      rw [load_length, ← load_add, ← hSplit] at hStores
      rw [smallcopyWords, if_pos hMore, ih, hStores]
  | case2 buf dest src count hLess => rw [smallcopyWords, if_neg hLess]

theorem copies_flzSmallcopy (slack : Nat) (build : Build) (input : Memory) (count : Nat) :
    Copies slack input (flzSmallcopy build input) count := by
  refine ⟨count, Nat.le_refl _, Nat.le_add_right .., fun buf dest src => ?_⟩
  cases build with
  | arch64 => exact smallcopyWords_eq input buf dest src count
  | portable => rfl

/-- One run: its length, then its bytes. -/
theorem Appends.run {slack count : Nat} {input : Memory}
    {copy : (buf : Memory) → (dest src count : Nat) → Memory} (h : Copies slack input copy count)
    (out : Out) (src : Nat) :
    Appends slack out
      ⟨copy (out.put (count - 1)).buf (out.put (count - 1)).op src count,
        (out.put (count - 1)).op + count⟩
      (literalCode (load input src count)) := by
  obtain ⟨width, hLow, hHigh, hCopy⟩ := h
  have hBytes := @Appends.write slack (out.put (count - 1)) (load input src width) count
    (by rwa [load_length]) (by rwa [load_length])
  rw [load_take hLow] at hBytes
  rw [hCopy, literalCode, load_length]
  exact (Appends.put slack out (count - 1)).trans hBytes

variable {code : Token UInt8 → List UInt8} (hCode : ∀ run, code (.literal run) = literalCode run)

include hCode

/-- The routine for literals appends the codes of the literal tokens. -/
theorem putRuns_appends {slack : Nat} {input : Memory}
    {full part : (buf : Memory) → (dest src count : Nat) → Memory}
    (hFull : Copies slack input full maxCopy)
    (hPart : ∀ count < maxCopy, Copies slack input part count) (runs src : Nat) (out : Out) :
    Appends slack out (putRuns full part runs src out)
      ((literalTokens input runs src).flatMap code) := by
  induction runs, src using literalTokens.induct generalizing out with
  | case1 runs src hMore ih =>
      rw [putRuns, if_pos hMore, literalTokens, if_pos hMore, List.flatMap_cons, hCode]
      exact (Appends.run hFull out src).trans (ih _)
  | case2 runs src hLess hSome =>
      rw [putRuns, if_neg hLess, if_pos hSome, literalTokens, if_neg hLess, if_pos hSome,
        List.flatMap_singleton, hCode]
      exact Appends.run (hPart runs (by omega)) out src
  | case3 runs src hLess hNone =>
      rw [putRuns, if_neg hLess, if_neg hNone, literalTokens, if_neg hLess, if_neg hNone]
      exact Appends.refl slack out

/-- `flz_literals` appends the code of its tokens. -/
theorem flzLiterals_appends (build : Build) (input : Memory) (runs src : Nat) (out : Out) :
    Appends (copySlack build) out (flzLiterals build input runs src out)
      ((literalTokens input runs src).flatMap code) :=
  putRuns_appends hCode (copies_flzCopy256 _ input) (fun _ h => copies_flzCopy64 build input h)
    runs src out

/-- `flz_finalize` appends the code of its tokens. -/
theorem flzFinalize_appends (slack : Nat) (build : Build) (input : Memory) (runs src : Nat)
    (out : Out) :
    Appends slack out (flzFinalize build input runs src out)
      ((literalTokens input runs src).flatMap code) :=
  putRuns_appends hCode (copies_flzSmallcopy slack build input maxCopy)
    (fun count _ => copies_flzSmallcopy slack build input count) runs src out

end Literals

section Matches

/-- `flz1_match` appends the code of its tokens. -/
theorem flz1Match_appends (slack len distance : Nat) (out : Out) :
    Appends slack out (flz1Match len distance out) ((matchTokens1 len distance).flatMap code1) := by
  induction len using Nat.strong_induction_on generalizing out with
  | _ len ih =>
      rw [flz1Match, matchTokens1]
      by_cases hLong : maxLen - 2 < len
      · rw [if_pos hLong, if_pos hLong, List.flatMap_cons]
        have hSmaller : len - (maxLen - 2) < len := by
          simp only [maxLen] at *
          omega
        exact (((Appends.put slack _ _).trans (Appends.put slack _ _)).trans
          (Appends.put slack _ _)).trans (ih _ hSmaller _)
      · rw [if_neg hLong, if_neg hLong, List.flatMap_singleton, code1, Nat.add_sub_cancel]
        by_cases hShort : len < 7
        · rw [if_pos hShort, if_pos (by omega)]
          exact (Appends.put slack _ _).trans (Appends.put slack _ _)
        · rw [if_neg hShort, if_neg (by omega)]
          exact ((Appends.put slack _ _).trans (Appends.put slack _ _)).trans
            (Appends.put slack _ _)

theorem lengthCode_more {len : Nat} (h : 255 ≤ len) :
    lengthCode len = 255 :: lengthCode (len - 255) := by
  have hCount : len / 255 = (len - 255) / 255 + 1 := by omega
  have hLast : (len - 255) % 255 = len % 255 := by omega
  rw [lengthCode, lengthCode, hCount, hLast, List.replicate_succ, List.cons_append]

/-- `putLength` appends the code of a length. -/
theorem putLength_appends (slack len : Nat) (out : Out) :
    Appends slack out (putLength len out) (lengthCode len) := by
  induction len using Nat.strong_induction_on generalizing out with
  | _ len ih =>
      rw [putLength]
      by_cases hMore : 255 ≤ len
      · rw [if_pos hMore, lengthCode_more hMore]
        exact (Appends.put slack out 255).trans (ih _ (by omega) _)
      · have hCode : lengthCode len = [UInt8.ofNat len] := by
          rw [lengthCode, Nat.div_eq_of_lt (by omega), Nat.mod_eq_of_lt (by omega)]
          rfl
        rw [if_neg hMore, hCode]
        exact Appends.put slack out len

/-- `flz2_match` appends the code of one token. -/
theorem flz2Match_appends (slack len distance : Nat) (out : Out) :
    Appends slack out (flz2Match len distance out) (code2 (.copy distance (len + 2))) := by
  have hPut := Appends.put slack
  have hLength := putLength_appends slack
  simp only [flz2Match, code2, matchHead, Nat.add_sub_cancel]
  by_cases hNear : distance - 1 < maxL2Distance
  · rw [if_pos hNear, if_pos hNear]
    by_cases hShort : len < 7
    · rw [if_pos hShort, if_pos (by omega)]
      exact (hPut _ _).trans (hPut _ _)
    · rw [if_neg hShort, if_neg (by omega)]
      exact ((hPut _ _).trans (hLength _ _)).trans (hPut _ _)
  · rw [if_neg hNear, if_neg hNear]
    -- the three bytes of a far distance
    have hFar := fun head : Out => ((hPut head 255).trans
      (hPut _ ((distance - 1 - maxL2Distance) / 256))).trans
      (hPut _ ((distance - 1 - maxL2Distance) % 256))
    by_cases hShort : len < 7
    · rw [if_pos hShort, if_pos (by omega)]
      exact (hPut out (len * 32 + 31)).trans (hFar _)
    · rw [if_neg hShort, if_neg (by omega)]
      exact ((hPut out (7 * 32 + 31)).trans (hLength (len - 7) _)).trans (hFar _)

end Matches

end RiscvCkpt.Fastlz
