import RiscvCkpt.Fastlz.Format

/-! The compressors of FastLZ. A table holds for each hash of three bytes the place where
they were seen last; from there the match is extended as far as it goes. What is written
is described by a list of tokens, which the memory behind the input has no part in. -/
namespace RiscvCkpt.Fastlz

open ByteCodec ByteMemory Lz77

def flzReadu32 (p : Memory) (place : Nat) : Nat := wordValue (load p place 4)

/-- `flz_hash`, with `HASH_LOG` 14. -/
def flzHash (v : Nat) : Nat := v * 2654435769 / 2 ^ 18 % 2 ^ 14

/-- `while (q < r) if (*p++ != *q++) break;` with `left` bytes up to `r`: how far `p` moves.
A byte that differs is counted. -/
def cmpLoop (m : Memory) (p q : Nat) : Nat → Nat
  | 0 => 0
  | left + 1 => if m p ≠ m q then 1 else 1 + cmpLoop m (p + 1) (q + 1) left

/-- `flz_cmp`. The build for 64 bits first compares eight bytes, then four, wherever `r` is. -/
def flzCmp : Build → (m : Memory) → (p q r : Nat) → Nat
  | .portable, m, p, q, r => cmpLoop m p q (r - q)
  | .arch64, m, p, q, r =>
      let eight := if load m p 8 = load m q 8 then 8 else 0
      let four := if load m (p + eight) 4 = load m (q + eight) 4 then 4 else 0
      let start := eight + four
      start + cmpLoop m (p + start) (q + start) (r - (q + start))

/-- `seq`: the three bytes at a place. -/
def seqAt (input : Memory) (place : Nat) : Nat := flzReadu32 input place % 2 ^ 24

/-- `ref`: the place that the table has for the three bytes at `ip`. -/
def lastPlace (input : Memory) (htab : Nat → Nat) (ip : Nat) : Nat :=
  htab (flzHash (seqAt input ip))

/-- `htab[hash] = ip - ip_start`. -/
def notePlace (input : Memory) (htab : Nat → Nat) (ip : Nat) : Nat → Nat :=
  Function.update htab (flzHash (seqAt input ip)) ip

/-- `seq == cmp`. A place too far away gives a `cmp` of more than three bytes. -/
def sameSeq (input : Memory) (maxDistance : Nat) (htab : Nat → Nat) (ip : Nat) : Prop :=
  let ref := lastPlace input htab ip
  seqAt input ip = if ip - ref < maxDistance then seqAt input ref else 0x1000000

instance (input : Memory) (maxDistance : Nat) (htab : Nat → Nat) (ip : Nat) :
    Decidable (sameSeq input maxDistance htab ip) :=
  inferInstanceAs (Decidable (_ = _))

/-- A match that the search found, and the table it leaves. -/
structure Match where
  htab : Nat → Nat
  ip : Nat
  ref : Nat

/-- The inner loop: look for a match from `ip` on. `ip_limit` is 13 bytes before the end; if
the search gets there, the main loop is left. -/
def findMatch (input : Memory) (length maxDistance : Nat) (htab : Nat → Nat) (ip : Nat) :
    Option Match :=
  if length ≤ ip + 13 then none
  else if sameSeq input maxDistance htab ip then
    if length ≤ ip + 1 + 13 then none
    else some ⟨notePlace input htab ip, ip, lastPlace input htab ip⟩
  else findMatch input length maxDistance (notePlace input htab ip) (ip + 1)
  termination_by length - ip

structure Comp where
  htab : Nat → Nat
  ip : Nat
  anchor : Nat
  out : Out

/-- The variables before the loop: an empty table, and the search starts at the third byte. -/
def Comp.start (output : Memory) : Comp := ⟨fun _ => 0, 2, 0, ⟨output, 0⟩⟩

/-- The two updates of the table at the end of a match. -/
def hashBoundary (input : Memory) (htab : Nat → Nat) (ip : Nat) : Nat → Nat :=
  let seq := flzReadu32 input ip
  Function.update (Function.update htab (flzHash (seq % 2 ^ 24)) ip)
  (flzHash (seq / 2 ^ 8)) (ip + 1)

/-- The second half of the main loop: the literals in front of a match, and the match. -/
def takeMatch (build : Build) (putMatch : (len distance : Nat) → Out → Out) (input : Memory)
    (length : Nat) (anchor : Nat) (out : Out) (found : Match) : Comp :=
  let out :=
    if anchor < found.ip then flzLiterals build input (found.ip - anchor) anchor out else out
  let len := flzCmp build input (found.ref + 3) (found.ip + 3) (length - 4)
  let out := putMatch len (found.ip - found.ref) out
  let ip := found.ip + len
  ⟨hashBoundary input found.htab ip, ip + 2, ip + 2, out⟩

/-- What the search finds: the three bytes at `ip` stand at `ref` too, not too far away, and
in front of `ip` if the table knows of no later place. -/
structure Found (input : Memory) (length maxDistance : Nat) (htab : Nat → Nat) (ip : Nat)
    (found : Match) : Prop where
  later : ip ≤ found.ip
  inside : found.ip + 14 < length
  near : found.ip - found.ref < maxDistance
  same : seqAt input found.ip = seqAt input found.ref
  before : (∀ hash, htab hash < ip) → found.ref < found.ip ∧ ∀ hash, found.htab hash < found.ip + 1

theorem seqAt_lt (input : Memory) (place : Nat) : seqAt input place < 2 ^ 24 :=
  Nat.mod_lt _ (by decide)

/-- The test of the search: near enough, and the same three bytes. -/
theorem sameSeq_iff {input : Memory} {maxDistance ip : Nat} {htab : Nat → Nat} :
    sameSeq input maxDistance htab ip ↔ ip - lastPlace input htab ip < maxDistance ∧
      seqAt input ip = seqAt input (lastPlace input htab ip) := by
  have hLt := seqAt_lt input ip
  simp only [sameSeq]
  split
  · next hNear => exact (and_iff_right hNear).symm
  · next hFar =>
      refine iff_of_false (by omega) fun h => hFar h.1

/-- The table holds places in front of the next one. -/
theorem update_lt {htab : Nat → Nat} {ip : Nat} (h : ∀ hash, htab hash < ip) (hash : Nat) :
    ∀ hash', Function.update htab hash ip hash' < ip + 1 := by
  intro hash'
  rw [Function.update_apply]
  split
  · exact Nat.lt_succ_self ip
  · exact Nat.lt_succ_of_lt (h hash')

/-- What the search finds: a place before, within the distance, with the same three bytes. -/
theorem findMatch_found {input : Memory} {length maxDistance ip : Nat} {htab : Nat → Nat}
    {found : Match} (h : findMatch input length maxDistance htab ip = some found) :
    Found input length maxDistance htab ip found := by
  induction htab, ip using findMatch.induct input length maxDistance with
  | case1 htab ip hEnd =>
      rw [findMatch, if_pos hEnd] at h
      exact absurd h (by simp)
  | case2 htab ip hMore hSame hEnd =>
      rw [findMatch, if_neg hMore, if_pos hSame, if_pos hEnd] at h
      exact absurd h (by simp)
  | case3 htab ip hMore hSame hInside =>
      rw [findMatch, if_neg hMore, if_pos hSame, if_neg hInside] at h
      obtain rfl := Option.some.inj h
      obtain ⟨hNear, hBytes⟩ := sameSeq_iff.mp hSame
      have hBefore : ip + 14 < length := by omega
      exact ⟨Nat.le_refl ip, hBefore, hNear, hBytes, fun hTable => ⟨hTable _, update_lt hTable _⟩⟩
  | case4 htab ip hMore hDiffer ih =>
      rw [findMatch, if_neg hMore, if_neg hDiffer] at h
      have hFound := ih h
      exact ⟨Nat.le_of_succ_le hFound.later, hFound.inside, hFound.near, hFound.same,
        fun hTable => hFound.before (update_lt hTable _)⟩

/-- The main loop of `fastlz1_compress`. -/
def fastlz1Loop (build : Build) (input : Memory) (length : Nat) (c : Comp) : Comp :=
  if c.ip + 13 < length then
    match _h : findMatch input length maxL1Distance c.htab c.ip with
    | none => c
    | some found =>
        fastlz1Loop build input length (takeMatch build flz1Match input length c.anchor c.out found)
  else c
  termination_by length - c.ip
  decreasing_by
    have hLater := (findMatch_found _h).later
    simp only [takeMatch]
    omega

section Loop1

variable {build : Build} {input : Memory} {length : Nat} {c : Comp} {found : Match}

theorem fastlz1Loop_stop
    (h : c.ip + 13 < length → findMatch input length maxL1Distance c.htab c.ip = none) :
    fastlz1Loop build input length c = c := by
  rw [fastlz1Loop]
  split
  · next hMore =>
      split
      · rfl
      · next hSome => exact absurd (h hMore ▸ hSome) (by simp)
  · rfl

theorem fastlz1Loop_match (hMore : c.ip + 13 < length)
    (h : findMatch input length maxL1Distance c.htab c.ip = some found) :
    fastlz1Loop build input length c =
      fastlz1Loop build input length
        (takeMatch build flz1Match input length c.anchor c.out found) := by
  rw [fastlz1Loop, if_pos hMore]
  split
  · next hNone => exact absurd (hNone ▸ h) (by simp)
  · next hSome => rw [Option.some.inj (h.symm.trans hSome)]

end Loop1

/-- `fastlz1_compress`: the output buffer, and the size of the result as the end of what is
written. -/
def fastlz1Compress (build : Build) (input : Memory) (length : Nat) (output : Memory) : Out :=
  let c := fastlz1Loop build input length (Comp.start output)
  flzFinalize build input (length - c.anchor) c.anchor c.out

/-- The test of `fastlz2_compress` for a match that is far away: it needs five bytes. -/
def tooShort (input : Memory) (found : Match) : Prop :=
  maxL2Distance ≤ found.ip - found.ref ∧
    (input (found.ref + 3) ≠ input (found.ip + 3) ∨ input (found.ref + 4) ≠ input (found.ip + 4))

instance (input : Memory) (found : Match) : Decidable (tooShort input found) :=
  inferInstanceAs (Decidable (_ ∧ _))

/-- The main loop of `fastlz2_compress`. -/
def fastlz2Loop (build : Build) (input : Memory) (length : Nat) (c : Comp) : Comp :=
  if c.ip + 13 < length then
    match h : findMatch input length maxFarDistance c.htab c.ip with
    | none => c
    | some found =>
        if tooShort input found then
          fastlz2Loop build input length ⟨found.htab, found.ip + 1, c.anchor, c.out⟩
        else
          fastlz2Loop build input length
            (takeMatch build flz2Match input length c.anchor c.out found)
  else c
  termination_by length - c.ip
  decreasing_by
    · have hLater := (findMatch_found h).later
      omega
    · have hLater := (findMatch_found h).later
      simp only [takeMatch]
      omega

section Loop2

variable {build : Build} {input : Memory} {length : Nat} {c : Comp} {found : Match}

theorem fastlz2Loop_stop
    (h : c.ip + 13 < length → findMatch input length maxFarDistance c.htab c.ip = none) :
    fastlz2Loop build input length c = c := by
  rw [fastlz2Loop]
  split
  · next hMore =>
      split
      · rfl
      · next hSome => exact absurd (h hMore ▸ hSome) (by simp)
  · rfl

theorem fastlz2Loop_match (hMore : c.ip + 13 < length)
    (h : findMatch input length maxFarDistance c.htab c.ip = some found) :
    fastlz2Loop build input length c =
      if tooShort input found then
        fastlz2Loop build input length ⟨found.htab, found.ip + 1, c.anchor, c.out⟩
      else
        fastlz2Loop build input length
          (takeMatch build flz2Match input length c.anchor c.out found) := by
  rw [fastlz2Loop, if_pos hMore]
  split
  · next hNone => exact absurd (hNone ▸ h) (by simp)
  · next hSome => rw [Option.some.inj (h.symm.trans hSome)]

end Loop2

/-- `*(uint8_t*)output |= (1 << 5)`. -/
def Out.mark (out : Out) : Out := ⟨store out.buf 0 [out.buf 0 ||| 32], out.op⟩

/-- `fastlz2_compress`. The level is marked in the first byte at the end. -/
def fastlz2Compress (build : Build) (input : Memory) (length : Nat) (output : Memory) : Out :=
  let c := fastlz2Loop build input length (Comp.start output)
  (flzFinalize build input (length - c.anchor) c.anchor c.out).mark

def fastlzCompressLevel (build : Build) (level : Nat) (input : Memory) (length : Nat)
    (output : Memory) : Out :=
  if level = 1 then fastlz1Compress build input length output
  else if level = 2 then fastlz2Compress build input length output
  else ⟨output, 0⟩

end RiscvCkpt.Fastlz
