import RiscvCkpt.Fastlz.Compress

/-! The tokens that a compressor writes. They repeat the input exactly, a match refers to
bytes that are there already, and every token can be coded. A match saves at least one byte,
so that the result is longer than the input by one byte in 32 at most, and one more. -/
namespace RiscvCkpt.Fastlz

open ByteCodec ByteMemory Lz77

/-- What the two levels differ in. The tokens of a match repeat the bytes at its distance,
two more than `flz_cmp` counts. -/
structure Level where
  maxDistance : Nat
  tooShort : Memory → Match → Bool
  matchTokens : (len distance : Nat) → List (Token UInt8)
  code : Token UInt8 → List UInt8
  code_literal : ∀ run, code (.literal run) = literalCode run
  copies : ∀ {len distance : Nat}, 1 ≤ len → ∀ token ∈ matchTokens len distance,
    ∃ length, 3 ≤ length ∧ token = .copy distance length
  expands : ∀ (len distance : Nat) (text : List UInt8),
    expandAll text (matchTokens len distance) = repeatBack distance text (len + 2)

/-- A long match is cut into copies that level 1 can write. -/
theorem matchTokens1_copies {len distance : Nat} (h : 1 ≤ len) :
    ∀ token ∈ matchTokens1 len distance, ∃ length, 3 ≤ length ∧ length ≤ maxLen ∧
      token = .copy distance length := by
  induction len using Nat.strong_induction_on with
  | _ len ih =>
      intro token hToken
      rw [matchTokens1] at hToken
      by_cases hLong : maxLen - 2 < len
      · rw [if_pos hLong] at hToken
        simp only [maxLen] at *
        rcases List.mem_cons.mp hToken with rfl | hRest
        · exact ⟨_, by omega, by omega, rfl⟩
        · exact ih _ (by omega) (by omega) token hRest
      · rw [if_neg hLong] at hToken
        obtain rfl := List.mem_singleton.mp hToken
        exact ⟨len + 2, by omega, by omega, rfl⟩

/-- The parts of a match that is cut expand to the whole match. -/
theorem matchTokens1_expands (len distance : Nat) (text : List UInt8) :
    expandAll text (matchTokens1 len distance) = repeatBack distance text (len + 2) := by
  induction len using Nat.strong_induction_on generalizing text with
  | _ len ih =>
      rw [matchTokens1]
      split
      · next hLong =>
          have hSmaller : len - (maxLen - 2) < len := by
            simp only [maxLen] at *
            omega
          have hSum : len + 2 = maxLen - 2 + (len - (maxLen - 2) + 2) := by omega
          rw [expandAll_cons, Token.expand, ih _ hSmaller, hSum, ← repeatBack_add]
      · rfl

/-- `fastlz1_compress`. -/
def level1 : Level where
  maxDistance := maxL1Distance
  tooShort := fun _ _ => false
  matchTokens := matchTokens1
  code := code1
  code_literal := fun _ => rfl
  copies := fun hLen token hToken =>
    let ⟨length, hLow, _, hCopy⟩ := matchTokens1_copies hLen token hToken
    ⟨length, hLow, hCopy⟩
  expands := matchTokens1_expands

/-- `fastlz2_compress`. -/
def level2 : Level where
  maxDistance := maxFarDistance
  tooShort := fun input found => tooShort input found
  matchTokens := fun len distance => [.copy distance (len + 2)]
  code := code2
  code_literal := fun _ => rfl
  copies := fun {len _} hLen _ hToken => ⟨len + 2, by omega, List.mem_singleton.mp hToken⟩
  expands := fun _ _ _ => rfl

theorem level1_tooShort (input : Memory) (found : Match) : ¬ level1.tooShort input found :=
  Bool.false_ne_true

theorem level2_tooShort {input : Memory} {found : Match} :
    level2.tooShort input found ↔ tooShort input found := decide_eq_true_iff

/-- The length of a match that was found, without its last two bytes. -/
def matchLen (build : Build) (input : Memory) (length : Nat) (found : Match) : Nat :=
  flzCmp build input (found.ref + 3) (found.ip + 3) (length - 4)

/-- The tokens for the input from `anchor` on, when the search goes on at `ip`. -/
def parse (level : Level) (build : Build) (input : Memory) (length : Nat) (htab : Nat → Nat)
    (ip anchor : Nat) : List (Token UInt8) :=
  if ip + 13 < length then
    match _h : findMatch input length level.maxDistance htab ip with
    | none => literalTokens input (length - anchor) anchor
    | some found =>
        if level.tooShort input found then
          parse level build input length found.htab (found.ip + 1) anchor
        else
          let len := matchLen build input length found
          literalTokens input (found.ip - anchor) anchor ++
            (level.matchTokens len (found.ip - found.ref) ++
              parse level build input length (hashBoundary input found.htab (found.ip + len))
                (found.ip + len + 2) (found.ip + len + 2))
  else literalTokens input (length - anchor) anchor
  termination_by length - ip
  decreasing_by
    · have hLater := (findMatch_found _h).later
      omega
    · have hLater := (findMatch_found _h).later
      omega

section Unfold

variable {level : Level} {build : Build} {input : Memory} {length : Nat} {htab : Nat → Nat}
  {ip anchor : Nat} {found : Match}

/-- Where no match is left, the rest is literal. -/
theorem parse_stop
    (h : ip + 13 < length → findMatch input length level.maxDistance htab ip = none) :
    parse level build input length htab ip anchor = literalTokens input
      (length - anchor) anchor := by
  rw [parse]
  split
  · next hMore =>
      split
      · rfl
      · next hSome => exact absurd (h hMore ▸ hSome) (by simp)
  · rfl

/-- A match that is long enough ends the literals in front of it. -/
theorem parse_match (hMore : ip + 13 < length)
    (h : findMatch input length level.maxDistance htab ip = some found) :
    parse level build input length htab ip anchor =
      if level.tooShort input found then
        parse level build input length found.htab (found.ip + 1) anchor
      else
        literalTokens input (found.ip - anchor) anchor ++
          (level.matchTokens (matchLen build input length found) (found.ip - found.ref) ++
            parse level build input length
              (hashBoundary input found.htab (found.ip + matchLen build input length found))
              (found.ip + matchLen build input length found + 2)
              (found.ip + matchLen build input length found + 2)) := by
  rw [parse, if_pos hMore]
  split
  · next hNone => exact absurd (hNone ▸ h) (by simp)
  · next hSome => rw [Option.some.inj (h.symm.trans hSome)]

end Unfold

section Comparison

variable (m : Memory) (p q left : Nat)

theorem cmpLoop_le : cmpLoop m p q left ≤ left := by
  induction left generalizing p q with
  | zero => exact Nat.le_refl 0
  | succ left ih =>
      have hRest := ih (p + 1) (q + 1)
      rw [cmpLoop]
      split <;> omega

theorem cmpLoop_pos (h : 0 < left) : 1 ≤ cmpLoop m p q left := by
  obtain ⟨left, rfl⟩ := Nat.exists_eq_succ_of_ne_zero (Nat.ne_of_gt h)
  rw [cmpLoop]
  split <;> omega

/-- All bytes that the loop passes agree, except the last one perhaps. -/
theorem cmpLoop_same {i : Nat} (h : i + 1 < cmpLoop m p q left) : m (p + i) = m (q + i) := by
  induction left generalizing p q i with
  | zero => exact absurd h (Nat.not_lt_zero _)
  | succ left ih =>
      rw [cmpLoop] at h
      split at h
      · omega
      · next hFirst =>
          cases i with
          | zero => exact not_not.mp hFirst
          | succ i =>
              have hLater := ih (p + 1) (q + 1) (i := i) (by omega)
              rwa [Nat.add_right_comm p, Nat.add_right_comm q] at hLater

/-- `flz_cmp` is the loop, from a place that it reaches by comparing words. -/
theorem flzCmp_eq (build : Build) (r : Nat) :
    ∃ start ≤ 12, start % 4 = 0 ∧ (∀ i < start, m (p + i) = m (q + i)) ∧
      flzCmp build m p q r = start + cmpLoop m (p + start) (q + start) (r - (q + start)) := by
  cases build with
  | portable => exact ⟨0, Nat.zero_le _, rfl, fun i hi => absurd hi (Nat.not_lt_zero i),
    (Nat.zero_add _).symm⟩
  | arch64 =>
      have hWords : ∀ {p q n : Nat}, ∀ i < if load m p n = load m q n then n else 0,
          m (p + i) = m (q + i) := by
        intro p q n i hi
        split at hi
        · next hSame =>
            have hByte := congrArg (fun bytes => bytes.getD i 0) hSame
            simpa only [load_getD hi] using hByte
        · exact absurd hi (Nat.not_lt_zero i)
      refine ⟨_, ?_, ?_, ?_, rfl⟩
      · split_ifs <;> omega
      · split_ifs <;> omega
      · intro i hi
        by_cases hEight : i < if load m p 8 = load m q 8 then 8 else 0
        · exact hWords i hEight
        · generalize (if load m p 8 = load m q 8 then 8 else 0) = eight at *
          have hFour := @hWords (p + eight) (q + eight) 4 (i - eight) (by omega)
          rwa [Nat.add_assoc, Nat.add_assoc, Nat.add_sub_cancel' (by omega)] at hFour

/-- What `flz_cmp` returns for places below `r`. -/
theorem flzCmp_spec (build : Build) {r : Nat} (h : q < r) :
    1 ≤ flzCmp build m p q r ∧ (q + flzCmp build m p q r ≤ r ∨ flzCmp build m p q r ≤ 12) ∧
      ∀ i, i + 1 < flzCmp build m p q r → m (p + i) = m (q + i) := by
  obtain ⟨start, hStart, -, hWords, hCmp⟩ := flzCmp_eq m p q build r
  have hLe := cmpLoop_le m (p + start) (q + start) (r - (q + start))
  rw [hCmp]
  refine ⟨?_, by omega, fun i hi => ?_⟩
  · by_cases hNone : start = 0
    · have hPos := cmpLoop_pos m (p + start) (q + start) (r - (q + start)) (by omega)
      omega
    · omega
  · by_cases hBefore : i < start
    · exact hWords i hBefore
    · have hLater :=
        cmpLoop_same m (p + start) (q + start) (r - (q + start)) (i := i - start) (by omega)
      rwa [Nat.add_assoc, Nat.add_assoc, Nat.add_sub_cancel' (by omega)] at hLater

end Comparison

section Sequences

/-- Only three of the four bytes that are read at a place count. -/
theorem seqAt_eq (input : Memory) (place : Nat) : seqAt input place =
    (input place).toNat + 256 * ((input (place + 1)).toNat + 256 * (input (place + 2)).toNat) := by
  have hFirst := (input place).toNat_lt
  have hSecond := (input (place + 1)).toNat_lt
  have hThird := (input (place + 2)).toNat_lt
  have hWord : flzReadu32 input place = (input place).toNat + 256 * ((input (place + 1)).toNat +
      256 * ((input (place + 2)).toNat + 256 * (input (place + 3)).toNat)) := rfl
  rw [seqAt, hWord]
  omega

/-- Places with the same three bytes. -/
theorem seqAt_same {input : Memory} {p q : Nat} (h : seqAt input p = seqAt input q) :
    ∀ i < 3, input (p + i) = input (q + i) := by
  have hByte : ∀ place, (input place).toNat < 256 := fun place => (input place).toNat_lt
  have hP := hByte p
  have hP1 := hByte (p + 1)
  have hP2 := hByte (p + 2)
  have hQ := hByte q
  have hQ1 := hByte (q + 1)
  have hQ2 := hByte (q + 2)
  rw [seqAt_eq, seqAt_eq] at h
  intro i hi
  apply UInt8.toNat_inj.mp
  obtain rfl | rfl | rfl : i = 0 ∨ i = 1 ∨ i = 2 := by omega
  · rw [Nat.add_zero, Nat.add_zero]
    omega
  · omega
  · omega

/-- Memories that agree on the three bytes. -/
theorem seqAt_congr {input input' : Memory} {place : Nat}
    (h : ∀ i < 3, input (place + i) = input' (place + i)) :
    seqAt input place = seqAt input' place := by
  rw [seqAt_eq, seqAt_eq, ← h 1 (by omega), ← h 2 (by omega)]
  have hFirst := h 0 (by omega)
  rw [Nat.add_zero] at hFirst
  rw [hFirst]

end Sequences

/-- A match that is taken: where its bytes stand, and how long it is. -/
structure Usable (level : Level) (build : Build) (input : Memory) (length anchor : Nat)
    (found : Match) :
    Prop where
  behind : anchor ≤ found.ip
  limit : found.ip + 14 < length
  before : found.ref < found.ip
  near : found.ip - found.ref < level.maxDistance
  some : 1 ≤ matchLen build input length found
  inside : found.ip + matchLen build input length found + 2 < length
  same : ∀ i < matchLen build input length found + 2, input (found.ref + i) = input (found.ip + i)
  kept : ¬ level.tooShort input found

/-- A match that has been found and is not too short can be taken. -/
theorem usable_of_found {level : Level} (build : Build) {input : Memory} {length ip anchor : Nat}
    {htab : Nat → Nat} {found : Match} (hFound : Found input length level.maxDistance htab ip found)
    (hTable : ∀ hash, htab hash < ip) (hAnchor : anchor ≤ ip)
    (hKept : ¬ level.tooShort input found) :
    Usable level build input length anchor found := by
  have hLater := hFound.later
  have hInside := hFound.inside
  have hCmp := flzCmp_spec input (found.ref + 3) (found.ip + 3) build (r := length - 4) (by omega)
  rw [← matchLen] at hCmp
  obtain ⟨hPos, hEnd, hSame⟩ := hCmp
  refine ⟨by omega, hInside, (hFound.before hTable).1, hFound.near, hPos,
    by omega, fun i hi => ?_, hKept⟩
  by_cases hSeq : i < 3
  · exact (seqAt_same hFound.same i hSeq).symm
  · have hByte := hSame (i - 3) (by omega)
    rwa [Nat.add_assoc, Nat.add_assoc, Nat.add_sub_cancel' (by omega)] at hByte

/-- The table after a match knows of places before its end only. -/
theorem hashBoundary_lt {input : Memory} {htab : Nat → Nat} {ip ip' : Nat}
    (hTable : ∀ hash, htab hash < ip)
    (hLe : ip ≤ ip') (hash : Nat) : hashBoundary input htab ip' hash < ip' + 2 :=
  update_lt (update_lt (fun hash => Nat.lt_of_lt_of_le (hTable hash) hLe) _) _ hash

/-- What holds of the tokens: it holds of the literals at the end, and it is kept when
the literals and the match of one round are put in front. -/
theorem parse_rec {level : Level} {build : Build} {input : Memory} {length : Nat}
    {motive : Nat → List (Token UInt8) → Prop}
    (stop : ∀ anchor < length, motive anchor (literalTokens input (length - anchor) anchor))
    (step : ∀ anchor found tokens, Usable level build input length anchor found →
      motive (found.ip + matchLen build input length found + 2) tokens →
      motive anchor (literalTokens input (found.ip - anchor) anchor ++
        (level.matchTokens (matchLen build input length found) (found.ip - found.ref) ++ tokens)))
    {htab : Nat → Nat} {ip anchor : Nat} (hTable : ∀ hash, htab hash < ip) (hAnchor : anchor ≤ ip)
    (hLength : anchor < length) :
    motive anchor (parse level build input length htab ip anchor) := by
  induction htab, ip, anchor using parse.induct level build input length with
  | case1 htab ip anchor hMore hNone =>
      rw [parse_stop fun _ => hNone]
      exact stop anchor hLength
  | case2 htab ip anchor hMore found hSome hShort ih =>
      have hFound := findMatch_found hSome
      have hLater := hFound.later
      rw [parse_match hMore hSome, if_pos hShort]
      exact ih (hFound.before hTable).2 (by omega) hLength
  | case3 htab ip anchor hMore found hSome hKept len ih =>
      have hFound := findMatch_found hSome
      have hUsable := usable_of_found build hFound hTable hAnchor hKept
      have hBoundary : ∀ hash, hashBoundary input found.htab (found.ip + len) hash <
          found.ip + len + 2 :=
        hashBoundary_lt (hFound.before hTable).2 (Nat.add_le_add_left hUsable.some _)
      rw [parse_match hMore hSome, if_neg hKept]
      exact step anchor found _ hUsable (ih hBoundary (Nat.le_refl _) hUsable.inside)
  | case4 htab ip anchor hLess =>
      rw [parse_stop fun hMore => absurd hMore hLess]
      exact stop anchor hLength

section Literals

variable (input : Memory) (runs src : Nat)

/-- The literal tokens of a run expand to the run. -/
theorem literalTokens_expands :
    expandAll (load input 0 src) (literalTokens input runs src) = load input 0 (src + runs) := by
  induction runs, src using literalTokens.induct with
  | case1 runs src hMore ih =>
      have hNext : load input 0 src ++ load input src maxCopy = load input 0 (src + maxCopy) := by
        rw [load_add, Nat.zero_add]
      rw [literalTokens, if_pos hMore, expandAll_cons, Token.expand, hNext, ih, Nat.add_assoc,
        Nat.add_sub_cancel' hMore]
  | case2 runs src hLess hSome =>
      rw [literalTokens, if_neg hLess, if_pos hSome, expandAll_cons, Token.expand,
        expandAll_nil, load_add, Nat.zero_add]
  | case3 runs src hLess hNone =>
      rw [literalTokens, if_neg hLess, if_neg hNone, Nat.eq_zero_of_not_pos hNone]
      rfl

/-- The literal tokens of a run are as long as a control byte can say. -/
theorem literalTokens_literal : ∀ token ∈ literalTokens input runs src,
    ∃ run : List UInt8, 1 ≤ run.length ∧ run.length ≤ maxCopy ∧ token = .literal run := by
  induction runs, src using literalTokens.induct with
  | case1 runs src hMore ih =>
      rw [literalTokens, if_pos hMore]
      intro token hToken
      rcases List.mem_cons.mp hToken with rfl | hRest
      · exact ⟨_, by rw [load_length]; decide, Nat.le_of_eq (load_length ..), rfl⟩
      · exact ih token hRest
  | case2 runs src hLess hSome =>
      rw [literalTokens, if_neg hLess, if_pos hSome]
      intro token hToken
      obtain rfl := List.mem_singleton.mp hToken
      exact ⟨_, by rwa [load_length], by rw [load_length]; omega, rfl⟩
  | case3 runs src hLess hNone =>
      rw [literalTokens, if_neg hLess, if_neg hNone]
      exact fun token hToken => absurd hToken (List.not_mem_nil)

/-- A run of literals costs one byte for each 32 it starts. -/
theorem literalTokens_cost {code : Token UInt8 → List UInt8}
    (hCode : ∀ run, code (.literal run) = literalCode run) :
    ((literalTokens input runs src).flatMap code).length = runs + (runs + 31) / 32 := by
  induction runs, src using literalTokens.induct with
  | case1 runs src hMore ih =>
      rw [literalTokens, if_pos hMore, List.flatMap_cons, List.length_append, ih, hCode,
        literalCode, List.length_cons, load_length]
      simp only [maxCopy] at *
      omega
  | case2 runs src hLess hSome =>
      rw [literalTokens, if_neg hLess, if_pos hSome, List.flatMap_singleton, hCode, literalCode,
        List.length_cons, load_length]
      simp only [maxCopy] at *
      omega
  | case3 runs src hLess hNone =>
      rw [literalTokens, if_neg hLess, if_neg hNone, List.flatMap_nil, List.length_nil]
      omega

end Literals

section Tokens

variable (level : Level) (build : Build) (input : Memory) {length : Nat} {htab : Nat → Nat}
  {ip anchor : Nat}

/-- The tokens repeat the input. -/
theorem parse_expands (hTable : ∀ hash, htab hash < ip) (hAnchor : anchor ≤ ip)
    (hLength : anchor < length) :
    expandAll (load input 0 anchor) (parse level build input length htab ip anchor) =
      load input 0 length := by
  refine parse_rec (motive := fun anchor tokens =>
    expandAll (load input 0 anchor) tokens = load input 0 length) ?_ ?_ hTable hAnchor hLength
  · intro anchor hEnd
    rw [literalTokens_expands, Nat.add_sub_cancel' (Nat.le_of_lt hEnd)]
  · intro anchor found tokens h ih
    have hBefore := h.before
    have hRepeat : repeatBack (found.ip - found.ref) (load input 0 found.ip)
        (matchLen build input length found + 2) =
        load input 0 (found.ip + (matchLen build input length found + 2)) := by
      apply repeatBack_range (by omega) (by omega)
      intro i hi
      have hByte := h.same i hi
      rwa [Nat.zero_add, Nat.zero_add, Nat.sub_sub_self (Nat.le_of_lt hBefore)]
    rw [expandAll_append, literalTokens_expands, Nat.add_sub_cancel' h.behind, expandAll_append,
      level.expands, hRepeat, ← Nat.add_assoc, ih]

/-- Every match refers to bytes in front of it. -/
theorem parse_reaches (hTable : ∀ hash, htab hash < ip) (hAnchor : anchor ≤ ip)
    (hLength : anchor < length) :
    ReachesAll anchor (parse level build input length htab ip anchor) := by
  have hLiterals : ∀ runs src before, ReachesAll before (literalTokens input runs src) := by
    intro runs src before
    apply reachesAll_of_forall
    intro token hToken before _
    obtain ⟨run, -, -, rfl⟩ := literalTokens_literal input runs src token hToken
    trivial
  have hSizes : ∀ runs src, ((literalTokens input runs src).map Token.size).sum = runs := by
    intro runs src
    have hExpand := literalTokens_expands input runs src
    have hSum := expandAll_length (load input 0 src) (hLiterals runs src (load input 0 src).length)
    rw [hExpand, load_length, load_length] at hSum
    omega
  refine parse_rec (motive := ReachesAll) (fun anchor _ => hLiterals _ _ _) ?_ hTable
    hAnchor hLength
  intro anchor found tokens h ih
  have hBefore := h.before
  have hMatch : ReachesAll found.ip
      (level.matchTokens (matchLen build input length found) (found.ip - found.ref)) := by
    apply reachesAll_of_forall
    intro token hToken before hLe
    obtain ⟨length, -, rfl⟩ := level.copies h.some token hToken
    exact ⟨by omega, by omega⟩
  have hSum := expandAll_length (load input 0 found.ip) (by rwa [load_length])
  rw [level.expands, repeatBack_length (by omega) (by rw [load_length]; omega), load_length] at hSum
  rw [reachesAll_append, hSizes, Nat.add_sub_cancel' h.behind, reachesAll_append, ← hSum]
  exact ⟨hLiterals _ _ _, hMatch, ih⟩

/-- The last token is a literal. -/
theorem parse_last (hTable : ∀ hash, htab hash < ip) (hAnchor : anchor ≤ ip)
    (hLength : anchor < length) :
    ∃ front run, parse level build input length htab ip anchor = front ++ [.literal run] := by
  refine parse_rec (motive := fun _ tokens => ∃ front run, tokens = front ++ [.literal run]) ?_ ?_
    hTable hAnchor hLength
  · intro anchor hEnd
    have hSome : literalTokens input (length - anchor) anchor ≠ [] := by
      rw [literalTokens]
      split
      · exact List.cons_ne_nil _ _
      · rw [if_pos (by omega)]
        exact List.cons_ne_nil _ _
    have hLast := List.dropLast_concat_getLast hSome
    obtain ⟨run, -, -, hRun⟩ := literalTokens_literal input _ _ _ (List.getLast_mem hSome)
    exact ⟨_, run, by rw [← hRun, hLast]⟩
  · intro anchor found tokens h ih
    obtain ⟨front, run, rfl⟩ := ih
    rw [← List.append_assoc, ← List.append_assoc]
    exact ⟨_, run, rfl⟩

variable {level build input}

/-- What holds of literals of up to 32 bytes and of the copies of all matches that are taken
holds of all tokens. -/
theorem parse_forall {p : Token UInt8 → Prop}
    (hLiteral : ∀ run : List UInt8, 1 ≤ run.length → run.length ≤ maxCopy → p (.literal run))
    (hMatch : ∀ anchor found, Usable level build input length anchor found → ∀ token ∈
      level.matchTokens (matchLen build input length found) (found.ip - found.ref), p token)
    (hTable : ∀ hash, htab hash < ip) (hAnchor : anchor ≤ ip) (hLength : anchor < length) :
    ∀ token ∈ parse level build input length htab ip anchor, p token := by
  have hLiterals : ∀ runs src, ∀ token ∈ literalTokens input runs src, p token := by
    intro runs src token hToken
    obtain ⟨run, hLow, hHigh, rfl⟩ := literalTokens_literal input runs src token hToken
    exact hLiteral run hLow hHigh
  refine parse_rec (motive := fun _ tokens => ∀ token ∈ tokens, p token)
    (fun anchor _ => hLiterals _ _) ?_ hTable hAnchor hLength
  intro anchor found tokens h ih token hToken
  rcases List.mem_append.mp hToken with hFirst | hRest
  · exact hLiterals _ _ token hFirst
  · rcases List.mem_append.mp hRest with hCopy | hLater
    · exact hMatch anchor found h token hCopy
    · exact ih token hLater

/-- If every match saves a byte, the code is longer than the input by one byte in 32, and one. -/
theorem parse_cost (hSaves : ∀ anchor found, Usable level build input length anchor found →
      ((level.matchTokens (matchLen build input length found) (found.ip - found.ref)).flatMap
        level.code).length ≤ matchLen build input length found + 1)
    (hTable : ∀ hash, htab hash < ip) (hAnchor : anchor ≤ ip) (hLength : anchor < length) :
    ((parse level build input length htab ip anchor).flatMap level.code).length ≤
      (length - anchor) + (length - anchor) / 32 + 1 := by
  refine parse_rec (motive := fun anchor tokens => (tokens.flatMap level.code).length ≤
    (length - anchor) + (length - anchor) / 32 + 1) ?_ ?_ hTable hAnchor hLength
  · intro anchor hEnd
    rw [literalTokens_cost _ _ _ level.code_literal]
    omega
  · intro anchor found tokens h ih
    have hBehind := h.behind
    have hInside := h.inside
    have hMatch := hSaves anchor found h
    rw [List.flatMap_append, List.flatMap_append, List.length_append, List.length_append,
      literalTokens_cost _ _ _ level.code_literal]
    omega

end Tokens

section Saves

variable {build : Build} {input : Memory} {length anchor : Nat} {found : Match}

/-- Bytes that agree make the comparison go on. -/
theorem cmpLoop_ge {m : Memory} {p q left n : Nat} (hSame : ∀ i < n, m (p + i) = m (q + i))
    (hLeft : n < left) : n + 1 ≤ cmpLoop m p q left := by
  induction n generalizing p q left with
  | zero => exact cmpLoop_pos m p q left hLeft
  | succ n ih =>
      obtain ⟨left, rfl⟩ :=
        Nat.exists_eq_succ_of_ne_zero (Nat.ne_of_gt (Nat.lt_of_le_of_lt (Nat.zero_le _) hLeft))
      have hFirst := hSame 0 (Nat.succ_pos n)
      rw [Nat.add_zero, Nat.add_zero] at hFirst
      have hRest := @ih (p + 1) (q + 1) left (fun i hi => by
        have hByte := hSame (i + 1) (by omega)
        rwa [Nat.add_right_comm p, Nat.add_right_comm q]) (by omega)
      rw [cmpLoop, if_neg (not_not.mpr hFirst)]
      omega

/-- A far match that is taken has at least five bytes. -/
theorem far_matchLen (h : Usable level2 build input length anchor found)
    (hFar : maxL2Distance ≤ found.ip - found.ref) : 3 ≤ matchLen build input length found := by
  have hKept : ¬ tooShort input found := fun hShort => h.kept (level2_tooShort.mpr hShort)
  rw [tooShort, not_and, not_or, not_not, not_not] at hKept
  obtain ⟨hThird, hFourth⟩ := hKept hFar
  have hLimit := h.limit
  have hBytes : ∀ i < 2, input (found.ref + 3 + i) = input (found.ip + 3 + i) := by
    intro i hi
    obtain rfl | rfl : i = 0 ∨ i = 1 := by omega
    · exact hThird
    · exact hFourth
  obtain ⟨start, -, hWords, -, hCmp⟩ :=
    flzCmp_eq input (found.ref + 3) (found.ip + 3) build (length - 4)
  rw [matchLen, hCmp]
  by_cases hNone : start = 0
  · subst hNone
    have hLoop := @cmpLoop_ge _ _ _ (length - 4 - (found.ip + 3)) _ hBytes (by omega)
    rwa [Nat.zero_add]
  · omega

/-- At level 1 a match takes no more bytes than it stands for. -/
theorem matchTokens1_saves {len : Nat} (h : 1 ≤ len) (distance : Nat) :
    ((matchTokens1 len distance).flatMap code1).length ≤ len + 1 := by
  have hCode : ∀ length, (code1 (.copy distance length)).length = if length < 9 then 2 else 3 := by
    intro length
    rw [code1]
    split <;> rfl
  induction len using Nat.strong_induction_on with
  | _ len ih =>
      rw [matchTokens1]
      by_cases hLong : maxLen - 2 < len
      · rw [if_pos hLong, List.flatMap_cons, List.length_append, hCode, if_neg (by decide)]
        simp only [maxLen] at *
        have hRest := ih (len - (264 - 2)) (by omega) (by omega)
        omega
      · rw [if_neg hLong, List.flatMap_singleton, hCode]
        split <;> omega

theorem matchHead_length (length high : Nat) :
    (matchHead length high).length = if length < 9 then 1 else 2 + (length - 9) / 255 := by
  rw [matchHead]
  split
  · rfl
  · rw [List.length_cons, lengthCode, List.length_append, List.length_replicate,
      List.length_singleton]
    omega

/-- At level 2 a match takes no more bytes than it stands for. -/
theorem code2_saves (h : Usable level2 build input length anchor found) :
    (code2 (.copy (found.ip - found.ref) (matchLen build input length found + 2))).length ≤
      matchLen build input length found + 1 := by
  have hSome := h.some
  have hFar := far_matchLen h
  rw [code2]
  split
  · rw [List.length_append, matchHead_length, List.length_singleton]
    split <;> omega
  · rw [List.length_append, matchHead_length]
    simp only [List.length_cons, List.length_nil]
    split <;> omega

end Saves

end RiscvCkpt.Fastlz
