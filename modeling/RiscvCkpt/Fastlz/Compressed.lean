import RiscvCkpt.Fastlz.Parse

/-! What the compressors leave in the output buffer: the codes of the tokens, whatever stood
in the buffer before and whatever stands behind the input. The wide copies reach behind the
result by a fixed number of bytes. -/
namespace RiscvCkpt.Fastlz

open ByteCodec ByteMemory Lz77

def tokens (level : Level) (build : Build) (input : Memory) (length : Nat) : List (Token UInt8) :=
  parse level build input length (fun _ => 0) 2 0

/-- The bytes of a result with the mark of level 2. -/
def mark : List UInt8 → List UInt8
  | [] => []
  | first :: rest => (first ||| 32) :: rest

section Simulation

variable (build : Build) (input : Memory) (length : Nat)

/-- One match, at either level. -/
theorem takeMatch_appends {slack : Nat} (hSlack : copySlack build = slack) {level : Level}
    {putMatch : (len distance : Nat) → Out → Out}
    (hMatch : ∀ len distance out, Appends slack out (putMatch len distance out)
      ((level.matchTokens len distance).flatMap level.code)) (anchor : Nat) (out :
        Out) (found : Match) :
    Appends slack out (takeMatch build putMatch input length anchor out found).out
      ((literalTokens input (found.ip - anchor) anchor).flatMap level.code ++
        (level.matchTokens (matchLen build input length found) (found.ip - found.ref)).flatMap
          level.code) := by
  subst hSlack
  refine Appends.trans ?_ (hMatch _ _ _)
  split
  · exact flzLiterals_appends level.code_literal build input (found.ip - anchor) anchor out
  · next hNone =>
      rw [Nat.sub_eq_zero_of_le (Nat.le_of_not_lt hNone), literalTokens, if_neg (by decide),
        if_neg (Nat.lt_irrefl 0)]
      exact Appends.refl _ out

theorem flz1Match_level (slack len distance : Nat) (out : Out) : Appends slack out
    (flz1Match len distance out) ((level1.matchTokens len distance).flatMap level1.code) :=
  flz1Match_appends slack len distance out

theorem flz2Match_level (slack len distance : Nat) (out : Out) : Appends slack out
    (flz2Match len distance out) ((level2.matchTokens len distance).flatMap level2.code) := by
  have hMatch := flz2Match_appends slack len distance out
  rwa [← List.flatMap_singleton code2] at hMatch

/-- The main loop of level 1 writes the code of its tokens. -/
theorem fastlz1Loop_appends (c : Comp) : Appends (copySlack build) c.out
    (flzFinalize build input (length - (fastlz1Loop build input length c).anchor)
      (fastlz1Loop build input length c).anchor (fastlz1Loop build input length c).out)
    ((parse level1 build input length c.htab c.ip c.anchor).flatMap code1) := by
  induction c using fastlz1Loop.induct build input length with
  | case1 c hMore hNone =>
      rw [fastlz1Loop_stop fun _ => hNone, parse_stop fun _ => hNone]
      exact flzFinalize_appends level1.code_literal _ build input _ _ _
  | case2 c hMore found hSome ih =>
      have hTaken :=
        takeMatch_appends build input length rfl (flz1Match_level _) c.anchor c.out found
      have hParse := @parse_match level1 build _ _ _ _ c.anchor _ hMore hSome
      rw [if_neg (level1_tooShort input found)] at hParse
      rw [fastlz1Loop_match hMore hSome, hParse, ← List.append_assoc, List.flatMap_append,
        List.flatMap_append]
      exact hTaken.trans ih
  | case3 c hLess =>
      have hStop : c.ip + 13 < length → findMatch input length maxL1Distance c.htab c.ip = none :=
        fun hMore => absurd hMore hLess
      rw [fastlz1Loop_stop hStop, parse_stop hStop]
      exact flzFinalize_appends level1.code_literal _ build input _ _ _

/-- The main loop of level 2 writes the code of its tokens. -/
theorem fastlz2Loop_appends (c : Comp) : Appends (copySlack build) c.out
    (flzFinalize build input (length - (fastlz2Loop build input length c).anchor)
      (fastlz2Loop build input length c).anchor (fastlz2Loop build input length c).out)
    ((parse level2 build input length c.htab c.ip c.anchor).flatMap code2) := by
  induction c using fastlz2Loop.induct build input length with
  | case1 c hMore hNone =>
      rw [fastlz2Loop_stop fun _ => hNone, parse_stop fun _ => hNone]
      exact flzFinalize_appends level2.code_literal _ build input _ _ _
  | case2 c hMore found hSome hShort ih =>
      have hParse := @parse_match level2 build _ _ _ _ c.anchor _ hMore hSome
      rw [if_pos (level2_tooShort.mpr hShort)] at hParse
      rw [fastlz2Loop_match hMore hSome, if_pos hShort, hParse]
      exact ih
  | case3 c hMore found hSome hKept ih =>
      have hTaken :=
        takeMatch_appends build input length rfl (flz2Match_level _) c.anchor c.out found
      have hParse := @parse_match level2 build _ _ _ _ c.anchor _ hMore hSome
      rw [if_neg fun hShort => hKept (level2_tooShort.mp hShort)] at hParse
      rw [fastlz2Loop_match hMore hSome, if_neg hKept, hParse, ← List.append_assoc,
        List.flatMap_append, List.flatMap_append]
      exact hTaken.trans ih
  | case4 c hLess =>
      have hStop : c.ip + 13 < length → findMatch input length maxFarDistance c.htab c.ip = none :=
        fun hMore => absurd hMore hLess
      rw [fastlz2Loop_stop hStop, parse_stop hStop]
      exact flzFinalize_appends level2.code_literal _ build input _ _ _

end Simulation

section Behind

variable {level : Level} {build : Build} {input input' : Memory} {length : Nat}

theorem literalTokens_congr {runs src : Nat} (hSame : ∀ a < src + runs, input a = input' a) :
    literalTokens input runs src = literalTokens input' runs src := by
  induction runs, src using literalTokens.induct with
  | case1 runs src hMore ih =>
      have hLoad : load input src maxCopy = load input' src maxCopy :=
        load_congr fun i hi => hSame _ (by omega)
      rw [literalTokens_more input src hMore, literalTokens_more input' src hMore, hLoad,
        ih fun a ha => hSame a (by omega)]
  | case2 runs src hLess hSome =>
      have hLoad : load input src runs = load input' src runs := load_congr fun i hi =>
        hSame _ (by omega)
      rw [literalTokens_last input src (Nat.lt_of_not_le hLess) hSome,
        literalTokens_last input' src (Nat.lt_of_not_le hLess) hSome, hLoad]
  | case3 runs src hLess hNone =>
      rw [Nat.eq_zero_of_not_pos hNone, literalTokens_zero, literalTokens_zero]

theorem cmpLoop_congr {p q left : Nat} (hSame : ∀ a < q + left, input a = input' a) (hLe : p ≤ q) :
    cmpLoop input p q left = cmpLoop input' p q left := by
  induction left generalizing p q with
  | zero => rfl
  | succ left ih =>
      have hRest := @ih (p + 1) (q + 1) (fun a ha => hSame a (by omega)) (by omega)
      rw [cmpLoop, cmpLoop, hSame p (by omega), hSame q (by omega), hRest]

/-- The comparison reads inside of the input. -/
theorem flzCmp_congr {p q r : Nat} (hSame : ∀ a < length, input a = input' a) (hLe : p ≤ q)
    (hWords : q + 12 ≤ length) (hEnd : r ≤ length) :
    flzCmp build input p q r = flzCmp build input' p q r := by
  have hLoad : ∀ place n, place + n ≤ length → load input place n = load input' place n :=
    fun place n h => load_congr fun i hi => hSame _ (by omega)
  cases build with
  | portable => exact cmpLoop_congr (fun a ha => hSame a (by omega)) hLe
  | arch64 =>
      simp only [flzCmp]
      rw [hLoad p 8 (by omega), hLoad q 8 (by omega)]
      have hEight : (if load input' p 8 = load input' q 8 then 8 else 0) ≤ 8 := by split <;> omega
      generalize (if load input' p 8 = load input' q 8 then 8 else 0) = eight at hEight ⊢
      rw [hLoad (p + eight) 4 (by omega), hLoad (q + eight) 4 (by omega)]
      have hFour : (if load input' (p + eight) 4 = load input' (q + eight) 4 then 4 else 0) ≤
          4 := by
        split <;> omega
      generalize (if load input' (p + eight) 4 = load input' (q + eight) 4 then 4 else 0) =
        four at hFour ⊢
      rw [cmpLoop_congr (fun a ha => hSame a (by omega)) (by omega)]

/-- One round of the search looks at bytes of the input only. -/
theorem round_congr {ip maxDistance : Nat} {htab : Nat → Nat}
    (hSame : ∀ a < length, input a = input' a)
    (hTable : ∀ hash, htab hash < ip) (hInside : ip + 13 < length) :
    lastPlace input htab ip = lastPlace input' htab ip ∧
      notePlace input htab ip = notePlace input' htab ip ∧
      (sameSeq input maxDistance htab ip ↔ sameSeq input' maxDistance htab ip) := by
  have hSeq : ∀ place ≤ ip, seqAt input place = seqAt input' place :=
    fun place hLe => seqAt_congr fun i hi => hSame _ (by omega)
  have hLast : lastPlace input htab ip = lastPlace input' htab ip := by
    rw [lastPlace, lastPlace, hSeq ip (Nat.le_refl _)]
  refine ⟨hLast, ?_, ?_⟩
  · rw [notePlace, notePlace, hSeq ip (Nat.le_refl _)]
  · rw [sameSeq_iff, sameSeq_iff, hLast, hSeq ip (Nat.le_refl _),
      hSeq (lastPlace input' htab ip) (Nat.le_of_lt (hTable _))]

/-- The search reads inside of the input. -/
theorem findMatch_congr {maxDistance ip : Nat} {htab : Nat → Nat}
    (hSame : ∀ a < length, input a = input' a) (hTable : ∀ hash, htab hash < ip) :
    findMatch input length maxDistance htab ip = findMatch input' length maxDistance htab ip := by
  induction htab, ip using findMatch.induct input length maxDistance with
  | case1 htab ip hEnd => rw [findMatch.eq_def, findMatch.eq_def input', if_pos hEnd, if_pos hEnd]
  | case2 htab ip hMore hSeq hEnd =>
      have hRound := @round_congr _ _ _ ip maxDistance htab hSame hTable (by omega)
      rw [findMatch.eq_def, findMatch.eq_def input', if_pos hSeq, if_pos (hRound.2.2.mp hSeq),
        if_pos hEnd, if_pos hEnd]
  | case3 htab ip hMore hSeq hInside =>
      have hRound := @round_congr _ _ _ ip maxDistance htab hSame hTable (by omega)
      rw [findMatch.eq_def, findMatch.eq_def input', if_pos hSeq,
        if_pos (hRound.2.2.mp hSeq), hRound.1, hRound.2.1]
  | case4 htab ip hMore hDiffer ih =>
      have hRound := @round_congr _ _ _ ip maxDistance htab hSame hTable (by omega)
      have hRest := ih (update_lt hTable _)
      rw [findMatch.eq_def, findMatch.eq_def input', if_neg hMore, if_neg hMore, if_neg hDiffer,
        if_neg fun hSeq => hDiffer (hRound.2.2.mpr hSeq), hRest, hRound.2.1]

/-- The tokens do not depend on what stands behind the input. The table may, after the last
match, when no search follows. -/
theorem parse_congr {htab : Nat → Nat} {ip anchor : Nat} (hSame : ∀ a < length, input a = input' a)
    (hShort : ∀ found : Match, found.ref < found.ip → found.ip + 14 < length →
      level.tooShort input found = level.tooShort input' found)
    (hTable : ∀ hash, htab hash < ip) (hAnchor : anchor ≤ ip) (hLength : anchor ≤ length) :
    parse level build input length htab ip anchor =
      parse level build input' length htab ip anchor := by
  have hRest : ∀ {anchor}, anchor ≤ length →
      literalTokens input (length - anchor) anchor =
        literalTokens input' (length - anchor) anchor :=
    fun hLe => literalTokens_congr fun a ha => hSame a (by omega)
  induction htab, ip, anchor using parse.induct level build input length with
  | case1 htab ip anchor hMore hNone =>
      have hNone' := hNone
      rw [findMatch_congr hSame hTable] at hNone'
      rw [parse_stop fun _ => hNone, parse_stop fun _ => hNone', hRest hLength]
  | case2 htab ip anchor hMore found hSome hFar ih =>
      have hFound := findMatch_found hSome
      have hLater := hFound.later
      have hBefore := hFound.before hTable
      have hSome' := hSome
      rw [findMatch_congr hSame hTable] at hSome'
      rw [parse_match hMore hSome, parse_match hMore hSome', if_pos hFar,
        if_pos (hShort found hBefore.1 hFound.inside ▸ hFar), ih hBefore.2 (by omega) hLength]
  | case3 htab ip anchor hMore found hSome hKept len ih =>
      have hFound := findMatch_found hSome
      have hBefore := hFound.before hTable
      have hUsable := usable_of_found build hFound hTable hAnchor hKept
      have hLimit := hUsable.limit
      have hInside := hUsable.inside
      have hSome' := hSome
      rw [findMatch_congr hSame hTable] at hSome'
      have hLen : matchLen build input' length found = matchLen build input length found :=
        (flzCmp_congr hSame (by omega) (by omega) (by omega)).symm
      have hLiterals : literalTokens input (found.ip - anchor) anchor =
          literalTokens input' (found.ip - anchor) anchor :=
        literalTokens_congr fun a ha => hSame a (by omega)
      have hTable' : ∀ hash, hashBoundary input found.htab (found.ip + len) hash <
          found.ip + len + 2 :=
        hashBoundary_lt hBefore.2 (Nat.add_le_add_left hUsable.some _)
      have hTail : parse level build input length (hashBoundary input found.htab (found.ip + len))
            (found.ip + len + 2) (found.ip + len + 2) =
          parse level build input' length (hashBoundary input' found.htab (found.ip + len))
            (found.ip + len + 2) (found.ip + len + 2) := by
        -- the table at the boundary takes in a byte behind the input only if the search is over
        by_cases hGoesOn : found.ip + len + 2 + 13 < length
        · have hWord : flzReadu32 input (found.ip + len) = flzReadu32 input' (found.ip + len) := by
            rw [flzReadu32, flzReadu32, load_congr fun i hi => hSame _ (by omega)]
          have hBoundary : hashBoundary input' found.htab (found.ip + len) =
              hashBoundary input found.htab (found.ip + len) := by
            simp only [hashBoundary, hWord]
          rw [hBoundary]
          exact ih hTable' (Nat.le_refl _) (Nat.le_of_lt hInside)
        · rw [parse_stop fun hMore => absurd hMore hGoesOn, parse_stop fun hMore =>
            absurd hMore hGoesOn, hRest (Nat.le_of_lt hInside)]
      rw [parse_match hMore hSome, parse_match hMore hSome', if_neg hKept,
        if_neg (hShort found hBefore.1 hFound.inside ▸ hKept), hLen, hLiterals, hTail]
  | case4 htab ip anchor hLess =>
      rw [parse_stop fun hMore => absurd hMore hLess, parse_stop fun hMore => absurd hMore hLess,
        hRest hLength]

theorem level2_tooShort_congr (hSame : ∀ a < length, input a = input' a) (found : Match)
    (hBefore : found.ref < found.ip) (hInside : found.ip + 14 < length) :
    level2.tooShort input found = level2.tooShort input' found := by
  apply Bool.eq_iff_iff.mpr
  rw [level2_tooShort, level2_tooShort, tooShort, tooShort, hSame (found.ref + 3) (by omega),
    hSame (found.ref + 4) (by omega), hSame (found.ip + 3) (by omega),
    hSame (found.ip + 4) (by omega)]

/-- The tokens of level 1 depend on the input only, not on what is behind it. -/
theorem tokens1_congr (hSame : ∀ a < length, input a = input' a) :
    tokens level1 build input length = tokens level1 build input' length :=
  parse_congr hSame (fun _ _ _ => rfl) (fun _ => by decide) (by decide) (Nat.zero_le _)

/-- The tokens of level 2 depend on the input only, not on what is behind it. -/
theorem tokens2_congr (hSame : ∀ a < length, input a = input' a) :
    tokens level2 build input length = tokens level2 build input' length :=
  parse_congr hSame (level2_tooShort_congr hSame) (fun _ => by decide) (by decide) (Nat.zero_le _)

end Behind

section Results

theorem mark_length (bytes : List UInt8) : (mark bytes).length = bytes.length := by
  cases bytes with
  | nil => rfl
  | cons first rest => rfl

theorem Out.mark_text (out : Out) : out.mark.text = Fastlz.mark out.text := by
  rw [Out.text, Out.text, Out.mark]
  cases out.op with
  | zero => rfl
  | succ n =>
      have hFirst : ∀ m : Memory, load m 0 (n + 1) = m 0 :: load m 1 n := by
        intro m
        rw [Nat.add_comm, load_add]
        rfl
      rw [hFirst, hFirst, Fastlz.mark, load_store_disjoint (Or.inr (Nat.le_refl 1))]
      rfl

variable (build : Build) (input : Memory) (length : Nat) (output : Memory)

theorem fastlz1Compress_appends : Appends (copySlack build) ⟨output, 0⟩
    (fastlz1Compress build input length output)
      ((tokens level1 build input length).flatMap code1) :=
  fastlz1Loop_appends build input length (Comp.start output)

/-- What `fastlz1_compress` writes is the code of the tokens. -/
theorem fastlz1Compress_text :
    (fastlz1Compress build input length output).text =
      (tokens level1 build input length).flatMap code1 :=
  (fastlz1Compress_appends build input length output).text

/-- What `fastlz2_compress` writes is the code of the tokens, with the mark of the level. -/
theorem fastlz2Compress_text :
    (fastlz2Compress build input length output).text =
      mark ((tokens level2 build input length).flatMap code2) := by
  have hText := (fastlz2Loop_appends build input length (Comp.start output)).text
  rw [fastlz2Compress, Out.mark_text, hText]
  rfl

/-- `fastlz2_compress` leaves alone what is further behind its result than a copy may write. -/
theorem fastlz2Compress_beyond {a : Nat}
    (h : (fastlz2Compress build input length output).op + copySlack build ≤ a) :
    (fastlz2Compress build input length output).buf a = output a := by
  have hSlack : 1 ≤ copySlack build := by
    cases build with
    | arch64 => decide
    | portable => decide
  have hMark : ∀ out : Out, out.mark.buf a = out.buf a :=
    fun out => store_outside (Or.inr (show 1 ≤ a by omega))
  rw [fastlz2Compress, hMark]
  exact (fastlz2Loop_appends build input length (Comp.start output)).beyond a h

end Results

end RiscvCkpt.Fastlz
