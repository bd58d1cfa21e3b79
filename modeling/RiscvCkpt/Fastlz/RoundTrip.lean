import RiscvCkpt.Fastlz.Compressed
import RiscvCkpt.Fastlz.Decompress

/-! What a compressor writes, the decompressor reads: at both levels, in both builds,
whatever stands behind the input and in the buffers. -/
namespace RiscvCkpt.Fastlz

open ByteMemory Lz77

/-- The main loop on the codes of a stream of tokens that ends in a literal. The induction is
on the tokens; what follows the code of a token is always longer than the end the loop
leaves out. -/
theorem decodeLoop_run {round : (ip ctrl : Nat) → Out → Except Stop (Round ip)} {tail : Nat}
    {input : List UInt8} {length maxout : Nat} {code : Token UInt8 → List UInt8} (hTail : tail ≤ 1)
    {token : Token UInt8} {rest : List (Token UInt8)}
    (hRound : ∀ token' ∈ token :: rest, RoundDecodes round input length maxout code token')
    (hCode : ∀ token' ∈ token :: rest, 2 ≤ (code token').length)
    (hLast : ∀ last ∈ (token :: rest).getLast?, needs last = 0) {ip : Nat} {out : Out}
    {ctrl : UInt8}
    {body behind : List UInt8} (hFirst : code token = ctrl :: body)
    (hReach : ReachesAll out.op (token :: rest))
    (hRoom : out.op + ((token :: rest).map Token.size).sum ≤ maxout)
    (hDrop : input.drop ip = body ++ (rest.flatMap code ++ behind))
    (hLength : ip + body.length + (rest.flatMap code).length = length) :
    ∃ final, decodeLoop round tail input length ip ctrl.toNat out = some final ∧
      final.text = expandAll out.text (token :: rest) := by
  induction rest generalizing token ip out ctrl body with
  | nil =>
      have hLast := hLast token rfl
      rw [List.map_singleton, List.sum_singleton] at hRoom
      rw [List.flatMap_nil, List.length_nil] at hLength
      obtain ⟨done, hDone, hNext, hText⟩ :=
        hRound token (List.mem_singleton.mpr rfl) hFirst hReach.1 hRoom (by omega) hDrop
      refine ⟨done.out, ?_, hText⟩
      rw [decodeLoop, hDone]
      exact if_pos (by omega)
  | cons next rest ih =>
      obtain ⟨hToken, hRest⟩ := List.forall_mem_cons.mp hCode
      have hTwo := hRest next (List.mem_cons_self ..)
      obtain ⟨ctrl', body', hNextCode⟩ :=
        List.exists_cons_of_ne_nil (List.ne_nil_of_length_pos (Nat.lt_of_lt_of_le Nat.two_pos hTwo))
      rw [List.map_cons, List.sum_cons] at hRoom
      rw [List.flatMap_cons, List.length_append] at hLength
      have hNeeds : needs token ≤ 1 := by cases token <;> simp [needs]
      obtain ⟨done, hDone, hNext, hText⟩ :=
        hRound token (List.mem_cons_self ..) hFirst hReach.1 (by omega) (by omega) hDrop
      have hAfter := ByteCodec.drop_past hDrop rfl
      rw [← hNext, List.flatMap_cons, hNextCode, List.cons_append, List.cons_append,
        List.append_assoc] at hAfter
      have hOp : done.out.op = out.op + token.size := by
        rw [← Out.text_length, hText, expand_length (by rw [Out.text_length]; exact hReach.1),
          Out.text_length]
      rw [hNextCode, List.length_cons] at hLength hTwo
      obtain ⟨final, hFinal, hAll⟩ := ih (fun t ht => hRound t (List.mem_cons_of_mem _ ht)) hRest
        (by rwa [List.getLast?_cons_cons] at hLast) hNextCode (by rw [hOp]; exact hReach.2)
        (by rw [hOp]; omega) (drop_succ hAfter) (by omega)
      refine ⟨final, ?_, by rw [hAll, hText]; rfl⟩
      rw [decodeLoop, hDone]
      simp only
      rw [if_neg (by omega), byteAt_drop hAfter]
      exact hFinal

section Levels

variable {build : Build} {input : Memory} {length : Nat}

/-- The literal tokens of a stream, and the copies of a level, as they can be coded. -/
def Codable (maxDistance maxSize : Nat) : Token UInt8 → Prop
  | .literal run => 1 ≤ run.length ∧ run.length ≤ maxCopy
  | .copy distance size => distance < maxDistance ∧ 3 ≤ size ∧ size ≤ maxSize

/-- The tokens of level 1 can be coded. -/
theorem tokens1_codable (h : 0 < length) :
    ∀ token ∈ tokens level1 build input length, Codable maxL1Distance maxLen token := by
  refine parse_forall (p := Codable maxL1Distance maxLen) (fun run hLow hHigh => ⟨hLow, hHigh⟩) ?_
    (fun _ => by decide) (by decide) h
  intro anchor found hUsable token hToken
  obtain ⟨size, hLow, hHigh, rfl⟩ := matchTokens1_copies hUsable.some token hToken
  exact ⟨hUsable.near, hLow, hHigh⟩

/-- The tokens of level 2 can be coded. -/
theorem tokens2_codable (h : 0 < length) :
    ∀ token ∈ tokens level2 build input length, Codable maxFarDistance length token := by
  refine parse_forall (p := Codable maxFarDistance length) (fun run hLow hHigh => ⟨hLow, hHigh⟩) ?_
    (fun _ => by decide) (by decide) h
  intro anchor found hUsable token hToken
  obtain rfl := List.mem_singleton.mp hToken
  have hSome := hUsable.some
  have hInside := hUsable.inside
  exact ⟨hUsable.near, by omega, by omega⟩

/-- A stream that starts with the literal `run` and ends with a literal, refers to what is
there, and repeats an input. -/
structure Stream (input : Memory) (length : Nat) (run : List UInt8) (rest : List (Token UInt8)) :
    Prop where
  last : ∀ token ∈ (Token.literal run :: rest).getLast?, needs token = 0
  reaches : ReachesAll 0 (.literal run :: rest)
  size : ((Token.literal run :: rest).map Token.size).sum = length
  expands : expandAll [] (.literal run :: rest) = load input 0 length

/-- A stream begins with a literal run, and expands to its input. -/
theorem tokens_stream (level : Level) (build : Build) (input : Memory) (h : 0 < length) :
    ∃ run rest, tokens level build input length = .literal run :: rest ∧
      Stream input length run rest := by
  have hTable : ∀ hash, (fun _ : Nat => 0) hash < 2 := fun _ => Nat.two_pos
  have hReach := parse_reaches level build input hTable (by decide) h
  have hExpand := parse_expands level build input hTable (by decide) h
  obtain ⟨front, last, hLast⟩ := parse_last level build input hTable (by decide) h
  rw [← tokens] at hReach hExpand hLast
  generalize tokens level build input length = all at *
  cases all with
  | nil => exact absurd hLast (by simp)
  | cons first rest =>
      cases first with
      | literal run =>
          have hSum := expandAll_length [] hReach
          rw [show expandAll [] _ = _ from hExpand, load_length, List.length_nil,
            Nat.zero_add] at hSum
          refine ⟨run, rest, rfl, fun token hToken => ?_, hReach, hSum.symm, hExpand⟩
          rw [hLast, List.getLast?_concat, Option.mem_some_iff] at hToken
          rw [← hToken, needs]
      | copy distance size =>
          -- nothing stands in front of the first token
          obtain ⟨hLow, hHigh⟩ := hReach.1
          omega

/-- One round of `fastlz1_decompress` undoes one token. -/
theorem round1_decodes {block : List UInt8} {size maxout : Nat} {token : Token UInt8}
    (h : Codable maxL1Distance maxLen token) :
    RoundDecodes (round1 block size maxout) block size maxout code1 token ∧
      2 ≤ (code1 token).length := by
  cases token with
  | literal run =>
      refine ⟨literal_decodes (fun hCtrl => ?_) rfl h.1 h.2, Nat.succ_le_succ h.1⟩
      rw [round1, if_neg (Nat.not_le_of_lt hCtrl)]
  | copy distance size =>
      refine ⟨round1_copy (Nat.le_of_lt h.1) h.2.1 h.2.2, ?_⟩
      rw [code1]
      split
      · exact Nat.le_refl 2
      · exact Nat.le_succ 2

/-- One round of `fastlz2_decompress` undoes one token. -/
theorem round2_decodes {block : List UInt8} {size maxout : Nat} {token : Token UInt8}
    (h : Codable maxFarDistance length token) (hFit : length < 2 ^ 32) :
    RoundDecodes (round2 block size maxout) block size maxout code2 token ∧
      2 ≤ (code2 token).length := by
  cases token with
  | literal run =>
      refine ⟨literal_decodes (fun hCtrl => ?_) rfl h.1 h.2, Nat.succ_le_succ h.1⟩
      rw [round2, if_neg (Nat.not_le_of_lt hCtrl)]
  | copy distance size =>
      refine ⟨round2_copy h.1 h.2.1 (Nat.lt_of_le_of_lt h.2.2 hFit), ?_⟩
      rw [code2]
      split
      · rw [List.length_append, matchHead_length, List.length_singleton]
        split <;> omega
      · rw [List.length_append]
        exact Nat.le_trans (Nat.le_succ 2) (Nat.le_add_left 3 _)

/-- A decompressor on the codes of a stream. The first byte may hold the level above the length
of the first run. -/
theorem decodeWith_stream {level : Level} {round : (ip ctrl : Nat) → Out → Except Stop (Round ip)}
    {tail : Nat}
    (hTail : tail ≤ 1) {run : List UInt8} {rest : List (Token UInt8)}
    (h : Stream input length run rest)
    {maxout : Nat} (hRoom : length ≤ maxout) {byte : UInt8}
    (hByte : byte.toNat % 32 = (UInt8.ofNat (run.length - 1)).toNat)
    {behind : List UInt8} {size : Nat}
    (hSize : size = 1 + run.length + (rest.flatMap level.code).length)
    (hRound : ∀ token ∈ .literal run :: rest,
      RoundDecodes round (byte :: (run ++ (rest.flatMap level.code ++ behind))) size maxout
        level.code token ∧
        2 ≤ (level.code token).length) (output : Memory) :
    ∃ result, decodeWith round tail (byte :: (run ++ (rest.flatMap level.code ++ behind))) size
      output = some result ∧
      result.op = length ∧ result.text = load input 0 length := by
  have hRoom' : (⟨output, 0⟩ : Out).op + ((Token.literal run :: rest).map Token.size).sum ≤
      maxout := by
    rwa [h.size, Nat.zero_add]
  obtain ⟨result, hResult, hText⟩ :=
    decodeLoop_run hTail (fun token hToken => (hRound token hToken).1)
    (fun token hToken => (hRound token hToken).2) h.last (level.code_literal run) h.reaches hRoom'
    rfl hSize.symm
  have hExpand : result.text = load input 0 length := hText.trans h.expands
  refine ⟨result, ?_, ?_, hExpand⟩
  · have hFirst : byteAt (byte :: (run ++ (rest.flatMap level.code ++ behind))) 0 =
        .ok byte.toNat := rfl
    rw [decodeWith, hFirst]
    simp only [hByte]
    exact hResult
  · rw [← Out.text_length, hExpand, load_length]

end Levels

/-- A block that decompresses to an input. -/
def Restores (block : Out) (behind : List UInt8) (input : Memory) (length : Nat) (buffer : Memory)
    (maxout : Nat) : Prop :=
  ∃ result, fastlzDecompress (block.text ++ behind) block.op buffer maxout = some result ∧
    result.op = length ∧
    result.text = load input 0 length

section RoundTrip

variable (build : Build) (input output : Memory) (behind : List UInt8) (buffer : Memory)
  {length maxout : Nat}

/-- The level is found in the first byte of a block. -/
theorem fastlzDecompress_first {block : Out} {byte : UInt8} {body : List UInt8}
    (h : block.text = byte :: body) :
    fastlzDecompress (block.text ++ behind) block.op buffer maxout =
      if byte.toNat / 32 + 1 = 1 then
        fastlz1Decompress (byte :: (body ++ behind)) (1 + body.length) buffer maxout
      else if byte.toNat / 32 + 1 = 2 then
        fastlz2Decompress (byte :: (body ++ behind)) (1 + body.length) buffer maxout
      else some ⟨buffer, 0⟩ := by
  have hSize : block.op = 1 + body.length := by
    rw [← Out.text_length, h, List.length_cons, Nat.add_comm]
  rw [h, hSize]
  rfl

/-- `fastlz1_compress` is undone. -/
theorem fastlz1Compress_restores (hSome : 0 < length) (hRoom : length ≤ maxout) :
    Restores (fastlz1Compress build input length output) behind input length buffer maxout := by
  obtain ⟨run, rest, hTokens, hStream⟩ := tokens_stream level1 build input hSome
  have hCodable := @tokens1_codable build input _ hSome
  have hText := fastlz1Compress_text build input length output
  rw [hTokens] at hCodable
  rw [hTokens, List.flatMap_cons, code1, literalCode, List.cons_append] at hText
  have hRun := (hCodable _ (List.mem_cons_self ..)).2
  rw [maxCopy] at hRun
  have hByte : (UInt8.ofNat (run.length - 1)).toNat = run.length - 1 := toNat_ofNat (by omega)
  obtain ⟨result, hResult, hDone⟩ :=
    @decodeWith_stream _ _ level1 _ 1 (Nat.le_refl 1) _ _ hStream _ hRoom
    (UInt8.ofNat (run.length - 1)) (by omega) behind _ rfl
    (fun token hToken => round1_decodes (hCodable token hToken)) buffer
  refine ⟨result, ?_, hDone⟩
  rw [fastlzDecompress_first behind buffer hText, if_pos (by omega), List.append_assoc,
    List.length_append, ← Nat.add_assoc]
  exact hResult

/-- The mark of level 2 above the length of a run. -/
theorem marked_toNat {n : Nat} (h : n < 32) : (UInt8.ofNat n ||| 32).toNat = n + 32 := by
  have hAll : ∀ n : Fin 32, (UInt8.ofNat n ||| 32).toNat = n + 32 := by decide
  exact hAll ⟨n, h⟩

/-- `fastlz2_compress` is undone. -/
theorem fastlz2Compress_restores (hSome : 0 < length) (hFit : length < 2 ^ 32)
    (hRoom : length ≤ maxout) :
    Restores (fastlz2Compress build input length output) behind input length buffer maxout := by
  obtain ⟨run, rest, hTokens, hStream⟩ := tokens_stream level2 build input hSome
  have hCodable := @tokens2_codable build input _ hSome
  have hText := fastlz2Compress_text build input length output
  rw [hTokens] at hCodable
  rw [hTokens, List.flatMap_cons, code2, literalCode, List.cons_append, mark] at hText
  have hRun := (hCodable _ (List.mem_cons_self ..)).2
  rw [maxCopy] at hRun
  have hByte : (UInt8.ofNat (run.length - 1)).toNat = run.length - 1 := toNat_ofNat (by omega)
  have hMark := @marked_toNat (run.length - 1) (by omega)
  obtain ⟨result, hResult, hDone⟩ :=
    @decodeWith_stream _ _ level2 _ 0 (Nat.zero_le 1) _ _ hStream _ hRoom
    (UInt8.ofNat (run.length - 1) ||| 32) (by omega) behind _ rfl
    (fun token hToken => round2_decodes (hCodable token hToken) hFit) buffer
  refine ⟨result, ?_, hDone⟩
  rw [fastlzDecompress_first behind buffer hText, if_neg (by omega), if_pos (by omega),
    List.append_assoc, List.length_append, ← Nat.add_assoc]
  exact hResult

end RoundTrip

end RiscvCkpt.Fastlz
