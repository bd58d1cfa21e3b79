import RiscvCkpt.Fastlz.RoundTrip
import RiscvCkpt.Restore.Blocks

/-! What the writers and readers of first loads rely on, proved of the compressors: the size of
a block, the bytes it depends on, and that it can be read back at either level. -/
namespace RiscvCkpt.Fastlz

open ByteCodec ByteMemory Lz77

section Size

variable (build : Build) (input : Memory) (length : Nat) (output : Memory)

theorem tokens_zero (level : Level) : tokens level build input 0 = [] := by
  rw [tokens, parse_stop fun h => absurd h (by decide), Nat.zero_sub, literalTokens_zero]

/-- Level 1 adds at most one byte to 32 and one more. -/
theorem tokens1_cost :
    ((tokens level1 build input length).flatMap code1).length ≤ length + length / 32 + 1 := by
  rcases Nat.eq_zero_or_pos length with rfl | hSome
  · rw [tokens_zero]
    exact Nat.zero_le _
  · exact @parse_cost level1 build input length _ 2 0 (fun _ _ h => matchTokens1_saves h.some _)
      (fun _ => Nat.two_pos) (by decide) hSome

/-- Level 2 adds at most one byte to 32 and one more. -/
theorem tokens2_cost :
    ((tokens level2 build input length).flatMap code2).length ≤ length + length / 32 + 1 := by
  rcases Nat.eq_zero_or_pos length with rfl | hSome
  · rw [tokens_zero]
    exact Nat.zero_le _
  · refine @parse_cost level2 build input length _ 2 0 (fun _ _ h => ?_) (fun _ => Nat.two_pos)
      (by decide) hSome
    rw [level2, List.flatMap_singleton]
    exact code2_saves h

/-- The result of `fastlz_compress_level` at each level. -/
theorem fastlzCompressLevel_cases (level : Nat) {p : Out → Prop}
    (h1 : p (fastlz1Compress build input length output))
    (h2 : p (fastlz2Compress build input length output)) (hNone : p ⟨output, 0⟩) :
    p (fastlzCompressLevel build level input length output) := by
  rw [fastlzCompressLevel]
  split
  · exact h1
  · split
    · exact h2
    · exact hNone

theorem fastlzCompressLevel_op (level : Nat) :
    (fastlzCompressLevel build level input length output).op ≤ length + length / 32 + 1 := by
  apply fastlzCompressLevel_cases build input length output level (p := fun out => out.op ≤ _)
  · rw [← Out.text_length, fastlz1Compress_text]
    exact tokens1_cost build input length
  · rw [← Out.text_length, fastlz2Compress_text, mark_length]
    exact tokens2_cost build input length
  · exact Nat.zero_le _

/-- Compression leaves alone what is further behind its result than a copy may write. -/
theorem fastlzCompressLevel_beyond (level : Nat) {a : Nat}
    (h : (fastlzCompressLevel build level input length output).op + copySlack build ≤ a) :
    (fastlzCompressLevel build level input length output).buf a = output a := by
  revert h
  apply fastlzCompressLevel_cases build input length output level
    (p := fun out => out.op + copySlack build ≤ a → out.buf a = output a)
  · exact (fastlz1Compress_appends build input length output).beyond a
  · exact fastlz2Compress_beyond build input length output
  · exact fun _ => rfl

/-- A compressed block keeps the contract of FastLZ, and more closely: it is longer than the
block by one byte in 32 and one. The wide copies write at most `copySlack` bytes behind it,
so a block of the writers leaves everything behind `compdata` alone. -/
theorem fastlzCompressLevel_bounds (level : Nat) :
    (fastlzCompressLevel build level input length output).op ≤ length + length / 32 + 1 ∧
    FastLZAllows length (fastlzCompressLevel build level input length output).op ∧
    (∀ a, (fastlzCompressLevel build level input length output).op + copySlack build ≤ a →
      (fastlzCompressLevel build level input length output).buf a = output a) ∧
    (length ≤ MaxCompressSize + ExtraDataSize → ∀ a, MaxCompressSize * 2 ≤ a →
      (fastlzCompressLevel build level input length output).buf a = output a) := by
  have hOp := fastlzCompressLevel_op build input length output level
  have hSlack : copySlack build ≤ 217 := by
    cases build with
    | arch64 => decide
    | portable => decide
  refine ⟨hOp, ?_, fun a ha => fastlzCompressLevel_beyond build input length output level ha,
    fun hBlock a ha => ?_⟩
  · rw [FastLZAllows]
    omega
  · apply fastlzCompressLevel_beyond
    simp only [MaxCompressSize, ExtraDataSize] at *
    omega

end Size

/-- What is written for a block depends on its bytes only, not on what stands behind it or in
the output buffer. -/
theorem fastlzCompressLevel_text_congr (build : Build) (level : Nat) {input input' : Memory}
    {length : Nat} (hSame : ∀ a < length, input a = input' a) (output output' : Memory) :
    (fastlzCompressLevel build level input length output).text =
      (fastlzCompressLevel build level input' length output').text := by
  rw [fastlzCompressLevel, fastlzCompressLevel]
  split
  · rw [fastlz1Compress_text, fastlz1Compress_text, tokens1_congr hSame]
  · split
    · rw [fastlz2Compress_text, fastlz2Compress_text, tokens2_congr hSame]
    · rfl

/-- Two buffers that differ behind the block. -/
theorem fastlzCompressLevel_text_congr_run :
    (fastlzCompressLevel .arch64 1 (fun _ => 7) 20 zero).text =
      (fastlzCompressLevel .arch64 1 (fun a => if a < 20 then 7 else 9) 20 fun _ => 1).text :=
  fastlzCompressLevel_text_congr .arch64 1 (fun _ ha => (if_pos ha).symm) _ _

/-- `fastlz_compress_level` on a block of its own. -/
def compressBlock (build : Build) (level : Nat) (block : List UInt8) : List UInt8 :=
  (fastlzCompressLevel build level (store zero 0 block) block.length zero).text

/-- `fastlz_decompress` as the readers call it, with room for a full block and one more page. -/
def decompressBlock (block : List UInt8) : List UInt8 :=
  match fastlzDecompress block block.length zero (MaxCompressSize + ExtraDataSize) with
  | some out => out.text
  | none => []

section Blocks

variable {build : Build} {level : Nat} (hLevel : level = 1 ∨ level = 2) {block : List UInt8}

include hLevel

/-- A block of the writers is restored by the decompressor. -/
theorem compressBlock_restores (hSome : block ≠ [])
    (hSize : block.length ≤ MaxCompressSize + ExtraDataSize) :
    Restores (fastlzCompressLevel build level (store zero 0 block) block.length zero) []
      (store zero 0 block) block.length zero (MaxCompressSize + ExtraDataSize) := by
  have hPos := List.length_pos_of_ne_nil hSome
  have hFit : block.length < 2 ^ 32 := by
    simp only [MaxCompressSize, ExtraDataSize] at hSize
    omega
  rcases hLevel with rfl | rfl
  · exact fastlz1Compress_restores build _ zero [] zero hPos hSize
  · exact fastlz2Compress_restores build _ zero [] zero hPos hFit hSize

/-- Decompression undoes compression of the blocks that the writers make. -/
theorem decompress_compressBlock (hSize : block.length ≤ MaxCompressSize + ExtraDataSize) :
    decompressBlock (compressBlock build level block) = block := by
  by_cases hSome : block = []
  · have hNone : ∀ level ∈ [1, 2], decompressBlock (compressBlock build level []) = [] := by
      cases build with
      | arch64 => decide +kernel
      | portable => decide +kernel
    subst hSome
    exact hNone level (by simpa using hLevel)
  · obtain ⟨out, hOut, -, hText⟩ := @compressBlock_restores build level hLevel block hSome hSize
    rw [List.append_nil] at hOut
    rw [decompressBlock, compressBlock, Out.text_length, hOut]
    exact hText.trans (load_store_self zero 0 block)

theorem compressBlock_ne_nil (hSome : block ≠ [])
    (hSize : block.length ≤ MaxCompressSize + ExtraDataSize) :
    compressBlock build level block ≠ [] := by
  intro hNone
  have hBack := @decompress_compressBlock build level hLevel block hSize
  rw [hNone] at hBack
  exact hSome hBack.symm

end Blocks

/-- A block grows by at most one byte to 32 and one more. -/
theorem compressBlock_length (build : Build) (level : Nat) (block : List UInt8) :
    (compressBlock build level block).length ≤ block.length + block.length / 32 + 1 := by
  rw [compressBlock, Out.text_length]
  exact fastlzCompressLevel_op build _ block.length zero level

theorem compressBlock_int (build : Build) (level : Nat) {block : List UInt8}
    (hSize : block.length ≤ MaxCompressSize + ExtraDataSize) :
    (compressBlock build level block).length < 2 ^ 31 := by
  have hLength := compressBlock_length build level block
  simp only [MaxCompressSize, ExtraDataSize] at hSize
  omega

/-- The compressors meet what the writers and readers assume of them. -/
def levelLZ (build : Build) (level : Nat) (hLevel : level = 1 ∨ level = 2) : FastLZ where
  compress := compressBlock build level
  decompress := decompressBlock
  decompress_compress _ hSize := decompress_compressBlock hLevel hSize
  compress_ne_nil _ hSize hSome := compressBlock_ne_nil hLevel hSome hSize
  compress_length _ hSize := compressBlock_int build level hSize

/-- FastLZ as it is compiled into a program. -/
def fastlzLevels (build : Build) : FastLZLevels :=
  ⟨levelLZ build 1 (Or.inl rfl), levelLZ build 2 (Or.inr rfl), rfl⟩

end RiscvCkpt.Fastlz
