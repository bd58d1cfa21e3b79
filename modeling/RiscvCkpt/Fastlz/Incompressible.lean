import Mathlib.Algebra.BigOperators.Group.Finset.Basic
import Mathlib.Order.Interval.Finset.Nat
import Mathlib.Tactic.IntervalCases
import RiscvCkpt.Fastlz.Contract

/-! Input that FastLZ cannot compress. A match repeats three bytes that stand in front of it,
less than a window away. Where no three bytes do, every byte is a literal, and literals cost a
byte more for each 32 of them. Pages of noise are such input, but for the headers of their
records, and a full block of them grows beyond the buffer of the readers. -/
namespace RiscvCkpt.Fastlz

open ByteCodec ByteMemory Lz77

/-- The three bytes at a place stand at no earlier place within the distance. -/
def Unseen (maxDistance : Nat) (input : Memory) (place : Nat) : Prop :=
  ∀ ref < place, place - ref < maxDistance → ∃ i < 3, input (ref + i) ≠ input (place + i)

/-- No three bytes in a row of which the byte is one have been seen before. -/
def Lone (maxDistance : Nat) (input : Memory) (b : Nat) : Prop :=
  ∀ place, place ≤ b → b < place + 3 → Unseen maxDistance input place

section Cost

variable {level : Level} {build : Build} {input : Memory} {length anchor : Nat} {found : Match}

/-- A match covers no such byte. -/
theorem Usable.not_lone (h : Usable level build input length anchor found) {b : Nat}
    (hLow : found.ip ≤ b) (hHigh : b < found.ip + matchLen build input length found + 2) :
    ¬ Lone level.maxDistance input b := by
  intro hLone
  have hSome := h.some
  have hBefore := h.before
  have hNear := h.near
  -- three bytes of the match around `b`
  obtain ⟨place, hPlace⟩ : ∃ place,
    place = min b (found.ip + matchLen build input length found - 1) :=
    ⟨_, rfl⟩
  obtain ⟨i, hi, hDiffer⟩ := hLone place (by omega) (by omega)
    (place - (found.ip - found.ref)) (by omega) (by omega)
  have hSame := h.same (place - found.ip + i) (by omega)
  apply hDiffer
  convert hSame using 2
  · omega
  · omega

/-- Bytes that no match covers cost a byte each, and one more for each 32. -/
theorem parse_cost_ge {lone : Nat → Prop} [DecidablePred lone]
    (hLone : ∀ b, lone b → Lone level.maxDistance input b) {htab : Nat → Nat} {ip : Nat}
    (hTable : ∀ hash, htab hash < ip) (hAnchor : anchor ≤ ip) (hLength : anchor < length) :
    33 * ((Finset.Ico anchor length).filter lone).card ≤
      32 * ((parse level build input length htab ip anchor).flatMap level.code).length := by
  refine parse_rec (motive := fun anchor tokens =>
    33 * ((Finset.Ico anchor length).filter lone).card ≤ 32 * (tokens.flatMap level.code).length)
    ?_ ?_ hTable hAnchor hLength
  · intro anchor hEnd
    have hCard := Finset.card_filter_le (Finset.Ico anchor length) lone
    rw [Nat.card_Ico] at hCard
    rw [literalTokens_cost _ _ _ level.code_literal]
    omega
  · intro anchor found tokens h ih
    have hBehind := h.behind
    have hParts : (Finset.Ico anchor length).filter lone ⊆ Finset.Ico anchor found.ip ∪
        (Finset.Ico (found.ip + matchLen build input length found + 2) length).filter lone := by
      intro b hb
      obtain ⟨hIn, hOwn⟩ := Finset.mem_filter.mp hb
      obtain ⟨hLow, hHigh⟩ := Finset.mem_Ico.mp hIn
      rw [Finset.mem_union, Finset.mem_filter, Finset.mem_Ico, Finset.mem_Ico]
      by_contra hNone
      simp only [hLow, hHigh, hOwn, true_and, and_true, not_or, Nat.not_lt, Nat.not_le] at hNone
      exact h.not_lone hNone.1 hNone.2 (hLone b hOwn)
    have hCard := (Finset.card_le_card hParts).trans (Finset.card_union_le _ _)
    rw [Nat.card_Ico] at hCard
    rw [List.flatMap_append, List.flatMap_append, List.length_append, List.length_append,
      literalTokens_cost _ _ _ level.code_literal]
    omega

end Cost

def noiseBlock (start n : Nat) : List UInt8 := (List.range' start n).flatMap noiseRecord

section Noise

variable {start n p : Nat}

theorem noiseBlock_length (start n : Nat) : (noiseBlock start n).length = n * 4176 := by
  rw [noiseBlock, length_flatMap_of_width noiseRecord_length, List.length_range']

/-- A byte of the block is a byte of one of its records. -/
theorem noiseBlock_byte (h : p < n * 4176) :
    store zero 0 (noiseBlock start n) p = (noiseRecord (start + p / 4176)).getD (p % 4176) 0 := by
  have hPage : (List.range' start n)[p / 4176]? = some (start + p / 4176) := by
    rw [List.getElem?_range' (by omega), Nat.one_mul]
  have hDrop : (noiseBlock start n).drop (0 + p / 4176 * 4176) = noiseRecord (start + p / 4176) ++
      (((List.range' start n).drop (p / 4176 + 1)).flatMap noiseRecord ++ []) :=
    drop_flatMap noiseRecord_length (by rw [List.drop_zero, List.append_nil, noiseBlock]) hPage
  have hLength := noiseRecord_length (start + p / 4176)
  have hSplit : p - 0 = 0 + p / 4176 * 4176 + p % 4176 := by omega
  rw [store_inside (Nat.zero_le _) (by rw [noiseBlock_length]; omega), hSplit,
    List.getD_eq_getElem?_getD, ← List.getElem?_drop, hDrop,
    List.getElem?_append_left (by rw [hLength]; omega), ← List.getD_eq_getElem?_getD]

/-- The header of a record: bytes below 128, then the full map. -/
theorem noiseRecord_header {page r : Nat} (hPage : page < 16384) (hHeader : r < 80) :
    128 ≤ ((noiseRecord page).getD r 0).toNat ↔ 16 ≤ r := by
  have hWord : ∀ n i, i < 8 → ((wordBytes 8 n).getD i 0).toNat = n / 256 ^ i % 256 := by
    intro n i hi
    rw [wordBytes, List.getD_eq_getElem?_getD, List.getElem?_map, List.getElem?_range hi,
      Option.map_some, Option.getD_some, UInt8.toNat_ofNat']
  by_cases hBase : r < 8
  · rw [noiseRecord, List.getD_append _ _ _ _ (by rwa [wordBytes_length]),
      hWord _ _ hBase, noiseBase]
    interval_cases r <;> omega
  · rw [noiseRecord, List.getD_append_right _ _ _ _ (by rw [wordBytes_length]; omega),
      wordBytes_length]
    by_cases hSize : r < 16
    · rw [List.getD_append _ _ _ _ (by rw [wordBytes_length]; omega), hWord _ _ (by omega),
        MaxCoverSize]
      interval_cases r <;> omega
    · rw [List.getD_append_right _ _ _ _ (by rw [wordBytes_length]; omega), wordBytes_length,
        List.getD_append _ _ _ _ (by rw [List.length_replicate]; omega),
        List.getD_eq_getElem?_getD, List.getElem?_replicate_of_lt (by omega)]
      exact iff_of_true (by decide) (by omega)

/-- Behind it stand the bytes of the page. -/
theorem noiseRecord_data {page r : Nat} (hData : 80 ≤ r) (hEnd : r < 4176) :
    (noiseRecord page).getD r 0 = noiseByte (4096 * page + (r - 80)) := by
  rw [noiseRecord, List.getD_append_right _ _ _ _ (by rw [wordBytes_length]; omega),
    List.getD_append_right _ _ _ _ (by simp only [wordBytes_length]; omega),
    List.getD_append_right _ _ _ _ (by simp only [wordBytes_length, List.length_replicate]; omega)]
  simp only [wordBytes_length, List.length_replicate]
  rw [load_getD (by omega)]
  exact congrArg noiseByte (by omega)

theorem noiseByte_toNat (i : Nat) :
    (noiseByte i).toNat = if i % 2 = 0 then 128 + i / 256 % 128 else i / 2 % 128 := by
  rw [noiseByte, UInt8.toNat_ofNat']
  split <;> omega

/-- Where the bytes from 128 on stand. -/
theorem noiseBlock_high (hPages : start + n ≤ 16384) (h : p < n * 4176) :
    128 ≤ (store zero 0 (noiseBlock start n) p).toNat ↔
      16 ≤ p % 4176 ∧ (p % 4176 < 80 ∨ p % 2 = 0) := by
  rw [noiseBlock_byte h]
  by_cases hHeader : p % 4176 < 80
  · rw [noiseRecord_header (by omega) hHeader]
    omega
  · rw [noiseRecord_data (by omega) (by omega), noiseByte_toNat]
    split <;> omega

/-- The place of a byte of data among all bytes of the pages. -/
def noiseIndex (start p : Nat) : Nat := 4096 * (start + p / 4176) + (p % 4176 - 80)

/-- Two bytes of data in a row tell where they stand among 32768. -/
theorem noiseBlock_pair {p q : Nat} (hp : p + 1 < n * 4176) (hq : q + 1 < n * 4176)
    (hEven : p % 2 = 0 ∧ q % 2 = 0) (hData : 80 ≤ p % 4176 ∧ 80 ≤ q % 4176)
    (hSame : ∀ i < 2, store zero 0 (noiseBlock start n) (p + i) =
      store zero 0 (noiseBlock start n) (q + i)) :
    noiseIndex start p % 32768 = noiseIndex start q % 32768 := by
  have hByte : ∀ p, p < n * 4176 → 80 ≤ p % 4176 →
      (store zero 0 (noiseBlock start n) p).toNat =
        if noiseIndex start p % 2 = 0 then 128 + noiseIndex start p / 256 % 128
        else noiseIndex start p / 2 % 128 := by
    intro p hp hData
    rw [noiseBlock_byte hp, noiseRecord_data hData (by omega), noiseByte_toNat]
    rfl
  have hIndex : ∀ p, p % 2 = 0 → 80 ≤ p % 4176 →
      noiseIndex start p % 2 = 0 ∧ noiseIndex start (p + 1) = noiseIndex start p + 1 := by
    intro p hEven hData
    simp only [noiseIndex]
    omega
  obtain ⟨hIp, hIp'⟩ := hIndex p hEven.1 hData.1
  obtain ⟨hIq, hIq'⟩ := hIndex q hEven.2 hData.2
  have hFirst := congrArg UInt8.toNat (hSame 0 (by omega))
  have hSecond := congrArg UInt8.toNat (hSame 1 (by omega))
  rw [Nat.add_zero, Nat.add_zero, hByte p (by omega) hData.1, hByte q (by omega) hData.2,
    if_pos hIp, if_pos hIq] at hFirst
  rw [hByte _ hp (by omega), hByte _ hq (by omega), hIp', hIq', if_neg (by omega),
    if_neg (by omega)] at hSecond
  omega

/-- Three bytes of data in a row do not stand less than 8192 bytes in front. -/
theorem noiseBlock_unseen (hPages : start + n ≤ 16384) (h : p + 2 < n * 4176)
    (hLow : 80 ≤ p % 4176) (hHigh : p % 4176 < 4174) :
    Unseen maxL1Distance (store zero 0 (noiseBlock start n)) p := by
  intro ref hRef hNear
  by_contra hNone
  have hSame : ∀ i < 3, store zero 0 (noiseBlock start n) (ref + i) =
      store zero 0 (noiseBlock start n) (p + i) := by
    intro i hi
    by_contra hDiffer
    exact hNone ⟨i, hi, hDiffer⟩
  simp only [maxL1Distance] at hNear
  have hClass : ∀ i < 3, (16 ≤ (ref + i) % 4176 ∧ ((ref + i) % 4176 < 80 ∨ (ref + i) % 2 = 0)) ↔
      (p + i) % 2 = 0 := by
    intro i hi
    rw [← noiseBlock_high hPages (by omega), hSame i hi, noiseBlock_high hPages (by omega)]
    omega
  -- bytes of data alternate, three bytes of which one is in a header do not
  have hData : 80 ≤ ref % 4176 ∧ ref % 4176 < 4174 := by
    have hFirst := hClass 0 (by omega)
    have hSecond := hClass 1 (by omega)
    have hThird := hClass 2 (by omega)
    omega
  have hParity : ref % 2 = p % 2 := by
    have hFirst := hClass 0 (by omega)
    omega
  -- so the counters in them agree, which takes a distance of 32768
  have hApart : noiseIndex start ref < noiseIndex start p ∧
      noiseIndex start p < noiseIndex start ref + 8192 := by
    simp only [noiseIndex]
    omega
  by_cases hEven : p % 2 = 0
  · have hPair := @noiseBlock_pair start n ref p (by omega) (by omega) (by omega) ⟨hData.1, hLow⟩
      fun i hi => hSame i (by omega)
    omega
  · have hPair := @noiseBlock_pair start n (ref + 1) (p + 1) (by omega) (by omega) (by omega)
      (by omega) fun i hi => by
        rw [Nat.add_assoc, Nat.add_assoc]
        exact hSame (1 + i) (by omega)
    have hNext : ∀ q, 80 ≤ q % 4176 → q % 4176 < 4174 →
        noiseIndex start (q + 1) = noiseIndex start q + 1 := by
      intro q hLow hHigh
      simp only [noiseIndex]
      omega
    rw [hNext ref hData.1 hData.2, hNext p hLow hHigh] at hPair
    omega

/-- The bytes of data but the first and the last two of a page. -/
def InsideData (b : Nat) : Prop := 82 ≤ b % 4176 ∧ b % 4176 < 4174

instance : DecidablePred InsideData := fun _ => inferInstanceAs (Decidable (_ ∧ _))

/-- The data of the noise have no three bytes that were there before. -/
theorem noiseBlock_lone (hPages : start + n ≤ 16384) {b : Nat} (h : InsideData b ∧ b < n * 4176) :
    Lone maxL1Distance (store zero 0 (noiseBlock start n)) b := by
  obtain ⟨⟨hLow, hHigh⟩, hEnd⟩ := h
  intro place hFirst hLast
  exact noiseBlock_unseen hPages (by omega) (by omega) (by omega)

/-- At least 4092 bytes of each page lie inside of its data. -/
theorem insideData_card (n : Nat) :
    n * 4092 ≤ ((Finset.Ico 0 (n * 4176)).filter fun b => InsideData b ∧ b < n * 4176).card := by
  have hRows : (Finset.range n).biUnion (fun k => Finset.Ico (k * 4176 + 82) (k * 4176 + 4174)) ⊆
      (Finset.Ico 0 (n * 4176)).filter fun b => InsideData b ∧ b < n * 4176 := by
    intro b hb
    obtain ⟨k, hk, hIn⟩ := Finset.mem_biUnion.mp hb
    rw [Finset.mem_range] at hk
    rw [Finset.mem_Ico] at hIn
    rw [Finset.mem_filter, Finset.mem_Ico, InsideData]
    omega
  have hRow : ∀ k ∈ Finset.range n, (Finset.Ico (k * 4176 + 82) (k * 4176 + 4174)).card = 4092 := by
    intro k _
    rw [Nat.card_Ico]
    omega
  refine Nat.le_trans (Nat.le_of_eq ?_) (Finset.card_le_card hRows)
  rw [Finset.card_biUnion, Finset.sum_const_nat hRow, Finset.card_range]
  intro k _ k' _ hNe
  refine Finset.disjoint_left.mpr fun b hb hb' => ?_
  rw [Finset.mem_Ico] at hb hb'
  omega

/-- Noise grows: its data are literals. -/
theorem compressBlock_noise (build : Build) (hPages : start + n ≤ 16384) (hSome : 0 < n) :
    33 * (n * 4092) ≤ 32 * (compressBlock build 1 (noiseBlock start n)).length := by
  have hCost := @parse_cost_ge level1 build (store zero 0 (noiseBlock start n)) (n * 4176) 0
    (fun b => InsideData b ∧ b < n * 4176) _ (fun b hb => noiseBlock_lone hPages hb) (fun _ => 0) 2
    (fun _ => Nat.two_pos) (Nat.zero_le _) (by omega)
  have hCard := insideData_card n
  have hText : compressBlock build 1 (noiseBlock start n) =
      (parse level1 build (store zero 0 (noiseBlock start n)) (n * 4176) (fun _ => 0) 2 0).flatMap
        level1.code := by
    rw [compressBlock, fastlzCompressLevel, if_pos rfl, fastlz1Compress_text, noiseBlock_length]
    rfl
  rw [hText]
  omega

end Noise

/-- FastLZ makes more of 7533 pages of noise than the readers have room for. -/
theorem noise_overflows (build : Build) :
    ¬ BlocksFit (fastlzLevels build).level1 (noise 1 7533) := by
  intro hFits
  have hBlocks := @blocks_noise 1 7533 (by decide) (by decide)
  have hRoom := hFits ⟨noiseBlock 1 7533, 7533⟩ (by rw [hBlocks]; exact List.mem_singleton_self _)
  have hGrown := @compressBlock_noise 1 7533 build (by decide) (by decide)
  have hSize : (compressBlock build 1 (noiseBlock 1 7533)).length ≤ MaxCompressSize +
      ExtraDataSize :=
    hRoom
  simp only [MaxCompressSize, ExtraDataSize] at hSize
  omega

end RiscvCkpt.Fastlz
