import Mathlib.Data.List.Basic
import Mathlib.Tactic.Ring

/-! Little-endian machine words as byte strings, and reading such a word out
of the middle of a byte string. A value too large for its width is truncated,
as a store of a fixed-width word does. -/
namespace ByteCodec

/-- The word of `width` bytes that holds `n`, least significant byte first. -/
def wordBytes (width n : Nat) : List UInt8 :=
  (List.range width).map fun i => UInt8.ofNat (n / 256 ^ i)

/-- The number a byte string denotes, its first byte counting least. -/
def wordValue (bytes : List UInt8) : Nat :=
  bytes.foldr (fun byte high => byte.toNat + 256 * high) 0

@[simp] theorem wordBytes_length (width n : Nat) : (wordBytes width n).length = width := by
  simp [wordBytes]

@[simp] theorem wordValue_nil : wordValue [] = 0 := rfl

@[simp] theorem wordValue_cons (byte : UInt8) (rest : List UInt8) :
    wordValue (byte :: rest) = byte.toNat + 256 * wordValue rest := rfl

theorem wordBytes_succ (width n : Nat) :
    wordBytes (width + 1) n = UInt8.ofNat n :: wordBytes width (n / 256) := by
  simp only [wordBytes, List.range_succ_eq_map, List.map_cons, List.map_map, pow_zero,
    Nat.div_one]
  congr 1
  apply List.map_congr_left
  intro i _
  simp only [Function.comp_apply, Nat.pow_succ', Nat.div_div_eq_div_mul]

/-- Writing a word and reading it back truncates to the width. -/
theorem wordValue_wordBytes (width n : Nat) :
    wordValue (wordBytes width n) = n % 256 ^ width := by
  induction width generalizing n with
  | zero => simp [wordBytes, Nat.mod_one]
  | succ width ih =>
      rw [wordBytes_succ, wordValue_cons, ih, Nat.pow_succ', Nat.mod_mul]
      simp

/-- A byte string denotes a number that fits its length. -/
theorem wordValue_lt (bytes : List UInt8) : wordValue bytes < 256 ^ bytes.length := by
  induction bytes with
  | nil => simp
  | cons byte rest ih =>
      have hByte : byte.toNat < 256 := byte.toNat_lt
      rw [wordValue_cons, List.length_cons, Nat.pow_succ]
      omega

/-- Reading a word and writing it back changes nothing. -/
theorem wordBytes_wordValue (bytes : List UInt8) :
    wordBytes bytes.length (wordValue bytes) = bytes := by
  induction bytes with
  | nil => rfl
  | cons byte rest ih =>
      have hByte : byte.toNat < 256 := byte.toNat_lt
      have hHigh : (byte.toNat + 256 * wordValue rest) / 256 = wordValue rest := by omega
      have hLow : UInt8.ofNat (byte.toNat + 256 * wordValue rest) = byte := by
        apply UInt8.toNat_inj.mp
        rw [UInt8.toNat_ofNat']
        omega
      rw [List.length_cons, wordBytes_succ, wordValue_cons, hHigh, ih, hLow]

/-- A byte string denotes zero exactly when every byte is zero. -/
theorem wordValue_eq_zero_iff (bytes : List UInt8) :
    wordValue bytes = 0 ↔ ∀ byte ∈ bytes, byte = 0 := by
  induction bytes with
  | nil => simp
  | cons byte rest ih =>
      rw [wordValue_cons, List.forall_mem_cons, ← ih, Nat.add_eq_zero_iff]
      refine and_congr ?_ (by omega)
      rw [← UInt8.toNat_inj]
      rfl

/-- Two numbers packed into one word come apart again. -/
theorem packed_parts (high : Nat) {low base : Nat} (h : low < base) :
    (high * base + low) / base = high ∧ (high * base + low) % base = low :=
  (Nat.div_mod_unique (Nat.zero_lt_of_lt h)).mpr ⟨by ring, h⟩

def wordAt (width : Nat) (bytes : List UInt8) (offset : Nat) : Nat :=
  wordValue ((bytes.drop offset).take width)

/-- A word can be read back at the place where it was written, whatever
stands before and after it. -/
theorem wordAt_of_drop {width n offset : Nat} {bytes after : List UInt8}
    (hDrop : bytes.drop offset = wordBytes width n ++ after) (h : n < 256 ^ width) :
    wordAt width bytes offset = n := by
  rw [wordAt, hDrop, List.take_left' (wordBytes_length width n), wordValue_wordBytes,
    Nat.mod_eq_of_lt h]

/-- A word inside the first part does not depend on what follows. -/
theorem wordAt_append {width offset : Nat} {bytes : List UInt8} (h : offset + width ≤ bytes.length)
    (after : List UInt8) : wordAt width (bytes ++ after) offset = wordAt width bytes offset := by
  have hRoom : width ≤ (bytes.drop offset).length := by
    rw [List.length_drop]
    omega
  rw [wordAt, wordAt, List.drop_append_of_le_length (by omega), List.take_append_of_le_length hRoom]

/-- Behind the part that a drop exposes stands what follows it. -/
theorem drop_past {offset width : Nat} {bytes first after : List UInt8}
    (hDrop : bytes.drop offset = first ++ after) (hWidth : first.length = width) :
    bytes.drop (offset + width) = after := by
  rw [← List.drop_drop, hDrop, List.drop_left' hWidth]

/-- Reading all words of a string and writing them back changes nothing. -/
theorem flatMap_wordAt {width n : Nat} {bytes : List UInt8} (h : bytes.length = n * width) :
    (List.range n).flatMap (fun c => wordBytes width (wordAt width bytes (width * c))) = bytes := by
  induction n generalizing bytes with
  | zero =>
      rw [Nat.zero_mul] at h
      rw [List.length_eq_zero_iff.mp h]
      rfl
  | succ n ih =>
      rw [Nat.succ_mul] at h
      have hFirst : wordBytes width (wordAt width bytes 0) = bytes.take width := by
        have hLength : (bytes.take width).length = width := by
          rw [List.length_take]
          omega
        simpa only [wordAt, List.drop_zero, hLength] using wordBytes_wordValue (bytes.take width)
      have hRest := @ih (bytes.drop width) (by rw [List.length_drop]; omega)
      simp only [wordAt, List.drop_drop] at hRest
      rw [List.range_succ_eq_map, List.flatMap_cons, Nat.mul_zero, hFirst, List.flatMap_map]
      simp only [wordAt, Nat.mul_succ, Nat.add_comm (width * _) width]
      rw [hRest, List.take_append_drop]

section Records

variable {α : Type*} {code : α → List UInt8} {width : Nat}

/-- Codes of one width take that width for each value. -/
theorem length_flatMap_of_width (hWidth : ∀ x, (code x).length = width) (xs : List α) :
    (xs.flatMap code).length = xs.length * width := by
  induction xs with
  | nil => simp
  | cons x rest ih => rw [List.flatMap_cons, List.length_append, hWidth, ih, List.length_cons]; ring

/-- In a string of records of one length, the records start at its multiples. -/
theorem drop_flatMap (hWidth : ∀ x, (code x).length = width) {xs : List α} {i offset : Nat} {x : α}
    {bytes after : List UInt8} (hDrop : bytes.drop offset = xs.flatMap code ++ after)
    (h : xs[i]? = some x) :
    bytes.drop (offset + i * width) = code x ++ ((xs.drop (i + 1)).flatMap code ++ after) := by
  induction xs generalizing i offset with
  | nil => simp at h
  | cons y rest ih =>
      rw [List.flatMap_cons, List.append_assoc] at hDrop
      cases i with
      | zero =>
          obtain rfl : y = x := by simpa using h
          simpa using hDrop
      | succ i =>
          have hRest := ih (drop_past hDrop (hWidth y)) (by simpa using h)
          rw [Nat.succ_mul, Nat.add_comm (i * width), ← Nat.add_assoc, hRest]
          rfl

/-- The words of a record. -/
theorem wordAt_words {words : List Nat} {k n offset : Nat} {bytes after : List UInt8}
    (hDrop : bytes.drop offset = words.flatMap (wordBytes width) ++ after)
    (hWord : words[k]? = some n)
    (h : n < 256 ^ width) : wordAt width bytes (offset + k * width) = n :=
  wordAt_of_drop (drop_flatMap (wordBytes_length width) hDrop hWord) h

/-- Words that stand one after the other are read back in order. -/
theorem map_wordAt_words {words : List Nat} {offset : Nat} {bytes after : List UInt8}
    (hDrop : bytes.drop offset = words.flatMap (wordBytes width) ++ after)
    (hWords : ∀ n ∈ words, n < 256 ^ width) :
    (List.range words.length).map (fun k => wordAt width bytes (offset + k * width)) = words := by
  apply List.ext_getElem
  · rw [List.length_map, List.length_range]
  · intro k hk hWord
    rw [List.getElem_map, List.getElem_range]
    exact wordAt_words hDrop (List.getElem?_eq_getElem hWord) (hWords _ (List.getElem_mem hWord))

/-- Pieces that are written one after the other, each with the place where it starts. -/
def withPlaces (code : α → List UInt8) : Nat → List α → List (α × Nat)
  | _, [] => []
  | place, x :: rest => (x, place) :: withPlaces code (place + (code x).length) rest

theorem withPlaces_map (base : Nat) (xs : List α) :
    (withPlaces code base xs).map Prod.fst = xs := by
  induction xs generalizing base with
  | nil => rfl
  | cons x rest ih => rw [withPlaces, List.map_cons, ih]

/-- A piece stands at the place that it is listed with. -/
theorem withPlaces_drop {base j place : Nat} {xs : List α} {x : α}
    (h : (withPlaces code base xs)[j]? = some (x, place)) :
    base ≤ place ∧ ∃ after, (xs.flatMap code).drop (place - base) = code x ++ after := by
  induction xs generalizing base j with
  | nil => simp [withPlaces] at h
  | cons first rest ih =>
      cases j with
      | zero =>
          simp only [withPlaces, List.getElem?_cons_zero, Option.some.injEq, Prod.mk.injEq] at h
          obtain ⟨rfl, rfl⟩ := h
          exact ⟨Nat.le_refl _, rest.flatMap code, by simp⟩
      | succ j =>
          simp only [withPlaces, List.getElem?_cons_succ] at h
          obtain ⟨hLe, after, hDrop⟩ := ih h
          refine ⟨by omega, after, ?_⟩
          have hSplit : place - base =
              (code first).length + (place - (base + (code first).length)) := by
            omega
          rw [List.flatMap_cons, hSplit, ← List.drop_drop, List.drop_left, hDrop]

end Records

end ByteCodec

/-! Lists that grow at their end. -/
namespace List

variable {α : Type*} {xs : List α} {y : α}

theorem forall_mem_concat {p : α → Prop} : (∀ x ∈ xs ++ [y], p x) ↔ (∀ x ∈ xs, p x) ∧ p y := by
  rw [forall_mem_append, forall_mem_singleton]

theorem pairwise_concat {r : α → α → Prop} :
    (xs ++ [y]).Pairwise r ↔ xs.Pairwise r ∧ ∀ x ∈ xs, r x y := by
  simp only [pairwise_append, pairwise_singleton, true_and, forall_mem_singleton]

end List
