import RiscvCkpt.Fastlz.Decompress

/-! The decompressors on any block, well formed or not: where they read and where they write.
A round either ends with its checks passed, or is rejected, or reads outside of the buffer; the
last is what has to be excluded. -/
namespace RiscvCkpt.Fastlz

open ByteMemory

theorem byteAt_ok {input : List UInt8} {ip : Nat} (h : ip < input.length) :
    ∃ byte, byteAt input ip = .ok byte := by
  rw [byteAt, List.getElem?_eq_getElem h]
  exact ⟨_, rfl⟩

/-- A part of a round that reads inside of the buffer, and what holds if no check fails. -/
def Safe {α : Type} (part : Except Stop α) (post : α → Prop) : Prop :=
  match part with
  | .ok a => post a
  | .error stop => stop = .rejected

namespace Safe

variable {α β : Type} {part : Except Stop α} {post : α → Prop} {next : α → Except Stop β}
  {post' : β → Prop}

theorem bind (h : Safe part post) (hNext : ∀ a, post a → Safe (next a) post') :
    Safe (part >>= next) post' := by
  cases part with
  | ok a => exact hNext a h
  | error stop => exact h

theorem mono (h : Safe part post) {post' : α → Prop} (hPost : ∀ a, post a → post' a) :
    Safe part post' := by
  cases part with
  | ok a => exact hPost a h
  | error stop => exact h

theorem boundCheck (cond : Prop) [Decidable cond] : Safe (boundCheck cond) fun _ => cond := by
  rw [Fastlz.boundCheck]
  split
  · next h => exact h
  · rfl

theorem byteAt {input : List UInt8} {ip : Nat} (h : ip < input.length) :
    Safe (byteAt input ip) fun _ => True := by
  obtain ⟨byte, hByte⟩ := byteAt_ok h
  rw [hByte]
  trivial

end Safe

/-- The output stays below `maxout`, and nothing behind it is written. -/
def Stays (maxout : Nat) (out out' : Out) : Prop :=
  out'.op ≤ maxout ∧ ∀ a, maxout ≤ a → out'.buf a = out.buf a

section Parts

variable {input : List UInt8} {length maxout ip : Nat} {out : Out}

/-- The end of a match stays in the output buffer. -/
theorem copyMatch_safe (back len : Nat) :
    Safe (copyMatch maxout back len out) (Stays maxout out) := by
  rw [copyMatch]
  refine (Safe.boundCheck _).bind fun _ hRoom => (Safe.boundCheck _).bind fun _ _ =>
    ⟨hRoom, fun a ha => ?_⟩
  rw [fastlzMemmove_eq]
  exact copyForward_beyond (by omega)

/-- A literal run stays in both buffers. -/
theorem copyLiteral_safe (hBuffer : length ≤ input.length) (ctrl : Nat) :
    Safe (copyLiteral input length maxout ip ctrl out) fun done => Stays maxout out done.out := by
  rw [copyLiteral]
  refine (Safe.boundCheck _).bind fun _ hRoom => (Safe.boundCheck _).bind fun _ hInside => ?_
  rw [if_neg (by omega)]
  refine ⟨hRoom, fun a ha => store_outside (Or.inr ?_)⟩
  rw [List.length_take]
  omega

/-- The length of a match is read inside of the input. -/
theorem readLen1_safe (hBuffer : length ≤ input.length) (hIp : ip < length) (len : Nat) :
    Safe (readLen1 input length ip len) fun code => code.next < length := by
  rw [readLen1]
  split
  · exact (Safe.boundCheck _).bind fun _ hMore => (Safe.byteAt (by omega)).bind fun _ _ => hMore
  · exact hIp

/-- The bytes of a long length are read inside of the input. -/
theorem readMore_safe (hBuffer : length ≤ input.length) (len : Nat) :
    Safe (readMore input length ip len) fun code => code.next < length := by
  induction hLeft : length - ip using Nat.strong_induction_on generalizing ip len with
  | _ left ih =>
      rw [readMore]
      split
      · next hMore =>
          refine (Safe.byteAt (by omega)).bind fun code _ => ?_
          split
          · exact (ih (length - (ip + 1)) (by omega) _ rfl).bind fun more hNext => hNext
          · exact hMore
      · rfl

theorem readLen2_safe (hBuffer : length < input.length) (hIp : ip ≤ length) (len : Nat) :
    Safe (readLen2 input length ip len) fun code => code.next ≤ length := by
  rw [readLen2]
  split
  · exact (readMore_safe (Nat.le_of_lt hBuffer) len).mono fun _ hNext => Nat.le_of_lt hNext
  · exact hIp

theorem readBack2_safe (hBuffer : length < input.length) (hIp : ip ≤ length) (ofs : Nat) :
    Safe (readBack2 input length ip ofs) fun _ => True := by
  rw [readBack2]
  refine (Safe.byteAt (by omega)).bind fun code _ => ?_
  split
  · exact (Safe.boundCheck _).bind fun _ hMore => (Safe.byteAt (by omega)).bind fun _ _ =>
      (Safe.byteAt (by omega)).bind fun _ _ => trivial
  · trivial

/-- A round of level 1 reads inside of the block. -/
theorem round1_safe (hBuffer : length ≤ input.length) {ctrl : Nat}
    (hIp : 32 ≤ ctrl → ip + 1 ≤ length) :
    Safe (round1 input length maxout ip ctrl out) fun done => Stays maxout out done.out := by
  rw [round1]
  split
  · next hMatch =>
      refine (readLen1_safe hBuffer (hIp hMatch) _).bind fun len hNext => ?_
      exact (Safe.byteAt (by omega)).bind fun _ _ =>
        (copyMatch_safe _ _).bind fun _ hStays => hStays
  · exact copyLiteral_safe hBuffer ctrl

/-- A round of level 2 may read the byte behind the block. -/
theorem round2_safe (hBuffer : length < input.length) {ctrl : Nat}
    (hIp : 32 ≤ ctrl → ip + 0 ≤ length) :
    Safe (round2 input length maxout ip ctrl out) fun done => Stays maxout out done.out := by
  rw [round2]
  split
  · next hMatch =>
      refine (readLen2_safe hBuffer (hIp hMatch) _).bind fun len hNext => ?_
      exact (readBack2_safe hBuffer hNext _).bind fun _ _ =>
        (copyMatch_safe _ _).bind fun _ hStays => hStays
  · exact copyLiteral_safe (Nat.le_of_lt hBuffer) ctrl

end Parts

/-- A whole run, from the rounds. The next control byte is inside of the block. -/
theorem decodeLoop_safe {round : (ip ctrl : Nat) → Out → Except Stop (Round ip)} {tail : Nat}
    {input : List UInt8} {length maxout : Nat} (hBuffer : length ≤ input.length)
    (hRound : ∀ {ip ctrl out}, (32 ≤ ctrl → ip + tail ≤ length) →
      Safe (round ip ctrl out) fun done => Stays maxout out done.out)
    {ip ctrl : Nat} {out : Out} (hIp : 32 ≤ ctrl → ip + tail ≤ length) :
    ∃ result, decodeLoop round tail input length ip ctrl out = some result ∧
      Stays maxout out result := by
  induction hLeft : length - ip using Nat.strong_induction_on generalizing ip ctrl out with
  | _ left ih =>
      have hSafe := @hRound ip ctrl out hIp
      rw [decodeLoop]
      cases hDone : round ip ctrl out with
      | error stop =>
          rw [hDone] at hSafe
          obtain rfl : stop = .rejected := hSafe
          exact ⟨_, rfl, Nat.zero_le _, fun _ _ => rfl⟩
      | ok done =>
          rw [hDone] at hSafe
          have hStays : Stays maxout out done.out := hSafe
          have hMoved := done.moved
          simp only
          split
          · exact ⟨done.out, rfl, hStays⟩
          · next hMore =>
              obtain ⟨byte, hByte⟩ := @byteAt_ok input done.next (by omega)
              rw [hByte]
              obtain ⟨result, hResult, hOp, hBeyond⟩ :=
                @ih (length - (done.next + 1)) (by omega) (done.next + 1) byte done.out
                  (by omega) rfl
              exact ⟨result, hResult, hOp, fun a ha => (hBeyond a ha).trans (hStays.2 a ha)⟩

/-- On any block, the decompressor returns. It reads inside of the block, but for one byte
behind a block of level 2, and it writes the first `maxout` bytes of the output at most. -/
theorem fastlzDecompress_bounds {input : List UInt8} {length : Nat} (hSome : 0 < length)
    (hBuffer : length ≤ input.length)
    (hLevel2 : ∀ byte ∈ input.head?, byte.toNat / 32 = 1 → length < input.length) (output : Memory)
    (maxout : Nat) :
    ∃ result, fastlzDecompress input length output maxout = some result ∧ result.op ≤ maxout ∧
      ∀ a, maxout ≤ a → result.buf a = output a := by
  obtain ⟨byte, rest, rfl⟩ := List.exists_cons_of_length_pos (Nat.lt_of_lt_of_le hSome hBuffer)
  have hFirst : byteAt (byte :: rest) 0 = .ok byte.toNat := rfl
  have hCtrl : 32 ≤ byte.toNat % 32 → 1 + 1 ≤ length := by omega
  have hCtrl' : 32 ≤ byte.toNat % 32 → 1 + 0 ≤ length := by omega
  rw [fastlzDecompress, hFirst]
  simp only
  split
  · rw [fastlz1Decompress, decodeWith, hFirst]
    exact decodeLoop_safe hBuffer (fun hIp => round1_safe hBuffer hIp) hCtrl
  · split
    · next hSecond =>
        have hMore := hLevel2 byte rfl (by omega)
        rw [fastlz2Decompress, decodeWith, hFirst]
        exact decodeLoop_safe hBuffer (fun hIp => round2_safe hMore hIp) hCtrl'
    · exact ⟨_, rfl, Nat.zero_le _, fun _ _ => rfl⟩

/-- A block that ends in a match, with one byte behind it. -/
theorem fastlzDecompress_bounds_match :
    ∃ result, fastlzDecompress [32, 0, 32, 0] 3 zero 8 = some result ∧ result.op ≤ 8 ∧
      ∀ a, 8 ≤ a → result.buf a = zero a :=
  fastlzDecompress_bounds (by decide) (by decide) (fun _ _ _ => by decide) zero 8

/-- The control byte of a match at the very end of a block of level 2. -/
example : (fastlzDecompress [32, 0, 32] 3 zero 8).isNone := by decide +kernel

end RiscvCkpt.Fastlz
