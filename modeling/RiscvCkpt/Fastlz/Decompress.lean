import RiscvCkpt.Fastlz.Format

/-! The decompressors of FastLZ. The input is the buffer they are given, of which the first
`length` bytes count; a read outside of the buffer is kept apart from a block that fails one
of their checks. -/
namespace RiscvCkpt.Fastlz

open ByteMemory Lz77

/-- Why a round does not end: it reads outside of the input buffer, or a
`FASTLZ_BOUND_CHECK` fails. -/
inductive Stop where
  | overread
  | rejected
  deriving DecidableEq, Repr

def byteAt (input : List UInt8) (ip : Nat) : Except Stop Nat :=
  match input[ip]? with
  | some byte => .ok byte.toNat
  | none => .error .overread

def boundCheck (cond : Prop) [Decidable cond] : Except Stop Unit :=
  if cond then .ok () else .error .rejected

/-- `*dest++ = *src++`, `count` times. -/
def copyForward (buf : Memory) (dest src : Nat) : Nat → Memory
  | 0 => buf
  | count + 1 => copyForward (store buf dest [buf src]) (dest + 1) (src + 1) count

def fastlzMemmove (buf : Memory) (dest src count : Nat) : Memory :=
  if 4 < count ∧ src + count ≤ dest then store buf dest (load buf src count)
  else copyForward buf dest src count

structure Round (ip : Nat) where
  next : Nat
  out : Out
  moved : ip < next

/-- A number that is read, and the place behind its code. -/
structure Code (least : Nat) where
  value : Nat
  next : Nat
  moved : least ≤ next

/-- The end of a match: `len` bytes from `back` before the end of the output. -/
def copyMatch (maxout back len : Nat) (out : Out) : Except Stop Out := do
  boundCheck (out.op + len ≤ maxout)
  boundCheck (back ≤ out.op)
  pure ⟨fastlzMemmove out.buf out.op (out.op - back) len, out.op + len⟩

/-- A literal run of `ctrl + 1` bytes. -/
def copyLiteral (input : List UInt8) (length maxout ip ctrl : Nat) (out : Out) :
    Except Stop (Round ip) := do
  let ctrl := ctrl + 1
  boundCheck (out.op + ctrl ≤ maxout)
  boundCheck (ip + ctrl ≤ length)
  if input.length < ip + ctrl then .error .overread
  else pure ⟨ip + ctrl, out.write ((input.drop ip).take ctrl) ctrl, by omega⟩

/-- The length of a match at level 1: `len` is six if a byte with more of it follows. -/
def readLen1 (input : List UInt8) (length ip len : Nat) : Except Stop (Code ip) :=
  if len = 6 then do
    boundCheck (ip + 2 ≤ length)
    let code ← byteAt input ip
    pure ⟨len + code, ip + 1, Nat.le_succ ip⟩
  else pure ⟨len, ip, Nat.le_refl ip⟩

def round1 (input : List UInt8) (length maxout ip ctrl : Nat) (out : Out) :
    Except Stop (Round ip) :=
  if 32 ≤ ctrl then do
    let ofs := ctrl % 32 * 256
    let len ← readLen1 input length ip (ctrl / 32 - 1)
    let code ← byteAt input len.next
    let out ← copyMatch maxout (ofs + 1 + code) (len.value + 3) out
    pure ⟨len.next + 1, out, Nat.lt_succ_of_le len.moved⟩
  else copyLiteral input length maxout ip ctrl out

/-- The loop over the bytes of a length at level 2: 255 goes on. `len` is a `uint32_t`. -/
def readMore (input : List UInt8) (length ip len : Nat) : Except Stop (Code ip) :=
  if ip + 2 ≤ length then do
    let code ← byteAt input ip
    if code = 255 then
      let more ← readMore input length (ip + 1) ((len + code) % 2 ^ 32)
      pure ⟨more.value, more.next, Nat.le_of_succ_le more.moved⟩
    else pure ⟨(len + code) % 2 ^ 32, ip + 1, Nat.le_succ ip⟩
  else .error .rejected
  termination_by length - ip

def readLen2 (input : List UInt8) (length ip len : Nat) : Except Stop (Code ip) :=
  if len = 6 then readMore input length ip len else pure ⟨len, ip, Nat.le_refl ip⟩

/-- The distance of a match at level 2. If all bits of it are set, two bytes follow. -/
def readBack2 (input : List UInt8) (length ip ofs : Nat) : Except Stop (Code (ip + 1)) := do
  let code ← byteAt input ip
  if code = 255 ∧ ofs = 31 * 256 then do
    boundCheck (ip + 1 + 2 < length)
    let high ← byteAt input (ip + 1)
    let low ← byteAt input (ip + 2)
    pure ⟨high * 256 + low + maxL2Distance + 1, ip + 3, by omega⟩
  else pure ⟨ofs + 1 + code, ip + 1, Nat.le_refl _⟩

def round2 (input : List UInt8) (length maxout ip ctrl : Nat) (out : Out) :
    Except Stop (Round ip) :=
  if 32 ≤ ctrl then do
    let len ← readLen2 input length ip (ctrl / 32 - 1)
    let back ← readBack2 input length len.next (ctrl % 32 * 256)
    let out ← copyMatch maxout back.value ((len.value + 3) % 2 ^ 32) out
    pure ⟨back.next, out, Nat.lt_of_le_of_lt len.moved back.moved⟩
  else copyLiteral input length maxout ip ctrl out

/-- The main loop, for the rounds of a level. It ends `tail` bytes before the end of the
block. The result is the output buffer and what is returned; `none` is a read outside of the
input buffer. -/
def decodeLoop (round : (ip ctrl : Nat) → Out → Except Stop (Round ip)) (tail : Nat)
    (input : List UInt8) (length ip ctrl : Nat) (out : Out) : Option Out :=
  match round ip ctrl out with
  | .error .overread => none
  | .error .rejected => some ⟨out.buf, 0⟩
  | .ok done =>
      if length ≤ done.next + tail then some done.out
      else
        match byteAt input done.next with
        | .error _ => none
        | .ok ctrl => decodeLoop round tail input length (done.next + 1) ctrl done.out
  termination_by length - ip
  decreasing_by
    have hMoved := done.moved
    omega

/-- The beginning of both decompressors: the level is masked out of the first byte. -/
def decodeWith (round : (ip ctrl : Nat) → Out → Except Stop (Round ip)) (tail : Nat)
    (input : List UInt8) (length : Nat) (output : Memory) : Option Out :=
  match byteAt input 0 with
  | .error _ => none
  | .ok first => decodeLoop round tail input length 1 (first % 32) ⟨output, 0⟩

/-- `fastlz1_decompress`. Its loop ends at `ip > ip_bound`, two bytes before the end. -/
def fastlz1Decompress (input : List UInt8) (length : Nat) (output : Memory) (maxout : Nat) :
    Option Out :=
  decodeWith (round1 input length maxout) 1 input length output

/-- `fastlz2_decompress`. Its loop ends at `ip >= ip_limit`. -/
def fastlz2Decompress (input : List UInt8) (length : Nat) (output : Memory) (maxout : Nat) :
    Option Out :=
  decodeWith (round2 input length maxout) 0 input length output

/-- `fastlz_decompress`: the first three bits of a block are its level. -/
def fastlzDecompress (input : List UInt8) (length : Nat) (output : Memory) (maxout : Nat) :
    Option Out :=
  match byteAt input 0 with
  | .error _ => none
  | .ok first =>
      if first / 32 + 1 = 1 then fastlz1Decompress input length output maxout
      else if first / 32 + 1 = 2 then fastlz2Decompress input length output maxout
      else some ⟨output, 0⟩

section Copies

theorem Out.text_length (out : Out) : out.text.length = out.op := load_length ..

/-- Copying byte by byte is copying at once if source and target do not overlap. -/
theorem copyForward_disjoint {buf : Memory} {dest src count : Nat} (h : src + count ≤ dest) :
    copyForward buf dest src count = store buf dest (load buf src count) := by
  induction count generalizing buf dest src with
  | zero => rw [copyForward, load_zero, store_nil]
  | succ count ih =>
      have hSource : load (store buf dest [buf src]) (src + 1) count = load buf (src + 1) count :=
        load_store_disjoint (Or.inl (by omega))
      have hBytes : load buf src (count + 1) = [buf src] ++ load buf (src + 1) count := by
        rw [Nat.add_comm count, load_add]
        rfl
      rw [copyForward, ih (by omega), hSource, hBytes, ← store_append]
      rfl

/-- `fastlz_memmove` copies byte by byte from the front, as an overlapping match needs it. -/
theorem fastlzMemmove_eq (buf : Memory) (dest src count : Nat) :
    fastlzMemmove buf dest src count = copyForward buf dest src count := by
  rw [fastlzMemmove]
  split
  · next hApart => rw [copyForward_disjoint hApart.2]
  · rfl

/-- Bytes copied from the text itself repeat it. -/
theorem copyForward_text {buf : Memory} {dest back : Nat} (hLow : 1 ≤ back) (hHigh : back ≤ dest)
    (count : Nat) :
    load (copyForward buf dest (dest - back) count) 0 (dest + count) =
      repeatBack back (load buf 0 dest) count := by
  induction count generalizing buf dest with
  | zero => rfl
  | succ count ih =>
      have hPut :=
        (Appends.write 0 ⟨buf, dest⟩ (Nat.le_refl [buf (dest - back)].length) (Nat.le_refl _)).text
      have hSymbol : (load buf 0 dest)[(load buf 0 dest).length - back]? =
          some (buf (dest - back)) := by
        rw [load_length, List.getElem?_eq_getElem (by rw [load_length]; omega)]
        simp [load]
      have hRest := @ih (store buf dest [buf (dest - back)]) (dest + 1) (by omega)
      rw [copyForward, show dest - back + 1 = dest + 1 - back by omega,
        show dest + (count + 1) = dest + 1 + count by omega, hRest, repeatBack, hSymbol]
      congr 1

theorem copyForward_beyond {buf : Memory} {dest src count a : Nat} (h : dest + count ≤ a) :
    copyForward buf dest src count a = buf a := by
  induction count generalizing buf dest src with
  | zero => rfl
  | succ count ih =>
      rw [copyForward, ih (by omega)]
      exact store_outside (Or.inr (by simp only [List.length_singleton]; omega))

end Copies

section Rounds

/-- A round that ends well: where the next control byte stands, and the text it leaves. -/
def Decodes {ip : Nat} (result : Except Stop (Round ip)) (next : Nat) (text : List UInt8) : Prop :=
  ∃ done, result = .ok done ∧ done.next = next ∧ done.out.text = text

variable {input : List UInt8} {length maxout ip : Nat} {out : Out} {after : List UInt8}

theorem byteAt_drop {byte : UInt8} (h : input.drop ip = byte :: after) :
    byteAt input ip = .ok byte.toNat := by
  have hByte : input[ip]? = some byte := by
    rw [← List.head?_drop, h, List.head?_cons]
  rw [byteAt, hByte]

theorem boundCheck_bind {α : Type} {cond : Prop} [Decidable cond] (h : cond)
    (next : Unit → Except Stop α) :
    (boundCheck cond >>= next) = next () := by
  rw [boundCheck, if_pos h]
  rfl

theorem ok_bind {α β : Type} (a : α) (next : α → Except Stop β) : (Except.ok a >>= next) = next a :=
  rfl

/-- The end of a match repeats what stands before it. -/
theorem copyMatch_ok {back len : Nat} (hLow : 1 ≤ back) (hHigh : back ≤ out.op)
    (hRoom : out.op + len ≤ maxout) :
    ∃ out', copyMatch maxout back len out = .ok out' ∧
      out'.text = repeatBack back out.text len := by
  refine ⟨⟨fastlzMemmove out.buf out.op (out.op - back) len, out.op + len⟩, ?_, ?_⟩
  · rw [copyMatch, boundCheck_bind hRoom, boundCheck_bind hHigh]
    rfl
  · rw [Out.text, fastlzMemmove_eq]
    exact copyForward_text hLow hHigh len

/-- A literal run is decoded. -/
theorem copyLiteral_ok {run : List UInt8} (hSome : 1 ≤ run.length)
    (hRoom : out.op + run.length ≤ maxout)
    (hInside : ip + run.length ≤ length) (hDrop : input.drop ip = run ++ after) :
    Decodes (copyLiteral input length maxout ip (run.length - 1) out) (ip + run.length)
      (out.text ++ run) := by
  have hCount : run.length - 1 + 1 = run.length := by omega
  have hBuffer : ¬ input.length < ip + run.length := by
    have hLength := congrArg List.length hDrop
    rw [List.length_drop, List.length_append] at hLength
    omega
  have hText := (Appends.write 0 out (Nat.le_refl run.length) (Nat.le_add_right ..)).text
  rw [List.take_length] at hText
  refine ⟨⟨ip + run.length, out.write ((input.drop ip).take run.length) run.length, by omega⟩,
    ?_, rfl, ?_⟩
  · simp only [copyLiteral, hCount]
    rw [boundCheck_bind hRoom, boundCheck_bind hInside, if_neg hBuffer]
    rfl
  · rw [hDrop, List.take_left, hText]

/-- The byte that holds a number below 256. -/
theorem toNat_ofNat {n : Nat} (h : n < 256) : (UInt8.ofNat n).toNat = n := by
  rw [UInt8.toNat_ofNat']
  omega

theorem drop_succ {byte : UInt8} (h : input.drop ip = byte :: after) :
    input.drop (ip + 1) = after := by
  rw [← List.drop_drop, h, List.drop_one, List.tail_cons]

/-- How many bytes must follow the code of a token. -/
def needs : Token UInt8 → Nat
  | .literal _ => 0
  | .copy _ _ => 1

/-- A round of a decompressor, on the code of a token of which the control byte has been read. -/
def RoundDecodes (round : (ip ctrl : Nat) → Out → Except Stop (Round ip)) (input : List UInt8)
    (length maxout : Nat) (code : Token UInt8 → List UInt8) (token : Token UInt8) : Prop :=
  ∀ {ip : Nat} {out : Out} {ctrl : UInt8} {body after : List UInt8}, code token = ctrl :: body →
    token.Reaches out.op → out.op + token.size ≤ maxout → ip + body.length + needs token ≤ length →
    input.drop ip = body ++ after →
    Decodes (round ip ctrl.toNat out) (ip + body.length) (token.expand out.text)

/-- A literal of at most 32 bytes, at either level. -/
theorem literal_decodes {round : (ip ctrl : Nat) → Out → Except Stop (Round ip)}
    (hRound : ∀ {ip ctrl out}, ctrl < 32 →
      round ip ctrl out = copyLiteral input length maxout ip ctrl out)
    {code : Token UInt8 → List UInt8} {run : List UInt8}
    (hCode : code (.literal run) = literalCode run)
    (hSome : 1 ≤ run.length) (hShort : run.length ≤ maxCopy) :
    RoundDecodes round input length maxout code (.literal run) := by
  intro ip out ctrl body after hBytes _ hRoom hInside hDrop
  rw [hCode, literalCode, List.cons.injEq] at hBytes
  obtain ⟨rfl, rfl⟩ := hBytes
  rw [maxCopy] at hShort
  rw [toNat_ofNat (by omega), hRound (by omega)]
  exact copyLiteral_ok hSome hRoom hInside hDrop

/-- A match of level 1 whose parts can be read. -/
theorem round1_match {ctrl back size : Nat} (hCtrl : 32 ≤ ctrl) {len : Code ip} {code : Nat}
    (hLen : readLen1 input length ip (ctrl / 32 - 1) = .ok len)
    (hCode : byteAt input len.next = .ok code)
    (hBack : ctrl % 32 * 256 + 1 + code = back) (hSize : len.value + 3 = size) (hLow : 1 ≤ back)
    (hHigh : back ≤ out.op) (hRoom : out.op + size ≤ maxout) :
    Decodes (round1 input length maxout ip ctrl out) (len.next + 1)
      (repeatBack back out.text size) := by
  subst hBack hSize
  obtain ⟨out', hCopy, hText⟩ := copyMatch_ok hLow hHigh hRoom
  refine ⟨⟨len.next + 1, out', Nat.lt_succ_of_le len.moved⟩, ?_, rfl, hText⟩
  rw [round1, if_pos hCtrl, hLen, ok_bind, hCode, ok_bind, hCopy]
  rfl

/-- A match of level 1. -/
theorem round1_copy {distance size : Nat} (hNear : distance ≤ maxL1Distance) (hLow : 3 ≤ size)
    (hHigh : size ≤ maxLen) :
    RoundDecodes (round1 input length maxout) input length maxout code1 (.copy distance size) := by
  intro ip out ctrl body after hBytes hReach hRoom hInside hDrop
  simp only [maxL1Distance, maxLen] at hNear hHigh
  obtain ⟨hFirst, hBack⟩ := hReach
  rw [code1] at hBytes
  by_cases hShort : size < 9
  · rw [if_pos hShort, List.cons.injEq] at hBytes
    obtain ⟨rfl, rfl⟩ := hBytes
    rw [toNat_ofNat (by omega)]
    have hLen : readLen1 input length ip (((size - 2) * 32 + (distance - 1) / 256) / 32 - 1) =
        .ok ⟨((size - 2) * 32 + (distance - 1) / 256) / 32 - 1, ip, Nat.le_refl ip⟩ := by
      rw [readLen1, if_neg (by omega)]
      rfl
    have hCode := byteAt_drop hDrop
    rw [toNat_ofNat (by omega)] at hCode
    exact round1_match (by omega) hLen hCode (by omega) (by simp only; omega) hFirst hBack hRoom
  · rw [if_neg hShort, List.cons.injEq] at hBytes
    obtain ⟨rfl, rfl⟩ := hBytes
    rw [toNat_ofNat (by omega)]
    have hMore := byteAt_drop hDrop
    have hCode := byteAt_drop (drop_succ hDrop)
    rw [toNat_ofNat (by omega)] at hMore hCode
    have hLen : readLen1 input length ip ((7 * 32 + (distance - 1) / 256) / 32 - 1) =
        .ok ⟨(7 * 32 + (distance - 1) / 256) / 32 - 1 + (size - 9), ip + 1, Nat.le_succ ip⟩ := by
      rw [readLen1, if_pos (by omega),
        boundCheck_bind (by simp only [List.length_cons, List.length_nil] at hInside; omega), hMore]
      rfl
    exact round1_match (by omega) hLen hCode (by omega) (by simp only; omega) hFirst hBack hRoom

theorem lengthCode_less {n : Nat} (h : n < 255) : lengthCode n = [UInt8.ofNat n] := by
  rw [lengthCode, Nat.div_eq_of_lt h, Nat.mod_eq_of_lt h]
  rfl

/-- The bytes of a length add up to it. -/
theorem readMore_code {n len : Nat} (hFit : len + n < 2 ^ 32)
    (hInside : ip + (lengthCode n).length + 1 ≤ length)
    (hDrop : input.drop ip = lengthCode n ++ after) :
    ∃ code : Code ip, readMore input length ip len = .ok code ∧ code.value = len + n ∧
      code.next = ip + (lengthCode n).length := by
  induction n using Nat.strong_induction_on generalizing ip len with
  | _ n ih =>
      by_cases hMore : 255 ≤ n
      · rw [lengthCode_more hMore, List.cons_append] at hDrop
        rw [lengthCode_more hMore, List.length_cons] at hInside ⊢
        obtain ⟨code, hCode, hValue, hNext⟩ :=
          @ih (n - 255) (by omega) (ip + 1) (len + 255) (by omega) (by omega) (drop_succ hDrop)
        refine ⟨⟨code.value, code.next, Nat.le_of_succ_le code.moved⟩, ?_, hValue.trans (by omega),
          hNext.trans (by omega)⟩
        have hByte : byteAt input ip = .ok 255 := byteAt_drop hDrop
        rw [readMore, if_pos (by omega), hByte, ok_bind, if_pos rfl,
          Nat.mod_eq_of_lt (by omega), hCode]
        rfl
      · rw [lengthCode_less (by omega), List.cons_append] at hDrop
        rw [lengthCode_less (by omega), List.length_singleton] at hInside ⊢
        have hByte := byteAt_drop hDrop
        rw [toNat_ofNat (by omega)] at hByte
        refine ⟨⟨len + n, ip + 1, Nat.le_succ ip⟩, ?_, rfl, rfl⟩
        rw [readMore, if_pos (by omega), hByte, ok_bind, if_neg (by omega)]
        simp only [Nat.mod_eq_of_lt hFit]
        rfl

/-- The head of a match of level 2: its control byte, and its length. -/
theorem readLen2_head {size high : Nat} {ctrl : UInt8} {body : List UInt8}
    (hCode : matchHead size high = ctrl :: body)
    (hHigh : high < 32) (hLow : 3 ≤ size) (hFit : size < 2 ^ 32)
    (hInside : ip + body.length + 1 ≤ length) (hDrop : input.drop ip = body ++ after) :
    32 ≤ ctrl.toNat ∧ ctrl.toNat % 32 = high ∧ ∃ len : Code ip,
      readLen2 input length ip (ctrl.toNat / 32 - 1) = .ok len ∧ len.value = size - 3 ∧
        len.next = ip + body.length := by
  rw [matchHead] at hCode
  by_cases hShort : size < 9
  · rw [if_pos hShort, List.cons.injEq] at hCode
    obtain ⟨rfl, rfl⟩ := hCode
    rw [toNat_ofNat (by omega)]
    refine ⟨by omega, by omega, ⟨size - 3, ip, Nat.le_refl ip⟩, ?_, rfl, rfl⟩
    rw [readLen2, if_neg (by omega)]
    have hLen : ((size - 2) * 32 + high) / 32 - 1 = size - 3 := by omega
    simp only [hLen]
    rfl
  · rw [if_neg hShort, List.cons.injEq] at hCode
    obtain ⟨rfl, rfl⟩ := hCode
    rw [toNat_ofNat (by omega)]
    have hLen : (7 * 32 + high) / 32 - 1 = 6 := by omega
    have hFit : 6 + (size - 9) < 2 ^ 32 := by omega
    obtain ⟨len, hRead, hValue, hNext⟩ := readMore_code hFit hInside hDrop
    refine ⟨by omega, by omega, len, ?_, by omega, hNext⟩
    rw [readLen2, hLen, if_pos rfl, hRead]

/-- A match of level 2 whose parts can be read. -/
theorem round2_match {ctrl distance size : Nat} (hCtrl : 32 ≤ ctrl) {len : Code ip}
    {back : Code (len.next + 1)} (hLen : readLen2 input length ip (ctrl / 32 - 1) = .ok len)
    (hBack : readBack2 input length len.next (ctrl % 32 * 256) = .ok back)
    (hDistance : back.value = distance)
    (hSize : (len.value + 3) % 2 ^ 32 = size) (hLow : 1 ≤ distance) (hHigh : distance ≤ out.op)
    (hRoom : out.op + size ≤ maxout) :
    Decodes (round2 input length maxout ip ctrl out) back.next
      (repeatBack distance out.text size) := by
  subst hDistance hSize
  obtain ⟨out', hCopy, hText⟩ := copyMatch_ok hLow hHigh hRoom
  refine ⟨⟨back.next, out', Nat.lt_of_le_of_lt len.moved back.moved⟩, ?_, rfl, hText⟩
  rw [round2, if_pos hCtrl, hLen, ok_bind, hBack, ok_bind, hCopy]
  rfl

theorem matchHead_cons (size high : Nat) : ∃ ctrl body, matchHead size high = ctrl :: body := by
  rw [matchHead]
  split
  · exact ⟨_, _, rfl⟩
  · exact ⟨_, _, rfl⟩

/-- The end of a match of level 2: the bytes that make up its distance. -/
def ReadsBack (input : List UInt8) (length high : Nat) (tail : List UInt8) (distance : Nat) :
    Prop :=
  ∀ {place : Nat} {after : List UInt8}, input.drop place = tail ++ after →
    place + tail.length + 1 ≤ length →
    ∃ back : Code (place + 1), readBack2 input length place (high * 256) = .ok back ∧
      back.value = distance ∧
      back.next = place + tail.length

/-- A near distance is read back from one byte. -/
theorem readsBack_near {distance : Nat} (hLow : 1 ≤ distance)
    (hNear : distance - 1 < maxL2Distance) :
    ReadsBack input length ((distance - 1) / 256)
      [UInt8.ofNat ((distance - 1) % 256)] distance := by
  intro place after hDrop _
  rw [maxL2Distance] at hNear
  have hByte := byteAt_drop hDrop
  rw [toNat_ofNat (by omega)] at hByte
  refine ⟨⟨(distance - 1) / 256 * 256 + 1 + (distance - 1) % 256, place + 1, Nat.le_refl _⟩,
    ?_, ?_, rfl⟩
  · -- a near distance does not have all bits set
    rw [readBack2, hByte, ok_bind, if_neg (by omega)]
    rfl
  · simp only
    omega

/-- A far distance is read back from three bytes. -/
theorem readsBack_far {distance : Nat} (hFar : ¬ distance - 1 < maxL2Distance)
    (hReach : distance < maxFarDistance) :
    ReadsBack input length 31 [255, UInt8.ofNat ((distance - 1 - maxL2Distance) / 256),
      UInt8.ofNat ((distance - 1 - maxL2Distance) % 256)] distance := by
  intro place after hDrop hInside
  simp only [maxFarDistance, maxL2Distance, List.length_cons, List.length_nil] at *
  have hCode : byteAt input place = .ok 255 := byteAt_drop hDrop
  have hHigh := byteAt_drop (drop_succ hDrop)
  have hLow := byteAt_drop (drop_succ (drop_succ hDrop))
  rw [toNat_ofNat (by omega)] at hHigh hLow
  refine ⟨⟨(distance - 1 - 8191) / 256 * 256 + (distance - 1 - 8191) % 256 + maxL2Distance +
    1, place + 3, by omega⟩, ?_, ?_, rfl⟩
  · rw [readBack2, hCode, ok_bind, if_pos ⟨rfl, rfl⟩, boundCheck_bind (by omega), hHigh, ok_bind,
      hLow]
    rfl
  · simp only [maxL2Distance]
    omega

/-- The code of a match of level 2 is a head and the end that holds its distance. -/
theorem code2_copy {distance : Nat} (hLow : 1 ≤ distance) (hReach : distance < maxFarDistance)
    (size : Nat) :
    ∃ high < 32, ∃ tail, code2 (.copy distance size) = matchHead size high ++ tail ∧
      1 ≤ tail.length ∧
      ∀ (input : List UInt8) (length : Nat), ReadsBack input length high tail distance := by
  rw [code2]
  split
  · next hNear =>
      exact ⟨_,
        by rw [maxL2Distance] at hNear; omega, _, rfl, Nat.le_refl 1, fun _ _ =>
        readsBack_near hLow hNear⟩
  · next hFar => exact ⟨31, by decide, _, rfl, by simp, fun _ _ => readsBack_far hFar hReach⟩

/-- A match of level 2. -/
theorem round2_copy {distance size : Nat} (hFar : distance < maxFarDistance) (hLow : 3 ≤ size)
    (hFit : size < 2 ^ 32) :
    RoundDecodes (round2 input length maxout) input length maxout code2 (.copy distance size) := by
  intro ip out ctrl body after hBytes hReach hRoom hInside hDrop
  obtain ⟨hFirst, hBack⟩ := hReach
  obtain ⟨high, hHigh, tail, hCode, hTail, hReads⟩ := code2_copy hFirst hFar size
  obtain ⟨first, head, hHead⟩ := matchHead_cons size high
  rw [hCode, hHead, List.cons_append, List.cons.injEq] at hBytes
  obtain ⟨rfl, rfl⟩ := hBytes
  rw [List.length_append, needs] at hInside
  rw [List.append_assoc] at hDrop
  rw [Token.size] at hRoom
  have hHeadInside : ip + head.length + 1 ≤ length := by omega
  obtain ⟨hCtrl, hOfs, len, hLen, hValue, hNext⟩ :=
    readLen2_head hHead hHigh hLow hFit hHeadInside hDrop
  have hRest : input.drop len.next = tail ++ after := by
    rw [hNext]
    exact ByteCodec.drop_past hDrop rfl
  obtain ⟨back, hRead, hDistance, hEnd⟩ := hReads input length hRest (by omega)
  have hDecodes := round2_match hCtrl hLen (hOfs ▸ hRead) hDistance (by omega) hFirst hBack hRoom
  rwa [hEnd, hNext, Nat.add_assoc, ← List.length_append] at hDecodes

end Rounds

end RiscvCkpt.Fastlz
