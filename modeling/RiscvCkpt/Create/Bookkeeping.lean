import RiscvCkpt.Create.CkptInfo

/-! What the byte bookkeeping of a checkpoint computes. An access that crosses
into a known region at its middle, into a new region, or not at all, is booked
byte by byte: `exist` reports the former marks and exactly the accessed bytes
are marked in addition. The remaining crossings are where the source's second
loop has the wrong bound. -/
namespace RiscvCkpt

/-- One booking loop sets a block of marks and reports a block of former ones. -/
theorem markBytes_spec (fresh : Bool) (data exist : Nat → UInt8) (idx off n : Nat) :
    (∀ x, (markBytes fresh data exist idx off n).1 x =
      if idx ≤ x ∧ x < idx + n then 1 else data x) ∧
    (∀ x, (markBytes fresh data exist idx off n).2 x =
      if off ≤ x ∧ x < off + n then (if fresh then 0 else data (idx + (x - off)))
      else exist x) := by
  induction n with
  | zero =>
      refine ⟨fun x => ?_, fun x => ?_⟩ <;>
        simp only [markBytes] <;> rw [if_neg (by omega)]
  | succ n ih =>
      obtain ⟨hData, hExist⟩ := ih
      refine ⟨fun x => ?_, fun x => ?_⟩
      · simp only [markBytes, Function.update_apply, hData]
        by_cases hx : x = idx + n
        · rw [if_pos hx, if_pos (by omega)]
        · rw [if_neg hx]
          exact if_congr (by omega) rfl rfl
      · simp only [markBytes, Function.update_apply, hExist, hData]
        by_cases hx : x = off + n
        · subst hx
          simp
        · rw [if_neg hx]
          exact if_congr (by omega) rfl rfl

/-- Booking a block inside one region: the block is marked, `exist` reports
the former marks of the block, and nothing else changes. -/
theorem bookRegion_spec (regions : RegionMap) (exist : Nat → UInt8)
    (key idx off freshLen knownLen len : Nat) (hKey : AccessRange ∣ key)
    (hLen : len = if key ∈ regions.keys then knownLen else freshLen)
    (hFits : idx + len ≤ AccessRange) :
    (∀ b, (bookRegion regions exist key idx off freshLen knownLen).1.mark b =
      if key + idx ≤ b ∧ b < key + idx + len then 1 else regions.mark b) ∧
    (∀ x, (bookRegion regions exist key idx off freshLen knownLen).2 x =
      if off ≤ x ∧ x < off + len then regions.mark (key + idx + (x - off)) else exist x) := by
  have hRegion : ∀ b, key + idx ≤ b → b < key + idx + len → regionOf b = key := by
    intro b hLow hHigh
    obtain ⟨k, rfl⟩ := hKey
    simp only [regionOf, AccessRange] at *
    omega
  have hAbove : ∀ b, regionOf b = key → key ≤ b := by
    rintro b rfl
    exact Nat.div_mul_le_self b AccessRange
  -- both branches store a marked copy of what the key held, zero if it was absent
  obtain ⟨fresh, data, hBook, hFormer⟩ : ∃ fresh data,
      bookRegion regions exist key idx off freshLen knownLen =
        (regions.insert key (markBytes fresh data exist idx off len).1,
          (markBytes fresh data exist idx off len).2) ∧
      ∀ b, regionOf b = key →
        data (b - key) = regions.mark b ∧ (fresh = true → regions.mark b = 0) := by
    by_cases hIn : key ∈ regions.keys
    · refine ⟨false, regions.region key, ?_, ?_⟩
      · simp only [bookRegion, if_pos hIn, hLen]
      · rintro b rfl
        simp [RegionMap.mark, hIn]
    · refine ⟨true, fun _ => 0, ?_, ?_⟩
      · simp only [bookRegion, if_neg hIn, hLen]
      · rintro b rfl
        simp [RegionMap.mark, hIn]
  obtain ⟨hData, hExist⟩ := markBytes_spec fresh data exist idx off len
  rw [hBook]
  refine ⟨fun b => ?_, fun x => ?_⟩
  · by_cases hb : regionOf b = key
    · have hGe := hAbove b hb
      simp only [RegionMap.mark, hb, RegionMap.insert, Finset.mem_insert_self, if_true,
        Function.update_self, hData]
      rw [(hFormer b hb).1, RegionMap.mark, hb]
      exact if_congr (by omega) rfl rfl
    · rw [if_neg (fun h => hb (hRegion b h.1 h.2))]
      simp [RegionMap.mark, RegionMap.insert, hb]
  · rw [hExist]
    by_cases hx : off ≤ x ∧ x < off + len
    · have hb := hRegion (key + idx + (x - off)) (by omega) (by omega)
      obtain ⟨hd, hFresh⟩ := hFormer _ hb
      rw [if_pos hx, if_pos hx, ← hd]
      cases fresh with
      | false => simp [show key + idx + (x - off) - key = idx + (x - off) by omega]
      | true => simp [hd, hFresh rfl]
    · rw [if_neg hx, if_neg hx]

/-- The access does not enter an already known region at a place other than
its own middle, which is where the source's loop bound is wrong. -/
def BookedRight (known : Finset Nat) (addr size : Nat) : Prop :=
  regionOf addr + AccessRange < addr + size → regionOf addr + AccessRange ∈ known →
    2 * (regionOf addr + AccessRange - addr) = size

instance (known : Finset Nat) (addr size : Nat) : Decidable (BookedRight known addr size) :=
  inferInstanceAs (Decidable (_ → _ → _))

/-- An access inside a region books that region only. -/
theorem addAddrInfo_inside (regions : RegionMap) (addr size : Nat) (exist : Nat → UInt8)
    (hPos : 0 < size) (h : addr + size ≤ regionOf addr + AccessRange) :
    addAddrInfo regions addr size exist =
      bookRegion regions exist (regionOf addr) (addr - regionOf addr) 0 size size := by
  have hLen : ¬ addr + size - 1 ≥ regionOf addr + AccessRange := by omega
  simp [addAddrInfo, hLen]

/-- An access over a boundary books both regions. A known second one gets the first part's length.
-/
theorem addAddrInfo_crossing (regions : RegionMap) (addr size : Nat) (exist : Nat → UInt8)
    (h : regionOf addr + AccessRange < addr + size) :
    addAddrInfo regions addr size exist =
      let len2 := addr + size - (regionOf addr + AccessRange)
      let len1 := size - len2
      let first := bookRegion regions exist (regionOf addr) (addr - regionOf addr) 0 len1 len1
      bookRegion first.1 first.2 (regionOf addr + AccessRange) 0 len1 len2 len1 := by
  have hLen : addr + size - 1 ≥ regionOf addr + AccessRange := by omega
  have hNe : addr + size - (regionOf addr + AccessRange) ≠ 0 := by omega
  simp [addAddrInfo, hLen, hNe]

/-- Booking adds the region and keeps the others. -/
theorem bookRegion_keys (regions : RegionMap) (exist : Nat → UInt8)
    (key idx off freshLen knownLen : Nat) :
    (bookRegion regions exist key idx off freshLen knownLen).1.keys = insert key regions.keys := by
  simp only [bookRegion]
  split <;> rfl

/-- The regions an access enters are known afterwards, whatever was known. -/
theorem mem_addAddrInfo_keys (regions : RegionMap) (addr size : Nat) (exist : Nat → UInt8)
    (hPos : 0 < size) (hSize : size ≤ AccessRange) (key : Nat) :
    key ∈ (addAddrInfo regions addr size exist).1.keys ↔
      key ∈ regions.keys ∨ key = regionOf addr ∨ key = regionOf (addr + size - 1) := by
  by_cases h : addr + size ≤ regionOf addr + AccessRange
  · have hLast : regionOf (addr + size - 1) = regionOf addr := by
      simp only [regionOf, AccessRange] at *
      omega
    rw [addAddrInfo_inside _ _ _ _ hPos h, bookRegion_keys, Finset.mem_insert, hLast, or_self,
      or_comm]
  · have hLast : regionOf (addr + size - 1) = regionOf addr + AccessRange := by
      simp only [regionOf, AccessRange] at *
      omega
    rw [addAddrInfo_crossing _ _ _ _ (by omega)]
    simp only [bookRegion_keys, Finset.mem_insert, hLast]
    rw [or_comm, or_comm (a := key = regionOf addr), or_assoc]

/-- A rightly booked access: `exist` reports the former marks of its bytes,
and exactly its bytes are marked in addition. -/
theorem addAddrInfo_spec (regions : RegionMap) (addr size : Nat) (exist : Nat → UInt8)
    (hPos : 0 < size) (hSize : size ≤ AccessRange) (hRight : BookedRight regions.keys addr size) :
    (∀ b, (addAddrInfo regions addr size exist).1.mark b =
      if addr ≤ b ∧ b < addr + size then 1 else regions.mark b) ∧
    (∀ i < size, (addAddrInfo regions addr size exist).2 i = regions.mark (addr + i)) := by
  have hBase := regionOf_le addr
  have hIn := lt_regionOf_add addr
  have hDvd : AccessRange ∣ regionOf addr := Nat.dvd_mul_left _ _
  have hStart : regionOf addr + (addr - regionOf addr) = addr := by omega
  by_cases h : addr + size ≤ regionOf addr + AccessRange
  · rw [addAddrInfo_inside _ _ _ _ hPos h]
    obtain ⟨hMark, hExist⟩ := bookRegion_spec regions exist (regionOf addr)
      (addr - regionOf addr) 0 size size size hDvd (by simp) (by omega)
    rw [hStart] at hMark hExist
    refine ⟨hMark, fun i hi => ?_⟩
    rw [hExist, if_pos (by omega), Nat.sub_zero]
  · rw [addAddrInfo_crossing _ _ _ _ (by omega)]
    -- the two parts meet at the boundary, the second one runs to `len2` in either branch
    obtain ⟨len1, hLen1⟩ : ∃ len1, len1 = regionOf addr + AccessRange - addr := ⟨_, rfl⟩
    obtain ⟨len2, hLen2⟩ : ∃ len2, len2 = addr + size - (regionOf addr + AccessRange) := ⟨_, rfl⟩
    have hSplit : size - len2 = len1 := by omega
    simp only [← hLen2, hSplit]
    obtain ⟨hMark1, hExist1⟩ := bookRegion_spec regions exist (regionOf addr)
      (addr - regionOf addr) 0 len1 len1 len1 hDvd (by simp) (by omega)
    have hKeys := bookRegion_keys regions exist (regionOf addr) (addr - regionOf addr) 0 len1 len1
    rw [hStart] at hMark1 hExist1
    generalize bookRegion regions exist (regionOf addr) (addr - regionOf addr) 0 len1 len1 = first
      at hMark1 hExist1 hKeys ⊢
    have hSecond : len2 = if regionOf addr + AccessRange ∈ first.1.keys then len1 else len2 := by
      split
      · rename_i hMem
        rw [hKeys, Finset.mem_insert] at hMem
        have hEq := hRight (by omega) (hMem.resolve_left (by simp [AccessRange]))
        omega
      · rfl
    obtain ⟨hMark2, hExist2⟩ := bookRegion_spec first.1 first.2 (regionOf addr + AccessRange)
      0 len1 len2 len1 len2 (Nat.dvd_add hDvd dvd_rfl) hSecond (by omega)
    refine ⟨fun b => ?_, fun i hi => ?_⟩
    · rw [hMark2, hMark1]
      by_cases hb : addr ≤ b ∧ b < addr + size
      · rw [if_pos hb]
        by_cases hb2 : regionOf addr + AccessRange ≤ b
        · rw [if_pos (by omega)]
        · rw [if_neg (by omega), if_pos (by omega)]
      · rw [if_neg hb, if_neg (by omega), if_neg (by omega)]
    · rw [hExist2]
      by_cases hi2 : len1 ≤ i
      · rw [if_pos (by omega), hMark1, if_neg (by omega),
          show regionOf addr + AccessRange + 0 + (i - len1) = addr + i by omega]
      · rw [if_neg (by omega), hExist1, if_pos (by omega), Nat.sub_zero]

namespace CkptInfo

/-- A load changes the list of loads and the regions, nothing else. It is booked whether
or not it turns out to be a first load. -/
theorem addload_frame (stack : Nat → UInt8) (info : CkptInfo) (addr : Nat) (data : List UInt8)
    (size : Nat) :
    ∃ loads, info.addload stack addr data size =
      { info with
        preAccess := (addAddrInfo info.preAccess addr size stack).1, loads := loads } := by
  rw [addload]
  generalize addAddrInfo info.preAccess addr size stack = booked
  obtain ⟨regions, exist⟩ := booked
  generalize firstMask exist data size = mask
  obtain ⟨isFirst, bytes⟩ := mask
  dsimp only
  split
  · exact ⟨_, rfl⟩
  · exact ⟨_, rfl⟩

/-- A load books its bytes, whatever it records of them. -/
theorem addload_preAccess (stack : Nat → UInt8) (info : CkptInfo) (addr : Nat)
    (data : List UInt8) (size : Nat) :
    (info.addload stack addr data size).preAccess =
      (addAddrInfo info.preAccess addr size stack).1 := by
  obtain ⟨loads, hLoad⟩ := info.addload_frame stack addr data size
  rw [hLoad]

end CkptInfo

/-- An entry of the array `exist`, or of the array of a region. -/
inductive ArrayEntry where
  | exist (i : Nat)
  | region (key i : Nat)
  deriving DecidableEq, Repr

def loopEntries (key idx off n : Nat) : List ArrayEntry :=
  (List.range n).flatMap fun i => [.exist (off + i), .region key (idx + i)]

/-- The entries that `addAddrInfo` reads and writes. The second region is looked up with
the first one inserted, which is another one. -/
def addAddrEntries (known : Finset Nat) (addr size : Nat) : List ArrayEntry :=
  let base := regionOf addr
  let addr1 := base + AccessRange
  let len2 := if addr + size - 1 ≥ addr1 then addr + size - addr1 else 0
  let len1 := size - len2
  loopEntries base (addr - base) 0 len1 ++
    if len2 ≠ 0 then loopEntries addr1 0 len1 (if addr1 ∈ known then len1 else len2) else []

/-- The entry exists: `exist` has room for the bytes of the access, a region for its own. -/
def ArrayEntry.InBounds (size : Nat) : ArrayEntry → Prop
  | .exist i => i < size
  | .region _ i => i < AccessRange

/-- The access is booked as it should be: within the arrays, with the former marks of its
bytes in `exist`, and with no other marks than before and its own. -/
structure ExactBooking (regions : RegionMap) (addr size : Nat) : Prop where
  inBounds : ∀ entry ∈ addAddrEntries regions.keys addr size, entry.InBounds size
  exist : ∀ stack, ∀ i < size,
    (addAddrInfo regions addr size stack).2 i ≠ 0 ↔ regions.Marked (addr + i)
  marks : ∀ stack b, (addAddrInfo regions addr size stack).1.Marked b ↔
    regions.Marked b ∨ addr ≤ b ∧ b < addr + size

/-- A booking loop is in bounds if each of its rounds is, in both arrays. -/
theorem loopEntries_inBounds {key idx off n size : Nat} :
    (∀ entry ∈ loopEntries key idx off n, entry.InBounds size) ↔
      ∀ i < n, off + i < size ∧ idx + i < AccessRange := by
  simp only [loopEntries, List.mem_flatMap, List.mem_range, List.mem_cons,
    List.not_mem_nil, or_false]
  constructor
  · intro h i hi
    exact ⟨h (.exist (off + i)) ⟨i, hi, Or.inl rfl⟩, h (.region key (idx + i)) ⟨i, hi, Or.inr rfl⟩⟩
  · rintro h entry ⟨i, hi, rfl | rfl⟩
    · exact (h i hi).1
    · exact (h i hi).2

/-- The entries of an access that stays inside its region. -/
theorem addAddrEntries_inside (known : Finset Nat) {addr size : Nat} (hPos : 0 < size)
    (h : addr + size ≤ regionOf addr + AccessRange) :
    addAddrEntries known addr size = loopEntries (regionOf addr) (addr - regionOf addr) 0 size := by
  have hLen : ¬ addr + size - 1 ≥ regionOf addr + AccessRange := by omega
  simp [addAddrEntries, hLen]

/-- The entries of an access that crosses into the next region. -/
theorem addAddrEntries_crossing (known : Finset Nat) {addr size : Nat} (hSize : size ≤ AccessRange)
    (h : regionOf addr + AccessRange < addr + size) :
    addAddrEntries known addr size =
      let len1 := regionOf addr + AccessRange - addr
      let len2 := addr + size - (regionOf addr + AccessRange)
      loopEntries (regionOf addr) (addr - regionOf addr) 0 len1 ++
        loopEntries (regionOf addr + AccessRange) 0 len1
          (if regionOf addr + AccessRange ∈ known then len1 else len2) := by
  have hIn : addr < regionOf addr + AccessRange := by
    simp only [regionOf, AccessRange]
    omega
  have hLen : addr + size - 1 ≥ regionOf addr + AccessRange := by omega
  have hNe : addr + size - (regionOf addr + AccessRange) ≠ 0 := by omega
  have hSplit : size - (addr + size - (regionOf addr + AccessRange)) =
      regionOf addr + AccessRange - addr := by omega
  simp only [addAddrEntries, if_pos hLen, if_pos hNe, hSplit]

/-- The loop over a known second region sets `len1` entries of `exist`, however long the
second part is. -/
theorem addAddrInfo_unset (regions : RegionMap) {addr size : Nat} (stack : Nat → UInt8)
    (hSize : size ≤ AccessRange) (hCross : regionOf addr + AccessRange < addr + size)
    (hKnown : regionOf addr + AccessRange ∈ regions.keys) {i : Nat}
    (hi : 2 * (regionOf addr + AccessRange - addr) ≤ i) :
    (addAddrInfo regions addr size stack).2 i = stack i := by
  have hBase := regionOf_le addr
  have hIn := lt_regionOf_add addr
  have hDvd : AccessRange ∣ regionOf addr := Nat.dvd_mul_left _ _
  rw [addAddrInfo_crossing _ _ _ _ hCross]
  obtain ⟨len1, hLen1⟩ : ∃ len1, len1 = regionOf addr + AccessRange - addr := ⟨_, rfl⟩
  have hSplit : size - (addr + size - (regionOf addr + AccessRange)) = len1 := by omega
  simp only [hSplit]
  have hFirst :=
    (bookRegion_spec regions stack (regionOf addr) (addr - regionOf addr) 0 len1 len1 len1
    hDvd (by simp) (by omega)).2 i
  have hKeys := bookRegion_keys regions stack (regionOf addr) (addr - regionOf addr) 0 len1 len1
  generalize bookRegion regions stack (regionOf addr) (addr - regionOf addr) 0 len1 len1 = first
    at hFirst hKeys ⊢
  have hMem : regionOf addr + AccessRange ∈ first.1.keys := by
    rw [hKeys]
    exact Finset.mem_insert_of_mem hKnown
  rw [(bookRegion_spec first.1 first.2 (regionOf addr + AccessRange) 0 len1 _ len1 len1
    (Nat.dvd_add hDvd dvd_rfl) (by rw [if_pos hMem]) (by omega)).2 i, if_neg (by omega), hFirst,
    if_neg (by omega)]

/-- An access is booked exactly if it does not cross into a known region, or crosses into it
at its own middle. Otherwise the second loop leaves the array `exist`, or it leaves marks
and entries out. -/
theorem exactBooking_iff (regions : RegionMap) {addr size : Nat} (hPos : 0 < size)
    (hSize : size ≤ 8) :
    ExactBooking regions addr size ↔ BookedRight regions.keys addr size := by
  have hBase := regionOf_le addr
  have hIn := lt_regionOf_add addr
  have hRange : size ≤ AccessRange := by
    simp only [AccessRange]
    omega
  constructor
  · intro h hCross hKnown
    have hEntries := h.inBounds
    rw [addAddrEntries_crossing regions.keys hRange hCross] at hEntries
    simp only [if_pos hKnown, List.forall_mem_append, loopEntries_inBounds] at hEntries
    have hLast := (hEntries.2 (regionOf addr + AccessRange - addr - 1) (by omega)).1
    by_contra hMiddle
    -- the last byte of the access is left out, so `exist` keeps what the stack held
    have hUnset : ∀ stack, (addAddrInfo regions addr size stack).2 (size - 1) = stack (size - 1) :=
      fun stack => addAddrInfo_unset regions stack hRange hCross hKnown (by omega)
    have hSet := fun stack => h.exist stack (size - 1) (by omega)
    simp only [hUnset] at hSet
    have hMarked := (hSet fun _ => 1).mp (by decide)
    exact (hSet fun _ => 0).mpr hMarked rfl
  · intro hRight
    have hSpec := fun stack => addAddrInfo_spec regions addr size stack hPos hRange hRight
    refine ⟨?_, fun stack i hi => ?_, fun stack b => ?_⟩
    · by_cases hCross : regionOf addr + AccessRange < addr + size
      · have hSecond : (if regionOf addr + AccessRange ∈ regions.keys then
            regionOf addr + AccessRange - addr else addr + size - (regionOf addr + AccessRange)) =
            addr + size - (regionOf addr + AccessRange) := by
          split
          · next hKnown =>
              have hMiddle := hRight hCross hKnown
              omega
          · rfl
        rw [addAddrEntries_crossing regions.keys hRange hCross]
        simp only [hSecond, List.forall_mem_append, loopEntries_inBounds]
        exact ⟨fun i hi => by omega, fun i hi => by omega⟩
      · rw [addAddrEntries_inside regions.keys hPos (by omega), loopEntries_inBounds]
        exact fun i hi => by omega
    · rw [(hSpec stack).2 i hi]
      rfl
    · rw [RegionMap.Marked, (hSpec stack).1 b]
      split
      · next hb => exact iff_of_true (by decide) (Or.inr hb)
      · next hb => exact (or_iff_left hb).symm

def knownNext : RegionMap := (addAddrInfo RegionMap.empty 8192 1 fun _ => 0).1

/-- Four bytes on either side of the boundary are booked. -/
theorem exactBooking_middle : 0 < 8 ∧ 8 ≤ 8 ∧ ExactBooking knownNext 8188 8 :=
  ⟨by decide, by decide, (exactBooking_iff knownNext (by decide) (by decide)).mpr (by decide)⟩

/-- With two bytes in front of it the last byte is not marked, with six of them the loop
runs past the end of `exist`. -/
theorem booking_leaves_array :
    ¬ (addAddrInfo knownNext 8190 8 fun _ => 0).1.Marked 8197 ∧
    ArrayEntry.exist 11 ∈ addAddrEntries knownNext.keys 8186 8 ∧
    ¬ ExactBooking knownNext 8190 8 ∧ ¬ ExactBooking knownNext 8186 8 := by
  have hUnmarked : ¬ (addAddrInfo knownNext 8190 8 fun _ => 0).1.Marked 8197 := by decide
  have hEntry : ArrayEntry.exist 11 ∈ addAddrEntries knownNext.keys 8186 8 := by decide
  refine ⟨hUnmarked, hEntry, fun h => ?_, fun h => ?_⟩
  · exact hUnmarked ((h.marks _ 8197).mpr (Or.inr (by decide)))
  · exact absurd (h.inBounds _ hEntry) (Nat.not_lt.mpr (by decide))

end RiscvCkpt
