import RiscvCkpt.Create.Ranges
import RiscvCkpt.Restore.UserJmp

/-! Where `findMidPoints` puts the midpoints: in the first or the last 64 bytes
of a gap between two text ranges, in reach of a `jal` in both directions. -/
namespace RiscvCkpt

open MachineInt

/-- Text ranges of a checkpoint: whole pages, in ascending order with at least
one page between them, and close enough for a 32-bit distance. -/
structure TextLayout (ranges : List MemRangeInfo) : Prop where
  aligned : ∀ r ∈ ranges, 4096 ∣ r.addr ∧ 4096 ∣ r.stop
  nonempty : ∀ r ∈ ranges, r.addr < r.stop
  apart : ranges.Pairwise fun a b => a.stop < b.addr
  span : ∀ a ∈ ranges, ∀ b ∈ ranges, b.stop < a.addr + 2 ^ 31
  addresses : ∀ r ∈ ranges, r.stop ≤ 2 ^ 64

/-- The instruction at `pc` lies in the text. -/
def InText (ranges : List MemRangeInfo) (pc : Nat) : Prop :=
  2 ∣ pc ∧ ∃ r ∈ ranges, r.addr ≤ pc ∧ pc + 4 ≤ r.stop

instance (ranges : List MemRangeInfo) (pc : Nat) : Decidable (InText ranges pc) :=
  inferInstanceAs (Decidable (_ ∧ _))

/-- A free range between two neighbouring text ranges. -/
structure IsGap (ranges : List MemRangeInfo) (gap : MemRangeInfo) : Prop where
  below : ∃ r ∈ ranges, r.stop = gap.addr
  above : ∃ r ∈ ranges, gap.stop = r.addr
  free : ∀ r ∈ ranges, r.stop ≤ gap.addr ∨ gap.stop ≤ r.addr
  nonempty : gap.addr < gap.stop

section Gaps

variable {ranges : List MemRangeInfo} {gap gap' : MemRangeInfo}

/-- The bounds of a gap are page bounds, so it has room for two midpoints. -/
theorem IsGap.aligned (h : IsGap ranges gap) (hLayout : TextLayout ranges) :
    4096 ∣ gap.addr ∧ 4096 ∣ gap.stop ∧ gap.addr + 4096 ≤ gap.stop := by
  obtain ⟨prev, hPrev, hLow⟩ := h.below
  obtain ⟨next, hNext, hHigh⟩ := h.above
  have hAddr := (hLayout.aligned prev hPrev).2
  have hStop := (hLayout.aligned next hNext).1
  have hLt := h.nonempty
  rw [hLow] at hAddr
  rw [← hHigh] at hStop
  exact ⟨hAddr, hStop, by omega⟩

/-- Two gaps are the same or lie apart. -/
theorem IsGap.eq_or_apart (h : IsGap ranges gap) (h' : IsGap ranges gap')
    (hLayout : TextLayout ranges) :
    (gap.addr = gap'.addr ∧ gap.stop = gap'.stop) ∨ gap.stop ≤ gap'.addr ∨
      gap'.stop ≤ gap.addr := by
  obtain ⟨prev, hPrev, hLow⟩ := h.below
  obtain ⟨next, hNext, hHigh⟩ := h.above
  obtain ⟨prev', hPrev', hLow'⟩ := h'.below
  obtain ⟨next', hNext', hHigh'⟩ := h'.above
  -- each gap is free of the ranges that bound the other one
  have hFree := h.free prev' hPrev'
  have hFreeNext := h.free next' hNext'
  have hFree' := h'.free prev hPrev
  have hFreeNext' := h'.free next hNext
  have hPos := hLayout.nonempty prev hPrev
  have hPosNext := hLayout.nonempty next hNext
  have hPos' := hLayout.nonempty prev' hPrev'
  have hPosNext' := hLayout.nonempty next' hNext'
  omega

/-- Neighbours in a list of text ranges bound a gap. -/
theorem TextLayout.isGap {before after : List MemRangeInfo} {prev next : MemRangeInfo}
    (hLayout : TextLayout (before ++ prev :: next :: after)) :
    IsGap (before ++ prev :: next :: after) ⟨prev.stop, next.addr - prev.stop⟩ := by
  obtain ⟨-, hTail, hCross⟩ := List.pairwise_append.mp hLayout.apart
  obtain ⟨hPrev, hRest⟩ := List.pairwise_cons.mp hTail
  have hNext := (List.pairwise_cons.mp hRest).1
  have hLt : prev.stop < next.addr := hPrev next (by simp)
  have hStop : CodeRange.stop ⟨prev.stop, next.addr - prev.stop⟩ = next.addr := by
    simp only [CodeRange.stop] at hLt ⊢
    omega
  refine ⟨⟨prev, by simp, rfl⟩, ⟨next, by simp, hStop⟩, ?_, by rw [hStop]; exact hLt⟩
  intro r hr
  have hPosPrev := hLayout.nonempty prev (by simp)
  have hPosNext := hLayout.nonempty next (by simp)
  rw [hStop]
  rcases List.mem_append.mp hr with hBefore | hr
  · have hBelow := hCross r hBefore prev (by simp)
    exact Or.inl (by simp only; omega)
  · rcases List.mem_cons.mp hr with rfl | hr
    · exact Or.inl (Nat.le_refl _)
    · rcases List.mem_cons.mp hr with rfl | hr
      · exact Or.inr (Nat.le_refl _)
      · have hAbove := hNext r hr
        exact Or.inr (by omega)

/-- Every range that the loop of `getRangeInfo` collects is a gap of the text. -/
theorem isGap_of_mem_gaps {seg : MemRangeInfo} {before rest : List MemRangeInfo}
    (hLayout : TextLayout (before ++ rest)) (h : gap ∈ gaps seg rest) :
    IsGap (before ++ rest) gap := by
  induction rest generalizing before with
  | nil => simp [gaps] at h
  | cons prev rest ih =>
      cases rest with
      | nil => simp [gaps] at h
      | cons next after =>
          have hBetween := hLayout.isGap
          have hShift : before ++ prev :: next :: after = (before ++ [prev]) ++ next :: after := by
            simp
          have hRest : gap ∈ gaps seg (next :: after) →
              IsGap (before ++ prev :: next :: after) gap := by
            intro hMem
            rw [hShift] at hLayout ⊢
            exact ih hLayout hMem
          obtain ⟨r, hr, hAbove⟩ := hBetween.above
          have hBound := hLayout.addresses r hr
          have hPos := hLayout.nonempty r hr
          have hLt := hBetween.nonempty
          simp only [CodeRange.stop] at hAbove hLt hBound hPos
          have hRange : (⟨(prev.addr + prev.size) % 18446744073709551616,
              uint64 ((next.addr : Int) - (prev.addr + prev.size))⟩ : MemRangeInfo) =
              ⟨prev.stop, next.addr - prev.stop⟩ := by
            simp only [CodeRange.stop, CodeRange.mk.injEq, uint64]
            omega
          simp only [gaps, hRange] at h
          split at h
          · simp at h
          · split at h
            · rcases List.mem_cons.mp h with rfl | hMem
              · exact hBetween
              · exact hRest hMem
            · exact hRest h

/-- `getRangeInfo` finds gaps of the text only. -/
theorem isGap_getRangeInfo (hLayout : TextLayout ranges) (h : gap ∈ getRangeInfo ranges) :
    IsGap ranges gap := @isGap_of_mem_gaps gap (textSeg ranges) [] ranges hLayout h

end Gaps

/-- A midpoint for the code at `pc`: one end of a gap, in reach of a `jal`. -/
structure IsMidPoint (ranges : List MemRangeInfo) (pc midpoint : Nat) : Prop where
  area : ∃ gap, IsGap ranges gap ∧ (midpoint = gap.addr ∨ midpoint + freemem = gap.stop)
  reach : midpoint + 64 ≤ pc + 1048560 ∧ pc ≤ midpoint + 1048560

section MidPoints

variable {ranges : List MemRangeInfo} {pc pc' midpoint midpoint' : Nat}

/-- A midpoint area is empty memory below the last text range. -/
theorem IsMidPoint.bounds (h : IsMidPoint ranges pc midpoint) (hLayout : TextLayout ranges) :
    2 ∣ midpoint ∧ midpoint + 64 < 2 ^ 64 := by
  obtain ⟨gap, hGap, hEnd⟩ := h.area
  obtain ⟨hAddr, hStop, hLarge⟩ := hGap.aligned hLayout
  obtain ⟨next, hNext, hHigh⟩ := hGap.above
  have hBound := hLayout.addresses next hNext
  have hPos := hLayout.nonempty next hNext
  have hEven : 2 ∣ gap.addr ∧ 2 ∣ gap.stop := ⟨by omega, by omega⟩
  simp only [freemem] at hEnd
  omega

/-- Two midpoint areas are the same or disjoint. -/
theorem IsMidPoint.eq_or_apart (h : IsMidPoint ranges pc midpoint)
    (h' : IsMidPoint ranges pc' midpoint') (hLayout : TextLayout ranges) :
    midpoint = midpoint' ∨ midpoint + 64 ≤ midpoint' ∨ midpoint' + 64 ≤ midpoint := by
  obtain ⟨gap, hGap, hEnd⟩ := h.area
  obtain ⟨gap', hGap', hEnd'⟩ := h'.area
  have hLarge := (hGap.aligned hLayout).2.2
  have hLarge' := (hGap'.aligned hLayout).2.2
  have hApart := hGap.eq_or_apart hGap' hLayout
  simp only [freemem] at hEnd hEnd'
  omega

/-- No instruction of the text overlaps a midpoint area. -/
theorem IsMidPoint.apart_text (h : IsMidPoint ranges pc midpoint) (hLayout : TextLayout ranges)
    (hText : InText ranges pc') : pc' + 4 ≤ midpoint ∨ midpoint + 64 ≤ pc' := by
  obtain ⟨gap, hGap, hEnd⟩ := h.area
  obtain ⟨-, r, hr, hLow, hHigh⟩ := hText
  have hFree := hGap.free r hr
  have hLarge := (hGap.aligned hLayout).2.2
  simp only [freemem] at hEnd
  omega

/-- Distances of less than 2 GiB are the same as signed 32-bit numbers. -/
theorem int32_distance {a b : Nat} (hUp : a < b + 2 ^ 31) (hDown : b ≤ a + 2 ^ 31) :
    int32 (uint64 ((a : Int) - b)) = (a : Int) - b := by
  have hWord : (uint64 ((a : Int) - b) : Int) = ((a : Int) - b) % 18446744073709551616 := by
    simp only [uint64]
    omega
  generalize uint64 ((a : Int) - b) = word at hWord ⊢
  simp only [int32]
  split <;> omega

/-- One round of the inner loop, for a range with room for a midpoint and near enough for
a signed distance. -/
theorem seekMidPoint_cons {range : MemRangeInfo} {rest : List MemRangeInfo}
    (hRoom : 64 ≤ range.size) (hStop : range.stop ≤ 2 ^ 64)
    (hUp : range.stop < pc + 2 ^ 31) (hDown : pc + 64 < range.stop + 2 ^ 31) :
    seekMidPoint pc (range :: rest) =
      if pc < range.addr then
        if range.addr + 64 ≤ pc + 1048560 then some (range.addr, range :: rest) else none
      else if pc + 64 ≤ range.stop + 1048560 then some (range.stop - 64, range :: rest)
      else seekMidPoint pc rest := by
  simp only [CodeRange.stop] at hStop hUp hDown ⊢
  rw [seekMidPoint]
  split
  · next hAbove =>
      have hDis : int32 (uint64 ((range.addr : Int) + freemem - pc)) =
          (range.addr : Int) + 64 - pc :=
        @int32_distance (range.addr + 64) pc (by omega) (by omega)
      rw [hDis]
      exact if_congr (by simp only [MaxJALOffset]; omega) rfl rfl
  · next hBelow =>
      have hMid : uint64 ((range.addr : Int) + range.size - freemem) =
          range.addr + range.size - 64 := by
        simp only [uint64, freemem]
        omega
      have hDis : int32 (uint64 ((pc : Int) - (range.addr + range.size - 64 : Nat))) =
          (pc : Int) - (range.addr + range.size - 64 : Nat) := int32_distance (by omega) (by omega)
      simp only [hMid, hDis]
      exact if_congr (by simp only [MaxJALOffset]; omega) rfl rfl

/-- The inner loop ends at a midpoint of one of the ranges. -/
theorem seekMidPoint_spec {frees left : List MemRangeInfo} (hLayout : TextLayout ranges)
    (hText : InText ranges pc) (hFrees : ∀ gap ∈ frees, IsGap ranges gap)
    (h : seekMidPoint pc frees = some (midpoint, left)) :
    IsMidPoint ranges pc midpoint ∧ ∀ gap ∈ left, IsGap ranges gap := by
  induction frees with
  | nil => simp [seekMidPoint] at h
  | cons gap rest ih =>
      have hGap := hFrees gap (by simp)
      obtain ⟨-, r, hr, hLow, hHigh⟩ := hText
      obtain ⟨prev, hPrev, hBelow⟩ := hGap.below
      obtain ⟨next, hNext, hAbove⟩ := hGap.above
      have hFree := hGap.free r hr
      have hLarge := (hGap.aligned hLayout).2.2
      have hSpanUp := hLayout.span r hr next hNext
      have hSpanDown := hLayout.span prev hPrev r hr
      have hPosNext := hLayout.nonempty next hNext
      have hPosPrev := hLayout.nonempty prev hPrev
      have hBound := hLayout.addresses next hNext
      have hRoom : 64 ≤ gap.size := by
        simp only [CodeRange.stop] at hLarge
        omega
      rw [seekMidPoint_cons hRoom (by omega) (by omega) (by omega)] at h
      split at h
      · rw [Option.ite_none_right_eq_some] at h
        obtain ⟨hReach, hFound⟩ := h
        obtain ⟨rfl, rfl⟩ := Prod.mk.inj (Option.some.inj hFound)
        exact ⟨⟨⟨gap, hGap, Or.inl rfl⟩, by omega, by omega⟩, hFrees⟩
      · split at h
        · obtain ⟨rfl, rfl⟩ := Prod.mk.inj (Option.some.inj h)
          have hEnd : gap.stop - 64 + freemem = gap.stop := by
            simp only [freemem]
            omega
          exact ⟨⟨⟨gap, hGap, Or.inr hEnd⟩, by omega, by omega⟩, hFrees⟩
        · exact ih (fun other hMem => hFrees other (by simp [hMem])) h

/-- Every midpoint that is placed lies at an end of a gap in reach of its pc. -/
theorem placeMidPoints_spec {frees : List MemRangeInfo} {pcs placed : List PCs}
    (hLayout : TextLayout ranges) (hText : ∀ p ∈ pcs, InText ranges p.pc)
    (hFrees : ∀ gap ∈ frees, IsGap ranges gap) (h : placeMidPoints frees pcs = some placed) :
    ∀ p ∈ placed, IsMidPoint ranges p.pc p.midpoint := by
  induction pcs generalizing frees placed with
  | nil =>
      obtain rfl := Option.some.inj h
      simp
  | cons p rest ih =>
      simp only [placeMidPoints, Option.bind_eq_some_iff, Option.map_eq_some_iff] at h
      obtain ⟨found, hFound, tail, hTail, rfl⟩ := h
      obtain ⟨hMid, hLeft⟩ := seekMidPoint_spec hLayout (hText p (by simp)) hFrees hFound
      intro q hq
      rcases List.mem_cons.mp hq with rfl | hq
      · exact hMid
      · exact ih (fun p hp => hText p (by simp [hp])) hLeft hTail q hq

/-- Unless it gives up, `findMidPoints` gives every pc a midpoint of the text. -/
theorem findMidPoints_spec {pcs placed : List PCs} (hLayout : TextLayout ranges)
    (hText : ∀ p ∈ pcs, InText ranges p.pc)
    (h : findMidPoints (getRangeInfo ranges) pcs = some placed) :
    ∀ p ∈ placed, IsMidPoint ranges p.pc p.midpoint := by
  simp only [findMidPoints, Option.map_eq_some_iff] at h
  obtain ⟨byPc, hByPc, rfl⟩ := h
  have hAll := placeMidPoints_spec hLayout
    (fun p hp => hText p ((List.perm_insertionSort _ _).mem_iff.mp hp))
    (fun _ => isGap_getRangeInfo hLayout) hByPc
  intro p hp
  exact hAll p ((List.perm_insertionSort _ _).mem_iff.mp hp)

end MidPoints

/-- Free ranges for a list of pcs: sorted and disjoint, each with room for two midpoints,
beside the pcs and close to them. -/
structure FreeLayout (frees : List MemRangeInfo) (pcs : List PCs) : Prop where
  apart : frees.Pairwise fun a b => a.stop ≤ b.addr
  large : ∀ r ∈ frees, 128 ≤ r.size
  addresses : ∀ r ∈ frees, r.stop ≤ 2 ^ 64
  beside : ∀ p ∈ pcs, ∀ r ∈ frees, p.pc < r.addr ∨ r.stop ≤ p.pc
  span : ∀ p ∈ pcs, ∀ r ∈ frees, r.stop < p.pc + 2 ^ 30 ∧ p.pc < r.addr + 2 ^ 30

/-- A `jal` reaches the midpoint at the near end of the range. -/
def InReach (pc : Nat) (r : MemRangeInfo) : Prop :=
  pc < r.addr ∧ (r.addr : Int) + 64 - pc ≤ MaxJALOffset ∨
  r.stop ≤ pc ∧ (pc : Int) - (r.stop - 64 : Int) ≤ MaxJALOffset

instance (pc : Nat) (r : MemRangeInfo) : Decidable (InReach pc r) :=
  inferInstanceAs (Decidable (_ ∨ _))

def IsNearEnd (pc midpoint : Nat) (r : MemRangeInfo) : Prop :=
  pc < r.addr ∧ midpoint = r.addr ∨ r.stop ≤ pc ∧ midpoint + 64 = r.stop

/-- The range is below the pc, out of reach for it and for all that follow. -/
def TooLow (pc : Nat) (r : MemRangeInfo) : Prop := r.stop + MaxJALOffset < pc + 64

section Search

variable {pc pc' : Nat} {r : MemRangeInfo}

theorem TooLow.mono (h : TooLow pc r) (hLe : pc ≤ pc') : TooLow pc' r := by
  simp only [TooLow] at h ⊢
  omega

theorem TooLow.not_inReach (h : TooLow pc r) : ¬ InReach pc r := by
  simp only [TooLow, InReach, CodeRange.stop, MaxJALOffset] at h ⊢
  omega

theorem FreeLayout.mono {frees : List MemRangeInfo} {pcs pcs' : List PCs} (h : FreeLayout frees pcs)
    (hSub : ∀ p ∈ pcs', p ∈ pcs) : FreeLayout frees pcs' :=
  ⟨h.apart, h.large, h.addresses, fun p hp => h.beside p (hSub p hp),
    fun p hp => h.span p (hSub p hp)⟩

theorem FreeLayout.right {skipped frees : List MemRangeInfo} {pcs : List PCs}
    (h : FreeLayout (skipped ++ frees) pcs) : FreeLayout frees pcs where
  apart := (List.pairwise_append.mp h.apart).2.1
  large r hr := h.large r (List.mem_append_right _ hr)
  addresses r hr := h.addresses r (List.mem_append_right _ hr)
  beside p hp r hr := h.beside p hp r (List.mem_append_right _ hr)
  span p hp r hr := h.span p hp r (List.mem_append_right _ hr)

/-- The search from the current range on. It passes ranges that are too low, and then it
either stops at a range in reach or there is none. -/
theorem seekMidPoint_complete {frees : List MemRangeInfo} {p : PCs}
    (hLayout : FreeLayout frees [p]) :
    (∃ skipped r left midpoint, frees = skipped ++ r :: left ∧ (∀ s ∈ skipped, TooLow p.pc s) ∧
      InReach p.pc r ∧ IsNearEnd p.pc midpoint r ∧ seekMidPoint p.pc frees = some
        (midpoint, r :: left)) ∨
    (∀ r ∈ frees, ¬ InReach p.pc r) ∧ seekMidPoint p.pc frees = none := by
  induction frees with
  | nil => exact Or.inr ⟨by simp, rfl⟩
  | cons range rest ih =>
      have hLarge := hLayout.large range (List.mem_cons_self ..)
      have hBeside := hLayout.beside p (List.mem_singleton_self p) range (List.mem_cons_self ..)
      have hSpan := hLayout.span p (List.mem_singleton_self p) range (List.mem_cons_self ..)
      have hRange := (List.pairwise_cons.mp hLayout.apart).1
      have hSize : range.stop = range.addr + range.size := rfl
      rw [seekMidPoint_cons (by omega) (hLayout.addresses range (List.mem_cons_self ..)) (by omega)
        (by omega)]
      by_cases hAbove : p.pc < range.addr
      · rw [if_pos hAbove]
        by_cases hReach : range.addr + 64 ≤ p.pc + 1048560
        · refine Or.inl ⟨[], range, rest, range.addr, rfl, by simp, Or.inl ⟨hAbove, ?_⟩,
            Or.inl ⟨hAbove, rfl⟩, if_pos hReach⟩
          simp only [MaxJALOffset]
          omega
        · -- the ranges behind this one are even higher
          refine Or.inr ⟨?_, if_neg hReach⟩
          have hFar : ∀ s ∈ range :: rest, range.addr ≤ s.addr := by
            intro s hs
            rcases List.mem_cons.mp hs with rfl | hs
            · exact Nat.le_refl _
            · have hNext := hRange s hs
              omega
          intro s hs hIn
          have hAddr := hFar s hs
          simp only [InReach, MaxJALOffset, CodeRange.stop] at hIn
          omega
      · rw [if_neg hAbove]
        have hStop : range.stop ≤ p.pc := hBeside.resolve_left hAbove
        by_cases hReach : p.pc + 64 ≤ range.stop + 1048560
        · refine Or.inl ⟨[], range, rest, range.stop - 64, rfl, by simp, Or.inr ⟨hStop, ?_⟩,
            Or.inr ⟨hStop, by omega⟩, if_pos hReach⟩
          simp only [MaxJALOffset]
          omega
        · rw [if_neg hReach]
          have hLow : TooLow p.pc range := by
            simp only [TooLow, MaxJALOffset]
            omega
          rcases ih (@FreeLayout.right [range] rest _ hLayout) with
            ⟨skipped, r, left, midpoint, rfl, hSkipped, hFound⟩ | ⟨hNone, hSeek⟩
          · exact Or.inl ⟨range :: skipped, r, left, midpoint, rfl,
              List.forall_mem_cons.mpr ⟨hLow, hSkipped⟩, hFound⟩
          · exact Or.inr ⟨List.forall_mem_cons.mpr ⟨hLow.not_inReach, hNone⟩, hSeek⟩

/-- The outer loop over pcs in ascending order. The ranges that it has passed are too low for
all pcs that are left; it gives every pc a range in reach, or some pc has none. -/
theorem placeMidPoints_complete {skipped frees : List MemRangeInfo} {pcs : List PCs}
    (hLayout : FreeLayout (skipped ++ frees) pcs) (hSorted : pcs.Pairwise fun a b => a.pc ≤ b.pc)
    (hSkipped : ∀ p ∈ pcs, ∀ s ∈ skipped, TooLow p.pc s) :
    (∃ placed, placeMidPoints frees pcs = some placed ∧
      ∀ p ∈ placed, ∃ r ∈ skipped ++ frees, InReach p.pc r ∧ IsNearEnd p.pc p.midpoint r) ∨
    placeMidPoints frees pcs = none ∧ ∃ p ∈ pcs, ∀ r ∈ skipped ++ frees, ¬ InReach p.pc r := by
  induction pcs generalizing skipped frees with
  | nil => exact Or.inl ⟨[], rfl, by simp⟩
  | cons p rest ih =>
      obtain ⟨hFirst, hRest⟩ := List.pairwise_cons.mp hSorted
      have hOne : FreeLayout frees [p] := (hLayout.mono (by simp)).right
      rw [placeMidPoints]
      rcases seekMidPoint_complete hOne with
        ⟨passed, r, left, midpoint, rfl, hPassed, hReach, hEnd, hSeek⟩ | ⟨hNone, hSeek⟩
      · rw [hSeek, Option.bind_some]
        have hTail : FreeLayout ((skipped ++ passed) ++ r :: left) rest := by
          rw [List.append_assoc]
          exact hLayout.mono fun q hq => List.mem_cons_of_mem _ hq
        have hLow : ∀ q ∈ rest, ∀ s ∈ skipped ++ passed, TooLow q.pc s := by
          intro q hq s hs
          rcases List.mem_append.mp hs with hOld | hNew
          · exact hSkipped q (List.mem_cons_of_mem _ hq) s hOld
          · exact (hPassed s hNew).mono (hFirst q hq)
        have hAll := ih hTail hRest hLow
        rw [List.append_assoc] at hAll
        rcases hAll with ⟨placed, hPlaced, hMid⟩ | ⟨hGivesUp, q, hq, hFar⟩
        · refine Or.inl ⟨{ p with midpoint := midpoint } :: placed, by rw [hPlaced]; rfl, ?_⟩
          exact List.forall_mem_cons.mpr ⟨⟨r, by simp, hReach, hEnd⟩, hMid⟩
        · exact Or.inr ⟨by rw [hGivesUp]; rfl, q, List.mem_cons_of_mem _ hq, hFar⟩
      · refine Or.inr ⟨by rw [hSeek]; rfl, p, List.mem_cons_self .., ?_⟩
        intro r hr
        rcases List.mem_append.mp hr with hOld | hLeft
        · exact (hSkipped p (List.mem_cons_self ..) r hOld).not_inReach
        · exact hNone r hLeft

/-- The search is exact. If every pc has a free range in reach, every pc gets the near end
of one as its midpoint and the pcs keep their order; otherwise the search gives up. -/
theorem findMidPoints_exact {frees : List MemRangeInfo} {pcs : List PCs}
    (hLayout : FreeLayout frees pcs) (hLabels : pcs.Pairwise fun a b => a.label < b.label) :
    ((∀ p ∈ pcs, ∃ r ∈ frees, InReach p.pc r) →
      ∃ placed, findMidPoints frees pcs = some placed ∧ placed.map PCs.key = pcs.map PCs.key ∧
        ∀ p ∈ placed, ∃ r ∈ frees, InReach p.pc r ∧ IsNearEnd p.pc p.midpoint r) ∧
    ((∃ p ∈ pcs, ∀ r ∈ frees, ¬ InReach p.pc r) → findMidPoints frees pcs = none) := by
  have hPerm := List.perm_insertionSort (fun a b : PCs => a.pc ≤ b.pc) pcs
  have hByPc : FreeLayout ([] ++ frees) (pcs.insertionSort fun a b => a.pc ≤ b.pc) :=
    hLayout.mono fun p hp => hPerm.mem_iff.mp hp
  rcases placeMidPoints_complete hByPc (List.pairwise_insertionSort _ _) (by simp) with
    ⟨placed, hPlaced, hMid⟩ | ⟨hGivesUp, q, hq, hFar⟩
  · have hFound : findMidPoints frees pcs =
        some (placed.insertionSort fun a b => a.label ≤ b.label) := by
      rw [findMidPoints, hPlaced, Option.map_some]
    have hKeys := findMidPoints_keys hLabels hFound
    have hAll : ∀ p ∈ placed.insertionSort fun a b => a.label ≤ b.label,
        ∃ r ∈ frees, InReach p.pc r ∧ IsNearEnd p.pc p.midpoint r := fun p hp =>
      hMid p ((List.perm_insertionSort _ _).mem_iff.mp hp)
    refine ⟨fun _ => ⟨_, hFound, hKeys, hAll⟩, ?_⟩
    rintro ⟨p, hp, hNone⟩
    -- the pc is among the placed ones
    obtain ⟨p', hp', hKey⟩ := List.mem_map.mp (hKeys ▸ List.mem_map_of_mem hp)
    obtain ⟨r, hr, hReach, -⟩ := hAll p' hp'
    have hPc : p'.pc = p.pc := congrArg Prod.snd hKey
    exact absurd (hPc ▸ hReach) (hNone r hr)
  · refine ⟨fun hReach => ?_, fun _ => by rw [findMidPoints, hGivesUp]; rfl⟩
    obtain ⟨r, hr, hIn⟩ := hReach q (hPerm.mem_iff.mp hq)
    exact absurd hIn (hFar r hr)

/-- Two gaps. The second pc has passed the first of them when the third one looks. -/
theorem findMidPoints_exact_gaps :
    ∃ placed, findMidPoints [⟨0x11000, 0x1000⟩, ⟨0x300000, 0x1000⟩]
        [⟨0, 0x302000, 0⟩, ⟨1, 0x10000, 0⟩, ⟨2, 0x2ff000, 0⟩] = some placed ∧
      placed.map PCs.key = [(0, 0x302000), (1, 0x10000), (2, 0x2ff000)] := by
  have hLayout : FreeLayout [⟨0x11000, 0x1000⟩, ⟨0x300000, 0x1000⟩]
      [⟨0, 0x302000, 0⟩, ⟨1, 0x10000, 0⟩, ⟨2, 0x2ff000, 0⟩] :=
    ⟨by decide, by decide, by decide, by decide, by decide⟩
  obtain ⟨placed, hPlaced, hKeys, -⟩ := (findMidPoints_exact hLayout (by decide)).1 (by decide)
  exact ⟨placed, hPlaced, hKeys⟩

end Search

end RiscvCkpt
