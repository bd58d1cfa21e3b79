import RiscvCkpt.Create.FirstLoads

/-! The address ranges of a checkpoint. Executed pages and accessed regions are
merged into maximal ranges, and the memory ranges are cut where they overlap the
text. -/
namespace RiscvCkpt

open MachineInt

def pageOf (addr : Nat) : Nat := addr / 4096 * 4096

def CodeRange.stop (r : CodeRange) : Nat := r.addr + r.size

def CodeRange.Holds (r : CodeRange) (b : Nat) : Prop := r.addr ≤ b ∧ b < r.stop

instance (r : CodeRange) (b : Nat) : Decidable (r.Holds b) := inferInstanceAs (Decidable (_ ∧ _))

/-- The variables of `getRange`: the range under construction, the ranges
pushed so far and their total size. -/
structure RangeState where
  r : CodeRange
  ranges : List CodeRange
  totalsize : Nat
  deriving DecidableEq, Repr

/-- One round of `getRange` with ranges that grow by `unit`. The distance of the address
is computed without a sign and held in an `int64_t`. -/
def getRangeStep (unit : Nat) (state : RangeState) (addr : Nat) : RangeState :=
  let eaddr := state.r.addr + state.r.size
  let len := int64 (uint64 ((addr : Int) - eaddr))
  if len < 0 then state
  else if len < unit then { state with r := { state.r with size := state.r.size + unit } }
  else
    { r := { addr := pageOf addr, size := unit }
      ranges := state.ranges ++ [state.r]
      totalsize := state.totalsize + state.r.size }

/-- `CkptInfo::getRange` over the addresses in ascending order: the ranges it
leaves behind `ranges`, and the size it returns. The source dereferences the
first address unconditionally. Without one that is undefined, and the last case
adds no range. -/
def getRange (unit : Nat) (ranges : List CodeRange) : List Nat → List CodeRange × Nat
  | first :: rest =>
      let last := (first :: rest).foldl (getRangeStep unit)
        { r := { addr := pageOf first, size := unit }, ranges := ranges, totalsize := 0 }
      (last.ranges ++ [last.r], last.totalsize + last.r.size)
  | [] => (ranges, 0)

/-- `getRange(set<uint64_t> &, vector<CodeRange> &)`: ranges of pages. -/
def getTextRange (addrs : Finset Nat) (ranges : List CodeRange) : List CodeRange × Nat :=
  getRange 4096 ranges addrs.sort

/-- `getRange(map<uint64_t, uint8_t *> &, vector<CodeRange> &)`: ranges of regions. -/
def getMemRange (addrs : RegionMap) (ranges : List CodeRange) : List CodeRange × Nat :=
  getRange AccessRange ranges addrs.keys.sort

/-- The loop of `detectOver` that cuts the memory ranges at the end of the text.
Ranges from the first one above the text on are kept. -/
def trimOverlap (textend : Nat) : List CodeRange → List CodeRange
  | [] => []
  | r :: rest =>
      if r.addr < textend then
        let temp := r.addr + r.size
        if temp > textend then { addr := textend, size := temp - textend } ::
          trimOverlap textend rest
        else trimOverlap textend rest
      else r :: rest

/-- What `getRange` has established after the addresses `done`, of which `top` is
the last: aligned ranges with gaps between them, which cover exactly the units
of these addresses. -/
structure Merged (unit : Nat) (done : List Nat) (top : Nat) (ranges : List CodeRange)
    (r : CodeRange) : Prop where
  aligned : ∀ range ∈ ranges ++ [r], unit ∣ range.addr ∧ unit ∣ range.size ∧ 0 < range.size
  spaced : (ranges ++ [r]).Pairwise fun x y => x.stop < y.addr
  exact : ∀ b, (∃ range ∈ ranges ++ [r], range.Holds b) ↔ ∃ a ∈ done, a / unit = b / unit
  top_mem : top ∈ done
  top_max : ∀ a ∈ done, a ≤ top
  stop : r.stop = top / unit * unit + unit

/-- The bytes of a unit are those whose quotient is its number. -/
theorem unit_iff {unit k b : Nat} (hUnit : 0 < unit) :
    k * unit ≤ b ∧ b < k * unit + unit ↔ k = b / unit := by
  constructor
  · rintro ⟨hLow, hHigh⟩
    exact (Nat.div_eq_of_lt_le hLow (by rw [Nat.succ_mul]; exact hHigh)).symm
  · rintro rfl
    exact ⟨Nat.div_mul_le_self b unit, Nat.lt_div_mul_add hUnit⟩

namespace Merged

variable {unit top : Nat} {done : List Nat} {ranges : List CodeRange} {r : CodeRange}

theorem init {first : Nat} (hUnit : 0 < unit) (hPage : pageOf first = first / unit * unit) :
    Merged unit [first] first [] ⟨pageOf first, unit⟩ where
  aligned := by
    intro range hRange
    obtain rfl := List.mem_singleton.mp hRange
    exact ⟨hPage ▸ Nat.dvd_mul_left unit _, Nat.dvd_refl unit, hUnit⟩
  spaced := List.pairwise_singleton _ _
  exact := by
    intro b
    simp only [List.nil_append, List.mem_singleton, exists_eq_left, CodeRange.Holds, CodeRange.stop,
      hPage]
    exact unit_iff hUnit
  top_mem := List.mem_singleton_self first
  top_max := by simp
  stop := by rw [CodeRange.stop, hPage]

/-- An address in the last unit changes nothing. -/
theorem stay {addr : Nat} (h : Merged unit done top ranges r) (hTop : top ≤ addr)
    (hUnit : top / unit = addr / unit) : Merged unit (done ++ [addr]) addr ranges r where
  aligned := h.aligned
  spaced := h.spaced
  exact := by
    intro b
    rw [h.exact b]
    constructor
    · rintro ⟨a, ha, hEq⟩
      exact ⟨a, List.mem_append_left _ ha, hEq⟩
    · rintro ⟨a, ha, hEq⟩
      rcases List.mem_append.mp ha with ha | ha
      · exact ⟨a, ha, hEq⟩
      · obtain rfl := List.mem_singleton.mp ha
        exact ⟨top, h.top_mem, hUnit.trans hEq⟩
  top_mem := List.mem_append_right _ (List.mem_singleton_self addr)
  top_max := List.forall_mem_concat.mpr ⟨fun a ha => (h.top_max a ha).trans hTop, Nat.le_refl addr⟩
  stop := by rw [h.stop, hUnit]

/-- It is enough that a round adds the unit of the new address at the end. -/
theorem extend {addr : Nat} {ranges' : List CodeRange} {r' : CodeRange}
    (h : Merged unit done top ranges r) (hUnit : 0 < unit) (hTop : top ≤ addr)
    (hAligned : ∀ range ∈ ranges' ++ [r'], unit ∣ range.addr ∧ unit ∣ range.size ∧ 0 < range.size)
    (hSpaced : (ranges' ++ [r']).Pairwise fun x y => x.stop < y.addr)
    (hHolds : ∀ b, (∃ range ∈ ranges' ++ [r'], range.Holds b) ↔
      (∃ range ∈ ranges ++ [r], range.Holds b) ∨
        addr / unit * unit ≤ b ∧ b < addr / unit * unit + unit)
    (hStop : r'.stop = addr / unit * unit + unit) :
    Merged unit (done ++ [addr]) addr ranges' r' where
  aligned := hAligned
  spaced := hSpaced
  exact := by
    intro b
    rw [hHolds b, h.exact b, unit_iff hUnit]
    simp only [List.mem_append, List.mem_singleton, or_and_right, exists_or, exists_eq_left]
  top_mem := List.mem_append_right _ (List.mem_singleton_self addr)
  top_max := List.forall_mem_concat.mpr ⟨fun a ha => (h.top_max a ha).trans hTop, Nat.le_refl addr⟩
  stop := hStop

/-- The distance of an address from the end of the last range does not wrap. -/
theorem len_eq {addr : Nat} (h : Merged unit done top ranges r) (hTop : top ≤ addr)
    (hSmall : unit ≤ 2 ^ 63) (hNear : addr < 2 ^ 63 + unit) :
    int64 (uint64 ((addr : Int) - (r.addr + r.size : Nat))) =
      (addr : Int) - (r.addr + r.size : Nat) := by
  have hStop : r.addr + r.size = top / unit * unit + unit := h.stop
  have hLow := Nat.div_mul_le_self top unit
  apply int64_uint64 <;> omega

/-- One round of `getRange`, on an address not below the earlier ones. -/
theorem step {addr : Nat} (total : Nat) (h : Merged unit done top ranges r) (hUnit : 0 < unit)
    (hSmall : unit ≤ 2 ^ 63) (hTop : top ≤ addr) (hNear : addr < 2 ^ 63 + unit)
    (hPage : pageOf addr = addr / unit * unit) :
    Merged unit (done ++ [addr]) addr (getRangeStep unit ⟨r, ranges, total⟩ addr).ranges
      (getRangeStep unit ⟨r, ranges, total⟩ addr).r := by
  have hStop : r.addr + r.size = (top / unit + 1) * unit := by
    rw [Nat.succ_mul]
    exact h.stop
  have hTopLow := Nat.div_mul_le_self top unit
  simp only [getRangeStep, h.len_eq hTop hSmall hNear]
  by_cases hInside : (addr : Int) - ((r.addr + r.size : Nat) : Int) < 0
  · rw [if_pos hInside]
    refine h.stay hTop ((unit_iff hUnit).mp ⟨by omega, ?_⟩)
    rw [Nat.succ_mul] at hStop
    omega
  · rw [if_neg hInside]
    by_cases hNext : (addr : Int) - ((r.addr + r.size : Nat) : Int) < unit
    · -- the unit behind the last range
      rw [if_pos hNext]
      have hAddr : addr / unit * unit = r.addr + r.size := by
        rw [hStop, ← (unit_iff hUnit).mp ⟨by rw [← hStop]; omega, by rw [← hStop]; omega⟩]
      obtain ⟨hAligned, hLast⟩ := List.forall_mem_concat.mp h.aligned
      obtain ⟨hSpaced, hBefore⟩ := List.pairwise_concat.mp h.spaced
      refine h.extend hUnit hTop ?_ ?_ ?_ ?_
      · refine List.forall_mem_concat.mpr ⟨hAligned, hLast.1, ?_, by simp only; omega⟩
        exact (Nat.dvd_add_iff_left (Nat.dvd_refl unit)).mp hLast.2.1
      · exact List.pairwise_concat.mpr ⟨hSpaced, hBefore⟩
      · intro b
        simp only [List.mem_append, List.mem_singleton, or_and_right, exists_or, exists_eq_left,
          CodeRange.Holds, CodeRange.stop, hAddr, or_assoc]
        refine or_congr_right ?_
        omega
      · simp only [CodeRange.stop, hAddr]
        omega
    · -- a new range, at least one unit away
      rw [if_neg hNext]
      have hFar : (r.addr + r.size) + unit ≤ addr / unit * unit := by
        rw [hStop, ← Nat.succ_mul]
        refine Nat.mul_le_mul_right unit ((Nat.le_div_iff_mul_le hUnit).mpr ?_)
        rw [Nat.succ_mul, ← hStop]
        omega
      refine h.extend hUnit hTop ?_ ?_ ?_ ?_
      · exact List.forall_mem_concat.mpr
          ⟨h.aligned, hPage ▸ Nat.dvd_mul_left unit _, Nat.dvd_refl unit, hUnit⟩
      · have hLast : r.stop < pageOf addr := by
          rw [hPage, CodeRange.stop]
          omega
        refine List.pairwise_concat.mpr
          ⟨h.spaced, List.forall_mem_concat.mpr ⟨fun x hx => ?_, hLast⟩⟩
        have hBelow := (List.pairwise_concat.mp h.spaced).2 x hx
        exact hBelow.trans ((Nat.le_add_right _ _).trans_lt hLast)
      · intro b
        simp only [List.mem_append, List.mem_singleton, or_and_right, exists_or, exists_eq_left,
          CodeRange.Holds, CodeRange.stop, hPage]
      · rw [CodeRange.stop, hPage]

/-- The whole loop, over addresses in ascending order. -/
theorem foldl {state : RangeState} (h : Merged unit done top state.ranges state.r)
    (hUnit : 0 < unit)
    (hSmall : unit ≤ 2 ^ 63) (addrs : List Nat) (hSorted : (top :: addrs).Pairwise (· ≤ ·))
    (hNear : ∀ addr ∈ addrs, addr < 2 ^ 63 + unit)
    (hPage : ∀ addr ∈ addrs, pageOf addr = addr / unit * unit) :
    Merged unit (done ++ addrs) ((top :: addrs).getLast (List.cons_ne_nil _ _))
      (addrs.foldl (getRangeStep unit) state).ranges (addrs.foldl (getRangeStep unit) state).r := by
  induction addrs generalizing done top state with
  | nil => simpa using h
  | cons addr rest ih =>
      obtain ⟨hTop, hRest⟩ := List.pairwise_cons.mp hSorted
      have hStep := step state.totalsize h hUnit hSmall (hTop addr (List.mem_cons_self ..))
        (hNear addr (List.mem_cons_self ..)) (hPage addr (List.mem_cons_self ..))
      have hAll := ih hStep hRest (fun a ha => hNear a (List.mem_cons_of_mem _ ha))
        fun a ha => hPage a (List.mem_cons_of_mem _ ha)
      rw [List.append_assoc] at hAll
      rw [List.getLast_cons (List.cons_ne_nil _ _)]
      exact hAll

theorem congr {done' : List Nat} (h : Merged unit done top ranges r)
    (hMem : ∀ a, a ∈ done ↔ a ∈ done') : Merged unit done' top ranges r where
  aligned := h.aligned
  spaced := h.spaced
  exact := fun b => by simp only [h.exact b, hMem]
  top_mem := (hMem top).mp h.top_mem
  top_max := fun a ha => h.top_max a ((hMem a).mpr ha)
  stop := h.stop

/-- Every address lies in a range, together with its unit. -/
theorem holds_unit (h : Merged unit done top ranges r) {a b : Nat} (ha : a ∈ done)
    (hUnit : a / unit = b / unit) : ∃ range ∈ ranges ++ [r], range.Holds b :=
  (h.exact b).mpr ⟨a, ha, hUnit⟩

/-- The first range starts with the unit of the lowest address. -/
theorem first_addr (h : Merged unit done top ranges r) (hUnit : 0 < unit) {first : CodeRange}
    {rest : List CodeRange} (hFirst : ranges ++ [r] = first :: rest) :
    (∃ a ∈ done, first.addr = a / unit * unit) ∧ ∀ a ∈ done, first.addr ≤ a / unit * unit := by
  have hMem : first ∈ ranges ++ [r] := hFirst ▸ List.mem_cons_self ..
  obtain ⟨hAddr, -, hSize⟩ := h.aligned first hMem
  constructor
  · have hHolds : first.Holds first.addr := ⟨Nat.le_refl _, Nat.lt_add_of_pos_right hSize⟩
    obtain ⟨a, ha, hEq⟩ := (h.exact first.addr).mp ⟨first, hMem, hHolds⟩
    exact ⟨a, ha, by rw [hEq, Nat.div_mul_cancel hAddr]⟩
  · intro a ha
    have hSame : a / unit = (a / unit * unit) / unit := by rw [Nat.mul_div_cancel _ hUnit]
    obtain ⟨range, hRange, hHolds⟩ := h.holds_unit ha hSame
    rw [hFirst] at hRange
    rcases List.mem_cons.mp hRange with rfl | hLater
    · exact hHolds.1
    · have hSpaced := h.spaced
      rw [hFirst] at hSpaced
      have hAbove := (List.pairwise_cons.mp hSpaced).1 range hLater
      exact Nat.le_of_lt (Nat.lt_of_le_of_lt (Nat.le_add_right ..) (hAbove.trans_le hHolds.1))

end Merged

/-- `getRange` on the addresses of a non-empty set. -/
theorem getRange_merged {unit : Nat} {addrs : List Nat} (hUnit : 0 < unit) (hSmall : unit ≤ 2 ^ 63)
    (hSome : addrs ≠ []) (hSorted : addrs.Pairwise (· ≤ ·))
    (hNear : ∀ addr ∈ addrs, addr < 2 ^ 63 + unit)
    (hPage : ∀ addr ∈ addrs, pageOf addr = addr / unit * unit) :
    ∃ ranges r top, (getRange unit [] addrs).1 = ranges ++ [r] ∧
      Merged unit addrs top ranges r := by
  cases addrs with
  | nil => exact absurd rfl hSome
  | cons first rest =>
      have hAll : (first :: first :: rest).Pairwise (· ≤ ·) := by
        refine List.pairwise_cons.mpr ⟨fun a ha => ?_, hSorted⟩
        rcases List.mem_cons.mp ha with rfl | hRest
        · exact Nat.le_refl _
        · exact (List.pairwise_cons.mp hSorted).1 a hRest
      have hLoop := @Merged.foldl unit first [first] ⟨⟨pageOf first, unit⟩, [], 0⟩
        (Merged.init hUnit (hPage first (List.mem_cons_self ..))) hUnit hSmall (first :: rest) hAll
        hNear hPage
      exact ⟨_, _, _, rfl, hLoop.congr (by simp)⟩

section Exactness

variable {unit : Nat}

/-- What `getRange` is for: aligned ranges in ascending order with at least one unit
between two of them, which hold exactly the units of the addresses, and their total size. -/
structure ExactRanges (unit : Nat) (addrs : Finset Nat) (made : List CodeRange) (total : Nat) :
    Prop where
  aligned : ∀ r ∈ made, unit ∣ r.addr ∧ unit ∣ r.size ∧ 0 < r.size
  spaced : made.Pairwise fun x y => x.stop + unit ≤ y.addr
  exact : ∀ b, (∃ r ∈ made, r.Holds b) ↔ ∃ a ∈ addrs, a / unit = b / unit
  total : total = (made.map CodeRange.size).sum

/-- One round only pushes to the ranges that are there. -/
theorem getRangeStep_append (ranges : List CodeRange) (state : RangeState) (addr : Nat) :
    getRangeStep unit { state with ranges := ranges ++ state.ranges } addr =
      { getRangeStep unit state addr with
        ranges := ranges ++ (getRangeStep unit state addr).ranges } := by
  simp only [getRangeStep]
  split
  · rfl
  · split
    · rfl
    · simp only [List.append_assoc]

/-- Ranges that are there already stay in front. -/
theorem getRange_append (ranges : List CodeRange) (addrs : List Nat) :
    getRange unit ranges addrs =
      (ranges ++ (getRange unit [] addrs).1, (getRange unit [] addrs).2) := by
  have hLoop : ∀ (rest : List Nat) (state : RangeState),
      rest.foldl (getRangeStep unit) { state with ranges := ranges ++ state.ranges } =
        { rest.foldl (getRangeStep unit) state with
          ranges := ranges ++ (rest.foldl (getRangeStep unit) state).ranges } := by
    intro rest
    induction rest with
    | nil => exact fun _ => rfl
    | cons addr rest ih =>
        intro state
        rw [List.foldl_cons, getRangeStep_append]
        exact ih (getRangeStep unit state addr)
  cases addrs with
  | nil => rw [getRange, getRange, List.append_nil]
  | cons first rest =>
      have hAll := hLoop (first :: rest) ⟨⟨pageOf first, unit⟩, [], 0⟩
      rw [List.append_nil] at hAll
      simp only [getRange, hAll, List.append_assoc]

/-- The total counts the ranges that have been pushed. -/
theorem getRangeStep_total {state : RangeState} (addr : Nat)
    (h : state.totalsize = (state.ranges.map CodeRange.size).sum) :
    (getRangeStep unit state addr).totalsize =
      ((getRangeStep unit state addr).ranges.map CodeRange.size).sum := by
  simp only [getRangeStep]
  split
  · exact h
  · split
    · exact h
    · simp [h]

/-- The result of `getRange` is the sum of the sizes. -/
theorem getRange_total (addrs : List Nat) :
    (getRange unit [] addrs).2 = ((getRange unit [] addrs).1.map CodeRange.size).sum := by
  cases addrs with
  | nil => rfl
  | cons first rest =>
      have hLoop := List.foldlRecOn (first :: rest) (getRangeStep unit)
        (motive := fun state => state.totalsize = (state.ranges.map CodeRange.size).sum)
        (b := ⟨⟨pageOf first, unit⟩, [], 0⟩) rfl fun state h addr _ => getRangeStep_total addr h
      simp only [getRange, hLoop, List.map_append, List.sum_append, List.map_singleton,
        List.sum_singleton]

/-- Two aligned ranges that do not touch are a unit apart. -/
theorem Merged.gap {done : List Nat} {top : Nat} {ranges : List CodeRange} {r : CodeRange}
    (h : Merged unit done top ranges r) :
    (ranges ++ [r]).Pairwise fun x y => x.stop + unit ≤ y.addr := by
  apply h.spaced.imp_of_mem
  intro x y hx hy hApart
  obtain ⟨hAddr, hSize, -⟩ := h.aligned x hx
  obtain ⟨k, hStop⟩ : unit ∣ x.stop := Nat.dvd_add hAddr hSize
  obtain ⟨n, hNext⟩ := (h.aligned y hy).1
  rw [hStop, hNext] at hApart ⊢
  rw [← Nat.mul_succ]
  exact Nat.mul_le_mul_left unit (Nat.lt_of_mul_lt_mul_left hApart)

/-- No range holds the address where another one ends. -/
theorem ExactRanges.stop_free {addrs : Finset Nat} {made : List CodeRange} {total : Nat}
    (h : ExactRanges unit addrs made total) (hUnit : 0 < unit) {r : CodeRange} (hr : r ∈ made) :
    ¬ ∃ other ∈ made, other.Holds r.stop := by
  rintro ⟨other, hOther, hLow, hHigh⟩
  have hSpaced := h.spaced
  obtain ⟨before, after, rfl⟩ := List.append_of_mem hr
  obtain ⟨-, hLater, hCross⟩ := List.pairwise_append.mp hSpaced
  have hStop : r.stop = r.addr + r.size := rfl
  rcases List.mem_append.mp hOther with hBefore | hAfter
  · have hApart := hCross other hBefore r (List.mem_cons_self ..)
    omega
  · rcases List.mem_cons.mp hAfter with rfl | hAfter
    · omega
    · have hApart := (List.pairwise_cons.mp hLater).1 other hAfter
      omega

/-- `getRange` finds exactly the units of addresses that lie at most a unit above the lower half. -/
theorem getRange_exactRanges {addrs : Finset Nat} (hUnit : 0 < unit) (hSmall : unit ≤ 2 ^ 63)
    (hSome : addrs.Nonempty) (hNear : ∀ addr ∈ addrs, addr < 2 ^ 63 + unit)
    (hPage : ∀ addr ∈ addrs, pageOf addr = addr / unit * unit) (ranges : List CodeRange) :
    ∃ made, (getRange unit ranges addrs.sort).1 = ranges ++ made ∧
      ExactRanges unit addrs made (getRange unit ranges addrs.sort).2 := by
  have hSort : ∀ a, a ∈ addrs.sort ↔ a ∈ addrs := fun a => Finset.mem_sort _
  have hAddrs : addrs.sort ≠ [] := by
    obtain ⟨a, ha⟩ := hSome
    exact List.ne_nil_of_mem ((hSort a).mpr ha)
  obtain ⟨pushed, r, top, hEq, hMerged⟩ := getRange_merged hUnit hSmall hAddrs
    (Finset.pairwise_sort _ _) (fun addr ha => hNear addr ((hSort addr).mp ha))
    fun addr ha => hPage addr ((hSort addr).mp ha)
  have hTotal := @getRange_total unit addrs.sort
  rw [getRange_append]
  refine ⟨(getRange unit [] addrs.sort).1, rfl, ?_⟩
  rw [hEq] at hTotal ⊢
  exact ⟨hMerged.aligned, hMerged.gap, fun b => by rw [hMerged.exact b]; simp only [hSort], hTotal⟩

end Exactness

/-- The text ranges hold the pages of the executed addresses. -/
theorem getTextRange_holds {addrs : Finset Nat} (hNear : ∀ addr ∈ addrs, addr < 2 ^ 63 + 4096)
    (b : Nat) :
    (∃ r ∈ (getTextRange addrs []).1, r.Holds b) ↔ ∃ a ∈ addrs, pageOf a = pageOf b := by
  have hPage : ∀ a, a / 4096 = b / 4096 ↔ pageOf a = pageOf b := by
    intro a
    simp only [pageOf]
    omega
  simp only [← hPage]
  rw [getTextRange]
  rcases addrs.eq_empty_or_nonempty with rfl | hSome
  · simp [getRange]
  · obtain ⟨made, hMade, hExact⟩ := getRange_exactRanges (by decide : 0 < 4096) (by decide) hSome
      hNear (fun _ _ => rfl) []
    rw [hMade]
    exact hExact.exact b

/-- A text range starts with the page of an executed address. -/
theorem getTextRange_addr {addrs : Finset Nat} (hNear : ∀ addr ∈ addrs, addr < 2 ^ 63 + 4096)
    {r : CodeRange} (h : r ∈ (getTextRange addrs []).1) :
    ∃ a ∈ addrs, r.addr = pageOf a := by
  rw [getTextRange] at h
  rcases addrs.eq_empty_or_nonempty with rfl | hSome
  · simp [getRange] at h
  · obtain ⟨made, hMade, hExact⟩ := getRange_exactRanges (by decide : 0 < 4096) (by decide) hSome
      hNear (fun _ _ => rfl) []
    rw [hMade] at h
    obtain ⟨hAddr, -, hSize⟩ := hExact.aligned r h
    have hHolds : r.Holds r.addr := ⟨Nat.le_refl _, Nat.lt_add_of_pos_right hSize⟩
    obtain ⟨a, ha, hPage⟩ := (hExact.exact r.addr).mp ⟨r, h, hHolds⟩
    refine ⟨a, ha, ?_⟩
    rw [pageOf, hPage, Nat.div_mul_cancel hAddr]

/-- A region starts at a page. -/
theorem pageOf_region {key : Nat} (h : regionOf key = key) :
    pageOf key = key / AccessRange * AccessRange := by
  have hRegion : AccessRange ∣ key := ⟨key / AccessRange, by rw [Nat.mul_comm]; exact h.symm⟩
  have hPage : 4096 ∣ key := Nat.dvd_trans (by decide : 4096 ∣ AccessRange) hRegion
  rw [pageOf, Nat.div_mul_cancel hPage, Nat.div_mul_cancel hRegion]

/-- The ranges of a region map: in ascending order, not empty, and around the bytes
of the known regions. -/
theorem getMemRange_spec {regions : RegionMap} (hKeys : ∀ key ∈ regions.keys, regionOf key = key)
    (hNear : ∀ key ∈ regions.keys, key < 2 ^ 63 + AccessRange) :
    ((getMemRange regions []).1.Pairwise fun x y => x.stop < y.addr) ∧
    (∀ r ∈ (getMemRange regions []).1, 0 < r.size) ∧
    ∀ b, (∃ r ∈ (getMemRange regions []).1, r.Holds b) ↔ regionOf b ∈ regions.keys := by
  rw [getMemRange]
  rcases regions.keys.eq_empty_or_nonempty with hNone | hSome
  · rw [hNone]
    simp [getRange]
  · obtain ⟨made, hMade, hExact⟩ := getRange_exactRanges (by decide : 0 < AccessRange) (by decide)
      hSome hNear (fun key hKey => pageOf_region (hKeys key hKey)) []
    rw [hMade]
    have hUnit : 0 < AccessRange := by decide
    refine ⟨hExact.spaced.imp fun hApart => by
      omega, fun x hx => (hExact.aligned x hx).2.2, fun b => ?_⟩
    rw [List.nil_append, hExact.exact b]
    constructor
    · rintro ⟨key, hKey, hSame⟩
      have hRegion : regionOf b = key := by
        rw [regionOf, ← hSame]
        exact hKeys key hKey
      rwa [hRegion]
    · intro hb
      exact ⟨regionOf b, hb, by rw [regionOf, Nat.mul_div_cancel _ hUnit]⟩

/-- The ranges of a set of addresses are exact in pages and those of a map in regions,
whatever ranges they are pushed behind, as long as all of them lie below `2 ^ 63`. -/
theorem getRange_exact {addrs : Finset Nat} {regions : RegionMap} (ranges : List CodeRange)
    (hAddrs : addrs.Nonempty) (hBelow : ∀ addr ∈ addrs, addr < 2 ^ 63)
    (hRegions : regions.keys.Nonempty) (hKeys : ∀ key ∈ regions.keys, regionOf key = key)
    (hBelowKeys : ∀ key ∈ regions.keys, key < 2 ^ 63) :
    (∃ made, (getTextRange addrs ranges).1 = ranges ++ made ∧
      ExactRanges 4096 addrs made (getTextRange addrs ranges).2 ∧ ∀ r ∈ made, r.stop ≤ 2 ^ 63) ∧
    (∃ made, (getMemRange regions ranges).1 = ranges ++ made ∧
      ExactRanges AccessRange regions.keys made (getMemRange regions ranges).2) := by
  constructor
  · obtain ⟨made, hMade, hExact⟩ := getRange_exactRanges (by decide : 0 < 4096) (by decide) hAddrs
      (fun addr ha => Nat.lt_add_right 4096 (hBelow addr ha)) (fun _ _ => rfl) ranges
    refine ⟨made, hMade, hExact, ?_⟩
    intro r hr
    obtain ⟨-, -, hSize⟩ := hExact.aligned r hr
    have hLast : r.Holds (r.stop - 1) := by
      simp only [CodeRange.Holds, CodeRange.stop]
      omega
    obtain ⟨a, ha, hPage⟩ := (hExact.exact _).mp ⟨r, hr, hLast⟩
    have hAddr := hBelow a ha
    omega
  · exact getRange_exactRanges (by decide : 0 < AccessRange) (by decide) hRegions
      (fun key hKey => Nat.lt_add_right AccessRange (hBelowKeys key hKey))
      (fun key hKey => pageOf_region (hKeys key hKey)) ranges

def spreadPcs : Finset Nat := {0x10004, 0x10ffe, 0x11000, 0x13008}

def twoRegions : RegionMap := ⟨{0x4000, 0x8000}, fun _ _ => 0⟩

theorem getRange_exact_spread :
    (spreadPcs.Nonempty ∧ ∃ made, (getTextRange spreadPcs []).1 = [] ++ made ∧
      ExactRanges 4096 spreadPcs made (getTextRange spreadPcs []).2 ∧ ∀ r ∈ made, r.stop ≤ 2 ^ 63) ∧
    (twoRegions.keys.Nonempty ∧ ∃ made, (getMemRange twoRegions []).1 = [] ++ made ∧
      ExactRanges AccessRange twoRegions.keys made (getMemRange twoRegions []).2) := by
  have hBoth :=
    @getRange_exact spreadPcs twoRegions [] (by decide) (by decide) (by decide) (by decide)
    (by decide)
  exact ⟨⟨by decide, hBoth.1⟩, by decide, hBoth.2⟩

def farRegions : RegionMap := ⟨[0, 0x8000000000002000].toFinset, fun _ _ => 0⟩

/-- The distance of the upper region wraps to a negative one, so the region is lost. -/
theorem getRange_loses_region :
    (∀ key ∈ farRegions.keys, regionOf key = key) ∧
    (getMemRange farRegions []).1 = [⟨0, AccessRange⟩] ∧
    ¬ ExactRanges AccessRange farRegions.keys (getMemRange farRegions []).1
      (getMemRange farRegions []).2 := by
  have hSort : farRegions.keys.sort = [0, 0x8000000000002000] :=
    (List.toFinset_sort (· ≤ ·) (by decide)).mpr (by decide)
  have hRange : (getMemRange farRegions []).1 = [⟨0, AccessRange⟩] := by
    rw [getMemRange, hSort]
    decide
  refine ⟨by decide, hRange, fun hExact => ?_⟩
  rw [hRange] at hExact
  have hKey : (0x8000000000002000 : Nat) ∈ farRegions.keys := by decide
  obtain ⟨r, hr, hHolds⟩ := (hExact.exact 0x8000000000002000).mpr ⟨_, hKey, rfl⟩
  obtain rfl := List.mem_singleton.mp hr
  exact absurd hHolds (by decide)

/-- Behind a range above the cut, everything is above the cut. -/
theorem addr_above {textend : Nat} {r : CodeRange} {rest : List CodeRange}
    (hSpaced : (r :: rest).Pairwise fun x y => x.stop < y.addr) (hCut : textend ≤ r.addr) :
    ∀ range ∈ r :: rest, textend ≤ range.addr := by
  intro range hRange
  rcases List.mem_cons.mp hRange with rfl | hLater
  · exact hCut
  · have hAbove := (List.pairwise_cons.mp hSpaced).1 range hLater
    simp only [CodeRange.stop] at hAbove
    omega

/-- Cutting keeps exactly the bytes from the cut on. -/
theorem trimOverlap_holds {textend b : Nat} {ranges : List CodeRange}
    (hSpaced : ranges.Pairwise fun x y => x.stop < y.addr) :
    (∃ r ∈ trimOverlap textend ranges, r.Holds b) ↔ textend ≤ b ∧ ∃ r ∈ ranges, r.Holds b := by
  induction ranges with
  | nil => simp [trimOverlap]
  | cons r rest ih =>
      have hRest := ih (List.pairwise_cons.mp hSpaced).2
      by_cases hBelow : r.addr < textend
      · simp only [trimOverlap, if_pos hBelow]
        by_cases hCut : r.addr + r.size > textend
        · simp only [if_pos hCut, List.mem_cons, or_and_right, exists_or, exists_eq_left, hRest,
            and_or_left]
          refine or_congr_left ?_
          simp only [CodeRange.Holds, CodeRange.stop]
          omega
        · simp only [if_neg hCut, hRest, List.mem_cons, or_and_right, exists_or, exists_eq_left,
            and_or_left]
          refine (or_iff_right ?_).symm
          simp only [CodeRange.Holds, CodeRange.stop]
          omega
      · simp only [trimOverlap, if_neg hBelow]
        refine (and_iff_right_of_imp ?_).symm
        rintro ⟨range, hRange, hHolds⟩
        exact (addr_above hSpaced (by omega) range hRange).trans hHolds.1

/-- What is left lies above the cut and is not empty. -/
theorem trimOverlap_above {textend : Nat} {ranges : List CodeRange}
    (hSpaced : ranges.Pairwise fun x y => x.stop < y.addr) (hSize : ∀ r ∈ ranges, 0 < r.size) :
    ∀ r ∈ trimOverlap textend ranges, textend ≤ r.addr ∧ 0 < r.size := by
  induction ranges with
  | nil => simp [trimOverlap]
  | cons r rest ih =>
      have hRest := ih (List.pairwise_cons.mp hSpaced).2 fun x hx =>
        hSize x (List.mem_cons_of_mem _ hx)
      by_cases hBelow : r.addr < textend
      · simp only [trimOverlap, if_pos hBelow]
        by_cases hCut : r.addr + r.size > textend
        · rw [if_pos hCut]
          intro range hRange
          rcases List.mem_cons.mp hRange with rfl | hLater
          · exact ⟨Nat.le_refl _, Nat.sub_pos_of_lt hCut⟩
          · exact hRest range hLater
        · rw [if_neg hCut]
          exact hRest
      · simp only [trimOverlap, if_neg hBelow]
        exact fun range hRange => ⟨addr_above hSpaced (by omega) range hRange, hSize range hRange⟩

end RiscvCkpt
