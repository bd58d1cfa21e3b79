import RiscvCkpt.Create.Interval

/-! The bytes that a recorded interval leaves behind: those whose first access is a load,
each once and with the value of that load, as long as no crossing meets the wrong loop
bound of the bookkeeping. -/
namespace RiscvCkpt

open CkptInfo

def Event.span : Event → Finset Nat
  | .load addr size _ => Finset.Ico addr (addr + size)
  | .store addr size => Finset.Ico addr (addr + size)
  | _ => ∅

def Event.regions : Event → Finset Nat
  | .load addr size _ => {regionOf addr, regionOf (addr + size - 1)}
  | .store addr size => {regionOf addr, regionOf (addr + size - 1)}
  | _ => ∅

def Event.CrossesRight (known : Finset Nat) : Event → Prop
  | .load addr size _ => BookedRight known addr size
  | .store addr size => BookedRight known addr size
  | _ => True

instance (known : Finset Nat) : DecidablePred (Event.CrossesRight known)
  | .load _ _ _ => inferInstanceAs (Decidable (BookedRight _ _ _))
  | .store _ _ => inferInstanceAs (Decidable (BookedRight _ _ _))
  | .inst _ => inferInstanceAs (Decidable True)
  | .sysenter _ _ _ => inferInstanceAs (Decidable True)
  | .sysexe _ _ _ _ => inferInstanceAs (Decidable True)
  | .sysret _ _ _ => inferInstanceAs (Decidable True)

/-- No event crosses, at a place other than its middle, into a region that an earlier one
has touched. -/
def BooksRight (known : Finset Nat) : List Event → Prop
  | [] => True
  | event :: rest => event.CrossesRight known ∧ BooksRight (known ∪ event.regions) rest

/-- The first access to the byte is a load, and it returns this value. -/
def FirstLoad (seen : Finset Nat) : List Event → Nat × UInt8 → Prop
  | [], _ => False
  | event :: rest, byte =>
      byte.1 ∉ seen ∧ event.Loads byte ∨ FirstLoad (seen ∪ event.span) rest byte

def Event.loaded : Event → Finset Nat
  | .load addr size _ => Finset.Ico addr (addr + size)
  | _ => ∅

/-- The bytes whose first access is a load. -/
def firstLoads (seen : Finset Nat) : List Event → Finset Nat
  | [] => ∅
  | event :: rest => event.loaded \ seen ∪ firstLoads (seen ∪ event.span) rest

theorem Event.mem_loaded {event : Event} {b : Nat} :
    b ∈ event.loaded ↔ ∃ v, event.Loads (b, v) := by
  cases event with
  | load addr size data => simp [Event.loaded, Event.Loads]
  | inst => simp [Event.loaded, Event.Loads]
  | store => simp [Event.loaded, Event.Loads]
  | sysenter => simp [Event.loaded, Event.Loads]
  | sysexe => simp [Event.loaded, Event.Loads]
  | sysret => simp [Event.loaded, Event.Loads]

/-- The bytes that are loaded first are those with a first load. -/
theorem mem_firstLoads {seen : Finset Nat} {events : List Event} {b : Nat} :
    b ∈ firstLoads seen events ↔ ∃ v, FirstLoad seen events (b, v) := by
  induction events generalizing seen with
  | nil => simp [firstLoads, FirstLoad]
  | cons event rest ih =>
      rw [firstLoads, Finset.mem_union, ih, Finset.mem_sdiff, Event.mem_loaded]
      simp only [FirstLoad, exists_or, exists_and_left, and_comm]

theorem Event.Loads.mem_span {event : Event} {byte : Nat × UInt8} (h : event.Loads byte) :
    byte.1 ∈ event.span := by
  cases event with
  | load addr size data => exact Finset.mem_Ico.mpr ⟨h.1, h.2.1⟩
  | inst => exact h.elim
  | store => exact h.elim
  | sysenter => exact h.elim
  | sysexe => exact h.elim
  | sysret => exact h.elim

/-- A byte that has been seen is not loaded first. -/
theorem FirstLoad.not_seen {seen : Finset Nat} {events : List Event} {byte : Nat × UInt8}
    (h : FirstLoad seen events byte) : byte.1 ∉ seen := by
  induction events generalizing seen with
  | nil => exact h.elim
  | cons event rest ih =>
      rcases h with ⟨hNew, -⟩ | hLater
      · exact hNew
      · exact fun hOld => ih hLater (Finset.mem_union_left _ hOld)

theorem FirstLoad.loads {seen : Finset Nat} {events : List Event} {byte : Nat × UInt8}
    (h : FirstLoad seen events byte) : ∃ event ∈ events, event.Loads byte := by
  induction events generalizing seen with
  | nil => exact h.elim
  | cons event rest ih =>
      rcases h with ⟨-, hLoads⟩ | hLater
      · exact ⟨event, List.mem_cons_self .., hLoads⟩
      · obtain ⟨later, hIn, hLoads⟩ := ih hLater
        exact ⟨later, List.mem_cons_of_mem _ hIn, hLoads⟩

/-- One access keeps the bookkeeping in step with the set of accessed bytes. -/
theorem addAddrInfo_marked {regions : RegionMap} {seen known : Finset Nat} {addr size : Nat}
    (stack : Nat → UInt8) (hMark : ∀ b, regions.Marked b ↔ b ∈ seen)
    (hKeys : ∀ key, key ∈ regions.keys ↔ key ∈ known) (hPos : 0 < size) (hEight : size ≤ 8)
    (hRight : BookedRight known addr size) :
    (∀ b, (addAddrInfo regions addr size stack).1.Marked b ↔
      b ∈ seen ∪ Finset.Ico addr (addr + size)) ∧
    (∀ key, key ∈ (addAddrInfo regions addr size stack).1.keys ↔
      key ∈ known ∪ {regionOf addr, regionOf (addr + size - 1)}) ∧
    (∀ i < size, (addAddrInfo regions addr size stack).2 i = 0 ↔ addr + i ∉ seen) := by
  have hSize : size ≤ AccessRange := hEight.trans (by decide)
  have hKnown : BookedRight regions.keys addr size :=
    fun hCross hMem => hRight hCross ((hKeys _).mp hMem)
  obtain ⟨hBooked, hExist⟩ := addAddrInfo_spec regions addr size stack hPos hSize hKnown
  refine ⟨fun b => ?_, fun key => ?_, fun i hi => ?_⟩
  · rw [Finset.mem_union, ← hMark, RegionMap.Marked, hBooked, Finset.mem_Ico]
    by_cases hb : addr ≤ b ∧ b < addr + size
    · simp [hb]
    · simp [hb, RegionMap.Marked]
  · rw [mem_addAddrInfo_keys regions _ _ _ hPos hSize, hKeys, Finset.mem_union,
      Finset.mem_insert, Finset.mem_singleton]
  · rw [hExist i hi, ← hMark, RegionMap.Marked, not_not]

/-- What the bookkeeping of a checkpoint knows: the accessed bytes and their regions. -/
structure CkptInfo.Knows (info : CkptInfo) (seen known : Finset Nat) : Prop where
  marked : ∀ b, info.preAccess.Marked b ↔ b ∈ seen
  keys : ∀ key, key ∈ info.preAccess.keys ↔ key ∈ known

section Recorded

variable {info : CkptInfo} {seen known : Finset Nat}

/-- A hook that is no access leaves the records of the accesses alone. -/
theorem CkptInfo.Knows.keeps {info' : CkptInfo} (h : info.Knows seen known)
    (hAccess : info'.preAccess = info.preAccess) : info'.Knows (seen ∪ ∅) (known ∪ ∅) := by
  rw [Finset.union_empty, Finset.union_empty]
  exact ⟨fun b => hAccess ▸ h.marked b, fun key => hAccess ▸ h.keys key⟩

/-- One hook: the bytes it records are those that it loads and that were not accessed before. -/
theorem hook_recorded (stack : Nat → UInt8) {event : Event} (hKnows : info.Knows seen known)
    (hGuest : event.Guest) (hRight : event.CrossesRight known) :
    (info.hook stack event).Knows (seen ∪ event.span) (known ∪ event.regions) ∧
    ∃ bytes, temploads (info.hook stack event).loads = temploads info.loads ++ bytes ∧
      (bytes.map Prod.fst).Nodup ∧ ∀ byte, byte ∈ bytes ↔ byte.1 ∉ seen ∧ event.Loads byte := by
  have hQuiet : ∀ {info' : CkptInfo}, info'.loads = info.loads →
      ∃ bytes, temploads info'.loads = temploads info.loads ++ bytes ∧
        (bytes.map Prod.fst).Nodup ∧ ∀ byte : Nat × UInt8, byte ∈ bytes ↔ byte.1 ∉ seen ∧ False :=
    fun hLoads => ⟨[], by rw [hLoads, List.append_nil], List.nodup_nil, by simp⟩
  cases event with
  | inst pc => exact ⟨hKnows.keeps rfl, hQuiet rfl⟩
  | load addr size data =>
      obtain ⟨-, hPos, hEight⟩ := hGuest
      obtain ⟨hMark, hKeys, hExist⟩ :=
        addAddrInfo_marked stack hKnows.marked hKnows.keys hPos hEight hRight
      refine ⟨⟨?_, ?_⟩, _, temploads_addload _ _ _ _ _ hEight, ?_, fun byte => ?_⟩
      · rw [hook, addload_preAccess]
        exact hMark
      · rw [hook, addload_preAccess]
        exact hKeys
      · rw [List.map_map]
        refine List.Nodup.map (fun i j h => ?_) (List.nodup_range.filter _)
        simp only [Function.comp_apply] at h
        omega
      · simp only [List.mem_map, List.mem_filter, List.mem_range, decide_eq_true_eq, Event.Loads]
        constructor
        · rintro ⟨i, ⟨hi, hFirst⟩, rfl⟩
          exact ⟨(hExist i hi).mp hFirst, Nat.le_add_right .., Nat.add_lt_add_left hi _,
            by rw [Nat.add_sub_cancel_left]⟩
        · rintro ⟨hNew, hLow, hHigh, hValue⟩
          have hPlace : addr + (byte.1 - addr) = byte.1 := Nat.add_sub_cancel' hLow
          have hIn : byte.1 - addr < size := by omega
          have hFirst : addr + (byte.1 - addr) ∉ seen := by
            rw [hPlace]
            exact hNew
          refine ⟨byte.1 - addr, ⟨hIn, (hExist _ hIn).mpr hFirst⟩, ?_⟩
          exact Prod.ext hPlace hValue.symm
  | store addr size =>
      obtain ⟨-, hPos, hEight⟩ := hGuest
      obtain ⟨hMark, hKeys, -⟩ :=
        addAddrInfo_marked stack hKnows.marked hKnows.keys hPos hEight hRight
      exact ⟨⟨hMark, hKeys⟩, hQuiet rfl⟩
  | sysenter pc num params => exact ⟨hKnows.keeps rfl, hQuiet rfl⟩
  | sysexe pc ret bufaddr data =>
      exact ⟨hKnows.keeps (updateLast_keys ..).1, hQuiet (updateLast_loads ..)⟩
  | sysret pc hasret ret =>
      exact ⟨hKnows.keeps (updateLast_keys ..).1, hQuiet (updateLast_loads ..)⟩

/-- An interval: the bytes it records are those whose first access is a load. -/
theorem hooks_recorded (stack : Nat → Nat → UInt8) {events : List Event}
    (hKnows : info.Knows seen known) (hGuest : ∀ event ∈ events, event.Guest)
    (hRight : BooksRight known events) :
    ∃ bytes, temploads (info.hooks stack events).loads = temploads info.loads ++ bytes ∧
      (bytes.map Prod.fst).Nodup ∧ ∀ byte, byte ∈ bytes ↔ FirstLoad seen events byte := by
  induction events generalizing info seen known with
  | nil => exact ⟨[], (List.append_nil _).symm, List.nodup_nil, by simp [FirstLoad]⟩
  | cons event rest ih =>
      obtain ⟨hNext, bytes, hBytes, hNodup, hMem⟩ := hook_recorded (stack rest.length) hKnows
        (hGuest event (List.mem_cons_self ..)) hRight.1
      obtain ⟨later, hLater, hNodup', hMem'⟩ :=
        ih hNext (fun e he => hGuest e (List.mem_cons_of_mem _ he)) hRight.2
      refine ⟨bytes ++ later, ?_, ?_, fun byte => ?_⟩
      · rw [hooks, hLater, hBytes, List.append_assoc]
      · -- the new bytes lie in the span of this event, the later ones outside it
        rw [List.map_append]
        refine List.Nodup.append hNodup hNodup' fun b hb hb' => ?_
        obtain ⟨byte, hByte, rfl⟩ := List.mem_map.mp hb
        obtain ⟨byte', hByte', hSame⟩ := List.mem_map.mp hb'
        apply ((hMem' byte').mp hByte').not_seen
        rw [hSame]
        exact Finset.mem_union_right _ ((hMem byte).mp hByte).2.mem_span
      · rw [List.mem_append, hMem, hMem', FirstLoad]

/-- The number of the bytes that an interval records. -/
theorem hooks_recorded_length (stack : Nat → Nat → UInt8) {events : List Event}
    (hKnows : info.Knows seen known) (hGuest : ∀ event ∈ events, event.Guest)
    (hRight : BooksRight known events) (hNone : info.loads = []) :
    (temploads (info.hooks stack events).loads).length = (firstLoads seen events).card := by
  obtain ⟨bytes, hBytes, hNodup, hMem⟩ := hooks_recorded stack hKnows hGuest hRight
  have hSet : firstLoads seen events = (bytes.map Prod.fst).toFinset := by
    ext b
    simp only [mem_firstLoads, List.mem_toFinset, List.mem_map, Prod.exists, exists_and_right,
      exists_eq_right, hMem]
  rw [hBytes, hNone, hSet, List.toFinset_card_of_nodup hNodup, List.length_map]
  rfl

end Recorded

end RiscvCkpt
