import RiscvCkpt.Create.RecordedBytes

/-! First-load replay. A sequence of loads and stores is recorded into one
checkpoint, the first loads are packed and written into zeroed memory, and the
sequence is executed again from there. -/
namespace RiscvCkpt

open ByteMemory FirstAccess CkptInfo

/-- Record a sequence as the CPU hooks do: a load with the bytes it returns, a
store without its bytes. `stack n` is what the uninitialised `exist` array
holds when `n` accesses are still to come. -/
def record (stack : Nat → Nat → UInt8) (info : CkptInfo) (m : Memory) : List Access → CkptInfo
  | [] => info
  | .load addr size :: rest =>
      record stack (info.addload (stack rest.length) addr (ByteMemory.load m addr size) size) m rest
  | .store addr bytes :: rest =>
      record stack (info.addstore (stack rest.length) addr bytes.length)
        (ByteMemory.store m addr bytes) rest

/-- The memory a replay starts from. -/
def restoredMemory (info : CkptInfo) : Memory :=
  writeChunks zero info.getFistloads.firstloads

/-- A checkpoint as its constructor leaves it. -/
structure CkptInfo.Fresh (info : CkptInfo) : Prop where
  loads : info.loads = []
  firstloads : info.firstloads = []
  preAccess : info.preAccess = RegionMap.empty

/-- The accesses the CPU can make: 1, 2, 4 or 8 bytes in the lower half of the
address space. -/
def GuestAccess (access : Access) : Prop :=
  access.addr < 2 ^ 63 ∧ access.size ∈ [1, 2, 4, 8]

instance : DecidablePred GuestAccess := fun _ => inferInstanceAs (Decidable (_ ∧ _))

/-- No access of the sequence crosses, at a place other than its middle, into a
region that an earlier access has touched. -/
def CrossesRight (known : Finset Nat) : List Access → Prop
  | [] => True
  | access :: rest =>
      BookedRight known access.addr access.size ∧
        CrossesRight (known ∪ {regionOf access.addr, regionOf (access.addr + access.size - 1)}) rest

/-- Re-executing the sequence from the restored memory returns, load by load,
what the recorded execution returned. -/
def ReplaysFaithfully (stack : Nat → Nat → UInt8) (info : CkptInfo) (m : Memory)
    (accesses : List Access) : Prop :=
  loads (restoredMemory (record stack info m accesses)) accesses = loads m accesses

theorem GuestAccess.size_bounds {access : Access} (h : GuestAccess access) :
    0 < access.size ∧ access.size ≤ 8 := by
  have hSize := h.2
  simp only [List.mem_cons, List.not_mem_nil, or_false] at hSize
  omega

/-- The calls of the hooks that a sequence makes. -/
def trace (m : Memory) : List Access → List Event
  | [] => []
  | .load addr size :: rest => .load addr size (ByteMemory.load m addr size) :: trace m rest
  | .store addr bytes :: rest =>
      .store addr bytes.length :: trace (ByteMemory.store m addr bytes) rest

section Trace

variable {accesses : List Access} {m : Memory}

theorem trace_length (accesses : List Access) (m : Memory) :
    (trace m accesses).length = accesses.length := by
  induction accesses generalizing m with
  | nil => rfl
  | cons access rest ih => cases access <;> exact congrArg (· + 1) (ih _)

/-- Recording a sequence of accesses calls the hooks of its trace. -/
theorem record_eq_hooks (stack : Nat → Nat → UInt8) (info : CkptInfo) :
    record stack info m accesses = info.hooks stack (trace m accesses) := by
  induction accesses generalizing info m with
  | nil => rfl
  | cons access rest ih =>
      cases access with
      | load addr size =>
          rw [record, ih, trace, hooks, trace_length]
          rfl
      | store addr bytes =>
          rw [record, ih, trace, hooks, trace_length]
          rfl

/-- The trace of guest accesses has guest events only. -/
theorem trace_guest (hGuest : ∀ access ∈ accesses, GuestAccess access) :
    ∀ event ∈ trace m accesses, event.Guest := by
  induction accesses generalizing m with
  | nil => exact fun event hEvent => absurd hEvent List.not_mem_nil
  | cons access rest ih =>
      have hHead := hGuest access (List.mem_cons_self ..)
      have hRest := fun m => @ih m fun a ha => hGuest a (List.mem_cons_of_mem _ ha)
      cases access with
      | load addr size => exact List.forall_mem_cons.mpr ⟨⟨hHead.1, hHead.size_bounds⟩, hRest _⟩
      | store addr bytes => exact List.forall_mem_cons.mpr ⟨⟨hHead.1, hHead.size_bounds⟩, hRest _⟩

/-- Accesses that cross a boundary in the right order are booked right. -/
theorem trace_booksRight {known : Finset Nat} (hRight : CrossesRight known accesses) :
    BooksRight known (trace m accesses) := by
  induction accesses generalizing known m with
  | nil => trivial
  | cons access rest ih =>
      cases access with
      | load addr size => exact ⟨hRight.1, ih hRight.2⟩
      | store addr bytes => exact ⟨hRight.1, ih hRight.2⟩

/-- A byte whose first access is a load is loaded with its value at the start. -/
theorem firstLoad_trace {seen : Finset Nat} {b : Nat} {v : UInt8} :
    FirstLoad seen (trace m accesses) (b, v) ↔ b ∈ firstLoaded seen accesses ∧ v = m b := by
  induction accesses generalizing seen m with
  | nil => simp [trace, FirstLoad, firstLoaded]
  | cons access rest ih =>
      cases access with
      | load addr size =>
          rw [trace, FirstLoad, firstLoaded, Finset.mem_union, or_and_right, Finset.mem_sdiff]
          refine or_congr ?_ ih
          rw [and_comm, and_right_comm, Access.mem_span]
          refine and_congr_left fun hNew => ?_
          constructor
          · rintro ⟨hLow, hHigh, hValue⟩
            rw [load_getD (by omega), Nat.add_sub_cancel' hLow] at hValue
            exact ⟨⟨hLow, hHigh⟩, hValue⟩
          · rintro ⟨⟨hLow, hHigh⟩, hValue⟩
            simp only [Access.addr, Access.size] at hLow hHigh
            refine ⟨hLow, hHigh, ?_⟩
            rw [load_getD (by omega), Nat.add_sub_cancel' hLow]
            exact hValue
      | store addr bytes =>
          rw [trace, FirstLoad, firstLoaded]
          simp only [Event.Loads, and_false, false_or]
          refine Iff.trans ih (and_congr_right fun hFirst => ?_)
          -- a byte loaded first later on is not touched by this store
          have hOut : b ∉ (Access.store addr bytes).span := fun h =>
            firstLoaded_not_seen hFirst (Finset.mem_union_right _ h)
          exact iff_of_eq (congrArg (v = ·) (Access.apply_outside (m := m) hOut))

end Trace

theorem CkptInfo.Fresh.knows {info : CkptInfo} (h : info.Fresh) : info.Knows ∅ ∅ := by
  constructor
  · simp [h.preAccess, RegionMap.Marked, RegionMap.mark, RegionMap.empty]
  · simp [h.preAccess, RegionMap.empty]

/-- The restored memory of an interval holds, where the first access is a load, what that
load has returned. -/
theorem restoredMemory_hooks (stack : Nat → Nat → UInt8) {info : CkptInfo} (hFresh : info.Fresh)
    {events : List Event} (hGuest : ∀ event ∈ events, event.Guest) (hRight : BooksRight ∅ events)
    (hCount : (temploads (info.hooks stack events).loads).length < 2 ^ 31) {byte : Nat × UInt8}
    (hFirst : FirstLoad ∅ events byte) :
    restoredMemory (info.hooks stack events) byte.1 = byte.2 := by
  obtain ⟨bytes, hBytes, hNodup, hMem⟩ := hooks_recorded stack hFresh.knows hGuest hRight
  have hNone : (info.hooks stack events).firstloads = [] :=
    (congrArg CkptInfo.firstloads (info.hooks_header stack events)).trans hFresh.firstloads
  rw [hFresh.loads] at hBytes
  simp only [restoredMemory, getFistloads, hNone]
  rw [hBytes] at hCount ⊢
  exact (combineLoads_memory bytes hCount hNodup).1 byte ((hMem byte).mpr hFirst)

/-- The restored memory agrees with the original one on every byte whose first
access is a load. -/
theorem restoredMemory_record (stack : Nat → Nat → UInt8) {info : CkptInfo} (hFresh : info.Fresh)
    {accesses : List Access} (m : Memory) (hGuest : ∀ access ∈ accesses, GuestAccess access)
    (hRight : CrossesRight ∅ accesses) (hCount : (firstLoaded ∅ accesses).card < 2 ^ 31) :
    ∀ b ∈ firstLoaded ∅ accesses,
      restoredMemory (record stack info m accesses) b = m b := by
  have hEvents := @trace_guest accesses m hGuest
  have hBooks := @trace_booksRight accesses m ∅ hRight
  obtain ⟨bytes, hBytes, hNodup, hMem⟩ := hooks_recorded stack hFresh.knows hEvents hBooks
  have hSet : firstLoaded ∅ accesses = (bytes.map Prod.fst).toFinset := by
    ext b
    simp only [List.mem_toFinset, List.mem_map, Prod.exists, exists_and_right, exists_eq_right,
      hMem, firstLoad_trace]
  have hLength : (temploads (info.hooks stack (trace m accesses)).loads).length < 2 ^ 31 := by
    rw [hBytes, hFresh.loads]
    have hCard := List.toFinset_card_of_nodup hNodup
    rw [List.length_map, ← hSet] at hCard
    exact hCard ▸ hCount
  intro b hb
  rw [record_eq_hooks]
  exact @restoredMemory_hooks stack info hFresh _ hEvents hBooks hLength (b, m b)
    (firstLoad_trace.mpr ⟨hb, rfl⟩)

/-- First-load replay is faithful for every memory and every sequence whose
crossings avoid the wrong loop bound and whose first-loaded bytes fit the `int`
that counts them. -/
theorem replay_faithful (stack : Nat → Nat → UInt8) (info : CkptInfo) (hFresh : info.Fresh)
    (m : Memory) (accesses : List Access) (hGuest : ∀ access ∈ accesses, GuestAccess access)
    (hRight : CrossesRight ∅ accesses) (hCount : (firstLoaded ∅ accesses).card < 2 ^ 31) :
    ReplaysFaithfully stack info m accesses := by
  have hAgree := restoredMemory_record stack hFresh m hGuest hRight hCount
  exact loads_eq_of_agree (by simp) hAgree

/-- An eight-byte load that meets the region boundary in its middle, after its
second half has been stored to. -/
theorem replay_faithful_crossing :
    ReplaysFaithfully (fun _ _ => 5) (CkptInfo.create 0 0 0 [] [] 0 0) (fun a => UInt8.ofNat a)
      [.store 8192 [9], .load 8188 8] := by
  refine replay_faithful _ _ ⟨rfl, rfl, rfl⟩ _ _ ?_ ?_ ?_
  · decide
  · simp only [CrossesRight, BookedRight]
    decide
  · decide

/-- A four-byte load enters a known region by one byte; the bookkeeping marks
three bytes there, and a later load of the second one is not recorded. Every
entry of `exist` that these accesses read has been written before. -/
theorem replay_loses_byte :
    (∀ access ∈ [Access.store 8292 [0], .load 8189 4, .load 8193 1], GuestAccess access) ∧
      ¬ ReplaysFaithfully (fun _ _ => 0) (CkptInfo.create 0 0 0 [] [] 0 0)
        (fun a => if a = 8193 then 7 else 0) [.store 8292 [0], .load 8189 4, .load 8193 1] := by
  refine ⟨by decide, ?_⟩
  unfold ReplaysFaithfully
  decide +kernel

end RiscvCkpt
