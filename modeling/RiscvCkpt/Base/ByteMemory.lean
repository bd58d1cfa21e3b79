import Mathlib.Data.List.Basic
import Mathlib.Data.List.GetD
import Mathlib.Logic.Function.Basic
import Mathlib.Tactic.Ring

/-! Byte-addressed memories as total functions, with block loads and stores
and the frame facts that relate them. -/
namespace ByteMemory

abbrev Memory := Nat → UInt8

def zero : Memory := fun _ => 0

/-- The `size` bytes from `addr` on. -/
def load (m : Memory) (addr size : Nat) : List UInt8 :=
  (List.range size).map fun i => m (addr + i)

def store (m : Memory) (addr : Nat) (bytes : List UInt8) : Memory := fun a =>
  if addr ≤ a ∧ a < addr + bytes.length then bytes.getD (a - addr) 0 else m a

@[simp] theorem load_length (m : Memory) (addr size : Nat) : (load m addr size).length = size := by
  simp [load]

@[simp] theorem load_zero (m : Memory) (addr : Nat) : load m addr 0 = [] := rfl

theorem load_getD {m : Memory} {addr size i : Nat} (h : i < size) :
    (load m addr size).getD i 0 = m (addr + i) := by
  simp [load, List.getD, h]

theorem load_congr {m m' : Memory} {addr size : Nat}
    (h : ∀ i < size, m (addr + i) = m' (addr + i)) : load m addr size = load m' addr size := by
  apply List.map_congr_left
  intro i hi
  exact h i (List.mem_range.mp hi)

/-- Neighbouring loads make one. -/
theorem load_add (m : Memory) (addr first second : Nat) :
    load m addr (first + second) = load m addr first ++ load m (addr + first) second := by
  simp only [load, List.range_add, List.map_append, List.map_map]
  congr 2
  funext i
  exact congrArg m (Nat.add_assoc ..).symm

/-- The first bytes of a load. -/
theorem load_take {m : Memory} {addr n size : Nat} (h : n ≤ size) :
    (load m addr size).take n = load m addr n := by
  obtain ⟨more, rfl⟩ := Nat.exists_eq_add_of_le h
  rw [load_add, List.take_left' (load_length m addr n)]

/-- Two loads agree exactly if the memories agree on the bytes they read. -/
theorem load_eq_iff {m m' : Memory} {addr size : Nat} :
    load m addr size = load m' addr size ↔ ∀ b, addr ≤ b → b < addr + size → m b = m' b := by
  constructor
  · intro hSame b hLow hHigh
    have hByte := congrArg (fun data => data.getD (b - addr) 0) hSame
    rw [load_getD (by omega), load_getD (by omega), Nat.add_sub_cancel' hLow] at hByte
    exact hByte
  · exact fun hSame => load_congr fun i hi =>
      hSame _ (Nat.le_add_right ..) (Nat.add_lt_add_left hi _)

/-- A stored byte is found where it was stored. -/
theorem store_inside {m : Memory} {addr a : Nat} {bytes : List UInt8}
    (hLow : addr ≤ a) (hHigh : a < addr + bytes.length) :
    store m addr bytes a = bytes.getD (a - addr) 0 := by
  simp [store, hLow, hHigh]

/-- A store leaves the bytes outside of it alone. -/
theorem store_outside {m : Memory} {addr a : Nat} {bytes : List UInt8}
    (h : a < addr ∨ addr + bytes.length ≤ a) : store m addr bytes a = m a := by
  simp only [store]
  rw [if_neg (by omega)]

@[simp] theorem store_nil (m : Memory) (addr : Nat) : store m addr [] = m := by
  funext a
  exact store_outside (by simp; omega)

/-- Two blocks stored one behind the other make one. -/
theorem store_append (m : Memory) (addr : Nat) (first second : List UInt8) :
    store (store m addr first) (addr + first.length) second = store m addr (first ++ second) := by
  funext a
  simp only [store, List.length_append]
  by_cases hSecond : addr + first.length ≤ a ∧ a < addr + first.length + second.length
  · rw [if_pos hSecond, if_pos (by omega), List.getD_append_right _ _ _ _ (by omega)]
    congr 1
    omega
  · rw [if_neg hSecond]
    by_cases hFirst : addr ≤ a ∧ a < addr + first.length
    · rw [if_pos hFirst, if_pos (by omega), List.getD_append _ _ _ _ (by omega)]
    · rw [if_neg hFirst, if_neg (by omega)]

/-- Changing one byte of a block before storing it changes that byte of memory. -/
theorem store_set {m : Memory} {addr k : Nat} {bytes : List UInt8} (h : k < bytes.length)
    (byte : UInt8) :
    store m addr (bytes.set k byte) = Function.update (store m addr bytes) (addr + k) byte := by
  funext a
  rw [Function.update_apply]
  simp only [store, List.length_set]
  by_cases hk : a = addr + k
  · subst hk
    rw [if_pos (by omega), if_pos rfl, Nat.add_sub_cancel_left, List.getD_eq_getElem?_getD,
      List.getElem?_set_self h, Option.getD_some]
  · rw [if_neg hk]
    refine ite_congr rfl (fun hIn => ?_) fun _ => rfl
    rw [List.getD_eq_getElem?_getD, List.getElem?_set_ne (by omega), ← List.getD_eq_getElem?_getD]

/-- Storing zeros over zeros changes nothing. -/
theorem store_zeros {m : Memory} {addr : Nat} {bytes : List UInt8}
    (hBytes : ∀ byte ∈ bytes, byte = 0)
    (hZero : ∀ a, addr ≤ a → a < addr + bytes.length → m a = 0) : store m addr bytes = m := by
  funext a
  by_cases h : addr ≤ a ∧ a < addr + bytes.length
  · rw [store_inside h.1 h.2, hZero a h.1 h.2, List.getD_eq_getElem?_getD,
      List.getElem?_eq_getElem (by omega)]
    exact hBytes _ (List.getElem_mem _)
  · exact store_outside (by omega)

/-- The first bytes of a block do as well as the block exactly if the others are there
already. -/
theorem store_take_eq_iff {m : Memory} {addr n : Nat} {bytes : List UInt8} :
    store m addr (bytes.take n) = store m addr bytes ↔
      ∀ i, n ≤ i → i < bytes.length → m (addr + i) = bytes.getD i 0 := by
  constructor
  · intro hSame i hLow hHigh
    have hByte := congrFun hSame (addr + i)
    rw [store_outside (by rw [List.length_take]; omega), store_inside (by omega) (by omega),
      Nat.add_sub_cancel_left] at hByte
    exact hByte
  · intro hThere
    funext a
    simp only [store, List.length_take]
    by_cases hTaken : addr ≤ a ∧ a < addr + min n bytes.length
    · rw [if_pos hTaken, if_pos (by omega), List.getD_eq_getElem?_getD,
        List.getElem?_take_of_lt (by omega), ← List.getD_eq_getElem?_getD]
    · rw [if_neg hTaken]
      split
      · next hIn =>
          rw [← hThere (a - addr) (by omega) (by omega), Nat.add_sub_cancel' hIn.1]
      · rfl

/-- Reading back a stored block gives the block. -/
@[simp] theorem load_store_self (m : Memory) (addr : Nat) (bytes : List UInt8) :
    load (store m addr bytes) addr bytes.length = bytes := by
  apply List.ext_getElem
  · simp
  · intro i hi hj
    simp only [load, List.getElem_map, List.getElem_range]
    rw [store_inside (by omega) (by omega)]
    simp [hj]

/-- A load disjoint from a store does not see it. -/
theorem load_store_disjoint {m : Memory} {addr size at' : Nat} {bytes : List UInt8}
    (h : addr + size ≤ at' ∨ at' + bytes.length ≤ addr) :
    load (store m at' bytes) addr size = load m addr size := by
  apply load_congr
  intro i hi
  exact store_outside (by omega)

/-- A loop whose rounds either put one value into a place or leave the place alone. -/
theorem foldl_read {σ α β : Type*} {step : σ → α → σ} {read : σ → β} {hits : α → Prop}
    [DecidablePred hits] {v : β} {xs : List α}
    (h : ∀ x ∈ xs, ∀ s, read (step s x) = if hits x then v else read s) (s : σ) :
    read (xs.foldl step s) = if ∃ x ∈ xs, hits x then v else read s := by
  induction xs generalizing s with
  | nil => simp
  | cons x rest ih =>
      rw [List.foldl_cons, ih fun y hy => h y (List.mem_cons_of_mem _ hy),
        h x (List.mem_cons_self ..)]
      by_cases hRest : ∃ y ∈ rest, hits y
      · rw [if_pos hRest, if_pos ((List.exists_mem_cons_iff ..).mpr (Or.inr hRest))]
      · rw [if_neg hRest]
        refine if_congr ?_ rfl rfl
        rw [List.exists_mem_cons_iff]
        exact (or_iff_left hRest).symm

/-- Set single bytes, in order. -/
def setBytes (m : Memory) (bytes : List (Nat × UInt8)) : Memory :=
  bytes.foldl (fun m byte => Function.update m byte.1 byte.2) m

/-- A byte that is set to one value only, however often. -/
theorem setBytes_apply {m : Memory} {bytes : List (Nat × UInt8)} {b : Nat} {v : UInt8}
    (h : ∀ byte ∈ bytes, byte.1 = b → byte.2 = v) :
    setBytes m bytes b = if ∃ byte ∈ bytes, byte.1 = b then v else m b := by
  apply @foldl_read _ _ _ _ (fun m : Memory => m b) (fun byte : Nat × UInt8 => byte.1 = b)
  intro byte hb s
  by_cases hSame : byte.1 = b
  · rw [if_pos hSame, ← h byte hb hSame, ← hSame, Function.update_self]
  · rw [if_neg hSame, Function.update_of_ne (Ne.symm hSame)]

/-- What a change of memory writes: exactly the bytes of `bytes`, with values that do not
depend on what was there. -/
structure Writes (change : Memory → Memory) (bytes : Nat → Prop) : Prop where
  inside : ∀ b, bytes b → ∀ m m', change m b = change m' b
  outside : ∀ b, ¬ bytes b → ∀ m, change m b = m b

namespace Writes

variable {f g : Memory → Memory} {s t : Nat → Prop}

/-- A byte is kept from every memory exactly if it is not written. -/
theorem keeps_iff (h : Writes f s) (b : Nat) : (∀ m, f m b = m b) ↔ ¬ s b := by
  constructor
  · intro hKeeps hb
    have hSame := h.inside b hb (fun _ => 0) (fun _ => 1)
    rw [hKeeps, hKeeps] at hSame
    exact absurd hSame (by decide)
  · exact fun hb => h.outside b hb

theorem congr (h : Writes f s) (hSame : ∀ b, s b ↔ t b) : Writes f t where
  inside := fun b hb => h.inside b ((hSame b).mpr hb)
  outside := fun b hb => h.outside b fun hIn => hb ((hSame b).mp hIn)

theorem nothing : Writes (fun m => m) (fun _ => False) where
  inside := fun _ hb => hb.elim
  outside := fun _ _ _ => rfl

/-- Two writes in a row write what either of them writes. -/
theorem comp (hf : Writes f s) (hg : Writes g t) :
    Writes (fun m => g (f m)) (fun b => s b ∨ t b) where
  inside := by
    intro b hb m m'
    by_cases hLater : t b
    · exact hg.inside b hLater _ _
    · rw [hg.outside b hLater, hg.outside b hLater]
      exact hf.inside b (hb.resolve_right hLater) m m'
  outside := by
    intro b hb m
    rw [hg.outside b fun hIn => hb (Or.inr hIn)]
    exact hf.outside b (fun hIn => hb (Or.inl hIn)) m

/-- A store writes the bytes it covers and no others. -/
theorem store (addr : Nat) (bytes : List UInt8) :
    Writes (fun m => store m addr bytes) (fun b => addr ≤ b ∧ b < addr + bytes.length) where
  inside := by
    intro b hb m m'
    rw [store_inside hb.1 hb.2, store_inside hb.1 hb.2]
  outside := by
    intro b hb m
    exact store_outside (by omega)

/-- A loop of writes writes what its rounds write. -/
theorem foldl {α : Type*} {change : Memory → α → Memory} {bytes : α → Nat → Prop} {xs : List α}
    (h : ∀ x ∈ xs, Writes (fun m => change m x) (bytes x)) :
    Writes (fun m => xs.foldl change m) (fun b => ∃ x ∈ xs, bytes x b) := by
  induction xs with
  | nil => exact nothing.congr (by simp)
  | cons x rest ih =>
      have hRest := ih fun y hy => h y (List.mem_cons_of_mem _ hy)
      exact ((h x (List.mem_cons_self ..)).comp hRest).congr (by simp)

end Writes

end ByteMemory
