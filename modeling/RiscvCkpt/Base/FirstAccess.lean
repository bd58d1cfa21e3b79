import Mathlib.Data.Finset.Card
import Mathlib.Order.Interval.Finset.Nat
import RiscvCkpt.Base.ByteMemory

/-! Sequences of loads and stores, and the bytes whose first access is a load.
These bytes are all that a second execution of the sequence can observe of the
memory it starts from. -/
namespace FirstAccess

open ByteMemory

/-- One memory access. A store carries the bytes it writes. -/
inductive Access where
  | load (addr size : Nat)
  | store (addr : Nat) (bytes : List UInt8)
  deriving DecidableEq, Repr

namespace Access

def addr : Access → Nat
  | load addr _ => addr
  | store addr _ => addr

def size : Access → Nat
  | load _ size => size
  | store _ bytes => bytes.length

def span (access : Access) : Finset Nat :=
  Finset.Ico access.addr (access.addr + access.size)

@[simp] theorem mem_span {access : Access} {b : Nat} :
    b ∈ access.span ↔ access.addr ≤ b ∧ b < access.addr + access.size := by
  simp [span]

def apply (m : Memory) : Access → Memory
  | load _ _ => m
  | store addr bytes => ByteMemory.store m addr bytes

/-- An access changes only the bytes it covers. -/
theorem apply_outside {m : Memory} {access : Access} {b : Nat} (h : b ∉ access.span) :
    access.apply m b = m b := by
  cases access with
  | load addr size => rfl
  | store addr bytes =>
      apply store_outside
      simp only [mem_span, Access.addr, Access.size] at h
      omega

end Access

/-- The bytes returned by the loads of a sequence, in order. -/
def loads (m : Memory) : List Access → List (List UInt8)
  | [] => []
  | .load addr size :: rest => ByteMemory.load m addr size :: loads m rest
  | .store addr bytes :: rest => loads (ByteMemory.store m addr bytes) rest

/-- Bytes outside `seen` whose first access in the sequence is a load. -/
def firstLoaded (seen : Finset Nat) : List Access → Finset Nat
  | [] => ∅
  | .load addr size :: rest =>
      (Access.load addr size).span \ seen ∪
        firstLoaded (seen ∪ (Access.load addr size).span) rest
  | .store addr bytes :: rest => firstLoaded (seen ∪ (Access.store addr bytes).span) rest

/-- A byte that has been seen before is not loaded first. -/
theorem firstLoaded_not_seen {seen : Finset Nat} {accesses : List Access} {b : Nat}
    (h : b ∈ firstLoaded seen accesses) : b ∉ seen := by
  induction accesses generalizing seen with
  | nil => simp [firstLoaded] at h
  | cons access rest ih =>
      cases access with
      | load addr size =>
          simp only [firstLoaded, Finset.mem_union, Finset.mem_sdiff] at h
          rcases h with ⟨_, hb⟩ | h
          · exact hb
          · exact fun hs => ih h (Finset.mem_union_left _ hs)
      | store addr bytes => exact fun hs => ih h (Finset.mem_union_left _ hs)

/-- Two memories that agree on the bytes already accessed and on the bytes
whose first access is a load are told apart by no load of the sequence. -/
theorem loads_eq_of_agree {seen : Finset Nat} {accesses : List Access} {m m' : Memory}
    (hSeen : ∀ b ∈ seen, m b = m' b)
    (hFirst : ∀ b ∈ firstLoaded seen accesses, m b = m' b) :
    loads m accesses = loads m' accesses := by
  induction accesses generalizing seen m m' with
  | nil => rfl
  | cons access rest ih =>
      cases access with
      | load addr size =>
          have hSpan : ∀ b ∈ (Access.load addr size).span, m b = m' b := by
            intro b hb
            by_cases hs : b ∈ seen
            · exact hSeen b hs
            · exact hFirst b (by simp only [firstLoaded, Finset.mem_union, Finset.mem_sdiff]
                                 exact Or.inl ⟨hb, hs⟩)
          have hHead : ByteMemory.load m addr size = ByteMemory.load m' addr size := by
            apply load_congr
            intro i hi
            exact hSpan _ (by simp [Access.addr, Access.size]; omega)
          rw [loads, loads, hHead]
          congr 1
          refine @ih (seen ∪ (Access.load addr size).span) _ _ ?_ ?_
          · intro b hb
            rcases Finset.mem_union.mp hb with hb | hb
            · exact hSeen b hb
            · exact hSpan b hb
          · exact fun b hb => hFirst b (Finset.mem_union_right _ hb)
      | store addr bytes =>
          refine @ih (seen ∪ (Access.store addr bytes).span) _ _ ?_ ?_
          · intro b hb
            by_cases hIn : b ∈ (Access.store addr bytes).span
            · simp only [Access.mem_span, Access.addr, Access.size] at hIn
              rw [store_inside hIn.1 hIn.2, store_inside hIn.1 hIn.2]
            · have hs := (Finset.mem_union.mp hb).resolve_right hIn
              have h := Access.apply_outside (m := m) hIn
              have h' := Access.apply_outside (m := m') hIn
              exact h.trans ((hSeen b hs).trans h'.symm)
          · intro b hb
            have hn := firstLoaded_not_seen hb
            have hIn : b ∉ (Access.store addr bytes).span :=
              fun hin => hn (Finset.mem_union_right _ hin)
            have h := Access.apply_outside (m := m) hIn
            have h' := Access.apply_outside (m := m') hIn
            exact h.trans ((hFirst b hb).trans h'.symm)

end FirstAccess
