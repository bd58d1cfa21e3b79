import Mathlib.Algebra.Ring.Nat
import Mathlib.Data.List.Basic

/-! Token streams of the LZ77 family: a token appends symbols of its own, or repeats
symbols that stand a distance back. A repetition may run into the symbols it appends
itself. -/
namespace Lz77

variable {α : Type*}

/-- Append `n` symbols, each the one that stands `distance` back at its time. -/
def repeatBack (distance : Nat) (text : List α) : Nat → List α
  | 0 => text
  | n + 1 => repeatBack distance (text ++ (text[text.length - distance]?).toList) n

inductive Token (α : Type*) where
  | literal (run : List α)
  | copy (distance length : Nat)
  deriving DecidableEq, Repr

namespace Token

def expand (text : List α) : Token α → List α
  | literal run => text ++ run
  | copy distance length => repeatBack distance text length

def size : Token α → Nat
  | literal run => run.length
  | copy _ length => length

/-- A repetition starts inside the text in front of it. -/
def Reaches (before : Nat) : Token α → Prop
  | literal _ => True
  | copy distance _ => 1 ≤ distance ∧ distance ≤ before

end Token

def expandAll (text : List α) (tokens : List (Token α)) : List α := tokens.foldl Token.expand text

def ReachesAll (before : Nat) : List (Token α) → Prop
  | [] => True
  | token :: rest => token.Reaches before ∧ ReachesAll (before + token.size) rest

@[simp] theorem expandAll_nil (text : List α) : expandAll text [] = text := rfl

@[simp] theorem expandAll_cons (text : List α) (token : Token α) (rest : List (Token α)) :
    expandAll text (token :: rest) = expandAll (token.expand text) rest := rfl

theorem expandAll_append (text : List α) (first rest : List (Token α)) :
    expandAll text (first ++ rest) = expandAll (expandAll text first) rest :=
  List.foldl_append ..

section RepeatBack

variable {distance : Nat} {text : List α}

theorem repeatBack_length (hLow : 1 ≤ distance) (hHigh : distance ≤ text.length) (n : Nat) :
    (repeatBack distance text n).length = text.length + n := by
  induction n generalizing text with
  | zero => rfl
  | succ n ih =>
      have hOne : (text ++ (text[text.length - distance]?).toList).length = text.length + 1 := by
        rw [List.getElem?_eq_getElem (by omega)]
        simp
      rw [repeatBack, ih (by omega), hOne]
      omega

/-- Repetitions of one distance follow each other. -/
theorem repeatBack_add (distance : Nat) (text : List α) (m n : Nat) :
    repeatBack distance text (m + n) = repeatBack distance (repeatBack distance text m) n := by
  induction m generalizing text with
  | zero => rw [Nat.zero_add, repeatBack]
  | succ m ih => rw [Nat.succ_add, repeatBack, ih, repeatBack]

/-- A text that keeps equalling itself `distance` back is what the repetition makes. -/
theorem repeatBack_range {f : Nat → α} {pos : Nat} (hLow : 1 ≤ distance) (hHigh : distance ≤ pos)
    {n : Nat} (h : ∀ i < n, f (pos - distance + i) = f (pos + i)) :
    repeatBack distance ((List.range pos).map f) n = (List.range (pos + n)).map f := by
  induction n generalizing pos with
  | zero => rfl
  | succ n ih =>
      have hSymbol : ((List.range pos).map f)[((List.range pos).map f).length - distance]? =
          some (f pos) := by
        rw [List.length_map, List.length_range, List.getElem?_map, List.getElem?_range (by omega)]
        have hFirst := h 0 (Nat.succ_pos n)
        simpa using hFirst
      have hNext : (List.range pos).map f ++ [f pos] = (List.range (pos + 1)).map f := by
        rw [List.range_succ, List.map_append, List.map_singleton]
      rw [repeatBack, hSymbol, Option.toList_some, hNext, ih (by omega), Nat.add_right_comm,
        Nat.add_assoc]
      intro i hi
      have hLater := h (i + 1) (by omega)
      rwa [show pos + 1 - distance + i = pos - distance + (i + 1) by omega, Nat.add_right_comm]

end RepeatBack

/-- The text grows by the sizes of the tokens. -/
theorem expand_length {text : List α} {token : Token α} (h : token.Reaches text.length) :
    (token.expand text).length = text.length + token.size := by
  cases token with
  | literal run => exact List.length_append
  | copy distance length => exact repeatBack_length h.1 h.2 length

/-- Tokens that reach into the text add as many symbols as they stand for. -/
theorem expandAll_length (text : List α) {tokens : List (Token α)}
    (h : ReachesAll text.length tokens) :
    (expandAll text tokens).length = text.length + (tokens.map Token.size).sum := by
  induction tokens generalizing text with
  | nil => rfl
  | cons token rest ih =>
      have hLength := expand_length h.1
      rw [expandAll_cons, ih _ (hLength ▸ h.2), hLength, List.map_cons, List.sum_cons,
        Nat.add_assoc]

/-- A stream reaches into its text if each part does, behind the parts before it. -/
theorem reachesAll_append {before : Nat} {first rest : List (Token α)} :
    ReachesAll before (first ++ rest) ↔
      ReachesAll before first ∧ ReachesAll (before + (first.map Token.size).sum) rest := by
  induction first generalizing before with
  | nil => simp [ReachesAll]
  | cons token first ih =>
      rw [List.cons_append, ReachesAll, ih, ReachesAll, List.map_cons, List.sum_cons, and_assoc,
        Nat.add_assoc]

/-- Tokens that start inside the text wherever it has grown to. -/
theorem reachesAll_of_forall {before : Nat} {tokens : List (Token α)}
    (h : ∀ token ∈ tokens, ∀ now, before ≤ now → token.Reaches now) : ReachesAll before tokens := by
  induction tokens generalizing before with
  | nil => trivial
  | cons token rest ih =>
      refine ⟨h token (List.mem_cons_self ..) before (Nat.le_refl _),
        ih fun later hLater now hNow => ?_⟩
      exact h later (List.mem_cons_of_mem _ hLater) now (by omega)

end Lz77
