import Mathlib.Data.List.Basic

/-! Synchronous machines: one step on every clock edge, under inputs that nothing constrains.
A quantity that a run adds up is bounded by paying for it step by step. -/
namespace Clocked

universe u v

variable {State : Type u} {Input : Type v} (next : State → Input → State)

def run (s : State) (inputs : List Input) : State := inputs.foldl next s

/-- What the edges of a run add up to. -/
def total (amount : State → Input → Nat) : State → List Input → Nat
  | _, [] => 0
  | s, input :: rest => amount s input + total amount (next s input) rest

@[simp] theorem run_nil (s : State) : run next s [] = s := rfl

@[simp] theorem run_cons (s : State) (input : Input) (rest : List Input) :
    run next s (input :: rest) = run next (next s input) rest := rfl

theorem run_append (s : State) (first second : List Input) :
    run next s (first ++ second) = run next (run next s first) second := List.foldl_append

theorem total_append (amount : State → Input → Nat) (s : State) (first second : List Input) :
    total next amount s (first ++ second) =
      total next amount s first + total next amount (run next s first) second := by
  induction first generalizing s with
  | nil => exact (Nat.zero_add _).symm
  | cons input rest ih => rw [List.cons_append, total, total, ih, run_cons, Nat.add_assoc]

/-- Inputs of a kind, counted edge by edge. -/
theorem total_countP (p : Input → Bool) (s : State) (inputs : List Input) :
    total next (fun _ input => (p input).toNat) s inputs = inputs.countP p := by
  induction inputs generalizing s with
  | nil => rfl
  | cons input rest ih =>
      rw [total, ih, List.countP_cons, Nat.add_comm]
      cases p input <;> rfl

/-- Every edge pays its cost out of a bank and of what comes in; so does a run. -/
theorem total_paid {cost income : State → Input → Nat} (bank : State → Nat)
    (hStep : ∀ s input, cost s input + bank (next s input) ≤ bank s + income s input)
    (s : State) (inputs : List Input) :
    total next cost s inputs + bank (run next s inputs) ≤ bank s + total next income s inputs := by
  induction inputs generalizing s with
  | nil => simp [total]
  | cons input rest ih =>
      have hFirst := hStep s input
      have hRest := ih (next s input)
      simp only [total, run_cons]
      omega

end Clocked
