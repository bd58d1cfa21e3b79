import Mathlib.Logic.Function.Basic

/-! Programs and the machines they run on, by what passes between them. A program makes
requests and goes on with the replies, and a machine answers them from a state of its own.
A second machine that gives the same replies takes the program through the same states,
whatever the program does with them. -/
namespace Dialogue

universe u v w

variable {State : Type u} {Request Reply : Type v} {Machine Machine' : Type w}

/-- What a program asks for in a state, and how it goes on. -/
structure Program (State : Type u) (Request Reply : Type v) where
  ask : State → Request
  resume : State → Reply → State

/-- The program makes these requests if it gets these replies, and ends in the second state. -/
def Program.Speaks (program : Program State Request Reply) :
    State → List (Request × Reply) → State → Prop
  | s, [], s' => s' = s
  | s, (request, reply) :: later, s' =>
      request = program.ask s ∧ program.Speaks (program.resume s reply) later s'

/-- The replies that a machine can give in a state, each with the state behind it. -/
abbrev Server (Machine : Type w) (Request Reply : Type v) :=
  Machine → Request → Reply → Machine → Prop

/-- The machine gives these replies to these requests. -/
inductive Serves (server : Server Machine Request Reply) :
    Machine → List (Request × Reply) → Machine → Prop where
  | nil (t : Machine) : Serves server t [] t
  | cons {t next final : Machine} {request : Request} {reply : Reply}
    {later : List (Request × Reply)}
      (first : server t request reply next) (rest : Serves server next later final) :
      Serves server t ((request, reply) :: later) final

/-- A program runs on a machine: what passes between them, and where both get to. -/
structure Runs (program : Program State Request Reply) (server : Server Machine Request Reply)
    (s : State) (t : Machine) (dialogue : List (Request × Reply)) (s' : State) (final : Machine) :
    Prop where
  speaks : program.Speaks s dialogue s'
  serves : Serves server t dialogue final

/-- What every reply keeps, a dialogue keeps. -/
theorem Serves.keeps {server : Server Machine Request Reply}
    {P : Machine → List (Request × Reply) → Prop}
    (hStep : ∀ {t request reply next later}, server t request reply next → P next later →
      P t ((request, reply) :: later))
    {t final : Machine} {dialogue : List (Request × Reply)} (h : Serves server t dialogue final)
    (hEnd : P final []) : P t dialogue := by
  induction h with
  | nil => exact hEnd
  | cons first _ ih => exact hStep first (ih hEnd)

/-- One machine gives the replies of another if a relation between their states, which may
look at the dialogue that is still to come, allows each single reply and is kept by it. -/
theorem Serves.mirrored {server : Server Machine Request Reply}
    {server' : Server Machine' Request Reply}
    {related : List (Request × Reply) → Machine → Machine' → Prop} {final : Machine}
    (hStep : ∀ {t next t' request reply later}, server t request reply next →
      Serves server next later final →
      related ((request, reply) :: later) t t' →
      ∃ next', server' t' request reply next' ∧ related later next next')
    {t : Machine} {t' : Machine'} {dialogue : List (Request × Reply)}
    (h : Serves server t dialogue final) (hStart : related dialogue t t') :
    ∃ final', Serves server' t' dialogue final' ∧ related [] final final' := by
  induction h generalizing t' with
  | nil => exact ⟨t', .nil t', hStart⟩
  | cons first rest ih =>
      obtain ⟨next', hNext, hRelated⟩ := hStep first rest hStart
      obtain ⟨final', hServes, hFinal⟩ := ih hStep hRelated
      exact ⟨final', .cons hNext hServes, hFinal⟩

/-- The program then runs on the second machine as it has run on the first one. -/
theorem Runs.mirrored {program : Program State Request Reply}
    {server : Server Machine Request Reply} {server' : Server Machine' Request Reply}
    {related : List (Request × Reply) → Machine → Machine' → Prop} {s s' : State}
    {t final : Machine}
    {t' : Machine'} {dialogue : List (Request × Reply)}
    (h : Runs program server s t dialogue s' final)
    (hStep : ∀ {t next t' request reply later}, server t request reply next →
      Serves server next later final →
      related ((request, reply) :: later) t t' →
      ∃ next', server' t' request reply next' ∧ related later next next')
    (hStart : related dialogue t t') :
    ∃ final', Runs program server' s t' dialogue s' final' ∧ related [] final final' := by
  obtain ⟨final', hServes, hFinal⟩ := h.serves.mirrored hStep hStart
  exact ⟨final', ⟨h.speaks, hServes⟩, hFinal⟩

end Dialogue
