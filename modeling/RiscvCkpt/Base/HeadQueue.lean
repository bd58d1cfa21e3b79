import Mathlib.Data.List.Basic
import Mathlib.Data.List.Induction

/-! A queue whose test looks only at its head. Entries wait in their order, each with a
number from which on it is due and a number at which it leaves as the head. The second is no
smaller, and larger for an entry that cannot be tested as soon as it has come. At every number
the head is looked at: if it leaves then all entries that are due leave with it, otherwise none
does. -/
namespace HeadQueue

variable {α : Type*} (due lead : α → Nat)

/-- A new entry leaves with a head before it, or it will be a head itself. -/
def joinExits (exits : List Nat) (x : α) : List Nat :=
  if ∃ exit ∈ exits, due x ≤ exit then exits else exits ++ [lead x]

def exits (queue : List α) : List Nat := queue.foldl (joinExits due lead) []

/-- The number at which an entry leaves: the first at which a head leaves and it is due. -/
def release (queue : List α) (x : α) : Nat :=
  ((exits due lead queue).find? fun exit => due x ≤ exit).getD (lead x)

/-- The entries that have not left before number `n`. -/
def waiting (queue : List α) (n : Nat) : List α :=
  queue.filter fun x => n ≤ release due lead queue x

variable {due lead} {queue : List α} {x : α} {n exit : Nat}

/-- The exits of a queue grow by what its last entry adds. -/
theorem exits_concat (queue : List α) (x : α) :
    exits due lead (queue ++ [x]) = joinExits due lead (exits due lead queue) x := by
  rw [exits, List.foldl_append]
  rfl

/-- Entries behind only add exits. -/
theorem exits_append (queue later : List α) :
    exits due lead queue <+: exits due lead (queue ++ later) := by
  induction later using List.reverseRecOn with
  | nil => exact (List.append_nil queue).symm ▸ List.prefix_refl _
  | append_singleton later x ih =>
      rw [← List.append_assoc, exits_concat, joinExits]
      split
      · exact ih
      · exact ih.trans (List.prefix_append _ _)

/-- An entry that no head takes along leaves as a head. -/
theorem release_concat (h : ∀ exit ∈ exits due lead queue, exit < due x) (hLead : due x ≤ lead x) :
    exits due lead (queue ++ [x]) = exits due lead queue ++ [lead x] ∧
      release due lead (queue ++ [x]) x = lead x := by
  have hExits : exits due lead (queue ++ [x]) = exits due lead queue ++ [lead x] := by
    rw [exits_concat, joinExits, if_neg]
    rintro ⟨exit, hExit, hDue⟩
    exact Nat.not_le.mpr (h exit hExit) hDue
  refine ⟨hExits, ?_⟩
  have hNone : (exits due lead queue).find? (fun exit => due x ≤ exit) = none := by
    rw [List.find?_eq_none]
    intro exit hExit hDue
    exact Nat.not_le.mpr (h exit hExit) (of_decide_eq_true hDue)
  rw [release, hExits, List.find?_append, hNone, Option.none_or,
    List.find?_cons_of_pos (p := fun exit => due x ≤ exit) (decide_eq_true hLead), Option.getD_some]

variable (hLead : ∀ x, due x ≤ lead x)

include hLead

/-- The heads leave one after the other. -/
theorem exits_increasing (queue : List α) : (exits due lead queue).Pairwise (· < ·) := by
  induction queue using List.reverseRecOn with
  | nil => exact List.Pairwise.nil
  | append_singleton queue x ih =>
      rw [exits_concat, joinExits]
      split
      · exact ih
      · next hNone =>
          refine List.pairwise_append.mpr ⟨ih, List.pairwise_singleton _ _, ?_⟩
          intro exit hExit last hLast
          rw [List.mem_singleton.mp hLast]
          refine Nat.lt_of_lt_of_le (Nat.lt_of_not_le fun hDue => ?_) (hLead x)
          exact hNone ⟨exit, hExit, hDue⟩

/-- Every entry of the queue leaves. -/
theorem find_exit (hx : x ∈ queue) :
    (exits due lead queue).find? (fun exit => due x ≤ exit) =
      some (release due lead queue x) := by
  obtain ⟨before, after, rfl⟩ := List.append_of_mem hx
  have hSome : ∃ exit ∈ exits due lead (before ++ [x]), due x ≤ exit := by
    rw [exits_concat, joinExits]
    split
    · assumption
    · exact ⟨lead x, List.mem_append_right _ (List.mem_singleton_self _), hLead x⟩
  obtain ⟨exit, hExit, hDue⟩ := hSome
  have hPart : exits due lead (before ++ [x]) <+: exits due lead (before ++ x :: after) := by
    have hMore := @exits_append _ due lead (before ++ [x]) after
    rwa [List.append_assoc, List.singleton_append] at hMore
  have hFound : ((exits due lead (before ++ x :: after)).find?
      fun exit => due x ≤ exit).isSome = true :=
    List.find?_isSome.mpr ⟨exit, hPart.subset hExit, decide_eq_true hDue⟩
  obtain ⟨found, hFind⟩ := Option.isSome_iff_exists.mp hFound
  rw [release, hFind, Option.getD_some]

/-- It leaves at the first exit at which it is due. -/
theorem release_least (hx : x ∈ queue) :
    release due lead queue x ∈ exits due lead queue ∧ due x ≤ release due lead queue x ∧
      ∀ exit ∈ exits due lead queue, due x ≤ exit → release due lead queue x ≤ exit := by
  have hFind := find_exit hLead hx
  refine ⟨List.mem_of_find?_eq_some hFind, of_decide_eq_true (List.find?_some hFind :), ?_⟩
  intro exit hExit hDue
  obtain ⟨-, before, after, hExits, hBefore⟩ := List.find?_eq_some_iff_append.mp hFind
  have hOrder := exits_increasing hLead queue
  rw [hExits] at hExit hOrder
  rcases List.mem_append.mp hExit with hEarlier | hLater
  · have hNot := hBefore exit hEarlier
    rw [decide_eq_true hDue] at hNot
    exact absurd hNot (by decide)
  · rcases List.mem_cons.mp hLater with rfl | hLater
    · exact Nat.le_refl _
    · exact Nat.le_of_lt (List.rel_of_pairwise_cons (List.pairwise_append.mp hOrder).2.1 hLater)

/-- Entries behind do not matter. -/
theorem release_append (hx : x ∈ queue) (later : List α) :
    release due lead (queue ++ later) x = release due lead queue x := by
  obtain ⟨more, hMore⟩ := @exits_append _ due lead queue later
  rw [release, ← hMore, List.find?_append, find_exit hLead hx, Option.some_or, Option.getD_some]

/-- At every exit some head leaves. -/
theorem exists_release (hExit : exit ∈ exits due lead queue) :
    ∃ x ∈ queue, lead x = exit ∧ release due lead queue x = exit := by
  induction queue using List.reverseRecOn with
  | nil => exact absurd hExit List.not_mem_nil
  | append_singleton queue x ih =>
      have hOld : exit ∈ exits due lead queue →
          ∃ y ∈ queue ++ [x], lead y = exit ∧ release due lead (queue ++ [x]) y = exit := by
        intro hOld
        obtain ⟨y, hy, hHead, hRelease⟩ := ih hOld
        exact ⟨y, List.mem_append_left _ hy, hHead, (release_append hLead hy _).trans hRelease⟩
      by_cases hLed : ∃ exit ∈ exits due lead queue, due x ≤ exit
      · rw [exits_concat, joinExits, if_pos hLed] at hExit
        exact hOld hExit
      · have hFree : ∀ exit ∈ exits due lead queue, exit < due x := fun exit hExit =>
          Nat.lt_of_not_le fun hDue => hLed ⟨exit, hExit, hDue⟩
        obtain ⟨hExits, hOwn⟩ := release_concat hFree (hLead x)
        rw [hExits] at hExit
        rcases List.mem_append.mp hExit with hEarlier | hLast
        · exact hOld hEarlier
        · rw [List.mem_singleton.mp hLast]
          exact ⟨x, List.mem_append_right _ (List.mem_singleton_self _), rfl, hOwn⟩

/-- The head of those that wait leaves at its own number, and the others that are due then
leave with it. -/
theorem waiting_head {head : α} {rest : List α}
    (hWaiting : waiting due lead queue n = head :: rest) :
    head ∈ queue ∧ n ≤ lead head ∧
      ∀ x ∈ queue, n ≤ release due lead queue x → due x ≤ lead head →
        release due lead queue x = lead head := by
  obtain ⟨before, after, rfl, hBefore, hHead, -⟩ := List.filter_eq_cons_iff.mp hWaiting
  have hWait : n ≤ release due lead (before ++ head :: after) head := of_decide_eq_true hHead
  have hMem : head ∈ before ++ head :: after := List.mem_append_right _ (List.mem_cons_self ..)
  -- the heads before it have left
  have hPast : ∀ exit ∈ exits due lead before, exit < n := by
    intro exit hExit
    obtain ⟨y, hy, -, hRelease⟩ := exists_release hLead hExit
    have hGone := hBefore y hy
    rw [release_append hLead hy, hRelease] at hGone
    exact Nat.lt_of_not_le fun hLe => hGone (decide_eq_true hLe)
  have hSame : release due lead (before ++ head :: after) head =
      release due lead (before ++ [head]) head := by
    have hOwn : head ∈ before ++ [head] := List.mem_append_right _ (List.mem_singleton_self _)
    have hMore := release_append hLead hOwn after
    rwa [List.append_assoc, List.singleton_append] at hMore
  have hOwn : ∀ exit ∈ exits due lead before, exit < due head := by
    intro exit hExit
    by_contra hDue
    have hLed : ∃ exit ∈ exits due lead before, due head ≤ exit := ⟨exit, hExit, Nat.not_lt.mp hDue⟩
    have hIn := (release_least hLead
      (List.mem_append_right before (List.mem_singleton_self head))).1
    rw [exits_concat, joinExits, if_pos hLed, ← hSame] at hIn
    exact Nat.not_lt.mpr hWait (hPast _ hIn)
  obtain ⟨hExits, hRelease⟩ := release_concat hOwn (hLead head)
  have hLeaves : n ≤ lead head := hRelease ▸ hSame ▸ hWait
  obtain ⟨more, hMore⟩ := @exits_append _ due lead (before ++ [head]) after
  rw [List.append_assoc, List.singleton_append, hExits, List.append_assoc,
    List.singleton_append] at hMore
  refine ⟨hMem, hLeaves, fun x hx hLate hDue => ?_⟩
  obtain ⟨hIn, -, hLeast⟩ := release_least hLead hx
  have hOrder := exits_increasing hLead (before ++ head :: after)
  rw [← hMore] at hIn hLeast hOrder
  apply Nat.le_antisymm (hLeast _ (List.mem_append_right _ (List.mem_cons_self ..)) hDue)
  rcases List.mem_append.mp hIn with hEarlier | hLater
  · exact absurd (hPast _ hEarlier) (Nat.not_lt.mpr hLate)
  · rcases List.mem_cons.mp hLater with hEq | hLater
    · exact Nat.le_of_eq hEq.symm
    · exact Nat.le_of_lt (List.rel_of_pairwise_cons (List.pairwise_append.mp hOrder).2.1 hLater)

/-- The head leaves: those that are due leave with it, and the others wait on. -/
theorem waiting_due {head : α} {rest : List α} (hWaiting : waiting due lead queue n = head :: rest)
    (hLeaves : lead head ≤ n) :
    ((waiting due lead queue n).filter fun x => ¬ due x ≤ n) = waiting due lead queue (n + 1) ∧
    ∀ x ∈ waiting due lead queue n, due x ≤ n → release due lead queue x = n := by
  obtain ⟨-, hLe, hHead⟩ := waiting_head hLead hWaiting
  have hEq : lead head = n := Nat.le_antisymm hLeaves hLe
  rw [hEq] at hHead
  constructor
  · rw [waiting, waiting, List.filter_filter]
    apply List.filter_congr
    intro x hx
    have hOwn := (release_least hLead hx).2.1
    have hLeave := hHead x hx
    rw [Bool.eq_iff_iff, Bool.and_eq_true, decide_eq_true_eq, decide_eq_true_eq, decide_eq_true_eq]
    omega
  · intro x hx hDue
    obtain ⟨hMem, hWait⟩ := List.mem_filter.mp hx
    exact hHead x hMem (of_decide_eq_true hWait) hDue

/-- The head stays: all wait on. -/
theorem waiting_not_due (h : ∀ head ∈ (waiting due lead queue n).head?, n < lead head) :
    waiting due lead queue (n + 1) = waiting due lead queue n := by
  apply List.filter_congr
  intro x hx
  rw [decide_eq_decide]
  refine ⟨Nat.le_of_succ_le, fun hWait => ?_⟩
  have hMem : x ∈ waiting due lead queue n := List.mem_filter.mpr ⟨hx, decide_eq_true hWait⟩
  cases hWaiting : waiting due lead queue n with
  | nil => exact absurd (hWaiting ▸ hMem) List.not_mem_nil
  | cons head rest =>
      have hLater : n < lead head := h head (by rw [hWaiting]; rfl)
      obtain ⟨-, -, hHead⟩ := waiting_head hLead hWaiting
      have hOwn := (release_least hLead hx).2.1
      have hSame := hHead x hx hWait
      omega

/-- A new entry that is still to be due waits behind the others. -/
theorem waiting_concat (hx : n ≤ due x) :
    waiting due lead (queue ++ [x]) n = waiting due lead queue n ++ [x] := by
  have hLast : n ≤ release due lead (queue ++ [x]) x :=
    Nat.le_trans hx (release_least hLead (List.mem_append_right _ (List.mem_singleton_self x))).2.1
  rw [waiting, List.filter_append, List.filter_singleton, decide_eq_true hLast, cond_true]
  congr 1
  apply List.filter_congr
  intro y hy
  rw [release_append hLead hy]

/-- If every entry can leave as soon as it is due, each leaves with the first one that is due
no earlier. -/
theorem release_first (hSoon : ∀ y ∈ queue, lead y = due y) {y : α}
    (hFind : queue.find? (fun y => due x ≤ due y) = some y) : release due lead queue x = due y := by
  obtain ⟨hDue, before, after, rfl, hBefore⟩ := List.find?_eq_some_iff_append.mp hFind
  have hDue : due x ≤ due y := of_decide_eq_true hDue
  have hPast : ∀ exit ∈ exits due lead before, exit < due x := by
    intro exit hExit
    obtain ⟨z, hz, rfl, -⟩ := exists_release hLead hExit
    have hEarlier := hBefore z hz
    rw [hSoon z (List.mem_append_left _ hz)]
    exact Nat.lt_of_not_le fun hLe => by simp [hLe] at hEarlier
  obtain ⟨hExits, -⟩ :=
    release_concat (fun exit hExit => Nat.lt_of_lt_of_le (hPast exit hExit) hDue) (hLead y)
  obtain ⟨more, hMore⟩ := @exits_append _ due lead (before ++ [y]) after
  rw [List.append_assoc, List.singleton_append, hExits, List.append_assoc, List.singleton_append,
    hSoon y (List.mem_append_right _ (List.mem_cons_self ..))] at hMore
  have hNone : (exits due lead before).find? (fun exit => due x ≤ exit) = none := by
    rw [List.find?_eq_none]
    intro exit hExit hLe
    exact Nat.not_le.mpr (hPast exit hExit) (of_decide_eq_true hLe)
  rw [release, ← hMore, List.find?_append, hNone, Option.none_or,
    List.find?_cons_of_pos (p := fun exit => due x ≤ exit) (decide_eq_true hDue), Option.getD_some]

end HeadQueue
