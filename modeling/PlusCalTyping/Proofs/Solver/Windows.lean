import PlusCalTyping.Proofs.Solver.Charges

/-! # The last equations tried

The report of an exhausted budget lists the last equations that were tried. To know them
it is enough to keep a queue with as many places as there are lines to list, where a new
equation takes the place of the first one when all places are taken
(`Budget.map_recent_after`). An equation enters the queue before it is admitted or
refused, so that the refused one is the last of those listed. A run tries no equation
after that, and what it has tried are the first equations that solving its list comes to,
in whatever part of the run (`Session.ofOptions_solve_recent`).
-/

namespace PlusCalTyping

/-! ## Queues -/

section Queue

variable {α : Type}

/-- Put an element at the end of a queue of so many places. If all are taken, the first
element makes room for it. Without places nothing is kept. -/
def enqueue (places : Nat) (queue : List α) (x : α) : List α :=
  if places = 0 then queue
  else (if queue.length = places then queue.tail else queue) ++ [x]

theorem length_rtake (l : List α) (n : Nat) : (l.rtake n).length = min n l.length := by
  rw [List.rtake, List.length_drop]
  omega

theorem map_rtake {β : Type} (f : α → β) (l : List α) (n : Nat) :
    (l.rtake n).map f = (l.map f).rtake n := by
  rw [List.rtake, List.rtake, List.map_drop, List.length_map]

theorem enqueue_rtake (places : Nat) (l : List α) (x : α) :
    enqueue places (l.rtake places) x = (l ++ [x]).rtake places := by
  cases places with
  | zero => rw [enqueue, if_pos rfl, List.rtake_zero, List.rtake_zero]
  | succ n =>
    have hroom : (if (l.rtake (n + 1)).length = n + 1 then (l.rtake (n + 1)).tail
        else l.rtake (n + 1)) = l.rtake n := by
      rw [length_rtake, List.rtake, List.rtake, List.tail_drop]
      split
      · congr 1
        omega
      · -- Some place is free, so nothing has been dropped so far.
        congr 1
        omega
    rw [enqueue, if_neg (Nat.succ_ne_zero n), hroom, List.rtake_concat_succ]

/-- A queue that takes in a list has the last elements of it in the end. -/
theorem foldl_enqueue (places : Nat) (l : List α) :
    l.foldl (enqueue places) [] = l.rtake places := by
  induction l using List.reverseRecOn with
  | nil => exact (List.rtake_nil places).symm
  | append_singleton l x ih =>
    rw [List.foldl_append, ih]
    exact enqueue_rtake places l x

end Queue

/-! ## Budgets -/

namespace Budget

/-- The budget after it was charged for some equations, whether it admitted or refused them. -/
def after (b : Budget) (es : List Equation) : Budget := es.foldl (fun b e => (b.charge e).2) b

variable {b : Budget}

theorem recent_eq_rtake (b : Budget) : b.recent = b.attempted.reverse.rtake b.traceLimit := by
  rw [recent, List.rtake_eq_reverse_take_reverse, List.reverse_reverse]

theorem recent_note (b : Budget) (e : Equation) :
    (b.note e).recent = (b.attempted.reverse ++ [e]).rtake b.traceLimit := by
  rw [recent_eq_rtake]
  exact congrArg (fun es : List Equation => es.rtake b.traceLimit) List.reverse_cons

/-- An equation enters the window whether it is admitted or refused. -/
theorem recent_charge (b : Budget) (e : Equation) :
    (b.charge e).2.recent = enqueue b.traceLimit b.recent e := by
  have hnoted : (b.charge e).2.recent = (b.note e).recent := by
    unfold charge
    split <;> rfl
  rw [hnoted, recent_note, recent_eq_rtake b, enqueue_rtake]

theorem traceLimit_charge (b : Budget) (e : Equation) :
    (b.charge e).2.traceLimit = b.traceLimit := by
  unfold charge
  split <;> rfl

theorem recent_after (b : Budget) (es : List Equation) :
    (b.after es).recent = es.foldl (enqueue b.traceLimit) b.recent := by
  induction es generalizing b with
  | nil => rfl
  | cons e es ih =>
    rw [after, List.foldl_cons, ← after, ih, recent_charge, traceLimit_charge, List.foldl_cons]

theorem charge_snd (h : b.used ≤ b.limit) (e : Equation) :
    (b.charge e).2 = { b.note e with used := min (b.used + 1) b.limit } := by
  by_cases hlt : b.used < b.limit
  · simp only [charge, if_pos hlt, Nat.min_eq_left hlt]
  · have hstays : min (b.used + 1) b.limit = b.used := by omega
    simp only [charge, if_neg hlt, hstays]
    rfl

/-- Every charge is noted, and admitted ones are counted up to the limit. -/
theorem after_eq (h : b.used ≤ b.limit) (es : List Equation) :
    b.after es = { b with
      used := min (b.used + es.length) b.limit
      attempted := es.reverse ++ b.attempted } := by
  induction es generalizing b with
  | nil => simp [after, h]
  | cons e es ih =>
    have hcount : min (min (b.used + 1) b.limit + es.length) b.limit =
        min (b.used + (e :: es).length) b.limit := by
      rw [List.length_cons]
      omega
    have hcharge := charge_snd h e
    rw [after, List.foldl_cons, hcharge, ← after, ih (Nat.min_le_right _ _)]
    simp only [note, hcount, List.reverse_cons, List.append_assoc, List.singleton_append]

variable (o : Options) (es : List Equation)

theorem after_ofOptions : (ofOptions o).after es = { ofOptions o with
    used := min es.length o.maxIterations
    attempted := es.reverse } := by
  rw [after_eq (Nat.zero_le _)]
  simp [ofOptions]

/-- The window holds the texts that a queue of its size would hold. -/
theorem map_recent_after : ((ofOptions o).after es).recent.map Equation.render =
    (es.map Equation.render).foldl (enqueue o.traceLimit) [] := by
  have hfresh : (ofOptions o).recent = [] := by simp [recent, ofOptions]
  have hwindow : ((ofOptions o).after es).recent = es.rtake o.traceLimit := by
    rw [recent_after, hfresh]
    exact foldl_enqueue o.traceLimit es
  rw [hwindow, map_rtake, foldl_enqueue]

/-- A charge is admitted if it is among the first ones that the limit allows for.
Otherwise the refusal lists the last ones charged, the refused one included. -/
theorem charge_after (e : Equation) : (((ofOptions o).after es).charge e).1 =
    if es.length + 1 ≤ o.maxIterations then .ok ()
    else .error (.outOfBudget o.maxIterations ((es ++ [e]).rtake o.traceLimit) e.provenance) := by
  have hrecent : (((ofOptions o).after es).note e).recent = (es ++ [e]).rtake o.traceLimit := by
    rw [recent_note, after_ofOptions, List.reverse_reverse]
    rfl
  have hiff : ((ofOptions o).after es).used < ((ofOptions o).after es).limit ↔
      es.length + 1 ≤ o.maxIterations := by
    rw [after_ofOptions]
    simp only [ofOptions]
    omega
  unfold charge
  dsimp only
  rw [hrecent]
  by_cases h : es.length + 1 ≤ o.maxIterations
  · rw [if_pos (hiff.mpr h), if_pos h]
  · rw [if_neg (mt hiff.mp h), if_neg h, after_ofOptions]
    rfl

end Budget

/-! ## Whole runs -/

namespace Session

variable {s : Session} {o : Options} {cs : List Constraint}

theorem attempted_eq_take (hs : s.failures = #[]) (o : Options) (cs : List Constraint) :
    s.attempted o cs = (s.charges cs).take (o.maxIterations + 1) := by
  rcases Nat.lt_or_ge o.maxIterations (s.charges cs).length with hlt | hle
  · obtain ⟨before, e, after, hcharges, hlength⟩ := exists_refused hlt
    obtain ⟨_, _, hattempted, _⟩ := exists_solve_of_refused hs hcharges hlength
    rw [hattempted, hcharges, ← hlength, List.take_length_add_append, List.take_succ_cons,
      List.take_zero]
  · rw [(solve_of_length_le hs hle).1, List.take_of_length_le (Nat.le_succ_of_le hle)]

/-- A run that exhausts its budget has tried one equation more than were admitted, and
the report of it lists the last ones tried. -/
theorem help_of_solverBudget (hs : s.failures = #[]) {d : Diagnostic}
    (hd : d ∈ (s.solve o cs).diagnostics) (hcategory : d.category = .solverBudget) :
    (s.attempted o cs).length = o.maxIterations + 1 ∧
      d.help = some (Failure.budgetHelp ((s.attempted o cs).rtake o.traceLimit)) := by
  rcases Nat.lt_or_ge o.maxIterations (s.charges cs).length with hlt | hle
  · obtain ⟨before, e, after, hcharges, hlength⟩ := exists_refused hlt
    obtain ⟨t, ht, hattempted, hsolve⟩ := exists_solve_of_refused hs hcharges hlength
    rw [hsolve, diagnostics_fail] at hd
    rcases List.mem_append.mp hd with hd | hd
    · exact absurd hcategory (ht.category_ne d hd)
    · rw [List.mem_singleton.mp hd, hattempted, List.length_append, hlength]
      have hrecent : (((Budget.ofOptions o).spend before).note e).recent =
          (before ++ [e]).rtake o.traceLimit := by
        rw [Budget.recent_note]
        simp [Budget.spend, Budget.ofOptions]
      exact ⟨rfl, congrArg (some ∘ Failure.budgetHelp) hrecent⟩
  · exact absurd hcategory ((solve_of_length_le hs hle).2 d hd)

/-- A fresh budget admits the charges up to its limit, and after any charges its window
holds the last of them, as a queue of its size would. So the report of an exhausted
budget lists, of the equations that the list comes to in the session, the last ones up
to the first that is over the limit. -/
theorem ofOptions_solve_recent (o o' : Options) (calls : List Call) (cs : List Constraint) :
    (∀ (es : List Equation) (e : Equation),
      let b := (Budget.ofOptions o').after es
      let window := (es.map Equation.render).foldl (enqueue o'.traceLimit) []
      b.recent.map Equation.render = window ∧
      window = (es.map Equation.render).rtake o'.traceLimit ∧
      window.length = min o'.traceLimit es.length ∧
      (b.charge e).1 = if es.length + 1 ≤ o'.maxIterations then .ok () else
        .error (.outOfBudget o'.maxIterations ((es ++ [e]).rtake o'.traceLimit) e.provenance)) ∧
    let s := (ofOptions o).after calls
    let last := ((s.charges cs).take (o'.maxIterations + 1)).rtake o'.traceLimit
    s.attempted o' cs = (s.charges cs).take (o'.maxIterations + 1) ∧
    ∀ d ∈ (s.solve o' cs).diagnostics, d.category = .solverBudget →
      last.length = min o'.traceLimit (o'.maxIterations + 1) ∧
        d.help = some (Failure.budgetHelp last) := by
  refine ⟨?_, ?_⟩
  · intro es e b window
    have hwindow : window = (es.map Equation.render).rtake o'.traceLimit := foldl_enqueue _ _
    refine ⟨Budget.map_recent_after o' es, hwindow, ?_, Budget.charge_after o' es e⟩
    rw [hwindow, length_rtake, List.length_map]
  · intro s last
    have hs : s.failures = #[] := failures_after rfl calls
    have hattempted := attempted_eq_take hs o' cs
    refine ⟨hattempted, fun d hd hcategory => ?_⟩
    obtain ⟨hlength, hhelp⟩ := help_of_solverBudget hs hd hcategory
    rw [hattempted] at hlength hhelp
    exact ⟨by rw [length_rtake, hlength], hhelp⟩

/-- One candidate of the choice does not fit, the other one does. Its equation is tried
and, when the choice is decided for it, tried again and refused. There are places for
all that was tried but the first equation. -/
theorem ofOptions_solve_recent_commit :
    let v : Ty := .var ⟨0⟩
    let eqn (i : Nat) (s t : Ty) : Equation := ⟨s, t, ⟨⟨i⟩, .exprType⟩⟩
    let first := eqn 0 (.var ⟨1⟩) (.int ⟨0⟩)
    let second := eqn 1 v (.bool ⟨1⟩)
    let wrong := eqn 2 v (.string ⟨2⟩)
    let right := eqn 3 v (.bool ⟨3⟩)
    let cs := [.equal first, .oneOf ⟨[[wrong], [right]], ⟨⟨4⟩, .identity⟩⟩, .equal second]
    let o : Options := { maxIterations := 4, traceLimit := 4 }
    ∃ d ∈ (((ofOptions {}).after []).solve o cs).diagnostics, d.category = .solverBudget ∧
      d.help = some (Failure.budgetHelp [second, wrong, right, right]) := by
  intro v eqn first second wrong right cs o
  have hcharges : ((ofOptions {}).after []).charges cs =
      [first, second, wrong, right, right] := by
    simp only [cs, first, second, wrong, right, eqn, v]
    cbv
  have hcategories : (((ofOptions {}).after []).solve o cs).failures.map (·.category) =
      [.solverBudget] := by
    simp only [o, cs, first, second, wrong, right, eqn, v]
    cbv
  have hmem : Category.solverBudget ∈
      (((ofOptions {}).after []).solve o cs).failures.map (·.category) := by
    rw [hcategories]
    exact List.mem_singleton_self _
  obtain ⟨d, hd, hcategory⟩ := Solution.exists_of_category hmem
  obtain ⟨_, _, hreport⟩ := ofOptions_solve_recent {} o [] cs
  obtain ⟨_, hhelp⟩ := hreport d hd hcategory
  rw [hcharges] at hhelp
  exact ⟨d, hd, hcategory, hhelp⟩

end Session

end PlusCalTyping
