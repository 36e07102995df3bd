import PlusCalTyping.Proofs.Solver.Trials
import PlusCalTyping.Proofs.Solver.Truncation

/-! # What a run is charged for

Every equation that a run tries is charged before it is tried. Which equations
these are is a matter of the constraints and of the session alone. They are
listed here part by part, as if nothing could stop the run (`Session.charges`).
A run under a budget charges the equations of the list one after the other up to
the first one that is refused, if there is one (`Solving.charges_constraints`).
So the list decides whether the budget is exhausted and where that is reported,
and the bound on what a run spends is a bound on its length
(`Session.ofOptions_solve_charges`).
-/

namespace PlusCalTyping

/-- The candidate at an index, without equations if there is none. -/
def Choice.candidate (c : Choice) (i : Nat) : List Equation := c.candidates[i]?.getD []

/-- The equations that a trial comes to. The first one that fails is the last. -/
def Substitution.tried (σ : Substitution) : List Equation → List Equation
  | [] => []
  | e :: es =>
    let events := σ.unify e.expected e.actual
    e :: if Unify.succeeded events then tried (Unify.extend σ events) es else []

namespace Session

/-- The equations that come up when all candidates of a choice are tried. -/
def tried (s : Session) (c : Choice) : List Equation := c.candidates.flatMap s.substitution.tried

def chargesOfPass (s : Session) : List Choice → List Equation
  | [] => []
  | c :: cs =>
    s.tried c ++
      match s.viable c with
      | [] => chargesOfPass (s.reportExhausted c) cs
      | [i] => c.candidate i ++ chargesOfPass (s.commit .commitAlternative c i) cs
      | _ => chargesOfPass s cs

/-- The charges where nothing is forced: the choice is tried once more. -/
def chargesOfFirst (s : Session) (c : Choice) : List Equation :=
  s.tried c ++
    match s.viable c with
    | [] => []
    | i :: _ => c.candidate i

def chargesOfRounds (s : Session) : List Choice → List Equation
  | [] => []
  | c :: cs =>
    let p := s.pass (c :: cs)
    s.chargesOfPass (c :: cs) ++
      if p.1.length < (c :: cs).length then chargesOfRounds p.2 p.1
      else s.chargesOfFirst c ++ chargesOfRounds (s.decideFirst c) cs
termination_by pending => pending.length
decreasing_by
  · assumption
  · exact Nat.lt_succ_self _

/-- All equations that solving a list comes to if it is not stopped, in their order. -/
def charges (s : Session) (cs : List Constraint) : List Equation :=
  Solving.equations cs ++
    ((Solving.equations cs).foldl unify (s.constrain cs)).chargesOfRounds (Solving.choices cs)

/-- The equations that a run has noted, the one that was refused included. -/
def attempted (s : Session) (o : Options) (cs : List Constraint) : List Equation :=
  match Solving.constraints cs ⟨s.constrain cs, .ofOptions o⟩ with
  | .ok _ p | .error _ p => p.budget.attempted.reverse

end Session

/-! ## Only equations of the constraints are charged -/

namespace Session

variable {s : Session} {c : Choice} {cs : List Choice} {e : Equation}

theorem mem_of_tried {σ : Substitution} {es : List Equation} (h : e ∈ σ.tried es) : e ∈ es := by
  induction es generalizing σ with
  | nil => exact h
  | cons e' es ih =>
    rcases List.mem_cons.mp h with rfl | h
    · exact List.mem_cons_self
    · split at h
      · exact List.mem_cons_of_mem e' (ih h)
      · cases h

theorem mem_candidates_of_tried (h : e ∈ s.tried c) : e ∈ c.candidates.flatten := by
  obtain ⟨es, hes, h⟩ := List.mem_flatMap.mp h
  exact List.mem_flatten.mpr ⟨es, hes, mem_of_tried h⟩

theorem mem_candidates_of_candidate {i : Nat} (h : e ∈ c.candidate i) :
    e ∈ c.candidates.flatten := by
  unfold Choice.candidate at h
  cases hi : c.candidates[i]? with
  | none =>
    rw [hi] at h
    cases h
  | some candidate =>
    rw [hi] at h
    exact List.mem_flatten.mpr ⟨candidate, List.mem_of_getElem? hi, h⟩

theorem exists_of_mem_chargesOfPass (h : e ∈ s.chargesOfPass cs) :
    ∃ c ∈ cs, e ∈ c.candidates.flatten := by
  induction cs generalizing s with
  | nil => cases h
  | cons c cs ih =>
    rw [chargesOfPass] at h
    have hlater {t : Session} (h : e ∈ t.chargesOfPass cs) :
        ∃ c' ∈ c :: cs, e ∈ c'.candidates.flatten := by
      obtain ⟨c', hc', he⟩ := ih h
      exact ⟨c', List.mem_cons_of_mem c hc', he⟩
    rcases List.mem_append.mp h with h | h
    · exact ⟨c, List.mem_cons_self, mem_candidates_of_tried h⟩
    · split at h
      · exact hlater h
      · rcases List.mem_append.mp h with h | h
        · exact ⟨c, List.mem_cons_self, mem_candidates_of_candidate h⟩
        · exact hlater h
      · exact hlater h

theorem mem_candidates_of_chargesOfFirst (h : e ∈ s.chargesOfFirst c) :
    e ∈ c.candidates.flatten := by
  rcases List.mem_append.mp h with h | h
  · exact mem_candidates_of_tried h
  · split at h
    · cases h
    · exact mem_candidates_of_candidate h

theorem exists_of_mem_chargesOfRounds (h : e ∈ s.chargesOfRounds cs) :
    ∃ c ∈ cs, e ∈ c.candidates.flatten := by
  induction s, cs using settle.induct with
  | case1 s =>
    rw [chargesOfRounds] at h
    cases h
  | case2 s c cs p hlt ih =>
    rw [chargesOfRounds, if_pos hlt] at h
    rcases List.mem_append.mp h with h | h
    · exact exists_of_mem_chargesOfPass h
    · obtain ⟨c', hc', he⟩ := ih h
      exact ⟨c', (s.sublist_pass (c :: cs)).subset hc', he⟩
  | case3 s c cs p hlt ih =>
    rw [chargesOfRounds, if_neg hlt] at h
    rcases List.mem_append.mp h with h | h
    · exact exists_of_mem_chargesOfPass h
    · rcases List.mem_append.mp h with h | h
      · exact ⟨c, List.mem_cons_self, mem_candidates_of_chargesOfFirst h⟩
      · obtain ⟨c', hc', he⟩ := ih h
        exact ⟨c', List.mem_cons_of_mem c hc', he⟩

theorem exists_of_mem_charges {ks : List Constraint} (h : e ∈ s.charges ks) :
    ∃ k ∈ ks, e ∈ k.equations := by
  rcases List.mem_append.mp h with h | h
  · exact ⟨.equal e, Solving.mem_equations_iff.mp h, List.mem_singleton_self e⟩
  · obtain ⟨c, hc, he⟩ := exists_of_mem_chargesOfRounds h
    exact ⟨.oneOf c, Solving.mem_choices_iff.mp hc, he⟩

end Session

/-! ## Charging a list -/

namespace Budget

/-- The budget after equations that it has admitted. -/
def spend (b : Budget) (es : List Equation) : Budget :=
  { b with used := b.used + es.length, attempted := es.reverse ++ b.attempted }

@[simp]
theorem limit_spend (b : Budget) (es : List Equation) : (b.spend es).limit = b.limit := rfl

@[simp]
theorem used_spend (b : Budget) (es : List Equation) :
    (b.spend es).used = b.used + es.length := rfl

theorem spend_append (b : Budget) (es es' : List Equation) :
    b.spend (es ++ es') = (b.spend es).spend es' := by
  simp only [spend, List.length_append, List.reverse_append, Nat.add_assoc, List.append_assoc]

/-- How a refusal is reported. -/
def refusal (b : Budget) (e : Equation) : Failure :=
  .outOfBudget b.limit (b.note e).recent e.provenance

end Budget

namespace Solving

variable {α β : Type} {m : Solving α} {g : α → Solving β} {s t u : Session}
  {es es' : List Equation} {x : α} {y : β} {n : Nat}

/-- A part charges these equations one after the other. It comes to its end with
this result in this session, unless one of them is refused. -/
structure Charges (m : Solving α) (s : Session) (es : List Equation) (x : α) (t : Session) :
    Prop where
  done (b : Budget) (h : b.used + es.length ≤ b.limit) : m ⟨s, b⟩ = .ok x ⟨t, b.spend es⟩
  stopped (b : Budget) {before after : List Equation} {e : Equation}
    (hes : es = before ++ e :: after) (h : b.used + before.length = b.limit) :
    ∃ u, m ⟨s, b⟩ = .error ((b.spend before).refusal e) ⟨u, (b.spend before).note e⟩

theorem charges_pure (x : α) (s : Session) : Charges (pure x) s [] x s :=
  ⟨fun _ _ => rfl, fun _ {before _ _} hes => absurd hes.symm (by simp)⟩

theorem Charges.bind (h : Charges m s es x t) (hg : Charges (g x) t es' y u) :
    Charges (m >>= g) s (es ++ es') y u := by
  have hrun (b : Budget) (hb : b.used + es.length ≤ b.limit) :
      (m >>= g) ⟨s, b⟩ = g x ⟨t, b.spend es⟩ := by
    simp only [Bind.bind, EStateM.bind, h.done b hb]
  constructor
  · intro b hb
    rw [List.length_append, ← Nat.add_assoc] at hb
    rw [hrun b (Nat.le_of_add_right_le hb), hg.done (b.spend es) hb, Budget.spend_append]
  · intro b before after e hes hb
    have hlater (as : List Equation) (hbefore : before = es ++ as)
        (hrest : es' = as ++ e :: after) :
        ∃ u, (m >>= g) ⟨s, b⟩ = .error ((b.spend before).refusal e)
          ⟨u, (b.spend before).note e⟩ := by
      rw [hbefore, List.length_append, ← Nat.add_assoc] at hb
      rw [hrun b (hb ▸ Nat.le_add_right _ _), hbefore, Budget.spend_append]
      exact hg.stopped (b.spend es) hrest hb
    -- The refused equation is one of the second part, or one of the first.
    rcases List.append_eq_append_iff.mp hes with ⟨as, hbefore, hrest⟩ | ⟨bs, hfirst, hrest⟩
    · exact hlater as hbefore hrest
    · cases bs with
      | nil =>
        rw [List.append_nil] at hfirst
        exact hlater [] (by rw [hfirst, List.append_nil]) hrest.symm
      | cons e' bs =>
        cases hrest
        obtain ⟨u, hu⟩ := h.stopped b hfirst hb
        refine ⟨u, ?_⟩
        simp only [Bind.bind, EStateM.bind, hu]

/-- What is made of a result charges nothing. -/
theorem Charges.bind_pure (h : Charges m s es x t) (hg : g x = pure y) :
    Charges (m >>= g) s es y t := by
  rw [← List.append_nil es]
  exact h.bind (hg ▸ charges_pure y t)

/-- A change of the session comes before or after what is charged. -/
theorem charges_change (f : Session → Session) (s : Session) :
    Charges (change f) s [] () (f s) :=
  ⟨fun _ _ => rfl, fun _ {before _ _} hes => absurd hes.symm (by simp)⟩

theorem charges_charge (e : Equation) (s : Session) : Charges (charge e) s [e] () s := by
  constructor
  · intro b hb
    have hlt : b.used < b.limit := hb
    simp only [charge, Budget.charge, hlt, if_true]
    rfl
  · intro b before after e' hes hb
    obtain ⟨rfl, rfl, rfl⟩ : before = [] ∧ e' = e ∧ after = [] := by
      cases before <;> simp_all
    have hlt : ¬b.used < b.limit := hb ▸ Nat.lt_irrefl _
    refine ⟨s, ?_⟩
    simp only [charge, Budget.charge, hlt, if_false]
    rfl

theorem Charges.length_le {z : α} (h : Charges m s es x t) (h' : Spends m s n z u) :
    es.length ≤ n := by
  refine Nat.le_of_not_lt fun hlt => ?_
  let b : Budget := { limit := n, traceLimit := 0 }
  obtain ⟨_, hok, _⟩ := h' b (Nat.le_of_eq (Nat.zero_add n))
  -- With so little budget the equation at this place is refused.
  have hes : es = es.take n ++ es[n] :: es.drop (n + 1) := by simp
  obtain ⟨v, hv⟩ := h.stopped b hes (by simp [b, Nat.le_of_lt hlt])
  rw [hok] at hv
  cases hv

/-! ## The parts of a run -/

theorem charges_forM_enforce (es : List Equation) (s : Session) :
    Charges (es.forM enforce) s es () (es.foldl Session.unify s) := by
  induction es generalizing s with
  | nil => exact charges_pure () s
  | cons e es ih =>
    have hfirst : Charges (enforce e) s [e] () (s.unify e) :=
      (charges_charge e s).bind (charges_change _ s)
    exact hfirst.bind (g := fun _ => es.forM enforce) (ih (s.unify e))

theorem charges_fits (σ : Substitution) (es : List Equation) (s : Session) :
    Charges (fits σ es) s (σ.tried es) (σ.fits es) s := by
  induction es generalizing σ with
  | nil => exact charges_pure true s
  | cons e es ih =>
    rw [fits, Substitution.tried, Substitution.fits]
    refine (charges_charge e s).bind ?_
    dsimp only
    split
    · next h =>
      rw [h, Bool.true_and]
      exact ih _
    · next h =>
      rw [Bool.eq_false_iff.mpr h, Bool.false_and]
      exact charges_pure false s

theorem charges_viableFrom (σ : Substitution) (i : Nat) (candidates : List (List Equation))
    (s : Session) :
    Charges (viableFrom σ i candidates) s (candidates.flatMap σ.tried) (σ.viable i candidates)
      s := by
  induction candidates generalizing i with
  | nil => exact charges_pure [] s
  | cons es rest ih =>
    exact (charges_fits σ es s).bind ((ih (i + 1)).bind_pure rfl)

theorem charges_viable (c : Choice) (s : Session) :
    Charges (viable c) s (s.tried c) (s.viable c) s :=
  have h := charges_viableFrom s.substitution 0 c.candidates s
  ⟨fun b => h.done b, fun b => h.stopped b⟩

theorem charges_commit (action : UnifyAction) (c : Choice) (i : Nat) (s : Session) :
    Charges (commit action c i) s (c.candidate i) () (s.commit action c i) := by
  unfold commit Session.commit Choice.candidate
  cases c.candidates[i]? with
  | none => exact charges_pure () s
  | some candidate => exact (charges_change _ s).bind (charges_forM_enforce candidate _)

theorem charges_exhaust (c : Choice) (s : Session) :
    Charges (exhaust c) s [] () (s.reportExhausted c) := charges_change _ s

theorem charges_pass (cs : List Choice) (s : Session) :
    Charges (pass cs) s (s.chargesOfPass cs) ⟨(s.pass cs).1, s.length_pass_le cs⟩
      (s.pass cs).2 := by
  induction cs generalizing s with
  | nil => exact charges_pure _ s
  | cons c cs ih =>
    have hviable := charges_viable c s
    rw [Session.chargesOfPass]
    refine hviable.bind ?_
    match h : s.viable c with
    | [] =>
      simp only [Session.pass_of_exhausted h]
      exact (charges_exhaust c s).bind ((ih _).bind_pure rfl)
    | [i] =>
      simp only [Session.pass_of_forced h]
      exact (charges_commit .commitAlternative c i s).bind ((ih _).bind_pure rfl)
    | i :: j :: more =>
      simp only [Session.pass_of_open h]
      exact (ih s).bind_pure rfl

theorem charges_decideFirst (c : Choice) (s : Session) :
    Charges (decideFirst c) s (s.chargesOfFirst c) () (s.decideFirst c) := by
  refine (charges_viable c s).bind ?_
  unfold Session.decideFirst
  cases s.viable c with
  | nil => exact charges_exhaust c s
  | cons i more => exact charges_commit .defaultAlternative c i s

theorem charges_round_of_lt {cs : List Choice} (h : (s.pass cs).1.length < cs.length) :
    Charges (round cs) s (s.chargesOfPass cs) (s.pass cs).1 (s.pass cs).2 := by
  refine (charges_pass cs s).bind_pure ?_
  obtain ⟨⟨waiting, t⟩, hpass⟩ : ∃ p, s.pass cs = p := ⟨_, rfl⟩
  rw [hpass] at h
  cases waiting with
  | nil => simp only [hpass]
  | cons c rest => simp only [hpass, if_pos h]

theorem charges_round_of_idle {c : Choice} {cs : List Choice}
    (h : s.pass (c :: cs) = (c :: cs, s)) :
    Charges (round (c :: cs)) s (s.chargesOfPass (c :: cs) ++ s.chargesOfFirst c) cs
      (s.decideFirst c) := by
  have hpass := charges_pass (c :: cs) s
  simp only [h] at hpass
  refine hpass.bind ?_
  simp only [Nat.lt_irrefl, if_false]
  exact (charges_decideFirst c s).bind_pure rfl

theorem charges_rounds (cs : List Choice) (s : Session) :
    Charges (rounds cs) s (s.chargesOfRounds cs) () (s.settle cs) := by
  induction s, cs using Session.settle.induct with
  | case1 s =>
    rw [rounds_nil, Session.chargesOfRounds, Session.settle_nil]
    exact charges_pure () s
  | case2 s c cs p hlt ih =>
    rw [rounds_eq_round_bind, Session.chargesOfRounds, if_pos hlt, Session.settle, if_pos hlt]
    exact (charges_round_of_lt hlt).bind ih
  | case3 s c cs p hlt ih =>
    have hidle := Session.pass_eq_self (Nat.not_lt.mp hlt)
    rw [rounds_eq_round_bind, Session.chargesOfRounds, if_neg hlt, Session.settle_of_idle hidle,
      ← List.append_assoc]
    exact (charges_round_of_idle hidle).bind ih

theorem charges_constraints (cs : List Constraint) (s : Session) :
    Charges (constraints cs) (s.constrain cs) (s.charges cs) () (s.completed cs) :=
  (charges_forM_enforce (equations cs) _).bind (g := fun _ => rounds (choices cs))
    (charges_rounds (choices cs) _)

theorem length_charges_le (s : Session) (cs : List Constraint) :
    (s.charges cs).length ≤ bound cs := by
  obtain ⟨t, ht⟩ := exists_spends_constraints cs (s.constrain cs)
  exact (charges_constraints cs s).length_le ht

end Solving

/-! ## Whole runs -/

namespace Session

variable {s : Session} {o : Options} {cs : List Constraint}

theorem unstopped_constrain (hs : s.failures = #[]) (cs : List Constraint) :
    (s.constrain cs).Unstopped := by
  simp [Unstopped, constrain, hs]

/-- What is reported of a run that comes to its end is not due to the budget. -/
theorem solve_of_length_le (hs : s.failures = #[])
    (h : (s.charges cs).length ≤ o.maxIterations) :
    s.attempted o cs = s.charges cs ∧
      ∀ d ∈ (s.solve o cs).diagnostics, d.category ≠ .solverBudget := by
  have hrun := (Solving.charges_constraints cs s).done (.ofOptions o) (by simpa [Budget.ofOptions])
  have hwalks := Solving.walks_constraints cs ⟨s.constrain cs, .ofOptions o⟩
  unfold Solving.Ends at hwalks
  unfold attempted solve
  rw [hrun] at hwalks ⊢
  refine ⟨?_, (hwalks.1.unstopped (unstopped_constrain hs cs)).category_ne⟩
  simp [Budget.spend, Budget.ofOptions]

theorem exists_refused (hlt : o.maxIterations < (s.charges cs).length) :
    ∃ before e after, s.charges cs = before ++ e :: after ∧ before.length = o.maxIterations :=
  ⟨(s.charges cs).take o.maxIterations, (s.charges cs)[o.maxIterations],
    (s.charges cs).drop (o.maxIterations + 1), by simp,
    List.length_take_of_le (Nat.le_of_lt hlt)⟩

/-- A run that is stopped reports the equation that was refused after all else that
has failed. -/
theorem exists_solve_of_refused (hs : s.failures = #[]) {before after : List Equation}
    {e : Equation} (hcharges : s.charges cs = before ++ e :: after)
    (h : before.length = o.maxIterations) :
    ∃ t : Session, t.Unstopped ∧ s.attempted o cs = before ++ [e] ∧
      s.solve o cs = .ofSession (t.fail (((Budget.ofOptions o).spend before).refusal e)) := by
  obtain ⟨t, hrun⟩ := (Solving.charges_constraints cs s).stopped (.ofOptions o) hcharges
    (by simpa [Budget.ofOptions])
  have hwalks := Solving.walks_constraints cs ⟨s.constrain cs, .ofOptions o⟩
  unfold Solving.Ends at hwalks
  unfold attempted solve
  rw [hrun] at hwalks ⊢
  refine ⟨t, hwalks.1.unstopped (unstopped_constrain hs cs), ?_, rfl⟩
  simp [Budget.spend, Budget.note, Budget.ofOptions]

/-- A run that is stopped reports the equation that was refused, and only that
one as refused. -/
theorem solve_of_refused (hs : s.failures = #[]) {before after : List Equation} {e : Equation}
    (hcharges : s.charges cs = before ++ e :: after) (h : before.length = o.maxIterations) :
    s.attempted o cs = before ++ [e] ∧
      (∃ d ∈ (s.solve o cs).diagnostics, d.category = .solverBudget) ∧
      ∀ d ∈ (s.solve o cs).diagnostics, d.category = .solverBudget →
        d.location = some e.provenance.node := by
  obtain ⟨t, ht, hattempted, hsolve⟩ := exists_solve_of_refused hs hcharges h
  rw [hsolve, diagnostics_fail]
  refine ⟨hattempted, ⟨_, List.mem_concat_self, rfl⟩, fun d hd hcategory => ?_⟩
  rcases List.mem_append.mp hd with hd | hd
  · exact absurd hcategory (ht.category_ne d hd)
  · rw [List.mem_singleton.mp hd]
    rfl

/-- After any calls, a list of constraints asks for certain equations to be tried,
and a run attempts them up to the first one over its budget. It reports that the
budget is exhausted if there is one, and it does so at the node of that equation.
There is none if the budget allows for all equations of the list and, two times
for each choice and once more, for all equations of the choices. -/
theorem ofOptions_solve_charges (o o' : Options) (calls : List Call) (cs : List Constraint) :
    let s := (ofOptions o).after calls
    let ds := (s.solve o' cs).diagnostics
    let enough := (Solving.equations cs).length + (2 * (Solving.choices cs).length + 1) *
      ((Solving.choices cs).map fun c => c.candidates.flatten.length).sum
    (s.charges cs).length ≤ enough ∧
    s.attempted o' cs = (s.charges cs).take (o'.maxIterations + 1) ∧
    (enough ≤ o'.maxIterations → ∀ d ∈ ds, d.category ≠ .solverBudget) ∧
    ((∃ d ∈ ds, d.category = .solverBudget) ↔
      o'.maxIterations < (s.attempted o' cs).length) ∧
    ∀ d ∈ ds, d.category = .solverBudget →
      ∃ refused, (s.attempted o' cs)[o'.maxIterations]? = some refused ∧
        d.location = some refused.provenance.node := by
  intro s ds enough
  have hs : s.failures = #[] := failures_after rfl calls
  have hbound : (s.charges cs).length ≤ enough := Solving.length_charges_le s cs
  refine ⟨hbound, ?_⟩
  by_cases hlt : o'.maxIterations < (s.charges cs).length
  · have hcharges : s.charges cs = (s.charges cs).take o'.maxIterations ++
        (s.charges cs)[o'.maxIterations] :: (s.charges cs).drop (o'.maxIterations + 1) := by simp
    have hlength : ((s.charges cs).take o'.maxIterations).length = o'.maxIterations :=
      List.length_take_of_le (Nat.le_of_lt hlt)
    obtain ⟨hattempted, hreported, hlocation⟩ := solve_of_refused hs hcharges hlength
    have htake : s.attempted o' cs = (s.charges cs).take (o'.maxIterations + 1) := by
      rw [hattempted, List.take_concat_get' _ _ hlt]
    refine ⟨htake, fun hle => ?_, iff_of_true hreported ?_, fun d hd hcategory => ?_⟩
    · exact absurd (hbound.trans hle) (Nat.not_le.mpr hlt)
    · rw [htake, List.length_take_of_le hlt]
      exact Nat.lt_succ_self _
    · refine ⟨_, ?_, hlocation d hd hcategory⟩
      rw [htake, List.getElem?_take_of_succ, List.getElem?_eq_getElem hlt]
  · have hle := Nat.not_lt.mp hlt
    obtain ⟨hattempted, hnone⟩ := solve_of_length_le hs hle
    rw [hattempted]
    refine ⟨(List.take_of_length_le (Nat.le_succ_of_le hle)).symm, fun _ => hnone, ?_, ?_⟩
    · exact iff_of_false (fun ⟨d, hd, hcategory⟩ => hnone d hd hcategory) hlt
    · exact fun d hd hcategory => absurd hcategory (hnone d hd)

/-- After the first call the first candidate of the first choice fails at once, so
that its second equation is not tried and the other candidate is forced. Nothing
forces the second choice, which is therefore tried three times. With a budget of
seven, the second of these trials is cut short at node 8. -/
theorem ofOptions_solve_charges_cut_short :
    let v : Ty := .var ⟨0⟩
    let w : Ty := .var ⟨1⟩
    let eqn (s t : Ty) (n : Nat) : Equation := ⟨s, t, ⟨⟨n⟩, .exprType⟩⟩
    let first : Call := ⟨{}, [.equal (eqn w (.set (.var ⟨2⟩) .none) 0)]⟩
    let cs : List Constraint := [
      .oneOf ⟨[[eqn w (.int ⟨1⟩) 1, eqn v (.bool ⟨2⟩) 2], [eqn w (.set v .none) 3]],
        ⟨⟨4⟩, .exprType⟩⟩,
      .oneOf ⟨[[eqn v (.int ⟨7⟩) 7], [eqn v (.string ⟨8⟩) 8]], ⟨⟨9⟩, .identity⟩⟩,
      .equal (eqn (.var ⟨2⟩) v 0)]
    let s := (ofOptions {}).after [first]
    (s.charges cs).map (·.provenance.node) =
      [⟨0⟩, ⟨1⟩, ⟨3⟩, ⟨3⟩, ⟨7⟩, ⟨8⟩, ⟨7⟩, ⟨8⟩, ⟨7⟩, ⟨8⟩, ⟨7⟩] ∧
    (∃ d ∈ (s.solve { maxIterations := 7 } cs).diagnostics, d.category = .solverBudget ∧
      d.location = some ⟨8⟩) ∧
    1 + (2 * 2 + 1) * 5 ≤ 26 ∧
    ∀ d ∈ (s.solve { maxIterations := 26 } cs).diagnostics, d.category ≠ .solverBudget := by
  intro v w eqn first cs s
  have hnodes : (s.charges cs).map (·.provenance.node) =
      [⟨0⟩, ⟨1⟩, ⟨3⟩, ⟨3⟩, ⟨7⟩, ⟨8⟩, ⟨7⟩, ⟨8⟩, ⟨7⟩, ⟨8⟩, ⟨7⟩] := by
    simp only [s, cs, first, eqn, w, v]
    cbv
  obtain ⟨_, htake, _, hreported, hlocation⟩ :=
    ofOptions_solve_charges {} { maxIterations := 7 } [first] cs
  obtain ⟨_, _, hnone, _⟩ := ofOptions_solve_charges {} { maxIterations := 26 } [first] cs
  refine ⟨hnodes, ?_, by decide, hnone (by decide)⟩
  have hattempted : (s.attempted { maxIterations := 7 } cs).map (·.provenance.node) =
      [⟨0⟩, ⟨1⟩, ⟨3⟩, ⟨3⟩, ⟨7⟩, ⟨8⟩, ⟨7⟩, ⟨8⟩] := by
    rw [htake, List.map_take, hnodes]
    rfl
  have hlength : 7 < (s.attempted { maxIterations := 7 } cs).length := by
    rw [← List.length_map, hattempted]
    decide
  obtain ⟨d, hd, hcategory⟩ := hreported.mpr hlength
  obtain ⟨e, he, hlocated⟩ := hlocation d hd hcategory
  refine ⟨d, hd, hcategory, hlocated.trans (congrArg some ?_)⟩
  have hnode := congrArg (Option.map (·.provenance.node)) he
  rw [← List.getElem?_map] at hnode
  exact (Option.some.inj ((congrArg (·[7]?) hattempted).symm.trans hnode)).symm

end Session

end PlusCalTyping
