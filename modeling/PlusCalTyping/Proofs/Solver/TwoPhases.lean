import PlusCalTyping.Proofs.Solver.Defaults
import PlusCalTyping.Proofs.Solver.MostGeneral
import PlusCalTyping.Proofs.Solver.Unbudgeted
import PlusCalTyping.Proofs.Ty.Variants
import PlusCalTyping.Proofs.Unify.Recursion

/-! # Equations first, then integers

Where every choice is between the integers and another primitive type for one
variable, the rounds come to no more than this: solve the equations, and put
the integers for every variable that a choice still leaves open. Throughout the
rounds the session differs from the solution of the equations only in such
defaults (`Session.Defaulted`). A forced decision then binds nothing, for its
variable has the type already, and a default binds one open variable.
-/

namespace PlusCalTyping

namespace Ty

/-- The type is still to be found or one of the two that a choice offers. -/
def IntOr (q : Prim) (t : Ty) : Prop :=
  (∃ w, t = .var w) ∨ t.agrees (.prim .int .none) ∨ t.agrees (.prim q .none)

def integersFor (ws : List TypeVar) : TypeVar → Ty :=
  fun w => if w ∈ ws then .prim .int .none else .var w

theorem exists_eq_prim {p : Prim} {t : Ty} (h : t.agrees (.prim p .none)) :
    ∃ o, t = .prim p o := by
  cases t with
  | prim r o =>
    have hr : r = p := of_decide_eq_true h
    exact ⟨o, by rw [hr]⟩
  | _ => cases h

theorem intOr_of_subst_agrees {θ : TypeVar → Ty} {r : Prim} {t : Ty}
    (h : (t.subst θ).agrees (.prim r .none)) : (∃ w, t = .var w) ∨ t.agrees (.prim r .none) := by
  cases t with
  | var w => exact .inl ⟨w, rfl⟩
  | prim => exact .inr h
  | _ => cases h

theorem subst_integersFor_nil (t : Ty) : t.subst (integersFor []) = t :=
  subst_eq_self fun _ _ => if_neg List.not_mem_nil

theorem subst_integersFor_congr {ws ws' : List TypeVar} (h : ∀ w, w ∈ ws ↔ w ∈ ws') (t : Ty) :
    t.subst (integersFor ws) = t.subst (integersFor ws') := by
  refine subst_congr t fun w _ => ?_
  simp only [integersFor, h]

/-- One default more is one replacement more. -/
theorem replace_integersFor_agrees (ws : List TypeVar) (w : TypeVar) (o : Origins) (t : Ty) :
    ((t.subst (integersFor ws)).replace w (.prim .int o)).agrees
      (t.subst (integersFor (w :: ws))) := by
  rw [replace, subst_subst]
  refine subst_agrees_subst t fun v _ => ?_
  by_cases hv : v ∈ ws
  · simp [integersFor, hv, subst, agrees]
  · by_cases hvw : v = w
    · subst hvw
      simp [integersFor, hv, Ty.subst, agrees]
    · simp [integersFor, hv, hvw, Ty.subst, agrees]

end Ty

namespace Substitution

variable {σ : Substitution} {v w : TypeVar} {r r' : Prim} {o o' : Origins}

theorem apply_prim (σ : Substitution) (r : Prim) (o : Origins) :
    σ.apply (.prim r o) = .prim r o := apply_eq_self nofun

theorem unify_prim_of_var (h : σ.value v = .var w) (r : Prim) (o : Origins) :
    σ.unify (.var v) (.prim r o) = [⟨.var w, .prim r o, .bind w (.prim r o)⟩] := by
  have hvalue : σ.apply (.var v) = .var w := h
  rw [unify, hvalue, apply_prim, Unify.run]
  simp [Outcome.ofPair, Outcome.assign, Ty.agrees, Ty.vars, Unify.remaining, Unify.replaceAll,
    Unify.run]

theorem unify_prim_of_prim (h : σ.value v = .prim r' o') (r : Prim) (o : Origins) :
    σ.unify (.var v) (.prim r o) =
      [⟨.prim r' o', .prim r o, if r' = r then .identical else .clash .shape⟩] := by
  have hvalue : σ.apply (.var v) = .prim r' o' := h
  rw [unify, hvalue, apply_prim, Unify.run]
  by_cases hr : r' = r <;> simp [Outcome.ofPair, Ty.agrees, Unify.remaining, Unify.run, hr]

/-- The variables that the variables of choices stand for. -/
def openVars (σ : Substitution) (cs : List Choice) : List TypeVar :=
  (cs.flatMap fun c => (Constraint.oneOf c).vars).filterMap fun v =>
    match σ.value v with
    | .var w => some w
    | _ => none

theorem mem_openVars_iff {cs : List Choice} (hcs : ∀ c ∈ cs, ∃ v q, c.IsIntOr v q) :
    w ∈ σ.openVars cs ↔ ∃ c ∈ cs, ∃ v q, c.IsIntOr v q ∧ σ.value v = .var w := by
  have hsome {v : TypeVar} : (match σ.value v with | .var w => some w | _ => none) = some w ↔
      σ.value v = .var w := by
    cases σ.value v <;> simp
  simp only [openVars, List.mem_filterMap, hsome, List.mem_flatMap]
  constructor
  · rintro ⟨v, ⟨c, hc, hv⟩, hw⟩
    obtain ⟨u, q, hu⟩ := hcs c hc
    refine ⟨c, hc, v, q, ?_, hw⟩
    suffices v = u by rwa [this]
    obtain ⟨_, _, _, _, _, hcands⟩ := hu
    simpa [Constraint.vars, hcands, Equation.vars, Ty.vars] using hv
  · rintro ⟨c, hc, v, q, ⟨_, _, _, _, _, hcands⟩, hw⟩
    exact ⟨v, ⟨c, hc, by simp [Constraint.vars, hcands, Equation.vars, Ty.vars]⟩, hw⟩

end Substitution

namespace Session

variable {σ : Substitution} {s t : Session} {ws : List TypeVar} {c : Choice} {cs : List Choice}
  {v w : TypeVar} {q r : Prim} {o : Origins}

/-! ## Deciding a choice of integers -/

theorem viable_of_var (hc : c.IsIntOr v q) (h : s.substitution.value v = .var w) :
    s.viable c = [0, 1] := by
  obtain ⟨_, o, o', p, p', hcands⟩ := hc
  simp [viable, hcands, Substitution.viable, Substitution.fits, Substitution.unify_prim_of_var h,
    Unify.succeeded]

/-- A variable that has one of the two types forces the choice, and nothing is bound. -/
theorem exists_forced (hc : c.IsIntOr v q) (hr : r = .int ∨ r = q)
    (h : s.substitution.value v = .prim r o) :
    ∃ i, s.viable c = [i] ∧ ∀ action, (s.commit action c i).substitution = s.substitution ∧
      (s.commit action c i).failures = s.failures := by
  obtain ⟨hq, o₁, o₂, p, p', hcands⟩ := hc
  have hunify (o : Origins) (p : Provenance) (t : Session) (ht : t.substitution = s.substitution) :
      (t.unify ⟨.var v, .prim r o, p⟩).substitution = t.substitution ∧
        (t.unify ⟨.var v, .prim r o, p⟩).failures = t.failures := by
    rw [← ht] at h
    simp [unify, absorb, Substitution.unify_prim_of_prim h, Unify.extend, Failure.ofEvent?]
  rcases hr with rfl | rfl
  · refine ⟨0, ?_, fun action => ?_⟩
    · simp [viable, hcands, Substitution.viable, Substitution.fits,
        Substitution.unify_prim_of_prim h, Unify.succeeded, hq.symm]
    · simpa [commit, hcands] using hunify o₁ p (s.log _) (substitution_log s _)
  · refine ⟨1, ?_, fun action => ?_⟩
    · simp [viable, hcands, Substitution.viable, Substitution.fits,
        Substitution.unify_prim_of_prim h, Unify.succeeded, hq]
    · simpa [commit, hcands] using hunify o₂ p' (s.log _) (substitution_log s _)

/-- Nothing has failed, and types are as under the substitution with the
integers for some variables. -/
structure Defaulted (σ : Substitution) (ws : List TypeVar) (s : Session) : Prop where
  clean : s.failures = #[]
  acyclic : s.substitution.Acyclic
  apply : ∀ t, (s.substitution.apply t).agrees ((σ.apply t).subst (Ty.integersFor ws))

namespace Defaulted

theorem of_eq (h : Defaulted σ ws s) (hsub : t.substitution = s.substitution)
    (hfail : t.failures = s.failures) : Defaulted σ ws t := by
  obtain ⟨hclean, hacyclic, happly⟩ := h
  rw [← hfail] at hclean
  rw [← hsub] at hacyclic happly
  exact ⟨hclean, hacyclic, happly⟩

/-- The variable of a choice is open, or its type forces the choice. -/
theorem open_or_forced (h : Defaulted σ ws s) (hv : (σ.value v).IntOr q) :
    (∃ w, σ.value v = .var w ∧ s.substitution.value v = .var w) ∨
    ((∀ w, σ.value v = .var w → w ∈ ws) ∧
      ∃ r o, (r = .int ∨ r = q) ∧ s.substitution.value v = .prim r o) := by
  have hvalue : (s.substitution.value v).agrees ((σ.value v).subst (Ty.integersFor ws)) :=
    h.apply (.var v)
  have hforced {r : Prim} (hr : r = .int ∨ r = q)
      (hagrees : (s.substitution.value v).agrees (.prim r .none)) :
      ∃ r o, (r = .int ∨ r = q) ∧ s.substitution.value v = .prim r o := by
    obtain ⟨o, ho⟩ := Ty.exists_eq_prim hagrees
    exact ⟨r, o, hr, ho⟩
  rcases hv with ⟨w, hw⟩ | hint | hother
  · rw [hw, Ty.subst, Ty.integersFor] at hvalue
    by_cases hmem : w ∈ ws
    · rw [if_pos hmem] at hvalue
      refine .inr ⟨fun w' hw' => ?_, hforced (.inl rfl) hvalue⟩
      rw [hw] at hw'
      cases hw'
      exact hmem
    · rw [if_neg hmem] at hvalue
      exact .inl ⟨w, hw, Ty.eq_var_of_agrees hvalue⟩
  · obtain ⟨o, ho⟩ := Ty.exists_eq_prim hint
    rw [ho] at hvalue ⊢
    exact .inr ⟨nofun, hforced (.inl rfl) (Ty.agrees_trans hvalue rfl)⟩
  · obtain ⟨o, ho⟩ := Ty.exists_eq_prim hother
    rw [ho] at hvalue ⊢
    exact .inr ⟨nofun, hforced (.inr rfl) (Ty.agrees_trans hvalue (by simp [Ty.subst, Ty.agrees]))⟩

/-- A default puts the integers for one open variable. -/
theorem decideFirst (h : Defaulted σ ws s) (hc : c.IsIntOr v q)
    (hv : s.substitution.value v = .var w) : Defaulted σ (w :: ws) (s.decideFirst c) := by
  have hviable := viable_of_var hc hv
  obtain ⟨_, o, o', p, p', hcands⟩ := hc
  have hfree : s.substitution.lookup w = none := by
    refine h.acyclic.lookup_eq_none_of_mem_apply (t := .var v) ?_
    rw [← Substitution.value, hv]
    exact List.mem_singleton_self w
  have hsub : (s.decideFirst c).substitution = s.substitution.bind w (.prim .int o) := by
    simp [Session.decideFirst, hviable, commit, hcands, substitution_unify,
      Substitution.unify_prim_of_var hv, Unify.extend]
  have hfail : (s.decideFirst c).failures = s.failures := by
    simp [Session.decideFirst, hviable, commit, hcands, unify, absorb,
      Substitution.unify_prim_of_var hv, Failure.ofEvent?]
  have hvars : (Ty.prim .int o).vars = [] := rfl
  refine ⟨hfail.trans h.clean, ?_, fun t => ?_⟩
  · rw [hsub]
    exact h.acyclic.bind (by simp [hvars]) (by simp [hvars])
  · rw [hsub, h.acyclic.apply_bind (by simp [hvars]) hfree (by simp [hvars])]
    exact Ty.agrees_trans (Ty.subst_agrees (h.apply t)) (Ty.replace_integersFor_agrees ws w o _)

end Defaulted

/-- What a pass through choices of integers does. -/
structure PassedOpen (σ : Substitution) (ws : List TypeVar) (s : Session) (cs waiting : List Choice)
    (t : Session) : Prop where
  defaulted : Defaulted σ ws t
  same : t.substitution = s.substitution
  decided : ∀ c ∈ cs, c ∈ waiting ∨ ∀ v q w, c.IsIntOr v q → σ.value v = .var w → w ∈ ws
  waiting : ∀ c ∈ waiting, ∃ v q w,
    c.IsIntOr v q ∧ σ.value v = .var w ∧ s.substitution.value v = .var w

theorem Defaulted.pass (h : Defaulted σ ws s)
    (hcs : ∀ c ∈ cs, ∃ v q, c.IsIntOr v q ∧ (σ.value v).IntOr q) :
    PassedOpen σ ws s cs (s.pass cs).1 (s.pass cs).2 := by
  induction cs generalizing s with
  | nil => exact ⟨h, rfl, List.forall_mem_nil _, List.forall_mem_nil _⟩
  | cons c cs ih =>
    obtain ⟨⟨v, q, hc, hv⟩, hcs⟩ := List.forall_mem_cons.mp hcs
    rcases h.open_or_forced hv with ⟨w, hw, hopen⟩ | ⟨hdone, r, o, hr, hforced⟩
    · rw [pass_of_open (viable_of_var hc hopen)]
      obtain ⟨hdefaulted, hsame, hdecided, hwaiting⟩ := ih h hcs
      refine ⟨hdefaulted, hsame, List.forall_mem_cons.mpr ⟨.inl List.mem_cons_self, ?_⟩, ?_⟩
      · exact fun c' hc' => (hdecided c' hc').imp_left (List.mem_cons_of_mem c)
      · exact List.forall_mem_cons.mpr ⟨⟨v, q, w, hc, hw, hopen⟩, hwaiting⟩
    · obtain ⟨i, hviable, hcommit⟩ := exists_forced hc hr hforced
      obtain ⟨hsub, hfail⟩ := hcommit .commitAlternative
      rw [pass_of_forced hviable]
      obtain ⟨hdefaulted, hsame, hdecided, hwaiting⟩ := ih (h.of_eq hsub hfail) hcs
      rw [hsub] at hsame hwaiting
      refine ⟨hdefaulted, hsame, List.forall_mem_cons.mpr ⟨.inr fun u r w hu hw => ?_, hdecided⟩,
        hwaiting⟩
      obtain ⟨rfl, _⟩ := hc.unique hu
      exact hdone w hw

/-- In the end the variables that choices leave open are the integers, and no other is. -/
theorem Defaulted.exists_settle (h : Defaulted σ ws s)
    (hcs : ∀ c ∈ cs, ∃ v q, c.IsIntOr v q ∧ (σ.value v).IntOr q) :
    ∃ ws', Defaulted σ ws' (s.settle cs) ∧ ∀ w, w ∈ ws' ↔ w ∈ ws ∨ w ∈ σ.openVars cs := by
  induction hn : cs.length using Nat.strong_induction_on generalizing cs s ws with
  | _ n ih =>
    subst hn
    have hshape {ps : List Choice} (hps : ∀ c ∈ ps, c ∈ cs) : ∀ c ∈ ps, ∃ v q, c.IsIntOr v q := by
      intro c hc
      obtain ⟨v, q, hc, _⟩ := hcs c (hps c hc)
      exact ⟨v, q, hc⟩
    have hpass := h.pass hcs
    have hsub := (s.sublist_pass cs).subset
    by_cases hlt : (s.pass cs).1.length < cs.length
    · obtain ⟨ws', hdefaulted, hws'⟩ := ih _ hlt hpass.defaulted (fun c hc => hcs c (hsub hc)) rfl
      rw [← settle_pass]
      refine ⟨ws', hdefaulted, fun w => (hws' w).trans ?_⟩
      rw [Substitution.mem_openVars_iff (hshape fun c hc => hsub hc),
        Substitution.mem_openVars_iff (hshape fun c hc => hc)]
      constructor
      · rintro (hw | ⟨c, hc, hopen⟩)
        · exact .inl hw
        · exact .inr ⟨c, hsub hc, hopen⟩
      · rintro (hw | ⟨c, hc, v, q, hcv, hw⟩)
        · exact .inl hw
        · rcases hpass.decided c hc with hwait | hdone
          · exact .inr ⟨c, hwait, v, q, hcv, hw⟩
          · exact .inl (hdone v q w hcv hw)
    · have hidle : s.pass cs = (cs, s) := pass_eq_self (Nat.not_lt.mp hlt)
      cases cs with
      | nil =>
        rw [settle_nil]
        exact ⟨ws, h, fun w => by simp [Substitution.openVars]⟩
      | cons c cs =>
        rw [hidle] at hpass
        obtain ⟨v, q, w, hc, hw, hopen⟩ := hpass.waiting c List.mem_cons_self
        obtain ⟨ws', hdefaulted, hws'⟩ := ih _ (Nat.lt_succ_self _) (h.decideFirst hc hopen)
          (List.forall_mem_cons.mp hcs).2 rfl
        rw [settle_of_idle hidle]
        refine ⟨ws', hdefaulted, fun x => (hws' x).trans ?_⟩
        rw [Substitution.mem_openVars_iff (hshape fun c hc => List.mem_cons_of_mem _ hc),
          Substitution.mem_openVars_iff (hshape fun c hc => hc)]
        have hhead : (∃ v q, c.IsIntOr v q ∧ σ.value v = .var x) ↔ x = w := by
          constructor
          · rintro ⟨v', q', hc', hx⟩
            obtain ⟨rfl, _⟩ := hc.unique hc'
            rw [hw] at hx
            exact (Ty.var.inj hx).symm
          · rintro rfl
            exact ⟨v, q, hc, hw⟩
        simp only [List.mem_cons, exists_eq_or_imp, hhead, or_assoc]
        exact or_left_comm

/-! ## Whole lists -/

theorem foldl_unify_congr (es : List Equation) (hsub : s.substitution = t.substitution)
    (hfail : s.failures = t.failures) :
    (es.foldl unify s).substitution = (es.foldl unify t).substitution ∧
      (es.foldl unify s).failures = (es.foldl unify t).failures := by
  induction es generalizing s t with
  | nil => exact ⟨hsub, hfail⟩
  | cons e es ih =>
    refine ih ?_ ?_
    · rw [substitution_unify, substitution_unify, hsub]
    · simp only [unify, absorb, hsub, hfail]

/-- A run that was not stopped had budget for all its equations. -/
theorem length_le_of_unstopped {cs : List Constraint} {o : Options} (h : (s.solve o cs).Unstopped) :
    (Solving.equations cs).length ≤ o.maxIterations := by
  obtain ⟨q, hrun⟩ := exists_ok_of_unstopped h
  have hspent := Solving.ends_forM_enforce_spent (Solving.equations cs)
    (p := ⟨s.constrain cs, .ofOptions o⟩) (Nat.zero_le _)
  unfold Solving.Ends at hspent
  simp only [Solving.constraints, bind, EStateM.bind] at hrun
  split at hrun
  · next heq =>
    rw [heq] at hspent
    obtain ⟨hlimit, hused, hle⟩ := hspent
    rw [hused, hlimit, Budget.ofOptions] at hle
    simpa using hle
  · cases hrun

/-- Equations alone leave what they leave before the choices are gone through. -/
theorem solve_equations {es : List Equation} {o : Options} (h : es.length ≤ o.maxIterations) :
    s.solve o (es.map .equal) = .ofSession (es.foldl unify (s.constrain (es.map .equal))) := by
  have hrun : Solving.constraints (es.map .equal) = es.forM Solving.enforce := by
    rw [Solving.constraints, Solving.equations_map_equal, Solving.choices_map_equal,
      Solving.rounds_nil]
    exact bind_pure _
  let p : Progress := ⟨s.constrain (es.map .equal), .ofOptions o⟩
  have hbudget : p.budget.used + es.length ≤ p.budget.limit := by
    simpa [p, Budget.ofOptions] using h
  have hends := (Solving.ends_forM_enforce hbudget).and
    (Solving.yields_forM_enforce es (s.constrain (es.map .equal)) (.ofOptions o))
  unfold Solving.Ends at hends
  unfold solve
  rw [hrun]
  split
  · next heq =>
    rw [heq] at hends
    rw [hends.2.2]
  · next heq =>
    rw [heq] at hends
    exact hends.1.elim

variable {o o' : Options} {cs : List Constraint}

/-- The first phase, and what the rounds make of it. -/
theorem ofOptions_solve_intOr (hdet : ∀ e ∈ Solving.equations cs, e.Determined)
    (hcs : ∀ c ∈ Solving.choices cs, ∃ v q, c.IsIntOr v q)
    (hstop : ((ofOptions o).solve o' cs).Unstopped) :
    let x := (ofOptions o).solve o' cs
    let e := (ofOptions o).solve o' ((Solving.equations cs).map .equal)
    let σ := e.session.substitution
    (x.failures = [] ↔ e.failures = [] ∧
      ∀ c ∈ Solving.choices cs, ∀ v q, c.IsIntOr v q → (σ.value v).IntOr q) ∧
    (x.failures = [] → ∀ t, (x.session.substitution.apply t).agrees
      ((σ.apply t).subst (Ty.integersFor (σ.openVars (Solving.choices cs))))) := by
  intro x e σ
  have hlen := length_le_of_unstopped hstop
  obtain ⟨hcoherent, hmodels⟩ := models_solve_iff o o' hdet hlen (x := e) rfl
  have hall : ∀ k ∈ cs, k.Determined := by
    intro k hk
    cases k with
    | equal e => exact hdet e (Solving.mem_equations_iff.mpr hk)
    | oneOf c =>
      obtain ⟨v, q, hc⟩ := hcs c (Solving.mem_choices_iff.mpr hk)
      exact hc.determined
  have hnecessary (hx : x.failures = []) : e.failures = [] ∧
      ∀ c ∈ Solving.choices cs, ∀ v q, c.IsIntOr v q → (σ.value v).IntOr q := by
    have hsolved := (coherent_ofOptions o).solved (o := o') hall
    have hvalue := hsolved.satisfies hx _ (Valuation.models_value hsolved.coherent.acyclic)
    obtain ⟨hsolves, hdecides⟩ := Solving.satisfies_all_iff.mp hvalue
    obtain ⟨hclean, hσ⟩ := (hmodels _).mpr hsolves
    refine ⟨hclean, fun c hc v q hvq => ?_⟩
    have hagrees := hσ.value_agrees v
    rcases hvq.decides_iff.mp (hdecides c hc) with hint | hother
    · exact (Ty.intOr_of_subst_agrees (Ty.agrees_trans hagrees hint)).imp_right .inl
    · exact (Ty.intOr_of_subst_agrees (Ty.agrees_trans hagrees hother)).imp_right .inr
  have hsufficient (hclean : e.failures = [])
      (hopen : ∀ c ∈ Solving.choices cs, ∀ v q, c.IsIntOr v q → (σ.value v).IntOr q) :
      ∃ ws, Defaulted σ ws ((ofOptions o).completed cs) ∧
        ∀ w, w ∈ ws ↔ w ∈ σ.openVars (Solving.choices cs) := by
    have he : e = .ofSession _ := solve_equations hlen
    obtain ⟨hsub, hfail⟩ := foldl_unify_congr (Solving.equations cs)
      (s := (ofOptions o).constrain cs)
      (t := (ofOptions o).constrain ((Solving.equations cs).map .equal)) rfl rfl
    have hsub : _ = σ := hsub.trans (congrArg (·.session.substitution) he).symm
    rw [he] at hclean
    have hstart : Defaulted σ []
        ((Solving.equations cs).foldl unify ((ofOptions o).constrain cs)) := by
      refine ⟨hfail.trans (Array.toList_eq_nil_iff.mp hclean), ?_, fun t => ?_⟩
      · rw [hsub]
        exact hcoherent.acyclic
      · rw [hsub, Ty.subst_integersFor_nil]
        exact Ty.agrees_refl _
    have hchoices : ∀ c ∈ Solving.choices cs, ∃ v q, c.IsIntOr v q ∧ (σ.value v).IntOr q := by
      intro c hc
      obtain ⟨v, q, hvq⟩ := hcs c hc
      exact ⟨v, q, hvq, hopen c hc v q hvq⟩
    obtain ⟨ws, hend, hws⟩ := hstart.exists_settle hchoices
    exact ⟨ws, hend, fun w => by simpa using hws w⟩
  have hx : x = .ofSession ((ofOptions o).completed cs) := solve_eq_of_unstopped hstop
  refine ⟨⟨hnecessary, ?_⟩, fun hf t => ?_⟩
  · rintro ⟨hclean, hopen⟩
    obtain ⟨ws, hend, _⟩ := hsufficient hclean hopen
    rw [hx]
    exact Array.toList_eq_nil_iff.mpr hend.clean
  · obtain ⟨hclean, hopen⟩ := hnecessary hf
    obtain ⟨ws, hend, hws⟩ := hsufficient hclean hopen
    rw [← Ty.subst_integersFor_congr hws, hx]
    exact hend.apply t

end Session

end PlusCalTyping
