import Mathlib
import PlusCalTyping.Proofs.Solver.MostGeneral
import PlusCalTyping.Proofs.Solver.Resemblance

/-! # The order of equations

Equations can be given in any order and with their sides exchanged. Two runs
that differ so have tried as many equations when they come to the choices, and
their substitutions, though not equal, have the same models. From there on they
go together step by step: what fits is a question of models, so both try the
same equations, spend the same and come to the same decisions (`Mirrors`). In
the end each substitution is an instance of the other, so that all results are
the same up to the choice of variables (`ofOptions_solve_rearranged`).
-/

namespace PlusCalTyping

/-- The same equation, perhaps with its sides exchanged. -/
inductive Equation.Turned : Equation → Equation → Prop
  | same (e : Equation) : Turned e e
  | swapped (s t : Ty) (p : Provenance) : Turned ⟨s, t, p⟩ ⟨t, s, p⟩

/-- The equations of the first list, in any order and turned round or not, are
those of the second; the choices are the same in the same order. -/
structure Constraint.Rearranges (cs cs' : List Constraint) : Prop where
  choices : Solving.choices cs = Solving.choices cs'
  equations : ∃ es, (Solving.equations cs).Perm es ∧
    List.Forall₂ Equation.Turned es (Solving.equations cs')

/-! ## Sessions with the same models -/

namespace Substitution

variable {σ τ : Substitution}

/-- The two have the same models, and both can be solved under. -/
structure Equivalent (σ τ : Substitution) : Prop where
  acyclic : σ.Acyclic
  acyclic' : τ.Acyclic
  determined : σ.Determined
  determined' : τ.Determined
  models : ∀ θ : Valuation, θ.Models σ ↔ θ.Models τ

theorem Equivalent.symm (h : σ.Equivalent τ) : τ.Equivalent σ :=
  ⟨h.acyclic', h.acyclic, h.determined', h.determined, fun θ => (h.models θ).symm⟩

theorem Equivalent.succeeded_eq (h : σ.Equivalent τ) {s t : Ty} (hs : s.Determined)
    (ht : t.Determined) : Unify.succeeded (σ.unify s t) = Unify.succeeded (τ.unify s t) := by
  rw [Bool.eq_iff_iff, succeeded_unify_iff h.acyclic h.determined hs ht,
    succeeded_unify_iff h.acyclic' h.determined' hs ht]
  exact exists_congr fun θ => and_congr_left' (h.models θ)

/-- Making the same types equal keeps the models the same if it succeeds. -/
theorem Equivalent.extend (h : σ.Equivalent τ) {s t : Ty} (hs : s.Determined)
    (ht : t.Determined) (hsucc : Unify.succeeded (σ.unify s t)) :
    (Unify.extend σ (σ.unify s t)).Equivalent (Unify.extend τ (τ.unify s t)) := by
  have hsucc' := hsucc
  rw [h.succeeded_eq hs ht] at hsucc'
  refine ⟨(h.acyclic.extends_unify s t).acyclic h.acyclic,
    (h.acyclic'.extends_unify s t).acyclic h.acyclic',
    Unify.determined_extend _ (allDetermined_apply h.determined hs ht) h.determined,
    Unify.determined_extend _ (allDetermined_apply h.determined' hs ht) h.determined',
    fun θ => ?_⟩
  have hmodels := models_unify_iff (θ := θ) h.acyclic h.determined hs ht
  have hmodels' := models_unify_iff (θ := θ) h.acyclic' h.determined' hs ht
  rw [and_iff_right hsucc] at hmodels
  rw [and_iff_right hsucc'] at hmodels'
  rw [hmodels, hmodels', h.models]

/-- Substitutions with the same models are instances of each other. -/
theorem Equivalent.variant (h : σ.Equivalent τ) (t : Ty) : (σ.apply t).Variant (τ.apply t) := by
  have hτ : Valuation.Models τ.value σ := (h.models _).mpr (Valuation.models_value h.acyclic')
  have hσ : Valuation.Models σ.value τ := (h.models _).mp (Valuation.models_value h.acyclic)
  refine ⟨⟨τ.value, ?_⟩, σ.value, ?_⟩
  · rw [τ.apply_eq_subst t]
    exact hτ.apply_agrees t
  · rw [σ.apply_eq_subst t]
    exact hσ.apply_agrees t

end Substitution

/-- Two states of a run that go on in the same way. -/
structure Progress.Alike (p q : Progress) : Prop where
  equivalent : p.session.substitution.Equivalent q.session.substitution
  clean : p.session.failures = #[] ↔ q.session.failures = #[]
  used : p.budget.used = q.budget.used
  limit : p.budget.limit = q.budget.limit

theorem Progress.Alike.coherent {p q : Progress} (h : p.Alike q) : p.session.Coherent :=
  ⟨h.equivalent.acyclic, h.equivalent.determined⟩

namespace Solving

variable {α α' β β' : Type} {m : Solving α} {m' : Solving α'} {g : α → Solving β}
  {k : α' → Solving β'} {p q : Progress}

/-! ## Runs that go together -/

/-- Either both parts are stopped, or both end, in states that are alike. -/
def Mirrors (m : Solving α) (p : Progress) (m' : Solving α') (q : Progress)
    (found : α → Progress → α' → Progress → Prop) : Prop :=
  match m p, m' q with
  | .ok x p', .ok y q' => p'.Alike q' ∧ found x p' y q'
  | .error _ _, .error _ _ => True
  | _, _ => False

variable {found : α → Progress → α' → Progress → Prop}
variable {found' : β → Progress → β' → Progress → Prop}

theorem mirrors_pure {x : α} {y : α'} (hpq : p.Alike q) (h : found x p y q) :
    Mirrors (pure x) p (pure y) q found := ⟨hpq, h⟩

theorem Mirrors.bind (h : Mirrors m p m' q found)
    (hg : ∀ x p' y q', p'.Alike q' → found x p' y q' → Mirrors (g x) p' (k y) q' found') :
    Mirrors (m >>= g) p (m' >>= k) q found' := by
  unfold Mirrors at h ⊢
  simp only [Bind.bind, EStateM.bind]
  cases hm : m p <;> cases hm' : m' q <;> rw [hm, hm'] at h
  case ok.ok x p' y q' => exact hg x p' y q' h.1 h.2
  case error.error => trivial
  all_goals exact h.elim

theorem Mirrors.and_ends (h : Mirrors m p m' q found) {done : α → Progress → Prop}
    {stopped : Failure → Progress → Prop} (hm : Ends m p done stopped) :
    Mirrors m p m' q fun x p' y q' => found x p' y q' ∧ done x p' := by
  unfold Mirrors at h ⊢
  unfold Ends at hm
  cases hmp : m p <;> cases hmq : m' q <;> rw [hmp, hmq] at h <;> rw [hmp] at hm
  case ok.ok => exact ⟨h.1, h.2, hm⟩
  all_goals exact h

theorem mirrors_charge (hpq : p.Alike q) (e e' : Equation) :
    Mirrors (charge e) p (charge e') q fun _ p' _ q' =>
      p'.session = p.session ∧ q'.session = q.session := by
  by_cases h : p.budget.used < p.budget.limit
  · have h' : q.budget.used < q.budget.limit := by rwa [← hpq.used, ← hpq.limit]
    simp only [Mirrors, charge, Budget.charge, h, h', if_true]
    exact ⟨⟨hpq.equivalent, hpq.clean, congrArg (· + 1) hpq.used, hpq.limit⟩, trivial, trivial⟩
  · have h' : ¬q.budget.used < q.budget.limit := by rwa [← hpq.used, ← hpq.limit]
    simp only [Mirrors, charge, Budget.charge, h, h', if_false]

theorem mirrors_change {f f' : Session → Session} (hpq : p.Alike q)
    (hequiv : (f p.session).substitution.Equivalent (f' q.session).substitution)
    (hclean : (f p.session).failures = #[] ↔ (f' q.session).failures = #[]) :
    Mirrors (change f) p (change f') q fun _ p' _ _ => p'.session = f p.session :=
  ⟨⟨hequiv, hclean, hpq.used, hpq.limit⟩, rfl⟩

/-- The same equations fit, and finding out costs the same. -/
theorem mirrors_fits {es : List Equation} (hes : ∀ e ∈ es, e.Determined) {σ τ : Substitution}
    (h : σ.Equivalent τ) (hpq : p.Alike q) :
    Mirrors (fits σ es) p (fits τ es) q fun x _ y _ => x = y := by
  induction es generalizing σ τ p q with
  | nil => exact mirrors_pure hpq rfl
  | cons e es ih =>
    obtain ⟨⟨hs, ht⟩, hes⟩ := List.forall_mem_cons.mp hes
    refine (mirrors_charge hpq e e).bind fun _ p' _ q' hpq' _ => ?_
    have hsucc := h.succeeded_eq hs ht
    dsimp only
    rw [← hsucc]
    split
    · next hsucc => exact ih hes (h.extend hs ht hsucc) hpq'
    · exact mirrors_pure hpq' rfl

theorem mirrors_viableFrom {candidates : List (List Equation)}
    (hdet : ∀ candidate ∈ candidates, ∀ e ∈ candidate, e.Determined) {σ τ : Substitution}
    (h : σ.Equivalent τ) (i : Nat) (hpq : p.Alike q) :
    Mirrors (viableFrom σ i candidates) p (viableFrom τ i candidates) q fun x _ y _ => x = y := by
  induction candidates generalizing i p q with
  | nil => exact mirrors_pure hpq rfl
  | cons es rest ih =>
    obtain ⟨hes, hrest⟩ := List.forall_mem_cons.mp hdet
    refine (mirrors_fits hes h hpq).bind fun fit p' fit' q' hpq' hfit => ?_
    refine (ih hrest (i + 1) hpq').bind fun later p'' later' q'' hpq'' hlater => ?_
    rw [hfit, hlater]
    exact mirrors_pure hpq'' rfl

theorem mirrors_viable {c : Choice} (hc : c.Determined) (hpq : p.Alike q) :
    Mirrors (viable c) p (viable c) q fun x p' y _ =>
      x = y ∧ Viable p'.session.substitution 0 c.candidates x := by
  have hmirrors : Mirrors (viable c) p (viable c) q fun x _ y _ => x = y :=
    mirrors_viableFrom hc hpq.equivalent 0 hpq
  refine hmirrors.and_ends (Ends.mono (tries_viable hc hpq.coherent) ?_ fun _ _ h => h)
  rintro x p' ⟨hp', hx⟩
  rwa [hp']

/-- Equations that some model solves are made to hold in both. -/
theorem mirrors_forM_enforce {es : List Equation} (hes : ∀ e ∈ es, e.Determined)
    (hallows : p.session.substitution.Allows es) (hpq : p.Alike q) :
    Mirrors (es.forM enforce) p (es.forM enforce) q fun _ _ _ _ => True := by
  induction es generalizing p q with
  | nil => exact mirrors_pure hpq trivial
  | cons e es ih =>
    obtain ⟨⟨hs, ht⟩, hes⟩ := List.forall_mem_cons.mp hes
    obtain ⟨θ, hθ, hsolves⟩ := hallows
    obtain ⟨he, hsolves⟩ := List.forall_mem_cons.mp hsolves
    have hsucc := (Substitution.succeeded_unify_iff hpq.equivalent.acyclic
      hpq.equivalent.determined hs ht).mpr ⟨θ, hθ, he⟩
    have hmodels := (Substitution.models_unify_iff hpq.equivalent.acyclic
      hpq.equivalent.determined hs ht).mpr ⟨hθ, he⟩
    have hsucc' := hsucc
    rw [hpq.equivalent.succeeded_eq hs ht] at hsucc'
    have hfirst : Mirrors (enforce e) p (enforce e) q fun _ p' _ _ =>
        p'.session = p.session.unify e := by
      refine (mirrors_charge hpq e e).bind fun _ p' _ q' hpq' hsame => ?_
      obtain ⟨hp', hq'⟩ := hsame
      rw [← hp'] at hsucc ⊢
      rw [← hq'] at hsucc'
      refine mirrors_change hpq' (hpq'.equivalent.extend hs ht hsucc) ?_
      rw [Session.failures_unify_eq_empty_iff, Session.failures_unify_eq_empty_iff,
        and_iff_left hsucc, and_iff_left hsucc']
      exact hpq'.clean
    refine hfirst.bind (g := fun _ => es.forM enforce) (k := fun _ => es.forM enforce)
      fun _ p' _ q' hpq' hp' => ih hes ?_ hpq'
    rw [hp']
    exact ⟨θ, hmodels.2, hsolves⟩

theorem mirrors_commit {c : Choice} (hc : c.Determined) {i : Nat} {found : List Nat}
    (hfound : Viable p.session.substitution 0 c.candidates found) (hi : i ∈ found)
    (action : UnifyAction) (hpq : p.Alike q) :
    Mirrors (commit action c i) p (commit action c i) q fun _ _ _ _ => True := by
  obtain ⟨candidate, hcandidate⟩ := hfound.exists_candidate hi
  have hallows := (hfound.mem_iff hcandidate).mp (by rwa [Nat.zero_add])
  simp only [commit, hcandidate]
  have hlog : Mirrors (change (·.log fun _ => [c.commitLine action i candidate])) p
      (change (·.log fun _ => [c.commitLine action i candidate])) q
      fun _ p' _ _ => p'.session = p.session.log fun _ => [c.commitLine action i candidate] := by
    refine mirrors_change hpq ?_ ?_
    · rw [Session.substitution_log, Session.substitution_log]
      exact hpq.equivalent
    · rw [Session.failures_log, Session.failures_log]
      exact hpq.clean
  refine hlog.bind fun _ p' _ q' hpq' hp' => ?_
  refine mirrors_forM_enforce (hc candidate (List.mem_of_getElem? hcandidate)) ?_ hpq'
  rwa [hp', Session.substitution_log]

theorem mirrors_exhaust (c : Choice) (hpq : p.Alike q) :
    Mirrors (exhaust c) p (exhaust c) q fun _ _ _ _ => True := by
  refine ⟨⟨?_, ?_, hpq.used, hpq.limit⟩, trivial⟩
  · rw [Session.substitution_reportExhausted, Session.substitution_reportExhausted]
    exact hpq.equivalent
  · exact iff_of_false (Session.failures_reportExhausted_ne _ c)
      (Session.failures_reportExhausted_ne _ c)

theorem mirrors_pass {cs : List Choice} (hcs : ∀ c ∈ cs, c.Determined) (hpq : p.Alike q) :
    Mirrors (pass cs) p (pass cs) q fun x _ y _ => x = y := by
  induction cs generalizing p q with
  | nil => exact mirrors_pure hpq rfl
  | cons c cs ih =>
    obtain ⟨hc, hcs⟩ := List.forall_mem_cons.mp hcs
    refine (mirrors_viable hc hpq).bind fun found p' found' q' hpq' hfound => ?_
    obtain ⟨rfl, hfound⟩ := hfound
    match found, hfound with
    | [], _ =>
      refine (mirrors_exhaust c hpq').bind fun _ p'' _ q'' hpq'' _ => ?_
      refine (ih hcs hpq'').bind fun w _ w' _ hend hw => ?_
      rw [hw]
      exact mirrors_pure hend rfl
    | [i], hfound =>
      refine (mirrors_commit hc hfound List.mem_cons_self _ hpq').bind fun _ p'' _ q'' hpq'' _ => ?_
      refine (ih hcs hpq'').bind fun w _ w' _ hend hw => ?_
      rw [hw]
      exact mirrors_pure hend rfl
    | _ :: _ :: _, _ =>
      refine (ih hcs hpq').bind fun w _ w' _ hend hw => ?_
      rw [hw]
      exact mirrors_pure hend rfl

theorem mirrors_decideFirst {c : Choice} (hc : c.Determined) (hpq : p.Alike q) :
    Mirrors (decideFirst c) p (decideFirst c) q fun _ _ _ _ => True := by
  refine (mirrors_viable hc hpq).bind fun found p' found' q' hpq' hfound => ?_
  obtain ⟨rfl, hfound⟩ := hfound
  cases found with
  | nil => exact mirrors_exhaust c hpq'
  | cons i more => exact mirrors_commit hc hfound List.mem_cons_self _ hpq'

theorem mirrors_rounds {cs : List Choice} (hcs : ∀ c ∈ cs, c.Determined) (hpq : p.Alike q) :
    Mirrors (rounds cs) p (rounds cs) q fun _ _ _ _ => True := by
  induction hn : cs.length using Nat.strong_induction_on generalizing cs p q with
  | _ n ih =>
    subst hn
    rw [rounds]
    have hpass := (mirrors_pass hcs hpq).and_ends (keeps_pass hcs hpq.coherent)
    refine hpass.bind fun w p' w' q' hpq' hw => ?_
    obtain ⟨rfl, _, hw⟩ := hw
    obtain ⟨waiting, hlen⟩ := w
    have hdet : ∀ c ∈ waiting, c.Determined := fun c hc => hcs c (hw.sublist.subset hc)
    cases waiting with
    | nil => exact mirrors_pure hpq' trivial
    | cons c rest =>
      obtain ⟨hc, hrest⟩ := List.forall_mem_cons.mp hdet
      dsimp only
      split
      · next hlt => exact ih _ hlt hdet hpq' rfl
      · refine (mirrors_decideFirst hc hpq').bind fun _ p'' _ q'' hpq'' _ => ?_
        exact ih _ hlen hrest hpq'' rfl

end Solving

/-! ## Rearranged lists -/

namespace Constraint.Rearranges

variable {cs cs' : List Constraint}

theorem forall_iff (h : Rearranges cs cs') {P : Equation → Prop}
    (hP : ∀ e e', Equation.Turned e e' → (P e ↔ P e')) :
    (∀ e ∈ Solving.equations cs, P e) ↔ ∀ e ∈ Solving.equations cs', P e := by
  have hall {es es' : List Equation} (h : List.Forall₂ Equation.Turned es es') :
      (∀ e ∈ es, P e) ↔ ∀ e ∈ es', P e := by
    induction h with
    | nil => rfl
    | cons he _ ih => rw [List.forall_mem_cons, List.forall_mem_cons, hP _ _ he, ih]
  obtain ⟨es, hperm, hturned⟩ := h.equations
  rw [← hall hturned]
  exact forall_congr' fun e => by rw [hperm.mem_iff]

theorem length_eq (h : Rearranges cs cs') :
    (Solving.equations cs).length = (Solving.equations cs').length := by
  obtain ⟨es, hperm, hturned⟩ := h.equations
  rw [hperm.length_eq, hturned.length_eq]

theorem solves_iff (h : Rearranges cs cs') {θ : Valuation} :
    (∀ e ∈ Solving.equations cs, θ.Solves e) ↔ ∀ e ∈ Solving.equations cs', θ.Solves e := by
  refine h.forall_iff fun e e' he => ?_
  cases he with
  | same => rfl
  | swapped s t p => exact Valuation.unifies_comm

theorem determined_iff (h : Rearranges cs cs') :
    (∀ k ∈ cs, k.Determined) ↔ ∀ k ∈ cs', k.Determined := by
  have hsplit (cs : List Constraint) : (∀ k ∈ cs, k.Determined) ↔
      (∀ e ∈ Solving.equations cs, e.Determined) ∧ ∀ c ∈ Solving.choices cs, c.Determined := by
    refine ⟨fun h => ⟨Solving.determined_equations h, Solving.determined_choices h⟩, ?_⟩
    rintro ⟨he, hc⟩ k hk
    cases k with
    | equal e => exact he e (Solving.mem_equations_iff.mpr hk)
    | oneOf c => exact hc c (Solving.mem_choices_iff.mpr hk)
  rw [hsplit, hsplit, h.choices]
  refine and_congr_left' (h.forall_iff fun e e' he => ?_)
  cases he with
  | same => rfl
  | swapped s t p => exact and_comm

/-- Both lists mention the same variables. -/
theorem mem_vars_iff (h : Rearranges cs cs') {v : TypeVar} :
    v ∈ cs.flatMap Constraint.vars ↔ v ∈ cs'.flatMap Constraint.vars := by
  have hsplit (cs : List Constraint) : v ∉ cs.flatMap Constraint.vars ↔
      (∀ e ∈ Solving.equations cs, v ∉ e.vars) ∧
        ∀ c ∈ Solving.choices cs, v ∉ (Constraint.oneOf c).vars := by
    simp only [List.mem_flatMap, not_exists, not_and, Solving.mem_equations_iff,
      Solving.mem_choices_iff]
    refine ⟨fun h => ⟨fun e he => h _ he, fun c hc => h _ hc⟩, ?_⟩
    rintro ⟨he, hc⟩ k hk
    cases k with
    | equal e => exact he e hk
    | oneOf c => exact hc c hk
  rw [← not_iff_not, hsplit, hsplit, h.choices]
  refine and_congr_left' (h.forall_iff fun e e' he => not_congr ?_)
  cases he with
  | same => rfl
  | swapped s t p => exact List.mem_append.trans (or_comm.trans List.mem_append.symm)

end Constraint.Rearranges

namespace Solving

variable {p q : Progress} {cs cs' : List Constraint}

/-- Equations that have a solution leave runs alike, in whatever order they are tried. -/
theorem mirrors_equations (h : Constraint.Rearranges cs cs') (hcs : ∀ k ∈ cs, k.Determined)
    {θ : Valuation} (hθ : ∀ e ∈ equations cs, θ.Solves e) (hpq : p.Alike q)
    (hp : ∀ θ, p.session.Admits θ) (hq : ∀ θ, q.session.Admits θ)
    (hbudget : p.budget.used ≤ p.budget.limit) :
    Mirrors ((equations cs).forM enforce) p ((equations cs').forM enforce) q
      fun _ _ _ _ => True := by
  have hlen := h.length_eq
  have hlimit := hpq.limit
  have hused := hpq.used
  have hcoherent' : q.session.Coherent :=
    ⟨hpq.equivalent.acyclic', hpq.equivalent.determined'⟩
  have hleft := (ends_forM_enforce_spent (equations cs) hbudget).and
    (keeps_forM_enforce (determined_equations hcs) hpq.coherent)
  have hright := (ends_forM_enforce_spent (equations cs') (p := q) (by omega)).and
    (keeps_forM_enforce (determined_equations (h.determined_iff.mp hcs)) hcoherent')
  unfold Ends at hleft hright
  unfold Mirrors
  cases hrun : (equations cs).forM enforce p <;>
    cases hrun' : (equations cs').forM enforce q <;> rw [hrun] at hleft <;> rw [hrun'] at hright
  case error.error => trivial
  case ok.ok p' _ q' =>
    obtain ⟨⟨hlimit₁, hused₁, _⟩, hp', hsolves⟩ := hleft
    obtain ⟨⟨hlimit₂, hused₂, _⟩, hq', hsolves'⟩ := hright
    have hclean := (hp'.retains θ (hp θ) hθ).1
    have hclean' := (hq'.retains θ (hq θ) (h.solves_iff.mp hθ)).1
    have hmodels (η : Valuation) :
        η.Models p'.session.substitution ↔ ∀ e ∈ equations cs, η.Solves e :=
      ⟨fun hη => hsolves η ⟨hclean, hη⟩, fun hη => (hp'.retains η (hp η) hη).2⟩
    have hmodels' (η : Valuation) :
        η.Models q'.session.substitution ↔ ∀ e ∈ equations cs', η.Solves e :=
      ⟨fun hη => hsolves' η ⟨hclean', hη⟩, fun hη => (hq'.retains η (hq η) hη).2⟩
    refine ⟨⟨⟨hp'.coherent.acyclic, hq'.coherent.acyclic, hp'.coherent.determined,
      hq'.coherent.determined, fun η => ?_⟩, iff_of_true hclean hclean', by omega, by omega⟩,
      trivial⟩
    rw [hmodels, hmodels', h.solves_iff]
  case ok.error => omega
  case error.ok => omega

theorem mirrors_constraints (h : Constraint.Rearranges cs cs') (hcs : ∀ k ∈ cs, k.Determined)
    {θ : Valuation} (hθ : ∀ e ∈ equations cs, θ.Solves e) (hpq : p.Alike q)
    (hp : ∀ θ, p.session.Admits θ) (hq : ∀ θ, q.session.Admits θ)
    (hbudget : p.budget.used ≤ p.budget.limit) :
    Mirrors (constraints cs) p (constraints cs') q fun _ _ _ _ => True := by
  have hequations := mirrors_equations h hcs hθ hpq hp hq hbudget
  refine hequations.bind (g := fun _ => rounds (choices cs)) (k := fun _ => rounds (choices cs'))
    fun _ p' _ q' hpq' _ => ?_
  rw [← h.choices]
  exact mirrors_rounds (determined_choices hcs) hpq'

end Solving

namespace Session

variable {cs cs' : List Constraint}

/-- Constraints that are solved have a solution. -/
theorem exists_satisfies_of_solved (o o' : Options) (hcs : ∀ k ∈ cs, k.Determined)
    (h : ((ofOptions o).solve o' cs).failures = []) : ∃ θ : Valuation, ∀ k ∈ cs, θ.Satisfies k := by
  have hsolved := (coherent_ofOptions o).solved (o := o') hcs
  exact ⟨_, hsolved.satisfies h _ (Valuation.models_value hsolved.coherent.acyclic)⟩

/-- The two solve to the same verdict, and to the same bindings up to renaming
if they are solved. -/
theorem solve_rearranged (o o' : Options) (hcs : ∀ k ∈ cs, k.Determined)
    (h : Constraint.Rearranges cs cs') :
    let x := (ofOptions o).solve o' cs
    let x' := (ofOptions o).solve o' cs'
    (x.failures = [] ↔ x'.failures = []) ∧
    (x.failures = [] → x.session.substitution.Equivalent x'.session.substitution) := by
  intro x x'
  by_cases hθ : ∃ θ : Valuation, ∀ e ∈ Solving.equations cs, θ.Solves e
  · obtain ⟨θ, hθ⟩ := hθ
    have hempty : Substitution.empty.Equivalent .empty :=
      ⟨Substitution.acyclic_empty, Substitution.acyclic_empty, Substitution.determined_empty,
        Substitution.determined_empty, fun _ => Iff.rfl⟩
    have hmirrors := Solving.mirrors_constraints (p := ⟨(ofOptions o).constrain cs, .ofOptions o'⟩)
      (q := ⟨(ofOptions o).constrain cs', .ofOptions o'⟩) h hcs hθ ⟨hempty, Iff.rfl, rfl, rfl⟩
      (fun _ => admits_ofOptions o) (fun _ => admits_ofOptions o) (Nat.zero_le _)
    unfold Solving.Mirrors at hmirrors
    simp only [x, x', solve]
    cases hrun : Solving.constraints cs ⟨(ofOptions o).constrain cs, .ofOptions o'⟩ <;>
      cases hrun' : Solving.constraints cs' ⟨(ofOptions o).constrain cs', .ofOptions o'⟩ <;>
      rw [hrun, hrun'] at hmirrors
    case ok.ok p' _ q' =>
      obtain ⟨halike, _⟩ := hmirrors
      refine ⟨?_, fun _ => halike.equivalent⟩
      exact Array.toList_eq_nil_iff.trans (halike.clean.trans Array.toList_eq_nil_iff.symm)
    case error.error =>
      simp [Solution.ofSession, fail]
    all_goals exact hmirrors.elim
  · -- No order of the equations helps if they have no solution.
    have hx : x.failures ≠ [] := by
      intro hx
      obtain ⟨θ, h⟩ := exists_satisfies_of_solved o o' hcs hx
      exact hθ ⟨θ, (Solving.satisfies_all_iff.mp h).1⟩
    have hx' : x'.failures ≠ [] := by
      intro hx'
      obtain ⟨θ, h'⟩ := exists_satisfies_of_solved o o' (h.determined_iff.mp hcs) hx'
      exact hθ ⟨θ, h.solves_iff.mpr (Solving.satisfies_all_iff.mp h').1⟩
    exact ⟨iff_of_false hx hx', fun hf => absurd hf hx⟩

/-- The order of the equations and of their sides does not matter: the verdict
is the same, and if it is a success, then so are all types and all reports. -/
theorem ofOptions_solve_rearranged (o o' : Options) {cs cs' : List Constraint}
    (hcs : ∀ k ∈ cs, k.Determined) (h : Constraint.Rearranges cs cs') :
    let x := (ofOptions o).solve o' cs
    let x' := (ofOptions o).solve o' cs'
    (x.failures = [] ↔ x'.failures = []) ∧
    (x.failures = [] → ∀ vars : NodeMap TypeVar,
      (∀ n : NodeId, ((x.session.resolve vars).types[n]?).map Ty.bare =
        ((x'.session.resolve vars).types[n]?).map Ty.bare) ∧
      (x.session.resolve vars).diagnostics = (x'.session.resolve vars).diagnostics) := by
  intro x x'
  obtain ⟨hverdict, hequivalent⟩ := solve_rearranged o o' hcs h
  refine ⟨hverdict, fun hsolved vars => resolve_eq_of_resembles fun n => ?_⟩
  have hx := (regular_ofOptions o).advances_solve o' cs
  have hx' := (regular_ofOptions o).advances_solve o' cs'
  unfold verdictAt
  cases vars[n]? with
  | none => exact .unused
  | some v =>
    refine resembles_verdict hx.regular hx'.regular ((hequivalent hsolved).variant (.var v)) ?_
    rw [hx.constrained, hx'.constrained]
    exact mem_foldl_insert.trans ((or_congr_left h.mem_vars_iff).trans mem_foldl_insert.symm)

/-- The elements of a set are called differently if the equations come in
another order, and the set is written in the same way. -/
theorem ofOptions_solve_rearranged_set :
    let n : NodeId := ⟨0⟩
    let eqn (s t : Ty) : Equation := ⟨s, t, n, .exprType⟩
    let first : Equation := eqn (.var ⟨0⟩) (.var ⟨1⟩)
    let second : Equation := eqn (.var ⟨2⟩) (.set (.var ⟨0⟩) .none)
    let choice : Constraint :=
      .oneOf ⟨[[eqn (.var ⟨3⟩) (.int n)], [eqn (.var ⟨3⟩) (.string n)]], n, .identity⟩
    let cs : List Constraint := [.equal first, choice, .equal second]
    let cs' : List Constraint :=
      [choice, .equal (eqn (.set (.var ⟨0⟩) .none) (.var ⟨2⟩)), .equal (eqn (.var ⟨1⟩) (.var ⟨0⟩))]
    let vars : NodeMap TypeVar := (Std.TreeMap.empty.insert n ⟨2⟩).insert ⟨1⟩ ⟨3⟩
    (∀ k ∈ cs, k.Determined) ∧ Constraint.Rearranges cs cs' ∧
    (((ofOptions {}).solve {} cs').session.resolve vars).diagnostics =
      [Resolution.incompleteDiagnostic n (.set (.var ⟨0⟩) .none)] := by
  intro n eqn first second choice cs cs' vars
  have hcs : ∀ k ∈ cs, k.Determined := by decide
  have h : Constraint.Rearranges cs cs' := by
    refine ⟨rfl, [second, first], .swap second first [], ?_⟩
    exact .cons (.swapped _ _ _) (.cons (.swapped _ _ _) .nil)
  refine ⟨hcs, h, ?_⟩
  rw [← (((ofOptions_solve_rearranged {} {} hcs h).2 (by cbv)) vars).2]
  cbv

end Session

end PlusCalTyping
