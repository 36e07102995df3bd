import PlusCalTyping.Proofs.Solver.Soundness

/-! # Steps of a run

A run changes its session in three ways only: it makes an equation of its
constraints hold, it notes the candidate that a choice is decided for, and it
reports a choice that nothing fits. Whatever the types, the options and the end
of a run are, what it does is within every relation of sessions that covers these
changes (`stays_constraints`). So the session at its end is reached by steps from
the one it was given (`walks_constraints`), and what every step preserves is
preserved by solving.
-/

namespace PlusCalTyping

namespace Constraint

/-- The equations of a constraint, of all its candidates. -/
def equations : Constraint → List Equation
  | equal e => [e]
  | oneOf c => c.candidates.flatten

theorem vars_eq_flatMap_equations (k : Constraint) : k.vars = k.equations.flatMap (·.vars) := by
  cases k with
  | equal e => exact (List.append_nil e.vars).symm
  | oneOf c => rfl

end Constraint

namespace Session

/-- A change of a session while constraints are solved. -/
inductive Step (cs : List Constraint) (s : Session) : Session → Prop
  | unify {e : Equation} (he : ∃ k ∈ cs, e ∈ k.equations) : Step cs s (s.unify e)
  | decide (action : UnifyAction) {c : Choice} {i : Nat} {candidate : List Equation}
    (hc : .oneOf c ∈ cs) (hi : c.candidates[i]? = some candidate) :
    Step cs s (s.log fun _ => [c.commitLine action i candidate])
  | exhaust {c : Choice} (hc : .oneOf c ∈ cs) : Step cs s (s.reportExhausted c)

def Steps (cs : List Constraint) : Session → Session → Prop := Relation.ReflTransGen (Step cs)

end Session

namespace Session

/-- A relation of sessions that covers all changes of a run on these constraints,
one after the other. Its choices are decided by actions of one kind. -/
structure Includes (cs : List Constraint) (kind : UnifyAction → Prop)
    (R : Session → Session → Prop) : Prop where
  refl (s : Session) : R s s
  trans {s t u : Session} : R s t → R t u → R s u
  unify (s : Session) {e : Equation} : (∃ k ∈ cs, e ∈ k.equations) → R s (s.unify e)
  decide (s : Session) {action : UnifyAction} {c : Choice} {i : Nat} {candidate : List Equation} :
    kind action → .oneOf c ∈ cs → c.candidates[i]? = some candidate →
      R s (s.log fun _ => [c.commitLine action i candidate])
  exhaust (s : Session) {c : Choice} : .oneOf c ∈ cs → R s (s.reportExhausted c)

theorem includes_steps (cs : List Constraint) : Includes cs (fun _ => True) (Steps cs) where
  refl _ := .refl
  trans := .trans
  unify _ _ he := .single (.unify he)
  decide _ action _ _ _ _ hc hi := .single (.decide action hc hi)
  exhaust _ _ hc := .single (.exhaust hc)

end Session

namespace Solving

variable {α β : Type} {m : Solving α} {g : α → Solving β} {cs : List Constraint}

/-- A part whose changes of the session stay within a relation, also where the budget
stops it. -/
def Stays (R : Session → Session → Prop) (m : Solving α) (found : α → Prop) : Prop :=
  ∀ p, Ends m p (fun x q => R p.session q.session ∧ found x)
    fun f q => R p.session q.session ∧ f.OutOfBudget

section

variable {R : Session → Session → Prop} {kind : UnifyAction → Prop}
  (hR : Session.Includes cs kind R)

include hR

theorem stays_pure {x : α} {found : α → Prop} (h : found x) : Stays R (pure x) found :=
  fun p => ⟨hR.refl p.session, h⟩

theorem Stays.bind {found : α → Prop} {found' : β → Prop} (h : Stays R m found)
    (hg : ∀ x, found x → Stays R (g x) found') : Stays R (m >>= g) found' := by
  intro p
  refine ends_bind.mpr ((h p).mono ?_ fun _ _ h => h)
  rintro x q ⟨hq, hx⟩
  refine (hg x hx q).mono ?_ ?_
  · exact fun y q' h => ⟨hR.trans hq h.1, h.2⟩
  · exact fun f q' h => ⟨hR.trans hq h.1, h.2⟩

theorem stays_get : Stays R get fun _ => True := fun p => ⟨hR.refl p.session, trivial⟩

theorem stays_charge (e : Equation) : Stays R (charge e) fun _ => True := by
  intro p
  refine (ends_charge e p).mono ?_ ?_
  · intro _ q hq
    rw [hq]
    exact ⟨hR.refl _, trivial⟩
  · rintro f q ⟨hq, hf⟩
    rw [hq]
    exact ⟨hR.refl _, hf⟩

omit hR in
theorem stays_change {f : Session → Session} (h : ∀ s, R s (f s)) :
    Stays R (change f) fun _ => True := fun p => ⟨h p.session, trivial⟩

theorem stays_fits (σ : Substitution) (es : List Equation) :
    Stays R (fits σ es) fun _ => True := by
  induction es generalizing σ with
  | nil => exact stays_pure hR trivial
  | cons e es ih =>
    refine (stays_charge hR e).bind hR fun _ _ => ?_
    dsimp only
    split
    · exact ih _
    · exact stays_pure hR trivial

theorem stays_viableFrom (σ : Substitution) (i : Nat) (candidates : List (List Equation)) :
    Stays R (viableFrom σ i candidates) fun _ => True := by
  induction candidates generalizing i with
  | nil => exact stays_pure hR trivial
  | cons es rest ih =>
    exact (stays_fits hR σ es).bind hR fun _ _ =>
      (ih (i + 1)).bind hR fun _ _ => stays_pure hR trivial

theorem stays_viable (c : Choice) : Stays R (viable c) fun _ => True :=
  (stays_get hR).bind hR fun p _ => stays_viableFrom hR p.session.substitution 0 c.candidates

theorem stays_forM_enforce {es : List Equation} (hes : ∀ e ∈ es, ∃ k ∈ cs, e ∈ k.equations) :
    Stays R (es.forM enforce) fun _ => True := by
  induction es with
  | nil => exact stays_pure hR trivial
  | cons e es ih =>
    obtain ⟨he, hes⟩ := List.forall_mem_cons.mp hes
    have hfirst : Stays R (enforce e) fun _ => True :=
      (stays_charge hR e).bind hR fun _ _ => stays_change fun s => hR.unify s he
    exact hfirst.bind hR (g := fun _ => es.forM enforce) fun _ _ => ih hes

theorem stays_commit {c : Choice} (hc : .oneOf c ∈ cs) {action : UnifyAction} (ha : kind action)
    (i : Nat) : Stays R (commit action c i) fun _ => True := by
  unfold commit
  cases hi : c.candidates[i]? with
  | none => exact stays_pure hR trivial
  | some candidate =>
    refine (stays_change fun s => hR.decide s ha hc hi).bind hR fun _ _ => ?_
    refine stays_forM_enforce hR fun e he => ⟨.oneOf c, hc, ?_⟩
    exact List.mem_flatten.mpr ⟨candidate, List.mem_of_getElem? hi, he⟩

theorem stays_exhaust {c : Choice} (hc : .oneOf c ∈ cs) : Stays R (exhaust c) fun _ => True :=
  stays_change fun s => hR.exhaust s hc

variable {pending : List Choice}

theorem stays_pass (hforced : kind .commitAlternative) (h : ∀ c ∈ pending, .oneOf c ∈ cs) :
    Stays R (pass pending) fun w => w.val.Sublist pending := by
  induction pending with
  | nil => exact stays_pure hR .slnil
  | cons c rest ih =>
    obtain ⟨hc, hrest⟩ := List.forall_mem_cons.mp h
    refine (stays_viable hR c).bind hR fun found _ => ?_
    match found with
    | [] =>
      refine (stays_exhaust hR hc).bind hR fun _ _ => (ih hrest).bind hR fun w hw => ?_
      exact stays_pure hR (hw.cons c)
    | [i] =>
      refine (stays_commit hR hc hforced i).bind hR fun _ _ => (ih hrest).bind hR fun w hw => ?_
      exact stays_pure hR (hw.cons c)
    | _ :: _ :: _ =>
      exact (ih hrest).bind hR fun w hw => stays_pure hR (hw.cons_cons c)

theorem stays_decideFirst (hdefault : kind .defaultAlternative) {c : Choice}
    (hc : .oneOf c ∈ cs) : Stays R (decideFirst c) fun _ => True := by
  refine (stays_viable hR c).bind hR fun found _ => ?_
  cases found with
  | nil => exact stays_exhaust hR hc
  | cons i more => exact stays_commit hR hc hdefault i

theorem stays_rounds (hforced : kind .commitAlternative) (hdefault : kind .defaultAlternative)
    (h : ∀ c ∈ pending, .oneOf c ∈ cs) : Stays R (rounds pending) fun _ => True := by
  induction hn : pending.length using Nat.strong_induction_on generalizing pending with
  | _ n ih =>
    subst hn
    rw [rounds]
    refine (stays_pass hR hforced h).bind hR fun w hw => ?_
    obtain ⟨waiting, hlen⟩ := w
    have hwaiting : ∀ c ∈ waiting, .oneOf c ∈ cs := fun c hc => h c (hw.subset hc)
    cases waiting with
    | nil => exact stays_pure hR trivial
    | cons c rest =>
      obtain ⟨hc, hrest⟩ := List.forall_mem_cons.mp hwaiting
      dsimp only
      split
      · next hlt => exact ih _ hlt hwaiting rfl
      · exact (stays_decideFirst hR hdefault hc).bind hR fun _ _ => ih _ hlen hrest rfl

theorem stays_equations : Stays R ((equations cs).forM enforce) fun _ => True :=
  stays_forM_enforce hR fun e he =>
    ⟨.equal e, mem_equations_iff.mp he, List.mem_singleton_self e⟩

/-- What a run does to its session is within every relation that covers its
changes. -/
theorem stays_constraints (hforced : kind .commitAlternative)
    (hdefault : kind .defaultAlternative) : Stays R (constraints cs) fun _ => True :=
  (stays_equations hR).bind hR fun _ _ =>
    stays_rounds hR hforced hdefault fun _ hc => mem_choices_iff.mp hc

end

/-! ## Steps of parts -/

/-- A part that changes the session by steps, also where the budget stops it. -/
def Walks (cs : List Constraint) (m : Solving α) (found : α → Prop) : Prop :=
  ∀ p, Ends m p (fun x q => Session.Steps cs p.session q.session ∧ found x)
    fun f q => Session.Steps cs p.session q.session ∧ f.OutOfBudget

theorem walks_pure {x : α} {found : α → Prop} (h : found x) : Walks cs (pure x) found :=
  stays_pure (Session.includes_steps cs) h

theorem Walks.bind {found : α → Prop} {found' : β → Prop} (h : Walks cs m found)
    (hg : ∀ x, found x → Walks cs (g x) found') : Walks cs (m >>= g) found' :=
  Stays.bind (Session.includes_steps cs) h hg

theorem walks_charge (e : Equation) : Walks cs (charge e) fun _ => True :=
  stays_charge (Session.includes_steps cs) e

theorem walks_viable (c : Choice) : Walks cs (viable c) fun _ => True :=
  stays_viable (Session.includes_steps cs) c

theorem walks_forM_enforce {es : List Equation} (hes : ∀ e ∈ es, ∃ k ∈ cs, e ∈ k.equations) :
    Walks cs (es.forM enforce) fun _ => True := stays_forM_enforce (Session.includes_steps cs) hes

theorem walks_commit {c : Choice} (hc : .oneOf c ∈ cs) (action : UnifyAction) (i : Nat) :
    Walks cs (commit action c i) fun _ => True :=
  stays_commit (Session.includes_steps cs) hc trivial i

theorem walks_exhaust {c : Choice} (hc : .oneOf c ∈ cs) : Walks cs (exhaust c) fun _ => True :=
  stays_exhaust (Session.includes_steps cs) hc

variable {pending : List Choice}

theorem walks_pass (h : ∀ c ∈ pending, .oneOf c ∈ cs) :
    Walks cs (pass pending) fun w => w.val.Sublist pending :=
  stays_pass (Session.includes_steps cs) trivial h

theorem walks_decideFirst {c : Choice} (hc : .oneOf c ∈ cs) :
    Walks cs (decideFirst c) fun _ => True :=
  stays_decideFirst (Session.includes_steps cs) trivial hc

theorem walks_rounds (h : ∀ c ∈ pending, .oneOf c ∈ cs) :
    Walks cs (rounds pending) fun _ => True :=
  stays_rounds (Session.includes_steps cs) trivial trivial h

theorem walks_equations (cs : List Constraint) :
    Walks cs ((equations cs).forM enforce) fun _ => True :=
  stays_equations (Session.includes_steps cs)

theorem walks_constraints (cs : List Constraint) : Walks cs (constraints cs) fun _ => True :=
  stays_constraints (Session.includes_steps cs) trivial trivial

end Solving

/-- The session that an answer leaves is reached by steps, up to failures. -/
theorem Session.exists_steps_solve (s : Session) (o : Options) (cs : List Constraint) :
    ∃ t, Steps cs (s.constrain cs) t ∧ (s.solve o cs).session.substitution = t.substitution ∧
      (s.solve o cs).session.constrained = t.constrained := by
  have h := Solving.walks_constraints cs ⟨s.constrain cs, .ofOptions o⟩
  unfold Solving.Ends at h
  unfold solve
  split <;> next heq =>
    rw [heq] at h
    exact ⟨_, h.1, rfl, rfl⟩

end PlusCalTyping
