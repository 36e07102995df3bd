import Mathlib.Data.List.Forall2
import PlusCalTyping.Solver.Solve

/-! # Comparing runs

Two runs on lists that correspond to each other go through the same parts. To
compare them it is enough to say what is to be shown of two parts, that it is
kept when parts follow one another, and why it holds of the few parts that read
or change the state (`Comparison.Covers`). It then holds of the runs
(`Comparison.Covers.constraints`).
-/

namespace PlusCalTyping.Solving

/-- What is to be shown of a part of one run, a part of the other and what the
two find. -/
structure Comparison where
  Holds {α α' : Type} : Solving α → Solving α' → (α → α' → Prop) → Prop
  pure {α α' : Type} {x : α} {y : α'} {found : α → α' → Prop} :
    found x y → Holds (pure x) (pure y) found
  bind {α α' β β' : Type} {m : Solving α} {m' : Solving α'} {g : α → Solving β}
    {k : α' → Solving β'} {found : α → α' → Prop} {found' : β → β' → Prop} :
    Holds m m' found → (∀ x y, found x y → Holds (g x) (k y) found') →
      Holds (m >>= g) (m' >>= k) found'

namespace Comparison

/-- It holds of the parts that runs are made of. The equations and choices of
the runs correspond to each other, and so do their substitutions. -/
structure Covers (R : Comparison) (E : Equation → Equation → Prop) (C : Choice → Choice → Prop)
    (S : Substitution → Substitution → Prop) : Prop where
  get : R.Holds get get fun p q => S p.session.substitution q.session.substitution
  charge {e e' : Equation} : E e e' → R.Holds (charge e) (charge e') fun _ _ => True
  unify {e e' : Equation} : E e e' →
    R.Holds (change (·.unify e)) (change (·.unify e')) fun _ _ => True
  log {c c' : Choice} (action : UnifyAction) {i : Nat} {candidate candidate' : List Equation} :
    C c c' → c.candidates[i]? = some candidate → c'.candidates[i]? = some candidate' →
      R.Holds (change (·.log fun _ => [c.commitLine action i candidate]))
        (change (·.log fun _ => [c'.commitLine action i candidate'])) fun _ _ => True
  exhaust {c c' : Choice} : C c c' → R.Holds (exhaust c) (exhaust c') fun _ _ => True
  candidates {c c' : Choice} : C c c' → List.Forall₂ (List.Forall₂ E) c.candidates c'.candidates
  succeeded {e e' : Equation} {σ τ : Substitution} : E e e' → S σ τ →
    Unify.succeeded (σ.unify e.expected e.actual) =
      Unify.succeeded (τ.unify e'.expected e'.actual)
  extend {e e' : Equation} {σ τ : Substitution} : E e e' → S σ τ →
    S (Unify.extend σ (σ.unify e.expected e.actual))
      (Unify.extend τ (τ.unify e'.expected e'.actual))

variable {R : Comparison} {E : Equation → Equation → Prop} {C : Choice → Choice → Prop}
variable {S : Substitution → Substitution → Prop} (h : R.Covers E C S)

namespace Covers

include h

theorem enforce {e e' : Equation} (he : E e e') :
    R.Holds (enforce e) (enforce e') fun _ _ => True :=
  R.bind (h.charge he) fun _ _ _ => h.unify he

theorem forM_enforce {es es' : List Equation} (hes : List.Forall₂ E es es') :
    R.Holds (es.forM Solving.enforce) (es'.forM Solving.enforce) fun _ _ => True := by
  induction hes with
  | nil => exact R.pure trivial
  | cons he _ ih => exact R.bind (h.enforce he) fun _ _ _ => ih

theorem fits {σ τ : Substitution} (hσ : S σ τ) {es es' : List Equation}
    (hes : List.Forall₂ E es es') : R.Holds (fits σ es) (fits τ es') Eq := by
  induction hes generalizing σ τ with
  | nil => exact R.pure rfl
  | cons he _ ih =>
    refine R.bind (h.charge he) fun _ _ _ => ?_
    dsimp only
    rw [h.succeeded he hσ]
    split
    · exact ih (h.extend he hσ)
    · exact R.pure rfl

theorem viableFrom {σ τ : Substitution} (hσ : S σ τ) (i : Nat)
    {candidates candidates' : List (List Equation)}
    (hc : List.Forall₂ (List.Forall₂ E) candidates candidates') :
    R.Holds (viableFrom σ i candidates) (viableFrom τ i candidates') Eq := by
  induction hc generalizing i with
  | nil => exact R.pure rfl
  | cons hes _ ih =>
    refine R.bind (h.fits hσ hes) fun fit fit' hfit => ?_
    refine R.bind (ih (i + 1)) fun later later' hlater => ?_
    rw [hfit, hlater]
    exact R.pure rfl

theorem viable {c c' : Choice} (hc : C c c') : R.Holds (viable c) (viable c') Eq :=
  R.bind h.get fun _ _ hσ => h.viableFrom hσ 0 (h.candidates hc)

theorem commit {c c' : Choice} (hc : C c c') (action : UnifyAction) (i : Nat) :
    R.Holds (commit action c i) (commit action c' i) fun _ _ => True := by
  have hcandidates := h.candidates hc
  unfold Solving.commit
  by_cases hi : i < c.candidates.length
  · have hi' : i < c'.candidates.length := by rwa [← hcandidates.length_eq]
    rw [List.getElem?_eq_getElem hi, List.getElem?_eq_getElem hi']
    refine R.bind (h.log action hc (List.getElem?_eq_getElem hi)
      (List.getElem?_eq_getElem hi')) fun _ _ _ => h.forM_enforce ?_
    exact hcandidates.get hi hi'
  · have hi' : ¬i < c'.candidates.length := by rwa [← hcandidates.length_eq]
    rw [List.getElem?_eq_none (Nat.le_of_not_lt hi), List.getElem?_eq_none (Nat.le_of_not_lt hi')]
    exact R.pure trivial

variable {cs cs' : List Choice}

theorem pass (hcs : List.Forall₂ C cs cs') :
    R.Holds (pass cs) (pass cs') fun w w' => List.Forall₂ C w.val w'.val := by
  induction hcs with
  | nil => exact R.pure .nil
  | cons hc _ ih =>
    refine R.bind (h.viable hc) fun found found' hfound => ?_
    subst hfound
    match found with
    | [] =>
      refine R.bind (h.exhaust hc) fun _ _ _ => R.bind ih fun w w' hw => ?_
      exact R.pure hw
    | [i] =>
      refine R.bind (h.commit hc _ i) fun _ _ _ => R.bind ih fun w w' hw => ?_
      exact R.pure hw
    | _ :: _ :: _ => exact R.bind ih fun w w' hw => R.pure (.cons hc hw)

theorem decideFirst {c c' : Choice} (hc : C c c') :
    R.Holds (decideFirst c) (decideFirst c') fun _ _ => True := by
  refine R.bind (h.viable hc) fun found found' hfound => ?_
  subst hfound
  cases found with
  | nil => exact h.exhaust hc
  | cons i more => exact h.commit hc _ i

theorem rounds (hcs : List.Forall₂ C cs cs') :
    R.Holds (rounds cs) (rounds cs') fun _ _ => True := by
  induction hn : cs.length using Nat.strongRecOn generalizing cs cs' with
  | ind n ih =>
    subst hn
    rw [Solving.rounds, Solving.rounds]
    refine R.bind (h.pass hcs) fun w w' hw => ?_
    obtain ⟨waiting, hlen⟩ := w
    obtain ⟨waiting', hlen'⟩ := w'
    dsimp only at hw
    cases hw with
    | nil => exact R.pure trivial
    | cons hc hrest =>
      have hlength := hcs.length_eq
      have hlengthRest := hrest.length_eq
      simp only [List.length_cons, ← hlength, ← hlengthRest]
      split
      · next hlt => exact ih _ hlt (.cons hc hrest) rfl
      · exact R.bind (h.decideFirst hc) fun _ _ _ => ih _ hlen hrest rfl

/-- What holds of the parts holds of the runs. -/
theorem constraints {ks ks' : List Constraint} (he : List.Forall₂ E (equations ks) (equations ks'))
    (hc : List.Forall₂ C (choices ks) (choices ks')) :
    R.Holds (constraints ks) (constraints ks') fun _ _ => True :=
  R.bind (h.forM_enforce he) fun _ _ _ => h.rounds hc

end Covers

end Comparison

end PlusCalTyping.Solving
