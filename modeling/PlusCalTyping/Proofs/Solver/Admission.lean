import PlusCalTyping.Proofs.Unify.Extension
import PlusCalTyping.Solver.Session

/-! # What a session admits

A session admits a valuation if nothing has failed and the valuation respects
all bindings. Trying an equation leaves those of the admitted valuations that
solve it (`admits_unify_iff`), so the final bindings of a session without
failures say exactly what its equations say. A session only ever extends: no
binding is lost, and what has failed is not forgotten before it is handed over.
-/

namespace PlusCalTyping

namespace Equation

def Determined (e : Equation) : Prop := e.expected.Determined ∧ e.actual.Determined

instance (e : Equation) : Decidable e.Determined := inferInstanceAs (Decidable (_ ∧ _))

end Equation

namespace Choice

def Determined (c : Choice) : Prop := ∀ candidate ∈ c.candidates, ∀ e ∈ candidate, e.Determined

instance (c : Choice) : Decidable c.Determined :=
  inferInstanceAs (Decidable (∀ candidate ∈ c.candidates, ∀ e ∈ candidate, e.Determined))

end Choice

namespace Constraint

/-- No type of the constraint is marked as impossible to determine. -/
def Determined : Constraint → Prop
  | equal e => e.Determined
  | oneOf c => c.Determined

instance : (k : Constraint) → Decidable k.Determined
  | equal e => inferInstanceAs (Decidable e.Determined)
  | oneOf c => inferInstanceAs (Decidable c.Determined)

end Constraint

namespace Valuation

variable (θ : Valuation)

def Solves (e : Equation) : Prop := θ.Unifies (e.expected, e.actual)

def Decides (c : Choice) : Prop := ∃ candidate ∈ c.candidates, ∀ e ∈ candidate, θ.Solves e

def Satisfies : Constraint → Prop
  | .equal e => θ.Solves e
  | .oneOf c => θ.Decides c

end Valuation

namespace Substitution

variable (σ : Substitution)

/-- The two types of an equation are the same once all bindings are put in. -/
def Solves (e : Equation) : Prop := (σ.apply e.expected).agrees (σ.apply e.actual)

def Satisfies : Constraint → Prop
  | .equal e => σ.Solves e
  | .oneOf c => ∃ candidate ∈ c.candidates, ∀ e ∈ candidate, σ.Solves e

/-- Some model of the substitution solves all the equations. -/
def Allows (es : List Equation) : Prop := ∃ θ : Valuation, θ.Models σ ∧ ∀ e ∈ es, θ.Solves e

variable {σ}

theorem solves_value_iff {e : Equation} : Valuation.Solves σ.value e ↔ σ.Solves e :=
  Valuation.unifies_value

theorem satisfies_value_iff {k : Constraint} : Valuation.Satisfies σ.value k ↔ σ.Satisfies k := by
  cases k with
  | equal e => exact solves_value_iff
  | oneOf c =>
    simp only [Valuation.Satisfies, Valuation.Decides, Satisfies, solves_value_iff]

end Substitution

theorem Failure.ofEvent?_eq_none_iff {p : Provenance} {e : UnifyEvent} :
    ofEvent? p e = none ↔ Unify.succeeded [e] := by
  obtain ⟨s, t, o⟩ := e
  cases o with
  | clash c => cases c <;> simp [ofEvent?, Unify.succeeded]
  | _ => simp [ofEvent?, Unify.succeeded]

theorem Failure.filterMap_ofEvent?_eq_nil_iff {p : Provenance} {events : List UnifyEvent} :
    events.filterMap (ofEvent? p) = [] ↔ Unify.succeeded events := by
  rw [List.filterMap_eq_nil_iff]
  simp only [ofEvent?_eq_none_iff]
  simp [Unify.succeeded]

namespace Session

variable {s t u : Session} {θ : Valuation}

/-- The bindings of a session are acyclic and nothing in them is marked. -/
structure Coherent (s : Session) : Prop where
  acyclic : s.substitution.Acyclic
  determined : s.substitution.Determined

/-- Nothing has failed, and the valuation respects all bindings. -/
def Admits (s : Session) (θ : Valuation) : Prop := s.failures = #[] ∧ θ.Models s.substitution

/-- What solving does to a session. -/
structure Extends (s t : Session) : Prop where
  coherent : t.Coherent
  le : s.substitution ≤ t.substitution
  clean : t.failures = #[] → s.failures = #[]
  constrained : t.constrained = s.constrained

theorem Coherent.extends_refl (h : s.Coherent) : s.Extends s :=
  ⟨h, Substitution.le_refl _, id, rfl⟩

theorem Extends.trans (h : s.Extends t) (h' : t.Extends u) : s.Extends u :=
  ⟨h'.coherent, Substitution.le_trans h.le h'.le, h.clean ∘ h'.clean,
    h'.constrained.trans h.constrained⟩

theorem Extends.admits (h : s.Extends t) (hθ : t.Admits θ) : s.Admits θ :=
  ⟨h.clean hθ.1, hθ.2.mono h.le⟩

theorem coherent_ofOptions (o : Options) : (ofOptions o).Coherent :=
  ⟨Substitution.acyclic_empty, Substitution.determined_empty⟩

theorem Coherent.constrain (h : s.Coherent) (cs : List Constraint) : (s.constrain cs).Coherent :=
  ⟨h.acyclic, h.determined⟩

theorem admits_ofOptions (o : Options) : (ofOptions o).Admits θ := ⟨rfl, Valuation.models_empty⟩

@[simp]
theorem substitution_log (s : Session) (lines : String → List UnifyLine) :
    (s.log lines).substitution = s.substitution := by
  unfold log
  split <;> rfl

@[simp]
theorem failures_log (s : Session) (lines : String → List UnifyLine) :
    (s.log lines).failures = s.failures := by
  unfold log
  split <;> rfl

@[simp]
theorem constrained_log (s : Session) (lines : String → List UnifyLine) :
    (s.log lines).constrained = s.constrained := by
  unfold log
  split <;> rfl

theorem extends_log (h : s.Coherent) (lines : String → List UnifyLine) :
    s.Extends (s.log lines) := by
  refine ⟨⟨?_, ?_⟩, ?_, ?_, constrained_log s lines⟩
  · rw [substitution_log]
    exact h.acyclic
  · rw [substitution_log]
    exact h.determined
  · rw [substitution_log]
    exact Substitution.le_refl _
  · rw [failures_log]
    exact id

theorem admits_log_iff {lines : String → List UnifyLine} :
    (s.log lines).Admits θ ↔ s.Admits θ := by
  rw [Admits, Admits, substitution_log, failures_log]

/-! ## Trying an equation -/

theorem substitution_unify (s : Session) (e : Equation) :
    (s.unify e).substitution =
      Unify.extend s.substitution (s.substitution.unify e.expected e.actual) := rfl

theorem failures_unify_eq_empty_iff {e : Equation} :
    (s.unify e).failures = #[] ↔
      s.failures = #[] ∧ Unify.succeeded (s.substitution.unify e.expected e.actual) := by
  rw [unify, absorb, Array.append_eq_empty_iff,
    ← Failure.filterMap_ofEvent?_eq_nil_iff (p := e.provenance)]
  exact and_congr_right fun _ => List.toArray_eq_iff

theorem Coherent.extends_unify (h : s.Coherent) {e : Equation} (he : e.Determined) :
    s.Extends (s.unify e) := by
  have hext := h.acyclic.extends_unify e.expected e.actual
  refine ⟨⟨hext.acyclic h.acyclic, ?_⟩, hext.le,
    fun hf => (failures_unify_eq_empty_iff.mp hf).1, constrained_log s _⟩
  exact Unify.determined_extend _
    (Substitution.allDetermined_apply h.determined he.1 he.2) h.determined

/-- An equation leaves those of the admitted valuations that solve it. -/
theorem Coherent.admits_unify_iff (h : s.Coherent) {e : Equation} (he : e.Determined) :
    (s.unify e).Admits θ ↔ s.Admits θ ∧ θ.Solves e := by
  rw [Admits, failures_unify_eq_empty_iff, substitution_unify, and_assoc,
    Substitution.models_unify_iff h.acyclic h.determined he.1 he.2, ← and_assoc]
  exact Iff.rfl

/-! ## Reporting a choice that nothing fits -/

theorem failures_reportExhausted_ne (s : Session) (c : Choice) :
    (s.reportExhausted c).failures ≠ #[] := by
  unfold reportExhausted
  split
  · next h =>
    intro hf
    simp [hf] at h
  · exact Array.push_ne_empty

@[simp]
theorem substitution_reportExhausted (s : Session) (c : Choice) :
    (s.reportExhausted c).substitution = s.substitution := by
  unfold reportExhausted
  split <;> rfl

@[simp]
theorem constrained_reportExhausted (s : Session) (c : Choice) :
    (s.reportExhausted c).constrained = s.constrained := by
  unfold reportExhausted
  split <;> rfl

theorem extends_reportExhausted (h : s.Coherent) (c : Choice) :
    s.Extends (s.reportExhausted c) := by
  refine ⟨⟨?_, ?_⟩, ?_, fun hf => absurd hf (failures_reportExhausted_ne s c),
    constrained_reportExhausted s c⟩
  · rw [substitution_reportExhausted]
    exact h.acyclic
  · rw [substitution_reportExhausted]
    exact h.determined
  · rw [substitution_reportExhausted]
    exact Substitution.le_refl _

theorem not_admits_reportExhausted {c : Choice} : ¬(s.reportExhausted c).Admits θ :=
  fun h => failures_reportExhausted_ne s c h.1

end Session

end PlusCalTyping
