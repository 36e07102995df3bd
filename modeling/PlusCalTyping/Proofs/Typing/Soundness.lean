import Mathlib
import PlusCalTyping.Inference
import PlusCalTyping.Proofs.Solver.Verdicts
import PlusCalTyping.Proofs.Typing.Prepared

/-! # Soundness of checking

A check that finds no error has solved the constraints of the algorithm, and the
type that it found for a node is known wherever a constraint mentions the
variable of the node. So the types that were found read the draft of the
constraints, and by soundness of the constraints they are right for the
algorithm (`Registry.algorithmTyped_of_check`).
-/

namespace PlusCalTyping

namespace Session

variable {s : Session}

/-- The types found for the nodes of a draft read the draft, if they are all
fully known and its constraints are satisfied. -/
theorem reads_resolve {d : Draft}
    (hsatisfies : ∀ k ∈ d.collection.constraints, Valuation.Satisfies s.substitution.value k)
    (hconstrained : ∀ k ∈ d.collection.constraints, ∀ v ∈ k.vars, v ∈ s.constrained)
    (hreports : (s.resolve d.vars).diagnostics = []) :
    Reading.Reads ⟨s.substitution.value, (· ∈ s.constrained),
      fun n => (s.resolve d.vars).types[n]?⟩ d := by
  refine ⟨hsatisfies, hconstrained, fun n v hv huses => ?_⟩
  obtain ⟨t, ht⟩ := exists_type_of_constrained (huses v List.mem_cons_self)
  have hknown := verdict_eq_known_of_type hreports hv ht
  obtain ⟨rfl, _⟩ := verdict_eq_known_iff.mp hknown
  refine ⟨_, ?_, Ty.agrees_refl _⟩
  change (s.resolve d.vars).types[n]? = _
  rw [types_resolve, hv, Option.bind_some, hknown]
  rfl

theorem Coherent.fullyKnown (h : s.Coherent) {vars : NodeMap TypeVar}
    (hreports : (s.resolve vars).diagnostics = []) {n : NodeId} {t : Ty}
    (ht : (s.resolve vars).types[n]? = some t) : t.vars = [] ∧ t.Determined := by
  rw [types_resolve] at ht
  obtain ⟨v, hv, ht⟩ := Option.bind_eq_some_iff.mp ht
  have hknown := verdict_eq_known_of_type hreports hv ht
  rw [hknown] at ht
  cases ht
  obtain ⟨rfl, hvars⟩ := verdict_eq_known_iff.mp hknown
  exact ⟨hvars, h.determined.apply (Ty.determined_var v)⟩

end Session

/-! ## Checking -/

theorem Solution.diagnostics_eq_nil_iff {x : Solution} :
    Diagnostic.anyError x.diagnostics = false ↔ x.failures = [] := by
  rw [Diagnostic.anyError, diagnostics, List.any_map, List.any_eq_false]
  constructor
  · exact fun h => List.eq_nil_iff_forall_not_mem.mpr fun f hf => h f hf rfl
  · rintro h f hf
    rw [h] at hf
    cases hf

namespace Registry

variable {a : Algorithm} {r : Registry} {o : Options}

/-- What the constraints of an algorithm come to. -/
def solution (r : Registry) (a : Algorithm) (o : Options) : Solution :=
  .ofConstraints o (Draft.ofAlgorithm r a o).collection.constraints.toList

theorem types_infer (hscope : r.diagnostics = []) : (r.infer a o).1.types =
    ((r.solution a o).session.resolve (Draft.ofAlgorithm r a o).vars).types := by
  unfold infer inferFrom
  rw [hscope]
  rfl

/-- A node has a type if a constraint mentions its variable. -/
theorem exists_type_of_mentioned (r : Registry) (a : Algorithm) (o : Options) {k : Constraint}
    (hk : k ∈ (Draft.ofAlgorithm r a o).collection.constraints) {v : TypeVar} (hmem : v ∈ k.vars)
    {n : NodeId} (hv : (Draft.ofAlgorithm r a o).vars[n]? = some v) :
    ∃ t, ((r.solution a o).session.resolve (Draft.ofAlgorithm r a o).vars).types[n]? = some t := by
  have hsolved := (Session.coherent_ofOptions o).solved (o := o)
    fun k hk => (Draft.regular_ofAlgorithm r a o k (Array.mem_toList_iff.mp hk)).1
  have hconstrained : v ∈ (r.solution a o).session.constrained := by
    rw [solution, Solution.ofConstraints, hsolved.constrained]
    exact Session.mem_constrained (Array.mem_toList_iff.mpr hk) hmem
  rw [Session.types_resolve, hv, Option.bind_some]
  exact Session.exists_type_of_constrained hconstrained

/-- A run without errors solves all constraints, and all types that it finds are
fully known, whatever the registry knows of the algorithm. -/
theorem solution_of_not_hasErrors (hok : (r.infer a o).1.hasErrors = false) :
    Diagnostic.anyError r.diagnostics = false ∧ (r.solution a o).failures = [] ∧
      ((r.solution a o).session.resolve (Draft.ofAlgorithm r a o).vars).diagnostics = [] ∧
      (r.infer a o).1.types =
        ((r.solution a o).session.resolve (Draft.ofAlgorithm r a o).vars).types := by
  unfold Findings.hasErrors infer inferFrom at hok
  rw [← Draft.ofAlgorithm] at hok
  split at hok
  · next herror => exact absurd herror (Bool.eq_false_iff.mp hok)
  · next herror =>
    dsimp only at hok
    rw [Diagnostic.anyError, List.any_append, List.any_append, Bool.or_eq_false_iff,
      Bool.or_eq_false_iff] at hok
    obtain ⟨⟨_, hsolution⟩, hunknown⟩ := hok
    have hfailures := Solution.diagnostics_eq_nil_iff.mp hsolution
    have hnone : (r.solution a o).hasErrors = false := by
      rw [Solution.hasErrors, solution, hfailures]
      rfl
    refine ⟨Bool.eq_false_iff.mpr herror, hfailures, ?_, ?_⟩
    · rw [← solution, hnone, if_neg Bool.false_ne_true, List.any_eq_false] at hunknown
      refine List.eq_nil_iff_forall_not_mem.mpr fun d hd => hunknown d hd ?_
      obtain ⟨n, _, t, rfl⟩ := Session.exists_of_mem_resolve hd
      rfl
    · unfold infer inferFrom
      rw [if_neg herror]
      rfl

theorem infer_of_not_hasErrors (h : r.Describes a) (hok : (r.infer a o).1.hasErrors = false) :
    r.diagnostics = [] ∧ (r.solution a o).failures = [] ∧
      ((r.solution a o).session.resolve (Draft.ofAlgorithm r a o).vars).diagnostics = [] ∧
      (r.infer a o).1.types =
        ((r.solution a o).session.resolve (Draft.ofAlgorithm r a o).vars).types :=
  (solution_of_not_hasErrors hok).imp_left h.diagnostics_eq_nil

theorem infer_of_check_eq_ok {f : Findings} (hok : (r.check a o).1 = .ok f) :
    (r.infer a o).1 = f ∧ f.hasErrors = false := by
  unfold check complete at hok
  dsimp only at hok
  split at hok
  · cases hok
  · next herrors =>
    split at hok
    · cases hok
      exact ⟨rfl, Bool.eq_false_iff.mpr herrors⟩
    · cases hok

/-- Types that a check finds without an error are right for the algorithm, and
all of them are fully known. -/
theorem algorithmTyped_of_check (a : Algorithm) (r : Registry) (o : Options) (f : Findings)
    (hr : Prepared a r) (hok : (r.check a o).1 = .ok f) :
    Typing.AlgorithmTyped f.typeOf r a ∧
      ∀ n t, f.typeOf n = some t → t.vars = [] ∧ t.Determined := by
  obtain ⟨rfl, hnone⟩ := infer_of_check_eq_ok hok
  have hdescribes := hr.describes
  obtain ⟨hdiagnostics, hfailures, hreports, htypes⟩ := infer_of_not_hasErrors hdescribes hnone
  let s := (r.solution a o).session
  let ρ : Reading := ⟨s.substitution.value, (· ∈ s.constrained),
    fun n => (s.resolve (Draft.ofAlgorithm r a o).vars).types[n]?⟩
  have hsolved := (Session.coherent_ofOptions o).solved (o := o)
    fun k hk => (Draft.regular_ofAlgorithm r a o k (Array.mem_toList_iff.mp hk)).1
  have hreads : ρ.Reads (Draft.ofAlgorithm r a o) := by
    refine Session.reads_resolve (fun k hk => ?_) (fun k hk v hv => ?_) hreports
    · exact hsolved.satisfies hfailures _ (Valuation.models_value hsolved.coherent.acyclic) k
        (Array.mem_toList_iff.mpr hk)
    · change v ∈ (r.solution a o).session.constrained
      rw [solution, Solution.ofConstraints, hsolved.constrained]
      exact Session.mem_constrained (Array.mem_toList_iff.mpr hk) hv
  have htyped := hreads.algorithmTyped (hdescribes.covers hdiagnostics)
  have htypes : ρ.types = (r.infer a o).1.typeOf := by
    funext n
    rw [Findings.typeOf, htypes]
  refine ⟨htypes ▸ htyped, fun n t ht => ?_⟩
  rw [← htypes] at ht
  exact hsolved.coherent.fullyKnown hreports ht

/-- An instance passes a global by reference to an archetype that increments its
parameter. -/
theorem algorithmTyped_of_check_increment :
    let sum : Expr := .binary ⟨6⟩ .add (.ident ⟨4⟩ "x") (.literal ⟨5⟩ (.int 1))
    let worker : Archetype := ⟨⟨1⟩, "Worker", ⟨2⟩, [⟨⟨⟨3⟩, "x", none⟩, true⟩], [],
      [.assign ⟨8⟩ [⟨.ident ⟨7⟩ "x", sum⟩]]⟩
    let name : Decl := ⟨⟨10⟩, "w", some (.value (.literal ⟨9⟩ (.string "worker")))⟩
    let a : Algorithm := {
      globals := [⟨⟨0⟩, "g", none⟩]
      archetypes := [worker]
      instances := [⟨⟨12⟩, name, "Worker", [.ref ⟨11⟩ "g"], []⟩] }
    ∃ f, ((ofAlgorithm a).check a {}).1 = .ok f ∧ Prepared a (ofAlgorithm a) ∧
      Typing.AlgorithmTyped f.typeOf (ofAlgorithm a) a := by
  intro sum worker name a
  cases h : ((ofAlgorithm a).check a {}).1 with
  | error e =>
    have hok : ((ofAlgorithm a).check a {}).1.isOk = true := by cbv
    rw [h] at hok
    cases hok
  | ok f =>
    exact ⟨f, rfl, .ofAlgorithm, (algorithmTyped_of_check a _ {} f .ofAlgorithm h).1⟩

end Registry

end PlusCalTyping
