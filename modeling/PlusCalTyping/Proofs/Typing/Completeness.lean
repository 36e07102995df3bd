import PlusCalTyping.Proofs.Typing.Completeness.Algorithm
import PlusCalTyping.Proofs.Typing.Soundness

/-! # Completeness of inference

An algorithm that has a typing is not rejected. Its constraints can be filled
in, so they have a solution; and as every choice among them is of integers or
another primitive type, the defaults of the solver lose no solution for good.
What may still be reported is that the budget ran out or that some types are
not fully known (`Registry.infer_of_algorithmTyped`).
-/

namespace PlusCalTyping

variable {r : Registry} {a : Algorithm} {o : Options}

namespace Draft

/-- The constraints of a typed algorithm have a solution that gives the nodes
that they mention the types of the typing. -/
theorem exists_solution_of_algorithmTyped {τ : Typing} (h : τ.AlgorithmTyped r a) (o : Options) :
    ∃ θ : Valuation, (∀ k ∈ (ofAlgorithm r a o).collection.constraints, θ.Satisfies k) ∧
      ∀ k ∈ (ofAlgorithm r a o).collection.constraints, ∀ v ∈ k.vars, ∀ n,
        (ofAlgorithm r a o).vars[n]? = some v → τ.Has n (θ v) := by
  let p : Filling τ := {
    draft := { collection := .ofOptions o }
    valuation := .var
    bounded := nofun
    satisfies := nofun
    grants := nofun
    vars := nofun
    slots := nofun }
  obtain ⟨q, _, hq, _⟩ := Drafting.reaches_visitAlgorithm a h p
  have hq : q.draft = ofAlgorithm r a o := hq
  rw [← hq]
  refine ⟨q.valuation, q.satisfies, fun k hk v hv n hn => ?_⟩
  obtain ⟨u, t, ht, htu⟩ := q.grants k hk v hv n hn
  have hagrees : (q.valuation v).agrees t := (q.vars n v hn).agrees t ⟨t, ht, Ty.agrees_refl t⟩
  exact ⟨t, ht, Ty.agrees_symm hagrees⟩

theorem satisfiable_of_algorithmTyped {τ : Typing} (h : τ.AlgorithmTyped r a) (o : Options) :
    ∃ θ : Valuation, ∀ k ∈ (ofAlgorithm r a o).collection.constraints.toList, θ.Satisfies k := by
  obtain ⟨θ, hθ, _⟩ := exists_solution_of_algorithmTyped h o
  exact ⟨θ, fun k hk => hθ k (Array.mem_toList_iff.mp hk)⟩

end Draft

namespace Registry

theorem diagnostics_infer (h : r.diagnostics = []) :
    (r.infer a o).1.diagnostics = (r.solution a o).diagnostics ++
      if (r.solution a o).hasErrors then []
      else ((r.solution a o).session.resolve (Draft.ofAlgorithm r a o).vars).diagnostics := by
  unfold infer inferFrom
  rw [h]
  rfl

end Registry

end PlusCalTyping
