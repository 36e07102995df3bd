import PlusCalTyping.Proofs.Family.ArithmeticChain
import PlusCalTyping.Proofs.Family.MappedInstances
import PlusCalTyping.Proofs.Family.ProcessFleet

/-! # Checking the families

In each member of each family everything is settled, so whatever its size it is
checked without a report if the budget is enough.
-/

namespace PlusCalTyping.Family

theorem settled_of_mem {k : Nat} {a : Algorithm}
    (h : a ∈ [arithmeticChain k, processFleet k, mappedInstances k]) : a.Settled := by
  simp only [List.mem_cons, List.not_mem_nil, or_false] at h
  rcases h with rfl | rfl | rfl
  · exact arithmeticChain_eq k ▸ settled_chain _
  · exact processFleet_eq k ▸ settled_fleet _
  · exact mappedInstances_eq k ▸ settled_queues (Nat.zero_lt_one.trans_le (le_max_right k 1))

/-- Each member of a family has its names in order and is checked without a report if
the budget is enough. All its expressions have types then, and its globals are
recorded as integers. -/
theorem check_of_mem {k : Nat} {a : Algorithm}
    (h : a ∈ [arithmeticChain k, processFleet k, mappedInstances k]) {o : Options}
    (hstop : ((Registry.ofAlgorithm a).infer a o).1.Unstopped) :
    (Registry.ofAlgorithm a).diagnostics = [] ∧
      ∃ f r, (Registry.ofAlgorithm a).check a o = (.ok f, r) ∧ f.diagnostics = [] ∧
        (∀ e, a.HasExpr e → ∀ n ∈ e.ids, (f.typeOf n).isSome) ∧
        ∀ d ∈ a.globals, r.globalType d.id = some .int := by
  have hsettled := settled_of_mem h
  exact ⟨hsettled.scope, Registry.check_of_settled hsettled hstop⟩

/-- Two instances that share the archetype. -/
theorem check_of_mem_two_instances :
    let a := mappedInstances 2
    a ∈ [arithmeticChain 2, processFleet 2, a] ∧
      ((Registry.ofAlgorithm a).infer a {}).1.Unstopped ∧
      (Registry.ofAlgorithm a).diagnostics = [] ∧
        ∃ f r, (Registry.ofAlgorithm a).check a {} = (.ok f, r) ∧ f.diagnostics = [] ∧
          (∀ e, a.HasExpr e → ∀ n ∈ e.ids, (f.typeOf n).isSome) ∧
          ∀ d ∈ a.globals, r.globalType d.id = some .int := by
  intro a
  have hmem : a ∈ [arithmeticChain 2, processFleet 2, a] := by simp
  have hstop : ((Registry.ofAlgorithm a).infer a {}).1.Unstopped := of_decide_eq_true (by cbv)
  exact ⟨hmem, hstop, check_of_mem hmem hstop⟩

end PlusCalTyping.Family
