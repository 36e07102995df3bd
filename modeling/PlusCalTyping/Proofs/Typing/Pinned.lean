import PlusCalTyping.Proofs.Typing.Coverage
import PlusCalTyping.Proofs.Typing.DeclarationOrder
import PlusCalTyping.Proofs.Typing.GoTypes
import PlusCalTyping.Proofs.Typing.Identities

/-! # Pinned types

A node whose type is fully known in every typing of an algorithm is reported by no
run that solves the constraints: the types that solving has found are right for
the algorithm even before it is known that nothing is left open in them. So if an
algorithm has a typing and all its typed nodes are pinned, the only thing that
can come in the way of checking it is the budget (`Registry.check_of_settled`).
-/

namespace PlusCalTyping

namespace Registry

variable {r : Registry} {a : Algorithm} {o : Options} {n : NodeId}

/-- In every typing of the algorithm the node has a type without variables. -/
def Pins (r : Registry) (a : Algorithm) (n : NodeId) : Prop :=
  ∀ τ : Typing, τ.AlgorithmTyped r a → ∃ t : Ty, t.vars = [] ∧ τ.Has n t

/-- Nothing is reported of pinned nodes. -/
theorem diagnostics_resolve_of_pinned (h : r.Describes a) (hscope : r.diagnostics = [])
    (hsolved : (r.solution a o).failures = [])
    (hpins : ∀ n ∈ (Draft.ofAlgorithm r a o).vars, r.Pins a n) :
    ((r.solution a o).session.resolve (Draft.ofAlgorithm r a o).vars).diagnostics = [] := by
  rw [Session.diagnostics_resolve, List.flatMap_eq_nil_iff]
  rintro ⟨n, v⟩ hnv
  have hv := Std.TreeMap.mem_toList_iff_getElem?_eq_some.mp hnv
  have hn : n ∈ (Draft.ofAlgorithm r a o).vars := by
    rw [Std.TreeMap.mem_iff_isSome_getElem?, hv]
    rfl
  obtain ⟨t, hvars, u, hu, hut⟩ := hpins n hn _ (algorithmTyped_found h hscope hsolved)
  obtain ⟨v', hv', _, hvalue⟩ := found_eq_some_iff.mp hu
  cases hv.symm.trans hv'
  have hknown := Session.verdict_eq_known_iff.mpr ⟨hvalue, (Ty.vars_eq_of_agrees hut).trans hvars⟩
  rw [Session.reports, hknown]

end Registry

/-- All names and types of an algorithm are settled, and the globals are integers. -/
structure Algorithm.Settled (a : Algorithm) : Prop where
  nodes : a.nodes.Nodup
  scope : (Registry.ofAlgorithm a).diagnostics = []
  typing : ∃ τ : Typing, τ.AlgorithmTyped (.ofAlgorithm a) a
  pins : ∀ n ∈ a.typedNodes (.ofAlgorithm a), (Registry.ofAlgorithm a).Pins a n
  globals : ∀ d ∈ a.globals, (Registry.ofAlgorithm a).Forces a .int d.id

namespace Registry

variable {a : Algorithm} {o : Options} {n : NodeId}

theorem ofTy?_of_has {τ : Typing} (h : τ.Has n (.prim .int .none)) :
    (τ n).bind GoType.ofTy? = some .int := by
  obtain ⟨u, hu, hint⟩ := h
  rw [hu, Option.bind_some]
  cases u with
  | prim p _ =>
    rw [of_decide_eq_true hint]
    rfl
  | _ => cases hint

/-- An algorithm in which everything is settled is checked without a report, unless
the budget is exceeded, and the registry holds the Go types of its globals. -/
theorem check_of_settled (h : a.Settled)
    (hstop : ((ofAlgorithm a).infer a o).1.Unstopped) :
    ∃ f r', (ofAlgorithm a).check a o = (.ok f, r') ∧ f.diagnostics = [] ∧
      (∀ e, a.HasExpr e → ∀ n ∈ e.ids, (f.typeOf n).isSome) ∧
      ∀ d ∈ a.globals, r'.globalType d.id = some .int := by
  have hscope := h.scope
  have hsupplied : Supplied a (ofAlgorithm a) [] := .ofAlgorithm
  have hnodes : (a.nodes ++ [].flatMap Expr.nodes).Nodup := by
    rw [List.flatMap_nil, List.append_nil]
    exact h.nodes
  obtain ⟨τ, hτ⟩ := h.typing
  have hsolved := solved_of_algorithmTyped hτ (unstopped_solution hscope hstop)
  have hreports := diagnostics_resolve_of_pinned (describes_ofAlgorithm a) hscope hsolved
    fun n hn => h.pins n <| (hsupplied.mem_typedNodes_iff hscope).mpr <|
      (hsupplied.mem_vars_iff hnodes hscope o).mp hn
  have hnone : ((ofAlgorithm a).infer a o).1.diagnostics = [] := by
    rw [diagnostics_infer hscope, Solution.diagnostics, hsolved, hreports, ite_self]
    rfl
  have hok : ((ofAlgorithm a).infer a o).1.hasErrors = false := by
    rw [Findings.hasErrors, hnone]
    rfl
  obtain ⟨found, hfound, hcheck⟩ := check_of_not_hasErrors hok
  have htyped := Belongs.ofAlgorithm.algorithmTyped (congrArg Prod.fst hcheck)
  refine ⟨_, _, hcheck, hnone,
    fun e he n hn => hsupplied.exists_type_of_expr hnodes hscope o (.own he) hn, fun d hd => ?_⟩
  have hglobal : d.id ∈ (ofAlgorithm a).globalVariables := List.mem_map_of_mem hd
  rw [globalType_foldl hfound, if_pos hglobal, ← Findings.typeOf,
    ofTy?_of_has (h.globals d hd _ htyped), Option.some_or]

end Registry

end PlusCalTyping
