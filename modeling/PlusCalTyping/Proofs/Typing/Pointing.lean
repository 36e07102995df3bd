import PlusCalTyping.Proofs.Typing.Histories
import PlusCalTyping.Proofs.Typing.Roots.Algorithm

/-! # Diagnostics point into the program

A registry of an algorithm leads to nodes of the algorithm and of the values that were
supplied for its constants, also of those that were replaced since. Constraints are
rooted in such nodes, and these are the only ones with variables. So whatever a run
reports is located there, with all its labels (`Registry.pointsTo_of_supplied`).
-/

namespace PlusCalTyping

variable {a : Algorithm} {P : NodeId → Prop}

theorem Use.pointsTo_of_diagnostic? {u : Use} {d : Diagnostic} (h : u.diagnostic? = some d)
    (hu : P u.site) : d.PointsTo P := by
  refine ⟨⟨u.site, location_of_diagnostic? h, hu⟩, ?_⟩
  cases u with
  | bound => cases h
  | undefined =>
    cases h
    exact List.forall_mem_nil _

theorem Resolution.pointsTo_incompleteDiagnostic {n : NodeId} (hn : P n) (t : Ty) :
    (incompleteDiagnostic n t).PointsTo P := ⟨⟨n, rfl, hn⟩, List.forall_mem_nil _⟩

theorem Draft.rooted_resume {r : Registry} (hr : r.Rooted P) (h : ∀ n ∈ a.nodes, P n)
    (slots : NodeMap Slots) (o : Options) : (resume r slots a o).Rooted P :=
  (Drafting.roots_visitAlgorithm hr a h _
    ⟨fun _ hn => by simp at hn, fun _ hk => by simp [Collection.ofOptions] at hk⟩).1

namespace Registry

variable {r : Registry} {values : List Expr}

/-- The nodes of an algorithm and of the values that were supplied for its constants. -/
def ProgramNode (a : Algorithm) (values : List Expr) (n : NodeId) : Prop :=
  n ∈ a.nodes ∨ ∃ value ∈ values, n ∈ value.nodes

theorem ProgramNode.ofGlobal {d : Node String} (hd : d ∈ a.globalEnv) :
    ProgramNode a values d.id :=
  .inl (a.globalNodes_sublist.subset (List.mem_append_left _ (Algorithm.mem_globalNodes hd)))

namespace Supplied

variable (h : Supplied a r values)

include h

theorem mem_values {c : NodeId} {value : Expr} (hc : r.constantValue c = some value) :
    value ∈ values := by
  obtain ⟨given, rfl, hholds⟩ := h.exists_holds
  exact List.mem_map_of_mem (hholds.mem_given hc)

theorem programNode_of_typed {n : NodeId} (hn : r.TypedNode a n) : ProgramNode a values n :=
  hn.mem_nodes.imp_right fun ⟨_, value, hc, hn⟩ => ⟨value, h.mem_values hc, hn⟩

/-- A name refers to something in the program, whether or not nodes occur in it twice. -/
theorem leads_programNode (n : NodeId) : r.Leads (ProgramNode a values) n := by
  intro decl hdecl
  obtain ⟨given, rfl, hholds⟩ := h.exists_holds
  have hbound : .bound n decl ∈ a.uses ++ suppliedUses a given := by
    refine Use.bound_of_getElem?_references ?_
    rwa [← hholds.references]
  rcases List.mem_append.mp hbound with hu | hu
  · exact h.programNode_of_typed (h.typedNode_of_bound hdecl hu)
  · obtain ⟨g, hg, hu⟩ := List.mem_flatMap.mp hu
    rcases Algorithm.declared_of_value hu with ⟨d, hd, rfl⟩ | hdecl
    · exact .ofGlobal hd
    · exact .inr ⟨g.2, List.mem_map_of_mem hg, hdecl⟩

theorem rooted : r.Rooted (ProgramNode a values) where
  leads := h.leads_programNode
  constants c hc := by
    obtain ⟨_, _, hholds⟩ := h.exists_holds
    rw [hholds.constants] at hc
    exact h.programNode_of_typed (.constant hc)
  values _ value hc _ hn := .inr ⟨value, h.mem_values hc, hn⟩
  procedures _ _ hp := .inl (Algorithm.selfId_mem_nodes (h.knows.mem_procedures hp))
  archetypes _ _ hx := h.programNode_of_typed (.archetype (h.knows.mem_archetypes hx))
  mappingMacros _ _ hm :=
    ⟨h.programNode_of_typed (.macroReadValue (h.knows.mem_mappingMacros hm)),
      h.programNode_of_typed (.macroValue (h.knows.mem_mappingMacros hm))⟩

/-- What was reported about names is at their nodes. -/
theorem pointsTo_of_mem_diagnostics {d : Diagnostic} (hd : d ∈ r.diagnostics) :
    d.PointsTo (ProgramNode a values) := by
  rw [h.knows.diagnostics] at hd
  obtain ⟨u, hu, hd⟩ := List.mem_filterMap.mp hd
  exact Use.pointsTo_of_diagnostic? hd (.inl (a.sites_sublist.subset (List.mem_map_of_mem hu)))

end Supplied

variable (slots : NodeMap Slots) (o : Options)

/-- What a run reports that finds no error in the names. -/
theorem diagnostics_inferFrom (a : Algorithm) (h : Diagnostic.anyError r.diagnostics = false) :
    let draft := Draft.resume r slots a o
    let solution := Solution.ofConstraints o draft.collection.constraints.toList
    (r.inferFrom slots a o).1.diagnostics = r.diagnostics ++ solution.diagnostics ++
      if solution.hasErrors then [] else (solution.session.resolve draft.vars).diagnostics := by
  unfold inferFrom
  rw [if_neg (Bool.eq_false_iff.mp h)]

/-- Whatever a run reports has a location. It and all labels are nodes of the algorithm
or of a value that was supplied for one of its constants. -/
theorem pointsTo_of_supplied (h : Supplied a r values) :
    ∀ d ∈ (r.inferFrom slots a o).1.diagnostics, d.PointsTo (ProgramNode a values) := by
  intro d hd
  have hdraft := Draft.rooted_resume h.rooted (fun _ hn => .inl hn) slots o
  cases hscope : Diagnostic.anyError r.diagnostics with
  | true =>
    rw [inferFrom, if_pos hscope] at hd
    exact h.pointsTo_of_mem_diagnostics hd
  | false =>
    simp only [diagnostics_inferFrom slots o a hscope, List.mem_append] at hd
    rcases hd with (hd | hd) | hd
    · exact h.pointsTo_of_mem_diagnostics hd
    · refine Solution.pointsTo_of_mem (fun k hk => ?_) o hd
      exact hdraft.constraints k (Array.mem_toList_iff.mp hk)
    · obtain ⟨n, hn, t, rfl⟩ := Session.exists_of_mem_resolve (List.mem_ite_nil_left.mp hd).2
      exact Resolution.pointsTo_incompleteDiagnostic (hdraft.vars n hn) t

/-- A constant is text and its name is used as a number, once in a set and once under a
sign. Both reports are at the uses, with the value of the constant as their label. -/
theorem pointsTo_of_supplied_text :
    let value : Expr := .literal ⟨20⟩ (.string "n")
    let x : Decl :=
      ⟨⟨1⟩, "x", some (.value (.set ⟨2⟩ [.ident ⟨3⟩ "N", .literal ⟨4⟩ (.int 1)]))⟩
    let y : Decl := ⟨⟨5⟩, "y", some (.value (.unary ⟨6⟩ .neg (.ident ⟨7⟩ "N")))⟩
    let a : Algorithm := { constants := [⟨⟨0⟩, "N"⟩], globals := [x, y] }
    let r := (ofAlgorithm a).perform (.setConstantValue "N" value)
    let reported := (r.inferFrom r.slots a {}).1.diagnostics
    Supplied a r [value] ∧
      reported.map (fun d => (d.location, d.labels.map (·.id))) =
        [(some ⟨4⟩, [⟨20⟩]), (some ⟨6⟩, [⟨20⟩])] ∧
      ∀ d ∈ reported, d.PointsTo (ProgramNode a [value]) := by
  intro value x y a r reported
  have hgiven : (ofAlgorithm a).givenBy (.setConstantValue "N" value) = [("N", value)] := by cbv
  have hsupplied : Supplied a r [value] := by
    have h := (Supplied.ofAlgorithm (a := a)).perform (.setConstantValue "N" value)
    rwa [hgiven] at h
  have hnames : r.diagnostics = [] := by
    simp only [r, a, x, y, value]
    cbv
  let solution := Solution.ofConstraints {}
    (Draft.resume r r.slots a {}).collection.constraints.toList
  have hfailures : (solution.failures.map fun f => (some f.node, f.notes.map (·.id))) =
      [(some ⟨4⟩, [⟨20⟩]), (some ⟨6⟩, [⟨20⟩])] := by
    simp only [solution, r, a, x, y, value]
    cbv
  have herrors : solution.hasErrors = true := by
    rw [Solution.hasErrors]
    cases hnone : solution.failures with
    | nil => simp [hnone] at hfailures
    | cons => rfl
  have hreported : reported = solution.diagnostics := by
    refine (diagnostics_inferFrom r.slots {} a (by rw [hnames]; rfl)).trans ?_
    rw [hnames, herrors, if_pos rfl, List.append_nil, List.nil_append]
  refine ⟨hsupplied, ?_, pointsTo_of_supplied r.slots {} hsupplied⟩
  rw [hreported, ← hfailures, Solution.diagnostics, List.map_map]
  rfl

end Registry

end PlusCalTyping
