import PlusCalTyping.Proofs.Typing.Coverage.Supplied
import PlusCalTyping.Proofs.Typing.Soundness

/-! # Coverage

If no name is unresolved and all nodes are different, those of supplied values
included, then exactly the typed nodes have variables, each its own. The type of
each expression is settled once, so inference finds a type for it
(`Registry.coverage_of_supplied`).
-/

namespace PlusCalTyping

theorem Draft.proper_ofOptions (P : NodeId → Prop) (o : Options) :
    ({ collection := .ofOptions o } : Draft).Proper P where
  within n v hv := by simp at hv
  below n v hv := by simp at hv
  injective m n v hv := by simp at hv
  slots x s hs := by simp at hs
  settled := nofun

theorem Draft.Proper.eq_of_settlings {P : NodeId → Prop} {d : Draft} (h : d.Proper P) {n : NodeId}
    (hn : d.settlings n = 1) : ∃ v t, d.vars[n]? = some v ∧
      d.collection.constraints.toList.filter (·.provenance = ⟨n, .exprType⟩) =
        [.equal ⟨.var v, t, n, .exprType⟩] := by
  rw [settlings, ← Array.countP_toList, List.countP_eq_length_filter] at hn
  obtain ⟨k, hk⟩ := List.length_eq_one_iff.mp hn
  obtain ⟨hmem, hprovenance⟩ := List.mem_filter.mp (hk ▸ List.mem_singleton_self k)
  have hprovenance := of_decide_eq_true hprovenance
  obtain ⟨v, t, hv, heq⟩ := h.settled k (Array.mem_toList_iff.mp hmem) (by rw [hprovenance])
  rw [hprovenance] at hv heq
  exact ⟨v, t, hv, hk.trans (congrArg (fun k => [k]) heq)⟩

namespace Registry

variable {a : Algorithm} {r : Registry} {values : List Expr} {n : NodeId}

theorem mem_constantIds {c : Node String} :
    n ∈ constantIds r c ↔ ∃ e, r.constantValue c.id = some e ∧ n ∈ e.ids := by
  unfold constantIds
  cases r.constantValue c.id <;> simp

theorem mem_ids_of_expr {e : Expr} (he : r.HasExpr a e) (hn : n ∈ e.ids) :
    n ∈ a.constants.flatMap (constantIds r) ++ a.ids := by
  cases he with
  | own he => exact List.mem_append_right _ (Algorithm.mem_ids_of_expr he hn)
  | value hc he =>
    exact List.mem_append_left _ (List.mem_flatMap.mpr ⟨_, hc, mem_constantIds.mpr ⟨e, he, hn⟩⟩)

namespace Supplied

variable (h : Supplied a r values) (hnodes : (a.nodes ++ values.flatMap Expr.nodes).Nodup)

include h hnodes

theorem ids_nodup : (a.constants.flatMap (constantIds r) ++ a.ids).Nodup := by
  obtain ⟨given, _, hholds, hgiven⟩ := h.exists_given hnodes
  obtain ⟨hown, hvalues, hdisjoint⟩ := List.nodup_append.mp hgiven
  have hconstants : (a.constants.map (·.id)).Nodup := hown.sublist (List.sublist_append_left _ _)
  refine List.nodup_append.mpr ⟨List.nodup_flatMap.mpr ⟨fun c _ => ?_, ?_⟩,
    a.ids_sublist.nodup hown, fun m hm n hn => ?_⟩
  · unfold constantIds
    cases hc : r.constantValue c.id with
    | none => exact List.nodup_nil
    | some e =>
      exact e.ids_sublist.nodup ((List.nodup_flatMap.mp hvalues).1 _ (hholds.mem_given hc))
  · -- A node is that of one value, which was supplied for one constant.
    refine (List.pairwise_map.mp hconstants).imp fun hne n hn hn' => ?_
    obtain ⟨e, hc, hn⟩ := mem_constantIds.mp hn
    obtain ⟨e', hc', hn'⟩ := mem_constantIds.mp hn'
    have heq := eq_of_mem_nodes hvalues (hholds.mem_given hc) (hholds.mem_given hc')
      (e.ids_sublist.subset hn) (e'.ids_sublist.subset hn')
    exact hne (congrArg Prod.fst heq)
  · obtain ⟨c, _, hm⟩ := List.mem_flatMap.mp hm
    obtain ⟨e, hc, hm⟩ := mem_constantIds.mp hm
    exact (hdisjoint n (a.ids_sublist.subset hn) m (List.mem_flatMap.mpr
      ⟨_, hholds.mem_given hc, e.ids_sublist.subset hm⟩)).symm

/-- What a name in the value of a constant refers to has a type. -/
theorem exists_typedNode_of_value {c : Node String} (hc : c ∈ a.constants) {value : Expr}
    (hvalue : r.constantValue c.id = some value) {x : Occurrence}
    (hx : value.Occurs a.globalEnv x) :
    ∃ decl, r.followReference x.site = some decl ∧ r.TypedNode a decl := by
  obtain ⟨given, _, hholds, hgiven⟩ := h.exists_given hnodes
  have huse : x.use ∈ a.globalScope.exprUses value := by
    rw [← a.toScope_globalEnv, Expr.mem_exprUses_iff]
    exact ⟨x, hx, rfl⟩
  have hgivenUse : x.use ∈ suppliedUses a given :=
    List.mem_flatMap.mpr ⟨_, hholds.mem_given hvalue, huse⟩
  obtain ⟨site, decl, hbound⟩ := Use.eq_bound_of_diagnostics_eq_nil hholds.resolved hgivenUse
  have hsite : x.site = site := by rw [← x.site_use, hbound, Use.site]
  have hdecl : r.followReference x.site = some decl := by
    rw [hsite, hholds.followReference_iff hgiven, ← hbound]
    exact List.mem_append_right _ hgivenUse
  have hn : x.site ∈ value.nodes := by
    rw [← x.site_use]
    exact (Scope.sites_exprUses a.globalScope value).subset (List.mem_map_of_mem huse)
  exact ⟨decl, hdecl, h.leads_of_value hnodes hc hvalue hn decl hdecl⟩

variable (hscope : r.diagnostics = []) (o : Options)

include hscope

/-- The constraints of the algorithm visit its typed nodes, and no others. -/
theorem visits : (Draft.ofAlgorithm r a o).Proper (r.TypedNode a) ∧
    Draft.Covers { collection := .ofOptions o } (Draft.ofAlgorithm r a o) (a.typedNodes r)
      (a.constants.flatMap (constantIds r) ++ a.ids) :=
  Drafting.visits_visitAlgorithm a (h.tracks hnodes hscope)
    (fun _ hn => (h.mem_typedNodes_iff hscope).mp hn) _ (Draft.proper_ofOptions _ o)

theorem mem_vars_iff : n ∈ (Draft.ofAlgorithm r a o).vars ↔ r.TypedNode a n := by
  obtain ⟨hproper, hcovers⟩ := h.visits hnodes hscope o
  constructor
  · intro hn
    obtain ⟨v, hv⟩ := Option.isSome_iff_exists.mp (Std.TreeMap.mem_iff_isSome_getElem?.mp hn)
    exact hproper.within n v hv
  · intro hn
    exact hcovers.named n ((h.mem_typedNodes_iff hscope).mpr hn)

/-- There is one constraint that settles the type of an expression. -/
theorem settled_once {e : Expr} (he : r.HasExpr a e) (hn : n ∈ e.ids) :
    ∃ v t, (Draft.ofAlgorithm r a o).vars[n]? = some v ∧
      (Draft.ofAlgorithm r a o).collection.constraints.toList.filter
        (·.provenance = ⟨n, .exprType⟩) = [.equal ⟨.var v, t, n, .exprType⟩] := by
  obtain ⟨hproper, hcovers⟩ := h.visits hnodes hscope o
  refine hproper.eq_of_settlings ?_
  rw [hcovers.settlings, List.count_eq_one_of_mem (h.ids_nodup hnodes) (mem_ids_of_expr he hn)]
  rfl

/-- Inference finds a type for every expression. -/
theorem exists_type_of_expr {e : Expr} (he : r.HasExpr a e) (hn : n ∈ e.ids) :
    ((r.infer a o).1.typeOf n).isSome := by
  obtain ⟨v, t, hv, hfilter⟩ := h.settled_once hnodes hscope o he hn
  have hk := (List.mem_filter.mp (hfilter ▸ List.mem_singleton_self _)).1
  have hmem : v ∈ (Constraint.equal ⟨.var v, t, n, .exprType⟩).vars := List.mem_cons_self
  obtain ⟨t', ht⟩ := exists_type_of_mentioned r a o (Array.mem_toList_iff.mp hk) hmem hv
  rw [Findings.typeOf, types_infer hscope, ht]
  rfl

/-- Only typed nodes get types. -/
theorem typedNode_of_type (hn : ((r.infer a o).1.typeOf n).isSome) : r.TypedNode a n := by
  rw [Findings.typeOf, types_infer hscope, Session.types_resolve] at hn
  obtain ⟨t, ht⟩ := Option.isSome_iff_exists.mp hn
  obtain ⟨v, hv, _⟩ := Option.bind_eq_some_iff.mp ht
  exact (h.visits hnodes hscope o).1.within n v hv

/-- What a name in the algorithm refers to has a type. -/
theorem exists_typedNode_of_occurs {x : Occurrence} (hx : a.Occurs x)
    (hkind : x.kind.isReference) :
    ∃ decl, r.followReference x.site = some decl ∧ r.TypedNode a decl := by
  obtain ⟨decl, hdecl⟩ := h.exists_decl hscope hx hkind
  have huse : x.use ∈ a.uses := Algorithm.mem_uses_iff.mpr ⟨x, hx, .inl hkind, rfl⟩
  have hsite : x.site ∈ a.nodes := by
    rw [← x.site_use]
    exact a.sites_sublist.subset (List.mem_map_of_mem huse)
  exact ⟨decl, hdecl, h.leads hnodes hsite decl hdecl⟩

/-- What a name in an expression refers to has a type, also in the value of a constant. -/
theorem exists_typedNode_of_expr {e : Expr} (he : r.HasExpr a e) {env : Env} {x : Occurrence}
    (hx : e.Occurs env x) :
    ∃ decl, r.followReference x.site = some decl ∧ r.TypedNode a decl := by
  cases he with
  | own he =>
    obtain ⟨inner, hoccurs⟩ := he.occurs
    obtain ⟨x', hx', hsite⟩ := hx.exists_of_env inner
    rw [← hsite]
    exact h.exists_typedNode_of_occurs hnodes hscope (hoccurs x' hx') hx'.isReference
  | value hc he =>
    obtain ⟨x', hx', hsite⟩ := hx.exists_of_env a.globalEnv
    rw [← hsite]
    exact h.exists_typedNode_of_value hnodes hc he hx'

end Supplied

/-- If no name is unresolved and all nodes are different, then exactly the typed
nodes have variables. Each has its own, which is not that of a slot. One constraint
settles the type of each expression, for its own variable. All names in expressions
and all calls refer to typed nodes. Inference finds types for all expressions, and
only for typed nodes. -/
theorem coverage_of_supplied (a : Algorithm) (r : Registry) (values : List Expr) (o : Options)
    (h : Supplied a r values) (hnodes : (a.nodes ++ values.flatMap Expr.nodes).Nodup)
    (hscope : r.diagnostics = []) :
    let d := Draft.ofAlgorithm r a o
    (∀ n, n ∈ d.vars ↔ r.TypedNode a n) ∧
    (∀ (m n : NodeId) (v : TypeVar), d.vars[m]? = some v → d.vars[n]? = some v → m = n) ∧
    (∀ (x n : NodeId) (s : Slots), d.slots[x]? = some s →
      d.vars[n]? ≠ some s.read ∧ d.vars[n]? ≠ some s.written) ∧
    (∀ e, r.HasExpr a e → ∀ n ∈ e.ids, ∃ v t, d.vars[n]? = some v ∧
      d.collection.constraints.toList.filter (·.provenance = ⟨n, .exprType⟩) =
        [.equal ⟨.var v, t, n, .exprType⟩]) ∧
    (∀ e, r.HasExpr a e → ∀ env x, e.Occurs env x →
      ∃ decl, r.followReference x.site = some decl ∧ r.TypedNode a decl) ∧
    (∀ id name args, a.HasStmt (.call id name args) →
      ∃ decl, r.followReference id = some decl ∧ r.TypedNode a decl) ∧
    (∀ e, r.HasExpr a e → ∀ n ∈ e.ids, ((r.infer a o).1.typeOf n).isSome) ∧
    ∀ n, ((r.infer a o).1.typeOf n).isSome → r.TypedNode a n := by
  intro d
  obtain ⟨hproper, _⟩ := h.visits hnodes hscope o
  refine ⟨fun n => h.mem_vars_iff hnodes hscope o, hproper.injective, fun x n s hs => ?_,
    fun e he n hn => h.settled_once hnodes hscope o he hn,
    fun e he env x hx => h.exists_typedNode_of_expr hnodes hscope he hx,
    fun id name args hs => h.exists_typedNode_of_occurs hnodes hscope hs.occurs_of_call rfl,
    fun e he n hn => h.exists_type_of_expr hnodes hscope o he hn,
    fun n hn => h.typedNode_of_type hnodes hscope o hn⟩
  exact ⟨(hproper.slots x s hs s.read (.inl rfl)).2 n,
    (hproper.slots x s hs s.written (.inr rfl)).2 n⟩

/-- The first procedure uses its identity, and the second calls it. The global is
given by a local operator and a constant with a value. -/
theorem coverage_of_supplied_caller :
    let p : Procedure := ⟨⟨1⟩, "P", ⟨2⟩, [], [], [.print ⟨3⟩ (.ident ⟨4⟩ "self")]⟩
    let q : Procedure := ⟨⟨5⟩, "Q", ⟨6⟩, [], [], [.call ⟨7⟩ "P" []]⟩
    let next : Definition :=
      ⟨⟨12⟩, "Next", [⟨⟨13⟩, "y"⟩], .binary ⟨14⟩ .add (.ident ⟨15⟩ "y") (.literal ⟨16⟩ (.int 1))⟩
    let body : Expr := .letIn ⟨17⟩ [next] (.call ⟨18⟩ "Next" [.ident ⟨19⟩ "N"])
    let value : Expr := .literal ⟨20⟩ (.int 3)
    let a : Algorithm := {
      constants := [⟨⟨0⟩, "N"⟩], globals := [⟨⟨11⟩, "x", some (.value body)⟩]
      procedures := [p, q] }
    let r := { ofAlgorithm a with constantValues := (∅ : NodeMap Expr).insert ⟨0⟩ value }
    let d := Draft.ofAlgorithm r a {}
    (ofAlgorithm a).setConstantValue "N" value = .ok r ∧ (a.nodes ++ value.nodes).Nodup ∧
    r.diagnostics = [] ∧ p.selfId ∈ d.vars ∧ q.selfId ∈ d.vars ∧ ⟨13⟩ ∈ d.vars ∧
    (∃ decl, r.followReference ⟨15⟩ = some decl) ∧ ((r.infer a {}).1.typeOf ⟨14⟩).isSome ∧
    ((r.infer a {}).1.typeOf ⟨20⟩).isSome := by
  intro p q next body value a r d
  have hset : (ofAlgorithm a).setConstantValue "N" value = .ok r := by rfl
  have h : Supplied a r [value] := Supplied.ofAlgorithm.setConstantValue hset
  have hnodes : (a.nodes ++ [value].flatMap Expr.nodes).Nodup := by decide
  have hscope : r.diagnostics = [] := by cbv
  obtain ⟨hvars, _, _, _, hrefers, _, htypes, _⟩ :=
    coverage_of_supplied a r [value] {} h hnodes hscope
  have href : r.isReferenced p.selfId := by cbv
  have hp : p ∈ a.procedures := List.mem_cons_self
  have hq : q ∈ a.procedures := List.mem_cons_of_mem p List.mem_cons_self
  have hcall : .call ⟨7⟩ "P" [] ∈ Stmt.subsAll q.body := List.mem_cons_self
  have hfound : r.findProcedure "P" = some p := by cbv
  have hbody : r.HasExpr a body := .own (.initial (.global List.mem_cons_self) rfl)
  have hvalue : r.HasExpr a value := .value List.mem_cons_self (by cbv)
  have hinner : Expr.Part a.globalEnv body _ next.body := @Expr.Part.definition _ ⟨17⟩ [] [] next _
  obtain ⟨decl, hdecl, _⟩ := hrefers body hbody _ _
    (.part hinner (.part (.operand List.mem_cons_self) .ident))
  exact ⟨hset, hnodes, hscope, (hvars _).mpr (.usedSelf hp href),
    (hvars _).mpr (.passedSelf hq hcall hfound href), (hvars _).mpr (.expr hbody (by decide)),
    ⟨decl, hdecl⟩, htypes _ hbody _ (by decide), htypes _ hvalue _ (by decide)⟩

end Registry

end PlusCalTyping
