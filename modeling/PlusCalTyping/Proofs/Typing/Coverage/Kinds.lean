import PlusCalTyping.Proofs.Typing.Coverage.TypedNodes

/-! # Kinds of typed nodes

Typed nodes by what stands at them. These are the nodes that the parts of an
algorithm list, if its calls are resolved and procedures are found among its own
(`Registry.mem_typedNodes_iff`).
-/

namespace PlusCalTyping

namespace Algorithm

variable (a : Algorithm)

/-- The bodies of an algorithm, with their identities and what they declare. -/
inductive HasBody : Option NodeId → List Decl → List Stmt → Prop
  | procedure {p : Procedure} (h : p ∈ a.procedures) :
    HasBody (some p.selfId) (p.params ++ p.locals) p.body
  | archetype {x : Archetype} (h : x ∈ a.archetypes) :
    HasBody (some x.selfId) (x.params.map (·.decl) ++ x.locals) x.body
  | readBody {m : MappingMacro} (h : m ∈ a.mappingMacros) : HasBody none [] m.readBody
  | writeBody {m : MappingMacro} (h : m ∈ a.mappingMacros) : HasBody none [] m.writeBody
  | single {body : List Stmt} (h : a.processes = .single body) : HasBody none [] body
  | process {ps : List Process} {p : Process} (h : a.processes = .multi ps) (hp : p ∈ ps) :
    HasBody (some p.name.id) p.locals p.body

/-- The statements of an algorithm, at any depth. -/
def HasStmt (s : Stmt) : Prop :=
  ∃ self decls body, a.HasBody self decls body ∧ s ∈ Stmt.subsAll body

/-- The variables that an algorithm declares, constants apart. -/
inductive HasDecl : Decl → Prop
  | global {d : Decl} (h : d ∈ a.globals) : HasDecl d
  /-- Parameters and local variables. -/
  | body {self : Option NodeId} {decls : List Decl} {body : List Stmt} {d : Decl}
    (h : a.HasBody self decls body) (hd : d ∈ decls) : HasDecl d
  | withVariable {s : Stmt} {d : Decl} (hs : a.HasStmt s) (hd : d ∈ s.decls) : HasDecl d
  | processName {ps : List Process} {p : Process} (h : a.processes = .multi ps) (hp : p ∈ ps) :
    HasDecl p.name
  | instanceName {i : Instance} (hi : i ∈ a.instances) : HasDecl i.name

/-- The expressions of an algorithm that are not part of others. -/
inductive HasExpr : Expr → Prop
  | initial {d : Decl} {e : Expr} (hd : a.HasDecl d) (he : d.initial? = some e) : HasExpr e
  | operator {d : Definition} (hd : d ∈ a.units) : HasExpr d.body
  | stmt {s : Stmt} {e : Expr} (hs : a.HasStmt s) (he : e ∈ s.exprs) : HasExpr e
  | arg {i : Instance} {e : Expr} (hi : i ∈ a.instances) (he : e ∈ i.args) : HasExpr e
  | mapped {i : Instance} {m : Mapping} (hi : i ∈ a.instances) (hm : m ∈ i.mappings) :
    HasExpr m.variableExpr

end Algorithm

/-- A typed node is listed by one of the parts of the algorithm. -/
theorem Algorithm.mem_typedNodes {r : Registry} {a : Algorithm} {n : NodeId} :
    n ∈ a.typedNodes r ↔ (∃ c ∈ a.constants, n ∈ constantTypedNodes r c) ∨
      (∃ d ∈ a.globals, n ∈ d.nodes) ∨ (∃ d ∈ a.units, n ∈ Expr.definitionNodes d) ∨
      (∃ p ∈ a.procedures, n ∈ p.typedNodes r) ∨ (∃ x ∈ a.archetypes, n ∈ x.typedNodes r) ∨
      (∃ m ∈ a.mappingMacros, n ∈ m.typedNodes r) ∨ (∃ i ∈ a.instances, n ∈ i.typedNodes) ∨
      n ∈ a.processes.typedNodes r := by
  simp only [typedNodes, List.mem_append, List.mem_flatMap, or_assoc]

namespace Registry

/-- The expressions of an algorithm and the values of its constants. -/
inductive HasExpr (r : Registry) (a : Algorithm) : Expr → Prop
  | own {e : Expr} (h : a.HasExpr e) : HasExpr r a e
  | value {c : Node String} {e : Expr} (hc : c ∈ a.constants)
    (he : r.constantValue c.id = some e) : HasExpr r a e

/-- The nodes that have types. -/
inductive TypedNode (r : Registry) (a : Algorithm) : NodeId → Prop
  /-- The nodes of all expressions within it, of its bounds, and of its local operators
  with their arguments. -/
  | expr {e : Expr} {n : NodeId} (he : r.HasExpr a e) (hn : n ∈ e.nodes) : TypedNode r a n
  | constant {c : Node String} (hc : c ∈ a.constants) : TypedNode r a c.id
  | decl {d : Decl} (hd : a.HasDecl d) : TypedNode r a d.id
  | operator {d : Definition} (hd : d ∈ a.units) : TypedNode r a d.id
  | argument {d : Definition} {x : Node String} (hd : d ∈ a.units) (hx : x ∈ d.args) :
    TypedNode r a x.id
  | procedure {p : Procedure} (hp : p ∈ a.procedures) : TypedNode r a p.id
  /-- The procedure uses `self`. -/
  | usedSelf {p : Procedure} (hp : p ∈ a.procedures) (href : r.isReferenced p.selfId) :
    TypedNode r a p.selfId
  /-- The procedure calls another that uses `self`. -/
  | passedSelf {p q : Procedure} {id : NodeId} {name : String} {args : List Expr}
    (hp : p ∈ a.procedures) (hcall : .call id name args ∈ Stmt.subsAll p.body)
    (hq : r.findProcedure name = some q) (href : r.isReferenced q.selfId) :
    TypedNode r a p.selfId
  | archetype {x : Archetype} (hx : x ∈ a.archetypes) : TypedNode r a x.id
  | archetypeSelf {x : Archetype} (hx : x ∈ a.archetypes) : TypedNode r a x.selfId
  | macroVariable {m : MappingMacro} (hm : m ∈ a.mappingMacros) : TypedNode r a m.variableId
  | macroValue {m : MappingMacro} (hm : m ∈ a.mappingMacros) : TypedNode r a m.valueId
  | macroReadValue {m : MappingMacro} (hm : m ∈ a.mappingMacros) : TypedNode r a m.readValueId

variable {r : Registry} {a : Algorithm} {n : NodeId}

/-! ## Listed nodes are typed -/

theorem typedNode_of_decl {d : Decl} (hd : a.HasDecl d) (hn : n ∈ d.nodes) : r.TypedNode a n := by
  rcases List.mem_cons.mp hn with rfl | hn
  · exact .decl hd
  · cases he : d.initial? with
    | none => simp [he] at hn
    | some e =>
      rw [he] at hn
      exact .expr (.own (.initial hd he)) hn

theorem typedNode_of_definition {d : Definition} (hd : d ∈ a.units)
    (hn : n ∈ Expr.definitionNodes d) : r.TypedNode a n := by
  simp only [Expr.definitionNodes_eq, List.mem_cons, List.mem_append, List.mem_map] at hn
  rcases hn with rfl | ⟨x, hx, rfl⟩ | hn
  · exact .operator hd
  · exact .argument hd hx
  · exact .expr (.own (.operator hd)) hn

/-- An identity that a call passes on has a type. -/
theorem typedNode_of_caller {caller id : NodeId} {decls : List Decl} {body : List Stmt}
    {name : String} {args : List Expr} {q : Procedure} (h : a.HasBody (some caller) decls body)
    (hcall : .call id name args ∈ Stmt.subsAll body) (hq : r.findProcedure name = some q)
    (href : r.isReferenced q.selfId) : r.TypedNode a caller := by
  cases h with
  | procedure hp => exact .passedSelf hp hcall hq href
  | archetype hx => exact .archetypeSelf hx
  | process h hp => exact .decl (.processName h hp)

theorem mem_callIdentities {self : Option NodeId} {name : String} :
    n ∈ Stmt.callIdentities r self name ↔ ∃ caller q, self = some caller ∧
      r.findProcedure name = some q ∧ r.isReferenced q.selfId ∧ (n = q.selfId ∨ n = caller) := by
  unfold Stmt.callIdentities
  cases self <;> cases r.findProcedure name <;> simp

theorem typedNode_of_body (hprocedures : ∀ name q, r.findProcedure name = some q → q ∈ a.procedures)
    {self : Option NodeId} {decls : List Decl} {body : List Stmt} (h : a.HasBody self decls body)
    (hn : n ∈ bodyTypedNodes r self decls body) : r.TypedNode a n := by
  simp only [bodyTypedNodes, Stmt.typedNodes, List.mem_append, List.mem_flatMap] at hn
  rcases hn with ⟨d, hd, hn⟩ | ⟨s, hs, (⟨e, he, hn⟩ | ⟨d, hd, hn⟩) | hn⟩
  · exact typedNode_of_decl (.body h hd) hn
  · exact .expr (.own (.stmt ⟨_, _, _, h, hs⟩ he)) hn
  · exact typedNode_of_decl (.withVariable ⟨_, _, _, h, hs⟩ hd) hn
  · cases s with
    | call id name args =>
      rw [Stmt.identities] at hn
      obtain ⟨_, hn⟩ := List.mem_ite_nil_right.mp hn
      obtain ⟨caller, q, rfl, hq, href, rfl | rfl⟩ := mem_callIdentities.mp hn
      · exact .usedSelf (hprocedures name q hq) href
      · exact typedNode_of_caller h hs hq href
    | _ => cases hn

theorem typedNode_of_mem (hprocedures : ∀ name q, r.findProcedure name = some q → q ∈ a.procedures)
    (hn : n ∈ a.typedNodes r) : r.TypedNode a n := by
  have hbody {self : Option NodeId} {decls : List Decl} {body : List Stmt}
      (h : a.HasBody self decls body) (hn : n ∈ bodyTypedNodes r self decls body) :
      r.TypedNode a n := typedNode_of_body hprocedures h hn
  rcases Algorithm.mem_typedNodes.mp hn with ⟨c, hc, hn⟩ | ⟨d, hd, hn⟩ | ⟨d, hd, hn⟩ |
    ⟨p, hp, hn⟩ | ⟨x, hx, hn⟩ | ⟨m, hm, hn⟩ | ⟨i, hi, hn⟩ | hn
  · rcases List.mem_cons.mp hn with rfl | hn
    · exact .constant hc
    · cases he : r.constantValue c.id with
      | none => simp [he] at hn
      | some e =>
        rw [he] at hn
        exact .expr (.value hc he) hn
  · exact typedNode_of_decl (.global hd) hn
  · exact typedNode_of_definition hd hn
  · simp only [Procedure.typedNodes, List.mem_append, List.mem_ite_nil_right, List.mem_singleton]
      at hn
    rcases hn with (⟨href, rfl⟩ | hn) | rfl
    · exact .usedSelf hp href
    · exact hbody (.procedure hp) hn
    · exact .procedure hp
  · simp only [Archetype.typedNodes, List.mem_append, List.mem_cons, List.not_mem_nil, or_false]
      at hn
    rcases hn with (rfl | hn) | rfl
    · exact .archetypeSelf hx
    · exact hbody (.archetype hx) hn
    · exact .archetype hx
  · simp only [MappingMacro.typedNodes, List.mem_append, List.mem_cons, List.not_mem_nil, or_false]
      at hn
    rcases hn with (rfl | rfl | rfl) | hn | hn
    · exact .macroVariable hm
    · exact .macroValue hm
    · exact .macroReadValue hm
    · exact hbody (.readBody hm) hn
    · exact hbody (.writeBody hm) hn
  · simp only [Instance.typedNodes, List.mem_append, List.mem_flatMap, Expr.listNodes_eq] at hn
    rcases hn with (hn | ⟨e, he, hn⟩) | ⟨m, hm, hn⟩
    · exact typedNode_of_decl (.instanceName hi) hn
    · exact .expr (.own (.arg hi he)) hn
    · exact .expr (.own (.mapped hi hm)) hn
  · cases hps : a.processes with
    | single body =>
      rw [hps] at hn
      exact hbody (.single hps) hn
    | multi ps =>
      rw [hps] at hn
      obtain ⟨p, hp, hn⟩ := List.mem_flatMap.mp hn
      rcases List.mem_append.mp hn with hn | hn
      · exact typedNode_of_decl (.processName hps hp) hn
      · exact hbody (.process hps hp) hn

/-! ## Typed nodes are listed -/

theorem mem_typedNodes_of_body {self : Option NodeId} {decls : List Decl} {body : List Stmt}
    (h : a.HasBody self decls body) (hn : n ∈ bodyTypedNodes r self decls body) :
    n ∈ a.typedNodes r := by
  rw [Algorithm.mem_typedNodes]
  cases h with
  | procedure hp => exact .inr (.inr (.inr (.inl ⟨_, hp, by simp [Procedure.typedNodes, hn]⟩)))
  | archetype hx =>
    exact .inr (.inr (.inr (.inr (.inl ⟨_, hx, by simp [Archetype.typedNodes, hn]⟩))))
  | readBody hm | writeBody hm =>
    exact .inr (.inr (.inr (.inr (.inr (.inl ⟨_, hm, by simp [MappingMacro.typedNodes, hn]⟩)))))
  | single h =>
    rw [h]
    exact .inr (.inr (.inr (.inr (.inr (.inr (.inr hn))))))
  | process h hp =>
    rw [h]
    refine .inr (.inr (.inr (.inr (.inr (.inr (.inr ?_))))))
    exact List.mem_flatMap.mpr ⟨_, hp, List.mem_append_right _ hn⟩

theorem mem_typedNodes_of_decl {d : Decl} (hd : a.HasDecl d) (hn : n ∈ d.nodes) :
    n ∈ a.typedNodes r := by
  cases hd with
  | body h hd =>
    exact mem_typedNodes_of_body h (List.mem_append_left _ (List.mem_flatMap.mpr ⟨d, hd, hn⟩))
  | withVariable hs hd =>
    obtain ⟨self, decls, body, h, hs⟩ := hs
    refine mem_typedNodes_of_body h (List.mem_append_right _ (List.mem_flatMap.mpr ⟨_, hs, ?_⟩))
    exact List.mem_append_left _ (List.mem_append_right _ (List.mem_flatMap.mpr ⟨d, hd, hn⟩))
  | global hd =>
    rw [Algorithm.mem_typedNodes]
    exact .inr (.inl ⟨d, hd, hn⟩)
  | processName h hp =>
    rw [Algorithm.mem_typedNodes, h]
    refine .inr (.inr (.inr (.inr (.inr (.inr (.inr ?_))))))
    exact List.mem_flatMap.mpr ⟨_, hp, List.mem_append_left _ hn⟩
  | instanceName hi =>
    rw [Algorithm.mem_typedNodes]
    refine .inr (.inr (.inr (.inr (.inr (.inr (.inl ⟨_, hi, ?_⟩))))))
    exact List.mem_append_left _ (List.mem_append_left _ hn)

theorem mem_typedNodes_of_definition {d : Definition} (hd : d ∈ a.units)
    (hn : n ∈ Expr.definitionNodes d) : n ∈ a.typedNodes r := by
  rw [Algorithm.mem_typedNodes]
  exact .inr (.inr (.inl ⟨d, hd, hn⟩))

theorem mem_typedNodes_of_expr {e : Expr} (he : a.HasExpr e) (hn : n ∈ e.nodes) :
    n ∈ a.typedNodes r := by
  cases he with
  | @initial d _ hd he =>
    refine mem_typedNodes_of_decl hd (List.mem_cons_of_mem _ ?_)
    rw [he]
    exact hn
  | @operator d hd =>
    refine mem_typedNodes_of_definition hd ?_
    rw [Expr.definitionNodes_eq]
    exact List.mem_cons_of_mem _ (List.mem_append_right _ hn)
  | stmt hs he =>
    obtain ⟨self, decls, body, h, hs⟩ := hs
    refine mem_typedNodes_of_body h (List.mem_append_right _ (List.mem_flatMap.mpr ⟨_, hs, ?_⟩))
    refine List.mem_append_left _ (List.mem_append_left _ ?_)
    exact List.mem_flatMap.mpr ⟨_, he, hn⟩
  | @arg i _ hi he =>
    rw [Algorithm.mem_typedNodes]
    refine .inr (.inr (.inr (.inr (.inr (.inr (.inl ⟨i, hi, ?_⟩))))))
    refine List.mem_append_left _ (List.mem_append_right _ ?_)
    rw [Expr.listNodes_eq]
    exact List.mem_flatMap.mpr ⟨_, he, hn⟩
  | @mapped i m hi hm =>
    rw [Algorithm.mem_typedNodes]
    refine .inr (.inr (.inr (.inr (.inr (.inr (.inl ⟨i, hi, ?_⟩))))))
    exact List.mem_append_right _ (List.mem_flatMap.mpr ⟨m, hm, hn⟩)

/-- Where calls are resolved and procedures are found among those of the algorithm,
the typed nodes are those that its parts list. -/
theorem mem_typedNodes_iff
    (hprocedures : ∀ name q, r.findProcedure name = some q → q ∈ a.procedures)
    (hcalls : ∀ id name args, a.HasStmt (.call id name args) → (r.followReference id).isSome) :
    n ∈ a.typedNodes r ↔ r.TypedNode a n := by
  refine ⟨typedNode_of_mem hprocedures, fun h => ?_⟩
  cases h with
  | decl hd => exact mem_typedNodes_of_decl hd List.mem_cons_self
  | @operator d hd =>
    refine mem_typedNodes_of_definition hd ?_
    rw [Expr.definitionNodes_eq]
    exact List.mem_cons_self
  | @argument d x hd hx =>
    refine mem_typedNodes_of_definition hd ?_
    rw [Expr.definitionNodes_eq]
    exact List.mem_cons_of_mem _ (List.mem_append_left _ (List.mem_map_of_mem hx))
  | passedSelf hp hcall hq href =>
    -- Only a call that is resolved passes an identity on.
    have hbody := Algorithm.HasBody.procedure hp
    have hid := hcalls _ _ _ ⟨_, _, _, hbody, hcall⟩
    refine mem_typedNodes_of_body hbody (List.mem_append_right _ ?_)
    refine List.mem_flatMap.mpr ⟨_, hcall, List.mem_append_right _ ?_⟩
    rw [Stmt.identities, if_pos hid]
    exact mem_callIdentities.mpr ⟨_, _, rfl, hq, href, .inr rfl⟩
  | expr he hn =>
    cases he with
    | own he => exact mem_typedNodes_of_expr he hn
    | @value c _ hc he =>
      rw [Algorithm.mem_typedNodes]
      exact .inl ⟨c, hc, by simp [constantTypedNodes, he, hn]⟩
  | constant hc =>
    rw [Algorithm.mem_typedNodes]
    exact .inl ⟨_, hc, List.mem_cons_self⟩
  | procedure hp =>
    rw [Algorithm.mem_typedNodes]
    exact .inr (.inr (.inr (.inl ⟨_, hp, by simp [Procedure.typedNodes]⟩)))
  | usedSelf hp href =>
    rw [Algorithm.mem_typedNodes]
    exact .inr (.inr (.inr (.inl ⟨_, hp, by simp [Procedure.typedNodes, href]⟩)))
  | archetype hx | archetypeSelf hx =>
    rw [Algorithm.mem_typedNodes]
    exact .inr (.inr (.inr (.inr (.inl ⟨_, hx, by simp [Archetype.typedNodes]⟩))))
  | macroVariable hm | macroValue hm | macroReadValue hm =>
    rw [Algorithm.mem_typedNodes]
    exact .inr (.inr (.inr (.inr (.inr (.inl ⟨_, hm, by simp [MappingMacro.typedNodes]⟩)))))

end Registry

/-! ## Expressions are listed -/

namespace Algorithm

variable {a : Algorithm} {n : NodeId}

theorem mem_ids : n ∈ a.ids ↔ (∃ d ∈ a.globals, n ∈ d.ids) ∨
    (∃ d ∈ a.units, n ∈ Expr.definitionIds d) ∨
    (∃ p ∈ a.procedures, n ∈ bodyIds (p.params ++ p.locals) p.body) ∨
    (∃ x ∈ a.archetypes, n ∈ bodyIds (x.params.map (·.decl) ++ x.locals) x.body) ∨
    (∃ m ∈ a.mappingMacros, n ∈ bodyIds [] m.readBody ++ bodyIds [] m.writeBody) ∨
    (∃ i ∈ a.instances, n ∈ i.ids) ∨ n ∈ a.processes.ids := by
  simp only [ids, List.mem_append, List.mem_flatMap, or_assoc]

theorem mem_ids_of_body {self : Option NodeId} {decls : List Decl} {body : List Stmt}
    (h : a.HasBody self decls body) (hn : n ∈ bodyIds decls body) : n ∈ a.ids := by
  rw [mem_ids]
  cases h with
  | procedure hp => exact .inr (.inr (.inl ⟨_, hp, hn⟩))
  | archetype hx => exact .inr (.inr (.inr (.inl ⟨_, hx, hn⟩)))
  | readBody hm =>
    exact .inr (.inr (.inr (.inr (.inl ⟨_, hm, List.mem_append_left _ hn⟩))))
  | writeBody hm =>
    exact .inr (.inr (.inr (.inr (.inl ⟨_, hm, List.mem_append_right _ hn⟩))))
  | single h =>
    rw [h]
    exact .inr (.inr (.inr (.inr (.inr (.inr hn)))))
  | process h hp =>
    rw [h]
    refine .inr (.inr (.inr (.inr (.inr (.inr ?_)))))
    exact List.mem_flatMap.mpr ⟨_, hp, List.mem_append_right _ hn⟩

theorem mem_ids_of_decl {d : Decl} (hd : a.HasDecl d) (hn : n ∈ d.ids) : n ∈ a.ids := by
  cases hd with
  | body h hd =>
    exact mem_ids_of_body h (List.mem_append_left _ (List.mem_flatMap.mpr ⟨d, hd, hn⟩))
  | withVariable hs hd =>
    obtain ⟨self, decls, body, h, hs⟩ := hs
    refine mem_ids_of_body h (List.mem_append_right _ (List.mem_flatMap.mpr ⟨_, hs, ?_⟩))
    exact List.mem_append_right _ (List.mem_flatMap.mpr ⟨d, hd, hn⟩)
  | global hd =>
    rw [mem_ids]
    exact .inl ⟨d, hd, hn⟩
  | processName h hp =>
    rw [mem_ids, h]
    refine .inr (.inr (.inr (.inr (.inr (.inr ?_)))))
    exact List.mem_flatMap.mpr ⟨_, hp, List.mem_append_left _ hn⟩
  | instanceName hi =>
    rw [mem_ids]
    refine .inr (.inr (.inr (.inr (.inr (.inl ⟨_, hi, ?_⟩)))))
    exact List.mem_append_left _ (List.mem_append_left _ hn)

/-- The listed nodes of expressions are those of all expressions of the algorithm. -/
theorem mem_ids_of_expr {e : Expr} (he : a.HasExpr e) (hn : n ∈ e.ids) : n ∈ a.ids := by
  cases he with
  | @initial d _ hd he =>
    refine mem_ids_of_decl hd ?_
    rw [Decl.ids, he]
    exact hn
  | @operator d hd =>
    rw [mem_ids]
    refine .inr (.inl ⟨d, hd, ?_⟩)
    cases d
    exact hn
  | stmt hs he =>
    obtain ⟨self, decls, body, h, hs⟩ := hs
    refine mem_ids_of_body h (List.mem_append_right _ (List.mem_flatMap.mpr ⟨_, hs, ?_⟩))
    exact List.mem_append_left _ (List.mem_flatMap.mpr ⟨_, he, hn⟩)
  | @arg i _ hi he =>
    rw [mem_ids]
    refine .inr (.inr (.inr (.inr (.inr (.inl ⟨i, hi, ?_⟩)))))
    refine List.mem_append_left _ (List.mem_append_right _ ?_)
    rw [Expr.listIds_eq]
    exact List.mem_flatMap.mpr ⟨_, he, hn⟩
  | @mapped i m hi hm =>
    rw [mem_ids]
    refine .inr (.inr (.inr (.inr (.inr (.inl ⟨i, hi, ?_⟩)))))
    exact List.mem_append_right _ (List.mem_flatMap.mpr ⟨m, hm, hn⟩)

/-! ## Typed nodes are nodes -/

theorem mem_nodes : n ∈ a.nodes ↔ n ∈ a.constants.map (·.id) ∨ (∃ d ∈ a.globals, n ∈ d.nodes) ∨
    (∃ d ∈ a.units, n ∈ Expr.definitionNodes d) ∨ (∃ p ∈ a.procedures, n ∈ p.nodes) ∨
    (∃ x ∈ a.archetypes, n ∈ x.nodes) ∨ (∃ m ∈ a.mappingMacros, n ∈ m.nodes) ∨
    (∃ i ∈ a.instances, n ∈ i.nodes) ∨ n ∈ a.processes.nodes := by
  simp only [nodes, List.mem_append, List.mem_flatMap, or_assoc]

theorem HasBody.mem_nodes {self : Option NodeId} {decls : List Decl} {body : List Stmt}
    (h : a.HasBody self decls body) (hn : n ∈ bodyNodes decls body) : n ∈ a.nodes := by
  rw [Algorithm.mem_nodes]
  cases h with
  | procedure hp => exact .inr (.inr (.inr (.inl ⟨_, hp, by simp [Procedure.nodes, hn]⟩)))
  | archetype hx => exact .inr (.inr (.inr (.inr (.inl ⟨_, hx, by simp [Archetype.nodes, hn]⟩))))
  | readBody hm | writeBody hm =>
    exact .inr (.inr (.inr (.inr (.inr (.inl ⟨_, hm, by simp [MappingMacro.nodes, hn]⟩)))))
  | single h =>
    rw [h]
    exact .inr (.inr (.inr (.inr (.inr (.inr (.inr hn))))))
  | process h hp =>
    rw [h]
    refine .inr (.inr (.inr (.inr (.inr (.inr (.inr ?_))))))
    exact List.mem_flatMap.mpr ⟨_, hp, by simp [Process.nodes, hn]⟩

theorem HasStmt.mem_nodes {s : Stmt} (h : a.HasStmt s) (hn : n ∈ s.ownNodes) : n ∈ a.nodes := by
  obtain ⟨_, _, body, hbody, hs⟩ := h
  refine hbody.mem_nodes (List.mem_append_right _ ?_)
  exact (Stmt.subsAll_ownNodes_sublist body).subset (List.mem_flatMap.mpr ⟨s, hs, hn⟩)

theorem HasDecl.mem_nodes {d : Decl} (h : a.HasDecl d) (hn : n ∈ d.nodes) : n ∈ a.nodes := by
  cases h with
  | body h hd => exact h.mem_nodes (List.mem_append_left _ (List.mem_flatMap.mpr ⟨d, hd, hn⟩))
  | withVariable hs hd =>
    exact hs.mem_nodes (List.mem_append_right _ (List.mem_flatMap.mpr ⟨d, hd, hn⟩))
  | global hd => exact Algorithm.mem_nodes.mpr (.inr (.inl ⟨d, hd, hn⟩))
  | processName h hp =>
    rw [Algorithm.mem_nodes, h]
    refine .inr (.inr (.inr (.inr (.inr (.inr (.inr ?_))))))
    exact List.mem_flatMap.mpr ⟨_, hp, by simp [Process.nodes, hn]⟩
  | instanceName hi =>
    refine Algorithm.mem_nodes.mpr (.inr (.inr (.inr (.inr (.inr (.inr (.inl ⟨_, hi, ?_⟩)))))))
    simp [Instance.nodes, hn]

theorem HasExpr.mem_nodes {e : Expr} (h : a.HasExpr e) (hn : n ∈ e.nodes) : n ∈ a.nodes := by
  cases h with
  | initial hd he =>
    refine hd.mem_nodes (List.mem_cons_of_mem _ ?_)
    rwa [he]
  | operator hd =>
    refine Algorithm.mem_nodes.mpr (.inr (.inr (.inl ⟨_, hd, ?_⟩)))
    rw [Expr.definitionNodes_eq]
    exact List.mem_cons_of_mem _ (List.mem_append_right _ hn)
  | stmt hs he => exact hs.mem_nodes (List.mem_append_left _ (List.mem_flatMap.mpr ⟨e, he, hn⟩))
  | @arg i _ hi he =>
    refine Algorithm.mem_nodes.mpr (.inr (.inr (.inr (.inr (.inr (.inr (.inl ⟨i, hi, ?_⟩)))))))
    rw [Instance.nodes, Expr.listNodes_eq]
    exact List.mem_append_left _ (List.mem_append_right _ (List.mem_flatMap.mpr ⟨e, he, hn⟩))
  | @mapped i m hi hm =>
    refine Algorithm.mem_nodes.mpr (.inr (.inr (.inr (.inr (.inr (.inr (.inl ⟨i, hi, ?_⟩)))))))
    refine List.mem_append_right _ (List.mem_flatMap.mpr ⟨m, hm, ?_⟩)
    exact List.mem_append_left _ hn

end Algorithm

/-- A node with a type is one of the algorithm or of the value of a constant. -/
theorem Registry.TypedNode.mem_nodes {r : Registry} {a : Algorithm} {n : NodeId}
    (h : r.TypedNode a n) :
    n ∈ a.nodes ∨ ∃ c e, r.constantValue c = some e ∧ n ∈ e.nodes := by
  have hdefinition {d : Definition} (hd : d ∈ a.units) (hn : n ∈ Expr.definitionNodes d) :
      n ∈ a.nodes := Algorithm.mem_nodes.mpr (.inr (.inr (.inl ⟨d, hd, hn⟩)))
  have hprocedure {p : Procedure} (hp : p ∈ a.procedures) (hn : n ∈ p.nodes) : n ∈ a.nodes :=
    Algorithm.mem_nodes.mpr (.inr (.inr (.inr (.inl ⟨p, hp, hn⟩))))
  have harchetype {x : Archetype} (hx : x ∈ a.archetypes) (hn : n ∈ x.nodes) : n ∈ a.nodes :=
    Algorithm.mem_nodes.mpr (.inr (.inr (.inr (.inr (.inl ⟨x, hx, hn⟩)))))
  have hmapping {m : MappingMacro} (hm : m ∈ a.mappingMacros) (hn : n ∈ m.nodes) : n ∈ a.nodes :=
    Algorithm.mem_nodes.mpr (.inr (.inr (.inr (.inr (.inr (.inl ⟨m, hm, hn⟩))))))
  cases h with
  | @expr e _ he hn =>
    cases he with
    | own he => exact .inl (he.mem_nodes hn)
    | @value c _ _ he => exact .inr ⟨c.id, e, he, hn⟩
  | constant hc => exact .inl (Algorithm.mem_nodes.mpr (.inl (List.mem_map_of_mem hc)))
  | decl hd => exact .inl (hd.mem_nodes List.mem_cons_self)
  | operator hd => exact .inl (hdefinition hd (by simp [Expr.definitionNodes_eq]))
  | argument hd hx =>
    refine .inl (hdefinition hd ?_)
    rw [Expr.definitionNodes_eq]
    exact List.mem_cons_of_mem _ (List.mem_append_left _ (List.mem_map_of_mem hx))
  | procedure hp | usedSelf hp | passedSelf hp =>
    exact .inl (hprocedure hp (by simp [Procedure.nodes]))
  | archetype hx | archetypeSelf hx => exact .inl (harchetype hx (by simp [Archetype.nodes]))
  | macroVariable hm | macroValue hm | macroReadValue hm =>
    exact .inl (hmapping hm (by simp [MappingMacro.nodes]))

end PlusCalTyping
