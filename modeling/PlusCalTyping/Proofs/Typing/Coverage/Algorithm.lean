import PlusCalTyping.Proofs.Typing.Coverage.Stmt

/-! # Coverage of algorithms

The constraints of an algorithm give variables to its typed nodes and settle each of
its expressions once. Slots get variables of their own.
-/

namespace PlusCalTyping

namespace Draft

/-- The draft with new slots for a parameter. -/
def giveSlots (d : Draft) (x : NodeId) : Draft :=
  { d with
    collection := d.collection.fresh.2.fresh.2
    slots := d.slots.insert x ⟨⟨d.next⟩, ⟨d.next + 1⟩⟩ }

variable {d : Draft}

theorem Proper.giveSlots {P : NodeId → Prop} (h : d.Proper P) (x : NodeId) :
    (d.giveSlots x).Proper P := by
  have hnext : (d.giveSlots x).next = d.next + 2 := rfl
  refine ⟨h.within, fun n v hv => ?_, h.injective, fun y s hs v hv => ?_, h.settled⟩
  · have := h.below n v hv
    omega
  · have hs : (d.slots.insert x ⟨⟨d.next⟩, ⟨d.next + 1⟩⟩)[y]? = some s := hs
    rw [Std.TreeMap.getElem?_insert] at hs
    split at hs
    · cases hs
      have hv : d.next ≤ v.index ∧ v.index < d.next + 2 := by rcases hv with rfl | rfl <;> simp
      refine ⟨hnext ▸ hv.2, fun n hn => ?_⟩
      have := h.below n v hn
      omega
    · obtain ⟨hbelow, hvars⟩ := h.slots y s hs v hv
      exact ⟨by omega, hvars⟩

end Draft

namespace Drafting

variable {P : NodeId → Prop} {r : Registry}

theorem visits_addSlots (x : Param) : Visits P (addSlots x) [] [] :=
  fun _ hd => ⟨hd.giveSlots x.decl.id, fun _ => id, List.forall_mem_nil _, fun _ => rfl⟩

theorem visits_get : Visits P get [] [] := fun d hd => ⟨hd, .refl d⟩

theorem quiet_forM {γ : Type} {g : γ → Drafting Unit} {xs : List γ}
    (h : ∀ x ∈ xs, Visits P (g x) [] []) : Visits P (xs.forM g) [] [] := by
  induction xs with
  | nil => exact visits_pure ()
  | cons x xs ih =>
    obtain ⟨hx, hxs⟩ := List.forall_mem_cons.mp h
    exact quiet_bind hx fun _ => ih hxs

theorem visits_demandIdentity {n : NodeId} (hn : P n) : Visits P (demandIdentity n) [n] [] :=
  (visits_typeOf hn).bind fun _ => (visits_demandEither (by simp) _ _ _ _).bind fun _ =>
    visits_record _ _ _ _

theorem visits_demandSignature {id : NodeId} (hid : P id) (name : String) (params : List Ty)
    {reason : Reason} (h : reason ≠ .exprType) :
    Visits P (demandSignature id name params reason) [id] [] :=
  (visits_typeOf hid).bind fun _ => (visits_record _ _ _ _).bind fun _ => visits_demand h _ _ _

theorem visits_visitConstant (c : Node String) (hid : P c.id)
    (hvalue : ∀ value, r.constantValue c.id = some value → ∀ n ∈ value.nodes, r.Safe P n) :
    Visits P (visitConstant r c) (constantTypedNodes r c) (constantIds r c) := by
  unfold visitConstant constantTypedNodes constantIds
  cases h : r.constantValue c.id with
  | none => exact (visits_typeOf hid).bind fun _ => visits_pure ()
  | some value =>
    refine ((visits_typeOf hid).bind fun _ => (visits_infer _ value (hvalue value h)).bind fun _ =>
      visits_demand (by simp) _ _ _).congr ?_ ?_
    all_goals simp

theorem visits_mapM_declare (around : Surroundings) (ds : List Decl)
    (h : ∀ n ∈ ds.flatMap Decl.nodes, around.registry.Safe P n) :
    Visits P (ds.mapM (declare around)) (ds.flatMap Decl.nodes) (ds.flatMap Decl.ids) :=
  visits_mapM fun d hd => visits_declare around d fun n hn =>
    h n (List.mem_flatMap.mpr ⟨d, hd, hn⟩)

/-- A body is covered with what it declares. -/
theorem visits_body (around : Surroundings) {decls : List Decl} {body : List Stmt}
    (h : ∀ n ∈ bodyTypedNodes around.registry around.self decls body, P n)
    (hleads : ∀ n ∈ bodyNodes decls body, around.registry.Leads P n) :
    (∀ n ∈ decls.flatMap Decl.nodes, around.registry.Safe P n) ∧
      Visits P (checkStmts around body)
        ((Stmt.subsAll body).flatMap (Stmt.typedNodes around.registry around.self))
        ((Stmt.subsAll body).flatMap Stmt.ids) := by
  obtain ⟨hdecls, hbody⟩ := List.forall_mem_append.mp h
  obtain ⟨hdecls', hbody'⟩ := List.forall_mem_append.mp hleads
  exact ⟨Registry.safe_of_forall hdecls hdecls',
    visits_checkStmts around body (List.forall_mem_flatMap.mp hbody) hbody'⟩

theorem visits_visitProcedure (p : Procedure) (h : ∀ n ∈ p.typedNodes r, P n)
    (hleads : ∀ n ∈ p.nodes, r.Leads P n) :
    Visits P (visitProcedure r p) (p.typedNodes r) (bodyIds (p.params ++ p.locals) p.body) := by
  simp only [Procedure.nodes, List.forall_mem_cons] at hleads
  simp only [Procedure.typedNodes, List.forall_mem_append] at h
  obtain ⟨_, _, hleads⟩ := hleads
  obtain ⟨⟨hself, hbody⟩, hid⟩ := h
  let around : Surroundings := { registry := r, self := some p.selfId }
  obtain ⟨hdecls, hstmts⟩ := visits_body around hbody hleads
  rw [List.flatMap_append] at hdecls
  obtain ⟨hparams, hlocals⟩ := List.forall_mem_append.mp hdecls
  have hrest : Visits P (do
      let params ← p.params.mapM (declare around)
      declareAll around p.locals
      checkStmts around p.body
      demandSignature p.id p.name params .procedureSignature)
      (bodyTypedNodes r (some p.selfId) (p.params ++ p.locals) p.body ++ [p.id])
      (bodyIds (p.params ++ p.locals) p.body) := by
    refine ((visits_mapM_declare around p.params hparams).bind fun _ =>
      (visits_declareAll around p.locals hlocals).bind fun _ => hstmts.bind fun _ =>
      visits_demandSignature (hid p.id List.mem_cons_self) _ _ (by simp)).congr ?_ ?_
    · simp [bodyTypedNodes, around]
    · simp [bodyIds]
  unfold visitProcedure Procedure.typedNodes
  dsimp only
  split
  · next href =>
    have hself : P p.selfId := hself p.selfId (by rw [if_pos href]; exact List.mem_cons_self)
    exact (visits_demandIdentity hself).bind fun _ => hrest
  · exact hrest

theorem visits_visitParam (x : Param) (index : Nat) (h : ∀ n ∈ x.decl.nodes, r.Safe P n) :
    Visits P (visitParam r x index) x.decl.nodes x.decl.ids := by
  unfold visitParam
  refine ((visits_declare _ x.decl h).bind fun t => visits_get.bind fun d =>
    (?_ : Visits P _ [] [])).congr ?_ ?_
  · split
    · exact quiet_bind (visits_demand (by simp) _ _ _) fun _ =>
        quiet_bind (visits_demand (by simp) _ _ _) fun _ => visits_pure _
    · exact visits_pure _
  all_goals simp

theorem visits_visitParams (xs : List Param) (index : Nat)
    (h : ∀ n ∈ (xs.map (·.decl)).flatMap Decl.nodes, r.Safe P n) :
    Visits P (visitParams r xs index) ((xs.map (·.decl)).flatMap Decl.nodes)
      ((xs.map (·.decl)).flatMap Decl.ids) := by
  induction xs generalizing index with
  | nil => exact visits_pure []
  | cons x xs ih =>
    rw [visitParams]
    obtain ⟨hx, hxs⟩ := List.forall_mem_append.mp h
    refine ((visits_visitParam x index hx).bind fun _ => (ih (index + 1) hxs).bind fun _ =>
      visits_pure _).congr ?_ ?_
    all_goals simp

theorem visits_visitArchetype (x : Archetype) (h : ∀ n ∈ x.typedNodes r, P n)
    (hleads : ∀ n ∈ x.nodes, r.Leads P n) :
    Visits P (visitArchetype r x) (x.typedNodes r)
      (bodyIds (x.params.map (·.decl) ++ x.locals) x.body) := by
  simp only [Archetype.nodes, List.forall_mem_cons] at hleads
  simp only [Archetype.typedNodes, List.forall_mem_cons, List.forall_mem_append] at h
  obtain ⟨_, _, hleads⟩ := hleads
  obtain ⟨⟨hself, hbody⟩, hid⟩ := h
  let around : Surroundings := ⟨r, .archetype (x.params.map (·.decl.id)), some x.selfId⟩
  obtain ⟨hdecls, hstmts⟩ := visits_body around hbody hleads
  rw [List.flatMap_append] at hdecls
  obtain ⟨hparams, hlocals⟩ := List.forall_mem_append.mp hdecls
  unfold visitArchetype
  refine ((quiet_forM fun y _ => visits_addSlots y).bind fun _ =>
    (visits_demandIdentity hself).bind fun _ =>
    (visits_visitParams x.params 0 hparams).bind fun _ =>
    (visits_declareAll around x.locals hlocals).bind fun _ => hstmts.bind fun _ =>
    visits_demandSignature hid.1 _ _ (by simp)).congr ?_ ?_
  · simp [Archetype.typedNodes, bodyTypedNodes, around]
  · simp [bodyIds]

theorem visits_visitMappingMacro (m : MappingMacro) (h : ∀ n ∈ m.typedNodes r, P n)
    (hleads : ∀ n ∈ m.nodes, r.Leads P n) :
    Visits P (visitMappingMacro r m) (m.typedNodes r)
      (bodyIds [] m.readBody ++ bodyIds [] m.writeBody) := by
  obtain ⟨_, hleads⟩ := List.forall_mem_append.mp hleads
  obtain ⟨hread, hwrite⟩ := List.forall_mem_append.mp hleads
  simp only [MappingMacro.typedNodes, List.forall_mem_append, List.forall_mem_cons] at h
  obtain ⟨⟨hvariable, hvalue, hresult, _⟩, hread', hwrite'⟩ := h
  unfold visitMappingMacro
  exact (visits_typeOf hvariable).bind fun stored => (visits_typeOf hvalue).bind fun _ =>
    (visits_typeOf hresult).bind fun result =>
    (visits_body { registry := r, role := .macroRead result } hread' hread).2.bind fun _ =>
    (visits_body { registry := r, role := .macroWrite stored } hwrite' hwrite).2

theorem visits_visitProcess (p : Process) (h : ∀ n ∈ p.typedNodes r, P n)
    (hleads : ∀ n ∈ p.nodes, r.Leads P n) :
    Visits P (visitProcess r p) (p.typedNodes r) (p.name.ids ++ bodyIds p.locals p.body) := by
  obtain ⟨hname, hbody⟩ := List.forall_mem_append.mp h
  obtain ⟨_, hleads⟩ := List.forall_mem_cons.mp hleads
  obtain ⟨hname', hbody'⟩ := List.forall_mem_append.mp hleads
  let around : Surroundings := { registry := r, self := some p.name.id }
  obtain ⟨hlocals, hstmts⟩ := visits_body around hbody hbody'
  unfold visitProcess
  refine ((visits_declare _ p.name (Registry.safe_of_forall hname hname')).bind fun _ =>
    (visits_demandIdentity (hname p.name.id List.mem_cons_self)).bind fun _ =>
    (visits_declareAll around p.locals hlocals).bind fun _ => hstmts).congr ?_ ?_
  · simp only [Process.typedNodes, bodyTypedNodes, List.mem_append]
    tauto
  · simp [bodyIds]

theorem visits_visitProcesses (ps : Processes) (h : ∀ n ∈ ps.typedNodes r, P n)
    (hleads : ∀ n ∈ ps.nodes, r.Leads P n) :
    Visits P (visitProcesses r ps) (ps.typedNodes r) ps.ids := by
  cases ps with
  | single body => exact (visits_body { registry := r } h hleads).2
  | multi ps =>
    refine visits_forM fun p hp => visits_visitProcess p ?_ ?_
    · exact List.forall_mem_flatMap.mp h p hp
    · exact List.forall_mem_flatMap.mp hleads p hp

theorem visits_visitMapping (args : List Expr) (params : List Param) (m : Mapping)
    (hmacros : ∀ name x, r.findMappingMacro name = some x → P x.readValueId ∧ P x.valueId)
    (h : ∀ n ∈ m.variableExpr.nodes, r.Safe P n) :
    Visits P (visitMapping r args params m) m.variableExpr.nodes m.variableExpr.ids := by
  unfold visitMapping
  refine ((visits_infer _ m.variableExpr h).bind fun t => (?_ : Visits P _ [] [])).congr ?_ ?_
  · split
    · split
      · split
        · next x hx =>
          obtain ⟨hread, hvalue⟩ := hmacros _ x hx
          refine quiet_bind visits_get fun d => ?_
          split
          · exact quiet_bind (quiet_typeOf hread) fun _ =>
              quiet_bind (visits_demand (by simp) _ _ _) fun _ =>
              quiet_bind (quiet_typeOf hvalue) fun _ => visits_demand (by simp) _ _ _
          · exact visits_pure ()
        · exact visits_pure ()
      · exact visits_pure ()
    · exact visits_pure ()
  all_goals simp

theorem visits_visitInstance (i : Instance) (htarget : ∃ x, r.findArchetype i.target = some x)
    (harchetypes : ∀ name x, r.findArchetype name = some x → P x.id)
    (hmacros : ∀ name x, r.findMappingMacro name = some x → P x.readValueId ∧ P x.valueId)
    (h : ∀ n ∈ i.typedNodes, P n) (hleads : ∀ n ∈ i.nodes, r.Leads P n) :
    Visits P (visitInstance r i) i.typedNodes i.ids := by
  obtain ⟨x, hx⟩ := htarget
  simp only [Instance.typedNodes, List.forall_mem_append] at h
  simp only [Instance.nodes, Mapping.nodes, List.forall_mem_append, List.forall_mem_flatMap]
    at hleads
  obtain ⟨⟨hname, hargs⟩, hmappings⟩ := h
  obtain ⟨⟨⟨hname', _⟩, hargs'⟩, hmappings'⟩ := hleads
  have hmapping : ∀ m ∈ i.mappings, Visits P (visitMapping r i.args x.params m)
      m.variableExpr.nodes m.variableExpr.ids := by
    intro m hm
    have hvariable := List.forall_mem_flatMap.mp hmappings m hm
    exact visits_visitMapping i.args x.params m hmacros
      (Registry.safe_of_forall hvariable (hmappings' m hm).1)
  unfold visitInstance
  simp only [hx]
  refine ((visits_declare _ i.name (Registry.safe_of_forall hname hname')).bind fun _ =>
    (visits_demandIdentity (hname i.name.id List.mem_cons_self)).bind fun _ =>
    (visits_inferList _ i.args (Registry.safe_of_forall hargs hargs')).bind fun _ =>
    (quiet_typeOf (harchetypes _ x hx)).bind fun _ => (visits_demand (by simp) _ _ _).bind fun _ =>
    visits_forM hmapping).congr ?_ ?_
  · simp only [Instance.typedNodes, List.mem_append]
    tauto
  · simp [Instance.ids]

/-! ## The whole -/

/-- What a registry without reports knows of an algorithm: names refer to nodes with
the predicate, and definitions that are found by name are at such nodes. -/
structure Tracks (r : Registry) (a : Algorithm) (P : NodeId → Prop) : Prop where
  constants : r.constants = a.constants
  leads : ∀ n ∈ a.nodes, r.Leads P n
  values : ∀ c ∈ a.constants, ∀ value, r.constantValue c.id = some value →
    ∀ n ∈ value.nodes, r.Leads P n
  targets : ∀ i ∈ a.instances, ∃ x, r.findArchetype i.target = some x
  archetypes : ∀ name x, r.findArchetype name = some x → P x.id
  mappingMacros : ∀ name x, r.findMappingMacro name = some x → P x.readValueId ∧ P x.valueId

theorem mem_signatures {a : Algorithm} {n : NodeId} (hn : n ∈ a.units.map (·.id) ++
    a.procedures.map (·.id) ++ a.archetypes.map (·.id)) : n ∈ a.typedNodes r := by
  simp only [List.mem_append, List.mem_map, or_assoc] at hn
  simp only [Algorithm.typedNodes, List.mem_append, List.mem_flatMap]
  rcases hn with ⟨d, hd, rfl⟩ | ⟨p, hp, rfl⟩ | ⟨x, hx, rfl⟩
  · refine .inr (.inl (.inl (.inl (.inl (.inl (.inr ⟨d, hd, ?_⟩))))))
    rw [Expr.definitionNodes_eq]
    exact List.mem_cons_self
  · exact .inr (.inl (.inl (.inl (.inl (.inr ⟨p, hp, by simp [Procedure.typedNodes]⟩)))))
  · exact .inr (.inl (.inl (.inl (.inr ⟨x, hx, by simp [Archetype.typedNodes]⟩))))

/-- The constraints of an algorithm cover its typed nodes. -/
theorem visits_visitAlgorithm (a : Algorithm) (hr : Tracks r a P)
    (h : ∀ n ∈ a.typedNodes r, P n) :
    Visits P (visitAlgorithm r a) (a.typedNodes r)
      (a.constants.flatMap (constantIds r) ++ a.ids) := by
  have hsignatures : Visits P ((a.units.map (·.id) ++ a.procedures.map (·.id) ++
      a.archetypes.map (·.id)).forM fun id => do let _ ← varOf id) [] [] :=
    quiet_forM fun n hn => ((visits_varOf (h n (mem_signatures hn))).bind fun _ =>
      visits_pure ()).congr nofun fun _ => rfl
  have hleads := hr.leads
  simp only [Algorithm.nodes, List.forall_mem_append] at hleads
  obtain ⟨_, ⟨⟨⟨⟨⟨⟨hglobals, hunits⟩, hprocedures⟩, harchetypes⟩, hmacros⟩, hinstances⟩,
    hprocesses⟩⟩ := hleads
  simp only [Algorithm.typedNodes, List.forall_mem_append] at h
  obtain ⟨hconstants', ⟨⟨⟨⟨⟨⟨hglobals', hunits'⟩, hprocedures'⟩, harchetypes'⟩, hmacros'⟩,
    hinstances'⟩, hprocesses'⟩⟩ := h
  have hconstants : Visits P (a.constants.forM (visitConstant r)) _ _ := visits_forM fun c hc => by
    obtain ⟨hid, hvalue⟩ := List.forall_mem_cons.mp (List.forall_mem_flatMap.mp hconstants' c hc)
    refine visits_visitConstant c hid fun value h => ?_
    rw [h] at hvalue
    exact Registry.safe_of_forall hvalue (hr.values c hc value h)
  have hunits : Visits P (a.units.forM (inferDefinition { registry := r })) _ _ :=
    visits_forM fun d hd => visits_inferDefinition _ d (Registry.safe_of_forall
      (List.forall_mem_flatMap.mp hunits' d hd) (List.forall_mem_flatMap.mp hunits d hd))
  have hprocedures : Visits P (a.procedures.forM (visitProcedure r)) _ _ :=
    visits_forM fun p hp => visits_visitProcedure p
      (List.forall_mem_flatMap.mp hprocedures' p hp) (List.forall_mem_flatMap.mp hprocedures p hp)
  have harchetypes : Visits P (a.archetypes.forM (visitArchetype r)) _ _ :=
    visits_forM fun x hx => visits_visitArchetype x
      (List.forall_mem_flatMap.mp harchetypes' x hx) (List.forall_mem_flatMap.mp harchetypes x hx)
  have hmacros : Visits P (a.mappingMacros.forM (visitMappingMacro r)) _ _ :=
    visits_forM fun m hm => visits_visitMappingMacro m
      (List.forall_mem_flatMap.mp hmacros' m hm) (List.forall_mem_flatMap.mp hmacros m hm)
  have hinstances : Visits P (a.instances.forM (visitInstance r)) _ _ :=
    visits_forM fun i hi => visits_visitInstance i (hr.targets i hi) hr.archetypes
      hr.mappingMacros (List.forall_mem_flatMap.mp hinstances' i hi)
      (List.forall_mem_flatMap.mp hinstances i hi)
  unfold visitAlgorithm
  rw [hr.constants]
  refine (hsignatures.bind fun _ => hconstants.bind fun _ => (visits_declareAll { registry := r }
    a.globals (Registry.safe_of_forall hglobals' hglobals)).bind fun _ => hunits.bind fun _ =>
    hprocedures.bind fun _ => harchetypes.bind fun _ => hmacros.bind fun _ => hinstances.bind
    fun _ => visits_visitProcesses a.processes hprocesses' hprocesses).congr ?_ ?_
  · simp [Algorithm.typedNodes]
  · simp [Algorithm.ids]

end Drafting

end PlusCalTyping
