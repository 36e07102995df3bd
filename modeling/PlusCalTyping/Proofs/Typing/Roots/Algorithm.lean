import PlusCalTyping.Proofs.Typing.Roots.Expr
import PlusCalTyping.Proofs.Typing.Coverage.Algorithm

/-! # Roots of the constraints of an algorithm

Statements, bodies and signatures are gone through like expressions: the constraints
that come up are rooted in the nodes of the part, in the identities around it and in
what the registry leads to. So the constraints of a whole algorithm are rooted in its
nodes and in those of the values of its constants (`Drafting.roots_visitAlgorithm`).
-/

namespace PlusCalTyping.Drafting

variable {P : NodeId → Prop} {around : Surroundings} {r : Registry} {n : NodeId}

/-! ## Statements -/

theorem roots_declare (hr : around.registry.Rooted P) (d : Decl) (h : ∀ n ∈ d.nodes, P n) :
    Roots P (declare around d) (·.Rooted P) := by
  obtain ⟨id, name, init⟩ := d
  obtain ⟨hid, hinit⟩ := List.forall_mem_cons.mp h
  unfold declare
  refine (roots_typeOf hid).bind fun v hv => ?_
  have hrest : Roots P (do record id .declaration v name; return v) (·.Rooted P) :=
    (roots_record _ _ _ _).bind fun _ _ => roots_pure hv
  cases init with
  | none => exact hrest
  | some init =>
    cases init with
    | value e =>
      exact (roots_infer hr e hinit).bind fun _ ht =>
        (roots_demand hid hv ht _).bind fun _ _ => hrest
    | member e =>
      refine (roots_infer hr e hinit).bind fun _ ht => roots_fresh.bind fun _ hu => ?_
      have hset := Ty.rooted_set.mpr ⟨Origins.rooted_single.mpr hid, hu⟩
      exact (roots_demand hid hset ht _).bind fun _ _ =>
        (roots_demand hid hv hu _).bind fun _ _ => hrest

theorem roots_declareAll (hr : around.registry.Rooted P) (ds : List Decl)
    (h : ∀ n ∈ ds.flatMap Decl.nodes, P n) : Roots P (declareAll around ds) fun _ => True :=
  roots_forM fun d hd => (roots_declare hr d (List.forall_mem_flatMap.mp h d hd)).bind
    fun _ _ => roots_pure trivial

theorem roots_check (hr : around.registry.Rooted P) (e : Expr) (h : ∀ n ∈ e.nodes, P n) :
    Roots P (check around e) fun _ => True :=
  (roots_infer hr e h).bind fun _ ht => roots_demandBool (h _ e.id_mem_nodes) ht

theorem roots_targetType (hr : around.registry.Rooted P) (e : Expr) (h : ∀ n ∈ e.nodes, P n) :
    Roots P (targetType around e) (·.Rooted P) := by
  induction e using targetType.induct with
  | case1 id name =>
    rw [targetType]
    exact (roots_nameType (hr.leads id) _).bind fun _ ht =>
      roots_settle (h id List.mem_cons_self) ht
  | case2 id func args ih =>
    rw [targetType]
    simp only [Expr.nodes, List.forall_mem_cons, List.forall_mem_append] at h
    obtain ⟨hid, hfunc, hargs⟩ := h
    exact (ih hfunc).bind fun _ ht => (roots_inferList hr args hargs).bind fun _ hts =>
      roots_applied hid ht hts fun _ hu => roots_settle hid hu
  | case3 e hident happly =>
    rw [targetType]
    · exact roots_infer hr e h
    · exact hident
    · exact happly

theorem roots_assign (hr : around.registry.Rooted P) (a : Assignment)
    (h : ∀ n ∈ a.target.nodes ++ a.value.nodes, P n) :
    Roots P (assign around a) fun _ => True := by
  obtain ⟨htarget, hvalue⟩ := List.forall_mem_append.mp h
  exact (roots_targetType hr a.target htarget).bind fun _ ht =>
    (roots_infer hr a.value hvalue).bind fun _ hu =>
    roots_demand (hvalue _ a.value.id_mem_nodes) ht hu _

theorem roots_demandCaller (h : around.Rooted P) {call : NodeId} (hcall : P call)
    (procedure : String) : Roots P (demandCaller around call procedure) fun _ => True := by
  unfold demandCaller
  cases hself : around.self with
  | none => exact roots_pure trivial
  | some caller =>
    cases hcallee : around.registry.findProcedure procedure with
    | none => exact roots_pure trivial
    | some callee =>
      simp only [Option.map_some]
      split
      · exact (roots_typeOf (h.registry.procedures procedure callee hcallee)).bind fun _ ht =>
          (roots_typeOf (h.self caller hself)).bind fun _ hu => roots_demand hcall ht hu _
      · exact roots_pure trivial

theorem roots_checkCall (h : around.Rooted P) {id : NodeId} (hid : P id) (procedure : String)
    (args : List Expr) (hargs : ∀ n ∈ Expr.listNodes args, P n) :
    Roots P (checkCall around id procedure args) fun _ => True := by
  unfold checkCall
  refine (roots_inferList h.registry args hargs).bind fun _ hts => ?_
  cases hdecl : around.registry.followReference id with
  | none => exact roots_pure trivial
  | some decl =>
    have hcalled := Ty.rooted_procedure.mpr ⟨Origins.rooted_single.mpr hid, hts⟩
    exact (roots_typeOf (h.registry.leads id decl hdecl)).bind fun _ hs =>
      (roots_demand hid hs hcalled _).bind fun _ _ => roots_demandCaller h hid procedure

theorem roots_checkYield (h : around.Rooted P) (e : Expr) (he : ∀ n ∈ e.nodes, P n) :
    Roots P (checkYield around e) fun _ => True := by
  refine (roots_infer h.registry e he).bind fun _ ht => ?_
  split
  · next hrole => exact roots_demand (he _ e.id_mem_nodes) (h.yielded _ (.inl hrole)) ht _
  · next hrole => exact roots_demand (he _ e.id_mem_nodes) (h.yielded _ (.inr hrole)) ht _
  · exact roots_pure trivial
  · exact roots_pure trivial

mutual

theorem roots_checkStmt (ha : around.Rooted P) : (s : Stmt) → (∀ n ∈ s.nodes, P n) →
    Roots P (checkStmt around s) fun _ => True
  | .labeled _ _ body, h => by
    rw [checkStmt]
    exact roots_checkStmts ha body (List.forall_mem_cons.mp h).2
  | .assign _ pairs, h => by
    rw [checkStmt]
    obtain ⟨_, hpairs⟩ := List.forall_mem_cons.mp h
    exact roots_forM fun p hp =>
      roots_assign ha.registry p (List.forall_mem_flatMap.mp hpairs p hp)
  | .ret _, _ | .skip _, _ | .goto _ _, _ => by
    rw [checkStmt]
    exact roots_pure trivial
  | .ite _ condition thenBranch elseBranch, h => by
    rw [checkStmt]
    simp only [Stmt.nodes, List.forall_mem_cons, List.forall_mem_append] at h
    obtain ⟨_, ⟨hcondition, hthen⟩, helse⟩ := h
    exact (roots_check ha.registry condition hcondition).bind fun _ _ =>
      (roots_checkStmts ha thenBranch hthen).bind fun _ _ =>
      roots_checkStmts ha elseBranch helse
  | .either _ branches, h => by
    rw [checkStmt]
    exact roots_checkBranches ha branches (List.forall_mem_cons.mp h).2
  | .whileDo _ condition body, h => by
    rw [checkStmt]
    simp only [Stmt.nodes, List.forall_mem_cons, List.forall_mem_append] at h
    obtain ⟨_, hcondition, hbody⟩ := h
    exact (roots_check ha.registry condition hcondition).bind fun _ _ =>
      roots_checkStmts ha body hbody
  | .withDo _ decls body, h => by
    rw [checkStmt]
    simp only [Stmt.nodes, List.forall_mem_cons, List.forall_mem_append] at h
    obtain ⟨_, hdecls, hbody⟩ := h
    exact (roots_declareAll ha.registry decls hdecls).bind fun _ _ =>
      roots_checkStmts ha body hbody
  | .print _ e, h => by
    rw [checkStmt]
    exact (roots_infer ha.registry e (List.forall_mem_cons.mp h).2).bind fun _ _ =>
      roots_pure trivial
  | .assert _ e, h | .await _ e, h => by
    rw [checkStmt]
    exact roots_check ha.registry e (List.forall_mem_cons.mp h).2
  | .call _ procedure args, h => by
    rw [checkStmt]
    obtain ⟨hid, hargs⟩ := List.forall_mem_cons.mp h
    exact roots_checkCall ha hid procedure args hargs
  | .yield _ e, h => by
    rw [checkStmt]
    exact roots_checkYield ha e (List.forall_mem_cons.mp h).2

theorem roots_checkStmts (ha : around.Rooted P) : (ss : List Stmt) →
    (∀ n ∈ Stmt.listNodes ss, P n) → Roots P (checkStmts around ss) fun _ => True
  | [], _ => by
    rw [checkStmts]
    exact roots_pure trivial
  | s :: ss, h => by
    rw [checkStmts]
    obtain ⟨hs, hss⟩ := List.forall_mem_append.mp h
    exact (roots_checkStmt ha s hs).bind fun _ _ => roots_checkStmts ha ss hss

theorem roots_checkBranches (ha : around.Rooted P) : (bs : List (List Stmt)) →
    (∀ n ∈ Stmt.branchesNodes bs, P n) → Roots P (checkBranches around bs) fun _ => True
  | [], _ => by
    rw [checkBranches]
    exact roots_pure trivial
  | b :: bs, h => by
    rw [checkBranches]
    obtain ⟨hb, hbs⟩ := List.forall_mem_append.mp h
    exact (roots_checkStmts ha b hb).bind fun _ _ => roots_checkBranches ha bs hbs

end

/-! ## Parts of an algorithm -/

theorem rooted_outside (hr : r.Rooted P) : Surroundings.Rooted P { registry := r } :=
  ⟨hr, nofun, by simp⟩

/-- What a body sees with its identity. Only mapping macros yield something. -/
theorem rooted_inside (hr : r.Rooted P) (hself : P n) {role : Role}
    (hrole : ∀ t, role ≠ .macroRead t ∧ role ≠ .macroWrite t) :
    Surroundings.Rooted P { registry := r, role, self := some n } :=
  ⟨hr, fun _ hn => Option.some.inj hn ▸ hself,
    fun t h => h.elim (absurd · (hrole t).1) (absurd · (hrole t).2)⟩

theorem roots_visitConstant (hr : r.Rooted P) {c : Node String} (hc : P c.id) :
    Roots P (visitConstant r c) fun _ => True := by
  refine (roots_typeOf hc).bind fun _ ht => ?_
  cases hvalue : r.constantValue c.id with
  | none => exact roots_pure trivial
  | some value =>
    have h := hr.values c.id value hvalue
    exact (roots_infer (rooted_outside hr).registry value h).bind fun _ hu =>
      roots_demand (h _ value.id_mem_nodes) ht hu _

theorem roots_demandSignature (hn : P n) (name : String) {params : List Ty}
    (hparams : ∀ t ∈ params, t.Rooted P) (reason : Reason) :
    Roots P (demandSignature n name params reason) fun _ => True :=
  (roots_typeOf hn).bind fun _ hs => (roots_record _ _ _ _).bind fun _ _ =>
    roots_demand hn hs (Ty.rooted_procedure.mpr ⟨Origins.rooted_single.mpr hn, hparams⟩) _

theorem roots_visitProcedure (hr : r.Rooted P) (p : Procedure) (h : ∀ n ∈ p.nodes, P n) :
    Roots P (visitProcedure r p) fun _ => True := by
  simp only [Procedure.nodes, bodyNodes, List.flatMap_append, List.forall_mem_cons,
    List.forall_mem_append] at h
  obtain ⟨hid, hself, ⟨hparams, hlocals⟩, hbody⟩ := h
  let around : Surroundings := { registry := r, self := some p.selfId }
  have ha : around.Rooted P := rooted_inside hr hself fun _ => by simp
  have hrest : Roots P (do
      let params ← p.params.mapM (declare around)
      declareAll around p.locals
      checkStmts around p.body
      demandSignature p.id p.name params .procedureSignature) fun _ => True :=
    (roots_mapM fun d hd => roots_declare hr d (List.forall_mem_flatMap.mp hparams d hd)).bind
      fun _ hts => (roots_declareAll hr p.locals hlocals).bind fun _ _ =>
      (roots_checkStmts ha p.body hbody).bind fun _ _ => roots_demandSignature hid _ hts _
  unfold visitProcedure
  dsimp only
  split
  · exact (roots_demandIdentity hself).bind fun _ _ => hrest
  · exact hrest

theorem roots_addSlots (x : Param) : Roots P (addSlots x) fun _ => True :=
  fun _ hd => ⟨⟨hd.vars, hd.constraints⟩, trivial⟩

theorem roots_visitParam (hr : r.Rooted P) (x : Param) (index : Nat)
    (h : ∀ n ∈ x.decl.nodes, P n) : Roots P (visitParam r x index) (·.Rooted P) := by
  have hid := h x.decl.id List.mem_cons_self
  refine (roots_declare hr x.decl h).bind fun _ ht => roots_get.bind fun _ _ => ?_
  split
  · exact (roots_demand hid ht (Ty.rooted_var _) _).bind fun _ _ =>
      (roots_demand hid ht (Ty.rooted_var _) _).bind fun _ _ => roots_pure ht
  · exact roots_pure ht

theorem roots_visitParams (hr : r.Rooted P) (xs : List Param) (index : Nat)
    (h : ∀ n ∈ (xs.map (·.decl)).flatMap Decl.nodes, P n) :
    Roots P (visitParams r xs index) fun ts => ∀ t ∈ ts, t.Rooted P := by
  induction xs generalizing index with
  | nil => exact roots_pure (List.forall_mem_nil _)
  | cons x xs ih =>
    rw [visitParams]
    obtain ⟨hx, hxs⟩ := List.forall_mem_append.mp h
    exact (roots_visitParam hr x index hx).bind fun _ ht => (ih (index + 1) hxs).bind
      fun _ hts => roots_pure (List.forall_mem_cons.mpr ⟨ht, hts⟩)

theorem roots_visitArchetype (hr : r.Rooted P) (x : Archetype) (h : ∀ n ∈ x.nodes, P n) :
    Roots P (visitArchetype r x) fun _ => True := by
  simp only [Archetype.nodes, bodyNodes, List.flatMap_append, List.forall_mem_cons,
    List.forall_mem_append] at h
  obtain ⟨hid, hself, ⟨hparams, hlocals⟩, hbody⟩ := h
  let around : Surroundings := ⟨r, .archetype (x.params.map (·.decl.id)), some x.selfId⟩
  have ha : around.Rooted P := rooted_inside hr hself fun _ => by simp
  exact (roots_forM fun y _ => roots_addSlots y).bind fun _ _ =>
    (roots_demandIdentity hself).bind fun _ _ =>
    (roots_visitParams hr x.params 0 hparams).bind fun _ hts =>
    (roots_declareAll ha.registry x.locals hlocals).bind fun _ _ =>
    (roots_checkStmts ha x.body hbody).bind fun _ _ => roots_demandSignature hid _ hts _

theorem roots_visitMappingMacro (hr : r.Rooted P) (m : MappingMacro) (h : ∀ n ∈ m.nodes, P n) :
    Roots P (visitMappingMacro r m) fun _ => True := by
  simp only [MappingMacro.nodes, bodyNodes, List.flatMap_nil, List.nil_append,
    List.forall_mem_append, List.forall_mem_cons] at h
  obtain ⟨⟨_, hvariable, hvalue, hresult, _⟩, hread, hwrite⟩ := h
  unfold visitMappingMacro
  refine (roots_typeOf hvariable).bind fun stored hs => (roots_typeOf hvalue).bind fun _ _ =>
    (roots_typeOf hresult).bind fun result ht => ?_
  refine (roots_checkStmts ⟨hr, nofun, fun t ht' => ?_⟩ m.readBody hread).bind fun _ _ =>
    roots_checkStmts ⟨hr, nofun, fun t ht' => ?_⟩ m.writeBody hwrite
  · rcases ht' with heq | heq <;> cases heq
    exact ht
  · rcases ht' with heq | heq <;> cases heq
    exact hs

theorem roots_visitMapping (hr : r.Rooted P) (args : List Expr) (params : List Param)
    (m : Mapping) (h : ∀ n ∈ m.nodes, P n) :
    Roots P (visitMapping r args params m) fun _ => True := by
  obtain ⟨hvariable, hid⟩ := List.forall_mem_append.mp h
  have hid := hid m.id List.mem_cons_self
  refine (roots_infer (rooted_outside hr).registry m.variableExpr hvariable).bind fun _ _ => ?_
  split
  · split
    · split
      · next x hx =>
        obtain ⟨hread, hvalue⟩ := hr.mappingMacros _ x hx
        refine roots_get.bind fun _ _ => ?_
        split
        · exact (roots_typeOf hread).bind fun _ ht =>
            (roots_demand hid (Ty.rooted_var _) ht _).bind fun _ _ =>
            (roots_typeOf hvalue).bind fun _ hu => roots_demand hid (Ty.rooted_var _) hu _
        · exact roots_pure trivial
      · exact roots_pure trivial
    · exact roots_pure trivial
  · exact roots_pure trivial

theorem roots_visitInstance (hr : r.Rooted P) (i : Instance) (h : ∀ n ∈ i.nodes, P n) :
    Roots P (visitInstance r i) fun _ => True := by
  simp only [Instance.nodes, List.forall_mem_append] at h
  obtain ⟨⟨⟨hname, hid⟩, hargs⟩, hmappings⟩ := h
  have hid := hid i.id List.mem_cons_self
  have hout := rooted_outside hr
  unfold visitInstance
  refine (roots_declare hout.registry i.name hname).bind fun _ _ =>
    (roots_demandIdentity (hname i.name.id List.mem_cons_self)).bind fun _ _ =>
    (roots_inferList hout.registry i.args hargs).bind fun _ hts => ?_
  split
  · next x hx =>
    have hpassed := Ty.rooted_procedure.mpr ⟨Origins.rooted_single.mpr hid, hts⟩
    exact (roots_typeOf (hr.archetypes _ x hx)).bind fun _ hs =>
      (roots_demand hid hs hpassed _).bind fun _ _ => roots_forM fun m hm =>
      roots_visitMapping hr i.args x.params m (List.forall_mem_flatMap.mp hmappings m hm)
  · exact roots_pure trivial

theorem roots_visitProcess (hr : r.Rooted P) (p : Process) (h : ∀ n ∈ p.nodes, P n) :
    Roots P (visitProcess r p) fun _ => True := by
  simp only [Process.nodes, bodyNodes, List.forall_mem_cons, List.forall_mem_append] at h
  obtain ⟨_, hname, hlocals, hbody⟩ := h
  have hself := hname p.name.id List.mem_cons_self
  let around : Surroundings := { registry := r, self := some p.name.id }
  have ha : around.Rooted P := rooted_inside hr hself fun _ => by simp
  exact (roots_declare (rooted_outside hr).registry p.name hname).bind fun _ _ =>
    (roots_demandIdentity hself).bind fun _ _ =>
    (roots_declareAll ha.registry p.locals hlocals).bind fun _ _ =>
    roots_checkStmts ha p.body hbody

theorem roots_visitProcesses (hr : r.Rooted P) (ps : Processes) (h : ∀ n ∈ ps.nodes, P n) :
    Roots P (visitProcesses r ps) fun _ => True := by
  cases ps with
  | single body => exact roots_checkStmts (rooted_outside hr) body h
  | multi ps =>
    exact roots_forM fun p hp => roots_visitProcess hr p (List.forall_mem_flatMap.mp h p hp)

/-! ## The whole -/

theorem roots_visitAlgorithm (hr : r.Rooted P) (a : Algorithm) (h : ∀ n ∈ a.nodes, P n) :
    Roots P (visitAlgorithm r a) fun _ => True := by
  simp only [Algorithm.nodes, List.forall_mem_append] at h
  obtain ⟨_, ⟨⟨⟨⟨⟨⟨hglobals, hunits⟩, hprocedures⟩, harchetypes⟩, hmacros⟩, hinstances⟩,
    hprocesses⟩⟩ := h
  rw [List.forall_mem_flatMap] at hunits hprocedures harchetypes hmacros hinstances
  have hsignatures : ∀ n ∈ a.units.map (·.id) ++ a.procedures.map (·.id) ++
      a.archetypes.map (·.id), P n := by
    refine List.forall_mem_append.mpr ⟨List.forall_mem_append.mpr ⟨?_, ?_⟩, ?_⟩
    · refine List.forall_mem_map.mpr fun d hd => hunits d hd d.id ?_
      rw [Expr.definitionNodes_eq]
      exact List.mem_cons_self
    · exact List.forall_mem_map.mpr fun p hp => hprocedures p hp p.id List.mem_cons_self
    · exact List.forall_mem_map.mpr fun x hx => harchetypes x hx x.id List.mem_cons_self
  have hout := rooted_outside hr
  unfold visitAlgorithm
  exact (roots_forM fun n hn => (roots_varOf (hsignatures n hn)).bind
      fun _ _ => roots_pure trivial).bind fun _ _ =>
    (roots_forM fun c hc => roots_visitConstant hr (hr.constants c hc)).bind fun _ _ =>
    (roots_declareAll hout.registry a.globals hglobals).bind fun _ _ =>
    (roots_forM fun d hd => roots_inferDefinition hout.registry d (hunits d hd)).bind fun _ _ =>
    (roots_forM fun p hp => roots_visitProcedure hr p (hprocedures p hp)).bind fun _ _ =>
    (roots_forM fun x hx => roots_visitArchetype hr x (harchetypes x hx)).bind fun _ _ =>
    (roots_forM fun m hm => roots_visitMappingMacro hr m (hmacros m hm)).bind fun _ _ =>
    (roots_forM fun i hi => roots_visitInstance hr i (hinstances i hi)).bind fun _ _ =>
    roots_visitProcesses hr a.processes hprocesses

end PlusCalTyping.Drafting
