import PlusCalTyping.Proofs.Typing.Soundness.Stmt

/-! # Soundness of the constraints of algorithms

The parts of an algorithm are gone through in order, and only archetypes touch
the slots: each makes slots for its parameters and ties them to the types of
the parameters before its body is read. So in what follows every parameter has
slots of its own type, which mappings of instances then relate to the types of
a mapping macro (`soundTop_visitAlgorithm`).
-/

namespace PlusCalTyping

theorem Scope.declUses_append (scope : Scope) (ds es : List Decl) :
    scope.declUses (ds ++ es) = scope.declUses ds ++ (scope.declareDecls ds).declUses es := by
  induction ds generalizing scope with
  | nil => rfl
  | cons d ds ih =>
    rw [List.cons_append, declUses, ih, declUses, List.append_assoc]
    rfl

/-- All slots have the types of their parameters. -/
def Reading.Ties (ρ : Reading) (S : NodeMap Slots) : Prop :=
  ∀ (n : NodeId) (s : Slots), S[n]? = some s →
    ρ.Knows n (.var s.read) ∧ ρ.Knows n (.var s.written)

theorem Reading.Ties.shows {ρ : Reading} {S : NodeMap Slots} (h : ρ.Ties S)
    (around : Surroundings) : ρ.Shows around S := fun _ _ n _ s hs => h n s hs

theorem Reading.shows_of_general {ρ : Reading} {S : NodeMap Slots} {around : Surroundings}
    (h : around.role = .general) : ρ.Shows around S := by
  intro params hrole
  cases h.symm.trans hrole

theorem Reading.shows_of_macro {ρ : Reading} {S : NodeMap Slots} {around : Surroundings} {t : Ty}
    (h : around.role = .macroRead t ∨ around.role = .macroWrite t) : ρ.Shows around S := by
  intro params hrole
  rcases h with h | h <;> cases h.symm.trans hrole

namespace Drafting

variable {ρ : Reading} {S : NodeMap Slots} {r : Registry}

theorem sound_get : Sound ρ S get (fun d => d.slots = S) fun _ => True :=
  fun d hd hS => ⟨hd, hS, .refl d, hS, fun _ => trivial⟩

theorem regular_of_role_general {around : Surroundings} (h : around.role = .general) :
    around.Regular := by
  rintro t (ht | ht) <;> cases h.symm.trans ht

theorem regular_of_role_archetype {around : Surroundings} {params : List NodeId}
    (h : around.role = .archetype params) : around.Regular := by
  rintro t (ht | ht) <;> cases h.symm.trans ht

theorem sound_mapM_declare (around : Surroundings) (ds : List Decl) :
    Sound ρ S (ds.mapM (declare around)) (fun ts => ∀ t ∈ ts, t.Determined)
      fun ts => List.Forall₂ (fun n t => ρ.Knows n t) (ds.map (·.id)) ts ∧
        ∀ d ∈ ds, ρ.Grants around S (fun scope => scope.initUses d)
          (ρ.types.DeclTyped around.registry d) := by
  induction ds with
  | nil => exact sound_pure (List.forall_mem_nil _) ⟨.nil, List.forall_mem_nil _⟩
  | cons d ds ih =>
    rw [List.mapM_cons]
    refine (sound_declare around d).bind fun t ht => ih.bind fun ts hts => sound_pure ?_ ?_
    · exact List.forall_mem_cons.mpr ⟨ht, hts⟩
    · rintro ⟨hknows, hds⟩ ⟨hknow, hd⟩
      exact ⟨.cons hknow hknows, List.forall_mem_cons.mpr ⟨hd, hds⟩⟩

theorem uses_procedure_iff {ts : List Ty} {o : Origins} :
    ρ.Uses (.procedure ts o) ↔ ∀ t ∈ ts, ρ.Uses t := by
  simp only [Reading.Uses, Ty.vars, Ty.varsList_eq, List.mem_flatMap]
  grind

theorem sound_demandSignature (id : NodeId) (name : String) {ts : List Ty}
    (hts : ∀ t ∈ ts, t.Determined) (reason : Reason) :
    Sound ρ S (demandSignature id name ts reason) (fun _ => True)
      fun _ => ∀ ns, List.Forall₂ (fun n t => ρ.Knows n t) ns ts →
        ρ.types.SignatureTyped id ns := by
  unfold demandSignature
  apply (sound_typeOf id).bind
  intro signature hs
  apply (sound_record id .signature _ name).bind
  intro _ _
  apply (sound_demand (Ty.determined_of_isVar hs) (Ty.determined_procedure.mpr hts) id
    reason).mono (fun _ h => h)
  rintro _ _ ⟨huses, hparams, hagrees⟩ _ hknows ns hns
  refine ⟨_, hasAll_of_knows hns (uses_procedure_iff.mp hparams), ?_⟩
  rw [Reading.value_procedure] at hagrees
  exact ((hknows huses).congr hagrees).congr (Ty.agrees_refl (.procedure _ .none))

/-! ## Constants, procedures and processes -/

theorem sound_visitConstant (c : Node String) :
    Sound ρ S (visitConstant r c) (fun _ => True)
      fun _ => (∀ value, r.constantValue c.id = some value →
        ∃ scope : Scope, r.Resolves (scope.exprUses value)) → ρ.types.ConstantTyped r c := by
  unfold visitConstant
  apply (sound_typeOf c.id).bind
  intro v hv
  split
  · next value hvalue =>
    apply (sound_infer _ value).bind
    intro t ht
    apply (sound_demand (Ty.determined_of_isVar hv) ht value.id .constantValue).mono
      (fun _ h => h)
    rintro _ _ ⟨huses, _, hagrees⟩ ⟨he, htyped⟩ hknows hresolves value' hvalue'
    cases hvalue.symm.trans hvalue'
    obtain ⟨scope, h⟩ := hresolves value hvalue
    exact ⟨htyped (Reading.shows_of_general rfl) scope h, (hknows huses).share he hagrees⟩
  · next hnone =>
    exact sound_pure trivial fun _ _ value hvalue => absurd hvalue (hnone value)

theorem sound_visitProcedure (p : Procedure) :
    Sound ρ S (visitProcedure r p) (fun _ => True)
      fun _ => ∀ a : Algorithm, r.Resolves (a.procedureUses p) → ρ.types.ProcedureTyped r p := by
  have hrest : Sound ρ S (do
      let params ← p.params.mapM (declare { registry := r, self := some p.selfId })
      declareAll { registry := r, self := some p.selfId } p.locals
      checkStmts { registry := r, self := some p.selfId } p.body
      demandSignature p.id p.name params .procedureSignature) (fun _ => True)
      fun _ => (r.isReferenced p.selfId → ρ.types.HasIdentity p.selfId) →
        ∀ a : Algorithm, r.Resolves (a.procedureUses p) → ρ.types.ProcedureTyped r p := by
    apply (sound_mapM_declare _ p.params).bind
    intro ts hts
    apply (sound_declareAll _ p.locals).bind
    intro _ _
    apply (sound_checkStmts _ (regular_of_role_general rfl) { self := some p.selfId }
      p.body).bind
    intro _ _
    apply (sound_demandSignature p.id p.name hts .procedureSignature).mono (fun _ h => h)
    rintro _ _ hsignature hbody hlocals ⟨hknows, hparams⟩ hidentity a h
    have hshows : ρ.Shows { registry := r, self := some p.selfId } S :=
      Reading.shows_of_general rfl
    simp only [Algorithm.procedureUses, Algorithm.bodyUses, Scope.declUses_append,
      Registry.resolves_append] at h
    exact ⟨hidentity, grants_declUses _ hparams hshows _ h.1.1,
      grants_declUses _ hlocals hshows _ h.1.2,
      hbody (Reading.places_of_yields_eq_none rfl rfl) _ hshows _ h.2, hsignature _ hknows⟩
  unfold visitProcedure
  dsimp only
  split
  · refine (sound_demandIdentity p.selfId).bind fun _ _ => hrest.mono (fun _ h => h) ?_
    exact fun _ _ h hidentity => h fun _ => hidentity
  · next hreferenced =>
    exact hrest.mono (fun _ h => h) fun _ _ h => h fun href => absurd href hreferenced

theorem sound_visitMappingMacro (m : MappingMacro) :
    Sound ρ S (visitMappingMacro r m) (fun _ => True)
      fun _ => ∀ a : Algorithm, r.Resolves (a.mappingMacroUses m) → ρ.types.MacroTyped r m := by
  have hregular {t : Ty} (ht : t.Determined) {role : Role}
      (hrole : role = .macroRead t ∨ role = .macroWrite t) :
      Surroundings.Regular { registry := r, role := role } := by
    rintro u (hu | hu) <;> rcases hrole with hrole | hrole <;> cases hrole.symm.trans hu <;>
      exact ht
  apply (sound_typeOf m.variableId).bind
  intro stored hs
  apply (sound_typeOf m.valueId).bind
  intro _ _
  apply (sound_typeOf m.readValueId).bind
  intro result ht
  apply (sound_checkStmts _ (hregular (Ty.determined_of_isVar ht) (.inl rfl))
    { yields := some m.readValueId } m.readBody).bind
  intro _ _
  apply (sound_checkStmts _ (hregular (Ty.determined_of_isVar hs) (.inr rfl))
    { yields := some m.variableId } m.writeBody).mono (fun _ h => h)
  intro _ _ hwrite hread hresult _ hstored a h
  simp only [Algorithm.mappingMacroUses, Algorithm.bodyUses, Registry.resolves_append] at h
  constructor
  · refine hread ⟨rfl, ?_⟩ _ (Reading.shows_of_macro (.inl rfl)) _ h.1.2
    rintro n ⟨⟩
    exact ⟨result, .inl rfl, hresult⟩
  · refine hwrite ⟨rfl, ?_⟩ _ (Reading.shows_of_macro (.inr rfl)) _ h.2.2
    rintro n ⟨⟩
    exact ⟨stored, .inr rfl, hstored⟩

theorem sound_visitProcess (p : Process) :
    Sound ρ S (visitProcess r p) (fun _ => True)
      fun _ => ∀ a : Algorithm, r.Resolves (a.processUses p) → ρ.types.ProcessTyped r p := by
  apply (sound_declare _ p.name).bind
  intro _ _
  apply (sound_demandIdentity p.name.id).bind
  intro _ _
  apply (sound_declareAll _ p.locals).bind
  intro _ _
  apply (sound_checkStmts _ (regular_of_role_general rfl) { self := some p.name.id }
    p.body).mono (fun _ h => h)
  rintro _ _ hbody hlocals hidentity ⟨_, hname⟩ a h
  simp only [Algorithm.processUses, Algorithm.bodyUses, Registry.resolves_append] at h
  exact ⟨hname (Reading.shows_of_general rfl) _ h.1, hidentity,
    grants_declUses _ hlocals (Reading.shows_of_general rfl) _ h.2.1,
    hbody (Reading.places_of_yields_eq_none rfl rfl) _ (Reading.shows_of_general rfl) _ h.2.2⟩

/-! ## Instances -/

theorem mem_of_paramOf? {args : List Expr} {params : List Param} {global : NodeId} {p : Param}
    (h : paramOf? r args params global = some p) : p ∈ params := by
  obtain ⟨index, _, hindex⟩ := Option.bind_eq_some_iff.mp h
  exact List.mem_of_getElem? hindex

theorem sound_visitMapping (args : List Expr) (params : List Param) (m : Mapping) :
    Sound ρ S (visitMapping r args params m) (fun _ => True)
      fun _ => ρ.Ties S → (∀ p ∈ params, ∃ s, S[p.decl.id]? = some s) → ∀ scope : Scope,
        r.Resolves (scope.exprUses m.variableExpr) → ρ.types.MappingTyped r args params m := by
  unfold visitMapping
  apply (sound_infer _ m.variableExpr).bind
  intro _ _
  refine Sound.mono ?_ (fun _ h => h) fun _ _
    (hparam : ρ.Ties S → (∀ p ∈ params, ∃ s, S[p.decl.id]? = some s) →
      ∀ global p x, r.followReference m.variableExpr.id = some global →
        paramOf? r args params global = some p → p.byRef →
        r.findMappingMacro m.macroName = some x →
        ρ.types.Share p.decl.id x.readValueId ∧ ρ.types.Share p.decl.id x.valueId)
    ⟨_, htyped⟩ hties hslots scope h =>
      ⟨htyped (Reading.shows_of_general rfl) scope h, hparam hties hslots⟩
  split
  · next global hglobal =>
    split
    · next param hparam =>
      obtain ⟨hparam, _⟩ := Option.filter_eq_some_iff.mp hparam
      split
      · next x hx =>
        apply sound_get.bind
        intro d hd
        rw [hd]
        split
        · next s hs =>
          apply (sound_typeOf x.readValueId).bind
          intro t ht
          apply (sound_demand (Ty.determined_var _) (Ty.determined_of_isVar ht) m.id _).bind
          intro _ _
          apply (sound_typeOf x.valueId).bind
          intro u hu
          apply (sound_demand (Ty.determined_var _) (Ty.determined_of_isVar hu) m.id _).mono
            (fun _ h => h)
          rintro _ _ ⟨hwritten, husesu, hagreesu⟩ hknowsu ⟨hread, husest, hagreest⟩ hknowst _
            hties _ global' p x' hglobal' hp _ hx'
          cases hglobal.symm.trans hglobal'
          cases hparam.symm.trans hp
          cases hx.symm.trans hx'
          obtain ⟨hr, hw⟩ := hties _ s hs
          exact ⟨(hr hread).share (hknowst husest) hagreest,
            (hw hwritten).share (hknowsu husesu) hagreesu⟩
        · next hnone =>
          refine sound_pure trivial fun _ _ hslots => ?_
          obtain ⟨s, hs⟩ := hslots param (mem_of_paramOf? hparam)
          exact absurd hs (hnone s)
      · next hnone =>
        refine sound_pure trivial fun _ _ _ _ x _ _ _ hx => absurd hx (hnone x)
    · next hnone =>
      refine sound_pure trivial fun _ _ global' p _ hglobal' hp href _ => ?_
      cases hglobal.symm.trans hglobal'
      exact absurd (Option.filter_eq_some_iff.mpr ⟨hp, href⟩) (hnone p)
  · next hnone =>
    exact sound_pure trivial fun _ _ global _ _ hglobal => absurd hglobal (hnone global)

theorem sound_forM_visitMapping (args : List Expr) (params : List Param) (ms : List Mapping) :
    Sound ρ S (ms.forM (visitMapping r args params)) (fun _ => True)
      fun _ => ρ.Ties S → (∀ p ∈ params, ∃ s, S[p.decl.id]? = some s) → ∀ scope : Scope,
        (∀ m ∈ ms, r.Resolves (scope.exprUses m.variableExpr)) →
        ∀ m ∈ ms, ρ.types.MappingTyped r args params m := by
  induction ms with
  | nil => exact sound_pure trivial fun _ _ _ _ => List.forall_mem_nil _
  | cons m ms ih =>
    refine (sound_visitMapping args params m).bind fun _ _ => ih.mono (fun _ h => h) ?_
    intro _ _ hms hm hties hslots scope h
    obtain ⟨h, hrest⟩ := List.forall_mem_cons.mp h
    exact List.forall_mem_cons.mpr ⟨hm hties hslots scope h, hms hties hslots scope hrest⟩

theorem sound_visitInstance (i : Instance) :
    Sound ρ S (visitInstance r i) (fun _ => True)
      fun _ => ρ.Ties S →
        (∀ x, r.findArchetype i.target = some x → ∀ p ∈ x.params, ∃ s, S[p.decl.id]? = some s) →
        (∃ x, r.findArchetype i.target = some x) → ∀ a : Algorithm, r.Resolves (a.instanceUses i) →
        ρ.types.InstanceTyped r i := by
  apply (sound_declare _ i.name).bind
  intro _ _
  apply (sound_demandIdentity i.name.id).bind
  intro _ _
  apply (sound_inferList _ i.args).bind
  intro ts hts
  split
  · next x hx =>
    apply (sound_typeOf x.id).bind
    intro signature hs
    apply (sound_demand (Ty.determined_of_isVar hs) (Ty.determined_procedure.mpr hts) i.id
      (.instanceArgs x.name)).bind
    intro _ _
    apply (sound_forM_visitMapping i.args x.params i.mappings).mono (fun _ h => h)
    rintro _ _ hmappings ⟨huses, _, hagrees⟩ hknows ⟨hargs, hatyped⟩ hidentity ⟨_, hname⟩
      hties hslots _ a h
    simp only [Algorithm.instanceUses, Registry.resolves_append] at h
    obtain ⟨⟨⟨huname, _⟩, huargs⟩, humappings⟩ := h
    refine ⟨hname (Reading.shows_of_general rfl) _ huname, hidentity,
      hatyped (Reading.shows_of_general rfl) _ huargs, x, hx, ⟨_, hargs, ?_⟩, ?_⟩
    · rw [Reading.value_procedure] at hagrees
      exact ((hknows huses).congr hagrees).congr (Ty.agrees_refl (.procedure _ .none))
    · refine hmappings hties (hslots x hx) a.globalScope fun m hm u hu => humappings u ?_
      exact List.mem_flatMap.mpr ⟨m, hm, List.mem_append_left _ hu⟩
  · next hnone =>
    refine sound_pure trivial fun _ _ _ _ _ hx => ?_
    obtain ⟨x, hx⟩ := hx
    exact absurd hx (hnone x)

/-! ## Archetypes -/

theorem slots_forM_addSlots (ps : List Param) (d : Draft) :
    ((ps.forM addSlots) d).2.collection.constraints = d.collection.constraints ∧
      ((ps.forM addSlots) d).2.vars = d.vars ∧
      ∀ n, (n ∈ ps.map (·.decl.id) ∧ ∃ s, ((ps.forM addSlots) d).2.slots[n]? = some s) ∨
        (n ∉ ps.map (·.decl.id) ∧ ((ps.forM addSlots) d).2.slots[n]? = d.slots[n]?) := by
  induction ps generalizing d with
  | nil => exact ⟨rfl, rfl, fun n => .inr ⟨List.not_mem_nil, rfl⟩⟩
  | cons p ps ih =>
    obtain ⟨hconstraints, hvars, hslots⟩ := ih (addSlots p d).2
    refine ⟨hconstraints, hvars, fun n => ?_⟩
    rw [List.map_cons, List.mem_cons]
    rcases hslots n with ⟨hmem, hs⟩ | ⟨hmem, hs⟩
    · exact .inl ⟨.inr hmem, hs⟩
    · by_cases h : n = p.decl.id
      · subst h
        exact .inl ⟨.inl rfl, _, hs.trans Std.TreeMap.getElem?_insert_self⟩
      · refine .inr ⟨not_or.mpr ⟨h, hmem⟩, hs.trans ?_⟩
        refine Std.TreeMap.getElem?_insert.trans (if_neg fun heq => h ?_)
        exact (Std.LawfulEqCmp.compare_eq_iff_eq.mp heq).symm

theorem sound_visitParam (p : Param) (index : Nat) :
    Sound ρ S (visitParam r p index) (fun t => t.Determined)
      fun t => ρ.Knows p.decl.id t ∧
        ρ.Grants { registry := r } S (fun scope => scope.initUses p.decl)
          (ρ.types.DeclTyped r p.decl) ∧
        ∀ s, S[p.decl.id]? = some s →
          ρ.Knows p.decl.id (.var s.read) ∧ ρ.Knows p.decl.id (.var s.written) := by
  unfold visitParam
  refine (sound_declare _ p.decl).bind fun t ht => sound_get.bind fun d hd => ?_
  rw [hd]
  split
  · next s hs =>
    apply (sound_demand ht (Ty.determined_var _) _ _).bind
    intro _ _
    refine (sound_demand ht (Ty.determined_var _) _ _).bind fun _ _ => sound_pure ht ?_
    rintro ⟨_, _, hwritten⟩ ⟨huses, _, hread⟩ _ ⟨hknows, htyped⟩
    refine ⟨hknows, htyped, ?_⟩
    intro s' hs'
    cases hs.symm.trans hs'
    exact ⟨fun _ => (hknows huses).congr hread, fun _ => (hknows huses).congr hwritten⟩
  · next hnone =>
    refine sound_pure ht ?_
    rintro _ ⟨hknows, htyped⟩
    exact ⟨hknows, htyped, fun s hs => absurd hs (hnone s)⟩

theorem sound_visitParams (ps : List Param) (index : Nat) :
    Sound ρ S (visitParams r ps index) (fun ts => ∀ t ∈ ts, t.Determined)
      fun ts => List.Forall₂ (fun n t => ρ.Knows n t) (ps.map (·.decl.id)) ts ∧
        (∀ p ∈ ps, ρ.Grants { registry := r } S (fun scope => scope.initUses p.decl)
          (ρ.types.DeclTyped r p.decl)) ∧
        ∀ p ∈ ps, ∀ s, S[p.decl.id]? = some s →
          ρ.Knows p.decl.id (.var s.read) ∧ ρ.Knows p.decl.id (.var s.written) := by
  induction ps generalizing index with
  | nil =>
    refine sound_pure (List.forall_mem_nil _) ⟨.nil, ?_, ?_⟩
    · exact List.forall_mem_nil _
    · exact List.forall_mem_nil _
  | cons p ps ih =>
    rw [visitParams]
    refine (sound_visitParam p index).bind fun t ht => (ih (index + 1)).bind fun ts hts =>
      sound_pure (List.forall_mem_cons.mpr ⟨ht, hts⟩) ?_
    rintro ⟨hknows, htyped, hslots⟩ ⟨hknow, hptyped, hslot⟩
    exact ⟨.cons hknow hknows, List.forall_mem_cons.mpr ⟨hptyped, htyped⟩,
      List.forall_mem_cons.mpr ⟨hslot, hslots⟩⟩

/-- What is gone through of an archetype once its parameters have slots. -/
def visitSlotted (r : Registry) (x : Archetype) : Drafting Unit := do
  demandIdentity x.selfId
  let params ← visitParams r x.params 0
  let around : Surroundings := ⟨r, .archetype (x.params.map (·.decl.id)), some x.selfId⟩
  declareAll around x.locals
  checkStmts around x.body
  demandSignature x.id x.name params .archetypeSignature

theorem visitArchetype_eq (x : Archetype) :
    visitArchetype r x = x.params.forM addSlots >>= fun _ => visitSlotted r x := rfl

theorem sound_visitSlotted (x : Archetype) :
    Sound ρ S (visitSlotted r x) (fun _ => True)
      fun _ => (∀ p ∈ x.params, ∀ s, S[p.decl.id]? = some s →
          ρ.Knows p.decl.id (.var s.read) ∧ ρ.Knows p.decl.id (.var s.written)) ∧
        ∀ a : Algorithm, r.Resolves (a.archetypeUses x) → ρ.types.ArchetypeTyped r x := by
  apply (sound_demandIdentity x.selfId).bind
  intro _ _
  apply (sound_visitParams x.params 0).bind
  intro ts hts
  apply (sound_declareAll _ x.locals).bind
  intro _ _
  apply (sound_checkStmts _ (regular_of_role_archetype rfl) { self := some x.selfId }
    x.body).bind
  intro _ _
  apply (sound_demandSignature x.id x.name hts .archetypeSignature).mono (fun _ h => h)
  rintro _ _ hsignature hbody hlocals ⟨hknows, hparams, hslots⟩ hidentity
  refine ⟨hslots, fun a h => ?_⟩
  have hshows : ρ.Shows ⟨r, .archetype (x.params.map (·.decl.id)), some x.selfId⟩ S := by
    rintro _ ⟨⟩ n hn s hs
    obtain ⟨p, hp, rfl⟩ := List.mem_map.mp hn
    exact hslots p hp s hs
  simp only [Algorithm.archetypeUses, Algorithm.bodyUses, Scope.declUses_append,
    Registry.resolves_append] at h
  have hdecls : ∀ d ∈ x.params.map (·.decl),
      ρ.Grants { registry := r } S (fun scope => scope.initUses d) (ρ.types.DeclTyped r d) :=
    List.forall_mem_map.mpr hparams
  have hparams := grants_declUses _ hdecls (Reading.shows_of_general rfl) _ h.1.1
  exact ⟨hidentity, List.forall_mem_map.mp hparams, grants_declUses _ hlocals hshows _ h.1.2,
    hbody (Reading.places_of_yields_eq_none rfl rfl) _ hshows _ h.2, hsignature _ hknows⟩

/-! ## Slots -/

def Slotted (S : NodeMap Slots) (ns : List NodeId) : Prop := ∀ n ∈ ns, ∃ s, S[n]? = some s

variable {α β : Type}

/-- A part that may make slots: after it, the second list of parameters has
slots if the first had them before, and all slots are tied if all were. -/
def SoundTop (ρ : Reading) (ns ms : List NodeId) (m : Drafting α) (read : Prop) : Prop :=
  ∀ d : Draft, d.Regular → Slotted d.slots ns →
    (m d).2.Regular ∧ Slotted (m d).2.slots ms ∧ d.Grows (m d).2 ∧
      (ρ.Reads (m d).2 → ρ.Ties d.slots → ρ.Ties (m d).2.slots ∧ read)

variable {ns ms ls : List NodeId} {m : Drafting α} {f : α → Drafting β} {P Q : Prop}

theorem soundTop_pure {x : α} (h : P) : SoundTop ρ ns ns (pure x) P :=
  fun d hd hslots => ⟨hd, hslots, .refl d, fun _ hties => ⟨hties, h⟩⟩

theorem Sound.top {always : α → Prop}
    (h : ∀ S, Slotted S ns → Sound ρ S m always fun _ => ρ.Ties S → P) :
    SoundTop ρ ns ns m P := by
  intro d hd hslots
  obtain ⟨hd', hS, hgrows, _, hread⟩ := h d.slots hslots d hd rfl
  refine ⟨hd', ?_, hgrows, fun hreads hties => ⟨?_, hread hreads hties⟩⟩
  · rw [hS]
    exact hslots
  · rw [hS]
    exact hties

theorem Sound.top_of_forall {always : α → Prop} (h : ∀ S, Sound ρ S m always fun _ => P) :
    SoundTop ρ ns ns m P :=
  Sound.top fun S _ => (h S).mono (fun _ h => h) fun _ _ h _ => h

theorem SoundTop.bind (h : SoundTop ρ ns ms m P) (hf : ∀ x, SoundTop ρ ms ls (f x) (P → Q)) :
    SoundTop ρ ns ls (m >>= f) Q := by
  intro d hd hslots
  obtain ⟨hd', hslots', hgrows, hread⟩ := h d hd hslots
  obtain ⟨hd'', hslots'', hgrows', hread'⟩ := hf _ _ hd' hslots'
  refine ⟨hd'', hslots'', hgrows.trans hgrows', fun hreads hties => ?_⟩
  obtain ⟨hties', hP⟩ := hread (hreads.mono hgrows') hties
  obtain ⟨hties'', hQ⟩ := hread' hreads hties'
  exact ⟨hties'', hQ hP⟩

theorem SoundTop.mono (h : SoundTop ρ ns ms m P) (hPQ : P → Q) : SoundTop ρ ns ms m Q := by
  intro d hd hslots
  obtain ⟨hd', hslots', hgrows, hread⟩ := h d hd hslots
  exact ⟨hd', hslots', hgrows, fun hreads hties => (hread hreads hties).imp_right hPQ⟩

theorem SoundTop.forget (h : SoundTop ρ ns ms m P) (hls : ls ⊆ ms) : SoundTop ρ ns ls m P := by
  intro d hd hslots
  obtain ⟨hd', hslots', hrest⟩ := h d hd hslots
  exact ⟨hd', fun n hn => hslots' n (hls hn), hrest⟩

theorem soundTop_forM {f : α → Drafting Unit} {P : α → Prop} {xs : List α}
    (h : ∀ x ∈ xs, SoundTop ρ ns ns (f x) (P x)) :
    SoundTop ρ ns ns (xs.forM f) (∀ x ∈ xs, P x) := by
  induction xs with
  | nil => exact soundTop_pure (List.forall_mem_nil _)
  | cons x xs ih =>
    obtain ⟨hx, hxs⟩ := List.forall_mem_cons.mp h
    exact hx.bind fun _ => (ih hxs).mono fun hrest hfirst =>
      List.forall_mem_cons.mpr ⟨hfirst, hrest⟩

theorem soundTop_visitArchetype (x : Archetype) :
    SoundTop ρ ns (x.params.map (·.decl.id) ++ ns) (visitArchetype r x)
      (∀ a : Algorithm, r.Resolves (a.archetypeUses x) → ρ.types.ArchetypeTyped r x) := by
  intro d hd hslots
  obtain ⟨hconstraints, hvars, hadded⟩ := slots_forM_addSlots x.params d
  rw [visitArchetype_eq]
  have hd₁ : ((x.params.forM addSlots) d).2.Regular := fun k hk => hd k (hconstraints ▸ hk)
  have hbody : Sound ρ ((x.params.forM addSlots) d).2.slots (visitSlotted r x) _ _ :=
    sound_visitSlotted x
  obtain ⟨hd', hS, hgrows, _, hread⟩ := hbody _ hd₁ rfl
  refine ⟨hd', fun n hn => ?_, .trans ⟨fun k hk => ?_, fun n v hv => ?_⟩ hgrows,
    fun hreads hties => ?_⟩
  · change ∃ s, (visitSlotted r x _).2.slots[n]? = some s
    rw [hS]
    rcases hadded n with ⟨_, hs⟩ | ⟨hmem, hs⟩
    · exact hs
    · rw [hs]
      exact hslots n ((List.mem_append.mp hn).resolve_left hmem)
  · exact hconstraints.symm ▸ hk
  · exact hvars.symm ▸ hv
  · obtain ⟨hown, htyped⟩ := hread hreads
    refine ⟨fun n s hs => ?_, htyped⟩
    change (visitSlotted r x _).2.slots[n]? = some s at hs
    rw [hS] at hs
    -- Slots of its own parameters are tied by the body, the others were tied before.
    rcases hadded n with ⟨hmem, _⟩ | ⟨_, hsame⟩
    · obtain ⟨p, hp, rfl⟩ := List.mem_map.mp hmem
      exact hown p hp s hs
    · exact hties n s (hsame.symm.trans hs)

def slottedParams (xs : List Archetype) : List NodeId :=
  xs.flatMap fun x => x.params.map (·.decl.id)

theorem soundTop_forM_visitArchetype (xs : List Archetype) (ns : List NodeId) :
    SoundTop ρ ns (slottedParams xs ++ ns) (xs.forM (visitArchetype r))
      (∀ x ∈ xs, ∀ a : Algorithm, r.Resolves (a.archetypeUses x) →
        ρ.types.ArchetypeTyped r x) := by
  induction xs generalizing ns with
  | nil => exact soundTop_pure (List.forall_mem_nil _)
  | cons x xs ih =>
    have hall : SoundTop ρ ns (slottedParams xs ++ (x.params.map (·.decl.id) ++ ns))
        ((x :: xs).forM (visitArchetype r))
        (∀ x' ∈ x :: xs, ∀ a : Algorithm, r.Resolves (a.archetypeUses x') →
          ρ.types.ArchetypeTyped r x') :=
      (soundTop_visitArchetype x).bind fun _ => (ih _).mono fun hxs hx =>
        List.forall_mem_cons.mpr ⟨hx, hxs⟩
    refine hall.forget fun n hn => ?_
    simp only [slottedParams, List.flatMap_cons, List.mem_append] at hn ⊢
    tauto

/-! ## The whole -/

theorem resolves_of_mem_flatMap {f : α → List Use} {xs : List α} {x : α}
    (h : r.Resolves (xs.flatMap f)) (hx : x ∈ xs) : r.Resolves (f x) :=
  fun u hu => h u (List.mem_flatMap.mpr ⟨x, hx, hu⟩)

/-- The registry resolves the names of an algorithm and of the values that it
holds, and its archetypes are those of the algorithm. -/
structure Covers (r : Registry) (a : Algorithm) : Prop where
  uses : r.Resolves a.uses
  constants : ∀ c value, r.constantValue c = some value →
    ∃ scope : Scope, r.Resolves (scope.exprUses value)
  targets : ∀ i ∈ a.instances, ∃ x, r.findArchetype i.target = some x
  archetypes : ∀ name x, r.findArchetype name = some x → x ∈ a.archetypes

theorem sound_forM_varOf (ns : List NodeId) :
    Sound ρ S (ns.forM fun n => do let _ ← varOf n) (fun _ => True) fun _ => True := by
  induction ns with
  | nil => exact sound_pure trivial trivial
  | cons n ns ih =>
    have hfirst : Sound ρ S (do let _ ← varOf n) (fun _ => True) fun _ => True :=
      (sound_varOf n).bind fun _ _ => sound_pure trivial fun _ => trivial
    exact hfirst.bind fun _ _ => ih.mono (fun _ h => h) fun _ _ h _ => h

theorem sound_visitProcesses (ps : Processes) (a : Algorithm) (haps : a.processes = ps) :
    SoundTop ρ ns ns (visitProcesses r ps)
      (r.Resolves a.uses → ρ.types.ProcessesTyped r ps) := by
  cases ps with
  | single body =>
    apply Sound.top_of_forall
    intro S
    apply (sound_checkStmts { registry := r } (regular_of_role_general rfl) {} body).mono
      (fun _ h => h)
    intro _ _ hbody huses
    simp only [Algorithm.uses, haps, Algorithm.bodyUses, Registry.resolves_append] at huses
    have hplaces : ρ.Places { registry := r } {} := Reading.places_of_yields_eq_none rfl rfl
    exact hbody hplaces _ (Reading.shows_of_general rfl) _ huses.2.2
  | multi ps =>
    refine (soundTop_forM fun p _ => Sound.top_of_forall fun S => sound_visitProcess p).mono
      fun hps huses p hp => hps p hp a ?_
    simp only [Algorithm.uses, haps, Registry.resolves_append] at huses
    exact resolves_of_mem_flatMap huses.2 hp

theorem soundTop_forM_visitInstance (a : Algorithm) :
    SoundTop ρ (slottedParams a.archetypes ++ ns) (slottedParams a.archetypes ++ ns)
      (a.instances.forM (visitInstance r))
      (∀ i ∈ a.instances, Covers r a → r.Resolves (a.instanceUses i) →
        ρ.types.InstanceTyped r i) := by
  refine soundTop_forM fun i hi => Sound.top fun S hS => (sound_visitInstance i).mono
    (fun _ h => h) fun _ _ h hties hcovers huses => ?_
  refine h hties (fun x hx p hp => ?_) (hcovers.targets i hi) a huses
  refine hS p.decl.id (List.mem_append_left _ (List.mem_flatMap.mpr ⟨x, ?_, ?_⟩))
  · exact hcovers.archetypes i.target x hx
  · exact List.mem_map.mpr ⟨p, hp, rfl⟩

/-- Every reading of the constraints of an algorithm types it. -/
theorem soundTop_visitAlgorithm (a : Algorithm) :
    SoundTop ρ [] (slottedParams a.archetypes) (visitAlgorithm r a)
      (Covers r a → ρ.types.AlgorithmTyped r a) := by
  have hglobals : SoundTop ρ [] [] (declareAll { registry := r } a.globals)
      (r.Resolves (a.globals.flatMap a.globalScope.initUses) →
        ∀ d ∈ a.globals, ρ.types.DeclTyped r d) :=
    Sound.top_of_forall fun S => (sound_declareAll _ a.globals).mono (fun _ h => h)
      fun _ _ h huses d hd => h d hd (Reading.shows_of_general rfl) a.globalScope
        (resolves_of_mem_flatMap huses hd)
  have hunits : SoundTop ρ [] [] (a.units.forM (inferDefinition { registry := r }))
      (∀ d ∈ a.units, r.Resolves (a.globalScope.definitionUse d) →
        ρ.types.DefinitionTyped r d) :=
    soundTop_forM fun d _ => Sound.top_of_forall fun S => (sound_inferDefinition _ d).mono
      (fun _ h => h) fun _ _ h huses => h (Reading.shows_of_general rfl) _ huses
  have hinstances := @soundTop_forM_visitInstance ρ r [] a
  have hsignatures (ns : List NodeId) :
      SoundTop ρ [] [] (ns.forM fun n => do let _ ← varOf n) True :=
    Sound.top_of_forall fun S => sound_forM_varOf ns
  have hconstants : SoundTop ρ [] [] (r.constants.forM (visitConstant r)) _ :=
    soundTop_forM fun c _ => Sound.top_of_forall fun S => sound_visitConstant c
  have hprocedures : SoundTop ρ [] [] (a.procedures.forM (visitProcedure r)) _ :=
    soundTop_forM fun p _ => Sound.top_of_forall fun S => sound_visitProcedure p
  have harchetypes := @soundTop_forM_visitArchetype ρ r a.archetypes []
  have hmacros : SoundTop ρ (slottedParams a.archetypes ++ []) (slottedParams a.archetypes ++ [])
      (a.mappingMacros.forM (visitMappingMacro r)) _ :=
    soundTop_forM fun m _ => Sound.top_of_forall fun S => sound_visitMappingMacro m
  have hall : SoundTop ρ [] (slottedParams a.archetypes ++ []) (visitAlgorithm r a)
      (Covers r a → ρ.types.AlgorithmTyped r a) := by
    refine (hsignatures _).bind fun _ => hconstants.bind fun _ => hglobals.bind fun _ =>
      hunits.bind fun _ => hprocedures.bind fun _ => harchetypes.bind fun _ =>
      hmacros.bind fun _ => hinstances.bind fun _ =>
      (sound_visitProcesses a.processes a rfl).mono ?_
    intro hprocesses hinstances hmacros harchetypes hprocedures hunits hglobals hconstants _
      hcovers
    have huses := hcovers.uses
    rw [Algorithm.uses] at huses
    simp only [Registry.resolves_append] at huses
    obtain ⟨⟨⟨⟨⟨⟨hgu, huu⟩, hpu⟩, hxu⟩, hmu⟩, hiu⟩, _⟩ := huses
    exact {
      constants := fun c hc => hconstants c hc (hcovers.constants c.id)
      globals := hglobals hgu
      units := fun d hd => hunits d hd (resolves_of_mem_flatMap huu hd)
      procedures := fun p hp => hprocedures p hp a (resolves_of_mem_flatMap hpu hp)
      archetypes := fun x hx => harchetypes x hx a (resolves_of_mem_flatMap hxu hx)
      mappingMacros := fun m hm => hmacros m hm a (resolves_of_mem_flatMap hmu hm)
      instances := fun i hi => hinstances i hi hcovers (resolves_of_mem_flatMap hiu hi)
      processes := hprocesses hcovers.uses }
  exact hall.forget fun n hn => List.mem_append_left _ hn

end Drafting

variable {r : Registry} {a : Algorithm} {o : Options}

theorem Draft.regular_ofAlgorithm (r : Registry) (a : Algorithm) (o : Options) :
    (ofAlgorithm r a o).Regular := by
  have hvisit : Drafting.SoundTop ⟨.var, fun _ => True, fun _ => none⟩ _ _
    (Drafting.visitAlgorithm r a) _ := Drafting.soundTop_visitAlgorithm a
  exact (hvisit { collection := .ofOptions o } nofun nofun).1

theorem Reading.Reads.algorithmTyped {ρ : Reading} (h : ρ.Reads (Draft.ofAlgorithm r a o))
    (hr : Drafting.Covers r a) : ρ.types.AlgorithmTyped r a := by
  obtain ⟨_, _, _, hread⟩ :=
    Drafting.soundTop_visitAlgorithm a { collection := .ofOptions o } nofun nofun
  exact (hread h nofun).2 hr

end PlusCalTyping
