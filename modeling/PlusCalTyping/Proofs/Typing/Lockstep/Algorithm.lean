import PlusCalTyping.Proofs.Typing.Coverage.TypedNodes
import PlusCalTyping.Proofs.Typing.Lockstep.Stmt
import PlusCalTyping.Proofs.Typing.Registries

/-! # Algorithms in lockstep

Only the parameters of archetypes are asked for slots, and a run gives them slots before
it asks. So the slots at the beginning do not matter, and two registries that answer
alike what an algorithm asks of them lead to the same findings
(`Registry.Matches.inferFrom_eq`).
-/

namespace PlusCalTyping

/-- Both registries give the same answers to what an algorithm may ask. Names that are
in neither the algorithm nor the values of its constants may refer to anything. -/
structure Registry.Matches (a : Algorithm) (r r' : Registry) : Prop where
  diagnostics : r.diagnostics = r'.diagnostics
  constants : r.constants = r'.constants
  constantValue : ∀ c ∈ r.constants, r.constantValue c.id = r'.constantValue c.id
  procedures : r.procedures = r'.procedures
  archetypes : r.archetypes = r'.archetypes
  mappingMacros : r.mappingMacros = r'.mappingMacros
  references : ∀ n ∈ a.nodes, r.RefersAlike r' n
  values : ∀ c value, r.constantValue c = some value → ∀ n ∈ value.nodes, r.RefersAlike r' n
  identities : ∀ p ∈ a.procedures, r.isReferenced p.selfId = r'.isReferenced p.selfId

namespace Registry.Matches

variable {a : Algorithm} {r r' : Registry} (h : r.Matches a r') (hknows : r.Knows a)
include h hknows

theorem surroundings {xs : List NodeId} {role : Role}
    (hparams : ∀ ps, role = .archetype ps → ps ⊆ xs) (self : Option NodeId) :
    Surroundings.Matches xs ⟨r, role, self⟩ ⟨r', role, self⟩ where
  role := rfl
  params := hparams
  self := rfl
  procedures name := congrArg (·[name]?) h.procedures
  callees _ p hp := h.identities p (hknows.mem_procedures hp)

theorem outside {xs : List NodeId} {role : Role} (hrole : ∀ ps, role ≠ .archetype ps)
    (self : Option NodeId) : Surroundings.Matches xs ⟨r, role, self⟩ ⟨r', role, self⟩ :=
  h.surroundings hknows (fun ps heq => absurd heq (hrole ps)) self

theorem general {xs : List NodeId} (self : Option NodeId) :
    Surroundings.Matches xs { registry := r, self } { registry := r', self } :=
  h.outside hknows (by simp) self

end Registry.Matches

def Archetype.paramIds (x : Archetype) : List NodeId := x.params.map (·.decl.id)

namespace Drafting

variable {α : Type} {xs ys zs : List NodeId} {m m' : Drafting α}

theorem Lockstep.anti (h : Lockstep xs ys m m') (hsub : zs ⊆ ys) : Lockstep xs zs m m' := by
  intro d d' hd
  obtain ⟨hvalue, hmatches⟩ := h d d' hd
  exact ⟨hvalue, hmatches.collection, hmatches.vars, fun x hx => hmatches.slots x (hsub hx)⟩

/-- What follows may use that the drafts match. -/
theorem lockstep_get {f f' : Draft → Drafting α}
    (h : ∀ d d', d.Matches xs d' → Lockstep xs ys (f d) (f' d')) :
    Lockstep xs ys (get >>= f) (get >>= f') := fun d d' hd => h d d' hd d d' hd

theorem blind_demandIdentity (n : NodeId) : Blind (demandIdentity n) :=
  (blind_typeOf n).bind fun _ => Blind.bind (fun _ _ => rfl) fun _ => blind_record _ _ _ _

theorem blind_demandSignature (id : NodeId) (name : String) (params : List Ty) (reason : Reason) :
    Blind (demandSignature id name params reason) :=
  (blind_typeOf id).bind fun _ => (blind_record _ _ _ _).bind fun _ => blind_demand _ _ _ _

/-! ## Slots -/

/-- A parameter has the same slots in both drafts as soon as it was given some. -/
theorem lockstep_addSlots (p : Param) :
    Lockstep xs (p.decl.id :: xs) (addSlots p) (addSlots p) := by
  rintro ⟨collection, vars, slots⟩ ⟨_, _, slots'⟩ ⟨rfl, rfl, hslots⟩
  refine ⟨rfl, rfl, rfl, fun x hx => ?_⟩
  refine Std.TreeMap.getElem?_insert.trans (Eq.trans ?_ Std.TreeMap.getElem?_insert.symm)
  split
  · rfl
  · next hne =>
    refine hslots x ((List.mem_cons.mp hx).resolve_left fun heq => hne ?_)
    exact Std.LawfulEqCmp.compare_eq_iff_eq.mpr heq.symm

theorem lockstep_forM_addSlots (ps : List Param) :
    Lockstep xs (ps.map (·.decl.id) ++ xs) (ps.forM addSlots) (ps.forM addSlots) := by
  induction ps generalizing xs with
  | nil => exact lockstep_pure ()
  | cons p ps ih =>
    refine ((lockstep_addSlots p).bind fun _ => ih).anti ?_
    exact List.perm_middle.symm.subset

section

variable {r r' : Registry} {a : Algorithm} (h : r.Matches a r') (hknows : r.Knows a)
include h hknows

theorem lockstep_visitParam {p : Param} (hp : p.decl.id ∈ xs) (index : Nat)
    (hrefs : ∀ n ∈ p.decl.nodes, r.RefersAlike r' n) :
    Lockstep xs xs (visitParam r p index) (visitParam r' p index) := by
  unfold visitParam
  refine (lockstep_declare (h.general hknows none) p.decl hrefs).bind fun t => ?_
  refine lockstep_get fun d d' hd => ?_
  rw [hd.slots _ hp]
  cases d'.slots[p.decl.id]? with
  | none => exact lockstep_pure t
  | some s =>
    exact ((blind_demand _ _ _ _).bind fun _ => (blind_demand _ _ _ _).bind fun _ =>
      blind_pure t).lockstep

theorem lockstep_visitParams {ps : List Param} (hps : ∀ p ∈ ps, p.decl.id ∈ xs) (index : Nat)
    (hrefs : ∀ n ∈ (ps.map (·.decl)).flatMap Decl.nodes, r.RefersAlike r' n) :
    Lockstep xs xs (visitParams r ps index) (visitParams r' ps index) := by
  induction ps generalizing index with
  | nil => exact lockstep_pure []
  | cons p ps ih =>
    rw [visitParams, visitParams]
    obtain ⟨hp, hps⟩ := List.forall_mem_cons.mp hps
    obtain ⟨hrefs, hrefs'⟩ := List.forall_mem_append.mp hrefs
    exact (lockstep_visitParam h hknows hp index hrefs).bind fun _ =>
      (ih hps (index + 1) hrefs').bind fun _ => lockstep_pure _

/-! ## Parts -/

theorem lockstep_visitConstant {c : Node String} (hc : c ∈ r.constants) :
    Lockstep xs xs (visitConstant r c) (visitConstant r' c) := by
  unfold visitConstant
  refine (blind_typeOf c.id).lockstep.bind fun v => ?_
  rw [← h.constantValue c hc]
  cases hvalue : r.constantValue c.id with
  | none => exact lockstep_pure ()
  | some value =>
    exact (lockstep_infer (h.general hknows none) value
      (h.values c.id value hvalue)).bind fun _ => (blind_demand _ _ _ _).lockstep

theorem lockstep_visitProcedure {p : Procedure} (hp : p ∈ a.procedures)
    (hrefs : ∀ n ∈ p.nodes, r.RefersAlike r' n) :
    Lockstep xs xs (visitProcedure r p) (visitProcedure r' p) := by
  simp only [Procedure.nodes, bodyNodes, List.flatMap_append, List.forall_mem_cons,
    List.forall_mem_append] at hrefs
  obtain ⟨_, _, ⟨hparams, hlocals⟩, hbody⟩ := hrefs
  have haround : Surroundings.Matches xs { registry := r, self := some p.selfId }
      { registry := r', self := some p.selfId } := h.general hknows _
  have hrest : Lockstep xs xs (do
      let params ← p.params.mapM (declare { registry := r, self := some p.selfId })
      declareAll { registry := r, self := some p.selfId } p.locals
      checkStmts { registry := r, self := some p.selfId } p.body
      demandSignature p.id p.name params .procedureSignature) (do
      let params ← p.params.mapM (declare { registry := r', self := some p.selfId })
      declareAll { registry := r', self := some p.selfId } p.locals
      checkStmts { registry := r', self := some p.selfId } p.body
      demandSignature p.id p.name params .procedureSignature) :=
    (lockstep_mapM fun d hd => lockstep_declare haround d
      (List.forall_mem_flatMap.mp hparams d hd)).bind fun _ =>
    (lockstep_declareAll haround p.locals hlocals).bind fun _ =>
    (lockstep_checkStmts haround p.body hbody).bind fun _ =>
    (blind_demandSignature _ _ _ _).lockstep
  unfold visitProcedure
  dsimp only
  rw [← h.identities p hp]
  split
  · exact (blind_demandIdentity p.selfId).lockstep.bind fun _ => hrest
  · exact hrest

theorem lockstep_visitArchetype (x : Archetype) (hrefs : ∀ n ∈ x.nodes, r.RefersAlike r' n) :
    Lockstep xs (x.paramIds ++ xs) (visitArchetype r x) (visitArchetype r' x) := by
  simp only [Archetype.nodes, bodyNodes, List.flatMap_append, List.forall_mem_cons,
    List.forall_mem_append] at hrefs
  obtain ⟨_, _, ⟨hparams, hlocals⟩, hbody⟩ := hrefs
  have hslots : ∀ p ∈ x.params, p.decl.id ∈ x.paramIds ++ xs := fun p hp =>
    List.mem_append_left xs (List.mem_map_of_mem hp)
  have haround : Surroundings.Matches (x.paramIds ++ xs)
      ⟨r, .archetype x.paramIds, some x.selfId⟩ ⟨r', .archetype x.paramIds, some x.selfId⟩ := by
    refine h.surroundings hknows ?_ _
    rintro _ ⟨⟩
    exact List.subset_append_left _ _
  unfold visitArchetype
  exact (lockstep_forM_addSlots x.params).bind fun _ =>
    (blind_demandIdentity x.selfId).lockstep.bind fun _ =>
    (lockstep_visitParams h hknows hslots 0 hparams).bind fun _ =>
    (lockstep_declareAll haround x.locals hlocals).bind fun _ =>
    (lockstep_checkStmts haround x.body hbody).bind fun _ =>
    (blind_demandSignature _ _ _ _).lockstep

theorem lockstep_forM_visitArchetype {as : List Archetype}
    (hrefs : ∀ n ∈ as.flatMap Archetype.nodes, r.RefersAlike r' n) :
    Lockstep xs (as.flatMap Archetype.paramIds ++ xs) (as.forM (visitArchetype r))
      (as.forM (visitArchetype r')) := by
  induction as generalizing xs with
  | nil => exact lockstep_pure ()
  | cons x as ih =>
    obtain ⟨hx, has⟩ := List.forall_mem_append.mp hrefs
    refine ((lockstep_visitArchetype h hknows x hx).bind fun _ => ih has).anti ?_
    grind

theorem lockstep_visitMappingMacro (m : MappingMacro)
    (hrefs : ∀ n ∈ m.nodes, r.RefersAlike r' n) :
    Lockstep xs xs (visitMappingMacro r m) (visitMappingMacro r' m) := by
  obtain ⟨_, hbodies⟩ := List.forall_mem_append.mp hrefs
  obtain ⟨hread, hwrite⟩ := List.forall_mem_append.mp hbodies
  have haroundRead (result : Ty) :
      Surroundings.Matches xs ⟨r, .macroRead result, none⟩ ⟨r', .macroRead result, none⟩ :=
    h.outside hknows (by simp) none
  have haroundWrite (stored : Ty) :
      Surroundings.Matches xs ⟨r, .macroWrite stored, none⟩ ⟨r', .macroWrite stored, none⟩ :=
    h.outside hknows (by simp) none
  unfold visitMappingMacro
  exact (blind_typeOf _).lockstep.bind fun stored => (blind_typeOf _).lockstep.bind fun _ =>
    (blind_typeOf _).lockstep.bind fun result =>
    (lockstep_checkStmts (haroundRead result) m.readBody hread).bind fun _ =>
    lockstep_checkStmts (haroundWrite stored) m.writeBody hwrite

/-- Slots of parameters are asked for where something is mapped. -/
theorem lockstep_visitMapping {args : List Expr} {ps : List Param}
    (hargs : ∀ n ∈ Expr.listNodes args, r.RefersAlike r' n)
    (hps : ∀ p ∈ ps, p.decl.id ∈ xs) (m : Mapping)
    (hrefs : ∀ n ∈ m.variableExpr.nodes, r.RefersAlike r' n) :
    Lockstep xs xs (visitMapping r args ps m) (visitMapping r' args ps m) := by
  have hparam (global : NodeId) : paramOf? r args ps global = paramOf? r' args ps global := by
    have hmap : args.map (fun arg => r.followReference arg.id) =
        args.map (fun arg => r'.followReference arg.id) :=
      List.map_congr_left fun e he => hargs e.id
        (Expr.listNodes_eq args ▸ List.mem_flatMap.mpr ⟨e, he, e.id_mem_nodes⟩)
    have hindex (r : Registry) : args.findIdx? (fun arg => r.followReference arg.id = some global) =
        (args.map fun arg => r.followReference arg.id).findIdx? (· = some global) := by
      rw [List.findIdx?_map]
      rfl
    rw [paramOf?, paramOf?, hindex, hindex, hmap]
  unfold visitMapping
  refine (lockstep_infer (h.general hknows none) m.variableExpr hrefs).bind fun _ => ?_
  rw [← hrefs _ (Expr.id_mem_nodes _)]
  cases r.followReference m.variableExpr.id with
  | none => exact lockstep_pure ()
  | some global =>
    dsimp only
    rw [← hparam]
    cases hp : (paramOf? r args ps global).filter (·.byRef) with
    | none => exact lockstep_pure ()
    | some p =>
      dsimp only
      have hmem : p ∈ ps := by
        obtain ⟨index, _, hp⟩ := Option.bind_eq_some_iff.mp (Option.filter_eq_some_iff.mp hp).1
        exact List.mem_of_getElem? hp
      have hmacros : r.findMappingMacro m.macroName = r'.findMappingMacro m.macroName :=
        congrArg (·[m.macroName]?) h.mappingMacros
      rw [← hmacros]
      cases r.findMappingMacro m.macroName with
      | none => exact lockstep_pure ()
      | some mappingMacro =>
        refine lockstep_get fun d d' hd => ?_
        rw [hd.slots _ (hps p hmem)]
        refine Blind.lockstep ?_
        cases d'.slots[p.decl.id]? with
        | none => exact blind_pure ()
        | some s =>
          exact (blind_typeOf _).bind fun _ => (blind_demand _ _ _ _).bind fun _ =>
            (blind_typeOf _).bind fun _ => blind_demand _ _ _ _

theorem lockstep_visitInstance (i : Instance)
    (hslots : ∀ x ∈ a.archetypes, x.paramIds ⊆ xs) (hrefs : ∀ n ∈ i.nodes, r.RefersAlike r' n) :
    Lockstep xs xs (visitInstance r i) (visitInstance r' i) := by
  simp only [Instance.nodes, Mapping.nodes, List.forall_mem_append, List.forall_mem_flatMap]
    at hrefs
  obtain ⟨⟨⟨hname, _⟩, hargs⟩, hmappings⟩ := hrefs
  have harchetypes : r.findArchetype i.target = r'.findArchetype i.target :=
    congrArg (·[i.target]?) h.archetypes
  unfold visitInstance
  rw [← harchetypes]
  refine (lockstep_declare (h.general hknows none) i.name hname).bind fun _ =>
    (blind_demandIdentity _).lockstep.bind fun _ =>
    (lockstep_inferList (h.general hknows none) i.args hargs).bind fun _ => ?_
  cases hx : r.findArchetype i.target with
  | none => exact lockstep_pure ()
  | some x =>
    have hps : ∀ p ∈ x.params, p.decl.id ∈ xs := fun p hp =>
      hslots x (hknows.mem_archetypes hx) (List.mem_map_of_mem hp)
    exact (blind_typeOf _).lockstep.bind fun _ => (blind_demand _ _ _ _).lockstep.bind fun _ =>
      lockstep_forM fun m hm => lockstep_visitMapping h hknows hargs hps m (hmappings m hm).1

theorem lockstep_visitProcess (p : Process) (hrefs : ∀ n ∈ p.nodes, r.RefersAlike r' n) :
    Lockstep xs xs (visitProcess r p) (visitProcess r' p) := by
  simp only [Process.nodes, bodyNodes, List.forall_mem_cons, List.forall_mem_append] at hrefs
  obtain ⟨_, hname, hlocals, hbody⟩ := hrefs
  unfold visitProcess
  exact (lockstep_declare (h.general hknows none) p.name hname).bind fun _ =>
    (blind_demandIdentity _).lockstep.bind fun _ =>
    (lockstep_declareAll (h.general hknows _) p.locals hlocals).bind fun _ =>
    lockstep_checkStmts (h.general hknows _) p.body hbody

theorem lockstep_visitProcesses (ps : Processes) (hrefs : ∀ n ∈ ps.nodes, r.RefersAlike r' n) :
    Lockstep xs xs (visitProcesses r ps) (visitProcesses r' ps) := by
  cases ps with
  | single body => exact lockstep_checkStmts (h.general hknows none) body hrefs
  | multi ps =>
    exact lockstep_forM fun p hp =>
      lockstep_visitProcess h hknows p (List.forall_mem_flatMap.mp hrefs p hp)

/-- A run does not depend on the slots that it starts with. -/
theorem lockstep_visitAlgorithm :
    Lockstep [] (a.archetypes.flatMap Archetype.paramIds) (visitAlgorithm r a)
      (visitAlgorithm r' a) := by
  have hrefs := h.references
  simp only [Algorithm.nodes, List.forall_mem_append] at hrefs
  obtain ⟨_, ⟨⟨⟨⟨⟨⟨hglobals, hunits⟩, hprocedures⟩, harchetypes⟩, hmacros⟩, hinstances⟩,
    hprocesses⟩⟩ := hrefs
  have hslots : ∀ x ∈ a.archetypes, x.paramIds ⊆ a.archetypes.flatMap Archetype.paramIds :=
    fun x hx _ hn => List.mem_flatMap.mpr ⟨x, hx, hn⟩
  have hvisited : Lockstep [] (a.archetypes.flatMap Archetype.paramIds ++ [])
      (a.archetypes.forM (visitArchetype r)) (a.archetypes.forM (visitArchetype r')) :=
    lockstep_forM_visitArchetype h hknows harchetypes
  rw [List.append_nil] at hvisited
  unfold visitAlgorithm
  rw [← h.constants]
  exact (lockstep_forM fun n _ => ((blind_varOf n).bind fun _ => blind_pure ()).lockstep).bind
    fun _ => (lockstep_forM fun c hc => lockstep_visitConstant h hknows hc).bind fun _ =>
    (lockstep_declareAll (h.general hknows none) a.globals hglobals).bind fun _ =>
    (lockstep_forM fun d hd => lockstep_inferDefinition (h.general hknows none) d
      (List.forall_mem_flatMap.mp hunits d hd)).bind fun _ =>
    (lockstep_forM fun p hp => lockstep_visitProcedure h hknows hp
      (List.forall_mem_flatMap.mp hprocedures p hp)).bind fun _ => hvisited.bind fun _ =>
    (lockstep_forM fun m hm => lockstep_visitMappingMacro h hknows m
      (List.forall_mem_flatMap.mp hmacros m hm)).bind fun _ =>
    (lockstep_forM fun i hi => lockstep_visitInstance h hknows i hslots
      (List.forall_mem_flatMap.mp hinstances i hi)).bind fun _ =>
    lockstep_visitProcesses h hknows a.processes hprocesses

end

end Drafting

/-- The same is found with both registries, whatever slots were left in either. -/
theorem Registry.Matches.inferFrom_eq {a : Algorithm} {r r' : Registry} (h : r.Matches a r')
    (hknows : r.Knows a) (slots slots' : NodeMap Slots) (o : Options) :
    (r.inferFrom slots a o).1 = (r'.inferFrom slots' a o).1 := by
  have hstart : Draft.Matches [] { collection := .ofOptions o, slots }
      { collection := .ofOptions o, slots := slots' } := ⟨rfl, rfl, List.forall_mem_nil _⟩
  obtain ⟨_, hdrafts⟩ := Drafting.lockstep_visitAlgorithm h hknows _ _ hstart
  have hcollection : (Draft.resume r slots a o).collection =
      (Draft.resume r' slots' a o).collection := hdrafts.collection
  have hvars : (Draft.resume r slots a o).vars = (Draft.resume r' slots' a o).vars :=
    hdrafts.vars
  unfold inferFrom
  rw [← h.diagnostics]
  split
  · rfl
  · dsimp only
    rw [hcollection, hvars]

namespace Registry

variable {a : Algorithm} {r r' : Registry}

theorem Matches.refl (a : Algorithm) (r : Registry) : r.Matches a r :=
  ⟨rfl, rfl, fun _ _ => rfl, rfl, rfl, rfl, fun _ _ => rfl, fun _ _ _ _ _ => rfl, fun _ _ => rfl⟩

/-- Slots that earlier runs have left do not change what is found. -/
theorem Knows.reinfer_eq (h : r.Knows a) (o : Options) : (r.reinfer a o).1 = (r.infer a o).1 :=
  (Matches.refl a r).inferFrom_eq h r.slots ∅ o

theorem complete_fst_congr (h : r.globalVariables = r'.globalVariables) (f : Findings) :
    (r.complete f).1 = (r'.complete f).1 := by
  unfold complete writeGlobalTypes
  rw [h]
  split
  · rfl
  · cases goTypes f.types r'.globalVariables <;> rfl

theorem globalVariables_inferFrom (r : Registry) (slots : NodeMap Slots) (b : Algorithm)
    (o : Options) : (r.inferFrom slots b o).2.globalVariables = r.globalVariables := by
  obtain ⟨_, _, hr⟩ := r.retypes_inferFrom slots b o
  rw [hr]

theorem Knows.recheck_eq (h : r.Knows a) (o : Options) : (r.recheck a o).1 = (r.check a o).1 := by
  have hfound := h.reinfer_eq o
  have hglobals : (r.reinfer a o).2.globalVariables = (r.infer a o).2.globalVariables :=
    (r.globalVariables_inferFrom r.slots a o).trans (r.globalVariables_inferFrom ∅ a o).symm
  calc (r.recheck a o).1
    _ = ((r.reinfer a o).2.complete (r.reinfer a o).1).1 := rfl
    _ = ((r.infer a o).2.complete (r.infer a o).1).1 := by
      rw [hfound, complete_fst_congr hglobals]
    _ = (r.check a o).1 := rfl

end Registry

end PlusCalTyping
