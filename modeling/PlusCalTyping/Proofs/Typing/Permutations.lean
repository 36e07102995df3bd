import PlusCalTyping.Proofs.Typing.Alike
import PlusCalTyping.Proofs.Typing.Nodes
import PlusCalTyping.Proofs.Typing.Prepared

/-! # Algorithms with their parts in another order

If all nodes of an algorithm are different and names are declared only once, it
does not matter for the registry in which order its parts come: tables get the
same entries (`Registry.alike_supply`). And typings do not see the order.
-/

namespace PlusCalTyping

open Std (TreeMap)

/-! ## Tables -/

section Tables

variable {α β κ : Type} [DecidableEq κ] {key : α → κ} {ds ds' : List α}

/-- Among entries with different keys there is only one to find. -/
theorem find?_eq_of_perm (h : ds.Perm ds') (hdistinct : (ds.map key).Nodup) (k : κ) :
    ds.find? (key · = k) = ds'.find? (key · = k) := by
  induction h with
  | nil => rfl
  | cons d _ ih => simp only [List.find?_cons, ih (List.nodup_cons.mp hdistinct).2]
  | swap d d' ds =>
    have hne : ¬(key d' = k ∧ key d = k) := fun heq =>
      (List.nodup_cons.mp hdistinct).1 (heq.1.trans heq.2.symm ▸ List.mem_cons_self)
    by_cases hd : key d = k <;> by_cases hd' : key d' = k <;> simp_all
  | trans h _ ih ih' => exact (ih hdistinct).trans (ih' ((h.map key).nodup_iff.mp hdistinct))

theorem foldl_insert_equiv [Ord κ] [Std.TransOrd κ] [Std.LawfulEqOrd κ] (value : α → β)
    (h : ds.Perm ds') (hdistinct : (ds.map key).Nodup) {m m' : TreeMap κ β} (hm : m.Equiv m') :
    (ds.foldl (fun m d => m.insert (key d) (value d)) m).Equiv
      (ds'.foldl (fun m d => m.insert (key d) (value d)) m') := by
  have hreverse : ds.reverse.Perm ds'.reverse :=
    ds.reverse_perm.trans (h.trans ds'.reverse_perm.symm)
  have hdistinct : (ds.reverse.map key).Nodup :=
    (ds.reverse_perm.map key).nodup_iff.mpr hdistinct
  refine TreeMap.Equiv.of_forall_constGet?_eq fun k => ?_
  rw [getElem?_foldl_insert, getElem?_foldl_insert, hm.getElem?_eq,
    find?_eq_of_perm hreverse hdistinct]

end Tables

theorem byName_equiv {α : Type} {name : α → String} {ds ds' : List α} (h : ds.Perm ds')
    (hdistinct : (ds.map name).Nodup) : (byName name ds).Equiv (byName name ds') :=
  foldl_insert_equiv id h hdistinct .rfl

theorem Scope.declareAll_equiv {α : Type} {name : α → String} {ds ds' : List α} (h : ds.Perm ds')
    (hdistinct : (ds.map name).Nodup) (id : α → NodeId) {s t : Scope} (hs : s.Equiv t) :
    (s.declareAll name id ds).Equiv (t.declareAll name id ds') :=
  foldl_insert_equiv id h hdistinct hs

namespace Use

def reference? : Use → Option (NodeId × NodeId)
  | bound site decl => some (site, decl)
  | undefined _ _ _ => none

variable {us vs : List Use} {m m' : NodeMap NodeId}

theorem references_eq_foldl (us : List Use) (m : NodeMap NodeId) :
    references us m = (us.filterMap reference?).foldl (fun m e => m.insert e.1 e.2) m := by
  induction us generalizing m with
  | nil => rfl
  | cons u us ih => cases u <;> exact ih _

theorem sublist_sites (us : List Use) :
    ((us.filterMap reference?).map Prod.fst).Sublist (sites us) := by
  induction us with
  | nil => exact List.nil_sublist _
  | cons u us ih =>
    cases u with
    | bound site decl => exact ih.cons_cons site
    | undefined site kind name => exact ih.cons site

/-- Uses at different nodes may be recorded in any order. -/
theorem references_equiv (h : us.Perm vs) (hdistinct : (sites us).Nodup) (hm : m.Equiv m') :
    (references us m).Equiv (references vs m') := by
  rw [references_eq_foldl, references_eq_foldl]
  exact foldl_insert_equiv Prod.snd (h.filterMap reference?)
    ((sublist_sites us).nodup hdistinct) hm

theorem references_congr (us : List Use) (hm : m.Equiv m') :
    (references us m).Equiv (references us m') := by
  rw [references_eq_foldl, references_eq_foldl]
  induction us.filterMap reference? generalizing m m' with
  | nil => exact hm
  | cons e es ih => exact ih (hm.insert e.1 e.2)

end Use

/-! ## Algorithms -/

/-- The same processes in any order. -/
inductive Processes.Permutes : Processes → Processes → Prop
  | single (body : List Stmt) : Permutes (.single body) (.single body)
  | multi {ps qs : List Process} (h : ps.Perm qs) : Permutes (.multi ps) (.multi qs)

namespace Algorithm

/-- The same parts, each kind of them in any order. -/
structure Permutes (a b : Algorithm) : Prop where
  constants : a.constants.Perm b.constants
  units : a.units.Perm b.units
  globals : a.globals.Perm b.globals
  procedures : a.procedures.Perm b.procedures
  archetypes : a.archetypes.Perm b.archetypes
  mappingMacros : a.mappingMacros.Perm b.mappingMacros
  instances : a.instances.Perm b.instances
  processes : a.processes.Permutes b.processes

/-- No name is declared twice. Constants, globals and operators share their names. -/
structure DistinctNames (a : Algorithm) : Prop where
  globals :
    (a.constants.map (·.value) ++ a.globals.map (·.name) ++ a.units.map (·.name)).Nodup
  procedures : (a.procedures.map (·.name)).Nodup
  archetypes : (a.archetypes.map (·.name)).Nodup
  mappingMacros : (a.mappingMacros.map (·.name)).Nodup

variable {a b : Algorithm}

theorem Permutes.symm (h : a.Permutes b) : b.Permutes a where
  constants := h.constants.symm
  units := h.units.symm
  globals := h.globals.symm
  procedures := h.procedures.symm
  archetypes := h.archetypes.symm
  mappingMacros := h.mappingMacros.symm
  instances := h.instances.symm
  processes := by
    have hprocesses := h.processes
    generalize a.processes = ps at hprocesses ⊢
    generalize b.processes = qs at hprocesses ⊢
    cases hprocesses with
    | single body => exact .single body
    | multi h => exact .multi h.symm

theorem globalScope_equiv (h : a.Permutes b) (hnames : a.DistinctNames) :
    a.globalScope.Equiv b.globalScope := by
  obtain ⟨hvariables, hunits, _⟩ := List.nodup_append.mp hnames.globals
  obtain ⟨hconstants, hglobals, _⟩ := List.nodup_append.mp hvariables
  exact Scope.declareAll_equiv h.units hunits _ (Scope.declareAll_equiv h.globals hglobals _
    (Scope.declareAll_equiv h.constants hconstants _ .rfl))

theorem bodyUses_congr (hp : a.procedureScope.Equiv b.procedureScope) {s t : Scope}
    (h : s.Equiv t) (decls : List Decl) (body : List Stmt) :
    a.bodyUses s decls body = b.bodyUses t decls body := by
  rw [bodyUses, bodyUses, Scope.declUses_congr h,
    Scope.stmtsUses_congr hp (Scope.declareDecls_congr h decls)]

/-- The parts of both algorithms use the same names in the same sense. -/
theorem uses_perm (h : a.Permutes b) (hnames : a.DistinctNames) : a.uses.Perm b.uses := by
  have hg := globalScope_equiv h hnames
  have hp : a.procedureScope.Equiv b.procedureScope :=
    Scope.declareAll_equiv h.procedures hnames.procedures _ .rfl
  have hx : a.archetypeScope.Equiv b.archetypeScope :=
    Scope.declareAll_equiv h.archetypes hnames.archetypes _ .rfl
  have hm : a.mappingMacroScope.Equiv b.mappingMacroScope :=
    Scope.declareAll_equiv h.mappingMacros hnames.mappingMacros _ .rfl
  have hinit : a.globalScope.initUses = b.globalScope.initUses :=
    funext (Scope.initUses_congr hg)
  have hunit : a.globalScope.definitionUse = b.globalScope.definitionUse :=
    funext (Scope.definitionUse_congr hg)
  have hprocedure : a.procedureUses = b.procedureUses :=
    funext fun p => bodyUses_congr hp (Scope.declare_congr hg "self" p.selfId) _ _
  have harchetype : a.archetypeUses = b.archetypeUses :=
    funext fun x => bodyUses_congr hp (Scope.declare_congr hg "self" x.selfId) _ _
  have hmacro : a.mappingMacroUses = b.mappingMacroUses := by
    funext m
    have hread := Scope.declare_congr hg "$variable" m.variableId
    rw [mappingMacroUses, mappingMacroUses, bodyUses_congr hp hread,
      bodyUses_congr hp (Scope.declare_congr hread "$value" m.valueId)]
  have hmapping : a.mappingUses = b.mappingUses := by
    funext m
    rw [mappingUses, mappingUses, Scope.exprUses_congr hg, Scope.missing_congr hm]
  have hinstance : a.instanceUses = b.instanceUses := by
    funext i
    rw [instanceUses, instanceUses, hinit, Scope.missing_congr hx, hmapping,
      Scope.listUses_congr (Scope.declare_congr hg "self" i.name.id)]
  have hprocess : a.processUses = b.processUses := by
    funext p
    rw [processUses, processUses, hinit,
      bodyUses_congr hp (Scope.declare_congr hg "self" p.name.id)]
  unfold uses
  rw [hinit, hunit, hprocedure, harchetype, hmacro, hinstance]
  refine ((((((h.globals.flatMap_right _).append (h.units.flatMap_right _)).append
    (h.procedures.flatMap_right _)).append (h.archetypes.flatMap_right _)).append
    (h.mappingMacros.flatMap_right _)).append (h.instances.flatMap_right _)).append ?_
  have hprocesses := h.processes
  generalize a.processes = ps at hprocesses ⊢
  generalize b.processes = qs at hprocesses ⊢
  cases hprocesses with
  | single body =>
    dsimp only
    rw [bodyUses_congr hp hg]
  | multi h =>
    dsimp only
    rw [hprocess]
    exact h.flatMap_right _

end Algorithm

/-- A typing does not see the order of the parts. -/
theorem Typing.AlgorithmTyped.permutes {τ : Typing} {r : Registry} {a b : Algorithm}
    (hτ : τ.AlgorithmTyped r a) (h : a.Permutes b) : τ.AlgorithmTyped r b where
  constants := hτ.constants
  globals d hd := hτ.globals d (h.globals.mem_iff.mpr hd)
  units d hd := hτ.units d (h.units.mem_iff.mpr hd)
  procedures p hp := hτ.procedures p (h.procedures.mem_iff.mpr hp)
  archetypes x hx := hτ.archetypes x (h.archetypes.mem_iff.mpr hx)
  mappingMacros m hm := hτ.mappingMacros m (h.mappingMacros.mem_iff.mpr hm)
  instances i hi := hτ.instances i (h.instances.mem_iff.mpr hi)
  processes := by
    have htyped := hτ.processes
    have hprocesses := h.processes
    generalize a.processes = ps at htyped hprocesses
    generalize b.processes = qs at hprocesses ⊢
    cases hprocesses with
    | single body => exact htyped
    | multi h => exact fun p hp => htyped p (h.mem_iff.mpr hp)

/-! ## Registries -/

namespace Registry

/-- Give values to constants one after the other. A value that is refused is
passed over. -/
def supply (r : Registry) (values : List (String × Expr)) : Registry :=
  values.foldl (fun r v => (r.setConstantValue v.1 v.2).toOption.getD r) r

variable {a b : Algorithm} {r r' : Registry}

theorem Prepared.supply (h : Prepared a r) (values : List (String × Expr)) :
    Prepared a (r.supply values) := by
  induction values generalizing r with
  | nil => exact h
  | cons v values ih =>
    refine ih ?_
    dsimp only
    cases hset : r.setConstantValue v.1 v.2 with
    | error _ => exact h
    | ok r' => exact h.setConstantValue hset

theorem alike_ofAlgorithm (h : a.Permutes b) (hnodes : a.nodes.Nodup)
    (hnames : a.DistinctNames) : (ofAlgorithm a).Alike (ofAlgorithm b) where
  references := Use.references_equiv (a.uses_perm h hnames) (a.sites_sublist.nodup hnodes) .rfl
  globalScope := Algorithm.globalScope_equiv h hnames
  constants := h.constants
  distinct := (List.nodup_append.mp (List.nodup_append.mp hnames.globals).1).1
  constantValues := .rfl
  procedures := byName_equiv h.procedures hnames.procedures
  archetypes := byName_equiv h.archetypes hnames.archetypes
  mappingMacros := byName_equiv h.mappingMacros hnames.mappingMacros
  diagnostics := (Algorithm.uses_perm h hnames).filterMap _

theorem Alike.setConstantValue (h : r.Alike r') (name : String) (value : Expr) :
    ((r.setConstantValue name value).toOption.getD r).Alike
      ((r'.setConstantValue name value).toOption.getD r') := by
  unfold Registry.setConstantValue
  rw [find?_eq_of_perm h.constants h.distinct, Scope.exprUses_congr h.globalScope]
  split
  · exact h
  · next c _ =>
    dsimp only
    split
    · exact { h with
        references := Use.references_congr _ h.references
        constantValues := h.constantValues.insert c.id value }
    · exact h

theorem Alike.supply (h : r.Alike r') (values : List (String × Expr)) :
    (r.supply values).Alike (r'.supply values) := by
  induction values generalizing r r' with
  | nil => exact h
  | cons v values ih => exact ih (h.setConstantValue v.1 v.2)

end Registry

end PlusCalTyping
