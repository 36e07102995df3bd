import PlusCalTyping.Proofs.Typing.Registries

/-! # Mapped globals

The arguments of an instance and the parameters of its archetype share types
pairwise, since both belong to the signature of the archetype. A parameter that
a mapped global is passed to by reference shares its types with what the macro
reads and writes, and so the global does. But only the first argument that
refers to the global is looked at (`share_of_mapping`): if that one is passed by
copy, the macro is passed over, though the global may be passed by reference
further on.
-/

namespace PlusCalTyping

/-- The expression is a name, or a reference to one. -/
def Expr.isName : Expr → Bool
  | .ident _ _ | .ref _ _ => true
  | _ => false

namespace Typing

variable {τ : Typing} {r : Registry}

theorem ListTyped.of_mem {es : List Expr} (h : τ.ListTyped r es) {e : Expr} (he : e ∈ es) :
    τ.ExprTyped r e := by
  induction es with
  | nil => cases he
  | cons e' es ih =>
    rcases List.mem_cons.mp he with rfl | he
    · exact h.1
    · exact ih h.2 he

theorem ExprTyped.refers {e : Expr} (h : τ.ExprTyped r e) (he : e.isName) : τ.Refers r e.id := by
  cases e with
  | ident | ref => exact h
  | _ => cases he

theorem HasAll.share {ms ns : List NodeId} {ts us : List Ty} (hms : τ.HasAll ms ts)
    (hns : τ.HasAll ns us) (h : Ty.agreesList ts us) : List.Forall₂ τ.Share ms ns := by
  induction hms generalizing ns us with
  | nil =>
    cases hns with
    | nil => exact .nil
    | cons _ _ => cases h
  | cons hm _ ih =>
    cases hns with
    | nil => cases h
    | cons hn hns =>
      obtain ⟨hfirst, hrest⟩ := Bool.and_eq_true_iff.mp h
      exact .cons (hm.share hn hfirst) (ih hns hrest)

/-- Nodes that make up the signature at one node share their types pairwise. -/
theorem SignatureTyped.share {n : NodeId} {ms ns : List NodeId} (hms : τ.SignatureTyped n ms)
    (hns : τ.SignatureTyped n ns) : List.Forall₂ τ.Share ms ns := by
  obtain ⟨ts, hts, ht⟩ := hms
  obtain ⟨us, hus, hu⟩ := hns
  exact hts.share hus (ht.agrees hu)

/-- The arguments of an instance have the types of the parameters. -/
theorem InstanceTyped.share_param {i : Instance} (h : τ.InstanceTyped r i) {x : Archetype}
    (hx : r.findArchetype i.target = some x) (hxtyped : τ.ArchetypeTyped r x) {k : Nat}
    {arg : Expr} (harg : i.args[k]? = some arg) {p : Param} (hp : x.params[k]? = some p) :
    τ.Share arg.id p.decl.id := by
  obtain ⟨x', hx', hsignature, _⟩ := h.target
  rw [hx] at hx'
  cases hx'
  have hshare := hsignature.share hxtyped.signature
  rw [List.forall₂_map_left_iff, List.forall₂_map_right_iff] at hshare
  obtain ⟨hk, rfl⟩ := List.getElem?_eq_some_iff.mp harg
  obtain ⟨hk', rfl⟩ := List.getElem?_eq_some_iff.mp hp
  exact hshare.get hk hk'

end Typing

/-- The parameter that is found for a global belongs to the first argument that
refers to it. -/
theorem Drafting.paramOf?_eq_some {r : Registry} {args : List Expr} {params : List Param}
    {g : NodeId} {k : Nat} {arg : Expr} {p : Param} (harg : args[k]? = some arg)
    (hg : r.followReference arg.id = some g)
    (hfirst : ∀ j < k, ∀ e, args[j]? = some e → r.followReference e.id ≠ some g)
    (hp : params[k]? = some p) : paramOf? r args params g = some p := by
  have hindex : args.findIdx? (fun e => r.followReference e.id = some g) = some k := by
    obtain ⟨hk, rfl⟩ := List.getElem?_eq_some_iff.mp harg
    refine List.findIdx?_eq_some_iff_getElem.mpr ⟨hk, decide_eq_true hg, fun j hj => ?_⟩
    exact decide_eq_true_iff.not.mpr (hfirst j hj _ (List.getElem?_eq_getElem _))
  rw [paramOf?, hindex]
  exact hp

namespace Registry

variable {a : Algorithm} {r : Registry} {o : Options} {f : Findings}

/-- After a check without errors, a mapped global has the types that its macro
reads and writes, if the first argument that refers to the global is passed by
reference. -/
theorem share_of_mapping (hr : Belongs a r) (hok : (r.check a o).1 = .ok f) {i : Instance}
    (hi : i ∈ a.instances) {x : Archetype} (hx : r.findArchetype i.target = some x)
    {m : Mapping} (hm : m ∈ i.mappings) {y : MappingMacro}
    (hy : r.findMappingMacro m.macroName = some y) {g : NodeId}
    (hmapped : r.followReference m.variableExpr.id = some g) {k : Nat} {arg : Expr}
    (harg : i.args[k]? = some arg) (hname : arg.isName) (hg : r.followReference arg.id = some g)
    (hfirst : ∀ j < k, ∀ e, i.args[j]? = some e → r.followReference e.id ≠ some g) {p : Param}
    (hp : x.params[k]? = some p) (href : p.byRef) :
    Typing.Share f.typeOf y.readValueId g ∧ Typing.Share f.typeOf y.valueId g := by
  have htyped := hr.algorithmTyped hok
  have hinstance := htyped.instances i hi
  have hparam := Drafting.paramOf?_eq_some harg hg hfirst hp
  have hslots : Typing.Share f.typeOf p.decl.id y.readValueId ∧
      Typing.Share f.typeOf p.decl.id y.valueId := by
    obtain ⟨x', hx', _, hmappings⟩ := hinstance.target
    rw [hx] at hx'
    cases hx'
    exact (hmappings m hm).param g p y hmapped hparam href hy
  -- From the macro to the parameter, to the argument, and to what it refers to.
  have hglobal : Typing.Share f.typeOf p.decl.id g := by
    have hsignature := hinstance.share_param hx
      (htyped.archetypes x (hr.knows.mem_archetypes hx)) harg hp
    obtain ⟨g', hg', hrefers⟩ :=
      (hinstance.args.of_mem (List.mem_of_getElem? harg)).refers hname
    rw [hg] at hg'
    cases hg'
    exact hsignature.symm.trans hrefers
  exact ⟨hslots.1.symm.trans hglobal, hslots.2.symm.trans hglobal⟩

/-- A real global is passed by reference first and by copy second. -/
theorem share_of_mapping_negated :
    let g : Decl := ⟨⟨1⟩, "g", some (.value (.literal ⟨0⟩ (.real 1.5)))⟩
    let archetype : Archetype :=
      ⟨⟨4⟩, "W", ⟨5⟩, [⟨⟨⟨2⟩, "x", none⟩, true⟩, ⟨⟨⟨3⟩, "y", none⟩, false⟩], [], []⟩
    let negated : MappingMacro := ⟨⟨11⟩, "M", ⟨12⟩, ⟨13⟩, ⟨14⟩,
      [.yield ⟨8⟩ (.unary ⟨7⟩ .neg (.ident ⟨6⟩ "$variable"))],
      [.yield ⟨10⟩ (.ident ⟨9⟩ "$value")]⟩
    let worker : Instance := ⟨⟨21⟩, ⟨⟨16⟩, "I", some (.value (.literal ⟨15⟩ (.string "i")))⟩, "W",
      [.ref ⟨17⟩ "g", .ident ⟨18⟩ "g"], [⟨⟨19⟩, .ident ⟨20⟩ "g", "M"⟩]⟩
    let a : Algorithm := {
      globals := [g], archetypes := [archetype], mappingMacros := [negated]
      instances := [worker] }
    ∃ f, ((ofAlgorithm a).check a {}).1 = .ok f ∧
      Typing.Share f.typeOf negated.readValueId g.id ∧
      Typing.Share f.typeOf negated.valueId g.id := by
  -- Nothing depends on the number.
  generalize (1.5 : Float) = number
  intro g archetype negated worker a
  cases h : ((ofAlgorithm a).check a {}).1 with
  | error e =>
    have hok : ((ofAlgorithm a).check a {}).1.isOk = true := by cbv
    rw [h] at hok
    cases hok
  | ok f =>
    have hfirst : ∀ j < 0, ∀ e, worker.args[j]? = some e →
        (ofAlgorithm a).followReference e.id ≠ some g.id :=
      fun j hj => absurd hj (Nat.not_lt_zero j)
    exact ⟨f, rfl, share_of_mapping .ofAlgorithm h List.mem_cons_self (x := archetype) (by cbv)
      List.mem_cons_self (y := negated) (by cbv) (by cbv) rfl rfl (by cbv) hfirst rfl rfl⟩

/-- A real global is passed by copy first and by reference second. The macro is
passed over, and what it reads and writes are integers. -/
theorem not_share_of_mapping :
    let g : Decl := ⟨⟨1⟩, "g", some (.value (.literal ⟨0⟩ (.real 1.5)))⟩
    let archetype : Archetype :=
      ⟨⟨4⟩, "W", ⟨5⟩, [⟨⟨⟨2⟩, "x", none⟩, false⟩, ⟨⟨⟨3⟩, "y", none⟩, true⟩], [], []⟩
    let negated : MappingMacro := ⟨⟨11⟩, "M", ⟨12⟩, ⟨13⟩, ⟨14⟩,
      [.yield ⟨8⟩ (.unary ⟨7⟩ .neg (.ident ⟨6⟩ "$variable"))],
      [.yield ⟨10⟩ (.ident ⟨9⟩ "$value")]⟩
    let mapping : Mapping := ⟨⟨19⟩, .ident ⟨20⟩ "g", "M"⟩
    let worker : Instance := ⟨⟨21⟩, ⟨⟨16⟩, "I", some (.value (.literal ⟨15⟩ (.string "i")))⟩, "W",
      [.ident ⟨17⟩ "g", .ref ⟨18⟩ "g"], [mapping]⟩
    let a : Algorithm := {
      globals := [g], archetypes := [archetype], mappingMacros := [negated]
      instances := [worker] }
    ∃ f, ((ofAlgorithm a).check a {}).1 = .ok f ∧
      (ofAlgorithm a).findArchetype "W" = some archetype ∧
      (ofAlgorithm a).findMappingMacro "M" = some negated ∧
      (ofAlgorithm a).followReference ⟨20⟩ = some g.id ∧
      (ofAlgorithm a).followReference ⟨18⟩ = some g.id ∧
      ¬Typing.Share f.typeOf negated.readValueId g.id ∧
      ¬Typing.Share f.typeOf negated.valueId g.id := by
  generalize (1.5 : Float) = number
  intro g archetype negated mapping worker a
  have htypes : ((ofAlgorithm a).check a {}).1.toOption.map (fun f =>
      ((f.typeOf ⟨1⟩).map Ty.bare, (f.typeOf ⟨14⟩).map Ty.bare, (f.typeOf ⟨13⟩).map Ty.bare)) =
        some (some (.prim .real .none), some (.prim .int .none), some (.prim .int .none)) := by
    cbv
  cases h : ((ofAlgorithm a).check a {}).1 with
  | error e =>
    rw [h] at htypes
    cases htypes
  | ok f =>
    rw [h] at htypes
    obtain ⟨hglobal, hvalues⟩ := Prod.mk.inj (Option.some.inj htypes)
    obtain ⟨hread, hvalue⟩ := Prod.mk.inj hvalues
    refine ⟨f, rfl, by cbv, by cbv, by cbv, by cbv, fun hshare => ?_, fun hshare => ?_⟩
    · have hbare := hshare.map_bare
      rw [hread, hglobal] at hbare
      cases hbare
    · have hbare := hshare.map_bare
      rw [hvalue, hglobal] at hbare
      cases hbare

end Registry

end PlusCalTyping
