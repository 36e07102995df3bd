import PlusCalTyping.Proofs.Typing.DeclarationOrder
import PlusCalTyping.Proofs.Typing.Mappings

/-! # Identities of instances

An instance runs the body of its archetype under its own name. A process has the
identity that its body sees, and a call passes an identity on; but of the name
of an instance and of the identity that the body of its archetype sees, each is
an integer or a string for itself, and an integer unless something else makes it
a string. So the two have the same type just in case that both are strings in
every typing or neither is (`Registry.share_self_iff`).
-/

namespace PlusCalTyping

/-- Nothing but the integers is put in for variables. -/
theorem Ty.agrees_prim_of_subst_integersFor {ws : List TypeVar} {t : Ty} {p : Prim}
    (hp : p ≠ .int) (h : (t.subst (integersFor ws)).agrees (.prim p .none)) :
    t.agrees (.prim p .none) := by
  refine (intOr_of_subst_agrees h).resolve_left ?_
  rintro ⟨w, rfl⟩
  rw [subst, integersFor] at h
  split at h
  · exact hp (of_decide_eq_true h).symm
  · cases h

/-- Identities share their types if both are strings or neither is. -/
theorem Typing.HasIdentity.share_iff {τ : Typing} {m n : NodeId} (hm : τ.HasIdentity m)
    (hn : τ.HasIdentity n) :
    τ.Share m n ↔ (τ.Has m (.prim .string .none) ↔ τ.Has n (.prim .string .none)) := by
  constructor
  · exact fun h => ⟨h.symm.has, h.has⟩
  · intro h
    rcases hm with hint | hstring
    · rcases hn with hint' | hstring'
      · exact ⟨_, hint, hint'⟩
      · exact ⟨_, h.mpr hstring', hstring'⟩
    · exact ⟨_, hstring, h.mp hstring⟩

namespace Registry

variable {a : Algorithm} {r : Registry} {o : Options} {f : Findings} {n : NodeId} {p : Prim}

/-- The node has the primitive type in every typing of the algorithm. -/
def Forces (r : Registry) (a : Algorithm) (p : Prim) (n : NodeId) : Prop :=
  ∀ τ : Typing, τ.AlgorithmTyped r a → τ.Has n (.prim p .none)

/-- A check only finds a primitive type other than the integers where there is
no other typing. -/
theorem Belongs.forces_of_has (hr : Belongs a r) (hok : (r.check a o).1 = .ok f) (hp : p ≠ .int)
    (hn : Typing.Has f.typeOf n (.prim p .none)) : r.Forces a p n := by
  intro τ hτ
  obtain ⟨rfl, hnone⟩ := infer_of_check_eq_ok hok
  obtain ⟨_, hsolved, hreports, htypes⟩ := infer_of_not_hasErrors hr.knows.toDescribes hnone
  have hstop : (r.solution a o).Unstopped := by
    rw [Solution.Unstopped, hsolved]
    exact List.forall_mem_nil _
  -- The variable of the node is mentioned, and its value is the type of the node.
  obtain ⟨u, hu, hup⟩ := hn
  rw [Findings.typeOf, htypes, Session.types_resolve] at hu
  obtain ⟨v, hv, hu⟩ := Option.bind_eq_some_iff.mp hu
  have hknown := Session.verdict_eq_known_of_type hreports hv hu
  have hmem : v ∈ (r.solution a o).session.constrained := by
    by_contra hfresh
    have hregular := ((Session.regular_ofOptions o).advances_solve o
      (Draft.ofAlgorithm r a o).collection.constraints.toList).regular
    have hunused := Session.verdict_eq_unused hregular hfresh
    rw [← Solution.ofConstraints, ← solution, hknown] at hunused
    cases hunused
  obtain ⟨hvalue, _⟩ := Session.verdict_eq_known_iff.mp hknown
  rw [← hvalue] at hup
  -- What the equations give the variable is already that type, and solutions keep to it.
  obtain ⟨k, hk, hvk⟩ := mem_constrained_solution.mp hmem
  obtain ⟨θ, hθ, hnodes⟩ := Draft.exists_solution_of_algorithmTyped hτ o
  obtain ⟨σ, ws, hdefaults, hsolutions⟩ := defaulted_solution hstop hsolved
  obtain ⟨hinstance, _⟩ := hsolutions θ fun k hk => hθ k (Array.mem_toList_iff.mp hk)
  have hprim := Ty.agrees_prim_of_subst_integersFor hp
    (Ty.agrees_trans (Ty.agrees_symm (hdefaults v)) hup)
  have hθv := Ty.agrees_trans (Ty.agrees_symm (hinstance v)) (Ty.subst_agrees hprim)
  exact (hnodes k hk v hvk n hv).congr hθv

theorem Belongs.has_string_iff (hr : Belongs a r) (hok : (r.check a o).1 = .ok f) :
    Typing.Has f.typeOf n (.prim .string .none) ↔ r.Forces a .string n :=
  ⟨hr.forces_of_has hok nofun, fun h => h f.typeOf (hr.algorithmTyped hok)⟩

/-- After a check without errors, the identity that the body of an archetype sees
has the type of the name of an instance if both have to be strings or neither has. -/
theorem share_self_iff (hr : Belongs a r) (hok : (r.check a o).1 = .ok f) {i : Instance}
    (hi : i ∈ a.instances) {x : Archetype} (hx : r.findArchetype i.target = some x) :
    Typing.Share f.typeOf x.selfId i.name.id ↔
      (r.Forces a .string x.selfId ↔ r.Forces a .string i.name.id) := by
  have htyped := hr.algorithmTyped hok
  have hself := (htyped.archetypes x (hr.knows.mem_archetypes hx)).identity
  have hname := (htyped.instances i hi).identity
  rw [hself.share_iff hname, hr.has_string_iff hok, hr.has_string_iff hok]

/-- An instance passes its identity on as an argument, and the archetype compares
it with the one that it sees. -/
theorem share_self_argument :
    let archetype : Archetype := ⟨⟨4⟩, "A", ⟨5⟩, [⟨⟨⟨6⟩, "me", none⟩, false⟩], [],
      [.await ⟨10⟩ (.binary ⟨9⟩ .eq (.ident ⟨7⟩ "self") (.ident ⟨8⟩ "me"))]⟩
    let worker : Instance := ⟨⟨3⟩, ⟨⟨1⟩, "I", some (.value (.literal ⟨0⟩ (.string "i")))⟩, "A",
      [.ident ⟨2⟩ "self"], []⟩
    let a : Algorithm := { archetypes := [archetype], instances := [worker] }
    ∃ f, ((ofAlgorithm a).check a {}).1 = .ok f ∧
      Typing.Share f.typeOf archetype.selfId worker.name.id := by
  intro archetype worker a
  have harchetype : (ofAlgorithm a).findArchetype "A" = some archetype := by cbv
  have hself : (ofAlgorithm a).followReference ⟨7⟩ = some ⟨5⟩ := by cbv
  have hme : (ofAlgorithm a).followReference ⟨8⟩ = some ⟨6⟩ := by cbv
  have harg : (ofAlgorithm a).followReference ⟨2⟩ = some ⟨1⟩ := by cbv
  have hname : (ofAlgorithm a).Forces a .string ⟨1⟩ := by
    intro τ hτ
    obtain ⟨hliteral, hshare⟩ := (hτ.instances worker List.mem_cons_self).name
    exact hshare.has hliteral
  have hseen : (ofAlgorithm a).Forces a .string ⟨5⟩ := by
    intro τ hτ
    have hx := hτ.archetypes archetype List.mem_cons_self
    have hi := hτ.instances worker List.mem_cons_self
    have hparam := hi.share_param harchetype hx (k := 0) rfl rfl
    obtain ⟨⟨_, hargrefers, hargshare⟩, _⟩ := hi.args
    obtain ⟨⟨hcondition, _⟩, _⟩ := hx.body
    obtain ⟨⟨_, hselfrefers, hselfshare⟩, ⟨_, hmerefers, hmeshare⟩, hequal⟩ := hcondition
    cases harg.symm.trans hargrefers
    cases hself.symm.trans hselfrefers
    cases hme.symm.trans hmerefers
    obtain ⟨s, t, _, hs, ht, _, rfl, _⟩ := hequal
    have hboth : τ.Share ⟨7⟩ ⟨8⟩ := ⟨s, hs, ht⟩
    have hchain := (hselfshare.symm.trans hboth).trans (hmeshare.trans hparam.symm)
    exact (hchain.trans hargshare).has (hname τ hτ)
  cases h : ((ofAlgorithm a).check a {}).1 with
  | error e =>
    have hok : ((ofAlgorithm a).check a {}).1.isOk = true := by cbv
    rw [h] at hok
    cases hok
  | ok f =>
    exact ⟨f, rfl, (share_self_iff .ofAlgorithm h List.mem_cons_self harchetype).mpr
      (iff_of_true hseen hname)⟩

/-- The archetype prints the identity that it sees. It is an integer, though its
only instance is named by a string. -/
theorem not_share_self :
    let archetype : Archetype :=
      ⟨⟨2⟩, "A", ⟨3⟩, [], [], [.print ⟨1⟩ (.ident ⟨0⟩ "self")]⟩
    let worker : Instance :=
      ⟨⟨6⟩, ⟨⟨5⟩, "I", some (.value (.literal ⟨4⟩ (.string "i")))⟩, "A", [], []⟩
    let a : Algorithm := { archetypes := [archetype], instances := [worker] }
    ∃ f, ((ofAlgorithm a).check a {}).1 = .ok f ∧ worker ∈ a.instances ∧
      (ofAlgorithm a).findArchetype worker.target = some archetype ∧
      (ofAlgorithm a).isReferenced archetype.selfId ∧
      ¬Typing.Share f.typeOf archetype.selfId worker.name.id := by
  intro archetype worker a
  have htypes : ((ofAlgorithm a).check a {}).1.toOption.map
      (fun f => ((f.typeOf ⟨3⟩).map Ty.bare, (f.typeOf ⟨5⟩).map Ty.bare)) =
        some (some (.prim .int .none), some (.prim .string .none)) := by cbv
  cases h : ((ofAlgorithm a).check a {}).1 with
  | error e =>
    rw [h] at htypes
    cases htypes
  | ok f =>
    refine ⟨f, rfl, List.mem_cons_self, by cbv, by cbv, fun hshare => ?_⟩
    rw [h] at htypes
    obtain ⟨hself, hname⟩ := Prod.mk.inj (Option.some.inj htypes)
    have hbare := hshare.map_bare
    rw [hself, hname] at hbare
    cases hbare

end Registry

end PlusCalTyping
