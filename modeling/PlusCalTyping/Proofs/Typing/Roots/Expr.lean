import PlusCalTyping.Proofs.Solver.Roots
import PlusCalTyping.Proofs.Typing.Coverage.Expr

/-! # Roots of the constraints of expressions

Going through an expression gives variables to its nodes and to what its names refer
to, and the types in its constraints come from its nodes. So a draft that only knows
nodes with a property is left with such nodes only (`Drafting.roots_infer`), provided
that the expression and the declarations of its names are at such nodes. Whether the
names have declarations at all does not matter, nor how often a node occurs.
-/

namespace PlusCalTyping

variable {P : NodeId → Prop}

/-- Nodes with variables have the property, and constraints are rooted in such nodes. -/
structure Draft.Rooted (P : NodeId → Prop) (d : Draft) : Prop where
  vars : ∀ n ∈ d.vars, P n
  constraints : ∀ k ∈ d.collection.constraints, k.Rooted P

/-- All that a registry leads to has the property. -/
structure Registry.Rooted (P : NodeId → Prop) (r : Registry) : Prop where
  leads (n : NodeId) : r.Leads P n
  constants : ∀ c ∈ r.constants, P c.id
  values (c : NodeId) (value : Expr) : r.constantValue c = some value → ∀ n ∈ value.nodes, P n
  procedures (name : String) (p : Procedure) : r.findProcedure name = some p → P p.selfId
  archetypes (name : String) (x : Archetype) : r.findArchetype name = some x → P x.id
  mappingMacros (name : String) (m : MappingMacro) : r.findMappingMacro name = some m →
    P m.readValueId ∧ P m.valueId

/-- What is seen around a part is rooted in nodes with the property. -/
structure Surroundings.Rooted (P : NodeId → Prop) (around : Surroundings) : Prop where
  registry : around.registry.Rooted P
  self : ∀ n ∈ around.self, P n
  yielded (t : Ty) : around.role = .macroRead t ∨ around.role = .macroWrite t → t.Rooted P

namespace Drafting

variable {α β γ : Type} {m : Drafting α} {f : α → Drafting β} {found : α → Prop}
  {found' : β → Prop} {n : NodeId} {t u w : Ty}

/-- A part leaves a rooted draft rooted, and what it gives has the second property. -/
def Roots (P : NodeId → Prop) (m : Drafting α) (found : α → Prop) : Prop :=
  ∀ d : Draft, d.Rooted P → (m d).2.Rooted P ∧ found (m d).1

theorem roots_pure {x : α} (h : found x) : Roots P (pure x) found := fun _ hd => ⟨hd, h⟩

theorem Roots.bind (h : Roots P m found) (hf : ∀ x, found x → Roots P (f x) found') :
    Roots P (m >>= f) found' := by
  intro d hd
  obtain ⟨hd', hfound⟩ := h d hd
  exact hf _ hfound _ hd'

theorem roots_forM {g : γ → Drafting Unit} {xs : List γ}
    (h : ∀ x ∈ xs, Roots P (g x) fun _ => True) : Roots P (xs.forM g) fun _ => True := by
  induction xs with
  | nil => exact roots_pure trivial
  | cons x xs ih =>
    obtain ⟨hx, hxs⟩ := List.forall_mem_cons.mp h
    exact hx.bind fun _ _ => ih hxs

theorem roots_mapM {g : γ → Drafting α} {xs : List γ} (h : ∀ x ∈ xs, Roots P (g x) found) :
    Roots P (xs.mapM g) fun ys => ∀ y ∈ ys, found y := by
  induction xs with
  | nil => exact roots_pure (List.forall_mem_nil _)
  | cons x xs ih =>
    obtain ⟨hx, hxs⟩ := List.forall_mem_cons.mp h
    rw [List.mapM_cons]
    exact hx.bind fun y hy => (ih hxs).bind fun ys hys =>
      roots_pure (List.forall_mem_cons.mpr ⟨hy, hys⟩)

/-! ## Steps -/

theorem roots_get : Roots P get fun _ => True := fun _ hd => ⟨hd, trivial⟩

theorem roots_fresh : Roots P fresh (·.Rooted P) :=
  fun _ hd => ⟨⟨hd.vars, hd.constraints⟩, Ty.rooted_var _⟩

theorem roots_varOf (hn : P n) : Roots P (varOf n) fun _ => True := by
  intro d hd
  rw [varOf_eq]
  cases d.vars[n]? with
  | some v => exact ⟨hd, trivial⟩
  | none =>
    refine ⟨⟨fun k hk => ?_, hd.constraints⟩, trivial⟩
    rcases Std.TreeMap.mem_insert.mp hk with heq | hk
    · rwa [← Std.LawfulEqCmp.compare_eq_iff_eq.mp heq]
    · exact hd.vars k hk

theorem roots_typeOf (hn : P n) : Roots P (typeOf n) (·.Rooted P) :=
  (roots_varOf hn).bind fun v _ => roots_pure (Ty.rooted_var v)

theorem roots_record (n : NodeId) (rule : TypingRule) (t : Ty) (detail : String) :
    Roots P (record n rule t detail) fun _ => True := by
  refine fun d hd => ⟨⟨hd.vars, fun k hk => hd.constraints k ?_⟩, trivial⟩
  rwa [← d.collection.constraints_record n rule t detail]

theorem roots_add {k : Constraint} (hk : k.Rooted P) : Roots P (add k) fun _ => True :=
  fun _ hd => ⟨⟨hd.vars, fun k' hk' =>
    (Array.mem_push.mp hk').elim (hd.constraints k') (· ▸ hk)⟩, trivial⟩

theorem roots_demand (hn : P n) (ht : t.Rooted P) (hu : u.Rooted P) (reason : Reason) :
    Roots P (demand t u n reason) fun _ => True := roots_add ⟨hn, ht, hu⟩

theorem roots_demandEither (hn : P n) (ht : t.Rooted P) (hu : u.Rooted P) (hw : w.Rooted P)
    (reason : Reason) : Roots P (demandEither t u w n reason) fun _ => True := by
  refine roots_add ⟨hn, fun e he => ?_⟩
  rcases List.mem_pair.mp he with rfl | rfl
  · exact ⟨hn, ht, hu⟩
  · exact ⟨hn, ht, hw⟩

theorem rooted_prim (hn : P n) (p : Prim) : (Ty.prim p (.single n)).Rooted P :=
  Ty.rooted_prim.mpr (Origins.rooted_single.mpr hn)

theorem roots_demandBool (hn : P n) (ht : t.Rooted P) :
    Roots P (demandBool n t) fun _ => True := roots_demand hn (rooted_prim hn .bool) ht _

theorem roots_demandNumeric (hn : P n) (ht : t.Rooted P) {operands : List Ty}
    (h : ∀ u ∈ operands, u.Rooted P) (reason : Reason) :
    Roots P (demandNumeric t operands n reason) fun _ => True :=
  (roots_forM fun u hu => roots_demand hn ht (h u hu) reason).bind fun _ _ =>
    roots_demandEither hn ht (rooted_prim hn .int) (rooted_prim hn .real) reason

theorem roots_demandIdentity (hn : P n) : Roots P (demandIdentity n) fun _ => True :=
  (roots_typeOf hn).bind fun _ ht =>
    (roots_demandEither hn ht (rooted_prim hn .int) (rooted_prim hn .string) _).bind fun _ _ =>
    roots_record _ _ _ _

theorem roots_settle (hn : P n) (ht : t.Rooted P) : Roots P (settle n t) (·.Rooted P) :=
  (roots_typeOf hn).bind fun _ hv => (roots_demand hn hv ht _).bind fun _ _ => roots_pure hv

theorem roots_conclude (hn : P n) (rule : TypingRule) (ht : t.Rooted P) :
    Roots P (conclude n rule t) (·.Rooted P) :=
  (roots_record n rule t "").bind fun _ _ => roots_settle hn ht

theorem roots_slots? (around : Surroundings) (decl : NodeId) :
    Roots P (slots? around decl) fun _ => True := by
  intro d hd
  rw [slots?_snd]
  exact ⟨hd, trivial⟩

theorem roots_nameType {around : Surroundings} {site : NodeId}
    (h : around.registry.Leads P site) (slot : Slots → TypeVar) :
    Roots P (nameType around site slot) (·.Rooted P) := by
  unfold nameType
  split
  · exact roots_fresh
  · next decl hdecl =>
    refine (roots_slots? around decl).bind fun s _ => ?_
    cases s with
    | some s => exact roots_pure (Ty.rooted_var _)
    | none => exact roots_typeOf (h decl hdecl)

/-! ## Operators -/

theorem rooted_keyType (hn : P n) {ts : List Ty} (h : ∀ t ∈ ts, t.Rooted P) :
    (keyType n ts).Rooted P := by
  match ts with
  | [t] => exact h t List.mem_cons_self
  | [] | _ :: _ :: _ => exact Ty.rooted_tuple.mpr ⟨Origins.rooted_single.mpr hn, h⟩

theorem roots_unaryType (hn : P n) (op : UnaryOp) (ht : t.Rooted P) :
    Roots P (unaryType n op t) (·.Rooted P) := by
  have hown : (Origins.single n).Rooted P := Origins.rooted_single.mpr hn
  cases op with
  | not =>
    exact (roots_demand hn (rooted_prim hn .bool) ht _).bind fun _ _ =>
      roots_pure (rooted_prim hn .bool)
  | neg =>
    exact roots_fresh.bind fun _ hu =>
      (roots_demandNumeric hn hu (List.forall_mem_singleton.mpr ht) _).bind fun _ _ =>
      roots_pure hu
  | domain =>
    exact roots_fresh.bind fun _ hk => roots_fresh.bind fun _ hv =>
      (roots_demand hn (Ty.rooted_map.mpr ⟨hown, hk, hv⟩) ht _).bind fun _ _ =>
      roots_pure (Ty.rooted_set.mpr ⟨hown, hk⟩)
  | powerSet =>
    refine roots_fresh.bind fun _ hu => ?_
    have hset := Ty.rooted_set.mpr ⟨hown, hu⟩
    exact (roots_demand hn hset ht _).bind fun _ _ =>
      roots_pure (Ty.rooted_set.mpr ⟨hown, hset⟩)
  | bigUnion =>
    refine roots_fresh.bind fun _ hu => ?_
    have hset := Ty.rooted_set.mpr ⟨hown, hu⟩
    exact (roots_demand hn (Ty.rooted_set.mpr ⟨hown, hset⟩) ht _).bind fun _ _ =>
      roots_pure hset
  | cardinality =>
    exact roots_fresh.bind fun _ hu =>
      (roots_demand hn (Ty.rooted_set.mpr ⟨hown, hu⟩) ht _).bind fun _ _ =>
      roots_pure (rooted_prim hn .int)

variable {left right : NodeId × Ty}

theorem roots_demandBoth (ht : t.Rooted P) (hleft : P left.1 ∧ left.2.Rooted P)
    (hright : P right.1 ∧ right.2.Rooted P) (reason : Reason) :
    Roots P (demandBoth t left right reason) fun _ => True :=
  (roots_demand hleft.1 ht hleft.2 _).bind fun _ _ => roots_demand hright.1 ht hright.2 _

theorem roots_binaryType (hn : P n) (op : BinaryOp) (hleft : P left.1 ∧ left.2.Rooted P)
    (hright : P right.1 ∧ right.2.Rooted P) :
    Roots P (binaryType n op left right) (·.Rooted P) := by
  have hown : (Origins.single n).Rooted P := Origins.rooted_single.mpr hn
  have hoperands : ∀ u ∈ [left.2, right.2], u.Rooted P :=
    List.forall_mem_cons.mpr ⟨hleft.2, List.forall_mem_singleton.mpr hright.2⟩
  have hbool := rooted_prim hn .bool
  have hprim (p : Prim) {u : Ty} (hu : u.Rooted P) (reason : Reason) :
      Roots P (do demandBoth (.prim p (.single n)) left right reason; return u) (·.Rooted P) :=
    (roots_demandBoth (rooted_prim hn p) hleft hright reason).bind fun _ _ => roots_pure hu
  cases op with
  | add | sub | mul =>
    exact roots_fresh.bind fun _ hu =>
      (roots_demandNumeric hn hu hoperands _).bind fun _ _ => roots_pure hu
  | lt | le | gt | ge =>
    exact roots_fresh.bind fun _ hu =>
      (roots_demandNumeric hn hu hoperands _).bind fun _ _ => roots_pure hbool
  | intDiv | mod => exact hprim .int (rooted_prim hn .int) _
  | realDiv => exact hprim .real (rooted_prim hn .real) _
  | and | or | implies | equiv => exact hprim .bool hbool _
  | concat => exact hprim .string (rooted_prim hn .string) _
  | range => exact hprim .int (Ty.rooted_set.mpr ⟨hown, rooted_prim hn .int⟩) _
  | eq | neq =>
    exact (roots_demand hn hleft.2 hright.2 _).bind fun _ _ => roots_pure hbool
  | mem | notMem =>
    exact (roots_demand hn (Ty.rooted_set.mpr ⟨hown, hleft.2⟩) hright.2 _).bind fun _ _ =>
      roots_pure hbool
  | union | intersect | setMinus =>
    refine roots_fresh.bind fun _ hu => ?_
    have hset := Ty.rooted_set.mpr ⟨hown, hu⟩
    exact (roots_demandBoth hset hleft hright _).bind fun _ _ => roots_pure hset
  | subset =>
    exact roots_fresh.bind fun _ hu =>
      (roots_demandBoth (Ty.rooted_set.mpr ⟨hown, hu⟩) hleft hright _).bind fun _ _ =>
      roots_pure hbool

theorem roots_share {first : Option Ty} (hfirst : ∀ u ∈ first, u.Rooted P) (hn : P n)
    (ht : t.Rooted P) (reason : Reason) :
    Roots P (share reason first n t) fun shared => ∀ u ∈ shared, u.Rooted P := by
  cases first with
  | none => exact roots_pure fun u hu => Option.some.inj hu ▸ ht
  | some s =>
    exact (roots_demand hn (hfirst s rfl) ht _).bind fun _ _ => roots_pure hfirst

theorem roots_sharedOrFresh {first : Option Ty} (hfirst : ∀ u ∈ first, u.Rooted P) :
    Roots P (sharedOrFresh first) (·.Rooted P) := by
  cases first with
  | none => exact roots_fresh
  | some t => exact roots_pure (hfirst t rfl)

/-! ## Expressions -/

theorem roots_applied {id : NodeId} (hid : P id) {ts : List Ty} (ht : t.Rooted P)
    (hts : ∀ u ∈ ts, u.Rooted P) {finish : Ty → Drafting Ty}
    (hfinish : ∀ u, u.Rooted P → Roots P (finish u) (·.Rooted P)) :
    Roots P (do
        let value ← fresh
        demand t (.map (keyType id ts) value (.single id)) id .functionApply
        finish value) (·.Rooted P) := by
  refine roots_fresh.bind fun u hu => ?_
  have hmap := Ty.rooted_map.mpr ⟨Origins.rooted_single.mpr hid, rooted_keyType hid hts, hu⟩
  exact (roots_demand hid ht hmap _).bind fun _ _ => hfinish u hu

variable {around : Surroundings}

mutual

/-- An expression leaves a draft rooted in its nodes and those that its names refer to. -/
theorem roots_infer (hr : around.registry.Rooted P) : (e : Expr) → (∀ n ∈ e.nodes, P n) →
    Roots P (infer around e) (·.Rooted P)
  | .literal id value, h => by
    rw [infer]
    have hid := h id List.mem_cons_self
    refine roots_conclude hid _ ?_
    cases value <;> exact rooted_prim hid _
  | .ident id _, h | .ref id _, h => by
    rw [infer]
    exact (roots_nameType (hr.leads id) _).bind fun _ ht =>
      roots_conclude (h id List.mem_cons_self) _ ht
  | .tuple id elems, h => by
    rw [infer]
    obtain ⟨hid, helems⟩ := List.forall_mem_cons.mp h
    exact (roots_inferList hr elems helems).bind fun _ hts =>
      roots_conclude hid _ (Ty.rooted_tuple.mpr ⟨Origins.rooted_single.mpr hid, hts⟩)
  | .set id elems, h => by
    rw [infer]
    obtain ⟨hid, helems⟩ := List.forall_mem_cons.mp h
    exact (roots_inferElements hr elems none nofun helems).bind fun _ hfirst =>
      (roots_sharedOrFresh hfirst).bind fun _ ht =>
      roots_conclude hid _ (Ty.rooted_set.mpr ⟨Origins.rooted_single.mpr hid, ht⟩)
  | .unary id op operand, h => by
    rw [infer]
    obtain ⟨hid, hoperand⟩ := List.forall_mem_cons.mp h
    exact (roots_infer hr operand hoperand).bind fun _ ht =>
      (roots_unaryType hid op ht).bind fun _ hu => roots_conclude hid _ hu
  | .binary id op left right, h => by
    rw [infer]
    simp only [Expr.nodes, List.forall_mem_cons, List.forall_mem_append] at h
    obtain ⟨hid, hleft, hright⟩ := h
    exact (roots_infer hr left hleft).bind fun _ ht =>
      (roots_infer hr right hright).bind fun _ hu =>
      (roots_binaryType hid op ⟨hleft _ left.id_mem_nodes, ht⟩
        ⟨hright _ right.id_mem_nodes, hu⟩).bind fun _ hw => roots_conclude hid _ hw
  | .apply id func args, h => by
    rw [infer]
    simp only [Expr.nodes, List.forall_mem_cons, List.forall_mem_append] at h
    obtain ⟨hid, hfunc, hargs⟩ := h
    exact (roots_infer hr func hfunc).bind fun _ ht => (roots_inferList hr args hargs).bind
      fun _ hts => roots_applied hid ht hts fun _ hu => roots_conclude hid _ hu
  | .function id bounds body, h => by
    rw [infer]
    simp only [Expr.nodes, List.forall_mem_cons, List.forall_mem_append] at h
    obtain ⟨hid, hbounds, hbody⟩ := h
    exact (roots_inferBounds hr bounds hbounds).bind fun _ hts => (roots_infer hr body hbody).bind
      fun _ hu => roots_conclude hid _ (Ty.rooted_map.mpr
        ⟨Origins.rooted_single.mpr hid, rooted_keyType hid hts, hu⟩)
  | .refinement id bound predicate, h => by
    rw [infer]
    simp only [Expr.nodes, List.forall_mem_cons, List.forall_mem_append] at h
    obtain ⟨hid, hbound, hpredicate⟩ := h
    exact (roots_inferBound hr bound hbound).bind fun _ ht =>
      (roots_infer hr predicate hpredicate).bind fun _ hu =>
      (roots_demandBool (hpredicate _ predicate.id_mem_nodes) hu).bind fun _ _ =>
      roots_conclude hid _ (Ty.rooted_set.mpr ⟨Origins.rooted_single.mpr hid, ht⟩)
  | .comprehension id body bounds, h => by
    rw [infer]
    simp only [Expr.nodes, List.forall_mem_cons, List.forall_mem_append] at h
    obtain ⟨hid, hbounds, hbody⟩ := h
    exact (roots_inferBounds hr bounds hbounds).bind fun _ _ => (roots_infer hr body hbody).bind
      fun _ hu => roots_conclude hid _ (Ty.rooted_set.mpr ⟨Origins.rooted_single.mpr hid, hu⟩)
  | .quantified id _ bounds body, h => by
    rw [infer]
    simp only [Expr.nodes, List.forall_mem_cons, List.forall_mem_append] at h
    obtain ⟨hid, hbounds, hbody⟩ := h
    exact (roots_inferBounds hr bounds hbounds).bind fun _ _ => (roots_infer hr body hbody).bind
      fun _ hu => (roots_demandBool (hbody _ body.id_mem_nodes) hu).bind fun _ _ =>
      roots_conclude hid _ (rooted_prim hid .bool)
  | .choose id bound predicate, h => by
    rw [infer]
    simp only [Expr.nodes, List.forall_mem_cons, List.forall_mem_append] at h
    obtain ⟨hid, hbound, hpredicate⟩ := h
    exact (roots_inferBound hr bound hbound).bind fun _ ht =>
      (roots_infer hr predicate hpredicate).bind fun _ hu =>
      (roots_demandBool (hpredicate _ predicate.id_mem_nodes) hu).bind fun _ _ =>
      roots_conclude hid _ ht
  | .ite id condition thenBranch elseBranch, h => by
    rw [infer]
    simp only [Expr.nodes, List.forall_mem_cons, List.forall_mem_append] at h
    obtain ⟨hid, ⟨hcondition, hthen⟩, helse⟩ := h
    exact (roots_infer hr condition hcondition).bind fun _ ht =>
      (roots_demandBool (hcondition _ condition.id_mem_nodes) ht).bind fun _ _ =>
      (roots_infer hr thenBranch hthen).bind fun _ hu =>
      (roots_infer hr elseBranch helse).bind fun _ hw =>
      (roots_demand (helse _ elseBranch.id_mem_nodes) hu hw _).bind fun _ _ =>
      roots_conclude hid _ hu
  | .cases id arms none, h => by
    rw [infer]
    obtain ⟨hid, harms⟩ := List.forall_mem_cons.mp h
    exact (roots_checkArms hr arms harms).bind fun _ _ =>
      (roots_inferResults hr arms none nofun harms).bind fun _ hfirst =>
      (roots_sharedOrFresh hfirst).bind fun _ ht => roots_conclude hid _ ht
  | .cases id arms (some other), h => by
    rw [infer]
    simp only [Expr.nodes, List.forall_mem_cons, List.forall_mem_append] at h
    obtain ⟨hid, harms, hother⟩ := h
    exact (roots_checkArms hr arms harms).bind fun _ _ =>
      (roots_inferResults hr arms none nofun harms).bind fun _ hfirst =>
      (roots_infer hr other hother).bind fun _ ht =>
      (roots_share hfirst (hother _ other.id_mem_nodes) ht _).bind fun _ hshared =>
      (roots_sharedOrFresh hshared).bind fun _ hu => roots_conclude hid _ hu
  | .letIn id definitions body, h => by
    rw [infer]
    simp only [Expr.nodes, List.forall_mem_cons, List.forall_mem_append] at h
    obtain ⟨hid, hdefinitions, hbody⟩ := h
    exact (roots_inferDefinitions hr definitions hdefinitions).bind fun _ _ =>
      (roots_infer hr body hbody).bind fun _ ht => roots_conclude hid _ ht
  | .call id name args, h => by
    rw [infer]
    obtain ⟨hid, hargs⟩ := List.forall_mem_cons.mp h
    refine (roots_inferList hr args hargs).bind fun ts hts => roots_fresh.bind fun t ht => ?_
    dsimp only
    split
    · next decl hdecl =>
      refine (roots_typeOf (hr.leads id decl hdecl)).bind fun _ hs => ?_
      have hcalled := Ty.rooted_operator.mpr ⟨Origins.rooted_single.mpr hid, hts, ht⟩
      exact (roots_demand hid hs hcalled _).bind fun _ _ => roots_conclude hid _ ht
    · exact roots_conclude hid _ ht

theorem roots_inferList (hr : around.registry.Rooted P) : (es : List Expr) →
    (∀ n ∈ Expr.listNodes es, P n) →
    Roots P (inferList around es) fun ts => ∀ t ∈ ts, t.Rooted P
  | [], _ => by
    rw [inferList]
    exact roots_pure (List.forall_mem_nil _)
  | e :: es, h => by
    rw [inferList]
    obtain ⟨he, hes⟩ := List.forall_mem_append.mp h
    exact (roots_infer hr e he).bind fun _ ht => (roots_inferList hr es hes).bind fun _ hts =>
      roots_pure (List.forall_mem_cons.mpr ⟨ht, hts⟩)

theorem roots_inferElements (hr : around.registry.Rooted P) : (es : List Expr) →
    (first : Option Ty) → (∀ t ∈ first, t.Rooted P) → (∀ n ∈ Expr.listNodes es, P n) →
    Roots P (inferElements around first es) fun shared => ∀ t ∈ shared, t.Rooted P
  | [], _, hfirst, _ => by
    rw [inferElements]
    exact roots_pure hfirst
  | e :: es, first, hfirst, h => by
    rw [inferElements]
    obtain ⟨he, hes⟩ := List.forall_mem_append.mp h
    exact (roots_infer hr e he).bind fun _ ht =>
      (roots_share hfirst (he _ e.id_mem_nodes) ht _).bind fun shared hshared =>
      roots_inferElements hr es shared hshared hes

theorem roots_inferBound (hr : around.registry.Rooted P) : (b : Bound) →
    (∀ n ∈ Expr.boundNodes b, P n) →
    Roots P (inferBound around b) (·.Rooted P)
  | ⟨id, _, s⟩, h => by
    rw [inferBound]
    obtain ⟨hid, hs⟩ := List.forall_mem_cons.mp h
    exact (roots_infer hr s hs).bind fun _ ht => (roots_typeOf hid).bind fun _ hu =>
      (roots_demand hid (Ty.rooted_set.mpr ⟨Origins.rooted_single.mpr hid, hu⟩) ht _).bind
      fun _ _ => roots_pure hu

theorem roots_inferBounds (hr : around.registry.Rooted P) : (bs : List Bound) →
    (∀ n ∈ Expr.boundsNodes bs, P n) →
    Roots P (inferBounds around bs) fun ts => ∀ t ∈ ts, t.Rooted P
  | [], _ => by
    rw [inferBounds]
    exact roots_pure (List.forall_mem_nil _)
  | b :: bs, h => by
    rw [inferBounds]
    obtain ⟨hb, hbs⟩ := List.forall_mem_append.mp h
    exact (roots_inferBound hr b hb).bind fun _ ht =>
      (roots_inferBounds hr bs hbs).bind fun _ hts =>
      roots_pure (List.forall_mem_cons.mpr ⟨ht, hts⟩)

theorem roots_checkArms (hr : around.registry.Rooted P) : (arms : List Arm) →
    (∀ n ∈ Expr.armsNodes arms, P n) →
    Roots P (checkArms around arms) fun _ => True
  | [], _ => by
    rw [checkArms]
    exact roots_pure trivial
  | ⟨condition, result⟩ :: arms, h => by
    rw [checkArms]
    simp only [Expr.armsNodes, List.forall_mem_append] at h
    obtain ⟨⟨hcondition, _⟩, harms⟩ := h
    exact (roots_infer hr condition hcondition).bind fun _ ht =>
      (roots_demandBool (hcondition _ condition.id_mem_nodes) ht).bind fun _ _ =>
      roots_checkArms hr arms harms

theorem roots_inferResults (hr : around.registry.Rooted P) : (arms : List Arm) →
    (first : Option Ty) → (∀ t ∈ first, t.Rooted P) → (∀ n ∈ Expr.armsNodes arms, P n) →
    Roots P (inferResults around first arms) fun shared => ∀ t ∈ shared, t.Rooted P
  | [], _, hfirst, _ => by
    rw [inferResults]
    exact roots_pure hfirst
  | ⟨condition, result⟩ :: arms, first, hfirst, h => by
    rw [inferResults]
    simp only [Expr.armsNodes, List.forall_mem_append] at h
    obtain ⟨⟨_, hresult⟩, harms⟩ := h
    exact (roots_infer hr result hresult).bind fun _ ht =>
      (roots_share hfirst (hresult _ result.id_mem_nodes) ht _).bind fun shared hshared =>
      roots_inferResults hr arms shared hshared harms

theorem roots_inferDefinition (hr : around.registry.Rooted P) : (d : Definition) →
    (∀ n ∈ Expr.definitionNodes d, P n) →
    Roots P (inferDefinition around d) fun _ => True
  | ⟨id, name, args, body⟩, h => by
    rw [inferDefinition]
    simp only [Expr.definitionNodes, List.forall_mem_cons, List.forall_mem_append] at h
    obtain ⟨hid, hargs, hbody⟩ := h
    exact (roots_typeOf hid).bind fun _ hs =>
      (roots_mapM fun arg harg => roots_typeOf (hargs _ (List.mem_map_of_mem harg))).bind
      fun _ hts => (roots_infer hr body hbody).bind fun _ ht =>
      (roots_record _ _ _ _).bind fun _ _ =>
      roots_demand hid hs (Ty.rooted_operator.mpr ⟨Origins.rooted_single.mpr hid, hts, ht⟩) _

theorem roots_inferDefinitions (hr : around.registry.Rooted P) : (ds : List Definition) →
    (∀ n ∈ Expr.definitionsNodes ds, P n) →
    Roots P (inferDefinitions around ds) fun _ => True
  | [], _ => by
    rw [inferDefinitions]
    exact roots_pure trivial
  | d :: ds, h => by
    rw [inferDefinitions]
    obtain ⟨hd, hds⟩ := List.forall_mem_append.mp h
    exact (roots_inferDefinition hr d hd).bind fun _ _ => roots_inferDefinitions hr ds hds

end

end Drafting

end PlusCalTyping
