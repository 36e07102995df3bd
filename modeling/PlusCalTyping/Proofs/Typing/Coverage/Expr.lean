import PlusCalTyping.Proofs.Typing.Coverage.Steps
import PlusCalTyping.Proofs.Typing.Coverage.TypedNodes

/-! # Coverage of expressions

The constraints of an expression give variables to all its nodes and settle each
expression in it once.
-/

namespace PlusCalTyping

/-- What the names at a node refer to has the predicate. -/
def Registry.Leads (r : Registry) (P : NodeId → Prop) (n : NodeId) : Prop :=
  ∀ decl, r.followReference n = some decl → P decl

/-- The node has the predicate, and so has what its name refers to. -/
def Registry.Safe (r : Registry) (P : NodeId → Prop) (n : NodeId) : Prop := P n ∧ r.Leads P n

theorem Registry.safe_of_forall {r : Registry} {P : NodeId → Prop} {ns : List NodeId}
    (hP : ∀ n ∈ ns, P n) (hleads : ∀ n ∈ ns, r.Leads P n) : ∀ n ∈ ns, r.Safe P n :=
  fun n hn => ⟨hP n hn, hleads n hn⟩

namespace Expr

/-- Conditions come before results while arms are gone through. -/
theorem mem_armsNodes_iff {arms : List Arm} {n : NodeId} :
    n ∈ armsNodes arms ↔
      n ∈ arms.flatMap (·.condition.nodes) ∨ n ∈ arms.flatMap (·.result.nodes) := by
  induction arms with
  | nil => simp [armsNodes]
  | cons x arms ih =>
    cases x
    simp only [armsNodes, List.flatMap_cons, List.mem_append, ih]
    tauto

theorem count_armsIds (arms : List Arm) (n : NodeId) :
    (armsIds arms).count n =
      (arms.flatMap (·.condition.ids)).count n + (arms.flatMap (·.result.ids)).count n := by
  induction arms with
  | nil => rfl
  | cons x arms ih =>
    cases x
    simp only [armsIds, List.flatMap_cons, List.count_append, ih]
    omega

end Expr

namespace Drafting

variable {α β : Type} {P : NodeId → Prop} {m : Drafting α} {f : α → Drafting β}

/-! ## Parts that visit nothing -/

theorem quiet_bind (h : Visits P m [] []) (hf : ∀ x, Visits P (f x) [] []) :
    Visits P (m >>= f) [] [] := h.bind hf

theorem quiet_demandBool (n : NodeId) (t : Ty) : Visits P (demandBool n t) [] [] :=
  visits_demand (by nofun) _ _ _

theorem quiet_demandBoth {reason : Reason} (h : reason ≠ .exprType) (t : Ty)
    (left right : NodeId × Ty) : Visits P (demandBoth t left right reason) [] [] :=
  quiet_bind (visits_demand h _ _ _) fun _ => visits_demand h _ _ _

theorem quiet_demandNumeric {reason : Reason} (h : reason ≠ .exprType) (shared : Ty)
    (operands : List Ty) (n : NodeId) :
    Visits P (demandNumeric shared operands n reason) [] [] := by
  refine quiet_bind ?_ fun _ => visits_demandEither h _ _ _ _
  induction operands with
  | nil => exact visits_pure ()
  | cons t ts ih => exact quiet_bind (visits_demand h _ _ _) fun _ => ih

theorem quiet_unaryType (n : NodeId) (op : UnaryOp) (t : Ty) :
    Visits P (unaryType n op t) [] [] := by
  have hop : Reason.unaryOp op ≠ .exprType := nofun
  cases op with
  | not => exact quiet_bind (visits_demand hop _ _ _) fun _ => visits_pure _
  | neg =>
    exact quiet_bind visits_fresh fun _ =>
      quiet_bind (quiet_demandNumeric hop _ _ _) fun _ => visits_pure _
  | domain =>
    exact quiet_bind visits_fresh fun _ => quiet_bind visits_fresh fun _ =>
      quiet_bind (visits_demand hop _ _ _) fun _ => visits_pure _
  | powerSet | bigUnion | cardinality =>
    exact quiet_bind visits_fresh fun _ =>
      quiet_bind (visits_demand hop _ _ _) fun _ => visits_pure _

theorem quiet_binaryType (n : NodeId) (op : BinaryOp) (left right : NodeId × Ty) :
    Visits P (binaryType n op left right) [] [] := by
  have hop : Reason.binaryOp op ≠ .exprType := nofun
  cases op with
  | add | sub | mul | lt | le | gt | ge =>
    exact quiet_bind visits_fresh fun _ =>
      quiet_bind (quiet_demandNumeric hop _ _ _) fun _ => visits_pure _
  | intDiv | mod | realDiv | and | or | implies | equiv | concat =>
    exact quiet_bind (quiet_demandBoth hop _ _ _) fun _ => visits_pure _
  | range => exact quiet_bind (quiet_demandBoth (by nofun) _ _ _) fun _ => visits_pure _
  | eq | neq => exact quiet_bind (visits_demand hop _ _ _) fun _ => visits_pure _
  | mem | notMem => exact quiet_bind (visits_demand (by nofun) _ _ _) fun _ => visits_pure _
  | union | intersect | setMinus | subset =>
    exact quiet_bind visits_fresh fun _ =>
      quiet_bind (quiet_demandBoth hop _ _ _) fun _ => visits_pure _

theorem quiet_share {reason : Reason} (h : reason ≠ .exprType) (first : Option Ty) (n : NodeId)
    (t : Ty) : Visits P (share reason first n t) [] [] := by
  cases first with
  | none => exact visits_pure _
  | some s => exact quiet_bind (visits_demand h _ _ _) fun _ => visits_pure _

theorem quiet_sharedOrFresh (first : Option Ty) : Visits P (sharedOrFresh first) [] [] := by
  cases first with
  | none => exact visits_fresh
  | some t => exact visits_pure t

theorem quiet_typeOf {n : NodeId} (hn : P n) : Visits P (typeOf n) [] [] :=
  (visits_typeOf hn).congr nofun fun _ => rfl

variable {around : Surroundings}

theorem quiet_nameType {site : NodeId} (h : around.registry.Leads P site)
    (slot : Slots → TypeVar) : Visits P (nameType around site slot) [] [] := by
  unfold nameType
  split
  · exact visits_fresh
  · next decl hdecl =>
    refine quiet_bind (fun d hd => ?_) fun s => ?_
    · rw [slots?_snd]
      exact ⟨hd, .refl d⟩
    · cases s with
      | some s => exact visits_pure _
      | none => exact quiet_typeOf (h decl hdecl)

/-! ## Expressions -/

theorem visits_args {args : List (Node String)} (h : ∀ n ∈ args.map (·.id), P n) :
    Visits P (args.mapM fun arg => typeOf arg.id) (args.map (·.id)) [] := by
  induction args with
  | nil => exact visits_pure []
  | cons arg args ih =>
    obtain ⟨harg, hargs⟩ := List.forall_mem_cons.mp h
    rw [List.mapM_cons]
    refine ((visits_typeOf harg).bind fun _ => (ih hargs).bind fun _ => visits_pure _).congr ?_ ?_
    all_goals simp

theorem visits_applied {id : NodeId} {f : Ty} {ts : List Ty} {finish : Ty → Drafting Ty}
    {ns es : List NodeId} (h : ∀ t, Visits P (finish t) ns es) :
    Visits P (do
        let value ← fresh
        demand f (.map (keyType id ts) value (.single id)) id .functionApply
        finish value) ns es :=
  visits_fresh.bind fun _ => (visits_demand (by nofun) _ _ _).bind fun _ => h _

variable (around)

mutual

/-- An expression with safe nodes is covered. -/
theorem visits_infer : (e : Expr) → (∀ n ∈ e.nodes, around.registry.Safe P n) →
    Visits P (infer around e) e.nodes e.ids
  | .literal id value, h => by
    rw [infer]
    exact visits_conclude (h id List.mem_cons_self).1 _ _
  | .ident id _, h | .ref id _, h => by
    rw [infer]
    obtain ⟨hid, hleads⟩ := h id List.mem_cons_self
    exact (quiet_nameType hleads _).bind fun _ => visits_conclude hid _ _
  | .tuple id elems, h => by
    rw [infer]
    obtain ⟨hid, helems⟩ := List.forall_mem_cons.mp h
    refine ((visits_inferList elems helems).bind fun _ => visits_conclude hid.1 _ _).congr ?_ ?_
    all_goals grind [Expr.nodes, Expr.ids]
  | .set id elems, h => by
    rw [infer]
    obtain ⟨hid, helems⟩ := List.forall_mem_cons.mp h
    refine ((visits_inferElements elems none helems).bind fun _ =>
      (quiet_sharedOrFresh _).bind fun _ => visits_conclude hid.1 _ _).congr ?_ ?_
    all_goals grind [Expr.nodes, Expr.ids]
  | .unary id op operand, h => by
    rw [infer]
    obtain ⟨hid, hoperand⟩ := List.forall_mem_cons.mp h
    refine ((visits_infer operand hoperand).bind fun _ =>
      (quiet_unaryType id op _).bind fun _ => visits_conclude hid.1 _ _).congr ?_ ?_
    all_goals grind [Expr.nodes, Expr.ids]
  | .binary id op left right, h => by
    rw [infer]
    simp only [Expr.nodes, List.forall_mem_cons, List.forall_mem_append] at h
    obtain ⟨hid, hleft, hright⟩ := h
    refine ((visits_infer left hleft).bind fun _ => (visits_infer right hright).bind fun _ =>
      (quiet_binaryType id op _ _).bind fun _ => visits_conclude hid.1 _ _).congr ?_ ?_
    all_goals grind [Expr.nodes, Expr.ids]
  | .apply id func args, h => by
    rw [infer]
    simp only [Expr.nodes, List.forall_mem_cons, List.forall_mem_append] at h
    obtain ⟨hid, hfunc, hargs⟩ := h
    refine ((visits_infer func hfunc).bind fun _ => (visits_inferList args hargs).bind fun _ =>
      visits_applied fun _ => visits_conclude hid.1 _ _).congr ?_ ?_
    all_goals grind [Expr.nodes, Expr.ids]
  | .function id bounds body, h => by
    rw [infer]
    simp only [Expr.nodes, List.forall_mem_cons, List.forall_mem_append] at h
    obtain ⟨hid, hbounds, hbody⟩ := h
    refine ((visits_inferBounds bounds hbounds).bind fun _ => (visits_infer body hbody).bind
      fun _ => visits_conclude hid.1 _ _).congr ?_ ?_
    all_goals grind [Expr.nodes, Expr.ids]
  | .comprehension id body bounds, h => by
    rw [infer]
    simp only [Expr.nodes, List.forall_mem_cons, List.forall_mem_append] at h
    obtain ⟨hid, hbounds, hbody⟩ := h
    refine ((visits_inferBounds bounds hbounds).bind fun _ => (visits_infer body hbody).bind
      fun _ => visits_conclude hid.1 _ _).congr ?_ ?_
    all_goals grind [Expr.nodes, Expr.ids]
  | .quantified id _ bounds body, h => by
    rw [infer]
    simp only [Expr.nodes, List.forall_mem_cons, List.forall_mem_append] at h
    obtain ⟨hid, hbounds, hbody⟩ := h
    refine ((visits_inferBounds bounds hbounds).bind fun _ => (visits_infer body hbody).bind
      fun _ => (quiet_demandBool _ _).bind fun _ => visits_conclude hid.1 _ _).congr ?_ ?_
    all_goals grind [Expr.nodes, Expr.ids]
  | .refinement id bound predicate, h | .choose id bound predicate, h => by
    rw [infer]
    simp only [Expr.nodes, List.forall_mem_cons, List.forall_mem_append] at h
    obtain ⟨hid, hbound, hpredicate⟩ := h
    refine ((visits_inferBound bound hbound).bind fun _ =>
      (visits_infer predicate hpredicate).bind fun _ =>
      (quiet_demandBool _ _).bind fun _ => visits_conclude hid.1 _ _).congr ?_ ?_
    all_goals grind [Expr.nodes, Expr.ids]
  | .ite id condition thenBranch elseBranch, h => by
    rw [infer]
    simp only [Expr.nodes, List.forall_mem_cons, List.forall_mem_append] at h
    obtain ⟨hid, ⟨hcondition, hthen⟩, helse⟩ := h
    refine ((visits_infer condition hcondition).bind fun _ => (quiet_demandBool _ _).bind fun _ =>
      (visits_infer thenBranch hthen).bind fun _ => (visits_infer elseBranch helse).bind fun _ =>
      (visits_demand (by nofun) _ _ _).bind fun _ => visits_conclude hid.1 _ _).congr ?_ ?_
    all_goals grind [Expr.nodes, Expr.ids]
  | .cases id arms none, h => by
    rw [infer]
    obtain ⟨hid, harms⟩ := List.forall_mem_cons.mp h
    refine ((visits_checkArms arms harms).bind fun _ => (visits_inferResults arms none harms).bind
      fun _ => (quiet_sharedOrFresh _).bind fun _ => visits_conclude hid.1 _ _).congr ?_ ?_
    all_goals grind [Expr.nodes, Expr.ids, Expr.mem_armsNodes_iff, Expr.count_armsIds]
  | .cases id arms (some other), h => by
    rw [infer]
    simp only [Expr.nodes, List.forall_mem_cons, List.forall_mem_append] at h
    obtain ⟨hid, harms, hother⟩ := h
    refine ((visits_checkArms arms harms).bind fun _ => (visits_inferResults arms none harms).bind
      fun _ => (visits_infer other hother).bind fun _ =>
      (quiet_share (by nofun) _ _ _).bind fun _ => (quiet_sharedOrFresh _).bind fun _ =>
      visits_conclude hid.1 _ _).congr ?_ ?_
    all_goals grind [Expr.nodes, Expr.ids, Expr.mem_armsNodes_iff, Expr.count_armsIds]
  | .letIn id definitions body, h => by
    rw [infer]
    simp only [Expr.nodes, List.forall_mem_cons, List.forall_mem_append] at h
    obtain ⟨hid, hdefinitions, hbody⟩ := h
    refine ((visits_inferDefinitions definitions hdefinitions).bind fun _ =>
      (visits_infer body hbody).bind fun _ => visits_conclude hid.1 _ _).congr ?_ ?_
    all_goals grind [Expr.nodes, Expr.ids]
  | .call id name args, h => by
    rw [infer]
    obtain ⟨⟨hid, hleads⟩, hargs⟩ := List.forall_mem_cons.mp h
    refine ((visits_inferList args hargs).bind fun ts => visits_fresh.bind fun t =>
      (?_ : Visits P _ [id] [id])).congr ?_ ?_
    · dsimp only
      split
      · next decl hdecl =>
        exact (quiet_typeOf (hleads decl hdecl)).bind fun _ =>
          (visits_demand (by nofun) _ _ _).bind fun _ => visits_conclude hid _ _
      · exact visits_conclude hid _ _
    all_goals grind [Expr.nodes, Expr.ids]

theorem visits_inferList : (es : List Expr) →
    (∀ n ∈ Expr.listNodes es, around.registry.Safe P n) →
    Visits P (inferList around es) (Expr.listNodes es) (Expr.listIds es)
  | [], _ => by
    rw [inferList]
    exact visits_pure []
  | e :: es, h => by
    rw [inferList]
    obtain ⟨he, hes⟩ := List.forall_mem_append.mp h
    refine ((visits_infer e he).bind fun _ => (visits_inferList es hes).bind fun _ =>
      visits_pure _).congr ?_ ?_
    all_goals grind [Expr.listNodes, Expr.listIds]

theorem visits_inferElements : (es : List Expr) → (first : Option Ty) →
    (∀ n ∈ Expr.listNodes es, around.registry.Safe P n) →
    Visits P (inferElements around first es) (Expr.listNodes es) (Expr.listIds es)
  | [], _, _ => by
    rw [inferElements]
    exact visits_pure _
  | e :: es, first, h => by
    rw [inferElements]
    obtain ⟨he, hes⟩ := List.forall_mem_append.mp h
    exact (visits_infer e he).bind fun _ => (quiet_share (by nofun) _ _ _).bind fun _ =>
      visits_inferElements es _ hes

theorem visits_inferBound : (b : Bound) →
    (∀ n ∈ Expr.boundNodes b, around.registry.Safe P n) →
    Visits P (inferBound around b) (Expr.boundNodes b) (Expr.boundIds b)
  | ⟨id, _, s⟩, h => by
    rw [inferBound]
    obtain ⟨hid, hs⟩ := List.forall_mem_cons.mp h
    refine ((visits_infer s hs).bind fun _ => (visits_typeOf hid.1).bind fun _ =>
      (visits_demand (by nofun) _ _ _).bind fun _ => visits_pure _).congr ?_ ?_
    all_goals grind [Expr.boundNodes, Expr.boundIds]

theorem visits_inferBounds : (bs : List Bound) →
    (∀ n ∈ Expr.boundsNodes bs, around.registry.Safe P n) →
    Visits P (inferBounds around bs) (Expr.boundsNodes bs) (Expr.boundsIds bs)
  | [], _ => by
    rw [inferBounds]
    exact visits_pure []
  | b :: bs, h => by
    rw [inferBounds]
    obtain ⟨hb, hbs⟩ := List.forall_mem_append.mp h
    refine ((visits_inferBound b hb).bind fun _ => (visits_inferBounds bs hbs).bind fun _ =>
      visits_pure _).congr ?_ ?_
    all_goals grind [Expr.boundsNodes, Expr.boundsIds]

theorem visits_checkArms : (arms : List Arm) →
    (∀ n ∈ Expr.armsNodes arms, around.registry.Safe P n) →
    Visits P (checkArms around arms) (arms.flatMap (·.condition.nodes))
      (arms.flatMap (·.condition.ids))
  | [], _ => by
    rw [checkArms]
    exact visits_pure ()
  | ⟨condition, result⟩ :: arms, h => by
    rw [checkArms]
    simp only [Expr.armsNodes, List.forall_mem_append] at h
    obtain ⟨⟨hcondition, _⟩, harms⟩ := h
    exact (visits_infer condition hcondition).bind fun _ => (quiet_demandBool _ _).bind fun _ =>
      visits_checkArms arms harms

theorem visits_inferResults : (arms : List Arm) → (first : Option Ty) →
    (∀ n ∈ Expr.armsNodes arms, around.registry.Safe P n) →
    Visits P (inferResults around first arms) (arms.flatMap (·.result.nodes))
      (arms.flatMap (·.result.ids))
  | [], _, _ => by
    rw [inferResults]
    exact visits_pure _
  | ⟨condition, result⟩ :: arms, first, h => by
    rw [inferResults]
    simp only [Expr.armsNodes, List.forall_mem_append] at h
    obtain ⟨⟨_, hresult⟩, harms⟩ := h
    exact (visits_infer result hresult).bind fun _ => (quiet_share (by nofun) _ _ _).bind fun _ =>
      visits_inferResults arms _ harms

theorem visits_inferDefinition : (d : Definition) →
    (∀ n ∈ Expr.definitionNodes d, around.registry.Safe P n) →
    Visits P (inferDefinition around d) (Expr.definitionNodes d) (Expr.definitionIds d)
  | ⟨id, name, args, body⟩, h => by
    rw [inferDefinition]
    simp only [Expr.definitionNodes, List.forall_mem_cons, List.forall_mem_append] at h
    obtain ⟨hid, hargs, hbody⟩ := h
    refine ((visits_typeOf hid.1).bind fun _ => (visits_args fun n hn => (hargs n hn).1).bind
      fun _ => (visits_infer body hbody).bind fun _ => (visits_record _ _ _ _).bind fun _ =>
      visits_demand (by nofun) _ _ _).congr ?_ ?_
    all_goals grind [Expr.definitionNodes, Expr.definitionIds]

theorem visits_inferDefinitions : (ds : List Definition) →
    (∀ n ∈ Expr.definitionsNodes ds, around.registry.Safe P n) →
    Visits P (inferDefinitions around ds) (Expr.definitionsNodes ds) (Expr.definitionsIds ds)
  | [], _ => by
    rw [inferDefinitions]
    exact visits_pure ()
  | d :: ds, h => by
    rw [inferDefinitions]
    obtain ⟨hd, hds⟩ := List.forall_mem_append.mp h
    exact (visits_inferDefinition d hd).bind fun _ => visits_inferDefinitions ds hds

end

end Drafting

end PlusCalTyping
