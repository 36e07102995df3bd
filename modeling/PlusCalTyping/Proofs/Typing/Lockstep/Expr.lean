import PlusCalTyping.Proofs.Typing.Nodes

/-! # Two runs in lockstep

Two runs go through the same part of an algorithm, each with the slots that an earlier
run has left. They are in lockstep if they get the same results and leave the same
drafts, but for slots that are never asked for (`Drafting.Lockstep`). Parts that know
nothing of slots always are (`Drafting.Blind`), and an expression is if its nodes refer
to the same declarations in both registries.
-/

namespace PlusCalTyping

/-- The drafts are the same but for slots of nodes that are not listed. -/
structure Draft.Matches (xs : List NodeId) (d d' : Draft) : Prop where
  collection : d.collection = d'.collection
  vars : d.vars = d'.vars
  slots : ∀ x ∈ xs, d.slots[x]? = d'.slots[x]?

/-- The name at the node stands for the same declaration in both registries. -/
def Registry.RefersAlike (r r' : Registry) (n : NodeId) : Prop :=
  r.followReference n = r'.followReference n

/-- The same role, in which only listed nodes are asked for slots, and the same answers
about procedures that may be called. -/
structure Surroundings.Matches (xs : List NodeId) (x y : Surroundings) : Prop where
  role : x.role = y.role
  params : ∀ ps, x.role = .archetype ps → ps ⊆ xs
  self : x.self = y.self
  procedures : ∀ name, x.registry.findProcedure name = y.registry.findProcedure name
  callees : ∀ name p, x.registry.findProcedure name = some p →
    x.registry.isReferenced p.selfId = y.registry.isReferenced p.selfId

namespace Drafting

variable {α β : Type} {xs ys zs : List NodeId} {m m' : Drafting α} {f f' : α → Drafting β}

/-- From drafts that match on the first list, the parts get the same results and
leave drafts that match on the second. -/
def Lockstep (xs ys : List NodeId) (m m' : Drafting α) : Prop :=
  ∀ d d' : Draft, d.Matches xs d' → (m d).1 = (m' d').1 ∧ (m d).2.Matches ys (m' d').2

theorem lockstep_pure (v : α) : Lockstep xs xs (pure v) (pure v) := fun _ _ h => ⟨rfl, h⟩

theorem Lockstep.bind (h : Lockstep xs ys m m') (hf : ∀ v, Lockstep ys zs (f v) (f' v)) :
    Lockstep xs zs (m >>= f) (m' >>= f') := by
  intro d d' hd
  obtain ⟨hvalue, hmatches⟩ := h d d' hd
  have hnext := hf (m d).1 _ _ hmatches
  change (f (m d).1 (m d).2).1 = (f' (m' d').1 (m' d').2).1 ∧
    (f (m d).1 (m d).2).2.Matches zs (f' (m' d').1 (m' d').2).2
  rwa [← hvalue]

theorem lockstep_forM {γ : Type} {g g' : γ → Drafting Unit} {cs : List γ}
    (h : ∀ c ∈ cs, Lockstep xs xs (g c) (g' c)) : Lockstep xs xs (cs.forM g) (cs.forM g') := by
  induction cs with
  | nil => exact lockstep_pure ()
  | cons c cs ih =>
    obtain ⟨hc, hcs⟩ := List.forall_mem_cons.mp h
    exact hc.bind fun _ => ih hcs

theorem lockstep_mapM {γ : Type} {g g' : γ → Drafting α} {cs : List γ}
    (h : ∀ c ∈ cs, Lockstep xs xs (g c) (g' c)) : Lockstep xs xs (cs.mapM g) (cs.mapM g') := by
  induction cs with
  | nil => exact lockstep_pure []
  | cons c cs ih =>
    obtain ⟨hc, hcs⟩ := List.forall_mem_cons.mp h
    rw [List.mapM_cons, List.mapM_cons]
    exact hc.bind fun _ => (ih hcs).bind fun _ => lockstep_pure _

/-! ## Parts that know nothing of slots -/

/-- The part goes the same with any slots, and leaves them as they are. -/
def Blind (m : Drafting α) : Prop :=
  ∀ (d : Draft) (slots : NodeMap Slots), m { d with slots } = ((m d).1, { (m d).2 with slots })

theorem Blind.lockstep (h : Blind m) : Lockstep xs xs m m := by
  rintro ⟨collection, vars, slots⟩ ⟨_, _, slots'⟩ ⟨rfl, rfl, hslots⟩
  let d : Draft := ⟨collection, vars, slots⟩
  have hown : (m d).2.slots = slots := congrArg (·.2.slots) (h d slots)
  change (m d).1 = (m { d with slots := slots' }).1 ∧
    (m d).2.Matches xs (m { d with slots := slots' }).2
  rw [h]
  exact ⟨rfl, rfl, rfl, fun x hx => hown ▸ hslots x hx⟩

theorem blind_pure (v : α) : Blind (pure v) := fun _ _ => rfl

theorem Blind.bind (h : Blind m) (hf : ∀ v, Blind (f v)) : Blind (m >>= f) := by
  intro d slots
  change f (m { d with slots }).1 (m { d with slots }).2 = _
  rw [h]
  exact hf (m d).1 (m d).2 slots

theorem blind_fresh : Blind fresh := fun _ _ => rfl

theorem blind_varOf (n : NodeId) : Blind (varOf n) := by
  intro d slots
  unfold varOf
  dsimp only
  cases d.vars[n]? <;> rfl

theorem blind_typeOf (n : NodeId) : Blind (typeOf n) := (blind_varOf n).bind fun _ => blind_pure _

theorem blind_demand (t u : Ty) (n : NodeId) (reason : Reason) : Blind (demand t u n reason) :=
  fun _ _ => rfl

theorem blind_demandBool (n : NodeId) (t : Ty) : Blind (demandBool n t) := fun _ _ => rfl

theorem blind_record (n : NodeId) (rule : TypingRule) (t : Ty) (detail : String) :
    Blind (record n rule t detail) := fun _ _ => rfl

theorem blind_settle (n : NodeId) (t : Ty) : Blind (settle n t) :=
  (blind_typeOf n).bind fun _ => (blind_demand _ _ _ _).bind fun _ => blind_pure _

theorem blind_conclude (n : NodeId) (rule : TypingRule) (t : Ty) : Blind (conclude n rule t) :=
  (blind_record n rule t "").bind fun _ => blind_settle n t

theorem blind_unaryType (n : NodeId) (op : UnaryOp) (t : Ty) : Blind (unaryType n op t) := by
  intro d slots
  cases op <;> rfl

theorem blind_binaryType (n : NodeId) (op : BinaryOp) (left right : NodeId × Ty) :
    Blind (binaryType n op left right) := by
  intro d slots
  cases op <;> rfl

theorem blind_share (reason : Reason) (first : Option Ty) (n : NodeId) (t : Ty) :
    Blind (share reason first n t) := by
  intro d slots
  cases first <;> rfl

theorem blind_sharedOrFresh (first : Option Ty) : Blind (sharedOrFresh first) := by
  intro d slots
  cases first <;> rfl

/-! ## Names -/

section Names

variable {x y : Surroundings} {r r' : Registry}

/-- In an archetype, names of its parameters are listed. -/
theorem lockstep_slots? (h : x.Matches xs y) (decl : NodeId) :
    Lockstep xs xs (slots? x decl) (slots? y decl) := by
  intro d d' hd
  unfold slots?
  rw [← h.role]
  split
  · next ps hrole =>
    refine ⟨?_, hd⟩
    dsimp only
    split
    · next hmem => exact hd.slots decl (h.params ps hrole hmem)
    · rfl
  · exact ⟨rfl, hd⟩

theorem lockstep_nameType (h : x.Matches xs y) {site : NodeId}
    (hsite : x.registry.RefersAlike y.registry site) (slot : Slots → TypeVar) :
    Lockstep xs xs (nameType x site slot) (nameType y site slot) := by
  unfold nameType
  rw [← hsite]
  cases x.registry.followReference site with
  | none => exact blind_fresh.lockstep
  | some decl =>
    refine (lockstep_slots? h decl).bind fun s => Blind.lockstep ?_
    cases s with
    | none => exact blind_typeOf decl
    | some s => exact blind_pure _

end Names

/-! ## Expressions -/

/-- An application of what was found to be the type of a function. -/
theorem blind_applied (id : NodeId) (t : Ty) (ts : List Ty) {finish : Ty → Drafting Ty}
    (hfinish : ∀ t, Blind (finish t)) :
    Blind (do
      let value ← fresh
      demand t (.map (keyType id ts) value (.single id)) id .functionApply
      finish value) :=
  blind_fresh.bind fun _ => (blind_demand _ _ _ _).bind fun _ => hfinish _

variable {x y : Surroundings}

mutual

/-- An expression is gone through in lockstep if its names refer alike. -/
theorem lockstep_infer (h : x.Matches xs y) : (e : Expr) →
    (∀ n ∈ e.nodes, x.registry.RefersAlike y.registry n) →
    Lockstep xs xs (infer x e) (infer y e)
  | .literal id value, _ => by
    rw [infer, infer]
    exact (blind_conclude id _ _).lockstep
  | .ident id _, hrefs | .ref id _, hrefs => by
    rw [infer, infer]
    exact (lockstep_nameType h (hrefs id List.mem_cons_self) _).bind fun _ =>
      (blind_conclude id _ _).lockstep
  | .tuple id elems, hrefs => by
    rw [infer, infer]
    exact (lockstep_inferList h elems (List.forall_mem_cons.mp hrefs).2).bind fun _ =>
      (blind_conclude id _ _).lockstep
  | .set id elems, hrefs => by
    rw [infer, infer]
    exact (lockstep_inferElements h elems none (List.forall_mem_cons.mp hrefs).2).bind fun first =>
      ((blind_sharedOrFresh first).bind fun _ => blind_conclude id _ _).lockstep
  | .unary id op operand, hrefs => by
    rw [infer, infer]
    exact (lockstep_infer h operand (List.forall_mem_cons.mp hrefs).2).bind fun t =>
      ((blind_unaryType id op t).bind fun _ => blind_conclude id _ _).lockstep
  | .binary id op left right, hrefs => by
    rw [infer, infer]
    simp only [Expr.nodes, List.forall_mem_cons, List.forall_mem_append] at hrefs
    obtain ⟨_, hleft, hright⟩ := hrefs
    exact (lockstep_infer h left hleft).bind fun t => (lockstep_infer h right hright).bind fun u =>
      ((blind_binaryType id op _ _).bind fun _ => blind_conclude id _ _).lockstep
  | .apply id func args, hrefs => by
    rw [infer, infer]
    simp only [Expr.nodes, List.forall_mem_cons, List.forall_mem_append] at hrefs
    obtain ⟨_, hfunc, hargs⟩ := hrefs
    exact (lockstep_infer h func hfunc).bind fun t =>
      (lockstep_inferList h args hargs).bind fun ts =>
      (blind_applied id t ts fun _ => blind_conclude id _ _).lockstep
  | .function id bounds body, hrefs | .comprehension id body bounds, hrefs => by
    rw [infer, infer]
    simp only [Expr.nodes, List.forall_mem_cons, List.forall_mem_append] at hrefs
    obtain ⟨_, hbounds, hbody⟩ := hrefs
    exact (lockstep_inferBounds h bounds hbounds).bind fun _ => (lockstep_infer h body hbody).bind
      fun _ => (blind_conclude id _ _).lockstep
  | .quantified id _ bounds body, hrefs => by
    rw [infer, infer]
    simp only [Expr.nodes, List.forall_mem_cons, List.forall_mem_append] at hrefs
    obtain ⟨_, hbounds, hbody⟩ := hrefs
    exact (lockstep_inferBounds h bounds hbounds).bind fun _ => (lockstep_infer h body hbody).bind
      fun t => ((blind_demandBool _ t).bind fun _ => blind_conclude id _ _).lockstep
  | .refinement id bound predicate, hrefs | .choose id bound predicate, hrefs => by
    rw [infer, infer]
    simp only [Expr.nodes, List.forall_mem_cons, List.forall_mem_append] at hrefs
    obtain ⟨_, hbound, hpredicate⟩ := hrefs
    exact (lockstep_inferBound h bound hbound).bind fun _ =>
      (lockstep_infer h predicate hpredicate).bind fun t =>
      ((blind_demandBool _ t).bind fun _ => blind_conclude id _ _).lockstep
  | .ite id condition thenBranch elseBranch, hrefs => by
    rw [infer, infer]
    simp only [Expr.nodes, List.forall_mem_cons, List.forall_mem_append] at hrefs
    obtain ⟨_, ⟨hcondition, hthen⟩, helse⟩ := hrefs
    exact (lockstep_infer h condition hcondition).bind fun t =>
      (blind_demandBool _ t).lockstep.bind fun _ =>
      (lockstep_infer h thenBranch hthen).bind fun _ => (lockstep_infer h elseBranch helse).bind
      fun _ => ((blind_demand _ _ _ _).bind fun _ => blind_conclude id _ _).lockstep
  | .cases id arms none, hrefs => by
    rw [infer, infer]
    obtain ⟨_, harms⟩ := List.forall_mem_cons.mp hrefs
    exact (lockstep_checkArms h arms harms).bind fun _ =>
      (lockstep_inferResults h arms none harms).bind fun first =>
      ((blind_sharedOrFresh first).bind fun _ => blind_conclude id _ _).lockstep
  | .cases id arms (some other), hrefs => by
    rw [infer, infer]
    simp only [Expr.nodes, List.forall_mem_cons, List.forall_mem_append] at hrefs
    obtain ⟨_, harms, hother⟩ := hrefs
    exact (lockstep_checkArms h arms harms).bind fun _ =>
      (lockstep_inferResults h arms none harms).bind fun first =>
      (lockstep_infer h other hother).bind fun t =>
      ((blind_share _ first _ t).bind fun shared => (blind_sharedOrFresh shared).bind
        fun _ => blind_conclude id _ _).lockstep
  | .letIn id definitions body, hrefs => by
    rw [infer, infer]
    simp only [Expr.nodes, List.forall_mem_cons, List.forall_mem_append] at hrefs
    obtain ⟨_, hdefinitions, hbody⟩ := hrefs
    exact (lockstep_inferDefinitions h definitions hdefinitions).bind fun _ =>
      (lockstep_infer h body hbody).bind fun _ => (blind_conclude id _ _).lockstep
  | .call id name args, hrefs => by
    rw [infer, infer]
    obtain ⟨hid, hargs⟩ := List.forall_mem_cons.mp hrefs
    refine (lockstep_inferList h args hargs).bind fun _ => blind_fresh.lockstep.bind fun _ => ?_
    rw [← hid]
    cases x.registry.followReference id with
    | none => exact (blind_conclude id _ _).lockstep
    | some decl =>
      exact ((blind_typeOf decl).bind fun _ => (blind_demand _ _ _ _).bind fun _ =>
        blind_conclude id _ _).lockstep

theorem lockstep_inferList (h : x.Matches xs y) : (es : List Expr) →
    (∀ n ∈ Expr.listNodes es, x.registry.RefersAlike y.registry n) →
    Lockstep xs xs (inferList x es) (inferList y es)
  | [], _ => by
    rw [inferList, inferList]
    exact lockstep_pure []
  | e :: es, hrefs => by
    rw [inferList, inferList]
    obtain ⟨he, hes⟩ := List.forall_mem_append.mp hrefs
    exact (lockstep_infer h e he).bind fun _ => (lockstep_inferList h es hes).bind fun _ =>
      lockstep_pure _

theorem lockstep_inferElements (h : x.Matches xs y) : (es : List Expr) → (first : Option Ty) →
    (∀ n ∈ Expr.listNodes es, x.registry.RefersAlike y.registry n) →
    Lockstep xs xs (inferElements x first es) (inferElements y first es)
  | [], first, _ => by
    rw [inferElements, inferElements]
    exact lockstep_pure first
  | e :: es, first, hrefs => by
    rw [inferElements, inferElements]
    obtain ⟨he, hes⟩ := List.forall_mem_append.mp hrefs
    exact (lockstep_infer h e he).bind fun t => (blind_share _ first _ t).lockstep.bind fun _ =>
      lockstep_inferElements h es _ hes

theorem lockstep_inferBound (h : x.Matches xs y) : (b : Bound) →
    (∀ n ∈ Expr.boundNodes b, x.registry.RefersAlike y.registry n) →
    Lockstep xs xs (inferBound x b) (inferBound y b)
  | ⟨id, _, s⟩, hrefs => by
    rw [inferBound, inferBound]
    exact (lockstep_infer h s (List.forall_mem_cons.mp hrefs).2).bind fun _ =>
      ((blind_typeOf id).bind fun _ => (blind_demand _ _ _ _).bind fun _ => blind_pure _).lockstep

theorem lockstep_inferBounds (h : x.Matches xs y) : (bs : List Bound) →
    (∀ n ∈ Expr.boundsNodes bs, x.registry.RefersAlike y.registry n) →
    Lockstep xs xs (inferBounds x bs) (inferBounds y bs)
  | [], _ => by
    rw [inferBounds, inferBounds]
    exact lockstep_pure []
  | b :: bs, hrefs => by
    rw [inferBounds, inferBounds]
    obtain ⟨hb, hbs⟩ := List.forall_mem_append.mp hrefs
    exact (lockstep_inferBound h b hb).bind fun _ => (lockstep_inferBounds h bs hbs).bind fun _ =>
      lockstep_pure _

theorem lockstep_checkArms (h : x.Matches xs y) : (arms : List Arm) →
    (∀ n ∈ Expr.armsNodes arms, x.registry.RefersAlike y.registry n) →
    Lockstep xs xs (checkArms x arms) (checkArms y arms)
  | [], _ => by
    rw [checkArms, checkArms]
    exact lockstep_pure ()
  | ⟨condition, _⟩ :: arms, hrefs => by
    rw [checkArms, checkArms]
    simp only [Expr.armsNodes, List.forall_mem_append] at hrefs
    obtain ⟨⟨hcondition, _⟩, harms⟩ := hrefs
    exact (lockstep_infer h condition hcondition).bind fun t =>
      (blind_demandBool _ t).lockstep.bind fun _ => lockstep_checkArms h arms harms

theorem lockstep_inferResults (h : x.Matches xs y) : (arms : List Arm) → (first : Option Ty) →
    (∀ n ∈ Expr.armsNodes arms, x.registry.RefersAlike y.registry n) →
    Lockstep xs xs (inferResults x first arms) (inferResults y first arms)
  | [], first, _ => by
    rw [inferResults, inferResults]
    exact lockstep_pure first
  | ⟨_, result⟩ :: arms, first, hrefs => by
    rw [inferResults, inferResults]
    simp only [Expr.armsNodes, List.forall_mem_append] at hrefs
    obtain ⟨⟨_, hresult⟩, harms⟩ := hrefs
    exact (lockstep_infer h result hresult).bind fun t =>
      (blind_share _ first _ t).lockstep.bind fun _ => lockstep_inferResults h arms _ harms

theorem lockstep_inferDefinition (h : x.Matches xs y) : (d : Definition) →
    (∀ n ∈ Expr.definitionNodes d, x.registry.RefersAlike y.registry n) →
    Lockstep xs xs (inferDefinition x d) (inferDefinition y d)
  | ⟨id, name, args, body⟩, hrefs => by
    rw [inferDefinition, inferDefinition]
    obtain ⟨_, hbody⟩ := List.forall_mem_append.mp (List.forall_mem_cons.mp hrefs).2
    exact (blind_typeOf id).lockstep.bind fun _ =>
      (lockstep_mapM fun arg _ => (blind_typeOf arg.id).lockstep).bind fun _ =>
      (lockstep_infer h body hbody).bind fun _ =>
      ((blind_record _ _ _ _).bind fun _ => blind_demand _ _ _ _).lockstep

theorem lockstep_inferDefinitions (h : x.Matches xs y) : (ds : List Definition) →
    (∀ n ∈ Expr.definitionsNodes ds, x.registry.RefersAlike y.registry n) →
    Lockstep xs xs (inferDefinitions x ds) (inferDefinitions y ds)
  | [], _ => by
    rw [inferDefinitions, inferDefinitions]
    exact lockstep_pure ()
  | d :: ds, hrefs => by
    rw [inferDefinitions, inferDefinitions]
    obtain ⟨hd, hds⟩ := List.forall_mem_append.mp hrefs
    exact (lockstep_inferDefinition h d hd).bind fun _ => lockstep_inferDefinitions h ds hds

end

end Drafting

end PlusCalTyping
