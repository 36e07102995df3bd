import PlusCalTyping.Proofs.Typing.Completeness.Stmt

/-! # Completeness of the constraints of algorithms

The constraints of a typed algorithm can be filled in, part by part. The slots
of a parameter stand for the type of the parameter from the start, so it does
not matter which parts make slots and which see them.
-/

namespace PlusCalTyping.Drafting

open Filling

variable {τ : Typing} {p : Filling τ} {r : Registry}

theorem places_of_role_general {around : Surroundings} {place : Typing.Place}
    (hself : place.self = around.self) (h : around.role = .general) : p.Places around place := by
  refine ⟨hself, ?_⟩
  rintro t (ht | ht) <;> cases h.symm.trans ht

theorem reaches_mapM_declare (around : Surroundings) (ds : List Decl)
    (h : ∀ d ∈ ds, τ.DeclTyped around.registry d) (p : Filling τ) :
    Reaches (ds.mapM (declare around)) p
      fun q ts => List.Forall₂ q.Suits (ds.map (·.id)) ts := by
  induction ds generalizing p with
  | nil => exact reaches_pure .nil
  | cons d ds ih =>
    rw [List.mapM_cons]
    obtain ⟨hd, hds⟩ := List.forall_mem_cons.mp h
    apply (reaches_declare around d hd p).bind
    intro q t _ ht
    refine (ih hds q).bind fun s ts hs hts => reaches_pure ?_
    exact .cons (ht.mono hs) hts

theorem reaches_demandSignature (id : NodeId) (name : String) {ns : List NodeId}
    {params : List Ty} (h : τ.SignatureTyped id ns) (hparams : List.Forall₂ p.Suits ns params)
    (reason : Reason) : Reaches (demandSignature id name params reason) p fun _ _ => True := by
  unfold demandSignature
  obtain ⟨ts, hts, hid⟩ := h
  apply (reaches_typeOf p id).bind
  intro q signature hq hsignature
  have hactual := (denotes_procedure (forall₂_denotes hparams hts) (.single id) .none).mono hq
  apply (reaches_record q id .signature _ name).bind
  intro s _ hs _
  exact reaches_demand ((hsignature.denotes hid).mono hs) (hactual.mono hs) id reason

/-! ## Constants, procedures and processes -/

theorem reaches_visitConstant (c : Node String) (h : τ.ConstantTyped r c) (p : Filling τ) :
    Reaches (visitConstant r c) p fun _ _ => True := by
  unfold visitConstant
  apply (reaches_typeOf p c.id).bind
  intro q v _ hv
  split
  · next value hvalue =>
    obtain ⟨htyped, t, hct, hvt⟩ := h value hvalue
    apply (reaches_infer _ value htyped q).bind
    intro s u hs hu
    exact reaches_demand ((hv.mono hs).denotes hct) (hu.denotes hvt) value.id .constantValue
  · exact reaches_pure trivial

theorem reaches_visitProcedure (x : Procedure) (h : τ.ProcedureTyped r x) (p : Filling τ) :
    Reaches (visitProcedure r x) p fun _ _ => True := by
  have hrest (q : Filling τ) : Reaches (do
      let params ← x.params.mapM (declare { registry := r, self := some x.selfId })
      declareAll { registry := r, self := some x.selfId } x.locals
      checkStmts { registry := r, self := some x.selfId } x.body
      demandSignature x.id x.name params .procedureSignature) q fun _ _ => True := by
    apply (reaches_mapM_declare _ x.params h.params q).bind
    intro q₁ ts _ hts
    apply (reaches_declareAll _ x.locals h.locals q₁).bind
    intro q₂ _ h₂ _
    apply (reaches_checkStmts _ x.body h.body (places_of_role_general rfl rfl)).bind
    intro q₃ _ h₃ _
    have hts := hts.imp fun _ _ ht => ht.mono (h₂.trans h₃)
    exact reaches_demandSignature x.id x.name h.signature hts .procedureSignature
  unfold visitProcedure
  dsimp only
  split
  · next hreferenced =>
    exact (reaches_demandIdentity p (h.identity hreferenced)).bind fun q _ _ _ => hrest q
  · exact hrest p

theorem reaches_visitMappingMacro (m : MappingMacro) (h : τ.MacroTyped r m) (p : Filling τ) :
    Reaches (visitMappingMacro r m) p fun _ _ => True := by
  unfold visitMappingMacro
  apply (reaches_typeOf p m.variableId).bind
  intro q₁ stored _ hstored
  apply (reaches_typeOf q₁ m.valueId).bind
  intro q₂ _ h₂ _
  apply (reaches_typeOf q₂ m.readValueId).bind
  intro q₃ result h₃ hresult
  have hread : q₃.Places { registry := r, role := .macroRead result }
      { yields := some m.readValueId } := by
    refine ⟨rfl, ?_⟩
    rintro t (ht | ht)
    · cases ht
      exact ⟨m.readValueId, rfl, hresult⟩
    · cases ht
  apply (reaches_checkStmts _ m.readBody h.reads hread).bind
  intro q₄ _ h₄ _
  refine reaches_checkStmts _ m.writeBody h.writes ⟨rfl, ?_⟩
  rintro t (ht | ht)
  · cases ht
  · cases ht
    exact ⟨m.variableId, rfl, hstored.mono (h₂.trans (h₃.trans h₄))⟩

theorem reaches_visitProcess (x : Process) (h : τ.ProcessTyped r x) (p : Filling τ) :
    Reaches (visitProcess r x) p fun _ _ => True := by
  unfold visitProcess
  apply (reaches_declare _ x.name h.name p).bind
  intro q₁ _ _ _
  apply (reaches_demandIdentity q₁ h.identity).bind
  intro q₂ _ _ _
  apply (reaches_declareAll _ x.locals h.locals q₂).bind
  intro q₃ _ _ _
  exact reaches_checkStmts _ x.body h.body (places_of_role_general rfl rfl)

theorem reaches_visitProcesses (ps : Processes) (h : τ.ProcessesTyped r ps) (p : Filling τ) :
    Reaches (visitProcesses r ps) p fun _ _ => True := by
  cases ps with
  | single body =>
    have hbody : τ.StmtsTyped r {} body := h
    have hplaces : p.Places { registry := r } {} := places_of_role_general rfl rfl
    exact reaches_checkStmts _ body hbody hplaces
  | multi ps => exact reaches_forM (fun x hx q => reaches_visitProcess x (h x hx) q) p

/-! ## Archetypes and instances -/

theorem reaches_visitParam (x : Param) (index : Nat) (h : τ.DeclTyped r x.decl)
    (hx : ∃ t, τ.Has x.decl.id t) (p : Filling τ) :
    Reaches (visitParam r x index) p fun q t => q.Suits x.decl.id t := by
  unfold visitParam
  obtain ⟨u, hu⟩ := hx
  apply (reaches_declare _ x.decl h p).bind
  intro q t _ ht
  apply reaches_get.bind
  intro q' d hq' hd
  obtain ⟨rfl, rfl⟩ := hd
  split
  · next s hs =>
    have hslot (v : TypeVar) (hv : v = s.read ∨ v = s.written) {q'' : Filling τ}
        (h : q' ≤ q'') : q''.Denotes (.var v) u :=
      (Suits.mono (p := q') (q'.slots x.decl.id s hs v hv) h).denotes hu
    apply (reaches_demand (ht.denotes hu) (hslot s.read (.inl rfl) (le_refl _)) _ _).bind
    intro q₁ _ h₁ _
    have ht₁ := ht.mono h₁
    apply (reaches_demand (ht₁.denotes hu) (hslot s.written (.inr rfl) h₁) _ _).bind
    intro q₂ _ h₂ _
    exact reaches_pure (ht₁.mono h₂)
  · exact reaches_pure ht

theorem reaches_visitParams (xs : List Param) (index : Nat)
    (h : ∀ x ∈ xs, τ.DeclTyped r x.decl) (hxs : ∀ x ∈ xs, ∃ t, τ.Has x.decl.id t)
    (p : Filling τ) :
    Reaches (visitParams r xs index) p
      fun q ts => List.Forall₂ q.Suits (xs.map (·.decl.id)) ts := by
  induction xs generalizing index p with
  | nil => exact reaches_pure .nil
  | cons x xs ih =>
    rw [visitParams]
    obtain ⟨hx, hrest⟩ := List.forall_mem_cons.mp h
    obtain ⟨hxt, hrestt⟩ := List.forall_mem_cons.mp hxs
    apply (reaches_visitParam x index hx hxt p).bind
    intro q t _ ht
    refine (ih (index + 1) hrest hrestt q).bind fun s ts hs hts => reaches_pure ?_
    exact .cons (ht.mono hs) hts

theorem exists_has_of_hasAll {ns : List NodeId} {ts : List Ty} (h : τ.HasAll ns ts) :
    ∀ n ∈ ns, ∃ t, τ.Has n t := by
  induction h with
  | nil => exact List.forall_mem_nil _
  | cons h _ ih => exact List.forall_mem_cons.mpr ⟨⟨_, h⟩, ih⟩

theorem reaches_visitArchetype (x : Archetype) (h : τ.ArchetypeTyped r x) (p : Filling τ) :
    Reaches (visitArchetype r x) p fun _ _ => True := by
  unfold visitArchetype
  have hparams : ∀ y ∈ x.params, ∃ t, τ.Has y.decl.id t := by
    obtain ⟨ts, hts, _⟩ := h.signature
    exact fun y hy => exists_has_of_hasAll hts y.decl.id (List.mem_map.mpr ⟨y, hy, rfl⟩)
  refine (reaches_forM (fun y _ q => reaches_addSlots y q) p).bind fun q₁ _ _ _ => ?_
  apply (reaches_demandIdentity q₁ h.identity).bind
  intro q₂ _ _ _
  apply (reaches_visitParams x.params 0 h.params hparams q₂).bind
  intro q₃ ts _ hts
  apply (reaches_declareAll _ x.locals h.locals q₃).bind
  intro q₄ _ h₄ _
  have hplaces {q : Filling τ} : q.Places ⟨r, .archetype (x.params.map (·.decl.id)), x.selfId⟩
      { self := some x.selfId } := by
    refine ⟨rfl, ?_⟩
    rintro t (ht | ht) <;> cases ht
  apply (reaches_checkStmts _ x.body h.body hplaces).bind
  intro q₅ _ h₅ _
  have hts := hts.imp fun _ _ ht => ht.mono (h₄.trans h₅)
  exact reaches_demandSignature x.id x.name h.signature hts .archetypeSignature

theorem reaches_visitMapping (args : List Expr) (params : List Param) (m : Mapping)
    (h : τ.MappingTyped r args params m) (p : Filling τ) :
    Reaches (visitMapping r args params m) p fun _ _ => True := by
  unfold visitMapping
  apply (reaches_infer _ m.variableExpr h.variableExpr p).bind
  intro q _ _ _
  split
  · next global hglobal =>
    split
    · next param hparam =>
      obtain ⟨hparam, href⟩ := Option.filter_eq_some_iff.mp hparam
      split
      · next x hx =>
        obtain ⟨⟨t, hpt, hxt⟩, ⟨u, hpu, hxu⟩⟩ := h.param global param x hglobal hparam href hx
        apply reaches_get.bind
        intro q' d hq' hd
        obtain ⟨rfl, rfl⟩ := hd
        split
        · next s hs =>
          have hslot (v : TypeVar) (hv : v = s.read ∨ v = s.written) {w : Ty}
              (hw : τ.Has param.decl.id w) {q'' : Filling τ} (h : q' ≤ q'') :
              q''.Denotes (.var v) w :=
            (Suits.mono (p := q') (q'.slots param.decl.id s hs v hv) h).denotes hw
          apply (reaches_typeOf q' x.readValueId).bind
          intro q₁ v h₁ hv
          apply (reaches_demand (hslot s.read (.inl rfl) hpt h₁) (hv.denotes hxt) m.id _).bind
          intro q₂ _ h₂ _
          apply (reaches_typeOf q₂ x.valueId).bind
          intro q₃ w h₃ hw
          have h₃ := h₁.trans (h₂.trans h₃)
          exact reaches_demand (hslot s.written (.inr rfl) hpu h₃) (hw.denotes hxu) m.id _
        · exact reaches_pure trivial
      · exact reaches_pure trivial
    · exact reaches_pure trivial
  · exact reaches_pure trivial

theorem reaches_visitInstance (i : Instance) (h : τ.InstanceTyped r i) (p : Filling τ) :
    Reaches (visitInstance r i) p fun _ _ => True := by
  unfold visitInstance
  obtain ⟨x, hx, ⟨ts, hts, hsignature⟩, hmappings⟩ := h.target
  apply (reaches_declare _ i.name h.name p).bind
  intro q₁ _ _ _
  apply (reaches_demandIdentity q₁ h.identity).bind
  intro q₂ _ _ _
  apply (reaches_inferList _ i.args h.args q₂).bind
  intro q₃ us _ hus
  simp only [hx]
  apply (reaches_typeOf q₃ x.id).bind
  intro q₄ signature h₄ hsig
  have hus := (forall₂_denotes hus hts).imp fun _ _ h => h.mono h₄
  apply (reaches_demand (hsig.denotes hsignature) (denotes_procedure hus _ _) i.id _).bind
  intro q₅ _ _ _
  exact reaches_forM (fun m hm q => reaches_visitMapping i.args x.params m (hmappings m hm) q) q₅

/-! ## The whole -/

/-- The constraints of a typed algorithm can be filled in. -/
theorem reaches_visitAlgorithm (a : Algorithm) (h : τ.AlgorithmTyped r a) (p : Filling τ) :
    Reaches (visitAlgorithm r a) p fun _ _ => True := by
  unfold visitAlgorithm
  have hsignature (n : NodeId) (q : Filling τ) :
      Reaches (do let _ ← varOf n) q fun _ _ => True :=
    (reaches_varOf q n).bind fun _ _ _ _ => reaches_pure trivial
  refine (reaches_forM (fun n _ q => hsignature n q) p).bind fun q₁ _ _ _ => ?_
  refine (reaches_forM (fun c hc q => reaches_visitConstant c (h.constants c hc) q) q₁).bind
    fun q₂ _ _ _ => ?_
  apply (reaches_declareAll _ a.globals h.globals q₂).bind
  intro q₃ _ _ _
  refine (reaches_forM (fun d hd q => reaches_inferDefinition _ d (h.units d hd) q) q₃).bind
    fun q₄ _ _ _ => ?_
  refine (reaches_forM (fun x hx q => reaches_visitProcedure x (h.procedures x hx) q) q₄).bind
    fun q₅ _ _ _ => ?_
  refine (reaches_forM (fun x hx q => reaches_visitArchetype x (h.archetypes x hx) q) q₅).bind
    fun q₆ _ _ _ => ?_
  refine (reaches_forM (fun m hm q => reaches_visitMappingMacro m (h.mappingMacros m hm) q)
    q₆).bind fun q₇ _ _ _ => ?_
  refine (reaches_forM (fun i hi q => reaches_visitInstance i (h.instances i hi) q) q₇).bind
    fun q₈ _ _ _ => ?_
  exact reaches_visitProcesses a.processes h.processes q₈

end PlusCalTyping.Drafting
