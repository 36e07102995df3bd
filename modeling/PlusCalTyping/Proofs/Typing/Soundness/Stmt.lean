import PlusCalTyping.Proofs.Typing.Soundness.Expr

/-! # Soundness of the constraints of statements -/

namespace PlusCalTyping

namespace Surroundings

/-- What `yield` has to produce is not marked as undetermined. -/
def Regular (around : Surroundings) : Prop :=
  ∀ t, around.role = .macroRead t ∨ around.role = .macroWrite t → t.Determined

end Surroundings

/-- The surroundings of a body know its place, with types that are read. -/
structure Reading.Places (ρ : Reading) (around : Surroundings) (place : Typing.Place) : Prop where
  self : place.self = around.self
  yields : ∀ n, place.yields = some n →
    ∃ t, (around.role = .macroRead t ∨ around.role = .macroWrite t) ∧ ρ.Knows n t

theorem Reading.places_of_yields_eq_none {ρ : Reading} {around : Surroundings}
    {place : Typing.Place} (hself : place.self = around.self) (hyields : place.yields = none) :
    ρ.Places around place := by
  refine ⟨hself, fun n hn => ?_⟩
  cases hyields.symm.trans hn

namespace Drafting

variable {ρ : Reading} {S : NodeMap Slots} (around : Surroundings)

theorem sound_recorded (n : NodeId) (rule : TypingRule) {t : Ty} (ht : t.Determined)
    (detail : String) {read : Ty → Prop} (h : read t) :
    Sound ρ S (do record n rule t detail; return t) (fun t => t.Determined) read :=
  (sound_record n rule t detail).bind fun _ _ => sound_pure ht fun _ => h

theorem sound_declare (d : Decl) :
    Sound ρ S (declare around d) (fun t => t.Determined)
      fun t => ρ.Knows d.id t ∧
        ρ.Grants around S (fun scope => scope.initUses d)
          (ρ.types.DeclTyped around.registry d) := by
  obtain ⟨id, name, init⟩ := d
  unfold declare
  apply (sound_typeOf id).bind
  intro v hv
  have hv := Ty.determined_of_isVar hv
  dsimp only
  split
  · exact sound_recorded id .declaration hv name fun hknows => ⟨hknows, fun _ _ _ => trivial⟩
  · next e =>
    apply (sound_infer around e).bind
    intro t ht
    apply (sound_demand hv ht id .declaration).bind
    intro _ _
    refine sound_recorded id .declaration hv name ?_
    rintro ⟨huses, _, hagrees⟩ ⟨he, htyped⟩ hknows
    refine ⟨hknows, fun hshows scope h => ⟨htyped hshows scope h, ?_⟩⟩
    exact (hknows huses).share he hagrees
  · next e =>
    refine (sound_infer around e).bind fun t ht => sound_fresh.bind fun u hu => ?_
    have hu := Ty.determined_of_isVar hu
    apply (sound_demand (Ty.determined_set.mpr hu) ht id .declaration).bind
    intro _ _
    apply (sound_demand hv hu id .declaration).bind
    intro _ _
    refine sound_recorded id .declaration hv name ?_
    rintro ⟨huses, _, hmember⟩ ⟨_, _, hset⟩ _ ⟨he, htyped⟩ hknows
    refine ⟨hknows, fun hshows scope h => ⟨htyped hshows scope h, ρ.value u, ?_, ?_⟩⟩
    · exact (hknows huses).congr hmember
    · exact (he.congr (Ty.agrees_symm hset)).congr (Ty.agrees_refl (.set _ .none))

theorem sound_declareAll (ds : List Decl) :
    Sound ρ S (declareAll around ds) (fun _ => True)
      fun _ => ∀ d ∈ ds, ρ.Grants around S (fun scope => scope.initUses d)
        (ρ.types.DeclTyped around.registry d) := by
  induction ds with
  | nil => exact sound_pure trivial (List.forall_mem_nil _)
  | cons d ds ih =>
    have hfirst : Sound ρ S (do let _ ← declare around d) (fun _ => True)
        fun _ => ρ.Grants around S (fun scope => scope.initUses d)
          (ρ.types.DeclTyped around.registry d) :=
      (sound_declare around d).bind fun _ _ => sound_pure trivial fun h => h.2
    refine hfirst.bind fun _ _ => ih.mono (fun _ h => h) ?_
    exact fun _ _ hds hd => List.forall_mem_cons.mpr ⟨hd, hds⟩

theorem grants_declUses {ds : List Decl} {typed : Decl → Prop}
    (h : ∀ d ∈ ds, ρ.Grants around S (fun scope => scope.initUses d) (typed d)) :
    ρ.Grants around S (fun scope => scope.declUses ds) (∀ d ∈ ds, typed d) := by
  intro hshows scope huses
  induction ds generalizing scope with
  | nil => exact List.forall_mem_nil _
  | cons d ds ih =>
    obtain ⟨hd, hds⟩ := List.forall_mem_cons.mp h
    simp only [Scope.declUses, Registry.resolves_append] at huses
    exact List.forall_mem_cons.mpr ⟨hd hshows scope huses.1, ih hds _ huses.2⟩

/-! ## Statements -/

theorem sound_check (e : Expr) :
    Sound ρ S (check around e) (fun _ => True)
      fun _ => ρ.Grants around S (fun scope => scope.exprUses e)
        (ρ.types.ConditionTyped around.registry e) := by
  apply (sound_infer around e).bind
  intro t ht
  apply (sound_demandBool e.id ht).mono (fun _ h => h)
  rintro _ _ hbool ⟨he, htyped⟩ hshows scope h
  exact ⟨htyped hshows scope h, he.congr hbool⟩

theorem sound_targetType (e : Expr) :
    Sound ρ S (targetType around e) (fun t => t.Determined)
      fun t => ρ.types.Has e.id (ρ.value t) ∧
        ρ.Grants around S (fun scope => scope.exprUses e)
          (ρ.types.ExprTyped around.registry e) := by
  induction e using targetType.induct with
  | case1 id name =>
    rw [targetType]
    apply (sound_nameType around id (.inr rfl)).bind
    intro u hu
    apply (sound_settle id hu).mono (fun _ h => h)
    rintro t _ ⟨ht, hvalue, huses⟩ hname
    refine ⟨ht, fun hshows scope h => ?_⟩
    simp only [Scope.exprUses, Registry.resolves_cons, Scope.site_use] at h
    obtain ⟨⟨decl, hdecl⟩, _⟩ := h
    exact ⟨decl, hdecl, _, hvalue, hname hshows decl hdecl huses⟩
  | case2 id func args ih =>
    rw [targetType]
    refine ih.bind fun f hf => (sound_inferList around args).bind fun ts hts => ?_
    apply (sound_applied hf hts (sound_settle id)).mono (fun _ h => h)
    rintro t _ ⟨ht, u, hvalue, hagrees⟩ ⟨hargs, hatyped⟩ ⟨hfunc, hftyped⟩
    refine ⟨ht, fun hshows scope h => ?_⟩
    simp only [Scope.exprUses, Registry.resolves_append] at h
    exact ⟨hftyped hshows scope h.1, hatyped hshows scope h.2, _, u, hargs, hvalue,
      hfunc.congr hagrees⟩
  | case3 e hident happly =>
    rw [targetType]
    · exact sound_infer around e
    · exact hident
    · exact happly

theorem sound_assign (a : Assignment) :
    Sound ρ S (assign around a) (fun _ => True)
      fun _ => ρ.Grants around S (fun scope => scope.exprUses a.target ++ scope.exprUses a.value)
        (ρ.types.AssignmentTyped around.registry a) := by
  apply (sound_targetType around a.target).bind
  intro t ht
  apply (sound_infer around a.value).bind
  intro u hu
  apply (sound_demand ht hu a.value.id .assignment).mono (fun _ h => h)
  rintro _ _ ⟨_, _, hagrees⟩ ⟨hvalue, hvtyped⟩ ⟨htarget, httyped⟩ hshows scope h
  rw [Registry.resolves_append] at h
  exact ⟨httyped hshows scope h.1, hvtyped hshows scope h.2, htarget.share hvalue hagrees⟩

theorem sound_forM_assign (pairs : List Assignment) :
    Sound ρ S (pairs.forM (assign around)) (fun _ => True)
      fun _ => ρ.Grants around S
        (fun scope => pairs.flatMap fun a => scope.exprUses a.target ++ scope.exprUses a.value)
        (∀ a ∈ pairs, ρ.types.AssignmentTyped around.registry a) := by
  induction pairs with
  | nil => exact sound_pure trivial fun _ _ _ => List.forall_mem_nil _
  | cons a pairs ih =>
    refine (sound_assign around a).bind fun _ _ => ih.mono (fun _ h => h) ?_
    intro _ _ hpairs ha hshows scope h
    simp only [List.flatMap_cons, Registry.resolves_append] at h
    refine List.forall_mem_cons.mpr ⟨ha hshows scope ?_, hpairs hshows scope h.2⟩
    exact Registry.resolves_append.mpr h.1

theorem sound_demandCaller (place : Typing.Place) (call : NodeId) (procedure : String) :
    Sound ρ S (demandCaller around call procedure) (fun _ => True)
      fun _ => place.self = around.self →
        ρ.types.CallerTyped around.registry place procedure := by
  unfold demandCaller
  split
  · next caller hcaller =>
    split
    · next callee hcallee =>
      rw [Option.map_eq_some_iff] at hcallee
      obtain ⟨p, hp, rfl⟩ := hcallee
      split
      · refine (sound_typeOf p.selfId).bind fun t ht => (sound_typeOf caller).bind fun u hu => ?_
        apply (sound_demand (Ty.determined_of_isVar ht) (Ty.determined_of_isVar hu) call
          (.callerIdentity procedure)).mono (fun _ h => h)
        rintro _ _ ⟨huses, huses', hagrees⟩ hknows hknows' hself caller' p' hcaller' hp' _
        cases hcaller.symm.trans (hself.symm.trans hcaller')
        cases hp.symm.trans hp'
        exact (hknows' huses).share (hknows huses') hagrees
      · next hreferenced =>
        refine sound_pure trivial fun hself caller' p' _ hp' hreferenced' => ?_
        cases hp.symm.trans hp'
        exact absurd hreferenced' hreferenced
    · next hnone =>
      refine sound_pure trivial fun hself caller' p _ hp _ => ?_
      rw [hp] at hnone
      exact absurd rfl (hnone p.selfId)
  · next hnone =>
    refine sound_pure trivial fun hself caller _ hcaller _ _ => ?_
    exact absurd (hself.symm.trans hcaller) (hnone caller)

theorem sound_checkCall (place : Typing.Place) (id : NodeId) (procedure : String)
    (args : List Expr) :
    Sound ρ S (checkCall around id procedure args) (fun _ => True)
      fun _ => place.self = around.self → ∀ procedures : Scope,
        ρ.Grants around S
          (fun scope => procedures.use id .procedureName procedure :: scope.listUses args)
          (ρ.types.CallTyped around.registry id args ∧
            ρ.types.CallerTyped around.registry place procedure) := by
  unfold checkCall
  apply (sound_inferList around args).bind
  intro ts hts
  split
  · next decl hdecl =>
    apply (sound_typeOf decl).bind
    intro signature hs
    apply (sound_demand (Ty.determined_of_isVar hs) (Ty.determined_procedure.mpr hts) id
      (.procedureCall procedure)).bind
    intro _ _
    apply (sound_demandCaller around place id procedure).mono (fun _ h => h)
    rintro _ _ hcaller ⟨huses, _, hagrees⟩ hknows ⟨hargs, htyped⟩ hself procedures hshows scope h
    rw [Registry.resolves_cons] at h
    refine ⟨⟨htyped hshows scope h.2, decl, _, hdecl, hargs, ?_⟩, hcaller hself⟩
    rw [Reading.value_procedure] at hagrees
    exact ((hknows huses).congr hagrees).congr (Ty.agrees_refl (.procedure _ .none))
  · next hnone =>
    refine sound_pure trivial fun _ _ procedures _ scope h => ?_
    rw [Registry.resolves_cons, Scope.site_use] at h
    obtain ⟨⟨decl, hdecl⟩, _⟩ := h
    exact absurd hdecl (hnone decl)

theorem sound_checkYield (haround : around.Regular) (place : Typing.Place) (e : Expr) :
    Sound ρ S (checkYield around e) (fun _ => True)
      fun _ => ρ.Places around place → ρ.Grants around S (fun scope => scope.exprUses e)
        (ρ.types.ExprTyped around.registry e ∧
          ∀ n, place.yields = some n → ρ.types.Share e.id n) := by
  unfold checkYield
  apply (sound_infer around e).bind
  intro t ht
  have hyield {u : Ty} (hu : around.role = .macroRead u ∨ around.role = .macroWrite u) :
      Sound ρ S (demand u t e.id .yield) (fun _ => True)
        fun _ => (ρ.types.Has e.id (ρ.value t) ∧ ρ.Grants around S (fun scope => scope.exprUses e)
            (ρ.types.ExprTyped around.registry e)) →
          ρ.Places around place → ρ.Grants around S (fun scope => scope.exprUses e)
            (ρ.types.ExprTyped around.registry e ∧
              ∀ n, place.yields = some n → ρ.types.Share e.id n) := by
    apply (sound_demand (haround u hu) ht e.id .yield).mono (fun _ h => h)
    rintro _ _ ⟨huses, _, hagrees⟩ ⟨he, htyped⟩ hplaces hshows scope h
    refine ⟨htyped hshows scope h, fun n hn => ?_⟩
    obtain ⟨u', hu', hknows⟩ := hplaces.yields n hn
    have hsame : u' = u := by
      rcases hu with hu | hu <;> rcases hu' with hu' | hu' <;> cases hu.symm.trans hu' <;> rfl
    subst hsame
    exact he.share (hknows huses) (Ty.agrees_symm hagrees)
  have hother (h : ∀ u, ¬(around.role = .macroRead u ∨ around.role = .macroWrite u)) :
      Sound ρ S (pure ()) (fun _ => True)
        fun _ => (ρ.types.Has e.id (ρ.value t) ∧ ρ.Grants around S (fun scope => scope.exprUses e)
            (ρ.types.ExprTyped around.registry e)) →
          ρ.Places around place → ρ.Grants around S (fun scope => scope.exprUses e)
            (ρ.types.ExprTyped around.registry e ∧
              ∀ n, place.yields = some n → ρ.types.Share e.id n) := by
    refine sound_pure trivial ?_
    rintro ⟨_, htyped⟩ hplaces hshows scope huses
    refine ⟨htyped hshows scope huses, fun n hn => ?_⟩
    obtain ⟨u, hu, _⟩ := hplaces.yields n hn
    exact absurd hu (h u)
  split
  · next u hu => exact hyield (.inl hu)
  · next u hu => exact hyield (.inr hu)
  · next hrole => exact hother (by rw [hrole]; rintro u (h | h) <;> cases h)
  · next hrole => exact hother (by rw [hrole]; rintro u (h | h) <;> cases h)

mutual

/-- Every reading of the constraints of a statement types it in its place. -/
theorem sound_checkStmt (haround : around.Regular) (place : Typing.Place) : (s : Stmt) →
    Sound ρ S (checkStmt around s) (fun _ => True)
      fun _ => ρ.Places around place → ∀ procedures,
        ρ.Grants around S (fun scope => Scope.stmtUses procedures scope s)
          (ρ.types.StmtTyped around.registry place s)
  | .labeled _ _ body => by
    rw [checkStmt]
    exact sound_checkStmts haround place body
  | .assign _ pairs => by
    rw [checkStmt]
    exact (sound_forM_assign around pairs).mono (fun _ h => h) fun _ _ h _ _ => h
  | .ret _ | .skip _ | .goto _ _ => by
    rw [checkStmt]
    exact sound_pure trivial fun _ _ _ _ _ => trivial
  | .ite _ condition thenBranch elseBranch => by
    rw [checkStmt]
    apply (sound_check around condition).bind
    intro _ _
    apply (sound_checkStmts haround place thenBranch).bind
    intro _ _
    apply (sound_checkStmts haround place elseBranch).mono (fun _ h => h)
    rintro _ _ helse hthen hcond hplaces procedures hshows scope h
    simp only [Scope.stmtUses, Registry.resolves_append] at h
    exact ⟨hcond hshows scope h.1.1, hthen hplaces procedures hshows scope h.1.2,
      helse hplaces procedures hshows scope h.2⟩
  | .either _ branches => by
    rw [checkStmt]
    exact sound_checkBranches haround place branches
  | .whileDo _ condition body => by
    rw [checkStmt]
    apply (sound_check around condition).bind
    intro _ _
    apply (sound_checkStmts haround place body).mono (fun _ h => h)
    rintro _ _ hbody hcond hplaces procedures hshows scope h
    simp only [Scope.stmtUses, Registry.resolves_append] at h
    exact ⟨hcond hshows scope h.1, hbody hplaces procedures hshows scope h.2⟩
  | .withDo _ decls body => by
    rw [checkStmt]
    apply (sound_declareAll around decls).bind
    intro _ _
    apply (sound_checkStmts haround place body).mono (fun _ h => h)
    rintro _ _ hbody hdecls hplaces procedures hshows scope h
    simp only [Scope.stmtUses, Registry.resolves_append] at h
    exact ⟨grants_declUses around hdecls hshows scope h.1,
      hbody hplaces procedures hshows _ h.2⟩
  | .print _ e => by
    rw [checkStmt]
    exact (sound_infer around e).bind fun _ _ => sound_pure trivial fun h _ _ => h.2
  | .assert _ e | .await _ e => by
    rw [checkStmt]
    exact (sound_check around e).mono (fun _ h => h) fun _ _ h _ _ => h
  | .call id procedure args => by
    rw [checkStmt]
    exact (sound_checkCall around place id procedure args).mono (fun _ h => h)
      fun _ _ h hplaces => h hplaces.self
  | .yield _ e => by
    rw [checkStmt]
    exact (sound_checkYield around haround place e).mono (fun _ h => h)
      fun _ _ h hplaces _ => h hplaces

theorem sound_checkStmts (haround : around.Regular) (place : Typing.Place) : (ss : List Stmt) →
    Sound ρ S (checkStmts around ss) (fun _ => True)
      fun _ => ρ.Places around place → ∀ procedures,
        ρ.Grants around S (fun scope => Scope.stmtsUses procedures scope ss)
          (ρ.types.StmtsTyped around.registry place ss)
  | [] => by
    rw [checkStmts]
    exact sound_pure trivial fun _ _ _ _ _ => trivial
  | s :: ss => by
    rw [checkStmts]
    apply (sound_checkStmt haround place s).bind
    intro _ _
    apply (sound_checkStmts haround place ss).mono (fun _ h => h)
    rintro _ _ hss hs hplaces procedures hshows scope h
    simp only [Scope.stmtsUses, Registry.resolves_append] at h
    exact ⟨hs hplaces procedures hshows scope h.1, hss hplaces procedures hshows scope h.2⟩

theorem sound_checkBranches (haround : around.Regular) (place : Typing.Place) :
    (bs : List (List Stmt)) →
    Sound ρ S (checkBranches around bs) (fun _ => True)
      fun _ => ρ.Places around place → ∀ procedures,
        ρ.Grants around S (fun scope => Scope.branchesUses procedures scope bs)
          (ρ.types.BranchesTyped around.registry place bs)
  | [] => by
    rw [checkBranches]
    exact sound_pure trivial fun _ _ _ _ _ => trivial
  | b :: bs => by
    rw [checkBranches]
    apply (sound_checkStmts haround place b).bind
    intro _ _
    apply (sound_checkBranches haround place bs).mono (fun _ h => h)
    rintro _ _ hbs hb hplaces procedures hshows scope h
    simp only [Scope.branchesUses, Registry.resolves_append] at h
    exact ⟨hb hplaces procedures hshows scope h.1, hbs hplaces procedures hshows scope h.2⟩

end

end Drafting

end PlusCalTyping
