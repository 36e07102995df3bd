import PlusCalTyping.Proofs.Typing.Coverage.Expr

/-! # Coverage of declarations and statements -/

namespace PlusCalTyping

/-- The nodes of an expression of a statement are safe if the typed nodes of the
statement have the predicate. -/
theorem Stmt.safe_of_expr {r : Registry} {self : Option NodeId} {P : NodeId → Prop} {s : Stmt}
    (h : ∀ n ∈ s.typedNodes r self, P n) {e : Expr} (he : e ∈ s.exprs)
    (hleads : ∀ n ∈ e.nodes, r.Leads P n) : ∀ n ∈ e.nodes, r.Safe P n := by
  refine Registry.safe_of_forall (fun n hn => h n ?_) hleads
  exact List.mem_append_left _ (List.mem_append_left _ (List.mem_flatMap.mpr ⟨e, he, hn⟩))

namespace Drafting

variable {P : NodeId → Prop} (around : Surroundings)

theorem visits_declare (d : Decl) (h : ∀ n ∈ d.nodes, around.registry.Safe P n) :
    Visits P (declare around d) d.nodes d.ids := by
  obtain ⟨id, name, init⟩ := d
  obtain ⟨hid, hinit⟩ := List.forall_mem_cons.mp h
  unfold declare
  cases init with
  | none =>
    exact (visits_typeOf hid.1).bind fun _ => (visits_record _ _ _ _).bind fun _ => visits_pure _
  | some init =>
    cases init with
    | value e =>
      refine ((visits_typeOf hid.1).bind fun _ => (visits_infer around e hinit).bind fun _ =>
        (visits_demand (by nofun) _ _ _).bind fun _ => (visits_record _ _ _ _).bind fun _ =>
        visits_pure _).congr ?_ ?_
      all_goals grind [Decl.nodes, Decl.ids, Decl.initial?]
    | member e =>
      refine ((visits_typeOf hid.1).bind fun _ => (visits_infer around e hinit).bind fun _ =>
        visits_fresh.bind fun _ => (visits_demand (by nofun) _ _ _).bind fun _ =>
        (visits_demand (by nofun) _ _ _).bind fun _ => (visits_record _ _ _ _).bind fun _ =>
        visits_pure _).congr ?_ ?_
      all_goals grind [Decl.nodes, Decl.ids, Decl.initial?]

theorem visits_declareAll (ds : List Decl)
    (h : ∀ n ∈ ds.flatMap Decl.nodes, around.registry.Safe P n) :
    Visits P (declareAll around ds) (ds.flatMap Decl.nodes) (ds.flatMap Decl.ids) := by
  refine visits_forM fun d hd => ?_
  have hd := visits_declare around d fun n hn => h n (List.mem_flatMap.mpr ⟨d, hd, hn⟩)
  refine (hd.bind fun _ => visits_pure _).congr ?_ ?_
  all_goals simp

theorem visits_check (e : Expr) (h : ∀ n ∈ e.nodes, around.registry.Safe P n) :
    Visits P (check around e) e.nodes e.ids := by
  refine ((visits_infer around e h).bind fun _ => quiet_demandBool _ _).congr ?_ ?_
  all_goals simp

theorem visits_targetType (e : Expr) (h : ∀ n ∈ e.nodes, around.registry.Safe P n) :
    Visits P (targetType around e) e.nodes e.ids := by
  induction e using targetType.induct with
  | case1 id name =>
    rw [targetType]
    obtain ⟨hid, hleads⟩ := h id List.mem_cons_self
    exact (quiet_nameType hleads _).bind fun _ => visits_settle hid _
  | case2 id func args ih =>
    rw [targetType]
    simp only [Expr.nodes, List.forall_mem_cons, List.forall_mem_append] at h
    obtain ⟨hid, hfunc, hargs⟩ := h
    refine ((ih hfunc).bind fun _ => (visits_inferList around args hargs).bind fun _ =>
      visits_applied fun _ => visits_settle hid.1 _).congr ?_ ?_
    all_goals grind [Expr.nodes, Expr.ids]
  | case3 e hident happly =>
    -- Any other target is inferred like an expression that is read.
    rw [targetType]
    · exact visits_infer around e h
    · exact hident
    · exact happly

theorem visits_assign (a : Assignment)
    (h : ∀ n ∈ a.target.nodes ++ a.value.nodes, around.registry.Safe P n) :
    Visits P (assign around a) (a.target.nodes ++ a.value.nodes) (a.target.ids ++ a.value.ids) := by
  obtain ⟨htarget, hvalue⟩ := List.forall_mem_append.mp h
  refine ((visits_targetType around a.target htarget).bind fun _ =>
    (visits_infer around a.value hvalue).bind fun _ => visits_demand (by nofun) _ _ _).congr ?_ ?_
  all_goals simp

theorem visits_demandCaller (call : NodeId) (procedure : String)
    (h : ∀ n ∈ Stmt.callIdentities around.registry around.self procedure, P n) :
    Visits P (demandCaller around call procedure)
      (Stmt.callIdentities around.registry around.self procedure) [] := by
  unfold demandCaller
  cases hself : around.self with
  | none => exact visits_pure ()
  | some caller =>
    rw [hself] at h
    cases hcallee : around.registry.findProcedure procedure with
    | none =>
      simp only [Stmt.callIdentities, hcallee, Option.map_none]
      exact visits_pure ()
    | some callee =>
      simp only [Stmt.callIdentities, hcallee, Option.map_some] at h ⊢
      split
      · next href =>
        rw [if_pos href] at h
        obtain ⟨hcallee, hcaller⟩ := List.forall_mem_cons.mp h
        exact (visits_typeOf hcallee).bind fun _ =>
          (visits_typeOf (hcaller caller List.mem_cons_self)).bind fun _ =>
          visits_demand (by nofun) _ _ _
      · exact visits_pure ()

theorem visits_checkCall (id : NodeId) (procedure : String) (args : List Expr)
    (hargs : ∀ n ∈ Expr.listNodes args, around.registry.Safe P n)
    (hleads : around.registry.Leads P id)
    (h : ∀ n ∈ Stmt.identities around.registry around.self (.call id procedure args), P n) :
    Visits P (checkCall around id procedure args)
      (Expr.listNodes args ++
        Stmt.identities around.registry around.self (.call id procedure args))
      (Expr.listIds args) := by
  unfold checkCall
  rw [Stmt.identities] at h ⊢
  cases hdecl : around.registry.followReference id with
  | none =>
    refine ((visits_inferList around args hargs).bind fun _ => visits_pure ()).congr ?_ ?_
    all_goals simp
  | some decl =>
    rw [hdecl, Option.isSome_some, if_pos rfl] at h
    refine ((visits_inferList around args hargs).bind fun _ =>
      (quiet_typeOf (hleads decl hdecl)).bind fun _ => (visits_demand (by nofun) _ _ _).bind
      fun _ => visits_demandCaller around id procedure h).congr ?_ ?_
    all_goals simp

theorem visits_checkYield (e : Expr) (h : ∀ n ∈ e.nodes, around.registry.Safe P n) :
    Visits P (checkYield around e) e.nodes e.ids := by
  unfold checkYield
  refine ((visits_infer around e h).bind fun t => (?_ : Visits P _ [] [])).congr ?_ ?_
  · split
    · exact visits_demand (by nofun) _ _ _
    · exact visits_demand (by nofun) _ _ _
    · exact visits_pure ()
    · exact visits_pure ()
  all_goals simp

mutual

/-- A statement is covered if its nodes lead to nodes with the predicate and its
typed nodes have it. -/
theorem visits_checkStmt : (s : Stmt) →
    (∀ t ∈ s.subs, ∀ n ∈ t.typedNodes around.registry around.self, P n) →
    (∀ n ∈ s.nodes, around.registry.Leads P n) →
    Visits P (checkStmt around s)
      (s.subs.flatMap (Stmt.typedNodes around.registry around.self)) (s.subs.flatMap Stmt.ids)
  | .labeled _ _ body, h, hleads => by
    rw [checkStmt]
    exact visits_checkStmts body (List.forall_mem_cons.mp h).2 (List.forall_mem_cons.mp hleads).2
  | .assign id pairs, h, hleads => by
    rw [checkStmt]
    have hown := h _ List.mem_cons_self
    have hsafe : ∀ p ∈ pairs, ∀ n ∈ p.target.nodes ++ p.value.nodes,
        around.registry.Safe P n := by
      intro p hp
      have hexprs : ∀ e ∈ [p.target, p.value], e ∈ (Stmt.assign id pairs).exprs :=
        fun e he => List.mem_flatMap.mpr ⟨p, hp, he⟩
      have hleads := List.forall_mem_flatMap.mp (List.forall_mem_cons.mp hleads).2 p hp
      obtain ⟨htarget, hvalue⟩ := List.forall_mem_append.mp hleads
      refine List.forall_mem_append.mpr ⟨?_, ?_⟩
      · exact Stmt.safe_of_expr hown (hexprs _ List.mem_cons_self) htarget
      · exact Stmt.safe_of_expr hown (hexprs _ (List.mem_cons_of_mem _ List.mem_cons_self)) hvalue
    refine (visits_forM fun p hp => visits_assign around p (hsafe p hp)).congr ?_ ?_
    all_goals simp [Stmt.subs, Stmt.typedNodes, Stmt.ids, Stmt.exprs, Stmt.decls, Stmt.identities,
      List.flatMap_assoc]
  | .ret _, _, _ | .skip _, _, _ | .goto _ _, _, _ => by
    rw [checkStmt]
    exact visits_pure ()
  | .ite id condition thenBranch elseBranch, h, hleads => by
    rw [checkStmt]
    simp only [Stmt.nodes, List.forall_mem_cons, List.forall_mem_append] at hleads
    obtain ⟨_, ⟨hcondition, hthen⟩, helse⟩ := hleads
    obtain ⟨hown, hblocks⟩ := List.forall_mem_cons.mp h
    obtain ⟨hthen', helse'⟩ := List.forall_mem_append.mp hblocks
    have hsafe := Stmt.safe_of_expr hown List.mem_cons_self hcondition
    refine ((visits_check around condition hsafe).bind fun _ =>
      (visits_checkStmts thenBranch hthen' hthen).bind fun _ =>
      visits_checkStmts elseBranch helse' helse).congr ?_ ?_
    all_goals simp [Stmt.subs, Stmt.typedNodes, Stmt.ids, Stmt.exprs, Stmt.decls, Stmt.identities]
  | .either _ branches, h, hleads => by
    rw [checkStmt]
    exact visits_checkBranches branches (List.forall_mem_cons.mp h).2
      (List.forall_mem_cons.mp hleads).2
  | .whileDo id condition body, h, hleads => by
    rw [checkStmt]
    simp only [Stmt.nodes, List.forall_mem_cons, List.forall_mem_append] at hleads
    obtain ⟨_, hcondition, hbody⟩ := hleads
    obtain ⟨hown, hbody'⟩ := List.forall_mem_cons.mp h
    have hsafe := Stmt.safe_of_expr hown List.mem_cons_self hcondition
    refine ((visits_check around condition hsafe).bind fun _ =>
      visits_checkStmts body hbody' hbody).congr ?_ ?_
    all_goals simp [Stmt.subs, Stmt.typedNodes, Stmt.ids, Stmt.exprs, Stmt.decls, Stmt.identities]
  | .withDo id decls body, h, hleads => by
    rw [checkStmt]
    simp only [Stmt.nodes, List.forall_mem_cons, List.forall_mem_append] at hleads
    obtain ⟨_, hdecls, hbody⟩ := hleads
    obtain ⟨hown, hbody'⟩ := List.forall_mem_cons.mp h
    have hsafe := Registry.safe_of_forall
      (fun n hn => hown n (List.mem_append_left _ (List.mem_append_right _ hn))) hdecls
    refine ((visits_declareAll around decls hsafe).bind fun _ =>
      visits_checkStmts body hbody' hbody).congr ?_ ?_
    all_goals simp [Stmt.subs, Stmt.typedNodes, Stmt.ids, Stmt.exprs, Stmt.decls, Stmt.identities]
  | .print _ e, h, hleads => by
    rw [checkStmt]
    have hsafe := Stmt.safe_of_expr (h _ List.mem_cons_self) List.mem_cons_self
      (List.forall_mem_cons.mp hleads).2
    refine ((visits_infer around e hsafe).bind fun _ => visits_pure ()).congr ?_ ?_
    all_goals simp [Stmt.subs, Stmt.typedNodes, Stmt.ids, Stmt.exprs, Stmt.decls, Stmt.identities]
  | .assert _ e, h, hleads | .await _ e, h, hleads => by
    rw [checkStmt]
    have hsafe := Stmt.safe_of_expr (h _ List.mem_cons_self) List.mem_cons_self
      (List.forall_mem_cons.mp hleads).2
    refine (visits_check around e hsafe).congr ?_ ?_
    all_goals simp [Stmt.subs, Stmt.typedNodes, Stmt.ids, Stmt.exprs, Stmt.decls, Stmt.identities]
  | .call id procedure args, h, hleads => by
    rw [checkStmt]
    have hown := h _ List.mem_cons_self
    obtain ⟨hid, hargs⟩ := List.forall_mem_cons.mp hleads
    have hsafe := Registry.safe_of_forall (fun n hn => hown n (List.mem_append_left _
      (List.mem_append_left _ (Expr.listNodes_eq args ▸ hn)))) hargs
    refine (visits_checkCall around id procedure args hsafe hid fun n hn =>
      hown n (List.mem_append_right _ hn)).congr ?_ ?_
    all_goals simp [Stmt.subs, Stmt.typedNodes, Stmt.ids, Stmt.exprs, Stmt.decls, Expr.listNodes_eq,
      Expr.listIds_eq]
  | .yield _ e, h, hleads => by
    rw [checkStmt]
    have hsafe := Stmt.safe_of_expr (h _ List.mem_cons_self) List.mem_cons_self
      (List.forall_mem_cons.mp hleads).2
    refine (visits_checkYield around e hsafe).congr ?_ ?_
    all_goals simp [Stmt.subs, Stmt.typedNodes, Stmt.ids, Stmt.exprs, Stmt.decls, Stmt.identities]

theorem visits_checkStmts : (ss : List Stmt) →
    (∀ t ∈ Stmt.subsAll ss, ∀ n ∈ t.typedNodes around.registry around.self, P n) →
    (∀ n ∈ Stmt.listNodes ss, around.registry.Leads P n) →
    Visits P (checkStmts around ss)
      ((Stmt.subsAll ss).flatMap (Stmt.typedNodes around.registry around.self))
      ((Stmt.subsAll ss).flatMap Stmt.ids)
  | [], _, _ => by
    rw [checkStmts]
    exact visits_pure ()
  | s :: ss, h, hleads => by
    rw [checkStmts, Stmt.subsAll, List.flatMap_append, List.flatMap_append]
    obtain ⟨hs, hss⟩ := List.forall_mem_append.mp h
    obtain ⟨hs', hss'⟩ := List.forall_mem_append.mp hleads
    exact (visits_checkStmt s hs hs').bind fun _ => visits_checkStmts ss hss hss'

theorem visits_checkBranches : (bs : List (List Stmt)) →
    (∀ t ∈ Stmt.subsBranches bs, ∀ n ∈ t.typedNodes around.registry around.self, P n) →
    (∀ n ∈ Stmt.branchesNodes bs, around.registry.Leads P n) →
    Visits P (checkBranches around bs)
      ((Stmt.subsBranches bs).flatMap (Stmt.typedNodes around.registry around.self))
      ((Stmt.subsBranches bs).flatMap Stmt.ids)
  | [], _, _ => by
    rw [checkBranches]
    exact visits_pure ()
  | b :: bs, h, hleads => by
    rw [checkBranches, Stmt.subsBranches, List.flatMap_append, List.flatMap_append]
    obtain ⟨hb, hbs⟩ := List.forall_mem_append.mp h
    obtain ⟨hb', hbs'⟩ := List.forall_mem_append.mp hleads
    exact (visits_checkStmts b hb hb').bind fun _ => visits_checkBranches bs hbs hbs'

end

end Drafting

end PlusCalTyping
