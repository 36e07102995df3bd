import PlusCalTyping.Proofs.Typing.Lockstep.Expr

/-! # Declarations and statements in lockstep -/

namespace PlusCalTyping.Drafting

variable {xs : List NodeId} {x y : Surroundings} (h : x.Matches xs y)
include h

theorem lockstep_declare (d : Decl) (hrefs : ∀ n ∈ d.nodes, x.registry.RefersAlike y.registry n) :
    Lockstep xs xs (declare x d) (declare y d) := by
  obtain ⟨id, name, init⟩ := d
  obtain ⟨_, hinit⟩ := List.forall_mem_cons.mp hrefs
  unfold declare
  refine (blind_typeOf id).lockstep.bind fun _ => ?_
  cases init with
  | none => exact ((blind_record _ _ _ _).bind fun _ => blind_pure _).lockstep
  | some init =>
    cases init with
    | value e =>
      exact (lockstep_infer h e hinit).bind fun _ => ((blind_demand _ _ _ _).bind fun _ =>
        (blind_record _ _ _ _).bind fun _ => blind_pure _).lockstep
    | member e =>
      exact (lockstep_infer h e hinit).bind fun _ => (blind_fresh.bind fun _ =>
        (blind_demand _ _ _ _).bind fun _ => (blind_demand _ _ _ _).bind fun _ =>
        (blind_record _ _ _ _).bind fun _ => blind_pure _).lockstep

theorem lockstep_declareAll (ds : List Decl)
    (hrefs : ∀ n ∈ ds.flatMap Decl.nodes, x.registry.RefersAlike y.registry n) :
    Lockstep xs xs (declareAll x ds) (declareAll y ds) :=
  lockstep_forM fun d hd => (lockstep_declare h d (List.forall_mem_flatMap.mp hrefs d hd)).bind
    fun _ => lockstep_pure ()

theorem lockstep_check (e : Expr) (hrefs : ∀ n ∈ e.nodes, x.registry.RefersAlike y.registry n) :
    Lockstep xs xs (check x e) (check y e) :=
  (lockstep_infer h e hrefs).bind fun t => (blind_demandBool e.id t).lockstep

theorem lockstep_targetType (e : Expr)
    (hrefs : ∀ n ∈ e.nodes, x.registry.RefersAlike y.registry n) :
    Lockstep xs xs (targetType x e) (targetType y e) := by
  induction e using targetType.induct with
  | case1 id name =>
    rw [targetType, targetType]
    exact (lockstep_nameType h (hrefs id List.mem_cons_self) _).bind fun t =>
      (blind_settle id t).lockstep
  | case2 id func args ih =>
    rw [targetType, targetType]
    simp only [Expr.nodes, List.forall_mem_cons, List.forall_mem_append] at hrefs
    obtain ⟨_, hfunc, hargs⟩ := hrefs
    exact (ih hfunc).bind fun t => (lockstep_inferList h args hargs).bind fun ts =>
      (blind_applied id t ts fun _ => blind_settle id _).lockstep
  | case3 e hident happly =>
    -- Any other target is inferred like an expression that is read.
    have hread (z : Surroundings) : targetType z e = infer z e := by
      rw [targetType]
      · exact hident
      · exact happly
    rw [hread, hread]
    exact lockstep_infer h e hrefs

theorem lockstep_assign (a : Assignment)
    (hrefs : ∀ n ∈ a.target.nodes ++ a.value.nodes, x.registry.RefersAlike y.registry n) :
    Lockstep xs xs (assign x a) (assign y a) := by
  obtain ⟨htarget, hvalue⟩ := List.forall_mem_append.mp hrefs
  exact (lockstep_targetType h a.target htarget).bind fun _ =>
    (lockstep_infer h a.value hvalue).bind fun _ => (blind_demand _ _ _ _).lockstep

theorem lockstep_demandCaller (call : NodeId) (procedure : String) :
    Lockstep xs xs (demandCaller x call procedure) (demandCaller y call procedure) := by
  unfold demandCaller
  rw [← h.self, ← h.procedures]
  cases x.self with
  | none => exact lockstep_pure ()
  | some caller =>
    cases hcallee : x.registry.findProcedure procedure with
    | none => exact lockstep_pure ()
    | some callee =>
      simp only [Option.map_some, ← h.callees procedure callee hcallee]
      refine Blind.lockstep ?_
      split
      · exact (blind_typeOf _).bind fun _ => (blind_typeOf caller).bind fun _ =>
          blind_demand _ _ _ _
      · exact blind_pure ()

theorem lockstep_checkCall (id : NodeId) (procedure : String) (args : List Expr)
    (hid : x.registry.RefersAlike y.registry id)
    (hargs : ∀ n ∈ Expr.listNodes args, x.registry.RefersAlike y.registry n) :
    Lockstep xs xs (checkCall x id procedure args) (checkCall y id procedure args) := by
  unfold checkCall
  refine (lockstep_inferList h args hargs).bind fun _ => ?_
  rw [← hid]
  cases x.registry.followReference id with
  | none => exact lockstep_pure ()
  | some decl =>
    exact (blind_typeOf decl).lockstep.bind fun _ => (blind_demand _ _ _ _).lockstep.bind fun _ =>
      lockstep_demandCaller h id procedure

theorem lockstep_checkYield (e : Expr)
    (hrefs : ∀ n ∈ e.nodes, x.registry.RefersAlike y.registry n) :
    Lockstep xs xs (checkYield x e) (checkYield y e) := by
  unfold checkYield
  rw [← h.role]
  refine (lockstep_infer h e hrefs).bind fun _ => Blind.lockstep ?_
  cases x.role with
  | macroRead | macroWrite => exact blind_demand _ _ _ _
  | general | archetype => exact blind_pure ()

omit h

mutual

/-- A statement is gone through in lockstep if its names refer alike. -/
theorem lockstep_checkStmt (h : x.Matches xs y) : (s : Stmt) →
    (∀ n ∈ s.nodes, x.registry.RefersAlike y.registry n) →
    Lockstep xs xs (checkStmt x s) (checkStmt y s)
  | .labeled _ _ body, hrefs => by
    rw [checkStmt, checkStmt]
    exact lockstep_checkStmts h body (List.forall_mem_cons.mp hrefs).2
  | .assign _ pairs, hrefs => by
    rw [checkStmt, checkStmt]
    have hpairs := List.forall_mem_flatMap.mp (List.forall_mem_cons.mp hrefs).2
    exact lockstep_forM fun p hp => lockstep_assign h p (hpairs p hp)
  | .ret _, _ | .skip _, _ | .goto _ _, _ => by
    rw [checkStmt, checkStmt]
    exact lockstep_pure ()
  | .ite _ condition thenBranch elseBranch, hrefs => by
    rw [checkStmt, checkStmt]
    simp only [Stmt.nodes, List.forall_mem_cons, List.forall_mem_append] at hrefs
    obtain ⟨_, ⟨hcondition, hthen⟩, helse⟩ := hrefs
    exact (lockstep_check h condition hcondition).bind fun _ =>
      (lockstep_checkStmts h thenBranch hthen).bind fun _ =>
      lockstep_checkStmts h elseBranch helse
  | .either _ branches, hrefs => by
    rw [checkStmt, checkStmt]
    exact lockstep_checkBranches h branches (List.forall_mem_cons.mp hrefs).2
  | .whileDo _ condition body, hrefs => by
    rw [checkStmt, checkStmt]
    simp only [Stmt.nodes, List.forall_mem_cons, List.forall_mem_append] at hrefs
    obtain ⟨_, hcondition, hbody⟩ := hrefs
    exact (lockstep_check h condition hcondition).bind fun _ => lockstep_checkStmts h body hbody
  | .withDo _ decls body, hrefs => by
    rw [checkStmt, checkStmt]
    simp only [Stmt.nodes, List.forall_mem_cons, List.forall_mem_append] at hrefs
    obtain ⟨_, hdecls, hbody⟩ := hrefs
    exact (lockstep_declareAll h decls hdecls).bind fun _ => lockstep_checkStmts h body hbody
  | .print _ e, hrefs => by
    rw [checkStmt, checkStmt]
    exact (lockstep_infer h e (List.forall_mem_cons.mp hrefs).2).bind fun _ => lockstep_pure ()
  | .assert _ e, hrefs | .await _ e, hrefs => by
    rw [checkStmt, checkStmt]
    exact lockstep_check h e (List.forall_mem_cons.mp hrefs).2
  | .call id procedure args, hrefs => by
    rw [checkStmt, checkStmt]
    obtain ⟨hid, hargs⟩ := List.forall_mem_cons.mp hrefs
    exact lockstep_checkCall h id procedure args hid hargs
  | .yield _ e, hrefs => by
    rw [checkStmt, checkStmt]
    exact lockstep_checkYield h e (List.forall_mem_cons.mp hrefs).2

theorem lockstep_checkStmts (h : x.Matches xs y) : (ss : List Stmt) →
    (∀ n ∈ Stmt.listNodes ss, x.registry.RefersAlike y.registry n) →
    Lockstep xs xs (checkStmts x ss) (checkStmts y ss)
  | [], _ => by
    rw [checkStmts, checkStmts]
    exact lockstep_pure ()
  | s :: ss, hrefs => by
    rw [checkStmts, checkStmts]
    obtain ⟨hs, hss⟩ := List.forall_mem_append.mp hrefs
    exact (lockstep_checkStmt h s hs).bind fun _ => lockstep_checkStmts h ss hss

theorem lockstep_checkBranches (h : x.Matches xs y) : (bs : List (List Stmt)) →
    (∀ n ∈ Stmt.branchesNodes bs, x.registry.RefersAlike y.registry n) →
    Lockstep xs xs (checkBranches x bs) (checkBranches y bs)
  | [], _ => by
    rw [checkBranches, checkBranches]
    exact lockstep_pure ()
  | b :: bs, hrefs => by
    rw [checkBranches, checkBranches]
    obtain ⟨hb, hbs⟩ := List.forall_mem_append.mp hrefs
    exact (lockstep_checkStmts h b hb).bind fun _ => lockstep_checkBranches h bs hbs

end

end PlusCalTyping.Drafting
