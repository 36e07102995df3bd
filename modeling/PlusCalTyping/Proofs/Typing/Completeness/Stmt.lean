import PlusCalTyping.Proofs.Typing.Completeness.Expr

/-! # Completeness of the constraints of statements -/

namespace PlusCalTyping

/-- What `yield` has to produce in a body stands for the type of its place. -/
structure Filling.Places {τ : Typing} (p : Filling τ) (around : Surroundings)
    (place : Typing.Place) : Prop where
  self : place.self = around.self
  yields : ∀ t, around.role = .macroRead t ∨ around.role = .macroWrite t →
    ∃ n, place.yields = some n ∧ p.Suits n t

variable {τ : Typing} {p q : Filling τ} (around : Surroundings) {place : Typing.Place}

theorem Filling.Places.mono (h : p.Places around place) (hq : p ≤ q) :
    q.Places around place := by
  refine ⟨h.self, fun t ht => ?_⟩
  obtain ⟨n, hn, hsuits⟩ := h.yields t ht
  exact ⟨n, hn, hsuits.mono hq⟩

namespace Drafting

open Filling

/-! ## Declarations -/

theorem reaches_recorded (n : NodeId) (rule : TypingRule) {t : Ty} (ht : p.Suits n t)
    (detail : String) :
    Reaches (do record n rule t detail; return t) p fun q u => q.Suits n u :=
  (reaches_record p n rule t detail).bind fun _ _ hq _ => reaches_pure (ht.mono hq)

theorem reaches_declare (d : Decl) (h : τ.DeclTyped around.registry d) (p : Filling τ) :
    Reaches (declare around d) p fun q t => q.Suits d.id t := by
  obtain ⟨id, name, init⟩ := d
  unfold declare
  apply (reaches_typeOf p id).bind
  intro q v _ hv
  dsimp only
  split
  · exact reaches_recorded id .declaration hv name
  · next e =>
    obtain ⟨he, t, hid, ht⟩ := h
    apply (reaches_infer around e he q).bind
    intro q' u hq' hu
    have hv := hv.mono hq'
    apply (reaches_demand (hv.denotes hid) (hu.denotes ht) id .declaration).bind
    intro s _ hs _
    exact reaches_recorded id .declaration (hv.mono hs) name
  · next e =>
    obtain ⟨he, t, hid, hset⟩ := h
    apply (reaches_infer around e he q).bind
    intro q₁ u h₁ hu
    apply (reaches_fresh q₁ t).bind
    intro q₂ member h₂ hmember
    apply (reaches_demand (hmember.set _ _) ((hu.mono h₂).denotes hset) id .declaration).bind
    intro q₃ _ h₃ _
    have hv := hv.mono (h₁.trans (h₂.trans h₃))
    apply (reaches_demand (hv.denotes hid) (hmember.mono h₃) id .declaration).bind
    intro q₄ _ h₄ _
    exact reaches_recorded id .declaration (hv.mono h₄) name

theorem reaches_declareAll (ds : List Decl) (h : ∀ d ∈ ds, τ.DeclTyped around.registry d)
    (p : Filling τ) : Reaches (declareAll around ds) p fun _ _ => True :=
  reaches_forM (fun d hd q => (reaches_declare around d (h d hd) q).bind
    fun _ _ _ _ => reaches_pure trivial) p

/-! ## Statements -/

theorem reaches_check (e : Expr) (h : τ.ConditionTyped around.registry e) (p : Filling τ) :
    Reaches (check around e) p fun _ _ => True :=
  (reaches_infer around e h.1 p).bind fun _ _ _ ht => reaches_demandBool (ht.denotes h.2) e.id

theorem reaches_targetType (e : Expr) (h : τ.ExprTyped around.registry e) (p : Filling τ) :
    Reaches (targetType around e) p fun q t => q.Suits e.id t := by
  induction e using targetType.induct generalizing p with
  | case1 id name =>
    rw [targetType]
    obtain ⟨decl, hdecl, t, hid, ht⟩ := h
    apply (reaches_nameType around hdecl (.inr rfl) p).bind
    intro q u _ hu
    exact reaches_settle (hu.denotes ht) hid
  | case2 id func args ih =>
    rw [targetType]
    obtain ⟨hfunc, hargs, ts, t, hts, hid, hmap⟩ := h
    apply (ih hfunc p).bind
    intro q f _ hf
    apply (reaches_inferList around args hargs q).bind
    intro q' us hq' hus
    have hf := (hf.mono hq').denotes hmap
    exact reaches_applied hf (forall₂_denotes hus hts) fun hv => reaches_settle hv hid
  | case3 e hident happly =>
    rw [targetType]
    · exact reaches_infer around e h p
    · exact hident
    · exact happly

theorem reaches_assign (a : Assignment) (h : τ.AssignmentTyped around.registry a)
    (p : Filling τ) : Reaches (assign around a) p fun _ _ => True := by
  obtain ⟨htarget, hvalue, t, ht, hvt⟩ := h
  apply (reaches_targetType around a.target htarget p).bind
  intro q u _ hu
  apply (reaches_infer around a.value hvalue q).bind
  intro s v hs hv
  exact reaches_demand ((hu.mono hs).denotes ht) (hv.denotes hvt) a.value.id .assignment

theorem reaches_demandCaller (call : NodeId) (procedure : String)
    (h : τ.CallerTyped around.registry place procedure) (hself : place.self = around.self)
    (p : Filling τ) : Reaches (demandCaller around call procedure) p fun _ _ => True := by
  unfold demandCaller
  split
  · next caller hcaller =>
    split
    · next callee hcallee =>
      rw [Option.map_eq_some_iff] at hcallee
      obtain ⟨x, hx, rfl⟩ := hcallee
      split
      · next hreferenced =>
        obtain ⟨t, hcalleet, hcallert⟩ := h caller x (hself.trans hcaller) hx hreferenced
        apply (reaches_typeOf p x.selfId).bind
        intro q u _ hu
        apply (reaches_typeOf q caller).bind
        intro s v hs hv
        exact reaches_demand ((hu.mono hs).denotes hcalleet) (hv.denotes hcallert) call _
      · exact reaches_pure trivial
    · exact reaches_pure trivial
  · exact reaches_pure trivial

theorem reaches_checkCall (id : NodeId) (procedure : String) (args : List Expr)
    (h : τ.CallTyped around.registry id args ∧ τ.CallerTyped around.registry place procedure)
    (hself : place.self = around.self) (p : Filling τ) :
    Reaches (checkCall around id procedure args) p fun _ _ => True := by
  obtain ⟨⟨hargs, decl, ts, hdecl, hts, hsignature⟩, hcaller⟩ := h
  unfold checkCall
  apply (reaches_inferList around args hargs p).bind
  intro q us _ hus
  simp only [hdecl]
  apply (reaches_typeOf q decl).bind
  intro s signature hs hsig
  have hus := (forall₂_denotes hus hts).imp fun _ _ h => h.mono hs
  apply (reaches_demand (hsig.denotes hsignature) (denotes_procedure hus _ _) id _).bind
  intro s' _ _ _
  exact reaches_demandCaller around id procedure hcaller hself s'

theorem reaches_checkYield (e : Expr) (he : τ.ExprTyped around.registry e)
    (hyields : ∀ n, place.yields = some n → τ.Share e.id n) (hp : p.Places around place) :
    Reaches (checkYield around e) p fun _ _ => True := by
  unfold checkYield
  apply (reaches_infer around e he p).bind
  intro q v hq hv
  have hdemand {t : Ty} (ht : around.role = .macroRead t ∨ around.role = .macroWrite t) :
      Reaches (demand t v e.id .yield) q fun _ _ => True := by
    obtain ⟨n, hn, hsuits⟩ := hp.yields t ht
    obtain ⟨u, hu, hnu⟩ := hyields n hn
    exact reaches_demand ((hsuits.mono hq).denotes hnu) (hv.denotes hu) e.id .yield
  split
  · next t ht => exact hdemand (.inl ht)
  · next t ht => exact hdemand (.inr ht)
  · exact reaches_pure trivial
  · exact reaches_pure trivial

mutual

/-- The constraints of a typed statement can be filled in. -/
theorem reaches_checkStmt : (s : Stmt) → τ.StmtTyped around.registry place s →
    {p : Filling τ} → p.Places around place → Reaches (checkStmt around s) p fun _ _ => True
  | .labeled _ _ body, h, p, hp => by
    rw [checkStmt]
    exact reaches_checkStmts body h hp
  | .assign _ pairs, h, p, _ => by
    rw [checkStmt]
    exact reaches_forM (fun a ha q => reaches_assign around a (h a ha) q) p
  | .ret _, _, p, _ | .skip _, _, p, _ | .goto _ _, _, p, _ => by
    rw [checkStmt]
    exact reaches_pure trivial
  | .ite _ condition thenBranch elseBranch, h, p, hp => by
    rw [checkStmt]
    obtain ⟨hcondition, hthen, helse⟩ := h
    apply (reaches_check around condition hcondition p).bind
    intro q _ hq _
    apply (reaches_checkStmts thenBranch hthen (hp.mono around hq)).bind
    intro s _ hs _
    exact reaches_checkStmts elseBranch helse (hp.mono around (hq.trans hs))
  | .either _ branches, h, p, hp => by
    rw [checkStmt]
    exact reaches_checkBranches branches h hp
  | .whileDo _ condition body, h, p, hp => by
    rw [checkStmt]
    obtain ⟨hcondition, hbody⟩ := h
    apply (reaches_check around condition hcondition p).bind
    intro q _ hq _
    exact reaches_checkStmts body hbody (hp.mono around hq)
  | .withDo _ decls body, h, p, hp => by
    rw [checkStmt]
    obtain ⟨hdecls, hbody⟩ := h
    apply (reaches_declareAll around decls hdecls p).bind
    intro q _ hq _
    exact reaches_checkStmts body hbody (hp.mono around hq)
  | .print _ e, h, p, _ => by
    rw [checkStmt]
    exact (reaches_infer around e h p).bind fun _ _ _ _ => reaches_pure trivial
  | .assert _ e, h, p, _ | .await _ e, h, p, _ => by
    rw [checkStmt]
    exact reaches_check around e h p
  | .call id procedure args, h, p, hp => by
    rw [checkStmt]
    exact reaches_checkCall around id procedure args h hp.self p
  | .yield _ e, h, p, hp => by
    rw [checkStmt]
    exact reaches_checkYield around e h.1 h.2 hp

theorem reaches_checkStmts : (ss : List Stmt) → τ.StmtsTyped around.registry place ss →
    {p : Filling τ} → p.Places around place → Reaches (checkStmts around ss) p fun _ _ => True
  | [], _, p, _ => by
    rw [checkStmts]
    exact reaches_pure trivial
  | s :: ss, h, p, hp => by
    rw [checkStmts]
    obtain ⟨hs, hss⟩ := h
    apply (reaches_checkStmt s hs hp).bind
    intro q _ hq _
    exact reaches_checkStmts ss hss (hp.mono around hq)

theorem reaches_checkBranches : (bs : List (List Stmt)) →
    τ.BranchesTyped around.registry place bs → {p : Filling τ} → p.Places around place →
    Reaches (checkBranches around bs) p fun _ _ => True
  | [], _, p, _ => by
    rw [checkBranches]
    exact reaches_pure trivial
  | b :: bs, h, p, hp => by
    rw [checkBranches]
    obtain ⟨hb, hbs⟩ := h
    apply (reaches_checkStmts b hb hp).bind
    intro q _ hq _
    exact reaches_checkBranches bs hbs (hp.mono around hq)

end

end Drafting

end PlusCalTyping
