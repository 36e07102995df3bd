import PlusCalTyping.Proofs.Scope.LexicalScope
import PlusCalTyping.Proofs.Typing.Coverage.Expr
import PlusCalTyping.Proofs.Typing.Coverage.Kinds

/-! # Names refer to typed nodes

Whatever is visible where a name occurs is declared around it, so a name refers to
a node of the algorithm that has a type. A procedure's own identity is visible in
its body, and has a type once a name refers to it. Conversely, names occur in all
expressions and calls of the algorithm (`Algorithm.HasExpr.occurs`).
-/

namespace PlusCalTyping

theorem Env.mem_declare {env : Env} {ds : List (Node String)} {d : Node String} :
    d ∈ env.declare ds ↔ d ∈ ds ∨ d ∈ env := by
  simp [declare]

namespace Expr

variable {env : Env} {e : Expr} {n : NodeId} {d : Node String} {o : Occurrence}

theorem mem_nodes_of_operand {x : Expr} (h : x ∈ e.operands) (hn : n ∈ x.nodes) :
    n ∈ e.nodes := by
  cases e with
  | tuple _ elems | set _ elems | call _ _ elems =>
    refine List.mem_cons_of_mem _ ?_
    rw [listNodes_eq]
    exact List.mem_flatMap.mpr ⟨x, h, hn⟩
  | unary | binary | ite =>
    simp only [operands, List.mem_cons, List.not_mem_nil, or_false] at h
    simp only [nodes, List.mem_cons, List.mem_append]
    rcases h with rfl | rfl | rfl <;> simp [hn]
  | apply _ func args =>
    simp only [nodes, List.mem_cons, List.mem_append, listNodes_eq, List.mem_flatMap]
    rcases List.mem_cons.mp h with rfl | h
    · exact .inr (.inl hn)
    · exact .inr (.inr ⟨x, h, hn⟩)
  | cases _ arms other =>
    have harms (h : x ∈ arms.flatMap fun x => [x.condition, x.result]) : n ∈ armsNodes arms := by
      obtain ⟨y, hy, h⟩ := List.mem_flatMap.mp h
      rw [mem_armsNodes_iff, List.mem_flatMap, List.mem_flatMap]
      rcases List.mem_pair.mp h with rfl | rfl
      · exact .inl ⟨y, hy, hn⟩
      · exact .inr ⟨y, hy, hn⟩
    cases other with
    | none =>
      rw [operands, Option.toList_none, List.append_nil] at h
      exact List.mem_cons_of_mem _ (harms h)
    | some other =>
      refine List.mem_cons_of_mem _ (List.mem_append.mpr ?_)
      rcases List.mem_append.mp h with h | h
      · exact .inl (harms h)
      · rw [Option.toList_some, List.mem_singleton] at h
        exact .inr (h ▸ hn)
  | _ => cases h

theorem mem_nodes_of_binder {body : Expr} {bounds : List Bound}
    (h : e.binder? = some (bounds, body)) (hn : n ∈ boundsNodes bounds ++ body.nodes) :
    n ∈ e.nodes := by
  cases e with
  | function | comprehension | quantified =>
    cases h
    exact List.mem_cons_of_mem _ hn
  | refinement | choose =>
    cases h
    rw [boundsNodes, boundsNodes, List.append_nil] at hn
    exact List.mem_cons_of_mem _ hn
  | _ => cases h

/-- What a part sees is visible around the whole or declared in it, and the nodes of
the part are among those of the whole. -/
theorem Part.declared {env' : Env} {x : Expr} (h : Part env e env' x) :
    (∀ n ∈ x.nodes, n ∈ e.nodes) ∧ ∀ d ∈ env', d ∈ env ∨ d.id ∈ e.nodes := by
  cases h with
  | operand h => exact ⟨fun n hn => mem_nodes_of_operand h hn, fun d hd => .inl hd⟩
  | boundSet h hb =>
    refine ⟨fun n hn => mem_nodes_of_binder h (List.mem_append_left _ ?_), fun d hd => .inl hd⟩
    rw [boundsNodes_eq]
    exact List.mem_flatMap.mpr ⟨_, hb, by simp [boundNodes_eq, hn]⟩
  | boundBody h =>
    refine ⟨fun n hn => mem_nodes_of_binder h (List.mem_append_right _ hn), fun d hd => ?_⟩
    rcases Env.mem_declare.mp hd with hd | hd
    · obtain ⟨b, hb, rfl⟩ := List.mem_map.mp hd
      refine .inr (mem_nodes_of_binder h (List.mem_append_left _ ?_))
      rw [boundsNodes_eq]
      exact List.mem_flatMap.mpr ⟨b, hb, by simp [boundNodes_eq, Bound.declares]⟩
    · exact .inl hd
  | @definition id before after d body =>
    have hdefinition {x : Definition} (hx : x ∈ before ++ d :: after) {n : NodeId}
        (hn : n ∈ definitionNodes x) : n ∈ (letIn id (before ++ d :: after) body).nodes := by
      refine List.mem_cons_of_mem _ (List.mem_append_left _ ?_)
      rw [definitionsNodes_eq]
      exact List.mem_flatMap.mpr ⟨x, hx, hn⟩
    have hd : d ∈ before ++ d :: after := List.mem_append_right _ List.mem_cons_self
    refine ⟨fun n hn => hdefinition hd (by simp [definitionNodes_eq, hn]), fun y hy => ?_⟩
    rcases Env.mem_declare.mp hy with hy | hy
    · refine .inr (hdefinition hd ?_)
      rw [definitionNodes_eq]
      exact List.mem_cons_of_mem _ (List.mem_append_left _ (List.mem_map_of_mem hy))
    · rcases Env.mem_declare.mp hy with hy | hy
      · obtain ⟨x, hx, rfl⟩ := List.mem_map.mp hy
        refine .inr (hdefinition (List.mem_append_left _ hx) ?_)
        rw [definitionNodes_eq]
        exact List.mem_cons_self
      · exact .inl hy
  | @letBody id ds =>
    refine ⟨fun n hn => List.mem_cons_of_mem _ (List.mem_append_right _ hn), fun y hy => ?_⟩
    rcases Env.mem_declare.mp hy with hy | hy
    · obtain ⟨x, hx, rfl⟩ := List.mem_map.mp hy
      refine .inr (List.mem_cons_of_mem _ (List.mem_append_left _ ?_))
      rw [definitionsNodes_eq]
      exact List.mem_flatMap.mpr ⟨x, hx, by simp [definitionNodes_eq, Definition.declares]⟩
    · exact .inl hy

theorem Occurs.declared (h : e.Occurs env o) : ∀ d ∈ o.visible, d ∈ env ∨ d.id ∈ e.nodes := by
  induction h with
  | ident | ref | call => exact fun d hd => .inl hd
  | part h _ ih =>
    obtain ⟨hnodes, henv⟩ := h.declared
    intro d hd
    rcases ih d hd with hd | hd
    · exact henv d hd
    · exact .inr (hnodes _ hd)

theorem Part.exists_of_env {env' : Env} {x : Expr} (h : Part env e env' x) (outer : Env) :
    ∃ inner, Part outer e inner x := by
  cases h with
  | operand h => exact ⟨_, .operand h⟩
  | boundSet h hb => exact ⟨_, .boundSet h hb⟩
  | boundBody h => exact ⟨_, .boundBody h⟩
  | definition => exact ⟨_, .definition⟩
  | letBody => exact ⟨_, .letBody⟩

/-- Names occur at the same nodes whatever is visible around an expression. -/
theorem Occurs.exists_of_env (h : e.Occurs env o) (outer : Env) :
    ∃ o', e.Occurs outer o' ∧ o'.site = o.site := by
  induction h generalizing outer with
  | ident => exact ⟨_, .ident, rfl⟩
  | ref => exact ⟨_, .ref, rfl⟩
  | call => exact ⟨_, .call, rfl⟩
  | part h _ ih =>
    obtain ⟨inner, hpart⟩ := h.exists_of_env outer
    obtain ⟨o', ho, hsite⟩ := ih inner
    exact ⟨o', .part hpart ho, hsite⟩

end Expr

variable {env procedures : Env} {o : Occurrence} {r : Registry} {self : Option NodeId}

theorem Env.declared_of_decls {decls : List Decl} {d : Node String}
    (hd : d ∈ env.declare (decls.map (·.declares))) :
    d ∈ env ∨ d.id ∈ decls.flatMap Decl.nodes := by
  rcases Env.mem_declare.mp hd with hd | hd
  · obtain ⟨x, hx, rfl⟩ := List.mem_map.mp hd
    exact .inr (List.mem_flatMap.mpr ⟨x, hx, List.mem_cons_self⟩)
  · exact .inl hd

theorem Decl.OccursIn.declared {decls : List Decl} (h : Decl.OccursIn env decls o) :
    ∀ d ∈ o.visible, d ∈ env ∨ d.id ∈ decls.flatMap Decl.nodes := by
  cases h with
  | @initial before after x e _ he ho =>
    intro d hd
    rw [List.flatMap_append, List.flatMap_cons]
    rcases ho.declared d hd with hd | hd
    · exact (Env.declared_of_decls hd).imp_right fun hd => List.mem_append_left _ hd
    · refine .inr (List.mem_append_right _ (List.mem_append_left _ (List.mem_cons_of_mem _ ?_)))
      rw [he]
      exact hd

namespace Stmt

theorem subsAll_eq (ss : List Stmt) : subsAll ss = ss.flatMap subs := by
  induction ss with
  | nil => rfl
  | cons s ss ih => rw [subsAll, ih, List.flatMap_cons]

theorem subsBranches_eq (bs : List (List Stmt)) : subsBranches bs = bs.flatten.flatMap subs := by
  induction bs with
  | nil => rfl
  | cons b bs ih => rw [subsBranches, ih, subsAll_eq, List.flatten_cons, List.flatMap_append]

theorem mem_subsAll {s t : Stmt} {ss : List Stmt} (h : s ∈ ss) (ht : t ∈ s.subs) :
    t ∈ subsAll ss := by
  rw [subsAll_eq]
  exact List.mem_flatMap.mpr ⟨s, h, ht⟩

theorem mem_subs (s : Stmt) : s ∈ s.subs := by
  cases s <;> exact List.mem_cons_self

theorem mem_subs_of_block {s t u : Stmt} (h : t ∈ s.blocks) (hu : u ∈ t.subs) : u ∈ s.subs := by
  cases s with
  | labeled | whileDo => exact List.mem_cons_of_mem _ (mem_subsAll h hu)
  | ite =>
    refine List.mem_cons_of_mem _ ?_
    rw [subsAll_eq, subsAll_eq, ← List.flatMap_append]
    exact List.mem_flatMap.mpr ⟨t, h, hu⟩
  | either =>
    refine List.mem_cons_of_mem _ ?_
    rw [subsBranches_eq]
    exact List.mem_flatMap.mpr ⟨t, h, hu⟩
  | _ => cases h

/-- What is visible in a statement is a procedure, visible around the statement, or
declared in it. -/
theorem Occurs.declared {s : Stmt} (h : s.Occurs procedures env o) :
    ∀ d ∈ o.visible, d ∈ env ∨ d ∈ procedures ∨ d.id ∈ s.subs.flatMap (typedNodes r self) := by
  induction h with
  | @expr _ s e _ h ho =>
    intro d hd
    refine (ho.declared d hd).imp_right fun hd => .inr ?_
    refine List.mem_flatMap.mpr ⟨s, s.mem_subs, ?_⟩
    exact List.mem_append_left _ (List.mem_append_left _ (List.mem_flatMap.mpr ⟨e, h, hd⟩))
  | block h _ ih =>
    intro d hd
    refine (ih d hd).imp_right fun hd => hd.imp_right fun hd => ?_
    obtain ⟨t, ht, hd⟩ := List.mem_flatMap.mp hd
    exact List.mem_flatMap.mpr ⟨t, mem_subs_of_block h ht, hd⟩
  | call => exact fun d hd => .inr (.inl hd)
  | withDecls ho =>
    intro d hd
    refine (ho.declared d hd).imp_right fun hd => .inr ?_
    refine List.mem_flatMap.mpr ⟨_, List.mem_cons_self, ?_⟩
    exact List.mem_append_left _ (List.mem_append_right _ hd)
  | withBody h _ ih =>
    intro d hd
    rcases ih d hd with hd | hd | hd
    · refine (Env.declared_of_decls hd).imp_right fun hd => .inr ?_
      refine List.mem_flatMap.mpr ⟨_, List.mem_cons_self, ?_⟩
      exact List.mem_append_left _ (List.mem_append_right _ hd)
    · exact .inr (.inl hd)
    · obtain ⟨t, ht, hd⟩ := List.mem_flatMap.mp hd
      refine .inr (.inr (List.mem_flatMap.mpr ⟨t, List.mem_cons_of_mem _ ?_, hd⟩))
      exact mem_subsAll h ht

mutual

/-- What occurs in a statement within another occurs in that one. -/
theorem occurs_of_sub {t : Stmt} : (s : Stmt) → t ∈ s.subs → (env : Env) →
    ∃ env', ∀ o, t.Occurs procedures env' o → s.Occurs procedures env o
  | .labeled _ _ body, h, env | .whileDo _ _ body, h, env => by
    rcases List.mem_cons.mp h with rfl | h
    · exact ⟨env, fun _ ho => ho⟩
    · obtain ⟨u, hu, hoccurs⟩ := occurs_of_subsAll body h
      exact (hoccurs env).imp fun _ h o ho => .block hu (h o ho)
  | .ite _ _ thenBranch elseBranch, h, env => by
    rcases List.mem_cons.mp h with rfl | h
    · exact ⟨env, fun _ ho => ho⟩
    · rcases List.mem_append.mp h with h | h
      · obtain ⟨u, hu, hoccurs⟩ := occurs_of_subsAll thenBranch h
        exact (hoccurs env).imp fun _ h o ho => .block (List.mem_append_left _ hu) (h o ho)
      · obtain ⟨u, hu, hoccurs⟩ := occurs_of_subsAll elseBranch h
        exact (hoccurs env).imp fun _ h o ho => .block (List.mem_append_right _ hu) (h o ho)
  | .either _ branches, h, env => by
    rcases List.mem_cons.mp h with rfl | h
    · exact ⟨env, fun _ ho => ho⟩
    · obtain ⟨u, hu, hoccurs⟩ := occurs_of_subsBranches branches h
      exact (hoccurs env).imp fun _ h o ho => .block hu (h o ho)
  | .withDo _ decls body, h, env => by
    rcases List.mem_cons.mp h with rfl | h
    · exact ⟨env, fun _ ho => ho⟩
    · obtain ⟨u, hu, hoccurs⟩ := occurs_of_subsAll body h
      exact (hoccurs _).imp fun _ h o ho => .withBody hu (h o ho)
  | .call _ _ _, h, env | .assign _ _, h, env | .ret _, h, env | .skip _, h, env
  | .goto _ _, h, env | .print _ _, h, env | .assert _ _, h, env | .await _ _, h, env
  | .yield _ _, h, env => by
    cases List.mem_singleton.mp h
    exact ⟨env, fun _ ho => ho⟩

theorem occurs_of_subsAll {t : Stmt} : (ss : List Stmt) → t ∈ subsAll ss → ∃ s ∈ ss, ∀ env,
    ∃ env', ∀ o, t.Occurs procedures env' o → s.Occurs procedures env o
  | s :: ss, h => by
    rcases List.mem_append.mp h with h | h
    · exact ⟨s, List.mem_cons_self, occurs_of_sub s h⟩
    · obtain ⟨u, hu, hoccurs⟩ := occurs_of_subsAll ss h
      exact ⟨u, List.mem_cons_of_mem _ hu, hoccurs⟩

theorem occurs_of_subsBranches {t : Stmt} : (bs : List (List Stmt)) → t ∈ subsBranches bs →
    ∃ s ∈ bs.flatten, ∀ env, ∃ env', ∀ o, t.Occurs procedures env' o → s.Occurs procedures env o
  | b :: bs, h => by
    rcases List.mem_append.mp h with h | h
    · obtain ⟨u, hu, hoccurs⟩ := occurs_of_subsAll b h
      exact ⟨u, List.mem_append_left _ hu, hoccurs⟩
    · obtain ⟨u, hu, hoccurs⟩ := occurs_of_subsBranches bs h
      exact ⟨u, List.mem_append_right _ hu, hoccurs⟩

end

end Stmt

theorem BodyOccurs.declared {decls : List Decl} {body : List Stmt}
    (h : BodyOccurs procedures env decls body o) :
    ∀ d ∈ o.visible, d ∈ env ∨ d ∈ procedures ∨ d.id ∈ bodyTypedNodes r self decls body := by
  cases h with
  | decls ho =>
    exact fun d hd => (ho.declared d hd).imp_right fun hd => .inr (List.mem_append_left _ hd)
  | body hs ho =>
    intro d hd
    rcases ho.declared d hd with hd | hd | hd
    · exact (Env.declared_of_decls hd).imp_right fun hd => .inr (List.mem_append_left _ hd)
    · exact .inr (.inl hd)
    · obtain ⟨t, ht, hd⟩ := List.mem_flatMap.mp hd
      refine .inr (.inr (List.mem_append_right _ (List.mem_flatMap.mpr ⟨t, ?_, hd⟩)))
      exact Stmt.mem_subsAll hs ht

theorem Env.mem_of_innermost {name : String} {decl : NodeId} (h : env.innermost name = some decl) :
    ∃ d ∈ env, d.id = decl := by
  obtain ⟨d, hd, rfl⟩ := Option.map_eq_some_iff.mp h
  exact ⟨d, List.mem_of_find?_eq_some hd, rfl⟩

/-! ## Algorithms -/

namespace Algorithm

variable {a : Algorithm}

/-- What occurs in a body occurs in the algorithm, with what is visible in the body. -/
theorem HasBody.occurs {decls : List Decl} {body : List Stmt} (h : a.HasBody self decls body) :
    ∃ env, ∀ o, BodyOccurs a.procedureEnv env decls body o → a.Occurs o := by
  cases h with
  | procedure hp => exact ⟨_, fun _ ho => .procedure hp ho⟩
  | archetype hx => exact ⟨_, fun _ ho => .archetype hx ho⟩
  | readBody hm => exact ⟨_, fun _ ho => .readBody hm ho⟩
  | writeBody hm => exact ⟨_, fun _ ho => .writeBody hm ho⟩
  | single h => exact ⟨_, fun _ ho => .processes (h ▸ .single ho)⟩
  | process h hp => exact ⟨_, fun _ ho => .processes (h ▸ .body hp ho)⟩

theorem HasStmt.occurs {s : Stmt} (h : a.HasStmt s) :
    ∃ env, ∀ o, s.Occurs a.procedureEnv env o → a.Occurs o := by
  obtain ⟨self, decls, body, hbody, hs⟩ := h
  obtain ⟨env, hoccurs⟩ := hbody.occurs
  obtain ⟨t, ht, hsub⟩ := Stmt.occurs_of_subsAll body hs
  exact (hsub _).imp fun _ h o ho => hoccurs o (.body ht (h o ho))

theorem HasStmt.occurs_of_call {id : NodeId} {name : String} {args : List Expr}
    (h : a.HasStmt (.call id name args)) :
    a.Occurs ⟨id, .procedureName, name, a.procedureEnv⟩ := by
  obtain ⟨_, hoccurs⟩ := h.occurs
  exact hoccurs _ .call

theorem HasDecl.occurs {d : Decl} {e : Expr} (h : a.HasDecl d) (he : d.initial? = some e) :
    ∃ env, ∀ o, e.Occurs env o → a.Occurs o := by
  cases h with
  | global hd => exact ⟨_, fun _ ho => .global hd he ho⟩
  | body hbody hd =>
    obtain ⟨env, hoccurs⟩ := hbody.occurs
    obtain ⟨before, after, rfl⟩ := List.append_of_mem hd
    exact ⟨_, fun o ho => hoccurs o (.decls (.initial he ho))⟩
  | @withVariable s _ hs hd =>
    obtain ⟨env, hoccurs⟩ := hs.occurs
    cases s with
    | withDo =>
      obtain ⟨before, after, rfl⟩ := List.append_of_mem hd
      exact ⟨_, fun o ho => hoccurs o (.withDecls (.initial he ho))⟩
    | _ => cases hd
  | processName h hp => exact ⟨_, fun _ ho => .processes (h ▸ .name hp he ho)⟩
  | instanceName hi => exact ⟨_, fun _ ho => .instances hi (.name he ho)⟩

/-- What occurs in an expression of an algorithm occurs in the algorithm. -/
theorem HasExpr.occurs {e : Expr} (h : a.HasExpr e) :
    ∃ env, ∀ o, e.Occurs env o → a.Occurs o := by
  cases h with
  | initial hd he => exact hd.occurs he
  | operator hd => exact ⟨_, fun _ ho => .unit hd ho⟩
  | stmt hs he =>
    obtain ⟨env, hoccurs⟩ := hs.occurs
    exact ⟨env, fun o ho => hoccurs o (.expr he ho)⟩
  | arg hi he => exact ⟨_, fun _ ho => .instances hi (.arg he ho)⟩
  | mapped hi hm => exact ⟨_, fun _ ho => .instances hi (.mappedVariable hm ho)⟩

end Algorithm

namespace Registry

variable {a : Algorithm}

/-- All that is visible has a type if a name refers to it. -/
def Knowing (r : Registry) (a : Algorithm) (env : Env) : Prop :=
  ∀ d ∈ env, r.isReferenced d.id → r.TypedNode a d.id

theorem Knowing.declare {ds : List (Node String)} (h : r.Knowing a env)
    (hds : ∀ d ∈ ds, r.isReferenced d.id → r.TypedNode a d.id) : r.Knowing a (env.declare ds) :=
  fun d hd => (Env.mem_declare.mp hd).elim (hds d) (h d)

theorem knowing_globalEnv (r : Registry) (a : Algorithm) : r.Knowing a a.globalEnv := by
  intro d hd _
  rcases Env.mem_declare.mp hd with hd | hd
  · rcases List.mem_append.mp hd with hd | hd
    · rcases List.mem_append.mp hd with hd | hd
      · exact .constant hd
      · obtain ⟨x, hx, rfl⟩ := List.mem_map.mp hd
        exact .decl (.global hx)
    · obtain ⟨x, hx, rfl⟩ := List.mem_map.mp hd
      exact .operator hx
  · cases hd

theorem knowing_procedureEnv (r : Registry) (a : Algorithm) : r.Knowing a a.procedureEnv := by
  intro d hd _
  rcases Env.mem_declare.mp hd with hd | hd
  · obtain ⟨p, hp, rfl⟩ := List.mem_map.mp hd
    exact .procedure hp
  · cases hd

theorem knowing_selfEnv {selfId : NodeId} (h : r.isReferenced selfId → r.TypedNode a selfId) :
    r.Knowing a (a.selfEnv selfId) :=
  (knowing_globalEnv r a).declare (List.forall_mem_singleton.mpr h)

theorem knowing_of_expr {e : Expr} (he : r.HasExpr a e) (henv : r.Knowing a env)
    (h : e.Occurs env o) : r.Knowing a o.visible := by
  intro d hd href
  rcases h.declared d hd with hd | hd
  · exact henv d hd href
  · exact .expr he hd

variable (hprocedures : ∀ name q, r.findProcedure name = some q → q ∈ a.procedures)

include hprocedures

theorem knowing_of_body {decls : List Decl} {body : List Stmt} (hbody : a.HasBody self decls body)
    (henv : r.Knowing a env) (h : BodyOccurs a.procedureEnv env decls body o) :
    r.Knowing a o.visible := by
  intro d hd href
  rcases h.declared d hd with hd | hd | hd
  · exact henv d hd href
  · exact knowing_procedureEnv r a d hd href
  · exact typedNode_of_body hprocedures hbody hd

/-- Whatever a name may refer to has a type if the name does. -/
theorem knowing_of_occurs (h : a.Occurs o) (hkind : o.kind.isReference) :
    r.Knowing a o.visible := by
  have hglobal := knowing_globalEnv r a
  cases h with
  | global hd he ho => exact knowing_of_expr (.own (.initial (.global hd) he)) hglobal ho
  | unit hd ho =>
    exact knowing_of_expr (.own (.operator hd))
      (hglobal.declare fun x hx _ => .argument hd hx) ho
  | procedure hp ho =>
    exact knowing_of_body hprocedures (.procedure hp) (knowing_selfEnv (.usedSelf hp)) ho
  | archetype hx ho =>
    exact knowing_of_body hprocedures (.archetype hx)
      (knowing_selfEnv fun _ => .archetypeSelf hx) ho
  | readBody hm ho =>
    refine knowing_of_body hprocedures (.readBody hm) (hglobal.declare ?_) ho
    exact List.forall_mem_singleton.mpr fun _ => .macroVariable hm
  | writeBody hm ho =>
    refine knowing_of_body hprocedures (.writeBody hm) (hglobal.declare ?_) ho
    refine List.forall_mem_cons.mpr ⟨fun _ => .macroVariable hm, ?_⟩
    exact List.forall_mem_singleton.mpr fun _ => .macroValue hm
  | instances hi ho =>
    cases ho with
    | name he ho => exact knowing_of_expr (.own (.initial (.instanceName hi) he)) hglobal ho
    | arg he ho =>
      exact knowing_of_expr (.own (.arg hi he))
        (knowing_selfEnv fun _ => .decl (.instanceName hi)) ho
    | mappedVariable hm ho => exact knowing_of_expr (.own (.mapped hi hm)) hglobal ho
    | target | mappingMacro => cases hkind
  | processes ho =>
    generalize hps : a.processes = ps at ho
    cases ho with
    | single ho => exact knowing_of_body hprocedures (.single hps) hglobal ho
    | name hp he ho =>
      exact knowing_of_expr (.own (.initial (.processName hps hp) he)) hglobal ho
    | body hp ho =>
      exact knowing_of_body hprocedures (.process hps hp)
        (knowing_selfEnv fun _ => .decl (.processName hps hp)) ho

end Registry

end PlusCalTyping
