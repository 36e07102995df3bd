import PlusCalTyping.Proofs.Typing.Registries

/-! # Chains of calls

A process or archetype may reach a procedure through other procedures, and all
of them then run under its identity. A call ties the identity of the procedure
that is called to that of the body with the call, but only if that procedure
uses `self` itself. So the identity is passed along a chain of calls on which
every procedure uses `self` (`share_of_callChain`). It is lost where one on the
way does not: its own identity is then tied to nothing but later procedures.
-/

namespace PlusCalTyping

namespace Stmt

mutual

/-- The names of the procedures that a statement calls at any depth. -/
def calls : Stmt → List String
  | labeled _ _ body | whileDo _ _ body | withDo _ _ body => callsAll body
  | assign _ _ | ret _ | skip _ | goto _ _ | print _ _ | assert _ _ | await _ _ | yield _ _ => []
  | ite _ _ thenBranch elseBranch => callsAll thenBranch ++ callsAll elseBranch
  | either _ branches => callsBranches branches
  | call _ procedure _ => [procedure]

def callsAll : List Stmt → List String
  | [] => []
  | s :: ss => calls s ++ callsAll ss

def callsBranches : List (List Stmt) → List String
  | [] => []
  | b :: bs => callsAll b ++ callsBranches bs

end

end Stmt

namespace Typing

variable {τ : Typing} {r : Registry} {place : Place} {name : String}

mutual

/-- In a typed body, every call passes on the identity. -/
theorem callerTyped_of_mem_calls :
    (s : Stmt) → τ.StmtTyped r place s → name ∈ s.calls → τ.CallerTyped r place name
  | .labeled _ _ body, h, hname => callerTyped_of_mem_callsAll body h hname
  | .whileDo _ _ body, h, hname => callerTyped_of_mem_callsAll body h.2 hname
  | .withDo _ _ body, h, hname => callerTyped_of_mem_callsAll body h.2 hname
  | .ite _ _ thenBranch elseBranch, h, hname =>
    (List.mem_append.mp hname).elim (callerTyped_of_mem_callsAll thenBranch h.2.1)
      (callerTyped_of_mem_callsAll elseBranch h.2.2)
  | .either _ branches, h, hname => callerTyped_of_mem_callsBranches branches h hname
  | .call _ _ _, h, hname => List.mem_singleton.mp hname ▸ h.2
  | .assign _ _, _, hname | .ret _, _, hname | .skip _, _, hname | .goto _ _, _, hname
  | .print _ _, _, hname | .assert _ _, _, hname | .await _ _, _, hname | .yield _ _, _, hname =>
    nomatch hname

theorem callerTyped_of_mem_callsAll :
    (ss : List Stmt) → τ.StmtsTyped r place ss → name ∈ Stmt.callsAll ss →
      τ.CallerTyped r place name
  | s :: ss, h, hname =>
    (List.mem_append.mp hname).elim (callerTyped_of_mem_calls s h.1)
      (callerTyped_of_mem_callsAll ss h.2)

theorem callerTyped_of_mem_callsBranches :
    (bs : List (List Stmt)) → τ.BranchesTyped r place bs → name ∈ Stmt.callsBranches bs →
      τ.CallerTyped r place name
  | b :: bs, h, hname =>
    (List.mem_append.mp hname).elim (callerTyped_of_mem_callsAll b h.1)
      (callerTyped_of_mem_callsBranches bs h.2)

end

end Typing

/-- The identities and bodies of all that runs by itself: archetypes, and the
processes of an algorithm with several. -/
def Algorithm.starts (a : Algorithm) : List (NodeId × List Stmt) :=
  a.archetypes.map (fun x => (x.selfId, x.body)) ++
    match a.processes with
    | .single _ => []
    | .multi processes => processes.map fun p => (p.name.id, p.body)

namespace Registry

variable {a : Algorithm} {r : Registry} {o : Options} {f : Findings}

/-- The body calls the first procedure, which calls the second, and so on. -/
def CallChain (r : Registry) : List Stmt → List Procedure → Prop
  | _, [] => True
  | body, p :: ps =>
    (∃ name ∈ Stmt.callsAll body, r.findProcedure name = some p) ∧ r.CallChain p.body ps

theorem stmtsTyped_of_mem_starts {τ : Typing} (h : Typing.AlgorithmTyped τ r a) {n : NodeId}
    {body : List Stmt} (hstart : (n, body) ∈ a.starts) : τ.StmtsTyped r { self := n } body := by
  rcases List.mem_append.mp hstart with hstart | hstart
  · obtain ⟨x, hx, heq⟩ := List.mem_map.mp hstart
    cases heq
    exact (h.archetypes x hx).body
  · have hprocesses := h.processes
    cases ha : a.processes with
    | single body => simp [ha] at hstart
    | multi processes =>
      simp only [ha] at hstart hprocesses
      obtain ⟨p, hp, heq⟩ := List.mem_map.mp hstart
      cases heq
      exact (hprocesses p hp).body

/-- Along a chain of procedures that use `self`, all identities have one type. -/
theorem CallChain.share {τ : Typing} (h : Typing.AlgorithmTyped τ r a) (hr : r.Knows a)
    {path : List Procedure} {p : Procedure} {n : NodeId} {body : List Stmt}
    (hbody : τ.StmtsTyped r { self := n } body) (hchain : r.CallChain body (path ++ [p]))
    (huses : ∀ q ∈ path ++ [p], r.isReferenced q.selfId) : τ.Share p.selfId n := by
  induction path generalizing n body with
  | nil =>
    obtain ⟨⟨name, hname, hp⟩, _⟩ := hchain
    exact Typing.callerTyped_of_mem_callsAll body hbody hname n p rfl hp
      (huses p List.mem_cons_self)
  | cons q path ih =>
    obtain ⟨⟨name, hname, hq⟩, hrest⟩ := hchain
    obtain ⟨hself, huses⟩ := List.forall_mem_cons.mp huses
    have hfirst := Typing.callerTyped_of_mem_callsAll body hbody hname n q rfl hq hself
    exact (ih (h.procedures q (hr.mem_procedures hq)).body hrest huses).trans hfirst

/-- After a check without errors, a procedure that is reached through procedures
that all use `self` has the identity of the process or archetype it is reached
from. -/
theorem share_of_callChain (hr : Belongs a r) (hok : (r.check a o).1 = .ok f) {n : NodeId}
    {body : List Stmt} (hstart : (n, body) ∈ a.starts) {path : List Procedure} {p : Procedure}
    (hchain : r.CallChain body (path ++ [p]))
    (huses : ∀ q ∈ path ++ [p], r.isReferenced q.selfId) :
    Typing.Share f.typeOf p.selfId n := by
  have htyped := hr.algorithmTyped hok
  exact hchain.share htyped hr.knows (stmtsTyped_of_mem_starts htyped hstart) huses

/-- Both procedures print `self`, and have the identity of the process. -/
theorem share_of_callChain_two :
    let second : Procedure :=
      ⟨⟨5⟩, "B", ⟨6⟩, [], [], [.print ⟨4⟩ (.ident ⟨3⟩ "self")]⟩
    let first : Procedure :=
      ⟨⟨1⟩, "A", ⟨2⟩, [], [], [.call ⟨0⟩ "B" [], .print ⟨12⟩ (.ident ⟨11⟩ "self")]⟩
    let process : Process :=
      ⟨⟨10⟩, ⟨⟨8⟩, "P", some (.value (.literal ⟨7⟩ (.string "a")))⟩, [], [.call ⟨9⟩ "A" []]⟩
    let a : Algorithm := { procedures := [first, second], processes := .multi [process] }
    ∃ f, ((ofAlgorithm a).check a {}).1 = .ok f ∧ Typing.Share f.typeOf second.selfId ⟨8⟩ := by
  intro second first process a
  cases h : ((ofAlgorithm a).check a {}).1 with
  | error e =>
    have hok : ((ofAlgorithm a).check a {}).1.isOk = true := by cbv
    rw [h] at hok
    cases hok
  | ok f =>
    have hchain : (ofAlgorithm a).CallChain process.body ([first] ++ [second]) :=
      ⟨⟨"A", List.mem_cons_self, by cbv⟩, ⟨"B", List.mem_cons_self, by cbv⟩, trivial⟩
    have huses : ∀ q ∈ [first] ++ [second], (ofAlgorithm a).isReferenced q.selfId := by
      intro q hq
      rcases List.mem_pair.mp hq with rfl | rfl <;> cbv
    exact ⟨f, rfl, share_of_callChain .ofAlgorithm h List.mem_cons_self hchain huses⟩

/-- A procedure that only calls another loses the identity of the process: the
process is a string, and `self` in the procedure at the end is an integer. -/
theorem not_share_of_callChain :
    let second : Procedure :=
      ⟨⟨5⟩, "B", ⟨6⟩, [], [], [.print ⟨4⟩ (.ident ⟨3⟩ "self")]⟩
    let first : Procedure := ⟨⟨1⟩, "A", ⟨2⟩, [], [], [.call ⟨0⟩ "B" []]⟩
    let process : Process :=
      ⟨⟨10⟩, ⟨⟨8⟩, "P", some (.value (.literal ⟨7⟩ (.string "a")))⟩, [], [.call ⟨9⟩ "A" []]⟩
    let a : Algorithm := { procedures := [first, second], processes := .multi [process] }
    ∃ f, ((ofAlgorithm a).check a {}).1 = .ok f ∧ (⟨8⟩, process.body) ∈ a.starts ∧
      (ofAlgorithm a).CallChain process.body [first, second] ∧
      (ofAlgorithm a).isReferenced second.selfId ∧
      ¬Typing.Share f.typeOf second.selfId ⟨8⟩ := by
  intro second first process a
  have htypes : ((ofAlgorithm a).check a {}).1.toOption.map
      (fun f => ((f.typeOf ⟨6⟩).map Ty.bare, (f.typeOf ⟨8⟩).map Ty.bare)) =
        some (some (.prim .int .none), some (.prim .string .none)) := by cbv
  cases h : ((ofAlgorithm a).check a {}).1 with
  | error e =>
    rw [h] at htypes
    cases htypes
  | ok f =>
    have hchain : (ofAlgorithm a).CallChain process.body [first, second] :=
      ⟨⟨"A", List.mem_cons_self, by cbv⟩, ⟨"B", List.mem_cons_self, by cbv⟩, trivial⟩
    refine ⟨f, rfl, List.mem_cons_self, hchain, by cbv, fun hshare => ?_⟩
    rw [h] at htypes
    obtain ⟨hself, hprocess⟩ := Prod.mk.inj (Option.some.inj htypes)
    have hbare := hshare.map_bare
    rw [hself, hprocess] at hbare
    cases hbare

end Registry

end PlusCalTyping
