import PlusCalTyping.Proofs.Solver.Charges

/-! # The nodes behind diagnostics

A type carries the nodes it came from, wherever bindings take it, and the notes of a
failure stand at such nodes. Whatever property all nodes in the constraints of a run
have, every type that the run makes is rooted in nodes with the property, for it is
put together from types of the constraints. So all its diagnostics point to such
nodes, be they due to an equation, to a choice or to the budget
(`Solution.pointsTo_of_mem`).
-/

namespace PlusCalTyping

variable {P : NodeId → Prop}

/-! ## Types -/

def Origins.Rooted (P : NodeId → Prop) (o : Origins) : Prop := ∀ n ∈ o.nodes, P n

theorem Origins.rooted_single {n : NodeId} : (single n).Rooted P ↔ P n := List.forall_mem_singleton

namespace Ty

theorem allOriginsList_eq (ts : List Ty) : allOriginsList ts = ts.flatMap allOrigins := by
  induction ts with
  | nil => rfl
  | cons t ts ih => rw [allOriginsList, ih, List.flatMap_cons]

/-- All nodes that a type and its parts came from have the property. -/
def Rooted (P : NodeId → Prop) (t : Ty) : Prop := ∀ n ∈ t.allOrigins, P n

variable {t u : Ty} {ts : List Ty} {o : Origins} {v : TypeVar}

theorem rooted_var (v : TypeVar) : (var v).Rooted P := List.forall_mem_nil _

theorem rooted_prim {p : Prim} : (prim p o).Rooted P ↔ o.Rooted P := Iff.rfl

theorem rooted_set : (set t o).Rooted P ↔ o.Rooted P ∧ t.Rooted P := List.forall_mem_append

theorem rooted_map : (map t u o).Rooted P ↔ o.Rooted P ∧ t.Rooted P ∧ u.Rooted P := by
  simp only [Rooted, Origins.Rooted, allOrigins, List.forall_mem_append]

theorem rooted_tuple : (tuple ts o).Rooted P ↔ o.Rooted P ∧ ∀ t ∈ ts, t.Rooted P := by
  simp only [Rooted, Origins.Rooted, allOrigins, allOriginsList_eq, List.forall_mem_append,
    List.forall_mem_flatMap]

theorem rooted_procedure : (procedure ts o).Rooted P ↔ o.Rooted P ∧ ∀ t ∈ ts, t.Rooted P := by
  simp only [Rooted, Origins.Rooted, allOrigins, allOriginsList_eq, List.forall_mem_append,
    List.forall_mem_flatMap]

theorem rooted_operator : (operator ts t o).Rooted P ↔
    o.Rooted P ∧ (∀ t ∈ ts, t.Rooted P) ∧ t.Rooted P := by
  simp only [Rooted, Origins.Rooted, allOrigins, allOriginsList_eq, List.forall_mem_append,
    List.forall_mem_flatMap]

theorem Rooted.origins? (h : t.Rooted P) (ho : t.origins? = some o) : o.Rooted P := by
  cases t with
  | var => cases ho
  | prim | unresolved =>
    cases ho
    exact h
  | set | tuple | map | procedure | operator =>
    cases ho
    exact (List.forall_mem_append.mp h).1

section

variable {f : TypeVar → Ty}

mutual

/-- What is put for variables brings its origins with it, and nothing else does. -/
theorem rooted_subst (hf : ∀ v, (f v).Rooted P) : (t : Ty) → t.Rooted P → (t.subst f).Rooted P
  | prim _ _, h | unresolved _, h => h
  | var v, _ => hf v
  | set elem _, h => by
    obtain ⟨ho, helem⟩ := rooted_set.mp h
    exact rooted_set.mpr ⟨ho, rooted_subst hf elem helem⟩
  | tuple elems _, h => by
    obtain ⟨ho, helems⟩ := rooted_tuple.mp h
    exact rooted_tuple.mpr ⟨ho, rooted_substList hf elems helems⟩
  | map key value _, h => by
    obtain ⟨ho, hkey, hvalue⟩ := rooted_map.mp h
    exact rooted_map.mpr ⟨ho, rooted_subst hf key hkey, rooted_subst hf value hvalue⟩
  | procedure params _, h => by
    obtain ⟨ho, hparams⟩ := rooted_procedure.mp h
    exact rooted_procedure.mpr ⟨ho, rooted_substList hf params hparams⟩
  | operator params result _, h => by
    obtain ⟨ho, hparams, hresult⟩ := rooted_operator.mp h
    exact rooted_operator.mpr
      ⟨ho, rooted_substList hf params hparams, rooted_subst hf result hresult⟩

theorem rooted_substList (hf : ∀ v, (f v).Rooted P) :
    (ts : List Ty) → (∀ t ∈ ts, t.Rooted P) → ∀ t ∈ substList f ts, t.Rooted P
  | [], _ => List.forall_mem_nil _
  | t :: ts, h => by
    obtain ⟨ht, hts⟩ := List.forall_mem_cons.mp h
    exact List.forall_mem_cons.mpr ⟨rooted_subst hf t ht, rooted_substList hf ts hts⟩

end

end

theorem Rooted.replace (ht : t.Rooted P) (hu : u.Rooted P) : (t.replace v u).Rooted P := by
  refine rooted_subst (fun w => ?_) t ht
  split
  · exact hu
  · exact rooted_var w

end Ty

/-! ## Bindings -/

namespace Substitution

variable {σ : Substitution} {t : Ty}

/-- All types that variables are bound to are rooted in nodes with the property. -/
def Rooted (P : NodeId → Prop) (σ : Substitution) : Prop :=
  ∀ v t, σ.lookup v = some t → t.Rooted P

theorem rooted_empty : empty.Rooted P := by
  intro v t h
  rw [lookup_empty] at h
  cases h

theorem Rooted.bind (h : σ.Rooted P) (v : TypeVar) (ht : t.Rooted P) : (σ.bind v t).Rooted P := by
  intro w u hw
  rw [lookup_bind] at hw
  split at hw
  · cases hw
    exact ht
  · exact h w u hw

theorem Rooted.apply (h : σ.Rooted P) (ht : t.Rooted P) : (σ.apply t).Rooted P := by
  have hexpand : ∀ n (t : Ty), t.Rooted P → (σ.expand n t).Rooted P := by
    intro n
    induction n with
    | zero => exact fun _ ht => ht
    | succ n ih =>
      intro t ht
      refine Ty.rooted_subst (fun v => ?_) t ht
      cases hv : σ.lookup v with
      | none => exact Ty.rooted_var v
      | some u => exact ih u (h v u hv)
  exact hexpand _ t ht

end Substitution

namespace Unify

variable {s t : Ty} {pairs rest : List (Ty × Ty)}

/-- The types of all pairs are rooted in nodes with the property. -/
def Rooted (P : NodeId → Prop) (pairs : List (Ty × Ty)) : Prop :=
  ∀ p ∈ pairs, p.1.Rooted P ∧ p.2.Rooted P

theorem rooted_zip {ss ts : List Ty} (hss : ∀ s ∈ ss, s.Rooted P) (hts : ∀ t ∈ ts, t.Rooted P) :
    Rooted P (ss.zip ts) := by
  rintro ⟨s, t⟩ hp
  obtain ⟨hs, ht⟩ := List.of_mem_zip hp
  exact ⟨hss s hs, hts t ht⟩

/-- A variable is bound to one of the two types. -/
theorem rooted_of_bind {v : TypeVar} {u : Ty} (h : Outcome.ofPair s t = .bind v u)
    (hs : s.Rooted P) (ht : t.Rooted P) : u.Rooted P := by
  unfold Outcome.ofPair at h
  split at h
  · cases h
  · split at h
    · obtain ⟨_, rfl, _⟩ := assign_eq_bind h
      exact ht
    · obtain ⟨_, rfl, _⟩ := assign_eq_bind h
      exact hs
    all_goals first | cases h | (split at h <;> cases h)

/-- Taking a pair apart leaves parts of the two types. -/
theorem rooted_of_split (h : Outcome.ofPair s t = .split pairs) (hs : s.Rooted P)
    (ht : t.Rooted P) : Rooted P pairs := by
  unfold Outcome.ofPair at h
  split at h
  · cases h
  · split at h
    · exact absurd h (assign_ne_split _ _ _)
    · exact absurd h (assign_ne_split _ _ _)
    · cases h
    · cases h
    · cases h
      exact List.forall_mem_singleton.mpr ⟨(Ty.rooted_set.mp hs).2, (Ty.rooted_set.mp ht).2⟩
    · split at h <;> cases h
      exact rooted_zip (Ty.rooted_tuple.mp hs).2 (Ty.rooted_tuple.mp ht).2
    · cases h
      obtain ⟨_, hk, hv⟩ := Ty.rooted_map.mp hs
      obtain ⟨_, hl, hw⟩ := Ty.rooted_map.mp ht
      exact List.forall_mem_cons.mpr ⟨⟨hk, hl⟩, List.forall_mem_singleton.mpr ⟨hv, hw⟩⟩
    · split at h <;> cases h
      exact rooted_zip (Ty.rooted_procedure.mp hs).2 (Ty.rooted_procedure.mp ht).2
    · split at h <;> cases h
      obtain ⟨_, hss, hs⟩ := Ty.rooted_operator.mp hs
      obtain ⟨_, hts, ht⟩ := Ty.rooted_operator.mp ht
      exact List.forall_mem_append.mpr
        ⟨rooted_zip hss hts, List.forall_mem_singleton.mpr ⟨hs, ht⟩⟩
    · split at h <;> cases h
    · split at h <;> cases h
    · cases h

theorem Rooted.remaining (h : Rooted P ((s, t) :: rest)) :
    Rooted P (remaining rest (.ofPair s t)) := by
  obtain ⟨⟨hs, ht⟩, hrest⟩ := List.forall_mem_cons.mp h
  cases ho : Outcome.ofPair s t with
  | bind v u =>
    have hu := rooted_of_bind ho hs ht
    intro q hq
    obtain ⟨p, hp, rfl⟩ := List.mem_map.mp hq
    exact ⟨(hrest p hp).1.replace hu, (hrest p hp).2.replace hu⟩
  | split pairs => exact List.forall_mem_append.mpr ⟨rooted_of_split ho hs ht, hrest⟩
  | identical | infinite | absorbed | clash => exact hrest

end Unify

/-- The types of an event are rooted in nodes with the property, and its outcome is
that of the two types. -/
structure UnifyEvent.Rooted (P : NodeId → Prop) (e : UnifyEvent) : Prop where
  expected : e.expected.Rooted P
  actual : e.actual.Rooted P
  outcome : e.outcome = .ofPair e.expected e.actual

theorem Unify.Rooted.run {pairs : List (Ty × Ty)} (h : Rooted P pairs) :
    ∀ e ∈ run pairs, e.Rooted P := by
  induction pairs using Unify.run.induct with
  | case1 =>
    rw [Unify.run]
    exact List.forall_mem_nil _
  | case2 s t rest _ ih =>
    rw [Unify.run]
    obtain ⟨hs, ht⟩ := h _ List.mem_cons_self
    exact List.forall_mem_cons.mpr ⟨⟨hs, ht, rfl⟩, ih h.remaining⟩

theorem Substitution.Rooted.extend {σ : Substitution} (h : σ.Rooted P) {events : List UnifyEvent}
    (hevents : ∀ e ∈ events, e.Rooted P) : (Unify.extend σ events).Rooted P := by
  induction events generalizing σ with
  | nil => exact h
  | cons e events ih =>
    obtain ⟨he, hevents⟩ := List.forall_mem_cons.mp hevents
    refine ih ?_ hevents
    dsimp only
    cases ho : e.outcome with
    | bind v t => exact h.bind v (Unify.rooted_of_bind (he.outcome ▸ ho) he.expected he.actual)
    | identical | infinite | absorbed | split | clash => exact h

/-! ## Constraints and failures -/

/-- The node of an equation and those that its types came from have the property. -/
structure Equation.Rooted (P : NodeId → Prop) (e : Equation) : Prop where
  node : P e.provenance.node
  expected : e.expected.Rooted P
  actual : e.actual.Rooted P

structure Choice.Rooted (P : NodeId → Prop) (c : Choice) : Prop where
  node : P c.provenance.node
  candidates : ∀ e ∈ c.candidates.flatten, e.Rooted P

namespace Constraint

def Rooted (P : NodeId → Prop) : Constraint → Prop
  | equal e => e.Rooted P
  | oneOf c => c.Rooted P

theorem Rooted.equation {k : Constraint} (h : k.Rooted P) {e : Equation} (he : e ∈ k.equations) :
    e.Rooted P := by
  cases k with
  | equal e' =>
    cases List.mem_singleton.mp he
    exact h
  | oneOf c => exact h.candidates e he

end Constraint

namespace Failure

/-- The node of a failure and those of its notes have the property. -/
structure Rooted (P : NodeId → Prop) (f : Failure) : Prop where
  node : P f.node
  notes : ∀ l ∈ f.notes, P l.id

theorem rooted_originNotes (own : NodeId) (side : String) {t : Ty} (h : t.Rooted P) :
    ∀ l ∈ originNotes own side t, P l.id := by
  intro l hl
  obtain ⟨n, hn, rfl⟩ := List.mem_map.mp hl
  have hn := (List.mem_filter.mp hn).1
  cases ho : t.origins? with
  | none =>
    rw [ho] at hn
    cases hn
  | some o =>
    rw [ho] at hn
    exact h.origins? ho n hn

/-- The notes on an equation stand at its node and wherever its types came from. -/
theorem mem_map_id_equationNotes {n : NodeId} {e : Equation} :
    n ∈ (equationNotes e).map (·.id) ↔
      n = e.provenance.node ∨ n ∈ e.actual.allOrigins ∨ n ∈ e.expected.allOrigins := by
  rw [equationNotes, List.map_append, List.mem_append, or_comm, ← or_assoc]
  refine or_congr ?_ ?_
  · simp [Origins.mem_ofList]
  · -- A variable came from nowhere, so nothing is lost where it is passed over.
    cases e.expected <;> simp [Ty.isVar, Ty.allOrigins, Origins.mem_ofList]

theorem mem_map_id_choiceNotes {n : NodeId} {c : Choice} :
    n ∈ (choiceNotes c).map (·.id) ↔
      (∃ e ∈ c.candidates.flatten, n = e.provenance.node ∨ n ∈ e.actual.allOrigins ∨
        n ∈ e.expected.allOrigins) ∧ n ≠ c.provenance.node := by
  rw [choiceNotes, mem_map_id_firstNotes, List.map_flatMap, List.mem_flatMap, List.mem_singleton]
  simp only [mem_map_id_equationNotes]

theorem rooted_exhausted {c : Choice} (h : c.Rooted P) : (exhausted c).Rooted P where
  node := h.node
  notes l hl := by
    obtain ⟨⟨e, he, hl⟩, _⟩ := mem_map_id_choiceNotes.mp (List.mem_map_of_mem hl)
    have h := h.candidates e he
    rcases hl with hl | hl | hl
    · rw [hl]
      exact h.node
    · exact h.actual l.id hl
    · exact h.expected l.id hl

theorem rooted_refusal (b : Budget) {e : Equation} (h : P e.provenance.node) :
    (b.refusal e).Rooted P := ⟨h, List.forall_mem_nil _⟩

theorem rooted_of_event {p : Provenance} (hp : P p.node) {e : UnifyEvent} (he : e.Rooted P)
    {f : Failure} (h : ofEvent? p e = some f) : f.Rooted P := by
  unfold ofEvent? at h
  split at h <;> cases h
  · exact ⟨hp, List.forall_mem_nil _⟩
  · exact ⟨hp, List.forall_mem_nil _⟩
  · exact ⟨hp, List.forall_mem_nil _⟩
  · exact ⟨hp, List.forall_mem_append.mpr
      ⟨rooted_originNotes _ _ he.expected, rooted_originNotes _ _ he.actual⟩⟩

end Failure

/-! ## Sessions -/

namespace Session

variable {s : Session} {cs : List Constraint} {e : Equation} {c : Choice}

/-- Bindings and failures are rooted in nodes with the property. -/
structure Rooted (P : NodeId → Prop) (s : Session) : Prop where
  substitution : s.substitution.Rooted P
  failures : ∀ f ∈ s.failures, f.Rooted P

theorem rooted_ofOptions (o : Options) : (ofOptions o).Rooted P :=
  ⟨Substitution.rooted_empty, nofun⟩

theorem Rooted.constrain (h : s.Rooted P) (cs : List Constraint) : (s.constrain cs).Rooted P :=
  ⟨h.substitution, h.failures⟩

theorem Rooted.log (h : s.Rooted P) (lines : String → List UnifyLine) :
    (s.log lines).Rooted P := by
  unfold Session.log
  split
  · exact ⟨h.substitution, h.failures⟩
  · exact h

theorem Rooted.fail (h : s.Rooted P) {f : Failure} (hf : f.Rooted P) : (s.fail f).Rooted P :=
  ⟨h.substitution, fun g hg => (Array.mem_push.mp hg).elim (h.failures g) (· ▸ hf)⟩

theorem Rooted.unify (h : s.Rooted P) (he : e.Rooted P) : (s.unify e).Rooted P := by
  have hevents : ∀ x ∈ s.substitution.unify e.expected e.actual, x.Rooted P :=
    Unify.Rooted.run (List.forall_mem_singleton.mpr
      ⟨h.substitution.apply he.expected, h.substitution.apply he.actual⟩)
  refine ⟨h.substitution.extend hevents, fun f hf => ?_⟩
  rcases Array.mem_append.mp hf with hf | hf
  · exact h.failures f hf
  · obtain ⟨x, hx, hf⟩ := List.mem_filterMap.mp (List.mem_toArray.mp hf)
    exact Failure.rooted_of_event he.node (hevents x hx) hf

theorem flatten_current (s : Session) (c : Choice) :
    (s.current c).candidates.flatten = c.candidates.flatten.map fun e =>
      { e with expected := s.substitution.apply e.expected } := List.map_flatten.symm

/-- The expected types of a choice are rooted as far as they are known, too. -/
theorem Rooted.current (h : s.Rooted P) (hc : c.Rooted P) : (s.current c).Rooted P where
  node := hc.node
  candidates e he := by
    rw [flatten_current] at he
    obtain ⟨asked, hasked, rfl⟩ := List.mem_map.mp he
    have hrooted := hc.candidates asked hasked
    exact ⟨hrooted.node, h.substitution.apply hrooted.expected, hrooted.actual⟩

theorem Rooted.reportExhausted (h : s.Rooted P) (hc : c.Rooted P) :
    (s.reportExhausted c).Rooted P := by
  unfold Session.reportExhausted
  split
  · exact h
  · exact h.fail (Failure.rooted_exhausted (h.current hc))

/-- All changes of a run keep a session rooted. -/
theorem includes_rooted (hcs : ∀ k ∈ cs, k.Rooted P) :
    Includes cs (fun _ => True) fun s t => s.Rooted P → t.Rooted P where
  refl _ := id
  trans h h' := h' ∘ h
  unify _ _ he := by
    obtain ⟨k, hk, he⟩ := he
    exact fun h => h.unify ((hcs k hk).equation he)
  decide _ _ _ _ _ _ _ _ := fun h => h.log _
  exhaust _ _ hc := fun h => h.reportExhausted (hcs _ hc)

/-- The failures of a run on rooted constraints are rooted, also the last one of a run
that the budget stops. -/
theorem Rooted.failures_solve (h : s.Rooted P) (o : Options) (hcs : ∀ k ∈ cs, k.Rooted P) :
    ∀ f ∈ (s.solve o cs).failures, f.Rooted P := by
  have hstays := Solving.stays_constraints (includes_rooted hcs) trivial trivial
    ⟨s.constrain cs, .ofOptions o⟩
  have hcharges := Solving.charges_constraints cs s
  unfold Solving.Ends at hstays
  unfold solve
  by_cases hlt : o.maxIterations < (s.charges cs).length
  · obtain ⟨before, e, after, hsplit, hlength⟩ := exists_refused hlt
    obtain ⟨t, hrun⟩ := hcharges.stopped (.ofOptions o) hsplit (by simpa [Budget.ofOptions])
    rw [hrun] at hstays ⊢
    have he : e ∈ s.charges cs := by simp [hsplit]
    obtain ⟨k, hk, he⟩ := exists_of_mem_charges he
    have hnode := ((hcs k hk).equation he).node
    have ht := hstays.1 (h.constrain cs)
    exact fun f hf =>
      (ht.fail (Failure.rooted_refusal _ hnode)).failures f (Array.mem_toList_iff.mp hf)
  · have hrun := hcharges.done (.ofOptions o) (by simpa [Budget.ofOptions] using hlt)
    rw [hrun] at hstays ⊢
    exact fun f hf => (hstays.1 (h.constrain cs)).failures f (Array.mem_toList_iff.mp hf)

end Session

/-! ## Diagnostics -/

/-- A diagnostic has a location. There and at its labels are nodes with the property. -/
structure Diagnostic.PointsTo (P : NodeId → Prop) (d : Diagnostic) : Prop where
  location : ∃ n, d.location = some n ∧ P n
  labels : ∀ l ∈ d.labels, P l.id

/-- The diagnostics of solving point to nodes of the constraints. -/
theorem Solution.pointsTo_of_mem {cs : List Constraint} (hcs : ∀ k ∈ cs, k.Rooted P) (o : Options)
    {d : Diagnostic} (hd : d ∈ (ofConstraints o cs).diagnostics) : d.PointsTo P := by
  obtain ⟨f, hf, rfl⟩ := List.mem_map.mp hd
  have hf := (Session.rooted_ofOptions o).failures_solve o hcs f hf
  exact ⟨⟨f.node, rfl, hf.node⟩, hf.notes⟩

end PlusCalTyping
