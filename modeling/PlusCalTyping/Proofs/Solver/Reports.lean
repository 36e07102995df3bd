import PlusCalTyping.Proofs.Solver.Exhaustion
import PlusCalTyping.Proofs.Solver.Roots

/-! # Reports on choices

When nothing fits a choice, the report of it stands at the node of the choice and has
a note at every other node that is involved: those of the equations of all candidates,
and those that the types of these equations came from, at any depth, the expected ones
as far as they are known. The notes are made equation by equation, and a node may be
involved for many reasons, but it has one note only (`Session.covers_exhausted`). What
a run reports on choices are such reports, made in the course of the run
(`Session.ofOptions_answer_covers`).
-/

namespace PlusCalTyping

/-! ## Origins at any depth -/

namespace Ty

/-- The first type is the second or a part of it at some depth. -/
inductive Part (u : Ty) : Ty → Prop
  | here : Part u u
  | elem {t : Ty} {o : Origins} : Part u t → Part u (set t o)
  | component {t : Ty} {ts : List Ty} {o : Origins} : t ∈ ts → Part u t → Part u (tuple ts o)
  | key {k v : Ty} {o : Origins} : Part u k → Part u (map k v o)
  | value {k v : Ty} {o : Origins} : Part u v → Part u (map k v o)
  | argument {t : Ty} {ts : List Ty} {o : Origins} :
    t ∈ ts → Part u t → Part u (procedure ts o)
  | operand {t r : Ty} {ts : List Ty} {o : Origins} :
    t ∈ ts → Part u t → Part u (operator ts r o)
  | result {r : Ty} {ts : List Ty} {o : Origins} : Part u r → Part u (operator ts r o)

/-- The type or some part of it came from the node. -/
def CameFrom (t : Ty) (n : NodeId) : Prop := ∃ u o, Part u t ∧ u.origins? = some o ∧ n ∈ o.nodes

variable {s t u : Ty} {n : NodeId}

theorem Part.trans (hs : Part s t) (ht : Part t u) : Part s u := by
  induction ht with
  | here => exact hs
  | elem _ ih => exact .elem ih
  | component hmem _ ih => exact .component hmem ih
  | key _ ih => exact .key ih
  | value _ ih => exact .value ih
  | argument hmem _ ih => exact .argument hmem ih
  | operand hmem _ ih => exact .operand hmem ih
  | result _ ih => exact .result ih

theorem CameFrom.of_part (ht : t.CameFrom n) (h : Part t u) : u.CameFrom n := by
  obtain ⟨s, o, hs, ho, hn⟩ := ht
  exact ⟨s, o, hs.trans h, ho, hn⟩

theorem Part.allOrigins_subset (h : Part t u) : t.allOrigins ⊆ u.allOrigins := by
  intro n hn
  induction h with
  | here => exact hn
  | elem _ ih => exact List.mem_append_right _ ih
  | component hmem _ ih | argument hmem _ ih =>
    rw [allOrigins, allOriginsList_eq]
    exact List.mem_append_right _ (List.mem_flatMap.mpr ⟨_, hmem, ih⟩)
  | key _ ih => exact List.mem_append_right _ (List.mem_append_left _ ih)
  | value _ ih | result _ ih => exact List.mem_append_right _ (List.mem_append_right _ ih)
  | operand hmem _ ih =>
    rw [allOrigins, allOriginsList_eq]
    exact List.mem_append_right _ (List.mem_append_left _ (List.mem_flatMap.mpr ⟨_, hmem, ih⟩))

theorem rooted_cameFrom_of_origins {o : Origins} (h : t.origins? = some o) :
    o.Rooted t.CameFrom := fun _ hn => ⟨t, o, .here, h, hn⟩

mutual

/-- The nodes that are gathered from a type are those that some part of it came from. -/
theorem rooted_cameFrom : (t : Ty) → t.Rooted t.CameFrom
  | prim _ _ | unresolved _ => rooted_cameFrom_of_origins rfl
  | var v => rooted_var v
  | set elem _ => rooted_set.mpr ⟨rooted_cameFrom_of_origins rfl,
      fun n hn => (rooted_cameFrom elem n hn).of_part (.elem .here)⟩
  | tuple elems _ => rooted_tuple.mpr ⟨rooted_cameFrom_of_origins rfl,
      fun t ht n hn => (rooted_cameFrom_list elems t ht n hn).of_part (.component ht .here)⟩
  | map key value _ => rooted_map.mpr ⟨rooted_cameFrom_of_origins rfl,
      fun n hn => (rooted_cameFrom key n hn).of_part (.key .here),
      fun n hn => (rooted_cameFrom value n hn).of_part (.value .here)⟩
  | procedure params _ => rooted_procedure.mpr ⟨rooted_cameFrom_of_origins rfl,
      fun t ht n hn => (rooted_cameFrom_list params t ht n hn).of_part (.argument ht .here)⟩
  | operator params result _ => rooted_operator.mpr ⟨rooted_cameFrom_of_origins rfl,
      fun t ht n hn => (rooted_cameFrom_list params t ht n hn).of_part (.operand ht .here),
      fun n hn => (rooted_cameFrom result n hn).of_part (.result .here)⟩

theorem rooted_cameFrom_list : (ts : List Ty) → ∀ t ∈ ts, t.Rooted t.CameFrom
  | [] => List.forall_mem_nil _
  | t :: ts => List.forall_mem_cons.mpr ⟨rooted_cameFrom t, rooted_cameFrom_list ts⟩

end

theorem mem_allOrigins_iff : n ∈ t.allOrigins ↔ t.CameFrom n := by
  constructor
  · exact rooted_cameFrom t n
  · rintro ⟨u, o, hu, ho, hn⟩
    have hrooted : u.Rooted (· ∈ u.allOrigins) := fun _ h => h
    exact hu.allOrigins_subset (hrooted.origins? ho n hn)

end Ty

/-! ## One report -/

/-- The node demands an equation, or one of its types came from there. The expected
type is taken as far as it is known. -/
def Equation.Involves (σ : Substitution) (e : Equation) (n : NodeId) : Prop :=
  n = e.provenance.node ∨ e.actual.CameFrom n ∨ (σ.apply e.expected).CameFrom n

/-- The node is that of a choice, or an equation of some candidate involves it. -/
def Choice.Involves (σ : Substitution) (c : Choice) (n : NodeId) : Prop :=
  n = c.provenance.node ∨ ∃ e ∈ c.candidates.flatten, e.Involves σ n

/-- A diagnostic that stands at one node and points once to each node involved. -/
structure Diagnostic.Covers (d : Diagnostic) (own : NodeId) (involved : NodeId → Prop) :
    Prop where
  location : d.location = some own
  distinct : (d.labels.map (·.id)).Nodup
  apart : own ∉ d.labels.map (·.id)
  nodes : ∀ n, n ∈ d.nodes ↔ involved n

namespace Session

variable {s t : Session} {c : Choice} {cs : List Constraint}

theorem mem_map_id_choiceNotes_current {n : NodeId} :
    n ∈ (Failure.choiceNotes (s.current c)).map (·.id) ↔
      (∃ e ∈ c.candidates.flatten, e.Involves s.substitution n) ∧ n ≠ c.provenance.node := by
  rw [Failure.mem_map_id_choiceNotes, flatten_current]
  simp only [List.mem_map, exists_exists_and_eq_and, Ty.mem_allOrigins_iff, Equation.Involves,
    current]

/-- The report on a choice in some session covers the nodes that are involved there. -/
theorem covers_exhausted (s : Session) (c : Choice) :
    (Failure.exhausted (s.current c)).toDiagnostic.Covers c.provenance.node
      (c.Involves s.substitution) where
  location := rfl
  distinct := nodup_map_id_firstNotes _ _
  apart h := (mem_map_id_choiceNotes_current.mp h).2 rfl
  nodes n := by
    have hnodes : n ∈ (Failure.exhausted (s.current c)).toDiagnostic.nodes ↔
        n = c.provenance.node ∨ n ∈ (Failure.choiceNotes (s.current c)).map (·.id) := by
      rw [Diagnostic.nodes, List.mem_eraseDups]
      exact List.mem_cons
    rw [hnodes, mem_map_id_choiceNotes_current, Choice.Involves]
    by_cases hn : n = c.provenance.node
    · exact iff_of_true (.inl hn) (.inl hn)
    · rw [and_iff_left hn]

/-! ## Reports of runs -/

/-- A failure that is due to a choice was reported in a session on the way. -/
theorem Steps.exists_of_exhausted (h : Steps cs s t) (hs : s.failures = #[]) {f : Failure}
    (hf : f ∈ t.failures) (hcategory : f.category = .alternativeExhausted) :
    ∃ c u, .oneOf c ∈ cs ∧ Steps cs s u ∧ f = .exhausted (u.current c) := by
  induction h with
  | refl =>
    rw [hs] at hf
    exact absurd hf (Array.not_mem_empty f)
  | @tail u t hu hstep ih =>
    cases hstep with
    | @unify e _ =>
      rcases Array.mem_append.mp hf with hf | hf
      · exact ih hf
      · obtain ⟨event, _, hevent⟩ := List.mem_filterMap.mp (List.mem_toArray.mp hf)
        exact absurd hcategory (Failure.category_ne_of_event hevent)
    | decide _ _ _ =>
      rw [failures_log] at hf
      exact ih hf
    | @exhaust c hc =>
      unfold reportExhausted at hf
      split at hf
      · exact ih hf
      · rcases Array.mem_push.mp hf with hf | rfl
        · exact ih hf
        · exact ⟨c, u, hc, hu, rfl⟩

theorem exists_of_exhausted_solve (hs : s.failures = #[]) (o : Options) {d : Diagnostic}
    (hd : d ∈ (s.solve o cs).diagnostics) (hcategory : d.category = .alternativeExhausted) :
    ∃ c t, .oneOf c ∈ cs ∧ Steps cs (s.constrain cs) t ∧
      d = (Failure.exhausted (t.current c)).toDiagnostic := by
  obtain ⟨f, hf, rfl⟩ := List.mem_map.mp hd
  have hwalks := Solving.walks_constraints cs ⟨s.constrain cs, .ofOptions o⟩
  have hreported {t : Session} (ht : Steps cs (s.constrain cs) t) (hf : f ∈ t.failures) :
      ∃ c u, .oneOf c ∈ cs ∧ Steps cs (s.constrain cs) u ∧
        f.toDiagnostic = (Failure.exhausted (u.current c)).toDiagnostic := by
    obtain ⟨c, u, hc, hu, rfl⟩ := ht.exists_of_exhausted hs hf hcategory
    exact ⟨c, u, hc, hu, rfl⟩
  unfold Solving.Ends at hwalks
  unfold solve at hf
  split at hf
  · next heq =>
    rw [heq] at hwalks
    exact hreported hwalks.1 (Array.mem_toList_iff.mp hf)
  · next heq =>
    rw [heq] at hwalks
    rcases Array.mem_push.mp (Array.mem_toList_iff.mp hf) with hf | rfl
    · exact hreported hwalks.1 hf
    · exact absurd (hwalks.2.symm.trans hcategory) (by decide)

/-- In every session the report on a choice covers the nodes that are involved, each
once. Whatever calls came before, a run reports nothing else on choices. -/
theorem ofOptions_answer_covers (o : Options) (calls : List Call) (call : Call) :
    let s := ((ofOptions o).after calls).constrain call.constraints
    (∀ (t : Session) (c : Choice), (Failure.exhausted (t.current c)).toDiagnostic.Covers
      c.provenance.node (c.Involves t.substitution)) ∧
    ∀ d ∈ (((ofOptions o).after calls).answer call).diagnostics,
      d.category = .alternativeExhausted → ∃ c t, .oneOf c ∈ call.constraints ∧
        Steps call.constraints s t ∧ d = (Failure.exhausted (t.current c)).toDiagnostic := by
  intro s
  refine ⟨covers_exhausted, fun d hd hcategory => ?_⟩
  exact exists_of_exhausted_solve (failures_after rfl calls) call.options hd hcategory

/-- The first call binds the variable to a set, and neither candidate is one. Node 1
and the node of the choice stand behind the set, node 2 behind its elements and behind
the second candidate as well. -/
theorem ofOptions_answer_covers_overlapping :
    let n (i : Nat) : NodeId := ⟨i⟩
    let v : Ty := .var ⟨0⟩
    let eqn (i : Nat) (s t : Ty) : Equation := ⟨s, t, n i, .exprType⟩
    let set : Ty := .set (.int (n 2)) (.ofList [n 3, n 1])
    let tuple : Ty := .tuple [.bool (n 2), .var ⟨1⟩] (.single (n 5))
    let c : Choice :=
      ⟨[[eqn 3 v (.int (n 4))], [eqn 6 (.var ⟨1⟩) v, eqn 6 v tuple]], n 3, .identity⟩
    let earlier : Call := ⟨{}, [.equal (eqn 0 v set)]⟩
    let call : Call := ⟨{}, [.oneOf c]⟩
    let s := (ofOptions {}).after [earlier]
    let d := (Failure.exhausted (s.current c)).toDiagnostic
    d.nodes = [n 3, n 1, n 2, n 4, n 6, n 5] ∧
    (∀ k, c.Involves s.substitution k ↔ k ∈ [n 3, n 1, n 2, n 4, n 6, n 5]) ∧
    ∃ d ∈ (s.answer call).diagnostics, d.category = .alternativeExhausted ∧
      ∃ c' t, .oneOf c' ∈ call.constraints ∧
        Steps call.constraints (s.constrain call.constraints) t ∧
        d = (Failure.exhausted (t.current c')).toDiagnostic := by
  intro n v eqn set tuple c earlier call s d
  have hv : s.substitution.apply v = set := by
    simp only [s, earlier, set, eqn, v, n]
    cbv
  have hw : s.substitution.apply (.var ⟨1⟩) = .var ⟨1⟩ := by
    simp only [s, earlier, set, eqn, v, n]
    cbv
  have hcurrent : s.current c = ⟨[[eqn 3 set (.int (n 4))], [eqn 6 (.var ⟨1⟩) v, eqn 6 set tuple]],
      n 3, .identity⟩ := by
    simp only [current, c, eqn, List.map_cons, List.map_nil, hv, hw]
  have hnodes : d.nodes = [n 3, n 1, n 2, n 4, n 6, n 5] := by
    simp only [d, hcurrent]
    decide
  have hcategories : (s.answer call).failures.map (·.category) = [.alternativeExhausted] := by
    simp only [s, call, earlier, c, tuple, set, eqn, v, n]
    cbv
  obtain ⟨hcovers, hreports⟩ := ofOptions_answer_covers {} [earlier] call
  refine ⟨hnodes, fun k => ?_, ?_⟩
  · rw [← hnodes]
    exact ((hcovers s c).nodes k).symm
  · have hmem : Category.alternativeExhausted ∈ (s.answer call).failures.map (·.category) := by
      rw [hcategories]
      exact List.mem_singleton_self _
    obtain ⟨d, hd, hcategory⟩ := Solution.exists_of_category hmem
    exact ⟨d, hd, hcategory, hreports d hd hcategory⟩

end Session

end PlusCalTyping
