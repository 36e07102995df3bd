import PlusCalTyping.Proofs.Solver.TwoPhases
import PlusCalTyping.Proofs.Typing.Soundness.Algorithm

/-! # The choices of an algorithm

An algorithm only ever asks whether a number is an integer or a real, and
whether an identity is an integer or a string. So its constraints are solved in
two phases, by equations first and by defaults for what they leave open.
-/

namespace PlusCalTyping

/-- The choice is of integers or of strings, or of integers or of reals. -/
def Choice.Simple (c : Choice) : Prop := ∃ v q, c.IsIntOr v q ∧ (q = .string ∨ q = .real)

namespace Draft

theorem simple_of_mem_ofAlgorithm {r : Registry} {a : Algorithm} {o : Options} {c : Choice}
    (h : .oneOf c ∈ (ofAlgorithm r a o).collection.constraints) : c.Simple := by
  have hregular := regular_ofAlgorithm r a o _ h
  obtain ⟨v, q, hc⟩ := hregular.isIntOr c rfl
  exact ⟨v, q, hc, hregular.stringOrReal c rfl v q hc⟩

/-- All choices of an algorithm are between the integers and the strings or
reals, for one variable. Constraints with such choices are solved exactly if
their equations are and leave every such variable open or with one of its two
types; types are then those of the equations, with the integers for all
variables that choices leave open. -/
theorem choices_solve_by_default :
    (∀ (r : Registry) (a : Algorithm) (o : Options) (c : Choice),
      .oneOf c ∈ (ofAlgorithm r a o).collection.constraints → c.Simple) ∧
    ∀ (o o' : Options) (cs : List Constraint), (∀ e, .equal e ∈ cs → e.Determined) →
      (∀ c, .oneOf c ∈ cs → c.Simple) → ((Session.ofOptions o).solve o' cs).Unstopped →
      let x := (Session.ofOptions o).solve o' cs
      let e := (Session.ofOptions o).solve o' ((Solving.equations cs).map .equal)
      let σ := e.session.substitution
      (x.failures = [] ↔ e.failures = [] ∧ ∀ c v q, .oneOf c ∈ cs → c.IsIntOr v q →
        (∃ w, σ.apply (.var v) = .var w) ∨ (σ.apply (.var v)).agrees (.prim .int .none) ∨
          (σ.apply (.var v)).agrees (.prim q .none)) ∧
      (x.failures = [] → ∀ t, (x.session.substitution.apply t).agrees
        ((σ.apply t).subst (Ty.integersFor (σ.openVars (Solving.choices cs))))) := by
  refine ⟨fun r a o c hc => simple_of_mem_ofAlgorithm hc, fun o o' cs hdet hcs hstop => ?_⟩
  have hshape : ∀ c ∈ Solving.choices cs, ∃ v q, c.IsIntOr v q := by
    intro c hc
    obtain ⟨v, q, hc, _⟩ := hcs c (Solving.mem_choices_iff.mp hc)
    exact ⟨v, q, hc⟩
  obtain ⟨hsolved, hvalues⟩ := Session.ofOptions_solve_intOr
    (fun e he => hdet e (Solving.mem_equations_iff.mp he)) hshape hstop
  refine ⟨hsolved.trans (and_congr_right fun _ => ?_), hvalues⟩
  constructor
  · exact fun h c v q hc => h c (Solving.mem_choices_iff.mpr hc) v q
  · exact fun h c hc v q => h c v q (Solving.mem_choices_iff.mp hc)

/-- An identity that equals a number is neither string nor real, but an integer. -/
theorem choices_solve_by_default_shared :
    let n : NodeId := ⟨0⟩
    let eqn (s t : Ty) : Equation := ⟨s, t, n, .exprType⟩
    let identity : Choice :=
      ⟨[[eqn (.var ⟨0⟩) (.int n)], [eqn (.var ⟨0⟩) (.string n)]], n, .identity⟩
    let number : Choice := ⟨[[eqn (.var ⟨1⟩) (.int n)], [eqn (.var ⟨1⟩) (.real n)]], n, .exprType⟩
    let cs : List Constraint := [.oneOf identity, .equal (eqn (.var ⟨0⟩) (.var ⟨1⟩)), .oneOf number]
    let x := (Session.ofOptions {}).solve {} cs
    identity.Simple ∧ number.Simple ∧ x.Unstopped ∧ x.failures = [] ∧
      (x.session.substitution.apply (.set (.var ⟨0⟩) .none)).agrees (.set (.int n) .none) := by
  intro n eqn identity number cs x
  have hidentity : identity.Simple := ⟨⟨0⟩, .string, ⟨nofun, _, _, _, _, rfl⟩, .inl rfl⟩
  have hnumber : number.Simple := ⟨⟨1⟩, .real, ⟨nofun, _, _, _, _, rfl⟩, .inr rfl⟩
  have hdet : ∀ e, .equal e ∈ cs → e.Determined := by
    intro e he
    simp [cs] at he
    subst he
    exact ⟨rfl, rfl⟩
  have hcs : ∀ c, .oneOf c ∈ cs → c.Simple := by
    intro c hc
    simp [cs] at hc
    rcases hc with rfl | rfl
    · exact hidentity
    · exact hnumber
  have hstop : ((Session.ofOptions {}).solve {} cs).Unstopped := of_decide_eq_true (by cbv)
  have hsolved : ((Session.ofOptions {}).solve {} cs).failures = [] := by cbv
  obtain ⟨_, hvalues⟩ := choices_solve_by_default.2 {} {} cs hdet hcs hstop
  exact ⟨hidentity, hnumber, hstop, hsolved, Ty.agrees_trans (hvalues hsolved _) (by cbv)⟩

end Draft

end PlusCalTyping
