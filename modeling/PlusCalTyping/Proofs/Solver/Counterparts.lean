import PlusCalTyping.Proofs.Solver.TwoPhases

/-! # Solutions of other constraints

Constraints may be written down in quite another way and still ask the same of
some types. Then each list has a solution with the types that solving the other
finds. This is not yet enough for the types to be the same: a solution may have
strings or reals where solving puts the integers by default. But what is put in
by default on one side is either put in on the other side, too, or the equations
ask for it there (`Ty.integers_of_exchange`). So the types are variants.
-/

namespace PlusCalTyping

namespace Ty

variable {ws ws' : List TypeVar} {f g : TypeVar → Ty} {s t : Ty}

/-- The integers and variables are all that is put in. -/
theorem isVar_or_int_of_integersFor_agrees {v : TypeVar} (h : (integersFor ws v).agrees t) :
    t.isVar ∨ ∃ o, t = .prim .int o := by
  unfold integersFor at h
  split at h
  · exact .inr (exists_eq_prim (agrees_symm h))
  · rw [eq_var_of_agrees (agrees_symm h)]
    exact .inl rfl

mutual

/-- Each of two types becomes, with the integers for some variables, an instance
of the other. If the instance has a primitive type for such a variable, that is
the integers. -/
theorem integers_of_exchange (hf : ∀ w ∈ ws, ∃ p, (f w).agrees (.prim p .none)) {v : TypeVar}
    (hv : v ∈ ws) : (s t : Ty) → (s.subst (integersFor ws)).agrees (t.subst g) →
      (t.subst (integersFor ws')).agrees (s.subst f) → v ∈ s.vars →
      (f v).agrees (.prim .int .none)
  | prim _ _, _, _, _, hs | unresolved _, _, _, _, hs => nomatch hs
  | var w, t, h, h', hs => by
    cases List.mem_singleton.mp hs
    obtain ⟨p, hp⟩ := hf v hv
    have ht : (t.subst (integersFor ws')).agrees (.prim p .none) := agrees_trans h' hp
    suffices p = .int by rwa [this] at hp
    rw [subst, integersFor, if_pos hv] at h
    rcases intOr_of_subst_agrees ht with ⟨w, rfl⟩ | hprim
    · obtain hvar | ⟨_, hint⟩ := isVar_or_int_of_integersFor_agrees ht
      · cases hvar
      · cases hint
        rfl
    · obtain ⟨o, rfl⟩ := exists_eq_prim hprim
      exact (of_decide_eq_true h : Prim.int = p).symm
  | set elem _, t, h, h', hs => by
    cases t with
    | var w => obtain hvar | ⟨_, hint⟩ := isVar_or_int_of_integersFor_agrees h' <;> contradiction
    | set elem' _ =>
      exact integers_of_exchange hf hv elem elem' h h' hs
    | _ => cases h
  | tuple elems _, t, h, h', hs => by
    cases t with
    | var w => obtain hvar | ⟨_, hint⟩ := isVar_or_int_of_integersFor_agrees h' <;> contradiction
    | tuple elems' _ =>
      exact integers_of_exchangeList hf hv elems elems' h h' hs
    | _ => cases h
  | procedure params _, t, h, h', hs => by
    cases t with
    | var w => obtain hvar | ⟨_, hint⟩ := isVar_or_int_of_integersFor_agrees h' <;> contradiction
    | procedure params' _ =>
      exact integers_of_exchangeList hf hv params params' h h' hs
    | _ => cases h
  | map key value _, t, h, h', hs => by
    cases t with
    | var w => obtain hvar | ⟨_, hint⟩ := isVar_or_int_of_integersFor_agrees h' <;> contradiction
    | map key' value' _ =>
      obtain ⟨hk, hw⟩ := agrees_map_iff.mp h
      obtain ⟨hk', hw'⟩ := agrees_map_iff.mp h'
      rcases List.mem_append.mp hs with hs | hs
      · exact integers_of_exchange hf hv key key' hk hk' hs
      · exact integers_of_exchange hf hv value value' hw hw' hs
    | _ => cases h
  | operator params result _, t, h, h', hs => by
    cases t with
    | var w => obtain hvar | ⟨_, hint⟩ := isVar_or_int_of_integersFor_agrees h' <;> contradiction
    | operator params' result' _ =>
      obtain ⟨hp, hr⟩ := Bool.and_eq_true_iff.mp h
      obtain ⟨hp', hr'⟩ := Bool.and_eq_true_iff.mp h'
      rcases List.mem_append.mp hs with hs | hs
      · exact integers_of_exchangeList hf hv params params' hp hp' hs
      · exact integers_of_exchange hf hv result result' hr hr' hs
    | _ => cases h

theorem integers_of_exchangeList (hf : ∀ w ∈ ws, ∃ p, (f w).agrees (.prim p .none)) {v : TypeVar}
    (hv : v ∈ ws) : (ss ts : List Ty) →
      agreesList (substList (integersFor ws) ss) (substList g ts) →
      agreesList (substList (integersFor ws') ts) (substList f ss) → v ∈ varsList ss →
      (f v).agrees (.prim .int .none)
  | [], _, _, _, hs => nomatch hs
  | s :: ss, [], h, _, _ => nomatch h
  | s :: ss, t :: ts, h, h', hs => by
    obtain ⟨hd, htl⟩ := Bool.and_eq_true_iff.mp h
    obtain ⟨hd', htl'⟩ := Bool.and_eq_true_iff.mp h'
    rcases List.mem_append.mp hs with hs | hs
    · exact integers_of_exchange hf hv s t hd hd' hs
    · exact integers_of_exchangeList hf hv ss ts htl htl' hs

end

/-- Types that are both instances of what the other was made from by putting in
the integers are variants. -/
theorem variant_of_exchange {u u' : Ty} (hf : ∀ w ∈ ws, ∃ p, (f w).agrees (.prim p .none))
    (hg : ∀ w ∈ ws', ∃ p, (g w).agrees (.prim p .none))
    (hu : u.agrees (s.subst (integersFor ws))) (hu' : u'.agrees (t.subst (integersFor ws')))
    (h : u.agrees (t.subst g)) (h' : u'.agrees (s.subst f)) : u.Variant u' := by
  have hinstance {ws : List TypeVar} {f : TypeVar → Ty} {s : Ty}
      (hint : ∀ v ∈ s.vars, v ∈ ws → (f v).agrees (.prim .int .none)) :
      ((s.subst (integersFor ws)).subst f).agrees (s.subst f) := by
    rw [subst_subst]
    refine subst_agrees_subst s fun v hv => ?_
    by_cases hmem : v ∈ ws
    · rw [integersFor, if_pos hmem]
      exact agrees_symm (hint v hv hmem)
    · rw [integersFor, if_neg hmem]
      exact agrees_refl _
  have hst := agrees_trans (agrees_symm hu) h
  have hts := agrees_trans (agrees_symm hu') h'
  have hsf := hinstance fun v hv hmem => integers_of_exchange hf hmem s t hst hts hv
  have htg := hinstance fun v hv hmem => integers_of_exchange hg hmem t s hts hst hv
  exact ⟨⟨f, agrees_trans (subst_agrees hu) (agrees_trans hsf (agrees_symm h'))⟩,
    g, agrees_trans (subst_agrees hu') (agrees_trans htg (agrees_symm h))⟩

end Ty

/-- The types found are most general ones with the integers for variables that
have primitive types in all solutions. -/
def Solution.Defaulted (x : Solution) (cs : List Constraint) : Prop :=
  ∃ (σ : Substitution) (ws : List TypeVar),
    (∀ v, (x.session.substitution.value v).agrees ((σ.value v).subst (Ty.integersFor ws))) ∧
    ∀ θ : Valuation, (∀ k ∈ cs, θ.Satisfies k) →
      (∀ v, ((σ.value v).subst θ).agrees (θ v)) ∧
        ∀ w ∈ ws, ∃ p, (θ w).agrees (.prim p .none)

/-- Each of two lists has a solution with the type that solving the other finds
for some variable. Then solving them finds variants. -/
theorem Solution.Defaulted.variant {x x' : Solution} {cs cs' : List Constraint}
    (h : x.Defaulted cs) (h' : x'.Defaulted cs') {θ θ' : Valuation}
    (hθ : ∀ k ∈ cs, θ.Satisfies k) (hθ' : ∀ k ∈ cs', θ'.Satisfies k) {v v' : TypeVar}
    (hv : (x.session.substitution.value v).agrees (θ' v'))
    (hv' : (x'.session.substitution.value v').agrees (θ v)) :
    (x.session.substitution.value v).Variant (x'.session.substitution.value v') := by
  obtain ⟨σ, ws, hvalue, hsolution⟩ := h
  obtain ⟨σ', ws', hvalue', hsolution'⟩ := h'
  obtain ⟨hinstance, hprim⟩ := hsolution θ hθ
  obtain ⟨hinstance', hprim'⟩ := hsolution' θ' hθ'
  exact Ty.variant_of_exchange hprim hprim' (hvalue v) (hvalue' v')
    (Ty.agrees_trans hv (Ty.agrees_symm (hinstance' v')))
    (Ty.agrees_trans hv' (Ty.agrees_symm (hinstance v)))

/-- The integers are put in for what the equations leave open, and a solution
has one of the types there that the choice offers. -/
theorem Session.defaulted_ofOptions_solve {cs : List Constraint} {o o' : Options}
    (hdet : ∀ e ∈ Solving.equations cs, e.Determined)
    (hcs : ∀ c ∈ Solving.choices cs, ∃ v q, c.IsIntOr v q)
    (hstop : ((ofOptions o).solve o' cs).Unstopped)
    (hsolved : ((ofOptions o).solve o' cs).failures = []) :
    ((ofOptions o).solve o' cs).Defaulted cs := by
  have hvalues := (ofOptions_solve_intOr hdet hcs hstop).2 hsolved
  have hmodels := (models_solve_iff o o' hdet (length_le_of_unstopped hstop) rfl).2
  refine ⟨_, _, fun v => hvalues (.var v), fun θ hθ => ?_⟩
  obtain ⟨hsolves, hdecides⟩ := Solving.satisfies_all_iff.mp hθ
  have hσ := ((hmodels θ).mpr hsolves).2
  refine ⟨hσ.value_agrees, fun w hw => ?_⟩
  obtain ⟨c, hc, v, q, hvq, hv⟩ := (Substitution.mem_openVars_iff hcs).mp hw
  have hvalue := hσ.value_agrees v
  rw [hv] at hvalue
  rcases hvq.decides_iff.mp (hdecides c hc) with hint | hother
  · exact ⟨.int, Ty.agrees_trans hvalue hint⟩
  · exact ⟨q, Ty.agrees_trans hvalue hother⟩

end PlusCalTyping
