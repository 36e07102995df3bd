import PlusCalTyping.Proofs.Ty.Acyclicity

/-! # Evaluation without a bound

`Substitution.apply` follows chains of at most as many bindings as there are.
Here bindings are followed for as long as there are any, and a variable is
searched for by evaluating a type and every part of it on the way down. Both
are relations with a finite derivation for every computation that comes to an
end. Where no variable reaches itself, both always do: a type evaluates to what
`apply` gives and to nothing else (`Acyclic.evaluates_iff`), and the search
tells whether the variable is in there (`Acyclic.searches_iff`).
-/

namespace PlusCalTyping

namespace Ty

/-- The types that a type is immediately made of, from left to right. -/
def parts : Ty → List Ty
  | prim _ _ | var _ | unresolved _ => []
  | set elem _ => [elem]
  | tuple elems _ => elems
  | map key value _ => [key, value]
  | procedure params _ => params
  | operator params result _ => params ++ [result]

theorem vars_eq_flatMap_parts {t : Ty} (h : t.isVar = false) : t.vars = t.parts.flatMap vars := by
  cases t with
  | var v => cases h
  | _ => simp [vars, parts, varsList_eq]

theorem mem_vars_of_mem_parts {s t : Ty} (hs : s ∈ t.parts) {w : TypeVar} (hw : w ∈ s.vars) :
    w ∈ t.vars := by
  have ht : t.isVar = false := by
    cases t with
    | var v => cases hs
    | _ => rfl
  rw [vars_eq_flatMap_parts ht]
  exact List.mem_flatMap.mpr ⟨s, hs, hw⟩

theorem size_le_sizeList {t : Ty} {ts : List Ty} (h : t ∈ ts) : t.size ≤ sizeList ts := by
  induction ts with
  | nil => cases h
  | cons s ts ih =>
    rw [sizeList]
    rcases List.mem_cons.mp h with rfl | h
    · omega
    · have := ih h
      omega

theorem size_lt_of_mem_parts {s t : Ty} (h : s ∈ t.parts) : s.size < t.size := by
  cases t with
  | prim | var | unresolved => cases h
  | set elem _ =>
    rw [List.mem_singleton.mp h, size]
    omega
  | tuple elems _ => exact Nat.lt_succ_of_le (size_le_sizeList h)
  | map key value _ =>
    rw [size]
    rcases List.mem_pair.mp h with rfl | rfl <;> omega
  | procedure params _ => exact Nat.lt_succ_of_le (size_le_sizeList h)
  | operator params result _ =>
    rw [size]
    rcases List.mem_append.mp h with h | h
    · have := size_le_sizeList h
      omega
    · rw [List.mem_singleton.mp h]
      omega

end Ty

namespace Substitution

section

variable (σ : Substitution)

mutual

/-- The type that is reached by putting bindings in for as long as there are
any, however many there are. -/
inductive Evaluates : Ty → Ty → Prop
  | bound {v : TypeVar} {t u : Ty} (hv : σ.lookup v = some t) (h : Evaluates t u) :
    Evaluates (.var v) u
  | free {v : TypeVar} (hv : σ.lookup v = none) : Evaluates (.var v) (.var v)
  | prim (p : Prim) (o : Origins) : Evaluates (.prim p o) (.prim p o)
  | unresolved (o : Origins) : Evaluates (.unresolved o) (.unresolved o)
  | set {s s' : Ty} (h : Evaluates s s') (o : Origins) : Evaluates (.set s o) (.set s' o)
  | tuple {ts ts' : List Ty} (h : EvaluatesAll ts ts') (o : Origins) :
    Evaluates (.tuple ts o) (.tuple ts' o)
  | map {s s' t t' : Ty} (hs : Evaluates s s') (ht : Evaluates t t') (o : Origins) :
    Evaluates (.map s t o) (.map s' t' o)
  | procedure {ts ts' : List Ty} (h : EvaluatesAll ts ts') (o : Origins) :
    Evaluates (.procedure ts o) (.procedure ts' o)
  | operator {ts ts' : List Ty} {s s' : Ty} (h : EvaluatesAll ts ts') (hs : Evaluates s s')
    (o : Origins) : Evaluates (.operator ts s o) (.operator ts' s' o)

inductive EvaluatesAll : List Ty → List Ty → Prop
  | nil : EvaluatesAll [] []
  | cons {t t' : Ty} {ts ts' : List Ty} (h : Evaluates t t') (hs : EvaluatesAll ts ts') :
    EvaluatesAll (t :: ts) (t' :: ts')

end

mutual

/-- The search for a variable in a type. The type is evaluated, and then every
part of what comes out is searched in the same way, up to the first hit. -/
inductive Searches (v : TypeVar) : Ty → Bool → Prop
  | var {t : Ty} {w : TypeVar} (h : σ.Evaluates t (.var w)) : Searches v t (w = v)
  | parts {t u : Ty} {found : Bool} (h : σ.Evaluates t u) (hu : u.isVar = false)
    (hparts : SearchesAny v u.parts found) : Searches v t found

inductive SearchesAny (v : TypeVar) : List Ty → Bool → Prop
  | nil : SearchesAny v [] false
  | hit {t : Ty} {ts : List Ty} (h : Searches v t true) : SearchesAny v (t :: ts) true
  | miss {t : Ty} {ts : List Ty} {found : Bool} (h : Searches v t false)
    (hs : SearchesAny v ts found) : SearchesAny v (t :: ts) found

end

end

variable {σ : Substitution}

/-! ## Types -/

mutual

theorem evaluates_subst {f : TypeVar → Ty} :
    (t : Ty) → (∀ v ∈ t.vars, σ.Evaluates (.var v) (f v)) → σ.Evaluates t (t.subst f)
  | .prim p o, _ => .prim p o
  | .unresolved o, _ => .unresolved o
  | .var v, h => h v (List.mem_singleton_self v)
  | .set elem o, h => .set (evaluates_subst elem h) o
  | .tuple elems o, h => .tuple (evaluatesAll_substList elems h) o
  | .map key value o, h => .map (evaluates_subst key fun v hv => h v (List.mem_append_left _ hv))
    (evaluates_subst value fun v hv => h v (List.mem_append_right _ hv)) o
  | .procedure params o, h => .procedure (evaluatesAll_substList params h) o
  | .operator params result o, h =>
    .operator (evaluatesAll_substList params fun v hv => h v (List.mem_append_left _ hv))
      (evaluates_subst result fun v hv => h v (List.mem_append_right _ hv)) o

theorem evaluatesAll_substList {f : TypeVar → Ty} :
    (ts : List Ty) → (∀ v ∈ Ty.varsList ts, σ.Evaluates (.var v) (f v)) →
      σ.EvaluatesAll ts (Ty.substList f ts)
  | [], _ => .nil
  | t :: ts, h => .cons (evaluates_subst t fun v hv => h v (List.mem_append_left _ hv))
    (evaluatesAll_substList ts fun v hv => h v (List.mem_append_right _ hv))

end

/-- Where so many rounds leave nothing to put in, no further one is needed. -/
theorem evaluates_expand {n : Nat} {t : Ty}
    (h : ∀ w ∈ (σ.expand n t).vars, σ.lookup w = none) : σ.Evaluates t (σ.expand n t) := by
  induction n generalizing t with
  | zero =>
    have := evaluates_subst t fun v hv => Evaluates.free (h v hv)
    rwa [Ty.subst_var] at this
  | succ n ih =>
    rw [expand_eq_subst] at h ⊢
    refine evaluates_subst t fun v hv => ?_
    have hvar : ∀ w ∈ (σ.expand (n + 1) (.var v)).vars, σ.lookup w = none := by
      intro w hw
      refine h w ?_
      rw [Ty.vars_subst]
      exact List.mem_flatMap.mpr ⟨v, hv, hw⟩
    simp only [expand, Ty.subst] at hvar ⊢
    cases hl : σ.lookup v with
    | none => exact .free hl
    | some u =>
      rw [hl] at hvar
      exact .bound hl (ih hvar)

mutual

theorem Evaluates.eq_subst {t u : Ty} (hσ : σ.Acyclic) : σ.Evaluates t u → u = t.subst σ.value
  | .bound hv h => (h.eq_subst hσ).trans <|
    (apply_eq_subst σ _).symm.trans (hσ.value_of_lookup hv).symm
  | .free hv => (apply_eq_self fun w hw => by rwa [List.mem_singleton.mp hw]).symm
  | .prim _ _ | .unresolved _ => rfl
  | .set h o => congrArg (Ty.set · o) (h.eq_subst hσ)
  | .tuple h o => congrArg (Ty.tuple · o) (h.eq_substList hσ)
  | .map hs ht o => congrArg₂ (Ty.map · · o) (hs.eq_subst hσ) (ht.eq_subst hσ)
  | .procedure h o => congrArg (Ty.procedure · o) (h.eq_substList hσ)
  | .operator h hs o => congrArg₂ (Ty.operator · · o) (h.eq_substList hσ) (hs.eq_subst hσ)

theorem EvaluatesAll.eq_substList {ts us : List Ty} (hσ : σ.Acyclic) :
    σ.EvaluatesAll ts us → us = Ty.substList σ.value ts
  | .nil => rfl
  | .cons h hs => congrArg₂ List.cons (h.eq_subst hσ) (hs.eq_substList hσ)

end

theorem Acyclic.evaluates_iff (hσ : σ.Acyclic) {t u : Ty} :
    σ.Evaluates t u ↔ u = σ.apply t := by
  constructor
  · intro h
    rw [apply_eq_subst]
    exact h.eq_subst hσ
  · rintro rfl
    exact evaluates_expand fun _ hw => hσ.lookup_eq_none_of_mem_apply hw

/-! ## Variables in types -/

theorem Acyclic.apply_eq_of_mem_parts (hσ : σ.Acyclic) {s t : Ty}
    (hs : s ∈ (σ.apply t).parts) : σ.apply s = s :=
  apply_eq_self fun _ hw => hσ.lookup_eq_none_of_mem_apply (Ty.mem_vars_of_mem_parts hs hw)

theorem Acyclic.flatMap_vars_apply (hσ : σ.Acyclic) {t : Ty} (ht : (σ.apply t).isVar = false) :
    (σ.apply t).parts.flatMap (fun s => (σ.apply s).vars) = (σ.apply t).vars := by
  rw [Ty.vars_eq_flatMap_parts ht]
  exact List.flatMap_congr fun s hs => by rw [hσ.apply_eq_of_mem_parts hs]

mutual

theorem Searches.eq_decide {v : TypeVar} {t : Ty} {found : Bool} (hσ : σ.Acyclic) :
    σ.Searches v t found → found = decide (v ∈ (σ.apply t).vars)
  | .var h => by
    rw [← hσ.evaluates_iff.mp h]
    simp [Ty.vars, eq_comm]
  | .parts h hu hparts => by
    have := hparts.eq_decide hσ
    have he := hσ.evaluates_iff.mp h
    rwa [he, hσ.flatMap_vars_apply (he ▸ hu)] at this

theorem SearchesAny.eq_decide {v : TypeVar} {ts : List Ty} {found : Bool} (hσ : σ.Acyclic) :
    σ.SearchesAny v ts found → found = decide (v ∈ ts.flatMap fun t => (σ.apply t).vars)
  | .nil => rfl
  | .hit h => by
    have := of_decide_eq_true (h.eq_decide hσ).symm
    simp [this]
  | .miss h hs => by
    have hfirst := of_decide_eq_false (h.eq_decide hσ).symm
    have hrest := hs.eq_decide hσ
    simp [hfirst, hrest]

end

theorem exists_searchesAny {v : TypeVar} {ts : List Ty}
    (h : ∀ t ∈ ts, ∃ found, σ.Searches v t found) : ∃ found, σ.SearchesAny v ts found := by
  induction ts with
  | nil => exact ⟨false, .nil⟩
  | cons t ts ih =>
    obtain ⟨⟨found, ht⟩, hts⟩ := List.forall_mem_cons.mp h
    cases found with
    | true => exact ⟨true, .hit ht⟩
    | false =>
      obtain ⟨later, hlater⟩ := ih hts
      exact ⟨later, .miss ht hlater⟩

theorem Acyclic.exists_searches (hσ : σ.Acyclic) (v : TypeVar) (t : Ty) :
    ∃ found, σ.Searches v t found := by
  induction hn : (σ.apply t).size using Nat.strong_induction_on generalizing t with
  | _ n ih =>
    subst hn
    have heval := hσ.evaluates_iff.mpr (rfl : σ.apply t = σ.apply t)
    cases hvar : (σ.apply t).isVar with
    | true =>
      cases hu : σ.apply t with
      | var w => exact ⟨_, .var (hu ▸ heval)⟩
      | _ => simp [hu, Ty.isVar] at hvar
    | false =>
      have hparts : ∀ s ∈ (σ.apply t).parts, ∃ found, σ.Searches v s found := by
        intro s hs
        have hsize := Ty.size_lt_of_mem_parts hs
        rw [← hσ.apply_eq_of_mem_parts hs] at hsize
        exact ih _ hsize s rfl
      obtain ⟨found, h⟩ := exists_searchesAny hparts
      exact ⟨found, .parts heval hvar h⟩

theorem Acyclic.searches_iff (hσ : σ.Acyclic) {v : TypeVar} {t : Ty} {found : Bool} :
    σ.Searches v t found ↔ found = decide (v ∈ (σ.apply t).vars) := by
  constructor
  · exact Searches.eq_decide hσ
  · intro h
    obtain ⟨found', h'⟩ := hσ.exists_searches v t
    rwa [h, ← h'.eq_decide hσ]

end Substitution

end PlusCalTyping
