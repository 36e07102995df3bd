import PlusCalTyping.Distinct
import PlusCalTyping.Proofs.Ty.Agreement
import PlusCalTyping.Ty.Substitution
import Mathlib.Data.List.Chain
import Mathlib.Logic.Relation

/-! # Acyclic substitutions

Where no variable reaches itself through bindings, a chain of bindings is no
longer than the number of bindings. So applying a substitution leaves only
variables without a binding (`lookup_eq_none_of_mem_apply`), applying it again
changes nothing, and applying one that keeps all bindings makes up for what was
not yet applied (`apply_apply_of_le`). Binding a new variable to a type of
unbound ones keeps a substitution acyclic.
-/

namespace PlusCalTyping.Substitution

/-- The binding of one variable mentions the other. -/
def Points (σ : Substitution) (v w : TypeVar) : Prop := ∃ t, σ.lookup v = some t ∧ w ∈ t.vars

/-- No variable reaches itself by following bindings. -/
def Acyclic (σ : Substitution) : Prop := ∀ v, ¬Relation.TransGen σ.Points v v

theorem Points.isSome {σ : Substitution} {v w : TypeVar} (h : σ.Points v w) :
    (σ.lookup v).isSome := by
  obtain ⟨t, ht, _⟩ := h
  rw [ht]
  rfl

theorem acyclic_empty : empty.Acyclic := by
  intro v h
  obtain ⟨w, hvw, _⟩ := Relation.TransGen.head'_iff.mp h
  have := hvw.isSome
  rw [lookup_empty] at this
  cases this

/-! ## Following bindings -/

/-- The binding of a variable, or the variable where there is none. -/
def step (σ : Substitution) (v : TypeVar) : Ty := (σ.lookup v).getD (.var v)

/-- The type of a variable with all bindings put in. -/
def value (σ : Substitution) (v : TypeVar) : Ty := σ.apply (.var v)

theorem expand_eq_subst (σ : Substitution) (n : Nat) (t : Ty) :
    σ.expand n t = t.subst fun v => σ.expand n (.var v) := by
  cases n with
  | zero => exact (Ty.subst_var t).symm
  | succ n => rfl

theorem apply_eq_subst (σ : Substitution) (t : Ty) : σ.apply t = t.subst σ.value :=
  expand_eq_subst σ σ.size t

/-- One more round of following bindings can as well be the last. -/
theorem expand_succ (σ : Substitution) (n : Nat) (t : Ty) :
    σ.expand (n + 1) t = (σ.expand n t).subst σ.step := by
  induction n generalizing t with
  | zero =>
    refine Ty.subst_congr t fun v _ => ?_
    unfold step
    cases σ.lookup v <;> rfl
  | succ n ih =>
    rw [expand, expand, Ty.subst_subst]
    refine Ty.subst_congr t fun v _ => ?_
    cases h : σ.lookup v with
    | none => simp only [Ty.subst, step, h, Option.getD_none]
    | some u => exact ih u

/-- A bound variable that is left after so many rounds ends a chain of bound
variables that is longer than the rounds. -/
theorem exists_chain (σ : Substitution) {n : Nat} {t : Ty} {w : TypeVar}
    (hw : w ∈ (σ.expand n t).vars) (hb : (σ.lookup w).isSome) :
    ∃ v l, v ∈ t.vars ∧ (v :: l).IsChain σ.Points ∧ (∀ x ∈ v :: l, (σ.lookup x).isSome) ∧
      l.length = n := by
  induction n generalizing t with
  | zero => exact ⟨w, [], hw, .singleton w, by simpa using hb, rfl⟩
  | succ n ih =>
    rw [expand, Ty.vars_subst, List.mem_flatMap] at hw
    obtain ⟨v, hv, hw⟩ := hw
    rw [Function.comp_apply] at hw
    cases hl : σ.lookup v with
    | none =>
      simp only [hl, Ty.vars, List.mem_singleton] at hw
      rw [hw, hl] at hb
      cases hb
    | some u =>
      rw [hl] at hw
      obtain ⟨x, l, hx, hchain, hbound, hlen⟩ := ih hw
      refine ⟨v, x :: l, hv, List.isChain_cons_cons.mpr ⟨⟨u, hl, hx⟩, hchain⟩, ?_, ?_⟩
      · exact List.forall_mem_cons.mpr ⟨by rw [hl]; rfl, hbound⟩
      · rw [List.length_cons, hlen]

theorem mem_keys_of_lookup {σ : Substitution} {v : TypeVar} (h : (σ.lookup v).isSome) :
    v ∈ σ.bindings.keys := by
  rw [Std.TreeMap.mem_keys, ← Std.TreeMap.isSome_getElem?_iff_mem]
  exact h

variable {σ τ : Substitution}

/-- No chain of bound variables has more of them than there are bindings. -/
theorem Acyclic.length_le (h : σ.Acyclic) {l : List TypeVar} (hl : l.IsChain σ.Points)
    (hb : ∀ v ∈ l, (σ.lookup v).isSome) : l.length ≤ σ.size := by
  have hpairs : l.Pairwise (Relation.TransGen σ.Points) :=
    (hl.imp fun _ _ => Relation.TransGen.single).pairwise
  have hnodup : l.Nodup := by
    refine hpairs.imp ?_
    rintro v _ hvv rfl
    exact h v hvv
  have hsub : l ⊆ σ.bindings.keys := fun v hv => mem_keys_of_lookup (hb v hv)
  calc
    l.length ≤ σ.bindings.keys.length := length_le_of_nodup_of_subset hnodup hsub
    _ = σ.size := Std.TreeMap.length_keys

theorem Acyclic.lookup_eq_none_of_mem_apply (h : σ.Acyclic) {t : Ty} {w : TypeVar}
    (hw : w ∈ (σ.apply t).vars) : σ.lookup w = none := by
  -- The chain would have one variable more than there are bindings.
  by_contra hne
  obtain ⟨v, l, _, hchain, hbound, hlen⟩ :=
    σ.exists_chain hw (Option.isSome_iff_ne_none.mpr hne)
  have := h.length_le hchain hbound
  rw [List.length_cons, hlen] at this
  exact Nat.not_succ_le_self _ this

theorem apply_eq_self {t : Ty} (h : ∀ v ∈ t.vars, σ.lookup v = none) : σ.apply t = t := by
  have hexpand : ∀ n, σ.expand n t = t := by
    intro n
    cases n with
    | zero => rfl
    | succ n =>
      refine Ty.subst_eq_self fun v hv => ?_
      simp only [h v hv]
  exact hexpand _

theorem Acyclic.apply_apply (h : σ.Acyclic) (t : Ty) : σ.apply (σ.apply t) = σ.apply t :=
  apply_eq_self fun _ hv => h.lookup_eq_none_of_mem_apply hv

theorem Acyclic.value_of_lookup (h : σ.Acyclic) {v : TypeVar} {t : Ty}
    (hv : σ.lookup v = some t) : σ.value v = σ.apply t := by
  have hstep : σ.expand (σ.size + 1) (.var v) = σ.value v := by
    rw [expand_succ]
    refine Ty.subst_eq_self fun w hw => ?_
    rw [step, h.lookup_eq_none_of_mem_apply (t := .var v) hw, Option.getD_none]
  rw [← hstep, expand, Ty.subst, hv]
  rfl

/-! ## Keeping bindings -/

/-- Every binding of the first is one of the second. -/
def Le (σ τ : Substitution) : Prop := ∀ v t, σ.lookup v = some t → τ.lookup v = some t

instance : LE Substitution := ⟨Le⟩

theorem le_refl (σ : Substitution) : σ ≤ σ := fun _ _ h => h

theorem le_trans {ρ : Substitution} (h : σ ≤ τ) (h' : τ ≤ ρ) : σ ≤ ρ :=
  fun v t hv => h' v t (h v t hv)

theorem le_bind {v : TypeVar} (hv : σ.lookup v = none) (t : Ty) : σ ≤ σ.bind v t := by
  intro w u hw
  rw [lookup_bind, if_neg]
  · exact hw
  · rintro rfl
    rw [hv] at hw
    cases hw

/-- Bindings that are kept need not be put in beforehand. -/
theorem apply_apply_of_le (hτ : τ.Acyclic) (h : σ ≤ τ) (t : Ty) :
    τ.apply (σ.apply t) = τ.apply t := by
  have hexpand : ∀ n t, τ.apply (σ.expand n t) = τ.apply t := by
    intro n
    induction n with
    | zero => exact fun _ => rfl
    | succ n ih =>
      intro t
      rw [expand, apply_eq_subst, apply_eq_subst, Ty.subst_subst]
      refine Ty.subst_congr t fun v _ => ?_
      rw [← apply_eq_subst]
      cases hv : σ.lookup v with
      | none => rfl
      | some u => exact (ih u).trans (hτ.value_of_lookup (h v u hv)).symm
  exact hexpand _ t

/-! ## Binding a variable -/

/-- In a substitution with a binding to unbound variables, a path to a bound
variable is a path of the other bindings: the new ones lead nowhere. -/
theorem transGen_of_bind {v : TypeVar} {t : Ty} (hv : v ∉ t.vars)
    (ht : ∀ w ∈ t.vars, σ.lookup w = none) {x y : TypeVar}
    (h : Relation.TransGen (σ.bind v t).Points x y) (hy : ((σ.bind v t).lookup y).isSome) :
    Relation.TransGen σ.Points x y := by
  have hedge : ∀ {a b}, (σ.bind v t).Points a b → ((σ.bind v t).lookup b).isSome →
      σ.Points a b := by
    rintro a b ⟨u, hu, hb⟩ hsome
    rw [lookup_bind] at hu hsome
    split at hu
    · cases hu
      have hne : b ≠ v := fun e => hv (by rwa [e] at hb)
      rw [if_neg hne, ht b hb] at hsome
      cases hsome
    · exact ⟨u, hu, hb⟩
  induction h with
  | single h => exact .single (hedge h hy)
  | tail _ hbc ih => exact (ih hbc.isSome).tail (hedge hbc hy)

theorem Acyclic.bind (h : σ.Acyclic) {v : TypeVar} {t : Ty} (hv : v ∉ t.vars)
    (ht : ∀ w ∈ t.vars, σ.lookup w = none) : (σ.bind v t).Acyclic := by
  intro x hx
  obtain ⟨w, hxw, _⟩ := Relation.TransGen.head'_iff.mp hx
  exact h x (transGen_of_bind hv ht hx hxw.isSome)

end PlusCalTyping.Substitution
