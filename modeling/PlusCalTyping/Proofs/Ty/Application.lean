import PlusCalTyping.Proofs.Ty.Evaluation
import Mathlib.Logic.Function.Iterate

/-! # Applying acyclic substitutions

A substitution that is built up binding by binding keeps the last type that a
variable was bound to (`lookup_ofBindings`). Where no variable reaches itself,
three readings of "put all bindings in" are one: the recursion that follows
bindings for as long as there are any ends with what `apply` gives; rounds that
replace all bound variables at once by their direct bindings reach it and then
change nothing more; and the variables that are left are the unbound ones that
bindings lead to.
-/

namespace PlusCalTyping.Substitution

/-- The substitution that binding the variables one after another gives. -/
def ofBindings (bs : List (TypeVar × Ty)) : Substitution :=
  bs.foldl (fun σ b => σ.bind b.1 b.2) empty

/-- Replace all bound variables at once by their direct bindings. -/
def round (σ : Substitution) (t : Ty) : Ty := t.subst σ.step

variable {σ : Substitution}

/-! ## Bindings in sequence -/

theorem lookup_foldl_bind (bs : List (TypeVar × Ty)) (σ : Substitution) (v : TypeVar) :
    (bs.foldl (fun σ b => σ.bind b.1 b.2) σ).lookup v =
      ((bs.reverse.find? fun b => b.1 = v).map (·.2)).or (σ.lookup v) := by
  induction bs generalizing σ with
  | nil => rfl
  | cons b bs ih =>
    rw [List.foldl_cons, ih, lookup_bind, List.reverse_cons, List.find?_append]
    cases bs.reverse.find? fun b => b.1 = v with
    | some b' => rfl
    | none =>
      by_cases hv : v = b.1
      · simp [hv]
      · simp [hv, Ne.symm hv]

/-- The last binding of a variable is the one that counts. -/
theorem lookup_ofBindings (bs : List (TypeVar × Ty)) (v : TypeVar) :
    (ofBindings bs).lookup v = (bs.reverse.find? fun b => b.1 = v).map (·.2) := by
  rw [ofBindings, lookup_foldl_bind, lookup_empty, Option.or_none]

/-! ## Variables that are left -/

theorem mem_vars_step_iff {v w : TypeVar} :
    w ∈ (σ.step v).vars ↔ σ.Points v w ∨ σ.lookup v = none ∧ w = v := by
  unfold step Points
  cases σ.lookup v with
  | none => simp [Ty.vars]
  | some t => simp

theorem reachable_of_mem_vars_expand {n : Nat} {t : Ty} {w : TypeVar}
    (hw : w ∈ (σ.expand n t).vars) : ∃ v ∈ t.vars, Relation.ReflTransGen σ.Points v w := by
  induction n generalizing w with
  | zero => exact ⟨w, hw, .refl⟩
  | succ n ih =>
    rw [expand_succ, Ty.vars_subst, List.mem_flatMap] at hw
    obtain ⟨u, hu, hw⟩ := hw
    obtain ⟨v, hv, hvu⟩ := ih hu
    rcases mem_vars_step_iff.mp hw with huw | ⟨_, rfl⟩
    · exact ⟨v, hv, hvu.tail huw⟩
    · exact ⟨v, hv, hvu⟩

/-- Where bindings lead from a variable of a type, they lead from what it is
bound to as well, so an unbound variable at the end is never lost. -/
theorem Acyclic.mem_vars_value (hσ : σ.Acyclic) {v w : TypeVar}
    (h : Relation.ReflTransGen σ.Points v w) (hw : σ.lookup w = none) : w ∈ (σ.value v).vars := by
  induction h using Relation.ReflTransGen.head_induction_on with
  | refl =>
    rw [value, apply_eq_self fun u hu => by rwa [List.mem_singleton.mp hu]]
    exact List.mem_singleton_self w
  | head huv _ ih =>
    obtain ⟨t, ht, hv⟩ := huv
    rw [hσ.value_of_lookup ht, apply_eq_subst, Ty.vars_subst]
    exact List.mem_flatMap.mpr ⟨_, hv, ih⟩

theorem Acyclic.mem_vars_apply_iff (hσ : σ.Acyclic) {t : Ty} {w : TypeVar} :
    w ∈ (σ.apply t).vars ↔
      σ.lookup w = none ∧ ∃ v ∈ t.vars, Relation.ReflTransGen σ.Points v w := by
  constructor
  · exact fun hw => ⟨hσ.lookup_eq_none_of_mem_apply hw, reachable_of_mem_vars_expand hw⟩
  · rintro ⟨hw, v, hv, hvw⟩
    rw [apply_eq_subst, Ty.vars_subst]
    exact List.mem_flatMap.mpr ⟨v, hv, hσ.mem_vars_value hvw hw⟩

/-! ## Rounds -/

theorem round_iterate (σ : Substitution) (n : Nat) (t : Ty) : σ.round^[n] t = σ.expand n t := by
  induction n with
  | zero => rfl
  | succ n ih => rw [Function.iterate_succ_apply', ih, expand_succ, round]

theorem Acyclic.round_apply (hσ : σ.Acyclic) (t : Ty) : σ.round (σ.apply t) = σ.apply t :=
  Ty.subst_eq_self fun v hv => by
    rw [step, hσ.lookup_eq_none_of_mem_apply hv, Option.getD_none]

/-- As many rounds as there are bindings are enough. -/
theorem Acyclic.round_iterate_eq_apply (hσ : σ.Acyclic) {n : Nat} (hn : σ.size ≤ n) (t : Ty) :
    σ.round^[n] t = σ.apply t := by
  obtain ⟨k, rfl⟩ := Nat.exists_eq_add_of_le' hn
  rw [Function.iterate_add_apply, round_iterate σ σ.size t]
  exact Function.iterate_fixed (hσ.round_apply t) k

/-- The rounds stand still exactly where they have reached what `apply` gives. -/
theorem Acyclic.round_iterate_fixed_iff (hσ : σ.Acyclic) (n : Nat) (t : Ty) :
    σ.round (σ.round^[n] t) = σ.round^[n] t ↔ σ.round^[n] t = σ.apply t := by
  constructor
  · intro h
    have hstays := Function.iterate_fixed h σ.size
    rw [← Function.iterate_add_apply] at hstays
    rw [← hstays, hσ.round_iterate_eq_apply (Nat.le_add_right _ _)]
  · intro h
    rw [h, hσ.round_apply]

/-! ## Substitutions from bindings -/

theorem apply_ofBindings (bs : List (TypeVar × Ty)) (hσ : (ofBindings bs).Acyclic) (t : Ty) :
    let σ := ofBindings bs
    (∀ v, σ.lookup v = (bs.reverse.find? fun b => b.1 = v).map (·.2)) ∧
      (∀ u, σ.Evaluates t u ↔ u = σ.apply t) ∧
      (∀ w, w ∈ (σ.apply t).vars ↔
        σ.lookup w = none ∧ ∃ v ∈ t.vars, Relation.ReflTransGen σ.Points v w) ∧
      σ.apply (σ.apply t) = σ.apply t ∧
      (∃ n, ∀ m ≥ n, σ.round^[m] t = σ.apply t) ∧
      ∀ n, σ.round (σ.round^[n] t) = σ.round^[n] t ↔ σ.round^[n] t = σ.apply t := by
  intro σ
  refine ⟨lookup_ofBindings bs, fun _ => hσ.evaluates_iff, fun _ => hσ.mem_vars_apply_iff,
    hσ.apply_apply t, ⟨σ.size, fun _ hm => hσ.round_iterate_eq_apply hm t⟩, fun n => ?_⟩
  exact hσ.round_iterate_fixed_iff n t

/-- A variable is bound twice, and from its last type a chain leads over a shared
variable to one without a binding. -/
theorem apply_ofBindings_overwritten_chained :
    let pair (v : TypeVar) : Ty := .tuple [.var v, .var v] .none
    let bs : List (TypeVar × Ty) :=
      [(⟨0⟩, .set (.var ⟨5⟩) .none), (⟨0⟩, pair ⟨1⟩), (⟨1⟩, pair ⟨2⟩), (⟨2⟩, .var ⟨3⟩)]
    let σ := ofBindings bs
    let t : Ty := .map (.var ⟨0⟩) (.var ⟨4⟩) .none
    let full : Ty := .map (.tuple [pair ⟨3⟩, pair ⟨3⟩] .none) (.var ⟨4⟩) .none
    σ.Acyclic ∧ σ.Evaluates t full ∧ (∃ n, ∀ m ≥ n, σ.round^[m] t = full) ∧
      σ.round^[2] t ≠ full ∧ σ.round (σ.round^[2] t) ≠ σ.round^[2] t := by
  intro pair bs σ t full
  have hσ : σ.Acyclic := by
    refine (((acyclic_empty.bind ?_ ?_).bind ?_ ?_).bind ?_ ?_).bind ?_ ?_ <;>
      decide
  obtain ⟨_, hevaluates, _, _, hreached, hfixed⟩ := apply_ofBindings bs hσ t
  have hfull : full = σ.apply t := rfl
  have hmissed : σ.round^[2] t ≠ full := fun h => absurd (congrArg Ty.vars h) (by decide)
  refine ⟨hσ, (hevaluates full).mpr hfull, hfull ▸ hreached, hmissed, ?_⟩
  rwa [ne_eq, hfixed, ← hfull]

end PlusCalTyping.Substitution
