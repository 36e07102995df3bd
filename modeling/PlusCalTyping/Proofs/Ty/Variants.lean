import PlusCalTyping.Proofs.Ty.Agreement
import PlusCalTyping.Ty.Display
import Mathlib.Data.List.Basic
import Mathlib.Tactic.Choose

/-! # Variants

Two types are variants when each is an instance of the other. Then they differ
in the choice of variables only (`Variant.exists_renaming`): one becomes the
other by a renaming that keeps different variables different. Nothing that users
see of a type tells variants apart: they are written alike and have the same
parts still to determine (`Variant.display_eq`, `Variant.ground_agrees`).
-/

namespace PlusCalTyping.Ty

/-- Each type is an instance of the other. -/
def Variant (s t : Ty) : Prop :=
  (∃ f : TypeVar → Ty, (s.subst f).agrees t) ∧ ∃ g : TypeVar → Ty, (t.subst g).agrees s

variable {s t : Ty}

theorem Variant.symm (h : s.Variant t) : t.Variant s := ⟨h.2, h.1⟩

theorem eq_var_of_agrees {v : TypeVar} (h : t.agrees (var v)) : t = var v := by
  cases t with
  | var w => exact congrArg var (of_decide_eq_true h)
  | _ => cases h

mutual

/-- Where two substitutions agree on a type, they agree on its variables. -/
theorem agrees_of_subst_agrees {f g : TypeVar → Ty} {v : TypeVar} :
    (t : Ty) → (t.subst f).agrees (t.subst g) → v ∈ t.vars → (f v).agrees (g v)
  | prim _ _, _, hv | unresolved _, _, hv => nomatch hv
  | var w, h, hv => by
    rw [List.mem_singleton.mp hv]
    exact h
  | set elem _, h, hv => agrees_of_subst_agrees elem h hv
  | tuple elems _, h, hv | procedure elems _, h, hv => agrees_of_substList_agrees elems h hv
  | map key value _, h, hv => by
    obtain ⟨hk, hw⟩ := agrees_map_iff.mp h
    rcases List.mem_append.mp hv with hv | hv
    · exact agrees_of_subst_agrees key hk hv
    · exact agrees_of_subst_agrees value hw hv
  | operator params result _, h, hv => by
    obtain ⟨hp, hr⟩ := Bool.and_eq_true_iff.mp h
    rcases List.mem_append.mp hv with hv | hv
    · exact agrees_of_substList_agrees params hp hv
    · exact agrees_of_subst_agrees result hr hv

theorem agrees_of_substList_agrees {f g : TypeVar → Ty} {v : TypeVar} :
    (ts : List Ty) → agreesList (substList f ts) (substList g ts) → v ∈ varsList ts →
      (f v).agrees (g v)
  | [], _, hv => nomatch hv
  | t :: ts, h, hv => by
    obtain ⟨ht, hts⟩ := Bool.and_eq_true_iff.mp h
    rcases List.mem_append.mp hv with hv | hv
    · exact agrees_of_subst_agrees t ht hv
    · exact agrees_of_substList_agrees ts hts hv

end

/-- Different variables of the type get different names. -/
def Renames (ρ : TypeVar → TypeVar) (vs : List TypeVar) : Prop :=
  ∀ v ∈ vs, ∀ w ∈ vs, ρ v = ρ w → v = w

theorem Variant.exists_renaming (h : s.Variant t) :
    ∃ ρ, Renames ρ s.vars ∧ (s.subst (var ∘ ρ)).agrees t := by
  obtain ⟨⟨f, hf⟩, g, hg⟩ := h
  have hback : (s.subst fun v => (f v).subst g).agrees (s.subst var) := by
    rw [← subst_subst, subst_var]
    exact agrees_trans (subst_agrees hf) hg
  -- What is put in for a variable goes back to that variable, so it is one.
  have hvar : ∀ v, ∃ w, v ∈ s.vars → f v = var w ∧ g w = var v := by
    intro v
    by_cases hv : v ∈ s.vars
    · have heq := eq_var_of_agrees (agrees_of_subst_agrees s hback hv)
      cases hfv : f v with
      | var w =>
        rw [hfv] at heq
        exact ⟨w, fun _ => ⟨rfl, heq⟩⟩
      | _ =>
        rw [hfv] at heq
        cases heq
    · exact ⟨v, fun hv' => absurd hv' hv⟩
  choose ρ hρ using hvar
  refine ⟨ρ, fun v hv w hw heq => ?_, ?_⟩
  · have hgv := (hρ v hv).2
    rw [heq, (hρ w hw).2] at hgv
    exact (var.inj hgv).symm
  · rwa [show s.subst (var ∘ ρ) = s.subst f from subst_congr s fun v hv => (hρ v hv).1.symm]

theorem vars_subst_var (ρ : TypeVar → TypeVar) (t : Ty) :
    (t.subst (var ∘ ρ)).vars = t.vars.map ρ := by
  rw [vars_subst, List.map_eq_flatMap]
  rfl

theorem Variant.vars_eq_nil_iff (h : s.Variant t) : s.vars = [] ↔ t.vars = [] := by
  obtain ⟨ρ, _, hρ⟩ := h.exists_renaming
  rw [← vars_eq_of_agrees hρ, vars_subst_var, List.map_eq_nil_iff]

theorem Variant.containsVars_eq (h : s.Variant t) : s.containsVars = t.containsVars := by
  rw [containsVars, containsVars, Bool.eq_iff_iff]
  simp only [Bool.not_eq_true', List.isEmpty_eq_false_iff]
  exact not_congr h.vars_eq_nil_iff

theorem Variant.agrees (h : s.Variant t) (hs : s.vars = []) : s.agrees t := by
  obtain ⟨⟨f, hf⟩, _⟩ := h
  rwa [subst_eq_self fun v hv => by rw [hs] at hv; cases hv] at hf

theorem Variant.ground_agrees (h : s.Variant t) : s.ground.agrees t.ground := by
  obtain ⟨ρ, _, hρ⟩ := h.exists_renaming
  have hsubst : (s.subst (var ∘ ρ)).ground = s.ground := subst_subst _ _ s
  rw [← hsubst]
  exact subst_agrees hρ

/-! ## Writing variants -/

mutual

theorem render_bare (name : TypeVar → String) : (t : Ty) → t.bare.render name = t.render name
  | prim _ _ | var _ | unresolved _ => rfl
  | set elem _ => by simp only [render, bare, render_bare name elem]
  | tuple elems _ => by simp only [render, bare, renderList_bare name elems]
  | map key value _ => by simp only [render, bare, render_bare name key, render_bare name value]
  | procedure params _ => by simp only [render, bare, renderList_bare name params]
  | operator params result _ => by
    simp only [render, bare, renderList_bare name params, render_bare name result]

theorem renderList_bare (name : TypeVar → String) :
    (ts : List Ty) → renderList name (bareList ts) = renderList name ts
  | [] => rfl
  | [t] => render_bare name t
  | t :: u :: ts => by
    have := renderList_bare name (u :: ts)
    rw [bareList] at this
    simp only [bareList, renderList, render_bare name t, this]

end

theorem render_eq_of_agrees (name : TypeVar → String) (h : s.agrees t) :
    s.render name = t.render name := by
  rw [← render_bare, (agrees_iff s t).mp h, render_bare]

mutual

/-- Variables can be renamed before or after they are named. -/
theorem render_subst_var {name name' : TypeVar → String} {ρ : TypeVar → TypeVar} :
    (t : Ty) → (∀ v ∈ t.vars, name (ρ v) = name' v) →
      (t.subst (var ∘ ρ)).render name = t.render name'
  | prim _ _, _ | unresolved _, _ => rfl
  | var v, h => h v (List.mem_singleton_self v)
  | set elem _, h => by simp only [subst, render, render_subst_var elem h]
  | tuple elems _, h => by simp only [subst, render, renderList_substList_var elems h]
  | map key value _, h => by
    simp only [subst, render, render_subst_var key fun v hv => h v (List.mem_append_left _ hv),
      render_subst_var value fun v hv => h v (List.mem_append_right _ hv)]
  | procedure params _, h => by simp only [subst, render, renderList_substList_var params h]
  | operator params result _, h => by
    simp only [subst, render,
      renderList_substList_var params fun v hv => h v (List.mem_append_left _ hv),
      render_subst_var result fun v hv => h v (List.mem_append_right _ hv)]

theorem renderList_substList_var {name name' : TypeVar → String} {ρ : TypeVar → TypeVar} :
    (ts : List Ty) → (∀ v ∈ varsList ts, name (ρ v) = name' v) →
      renderList name (substList (var ∘ ρ) ts) = renderList name' ts
  | [], _ => rfl
  | [t], h => render_subst_var t fun v hv => h v (List.mem_append_left _ hv)
  | t :: u :: ts, h => by
    have := renderList_substList_var (u :: ts) fun v hv => h v (List.mem_append_right _ hv)
    rw [substList] at this
    simp only [substList, renderList, this,
      render_subst_var t fun v hv => h v (List.mem_append_left _ hv)]

end

theorem eraseDups_map {ρ : TypeVar → TypeVar} :
    (vs : List TypeVar) → Renames ρ vs → (vs.map ρ).eraseDups = vs.eraseDups.map ρ
  | [], _ => rfl
  | v :: vs, h => by
    have hrest : Renames ρ (vs.filter fun w => !w == v) := fun w hw x hx =>
      h w (List.mem_cons_of_mem v (List.mem_filter.mp hw).1) x
        (List.mem_cons_of_mem v (List.mem_filter.mp hx).1)
    have hfilter : (vs.map ρ).filter (fun w => !w == ρ v) = (vs.filter fun w => !w == v).map ρ := by
      rw [List.filter_map]
      congr 1
      refine List.filter_congr fun w hw => ?_
      have := h w (List.mem_cons_of_mem v hw) v List.mem_cons_self
      grind
    rw [List.map_cons, List.eraseDups_cons, List.eraseDups_cons, List.map_cons, hfilter,
      eraseDups_map _ hrest]
termination_by vs => vs.length
decreasing_by exact Nat.lt_succ_of_le (List.length_filter_le _ vs)

theorem idxOf_map {ρ : TypeVar → TypeVar} {vs : List TypeVar} (h : Renames ρ vs) {v : TypeVar}
    (hv : v ∈ vs) : (vs.map ρ).idxOf (ρ v) = vs.idxOf v := by
  induction vs with
  | nil => cases hv
  | cons w vs ih =>
    by_cases hwv : w = v
    · rw [hwv, List.map_cons, List.idxOf_cons_self, List.idxOf_cons_self]
    · have hne : ρ w ≠ ρ v := fun heq => hwv (h w List.mem_cons_self v hv heq)
      have hmem : v ∈ vs := (List.mem_cons.mp hv).resolve_left (Ne.symm hwv)
      rw [List.map_cons, List.idxOf_cons_ne _ hne, List.idxOf_cons_ne _ hwv,
        ih (fun x hx y hy => h x (List.mem_cons_of_mem w hx) y (List.mem_cons_of_mem w hy)) hmem]

/-- A type is written alike after its variables and those that letters are given
for are renamed. -/
theorem render_letterIn {ρ : TypeVar → TypeVar} {vs : List TypeVar} (h : Renames ρ vs) (t : Ty)
    (ht : t.vars ⊆ vs) :
    (t.subst (var ∘ ρ)).render (letterIn (vs.map ρ).eraseDups) =
      t.render (letterIn vs.eraseDups) := by
  have hdups : Renames ρ vs.eraseDups :=
    fun v hv w hw => h v (List.mem_eraseDups.mp hv) w (List.mem_eraseDups.mp hw)
  refine render_subst_var t fun v hv => ?_
  rw [eraseDups_map _ h, letterIn, letterIn, idxOf_map hdups (List.mem_eraseDups.mpr (ht hv))]

theorem display_subst_var {ρ : TypeVar → TypeVar} {t : Ty} (h : Renames ρ t.vars) :
    (t.subst (var ∘ ρ)).display = t.display := by
  rw [display, display, vars_subst_var]
  exact render_letterIn h t (List.Subset.refl _)

theorem displayPair_subst_var {ρ : TypeVar → TypeVar} (h : Renames ρ (s.vars ++ t.vars)) :
    displayPair (s.subst (var ∘ ρ)) (t.subst (var ∘ ρ)) = displayPair s t := by
  simp only [displayPair, vars_subst_var, ← List.map_append,
    render_letterIn h s (List.subset_append_left _ _),
    render_letterIn h t (List.subset_append_right _ _)]

/-- Letters hide how variables are called. -/
theorem Variant.display_eq (h : s.Variant t) : s.display = t.display := by
  obtain ⟨ρ, hrenames, hρ⟩ := h.exists_renaming
  rw [← display_subst_var hrenames, display, display, vars_eq_of_agrees hρ,
    render_eq_of_agrees _ hρ]

end PlusCalTyping.Ty
