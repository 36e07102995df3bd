import PlusCalTyping.Ty.Basic

/-! # Agreement under substitution

Agreement is an equivalence that substitution respects in the type and in the
types put in. Types without undetermined parts stay so when such types are put
in. A variable never agrees with a larger type that contains it.
-/

namespace PlusCalTyping.Ty

theorem agrees_refl (t : Ty) : t.agrees t := (agrees_iff t t).mpr rfl

theorem agrees_symm {s t : Ty} (h : s.agrees t) : t.agrees s :=
  (agrees_iff t s).mpr ((agrees_iff s t).mp h).symm

theorem agrees_trans {s t u : Ty} (h : s.agrees t) (h' : t.agrees u) : s.agrees u :=
  (agrees_iff s u).mpr (((agrees_iff s t).mp h).trans ((agrees_iff t u).mp h'))

theorem agrees_comm {s t : Ty} : s.agrees t ↔ t.agrees s := ⟨agrees_symm, agrees_symm⟩

theorem agrees_congr {s s' t t' : Ty} (hs : s.agrees s') (ht : t.agrees t') :
    s.agrees t ↔ s'.agrees t' :=
  ⟨fun h => agrees_trans (agrees_symm hs) (agrees_trans h ht),
    fun h => agrees_trans hs (agrees_trans h (agrees_symm ht))⟩

mutual

theorem bare_subst (f : TypeVar → Ty) :
    (t : Ty) → (subst f t).bare = subst (fun v => (f v).bare) t.bare
  | prim _ _ | var _ | unresolved _ => rfl
  | set elem _ => by simp only [subst, bare, bare_subst f elem]
  | tuple elems _ => by simp only [subst, bare, bareList_subst f elems]
  | map key value _ => by simp only [subst, bare, bare_subst f key, bare_subst f value]
  | procedure params _ => by simp only [subst, bare, bareList_subst f params]
  | operator params result _ => by
    simp only [subst, bare, bareList_subst f params, bare_subst f result]

theorem bareList_subst (f : TypeVar → Ty) :
    (ts : List Ty) → bareList (substList f ts) = substList (fun v => (f v).bare) (bareList ts)
  | [] => rfl
  | t :: ts => by simp only [substList, bareList, bare_subst f t, bareList_subst f ts]

end

mutual

theorem vars_bare : (t : Ty) → t.bare.vars = t.vars
  | prim _ _ | var _ | unresolved _ => rfl
  | set elem _ => by simp only [vars, bare, vars_bare elem]
  | tuple elems _ => by simp only [vars, bare, varsList_bare elems]
  | map key value _ => by simp only [vars, bare, vars_bare key, vars_bare value]
  | procedure params _ => by simp only [vars, bare, varsList_bare params]
  | operator params result _ => by
    simp only [vars, bare, varsList_bare params, vars_bare result]

theorem varsList_bare : (ts : List Ty) → varsList (bareList ts) = varsList ts
  | [] => rfl
  | t :: ts => by simp only [varsList, bareList, vars_bare t, varsList_bare ts]

end

mutual

theorem size_bare : (t : Ty) → t.bare.size = t.size
  | prim _ _ | var _ | unresolved _ => rfl
  | set elem _ => by simp only [size, bare, size_bare elem]
  | tuple elems _ => by simp only [size, bare, sizeList_bare elems]
  | map key value _ => by simp only [size, bare, size_bare key, size_bare value]
  | procedure params _ => by simp only [size, bare, sizeList_bare params]
  | operator params result _ => by
    simp only [size, bare, sizeList_bare params, size_bare result]

theorem sizeList_bare : (ts : List Ty) → sizeList (bareList ts) = sizeList ts
  | [] => rfl
  | t :: ts => by simp only [sizeList, bareList, size_bare t, sizeList_bare ts]

end

theorem vars_eq_of_agrees {s t : Ty} (h : s.agrees t) : s.vars = t.vars := by
  rw [← vars_bare s, (agrees_iff s t).mp h, vars_bare]

theorem size_eq_of_agrees {s t : Ty} (h : s.agrees t) : s.size = t.size := by
  rw [← size_bare s, (agrees_iff s t).mp h, size_bare]

theorem subst_agrees {f : TypeVar → Ty} {s t : Ty} (h : s.agrees t) :
    (s.subst f).agrees (t.subst f) := by
  rw [agrees_iff, bare_subst, bare_subst, (agrees_iff s t).mp h]

theorem subst_agrees_subst {f g : TypeVar → Ty} (t : Ty)
    (h : ∀ v ∈ t.vars, (f v).agrees (g v)) : (t.subst f).agrees (t.subst g) := by
  rw [agrees_iff, bare_subst, bare_subst]
  refine subst_congr _ fun v hv => ?_
  rw [vars_bare] at hv
  exact (agrees_iff _ _).mp (h v hv)

theorem subst_eq_self {f : TypeVar → Ty} {t : Ty} (h : ∀ v ∈ t.vars, f v = var v) :
    t.subst f = t :=
  (subst_congr t h).trans (subst_var t)

theorem agrees_map_iff {k l v w : Ty} {o o' : Origins} :
    (map k v o).agrees (map l w o') ↔ k.agrees l ∧ v.agrees w := Bool.and_eq_true_iff

theorem agreesList_iff_zip {ss ts : List Ty} :
    agreesList ss ts ↔ ss.length = ts.length ∧ ∀ p ∈ ss.zip ts, p.1.agrees p.2 := by
  induction ss generalizing ts with
  | nil => cases ts <;> simp [agreesList]
  | cons s ss ih =>
    cases ts with
    | nil => simp [agreesList]
    | cons t ts =>
      simp only [agreesList, Bool.and_eq_true, ih, List.length_cons, Nat.add_right_cancel_iff,
        List.zip_cons_cons, List.forall_mem_cons]
      exact and_left_comm

mutual

/-- What is put in for a variable is at most as large as the whole, and
smaller unless the whole is the variable itself. -/
theorem size_le_size_subst (f : TypeVar → Ty) {v : TypeVar} :
    (t : Ty) → v ∈ t.vars → (f v).size + (if t.isVar then 0 else 1) ≤ (subst f t).size
  | prim _ _, h | unresolved _, h => nomatch h
  | var w, h => by
    rw [List.mem_singleton.mp h]
    exact Nat.le_refl _
  | set elem _, h => by
    have := size_le_size_subst f elem h
    simp only [isVar, subst, size] at this ⊢
    grind
  | tuple elems _, h | procedure elems _, h => by
    have := size_le_sizeList_subst f elems h
    simp only [isVar, subst, size] at this ⊢
    grind
  | map key value _, h => by
    simp only [isVar, subst, size]
    rcases List.mem_append.mp h with h | h
    · have := size_le_size_subst f key h
      grind
    · have := size_le_size_subst f value h
      grind
  | operator params result _, h => by
    simp only [isVar, subst, size]
    rcases List.mem_append.mp h with h | h
    · have := size_le_sizeList_subst f params h
      grind
    · have := size_le_size_subst f result h
      grind

theorem size_le_sizeList_subst (f : TypeVar → Ty) {v : TypeVar} :
    (ts : List Ty) → v ∈ varsList ts → (f v).size ≤ sizeList (substList f ts)
  | [], h => nomatch h
  | t :: ts, h => by
    simp only [substList, sizeList]
    rcases List.mem_append.mp h with h | h
    · have := size_le_size_subst f t h
      omega
    · have := size_le_sizeList_subst f ts h
      omega

end

/-- A variable cannot be given a type that makes it agree with a type around it. -/
theorem not_agrees_subst_of_mem {f : TypeVar → Ty} {v : TypeVar} {t : Ty} (hv : v ∈ t.vars)
    (ht : t.isVar = false) : ¬(f v).agrees (t.subst f) := by
  intro h
  have hsize := size_eq_of_agrees h
  have := size_le_size_subst f t hv
  rw [ht] at this
  simp at this
  omega

/-- No part of the type is marked as impossible to determine. -/
def Determined (t : Ty) : Prop := t.containsUnresolved = false

instance (t : Ty) : Decidable t.Determined := inferInstanceAs (Decidable (_ = _))

theorem containsUnresolvedList_eq (ts : List Ty) :
    containsUnresolvedList ts = ts.any containsUnresolved := by
  induction ts with
  | nil => rfl
  | cons t ts ih => rw [containsUnresolvedList, ih, List.any_cons]

theorem determined_list_iff {ts : List Ty} :
    containsUnresolvedList ts = false ↔ ∀ t ∈ ts, t.Determined := by
  rw [containsUnresolvedList_eq, List.any_eq_false]
  simp only [Determined, Bool.not_eq_true]

theorem determined_prim (p : Prim) (o : Origins) : (prim p o).Determined := rfl

theorem determined_var (v : TypeVar) : (var v).Determined := rfl

theorem determined_set {t : Ty} {o : Origins} : (set t o).Determined ↔ t.Determined := Iff.rfl

theorem determined_tuple {ts : List Ty} {o : Origins} :
    (tuple ts o).Determined ↔ ∀ t ∈ ts, t.Determined := determined_list_iff

theorem determined_map {s t : Ty} {o : Origins} :
    (map s t o).Determined ↔ s.Determined ∧ t.Determined := Bool.or_eq_false_iff

theorem determined_procedure {ts : List Ty} {o : Origins} :
    (procedure ts o).Determined ↔ ∀ t ∈ ts, t.Determined := determined_list_iff

theorem determined_operator {ts : List Ty} {t : Ty} {o : Origins} :
    (operator ts t o).Determined ↔ (∀ t ∈ ts, t.Determined) ∧ t.Determined :=
  Bool.or_eq_false_iff.trans (and_congr_left' determined_list_iff)

theorem not_determined_unresolved (o : Origins) : ¬(unresolved o).Determined := Bool.noConfusion

mutual

theorem determined_subst {f : TypeVar → Ty} (hf : ∀ v, (f v).Determined) :
    (t : Ty) → t.Determined → (subst f t).Determined
  | prim _ _, _ => rfl
  | var v, _ => hf v
  | set elem _, h => determined_subst hf elem h
  | tuple elems _, h => determined_substList hf elems h
  | map key value _, h =>
    determined_map.mpr ⟨determined_subst hf key (determined_map.mp h).1,
      determined_subst hf value (determined_map.mp h).2⟩
  | procedure params _, h => determined_substList hf params h
  | operator params result _, h =>
    have h := Bool.or_eq_false_iff.mp h
    Bool.or_eq_false_iff.mpr
      ⟨determined_substList hf params h.1, determined_subst hf result h.2⟩
  | unresolved o, h => absurd h (not_determined_unresolved o)

theorem determined_substList {f : TypeVar → Ty} (hf : ∀ v, (f v).Determined) :
    (ts : List Ty) → containsUnresolvedList ts = false →
      containsUnresolvedList (substList f ts) = false
  | [], _ => rfl
  | t :: ts, h =>
    have h := Bool.or_eq_false_iff.mp h
    Bool.or_eq_false_iff.mpr ⟨determined_subst hf t h.1, determined_substList hf ts h.2⟩

end

end PlusCalTyping.Ty
