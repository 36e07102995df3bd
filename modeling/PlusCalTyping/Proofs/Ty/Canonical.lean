import PlusCalTyping.Proofs.Text.Items
import PlusCalTyping.Proofs.Ty.Variants
import Mathlib.Data.Set.Function

/-! # The written form is canonical

Users see a type with letters for its variables, given in order of appearance.
This hides how the variables are called and nothing else: types are written alike
exactly if a bijection between their variables makes one of the other, and pairs of
types exactly if one bijection does so for both (`displays_eq_iff`).

The text of a type under a naming by words that start with a small letter can be
read in one way only (`told_render`), and letters are such words (`lettering`).
-/

namespace PlusCalTyping

open Text

theorem Prim.isWord_name (p : Prim) : IsWord p.name := by
  cases p <;> simp [IsWord, Prim.name]

theorem Prim.name_injective : Function.Injective Prim.name := by
  intro p q h
  cases p <;> cases q <;> first | rfl | exact absurd h (by decide)

namespace Ty

/-! ## Letters -/

theorem toList_letterName (i : Nat) :
    (letterName i).toList =
      Char.ofNat (97 + i % 26) :: if i < 26 then [] else Nat.toDigits 10 (i / 26) := by
  unfold letterName
  split
  · exact String.toList_singleton _
  · rw [String.toList_append, String.toList_singleton]
    exact congrArg (Char.ofNat (97 + i % 26) :: ·) Nat.toList_repr

theorem letterName_injective : Function.Injective letterName := by
  intro i j h
  have hlist := congrArg String.toList h
  rw [toList_letterName, toList_letterName] at hlist
  obtain ⟨hletter, hnumber⟩ := List.cons.inj hlist
  have hmod : i % 26 = j % 26 := by
    have hletters : ∀ m < 26, ∀ n < 26, Char.ofNat (97 + m) = Char.ofNat (97 + n) → m = n := by
      decide
    exact hletters _ (Nat.mod_lt i (by decide)) _ (Nat.mod_lt j (by decide)) hletter
  have hdiv : i / 26 = j / 26 := by
    split at hnumber <;> split at hnumber
    · omega
    · exact absurd hnumber.symm Nat.toDigits_ne_nil
    · exact absurd hnumber Nat.toDigits_ne_nil
    · have hread := congrArg (Nat.ofDigitChars 10 · 0) hnumber
      rwa [Nat.ofDigitChars_ten_toDigits, Nat.ofDigitChars_ten_toDigits] at hread
  omega

/-- Different variables have different names, and these are words that start with a
small letter. -/
structure Lettering (name : TypeVar → String) : Prop where
  injective : Function.Injective name
  isWord : ∀ v, IsWord (name v)
  isLower : ∀ v, ∃ c, (name v).toList.head? = some c ∧ c.isLower

theorem lettering : Lettering fun v => letterName v.index where
  injective v w h := by
    cases v
    cases w
    exact congrArg TypeVar.mk (letterName_injective h)
  isWord v c hc := by
    rw [toList_letterName] at hc
    have hletters : ∀ n < 26, (Char.ofNat (97 + n)).isAlphanum := by decide
    rcases List.mem_cons.mp hc with rfl | hc
    · exact hletters _ (Nat.mod_lt _ (by decide))
    · split at hc
      · cases hc
      · exact isAlphanum_of_mem_toDigits hc
  isLower v := by
    have hletters : ∀ n < 26, (Char.ofNat (97 + n)).isLower := by decide
    rw [toList_letterName]
    exact ⟨_, rfl, hletters _ (Nat.mod_lt _ (by decide))⟩

/-! ## Reading a type -/

variable {name : TypeVar → String}

theorem renderList_eq (name : TypeVar → String) (ts : List Ty) :
    renderList name ts = ", ".intercalate (ts.map (render name)) := by
  induction ts with
  | nil => rfl
  | cons t ts ih =>
    cases ts with
    | nil => rfl
    | cons u ts => simp only [renderList, ih, List.map_cons, String.intercalate_cons_cons]

/-- Only the names of variables start with a small letter. -/
theorem head?_render (hn : Lettering name) (t : Ty) :
    ∃ c, (t.render name).toList.head? = some c ∧ c.isLower = t.isVar ∧ c ∉ marks := by
  cases t with
  | var v =>
    obtain ⟨c, hhead, hlower⟩ := hn.isLower v
    refine ⟨c, hhead, hlower, fun hmark => ?_⟩
    exact not_isAlphanum_of_mem_marks hmark (hn.isWord v c (List.mem_of_head? hhead))
  | prim p _ =>
    have hname : ∃ c, p.name.toList.head? = some c ∧ c.isLower = false ∧ c ∉ marks := by
      cases p <;> exact ⟨_, rfl, by decide⟩
    exact hname
  | set elem _ => exact ⟨'S', by simp [render], rfl, by decide⟩
  | tuple elems _ => exact ⟨'T', by simp [render], rfl, by decide⟩
  | map key value _ => exact ⟨'M', by simp [render], rfl, by decide⟩
  | procedure params _ => exact ⟨'F', by simp [render], rfl, by decide⟩
  | operator params result _ => exact ⟨'F', by simp [render], rfl, by decide⟩
  | unresolved _ => exact ⟨'?', by simp [render], rfl, by decide⟩

theorem starts_render (hn : Lettering name) (t : Ty) : Starts (t.render name) := by
  obtain ⟨c, hhead, _, hmark⟩ := head?_render hn t
  exact ⟨c, hhead, hmark⟩

theorem isVar_eq_of_render_append_eq (hn : Lettering name) {t u : Ty} {x y : List Char}
    (h : (t.render name).toList ++ x = (u.render name).toList ++ y) : t.isVar = u.isVar := by
  obtain ⟨c, hc, hct, _⟩ := head?_render hn t
  obtain ⟨d, hd, hdu, _⟩ := head?_render hn u
  have hcd := congrArg List.head? h
  rw [List.head?_append, List.head?_append, hc, hd] at hcd
  rw [← hct, ← hdu, Option.some.inj hcd]

theorem told_prim (p q : Prim) (o o' : Origins) :
    Told (render name) bare (prim p o) (prim q o') := by
  intro x y hx hy h
  have told : Told Prim.name id p q :=
    told_of_isWord p.isWord_name q.isWord_name fun hname => Prim.name_injective hname
  obtain ⟨rfl, hxy⟩ := told hx hy h
  exact ⟨rfl, hxy⟩

theorem told_var (hn : Lettering name) (v w : TypeVar) :
    Told (render name) bare (var v) (var w) := by
  intro x y hx hy h
  have told : Told name id v w :=
    told_of_isWord (hn.isWord v) (hn.isWord w) fun hname => hn.injective hname
  obtain ⟨rfl, hxy⟩ := told hx hy h
  exact ⟨rfl, hxy⟩

theorem told_set {s t : Ty} (hst : Told (render name) bare s t) (o o' : Origins) :
    Told (render name) bare (set s o) (set t o') := by
  intro x y _ _ h
  have h : (s.render name).toList ++ ')' :: x = (t.render name).toList ++ ')' :: y := by
    simpa [render] using h
  obtain ⟨helem, hrest⟩ := hst (stops_cons (by decide)) (stops_cons (by decide)) h
  exact ⟨by rw [bare, bare, helem], (List.cons.inj hrest).2⟩

theorem told_map {k l v w : Ty} (hkl : Told (render name) bare k l)
    (hvw : Told (render name) bare v w) (o o' : Origins) :
    Told (render name) bare (map k v o) (map l w o') := by
  intro x y _ _ h
  have h : (k.render name).toList ++ ',' :: ' ' :: ((v.render name).toList ++ ')' :: x) =
      (l.render name).toList ++ ',' :: ' ' :: ((w.render name).toList ++ ')' :: y) := by
    simpa [render] using h
  obtain ⟨hkey, hrest⟩ := hkl (stops_cons (by decide)) (stops_cons (by decide)) h
  obtain ⟨hvalue, hrest⟩ := hvw (stops_cons (by decide)) (stops_cons (by decide))
    (List.cons.inj (List.cons.inj hrest).2).2
  exact ⟨by rw [bare, bare, hkey, hvalue], (List.cons.inj hrest).2⟩

section Lists

variable {ss ts : List Ty} (hn : Lettering name)
  (told : ∀ s ∈ ss, ∀ t ∈ ts, Told (render name) bare s t)

include hn told

theorem told_renderList {x y : List Char}
    (h : (renderList name ss).toList ++ ')' :: x = (renderList name ts).toList ++ ')' :: y) :
    bareList ss = bareList ts ∧ x = y := by
  rw [renderList_eq, renderList_eq] at h
  rw [bareList_eq, bareList_eq]
  exact told_intercalate rfl (by decide) (by decide) (by decide) (fun s _ => starts_render hn s)
    (fun t _ => starts_render hn t) told h

theorem told_tuple (o o' : Origins) : Told (render name) bare (tuple ss o) (tuple ts o') := by
  intro x y _ _ h
  have h : (renderList name ss).toList ++ ')' :: x = (renderList name ts).toList ++ ')' :: y := by
    simpa [render] using h
  obtain ⟨helems, hxy⟩ := told_renderList hn told h
  exact ⟨by rw [bare, bare, helems], hxy⟩

theorem told_procedure (o o' : Origins) :
    Told (render name) bare (procedure ss o) (procedure ts o') := by
  intro x y _ _ h
  have h : (renderList name ss).toList ++ ')' :: x = (renderList name ts).toList ++ ')' :: y := by
    simpa [render] using h
  obtain ⟨hparams, hxy⟩ := told_renderList hn told h
  exact ⟨by rw [bare, bare, hparams], hxy⟩

/-- What follows a signature without a result is not taken for its result. -/
theorem told_procedure_operator (t : Ty) (o o' : Origins) :
    Told (render name) bare (procedure ss o) (operator ts t o') := by
  intro x y hx _ h
  have h : (renderList name ss).toList ++ ')' :: x =
      (renderList name ts).toList ++ ')' :: ' ' :: ("-> ".toList ++ (t.render name).toList ++ y) := by
    simpa [render] using h
  obtain ⟨_, hxy⟩ := told_renderList hn told h
  rw [hxy] at hx
  exact absurd hx.mem_marks (by decide)

theorem told_operator {s t : Ty} (hst : Told (render name) bare s t) (o o' : Origins) :
    Told (render name) bare (operator ss s o) (operator ts t o') := by
  intro x y hx hy h
  have h : (renderList name ss).toList ++ ')' :: (" -> ".toList ++ ((s.render name).toList ++ x)) =
      (renderList name ts).toList ++ ')' :: (" -> ".toList ++ ((t.render name).toList ++ y)) := by
    simpa [render] using h
  obtain ⟨hparams, hrest⟩ := told_renderList hn told h
  obtain ⟨hresult, hxy⟩ := hst hx hy (List.append_cancel_left hrest)
  exact ⟨by rw [bare, bare, hparams, hresult], hxy⟩

end Lists

mutual

/-- The text of a type can be read in one way only. -/
theorem told_render (hn : Lettering name) : (t : Ty) → ∀ u, Told (render name) bare t u
  | t, u => by
    -- The head of the text tells which kind of type it is, but not whether a
    -- signature has a result.
    intro x y hx hy h
    have hvar := isVar_eq_of_render_append_eq hn h
    cases t with
    | prim p o =>
      cases u with
      | prim q o' => exact told_prim p q o o' hx hy h
      | var _ => cases hvar
      | _ => cases p <;> simp [render, Prim.name] at h
    | var v =>
      cases u with
      | var w => exact told_var hn v w hx hy h
      | _ => cases hvar
    | set s o =>
      cases u with
      | set t o' => exact told_set (told_render hn s t) o o' hx hy h
      | var _ => cases hvar
      | prim q _ => cases q <;> simp [render, Prim.name] at h
      | _ => simp [render] at h
    | tuple ss o =>
      cases u with
      | tuple ts o' =>
        exact told_tuple hn (fun s hs t _ => told_render_mem hn ss s hs t) o o' hx hy h
      | var _ => cases hvar
      | prim q _ => cases q <;> simp [render, Prim.name] at h
      | _ => simp [render] at h
    | map k v o =>
      cases u with
      | map l w o' => exact told_map (told_render hn k l) (told_render hn v w) o o' hx hy h
      | var _ => cases hvar
      | prim q _ => cases q <;> simp [render, Prim.name] at h
      | _ => simp [render] at h
    | procedure ss o =>
      have told (ts : List Ty) : ∀ s ∈ ss, ∀ t ∈ ts, Told (render name) bare s t :=
        fun s hs t _ => told_render_mem hn ss s hs t
      cases u with
      | procedure ts o' => exact told_procedure hn (told ts) o o' hx hy h
      | operator ts t o' => exact told_procedure_operator hn (told ts) t o o' hx hy h
      | var _ => cases hvar
      | prim q _ => cases q <;> simp [render, Prim.name] at h
      | _ => simp [render] at h
    | operator ss s o =>
      have told (ts : List Ty) : ∀ s ∈ ss, ∀ t ∈ ts, Told (render name) bare s t :=
        fun s hs t _ => told_render_mem hn ss s hs t
      cases u with
      | procedure ts o' =>
        exact (told_procedure_operator hn (fun t ht s hs => (told ts s hs t ht).symm) s o' o).symm
          hx hy h
      | operator ts t o' => exact told_operator hn (told ts) (told_render hn s t) o o' hx hy h
      | var _ => cases hvar
      | prim q _ => cases q <;> simp [render, Prim.name] at h
      | _ => simp [render] at h
    | unresolved _ =>
      cases u with
      | unresolved _ => exact ⟨rfl, List.append_cancel_left h⟩
      | var _ => cases hvar
      | prim q _ => cases q <;> simp [render, Prim.name] at h
      | _ => simp [render] at h

theorem told_render_mem (hn : Lettering name) :
    (ts : List Ty) → ∀ t ∈ ts, ∀ u, Told (render name) bare t u
  | [], _, ht => nomatch ht
  | t :: ts, s, hs => by
    rcases List.mem_cons.mp hs with heq | hs
    · exact heq ▸ told_render hn t
    · exact told_render_mem hn ts s hs

end

theorem agrees_of_render_eq (hn : Lettering name) {s t : Ty}
    (h : s.render name = t.render name) : s.agrees t :=
  (agrees_iff s t).mpr ((told_render hn s t).value_eq h)

/-! ## Types that are written alike -/

/-- The variables called by their place in a list. -/
def placed (order : List TypeVar) (v : TypeVar) : TypeVar := ⟨order.idxOf v⟩

theorem render_placed (order : List TypeVar) (t : Ty) :
    (t.subst (var ∘ placed order)).render (fun v => letterName v.index) =
      t.render (letterIn order) :=
  render_subst_var t fun _ _ => rfl

theorem placed_injOn (vs : List TypeVar) : Set.InjOn (placed vs.eraseDups) {v | v ∈ vs} := by
  intro v hv w _ h
  exact (List.idxOf_inj (List.mem_eraseDups.mpr hv)).mp (TypeVar.mk.inj h)

/-- Variables that have the same names are matched by a bijection, which goes from
one variable to its name and from there to the other. -/
theorem exists_bijOn_of_map_eq {f g : TypeVar → TypeVar} {vs ws : List TypeVar}
    (hf : Set.InjOn f {v | v ∈ vs}) (hg : Set.InjOn g {w | w ∈ ws}) (h : vs.map f = ws.map g) :
    ∃ back : TypeVar → TypeVar, (∀ w ∈ ws, back (g w) = w) ∧
      Set.BijOn (back ∘ f) {v | v ∈ vs} {w | w ∈ ws} := by
  have himage : f '' {v | v ∈ vs} = g '' {w | w ∈ ws} := by
    ext u
    rw [show u ∈ f '' {v | v ∈ vs} ↔ u ∈ vs.map f from List.mem_map.symm, h]
    exact List.mem_map
  have hg' := hg.bijOn_image
  refine ⟨Function.invFunOn g {w | w ∈ ws}, fun w hw => hg.leftInvOn_invFunOn hw, ?_⟩
  refine Set.BijOn.comp (hg'.symm hg'.invOn_invFunOn.symm) ?_
  rw [← himage]
  exact hf.bijOn_image

theorem agrees_of_subst_var_agrees {f g back : TypeVar → TypeVar} {s t : Ty}
    (hback : ∀ w ∈ t.vars, back (g w) = w)
    (h : (s.subst (var ∘ f)).agrees (t.subst (var ∘ g))) :
    (s.subst (var ∘ (back ∘ f))).agrees t := by
  have hsubst (k : TypeVar → TypeVar) (u : Ty) :
      (u.subst (var ∘ k)).subst (var ∘ back) = u.subst (var ∘ (back ∘ k)) := subst_subst _ _ u
  have hself : t.subst (var ∘ (back ∘ g)) = t :=
    subst_eq_self fun w hw => congrArg var (hback w hw)
  have hst := subst_agrees (f := var ∘ back) h
  rwa [hsubst, hsubst, hself] at hst

theorem displayPair_eq_of_agrees {s t s' t' : Ty} (hs : s.agrees s') (ht : t.agrees t') :
    displayPair s t = displayPair s' t' := by
  simp only [displayPair, vars_eq_of_agrees hs, vars_eq_of_agrees ht, render_eq_of_agrees _ hs,
    render_eq_of_agrees _ ht]

/-- What a pair of types is written as determines it up to one renaming of both. -/
theorem displayPair_eq_iff {s t s' t' : Ty} :
    displayPair s t = displayPair s' t' ↔
      ∃ ρ : TypeVar → TypeVar, Set.BijOn ρ {v | v ∈ s.vars ++ t.vars} {v | v ∈ s'.vars ++ t'.vars} ∧
        (s.subst (var ∘ ρ)).agrees s' ∧ (t.subst (var ∘ ρ)).agrees t' := by
  constructor
  · intro h
    obtain ⟨hs, ht⟩ := Prod.mk.inj h
    rw [← render_placed, ← render_placed] at hs ht
    have hs := agrees_of_render_eq lettering hs
    have ht := agrees_of_render_eq lettering ht
    have hplaces := congrArg₂ (· ++ ·) (vars_eq_of_agrees hs) (vars_eq_of_agrees ht)
    simp only [vars_subst_var, ← List.map_append] at hplaces
    obtain ⟨back, hback, hbij⟩ :=
      exists_bijOn_of_map_eq (placed_injOn _) (placed_injOn _) hplaces
    exact ⟨_, hbij,
      agrees_of_subst_var_agrees (fun w hw => hback w (List.mem_append_left _ hw)) hs,
      agrees_of_subst_var_agrees (fun w hw => hback w (List.mem_append_right _ hw)) ht⟩
  · rintro ⟨ρ, hbij, hs, ht⟩
    have hrenames : Renames ρ (s.vars ++ t.vars) := fun v hv w hw => hbij.injOn hv hw
    rw [← displayPair_subst_var hrenames]
    exact displayPair_eq_of_agrees hs ht

theorem displayPair_unresolved (t : Ty) (o : Origins) :
    displayPair t (unresolved o) = (t.display, "?") := by
  rw [displayPair, display, vars, List.append_nil]
  rfl

theorem display_eq_iff {t t' : Ty} :
    t.display = t'.display ↔
      ∃ ρ : TypeVar → TypeVar, Set.BijOn ρ {v | v ∈ t.vars} {v | v ∈ t'.vars} ∧
        (t.subst (var ∘ ρ)).agrees t' := by
  have hpair : t.display = t'.display ↔
      displayPair t (unresolved .none) = displayPair t' (unresolved .none) := by
    rw [displayPair_unresolved, displayPair_unresolved, Prod.mk.injEq, and_iff_left rfl]
  rw [hpair, displayPair_eq_iff]
  simp only [vars, List.append_nil]
  exact exists_congr fun ρ => and_congr_right fun _ => and_iff_left rfl

/-- Types are written alike exactly if they are variants. -/
theorem display_eq_iff_variant {s t : Ty} : s.display = t.display ↔ s.Variant t := by
  refine ⟨fun h => ?_, Variant.display_eq⟩
  obtain ⟨ρ, _, hρ⟩ := display_eq_iff.mp h
  obtain ⟨ρ', _, hρ'⟩ := display_eq_iff.mp h.symm
  exact ⟨⟨_, hρ⟩, _, hρ'⟩

/-- Users can tell two types, or two pairs of types, apart exactly if no bijection
between their variables makes one of the other, whatever their origins are. -/
theorem displays_eq_iff (s t s' t' : Ty) :
    (displayPair s t = displayPair s' t' ↔
      ∃ ρ : TypeVar → TypeVar, Set.BijOn ρ {v | v ∈ s.vars ++ t.vars} {v | v ∈ s'.vars ++ t'.vars} ∧
        (s.subst (var ∘ ρ)).agrees s' ∧ (t.subst (var ∘ ρ)).agrees t') ∧
    (t.display = t'.display ↔
      ∃ ρ : TypeVar → TypeVar, Set.BijOn ρ {v | v ∈ t.vars} {v | v ∈ t'.vars} ∧
        (t.subst (var ∘ ρ)).agrees t') :=
  ⟨displayPair_eq_iff, display_eq_iff⟩

end Ty

end PlusCalTyping
