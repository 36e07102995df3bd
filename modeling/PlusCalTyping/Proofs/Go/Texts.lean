import PlusCalTyping.GoType
import PlusCalTyping.Proofs.Text.Items

/-! # Reading Go types

The text of a Go type can be read in one way only, as long as the names of all
fields in it are words (`told_render`). So such Go types with the same text are
the same (`render_injOn`).
-/

namespace PlusCalTyping.GoType

open Text

attribute [local simp] render

/-- The first type is the second or occurs in it at some depth. -/
inductive Occurs : GoType → GoType → Prop
  | here {g : GoType} : Occurs g g
  | elem {g elem : GoType} : Occurs g elem → Occurs g (slice elem)
  | field {g : GoType} {f : String × GoType} {fields : List (String × GoType)} :
    f ∈ fields → Occurs g f.2 → Occurs g (struct fields)
  | key {g key value : GoType} : Occurs g key → Occurs g (map key value)
  | value {g key value : GoType} : Occurs g value → Occurs g (map key value)
  | param {g param : GoType} {params : List GoType} {result : Option GoType} :
    param ∈ params → Occurs g param → Occurs g (func params result)
  | result {g result : GoType} {params : List GoType} :
    Occurs g result → Occurs g (func params (some result))

/-- The names of all fields are words. -/
def Named (g : GoType) : Prop :=
  ∀ fields, Occurs (struct fields) g → ∀ f ∈ fields, IsWord f.1

theorem Occurs.trans {p q g : GoType} (hpq : Occurs p q) (hqg : Occurs q g) : Occurs p g := by
  induction hqg with
  | here => exact hpq
  | elem _ ih => exact .elem ih
  | field hf _ ih => exact .field hf ih
  | key _ ih => exact .key ih
  | value _ ih => exact .value ih
  | param hp _ ih => exact .param hp ih
  | result _ ih => exact .result ih

theorem Named.of_occurs {p g : GoType} (hg : g.Named) (hp : Occurs p g) : p.Named :=
  fun fields hfields => hg fields (hfields.trans hp)

/-- One field of a written struct. -/
def renderField (f : String × GoType) : String := f.1 ++ " " ++ f.2.render

theorem renderFields_eq (fields : List (String × GoType)) :
    renderFields fields = "; ".intercalate (fields.map renderField) := by
  induction fields with
  | nil => rfl
  | cons f fields ih =>
    cases fields with
    | nil => rfl
    | cons g fields =>
      simp only [renderFields, ih, List.map_cons, String.intercalate_cons_cons, renderField]

theorem renderParams_eq (params : List GoType) :
    renderParams params = ", ".intercalate (params.map render) := by
  induction params with
  | nil => rfl
  | cons g params ih =>
    cases params with
    | nil => rfl
    | cons h params =>
      simp only [renderParams, ih, List.map_cons, String.intercalate_cons_cons]

theorem starts_render (g : GoType) : Starts g.render := by
  cases g with
  | int => exact ⟨'i', by simp, by decide⟩
  | float64 => exact ⟨'f', by simp, by decide⟩
  | bool => exact ⟨'b', by simp, by decide⟩
  | string => exact ⟨'s', by simp, by decide⟩
  | slice elem => exact ⟨'[', by simp, by decide⟩
  | struct fields => exact ⟨'s', by simp, by decide⟩
  | map key value => exact ⟨'m', by simp, by decide⟩
  | func params result => cases result <;> exact ⟨'f', by simp, by decide⟩

theorem starts_renderField {f : String × GoType} (hf : IsWord f.1) : Starts (renderField f) := by
  obtain ⟨name, g⟩ := f
  cases hname : name.toList with
  | nil => exact ⟨' ', by simp [renderField, hname], by decide⟩
  | cons c cs =>
    have hc : c.isAlphanum := hf c (by rw [hname]; exact List.mem_cons_self)
    exact ⟨c, by simp [renderField, hname], fun hmark => not_isAlphanum_of_mem_marks hmark hc⟩

theorem told_slice {g h : GoType} (hgh : Told render id g h) :
    Told render id (slice g) (slice h) := by
  intro x y hx hy heq
  have heq : g.render.toList ++ x = h.render.toList ++ y := by simpa using heq
  obtain ⟨helem, hxy⟩ := hgh hx hy heq
  exact ⟨congrArg slice helem, hxy⟩

theorem told_map {k l v w : GoType} (hkl : Told render id k l) (hvw : Told render id v w) :
    Told render id (map k v) (map l w) := by
  intro x y hx hy heq
  have heq : k.render.toList ++ ']' :: (v.render.toList ++ x) =
      l.render.toList ++ ']' :: (w.render.toList ++ y) := by
    simpa using heq
  obtain ⟨hkey, hrest⟩ := hkl (stops_cons (by decide)) (stops_cons (by decide)) heq
  obtain ⟨hvalue, hxy⟩ := hvw hx hy (List.cons.inj hrest).2
  exact ⟨congrArg₂ map hkey hvalue, hxy⟩

theorem told_renderField {f g : String × GoType} (hf : IsWord f.1) (hg : IsWord g.1)
    (hfg : Told render id f.2 g.2) : Told renderField id f g := by
  intro x y hx hy heq
  have heq : f.1.toList ++ ' ' :: (f.2.render.toList ++ x) =
      g.1.toList ++ ' ' :: (g.2.render.toList ++ y) := by
    simpa [renderField] using heq
  have hblank {z : List Char} : ∀ c ∈ (' ' :: z).head?, ¬c.isAlphanum := by
    rintro c ⟨⟩
    decide
  obtain ⟨hname, hrest⟩ := word_append_inj hf hg hblank hblank heq
  obtain ⟨htype, hxy⟩ := hfg hx hy (List.cons.inj hrest).2
  exact ⟨Prod.ext hname htype, hxy⟩

theorem told_struct {fs gs : List (String × GoType)} (hfs : ∀ f ∈ fs, IsWord f.1)
    (hgs : ∀ g ∈ gs, IsWord g.1) (told : ∀ f ∈ fs, ∀ g ∈ gs, Told render id f.2 g.2) :
    Told render id (struct fs) (struct gs) := by
  intro x y _ _ heq
  have heq : ("; ".intercalate (fs.map renderField)).toList ++ '\x7d' :: x =
      ("; ".intercalate (gs.map renderField)).toList ++ '\x7d' :: y := by
    simpa [renderFields_eq] using heq
  have told (f) (hf : f ∈ fs) (g) (hg : g ∈ gs) : Told renderField id f g :=
    told_renderField (hfs f hf) (hgs g hg) (told f hf g hg)
  obtain ⟨hfields, hxy⟩ := told_intercalate rfl (by decide) (by decide) (by decide)
    (fun f hf => starts_renderField (hfs f hf)) (fun g hg => starts_renderField (hgs g hg)) told heq
  rw [List.map_id, List.map_id] at hfields
  exact ⟨congrArg struct hfields, hxy⟩

section Lists

variable {gs hs : List GoType} (told : ∀ g ∈ gs, ∀ h ∈ hs, Told render id g h)

include told

theorem told_renderParams {x y : List Char}
    (heq : (renderParams gs).toList ++ ')' :: x = (renderParams hs).toList ++ ')' :: y) :
    gs = hs ∧ x = y := by
  rw [renderParams_eq, renderParams_eq] at heq
  obtain ⟨hparams, hxy⟩ := told_intercalate rfl (by decide) (by decide) (by decide)
    (fun g _ => starts_render g) (fun h _ => starts_render h) told heq
  rw [List.map_id, List.map_id] at hparams
  exact ⟨hparams, hxy⟩

theorem told_func_none : Told render id (func gs none) (func hs none) := by
  intro x y _ _ heq
  have heq : (renderParams gs).toList ++ ')' :: x = (renderParams hs).toList ++ ')' :: y := by
    simpa using heq
  obtain ⟨hparams, hxy⟩ := told_renderParams told heq
  exact ⟨congrArg (func · none) hparams, hxy⟩

/-- What follows a function without a result is not taken for its result. -/
theorem told_func_none_some (h : GoType) : Told render id (func gs none) (func hs (some h)) := by
  intro x y hx _ heq
  have heq : (renderParams gs).toList ++ ')' :: x =
      (renderParams hs).toList ++ ')' :: ' ' :: (h.render.toList ++ y) := by
    simpa using heq
  obtain ⟨_, hxy⟩ := told_renderParams told heq
  rw [hxy] at hx
  exact absurd hx.mem_marks (by decide)

theorem told_func_some {g h : GoType} (hgh : Told render id g h) :
    Told render id (func gs (some g)) (func hs (some h)) := by
  intro x y hx hy heq
  have heq : (renderParams gs).toList ++ ')' :: ' ' :: (g.render.toList ++ x) =
      (renderParams hs).toList ++ ')' :: ' ' :: (h.render.toList ++ y) := by
    simpa using heq
  obtain ⟨hparams, hrest⟩ := told_renderParams told heq
  obtain ⟨hresult, hxy⟩ := hgh hx hy (List.cons.inj hrest).2
  exact ⟨congrArg₂ func hparams (congrArg some hresult), hxy⟩

end Lists

mutual

/-- The text of a Go type can be read in one way only. -/
theorem told_render : (g : GoType) → g.Named → ∀ h : GoType, h.Named → Told render id g h
  | g, hg, h, hh => by
    -- The head of the text tells which kind of type it is, but not whether a
    -- function has a result.
    intro x y hx hy heq
    cases g with
    | int | float64 | bool | string =>
      cases h with
      | func _ result => cases result <;> simp at heq
      | _ => simp_all
    | slice elem =>
      cases h with
      | slice elem' =>
        have told := told_render elem (hg.of_occurs (.elem .here)) elem'
          (hh.of_occurs (.elem .here))
        exact told_slice told hx hy heq
      | func _ result => cases result <;> simp at heq
      | _ => simp at heq
    | struct fields =>
      cases h with
      | struct fields' =>
        have told : ∀ f ∈ fields, ∀ f' ∈ fields', Told render id f.2 f'.2 := fun f hf f' hf' =>
          told_render_field fields f hf (hg.of_occurs (.field hf .here)) f'.2
            (hh.of_occurs (.field hf' .here))
        exact told_struct (hg fields .here) (hh fields' .here) told hx hy heq
      | func _ result => cases result <;> simp at heq
      | _ => simp at heq
    | map key value =>
      cases h with
      | map key' value' =>
        have hkey := told_render key (hg.of_occurs (.key .here)) key' (hh.of_occurs (.key .here))
        have hvalue := told_render value (hg.of_occurs (.value .here)) value'
          (hh.of_occurs (.value .here))
        exact told_map hkey hvalue hx hy heq
      | func _ result => cases result <;> simp at heq
      | _ => simp at heq
    | func params result =>
      cases h with
      | func params' result' =>
        have told : ∀ p ∈ params, ∀ p' ∈ params', Told render id p p' := fun p hp p' hp' =>
          told_render_param params p hp (hg.of_occurs (.param hp .here)) p'
            (hh.of_occurs (.param hp' .here))
        match result, result' with
        | none, none => exact told_func_none told hx hy heq
        | none, some r' => exact told_func_none_some told r' hx hy heq
        | some r, none =>
          exact (told_func_none_some (fun p' hp' p hp => (told p hp p' hp').symm) r).symm hx hy heq
        | some r, some r' =>
          have hresult := told_render r (hg.of_occurs (.result .here)) r'
            (hh.of_occurs (.result .here))
          exact told_func_some told hresult hx hy heq
      | _ => cases result <;> simp at heq

theorem told_render_field : (fs : List (String × GoType)) → ∀ f ∈ fs, f.2.Named →
    ∀ h : GoType, h.Named → Told render id f.2 h
  | [], _, hf => nomatch hf
  | (name, g) :: fs, f, hf => by
    rcases List.mem_cons.mp hf with heq | hf
    · exact heq ▸ told_render g
    · exact told_render_field fs f hf

theorem told_render_param : (gs : List GoType) → ∀ g ∈ gs, g.Named →
    ∀ h : GoType, h.Named → Told render id g h
  | [], _, hg => nomatch hg
  | g :: gs, g', hg => by
    rcases List.mem_cons.mp hg with heq | hg
    · exact heq ▸ told_render g
    · exact told_render_param gs g' hg

end

/-- Go types whose fields are named by words are the same if they are written alike. -/
theorem render_injOn {g h : GoType} (hg : g.Named) (hh : h.Named) (heq : g.render = h.render) :
    g = h :=
  (told_render g hg h hh).value_eq heq

end PlusCalTyping.GoType
