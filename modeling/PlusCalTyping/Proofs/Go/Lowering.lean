import PlusCalTyping.Proofs.Go.Texts
import PlusCalTyping.Proofs.Typing.GoTypes

/-! # Go types tell types apart

A Go type says which type it was made for (`source_ofTy?`), up to origins. This is
so although functions are made maps or slices of structs, as their keys allow: the
fields of these structs are called otherwise than those of tuples. Since Go types
can be read from their texts in one way only, these tell types apart just as well
(`Ty.toGo_faithful`). Keys of maps can be compared at any depth of a Go type.
-/

namespace PlusCalTyping

namespace GoType

open Text

theorem do_eq_some_iff {α β γ : Type} {x : Option α} {y : Option β} {f : α → β → γ} {c : γ} :
    (do let a ← x; let b ← y; return f a b) = some c ↔
      ∃ a b, x = some a ∧ y = some b ∧ f a b = c := by
  cases x <;> cases y <;> simp

theorem keyed_cases (key value : GoType) :
    key.isComparable ∧ keyed key value = map key value ∨
      keyed key value = slice (struct [("key", key), ("value", value)]) := by
  unfold keyed
  split
  · exact .inl ⟨‹_›, rfl⟩
  · exact .inr rfl

theorem toList_fieldName (i : Nat) : s!"e{i}".toList = 'e' :: Nat.toDigits 10 i := by
  rw [← Nat.toList_repr]
  exact String.toList_append

/-- The fields of tuples are called `e0`, `e1` and so on. -/
theorem of_mem_fieldsOf? {f : String × GoType} {ts : List Ty} {i : Nat}
    {fields : List (String × GoType)} (h : fieldsOf? i ts = some fields) (hf : f ∈ fields) :
    (∃ j : Nat, f.1 = s!"e{j}") ∧ ∃ t ∈ ts, ofTy? t = some f.2 := by
  induction ts generalizing i fields with
  | nil =>
    cases h
    cases hf
  | cons t ts ih =>
    obtain ⟨g, rest, hg, hrest, rfl⟩ := do_eq_some_iff.mp h
    rcases List.mem_cons.mp hf with rfl | hf
    · exact ⟨⟨i, rfl⟩, t, List.mem_cons_self, hg⟩
    · obtain ⟨hname, u, hu, hgo⟩ := ih hrest hf
      exact ⟨hname, u, List.mem_cons_of_mem t hu, hgo⟩

theorem of_mem_paramsOf? {g : GoType} {ts : List Ty} {params : List GoType}
    (h : paramsOf? ts = some params) (hg : g ∈ params) : ∃ t ∈ ts, ofTy? t = some g := by
  induction ts generalizing params with
  | nil =>
    cases h
    cases hg
  | cons t ts ih =>
    obtain ⟨g', rest, hg', hrest, rfl⟩ := do_eq_some_iff.mp h
    rcases List.mem_cons.mp hg with rfl | hg
    · exact ⟨t, List.mem_cons_self, hg'⟩
    · obtain ⟨u, hu, hgo⟩ := ih hrest hg
      exact ⟨u, List.mem_cons_of_mem t hu, hgo⟩

theorem exists_fieldsOf?_of_ofTy?_eq_struct {t : Ty} {fields : List (String × GoType)}
    (h : ofTy? t = some (struct fields)) : ∃ ts, fieldsOf? 0 ts = some fields := by
  cases t with
  | tuple ts _ =>
    obtain ⟨fields', hfields, heq⟩ := Option.map_eq_some_iff.mp h
    cases heq
    exact ⟨ts, hfields⟩
  | map key value _ =>
    obtain ⟨k, v, _, _, heq⟩ := do_eq_some_iff.mp h
    rcases keyed_cases k v with ⟨_, hkeyed⟩ | hkeyed <;> cases hkeyed.symm.trans heq
  | prim p _ => cases p <;> cases h
  | _ => simp [ofTy?, Option.bind_eq_some_iff] at h

theorem isComparable_of_ofTy?_eq_map {t : Ty} {k v : GoType} (h : ofTy? t = some (map k v)) :
    k.isComparable := by
  cases t with
  | map key value _ =>
    obtain ⟨k', v', _, _, heq⟩ := do_eq_some_iff.mp h
    rcases keyed_cases k' v' with ⟨hk, hkeyed⟩ | hkeyed <;> cases hkeyed.symm.trans heq
    exact hk
  | prim p _ => cases p <;> cases h
  | _ => simp [ofTy?, Option.bind_eq_some_iff] at h

/-- No tuple is made the struct that a slice for a function has. -/
theorem ofTy?_ne_pair (t : Ty) (k v : GoType) :
    ofTy? t ≠ some (struct [("key", k), ("value", v)]) := by
  intro h
  obtain ⟨ts, hfields⟩ := exists_fieldsOf?_of_ofTy?_eq_struct h
  obtain ⟨⟨j, hname⟩, _⟩ := of_mem_fieldsOf? hfields List.mem_cons_self
  have hlist := congrArg String.toList hname
  rw [toList_fieldName] at hlist
  simp at hlist

/-! ## The type of a Go type -/

mutual

/-- The type that a Go type is made for. -/
def source : GoType → Ty
  | int => .prim .int .none
  | float64 => .prim .real .none
  | bool => .prim .bool .none
  | string => .prim .string .none
  | slice (struct [("key", key), ("value", value)]) => .map (source key) (source value) .none
  | slice elem => .set (source elem) .none
  | struct fields => .tuple (sourceFields fields) .none
  | map key value => .map (source key) (source value) .none
  | func params none => .procedure (sourceParams params) .none
  | func params (some result) => .operator (sourceParams params) (source result) .none

def sourceFields : List (String × GoType) → List Ty
  | [] => []
  | (_, t) :: rest => source t :: sourceFields rest

def sourceParams : List GoType → List Ty
  | [] => []
  | t :: rest => source t :: sourceParams rest

end

theorem source_slice {elem : GoType}
    (h : ∀ k v, elem ≠ struct [("key", k), ("value", v)]) :
    (slice elem).source = .set elem.source .none := by
  rw [source]
  exact h

theorem source_keyed (key value : GoType) :
    (keyed key value).source = .map key.source value.source .none := by
  rcases keyed_cases key value with ⟨_, hkeyed⟩ | hkeyed <;> rw [hkeyed, source]

mutual

/-- The type that a Go type is made for can be found again. -/
theorem source_ofTy? : (t : Ty) → ∀ g, ofTy? t = some g → g.source = t.bare
  | .prim p _, g, h => by
    cases h
    cases p <;> rw [ofPrim, source, Ty.bare]
  | .var _, _, h | .unresolved _, _, h => nomatch h
  | .set elem _, g, h => by
    obtain ⟨g', hg', rfl⟩ := Option.map_eq_some_iff.mp h
    rw [source_slice fun k v heq => ofTy?_ne_pair elem k v (heq ▸ hg'), source_ofTy? elem g' hg',
      Ty.bare]
  | .tuple elems _, g, h => by
    obtain ⟨fields, hfields, rfl⟩ := Option.map_eq_some_iff.mp h
    rw [source, sourceFields_fieldsOf? elems 0 fields hfields, Ty.bare]
  | .map key value _, g, h => by
    obtain ⟨k, v, hk, hv, rfl⟩ := do_eq_some_iff.mp h
    rw [source_keyed, source_ofTy? key k hk, source_ofTy? value v hv, Ty.bare]
  | .procedure params _, g, h => by
    obtain ⟨gs, hgs, heq⟩ := Option.bind_eq_some_iff.mp h
    cases heq
    rw [source, sourceParams_paramsOf? params gs hgs, Ty.bare]
  | .operator params result _, g, h => by
    obtain ⟨gs, r, hgs, hr, rfl⟩ := do_eq_some_iff.mp h
    rw [source, sourceParams_paramsOf? params gs hgs, source_ofTy? result r hr, Ty.bare]

theorem sourceFields_fieldsOf? : (ts : List Ty) → ∀ i fields, fieldsOf? i ts = some fields →
    sourceFields fields = Ty.bareList ts
  | [], _, _, h => by
    cases h
    rw [sourceFields, Ty.bareList]
  | t :: ts, i, _, h => by
    obtain ⟨g, rest, hg, hrest, rfl⟩ := do_eq_some_iff.mp h
    rw [sourceFields, source_ofTy? t g hg, sourceFields_fieldsOf? ts (i + 1) rest hrest,
      Ty.bareList]

theorem sourceParams_paramsOf? : (ts : List Ty) → ∀ gs, paramsOf? ts = some gs →
    sourceParams gs = Ty.bareList ts
  | [], _, h => by
    cases h
    rw [sourceParams, Ty.bareList]
  | t :: ts, _, h => by
    obtain ⟨g, rest, hg, hrest, rfl⟩ := do_eq_some_iff.mp h
    rw [sourceParams, source_ofTy? t g hg, sourceParams_paramsOf? ts rest hrest, Ty.bareList]

end

mutual

theorem ofTy?_bare : (t : Ty) → ofTy? t.bare = ofTy? t
  | .prim _ _ | .var _ | .unresolved _ => rfl
  | .set elem _ => by simp only [Ty.bare, ofTy?, ofTy?_bare elem]
  | .tuple elems _ => by simp only [Ty.bare, ofTy?, fieldsOf?_bareList 0 elems]
  | .map key value _ => by simp only [Ty.bare, ofTy?, ofTy?_bare key, ofTy?_bare value]
  | .procedure params _ => by simp only [Ty.bare, ofTy?, paramsOf?_bareList params]
  | .operator params result _ => by
    simp only [Ty.bare, ofTy?, paramsOf?_bareList params, ofTy?_bare result]

theorem fieldsOf?_bareList (i : Nat) : (ts : List Ty) → fieldsOf? i (Ty.bareList ts) = fieldsOf? i ts
  | [] => rfl
  | t :: ts => by
    simp only [Ty.bareList, fieldsOf?, ofTy?_bare t, fieldsOf?_bareList (i + 1) ts]

theorem paramsOf?_bareList : (ts : List Ty) → paramsOf? (Ty.bareList ts) = paramsOf? ts
  | [] => rfl
  | t :: ts => by simp only [Ty.bareList, paramsOf?, ofTy?_bare t, paramsOf?_bareList ts]

end

/-- Types have the same Go type exactly if they agree. -/
theorem ofTy?_eq_iff_agrees {t u : Ty} {g h : GoType} (hg : ofTy? t = some g)
    (hh : ofTy? u = some h) : g = h ↔ t.agrees u := by
  rw [Ty.agrees_iff]
  constructor
  · rintro rfl
    rw [← source_ofTy? t g hg, source_ofTy? u g hh]
  · intro hbare
    rw [← ofTy?_bare, hbare, ofTy?_bare, hh] at hg
    exact (Option.some.inj hg).symm

/-! ## What occurs in a Go type -/

/-- A Go type that is made for some type, or the struct that a slice for a function has. -/
def Made (g : GoType) : Prop :=
  (∃ t, ofTy? t = some g) ∨ ∃ k v, g = struct [("key", k), ("value", v)]

mutual

/-- What occurs in the Go type of a type is made for its parts. -/
theorem made_of_occurs {p : GoType} : (t : Ty) → ∀ g, ofTy? t = some g → Occurs p g → Made p
  | .prim q o, g, h, hp => by
    cases h
    cases q <;> cases hp <;> exact .inl ⟨.prim _ o, rfl⟩
  | .var _, _, h, _ | .unresolved _, _, h, _ => nomatch h
  | .set elem o, g, h, hp => by
    obtain ⟨g', hg', rfl⟩ := Option.map_eq_some_iff.mp h
    cases hp with
    | here => exact .inl ⟨_, h⟩
    | elem hp => exact made_of_occurs elem g' hg' hp
  | .tuple elems _, g, h, hp => by
    obtain ⟨fields, hfields, rfl⟩ := Option.map_eq_some_iff.mp h
    cases hp with
    | here => exact .inl ⟨_, h⟩
    | field hf hp =>
      obtain ⟨_, t, ht, hgo⟩ := of_mem_fieldsOf? hfields hf
      exact made_of_occurs_mem elems t ht _ hgo hp
  | .map key value _, g, h, hp => by
    obtain ⟨k, v, hk, hv, rfl⟩ := do_eq_some_iff.mp h
    rcases keyed_cases k v with ⟨_, hkeyed⟩ | hkeyed
    · rw [hkeyed] at h hp
      cases hp with
      | here => exact .inl ⟨_, h⟩
      | key hp => exact made_of_occurs key k hk hp
      | value hp => exact made_of_occurs value v hv hp
    · rw [hkeyed] at h hp
      rcases hp with _ | hp
      · exact .inl ⟨_, h⟩
      · cases hp with
        | here => exact .inr ⟨k, v, rfl⟩
        | field hf hp =>
          rcases List.mem_cons.mp hf with rfl | hf
          · exact made_of_occurs key k hk hp
          · rw [List.mem_singleton.mp hf] at hp
            exact made_of_occurs value v hv hp
  | .procedure params _, g, h, hp => by
    obtain ⟨gs, hgs, heq⟩ := Option.bind_eq_some_iff.mp h
    cases heq
    cases hp with
    | here => exact .inl ⟨_, h⟩
    | param hq hp =>
      obtain ⟨t, ht, hgo⟩ := of_mem_paramsOf? hgs hq
      exact made_of_occurs_mem params t ht _ hgo hp
  | .operator params result _, g, h, hp => by
    obtain ⟨gs, r, hgs, hr, rfl⟩ := do_eq_some_iff.mp h
    cases hp with
    | here => exact .inl ⟨_, h⟩
    | param hq hp =>
      obtain ⟨t, ht, hgo⟩ := of_mem_paramsOf? hgs hq
      exact made_of_occurs_mem params t ht _ hgo hp
    | result hp => exact made_of_occurs result r hr hp

theorem made_of_occurs_mem {p : GoType} : (ts : List Ty) → ∀ t ∈ ts, ∀ g, ofTy? t = some g →
    Occurs p g → Made p
  | [], _, ht => nomatch ht
  | t :: ts, u, hu => by
    rcases List.mem_cons.mp hu with heq | hu
    · exact heq ▸ made_of_occurs t
    · exact made_of_occurs_mem ts u hu

end

theorem named_of_ofTy? {t : Ty} {g : GoType} (h : ofTy? t = some g) : g.Named := by
  intro fields hfields f hf
  rcases made_of_occurs t g h hfields with ⟨u, hu⟩ | ⟨k, v, heq⟩
  · obtain ⟨ts, hts⟩ := exists_fieldsOf?_of_ofTy?_eq_struct hu
    obtain ⟨⟨j, hname⟩, _⟩ := of_mem_fieldsOf? hts hf
    intro c hc
    rw [hname, toList_fieldName] at hc
    rcases List.mem_cons.mp hc with rfl | hc
    · decide
    · exact isAlphanum_of_mem_toDigits hc
  · cases heq
    have hnames : ∀ f ∈ [("key", k), ("value", v)], IsWord f.1 := by simp [IsWord]
    exact hnames f hf

/-- Keys of maps can be compared, at any depth. -/
theorem isComparable_of_occurs_map {t : Ty} {g k v : GoType} (h : ofTy? t = some g)
    (hmap : Occurs (map k v) g) : k.isComparable := by
  rcases made_of_occurs t g h hmap with ⟨u, hu⟩ | ⟨_, _, heq⟩
  · exact isComparable_of_ofTy?_eq_map hu
  · cases heq

end GoType

namespace Ty

theorem toGo_eq_error {t : Ty} (h : ¬(t.vars = [] ∧ t.Determined)) :
    t.toGo = .error (if t.containsUnresolved then .undetermined t else .hasVariables t) := by
  have hnone : GoType.ofTy? t = none := by
    rw [← Option.not_isSome_iff_eq_none, GoType.isSome_ofTy?_iff]
    exact h
  rw [toGo, hnone]
  exact (apply_ite Except.error _ _ _).symm

/-- Every type that is fully known has a Go type, and no other type has one. Fully
known types agree if their Go types are the same, even if just these are written
alike. All keys of maps in a Go type can be compared. -/
theorem toGo_faithful :
    (∀ t u : Ty, t.vars = [] ∧ t.Determined → u.vars = [] ∧ u.Determined →
      ∃ g h, t.toGo = .ok g ∧ u.toGo = .ok h ∧
        (g.render = h.render ↔ t.agrees u) ∧ (g = h ↔ t.agrees u) ∧
        ∀ k v, (GoType.map k v).Occurs g → k.isComparable) ∧
    ∀ t : Ty, ¬(t.vars = [] ∧ t.Determined) → ∃ reason, t.toGo = .error reason := by
  refine ⟨fun t u ht hu => ?_, fun t ht => ⟨_, toGo_eq_error ht⟩⟩
  obtain ⟨g, hg⟩ := exists_toGo ht.1 ht.2
  obtain ⟨h, hh⟩ := exists_toGo hu.1 hu.2
  have hgo := toGo_eq_ok_iff.mp hg
  have hho := toGo_eq_ok_iff.mp hh
  have hagrees := GoType.ofTy?_eq_iff_agrees hgo hho
  refine ⟨g, h, hg, hh, ⟨fun heq => hagrees.mp ?_, fun heq => ?_⟩, hagrees,
    fun k v => GoType.isComparable_of_occurs_map hgo⟩
  · exact GoType.render_injOn (GoType.named_of_ofTy? hgo) (GoType.named_of_ofTy? hho) heq
  · rw [hagrees.mpr heq]

/-- A function whose keys cannot be compared and a set of pairs are both made slices
of structs with two fields, but the fields are called differently. -/
theorem toGo_faithful_slices :
    let key := set (int ⟨0⟩) .none
    let value := map (int ⟨1⟩) (bool ⟨2⟩) .none
    (∃ g h, (map key value .none).toGo = .ok g ∧ (set (tuple [key, value] .none) .none).toGo = .ok h ∧
      g.render ≠ h.render ∧ g ≠ h ∧
      (GoType.map .int .bool).Occurs g ∧ GoType.int.isComparable) ∧
    ∃ reason, (set (var ⟨0⟩) .none).toGo = .error reason := by
  intro key value
  obtain ⟨hknown, hunknown⟩ := toGo_faithful
  obtain ⟨g, h, hg, hh, htext, hgo, hkeys⟩ := hknown (map key value .none)
    (set (tuple [key, value] .none) .none) ⟨rfl, rfl⟩ ⟨rfl, rfl⟩
  have hdiffer : ¬(map key value .none).agrees (set (tuple [key, value] .none) .none) := by decide
  have hoccurs : (GoType.map .int .bool).Occurs g := by
    cases hg
    exact .elem (.field (List.mem_cons_of_mem _ List.mem_cons_self) .here)
  refine ⟨⟨g, h, hg, hh, fun heq => hdiffer (htext.mp heq), fun heq => hdiffer (hgo.mp heq),
    hoccurs, hkeys .int .bool hoccurs⟩, hunknown _ fun h => ?_⟩
  exact List.cons_ne_nil _ _ h.1

end Ty

end PlusCalTyping
