import PlusCalTyping.Proofs.Typing.Soundness.Reading

/-! # Soundness of the constraints of expressions

Each rule for constraints demands at least what the typing rule of its
constructor asks for. So an expression whose names all have declarations is
typed by every reading of its constraints, and its node has the type that was
given to it (`sound_infer`). Parameters of an archetype are read and written
through slots, which a reading has to give the type of the parameter.
-/

namespace PlusCalTyping

namespace Use

def site : Use → NodeId
  | bound site _ | undefined site _ _ => site

end Use

namespace Registry

variable (r : Registry)

/-- All uses of names have declarations. -/
def Resolves (uses : List Use) : Prop := ∀ u ∈ uses, ∃ decl, r.followReference u.site = some decl

variable {r}

@[simp]
theorem resolves_append {us vs : List Use} :
    r.Resolves (us ++ vs) ↔ r.Resolves us ∧ r.Resolves vs := List.forall_mem_append

@[simp]
theorem resolves_cons {u : Use} {us : List Use} :
    r.Resolves (u :: us) ↔ (∃ decl, r.followReference u.site = some decl) ∧ r.Resolves us :=
  List.forall_mem_cons

end Registry

@[simp]
theorem Scope.site_use (scope : Scope) (site : NodeId) (kind : NameKind) (name : String) :
    (scope.use site kind name).site = site := by
  unfold Scope.use
  split <;> rfl

theorem Ty.determined_of_isVar {t : Ty} (h : ∃ v, t = .var v) : t.Determined := by
  obtain ⟨v, rfl⟩ := h
  exact determined_var v

namespace Reading

variable (ρ : Reading)

/-- The slots of the parameters in sight have the types of the parameters. -/
def Shows (around : Surroundings) (S : NodeMap Slots) : Prop :=
  ∀ params, around.role = .archetype params → ∀ n ∈ params, ∀ s, S[n]? = some s →
    ρ.Knows n (.var s.read) ∧ ρ.Knows n (.var s.written)

/-- A part is typed, provided that its names have declarations. -/
def Grants (around : Surroundings) (S : NodeMap Slots) (uses : Scope → List Use)
    (typed : Prop) : Prop :=
  ρ.Shows around S → ∀ scope, around.registry.Resolves (uses scope) → typed

theorem value_tuple (ts : List Ty) (o : Origins) :
    ρ.value (.tuple ts o) = .tuple (ts.map ρ.value) o := by
  rw [value, Ty.subst, Ty.substList_eq]
  rfl

theorem value_procedure (ts : List Ty) (o : Origins) :
    ρ.value (.procedure ts o) = .procedure (ts.map ρ.value) o := by
  rw [value, Ty.subst, Ty.substList_eq]
  rfl

theorem value_operator (ts : List Ty) (t : Ty) (o : Origins) :
    ρ.value (.operator ts t o) = .operator (ts.map ρ.value) (ρ.value t) o := by
  rw [value, Ty.subst, Ty.substList_eq]
  rfl

theorem value_keyType_agrees (n : NodeId) (ts : List Ty) :
    (ρ.value (Drafting.keyType n ts)).agrees (Typing.key (ts.map ρ.value)) := by
  match ts with
  | [t] => exact Ty.agrees_refl _
  | [] => rfl
  | t :: u :: ts =>
    rw [Drafting.keyType, value_tuple]
    · exact Ty.agrees_refl (.tuple _ .none)
    · nofun

end Reading

namespace Drafting

theorem determined_keyType (n : NodeId) {ts : List Ty} (h : ∀ t ∈ ts, t.Determined) :
    (keyType n ts).Determined := by
  match ts with
  | [t] => exact h t List.mem_cons_self
  | [] => exact Ty.determined_tuple.mpr h
  | t :: u :: ts => exact Ty.determined_tuple.mpr h

variable {ρ : Reading} {S : NodeMap Slots}

/-! ## Operators -/

theorem sound_settle (n : NodeId) {t : Ty} (ht : t.Determined) :
    Sound ρ S (settle n t) (fun v => v.Determined)
      fun v => ρ.types.Has n (ρ.value v) ∧ ρ.types.Has n (ρ.value t) ∧ ρ.Uses t := by
  apply (sound_typeOf n).bind
  intro v hv
  have hv := Ty.determined_of_isVar hv
  refine (sound_demand hv ht n .exprType).bind fun _ _ => sound_pure hv ?_
  rintro ⟨huses, huses', hagrees⟩ hknows
  exact ⟨hknows huses, (hknows huses).congr hagrees, huses'⟩

theorem sound_conclude (n : NodeId) (rule : TypingRule) {t : Ty} (ht : t.Determined) :
    Sound ρ S (conclude n rule t) (fun v => v.Determined)
      fun v => ρ.types.Has n (ρ.value v) ∧ ρ.types.Has n (ρ.value t) ∧ ρ.Uses t :=
  (sound_record n rule t "").bind fun _ _ => (sound_settle n ht).mono (fun _ => id)
    fun _ _ h _ => h

theorem sound_slots? (around : Surroundings) (decl : NodeId) {slot : Slots → TypeVar}
    (hslot : slot = Slots.read ∨ slot = Slots.written) :
    Sound ρ S (slots? around decl) (fun _ => True)
      fun s => ρ.Shows around S → ∀ s', s = some s' → ρ.Knows decl (.var (slot s')) := by
  rintro d hd rfl
  rw [slots?_snd]
  refine ⟨hd, rfl, .refl d, trivial, fun _ hshows s hs => ?_⟩
  obtain ⟨⟨params, hrole, hmem⟩, hs⟩ := slots?_fst_eq_some hs
  obtain ⟨hread, hwritten⟩ := hshows params hrole decl hmem s hs
  obtain rfl | rfl := hslot
  · exact hread
  · exact hwritten

theorem sound_nameType (around : Surroundings) (site : NodeId) {slot : Slots → TypeVar}
    (hslot : slot = Slots.read ∨ slot = Slots.written) :
    Sound ρ S (nameType around site slot) (fun t => t.Determined)
      fun t => ρ.Shows around S →
        ∀ decl, around.registry.followReference site = some decl → ρ.Knows decl t := by
  unfold nameType
  split
  · next h =>
    refine sound_fresh.mono (fun _ => Ty.determined_of_isVar) ?_
    exact fun _ _ _ _ decl hdecl => nomatch h.symm.trans hdecl
  · next decl h =>
    apply (sound_slots? around decl hslot).bind
    intro s _
    cases s with
    | some s =>
      refine sound_pure (Ty.determined_var _) fun hs hshows decl' hdecl' => ?_
      cases h.symm.trans hdecl'
      exact hs hshows s rfl
    | none =>
      refine (sound_typeOf decl).mono (fun _ => Ty.determined_of_isVar) ?_
      intro t _ hknows _ _ decl' hdecl'
      cases h.symm.trans hdecl'
      exact hknows

theorem sound_unaryType (n : NodeId) (op : UnaryOp) {operand : Ty} (h : operand.Determined) :
    Sound ρ S (unaryType n op operand) (fun t => t.Determined)
      fun t => ∃ s u, (ρ.value operand).agrees s ∧ (ρ.value t).agrees u ∧ op.Types s u := by
  cases op <;> dsimp only [unaryType]
  case not =>
    refine (sound_demand (Ty.determined_prim _ _) h n _).bind fun _ _ =>
      sound_pure (Ty.determined_prim _ _) ?_
    exact fun hd => ⟨_, _, Ty.agrees_trans (Ty.agrees_symm hd.2.2) rfl, rfl, rfl, rfl⟩
  case neg =>
    apply sound_fresh.bind
    intro t ht
    refine (sound_demandNumeric ht (List.forall_mem_singleton.mpr h) n _).bind fun _ _ =>
      sound_pure (Ty.determined_of_isVar ht) ?_
    rintro ⟨p, hp, ht, hoperand⟩ _
    exact ⟨_, _, hoperand _ List.mem_cons_self, ht, p, hp, rfl, rfl⟩
  case domain =>
    refine sound_fresh.bind fun k hk => sound_fresh.bind fun v hv => ?_
    have hk := Ty.determined_of_isVar hk
    refine (sound_demand (Ty.determined_map.mpr ⟨hk, Ty.determined_of_isVar hv⟩) h n _).bind
      fun _ _ => sound_pure (Ty.determined_set.mpr hk) ?_
    intro hd _ _
    refine ⟨.map (ρ.value k) (ρ.value v) .none, .set (ρ.value k) .none, ?_,
      Ty.agrees_refl (ρ.value k), _, _, rfl, rfl⟩
    exact Ty.agrees_trans (Ty.agrees_symm hd.2.2) (Ty.agrees_refl (.map _ _ .none))
  case powerSet | cardinality =>
    apply sound_fresh.bind
    intro t ht
    have ht := Ty.determined_of_isVar ht
    refine (sound_demand (Ty.determined_set.mpr ht) h n _).bind fun _ _ =>
      sound_pure (by first | exact ht | exact Ty.determined_prim _ _) fun hd _ => ?_
    refine ⟨.set (ρ.value t) .none, _, Ty.agrees_trans (Ty.agrees_symm hd.2.2)
      (Ty.agrees_refl (.set _ .none)), ?_, _, rfl, rfl⟩
    first | exact Ty.agrees_refl (ρ.value t) | rfl
  case bigUnion =>
    apply sound_fresh.bind
    intro t ht
    have ht := Ty.determined_of_isVar ht
    refine (sound_demand (s := .set (.set t _) _) ht h n _).bind fun _ _ =>
      sound_pure (Ty.determined_set.mpr ht) fun hd _ => ?_
    exact ⟨.set (.set (ρ.value t) .none) .none, .set (ρ.value t) .none,
      Ty.agrees_trans (Ty.agrees_symm hd.2.2)
      (Ty.agrees_refl (.set (.set _ .none) .none)), Ty.agrees_refl (.set _ .none), _, rfl, rfl⟩

theorem sound_demandBoth {t l u : Ty} (ht : t.Determined) (hl : l.Determined) (hu : u.Determined)
    (i j : NodeId) (reason : Reason) :
    Sound ρ S (demandBoth t (i, l) (j, u) reason) (fun _ => True)
      fun _ => (ρ.value l).agrees (ρ.value t) ∧ (ρ.value u).agrees (ρ.value t) :=
  (sound_demand ht hl _ _).bind fun _ _ => (sound_demand ht hu _ _).mono (fun _ => id)
    fun _ _ h h' => ⟨Ty.agrees_symm h'.2.2, Ty.agrees_symm h.2.2⟩

theorem sound_binaryType (n : NodeId) (op : BinaryOp) {i j : NodeId} {l u : Ty}
    (hl : l.Determined) (hu : u.Determined) :
    Sound ρ S (binaryType n op (i, l) (j, u)) (fun t => t.Determined)
      fun t => ∃ x y z, (ρ.value l).agrees x ∧ (ρ.value u).agrees y ∧ (ρ.value t).agrees z ∧
        op.Types x y z := by
  have hboth : ∀ t ∈ [l, u], t.Determined :=
    List.forall_mem_cons.mpr ⟨hl, List.forall_mem_singleton.mpr hu⟩
  cases op <;> dsimp only [binaryType]
  case add | sub | mul =>
    apply sound_fresh.bind
    intro t ht
    refine (sound_demandNumeric ht hboth n _).bind fun _ _ =>
      sound_pure (Ty.determined_of_isVar ht) ?_
    rintro ⟨p, hp, ht, hoperands⟩ _
    obtain ⟨hl, hr⟩ := List.forall_mem_cons.mp hoperands
    exact ⟨_, _, _, hl, hr _ List.mem_cons_self, ht, p, hp, rfl, rfl, rfl⟩
  case lt | le | gt | ge =>
    apply sound_fresh.bind
    intro t ht
    refine (sound_demandNumeric ht hboth n _).bind fun _ _ =>
      sound_pure (Ty.determined_prim _ _) ?_
    rintro ⟨p, hp, _, hoperands⟩ _
    obtain ⟨hl, hr⟩ := List.forall_mem_cons.mp hoperands
    exact ⟨_, _, _, hl, hr _ List.mem_cons_self, rfl, p, hp, rfl, rfl, rfl⟩
  case intDiv | mod | realDiv | and | or | implies | equiv | concat =>
    refine (sound_demandBoth (Ty.determined_prim _ _) hl hu i j _).bind fun _ _ =>
      sound_pure (Ty.determined_prim _ _) ?_
    rintro ⟨hl, hr⟩
    exact ⟨_, _, _, Ty.agrees_trans hl rfl, Ty.agrees_trans hr rfl, rfl, rfl, rfl, rfl⟩
  case range =>
    refine (sound_demandBoth (Ty.determined_prim .int _) hl hu i j _).bind fun _ _ =>
      sound_pure (Ty.determined_set.mpr (Ty.determined_prim _ _)) ?_
    rintro ⟨hl, hr⟩
    exact ⟨_, _, .set (.prim .int .none) .none, Ty.agrees_trans hl rfl, Ty.agrees_trans hr rfl,
      rfl, rfl, rfl, rfl⟩
  case eq | neq =>
    refine (sound_demand hl hu n _).bind fun _ _ => sound_pure (Ty.determined_prim _ _) ?_
    rintro ⟨_, _, h⟩
    exact ⟨_, _, _, h, Ty.agrees_refl _, rfl, rfl, rfl⟩
  case mem | notMem =>
    refine (sound_demand (Ty.determined_set.mpr hl) hu n _).bind fun _ _ =>
      sound_pure (Ty.determined_prim _ _) ?_
    rintro ⟨_, _, h⟩
    exact ⟨ρ.value l, .set (ρ.value l) .none, _, Ty.agrees_refl _,
      Ty.agrees_trans (Ty.agrees_symm h) (Ty.agrees_refl (.set _ .none)), rfl, rfl, rfl⟩
  case union | intersect | setMinus | subset =>
    apply sound_fresh.bind
    intro t ht
    have ht := Ty.determined_of_isVar ht
    refine (sound_demandBoth (t := .set t _) ht hl hu i j _).bind fun _ _ =>
      sound_pure (by first | exact ht | exact Ty.determined_prim _ _) ?_
    rintro ⟨hl, hr⟩ _
    refine ⟨.set (ρ.value t) .none, .set (ρ.value t) .none, _,
      Ty.agrees_trans hl (Ty.agrees_refl (.set _ .none)),
      Ty.agrees_trans hr (Ty.agrees_refl (.set _ .none)), ?_, _, rfl, rfl, rfl⟩
    first | exact Ty.agrees_refl (.set _ .none) | rfl

/-! ## Expressions -/

theorem sound_share (reason : Reason) {first : Option Ty} (hf : ∀ s, first = some s → s.Determined)
    (n : NodeId) {t : Ty} (ht : t.Determined) :
    Sound ρ S (share reason first n t) (fun o => ∃ s, o = some s ∧ s.Determined)
      fun o => ∀ s, o = some s → (ρ.value t).agrees (ρ.value s) ∧
        ∀ u, first = some u → (ρ.value u).agrees (ρ.value s) := by
  cases first with
  | none =>
    refine sound_pure ⟨t, rfl, ht⟩ ?_
    rintro _ ⟨⟩
    refine ⟨Ty.agrees_refl _, ?_⟩
    rintro _ ⟨⟩
  | some u =>
    refine (sound_demand (hf u rfl) ht n reason).bind fun _ _ => sound_pure ⟨u, rfl, hf u rfl⟩ ?_
    rintro ⟨_, _, h⟩ _ ⟨⟩
    refine ⟨Ty.agrees_symm h, ?_⟩
    rintro _ ⟨⟩
    exact Ty.agrees_refl _

theorem sound_sharedOrFresh {first : Option Ty} (hf : ∀ s, first = some s → s.Determined) :
    Sound ρ S (sharedOrFresh first) (fun t => t.Determined)
      fun t => ∀ s, first = some s → t = s := by
  cases first with
  | none =>
    refine sound_fresh.mono (fun _ => Ty.determined_of_isVar) fun _ _ _ => ?_
    rintro _ ⟨⟩
  | some t => exact sound_pure (hf t rfl) fun s hs => Option.some.inj hs

theorem uses_operator_iff {ts : List Ty} {t : Ty} {o : Origins} :
    ρ.Uses (.operator ts t o) ↔ (∀ t ∈ ts, ρ.Uses t) ∧ ρ.Uses t := by
  simp only [Reading.Uses, Ty.vars, Ty.varsList_eq, List.mem_append, List.mem_flatMap]
  grind

/-- The values of a map that is applied have the type of the whole, in whatever
way the node of the whole is given its type. -/
theorem sound_applied {id : NodeId} {f : Ty} {ts : List Ty} {finish : Ty → Drafting Ty}
    (hf : f.Determined) (hts : ∀ t ∈ ts, t.Determined)
    (hfinish : ∀ {u : Ty}, u.Determined → Sound ρ S (finish u) (fun t => t.Determined)
      fun t => ρ.types.Has id (ρ.value t) ∧ ρ.types.Has id (ρ.value u) ∧ ρ.Uses u) :
    Sound ρ S (do
        let value ← fresh
        demand f (.map (keyType id ts) value (.single id)) id .functionApply
        finish value)
      (fun t => t.Determined)
      fun t => ρ.types.Has id (ρ.value t) ∧ ∃ u, ρ.types.Has id u ∧
        (ρ.value f).agrees (.map (Typing.key (ts.map ρ.value)) u .none) := by
  apply sound_fresh.bind
  intro u hu
  have hu := Ty.determined_of_isVar hu
  have hmap : (Ty.map (keyType id ts) u (.single id)).Determined :=
    Ty.determined_map.mpr ⟨determined_keyType id hts, hu⟩
  apply (sound_demand hf hmap id .functionApply).bind
  intro _ _
  apply (hfinish hu).mono (fun _ h => h)
  rintro t _ ⟨ht, hvalue, _⟩ ⟨_, _, hagrees⟩ _
  refine ⟨ht, _, hvalue, Ty.agrees_trans hagrees ?_⟩
  exact Ty.agrees_map_iff.mpr ⟨ρ.value_keyType_agrees id ts, Ty.agrees_refl _⟩

theorem sound_mapM_typeOf (args : List (Node String)) :
    Sound ρ S (args.mapM fun arg => typeOf arg.id) (fun ts => ∀ t ∈ ts, t.Determined)
      fun ts => List.Forall₂ (fun arg t => ρ.Knows arg t) (args.map (·.id)) ts := by
  induction args with
  | nil => exact sound_pure (List.forall_mem_nil _) .nil
  | cons arg args ih =>
    rw [List.mapM_cons]
    refine (sound_typeOf arg.id).bind fun t ht => ih.bind fun ts hts => sound_pure ?_ ?_
    · exact List.forall_mem_cons.mpr ⟨Ty.determined_of_isVar ht, hts⟩
    · exact fun hts ht => .cons ht hts

theorem hasAll_of_knows {ns : List NodeId} {ts : List Ty}
    (h : List.Forall₂ (fun n t => ρ.Knows n t) ns ts) (huses : ∀ t ∈ ts, ρ.Uses t) :
    ρ.types.HasAll ns (ts.map ρ.value) := by
  induction h with
  | nil => exact .nil
  | cons h _ ih =>
    obtain ⟨ht, hts⟩ := List.forall_mem_cons.mp huses
    exact .cons (h ht) (ih hts)

end Drafting

namespace Typing

variable {τ : Typing} {r : Registry}

theorem armsTyped_iff {arms : List Arm} :
    τ.ArmsTyped r arms ↔ (∀ a ∈ arms, τ.ExprTyped r a.condition ∧
      τ.Has a.condition.id (.prim .bool .none)) ∧ ∀ a ∈ arms, τ.ExprTyped r a.result := by
  induction arms with
  | nil => simp [ArmsTyped]
  | cons a arms ih =>
    obtain ⟨condition, result⟩ := a
    rw [ArmsTyped, ih, List.forall_mem_cons, List.forall_mem_cons]
    grind

end Typing

namespace Drafting

variable {ρ : Reading} {S : NodeMap Slots} (around : Surroundings)

mutual

/-- Every reading of the constraints of an expression types it. -/
theorem sound_infer : (e : Expr) →
    Sound ρ S (infer around e) (fun t => t.Determined)
      fun t => ρ.types.Has e.id (ρ.value t) ∧
        ρ.Grants around S (fun scope => scope.exprUses e)
          (ρ.types.ExprTyped around.registry e)
  | .literal id value => by
    rw [infer]
    have hdet : (literalType id value).Determined := by
      cases value <;> exact Ty.determined_prim _ _
    apply (sound_conclude id .literal hdet).mono (fun _ h => h)
    rintro t _ ⟨ht, hvalue, _⟩
    refine ⟨ht, fun _ _ _ => ?_⟩
    cases value <;> exact hvalue.congr rfl
  | .ident id _ | .ref id _ => by
    rw [infer]
    apply (sound_nameType around id (.inl rfl)).bind
    intro u hu
    apply (sound_conclude id .identifier hu).mono (fun _ h => h)
    rintro t _ ⟨ht, hvalue, huses⟩ hname
    refine ⟨ht, fun hshows scope h => ?_⟩
    simp only [Scope.exprUses, Registry.resolves_cons, Scope.site_use] at h
    obtain ⟨⟨decl, hdecl⟩, _⟩ := h
    exact ⟨decl, hdecl, _, hvalue, hname hshows decl hdecl huses⟩
  | .tuple id elems => by
    rw [infer]
    apply (sound_inferList elems).bind
    intro ts hts
    apply (sound_conclude id .tuple (Ty.determined_tuple.mpr hts)).mono (fun _ h => h)
    rintro t _ ⟨ht, hvalue, _⟩ ⟨hall, helems⟩
    refine ⟨ht, fun hshows scope h => ⟨helems hshows scope h, _, hall, ?_⟩⟩
    rw [Reading.value_tuple] at hvalue
    exact hvalue.congr (Ty.agrees_refl (.tuple _ .none))
  | .set id elems => by
    rw [infer]
    apply (sound_inferElements elems none nofun).bind
    intro first hfirst
    apply (sound_sharedOrFresh hfirst).bind
    intro u hu
    apply (sound_conclude id .set (Ty.determined_set.mpr hu)).mono (fun _ h => h)
    rintro t _ ⟨ht, hvalue, _⟩ hshared ⟨helems, _, htyped⟩
    refine ⟨ht, fun hshows scope h => ⟨htyped hshows scope h, ρ.value u, fun e he => ?_,
      hvalue.congr (Ty.agrees_refl (.set _ .none))⟩⟩
    obtain ⟨s, hs, he⟩ := helems e he
    rwa [hshared s hs]
  | .unary id op operand => by
    rw [infer]
    apply (sound_infer operand).bind
    intro u hu
    apply (sound_unaryType id op hu).bind
    intro w hw
    apply (sound_conclude id .operator hw).mono (fun _ h => h)
    rintro t _ ⟨ht, hvalue, _⟩ ⟨x, y, hx, hy, htypes⟩ ⟨hoperand, htyped⟩
    refine ⟨ht, fun hshows scope h => ⟨htyped hshows scope h, x, y, ?_, ?_, htypes⟩⟩
    · exact hoperand.congr hx
    · exact hvalue.congr hy
  | .binary id op left right => by
    rw [infer]
    refine (sound_infer left).bind fun l hl => (sound_infer right).bind fun u hu => ?_
    apply (sound_binaryType id op hl hu).bind
    intro w hw
    apply (sound_conclude id .operator hw).mono (fun _ h => h)
    rintro t _ ⟨ht, hvalue, _⟩ ⟨x, y, z, hx, hy, hz, htypes⟩ ⟨hright, hrtyped⟩ ⟨hleft, hltyped⟩
    refine ⟨ht, fun hshows scope h => ?_⟩
    simp only [Scope.exprUses, Registry.resolves_append] at h
    exact ⟨hltyped hshows scope h.1, hrtyped hshows scope h.2, x, y, z, hleft.congr hx,
      hright.congr hy, hvalue.congr hz, htypes⟩
  | .apply id func args => by
    rw [infer]
    refine (sound_infer func).bind fun f hf => (sound_inferList args).bind fun ts hts => ?_
    apply (sound_applied hf hts (sound_conclude id .functionApply)).mono (fun _ h => h)
    rintro t _ ⟨ht, u, hvalue, hagrees⟩ ⟨hargs, hatyped⟩ ⟨hfunc, hftyped⟩
    refine ⟨ht, fun hshows scope h => ?_⟩
    simp only [Scope.exprUses, Registry.resolves_append] at h
    exact ⟨hftyped hshows scope h.1, hatyped hshows scope h.2, _, u, hargs, hvalue,
      hfunc.congr hagrees⟩
  | .function id bounds body => by
    rw [infer]
    refine (sound_inferBounds bounds).bind fun ts hts => (sound_infer body).bind fun u hu => ?_
    apply (sound_conclude id .functionLiteral
      (Ty.determined_map.mpr ⟨determined_keyType id hts, hu⟩)).mono (fun _ h => h)
    rintro t _ ⟨ht, hvalue, _⟩ ⟨hbody, hbtyped⟩ ⟨hbounds, htyped⟩
    refine ⟨ht, fun hshows scope h => ?_⟩
    simp only [Scope.exprUses, Registry.resolves_append] at h
    refine ⟨htyped hshows scope h.1, hbtyped hshows _ h.2, _, _, hbounds, hbody,
      hvalue.congr ?_⟩
    exact Ty.agrees_map_iff.mpr ⟨ρ.value_keyType_agrees id ts, Ty.agrees_refl _⟩
  | .refinement id bound predicate => by
    rw [infer]
    refine (sound_inferBound bound).bind fun u hu => (sound_infer predicate).bind fun b hb => ?_
    apply (sound_demandBool predicate.id hb).bind
    intro _ _
    apply (sound_conclude id .setFormer (Ty.determined_set.mpr hu)).mono (fun _ h => h)
    rintro t _ ⟨ht, hvalue, _⟩ hbool ⟨hpred, hptyped⟩ ⟨hbound, htyped⟩
    refine ⟨ht, fun hshows scope h => ?_⟩
    simp only [Scope.exprUses, Registry.resolves_append] at h
    exact ⟨htyped hshows scope h.1, hptyped hshows _ h.2, hpred.congr hbool, _, hbound,
      hvalue.congr (Ty.agrees_refl (.set _ .none))⟩
  | .comprehension id body bounds => by
    rw [infer]
    refine (sound_inferBounds bounds).bind fun _ _ => (sound_infer body).bind fun u hu => ?_
    apply (sound_conclude id .setFormer (Ty.determined_set.mpr hu)).mono (fun _ h => h)
    rintro t _ ⟨ht, hvalue, _⟩ ⟨hbody, hbtyped⟩ ⟨_, htyped⟩
    refine ⟨ht, fun hshows scope h => ?_⟩
    simp only [Scope.exprUses, Registry.resolves_append] at h
    exact ⟨htyped hshows scope h.1, hbtyped hshows _ h.2, _, hbody,
      hvalue.congr (Ty.agrees_refl (.set _ .none))⟩
  | .quantified id _ bounds body => by
    rw [infer]
    refine (sound_inferBounds bounds).bind fun _ _ => (sound_infer body).bind fun u hu => ?_
    apply (sound_demandBool body.id hu).bind
    intro _ _
    apply (sound_conclude id .quantifier (Ty.determined_prim _ _)).mono (fun _ h => h)
    rintro t _ ⟨ht, hvalue, _⟩ hbool ⟨hbody, hbtyped⟩ ⟨_, htyped⟩
    refine ⟨ht, fun hshows scope h => ?_⟩
    simp only [Scope.exprUses, Registry.resolves_append] at h
    exact ⟨htyped hshows scope h.1, hbtyped hshows _ h.2, hbody.congr hbool, hvalue.congr rfl⟩
  | .choose id bound predicate => by
    rw [infer]
    refine (sound_inferBound bound).bind fun u hu => (sound_infer predicate).bind fun b hb => ?_
    apply (sound_demandBool predicate.id hb).bind
    intro _ _
    apply (sound_conclude id .choose hu).mono (fun _ h => h)
    rintro t _ ⟨ht, hvalue, _⟩ hbool ⟨hpred, hptyped⟩ ⟨hbound, htyped⟩
    refine ⟨ht, fun hshows scope h => ?_⟩
    simp only [Scope.exprUses, Registry.resolves_append] at h
    exact ⟨htyped hshows scope h.1, hptyped hshows _ h.2, hpred.congr hbool, _, hvalue, hbound⟩
  | .ite id condition thenBranch elseBranch => by
    rw [infer]
    apply (sound_infer condition).bind
    intro c hc
    apply (sound_demandBool condition.id hc).bind
    intro _ _
    refine (sound_infer thenBranch).bind fun u hu => (sound_infer elseBranch).bind fun w hw => ?_
    apply (sound_demand hu hw elseBranch.id .ifBranches).bind
    intro _ _
    apply (sound_conclude id .conditional hu).mono (fun _ h => h)
    rintro t _ ⟨ht, hvalue, _⟩ ⟨_, _, hagrees⟩ ⟨helse, hetyped⟩ ⟨hthen, httyped⟩ hbool
      ⟨hcond, hctyped⟩
    refine ⟨ht, fun hshows scope h => ?_⟩
    simp only [Scope.exprUses, Registry.resolves_append] at h
    exact ⟨hctyped hshows scope h.1.1, httyped hshows scope h.1.2, hetyped hshows scope h.2,
      hcond.congr hbool, _, hthen, helse.congr (Ty.agrees_symm hagrees), hvalue⟩
  | .cases id arms none => by
    rw [infer]
    apply (sound_checkArms arms).bind
    intro _ _
    apply (sound_inferResults arms none nofun).bind
    intro o ho
    apply (sound_sharedOrFresh ho).bind
    intro u hu
    apply (sound_conclude id .cases hu).mono (fun _ h => h)
    rintro t _ ⟨ht, hvalue, _⟩ hshared ⟨harms, _, hrtyped⟩ hctyped
    refine ⟨ht, fun hshows scope h => ?_⟩
    simp only [Scope.exprUses] at h
    refine ⟨Typing.armsTyped_iff.mpr ⟨hctyped hshows scope h, hrtyped hshows scope h⟩,
      ρ.value u, fun a ha => ?_, hvalue⟩
    obtain ⟨s, hs, ha⟩ := harms a ha
    rwa [hshared s hs]
  | .cases id arms (some other) => by
    rw [infer]
    apply (sound_checkArms arms).bind
    intro _ _
    apply (sound_inferResults arms none nofun).bind
    intro o ho
    apply (sound_infer other).bind
    intro w hw
    apply (sound_share .caseArms ho other.id hw).bind
    intro o' ho'
    obtain ⟨s, rfl, hs⟩ := ho'
    apply (sound_sharedOrFresh (by rintro _ ⟨⟩; exact hs)).bind
    intro u hu
    apply (sound_conclude id .cases hu).mono (fun _ h => h)
    rintro t _ ⟨ht, hvalue, _⟩ hshared hshare ⟨hother, hotyped⟩ ⟨harms, _, hrtyped⟩ hctyped
    obtain rfl := hshared s rfl
    obtain ⟨hws, hfirsts⟩ := hshare u rfl
    refine ⟨ht, fun hshows scope h => ?_⟩
    simp only [Scope.exprUses, Registry.resolves_append] at h
    refine ⟨Typing.armsTyped_iff.mpr ⟨hctyped hshows scope h.1, hrtyped hshows scope h.1⟩,
      hotyped hshows scope h.2, ρ.value u, fun a ha => ?_, hother.congr hws, hvalue⟩
    obtain ⟨s, hs, ha⟩ := harms a ha
    exact ha.congr (hfirsts s hs)
  | .letIn id definitions body => by
    rw [infer]
    refine (sound_inferDefinitions definitions).bind fun _ _ => (sound_infer body).bind
      fun u hu => ?_
    apply (sound_conclude id .letIn hu).mono (fun _ h => h)
    rintro t _ ⟨ht, hvalue, _⟩ ⟨hbody, hbtyped⟩ htyped
    refine ⟨ht, fun hshows scope h => ?_⟩
    simp only [Scope.exprUses, Registry.resolves_append] at h
    exact ⟨htyped hshows scope h.1, hbtyped hshows _ h.2, _, hvalue, hbody⟩
  | .call id name args => by
    rw [infer]
    refine (sound_inferList args).bind fun ts hts => sound_fresh.bind fun u hu => ?_
    have hu := Ty.determined_of_isVar hu
    split
    · next decl hdecl =>
      apply (sound_typeOf decl).bind
      intro signature hs
      apply (sound_demand (Ty.determined_of_isVar hs) (Ty.determined_operator.mpr ⟨hts, hu⟩) id
        (.operatorCall name)).bind
      intro _ _
      apply (sound_conclude id .operatorCall hu).mono (fun _ h => h)
      rintro t _ ⟨ht, hvalue, _⟩ ⟨huses, _, hagrees⟩ hknows _ ⟨hargs, htyped⟩
      refine ⟨ht, fun hshows scope h => ?_⟩
      simp only [Scope.exprUses, Registry.resolves_cons] at h
      refine ⟨htyped hshows scope h.2, decl, _, _, hdecl, hargs, hvalue, ?_⟩
      rw [Reading.value_operator] at hagrees
      exact ((hknows huses).congr hagrees).congr (Ty.agrees_refl (.operator _ _ .none))
    · next hnone =>
      -- Without a declaration nothing is demanded, but such a call does not resolve.
      apply (sound_conclude id .operatorCall hu).mono (fun _ h => h)
      rintro t _ ⟨ht, _, _⟩ _ _
      refine ⟨ht, fun hshows scope h => ?_⟩
      simp only [Scope.exprUses, Registry.resolves_cons, Scope.site_use] at h
      obtain ⟨⟨decl, hdecl⟩, _⟩ := h
      exact absurd hdecl (hnone decl)

theorem sound_inferList : (es : List Expr) →
    Sound ρ S (inferList around es) (fun ts => ∀ t ∈ ts, t.Determined)
      fun ts => ρ.types.HasAll (es.map (·.id)) (ts.map ρ.value) ∧
        ρ.Grants around S (fun scope => scope.listUses es)
          (ρ.types.ListTyped around.registry es)
  | [] => by
    rw [inferList]
    exact sound_pure (List.forall_mem_nil _) ⟨.nil, fun _ _ _ => trivial⟩
  | e :: es => by
    rw [inferList]
    refine (sound_infer e).bind fun t ht => (sound_inferList es).bind fun ts hts => ?_
    refine sound_pure (List.forall_mem_cons.mpr ⟨ht, hts⟩) ?_
    rintro ⟨hes, htyped⟩ ⟨he, hetyped⟩
    refine ⟨.cons he hes, fun hshows scope h => ?_⟩
    simp only [Scope.listUses, Registry.resolves_append] at h
    exact ⟨hetyped hshows scope h.1, htyped hshows scope h.2⟩

theorem sound_inferElements : (es : List Expr) → (first : Option Ty) →
    (∀ s, first = some s → s.Determined) →
    Sound ρ S (inferElements around first es) (fun o => ∀ s, o = some s → s.Determined)
      fun o => (∀ e ∈ es, ∃ s, o = some s ∧ ρ.types.Has e.id (ρ.value s)) ∧
        (∀ u, first = some u → ∃ s, o = some s ∧ (ρ.value u).agrees (ρ.value s)) ∧
        ρ.Grants around S (fun scope => scope.listUses es)
          (ρ.types.ListTyped around.registry es)
  | [], first, hfirst => by
    rw [inferElements]
    exact sound_pure hfirst ⟨List.forall_mem_nil _, fun u hu => ⟨u, hu, Ty.agrees_refl _⟩,
      fun _ _ _ => trivial⟩
  | e :: es, first, hfirst => by
    rw [inferElements]
    apply (sound_infer e).bind
    intro t ht
    apply (sound_share .setElements hfirst e.id ht).bind
    intro o ho
    obtain ⟨s, rfl, hs⟩ := ho
    apply (sound_inferElements es (some s) (by rintro _ ⟨⟩; exact hs)).mono (fun _ h => h)
    rintro o _ ⟨hes, hshared, htyped⟩ hshare ⟨he, hetyped⟩
    obtain ⟨hts, hfirsts⟩ := hshare s rfl
    obtain ⟨w, rfl, hsw⟩ := hshared s rfl
    refine ⟨List.forall_mem_cons.mpr ⟨?_, hes⟩, fun u hu => ?_, fun hshows scope h => ?_⟩
    · exact ⟨w, rfl, he.congr (Ty.agrees_trans hts hsw)⟩
    · exact ⟨w, rfl, Ty.agrees_trans (hfirsts u hu) hsw⟩
    · simp only [Scope.listUses, Registry.resolves_append] at h
      exact ⟨hetyped hshows scope h.1, htyped hshows scope h.2⟩

theorem sound_inferBound : (b : Bound) →
    Sound ρ S (inferBound around b) (fun t => t.Determined)
      fun t => ρ.types.Has b.id (ρ.value t) ∧
        ρ.Grants around S (fun scope => scope.boundUse b)
          (ρ.types.BoundTyped around.registry b)
  | ⟨id, name, set⟩ => by
    rw [inferBound]
    refine (sound_infer set).bind fun u hu => (sound_typeOf id).bind fun t ht => ?_
    have ht := Ty.determined_of_isVar ht
    refine (sound_demand (Ty.determined_set.mpr ht) hu id .membership).bind fun _ _ =>
      sound_pure ht ?_
    rintro ⟨huses, _, hagrees⟩ hknows ⟨hset, htyped⟩
    refine ⟨hknows huses, fun hshows scope h => ?_⟩
    refine ⟨htyped hshows scope h, _, hknows huses, ?_⟩
    exact (hset.congr (Ty.agrees_symm hagrees)).congr (Ty.agrees_refl (.set _ .none))

theorem sound_inferBounds : (bs : List Bound) →
    Sound ρ S (inferBounds around bs) (fun ts => ∀ t ∈ ts, t.Determined)
      fun ts => ρ.types.HasAll (bs.map (·.id)) (ts.map ρ.value) ∧
        ρ.Grants around S (fun scope => scope.boundUses bs)
          (ρ.types.BoundsTyped around.registry bs)
  | [] => by
    rw [inferBounds]
    exact sound_pure (List.forall_mem_nil _) ⟨.nil, fun _ _ _ => trivial⟩
  | b :: bs => by
    rw [inferBounds]
    refine (sound_inferBound b).bind fun t ht => (sound_inferBounds bs).bind fun ts hts => ?_
    refine sound_pure (List.forall_mem_cons.mpr ⟨ht, hts⟩) ?_
    rintro ⟨hbs, htyped⟩ ⟨hb, hbtyped⟩
    refine ⟨.cons hb hbs, fun hshows scope h => ?_⟩
    simp only [Scope.boundUses, Registry.resolves_append] at h
    exact ⟨hbtyped hshows scope h.1, htyped hshows scope h.2⟩

theorem sound_checkArms : (arms : List Arm) →
    Sound ρ S (checkArms around arms) (fun _ => True)
      fun _ => ρ.Grants around S (fun scope => scope.armUses arms)
        (∀ a ∈ arms, ρ.types.ExprTyped around.registry a.condition ∧
          ρ.types.Has a.condition.id (.prim .bool .none))
  | [] => by
    rw [checkArms]
    exact sound_pure trivial fun _ _ _ => List.forall_mem_nil _
  | ⟨condition, result⟩ :: arms => by
    rw [checkArms]
    apply (sound_infer condition).bind
    intro t ht
    apply (sound_demandBool condition.id ht).bind
    intro _ _
    apply (sound_checkArms arms).mono (fun _ h => h)
    rintro _ _ harms hbool ⟨hcond, htyped⟩ hshows scope h
    simp only [Scope.armUses, Registry.resolves_append] at h
    refine List.forall_mem_cons.mpr ⟨⟨?_, hcond.congr hbool⟩, harms hshows scope h.2⟩
    exact htyped hshows scope h.1.1

theorem sound_inferResults : (arms : List Arm) → (first : Option Ty) →
    (∀ s, first = some s → s.Determined) →
    Sound ρ S (inferResults around first arms) (fun o => ∀ s, o = some s → s.Determined)
      fun o => (∀ a ∈ arms, ∃ s, o = some s ∧ ρ.types.Has a.result.id (ρ.value s)) ∧
        (∀ u, first = some u → ∃ s, o = some s ∧ (ρ.value u).agrees (ρ.value s)) ∧
        ρ.Grants around S (fun scope => scope.armUses arms)
          (∀ a ∈ arms, ρ.types.ExprTyped around.registry a.result)
  | [], first, hfirst => by
    rw [inferResults]
    exact sound_pure hfirst ⟨List.forall_mem_nil _, fun u hu => ⟨u, hu, Ty.agrees_refl _⟩,
      fun _ _ _ => List.forall_mem_nil _⟩
  | ⟨condition, result⟩ :: arms, first, hfirst => by
    rw [inferResults]
    apply (sound_infer result).bind
    intro t ht
    apply (sound_share .caseArms hfirst result.id ht).bind
    intro o ho
    obtain ⟨s, rfl, hs⟩ := ho
    apply (sound_inferResults arms (some s) (by rintro _ ⟨⟩; exact hs)).mono (fun _ h => h)
    rintro o _ ⟨harms, hshared, htyped⟩ hshare ⟨hresult, hrtyped⟩
    obtain ⟨hts, hfirsts⟩ := hshare s rfl
    obtain ⟨w, rfl, hsw⟩ := hshared s rfl
    refine ⟨List.forall_mem_cons.mpr ⟨?_, harms⟩, fun u hu => ?_, fun hshows scope h => ?_⟩
    · exact ⟨w, rfl, hresult.congr (Ty.agrees_trans hts hsw)⟩
    · exact ⟨w, rfl, Ty.agrees_trans (hfirsts u hu) hsw⟩
    · simp only [Scope.armUses, Registry.resolves_append] at h
      exact List.forall_mem_cons.mpr ⟨hrtyped hshows scope h.1.2, htyped hshows scope h.2⟩

theorem sound_inferDefinition : (d : Definition) →
    Sound ρ S (inferDefinition around d) (fun _ => True)
      fun _ => ρ.Grants around S (fun scope => scope.definitionUse d)
        (ρ.types.DefinitionTyped around.registry d)
  | ⟨id, name, args, body⟩ => by
    rw [inferDefinition]
    apply (sound_typeOf id).bind
    intro signature hs
    refine (sound_mapM_typeOf args).bind fun ts hts => (sound_infer body).bind fun t ht => ?_
    apply (sound_record id .signature _ name).bind
    intro _ _
    apply (sound_demand (Ty.determined_of_isVar hs) (Ty.determined_operator.mpr ⟨hts, ht⟩) id
      .operatorDefinition).mono (fun _ h => h)
    rintro _ _ ⟨huses, husesOp, hagrees⟩ _ ⟨hbody, htyped⟩ hargs hknows hshows scope h
    obtain ⟨hargUses, _⟩ := uses_operator_iff.mp husesOp
    refine ⟨htyped hshows _ h, _, _, hasAll_of_knows hargs hargUses, hbody, ?_⟩
    rw [Reading.value_operator] at hagrees
    exact ((hknows huses).congr hagrees).congr (Ty.agrees_refl (.operator _ _ .none))

theorem sound_inferDefinitions : (ds : List Definition) →
    Sound ρ S (inferDefinitions around ds) (fun _ => True)
      fun _ => ρ.Grants around S (fun scope => scope.definitionUses ds)
        (ρ.types.DefinitionsTyped around.registry ds)
  | [] => by
    rw [inferDefinitions]
    exact sound_pure trivial fun _ _ _ => trivial
  | d :: ds => by
    rw [inferDefinitions]
    apply (sound_inferDefinition d).bind
    intro _ _
    apply (sound_inferDefinitions ds).mono (fun _ h => h)
    rintro _ _ htyped hd hshows scope h
    simp only [Scope.definitionUses, Registry.resolves_append] at h
    exact ⟨hd hshows scope h.1, htyped hshows _ h.2⟩

end

end Drafting

end PlusCalTyping
