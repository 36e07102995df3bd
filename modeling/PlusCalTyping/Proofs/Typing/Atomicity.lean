import PlusCalTyping.Proofs.Typing.GoTypes
import PlusCalTyping.Proofs.Typing.Registries

/-! # Operations in place

A registry is changed in place. What an operation has changed is not taken back
where it fails, so it must not change anything before it is known not to fail.
Here the operations are carried out store by store. They come to what the
operations on registries as values give, and leave the registry that there was
where those give none (`supplyConstant_eq`, `recordGlobalTypes_eq`,
`checkTypes_eq`). So an operation that fails has stored nothing but slots
(`Registry.unchanged_of_error`).
-/

namespace PlusCalTyping

/-- An operation that changes a registry in place, also where it fails. -/
abbrev Updating (ε : Type) := EStateM ε Registry

namespace Updating

variable {ε α : Type}

/-- Store where a name that is used is declared, if it is. -/
def refer (u : Use) : Updating ε Unit :=
  modify fun r => { r with references := Use.references [u] r.references }

/-- Give a value to a constant. All names of the value are looked up first. -/
def supplyConstant (name : String) (value : Expr) : Updating Registry.ConstantError Unit := do
  let r ← get
  match r.constants.find? (·.value = name) with
  | none => throw (.undeclared name value.id)
  | some c =>
    let uses := r.globalScope.exprUses value
    if (Use.diagnostics uses).isEmpty then
      uses.forM refer
      modify fun r => { r with constantValues := r.constantValues.insert c.id value }
    else throw (.undefinedNames uses)

/-- Store the Go types of the globals. All of them are converted first. -/
def recordGlobalTypes (types : NodeMap Ty) : Updating InferenceError Unit := do
  match Registry.goTypes types (← get).globalVariables with
  | .ok found => found.forM fun ng => modify (·.setGlobalType ng.1 ng.2)
  | .error e => throw e

/-- Infer types, and store the Go types of the globals if there is no error. -/
def checkTypes (a : Algorithm) (o : Options) : Updating InferenceError Findings := do
  let findings ← modifyGet (·.reinfer a o)
  if findings.hasErrors then throw (.failed findings.diagnostics)
  recordGlobalTypes findings.types
  return findings

/-- The end of an operation that gives a new registry or fails. -/
def ending (r : Registry) : Except ε Registry → EStateM.Result ε Registry Unit
  | .ok r' => .ok () r'
  | .error e => .error e r

theorem bind_of_ok {β : Type} {m : Updating ε α} {g : α → Updating ε β} {r r' : Registry} {x : α}
    (h : m r = .ok x r') : (m >>= g) r = g x r' := by
  simp only [bind, EStateM.bind, h]

theorem bind_of_error {β : Type} {m : Updating ε α} {g : α → Updating ε β} {r r' : Registry}
    {e : ε} (h : m r = .error e r') : (m >>= g) r = .error e r' := by
  simp only [bind, EStateM.bind, h]

theorem get_eq (r : Registry) : (get : Updating ε Registry) r = .ok r r := rfl

/-- Stores that one follows another. -/
theorem forM_modify (f : α → Registry → Registry) (xs : List α) (r : Registry) :
    (xs.forM fun x => (modify (f x) : Updating ε Unit)) r =
      .ok () (xs.foldl (fun r x => f x r) r) := by
  induction xs generalizing r with
  | nil => rfl
  | cons x xs ih => exact ih (f x r)

theorem forM_refer (uses : List Use) (r : Registry) :
    (uses.forM refer : Updating ε Unit) r =
      .ok () { r with references := Use.references uses r.references } := by
  induction uses generalizing r with
  | nil => rfl
  | cons u uses ih => exact ih { r with references := Use.references [u] r.references }

theorem supplyConstant_eq (r : Registry) (name : String) (value : Expr) :
    supplyConstant name value r = ending r (r.setConstantValue name value) := by
  rw [supplyConstant, bind_of_ok (get_eq r), Registry.setConstantValue]
  cases r.constants.find? (·.value = name) with
  | none => rfl
  | some c =>
    dsimp only
    split
    · exact bind_of_ok (forM_refer _ r)
    · rfl

theorem recordGlobalTypes_eq (r : Registry) (types : NodeMap Ty) :
    recordGlobalTypes types r = ending r (r.writeGlobalTypes types) := by
  rw [recordGlobalTypes, bind_of_ok (get_eq r), Registry.writeGlobalTypes]
  cases Registry.goTypes types r.globalVariables with
  | error e => rfl
  | ok found => exact forM_modify (fun ng r => r.setGlobalType ng.1 ng.2) found r

theorem checkTypes_eq (r : Registry) (a : Algorithm) (o : Options) :
    checkTypes a o r =
      match r.recheck a o with
      | (.ok findings, r') => .ok findings r'
      | (.error e, r') => .error e r' := by
  have hinfer : (modifyGet (·.reinfer a o) : Updating InferenceError Findings) r =
      .ok (r.reinfer a o).1 (r.reinfer a o).2 := rfl
  rw [checkTypes, bind_of_ok hinfer]
  unfold Registry.recheck Registry.complete
  dsimp only
  split
  · rfl
  · have hrecord := recordGlobalTypes_eq (r.reinfer a o).2 (r.reinfer a o).1.types
    cases hwrite : (r.reinfer a o).2.writeGlobalTypes (r.reinfer a o).1.types with
    | ok r' =>
      rw [hwrite] at hrecord
      exact bind_of_ok hrecord
    | error e =>
      rw [hwrite] at hrecord
      exact bind_of_error hrecord

end Updating

namespace Registry

variable {r r' : Registry} {types : NodeMap Ty} {e : InferenceError}

/-- The node has no type, or one that has a Go type. -/
def Convertible (types : NodeMap Ty) (n : NodeId) : Prop :=
  ∀ t, types[n]? = some t → ∃ g, t.toGo = .ok g

/-- The first of some nodes, in their order, that has a type without a Go type. -/
def FirstInconvertible (types : NodeMap Ty) (ns : List NodeId) (n : NodeId) (reason : NoGoType) :
    Prop :=
  ∃ before after t, ns = before ++ n :: after ∧ types[n]? = some t ∧ t.toGo = .error reason ∧
    ∀ m ∈ before, Convertible types m

/-- Nodes are converted in their order, up to the first that cannot be. -/
theorem goTypes_cases (types : NodeMap Ty) (ns : List NodeId) :
    (∃ found, goTypes types ns = .ok found ∧ ∀ n ∈ ns, Convertible types n) ∨
    ∃ n reason, goTypes types ns = .error (.noGoType n reason) ∧
      FirstInconvertible types ns n reason := by
  induction ns with
  | nil => exact .inl ⟨[], rfl, List.forall_mem_nil _⟩
  | cons m ns ih =>
    -- What is found of the remaining nodes counts if the first one can be converted.
    have hlater (hm : Convertible types m) (n : NodeId) (reason : NoGoType)
        (h : FirstInconvertible types ns n reason) :
        FirstInconvertible types (m :: ns) n reason := by
      obtain ⟨before, after, t, rfl, ht, hreason, hbefore⟩ := h
      exact ⟨m :: before, after, t, rfl, ht, hreason, List.forall_mem_cons.mpr ⟨hm, hbefore⟩⟩
    unfold goTypes
    cases ht : types[m]? with
    | none =>
      have hm : Convertible types m := fun t h => by cases ht.symm.trans h
      rcases ih with ⟨found, hfound, hall⟩ | ⟨n, reason, herror, hfirst⟩
      · exact .inl ⟨found, hfound, List.forall_mem_cons.mpr ⟨hm, hall⟩⟩
      · exact .inr ⟨n, reason, herror, hlater hm n reason hfirst⟩
    | some t =>
      cases hg : t.toGo with
      | error reason =>
        exact .inr ⟨m, reason, by simp only [hg]; rfl, [], ns, t, rfl, ht, hg,
          List.forall_mem_nil _⟩
      | ok g =>
        have hm : Convertible types m := fun u hu => by
          cases ht.symm.trans hu
          exact ⟨g, hg⟩
        rcases ih with ⟨found, hfound, hall⟩ | ⟨n, reason, herror, hfirst⟩
        · exact .inl ⟨(m, g) :: found, by simp only [hg, hfound]; rfl,
            List.forall_mem_cons.mpr ⟨hm, hall⟩⟩
        · exact .inr ⟨n, reason, by simp only [hg, herror]; rfl, hlater hm n reason hfirst⟩

/-- Recording Go types fails at the first global that cannot be converted. -/
theorem firstInconvertible_of_writeGlobalTypes (h : r.writeGlobalTypes types = .error e) :
    ∃ n reason, e = .noGoType n reason ∧
      FirstInconvertible types r.globalVariables n reason := by
  unfold writeGlobalTypes at h
  rcases goTypes_cases types r.globalVariables with ⟨found, hfound, _⟩ | ⟨n, reason, herror, hfirst⟩
  · rw [hfound] at h
    cases h
  · rw [herror] at h
    cases h
    exact ⟨n, reason, rfl, hfirst⟩

/-- Where it succeeds, the globals with a type get its Go type. -/
theorem globalType_of_writeGlobalTypes (h : r.writeGlobalTypes types = .ok r') :
    (∃ globalTypes, r' = { r with globalTypes := globalTypes }) ∧
    (∀ n ∈ r.globalVariables, ∀ t, types[n]? = some t →
      ∃ g, t.toGo = .ok g ∧ r'.globalType n = some g) ∧
    ∀ n, n ∉ r.globalVariables ∨ types[n]? = none → r'.globalType n = r.globalType n := by
  obtain ⟨found, hfound, rfl⟩ := exists_found_of_writeGlobalTypes h
  rcases goTypes_cases types r.globalVariables with ⟨_, _, hall⟩ | ⟨_, _, herror, _⟩
  · refine ⟨exists_foldl_setGlobalType_eq found r, fun n hn t ht => ?_, fun n hn => ?_⟩
    · obtain ⟨g, hg⟩ := hall n hn t ht
      refine ⟨g, hg, ?_⟩
      rw [globalType_foldl hfound, if_pos hn, ht, Option.bind_some, Ty.toGo_eq_ok_iff.mp hg,
        Option.some_or]
    · rw [globalType_foldl hfound]
      rcases hn with hn | hn
      · rw [if_neg hn]
      · rw [hn, Option.bind_none, Option.none_or, ite_self]
  · cases hfound.symm.trans herror

theorem complete_of_error {f : Findings} (h : (r.complete f).1 = .error e) :
    (r.complete f).2 = r := by
  unfold complete at h ⊢
  split
  · rfl
  · next hok =>
    rw [if_neg hok] at h
    split
    · next hwrite =>
      rw [hwrite] at h
      cases h
    · rfl

/-- A check that fails leaves other slots at most. -/
theorem exists_slots_of_error {a : Algorithm} {o : Options} {slots : NodeMap Slots}
    (h : ((r.inferFrom slots a o).2.complete (r.inferFrom slots a o).1).1 = .error e) :
    ∃ slots', ((r.inferFrom slots a o).2.complete (r.inferFrom slots a o).1).2 =
      { r with slots := slots' } := by
  rw [complete_of_error h]
  unfold inferFrom
  split
  · exact ⟨r.slots, rfl⟩
  · exact ⟨_, rfl⟩

/-- An operation that fails has stored nothing but slots. Recording Go types fails at
the first global whose type has none; where it succeeds, the globals with a type
have got its Go type, and nothing else is changed. -/
theorem unchanged_of_error (r : Registry) (a : Algorithm) (o : Options) (name : String)
    (value : Expr) (types : NodeMap Ty) :
    (∀ e r', Updating.supplyConstant name value r = .error e r' → r' = r) ∧
    (∀ e r', Updating.recordGlobalTypes types r = .error e r' → r' = r ∧
      ∃ n reason, e = .noGoType n reason ∧
        FirstInconvertible types r.globalVariables n reason) ∧
    (∀ e r', Updating.checkTypes a o r = .error e r' →
      ∃ slots, r' = { r with slots := slots }) ∧
    (∀ e, (r.check a o).1 = .error e → ∃ slots, (r.check a o).2 = { r with slots := slots }) ∧
    ∀ r', Updating.recordGlobalTypes types r = .ok () r' →
      (∃ globalTypes, r' = { r with globalTypes := globalTypes }) ∧
      (∀ n ∈ r.globalVariables, ∀ t, types[n]? = some t →
        ∃ g, t.toGo = .ok g ∧ r'.globalType n = some g) ∧
      ∀ n, n ∉ r.globalVariables ∨ types[n]? = none → r'.globalType n = r.globalType n := by
  rw [Updating.supplyConstant_eq, Updating.recordGlobalTypes_eq, Updating.checkTypes_eq]
  refine ⟨fun e r' h => ?_, fun e r' h => ?_, fun e r' h => ?_, fun e h => ?_, fun r' h => ?_⟩
  · cases hset : r.setConstantValue name value <;> rw [hset] at h <;> cases h
    rfl
  · cases hwrite : r.writeGlobalTypes types <;> rw [hwrite] at h <;> cases h
    exact ⟨rfl, firstInconvertible_of_writeGlobalTypes hwrite⟩
  · cases hcheck : r.recheck a o with
    | mk result left =>
      rw [hcheck] at h
      cases result <;> cases h
      have hleft : (r.recheck a o).1 = .error e := by rw [hcheck]
      have hslots : ∃ slots, (r.recheck a o).2 = { r with slots := slots } :=
        exists_slots_of_error hleft
      rwa [hcheck] at hslots
  · exact exists_slots_of_error h
  · cases hwrite : r.writeGlobalTypes types <;> rw [hwrite] at h <;> cases h
    exact globalType_of_writeGlobalTypes hwrite

/-- The first global has a Go type, the second has none, and the third would have none
either. A value is refused for one of its two names. -/
theorem unchanged_of_error_second_global :
    let x : NodeId := ⟨0⟩
    let y : NodeId := ⟨1⟩
    let z : NodeId := ⟨2⟩
    let a : Algorithm := {
      constants := [⟨⟨3⟩, "N"⟩]
      globals := [⟨z, "z", none⟩, ⟨y, "y", none⟩, ⟨x, "x", none⟩] }
    let r := (ofAlgorithm a).setGlobalType z .bool
    let types := (((∅ : NodeMap Ty).insert x (.var ⟨0⟩)).insert y (.unresolved .none)).insert z
      (.int z)
    let value : Expr := .tuple ⟨4⟩ [.ident ⟨5⟩ "x", .ident ⟨6⟩ "missing"]
    (∃ e, Updating.supplyConstant "N" value r = .error e r) ∧
    ∃ reason, Updating.recordGlobalTypes types r = .error (.noGoType y reason) r ∧
      FirstInconvertible types r.globalVariables y reason := by
  intro x y z a r types value
  let reason : NoGoType := .undetermined (.unresolved .none)
  have hrefused : (r.setConstantValue "N" value).isOk = false := by
    simp only [value, r, a, x, y, z]
    cbv
  have hfound : goTypes types r.globalVariables = .error (.noGoType y reason) := by
    simp only [types, reason, r, a, x, y, z]
    cbv
  have hrecorded : Updating.recordGlobalTypes types r = .error (.noGoType y reason) r := by
    rw [Updating.recordGlobalTypes_eq, writeGlobalTypes, hfound]
    rfl
  obtain ⟨_, hrecord, _⟩ := unchanged_of_error r a {} "N" value types
  constructor
  · rw [Updating.supplyConstant_eq]
    cases hset : r.setConstantValue "N" value with
    | ok r' =>
      rw [hset] at hrefused
      cases hrefused
    | error e => exact ⟨e, rfl⟩
  · obtain ⟨_, n, reason', hnode, hfirst⟩ := hrecord _ _ hrecorded
    cases hnode
    exact ⟨reason, hrecorded, hfirst⟩

end Registry

end PlusCalTyping
