import Mathlib.Data.List.Basic
import PlusCalTyping.Constraint.Basic
import PlusCalTyping.Proofs.Ty.Agreement
import PlusCalTyping.Unify

/-! # Translations

A translation calls variables by other names, different ones by different
names, and moves everything to other nodes. Making types equal only looks at
their shape and at which variables are the same, so it does the same before and
after a translation (`Unify.run_translate`), and its bindings are translations
of each other (`Substitution.Translates`).
-/

namespace PlusCalTyping

structure Translation where
  var : TypeVar → TypeVar
  origins : Origins → Origins
  provenance : Provenance → Provenance
  injective : Function.Injective var

namespace Translation

/-- Call the variables by other names and change nothing else. -/
def rename (ρ : TypeVar → TypeVar) (hρ : Function.Injective ρ) : Translation := ⟨ρ, id, id, hρ⟩

@[simp]
theorem rename_var (ρ : TypeVar → TypeVar) (hρ : Function.Injective ρ) (v : TypeVar) :
    (rename ρ hρ).var v = ρ v := rfl

@[simp]
theorem rename_provenance (ρ : TypeVar → TypeVar) (hρ : Function.Injective ρ) (p : Provenance) :
    (rename ρ hρ).provenance p = p := rfl

def same : Translation := rename id Function.injective_id

/-- Forget where types came from, and let one node demand everything. -/
def forget (p : Provenance) : Translation := ⟨id, fun _ => .none, fun _ => p, Function.injective_id⟩

end Translation

/-! ## Types -/

namespace Ty

mutual

def translate (T : Translation) : Ty → Ty
  | prim p o => prim p (T.origins o)
  | var v => var (T.var v)
  | set elem o => set (translate T elem) (T.origins o)
  | tuple elems o => tuple (translateList T elems) (T.origins o)
  | map key value o => map (translate T key) (translate T value) (T.origins o)
  | procedure params o => procedure (translateList T params) (T.origins o)
  | operator params result o =>
    operator (translateList T params) (translate T result) (T.origins o)
  | unresolved o => unresolved (T.origins o)

def translateList (T : Translation) : List Ty → List Ty
  | [] => []
  | t :: ts => translate T t :: translateList T ts

end

variable {T : Translation}

theorem translateList_eq (T : Translation) (ts : List Ty) :
    translateList T ts = ts.map (translate T) := by
  induction ts with
  | nil => rfl
  | cons t ts ih => rw [translateList, ih, List.map_cons]

theorem isVar_translate (t : Ty) : (t.translate T).isVar = t.isVar := by
  cases t <;> rfl

mutual

theorem vars_translate : (t : Ty) → (t.translate T).vars = t.vars.map T.var
  | prim _ _ | var _ | unresolved _ => rfl
  | set elem _ => vars_translate elem
  | tuple elems _ => varsList_translateList elems
  | map key value _ => by
    simp only [translate, vars, vars_translate key, vars_translate value, List.map_append]
  | procedure params _ => varsList_translateList params
  | operator params result _ => by
    simp only [translate, vars, varsList_translateList params, vars_translate result,
      List.map_append]

theorem varsList_translateList :
    (ts : List Ty) → varsList (translateList T ts) = (varsList ts).map T.var
  | [] => rfl
  | t :: ts => by
    simp only [translateList, varsList, vars_translate t, varsList_translateList ts,
      List.map_append]

end

theorem containsVars_translate (t : Ty) : (t.translate T).containsVars = t.containsVars := by
  rw [containsVars, containsVars, vars_translate, List.isEmpty_map]

theorem mem_vars_translate {v : TypeVar} {t : Ty} :
    T.var v ∈ (t.translate T).vars ↔ v ∈ t.vars := by
  rw [vars_translate, List.mem_map_of_injective T.injective]

mutual

/-- A translation can be put behind a substitution if what is put in is translated. -/
theorem translate_subst {f g : TypeVar → Ty} :
    (t : Ty) → (∀ v ∈ t.vars, g (T.var v) = (f v).translate T) →
      (t.translate T).subst g = (t.subst f).translate T
  | prim _ _, _ | unresolved _, _ => rfl
  | var v, h => h v (List.mem_singleton_self v)
  | set elem _, h => by simp only [translate, subst, translate_subst elem h]
  | tuple elems _, h => by simp only [translate, subst, translateList_substList elems h]
  | map key value _, h => by
    simp only [translate, subst, translate_subst key fun v hv => h v (List.mem_append_left _ hv),
      translate_subst value fun v hv => h v (List.mem_append_right _ hv)]
  | procedure params _, h => by simp only [translate, subst, translateList_substList params h]
  | operator params result _, h => by
    simp only [translate, subst,
      translateList_substList params fun v hv => h v (List.mem_append_left _ hv),
      translate_subst result fun v hv => h v (List.mem_append_right _ hv)]

theorem translateList_substList {f g : TypeVar → Ty} :
    (ts : List Ty) → (∀ v ∈ varsList ts, g (T.var v) = (f v).translate T) →
      substList g (translateList T ts) = translateList T (substList f ts)
  | [], _ => rfl
  | t :: ts, h => by
    simp only [translateList, substList,
      translate_subst t fun v hv => h v (List.mem_append_left _ hv),
      translateList_substList ts fun v hv => h v (List.mem_append_right _ hv)]

end

theorem translate_replace (t u : Ty) (v : TypeVar) :
    (t.translate T).replace (T.var v) (u.translate T) = (t.replace v u).translate T := by
  refine translate_subst t fun w _ => ?_
  simp only [T.injective.eq_iff]
  split <;> rfl

mutual

theorem translate_agrees_translate :
    (s t : Ty) → (s.translate T).agrees (t.translate T) = s.agrees t
  | s, t => by
    cases s <;> cases t <;> simp only [translate, agrees]
    case var.var v w => simp only [T.injective.eq_iff]
    case set.set s _ t _ => exact translate_agrees_translate s t
    case tuple.tuple ss _ ts _ => exact translateList_agreesList_translateList ss ts
    case map.map k v _ l w _ =>
      rw [translate_agrees_translate k l, translate_agrees_translate v w]
    case procedure.procedure ss _ ts _ => exact translateList_agreesList_translateList ss ts
    case operator.operator ss s _ ts t _ =>
      rw [translateList_agreesList_translateList ss ts, translate_agrees_translate s t]

theorem translateList_agreesList_translateList :
    (ss ts : List Ty) → agreesList (translateList T ss) (translateList T ts) = agreesList ss ts
  | [], [] | [], _ :: _ | _ :: _, [] => rfl
  | s :: ss, t :: ts => by
    simp only [translateList, agreesList, translate_agrees_translate s t,
      translateList_agreesList_translateList ss ts]

end

mutual

theorem translate_rename {ρ : TypeVar → TypeVar} (hρ : Function.Injective ρ) :
    (t : Ty) → t.translate (.rename ρ hρ) = t.subst (var ∘ ρ)
  | prim _ _ | var _ | unresolved _ => rfl
  | set elem _ => by rw [translate, translate_rename hρ elem]; rfl
  | tuple elems _ => by rw [translate, translateList_rename hρ elems]; rfl
  | map key value _ => by
    rw [translate, translate_rename hρ key, translate_rename hρ value]; rfl
  | procedure params _ => by rw [translate, translateList_rename hρ params]; rfl
  | operator params result _ => by
    rw [translate, translateList_rename hρ params, translate_rename hρ result]; rfl

theorem translateList_rename {ρ : TypeVar → TypeVar} (hρ : Function.Injective ρ) :
    (ts : List Ty) → translateList (.rename ρ hρ) ts = substList (var ∘ ρ) ts
  | [] => rfl
  | t :: ts => by rw [translateList, substList, translate_rename hρ t, translateList_rename hρ ts]

end

theorem translate_same (t : Ty) : t.translate .same = t :=
  (translate_rename Function.injective_id t).trans (subst_var t)

mutual

theorem translate_forget (p : Provenance) : (t : Ty) → t.translate (.forget p) = t.bare
  | prim _ _ | var _ | unresolved _ => rfl
  | set elem _ => by rw [translate, translate_forget p elem]; rfl
  | tuple elems _ => by rw [translate, translateList_forget p elems]; rfl
  | map key value _ => by
    rw [translate, translate_forget p key, translate_forget p value]; rfl
  | procedure params _ => by rw [translate, translateList_forget p params]; rfl
  | operator params result _ => by
    rw [translate, translateList_forget p params, translate_forget p result]; rfl

theorem translateList_forget (p : Provenance) :
    (ts : List Ty) → translateList (.forget p) ts = bareList ts
  | [] => rfl
  | t :: ts => by rw [translateList, bareList, translate_forget p t, translateList_forget p ts]

end

end Ty

/-! ## Making types equal -/

variable {T : Translation}

def Outcome.translate (T : Translation) : Outcome → Outcome
  | identical => identical
  | bind v t => bind (T.var v) (t.translate T)
  | infinite v t => infinite (T.var v) (t.translate T)
  | absorbed => absorbed
  | split pairs => split (pairs.map fun p => (p.1.translate T, p.2.translate T))
  | clash c => clash c

def UnifyEvent.translate (T : Translation) (e : UnifyEvent) : UnifyEvent :=
  ⟨e.expected.translate T, e.actual.translate T, e.outcome.translate T⟩

namespace Outcome

theorem assign_translate (v : TypeVar) (t : Ty) :
    assign (T.var v) (t.translate T) = (assign v t).translate T := by
  simp only [assign, Ty.mem_vars_translate]
  split <;> rfl

theorem translate_ite (c : Prop) [Decidable c] (x y : Outcome) :
    (if c then x else y).translate T = if c then x.translate T else y.translate T := by
  split <;> rfl

/-- What becomes of a pair does not depend on how it is told. -/
theorem ofPair_translate (s t : Ty) :
    ofPair (s.translate T) (t.translate T) = (ofPair s t).translate T := by
  have hzip (ss ts : List Ty) : (ss.map (·.translate T)).zip (ts.map (·.translate T)) =
      (ss.zip ts).map fun p => (p.1.translate T, p.2.translate T) := List.zip_map ..
  simp only [ofPair, Ty.translate_agrees_translate, translate_ite]
  congr 1
  have hright (v : TypeVar) := assign_translate (T := T) v s
  cases s
  case var v => exact assign_translate v t
  all_goals
    cases t
    case var v => exact hright v
    all_goals first
      | rfl
      | simp only [Ty.translate, Ty.translateList_eq, List.length_map, translate_ite, hzip]
        simp only [translate, List.map_append, List.map_cons, List.map_nil]

end Outcome

namespace Unify

def translatePairs (T : Translation) (pairs : List (Ty × Ty)) : List (Ty × Ty) :=
  pairs.map fun p => (p.1.translate T, p.2.translate T)

theorem remaining_translate (rest : List (Ty × Ty)) (o : Outcome) :
    remaining (translatePairs T rest) (o.translate T) = translatePairs T (remaining rest o) := by
  cases o with
  | bind v t =>
    simp only [translatePairs, Outcome.translate, remaining, replaceAll, List.map_map]
    refine List.map_congr_left fun p _ => ?_
    simp only [Function.comp_apply, Ty.translate_replace]
  | split pairs => exact (List.map_append ..).symm
  | identical | infinite | absorbed | clash => rfl

theorem run_translate (pairs : List (Ty × Ty)) :
    run (translatePairs T pairs) = (run pairs).map (·.translate T) := by
  induction pairs using run.induct with
  | case1 => simp only [translatePairs, List.map_nil, run]
  | case2 s t rest outcome ih =>
    have hpair := Outcome.ofPair_translate (T := T) s t
    rw [run, List.map_cons, ← ih, ← remaining_translate, translatePairs, List.map_cons, run, hpair]
    rfl

theorem succeeded_translate (events : List UnifyEvent) :
    succeeded (events.map (·.translate T)) = succeeded events := by
  rw [succeeded, succeeded, List.all_map]
  refine List.all_congr rfl fun e => ?_
  cases h : e.outcome <;> simp [UnifyEvent.translate, Outcome.translate, h]

end Unify

/-! ## Substitutions -/

namespace Substitution

/-- The bindings of the second are those of the first, told in other words. -/
structure Translates (T : Translation) (σ τ : Substitution) : Prop where
  lookup (v : TypeVar) : τ.lookup (T.var v) = (σ.lookup v).map (·.translate T)
  named {w : TypeVar} {u : Ty} (h : τ.lookup w = some u) : ∃ v, T.var v = w
  size : τ.size = σ.size

variable {σ τ : Substitution}

theorem translates_empty (T : Translation) : Translates T empty empty := by
  refine ⟨fun v => ?_, fun h => ?_, rfl⟩
  · rw [lookup_empty, lookup_empty]
    rfl
  · rw [lookup_empty] at h
    cases h

theorem Translates.isBound (h : σ.Translates T τ) (v : TypeVar) :
    τ.isBound (T.var v) = σ.isBound v := by
  rw [isBound_eq, isBound_eq, h.lookup, Option.isSome_map]

theorem Translates.bind (h : σ.Translates T τ) (v : TypeVar) (t : Ty) :
    (σ.bind v t).Translates T (τ.bind (T.var v) (t.translate T)) := by
  refine ⟨fun w => ?_, fun {w u} hw => ?_, ?_⟩
  · simp only [lookup_bind, T.injective.eq_iff, h.lookup]
    split <;> rfl
  · rw [lookup_bind] at hw
    split at hw
    · next heq => exact ⟨v, heq.symm⟩
    · exact h.named hw
  · have hbound := h.isBound v
    have hsize := h.size
    simp only [Substitution.isBound, Substitution.size] at hbound hsize
    simp only [Substitution.size, Substitution.bind, Std.TreeMap.size_insert,
      hbound, hsize]

theorem Translates.extend (h : σ.Translates T τ) (events : List UnifyEvent) :
    (Unify.extend σ events).Translates T (Unify.extend τ (events.map (·.translate T))) := by
  induction events generalizing σ τ with
  | nil => exact h
  | cons e events ih =>
    refine ih ?_
    cases he : e.outcome <;> simp only [UnifyEvent.translate, Outcome.translate, he]
    case bind v t => exact h.bind v t
    all_goals exact h

theorem Translates.expand (h : σ.Translates T τ) (depth : Nat) (t : Ty) :
    τ.expand depth (t.translate T) = (σ.expand depth t).translate T := by
  induction depth generalizing t with
  | zero => rfl
  | succ depth ih =>
    refine Ty.translate_subst t fun v _ => ?_
    rw [h.lookup]
    cases σ.lookup v with
    | none => rfl
    | some u => exact ih u

theorem Translates.apply (h : σ.Translates T τ) (t : Ty) :
    τ.apply (t.translate T) = (σ.apply t).translate T := by
  rw [Substitution.apply, h.size, h.expand]
  rfl

/-- Making types equal does the same whatever the variables are called. -/
theorem Translates.unify (h : σ.Translates T τ) (s t : Ty) :
    τ.unify (s.translate T) (t.translate T) = (σ.unify s t).map (·.translate T) := by
  rw [Substitution.unify, h.apply, h.apply]
  exact Unify.run_translate [(σ.apply s, σ.apply t)]

end Substitution

end PlusCalTyping
