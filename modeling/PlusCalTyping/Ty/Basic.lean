import PlusCalTyping.Origins

/-! # Types

The types of Modular PlusCal values and signatures, with the variables that
inference has still to determine. Each type remembers the nodes it came from;
agreement of types and every function of variables look past these origins.

The main facts are that substitution composes (`subst_subst`), that it only
depends on what it does to the variables present (`subst_congr`), and that
agreement is equality of the types without their origins (`agrees_iff`).
-/

namespace PlusCalTyping

structure TypeVar where
  index : Nat
deriving DecidableEq, Inhabited

namespace TypeVar

instance : Ord TypeVar := ⟨fun a b => compare a.index b.index⟩

instance : Std.TransOrd TypeVar where
  eq_swap {a b} := @Std.OrientedCmp.eq_swap Nat compare _ a.index b.index
  isLE_trans {a b c} := @Std.TransCmp.isLE_trans Nat compare _ a.index b.index c.index

instance : Std.LawfulEqOrd TypeVar where
  eq_of_compare {a b} h := by
    cases a
    cases b
    exact congrArg TypeVar.mk (Nat.compare_eq_eq.mp h)

end TypeVar

inductive Prim
  | int
  | real
  | bool
  | string
deriving DecidableEq, Inhabited

/-- A type. A procedure or archetype has a signature without a result, an
operator definition one with a result; `unresolved` marks a type that could
not be determined. -/
inductive Ty
  | prim (p : Prim) (origins : Origins)
  | var (v : TypeVar)
  | set (elem : Ty) (origins : Origins)
  | tuple (elems : List Ty) (origins : Origins)
  | map (key value : Ty) (origins : Origins)
  | procedure (params : List Ty) (origins : Origins)
  | operator (params : List Ty) (result : Ty) (origins : Origins)
  | unresolved (origins : Origins)

namespace Ty

instance : Inhabited Ty := ⟨unresolved .none⟩

def int (n : NodeId) : Ty := prim .int (.single n)

def real (n : NodeId) : Ty := prim .real (.single n)

def bool (n : NodeId) : Ty := prim .bool (.single n)

def string (n : NodeId) : Ty := prim .string (.single n)

/-- The nodes this type itself came from. A variable has none of its own. -/
def origins? : Ty → Option Origins
  | prim _ o | set _ o | tuple _ o | map _ _ o | procedure _ o | operator _ _ o | unresolved o =>
    some o
  | var _ => none

def isVar : Ty → Bool
  | var _ => true
  | _ => false

def arity? : Ty → Option Nat
  | procedure params _ | operator params _ _ => some params.length
  | _ => none

mutual

/-- The variables of a type from left to right, with repetitions. -/
def vars : Ty → List TypeVar
  | prim _ _ | unresolved _ => []
  | var v => [v]
  | set elem _ => vars elem
  | tuple elems _ => varsList elems
  | map key value _ => vars key ++ vars value
  | procedure params _ => varsList params
  | operator params result _ => varsList params ++ vars result

def varsList : List Ty → List TypeVar
  | [] => []
  | t :: ts => vars t ++ varsList ts

end

def containsVars (t : Ty) : Bool := !t.vars.isEmpty

mutual

def subst (f : TypeVar → Ty) : Ty → Ty
  | prim p o => prim p o
  | var v => f v
  | set elem o => set (subst f elem) o
  | tuple elems o => tuple (substList f elems) o
  | map key value o => map (subst f key) (subst f value) o
  | procedure params o => procedure (substList f params) o
  | operator params result o => operator (substList f params) (subst f result) o
  | unresolved o => unresolved o

def substList (f : TypeVar → Ty) : List Ty → List Ty
  | [] => []
  | t :: ts => subst f t :: substList f ts

end

/-- Put `u` for the one variable `v`. -/
def replace (t : Ty) (v : TypeVar) (u : Ty) : Ty := t.subst fun w => if w = v then u else var w

/-- Mark every variable as undetermined for good. -/
def ground : Ty → Ty := subst fun _ => unresolved .none

mutual

/-- Whether some part of the type could not be determined. -/
def containsUnresolved : Ty → Bool
  | unresolved _ => true
  | prim _ _ | var _ => false
  | set elem _ => containsUnresolved elem
  | tuple elems _ => containsUnresolvedList elems
  | map key value _ => containsUnresolved key || containsUnresolved value
  | procedure params _ => containsUnresolvedList params
  | operator params result _ => containsUnresolvedList params || containsUnresolved result

def containsUnresolvedList : List Ty → Bool
  | [] => false
  | t :: ts => containsUnresolved t || containsUnresolvedList ts

end

mutual

def allOrigins : Ty → List NodeId
  | prim _ o | unresolved o => o.nodes
  | var _ => []
  | set elem o => o.nodes ++ allOrigins elem
  | tuple elems o => o.nodes ++ allOriginsList elems
  | map key value o => o.nodes ++ (allOrigins key ++ allOrigins value)
  | procedure params o => o.nodes ++ allOriginsList params
  | operator params result o => o.nodes ++ (allOriginsList params ++ allOrigins result)

def allOriginsList : List Ty → List NodeId
  | [] => []
  | t :: ts => allOrigins t ++ allOriginsList ts

end

mutual

/-- Equality of types whatever their origins. -/
def agrees : Ty → Ty → Bool
  | prim p _, prim q _ => p = q
  | var v, var w => v = w
  | set s _, set t _ => agrees s t
  | tuple ss _, tuple ts _ => agreesList ss ts
  | map k v _, map l w _ => agrees k l && agrees v w
  | procedure ss _, procedure ts _ => agreesList ss ts
  | operator ss s _, operator ts t _ => agreesList ss ts && agrees s t
  | unresolved _, unresolved _ => true
  | _, _ => false

def agreesList : List Ty → List Ty → Bool
  | [], [] => true
  | s :: ss, t :: ts => agrees s t && agreesList ss ts
  | _, _ => false

end

mutual

/-- The type with all its origins forgotten. -/
def bare : Ty → Ty
  | prim p _ => prim p .none
  | var v => var v
  | set elem _ => set (bare elem) .none
  | tuple elems _ => tuple (bareList elems) .none
  | map key value _ => map (bare key) (bare value) .none
  | procedure params _ => procedure (bareList params) .none
  | operator params result _ => operator (bareList params) (bare result) .none
  | unresolved _ => unresolved .none

def bareList : List Ty → List Ty
  | [] => []
  | t :: ts => bare t :: bareList ts

end

mutual

def size : Ty → Nat
  | prim _ _ | var _ | unresolved _ => 1
  | set elem _ => size elem + 1
  | tuple elems _ => sizeList elems + 1
  | map key value _ => size key + size value + 1
  | procedure params _ => sizeList params + 1
  | operator params result _ => sizeList params + size result + 1

def sizeList : List Ty → Nat
  | [] => 0
  | t :: ts => size t + sizeList ts

end

theorem varsList_eq (ts : List Ty) : varsList ts = ts.flatMap vars := by
  induction ts with
  | nil => rfl
  | cons t ts ih => rw [varsList, ih, List.flatMap_cons]

theorem substList_eq (f : TypeVar → Ty) (ts : List Ty) : substList f ts = ts.map (subst f) := by
  induction ts with
  | nil => rfl
  | cons t ts ih => rw [substList, ih, List.map_cons]

theorem bareList_eq (ts : List Ty) : bareList ts = ts.map bare := by
  induction ts with
  | nil => rfl
  | cons t ts ih => rw [bareList, ih, List.map_cons]

theorem size_pos (t : Ty) : 0 < t.size := by
  cases t <;> simp [size]

mutual

/-- Substituting twice is substituting once, with the second put into the first. -/
theorem subst_subst (f g : TypeVar → Ty) :
    (t : Ty) → subst g (subst f t) = subst (fun v => subst g (f v)) t
  | prim _ _ | var _ | unresolved _ => by simp [subst]
  | set elem _ => by simp [subst, subst_subst f g elem]
  | tuple elems _ => by simp [subst, substList_substList f g elems]
  | map key value _ => by simp [subst, subst_subst f g key, subst_subst f g value]
  | procedure params _ => by simp [subst, substList_substList f g params]
  | operator params result _ => by
    simp [subst, substList_substList f g params, subst_subst f g result]

theorem substList_substList (f g : TypeVar → Ty) :
    (ts : List Ty) → substList g (substList f ts) = substList (fun v => subst g (f v)) ts
  | [] => rfl
  | t :: ts => by simp [substList, subst_subst f g t, substList_substList f g ts]

end

mutual

/-- Substitution looks at the variables of the type and at nothing else. -/
theorem subst_congr {f g : TypeVar → Ty} :
    (t : Ty) → (∀ v ∈ t.vars, f v = g v) → subst f t = subst g t
  | prim _ _, _ | unresolved _, _ => rfl
  | var v, h => h v (List.mem_singleton_self v)
  | set elem _, h => by simp only [subst, subst_congr elem h]
  | tuple elems _, h => by simp only [subst, substList_congr elems h]
  | map key value _, h => by
    simp only [subst, subst_congr key fun v hv => h v (List.mem_append_left _ hv),
      subst_congr value fun v hv => h v (List.mem_append_right _ hv)]
  | procedure params _, h => by simp only [subst, substList_congr params h]
  | operator params result _, h => by
    simp only [subst, substList_congr params fun v hv => h v (List.mem_append_left _ hv),
      subst_congr result fun v hv => h v (List.mem_append_right _ hv)]

theorem substList_congr {f g : TypeVar → Ty} :
    (ts : List Ty) → (∀ v ∈ varsList ts, f v = g v) → substList f ts = substList g ts
  | [], _ => rfl
  | t :: ts, h => by
    simp only [substList, subst_congr t fun v hv => h v (List.mem_append_left _ hv),
      substList_congr ts fun v hv => h v (List.mem_append_right _ hv)]

end

mutual

theorem subst_var : (t : Ty) → subst var t = t
  | prim _ _ | var _ | unresolved _ => rfl
  | set elem _ => by simp [subst, subst_var elem]
  | tuple elems _ => by simp [subst, substList_var elems]
  | map key value _ => by simp [subst, subst_var key, subst_var value]
  | procedure params _ => by simp [subst, substList_var params]
  | operator params result _ => by simp [subst, substList_var params, subst_var result]

theorem substList_var : (ts : List Ty) → substList var ts = ts
  | [] => rfl
  | t :: ts => by simp [substList, subst_var t, substList_var ts]

end

mutual

/-- The variables after a substitution are those of the types put in. -/
theorem vars_subst (f : TypeVar → Ty) : (t : Ty) → (subst f t).vars = t.vars.flatMap (vars ∘ f)
  | prim _ _ | unresolved _ => rfl
  | var v => by simp [subst, vars]
  | set elem _ => by simp [subst, vars, vars_subst f elem]
  | tuple elems _ => by simp [subst, vars, varsList_substList f elems]
  | map key value _ => by simp [subst, vars, vars_subst f key, vars_subst f value]
  | procedure params _ => by simp [subst, vars, varsList_substList f params]
  | operator params result _ => by
    simp [subst, vars, varsList_substList f params, vars_subst f result]

theorem varsList_substList (f : TypeVar → Ty) :
    (ts : List Ty) → varsList (substList f ts) = (varsList ts).flatMap (vars ∘ f)
  | [] => rfl
  | t :: ts => by simp [substList, varsList, vars_subst f t, varsList_substList f ts]

end

/-- Replacing `v` leaves the other variables and brings in those of `u`. -/
theorem mem_vars_replace {v w : TypeVar} {u t : Ty} :
    w ∈ (t.replace v u).vars ↔ (w ∈ t.vars ∧ w ≠ v) ∨ (v ∈ t.vars ∧ w ∈ u.vars) := by
  rw [replace, vars_subst, List.mem_flatMap]
  constructor
  · rintro ⟨x, hx, hw⟩
    by_cases hxv : x = v
    · subst hxv
      exact .inr ⟨hx, by simpa using hw⟩
    · have : w = x := by simpa [hxv, vars] using hw
      exact .inl ⟨this ▸ hx, this ▸ hxv⟩
  · rintro (⟨hw, hne⟩ | ⟨hv, hw⟩)
    · exact ⟨w, hw, by simp [hne, vars]⟩
    · exact ⟨v, hv, by simpa using hw⟩

mutual

/-- Two types agree when they are equal apart from their origins. -/
theorem agrees_iff : (s t : Ty) → (s.agrees t = true ↔ s.bare = t.bare)
  | s, t => by
    cases s <;> cases t <;> simp [agrees, bare]
    case set.set s _ t _ => exact agrees_iff s t
    case tuple.tuple ss _ ts _ => exact agreesList_iff ss ts
    case map.map k v _ l w _ => rw [agrees_iff k l, agrees_iff v w]
    case procedure.procedure ss _ ts _ => exact agreesList_iff ss ts
    case operator.operator ss s _ ts t _ => rw [agreesList_iff ss ts, agrees_iff s t]

theorem agreesList_iff : (ss ts : List Ty) → (agreesList ss ts = true ↔ bareList ss = bareList ts)
  | [], [] => by simp [agreesList]
  | [], _ :: _ | _ :: _, [] => by simp [agreesList, bareList]
  | s :: ss, t :: ts => by
    simp [agreesList, bareList, agrees_iff s t, agreesList_iff ss ts]

end

end Ty

end PlusCalTyping
