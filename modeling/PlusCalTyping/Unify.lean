import PlusCalTyping.Distinct
import PlusCalTyping.Ty.Substitution

/-! # Unification

Two types are made equal by working off a list of pairs. What becomes of a
pair is decided by its two types alone; a variable that gets bound is at once
replaced in all pairs still to come. A pair that does not fit is noted and left
behind, so that the remaining pairs are still worked off.

The work ends because a binding takes a variable out of the remaining pairs,
and every other step leaves less to look at.
-/

namespace PlusCalTyping

/-- Why two types cannot be made equal. -/
inductive Clash
  | tupleSize (expected actual : Nat)
  | paramCount (expected actual : Nat)
  | shape
deriving DecidableEq, Inhabited

inductive Outcome
  | identical
  | bind (v : TypeVar) (t : Ty)
  | infinite (v : TypeVar) (t : Ty)
  | absorbed
  | split (pairs : List (Ty × Ty))
  | clash (c : Clash)

/-- A pair of types that was looked at, and what became of it. -/
structure UnifyEvent where
  expected : Ty
  actual : Ty
  outcome : Outcome

namespace Outcome

/-- A variable is bound to a type unless it would have to contain itself. -/
def assign (v : TypeVar) (t : Ty) : Outcome := if v ∈ t.vars then infinite v t else bind v t

/-- What becomes of a pair. A part that could not be determined fits anything,
so that no failure is reported twice. -/
def ofPair (expected actual : Ty) : Outcome :=
  if expected.agrees actual then identical
  else match expected, actual with
  | .var v, t => assign v t
  | t, .var v => assign v t
  | .unresolved _, _ => absorbed
  | _, .unresolved _ => absorbed
  | .set s _, .set t _ => split [(s, t)]
  | .tuple ss _, .tuple ts _ =>
    if ss.length = ts.length then split (ss.zip ts) else clash (.tupleSize ss.length ts.length)
  | .map k v _, .map l w _ => split [(k, l), (v, w)]
  | .procedure ss _, .procedure ts _ =>
    if ss.length = ts.length then split (ss.zip ts) else clash (.paramCount ss.length ts.length)
  | .operator ss s _, .operator ts t _ =>
    if ss.length = ts.length then split (ss.zip ts ++ [(s, t)])
    else clash (.paramCount ss.length ts.length)
  | .procedure ss _, .operator ts _ _ =>
    if ss.length = ts.length then clash .shape else clash (.paramCount ss.length ts.length)
  | .operator ss _ _, .procedure ts _ =>
    if ss.length = ts.length then clash .shape else clash (.paramCount ss.length ts.length)
  | _, _ => clash .shape

end Outcome

namespace Unify

def pairVars (pairs : List (Ty × Ty)) : List TypeVar :=
  pairs.flatMap fun p => p.1.vars ++ p.2.vars

def pairSize : List (Ty × Ty) → Nat
  | [] => 0
  | p :: ps => p.1.size + p.2.size + pairSize ps

def varCount (pairs : List (Ty × Ty)) : Nat := distinctCount (pairVars pairs)

def replaceAll (v : TypeVar) (t : Ty) (pairs : List (Ty × Ty)) : List (Ty × Ty) :=
  pairs.map fun p => (p.1.replace v t, p.2.replace v t)

/-- The pairs still to work off after one pair. -/
def remaining (rest : List (Ty × Ty)) : Outcome → List (Ty × Ty)
  | .bind v t => replaceAll v t rest
  | .split pairs => pairs ++ rest
  | .identical | .infinite _ _ | .absorbed | .clash _ => rest

theorem mem_pairVars {w : TypeVar} {pairs : List (Ty × Ty)} :
    w ∈ pairVars pairs ↔ ∃ p ∈ pairs, w ∈ p.1.vars ∨ w ∈ p.2.vars := by
  simp [pairVars]

theorem pairVars_append (ps qs : List (Ty × Ty)) :
    pairVars (ps ++ qs) = pairVars ps ++ pairVars qs := List.flatMap_append

theorem pairSize_append (ps qs : List (Ty × Ty)) :
    pairSize (ps ++ qs) = pairSize ps + pairSize qs := by
  induction ps with
  | nil => simp [pairSize]
  | cons p ps ih =>
    simp only [List.cons_append, pairSize, ih]
    omega

theorem pairVars_zip_subset (ss ts : List Ty) :
    pairVars (ss.zip ts) ⊆ Ty.varsList ss ++ Ty.varsList ts := by
  induction ss generalizing ts with
  | nil => simp [pairVars]
  | cons s ss ih =>
    cases ts with
    | nil => simp [pairVars]
    | cons t ts =>
      intro w hw
      have := @ih ts w
      simp only [List.zip_cons_cons, pairVars, List.flatMap_cons, List.mem_append] at hw this
      simp only [Ty.varsList, List.mem_append]
      rcases hw with (hw | hw) | hw
      · exact .inl (.inl hw)
      · exact .inr (.inl hw)
      · exact (this hw).elim (.inl ∘ .inr) (.inr ∘ .inr)

theorem pairSize_zip_le (ss ts : List Ty) :
    pairSize (ss.zip ts) ≤ Ty.sizeList ss + Ty.sizeList ts := by
  induction ss generalizing ts with
  | nil => simp [pairSize]
  | cons s ss ih =>
    cases ts with
    | nil => simp [pairSize]
    | cons t ts =>
      have := ih ts
      simp only [List.zip_cons_cons, pairSize, Ty.sizeList]
      omega

theorem assign_ne_split (v : TypeVar) (t : Ty) (pairs : List (Ty × Ty)) :
    Outcome.assign v t ≠ .split pairs := by
  unfold Outcome.assign
  split <;> exact Outcome.noConfusion

theorem assign_eq_bind {v w : TypeVar} {t u : Ty} (h : Outcome.assign v t = .bind w u) :
    v = w ∧ t = u ∧ v ∉ t.vars := by
  unfold Outcome.assign at h
  split at h
  · cases h
  · next hv =>
    cases h
    exact ⟨rfl, rfl, hv⟩

/-- Taking a pair apart brings in no variable and leaves less to look at. -/
theorem split_decreases {s t : Ty} {pairs : List (Ty × Ty)}
    (h : Outcome.ofPair s t = .split pairs) :
    pairVars pairs ⊆ s.vars ++ t.vars ∧ pairSize pairs < s.size + t.size := by
  unfold Outcome.ofPair at h
  split at h
  · cases h
  · split at h
    · exact absurd h (assign_ne_split _ _ _)
    · exact absurd h (assign_ne_split _ _ _)
    · cases h
    · cases h
    · cases h
      exact ⟨by simp [pairVars, Ty.vars], by simp only [pairSize, Ty.size]; omega⟩
    · next ss _ ts _ _ =>
      split at h
      · cases h
        have := pairSize_zip_le ss ts
        exact ⟨pairVars_zip_subset ss ts, by simp only [Ty.size]; omega⟩
      · cases h
    · cases h
      exact ⟨by simp [pairVars, Ty.vars]; grind, by simp only [pairSize, Ty.size]; omega⟩
    · next ss _ ts _ _ =>
      split at h
      · cases h
        have := pairSize_zip_le ss ts
        exact ⟨pairVars_zip_subset ss ts, by simp only [Ty.size]; omega⟩
      · cases h
    · next ss s _ ts t _ _ =>
      split at h
      · cases h
        have := pairSize_zip_le ss ts
        refine ⟨?_, by simp only [pairSize_append, pairSize, Ty.size]; omega⟩
        intro w hw
        have := @pairVars_zip_subset ss ts w
        simp only [pairVars, Ty.vars, List.mem_append] at hw this ⊢
        grind
      · cases h
    · split at h <;> cases h
    · split at h <;> cases h
    · cases h

/-- A variable is only bound to a type of the pair, in which it does not occur. -/
theorem bind_mem {s t : Ty} {v : TypeVar} {u : Ty} (h : Outcome.ofPair s t = .bind v u) :
    v ∉ u.vars ∧ v ∈ s.vars ++ t.vars ∧ u.vars ⊆ s.vars ++ t.vars := by
  unfold Outcome.ofPair at h
  split at h
  · cases h
  · split at h
    · obtain ⟨rfl, rfl, hv⟩ := assign_eq_bind h
      exact ⟨hv, by simp [Ty.vars], List.subset_append_right _ _⟩
    · obtain ⟨rfl, rfl, hv⟩ := assign_eq_bind h
      exact ⟨hv, by simp [Ty.vars], List.subset_append_left _ _⟩
    all_goals first | cases h | (split at h <;> cases h)

theorem pairVars_replaceAll_subset (v : TypeVar) (t : Ty) (pairs : List (Ty × Ty)) :
    pairVars (replaceAll v t pairs) ⊆ t.vars ++ pairVars pairs := by
  intro w hw
  obtain ⟨q, hq, hw⟩ := mem_pairVars.mp hw
  obtain ⟨p, hp, rfl⟩ := List.mem_map.mp hq
  simp only [Ty.mem_vars_replace] at hw
  rw [List.mem_append, mem_pairVars]
  rcases hw with (⟨hw, _⟩ | ⟨_, hw⟩) | (⟨hw, _⟩ | ⟨_, hw⟩)
  · exact .inr ⟨p, hp, .inl hw⟩
  · exact .inl hw
  · exact .inr ⟨p, hp, .inr hw⟩
  · exact .inl hw

theorem not_mem_pairVars_replaceAll {v : TypeVar} {t : Ty} (h : v ∉ t.vars)
    (pairs : List (Ty × Ty)) : v ∉ pairVars (replaceAll v t pairs) := by
  intro hv
  obtain ⟨q, hq, hv⟩ := mem_pairVars.mp hv
  obtain ⟨p, _, rfl⟩ := List.mem_map.mp hq
  simp [Ty.mem_vars_replace, h] at hv

/-- What is still to work off after a pair has fewer variables, or no more
variables and a smaller size. -/
theorem remaining_decreases (s t : Ty) (rest : List (Ty × Ty)) :
    Prod.Lex (· < ·) (· < ·)
      (varCount (remaining rest (.ofPair s t)), pairSize (remaining rest (.ofPair s t)))
      (varCount ((s, t) :: rest), pairSize ((s, t) :: rest)) := by
  have hsub : pairVars rest ⊆ pairVars ((s, t) :: rest) := List.subset_append_right _ _
  have hrest : Prod.Lex (· < ·) (· < ·) (varCount rest, pairSize rest)
      (varCount ((s, t) :: rest), pairSize ((s, t) :: rest)) := by
    have hsize : pairSize rest < pairSize ((s, t) :: rest) := by
      have := s.size_pos
      simp only [pairSize]
      omega
    rcases Nat.lt_or_eq_of_le (distinctCount_le hsub) with hlt | heq
    · exact .left _ _ hlt
    · rw [varCount, varCount, heq]
      exact .right _ hsize
  cases h : Outcome.ofPair s t with
  | bind v u =>
    obtain ⟨hv, hmem, hu⟩ := bind_mem h
    refine .left _ _ (distinctCount_lt (x := v) (fun w hw => ?_) ?_
      (not_mem_pairVars_replaceAll hv rest))
    · rcases List.mem_append.mp (pairVars_replaceAll_subset v u rest hw) with hw | hw
      · exact List.mem_append_left _ (hu hw)
      · exact hsub hw
    · exact List.mem_append_left _ hmem
  | split pairs =>
    obtain ⟨hvars, hsize⟩ := split_decreases h
    have hsub' : pairVars (pairs ++ rest) ⊆ pairVars ((s, t) :: rest) := by
      rw [pairVars_append]
      exact List.append_subset.mpr
        ⟨List.Subset.trans hvars (List.subset_append_left _ _), hsub⟩
    have hsize' : pairSize (pairs ++ rest) < pairSize ((s, t) :: rest) := by
      rw [pairSize_append]
      simp only [pairSize]
      omega
    rcases Nat.lt_or_eq_of_le (distinctCount_le hsub') with hlt | heq
    · exact .left _ _ hlt
    · simp only [remaining, varCount]
      rw [heq]
      exact .right _ hsize'
  | identical | infinite | absorbed | clash => exact hrest

/-- Work off pairs of types. Each event shows its pair with the bindings of
the earlier events put in. -/
def run : List (Ty × Ty) → List UnifyEvent
  | [] => []
  | (s, t) :: rest =>
    let outcome := Outcome.ofPair s t
    ⟨s, t, outcome⟩ :: run (remaining rest outcome)
termination_by pairs => (varCount pairs, pairSize pairs)
decreasing_by exact remaining_decreases s t rest

/-- The bindings that events made, put into a substitution. -/
def extend (σ : Substitution) (events : List UnifyEvent) : Substitution :=
  events.foldl (fun σ e => match e.outcome with
    | .bind v t => σ.bind v t
    | _ => σ) σ

def succeeded (events : List UnifyEvent) : Bool :=
  events.all fun e => match e.outcome with
    | .infinite _ _ | .clash _ => false
    | _ => true

end Unify

namespace Substitution

/-- What happens when two types are made equal under a substitution. -/
def unify (σ : Substitution) (expected actual : Ty) : List UnifyEvent :=
  Unify.run [(σ.apply expected, σ.apply actual)]

end Substitution

end PlusCalTyping
