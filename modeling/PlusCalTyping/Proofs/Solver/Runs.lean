import PlusCalTyping.Proofs.Solver.Admission
import PlusCalTyping.Solver.Solve

/-! # Parts of a run

Whatever a part of a run does, the session it leaves extends the one it was
given, also where the budget stops it, and a valuation that solves what the
part asks for stays admitted (`Keeps`). Trials of candidates leave the session
as it is, and tell exactly which candidates some model of the bindings solves
(`tries_fits`, `tries_viable`). So the choices that a pass decides are decided
by every valuation admitted afterwards (`keeps_pass`).
-/

namespace PlusCalTyping

def Failure.OutOfBudget (f : Failure) : Prop := f.category = .solverBudget

/-- A session that extends another and admits what was admitted and asked for. -/
structure Session.Narrows (asked : Valuation → Prop) (s t : Session) : Prop
    extends s.Extends t where
  retains : ∀ θ, s.Admits θ → asked θ → t.Admits θ

namespace Session

variable {asked asked' : Valuation → Prop} {s t u : Session}

theorem Coherent.narrows_refl (h : s.Coherent) : s.Narrows asked s :=
  ⟨h.extends_refl, fun _ hθ _ => hθ⟩

theorem Narrows.trans (h : s.Narrows asked t) (h' : t.Narrows asked u) : s.Narrows asked u :=
  ⟨h.toExtends.trans h'.toExtends, fun θ hθ ha => h'.retains θ (h.retains θ hθ ha) ha⟩

theorem Narrows.mono (h : s.Narrows asked t) (ha : ∀ θ, s.Admits θ → asked' θ → asked θ) :
    s.Narrows asked' t :=
  ⟨h.toExtends, fun θ hθ h' => h.retains θ hθ (ha θ hθ h')⟩

end Session

namespace Solving

variable {α β : Type} {m : Solving α} {g : α → Solving β} {p : Progress}

/-! ## The end of a run -/

/-- A run either comes to its end or is stopped by the budget. -/
def Ends (m : Solving α) (p : Progress) (done : α → Progress → Prop)
    (stopped : Failure → Progress → Prop) : Prop :=
  match m p with
  | .ok x q => done x q
  | .error f q => stopped f q

variable {done : α → Progress → Prop} {stopped : Failure → Progress → Prop}

theorem Ends.mono {done' : α → Progress → Prop} {stopped' : Failure → Progress → Prop}
    (h : Ends m p done stopped) (hdone : ∀ x q, done x q → done' x q)
    (hstopped : ∀ f q, stopped f q → stopped' f q) : Ends m p done' stopped' := by
  unfold Ends at h ⊢
  cases hm : m p with
  | ok x q =>
    rw [hm] at h
    exact hdone x q h
  | error f q =>
    rw [hm] at h
    exact hstopped f q h

theorem ends_pure {x : α} : Ends (pure x) p done stopped ↔ done x p := Iff.rfl

theorem ends_bind {done : β → Progress → Prop} :
    Ends (m >>= g) p done stopped ↔
      Ends m p (fun x q => Ends (g x) q done stopped) stopped := by
  simp only [Ends, bind, EStateM.bind]
  cases m p <;> rfl

theorem ends_get {done : Progress → Progress → Prop} : Ends get p done stopped ↔ done p p :=
  Iff.rfl

theorem ends_charge (e : Equation) (p : Progress) :
    Ends (charge e) p (fun _ q => q.session = p.session)
      fun f q => q.session = p.session ∧ f.OutOfBudget := by
  by_cases h : p.budget.used < p.budget.limit
  · simp only [Ends, charge, Budget.charge, h, if_true]
  · simp only [Ends, charge, Budget.charge, h, if_false, true_and]
    rfl

/-! ## Trials -/

/-- A part that at most spends budget. -/
def Tries (m : Solving α) (p : Progress) (found : α → Prop) : Prop :=
  Ends m p (fun x q => q.session = p.session ∧ found x)
    fun f q => q.session = p.session ∧ f.OutOfBudget

theorem tries_pure {x : α} {found : α → Prop} (h : found x) : Tries (pure x) p found := ⟨rfl, h⟩

theorem Tries.bind {found : α → Prop} {found' : β → Prop} (h : Tries m p found)
    (hg : ∀ x q, found x → Tries (g x) q found') : Tries (m >>= g) p found' := by
  refine ends_bind.mpr (h.mono ?_ fun _ _ h => h)
  rintro x q ⟨hq, hx⟩
  have := hg x q hx
  rwa [Tries, hq] at this

theorem tries_charge (e : Equation) (p : Progress) : Tries (charge e) p fun _ => True :=
  (ends_charge e p).mono (fun _ _ h => ⟨h, trivial⟩) fun _ _ h => h

/-- Equations fit if some model of the bindings solves them all. -/
theorem tries_fits {es : List Equation} (hes : ∀ e ∈ es, e.Determined) {σ : Substitution}
    (hσ : σ.Acyclic) (hdet : σ.Determined) (p : Progress) :
    Tries (fits σ es) p fun b => b ↔ σ.Allows es := by
  induction es generalizing σ p with
  | nil =>
    refine tries_pure (iff_of_true rfl ?_)
    exact ⟨σ.value, Valuation.models_value hσ, List.forall_mem_nil _⟩
  | cons e es ih =>
    obtain ⟨⟨hs, ht⟩, hes⟩ := List.forall_mem_cons.mp hes
    refine (tries_charge e p).bind fun _ q _ => ?_
    have hmodels (θ : Valuation) :
        Unify.succeeded (σ.unify e.expected e.actual) ∧
          θ.Models (Unify.extend σ (σ.unify e.expected e.actual)) ↔ θ.Models σ ∧ θ.Solves e :=
      σ.models_unify_iff hσ hdet hs ht
    dsimp only
    split
    · next hsucc =>
      have hext := hσ.extends_unify e.expected e.actual
      have hdet' := Unify.determined_extend _ (Substitution.allDetermined_apply hdet hs ht) hdet
      refine (ih hes (hext.acyclic hσ) hdet' q).mono ?_ fun _ _ h => h
      rintro b q' ⟨hq, hb⟩
      refine ⟨hq, hb.trans (exists_congr fun θ => ?_)⟩
      rw [List.forall_mem_cons, ← and_assoc]
      exact and_congr_left' ((and_iff_right hsucc).symm.trans (hmodels θ))
    · next hsucc =>
      refine tries_pure (iff_of_false Bool.false_ne_true ?_)
      rintro ⟨θ, hθ, he⟩
      exact hsucc ((hmodels θ).mpr ⟨hθ, (List.forall_mem_cons.mp he).1⟩).1

/-- Of candidates counted from `i`, those that fit, in their order. -/
structure Viable (σ : Substitution) (i : Nat) (candidates : List (List Equation))
    (found : List Nat) : Prop where
  sublist : found.Sublist (List.range' i candidates.length)
  mem_iff : ∀ {j} {es}, candidates[j]? = some es → (i + j ∈ found ↔ σ.Allows es)

theorem Viable.cons {σ : Substitution} {i : Nat} {es : List Equation}
    {rest : List (List Equation)} {fit : Bool} {later : List Nat} (hfit : fit ↔ σ.Allows es)
    (h : Viable σ (i + 1) rest later) :
    Viable σ i (es :: rest) (if fit then i :: later else later) := by
  have hlater : i ∉ later := fun hi => by
    have := List.mem_range'_1.mp (h.sublist.subset hi)
    omega
  constructor
  · rw [List.length_cons, List.range'_succ]
    split
    · exact h.sublist.cons_cons i
    · exact h.sublist.cons i
  · intro j es' hj
    cases j with
    | zero =>
      cases hj
      rw [← hfit]
      split
      · next hf => exact iff_of_true List.mem_cons_self hf
      · next hf => exact iff_of_false hlater hf
    | succ j =>
      rw [← h.mem_iff (j := j) hj, Nat.add_right_comm, Nat.add_assoc]
      split
      · rw [List.mem_cons]
        exact or_iff_right (by omega)
      · rfl

theorem tries_viableFrom {candidates : List (List Equation)}
    (hdet : ∀ candidate ∈ candidates, ∀ e ∈ candidate, e.Determined) {σ : Substitution}
    (hσ : σ.Acyclic) (hσdet : σ.Determined) (i : Nat) (p : Progress) :
    Tries (viableFrom σ i candidates) p (Viable σ i candidates) := by
  induction candidates generalizing i p with
  | nil => exact tries_pure ⟨.slnil, fun hj => nomatch hj⟩
  | cons es rest ih =>
    obtain ⟨hes, hrest⟩ := List.forall_mem_cons.mp hdet
    refine (tries_fits hes hσ hσdet p).bind fun fit q hfit => ?_
    refine (ih hrest (i + 1) q).bind fun later q hlater => ?_
    exact tries_pure (Viable.cons hfit hlater)

theorem tries_viable {c : Choice} (hc : c.Determined) (hp : p.session.Coherent) :
    Tries (viable c) p (Viable p.session.substitution 0 c.candidates) := by
  refine ends_bind.mpr (ends_get.mpr ?_)
  exact tries_viableFrom hc hp.acyclic hp.determined 0 p

/-! ## Parts that change the session -/

/-- A part whose session extends the one before, stopped or not, and admits
what was admitted before and is asked for. -/
def Keeps (asked : Valuation → Prop) (m : Solving α) (p : Progress)
    (found : α → Session → Prop) : Prop :=
  Ends m p (fun x q => p.session.Narrows asked q.session ∧ found x q.session)
    fun f q => p.session.Narrows asked q.session ∧ f.OutOfBudget

variable {asked asked' : Valuation → Prop}

theorem keeps_pure (hp : p.session.Coherent) {x : α} {found : α → Session → Prop}
    (h : found x p.session) : Keeps asked (pure x) p found := ⟨hp.narrows_refl, h⟩

theorem Keeps.bind {found : α → Session → Prop} {found' : β → Session → Prop}
    (h : Keeps asked m p found)
    (hg : ∀ x q, p.session.Narrows asked q.session → found x q.session →
      Keeps asked (g x) q found') :
    Keeps asked (m >>= g) p found' := by
  refine ends_bind.mpr (h.mono ?_ fun _ _ h => h)
  rintro x q ⟨hq, hx⟩
  refine (hg x q hq hx).mono ?_ ?_
  · exact fun y q' h => ⟨hq.trans h.1, h.2⟩
  · exact fun f q' h => ⟨hq.trans h.1, h.2⟩

theorem Keeps.mono {found found' : α → Session → Prop} (h : Keeps asked m p found)
    (hasked : ∀ θ, p.session.Admits θ → asked' θ → asked θ)
    (hfound : ∀ x s, p.session.Narrows asked s → found x s → found' x s) :
    Keeps asked' m p found' := by
  refine Ends.mono h ?_ fun f q h => ⟨h.1.mono hasked, h.2⟩
  exact fun x q h => ⟨h.1.mono hasked, hfound x q.session h.1 h.2⟩

theorem Keeps.asking {found : α → Session → Prop} (h : Keeps asked m p found)
    (asked' : Valuation → Prop) (hasked : ∀ θ, p.session.Admits θ → asked' θ → asked θ) :
    Keeps asked' m p found := h.mono hasked fun _ _ _ h => h

theorem Tries.keeps (hp : p.session.Coherent) {found : α → Prop} (h : Tries m p found) :
    Keeps asked m p fun x s => s = p.session ∧ found x := by
  refine Ends.mono h ?_ ?_
  · rintro x q ⟨hq, hx⟩
    refine ⟨?_, hq, hx⟩
    rw [hq]
    exact hp.narrows_refl
  · rintro f q ⟨hq, hf⟩
    refine ⟨?_, hf⟩
    rw [hq]
    exact hp.narrows_refl

theorem keeps_change {f : Session → Session} {found : Unit → Session → Prop}
    (h : p.session.Narrows asked (f p.session)) (hfound : found () (f p.session)) :
    Keeps asked (change f) p found := ⟨h, hfound⟩

theorem keeps_enforce (hp : p.session.Coherent) {e : Equation} (he : e.Determined) :
    Keeps (·.Solves e) (enforce e) p fun _ s => ∀ θ, s.Admits θ → θ.Solves e := by
  refine ((tries_charge e p).keeps hp).bind fun _ q _ hq => ?_
  obtain ⟨hq, _⟩ := hq
  rw [← hq] at hp
  refine keeps_change ⟨hp.extends_unify he, fun θ hθ h => ?_⟩ fun θ hθ => ?_
  · exact (hp.admits_unify_iff he).mpr ⟨hθ, h⟩
  · exact ((hp.admits_unify_iff he).mp hθ).2

theorem keeps_forM_enforce {es : List Equation} (hes : ∀ e ∈ es, e.Determined) {p : Progress}
    (hp : p.session.Coherent) :
    Keeps (fun θ => ∀ e ∈ es, θ.Solves e) (es.forM enforce) p
      fun _ s => ∀ θ, s.Admits θ → ∀ e ∈ es, θ.Solves e := by
  induction es generalizing p with
  | nil => exact keeps_pure hp fun _ _ => List.forall_mem_nil _
  | cons e es ih =>
    obtain ⟨he, hes⟩ := List.forall_mem_cons.mp hes
    have hfirst := (keeps_enforce hp he).asking (fun θ => ∀ e' ∈ e :: es, θ.Solves e')
      fun θ _ h => h e List.mem_cons_self
    refine hfirst.bind (g := fun _ => es.forM enforce) fun _ q hq hsolved => ?_
    refine (ih hes hq.coherent).mono ?_ ?_
    · exact fun θ _ h => (List.forall_mem_cons.mp h).2
    · intro _ s hs hrest θ hθ
      exact List.forall_mem_cons.mpr ⟨hsolved θ (hs.admits hθ), hrest θ hθ⟩

theorem keeps_commit (hp : p.session.Coherent) {c : Choice} (hc : c.Determined) {i : Nat}
    {candidate : List Equation} (hi : c.candidates[i]? = some candidate) (action : UnifyAction) :
    Keeps (fun θ => ∀ e ∈ candidate, θ.Solves e) (commit action c i) p
      fun _ s => ∀ θ, s.Admits θ → ∀ e ∈ candidate, θ.Solves e := by
  have hdet := hc candidate (List.mem_of_getElem? hi)
  simp only [commit, hi]
  have hlog : Keeps (fun θ => ∀ e ∈ candidate, θ.Solves e)
      (change (·.log fun _ => [c.commitLine action i candidate])) p fun _ _ => True :=
    keeps_change ⟨Session.extends_log hp _, fun θ hθ _ => Session.admits_log_iff.mpr hθ⟩ trivial
  exact hlog.bind fun _ q hq _ => keeps_forM_enforce hdet hq.coherent

theorem keeps_exhaust (hp : p.session.Coherent) (c : Choice) :
    Keeps (fun _ => False) (exhaust c) p fun _ s => ∀ θ, ¬s.Admits θ :=
  keeps_change ⟨Session.extends_reportExhausted hp c, fun _ _ h => h.elim⟩
    fun _ => Session.not_admits_reportExhausted

/-! ## A pass -/

/-- Several candidates of the choice fit. -/
def Undecided (σ : Substitution) (c : Choice) : Prop :=
  ∃ found, Viable σ 0 c.candidates found ∧ 2 ≤ found.length

/-- What a pass through choices leaves waiting, and what it has decided. -/
structure Passed (cs : List Choice) (s : Session) (waiting : List Choice) (t : Session) :
    Prop where
  sublist : waiting.Sublist cs
  decided : ∀ θ, t.Admits θ → ∀ c ∈ cs, c ∈ waiting ∨ θ.Decides c
  idle : waiting.length = cs.length → t = s ∧ ∀ c ∈ cs, Undecided s.substitution c

theorem Passed.cons_of_decided {c : Choice} {cs waiting : List Choice} {r s t : Session}
    (h : Passed cs s waiting t) (hc : ∀ θ, t.Admits θ → θ.Decides c) :
    Passed (c :: cs) r waiting t := by
  refine ⟨h.sublist.cons c, fun θ hθ => ?_, fun hlen => ?_⟩
  · exact List.forall_mem_cons.mpr ⟨.inr (hc θ hθ), h.decided θ hθ⟩
  · have := h.sublist.length_le
    rw [List.length_cons] at hlen
    omega

theorem Passed.cons_of_undecided {c : Choice} {cs waiting : List Choice} {s t : Session}
    (h : Passed cs s waiting t) (hc : Undecided s.substitution c) :
    Passed (c :: cs) s (c :: waiting) t := by
  refine ⟨h.sublist.cons_cons c, fun θ hθ => ?_, fun hlen => ?_⟩
  · refine List.forall_mem_cons.mpr ⟨.inl List.mem_cons_self, fun c' hc' => ?_⟩
    exact (h.decided θ hθ c' hc').imp_left (List.mem_cons_of_mem c)
  · obtain ⟨hs, hcs⟩ := h.idle (Nat.succ.inj hlen)
    exact ⟨hs, List.forall_mem_cons.mpr ⟨hc, hcs⟩⟩

theorem exists_viable {s : Session} {c : Choice} {found : List Nat}
    (hfound : Viable s.substitution 0 c.candidates found) {θ : Valuation} (hθ : s.Admits θ)
    (hc : θ.Decides c) :
    ∃ i ∈ found, ∃ candidate, c.candidates[i]? = some candidate ∧
      ∀ e ∈ candidate, θ.Solves e := by
  obtain ⟨candidate, hmem, hsolves⟩ := hc
  obtain ⟨i, hi⟩ := List.mem_iff_getElem?.mp hmem
  refine ⟨i, ?_, candidate, hi, hsolves⟩
  have := (hfound.mem_iff hi).mpr ⟨θ, hθ.2, hsolves⟩
  rwa [Nat.zero_add] at this

theorem Viable.exists_candidate {σ : Substitution} {candidates : List (List Equation)}
    {found : List Nat} (h : Viable σ 0 candidates found) {i : Nat} (hi : i ∈ found) :
    ∃ candidate, candidates[i]? = some candidate := by
  have := List.mem_range'_1.mp (h.sublist.subset hi)
  exact ⟨candidates[i], List.getElem?_eq_getElem (by omega)⟩

theorem keeps_pass {cs : List Choice} (hcs : ∀ c ∈ cs, c.Determined) {p : Progress}
    (hp : p.session.Coherent) :
    Keeps (fun θ => ∀ c ∈ cs, θ.Decides c) (pass cs) p
      fun w s => Passed cs p.session w.val s := by
  induction cs generalizing p with
  | nil => exact keeps_pure hp ⟨.slnil, fun _ _ => List.forall_mem_nil _,
    fun _ => ⟨rfl, List.forall_mem_nil _⟩⟩
  | cons c cs ih =>
    obtain ⟨hc, hcs⟩ := List.forall_mem_cons.mp hcs
    have hrest {q : Progress} (hq : q.session.Coherent) :=
      (ih hcs hq).asking (fun θ => ∀ c' ∈ c :: cs, θ.Decides c')
        fun θ _ h => (List.forall_mem_cons.mp h).2
    refine ((tries_viable hc hp).keeps hp).bind fun found q _ hfound => ?_
    obtain ⟨hq, hfound⟩ := hfound
    rw [← hq] at hp hfound ⊢
    match found, hfound with
    | [], hfound =>
      -- No admitted valuation decides the choice, and none is admitted any more.
      have hexhaust := (keeps_exhaust hp c).asking (fun θ => ∀ c' ∈ c :: cs, θ.Decides c')
        fun θ hθ h => by
          obtain ⟨i, hi, _⟩ := exists_viable hfound hθ (h c List.mem_cons_self)
          cases hi
      refine hexhaust.bind fun _ q' hq' hnone => (hrest hq'.coherent).bind fun w q'' hq'' hw => ?_
      exact keeps_pure hq''.coherent
        (hw.cons_of_decided fun θ hθ => absurd (hq''.admits hθ) (hnone θ))
    | [i], hfound =>
      obtain ⟨candidate, hi⟩ := hfound.exists_candidate List.mem_cons_self
      have hcommit := (keeps_commit hp hc hi .commitAlternative).asking
        (fun θ => ∀ c' ∈ c :: cs, θ.Decides c') fun θ hθ h => by
          obtain ⟨j, hj, es, hes, hsolves⟩ := exists_viable hfound hθ (h c List.mem_cons_self)
          rw [List.mem_singleton.mp hj, hi] at hes
          cases hes
          exact hsolves
      refine hcommit.bind fun _ q' hq' hdone => (hrest hq'.coherent).bind fun w q'' hq'' hw => ?_
      refine keeps_pure hq''.coherent (hw.cons_of_decided fun θ hθ => ?_)
      exact ⟨candidate, List.mem_of_getElem? hi, hdone θ (hq''.admits hθ)⟩
    | i :: j :: more, hfound =>
      -- The choice waits, and nothing is asked of the session on its account.
      refine (hrest hp).bind fun w q' hq' hw => ?_
      exact keeps_pure hq'.coherent
        (hw.cons_of_undecided ⟨_, hfound, Nat.le_add_left 2 more.length⟩)

end Solving

end PlusCalTyping
