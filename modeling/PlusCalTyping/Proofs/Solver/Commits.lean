import PlusCalTyping.Proofs.Solver.Trials

/-! # The commits of a run

Here a run writes down every commit and every choice that it gives up. Apart
from that it is the run it was (`Recording.follows_constraints`). The record
shows when a default is taken: in a round in which nothing is forced, so that no
binding has been made since the candidates were tried, and several candidates
of every choice that is left still fit. For the same reason the choice that gets
the default has a candidate to take. And since a commit repeats a trial that
succeeded, it either goes through without a failure or is cut short by the
budget (`Session.happenings_solve`).
-/

namespace PlusCalTyping

/-- A commit as it appears in the record of a run. -/
structure Commit where
  action : UnifyAction
  /-- The choices that were not decided yet, in their order. -/
  pending : List Choice
  choice : Choice
  index : Nat
  before : Session
  after : Session
  /-- The budget has let all equations of the candidate be tried. -/
  whole : Bool

inductive Happening
  | committed (d : Commit)
  | exhausted (byDefault : Bool) (c : Choice)

/-- The state of a run and what has happened so far. -/
structure Record where
  progress : Progress
  happened : List Happening := []

/-- Part of a run that is recorded. -/
abbrev Recording := EStateM Failure Record

namespace Recording

/-- A part in which nothing happens that has to be recorded. -/
def silently {α : Type} (m : Solving α) : Recording α := fun r =>
  match m r.progress with
  | .ok x p => .ok x { r with progress := p }
  | .error f p => .error f { r with progress := p }

def exhaust (byDefault : Bool) (c : Choice) : Recording Unit := fun r =>
  silently (Solving.exhaust c) { r with happened := r.happened ++ [.exhausted byDefault c] }

def commit (action : UnifyAction) (pending : List Choice) (c : Choice) (i : Nat) :
    Recording Unit := fun r =>
  let told (after : Session) (whole : Bool) : List Happening :=
    r.happened ++ [.committed ⟨action, pending, c, i, r.progress.session, after, whole⟩]
  match Solving.commit action c i r.progress with
  | .ok x p => .ok x ⟨p, told p.session true⟩
  | .error f p => .error f ⟨p, told p.session false⟩

/-- Go through choices once, after some that have to wait. -/
def pass (held : List Choice) :
    (cs : List Choice) → Recording { waiting : List Choice // waiting.length ≤ cs.length }
  | [] => return ⟨[], Nat.le.refl⟩
  | c :: cs => do
    match ← silently (Solving.viable c) with
    | [] =>
      exhaust false c
      let ⟨waiting, h⟩ ← pass held cs
      return ⟨waiting, Nat.le_add_right_of_le h⟩
    | [i] =>
      commit .commitAlternative (held ++ c :: cs) c i
      let ⟨waiting, h⟩ ← pass held cs
      return ⟨waiting, Nat.le_add_right_of_le h⟩
    | _ =>
      let ⟨waiting, h⟩ ← pass (held ++ [c]) cs
      return ⟨c :: waiting, Nat.add_le_add_right h 1⟩

/-- Decide the first of some choices, of which none is forced. -/
def decideFirst (c : Choice) (rest : List Choice) : Recording Unit := do
  match ← silently (Solving.viable c) with
  | [] => exhaust true c
  | i :: _ => commit .defaultAlternative (c :: rest) c i

def rounds (pending : List Choice) : Recording Unit := do
  match ← pass [] pending with
  | ⟨[], _⟩ => return ()
  | ⟨c :: rest, _⟩ =>
    if (c :: rest).length < pending.length then rounds (c :: rest)
    else
      decideFirst c rest
      rounds rest
termination_by pending.length
decreasing_by
  · assumption
  · assumption

def constraints (ks : List Constraint) : Recording Unit := do
  silently ((Solving.equations ks).forM Solving.enforce)
  rounds (Solving.choices ks)

section

variable {α : Type}

/-- What is left of the end of a run without its record. -/
def erase : EStateM.Result Failure Record α → EStateM.Result Failure Progress α
  | .ok x r => .ok x r.progress
  | .error f r => .error f r.progress

/-- The record at the end of a run. -/
def history : EStateM.Result Failure Record α → List Happening
  | .ok _ r | .error _ r => r.happened

end

end Recording

namespace Session

/-- All that happens while a list of constraints is solved. -/
def happenings (s : Session) (o : Options) (ks : List Constraint) : List Happening :=
  Recording.history (Recording.constraints ks ⟨⟨s.constrain ks, .ofOptions o⟩, []⟩)

end Session

/-! ## What is recorded -/

section

variable {ks : List Constraint} {s : Session}

/-- What is true of every commit of a run that began with some session. -/
structure Commit.Genuine (ks : List Constraint) (s : Session) (d : Commit) : Prop where
  reached : Session.Steps ks s d.before
  mem : .oneOf d.choice ∈ ks
  viable : d.index ∈ d.before.viable d.choice
  done : d.whole → d.after = d.before.commit d.action d.choice d.index
  lastResort : d.action = .defaultAlternative →
    d.pending.head? = some d.choice ∧ (∀ i ∈ d.before.viable d.choice, d.index ≤ i) ∧
      ∀ c ∈ d.pending, 2 ≤ (d.before.viable c).length

def Happening.Genuine (ks : List Constraint) (s : Session) : Happening → Prop
  | .committed d => d.Genuine ks s
  | .exhausted byDefault _ => byDefault = false

structure Record.Genuine (ks : List Constraint) (s : Session) (r : Record) : Prop where
  reached : Session.Steps ks s r.progress.session
  happened : ∀ h ∈ r.happened, h.Genuine ks s

end

namespace Recording

variable {α β : Type} {m : Recording α} {m' : Solving α} {g : α → Recording β}
  {g' : α → Solving β} {I : Record → Prop} {r : Record} {ks : List Constraint} {s : Session}

/-- A recorded part does what another part does, and an invariant of the record
is kept, also where the budget stops it. -/
def Follows (I : Record → Prop) (m : Recording α) (m' : Solving α) (r : Record) : Prop :=
  erase (m r) = m' r.progress ∧
    match m r with
    | .ok _ q | .error _ q => I q

theorem follows_pure (x : α) (h : I r) : Follows I (pure x) (pure x) r := ⟨rfl, h⟩

theorem Follows.bind (h : Follows I m m' r)
    (hg : ∀ x q, m' r.progress = .ok x q.progress → I q → Follows I (g x) (g' x) q) :
    Follows I (m >>= g) (m' >>= g') r := by
  obtain ⟨herase, hinv⟩ := h
  unfold Follows
  simp only [Bind.bind, EStateM.bind, ← herase]
  cases hm : m r with
  | ok x q =>
    rw [hm] at herase hinv
    exact hg x q herase.symm hinv
  | error f q =>
    rw [hm] at hinv
    exact ⟨rfl, hinv⟩

theorem follows_silently {found : α → Prop} (hm : Solving.Walks ks m' found)
    (hr : r.Genuine ks s) : Follows (Record.Genuine ks s) (silently m') m' r := by
  have hends := hm r.progress
  unfold Solving.Ends at hends
  unfold Follows silently
  cases hrun : m' r.progress with
  | ok x p =>
    rw [hrun] at hends
    exact ⟨rfl, hr.reached.trans hends.1, hr.happened⟩
  | error f p =>
    rw [hrun] at hends
    exact ⟨rfl, hr.reached.trans hends.1, hr.happened⟩

theorem follows_exhaust {c : Choice} (hc : .oneOf c ∈ ks) (hr : r.Genuine ks s) :
    Follows (Record.Genuine ks s) (exhaust false c) (Solving.exhaust c) r := by
  refine follows_silently (Solving.walks_exhaust hc) ⟨hr.reached, ?_⟩
  exact List.forall_mem_append.mpr ⟨hr.happened, List.forall_mem_singleton.mpr rfl⟩

theorem follows_commit {c : Choice} (hc : .oneOf c ∈ ks) (action : UnifyAction)
    {pending : List Choice} {i : Nat} (hi : i ∈ r.progress.session.viable c)
    (hlast : action = .defaultAlternative → pending.head? = some c ∧
      (∀ j ∈ r.progress.session.viable c, i ≤ j) ∧
        ∀ c ∈ pending, 2 ≤ (r.progress.session.viable c).length) (hr : r.Genuine ks s) :
    Follows (Record.Genuine ks s) (commit action pending c i) (Solving.commit action c i) r := by
  have hwalks := Solving.walks_commit hc action i r.progress
  have hyields := Solving.yields_commit action c i r.progress.session r.progress.budget
  unfold Solving.Ends at hwalks hyields
  unfold Follows commit
  cases hrun : Solving.commit action c i r.progress with
  | ok x p =>
    rw [hrun] at hwalks hyields
    refine ⟨rfl, hr.reached.trans hwalks.1, ?_⟩
    refine List.forall_mem_append.mpr ⟨hr.happened, List.forall_mem_singleton.mpr ?_⟩
    exact ⟨hr.reached, hc, hi, fun _ => hyields.2, hlast⟩
  | error f p =>
    rw [hrun] at hwalks
    refine ⟨rfl, hr.reached.trans hwalks.1, ?_⟩
    refine List.forall_mem_append.mpr ⟨hr.happened, List.forall_mem_singleton.mpr ?_⟩
    exact ⟨hr.reached, hc, hi, nofun, hlast⟩

theorem follows_pass {cs : List Choice} (hcs : ∀ c ∈ cs, .oneOf c ∈ ks) (held : List Choice)
    (hr : r.Genuine ks s) :
    Follows (Record.Genuine ks s) (pass held cs) (Solving.pass cs) r := by
  induction cs generalizing held r with
  | nil => exact follows_pure _ hr
  | cons c cs ih =>
    obtain ⟨hc, hcs⟩ := List.forall_mem_cons.mp hcs
    refine (follows_silently (Solving.walks_viable c) hr).bind fun found q hrun hq => ?_
    obtain ⟨hsame, hfound⟩ := Solving.eq_of_viable hrun
    rw [← hsame] at hfound
    match found, hfound with
    | [], _ =>
      refine (follows_exhaust hc hq).bind fun _ q' _ hq' => ?_
      exact (ih hcs held hq').bind fun w q'' _ hq'' => follows_pure _ hq''
    | [i], hfound =>
      have hi := Session.mem_viable_of_eq_cons hfound.symm
      refine (follows_commit hc .commitAlternative hi nofun hq).bind fun _ q' _ hq' => ?_
      exact (ih hcs held hq').bind fun w q'' _ hq'' => follows_pure _ hq''
    | _ :: _ :: _, _ =>
      exact (ih hcs (held ++ [c]) hq).bind fun w q' _ hq' => follows_pure _ hq'

theorem follows_decideFirst {c : Choice} {rest : List Choice} (hc : .oneOf c ∈ ks)
    (hopen : ∀ c' ∈ c :: rest, 2 ≤ (r.progress.session.viable c').length)
    (hr : r.Genuine ks s) :
    Follows (Record.Genuine ks s) (decideFirst c rest) (Solving.decideFirst c) r := by
  refine (follows_silently (Solving.walks_viable c) hr).bind fun found q hrun hq => ?_
  obtain ⟨hsame, hfound⟩ := Solving.eq_of_viable hrun
  rw [← hsame] at hopen hfound
  cases found with
  | nil =>
    -- The trial finds what the trial in the pass before has found.
    have hlen := hopen c List.mem_cons_self
    rw [← hfound] at hlen
    exact absurd hlen (Nat.not_succ_le_zero 1)
  | cons i more =>
    have hi := Session.mem_viable_of_eq_cons hfound.symm
    exact follows_commit hc .defaultAlternative hi
      (fun _ => ⟨rfl, Session.le_of_mem_viable hfound.symm, hopen⟩) hq

theorem follows_rounds {cs : List Choice} (hcs : ∀ c ∈ cs, .oneOf c ∈ ks)
    (hr : r.Genuine ks s) :
    Follows (Record.Genuine ks s) (rounds cs) (Solving.rounds cs) r := by
  induction hn : cs.length using Nat.strong_induction_on generalizing cs r with
  | _ n ih =>
    subst hn
    rw [rounds, Solving.rounds]
    refine (follows_pass hcs [] hr).bind fun w q hrun hq => ?_
    have hyields := Solving.yields_pass cs r.progress.session r.progress.budget
    unfold Solving.Ends at hyields
    rw [hrun] at hyields
    obtain ⟨hw, hsession⟩ := hyields
    obtain ⟨waiting, hlen⟩ := w
    replace hw : waiting = (r.progress.session.pass cs).1 := congrArg Subtype.val hw
    have hwaiting : ∀ c ∈ waiting, .oneOf c ∈ ks := by
      rw [hw]
      exact fun c hc => hcs c ((r.progress.session.sublist_pass cs).subset hc)
    cases waiting with
    | nil => exact follows_pure _ hq
    | cons c rest =>
      obtain ⟨hc, hrest⟩ := List.forall_mem_cons.mp hwaiting
      dsimp only
      split
      · next hlt => exact ih _ hlt hwaiting hq rfl
      · next hlt =>
        have hlength : cs.length ≤ (r.progress.session.pass cs).1.length := by
          rw [← hw]
          exact Nat.not_lt.mp hlt
        have hopen := Session.two_le_viable_of_pass hlength
        rw [Session.pass_eq_self hlength] at hw hsession
        dsimp only at hw hsession
        rw [← hsession, ← hw] at hopen
        refine (follows_decideFirst hc hopen hq).bind fun _ q' _ hq' => ?_
        exact ih _ hlen hrest hq' rfl

/-- A recorded run is the run, and what it records is true. -/
theorem follows_constraints (hr : r.Genuine ks s) :
    Follows (Record.Genuine ks s) (constraints ks) (Solving.constraints ks) r := by
  refine (follows_silently (Solving.walks_equations ks) hr).bind fun _ q _ hq => ?_
  exact follows_rounds (fun c hc => Solving.mem_choices_iff.mp hc) hq

end Recording

namespace Session

/-- What happens while a list of constraints is solved after any calls. A default
is only taken where several candidates of every choice left still fit, and then
it is the first that fits the first of these choices. A commit that the budget
does not cut short adds no failure; where nothing is marked as impossible to
determine, it leaves its candidate solved. And no choice is found exhausted when
it is its turn to get a default. -/
theorem happenings_solve (o o' : Options) (calls : List Call) (ks : List Constraint) :
    let s := (ofOptions o).after calls
    let p : Progress := ⟨s.constrain ks, .ofOptions o'⟩
    Recording.erase (Recording.constraints ks ⟨p, []⟩) = Solving.constraints ks p ∧
    (∀ d, .committed d ∈ s.happenings o' ks →
      (d.action = .defaultAlternative →
        (∀ c ∈ d.pending, 2 ≤ (d.before.viable c).length) ∧ d.pending.head? = some d.choice ∧
        d.index ∈ d.before.viable d.choice ∧ ∀ i ∈ d.before.viable d.choice, d.index ≤ i) ∧
      (d.whole → d.after.failures = d.before.failures ∧
        ((∀ call ∈ calls, call.Determined) → (∀ k ∈ ks, k.Determined) →
          ∃ candidate, d.choice.candidates[d.index]? = some candidate ∧
            ∀ e ∈ candidate, d.after.substitution.Solves e))) ∧
    ∀ c, .exhausted true c ∉ s.happenings o' ks := by
  intro s p
  have hstart : Record.Genuine ks p.session ⟨p, []⟩ := ⟨.refl, List.forall_mem_nil _⟩
  obtain ⟨herase, hend⟩ := Recording.follows_constraints hstart
  have hgenuine : ∀ h ∈ s.happenings o' ks, h.Genuine ks p.session := by
    unfold happenings Recording.history
    cases hrun : Recording.constraints ks ⟨p, []⟩ with
    | ok x r | error f r =>
      rw [hrun] at hend
      exact hend.happened
  refine ⟨herase, fun d hd => ?_, fun c hc => Bool.noConfusion (hgenuine _ hc)⟩
  obtain ⟨hreached, hmem, hviable, hdone, hlast⟩ := hgenuine _ hd
  constructor
  · intro haction
    obtain ⟨hhead, hfirst, hopen⟩ := hlast haction
    exact ⟨hopen, hhead, hviable, hfirst⟩
  · intro hwhole
    rw [hdone hwhole]
    refine ⟨failures_commit d.action hviable, fun hcalls hks => ?_⟩
    obtain ⟨hs, _⟩ := (coherent_ofOptions o).after hcalls
    have hbefore := (hreached.extends hks (hs.constrain ks)).coherent
    obtain ⟨candidate, hi, _⟩ := mem_viable_iff.mp hviable
    exact ⟨candidate, hi, hbefore.solves_commit (hks _ hmem) d.action hviable hi⟩

/-- Nothing is forced at first. The default for the first choice forces the last
one, and the one between them gets its default in the end. -/
theorem happenings_solve_three_choices :
    let n : NodeId := ⟨0⟩
    let v : Ty := .var ⟨0⟩
    let w : Ty := .var ⟨1⟩
    let eqn (s t : Ty) : Equation := ⟨s, t, n, .exprType⟩
    let intOrString (t : Ty) : Constraint :=
      .oneOf ⟨[[eqn t (.int n)], [eqn t (.string n)]], n, .identity⟩
    let ks := [intOrString v, intOrString w, intOrString v]
    let told := (ofOptions {}).happenings {} ks
    (told.map fun
      | .committed d => some (d.action, d.pending.length, d.index, d.whole)
      | .exhausted _ _ => none) =
      [some (.defaultAlternative, 3, 0, true), some (.commitAlternative, 2, 0, true),
        some (.defaultAlternative, 1, 0, true)] ∧
    ∀ d, .committed d ∈ told → d.whole →
      ∃ candidate, d.choice.candidates[d.index]? = some candidate ∧
        ∀ e ∈ candidate, d.after.substitution.Solves e := by
  intro n v w eqn intOrString ks told
  constructor
  · simp only [told, ks, intOrString, eqn, w, v, n]
    cbv
  · intro d hd hwhole
    obtain ⟨_, hcommits, _⟩ := happenings_solve {} {} [] ks
    exact ((hcommits d hd).2 hwhole).2 (List.forall_mem_nil _) (by decide)

end Session

end PlusCalTyping
