import PlusCalTyping.Proofs.Typing.Completeness.Steps

/-! # Completeness of the constraints of expressions

Where a typing types an expression, the constraints of the expression can be
filled in: every rule for constraints demands no more than the typing rule of
its constructor grants. The variable that an expression is given then stands
for the type of its node (`reaches_infer`).
-/

namespace PlusCalTyping.Drafting

open Filling

variable {τ : Typing} {p : Filling τ} {t u : Ty}

/-! ## Operators -/

theorem reaches_settle {n : NodeId} (ht : p.Denotes t u) (hu : τ.Has n u) :
    Reaches (settle n t) p fun q v => q.Suits n v := by
  apply (reaches_typeOf p n).bind
  intro q v hq hv
  exact (reaches_demand (hv.denotes hu) (ht.mono hq) n .exprType).bind
    fun s _ hs _ => reaches_pure (hv.mono hs)

theorem reaches_conclude {n : NodeId} (rule : TypingRule) (ht : p.Denotes t u)
    (hu : τ.Has n u) : Reaches (conclude n rule t) p fun q v => q.Suits n v :=
  (reaches_record p n rule t "").bind fun _ _ hq _ => reaches_settle (ht.mono hq) hu

theorem reaches_slots? (around : Surroundings) (decl : NodeId) {slot : Slots → TypeVar}
    (hslot : slot = Slots.read ∨ slot = Slots.written) (p : Filling τ) :
    Reaches (slots? around decl) p
      fun q s => ∀ s', s = some s' → q.Suits decl (.var (slot s')) := by
  refine ⟨p, le_refl p, (slots?_snd around decl p.draft).symm, fun s hs => ?_⟩
  obtain ⟨_, hs⟩ := slots?_fst_eq_some hs
  refine p.slots decl s hs _ ?_
  obtain rfl | rfl := hslot
  · exact .inl rfl
  · exact .inr rfl

theorem reaches_nameType (around : Surroundings) {site decl : NodeId}
    (h : around.registry.followReference site = some decl) {slot : Slots → TypeVar}
    (hslot : slot = Slots.read ∨ slot = Slots.written) (p : Filling τ) :
    Reaches (nameType around site slot) p fun q t => q.Suits decl t := by
  unfold nameType
  rw [h]
  apply (reaches_slots? around decl hslot p).bind
  intro q s _ hs
  cases s with
  | some s => exact reaches_pure (hs s rfl)
  | none => exact reaches_typeOf q decl

theorem reaches_unaryType (n : NodeId) {op : UnaryOp} {operand : Ty}
    (h : p.Denotes operand t) (hop : op.Types t u) :
    Reaches (unaryType n op operand) p fun q w => q.Denotes w u := by
  cases op <;> dsimp only [unaryType]
  case not =>
    obtain ⟨rfl, rfl⟩ := hop
    exact (reaches_demand (denotes_prim _ _ _) h n _).bind
      fun _ _ _ _ => reaches_pure (denotes_prim _ _ _)
  case neg =>
    obtain ⟨r, hr, rfl, rfl⟩ := hop
    apply (reaches_fresh p (.prim r .none)).bind
    intro q v hq hv
    exact (reaches_demandNumeric hr hv (List.forall_mem_singleton.mpr (h.mono hq)) n _).bind
      fun s _ hs _ => reaches_pure (hv.mono hs)
  case domain =>
    obtain ⟨k, w, rfl, rfl⟩ := hop
    apply (reaches_fresh p k).bind
    intro q key hq hkey
    apply (reaches_fresh q w).bind
    intro s value hs hvalue
    have hkey := hkey.mono hs
    exact (reaches_demand (hkey.map hvalue _ _) (h.mono (hq.trans hs)) n _).bind
      fun s' _ hs' _ => reaches_pure ((hkey.mono hs').set _ _)
  case powerSet | cardinality =>
    obtain ⟨elem, rfl, rfl⟩ := hop
    apply (reaches_fresh p elem).bind
    intro q v hq hv
    refine (reaches_demand (hv.set _ _) (h.mono hq) n _).bind fun s _ hs _ => reaches_pure ?_
    first | exact ((hv.mono hs).set _ _).set _ _ | exact denotes_prim _ _ _
  case bigUnion =>
    obtain ⟨elem, rfl, rfl⟩ := hop
    apply (reaches_fresh p elem).bind
    intro q v hq hv
    exact (reaches_demand ((hv.set _ _).set _ _) (h.mono hq) n _).bind
      fun s _ hs _ => reaches_pure ((hv.mono hs).set _ _)

theorem reaches_demandBoth {l w : Ty} (ht : p.Denotes t u) (hl : p.Denotes l u)
    (hw : p.Denotes w u) (i j : NodeId) (reason : Reason) :
    Reaches (demandBoth t (i, l) (j, w) reason) p fun _ _ => True :=
  (reaches_demand ht hl i reason).bind fun _ _ hq _ =>
    reaches_demand (ht.mono hq) (hw.mono hq) j reason

theorem reaches_binaryType (n : NodeId) {op : BinaryOp} {i j : NodeId} {l w x y z : Ty}
    (hl : p.Denotes l x) (hw : p.Denotes w y) (hop : op.Types x y z) :
    Reaches (binaryType n op (i, l) (j, w)) p fun q v => q.Denotes v z := by
  have hboth {r : Prim} (hl : p.Denotes l (.prim r .none)) (hw : p.Denotes w (.prim r .none))
      {q : Filling τ} (hq : p ≤ q) : ∀ t ∈ [l, w], q.Denotes t (.prim r .none) :=
    List.forall_mem_cons.mpr ⟨hl.mono hq, List.forall_mem_singleton.mpr (hw.mono hq)⟩
  cases op <;> dsimp only [binaryType]
  case add | sub | mul =>
    obtain ⟨r, hr, rfl, rfl, rfl⟩ := hop
    apply (reaches_fresh p (.prim r .none)).bind
    intro q v hq hv
    exact (reaches_demandNumeric hr hv (hboth hl hw hq) n _).bind
      fun s _ hs _ => reaches_pure (hv.mono hs)
  case lt | le | gt | ge =>
    obtain ⟨r, hr, rfl, rfl, rfl⟩ := hop
    apply (reaches_fresh p (.prim r .none)).bind
    intro q v hq hv
    exact (reaches_demandNumeric hr hv (hboth hl hw hq) n _).bind
      fun _ _ _ _ => reaches_pure (denotes_prim _ _ _)
  case intDiv | mod | realDiv | and | or | implies | equiv | concat =>
    obtain ⟨rfl, rfl, rfl⟩ := hop
    exact (reaches_demandBoth (denotes_prim _ _ _) hl hw i j _).bind
      fun _ _ _ _ => reaches_pure (denotes_prim _ _ _)
  case range =>
    obtain ⟨rfl, rfl, rfl⟩ := hop
    exact (reaches_demandBoth (denotes_prim _ _ _) hl hw i j _).bind
      fun _ _ _ _ => reaches_pure ((denotes_prim _ _ .none).set _ _)
  case eq | neq =>
    obtain ⟨rfl, rfl⟩ := hop
    exact (reaches_demand hl hw n _).bind fun _ _ _ _ => reaches_pure (denotes_prim _ _ _)
  case mem | notMem =>
    obtain ⟨rfl, rfl⟩ := hop
    exact (reaches_demand (hl.set _ _) hw n _).bind
      fun _ _ _ _ => reaches_pure (denotes_prim _ _ _)
  case union | intersect | setMinus | subset =>
    obtain ⟨elem, rfl, rfl, rfl⟩ := hop
    apply (reaches_fresh p elem).bind
    intro q v hq hv
    refine (reaches_demandBoth (hv.set _ _) (hl.mono hq) (hw.mono hq) i j _).bind
      fun s _ hs _ => reaches_pure ?_
    first | exact (hv.mono hs).set _ _ | exact denotes_prim _ _ _

/-! ## Expressions -/

theorem reaches_share (reason : Reason) {first : Option Ty}
    (hf : ∀ s, first = some s → p.Denotes s u) (n : NodeId) (ht : p.Denotes t u) :
    Reaches (share reason first n t) p fun q o => ∀ s, o = some s → q.Denotes s u := by
  cases first with
  | none =>
    refine reaches_pure ?_
    rintro _ ⟨⟩
    exact ht
  | some s =>
    refine (reaches_demand (hf s rfl) ht n reason).bind fun q _ hq _ => reaches_pure ?_
    rintro _ ⟨⟩
    exact (hf s rfl).mono hq

theorem reaches_sharedOrFresh {first : Option Ty}
    (hf : ∀ s, first = some s → p.Denotes s u) :
    Reaches (sharedOrFresh first) p fun q t => q.Denotes t u := by
  cases first with
  | none => exact reaches_fresh p u
  | some s => exact reaches_pure (hf s rfl)

theorem reaches_applied {id : NodeId} {f : Ty} {ts us : List Ty} {finish : Ty → Drafting Ty}
    (hf : p.Denotes f (.map (Typing.key us) u .none)) (hts : List.Forall₂ p.Denotes ts us)
    (hfinish : ∀ {q : Filling τ} {v : Ty}, q.Denotes v u →
      Reaches (finish v) q fun s w => s.Suits id w) :
    Reaches (do
        let value ← fresh
        demand f (.map (keyType id ts) value (.single id)) id .functionApply
        finish value)
      p fun q w => q.Suits id w := by
  apply (reaches_fresh p u).bind
  intro q v hq hv
  have hkey := (denotes_key id hts).mono hq
  apply (reaches_demand (hf.mono hq) (hkey.map hv _ _) id .functionApply).bind
  intro s _ hs _
  exact hfinish (hv.mono hs)

theorem reaches_mapM_typeOf (args : List (Node String)) (p : Filling τ) :
    Reaches (args.mapM fun arg => typeOf arg.id) p
      fun q ts => List.Forall₂ q.Suits (args.map (·.id)) ts := by
  induction args generalizing p with
  | nil => exact reaches_pure .nil
  | cons arg args ih =>
    rw [List.mapM_cons]
    refine (reaches_typeOf p arg.id).bind fun q t _ ht => (ih q).bind fun s ts hs hts => ?_
    exact reaches_pure (.cons (ht.mono hs) hts)

variable (around : Surroundings)

mutual

/-- The constraints of a typed expression can be filled in. -/
theorem reaches_infer : (e : Expr) → τ.ExprTyped around.registry e → (p : Filling τ) →
    Reaches (infer around e) p fun q t => q.Suits e.id t
  | .literal id value, h, p => by
    rw [infer]
    refine reaches_conclude .literal ?_ h
    cases value <;> exact denotes_prim _ _ _
  | .ident id _, h, p | .ref id _, h, p => by
    rw [infer]
    obtain ⟨decl, hdecl, t, hid, ht⟩ := h
    apply (reaches_nameType around hdecl (.inl rfl) p).bind
    intro q u _ hu
    exact reaches_conclude .identifier (hu.denotes ht) hid
  | .tuple id elems, h, p => by
    rw [infer]
    obtain ⟨helems, ts, hts, hid⟩ := h
    apply (reaches_inferList elems helems p).bind
    intro q us _ hus
    exact reaches_conclude .tuple (denotes_tuple (forall₂_denotes hus hts) _ _) hid
  | .set id elems, h, p => by
    rw [infer]
    obtain ⟨helems, t, hts, hid⟩ := h
    refine (reaches_inferElements elems none t nofun helems hts).bind fun q first _ hfirst => ?_
    apply (reaches_sharedOrFresh hfirst).bind
    intro s u _ hu
    exact reaches_conclude .set (hu.set _ _) hid
  | .unary id op operand, h, p => by
    rw [infer]
    obtain ⟨hoperand, s, t, hs, hid, hop⟩ := h
    apply (reaches_infer operand hoperand p).bind
    intro q u _ hu
    apply (reaches_unaryType id (hu.denotes hs) hop).bind
    intro q' w _ hw
    exact reaches_conclude .operator hw hid
  | .binary id op left right, h, p => by
    rw [infer]
    obtain ⟨hleft, hright, s, t, w, hs, ht, hid, hop⟩ := h
    apply (reaches_infer left hleft p).bind
    intro q l _ hl
    apply (reaches_infer right hright q).bind
    intro q' u hq' hu
    apply (reaches_binaryType id ((hl.mono hq').denotes hs) (hu.denotes ht) hop).bind
    intro _ _ _ hv
    exact reaches_conclude .operator hv hid
  | .apply id func args, h, p => by
    rw [infer]
    obtain ⟨hfunc, hargs, ts, t, hts, hid, hmap⟩ := h
    apply (reaches_infer func hfunc p).bind
    intro q f _ hf
    apply (reaches_inferList args hargs q).bind
    intro q' us hq' hus
    have hf := (hf.mono hq').denotes hmap
    exact reaches_applied hf (forall₂_denotes hus hts) fun hv =>
      reaches_conclude .functionApply hv hid
  | .function id bounds body, h, p => by
    rw [infer]
    obtain ⟨hbounds, hbody, ts, t, hts, ht, hid⟩ := h
    apply (reaches_inferBounds bounds hbounds p).bind
    intro q us _ hus
    apply (reaches_infer body hbody q).bind
    intro s v hs hv
    have hkey := (denotes_key id (forall₂_denotes hus hts)).mono hs
    exact reaches_conclude .functionLiteral (hkey.map (hv.denotes ht) _ _) hid
  | .refinement id bound predicate, h, p => by
    rw [infer]
    obtain ⟨hbound, hpred, hbool, t, ht, hid⟩ := h
    apply (reaches_inferBound bound hbound p).bind
    intro q u _ hu
    apply (reaches_infer predicate hpred q).bind
    intro q' b hq' hb
    apply (reaches_demandBool (hb.denotes hbool) predicate.id).bind
    intro s _ hs _
    exact reaches_conclude .setFormer (((hu.mono (hq'.trans hs)).denotes ht).set _ _) hid
  | .comprehension id body bounds, h, p => by
    rw [infer]
    obtain ⟨hbounds, hbody, t, ht, hid⟩ := h
    apply (reaches_inferBounds bounds hbounds p).bind
    intro q _ _ _
    apply (reaches_infer body hbody q).bind
    intro s v _ hv
    exact reaches_conclude .setFormer ((hv.denotes ht).set _ _) hid
  | .quantified id _ bounds body, h, p => by
    rw [infer]
    obtain ⟨hbounds, hbody, hbool, hid⟩ := h
    apply (reaches_inferBounds bounds hbounds p).bind
    intro q _ _ _
    apply (reaches_infer body hbody q).bind
    intro q' b _ hb
    apply (reaches_demandBool (hb.denotes hbool) body.id).bind
    intro _ _ _ _
    exact reaches_conclude .quantifier (denotes_prim _ _ _) hid
  | .choose id bound predicate, h, p => by
    rw [infer]
    obtain ⟨hbound, hpred, hbool, t, hid, ht⟩ := h
    apply (reaches_inferBound bound hbound p).bind
    intro q u _ hu
    apply (reaches_infer predicate hpred q).bind
    intro q' b hq' hb
    apply (reaches_demandBool (hb.denotes hbool) predicate.id).bind
    intro s _ hs _
    exact reaches_conclude .choose ((hu.mono (hq'.trans hs)).denotes ht) hid
  | .ite id condition thenBranch elseBranch, h, p => by
    rw [infer]
    obtain ⟨hcondition, hthen, helse, hbool, t, ht, he, hid⟩ := h
    apply (reaches_infer condition hcondition p).bind
    intro q c _ hc
    apply (reaches_demandBool (hc.denotes hbool) condition.id).bind
    intro q' _ _ _
    apply (reaches_infer thenBranch hthen q').bind
    intro s u _ hu
    apply (reaches_infer elseBranch helse s).bind
    intro s' w hs' hw
    have hu := (hu.mono hs').denotes ht
    apply (reaches_demand hu (hw.denotes he) elseBranch.id .ifBranches).bind
    intro _ _ hq _
    exact reaches_conclude .conditional (hu.mono hq) hid
  | .cases id arms none, h, p => by
    rw [infer]
    obtain ⟨harms, t, hts, hid⟩ := h
    apply (reaches_checkArms arms harms p).bind
    intro q _ _ _
    refine (reaches_inferResults arms none t nofun harms hts).bind fun q' first _ hfirst => ?_
    apply (reaches_sharedOrFresh hfirst).bind
    intro s u _ hu
    exact reaches_conclude .cases hu hid
  | .cases id arms (some other), h, p => by
    rw [infer]
    obtain ⟨harms, hother, t, hts, ht, hid⟩ := h
    apply (reaches_checkArms arms harms p).bind
    intro q _ _ _
    refine (reaches_inferResults arms none t nofun harms hts).bind fun q' first _ hfirst => ?_
    apply (reaches_infer other hother q').bind
    intro s u hs hu
    refine (reaches_share .caseArms (fun w hw => (hfirst w hw).mono hs) other.id
      (hu.denotes ht)).bind fun s' shared _ hshared => ?_
    apply (reaches_sharedOrFresh hshared).bind
    intro _ w _ hw
    exact reaches_conclude .cases hw hid
  | .letIn id definitions body, h, p => by
    rw [infer]
    obtain ⟨hdefinitions, hbody, t, hid, ht⟩ := h
    apply (reaches_inferDefinitions definitions hdefinitions p).bind
    intro q _ _ _
    apply (reaches_infer body hbody q).bind
    intro s u _ hu
    exact reaches_conclude .letIn (hu.denotes ht) hid
  | .call id name args, h, p => by
    rw [infer]
    obtain ⟨hargs, decl, ts, t, hdecl, hts, hid, hsignature⟩ := h
    apply (reaches_inferList args hargs p).bind
    intro q us _ hus
    apply (reaches_fresh q t).bind
    intro q' v hq' hv
    simp only [hdecl]
    apply (reaches_typeOf q' decl).bind
    intro s signature hs hsig
    have hargs := (forall₂_denotes hus hts).imp fun _ _ h => h.mono (hq'.trans hs)
    apply (reaches_demand (hsig.denotes hsignature)
      (denotes_operator hargs (hv.mono hs) _ _) id _).bind
    intro s' _ hs' _
    exact reaches_conclude .operatorCall (hv.mono (hs.trans hs')) hid

theorem reaches_inferList : (es : List Expr) → τ.ListTyped around.registry es →
    (p : Filling τ) →
    Reaches (inferList around es) p fun q ts => List.Forall₂ q.Suits (es.map (·.id)) ts
  | [], _, p => by
    rw [inferList]
    exact reaches_pure .nil
  | e :: es, h, p => by
    rw [inferList]
    obtain ⟨he, hes⟩ := h
    apply (reaches_infer e he p).bind
    intro q t _ ht
    apply (reaches_inferList es hes q).bind
    intro s ts hs hts
    exact reaches_pure (.cons (ht.mono hs) hts)

theorem reaches_inferElements : (es : List Expr) → (first : Option Ty) → (u : Ty) →
    {p : Filling τ} → (∀ s, first = some s → p.Denotes s u) →
    τ.ListTyped around.registry es → (∀ e ∈ es, τ.Has e.id u) →
    Reaches (inferElements around first es) p fun q o => ∀ s, o = some s → q.Denotes s u
  | [], first, u, p, hfirst, _, _ => by
    rw [inferElements]
    exact reaches_pure hfirst
  | e :: es, first, u, p, hfirst, h, hu => by
    rw [inferElements]
    obtain ⟨he, hes⟩ := h
    obtain ⟨heu, hu⟩ := List.forall_mem_cons.mp hu
    apply (reaches_infer e he p).bind
    intro q t hq ht
    refine (reaches_share .setElements (fun s hs => (hfirst s hs).mono hq) e.id
      (ht.denotes heu)).bind fun s shared _ hshared => ?_
    exact reaches_inferElements es shared u hshared hes hu

theorem reaches_inferBound : (b : Bound) → τ.BoundTyped around.registry b →
    (p : Filling τ) → Reaches (inferBound around b) p fun q t => q.Suits b.id t
  | ⟨id, name, set⟩, h, p => by
    rw [inferBound]
    obtain ⟨hset, t, ht, hsett⟩ := h
    apply (reaches_infer set hset p).bind
    intro q u _ hu
    apply (reaches_typeOf q id).bind
    intro s v hs hv
    apply (reaches_demand ((hv.denotes ht).set _ _) ((hu.mono hs).denotes hsett) id
      .membership).bind
    intro s' _ hs' _
    exact reaches_pure (hv.mono hs')

theorem reaches_inferBounds : (bs : List Bound) → τ.BoundsTyped around.registry bs →
    (p : Filling τ) →
    Reaches (inferBounds around bs) p fun q ts => List.Forall₂ q.Suits (bs.map (·.id)) ts
  | [], _, p => by
    rw [inferBounds]
    exact reaches_pure .nil
  | b :: bs, h, p => by
    rw [inferBounds]
    obtain ⟨hb, hbs⟩ := h
    apply (reaches_inferBound b hb p).bind
    intro q t _ ht
    apply (reaches_inferBounds bs hbs q).bind
    intro s ts hs hts
    exact reaches_pure (.cons (ht.mono hs) hts)

theorem reaches_checkArms : (arms : List Arm) → τ.ArmsTyped around.registry arms →
    (p : Filling τ) → Reaches (checkArms around arms) p fun _ _ => True
  | [], _, p => by
    rw [checkArms]
    exact reaches_pure trivial
  | ⟨condition, _⟩ :: arms, h, p => by
    rw [checkArms]
    obtain ⟨hcondition, _, hbool, harms⟩ := h
    apply (reaches_infer condition hcondition p).bind
    intro q t _ ht
    apply (reaches_demandBool (ht.denotes hbool) condition.id).bind
    intro s _ _ _
    exact reaches_checkArms arms harms s

theorem reaches_inferResults : (arms : List Arm) → (first : Option Ty) → (u : Ty) →
    {p : Filling τ} → (∀ s, first = some s → p.Denotes s u) →
    τ.ArmsTyped around.registry arms → (∀ a ∈ arms, τ.Has a.result.id u) →
    Reaches (inferResults around first arms) p fun q o => ∀ s, o = some s → q.Denotes s u
  | [], first, u, p, hfirst, _, _ => by
    rw [inferResults]
    exact reaches_pure hfirst
  | ⟨_, result⟩ :: arms, first, u, p, hfirst, h, hu => by
    rw [inferResults]
    obtain ⟨_, hresult, _, harms⟩ := h
    obtain ⟨hresultu, hu⟩ := List.forall_mem_cons.mp hu
    apply (reaches_infer result hresult p).bind
    intro q t hq ht
    refine (reaches_share .caseArms (fun s hs => (hfirst s hs).mono hq) result.id
      (ht.denotes hresultu)).bind fun s shared _ hshared => ?_
    exact reaches_inferResults arms shared u hshared harms hu

theorem reaches_inferDefinition : (d : Definition) → τ.DefinitionTyped around.registry d →
    (p : Filling τ) → Reaches (inferDefinition around d) p fun _ _ => True
  | ⟨id, name, args, body⟩, h, p => by
    rw [inferDefinition]
    obtain ⟨hbody, ts, t, hts, ht, hid⟩ := h
    apply (reaches_typeOf p id).bind
    intro q signature _ hsignature
    apply (reaches_mapM_typeOf args q).bind
    intro q' us hq' hus
    apply (reaches_infer body hbody q').bind
    intro s result hs hresult
    have hargs := (forall₂_denotes hus hts).imp fun _ _ h => h.mono hs
    have hactual := denotes_operator hargs (hresult.denotes ht) (.single id) .none
    have hsignature := (hsignature.mono (hq'.trans hs)).denotes hid
    apply (reaches_record s id .signature _ name).bind
    intro s' _ hs' _
    exact reaches_demand (hsignature.mono hs') (hactual.mono hs') id .operatorDefinition

theorem reaches_inferDefinitions : (ds : List Definition) →
    τ.DefinitionsTyped around.registry ds → (p : Filling τ) →
    Reaches (inferDefinitions around ds) p fun _ _ => True
  | [], _, p => by
    rw [inferDefinitions]
    exact reaches_pure trivial
  | d :: ds, h, p => by
    rw [inferDefinitions]
    obtain ⟨hd, hds⟩ := h
    exact (reaches_inferDefinition d hd p).bind fun q _ _ _ => reaches_inferDefinitions ds hds q

end

end PlusCalTyping.Drafting
