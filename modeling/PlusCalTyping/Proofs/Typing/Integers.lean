import PlusCalTyping.Proofs.Typing.Registries

/-! # Rules where types are known

Where the left operand is an integer, an arithmetic operator, a comparison or a
range leaves no choice: the other operand is an integer as well, and the type of
the whole is that of the operator. A name has the type of its declaration, and a
signature that of its parameters.
-/

namespace PlusCalTyping

/-- With an integer on the left, the operator takes one on the right as well and
gives the one type. -/
def BinaryOp.OnIntegers (op : BinaryOp) (whole : Ty) : Prop :=
  ∀ s t u : Ty, s.agrees (.prim .int .none) →
    (op.Types s t u ↔ s = .prim .int .none ∧ t = .prim .int .none ∧ u = whole)

namespace BinaryOp

theorem eq_int_of_agrees {p : Prim} (h : (Ty.prim p .none).agrees (.prim .int .none)) : p = .int :=
  of_decide_eq_true h

theorem onIntegers_add : add.OnIntegers (.prim .int .none) := by
  intro s t u hs
  constructor
  · rintro ⟨p, _, rfl, rfl, rfl⟩
    rw [eq_int_of_agrees hs]
    exact ⟨rfl, rfl, rfl⟩
  · rintro ⟨rfl, rfl, rfl⟩
    exact ⟨.int, .inl rfl, rfl, rfl, rfl⟩

theorem onIntegers_gt : gt.OnIntegers (.prim .bool .none) := by
  intro s t u hs
  constructor
  · rintro ⟨p, _, rfl, rfl, rfl⟩
    rw [eq_int_of_agrees hs]
    exact ⟨rfl, rfl, rfl⟩
  · rintro ⟨rfl, rfl, rfl⟩
    exact ⟨.int, .inl rfl, rfl, rfl, rfl⟩

theorem onIntegers_range : range.OnIntegers (.set (.prim .int .none) .none) :=
  fun _ _ _ _ => Iff.rfl

end BinaryOp

namespace Typing

variable {τ : Typing} {r : Registry}

theorem exprTyped_binary_iff {op : BinaryOp} {whole : Ty} (hop : op.OnIntegers whole) {id : NodeId}
    {left right : Expr} (hleft : τ.Has left.id (.prim .int .none)) :
    τ.ExprTyped r (.binary id op left right) ↔ τ.ExprTyped r left ∧ τ.ExprTyped r right ∧
      τ.Has right.id (.prim .int .none) ∧ τ.Has id whole := by
  rw [ExprTyped]
  refine and_congr_right fun _ => and_congr_right fun _ => ?_
  constructor
  · rintro ⟨s, t, u, hs, ht, hu, htypes⟩
    obtain ⟨rfl, rfl, rfl⟩ := (hop s t u (hs.agrees hleft)).mp htypes
    exact ⟨ht, hu⟩
  · rintro ⟨hright, hwhole⟩
    exact ⟨_, _, _, hleft, hright, hwhole, (hop _ _ _ (Ty.agrees_refl _)).mpr ⟨rfl, rfl, rfl⟩⟩

theorem refers_iff {site decl : NodeId} (hsite : r.followReference site = some decl) {t : Ty}
    (ht : τ.Has decl t) : τ.Refers r site ↔ τ.Has site t := by
  constructor
  · rintro ⟨decl', hdecl, hshare⟩
    rw [hsite] at hdecl
    cases hdecl
    exact hshare.has ht
  · exact fun h => ⟨decl, hsite, t, h, ht⟩

theorem declTyped_int_iff {id literal : NodeId} {name : String} {k : Int} :
    τ.DeclTyped r ⟨id, name, some (.value (.literal literal (.int k)))⟩ ↔
      ∀ n ∈ [id, literal], τ.Has n (.prim .int .none) := by
  simp only [List.forall_mem_cons]
  constructor
  · rintro ⟨hliteral, hshare⟩
    exact ⟨hshare.has hliteral, hliteral, List.forall_mem_nil _⟩
  · rintro ⟨hid, hliteral, _⟩
    exact ⟨hliteral, _, hid, hliteral⟩

theorem HasAll.agrees {ns : List NodeId} {ts us : List Ty} (h : τ.HasAll ns ts)
    (h' : τ.HasAll ns us) : Ty.agreesList ts us := by
  induction h generalizing us with
  | nil =>
    cases h'
    rfl
  | cons hn _ ih =>
    cases h' with
    | cons hn' hns' => exact Bool.and_eq_true_iff.mpr ⟨hn.agrees hn', ih hns'⟩

theorem signatureTyped_iff {id : NodeId} {params : List NodeId} {ts : List Ty}
    (h : τ.HasAll params ts) : τ.SignatureTyped id params ↔ τ.Has id (.procedure ts .none) := by
  constructor
  · rintro ⟨us, hus, hid⟩
    exact hid.congr (hus.agrees h)
  · exact fun hid => ⟨ts, h, hid⟩

end Typing

end PlusCalTyping
