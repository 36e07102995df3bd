/-! # Counting distinct elements

How many different elements a list has. A list whose elements all occur in
another has no more of them, and fewer if the other has one that it lacks.
-/

namespace PlusCalTyping

variable {α : Type} [DecidableEq α]

def distinctCount (l : List α) : Nat := l.eraseDups.length

theorem nodup_eraseDups : (l : List α) → l.eraseDups.Nodup
  | [] => by simp
  | a :: l => by
    rw [List.eraseDups_cons, List.nodup_cons]
    exact ⟨by simp [List.mem_eraseDups], nodup_eraseDups _⟩
termination_by l => l.length
decreasing_by
  exact Nat.lt_succ_of_le (List.length_filter_le _ _)

theorem length_le_of_nodup_of_subset {l m : List α} (hl : l.Nodup) (h : l ⊆ m) :
    l.length ≤ m.length := by
  induction l generalizing m with
  | nil => exact Nat.zero_le _
  | cons a l ih =>
    obtain ⟨ha, hl⟩ := List.nodup_cons.mp hl
    have ham : a ∈ m := h List.mem_cons_self
    have hsub : l ⊆ m.erase a := fun x hx =>
      (List.mem_erase_of_ne fun (e : x = a) => ha (e ▸ hx)).mpr (h (List.mem_cons_of_mem _ hx))
    have := ih hl hsub
    rw [List.length_erase_of_mem ham] at this
    have hpos := List.length_pos_of_mem ham
    simp only [List.length_cons]
    omega

theorem distinctCount_le {l m : List α} (h : l ⊆ m) : distinctCount l ≤ distinctCount m :=
  length_le_of_nodup_of_subset (nodup_eraseDups l) fun x hx => by
    rw [List.mem_eraseDups] at hx ⊢
    exact h hx

theorem distinctCount_lt {l m : List α} {x : α} (h : l ⊆ m) (hm : x ∈ m) (hl : x ∉ l) :
    distinctCount l < distinctCount m := by
  have hnodup : (x :: l.eraseDups).Nodup :=
    List.nodup_cons.mpr ⟨by rwa [List.mem_eraseDups], nodup_eraseDups l⟩
  refine length_le_of_nodup_of_subset hnodup fun y hy => ?_
  rw [List.mem_eraseDups]
  rcases List.mem_cons.mp hy with rfl | hy
  · exact hm
  · exact h (by rwa [List.mem_eraseDups] at hy)

end PlusCalTyping
