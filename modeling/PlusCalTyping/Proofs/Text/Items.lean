import Mathlib.Data.List.Basic
import Mathlib.Tactic.Common

/-! # Items in a text

When a text can be read in one way only. An item of a written type is followed by
nothing or by a mark, a comma or a closing bracket, and starts with neither. Two
items are told apart (`Told`) if, whatever follows them, the whole texts are equal
only if the items are, and then so is what follows. Told items stay told in a list
with separators and a closing mark (`told_intercalate`), which is what nesting needs.
-/

namespace PlusCalTyping.Text

/-- The characters that end an item. -/
def marks : List Char := [',', ';', ')', ']', '\x7d']

/-- What may follow an item: nothing or a mark. -/
def Stops (x : List Char) : Prop := ∀ c ∈ x.head?, c ∈ marks

/-- The text is not empty and does not start with a mark. -/
def Starts (s : String) : Prop := ∃ c, s.toList.head? = some c ∧ c ∉ marks

/-- The text is made of letters and digits. -/
def IsWord (s : String) : Prop := ∀ c ∈ s.toList, c.isAlphanum

theorem stops_nil : Stops [] := nofun

theorem stops_cons {c : Char} {x : List Char} (hc : c ∈ marks) : Stops (c :: x) := by
  rintro d ⟨⟩
  exact hc

theorem Stops.mem_marks {c : Char} {x : List Char} (h : Stops (c :: x)) : c ∈ marks := h c rfl

theorem Starts.not_mem_marks {s : String} (hs : Starts s) {c : Char} {x y : List Char}
    (h : s.toList ++ x = c :: y) : c ∉ marks := by
  obtain ⟨d, hhead, hd⟩ := hs
  have hdc := congrArg List.head? h
  rw [List.head?_append, hhead] at hdc
  exact Option.some.inj hdc ▸ hd

theorem not_isAlphanum_of_mem_marks {c : Char} (hc : c ∈ marks) : ¬c.isAlphanum := by
  simp only [marks, List.mem_cons, List.not_mem_nil, or_false] at hc
  rcases hc with rfl | rfl | rfl | rfl | rfl <;> decide

theorem isAlphanum_of_mem_toDigits {n : Nat} {c : Char} (hc : c ∈ Nat.toDigits 10 n) :
    c.isAlphanum := by
  rw [Char.isAlphanum, Nat.isDigit_of_mem_toDigits (by decide) (by decide) hc, Bool.or_true]

/-- Words are read up to the first character that is not of a word. -/
theorem word_append_inj {s t : String} (hs : IsWord s) (ht : IsWord t) {x y : List Char}
    (hx : ∀ c ∈ x.head?, ¬c.isAlphanum) (hy : ∀ c ∈ y.head?, ¬c.isAlphanum)
    (h : s.toList ++ x = t.toList ++ y) : s = t ∧ x = y := by
  have htake {z : List Char} (hz : ∀ c ∈ z.head?, ¬c.isAlphanum) :
      z.takeWhile Char.isAlphanum = [] := by
    cases z with
    | nil => rfl
    | cons c z => exact List.takeWhile_cons_of_neg (hz c rfl)
  have hword : s.toList = t.toList := by
    have := congrArg (List.takeWhile Char.isAlphanum) h
    rwa [List.takeWhile_append_of_pos hs, List.takeWhile_append_of_pos ht, htake hx, htake hy,
      List.append_nil, List.append_nil] at this
  refine ⟨String.toList_inj.mp hword, ?_⟩
  rw [hword] at h
  exact List.append_cancel_left h

section Items

variable {α β : Type} {write : α → String} {value : α → β}

/-- Whatever follows, the texts of `a` and `b` are equal only if both have the
same value, and then the same follows. -/
def Told (write : α → String) (value : α → β) (a b : α) : Prop :=
  ∀ ⦃x y : List Char⦄, Stops x → Stops y → (write a).toList ++ x = (write b).toList ++ y →
    value a = value b ∧ x = y

theorem Told.symm {a b : α} (hab : Told write value a b) : Told write value b a := by
  intro x y hx hy h
  obtain ⟨hvalue, hxy⟩ := hab hy hx h.symm
  exact ⟨hvalue.symm, hxy.symm⟩

/-- Items that are told apart have different texts. -/
theorem Told.value_eq {a b : α} (hab : Told write value a b) (h : write a = write b) :
    value a = value b :=
  (hab stops_nil stops_nil (congrArg (·.toList ++ []) h)).1

theorem told_of_isWord {a b : α} (ha : IsWord (write a)) (hb : IsWord (write b))
    (h : write a = write b → value a = value b) : Told write value a b := by
  intro x y hx hy heq
  have hstops {z : List Char} (hz : Stops z) : ∀ c ∈ z.head?, ¬c.isAlphanum :=
    fun c hc => not_isAlphanum_of_mem_marks (hz c hc)
  obtain ⟨htext, hxy⟩ := word_append_inj ha hb (hstops hx) (hstops hy) heq
  exact ⟨h htext, hxy⟩

variable {sep : String} {mark close : Char} {rest : List Char}

/-- After its first item a list goes on with a separator before each of the others. -/
theorem toList_intercalate_cons (a : α) (as : List α) :
    (sep.intercalate ((a :: as).map write)).toList =
      (write a).toList ++ as.flatMap fun b => sep.toList ++ (write b).toList := by
  induction as generalizing a with
  | nil => simp
  | cons b as ih =>
    have := ih b
    simp only [List.map_cons] at this
    simp [String.intercalate_cons_cons, this]

variable (hsep : sep.toList = mark :: rest) (hmark : mark ∈ marks) (hclose : close ∈ marks)

include hsep hmark hclose in
theorem stops_flatMap (as : List α) (x : List Char) :
    Stops ((as.flatMap fun a => sep.toList ++ (write a).toList) ++ close :: x) := by
  cases as with
  | nil => exact stops_cons hclose
  | cons a as =>
    rw [List.flatMap_cons, hsep]
    exact stops_cons hmark

variable (hne : mark ≠ close)

include hsep hmark hclose hne in
theorem told_flatMap {as bs : List α} (told : ∀ a ∈ as, ∀ b ∈ bs, Told write value a b)
    {x y : List Char}
    (h : (as.flatMap fun a => sep.toList ++ (write a).toList) ++ close :: x =
      (bs.flatMap fun b => sep.toList ++ (write b).toList) ++ close :: y) :
    as.map value = bs.map value ∧ x = y := by
  induction as generalizing bs with
  | nil =>
    cases bs with
    | nil => exact ⟨rfl, (List.cons.inj h).2⟩
    | cons b bs =>
      rw [List.flatMap_cons, hsep] at h
      exact absurd (List.cons.inj h).1.symm hne
  | cons a as ih =>
    cases bs with
    | nil =>
      rw [List.flatMap_cons, hsep] at h
      exact absurd (List.cons.inj h).1 hne
    | cons b bs =>
      simp only [List.flatMap_cons, List.append_assoc] at h
      obtain ⟨hab, hrest⟩ := told a List.mem_cons_self b List.mem_cons_self
        (stops_flatMap hsep hmark hclose as x) (stops_flatMap hsep hmark hclose bs y)
        (List.append_cancel_left h)
      obtain ⟨hvalues, hxy⟩ := ih (fun a ha b hb =>
        told a (List.mem_cons_of_mem _ ha) b (List.mem_cons_of_mem _ hb)) hrest
      exact ⟨congrArg₂ List.cons hab hvalues, hxy⟩

include hsep hmark hclose hne in
/-- A list that is written with separators and closed by a mark can be read in one
way only, if that is so of its items. -/
theorem told_intercalate {as bs : List α} (has : ∀ a ∈ as, Starts (write a))
    (hbs : ∀ b ∈ bs, Starts (write b)) (told : ∀ a ∈ as, ∀ b ∈ bs, Told write value a b)
    {x y : List Char}
    (h : (sep.intercalate (as.map write)).toList ++ close :: x =
      (sep.intercalate (bs.map write)).toList ++ close :: y) :
    as.map value = bs.map value ∧ x = y := by
  -- An empty list is told from others by the mark that no item starts with.
  cases as with
  | nil =>
    cases bs with
    | nil => exact ⟨rfl, (List.cons.inj h).2⟩
    | cons b bs =>
      rw [toList_intercalate_cons, List.append_assoc] at h
      exact absurd hclose ((hbs b List.mem_cons_self).not_mem_marks h.symm)
  | cons a as =>
    cases bs with
    | nil =>
      rw [toList_intercalate_cons, List.append_assoc] at h
      exact absurd hclose ((has a List.mem_cons_self).not_mem_marks h)
    | cons b bs =>
      rw [toList_intercalate_cons, toList_intercalate_cons, List.append_assoc,
        List.append_assoc] at h
      obtain ⟨hab, hrest⟩ := told a List.mem_cons_self b List.mem_cons_self
        (stops_flatMap hsep hmark hclose as x) (stops_flatMap hsep hmark hclose bs y) h
      obtain ⟨hvalues, hxy⟩ := told_flatMap hsep hmark hclose hne (fun a ha b hb =>
        told a (List.mem_cons_of_mem _ ha) b (List.mem_cons_of_mem _ hb)) hrest
      exact ⟨congrArg₂ List.cons hab hvalues, hxy⟩

end Items

end PlusCalTyping.Text
