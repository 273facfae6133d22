import Mathlib.Data.List.TakeWhile

/-!
# Templates with named references

A template is a text in which an opening letter and a marker begin a reference, and a closing
letter ends it: `(#name)`. A scan from left to right cuts it into single letters, references,
and at most one reference that is never closed, which runs to the end. `substitute` puts values in
the places of the references, and is what the pieces of the template give (`substitute_pieces`).
-/

namespace SpiderFrame.Base

/-- `unclosed` keeps the text after the marker. -/
inductive Piece (α : Type*) where
  | letter (a : α)
  | reference (name : List α)
  | unclosed (text : List α)
  deriving DecidableEq

variable {α : Type*} [DecidableEq α]

/-- The pieces of a template, `inside` a reference with the part of its name that was read, or
outside one. -/
def pieces (opening marker closing : α) : Option (List α) → List α → List (Piece α)
  | none, [] => []
  | some name, [] => [.unclosed name]
  | some name, a :: as =>
    if a = closing then .reference name :: pieces opening marker closing none as
    else pieces opening marker closing (some (name ++ [a])) as
  | none, [a] => [.letter a]
  | none, a :: b :: as =>
    if a = opening ∧ b = marker then pieces opening marker closing (some []) as
    else .letter a :: pieces opening marker closing none (b :: as)

/-- The text of a piece in the template. -/
def Piece.text (opening marker closing : α) : Piece α → List α
  | .letter a => [a]
  | .reference name => opening :: marker :: (name ++ [closing])
  | .unclosed text => opening :: marker :: text

/-! ## Substitution -/

section

variable (opening marker closing : α)

/-- The template with each known reference replaced by its value. A reference runs to the first
closing letter; an unknown one is kept, and so is all that follows an unclosed one. -/
def substitute (value : List α → Option (List α)) : List α → List α
  | [] => []
  | [a] => [a]
  | a :: b :: as =>
    if a = opening ∧ b = marker then
      let name := as.takeWhile (· ≠ closing)
      if closing ∈ as then
        (value name).getD (a :: b :: (name ++ [closing])) ++
          substitute value (as.drop (name.length + 1))
      else a :: b :: as
    else a :: substitute value (b :: as)
  termination_by text => text.length

/-- What a piece of the template becomes. -/
def Piece.value (value : List α → Option (List α)) : Piece α → List α
  | .reference name => (value name).getD ((Piece.reference name).text opening marker closing)
  | p => p.text opening marker closing

/-- The name of a reference. -/
def Piece.name? : Piece α → Option (List α)
  | .reference name => some name
  | _ => none

/-- The names of the references of a template, from left to right. -/
def references (text : List α) : List (List α) :=
  (pieces opening marker closing none text).filterMap Piece.name?

variable {opening marker closing}

theorem pieces_letter {a : α} {as : List α} (notOpen : ¬ (a = opening ∧ as.head? = some marker)) :
    pieces opening marker closing none (a :: as) =
      .letter a :: pieces opening marker closing none as := by
  cases as with
  | nil => rw [pieces, pieces]
  | cons b as =>
    rw [pieces, if_neg]
    rintro ⟨rfl, rfl⟩
    exact notOpen ⟨rfl, rfl⟩

/-- Inside a reference the scan goes to the first closing letter. -/
theorem pieces_closed {name : List α} (open_ : closing ∉ name) (seen rest : List α) :
    pieces opening marker closing (some seen) (name ++ closing :: rest) =
      .reference (seen ++ name) :: pieces opening marker closing none rest := by
  induction name generalizing seen with
  | nil => rw [List.nil_append, pieces, if_pos rfl, List.append_nil]
  | cons a name ih =>
    rw [List.mem_cons, not_or] at open_
    rw [List.cons_append, pieces, if_neg (Ne.symm open_.1), ih open_.2, List.append_assoc]
    rfl

theorem pieces_unclosed {text : List α} (open_ : closing ∉ text) (seen : List α) :
    pieces opening marker closing (some seen) text = [.unclosed (seen ++ text)] := by
  induction text generalizing seen with
  | nil => rw [pieces, List.append_nil]
  | cons a text ih =>
    rw [List.mem_cons, not_or] at open_
    rw [pieces, if_neg (Ne.symm open_.1), ih open_.2, List.append_assoc]
    rfl

/-- The part in front of the first closing letter. -/
theorem takeWhile_closed {name : List α} (open_ : closing ∉ name) (rest : List α) :
    (name ++ closing :: rest).takeWhile (· ≠ closing) = name := by
  rw [List.takeWhile_append_of_pos, List.takeWhile_cons_of_neg (by simp), List.append_nil]
  intro a ha
  simpa using ne_of_mem_of_not_mem ha open_

theorem dropWhile_closed {name : List α} (open_ : closing ∉ name) (rest : List α) :
    (name ++ closing :: rest).dropWhile (· ≠ closing) = closing :: rest := by
  rw [List.dropWhile_append_of_pos, List.dropWhile_cons_of_neg (by simp)]
  intro a ha
  simpa using ne_of_mem_of_not_mem ha open_

/-- Nothing is left of what is never closed. -/
theorem dropWhile_open {as : List α} (open_ : closing ∉ as) : as.dropWhile (· ≠ closing) = [] := by
  rw [List.dropWhile_eq_nil_iff]
  intro a ha
  simpa using ne_of_mem_of_not_mem ha open_

/-- What a template is where a scan stands. -/
inductive Begins (opening marker closing : α) : List α → Prop
  | nil : Begins opening marker closing []
  | letter (a : α) (as : List α) (notOpen : ¬ (a = opening ∧ as.head? = some marker)) :
    Begins opening marker closing (a :: as)
  | reference (name rest : List α) (open_ : closing ∉ name) :
    Begins opening marker closing (opening :: marker :: (name ++ closing :: rest))
  | unclosed (text : List α) (open_ : closing ∉ text) :
    Begins opening marker closing (opening :: marker :: text)

theorem begins (opening marker closing : α) (text : List α) :
    Begins opening marker closing text := by
  cases text with
  | nil => exact .nil
  | cons a as =>
    by_cases opens : a = opening ∧ as.head? = some marker
    · obtain ⟨rfl, head⟩ := opens
      obtain ⟨text, rfl⟩ := List.head?_eq_some_iff.1 head
      by_cases closed : closing ∈ text
      · obtain ⟨name, rest, rfl, open_⟩ := List.eq_append_cons_of_mem closed
        exact .reference name rest open_
      · exact .unclosed text closed
    · exact .letter a as opens

theorem pieces_reference {name : List α} (open_ : closing ∉ name) (rest : List α) :
    pieces opening marker closing none (opening :: marker :: (name ++ closing :: rest)) =
      .reference name :: pieces opening marker closing none rest := by
  rw [pieces, if_pos ⟨rfl, rfl⟩, pieces_closed open_, List.nil_append]

theorem pieces_tail {text : List α} (open_ : closing ∉ text) :
    pieces opening marker closing none (opening :: marker :: text) = [.unclosed text] := by
  rw [pieces, if_pos ⟨rfl, rfl⟩, pieces_unclosed open_, List.nil_append]

omit [DecidableEq α] in
theorem marked_open {text : List α} (mark : marker ≠ closing) (open_ : closing ∉ text) :
    closing ∉ marker :: text := by
  rw [List.mem_cons, not_or]
  exact ⟨Ne.symm mark, open_⟩

/-- The pieces cut the template without loss. -/
theorem pieces_text (text : List α) :
    (pieces opening marker closing none text).flatMap (Piece.text opening marker closing) =
      text := by
  induction text using substitute.induct opening marker closing with
  | case1 => rfl
  | case2 a => rfl
  | case3 a b as opens name closed ih =>
    obtain ⟨front, rest, rfl, open_⟩ := List.eq_append_cons_of_mem closed
    have same : name = front := takeWhile_closed open_ rest
    rw [same, List.drop_append, List.drop_of_length_le (Nat.le_succ _)] at ih
    rw [pieces, if_pos opens, pieces_closed open_]
    obtain ⟨rfl, rfl⟩ := opens
    simpa [Piece.text] using ih
  | case4 a b as opens unclosed =>
    rw [pieces, if_pos opens, pieces_unclosed unclosed]
    obtain ⟨rfl, rfl⟩ := opens
    simp [Piece.text]
  | case5 a b as notOpen ih =>
    rw [pieces, if_neg notOpen, List.flatMap_cons, ih]
    rfl

theorem Piece.text_subset {p : Piece α} {text : List α}
    (h : p ∈ pieces opening marker closing none text) : p.text opening marker closing ⊆ text := by
  intro a ha
  have inside := List.mem_flatMap.2 ⟨p, h, ha⟩
  rwa [pieces_text] at inside

/-- **The pieces of a template, one after the other, give the substitution.** -/
theorem substitute_pieces (value : List α → Option (List α)) (text : List α) :
    substitute opening marker closing value text =
      (pieces opening marker closing none text).flatMap
        (Piece.value opening marker closing value) := by
  induction text using substitute.induct opening marker closing with
  | case1 => simp [substitute, pieces]
  | case2 a => simp [substitute, pieces, Piece.value, Piece.text]
  | case3 a b as opens name closed ih =>
    obtain ⟨front, rest, rfl, open_⟩ := List.eq_append_cons_of_mem closed
    have same : name = front := takeWhile_closed open_ rest
    rw [same, List.drop_append, List.drop_of_length_le (Nat.le_succ _)] at ih
    rw [substitute, if_pos opens, pieces, if_pos opens, pieces_closed open_]
    simp only [takeWhile_closed open_, if_pos closed]
    obtain ⟨rfl, rfl⟩ := opens
    simpa [Piece.value, Piece.text] using ih
  | case4 a b as opens unclosed =>
    rw [substitute, if_pos opens, pieces, if_pos opens, pieces_unclosed unclosed]
    obtain ⟨rfl, rfl⟩ := opens
    simp [Piece.value, Piece.text, unclosed]
  | case5 a b as notOpen ih =>
    rw [substitute, if_neg notOpen, pieces, if_neg notOpen, ih]
    rfl

/-- A letter of the result is one of the template or of a value. -/
theorem mem_substitute {value : List α → Option (List α)} {text : List α} {a : α}
    (h : a ∈ substitute opening marker closing value text) :
    a ∈ text ∨ ∃ name v, value name = some v ∧ a ∈ v := by
  rw [substitute_pieces] at h
  obtain ⟨p, hp, ha⟩ := List.mem_flatMap.1 h
  cases p with
  | letter b => exact .inl (Piece.text_subset hp ha)
  | unclosed as => exact .inl (Piece.text_subset hp ha)
  | reference name =>
    cases known : value name with
    | none =>
      simp only [Piece.value, known, Option.getD_none] at ha
      exact .inl (Piece.text_subset hp ha)
    | some v =>
      simp only [Piece.value, known, Option.getD_some] at ha
      exact .inr ⟨name, v, known, ha⟩

end

end SpiderFrame.Base
