import SpiderFrame.Base.Json
import SpiderFrame.Json.Printer

/-!
# What balanced calls print

`Items` are the sequences of calls that fill an array: every array and every object is ended, and
in an object every value follows a key. An array around them prints a JSON text
(`textOf_array`).
-/

namespace SpiderFrame.Json
open SpiderFrame.Base.Json

mutual

inductive Items : List Op → Prop
  | nil : Items []
  | cons {a b} (h : Item a) (rest : Items b) : Items (a ++ b)

/-- One value that is an array or an object. -/
inductive Item : List Op → Prop
  | array {a} (h : Items a) : Item (.arrayBegin :: (a ++ [.arrayEnd]))
  | object {a} (h : Pairs a) : Item (.objectBegin :: (a ++ [.objectEnd]))

/-- Keys with their values. -/
inductive Pairs : List Op → Prop
  | nil : Pairs []
  | string {a} (k s : List Byte) (rest : Pairs a) : Pairs (.key k :: .string s :: a)
  | item {a b} (k : List Byte) (h : Item a) (rest : Pairs b) : Pairs (.key k :: (a ++ b))

end

theorem Item.items {a : List Op} (h : Item a) : Items a := by
  have one := Items.cons h .nil
  rwa [List.append_nil] at one

theorem Items.append {b : List Op} (hb : Items b) : ∀ {a : List Op}, Items a → Items (a ++ b)
  | _, .nil => hb
  | _, .cons h rest => by
    rw [List.append_assoc]
    exact .cons h (hb.append rest)

theorem Pairs.append {b : List Op} (hb : Pairs b) : ∀ {a : List Op}, Pairs a → Pairs (a ++ b)
  | _, .nil => hb
  | _, .string k s rest => .string k s (hb.append rest)
  | _, .item k h rest => by
    rw [List.cons_append, List.append_assoc]
    exact .item k h (hb.append rest)

/-! ## Strings -/

theorem character_printByte : ∀ c : Byte, character (printByte c) = true := by decide +kernel

theorem chars_printString (data : List Byte) :
    ∃ k, (printString data).flatten = 34#8 :: (k ++ [34#8]) ∧ Chars k := by
  refine ⟨(data.map printByte).flatten, by simp [printString], data.map printByte, ?_, rfl⟩
  intro c hc
  obtain ⟨b, -, rfl⟩ := List.mem_map.1 hc
  exact character_printByte b

/-! ## The text of a sequence of calls -/

/-- A comma, unless the printer is at the start or behind a key. -/
def sep (p : Printer) : List Byte := (comma p).flatten

/-- After a value the next one needs a comma. -/
abbrev after : Printer := ⟨false, false⟩

theorem sep_after : sep after = [44#8] := rfl

/-- The calls print one value. -/
def PrintsValue (a : List Op) : Prop :=
  ∀ p, ∃ v, textOf p a = sep p ++ v ∧ Value v ∧ (printAll p a).2 = after

/-- The calls print nothing, or elements with commas between them. -/
def PrintsElements (a : List Op) : Prop :=
  (∀ p, textOf p a = [] ∧ (printAll p a).2 = p) ∨
    ∀ p, ∃ es, textOf p a = sep p ++ es ∧ Elements es ∧ (printAll p a).2 = after

def PrintsMembers (a : List Op) : Prop :=
  (∀ p, textOf p a = [] ∧ (printAll p a).2 = p) ∨
    ∀ p, ∃ ms, textOf p a = sep p ++ ms ∧ Members ms ∧ (printAll p a).2 = after

theorem textOf_cons (p : Printer) (op : Op) (ops : List Op) :
    textOf p (op :: ops) = (printRaw p op).1.flatten ++ textOf (printRaw p op).2 ops := by
  simp [textOf, printAll]

theorem PrintsElements.array {a : List Op} (h : PrintsElements a) :
    PrintsValue (.arrayBegin :: (a ++ [.arrayEnd])) := by
  intro p
  obtain none_ | some_ := h
  · obtain ⟨text, ends⟩ := none_ ⟨true, false⟩
    refine ⟨[91#8, 93#8], ?_, .emptyArray .nil, ?_⟩
    · rw [textOf_cons, textOf_append]
      simp only [printRaw, text, ends]
      simp [sep, textOf, printAll, printRaw]
    · simp [printAll, printAll_append, printRaw]
  · obtain ⟨es, text, elements, ends⟩ := some_ ⟨true, false⟩
    refine ⟨91#8 :: (es ++ [93#8]), ?_, .array elements, ?_⟩
    · rw [textOf_cons, textOf_append]
      simp only [printRaw, text, ends]
      simp [sep, comma, textOf, printAll, printRaw]
    · simp [printAll, printAll_append, printRaw]

theorem PrintsMembers.object {a : List Op} (h : PrintsMembers a) :
    PrintsValue (.objectBegin :: (a ++ [.objectEnd])) := by
  intro p
  obtain none_ | some_ := h
  · obtain ⟨text, ends⟩ := none_ ⟨true, false⟩
    refine ⟨[123#8, 125#8], ?_, .emptyObject .nil, ?_⟩
    · rw [textOf_cons, textOf_append]
      simp only [printRaw, text, ends]
      simp [sep, textOf, printAll, printRaw]
    · simp [printAll, printAll_append, printRaw]
  · obtain ⟨ms, text, members, ends⟩ := some_ ⟨true, false⟩
    refine ⟨123#8 :: (ms ++ [125#8]), ?_, .object members, ?_⟩
    · rw [textOf_cons, textOf_append]
      simp only [printRaw, text, ends]
      simp [sep, comma, textOf, printAll, printRaw]
    · simp [printAll, printAll_append, printRaw]

theorem PrintsValue.cons {a b : List Op} (ha : PrintsValue a) (hb : PrintsElements b) :
    PrintsElements (a ++ b) := by
  refine .inr fun p => ?_
  obtain ⟨v, text, value, ends⟩ := ha p
  obtain none_ | some_ := hb
  · obtain ⟨text', ends'⟩ := none_ after
    refine ⟨v, ?_, .one value.element, ?_⟩
    · rw [textOf_append, text, ends, text', List.append_nil]
    · rw [printAll_append, ends]
      exact ends'
  · obtain ⟨es, text', elements, ends'⟩ := some_ after
    refine ⟨v ++ 44#8 :: es, ?_, .more value.element elements, ?_⟩
    · rw [textOf_append, text, ends, text', sep_after]
      simp
    · rw [printAll_append, ends]
      exact ends'

theorem printsValue_string (s : List Byte) : PrintsValue [.string s] := by
  intro p
  obtain ⟨k, text, chars⟩ := chars_printString s
  refine ⟨34#8 :: (k ++ [34#8]), ?_, .string chars, rfl⟩
  rw [textOf_cons]
  simp [printRaw, sep, text, textOf, printAll]

/-- A key, its value and more members. -/
theorem PrintsMembers.cons {a b : List Op} (k : List Byte) (ha : PrintsValue a)
    (hb : PrintsMembers b) : PrintsMembers (.key k :: (a ++ b)) := by
  refine .inr fun p => ?_
  obtain ⟨name, keyText, chars⟩ := chars_printString k
  obtain ⟨v, text, value, ends⟩ := ha ⟨false, true⟩
  have member : Member (34#8 :: (name ++ 34#8 :: 58#8 :: v)) := by
    have plain := Member.mk .nil chars .nil value.element
    simpa using plain
  have shape : textOf p (.key k :: (a ++ b)) =
      sep p ++ ((34#8 :: (name ++ 34#8 :: 58#8 :: v)) ++ textOf after b) := by
    rw [textOf_cons, textOf_append]
    simp [printRaw, sep, comma, text, ends, keyText]
  have last : (printAll p (.key k :: (a ++ b))).2 = (printAll after b).2 := by
    simp only [printAll, printAll_append, printRaw, ends]
  obtain none_ | some_ := hb
  · obtain ⟨text', ends'⟩ := none_ after
    refine ⟨_, shape, ?_, last.trans ends'⟩
    rw [text', List.append_nil]
    exact .one member
  · obtain ⟨ms, text', members, ends'⟩ := some_ after
    refine ⟨_, shape, ?_, last.trans ends'⟩
    rw [text', sep_after]
    exact .more member members

mutual

theorem Items.prints : ∀ {a : List Op}, Items a → PrintsElements a
  | _, .nil => .inl fun _ => ⟨rfl, rfl⟩
  | _, .cons h rest => h.prints.cons rest.prints

theorem Item.prints : ∀ {a : List Op}, Item a → PrintsValue a
  | _, .array h => h.prints.array
  | _, .object h => h.prints.object

theorem Pairs.prints : ∀ {a : List Op}, Pairs a → PrintsMembers a
  | _, .nil => .inl fun _ => ⟨rfl, rfl⟩
  | _, .string k s rest => PrintsMembers.cons k (printsValue_string s) rest.prints
  | _, .item k h rest => PrintsMembers.cons k h.prints rest.prints

end

/-- An array of items, from the printer's start. -/
def ArrayText (bs : List Byte) : Prop :=
  ∃ bs', bs = 91#8 :: (bs' ++ [93#8]) ∧ Value bs

/-- **Balanced calls print a JSON array.** -/
theorem textOf_array {a : List Op} (h : Items a) :
    ArrayText (textOf printInit (.arrayBegin :: (a ++ [.arrayEnd]))) := by
  obtain ⟨v, text, value, -⟩ := (Item.array h).prints printInit
  have whole : textOf printInit (.arrayBegin :: (a ++ [.arrayEnd])) = v := by
    rw [text]
    rfl
  refine ⟨textOf ⟨true, false⟩ a, ?_, whole ▸ value⟩
  rw [textOf_cons, textOf_append]
  simp [printRaw, comma, printInit, textOf, printAll]

end SpiderFrame.Json
