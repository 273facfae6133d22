import Mathlib.Data.List.Basic
import Mathlib.Data.BitVec

/-!
# The grammar of JSON texts

The grammar on bytes: literals, numbers, strings, arrays and objects, with white space where it
is allowed. A byte from `0x80` on may stand in a string; that the bytes of a string are an
encoding of characters is not asked.
-/

namespace SpiderFrame.Base.Json

abbrev Bytes := List (BitVec 8)

/-- Space, tab, line feed or carriage return, any number of them. -/
def Space (bs : Bytes) : Prop := ∀ b ∈ bs, b = 32#8 ∨ b = 9#8 ∨ b = 10#8 ∨ b = 13#8

def digit (b : BitVec 8) : Bool := 48#8 ≤ b && b ≤ 57#8

def hexDigit (b : BitVec 8) : Bool :=
  digit b || (65#8 ≤ b && b ≤ 70#8) || (97#8 ≤ b && b ≤ 102#8)

/-- One character of a string: a byte that stands for itself, a letter after `\`, or `\u` and
four hexadecimal digits. -/
def character : Bytes → Bool
  | [b] => 32#8 ≤ b && b != 34#8 && b != 92#8
  | [92#8, b] => b ∈ [34#8, 92#8, 47#8, 98#8, 102#8, 110#8, 114#8, 116#8]
  | [92#8, 117#8, a, b, c, d] => hexDigit a && hexDigit b && hexDigit c && hexDigit d
  | _ => false

/-- What stands between the quotation marks of a string. -/
def Chars (bs : Bytes) : Prop := ∃ cs : List Bytes, (∀ c ∈ cs, character c = true) ∧ cs.flatten = bs

def Digits (bs : Bytes) : Prop := bs ≠ [] ∧ ∀ b ∈ bs, digit b = true

/-- Sign, integer part, fraction and exponent. -/
structure Number (bs : Bytes) : Prop where
  parts : ∃ sign int frac exp, bs = sign ++ (int ++ (frac ++ exp)) ∧ (sign = [] ∨ sign = [45#8]) ∧
    Digits int ∧ (int.head? = some 48#8 → int = [48#8]) ∧
    (frac = [] ∨ ∃ ds, Digits ds ∧ frac = 46#8 :: ds) ∧
    (exp = [] ∨ ∃ e sign ds, (e = 69#8 ∨ e = 101#8) ∧
      (sign = [] ∨ sign = [43#8] ∨ sign = [45#8]) ∧ Digits ds ∧ exp = e :: (sign ++ ds))

mutual

inductive Value : Bytes → Prop
  | litNull : Value [110#8, 117#8, 108#8, 108#8]
  | litTrue : Value [116#8, 114#8, 117#8, 101#8]
  | litFalse : Value [102#8, 97#8, 108#8, 115#8, 101#8]
  | number {bs} (h : Number bs) : Value bs
  | string {bs} (h : Chars bs) : Value (34#8 :: (bs ++ [34#8]))
  | emptyArray {w} (h : Space w) : Value (91#8 :: (w ++ [93#8]))
  | array {bs} (h : Elements bs) : Value (91#8 :: (bs ++ [93#8]))
  | emptyObject {w} (h : Space w) : Value (123#8 :: (w ++ [125#8]))
  | object {bs} (h : Members bs) : Value (123#8 :: (bs ++ [125#8]))

/-- A value between white space. -/
inductive Element : Bytes → Prop
  | mk {w v w'} (before : Space w) (h : Value v) (after : Space w') : Element (w ++ (v ++ w'))

inductive Elements : Bytes → Prop
  | one {e} (h : Element e) : Elements e
  | more {e es} (h : Element e) (rest : Elements es) : Elements (e ++ 44#8 :: es)

/-- A name, a colon and a value. -/
inductive Member : Bytes → Prop
  | mk {w k w' e} (before : Space w) (name : Chars k) (after : Space w') (h : Element e) :
    Member (w ++ 34#8 :: (k ++ 34#8 :: (w' ++ 58#8 :: e)))

inductive Members : Bytes → Prop
  | one {m} (h : Member m) : Members m
  | more {m ms} (h : Member m) (rest : Members ms) : Members (m ++ 44#8 :: ms)

end

/-- The beginning of a JSON text. -/
def Begins (bs : Bytes) : Prop := ∃ rest, Element (bs ++ rest)

theorem Space.nil : Space [] := fun _ h => by cases h

theorem Value.element {v : Bytes} (h : Value v) : Element v := by
  have padded := Element.mk .nil h .nil
  rwa [List.nil_append, List.append_nil] at padded

/-! ## The first byte of a text -/

/-- The bytes that a value can start with. -/
def opener (b : BitVec 8) : Bool :=
  digit b || b ∈ [45#8, 110#8, 116#8, 102#8, 34#8, 91#8, 123#8]

theorem Number.opens {bs : Bytes} (h : Number bs) : ∃ b rest, bs = b :: rest ∧ opener b = true := by
  obtain ⟨sign, int, frac, exp, rfl, signs, ⟨notNil, digits⟩, -⟩ := h.parts
  obtain rfl | rfl := signs
  · obtain ⟨d, ds, rfl⟩ := List.exists_cons_of_ne_nil notNil
    exact ⟨d, _, rfl, by simp [opener, digits d List.mem_cons_self]⟩
  · exact ⟨45#8, _, rfl, rfl⟩

theorem Value.opens {bs : Bytes} (h : Value bs) : ∃ b rest, bs = b :: rest ∧ opener b = true := by
  cases h with
  | number h => exact h.opens
  | _ => exact ⟨_, _, rfl, rfl⟩

/-- A text does not begin with a byte that is neither white space nor the start of a value. -/
theorem not_begins {b : BitVec 8} {bs : Bytes} (space : ¬ Space [b]) (closed : opener b = false) :
    ¬ Begins (b :: bs) := by
  rintro ⟨rest, text⟩
  generalize whole : b :: bs ++ rest = t at text
  have first : t.head? = some b := by rw [← whole]; rfl
  cases text with
  | @mk w v w' before value after =>
    cases w with
    | nil =>
      obtain ⟨c, cs, rfl, open_⟩ := value.opens
      rw [Option.some_inj.1 first] at open_
      rw [closed] at open_
      cases open_
    | cons c w =>
      have same : c = b := Option.some_inj.1 first
      refine space fun d hd => before d ?_
      rw [List.mem_singleton.1 hd, ← same]
      exact List.mem_cons_self

end SpiderFrame.Base.Json
