import SpiderFrame.Base.JsonTree
import SpiderFrame.Libjson.Parser

/-!
# The texts that the parser takes

The dialect of the parser: a grammar of the texts without comments, with the tree that a text stands for.
It is JSON with an array or an object at the top, but for exponents behind `0`; the bytes of a string are
in the form of UTF-8, and surrogates come in pairs.
-/

namespace SpiderFrame.Libjson
open SpiderFrame.Base.Json (Space digit hexDigit utf8)

abbrev Bytes := List Byte

/-- A value. A number is its text. -/
inductive Tree where
  | litNull
  | litTrue
  | litFalse
  | int (text : Bytes)
  | float (text : Bytes)
  | str (s : Bytes)
  | arr (items : List Tree)
  | obj (members : List (Bytes × Tree))

mutual

/-- What a callback gets for a value. -/
def Tree.events : Tree → List Event
  | .litNull => [⟨.litNull, []⟩]
  | .litTrue => [⟨.litTrue, []⟩]
  | .litFalse => [⟨.litFalse, []⟩]
  | .int text => [⟨.int, text⟩]
  | .float text => [⟨.float, text⟩]
  | .str s => [⟨.string, s⟩]
  | .arr ts => ⟨.arrayBegin, []⟩ :: (itemEvents ts ++ [⟨.arrayEnd, []⟩])
  | .obj ms => ⟨.objectBegin, []⟩ :: (memberEvents ms ++ [⟨.objectEnd, []⟩])

def itemEvents : List Tree → List Event
  | [] => []
  | t :: ts => t.events ++ itemEvents ts

def memberEvents : List (Bytes × Tree) → List Event
  | [] => []
  | (k, t) :: ms => ⟨.key, k⟩ :: (t.events ++ memberEvents ms)

end

/-! ## Numbers -/

def Digits (ds : Bytes) : Prop := ∀ d ∈ ds, digit d = true

/-- A digit that is not 0. -/
def nonzero (d : Byte) : Bool := digit d && d != 48#8

inductive IntPart : Bytes → Prop
  | zero : IntPart [48#8]
  | more {d ds} (first : nonzero d = true) (rest : Digits ds) : IntPart (d :: ds)

/-- A point and digits. -/
def Fraction (bs : Bytes) : Prop := ∃ d ds, Digits (d :: ds) ∧ bs = 46#8 :: d :: ds

/-- `e` or `E`, a sign if there is one, and digits. -/
def Exponent (bs : Bytes) : Prop :=
  ∃ e sign d ds, (e = 101#8 ∨ e = 69#8) ∧ (sign = [] ∨ sign = [43#8] ∨ sign = [45#8]) ∧
    Digits (d :: ds) ∧ bs = e :: (sign ++ d :: ds)

def IntText (bs : Bytes) : Prop :=
  ∃ sign int, (sign = [] ∨ sign = [45#8]) ∧ IntPart int ∧ bs = sign ++ int

/-- A fraction with or without an exponent, or an exponent that is not behind 0. -/
def FloatText (bs : Bytes) : Prop :=
  ∃ sign int rest, (sign = [] ∨ sign = [45#8]) ∧ IntPart int ∧ bs = sign ++ (int ++ rest) ∧
    ((∃ frac exp, Fraction frac ∧ (exp = [] ∨ Exponent exp) ∧ rest = frac ++ exp) ∨
      (int ≠ [48#8] ∧ Exponent rest))

/-! ## Strings -/

/-- A byte that stands for itself. -/
def plain (b : Byte) : Bool := 32#8 ≤ b && b < 128#8 && b != 34#8 && b != 92#8

/-- A letter behind a backslash. -/
def escapes (b : Byte) : Bool := [34#8, 92#8, 47#8, 98#8, 102#8, 110#8, 114#8, 116#8].contains b

/-- The number of four hexadecimal digits. -/
def unit (a b c d : Byte) : Nat := 4096 * hex a + 256 * hex b + 16 * hex c + hex d

def HighSurrogate (n : Nat) : Prop := 0xd800 ≤ n ∧ n < 0xdc00

def LowSurrogate (n : Nat) : Prop := 0xdc00 ≤ n ∧ n < 0xe000

instance (n : Nat) : Decidable (HighSurrogate n) := inferInstanceAs (Decidable (_ ∧ _))

instance (n : Nat) : Decidable (LowSurrogate n) := inferInstanceAs (Decidable (_ ∧ _))

/-- The UTF-8 of a pair of surrogates. -/
def utf8Pair (n m : Nat) : Bytes :=
  let u := 0x10000 + (n - 0xd800) * 1024 + (m - 0xdc00)
  [char (240 + u / 262144), char (128 + u / 4096 % 64), char (128 + u / 64 % 64), char (128 + u % 64)]

/-- A character of several bytes. -/
structure Multibyte (b : Byte) (bs : Bytes) : Prop where
  header : utf8Header b = some bs.length
  some_ : bs ≠ []
  continued : ∀ c ∈ bs, utf8Continuation c = true

def Hex4 (a b c d : Byte) : Prop :=
  hexDigit a = true ∧ hexDigit b = true ∧ hexDigit c = true ∧ hexDigit d = true

/-- What stands between quotation marks, and the bytes that it stands for. -/
inductive Str : Bytes → Bytes → Prop
  | nil : Str [] []
  | plain {b t s} (h : plain b = true) (rest : Str t s) : Str (b :: t) (b :: s)
  | multibyte {b bs t s} (h : Multibyte b bs) (rest : Str t s) :
    Str (b :: (bs ++ t)) (b :: (bs ++ s))
  | escape {e t s} (h : escapes e = true) (rest : Str t s) : Str (92#8 :: e :: t) (escapeChar e :: s)
  | unicode {a b c d t s} (h : Hex4 a b c d) (notHigh : ¬ HighSurrogate (unit a b c d))
    (notLow : ¬ LowSurrogate (unit a b c d)) (rest : Str t s) :
    Str (92#8 :: 117#8 :: a :: b :: c :: d :: t) (utf8 (unit a b c d) ++ s)
  | pair {a b c d a' b' c' d' t s} (h : Hex4 a b c d) (h' : Hex4 a' b' c' d')
    (high : HighSurrogate (unit a b c d)) (low : LowSurrogate (unit a' b' c' d')) (rest : Str t s) :
    Str (92#8 :: 117#8 :: a :: b :: c :: d :: 92#8 :: 117#8 :: a' :: b' :: c' :: d' :: t)
      (utf8Pair (unit a b c d) (unit a' b' c' d') ++ s)

/-! ## Values -/

mutual

inductive Value : Bytes → Tree → Prop
  | litNull : Value [110#8, 117#8, 108#8, 108#8] .litNull
  | litTrue : Value [116#8, 114#8, 117#8, 101#8] .litTrue
  | litFalse : Value [102#8, 97#8, 108#8, 115#8, 101#8] .litFalse
  | int {bs} (h : IntText bs) : Value bs (.int bs)
  | float {bs} (h : FloatText bs) : Value bs (.float bs)
  | str {bs s} (h : Str bs s) : Value (34#8 :: (bs ++ [34#8])) (.str s)
  | emptyArray {w} (h : Space w) : Value (91#8 :: (w ++ [93#8])) (.arr [])
  | array {bs ts} (h : Items bs ts) : Value (91#8 :: (bs ++ [93#8])) (.arr ts)
  | emptyObject {w} (h : Space w) : Value (123#8 :: (w ++ [125#8])) (.obj [])
  | object {bs ms} (h : Members bs ms) : Value (123#8 :: (bs ++ [125#8])) (.obj ms)

inductive Items : Bytes → List Tree → Prop
  | one {w v w' t} (before : Space w) (h : Value v t) (after : Space w') :
    Items (w ++ (v ++ w')) [t]
  | more {w v w' t bs ts} (before : Space w) (h : Value v t) (after : Space w') (rest : Items bs ts) :
    Items (w ++ (v ++ (w' ++ 44#8 :: bs))) (t :: ts)

/-- Names, colons and values. -/
inductive Members : Bytes → List (Bytes × Tree) → Prop
  | one {w k s w' w₁ v w₁' t} (before : Space w) (name : Str k s) (colon : Space w')
    (before' : Space w₁) (h : Value v t) (after : Space w₁') :
    Members (w ++ 34#8 :: (k ++ 34#8 :: (w' ++ 58#8 :: (w₁ ++ (v ++ w₁'))))) [(s, t)]
  | more {w k s w' w₁ v w₁' t bs ms} (before : Space w) (name : Str k s) (colon : Space w')
    (before' : Space w₁) (h : Value v t) (after : Space w₁') (rest : Members bs ms) :
    Members (w ++ 34#8 :: (k ++ 34#8 :: (w' ++ 58#8 :: (w₁ ++ (v ++ (w₁' ++ 44#8 :: bs))))))
      ((s, t) :: ms)

end

/-- An array or an object. -/
def Tree.IsStructure : Tree → Prop
  | .arr _ | .obj _ => True
  | _ => False

/-- A text for the parser, and its tree. -/
def Document (s : Bytes) (t : Tree) : Prop :=
  t.IsStructure ∧ ∃ w v w', Space w ∧ Value v t ∧ Space w' ∧ s = w ++ (v ++ w')

end SpiderFrame.Libjson
