import SpiderFrame.Base.Json

/-!
# JSON texts as trees

A tree of strings, arrays and objects, the text of a tree for a way to write the bytes of a string
(`Quoting`), and a decoder for texts with white space between their parts. Decoding the text of a
tree gives the tree back (`decode_text`). Numbers and literals are left out. A string is its bytes:
`\u` stands for the UTF-8 of one code unit, and other bytes stand for themselves.
-/

namespace SpiderFrame.Base.Json

/-! ## Characters -/

def hexValue (b : BitVec 8) : Option Nat :=
  if digit b then some (b.toNat - 48)
  else if 65#8 ≤ b && b ≤ 70#8 then some (b.toNat - 55)
  else if 97#8 ≤ b && b ≤ 102#8 then some (b.toNat - 87)
  else none

/-- The UTF-8 of a code unit. -/
def utf8 (n : Nat) : Bytes :=
  if n < 128 then [BitVec.ofNat 8 n]
  else if n < 2048 then [BitVec.ofNat 8 (192 + n / 64), BitVec.ofNat 8 (128 + n % 64)]
  else [BitVec.ofNat 8 (224 + n / 4096), BitVec.ofNat 8 (128 + n / 64 % 64),
    BitVec.ofNat 8 (128 + n % 64)]

/-- What a letter behind `\` stands for. -/
def letter (b : BitVec 8) : Option Bytes :=
  if b = 34#8 ∨ b = 92#8 ∨ b = 47#8 then some [b]
  else if b = 98#8 then some [8#8]
  else if b = 102#8 then some [12#8]
  else if b = 110#8 then some [10#8]
  else if b = 114#8 then some [13#8]
  else if b = 116#8 then some [9#8]
  else none

/-- The bytes that one character of a string stands for. -/
def meaning : Bytes → Option Bytes
  | [b] => if character [b] then some [b] else none
  | [92#8, b] => letter b
  | [92#8, 117#8, a, b, c, d] => do
    let a ← hexValue a
    let b ← hexValue b
    let c ← hexValue c
    let d ← hexValue d
    some (utf8 (4096 * a + 256 * b + 16 * c + d))
  | _ => none

/-- Bytes in front of those that were read. -/
def before (bs : Bytes) : Option (Bytes × Bytes) → Option (Bytes × Bytes) :=
  Option.map fun r => (bs ++ r.1, r.2)

/-- A string behind its first quotation mark, and what follows the second. -/
def chars : Bytes → Option (Bytes × Bytes)
  | [] => none
  | 34#8 :: rest => some ([], rest)
  | 92#8 :: 117#8 :: a :: b :: c :: d :: rest =>
    (meaning [92#8, 117#8, a, b, c, d]).bind fun s => before s (chars rest)
  | 92#8 :: b :: rest => (meaning [92#8, b]).bind fun s => before s (chars rest)
  | b :: rest => (meaning [b]).bind fun s => before s (chars rest)

/-- **A character is read first.** -/
theorem chars_append {x s : Bytes} (h : meaning x = some s) (rest : Bytes) :
    chars (x ++ rest) = before s (chars rest) := by
  have itself := h
  unfold meaning at h
  split at h
  · rename_i b
    have plain : character [b] = true := by
      by_contra other
      rw [if_neg other] at h
      cases h
    simp only [character, Bool.and_eq_true, bne_iff_ne] at plain
    rw [List.singleton_append, chars, itself, Option.bind_some]
    · exact fun quote => plain.1.2 quote
    · exact fun a b c d rest slash => absurd slash plain.2
    · exact fun b rest slash => absurd slash plain.2
  · rename_i b
    rw [List.cons_append, List.singleton_append, chars, itself, Option.bind_some]
    rintro a b c d rest rfl rfl
    cases h
  · rename_i a b c d
    change chars (92#8 :: 117#8 :: a :: b :: c :: d :: rest) = _
    rw [chars, itself, Option.bind_some]
  · cases h

/-- How a printer writes the bytes of a string. -/
structure Quoting where
  escape : BitVec 8 → Bytes
  means : ∀ b, meaning (escape b) = some [b]

/-! ## Trees -/

inductive Tree where
  | str (s : Bytes)
  | arr (items : List Tree)
  | obj (members : List (Bytes × Tree))

section Text

variable (q : Quoting)

/-- A string between its quotation marks. -/
def Quoting.quoted (s : Bytes) : Bytes := 34#8 :: (s.flatMap q.escape ++ [34#8])

mutual

def Tree.text : Tree → Bytes
  | .str s => q.quoted s
  | .arr [] => [91#8, 93#8]
  | .arr (t :: ts) => 91#8 :: (t.text ++ (moreItems ts ++ [93#8]))
  | .obj [] => [123#8, 125#8]
  | .obj ((k, t) :: ms) => 123#8 :: (q.quoted k ++ 58#8 :: (t.text ++ (moreMembers ms ++ [125#8])))

/-- The items of an array behind the first. -/
def moreItems : List Tree → Bytes
  | [] => []
  | t :: ts => 44#8 :: (t.text ++ moreItems ts)

/-- The members of an object behind the first. -/
def moreMembers : List (Bytes × Tree) → Bytes
  | [] => []
  | (k, t) :: ms => 44#8 :: (q.quoted k ++ 58#8 :: (t.text ++ moreMembers ms))

end

end Text

/-! ## The decoder -/

def isBlank (b : BitVec 8) : Bool := b == 32#8 || b == 9#8 || b == 10#8 || b == 13#8

def skipBlank (bs : Bytes) : Bytes := bs.dropWhile isBlank

/-- A name and the colon behind it. -/
def name (bs : Bytes) : Option (Bytes × Bytes) :=
  match skipBlank bs with
  | 34#8 :: bs => do
    let (k, bs) ← chars bs
    match skipBlank bs with
    | 58#8 :: rest => some (k, rest)
    | _ => none
  | _ => none

mutual

/-- A value, and what follows it. -/
def value : Nat → Bytes → Option (Tree × Bytes)
  | 0, _ => none
  | n + 1, bs =>
    match skipBlank bs with
    | 34#8 :: bs => (chars bs).map fun r => (.str r.1, r.2)
    | 91#8 :: bs =>
      match skipBlank bs with
      | 93#8 :: rest => some (.arr [], rest)
      | bs => (itemsOf n bs).map fun r => (.arr r.1, r.2)
    | 123#8 :: bs =>
      match skipBlank bs with
      | 125#8 :: rest => some (.obj [], rest)
      | bs => (membersOf n bs).map fun r => (.obj r.1, r.2)
    | _ => none

/-- The items of an array up to its bracket, one at least. -/
def itemsOf : Nat → Bytes → Option (List Tree × Bytes)
  | 0, _ => none
  | n + 1, bs => do
    let (t, bs) ← value n bs
    match skipBlank bs with
    | 44#8 :: bs => (itemsOf n bs).map fun r => (t :: r.1, r.2)
    | 93#8 :: rest => some ([t], rest)
    | _ => none

/-- The members of an object up to its brace, one at least. -/
def membersOf : Nat → Bytes → Option (List (Bytes × Tree) × Bytes)
  | 0, _ => none
  | n + 1, bs => do
    let (k, bs) ← name bs
    let (t, bs) ← value n bs
    match skipBlank bs with
    | 44#8 :: bs => (membersOf n bs).map fun r => ((k, t) :: r.1, r.2)
    | 125#8 :: rest => some ([(k, t)], rest)
    | _ => none

end

/-- The tree of a whole text. Each step into a value or behind a comma takes a byte. -/
def decode (bs : Bytes) : Option Tree :=
  match value (2 * bs.length + 1) bs with
  | some (t, rest) => if skipBlank rest = [] then some t else none
  | none => none

/-! ## Decoding a text -/

section

variable (q : Quoting)

/-- A string is read up to its second quotation mark. -/
theorem chars_flatMap (s rest : Bytes) :
    chars (s.flatMap q.escape ++ 34#8 :: rest) = some (s, rest) := by
  induction s with
  | nil => rfl
  | cons b s ih =>
    rw [List.flatMap_cons, List.append_assoc, chars_append (q.means b), ih]
    rfl

theorem quoted_append (s rest : Bytes) :
    q.quoted s ++ rest = 34#8 :: (s.flatMap q.escape ++ 34#8 :: rest) := by
  simp [Quoting.quoted]

theorem skipBlank_stop {b : BitVec 8} (stop : isBlank b = false) (bs : Bytes) :
    skipBlank (b :: bs) = b :: bs :=
  List.dropWhile_cons_of_neg (by rw [stop]; exact Bool.false_ne_true)

/-- The text of a tree begins with a quotation mark or with a bracket. -/
theorem text_opens (t : Tree) : ∃ b bs, t.text q = b :: bs ∧ (b = 34#8 ∨ b = 91#8 ∨ b = 123#8) := by
  cases t with
  | str s => exact ⟨_, _, rfl, .inl rfl⟩
  | arr ts => cases ts <;> exact ⟨_, _, by rw [Tree.text], .inr (.inl rfl)⟩
  | obj ms =>
    cases ms with
    | nil => exact ⟨_, _, by rw [Tree.text], .inr (.inr rfl)⟩
    | cons m ms => exact ⟨_, _, by rw [Tree.text], .inr (.inr rfl)⟩

theorem skipBlank_text (t : Tree) (rest : Bytes) :
    skipBlank (t.text q ++ rest) = t.text q ++ rest := by
  obtain ⟨b, bs, text, rfl | rfl | rfl⟩ := text_opens q t
  all_goals
    rw [text]
    exact skipBlank_stop (by decide) _

theorem name_quoted (k rest : Bytes) : name (q.quoted k ++ 58#8 :: rest) = some (k, rest) := by
  simp only [name, quoted_append, skipBlank_stop (show isBlank 34#8 = false by decide),
    chars_flatMap]
  rfl

/-- The text of the tree is read, whatever follows. -/
def Reads (t : Tree) : Prop :=
  ∀ n rest, 2 * (t.text q).length ≤ n → value n (t.text q ++ rest) = some (t, rest)

mutual

theorem reads : ∀ t : Tree, Reads q t
  | .str s => by
    intro n rest enough
    cases n with
    | zero => simp [Tree.text, Quoting.quoted] at enough
    | succ n =>
      simp only [Tree.text, quoted_append, value,
        skipBlank_stop (show isBlank 34#8 = false by decide), chars_flatMap, Option.map_some]
  | .arr [] => by
    intro n rest enough
    cases n with
    | zero => simp [Tree.text] at enough
    | succ n => rw [Tree.text]; rfl
  | .arr (t :: ts) => by
    intro n rest enough
    simp only [Tree.text, List.length_cons, List.length_append, List.length_nil] at enough
    cases n with
    | zero => omega
    | succ n =>
      have items := itemsOf_text ts (reads t) (n := n) rest (by omega)
      simp only [Tree.text, List.cons_append, List.append_assoc, List.nil_append, value,
        skipBlank_stop (show isBlank 91#8 = false by decide), skipBlank_text]
      split
      · rename_i closed
        obtain ⟨b, bs, text, rfl | rfl | rfl⟩ := text_opens q t
        all_goals
          rw [text] at closed
          cases closed
      · rw [items]
        rfl
  | .obj [] => by
    intro n rest enough
    cases n with
    | zero => simp [Tree.text] at enough
    | succ n => rw [Tree.text]; rfl
  | .obj ((k, t) :: ms) => by
    intro n rest enough
    simp only [Tree.text, List.length_cons, List.length_append, List.length_nil] at enough
    cases n with
    | zero => omega
    | succ n =>
      have members := membersOf_text ms k (reads t) (n := n) rest (by omega)
      rw [quoted_append] at members
      simp only [Tree.text, List.cons_append, List.append_assoc, List.nil_append, value,
        skipBlank_stop (show isBlank 123#8 = false by decide),
        skipBlank_stop (show isBlank 34#8 = false by decide), quoted_append]
      split
      · rename_i closed
        cases closed
      · rw [members]
        rfl

theorem itemsOf_text : ∀ (ts : List Tree) {t : Tree} (_ : Reads q t) {n : Nat} (rest : Bytes),
    2 * ((t.text q).length + (moreItems q ts).length) + 1 ≤ n →
    itemsOf n (t.text q ++ (moreItems q ts ++ 93#8 :: rest)) = some (t :: ts, rest)
  | [], t, first, n, rest, enough => by
    cases n with
    | zero => omega
    | succ n =>
      rw [itemsOf, first n _ (by omega)]
      rfl
  | t' :: ts, t, first, n, rest, enough => by
    simp only [moreItems, List.length_cons, List.length_append] at enough
    cases n with
    | zero => omega
    | succ n =>
      have more := itemsOf_text ts (reads t') (n := n) rest (by omega)
      rw [itemsOf, first n _ (by omega)]
      simp only [moreItems, List.cons_append, List.append_assoc, Option.bind_eq_bind,
        Option.bind_some, skipBlank_stop (show isBlank 44#8 = false by decide), more]
      rfl

theorem membersOf_text : ∀ (ms : List (Bytes × Tree)) (k : Bytes) {t : Tree} (_ : Reads q t)
    {n : Nat} (rest : Bytes), 2 * ((t.text q).length + (moreMembers q ms).length) + 1 ≤ n →
    membersOf n (q.quoted k ++ 58#8 :: (t.text q ++ (moreMembers q ms ++ 125#8 :: rest))) =
      some ((k, t) :: ms, rest)
  | [], k, t, first, n, rest, enough => by
    cases n with
    | zero => omega
    | succ n =>
      rw [membersOf, name_quoted]
      simp only [Option.bind_eq_bind, Option.bind_some, first n _ (by omega : 2 * _ ≤ n)]
      rfl
  | (k', t') :: ms, k, t, first, n, rest, enough => by
    simp only [moreMembers, List.length_cons, List.length_append] at enough
    cases n with
    | zero => omega
    | succ n =>
      have more := membersOf_text ms k' (reads t') (n := n) rest (by omega)
      rw [membersOf, name_quoted]
      simp only [Option.bind_eq_bind, Option.bind_some, first n _ (by omega : 2 * _ ≤ n),
        moreMembers, List.cons_append, List.append_assoc,
        skipBlank_stop (show isBlank 44#8 = false by decide), more]
      rfl

end

/-- **Decoding the text of a tree gives the tree.** -/
theorem decode_text (t : Tree) : decode (t.text q) = some t := by
  have whole := reads q t (2 * (t.text q).length + 1) [] (by omega)
  rw [List.append_nil] at whole
  simp [decode, whole, skipBlank]

end

end SpiderFrame.Base.Json
