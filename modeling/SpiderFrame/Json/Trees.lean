import SpiderFrame.Base.JsonTree
import SpiderFrame.Json.Items

/-!
# Printing a tree

The calls of the printer for a tree print its text, with the strings as `print_string` writes them
(`prints`). So the text of an array that is not ended decodes to the trees printed so far, once its
bracket is put behind it (`decode_open`).
-/

namespace SpiderFrame.Json
open SpiderFrame.Base.Json

theorem meaning_printByte : ∀ c : Byte, meaning (printByte c) = some [c] := by decide +kernel

/-- The strings of `print_string`. -/
def libjson : Quoting := ⟨printByte, meaning_printByte⟩

mutual

def callsOf : Tree → List Op
  | .str s => [.string s]
  | .arr ts => .arrayBegin :: (callsOfItems ts ++ [.arrayEnd])
  | .obj ms => .objectBegin :: (callsOfMembers ms ++ [.objectEnd])

def callsOfItems : List Tree → List Op
  | [] => []
  | t :: ts => callsOf t ++ callsOfItems ts

def callsOfMembers : List (Bytes × Tree) → List Op
  | [] => []
  | (k, t) :: ms => .key k :: (callsOf t ++ callsOfMembers ms)

end

theorem callsOfItems_append (ts ts' : List Tree) :
    callsOfItems (ts ++ ts') = callsOfItems ts ++ callsOfItems ts' := by
  induction ts with
  | nil => simp [callsOfItems]
  | cons t ts ih => simp [callsOfItems, ih]

theorem printString_quoted (s : List Byte) : (printString s).flatten = libjson.quoted s := by
  simp [printString, Quoting.quoted, libjson, List.flatMap]

/-- The calls print this text after a comma, if there is one, and a value was printed then. -/
def Prints (ops : List Op) (text : Bytes) : Prop :=
  ∀ p, textOf p ops = sep p ++ text ∧ (printAll p ops).2 = after

/-- Behind a value the calls print this text. -/
def PrintsMore (ops : List Op) (text : Bytes) : Prop :=
  textOf after ops = text ∧ (printAll after ops).2 = after

theorem Prints.more {ops ops' : List Op} {text text' : Bytes} (h : Prints ops text)
    (h' : PrintsMore ops' text') : PrintsMore (ops ++ ops') (44#8 :: (text ++ text')) := by
  constructor
  · rw [textOf_append, (h after).1, (h after).2, h'.1, sep_after]
    simp
  · rw [printAll_append, (h after).2]
    exact h'.2

/-- A key and its value. -/
theorem Prints.key {ops : List Op} {text : Bytes} (k : List Byte) (h : Prints ops text) :
    Prints (.key k :: ops) (libjson.quoted k ++ 58#8 :: text) := by
  intro p
  have value := h ⟨false, true⟩
  constructor
  · rw [textOf_cons]
    simp [printRaw, value.1, sep, comma, printString_quoted]
  · exact value.2

/-- Brackets around values with commas between them. -/
theorem Prints.brackets (open_ close : Op) {ops ops' : List Op} {text text' : Bytes} {b b' : Byte}
    (opens : ∀ p, printRaw p open_ = (comma p ++ [[b]], ⟨true, false⟩))
    (closes : ∀ p, printRaw p close = ([[b']], after)) (h : Prints ops text)
    (h' : PrintsMore ops' text') :
    Prints (open_ :: (ops ++ ops' ++ [close])) (b :: (text ++ (text' ++ [b']))) := by
  intro p
  have first := h ⟨true, false⟩
  constructor
  · rw [textOf_cons, opens, textOf_append, textOf_append, printAll_append, first.1, first.2, h'.1,
      h'.2]
    simp [sep, comma, textOf, printAll, closes]
  · simp [printAll, printAll_append, closes]

theorem Prints.empty {open_ close : Op} {b b' : Byte}
    (opens : ∀ p, printRaw p open_ = (comma p ++ [[b]], ⟨true, false⟩))
    (closes : ∀ p, printRaw p close = ([[b']], after)) : Prints [open_, close] [b, b'] := by
  intro p
  constructor
  · simp [textOf, printAll, opens, closes, sep]
  · simp [printAll, closes]

mutual

/-- **The calls of a tree print its text.** -/
theorem prints : ∀ t : Tree, Prints (callsOf t) (t.text libjson)
  | .str s => by
    intro p
    rw [callsOf, textOf_cons, Tree.text]
    simp [printRaw, sep, printString_quoted, textOf, printAll]
  | .arr [] => .empty (fun _ => rfl) fun _ => rfl
  | .arr (t :: ts) => .brackets .arrayBegin .arrayEnd (fun _ => rfl) (fun _ => rfl) (prints t) (printsMore ts)
  | .obj [] => .empty (fun _ => rfl) fun _ => rfl
  | .obj ((k, t) :: ms) => by
    have members := Prints.brackets .objectBegin .objectEnd (fun _ => rfl) (fun _ => rfl)
      (.key k (prints t)) (printsMoreMembers ms)
    rw [Tree.text]
    simpa [callsOf, callsOfMembers] using members

theorem printsMore : ∀ ts : List Tree, PrintsMore (callsOfItems ts) (moreItems libjson ts)
  | [] => ⟨rfl, rfl⟩
  | t :: ts => (prints t).more (printsMore ts)

theorem printsMoreMembers : ∀ ms : List (Bytes × Tree),
    PrintsMore (callsOfMembers ms) (moreMembers libjson ms)
  | [] => ⟨rfl, rfl⟩
  | (k, t) :: ms => by
    have more := (Prints.key k (prints t)).more (printsMoreMembers ms)
    rw [moreMembers]
    simpa [callsOfMembers] using more

end

/-- **An array that is not ended decodes to its trees.** -/
theorem decode_open (ts : List Tree) :
    decode (textOf printInit (.arrayBegin :: callsOfItems ts) ++ [93#8]) = some (.arr ts) := by
  have array := (prints (.arr ts) printInit).1
  rw [callsOf, ← List.cons_append, textOf_append] at array
  have last : ∀ p, textOf p [.arrayEnd] = [93#8] := fun _ => rfl
  rw [last] at array
  rw [array]
  exact decode_text libjson (.arr ts)

end SpiderFrame.Json
