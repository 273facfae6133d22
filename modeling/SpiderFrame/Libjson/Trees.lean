import SpiderFrame.Libjson.Lint
import SpiderFrame.Libjson.Dom
import SpiderFrame.Queue.Record

/-!
# Trees in memory (`libjson/jsonlint.c`)

`jsonlint --tree` builds the tree of a file in its memory with the functions that it gives to
`json_parser_dom_init`, and then prints it. Values are told apart by their addresses, which count them. The events
of a tree of at most 1024 levels build this tree, and what is printed for it is its outline.
-/

namespace SpiderFrame.Libjson
open SpiderFrame.Base
open SpiderFrame.Queue (decimal)

/-! ## Values -/

/-- A place of `u.array`, or one of `u.object` with its `struct json_val_elem`. A key that could not be copied
is NULL. -/
inductive Slot
  | val (val : Nat)
  | elem (key : Option Bytes) (keyLength val : Nat)
  deriving DecidableEq

/-- `u` of a `json_val_t`. -/
inductive Content
  | data (data : Bytes)
  | slots (slots : List Slot)
  deriving DecidableEq

/-- `json_val_t`. -/
structure JsonVal where
  type : JsonType
  length : Nat
  u : Content
  deriving DecidableEq

/-- The values, and what `malloc`, `calloc` and `realloc` are going to answer. -/
structure Vals where
  vals : List JsonVal
  answers : List Bool

def Content.places : Content → List Slot
  | .data _ => []
  | .slots all => all

/-- A value with one more place. -/
def JsonVal.push (v : JsonVal) (slot : Slot) : JsonVal :=
  { v with length := v.length + 1, u := .slots (v.u.places ++ [slot]) }

namespace Vals

def alloc (m : Vals) : Bool × Vals := (m.answers.headD true, { m with answers := m.answers.tail })

def new (m : Vals) (v : JsonVal) : Option Nat × Vals := (some m.vals.length, { m with vals := m.vals ++ [v] })

end Vals

/-- `tree_create_structure(nesting, is_object)`. -/
def treeCreateStructure (m : Vals) (_nesting : Nat) (isObject : Bool) : Option Nat × Vals :=
  match m.alloc with
  | (false, m) => (none, m)
  | (true, m) => m.new ⟨if isObject then .objectBegin else .arrayBegin, 0, .slots []⟩

/-- `tree_create_data(type, data, length)`. -/
def treeCreateData (m : Vals) (type : JsonType) (data : Bytes) : Option Nat × Vals :=
  match m.alloc with
  | (false, m) => (none, m)
  | (true, m) =>
    match m.alloc with
    | (false, m) => (none, m)
    | (true, m) => m.new ⟨type, data.length, .data data⟩

/-- `tree_append(structure, key, key_length, obj)`. Whether the key could be copied is not looked at. -/
def treeAppend (m : Vals) (structure_ : Nat) (key : Option Bytes) (obj : Nat) : Int × Vals :=
  match m.vals[structure_]? with
  | none => (0, m)
  | some parent =>
    -- `calloc` for the first place, `realloc` for each other
    match m.alloc with
    | (false, m) => (if parent.length = 0 then 1 else -1, m)
    | (true, m) =>
      match key with
      | none => (0, { m with vals := m.vals.set structure_ (parent.push (.val obj)) })
      | some key =>
        match m.alloc with
        | (false, m) => (-1, m)
        | (true, m) =>
          let (copied, m) := m.alloc
          let elem := .elem (if copied then some key else none) key.length obj
          (0, { m with vals := m.vals.set structure_ (parent.push elem) })

/-- The functions of `do_tree`. -/
def treeBuilder : Builder Vals Nat := ⟨treeCreateStructure, treeCreateData, treeAppend⟩

/-! ## Printing -/

def ascii (s : String) : Bytes := s.toList.map fun c => BitVec.ofNat 8 c.toNat

/-- `"..: %s\n"`. -/
def line (label : String) (data : Bytes) : Bytes :=
  ascii label ++ ((CString.ofBytes data).bytes ++ [10#8])

/-- A place of `u.object`: its key and its value. -/
def printMember (print : Nat → Option Bytes) : Slot → Option Bytes
  | .elem (some key) _ val => (print val).map fun out => line "key: " key ++ out
  | _ => none

/-- A place of `u.array`. -/
def printItem (print : Nat → Option Bytes) : Slot → Option Bytes
  | .val val => print val
  | _ => none

/-- `print_tree_iter(element, output)`, down to so many levels: what it prints. An address without a value, a
place of the other kind or a key that is NULL has no meaning. -/
def printTreeIter (vals : List JsonVal) : Nat → Nat → Option Bytes
  | 0, _ => none
  | fuel + 1, element =>
    match vals[element]? with
    | none => none
    | some v =>
      match v.type, v.u with
      | .objectBegin, .slots slots =>
        ((slots.take v.length).mapM (printMember (printTreeIter vals fuel))).map fun outs =>
          ascii "object begin (" ++ decimal v.length ++ ascii " element)\n" ++
            (outs.flatten ++ ascii "object end\n")
      | .arrayBegin, .slots slots =>
        ((slots.take v.length).mapM (printItem (printTreeIter vals fuel))).map fun outs =>
          ascii "array begin\n" ++ (outs.flatten ++ ascii "array end\n")
      | .litFalse, _ | .litTrue, _ | .litNull, _ => some (ascii "constant\n")
      | .int, .data data => some (line "integer: " data)
      | .string, .data data => some (line "string: " data)
      | .float, .data data => some (line "float: " data)
      | .none, _ | .arrayEnd, _ | .objectEnd, _ | .key, _ | .bstring, _ => some []
      | _, _ => none

/-- `print_tree(element, output)`. Without a root it prints nothing. -/
def printTree (fuel : Nat) (result : Option Nat × Vals) : Option Bytes :=
  match result.1 with
  | none => some []
  | some root => printTreeIter result.2.vals fuel root

/-! ## The outline of a tree -/

mutual

def Tree.outline : Tree → Bytes
  | .litNull | .litTrue | .litFalse => ascii "constant\n"
  | .int text => line "integer: " text
  | .float text => line "float: " text
  | .str s => line "string: " s
  | .arr ts => ascii "array begin\n" ++ (itemsOutline ts ++ ascii "array end\n")
  | .obj ms =>
    ascii "object begin (" ++ decimal ms.length ++ ascii " element)\n" ++
      (membersOutline ms ++ ascii "object end\n")

def itemsOutline : List Tree → Bytes
  | [] => []
  | t :: ts => t.outline ++ itemsOutline ts

def membersOutline : List (Bytes × Tree) → Bytes
  | [] => []
  | (k, t) :: ms => line "key: " k ++ t.outline ++ membersOutline ms

end

mutual

/-- How many arrays and objects lie in each other. -/
def Tree.depth : Tree → Nat
  | .arr ts => itemsDepth ts + 1
  | .obj ms => membersDepth ms + 1
  | _ => 0

def itemsDepth : List Tree → Nat
  | [] => 0
  | t :: ts => max t.depth (itemsDepth ts)

def membersDepth : List (Bytes × Tree) → Nat
  | [] => 0
  | (_, t) :: ms => max t.depth (membersDepth ms)

end

/-- The value of a tree that is not an array or an object. -/
def Tree.leaf : Tree → JsonVal
  | .litNull => ⟨.litNull, 0, .data []⟩
  | .litTrue => ⟨.litTrue, 0, .data []⟩
  | .litFalse => ⟨.litFalse, 0, .data []⟩
  | .int text => ⟨.int, text.length, .data text⟩
  | .float text => ⟨.float, text.length, .data text⟩
  | .str s => ⟨.string, s.length, .data s⟩
  | .arr _ | .obj _ => ⟨.none, 0, .data []⟩

section

variable (vals : List JsonVal)

mutual

/-- The tree is in the memory at `v`, and no part of it below `low`: an array or an object lies in front of
what is in it. -/
def Tree.At (low : Nat) : Tree → Nat → Prop
  | .arr ts, v => low ≤ v ∧ ∃ slots,
      vals[v]? = some ⟨.arrayBegin, ts.length, .slots slots⟩ ∧ itemsAt (v + 1) ts slots
  | .obj ms, v => low ≤ v ∧ ∃ slots,
      vals[v]? = some ⟨.objectBegin, ms.length, .slots slots⟩ ∧ membersAt (v + 1) ms slots
  | .litNull, v => low ≤ v ∧ vals[v]? = some (Tree.leaf .litNull)
  | .litTrue, v => low ≤ v ∧ vals[v]? = some (Tree.leaf .litTrue)
  | .litFalse, v => low ≤ v ∧ vals[v]? = some (Tree.leaf .litFalse)
  | .int text, v => low ≤ v ∧ vals[v]? = some (Tree.leaf (.int text))
  | .float text, v => low ≤ v ∧ vals[v]? = some (Tree.leaf (.float text))
  | .str s, v => low ≤ v ∧ vals[v]? = some (Tree.leaf (.str s))

def itemsAt (low : Nat) : List Tree → List Slot → Prop
  | [], slots => slots = []
  | t :: ts, slots => ∃ v rest, slots = .val v :: rest ∧ Tree.At low t v ∧ itemsAt low ts rest

def membersAt (low : Nat) : List (Bytes × Tree) → List Slot → Prop
  | [], slots => slots = []
  | (k, t) :: ms, slots => ∃ v rest, slots = .elem (some k) k.length v :: rest ∧ Tree.At low t v ∧
      membersAt low ms rest

end

end

/-! ## Trees that stay in the memory -/

/-- What is at these addresses is also in the other memory. -/
def Stays (low : Nat) (vals vals' : List JsonVal) : Prop :=
  ∀ i x, low ≤ i → vals[i]? = some x → vals'[i]? = some x

theorem Stays.above {low low' : Nat} {vals vals' : List JsonVal} (h : Stays low vals vals') (le : low ≤ low') :
    Stays low' vals vals' :=
  fun i x above => h i x (Nat.le_trans le above)

mutual

theorem Tree.At.mono {vals vals' : List JsonVal} :
    ∀ {t : Tree} {low low' v : Nat}, Stays low vals vals' → low' ≤ low → t.At vals low v → t.At vals' low' v
  | .arr ts, low, low', v, stays, le, h => by
    obtain ⟨above, slots, here, items⟩ := h
    have inner := stays.above (Nat.le_succ_of_le above)
    exact ⟨Nat.le_trans le above, slots, stays v _ above here, itemsAt_mono inner (Nat.le_refl _) items⟩
  | .obj ms, low, low', v, stays, le, h => by
    obtain ⟨above, slots, here, members⟩ := h
    have inner := stays.above (Nat.le_succ_of_le above)
    exact ⟨Nat.le_trans le above, slots, stays v _ above here, membersAt_mono inner (Nat.le_refl _) members⟩
  | .litNull, _, _, v, stays, le, h => ⟨Nat.le_trans le h.1, stays v _ h.1 h.2⟩
  | .litTrue, _, _, v, stays, le, h => ⟨Nat.le_trans le h.1, stays v _ h.1 h.2⟩
  | .litFalse, _, _, v, stays, le, h => ⟨Nat.le_trans le h.1, stays v _ h.1 h.2⟩
  | .int _, _, _, v, stays, le, h => ⟨Nat.le_trans le h.1, stays v _ h.1 h.2⟩
  | .float _, _, _, v, stays, le, h => ⟨Nat.le_trans le h.1, stays v _ h.1 h.2⟩
  | .str _, _, _, v, stays, le, h => ⟨Nat.le_trans le h.1, stays v _ h.1 h.2⟩

theorem itemsAt_mono {vals vals' : List JsonVal} :
    ∀ {ts : List Tree} {low low' : Nat} {slots : List Slot}, Stays low vals vals' → low' ≤ low →
      itemsAt vals low ts slots → itemsAt vals' low' ts slots
  | [], _, _, _, _, _, h => h
  | t :: ts, _, _, _, stays, le, h => by
    obtain ⟨v, rest, here, first, more⟩ := h
    exact ⟨v, rest, here, first.mono stays le, itemsAt_mono stays le more⟩

theorem membersAt_mono {vals vals' : List JsonVal} :
    ∀ {ms : List (Bytes × Tree)} {low low' : Nat} {slots : List Slot}, Stays low vals vals' → low' ≤ low →
      membersAt vals low ms slots → membersAt vals' low' ms slots
  | [], _, _, _, _, _, h => h
  | (k, t) :: ms, _, _, _, stays, le, h => by
    obtain ⟨v, rest, here, first, more⟩ := h
    exact ⟨v, rest, here, first.mono stays le, membersAt_mono stays le more⟩

end

/-! ## Printing a tree -/

mutual

/-- **A tree in the memory is printed as its outline.** -/
theorem Tree.At.prints {vals : List JsonVal} : ∀ {t : Tree} {low v fuel : Nat}, t.At vals low v →
    t.depth < fuel → printTreeIter vals fuel v = some t.outline
  | .arr ts, low, v, fuel + 1, h, deep => by
    obtain ⟨-, slots, here, items⟩ := h
    obtain ⟨outs, printed, flat, length⟩ := itemsAt_prints items (Nat.lt_of_succ_lt_succ deep)
    rw [printTreeIter, here]
    dsimp only
    rw [List.take_of_length_le (Nat.le_of_eq length), printed, Option.map_some, flat, Tree.outline]
  | .obj ms, low, v, fuel + 1, h, deep => by
    obtain ⟨-, slots, here, members⟩ := h
    obtain ⟨outs, printed, flat, length⟩ := membersAt_prints members (Nat.lt_of_succ_lt_succ deep)
    rw [printTreeIter, here]
    dsimp only
    rw [List.take_of_length_le (Nat.le_of_eq length), printed, Option.map_some, flat, Tree.outline]
  | .litNull, _, v, fuel + 1, h, _ | .litTrue, _, v, fuel + 1, h, _ | .litFalse, _, v, fuel + 1, h, _
  | .int _, _, v, fuel + 1, h, _ | .float _, _, v, fuel + 1, h, _ | .str _, _, v, fuel + 1, h, _ => by
    rw [printTreeIter, h.2]
    rfl

theorem itemsAt_prints {vals : List JsonVal} : ∀ {ts : List Tree} {low fuel : Nat} {slots : List Slot},
    itemsAt vals low ts slots → itemsDepth ts < fuel →
      ∃ outs, slots.mapM (printItem (printTreeIter vals fuel)) = some outs ∧
        outs.flatten = itemsOutline ts ∧ slots.length = ts.length
  | [], _, _, _, h, _ => by
    subst h
    exact ⟨[], rfl, rfl, rfl⟩
  | t :: ts, _, fuel, _, h, deep => by
    obtain ⟨v, rest, rfl, first, more⟩ := h
    rw [itemsDepth, Nat.max_lt] at deep
    obtain ⟨outs, printed, flat, length⟩ := itemsAt_prints more deep.2
    have here : printItem (printTreeIter vals fuel) (.val v) = some t.outline := first.prints deep.1
    refine ⟨t.outline :: outs, ?_, ?_, congrArg (· + 1) length⟩
    · rw [List.mapM_cons, here, printed]
      rfl
    · rw [List.flatten_cons, flat, itemsOutline]

theorem membersAt_prints {vals : List JsonVal} : ∀ {ms : List (Bytes × Tree)} {low fuel : Nat}
    {slots : List Slot}, membersAt vals low ms slots → membersDepth ms < fuel →
      ∃ outs, slots.mapM (printMember (printTreeIter vals fuel)) = some outs ∧
        outs.flatten = membersOutline ms ∧ slots.length = ms.length
  | [], _, _, _, h, _ => by
    subst h
    exact ⟨[], rfl, rfl, rfl⟩
  | (k, t) :: ms, _, fuel, _, h, deep => by
    obtain ⟨v, rest, rfl, first, more⟩ := h
    rw [membersDepth, Nat.max_lt] at deep
    obtain ⟨outs, printed, flat, length⟩ := membersAt_prints more deep.2
    have here : printMember (printTreeIter vals fuel) (.elem (some k) k.length v) =
        some (line "key: " k ++ t.outline) := by
      rw [printMember, first.prints deep.1]
      rfl
    refine ⟨(line "key: " k ++ t.outline) :: outs, ?_, ?_, congrArg (· + 1) length⟩
    · rw [List.mapM_cons, here, printed]
      rfl
    · rw [List.flatten_cons, flat, membersOutline]

end

/-! ## Building a tree -/

/-- No memory is refused. -/
structure Dom.Granted (d : Dom Vals Nat) : Prop where
  stack : ∀ a ∈ d.answers, a = true
  tree : ∀ a ∈ d.memory.answers, a = true

/-- The innermost array or object, as it is in the memory, and those around it. -/
structure Dom.Open (d : Dom Vals Nat) (s : StackElem Nat) (ss : List (StackElem Nat)) (parent : JsonVal) :
    Prop where
  stack : d.stack = s :: ss
  here : d.memory.vals[s.val]? = some parent
  few : d.stack.length ≤ 1024
  fresh : d.Fresh
  granted : d.Granted

/-- What `v` is in its array or object, by the key that waits for it, and that key behind it. -/
inductive Key.Takes : Key → Nat → Slot → Key → Prop
  | null (v : Nat) : Takes .null v (.val v) .null
  | held (k : Bytes) (v : Nat) : Takes (.held k) v (.elem (some k) k.length v) .freed

/-- The memory has grown, and nothing but the value at `p` has changed. -/
structure Grown (p : Nat) (vals vals' : List JsonVal) : Prop where
  longer : vals.length ≤ vals'.length
  same : ∀ i, i < vals.length → i ≠ p → vals'[i]? = vals[i]?

theorem Grown.trans {p : Nat} {a b c : List JsonVal} (h : Grown p a b) (h' : Grown p b c) : Grown p a c := by
  refine ⟨Nat.le_trans h.longer h'.longer, fun i below other => ?_⟩
  rw [h'.same i (Nat.lt_of_lt_of_le below h.longer) other, h.same i below other]

theorem Grown.stays {p low : Nat} {a b : List JsonVal} (h : Grown p a b) (behind : p < low) :
    Stays low a b := by
  intro i x above here
  obtain ⟨below, -⟩ := List.getElem?_eq_some_iff.1 here
  rw [h.same i below (Nat.ne_of_gt (Nat.lt_of_lt_of_le behind above)), here]

theorem place_lt {vals : List JsonVal} {p : Nat} {x : JsonVal} (here : vals[p]? = some x) :
    p < vals.length :=
  (List.getElem?_eq_some_iff.1 here).1

theorem Vals.alloc_granted {m : Vals} (granted : ∀ a ∈ m.answers, a = true) :
    m.alloc = (true, { m with answers := m.answers.tail }) ∧ ∀ a ∈ m.answers.tail, a = true := by
  refine ⟨?_, fun a inside => granted a (List.mem_of_mem_tail inside)⟩
  unfold alloc
  cases answers : m.answers with
  | nil => rfl
  | cons a as =>
    rw [granted a (answers ▸ List.mem_cons_self)]
    rfl

/-- `tree_create_structure` and `tree_create_data` put a value behind the others. -/
theorem created_structure {m : Vals} (granted : ∀ a ∈ m.answers, a = true) (n : Nat) (isObject : Bool) :
    ∃ answers, (∀ a ∈ answers, a = true) ∧ treeBuilder.createStructure m n isObject = (some m.vals.length,
      ⟨m.vals ++ [⟨if isObject then .objectBegin else .arrayBegin, 0, .slots []⟩], answers⟩) := by
  obtain ⟨place, given⟩ := Vals.alloc_granted granted
  refine ⟨_, given, ?_⟩
  unfold treeBuilder treeCreateStructure
  dsimp only
  rw [place]
  rfl

theorem created_data {m : Vals} (granted : ∀ a ∈ m.answers, a = true) (type : JsonType) (data : Bytes) :
    ∃ answers, (∀ a ∈ answers, a = true) ∧ treeBuilder.createData m type data =
      (some m.vals.length, ⟨m.vals ++ [⟨type, data.length, .data data⟩], answers⟩) := by
  obtain ⟨place, given⟩ := Vals.alloc_granted granted
  obtain ⟨copy, given⟩ := Vals.alloc_granted (m := { m with answers := m.answers.tail }) given
  refine ⟨_, given, ?_⟩
  unfold treeBuilder treeCreateData
  dsimp only
  rw [place]
  dsimp only
  rw [copy]
  rfl

theorem append_granted {d : Dom Vals Nat} {s : StackElem Nat} {parent : JsonVal} {v : Nat} {slot : Slot}
    {key' : Key} (granted : ∀ a ∈ d.memory.answers, a = true)
    (here : d.memory.vals[s.val]? = some parent) (takes : s.key.Takes v slot key') :
    ∃ answers, (∀ a ∈ answers, a = true) ∧ s.key.free = .ok key' ∧
      d.append treeBuilder s v =
        .ok (0, { d with memory := ⟨d.memory.vals.set s.val (parent.push slot), answers⟩ }) := by
  obtain ⟨place, given⟩ := Vals.alloc_granted granted
  obtain ⟨p, key⟩ := s
  cases takes with
  | null =>
    refine ⟨_, given, rfl, ?_⟩
    unfold Dom.append treeBuilder treeAppend
    dsimp only [Key.read, Except.map] at here ⊢
    rw [here]
    dsimp only
    rw [place]
  | held k =>
    have element := Vals.alloc_granted (m := { d.memory with answers := d.memory.answers.tail }) given
    have copy := Vals.alloc_granted (m := { d.memory with answers := d.memory.answers.tail.tail }) element.2
    refine ⟨_, copy.2, rfl, ?_⟩
    unfold Dom.append treeBuilder treeAppend
    dsimp only [Key.read, Except.map] at here ⊢
    rw [here]
    dsimp only
    rw [place]
    dsimp only
    rw [element.1]
    dsimp only
    rw [copy.1]
    rfl

section

variable {d d' : Dom Vals Nat} {s : StackElem Nat} {ss : List (StackElem Nat)} {parent : JsonVal} {t : Tree}

theorem Key.takes_of (key : Key) (waits : key ≠ .freed) (v : Nat) : ∃ slot key', key.Takes v slot key' := by
  cases key with
  | null => exact ⟨_, _, .null v⟩
  | held k => exact ⟨_, _, .held k v⟩
  | freed => exact absurd rfl waits

/-- The array or object has got the tree at its end. -/
structure Adds (t : Tree) (s : StackElem Nat) (ss : List (StackElem Nat)) (parent : JsonVal)
    (d d' : Dom Vals Nat) : Prop where
  got : ∃ slot key' v, s.key.Takes v slot key' ∧ d'.Open { s with key := key' } ss (parent.push slot) ∧
    t.At d'.memory.vals d.memory.vals.length v
  grown : Grown s.val d.memory.vals d'.memory.vals
  few : d.stack.length + t.depth ≤ 1024

theorem grown_set (vals more : List JsonVal) (p : Nat) (x : JsonVal) :
    Grown p vals ((vals ++ more).set p x) := by
  refine ⟨?_, fun i below other => ?_⟩
  · rw [List.length_set, List.length_append]
    exact Nat.le_add_right _ _
  · rw [List.getElem?_set_ne (Ne.symm other), List.getElem?_append_left below]

/-- A value that is not an array or an object. -/
theorem Dom.Open.data (h : d.Open s ss parent) (waits : s.key ≠ .freed) {type : JsonType} {data : Bytes}
    (leaf : ∀ vals low v, low ≤ v → vals[v]? = some ⟨type, data.length, .data data⟩ → t.At vals low v)
    (shallow : t.depth = 0) :
    Meets (Adds t s ss parent d) (fun _ => 1024 < d.stack.length + t.depth)
      (domData treeBuilder d type data) := by
  obtain ⟨more, given, created⟩ := created_data h.granted.tree type data
  obtain ⟨slot, key', takes⟩ := s.key.takes_of waits d.memory.vals.length
  let m : Vals := ⟨d.memory.vals ++ [⟨type, data.length, .data data⟩], more⟩
  have below := place_lt h.here
  have here : m.vals[s.val]? = some parent := (List.getElem?_append_left below).trans h.here
  obtain ⟨answers, given, free, appended⟩ :=
    append_granted (d := { d with memory := m, stack := s :: ss }) given here takes
  have result : domData treeBuilder d type data = .ok { d with
      memory := ⟨m.vals.set s.val (parent.push slot), answers⟩, stack := { s with key := key' } :: ss } := by
    unfold domData Dom.top
    rw [h.stack]
    dsimp only [bind, Except.bind]
    rw [created]
    dsimp only
    rw [appended]
    dsimp only
    rw [if_neg (by decide), free]
  have few : ss.length + 1 ≤ 1024 := by
    have few := h.few
    rwa [h.stack] at few
  have at_ : (m.vals.set s.val (parent.push slot))[d.memory.vals.length]? =
      some ⟨type, data.length, .data data⟩ := by
    rw [List.getElem?_set_ne (Nat.ne_of_lt below)]
    exact List.getElem?_concat_length
  rw [result]
  refine .ok ⟨⟨slot, key', d.memory.vals.length, takes, ⟨rfl, ?_, ?_, h.fresh, h.granted.stack, given⟩, ?_⟩,
    grown_set _ _ _ _, ?_⟩
  · refine List.getElem?_set_self ?_
    rw [List.length_append]
    exact Nat.lt_add_right _ below
  · exact few
  · exact leaf _ _ _ (Nat.le_refl _) at_
  · rw [shallow]
    exact h.few

/-- The tree is an array or an object that has begun, and all that is in it is there. -/
structure Filled (t : Tree) (d d' : Dom Vals Nat) : Prop where
  inside : ∃ key node, d'.Open ⟨d.memory.vals.length, key⟩ d.stack node
  longer : d.memory.vals.length ≤ d'.memory.vals.length
  same : ∀ i, i < d.memory.vals.length → d'.memory.vals[i]? = d.memory.vals[i]?
  at_ : t.At d'.memory.vals d.memory.vals.length d.memory.vals.length
  few : d.stack.length + t.depth ≤ 1024

/-- An array or an object begins. -/
theorem begun (fresh : d.Fresh) (granted : d.Granted) (few : d.stack.length ≤ 1024) (isObject : Bool) :
    Meets (fun d' => d'.Open ⟨d.memory.vals.length, .null⟩ d.stack
          ⟨if isObject then .objectBegin else .arrayBegin, 0, .slots []⟩ ∧
        d'.memory.vals = d.memory.vals ++ [⟨if isObject then .objectBegin else .arrayBegin, 0, .slots []⟩])
      (fun e => d.stack.length = 1024 ∧ e = noMeaning) (domBegin treeBuilder d isObject) := by
  obtain ⟨more, given, created⟩ := created_structure granted.tree d.stack.length isObject
  let m : Vals :=
    ⟨d.memory.vals ++ [⟨if isObject then .objectBegin else .arrayBegin, 0, .slots []⟩], more⟩
  unfold domBegin
  rw [created]
  dsimp only
  rcases Nat.lt_or_ge d.stack.length 1024 with below | full
  · rw [domPush_below (d := { d with memory := m }) fresh below]
    exact .ok ⟨⟨rfl, List.getElem?_concat_length, below, fresh, granted.stack, given⟩, rfl⟩
  · have full := Nat.le_antisymm few full
    rw [domPush_full (d := { d with memory := m }) fresh full granted.stack]
    exact .error ⟨full, rfl⟩

/-- The innermost array or object ends, inside of another one. -/
theorem Filled.lands (h : Filled t d d') (here : d.Open s ss parent) (waits : s.key ≠ .freed) :
    ∃ d'', domEnd treeBuilder d' = .ok d'' ∧ Adds t s ss parent d d'' := by
  obtain ⟨key, node, opened⟩ := h.inside
  obtain ⟨slot, key', takes⟩ := s.key.takes_of waits d.memory.vals.length
  have below := place_lt here.here
  have there : d'.memory.vals[s.val]? = some parent := (h.same s.val below).trans here.here
  obtain ⟨answers, given, free, appended⟩ :=
    append_granted (d := { d' with stack := s :: ss }) opened.granted.tree there takes
  have few : ss.length + 1 ≤ 1024 := by
    have few := here.few
    rwa [here.stack] at few
  let memory : Vals := ⟨d'.memory.vals.set s.val (parent.push slot), answers⟩
  have after : memory.vals[s.val]? = some (parent.push slot) :=
    List.getElem?_set_self (Nat.lt_of_lt_of_le below h.longer)
  refine ⟨{ d' with memory := memory, stack := { s with key := key' } :: ss }, ?_,
    ⟨slot, key', d.memory.vals.length, takes,
      ⟨rfl, after, few, opened.fresh, opened.granted.stack, given⟩, ?_⟩, ?_, h.few⟩
  · unfold domEnd domPop
    rw [opened.stack, here.stack]
    dsimp only [bind, Except.bind]
    rw [appended]
    dsimp only
    rw [free]
  · refine h.at_.mono (fun i x above at_ => ?_) (Nat.le_refl _)
    dsimp only [memory]
    rw [List.getElem?_set_ne (Nat.ne_of_lt (Nat.lt_of_lt_of_le below above)), at_]
  · refine ⟨?_, fun i under other => ?_⟩
    · rw [List.length_set]
      exact h.longer
    · dsimp only [memory]
      rw [List.getElem?_set_ne (Ne.symm other), h.same i under]

/-- The array or object ends that is the text. -/
theorem Filled.root (h : Filled t d d') (empty : d.stack = []) :
    domEnd treeBuilder d' =
      .ok { d' with stack := [], rootStructure := some d.memory.vals.length } := by
  obtain ⟨key, node, opened⟩ := h.inside
  unfold domEnd domPop
  rw [opened.stack, empty]
  rfl

end

/-! ## All events of a tree -/

/-- The events, one after the other. -/
abbrev builds (d : Dom Vals Nat) (es : List Event) : Except JsonError (Dom Vals Nat) :=
  es.foldlM (domCallback treeBuilder) d

def Builds (t : Tree) : Prop :=
  ∀ (d : Dom Vals Nat) s ss parent, d.Open s ss parent → s.key ≠ .freed →
    Meets (Adds t s ss parent d) (fun _ => 1024 < d.stack.length + t.depth) (builds d t.events)

def BuildsItems (ts : List Tree) : Prop :=
  ∀ (d : Dom Vals Nat) p ss type n before, d.Open ⟨p, .null⟩ ss ⟨type, n, .slots before⟩ →
    Meets
      (fun d' => d.stack.length + itemsDepth ts ≤ 1024 ∧ Grown p d.memory.vals d'.memory.vals ∧
        ∃ slots, d'.Open ⟨p, .null⟩ ss ⟨type, n + ts.length, .slots (before ++ slots)⟩ ∧
          itemsAt d'.memory.vals d.memory.vals.length ts slots)
      (fun _ => 1024 < d.stack.length + itemsDepth ts) (builds d (itemEvents ts))

def BuildsMembers (ms : List (Bytes × Tree)) : Prop :=
  ∀ (d : Dom Vals Nat) p key ss type n before, d.Open ⟨p, key⟩ ss ⟨type, n, .slots before⟩ →
    Meets
      (fun d' => d.stack.length + membersDepth ms ≤ 1024 ∧ Grown p d.memory.vals d'.memory.vals ∧
        ∃ slots key', d'.Open ⟨p, key'⟩ ss ⟨type, n + ms.length, .slots (before ++ slots)⟩ ∧
          membersAt d'.memory.vals d.memory.vals.length ms slots)
      (fun _ => 1024 < d.stack.length + membersDepth ms) (builds d (memberEvents ms))

theorem builds_cons (d : Dom Vals Nat) (e : Event) (es : List Event) :
    builds d (e :: es) = (domCallback treeBuilder d e).bind fun d => builds d es := rfl

theorem builds_append (d : Dom Vals Nat) (es es' : List Event) :
    builds d (es ++ es') = (builds d es).bind fun d => builds d es' := by
  unfold builds
  rw [List.foldlM_append]
  rfl

theorem BuildsItems.nil : BuildsItems [] := by
  intro d p ss type n before opened
  refine .ok ⟨opened.few, ⟨Nat.le_refl _, fun _ _ _ => rfl⟩, [], ?_, rfl⟩
  rw [List.append_nil]
  exact opened

theorem BuildsMembers.nil : BuildsMembers [] := by
  intro d p key ss type n before opened
  refine .ok ⟨opened.few, ⟨Nat.le_refl _, fun _ _ _ => rfl⟩, [], key, ?_, rfl⟩
  rw [List.append_nil]
  exact opened

theorem BuildsItems.cons {t : Tree} {ts : List Tree} (first : Builds t) (more : BuildsItems ts) :
    BuildsItems (t :: ts) := by
  intro d p ss type n before opened
  rw [itemEvents, builds_append, itemsDepth]
  refine ((first _ _ _ _ opened (fun h => nomatch h)).weaken fun _ deep => by omega).bind fun d₁ added => ?_
  obtain ⟨⟨slot, key', v, takes, opened₁, at_⟩, grown, few⟩ := added
  cases takes with
  | null =>
    have same : d₁.stack.length = d.stack.length := by
      rw [opened₁.stack, opened.stack, List.length_cons]
    refine ((more _ _ _ _ _ _ opened₁).weaken fun _ deep => by omega).mono fun d₂ rest => ?_
    obtain ⟨few', grown', slots, opened₂, items⟩ := rest
    have behind := place_lt opened.here
    refine ⟨by omega, grown.trans grown', .val v :: slots, ?_, v, slots, rfl, ?_, ?_⟩
    · have count : n + 1 + ts.length = n + (t :: ts).length := by rw [List.length_cons]; omega
      rw [← count]
      change d₂.Open _ _ ⟨_, _, .slots (before ++ [.val v] ++ slots)⟩ at opened₂
      rw [List.append_assoc] at opened₂
      exact opened₂
    · exact at_.mono (grown'.stays behind) (Nat.le_refl _)
    · exact itemsAt_mono (fun _ _ _ h => h) grown.longer items

/-- A key that waits for its value. -/
theorem Dom.Open.key {d : Dom Vals Nat} {p : Nat} {key : Key} {ss : List (StackElem Nat)}
    {parent : JsonVal} (h : d.Open ⟨p, key⟩ ss parent) (k : Bytes) :
    ∃ d', domCallback treeBuilder d ⟨.key, k⟩ = .ok d' ∧ d'.Open ⟨p, .held k⟩ ss parent ∧
      d'.memory = d.memory ∧ d'.stack.length = d.stack.length := by
  have place := Dom.alloc_granted h.granted.stack
  have length : d.stack.length = ss.length + 1 := by rw [h.stack, List.length_cons]
  have few : ss.length + 1 ≤ 1024 := length ▸ h.few
  refine ⟨{ d with stack := ⟨p, .held k⟩ :: ss, answers := d.answers.tail }, ?_, ?_, rfl, length.symm⟩
  · change domKey d k = _
    unfold domKey Dom.top
    rw [h.stack]
    dsimp only [bind, Except.bind]
    rw [place]
  · exact ⟨rfl, h.here, few, h.fresh, fun a inside => h.granted.stack a (List.mem_of_mem_tail inside),
      h.granted.tree⟩

theorem BuildsMembers.cons {k : Bytes} {t : Tree} {ms : List (Bytes × Tree)} (first : Builds t)
    (more : BuildsMembers ms) : BuildsMembers ((k, t) :: ms) := by
  intro d p key ss type n before opened
  obtain ⟨d₀, named, held, memory, length⟩ := opened.key k
  rw [memberEvents, builds_cons, named]
  change Meets _ _ (builds d₀ (t.events ++ memberEvents ms))
  rw [builds_append, membersDepth, ← memory, ← length]
  refine ((first _ _ _ _ held (fun h => nomatch h)).weaken fun _ deep => by omega).bind fun d₁ added => ?_
  obtain ⟨⟨slot, key', v, takes, opened₁, at_⟩, grown, few⟩ := added
  cases takes with
  | held =>
    have same : d₁.stack.length = d₀.stack.length := by
      rw [opened₁.stack, held.stack, List.length_cons, List.length_cons]
    refine ((more _ _ _ _ _ _ _ opened₁).weaken fun _ deep => by omega).mono fun d₂ rest => ?_
    obtain ⟨few', grown', slots, key'', opened₂, members⟩ := rest
    have behind := place_lt held.here
    refine ⟨by omega, grown.trans grown', .elem (some k) k.length v :: slots, key'', ?_, v, slots, rfl, ?_, ?_⟩
    · have count : n + 1 + ms.length = n + ((k, t) :: ms).length := by rw [List.length_cons]; omega
      rw [← count]
      change d₂.Open _ _ ⟨_, _, .slots (before ++ [.elem (some k) k.length v] ++ slots)⟩ at opened₂
      rw [List.append_assoc] at opened₂
      exact opened₂
    · exact at_.mono (grown'.stays behind) (Nat.le_refl _)
    · exact membersAt_mono (fun _ _ _ h => h) grown.longer members

/-- An array or an object, from its beginning up to its end, by what is in it. -/
theorem filled_of {t : Tree} {e : Event} {es : List Event} {isObject : Bool} {depth n : Nat}
    {d : Dom Vals Nat} (places : List JsonVal → Nat → List Slot → Prop) (fresh : d.Fresh)
    (granted : d.Granted) (few : d.stack.length ≤ 1024)
    (begins : domCallback treeBuilder d e = domBegin treeBuilder d isObject) (levels : t.depth = depth + 1)
    (here : ∀ vals v slots,
      vals[v]? = some ⟨if isObject then .objectBegin else .arrayBegin, n, .slots slots⟩ →
        places vals (v + 1) slots → t.At vals v v)
    (inner : ∀ d₁ : Dom Vals Nat, d₁.Open ⟨d.memory.vals.length, .null⟩ d.stack
        ⟨if isObject then .objectBegin else .arrayBegin, 0, .slots []⟩ →
      Meets
        (fun d₂ => d₁.stack.length + depth ≤ 1024 ∧
          Grown d.memory.vals.length d₁.memory.vals d₂.memory.vals ∧
          ∃ slots key, d₂.Open ⟨d.memory.vals.length, key⟩ d.stack
              ⟨if isObject then .objectBegin else .arrayBegin, 0 + n, .slots ([] ++ slots)⟩ ∧
            places d₂.memory.vals d₁.memory.vals.length slots)
        (fun _ => 1024 < d₁.stack.length + depth) (builds d₁ es)) :
    Meets (Filled t d) (fun _ => 1024 < d.stack.length + t.depth) (builds d (e :: es)) := by
  rw [builds_cons, begins, levels]
  refine ((begun fresh granted few isObject).weaken fun _ full => by omega).bind fun d₁ opened => ?_
  obtain ⟨opened, vals⟩ := opened
  have stack : d₁.stack.length = d.stack.length + 1 := by rw [opened.stack, List.length_cons]
  have length : d₁.memory.vals.length = d.memory.vals.length + 1 := by
    rw [vals, List.length_append, List.length_singleton]
  refine ((inner d₁ opened).weaken fun _ deep => by omega).mono fun d₂ filled => ?_
  obtain ⟨few', grown, slots, key, opened₂, all⟩ := filled
  have longer := grown.longer
  refine ⟨⟨key, _, opened₂⟩, by omega, fun i below => ?_, here _ _ slots ?_ ?_, by omega⟩
  · rw [grown.same i (by omega) (Nat.ne_of_lt below), vals, List.getElem?_append_left below]
  · have there := opened₂.here
    rwa [Nat.zero_add, List.nil_append] at there
  · rwa [length] at all

theorem BuildsItems.filled {ts : List Tree} (h : BuildsItems ts) {d : Dom Vals Nat} (fresh : d.Fresh)
    (granted : d.Granted) (few : d.stack.length ≤ 1024) :
    Meets (Filled (.arr ts) d) (fun _ => 1024 < d.stack.length + (Tree.arr ts).depth)
      (builds d (⟨.arrayBegin, []⟩ :: itemEvents ts)) := by
  refine filled_of (fun vals low => itemsAt vals low ts) fresh granted few rfl (by rw [Tree.depth])
    (fun _ _ slots there items => ⟨Nat.le_refl _, slots, there, items⟩) fun d₁ opened => ?_
  refine (h _ _ _ _ _ _ opened).mono fun d₂ inner => ?_
  obtain ⟨few', grown, slots, opened₂, items⟩ := inner
  exact ⟨few', grown, slots, .null, opened₂, items⟩

theorem BuildsMembers.filled {ms : List (Bytes × Tree)} (h : BuildsMembers ms) {d : Dom Vals Nat}
    (fresh : d.Fresh) (granted : d.Granted) (few : d.stack.length ≤ 1024) :
    Meets (Filled (.obj ms) d) (fun _ => 1024 < d.stack.length + (Tree.obj ms).depth)
      (builds d (⟨.objectBegin, []⟩ :: memberEvents ms)) :=
  filled_of (fun vals low => membersAt vals low ms) fresh granted few rfl (by rw [Tree.depth])
    (fun _ _ slots there members => ⟨Nat.le_refl _, slots, there, members⟩) fun _ opened =>
      h _ _ _ _ _ _ _ opened

/-- The events of an array or an object, up to its last. -/
def Tree.front : Tree → List Event
  | .arr ts => ⟨.arrayBegin, []⟩ :: itemEvents ts
  | .obj ms => ⟨.objectBegin, []⟩ :: memberEvents ms
  | _ => []

/-- An array or an object in another one. -/
theorem builds_structure {t : Tree} {last : Event}
    (filled : ∀ {d : Dom Vals Nat}, d.Fresh → d.Granted → d.stack.length ≤ 1024 →
      Meets (Filled t d) (fun _ => 1024 < d.stack.length + t.depth) (builds d t.front))
    (ends : ∀ d, domCallback treeBuilder d last = domEnd treeBuilder d) (events : t.events = t.front ++ [last]) :
    Builds t := by
  intro d s ss parent opened waits
  rw [events, builds_append]
  refine (filled opened.fresh opened.granted opened.few).bind fun d' inner => ?_
  obtain ⟨d'', ended, added⟩ := inner.lands opened waits
  rw [builds_cons, ends, ended]
  exact .ok added

/-- A value of another kind. -/
theorem builds_leaf {t : Tree} {type : JsonType} {data : Bytes} (events : t.events = [⟨type, data⟩])
    (told : ∀ d, domCallback treeBuilder d ⟨type, data⟩ = domData treeBuilder d type data)
    (leaf : ∀ vals low v, low ≤ v → vals[v]? = some ⟨type, data.length, .data data⟩ → t.At vals low v)
    (shallow : t.depth = 0) : Builds t := by
  intro d s ss parent opened waits
  rw [events, builds_cons, told]
  exact (opened.data waits leaf shallow).bind fun _ added => .ok added

mutual

theorem builds_tree : ∀ t : Tree, Builds t
  | .arr ts => @builds_structure _ ⟨.arrayEnd, []⟩ (builds_items ts).filled (fun _ => rfl) rfl
  | .obj ms => @builds_structure _ ⟨.objectEnd, []⟩ (builds_members ms).filled (fun _ => rfl) rfl
  | .litNull => builds_leaf rfl (fun _ => rfl) (fun _ _ _ above here => ⟨above, here⟩) rfl
  | .litTrue => builds_leaf rfl (fun _ => rfl) (fun _ _ _ above here => ⟨above, here⟩) rfl
  | .litFalse => builds_leaf rfl (fun _ => rfl) (fun _ _ _ above here => ⟨above, here⟩) rfl
  | .int _ => builds_leaf rfl (fun _ => rfl) (fun _ _ _ above here => ⟨above, here⟩) rfl
  | .float _ => builds_leaf rfl (fun _ => rfl) (fun _ _ _ above here => ⟨above, here⟩) rfl
  | .str _ => builds_leaf rfl (fun _ => rfl) (fun _ _ _ above here => ⟨above, here⟩) rfl

theorem builds_items : ∀ ts : List Tree, BuildsItems ts
  | [] => .nil
  | t :: ts => .cons (builds_tree t) (builds_items ts)

theorem builds_members : ∀ ms : List (Bytes × Tree), BuildsMembers ms
  | [] => .nil
  | (_, t) :: ms => .cons (builds_tree t) (builds_members ms)

end

end SpiderFrame.Libjson
