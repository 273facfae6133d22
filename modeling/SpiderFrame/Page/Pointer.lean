import Mathlib.Algebra.Group.Nat.Defs
import SpiderFrame.Base.Run
import SpiderFrame.Page.Stores

/-!
# The pointers of `sf_pcre_getcontent` (`sf_pcre.c`)

The function goes over the captured text with `p` and `pr`, and writes what it keeps through `d`.
Here each round of its loops is a step of a machine, which tells the places that it reads in the text
and those that it writes in the new string. Of a text that is not empty it stays in both
(`content_in_bounds_iff`), and gives what `contentLoop` gives (`pointers_content`). Of an empty one it
copies the NUL and goes on behind it.
-/

namespace SpiderFrame.Page
open SpiderFrame.Base

/-- The elements that are dropped with what is in them. -/
inductive Element where
  | blockquote
  | script
  | style
  deriving DecidableEq

def Element.opening : Element → List Byte
  | .blockquote => Page.blockquote
  | .script => Page.script
  | .style => Page.style

def Element.closing : Element → List Byte
  | .blockquote => blockquoteEnd
  | .script => scriptEnd
  | .style => styleEnd

/-- Where the function is: at the head of its loop, in the loop behind an opening tag, at the `if`
behind a block quotation, in the loop that looks for `>`, at the test of its loop, or at its end. -/
inductive Place where
  | head
  | skip (e : Element)
  | chain
  | tag
  | test
  | done
  deriving DecidableEq

/-- Where the loop behind an opening tag ends. -/
def Element.next : Element → Place
  | .blockquote => .chain
  | _ => .test

/-- The variables, as distances from `outstr` and `newstr`. -/
structure Pointers where
  place : Place
  p : Nat
  pr : Nat
  d : Nat
  newstr : Nat → Byte

/-- A byte of `outstr` that is read, or one of `newstr` that is written. -/
inductive Access where
  | read (i : Nat)
  | write (i : Nat)

/-- `strncmp(p, tag, n)` of the `n` bytes of a tag: the places that it reads, and whether it is 0. -/
def strncmp (mem : Nat → Byte) : Nat → List Byte → List Access × Bool
  | _, [] => ([], true)
  | p, b :: tag =>
    if mem p = b then
      let (reads, same) := strncmp mem (p + 1) tag
      (.read p :: reads, same)
    else ([.read p], false)

/-- `end - p >= n`. For a block quotation `n` is a `size_t`, and so is the difference then: a negative
one is huge. -/
def Element.room (e : Element) (len p n : Nat) : Bool :=
  if p ≤ len then n ≤ len - p
  else
    match e with
    | .blockquote => n ≤ 2 ^ 64 - (p - len)
    | _ => false

/-- `end - p >= n && strncmp(p, tag, n) == 0`. -/
def Element.isAt (e : Element) (mem : Nat → Byte) (len p : Nat) (tag : List Byte) :
    List Access × Bool :=
  if e.room len p tag.length then strncmp mem p tag else ([], false)

/-- `strcpy(d, p)`, when the NUL is at `pr`. -/
def copyTail (mem : Nat → Byte) (s : Pointers) : List Access × Pointers :=
  ((List.range (s.pr - s.p + 1)).flatMap fun i => [.read (s.p + i), .write (s.d + i)],
    { s with newstr := store s.newstr s.d (load mem s.p (s.pr - s.p) ++ [0#8]) })

/-- One step: what it reads and writes, and the variables behind it. The text is `len` bytes and a
NUL of the memory `mem`. -/
def pointerStep (mem : Nat → Byte) (len : Nat) (s : Pointers) : Option (List Access × Pointers) :=
  match s.place with
  | .head =>
    if mem s.p = 60#8 then
      let (reads, here) := Element.blockquote.isAt mem len s.p blockquote
      some (.read s.p :: reads,
        if here then { s with place := .skip .blockquote, p := s.p + blockquote.length }
        else { s with place := .chain })
    else
      some ([.read s.p, .write s.d],
        { s with
          place := .test, p := s.p + 1, d := s.d + 1, newstr := store s.newstr s.d [mem s.p] })
  | .skip e =>
    if mem s.p = 0#8 then some ([.read s.p], { s with place := e.next })
    else
      let (reads, here) := if mem s.p = 60#8 then e.isAt mem len s.p e.closing else ([], false)
      some (.read s.p :: reads,
        if here then { s with place := e.next, p := s.p + e.closing.length }
        else { s with p := s.p + 1 })
  | .chain =>
    let (reads, here) := Element.script.isAt mem len s.p script
    if here then some (reads, { s with place := .skip .script, p := s.p + script.length })
    else
      let (reads', here) := Element.style.isAt mem len s.p style
      some (reads ++ reads',
        if here then { s with place := .skip .style, p := s.p + style.length }
        else { s with place := .tag, pr := s.p })
  | .tag =>
    if mem s.pr = 62#8 then some ([.read s.pr], { s with place := .test, p := s.pr + 1 })
    else if mem s.pr = 0#8 then
      let (accesses, s) := copyTail mem s
      some (.read s.pr :: accesses, { s with place := .test, p := s.pr })
    else some ([.read s.pr], { s with pr := s.pr + 1 })
  | .test =>
    some ([.read s.p], { s with place := if mem s.p = 0#8 then .done else .head })
  | .done => none

/-- `newstr` is zeroed. -/
def Pointers.start : Pointers := ⟨.head, 0, 0, 0, fun _ => 0#8⟩

/-- The memory with the captured text and its NUL. -/
def textMem (beyond : Nat → Byte) (text : CString) : Nat → Byte :=
  store beyond 0 (text.bytes ++ [0#8])

/-- The step as a transition. -/
def pointerNext (mem : Nat → Byte) (len : Nat) (s : Pointers) (_ : Unit) : Option Pointers :=
  (pointerStep mem len s).map Prod.snd

/-- Reading up to the NUL of the text, and writing into its `len + 1` bytes. -/
def Access.Within (len : Nat) : Access → Prop
  | .read i => i ≤ len
  | .write i => i < len + 1

/-- Each access of the function is inside the text and the new string. -/
def ContentInBounds (beyond : Nat → Byte) (text : CString) : Prop :=
  ∀ s, Reach (pointerNext (textMem beyond text) text.bytes.length) Any .start s →
    ∀ accesses s', pointerStep (textMem beyond text) text.bytes.length s = some (accesses, s') →
      ∀ a ∈ accesses, a.Within text.bytes.length

/-! ## The bounds -/

section Bounds

variable {mem : Nat → Byte} {len : Nat} {s : Pointers}

/-- The text ends at `len`. -/
structure Ends (mem : Nat → Byte) (len : Nat) : Prop where
  nul : mem len = 0#8
  text : ∀ i < len, mem i ≠ 0#8

theorem Ends.lt (h : Ends mem len) {i : Nat} (le : i ≤ len) (byte : mem i ≠ 0#8) : i < len := by
  apply Nat.lt_of_le_of_ne le
  rintro rfl
  exact byte h.nul

theorem Ends.eq (h : Ends mem len) {i : Nat} (le : i ≤ len) (nul : mem i = 0#8) : i = len := by
  by_contra other
  exact h.text i (Nat.lt_of_le_of_ne le other) nul

theorem textMem_ends (beyond : Nat → Byte) (text : CString) :
    Ends (textMem beyond text) text.bytes.length where
  nul := by
    have last := store_inside beyond 0 (i := text.bytes.length) (l := text.bytes ++ [0#8]) (by simp)
    rw [Nat.zero_add] at last
    rw [textMem, last]
    simp
  text i hi := by
    have inside := store_inside beyond 0 (i := i) (l := text.bytes ++ [0#8])
      (by simp only [List.length_append]; omega)
    rw [Nat.zero_add, List.getElem_append_left hi] at inside
    rw [textMem, inside]
    intro nul
    exact text.noNul (nul ▸ List.getElem_mem hi)

theorem strncmp_within {tag : List Byte} : ∀ {p : Nat}, p + tag.length ≤ len →
    ∀ a ∈ (strncmp mem p tag).1, a.Within len := by
  induction tag with
  | nil =>
    intro p _ a ha
    cases ha
  | cons b tag ih =>
    intro p room a ha
    rw [List.length_cons] at room
    have here : (Access.read p).Within len := by
      show p ≤ len
      omega
    unfold strncmp at ha
    split at ha
    · obtain rfl | ha := List.mem_cons.1 ha
      · exact here
      · exact ih (by omega) a ha
    · cases List.mem_singleton.1 ha
      exact here

theorem Element.room_le {e : Element} {p n : Nat} (inside : p ≤ len) (h : e.room len p n) :
    p + n ≤ len := by
  unfold Element.room at h
  rw [if_pos inside, decide_eq_true_eq] at h
  omega

theorem Element.isAt_within {e : Element} {p : Nat} {tag : List Byte} (inside : p ≤ len) :
    ∀ a ∈ (e.isAt mem len p tag).1, a.Within len := by
  unfold Element.isAt
  split
  · rename_i room
    exact strncmp_within (e.room_le inside room)
  · nofun

theorem Element.isAt_le {e : Element} {p : Nat} {tag : List Byte} (inside : p ≤ len)
    (here : (e.isAt mem len p tag).2) : p + tag.length ≤ len := by
  unfold Element.isAt at here
  split at here
  · rename_i room
    exact e.room_le inside room
  · cases here

/-- Where the pointers are: `d` is never in front of `p`, and at the head of the loop there is a
byte to read. -/
structure Inside (mem : Nat → Byte) (len : Nat) (s : Pointers) : Prop where
  p_le : s.p ≤ len
  d_le : s.d ≤ s.p
  head : s.place = .head → s.p < len
  tag : s.place = .tag → s.p ≤ s.pr ∧ s.pr ≤ len

theorem Inside.start (nonEmpty : 0 < len) : Inside mem len .start where
  p_le := Nat.zero_le _
  d_le := Nat.le_refl _
  head _ := nonEmpty
  tag here := by cases here

theorem copyTail_within (tag : s.p ≤ s.pr ∧ s.pr ≤ len) (d_le : s.d ≤ s.p) :
    ∀ a ∈ (copyTail mem s).1, a.Within len := by
  intro a ha
  obtain ⟨i, hi, ha⟩ := List.mem_flatMap.1 ha
  rw [List.mem_range] at hi
  simp only [List.mem_cons, List.not_mem_nil, or_false] at ha
  obtain rfl | rfl := ha
  · show s.p + i ≤ len
    omega
  · show s.d + i < len + 1
    omega

/-- What a step reads and writes is inside, and so are the pointers behind it. -/
def StepsInside (mem : Nat → Byte) (len : Nat) (step : Option (List Access × Pointers)) : Prop :=
  ∀ accesses s', step = some (accesses, s') → (∀ a ∈ accesses, a.Within len) ∧ Inside mem len s'

theorem stepsInside_some {accesses : List Access} (within : ∀ a ∈ accesses, a.Within len)
    (inside : Inside mem len s) : StepsInside mem len (some (accesses, s)) := by
  rintro _ _ ⟨⟩
  exact ⟨within, inside⟩

variable {p pr d : Nat} {newstr : Nat → Byte}

theorem Inside.read {place : Place} (h : Inside mem len ⟨place, p, pr, d, newstr⟩) :
    (Access.read p).Within len := h.p_le

/-- Behind a tag the pointers are inside, wherever the function goes on but at its head. -/
theorem Inside.behind {place place' : Place} {n : Nat}
    (h : Inside mem len ⟨place, p, pr, d, newstr⟩) (room : p + n ≤ len) (notHead : place' ≠ .head)
    (notTag : place' ≠ .tag) : Inside mem len ⟨place', p + n, pr, d, newstr⟩ where
  p_le := room
  d_le := Nat.le_add_right_of_le h.d_le
  head here := absurd here notHead
  tag here := absurd here notTag

theorem Element.next_ne (e : Element) : e.next ≠ .head ∧ e.next ≠ .tag := by
  cases e <;> decide

theorem Inside.step_head (h : Inside mem len ⟨.head, p, pr, d, newstr⟩) :
    StepsInside mem len (pointerStep mem len ⟨.head, p, pr, d, newstr⟩) := by
  simp only [pointerStep]
  split
  · apply stepsInside_some
    · exact List.forall_mem_cons.2 ⟨h.read, Element.isAt_within h.p_le⟩
    · split
      · rename_i here
        exact h.behind (Element.isAt_le h.p_le here) nofun nofun
      · exact ⟨h.p_le, h.d_le, nofun, nofun⟩
  · have write : (Access.write d).Within len := Nat.lt_succ_of_le (Nat.le_trans h.d_le h.p_le)
    apply stepsInside_some
    · exact List.forall_mem_cons.2 ⟨h.read, List.forall_mem_singleton.2 write⟩
    · exact ⟨h.head rfl, Nat.succ_le_succ h.d_le, nofun, nofun⟩

theorem Inside.step_skip (ends : Ends mem len) {e : Element}
    (h : Inside mem len ⟨.skip e, p, pr, d, newstr⟩) :
    StepsInside mem len (pointerStep mem len ⟨.skip e, p, pr, d, newstr⟩) := by
  simp only [pointerStep]
  split
  · apply stepsInside_some
    · exact List.forall_mem_singleton.2 h.read
    · exact h.behind (n := 0) h.p_le e.next_ne.1 e.next_ne.2
  · rename_i byte
    have on : Inside mem len ⟨.skip e, p + 1, pr, d, newstr⟩ :=
      h.behind (ends.lt h.p_le byte) nofun nofun
    split
    · apply stepsInside_some
      · exact List.forall_mem_cons.2 ⟨h.read, Element.isAt_within h.p_le⟩
      · split
        · rename_i here
          exact h.behind (Element.isAt_le h.p_le here) e.next_ne.1 e.next_ne.2
        · exact on
    · apply stepsInside_some
      · exact List.forall_mem_cons.2 ⟨h.read, List.forall_mem_nil _⟩
      · exact on

theorem Inside.step_chain (h : Inside mem len ⟨.chain, p, pr, d, newstr⟩) :
    StepsInside mem len (pointerStep mem len ⟨.chain, p, pr, d, newstr⟩) := by
  simp only [pointerStep]
  split
  · rename_i here
    apply stepsInside_some
    · exact Element.isAt_within h.p_le
    · exact h.behind (Element.isAt_le h.p_le here) nofun nofun
  · apply stepsInside_some
    · exact List.forall_mem_append.2 ⟨Element.isAt_within h.p_le, Element.isAt_within h.p_le⟩
    · split
      · rename_i here
        exact h.behind (Element.isAt_le h.p_le here) nofun nofun
      · exact ⟨h.p_le, h.d_le, nofun, fun _ => ⟨Nat.le_refl _, h.p_le⟩⟩

theorem Inside.step_tag (ends : Ends mem len) (h : Inside mem len ⟨.tag, p, pr, d, newstr⟩) :
    StepsInside mem len (pointerStep mem len ⟨.tag, p, pr, d, newstr⟩) := by
  obtain ⟨p_le_pr, pr_le⟩ := h.tag rfl
  have read : (Access.read pr).Within len := pr_le
  have d_le_pr : d ≤ pr := Nat.le_trans h.d_le p_le_pr
  simp only [pointerStep]
  split
  · rename_i closes
    have pr_lt : pr < len := ends.lt pr_le (by rw [closes]; decide)
    apply stepsInside_some
    · exact List.forall_mem_singleton.2 read
    · exact ⟨pr_lt, Nat.le_succ_of_le d_le_pr, nofun, nofun⟩
  · split
    · apply stepsInside_some
      · exact List.forall_mem_cons.2 ⟨read, copyTail_within ⟨p_le_pr, pr_le⟩ h.d_le⟩
      · exact ⟨pr_le, d_le_pr, nofun, nofun⟩
    · rename_i byte
      apply stepsInside_some
      · exact List.forall_mem_singleton.2 read
      · exact ⟨h.p_le, h.d_le, nofun, fun _ => ⟨Nat.le_succ_of_le p_le_pr, ends.lt pr_le byte⟩⟩

theorem Inside.step_test (ends : Ends mem len) (h : Inside mem len ⟨.test, p, pr, d, newstr⟩) :
    StepsInside mem len (pointerStep mem len ⟨.test, p, pr, d, newstr⟩) := by
  apply stepsInside_some
  · exact List.forall_mem_singleton.2 h.read
  · by_cases nul : mem p = 0#8
    · simp only [if_pos nul]
      exact ⟨h.p_le, h.d_le, nofun, nofun⟩
    · simp only [if_neg nul]
      exact ⟨h.p_le, h.d_le, fun _ => ends.lt h.p_le nul, nofun⟩

/-- **One step: its accesses, and the variables behind it.** -/
theorem Inside.step (ends : Ends mem len) (h : Inside mem len s) {accesses : List Access}
    {s' : Pointers} (taken : pointerStep mem len s = some (accesses, s')) :
    (∀ a ∈ accesses, a.Within len) ∧ Inside mem len s' := by
  obtain ⟨place, p, pr, d, newstr⟩ := s
  cases place with
  | head => exact h.step_head _ _ taken
  | skip e => exact h.step_skip ends _ _ taken
  | chain => exact h.step_chain _ _ taken
  | tag => exact h.step_tag ends _ _ taken
  | test => exact h.step_test ends _ _ taken
  | done => cases taken

end Bounds

/-- The NUL of an empty text is copied, and the test reads behind it. -/
theorem empty_not_inBounds (beyond : Nat → Byte) {text : CString} (empty : text.bytes = []) :
    ¬ ContentInBounds beyond text := by
  have ends := textMem_ends beyond text
  have length : text.bytes.length = 0 := by rw [empty]; rfl
  intro inBounds
  rw [ContentInBounds, length] at inBounds
  rw [length] at ends
  have copies : pointerStep (textMem beyond text) 0 .start = some ([.read 0, .write 0],
      ⟨.test, 1, 0, 1, store (fun _ => 0#8) 0 [textMem beyond text 0]⟩) := by
    simp [pointerStep, Pointers.start, ends.nul]
  have reached : Reach (pointerNext (textMem beyond text) 0) Any .start
      ⟨.test, 1, 0, 1, store (fun _ => 0#8) 0 [textMem beyond text 0]⟩ :=
    Reach.one (a := ()) trivial (by rw [pointerNext, copies]; rfl)
  have inside := inBounds _ reached _ _ rfl (.read 1) List.mem_cons_self
  exact absurd inside (by show ¬ 1 ≤ 0; omega)

/-- **The function stays inside the text and the new string if and only if the text is not
empty.** -/
theorem content_in_bounds_iff (beyond : Nat → Byte) (text : CString) :
    ContentInBounds beyond text ↔ text.bytes ≠ [] := by
  have ends := textMem_ends beyond text
  constructor
  · intro inBounds empty
    exact empty_not_inBounds beyond empty inBounds
  · intro nonEmpty s reached accesses s' taken
    have inside : Inside (textMem beyond text) text.bytes.length s := by
      apply reached.invariant (.start (List.length_pos_iff.2 nonEmpty))
      intro s _ s' _ inside _ taken
      obtain ⟨step, taken', rfl⟩ := Option.map_eq_some_iff.1 taken
      exact (inside.step ends taken').2
    exact (inside.step ends taken).1

/-- A group that matches the empty string, in front of a letter. -/
theorem content_reads_behind : ¬ ContentInBounds (fun _ => 120#8) .empty :=
  empty_not_inBounds _ rfl

/-! ## What the function gives -/

/-- What `passTag` does behind a block quotation. -/
def passChain (p : List Byte) : List Byte × List Byte :=
  if script.isPrefixOf p then ([], behind scriptEnd (p.drop script.length))
  else if style.isPrefixOf p then ([], behind styleEnd (p.drop style.length))
  else
    match p.dropWhile (· != 62#8) with
    | [] => (p, [])
    | _ :: p => ([], p)

theorem passTag_chain (p : List Byte) :
    passTag p = passChain (if blockquote.isPrefixOf p then
      behind blockquoteEnd (p.drop blockquote.length) else p) := rfl

section Content

variable {mem : Nat → Byte} {len : Nat}

/-- The text from `p` on. -/
def rest (mem : Nat → Byte) (len p : Nat) : List Byte := load mem p (len - p)

theorem rest_length {p : Nat} : (rest mem len p).length = len - p := load_length _ _ _

theorem rest_end : rest mem len len = [] := by
  rw [rest, Nat.sub_self]
  rfl

theorem rest_cons {p : Nat} (inside : p < len) :
    rest mem len p = mem p :: rest mem len (p + 1) := by
  have split : len - p = 1 + (len - (p + 1)) := by omega
  rw [rest, split, load_add]
  rfl

theorem rest_drop {p : Nat} (n : Nat) (inside : p + n ≤ len) :
    (rest mem len p).drop n = rest mem len (p + n) := by
  have split : len - p = n + (len - (p + n)) := by omega
  rw [rest, split, load_add, List.drop_left' (load_length _ _ _)]
  rfl

theorem strncmp_prefix {tag : List Byte} : ∀ {p : Nat}, p + tag.length ≤ len →
    (strncmp mem p tag).2 = tag.isPrefixOf (rest mem len p) := by
  induction tag with
  | nil =>
    intro p _
    rfl
  | cons b tag ih =>
    intro p room
    rw [List.length_cons] at room
    rw [rest_cons (by omega), strncmp, List.isPrefixOf_cons_cons]
    by_cases same : mem p = b
    · rw [if_pos same, same, beq_self_eq_true, Bool.true_and]
      exact ih (by omega)
    · rw [if_neg same, beq_eq_false_iff_ne.2 (Ne.symm same), Bool.false_and]

/-- The comparison asks whether the text goes on with the tag. -/
theorem Element.isAt_prefix (e : Element) {p : Nat} (tag : List Byte) (inside : p ≤ len) :
    (e.isAt mem len p tag).2 = tag.isPrefixOf (rest mem len p) := by
  have room : e.room len p tag.length = decide (tag.length ≤ len - p) := by
    unfold Element.room
    rw [if_pos inside]
  unfold Element.isAt
  rw [room]
  by_cases fits : tag.length ≤ len - p
  · rw [if_pos (decide_eq_true fits)]
    apply strncmp_prefix
    omega
  · rw [if_neg (by simpa using fits)]
    symm
    rw [Bool.eq_false_iff]
    intro starts
    have le := (List.isPrefixOf_iff_prefix.1 starts).length_le
    rw [rest_length] at le
    exact fits le

theorem pointer_reach {s s' : Pointers} {accesses : List Access}
    (taken : pointerStep mem len s = some (accesses, s')) :
    Reach (pointerNext mem len) Any s s' :=
  Reach.one (a := ()) trivial (by rw [pointerNext, taken]; rfl)

theorem Element.closing_head (e : Element) : ∃ tag, e.closing = 60#8 :: tag := by
  cases e <;> exact ⟨_, rfl⟩

/-- The loop behind an opening tag ends behind the closing one. -/
theorem skip_run (ends : Ends mem len) (e : Element) (pr d : Nat) (m : Nat → Byte) {n : Nat} :
    ∀ {p : Nat}, p + n = len →
      ∃ p', p ≤ p' ∧ p' ≤ len ∧ rest mem len p' = behind e.closing (rest mem len p) ∧
        Reach (pointerNext mem len) Any ⟨.skip e, p, pr, d, m⟩ ⟨e.next, p', pr, d, m⟩ := by
  have stops : Reach (pointerNext mem len) Any ⟨.skip e, len, pr, d, m⟩ ⟨e.next, len, pr, d, m⟩ := by
    apply pointer_reach
    rw [pointerStep]
    exact if_pos ends.nul
  have atEnd : rest mem len len = behind e.closing (rest mem len len) := by
    rw [rest_end]
    rfl
  induction n with
  | zero =>
    rintro p rfl
    exact ⟨p, Nat.le_refl _, Nat.le_refl _, atEnd, stops⟩
  | succ n ih =>
    intro p left
    have p_lt : p < len := by omega
    have inside := Nat.le_of_lt p_lt
    have byte := ends.text p p_lt
    rw [rest_cons p_lt, behind, ← rest_cons p_lt]
    by_cases here : e.closing.isPrefixOf (rest mem len p)
    · -- the closing tag
      have same : (e.isAt mem len p e.closing).2 = true := by
        rw [e.isAt_prefix e.closing inside, here]
      have fits := e.isAt_le inside same
      have open_ : mem p = 60#8 := by
        obtain ⟨tag, closing⟩ := e.closing_head
        rw [closing, rest_cons p_lt, List.isPrefixOf_cons_cons, Bool.and_eq_true, beq_iff_eq] at here
        exact here.1.symm
      refine ⟨p + e.closing.length, Nat.le_add_right _ _, fits, ?_, ?_⟩
      · rw [if_pos here, rest_drop _ fits]
      · apply pointer_reach
        simp only [pointerStep, if_neg byte, if_pos open_, same, if_true]
        rfl
    · have step : Reach (pointerNext mem len) Any ⟨.skip e, p, pr, d, m⟩
          ⟨.skip e, p + 1, pr, d, m⟩ := by
        have other : (if mem p = 60#8 then e.isAt mem len p e.closing else ([], false)).2 =
            false := by
          split
          · rw [e.isAt_prefix e.closing inside]
            exact Bool.eq_false_iff.2 here
          · rfl
        apply pointer_reach
        simp only [pointerStep, if_neg byte, other]
        rfl
      obtain ⟨p', from_, upTo, rest', run⟩ := ih (show p + 1 + n = len by omega)
      refine ⟨p', by omega, upTo, ?_, step.trans run⟩
      rw [if_neg here]
      exact rest'

/-- The loop that looks for `>`. -/
theorem tag_run (ends : Ends mem len) (p d : Nat) (m : Nat → Byte) {n : Nat} :
    ∀ {pr : Nat}, p ≤ pr → pr + n = len →
      ∃ p' pr', p ≤ p' ∧ p' ≤ len ∧
        match (rest mem len pr).dropWhile (· != 62#8) with
        | [] => p' = len ∧ Reach (pointerNext mem len) Any ⟨.tag, p, pr, d, m⟩
            ⟨.test, p', pr', d, store m d (rest mem len p ++ [0#8])⟩
        | _ :: q => p < p' ∧ rest mem len p' = q ∧
            Reach (pointerNext mem len) Any ⟨.tag, p, pr, d, m⟩ ⟨.test, p', pr', d, m⟩ := by
  have stops (inside : p ≤ len) : Reach (pointerNext mem len) Any ⟨.tag, p, len, d, m⟩
      ⟨.test, len, len, d, store m d (rest mem len p ++ [0#8])⟩ := by
    apply pointer_reach
    simp only [pointerStep, ends.nul]
    rfl
  induction n with
  | zero =>
    rintro pr le rfl
    refine ⟨pr, pr, le, Nat.le_refl _, ?_⟩
    rw [show pr + 0 = pr from rfl, rest_end]
    exact ⟨rfl, stops le⟩
  | succ n ih =>
    intro pr le left
    have pr_lt : pr < len := by omega
    by_cases closes : mem pr = 62#8
    · refine ⟨pr + 1, pr, by omega, pr_lt, ?_⟩
      rw [rest_cons pr_lt, List.dropWhile_cons_of_neg (by simp [closes])]
      refine ⟨by omega, rfl, ?_⟩
      apply pointer_reach
      rw [pointerStep]
      exact if_pos closes
    · have step : Reach (pointerNext mem len) Any ⟨.tag, p, pr, d, m⟩ ⟨.tag, p, pr + 1, d, m⟩ := by
        apply pointer_reach
        simp only [pointerStep, if_neg closes, if_neg (ends.text pr pr_lt)]
        rfl
      obtain ⟨p', pr', from_, upTo, run⟩ := ih (Nat.le_succ_of_le le)
        (show pr + 1 + n = len by omega)
      refine ⟨p', pr', from_, upTo, ?_⟩
      rw [rest_cons pr_lt, List.dropWhile_cons_of_pos (by simp [closes])]
      revert run
      cases (rest mem len (pr + 1)).dropWhile (· != 62#8) with
      | nil => exact fun run => ⟨run.1, step.trans run.2⟩
      | cons b q => exact fun run => ⟨run.1, run.2.1, step.trans run.2.2⟩

/-- Behind a tag that began at `p`: what has been copied is nothing, or all that was left. -/
structure After (mem : Nat → Byte) (len p d : Nat) (m : Nat → Byte) (pass : List Byte × List Byte)
    (s : Pointers) : Prop where
  place : s.place = .test
  le : p ≤ s.p
  lt : p < len → p < s.p
  p_le : s.p ≤ len
  d_eq : s.d = d
  rest_eq : rest mem len s.p = pass.2
  copied : (pass.1 = [] ∧ s.newstr = m) ∨ (s.p = len ∧ s.newstr = store m d (pass.1 ++ [0#8]))

/-- Behind the opening tag of a script or a style. -/
theorem element_run (ends : Ends mem len) {p : Nat} (pr d : Nat) (m : Nat → Byte) (e : Element)
    (next : e.next = .test) (tag : 0 < e.opening.length)
    (here : e.opening.isPrefixOf (rest mem len p))
    (step : Reach (pointerNext mem len) Any ⟨.chain, p, pr, d, m⟩
      ⟨.skip e, p + e.opening.length, pr, d, m⟩) :
    ∃ s, Reach (pointerNext mem len) Any ⟨.chain, p, pr, d, m⟩ s ∧
      After mem len p d m ([], behind e.closing ((rest mem len p).drop e.opening.length)) s := by
  have fits : p + e.opening.length ≤ len := by
    have le := (List.isPrefixOf_iff_prefix.1 here).length_le
    rw [rest_length] at le
    omega
  obtain ⟨p', from_, upTo, rest', run⟩ := skip_run ends e pr d m (Nat.add_sub_of_le fits)
  rw [rest_drop _ fits]
  refine ⟨_, step.trans run, next, ?_, ?_, upTo, rfl, rest', .inl ⟨rfl, rfl⟩⟩
  · show p ≤ p'
    omega
  · intro _
    show p < p'
    omega

theorem chain_run (ends : Ends mem len) {p : Nat} (pr d : Nat) (m : Nat → Byte) (inside : p ≤ len) :
    ∃ s, Reach (pointerNext mem len) Any ⟨.chain, p, pr, d, m⟩ s ∧
      After mem len p d m (passChain (rest mem len p)) s := by
  have scriptAt : (Element.script.isAt mem len p script).2 = script.isPrefixOf (rest mem len p) :=
    Element.isAt_prefix _ script inside
  have styleAt : (Element.style.isAt mem len p style).2 = style.isPrefixOf (rest mem len p) :=
    Element.isAt_prefix _ style inside
  rw [passChain]
  by_cases isScript : script.isPrefixOf (rest mem len p)
  · rw [if_pos isScript]
    apply element_run ends pr d m .script rfl (by decide) isScript
    apply pointer_reach
    simp only [pointerStep, scriptAt, if_pos isScript]
    rfl
  · rw [if_neg isScript]
    by_cases isStyle : style.isPrefixOf (rest mem len p)
    · rw [if_pos isStyle]
      apply element_run ends pr d m .style rfl (by decide) isStyle
      apply pointer_reach
      simp only [pointerStep, scriptAt, if_neg isScript, styleAt, if_pos isStyle]
      rfl
    · rw [if_neg isStyle]
      have step : Reach (pointerNext mem len) Any ⟨.chain, p, pr, d, m⟩ ⟨.tag, p, p, d, m⟩ := by
        apply pointer_reach
        simp only [pointerStep, scriptAt, if_neg isScript, styleAt, if_neg isStyle]
        rfl
      obtain ⟨p', pr', from_, upTo, run⟩ :=
        tag_run ends p d m (Nat.le_refl p) (Nat.add_sub_of_le inside)
      revert run
      cases (rest mem len p).dropWhile (· != 62#8) with
      | nil =>
        rintro ⟨rfl, run⟩
        exact ⟨_, step.trans run, rfl, inside, id, upTo, rfl, rest_end, .inr ⟨rfl, rfl⟩⟩
      | cons b q =>
        rintro ⟨lt, rest', run⟩
        exact ⟨_, step.trans run, rfl, from_, fun _ => lt, upTo, rfl, rest', .inl ⟨rfl, rfl⟩⟩

/-- At a `<`. -/
theorem passTag_run (ends : Ends mem len) {p : Nat} (pr d : Nat) (m : Nat → Byte) (inside : p < len)
    (open_ : mem p = 60#8) :
    ∃ s, Reach (pointerNext mem len) Any ⟨.head, p, pr, d, m⟩ s ∧
      After mem len p d m (passTag (rest mem len p)) s := by
  have quoteAt : (Element.blockquote.isAt mem len p blockquote).2 =
      blockquote.isPrefixOf (rest mem len p) :=
    Element.isAt_prefix _ blockquote (Nat.le_of_lt inside)
  rw [passTag_chain]
  by_cases quote : blockquote.isPrefixOf (rest mem len p)
  · rw [if_pos quote]
    have fits : p + blockquote.length ≤ len :=
      Element.isAt_le (e := .blockquote) (Nat.le_of_lt inside) (quoteAt.trans quote)
    have step : Reach (pointerNext mem len) Any ⟨.head, p, pr, d, m⟩
        ⟨.skip .blockquote, p + blockquote.length, pr, d, m⟩ := by
      apply pointer_reach
      simp only [pointerStep, if_pos open_, quoteAt, if_pos quote]
      rfl
    obtain ⟨p₁, from_, upTo, rest', skip⟩ :=
      skip_run ends .blockquote pr d m (Nat.add_sub_of_le fits)
    obtain ⟨s, chain, after⟩ := chain_run ends pr d m upTo
    have same : rest mem len p₁ =
        behind blockquoteEnd ((rest mem len p).drop blockquote.length) := by
      rw [rest_drop _ fits]
      exact rest'
    have lt : p < p₁ := Nat.lt_of_lt_of_le (Nat.lt_add_of_pos_right (by decide)) from_
    rw [same] at after
    refine ⟨s, (step.trans skip).trans chain, { after with le := ?_, lt := fun _ => ?_ }⟩
    · exact Nat.le_trans (Nat.le_of_lt lt) after.le
    · exact Nat.lt_of_lt_of_le lt after.le
  · rw [if_neg quote]
    have step : Reach (pointerNext mem len) Any ⟨.head, p, pr, d, m⟩ ⟨.chain, p, pr, d, m⟩ := by
      apply pointer_reach
      simp only [pointerStep, if_pos open_, quoteAt, if_neg quote]
      rfl
    obtain ⟨s, chain, after⟩ := chain_run ends pr d m (Nat.le_of_lt inside)
    exact ⟨s, step.trans chain, after⟩

@[simp] theorem contentLoop_nil (n : Nat) : contentLoop n [] = [] := by
  cases n <;> rfl

theorem contentLoop_letter {n : Nat} {b : Byte} (p : List Byte) (other : b ≠ 60#8) :
    contentLoop (n + 1) (b :: p) = b :: contentLoop n p := by
  rw [contentLoop]
  exact other

/-- The rounds of the loop, from a byte of the text on. -/
theorem content_run (ends : Ends mem len) {n : Nat} :
    ∀ {p : Nat} (pr : Nat) (out : List Byte), p < len → len - p ≤ n →
      ∃ s, Reach (pointerNext mem len) Any
          ⟨.head, p, pr, out.length, store (fun _ => 0#8) 0 out⟩ s ∧
        s.place = .done ∧
          s.newstr = store (fun _ => 0#8) 0 (out ++ contentLoop n (rest mem len p)) := by
  -- the test at the end of the text
  have stops (pr d : Nat) (m : Nat → Byte) :
      Reach (pointerNext mem len) Any ⟨.test, len, pr, d, m⟩ ⟨.done, len, pr, d, m⟩ := by
    apply pointer_reach
    simp only [pointerStep, ends.nul]
    rfl
  have goesOn {p : Nat} (pr d : Nat) (m : Nat → Byte) (inside : p < len) :
      Reach (pointerNext mem len) Any ⟨.test, p, pr, d, m⟩ ⟨.head, p, pr, d, m⟩ := by
    apply pointer_reach
    simp only [pointerStep, if_neg (ends.text p inside)]
    rfl
  induction n with
  | zero =>
    intro p pr out inside enough
    omega
  | succ n ih =>
    intro p pr out inside enough
    -- the rounds behind the first one, which has kept `more` and ended at `p'`
    have behind_ {p' : Nat} (pr' : Nat) (more : List Byte) (lt : p < p') (p_le : p' ≤ len) :
        ∃ s, Reach (pointerNext mem len) Any
            ⟨.test, p', pr', (out ++ more).length, store (fun _ => 0#8) 0 (out ++ more)⟩ s ∧
          s.place = .done ∧ s.newstr =
            store (fun _ => 0#8) 0 (out ++ (more ++ contentLoop n (rest mem len p'))) := by
      rw [← List.append_assoc]
      by_cases last : p' = len
      · subst last
        refine ⟨_, stops pr' _ _, rfl, ?_⟩
        rw [rest_end, contentLoop_nil, List.append_nil]
      · have inside' := Nat.lt_of_le_of_ne p_le last
        obtain ⟨s, run, done_, newstr⟩ := ih pr' (out ++ more) inside' (by omega)
        exact ⟨s, (goesOn _ _ _ inside').trans run, done_, newstr⟩
    by_cases open_ : mem p = 60#8
    · obtain ⟨⟨place, p', pr', d', m'⟩, run, after⟩ := passTag_run ends pr out.length
        (store (fun _ => 0#8) 0 out) inside open_
      obtain ⟨rfl, -, lt, p_le, rfl, rest_eq, copied⟩ := after
      have loop : contentLoop (n + 1) (rest mem len p) =
          (passTag (rest mem len p)).1 ++ contentLoop n (rest mem len p') := by
        rw [rest_eq, rest_cons inside, open_]
        rfl
      rw [loop]
      simp only at copied
      obtain ⟨none_, rfl⟩ | ⟨last, rfl⟩ := copied
      · obtain ⟨s, run', done_, newstr⟩ := behind_ pr' [] (lt inside) p_le
        rw [List.append_nil] at run'
        rw [none_]
        exact ⟨s, run.trans run', done_, newstr⟩
      · subst last
        refine ⟨_, run.trans (stops pr' _ _), rfl, ?_⟩
        rw [rest_end, contentLoop_nil, List.append_nil]
        exact Dst.store_holding_nul out _
    · have step : Reach (pointerNext mem len) Any
          ⟨.head, p, pr, out.length, store (fun _ => 0#8) 0 out⟩
          ⟨.test, p + 1, pr, (out ++ [mem p]).length,
            store (fun _ => 0#8) 0 (out ++ [mem p])⟩ := by
        rw [← Dst.store_holding, List.length_append]
        apply pointer_reach
        simp only [pointerStep, if_neg open_]
        rfl
      obtain ⟨s, run, done_, newstr⟩ := behind_ pr [mem p] (Nat.lt_succ_self p) inside
      rw [rest_cons inside, contentLoop_letter _ open_]
      exact ⟨s, step.trans run, done_, newstr⟩

end Content

theorem rest_textMem (beyond : Nat → Byte) (text : CString) :
    rest (textMem beyond text) text.bytes.length 0 = text.bytes := by
  have all := load_store beyond 0 (text.bytes ++ [0#8])
  rw [List.length_append, load_add] at all
  exact (List.append_inj all (load_length _ _ _)).1

/-- **The machine ends with the string that the function over lists gives.** -/
theorem pointers_content (beyond : Nat → Byte) {text : CString} (nonEmpty : text.bytes ≠ []) :
    ∃ s, Reach (pointerNext (textMem beyond text) text.bytes.length) Any .start s ∧
      s.place = .done ∧
        s.newstr = store (fun _ => 0#8) 0 (contentLoop text.bytes.length text.bytes) := by
  obtain ⟨s, run, done_, newstr⟩ := content_run (textMem_ends beyond text) 0 []
    (List.length_pos_iff.2 nonEmpty) (Nat.le_refl _)
  rw [store_nil] at run
  rw [List.nil_append, rest_textMem] at newstr
  exact ⟨s, run, done_, newstr⟩

end SpiderFrame.Page
