import Mathlib.Data.List.Chain
import Mathlib.Data.List.Nodup
import Mathlib.Logic.Function.Basic

/-!
# Circular doubly linked lists

A store of links gives every address a `prev` and a `next`. A ring is stated by
its members in `next` order: `Ring L l` says that consecutive members of `l` are
linked both ways and that the last is linked to the first. Rings do not depend on
where the traversal starts (`Ring.rotate`), so both edits are proved at the end of
the list: `Ring.insert_last` links a node in before the first member and
`Ring.unlink_last` takes the last member out. `walk` is the search that follows
`next` until it is back at its start; `Ring.walk_eq_find?` says that it is `List.find?`.
`traverse` collects the nodes on the way, and `turn` those behind the start, the start last.
-/

namespace SpiderFrame.Base

/-- The two link words of every address. -/
structure Links (α : Type*) where
  prev : α → α
  next : α → α

namespace Links

variable {α : Type*} [DecidableEq α]

def setPrev (L : Links α) (a b : α) : Links α :=
  { L with prev := Function.update L.prev a b }

def setNext (L : Links α) (a b : α) : Links α :=
  { L with next := Function.update L.next a b }

@[simp] theorem setPrev_prev (L : Links α) (a b c : α) :
    (L.setPrev a b).prev c = if c = a then b else L.prev c := by
  simp [setPrev, Function.update_apply]

@[simp] theorem setPrev_next (L : Links α) (a b : α) : (L.setPrev a b).next = L.next := rfl

@[simp] theorem setNext_next (L : Links α) (a b c : α) :
    (L.setNext a b).next c = if c = a then b else L.next c := by
  simp [setNext, Function.update_apply]

@[simp] theorem setNext_prev (L : Links α) (a b : α) : (L.setNext a b).prev = L.prev := rfl

end Links

variable {α : Type*}

/-- `b` follows `a`, seen from both ends. -/
def Linked (L : Links α) (a b : α) : Prop := L.next a = b ∧ L.prev b = a

/-- The members `l`, in `next` order from the first, form a closed cycle. -/
structure Ring (L : Links α) (l : List α) : Prop where
  nodup : l.Nodup
  closed : List.IsChain (Linked L) (l ++ l.head?.toList)

/-- A store in which the members of `l` keep both their links. -/
def SameOn (l : List α) (L L' : Links α) : Prop :=
  ∀ a ∈ l, L'.next a = L.next a ∧ L'.prev a = L.prev a

/-- A chain reads `next` of all its nodes but the last and `prev` of all but the first. -/
theorem chain_transport {L L' : Links α} : ∀ {l : List α}, List.IsChain (Linked L) l →
    (∀ a ∈ l.dropLast, L'.next a = L.next a) → (∀ a ∈ l.tail, L'.prev a = L.prev a) →
    List.IsChain (Linked L') l
  | [], _, _, _ => .nil
  | [a], _, _, _ => .singleton a
  | a :: b :: l, h, hn, hp => by
    obtain ⟨hab, hl⟩ := List.isChain_cons_cons.1 h
    refine List.isChain_cons_cons.2 ⟨⟨?_, ?_⟩, chain_transport hl ?_ ?_⟩
    · exact (hn a (by simp)).trans hab.1
    · exact (hp b (by simp)).trans hab.2
    · exact fun c hc => hn c (by simp [hc])
    · exact fun c hc => hp c (by simp [List.mem_of_mem_tail hc])

namespace Ring

variable {L L' : Links α} {a x : α} {l xs ys : List α}

theorem empty (L : Links α) : Ring L [] := ⟨List.nodup_nil, .nil⟩

/-- A ring is unchanged by stores that keep the links of its members. -/
theorem frame (h : Ring L l) (same : SameOn l L L') : Ring L' l := by
  have member : ∀ b ∈ l ++ l.head?.toList, b ∈ l := by
    intro b hb
    rcases List.mem_append.1 hb with hb | hb
    · exact hb
    · exact List.mem_of_mem_head? (by simpa using hb)
  refine ⟨h.nodup, chain_transport h.closed (fun b hb => ?_) (fun b hb => ?_)⟩
  · exact (same b (member b (List.dropLast_subset _ hb))).1
  · exact (same b (member b (List.mem_of_mem_tail hb))).2

theorem rotate (h : Ring L (xs ++ ys)) : Ring L (ys ++ xs) := by
  cases xs with
  | nil => simpa using h
  | cons a xs =>
    cases ys with
    | nil => simpa using h
    | cons b ys =>
      refine ⟨List.nodup_append_comm.1 h.nodup, ?_⟩
      have closed := h.closed
      simp only [List.cons_append, List.head?_cons, Option.toList_some, List.append_assoc] at closed ⊢
      rw [← List.cons_append, List.isChain_split] at closed ⊢
      exact ⟨closed.2, closed.1⟩

/-- A ring by its first and last member: a chain and the closing link. -/
theorem iff_ends {p : List α} {z : α} (e : a :: l = p ++ [z]) :
    Ring L (a :: l) ↔ (a :: l).Nodup ∧ List.IsChain (Linked L) (p ++ [z]) ∧ Linked L z a := by
  have whole : a :: l ++ (a :: l).head?.toList = p ++ z :: [a] := by
    rw [List.head?_cons, e]; simp
  have split : List.IsChain (Linked L) (p ++ z :: [a]) ↔
      List.IsChain (Linked L) (p ++ [z]) ∧ Linked L z a := by
    rw [List.isChain_split]; simp
  constructor
  · rintro ⟨nodup, closed⟩
    exact ⟨nodup, split.1 (whole ▸ closed)⟩
  · rintro ⟨nodup, closed⟩
    exact ⟨nodup, whole ▸ split.2 closed⟩

theorem exists_last (a : α) (l : List α) : ∃ p z, a :: l = p ++ [z] :=
  ⟨_, _, (List.dropLast_append_getLast (by simp)).symm⟩

theorem last_not_mem {p : List α} {z : α} (nodup : (p ++ [z]).Nodup) : z ∉ p :=
  fun hz => (List.nodup_append.1 nodup).2.2 z hz z (by simp) rfl

/-- The first member is followed by the second, or by itself. -/
theorem next_first (h : Ring L (a :: l)) : L.next a = l.headD a := by
  have closed := h.closed
  cases l with
  | nil => exact (List.isChain_cons_cons.1 closed).1.1
  | cons b l => exact (List.isChain_cons_cons.1 closed).1.1

theorem neighbours (h : Ring L l) (member : x ∈ l) : L.next x ∈ l ∧ L.prev x ∈ l := by
  obtain ⟨xs, ys, rfl⟩ := List.append_of_mem member
  have turned : Ring L (x :: (ys ++ xs)) := h.rotate
  have same : ∀ b, b ∈ x :: (ys ++ xs) → b ∈ xs ++ x :: ys := by
    intro b hb
    simp only [List.mem_cons, List.mem_append] at hb ⊢
    rcases hb with hb | hb | hb <;> simp [hb]
  constructor
  · apply same
    rw [turned.next_first]
    cases ys ++ xs <;> simp
  · apply same
    obtain ⟨p, z, e⟩ := exists_last x (ys ++ xs)
    rw [((iff_ends e).1 turned).2.2.2, e]
    simp

/-- In a ring `next` and `prev` undo each other. -/
theorem inverse (h : Ring L l) (member : x ∈ l) :
    L.prev (L.next x) = x ∧ L.next (L.prev x) = x := by
  obtain ⟨xs, ys, rfl⟩ := List.append_of_mem member
  have turned : Ring L (x :: (ys ++ xs)) := h.rotate
  constructor
  · have closed := turned.closed
    cases e : ys ++ xs with
    | nil =>
      rw [e] at closed
      obtain ⟨linked, -⟩ := List.isChain_cons_cons.1 closed
      rw [linked.1, linked.2]
    | cons b rest =>
      rw [e] at closed
      obtain ⟨linked, -⟩ := List.isChain_cons_cons.1 closed
      rw [linked.1, linked.2]
  · obtain ⟨p, z, e⟩ := exists_last x (ys ++ xs)
    obtain ⟨-, -, last⟩ := (iff_ends e).1 turned
    rw [last.2, last.1]

section Edits

variable [DecidableEq α]

/-- Link `x` in between `a` and the node before it. -/
def linkBefore (L : Links α) (x a : α) : Links α :=
  let L := L.setNext x a
  let L := L.setPrev x (L.prev a)
  let L := L.setNext (L.prev a) x
  L.setPrev a x

/-- Link the neighbours of `x` to each other. -/
def unlink (L : Links α) (x : α) : Links α :=
  let L := L.setNext (L.prev x) (L.next x)
  L.setPrev (L.next x) (L.prev x)

theorem linkBefore_next (L : Links α) {x a : α} (c : α) (hxa : x ≠ a) :
    (linkBefore L x a).next c = if c = L.prev a then x else if c = x then a else L.next c := by
  simp [linkBefore, Ne.symm hxa]

theorem linkBefore_prev (L : Links α) (x a c : α) :
    (linkBefore L x a).prev c = if c = a then x else if c = x then L.prev a else L.prev c := by
  simp [linkBefore]

theorem unlink_next (L : Links α) (x c : α) :
    (unlink L x).next c = if c = L.prev x then L.next x else L.next c := by
  simp [unlink]

theorem unlink_prev (L : Links α) (x c : α) :
    (unlink L x).prev c = if c = L.next x then L.prev x else L.prev c := by
  simp [unlink]

theorem insert_last (h : Ring L (a :: l)) (fresh : x ∉ a :: l) :
    Ring (linkBefore L x a) (a :: l ++ [x]) := by
  obtain ⟨p, z, e⟩ := exists_last a l
  obtain ⟨nodup, chain, za⟩ := (iff_ends e).1 h
  have hxa : x ≠ a := fun he => fresh (by simp [he])
  have xz : x ≠ z := fun he => fresh (by rw [e, he]; simp)
  have zp : z ∉ p := last_not_mem (e ▸ nodup)
  have al : a ∉ l := (List.nodup_cons.1 nodup).1
  have e' : a :: (l ++ [x]) = (p ++ [z]) ++ [x] := by rw [← e]; simp
  refine (iff_ends e').2 ⟨?_, ?_, ?_⟩
  · have front : ([x] ++ a :: l).Nodup := List.nodup_cons.2 ⟨fresh, nodup⟩
    exact List.nodup_append_comm.1 front
  · -- the chain up to the old last member is kept, then comes `z → x`
    rw [List.append_assoc, List.singleton_append, List.isChain_split]
    constructor
    · refine chain_transport chain (fun b hb => ?_) (fun b hb => ?_)
      · rw [List.dropLast_concat] at hb
        have bz : b ≠ z := fun he => zp (he ▸ hb)
        have bx : b ≠ x := fun he => fresh (by rw [e, ← he]; simp [hb])
        simp [linkBefore_next L b hxa, za.2, bz, bx]
      · rw [← e, List.tail_cons] at hb
        have ba : b ≠ a := fun he => al (he ▸ hb)
        have bx : b ≠ x := fun he => fresh (by rw [← he]; simp [hb])
        simp [linkBefore_prev, ba, bx]
    · simp [Linked, linkBefore_next L z hxa, linkBefore_prev, za.2, hxa]
  · simp [Linked, linkBefore_next L x hxa, linkBefore_prev, za.2, xz]

theorem unlink_last (h : Ring L (l ++ [x])) : Ring (unlink L x) l := by
  cases l with
  | nil => exact empty _
  | cons a l =>
    obtain ⟨p, z, e⟩ := exists_last a l
    have e' : a :: (l ++ [x]) = (p ++ [z]) ++ [x] := by rw [← e]; simp
    obtain ⟨nodup, chain, xa⟩ := (iff_ends e').1 h
    rw [List.append_assoc, List.singleton_append, List.isChain_split] at chain
    obtain ⟨kept, seam⟩ := chain
    have zx : Linked L z x := by simpa using seam
    replace nodup := (List.nodup_append.1 h.nodup).1
    have zp : z ∉ p := last_not_mem (e ▸ nodup)
    have al : a ∉ l := (List.nodup_cons.1 nodup).1
    refine (iff_ends e).2 ⟨nodup, ?_, ?_⟩
    · refine chain_transport kept (fun b hb => ?_) (fun b hb => ?_)
      · rw [List.dropLast_concat] at hb
        have bz : b ≠ z := fun he => zp (he ▸ hb)
        simp [unlink_next, zx.2, bz]
      · rw [← e, List.tail_cons] at hb
        have ba : b ≠ a := fun he => al (he ▸ hb)
        simp [unlink_prev, xa.1, ba]
    · simp [Linked, unlink_next, unlink_prev, zx.2, xa.1]

/-- Take out any member: the others keep their order. -/
theorem unlink_mem (h : Ring L (xs ++ x :: ys)) : Ring (unlink L x) (xs ++ ys) := by
  have turned : Ring L ([x] ++ (ys ++ xs)) := h.rotate
  exact turned.rotate.unlink_last.rotate

/-- Linking a node in writes to the members of the ring and to that node. -/
theorem linkBefore_frame (h : Ring L (a :: l)) (fresh : x ∉ a :: l) {o : List α}
    (out : ∀ b ∈ o, b ∉ a :: l ∧ b ≠ x) : SameOn o L (linkBefore L x a) := by
  intro b hb
  obtain ⟨hb, bx⟩ := out b hb
  have hxa : x ≠ a := fun e => fresh (by simp [e])
  have bp : b ≠ L.prev a := fun he => hb (he ▸ (h.neighbours (by simp)).2)
  have ba : b ≠ a := fun he => hb (by simp [he])
  simp [linkBefore_next L b hxa, linkBefore_prev, bp, ba, bx]

/-- Unlinking a member writes to the members of its ring. -/
theorem unlink_frame (h : Ring L l) (member : x ∈ l) {o : List α} (out : ∀ b ∈ o, b ∉ l) :
    SameOn o L (unlink L x) := by
  intro b hb
  have bn : b ≠ L.next x := fun he => out b hb (he ▸ (h.neighbours member).1)
  have bp : b ≠ L.prev x := fun he => out b hb (he ▸ (h.neighbours member).2)
  simp [unlink_next, unlink_prev, bn, bp]

end Edits

/-! ## Walking a ring -/

/-- A search depends on the test only at the members. -/
theorem find_congr {p q : α → Bool} (same : ∀ b ∈ l, p b = q b) : l.find? p = l.find? q := by
  rw [← List.head?_filter, List.filter_congr same, List.head?_filter]

section Walk

variable [DecidableEq α]

/-- Test the nodes from `cur` on, along `next`, until one passes or the next one is
`start` again. `none` is a walk that has not ended within the fuel. -/
def walk (L : Links α) (test : α → Bool) (start : α) : Nat → α → Option (Option α)
  | 0, _ => none
  | fuel + 1, cur =>
    if test cur then some (some cur)
    else if L.next cur = start then some none
    else walk L test start fuel (L.next cur)

theorem walk_chain (test : α → Bool) (a : α) : ∀ (l : List α) (c : α) (fuel : Nat),
    List.IsChain (Linked L) (c :: l ++ [a]) → a ∉ l → l.length < fuel →
    walk L test a fuel c = some ((c :: l).find? test)
  | _, _, 0, _, _, enough => absurd enough (Nat.not_lt_zero _)
  | [], c, fuel + 1, chain, _, _ => by
    have hc : L.next c = a := (List.isChain_cons_cons.1 chain).1.1
    cases ht : test c <;> simp [walk, hc, ht]
  | b :: l, c, fuel + 1, chain, notin, enough => by
    obtain ⟨hcb, rest⟩ := List.isChain_cons_cons.1 chain
    have hba : b ≠ a := fun he => notin (by simp [he])
    have ih := walk_chain test a l b fuel rest (fun hm => notin (by simp [hm]))
      (by simpa using enough)
    cases ht : test c
    · simp [walk, ht, hcb.1, hba, ih]
    · simp [walk, ht]

/-- **A walk of a ring from its first member is `List.find?`.** -/
theorem walk_eq_find? (h : Ring L (a :: l)) (test : α → Bool) {fuel : Nat}
    (enough : (a :: l).length ≤ fuel) : walk L test a fuel a = some ((a :: l).find? test) :=
  walk_chain test a l a fuel h.closed (List.nodup_cons.1 h.nodup).1 enough

/-- A walk that starts in a ring finds a member. -/
theorem walk_mem (h : Ring L l) {test : α → Bool} {a : α} : ∀ {fuel : Nat} {c : α}, c ∈ l →
    walk L test a fuel c = some (some x) → x ∈ l
  | 0, _, _, run => by cases run
  | fuel + 1, c, member, run => by
    unfold walk at run
    split at run
    · cases run
      exact member
    · split at run
      · cases run
      · exact walk_mem h (h.neighbours member).1 run

/-- The nodes from `cur` on, along `next`, until the next one is `start` again. `none` is a
traversal that has not ended within the fuel. -/
def traverse (L : Links α) (start : α) : Nat → α → Option (List α)
  | 0, _ => none
  | fuel + 1, cur =>
    if L.next cur = start then some [cur]
    else (traverse L start fuel (L.next cur)).map (cur :: ·)

theorem traverse_chain (a : α) : ∀ (l : List α) (c : α) (fuel : Nat),
    List.IsChain (Linked L) (c :: l ++ [a]) → a ∉ l → l.length < fuel →
    traverse L a fuel c = some (c :: l)
  | _, _, 0, _, _, enough => absurd enough (Nat.not_lt_zero _)
  | [], c, fuel + 1, chain, _, _ => by
    have hc : L.next c = a := (List.isChain_cons_cons.1 chain).1.1
    simp [traverse, hc]
  | b :: l, c, fuel + 1, chain, notin, enough => by
    obtain ⟨hcb, rest⟩ := List.isChain_cons_cons.1 chain
    have hba : b ≠ a := fun he => notin (by simp [he])
    have ih := traverse_chain a l b fuel rest (fun hm => notin (by simp [hm]))
      (by simpa using enough)
    simp [traverse, hcb.1, hba, ih]

/-- A traversal of a ring from its first member lists the members. -/
theorem traverse_eq (h : Ring L (a :: l)) {fuel : Nat} (enough : (a :: l).length ≤ fuel) :
    traverse L a fuel a = some (a :: l) :=
  traverse_chain a l a fuel h.closed (List.nodup_cons.1 h.nodup).1 enough

/-- The nodes behind `cur`, along `next`, up to `start` and with it. `none` is a turn that has not
ended within the fuel. -/
def turn (L : Links α) (start : α) : Nat → α → Option (List α)
  | 0, _ => none
  | fuel + 1, cur =>
    if L.next cur = start then some [L.next cur]
    else (turn L start fuel (L.next cur)).map (L.next cur :: ·)

theorem turn_chain (a : α) : ∀ (l : List α) (c : α) (fuel : Nat),
    List.IsChain (Linked L) (c :: l ++ [a]) → a ∉ l → l.length < fuel →
    turn L a fuel c = some (l ++ [a])
  | _, _, 0, _, _, enough => absurd enough (Nat.not_lt_zero _)
  | [], c, fuel + 1, chain, _, _ => by
    have hc : L.next c = a := (List.isChain_cons_cons.1 chain).1.1
    simp [turn, hc]
  | b :: l, c, fuel + 1, chain, notin, enough => by
    obtain ⟨hcb, rest⟩ := List.isChain_cons_cons.1 chain
    have hba : b ≠ a := fun he => notin (by simp [he])
    have ih := turn_chain a l b fuel rest (fun hm => notin (by simp [hm]))
      (by simpa using enough)
    simp [turn, hcb.1, hba, ih]

/-- A turn of a ring from its first member lists the others, and then the first. -/
theorem turn_eq (h : Ring L (a :: l)) {fuel : Nat} (enough : (a :: l).length ≤ fuel) :
    turn L a fuel a = some (l ++ [a]) :=
  turn_chain a l a fuel h.closed (List.nodup_cons.1 h.nodup).1 enough

end Walk

end Ring

end SpiderFrame.Base
