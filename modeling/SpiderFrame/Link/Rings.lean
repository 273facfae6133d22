import SpiderFrame.Link.DualLink

/-!
# Several rings in one store (`sf_linkmodule.c`)

Hash buckets, the variable table and the header list are rings of nodes of one heap, each
reached from a root of its own. A store with any number of roots is compared with one list
for each root: `DualLinkAppend` adds at the end, `DualLinkPush` at the front, and
`DualLinkRemove` takes the item out. `Holds` says that the rings are the lists and share no
node; `linkStep_holds` is the step, `linkRun_holds` the run.
-/

namespace SpiderFrame.Link
open SpiderFrame.Base

variable {ι α : Type*} [DecidableEq ι] [DecidableEq α]

/-- The link words of all nodes, and the roots. -/
structure Rings (ι α : Type*) where
  links : Links α
  root : ι → Option α

/-- A call on the ring of a root. -/
inductive LinkOp (ι α : Type*) where
  | append (i : ι) (item : α)
  | push (i : ι) (item : α)
  | remove (i : ι) (item : α)

def LinkOp.ring : LinkOp ι α → ι
  | .append i _ | .push i _ | .remove i _ => i

/-- The call stores the new links and its root. -/
def Rings.store (h : Rings ι α) (i : ι) (next : Links α × Option α) : Rings ι α :=
  ⟨next.1, Function.update h.root i next.2⟩

def linkStep (h : Rings ι α) : LinkOp ι α → Rings ι α
  | .append i item => h.store i (dualLinkAppend h.links (h.root i) item)
  | .push i item => h.store i (dualLinkPush h.links (h.root i) item)
  | .remove i item => h.store i (dualLinkRemove h.links (h.root i) item)

def linkRun (h : Rings ι α) (ops : List (LinkOp ι α)) : Rings ι α := ops.foldl linkStep h

/-- The list of the ring after a call. -/
def LinkOp.edit : LinkOp ι α → List α → List α
  | .append _ item, l => l ++ [item]
  | .push _ item, l => item :: l
  | .remove _ item, l => l.erase item

def listStep (ls : ι → List α) (op : LinkOp ι α) : ι → List α :=
  Function.update ls op.ring (op.edit (ls op.ring))

def listRun (ls : ι → List α) (ops : List (LinkOp ι α)) : ι → List α := ops.foldl listStep ls

/-- A node put in is in no ring; a node taken out is a member of the ring. -/
def LinkOp.Allowed (ls : ι → List α) : LinkOp ι α → Prop
  | .append _ item | .push _ item => ∀ i, item ∉ ls i
  | .remove i item => item ∈ ls i

def LinkOps.Allowed : (ι → List α) → List (LinkOp ι α) → Prop
  | _, [] => True
  | ls, op :: ops => op.Allowed ls ∧ LinkOps.Allowed (listStep ls op) ops

/-- The rings are the lists, and no node is in two of them. -/
structure Rings.Holds (h : Rings ι α) (ls : ι → List α) : Prop where
  ringAt : ∀ i, RingAt h.links (h.root i) (ls i)
  disjoint : ∀ i j x, x ∈ ls i → x ∈ ls j → i = j

variable {h : Rings ι α} {ls : ι → List α}

/-- What a call writes to: its ring and its item. -/
theorem linkStep_frame (holds : h.Holds ls) {op : LinkOp ι α} (allowed : op.Allowed ls) {j : ι}
    (other : j ≠ op.ring) :
    SameOn (ls j) h.links (linkStep h op).links ∧ (linkStep h op).root j = h.root j := by
  have apart : ∀ b ∈ ls j, b ∉ ls op.ring :=
    fun b hb hb' => other (holds.disjoint j op.ring b hb hb')
  cases op with
  | append i item =>
    refine ⟨dualLinkAppend_frame (holds.ringAt i) (allowed i) fun b hb => ⟨apart b hb, ?_⟩,
      Function.update_of_ne other _ _⟩
    exact fun e => allowed j (e ▸ hb)
  | push i item =>
    refine ⟨dualLinkAppend_frame (holds.ringAt i) (allowed i) fun b hb => ⟨apart b hb, ?_⟩,
      Function.update_of_ne other _ _⟩
    exact fun e => allowed j (e ▸ hb)
  | remove i item =>
    exact ⟨dualLinkRemove_frame (holds.ringAt i) allowed apart, Function.update_of_ne other _ _⟩

/-- The ring of the call. -/
theorem linkStep_ring (holds : h.Holds ls) {op : LinkOp ι α} (allowed : op.Allowed ls) :
    RingAt (linkStep h op).links ((linkStep h op).root op.ring) (op.edit (ls op.ring)) := by
  cases op with
  | append i item =>
    have ring := dualLinkAppend_ring (holds.ringAt i) (allowed i)
    simpa [linkStep, Rings.store, LinkOp.ring, LinkOp.edit] using ring
  | push i item =>
    have ring := dualLinkPush_ring (holds.ringAt i) (allowed i)
    simpa [linkStep, Rings.store, LinkOp.ring, LinkOp.edit] using ring
  | remove i item =>
    have ring := dualLinkRemove_ring (holds.ringAt i) allowed
    simpa [linkStep, Rings.store, LinkOp.ring, LinkOp.edit] using ring

omit [DecidableEq ι] in
/-- A node of an edited list was in it before, or was in no ring. -/
theorem LinkOp.mem_edit {op : LinkOp ι α} (allowed : op.Allowed ls) {x : α}
    (member : x ∈ op.edit (ls op.ring)) : x ∈ ls op.ring ∨ ∀ i, x ∉ ls i := by
  cases op with
  | append i item =>
    rcases List.mem_append.1 member with old | new
    · exact .inl old
    · rw [List.mem_singleton.1 new]
      exact .inr allowed
  | push i item =>
    rcases List.mem_cons.1 member with rfl | old
    · exact .inr allowed
    · exact .inl old
  | remove i item => exact .inl (List.mem_of_mem_erase member)

theorem linkStep_holds (holds : h.Holds ls) {op : LinkOp ι α} (allowed : op.Allowed ls) :
    (linkStep h op).Holds (listStep ls op) := by
  have same : ∀ {j}, j ≠ op.ring → listStep ls op j = ls j :=
    fun other => Function.update_of_ne other _ _
  have own : listStep ls op op.ring = op.edit (ls op.ring) := Function.update_self _ _ _
  constructor
  · intro j
    by_cases here : j = op.ring
    · rw [here, own]
      exact linkStep_ring holds allowed
    · obtain ⟨links, root⟩ := linkStep_frame holds allowed here
      rw [same here, root]
      exact (holds.ringAt j).frame links
  · have apart : ∀ {j x}, j ≠ op.ring → x ∈ op.edit (ls op.ring) → x ∉ ls j := by
      intro j x other hx hj
      rcases LinkOp.mem_edit allowed hx with old | new
      · exact other (holds.disjoint j op.ring x hj old)
      · exact new j hj
    intro i j x hi hj
    by_cases atI : i = op.ring <;> by_cases atJ : j = op.ring
    · rw [atI, atJ]
    · rw [atI, own] at hi
      rw [same atJ] at hj
      exact absurd hj (apart atJ hi)
    · rw [same atI] at hi
      rw [atJ, own] at hj
      exact absurd hi (apart atI hj)
    · rw [same atI] at hi
      rw [same atJ] at hj
      exact holds.disjoint i j x hi hj

theorem linkRun_holds (holds : h.Holds ls) {ops : List (LinkOp ι α)}
    (allowed : LinkOps.Allowed ls ops) : (linkRun h ops).Holds (listRun ls ops) := by
  induction ops generalizing h ls with
  | nil => exact holds
  | cons op ops ih => exact ih (linkStep_holds holds allowed.1) allowed.2

/-- A removal moves the root to its successor if it takes the root out, and leaves none when
the list becomes empty. -/
theorem remove_root (holds : h.Holds ls) {i : ι} {item : α} (member : item ∈ ls i) :
    (linkStep h (.remove i item)).root i =
      if h.root i = some item then (ls i).tail.head? else h.root i := by
  have root : (linkStep h (.remove i item)).root i = ((ls i).erase item).head? :=
    (linkStep_ring holds (show LinkOp.Allowed ls (.remove i item) from member)).root_eq
  rw [root, (holds.ringAt i).root_eq]
  cases e : ls i with
  | nil => simp [e] at member
  | cons a l =>
    by_cases first : a = item
    · simp [first]
    · simp [first]

/-- **Any number of rings in one store are as many lists.** -/
theorem ring_lists_refine (holds : h.Holds ls) {ops : List (LinkOp ι α)}
    (allowed : LinkOps.Allowed ls ops) :
    (∀ i, (listRun ls ops i).Nodup ∧
      (linkRun h ops).root i = (listRun ls ops i).head? ∧
      (∀ a ∈ listRun ls ops i,
        (linkRun h ops).links.prev ((linkRun h ops).links.next a) = a ∧
        (linkRun h ops).links.next ((linkRun h ops).links.prev a) = a) ∧
      ∀ r, (linkRun h ops).root i = some r →
        Ring.traverse (linkRun h ops).links r (listRun ls ops i).length r =
          some (listRun ls ops i)) ∧
    (∀ op : LinkOp ι α, op.Allowed (listRun ls ops) → ∀ j, j ≠ op.ring →
      SameOn (listRun ls ops j) (linkRun h ops).links (linkStep (linkRun h ops) op).links ∧
      (linkStep (linkRun h ops) op).root j = (linkRun h ops).root j) ∧
    ∀ i item, item ∈ listRun ls ops i →
      (linkStep (linkRun h ops) (.remove i item)).root i =
        if (linkRun h ops).root i = some item then (listRun ls ops i).tail.head?
        else (linkRun h ops).root i := by
  have run := linkRun_holds holds allowed
  refine ⟨fun i => ?_, fun op allowed' j other => linkStep_frame run allowed' other,
    fun i item member => remove_root run member⟩
  obtain ⟨ring, root⟩ := run.ringAt i
  refine ⟨ring.nodup, root, fun a ha => ring.inverse ha, fun r hr => ?_⟩
  rw [root] at hr
  generalize listRun ls ops i = l at ring hr
  cases l with
  | nil => cases hr
  | cons a l =>
    cases hr
    exact ring.traverse_eq (Nat.le_refl _)

def noRings : Rings Bool Nat := ⟨⟨id, id⟩, fun _ => none⟩

theorem noRings_holds : noRings.Holds fun _ => [] :=
  ⟨fun _ => .empty _, fun _ _ _ hx => absurd hx List.not_mem_nil⟩

/-- Two rings of which one loses its root. -/
def twoRings : List (LinkOp Bool Nat) :=
  [.append true 1, .append true 2, .push false 3, .push true 4, .append false 5, .remove true 4]

theorem ring_lists_refine_twoRings :
    Ring.traverse (linkRun noRings twoRings).links 1 2 1 = some [1, 2] ∧
      Ring.traverse (linkRun noRings twoRings).links 3 2 3 = some [3, 5] := by
  have refine_ := (ring_lists_refine noRings_holds
    (show LinkOps.Allowed (fun _ => []) twoRings by
      simp [twoRings, LinkOps.Allowed, LinkOp.Allowed, listStep, LinkOp.ring, LinkOp.edit])).1
  exact ⟨(refine_ true).2.2.2 1 rfl, (refine_ false).2.2.2 3 rfl⟩

end SpiderFrame.Link
