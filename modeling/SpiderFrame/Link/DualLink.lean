import SpiderFrame.Base.Ring

/-!
# The dual link module (`sf_linkmodule.c`)

`DualLinkAppend`, `DualLinkPush` and `DualLinkRemove` on a store of links, written
store by store in the order of the C code. A `Root` is a nullable pointer; the
address type is arbitrary. Each operation has one contract over `RingAt`, the ring
reached from a root, and says which other rings it keeps.
-/

namespace SpiderFrame.Link
open SpiderFrame.Base

/-- The ring reached from `*Root` has the members `l`, the root first. -/
structure RingAt {α : Type*} (L : Links α) (root : Option α) (l : List α) : Prop where
  ring : Ring L l
  root_eq : root = l.head?

variable {α : Type*} {L : Links α} {root : Option α} {l : List α} {x : α}

theorem RingAt.empty (L : Links α) : RingAt L none [] := ⟨.empty L, rfl⟩

theorem RingAt.frame {L' : Links α} (h : RingAt L root l) (same : SameOn l L L') :
    RingAt L' root l := ⟨h.ring.frame same, h.root_eq⟩

theorem RingAt.nil_iff (h : RingAt L root l) : root = none ↔ l = [] := by
  rw [h.root_eq, List.head?_eq_none_iff]

variable [DecidableEq α]

/-- `DualLinkAppend(Root, Item)`: the new links and the new `*Root`. -/
def dualLinkAppend (L : Links α) (root : Option α) (item : α) : Links α × Option α :=
  match root with
  | some r =>
    let L := L.setNext item r
    let L := L.setPrev item (L.prev r)
    let L := L.setNext (L.prev r) item
    let L := L.setPrev r item
    (L, some r)
  | none =>
    let L := L.setNext item item
    let L := L.setPrev item item
    (L, some item)

/-- `DualLinkPush(Root, Item)`: append, then make the item the root. -/
def dualLinkPush (L : Links α) (root : Option α) (item : α) : Links α × Option α :=
  ((dualLinkAppend L root item).1, some item)

/-- `DualLinkRemove(Root, Item)`: the new links and the new `*Root`. -/
def dualLinkRemove (L : Links α) (root : Option α) (item : α) : Links α × Option α :=
  let L := L.setNext (L.prev item) (L.next item)
  let L := L.setPrev (L.next item) (L.prev item)
  let root :=
    if root = some item then
      if L.next item = item then none else some (L.next item)
    else root
  (L, root)

/-- Appending puts the item last and keeps the root of a non-empty list. -/
theorem dualLinkAppend_ring (h : RingAt L root l) (fresh : x ∉ l) :
    RingAt (dualLinkAppend L root x).1 (dualLinkAppend L root x).2 (l ++ [x]) := by
  obtain ⟨ring, rfl⟩ := h
  cases l with
  | nil =>
    refine ⟨⟨List.nodup_singleton x, ?_⟩, rfl⟩
    simp [dualLinkAppend, Linked]
  | cons a l => exact ⟨ring.insert_last fresh, rfl⟩

/-- Appending writes only to the ring and to the item. -/
theorem dualLinkAppend_frame (h : RingAt L root l) (fresh : x ∉ l) {o : List α}
    (out : ∀ b ∈ o, b ∉ l ∧ b ≠ x) : SameOn o L (dualLinkAppend L root x).1 := by
  obtain ⟨ring, rfl⟩ := h
  cases l with
  | nil =>
    intro b hb
    simp [dualLinkAppend, (out b hb).2]
  | cons a l => exact ring.linkBefore_frame fresh out

/-- Removing takes the item out; the root moves on only when it is the item. -/
theorem dualLinkRemove_ring (h : RingAt L root l) (member : x ∈ l) :
    RingAt (dualLinkRemove L root x).1 (dualLinkRemove L root x).2 (l.erase x) := by
  obtain ⟨ring, rfl⟩ := h
  obtain ⟨xs, ys, e, notin⟩ := List.eq_append_cons_of_mem member
  have erased : l.erase x = xs ++ ys := by
    rw [e, List.erase_append_right _ notin, List.erase_cons_head]
  refine ⟨by rw [erased]; exact (e ▸ ring).unlink_mem, ?_⟩
  rw [erased]
  cases xs with
  | cons b xs =>
    have bx : b ≠ x := fun he => notin (by simp [he])
    simp [dualLinkRemove, e, bx]
  | nil =>
    rw [List.nil_append] at e
    have first : L.next x = ys.headD x := (e ▸ ring).next_first
    cases ys with
    | nil => simp [dualLinkRemove, e, show L.next x = x from first]
    | cons c ys =>
      have nodup := ring.nodup
      rw [e] at nodup
      have cx : c ≠ x := fun he => (List.nodup_cons.1 nodup).1 (by simp [he])
      simp [dualLinkRemove, e, show L.next x = c from first, cx]

/-- Removing writes only to the ring. -/
theorem dualLinkRemove_frame (h : RingAt L root l) (member : x ∈ l) {o : List α}
    (out : ∀ b ∈ o, b ∉ l) : SameOn o L (dualLinkRemove L root x).1 :=
  h.ring.unlink_frame member out

/-- Pushing puts the item first. -/
theorem dualLinkPush_ring (h : RingAt L root l) (fresh : x ∉ l) :
    RingAt (dualLinkPush L root x).1 (dualLinkPush L root x).2 (x :: l) :=
  ⟨(dualLinkAppend_ring h fresh).ring.rotate, rfl⟩

end SpiderFrame.Link
