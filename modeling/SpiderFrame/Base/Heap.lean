import Mathlib.Algebra.Group.Nat.Defs
import Mathlib.Data.List.Basic
import SpiderFrame.Base.Arena

/-!
# The system's heap

What `malloc` and `memalign` answer is up to the system: a list of proposals. A proposal that a correct
allocator could not make (memory that is in use, the wrong alignment, NULL) counts as NULL, and so does
the end of the list. `free` of anything but the start of a region in use has no meaning.
-/

namespace SpiderFrame.Base

structure Heap where
  live : List Region
  answers : List (Option Nat)

namespace Heap

/-- The memory of a request; one for no bytes gets a pointer of its own all the same. -/
def block (a size : Nat) : Region := ⟨a, max size 1⟩

/-- What a correct allocator may return. -/
def Allows (h : Heap) (alignment size a : Nat) : Prop :=
  0 < a ∧ alignment ∣ a ∧ (block a size).stop ≤ 2 ^ 63 ∧ ∀ r ∈ h.live, (block a size).Apart r

instance (h : Heap) (alignment size a : Nat) : Decidable (h.Allows alignment size a) :=
  inferInstanceAs (Decidable (_ ∧ _))

/-- `memalign(alignment, size)`. -/
def alloc (h : Heap) (alignment size : Nat) : Option Nat × Heap :=
  match h.answers with
  | [] => (none, h)
  | none :: answers => (none, { h with answers := answers })
  | some a :: answers =>
    if h.Allows alignment size a then (some a, ⟨block a size :: h.live, answers⟩)
    else (none, { h with answers := answers })

/-- `free(p)` of a pointer that is not NULL. -/
def free (h : Heap) (a : Nat) : Option Heap :=
  (h.live.find? fun r => r.start = a).map fun r => { h with live := h.live.erase r }

/-- `free` of several pointers, in this order. -/
def freeAll (h : Heap) (as : List Nat) : Option Heap := as.foldlM free h

/-- The regions in use are apart, and none is empty. -/
structure Ok (h : Heap) : Prop where
  apart : h.live.Pairwise Region.Apart
  pos : ∀ r ∈ h.live, 0 < r.size

variable {h h' : Heap} {alignment size a : Nat} {p : Option Nat} {r r' : Region}

/-- What a call of the allocator does: NULL and nothing else, or new memory. -/
theorem alloc_cases (taken : h.alloc alignment size = (p, h')) :
    (p = none ∧ h'.live = h.live) ∨
      ∃ a, p = some a ∧ h.Allows alignment size a ∧ h'.live = block a size :: h.live := by
  unfold alloc at taken
  split at taken
  · cases taken
    exact .inl ⟨rfl, rfl⟩
  · cases taken
    exact .inl ⟨rfl, rfl⟩
  · rename_i a answers _
    split at taken
    · rename_i allows
      cases taken
      exact .inr ⟨a, rfl, allows, rfl⟩
    · cases taken
      exact .inl ⟨rfl, rfl⟩

theorem Ok.cons (ok : h.Ok) (allows : h.Allows alignment size a)
    (live : h'.live = block a size :: h.live) : h'.Ok := by
  constructor
  · rw [live]
    exact List.pairwise_cons.2 ⟨allows.2.2.2, ok.apart⟩
  · rw [live, List.forall_mem_cons]
    exact ⟨Nat.lt_of_lt_of_le Nat.zero_lt_one (Nat.le_max_right _ _), ok.pos⟩

theorem Ok.alloc (ok : h.Ok) (taken : h.alloc alignment size = (p, h')) : h'.Ok := by
  rcases alloc_cases taken with ⟨-, live⟩ | ⟨a, -, allows, live⟩
  · exact ⟨live ▸ ok.apart, live ▸ ok.pos⟩
  · exact ok.cons allows live

/-- Regions in use with the same start are the same. -/
theorem Ok.same (ok : h.Ok) (member : r ∈ h.live) (member' : r' ∈ h.live)
    (start : r.start = r'.start) : r = r' := by
  by_contra ne
  have apart : r.Apart r' := ok.apart.forall member member' ne
  exact apart.start_ne (ok.pos r member) (ok.pos r' member') start

/-- **A region in use is freed by its start.** -/
theorem Ok.free (ok : h.Ok) {rest : List Region} (live : h.live.Perm (r :: rest)) :
    ∃ h', h.free r.start = some h' ∧ h'.Ok ∧ h'.live.Perm rest := by
  have member : r ∈ h.live := live.symm.subset List.mem_cons_self
  have found : h.live.find? (fun r' => r'.start = r.start) = some r := by
    cases search : h.live.find? fun r' => r'.start = r.start with
    | none =>
      have none_ := List.find?_eq_none.1 search r member
      simp at none_
    | some r' =>
      have start : r'.start = r.start := by simpa using List.find?_some search
      rw [ok.same (List.mem_of_find?_eq_some search) member start]
  have fewer : (h.live.erase r).Sublist h.live := List.erase_sublist
  refine ⟨{ h with live := h.live.erase r }, by rw [Heap.free, found]; rfl, ?_, ?_⟩
  · exact ⟨ok.apart.sublist fewer, fun r' inRest => ok.pos r' (fewer.subset inRest)⟩
  · have both := (List.perm_cons_erase member).symm.trans live
    exact (List.perm_cons r).1 both

/-- **Regions in use are freed by their starts.** -/
theorem Ok.freeAll (ok : h.Ok) {rs rest : List Region} (live : h.live.Perm (rs ++ rest)) :
    ∃ h', h.freeAll (rs.map Region.start) = some h' ∧ h'.Ok ∧ h'.live.Perm rest := by
  induction rs generalizing h with
  | nil => exact ⟨h, rfl, ok, live⟩
  | cons r rs ih =>
    obtain ⟨h₁, freed, ok₁, live₁⟩ := ok.free live
    obtain ⟨h', freedAll, ok', live'⟩ := ih ok₁ live₁
    refine ⟨h', ?_, ok', live'⟩
    unfold Heap.freeAll at freedAll ⊢
    rw [List.map_cons, List.foldlM_cons, freed]
    exact freedAll

end Heap

end SpiderFrame.Base
