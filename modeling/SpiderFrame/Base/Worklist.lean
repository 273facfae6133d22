import Mathlib.Data.List.Infix
import Mathlib.Data.List.Nodup

/-!
# Growing worklists

A worklist is a list that is read from some position on while it grows at its end:
expanding an item pushes its children, each only if no item of the list has its key.
`drain F b n` is the list after the items at `b`, `b + 1`, ..., `b + n - 1` have been
expanded in turn. Items are never moved, so a longer run extends a shorter one. A `Stage` is
a list in the middle of an item, with some of its children pushed.

`Stage.restart` is about a second run on the list that a first run left behind, possibly in
the middle of an item: it starts at any item that the first run had come to, and once it has
gone past the item where the first run stopped it has the list of a run never interrupted.

A reader that looks for its next item in the list as it was when it took the last one has read to
the end earlier (`lateItem`). `Stage.lateItem_restart` says which of these ends a second run does
not come to: that of a list that has grown since.

`Reads` is about readers of one sequence that may stop early: of two of them one has read
what the other has, and more.
-/

namespace SpiderFrame.Base.Worklist

section

variable {ρ κ : Type*} [DecidableEq κ]

/-- Put an item last, unless its key is there. -/
def push (key : ρ → κ) (F : List ρ) (x : ρ) : List ρ :=
  if key x ∈ F.map key then F else F ++ [x]

def pushAll (key : ρ → κ) (F xs : List ρ) : List ρ := xs.foldl (push key) F

/-- Expand `n` items from position `b` on. -/
def drain (key : ρ → κ) (children : ρ → List ρ) (F : List ρ) (b : Nat) : Nat → List ρ
  | 0 => F
  | n + 1 =>
    match (drain key children F b n)[b + n]? with
    | none => drain key children F b n
    | some r => pushAll key (drain key children F b n) (children r)

/-- The item that is expanded after `n` others. -/
def item (key : ρ → κ) (children : ρ → List ρ) (F : List ρ) (b n : Nat) : Option ρ :=
  (drain key children F b n)[b + n]?

/-- The item after `n` others, in the list as it is when the last of them is taken. -/
def lateItem (key : ρ → κ) (children : ρ → List ρ) (F : List ρ) (b n : Nat) : Option ρ :=
  (drain key children F b (n - 1))[b + n]?

variable {key : ρ → κ} {children : ρ → List ρ} {F G : List ρ} {x r : ρ} {xs ys : List ρ}

theorem push_known (h : key x ∈ F.map key) : push key F x = F := if_pos h

theorem push_new (h : key x ∉ F.map key) : push key F x = F ++ [x] := if_neg h

theorem prefix_push (F : List ρ) (x : ρ) : F <+: push key F x := by
  unfold push
  split
  · exact List.prefix_refl F
  · exact List.prefix_append F [x]

theorem key_mem_push (F : List ρ) (x : ρ) : key x ∈ (push key F x).map key := by
  unfold push
  split
  · assumption
  · simp

omit [DecidableEq κ] in
theorem keys_mono (h : F <+: G) {k : κ} (hk : k ∈ F.map key) : k ∈ G.map key :=
  List.map_subset key h.subset hk

@[simp] theorem pushAll_nil (F : List ρ) : pushAll key F [] = F := rfl

@[simp] theorem pushAll_cons (F : List ρ) (x : ρ) (xs : List ρ) :
    pushAll key F (x :: xs) = pushAll key (push key F x) xs := rfl

theorem pushAll_append (F xs ys : List ρ) :
    pushAll key F (xs ++ ys) = pushAll key (pushAll key F xs) ys := List.foldl_append

theorem pushAll_concat (F xs : List ρ) (x : ρ) :
    pushAll key F (xs ++ [x]) = push key (pushAll key F xs) x := pushAll_append F xs [x]

theorem prefix_pushAll (F xs : List ρ) : F <+: pushAll key F xs := by
  induction xs generalizing F with
  | nil => exact List.prefix_refl F
  | cons x xs ih => exact (prefix_push F x).trans (ih _)

theorem key_mem_pushAll (h : x ∈ xs) : key x ∈ (pushAll key F xs).map key := by
  induction xs generalizing F with
  | nil => cases h
  | cons y xs ih =>
    rcases List.mem_cons.1 h with rfl | h
    · exact keys_mono (prefix_pushAll _ xs) (key_mem_push F x)
    · exact ih h

/-- Items whose keys are there change nothing. -/
theorem pushAll_known (h : ∀ x ∈ xs, key x ∈ F.map key) : pushAll key F xs = F := by
  induction xs with
  | nil => rfl
  | cons x xs ih =>
    rw [pushAll_cons, push_known (h x (List.mem_cons_self ..))]
    exact ih fun y hy => h y (List.mem_cons_of_mem x hy)

theorem mem_push {y : ρ} (h : y ∈ push key F x) : y ∈ F ∨ y = x := by
  unfold push at h
  split at h
  · exact .inl h
  · exact (List.mem_append.1 h).imp_right List.mem_singleton.1

theorem mem_pushAll (h : x ∈ pushAll key F xs) : x ∈ F ∨ x ∈ xs := by
  induction xs generalizing F with
  | nil => exact .inl h
  | cons y xs ih =>
    rcases ih h with first | own
    · rcases mem_push first with old | rfl
      · exact .inl old
      · exact .inr (List.mem_cons_self ..)
    · exact .inr (List.mem_cons_of_mem y own)

/-- Pushing is idempotent. -/
theorem pushAll_self (F xs : List ρ) : pushAll key (pushAll key F xs) xs = pushAll key F xs :=
  pushAll_known fun _ hx => key_mem_pushAll hx

/-- What stands after the items that were there has new keys, each once. -/
theorem pushAll_new (F xs : List ρ) : ∃ new, pushAll key F xs = F ++ new ∧
    (new.map key).Nodup ∧ ∀ x ∈ new, key x ∉ F.map key := by
  induction xs using List.reverseRecOn with
  | nil => exact ⟨[], by simp, by simp, by simp⟩
  | append_singleton xs x ih =>
    obtain ⟨new, e, distinct, fresh⟩ := ih
    rw [pushAll_concat, e]
    by_cases known : key x ∈ (F ++ new).map key
    · exact ⟨new, push_known known, distinct, fresh⟩
    · rw [List.map_append, List.mem_append, not_or] at known
      refine ⟨new ++ [x], ?_, ?_, ?_⟩
      · rw [push_new (by rw [List.map_append, List.mem_append, not_or]; exact known),
          List.append_assoc]
      · rw [List.map_append, List.map_singleton, List.nodup_append]
        refine ⟨distinct, List.nodup_singleton _, fun a ha b hb e => known.2 ?_⟩
        rw [List.mem_singleton] at hb
        exact hb ▸ e ▸ ha
      · intro y hy
        rcases List.mem_append.1 hy with old | own
        · exact fresh y old
        · rw [List.mem_singleton.1 own]
          exact known.1

section Drain

variable {b m n : Nat}

theorem drain_succ (here : item key children F b n = some r) :
    drain key children F b (n + 1) = pushAll key (drain key children F b n) (children r) := by
  rw [item] at here
  simp only [drain, here]

theorem drain_stop (past : item key children F b n = none) :
    drain key children F b (n + 1) = drain key children F b n := by
  rw [item] at past
  simp only [drain, past]

theorem prefix_drain_succ (F : List ρ) (b n : Nat) :
    drain key children F b n <+: drain key children F b (n + 1) := by
  cases here : item key children F b n with
  | none => rw [drain_stop here]
  | some r =>
    rw [drain_succ here]
    exact prefix_pushAll _ _

theorem prefix_drain (F : List ρ) (b : Nat) (h : m ≤ n) :
    drain key children F b m <+: drain key children F b n := by
  induction h with
  | refl => exact List.prefix_refl _
  | step _ ih => exact ih.trans (prefix_drain_succ F b _)

/-- A list that has been read to its end grows no more. -/
theorem drain_past (past : item key children F b m = none) (h : m ≤ n) :
    drain key children F b n = drain key children F b m := by
  rw [item, List.getElem?_eq_none_iff] at past
  induction h with
  | refl => rfl
  | @step n le ih =>
    have stop : item key children F b n = none := by
      rw [item, ih, List.getElem?_eq_none_iff]
      have : m ≤ n := le
      omega
    rw [drain_stop stop, ih]

/-- No item comes after the end of the list. -/
theorem item_past (past : item key children F b m = none) (h : m ≤ n) :
    item key children F b n = none := by
  rw [item, drain_past past h, List.getElem?_eq_none_iff]
  rw [item, List.getElem?_eq_none_iff] at past
  omega

theorem prefix_getElem? (h : F <+: G) {i : Nat} (here : F[i]? = some r) : G[i]? = some r := by
  obtain ⟨more, rfl⟩ := h
  rw [List.getElem?_append_left (List.getElem?_eq_some_iff.1 here).1]
  exact here

/-- What is there when the last item is taken is there afterwards. -/
theorem lateItem_item (here : lateItem key children F b n = some r) :
    item key children F b n = some r :=
  prefix_getElem? (prefix_drain F b (Nat.sub_le n 1)) here

/-- Every child of an item that has been expanded has its key in the list. -/
theorem drain_known (h : m < n) (here : item key children F b m = some r) (child : x ∈ children r) :
    key x ∈ (drain key children F b n).map key := by
  apply keys_mono (prefix_drain F b (show m + 1 ≤ n from h))
  rw [drain_succ here]
  exact key_mem_pushAll child

end Drain

/-! ## Stages of a run -/

section Stages

variable {b c k : Nat} {pre : List ρ}

/-- A list after `c` items, with the children `pre` of the next one pushed. -/
structure Stage (key : ρ → κ) (children : ρ → List ρ) (F : List ρ) (b c : Nat) (pre G : List ρ) :
    Prop where
  list : G = pushAll key (drain key children F b c) pre
  current : ∀ r, item key children F b c = some r → pre <+: children r
  atEnd : item key children F b c = none → pre = []

theorem Stage.first (F : List ρ) (b : Nat) : Stage key children F b 0 [] F :=
  ⟨rfl, fun _ _ => List.nil_prefix, fun _ => rfl⟩

/-- The loaded items stay in front, and what was pushed has new keys, each once. -/
theorem Stage.new (h : Stage key children F b c pre G) : ∃ new, G = F ++ new ∧
    (new.map key).Nodup ∧ ∀ x ∈ new, key x ∉ F.map key := by
  -- all pushes at once, in order
  have drained : ∀ n, ∃ xs, drain key children F b n = pushAll key F xs := by
    intro n
    induction n with
    | zero => exact ⟨[], rfl⟩
    | succ n ih =>
      obtain ⟨xs, e⟩ := ih
      cases here : item key children F b n with
      | none => exact ⟨xs, by rw [drain_stop here, e]⟩
      | some r => exact ⟨xs ++ children r, by rw [drain_succ here, e, pushAll_append]⟩
  obtain ⟨xs, e⟩ := drained c
  rw [h.list, e, ← pushAll_append]
  exact pushAll_new F (xs ++ pre)

/-- The items up to the current one stand in the list as it is. -/
theorem Stage.item_eq (h : Stage key children F b c pre G) {n : Nat} (le : n ≤ c) :
    item key children F b n = G[b + n]? := by
  have grown : drain key children F b n <+: G := by
    rw [h.list]
    exact (prefix_drain F b le).trans (prefix_pushAll _ pre)
  cases here : item key children F b n with
  | some r => exact (prefix_getElem? grown here).symm
  | none =>
    rw [h.list, h.atEnd (item_past here le), pushAll_nil, drain_past here le]
    exact here.symm

/-- Pushing the next child. -/
theorem Stage.push (h : Stage key children F b c pre G) (here : item key children F b c = some r)
    (next : pre ++ [x] <+: children r) :
    Stage key children F b c (pre ++ [x]) (push key G x) := by
  refine ⟨?_, fun r' here' => ?_, fun none_ => ?_⟩
  · rw [pushAll_concat, h.list]
  · rw [here, Option.some_inj] at here'
    exact here' ▸ next
  · rw [here] at none_
    cases none_

/-- Going on to the next item, when all children of the current one have been pushed. -/
theorem Stage.next (h : Stage key children F b c pre G) (here : item key children F b c = some r)
    (all : children r = pre) : Stage key children F b (c + 1) [] G := by
  refine ⟨?_, fun _ _ => List.nil_prefix, fun _ => rfl⟩
  rw [pushAll_nil, drain_succ here, all, h.list]

/-! ### Starting again -/

/-- Items that the first run had done with add nothing. -/
theorem Stage.again (h : Stage key children F b c pre G) {j : Nat} (le : k + j ≤ c) :
    drain key children G (b + k) j = G := by
  induction j with
  | zero => rfl
  | succ j ih =>
    have same := ih (by omega)
    have here : item key children G (b + k) j = item key children F b (k + j) := by
      rw [h.item_eq (show k + j ≤ c by omega), item, same, Nat.add_assoc]
    cases old : item key children F b (k + j) with
    | none => rw [drain_stop (here.trans old), same]
    | some r =>
      rw [drain_succ (here.trans old), same]
      apply pushAll_known
      intro x hx
      rw [h.list]
      exact keys_mono (prefix_pushAll _ pre) (drain_known (show k + j < c by omega) old hx)

/-- **Past the item where the first run stopped, the second has the list of a run that was
never interrupted.** -/
theorem Stage.restart (h : Stage key children F b c pre G) {j : Nat} (le : k ≤ c)
    (past : c < k + j) : drain key children G (b + k) j = drain key children F b (k + j) := by
  induction j with
  | zero => omega
  | succ j ih =>
    rw [← Nat.add_assoc]
    by_cases first : k + j = c
    · -- the item where the first run stopped: its children up to `pre` are pushed again
      have same := h.again (j := j) (Nat.le_of_eq first)
      have here : item key children G (b + k) j = item key children F b c := by
        rw [h.item_eq (Nat.le_refl c), item, same, Nat.add_assoc, first]
      rw [first]
      cases old : item key children F b c with
      | none =>
        rw [drain_stop (here.trans old), drain_stop old, same, h.list, h.atEnd old, pushAll_nil]
      | some r =>
        obtain ⟨post, split⟩ := h.current r old
        rw [drain_succ (here.trans old), drain_succ old, same, ← split, pushAll_append,
          pushAll_append, h.list, pushAll_self]
    · have same := ih (by omega)
      have here : item key children G (b + k) j = item key children F b (k + j) := by
        rw [item, item, same, Nat.add_assoc]
      cases old : item key children F b (k + j) with
      | none => rw [drain_stop (here.trans old), drain_stop old, same]
      | some r => rw [drain_succ (here.trans old), drain_succ old, same]

/-- The item at each position is the same in both runs. -/
theorem Stage.item_restart (h : Stage key children F b c pre G) (le : k ≤ c) (j : Nat) :
    item key children G (b + k) j = item key children F b (k + j) := by
  by_cases past : c < k + j
  · rw [item, item, h.restart le past, Nat.add_assoc]
  · rw [h.item_eq (show k + j ≤ c by omega), item, h.again (by omega), Nat.add_assoc]

/-- Up to the item where the first run stopped, a late reader of the second run has the list as it was
left. -/
theorem Stage.lateItem_again (h : Stage key children F b c pre G) {j : Nat} (early : k + j ≤ c + 1)
    (le : k ≤ c) : lateItem key children G (b + k) j = G[b + (k + j)]? := by
  rw [lateItem, h.again (by omega), Nat.add_assoc]

/-- A late reader of the second run finds the items of one in a run that was never interrupted, but
for what the first run has pushed behind an end that a late reader has come to. -/
theorem Stage.lateItem_restart (h : Stage key children F b c pre G) (le : k ≤ c) (j : Nat) :
    lateItem key children G (b + k) j = lateItem key children F b (k + j) ↔
      (k + j ≤ c + 1 → lateItem key children F b (k + j) = none → G[b + (k + j)]? = none) := by
  by_cases early : k + j ≤ c + 1
  · rw [h.lateItem_again early le]
    cases here : lateItem key children F b (k + j) with
    | none => exact ⟨fun same _ _ => same, fun unseen => unseen early rfl⟩
    | some r =>
      have grown : drain key children F b (k + j - 1) <+: G := by
        rw [h.list]
        exact (prefix_drain F b (show k + j - 1 ≤ c by omega)).trans (prefix_pushAll _ pre)
      exact iff_of_true (prefix_getElem? grown here) nofun
  · have later : k + j - 1 = k + (j - 1) := by omega
    refine iff_of_true ?_ fun before => absurd before early
    rw [lateItem, lateItem, h.restart le (by omega), later, Nat.add_assoc]

end Stages

/-! ## Another key -/

section Congr

variable {κ' : Type*} [DecidableEq κ'] {key' : ρ → κ'} {b c n : Nat} {pre : List ρ}
  {P : ρ → Prop} (agree : ∀ x y, P x → P y → (key x = key y ↔ key' x = key' y))

include agree

theorem push_congr (met : ∀ y ∈ F, P y) (own : P x) : push key F x = push key' F x := by
  have same : key x ∈ F.map key ↔ key' x ∈ F.map key' := by
    rw [List.mem_map, List.mem_map]
    exact exists_congr fun y => and_congr_right fun hy => agree y x (met y hy) own
  unfold push
  split <;> rename_i known
  · rw [if_pos (same.1 known)]
  · rw [if_neg fun known' => known (same.2 known')]

theorem pushAll_congr (met : ∀ y ∈ F, P y) (own : ∀ y ∈ xs, P y) :
    pushAll key F xs = pushAll key' F xs := by
  induction xs generalizing F with
  | nil => rfl
  | cons x xs ih =>
    have first := own x (List.mem_cons_self ..)
    rw [pushAll_cons, pushAll_cons, ← push_congr agree met first]
    refine ih (fun y hy => ?_) fun y hy => own y (List.mem_cons_of_mem x hy)
    rcases mem_push hy with old | rfl
    · exact met y old
    · exact first

theorem drain_congr (met : ∀ y ∈ F, P y)
    (children_met : ∀ m r, m < n → item key children F b m = some r → ∀ y ∈ children r, P y) :
    drain key children F b n = drain key' children F b n ∧
      ∀ y ∈ drain key children F b n, P y := by
  induction n with
  | zero => exact ⟨rfl, met⟩
  | succ n ih =>
    obtain ⟨same, all⟩ := ih fun m r hm => children_met m r (Nat.lt_succ_of_lt hm)
    have items : item key children F b n = item key' children F b n := by rw [item, item, same]
    cases here : item key children F b n with
    | none =>
      rw [drain_stop here, drain_stop (items ▸ here)]
      exact ⟨same, all⟩
    | some r =>
      have own := children_met n r (Nat.lt_succ_self n) here
      rw [drain_succ here, drain_succ (items ▸ here), ← same]
      exact ⟨pushAll_congr agree all own, fun y hy => (mem_pushAll hy).elim (all y) (own y)⟩

/-- Keys that tell the same items apart give the same stages. -/
theorem Stage.congr (h : Stage key children F b c pre G) (met : ∀ y ∈ F, P y)
    (children_met : ∀ m r, m < c → item key children F b m = some r → ∀ y ∈ children r, P y)
    (own : ∀ y ∈ pre, P y) : Stage key' children F b c pre G := by
  obtain ⟨same, all⟩ := drain_congr agree met children_met
  have items : item key children F b c = item key' children F b c := by rw [item, item, same]
  refine ⟨?_, items ▸ h.current, items ▸ h.atEnd⟩
  rw [h.list, ← same]
  exact pushAll_congr agree all own

end Congr

end

/-! ## Readers -/

section Readers

variable {ν : Type*}

/-- `xs` is what a reader of `order` has read: it reads on unless `stop` tells it not to. -/
structure Reads (order : Nat → Option ν) (stop : Nat → ν → Bool) (xs : List ν) : Prop where
  here : ∀ n v, xs[n]? = some v → order n = some v
  goesOn : ∀ n v, xs[n]? = some v → n + 1 < xs.length → stop n v = false

/-- There is nothing more to read, or the reader has been told to stop. -/
def Ends (order : Nat → Option ν) (stop : Nat → ν → Bool) (xs : List ν) : Prop :=
  order xs.length = none ∨ ∃ n v, xs[n]? = some v ∧ n + 1 = xs.length ∧ stop n v = true

variable {order : Nat → Option ν} {stop : Nat → ν → Bool} {xs ys : List ν}

theorem Reads.prefix_of_le (x : Reads order stop xs) (y : Reads order stop ys)
    (le : xs.length ≤ ys.length) : xs <+: ys := by
  rw [List.prefix_iff_eq_take]
  refine List.ext_getElem? fun n => ?_
  rw [List.getElem?_take]
  cases hx : xs[n]? with
  | none =>
    have past := List.getElem?_eq_none_iff.1 hx
    rw [if_neg (by omega)]
  | some v =>
    have inside := (List.getElem?_eq_some_iff.1 hx).1
    obtain ⟨w, hy⟩ : ∃ w, ys[n]? = some w := ⟨_, List.getElem?_eq_getElem (by omega)⟩
    rw [if_pos inside, hy, ← x.here n v hx, ← y.here n w hy]

/-- Nobody reads further than a reader that has ended. -/
theorem Reads.prefix_of_ends (x : Reads order stop xs) (y : Reads order stop ys)
    (ends : Ends order stop ys) : xs <+: ys := by
  refine x.prefix_of_le y (Nat.le_of_not_lt fun longer => ?_)
  rcases ends with none_ | ⟨n, v, hy, last, stops⟩
  · obtain ⟨v, hx⟩ : ∃ v, xs[ys.length]? = some v := ⟨_, List.getElem?_eq_getElem longer⟩
    rw [x.here _ v hx] at none_
    cases none_
  · have hx := prefix_getElem? (y.prefix_of_le x (Nat.le_of_lt longer)) hy
    rw [x.goesOn n v hx (by omega)] at stops
    cases stops

theorem Reads.drop (x : Reads order stop xs) (k : Nat) :
    Reads (fun n => order (k + n)) (fun n => stop (k + n)) (xs.drop k) := by
  constructor
  · intro n v hv
    rw [List.getElem?_drop] at hv
    exact x.here _ v hv
  · intro n v hv more
    rw [List.getElem?_drop] at hv
    rw [List.length_drop] at more
    exact x.goesOn _ v hv (by omega)

/-- A reader that starts later ends too, if it was not to stop before it started. -/
theorem Ends.drop (ends : Ends order stop xs) {k : Nat} (le : k ≤ xs.length)
    (before : ∀ n v, n + 1 = k → xs[n]? = some v → stop n v = false) :
    Ends (fun n => order (k + n)) (fun n => stop (k + n)) (xs.drop k) := by
  rcases ends with none_ | ⟨n, v, hv, last, stops⟩
  · left
    show order (k + (xs.drop k).length) = none
    rwa [List.length_drop, Nat.add_sub_cancel' le]
  · by_cases edge : n + 1 = k
    · rw [before n v edge hv] at stops
      cases stops
    · have later : k + (n - k) = n := by omega
      refine .inr ⟨n - k, v, ?_, ?_, ?_⟩
      · rw [List.getElem?_drop, later, hv]
      · rw [List.length_drop]
        omega
      · show stop (k + (n - k)) v = true
        rw [later, stops]

end Readers

end SpiderFrame.Base.Worklist
