import SpiderFrame.Hash.Module

/-!
# The hash table refines its list of live nodes

Any sequence of `HashModuleInsert` and `HashModuleRemove` calls on a table from
`HashModuleInit` is run twice: on the rings (`hashRun`) and on the list of live nodes
(`liveRun`). `hash_table_refines` says that the first run ends, gives the answers of
the second, and leaves every bucket as the ring of its live nodes.
-/

namespace SpiderFrame.Hash
open SpiderFrame.Base SpiderFrame.Link

/-- A call that changes a table. -/
inductive HashOp (α β υ : Type*) where
  | insert (key : Word32) (node : α)
  | remove (key : Word32) (cmpFun : Option (HashCmpFun α β υ)) (userData : υ) (iDataLen : Int)

variable {α β υ : Type*} [DecidableEq α] {S : Nat}

/-- One call on the rings, with the node it returns. -/
def hashStep (fuel : Nat) (data : α → HashData β) (st : HashState α S) :
    HashOp α β υ → Option (HashState α S × Option α)
  | .insert key node => some (hashModuleInsert st key node, none)
  | .remove key cmpFun userData iDataLen =>
    hashModuleRemove fuel data st key cmpFun userData iDataLen

def hashRun (fuel : Nat) (data : α → HashData β) :
    HashState α S → List (HashOp α β υ) → Option (HashState α S × List (Option α))
  | st, [] => some (st, [])
  | st, op :: ops => do
    let (st, answer) ← hashStep fuel data st op
    let (st, answers) ← hashRun fuel data st ops
    return (st, answer :: answers)

/-- One call on the list of live nodes. -/
def liveStep (S : Nat) (data : α → HashData β) (live : Live α) : HashOp α β υ → Live α × Option α
  | .insert key node => (live ++ [(key, node)], none)
  | .remove _ none _ _ => (live, none)
  | .remove key (some cmpFun) userData iDataLen =>
    let found := liveFind S data live key cmpFun userData iDataLen
    (dropFound live found, found)

def liveRun (S : Nat) (data : α → HashData β) :
    Live α → List (HashOp α β υ) → Live α × List (Option α)
  | live, [] => (live, [])
  | live, op :: ops =>
    let (live, answer) := liveStep S data live op
    let (live, answers) := liveRun S data live ops
    (live, answer :: answers)

/-- Every inserted node is not in the table when it is inserted. -/
def Admissible (S : Nat) (data : α → HashData β) : Live α → List (HashOp α β υ) → Prop
  | _, [] => True
  | live, op :: ops =>
    (∀ key node, op = .insert key node → node ∉ live.map Prod.snd) ∧
      Admissible S data (liveStep S data live op).1 ops

variable {st : HashState α S} {live : Live α} {data : α → HashData β}

/-- A call adds at most one node. -/
theorem liveStep_length (live : Live α) (op : HashOp α β υ) :
    (liveStep S data live op).1.length ≤ live.length + 1 := by
  cases op with
  | insert key node => simp [liveStep]
  | remove key cmpFun userData iDataLen =>
    cases cmpFun with
    | none => simp [liveStep]
    | some cmpFun =>
      simp only [liveStep, dropFound]
      split
      · omega
      · exact (List.length_filter_le _ _).trans (Nat.le_succ _)

/-- One call keeps the representation and answers as the specification does. -/
theorem hashStep_represents (h : Represents st live) {fuel : Nat} (enough : live.length ≤ fuel)
    (op : HashOp α β υ) (fresh : ∀ key node, op = .insert key node → node ∉ live.map Prod.snd) :
    ∃ st', hashStep fuel data st op = some (st', (liveStep S data live op).2) ∧
      Represents st' (liveStep S data live op).1 := by
  cases op with
  | insert key node => exact ⟨_, rfl, hashModuleInsert_represents h (fresh key node rfl)⟩
  | remove key cmpFun userData iDataLen =>
    cases cmpFun with
    | none => exact ⟨st, rfl, h⟩
    | some cmpFun => exact hashModuleRemove_represents h enough cmpFun userData iDataLen

/-- A sequence of calls keeps the representation and answers as the specification does. -/
theorem hashRun_represents {fuel : Nat} (ops : List (HashOp α β υ)) (h : Represents st live)
    (admissible : Admissible S data live ops) (enough : live.length + ops.length ≤ fuel) :
    ∃ st', hashRun fuel data st ops = some (st', (liveRun S data live ops).2) ∧
      Represents st' (liveRun S data live ops).1 ∧ (liveRun S data live ops).1.length ≤ fuel := by
  induction ops generalizing st live with
  | nil => exact ⟨st, rfl, h, by simpa [liveRun] using enough⟩
  | cons op ops ih =>
    obtain ⟨fresh, rest⟩ := admissible
    rw [List.length_cons] at enough
    have bound : (liveStep S data live op).1.length ≤ live.length + 1 := liveStep_length live op
    obtain ⟨st₁, first, h₁⟩ := hashStep_represents h (show live.length ≤ fuel by omega) op fresh
    obtain ⟨st₂, run, h₂, bound₂⟩ := ih h₁ rest (by omega)
    exact ⟨st₂, by simp [hashRun, first, run, liveRun], h₂, bound₂⟩

/-- **The hash table is the list of its live nodes, bucket by bucket.** -/
theorem hash_table_refines (low : 4 ≤ S) (high : S ≤ 24) (L : Links α)
    (ops : List (HashOp α β υ)) (admissible : Admissible S data [] ops) {fuel : Nat}
    (enough : ops.length ≤ fuel) :
    ∃ h st, hashModuleInit α S = some h ∧
      hashRun fuel data ⟨L, h⟩ ops = some (st, (liveRun S data [] ops).2) ∧
      (∀ b, RingAt st.links (st.handle.taHashItem b).iHashRoot
          (bucket S (liveRun S data [] ops).1 b) ∧
        (st.handle.taHashItem b).iCount = (bucket S (liveRun S data [] ops).1 b).length) ∧
      ∀ key (cmpFun : HashCmpFun α β υ) userData iDataLen,
        let found := liveFind S data (liveRun S data [] ops).1 key cmpFun userData iDataLen
        hashModuleSearch fuel data st key cmpFun userData iDataLen = some found ∧
        ∃ st', hashModuleRemove fuel data st key (some cmpFun) userData iDataLen =
            some (st', found) ∧
          (∀ b, RingAt st'.links (st'.handle.taHashItem b).iHashRoot
            ((bucket S (liveRun S data [] ops).1 b).filter fun a => some a ≠ found)) ∧
          ∀ b, b ≠ keyToItem S key → ∀ a ∈ bucket S (liveRun S data [] ops).1 b, some a ≠ found := by
  obtain ⟨h, made⟩ : ∃ h, hashModuleInit α S = some h :=
    ⟨_, if_neg (by omega)⟩
  obtain ⟨st, run, rep, bound⟩ := hashRun_represents ops (hashModuleInit_represents made L)
    admissible (show 0 + ops.length ≤ fuel by omega)
  refine ⟨h, st, made, run, fun b => ⟨rep.ringAt b, rep.count b⟩, ?_⟩
  intro key cmpFun userData iDataLen found
  refine ⟨hashModuleSearch_represents rep bound cmpFun userData iDataLen, ?_⟩
  obtain ⟨st', removed, rep'⟩ := hashModuleRemove_represents rep bound cmpFun userData iDataLen
  refine ⟨st', removed, fun b => ?_, fun b hb a ha he => ?_⟩
  · rw [← bucket_dropFound]
    exact rep'.ringAt b
  · exact hb (bucket_disjoint rep.distinct ha (liveFind_mem he.symm))

/-- Two nodes under one key, and the removal of the first, which is the root. -/
def rootRemoved : List (HashOp Nat Unit Nat) :=
  [.insert 1#32 10, .insert 1#32 11, .remove 1#32 (some fun a _ user => a == user) 10 0]

/-- Removing the root leaves the other node as a ring of its own. -/
theorem hash_table_refines_root : ∃ h st, hashModuleInit Nat 4 = some h ∧
    hashRun 3 (fun _ => ⟨0, ()⟩) ⟨⟨id, id⟩, h⟩ rootRemoved = some (st, [none, none, some 10]) ∧
    RingAt st.links (st.handle.taHashItem (keyToItem 4 1#32)).iHashRoot [11] := by
  obtain ⟨h, st, made, run, rings, -⟩ := hash_table_refines (by decide) (by decide) ⟨id, id⟩
    rootRemoved (show Admissible 4 (fun _ => ⟨0, ()⟩) [] rootRemoved by
      simp [Admissible, rootRemoved, liveStep]) (Nat.le_refl 3)
  exact ⟨h, st, made, run, (rings _).1⟩

end SpiderFrame.Hash
