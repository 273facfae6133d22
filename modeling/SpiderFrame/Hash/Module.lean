import SpiderFrame.Hash.Key
import SpiderFrame.Link.DualLink

/-!
# The hash module (`sf_hashmodule.c`)

A table has `2 ^ S` buckets, each the root of a ring of nodes with a counter. The
links of all nodes are one store (`Links`); what a node carries besides, its
`iDataLen` and the fields of the structure it is embedded in, is `data`. A call that
searches takes fuel for the ring walk and answers `none` when it runs out.

The specification keeps the inserted and not yet removed nodes, with their keys, in
insertion order (`Live`). `Represents` ties a table to it bucket by bucket, and
`hashModuleInsert_represents`, `hashModuleSearch_represents` and
`hashModuleRemove_represents` are the contracts of the three operations.
-/

namespace SpiderFrame.Hash
open SpiderFrame.Base SpiderFrame.Link

/-- `T_HashData` without its links, and the fields that follow it. -/
structure HashData (β : Type*) where
  iDataLen : Int
  body : β
  deriving DecidableEq

/-- `t_hash_que`: one bucket. -/
structure HashQue (α : Type*) where
  iHashRoot : Option α
  iCount : Int

/-- `t_hash_handle` with `iMaskBitsNum = S`. -/
structure HashHandle (α : Type*) (S : Nat) where
  taHashItem : Fin (2 ^ S) → HashQue α

/-- A table and the links of the nodes it is made of. -/
structure HashState (α : Type*) (S : Nat) where
  links : Links α
  handle : HashHandle α S

/-- `hashCmpFun`: a predicate of the node and the caller's user data. -/
abbrev HashCmpFun (α β υ : Type*) := α → HashData β → υ → Bool

variable {α β υ : Type*} {S : Nat}

/-- `HashModuleInit(pool, iMaskBitsNum)`. -/
def hashModuleInit (α : Type*) (S : Nat) : Option (HashHandle α S) :=
  if S > 24 ∨ S < 4 then none else some ⟨fun _ => ⟨none, 0⟩⟩

/-- The condition `Search` tests at a node. -/
def nodeMatches (data : α → HashData β) (cmpFun : HashCmpFun α β υ) (userData : υ)
    (iDataLen : Int) (a : α) : Bool :=
  (data a).iDataLen == iDataLen && cmpFun a (data a) userData

/-! ## The specification -/

/-- The nodes in a table with the keys they were inserted under, in insertion order. -/
abbrev Live (α : Type*) := List (Word32 × α)

/-- The nodes whose key maps to the bucket `b`, in insertion order. -/
def bucket (S : Nat) (live : Live α) (b : Fin (2 ^ S)) : List α :=
  (live.filter fun e => keyToItem S e.1 = b).map Prod.snd

/-- The earliest inserted live node of the key's bucket that matches. -/
def liveFind (S : Nat) (data : α → HashData β) (live : Live α) (key : Word32)
    (cmpFun : HashCmpFun α β υ) (userData : υ) (iDataLen : Int) : Option α :=
  (bucket S live (keyToItem S key)).find? (nodeMatches data cmpFun userData iDataLen)

/-- Every bucket is a ring of exactly its live nodes, and its counter is their number. -/
structure Represents (st : HashState α S) (live : Live α) : Prop where
  distinct : (live.map Prod.snd).Nodup
  ringAt : ∀ b, RingAt st.links (st.handle.taHashItem b).iHashRoot (bucket S live b)
  count : ∀ b, (st.handle.taHashItem b).iCount = (bucket S live b).length

section Buckets

variable {live : Live α} {key : Word32} {a x : α} {b c : Fin (2 ^ S)}

theorem mem_bucket : a ∈ bucket S live b ↔ ∃ k, (k, a) ∈ live ∧ keyToItem S k = b := by
  simp [bucket]

theorem bucket_sublist : (bucket S live b).Sublist (live.map Prod.snd) :=
  List.filter_sublist.map _

theorem bucket_length_le : (bucket S live b).length ≤ live.length := by
  have sub : (bucket S live b).Sublist (live.map Prod.snd) := bucket_sublist
  simpa using sub.length_le

theorem bucket_append : bucket S (live ++ [(key, x)]) b =
    bucket S live b ++ if keyToItem S key = b then [x] else [] := by
  by_cases h : keyToItem S key = b <;> simp [bucket, h]

/-- A node is in one bucket only. -/
theorem bucket_disjoint (distinct : (live.map Prod.snd).Nodup) (hb : a ∈ bucket S live b)
    (hc : a ∈ bucket S live c) : b = c := by
  obtain ⟨k, hk, rfl⟩ := mem_bucket.1 hb
  obtain ⟨k', hk', rfl⟩ := mem_bucket.1 hc
  have : (k, a) = (k', a) := List.inj_on_of_nodup_map distinct hk hk' rfl
  simp_all

theorem liveFind_mem {data : α → HashData β} {cmpFun : HashCmpFun α β υ} {userData : υ}
    {iDataLen : Int} (found : liveFind S data live key cmpFun userData iDataLen = some a) :
    a ∈ bucket S live (keyToItem S key) :=
  List.mem_of_find?_eq_some found

/-- A table from `HashModuleInit` is empty. -/
theorem hashModuleInit_represents {h : HashHandle α S} (made : hashModuleInit α S = some h)
    (L : Links α) : Represents ⟨L, h⟩ ([] : Live α) := by
  unfold hashModuleInit at made
  split at made
  · cases made
  · cases made
    exact ⟨by simp, fun _ => .empty L, fun _ => rfl⟩

end Buckets

/-! ## The operations -/

variable [DecidableEq α]

/-- `Search`: walk the ring of one bucket from its root. -/
def search (fuel : Nat) (data : α → HashData β) (L : Links α) (que : HashQue α)
    (cmpFun : HashCmpFun α β υ) (userData : υ) (iDataLen : Int) : Option (Option α) :=
  match que.iHashRoot with
  | none => some none
  | some head => Ring.walk L (nodeMatches data cmpFun userData iDataLen) head fuel head

/-- `HashModuleInsert`. -/
def hashModuleInsert (st : HashState α S) (key : Word32) (node : α) : HashState α S :=
  let b := keyToItem S key
  let que := st.handle.taHashItem b
  let (links, root) := dualLinkAppend st.links que.iHashRoot node
  ⟨links, ⟨Function.update st.handle.taHashItem b ⟨root, que.iCount + 1⟩⟩⟩

/-- `HashModuleSearch`. -/
def hashModuleSearch (fuel : Nat) (data : α → HashData β) (st : HashState α S) (key : Word32)
    (cmpFun : HashCmpFun α β υ) (userData : υ) (iDataLen : Int) : Option (Option α) :=
  search fuel data st.links (st.handle.taHashItem (keyToItem S key)) cmpFun userData iDataLen

/-- `HashModuleRemove`; a NULL `CmpFun` finds nothing. -/
def hashModuleRemove (fuel : Nat) (data : α → HashData β) (st : HashState α S) (key : Word32)
    (cmpFun : Option (HashCmpFun α β υ)) (userData : υ) (iDataLen : Int) :
    Option (HashState α S × Option α) :=
  let b := keyToItem S key
  let que := st.handle.taHashItem b
  match cmpFun with
  | none => some (st, none)
  | some cmpFun =>
    match search fuel data st.links que cmpFun userData iDataLen with
    | none => none
    | some none => some (st, none)
    | some (some node) =>
      let (links, root) := dualLinkRemove st.links que.iHashRoot node
      some (⟨links, ⟨Function.update st.handle.taHashItem b ⟨root, que.iCount - 1⟩⟩⟩, some node)

/-- Take one node out. -/
def dropNode (live : Live α) (a : α) : Live α := live.filter fun e => e.2 ≠ a

/-- The live nodes without the node a search found. -/
def dropFound (live : Live α) : Option α → Live α
  | none => live
  | some a => dropNode live a

section Dropping

variable {live : Live α} {a : α} {b c : Fin (2 ^ S)}

theorem bucket_dropNode : bucket S (dropNode live a) b = (bucket S live b).filter (· ≠ a) := by
  simp only [bucket, dropNode, List.filter_map, List.filter_filter]
  congr 1
  exact List.filter_congr fun e _ => by simp [Bool.and_comm]

theorem bucket_dropNode_of_mem (distinct : (live.map Prod.snd).Nodup) :
    bucket S (dropNode live a) b = (bucket S live b).erase a := by
  rw [bucket_dropNode, (distinct.sublist bucket_sublist).erase_eq_filter]
  exact List.filter_congr fun e _ => by by_cases h : e = a <;> simp [h]

theorem bucket_dropNode_of_ne (distinct : (live.map Prod.snd).Nodup)
    (member : a ∈ bucket S live b) (ne : c ≠ b) :
    bucket S (dropNode live a) c = bucket S live c := by
  rw [bucket_dropNode, List.filter_eq_self]
  intro d hd
  have : d ≠ a := fun he => ne (bucket_disjoint distinct (he ▸ hd) member)
  simpa using this

theorem bucket_dropFound (found : Option α) :
    bucket S (dropFound live found) b = (bucket S live b).filter (some · ≠ found) := by
  cases found with
  | none => simp [dropFound]
  | some a => simp [dropFound, bucket_dropNode]

end Dropping

/-! ## Contracts -/

section Contracts

variable {st : HashState α S} {live : Live α} {data : α → HashData β} {node : α} {key : Word32}

theorem hashModuleInsert_represents (h : Represents st live) (fresh : node ∉ live.map Prod.snd) :
    Represents (hashModuleInsert st key node) (live ++ [(key, node)]) := by
  have notin : ∀ b, node ∉ bucket S live b := fun b hb => fresh (bucket_sublist.subset hb)
  refine ⟨?_, fun b => ?_, fun b => ?_⟩
  · rw [List.map_append]
    exact List.nodup_append_comm.1
      (List.nodup_cons.2 ⟨fresh, h.distinct⟩ : (List.map Prod.snd [(key, node)] ++ _).Nodup)
  · rw [bucket_append]
    by_cases hb : keyToItem S key = b
    · subst hb
      simpa [hashModuleInsert] using dualLinkAppend_ring (h.ringAt _) (notin _)
    · have same : SameOn (bucket S live b) st.links (hashModuleInsert st key node).links :=
        dualLinkAppend_frame (h.ringAt _) (notin _) fun c hc =>
          ⟨fun hc' => hb (bucket_disjoint h.distinct hc' hc), fun he => notin b (he ▸ hc)⟩
      simpa [hashModuleInsert, hb, Function.update_of_ne (Ne.symm hb)] using (h.ringAt b).frame same
  · rw [bucket_append]
    by_cases hb : keyToItem S key = b
    · subst hb
      simp [hashModuleInsert, h.count]
    · simp [hashModuleInsert, hb, Function.update_of_ne (Ne.symm hb), h.count]

/-- **`Search` ends and finds the earliest matching node of the bucket.** -/
theorem search_represents (h : Represents st live) {fuel : Nat} (enough : live.length ≤ fuel)
    (b : Fin (2 ^ S)) (cmpFun : HashCmpFun α β υ) (userData : υ) (iDataLen : Int) :
    search fuel data st.links (st.handle.taHashItem b) cmpFun userData iDataLen =
      some ((bucket S live b).find? (nodeMatches data cmpFun userData iDataLen)) := by
  obtain ⟨ring, root⟩ := h.ringAt b
  have bound : (bucket S live b).length ≤ fuel := bucket_length_le.trans enough
  unfold search
  rw [root]
  cases hl : bucket S live b with
  | nil => rfl
  | cons a l => exact (hl ▸ ring).walk_eq_find? _ (hl ▸ bound)

theorem hashModuleSearch_represents (h : Represents st live) {fuel : Nat}
    (enough : live.length ≤ fuel) (cmpFun : HashCmpFun α β υ) (userData : υ) (iDataLen : Int) :
    hashModuleSearch fuel data st key cmpFun userData iDataLen =
      some (liveFind S data live key cmpFun userData iDataLen) :=
  search_represents h enough _ cmpFun userData iDataLen

/-- **`HashModuleRemove` takes out the node `Search` finds, and nothing else.** -/
theorem hashModuleRemove_represents (h : Represents st live) {fuel : Nat}
    (enough : live.length ≤ fuel) (cmpFun : HashCmpFun α β υ) (userData : υ) (iDataLen : Int) :
    ∃ st', hashModuleRemove fuel data st key (some cmpFun) userData iDataLen =
        some (st', liveFind S data live key cmpFun userData iDataLen) ∧
      Represents st' (dropFound live (liveFind S data live key cmpFun userData iDataLen)) := by
  simp only [hashModuleRemove, search_represents h enough]
  cases found : liveFind S data live key cmpFun userData iDataLen with
  | none =>
    rw [liveFind] at found
    exact ⟨st, by rw [found], h⟩
  | some a =>
    have member := liveFind_mem found
    rw [liveFind] at found
    refine ⟨_, by rw [found], ?_⟩
    change Represents _ (dropNode live a)
    refine ⟨h.distinct.sublist (List.filter_sublist.map _), fun b => ?_, fun b => ?_⟩
    · by_cases hb : b = keyToItem S key
      · subst hb
        rw [bucket_dropNode_of_mem h.distinct]
        simpa using dualLinkRemove_ring (h.ringAt _) member
      · rw [bucket_dropNode_of_ne h.distinct member hb]
        have apart : ∀ c ∈ bucket S live b, c ∉ bucket S live (keyToItem S key) :=
          fun c hc hc' => hb (bucket_disjoint h.distinct hc hc')
        have same := dualLinkRemove_frame (h.ringAt _) member apart
        simpa [Function.update_of_ne hb] using (h.ringAt b).frame same
    · by_cases hb : b = keyToItem S key
      · subst hb
        have pos := List.length_pos_of_mem member
        rw [bucket_dropNode_of_mem h.distinct, List.length_erase_of_mem member]
        simp only [Function.update_self, h.count]
        omega
      · rw [bucket_dropNode_of_ne h.distinct member hb]
        simp [Function.update_of_ne hb, h.count]

end Contracts

end SpiderFrame.Hash
