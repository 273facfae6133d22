import Mathlib.Data.List.Perm.Subperm
import SpiderFrame.Hash.Module

/-!
# Tables of strings

The table of configuration files (`sf_confset.c`) and the table of uniq keys (`sf_uniq.c`) are
hash tables whose nodes store a string, inserted under the CRC of that string and compared
with `strcmp`. Such a table is a map from strings to what its nodes store besides: `lookup` is
given by `lookup_init`, `lookup_insert` and `lookup_store`. Nodes are never removed, and a node
is the next free address of its pool.
-/

namespace SpiderFrame.Hash
open SpiderFrame.Base SpiderFrame.Link

/-- The node holds `live` under the CRC of its string, with the `iDataLen` that calls look for. -/
def StoredName {β : Type*} (len : Int) (data : Nat → HashData (CString × β)) (e : Word32 × Nat) :
    Prop :=
  e.1 = sfCrc (data e.2).body.1 ∧ (data e.2).iDataLen = len

/-- A table with `2 ^ S` buckets, with the nodes below `fresh` allocated. -/
structure NameTable (S : Nat) (len : Int) (β : Type*) where
  state : HashState Nat S
  data : Nat → HashData (CString × β)
  fresh : Nat
  represents : ∃ live, Represents state live ∧ ∀ e ∈ live, e.2 < fresh ∧ StoredName len data e

/-- `!strcmp(hd->string, UserData)`. -/
def compareName {β : Type*} : HashCmpFun Nat (CString × β) CString :=
  fun _ hd name => hd.body.1 == name

namespace NameTable

variable {S : Nat} {len : Int} {β : Type*} (t : NameTable S len β)

theorem exists_live : ∃ live, Represents t.state live ∧
    (∀ e ∈ live, e.2 < t.fresh ∧ StoredName len t.data e) ∧ live.length ≤ t.fresh := by
  obtain ⟨live, rep, stored⟩ := t.represents
  refine ⟨live, rep, stored, ?_⟩
  have sub : live.map Prod.snd ⊆ List.range t.fresh := by
    intro a ha
    obtain ⟨e, he, rfl⟩ := List.mem_map.1 ha
    exact List.mem_range.2 (stored e he).1
  simpa using (List.Nodup.subperm rep.distinct sub).length_le

theorem init_made (low : 4 ≤ S) (high : S ≤ 24) : (hashModuleInit Nat S).isSome := by
  rw [hashModuleInit, if_neg (by omega)]
  rfl

/-- `HashModuleInit(pool, S)`; `unset` is what fields hold that nobody has written. -/
def init (low : 4 ≤ S) (high : S ≤ 24) (unset : β) : NameTable S len β where
  state := ⟨⟨id, id⟩, (hashModuleInit Nat S).get (init_made low high)⟩
  data _ := ⟨0, .empty, unset⟩
  fresh := 0
  represents := ⟨[], hashModuleInit_represents (Option.some_get (init_made low high)).symm _, by simp⟩

theorem search_ends (name : CString) :
    (hashModuleSearch t.fresh t.data t.state (sfCrc name) compareName name len).isSome := by
  obtain ⟨live, rep, -, enough⟩ := t.exists_live
  rw [hashModuleSearch_represents rep enough]
  rfl

/-- `HashModuleSearch(h, sf_crc(name, strlen(name)), .., name, ..)`. -/
def search (name : CString) : Option Nat :=
  (hashModuleSearch t.fresh t.data t.state (sfCrc name) compareName name len).get
    (t.search_ends name)

/-- `AllocHashData`, the string and the other fields, and `HashModuleInsert`. -/
def insert (name : CString) (value : β) : NameTable S len β where
  state := hashModuleInsert t.state (sfCrc name) t.fresh
  data := Function.update t.data t.fresh ⟨len, name, value⟩
  fresh := t.fresh + 1
  represents := by
    obtain ⟨live, rep, stored⟩ := t.represents
    have new : t.fresh ∉ live.map Prod.snd := by
      intro ha
      obtain ⟨e, he, same⟩ := List.mem_map.1 ha
      have := (stored e he).1
      omega
    refine ⟨_, hashModuleInsert_represents rep new, fun e he => ?_⟩
    rcases List.mem_append.1 he with old | own
    · obtain ⟨below, at_⟩ := stored e old
      refine ⟨Nat.lt_succ_of_lt below, ?_⟩
      rwa [StoredName, Function.update_of_ne (Nat.ne_of_lt below)]
    · rw [List.mem_singleton.1 own]
      exact ⟨Nat.lt_succ_self _, by simp [StoredName]⟩

/-- A store to a field of the node `a`. -/
def store (a : Nat) (value : β) : NameTable S len β where
  state := t.state
  data := Function.update t.data a ⟨(t.data a).iDataLen, (t.data a).body.1, value⟩
  fresh := t.fresh
  represents := by
    obtain ⟨live, rep, stored⟩ := t.represents
    refine ⟨live, rep, fun e he => ⟨(stored e he).1, ?_⟩⟩
    obtain ⟨-, at_⟩ := stored e he
    by_cases own : e.2 = a
    · rw [StoredName, own] at at_ ⊢
      simpa using at_
    · rwa [StoredName, Function.update_of_ne own]

/-- The fields of the node that a search finds. -/
def lookup (name : CString) : Option β := (t.search name).map fun a => (t.data a).body.2

/-! ## The table is a map -/

theorem search_eq {live : Live Nat} (rep : Represents t.state live)
    (enough : live.length ≤ t.fresh) (name : CString) :
    t.search name = (bucket S live (keyToItem S (sfCrc name))).find?
      (nodeMatches t.data compareName name len) := by
  simp only [search, hashModuleSearch_represents rep enough]
  rfl

theorem search_name {name : CString} {a : Nat} (found : t.search name = some a) :
    (t.data a).body.1 = name := by
  obtain ⟨live, rep, -, enough⟩ := t.exists_live
  rw [t.search_eq rep enough] at found
  have test := List.find?_some found
  simp only [nodeMatches, compareName, Bool.and_eq_true, beq_iff_eq] at test
  exact test.2

theorem lookup_init (low : 4 ≤ S) (high : S ≤ 24) (unset : β) (name : CString) :
    (init low high unset : NameTable S len β).lookup name = none := by
  have rep : Represents (init low high unset : NameTable S len β).state ([] : Live Nat) :=
    hashModuleInit_represents (Option.some_get (init_made low high)).symm _
  rw [lookup, search_eq _ rep (Nat.le_refl 0)]
  rfl

/-- The node inserted first for a name is the one that is found. -/
theorem lookup_insert (name k : CString) (value : β) :
    (t.insert name value).lookup k =
      (t.lookup k).or (if k = name then some value else none) := by
  obtain ⟨live, rep, stored, enough⟩ := t.exists_live
  have new : t.fresh ∉ live.map Prod.snd := by
    intro ha
    obtain ⟨e, he, same⟩ := List.mem_map.1 ha
    have := (stored e he).1
    omega
  have rep' : Represents (t.insert name value).state (live ++ [(sfCrc name, t.fresh)]) :=
    hashModuleInsert_represents rep new
  have older : ∀ a ∈ bucket S live (keyToItem S (sfCrc k)),
      (t.insert name value).data a = t.data a := by
    intro a ha
    have ne : a ≠ t.fresh := fun e => new (e ▸ bucket_sublist.subset ha)
    exact Function.update_of_ne ne _ _
  have own : (t.insert name value).data t.fresh = ⟨len, name, value⟩ := Function.update_self _ _ _
  have old : (bucket S live (keyToItem S (sfCrc k))).find?
      (nodeMatches (t.insert name value).data compareName k len) = t.search k := by
    rw [t.search_eq rep enough]
    apply Ring.find_congr
    intro a ha
    simp only [nodeMatches, compareName, older a ha]
  have grown : (t.insert name value).search k =
      (t.search k).or (if k = name then some t.fresh else none) := by
    rw [search_eq _ rep' (by simpa [insert] using enough), bucket_append, List.find?_append, old]
    congr 1
    by_cases same : k = name
    · simp [same, nodeMatches, compareName, own]
    · split
      · simp [nodeMatches, compareName, own, Ne.symm same]
      · simp
  rw [lookup, grown, lookup]
  cases found : t.search k with
  | none =>
    split
    · simp [own]
    · rfl
  | some a =>
    have inside : a ∈ bucket S live (keyToItem S (sfCrc k)) := by
      rw [t.search_eq rep enough] at found
      exact List.mem_of_find?_eq_some found
    simp [older a inside]

/-- A store to the node that a search finds changes what is stored under its name. -/
theorem lookup_store {name : CString} {a : Nat} (found : t.search name = some a) (value : β)
    (k : CString) : (t.store a value).lookup k = if k = name then some value else t.lookup k := by
  obtain ⟨live, rep, -, enough⟩ := t.exists_live
  have rep' : Represents (t.store a value).state live := rep
  have names : ∀ b, ((t.store a value).data b).iDataLen = (t.data b).iDataLen ∧
      ((t.store a value).data b).body.1 = (t.data b).body.1 := by
    intro b
    by_cases own : b = a
    · rw [own, store]
      simp
    · simp [store, Function.update_of_ne own]
  have same : (t.store a value).search k = t.search k := by
    rw [search_eq _ rep' enough, t.search_eq rep enough]
    congr 1
    funext b
    simp only [nodeMatches, compareName, names b]
  rw [lookup, same, lookup]
  by_cases here : k = name
  · rw [here, found, if_pos rfl]
    simp [store]
  · rw [if_neg here]
    cases other : t.search k with
    | none => rfl
    | some b =>
      have ne : b ≠ a := by
        rintro rfl
        exact here ((t.search_name other).symm.trans (t.search_name found))
      simp [store, Function.update_of_ne ne]

end NameTable

end SpiderFrame.Hash
