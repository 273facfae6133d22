import Mathlib.Data.List.Perm.Subperm
import SpiderFrame.Hash.Module
import SpiderFrame.Queue.Record

/-!
# The table of URLs and `sf_proc_insert_url` (`sf_proc.c`)

The table has `2 ^ 16` buckets. A node of it (`sf_hash_url_t`) stores the `BKDRHash` of a
URL under the CRC of the URL, never the string, so the table is known by the
fingerprints it has seen: the bucket of the CRC and the hash (`seen_init`, `seen_insert`).
Allocation does not fail: a node is the next free address of the global pool.

`sf_proc_insert_url` is two critical sections, `urlSection` under `url_mutex` and
`fileSection` under `file_mutex`.
-/

namespace SpiderFrame.Queue
open SpiderFrame.Base SpiderFrame.Link SpiderFrame.Hash

/-- `sizeof(sf_hash_url_t) - sizeof(T_HashData)`. -/
def urlDataLen : Int := 8

/-- What the table can tell about a URL. -/
abbrev Fingerprint := Fin (2 ^ 16) × BitVec 64

def fingerprint (url : CString) : Fingerprint := (keyToItem 16 (sfCrc url), bkdrHash url)

/-- `compare_string`. -/
def compareString : HashCmpFun Nat (BitVec 64) CString := fun _ hd url => bkdrHash url == hd.body

/-- The same test, given the hash. -/
def compareKey : HashCmpFun Nat (BitVec 64) (BitVec 64) := fun _ hd key => key == hd.body

/-- `url_handle`, with the nodes below `fresh` allocated; the table is one. -/
structure UrlTable where
  state : HashState Nat 16
  data : Nat → HashData (BitVec 64)
  fresh : Nat
  represents : ∃ live, Represents state live ∧ ∀ e ∈ live, e.2 < fresh

namespace UrlTable

variable (t : UrlTable)

/-- Fuel for a walk of any ring of the table. -/
theorem exists_live : ∃ live, Represents t.state live ∧ (∀ e ∈ live, e.2 < t.fresh) ∧
    live.length ≤ t.fresh := by
  obtain ⟨live, rep, below⟩ := t.represents
  refine ⟨live, rep, below, ?_⟩
  have sub : live.map Prod.snd ⊆ List.range t.fresh := by
    intro a ha
    obtain ⟨e, he, rfl⟩ := List.mem_map.1 ha
    exact List.mem_range.2 (below e he)
  simpa using (List.Nodup.subperm rep.distinct sub).length_le

theorem init_made : (hashModuleInit Nat 16).isSome := rfl

/-- `HashModuleInit(global_pool, 16)`. -/
def init : UrlTable where
  state := ⟨⟨id, id⟩, (hashModuleInit Nat 16).get init_made⟩
  data _ := ⟨0, 0#64⟩
  fresh := 0
  represents := ⟨[], hashModuleInit_represents (Option.some_get init_made).symm _, by simp⟩

theorem search_ends (url : CString) : (hashModuleSearch t.fresh t.data t.state (sfCrc url)
    compareString url urlDataLen).isSome := by
  obtain ⟨live, rep, -, enough⟩ := t.exists_live
  rw [hashModuleSearch_represents rep enough]
  rfl

/-- `HashModuleSearch(h, key, compare_string, url, ..)`. -/
def search (url : CString) : Option Nat :=
  (hashModuleSearch t.fresh t.data t.state (sfCrc url) compareString url urlDataLen).get
    (t.search_ends url)

/-- `AllocHashData`, `pData->key = BKDRHash(url)` and `HashModuleInsert`. -/
def insert (url : CString) : UrlTable where
  state := hashModuleInsert t.state (sfCrc url) t.fresh
  data := Function.update t.data t.fresh ⟨urlDataLen, bkdrHash url⟩
  fresh := t.fresh + 1
  represents := by
    obtain ⟨live, rep, below⟩ := t.represents
    have new : t.fresh ∉ live.map Prod.snd := by
      intro ha
      obtain ⟨e, he, same⟩ := List.mem_map.1 ha
      have := below e he
      omega
    refine ⟨_, hashModuleInsert_represents rep new, ?_⟩
    intro e he
    rcases List.mem_append.1 he with he | he
    · exact Nat.lt_succ_of_lt (below e he)
    · rw [List.mem_singleton.1 he]
      exact Nat.lt_succ_self _

/-- A node with this fingerprint is found. -/
def seen (k : Fingerprint) : Bool :=
  ((Hash.search t.fresh t.data t.state.links (t.state.handle.taHashItem k.1) compareKey k.2
    urlDataLen).getD none).isSome

/-! ## The table is the set of its fingerprints -/

/-- The test that looks for a fingerprint at a node. -/
abbrev carries (data : Nat → HashData (BitVec 64)) (key : BitVec 64) (a : Nat) : Bool :=
  nodeMatches data compareKey key urlDataLen a

theorem seen_eq {live : Live Nat} (rep : Represents t.state live) (enough : live.length ≤ t.fresh)
    (k : Fingerprint) : t.seen k = (bucket 16 live k.1).any (carries t.data k.2) := by
  rw [seen, search_represents rep enough, Option.getD_some, Bool.eq_iff_iff, List.find?_isSome,
    List.any_eq_true]

/-- A URL is found if and only if its fingerprint has been seen. -/
theorem search_isSome (url : CString) : (t.search url).isSome = t.seen (fingerprint url) := by
  obtain ⟨live, rep, -, enough⟩ := t.exists_live
  have found : t.search url = (bucket 16 live (keyToItem 16 (sfCrc url))).find?
      (carries t.data (bkdrHash url)) := by
    simp only [search, hashModuleSearch_represents rep enough]
    rfl
  rw [found, t.seen_eq rep enough, Bool.eq_iff_iff, List.find?_isSome, List.any_eq_true]
  rfl

theorem seen_init (k : Fingerprint) : init.seen k = false := rfl

theorem seen_insert (url : CString) (k : Fingerprint) :
    (t.insert url).seen k = true ↔ k = fingerprint url ∨ t.seen k = true := by
  obtain ⟨live, rep, below, enough⟩ := t.exists_live
  have new : t.fresh ∉ live.map Prod.snd := by
    intro ha
    obtain ⟨e, he, same⟩ := List.mem_map.1 ha
    have := below e he
    omega
  have rep' : Represents (t.insert url).state (live ++ [(sfCrc url, t.fresh)]) :=
    hashModuleInsert_represents rep new
  have old : (bucket 16 live k.1).any (carries (t.insert url).data k.2) =
      (bucket 16 live k.1).any (carries t.data k.2) := by
    rw [Bool.eq_iff_iff, List.any_eq_true, List.any_eq_true]
    refine exists_congr fun a => and_congr_right fun ha => ?_
    have ne : a ≠ t.fresh := fun e => new (e ▸ bucket_sublist.subset ha)
    simp [carries, nodeMatches, compareKey, insert, Function.update_of_ne ne]
  have own : carries (t.insert url).data k.2 t.fresh = (k.2 == bkdrHash url) := by
    simp [carries, nodeMatches, compareKey, insert]
  rw [(t.insert url).seen_eq rep' (by simpa [insert] using enough), t.seen_eq rep enough,
    bucket_append, List.any_append, Bool.or_eq_true, or_comm, old]
  refine or_congr ?_ Iff.rfl
  split
  · rename_i same
    simp [own, fingerprint, Prod.ext_iff, same]
  · rename_i other
    simp [fingerprint, Prod.ext_iff, Ne.symm other]

end UrlTable

/-! ## `sf_proc_insert_url` -/

/-- The section under `url_mutex`; `true` when the URL goes on to the file. -/
def urlSection (t : UrlTable) (url : CString) : UrlTable × Bool :=
  match t.search url with
  | none => (t.insert url, true)
  | some _ => (t, false)

/-- The section under `file_mutex`. -/
def fileSection (urlTxt : List Byte) (level : Int) (url : CString) : List Byte :=
  urlTxt ++ fprintfRecord level url

/-- A call that runs without interference. -/
def sfProcInsertUrl (t : UrlTable) (urlTxt : List Byte) (level : Int) (url : CString) :
    UrlTable × List Byte :=
  match urlSection t url with
  | (t, true) => (t, fileSection urlTxt level url)
  | (t, false) => (t, urlTxt)

theorem urlSection_new {t : UrlTable} {url : CString} (new : t.seen (fingerprint url) = false) :
    urlSection t url = (t.insert url, true) := by
  rw [← t.search_isSome, Option.isSome_eq_false_iff, Option.isNone_iff_eq_none] at new
  simp [urlSection, new]

theorem urlSection_known {t : UrlTable} {url : CString} (known : t.seen (fingerprint url) = true) :
    urlSection t url = (t, false) := by
  rw [← t.search_isSome, Option.isSome_iff_exists] at known
  obtain ⟨a, found⟩ := known
  simp [urlSection, found]

/-- After the section the table has seen the URL besides what it had seen. -/
theorem urlSection_seen (t : UrlTable) (url : CString) (k : Fingerprint) :
    (urlSection t url).1.seen k = true ↔ k = fingerprint url ∨ t.seen k = true := by
  cases h : t.seen (fingerprint url) with
  | false => rw [urlSection_new h, t.seen_insert]
  | true =>
    rw [urlSection_known h]
    exact ⟨.inr, fun hk => hk.elim (fun e => e ▸ h) id⟩

end SpiderFrame.Queue
