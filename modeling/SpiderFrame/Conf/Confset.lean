import SpiderFrame.Hash.Names

/-!
# The table of configuration files (`sf_confset.c`)

`hConfset` has `2 ^ 8` buckets. An entry names a configuration file and carries the spider
object made for it and the line of its last checkpoint. A search and an insertion are one
critical section each, under `hConfset_mutex`.
-/

namespace SpiderFrame.Conf
open SpiderFrame.Hash

/-- `sf_hash_conf_t` without its head and its `conf_fn`; `s` is a nullable pointer. -/
structure HashConf where
  s : Option Nat
  line : Int
  deriving DecidableEq

/-- `sizeof(sf_hash_conf_t) - sizeof(T_HashData)`. -/
def confDataLen : Int := 24

abbrev Confset := NameTable 8 confDataLen HashConf

theorem confset_bits : 4 ≤ 8 ∧ 8 ≤ 24 := by decide

/-- `sf_confset_init()`. -/
def sfConfsetInit : Confset := .init confset_bits.1 confset_bits.2 ⟨none, 0⟩

/-- `sf_confset_search(conf_fn)`. -/
def sfConfsetSearch (t : Confset) (confFn : CString) : Option Nat := t.search confFn

/-- `sf_confset_insert(pData)`: an entry of a name that is in the table is left out. -/
def sfConfsetInsert (t : Confset) (confFn : CString) (pData : HashConf) : Confset :=
  match t.search confFn with
  | none => t.insert confFn pData
  | some _ => t

theorem lookup_sfConfsetInit (k : CString) : sfConfsetInit.lookup k = none :=
  NameTable.lookup_init _ _ _ k

/-- The first entry of a name stays. -/
theorem lookup_sfConfsetInsert (t : Confset) (confFn : CString) (pData : HashConf) (k : CString) :
    (sfConfsetInsert t confFn pData).lookup k =
      (t.lookup k).or (if k = confFn then some pData else none) := by
  unfold sfConfsetInsert
  cases found : t.search confFn with
  | none => exact t.lookup_insert confFn k pData
  | some a =>
    by_cases same : k = confFn
    · simp [same, NameTable.lookup, found]
    · simp [same]

end SpiderFrame.Conf
