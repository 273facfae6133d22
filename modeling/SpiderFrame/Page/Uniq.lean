import SpiderFrame.Page.TraceRun

/-!
# Texts of a rule with a uniq key

A match of a rule writes the texts of its `out_pattern` attributes while its captures are worked
on. The uniq key is looked up behind them, and `sf_pcre_print_outbuf`, which stands behind the
look-up, returns at once. So a match whose key is known has written its texts like any other, and
a rule with an `out_pattern` writes once for each key only when no key comes twice
(`uniq_writes_once_iff`).
-/

namespace SpiderFrame.Page
open SpiderFrame.Base

variable {Re : Type}

/-- A match of a rule of the top-level spider: the value of its uniq key, and the texts it has
written to the pattern file. -/
def Event.uniqMatch (id : RuleId) : Event Re → Option (CString × List CString)
  | .uniq .top id' key texts => if id' = id then some (key, texts) else none
  | _ => none

/-- The matches of a rule in a run. -/
def uniqMatches (id : RuleId) (es : List (Event Re)) : List (CString × List CString) :=
  es.filterMap (Event.uniqMatch id)

/-- For each value of the uniq key, at most one match has written texts. -/
def WritesOnce (id : RuleId) (es : List (Event Re)) : Prop :=
  ∀ v, ((uniqMatches id es).filter fun m => m.1 = v ∧ m.2 ≠ []).length ≤ 1

/-- A match writes texts if and only if its rule has an `out_pattern`. -/
theorem written_of_mem {conf : Conf Re} {id : RuleId} {rule : Rule Re} {es : List (Event Re)}
    (sound : ∀ e ∈ es, e.Sound conf 0) (at_ : conf.ruleAt id = some rule)
    {m : CString × List CString} (inside : m ∈ uniqMatches id es) : m.2 = [] ↔ rule.noPattern := by
  obtain ⟨e, he, shown⟩ := List.mem_filterMap.1 inside
  have ok := sound e he
  unfold Event.uniqMatch at shown
  split at shown
  · split at shown
    · rename_i id' key texts same
      obtain ⟨rule', at', written⟩ := ok
      obtain rfl : rule' = rule := Option.some_inj.1 (at'.symm.trans (same ▸ at_))
      obtain rfl := Option.some_inj.1 shown
      exact written
    · cases shown
  · cases shown

/-- At most one element with each key is that no key comes twice. -/
theorem nodup_keys_iff (ms : List (CString × List CString)) :
    (∀ v, (ms.filter fun m => m.1 = v).length ≤ 1) ↔ (ms.map Prod.fst).Nodup := by
  rw [List.nodup_iff_count_le_one]
  apply forall_congr'
  intro v
  rw [List.count, List.countP_map, ← List.countP_eq_length_filter]
  have same : (fun m : CString × List CString => decide (m.1 = v)) = (· == v) ∘ Prod.fst := by
    funext m
    exact Bool.eq_iff_iff.2 (by simp)
  rw [same]

/-- **A rule writes once for each key if and only if it has no pattern, or no key comes twice.** -/
theorem uniq_writes_once_iff (env : Env Re) (fuel : Nat) (confFn : CString) (urlTxt : List Byte)
    (skipline : Int) (file : ConfFile Re) (conf : env.confFile 0 confFn = some file) (id : RuleId)
    (rule : Rule Re) (at_ : file.conf.ruleAt id = some rule) :
    WritesOnce id (mainRun env fuel confFn urlTxt skipline).1 ↔ rule.noPattern ∨
      ((uniqMatches id (mainRun env fuel confFn urlTxt skipline).1).map Prod.fst).Nodup := by
  have sound : ∀ e ∈ (mainRun env fuel confFn urlTxt skipline).1, e.Sound file.conf 0 := by
    intro e he
    obtain ⟨file', found, ok⟩ := mainRun_sound he
    rwa [Option.some_inj.1 (conf.symm.trans found)]
  generalize (mainRun env fuel confFn urlTxt skipline).1 = es at sound ⊢
  by_cases silent : rule.noPattern
  · refine iff_of_true (fun v => ?_) (.inl silent)
    have none_ : ((uniqMatches id es).filter fun m => m.1 = v ∧ m.2 ≠ []) = [] := by
      rw [List.filter_eq_nil_iff]
      intro m inside
      simp [(written_of_mem sound at_ inside).2 silent]
    rw [none_]
    exact Nat.zero_le _
  · rw [or_iff_right silent, ← nodup_keys_iff]
    apply forall_congr'
    intro v
    have all : ((uniqMatches id es).filter fun m => m.1 = v ∧ m.2 ≠ []) =
        (uniqMatches id es).filter fun m => m.1 = v := by
      apply List.filter_congr
      intro m inside
      have written : m.2 ≠ [] := fun empty => silent ((written_of_mem sound at_ inside).1 empty)
      simp [written]
    rw [all]

/-- One page with two matches, which have different keys. -/
theorem uniq_writes_once_twoKeys : WritesOnce (0, 0) (mainRun keySite 20 .empty oneRecord 0).1 ∧
    uniqMatches (0, 0) (mainRun keySite 20 .empty oneRecord 0).1 =
      [(.letter 1, [.letter 1]), (.letter 2, [.letter 2])] :=
  ⟨(uniq_writes_once_iff _ _ _ _ _ _ rfl (0, 0) _ rfl).2 (.inr (by decide +kernel)),
    by decide +kernel⟩

/-- One page with two matches, which have one key. -/
theorem pattern_written_twice : ¬ ∀ (env : Env Byte) (fuel : Nat) (confFn : CString)
    (urlTxt : List Byte) (skipline : Int) (file : ConfFile Byte),
    env.confFile 0 confFn = some file → ∀ (id : RuleId) (rule : Rule Byte),
      file.conf.ruleAt id = some rule → rule.uniq ≠ none →
        WritesOnce id (mainRun env fuel confFn urlTxt skipline).1 := by
  intro claim
  have once := claim (uniqSite [⟨some .empty, some (.letter 19), none, none, none⟩] [97#8, 97#8]) 20
    .empty oneRecord 0 _ rfl (0, 0) _ rfl (by simp [uniqRule]) (.letter 10)
  revert once
  decide +kernel

end SpiderFrame.Page
