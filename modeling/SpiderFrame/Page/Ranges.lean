import SpiderFrame.Conf.Load
import SpiderFrame.Page.Spider

/-!
# The range tests (`sf_proc.c`, `sf_conf.c`)

`sf_proc_url_rewrite_range` goes over the ranges twice: the first walk looks for a black pattern that
matches, the second for a white one. `sf_proc_url_match_range` goes over the ranges of a policy once,
and reads the white patterns alone, though `sf_conf_policy_range` has loaded black ones too. So the
two tests differ where both kinds match (`range_tests_agree_iff`).
-/

namespace SpiderFrame.Page
open SpiderFrame.Queue

variable {Re : Type}

/-- What `sf_proc_url_rewrite_range` returns: `url`, `NULL`, or what `sf_rewrite_exp` makes of a
template and a match. -/
inductive Answer (Re : Type) where
  | url
  | null
  | rewrite (urlRewrite : Option CString) (re : Re) (hit : Int × List Int)

def Answer.value (pcre : Pcre Re) (url : CString) : Answer Re → Option (Option CString)
  | .url => some (some url)
  | .null => some none
  | .rewrite urlRewrite re hit => (sfRewriteExp pcre urlRewrite re url hit).map some

/-- The first loop. -/
def blackLoop (pcre : Pcre Re) (url : CString) : List (Range Re) → Bool
  | [] => false
  | range :: next =>
    match range.urlBlack with
    | some re => if 0 ≤ (pcre.exec re url.bytes).1 then true else blackLoop pcre url next
    | none => blackLoop pcre url next

/-- The second loop. -/
def whiteLoop (pcre : Pcre Re) (url : CString) : List (Range Re) → Answer Re
  | [] => .null
  | range :: next =>
    match range.urlWhite with
    | some re =>
      let hit := pcre.exec re url.bytes
      if 0 ≤ hit.1 then .rewrite range.urlRewrite re hit else whiteLoop pcre url next
    | none => whiteLoop pcre url next

/-- `sf_proc_url_rewrite_range(url, range, pool)`. -/
def rangeWalk (pcre : Pcre Re) (url : CString) (ranges : List (Range Re)) : Answer Re :=
  if ranges.isEmpty then .url
  else if blackLoop pcre url ranges then .null
  else whiteLoop pcre url ranges

/-- A pattern that is there and matches. -/
def Matches (pcre : Pcre Re) (url : CString) (re : Option Re) : Prop :=
  ∃ re' ∈ re, 0 ≤ (pcre.exec re' url.bytes).1

/-- What a list of ranges means for a URL. -/
structure Filters (pcre : Pcre Re) (url : CString) (ranges : List (Range Re)) : Prop where
  empty : ranges = [] → (rangeWalk pcre url ranges).value pcre url = some (some url)
  null : ranges ≠ [] → (∃ range ∈ ranges, Matches pcre url range.urlBlack) ∨
      (∀ range ∈ ranges, ¬ Matches pcre url range.urlWhite) →
    (rangeWalk pcre url ranges).value pcre url = some none
  rewrite : ∀ front range back re, ranges = front ++ range :: back →
    (∀ range ∈ ranges, ¬ Matches pcre url range.urlBlack) →
    (∀ range ∈ front, ¬ Matches pcre url range.urlWhite) →
    range.urlWhite = some re → 0 ≤ (pcre.exec re url.bytes).1 →
      (rangeWalk pcre url ranges).value pcre url =
        (sfRewriteExp pcre range.urlRewrite re url (pcre.exec re url.bytes)).map some
  permuted : ranges ≠ [] → ∀ ranges', ranges.Perm ranges' →
    ((rangeWalk pcre url ranges').value pcre url = some none ↔
      (rangeWalk pcre url ranges).value pcre url = some none)

section Walk

variable {pcre : Pcre Re} {url : CString}

@[simp] theorem matches_none : ¬ Matches pcre url (none : Option Re) := by
  simp [Matches]

@[simp] theorem matches_some {re : Re} :
    Matches pcre url (some re) ↔ 0 ≤ (pcre.exec re url.bytes).1 := by
  simp [Matches]

theorem matched_isSome {re : Option Re} : (matched pcre re url).isSome ↔ Matches pcre url re := by
  cases re with
  | none => simp [matched]
  | some re => simp [matched]

theorem blackLoop_iff {ranges : List (Range Re)} :
    blackLoop pcre url ranges = true ↔ ∃ range ∈ ranges, Matches pcre url range.urlBlack := by
  induction ranges with
  | nil => simp [blackLoop]
  | cons range next ih =>
    rw [blackLoop, List.exists_mem_cons_iff]
    cases range.urlBlack with
    | none => simpa using ih
    | some re =>
      by_cases hit : 0 ≤ (pcre.exec re url.bytes).1
      · simp [hit]
      · simpa [hit] using ih

theorem whiteLoop_null_iff {ranges : List (Range Re)} :
    whiteLoop pcre url ranges = .null ↔ ∀ range ∈ ranges, ¬ Matches pcre url range.urlWhite := by
  induction ranges with
  | nil => simp [whiteLoop]
  | cons range next ih =>
    rw [whiteLoop, List.forall_mem_cons]
    cases range.urlWhite with
    | none => simpa using ih
    | some re =>
      by_cases hit : 0 ≤ (pcre.exec re url.bytes).1
      · simp [hit]
      · simpa [hit] using ih

/-- Ranges whose white pattern does not match are passed over. -/
theorem whiteLoop_append {front : List (Range Re)} (back : List (Range Re))
    (pass : ∀ range ∈ front, ¬ Matches pcre url range.urlWhite) :
    whiteLoop pcre url (front ++ back) = whiteLoop pcre url back := by
  induction front with
  | nil => rfl
  | cons range front ih =>
    obtain ⟨here, rest⟩ := List.forall_mem_cons.1 pass
    rw [List.cons_append, whiteLoop]
    cases white : range.urlWhite with
    | none => exact ih rest
    | some re =>
      rw [white, matches_some] at here
      simpa [here] using ih rest

/-- The second loop stops at the range that `whiteRange` names. -/
theorem whiteLoop_whiteRange (ranges : List (Range Re)) :
    whiteLoop pcre url ranges =
      match whiteRange pcre url ranges with
      | some (range, re, hit) => .rewrite range.urlRewrite re hit
      | none => .null := by
  induction ranges with
  | nil => rfl
  | cons range next ih =>
    rw [whiteLoop, whiteRange, List.findSome?_cons]
    cases white : range.urlWhite with
    | none =>
      simp only [matched, Option.bind_none, Option.map_none]
      exact ih
    | some re =>
      by_cases hit : 0 ≤ (pcre.exec re url.bytes).1
      · simp [matched, hit]
      · simp only [matched, Option.bind_some, hit, if_false, Option.map_none]
        exact ih

/-- **The two walks give what the function over the list gives.** -/
theorem rangeWalk_value (ranges : List (Range Re)) :
    (rangeWalk pcre url ranges).value pcre url = sfProcUrlRewriteRange pcre url ranges := by
  have black : (ranges.any fun range => (matched pcre range.urlBlack url).isSome) =
      blackLoop pcre url ranges := by
    rw [Bool.eq_iff_iff, blackLoop_iff, List.any_eq_true]
    simp only [matched_isSome]
  rw [rangeWalk, sfProcUrlRewriteRange, black, whiteLoop_whiteRange]
  cases ranges.isEmpty with
  | true => rfl
  | false =>
    cases blackLoop pcre url ranges with
    | true => rfl
    | false =>
      cases whiteRange pcre url ranges with
      | none => rfl
      | some found => rfl

theorem Answer.value_null_iff {answer : Answer Re} :
    answer.value pcre url = some none ↔ answer = .null := by
  cases answer with
  | url => simp [value]
  | null => simp [value]
  | rewrite urlRewrite re hit => simp [value]

theorem rangeWalk_null_iff {ranges : List (Range Re)} (nonEmpty : ranges ≠ []) :
    rangeWalk pcre url ranges = .null ↔ (∃ range ∈ ranges, Matches pcre url range.urlBlack) ∨
      ∀ range ∈ ranges, ¬ Matches pcre url range.urlWhite := by
  rw [rangeWalk, if_neg (by simpa using nonEmpty), ← blackLoop_iff, ← whiteLoop_null_iff]
  cases blackLoop pcre url ranges with
  | true => simp
  | false => simp

end Walk

/-- **The ranges filter as they should.** -/
theorem range_filters (pcre : Pcre Re) (url : CString) (ranges : List (Range Re)) :
    Filters pcre url ranges where
  empty := by
    rintro rfl
    rfl
  null nonEmpty drops := Answer.value_null_iff.2 ((rangeWalk_null_iff nonEmpty).2 drops)
  rewrite front range back re split noBlack pass white hit := by
    have nonEmpty : ¬ ranges.isEmpty := by simp [split]
    have black : ¬ blackLoop pcre url ranges := by
      rw [blackLoop_iff]
      rintro ⟨range, inside, hit⟩
      exact noBlack range inside hit
    rw [rangeWalk, if_neg nonEmpty, if_neg black, split, whiteLoop_append _ pass, whiteLoop, white]
    simp only [if_pos hit, Answer.value]
  permuted nonEmpty ranges' perm := by
    have nonEmpty' : ranges' ≠ [] := fun none_ => nonEmpty (by rw [none_] at perm; exact perm.eq_nil)
    rw [Answer.value_null_iff, Answer.value_null_iff, rangeWalk_null_iff nonEmpty,
      rangeWalk_null_iff nonEmpty']
    simp only [perm.mem_iff]

/-! ## The ranges of a policy -/

def PolicyRange.range (r : PolicyRange Re) : Range Re := ⟨some r.urlWhite, r.urlBlack, none⟩

/-- The loop of `sf_proc_url_match_range`. -/
def matchLoop (pcre : Pcre Re) (url : CString) : List (PolicyRange Re) → Bool
  | [] => false
  | range :: next =>
    if 0 ≤ (pcre.exec range.urlWhite url.bytes).1 then true else matchLoop pcre url next

/-- `sf_proc_url_match_range(url, range)`. -/
def matchRange (pcre : Pcre Re) (url : CString) (ranges : List (PolicyRange Re)) : Bool :=
  if ranges.isEmpty then true else matchLoop pcre url ranges

theorem matchLoop_iff {pcre : Pcre Re} {url : CString} {ranges : List (PolicyRange Re)} :
    matchLoop pcre url ranges = true ↔
      ∃ range ∈ ranges, 0 ≤ (pcre.exec range.urlWhite url.bytes).1 := by
  induction ranges with
  | nil => simp [matchLoop]
  | cons range next ih =>
    rw [matchLoop, List.exists_mem_cons_iff]
    by_cases hit : 0 ≤ (pcre.exec range.urlWhite url.bytes).1
    · simp [hit]
    · simpa [hit] using ih

/-- The spiders read the white patterns alone. -/
theorem matchRange_spider (env : Env Re) (url : CString) (ranges : List (PolicyRange Re)) :
    matchRange env.pcre url ranges =
      sfProcUrlMatchRange env url (ranges.map PolicyRange.urlWhite) := by
  cases ranges with
  | nil => rfl
  | cons range next =>
    rw [Bool.eq_iff_iff]
    show matchLoop env.pcre url (range :: next) = true ↔ _
    rw [matchLoop_iff]
    simp [sfProcUrlMatchRange]

/-- The two tests of one URL say the same. -/
def Agree (pcre : Pcre Re) (url : CString) (ranges : List (PolicyRange Re)) : Prop :=
  matchRange pcre url ranges = true ↔
    (rangeWalk pcre url (ranges.map PolicyRange.range)).value pcre url ≠ some none

/-- Some white pattern matches, and some black one. -/
def BothMatch (pcre : Pcre Re) (url : CString) (ranges : List (PolicyRange Re)) : Prop :=
  (∃ range ∈ ranges, 0 ≤ (pcre.exec range.urlWhite url.bytes).1) ∧
    ∃ range ∈ ranges, Matches pcre url range.urlBlack

theorem policy_null_iff {pcre : Pcre Re} {url : CString} {ranges : List (PolicyRange Re)}
    (nonEmpty : ranges ≠ []) :
    (rangeWalk pcre url (ranges.map PolicyRange.range)).value pcre url = some none ↔
      (∃ range ∈ ranges, Matches pcre url range.urlBlack) ∨
        ∀ range ∈ ranges, ¬ 0 ≤ (pcre.exec range.urlWhite url.bytes).1 := by
  rw [Answer.value_null_iff, rangeWalk_null_iff (by simpa using nonEmpty)]
  simp [PolicyRange.range]

/-- **The range tests agree unless both a white and a black pattern match.** -/
theorem range_tests_agree_iff (pcre : Pcre Re) (url : CString) {ranges : List (PolicyRange Re)}
    (nonEmpty : ranges ≠ []) : Agree pcre url ranges ↔ ¬ BothMatch pcre url ranges := by
  have white : matchRange pcre url ranges = true ↔
      ∃ range ∈ ranges, 0 ≤ (pcre.exec range.urlWhite url.bytes).1 := by
    rw [matchRange, if_neg (by simpa using nonEmpty), matchLoop_iff]
  rw [Agree, white, ne_eq, policy_null_iff nonEmpty, BothMatch]
  push Not
  constructor
  · intro same hit range inside black
    exact (same.1 hit).1 range inside black
  · intro noBlack
    refine ⟨fun hit => ⟨noBlack hit, ?_⟩, fun rest => ?_⟩
    · obtain ⟨range, inside, matches_⟩ := hit
      exact ⟨range, inside, matches_⟩
    · exact rest.2

/-- `a` is taken by the white pattern `a`. -/
theorem range_tests_agree_iff_white :
    ([⟨97#8, none⟩] : List (PolicyRange Byte)) ≠ [] ∧
      Agree bytePcre (.ofBytes [97#8]) [⟨97#8, none⟩] := by
  refine ⟨by simp, (range_tests_agree_iff bytePcre (.ofBytes [97#8]) (by simp)).2 ?_⟩
  rintro ⟨-, range, inside, black⟩
  cases List.mem_singleton.1 inside
  exact matches_none black

/-- `<policy_range url_white="a" url_black="a"/>`. -/
def bothNode : Conf.XmlNode := .mk .policyRange [(.urlWhite, .ofBytes [97#8]), (.urlBlack, .ofBytes [97#8])] []

/-- A policy for `a`, but not for `a`: its pages are matched, and its links are not queued. -/
theorem policy_forgets_black :
    ∃ range, Conf.policyRangeOf byteCompile bothNode = some range ∧
      ¬ Agree bytePcre (.ofBytes [97#8]) [range] := by
  have loaded : Conf.policyRangeOf byteCompile bothNode = some ⟨97#8, some 97#8⟩ := rfl
  refine ⟨_, loaded, fun same => ?_⟩
  have matches_ : matchRange bytePcre (.ofBytes [97#8]) [⟨97#8, some 97#8⟩] = true := by decide
  have black : Matches bytePcre (.ofBytes [97#8]) (some 97#8) := by
    rw [matches_some]
    decide
  refine same.1 matches_ ((policy_null_iff (by simp)).2 (.inl ⟨_, List.mem_singleton_self _, ?_⟩))
  exact black

end SpiderFrame.Page
