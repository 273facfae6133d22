import SpiderFrame.Url.Merge
import SpiderFrame.Url.Temp

/-!
# Where `redurceurl` ends, and what it copies

A `..` needs a segment in front of it to take away, and so on back to the first slash of the URL:
then the function comes to its end, and no `.` or `..` stands between slashes any more. What it
copies to `temp` on the way is bounded only by the URL.
-/

namespace SpiderFrame.Url
open SpiderFrame.Base SpiderFrame.Page StateTransition

/-! ## No dot segments -/

theorem strstr_eq_none {pat : List Byte} (some_ : pat ≠ []) : ∀ {text : List Byte},
    strstr pat text = none → ¬ pat <:+: text
  | [], _, inside => some_ (List.eq_nil_of_infix_nil inside)
  | b :: text, absent, inside => by
    rw [strstr] at absent
    split at absent
    · cases absent
    · rename_i notHere
      rw [Option.map_eq_none_iff] at absent
      obtain here | later := List.infix_cons_iff.1 inside
      · exact notHere (List.isPrefixOf_iff_prefix.2 here)
      · exact strstr_eq_none some_ absent later

theorem slashed_ne_nil (dir : List Byte) : slashed dir ≠ [] := List.cons_ne_nil _ _

/-- What the function leaves has no dot segment between slashes. -/
theorem normal_clean (url : List Byte) :
    ¬ slashed parent <:+: normal url ∧ ¬ slashed current <:+: normal url := by
  have inside : ((segments url).take 1 ++
      (kept dirRole (interior url)).filter (· ≠ current)).Sublist (segments url) :=
    ((List.filter_sublist).append_left _).trans (kept_segments_sublist url)
  have cut := (cut_segments url).sublist inside
  have tail : ((segments url).take 1 ++
      (kept dirRole (interior url)).filter (· ≠ current)).tail =
        (kept dirRole (interior url)).filter (· ≠ current) := by
    rw [interior]
    cases segments url <;> simp [kept]
  constructor
  · refine strstr_eq_none (slashed_ne_nil _) (strstr_none parent_clean cut ?_)
    rw [tail]
    intro h
    have opens := opens_of_mem_kept dirRole (List.mem_filter.1 h).1
    exact dirRole_opens.1 opens rfl
  · refine strstr_eq_none (slashed_ne_nil _) (strstr_none current_clean cut ?_)
    rw [tail]
    intro h
    simpa using (List.mem_filter.1 h).2

/-- **The function ends with a URL without dot segments between slashes exactly when no beginning
of the list of these segments has more `..` than others.** -/
theorem redurceurl_normalises_iff (url : CString) :
    (∃ s ∈ reduced url.bytes, ¬ slashed parent <:+: s.url ∧ ¬ slashed current <:+: s.url) ↔
      Covered dirRole (interior url.bytes) := by
  rw [← reduced_dom]
  constructor
  · rintro ⟨s, ends, -⟩
    exact ⟨s, ends⟩
  · rintro ⟨s, ends⟩
    refine ⟨s, ends, ?_⟩
    rw [reduced_url ends]
    exact normal_clean _

/-- `/../../../x`. -/
def threeParents : CString where
  bytes := [47#8, 46#8, 46#8, 47#8, 46#8, 46#8, 47#8, 46#8, 46#8, 47#8, 120#8]
  noNul := by decide

/-- On the page `http://h/` the link `/../../../x` becomes a URL for which the function runs on. -/
theorem redurceurl_runs_on : ¬ ∀ (env : Env Pattern) (page : PageUrl) (link url : CString),
    completeUrl (withPatterns env) link page.str = some url →
      ∃ s ∈ reduced url.bytes, ¬ slashed parent <:+: s.url ∧ ¬ slashed current <:+: s.url := by
  intro claim
  let env := patternSite ⟨true, [], []⟩
  have built := PageUrl.completeUrl_bytes .root env threeParents
  obtain ⟨url, made, bytes⟩ := Option.map_eq_some_iff.1 built
  obtain ⟨s, ends, -⟩ := claim env .root threeParents url made
  have covered := (reduced_dom url.bytes).1 ⟨s, ends⟩
  rw [bytes] at covered
  exact absurd covered (by decide)

/-! ## Copies -/

/-- **Every copy fits into `temp` exactly when those fit that the dot segments of the URL stand
for.** -/
theorem temp_holds_iff (url : CString) :
    (∀ s, Reaches reduceStep ⟨.parents, url.bytes, []⟩ s → ∀ c ∈ s.copies, c.length + 1 ≤ 255) ↔
      FitsTemp url.bytes :=
  ⟨fits_of_copiesFit, copiesFit_of_fits⟩

/-- `a/../` and 255 letters. -/
def longLink : CString where
  bytes := [97#8, 47#8, 46#8, 46#8, 47#8] ++ List.replicate 255 98#8
  noNul := by
    rw [List.mem_append, List.mem_replicate]
    decide

/-- On the page `http://h/` this link becomes a URL of which 256 bytes are copied. -/
theorem temp_overflows : ¬ ∀ (env : Env Pattern) (page : PageUrl) (link url : CString),
    completeUrl (withPatterns env) link page.str = some url →
      ∀ s, Reaches reduceStep ⟨.parents, url.bytes, []⟩ s → ∀ c ∈ s.copies, c.length + 1 ≤ 255 := by
  intro claim
  let env := patternSite ⟨true, [], []⟩
  have built := PageUrl.completeUrl_bytes .root env longLink
  obtain ⟨url, made, bytes⟩ := Option.map_eq_some_iff.1 built
  have cut : Cut url.bytes ([http ++ [58#8], [], [104#8]] ++ [97#8] :: parent :: [])
      (List.replicate 255 98#8) := by
    refine ⟨bytes, by decide, ?_⟩
    rw [List.mem_replicate]
    decide
  have step := step_parent [] cut (by decide) (by decide)
  have short := claim env .root longLink url made _ (.single step) _ (List.mem_singleton_self _)
  rw [joined, List.length_replicate] at short
  exact absurd short (by decide)

end SpiderFrame.Url
