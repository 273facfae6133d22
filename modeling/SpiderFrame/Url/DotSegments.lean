import SpiderFrame.Url.Reduce

/-!
# `redurceurl` against RFC 3986

`remove_dot_segments` of RFC 3986 for the segments of a path that a slash follows: a `.` is dropped,
a `..` is dropped with the segment in front of it that is left, and alone at the root. The function
agrees while no `..` comes to the site, and none takes away a `.` in the place of a segment that
it should drop.
-/

namespace SpiderFrame.Url
open SpiderFrame.Base SpiderFrame.Page

/-- A URL `scheme://authority/path`. The path is given by its segments, all with a slash behind
them, and the last one. -/
structure AbsoluteUrl where
  scheme : List Byte
  authority : List Byte
  dirs : List (List Byte)
  last : List Byte
  scheme_clean : 47#8 ∉ scheme
  authority_clean : 47#8 ∉ authority
  dirs_clean : ∀ seg ∈ dirs, 47#8 ∉ seg
  last_clean : 47#8 ∉ last

/-! ## The reference -/

/-- What one segment does to the segments before it. -/
def removeStep (out : List (List Byte)) (seg : List Byte) : List (List Byte) :=
  if seg = current then out
  else if seg = parent then out.dropLast
  else out ++ [seg]

/-- `remove_dot_segments`. -/
def removeDotSegments (dirs : List (List Byte)) : List (List Byte) := dirs.foldl removeStep []

/-- How a segment stands to the reference: a `.` cannot be taken away. -/
def rfcRole (seg : List Byte) : Role :=
  if seg = current then .neutral else if seg = parent then .closes else .opens

theorem removeStep_eq (out : List (List Byte)) (seg : List Byte) :
    removeStep out seg = stackStep rfcRole out seg := by
  unfold removeStep stackStep rfcRole
  by_cases dot : seg = current
  · simp [dot]
  · by_cases dots : seg = parent
    · subst dots
      simp [dot]
    · simp [dot, dots]

/-- **The reference keeps what no `..` takes away when `.` does not count.** -/
theorem removeDotSegments_eq (dirs : List (List Byte)) :
    removeDotSegments dirs = kept rfcRole dirs := by
  rw [← stack_eq_kept, removeDotSegments]
  congr 1
  funext out seg
  exact removeStep_eq out seg

theorem rfcRole_opens {seg : List Byte} :
    rfcRole seg = .opens ↔ seg ≠ current ∧ seg ≠ parent := by
  unfold rfcRole
  by_cases dot : seg = current
  · simp [dot]
  · by_cases dots : seg = parent
    · subst dots
      simp [dot]
    · simp [dot, dots]

theorem rfcRole_coarser : Coarser dirRole rfcRole where
  opens h := dirRole_opens.2 (rfcRole_opens.1 h).2
  closes := by
    intro seg
    unfold rfcRole dirRole
    by_cases dot : seg = current
    · simp [dot, current, parent]
    · by_cases dots : seg = parent
      · subst dots
        simp [dot]
      · simp [dot, dots]
  neutral := by
    intro seg h
    unfold dirRole at h
    split at h <;> cases h

/-- Of the segments that the first loop keeps, the second one leaves those that open for the
reference. -/
theorem filter_kept (dirs : List (List Byte)) :
    (kept dirRole dirs).filter (· ≠ current) =
      (kept dirRole dirs).filter (rfcRole · = .opens) := by
  apply List.filter_congr
  intro seg h
  have notParent := dirRole_opens.1 (opens_of_mem_kept dirRole h)
  simp [rfcRole_opens, notParent]

/-- Each directory that the loops leave, in turn, is spelled like the first of those that are missing, behind
which come those that the reference keeps. -/
def Regrown : List (List Byte) → List (List Byte) → Prop
  | missing, [] => missing = []
  | missing, seg :: dirs =>
    if rfcRole seg = .opens ∧ Covered dirRole dirs then
      ∃ missing', missing ++ (if Covered rfcRole dirs then [seg] else []) = seg :: missing' ∧
        Regrown missing' dirs
    else Regrown missing dirs

theorem regrown_iff (dirs missing : List (List Byte)) :
    (kept dirRole dirs).filter (rfcRole · = .opens) = missing ++ kept rfcRole dirs ↔ Regrown missing dirs := by
  induction dirs generalizing missing with
  | nil =>
    rw [kept, kept, List.append_nil, Regrown]
    exact eq_comm
  | cons seg dirs ih =>
    have fewer := (rfcRole_coarser.kept_sublist dirs).length_le
    rw [Regrown]
    by_cases left : rfcRole seg = .opens ∧ Covered dirRole dirs
    · have dir := rfcRole_coarser.opens left.1
      rw [if_pos left, kept, if_pos ⟨dir, left.2⟩, List.filter_cons_of_pos (by simpa using left.1)]
      have both : missing ++ kept rfcRole (seg :: dirs) =
          missing ++ (if Covered rfcRole dirs then [seg] else []) ++ kept rfcRole dirs := by
        rw [kept, List.append_assoc]
        by_cases cov : Covered rfcRole dirs
        · rw [if_pos ⟨left.1, cov⟩, if_pos cov, List.singleton_append]
        · rw [if_neg fun both => cov both.2, if_neg cov, List.nil_append]
      rw [both]
      cases missing ++ (if Covered rfcRole dirs then [seg] else []) with
      | nil =>
        constructor
        · intro same
          -- the reference keeps no more than the loops leave
          have longer := congrArg List.length same
          rw [List.length_cons, List.nil_append] at longer
          omega
        · rintro ⟨rest, same, -⟩
          cases same
      | cons x rest =>
        rw [List.cons_append, List.cons.injEq, ih rest]
        constructor
        · rintro ⟨rfl, more⟩
          exact ⟨rest, rfl, more⟩
        · rintro ⟨rest', same, more⟩
          obtain ⟨rfl, rfl⟩ := List.cons.inj same
          exact ⟨rfl, more⟩
    · have quiet : ¬ (rfcRole seg = .opens ∧ Covered rfcRole dirs) := fun both =>
        left ⟨both.1, rfcRole_coarser.covered both.2⟩
      rw [if_neg left, ← ih missing, kept, kept, if_neg quiet]
      by_cases dir : dirRole seg = .opens ∧ Covered dirRole dirs
      · have dropped : ¬ rfcRole seg = .opens := fun opens => left ⟨opens, dir.2⟩
        rw [if_pos dir, List.filter_cons_of_neg (by simpa using dropped)]
      · rw [if_neg dir]

namespace AbsoluteUrl

variable (url : AbsoluteUrl)

/-- All segments with a slash behind them; the scheme has its `:`, and the two slashes are around an
empty segment. -/
def segs : List (List Byte) := (url.scheme ++ [58#8]) :: [] :: url.authority :: url.dirs

/-- `scheme://authority`. -/
def site : List Byte := url.scheme ++ [58#8, 47#8, 47#8] ++ url.authority

def text : List Byte := url.site ++ 47#8 :: joined url.dirs url.last

theorem text_cut : Cut url.text url.segs url.last := by
  refine ⟨by simp [text, site, segs, joined], ?_, url.last_clean⟩
  intro seg hseg
  simp only [segs, List.mem_cons] at hseg
  obtain rfl | rfl | rfl | hseg := hseg
  · rw [List.mem_append, not_or]
    exact ⟨url.scheme_clean, by decide⟩
  · exact List.not_mem_nil
  · exact url.authority_clean
  · exact url.dirs_clean seg hseg

/-- The URL with the path that the reference gives. -/
def resolved : List Byte := url.site ++ 47#8 :: joined (removeDotSegments url.dirs) url.last

theorem resolved_cut : Cut url.resolved
    ((url.scheme ++ [58#8]) :: [] :: url.authority :: removeDotSegments url.dirs) url.last := by
  have inside : (removeDotSegments url.dirs).Sublist url.dirs := by
    rw [removeDotSegments_eq]
    exact kept_sublist rfcRole url.dirs
  have cut := url.text_cut.sublist (((inside.cons_cons url.authority).cons_cons []).cons_cons
    (url.scheme ++ [58#8]))
  exact ⟨by simp [resolved, site, joined], cut.segs, cut.last⟩

/-- No `..` comes to the authority, which is no dot segment itself. A segment that some `..` takes
away when `.` does not count is taken away when it does. -/
def Spared : Prop :=
  url.authority ≠ current ∧ url.authority ≠ parent ∧ Covered dirRole url.dirs ∧
    ∀ front seg back, url.dirs = front ++ seg :: back → seg ≠ current → seg ≠ parent →
      Covered dirRole back → Covered rfcRole back

/-- What the `..` of the path take away of the site, which is an empty segment and the authority. -/
def taken : List (List Byte) := [[], url.authority].drop (2 + lowest dirRole url.dirs).toNat

/-- Some `..` come to the site, and the directories that stay take the places of what is missing. -/
def Restored : Prop :=
  url.authority ≠ current ∧ url.authority ≠ parent ∧ ¬ Covered dirRole url.dirs ∧
    Regrown url.taken url.dirs

/-- The loops leave the site again exactly when the directories that stay take the places of what the `..`
have taken away of it. -/
theorem keeps_iff_regrown :
    (kept dirRole ([] :: url.authority :: url.dirs)).filter (· ≠ current) =
        [] :: url.authority :: kept rfcRole url.dirs ↔
      url.authority ≠ current ∧ url.authority ≠ parent ∧ Regrown url.taken url.dirs := by
  by_cases host : url.authority ≠ current ∧ url.authority ≠ parent
  · obtain ⟨notDot, notDots⟩ := host
    have low := lowest_le dirRole url.dirs
    -- the stack that the directories find
    have whole : kept dirRole ([] :: url.authority :: url.dirs) =
        [[], url.authority].take (2 + lowest dirRole url.dirs).toNat ++ kept dirRole url.dirs := by
      rw [← stack_eq_kept, List.foldl_cons, List.foldl_cons, foldl_stackStep]
      have site : stackStep dirRole (stackStep dirRole [] []) url.authority = [[], url.authority] := by
        rw [stackStep, dirRole_opens.2 notDots]
        rfl
      rw [site]
      rfl
    have stays : ([[], url.authority].take (2 + lowest dirRole url.dirs).toNat).filter (· ≠ current) =
        [[], url.authority].take (2 + lowest dirRole url.dirs).toNat := by
      refine List.filter_eq_self.2 fun seg inside => ?_
      rcases List.mem_pair.1 (List.mem_of_mem_take inside) with rfl | rfl
      · decide
      · simpa using notDot
    have site : [] :: url.authority :: kept rfcRole url.dirs =
        [[], url.authority].take (2 + lowest dirRole url.dirs).toNat ++
          (url.taken ++ kept rfcRole url.dirs) := by
      rw [← List.append_assoc, taken, List.take_append_drop]
      rfl
    rw [whole, List.filter_append, stays, site, List.append_cancel_left_eq, filter_kept, regrown_iff]
    exact (and_iff_right notDot).symm.trans (and_congr_right fun _ => (and_iff_right notDots).symm)
  · refine iff_of_false (fun same => host ?_) (fun spared => host ⟨spared.1, spared.2.1⟩)
    -- the authority would have to be left, and no dot segment is
    have left : url.authority ∈
        (kept dirRole ([] :: url.authority :: url.dirs)).filter (· ≠ current) := by
      rw [same]
      exact List.mem_cons_of_mem _ List.mem_cons_self
    obtain ⟨kept, notDot⟩ := List.mem_filter.1 left
    exact ⟨by simpa using notDot, dirRole_opens.1 (opens_of_mem_kept dirRole kept)⟩

/-- While no `..` comes to the site, that is so exactly when what the reference drops is spared. -/
theorem regrown_covered (covered : Covered dirRole url.dirs) :
    Regrown url.taken url.dirs ↔ ∀ front seg back, url.dirs = front ++ seg :: back → seg ≠ current →
      seg ≠ parent → Covered dirRole back → Covered rfcRole back := by
  have none_ : url.taken = [] := by
    rw [taken, (covered_iff dirRole).1 covered]
    rfl
  rw [none_, ← regrown_iff, List.nil_append, rfcRole_coarser.kept_eq_iff]
  simp only [rfcRole_opens, and_imp]

/-- **The site stays and the path becomes that of the reference exactly when no `..` comes to the
site or to a `.` in the place of a segment, or when directories that stay take the places of what is missing.** -/
theorem dot_segments_iff {s : Reducing} (ends : s ∈ reduced url.text) :
    s.url = url.resolved ↔ url.Spared ∨ url.Restored := by
  have cut := url.text_cut.segments_eq
  have shape : s.url = joined ((url.scheme ++ [58#8]) ::
      (kept dirRole ([] :: url.authority :: url.dirs)).filter (· ≠ current)) url.last := by
    rw [reduced_url ends, normal, interior, cut.1, cut.2]
    rfl
  have inside : ((url.scheme ++ [58#8]) ::
      (kept dirRole ([] :: url.authority :: url.dirs)).filter (· ≠ current)).Sublist url.segs :=
    (List.filter_sublist.trans (kept_sublist dirRole _)).cons_cons _
  have same : s.url = url.resolved ↔
      (kept dirRole ([] :: url.authority :: url.dirs)).filter (· ≠ current) =
        [] :: url.authority :: kept rfcRole url.dirs := by
    rw [← removeDotSegments_eq]
    constructor
    · intro e
      have cut' := url.resolved_cut
      rw [← e, shape] at cut'
      exact (List.cons.inj (joined_inj (url.text_cut.sublist inside) cut').1).2
    · intro e
      rw [shape, e, url.resolved_cut.joined]
  rw [same, keeps_iff_regrown]
  unfold Spared Restored
  by_cases covered : Covered dirRole url.dirs
  · have here := url.regrown_covered covered
    simp only [covered, not_true_eq_false, false_and, and_false, or_false, true_and, here]
  · simp only [covered, not_false_eq_true, false_and, and_false, false_or, true_and]

/-! ## Two URLs -/

/-- `http://h/a/../b`. -/
def pathParent : AbsoluteUrl where
  scheme := [104#8, 116#8, 116#8, 112#8]
  authority := [104#8]
  dirs := [[97#8], parent]
  last := [98#8]
  scheme_clean := by decide
  authority_clean := by decide
  dirs_clean := by decide
  last_clean := by decide

theorem dot_segments_iff_pathParent :
    ∃ s ∈ reduced pathParent.text,
      (s.url = pathParent.resolved ↔ pathParent.Spared ∨ pathParent.Restored) := by
  have covered : Covered dirRole (interior pathParent.text) := by decide
  obtain ⟨s, ends, -⟩ := exists_reduced covered
  exact ⟨s, ends, dot_segments_iff pathParent ends⟩

/-- `http://h/../x`. -/
def siteParent : AbsoluteUrl where
  scheme := [104#8, 116#8, 116#8, 112#8]
  authority := [104#8]
  dirs := [parent]
  last := [120#8]
  scheme_clean := by decide
  authority_clean := by decide
  dirs_clean := by decide
  last_clean := by decide

/-- `http://h/../x` becomes `http://x`. -/
theorem parent_takes_host :
    ¬ ∀ (url : AbsoluteUrl) (s : Reducing), s ∈ reduced url.text → s.url = url.resolved := by
  intro claim
  have covered : Covered dirRole (interior siteParent.text) := by decide
  obtain ⟨s, ends, result⟩ := exists_reduced covered
  have wrong := claim siteParent s ends
  rw [result] at wrong
  exact absurd wrong (by decide)

end AbsoluteUrl

end SpiderFrame.Url
