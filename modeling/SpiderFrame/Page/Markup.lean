import SpiderFrame.Base.Rounds
import SpiderFrame.Page.Pointer

/-!
# The text outside the markup (`sf_pcre.c`)

`sf_pcre_getcontent` drops block quotations, scripts and styles with what is in them, and the tags of
other elements. `markup` says which parts of a text these are. Behind a block quotation the function
takes the next part without a look at it, so it differs where this part is not a tag
(`content_strips_iff`).
-/

namespace SpiderFrame.Page
open SpiderFrame.Base

/-- A byte that is kept, or so many bytes that are dropped. -/
inductive Part where
  | kept (b : Byte)
  | dropped (n : Nat)
  deriving DecidableEq

def Part.byte? : Part → Option Byte
  | .kept b => some b
  | .dropped _ => none

/-- What is in front of the rest of a text is dropped. -/
def cut (p rest : List Byte) : Part := .dropped (p.length - rest.length)

/-- The element that begins a text. -/
def element? (p : List Byte) : Option Element :=
  if blockquote.isPrefixOf p then some .blockquote
  else if script.isPrefixOf p then some .script
  else if style.isPrefixOf p then some .style
  else none

/-- The text behind the element that begins it: behind its first closing tag, or nothing. -/
def behindElement (e : Element) (p : List Byte) : List Byte :=
  behind e.closing (p.drop e.opening.length)

/-- The next part of a text, and the text behind it. -/
def markupRound : List Byte → List Part × List Byte
  | [] => ([], [])
  | b :: p =>
    if b = 60#8 then
      match element? (b :: p) with
      | some e => ([cut (b :: p) (behindElement e (b :: p))], behindElement e (b :: p))
      | none =>
        match (b :: p).dropWhile (· != 62#8) with
        | [] => ((b :: p).map .kept, [])
        | _ :: rest => ([cut (b :: p) rest], rest)
    else ([.kept b], p)

/-- The parts of a text. -/
def markup (p : List Byte) : List Part := rounds markupRound p.length p

/-- The text outside its markup. -/
def textOutside (p : List Byte) : List Byte := (markup p).filterMap Part.byte?

/-- What `sf_pcre_getcontent` does behind a block quotation. -/
def chainRound (p : List Byte) : List Part × List Byte :=
  if script.isPrefixOf p then ([cut p (behindElement .script p)], behindElement .script p)
  else if style.isPrefixOf p then ([cut p (behindElement .style p)], behindElement .style p)
  else
    match p.dropWhile (· != 62#8) with
    | [] => (p.map .kept, [])
    | _ :: rest => ([cut p rest], rest)

/-- A round of `sf_pcre_getcontent`, by its parts. -/
def contentRound : List Byte → List Part × List Byte
  | [] => ([], [])
  | b :: p =>
    if b = 60#8 then
      if blockquote.isPrefixOf (b :: p) then
        let next := behindElement .blockquote (b :: p)
        (cut (b :: p) next :: (chainRound next).1, (chainRound next).2)
      else chainRound (b :: p)
    else ([.kept b], p)

/-- The parts that `sf_pcre_getcontent` makes of a text. -/
def contentParts (p : List Byte) : List Part := rounds contentRound p.length p

/-- The captured text is taken apart at its markup, and what is outside is returned. -/
structure TagsStripped (text : CString) : Prop where
  parts : contentParts text.bytes = markup text.bytes
  content : (sfPcreGetcontent text).map CString.bytes = some (textOutside text.bytes)

/-- The first `>` ends the block quotation that begins a text. -/
def ClosesFirst (p : List Byte) : Prop :=
  ∃ b, p.dropWhile (· != 62#8) = b :: behindElement .blockquote p

/-- What may stand behind a block quotation: nothing; a `<` that does not begin another one, or
begins one that ends at the first `>`; or a text without a `>` in which the first `<` does not begin
an element. -/
inductive Apart (p : List Byte) : Prop where
  | empty (h : p = [])
  | tag (open_ : p.head? = some 60#8) (other : ¬ blockquote.isPrefixOf p)
  | quote (again : blockquote.isPrefixOf p) (closes : ClosesFirst p)
  | plain (unclosed : 62#8 ∉ p) (none_ : element? (p.dropWhile (· != 60#8)) = none)

/-- Each block quotation at the beginning of a round has such a text behind it. -/
def Clear : Nat → List Byte → Prop
  | 0, _ => True
  | _ + 1, [] => True
  | n + 1, b :: p =>
    (blockquote.isPrefixOf (b :: p) → Apart (behindElement .blockquote (b :: p))) ∧
      Clear n (contentRound (b :: p)).2

/-! ## The rounds -/

section Suffix

variable {p : List Byte}

theorem behind_suffix (tag : List Byte) : ∀ p : List Byte, behind tag p <:+ p
  | [] => List.suffix_refl []
  | b :: p => by
    unfold behind
    split
    · exact List.drop_suffix _ _
    · exact (behind_suffix tag p).trans (List.suffix_cons b p)

theorem behindElement_suffix (e : Element) (p : List Byte) : behindElement e p <:+ p :=
  (behind_suffix e.closing _).trans (List.drop_suffix _ _)

theorem behindElement_shorter (e : Element) (some_ : p ≠ []) :
    (behindElement e p).length < p.length := by
  have le := (behind_suffix e.closing (p.drop e.opening.length)).length_le
  have pos := List.length_pos_iff.2 some_
  have opening : 0 < e.opening.length := by cases e <;> decide
  rw [List.length_drop] at le
  show (behind e.closing (p.drop e.opening.length)).length < p.length
  omega

theorem dropWhile_cons_suffix {b : Byte} {rest : List Byte}
    (h : p.dropWhile (· != 62#8) = b :: rest) : b :: rest <:+ p :=
  h ▸ List.dropWhile_suffix _

theorem chainRound_shorter (some_ : p ≠ []) : (chainRound p).2.length < p.length := by
  unfold chainRound
  split
  · exact behindElement_shorter .script some_
  · split
    · exact behindElement_shorter .style some_
    · split
      · exact List.length_pos_iff.2 some_
      · rename_i b rest closes
        exact (dropWhile_cons_suffix closes).length_le

theorem chainRound_length_le (p : List Byte) : (chainRound p).2.length ≤ p.length := by
  cases p with
  | nil => decide
  | cons b p => exact Nat.le_of_lt (chainRound_shorter (List.cons_ne_nil b p))

/-- A round of the function and one of the markup differ at block quotations alone. -/
theorem contentRound_markup (other : ¬ blockquote.isPrefixOf p) : contentRound p = markupRound p := by
  cases p with
  | nil => rfl
  | cons b p =>
    rw [contentRound, markupRound]
    by_cases open_ : b = 60#8
    · rw [if_pos open_, if_pos open_, if_neg other, element?, if_neg other, chainRound]
      by_cases isScript : script.isPrefixOf (b :: p)
      · rw [if_pos isScript, if_pos isScript]
      · rw [if_neg isScript, if_neg isScript]
        by_cases isStyle : style.isPrefixOf (b :: p)
        · rw [if_pos isStyle, if_pos isStyle]
        · rw [if_neg isStyle, if_neg isStyle]
    · rw [if_neg open_, if_neg open_]

theorem blockquote_cons (quote : blockquote.isPrefixOf p) : ∃ q, p = 60#8 :: 98#8 :: q := by
  obtain ⟨q, rfl⟩ := List.isPrefixOf_iff_prefix.1 quote
  exact ⟨_, rfl⟩

theorem markupRound_quote (quote : blockquote.isPrefixOf p) :
    markupRound p = ([cut p (behindElement .blockquote p)], behindElement .blockquote p) := by
  obtain ⟨q, rfl⟩ := blockquote_cons quote
  rw [markupRound, if_pos rfl, element?, if_pos quote]

theorem contentRound_quote (quote : blockquote.isPrefixOf p) :
    contentRound p = (cut p (behindElement .blockquote p) ::
      (chainRound (behindElement .blockquote p)).1,
        (chainRound (behindElement .blockquote p)).2) := by
  obtain ⟨q, rfl⟩ := blockquote_cons quote
  rw [contentRound, if_pos rfl, if_pos quote]

theorem contentRound_shortens : Shortens contentRound := by
  intro p some_
  by_cases quote : blockquote.isPrefixOf p
  · rw [contentRound_quote quote]
    exact Nat.lt_of_le_of_lt (chainRound_length_le _) (behindElement_shorter .blockquote some_)
  · cases p with
    | nil => exact absurd rfl some_
    | cons b p =>
      rw [contentRound]
      by_cases open_ : b = 60#8
      · rw [if_pos open_, if_neg quote]
        exact chainRound_shorter some_
      · rw [if_neg open_]
        exact Nat.lt_succ_self _

theorem markupRound_shortens : Shortens markupRound := by
  intro p some_
  by_cases quote : blockquote.isPrefixOf p
  · rw [markupRound_quote quote]
    exact behindElement_shorter .blockquote some_
  · rw [← contentRound_markup quote]
    exact contentRound_shortens p some_

end Suffix

/-! ## Behind a block quotation -/

section Behind

variable {p : List Byte} {n : Nat}

theorem not_begins {b c : Byte} {q tag : List Byte} (other : b ≠ c) :
    ¬ (c :: tag).isPrefixOf (b :: q) := by
  rw [List.isPrefixOf_cons_cons, beq_eq_false_iff_ne.2 (Ne.symm other), Bool.false_and]
  decide

/-- A text that is neither a script nor a style. -/
theorem chainRound_tag (notScript : ¬ script.isPrefixOf p) (notStyle : ¬ style.isPrefixOf p) :
    chainRound p =
      match p.dropWhile (· != 62#8) with
      | [] => (p.map .kept, [])
      | _ :: rest => ([cut p rest], rest) := by
  rw [chainRound, if_neg notScript, if_neg notStyle]

theorem quote_not_chain (quote : blockquote.isPrefixOf p) :
    ¬ script.isPrefixOf p ∧ ¬ style.isPrefixOf p := by
  obtain ⟨q, rfl⟩ := blockquote_cons quote
  constructor <;> simp [script, style]

theorem none_not_chain (none_ : element? (p.dropWhile (· != 60#8)) = none) :
    ¬ script.isPrefixOf p ∧ ¬ style.isPrefixOf p := by
  cases p with
  | nil => decide
  | cons b q =>
    by_cases open_ : b = 60#8
    · subst open_
      rw [List.dropWhile_cons_of_neg (by decide), element?] at none_
      constructor
      · intro isScript
        by_cases quote : blockquote.isPrefixOf (60#8 :: q)
        · exact (quote_not_chain quote).1 isScript
        · rw [if_neg quote, if_pos isScript] at none_
          cases none_
      · intro isStyle
        by_cases quote : blockquote.isPrefixOf (60#8 :: q)
        · exact (quote_not_chain quote).2 isStyle
        · rw [if_neg quote] at none_
          by_cases isScript : script.isPrefixOf (60#8 :: q)
          · rw [if_pos isScript] at none_
            cases none_
          · rw [if_neg isScript, if_pos isStyle] at none_
            cases none_
    · exact ⟨not_begins open_, not_begins open_⟩

theorem dropWhile_unclosed (unclosed : 62#8 ∉ p) : p.dropWhile (· != 62#8) = [] := by
  rw [List.dropWhile_eq_nil_iff]
  intro b hb
  simpa using ne_of_mem_of_not_mem hb unclosed

theorem markup_step (some_ : p ≠ []) (enough : p.length ≤ n) :
    rounds markupRound n p = (markupRound p).1 ++ rounds markupRound n (markupRound p).2 :=
  rounds_step markupRound_shortens some_ enough

theorem markup_letter {b : Byte} {q : List Byte} (other : b ≠ 60#8) (enough : (b :: q).length ≤ n) :
    rounds markupRound n (b :: q) = .kept b :: rounds markupRound n q := by
  rw [markup_step (List.cons_ne_nil b q) enough, markupRound, if_neg other]
  rfl

/-- A text without a `>` whose first `<` begins no element has no markup. -/
theorem markup_plain (unclosed : 62#8 ∉ p) (none_ : element? (p.dropWhile (· != 60#8)) = none)
    (enough : p.length ≤ n) : rounds markupRound n p = p.map .kept := by
  induction p with
  | nil => rw [rounds_nil]; rfl
  | cons b q ih =>
    by_cases open_ : b = 60#8
    · subst open_
      rw [List.dropWhile_cons_of_neg (by decide)] at none_
      rw [markup_step (List.cons_ne_nil _ q) enough, markupRound, if_pos rfl, none_]
      simp only [dropWhile_unclosed unclosed, rounds_nil, List.append_nil]
    · rw [List.dropWhile_cons_of_pos (by simpa using open_)] at none_
      rw [List.mem_cons, not_or] at unclosed
      rw [markup_letter open_ enough, List.map_cons]
      rw [List.length_cons] at enough
      rw [ih unclosed.2 none_ (Nat.le_of_succ_le enough)]

/-- Where the first `<` begins an element, something is dropped. -/
theorem markup_drops (some_ : element? (p.dropWhile (· != 60#8)) ≠ none) (enough : p.length ≤ n) :
    ∃ k, Part.dropped k ∈ rounds markupRound n p := by
  induction p with
  | nil => exact absurd rfl some_
  | cons b q ih =>
    by_cases open_ : b = 60#8
    · subst open_
      rw [List.dropWhile_cons_of_neg (by decide)] at some_
      obtain ⟨e, isElement⟩ := Option.ne_none_iff_exists'.1 some_
      rw [markup_step (List.cons_ne_nil _ q) enough, markupRound, if_pos rfl, isElement]
      exact ⟨_, List.mem_cons_self⟩
    · rw [List.dropWhile_cons_of_pos (by simpa using open_)] at some_
      rw [markup_letter open_ enough]
      rw [List.length_cons] at enough
      obtain ⟨k, inside⟩ := ih some_ (Nat.le_of_succ_le enough)
      exact ⟨k, List.mem_cons_of_mem _ inside⟩

/-- Behind a block quotation the function takes the next part as it should ... -/
theorem apart_markup (h : Apart p) (enough : p.length ≤ n) :
    rounds markupRound n p = (chainRound p).1 ++ rounds markupRound n (chainRound p).2 := by
  cases h with
  | empty h =>
    subst h
    rw [rounds_nil]
    exact (rounds_nil n).symm
  | tag open_ other =>
    obtain ⟨q, rfl⟩ := List.head?_eq_some_iff.1 open_
    rw [markup_step (List.cons_ne_nil _ q) enough, ← contentRound_markup other, contentRound,
      if_pos rfl, if_neg other]
  | quote again closes =>
    obtain ⟨b, closes⟩ := closes
    obtain ⟨notScript, notStyle⟩ := quote_not_chain again
    have some_ : p ≠ [] := by
      rintro rfl
      cases again
    rw [markup_step some_ enough, markupRound_quote again, chainRound_tag notScript notStyle, closes]
  | plain unclosed none_ =>
    obtain ⟨notScript, notStyle⟩ := none_not_chain none_
    rw [markup_plain unclosed none_ enough, chainRound_tag notScript notStyle,
      dropWhile_unclosed unclosed]
    simp

/-- ... and otherwise not. -/
theorem not_apart (h : ¬ Apart p) (enough : p.length ≤ n) :
    (chainRound p).1 ++ rounds contentRound n (chainRound p).2 ≠ rounds markupRound n p := by
  cases p with
  | nil => exact absurd (.empty rfl) h
  | cons b q =>
    by_cases open_ : b = 60#8
    · -- another block quotation, which does not end at the first `>`
      subst open_
      have quote : blockquote.isPrefixOf (60#8 :: q) := by
        by_contra other
        exact h (.tag rfl other)
      obtain ⟨notScript, notStyle⟩ := quote_not_chain quote
      rw [markup_step (List.cons_ne_nil _ q) enough, markupRound_quote quote,
        chainRound_tag notScript notStyle]
      cases closes : (60#8 :: q).dropWhile (· != 62#8) with
      | nil =>
        intro same
        cases (List.cons.inj same).1
      | cons c rest =>
        intro same
        have length := Part.dropped.inj (List.cons.inj same).1
        have suffix := (List.suffix_cons c rest).trans (dropWhile_cons_suffix closes)
        have suffix' := behindElement_suffix .blockquote (60#8 :: q)
        have le := suffix.length_le
        have le' := suffix'.length_le
        have eq : rest.length = (behindElement .blockquote (60#8 :: q)).length := by omega
        have rest_ : rest = behindElement .blockquote (60#8 :: q) :=
          (List.suffix_of_suffix_length_le suffix suffix' (Nat.le_of_eq eq)).eq_of_length eq
        exact h (.quote quote ⟨c, rest_ ▸ closes⟩)
    · -- a text, of which nothing may be dropped
      have notScript : ¬ script.isPrefixOf (b :: q) := not_begins open_
      have notStyle : ¬ style.isPrefixOf (b :: q) := not_begins open_
      rw [chainRound_tag notScript notStyle]
      cases closes : (b :: q).dropWhile (· != 62#8) with
      | nil =>
        have unclosed : 62#8 ∉ b :: q := by
          intro inside
          have all := List.dropWhile_eq_nil_iff.1 closes _ inside
          exact absurd all (by decide)
        have drops := markup_drops (fun none_ => h (.plain unclosed none_)) enough
        obtain ⟨k, inside⟩ := drops
        intro same
        rw [← same, rounds_nil, List.append_nil] at inside
        obtain ⟨c, -, kept⟩ := List.mem_map.1 inside
        cases kept
      | cons c rest =>
        rw [markup_letter open_ enough]
        intro same
        cases (List.cons.inj same).1

/-- **The function makes the parts of the markup if and only if each block quotation has a text
behind it that is taken apart right.** -/
theorem contentParts_iff : ∀ {n : Nat} {p : List Byte}, p.length ≤ n →
    (rounds contentRound n p = rounds markupRound n p ↔ Clear n p) := by
  intro n
  induction n with
  | zero =>
    intro p _
    exact iff_of_true rfl trivial
  | succ n ih =>
    intro p enough
    cases p with
    | nil => exact iff_of_true rfl trivial
    | cons b q =>
      have some_ := List.cons_ne_nil b q
      have shorter := contentRound_shortens (b :: q) some_
      have next := ih (show (contentRound (b :: q)).2.length ≤ n by omega)
      rw [Clear, ← next, rounds, rounds]
      by_cases quote : blockquote.isPrefixOf (b :: q)
      · have shorter' := behindElement_shorter .blockquote some_
        have enough' : (behindElement .blockquote (b :: q)).length ≤ n := by omega
        rw [contentRound_quote quote, markupRound_quote quote, List.cons_append,
          List.singleton_append, List.cons_inj_right]
        by_cases apart : Apart (behindElement .blockquote (b :: q))
        · rw [apart_markup apart enough', List.append_cancel_left_eq]
          exact (and_iff_right fun _ => apart).symm
        · exact iff_of_false (not_apart apart enough') fun clear => apart (clear.1 quote)
      · rw [contentRound_markup quote, List.append_cancel_left_eq]
        exact (and_iff_right fun isQuote => absurd isQuote quote).symm

end Behind

/-! ## The returned text -/

theorem passChain_round (p : List Byte) :
    passChain p = ((chainRound p).1.filterMap Part.byte?, (chainRound p).2) := by
  rw [passChain, chainRound]
  by_cases isScript : script.isPrefixOf p
  · rw [if_pos isScript, if_pos isScript]
    rfl
  · rw [if_neg isScript, if_neg isScript]
    by_cases isStyle : style.isPrefixOf p
    · rw [if_pos isStyle, if_pos isStyle]
      rfl
    · rw [if_neg isStyle, if_neg isStyle]
      cases p.dropWhile (· != 62#8) with
      | nil => simp [List.filterMap_map, Function.comp_def, Part.byte?]
      | cons b rest => rfl

/-- What is kept of the parts is what the loop copies. -/
theorem contentLoop_parts {n : Nat} : ∀ {p : List Byte},
    contentLoop n p = (rounds contentRound n p).filterMap Part.byte? := by
  induction n with
  | zero =>
    intro p
    rfl
  | succ n ih =>
    intro p
    cases p with
    | nil => rfl
    | cons b q =>
      rw [rounds, List.filterMap_append, ← ih]
      by_cases open_ : b = 60#8
      · subst open_
        have loop : contentLoop (n + 1) (60#8 :: q) =
            (passTag (60#8 :: q)).1 ++ contentLoop n (passTag (60#8 :: q)).2 := rfl
        rw [loop, passTag_chain, passChain_round, contentRound, if_pos rfl]
        by_cases quote : blockquote.isPrefixOf (60#8 :: q)
        · rw [if_pos quote, if_pos quote]
          rfl
        · rw [if_neg quote, if_neg quote]
      · rw [contentLoop_letter q open_, contentRound, if_neg open_]
        rfl

/-- The bytes that are kept are bytes of the text. -/
theorem markupRound_kept {p : List Byte} :
    (∀ part ∈ (markupRound p).1, ∀ b, part = .kept b → b ∈ p) ∧ (markupRound p).2 ⊆ p := by
  cases p with
  | nil => exact ⟨nofun, List.Subset.refl _⟩
  | cons c q =>
    have one {rest : List Byte} (part : Part) (dropped : part = cut (c :: q) rest) :
        ∀ part' ∈ [part], ∀ b, part' = .kept b → b ∈ c :: q := by
      intro part' inside b kept
      rw [List.mem_singleton.1 inside, dropped] at kept
      cases kept
    rw [markupRound]
    by_cases open_ : c = 60#8
    · rw [if_pos open_]
      cases element? (c :: q) with
      | some e => exact ⟨one _ rfl, (behindElement_suffix e _).subset⟩
      | none =>
        cases closes : (c :: q).dropWhile (· != 62#8) with
        | nil =>
          refine ⟨?_, List.nil_subset _⟩
          intro part inside b kept
          obtain ⟨b', hb, rfl⟩ := List.mem_map.1 inside
          cases kept
          exact hb
        | cons b rest =>
          refine ⟨one _ rfl, ?_⟩
          exact ((List.suffix_cons b rest).trans (dropWhile_cons_suffix closes)).subset
    · rw [if_neg open_]
      refine ⟨?_, List.subset_cons_self _ _⟩
      intro part inside b kept
      rw [List.mem_singleton.1 inside] at kept
      cases kept
      exact List.mem_cons_self

theorem textOutside_noNul {text : List Byte} (noNul : 0#8 ∉ text) : 0#8 ∉ textOutside text := by
  intro inside
  obtain ⟨part, member, kept⟩ := List.mem_filterMap.1 inside
  have round_ : ∀ p, 0#8 ∉ p →
      (∀ part ∈ (markupRound p).1, part ≠ .kept 0#8) ∧ 0#8 ∉ (markupRound p).2 := by
    intro p clean
    refine ⟨fun part inside nul => ?_, fun inside => clean (markupRound_kept.2 inside)⟩
    exact clean (markupRound_kept.1 part inside 0#8 nul)
  have notNul := forall_rounds round_ noNul part member
  cases part with
  | dropped n => cases kept
  | kept b =>
    cases kept
    exact notNul rfl

/-- **The text outside the markup is returned, and nothing else is dropped, if and only if each block
quotation has a text behind it that is taken apart right.** -/
theorem content_strips_iff {text : CString} (nonEmpty : text.bytes ≠ []) :
    TagsStripped text ↔ Clear text.bytes.length text.bytes := by
  rw [← contentParts_iff (Nat.le_refl _)]
  constructor
  · intro stripped
    exact stripped.parts
  · intro same
    refine ⟨same, ?_⟩
    have bytes : contentLoop text.bytes.length text.bytes = textOutside text.bytes :=
      contentLoop_parts.trans (congrArg (List.filterMap Part.byte?) same)
    rw [sfPcreGetcontent, if_neg nonEmpty, bytes, Option.map_some,
      noNul_bytes (textOutside_noNul text.noNul)]

/-- `a<b>`. -/
theorem content_strips_iff_tag : TagsStripped (.ofBytes [97#8, 60#8, 98#8, 62#8]) := by
  apply (content_strips_iff (by decide)).2
  show Clear 4 [97#8, 60#8, 98#8, 62#8]
  rw [← contentParts_iff (Nat.le_refl 4)]
  decide

/-- `<blockquote>q</blockquote>text<b>`. -/
def quotedText : CString :=
  .ofBytes (blockquote ++ [62#8, 113#8] ++ blockquoteEnd ++ [116#8, 101#8, 120#8, 116#8, 60#8, 98#8,
    62#8])

/-- The word behind the quotation is dropped too. -/
theorem content_drops_text :
    (sfPcreGetcontent quotedText).map CString.bytes ≠ some (textOutside quotedText.bytes) := by
  decide

end SpiderFrame.Page
