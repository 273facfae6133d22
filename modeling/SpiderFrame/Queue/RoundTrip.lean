import SpiderFrame.Queue.Callers
import SpiderFrame.Queue.Rewrite

/-!
# Links through `url.txt` and back

Links are queued by `sf_proc_insert_url_withrange` and read back by `fscanf` with the pattern
that wrote them, which ends a URL at the first white space. A URL that is empty or has white
space in it is written all the same: the record does not come back, and what is left of it, or
the next record, is read in its place. So the records come back, one a call, exactly when every
URL that was appended is a word (`records_read_back_iff`): its texts, the pieces of a template
with the groups put in, have no white space, and not all of them are empty.
-/

namespace SpiderFrame.Queue
open SpiderFrame.Base

variable {Re : Type}

/-- A link of a page under the ranges of the spider's configuration. -/
structure Insert (Re : Type) where
  ranges : List (Range Re)
  level : Int
  url : CString

/-- The table, the file, and the pairs appended to it so far. -/
structure Appending where
  table : UrlTable
  urlTxt : List Byte
  appended : List Offer

/-- The URL that a call appends. -/
def appends (pcre : Pcre Re) (t : UrlTable) (ins : Insert Re) : Option CString :=
  (sfProcUrlRewriteRange pcre ins.url ins.ranges).join.filter fun url => (t.search url).isNone

/-- One call of `sf_proc_insert_url_withrange`. -/
def insertStep (pcre : Pcre Re) (q : Appending) (ins : Insert Re) : Option Appending :=
  (sfProcInsertUrlWithrange pcre ins.ranges q.table q.urlTxt ins.level ins.url).map fun r =>
    ⟨r.1, r.2, q.appended ++ ((appends pcre q.table ins).map (Offer.mk ins.level)).toList⟩

/-- Scanning returns these pairs, one a call, and then the end of the file. -/
def ReadsBack : List Offer → List Byte → Prop
  | [], bytes => (fscanfRecord bytes).rc = EOF
  | o :: os, bytes =>
    let r := fscanfRecord bytes
    r.rc = 2 ∧ r.level = some o.level ∧ r.url = some o.url ∧ ReadsBack os r.rest

/-- Letters, and no white space among them. -/
def Word (texts : List (List Byte)) : Prop :=
  (∃ text ∈ texts, text ≠ []) ∧ ∀ text ∈ texts, ∀ b ∈ text, isSpace b = false

instance (texts : List (List Byte)) : Decidable (Word texts) :=
  inferInstanceAs (Decidable ((∃ text ∈ texts, text ≠ []) ∧
    ∀ text ∈ texts, ∀ b ∈ text, isSpace b = false))

/-- A call that appends a URL puts it together from texts that make a word. -/
def AppendsWord (pcre : Pcre Re) (q : Appending) (ins : Insert Re) : Prop :=
  (appends pcre q.table ins).isSome → Word (urlTexts pcre ins.ranges ins.url)

instance (pcre : Pcre Re) (q : Appending) (ins : Insert Re) :
    Decidable (AppendsWord pcre q ins) :=
  inferInstanceAs (Decidable ((appends pcre q.table ins).isSome →
    Word (urlTexts pcre ins.ranges ins.url)))

theorem word_flatten {texts : List (List Byte)} : Word texts ↔ Word [texts.flatten] := by
  unfold Word
  simp only [List.mem_singleton, exists_eq_left, forall_eq, List.mem_flatten]
  refine and_congr ?_ ⟨fun clean b ⟨text, inside, hb⟩ => clean text inside b hb,
    fun clean text inside b hb => clean b ⟨text, inside, hb⟩⟩
  rw [ne_eq, List.flatten_eq_nil_iff]
  simp

/-! ## One record -/

def Offer.encode (o : Offer) : List Byte := fprintfRecord o.level o.url

def encodeOffers (os : List Offer) : List Byte := os.flatMap Offer.encode

/-- An offer whose URL is a word is a record. -/
theorem Offer.exists_record {o : Offer} (word : Word [o.url.bytes]) :
    ∃ r : Record, (⟨r.level, r.url.str⟩ : Offer) = o := by
  obtain ⟨⟨text, inside, notNil⟩, clean⟩ := word
  rw [List.mem_singleton.1 inside] at notNil
  exact ⟨⟨o.level, o.url, notNil, clean _ (List.mem_singleton.2 rfl)⟩, rfl⟩

theorem exists_records {os : List Offer} (words : ∀ o ∈ os, Word [o.url.bytes]) :
    ∃ rs : List Record, rs.map (fun r => (⟨r.level, r.url.str⟩ : Offer)) = os := by
  induction os with
  | nil => exact ⟨[], rfl⟩
  | cons o os ih =>
    rw [List.forall_mem_cons] at words
    obtain ⟨r, same⟩ := Offer.exists_record words.1
    obtain ⟨rs, rest⟩ := ih words.2
    exact ⟨r :: rs, by rw [List.map_cons, same, rest]⟩

theorem encodeOffers_records (rs : List Record) :
    encodeOffers (rs.map fun r => ⟨r.level, r.url.str⟩) = encodeAll rs := by
  rw [encodeOffers, List.flatMap_map]
  rfl

theorem encodeOffers_append (os os' : List Offer) :
    encodeOffers (os ++ os') = encodeOffers os ++ encodeOffers os' := List.flatMap_append

theorem readsBack_encodeAll (rs : List Record) :
    ReadsBack (rs.map fun r => ⟨r.level, r.url.str⟩) (encodeAll rs) := by
  induction rs with
  | nil => rfl
  | cons r rs ih =>
    rw [List.map_cons, ReadsBack, fscanfRecord_cons]
    exact ⟨rfl, rfl, rfl, ih⟩

/-! ## What a call of `fscanf` can store -/

/-- A URL that was stored is a word of the bytes that were read. -/
theorem scanUrl_word {level : Int} {bs : List Byte} {url : CString} (noNul : 0#8 ∉ bs)
    (h : (scanUrl level bs).url = some url) : Word [url.bytes] := by
  unfold scanUrl at h
  split at h
  · rename_i bs
    dsimp only at h
    split at h
    · cases h
    · rename_i notNil
      cases h
      have clean : 0#8 ∉ (skipSpace bs).takeWhile fun b => !isSpace b := fun inside =>
        noNul (List.mem_cons_of_mem _
          ((skipSpace_suffix bs).subset ((List.takeWhile_prefix _).subset inside)))
      have whole : (CString.ofBytes ((skipSpace bs).takeWhile fun b => !isSpace b)).bytes =
          (skipSpace bs).takeWhile fun b => !isSpace b :=
        congrArg CString.bytes (CString.ofBytes_bytes ⟨_, clean⟩)
      rw [whole]
      refine ⟨⟨_, List.mem_singleton.2 rfl, notNil⟩, fun text inside b hb => ?_⟩
      rw [List.mem_singleton.1 inside] at hb
      simpa using List.mem_takeWhile_imp hb
  · cases h

theorem fscanfRecord_word {bs : List Byte} {url : CString} (noNul : 0#8 ∉ bs)
    (h : (fscanfRecord bs).url = some url) : Word [url.bytes] := by
  obtain ⟨none_, -⟩ | ⟨level, rest, same, ends⟩ := fscanfRecord_cases bs
  · rw [none_] at h
    cases h
  · rw [same] at h
    exact scanUrl_word (fun inside => noNul (ends.subset inside)) h

/-- **Pairs come back only if their URLs are words.** -/
theorem ReadsBack.words {os : List Offer} : ∀ {bytes : List Byte}, 0#8 ∉ bytes →
    ReadsBack os bytes → ∀ o ∈ os, Word [o.url.bytes] := by
  induction os with
  | nil => simp
  | cons o os ih =>
    intro bytes noNul h
    obtain ⟨-, -, url, rest⟩ := h
    rw [List.forall_mem_cons]
    exact ⟨fscanfRecord_word noNul url,
      ih (fun inside => noNul ((fscanfRecord_suffix bytes).subset inside)) rest⟩

theorem decimal_noNul (n : Nat) : 0#8 ∉ decimal n := by
  intro inside
  have digit := decimal_digits n _ inside
  revert digit
  decide

theorem printInt_noNul (i : Int) : 0#8 ∉ printInt i := by
  have digits := decimal_noNul i.natAbs
  unfold printInt
  split
  · simpa using digits
  · exact digits

theorem encodeOffers_noNul (os : List Offer) : 0#8 ∉ encodeOffers os := by
  intro inside
  obtain ⟨o, -, inside⟩ := List.mem_flatMap.1 inside
  have level := printInt_noNul o.level
  have url := o.url.noNul
  simp [Offer.encode, fprintfRecord, level, url] at inside

/-- **Pairs that were written come back exactly when their URLs are words.** -/
theorem readsBack_iff (os : List Offer) :
    ReadsBack os (encodeOffers os) ↔ ∀ o ∈ os, Word [o.url.bytes] := by
  constructor
  · exact ReadsBack.words (encodeOffers_noNul os)
  · intro words
    obtain ⟨rs, rfl⟩ := exists_records words
    rw [encodeOffers_records]
    exact readsBack_encodeAll rs

/-! ## A run of calls -/

theorem insertStep_appends {pcre : Pcre Re} {q q' : Appending} {ins : Insert Re}
    (h : insertStep pcre q ins = some q') : ∃ new : List Offer,
      q'.appended = q.appended ++ new ∧ q'.urlTxt = q.urlTxt ++ encodeOffers new ∧
      ((∀ o ∈ new, Word [o.url.bytes]) ↔ AppendsWord pcre q ins) := by
  obtain ⟨⟨t, urlTxt⟩, call, rfl⟩ := Option.map_eq_some_iff.1 h
  obtain ⟨rewrite, range, result⟩ := Option.map_eq_some_iff.1 call
  refine ⟨((appends pcre q.table ins).map (Offer.mk ins.level)).toList, rfl, ?_, ?_⟩
  · cases rewrite with
    | none =>
      cases result
      simp [appends, range, encodeOffers]
    | some url =>
      simp only [sfProcInsertUrl, urlSection] at result
      cases found : q.table.search url with
      | none =>
        rw [found] at result
        cases result
        simp [appends, range, found, encodeOffers, Offer.encode, fileSection, Option.filter]
      | some item =>
        rw [found] at result
        cases result
        simp [appends, range, found, encodeOffers]
  · unfold AppendsWord
    cases appended : appends pcre q.table ins with
    | none => simp
    | some url =>
      have made : sfProcUrlRewriteRange pcre ins.url ins.ranges = some (some url) :=
        Option.join_eq_some_iff.1 (Option.filter_eq_some_iff.1 appended).1
      simp [word_flatten , rewrite_texts made]

theorem insertRun_appends {pcre : Pcre Re} {calls : List (Insert Re)} :
    ∀ {q q' : Appending}, exec (insertStep pcre) q calls = some q' → ∃ new : List Offer,
      q'.appended = q.appended ++ new ∧ q'.urlTxt = q.urlTxt ++ encodeOffers new ∧
      ((∀ o ∈ new, Word [o.url.bytes]) ↔ Along (insertStep pcre) (AppendsWord pcre) q calls) := by
  induction calls with
  | nil =>
    intro q q' run
    cases run
    refine ⟨[], by simp, by simp [encodeOffers], ?_⟩
    simp [Along]
  | cons ins calls ih =>
    intro q q' run
    obtain ⟨q₁, first, rest⟩ := exec_cons run
    obtain ⟨one, appended₁, file₁, words₁⟩ := insertStep_appends first
    obtain ⟨more, appended, file, words⟩ := ih rest
    refine ⟨one ++ more, ?_, ?_, ?_⟩
    · rw [appended, appended₁, List.append_assoc]
    · rw [file, file₁, encodeOffers_append, List.append_assoc]
    · rw [along_cons_some first, ← words₁, ← words]
      simp only [List.mem_append, or_imp, forall_and]

/-- **The records of the file and the pairs appended to it come back, one a call and in order,
if and only if every appended URL is put together from texts that make a word.** -/
theorem records_read_back_iff {pcre : Pcre Re} {t : UrlTable} {rs : List Record}
    {calls : List (Insert Re)} {q : Appending}
    (run : exec (insertStep pcre) ⟨t, encodeAll rs, []⟩ calls = some q) :
    ReadsBack (rs.map (fun r => ⟨r.level, r.url.str⟩) ++ q.appended) q.urlTxt ↔
      Along (insertStep pcre) (AppendsWord pcre) ⟨t, encodeAll rs, []⟩ calls := by
  obtain ⟨new, appended, file, words⟩ := insertRun_appends run
  rw [List.nil_append] at appended
  have whole : q.urlTxt =
      encodeOffers (rs.map (fun r => ⟨r.level, r.url.str⟩) ++ new) := by
    rw [file, encodeOffers_append, encodeOffers_records]
  rw [appended, whole, readsBack_iff, ← words]
  refine ⟨fun all o inside => all o (List.mem_append_right _ inside), fun all o inside => ?_⟩
  obtain old | inside := List.mem_append.1 inside
  · obtain ⟨r, -, rfl⟩ := List.mem_map.1 old
    refine ⟨⟨_, List.mem_singleton.2 rfl, r.url.nonempty⟩, fun text here b hb => ?_⟩
    rw [List.mem_singleton.1 here] at hb
    exact r.url.noSpace b hb
  · exact all o inside

/-! ## Templates -/

/-- A link is taken by the pattern `a` and rewritten by the template. -/
def insertA (varexp : CString) : Insert Byte :=
  ⟨[⟨some 97#8, none, some varexp⟩], 1, .letter 0⟩

/-- The file `0|z`, with no URL in the table, and the link `a` with the template `b`. -/
def rewritten : Option Appending :=
  exec (insertStep bytePcre) ⟨.init, encodeAll [⟨0, .letter 25⟩], []⟩ [insertA (.letter 1)]

theorem rewritten_runs : rewritten.isSome := by decide +kernel

theorem records_read_back_iff_rewritten :
    ReadsBack ([⟨0, .letter 25⟩] ++ (rewritten.get rewritten_runs).appended)
      (rewritten.get rewritten_runs).urlTxt :=
  (records_read_back_iff (Option.some_get rewritten_runs).symm).2 (by decide +kernel)

/-- The link `a` with the empty template, and then the link `b` with no range. -/
def emptyRewrite : List (Insert Byte) := [insertA .empty, ⟨[], 1, .letter 1⟩]

def emptyRewriteEnd : Option Appending :=
  exec (insertStep bytePcre) ⟨.init, encodeAll [], []⟩ emptyRewrite

theorem emptyRewrite_runs : emptyRewriteEnd.isSome := by decide +kernel

/-- The record of an empty URL takes the record after it for its URL. -/
theorem records_shift : ¬ ∀ (Re : Type) (pcre : Pcre Re) (t : UrlTable) (rs : List Record)
    (calls : List (Insert Re)) (q : Appending),
    exec (insertStep pcre) ⟨t, encodeAll rs, []⟩ calls = some q →
      ReadsBack (rs.map (fun r => ⟨r.level, r.url.str⟩) ++ q.appended) q.urlTxt := by
  intro claim
  have back := claim Byte bytePcre .init [] emptyRewrite _ (Option.some_get emptyRewrite_runs).symm
  have pairs : (emptyRewriteEnd.get emptyRewrite_runs).appended =
      [⟨1, .empty⟩, ⟨1, .letter 1⟩] := by decide +kernel
  have url : (fscanfRecord (emptyRewriteEnd.get emptyRewrite_runs).urlTxt).url =
      some (.ofBytes [49#8, 124#8, 98#8]) := by decide +kernel
  change ReadsBack ([] ++ _) _ at back
  rw [pairs] at back
  have same := url.symm.trans back.2.2.1
  exact absurd same (by decide)

end SpiderFrame.Queue
