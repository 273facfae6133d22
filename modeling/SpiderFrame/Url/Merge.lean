import Mathlib.Data.List.DropRight
import SpiderFrame.Url.Patterns
import SpiderFrame.Url.Slashes

/-!
# Links and the URL of their page (`sf_pcre_get_href` in `sf_pcre.c`)

A link without `://` is put behind a part of the URL of its page: behind scheme, host and port when
it begins with `/`, behind the whole URL when it begins with `?`, and otherwise behind all up to
the last slash. `merged` is what RFC 3986 asks for. The two differ in what they do with a query of
the page's URL (`completeUrl_iff`).
-/

namespace SpiderFrame.Url
open SpiderFrame.Base SpiderFrame.Queue SpiderFrame.Page

/-- A URL `http(s)://host[:port][path][?query]` with a path. -/
structure PageUrl where
  secure : Bool
  host : List Byte
  port : Option (List Byte)
  path : List Byte
  query : Option (List Byte)
  host_bytes : host ≠ [] ∧ ∀ b ∈ host, hostByte b
  port_bytes : ∀ digits ∈ port, digits ≠ [] ∧ ∀ b ∈ digits, isDigit b
  path_slash : path.head? = some 47#8
  path_bytes : ∀ b ∈ path, b ≠ 0#8 ∧ b ≠ 10#8 ∧ b ≠ 63#8
  query_bytes : ∀ text ∈ query, ∀ b ∈ text, b ≠ 0#8 ∧ b ≠ 10#8

namespace PageUrl

variable (url : PageUrl)

/-- `http` or `https`. -/
def protocol : List Byte := if url.secure then https else http

/-- Scheme, host and port. -/
def site : List Byte :=
  url.protocol ++ [58#8, 47#8, 47#8] ++ url.host ++ (url.port.map (58#8 :: ·)).getD []

/-- A query with its `?`. -/
def queryText : List Byte := (url.query.map (63#8 :: ·)).getD []

def text : List Byte := url.site ++ url.path ++ url.queryText

theorem hostByte_ne {b : Byte} (h : hostByte b = true) :
    b ≠ 0#8 ∧ b ≠ 47#8 ∧ b ≠ 58#8 := by
  refine ⟨?_, ?_, ?_⟩ <;> rintro rfl <;> exact absurd h (by decide)

theorem isDigit_ne {b : Byte} (h : isDigit b = true) : b ≠ 0#8 ∧ b ≠ 47#8 := by
  refine ⟨?_, ?_⟩ <;> rintro rfl <;> exact absurd h (by decide)

theorem site_noNul : 0#8 ∉ url.site := by
  have protocol : 0#8 ∉ url.protocol := by
    unfold PageUrl.protocol
    split <;> decide
  intro inside
  simp only [site, List.mem_append] at inside
  obtain ((inside | inside) | inside) | inside := inside
  · exact protocol inside
  · exact absurd inside (by decide)
  · exact (hostByte_ne (url.host_bytes.2 _ inside)).1 rfl
  · obtain ⟨digits, e⟩ | none_ : (∃ digits, url.port = some digits) ∨ url.port = none := by
      cases url.port <;> simp
    · rw [e, Option.map_some, Option.getD_some, List.mem_cons] at inside
      obtain inside | inside := inside
      · exact absurd inside (by decide)
      · exact (isDigit_ne ((url.port_bytes digits e).2 _ inside)).1 rfl
    · rw [none_] at inside
      cases inside

theorem mem_queryText {b : Byte} (inside : b ∈ url.queryText) :
    b = 63#8 ∨ ∃ text ∈ url.query, b ∈ text := by
  unfold queryText at inside
  cases here : url.query with
  | none =>
    rw [here] at inside
    cases inside
  | some text =>
    rw [here, Option.map_some, Option.getD_some, List.mem_cons] at inside
    exact inside.imp id fun inside => ⟨text, rfl, inside⟩

/-- Behind the site there is no newline, and no NUL. -/
theorem behind_bytes : ∀ b ∈ url.path ++ url.queryText, b ≠ 0#8 ∧ b ≠ 10#8 := by
  intro b inside
  obtain inside | inside := List.mem_append.1 inside
  · have clean := url.path_bytes b inside
    exact ⟨clean.1, clean.2.1⟩
  · obtain rfl | ⟨text, here, inside⟩ := url.mem_queryText inside
    · decide
    · exact url.query_bytes text here b inside

/-- The URL as a C string. -/
def str : CString where
  bytes := url.text
  noNul := by
    rw [text, List.append_assoc]
    intro inside
    obtain inside | inside := List.mem_append.1 inside
    · exact url.site_noNul inside
    · exact (url.behind_bytes _ inside).1 rfl

def siteStr : CString := ⟨url.site, url.site_noNul⟩

/-- What stands up to the last slash of a text. -/
def directory (text : List Byte) : List Byte := text.rdropWhile (· != 47#8)

/-- The URL of a link, as RFC 3986 merges it: behind the site for a link that begins with a
slash, in the place of the query for one that begins with `?`, and in the place of the last
segment of the path for a relative path. -/
def merged (link : List Byte) : List Byte :=
  if link.head? = some 47#8 then url.site ++ link
  else if link.head? = some 63#8 then url.site ++ url.path ++ link
  else url.site ++ directory url.path ++ link

/-- A link in the place of the query finds none, and a relative path finds none with a slash. -/
def QueryApart (link : List Byte) : Prop :=
  (link.head? = some 63#8 → url.query = none) ∧
  (link.head? ≠ some 47#8 → link.head? ≠ some 63#8 → ∀ text ∈ url.query, 47#8 ∉ text)

/-! ## The site -/

theorem word_only (bs rest : List Byte) (groups : List (Nat × List Byte)) :
    Regex.tries (word bs) ⟨bs ++ rest, groups⟩ = [⟨rest, groups⟩] := by
  induction bs with
  | nil => rfl
  | cons b bs ih =>
    have here : Regex.tries (caseless b) ⟨b :: (bs ++ rest), groups⟩ = [⟨bs ++ rest, groups⟩] := by
      rw [caseless, Regex.letter_cons]
      simp
    rw [List.cons_append, word, List.foldr_cons, Regex.tries, here, List.flatMap_singleton]
    exact ih

theorem starts_word (bs rest : List Byte) : (word bs).Starts (bs ++ rest) rest :=
  fun groups => ⟨groups, [], word_only bs rest groups⟩

variable {r : Regex Byte} {text rest : List Byte}

theorem starts_slashes (later : r.Starts text rest) :
    (slashes r).Starts (58#8 :: 47#8 :: 47#8 :: text) rest :=
  (Regex.starts_letter rfl).seq ((Regex.starts_letter rfl).seq ((Regex.starts_letter rfl).seq later))

theorem starts_scheme (later : r.Starts text rest) :
    (Regex.seq schemeRegex (slashes r)).Starts (url.protocol ++ 58#8 :: 47#8 :: 47#8 :: text) rest := by
  rw [schemeRegex, Regex.starts_group_alt_seq]
  unfold protocol
  split
  · -- `http` matches the beginning of `https`, and no `:` follows
    have one : ∀ groups, ∃ groups', Regex.tries (.group 2 (word http))
        ⟨https ++ 58#8 :: 47#8 :: 47#8 :: text, groups⟩ =
          [⟨115#8 :: 58#8 :: 47#8 :: 47#8 :: text, groups'⟩] := by
      intro groups
      have front := word_only http (115#8 :: 58#8 :: 47#8 :: 47#8 :: text) groups
      rw [Regex.tries]
      exact ⟨_, congrArg (List.map _) front⟩
    refine .right (.behind one ?_) ((starts_word https _).group.seq (starts_slashes later))
    exact (Regex.fails_letter (by simp)).seq
  · exact .left ((starts_word http _).group.seq (starts_slashes later))

/-- The port, in front of a path. -/
def portText : List Byte := (url.port.map (58#8 :: ·)).getD []

theorem starts_port {more : List Byte} :
    portRegex.Starts (url.portText ++ 47#8 :: more) (47#8 :: more) := by
  unfold portText
  cases here : url.port with
  | none => exact Regex.starts_opt_empty (Regex.fails_letter (by simp)).seq.group
  | some digits =>
    obtain ⟨some_, numbers⟩ := url.port_bytes digits here
    have stop : ∀ b ∈ (47#8 :: more).head?, isDigit b = false := by simp [isDigit]
    refine Regex.Starts.opt (Regex.Starts.group ?_)
    exact (Regex.starts_letter rfl).seq (Regex.starts_plus some_ numbers stop)

theorem starts_host {more : List Byte} : hostRegex.Starts (url.host ++ (url.portText ++ 47#8 :: more))
    (url.portText ++ 47#8 :: more) := by
  have stop : ∀ b ∈ (url.portText ++ 47#8 :: more).head?, hostByte b = false := by
    unfold portText
    cases url.port <;> simp [hostByte, isWord, isDigit]
  exact Regex.starts_plus url.host_bytes.1 url.host_bytes.2 stop

/-- The path with its first slash, and the query. -/
theorem exists_behind : ∃ more, url.path ++ url.queryText = 47#8 :: more := by
  have first := url.path_slash
  cases here : url.path with
  | nil =>
    rw [here] at first
    cases first
  | cons b path =>
    rw [here] at first
    exact ⟨path ++ url.queryText, by rw [Option.some.inj first, List.cons_append]⟩

theorem str_bytes : url.str.bytes = url.site ++ (url.path ++ url.queryText) := by
  rw [← List.append_assoc]
  rfl

theorem text_eq : url.text = url.protocol ++ 58#8 :: 47#8 :: 47#8 ::
    (url.host ++ (url.portText ++ (url.path ++ url.queryText))) := by
  simp [PageUrl.text, site, portText]

/-- **`gethost` finds the site.** -/
theorem gethost_eq (env : Env Pattern) :
    gethost (withPatterns env) url.str = some url.siteStr := by
  have starts : siteRegex.Starts url.text (url.path ++ url.queryText) := by
    obtain ⟨more, e⟩ := url.exists_behind
    rw [text_eq, e]
    exact url.starts_scheme (url.starts_host.seq url.starts_port)
  apply named_of_starts (by decide) starts
  exact url.str_bytes

/-! ## The directory -/

/-- The last slash of a text. -/
theorem exists_last_slash {text : List Byte} (inside : 47#8 ∈ text) :
    ∃ front back, text = front ++ 47#8 :: back ∧ 47#8 ∉ back := by
  obtain ⟨back, front, e, absent⟩ := List.eq_append_cons_of_mem (List.mem_reverse.2 inside)
  have e' := congrArg List.reverse e
  rw [List.reverse_reverse, List.reverse_append, List.reverse_cons, List.append_assoc,
    List.singleton_append] at e'
  exact ⟨front.reverse, back.reverse, e', by simpa using absent⟩

theorem directory_eq {front back : List Byte} (absent : 47#8 ∉ back) :
    directory (front ++ 47#8 :: back) = front ++ [47#8] := by
  have dropped : (back.reverse ++ 47#8 :: front.reverse).dropWhile (· != 47#8) =
      47#8 :: front.reverse := by
    rw [List.dropWhile_append_of_pos]
    · simp
    · intro b hb
      have : b ≠ 47#8 := fun e => absent (e ▸ List.mem_reverse.1 hb)
      simpa using this
  rw [directory, List.rdropWhile, List.reverse_append, List.reverse_cons, List.append_assoc,
    List.singleton_append, dropped, List.reverse_cons, List.reverse_reverse]

theorem fails_slash {text : List Byte} (absent : 47#8 ∉ text) : (byte 47#8).Fails text := by
  apply Regex.fails_letter
  intro b hb
  have : b ≠ 47#8 := fun e => absent (e ▸ List.mem_of_mem_head? hb)
  simpa using this

/-- `.*\/` goes to the last slash. -/
theorem starts_last_slash {front back : List Byte} (line : ∀ b ∈ front, b ≠ 10#8)
    (absent : 47#8 ∉ back) :
    (Regex.seq (.star (.letter (· != 10#8))) (byte 47#8)).Starts (front ++ 47#8 :: back) back := by
  refine Regex.starts_star_seq (fun b hb => by simpa using line b hb) (fun rest inside other => ?_)
    (Regex.starts_letter rfl)
  obtain same | inside := List.suffix_cons_iff.1 inside
  · exact absurd same other
  · exact fails_slash fun h => absent (inside.subset h)

/-- `\/?.*\/` does as well, behind a first slash. -/
theorem starts_directory {front back more : List Byte} (e : front ++ 47#8 :: back = 47#8 :: more)
    (line : ∀ b ∈ front, b ≠ 10#8) (absent : 47#8 ∉ back) :
    (Regex.seq (.opt (byte 47#8)) (.seq (.star (.letter (· != 10#8))) (byte 47#8))).Starts
      (front ++ 47#8 :: back) back := by
  rw [Regex.opt, Regex.starts_alt_seq]
  cases front with
  | nil =>
    -- the only slash cannot be taken by `\/?`
    have none_ : ∀ rest, rest <:+ back → (byte 47#8).Fails rest := fun rest inside =>
      fails_slash fun h => absent (inside.subset h)
    have only : ∀ groups, ∃ groups', Regex.tries (byte 47#8) ⟨47#8 :: back, groups⟩ =
        [⟨back, groups'⟩] := fun groups => ⟨groups, rfl⟩
    refine .right (.behind only (Regex.fails_star_seq none_)) ((Regex.starts_empty _).seq ?_)
    have first : (47#8 :: back) = [] ++ 47#8 :: back := rfl
    rw [List.nil_append, first]
    exact starts_last_slash (by simp) absent
  | cons b front =>
    rw [List.cons_append, List.cons.injEq] at e
    refine .left (Regex.Starts.seq (Regex.starts_letter (by simp [e.1])) ?_)
    exact starts_last_slash (fun b hb => line b (List.mem_cons_of_mem _ hb)) absent

/-- **`gethostpath` goes to the last slash of the whole URL.** -/
theorem gethostpath_eq (env : Env Pattern) : ∃ found,
    gethostpath (withPatterns env) url.str = some found ∧
      found.bytes = url.site ++ directory (url.path ++ url.queryText) := by
  obtain ⟨more, e⟩ := url.exists_behind
  have slash : 47#8 ∈ url.path ++ url.queryText := by
    rw [e]
    exact List.mem_cons_self
  obtain ⟨front, back, cut, absent⟩ := exists_last_slash slash
  have line : ∀ b ∈ front, b ≠ 10#8 := fun b hb =>
    (url.behind_bytes b (by rw [cut]; exact List.mem_append_left _ hb)).2
  have starts : directoryRegex.Starts url.text back := by
    rw [text_eq, e]
    refine url.starts_scheme (url.starts_host.seq (url.starts_port.seq ?_))
    rw [← e, cut]
    exact starts_directory (cut.symm.trans e) line absent
  have clean : 0#8 ∉ url.site ++ (front ++ [47#8]) := by
    intro inside
    obtain inside | inside := List.mem_append.1 inside
    · exact url.site_noNul inside
    · obtain inside | inside := List.mem_append.1 inside
      · exact (url.behind_bytes _ (by rw [cut]; exact List.mem_append_left _ inside)).1 rfl
      · exact absurd inside (by decide)
  refine ⟨⟨url.site ++ (front ++ [47#8]), clean⟩, named_of_starts (by decide) starts ?_, ?_⟩
  · rw [str_bytes, cut]
    simp
  · rw [cut, directory_eq absent]

/-- A query without a slash does not count. -/
theorem directory_append_iff {path query : List Byte} (slash : 47#8 ∈ path) :
    directory (path ++ query) = directory path ↔ 47#8 ∉ query := by
  obtain ⟨front, back, rfl, absent⟩ := exists_last_slash slash
  rw [directory_eq absent]
  constructor
  · intro same inside
    obtain ⟨front', back', rfl, absent'⟩ := exists_last_slash inside
    rw [← List.append_assoc, directory_eq absent'] at same
    have long := congrArg List.length same
    simp only [List.length_append, List.length_cons, List.length_nil] at long
    omega
  · intro none_
    rw [List.append_assoc, List.cons_append]
    apply directory_eq
    intro inside
    obtain inside | inside := List.mem_append.1 inside
    · exact absent inside
    · exact none_ inside

/-! ## The URL of a link -/

theorem slash_mem_path : 47#8 ∈ url.path := List.mem_of_mem_head? url.path_slash

theorem slash_mem_queryText : 47#8 ∈ url.queryText ↔ ∃ text ∈ url.query, 47#8 ∈ text := by
  unfold queryText
  cases url.query <;> simp

/-- The part of the page's URL that the function takes for a link. -/
theorem completeUrl_bytes (env : Env Pattern) (link : CString) :
    (completeUrl (withPatterns env) link url.str).map CString.bytes = some
      (if link.bytes.head? = some 47#8 then url.site ++ link.bytes
      else if link.bytes.head? = some 63#8 then url.text ++ link.bytes
      else url.site ++ directory (url.path ++ url.queryText) ++ link.bytes) := by
  have whole : ∀ part : CString,
      (CString.ofBytes (part.bytes ++ link.bytes)).bytes = part.bytes ++ link.bytes := by
    intro part
    have clean : 0#8 ∉ part.bytes ++ link.bytes := by
      rw [List.mem_append, not_or]
      exact ⟨part.noNul, link.noNul⟩
    exact congrArg CString.bytes (CString.ofBytes_bytes ⟨_, clean⟩)
  obtain ⟨found, run, bytes⟩ := url.gethostpath_eq env
  unfold completeUrl
  split
  · rename_i more here
    rw [url.gethost_eq, Option.map_some, Option.map_some, whole, if_pos (by rw [here]; rfl)]
    rfl
  · rename_i more here
    rw [Option.map_some, Option.map_some, whole, if_neg (by simp [here]),
      if_pos (by rw [here]; rfl)]
    rfl
  · rename_i noSlash noMark
    have first : link.bytes.head? ≠ some 47#8 := by
      intro e
      obtain ⟨more, here⟩ := List.head?_eq_some_iff.1 e
      exact noSlash more here
    have second : link.bytes.head? ≠ some 63#8 := by
      intro e
      obtain ⟨more, here⟩ := List.head?_eq_some_iff.1 e
      exact noMark more here
    rw [run, Option.map_some, Option.map_some, whole, if_neg first, if_neg second, bytes]

theorem queryText_eq_nil : url.queryText = [] ↔ url.query = none := by
  unfold queryText
  cases url.query <;> simp

/-- **A link gets the URL that it is merged to exactly when the query of the page is apart.** -/
theorem completeUrl_iff (env : Env Pattern) (link : CString) :
    (completeUrl (withPatterns env) link url.str).map CString.bytes =
      some (url.merged link.bytes) ↔ url.QueryApart link.bytes := by
  rw [url.completeUrl_bytes, Option.some_inj, merged, QueryApart]
  by_cases first : link.bytes.head? = some 47#8
  · have other : link.bytes.head? ≠ some 63#8 := by
      rw [first]
      decide
    rw [if_pos first, if_pos first]
    exact iff_of_true rfl ⟨fun h => absurd h other, fun h => absurd first h⟩
  · rw [if_neg first, if_neg first]
    by_cases second : link.bytes.head? = some 63#8
    · rw [if_pos second, if_pos second, PageUrl.text, List.append_left_inj,
        List.append_right_eq_self, queryText_eq_nil]
      exact ⟨fun none_ => ⟨fun _ => none_, fun _ h => absurd second h⟩, fun h => h.1 second⟩
    · rw [if_neg second, if_neg second, List.append_left_inj, List.append_right_inj,
        directory_append_iff url.slash_mem_path, url.slash_mem_queryText]
      constructor
      · intro none_
        exact ⟨fun h => absurd h second, fun _ _ text here inside => none_ ⟨text, here, inside⟩⟩
      · rintro ⟨-, apart⟩ ⟨text, here, inside⟩
        exact apart first second text here inside

/-! ## A query with a slash -/

/-- `http://h` and a path, with a query. -/
def plain (path : List Byte) (query : Option (List Byte)) (slash : path.head? = some 47#8)
    (clean : ∀ b ∈ path, b ≠ 0#8 ∧ b ≠ 10#8 ∧ b ≠ 63#8)
    (clean' : ∀ text ∈ query, ∀ b ∈ text, b ≠ 0#8 ∧ b ≠ 10#8) : PageUrl where
  secure := false
  host := [104#8]
  port := none
  path := path
  query := query
  host_bytes := by decide
  port_bytes := by simp
  path_slash := slash
  path_bytes := clean
  query_bytes := clean'

/-- `http://h/`. -/
def root : PageUrl := plain [47#8] none rfl (by decide) (by simp)

/-- `http://h/p?q/r`. -/
def slashQuery : PageUrl :=
  plain [47#8, 112#8] (some [113#8, 47#8, 114#8]) rfl (by decide) (by
    intro text here
    cases here
    decide)

/-- On the page `http://h/p?q/r` the link `x` becomes `http://h/p?q/x`. -/
theorem link_keeps_query : ¬ ∀ (env : Env Pattern) (url : PageUrl) (link : CString),
    link.bytes ≠ [] → strstr [58#8, 47#8, 47#8] link.bytes = none →
    ¬ [47#8, 47#8] <+: link.bytes → (completeUrl (withPatterns env) link url.str).map
      CString.bytes = some (url.merged link.bytes) := by
  intro claim
  have wrong := claim (patternSite ⟨true, [], []⟩) slashQuery (.letter 23) (by decide) rfl
    (by decide)
  rw [completeUrl_bytes] at wrong
  exact absurd wrong (by decide)

end PageUrl

end SpiderFrame.Url
