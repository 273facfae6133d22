import SpiderFrame.Url.Temp
import SpiderFrame.Url.Patterns

/-!
# The links that a page offers (`sf_pcre_get_href` in `sf_pcre.c`)

The loop takes the matches of the pattern of URLs one after the other, and makes one call of
`sf_proc_insert_url_withrange` for each (`sfPcreGetHref_eq`). A link that cannot be completed ends the
loop, and one on which `redurceurl` does not come to its end is the last as well, so the links
behind these are not offered.
-/

namespace SpiderFrame.Url
open SpiderFrame.Base SpiderFrame.Queue SpiderFrame.Page

variable {Re : Type}

/-- `vector[1]`. -/
def matchEnd (m : Int × List Int) : Int := (m.2[1]?).getD 0

/-- What the loop relies on: a match of the pattern of URLs is not empty and lies in the text, its group
`url` can be fetched, and so can `hrefurl` when that is empty. -/
structure FindsLinks (pcre : Pcre Re) (re : Re) : Prop where
  moves : ∀ {text : List Byte}, 0 ≤ (pcre.exec re text).1 →
    0 < matchEnd (pcre.exec re text) ∧ matchEnd (pcre.exec re text) ≤ text.length
  url : ∀ {text : List Byte}, 0 ≤ (pcre.exec re text).1 → ∃ url,
    pcre.getNamedSubstring re text (pcre.exec re text) (.ofBytes urlName) = some url
  href : ∀ {text : List Byte} {url : CString}, 0 ≤ (pcre.exec re text).1 →
    pcre.getNamedSubstring re text (pcre.exec re text) (.ofBytes urlName) = some url →
    url.bytes = [] → ∃ href,
      pcre.getNamedSubstring re text (pcre.exec re text) (.ofBytes hrefurlName) = some href

/-- A match: a whole URL in the text, or the value of an attribute `href`. -/
inductive Link where
  | whole (url : CString)
  | hrefurl (href : CString)

/-- The link in a match. -/
def linkOf (env : Env Re) (text : List Byte) : Option Link :=
  let group := fun name => env.pcre.getNamedSubstring env.reUrl text
    (env.pcre.exec env.reUrl text) (.ofBytes name)
  match (group urlName).filter (·.bytes ≠ []) with
  | some url => some (.whole url)
  | none => (group hrefurlName).map .hrefurl

/-- What stands behind the first match. -/
def behindMatch (env : Env Re) (text : List Byte) : List Byte :=
  text.drop (matchEnd (env.pcre.exec env.reUrl text)).toNat

/-- The links of `n` matches at most, from left to right. -/
def linksFrom (env : Env Re) : Nat → List Byte → List Link
  | 0, _ => []
  | n + 1, text =>
    if (env.pcre.exec env.reUrl text).1 < 0 then []
    else (linkOf env text).toList ++ linksFrom env n (behindMatch env text)

/-- The links of a page: there are not more matches than bytes. -/
def links (env : Env Re) (page : List Byte) : List Link := linksFrom env (page.length + 1) page

section Calls

variable (env : Env Re) (origurl : CString)

/-- A link without a `://`. -/
def Link.Relative : Link → Prop
  | .whole _ => False
  | .hrefurl href => strstr [58#8, 47#8, 47#8] href.bytes = none

instance : ∀ l : Link, Decidable l.Relative
  | .whole _ => inferInstanceAs (Decidable False)
  | .hrefurl href => inferInstanceAs (Decidable (strstr [58#8, 47#8, 47#8] href.bytes = none))

/-- The link, completed by the URL of the page when it is relative. -/
def Link.full (l : Link) : Option CString :=
  match l with
  | .whole url => some url
  | .hrefurl href => if l.Relative then completeUrl env href origurl else some href

/-- The argument of the call for a link. -/
def Link.offer (l : Link) : Option CString :=
  (l.full env origurl).bind fun full => if l.Relative then redurceurl full else some full

/-- The arguments of the calls of the loop, and whether it comes to its end. -/
def calls : List Link → List CString × Bool
  | [] => ([], true)
  | l :: ls =>
    match l.full env origurl, l.offer env origurl with
    | none, _ => ([], true)
    | some _, none => ([], false)
    | some _, some url => (url :: (calls ls).1, (calls ls).2)

/-- The calls, and what follows them. -/
def offerAll (r : Ref) (level : Int) (c : List CString × Bool) : Run Re Unit := do
  Prog.each (fun url => insertUrl env r url level) c.1
  if c.2 then pure () else Prog.halt

end Calls

/-! ## The loop makes these calls -/

section Loop

variable {env : Env Re} {r : Ref} {level : Int} {origurl : CString} {w w' : World Re}

theorem offerAll_cons (url : CString) (urls : List CString) (ended : Bool) :
    offerAll env r level (url :: urls, ended) =
      (insertUrl env r url level >>= fun _ => offerAll env r level (urls, ended)) := by
  rw [offerAll, Prog.each, Prog.bind_assoc]
  rfl

/-- A call leaves the spiders as they are. -/
theorem insertUrl_spider {url : CString} {es : List (Event Re)}
    (run : insertUrl env r url level w = (es, some ((), w'))) : w'.spider = w.spider := by
  obtain ⟨_, s, w₁, _, first, rest, -⟩ := Prog.bind_eq_done run
  cases first
  obtain ⟨_, rewrite, w₂, _, second, rest, -⟩ := Prog.bind_eq_done rest
  obtain ⟨-, -, rfl⟩ := Prog.ofOption_done second
  cases rewrite with
  | none =>
    cases rest
    rfl
  | some rewrite =>
    obtain ⟨_, h, w₃, _, third, rest, -⟩ := Prog.bind_eq_done rest
    obtain ⟨-, -, rfl⟩ := Prog.ofOption_done third
    obtain ⟨_, w₄, w₅, _, fourth, rest, -⟩ := Prog.bind_eq_done rest
    cases fourth
    split at rest
    · cases rest
    · cases rest
      funext r
      cases r <;> rfl

/-- What the loop does with one link, and how it goes on. -/
def follow (env : Env Re) (r : Ref) (level : Int) (origurl : CString) (l : Link)
    (goOn : Run Re Unit) : Run Re Unit :=
  match l.full env origurl, l.offer env origurl with
  | none, _ => pure ()
  | some _, none => Prog.halt
  | some _, some url => insertUrl env r url level >>= fun _ => goOn

theorem offerAll_calls (l : Link) (ls : List Link) :
    offerAll env r level (calls env origurl (l :: ls)) =
      follow env r level origurl l (offerAll env r level (calls env origurl ls)) := by
  rw [calls, follow]
  split
  · rfl
  · rfl
  · rw [offerAll_cons]

/-- **The branch for an `href`.** -/
theorem useHref_follow (pooled : (w.spider r).pool.isSome) (href : CString)
    (goOn : Run Re Unit) :
    (useHref env r level href origurl >>= fun b => if b then goOn else pure ()) w =
      follow env r level origurl (.hrefurl href) goOn w := by
  unfold useHref follow Link.offer Link.full Link.Relative
  cases absolute : strstr [58#8, 47#8, 47#8] href.bytes with
  | some parts =>
    simp only [absolute, reduceCtorEq, if_false, Option.bind_some]
    rw [Prog.bind_assoc]
    rfl
  | none =>
    simp only [absolute, if_true]
    cases full : completeUrl env href origurl with
    | none => rfl
    | some url =>
      obtain ⟨pool, here⟩ := Option.isSome_iff_exists.1 pooled
      have fetched : poolOf r w = ([], some (pool, w)) := by
        have read : spider r w = ([], some (w.spider r, w)) := rfl
        rw [poolOf, Prog.bind_silent read, here]
        rfl
      simp only [Option.bind_some]
      rw [Prog.bind_assoc, Prog.bind_silent fetched]
      cases redurceurl url with
      | none => rfl
      | some reduced =>
        rw [Prog.bind_assoc, Prog.bind_silent rfl, Prog.bind_assoc]
        rfl

theorem pooled_of_insertUrl {url : CString} {es : List (Event Re)}
    (pooled : (w.spider r).pool.isSome)
    (run : insertUrl env r url level w = (es, some ((), w'))) : (w'.spider r).pool.isSome := by
  rwa [insertUrl_spider run]

/-- How the loop goes on behind a link matters only where the spider still has its pool. -/
theorem follow_congr {l : Link} (goOn goOn' : Run Re Unit) (pooled : (w.spider r).pool.isSome)
    (agree : ∀ w', (w'.spider r).pool.isSome → goOn w' = goOn' w') :
    follow env r level origurl l goOn w = follow env r level origurl l goOn' w := by
  unfold follow
  cases l.full env origurl with
  | none => rfl
  | some full =>
    cases l.offer env origurl with
    | none => rfl
    | some url =>
      exact Prog.bind_congr fun _ _ w' run => agree w' (pooled_of_insertUrl pooled run)

/-- **The loop makes the calls for the links of the page, in their order.** -/
theorem hrefLoop_eq (finds : FindsLinks env.pcre env.reUrl) : ∀ {n : Nat} {page : List Byte}
    {freed : Bool} {w : World Re}, page.length < n → (w.spider r).pool.isSome →
    hrefLoop env r level origurl n page freed w =
      offerAll env r level (calls env origurl (linksFrom env n page)) w
  | 0, _, _, _, short, _ => absurd short (Nat.not_lt_zero _)
  | n + 1, page, freed, w, short, pooled => by
    by_cases noMatch : (env.pcre.exec env.reUrl page).1 < 0
    · rw [hrefLoop, linksFrom, if_pos noMatch, if_pos noMatch]
      rfl
    · have found := Int.not_lt.1 noMatch
      obtain ⟨url, fetched⟩ := finds.url found
      have fewer : (behindMatch env page).length < n := by
        have moves := finds.moves found
        rw [behindMatch, List.length_drop]
        omega
      have rest (l : Link) : follow env r level origurl l
          (hrefLoop env r level origurl n (behindMatch env page) true) w = _ :=
        follow_congr _ _ pooled fun w' pooled' => hrefLoop_eq finds fewer pooled'
      rw [hrefLoop, linksFrom, if_neg noMatch, if_neg noMatch]
      by_cases empty : url.bytes = []
      · obtain ⟨href, fetched'⟩ := finds.href found fetched empty
        have none_ : (some url).filter (·.bytes ≠ []) = none := by simp [Option.filter, empty]
        have link : linkOf env page = some (.hrefurl href) := by
          simp only [linkOf, fetched, fetched', none_, Option.map_some]
        rw [link, Option.toList_some, List.singleton_append, offerAll_calls,
          ← rest, ← useHref_follow pooled]
        simp only [urlName, hrefurlName] at fetched fetched'
        simp only [fetched, fetched', none_, reduceCtorEq, false_and, if_false]
        rfl
      · have some_ : (some url).filter (·.bytes ≠ []) = some url := by simp [Option.filter, empty]
        have link : linkOf env page = some (.whole url) := by
          simp only [linkOf, fetched, some_]
        rw [link, Option.toList_some, List.singleton_append, offerAll_calls, ← rest]
        simp only [urlName] at fetched
        simp only [fetched, some_, reduceCtorEq, false_and, if_false]
        rfl

theorem linksFrom_eq (finds : FindsLinks env.pcre env.reUrl) : ∀ {n m : Nat} {page : List Byte},
    page.length < n → page.length < m → linksFrom env n page = linksFrom env m page
  | n + 1, m + 1, page, enough, enough' => by
    rw [linksFrom, linksFrom]
    by_cases noMatch : (env.pcre.exec env.reUrl page).1 < 0
    · rw [if_pos noMatch, if_pos noMatch]
    · have moves := finds.moves (Int.not_lt.1 noMatch)
      have fewer : (behindMatch env page).length < page.length := by
        rw [behindMatch, List.length_drop]
        omega
      have rest : linksFrom env n (behindMatch env page) = linksFrom env m (behindMatch env page) :=
        linksFrom_eq finds (by omega) (by omega)
      rw [if_neg noMatch, if_neg noMatch, rest]

theorem sfPcreGetHref_eq (finds : FindsLinks env.pcre env.reUrl) {fuel : Nat} {page : List Byte}
    (enough : page.length < fuel) (pooled : (w.spider r).pool.isSome) :
    sfPcreGetHref env fuel r level page origurl w =
      offerAll env r level (calls env origurl (links env page)) w := by
  rw [sfPcreGetHref, hrefLoop_eq finds enough pooled, links,
    linksFrom_eq finds enough (Nat.lt_succ_self _)]

end Loop

/-! ## What is offered -/

section Offered

variable (env : Env Re) (origurl : CString)

/-- There is one call for each link that is absolute or can be completed, in their order. -/
def Offered (ls : List Link) : Prop :=
  List.Forall₂ (fun l url => l.offer env origurl = some url)
    (ls.filter fun l => (l.full env origurl).isSome) (calls env origurl ls).1

/-- Each link that can be completed has a URL for its call, and there is none behind one that
cannot. -/
def AllUsable (ls : List Link) : Prop :=
  (∀ l ∈ ls, (l.full env origurl).isSome → (l.offer env origurl).isSome) ∧
    ls.Pairwise fun l l' => l.full env origurl = none → l'.full env origurl = none

theorem offered_iff (ls : List Link) : Offered env origurl ls ↔ AllUsable env origurl ls := by
  induction ls with
  | nil => simp [Offered, AllUsable, calls]
  | cons l ls ih =>
    unfold Offered AllUsable at ih ⊢
    rw [calls, List.forall_mem_cons, List.pairwise_cons]
    cases full : l.full env origurl with
    | none =>
      -- the loop is over, and no link behind it may be one for which there is a call
      have none_ : ls.filter (fun l => (l.full env origurl).isSome) = [] ↔
          ∀ l' ∈ ls, l'.full env origurl = none := by
        simp [List.filter_eq_nil_iff]
      simp only [List.filter_cons_of_neg, full, Option.isSome_none, Bool.false_eq_true,
        not_false_iff, List.forall₂_nil_right_iff, none_, false_imp_iff, true_and, forall_const]
      constructor
      · intro all
        refine ⟨fun l' hl' some_ => ?_, all, ?_⟩
        · rw [all l' hl'] at some_
          cases some_
        · exact List.pairwise_of_forall_mem_list fun _ _ l'' hl'' _ => all l'' hl''
      · intro usable
        exact usable.2.1
    | some u =>
      rw [List.filter_cons_of_pos (by simp [full])]
      cases offer : l.offer env origurl with
      | none => simp
      | some url =>
        simp only [List.forall₂_cons, offer, ih]
        simp

/-- A relative link has a URL for its call when `redurceurl` comes to its end inside its buffer;
any other link has one. -/
theorem offer_isSome {l : Link} {full : CString} (here : l.full env origurl = some full) :
    (l.offer env origurl).isSome ↔
      (l.Relative → Covered dirRole (interior full.bytes) ∧ FitsTemp full.bytes) := by
  rw [Link.offer, here, Option.bind_some]
  split
  case isTrue relative =>
    rw [redurceurl_isSome]
    exact (imp_iff_right relative).symm
  case isFalse absolute => exact iff_of_true rfl fun relative => absurd relative absolute

end Offered

/-- **The loop makes its calls for the links of the page. There is one for each link that is
absolute or can be completed exactly when `redurceurl` comes to its end for each relative one that
can be completed, and none of these links stands behind one that cannot be.** -/
theorem links_offered_iff {env : Env Re} (finds : FindsLinks env.pcre env.reUrl) {fuel : Nat}
    {r : Ref} {level : Int} {page : List Byte} {origurl : CString} {w : World Re}
    (enough : page.length < fuel) (pooled : (w.spider r).pool.isSome) :
    sfPcreGetHref env fuel r level page origurl w =
        offerAll env r level (calls env origurl (links env page)) w ∧
      (Offered env origurl (links env page) ↔
        (∀ l ∈ links env page, l.Relative → ∀ full, l.full env origurl = some full →
          Covered dirRole (interior full.bytes) ∧ FitsTemp full.bytes) ∧
        (links env page).Pairwise fun l l' =>
          l.full env origurl = none → l'.full env origurl = none) := by
  refine ⟨sfPcreGetHref_eq finds enough pooled, ?_⟩
  rw [offered_iff, AllUsable]
  refine and_congr_left fun _ => forall₂_congr fun l _ => ?_
  cases full : l.full env origurl with
  | none => simp
  | some u =>
    rw [offer_isSome env origurl full]
    simp

/-! ## The pattern of URLs -/

/-- A match of a whole URL begins with an `h` and is in the first group. -/
theorem whole_group {t u : Try Byte} (h : u ∈ Regex.tries (.group 1 absoluteUrl) t) :
    ∃ b more groups, (b = 104#8 ∨ b = 72#8) ∧ u.groups = (1, b :: more) :: groups := by
  obtain ⟨v, inside, rfl⟩ := List.mem_map.1 h
  obtain ⟨v₁, scheme, later⟩ := List.mem_flatMap.1 inside
  obtain ⟨v₂, word, rfl⟩ := List.mem_map.1 scheme
  have first : ∃ b rest, (b = 104#8 ∨ b = 72#8) ∧ t.rest = b :: rest ∧
      v₂.rest.length ≤ rest.length := by
    obtain either | either := List.mem_append.1 word <;>
    · obtain ⟨v₃, letter, more⟩ := List.mem_flatMap.1 either
      obtain ⟨b, here, e, -⟩ := Regex.mem_letter letter
      have shorter := Regex.least_le more
      exact ⟨b, v₃.rest, by simpa using here, e, by omega⟩
  obtain ⟨b, rest, here, e, shorter⟩ := first
  have shorter' := Regex.least_le later
  simp only at shorter'
  have some_ : t.rest.length - v.rest.length = (rest.length - v.rest.length) + 1 := by
    rw [e, List.length_cons]
    omega
  refine ⟨b, rest.take (rest.length - v.rest.length), v.groups, here, ?_⟩
  rw [some_, e, List.take_succ_cons]

/-- The value of an attribute is in the sixth group. -/
theorem hrefurl_group {t u : Try Byte} (h : u ∈ Regex.tries hrefUrl t) :
    ∃ value groups, u.groups = (6, value) :: groups := by
  obtain ⟨v₁, -, h⟩ := List.mem_flatMap.1 h
  obtain ⟨v₂, -, h⟩ := List.mem_flatMap.1 h
  obtain ⟨v₃, -, h⟩ := List.mem_flatMap.1 h
  obtain ⟨v₄, -, h⟩ := List.mem_flatMap.1 h
  obtain ⟨v₅, -, h⟩ := List.mem_flatMap.1 h
  obtain ⟨v₆, -, rfl⟩ := List.mem_map.1 h
  exact ⟨_, _, rfl⟩

/-- A match of the pattern: its place, what it leaves, and its first group, or its sixth one. -/
theorem patternUrl_match {text : List Byte} (found : 0 ≤ (regexPcre.exec patternUrl text).1) :
    ∃ n t, patternUrl.regex.search text = some (n, t) ∧
      ((∃ b more groups, (b = 104#8 ∨ b = 72#8) ∧ t.groups = (1, b :: more) :: groups) ∨
        ∃ value groups, t.groups = (6, value) :: groups) := by
  cases search : patternUrl.regex.search text with
  | none =>
    simp only [regexPcre, search] at found
    exact absurd found (by decide)
  | some m =>
    refine ⟨m.1, m.2, rfl, ?_⟩
    obtain whole | value := List.mem_append.1 (Regex.mem_tries_of_search search)
    · exact .inl (whole_group whole)
    · exact .inr (hrefurl_group value)

/-- **The pattern of URLs does what the loop relies on.** -/
theorem patternUrl_finds : FindsLinks regexPcre patternUrl where
  moves := by
    intro text found
    obtain ⟨n, t, search, -⟩ := patternUrl_match found
    have some_ : 0 < patternUrl.regex.least := by decide
    have inside := Regex.search_least search
    simp only [matchEnd, regexPcre, search, List.getElem?_cons_succ, List.getElem?_cons_zero,
      Option.getD_some]
    omega
  url := by
    intro text found
    obtain ⟨n, t, search, groups⟩ := patternUrl_match found
    refine ⟨_, named_of_search patternUrl (by decide) (k := 1) rfl search ?_⟩
    obtain ⟨_, _, _, -, e⟩ | ⟨_, _, e⟩ := groups <;>
    · rw [e, List.map_cons, List.foldr_cons]
      omega
  href := by
    intro text url found fetched empty
    obtain ⟨n, t, search, groups⟩ := patternUrl_match found
    obtain ⟨b, more, groups, here, e⟩ | ⟨value, groups, e⟩ := groups
    · -- a whole URL is not empty
      have same := named_of_search patternUrl (by decide : 0#8 ∉ urlName) (k := 1) rfl search (by
        rw [e, List.map_cons, List.foldr_cons]
        omega)
      rw [fetched, e, List.lookup_cons_self, Option.getD_some] at same
      cases same
      obtain rfl | rfl := here <;> cases empty
    · refine ⟨_, named_of_search patternUrl (by decide) (k := 6) rfl search ?_⟩
      rw [e, List.map_cons, List.foldr_cons]
      omega

/-! ## A page with two links -/

/-- `href='x' http://a`. -/
def twoLinks : List Byte :=
  [104#8, 114#8, 101#8, 102#8, 61#8, 39#8, 120#8, 39#8, 32#8,
    104#8, 116#8, 116#8, 112#8, 58#8, 47#8, 47#8, 97#8]

/-- `http://h`. -/
def bareSite : CString := .ofBytes [104#8, 116#8, 116#8, 112#8, 58#8, 47#8, 47#8, 104#8]

/-- A configuration without ranges, with one policy for every URL. -/
def openConf (urlFeedback : Bool) : Conf Pattern where
  urlLevel := 5
  urlCount := 1
  urlFeedback := urlFeedback
  method := .ofBytes [71#8, 69#8, 84#8]
  postData := .empty
  userAgent := .empty
  urlSuffix := none
  policy := [⟨[], []⟩]
  range := []
  headers := []

/-- The bounds that the table of uniq values needs. -/
theorem uniq_low : 4 ≤ 16 := by decide
theorem uniq_high : 16 ≤ 24 := by decide

/-- The top-level spider has its pool, and the tables are empty. -/
def pooledWorld (conf : Conf Pattern) : World Pattern where
  vars := ⟨⟨id, id⟩, fun _ => ⟨.empty, .empty⟩, 0⟩
  uniq := .init uniq_low uniq_high ()
  urls := fun _ => .init
  urlsCnt := 1
  urlTxt := []
  reader := .fopen true
  line := 0
  confset := Conf.sfConfsetInit
  top := ⟨.empty, conf, none, none, true, some 0, none, true, false, some 0⟩
  nested := fun _ => ⟨.empty, conf, none, none, true, some 0, none, true, false, some 0⟩
  nestedCnt := 0
  strings := fun _ => ⟨.empty, 0, false⟩
  stringCnt := 0
  poolCnt := 1
  spiderLevel := 0
  unparseUrl := .empty
  clock := 1

theorem links_offered_iff_twoLinks :
    sfPcreGetHref (patternSite ⟨true, twoLinks, []⟩) 18 .top 1 twoLinks bareSite
        (pooledWorld (openConf false)) =
        offerAll (patternSite ⟨true, twoLinks, []⟩) .top 1
          (calls (patternSite ⟨true, twoLinks, []⟩) bareSite
            (links (patternSite ⟨true, twoLinks, []⟩) twoLinks)) (pooledWorld (openConf false)) ∧
      (Offered (patternSite ⟨true, twoLinks, []⟩) bareSite
          (links (patternSite ⟨true, twoLinks, []⟩) twoLinks) ↔
        (∀ l ∈ links (patternSite ⟨true, twoLinks, []⟩) twoLinks, l.Relative → ∀ full,
          l.full (patternSite ⟨true, twoLinks, []⟩) bareSite = some full →
            Covered dirRole (interior full.bytes) ∧ FitsTemp full.bytes) ∧
        (links (patternSite ⟨true, twoLinks, []⟩) twoLinks).Pairwise fun l l' =>
          l.full (patternSite ⟨true, twoLinks, []⟩) bareSite = none →
            l'.full (patternSite ⟨true, twoLinks, []⟩) bareSite = none) :=
  links_offered_iff patternUrl_finds (by decide) rfl

/-- The page `http://h` has no directory to complete `x` with, and the loop returns before
`http://a`. -/
theorem link_hides_next : ¬ ∀ (env : Env Pattern) (origurl : CString) (page : List Byte),
    FindsLinks env.pcre env.reUrl → Offered env origurl (links env page) := by
  intro claim
  have offered := claim (patternSite ⟨true, twoLinks, []⟩) bareSite twoLinks patternUrl_finds
  exact absurd offered.length_eq (by decide +kernel)

end SpiderFrame.Url
