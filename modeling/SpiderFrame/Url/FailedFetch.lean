import SpiderFrame.Page.TraceRun
import SpiderFrame.Url.Offers

/-!
# What a failed fetch leaves behind (`main.c`)

The result of `sf_curl_url` is tested together with `url_feedback`. Without that option a failed fetch
goes on like one that has succeeded, and what curl has left in the buffers is searched for links and
given to the policies.
-/

namespace SpiderFrame.Url
open SpiderFrame.Base SpiderFrame.Queue SpiderFrame.Page

variable {Re : Type}

/-! ## Fetching -/

/-- The world stays. -/
def still : Moves (World Re) (Event Re) where
  rel w _ w' := w' = w
  refl _ := rfl
  trans h h' := h'.trans h

/-- A part of the run that only reads. -/
def Reads {α : Type} (m : Run Re α) : Prop :=
  Emits (Lang.all fun _ => False) still (fun _ => True) m fun _ => True

/-- What follows a part that only reads runs in the same world. -/
theorem Reads.bind_done {α β : Type} {m : Run Re α} (h : Reads m) {f : α → Run Re β}
    {w w' : World Re} {b : β} {es : List (Event Re)}
    (run : (m >>= f) w = (es, some (b, w'))) : ∃ a, f a w = (es, some (b, w')) := by
  obtain ⟨es₁, a, w₁, es₂, first, rest, rfl⟩ := Prog.bind_eq_done run
  obtain ⟨none_, same, -⟩ := Emits.done h trivial first
  cases same
  rw [List.eq_nil_iff_forall_not_mem.2 none_]
  exact ⟨a, rest⟩

/-- One more value has come from outside. -/
def tick (w : World Re) : World Re := { w with clock := w.clock + 1 }

theorem tick_spider (w : World Re) (r : Ref) : (tick w).spider r = w.spider r := by
  cases r <;> rfl

section Fetch

variable {env : Env Re} {fuel : Nat} {r : Ref} {url : CString} {w w' : World Re}
  {es : List (Event Re)}

/-- **A fetch reads its options, and the clock goes on.** -/
theorem sfCurlUrl_done {page : Fetched}
    (run : sfCurlUrl env fuel r url w = (es, some (page, w'))) :
    es = [] ∧ w' = tick w := by
  obtain ⟨s, rest⟩ := Reads.bind_done (emits_spider r) run
  obtain ⟨field, rest⟩ := Reads.bind_done (emits_postField fuel r s.conf) rest
  obtain ⟨agent, rest⟩ := Reads.bind_done (emits_expand fuel r _) rest
  obtain ⟨headers, rest⟩ := Reads.bind_done (emits_expandHeaders fuel r _) rest
  cases rest
  exact ⟨rfl, rfl⟩

end Fetch

/-! ## Calls that change nothing -/

/-- The ranges drop the URL, or the table has what they make of it. -/
def Ignored (env : Env Re) (r : Ref) (w : World Re) (url : CString) : Prop :=
  match sfProcUrlRewriteRange env.pcre url (w.spider r).conf.range with
  | none => False
  | some none => True
  | some (some rewrite) =>
    ∃ h, (w.spider r).urlHandle = some h ∧ ((w.urls h).search rewrite).isSome

section Calls

variable {env : Env Re} {r : Ref} {level : Int} {url : CString} {w w' : World Re}
  {es : List (Event Re)}

/-- The table and `url.txt` stay for a URL that is known. -/
theorem insertUrl_known {h : Nat} (known : ((w.urls h).search url).isSome) :
    w.insertUrl h level url = w := by
  obtain ⟨item, found⟩ := Option.isSome_iff_exists.1 known
  have same : sfProcInsertUrl (w.urls h) w.urlTxt level url = (w.urls h, w.urlTxt) := by
    simp [sfProcInsertUrl, urlSection, found]
  simp only [World.insertUrl, same, Function.update_eq_self]

/-- A URL that is not known is written to `url.txt`. -/
theorem insertUrl_new {h : Nat} (new : ((w.urls h).search url).isNone) :
    w.urlTxt.length < (w.insertUrl h level url).urlTxt.length := by
  have none_ := Option.isNone_iff_eq_none.1 new
  have longer : (w.insertUrl h level url).urlTxt = w.urlTxt ++ fprintfRecord level url := by
    simp [World.insertUrl, sfProcInsertUrl, urlSection, fileSection, none_]
  rw [longer, List.length_append]
  simp [fprintfRecord]

/-- **A call that is ignored changes nothing; any other one leaves `url.txt` longer, or the program
crashes in it.** -/
theorem insertUrl_cases (env : Env Re) (r : Ref) (level : Int) (url : CString) (w : World Re) :
    (Ignored env r w url ∧ insertUrl env r url level w = ([], some ((), w))) ∨
    (¬ Ignored env r w url ∧ (insertUrl env r url level w).1 = [] ∧
      ∀ w', (insertUrl env r url level w).2 = some ((), w') → w.urlTxt.length < w'.urlTxt.length) := by
  have read : spider r w = ([], some (w.spider r, w)) := rfl
  unfold Ignored insertUrl
  rw [Prog.bind_silent read]
  cases sfProcUrlRewriteRange env.pcre url (w.spider r).conf.range with
  | none => exact .inr ⟨id, rfl, fun w' h => by cases h⟩
  | some rewrite =>
    rw [Prog.bind_silent rfl]
    cases rewrite with
    | none => exact .inl ⟨trivial, rfl⟩
    | some rewrite =>
      cases handle : (w.spider r).urlHandle with
      | none =>
        refine .inr ⟨?_, rfl, fun w' h => by cases h⟩
        rintro ⟨_, e, -⟩
        cases e
      | some h =>
        simp only [Option.some.injEq, exists_eq_left']
        rw [Prog.bind_silent rfl, Prog.get_bind]
        cases found : ((w.urls h).search rewrite).isSome with
        | true =>
          have run : (if ((w.urls h).search rewrite).isNone && !(w.spider r).urlFdw then Prog.halt
              else Prog.modify fun w => w.insertUrl h level rewrite : Run Re Unit) w =
              ([], some ((), w)) := by
            rw [if_neg (by simp [Option.isSome_iff_ne_none.1 found])]
            simp only [Prog.modify, insertUrl_known found]
          exact .inl ⟨rfl, run⟩
        | false =>
          refine .inr ⟨Bool.false_ne_true, ?_⟩
          have new : ((w.urls h).search rewrite).isNone := by simpa using found
          split
          · exact ⟨rfl, fun w' h => by cases h⟩
          · refine ⟨rfl, fun w' done => ?_⟩
            cases done
            exact insertUrl_new new

theorem offerAll_longer (ended : Bool) : ∀ (urls : List CString) {w w' : World Re}
    {es : List (Event Re)}, offerAll env r level (urls, ended) w = (es, some ((), w')) →
    w.urlTxt.length ≤ w'.urlTxt.length
  | [], w, w', es, run => by
    cases ended with
    | true =>
      cases run
      exact le_rfl
    | false => cases run
  | url :: urls, w, w', es, run => by
    rw [offerAll_cons] at run
    obtain ⟨es₁, _, w₁, es₂, first, rest, -⟩ := Prog.bind_eq_done run
    refine le_trans ?_ (offerAll_longer ended urls rest)
    obtain ⟨-, same⟩ | ⟨-, -, longer⟩ := insertUrl_cases env r level url w
    · rw [same] at first
      cases first
      exact le_rfl
    · exact (longer w₁ (congrArg Prod.snd first)).le

theorem offerAll_ignored : ∀ {urls : List CString}, (∀ url ∈ urls, Ignored env r w url) →
    offerAll env r level (urls, true) w = ([], some ((), w))
  | [], _ => rfl
  | url :: urls, all => by
    obtain ⟨first, rest⟩ := List.forall_mem_cons.1 all
    obtain ⟨-, same⟩ | ⟨taken, -⟩ := insertUrl_cases env r level url w
    · rw [offerAll_cons, Prog.bind_silent same, offerAll_ignored rest]
    · exact absurd first taken

/-- **Calls that leave the world as it is are all ignored.** -/
theorem ignored_of_offerAll {ended : Bool} : ∀ {urls : List CString} {es : List (Event Re)},
    offerAll env r level (urls, ended) w = (es, some ((), w)) →
      ended = true ∧ ∀ url ∈ urls, Ignored env r w url
  | [], es, run => by
    cases ended with
    | true => exact ⟨rfl, by simp⟩
    | false => cases run
  | url :: urls, es, run => by
    rw [offerAll_cons] at run
    obtain ⟨ignored, same⟩ | ⟨-, -, longer⟩ := insertUrl_cases env r level url w
    · rw [Prog.bind_silent same] at run
      obtain ⟨whole, rest⟩ := ignored_of_offerAll run
      exact ⟨whole, List.forall_mem_cons.2 ⟨ignored, rest⟩⟩
    · obtain ⟨_, _, w₁, _, first, rest, -⟩ := Prog.bind_eq_done run
      have less := longer w₁ (congrArg Prod.snd first)
      have more := offerAll_longer ended urls rest
      omega

end Calls

/-! ## The page of a failed fetch -/

/-- Each link, up to the first that cannot be completed, has a URL for its call, and the call is
ignored. -/
def AllIgnored (env : Env Re) (r : Ref) (origurl : CString) (w : World Re) : List Link → Prop
  | [] => True
  | l :: ls => l.full env origurl = none ∨ ∃ url, l.offer env origurl = some url ∧
      Ignored env r w url ∧ AllIgnored env r origurl w ls

theorem allIgnored_iff (env : Env Re) (r : Ref) (origurl : CString) (w : World Re)
    (ls : List Link) : AllIgnored env r origurl w ls ↔
      (calls env origurl ls).2 = true ∧ ∀ url ∈ (calls env origurl ls).1, Ignored env r w url := by
  induction ls with
  | nil => simp [AllIgnored, calls]
  | cons l ls ih =>
    rw [AllIgnored, calls, ih]
    cases full : l.full env origurl with
    | none => simp
    | some u =>
      cases offer : l.offer env origurl with
      | none => simp
      | some url =>
        simp only [reduceCtorEq, false_or, Option.some.injEq, exists_eq_left', List.forall_mem_cons]
        exact and_left_comm

section Page

variable {env : Env Re} {fuel : Nat} {start : Nat → Run Re Unit} {conf : Conf Re} {r : Ref}
  {level : Int} {backupUrl url : CString} {page : Fetched} {w w₁ : World Re}
  {es : List (Event Re)}

/-- The policies for a page, which come behind the test of the fetch. -/
def performed (env : Env Re) (conf : Conf Re) (url : CString) (page : Fetched) :
    List (Policy Re) :=
  if !page.ok && conf.urlFeedback then []
  else conf.policy.filter fun p => sfProcUrlMatchRange env url p.policyRange

/-- No policy is performed when no range takes the URL. -/
theorem policyLoop_none {ps : List (Policy Re)}
    (none_ : ∀ p ∈ ps, sfProcUrlMatchRange env url p.policyRange = false) : ∀ i : Nat,
    policyLoop env fuel start r url page i ps = pure () := by
  induction ps with
  | nil => exact fun _ => rfl
  | cons p ps ih =>
    intro i
    obtain ⟨first, rest⟩ := List.forall_mem_cons.1 none_
    rw [policyLoop, first, ih rest]
    rfl

/-- From the fetch to the end of the policies the program prints at most, and the world is what it was,
but for the clock. No policy is performed. -/
def Harmless (env : Env Re) (fuel : Nat) (start : Nat → Run Re Unit) (conf : Conf Re) (r : Ref)
    (level : Int) (backupUrl url : CString) (page : Fetched) (w : World Re) : Prop :=
  (∃ es done, workPage env fuel start conf r level backupUrl url w =
      (es, some (done, tick w)) ∧ ∀ e ∈ es, ∃ op, e = .json op) ∧
    performed env conf url page = []

/-- With `url_feedback` the failure is printed, and the record is done. -/
theorem harmless_of_feedback (failed : page.ok = false)
    (fetched : sfCurlUrl env fuel r url w = (es, some (page, w₁)))
    (report : conf.urlFeedback = true) :
    Harmless env fuel start conf r level backupUrl url page w := by
  obtain ⟨rfl, rfl⟩ := sfCurlUrl_done fetched
  unfold Harmless workPage performed
  rw [Prog.bind_silent fetched, failed, report]
  have printed (w : World Re) :
      feedback failUrl (urlKey ++ 0#8 :: env.beyond) backupUrl w = (_, some ((), w)) :=
    congrFun (each_json _) w
  refine ⟨⟨_, false, Prog.bind_then (printed _) rfl, fun e he => ?_⟩, by simp⟩
  rw [List.append_nil] at he
  obtain ⟨op, -, rfl⟩ := List.mem_map.1 he
  exact ⟨op, rfl⟩

theorem ignored_tick (env : Env Re) (r : Ref) (w : World Re) (url : CString) :
    Ignored env r (tick w) url ↔ Ignored env r w url := by
  unfold Ignored
  rw [tick_spider]
  rfl

/-- Without `url_feedback` the links of what was delivered are offered and the policies are
performed. -/
theorem harmless_iff_ignored (finds : FindsLinks env.pcre env.reUrl)
    (pooled : (w.spider r).pool.isSome) (failed : page.ok = false)
    (fetched : sfCurlUrl env fuel r url w = (es, some (page, w₁)))
    (enough : page.body.length < fuel) (report : conf.urlFeedback = false) :
    Harmless env fuel start conf r level backupUrl url page w ↔
      (∀ p ∈ conf.policy, sfProcUrlMatchRange env url p.policyRange = false) ∧
        AllIgnored env r url w (links env page.body) := by
  obtain ⟨rfl, rfl⟩ := sfCurlUrl_done fetched
  unfold Harmless workPage performed
  rw [Prog.bind_silent fetched, failed, report]
  have silent : (reportSuccess conf backupUrl : Run Re Unit) = pure () := by
    rw [reportSuccess, report]
    rfl
  have made : sfPcreGetHref env fuel r (level + 1) page.body url (tick w) =
      offerAll env r (level + 1) (calls env url (links env page.body)) (tick w) :=
    sfPcreGetHref_eq finds enough (by rwa [tick_spider])
  simp only [Bool.and_false, Bool.false_eq_true, if_false, silent,
    List.filter_eq_nil_iff, Bool.not_eq_true]
  rw [and_comm]
  apply and_congr_right
  intro none_
  rw [Prog.bind_silent rfl, policyLoop_none none_ 0, allIgnored_iff]
  constructor
  · rintro ⟨_, _, run, -⟩
    obtain ⟨_, _, _, _, first, rest, -⟩ := Prog.bind_eq_done run
    cases rest
    rw [made] at first
    obtain ⟨ended, all⟩ := ignored_of_offerAll first
    exact ⟨ended, fun url hurl => (ignored_tick env r w url).1 (all url hurl)⟩
  · rintro ⟨ended, all⟩
    have quiet : offerAll env r (level + 1) (calls env url (links env page.body))
        (tick w) = ([], some ((), tick w)) := by
      rw [← Prod.eta (calls env url (links env page.body)), ended]
      exact offerAll_ignored fun url hurl => (ignored_tick env r w url).2 (all url hurl)
    refine ⟨[], true, ?_, by simp⟩
    rw [Prog.bind_silent (made.trans quiet)]
    rfl

/-- **A failed fetch has no effect exactly when `url_feedback` is on, or no policy is for the URL
and every link in what was delivered is ignored.** -/
theorem failed_fetch_iff (finds : FindsLinks env.pcre env.reUrl)
    (pooled : (w.spider r).pool.isSome) (failed : page.ok = false)
    (fetched : sfCurlUrl env fuel r url w = (es, some (page, w₁)))
    (enough : page.body.length < fuel) :
    Harmless env fuel start conf r level backupUrl url page w ↔ conf.urlFeedback = true ∨
      (∀ p ∈ conf.policy, sfProcUrlMatchRange env url p.policyRange = false) ∧
        AllIgnored env r url w (links env page.body) := by
  cases report : conf.urlFeedback with
  | true => exact iff_of_true (harmless_of_feedback failed fetched report) (.inl rfl)
  | false =>
    rw [harmless_iff_ignored finds pooled failed fetched enough report]
    simp only [Bool.false_eq_true, false_or]

end Page

/-- A fetch that fails behind the page with two links. -/
def failedFetch : Fetched := ⟨false, twoLinks, []⟩

theorem failed_fetch_iff_twoLinks :
    Harmless (patternSite failedFetch) 18 (fun _ => Prog.halt) (openConf false) .top 0 bareSite
        bareSite failedFetch (pooledWorld (openConf false)) ↔
      (openConf false).urlFeedback = true ∨
        (∀ p ∈ (openConf false).policy,
          sfProcUrlMatchRange (patternSite failedFetch) bareSite p.policyRange = false) ∧
        AllIgnored (patternSite failedFetch) .top bareSite (pooledWorld (openConf false))
          (links (patternSite failedFetch) twoLinks) := by
  have fetched : sfCurlUrl (patternSite failedFetch) 18 .top bareSite
      (pooledWorld (openConf false)) = ([], some (failedFetch, _)) := rfl
  exact failed_fetch_iff patternUrl_finds rfl rfl fetched (by decide)

/-- Without `url_feedback` the policy is performed on what the failed fetch has left. -/
theorem failed_fetch_performs : ¬ ∀ (env : Env Pattern) (fuel : Nat) (start : Nat → Run Pattern Unit)
    (conf : Conf Pattern) (r : Ref) (level : Int) (backupUrl url : CString) (page : Fetched)
    (w w₁ : World Pattern) (es : List (Event Pattern)),
    sfCurlUrl env fuel r url w = (es, some (page, w₁)) → page.ok = false →
      Harmless env fuel start conf r level backupUrl url page w := by
  intro claim
  have harmless := claim (patternSite failedFetch) 18 (fun _ => Prog.halt) (openConf false) .top 0
    bareSite bareSite failedFetch (pooledWorld (openConf false)) _ [] rfl rfl
  exact List.cons_ne_nil _ _ harmless.2

end SpiderFrame.Url
