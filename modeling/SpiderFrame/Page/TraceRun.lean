import SpiderFrame.Page.Trace
import SpiderFrame.Queue.RoundTrip

/-!
# What a whole run logs

The pass over the functions of a run goes on with pages and loops (`main.c`). The loops read
`url.txt`, so they only go on in it (`onward`). A nested run is sound whatever it starts
(`nestedSound`, by induction on the fuel), and the run of the program is an array of items, or the
beginning of one when it does not return (`mainRun_cases`).
-/

namespace SpiderFrame.Page
open SpiderFrame.Base SpiderFrame.Queue
open SpiderFrame.Json (Op Items Item)

variable {Re : Type}

section

variable {L : Lang (Event Re)} {M : Moves (World Re) (Event Re)} {conf : Conf Re} {nested : Bool}
  {d d' : Int}

/-! ## Pages -/

theorem Event.Sound.weaken : ∀ {e : Event Re}, e.Sound conf (d + 1) → e.Sound conf d
  | .fetch _ _, h => by
    have deep : d + 1 ≤ _ := h
    exact le_trans (by omega) deep
  | .uniq .top _ _ _, h => h
  | .uniq (.nested _) _ _ _, _ => trivial
  | .json _, _ => trivial
  | .jsonFree, _ => trivial
  | .pattern _, _ => trivial
  | .start _ _ _, h => h
  | .chkpoint _ _, _ => trivial

theorem emits_weaken {I : World Re → Prop} {α : Type} {m : Run Re α} {Q : α → Prop}
    (h : Emits (lang conf (d + 1)) M I m Q) : Emits (lang conf d) M I m Q :=
  h.weaken (fun _ ha => ⟨ha.1, fun e he => (ha.2 e he).weaken⟩)
    fun _ ha => ⟨ha.1, fun e he => (ha.2 e he).weaken⟩

variable {I : World Re → Prop}

theorem emits_inUrl (url : CString) :
    Emits L M I (inUrl url) fun _ => True := by
  unfold inUrl
  split
  · exact .pure trivial
  · exact .halt

theorem emits_withSuffix (fuel : Nat) (r : Ref) (suffix : Option CString) (url : CString) :
    Emits L M I (withSuffix fuel r suffix url) fun _ => True := by
  cases suffix with
  | none => exact .pure trivial
  | some suffix => exact .bind (emits_expand fuel r _) fun _ _ => emits_inUrl _

theorem emits_expandHeaders (fuel : Nat) (r : Ref) : ∀ hdrs : List CString,
    Emits L M I (expandHeaders fuel r hdrs) fun _ => True
  | [] => .pure trivial
  | _ :: hdrs => .bind (emits_expand fuel r _) fun _ _ =>
      .bind (emits_expandHeaders fuel r hdrs) fun _ _ => .pure trivial

theorem emits_postField (fuel : Nat) (r : Ref) (conf : Conf Re) :
    Emits L M I (postField fuel r conf) fun _ => True := by
  unfold postField
  split
  · exact .bind (emits_expand fuel r _) fun _ _ => .pure trivial
  · exact .pure trivial

variable [AllowsQuiet M]

theorem emits_sfCurlUrl (env : Env Re) (fuel : Nat) (r : Ref) (url : CString) :
    Emits L M (Steady nested d) (sfCurlUrl env fuel r url) fun _ => True :=
  .bind (emits_spider r) fun s _ => .bind (emits_postField fuel r s.conf) fun _ _ =>
    .bind (emits_expand fuel r _) fun _ _ => .bind (emits_expandHeaders fuel r _) fun _ _ =>
      emits_outside _

theorem emits_feedback {I : World Re → Prop} (name key : List Byte) (url : CString) :
    Emits (lang conf d) M I (feedback name key url) fun _ => True := by
  have object := Item.object (.string key url.bytes .nil)
  exact emits_items (items_field name object.items)

theorem emits_reportSuccess {I : World Re → Prop} (conf' : Conf Re) (url : CString) :
    Emits (lang conf d) M I (reportSuccess conf' url) fun _ => True := by
  unfold reportSuccess
  split
  · exact emits_feedback _ _ _
  · exact .pure trivial

/-- The rules of a top-level spider are those of `conf`, at the policies from `i` on. -/
def Policies (conf : Conf Re) (r : Ref) (i : Nat) (ps : List (Policy Re)) : Prop :=
  r = .top → ∀ j, ps[j]? = conf.policy[i + j]?

theorem Policies.placed {r : Ref} {i : Nat} {p : Policy Re} {ps : List (Policy Re)}
    (h : Policies conf r i (p :: ps)) (j : Nat) (rule : Rule Re)
    (at_ : p.pcreRoot[j]? = some rule) : Placed conf r (i, 0 + j) rule := by
  intro top
  have here := h top 0
  rw [List.getElem?_cons_zero, Nat.add_zero] at here
  rw [Conf.ruleAt, ← here, Nat.zero_add]
  exact at_

theorem Policies.tail {r : Ref} {i : Nat} {p : Policy Re} {ps : List (Policy Re)}
    (h : Policies conf r i (p :: ps)) : Policies conf r (i + 1) ps := by
  intro top j
  have next := h top (j + 1)
  rwa [List.getElem?_cons_succ, show i + (j + 1) = i + 1 + j by omega] at next

theorem emits_policyLoop {start : Nat → Run Re Unit} (below : NestedSound M conf d start)
    (env : Env Re) (fuel : Nat) {r : Ref} (url : CString) (page : Fetched)
    (ps : List (Policy Re)) : ∀ i, Policies conf r i ps →
    Emits (lang conf (d + 1)) M (Steady true d) (policyLoop env fuel start r url page i ps)
      fun _ => True := by
  induction ps with
  | nil => exact fun _ _ => .pure trivial
  | cons q ps ih =>
    intro i at_
    unfold policyLoop
    split
    · exact .seq (emits_ruleLoop below _ _ _ at_.placed) (ih _ at_.tail)
    · exact ih _ at_.tail

/-- Whether a spider runs below the top-level one. -/
def Ref.isNested : Ref → Bool
  | .top => false
  | .nested _ => true

@[simp] theorem setSpider_rpos (w : World Re) (s : Spider Re) (r : Ref) :
    (w.setSpider s r).reader.pos = w.reader.pos := by cases r <;> rfl

@[simp] theorem setSpider_line (w : World Re) (s : Spider Re) (r : Ref) :
    (w.setSpider s r).line = w.line := by cases r <;> rfl

theorem Steady.setFalse {w : World Re} {r : Ref} (h : Steady r.isNested d w) :
    Steady true d (w.setSpider { w.spider r with eof := false } r) := by
  cases r with
  | top => exact ⟨h.level, h.inFile, fun _ => rfl⟩
  | nested o => exact h.later (.setSpider fun top => nomatch top)

theorem Steady.outside {w : World Re} (h : Steady true d w) (nested : Bool) :
    Steady nested d w := ⟨h.level, h.inFile, fun _ => h.going rfl⟩

theorem emits_workPage {start : Nat → Run Re Unit} (below : NestedSound M conf d start)
    (env : Env Re) (fuel : Nat) {r : Ref} {conf' : Conf Re} (same : r = .top → conf' = conf)
    (level : Int) (backupUrl url : CString) :
    Emits (lang conf (d + 1)) M (Steady true d)
      (workPage env fuel start conf' r level backupUrl url) fun _ => True := by
  have at_ : Policies conf r 0 conf'.policy := fun top j => by rw [same top, Nat.zero_add]
  refine .bind (emits_sfCurlUrl env fuel r url) fun page _ => ?_
  split
  · exact .seq (emits_feedback _ _ _) (.pure trivial)
  · refine .seq (emits_reportSuccess _ _) (.seq (emits_hrefLoop env r _ _ fuel _ _) ?_)
    exact .seq (emits_policyLoop below env fuel _ _ _ 0 at_) (.pure trivial)

theorem emits_fetchPage {start : Nat → Run Re Unit} (below : NestedSound M conf d start)
    (env : Env Re) (fuel : Nat) {r : Ref} {conf' : Conf Re} (same : r = .top → conf' = conf)
    (level : Int) (url : CString) :
    Emits (lang conf d) M (Steady r.isNested d) (fetchPage env fuel start conf' r level url)
      fun _ => True := by
  refine .enter (fun w _ => silent_move (setSpider_rpos _ _ _) (setSpider_line _ _ _))
    (fun w h => h.setFalse) ?_ fun w h => h.outside _
  refine .bind (emits_withSuffix fuel r _ url) fun url' _ => .bind .get fun w hw => ?_
  refine .seq (emits_quiet rfl rfl (le_of_eq hw.level.symm)) ?_
  exact .bind (emits_weaken (emits_workPage below env fuel same level url url')) fun _ _ =>
    .pure trivial

/-! ## Behind the loops -/

theorem emits_unparseLoop (fuel : Nat) : ∀ url bs,
    Emits (lang conf d) M (Steady nested d') (unparseLoop fuel url bs) fun _ => True := by
  induction fuel with
  | zero => exact fun _ _ => .halt
  | succ fuel ih =>
    intro url bs
    simp only [unparseLoop]
    split
    · exact emits_change fun _ => ⟨rfl, rfl, rfl, le_refl _, rfl⟩
    · have object := Item.object (.string urlKey ((fscanfRecord bs).url.getD url).bytes .nil)
      exact .seq (emits_items object.items) (ih _ _)

theorem emits_leaveLoop (env : Env Re) (fuel : Nat) (conf' : Conf Re) (r : Ref) :
    Emits (lang conf d) M (Steady nested d') (leaveLoop env fuel conf' r) fun _ => True := by
  refine .bind (emits_spider r) fun s _ => ?_
  split
  · refine .bind (emits_spider r) fun s _ => .bind (.ofOption fun _ _ => trivial) fun urlFn _ =>
      .bind .get fun w _ => .bind (.ofOption fun _ _ => trivial) fun bytes _ => ?_
    exact emits_around (emits_unparseLoop fuel _ _) fun _ h => items_field unparseKey h
  · exact .pure trivial

/-! ## The loops -/

/-- Neither the stream nor the counter goes back. -/
def onward : Moves (World Re) (Event Re) where
  rel w _ w' := w.reader.pos ≤ w'.reader.pos ∧ w.line ≤ w'.line
  refl _ := ⟨le_refl _, le_refl _⟩
  trans h h' := ⟨h.1.trans h'.1, h.2.trans h'.2⟩

instance : AllowsQuiet (onward : Moves (World Re) (Event Re)) where
  quiet rpos line _ := ⟨rpos.ge, line.ge⟩

theorem Steady.scan {w : World Re} (h : Steady nested d w) : Steady nested d w.scan :=
  ⟨h.level, Reader.leave_inFile h.inFile _, h.going⟩

theorem scan_onward {w : World Re} (inFile : w.reader.pos ≤ w.urlTxt.length) :
    onward.rel w [] w.scan := by
  constructor
  · exact Reader.pos_le_leave inFile (fscanfRecord_suffix _)
  · show w.line ≤ if (fscanfRecord w.unread).rc > 0 then w.line + 1 else w.line
    split <;> omega

theorem emits_sfGlobalScanUrl (level : Int) (url : CString) :
    Emits L onward (Steady nested d) (sfGlobalScanUrl level url) fun _ => True := by
  refine .bind .get fun w _ => .seq (.modify (fun _ h => scan_onward h.inFile) fun _ h => h.scan) ?_
  split
  · exact .pure trivial
  · exact .bind (emits_inUrl _) fun _ _ => .pure trivial

theorem emits_nextUrl (r : Ref) (level : Int) (url : CString) :
    Emits L onward (Steady nested d) (nextUrl r level url) fun _ => True := by
  refine .bind (emits_spider r) fun s _ => ?_
  split
  · exact .bind .get fun w _ => .bind (.ofOption fun _ _ => trivial) fun _ _ =>
      .bind (emits_inUrl _) fun _ _ => .pure trivial
  · exact emits_sfGlobalScanUrl level url

theorem emits_newPool (env : Env Re) (r : Ref) :
    Emits L onward (Steady nested d) (newPool env r) fun _ => True := by
  refine .bind (emits_spider r) fun s _ => .bind (emits_outside _) fun ok _ =>
    .bind .get fun w _ => ?_
  refine .seq (emits_change fun _ => ⟨rfl, rfl, rfl, le_refl _, rfl⟩) ?_
  exact .seq (emits_update r fun _ => rfl) (.pure trivial)

/-- A nested spider does not touch the flag of the top-level one. -/
theorem emits_setEof (r : Ref) (eof : Bool) :
    Emits L onward (Steady r.isNested d) (setEof r eof) fun _ => True := by
  refine .modify (fun w _ => silent_move (setSpider_rpos _ _ _) (setSpider_line _ _ _)) ?_
  intro w h
  cases r with
  | top => exact ⟨h.level, h.inFile, fun below => nomatch below⟩
  | nested o => exact h.later (.setSpider fun top => nomatch top)

theorem emits_saveCheckpoint (r : Ref) (line : Int) :
    Emits (lang conf d) onward (Steady nested d') (saveCheckpoint r line) fun _ => True := by
  refine .bind (emits_spider r) fun s _ => ?_
  split
  · exact emits_quiet rfl rfl trivial
  · exact .pure trivial

theorem emits_afterPage (r : Ref) (conf' : Conf Re) (level : Int) :
    Emits (lang conf d) onward (Steady r.isNested d') (afterPage conf' r level) fun _ => True := by
  refine .bind .get fun w _ => ?_
  split
  · exact .seq (emits_setEof r true) (.pure trivial)
  · exact .seq (emits_saveCheckpoint r w.line) (.pure trivial)

theorem emits_innerRound {start : Nat → Run Re Unit} (below : NestedSound onward conf d start)
    (env : Env Re) (fuel : Nat) {r : Ref} {conf' : Conf Re} (same : r = .top → conf' = conf)
    (level : Int) (url : CString) :
    Emits (lang conf d) onward (Steady r.isNested d) (innerRound env fuel start conf' r level url)
      fun _ => True := by
  refine .bind (emits_nextUrl r level url) fun next _ => ?_
  cases next with
  | none => exact .seq (emits_setEof r true) (.pure trivial)
  | some next =>
    refine .bind (emits_newPool env r) fun pooled _ => ?_
    split
    · refine .bind (emits_fetchPage below env fuel same next.1 next.2) fun ⟨done, url⟩ _ => ?_
      cases done with
      | true => exact .bind (emits_afterPage r conf' next.1) fun _ _ => .pure trivial
      | false => exact .pure trivial
    · exact .pure trivial

theorem emits_outerTest (env : Env Re) (fuel : Nat) (conf' : Conf Re) (r : Ref) (level : Int)
    {goOn : Run Re Unit}
    (next : Emits (lang conf d) onward (Steady nested d') goOn fun _ => True) :
    Emits (lang conf d) onward (Steady nested d') (outerTest env fuel conf' r level goOn)
      fun _ => True := by
  refine .bind .get fun w _ => ?_
  split
  · exact emits_leaveLoop env fuel conf' r
  · split
    · exact .pure trivial
    · exact next

theorem emits_spiderLoop {start : Nat → Run Re Unit} (below : NestedSound onward conf d start)
    (env : Env Re) (fuel : Nat) {r : Ref} {conf' : Conf Re} (same : r = .top → conf' = conf)
    (n : Nat) : ∀ level url,
    Emits (lang conf d) onward (Steady r.isNested d) (spiderLoop env fuel start conf' r n level url)
      fun _ => True := by
  induction n with
  | zero => exact fun _ _ => .halt
  | succ n ih =>
    intro level url
    refine .bind (emits_innerRound below env fuel same level url) fun ⟨again, level, url⟩ _ => ?_
    cases again with
    | true => exact ih level url
    | false => exact emits_outerTest env fuel conf' r level (ih level url)

theorem emits_spiderRun {start : Nat → Run Re Unit} (below : NestedSound onward conf d start)
    (env : Env Re) (fuel : Nat) {r : Ref} {conf' : Conf Re} (same : r = .top → conf' = conf) :
    Emits (lang conf d) onward (Steady r.isNested d) (spiderRun env fuel start conf' r)
      fun _ => True := by
  refine .seq (emits_update r fun _ => rfl) (.bind (emits_outside _) fun level _ => ?_)
  exact emits_spiderLoop below env fuel same fuel level env.garbageUrl

theorem nestedSound_of {start : Nat → Run Re Unit}
    (run : ∀ o, Emits (lang conf (d + 1)) onward (Steady true (d + 1)) (start o) fun _ => True) :
    NestedSound onward conf d start := fun _ _ o _ _ =>
  .bind .get fun _ hw => .seq
    (emits_event rfl ⟨hw.going rfl, hw.inFile⟩ fun _ => ⟨le_refl _, le_refl _⟩) (run o)

theorem emits_sfProcStartSpider (conf : Conf Re) (env : Env Re) (fuel : Nat) : ∀ d o,
    Emits (lang conf d) onward (Steady true d) (sfProcStartSpider env fuel (.nested o))
      fun _ => True := by
  induction fuel with
  | zero => exact fun _ _ => .halt
  | succ fuel ih =>
    intro d o
    refine .bind (emits_spider _) fun s _ => ?_
    have body := emits_spiderRun (nestedSound_of (ih (d + 1))) env fuel
      (show Ref.nested o = .top → s.conf = conf from fun top => nomatch top)
    exact .seq (emits_around body fun _ h => items_array h) (emits_update _ fun _ => rfl)

/-- **A nested run is sound, whatever it starts.** -/
theorem nestedSound (conf : Conf Re) (env : Env Re) (fuel : Nat) (d : Int) :
    NestedSound onward conf d fun o => sfProcStartSpider env fuel (.nested o) :=
  nestedSound_of (emits_sfProcStartSpider conf env fuel (d + 1))

/-! ## The whole run -/

theorem initWorld_steady {env : Env Re} {fuel : Nat} {confFn : CString} {urlTxt : List Byte}
    {skipline : Int} {w : World Re} (made : initWorld env fuel confFn urlTxt skipline = some w) :
    Steady false 0 w ∧ ∃ file, env.confFile 0 confFn = some file ∧
      w.top.conf = file.conf := by
  simp only [initWorld, Option.bind_eq_bind, Option.bind_eq_some_iff] at made
  obtain ⟨table, -, file, found, vars, -, world⟩ := made
  rw [← Option.some_inj.1 world]
  have atRest := ((Reader.atRest_fopen env.sticky urlTxt).skip skipline.toNat).1
  refine ⟨⟨rfl, atRest.inFile, fun h => ?_⟩, file, found, rfl⟩
  cases h

theorem around_halt {before behind : List Op} {m : Run Re Unit} {w : World Re}
    {es : List (Event Re)} (run : m w = (es, none)) :
    around before behind m w = (before.map .json ++ es, none) := by
  unfold around
  rw [each_json, each_json]
  exact Prog.bind_then rfl (Prog.bind_halt run)

theorem around_done {before behind : List Op} {m : Run Re Unit} {w w' : World Re}
    {es : List (Event Re)} (run : m w = (es, some ((), w'))) :
    around before behind m w =
      (before.map .json ++ (es ++ behind.map .json), some ((), w')) := by
  unfold around
  rw [each_json, each_json]
  exact Prog.bind_then rfl (Prog.bind_then run rfl)

/-- What a call of `sf_proc_start_spider` does between the brackets. -/
def spiderBody (env : Env Re) (fuel : Nat) (conf : Conf Re) (r : Ref) : Run Re Unit :=
  spiderRun env fuel (fun o => sfProcStartSpider env fuel (.nested o)) conf r

theorem sfProcStartSpider_apply (env : Env Re) (fuel : Nat) (r : Ref) (w : World Re) :
    sfProcStartSpider env (fuel + 1) r w = (do
      around [.arrayBegin] [.arrayEnd] (spiderBody env fuel (w.spider r).conf r)
      update r fun s => { s with patternFp := false } : Run Re Unit) w := by
  rw [sfProcStartSpider]
  have first : spider r w = ([], some (w.spider r, w)) := rfl
  rw [Prog.bind_done first, List.nil_append]
  rfl

theorem sfProcStartSpider_halt {env : Env Re} {fuel : Nat} {r : Ref} {w : World Re}
    {es : List (Event Re)} (run : spiderBody env fuel (w.spider r).conf r w = (es, none)) :
    sfProcStartSpider env (fuel + 1) r w = (.json .arrayBegin :: es, none) := by
  rw [sfProcStartSpider_apply]
  exact Prog.bind_halt (around_halt run)

theorem sfProcStartSpider_done {env : Env Re} {fuel : Nat} {r : Ref} {w w' : World Re}
    {es : List (Event Re)}
    (run : spiderBody env fuel (w.spider r).conf r w = (es, some ((), w'))) :
    sfProcStartSpider env (fuel + 1) r w = (.json .arrayBegin :: (es ++ [.json .arrayEnd]),
      some ((), w'.setSpider { w'.spider r with patternFp := false } r)) := by
  rw [sfProcStartSpider_apply, Prog.bind_done (around_done run)]
  simp [update, Prog.modify]

/-- **A run logs nothing, the beginning of an array, or an array.** -/
theorem mainRun_cases (env : Env Re) (fuel : Nat) (confFn : CString) (urlTxt : List Byte)
    (skipline : Int) : mainRun env fuel confFn urlTxt skipline = ([], false) ∨
      ∃ file body, env.confFile 0 confFn = some file ∧
        (mainRun env fuel confFn urlTxt skipline = (.json .arrayBegin :: body, false) ∧
            (lang file.conf 0).part body ∨
          mainRun env fuel confFn urlTxt skipline =
              (.json .arrayBegin :: (body ++ [.json .arrayEnd]), true) ∧
            (lang file.conf 0).whole body) := by
  unfold mainRun
  cases made : initWorld env fuel confFn urlTxt skipline with
  | none => exact .inl rfl
  | some w =>
    obtain ⟨steady, file, found, conf⟩ := initWorld_steady made
    cases fuel with
    | zero => exact .inl rfl
    | succ fuel =>
      right
      have array := emits_spiderRun (nestedSound file.conf env fuel 0) env fuel
        (r := .top) (fun _ => conf) w steady
      cases run : spiderBody env fuel w.top.conf .top w with
      | mk es result =>
        rw [show spiderRun _ _ _ _ _ w = _ from run] at array
        cases result with
        | none =>
          refine ⟨file, es, found, .inl ⟨?_, array⟩⟩
          dsimp only
          rw [sfProcStartSpider_halt run]
          rfl
        | some result =>
          refine ⟨file, es, found, .inr ⟨?_, array.1⟩⟩
          dsimp only
          rw [sfProcStartSpider_done run]
          rfl

/-- **Every event of a run is sound.** -/
theorem mainRun_sound {env : Env Re} {fuel : Nat} {confFn : CString} {urlTxt : List Byte}
    {skipline : Int} {e : Event Re} (he : e ∈ (mainRun env fuel confFn urlTxt skipline).1) :
    ∃ file, env.confFile 0 confFn = some file ∧ e.Sound file.conf 0 := by
  obtain run | ⟨file, body, found, ⟨run, word⟩ | ⟨run, word⟩⟩ :=
    mainRun_cases env fuel confFn urlTxt skipline
  · rw [run] at he
    cases he
  · refine ⟨file, found, ?_⟩
    rw [run, List.mem_cons] at he
    obtain rfl | inside := he
    · trivial
    · exact word.2 e inside
  · refine ⟨file, found, ?_⟩
    rw [run, List.mem_cons, List.mem_append, List.mem_singleton] at he
    obtain rfl | inside | rfl := he
    · trivial
    · exact word.2 e inside
    · trivial

end

end SpiderFrame.Page
