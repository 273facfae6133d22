import SpiderFrame.Json.Items
import SpiderFrame.Page.Spider

/-!
# What a run logs

One pass over the functions of a run. The calls of the printer that a function logs are items of
an array, or the beginning of some when the function does not come to its end; and every other
event is as it should be at its `spider_level`. Between them `Steady` holds. What a function does to
the stream and to the counter `line` is left open: any moves will do in which a part that starts no
nested run leaves both alone (`AllowsQuiet`).
-/

namespace SpiderFrame.Page
open SpiderFrame.Base SpiderFrame.Queue SpiderFrame.Hash SpiderFrame.Var SpiderFrame.Conf
open SpiderFrame.Json (Op Items Item Pairs)

variable {Re : Type}

/-- The call of the printer that an event is. -/
def Event.op : Event Re → Option Op
  | .json op => some op
  | _ => none

/-- The rule at a place of a configuration. -/
def Conf.ruleAt (conf : Conf Re) (id : RuleId) : Option (Rule Re) :=
  conf.policy[id.1]?.bind fun p => p.pcreRoot[id.2]?

/-- No capture of the rule has an `out_pattern`. -/
def Rule.noPattern (rule : Rule Re) : Prop := ∀ cap ∈ rule.sfcap, cap.outPattern = none

/-- What every event satisfies, for a top-level spider with the configuration `conf`, at the
level `d`. -/
def Event.Sound (conf : Conf Re) (d : Int) : Event Re → Prop
  | .uniq .top id _ texts =>
    ∃ rule, conf.ruleAt id = some rule ∧ (texts = [] ↔ rule.noPattern)
  | .fetch level _ => d ≤ level
  | .start _ _ w => w.top.eof = false ∧ w.reader.pos ≤ w.urlTxt.length
  | _ => True

/-- Items of an array, among events that are sound. -/
def lang (conf : Conf Re) (d : Int) : Lang (Event Re) :=
  (Lang.seen Event.op (.of Items .nil fun ha hb => hb.append ha)).inter (.all (Event.Sound conf d))

/-- The members of an object, among events that are sound. -/
def pairsLang (conf : Conf Re) (d : Int) : Lang (Event Re) :=
  (Lang.seen Event.op (.of Pairs .nil fun ha hb => hb.append ha)).inter (.all (Event.Sound conf d))

/-- At the level `d`; `nested` when the top-level spider waits for a page. -/
structure Steady (nested : Bool) (d : Int) (w : World Re) : Prop where
  level : w.spiderLevel = d
  inFile : w.reader.pos ≤ w.urlTxt.length
  going : nested = true → w.top.eof = false

/-- What a part of a page leaves alone, unless it starts a nested run. -/
structure Later (w w' : World Re) : Prop where
  level : w'.spiderLevel = w.spiderLevel
  rpos : w'.reader.pos = w.reader.pos
  line : w'.line = w.line
  longer : w.urlTxt.length ≤ w'.urlTxt.length
  eof : w'.top.eof = w.top.eof

theorem Steady.later {nested : Bool} {d : Int} {w w' : World Re} (h : Steady nested d w)
    (later : Later w w') : Steady nested d w' where
  level := later.level.trans h.level
  inFile := later.rpos ▸ h.inFile.trans later.longer
  going below := later.eof.trans (h.going below)

/-- A nested run starts. -/
def Event.isStart : Event Re → Bool
  | .start .. => true
  | _ => false

/-- Moves for the parts that start no nested run, which leave the stream and the counter alone. -/
class AllowsQuiet (M : Moves (World Re) (Event Re)) : Prop where
  quiet : ∀ {w w' : World Re} {es}, w'.reader.pos = w.reader.pos → w'.line = w.line →
    (∀ e ∈ es, e.isStart = false) → M.rel w es w'

section

variable {L : Lang (Event Re)} {M : Moves (World Re) (Event Re)} {conf : Conf Re} {nested : Bool}
  {d d' : Int}

/-! ## Parts that change nothing -/

variable {I : World Re → Prop}

theorem emits_spider (r : Ref) : Emits L M I (spider r) fun _ => True :=
  .bind .get fun _ _ => .pure trivial

theorem emits_poolOf (r : Ref) : Emits L M I (poolOf r) fun _ => True :=
  .bind (emits_spider r) fun _ _ => .ofOption fun _ _ => trivial

theorem emits_expand (fuel : Nat) (r : Ref) (varexp : Option CString) :
    Emits L M I (expand fuel r varexp) fun _ => True :=
  .bind .get fun _ _ => .ofOption fun _ _ => trivial

theorem emits_whenSome {α : Type} (o : Option α) {f : α → Run Re Unit}
    (h : ∀ a, Emits L M I (f a) fun _ => True) : Emits L M I (whenSome o f) fun _ => True := by
  cases o with
  | none => exact .pure trivial
  | some a => exact h a

theorem emits_exec (env : Env Re) (re : Re) (c : Cursor) :
    Emits L M I (exec env re c) fun _ => True := by
  unfold exec
  split
  · exact .pure trivial
  · split
    · exact .halt
    · exact .pure trivial

/-- One event that is no call of the printer. -/
theorem emits_event {e : Event Re} (plain : e.op = none)
    (sound : e.Sound conf d) (stays : ∀ w, M.rel w [e] w) :
    Emits (lang conf d) M I (Prog.log [e]) fun _ => True := by
  refine .log ⟨?_, by simpa [Lang.all] using sound⟩ stays
  have none_ : [e].filterMap Event.op = [] := by simp [plain]
  change Items ([e].filterMap Event.op)
  rw [none_]
  exact .nil

/-! ## Parts that log nothing -/

variable [AllowsQuiet M]

/-- A log without nested runs. -/
theorem stays {es : List (Event Re)} (none_ : ∀ e ∈ es, e.isStart = false) (w : World Re) :
    M.rel w es w := AllowsQuiet.quiet rfl rfl none_

/-- A change without a log. -/
theorem silent_move {w w' : World Re} (rpos : w'.reader.pos = w.reader.pos)
    (line : w'.line = w.line) :
    M.rel w [] w' := AllowsQuiet.quiet rpos line fun _ he => nomatch he

theorem emits_change {f : World Re → World Re} (later : ∀ w, Later w (f w)) :
    Emits L M (Steady nested d) (Prog.modify f) fun _ => True :=
  .modify (fun w _ => silent_move (later w).rpos (later w).line) fun w h => h.later (later w)

theorem Later.setSpider {w : World Re} {s : Spider Re} {r : Ref}
    (same : r = .top → s.eof = w.top.eof) : Later w (w.setSpider s r) := by
  cases r with
  | top => exact ⟨rfl, rfl, rfl, le_refl _, same rfl⟩
  | nested o => exact ⟨rfl, rfl, rfl, le_refl _, rfl⟩

theorem emits_update (r : Ref) {f : Spider Re → Spider Re} (same : ∀ s, (f s).eof = s.eof) :
    Emits L M (Steady nested d) (update r f) fun _ => True :=
  emits_change fun w => .setSpider fun top => top ▸ same w.top

theorem emits_outside {α : Type} (f : Nat → α) :
    Emits L M (Steady nested d) (outside f) fun _ => True :=
  .bind .get fun _ _ => .seq (emits_change fun _ => ⟨rfl, rfl, rfl, le_refl _, rfl⟩) (.pure trivial)

theorem emits_changeVars (r : Ref) (f : VarMem → Option Nat → Option (VarMem × Option Nat)) :
    Emits L M (Steady nested d) (changeVars r f) fun _ => True := by
  refine .bind .get fun w _ => .bind (.ofOption fun _ _ => trivial) fun changed _ => ?_
  refine .seq (emits_change fun _ => ⟨rfl, rfl, rfl, le_refl _, rfl⟩) (emits_update r fun _ => rfl)

theorem emits_setVar (fuel : Nat) (r : Ref) (name : CString) (value : Option CString) :
    Emits L M (Steady nested d) (setVar fuel r name value) fun _ => True :=
  emits_changeVars r _

theorem emits_deleteVar (fuel : Nat) (r : Ref) (name : CString) :
    Emits L M (Steady nested d) (deleteVar fuel r name) fun _ => True :=
  emits_changeVars r _

theorem emits_forget (fuel : Nat) (r : Ref) (cap : Capture) :
    Emits L M (Steady nested d) (forget fuel r cap) fun _ => True :=
  .seq (emits_whenSome _ (emits_deleteVar fuel r)) (emits_whenSome _ (emits_deleteVar fuel r))

theorem emits_storeContent (fuel : Nat) (r : Ref) (outstr : Option CString) (name : CString) :
    Emits L M (Steady nested d) (storeContent fuel r outstr name) fun _ => True := by
  refine .bind (emits_poolOf r) fun _ _ => ?_
  cases outstr with
  | none => exact emits_setVar fuel r name none
  | some outstr =>
    exact .bind (.ofOption fun _ _ => trivial) fun content _ => emits_setVar fuel r name _

/-! ## Links -/

theorem later_insertUrl (w : World Re) (o : Nat) (level : Int) (url : CString) :
    Later w (w.insertUrl o level url) := by
  refine ⟨rfl, rfl, rfl, ?_, rfl⟩
  simp only [World.insertUrl, sfProcInsertUrl]
  split
  · simp [fileSection]
  · exact le_refl _

theorem emits_insertUrl (env : Env Re) (r : Ref) (url : CString) (level : Int) :
    Emits L M (Steady nested d) (insertUrl env r url level) fun _ => True := by
  refine .bind (emits_spider r) fun s _ => .bind (.ofOption fun _ _ => trivial) fun rewrite _ => ?_
  cases rewrite with
  | none => exact .pure trivial
  | some rewrite =>
    refine .bind (.ofOption fun _ _ => trivial) fun o _ => .bind .get fun w _ => ?_
    split
    · exact .halt
    · exact emits_change fun w => later_insertUrl w o level rewrite

theorem emits_useHref (env : Env Re) (r : Ref) (level : Int) (href origurl : CString) :
    Emits L M (Steady nested d) (useHref env r level href origurl) fun _ => True := by
  unfold useHref
  split
  · exact .seq (emits_insertUrl env r href level) (.pure trivial)
  · split
    · exact .pure trivial
    · exact .bind (emits_poolOf r) fun _ _ => .bind (.ofOption fun _ _ => trivial) fun url _ =>
        .seq (emits_insertUrl env r url level) (.pure trivial)

theorem emits_hrefLoop (env : Env Re) (r : Ref) (level : Int) (origurl : CString) (fuel : Nat) :
    ∀ buf freed,
      Emits L M (Steady nested d) (hrefLoop env r level origurl fuel buf freed) fun _ => True := by
  induction fuel with
  | zero => exact fun _ _ => .halt
  | succ fuel ih =>
    intro buf freed
    simp only [hrefLoop]
    split
    · exact .pure trivial
    · split
      · exact .halt
      · split
        · exact .seq (emits_insertUrl env r _ level) (ih _ _)
        · split
          · refine .bind (emits_useHref env r level _ origurl) fun goOn _ => ?_
            cases goOn with
            | false => exact .pure trivial
            | true => exact ih _ _
          · split
            · exact ih _ _
            · exact .halt

/-! ## Calls of the printer -/

theorem each_json (ops : List Op) :
    (Prog.each json ops : Run Re Unit) = Prog.log (ops.map Event.json) := by
  induction ops with
  | nil => rfl
  | cons op ops ih =>
    rw [Prog.each, ih]
    rfl

theorem ops_json (ops : List Op) : (ops.map .json : List (Event Re)).filterMap Event.op = ops := by
  rw [List.filterMap_map]
  exact List.filterMap_some

theorem sound_json (ops : List Op) :
    ∀ e ∈ (ops.map .json : List (Event Re)), e.Sound conf d := by
  intro e he
  obtain ⟨op, -, rfl⟩ := List.mem_map.1 he
  trivial

theorem json_stays (ops : List Op) (w : World Re) : M.rel w (ops.map .json) w := by
  refine stays (fun e he => ?_) w
  obtain ⟨op, -, rfl⟩ := List.mem_map.1 he
  rfl

theorem emits_items {I : World Re → Prop} {ops : List Op} (h : Items ops) :
    Emits (lang conf d) M I (Prog.each json ops) fun _ => True := by
  rw [each_json]
  refine .log ⟨?_, sound_json ops⟩ (json_stays ops)
  change Items ((ops.map Event.json).filterMap Event.op)
  rwa [ops_json]

theorem emits_pairs {I : World Re → Prop} {ops : List Op} (h : Pairs ops) :
    Emits (pairsLang conf d) M I (Prog.each json ops) fun _ => True := by
  rw [each_json]
  refine .log ⟨?_, sound_json ops⟩ (json_stays ops)
  change Pairs ((ops.map Event.json).filterMap Event.op)
  rwa [ops_json]

/-- Brackets around a part whose calls are `W`. -/
theorem emits_around {I : World Re → Prop} {W : List Op → Prop} {nil : W []}
    {append : ∀ {a b}, W a → W b → W (a ++ b)} {before behind : List Op} {m : Run Re Unit}
    (h : Emits ((Lang.seen Event.op (.of W nil append)).inter (.all (Event.Sound conf d))) M I m
      fun _ => True)
    (closed : ∀ a, W a → Items (before ++ (a ++ behind))) :
    Emits (lang conf d) M I (around before behind m) fun _ => True := by
  unfold around
  rw [each_json, each_json]
  refine .around h (json_stays before) (json_stays behind) ?_ ?_
  · intro a ha
    constructor
    · change Items ((before.map Event.json ++ (a ++ behind.map Event.json)).filterMap Event.op)
      rw [List.filterMap_append, List.filterMap_append, ops_json, ops_json]
      exact closed _ ha.1
    · intro e he
      rw [List.mem_append, List.mem_append] at he
      obtain he | he | he := he
      · exact sound_json before e he
      · exact ha.2 e he
      · exact sound_json behind e he
  · intro a ha
    obtain ⟨⟨b, hb⟩, sound⟩ := ha
    constructor
    · refine ⟨b ++ behind, ?_⟩
      rw [List.filterMap_append, ops_json]
      simpa using closed _ hb
    · intro e he
      rw [List.mem_append] at he
      obtain he | he := he
      · exact sound_json before e he
      · exact sound e he

theorem items_array {a : List Op} (h : Items a) : Items ([.arrayBegin] ++ (a ++ [.arrayEnd])) :=
  (Item.array h).items

theorem items_object {a : List Op} (h : Pairs a) : Items ([.objectBegin] ++ (a ++ [.objectEnd])) :=
  (Item.object h).items

/-- An object with one key, for an array. -/
theorem items_field (key : List Byte) {a : List Op} (h : Items a) :
    Items ([.objectBegin, .key key, .arrayBegin] ++ (a ++ [.arrayEnd, .objectEnd])) := by
  have object := Item.object (.item key (.array h) .nil)
  simpa using object.items

/-! ## Captures -/

theorem emits_printPiece (fuel : Nat) (r : Ref) (piece : Piece Byte) :
    Emits (pairsLang conf d) M (Steady nested d') (printPiece fuel r piece) fun _ => True := by
  cases piece with
  | reference name =>
    refine .bind .get fun w _ => .bind (.ofOption fun _ _ => trivial) fun found _ => ?_
    cases found with
    | none => exact .pure trivial
    | some v => exact emits_pairs (.string _ _ .nil)
  | _ => exact .pure trivial

theorem emits_sfJsonPrintBuf (fuel : Nat) (r : Ref) (varexp : CString) :
    Emits (lang conf d) M (Steady nested d') (sfJsonPrintBuf fuel r varexp) fun _ => True :=
  emits_around (.each fun piece _ => emits_printPiece fuel r piece) fun _ h => items_object h

/-- One event that is neither that nor the start of a nested run. -/
theorem emits_quiet {I : World Re → Prop} {e : Event Re} (plain : e.op = none)
    (quiet : e.isStart = false) (sound : e.Sound conf d) :
    Emits (lang conf d) M I (Prog.log [e]) fun _ => True :=
  emits_event plain sound (stays (by simpa using quiet))

theorem emits_writePattern (fuel : Nat) (r : Ref) (pattern : CString) :
    Emits (lang conf d) M (Steady nested d') (writePattern fuel r pattern) fun _ => True := by
  refine .bind (emits_poolOf r) fun _ _ => .bind (emits_expand fuel r _) fun varbuf _ =>
    .bind (emits_spider r) fun s _ => ?_
  split
  · exact .seq (emits_quiet rfl rfl trivial) (.pure trivial)
  · exact .halt

/-- A capture writes a text if and only if it has an `out_pattern`. -/
theorem emits_capture (env : Env Re) (fuel : Nat) (r : Ref) (re : Re) (m : Match) (cap : Capture) :
    Emits (lang conf d) M (Steady nested d') (capture env fuel r re m cap)
      fun texts => texts = [] ↔ cap.outPattern = none := by
  refine .bind (.ofOption fun _ _ => trivial) fun capstr _ => ?_
  refine .seq (emits_whenSome _ fun name => emits_setVar fuel r name _) ?_
  refine .seq (emits_whenSome _ (emits_storeContent fuel r _)) ?_
  have jsonOut : Emits (lang conf d) M (Steady nested d')
      (whenSome cap.jsonOut (sfJsonPrintBuf fuel r)) fun _ => True :=
    emits_whenSome cap.jsonOut (emits_sfJsonPrintBuf fuel r)
  cases cap.outPattern with
  | none => exact .seq jsonOut (.pure (by simp))
  | some pattern =>
    exact .bind (emits_writePattern fuel r pattern) fun _ _ => .seq jsonOut (.pure (by simp))

theorem emits_captures (env : Env Re) (fuel : Nat) (r : Ref) (re : Re) (m : Match) :
    ∀ caps : List Capture, Emits (lang conf d) M (Steady nested d') (captures env fuel r re m caps)
      fun texts => texts = [] ↔ ∀ cap ∈ caps, cap.outPattern = none
  | [] => .pure (by simp)
  | cap :: caps => .bind (emits_capture env fuel r re m cap) fun texts first =>
      .bind (emits_captures env fuel r re m caps) fun more rest =>
        .pure (by simp [first, rest])

/-! ## New spiders -/

theorem emits_spiderInit (env : Env Re) (confFn : CString) :
    Emits L M (Steady nested d) (spiderInit env confFn) fun _ => True := by
  refine .bind (emits_outside _) fun file _ => ?_
  split
  · refine .bind .get fun w _ => ?_
    exact .seq (emits_change fun _ => ⟨rfl, rfl, rfl, le_refl _, rfl⟩) (.pure trivial)
  · exact .pure trivial

theorem emits_orInit {α : Type} (env : Env Re) (confFn : CString) (h : Option α)
    (f : α → Option Nat) :
    Emits L M (Steady nested d) (h.elim (spiderInit env confFn) fun a => pure (f a))
      fun _ => True := by
  cases h with
  | none => exact emits_spiderInit env confFn
  | some a => exact .pure trivial

theorem emits_findSpider (env : Env Re) (confFn : CString) :
    Emits L M (Steady nested d) (findSpider env confFn) fun _ => True := by
  refine .bind .get fun w _ => .bind (emits_orInit env confFn _ _) fun first _ =>
    .bind (emits_orInit env confFn _ _) fun s _ => ?_
  exact .bind (.ofOption fun _ _ => trivial) fun o _ => .pure trivial

theorem emits_assignStarturl (fuel : Nat) (r : Ref) (o : Nat) (urlExp : CString) :
    Emits L M (Steady nested d) (assignStarturl fuel r o urlExp) fun _ => True := by
  refine .bind (emits_poolOf r) fun pool _ => .bind (emits_expand fuel r _) fun url _ =>
    .bind .get fun w _ => ?_
  refine .seq (emits_change fun _ => ⟨rfl, rfl, rfl, le_refl _, rfl⟩) ?_
  exact .seq (emits_update _ fun _ => rfl) (.pure trivial)

theorem emits_freeStarturl (r : Ref) (o : Nat) :
    Emits L M (Steady nested d) (freeStarturl r o) fun _ => True := by
  refine .bind (emits_poolOf r) fun pool _ => .bind (emits_spider _) fun s _ => ?_
  exact emits_change fun _ => ⟨rfl, rfl, rfl, le_refl _, rfl⟩

theorem emits_initUrlEntry (env : Env Re) (fuel : Nat) (hdl : Option Nat) (fn : CString) :
    Emits L M (Steady nested d) (initUrlEntry env fuel hdl fn) fun _ => True := by
  refine .bind .get fun w _ => .seq (emits_change fun _ => ⟨rfl, rfl, rfl, le_refl _, rfl⟩) ?_
  split
  · exact .pure trivial
  · exact .bind (.ofOption fun _ _ => trivial) fun table _ =>
      .seq (emits_change fun _ => ⟨rfl, rfl, rfl, le_refl _, rfl⟩) (.pure trivial)

theorem emits_assignInput (env : Env Re) (fuel : Nat) (r : Ref) (o : Nat)
    (finFn : Option CString) :
    Emits L M (Steady nested d) (assignInput env fuel r o finFn) fun _ => True := by
  refine .bind (emits_spider r) fun s _ => ?_
  cases finFn with
  | none => exact emits_update _ fun _ => rfl
  | some fn =>
    refine .bind (emits_poolOf r) fun _ _ => .seq (emits_update _ fun _ => rfl) ?_
    exact .bind (emits_initUrlEntry env fuel _ fn) fun _ _ => emits_update _ fun _ => rfl

/-- What is known of the nested runs that a page at the level `d` starts. -/
def NestedSound (M : Moves (World Re) (Event Re)) (conf : Conf Re) (d : Int)
    (start : Nat → Run Re Unit) : Prop :=
  ∀ (env : Env Re) (fuel o : Nat) (ns : NewSpider) (url : Option CString),
    Emits (lang conf (d + 1)) M (Steady true (d + 1)) (startNested env fuel start o ns url)
      fun _ => True

theorem emits_callSpider {start : Nat → Run Re Unit} (below : NestedSound M conf d start)
    (env : Env Re) (fuel o : Nat) (ns : NewSpider) (url : Option CString) :
    Emits (lang conf (d + 1)) M (Steady true d) (callSpider env fuel start o ns url)
      fun _ => True := by
  refine .between ?_ ?_ (below env fuel o ns url) ?_ ?_
  · exact fun w _ => silent_move rfl rfl
  · exact fun w h => ⟨by simp [h.level], h.2, h.3⟩
  · exact fun w _ => silent_move rfl rfl
  · exact fun w h => ⟨by simp [h.level], h.2, h.3⟩

theorem emits_enterConf (r : Ref) (confFn : CString) (o : Nat) :
    Emits L M (Steady nested d) (enterConf r confFn o) fun _ => True :=
  .bind (emits_poolOf r) fun _ _ => emits_change fun _ => ⟨rfl, rfl, rfl, le_refl _, rfl⟩

theorem emits_runEntry {start : Nat → Run Re Unit} (below : NestedSound M conf d start)
    (env : Env Re) (fuel : Nat) (r : Ref) (ns : NewSpider) (confFn : CString) (o : Nat)
    (known : Bool) (url : Option CString) :
    Emits (lang conf (d + 1)) M (Steady true d)
      (runEntry env fuel start r ns confFn o known url) fun _ => True := by
  have call := Emits.seq (emits_callSpider below env fuel o ns url) (emits_freeStarturl r o)
  refine .seq (emits_assignInput env fuel r o ns.finFn) (.bind (emits_spider r) fun s _ => ?_)
  refine .seq (emits_update _ fun _ => rfl) ?_
  cases known with
  | true => exact call
  | false => exact .seq (emits_enterConf r confFn o) call

theorem emits_newSpider {start : Nat → Run Re Unit} (below : NestedSound M conf d start)
    (env : Env Re) (fuel : Nat) (r : Ref) (ns : NewSpider) :
    Emits (lang conf (d + 1)) M (Steady true d) (newSpider env fuel start r ns)
      fun _ => True := by
  refine .bind (.ofOption fun _ _ => trivial) fun confFn _ =>
    .bind (emits_findSpider env confFn) fun ⟨o, known⟩ _ => ?_
  cases ns.urlExp with
  | none => exact emits_runEntry below env fuel r ns confFn o known none
  | some urlExp =>
    exact .bind (emits_assignStarturl fuel r o urlExp) fun url _ =>
      emits_runEntry below env fuel r ns confFn o known (some url)

/-! ## Matches -/

/-- The rule of a top-level spider is the one at its place. -/
def Placed (conf : Conf Re) (r : Ref) (id : RuleId) (rule : Rule Re) : Prop :=
  r = .top → conf.ruleAt id = some rule

theorem emits_uniqStep {fuel : Nat} {r : Ref} {id : RuleId} {rule : Rule Re} {uniq : CString}
    {texts : List CString} (placed : Placed conf r id rule)
    (written : texts = [] ↔ rule.noPattern) :
    Emits (lang conf (d + 1)) M (Steady true d) (uniqStep fuel r id texts uniq)
      fun _ => True := by
  have sound : ∀ key, Event.Sound conf (d + 1) (.uniq r id key texts) := by
    intro key
    cases r with
    | top => exact ⟨rule, placed rfl, written⟩
    | nested o => trivial
  refine .bind (emits_expand fuel r _) fun key _ => .seq (emits_quiet rfl rfl (sound key)) ?_
  refine .bind .get fun w _ => ?_
  split
  · exact .bind (emits_poolOf r) fun _ _ => .seq (emits_quiet rfl rfl trivial) (.pure trivial)
  · exact .seq (emits_change fun _ => ⟨rfl, rfl, rfl, le_refl _, rfl⟩) (.pure trivial)

theorem emits_runTrigger (env : Env Re) (fuel : Nat) (r : Ref) (trig : Trigger) :
    Emits L M (Steady nested d) (runTrigger env fuel r trig) fun _ => True := by
  refine .bind (emits_poolOf r) fun _ _ => .bind (emits_expand fuel r _) fun args _ =>
    .bind (.ofOption fun _ _ => trivial) fun program _ => .bind (emits_outside _) fun result _ => ?_
  split
  · exact emits_setVar fuel r _ _
  · exact .pure trivial

theorem emits_afterMatch {start : Nat → Run Re Unit} (below : NestedSound M conf d start)
    {env : Env Re} {fuel : Nat} {r : Ref} {id : RuleId} {rule : Rule Re} {texts : List CString}
    (placed : Placed conf r id rule) (written : texts = [] ↔ rule.noPattern) :
    Emits (lang conf (d + 1)) M (Steady true d) (afterMatch env fuel start r id rule texts)
      fun _ => True := by
  have onward : ∀ dup : Bool, Emits (lang conf (d + 1)) M (Steady true d)
      (if dup then pure () else do
        Prog.each (runTrigger env fuel r) rule.trigger
        Prog.each (newSpider env fuel start r) rule.ns) fun _ => True := by
    intro dup
    cases dup with
    | true => exact .pure trivial
    | false =>
      exact .seq (.each fun trig _ => emits_runTrigger env fuel r trig)
        (.each fun ns _ => emits_newSpider below env fuel r ns)
  unfold afterMatch
  cases rule.uniq with
  | none => exact onward false
  | some uniq => exact .bind (emits_uniqStep placed written) fun dup _ => onward dup

theorem emits_matchBody {start : Nat → Run Re Unit} (below : NestedSound M conf d start)
    {env : Env Re} {fuel : Nat} {r : Ref} {id : RuleId} {rule : Rule Re} {m : Match}
    (placed : Placed conf r id rule) :
    Emits (lang conf (d + 1)) M (Steady true d) (matchBody env fuel start r id rule m)
      fun _ => True :=
  .bind (emits_captures env fuel r rule.re m rule.sfcap) fun _ written =>
    emits_afterMatch below placed written

theorem emits_oneMatch {start : Nat → Run Re Unit} (below : NestedSound M conf d start)
    {env : Env Re} {fuel : Nat} {r : Ref} {id : RuleId} {rule : Rule Re} {m : Match}
    (placed : Placed conf r id rule) :
    Emits (lang conf (d + 1)) M (Steady true d) (oneMatch env fuel start r id rule m)
      fun _ => True := by
  unfold oneMatch
  cases rule.jsonNew with
  | none => exact emits_matchBody below placed
  | some name =>
    exact emits_around (emits_matchBody below placed) fun _ h => items_field name.bytes h

theorem emits_repeatLoop {start : Nat → Run Re Unit} (below : NestedSound M conf d start)
    {env : Env Re} {fuel : Nat} {r : Ref} {id : RuleId} {rule : Rule Re}
    (placed : Placed conf r id rule) (n : Nat) : ∀ b,
    Emits (lang conf (d + 1)) M (Steady true d) (repeatLoop env fuel start r id rule n b)
      fun _ => True := by
  induction n with
  | zero => exact fun _ => .pure trivial
  | succ n ih =>
    intro b
    refine .bind (emits_exec env _ _) fun found _ => ?_
    cases found with
    | none => exact .seq (.each fun cap _ => emits_forget fuel r cap) (.pure trivial)
    | some m => exact .seq (emits_oneMatch below placed) (ih _)

theorem emits_ruleLoop {start : Nat → Run Re Unit} (below : NestedSound M conf d start)
    {env : Env Re} {fuel : Nat} {r : Ref} {policy : Nat} (rules : List (Rule Re)) : ∀ i b,
    (∀ j rule, rules[j]? = some rule → Placed conf r (policy, i + j) rule) →
    Emits (lang conf (d + 1)) M (Steady true d) (ruleLoop env fuel start r policy i rules b)
      fun _ => True := by
  induction rules with
  | nil => exact fun _ _ _ => .pure trivial
  | cons rule rules ih =>
    intro i b placed
    refine .bind (emits_repeatLoop below (placed 0 rule rfl) _ b) fun b _ => ih (i + 1) b ?_
    intro j rule' at_
    have later := placed (j + 1) rule' at_
    rwa [show i + (j + 1) = i + 1 + j by omega] at later

end

end SpiderFrame.Page
