import SpiderFrame.Libjson.Limits
import SpiderFrame.Libjson.Printing

/-!
# Checking and formatting a file (`libjson/jsonlint.c`)

For a text of the dialect the parser's result is that of its callback on the events of the tree, one after the
other. `jsonlint --verify` reads a file without a callback: it takes the texts of the dialect. `jsonlint --format`
hands the events of the parser to `json_print_pretty`. What it prints for a text is a text for the same tree,
and formatting this text gives the same bytes again. Comments are not allowed here (`--no-comments`).
-/

namespace SpiderFrame.Libjson
open SpiderFrame.Base
open SpiderFrame.Base.Json (Space)

/-! ## Verifying -/

/-- What `do_callback` does when there is no callback. -/
def noCallback (_ : Unit) (_ : Event) : Except JsonError Unit := .ok ()

/-- `do_verify(config, filename)` for a file that `fread` cuts into these pieces: the status. -/
def doVerify (cfg : Config) (answers : List Bool) (pieces : List Bytes) : Nat :=
  match jsonParserInit cfg () answers with
  | .error _ => 1
  | .ok p =>
    match (processFile cfg (growth cfg) noCallback p pieces).1 with
    | .error _ => 1
    | .ok p => if jsonParserIsDone p then 0 else 1

section

variable {σ : Type} {cfg : Config} {cb : σ → Event → Except JsonError σ} {u : σ} {answers : List Bool}
  {pieces : List Bytes} {s : Bytes} {t : Tree}

/-- The errors of the memory. -/
theorem Refused.ofMemory {memory : Sizes} {e : JsonError} (refused : Refused (growth cfg) memory e) :
    e.ofMemory = true := by
  obtain ⟨m, n, -, stack | buffer⟩ := refused
  · exact (growth_stack cfg m n).failure stack
  · exact (growth_buffer cfg m n).failure buffer

theorem not_both {e : JsonError} (text : e.ofText = true) (memory : e.ofMemory = true) : False := by
  cases e <;> first | exact Bool.noConfusion text | exact Bool.noConfusion memory

theorem foldlM_never (never : ∀ u ev e, cb u ev ≠ .error e) (es : List Event) (e : JsonError) :
    es.foldlM cb u ≠ .error e := by
  have stops : Meets (fun _ => True) (fun _ => False) (es.foldlM cb u) := by
    refine Meets.foldlM trivial (fun u ev _ => ?_) es
    cases told : cb u ev with
    | error e => exact never u ev e told
    | ok u => exact trivial
  exact stops.failure

/-- Without limits and with enough memory a text of the dialect is read up to its end. -/
theorem Unlimited.read (unlimited : Unlimited cfg answers) (short : s.length < 2 ^ 31)
    (never : ∀ u ev e, cb u ev ≠ .error e) (h : Document s t) :
    ∃ p, readBytes cfg (growth cfg) cb (initial u (initSizes cfg answers.tail.tail)) s = .ok p ∧
      jsonParserIsDone p = true ∧ t.events.foldlM cb u = .ok p.userdata := by
  refine (document_accepted h).resolve_right ?_
  rintro ⟨e, stopped, own⟩
  rcases unlimited.errors short stopped with text | ⟨u, ev, told⟩
  · rcases own with refused | told
    · exact not_both text refused.ofMemory
    · exact foldlM_never never _ e told
  · exact never u ev e told

theorem Unlimited.told (unlimited : Unlimited cfg answers) (short : s.length < 2 ^ 31) (h : Document s t) :
    (readBytes cfg (growth cfg) cb (initial u (initSizes cfg answers.tail.tail)) s).map
        (fun p => (jsonParserIsDone p, p.userdata)) =
      (t.events.foldlM cb u).map fun v => (true, v) := by
  have never : ∀ (x : Except JsonError σ) ev e, lifted cb x ev ≠ .error e := fun x ev e same => nomatch same
  obtain ⟨p, read, done, told⟩ := unlimited.read (u := .ok u) short never h
  rw [foldlM_lifted] at told
  have all : t.events.foldlM cb u = p.userdata := Except.ok.inj told
  have run := lifts_readBytes s _ p read
  change readBytes cfg (growth cfg) cb (initial u (initSizes cfg answers.tail.tail)) s = p.dropped at run
  rw [run, all]
  unfold Parser.dropped
  cases p.userdata with
  | error e => rfl
  | ok v => exact congrArg (fun d => Except.ok (d, v)) done

/-- **The parser's result for a text of the dialect is that of its callback on the events of the tree**,
whatever the callback does, when no limit is set and there is enough memory: with its last state the text is
done, and its first error is the parser's. -/
theorem callback_result {pieces : List Bytes} (unlimited : Unlimited cfg answers)
    (short : pieces.flatten.length < 2 ^ 31) (h : Document pieces.flatten t) :
    ((jsonParserInit cfg u answers).bind fun p => (processFile cfg (growth cfg) cb p pieces).1).map
        (fun p => (jsonParserIsDone p, p.userdata)) =
      (t.events.foldlM cb u).map fun v => (true, v) := by
  rw [unlimited.init]
  change (processFile cfg (growth cfg) cb _ pieces).1.map _ = _
  rw [processFile_result]
  exact unlimited.told short h

theorem callback_result_nested :
    ((jsonParserInit ⟨0, 0, 0, true, true⟩ 3 []).bind fun p =>
        (processFile ⟨0, 0, 0, true, true⟩ (growth ⟨0, 0, 0, true, true⟩)
          (fun n _ => if n = 0 then .error (.user 7) else .ok (n - 1)) p
          [nestedText.take 4, nestedText.drop 4]).1).map
        (fun p => (jsonParserIsDone p, p.userdata)) = .error (.user 7) := by
  have document : Document [nestedText.take 4, nestedText.drop 4].flatten nestedTree := nested_document
  exact callback_result ⟨rfl, rfl, List.forall_mem_nil _⟩ (by decide) document

theorem noCallback_never (u : Unit) (ev : Event) (e : JsonError) : noCallback u ev ≠ .error e := by
  rintro ⟨⟩

/-- **`jsonlint --verify` takes the texts of the dialect and no others**, when comments are not allowed, no
limit is set and there is enough memory, up to 2 GiB. -/
theorem verify_iff (plain : cfg.Plain) (unlimited : Unlimited cfg answers)
    (short : pieces.flatten.length < 2 ^ 31) :
    doVerify cfg answers pieces = 0 ↔ ∃ t, Document pieces.flatten t := by
  unfold doVerify
  rw [unlimited.init]
  dsimp only
  rw [processFile_result]
  constructor
  · intro zero
    split at zero
    · cases zero
    · rename_i p read
      split at zero
      · rename_i done
        obtain ⟨t, document, -⟩ := accepted_document plain read done
        exact ⟨t, document⟩
      · cases zero
  · rintro ⟨t, document⟩
    obtain ⟨p, read, done, -⟩ := unlimited.read (u := ()) short noCallback_never document
    rw [read]
    exact if_pos done

theorem verify_iff_nested :
    doVerify ⟨0, 0, 0, false, false⟩ [] [nestedText.take 4, nestedText.drop 4] = 0 :=
  (verify_iff ⟨rfl, rfl⟩ ⟨rfl, rfl, List.forall_mem_nil _⟩ (by decide)).2 ⟨nestedTree, nested_document⟩

end

/-! ## Formatting -/

/-- `prettyprint(userdata, type, data, length)`; `printchannel` puts the chunks into the output. -/
def prettyprint (out : Printer × Bytes) (e : Event) : Except JsonError (Printer × Bytes) :=
  let (chunks, p) := jsonPrintMode true out.1 e
  .ok (p, out.2 ++ chunks.flatten)

/-- The printer of `do_format`, with `indent_string` if there is one. -/
def formatter (indentString : Option Bytes) : Printer :=
  match indentString with
  | some s => { jsonPrintInit with indentstr := s }
  | none => jsonPrintInit

/-- Nothing is printed yet. -/
def unprinted (indentString : Option Bytes) : Printer × Bytes := (formatter indentString, [])

/-- `do_format(config, filename, outputfile)`: an error of the parser, `none` for a syntax error, or what was
printed. -/
def doFormat (cfg : Config) (indentString : Option Bytes) (answers : List Bool) (pieces : List Bytes) :
    Except JsonError (Option Bytes) := do
  let p ← jsonParserInit cfg (unprinted indentString) answers
  let p ← (processFile cfg (growth cfg) prettyprint p pieces).1
  .ok (if jsonParserIsDone p then some (p.userdata.2 ++ [10#8]) else none)

section

variable {cfg cfg' : Config} {indentString : Option Bytes} {answers answers' : List Bool}
  {pieces pieces' : List Bytes} {out : Bytes} {t : Tree}

/-- The callback prints the events, behind what was printed before. -/
theorem prettyprint_events (es : List Event) (p : Printer) (before : Bytes) :
    es.foldlM prettyprint (p, before) =
      .ok ((printEvents true p es).2, before ++ (printEvents true p es).1.flatten) := by
  induction es generalizing p before with
  | nil => exact congrArg (fun b => Except.ok (p, b)) (List.append_nil before).symm
  | cons e es ih =>
    rw [List.foldlM_cons]
    change List.foldlM prettyprint
      ((jsonPrintMode true p e).2, before ++ (jsonPrintMode true p e).1.flatten) es = _
    rw [ih, printEvents_cons, List.flatten_append, List.append_assoc]

theorem prettyprint_never (out : Printer × Bytes) (ev : Event) (e : JsonError) :
    prettyprint out ev ≠ .error e := by
  rintro ⟨⟩

/-- What is printed for a tree. -/
def formatted (indentString : Option Bytes) (t : Tree) : Bytes :=
  (printEvents true (formatter indentString) t.events).1.flatten ++ [10#8]

/-- `do_format` reads the whole text, from the parser of `json_parser_init` on. -/
theorem doFormat_of_init {memory : Sizes}
    (init : jsonParserInit cfg (unprinted indentString) answers =
      .ok (initial (unprinted indentString) memory)) :
    doFormat cfg indentString answers pieces =
      (readBytes cfg (growth cfg) prettyprint (initial (unprinted indentString) memory)
        pieces.flatten).map
        fun p => if jsonParserIsDone p then some (p.userdata.2 ++ [10#8]) else none := by
  unfold doFormat
  rw [init, ← processFile_result]
  rfl

theorem doFormat_document (unlimited : Unlimited cfg answers) (short : pieces.flatten.length < 2 ^ 31)
    (h : Document pieces.flatten t) :
    doFormat cfg indentString answers pieces = .ok (some (formatted indentString t)) := by
  obtain ⟨p, read, done, seen⟩ :=
    unlimited.read (u := unprinted indentString) short prettyprint_never h
  rw [doFormat_of_init unlimited.init, read]
  change Except.ok (if jsonParserIsDone p = true then _ else _) = _
  rw [if_pos done]
  rw [unprinted, prettyprint_events] at seen
  rw [← Except.ok.inj seen, List.nil_append, formatted]

/-- What is printed is what the events of a tree of the text give. -/
theorem doFormat_printed (plain : cfg.Plain)
    (result : doFormat cfg indentString answers pieces = .ok (some out)) :
    ∃ t, Document pieces.flatten t ∧ out = formatted indentString t := by
  cases init : jsonParserInit cfg (unprinted indentString) answers with
  | error e =>
    unfold doFormat at result
    rw [init] at result
    cases result
  | ok p₀ =>
    obtain rfl := jsonParserInit_eq init
    rw [doFormat_of_init init] at result
    cases read : readBytes cfg (growth cfg) prettyprint
      (initial (unprinted indentString) (initSizes cfg answers.tail.tail)) pieces.flatten with
    | error e =>
      rw [read] at result
      cases result
    | ok p =>
      rw [read] at result
      have printed : (if jsonParserIsDone p = true then some (p.userdata.2 ++ [10#8]) else none) =
        some out := Except.ok.inj result
      split at printed
      · rename_i done
        obtain ⟨t, document, seen⟩ := accepted_document plain read done
        rw [unprinted, prettyprint_events] at seen
        refine ⟨t, document, ?_⟩
        rw [← Option.some.inj printed, ← Except.ok.inj seen, List.nil_append, formatted]
      · cases printed

/-- White space may stand behind a text. -/
theorem Document.followed {s w : Bytes} (h : Document s t) (space : Space w) : Document (s ++ w) t := by
  obtain ⟨structure_, w₁, v, w₂, before, value, after, rfl⟩ := h
  refine ⟨structure_, w₁, v, w₂ ++ w, before, value, space_append after space, ?_⟩
  rw [List.append_assoc, List.append_assoc]

theorem formatted_document {s : Bytes} (h : Document s t)
    (blank : ∀ s, indentString = some s → Space s) : Document (formatted indentString t) t := by
  have newline : Space [10#8] := List.forall_mem_singleton.2 (.inr (.inr (.inl rfl)))
  have indent : Space (formatter indentString).indentstr := by
    unfold formatter
    split
    · rename_i s
      exact blank s rfl
    · exact List.forall_mem_singleton.2 (.inr (.inl rfl))
  have start : formatter indentString =
      { jsonPrintInit with indentstr := (formatter indentString).indentstr } := by
    cases indentString <;> rfl
  have text : Document (printed true (formatter indentString).indentstr t) t :=
    printed_document h fun _ => indent
  unfold printed at text
  rw [← start] at text
  exact text.followed newline

/-- **What `jsonlint --format` prints for a text is a text of the same tree, and formatting this text prints
it again**, when no limit is set and there is enough memory, up to 2 GiB. -/
theorem format_again (plain : cfg.Plain) (blank : ∀ s, indentString = some s → Space s)
    (result : doFormat cfg indentString answers pieces = .ok (some out)) :
    (∃ t, Document pieces.flatten t ∧ Document out t) ∧
      ∀ cfg' answers' pieces', Unlimited cfg' answers' → pieces'.flatten = out → out.length < 2 ^ 31 →
        doFormat cfg' indentString answers' pieces' = .ok (some out) := by
  obtain ⟨t, document, rfl⟩ := doFormat_printed plain result
  have again : Document (formatted indentString t) t := formatted_document document blank
  refine ⟨⟨t, document, again⟩, fun cfg' answers' pieces' unlimited whole short => ?_⟩
  exact doFormat_document unlimited (whole ▸ short) (whole ▸ again)

theorem format_again_nested :
    doFormat ⟨0, 0, 0, true, true⟩ none []
        [[123#8, 10#8, 9#8, 34#8, 97#8, 92#8], [110#8, 34#8, 58#8, 32#8, 123#8, 10#8, 9#8, 9#8, 34#8, 98#8, 34#8,
          58#8, 32#8, 45#8, 49#8, 53#8, 10#8, 9#8, 125#8, 10#8, 125#8, 10#8]] =
      .ok (some [123#8, 10#8, 9#8, 34#8, 97#8, 92#8, 110#8, 34#8, 58#8, 32#8, 123#8, 10#8, 9#8, 9#8, 34#8, 98#8,
        34#8, 58#8, 32#8, 45#8, 49#8, 53#8, 10#8, 9#8, 125#8, 10#8, 125#8, 10#8]) := by
  have blank : ∀ s, (none : Option Bytes) = some s → Space s := fun s some_ => nomatch some_
  have result : doFormat ⟨0, 0, 0, false, false⟩ none [] [nestedText.take 4, nestedText.drop 4] =
    .ok (some [123#8, 10#8, 9#8, 34#8, 97#8, 92#8, 110#8, 34#8, 58#8, 32#8, 123#8, 10#8, 9#8, 9#8, 34#8, 98#8,
      34#8, 58#8, 32#8, 45#8, 49#8, 53#8, 10#8, 9#8, 125#8, 10#8, 125#8, 10#8]) := rfl
  exact (format_again ⟨rfl, rfl⟩ blank result).2 _ _ _ ⟨rfl, rfl, List.forall_mem_nil _⟩ rfl (by decide)

end

end SpiderFrame.Libjson
