import SpiderFrame.Libjson.Accepted

/-!
# What the parser takes

The texts of the dialect, and no others, as long as comments are not allowed; and for each of them the
events of its tree. Limits, the memory and the callback can stop the parser with errors of their own only.
-/

namespace SpiderFrame.Libjson
open SpiderFrame.Base
open SpiderFrame.Base.Json (Space)

section

variable {κ σ : Type} {cfg : Config} {g : Growth κ} {cb : σ → Event → Except JsonError σ} {u : σ}
  {memory : κ} {s : Bytes} {t : Tree} {p : Parser κ σ}

/-- Behind an array or an object no value is pending. -/
theorem structure_pending (structure_ : t.IsStructure) {es : List Event} {type : JsonType} {buf : Bytes}
    (same : t.events = es ++ pending type buf) : es = t.events := by
  unfold pending at same
  split at same
  · rename_i data
    exfalso
    cases t with
    | arr ts =>
      rw [Tree.events, ← List.cons_append] at same
      have last := (List.append_inj_right' same rfl)
      cases last
      cases data
    | obj ms =>
      rw [Tree.events, ← List.cons_append] at same
      have last := (List.append_inj_right' same rfl)
      cases last
      cases data
    | _ => cases structure_
  · rw [same, List.append_nil]

/-- A text of the dialect is read up to its end, with the events of its tree. -/
theorem document_read (cfg : Config) (h : Document s t) :
    ∃ q, reads cfg reader s = .ok q ∧ jsonParserIsDone q = true ∧ q.userdata = t.events := by
  obtain ⟨q, read, st, type, buf, es, ended, rfl, same⟩ := takes_document cfg h
  refine ⟨_, read, ?_, structure_pending h.1 same⟩
  cases st with
  | ok | z0 | i0 | r2 | x3 => rfl
  | _ => cases ended

theorem isDone_view (es : List Event) : jsonParserIsDone (p.view es ()) = jsonParserIsDone p := rfl

/-- What the parser takes up to its end is a text of the dialect, and its callback has got the events. -/
theorem accepted_document (plain : cfg.Plain)
    (read : readBytes cfg g cb (initial u memory) s = .ok p) (done : jsonParserIsDone p = true) :
    ∃ t, Document s t ∧ t.events.foldlM cb u = .ok p.userdata := by
  have follows := reads_as_unbounded cfg g cb u memory s
  rw [read] at follows
  obtain ⟨q, readQ, es, rfl, seen⟩ := follows
  obtain ⟨t, document⟩ := document_of_accepted plain readQ (isDone_view es ▸ done)
  obtain ⟨q', readQ', -, events⟩ := document_read cfg document
  obtain rfl : p.view es () = q' := Except.ok.inj (readQ.symm.trans readQ')
  exact ⟨t, document, events ▸ seen⟩

/-- A text of the dialect is taken up to its end, unless the memory, a limit or the callback stops the
parser. -/
theorem document_accepted (h : Document s t) :
    (∃ p, readBytes cfg g cb (initial u memory) s = .ok p ∧ jsonParserIsDone p = true ∧
        t.events.foldlM cb u = .ok p.userdata) ∨
      ∃ e, readBytes cfg g cb (initial u memory) s = .error e ∧
        (Refused g memory e ∨ t.events.foldlM cb u = .error e) := by
  have follows := reads_as_unbounded cfg g cb u memory s
  obtain ⟨q, read, done, events⟩ := document_read cfg h
  rw [show readBytes cfg unbounded collect reader s = .ok q from read] at follows
  cases result : readBytes cfg g cb (initial u memory) s with
  | error e => exact .inr ⟨e, rfl, events ▸ error_of_events read result⟩
  | ok p =>
    rw [result] at follows
    obtain ⟨q', same, es, rfl, seen⟩ := follows
    obtain rfl := Except.ok.inj same
    exact .inl ⟨p, rfl, done, events ▸ seen⟩

variable {pieces : List Bytes}

/-- **A file that is taken up to its end is a text of the dialect, and the callback has got the events of a
tree of this text, in this order.** -/
theorem file_is_document (plain : cfg.Plain)
    (read : (processFile cfg g cb (initial u memory) pieces).1 = .ok p)
    (done : jsonParserIsDone p = true) :
    ∃ t, Document pieces.flatten t ∧ t.events.foldlM cb u = .ok p.userdata := by
  rw [processFile_result] at read
  exact accepted_document plain read done

/-- `{"a\n": {"b":-15}}`. -/
def nestedText : Bytes :=
  [123#8, 34#8, 97#8, 92#8, 110#8, 34#8, 58#8, 32#8, 123#8, 34#8, 98#8, 34#8, 58#8, 45#8, 49#8, 53#8,
    125#8, 125#8]

def nestedTree : Tree := .obj [([97#8, 10#8], .obj [([98#8], .int [45#8, 49#8, 53#8])])]

theorem nested_document : Document nestedText nestedTree := by
  have number : Value [45#8, 49#8, 53#8] (.int [45#8, 49#8, 53#8]) :=
    .int ⟨[45#8], [49#8, 53#8], .inr rfl, .more (by decide) (List.forall_mem_singleton.2 (by decide)), rfl⟩
  have inner : Value (123#8 :: 34#8 :: 98#8 :: 34#8 :: 58#8 :: 45#8 :: 49#8 :: 53#8 :: [125#8])
      (.obj [([98#8], .int [45#8, 49#8, 53#8])]) :=
    .object (.one space_nil (.plain (by decide) .nil) space_nil space_nil number space_nil)
  have blank : Space [32#8] := List.forall_mem_singleton.2 (.inl rfl)
  have name : Str [97#8, 92#8, 110#8] [97#8, 10#8] :=
    .plain (by decide) (.escape (e := 110#8) (by decide) .nil)
  have outer : Value nestedText nestedTree :=
    .object (.one space_nil name space_nil blank inner space_nil)
  exact ⟨trivial, [], _, [], space_nil, outer, space_nil, rfl⟩

theorem file_is_document_nested :
    ∃ t, Document nestedText t ∧ t.events.foldlM collect [] = .ok [⟨.objectBegin, []⟩, ⟨.key, [97#8, 10#8]⟩,
      ⟨.objectBegin, []⟩, ⟨.key, [98#8]⟩, ⟨.int, [45#8, 49#8, 53#8]⟩, ⟨.objectEnd, []⟩, ⟨.objectEnd, []⟩] := by
  have plain : Config.Plain ⟨0, 2, 4, false, false⟩ := ⟨rfl, rfl⟩
  have read : (processFile ⟨0, 2, 4, false, false⟩ (growth ⟨0, 2, 4, false, false⟩) collect
    (initial [] ⟨2, 4, []⟩) [nestedText.take 4, [], nestedText.drop 4]).1 =
    .ok ⟨[⟨.objectBegin, []⟩, ⟨.key, [97#8, 10#8]⟩, ⟨.objectBegin, []⟩, ⟨.key, [98#8]⟩,
      ⟨.int, [45#8, 49#8, 53#8]⟩, ⟨.objectEnd, []⟩, ⟨.objectEnd, []⟩], .ok, .go, false, 0, 0, .none, [], [],
      ⟨2, 4, []⟩⟩ := rfl
  exact file_is_document plain read rfl

/-- **Every text of the dialect is read up to its end, whatever the configuration and the pieces**, and the
callback gets the events of its tree, unless the parser stops with an error of its memory or of a limit, or
with the one that the callback gives along these events. -/
theorem document_file_read (h : Document pieces.flatten t) :
    (∃ p, (processFile cfg g cb (initial u memory) pieces).1 = .ok p ∧ jsonParserIsDone p = true ∧
        t.events.foldlM cb u = .ok p.userdata) ∨
      ∃ e, (processFile cfg g cb (initial u memory) pieces).1 = .error e ∧
        (Refused g memory e ∨ t.events.foldlM cb u = .error e) := by
  rw [processFile_result]
  exact document_accepted h

theorem document_file_read_nested :
    ∃ p, (processFile ⟨0, 2, 4, true, true⟩ (growth ⟨0, 2, 4, true, true⟩) collect (initial [] ⟨2, 4, []⟩)
        [nestedText.take 4, [], nestedText.drop 4]).1 = .ok p ∧ jsonParserIsDone p = true ∧
      nestedTree.events.foldlM collect [] = .ok p.userdata := by
  have runs : (processFile ⟨0, 2, 4, true, true⟩ (growth ⟨0, 2, 4, true, true⟩) collect
      (initial [] ⟨2, 4, []⟩) [nestedText.take 4, [], nestedText.drop 4]).1.isOk = true := rfl
  have document : Document [nestedText.take 4, [], nestedText.drop 4].flatten nestedTree := nested_document
  refine (document_file_read document).resolve_right ?_
  rintro ⟨e, stopped, -⟩
  rw [stopped] at runs
  cases runs

end

end SpiderFrame.Libjson
