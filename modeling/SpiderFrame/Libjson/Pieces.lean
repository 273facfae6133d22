import SpiderFrame.Libjson.Parser

/-!
# A text in pieces (`libjson/jsonlint.c`)

The parser keeps all it knows between two calls, so a text may be cut anywhere. `jsonlint` reads a file
by `fread` and counts lines and columns over what each call has processed.
-/

namespace SpiderFrame.Libjson

section

variable {κ σ : Type} (cfg : Config) (g : Growth κ) (cb : σ → Event → Except JsonError σ)

/-- The parser after these bytes. -/
def readBytes (p : Parser κ σ) (s : List Byte) : Except JsonError (Parser κ σ) :=
  s.foldlM (putChar cfg g cb) p

/-- The `for` loop of `process_file` over the bytes that were processed: `lines` and `col`. -/
def count : Nat × Nat → List Byte → Nat × Nat
  | at_, [] => at_
  | (lines, col), b :: bs => count (if b = 10#8 then (lines + 1, 0) else (lines, col + 1)) bs

/-- The `while` loop of `process_file` over what `fread` returns: the result, and `lines` and `col`. -/
def processFrom (p : Parser κ σ) (at_ : Nat × Nat) :
    List (List Byte) → Except JsonError (Parser κ σ) × Nat × Nat
  | [] => (.ok p, at_)
  | buffer :: rest =>
    let (ret, processed) := jsonParserString cfg g cb p buffer
    let at_ := count at_ (buffer.take processed)
    match ret with
    | .ok p => processFrom p at_ rest
    | .error e => (.error e, at_)

/-- `process_file(parser, input, retlines, retcols)`. -/
def processFile (p : Parser κ σ) (pieces : List (List Byte)) :
    Except JsonError (Parser κ σ) × Nat × Nat :=
  processFrom cfg g cb p (1, 0) pieces

variable {cfg g cb} {p p' : Parser κ σ} {s s' : List Byte}

theorem readBytes_cons (b : Byte) :
    readBytes cfg g cb p (b :: s) = (putChar cfg g cb p b).bind fun p => readBytes cfg g cb p s :=
  rfl

theorem readBytes_append :
    readBytes cfg g cb p (s ++ s') =
      (readBytes cfg g cb p s).bind fun p => readBytes cfg g cb p s' := by
  unfold readBytes
  rw [List.foldlM_append]
  rfl

theorem readBytes_append_ok (first : readBytes cfg g cb p s = .ok p') :
    readBytes cfg g cb p (s ++ s') = readBytes cfg g cb p' s' := by
  rw [readBytes_append, first]
  rfl

/-- A text that is read was read byte by byte. -/
theorem readBytes_cons_ok {b : Byte} (read : readBytes cfg g cb p (b :: s) = .ok p') :
    ∃ m, putChar cfg g cb p b = .ok m ∧ readBytes cfg g cb m s = .ok p' := by
  rw [readBytes_cons] at read
  cases first : putChar cfg g cb p b with
  | error e =>
    rw [first] at read
    cases read
  | ok m =>
    rw [first] at read
    exact ⟨m, rfl, read⟩

theorem parseFrom_result (p : Parser κ σ) (i : Nat) (s : List Byte) :
    (parseFrom cfg g cb p i s).1 = readBytes cfg g cb p s := by
  induction s generalizing p i with
  | nil => rfl
  | cons b s ih =>
    rw [parseFrom, readBytes_cons]
    cases putChar cfg g cb p b with
    | ok m => exact ih m (i + 1)
    | error e => rfl

theorem parse_result (p : Parser κ σ) (s : List Byte) :
    (jsonParserString cfg g cb p s).1 = readBytes cfg g cb p s := parseFrom_result p 0 s

theorem parseFrom_eq (p : Parser κ σ) (i : Nat) (s : List Byte) :
    parseFrom cfg g cb p i s =
      ((jsonParserString cfg g cb p s).1, i + (jsonParserString cfg g cb p s).2) := by
  unfold jsonParserString
  induction s generalizing p i with
  | nil => rfl
  | cons b s ih =>
    rw [parseFrom, parseFrom]
    cases putChar cfg g cb p b with
    | ok m =>
      dsimp only
      rw [ih m (i + 1), ih m (0 + 1), Nat.zero_add, Nat.add_assoc]
    | error e => rfl

/-- The first byte, and the rest. -/
theorem parse_cons (p : Parser κ σ) (b : Byte) (s : List Byte) :
    jsonParserString cfg g cb p (b :: s) =
      match putChar cfg g cb p b with
      | .ok m => ((jsonParserString cfg g cb m s).1, 1 + (jsonParserString cfg g cb m s).2)
      | .error e => (.error e, 0) := by
  rw [jsonParserString, parseFrom]
  cases putChar cfg g cb p b with
  | ok m => exact parseFrom_eq m 1 s
  | error e => rfl

/-- **What is processed is what can be read**: up to there the text is read, and one byte more is not. -/
theorem parse_processed (p : Parser κ σ) (s : List Byte) :
    match jsonParserString cfg g cb p s with
    | (.ok _, n) => n = s.length
    | (.error e, n) => ∃ m b rest, s.drop n = b :: rest ∧
        readBytes cfg g cb p (s.take n) = .ok m ∧ putChar cfg g cb m b = .error e := by
  induction s generalizing p with
  | nil => rfl
  | cons b s ih =>
    rw [parse_cons]
    cases step : putChar cfg g cb p b with
    | error e => exact ⟨p, b, s, rfl, rfl, step⟩
    | ok m =>
      have rest := ih m
      dsimp only
      cases later : jsonParserString cfg g cb m s with
      | mk ret n =>
        rw [later] at rest
        cases ret with
        | ok p' =>
          dsimp only at rest ⊢
          rw [List.length_cons, rest, Nat.add_comm]
        | error e =>
          obtain ⟨m', b', tail, dropped, read, bad⟩ := rest
          dsimp only
          rw [Nat.add_comm 1 n]
          refine ⟨m', b', tail, dropped, ?_, bad⟩
          rw [List.take_succ_cons, readBytes_cons, step]
          exact read

/-- A text and what follows it. -/
theorem parse_append (p : Parser κ σ) (a b : List Byte) :
    jsonParserString cfg g cb p (a ++ b) =
      match jsonParserString cfg g cb p a with
      | (.ok m, _) =>
        ((jsonParserString cfg g cb m b).1, a.length + (jsonParserString cfg g cb m b).2)
      | (.error e, n) => (.error e, n) := by
  induction a generalizing p with
  | nil =>
    rw [List.nil_append, List.length_nil]
    change _ = ((jsonParserString cfg g cb p b).1, 0 + (jsonParserString cfg g cb p b).2)
    rw [Nat.zero_add]
  | cons c a ih =>
    rw [List.cons_append, parse_cons, parse_cons]
    cases putChar cfg g cb p c with
    | error e => rfl
    | ok m =>
      dsimp only
      rw [ih m, List.length_cons]
      cases jsonParserString cfg g cb m a with
      | mk ret n =>
        cases ret with
        | error e => rfl
        | ok m' =>
          dsimp only
          rw [Nat.add_comm a.length 1, Nat.add_assoc]

theorem count_append (at_ : Nat × Nat) (a b : List Byte) :
    count at_ (a ++ b) = count (count at_ a) b := by
  induction a generalizing at_ with
  | nil => rfl
  | cons c a ih => exact ih _

theorem processFrom_flatten (p : Parser κ σ) (at_ : Nat × Nat) (pieces : List (List Byte)) :
    processFrom cfg g cb p at_ pieces = processFrom cfg g cb p at_ [pieces.flatten] := by
  induction pieces generalizing p at_ with
  | nil => rfl
  | cons a pieces ih =>
    rw [processFrom, processFrom, List.flatten_cons, parse_append]
    have processed := @parse_processed κ σ cfg g cb p a
    cases first : jsonParserString cfg g cb p a with
    | mk ret n =>
      rw [first] at processed
      cases ret with
      | error e =>
        obtain ⟨m, b, rest, dropped, -, -⟩ := processed
        have le : n ≤ a.length := by
          by_contra gt
          rw [List.drop_eq_nil_of_le (by omega)] at dropped
          cases dropped
        dsimp only
        rw [List.take_append_of_le_length le]
      | ok m =>
        obtain rfl : n = a.length := processed
        dsimp only
        rw [ih, processFrom, List.take_length, List.take_length_add_append, count_append]

/-- The result for a file is that for its whole text. -/
theorem processFile_result (p : Parser κ σ) (pieces : List (List Byte)) :
    (processFile cfg g cb p pieces).1 = readBytes cfg g cb p pieces.flatten := by
  rw [processFile, processFrom_flatten, processFrom, ← parse_result p pieces.flatten]
  cases jsonParserString cfg g cb p pieces.flatten with
  | mk ret n =>
    cases ret with
    | ok m => rfl
    | error e => rfl

/-- The line, and the column behind the last end of a line. -/
theorem count_concat (lines col : Nat) (s : List Byte) (b : Byte) :
    count (lines, col) (s ++ [b]) =
      if b = 10#8 then ((count (lines, col) s).1 + 1, 0)
      else ((count (lines, col) s).1, (count (lines, col) s).2 + 1) := count_append _ s [b]

theorem count_eq (s : List Byte) :
    count (1, 0) s = (1 + s.count 10#8, (s.reverse.takeWhile (· != 10#8)).length) := by
  induction s using List.reverseRecOn with
  | nil => rfl
  | append_singleton s b ih =>
    rw [count_concat, ih, List.count_append, List.reverse_append, List.reverse_singleton,
      List.singleton_append, List.takeWhile_cons]
    by_cases newline : b = 10#8
    · subst newline
      rfl
    · rw [if_neg newline, if_pos (bne_iff_ne.2 newline), List.count_singleton,
        if_neg (fun same => newline (eq_of_beq same))]
      rfl

/-- **However `fread` cuts the text, the result is that of the whole text**, and the line and the column
are those of the first byte that cannot be read. -/
theorem processFile_pieces (p : Parser κ σ) (pieces : List (List Byte)) :
    let text := pieces.flatten
    let (ret, processed) := jsonParserString cfg g cb p text
    processFile cfg g cb p pieces =
      (ret, 1 + (text.take processed).count 10#8,
        ((text.take processed).reverse.takeWhile (· != 10#8)).length) := by
  dsimp only
  rw [processFile, processFrom_flatten, processFrom, ← count_eq]
  cases jsonParserString cfg g cb p pieces.flatten with
  | mk ret n =>
    cases ret with
    | ok m => rfl
    | error e => rfl

end

end SpiderFrame.Libjson
