import SpiderFrame.Libjson.Documents
import SpiderFrame.Libjson.Printer

/-!
# Printed texts

The events of a tree are printed as a text of the dialect for this tree, in the raw and in the pretty form,
if the tree has a text at all. A value is printed behind `lead`, the comma if there is one, and white space.
-/

namespace SpiderFrame.Libjson
open SpiderFrame.Json (printByte printString)
open SpiderFrame.Base.Json (Space hexDigit utf8)

/-! ## Strings -/

/-- Whether this stands for the character of this number in a string. -/
def writes (c : Byte) (t : Bytes) : Bool :=
  match t with
  | [b] => plain b && b = c
  | [92#8, e] => escapes e && escapeChar e = c
  | [92#8, 117#8, a, b, d, e] =>
    hexDigit a && hexDigit b && hexDigit d && hexDigit e && decide (unit a b d e = c.toNat)
  | _ => false

/-- What the printers write for a byte, and which bytes are ASCII. -/
theorem byte_facts : ∀ c : Byte,
    ((plain c = true → c < 128#8) ∧ escapeChar c < 128#8 ∧ (utf8Header c ≠ some 0 → ¬ c < 128#8) ∧
      (utf8Continuation c = true → ¬ c < 128#8)) ∧
    (c < 128#8 → writes c (printByte c) = true) ∧ (¬ c < 128#8 → printByte c = [c]) ∧
      writes c (characterEscape c) = true := by decide +kernel

theorem plain_ascii (c : Byte) : plain c = true → c < 128#8 := (byte_facts c).1.1

theorem escapeChar_ascii (c : Byte) : escapeChar c < 128#8 := (byte_facts c).1.2.1

theorem utf8_ascii {c : Byte} (ascii : c < 128#8) : utf8 c.toNat = [c] := by
  have small : c.toNat < 128 := BitVec.lt_def.1 ascii
  rw [utf8, if_pos small, BitVec.ofNat_toNat, BitVec.setWidth_eq]

/-- A character in front of a string. -/
theorem Str.written {c : Byte} {w t s : Bytes} (h : writes c w = true) (rest : Str t s) :
    Str (w ++ t) (utf8 c.toNat ++ s) := by
  unfold writes at h
  split at h
  · rename_i b
    rw [Bool.and_eq_true, decide_eq_true_eq] at h
    obtain ⟨plain_, rfl⟩ := h
    rw [utf8_ascii (plain_ascii b plain_)]
    exact .plain plain_ rest
  · rename_i e
    rw [Bool.and_eq_true, decide_eq_true_eq] at h
    obtain ⟨letter, rfl⟩ := h
    rw [utf8_ascii (escapeChar_ascii e)]
    exact .escape letter rest
  · rename_i a b d e
    simp only [Bool.and_eq_true, decide_eq_true_eq] at h
    obtain ⟨⟨⟨⟨ha, hb⟩, hd⟩, he⟩, number⟩ := h
    have small : c.toNat < 256 := c.isLt
    have notHigh : ¬ HighSurrogate (unit a b d e) := by
      rw [number]
      rintro ⟨least, -⟩
      omega
    have notLow : ¬ LowSurrogate (unit a b d e) := by
      rw [number]
      rintro ⟨least, -⟩
      omega
    rw [← number]
    exact .unicode ⟨ha, hb, hd, he⟩ notHigh notLow rest
  · cases h

theorem printByte_high (c : Byte) : ¬ c < 128#8 → printByte c = [c] := (byte_facts c).2.2.1

theorem Multibyte.high {b : Byte} {bs : Bytes} (h : Multibyte b bs) : ∀ c ∈ b :: bs, ¬ c < 128#8 := by
  rw [List.forall_mem_cons]
  refine ⟨(byte_facts b).1.2.2.1 ?_, fun c inside => (byte_facts c).1.2.2.2 (h.continued c inside)⟩
  rw [h.header]
  exact fun none => h.some_ (List.eq_nil_of_length_eq_zero (Option.some.inj none))

/-- A character of several bytes is printed as it is. -/
theorem Multibyte.printed {b : Byte} {bs : Bytes} (h : Multibyte b bs) :
    (b :: bs).flatMap printByte = b :: bs := by
  have same : (b :: bs).flatMap printByte = (b :: bs).flatMap fun c => [c] :=
    List.flatMap_congr fun c inside => printByte_high c (h.high c inside)
  rw [same, List.flatMap_singleton']

theorem header_two : ∀ m < 32, utf8Header (BitVec.ofNat 8 (192 + m)) = some 1 := by decide

theorem header_three : ∀ m < 16, utf8Header (BitVec.ofNat 8 (224 + m)) = some 2 := by decide

theorem header_four : ∀ m < 8, utf8Header (BitVec.ofNat 8 (240 + m)) = some 3 := by decide

theorem continuation_follow : ∀ m < 64, utf8Continuation (BitVec.ofNat 8 (128 + m)) = true := by decide

theorem continuation_mod (n : Nat) : utf8Continuation (BitVec.ofNat 8 (128 + n % 64)) = true :=
  continuation_follow _ (Nat.mod_lt n (by decide))

/-- The UTF-8 of a code unit is one byte below 128, or a character of several bytes. -/
theorem utf8_cases {n : Nat} (small : n < 65536) :
    (∃ c, c < 128#8 ∧ utf8 n = [c]) ∨ ∃ b bs, Multibyte b bs ∧ utf8 n = b :: bs := by
  unfold utf8
  split
  · rename_i ascii
    refine .inl ⟨_, ?_, rfl⟩
    rw [BitVec.lt_def, BitVec.toNat_ofNat, Nat.mod_eq_of_lt (by omega)]
    exact ascii
  · split
    · refine .inr ⟨_, _, ⟨header_two _ (by omega), List.cons_ne_nil _ _, ?_⟩, rfl⟩
      exact List.forall_mem_singleton.2 (continuation_mod n)
    · refine .inr ⟨_, _, ⟨header_three _ (by omega), List.cons_ne_nil _ _, ?_⟩, rfl⟩
      exact List.forall_mem_cons.2 ⟨continuation_mod _, List.forall_mem_singleton.2 (continuation_mod n)⟩

theorem utf8Pair_multibyte {n m : Nat} (high : HighSurrogate n) (low : LowSurrogate m) :
    ∃ b bs, Multibyte b bs ∧ utf8Pair n m = b :: bs := by
  obtain ⟨least, below⟩ := high
  obtain ⟨least', below'⟩ := low
  refine ⟨_, _, ⟨header_four _ ?_, List.cons_ne_nil _ _, ?_⟩, rfl⟩
  · omega
  · refine List.forall_mem_cons.2 ⟨continuation_mod _, List.forall_mem_cons.2 ⟨continuation_mod _, ?_⟩⟩
    exact List.forall_mem_singleton.2 (continuation_mod _)

theorem Str.ascii {c : Byte} {t s : Bytes} (small : c < 128#8) (rest : Str t s) :
    Str (printByte c ++ t) (c :: s) := by
  have all := rest.written ((byte_facts c).2.1 small)
  rwa [utf8_ascii small] at all

theorem Str.several {b : Byte} {bs t s : Bytes} (h : Multibyte b bs) (rest : Str t s) :
    Str ((b :: bs).flatMap printByte ++ t) (b :: (bs ++ s)) := by
  rw [h.printed]
  exact .multibyte h rest

/-- **What `print_string` writes for a string that has a text is a text of it.** -/
theorem str_printed {t s : Bytes} (h : Str t s) : Str (s.flatMap printByte) s := by
  induction h with
  | nil => exact .nil
  | @plain b t s h rest ih => exact ih.ascii (plain_ascii b h)
  | @multibyte b bs t s h rest ih =>
    have all := ih.several h
    rwa [← List.flatMap_append] at all
  | @escape e t s h rest ih => exact ih.ascii (escapeChar_ascii e)
  | @unicode a b c d t s h notHigh notLow rest ih =>
    rw [List.flatMap_append]
    rcases utf8_cases (unit_lt h) with ⟨x, small, same⟩ | ⟨x, xs, several, same⟩
    · rw [same, List.flatMap_singleton]
      exact ih.ascii small
    · rw [same]
      exact ih.several several
  | @pair a b c d a' b' c' d' t s h h' high low rest ih =>
    obtain ⟨x, xs, several, same⟩ := utf8Pair_multibyte high low
    rw [List.flatMap_append, same]
    exact ih.several several

/-- **What `print_binary_string` writes for any bytes** is a text of the characters with these numbers. -/
theorem str_binary (s : Bytes) : Str (s.flatMap characterEscape) (s.flatMap fun c => utf8 c.toNat) := by
  induction s with
  | nil => exact .nil
  | cons c s ih => exact ih.written (byte_facts c).2.2.2

/-! ## Values -/

section

variable {pretty : Bool} {p q r : Printer} {es es' : List Event} {bs bs' : Bytes}

/-- From `p` these events are printed as this text, and leave the printer as `q`. -/
def Writes (pretty : Bool) (p : Printer) (es : List Event) (bs : Bytes) (q : Printer) : Prop :=
  (printEvents pretty p es).1.flatten = bs ∧ (printEvents pretty p es).2 = q

theorem Writes.append (first : Writes pretty p es bs q) (second : Writes pretty q es' bs' r) :
    Writes pretty p (es ++ es') (bs ++ bs') r := by
  obtain ⟨rfl, rfl⟩ := first
  obtain ⟨rfl, rfl⟩ := second
  unfold Writes
  rw [printEvents_append]
  exact ⟨List.flatten_append, rfl⟩

theorem Writes.cons {e : Event} (first : Writes pretty p [e] bs q) (second : Writes pretty q es bs' r) :
    Writes pretty p (e :: es) (bs ++ bs') r :=
  first.append second

/-- One event. -/
theorem Writes.one (pretty : Bool) (p : Printer) (e : Event) :
    Writes pretty p [e] (jsonPrintMode pretty p e).1.flatten (jsonPrintMode pretty p e).2 := by
  unfold Writes
  rw [printEvents_cons]
  exact ⟨congrArg _ (List.append_nil _), rfl⟩

/-- The comma in front of a value that is not the first and not behind a key. -/
def lead (p : Printer) : Bytes := if !p.enterObject && !p.afterkey then [44#8] else []

/-- In the pretty form lines are indented with white space. -/
def Printer.Blank (pretty : Bool) (p : Printer) : Prop := pretty = true → Space p.indentstr

theorem space_append {w w' : Bytes} (h : Space w) (h' : Space w') : Space (w ++ w') :=
  List.forall_mem_append.2 ⟨h, h'⟩

theorem Printer.Blank.indent (blank : p.Blank pretty) :
    Space (if pretty then printIndent p else []).flatten := by
  split
  · rename_i lines
    unfold printIndent
    rw [List.flatten_cons]
    refine space_append (List.forall_mem_singleton.2 (.inr (.inr (.inl rfl)))) ?_
    intro b inside
    obtain ⟨l, same, inside⟩ := List.mem_flatten.1 inside
    exact blank lines b (List.eq_of_mem_replicate same ▸ inside)
  · exact space_nil

/-- What stands before a value or a key. -/
theorem Printer.Blank.separator (blank : p.Blank pretty) {type : JsonType} (value : type.ends = false) :
    ∃ w, Space w ∧ (Libjson.separator pretty p type).flatten = lead p ++ w := by
  have indent := blank.indent
  unfold Libjson.separator lead
  rw [value]
  cases p.enterObject with
  | false =>
    cases p.afterkey with
    | false => exact ⟨_, indent, by simp⟩
    | true => exact ⟨[], space_nil, by simp⟩
  | true =>
    cases p.first with
    | false => exact ⟨_, indent, by simp⟩
    | true => exact ⟨[], space_nil, by simp⟩

/-- An event that does not end an array or an object. -/
theorem Printer.Blank.one (blank : p.Blank pretty) {e : Event} {c : List Bytes}
    (value : e.type.ends = false)
    (prints : jsonPrintMode pretty p e = (Libjson.separator pretty p e.type ++ c, q)) :
    ∃ w, Space w ∧ Writes pretty p [e] (lead p ++ (w ++ c.flatten)) q := by
  obtain ⟨w, space, same⟩ := blank.separator value
  refine ⟨w, space, ?_⟩
  have one := Writes.one pretty p e
  rw [prints, List.flatten_append, same, List.append_assoc] at one
  exact one

/-! ### Brackets -/

def begins (object : Bool) : Event := ⟨if object then .objectBegin else .arrayBegin, []⟩

def ends (object : Bool) : Event := ⟨if object then .objectEnd else .arrayEnd, []⟩

def openBracket (object : Bool) : Byte := if object then 123#8 else 91#8

def closeBracket (object : Bool) : Byte := if object then 125#8 else 93#8

/-- The printer inside of an array or an object, before the first value or behind one. -/
def Printer.inside (p : Printer) (first : Bool) : Printer :=
  { p.settled with indentlevel := p.indentlevel + 1, enterObject := first }

theorem Printer.Blank.opened (blank : p.Blank pretty) (object : Bool) :
    ∃ w, Space w ∧
      Writes pretty p [begins object] (lead p ++ (w ++ [openBracket object])) (p.inside true) := by
  cases object with
  | false => exact blank.one (e := begins false) (c := [[91#8]]) rfl rfl
  | true => exact blank.one (e := begins true) (c := [[123#8]]) rfl rfl

theorem Printer.Blank.closed (blank : p.Blank pretty) (object first : Bool) :
    ∃ w, Space w ∧
      Writes pretty (p.inside first) [ends object] (w ++ [closeBracket object]) p.settled := by
  have level : { p.settled with indentlevel := p.indentlevel + 1 - 1 } = p.settled := by
    rw [Int.add_sub_cancel]
    rfl
  have closes : jsonPrintMode pretty (p.inside first) (ends object) =
      ((if pretty && !first then printIndent p.settled else []) ++ [[closeBracket object]],
        p.settled) := by
    rw [← level]
    cases object with
    | false => exact congrArg (fun before => (before ++ _, _)) (separator_ends pretty _ rfl)
    | true => exact congrArg (fun before => (before ++ _, _)) (separator_ends pretty _ rfl)
  have one := Writes.one pretty (p.inside first) (ends object)
  rw [closes, List.flatten_append, List.flatten_singleton] at one
  refine ⟨_, ?_, one⟩
  have indent : Space (if pretty then printIndent p.settled else []).flatten :=
    Printer.Blank.indent (p := p.settled) blank
  cases first with
  | false => rwa [Bool.not_false, Bool.and_true]
  | true =>
    rw [Bool.not_true, Bool.and_false]
    exact space_nil

/-- **Brackets around what is printed inside.** -/
theorem Printer.Blank.enclosed (blank : p.Blank pretty) (object first : Bool)
    (within : Writes pretty (p.inside true) es bs (p.inside first)) :
    ∃ w w', Space w ∧ Space w' ∧ Writes pretty p (begins object :: (es ++ [ends object]))
      (lead p ++ (w ++ openBracket object :: (bs ++ (w' ++ [closeBracket object])))) p.settled := by
  obtain ⟨w, space, opened⟩ := blank.opened object
  obtain ⟨w', space', closed⟩ := blank.closed object first
  refine ⟨w, w', space, space', ?_⟩
  have all := opened.cons (within.append closed)
  rw [List.append_assoc, List.append_assoc, List.singleton_append] at all
  exact all

/-! ### Trees -/

/-- A name and the colon behind it. -/
theorem Printer.Blank.key (blank : p.Blank pretty) (k : Bytes) :
    ∃ w w', Space w ∧ Space w' ∧ Writes pretty p [⟨.key, k⟩]
      (lead p ++ (w ++ 34#8 :: (k.flatMap printByte ++ 34#8 :: 58#8 :: w')))
      { p.settled with afterkey := true } := by
  obtain ⟨w, space, one⟩ := blank.one (e := ⟨.key, k⟩) rfl rfl
  refine ⟨w, if pretty then [32#8] else [], space, ?_, ?_⟩
  · split
    · exact List.forall_mem_singleton.2 (.inl rfl)
    · exact space_nil
  · have same : (printString k ++ [if pretty then [58#8, 32#8] else [58#8]]).flatten =
        34#8 :: (k.flatMap printByte ++ 34#8 :: 58#8 :: if pretty then [32#8] else []) := by
      cases pretty <;> simp [printString, List.flatMap]
    rwa [same] at one

theorem printString_flatten (s : Bytes) :
    (printString s).flatten = 34#8 :: (s.flatMap printByte ++ [34#8]) := by
  simp [printString, List.flatMap]

/-- A value is printed, behind what stands in front of it. -/
def PrintsValue (pretty : Bool) (t : Tree) : Prop :=
  ∀ p : Printer, p.Blank pretty →
    ∃ w v, Space w ∧ Value v t ∧ Writes pretty p t.events (lead p ++ (w ++ v)) p.settled

def PrintsItems (pretty : Bool) (ts : List Tree) : Prop :=
  ∀ p : Printer, p.Blank pretty →
    ∃ bs, (∀ w, Space w → Items (bs ++ w) ts) ∧ Writes pretty p (itemEvents ts) (lead p ++ bs) p.settled

def PrintsMembers (pretty : Bool) (ms : List (Bytes × Tree)) : Prop :=
  ∀ p : Printer, p.Blank pretty →
    ∃ bs, (∀ w, Space w → Members (bs ++ w) ms) ∧
      Writes pretty p (memberEvents ms) (lead p ++ bs) p.settled

theorem PrintsValue.scalar {t : Tree} {e : Event} {c : List Bytes} (events : t.events = [e])
    (text : Value c.flatten t) (value : e.type.ends = false)
    (prints : ∀ p, jsonPrintMode pretty p e = (separator pretty p e.type ++ c, p.settled)) :
    PrintsValue pretty t := by
  intro p blank
  obtain ⟨w, space, one⟩ := blank.one value (prints p)
  exact ⟨w, c.flatten, space, text, events ▸ one⟩

theorem PrintsValue.chunk {t : Tree} {e : Event} {c : Bytes} (events : t.events = [e])
    (text : Value c t) (value : e.type.ends = false)
    (prints : ∀ p, jsonPrintMode pretty p e = (separator pretty p e.type ++ [c], p.settled)) :
    PrintsValue pretty t :=
  .scalar events (c := [c]) (List.flatten_singleton ▸ text) value prints

theorem PrintsValue.empty (pretty object : Bool) {t : Tree} (events : t.events = [begins object, ends object])
    (text : ∀ w, Space w → Value (openBracket object :: (w ++ [closeBracket object])) t) :
    PrintsValue pretty t := by
  intro p blank
  have nothing : Writes pretty (p.inside true) [] [] (p.inside true) := ⟨rfl, rfl⟩
  obtain ⟨w, w', space, space', all⟩ := blank.enclosed object true nothing
  exact ⟨w, _, space, text w' space', events ▸ all⟩

theorem PrintsItems.array {ts : List Tree} (h : PrintsItems pretty ts) : PrintsValue pretty (.arr ts) := by
  intro p blank
  obtain ⟨bs, items, written⟩ := h (p.inside true) blank
  obtain ⟨w, w', space, space', all⟩ := blank.enclosed false false written
  refine ⟨w, _, space, ?_, all⟩
  have value := Value.array (items w' space')
  rwa [List.append_assoc] at value

theorem PrintsMembers.object {ms : List (Bytes × Tree)} (h : PrintsMembers pretty ms) :
    PrintsValue pretty (.obj ms) := by
  intro p blank
  obtain ⟨bs, members, written⟩ := h (p.inside true) blank
  obtain ⟨w, w', space, space', all⟩ := blank.enclosed true false written
  refine ⟨w, _, space, ?_, all⟩
  have value := Value.object (members w' space')
  rwa [List.append_assoc] at value

/-- A name with its value. -/
theorem PrintsValue.member {t : Tree} (h : PrintsValue pretty t) (k : Bytes) (blank : p.Blank pretty) :
    ∃ w w₁ v, Space w ∧ Space w₁ ∧ Value v t ∧ Writes pretty p (⟨.key, k⟩ :: t.events)
      (lead p ++ (w ++ 34#8 :: (k.flatMap printByte ++ 34#8 :: 58#8 :: (w₁ ++ v)))) p.settled := by
  obtain ⟨w, w', space, space', key⟩ := blank.key k
  obtain ⟨w₁, v, space₁, value, written⟩ := h { p.settled with afterkey := true } blank
  have behind : lead { p.settled with afterkey := true } = [] := rfl
  rw [behind, List.nil_append] at written
  refine ⟨w, w' ++ w₁, v, space, space_append space' space₁, value, ?_⟩
  have all := key.cons written
  simp only [List.append_assoc, List.cons_append] at all
  rw [List.append_assoc w']
  exact all

end

section

variable {pretty : Bool}

mutual

/-- **The events of a value with a text are printed as a text of this value.** -/
theorem prints_value {s : Bytes} {t : Tree} (h : Value s t) : PrintsValue pretty t := by
  cases h with
  | litNull => exact .chunk rfl .litNull rfl fun _ => rfl
  | litTrue => exact .chunk rfl .litTrue rfl fun _ => rfl
  | litFalse => exact .chunk rfl .litFalse rfl fun _ => rfl
  | int h => exact .chunk rfl (.int h) rfl fun _ => rfl
  | float h => exact .chunk rfl (.float h) rfl fun _ => rfl
  | @str bs s h =>
    refine .scalar rfl (c := printString s) ?_ rfl fun _ => rfl
    rw [printString_flatten]
    exact .str (str_printed h)
  | emptyArray space => exact .empty pretty false rfl fun w space => .emptyArray space
  | array items => exact (prints_items items).array
  | emptyObject space => exact .empty pretty true rfl fun w space => .emptyObject space
  | object members => exact (prints_members members).object

theorem prints_items {s : Bytes} {ts : List Tree} (h : Items s ts) : PrintsItems pretty ts := by
  intro p blank
  cases h with
  | @one w v w' t before value after =>
    obtain ⟨w, v, space, text, written⟩ := prints_value value p blank
    refine ⟨w ++ v, fun w' after => ?_, ?_⟩
    · rw [List.append_assoc]
      exact .one space text after
    · rw [itemEvents, itemEvents, List.append_nil]
      exact written
  | @more w v w' t bs ts before value after rest =>
    obtain ⟨w, v, space, text, written⟩ := prints_value value p blank
    obtain ⟨bs, items, others⟩ := prints_items rest p.settled blank
    refine ⟨w ++ (v ++ 44#8 :: bs), fun w' after => ?_, ?_⟩
    · rw [List.append_assoc, List.append_assoc]
      exact @Items.more _ _ [] _ _ _ space text space_nil (items w' after)
    · have all := written.append others
      rw [List.append_assoc, List.append_assoc] at all
      exact all

theorem prints_members {s : Bytes} {ms : List (Bytes × Tree)} (h : Members s ms) :
    PrintsMembers pretty ms := by
  intro p blank
  cases h with
  | @one w k s w' w₁ v w₁' t before name colon before' value after =>
    obtain ⟨w, w₁, v, space, space₁, text, written⟩ := (prints_value value).member s blank
    refine ⟨w ++ 34#8 :: (s.flatMap printByte ++ 34#8 :: 58#8 :: (w₁ ++ v)), fun w' after => ?_, ?_⟩
    · simp only [List.append_assoc, List.cons_append]
      exact @Members.one _ _ _ [] _ _ _ _ space (str_printed name) space_nil space₁ text after
    · rw [memberEvents, memberEvents, List.append_nil]
      exact written
  | @more w k s w' w₁ v w₁' t bs ms before name colon before' value after rest =>
    obtain ⟨w, w₁, v, space, space₁, text, written⟩ := (prints_value value).member s blank
    obtain ⟨bs, members, others⟩ := prints_members rest p.settled blank
    refine ⟨w ++ 34#8 :: (s.flatMap printByte ++ 34#8 :: 58#8 :: (w₁ ++ (v ++ 44#8 :: bs))),
      fun w' after => ?_, ?_⟩
    · simp only [List.append_assoc, List.cons_append]
      exact @Members.more _ _ _ [] _ _ [] _ _ _ space (str_printed name) space_nil space₁ text space_nil
        (members w' after)
    · have all := written.append others
      simp only [List.append_assoc, List.cons_append] at all
      exact all

end

/-- The text that is printed for a tree, by a printer from `json_print_init` with this string to indent. -/
def printed (pretty : Bool) (indentstr : Bytes) (t : Tree) : Bytes :=
  (printEvents pretty { jsonPrintInit with indentstr } t.events).1.flatten

/-- A tree that has a text is printed as a text of it. -/
theorem printed_document {s indentstr : Bytes} {t : Tree} (h : Document s t)
    (blank : pretty = true → Space indentstr) : Document (printed pretty indentstr t) t := by
  obtain ⟨structure_, w, v, w', before, value, after, rfl⟩ := h
  obtain ⟨w, v, space, text, written, -⟩ := prints_value value { jsonPrintInit with indentstr } blank
  refine ⟨structure_, w, v, [], space, text, space_nil, ?_⟩
  rw [List.append_nil]
  exact written

/-- **A tree that has a text at all is printed as a text that the parser takes, with the same events**: in
the raw form, and in the pretty form if lines are indented with white space. -/
theorem printed_read {s indentstr : Bytes} {t : Tree} (cfg : Config) (h : Document s t)
    (blank : pretty = true → Space indentstr) :
    ∃ q, reads cfg reader (printed pretty indentstr t) = .ok q ∧ jsonParserIsDone q = true ∧
      q.userdata = t.events :=
  document_read cfg (printed_document h blank)

theorem printed_read_nested :
    ∃ q, reads ⟨0, 0, 0, false, false⟩ reader (printed true [9#8, 32#8] nestedTree) = .ok q ∧
      jsonParserIsDone q = true ∧ q.userdata = nestedTree.events := by
  have blank : Space [9#8, 32#8] :=
    List.forall_mem_cons.2 ⟨.inr (.inl rfl), List.forall_mem_singleton.2 (.inl rfl)⟩
  exact printed_read _ nested_document fun _ => blank

/-- **Any bytes that are printed as `JSON_BSTRING` are read back**, each as the UTF-8 of the character with
its number. -/
theorem binary_read (cfg : Config) (pretty : Bool) (data : Bytes) :
    ∃ q, reads cfg reader (printEvents pretty jsonPrintInit
        [⟨.arrayBegin, []⟩, ⟨.bstring, data⟩, ⟨.arrayEnd, []⟩]).1.flatten = .ok q ∧
      jsonParserIsDone q = true ∧
      q.userdata = [⟨.arrayBegin, []⟩, ⟨.string, data.flatMap fun c => utf8 c.toNat⟩, ⟨.arrayEnd, []⟩] := by
  have blank : jsonPrintInit.Blank pretty := fun _ => List.forall_mem_singleton.2 (.inr (.inl rfl))
  obtain ⟨w, space, one⟩ := (show (jsonPrintInit.inside true).Blank pretty from blank).one
    (e := ⟨.bstring, data⟩) (c := printBinaryString data) rfl rfl
  obtain ⟨w₁, w₂, space₁, space₂, all, -⟩ := blank.enclosed false false one
  have string : (printBinaryString data).flatten = 34#8 :: (data.flatMap characterEscape ++ [34#8]) := by
    simp [printBinaryString, List.flatMap]
  have value := Value.array (Items.one space (Value.str (str_binary data)) space₂)
  refine document_read cfg (t := .arr [.str _]) ⟨trivial, w₁, _, [], space₁, value, space_nil, ?_⟩
  rw [List.append_nil, ← string]
  simp only [List.append_assoc] at all ⊢
  exact all

end

end SpiderFrame.Libjson
