import SpiderFrame.Page.TraceRun

/-!
# The text in `json_buf`

The printer hands its chunks to the buffer one by one, and a known uniq key clears the buffer
while the printer goes on: the text behind it begins in the middle (`text_broken_by_duplicate`).
A chunk that is refused is left out, and a shorter one behind it may still be taken. In a run
where neither happens the buffer begins a JSON text at every moment, and at the end it is an
array unless a chunk was refused (`json_text_of_calm`).
-/

namespace SpiderFrame.Page
open SpiderFrame.Base SpiderFrame.Json
open SpiderFrame.Base.Json (Begins Value.element)

variable {Re : Type}

/-- A chunk for the buffer, or none for `sf_json_free_print_buf`. -/
abbrev BufStep := Option (List Byte)

/-- What a step makes of the text in the buffer. -/
def bufStep (buf : List Byte) : BufStep → List Byte
  | some chunk => printBufCallback buf chunk
  | none => []

/-- The text in `json_buf` after these steps. -/
def bufText (steps : List BufStep) : List Byte := steps.foldl bufStep []

/-- The steps that a run takes on the buffer, from the printer `p` on. -/
def bufSteps (p : Printer) : List (Event Re) → List BufStep
  | [] => []
  | .json op :: es => (printRaw p op).1.map some ++ bufSteps (printRaw p op).2 es
  | .jsonFree :: es => none :: bufSteps p es
  | _ :: es => bufSteps p es

/-- Every chunk is taken. -/
def AllTaken (buf : List Byte) : List BufStep → Prop
  | [] => True
  | some chunk :: steps => fits buf chunk = true ∧ AllTaken (buf ++ chunk) steps
  | none :: steps => AllTaken [] steps

/-- The buffer begins a JSON text at every moment, and is an array at the end of a run that
returns when every chunk was taken. -/
def WellFormed (run : List (Event Re) × Bool) : Prop :=
  (∀ n, Begins (bufText ((bufSteps printInit run.1).take n))) ∧
    (run.2 = true → AllTaken [] (bufSteps printInit run.1) →
      ArrayText (bufText (bufSteps printInit run.1)))

/-- A step that leaves the text in step with the printer: the buffer is not cleared, and nothing is
taken once a chunk was refused. -/
def Calm (buf : List Byte) (refused : Bool) : BufStep → Bool
  | some chunk => !(refused && fits buf chunk)
  | none => false

/-- All steps are calm. -/
def AllCalm (buf : List Byte) (refused : Bool) : List BufStep → Prop
  | [] => True
  | step :: steps => Calm buf refused step = true ∧
      AllCalm (bufStep buf step) (refused || step.any fun chunk => !fits buf chunk) steps

instance AllCalm.decidable : ∀ (buf : List Byte) (refused : Bool) (steps : List BufStep),
    Decidable (AllCalm buf refused steps)
  | _, _, [] => .isTrue trivial
  | buf, refused, step :: steps =>
    have := AllCalm.decidable (bufStep buf step)
      (refused || step.any fun chunk => !fits buf chunk) steps
    inferInstanceAs (Decidable (_ ∧ _))

/-! ## Steps of chunks only -/

/-- Calm steps are chunks. -/
theorem AllCalm.chunks {steps : List BufStep} : ∀ {buf : List Byte} {refused : Bool},
    AllCalm buf refused steps → ∃ chunks : List (List Byte), steps = chunks.map some := by
  induction steps with
  | nil => exact fun _ => ⟨[], rfl⟩
  | cons step steps ih =>
    intro buf refused h
    obtain ⟨chunks, rest⟩ := ih h.2
    cases step with
    | none => cases h.1
    | some chunk => exact ⟨chunk :: chunks, by rw [rest, List.map_cons]⟩

theorem AllCalm.refused {chunks : List (List Byte)} : ∀ {buf : List Byte},
    AllCalm buf true (chunks.map some) → ∀ chunk ∈ chunks, fits buf chunk = false := by
  induction chunks with
  | nil => exact fun _ _ h => nomatch h
  | cons chunk chunks ih =>
    intro buf h
    have refused : fits buf chunk = false := by simpa [Calm] using h.1
    have same : bufStep buf (some chunk) = buf := by simp [bufStep, printBufCallback, refused]
    have rest := h.2
    rw [same, Bool.true_or] at rest
    rw [List.forall_mem_cons]
    exact ⟨refused, ih rest⟩

theorem AllCalm.noneAfterRefusal {chunks : List (List Byte)} : ∀ {buf : List Byte},
    AllCalm buf false (chunks.map some) → NoneAfterRefusal buf chunks := by
  induction chunks with
  | nil => exact fun _ => trivial
  | cons chunk chunks ih =>
    intro buf h
    have rest := h.2
    unfold NoneAfterRefusal
    cases taken : fits buf chunk with
    | true =>
      rw [if_pos rfl]
      simp only [bufStep, printBufCallback, Option.any_some, taken, if_true, Bool.not_true,
        Bool.or_false] at rest
      exact ih rest
    | false =>
      rw [if_neg Bool.false_ne_true]
      simp only [bufStep, printBufCallback, Option.any_some, taken, Bool.not_false,
        Bool.or_true, Bool.false_eq_true, if_false] at rest
      exact AllCalm.refused rest

theorem bufText_chunks (chunks : List (List Byte)) :
    bufText (chunks.map some) = bufferAfter [] chunks := List.foldl_map

theorem allTaken_chunks {chunks : List (List Byte)} : ∀ {buf : List Byte},
    AllTaken buf (chunks.map some) → NoneRefused buf chunks := by
  induction chunks with
  | nil => exact fun _ => trivial
  | cons chunk chunks ih => exact fun h => ⟨h.1, ih h.2⟩

/-- Without a clear the steps are the chunks of the calls. -/
theorem bufSteps_eq {es : List (Event Re)} : ∀ {p : Printer} {chunks : List (List Byte)},
    bufSteps p es = chunks.map some → chunks = (printAll p (es.filterMap Event.op)).1 := by
  induction es with
  | nil =>
    intro p chunks h
    exact List.map_eq_nil_iff.1 h.symm
  | cons e es ih =>
    intro p chunks h
    cases e with
    | json op =>
      obtain ⟨first, rest, rfl, shown, later⟩ := List.append_eq_map_iff.1 h
      have same := List.map_injective_iff.2 (Option.some_injective _) shown
      rw [same, ih later.symm]
      rfl
    | jsonFree =>
      cases chunks with
      | nil => cases h
      | cons chunk chunks => cases h
    | _ => exact ih h

/-! ## The text -/

theorem begins_of_array {text buf : List Byte} (h : ArrayText text) (begun : buf <+: text) :
    Begins buf := by
  obtain ⟨rest, rfl⟩ := begun
  obtain ⟨-, -, value⟩ := h
  exact ⟨rest, value.element⟩

/-- The calls of a run begin those of an array, and are those of an array when it returns. -/
theorem mainRun_ops (env : Env Re) (fuel : Nat) (confFn : CString) (urlTxt : List Byte)
    (skipline : Int) : ∃ more,
      ArrayText (textOf printInit
        ((mainRun env fuel confFn urlTxt skipline).1.filterMap Event.op ++ more)) ∧
      ((mainRun env fuel confFn urlTxt skipline).2 = true → more = []) := by
  obtain run | ⟨file, body, -, ⟨run, word⟩ | ⟨run, word⟩⟩ :=
    mainRun_cases env fuel confFn urlTxt skipline
  · rw [run]
    exact ⟨[.arrayBegin, .arrayEnd], textOf_array .nil, nofun⟩
  · rw [run]
    obtain ⟨⟨more, items⟩, -⟩ := word
    refine ⟨more ++ [.arrayEnd], ?_, nofun⟩
    have text := textOf_array items
    simpa [Event.op] using text
  · rw [run]
    refine ⟨[], ?_, fun _ => rfl⟩
    have text := textOf_array word.1
    simpa [Event.op] using text

/-- **In a run of calm steps the text is well formed at every moment.** -/
theorem json_text_of_calm (env : Env Re) (fuel : Nat) (confFn : CString) (urlTxt : List Byte)
    (skipline : Int)
    (calm : AllCalm [] false (bufSteps printInit (mainRun env fuel confFn urlTxt skipline).1)) :
    WellFormed (mainRun env fuel confFn urlTxt skipline) := by
  obtain ⟨more, text, ends⟩ := mainRun_ops env fuel confFn urlTxt skipline
  obtain ⟨chunks, steps⟩ := calm.chunks
  have printed := bufSteps_eq steps
  rw [steps] at calm
  rw [textOf_append, textOf, ← printed] at text
  constructor
  · intro n
    rw [steps, ← List.map_take, bufText_chunks]
    have begun := bufferAfter_prefix (calm.noneAfterRefusal.take n)
    have shorter : (chunks.take n).flatten <+: chunks.flatten := by
      conv_rhs => rw [← List.take_append_drop n chunks, List.flatten_append]
      exact List.prefix_append _ _
    exact begins_of_array text (begun.trans (shorter.trans (List.prefix_append _ _)))
  · intro returned taken
    rw [steps] at taken
    rw [steps, bufText_chunks, bufferAfter_whole (allTaken_chunks taken)]
    rw [ends returned] at text
    simpa [textOf, printAll] using text

/-- One page with two matches of different keys: nothing is cleared, and all fits. -/
theorem json_text_of_calm_twoKeys : WellFormed (mainRun keySite 20 .empty oneRecord 0) :=
  json_text_of_calm _ _ _ _ _ (by decide +kernel)

/-- One page with two matches of one key: the array ends behind nothing. -/
theorem text_broken_by_duplicate : ¬ ∀ (env : Env Byte) (fuel : Nat) (confFn : CString)
    (urlTxt : List Byte) (skipline : Int),
    WellFormed (mainRun env fuel confFn urlTxt skipline) := by
  intro claim
  have begun := (claim (uniqSite [] [97#8, 97#8]) 20 .empty oneRecord 0).1 3
  have text : bufText ((bufSteps printInit
      (mainRun (uniqSite [] [97#8, 97#8]) 20 .empty oneRecord 0).1).take 3) = [93#8] := by
    decide +kernel
  rw [text] at begun
  refine Base.Json.not_begins ?_ (by decide) begun
  simp [Base.Json.Space]

end SpiderFrame.Page
