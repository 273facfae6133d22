import Mathlib.Data.List.Basic

/-!
# Programs with a log

A program is a function of a state that logs events and may come to its end, with a result and
a new state; a program that crashes or runs on has only the events it has logged by then. A
language says which logs are whole and which are the beginning of a whole one, and moves say to
which states a program may come with a log. `Emits` is the triple for both: a program that comes to
its end logs a whole word, makes a move and keeps an invariant, and one that does not logs a
beginning.
-/

namespace SpiderFrame.Base

universe u

/-- The events logged, and the result with the new state when the program comes to its end. -/
def Prog (σ ε α : Type u) : Type u := σ → List ε × Option (α × σ)

variable {σ ε α β : Type u}

namespace Prog

/-- The program is over, with what has been logged. -/
def halt : Prog σ ε α := fun _ => ([], none)

/-- What the rest makes of a result, after the events logged before. -/
def andThen (f : α → Prog σ ε β) (log : List ε) : Option (α × σ) → List ε × Option (β × σ)
  | none => (log, none)
  | some (a, s) => (log ++ (f a s).1, (f a s).2)

instance : Monad (Prog σ ε) where
  pure a := fun s => ([], some (a, s))
  bind m f := fun s => andThen f (m s).1 (m s).2

def log (es : List ε) : Prog σ ε PUnit := fun s => (es, some (⟨⟩, s))

def get : Prog σ ε σ := fun s => ([], some (s, s))

def modify (f : σ → σ) : Prog σ ε PUnit := fun s => ([], some (⟨⟩, f s))

/-- The value of an option; without one the program is over. -/
def ofOption : Option α → Prog σ ε α
  | some a => pure a
  | none => halt

/-- The program for each element in turn. -/
def each (f : α → Prog σ ε PUnit) : List α → Prog σ ε PUnit
  | [] => pure ⟨⟩
  | a :: as => do f a; each f as

variable {m : Prog σ ε α} {f : α → Prog σ ε β} {s s' : σ} {a : α} {es : List ε}

theorem bind_apply (m : Prog σ ε α) (f : α → Prog σ ε β) (s : σ) :
    (m >>= f) s = andThen f (m s).1 (m s).2 := rfl

theorem bind_done (first : m s = (es, some (a, s'))) :
    (m >>= f) s = (es ++ (f a s').1, (f a s').2) := by
  rw [bind_apply, first]
  rfl

theorem bind_then {es' : List ε} {r : Option (β × σ)} (first : m s = (es, some (a, s')))
    (rest : f a s' = (es', r)) : (m >>= f) s = (es ++ es', r) := by
  rw [bind_done first, rest]

/-- A first program that logs nothing. -/
theorem bind_silent (first : m s = ([], some (a, s'))) : (m >>= f) s = f a s' := bind_then first rfl

theorem pure_bind (a : α) (f : α → Prog σ ε β) (s : σ) :
    ((pure a : Prog σ ε α) >>= f) s = f a s := bind_silent rfl

theorem get_bind (f : σ → Prog σ ε β) (s : σ) : (get >>= f) s = f s s := bind_silent rfl

theorem modify_bind (g : σ → σ) (f : PUnit → Prog σ ε β) (s : σ) :
    (modify g >>= f) s = f ⟨⟩ (g s) := bind_silent rfl

theorem ofOption_done {o : Option α} (run : ofOption o s = (es, some (a, s'))) :
    o = some a ∧ es = [] ∧ s' = s := by
  cases o with
  | none => cases run
  | some b =>
    cases run
    exact ⟨rfl, rfl, rfl⟩

theorem bind_halt (first : m s = (es, none)) : (m >>= f) s = (es, none) := by
  rw [bind_apply, first]
  rfl

theorem bind_assoc {γ : Type u} (m : Prog σ ε α) (f : α → Prog σ ε β) (g : β → Prog σ ε γ) :
    ((m >>= f) >>= g) = m >>= fun a => f a >>= g := by
  funext s
  cases first : m s with
  | mk es r =>
    cases r with
    | none => rw [bind_halt first, bind_halt (bind_halt first)]
    | some r =>
      obtain ⟨a, s'⟩ := r
      cases second : f a s' with
      | mk es' r' =>
        cases r' with
        | none =>
          have both : (m >>= f) s = (es ++ es', none) := bind_then first second
          rw [bind_halt both, bind_then first (bind_halt second)]
        | some r' =>
          obtain ⟨b, s''⟩ := r'
          have both : (m >>= f) s = (es ++ es', some (b, s'')) := bind_then first second
          rw [bind_done both, bind_then first (bind_done second), List.append_assoc]

/-- Two programs behind the same one, which agree where it comes to its end. -/
theorem bind_congr {g : α → Prog σ ε β}
    (agree : ∀ es a s', m s = (es, some (a, s')) → f a s' = g a s') : (m >>= f) s = (m >>= g) s := by
  cases run : m s with
  | mk es r =>
    cases r with
    | none => rw [bind_halt run, bind_halt run]
    | some r =>
      obtain ⟨a, s'⟩ := r
      rw [bind_done run, bind_done run, agree es a s' run]

/-- A sequence that comes to its end consists of two programs that do. -/
theorem bind_eq_done {es : List ε} {b : β} {s'' : σ}
    (h : (m >>= f) s = (es, some (b, s''))) : ∃ es₁ a s' es₂, m s = (es₁, some (a, s')) ∧
      f a s' = (es₂, some (b, s'')) ∧ es = es₁ ++ es₂ := by
  cases first : (m s).2 with
  | none =>
    rw [bind_apply, first] at h
    cases h
  | some r =>
    obtain ⟨a, s'⟩ := r
    rw [bind_apply, first] at h
    have parts := Prod.mk.inj h
    exact ⟨(m s).1, a, s', (f a s').1, Prod.ext rfl first, Prod.ext rfl parts.2, parts.1.symm⟩

end Prog

/-! ## Languages of logs -/

/-- Whole words, which may stand one after the other, and their beginnings. -/
structure Lang (ε : Type u) where
  whole : List ε → Prop
  part : List ε → Prop
  nil : whole []
  append : ∀ {a b}, whole a → whole b → whole (a ++ b)
  part_of_whole : ∀ {a}, whole a → part a
  part_append : ∀ {a b}, whole a → part b → part (a ++ b)

/-- The words of `W` and their beginnings. -/
def Lang.of (W : List ε → Prop) (nil : W []) (append : ∀ {a b}, W a → W b → W (a ++ b)) :
    Lang ε where
  whole := W
  part a := ∃ b, W (a ++ b)
  nil := nil
  append := append
  part_of_whole h := ⟨[], by rwa [List.append_nil]⟩
  part_append ha hb := hb.imp fun c hc => by
    rw [List.append_assoc]
    exact append ha hc

/-- The words in which `f` sees a word of `L`. -/
def Lang.seen {δ : Type u} (f : ε → Option δ) (L : Lang δ) : Lang ε where
  whole a := L.whole (a.filterMap f)
  part a := L.part (a.filterMap f)
  nil := L.nil
  append ha hb := by
    rw [List.filterMap_append]
    exact L.append ha hb
  part_of_whole := L.part_of_whole
  part_append ha hb := by
    rw [List.filterMap_append]
    exact L.part_append ha hb

/-- The words of two languages. -/
def Lang.inter (L M : Lang ε) : Lang ε where
  whole a := L.whole a ∧ M.whole a
  part a := L.part a ∧ M.part a
  nil := ⟨L.nil, M.nil⟩
  append ha hb := ⟨L.append ha.1 hb.1, M.append ha.2 hb.2⟩
  part_of_whole h := ⟨L.part_of_whole h.1, M.part_of_whole h.2⟩
  part_append ha hb := ⟨L.part_append ha.1 hb.1, M.part_append ha.2 hb.2⟩

/-- The words all of whose events satisfy `P`. -/
def Lang.all (P : ε → Prop) : Lang ε where
  whole a := ∀ e ∈ a, P e
  part a := ∀ e ∈ a, P e
  nil := by simp
  append ha hb := by simpa [or_imp, forall_and] using ⟨ha, hb⟩
  part_of_whole h := h
  part_append ha hb := by simpa [or_imp, forall_and] using ⟨ha, hb⟩

/-! ## Moves -/

/-- To which states one may come from a state, and with which logs; moves may follow each other. -/
structure Moves (σ ε : Type u) where
  rel : σ → List ε → σ → Prop
  refl : ∀ s, rel s [] s
  trans : ∀ {s s' s'' a b}, rel s a s' → rel s' b s'' → rel s (a ++ b) s''

/-- From a state with `I` the program logs a word of the language, and at its end it has made a
move, `I` holds again and the result satisfies `Q`. -/
def Emits (L : Lang ε) (M : Moves σ ε) (I : σ → Prop) (m : Prog σ ε α) (Q : α → Prop) : Prop :=
  ∀ s, I s → match m s with
    | (es, none) => L.part es
    | (es, some (a, s')) => L.whole es ∧ M.rel s es s' ∧ I s' ∧ Q a

namespace Emits

variable {L : Lang ε} {M : Moves σ ε} {I : σ → Prop} {m : Prog σ ε α} {f : α → Prog σ ε β}
  {Q : α → Prop} {R : β → Prop}

theorem pure {a : α} (h : Q a) : Emits L M I (pure a) Q :=
  fun s hI => ⟨L.nil, M.refl s, hI, h⟩

theorem halt : Emits L M I (Prog.halt : Prog σ ε α) Q := fun _ _ => L.part_of_whole L.nil

theorem log {es : List ε} (h : L.whole es) (stays : ∀ s, M.rel s es s) :
    Emits L M I (Prog.log es) fun _ => True :=
  fun s hI => ⟨h, stays s, hI, trivial⟩

theorem get : Emits L M I (Prog.get : Prog σ ε σ) I := fun s hI => ⟨L.nil, M.refl s, hI, hI⟩

theorem modify {f : σ → σ} (move : ∀ s, I s → M.rel s [] (f s)) (kept : ∀ s, I s → I (f s)) :
    Emits L M I (Prog.modify f) fun _ => True :=
  fun s hI => ⟨L.nil, move s hI, kept s hI, trivial⟩

theorem ofOption {o : Option α} (h : ∀ a, o = some a → Q a) :
    Emits L M I (Prog.ofOption o) Q := by
  cases o with
  | none => exact halt
  | some a => exact pure (h a rfl)

/-- **The rule for one program after another.** -/
theorem bind (first : Emits L M I m Q) (rest : ∀ a, Q a → Emits L M I (f a) R) :
    Emits L M I (m >>= f) R := by
  intro s hI
  have before := first s hI
  rw [Prog.bind_apply]
  cases run : m s with
  | mk es r =>
    rw [run] at before
    cases r with
    | none => exact before
    | some r =>
      obtain ⟨a, s'⟩ := r
      obtain ⟨whole, move, hI', hQ⟩ := before
      have after := rest a hQ s' hI'
      simp only [Prog.andThen]
      cases run' : f a s' with
      | mk es' r' =>
        rw [run'] at after
        cases r' with
        | none => exact L.part_append whole after
        | some r' => exact ⟨L.append whole after.1, M.trans move after.2.1, after.2.2⟩

theorem seq {f : Prog σ ε β} (first : Emits L M I m fun _ => True) (rest : Emits L M I f R) :
    Emits L M I (m >>= fun _ => f) R := first.bind fun _ _ => rest

theorem weaken {L' : Lang ε} (h : Emits L M I m Q) (whole : ∀ a, L.whole a → L'.whole a)
    (part : ∀ a, L.part a → L'.part a) : Emits L' M I m Q := by
  intro s hI
  have all := h s hI
  cases run : m s with
  | mk es r =>
    rw [run] at all
    cases r with
    | none => exact part _ all
    | some r => exact ⟨whole _ all.1, all.2⟩

/-- What is known of a program that has come to its end. -/
theorem done {s s' : σ} {a : α} {es : List ε} (h : Emits L M I m Q) (hI : I s)
    (run : m s = (es, some (a, s'))) : L.whole es ∧ M.rel s es s' ∧ I s' ∧ Q a := by
  have all := h s hI
  rwa [run] at all

/-- A change of the state, and a program that keeps another invariant. -/
theorem enter {J : σ → Prop} {f : σ → σ} (move : ∀ s, I s → M.rel s [] (f s))
    (before : ∀ s, I s → J (f s)) (h : Emits L M J m Q) (behind : ∀ s, J s → I s) :
    Emits L M I (Prog.modify f >>= fun _ => m) Q := by
  intro s hI
  have all := h (f s) (before s hI)
  rw [Prog.modify_bind]
  cases run : m (f s) with
  | mk es r =>
    rw [run] at all
    cases r with
    | none => exact all
    | some r => exact ⟨all.1, M.trans (move s hI) all.2.1, behind _ all.2.2.1, all.2.2.2⟩

/-- A program between two changes of the state. -/
theorem between {J : σ → Prop} {f g : σ → σ} {m : Prog σ ε PUnit}
    (move : ∀ s, I s → M.rel s [] (f s)) (before : ∀ s, I s → J (f s))
    (h : Emits L M J m fun _ => True) (back : ∀ s, J s → M.rel s [] (g s))
    (behind : ∀ s, J s → I (g s)) :
    Emits L M I (Prog.modify f >>= fun _ => m >>= fun _ => Prog.modify g) fun _ => True := by
  intro s hI
  have all := h (f s) (before s hI)
  rw [Prog.modify_bind, Prog.bind_apply]
  cases run : m (f s) with
  | mk es r =>
    rw [run] at all
    cases r with
    | none => exact all
    | some r =>
      obtain ⟨whole, inside, hJ, -⟩ := all
      have moved := M.trans (M.trans (move s hI) inside) (back _ hJ)
      simp only [Prog.andThen, Prog.modify, List.append_nil] at moved ⊢
      exact ⟨whole, moved, behind _ hJ, trivial⟩

/-- A program between two logs, whose words make words of another language there. -/
theorem around {L' : Lang ε} {m : Prog σ ε PUnit} {before behind : List ε}
    (h : Emits L' M I m fun _ => True) (front : ∀ s, M.rel s before s)
    (back : ∀ s, M.rel s behind s) (whole : ∀ a, L'.whole a → L.whole (before ++ (a ++ behind)))
    (part : ∀ a, L'.part a → L.part (before ++ a)) :
    Emits L M I (Prog.log before >>= fun _ => m >>= fun _ => Prog.log behind) fun _ => True := by
  intro s hI
  have all := h s hI
  rw [Prog.bind_done (show Prog.log before s = (before, some (⟨⟩, s)) from rfl), Prog.bind_apply]
  cases run : m s with
  | mk es r =>
    rw [run] at all
    cases r with
    | none => exact part _ all
    | some r =>
      obtain ⟨word, move, hI', -⟩ := all
      exact ⟨whole _ word, M.trans (front s) (M.trans move (back _)), hI', trivial⟩

theorem each {f : α → Prog σ ε PUnit} : ∀ {as : List α},
    (∀ a ∈ as, Emits L M I (f a) fun _ => True) → Emits L M I (Prog.each f as) fun _ => True
  | [], _ => pure trivial
  | a :: _, h => (h a List.mem_cons_self).seq (each fun b hb => h b (List.mem_cons_of_mem _ hb))

end Emits

/-! ## Operations on a part of the state -/

/-- A program that comes to its end has done these operations on what `view` shows of the state,
and its result satisfies `Q`. -/
def Performs {τ ω : Type u} (step : τ → ω → Option τ) (view : σ → τ) (m : Prog σ ε α)
    (ops : List ω) (Q : α → Prop) : Prop :=
  ∀ s es a s', m s = (es, some (a, s')) → ops.foldlM step (view s) = some (view s') ∧ Q a

namespace Performs

variable {τ ω : Type u} {step : τ → ω → Option τ} {view : σ → τ} {m : Prog σ ε α}
  {f : α → Prog σ ε β} {ops ops' : List ω} {Q : α → Prop} {R : β → Prop}

theorem pure {a : α} (h : Q a) : Performs step view (pure a : Prog σ ε α) [] Q := by
  intro s es b s' run
  cases run
  exact ⟨rfl, h⟩

theorem halt : Performs step view (Prog.halt : Prog σ ε α) ops Q := by
  intro s es a s' run
  cases run

theorem log {es : List ε} : Performs step view (Prog.log es) [] fun _ => True := by
  intro s es' a s' run
  cases run
  exact ⟨rfl, trivial⟩

theorem get : Performs step view (Prog.get : Prog σ ε σ) [] fun _ => True := by
  intro s es a s' run
  cases run
  exact ⟨rfl, trivial⟩

theorem ofOption {o : Option α} (h : ∀ a, o = some a → Q a) :
    Performs step view (Prog.ofOption o : Prog σ ε α) [] Q := by
  cases o with
  | none => exact halt
  | some a => exact pure (h a rfl)

/-- **The operations of one program after another.** -/
theorem bind (first : Performs step view m ops Q)
    (rest : ∀ a, Q a → Performs step view (f a) ops' R) :
    Performs step view (m >>= f) (ops ++ ops') R := by
  intro s es b s'' run
  obtain ⟨es₁, a, s', es₂, run₁, run₂, -⟩ := Prog.bind_eq_done run
  obtain ⟨moved, hQ⟩ := first s es₁ a s' run₁
  obtain ⟨moved', hR⟩ := rest a hQ s' es₂ b s'' run₂
  refine ⟨?_, hR⟩
  rw [List.foldlM_append, moved]
  exact moved'

/-- A program that does nothing before another one. -/
theorem after (first : Performs step view m [] Q)
    (rest : ∀ a, Q a → Performs step view (f a) ops R) : Performs step view (m >>= f) ops R :=
  first.bind rest

/-- A program that does nothing behind another one. -/
theorem before (first : Performs step view m ops Q)
    (rest : ∀ a, Q a → Performs step view (f a) [] R) : Performs step view (m >>= f) ops R := by
  rw [← List.append_nil ops]
  exact first.bind rest

theorem each {f : α → Prog σ ε PUnit} {opsOf : α → List ω} : ∀ {as : List α},
    (∀ a ∈ as, Performs step view (f a) (opsOf a) fun _ => True) →
      Performs step view (Prog.each f as) (as.flatMap opsOf) fun _ => True
  | [], _ => pure trivial
  | a :: _, h => (h a List.mem_cons_self).bind fun _ _ =>
      each fun b hb => h b (List.mem_cons_of_mem _ hb)

end Performs

end SpiderFrame.Base
