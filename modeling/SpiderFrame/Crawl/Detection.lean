import SpiderFrame.Crawl.Account
import SpiderFrame.Crawl.EndOfFile

/-!
# What `sf_all_spiders_eof` can tell

A spider that leaves because `sf_all_spiders_eof` returned 1 has read every flag up, one after
the other, while the flags change. A spider lowers its flag only some steps after its scan. But
with a sticky indicator a flag that went up at the end of the file comes from a stream that is not
read any more, and one that went up at a limit belongs to a spider that leaves: a raised flag stays
up, and its spider holds no record (`Lowered`). So what was read is still so when the last flag has
been read (`leave_sound`).
-/

namespace SpiderFrame.Crawl
open SpiderFrame.Base SpiderFrame.Queue

variable {conf : Conf} {init : List Record} {skipline : Int} {levels : List Int} {c : World}

/-- The spider `i` is about to leave: it has read all flags up. -/
def leaving (c : World) (i : Nat) : Bool :=
  match c.spiders[i]? with
  | none => false
  | some s =>
    match s.pc with
    | .allEof k => c.spiders[k]?.isNone
    | _ => false

/-- No other spider has a record whose processing is not finished. -/
def NoneHolds (c : World) (i : Nat) : Prop :=
  ∀ (j : Nat) (_ : j < c.spiders.length), j ≠ i → holding c.spiders[j] = false

/-- The flag of a spider that holds a record is down. -/
def Lowered (s : Spider) : Prop := holding s = true → s.eof = false

/-- The flags below the one that the spider reads next are up. -/
def ReadUp (c : World) (s : Spider) : Prop :=
  ∀ k, s.pc = .allEof k → ∀ (j : Nat) (t : Spider), j < k → c.spiders[j]? = some t → t.eof = true

section Moves

variable {i : Nat} {sh' : Shared} {s s' : Spider} {act : Act}

/-- A spider whose flag is up does not take a record: it has seen the end of a stream that is
sticky. -/
theorem low_of_scan (sticky : c.shared.reader.sticky = true)
    (inv : EofInv conf init skipline c.shared i s) (at_ : s.pc = .scan)
    (open_ : c.shared.reader.blocked = false) : s.eof = false := by
  by_contra up
  have raised := inv.raised (.inl (by simpa using up))
  have going : ¬ Stopping conf c.shared s := by simp [Stopping, at_]
  have set := (raised.resolve_left going).eof
  rw [Reader.blocked, sticky, set] at open_
  cases open_

theorem lowered_move (sticky : c.shared.reader.sticky = true)
    (inv : EofInv conf init skipline c.shared i s)
    (m : Move conf init skipline c.spiders i c.shared s act sh' s') (low : Lowered s) :
    Lowered s' := by
  cases m with
  | scan at_ r rest next open_ =>
    have down := low_of_scan sticky inv at_ open_
    exact fun _ => down
  | clear at_ => exact fun _ => rfl
  | pool at_ | fetch at_ | linksDone at_ | offerNew url todo at_ | offerKnown url todo at_
  | write url todo at_ => exact fun _ => low (by simp [holding, at_])
  | checkpoint at_ => cases due : sfDoCheckpoint c.shared.line <;> simp [Lowered, holding]
  | _ => simp [Lowered, holding]

/-- A raised flag stays up. -/
theorem eof_move (m : Move conf init skipline c.spiders i c.shared s act sh' s') (low : Lowered s)
    (up : s.eof = true) : s'.eof = true := by
  cases m with
  | clear at_ =>
    rw [low (by simp [holding, at_])] at up
    cases up
  | sawEof at_ | setEof at_ => rfl
  | _ => exact up

/-- A move of the spider `i` leaves the flags up that another one, or itself, has read up. -/
theorem readUp_move (here : c.spiders[i]? = some s) (own : ReadUp c s)
    (m : Move conf init skipline c.spiders i c.shared s act sh' s') (low : Lowered s) {t : Spider}
    (read : ReadUp c t) : ReadUp ⟨sh', c.spiders.set i s'⟩ t ∧ ReadUp ⟨sh', c.spiders.set i s'⟩ s' := by
  have up : ∀ k, (∀ (j : Nat) (t : Spider), j < k → c.spiders[j]? = some t → t.eof = true) →
      ∀ (j : Nat) (t : Spider), j < k → (c.spiders.set i s')[j]? = some t → t.eof = true := by
    intro k all j t below ht
    rcases getElem?_set_cases ht with ⟨rfl, rfl⟩ | ⟨-, ht⟩
    · exact eof_move m low (all j s below here)
    · exact all j t below ht
  refine ⟨fun k at_ => up k (read k at_), fun k at_ => up k ?_⟩
  cases m with
  | outer =>
    obtain rfl : 0 = k := by simpa using at_
    exact fun j t below => absurd below (Nat.not_lt_zero j)
  | otherEof n other at' there eof =>
    obtain rfl : n + 1 = k := by simpa using at_
    intro j t below ht
    rcases Nat.lt_succ_iff_lt_or_eq.1 below with before | rfl
    · exact own n at' j t before ht
    · rw [there, Option.some_inj] at ht
      exact ht ▸ eof
  | checkpoint =>
    cases due : sfDoCheckpoint c.shared.line <;> simp [due] at at_
  | _ => cases at_

end Moves

/-- The flags say what they seem to say. -/
structure FlagsTrue (c : World) : Prop where
  lowered : ∀ (i : Nat) s, c.spiders[i]? = some s → Lowered s
  readUp : ∀ (i : Nat) s, c.spiders[i]? = some s → ReadUp c s

theorem reach_flags (h : Reachable true conf init skipline levels c) : FlagsTrue c := by
  refine moves (I := FlagsTrue) h ?_ fun c i act s sh' s' reached inv _ here m => ?_
  · have fresh : ∀ (i : Nat) s, (start true init skipline levels).spiders[i]? = some s →
        s.pc = .scan := by
      intro i s hs
      obtain ⟨level, -, rfl⟩ : ∃ level, levels[i]? = some level ∧ startSpider level = s := by
        simpa [start] using hs
      rfl
    refine ⟨fun i s hs => ?_, fun i s hs k at_ => ?_⟩
    · simp [Lowered, holding, fresh i s hs]
    · rw [fresh i s hs] at at_
      cases at_
  · have low := inv.lowered i s here
    have own := inv.readUp i s here
    refine ⟨fun j t ht => ?_, fun j t ht => ?_⟩
    · rcases getElem?_set_cases ht with ⟨rfl, rfl⟩ | ⟨-, ht⟩
      · exact lowered_move (reach_sticky reached) ((reach_allEof reached).each j s here) m low
      · exact inv.lowered j t ht
    · rcases getElem?_set_cases ht with ⟨rfl, rfl⟩ | ⟨-, ht⟩
      · exact (readUp_move here own m low own).2
      · exact (readUp_move here own m low (inv.readUp j t ht)).1

/-- **A spider that leaves because `sf_all_spiders_eof` returned 1 leaves when no other spider holds
a record**, with a stream whose end of file is sticky. -/
theorem leave_sound (h : Reachable true conf init skipline levels c) {i : Nat}
    (leaves : leaving c i = true) : NoneHolds c i := by
  have flags := reach_flags h
  unfold leaving at leaves
  split at leaves
  · cases leaves
  · rename_i s here
    split at leaves
    · rename_i k at_
      intro j inside other
      have last : c.spiders.length ≤ k :=
        List.getElem?_eq_none_iff.1 (Option.isNone_iff_eq_none.1 leaves)
      have there : c.spiders[j]? = some c.spiders[j] := List.getElem?_eq_getElem inside
      have up := flags.readUp i s here k at_ j _ (by omega) there
      by_contra holds
      rw [flags.lowered j _ there (by simpa using holds)] at up
      cases up
    · cases leaves

/-- Two spiders at one record. The second comes to the end of the file while the first is still at
the record, which has a link; the first comes to the end after that and reads both flags up. -/
def bothEofActs : List (Nat × Act) :=
  ticks 0 1 ++ [(0, .pool true), (0, .tick)] ++ ticks 1 2 ++ [(0, .page true [.letter 1])] ++
    ticks 0 6 ++ ticks 0 5

def bothEof : Option World :=
  exec (step ⟨9, 99, false⟩) (start true [⟨0, .letter 0⟩] 0 [0, 0]) bothEofActs

theorem bothEof_runs : bothEof.isSome := by decide +kernel

theorem leave_sound_both : leaving (bothEof.get bothEof_runs) 0 = true ∧
    NoneHolds (bothEof.get bothEof_runs) 0 := by
  have leaves : leaving (bothEof.get bothEof_runs) 0 = true := by decide +kernel
  exact ⟨leaves, leave_sound (exec_reach (Option.some_get bothEof_runs).symm) leaves⟩

end SpiderFrame.Crawl
