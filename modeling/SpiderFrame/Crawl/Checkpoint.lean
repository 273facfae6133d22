import SpiderFrame.Crawl.Account

/-!
# What a checkpoint says

`sf_save_chkpoint(conf_fn, line)` writes the number of records scanned so far, while other
spiders may still work on records they scanned earlier. A checkpoint is sound when every
record below the saved number that this run did not skip has gone through its links and its
policies. `checkpoint_sound_iff` says exactly when all checkpoints of a run are, and
`checkpoint_ahead` is a run in which one is not.
-/

namespace SpiderFrame.Crawl
open SpiderFrame.Base SpiderFrame.Queue

variable {sticky : Bool} {conf : Conf} {init : List Record} {skipline : Int} {levels : List Int}
  {c : World}

/-- The spider `i` is about to call `sf_save_chkpoint`. -/
def Saving (c : World) (i : Nat) : Prop := ∃ s, c.spiders[i]? = some s ∧ s.pc = .save

/-- Each of the first `L` records that was not skipped has been processed. -/
def CheckpointSound (init : List Record) (skipline : Int) (c : World) (L : Int) : Prop :=
  ∀ n : Nat, skipped init skipline ≤ n → (n : Int) < L → n < (c.shared.records init).length →
    (n - skipped init skipline, true) ∈ c.shared.log.ended

/-- No spider is still at one of the first `L` records, and none of them was given up. -/
def NoneOpen (init : List Record) (skipline : Int) (c : World) (L : Int) : Prop :=
  ∀ n : Nat, skipped init skipline ≤ n → (n : Int) < L →
    ¬ c.Held (n - skipped init skipline) ∧
      (n - skipped init skipline, false) ∉ c.shared.log.ended

/-- A run that skips more lines than the file has scans and writes nothing. -/
structure Idle (init : List Record) (skipline : Int) (c : World) : Prop where
  scanned : init.length < skipline.toNat → c.shared.log.scanned = []
  appended : init.length < skipline.toNat → c.shared.log.appended = []

theorem reach_idle (h : Reachable sticky conf init skipline levels c) : Idle init skipline c := by
  obtain ⟨table, -, shared⟩ := start_shared sticky init skipline levels
  refine moves h ⟨fun _ => by simp [shared], fun _ => by simp [shared]⟩ ?_
  intro c i act s sh' s' reached idle _ here m
  refine ⟨fun beyond => ?_, fun beyond => ?_⟩
  · cases m with
    | scan at_ r rest next open_ =>
      -- nothing is left to scan
      obtain ⟨there, -⟩ := unread_cons next
      have bound := (List.getElem?_eq_some_iff.1 there).1
      simp only [Shared.records, Shared.passed, skipped, idle.scanned beyond,
        idle.appended beyond, List.map_nil, List.append_nil, List.length_nil] at bound
      omega
    | _ => simpa [Shared.append] using idle.scanned beyond
  · rcases move_appended m with same | ⟨url, todo, at_, -⟩
    · rw [same]; exact idle.appended beyond
    · -- a spider that writes holds a record
      have account := reach_account reached
      obtain ⟨n, hn⟩ := account.known i s here (by simp [holding, at_])
      have last := account.last i s n here hn
      rw [idle.scanned beyond] at last
      simp at last

/-- A file record below the counter that was not skipped has been scanned. -/
theorem scanned_of_below (h : Reachable sticky conf init skipline levels c) {n : Nat}
    (after : skipped init skipline ≤ n) (below : (n : Int) < c.shared.line)
    (inFile : n < (c.shared.records init).length) :
    n - skipped init skipline < c.shared.log.scanned.length := by
  have line := (reach_file h).line
  have idle := reach_idle h
  unfold skipped at after ⊢
  by_cases beyond : init.length < skipline.toNat
  · simp only [Shared.records, idle.appended beyond, List.map_nil, List.append_nil] at inFile
    omega
  · omega

/-- **At any moment, the number of scans is a sound checkpoint exactly when no record below
it is open.** -/
theorem sound_iff_noneOpen (h : Reachable sticky conf init skipline levels c) :
    CheckpointSound init skipline c c.shared.line ↔ NoneOpen init skipline c c.shared.line := by
  have account := reach_account h
  have within := (reach_file h).within
  constructor
  · intro sound n after below
    by_cases past : n - skipped init skipline < c.shared.log.scanned.length
    · have processed := sound n after below (by unfold Shared.passed at within; omega)
      refine ⟨?_, fun given => account.not_both given processed⟩
      rintro ⟨i, s, here, holds, hn⟩
      exact account.open_ i s _ here holds hn (List.mem_map_of_mem processed)
    · refine ⟨?_, fun given => past (account.bound _ given)⟩
      rintro ⟨i, s, here, -, hn⟩
      exact past (List.getElem?_eq_some_iff.1 (account.last i s _ here hn)).1
  · intro none_ n after below inFile
    obtain ⟨notHeld, notGiven⟩ := none_ n after below
    rcases account.total _ (scanned_of_below h after below inFile) with done | held
    · obtain ⟨⟨k, processed⟩, he, rfl⟩ := List.mem_map.1 done
      cases processed with
      | true => exact he
      | false => exact absurd he notGiven
    · exact absurd held notHeld

/-- **All checkpoints of a run are sound if and only if no record is open at any of them.** -/
theorem checkpoint_sound_iff (sticky : Bool) (conf : Conf) (init : List Record) (skipline : Int)
    (levels : List Int) (acts : List (Nat × Act)) :
    Along (step conf) (fun c act => Saving c act.1 → CheckpointSound init skipline c c.shared.line)
        (start sticky init skipline levels) acts ↔
      Along (step conf) (fun c act => Saving c act.1 → NoneOpen init skipline c c.shared.line)
        (start sticky init skipline levels) acts :=
  along_congr fun _ _ h => imp_congr_right fun _ => sound_iff_noneOpen h

/-- Two spiders from line 8 of 10: the first has scanned the ninth record and is still at it
when the second saves 10. -/
def aheadActs : List (Nat × Act) :=
  ticks 0 1 ++ [(1, .tick), (1, .pool true), (1, .tick), (1, .page true [])] ++ ticks 1 4

def tenRecords : List Record := List.replicate 10 ⟨0, .letter 0⟩

theorem aheadActs_runs :
    (exec (step ⟨9, 99, false⟩) (start true tenRecords 8 [0, 0]) aheadActs).isSome := by
  decide +kernel

/-- A checkpoint that skips an unprocessed record. -/
theorem checkpoint_ahead : ¬ ∀ (conf : Conf) (init : List Record) (skipline : Int)
    (levels : List Int) (acts : List (Nat × Act)),
    Along (step conf) (fun c act => Saving c act.1 → CheckpointSound init skipline c c.shared.line)
      (start true init skipline levels) acts := by
  intro claim
  have sound := (claim ⟨9, 99, false⟩ tenRecords 8 [0, 0] (aheadActs ++ [(1, .tick)])).at_step
    (Option.some_get aheadActs_runs).symm
  have saving : Saving ((exec (step ⟨9, 99, false⟩) (start true tenRecords 8 [0, 0]) aheadActs).get
      aheadActs_runs) 1 := by
    refine ⟨_, List.getElem?_eq_getElem (by decide +kernel), by decide +kernel⟩
  have processed := sound saving 8 (by decide +kernel) (by decide +kernel) (by decide +kernel)
  exact absurd processed (by decide +kernel)

end SpiderFrame.Crawl
