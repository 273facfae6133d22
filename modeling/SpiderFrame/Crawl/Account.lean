import SpiderFrame.Crawl.Move

/-!
# What has become of each scan

A spider holds a record from its scan until it has performed the policies or gives the
record up, because `ngx_create_pool` failed or, with `url_feedback`, the fetch. At any time
every scan is either held, by the spider that made it, or in the log of records that are
done with, and there only once (`Account`).
-/

namespace SpiderFrame.Crawl
open SpiderFrame.Base SpiderFrame.Queue

variable {sticky : Bool} {conf : Conf} {init : List Record} {skipline : Int} {levels : List Int}
  {c : World}

/-- The spider is between a scan and the end of its record. -/
def holding (s : Spider) : Bool :=
  match s.pc with
  | .pool | .clear | .fetch | .links _ | .write _ _ | .policies => true
  | _ => false

/-- Some spider holds the record of the scan `n`. -/
def World.Held (c : World) (n : Nat) : Prop :=
  ∃ (i : Nat) (s : Spider), c.spiders[i]? = some s ∧ holding s = true ∧ s.record = some n

/-- Every scan is held or done with. -/
structure Account (c : World) : Prop where
  last : ∀ (i : Nat) (s : Spider) n, c.spiders[i]? = some s → s.record = some n →
    c.shared.log.scanned[n]? = some ⟨i, s.level, s.url⟩
  known : ∀ (i : Nat) (s : Spider), c.spiders[i]? = some s → holding s = true → ∃ n, s.record = some n
  once : (c.shared.log.ended.map Prod.fst).Nodup
  bound : ∀ e ∈ c.shared.log.ended, e.1 < c.shared.log.scanned.length
  open_ : ∀ (i : Nat) (s : Spider) n, c.spiders[i]? = some s → holding s = true → s.record = some n →
    n ∉ c.shared.log.ended.map Prod.fst
  total : ∀ n, n < c.shared.log.scanned.length →
    n ∈ c.shared.log.ended.map Prod.fst ∨ c.Held n

/-- What a move does to the record of its spider. -/
inductive Effect (i : Nat) (sh sh' : Shared) (s s' : Spider) : Prop
  | scans (free : holding s = false) (holds : holding s' = true)
      (record : s'.record = some sh.log.scanned.length)
      (scanned : sh'.log.scanned = sh.log.scanned ++ [⟨i, s'.level, s'.url⟩])
      (ended : sh'.log.ended = sh.log.ended)
  | ends (processed : Bool) (holds : holding s = true) (free : holding s' = false)
      (record : s'.record = s.record) (fields : s'.level = s.level ∧ s'.url = s.url)
      (scanned : sh'.log.scanned = sh.log.scanned)
      (ended : sh'.log.ended = (finish s processed sh.log).ended)
  | keeps (same : holding s' = holding s) (record : s'.record = s.record)
      (fields : s'.level = s.level ∧ s'.url = s.url)
      (scanned : sh'.log.scanned = sh.log.scanned) (ended : sh'.log.ended = sh.log.ended)

/-- Most moves only bring the spider to another place. -/
theorem Effect.moved {i : Nat} {sh : Shared} {s : Spider} {pc : Pc} {eof : Bool}
    (same : holding { s with pc := pc, eof := eof } = holding s) :
    Effect i sh sh s { s with pc := pc, eof := eof } :=
  .keeps same rfl ⟨rfl, rfl⟩ rfl rfl

theorem move_effect {spiders : List Spider} {i : Nat} {sh sh' : Shared} {s s' : Spider} {act : Act}
    (m : Move conf init skipline spiders i sh s act sh' s') : Effect i sh sh' s s' := by
  cases m with
  | scan at_ => exact .scans (by simp [holding, at_]) rfl rfl rfl rfl
  | poolFailed at_ => exact .ends false (by simp [holding, at_]) rfl rfl ⟨rfl, rfl⟩ (by simp) rfl
  | fetchFailed at_ => exact .ends false (by simp [holding, at_]) rfl rfl ⟨rfl, rfl⟩ (by simp) rfl
  | policies at_ => exact .ends true (by simp [holding, at_]) rfl rfl ⟨rfl, rfl⟩ (by simp) rfl
  | checkpoint at_ =>
    apply Effect.moved
    cases sfDoCheckpoint sh.line <;> simp [holding, at_]
  | scanEof at_ => exact .keeps (by simp [holding, at_]) rfl ⟨rfl, rfl⟩ rfl rfl
  | sawEof at_ => exact .moved (by simp [holding, at_])
  | pool at_ => exact .moved (by simp [holding, at_])
  | clear at_ => exact .moved (by simp [holding, at_])
  | fetch at_ => exact .moved (by simp [holding, at_])
  | linksDone at_ => exact .moved (by simp [holding, at_])
  | offerNew url todo at_ => exact .keeps (by simp [holding, at_]) rfl ⟨rfl, rfl⟩ rfl rfl
  | offerKnown url todo at_ => exact .keeps (by simp [holding, at_]) rfl ⟨rfl, rfl⟩ rfl rfl
  | write url todo at_ => exact .keeps (by simp [holding, at_]) rfl ⟨rfl, rfl⟩ rfl rfl
  | limitReached at_ => exact .moved (by simp [holding, at_])
  | limitPassed at_ => exact .moved (by simp [holding, at_])
  | setEof at_ => exact .moved (by simp [holding, at_])
  | save at_ => exact .keeps (by simp [holding, at_]) rfl ⟨rfl, rfl⟩ rfl rfl
  | leaveByLimit at_ => exact .moved (by simp [holding, at_])
  | outer at_ => exact .moved (by simp [holding, at_])
  | leaveByEof k at_ => exact .moved (by simp [holding, at_])
  | otherEof k other at_ => exact .moved (by simp [holding, at_])
  | otherBusy k other at_ => exact .moved (by simp [holding, at_])

theorem account_start : Account (start sticky init skipline levels) := by
  obtain ⟨table, -, shared⟩ := start_shared sticky init skipline levels
  have fresh : ∀ (i : Nat) (s : Spider), (start sticky init skipline levels).spiders[i]? = some s →
      s.record = none ∧ holding s = false := by
    intro i s hs
    obtain ⟨level, -, rfl⟩ : ∃ level, levels[i]? = some level ∧ startSpider level = s := by
      simpa [start] using hs
    exact ⟨rfl, rfl⟩
  refine ⟨fun i s n hs hn => ?_, fun i s hs holds => ?_, by simp [shared], by simp [shared],
    fun i s n hs _ hn => ?_, by simp [shared]⟩
  · rw [(fresh i s hs).1] at hn; cases hn
  · rw [(fresh i s hs).2] at holds; cases holds
  · rw [(fresh i s hs).1] at hn; cases hn

section Move

variable {i : Nat} {sh' : Shared} {s s' : Spider}

/-- Two spiders never hold one record. -/
theorem Account.holder (h : Account c) {j : Nat} {t : Spider} {n : Nat}
    (here : c.spiders[i]? = some s) (hn : s.record = some n) (there : c.spiders[j]? = some t)
    (hn' : t.record = some n) : j = i := by
  have one := h.last i s n here hn
  rw [h.last j t n there hn', Option.some_inj, Scan.mk.injEq] at one
  exact one.1

/-- The spider that moves, after the move. -/
theorem set_self (here : c.spiders[i]? = some s) : (c.spiders.set i s')[i]? = some s' :=
  List.getElem?_set_self (List.getElem?_eq_some_iff.1 here).1

/-- What another spider holds is still held after the move. -/
theorem held_of_other {j : Nat} {t : Spider} {n : Nat} (other : j ≠ i)
    (there : c.spiders[j]? = some t) (holds : holding t = true) (record : t.record = some n) :
    World.Held ⟨sh', c.spiders.set i s'⟩ n := by
  refine ⟨j, t, ?_, holds, record⟩
  rw [List.getElem?_set_ne (Ne.symm other)]
  exact there

theorem Account.scans (h : Account c) (here : c.spiders[i]? = some s) (free : holding s = false)
    (holds : holding s' = true) (record : s'.record = some c.shared.log.scanned.length)
    (scanned : sh'.log.scanned = c.shared.log.scanned ++ [⟨i, s'.level, s'.url⟩])
    (ended : sh'.log.ended = c.shared.log.ended) : Account ⟨sh', c.spiders.set i s'⟩ := by
  have older : ∀ {n}, n ∈ c.shared.log.ended.map Prod.fst → n < c.shared.log.scanned.length := by
    intro n hn
    obtain ⟨e, he, rfl⟩ := List.mem_map.1 hn
    exact h.bound e he
  refine ⟨?_, ?_, by rw [ended]; exact h.once, ?_, ?_, ?_⟩
  · intro j t n ht hn
    rw [scanned]
    rcases getElem?_set_cases ht with ⟨rfl, rfl⟩ | ⟨-, ht⟩
    · rw [record, Option.some_inj] at hn
      subst hn
      simp
    · have old := h.last j t n ht hn
      rw [List.getElem?_append_left (List.getElem?_eq_some_iff.1 old).1]
      exact old
  · intro j t ht holds'
    rcases getElem?_set_cases ht with ⟨rfl, rfl⟩ | ⟨-, ht⟩
    · exact ⟨_, record⟩
    · exact h.known j t ht holds'
  · intro e he
    have := h.bound e (ended ▸ he)
    rw [scanned, List.length_append]
    omega
  · intro j t n ht holds' hn
    rw [ended]
    rcases getElem?_set_cases ht with ⟨rfl, rfl⟩ | ⟨-, ht⟩
    · rw [record, Option.some_inj] at hn
      intro done
      have := older done
      omega
    · exact h.open_ j t n ht holds' hn
  · intro n hn
    rw [scanned, List.length_append, List.length_singleton] at hn
    rw [ended]
    by_cases new : n = c.shared.log.scanned.length
    · exact .inr ⟨i, s', set_self here, holds, new ▸ record⟩
    · rcases h.total n (by omega) with done | ⟨j, t, ht, holds', hn'⟩
      · exact .inl done
      · have other : j ≠ i := by
          rintro rfl
          rw [here, Option.some_inj] at ht
          rw [← ht, free] at holds'
          cases holds'
        exact .inr (held_of_other other ht holds' hn')

theorem Account.ends (h : Account c) (here : c.spiders[i]? = some s) {processed : Bool}
    (holds : holding s = true) (free : holding s' = false) (record : s'.record = s.record)
    (fields : s'.level = s.level ∧ s'.url = s.url)
    (scanned : sh'.log.scanned = c.shared.log.scanned)
    (ended : sh'.log.ended = (finish s processed c.shared.log).ended) :
    Account ⟨sh', c.spiders.set i s'⟩ := by
  obtain ⟨n, hn⟩ := h.known i s here holds
  have grown : sh'.log.ended = c.shared.log.ended ++ [(n, processed)] := by
    rw [ended, finish, hn]
  have last := h.last i s n here hn
  refine ⟨?_, ?_, ?_, ?_, ?_, ?_⟩
  · intro j t k ht hk
    rw [scanned]
    rcases getElem?_set_cases ht with ⟨rfl, rfl⟩ | ⟨-, ht⟩
    · rw [fields.1, fields.2]
      exact h.last j s k here (record ▸ hk)
    · exact h.last j t k ht hk
  · intro j t ht holds'
    rcases getElem?_set_cases ht with ⟨rfl, rfl⟩ | ⟨-, ht⟩
    · rw [free] at holds'; cases holds'
    · exact h.known j t ht holds'
  · rw [grown, List.map_append, List.nodup_append]
    refine ⟨h.once, List.nodup_singleton n, fun a ha b hb e => ?_⟩
    have same : b = n := by simpa using hb
    exact h.open_ i s n here holds hn (by rw [← same, ← e]; exact ha)
  · intro e he
    rw [scanned]
    rw [grown, List.mem_append, List.mem_singleton] at he
    rcases he with old | rfl
    · exact h.bound e old
    · exact (List.getElem?_eq_some_iff.1 last).1
  · intro j t k ht holds' hk
    rcases getElem?_set_cases ht with ⟨rfl, rfl⟩ | ⟨other, ht⟩
    · rw [free] at holds'; cases holds'
    · rw [grown, List.map_append, List.mem_append, List.map_singleton, List.mem_singleton, not_or]
      refine ⟨h.open_ j t k ht holds' hk, fun same => other (h.holder here hn ht ?_)⟩
      rw [hk]
      exact congrArg some same
  · intro k hk
    rw [grown, List.map_append, List.mem_append, List.map_singleton, List.mem_singleton]
    rcases h.total k (scanned ▸ hk) with done | ⟨j, t, ht, holds', hk'⟩
    · exact .inl (.inl done)
    · by_cases own : j = i
      · subst own
        rw [here, Option.some_inj] at ht
        rw [← ht, hn, Option.some_inj] at hk'
        exact .inl (.inr hk'.symm)
      · exact .inr (held_of_other own ht holds' hk')

theorem Account.keeps (h : Account c) (here : c.spiders[i]? = some s)
    (same : holding s' = holding s) (record : s'.record = s.record)
    (fields : s'.level = s.level ∧ s'.url = s.url)
    (scanned : sh'.log.scanned = c.shared.log.scanned)
    (ended : sh'.log.ended = c.shared.log.ended) : Account ⟨sh', c.spiders.set i s'⟩ := by
  refine ⟨?_, ?_, by rw [ended]; exact h.once, ?_, ?_, ?_⟩
  · intro j t n ht hn
    rw [scanned]
    rcases getElem?_set_cases ht with ⟨rfl, rfl⟩ | ⟨-, ht⟩
    · rw [fields.1, fields.2]
      exact h.last j s n here (record ▸ hn)
    · exact h.last j t n ht hn
  · intro j t ht holds
    rcases getElem?_set_cases ht with ⟨rfl, rfl⟩ | ⟨-, ht⟩
    · rw [record]
      exact h.known j s here (same ▸ holds)
    · exact h.known j t ht holds
  · intro e he
    rw [scanned]
    exact h.bound e (ended ▸ he)
  · intro j t n ht holds hn
    rw [ended]
    rcases getElem?_set_cases ht with ⟨rfl, rfl⟩ | ⟨-, ht⟩
    · exact h.open_ j s n here (same ▸ holds) (record ▸ hn)
    · exact h.open_ j t n ht holds hn
  · intro n hn
    rw [ended]
    rcases h.total n (scanned ▸ hn) with done | ⟨j, t, ht, holds, hn'⟩
    · exact .inl done
    · by_cases own : j = i
      · subst own
        rw [here, Option.some_inj] at ht
        subst ht
        exact .inr ⟨j, s', set_self here, same ▸ holds, record ▸ hn'⟩
      · exact .inr (held_of_other own ht holds hn')

end Move

/-- **Every scan is held or done with, in every state reached.** -/
theorem reach_account {C : World → Nat × Act → Prop}
    (h : Reach (step conf) C (start sticky init skipline levels) c) : Account c :=
  moves h account_start fun c i _ s sh' s' _ inv _ here m => by
    cases move_effect m with
    | scans free holds record scanned ended => exact inv.scans here free holds record scanned ended
    | ends processed holds free record fields scanned ended =>
      exact inv.ends here holds free record fields scanned ended
    | keeps same record fields scanned ended => exact inv.keeps here same record fields scanned ended

/-- A record that was given up was not processed. -/
theorem Account.not_both (h : Account c) {n : Nat} (given : (n, false) ∈ c.shared.log.ended)
    (processed : (n, true) ∈ c.shared.log.ended) : False := by
  have same := List.inj_on_of_nodup_map h.once given processed rfl
  simp at same

end SpiderFrame.Crawl
