import SpiderFrame.Nested.StartUrl

/-!
# One user at a time

Every step keeps `StartInv` when a parent assigns only on an unused object. A run frees or
renews only its own pool; what another run relies on lies in the pool of that run's parent,
which is on another object, so no string in use is freed.
-/

namespace SpiderFrame.Nested
open SpiderFrame.Base SpiderFrame.Conf

variable {w w' : Spiders} {k : Nat}

theorem StartInv.used_of_live (inv : StartInv w) {j o : Nat} (h : Live (w.runs j))
    (on : (w.runs j).obj = o) : ¬ Unused w o := fun unused =>
  (unused j (inv.live_below h)).1 h on

theorem StartInv.used_of_pending (inv : StartInv w) {i o : Nat} {url : CString}
    (h : pending (w.runs i) = some (o, url)) : ¬ Unused w o := fun unused =>
  (unused i (inv.live_below (Live.of_pending h))).2 (by rw [h]; rfl)

/-! ## Steps that start no run -/

/-- A step of the live run `k` that starts no run and takes at most an unused object. -/
structure OneRun (w w' : Spiders) (k : Nat) : Prop where
  live : Live (w.runs k)
  ended : ∀ j, (w.runs k).phase = .wait j → ¬ Live (w.runs j)
  other : ∀ i, i ≠ k → w'.runs i = w.runs i
  obj : ∀ i, (w'.runs i).obj = (w.runs i).obj
  url : ∀ i, (w'.runs i).url = (w.runs i).url
  pended : ∀ i u, pending (w'.runs i) = some u →
    pending (w.runs i) = some u ∨ i = k ∧ Unused w u.1
  runCnt : w'.runCnt = w.runCnt

theorem oneRun_of {phase : Phase}
    (runs : w'.runs = Function.update w.runs k { w.runs k with phase := phase })
    (runCnt : w'.runCnt = w.runCnt) (live : Live (w.runs k))
    (ended : ∀ j, (w.runs k).phase = .wait j → ¬ Live (w.runs j))
    (pend : ∀ u, pending { w.runs k with phase := phase } = some u →
      pending (w.runs k) = some u ∨ Unused w u.1) : OneRun w w' k := by
  have self : w'.runs k = { w.runs k with phase := phase } := by
    rw [runs, Function.update_self]
  have other : ∀ i, i ≠ k → w'.runs i = w.runs i := fun i ne => by
    rw [runs, Function.update_of_ne ne]
  refine ⟨live, ended, other, fun i => ?_, fun i => ?_, fun i u h => ?_, runCnt⟩
  · by_cases same : i = k
    · rw [same, self]
    · rw [other i same]
  · by_cases same : i = k
    · rw [same, self]
    · rw [other i same]
  · by_cases same : i = k
    · rw [same, self] at h
      rw [same]
      exact (pend u h).imp_right fun unused => ⟨rfl, unused⟩
    · rw [other i same] at h
      exact .inl h

theorem OneRun.was (step : OneRun w w' k) {i : Nat} (alive : Live (w'.runs i)) :
    Live (w.runs i) := by
  by_cases same : i = k
  · rw [same]
    exact step.live
  · rwa [← step.other i same]

theorem OneRun.exclusive (step : OneRun w w' k) (inv : StartInv w) : Exclusive w' := by
  intro i j li lj ne
  rw [step.obj, step.obj]
  exact inv.distinct i j (step.was li) (step.was lj) ne

theorem OneRun.apart (step : OneRun w w' k) (inv : StartInv w) {i j o : Nat} {u : CString}
    (hi : pending (w'.runs i) = some (o, u)) (lj : Live (w'.runs j)) : (w'.runs j).obj ≠ o := by
  rw [step.obj]
  obtain old | ⟨-, unused⟩ := step.pended i _ hi
  · exact inv.apart i j o u old (step.was lj)
  · exact fun on => inv.used_of_live (step.was lj) on unused

theorem OneRun.single (step : OneRun w w' k) (inv : StartInv w) {i j o : Nat} {u u' : CString}
    (hi : pending (w'.runs i) = some (o, u)) (hj : pending (w'.runs j) = some (o, u')) : i = j := by
  obtain oldi | ⟨rfl, unused⟩ := step.pended i _ hi
  · obtain oldj | ⟨rfl, unused⟩ := step.pended j _ hj
    · exact inv.single i j o u u' oldi oldj
    · exact absurd unused (inv.used_of_pending oldi)
  · obtain oldj | ⟨rfl, -⟩ := step.pended j _ hj
    · exact absurd unused (inv.used_of_pending oldj)
    · rfl

/-- The invariant is kept, if what the other runs own is. -/
theorem OneRun.keep (step : OneRun w w' k) (inv : StartInv w)
    (own : ∀ o url, pending (w'.runs k) = some (o, url) → Owns w' o url (w.runs k).obj)
    (others : ∀ i o url, i ≠ k → Live (w.runs i) → ¬ Unused w o → Owns w o url (w.runs i).obj →
      Owns w' o url (w.runs i).obj)
    (pools : ∀ a b pool, (w'.objects a).pool = some pool → (w'.objects b).pool = some pool → a = b)
    (poolsBelow : ∀ a pool, (w'.objects a).pool = some pool → pool < w'.poolCnt)
    (fetched : FetchesOwn w') : StartInv w' where
  distinct := step.exclusive inv
  apart i j o u := step.apart inv
  single i j o u u' := step.single inv
  pools := pools
  poolsBelow := poolsBelow
  pendingOwn i o u h := by
    rw [step.obj]
    by_cases same : i = k
    · rw [same] at h ⊢
      exact own o u h
    · rw [step.other i same] at h
      exact others i o u same (Live.of_pending h) (inv.used_of_pending h) (inv.pendingOwn i o u h)
  nestedOwn j u lj hu := by
    rw [step.url] at hu
    rw [step.obj]
    obtain ⟨i, waits, owns⟩ := inv.nestedOwn j u (step.was lj) hu
    have ne : i ≠ k := by
      rintro rfl
      exact step.ended j waits (step.was lj)
    refine ⟨i, by rw [step.other i ne, waits], ?_⟩
    rw [step.obj]
    exact others i _ u ne (Live.of_wait waits) (inv.used_of_live (step.was lj) rfl) owns
  fetched := fetched
  fresh j above := by
    have runCnt := step.runCnt
    have below := inv.live_below step.live
    rw [step.other j (by omega)]
    exact inv.fresh j (by omega)

/-- A step of the run `k` that starts no run keeps the invariant, if it takes only an unused
object and keeps what the other runs own. -/
theorem StartInv.keep (inv : StartInv w) {phase : Phase}
    (runs : w'.runs = Function.update w.runs k { w.runs k with phase := phase })
    (runCnt : w'.runCnt = w.runCnt) (live : Live (w.runs k))
    (ended : ∀ j, (w.runs k).phase = .wait j → ¬ Live (w.runs j))
    (pend : ∀ u, pending { w.runs k with phase := phase } = some u →
      pending (w.runs k) = some u ∨ Unused w u.1)
    (own : ∀ o url, pending { w.runs k with phase := phase } = some (o, url) →
      Owns w' o url (w.runs k).obj)
    (others : ∀ i o url, i ≠ k → Live (w.runs i) → ¬ Unused w o → Owns w o url (w.runs i).obj →
      Owns w' o url (w.runs i).obj)
    (pools : ∀ a b pool, (w'.objects a).pool = some pool → (w'.objects b).pool = some pool → a = b)
    (poolsBelow : ∀ a pool, (w'.objects a).pool = some pool → pool < w'.poolCnt)
    (fetched : FetchesOwn w') : StartInv w' := by
  have self : w'.runs k = { w.runs k with phase := phase } := by
    rw [runs, Function.update_self]
  refine (oneRun_of runs runCnt live ended pend).keep inv (fun o url h => own o url ?_) others pools
    poolsBelow fetched
  rwa [self] at h

/-- Only the phase of one run changes. -/
theorem StartInv.enter (inv : StartInv w) {phase : Phase} (live : Live (w.runs k))
    (ended : ∀ j, (w.runs k).phase = .wait j → ¬ Live (w.runs j))
    (pend : ∀ u, pending { w.runs k with phase := phase } = some u → pending (w.runs k) = some u)
    (runs : w'.runs = (w.enter k phase).runs) (runCnt : w'.runCnt = w.runCnt)
    (objects : w'.objects = w.objects) (strings : w'.strings = w.strings)
    (stringCnt : w'.stringCnt = w.stringCnt) (poolCnt : w'.poolCnt = w.poolCnt)
    (fetched : w'.fetched = w.fetched) : StartInv w' := by
  have same : ∀ o url s, Owns w o url s → Owns w' o url s := fun o url s h =>
    h.frame (by rw [objects]) (by rw [objects]) (Nat.le_of_eq stringCnt.symm)
      fun p _ _ => by rw [strings]
  refine inv.keep runs runCnt live ended (fun u h => .inl (pend u h))
    (fun o url h => same o url _ (inv.pendingOwn k o url (pend _ h)))
    (fun i o url _ _ _ => same o url _) ?_ ?_ ?_
  · rw [objects]
    exact inv.pools
  · rw [objects, poolCnt]
    exact inv.poolsBelow
  · rw [FetchesOwn, fetched]
    exact inv.fetched

/-- Another live run's pool is another pool. -/
theorem StartInv.pool_ne (inv : StartInv w) {i : Nat} (hi : Live (w.runs i)) (hk : Live (w.runs k))
    (ne : i ≠ k) {pool : Nat} (own : (w.objects (w.runs i).obj).pool = some pool) :
    (w.objects (w.runs k).obj).pool ≠ some pool :=
  fun same => inv.distinct i k hi hk ne (inv.pools _ _ pool own same)

theorem StartInv.read (inv : StartInv w) (at_ : (w.runs k).phase = .loop) (pooled : Bool) :
    StartInv (w.read k pooled) := by
  have live : Live (w.runs k) := by rw [Live, at_]; rfl
  refine inv.keep rfl rfl live (fun j waits => ?_) (fun u h => ?_) (fun o url h => ?_)
    (fun i o url ne hi _ owns => ?_) ?_ ?_ ?_
  · rw [at_] at waits
    cases waits
  · cases pooled <;> cases h
  · cases pooled <;> cases h
  · refine owns.frame ?_ ?_ (Nat.le_refl _) fun p _ own => ?_
    · by_cases same : o = (w.runs k).obj
      · simp [Spiders.read, same]
      · simp [Spiders.read, Function.update_of_ne same]
    · simp [Spiders.read, Function.update_of_ne (inv.distinct i k hi live ne)]
    · exact if_neg (inv.pool_ne hi live ne own)
  · intro a b pool ha hb
    simp only [Spiders.read, Function.update_apply] at ha hb
    split at ha <;> split at hb
    · rename_i ea eb
      rw [ea, eb]
    · cases pooled
      · cases ha
      · cases ha
        exact absurd (inv.poolsBelow b _ hb) (Nat.lt_irrefl _)
    · cases pooled
      · cases hb
      · cases hb
        exact absurd (inv.poolsBelow a _ ha) (Nat.lt_irrefl _)
    · exact inv.pools a b pool ha hb
  · intro a pool ha
    simp only [Spiders.read, Function.update_apply] at ha ⊢
    split at ha
    · cases pooled
      · cases ha
      · cases ha
        exact Nat.lt_succ_self _
    · exact Nat.lt_succ_of_lt (inv.poolsBelow a pool ha)
  · intro e he
    obtain old | new := List.mem_append.1 he
    · exact inv.fetched e old
    · cases pooled with
      | false => cases new
      | true =>
        obtain ⟨url, hurl, rfl⟩ := Option.map_eq_some_iff.1 (Option.mem_toList.1 new)
        obtain ⟨i, -, owns⟩ := inv.nestedOwn k url live hurl
        exact owns.text

/-- A parent frees the string in its own pool after the run it waited for. -/
theorem StartInv.free (inv : StartInv w) {r : Nat} (at_ : (w.runs k).phase = .wait r)
    (ended : (w.runs r).phase = .done) (starturl : Option Nat) : StartInv { w.enter k .page with
      strings := w.pfree (w.objects (w.runs k).obj).pool starturl } := by
  have live : Live (w.runs k) := Live.of_wait at_
  refine inv.keep rfl rfl live (fun j waits => ?_) (fun u h => by cases h)
    (fun o url h => by cases h) (fun i o url ne hi _ owns => ?_) inv.pools inv.poolsBelow
    inv.fetched
  · rw [at_] at waits
    cases waits
    rw [Live, ended]
    decide
  · refine owns.frame rfl rfl (Nat.le_refl _) fun p _ own => ?_
    exact if_neg fun both => inv.pool_ne hi live ne own both.2

theorem StartInv.assign (inv : StartInv w) {o : Nat} {entry : Entry} {found : Bool} {pool : Nat}
    (at_ : (w.runs k).phase = .assign o entry found) (unused : Unused w o)
    (mine : (w.objects (w.runs k).obj).pool = some pool) :
    StartInv (w.assign k o entry found pool) := by
  have pools : ∀ a, ((w.assign k o entry found pool).objects a).pool = (w.objects a).pool := by
    intro a
    by_cases same : a = o
    · simp [Spiders.assign, same]
    · simp [Spiders.assign, Function.update_of_ne same]
  have claim : pending { w.runs k with
      phase := if found then .start o entry.url else .insert o entry } = some (o, entry.url) := by
    cases found <;> rfl
  refine inv.keep rfl rfl (by rw [Live, at_]; rfl) (fun j waits => ?_) (fun u h => ?_)
    (fun o' url h => ?_) (fun i o' url _ _ used owns => ?_) ?_ ?_ inv.fetched
  · rw [at_] at waits
    cases waits
  · rw [claim] at h
    cases h
    exact .inr unused
  · rw [claim] at h
    cases h
    refine ⟨w.stringCnt, pool, ?_, Nat.lt_succ_self _, ?_, ?_⟩
    · simp [Spiders.assign]
    · exact Function.update_self _ _ _
    · rw [pools, mine]
  · have ne : o' ≠ o := by
      rintro rfl
      exact used unused
    refine owns.frame ?_ (pools _) (Nat.le_succ _) fun p below _ => ?_
    · simp [Spiders.assign, Function.update_of_ne ne]
    · exact Function.update_of_ne (Nat.ne_of_lt below) _ _
  · intro a b P ha hb
    rw [pools] at ha hb
    exact inv.pools a b P ha hb
  · intro a P ha
    rw [pools] at ha
    exact inv.poolsBelow a P ha

/-! ## The start of a run -/

/-- The run `k` starts a run on the object it has claimed, and waits for it. -/
structure Starts (w w' : Spiders) (k o : Nat) (url : CString) : Prop where
  at_ : (w.runs k).phase = .start o url
  old : k ≠ w.runCnt
  new : w'.runs w.runCnt = ⟨o, some url, .loop⟩
  self : w'.runs k = { w.runs k with phase := .wait w.runCnt }
  other : ∀ i, i ≠ k → i ≠ w.runCnt → w'.runs i = w.runs i

section

variable {o : Nat} {url : CString}

theorem StartInv.starts (inv : StartInv w) (at_ : (w.runs k).phase = .start o url) :
    Starts w (w.start k o url) k o url := by
  have live : Live (w.runs k) := by rw [Live, at_]; rfl
  have old : k ≠ w.runCnt := Nat.ne_of_lt (inv.live_below live)
  refine ⟨at_, old, Function.update_self _ _ _, ?_, fun i ni nr => ?_⟩
  · simp [Spiders.start, Function.update_of_ne old]
  · simp [Spiders.start, Function.update_of_ne ni, Function.update_of_ne nr]

variable {i : Nat}

theorem Starts.live (step : Starts w w' k o url) : Live (w.runs k) := by
  rw [Live, step.at_]
  rfl

theorem Starts.claims (step : Starts w w' k o url) : pending (w.runs k) = some (o, url) := by
  simp [pending, step.at_]

theorem Starts.obj (step : Starts w w' k o url) (nr : i ≠ w.runCnt) :
    (w'.runs i).obj = (w.runs i).obj := by
  by_cases same : i = k
  · rw [same, step.self]
  · rw [step.other i same nr]

theorem Starts.urlOf (step : Starts w w' k o url) (nr : i ≠ w.runCnt) :
    (w'.runs i).url = (w.runs i).url := by
  by_cases same : i = k
  · rw [same, step.self]
  · rw [step.other i same nr]

theorem Starts.was (step : Starts w w' k o url) (nr : i ≠ w.runCnt) (alive : Live (w'.runs i)) :
    Live (w.runs i) := by
  by_cases same : i = k
  · rw [same]
    exact step.live
  · rwa [step.other i same nr] at alive

/-- The claim on the object is gone. -/
theorem Starts.pended (step : Starts w w' k o url) {u : Nat × CString}
    (h : pending (w'.runs i) = some u) : i ≠ k ∧ i ≠ w.runCnt ∧ pending (w.runs i) = some u := by
  by_cases nr : i = w.runCnt
  · rw [nr, step.new] at h
    cases h
  · by_cases same : i = k
    · rw [same, step.self] at h
      cases h
    · rw [step.other i same nr] at h
      exact ⟨same, nr, h⟩

theorem Starts.exclusive (step : Starts w w' k o url) (inv : StartInv w) : Exclusive w' := by
  intro i j hi hj ne
  by_cases ri : i = w.runCnt
  · have rj : j ≠ w.runCnt := fun e => ne (ri.trans e.symm)
    rw [ri, step.new, step.obj rj]
    exact (inv.apart k j o url step.claims (step.was rj hj)).symm
  · by_cases rj : j = w.runCnt
    · rw [rj, step.new, step.obj ri]
      exact inv.apart k i o url step.claims (step.was ri hi)
    · rw [step.obj ri, step.obj rj]
      exact inv.distinct i j (step.was ri hi) (step.was rj hj) ne

theorem Starts.apart (step : Starts w w' k o url) (inv : StartInv w) {j o' : Nat}
    {url' : CString} (hi : pending (w'.runs i) = some (o', url')) (hj : Live (w'.runs j)) :
    (w'.runs j).obj ≠ o' := by
  obtain ⟨ne, -, hi⟩ := step.pended hi
  by_cases rj : j = w.runCnt
  · rw [rj, step.new]
    rintro rfl
    exact ne (inv.single i k o url' url hi step.claims)
  · rw [step.obj rj]
    exact inv.apart i j o' url' hi (step.was rj hj)

/-- The object that gets no pool. -/
theorem start_pool {a P : Nat} (h : ((w.start k o url).objects a).pool = some P) :
    a ≠ o ∧ (w.objects a).pool = some P := by
  have ne : a ≠ o := by
    rintro rfl
    simp [Spiders.start] at h
  refine ⟨ne, ?_⟩
  simpa [Spiders.start, Function.update_of_ne ne] using h

/-- The object has no run on it, so no parent's pool is lost. -/
theorem StartInv.start_owns (inv : StartInv w) (claims : pending (w.runs k) = some (o, url))
    {o' : Nat} {url' : CString} (hi : Live (w.runs i)) (owns : Owns w o' url' (w.runs i).obj) :
    Owns (w.start k o url) o' url' (w.runs i).obj := by
  refine owns.frame ?_ ?_ (Nat.le_refl _) fun _ _ _ => rfl
  · by_cases same : o' = o
    · simp [Spiders.start, same]
    · simp [Spiders.start, Function.update_of_ne same]
  · simp [Spiders.start, Function.update_of_ne (inv.apart k i o url claims hi)]

/-- A new run owns its start URL in the pool of its parent, and the others as before. -/
theorem StartInv.start_nested (inv : StartInv w) (at_ : (w.runs k).phase = .start o url) {j : Nat}
    {url' : CString} (hj : Live ((w.start k o url).runs j))
    (hu : ((w.start k o url).runs j).url = some url') :
    ∃ i, ((w.start k o url).runs i).phase = .wait j ∧
      Owns (w.start k o url) ((w.start k o url).runs j).obj url'
        ((w.start k o url).runs i).obj := by
  have step := inv.starts at_
  by_cases rj : j = w.runCnt
  · rw [rj, step.new] at hu ⊢
    cases hu
    refine ⟨k, by rw [step.self], ?_⟩
    rw [step.obj step.old]
    exact inv.start_owns step.claims step.live (inv.pendingOwn k o url step.claims)
  · rw [step.urlOf rj] at hu
    obtain ⟨i, waits, owns⟩ := inv.nestedOwn j url' (step.was rj hj) hu
    have ne : i ≠ k := by
      rintro rfl
      rw [at_] at waits
      cases waits
    have nr : i ≠ w.runCnt := Nat.ne_of_lt (inv.live_below (Live.of_wait waits))
    refine ⟨i, by rw [step.other i ne nr, waits], ?_⟩
    rw [step.obj nr, step.obj rj]
    exact inv.start_owns step.claims (Live.of_wait waits) owns

theorem StartInv.start (inv : StartInv w) (at_ : (w.runs k).phase = .start o url) :
    StartInv (w.start k o url) := by
  have step := inv.starts at_
  constructor
  · exact step.exclusive inv
  · exact fun i j o' url' => step.apart inv
  · intro i j o' u u' hi hj
    exact inv.single i j o' u u' (step.pended hi).2.2 (step.pended hj).2.2
  · intro a b P ha hb
    exact inv.pools a b P (start_pool ha).2 (start_pool hb).2
  · intro a P ha
    exact inv.poolsBelow a P (start_pool ha).2
  · intro i o' url' hi
    obtain ⟨-, nr, hi⟩ := step.pended hi
    rw [step.obj nr]
    exact inv.start_owns step.claims (Live.of_pending hi) (inv.pendingOwn i o' url' hi)
  · exact fun j url' => inv.start_nested at_
  · exact inv.fetched
  · intro j above
    have : w.runCnt + 1 ≤ j := above
    have := inv.live_below step.live
    rw [step.other j (by omega) (by omega)]
    exact inv.fresh j (by omega)

end

/-! ## Every step -/

/-- **A step keeps the invariant, if a parent assigns only on an unused object.** -/
theorem StartInv.step {act : Nat × Act} (inv : StartInv w) (careful : Careful w act)
    (h : Nested.step w act = some w') : StartInv w' := by
  obtain ⟨k, act⟩ := act
  unfold Nested.step at h
  dsimp only at h
  split at h
  · rename_i pooled at_
    cases h
    exact inv.read at_ pooled
  · rename_i at_
    cases h
    exact inv.enter (by rw [Live, at_]; rfl) (by simp [at_]) (fun _ h => by cases h)
      rfl rfl rfl rfl rfl rfl rfl
  · rename_i at_
    cases h
    exact inv.enter (by rw [Live, at_]; rfl) (by simp [at_]) (fun _ h => by cases h)
      rfl rfl rfl rfl rfl rfl rfl
  · rename_i entry at_
    cases h
    unfold Spiders.search
    dsimp only
    split
    · exact inv.enter (by rw [Live, at_]; rfl) (by simp [at_]) (fun _ h => by cases h)
        rfl rfl rfl rfl rfl rfl rfl
    · exact inv.enter (by rw [Live, at_]; rfl) (by simp [at_]) (fun _ h => by cases h)
        rfl rfl rfl rfl rfl rfl rfl
  · rename_i o entry found at_
    obtain ⟨pool, mine, rfl⟩ := Option.map_eq_some_iff.1 h
    exact inv.assign at_ (careful o (by simp [assigns, at_])) mine
  · rename_i o entry at_
    cases h
    exact inv.enter (by rw [Live, at_]; rfl) (by simp [at_])
      (fun u h => by rw [pending, at_]; exact h) rfl rfl rfl rfl rfl rfl rfl
  · rename_i o url at_
    cases h
    exact inv.start at_
  · rename_i r at_
    split at h
    · rename_i ended
      cases h
      exact inv.free at_ ended _
    · cases h
  · cases h

theorem startInv_start (n : Nat) : StartInv (startSpiders n) := by
  have idle : ∀ i, pending ((startSpiders n).runs i) = none := by
    intro i
    simp only [startSpiders]
    split <;> rfl
  constructor
  · exact fun i j _ _ ne => ne
  · intro i j o url h
    rw [idle] at h
    cases h
  · intro i j o url url' h
    rw [idle] at h
    cases h
  · intro a b pool h
    cases h
  · intro a pool h
    cases h
  · intro i o url h
    rw [idle] at h
    cases h
  · intro j url _ h
    cases h
  · intro e he
    cases he
  · intro j above
    exact if_neg (Nat.not_lt.2 above)

/-- **While parents assign only on unused objects, every nested run reads its own start URL, and
no two runs are on one object.** -/
theorem nested_runs_faithful {n : Nat} {acts : List (Nat × Act)}
    (careful : Along step Careful (startSpiders n) acts)
    (run : exec step (startSpiders n) acts = some w) : FetchesOwn w ∧ Exclusive w := by
  have inv : StartInv w :=
    (careful.reach run).invariant (startInv_start n) fun _ _ _ _ inv allowed taken =>
      inv.step allowed taken
  exact ⟨inv.fetched, inv.distinct⟩

/-! ## Two parents, one configuration file -/

/-- The first parent runs its entry, and then the second parent finds the same object. -/
def inTurn : List (Nat × Act) :=
  [(0, .read true), (1, .read true), (0, .search ⟨.letter 5, .letter 0⟩), (0, .go), (0, .go),
    (0, .go), (2, .read true), (2, .next), (2, .leave), (0, .go),
    (1, .search ⟨.letter 5, .letter 1⟩), (1, .go), (1, .go), (3, .read true)]

theorem inTurn_runs : (exec step (startSpiders 2) inTurn).isSome := by decide +kernel

theorem nested_runs_faithful_inTurn :
    FetchesOwn ((exec step (startSpiders 2) inTurn).get inTurn_runs) ∧
      Exclusive ((exec step (startSpiders 2) inTurn).get inTurn_runs) :=
  nested_runs_faithful (by decide +kernel) (Option.some_get inTurn_runs).symm

/-- The second parent assigns while the first is about to start the run. -/
def overwriting : List (Nat × Act) :=
  [(0, .read true), (1, .read true), (0, .search ⟨.letter 5, .letter 0⟩), (0, .go), (0, .go),
    (1, .search ⟨.letter 5, .letter 1⟩), (1, .go), (0, .go), (2, .read true)]

theorem overwriting_runs : (exec step (startSpiders 2) overwriting).isSome := by decide +kernel

/-- A nested run fetches the start URL of another parent. -/
theorem nested_fetches_other : ¬ ∀ (n : Nat) (acts : List (Nat × Act)) (w : Spiders),
    exec step (startSpiders n) acts = some w → FetchesOwn w ∧ Exclusive w := by
  intro claim
  have own := (claim 2 _ _ (Option.some_get overwriting_runs).symm).1
  have log : ((exec step (startSpiders 2) overwriting).get overwriting_runs).fetched =
      [(.letter 0, some (.letter 1))] := by decide +kernel
  rw [FetchesOwn, log] at own
  exact absurd (own _ (List.mem_singleton.2 rfl)) (by decide)

end SpiderFrame.Nested
