import SpiderFrame.Base.BreadthFirst
import SpiderFrame.Crawl.Restart

/-!
# Levels are distances

A single spider that starts with seeds of level 0 visits breadth first, as far as the table
can tell URLs apart: the level of each record is the least number of links from a seed to its
URL, and `url.txt` is sorted by level.
-/

namespace SpiderFrame.Crawl
open SpiderFrame.Base SpiderFrame.Base.Worklist SpiderFrame.Base.BreadthFirst SpiderFrame.Queue

variable {sticky : Bool} {conf : Conf} {links : CString → List Url} {init : List Record}
  {skipline level : Int}
  {c : World}

/-- The URLs of the file and those offered. -/
def Shared.met (init : List Record) (sh : Shared) : List Url :=
  (sh.records init).map Record.url ++ sh.log.offered

/-- The fingerprints tell the URLs apart that have been met. -/
def Shared.Distinct (init : List Record) (sh : Shared) : Prop :=
  ∀ u ∈ sh.met init, ∀ v ∈ sh.met init, fingerprint u.str = fingerprint v.str → u = v

instance (init : List Record) (sh : Shared) : Decidable (sh.Distinct init) :=
  inferInstanceAs (Decidable (∀ u ∈ sh.met init, ∀ v ∈ sh.met init, _ → u = v))

/-- The links of a URL, as strings. -/
def linked (links : CString → List Url) (url : CString) : List CString := (links url).map Url.str

def recordUrl (r : Record) : CString := r.url.str

/-- The URLs of the records at the start. -/
def seeds (init : List Record) : List CString := init.map recordUrl

/-- Every appended URL stands in the file once. -/
theorem appended_once (h : Crawls links sticky conf init skipline level c) :
    ∀ e ∈ c.shared.log.appended, ((c.shared.records init).map Record.url).count e.2.url = 1 := by
  obtain ⟨s, -, pre, progress⟩ := reach_progress h
  obtain ⟨new, split, distinct, fresh⟩ := progress.stage.new
  have appended : c.shared.log.appended.map Prod.snd = new := List.append_cancel_left split
  intro e he
  have inNew : e.2 ∈ new := appended ▸ List.mem_map_of_mem he
  have notOld : e.2.url ∉ init.map Record.url := by
    intro old
    obtain ⟨r, hr, same⟩ := List.mem_map.1 old
    refine fresh e.2 inNew (List.mem_map.2 ⟨r, hr, ?_⟩)
    rw [recordKey, recordKey, same]
  have urls : (new.map Record.url).Nodup := by
    refine .of_map (fun u : Url => fingerprint u.str) ?_
    rw [List.map_map]
    exact distinct
  rw [split, List.map_append, List.count_append, List.count_eq_zero.2 notOld, Nat.zero_add]
  exact List.count_eq_one_of_mem urls (List.mem_map_of_mem inNew)

/-- The file is a stage of the worklist in which items are told apart by their URLs. -/
theorem stage_by_url (h : Crawls links sticky conf init 0 level c) (distinct : c.shared.Distinct init) :
    ∃ pre, Stage recordUrl (offers links) init 0 c.shared.log.ended.length pre
      (c.shared.records init) := by
  obtain ⟨s, -, pre, progress⟩ := reach_progress h
  have stage := progress.stage
  have offered := progress.offered
  rw [skipped_zero] at stage offered
  refine ⟨pre, ?_⟩
  apply stage.congr (P := fun r => r.url ∈ c.shared.met init)
  · intro x y hx hy
    constructor
    · exact fun same => congrArg Url.str (distinct x.url hx y.url hy same)
    · exact fun same => congrArg fingerprint same
  · intro r hr
    exact List.mem_append_left _ (List.mem_map_of_mem (List.mem_append_left _ hr))
  · intro m r hm here y hy
    obtain ⟨u, hu, rfl⟩ := List.mem_map.1 hy
    exact List.mem_append_right _ (offered m r hm here u hu)
  · intro y hy
    exact List.mem_append_right _ (progress.pushed y hy)

/-- **Levels are distances.** -/
theorem breadth_first_levels (zero : ∀ r ∈ init, r.level = 0)
    (h : Crawls links sticky conf init 0 level c) (distinct : c.shared.Distinct init) :
    c.shared.urlTxt = encodeAll (c.shared.records init) ∧
      (c.shared.records init).Pairwise (fun r r' => r.level ≤ r'.level) ∧
      (∀ e ∈ c.shared.log.appended,
        ((c.shared.records init).map Record.url).count e.2.url = 1) ∧
      (∀ v ∈ c.shared.visits, ∃ r ∈ c.shared.records init, v = (r.level, r.url.str)) ∧
      ∀ r ∈ c.shared.records init, ∃ d : Nat, r.level = d ∧
        IsLeast {n | Hops (linked links) (seeds init) n r.url.str} d := by
  have file := reach_file h
  obtain ⟨pre, stage⟩ := stage_by_url h distinct
  have layered : Layered recordUrl Record.level (linked links) (seeds init)
      (c.shared.records init) c.shared.log.ended.length := by
    refine layered_stage (fun r => ?_) (fun r x hx => ?_) zero stage
    · rw [offers, List.map_map]
      rfl
    · obtain ⟨u, -, rfl⟩ := List.mem_map.1 hx
      rfl
  refine ⟨file.file, layered.sorted, appended_once h, fun v hv => ?_, fun r hr => layered.least hr⟩
  obtain ⟨e, he, rfl⟩ := List.mem_map.1 hv
  obtain ⟨n, hn⟩ := List.mem_iff_getElem?.1 he
  obtain ⟨r, here, level, url⟩ := file.scanned n e hn
  exact ⟨r, List.mem_of_getElem? here, by rw [level, url]⟩

/-- The last link of the second seed is one hop away. -/
theorem breadth_first_levels_twoSeeds :
    IsLeast {n | Hops (linked seedPages) (seeds twoSeeds) n (.letter 4)} 1 := by
  have reached : Crawls seedPages true ⟨9, 99, false⟩ twoSeeds 0 0 _ := onward_reach _ _ 60 _
  have levels := (breadth_first_levels (by decide) reached (by decide +kernel)).2.2.2.2
  obtain ⟨d, one, least⟩ := levels ⟨1, .letter 4⟩ (by decide +kernel)
  obtain rfl : 1 = d := Int.ofNat_inj.1 one
  exact least

end SpiderFrame.Crawl
