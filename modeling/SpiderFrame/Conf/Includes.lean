import SpiderFrame.Base.Follow
import SpiderFrame.Conf.Load

/-!
# Included variables (`sf_conf.c`)

`sf_conf_vars` loads the file that its node includes before its own variables, and for that calls
itself on the root of that file. Nothing keeps track of the files that are being loaded. So a load
ends if and only if no chain of includes that it comes to has a cycle (`load_ends_iff`).
-/

namespace SpiderFrame.Conf
open SpiderFrame.Base SpiderFrame.Page

variable {files : Files} {Re : Type} {compile : Option CString → Option Re}

/-- The file that the root of a file includes. -/
def includeOf (files : Files) (fn : CString) : Option CString :=
  (xmlReadFile files fn).join.bind fun root => root.prop .include_

/-- A file that includes another is one of the files. -/
theorem includeOf_known {fn : CString} (h : includeOf files fn ≠ none) :
    fn ∈ files.map Prod.fst := by
  by_contra unknown
  apply h
  have missing : files.lookup fn = none := by
    rw [List.lookup_eq_none_iff]
    intro file hf
    rw [bne_iff_ne]
    exact fun same => unknown (same ▸ List.mem_map_of_mem hf)
  simp [includeOf, xmlReadFile, missing]

/-! ## One `vars` element -/

/-- More fuel does not change a load that has ended. -/
theorem sfConfVars_mono {fuel fuel' : Nat} (more : fuel ≤ fuel') :
    ∀ {node : XmlNode} {vars : List (CString × CString)},
      sfConfVars files fuel node = some vars → sfConfVars files fuel' node = some vars := by
  induction fuel generalizing fuel' with
  | zero => intro node vars run; cases run
  | succ fuel ih =>
    intro node vars run
    obtain ⟨fuel', rfl⟩ : ∃ k, fuel' = k + 1 := ⟨fuel' - 1, by omega⟩
    unfold sfConfVars at run ⊢
    cases included : node.prop .include_ with
    | none => simpa [included] using run
    | some fn =>
      simp only [included, sfConfVarsInclude] at run ⊢
      cases read : xmlReadFile files fn with
      | none => simpa [read] using run
      | some root =>
        cases root with
        | none => simpa [read] using run
        | some root =>
          simp only [read] at run ⊢
          obtain ⟨inner, first, rest⟩ := Option.bind_eq_some_iff.1 run
          exact Option.bind_eq_some_iff.2 ⟨inner, ih (by omega) first, rest⟩

/-- The load of a `vars` element ends. -/
def VarsEnd (files : Files) (node : XmlNode) : Prop := ∃ fuel, (sfConfVars files fuel node).isSome

theorem varsEnd_include (node : XmlNode) :
    VarsEnd files node ↔ ∀ fn ∈ node.prop .include_, ∀ root,
      xmlReadFile files fn = some (some root) → VarsEnd files root := by
  constructor
  · rintro ⟨fuel, ends⟩ fn included root read
    cases fuel with
    | zero => cases ends
    | succ fuel =>
      refine ⟨fuel, ?_⟩
      simp only [sfConfVars, Option.mem_def.1 included, sfConfVarsInclude, read] at ends
      cases inner : sfConfVars files fuel root with
      | none => simp [inner] at ends
      | some vars => rfl
  · intro after
    cases included : node.prop .include_ with
    | none => exact ⟨1, by simp [sfConfVars, included]⟩
    | some fn =>
      by_cases readable : ∃ root, xmlReadFile files fn = some (some root)
      · obtain ⟨root, read⟩ := readable
        obtain ⟨fuel, ends⟩ := after fn included root read
        obtain ⟨vars, inner⟩ := Option.isSome_iff_exists.1 ends
        exact ⟨fuel + 1, by simp [sfConfVars, included, sfConfVarsInclude, read, inner]⟩
      · refine ⟨1, ?_⟩
        simp only [sfConfVars, included, sfConfVarsInclude]
        split
        · rename_i root read
          exact absurd ⟨root, read⟩ readable
        · rfl

/-- **The load of a `vars` element ends if and only if its chain of includes does.** -/
theorem varsEnd_iff (node : XmlNode) :
    VarsEnd files node ↔ ∀ fn ∈ node.prop .include_, Ends (includeOf files) fn := by
  constructor
  · rintro ⟨fuel, ends⟩
    induction fuel generalizing node with
    | zero => cases ends
    | succ fuel ih =>
      intro fn included
      rw [ends_next]
      intro fn' next
      obtain ⟨root, read, within⟩ := Option.bind_eq_some_iff.1 next
      have file : xmlReadFile files fn = some (some root) := Option.join_eq_some_iff.1 read
      refine ih root ?_ fn' within
      simp only [sfConfVars, Option.mem_def.1 included, sfConfVarsInclude, file] at ends
      cases inner : sfConfVars files fuel root with
      | none => simp [inner] at ends
      | some vars => rfl
  · intro chain
    rw [varsEnd_include]
    intro fn included root read
    obtain ⟨n, stops⟩ := chain fn included
    clear included chain
    induction n generalizing fn root with
    | zero => cases stops
    | succ n ih =>
      rw [varsEnd_include]
      intro fn' included' root' read'
      have next : includeOf files fn = some fn' := by
        simpa [includeOf, read] using included'
      rw [follow, next, Option.bind_some] at stops
      exact ih fn' root' read' stops

/-! ## The document -/

/-- The element does not end the load by a pattern that does not compile. -/
def compiles (compile : Option CString → Option Re) (node : XmlNode) : Bool :=
  match node.tag with
  | .policy => (sfConfPolicy compile node.children).isSome
  | .range => (sfConfRange compile node).isSome
  | _ => true

/-- The children of the root up to the first that ends the load, and with it. -/
def reached (compile : Option CString → Option Re) : List XmlNode → List XmlNode
  | [] => []
  | node :: nodes => node :: if compiles compile node then reached compile nodes else []

/-- **One child: a `vars` element has to end, a pattern that does not compile ends the load.** -/
theorem rootChild_cases (compile : Option CString → Option Re) (files : Files) (b : Loaded Re)
    (node : XmlNode) :
    (node.tag = .vars ∧ compiles compile node = true ∧ ∀ fuel,
        rootChild compile files fuel b node = (sfConfVars files fuel node).map fun vars =>
          .done { b with vars := b.vars ++ vars }) ∨
      (node.tag ≠ .vars ∧ compiles compile node = true ∧ ∃ b', ∀ fuel,
        rootChild compile files fuel b node = some (.done b')) ∨
      (node.tag ≠ .vars ∧ compiles compile node = false ∧ ∀ fuel,
        rootChild compile files fuel b node = some .exit) := by
  unfold rootChild compiles
  cases tag : node.tag with
  | vars => exact .inl ⟨rfl, rfl, fun _ => rfl⟩
  | policy =>
    right
    cases made : sfConfPolicy compile node.children with
    | none => exact .inr ⟨by simp, rfl, fun _ => rfl⟩
    | some p => exact .inl ⟨by simp, rfl, _, fun _ => rfl⟩
  | range =>
    right
    cases made : sfConfRange compile node with
    | none => exact .inr ⟨by simp, rfl, fun _ => rfl⟩
    | some r => exact .inl ⟨by simp, rfl, _, fun _ => rfl⟩
  | _ => exact .inr (.inl ⟨by simp, rfl, _, fun _ => rfl⟩)

theorem rootChildren_mono {fuel fuel' : Nat} (more : fuel ≤ fuel') {nodes : List XmlNode} :
    ∀ {b : Loaded Re}, (rootChildren compile files fuel b nodes).isSome →
      (rootChildren compile files fuel' b nodes).isSome := by
  induction nodes with
  | nil => exact fun _ => rfl
  | cons node nodes ih =>
    intro b ends
    unfold rootChildren at ends ⊢
    rcases rootChild_cases compile files b node with
      ⟨-, -, same⟩ | ⟨-, -, b', same⟩ | ⟨-, -, same⟩
    · rw [same] at ends ⊢
      cases run : sfConfVars files fuel node with
      | none => simp [run] at ends
      | some vars =>
        rw [sfConfVars_mono more run]
        rw [run] at ends
        exact ih ends
    · rw [same] at ends ⊢
      exact ih ends
    · rw [same]
      rfl

/-- **The loop over the children ends if and only if the `vars` elements do that it comes to.** -/
theorem rootChildren_ends (nodes : List XmlNode) (b : Loaded Re) :
    (∃ fuel, (rootChildren compile files fuel b nodes).isSome) ↔
      ∀ node ∈ reached compile nodes, node.tag = .vars → VarsEnd files node := by
  induction nodes generalizing b with
  | nil => exact ⟨fun _ => List.forall_mem_nil _, fun _ => ⟨0, rfl⟩⟩
  | cons node nodes ih =>
    rw [reached, List.forall_mem_cons]
    rcases rootChild_cases compile files b node with
      ⟨tag, compiled, same⟩ | ⟨tag, compiled, b', same⟩ | ⟨tag, failed, same⟩
    · rw [if_pos compiled]
      constructor
      · rintro ⟨fuel, ends⟩
        rw [rootChildren, same] at ends
        cases run : sfConfVars files fuel node with
        | none => simp [run] at ends
        | some vars =>
          rw [run] at ends
          exact ⟨fun _ => ⟨fuel, by rw [run]; rfl⟩, (ih _).1 ⟨fuel, ends⟩⟩
      · rintro ⟨own, later⟩
        obtain ⟨fuel₁, first⟩ := own tag
        obtain ⟨vars, run⟩ := Option.isSome_iff_exists.1 first
        obtain ⟨fuel₂, rest⟩ := (ih { b with vars := b.vars ++ vars }).2 later
        refine ⟨max fuel₁ fuel₂, ?_⟩
        rw [rootChildren, same, sfConfVars_mono (Nat.le_max_left _ _) run]
        exact rootChildren_mono (Nat.le_max_right _ _) rest
    · rw [if_pos compiled, and_iff_right fun vars => absurd vars tag, ← ih b']
      refine exists_congr fun fuel => ?_
      rw [rootChildren, same]
      rfl
    · rw [if_neg (by simp [failed])]
      constructor
      · intro _
        exact ⟨fun vars => absurd vars tag, List.forall_mem_nil _⟩
      · intro _
        refine ⟨0, ?_⟩
        rw [rootChildren, same]
        rfl

theorem sfConfInit_ends (confFn : CString) :
    (∃ fuel, (sfConfInit compile files fuel confFn).isSome) ↔
      ∀ root, xmlReadFile files confFn = some (some root) →
        ∀ node ∈ reached compile root.children, node.tag = .vars → VarsEnd files node := by
  unfold sfConfInit
  split
  · rename_i root read
    simp only [Option.isSome_map, rootChildren_ends]
    constructor
    · intro ends root' read'
      rw [read, Option.some_inj, Option.some_inj] at read'
      exact read' ▸ ends
    · exact fun ends => ends root read
  · rename_i unreadable
    exact ⟨fun _ root read => absurd read (unreadable root), fun _ => ⟨0, rfl⟩⟩

/-- **A load ends if and only if no `vars` element that it comes to starts a chain of includes that
comes back to a file.** -/
theorem load_ends_iff {Re : Type} (compile : Option CString → Option Re) (files : Files)
    (confFn : CString) :
    (∃ fuel, (sfConfInit compile files fuel confFn).isSome) ↔
      ∀ root, xmlReadFile files confFn = some (some root) →
        ∀ node ∈ reached compile root.children, node.tag = .vars →
          ∀ fn ∈ node.prop .include_, NoCycle (includeOf files) fn := by
  rw [sfConfInit_ends]
  refine forall₂_congr fun root _ => forall₂_congr fun node _ => forall_congr' fun _ => ?_
  rw [varsEnd_iff]
  refine forall₂_congr fun fn _ => ?_
  exact ends_iff_no_cycle fun _ => includeOf_known

/-- The configuration `a` includes the variables of `b`, which includes itself. -/
def selfInclude : Files :=
  [(.letter 0, some (.mk .other [] [.mk .vars [(.include_, .letter 1)] []])),
    (.letter 1, some (.mk .vars [(.include_, .letter 1)] []))]

/-- The load of a file that includes itself does not end. -/
theorem load_endless : ¬ ∀ (Re : Type) (compile : Option CString → Option Re) (files : Files)
    (confFn : CString), ∃ fuel, (sfConfInit compile files fuel confFn).isSome := by
  intro claim
  have ends := (sfConfInit_ends (.letter 0)).1 (claim Unit (fun _ => none) selfInclude (.letter 0))
    _ rfl _ List.mem_cons_self rfl
  have chain := (varsEnd_iff _).1 ends (.letter 1) rfl
  exact chain.noCycle 0 (.letter 1) rfl 0 (by decide)

end SpiderFrame.Conf
