import Mathlib.Data.List.Rotate
import SpiderFrame.Base.Chain
import SpiderFrame.Conf.Load
import SpiderFrame.Page.Spider

/-!
# The order of policies and headers (`sf_conf.c`, `main.c`, `sf_curl.c`)

`sf_conf_policy` puts its node before the first, and `sf_proc_start_spider` walks from there: the
policies run from the last of the document to the first. `sf_conf_headers` puts its nodes at the end
of a ring, and `sf_curl_url` starts behind the root: the first header is appended last. So both
orders are the document's only where there is nothing to order (`order_kept_iff`).
-/

namespace SpiderFrame.Conf
open SpiderFrame.Base SpiderFrame.Link SpiderFrame.Queue SpiderFrame.Page

variable {Re : Type} {compile : Option CString → Option Re} {files : Files} {b b' : Loaded Re}
  {nodes : List XmlNode} {node : XmlNode}

/-! ## The two loops -/

/-- The policies that the loop of `sf_proc_start_spider` runs for a URL, in its order. -/
def policiesRun (env : Env Re) (b : Loaded Re) (url : CString) : Option (List Nat) :=
  (collect b.policyNext b.policyCnt b.policy).map fun ps =>
    ps.filter fun p => sfProcUrlMatchRange env url (b.policies p).policyRange

/-- The headers that the loop of `sf_curl_url` appends, in its order. -/
def headersSent (b : Loaded Re) : Option (List Nat) :=
  match b.headers with
  | none => some []
  | some root => Ring.turn b.hdrLinks root b.headerCnt root

/-! ## The document -/

def policyNodes (nodes : List XmlNode) : List XmlNode := nodes.filter fun node => node.tag = .policy

/-- The values of the `header` elements of an element. -/
def valuesOf (node : XmlNode) : List CString :=
  node.children.filterMap fun child => if child.tag = .header then child.prop .value else none

/-- The values of all `header` elements. -/
def headerValues (nodes : List XmlNode) : List CString :=
  (nodes.filter fun node => node.tag = .headers).flatMap valuesOf

/-- The `policy` element matches the URL. -/
def matchesUrl (compile : Option CString → Option Re) (env : Env Re) (url : CString)
    (node : XmlNode) : Bool :=
  (sfConfPolicy compile node.children).any fun p => sfProcUrlMatchRange env url p.policyRange

/-- The numbers of the `policy` elements that match a URL, in document order. -/
def matchingPolicies (compile : Option CString → Option Re) (env : Env Re) (url : CString)
    (nodes : List XmlNode) : List Nat :=
  (List.range (policyNodes nodes).length).filter fun i =>
    (policyNodes nodes)[i]?.any (matchesUrl compile env url)

/-! ## What is built -/

/-- The policy nodes that have been made of the first children of the root. -/
structure PoliciesAt (compile : Option CString → Option Re) (nodes : List XmlNode) (b : Loaded Re) :
    Prop where
  chain : Chain b.policyNext b.policy (List.range b.policyCnt).reverse
  made : (policyNodes nodes).map (fun node => sfConfPolicy compile node.children) =
    (List.range b.policyCnt).map fun i => some (b.policies i)

/-- The header nodes that have been made of these values. -/
structure HeadersAt (values : List CString) (b : Loaded Re) : Prop where
  ring : RingAt b.hdrLinks b.headers (List.range b.headerCnt)
  made : values = (List.range b.headerCnt).map b.hdrValue

/-- A new entry behind those of the numbers so far. -/
theorem map_range_update {α : Type*} (f : Nat → α) (n : Nat) (a : α) :
    (List.range (n + 1)).map (Function.update f n a) = (List.range n).map f ++ [a] := by
  rw [List.range_succ, List.map_append, List.map_singleton, Function.update_self]
  congr 1
  apply List.map_congr_left
  intro i hi
  exact Function.update_of_ne (Nat.ne_of_lt (List.mem_range.1 hi)) _ _

theorem policyNodes_append (nodes : List XmlNode) (node : XmlNode) :
    policyNodes (nodes ++ [node]) =
      policyNodes nodes ++ if node.tag = .policy then [node] else [] := by
  rw [policyNodes, List.filter_append]
  congr 1
  by_cases tag : node.tag = .policy <;> simp [tag]

theorem headerValues_append (nodes : List XmlNode) (node : XmlNode) :
    headerValues (nodes ++ [node]) =
      headerValues nodes ++ if node.tag = .headers then valuesOf node else [] := by
  rw [headerValues, List.filter_append, List.flatMap_append]
  congr 1
  by_cases tag : node.tag = .headers <;> simp [tag]

/-- A `policy` element puts its node before the others. -/
theorem PoliciesAt.add (h : PoliciesAt compile nodes b) {p : Policy Re} (tag : node.tag = .policy)
    (made : sfConfPolicy compile node.children = some p) :
    PoliciesAt compile (nodes ++ [node]) (b.addPolicy p) := by
  constructor
  · show Chain _ (some b.policyCnt) (List.range (b.policyCnt + 1)).reverse
    rw [List.range_succ, List.reverse_append]
    exact h.chain.push (by simp)
  · rw [policyNodes_append, if_pos tag, List.map_append, h.made, List.map_singleton, made,
      ← map_range_update]
    apply List.map_congr_left
    intro i _
    by_cases last : i = b.policyCnt <;> simp [Loaded.addPolicy, last]

/-- An element that is no `policy` leaves them. -/
theorem PoliciesAt.skip (h : PoliciesAt compile nodes b) (tag : node.tag ≠ .policy)
    (next : b'.policyNext = b.policyNext) (policy : b'.policy = b.policy)
    (cnt : b'.policyCnt = b.policyCnt) (policies : b'.policies = b.policies) :
    PoliciesAt compile (nodes ++ [node]) b' := by
  constructor
  · rw [next, policy, cnt]
    exact h.chain
  · rw [policyNodes_append, if_neg tag, List.append_nil, cnt, policies]
    exact h.made

/-- A `header` element with a value puts its node at the end of the ring. -/
theorem HeadersAt.add {values : List CString} (h : HeadersAt values b) (value : CString) :
    HeadersAt (values ++ [value]) (b.addHeader value) := by
  constructor
  · show RingAt _ _ (List.range (b.headerCnt + 1))
    rw [List.range_succ]
    exact dualLinkAppend_ring h.ring (by simp)
  · rw [h.made]
    exact (map_range_update _ _ _).symm

theorem HeadersAt.child {values : List CString} (h : HeadersAt values b) (child : XmlNode) :
    HeadersAt (values ++ (if child.tag = .header then child.prop .value else none).toList)
      (headerChild b child) := by
  unfold headerChild
  by_cases tag : child.tag = .header
  · rw [if_pos tag, if_pos tag]
    cases child.prop .value with
    | none => simpa using h
    | some value => exact h.add value
  · rw [if_neg tag, if_neg tag]
    simpa using h

theorem HeadersAt.fold {values : List CString} {children : List XmlNode} (h : HeadersAt values b) :
    HeadersAt (values ++ children.filterMap fun child =>
      if child.tag = .header then child.prop .value else none) (children.foldl headerChild b) := by
  induction children generalizing b values with
  | nil => simpa using h
  | cons child children ih =>
    have next := ih (h.child child)
    rw [List.append_assoc] at next
    rw [List.filterMap_cons, List.foldl_cons]
    cases value : if child.tag = .header then child.prop .value else none with
    | none => simpa [value] using next
    | some v => simpa [value] using next

/-- The loop over headers leaves the policies. -/
theorem sfConfHeaders_policies (b : Loaded Re) (node : XmlNode) :
    (sfConfHeaders b node).policyNext = b.policyNext ∧ (sfConfHeaders b node).policy = b.policy ∧
      (sfConfHeaders b node).policyCnt = b.policyCnt ∧
      (sfConfHeaders b node).policies = b.policies := by
  unfold sfConfHeaders
  induction node.children generalizing b with
  | nil => exact ⟨rfl, rfl, rfl, rfl⟩
  | cons child children ih =>
    have same : (headerChild b child).policyNext = b.policyNext ∧
        (headerChild b child).policy = b.policy ∧
        (headerChild b child).policyCnt = b.policyCnt ∧
        (headerChild b child).policies = b.policies := by
      unfold headerChild
      split
      · split <;> exact ⟨rfl, rfl, rfl, rfl⟩
      · exact ⟨rfl, rfl, rfl, rfl⟩
    rw [List.foldl_cons, ← same.1, ← same.2.1, ← same.2.2.1, ← same.2.2.2]
    exact ih _

/-- What has been made of the first children of the root. -/
structure Built (compile : Option CString → Option Re) (nodes : List XmlNode) (b : Loaded Re) :
    Prop where
  policies : PoliciesAt compile nodes b
  headers : HeadersAt (headerValues nodes) b

theorem headerValues_skip (nodes : List XmlNode) (tag : node.tag ≠ .headers) :
    headerValues (nodes ++ [node]) = headerValues nodes := by
  rw [headerValues_append, if_neg tag, List.append_nil]

/-- An element that has to do with neither. -/
theorem Built.pass (h : Built compile nodes b) (policy : node.tag ≠ .policy)
    (headers : node.tag ≠ .headers) (range : List (Range Re)) (vars : List (CString × CString)) :
    Built compile (nodes ++ [node]) { b with range := range, vars := vars } := by
  refine ⟨h.policies.skip policy rfl rfl rfl rfl, ?_⟩
  rw [headerValues_skip nodes headers]
  exact ⟨h.headers.ring, h.headers.made⟩

/-- **One child of the root.** -/
theorem Built.child (h : Built compile nodes b) {fuel : Nat}
    (run : rootChild compile files fuel b node = some (.done b')) :
    Built compile (nodes ++ [node]) b' := by
  unfold rootChild at run
  cases tag : node.tag with
  | policy =>
    rw [tag] at run
    dsimp only at run
    cases made : sfConfPolicy compile node.children with
    | none =>
      rw [made] at run
      cases run
    | some p =>
      rw [made] at run
      cases run
      refine ⟨h.policies.add tag made, ?_⟩
      rw [headerValues_skip nodes (by simp [tag])]
      exact ⟨h.headers.ring, h.headers.made⟩
  | range =>
    rw [tag] at run
    dsimp only at run
    cases made : sfConfRange compile node with
    | none =>
      rw [made] at run
      cases run
    | some range =>
      rw [made] at run
      cases run
      exact h.pass (by simp [tag]) (by simp [tag]) _ _
  | vars =>
    rw [tag] at run
    obtain ⟨vars, -, done⟩ := Option.map_eq_some_iff.1 run
    cases done
    exact h.pass (by simp [tag]) (by simp [tag]) _ _
  | headers =>
    rw [tag] at run
    cases run
    obtain ⟨next, policy, cnt, policies⟩ := sfConfHeaders_policies b node
    refine ⟨h.policies.skip (by simp [tag]) next policy cnt policies, ?_⟩
    rw [headerValues_append, if_pos tag]
    exact h.headers.fold
  | pcre | cap | newSpider | trigger | policyRange | var | header | other =>
    rw [tag] at run
    cases run
    exact h.pass (by simp [tag]) (by simp [tag]) b.range b.vars

theorem Built.rest {fuel : Nat} {rest : List XmlNode} (h : Built compile nodes b)
    (run : rootChildren compile files fuel b rest = some (.done b')) :
    Built compile (nodes ++ rest) b' := by
  induction rest generalizing b nodes with
  | nil =>
    cases run
    rwa [List.append_nil]
  | cons node rest ih =>
    obtain ⟨out, first, later⟩ := Option.bind_eq_some_iff.1 run
    cases out with
    | exit => cases later
    | done b₁ =>
      have next := ih (h.child first) later
      rwa [List.append_assoc] at next

/-- **A configuration that is loaded has the nodes of its document.** -/
theorem sfConfInit_built {fuel : Nat} {confFn : CString} {root : XmlNode}
    (doc : xmlReadFile files confFn = some (some root))
    (loaded : sfConfInit compile files fuel confFn = some (.done (some b))) :
    Built compile root.children b := by
  unfold sfConfInit at loaded
  rw [doc] at loaded
  obtain ⟨out, run, done⟩ := Option.map_eq_some_iff.1 loaded
  cases out with
  | exit => cases done
  | done b₁ =>
    cases done
    have start : Built compile [] (rootAttrs root) :=
      ⟨⟨Chain.empty _, rfl⟩, ⟨.empty _, rfl⟩⟩
    exact start.rest run

/-! ## What the loops do -/

/-- The loop over the policies goes from the last of the document to the first. -/
theorem PoliciesAt.run (h : PoliciesAt compile nodes b) (env : Env Re) (url : CString) :
    policiesRun env b url = some (matchingPolicies compile env url nodes).reverse := by
  have count : (policyNodes nodes).length = b.policyCnt := by
    simpa using congrArg List.length h.made
  rw [policiesRun, h.chain.collect_eq (by simp), Option.map_some, List.filter_reverse,
    matchingPolicies, count]
  congr 2
  apply List.filter_congr
  intro i hi
  have made : (policyNodes nodes)[i]?.map (fun node => sfConfPolicy compile node.children) =
      some (some (b.policies i)) := by
    rw [← List.getElem?_map, h.made, List.getElem?_map,
      List.getElem?_range (List.mem_range.1 hi)]
    rfl
  obtain ⟨node, here, policy⟩ := Option.map_eq_some_iff.1 made
  rw [here, Option.any_some, matchesUrl, policy, Option.any_some]

/-- The loop over the headers goes from the second of the document to the last, and to the first. -/
theorem HeadersAt.sent {values : List CString} (h : HeadersAt values b) :
    headersSent b = some ((List.range values.length).rotate 1) := by
  have count : values.length = b.headerCnt := by
    simpa using congrArg List.length h.made
  obtain ⟨ring, root⟩ := h.ring
  rw [count, headersSent, root]
  cases members : List.range b.headerCnt with
  | nil => rfl
  | cons first others =>
    rw [members] at ring
    have enough : (first :: others).length ≤ b.headerCnt := by
      rw [← members, List.length_range]
    rw [List.rotate_cons_succ, List.rotate_zero]
    exact ring.turn_eq enough

/-- The headers from the root on. -/
def Loaded.headerRing (b : Loaded Re) : Option (List Nat) :=
  match b.headers with
  | none => some []
  | some root => Ring.traverse b.hdrLinks root b.headerCnt root

/-- `sf_conf_t` with its lists, the policies from the first node and the headers from the root. -/
def Loaded.confFile (b : Loaded Re) : Option (ConfFile Re) := do
  let policies ← collect b.policyNext b.policyCnt b.policy
  let headers ← b.headerRing
  some ⟨{ b with policy := policies.map b.policies, headers := headers.map b.hdrValue }, b.vars⟩

theorem HeadersAt.headerRing {values : List CString} (h : HeadersAt values b) :
    b.headerRing = some (List.range b.headerCnt) := by
  obtain ⟨ring, root⟩ := h.ring
  rw [Loaded.headerRing, root]
  cases members : List.range b.headerCnt with
  | nil => rfl
  | cons first others =>
    rw [members] at ring
    have enough : (first :: others).length ≤ b.headerCnt := by
      rw [← members, List.length_range]
    exact ring.traverse_eq enough

/-- **In the lists of a configuration the policies stand in reverse and the headers in order; the
headers that are appended are those from the second on, and then the first.** -/
theorem Built.confFile (h : Built compile nodes b) : ∃ file, b.confFile = some file ∧
    file.conf.policy.map some =
      ((policyNodes nodes).map fun node => sfConfPolicy compile node.children).reverse ∧
    file.conf.headers = headerValues nodes ∧ file.vars = b.vars ∧
    (headersSent b).map (·.map b.hdrValue) =
      some (file.conf.headers.drop 1 ++ file.conf.headers.take 1) := by
  have lists : b.confFile = some
      ⟨{ b with
          policy := (List.range b.policyCnt).reverse.map b.policies
          headers := (List.range b.headerCnt).map b.hdrValue }, b.vars⟩ := by
    rw [Loaded.confFile, h.policies.chain.collect_eq (by simp), h.headers.headerRing]
    rfl
  refine ⟨_, lists, ?_, h.headers.made.symm, rfl, ?_⟩
  · rw [h.policies.made, ← List.map_reverse, List.map_map]
    rfl
  · have count : (headerValues nodes).length = b.headerCnt := by
      simpa using congrArg List.length h.headers.made
    rw [h.headers.sent, Option.map_some, List.map_rotate, count]
    show some (((List.range b.headerCnt).map b.hdrValue).rotate 1) = _
    cases (List.range b.headerCnt).map b.hdrValue with
    | nil => rfl
    | cons first others => rw [List.rotate_cons_succ, List.rotate_zero]; rfl

/-- A list without repetitions is its own reverse only when there is nothing to order. -/
theorem reverse_eq_self_iff {α : Type*} {l : List α} (distinct : l.Nodup) :
    l.reverse = l ↔ l.length ≤ 1 := by
  match l, distinct with
  | [], _ => simp
  | [a], _ => simp
  | a :: c :: l, distinct =>
    refine ⟨fun same => ?_, fun short => by simp at short⟩
    have last : (c :: l).getLast? = some a := by
      have ends := congrArg List.head? same
      rwa [List.head?_reverse, List.getLast?_cons_cons] at ends
    exact absurd (List.mem_of_getLast? last) (List.nodup_cons.1 distinct).1

theorem rotate_one_eq_self_iff {α : Type*} {l : List α} (distinct : l.Nodup) :
    l.rotate 1 = l ↔ l.length ≤ 1 := by
  rw [distinct.rotate_eq_self_iff, ← List.length_eq_zero_iff]
  rcases Nat.lt_trichotomy l.length 1 with none_ | one | more
  · omega
  · simp [one]
  · rw [Nat.mod_eq_of_lt more]
    omega

/-- The policies that match a URL run in document order, and the headers are appended in document
order, each once. -/
def OrderKept (compile : Option CString → Option Re) (env : Env Re) (url : CString)
    (nodes : List XmlNode) (b : Loaded Re) : Prop :=
  policiesRun env b url = some (matchingPolicies compile env url nodes) ∧
    headersSent b = some (List.range (headerValues nodes).length)

/-- **The order is the document's if and only if at most one policy matches the URL and at most one
header has a value.** -/
theorem order_kept_iff {fuel : Nat} {confFn : CString} {root : XmlNode}
    (doc : xmlReadFile files confFn = some (some root))
    (loaded : sfConfInit compile files fuel confFn = some (.done (some b))) (env : Env Re)
    (url : CString) :
    OrderKept compile env url root.children b ↔
      (matchingPolicies compile env url root.children).length ≤ 1 ∧
        (headerValues root.children).length ≤ 1 := by
  have built := sfConfInit_built doc loaded
  have distinct : (matchingPolicies compile env url root.children).Nodup :=
    List.nodup_range.filter _
  rw [OrderKept, built.policies.run, built.headers.sent, Option.some_inj, Option.some_inj,
    reverse_eq_self_iff distinct, rotate_one_eq_self_iff List.nodup_range, List.length_range]

/-- A root with these children. -/
def oneFile (children : List XmlNode) : Files := [(.letter 0, some (.mk .other [] children))]

/-- A site whose patterns are single bytes. -/
def anySite : Env Byte := plainSite (fun _ => none) []

/-- A policy for the pages with this letter. -/
def policyFor (n : Nat) : XmlNode := .mk .policy [] [.mk .policyRange [(.urlWhite, .letter n)] []]

/-- Two policies, and a header without a value in front of one with a value. -/
def twoPolicies : List XmlNode :=
  [policyFor 1, .mk .headers [] [.mk .header [] [], .mk .header [(.value, .letter 1)] []], policyFor 2]

theorem order_kept_iff_two : ∃ b : Loaded Byte,
    sfConfInit byteCompile (oneFile twoPolicies) 1 (.letter 0) = some (.done (some b)) ∧
      OrderKept byteCompile anySite (.letter 2) twoPolicies b := by
  have doc : xmlReadFile (oneFile twoPolicies) (.letter 0) =
      some (some (.mk .other [] twoPolicies)) := rfl
  obtain ⟨b, loaded⟩ : ∃ b : Loaded Byte, sfConfInit byteCompile (oneFile twoPolicies) 1
      (.letter 0) = some (.done (some b)) := ⟨_, rfl⟩
  refine ⟨b, loaded, (order_kept_iff doc loaded anySite (.letter 2)).2 ⟨?_, ?_⟩⟩
  · decide
  · decide

/-- Of two policies the second runs first. -/
theorem order_reversed : ¬ ∀ (Re : Type) (compile : Option CString → Option Re) (files : Files)
    (fuel : Nat) (confFn : CString) (root : XmlNode) (b : Loaded Re) (env : Env Re) (url : CString),
    xmlReadFile files confFn = some (some root) →
      sfConfInit compile files fuel confFn = some (.done (some b)) →
      OrderKept compile env url root.children b := by
  intro claim
  have kept := claim Byte (fun _ => none) (oneFile [.mk .policy [] [], .mk .policy [] []]) 1
    (.letter 0) _ _ anySite (.letter 0) rfl rfl
  have run := kept.1
  revert run
  decide

end SpiderFrame.Conf
