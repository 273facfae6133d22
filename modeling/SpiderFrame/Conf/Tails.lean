import SpiderFrame.Conf.Order

/-!
# Lists that grow at their ends (`sf_conf.c`)

`sf_conf_pcre`, `sf_conf_policy_range` and `sf_conf_range` put a node at the end of a list with the
macro `sf_conf_insert_tail`, which keeps the head pointer in the new node and then walks to the last
node with the head pointer itself. Here these lists are nodes in memory. A load in memory agrees with
the load into lists (`sfConfPolicyAt_agrees`, `rangesAt_agrees`), and what is in the lists stands
there in document order (`conf_lists_in_order`).
-/

namespace SpiderFrame.Conf
open SpiderFrame.Base SpiderFrame.Queue SpiderFrame.Page

/-! ## The macro -/

/-- The fields `next` of all nodes, and the pointer to the first. -/
structure ListVar (α : Type) where
  next : α → Option α
  head : Option α

section Macro

variable {α : Type} [DecidableEq α] {v : ListVar α} {s : α} {l : List α} {fuel : Nat}

/-- The `while (h)` loop of the macro; `none` is a loop that has not ended within the fuel. -/
def walkTail (s : α) : Nat → ListVar α → Option (ListVar α)
  | 0, _ => none
  | fuel + 1, v =>
    match v.head with
    | none => some v
    | some h =>
      match v.next h with
      | none => some { v with next := Function.update v.next h (some s) }
      | some h' => walkTail s fuel { v with head := some h' }

/-- `sf_conf_insert_tail(s, h)`. -/
def sfConfInsertTail (fuel : Nat) (s : α) (v : ListVar α) : Option (ListVar α) :=
  let v := { v with next := Function.update v.next s v.head }
  match v.head with
  | none => some { v with head := some s }
  | some _ =>
    (walkTail s fuel v).map fun v =>
      { next := Function.update v.next s none, head := v.next s }

/-- The loop stops at the last node and links the new one behind it. -/
theorem walkTail_eq {last : α} (chain : Chain v.next v.head (l ++ [last]))
    (enough : l.length < fuel) :
    walkTail s fuel v = some ⟨Function.update v.next last (some s), some last⟩ := by
  induction l generalizing v fuel with
  | nil =>
    obtain ⟨here, ends⟩ := chain
    obtain ⟨fuel, rfl⟩ : ∃ n, fuel = n + 1 := ⟨fuel - 1, by simp at enough; omega⟩
    have null : v.next last = none := ends
    rw [walkTail, here]
    dsimp only
    rw [null]
  | cons a l ih =>
    obtain ⟨here, rest⟩ := chain
    obtain ⟨fuel, rfl⟩ : ∃ n, fuel = n + 1 := ⟨fuel - 1, by omega⟩
    rw [List.length_cons] at enough
    obtain ⟨b, next⟩ : ∃ b, v.next a = some b := by
      rw [rest.head_eq]
      cases l <;> exact ⟨_, rfl⟩
    rw [walkTail, here]
    dsimp only
    rw [next]
    rw [next] at rest
    exact ih (v := { v with head := some b }) rest (by omega)

theorem insertTail_walks (some_ : v.head.isSome = true) : sfConfInsertTail fuel s v =
    (walkTail s fuel { v with next := Function.update v.next s v.head }).map fun v =>
      { next := Function.update v.next s none, head := v.next s } := by
  obtain ⟨first, head⟩ := Option.isSome_iff_exists.1 some_
  unfold sfConfInsertTail
  dsimp only
  rw [head]

/-- **The macro puts a new node at the end of the list, and the head pointer is where it was.** -/
theorem sfConfInsertTail_chain (chain : Chain v.next v.head l) (fresh : s ∉ l)
    (enough : l.length ≤ fuel) : ∃ v', sfConfInsertTail fuel s v = some v' ∧
      Chain v'.next v'.head (l ++ [s]) := by
  rcases List.eq_nil_or_concat l with rfl | ⟨l, last, rfl⟩
  · have null : v.head = none := chain
    unfold sfConfInsertTail
    dsimp only
    rw [null]
    exact ⟨_, rfl, rfl, Function.update_self ..⟩
  · rw [List.concat_eq_append] at chain fresh enough ⊢
    have distinct := chain.nodup
    rw [List.nodup_append_comm, List.singleton_append, List.nodup_cons] at distinct
    rw [List.length_append, List.length_singleton] at enough
    have lastNew : last ≠ s := fun e => fresh (e ▸ by simp)
    -- the store to the new node does not touch the list
    have kept : Chain (Function.update v.next s v.head) v.head (l ++ [last]) := by
      apply chain.frame
      intro b hb
      have other : b ≠ s := fun e => fresh (e ▸ hb)
      exact Function.update_of_ne other _ _
    have walked : walkTail s fuel { v with next := Function.update v.next s v.head } = _ :=
      walkTail_eq kept (by omega)
    have walks : sfConfInsertTail fuel s v = _ :=
      insertTail_walks (by rw [chain.head_eq]; cases l <;> rfl)
    rw [walked] at walks
    refine ⟨_, walks, ?_⟩
    dsimp only
    rw [Function.update_of_ne lastNew.symm, Function.update_self, List.append_assoc]
    apply chain.snoc
    · rw [Function.update_of_ne lastNew, Function.update_self]
    · exact Function.update_self ..
    · intro b hb
      have other : b ≠ s := fun e => fresh (e ▸ List.mem_append_left _ hb)
      have earlier : b ≠ last := fun e => distinct.1 (e ▸ hb)
      rw [Function.update_of_ne other, Function.update_of_ne earlier, Function.update_of_ne other]

end Macro

/-! ## Nodes in memory -/

/-- The nodes of a list, numbered in the order of their allocation; what is not allocated yet holds
nothing. -/
structure Nodes (β : Type) extends ListVar Nat where
  data : Nat → Option β
  cnt : Nat

/-- The head pointer in memory from `calloc`. -/
def Nodes.empty {β : Type} : Nodes β := ⟨⟨fun _ => none, none⟩, fun _ => none, 0⟩

/-- `sf_conf_insert_tail(x, h)` for a new node `x`. -/
def Nodes.insertTail {β : Type} (fuel : Nat) (b : Nodes β) (x : β) : Option (Nodes β) :=
  (sfConfInsertTail fuel b.cnt b.toListVar).map fun v =>
    { toListVar := v
      data := Function.update b.data b.cnt (some x)
      cnt := b.cnt + 1 }

/-- From the head pointer to NULL there are all the nodes that were inserted, in this order, and they
hold `xs`. -/
structure Listed {β : Type} (xs : List β) (b : Nodes β) : Prop where
  chain : Chain b.next b.head (List.range b.cnt)
  made : (List.range b.cnt).map b.data = xs.map some

section Nodes

variable {β : Type} {xs : List β} {b : Nodes β} {fuel : Nat}

theorem Listed.empty : Listed ([] : List β) Nodes.empty := ⟨Chain.empty _, rfl⟩

theorem Listed.insertTail (h : Listed xs b) (x : β) (enough : b.cnt ≤ fuel) :
    ∃ b', b.insertTail fuel x = some b' ∧ b'.cnt = b.cnt + 1 ∧ Listed (xs ++ [x]) b' := by
  have fresh : b.cnt ∉ List.range b.cnt := by simp
  obtain ⟨v, inserted, chain⟩ : ∃ v, sfConfInsertTail fuel b.cnt b.toListVar = some v ∧ _ :=
    sfConfInsertTail_chain h.chain fresh (by rwa [List.length_range])
  unfold Nodes.insertTail
  rw [inserted]
  refine ⟨_, rfl, rfl, ?_, ?_⟩
  · show Chain v.next v.head (List.range (b.cnt + 1))
    rwa [List.range_succ]
  · show (List.range (b.cnt + 1)).map (Function.update b.data b.cnt (some x)) = _
    rw [map_range_update, h.made, List.map_append, List.map_singleton]

end Nodes

/-! ## Loading into memory

The three functions load an element and put it into a list, unless `sf_pcre_compile` has called
`exit(0)`. What `sf_conf_pcre` loads of the children of its element follows in the source. -/

variable {Re : Type}

def insertLoaded {β : Type} (fuel : Nat) (x : Option β) (b : Nodes β) :
    Option (Outcome (Nodes β)) :=
  match x with
  | some x => (b.insertTail fuel x).map .done
  | none => some .exit

/-- The rules and the ranges of a policy in memory. -/
structure PolicyNodes (Re : Type) where
  pcreRoot : Nodes (Rule Re)
  policyRange : Nodes Re

/-- A part of the load with another outcome. -/
def Outcome.map {σ τ : Type} (f : σ → τ) : Outcome σ → Outcome τ
  | .done a => .done (f a)
  | .exit => .exit

section Loaders

variable (compile : Option CString → Option Re) (fuel : Nat)

/-- `sf_conf_pcre(node, pcreptr)`. -/
def sfConfPcreAt (node : XmlNode) (b : Nodes (Rule Re)) : Option (Outcome (Nodes (Rule Re))) :=
  insertLoaded fuel (sfConfPcre compile node) b

/-- `sf_conf_policy_range(node, rangeptr)`. -/
def sfConfPolicyRangeAt (node : XmlNode) (b : Nodes Re) : Option (Outcome (Nodes Re)) :=
  insertLoaded fuel (sfConfPolicyRange compile node) b

/-- `sf_conf_range(node, rangeptr)`. -/
def sfConfRangeAt (node : XmlNode) (b : Nodes (Range Re)) : Option (Outcome (Nodes (Range Re))) :=
  insertLoaded fuel (sfConfRange compile node) b

/-- One child in `sf_conf_policy`. -/
def policyChildAt (p : PolicyNodes Re) (node : XmlNode) : Option (Outcome (PolicyNodes Re)) :=
  match node.tag with
  | .pcre =>
    (sfConfPcreAt compile fuel node p.pcreRoot).map (.map fun b => { p with pcreRoot := b })
  | .policyRange =>
    (sfConfPolicyRangeAt compile fuel node p.policyRange).map
      (.map fun b => { p with policyRange := b })
  | _ => some (.done p)

/-- One child of the root in `sf_conf_init`, as far as `conf->range` goes. -/
def rangeChildAt (b : Nodes (Range Re)) (node : XmlNode) : Option (Outcome (Nodes (Range Re))) :=
  match node.tag with
  | .range => sfConfRangeAt compile fuel node b
  | _ => some (.done b)

end Loaders

/-- The loop over the children of an element. -/
def eachChild {σ : Type} (child : σ → XmlNode → Option (Outcome σ)) :
    σ → List XmlNode → Option (Outcome σ)
  | s, [] => some (.done s)
  | s, node :: nodes =>
    (child s node).bind fun
      | .done s => eachChild child s nodes
      | .exit => some .exit

/-- `sf_conf_policy(nodes, ..)`. -/
def sfConfPolicyAt (compile : Option CString → Option Re) (fuel : Nat) (nodes : List XmlNode) :
    Option (Outcome (PolicyNodes Re)) :=
  eachChild (policyChildAt compile fuel) ⟨.empty, .empty⟩ nodes

/-- `conf->range` after these children of the root. -/
def rangesAt (compile : Option CString → Option Re) (fuel : Nat) (nodes : List XmlNode) :
    Option (Outcome (Nodes (Range Re))) :=
  eachChild (rangeChildAt compile fuel) .empty nodes

/-! ## The load in memory agrees with the load into lists -/

/-- Both end with data that are related, or both have called `exit(0)`. -/
def Agrees {σ τ : Type} (R : τ → σ → Prop) : Option (Outcome σ) → Option τ → Prop
  | some (.done s), some t => R t s
  | some .exit, none => True
  | _, _ => False

section Agreement

variable {σ τ β : Type} {compile : Option CString → Option Re} {fuel : Nat}

/-- A loop whose rounds agree, as long as there is room for the nodes that may still come. -/
theorem eachChild_agrees {R : Nat → τ → σ → Prop} {child : σ → XmlNode → Option (Outcome σ)}
    {child' : τ → XmlNode → Option τ}
    (round : ∀ n s t node, R (n + 1) t s → Agrees (R n) (child s node) (child' t node))
    {nodes : List XmlNode} {n : Nat} {s : σ} {t : τ} (h : R (nodes.length + n) t s) :
    Agrees (R n) (eachChild child s nodes) (nodes.foldlM child' t) := by
  induction nodes generalizing s t with
  | nil =>
    rw [List.length_nil, Nat.zero_add] at h
    exact h
  | cons node nodes ih =>
    rw [List.length_cons, Nat.add_right_comm] at h
    have first := round _ s t node h
    rw [eachChild, List.foldlM_cons]
    match out : child s node, list : child' t node with
    | some (.done s'), some t' =>
      rw [out, list] at first
      exact ih first
    | some .exit, none => trivial
    | some (.done s'), none =>
      rw [out, list] at first
      exact first.elim
    | some .exit, some t' =>
      rw [out, list] at first
      exact first.elim
    | none, list' =>
      rw [out, list] at first
      exact first.elim

/-- The nodes hold `xs`, and there is room for `n` more. -/
structure Room (fuel n : Nat) (xs : List β) (b : Nodes β) : Prop extends Listed xs b where
  room : b.cnt + n ≤ fuel

theorem Room.less {n : Nat} {xs : List β} {b : Nodes β} (h : Room fuel (n + 1) xs b) :
    Room fuel n xs b := ⟨h.toListed, by have := h.room; omega⟩

/-- **An element that is put into a list.** -/
theorem Room.insertLoaded {n : Nat} {xs : List β} {b : Nodes β} (h : Room fuel (n + 1) xs b)
    (x : Option β) :
    Agrees (Room fuel n) (insertLoaded fuel x b) (x.map fun x => xs ++ [x]) := by
  cases x with
  | none => trivial
  | some x =>
    have room := h.room
    obtain ⟨b', inserted, cnt, listed⟩ := h.toListed.insertTail x (by omega : b.cnt ≤ fuel)
    unfold Conf.insertLoaded
    dsimp only
    rw [inserted]
    exact ⟨listed, by rw [cnt]; omega⟩

theorem Agrees.map {σ' τ' : Type} {R : τ → σ → Prop} {R' : τ' → σ' → Prop} {f : σ → σ'} {g : τ → τ'}
    {out : Option (Outcome σ)} {list : Option τ} (h : Agrees R out list)
    (both : ∀ t s, R t s → R' (g t) (f s)) : Agrees R' (out.map (.map f)) (list.map g) := by
  match out, list, h with
  | some (.done s), some t, h => exact both t s h
  | some .exit, none, _ => trivial

/-- One child of the root, as far as `range` goes. -/
def rangeChild (compile : Option CString → Option Re) (ranges : List (Range Re)) (node : XmlNode) :
    Option (List (Range Re)) :=
  match node.tag with
  | .range => (sfConfRange compile node).map fun range => ranges ++ [range]
  | _ => some ranges

/-- The lists of a policy in memory, with room for `n` more nodes. -/
structure PolicyRoom (fuel n : Nat) (p : Policy Re) (nodes : PolicyNodes Re) : Prop where
  rules : Room fuel n p.pcreRoot nodes.pcreRoot
  ranges : Room fuel n p.policyRange nodes.policyRange

theorem PolicyRoom.child {n : Nat} {nodes : PolicyNodes Re} {p : Policy Re}
    (h : PolicyRoom fuel (n + 1) p nodes) (node : XmlNode) :
    Agrees (PolicyRoom fuel n) (policyChildAt compile fuel nodes node)
      (policyChild compile p node) := by
  unfold policyChildAt policyChild
  cases node.tag with
  | pcre =>
    have filled : Agrees (PolicyRoom fuel n)
        ((sfConfPcreAt compile fuel node nodes.pcreRoot).map
          (.map fun b => { nodes with pcreRoot := b }))
        (((sfConfPcre compile node).map fun rule => p.pcreRoot ++ [rule]).map fun rules =>
          { p with pcreRoot := rules }) :=
      (h.rules.insertLoaded _).map fun rules b listed => ⟨listed, h.ranges.less⟩
    rwa [Option.map_map] at filled
  | policyRange =>
    have filled : Agrees (PolicyRoom fuel n)
        ((sfConfPolicyRangeAt compile fuel node nodes.policyRange).map
          (.map fun b => { nodes with policyRange := b }))
        (((sfConfPolicyRange compile node).map fun re => p.policyRange ++ [re]).map fun ranges =>
          { p with policyRange := ranges }) :=
      (h.ranges.insertLoaded _).map fun ranges b listed => ⟨h.rules.less, listed⟩
    rwa [Option.map_map] at filled
  | _ => exact ⟨h.rules.less, h.ranges.less⟩

theorem Room.rangeChild {n : Nat} {ranges : List (Range Re)} {b : Nodes (Range Re)}
    (h : Room fuel (n + 1) ranges b) (node : XmlNode) :
    Agrees (Room fuel n) (rangeChildAt compile fuel b node) (rangeChild compile ranges node) := by
  unfold rangeChildAt Conf.rangeChild
  cases node.tag with
  | range => exact h.insertLoaded _
  | _ => exact h.less

theorem Room.empty (fuel : Nat) : Room fuel fuel ([] : List β) Nodes.empty :=
  ⟨Listed.empty, Nat.le_of_eq (Nat.zero_add fuel)⟩

theorem Agrees.imp {R R' : τ → σ → Prop} {out : Option (Outcome σ)} {list : Option τ}
    (h : Agrees R out list) (weaker : ∀ t s, R t s → R' t s) : Agrees R' out list := by
  match out, list, h with
  | some (.done s), some t, h => exact weaker t s h
  | some .exit, none, _ => trivial

/-- **A policy that is loaded into memory has the lists of the policy.** -/
theorem sfConfPolicyAt_agrees (nodes : List XmlNode) (more : Nat) :
    Agrees (fun (p : Policy Re) q =>
        Listed p.pcreRoot q.pcreRoot ∧ Listed p.policyRange q.policyRange)
      (sfConfPolicyAt compile (nodes.length + more) nodes) (sfConfPolicy compile nodes) := by
  have start : PolicyRoom (nodes.length + more) (nodes.length + more) (⟨[], []⟩ : Policy Re)
      ⟨.empty, .empty⟩ := ⟨.empty _, .empty _⟩
  have loaded : Agrees _ (sfConfPolicyAt compile _ nodes) (sfConfPolicy compile nodes) :=
    eachChild_agrees (fun n q p node h => PolicyRoom.child h node) start
  exact loaded.imp fun p q both => ⟨both.rules.toListed, both.ranges.toListed⟩

/-- **`conf->range` in memory has the ranges of the document.** -/
theorem rangesAt_agrees (nodes : List XmlNode) (more : Nat) :
    Agrees Listed (rangesAt compile (nodes.length + more) nodes)
      (nodes.foldlM (rangeChild compile) []) := by
  have loaded : Agrees _ (rangesAt compile _ nodes) (nodes.foldlM (rangeChild compile) []) :=
    eachChild_agrees (fun n b ranges node h => Room.rangeChild h node)
      (Room.empty (nodes.length + more))
  exact loaded.imp fun ranges b room => room.toListed

theorem sfConfHeaders_range (b : Loaded Re) (node : XmlNode) :
    (sfConfHeaders b node).range = b.range := by
  unfold sfConfHeaders
  induction node.children generalizing b with
  | nil => rfl
  | cons child children ih =>
    have same : (headerChild b child).range = b.range := by
      unfold headerChild
      split
      · split <;> rfl
      · rfl
    rw [List.foldl_cons, ih, same]

theorem rootChild_range {files : Files} {node : XmlNode} {b b' : Loaded Re}
    (run : rootChild compile files fuel b node = some (.done b')) :
    rangeChild compile b.range node = some b'.range := by
  unfold rootChild at run
  unfold rangeChild
  cases tag : node.tag with
  | range =>
    rw [tag] at run
    dsimp only at run ⊢
    cases made : sfConfRange compile node with
    | none =>
      rw [made] at run
      cases run
    | some range =>
      rw [made] at run
      cases run
      rfl
  | policy =>
    rw [tag] at run
    dsimp only at run ⊢
    cases made : sfConfPolicy compile node.children with
    | none =>
      rw [made] at run
      cases run
    | some p =>
      rw [made] at run
      cases run
      rfl
  | vars =>
    rw [tag] at run
    obtain ⟨vars, -, done⟩ := Option.map_eq_some_iff.1 run
    cases done
    rfl
  | headers =>
    rw [tag] at run
    cases run
    exact congrArg some (sfConfHeaders_range b node).symm
  | pcre | cap | newSpider | trigger | policyRange | var | header | other =>
    rw [tag] at run
    cases run
    rfl

/-- **A configuration that is loaded has the ranges of its document.** -/
theorem rootChildren_range {files : Files} {nodes : List XmlNode} {b b' : Loaded Re}
    (run : rootChildren compile files fuel b nodes = some (.done b')) :
    nodes.foldlM (rangeChild compile) b.range = some b'.range := by
  induction nodes generalizing b with
  | nil =>
    cases run
    rfl
  | cons node nodes ih =>
    obtain ⟨out, first, later⟩ := Option.bind_eq_some_iff.1 run
    cases out with
    | exit => cases later
    | done b₁ =>
      rw [List.foldlM_cons, rootChild_range first]
      exact ih later

/-- **`conf->range` of a configuration that is loaded is a list in memory.** -/
theorem sfConfInit_ranges {files : Files} {confFn : CString} {root : XmlNode} {b : Loaded Re}
    (doc : xmlReadFile files confFn = some (some root))
    (loaded : sfConfInit compile files fuel confFn = some (.done (some b))) :
    ∃ r, rangesAt compile root.children.length root.children = some (.done r) ∧
      Listed b.range r := by
  unfold sfConfInit at loaded
  rw [doc] at loaded
  obtain ⟨out, run, done⟩ := Option.map_eq_some_iff.1 loaded
  cases out with
  | exit => cases done
  | done b₁ =>
    cases done
    have agrees : Agrees Listed (rangesAt compile _ root.children) _ :=
      rangesAt_agrees root.children 0
    have list : root.children.foldlM (rangeChild compile) [] = some b.range :=
      rootChildren_range run
    rw [list] at agrees
    match at_ : rangesAt compile root.children.length root.children, agrees with
    | some (.done r), listed => exact ⟨r, rfl, listed⟩

end Agreement

/-! ## Document order -/

/-- The elements with a name, in document order. -/
def tagged (tag : Tag) (nodes : List XmlNode) : List XmlNode :=
  nodes.filter fun node => node.tag = tag

/-- A list has what these elements are loaded as. -/
def Holds {β : Type} (elements : List XmlNode) (load : XmlNode → Option β) (b : Nodes β) : Prop :=
  ∃ xs, elements.map load = xs.map some ∧ Listed xs b

/-- The load has ended, with these data or in a call of `exit(0)`. -/
def Ends {σ : Type} (R : σ → Prop) (exits : Prop) : Option (Outcome σ) → Prop
  | some (.done s) => R s
  | some .exit => exits
  | none => False

/-- The element of a policy does not compile. -/
def PolicyChildFails (compile : Option CString → Option Re) (node : XmlNode) : Prop :=
  (node.tag = .pcre ∧ sfConfPcre compile node = none) ∨
    (node.tag = .policyRange ∧ sfConfPolicyRange compile node = none)

section Order

variable {σ τ β : Type} {compile : Option CString → Option Re} {nodes : List XmlNode}
  {node : XmlNode}

theorem tagged_append (tag : Tag) (nodes : List XmlNode) (node : XmlNode) :
    tagged tag (nodes ++ [node]) = tagged tag nodes ++ if node.tag = tag then [node] else [] := by
  rw [tagged, List.filter_append]
  congr 1
  by_cases same : node.tag = tag <;> simp [same]

/-- The lists of a policy in the order of the document. -/
structure PolicyOrder (compile : Option CString → Option Re) (nodes : List XmlNode) (p : Policy Re) :
    Prop where
  rules : (tagged .pcre nodes).map (sfConfPcre compile) = p.pcreRoot.map some
  ranges : (tagged .policyRange nodes).map (sfConfPolicyRange compile) = p.policyRange.map some

/-- One more element with its list. -/
theorem tagged_map_add {tag : Tag} {load : XmlNode → Option β} {xs : List β} {x : β}
    (h : (tagged tag nodes).map load = xs.map some) (same : node.tag = tag)
    (loaded : load node = some x) :
    (tagged tag (nodes ++ [node])).map load = (xs ++ [x]).map some := by
  rw [tagged_append, if_pos same, List.map_append, h, List.map_append, List.map_singleton, loaded,
    List.map_singleton]

theorem tagged_map_skip {tag : Tag} {load : XmlNode → Option β} {xs : List β}
    (h : (tagged tag nodes).map load = xs.map some) (other : node.tag ≠ tag) :
    (tagged tag (nodes ++ [node])).map load = xs.map some := by
  rw [tagged_append, if_neg other, List.append_nil, h]

theorem PolicyOrder.child {p p' : Policy Re} (h : PolicyOrder compile nodes p)
    (run : policyChild compile p node = some p') : PolicyOrder compile (nodes ++ [node]) p' := by
  unfold policyChild at run
  cases tag : node.tag with
  | pcre =>
    rw [tag] at run
    obtain ⟨rule, loaded, rfl⟩ := Option.map_eq_some_iff.1 run
    exact ⟨tagged_map_add h.rules tag loaded, tagged_map_skip h.ranges (by simp [tag])⟩
  | policyRange =>
    rw [tag] at run
    obtain ⟨re, loaded, rfl⟩ := Option.map_eq_some_iff.1 run
    exact ⟨tagged_map_skip h.rules (by simp [tag]), tagged_map_add h.ranges tag loaded⟩
  | _ =>
    rw [tag] at run
    cases run
    exact ⟨tagged_map_skip h.rules (by simp [tag]), tagged_map_skip h.ranges (by simp [tag])⟩

theorem rangeChild_order {ranges ranges' : List (Range Re)}
    (h : (tagged .range nodes).map (sfConfRange compile) = ranges.map some)
    (run : rangeChild compile ranges node = some ranges') :
    (tagged .range (nodes ++ [node])).map (sfConfRange compile) = ranges'.map some := by
  unfold rangeChild at run
  cases tag : node.tag with
  | range =>
    rw [tag] at run
    obtain ⟨range, loaded, rfl⟩ := Option.map_eq_some_iff.1 run
    exact tagged_map_add h tag loaded
  | _ =>
    rw [tag] at run
    cases run
    exact tagged_map_skip h (by simp [tag])

/-- **What holds of no elements and is kept by each holds of all.** -/
theorem foldlM_order {child : τ → XmlNode → Option τ} {P : List XmlNode → τ → Prop}
    (kept : ∀ nodes node t t', P nodes t → child t node = some t' → P (nodes ++ [node]) t')
    {before : List XmlNode} {t t' : τ} (h : P before t) (run : nodes.foldlM child t = some t') :
    P (before ++ nodes) t' := by
  induction nodes generalizing before t with
  | nil =>
    cases run
    rwa [List.append_nil]
  | cons node nodes ih =>
    rw [List.foldlM_cons] at run
    obtain ⟨t₁, first, later⟩ := Option.bind_eq_some_iff.1 run
    have next := ih (kept before node t t₁ h first) later
    rwa [List.append_assoc] at next

theorem foldlM_fails {child : τ → XmlNode → Option τ} {t : τ} (run : nodes.foldlM child t = none) :
    ∃ node ∈ nodes, ∃ t', child t' node = none := by
  induction nodes generalizing t with
  | nil => cases run
  | cons node nodes ih =>
    cases first : child t node with
    | none => exact ⟨node, List.mem_cons_self, t, first⟩
    | some t₁ =>
      rw [List.foldlM_cons, first] at run
      obtain ⟨node', member, fails⟩ := ih run
      exact ⟨node', List.mem_cons_of_mem _ member, fails⟩

theorem Agrees.ends {R : τ → σ → Prop} {R' : σ → Prop} {exits : Prop} {out : Option (Outcome σ)}
    {list : Option τ} (h : Agrees R out list) (done : ∀ t s, list = some t → R t s → R' s)
    (fails : list = none → exits) : Ends R' exits out := by
  match out, list, h with
  | some (.done s), some t, h => exact done t s rfl h
  | some .exit, none, _ => exact fails rfl

theorem policyChild_fails {p : Policy Re} (fails : policyChild compile p node = none) :
    PolicyChildFails compile node := by
  unfold policyChild at fails
  cases tag : node.tag with
  | pcre =>
    rw [tag] at fails
    exact .inl ⟨tag, Option.map_eq_none_iff.1 fails⟩
  | policyRange =>
    rw [tag] at fails
    exact .inr ⟨tag, Option.map_eq_none_iff.1 fails⟩
  | _ =>
    rw [tag] at fails
    cases fails

theorem rangeChild_fails {ranges : List (Range Re)}
    (fails : rangeChild compile ranges node = none) :
    node.tag = .range ∧ sfConfRange compile node = none := by
  unfold rangeChild at fails
  cases tag : node.tag with
  | range =>
    rw [tag] at fails
    exact ⟨rfl, Option.map_eq_none_iff.1 fails⟩
  | _ =>
    rw [tag] at fails
    cases fails

theorem sfConfPolicyAt_order (compile : Option CString → Option Re) (nodes : List XmlNode)
    (more : Nat) : Ends
      (fun q : PolicyNodes Re =>
        Holds (tagged .pcre nodes) (sfConfPcre compile) q.pcreRoot ∧
          Holds (tagged .policyRange nodes) (sfConfPolicyRange compile) q.policyRange)
      (∃ node ∈ nodes, PolicyChildFails compile node)
      (sfConfPolicyAt compile (nodes.length + more) nodes) := by
  apply (sfConfPolicyAt_agrees nodes more).ends
  · intro p q loaded listed
    have order := foldlM_order (fun _ _ _ _ h run => PolicyOrder.child h run)
      (⟨rfl, rfl⟩ : PolicyOrder compile [] ⟨[], []⟩) loaded
    exact ⟨⟨_, order.rules, listed.1⟩, ⟨_, order.ranges, listed.2⟩⟩
  · intro failed
    obtain ⟨node, member, p, fails⟩ := foldlM_fails failed
    exact ⟨node, member, policyChild_fails fails⟩

theorem rangesAt_order (compile : Option CString → Option Re) (nodes : List XmlNode) (more : Nat) :
    Ends (Holds (tagged .range nodes) (sfConfRange compile))
      (∃ node ∈ nodes, node.tag = .range ∧ sfConfRange compile node = none)
      (rangesAt compile (nodes.length + more) nodes) := by
  apply (rangesAt_agrees nodes more).ends
  · intro ranges b loaded listed
    have start : (tagged .range []).map (sfConfRange compile) = [].map some := rfl
    have order := foldlM_order (P := fun nodes ranges =>
        (tagged .range nodes).map (sfConfRange compile) = ranges.map some)
      (fun _ _ _ _ h run => rangeChild_order h run) start loaded
    exact ⟨ranges, order, listed⟩
  · intro failed
    obtain ⟨node, member, ranges, fails⟩ := foldlM_fails failed
    exact ⟨node, member, rangeChild_fails fails⟩

/-- **After any number of elements the lists of rules and ranges have what was loaded of these
elements, in document order from the head pointer to NULL**, unless `sf_pcre_compile` has ended the
program. The fuel is the number of elements. -/
theorem conf_lists_in_order (compile : Option CString → Option Re) (nodes : List XmlNode)
    (n : Nat) :
    Ends
        (fun q : PolicyNodes Re =>
          Holds (tagged .pcre (nodes.take n)) (sfConfPcre compile) q.pcreRoot ∧
            Holds (tagged .policyRange (nodes.take n)) (sfConfPolicyRange compile) q.policyRange)
        (∃ node ∈ nodes.take n, PolicyChildFails compile node)
        (sfConfPolicyAt compile nodes.length (nodes.take n)) ∧
      Ends (Holds (tagged .range (nodes.take n)) (sfConfRange compile))
        (∃ node ∈ nodes.take n, node.tag = .range ∧ sfConfRange compile node = none)
        (rangesAt compile nodes.length (nodes.take n)) := by
  obtain ⟨more, fuel⟩ := Nat.exists_eq_add_of_le (List.length_take_le' n nodes)
  rw [fuel]
  exact ⟨sfConfPolicyAt_order compile _ more, rangesAt_order compile _ more⟩

end Order

end SpiderFrame.Conf
