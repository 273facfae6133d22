import SpiderFrame.Link.DualLink
import SpiderFrame.Page.World

/-!
# Loading a configuration (`sf_conf.c`)

`sf_conf_init` walks the children of a document's root. A document is the tree that libxml2 makes of
the file, with the attributes that the loader asks for; whatever the loader does not compare a
name with is `other`. `sf_pcre_compile` calls `exit(0)` for a pattern that does not compile, so a
load also ends there.

Policies and headers are nodes as in the source, the policies and the headers numbered in the order
of their allocation. The lists of rules and ranges, which grow at their ends, are lists. The
attribute `interval`, the log and the returned code of `sf_conf_init` but for a document that cannot
be read are left out.
-/

namespace SpiderFrame.Conf
open SpiderFrame.Base SpiderFrame.Link SpiderFrame.Queue SpiderFrame.Page

/-! ## Documents -/

/-- The names of elements that the loader compares with. -/
inductive Tag where
  | policy | pcre | cap | newSpider | trigger | range | policyRange | vars | var | header | headers
  | other
  deriving DecidableEq

/-- The names of attributes that the loader asks for. -/
inductive Attr where
  | urlCount | urlLevel | method | postData | userAgent | urlSuffix | urlFeedback
  | regex | urlmatch | hdrmatch | movetoend | repeat_ | uniq | jsonNew
  | capstr | outPattern | jsonOut | storeAs | contentAs
  | configFile | url | inputFile | program | args
  | urlWhite | urlBlack | urlRewrite | name | value | include_
  deriving DecidableEq

/-- A node with its attributes and its child nodes. -/
inductive XmlNode where
  | mk (tag : Tag) (props : List (Attr × CString)) (children : List XmlNode)

namespace XmlNode

def tag : XmlNode → Tag
  | mk tag _ _ => tag

def children : XmlNode → List XmlNode
  | mk _ _ children => children

/-- `xmlGetProp(node, attr)`. -/
def prop : XmlNode → Attr → Option CString
  | mk _ props _, attr => props.lookup attr

end XmlNode

/-- The XML files: the root of each document, if it has one. -/
abbrev Files := List (CString × Option XmlNode)

/-- `xmlReadFile(fn, ..)` and `xmlDocGetRootElement`. -/
def xmlReadFile (files : Files) (fn : CString) : Option (Option XmlNode) := files.lookup fn

/-- `atoi`. -/
def atoi (s : CString) : Int :=
  let (sign, bs) := scanSign (skipSpace s.bytes)
  sign * number (bs.takeWhile isDigit)

/-- `sf_load_attr_int_default(node, attr, .., default)`. -/
def attrInt (node : XmlNode) (attr : Attr) (default : Int) : Int :=
  ((node.prop attr).map atoi).getD default

/-- The same into a field of one bit. -/
def attrBit (node : XmlNode) (attr : Attr) (default : Int) : Bool :=
  attrInt node attr default % 2 == 1

/-! ## What is loaded -/

/-- `sf_conf_t` with its nodes, and the variables in the order of their insertion. -/
structure Loaded (Re : Type) extends Crawl.Conf where
  method : CString
  postData : CString
  userAgent : CString
  urlSuffix : Option CString
  policies : Nat → Policy Re
  policyNext : Nat → Option Nat
  policy : Option Nat
  policyCnt : Nat
  range : List (Range Re)
  hdrValue : Nat → CString
  hdrLinks : Links Nat
  headers : Option Nat
  headerCnt : Nat
  vars : List (CString × CString)

variable {Re : Type}

/-- `p->next = *policyptr; *policyptr = p`, for a new node. -/
def Loaded.addPolicy (b : Loaded Re) (p : Policy Re) : Loaded Re :=
  { b with
    policies := Function.update b.policies b.policyCnt p
    policyNext := Function.update b.policyNext b.policyCnt b.policy
    policy := some b.policyCnt
    policyCnt := b.policyCnt + 1 }

/-- `DualLinkAppend(headersptr, hdr)`, for a new node. -/
def Loaded.addHeader (b : Loaded Re) (value : CString) : Loaded Re :=
  let (links, root) := dualLinkAppend b.hdrLinks b.headers b.headerCnt
  { b with
    hdrValue := Function.update b.hdrValue b.headerCnt value
    hdrLinks := links
    headers := root
    headerCnt := b.headerCnt + 1 }

/-! ## Elements

`compile` is `pcre_compile`, on NULL where the attribute is missing; a part of the load that has
called `exit(0)` has no result. -/

section Elements

variable (compile : Option CString → Option Re)

/-- `sf_conf_cap(nodes, ..)`. -/
def sfConfCap (nodes : List XmlNode) : List Capture :=
  (nodes.filter fun node => node.tag = .cap).map fun node =>
    { capstr := node.prop .capstr
      outPattern := node.prop .outPattern
      jsonOut := node.prop .jsonOut
      storeAs := node.prop .storeAs
      contentAs := node.prop .contentAs }

/-- `sf_conf_newspider(nodes, ..)`. -/
def sfConfNewspider (nodes : List XmlNode) : List NewSpider :=
  (nodes.filter fun node => node.tag = .newSpider).map fun node =>
    { confFn := node.prop .configFile
      urlExp := node.prop .url
      finFn := node.prop .inputFile }

/-- `sf_conf_trigger(nodes, ..)`. -/
def sfConfTrigger (nodes : List XmlNode) : List Trigger :=
  (nodes.filter fun node => node.tag = .trigger).map fun node =>
    { program := node.prop .program
      args := node.prop .args
      storeAs := node.prop .storeAs }

/-- `sf_conf_pcre(node, ..)`. -/
def sfConfPcre (node : XmlNode) : Option (Rule Re) :=
  (compile (node.prop .regex)).map fun re =>
    { re := re
      urlmatch := attrBit node .urlmatch 0
      hdrmatch := attrBit node .hdrmatch 0
      movetoend := attrBit node .movetoend 1
      repeat_ := attrInt node .repeat_ 1
      uniq := node.prop .uniq
      jsonNew := node.prop .jsonNew
      sfcap := sfConfCap node.children
      ns := sfConfNewspider node.children
      trigger := sfConfTrigger node.children }

/-- The pattern of an attribute that may be missing. -/
def compileSome (pattern : Option CString) : Option (Option Re) :=
  match pattern with
  | none => some none
  | some pattern => (compile (some pattern)).map some

/-- The patterns of `sf_conf_policy_range(node, ..)`. -/
def policyRangeOf (node : XmlNode) : Option (PolicyRange Re) := do
  let white ← compile (node.prop .urlWhite)
  let black ← compileSome compile (node.prop .urlBlack)
  some ⟨white, black⟩

/-- `sf_conf_policy_range(node, ..)`, up to the pattern that `sf_proc_url_match_range` reads. -/
def sfConfPolicyRange (node : XmlNode) : Option Re := (policyRangeOf compile node).map (·.urlWhite)

/-- One child in `sf_conf_policy`. -/
def policyChild (p : Policy Re) (node : XmlNode) : Option (Policy Re) :=
  match node.tag with
  | .pcre =>
    (sfConfPcre compile node).map fun rule => { p with pcreRoot := p.pcreRoot ++ [rule] }
  | .policyRange =>
    (sfConfPolicyRange compile node).map fun re => { p with policyRange := p.policyRange ++ [re] }
  | _ => some p

/-- `sf_conf_policy(nodes, ..)`, up to the node that it fills. -/
def sfConfPolicy (nodes : List XmlNode) : Option (Policy Re) :=
  nodes.foldlM (policyChild compile) ⟨[], []⟩

/-- `sf_conf_range(node, ..)`. -/
def sfConfRange (node : XmlNode) : Option (Range Re) := do
  let white ← compileSome compile (node.prop .urlWhite)
  let black ← compileSome compile (node.prop .urlBlack)
  some ⟨white, black, node.prop .urlRewrite⟩

/-- One child in `sf_conf_headers`. -/
def headerChild (b : Loaded Re) (node : XmlNode) : Loaded Re :=
  if node.tag = .header then
    match node.prop .value with
    | some value => b.addHeader value
    | none => b
  else b

/-- `sf_conf_headers(node, ..)`. -/
def sfConfHeaders (b : Loaded Re) (node : XmlNode) : Loaded Re := node.children.foldl headerChild b

/-! ## Variables -/

/-- The variables of the children in `sf_conf_vars`. -/
def varsOf (nodes : List XmlNode) : List (CString × CString) :=
  nodes.filterMap fun node =>
    if node.tag = .var then
      (node.prop .name).bind fun varn => (node.prop .value).map fun varv => (varn, varv)
    else none

/-- `sf_conf_vars_include(fn, s)`, around `sf_conf_vars`. -/
def sfConfVarsInclude (files : Files) (sfConfVars : XmlNode → Option (List (CString × CString)))
    (fn : CString) : Option (List (CString × CString)) :=
  match xmlReadFile files fn with
  | some (some root) => sfConfVars root
  | _ => some []

/-- `sf_conf_vars(node, s)`; no result is a load that has not ended within the fuel. -/
def sfConfVars (files : Files) : Nat → XmlNode → Option (List (CString × CString))
  | 0, _ => none
  | fuel + 1, node => do
    let included ←
      match node.prop .include_ with
      | some fn => sfConfVarsInclude files (sfConfVars files fuel) fn
      | none => some []
    some (included ++ varsOf node.children)

/-! ## The root -/

/-- A part of the load is done, or `exit(0)` has been called. -/
inductive Outcome (α : Type) where
  | done (a : α)
  | exit

def Outcome.of {α β : Type} (f : α → β) : Option α → Outcome β
  | some a => .done (f a)
  | none => .exit

/-- One child of the root in `sf_conf_init`. -/
def rootChild (files : Files) (fuel : Nat) (b : Loaded Re) (node : XmlNode) :
    Option (Outcome (Loaded Re)) :=
  match node.tag with
  | .policy => some (.of b.addPolicy (sfConfPolicy compile node.children))
  | .range =>
    some (.of (fun range => { b with range := b.range ++ [range] }) (sfConfRange compile node))
  | .vars =>
    (sfConfVars files fuel node).map fun vars => .done { b with vars := b.vars ++ vars }
  | .headers => some (.done (sfConfHeaders b node))
  | _ => some (.done b)

/-- The loop over the children of the root. -/
def rootChildren (files : Files) (fuel : Nat) :
    Loaded Re → List XmlNode → Option (Outcome (Loaded Re))
  | b, [] => some (.done b)
  | b, node :: nodes =>
    (rootChild compile files fuel b node).bind fun
      | .done b => rootChildren files fuel b nodes
      | .exit => some .exit

/-- `GET`. -/
def get : CString := .ofBytes [71#8, 69#8, 84#8]

/-- `IE_UA`: `Mozilla/4.0 (compatible; MSIE 8.0; Windows NT 6.0; Trident/4.0)`. -/
def ieUa : CString := .ofBytes
  [77#8, 111#8, 122#8, 105#8, 108#8, 108#8, 97#8, 47#8, 52#8, 46#8, 48#8, 32#8, 40#8, 99#8, 111#8,
    109#8, 112#8, 97#8, 116#8, 105#8, 98#8, 108#8, 101#8, 59#8, 32#8, 77#8, 83#8, 73#8, 69#8,
    32#8, 56#8, 46#8, 48#8, 59#8, 32#8, 87#8, 105#8, 110#8, 100#8, 111#8, 119#8, 115#8, 32#8,
    78#8, 84#8, 32#8, 54#8, 46#8, 48#8, 59#8, 32#8, 84#8, 114#8, 105#8, 100#8, 101#8, 110#8,
    116#8, 47#8, 52#8, 46#8, 48#8, 41#8]

/-- The attributes of the root. -/
def rootAttrs (root : XmlNode) : Loaded Re where
  urlCount := attrInt root .urlCount 1
  urlLevel := attrInt root .urlLevel 1
  urlFeedback := attrInt root .urlFeedback 0 != 0
  method := (root.prop .method).getD get
  postData := (root.prop .postData).getD .empty
  userAgent := (root.prop .userAgent).getD ieUa
  urlSuffix := root.prop .urlSuffix
  policies _ := ⟨[], []⟩
  policyNext _ := none
  policy := none
  policyCnt := 0
  range := []
  hdrValue _ := .empty
  hdrLinks := ⟨id, id⟩
  headers := none
  headerCnt := 0
  vars := []

/-- `sf_conf_init(s, conf_fn)`; `-1` is a document that cannot be read or is empty. -/
def sfConfInit (files : Files) (fuel : Nat) (confFn : CString) :
    Option (Outcome (Option (Loaded Re))) :=
  match xmlReadFile files confFn with
  | some (some root) =>
    (rootChildren compile files fuel (rootAttrs root) root.children).map fun
      | .done b => .done (some b)
      | .exit => .exit
  | _ => some (.done none)

end Elements

end SpiderFrame.Conf
