import SpiderFrame.Page.World

/-!
# Variables in texts (`sf_var.c`, `sf_json.c`, `sf_pcre.c`)

`sf_var_exp` puts the values of variables into a text, `sf_json_print_buf` prints the variables
that a text names as the members of an object, and `sf_pcre_getcontent` takes the tags out of a
captured text. Searches of the ring of variables take fuel.
-/

namespace SpiderFrame.Page
open SpiderFrame.Base SpiderFrame.Var

variable {Re : Type}

/-- `SF_MAX_VAR_SIZE`. -/
def maxVarSize : Nat := 131072

/-- `($name)` as `(`, `$` and `)`. -/
abbrev varPieces : List Byte → List (Piece Byte) := pieces 40#8 36#8 41#8 none

/-- The variable that a reference names, with its `$`. -/
def varName (name : List Byte) : CString := .ofBytes (36#8 :: name)

/-- One round of the loop of `sf_var_exp`. A reference for which there is no room is left out. -/
def expandPiece (fuel : Nat) (m : VarMem) (handle : Option Nat) (dststr : List Byte) :
    Piece Byte → Option (List Byte)
  | .reference name =>
    (sfVarSearch fuel m handle (varName name)).map fun v =>
      let text :=
        match v with
        | some v => (m.vars v).value.bytes
        | none => (Piece.reference name).text 40#8 36#8 41#8
      if dststr.length + text.length < maxVarSize then dststr ++ text else dststr
  | p => some (dststr ++ p.text 40#8 36#8 41#8)

/-- `sf_var_exp(handle, varexp, pool)`; `varexp` may be NULL. -/
def sfVarExp (fuel : Nat) (m : VarMem) (handle : Option Nat) (varexp : Option CString) :
    Option CString :=
  varexp.bind fun varexp =>
    ((varPieces varexp.bytes).foldlM (expandPiece fuel m handle) []).bind fun dststr =>
      if dststr.length < maxVarSize then some (.ofBytes dststr) else none

/-- `sf_var_exp(s->var_handle, varexp, ..)`. -/
def expand (fuel : Nat) (r : Ref) (varexp : Option CString) : Run Re CString := do
  let w ← Prog.get
  Prog.ofOption (sfVarExp fuel w.vars (w.spider r).varHandle varexp)

/-- A change of the ring of `s->var_handle`. -/
def changeVars (r : Ref) (f : VarMem → Option Nat → Option (VarMem × Option Nat)) :
    Run Re Unit := do
  let w ← Prog.get
  let (vars, handle) ← Prog.ofOption (f w.vars (w.spider r).varHandle)
  Prog.modify fun w => { w with vars := vars }
  update r fun s => { s with varHandle := handle }

/-- `sf_var_insert(&s->var_handle, sf_var_create(name, value, ..))`. -/
def setVar (fuel : Nat) (r : Ref) (name : CString) (value : Option CString) : Run Re Unit :=
  changeVars r fun m handle => createInsert fuel m handle name value

/-- `sf_var_delete(&s->var_handle, name)`. -/
def deleteVar (fuel : Nat) (r : Ref) (name : CString) : Run Re Unit :=
  changeVars r fun m handle => sfVarDelete fuel m handle name

/-- One round of the loop of `sf_json_print_buf`. -/
def printPiece (fuel : Nat) (r : Ref) : Piece Byte → Run Re Unit
  | .reference name => do
    let w ← Prog.get
    let found ← Prog.ofOption (sfVarSearch fuel w.vars (w.spider r).varHandle (varName name))
    match found with
    | some v =>
      Prog.each json
        [.key ((w.vars.vars v).name.bytes.drop 1), .string (w.vars.vars v).value.bytes]
    | none => pure ()
  | _ => pure ()

/-- `sf_json_print_buf(s->var_handle, varexp)`. -/
def sfJsonPrintBuf (fuel : Nat) (r : Ref) (varexp : CString) : Run Re Unit :=
  around [.objectBegin] [.objectEnd] (Prog.each (printPiece fuel r) (varPieces varexp.bytes))

/-! ## `sf_pcre_getcontent` -/

/-- `<blockquote`, `</blockquote>`, `<script`, `</script>`, `<style` and `</style>`. -/
def blockquote : List Byte :=
  [60#8, 98#8, 108#8, 111#8, 99#8, 107#8, 113#8, 117#8, 111#8, 116#8, 101#8]
def blockquoteEnd : List Byte :=
  [60#8, 47#8, 98#8, 108#8, 111#8, 99#8, 107#8, 113#8, 117#8, 111#8, 116#8, 101#8, 62#8]
def script : List Byte := [60#8, 115#8, 99#8, 114#8, 105#8, 112#8, 116#8]
def scriptEnd : List Byte := [60#8, 47#8, 115#8, 99#8, 114#8, 105#8, 112#8, 116#8, 62#8]
def style : List Byte := [60#8, 115#8, 116#8, 121#8, 108#8, 101#8]
def styleEnd : List Byte := [60#8, 47#8, 115#8, 116#8, 121#8, 108#8, 101#8, 62#8]

/-- The text behind the first `tag`, or its end. -/
def behind (tag : List Byte) : List Byte → List Byte
  | [] => []
  | b :: p => if tag.isPrefixOf (b :: p) then (b :: p).drop tag.length else behind tag p

/-- At a `<`: what is copied, and where the loop goes on. A block quotation is passed over
together with the next tag behind it. -/
def passTag (p : List Byte) : List Byte × List Byte :=
  let p := if blockquote.isPrefixOf p then behind blockquoteEnd (p.drop blockquote.length) else p
  if script.isPrefixOf p then ([], behind scriptEnd (p.drop script.length))
  else if style.isPrefixOf p then ([], behind styleEnd (p.drop style.length))
  else
    match p.dropWhile (· != 62#8) with
    | [] => (p, [])
    | _ :: p => ([], p)

/-- The loop, of which each round takes a byte at least. -/
def contentLoop : Nat → List Byte → List Byte
  | 0, _ => []
  | _, [] => []
  | n + 1, 60#8 :: p =>
    let (copied, p) := passTag (60#8 :: p)
    copied ++ contentLoop n p
  | n + 1, b :: p => b :: contentLoop n p

/-- `sf_pcre_getcontent(pool, outstr)`; of an empty string it reads what is behind the NUL. -/
def sfPcreGetcontent (outstr : CString) : Option CString :=
  if outstr.bytes = [] then none
  else some (.ofBytes (contentLoop outstr.bytes.length outstr.bytes))

end SpiderFrame.Page
