import Mathlib.Data.Fintype.OfMap
import SpiderFrame.CString

/-!
# The tables of the parser (`libjson/json.c`)

The class of a byte, the next state or the action for a state and a class, and whether the byte goes
into the buffer. A row of the transition table lists what is not an error.
-/

namespace SpiderFrame.Libjson

/-- `enum classes`, but for `C_ERROR`. -/
inductive Cls
  | space | nl | white | lcurb | rcurb | lsqrb | rsqrb | colon | comma | quote | backs | slash | plus
  | minus | dot | zero | digit | a | b | c | d | e | f | l | n | r | s | t | u | abcdf | capE | other
  | star | hashSign
  deriving DecidableEq

namespace Cls

/-- `character_class` from the space on, eight bytes a line. -/
def table : List Cls :=
  [space, other, quote, hashSign, other, other, other, other,
   other, other, star, plus, comma, minus, dot, slash,
   zero, digit, digit, digit, digit, digit, digit, digit,
   digit, digit, colon, other, other, other, other, other,

   other, abcdf, abcdf, abcdf, abcdf, capE, abcdf, other,
   other, other, other, other, other, other, other, other,
   other, other, other, other, other, other, other, other,
   other, other, other, lsqrb, backs, rsqrb, other, other,

   other, a, b, c, d, e, f, other,
   other, other, other, other, l, other, n, other,
   other, other, r, s, t, u, other, other,
   other, other, other, lcurb, other, rcurb, other, other]

/-- The digits and letters of a hexadecimal number. -/
def hex : Cls → Bool
  | zero | digit | a | b | c | d | e | f | abcdf | capE => true
  | _ => false

end Cls

/-- `character_class[ch]` for bytes below 128; `none` is `C_ERROR`. -/
def characterClass (ch : Byte) : Option Cls :=
  if ch = 9#8 ∨ ch = 13#8 then some .white
  else if ch = 10#8 then some .nl
  else if ch < 32#8 then none
  else Cls.table[ch.toNat - 32]?

/-- `utf8_header_table[ch]`: how many bytes follow; `none` is `0xff`. -/
def utf8Header (ch : Byte) : Option Nat :=
  if ch < 0x80#8 then some 0
  else if ch < 0xc0#8 then none
  else if ch < 0xe0#8 then some 1
  else if ch < 0xf0#8 then some 2
  else if ch < 0xf8#8 then some 3
  else if ch < 0xfc#8 then some 4
  else if ch < 0xfe#8 then some 5
  else none

/-- `utf8_continuation_table[ch]` is 0. -/
def utf8Continuation (ch : Byte) : Bool := 0x80#8 ≤ ch && ch < 0xc0#8

/-- `enum states`. -/
inductive St
  | go | ok | o | k | co | v | a | s | e0 | u1 | u2 | u3 | u4 | m0 | z0 | i0 | r1 | r2 | x1 | x2 | x3
  | t1 | t2 | t3 | f1 | f2 | f3 | f4 | n1 | n2 | n3 | c1 | c2 | c3 | y1 | d1 | d2
  deriving DecidableEq

instance : Fintype Cls :=
  .ofList [.space, .nl, .white, .lcurb, .rcurb, .lsqrb, .rsqrb, .colon, .comma, .quote, .backs, .slash,
    .plus, .minus, .dot, .zero, .digit, .a, .b, .c, .d, .e, .f, .l, .n, .r, .s, .t, .u, .abcdf, .capE,
    .other, .star, .hashSign] fun cls => by cases cls <;> decide

instance : Fintype St :=
  .ofList [.go, .ok, .o, .k, .co, .v, .a, .s, .e0, .u1, .u2, .u3, .u4, .m0, .z0, .i0, .r1, .r2, .x1, .x2,
    .x3, .t1, .t2, .t3, .f1, .f2, .f3, .f4, .n1, .n2, .n3, .c1, .c2, .c3, .y1, .d1, .d2]
    fun st => by cases st <;> decide

/-- `enum actions`. -/
inductive Act
  | ks | sp | ab | ae | ob | oe | cb | yb | ce | fa | tr | nu | de | df | se | mx | zx | ix | uc
  deriving DecidableEq

/-- An entry of the transition table. -/
inductive Next
  | goto (st : St)
  | act (act : Act)
  | error
  deriving DecidableEq

section

open Next Cls St Act

/-- `state_transition_table[state][class]`. -/
def transition : St → Cls → Next
  | go, x => match x with
    | space | nl | white => goto go
    | lcurb => act ob
    | lsqrb => act ab
    | slash => act cb
    | hashSign => act yb
    | _ => error
  | ok, x => match x with
    | space | nl | white => goto ok
    | rcurb => act oe
    | rsqrb => act ae
    | comma => act sp
    | slash => act cb
    | hashSign => act yb
    | _ => error
  | o, x => match x with
    | space | nl | white => goto o
    | rcurb => act oe
    | quote => goto St.s
    | slash => act cb
    | hashSign => act yb
    | _ => error
  | k, x => match x with
    | space | nl | white => goto k
    | quote => goto St.s
    | slash => act cb
    | hashSign => act yb
    | _ => error
  | co, x => match x with
    | space | nl | white => goto co
    | colon => act ks
    | slash => act cb
    | hashSign => act yb
    | _ => error
  | v, x => match x with
    | space | nl | white => goto v
    | lcurb => act ob
    | lsqrb => act ab
    | quote => goto St.s
    | slash => act cb
    | minus => act mx
    | zero => act zx
    | digit => act ix
    | f => goto f1
    | n => goto n1
    | t => goto t1
    | hashSign => act yb
    | _ => error
  | St.a, x => match x with
    | space | nl | white => goto St.a
    | lcurb => act ob
    | lsqrb => act ab
    | rsqrb => act ae
    | quote => goto St.s
    | slash => act cb
    | minus => act mx
    | zero => act zx
    | digit => act ix
    | f => goto f1
    | n => goto n1
    | t => goto t1
    | hashSign => act yb
    | _ => error
  | St.s, x => match x with
    | nl | white => error
    | quote => act se
    | backs => goto e0
    | _ => goto St.s
  | e0, x => match x with
    | quote | backs | slash | b | f | n | r | t => goto St.s
    | u => goto u1
    | _ => error
  | u1, x => if hex x then goto u2 else error
  | u2, x => if hex x then goto u3 else error
  | u3, x => if hex x then goto u4 else error
  | u4, x => if hex x then act uc else error
  | m0, x => match x with
    | zero => goto z0
    | digit => goto i0
    | _ => error
  | z0, x => match x with
    | space | nl | white => goto ok
    | rcurb => act oe
    | rsqrb => act ae
    | comma => act sp
    | slash => act cb
    | dot => act df
    | hashSign => act yb
    | _ => error
  | i0, x => match x with
    | space | nl | white => goto ok
    | rcurb => act oe
    | rsqrb => act ae
    | comma => act sp
    | slash => act cb
    | dot => act df
    | zero | digit => goto i0
    | e | capE => act de
    | hashSign => act yb
    | _ => error
  | r1, x => match x with
    | zero | digit => goto r2
    | _ => error
  | r2, x => match x with
    | space | nl | white => goto ok
    | rcurb => act oe
    | rsqrb => act ae
    | comma => act sp
    | slash => act cb
    | zero | digit => goto r2
    | e | capE => goto x1
    | hashSign => act yb
    | _ => error
  | x1, x => match x with
    | plus | minus => goto x2
    | zero | digit => goto x3
    | _ => error
  | x2, x => match x with
    | zero | digit => goto x3
    | _ => error
  | x3, x => match x with
    | space | nl | white => goto ok
    | rcurb => act oe
    | rsqrb => act ae
    | comma => act sp
    | zero | digit => goto x3
    | _ => error
  | t1, x => if x = r then goto t2 else error
  | t2, x => if x = u then goto t3 else error
  | t3, x => if x = e then act tr else error
  | f1, x => if x = Cls.a then goto f2 else error
  | f2, x => if x = l then goto f3 else error
  | f3, x => if x = Cls.s then goto f4 else error
  | f4, x => if x = e then act fa else error
  | n1, x => if x = u then goto n2 else error
  | n2, x => if x = l then goto n3 else error
  | n3, x => if x = l then act nu else error
  | c1, x => if x = Cls.star then goto c2 else error
  | c2, x => if x = Cls.star then goto c3 else goto c2
  | c3, x => match x with
    | slash => act ce
    | Cls.star => goto c3
    | _ => goto c2
  | y1, x => if x = nl then act ce else goto y1
  | d1, x => if x = backs then goto d2 else error
  | d2, x => if x = u then goto u1 else error

/-- An entry of the table of buffer policies. -/
inductive Policy
  | ignore | append | escape
  deriving DecidableEq

/-- `buffer_policy_table[state][class]`. -/
def bufferPolicy : St → Cls → Policy
  | v, x | St.a, x => match x with
    | minus | zero | digit => .append
    | _ => .ignore
  | St.s, x => match x with
    | nl | white | quote | backs => .ignore
    | _ => .append
  | e0, x => match x with
    | quote | backs | slash | b | f | n | r | t => .escape
    | _ => .ignore
  | u1, x | u2, x | u3, x | u4, x => if hex x then .append else .ignore
  | m0, x | r1, x | x2, x | x3, x => match x with
    | zero | digit => .append
    | _ => .ignore
  | z0, x => match x with
    | dot => .append
    | _ => .ignore
  | i0, x => match x with
    | dot | zero | digit | e | capE => .append
    | _ => .ignore
  | r2, x => match x with
    | zero | digit | e | capE => .append
    | _ => .ignore
  | x1, x => match x with
    | plus | minus | zero | digit => .append
    | _ => .ignore
  | _, _ => .ignore

end

end SpiderFrame.Libjson
