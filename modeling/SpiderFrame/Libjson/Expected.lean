import SpiderFrame.Libjson.Dialect

/-!
# What may follow a state

For each state the texts that take the parser to the end of its input: the rest of the character, of the
string, of the number or of the value that has begun (`Tail`), and then what the arrays and objects around
it still need (`After`). A byte in front of what one state expects is something that the state before it
expects.
-/

namespace SpiderFrame.Libjson
open SpiderFrame.Base.Json (Space digit hexDigit)

/-- Some text of `A`, and then one of `K`. -/
def Before (A K : Bytes → Prop) (s : Bytes) : Prop := ∃ a r, A a ∧ K r ∧ s = a ++ r

/-- A byte, and then a text of `K`. -/
def Byte.Before (b : Byte) (K : Bytes → Prop) (s : Bytes) : Prop := ∃ r, K r ∧ s = b :: r

def blank (b : Byte) : Bool := [32#8, 9#8, 10#8, 13#8].contains b

section

variable {A B K : Bytes → Prop} {b : Byte} {r s w : Bytes}

theorem Before.cons (h : Before A K s) (next : ∀ a, A a → B (b :: a)) : Before B K (b :: s) := by
  obtain ⟨a, r, first, rest, rfl⟩ := h
  exact ⟨b :: a, r, next a first, rest, rfl⟩

theorem Before.here (first : A []) (h : K s) : Before A K s := ⟨[], s, first, h, rfl⟩

theorem space_nil : Space [] := List.forall_mem_nil _

theorem space_cons (blank_ : blank b = true) (h : Space w) : Space (b :: w) := by
  refine List.forall_mem_cons.2 ⟨?_, h⟩
  simpa [blank] using blank_

/-- White space in front. -/
theorem Before.blank (blank_ : Libjson.blank b = true) (h : Before Space K s) :
    Before Space K (b :: s) := h.cons fun _ => space_cons blank_

end

/-! ## Values in arrays and objects -/

def IsValue (v : Bytes) : Prop := ∃ t, Value v t

def IsStr (t : Bytes) : Prop := ∃ s, Str t s

/-- White space, a value and what follows it. -/
def ValueThen (K : Bytes → Prop) : Bytes → Prop := Before Space (Before IsValue K)

/-- The same with a colon in front. -/
def ColonThen (K : Bytes → Prop) : Bytes → Prop := Before Space (Byte.Before 58#8 (ValueThen K))

/-- A string up to its second quotation mark. -/
def StrThen (K : Bytes → Prop) : Bytes → Prop := Before IsStr (Byte.Before 34#8 K)

/-- A name, a colon and a value. -/
def MemberThen (K : Bytes → Prop) : Bytes → Prop :=
  Before Space (Byte.Before 34#8 (StrThen (ColonThen K)))

/-- What follows a value inside of these arrays and objects, up to the end of the text. -/
inductive After : List Mode → Bytes → Prop
  | top {w} (space : Space w) : After [] w
  | closeArray {stk w r} (space : Space w) (rest : After stk r) : After (.array :: stk) (w ++ 93#8 :: r)
  | closeObject {stk w r} (space : Space w) (rest : After stk r) :
    After (.object :: stk) (w ++ 125#8 :: r)
  | item {stk w w' v r} (space : Space w) (before : Space w') (value : IsValue v)
    (rest : After (.array :: stk) r) : After (.array :: stk) (w ++ 44#8 :: (w' ++ (v ++ r)))
  | member {stk w w' k w₁ w₂ v r} (space : Space w) (before : Space w') (name : IsStr k)
    (colon : Space w₁) (before' : Space w₂) (value : IsValue v) (rest : After (.object :: stk) r) :
    After (.object :: stk)
      (w ++ 44#8 :: (w' ++ 34#8 :: (k ++ 34#8 :: (w₁ ++ 58#8 :: (w₂ ++ (v ++ r))))))

section

variable {stk : List Mode} {b : Byte} {r s : Bytes}

theorem After.blank (blank_ : Libjson.blank b = true) (h : After stk s) : After stk (b :: s) := by
  cases h with
  | top space => exact .top (space_cons blank_ space)
  | closeArray space rest => exact .closeArray (space_cons blank_ space) rest
  | closeObject space rest => exact .closeObject (space_cons blank_ space) rest
  | item space before value rest => exact .item (space_cons blank_ space) before value rest
  | member space before name colon before' value rest =>
    exact .member (space_cons blank_ space) before name colon before' value rest

theorem After.comma_array (h : ValueThen (After (.array :: stk)) s) :
    After (.array :: stk) (44#8 :: s) := by
  obtain ⟨w, -, before, ⟨v, r, value, rest, rfl⟩, rfl⟩ := h
  exact .item space_nil before value rest

theorem After.comma_object (h : MemberThen (After (.object :: stk)) s) :
    After (.object :: stk) (44#8 :: s) := by
  obtain ⟨w, -, before, ⟨-, ⟨k, -, name, ⟨-, ⟨w₁, -, colon, ⟨-, ⟨w₂, -, before', ⟨v, r, value, rest,
    rfl⟩, rfl⟩, rfl⟩, rfl⟩, rfl⟩, rfl⟩, rfl⟩, rfl⟩ := h
  exact .member space_nil before name colon before' value rest

/-- The values of an array, from one of them on. -/
theorem After.items (h : After (.array :: stk) r) {w v : Bytes} (before : Space w)
    (value : IsValue v) :
    ∃ bs ts r', Items bs ts ∧ After stk r' ∧ w ++ (v ++ r) = bs ++ 93#8 :: r' := by
  generalize modes : Mode.array :: stk = all at h
  induction h generalizing w v with
  | top space => cases modes
  | closeObject space rest => cases modes
  | member space before name colon before' value rest => cases modes
  | @closeArray stk' w' r space rest =>
    cases modes
    obtain ⟨t, tree⟩ := value
    refine ⟨_, _, r, .one before tree space, rest, ?_⟩
    simp only [List.append_assoc]
  | @item stk' w₁ w₂ v' r space before' value' rest ih =>
    obtain ⟨t, tree⟩ := value
    obtain ⟨bs, ts, r', items, last, same⟩ := ih before' value' modes
    refine ⟨_, _, r', .more before tree space items, last, ?_⟩
    rw [same]
    simp only [List.append_assoc, List.cons_append]

/-- The members of an object, from one of them on. -/
theorem After.members (h : After (.object :: stk) r) {w k w₁ w₂ v : Bytes} (before : Space w)
    (name : IsStr k) (colon : Space w₁) (before' : Space w₂) (value : IsValue v) :
    ∃ bs ms r', Members bs ms ∧ After stk r' ∧
      w ++ 34#8 :: (k ++ 34#8 :: (w₁ ++ 58#8 :: (w₂ ++ (v ++ r)))) = bs ++ 125#8 :: r' := by
  generalize modes : Mode.object :: stk = all at h
  induction h generalizing w k w₁ w₂ v with
  | top space => cases modes
  | closeArray space rest => cases modes
  | item space before value rest => cases modes
  | @closeObject stk' w' r space rest =>
    cases modes
    obtain ⟨t, tree⟩ := value
    obtain ⟨u, str⟩ := name
    refine ⟨_, _, r, .one before str colon before' tree space, rest, ?_⟩
    simp only [List.append_assoc, List.cons_append]
  | @member stk' w' w₃ k' w₄ w₅ v' r space before₂ name' colon' before₃ value' rest ih =>
    obtain ⟨t, tree⟩ := value
    obtain ⟨u, str⟩ := name
    obtain ⟨bs, ms, r', members, last, same⟩ := ih before₂ name' colon' before₃ value' modes
    refine ⟨_, _, r', .more before str colon before' tree space members, last, ?_⟩
    rw [same]
    simp only [List.append_assoc, List.cons_append]

/-- Behind the bracket of an array: its end, or its values. -/
def ArrayThen (stk : List Mode) (s : Bytes) : Prop :=
  ValueThen (After stk) s ∨ ∃ stk', stk = .array :: stk' ∧ Before Space (Byte.Before 93#8 (After stk')) s

def ObjectThen (stk : List Mode) (s : Bytes) : Prop :=
  MemberThen (After stk) s ∨
    ∃ stk', stk = .object :: stk' ∧ Before Space (Byte.Before 125#8 (After stk')) s

/-- An array, from its bracket on. -/
theorem ArrayThen.value (h : ArrayThen (.array :: stk) s) :
    ∃ v t r, Value v t ∧ t.IsStructure ∧ After stk r ∧ 91#8 :: s = v ++ r := by
  rcases h with ⟨w, -, before, ⟨v, r, value, rest, rfl⟩, rfl⟩ |
    ⟨stk', same, w, -, space, ⟨r, rest, rfl⟩, rfl⟩
  · obtain ⟨bs, ts, r', items, last, same⟩ := rest.items before value
    refine ⟨_, .arr ts, r', .array items, trivial, last, ?_⟩
    rw [same, List.cons_append, List.append_assoc]
    rfl
  · cases same
    refine ⟨_, .arr [], r, .emptyArray space, trivial, rest, ?_⟩
    rw [List.cons_append, List.append_assoc]
    rfl

theorem ObjectThen.value (h : ObjectThen (.object :: stk) s) :
    ∃ v t r, Value v t ∧ t.IsStructure ∧ After stk r ∧ 123#8 :: s = v ++ r := by
  rcases h with h | ⟨stk', same, w, -, space, ⟨r, rest, rfl⟩, rfl⟩
  · obtain ⟨w, -, before, ⟨-, ⟨k, -, name, ⟨-, ⟨w₁, -, colon, ⟨-, ⟨w₂, -, before', ⟨v, r, value, rest,
      rfl⟩, rfl⟩, rfl⟩, rfl⟩, rfl⟩, rfl⟩, rfl⟩, rfl⟩ := h
    obtain ⟨bs, ms, r', members, last, same⟩ := rest.members before name colon before' value
    refine ⟨_, .obj ms, r', .object members, trivial, last, ?_⟩
    rw [same, List.cons_append, List.append_assoc]
    rfl
  · cases same
    refine ⟨_, .obj [], r, .emptyObject space, trivial, rest, ?_⟩
    rw [List.cons_append, List.append_assoc]
    rfl

end

/-! ## Numbers and literals -/

/-- `e` or `E` with what follows, or nothing. -/
def Power (t : Bytes) : Prop := t = [] ∨ Exponent t

/-- A point and digits, and an exponent if there is one. -/
def Decimal (t : Bytes) : Prop := ∃ frac exp, Fraction frac ∧ Power exp ∧ t = frac ++ exp

/-- The rest of a number, or of a literal, that has begun. -/
def Tail : St → Bytes → Prop
  | .ok, t => t = []
  | .m0, t => (∃ r, t = 48#8 :: r ∧ (r = [] ∨ Decimal r)) ∨
      ∃ d ds r, nonzero d = true ∧ Digits ds ∧ t = d :: (ds ++ r) ∧ (r = [] ∨ Decimal r ∨ Exponent r)
  | .z0, t => t = [] ∨ Decimal t
  | .i0, t => ∃ ds r, Digits ds ∧ t = ds ++ r ∧ (r = [] ∨ Decimal r ∨ Exponent r)
  | .r1, t => ∃ d ds r, Digits (d :: ds) ∧ t = d :: (ds ++ r) ∧ Power r
  | .r2, t => ∃ ds r, Digits ds ∧ t = ds ++ r ∧ Power r
  | .x1, t => ∃ sign d ds, (sign = [] ∨ sign = [43#8] ∨ sign = [45#8]) ∧ Digits (d :: ds) ∧
      t = sign ++ d :: ds
  | .x2, t => ∃ d ds, Digits (d :: ds) ∧ t = d :: ds
  | .x3, t => Digits t
  | .t1, t => t = [114#8, 117#8, 101#8]
  | .t2, t => t = [117#8, 101#8]
  | .t3, t => t = [101#8]
  | .f1, t => t = [97#8, 108#8, 115#8, 101#8]
  | .f2, t => t = [108#8, 115#8, 101#8]
  | .f3, t => t = [115#8, 101#8]
  | .f4, t => t = [101#8]
  | .n1, t => t = [117#8, 108#8, 108#8]
  | .n2, t => t = [108#8, 108#8]
  | .n3, t => t = [108#8]
  | _, _ => False

section

variable {b : Byte} {t : Bytes}

theorem digits_nil : Digits [] := List.forall_mem_nil _

theorem digits_cons (first : digit b = true) (rest : Digits t) : Digits (b :: t) :=
  List.forall_mem_cons.2 ⟨first, rest⟩

theorem Decimal.point (h : Tail .r1 t) : Decimal (46#8 :: t) := by
  obtain ⟨d, ds, r, digits, rfl, power⟩ := h
  exact ⟨46#8 :: d :: ds, r, ⟨d, ds, digits, rfl⟩, power, rfl⟩

theorem Exponent.letter (e : b = 101#8 ∨ b = 69#8) (h : Tail .x1 t) : Exponent (b :: t) := by
  obtain ⟨sign, d, ds, signed, digits, rfl⟩ := h
  exact ⟨b, sign, d, ds, e, signed, digits, rfl⟩

/-- A sign if there is one, the digits before the point, and what may follow them. -/
theorem number_value {sign int r : Bytes} (signed : sign = [] ∨ sign = [45#8]) (whole : IntPart int)
    (more : r = [] ∨ Decimal r ∨ (int ≠ [48#8] ∧ Exponent r)) : IsValue (sign ++ (int ++ r)) := by
  rcases more with rfl | ⟨frac, exp, fraction, power, rfl⟩ | exponent
  · rw [List.append_nil]
    exact ⟨_, .int ⟨sign, int, signed, whole, rfl⟩⟩
  · exact ⟨_, .float ⟨sign, int, _, signed, whole, rfl, .inl ⟨frac, exp, fraction, power, rfl⟩⟩⟩
  · exact ⟨_, .float ⟨sign, int, _, signed, whole, rfl, .inr exponent⟩⟩

theorem value_zero {sign r : Bytes} (signed : sign = [] ∨ sign = [45#8]) (h : r = [] ∨ Decimal r) :
    IsValue (sign ++ 48#8 :: r) :=
  number_value signed .zero (h.imp_right .inl)

theorem value_nonzero {sign ds r : Bytes} {d : Byte} (signed : sign = [] ∨ sign = [45#8])
    (first : nonzero d = true) (rest : Digits ds) (h : r = [] ∨ Decimal r ∨ Exponent r) :
    IsValue (sign ++ d :: (ds ++ r)) := by
  have other : d :: ds ≠ [48#8] := by
    intro same
    cases same
    cases first
  exact number_value signed (.more first rest) (h.imp_right (.imp_right (⟨other, ·⟩)))

/-- The state behind the first byte of a number or of a literal. -/
def scalarStart (b : Byte) : Option St :=
  if b = 45#8 then some .m0
  else if b = 48#8 then some .z0
  else if nonzero b then some .i0
  else if b = 110#8 then some .n1
  else if b = 116#8 then some .t1
  else if b = 102#8 then some .f1
  else none

theorem scalarStart_value {st : St} (start : scalarStart b = some st) (h : Tail st t) :
    IsValue (b :: t) := by
  unfold scalarStart at start
  split at start
  · rename_i minus
    cases start
    subst minus
    rcases h with ⟨r, rfl, rest⟩ | ⟨d, ds, r, first, digits, rfl, rest⟩
    · exact value_zero (.inr rfl) rest
    · exact value_nonzero (.inr rfl) first digits rest
  split at start
  · rename_i zero
    cases start
    subst zero
    exact value_zero (.inl rfl) h
  split at start
  · rename_i first
    cases start
    obtain ⟨ds, r, digits, rfl, rest⟩ := h
    exact value_nonzero (.inl rfl) first digits rest
  split at start
  · rename_i letter
    cases start
    subst letter h
    exact ⟨_, .litNull⟩
  split at start
  · rename_i letter
    cases start
    subst letter h
    exact ⟨_, .litTrue⟩
  split at start
  · rename_i letter
    cases start
    subst letter h
    exact ⟨_, .litFalse⟩
  · cases start

end

end SpiderFrame.Libjson
