import SpiderFrame.CString

/-!
# Records of `url.txt`

`SF_URL_OUT_PATTERN` is `"%d|%s\n"` for `fprintf` and for `fscanf`. The file is its
bytes; `fscanfRecord` reads any bytes, well formed or not, from where the stream stands.
Reading what was printed gives the record back and stops at the next one
(`fscanfRecord_encode`).

A level outside `int` and a token of 2048 bytes or more are undefined behaviour in the
source; here a level is any integer and a token has any length.
-/

namespace SpiderFrame.Queue

/-- A line of `url.txt`. -/
structure Record where
  level : Int
  url : Url
  deriving DecidableEq

/-! ## `fprintf(fp, "%d|%s\n", level, url)` -/

def decimal (n : Nat) : List Byte := (Nat.toDigits 10 n).map fun c => BitVec.ofNat 8 c.toNat

def printInt (i : Int) : List Byte := if i < 0 then 45#8 :: decimal i.natAbs else decimal i.natAbs

def fprintfRecord (level : Int) (url : CString) : List Byte :=
  printInt level ++ 124#8 :: (url.bytes ++ [10#8])

def Record.encode (r : Record) : List Byte := fprintfRecord r.level r.url.str

def encodeAll (rs : List Record) : List Byte := rs.flatMap Record.encode

/-! ## `fscanf(fp, "%d|%s\n", &level, url)` -/

def EOF : Int := -1

/-- What a call returns, what it stores, and the bytes after the place it stops at. -/
structure Scanned where
  rc : Int
  level : Option Int
  url : Option CString
  rest : List Byte
  deriving DecidableEq

def isDigit (b : Byte) : Bool := 48#8 ≤ b && b ≤ 57#8

def skipSpace (bs : List Byte) : List Byte := bs.dropWhile isSpace

def scanSign : List Byte → Int × List Byte
  | [] => (1, [])
  | b :: bs => if b = 45#8 then (-1, bs) else if b = 43#8 then (1, bs) else (1, b :: bs)

def number (digits : List Byte) : Nat := digits.foldl (fun n d => 10 * n + (d.toNat - 48)) 0

/-- `|%s\n`, once `%d` has stored `level`. -/
def scanUrl (level : Int) : List Byte → Scanned
  | 124#8 :: bs =>
    let bs := skipSpace bs
    let token := bs.takeWhile fun b => !isSpace b
    if token = [] then ⟨1, some level, none, bs⟩
    else ⟨2, some level, some (.ofBytes token), skipSpace (bs.dropWhile fun b => !isSpace b)⟩
  | bs => ⟨1, some level, none, bs⟩

/-- `fscanf` with `SF_URL_OUT_PATTERN`, on words that fit into the 2048 bytes of `url` and levels that
fit into `int`. -/
def fscanfRecord (bs : List Byte) : Scanned :=
  let bs := skipSpace bs
  if bs = [] then ⟨EOF, none, none, []⟩
  else
    let (sign, bs) := scanSign bs
    let digits := bs.takeWhile isDigit
    let bs := bs.dropWhile isDigit
    if digits = [] then ⟨0, none, none, bs⟩ else scanUrl (sign * number digits) bs

/-! ## Reading back what was printed -/

/-- The next record, if there is one, starts at once. -/
def NoSpaceHead (bs : List Byte) : Prop := ∀ b ∈ bs.head?, isSpace b = false

theorem skipSpace_of_head {bs : List Byte} (h : NoSpaceHead bs) : skipSpace bs = bs := by
  cases bs with
  | nil => rfl
  | cons b bs => simp [skipSpace, h b (by simp)]

theorem digitChar_byte : ∀ d, d < 10 →
    isDigit (BitVec.ofNat 8 (Nat.digitChar d).toNat) = true ∧
      (BitVec.ofNat 8 (Nat.digitChar d).toNat).toNat - 48 = d := by
  decide

/-- The last digit comes last. -/
theorem decimal_snoc (n : Nat) : decimal n =
    (if n < 10 then [] else decimal (n / 10)) ++
      [BitVec.ofNat 8 (Nat.digitChar (n % 10)).toNat] := by
  unfold decimal
  rw [Nat.toDigits_eq_if (by omega)]
  split
  · rename_i small
    simp [Nat.mod_eq_of_lt small]
  · simp

theorem decimal_ne_nil (n : Nat) : decimal n ≠ [] := by
  rw [decimal_snoc]; simp

theorem decimal_digits (n : Nat) : ∀ d ∈ decimal n, isDigit d = true := by
  induction n using Nat.strongRecOn with
  | _ n ih =>
    intro d hd
    rw [decimal_snoc, List.mem_append, List.mem_singleton] at hd
    rcases hd with hd | rfl
    · split at hd
      · cases hd
      · exact ih (n / 10) (by omega) d hd
    · exact (digitChar_byte _ (Nat.mod_lt _ (by omega))).1

theorem number_decimal (n : Nat) : number (decimal n) = n := by
  induction n using Nat.strongRecOn with
  | _ n ih =>
    have last := (digitChar_byte _ (Nat.mod_lt n (by omega : 10 > 0))).2
    rw [decimal_snoc, number, List.foldl_append]
    simp only [List.foldl_cons, List.foldl_nil, last]
    split
    · simp only [List.foldl_nil]; omega
    · have front : number (decimal (n / 10)) = n / 10 := ih (n / 10) (by omega)
      unfold number at front
      omega

theorem takeWhile_append_stop {p : Byte → Bool} {xs ys : List Byte} (all : ∀ x ∈ xs, p x = true)
    {y : Byte} (stop : p y = false) : (xs ++ y :: ys).takeWhile p = xs := by
  rw [List.takeWhile_append_of_pos all]; simp [stop]

theorem dropWhile_append_stop {p : Byte → Bool} {xs ys : List Byte} (all : ∀ x ∈ xs, p x = true)
    {y : Byte} (stop : p y = false) : (xs ++ y :: ys).dropWhile p = y :: ys := by
  rw [List.dropWhile_append_of_pos all]; simp [stop]

theorem isDigit_not_space : ∀ d, isDigit d = true → isSpace d = false ∧ d ≠ 45#8 ∧ d ≠ 43#8 := by
  decide

/-- `%d` reads back what it prints, up to a byte that is not a digit. -/
theorem scanInt_print (level : Int) (rest : List Byte) :
    ∃ digits, scanSign (printInt level ++ 124#8 :: rest) =
        (if level < 0 then -1 else 1, digits ++ 124#8 :: rest) ∧
      digits ≠ [] ∧ (∀ d ∈ digits, isDigit d = true) ∧ number digits = level.natAbs := by
  refine ⟨decimal level.natAbs, ?_, decimal_ne_nil _, decimal_digits _, number_decimal _⟩
  unfold printInt
  split
  · simp [scanSign]
  · obtain ⟨d, ds, e⟩ := List.exists_cons_of_ne_nil (decimal_ne_nil level.natAbs)
    obtain ⟨-, minus, plus⟩ := isDigit_not_space d (decimal_digits level.natAbs d (by simp [e]))
    simp [e, scanSign, minus, plus]

theorem scanUrl_print (level : Int) (url : Url) {rest : List Byte} (next : NoSpaceHead rest) :
    scanUrl level (124#8 :: (url.str.bytes ++ [10#8]) ++ rest) =
      ⟨2, some level, some url.str, rest⟩ := by
  have letters : ∀ b ∈ url.str.bytes, (!isSpace b) = true := fun b hb => by simp [url.noSpace b hb]
  have start : NoSpaceHead (url.str.bytes ++ 10#8 :: rest) := by
    obtain ⟨b, bs, e⟩ := List.exists_cons_of_ne_nil url.nonempty
    intro b' hb'
    rw [e] at hb'
    have : b = b' := by simpa using hb'
    exact this ▸ url.noSpace b (by simp [e])
  have stop : (!isSpace 10#8) = false := by decide
  have newline : skipSpace (10#8 :: rest) = rest := by
    have eaten : skipSpace (10#8 :: rest) = skipSpace rest := by
      simp [skipSpace, show isSpace 10#8 = true by decide]
    rw [eaten, skipSpace_of_head next]
  simp only [List.cons_append, List.append_assoc, List.nil_append, scanUrl,
    skipSpace_of_head start, takeWhile_append_stop letters stop,
    dropWhile_append_stop letters stop, newline, CString.ofBytes_bytes, url.nonempty, if_false]

theorem printInt_head (level : Int) (rest : List Byte) : NoSpaceHead (printInt level ++ rest) := by
  unfold printInt
  split
  · intro b hb
    have : 45#8 = b := by simpa using hb
    subst this; decide
  · obtain ⟨d, ds, e⟩ := List.exists_cons_of_ne_nil (decimal_ne_nil level.natAbs)
    intro b hb
    have : d = b := by simpa [e] using hb
    exact this ▸ (isDigit_not_space d (decimal_digits level.natAbs d (by simp [e]))).1

/-- **A printed record is read back whole.** -/
theorem fscanfRecord_encode (r : Record) {rest : List Byte} (next : NoSpaceHead rest) :
    fscanfRecord (r.encode ++ rest) = ⟨2, some r.level, some r.url.str, rest⟩ := by
  obtain ⟨digits, sign, some_, all, value⟩ :=
    scanInt_print r.level (r.url.str.bytes ++ [10#8] ++ rest)
  have shape : r.encode ++ rest =
      printInt r.level ++ 124#8 :: (r.url.str.bytes ++ [10#8] ++ rest) := by
    simp [Record.encode, fprintfRecord]
  have notNil : printInt r.level ++ 124#8 :: (r.url.str.bytes ++ [10#8] ++ rest) ≠ [] := by simp
  have stop : isDigit 124#8 = false := by decide
  have level : (if r.level < 0 then -1 else 1) * (r.level.natAbs : Int) = r.level := by
    split <;> omega
  simp only [fscanfRecord, shape, skipSpace_of_head (printInt_head _ _), notNil, if_false, sign,
    takeWhile_append_stop all stop, dropWhile_append_stop all stop, some_, value, level]
  exact scanUrl_print r.level r.url next

theorem fscanfRecord_nil : fscanfRecord [] = ⟨EOF, none, none, []⟩ := rfl

/-- A call is at the end of the file, stores nothing, or counts. -/
theorem fscanfRecord_rc (bs : List Byte) :
    ((fscanfRecord bs).rc = EOF ∧ (fscanfRecord bs).rest = []) ∨
      ((fscanfRecord bs).rc = 0 ∧ (fscanfRecord bs).level = none ∧ (fscanfRecord bs).url = none) ∨
      0 < (fscanfRecord bs).rc := by
  unfold fscanfRecord
  dsimp only
  split
  · exact .inl ⟨rfl, rfl⟩
  · split
    · exact .inr (.inl ⟨rfl, rfl, rfl⟩)
    · refine .inr (.inr ?_)
      unfold scanUrl
      split
      · dsimp only
        split
        · exact Int.zero_lt_one
        · exact (by omega : (0 : Int) < 2)
      · exact Int.zero_lt_one

theorem skipSpace_suffix (bs : List Byte) : skipSpace bs <:+ bs := List.dropWhile_suffix _

theorem scanSign_suffix (bs : List Byte) : (scanSign bs).2 <:+ bs := by
  unfold scanSign
  split
  · exact List.suffix_refl _
  · split
    · exact List.suffix_cons _ _
    · split
      · exact List.suffix_cons _ _
      · exact List.suffix_refl _

theorem scanUrl_suffix (level : Int) (bs : List Byte) : (scanUrl level bs).rest <:+ bs := by
  unfold scanUrl
  split
  · rename_i bs
    have inner : skipSpace bs <:+ 124#8 :: bs :=
      (skipSpace_suffix bs).trans (List.suffix_cons _ _)
    dsimp only
    split
    · exact inner
    · exact ((skipSpace_suffix _).trans (List.dropWhile_suffix _)).trans inner
  · exact List.suffix_refl _

/-- A call of `fscanf` ends before `|`, or leaves the rest to `|%s`. -/
theorem fscanfRecord_cases (bs : List Byte) :
    ((fscanfRecord bs).url = none ∧ (fscanfRecord bs).rest <:+ bs) ∨
      ∃ level rest, fscanfRecord bs = scanUrl level rest ∧ rest <:+ bs := by
  have digits : (scanSign (skipSpace bs)).2.dropWhile isDigit <:+ bs :=
    (List.dropWhile_suffix isDigit).trans ((scanSign_suffix _).trans (skipSpace_suffix bs))
  unfold fscanfRecord
  dsimp only
  split
  · exact .inl ⟨rfl, List.nil_suffix⟩
  · split
    · exact .inl ⟨rfl, digits⟩
    · exact .inr ⟨_, _, rfl, digits⟩

theorem fscanfRecord_suffix (bs : List Byte) : (fscanfRecord bs).rest <:+ bs := by
  obtain ⟨-, ends⟩ | ⟨level, rest, same, ends⟩ := fscanfRecord_cases bs
  · exact ends
  · rw [same]
    exact (scanUrl_suffix level rest).trans ends

theorem encodeAll_head (rs : List Record) : NoSpaceHead (encodeAll rs) := by
  cases rs with
  | nil => intro b hb; cases hb
  | cons r rs =>
    simp only [encodeAll, List.flatMap_cons, Record.encode, fprintfRecord, List.append_assoc]
    exact printInt_head _ _

theorem encodeAll_append (rs rs' : List Record) :
    encodeAll (rs ++ rs') = encodeAll rs ++ encodeAll rs' := List.flatMap_append

theorem encodeAll_cons (r : Record) (rs : List Record) :
    encodeAll (r :: rs) = r.encode ++ encodeAll rs := rfl

/-- The next record of a well-formed file. -/
theorem fscanfRecord_cons (r : Record) (rs : List Record) :
    fscanfRecord (encodeAll (r :: rs)) = ⟨2, some r.level, some r.url.str, encodeAll rs⟩ :=
  fscanfRecord_encode r (encodeAll_head rs)

/-- The records of a file are determined by its bytes. -/
theorem encodeAll_inj {rs rs' : List Record} (h : encodeAll rs = encodeAll rs') : rs = rs' := by
  induction rs generalizing rs' with
  | nil =>
    cases rs' with
    | nil => rfl
    | cons r' rs' =>
      have scan := fscanfRecord_cons r' rs'
      rw [← h] at scan
      cases scan
  | cons r rs ih =>
    have scan := fscanfRecord_cons r rs
    rw [h] at scan
    cases rs' with
    | nil => cases scan
    | cons r' rs' =>
      rw [fscanfRecord_cons r' rs'] at scan
      simp only [Scanned.mk.injEq, Option.some.injEq, true_and] at scan
      obtain ⟨level, url, rest⟩ := scan
      have same : r = r' := by
        cases r; cases r'
        simp only [Record.mk.injEq]
        exact ⟨level.symm, Url.ext url.symm⟩
      rw [same, ih rest.symm]

end SpiderFrame.Queue
