import SpiderFrame.Curl.Download

/-!
# The attempts of one transfer (`sf_curl_url` in `sf_curl.c`)

The lengths of the two buffers are set to zero once, before the first of three attempts, so an attempt
writes behind what the failed ones before it have delivered. `retry_isolated_iff` says when
that is nothing.
-/

namespace SpiderFrame.Curl
open SpiderFrame.Base

/-- A call of one of the two writers. -/
structure Delivery where
  part : Part
  chunk : Chunk

/-- What curl delivers when the writers take all of it, and whether the transfer succeeds then. -/
structure Attempt where
  deliveries : List Delivery
  ok : Bool

/-- The two buffers, `pHdrPtr` and `pBufPtr`. -/
structure Download where
  hdr : Buffer
  html : Buffer

def Download.part (d : Download) : Part → Buffer
  | .hdr => d.hdr
  | .html => d.html

/-- One call of a writer, and whether it returns what curl asks for. -/
def Download.deliver (d : Download) (x : Delivery) : Download × Bool :=
  match x.part with
  | .hdr =>
    let r := writerHdr d.hdr x.chunk
    ({ d with hdr := r.1 }, r.2 == x.chunk.data.length)
  | .html =>
    let r := writerHtml d.html x.chunk
    ({ d with html := r.1 }, r.2 == x.chunk.data.length)

/-- The calls in order; the first that does not return what it should ends the transfer. -/
def Download.transfer (d : Download) : List Delivery → Download × Bool
  | [] => (d, true)
  | x :: xs => if (d.deliver x).2 then (d.deliver x).1.transfer xs else d.deliver x

/-- `curl_easy_perform`, and whether it returns `CURLE_OK`. -/
def Download.perform (d : Download) (a : Attempt) : Download × Bool :=
  ((d.transfer a.deliveries).1, (d.transfer a.deliveries).2 && a.ok)

/-- The attempts, with `retry` left. -/
def performLoop : Nat → Download → List Attempt → Option Download
  | retry + 1, d, a :: attempts =>
    if (d.perform a).2 then some (d.perform a).1
    else performLoop retry (d.perform a).1 attempts
  | _, _, _ => none

/-- `sf_curl_url` over what is in the memory of the buffers: NULL is `none`. -/
def sfCurlUrl (hdr html : Nat → Byte) (attempts : List Attempt) : Option Download :=
  performLoop 3 ⟨.cleared hdr, .cleared html⟩ attempts

/-- The bytes for one of the buffers. -/
def bytesOf (p : Part) (xs : List Delivery) : List Byte :=
  xs.flatMap fun x => if x.part = p then x.chunk.data else []

/-- An attempt within the limits of the buffers. -/
def Attempt.Within (a : Attempt) : Prop := ∀ p, (bytesOf p a.deliveries).length ≤ p.limit

/-- Some attempts fail and the next one succeeds. -/
inductive Gives : Download → List Attempt → Attempt → Download → Prop
  | now {d d' a} : d.perform a = (d', true) → Gives d [] a d'
  | later {d d₁ d' a failed last} : d.perform a = (d₁, false) → Gives d₁ failed last d' →
      Gives d (a :: failed) last d'

/-- **The function returns a buffer when one of the first attempts succeeds.** -/
theorem performLoop_gives : ∀ {retry : Nat} {d d' : Download} {attempts : List Attempt},
    performLoop retry d attempts = some d' → ∃ failed last rest,
      attempts = failed ++ last :: rest ∧ failed.length < retry ∧ Gives d failed last d'
  | 0, _, _, _, h => by cases h
  | _ + 1, _, _, [], h => by cases h
  | retry + 1, d, d', a :: attempts, h => by
    unfold performLoop at h
    split at h
    case isTrue done =>
      cases h
      exact ⟨[], a, attempts, rfl, Nat.succ_pos _, .now (Prod.ext rfl done)⟩
    case isFalse again =>
      obtain ⟨failed, last, rest, rfl, few, gives⟩ := performLoop_gives h
      have fails : d.perform a = ((d.perform a).1, false) := Prod.ext rfl (by simpa using again)
      exact ⟨a :: failed, last, rest, rfl, by simpa using few, .later fails gives⟩

/-! ## One attempt -/

/-- The contents of both buffers are below the limits. -/
def Download.Fits (d : Download) : Prop := ∀ p, (d.part p).length ≤ p.limit

/-- What a buffer holds is what has been taken into it. -/
theorem tracks_self {p : Part} {b : Buffer} (fits : b.length ≤ p.limit) :
    Tracks p b.mem b ⟨b.contents, []⟩ where
  length := by simp [Buffer.contents]
  contents := rfl
  limit := by simpa [Buffer.contents] using fits
  behind i _ := by simp

/-- The buffer of the other part stays, and that of this one is what the writer makes of it. -/
theorem deliver_part (d : Download) (x : Delivery) (p : Part) : (d.deliver x).1.part p =
    if x.part = p then (writer p (d.part p) x.chunk).1 else d.part p := by
  obtain ⟨part, chunk⟩ := x
  cases part <;> cases p <;> rfl

theorem deliver_ok (d : Download) (x : Delivery) : (d.deliver x).2 =
    ((writer x.part (d.part x.part) x.chunk).2 == x.chunk.data.length) := by
  obtain ⟨part, chunk⟩ := x
  cases part <;> rfl

theorem bytesOf_cons (p : Part) (x : Delivery) (xs : List Delivery) :
    bytesOf p (x :: xs) = bytesOf p [x] ++ bytesOf p xs := by
  simp [bytesOf]

/-- There are no bytes for either buffer exactly when all chunks are empty. -/
theorem bytesOf_eq_nil {xs : List Delivery} :
    (∀ p, bytesOf p xs = []) ↔ ∀ x ∈ xs, x.chunk.data = [] := by
  constructor
  · intro none x hx
    have own := List.flatMap_eq_nil_iff.1 (none x.part) x hx
    rwa [if_pos rfl] at own
  · intro empty p
    apply List.flatMap_eq_nil_iff.2
    intro x hx
    rw [empty x hx, ite_self]

theorem length_le_bytesOf {x : Delivery} {xs : List Delivery} (h : x ∈ xs) :
    x.chunk.data.length ≤ (bytesOf x.part xs).length := by
  obtain ⟨before, behind, rfl⟩ := List.append_of_mem h
  simp only [bytesOf, List.flatMap_append, List.flatMap_cons, if_true, List.length_append]
  omega

/-- The calls have added their chunks to the contents. -/
def Added (d d' : Download) (xs : List Delivery) : Prop :=
  d'.Fits ∧ ∀ p, (d'.part p).contents = (d.part p).contents ++ bytesOf p xs

section Attempts

variable {d d' : Download} {x : Delivery} {xs : List Delivery}

theorem deliver_takes (fits : d.Fits)
    (room : (d.part x.part).length + x.chunk.data.length ≤ x.part.limit) :
    (d.deliver x).2 = true ∧ Added d (d.deliver x).1 [x] := by
  have tracks := tracks_self (fits x.part)
  have room' : Taken.Fits x.part ⟨(d.part x.part).contents, []⟩ x.chunk := by
    unfold Taken.Fits
    rw [← tracks.length]
    exact room
  have taken := tracks.take room'
  have ok : (d.deliver x).2 = true := by
    rw [deliver_ok, tracks.writer_takes room']
    exact beq_self_eq_true _
  refine ⟨ok, fun p => ?_, fun p => ?_⟩
  · rw [deliver_part]
    split
    case isTrue here =>
      subst here
      rw [taken.length]
      exact taken.limit
    case isFalse => exact fits p
  · rw [deliver_part]
    split
    case isTrue here =>
      subst here
      simp [bytesOf, taken.contents, Taken.add]
    case isFalse other => simp [bytesOf, other]

theorem deliver_rejects (fits : d.Fits)
    (full : ¬ (d.part x.part).length + x.chunk.data.length ≤ x.part.limit) :
    (d.deliver x).2 = false ∧ Added d (d.deliver x).1 [] := by
  have tracks := tracks_self (fits x.part)
  have full' : ¬ Taken.Fits x.part ⟨(d.part x.part).contents, []⟩ x.chunk := by
    unfold Taken.Fits
    rw [← tracks.length]
    exact full
  have rejected := tracks.writer_rejects full'
  have refused : (d.deliver x).2 = false := by
    have some : x.chunk.data.length ≠ 0 := by
      have low := fits x.part
      omega
    rw [deliver_ok, rejected]
    simpa using some.symm
  have same (p : Part) : (d.deliver x).1.part p = d.part p := by
    rw [deliver_part]
    split
    case isTrue here =>
      subst here
      rw [rejected]
    case isFalse => rfl
  refine ⟨refused, fun p => ?_, fun p => ?_⟩
  · rw [same]
    exact fits p
  · rw [same]
    simp [bytesOf]

/-- **One call: the chunk is taken when there is room for it, and the transfer is over when there
is none.** -/
theorem deliver_spec (fits : d.Fits) (x : Delivery) :
    Added d (d.deliver x).1 (if (d.deliver x).2 then [x] else []) ∧
      (x.chunk.data.length + (d.part x.part).length ≤ x.part.limit → (d.deliver x).2 = true) := by
  by_cases room : (d.part x.part).length + x.chunk.data.length ≤ x.part.limit
  · obtain ⟨ok, added⟩ := deliver_takes fits room
    rw [if_pos ok]
    exact ⟨added, fun _ => ok⟩
  · obtain ⟨refused, added⟩ := deliver_rejects fits room
    rw [if_neg (by simp [refused])]
    exact ⟨added, fun fitted => absurd fitted (by omega)⟩

/-- **A transfer takes the chunks up to the first for which there is no room.** -/
theorem transfer_spec : ∀ (xs : List Delivery) {d : Download}, d.Fits → ∃ front, front <+: xs ∧
    Added d (d.transfer xs).1 front ∧ ((d.transfer xs).2 = true → front = xs)
  | [], d, fits => ⟨[], List.prefix_rfl, ⟨fits, fun p => by simp [Download.transfer, bytesOf]⟩,
      fun _ => rfl⟩
  | x :: xs, d, fits => by
    obtain ⟨⟨fits', contents⟩, -⟩ := deliver_spec fits x
    unfold Download.transfer
    split
    case isTrue ok =>
      rw [if_pos ok] at contents
      obtain ⟨front, inside, ⟨fits'', contents'⟩, all⟩ := transfer_spec xs fits'
      refine ⟨x :: front, List.cons_prefix_cons.2 ⟨rfl, inside⟩, ⟨fits'', fun p => ?_⟩, ?_⟩
      · rw [contents', contents, bytesOf_cons p x front, List.append_assoc]
      · intro done
        rw [all done]
    case isFalse refused =>
      rw [if_neg refused] at contents
      exact ⟨[], List.nil_prefix, ⟨fits', contents⟩, fun ok => absurd ok refused⟩

/-- An attempt within the limits leaves two empty buffers empty only when all its chunks are. -/
theorem transfer_empty : ∀ {xs : List Delivery} {d : Download}, d.Fits →
    (∀ p, (d.part p).contents = []) → (∀ x ∈ xs, x.chunk.data.length ≤ x.part.limit) →
    ((∀ p, ((d.transfer xs).1.part p).contents = []) ↔ ∀ x ∈ xs, x.chunk.data = [])
  | [], d, _, empty, _ => by simpa [Download.transfer] using empty
  | x :: xs, d, fits, empty, within => by
    obtain ⟨⟨fits', contents⟩, room⟩ := deliver_spec fits x
    have none : (d.part x.part).length = 0 := by
      simpa [Buffer.contents] using congrArg List.length (empty x.part)
    have ok : (d.deliver x).2 = true := room (by
      have own := within x List.mem_cons_self
      omega)
    simp only [ok, if_true, empty, List.nil_append] at contents
    rw [Download.transfer, if_pos ok, List.forall_mem_cons]
    by_cases first : x.chunk.data = []
    · have empty' (p : Part) : ((d.deliver x).1.part p).contents = [] := by
        rw [contents]
        exact bytesOf_eq_nil.2 (by simpa using first) p
      rw [transfer_empty fits' empty' fun y hy => within y (List.mem_cons_of_mem _ hy)]
      exact (and_iff_right first).symm
    · refine iff_of_false (fun left => first ?_) fun all => first all.1
      obtain ⟨front, -, ⟨-, contents'⟩, -⟩ := transfer_spec xs fits'
      have here := left x.part
      rw [contents', contents, List.append_eq_nil_iff] at here
      simpa [bytesOf] using here.1

/-! ## All attempts -/

theorem perform_added (fits : d.Fits) (a : Attempt) : ∃ front, front <+: a.deliveries ∧
    Added d (d.perform a).1 front ∧ ((d.perform a).2 = true → front = a.deliveries) := by
  obtain ⟨front, inside, added, all⟩ := transfer_spec a.deliveries fits
  exact ⟨front, inside, added, fun done => all (Bool.and_eq_true_iff.1 done).1⟩

/-- The contents begin with those before the attempts and end with the bytes of the last one. -/
theorem Gives.contents {failed : List Attempt} {last : Attempt} (gives : Gives d failed last d')
    (fits : d.Fits) (p : Part) : ∃ between, (d'.part p).contents =
      (d.part p).contents ++ between ++ bytesOf p last.deliveries := by
  induction gives with
  | @now d d' a done =>
    obtain ⟨front, -, ⟨-, contents⟩, all⟩ := perform_added fits a
    rw [done] at contents all
    exact ⟨[], by rw [contents, all rfl, List.append_nil]⟩
  | @later d d₁ d' a failed last fails _ ih =>
    obtain ⟨front, -, ⟨fits', contents⟩, -⟩ := perform_added fits a
    rw [fails] at fits' contents
    obtain ⟨between, rest⟩ := ih fits'
    exact ⟨bytesOf p front ++ between, by rw [rest, contents]; simp only [List.append_assoc]⟩

/-- **From empty buffers, the contents are the bytes of the last attempt exactly when the failed ones
have had none.** -/
theorem Gives.isolated {failed : List Attempt} {last : Attempt} (gives : Gives d failed last d')
    (fits : d.Fits) (empty : ∀ p, (d.part p).contents = []) (within : ∀ a ∈ failed, a.Within) :
    (∀ p, (d'.part p).contents = bytesOf p last.deliveries) ↔
      ∀ a ∈ failed, ∀ x ∈ a.deliveries, x.chunk.data = [] := by
  induction gives with
  | @now d d' a done =>
    obtain ⟨front, -, ⟨-, contents⟩, all⟩ := perform_added fits a
    rw [done] at contents all
    refine iff_of_true (fun p => ?_) (by simp)
    rw [contents, all rfl, empty, List.nil_append]
  | @later d d₁ d' a failed last fails rest ih =>
    have single : ∀ x ∈ a.deliveries, x.chunk.data.length ≤ x.part.limit := fun x hx =>
      (length_le_bytesOf hx).trans (within a List.mem_cons_self x.part)
    have first := transfer_empty fits empty single
    have fits' : d₁.Fits := by
      obtain ⟨_, -, ⟨fits', -⟩, -⟩ := perform_added fits a
      rwa [fails] at fits'
    have same : (d.transfer a.deliveries).1 = d₁ := congrArg Prod.fst fails
    rw [same] at first
    rw [List.forall_mem_cons, ← first]
    by_cases empty' : ∀ p, (d₁.part p).contents = []
    · rw [ih fits' empty' fun b hb => within b (List.mem_cons_of_mem _ hb)]
      exact (and_iff_right empty').symm
    · refine iff_of_false (fun isolated => empty' fun p => ?_) fun all => empty' all.1
      obtain ⟨between, contents⟩ := rest.contents fits' p
      rw [isolated p, eq_comm, List.append_left_eq_self, List.append_eq_nil_iff] at contents
      exact contents.1

/-- **When `sf_curl_url` returns a buffer, the buffers hold what the successful attempt has
delivered, and nothing else, exactly when the attempts before it have delivered no byte.** -/
theorem retry_isolated_iff {hdr html : Nat → Byte} {attempts : List Attempt}
    (within : ∀ a ∈ attempts, a.Within) (got : sfCurlUrl hdr html attempts = some d) :
    ∃ failed last rest, attempts = failed ++ last :: rest ∧ failed.length < 3 ∧
      Gives ⟨.cleared hdr, .cleared html⟩ failed last d ∧
      (d.hdr.contents = bytesOf .hdr last.deliveries ∧
          d.html.contents = bytesOf .html last.deliveries ↔
        ∀ a ∈ failed, ∀ x ∈ a.deliveries, x.chunk.data = []) := by
  obtain ⟨failed, last, rest, rfl, few, gives⟩ := performLoop_gives got
  have fits : Download.Fits ⟨.cleared hdr, .cleared html⟩ := by
    intro p
    cases p <;> exact Nat.zero_le _
  have empty (p : Part) : (Download.part ⟨.cleared hdr, .cleared html⟩ p).contents = [] := by
    cases p <;> rfl
  refine ⟨failed, last, rest, rfl, few, gives, ?_⟩
  rw [← gives.isolated fits empty fun a ha => within a (List.mem_append_left _ ha)]
  constructor
  · rintro ⟨hdr, html⟩ p
    cases p
    · exact hdr
    · exact html
  · intro all
    exact ⟨all .hdr, all .html⟩

end Attempts

/-- An attempt that delivers one byte of a page. -/
def byteAttempt (b : Byte) (ok : Bool) : Attempt := ⟨[⟨.html, byteChunk b⟩], ok⟩

theorem byteAttempt_within (b : Byte) (ok : Bool) : (byteAttempt b ok).Within := by
  intro p
  cases p
  · exact Nat.zero_le _
  · show 1 ≤ 5242880 - 4 - 1
    decide

/-- An attempt that fails without a byte, and one that delivers a header and a page of two chunks. -/
def emptyThenPage : List Attempt :=
  [⟨[⟨.html, ⟨[], show 0 < 2 ^ 63 by decide⟩⟩], false⟩,
    ⟨[⟨.hdr, byteChunk 104#8⟩, ⟨.html, byteChunk 97#8⟩, ⟨.html, byteChunk 98#8⟩], true⟩]

theorem retry_isolated_iff_empty : ∃ d failed last rest,
    emptyThenPage = failed ++ last :: rest ∧ failed.length < 3 ∧
      Gives ⟨.cleared fun _ => 0, .cleared fun _ => 0⟩ failed last d ∧
      (d.hdr.contents = bytesOf .hdr last.deliveries ∧
          d.html.contents = bytesOf .html last.deliveries ↔
        ∀ a ∈ failed, ∀ x ∈ a.deliveries, x.chunk.data = []) := by
  have within : ∀ a ∈ emptyThenPage, a.Within := by
    intro a inside p
    rcases List.mem_pair.1 inside with rfl | rfl
    · cases p <;> exact Nat.zero_le _
    · cases p
      · show 1 ≤ Part.limit .hdr
        decide
      · show 2 ≤ Part.limit .html
        decide
  have got : sfCurlUrl (fun _ => 0) (fun _ => 0) emptyThenPage = some _ := rfl
  exact ⟨_, retry_isolated_iff within got⟩

/-- An attempt that fails behind an `a` and one that delivers a `b`: the page is `ab`. -/
theorem retry_keeps_failed : ¬ ∀ (hdr html : Nat → Byte) (attempts : List Attempt)
    (failed : List Attempt) (last : Attempt) (rest : List Attempt) (d : Download),
    (∀ a ∈ attempts, a.Within) → sfCurlUrl hdr html attempts = some d →
      attempts = failed ++ last :: rest → Gives ⟨.cleared hdr, .cleared html⟩ failed last d →
        d.html.contents = bytesOf .html last.deliveries := by
  intro claim
  have gives : Gives ⟨.cleared fun _ => 0, .cleared fun _ => 0⟩ [byteAttempt 97#8 false]
      (byteAttempt 98#8 true) _ := .later rfl (.now rfl)
  have within : ∀ a ∈ [byteAttempt 97#8 false, byteAttempt 98#8 true], a.Within := by
    simpa using ⟨byteAttempt_within 97#8 false, byteAttempt_within 98#8 true⟩
  have page := claim (fun _ => 0) (fun _ => 0) [byteAttempt 97#8 false, byteAttempt 98#8 true]
    [byteAttempt 97#8 false] (byteAttempt 98#8 true) [] _ within rfl rfl gives
  exact absurd page (by decide)

end SpiderFrame.Curl
