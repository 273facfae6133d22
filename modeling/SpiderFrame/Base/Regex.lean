import Mathlib.Data.List.Basic
import Mathlib.Data.List.Infix

/-!
# Regular expressions, matched by backtracking

`tries` lists the ways in which a beginning of a text matches, in the order in which a matcher
that goes back to its last choice meets them: the left side of an alternative first, and one more
round of a repetition before its end. A round that takes nothing is not made. A search takes the
first try at the first place that has one.

`Starts` says what the first try is, with a rule for each construct, and `Fails` that there is none.
-/

namespace SpiderFrame.Base

inductive Regex (α : Type*) where
  | empty
  | letter (p : α → Bool)
  | seq (r s : Regex α)
  | alt (r s : Regex α)
  | star (r : Regex α)
  | group (n : Nat) (r : Regex α)

/-- What is left of the text, and what the groups have taken, the last ones first. -/
structure Try (α : Type*) where
  rest : List α
  groups : List (Nat × List α)

variable {α : Type*}

namespace Regex

def opt (r : Regex α) : Regex α := .alt r .empty

def plus (r : Regex α) : Regex α := .seq r (.star r)

/-- A repetition of which a round is `f`, with a bound on the number of rounds. -/
def starTries (f : Try α → List (Try α)) : Nat → Try α → List (Try α)
  | 0, t => [t]
  | n + 1, t =>
    ((f t).filter fun t' => t'.rest.length < t.rest.length).flatMap (starTries f n) ++ [t]

/-- A round takes a letter at least, so there are no more rounds than letters. -/
def tries : Regex α → Try α → List (Try α)
  | .empty, t => [t]
  | .letter p, t =>
    match t.rest with
    | [] => []
    | a :: rest => if p a then [{ t with rest := rest }] else []
  | .seq r s, t => (tries r t).flatMap (tries s)
  | .alt r s, t => tries r t ++ tries s t
  | .star r, t => starTries (tries r) t.rest.length t
  | .group n r, t => (tries r t).map fun t' =>
      { t' with
        groups := (n, t.rest.take (t.rest.length - t'.rest.length)) :: t'.groups }

/-- The place of the first match, and the match. -/
def search (r : Regex α) : List α → Option (Nat × Try α)
  | [] => (tries r ⟨[], []⟩).head?.map (0, ·)
  | a :: text =>
    match (tries r ⟨a :: text, []⟩).head? with
    | some t => some (0, t)
    | none => (search r text).map fun found => (found.1 + 1, found.2)

theorem tries_seq (r s : Regex α) (t : Try α) :
    tries (.seq r s) t = (tries r t).flatMap (tries s) := rfl

theorem tries_alt (r s : Regex α) (t : Try α) : tries (.alt r s) t = tries r t ++ tries s t := rfl

theorem tries_star (r : Regex α) (t : Try α) :
    tries (.star r) t = starTries (tries r) t.rest.length t := rfl

theorem tries_group (n : Nat) (r : Regex α) (t : Try α) :
    tries (.group n r) t = (tries r t).map fun t' =>
      { t' with groups := (n, t.rest.take (t.rest.length - t'.rest.length)) :: t'.groups } := rfl

theorem letter_nil (p : α → Bool) (groups : List (Nat × List α)) :
    tries (.letter p) ⟨[], groups⟩ = [] := rfl

theorem letter_cons (p : α → Bool) (a : α) (rest : List α) (groups : List (Nat × List α)) :
    tries (.letter p) ⟨a :: rest, groups⟩ = if p a then [⟨rest, groups⟩] else [] := rfl

theorem mem_letter {p : α → Bool} {t u : Try α} (h : u ∈ tries (.letter p) t) :
    ∃ a, p a = true ∧ t.rest = a :: u.rest ∧ u.groups = t.groups := by
  obtain ⟨text, groups⟩ := t
  cases text with
  | nil => cases h
  | cons a text =>
    rw [letter_cons] at h
    split at h
    case isTrue here =>
      rw [List.mem_singleton.1 h]
      exact ⟨a, here, rfl, rfl⟩
    case isFalse => cases h

/-! ## The first try -/

/-- The first try on a text leaves this rest, whatever groups were taken before. -/
def Starts (r : Regex α) (text rest : List α) : Prop :=
  ∀ groups, ∃ groups' us, tries r ⟨text, groups⟩ = ⟨rest, groups'⟩ :: us

def Fails (r : Regex α) (text : List α) : Prop := ∀ groups, tries r ⟨text, groups⟩ = []

section Rules

variable {r s q : Regex α} {text mid rest : List α} {p : α → Bool} {n : Nat}

theorem Starts.seq (first : Starts r text mid) (second : Starts s mid rest) :
    Starts (.seq r s) text rest := by
  intro groups
  obtain ⟨groups₁, us, e⟩ := first groups
  obtain ⟨groups₂, vs, e'⟩ := second groups₁
  refine ⟨groups₂, vs ++ us.flatMap (tries s), ?_⟩
  rw [tries_seq, e, List.flatMap_cons, e', List.cons_append]

theorem Fails.seq (first : Fails r text) : Fails (.seq r s) text := fun groups => by
  rw [tries_seq, first groups, List.flatMap_nil]

/-- What follows fails on the only rest. -/
theorem Fails.behind (only : ∀ groups, ∃ groups', tries r ⟨text, groups⟩ = [⟨mid, groups'⟩])
    (second : Fails s mid) : Fails (.seq r s) text := by
  intro groups
  obtain ⟨groups', e⟩ := only groups
  rw [tries_seq, e, List.flatMap_singleton, second groups']

theorem Starts.left (first : Starts r text rest) : Starts (.alt r s) text rest := by
  intro groups
  obtain ⟨groups', us, e⟩ := first groups
  refine ⟨groups', us ++ tries s ⟨text, groups⟩, ?_⟩
  rw [tries_alt, e, List.cons_append]

theorem Starts.right (first : Fails r text) (second : Starts s text rest) :
    Starts (.alt r s) text rest := by
  intro groups
  obtain ⟨groups', us, e⟩ := second groups
  refine ⟨groups', us, ?_⟩
  rw [tries_alt, first groups, e, List.nil_append]

/-- A choice before the rest of an expression is a choice between the two with their rests. -/
theorem starts_alt_seq :
    Starts (.seq (.alt r s) q) text rest ↔ Starts (.alt (.seq r q) (.seq s q)) text rest := by
  simp only [Starts, tries_seq, tries_alt, List.flatMap_append]

theorem starts_group_alt_seq : Starts (.seq (.group n (.alt r s)) q) text rest ↔
    Starts (.alt (.seq (.group n r) q) (.seq (.group n s) q)) text rest := by
  simp only [Starts, tries_seq, tries_alt, tries_group, List.map_append, List.flatMap_append]

theorem Starts.group (first : Starts r text rest) : Starts (.group n r) text rest := by
  intro groups
  obtain ⟨groups', us, e⟩ := first groups
  exact ⟨_, _, by rw [tries_group, e, List.map_cons]⟩

theorem Fails.group (first : Fails r text) : Fails (.group n r) text := fun groups => by
  rw [tries_group, first groups, List.map_nil]

theorem starts_empty (text : List α) : Starts .empty text text := fun groups => ⟨groups, [], rfl⟩

theorem starts_letter {a : α} (here : p a = true) : Starts (.letter p) (a :: rest) rest :=
  fun groups => ⟨groups, [], by rw [letter_cons, if_pos here]⟩

theorem fails_letter (here : ∀ a ∈ text.head?, p a = false) : Fails (.letter p) text := by
  intro groups
  cases text with
  | nil => rfl
  | cons a text => rw [letter_cons, here a rfl, if_neg Bool.false_ne_true]

theorem Starts.opt (first : Starts r text rest) : Starts (.opt r) text rest := first.left

theorem starts_opt_empty (first : Fails r text) : Starts (.opt r) text text :=
  .right first (starts_empty text)

end Rules

/-! ## Repetitions of letters -/

section Letters

variable {s : Regex α} {p : α → Bool} {groups : List (Nat × List α)}

/-- One letter more, or none. -/
theorem starTries_cons {n : Nat} {a : α} {text : List α} :
    starTries (tries (.letter p)) (n + 1) ⟨a :: text, groups⟩ =
      (if p a then starTries (tries (.letter p)) n ⟨text, groups⟩ else []) ++
        [⟨a :: text, groups⟩] := by
  rw [starTries, letter_cons]
  split
  · simp
  · rfl

/-- The tries of a repetition of letters leave suffixes of the text. -/
theorem mem_starTries : ∀ {n : Nat} {text : List α} {t : Try α},
    t ∈ starTries (tries (.letter p)) n ⟨text, groups⟩ → t.groups = groups ∧ t.rest <:+ text
  | 0, text, t, h => by
    rw [starTries, List.mem_singleton] at h
    subst h
    exact ⟨rfl, List.suffix_refl _⟩
  | n + 1, [], t, h => by
    rw [starTries, letter_nil, List.filter_nil, List.flatMap_nil, List.nil_append,
      List.mem_singleton] at h
    subst h
    exact ⟨rfl, List.suffix_refl _⟩
  | n + 1, a :: text, t, h => by
    rw [starTries_cons, List.mem_append, List.mem_singleton] at h
    obtain h | rfl := h
    · split at h
      · obtain ⟨same, inside⟩ := mem_starTries h
        exact ⟨same, inside.trans (List.suffix_cons a text)⟩
      · cases h
    · exact ⟨rfl, List.suffix_refl _⟩

theorem fails_star_seq {text : List α} (all : ∀ rest, rest <:+ text → Fails s rest) :
    Fails (.seq (.star (.letter p)) s) text := by
  intro groups
  rw [tries_seq, tries_star]
  apply List.flatMap_eq_nil_iff.2
  intro t inside
  exact all t.rest (mem_starTries inside).2 t.groups

/-- What follows a repetition of letters begins where it is, when it fails on all shorter rests. -/
theorem flatMap_starTries {back : List α} {ts : List (Try α)} (n : Nat)
    (shorter : ∀ rest, rest <:+ back → rest ≠ back → Fails s rest)
    (here : tries s ⟨back, groups⟩ = ts) :
    (starTries (tries (.letter p)) n ⟨back, groups⟩).flatMap (tries s) = ts := by
  cases n with
  | zero => rw [starTries, List.flatMap_singleton, here]
  | succ n =>
    have none_ : ∀ t ∈ ((tries (.letter p) ⟨back, groups⟩).filter fun t' =>
        t'.rest.length < back.length).flatMap (starTries (tries (.letter p)) n),
        tries s t = [] := by
      intro t inside
      obtain ⟨t', inside', last⟩ := List.mem_flatMap.1 inside
      rw [List.mem_filter, decide_eq_true_eq] at inside'
      obtain ⟨a, -, taken, kept⟩ := mem_letter inside'.1
      obtain ⟨rest', groups'⟩ := t'
      obtain rfl : groups' = groups := kept
      have inner : rest' <:+ back := ⟨[a], taken.symm⟩
      obtain ⟨same, inner'⟩ := mem_starTries last
      have less : t.rest ≠ back := by
        intro e
        have le := inner'.length_le
        have short := inside'.2
        rw [e] at le
        exact absurd short (Nat.not_lt.2 le)
      exact shorter t.rest (inner'.trans inner) less t.groups
    rw [starTries, List.flatMap_append, List.flatMap_singleton, here,
      List.flatMap_eq_nil_iff.2 none_, List.nil_append]

/-- **A repetition of letters takes as many as it can, as long as what follows has a try.** -/
theorem starts_star_seq {front back rest : List α} (letters : ∀ a ∈ front, p a = true)
    (shorter : ∀ rest, rest <:+ back → rest ≠ back → Fails s rest) (here : Starts s back rest) :
    Starts (.seq (.star (.letter p)) s) (front ++ back) rest := by
  intro groups
  obtain ⟨groups', us, e⟩ := here groups
  have all : ∀ n, front.length ≤ n → ∃ us, (starTries (tries (.letter p)) n
      ⟨front ++ back, groups⟩).flatMap (tries s) = ⟨rest, groups'⟩ :: us := by
    induction front with
    | nil => exact fun n _ => ⟨us, flatMap_starTries n shorter e⟩
    | cons a front ih =>
      intro n enough
      rw [List.length_cons] at enough
      obtain ⟨n, rfl⟩ := Nat.exists_eq_succ_of_ne_zero (Nat.ne_of_gt (Nat.zero_lt_of_lt enough))
      have first := letters a List.mem_cons_self
      obtain ⟨us, later⟩ := ih (fun b hb => letters b (List.mem_cons_of_mem _ hb)) n (by omega)
      rw [List.cons_append, starTries_cons, if_pos first, List.flatMap_append, later]
      exact ⟨_, List.cons_append⟩
  obtain ⟨us, e⟩ := all (front ++ back).length (by simp)
  exact ⟨groups', us, e⟩

/-- The same with nothing behind it. -/
theorem starts_star {front back : List α} (letters : ∀ a ∈ front, p a = true)
    (stop : ∀ a ∈ back.head?, p a = false) :
    Starts (.star (.letter p)) (front ++ back) back := by
  intro groups
  have all : ∀ n, front.length ≤ n → ∃ us,
      starTries (tries (.letter p)) n ⟨front ++ back, groups⟩ = ⟨back, groups⟩ :: us := by
    induction front with
    | nil =>
      intro n _
      cases n with
      | zero => exact ⟨[], rfl⟩
      | succ n =>
        have none_ := fails_letter stop groups
        refine ⟨[], ?_⟩
        rw [List.nil_append, starTries, none_, List.filter_nil, List.flatMap_nil,
          List.nil_append]
    | cons a front ih =>
      intro n enough
      rw [List.length_cons] at enough
      obtain ⟨n, rfl⟩ := Nat.exists_eq_succ_of_ne_zero (Nat.ne_of_gt (Nat.zero_lt_of_lt enough))
      have first := letters a List.mem_cons_self
      obtain ⟨us, later⟩ := ih (fun b hb => letters b (List.mem_cons_of_mem _ hb)) n (by omega)
      rw [List.cons_append, starTries_cons, if_pos first, later]
      exact ⟨_, List.cons_append⟩
  obtain ⟨us, e⟩ := all (front ++ back).length (by simp)
  exact ⟨groups, us, e⟩

theorem starts_plus {front back : List α} (some_ : front ≠ [])
    (letters : ∀ a ∈ front, p a = true) (stop : ∀ a ∈ back.head?, p a = false) :
    Starts (.plus (.letter p)) (front ++ back) back := by
  obtain ⟨a, front, rfl⟩ := List.exists_cons_of_ne_nil some_
  have first := letters a List.mem_cons_self
  exact (starts_letter first).seq
    (starts_star (fun b hb => letters b (List.mem_cons_of_mem _ hb)) stop)

end Letters

/-- **A match at the beginning of the text, with the group around it.** -/
theorem search_group {r : Regex α} {n : Nat} {text rest : List α} (h : Starts r text rest) :
    ∃ groups, search (.group n r) text =
      some (0, ⟨rest, (n, text.take (text.length - rest.length)) :: groups⟩) := by
  obtain ⟨groups, us, e⟩ := h []
  refine ⟨groups, ?_⟩
  cases text <;> simp [search, tries_group, e]

/-! ## What a try takes -/

/-- The least number of letters that a match takes. -/
def least : Regex α → Nat
  | .empty => 0
  | .letter _ => 1
  | .seq r s => least r + least s
  | .alt r s => min (least r) (least s)
  | .star _ => 0
  | .group _ r => least r

theorem starTries_le {f : Try α → List (Try α)} : ∀ {n : Nat} {t u : Try α},
    u ∈ starTries f n t → u.rest.length ≤ t.rest.length
  | 0, t, u, h => by
    rw [starTries, List.mem_singleton] at h
    rw [h]
  | n + 1, t, u, h => by
    rw [starTries, List.mem_append, List.mem_singleton] at h
    obtain h | rfl := h
    · obtain ⟨t', first, later⟩ := List.mem_flatMap.1 h
      rw [List.mem_filter, decide_eq_true_eq] at first
      have le := starTries_le later
      omega
    · exact le_rfl

/-- **A try takes what the expression needs.** -/
theorem least_le {r : Regex α} : ∀ {t u : Try α}, u ∈ tries r t →
    u.rest.length + least r ≤ t.rest.length := by
  induction r with
  | empty =>
    intro t u h
    rw [tries, List.mem_singleton] at h
    rw [h, least, Nat.add_zero]
  | letter p =>
    intro t u h
    obtain ⟨a, -, taken, -⟩ := mem_letter h
    rw [taken, List.length_cons, least]
  | seq r s ihr ihs =>
    intro t u h
    obtain ⟨t', first, second⟩ := List.mem_flatMap.1 h
    have one := ihr first
    have two := ihs second
    rw [least]
    omega
  | alt r s ihr ihs =>
    intro t u h
    rw [least]
    obtain h | h := List.mem_append.1 h
    · have := ihr h
      omega
    · have := ihs h
      omega
  | star r ih =>
    intro t u h
    rw [least, Nat.add_zero]
    exact starTries_le h
  | group n r ih =>
    intro t u h
    obtain ⟨t', inside, rfl⟩ := List.mem_map.1 h
    have := ih inside
    exact this

/-- A match takes what the expression needs, from its place on. -/
theorem search_least {r : Regex α} : ∀ {text : List α} {n : Nat} {t : Try α},
    search r text = some (n, t) → n + least r + t.rest.length ≤ text.length
  | [], n, t, h => by
    obtain ⟨u, first, e⟩ := Option.map_eq_some_iff.1 h
    cases e
    have le := least_le (List.mem_of_mem_head? first)
    simp only [List.length_nil] at le ⊢
    omega
  | a :: text, n, t, h => by
    rw [search] at h
    split at h
    · rename_i u first
      cases h
      have le := least_le (List.mem_of_mem_head? first)
      simp only at le
      omega
    · obtain ⟨found, later, e⟩ := Option.map_eq_some_iff.1 h
      cases e
      have le := search_least (n := found.1) (t := found.2) later
      rw [List.length_cons]
      omega

/-- A match is a try at its place. -/
theorem mem_tries_of_search {r : Regex α} : ∀ {text : List α} {n : Nat} {t : Try α},
    search r text = some (n, t) → t ∈ tries r ⟨text.drop n, []⟩
  | [], n, t, h => by
    obtain ⟨u, first, e⟩ := Option.map_eq_some_iff.1 h
    cases e
    exact List.mem_of_mem_head? first
  | a :: text, n, t, h => by
    rw [search] at h
    split at h
    · rename_i u first
      cases h
      exact List.mem_of_mem_head? first
    · obtain ⟨found, later, e⟩ := Option.map_eq_some_iff.1 h
      cases e
      exact mem_tries_of_search (n := found.1) (t := found.2) later

end Regex

end SpiderFrame.Base
