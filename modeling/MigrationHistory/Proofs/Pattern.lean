/-!
# Patterns

A pattern is matched from the start of a text on, and may match in several ways. The ways stand
in an order of preference: an optional part is first taken and then left out, a lazy repetition
starts with the shortest run and an eager one with the longest. The first way counts, with what
its groups captured. The laws say which ways there are, so that an argument that does not depend
on the preference need not follow it.
-/
namespace MigrationHistory.Text

inductive Pattern
  /-- One character of a class. -/
  | one (accepts : Char → Bool)
  /-- One or more characters of a class, as few as possible. -/
  | lazily (accepts : Char → Bool)
  /-- One or more characters of a class, as many as possible. -/
  | eagerly (accepts : Char → Bool)
  /-- A part that may be left out. -/
  | optional (part : Pattern)
  /-- One part and then another. -/
  | both (first second : Pattern)
  /-- A numbered group, which captures what its part matches. -/
  | group (number : Nat) (part : Pattern)
  /-- The end of the text. -/
  | finish

/-- One way to match: what is matched, what is left of the text, and what is captured. -/
structure Way where
  matched : List Char
  rest : List Char
  captures : List (Nat × List Char)
deriving DecidableEq, Repr

namespace Way

def followedBy (w next : Way) : Way :=
  ⟨w.matched ++ next.matched, next.rest, w.captures ++ next.captures⟩

def capture (number : Nat) (w : Way) : Way :=
  { w with captures := w.captures ++ [(number, w.matched)] }

/-- What the group with a number captured. -/
def captured? (w : Way) (number : Nat) : Option (List Char) := w.captures.lookup number

end Way

namespace Pattern

/-- The runs of one or more characters of a class, the shortest first. -/
def runs (accepts : Char → Bool) : List Char → List Way
  | [] => []
  | c :: text =>
    if accepts c then ⟨[c], text, []⟩ :: (runs accepts text).map (Way.followedBy ⟨[c], [], []⟩)
    else []

/-- The ways to match the start of a text, in the order of preference. -/
def ways : Pattern → List Char → List Way
  | one _, [] => []
  | one accepts, c :: text => if accepts c then [⟨[c], text, []⟩] else []
  | lazily accepts, text => runs accepts text
  | eagerly accepts, text => (runs accepts text).reverse
  | optional part, text => part.ways text ++ [⟨[], text, []⟩]
  | both first second, text =>
    (first.ways text).flatMap fun w => (second.ways w.rest).map w.followedBy
  | group number part, text => (part.ways text).map (Way.capture number)
  | finish, text => if text = [] then [⟨[], [], []⟩] else []

/-- The way that counts. -/
def way? (p : Pattern) (text : List Char) : Option Way := (p.ways text).head?

variable {accepts : Char → Bool} {p q : Pattern} {text : List Char} {w : Way}

theorem mem_runs_cons {c : Char} : w ∈ runs accepts (c :: text) ↔
    accepts c ∧ (w = ⟨[c], text, []⟩ ∨
      ∃ later ∈ runs accepts text, w = Way.followedBy ⟨[c], [], []⟩ later) := by
  rw [runs]
  split
  · rename_i hc
    simp [hc, eq_comm]
  · rename_i hc
    simp [hc]

/-- The runs are the accepted starts of the text that are not empty. -/
theorem mem_runs : w ∈ runs accepts text ↔
    ∃ run rest, run ≠ [] ∧ (∀ c ∈ run, accepts c) ∧ text = run ++ rest ∧ w = ⟨run, rest, []⟩ := by
  induction text generalizing w with
  | nil =>
    simp only [runs, List.not_mem_nil, false_iff]
    rintro ⟨run, rest, hne, -, htext, -⟩
    exact hne (List.append_eq_nil_iff.mp htext.symm).1
  | cons c text ih =>
    rw [mem_runs_cons]
    constructor
    · rintro ⟨hc, rfl | ⟨later, hlater, rfl⟩⟩
      · exact ⟨[c], text, by simp, by simpa using hc, rfl, rfl⟩
      · obtain ⟨run, rest, -, hrun, rfl, rfl⟩ := ih.mp hlater
        exact ⟨c :: run, rest, by simp, List.forall_mem_cons.mpr ⟨hc, hrun⟩, rfl, rfl⟩
    · rintro ⟨run, rest, hne, hrun, htext, rfl⟩
      cases run with
      | nil => exact absurd rfl hne
      | cons first run =>
        obtain ⟨rfl, rfl⟩ := List.cons.inj htext
        obtain ⟨hc, hrun⟩ := List.forall_mem_cons.mp hrun
        refine ⟨hc, ?_⟩
        by_cases hnil : run = []
        · exact .inl (by simp [hnil])
        · exact .inr ⟨⟨run, rest, []⟩, ih.mpr ⟨run, rest, hnil, hrun, rfl, rfl⟩, rfl⟩

theorem mem_ways_one : w ∈ (one accepts).ways text ↔
    ∃ c rest, accepts c ∧ text = c :: rest ∧ w = ⟨[c], rest, []⟩ := by
  cases text with
  | nil => simp [ways]
  | cons first text =>
    rw [ways]
    constructor
    · intro hw
      split at hw
      · rename_i hfirst
        exact ⟨first, text, hfirst, rfl, List.mem_singleton.mp hw⟩
      · cases hw
    · rintro ⟨c, rest, hc, htext, rfl⟩
      obtain ⟨rfl, rfl⟩ := List.cons.inj htext
      rw [if_pos hc]
      exact List.mem_singleton_self _

theorem mem_ways_lazily : w ∈ (lazily accepts).ways text ↔
    ∃ run rest, run ≠ [] ∧ (∀ c ∈ run, accepts c) ∧ text = run ++ rest ∧ w = ⟨run, rest, []⟩ :=
  mem_runs

theorem mem_ways_eagerly : w ∈ (eagerly accepts).ways text ↔
    ∃ run rest, run ≠ [] ∧ (∀ c ∈ run, accepts c) ∧ text = run ++ rest ∧ w = ⟨run, rest, []⟩ :=
  List.mem_reverse.trans mem_runs

theorem mem_ways_optional :
    w ∈ (optional p).ways text ↔ w ∈ p.ways text ∨ w = ⟨[], text, []⟩ := by
  simp [ways]

theorem mem_ways_both : w ∈ (both p q).ways text ↔
    ∃ first ∈ p.ways text, ∃ second ∈ q.ways first.rest, w = first.followedBy second := by
  simp only [ways, List.mem_flatMap, List.mem_map, eq_comm]

theorem mem_ways_group {number : Nat} : w ∈ (group number p).ways text ↔
    ∃ inner ∈ p.ways text, w = inner.capture number := by
  simp only [ways, List.mem_map, eq_comm]

theorem mem_ways_finish : w ∈ finish.ways text ↔ text = [] ∧ w = ⟨[], [], []⟩ := by
  by_cases htext : text = [] <;> simp [ways, htext]

/-- Where there is but one way to match, it is the one that counts. -/
theorem way?_eq_some_iff (hone : ∀ v ∈ p.ways text, ∀ w ∈ p.ways text, v = w) :
    p.way? text = some w ↔ w ∈ p.ways text := by
  rw [way?]
  cases hways : p.ways text with
  | nil => simp
  | cons first rest =>
    rw [hways] at hone
    rw [List.head?_cons, Option.some.injEq]
    constructor
    · rintro rfl
      exact List.mem_cons_self
    · exact fun hw => hone first List.mem_cons_self w hw

end Pattern

end MigrationHistory.Text
