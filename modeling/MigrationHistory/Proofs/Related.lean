import Mathlib.Computability.StateTransition
import MigrationHistory.History.Range
import MigrationHistory.Proofs.Placement
import MigrationHistory.Proofs.Refusal

/-!
# Related revisions

The ancestors and the descendants of several revisions are found one revision after the other,
each by a search with a stack of its own. A search may hold a revision on its stack several
times, yet lists it once, and it ends on every table, also on one with cycles. Main statement:
what a request finds, in which order, and which of its revisions a checked request is refused
for; ancestors and descendants are converse to each other.
-/
namespace MigrationHistory

namespace Nodes

open Relation StateTransition

/-- A search under way: the ids seen, the stack, its top first, and the revisions listed. -/
structure Search where
  seen : List RevisionId
  stack : List Revision
  listed : List Revision

/-- One turn of a search takes the top of the stack. A revision that was seen is dropped; any
other is listed and its neighbours go on top, the last of them first. With nothing on the stack
the search is over. -/
def turn? (nodes : Nodes) (d : Direction) (s : Search) : Option Search :=
  match s.stack with
  | [] => none
  | r :: rest =>
    if r.id ∈ s.seen then some { s with stack := rest }
    else some ⟨r.id :: s.seen, (nodes.select (d.step r)).reverse ++ rest, s.listed ++ [r]⟩

/-- What a search from `start` finds: it ends and has listed `found`, the start first, no
revision twice, and exactly the revisions that the start reaches. -/
structure Finds (nodes : Nodes) (d : Direction) (start : Revision) (found : List Revision) :
    Prop where
  ends : eval (nodes.turn? d) ⟨[], [start], []⟩ =
    Part.some ⟨(found.map Revision.id).reverse, [], found⟩
  first : found.head? = some start
  nodup : (found.map Revision.id).Nodup
  mem_iff : ∀ r, r ∈ found ↔ r ∈ nodes.elements ∧ ReflTransGen (nodes.Edge d) start.id r.id

/-- `start` reaches another one of the revisions. -/
def Overlaps (nodes : Nodes) (d : Direction) (starts : List Revision) (start : Revision) : Prop :=
  ∃ other ∈ starts, other.id ≠ start.id ∧ ReflTransGen (nodes.Edge d) start.id other.id

variable {nodes : Nodes} {d : Direction} {start : Revision}

section Search

variable {seen : List RevisionId} {rest listed : List Revision} {r : Revision}

theorem turn?_of_seen (hr : r.id ∈ seen) :
    nodes.turn? d ⟨seen, r :: rest, listed⟩ = some ⟨seen, rest, listed⟩ := by
  simp [turn?, hr]

theorem turn?_of_not_seen (hr : r.id ∉ seen) : nodes.turn? d ⟨seen, r :: rest, listed⟩ =
    some ⟨r.id :: seen, (nodes.select (d.step r)).reverse ++ rest, listed ++ [r]⟩ := by
  simp [turn?, hr]

/-- What was seen is dropped, turn by turn. -/
theorem reaches_dropped {passed : List Revision} (hpassed : ∀ s ∈ passed, s.id ∈ seen) :
    Reaches (nodes.turn? d) ⟨seen, passed ++ rest, listed⟩ ⟨seen, rest, listed⟩ := by
  induction passed with
  | nil => exact .refl
  | cons top passed ih =>
    obtain ⟨htop, hbelow⟩ := List.forall_mem_cons.mp hpassed
    exact .head (turn?_of_seen htop) (ih hbelow)

/-- With fuel for every unseen id, a search comes to an empty stack and has then listed what the
walk with that fuel lists. -/
theorem reaches_walk {fuel : Nat} {stack : List Revision} (hstack : ∀ r ∈ stack, r ∈ nodes.elements)
    (hfuel : (nodes.unseen seen).card < fuel) :
    Reaches (nodes.turn? d) ⟨seen, stack, listed⟩
      ⟨((nodes.walk d fuel seen stack).map Revision.id).reverse ++ seen, [],
        listed ++ nodes.walk d fuel seen stack⟩ := by
  -- Every revision listed leaves one unseen id less, so the fuel lasts until the stack is empty.
  induction fuel generalizing seen stack listed with
  | zero => omega
  | succ fuel ih =>
    rcases walk_succ nodes d fuel seen stack with
      ⟨hnil, hall⟩ | ⟨passed, r, rest, rfl, hpassed, hr, hlist⟩
    · have hdropped := @reaches_dropped nodes d seen [] listed stack hall
      simpa [hnil] using hdropped
    · have hrmem : r ∈ nodes.elements := hstack r (by simp)
      have hrest : ∀ s ∈ rest, s ∈ nodes.elements := fun s hs => hstack s (by simp [hs])
      have hcard := card_unseen_lt (id_mem_keys hrmem) hr
      have hlater := @ih (r.id :: seen) (listed ++ [r]) _ (pushed_mem (d := d) (r := r) hrest)
        (by omega)
      rw [hlist, List.map_cons, List.reverse_cons, List.append_assoc, List.append_cons listed]
      exact (reaches_dropped hpassed).trans (.head (turn?_of_not_seen hr) hlater)

/-- The search from a revision of the table ends, with the closure listed and its ids seen. -/
theorem eval_turn? (hstart : start ∈ nodes.elements) : eval (nodes.turn? d) ⟨[], [start], []⟩ =
    Part.some ⟨(nodes.closureIds d start).reverse, [], nodes.closure d start⟩ := by
  have hreaches := @reaches_walk nodes d [] [] (nodes.size + 1) [start] (by simpa using hstart)
    nodes.card_unseen_nil_lt
  rw [List.append_nil, List.nil_append] at hreaches
  exact Part.eq_some_iff.mpr (mem_eval.mpr ⟨hreaches, rfl⟩)

end Search

theorem head?_closure (nodes : Nodes) (d : Direction) (start : Revision) :
    (nodes.closure d start).head? = some start := rfl

theorem finds_closure (hstart : start ∈ nodes.elements) :
    nodes.Finds d start (nodes.closure d start) where
  ends := eval_turn? hstart
  first := head?_closure nodes d start
  nodup := closureIds_nodup nodes d start
  mem_iff := fun _ => mem_closure_iff hstart

theorem reachesOther_iff {starts : List Revision} (hstart : start ∈ nodes.elements) :
    nodes.reachesOther d starts start ↔ nodes.Overlaps d starts start := by
  simp [reachesOther, Overlaps, mem_closureIds hstart]

/-- On a linked table a revision is an ancestor of those that are its descendants. -/
theorem Linked.mem_closure_comm (hlinked : nodes.Linked) {m n : Revision}
    (hm : m ∈ nodes.elements) (hn : n ∈ nodes.elements) :
    m ∈ nodes.closure .ancestors n ↔ n ∈ nodes.closure .descendants m := by
  rw [mem_closure_iff hn, mem_closure_iff hm, hlinked.reaches_iff]
  exact ⟨fun h => ⟨hn, h.2⟩, fun h => ⟨hm, h.2⟩⟩

end Nodes

namespace History

open Nodes

variable {h : History} {d : Direction} {targets : List Revision}

/-- Closures are joined in order until one of them is refused. -/
theorem foldlM_closure (refuses : Revision → Bool) (found targets : List Revision) :
    targets.foldlM (fun found target =>
      if refuses target then Except.error (Error.overlapping target.id.text)
      else .ok (found ++ h.nodes.closure d target)) found =
    match targets.find? refuses with
    | some target => .error (.overlapping target.id.text)
    | none => .ok (found ++ h.nodes.closures d targets) := by
  induction targets generalizing found with
  | nil => simp [closures, pure, Except.pure]
  | cons target rest ih =>
    rw [List.foldlM_cons, List.find?_cons]
    cases refuses target with
    | true => rfl
    | false =>
      have hjoin : h.nodes.closures d (target :: rest) =
          h.nodes.closure d target ++ h.nodes.closures d rest := rfl
      rw [hjoin, ← List.append_assoc]
      exact ih (found ++ h.nodes.closure d target)

theorem related_unchecked (h : History) (d : Direction) (targets : List Revision) :
    h.related d false targets = .ok (h.nodes.closures d targets) := by
  have hjoined := @foldlM_closure h d (fun _ => false) [] targets
  rwa [List.find?_eq_none.mpr (by simp)] at hjoined

theorem related_checked (h : History) (d : Direction) (targets : List Revision) :
    h.related d true targets =
      match h.nodes.overlapping? d targets with
      | some target => .error (.overlapping target.id.text)
      | none => .ok (h.nodes.closures d targets) :=
  foldlM_closure (h.nodes.reachesOther d targets) [] targets

/-- The bounds of a range are kept apart as the targets of a checked request are. -/
theorem separate_eq (h : History) (d : Direction) (targets : List Revision) :
    h.separate d targets = (h.related d true targets).map fun _ => () := by
  rw [related_checked, separate]
  cases h.nodes.overlapping? d targets <;> rfl

section Targets

variable (hmem : ∀ target ∈ targets, target ∈ h.nodes.elements)
include hmem

theorem related_of_first_overlap {target : Revision}
    (hfirst : First (h.nodes.Overlaps d targets) targets target) :
    h.related d true targets = .error (.overlapping target.id.text) := by
  have hfound : h.nodes.overlapping? d targets = some target :=
    find?_eq_some_iff_first.mpr (hfirst.of_iff fun t ht => (reachesOther_iff (hmem t ht)).symm)
  rw [related_checked, hfound]

theorem related_of_no_overlap (hnone : ∀ target ∈ targets, ¬ h.nodes.Overlaps d targets target) :
    h.related d true targets = h.related d false targets := by
  have hfound : h.nodes.overlapping? d targets = none :=
    List.find?_eq_none.mpr fun t ht => (reachesOther_iff (hmem t ht)).not.mpr (hnone t ht)
  rw [related_checked, hfound, related_unchecked]

end Targets

/-- Of the revisions of a history that a run comes to, cycles or not, a request finds the
ancestors or the descendants target by target: each search ends and lists every revision reached
once, its target first. A revision is an ancestor of another exactly if that one is a descendant
of it. A checked request finds the same, unless a target reaches another one; it is then refused
for the first target that does. -/
theorem related_finds (hreached : Reached Revision.Fresh h)
    (hmem : ∀ target ∈ targets, target ∈ h.nodes.elements) :
    (∀ d, h.related d false targets = .ok (targets.flatMap (h.nodes.closure d)) ∧
      ∀ target ∈ targets, h.nodes.Finds d target (h.nodes.closure d target)) ∧
    (∀ m ∈ h.nodes.elements, ∀ n ∈ h.nodes.elements,
      (m ∈ h.nodes.closure .ancestors n ↔ n ∈ h.nodes.closure .descendants m)) ∧
    ∀ d, ((∀ target ∈ targets, ¬ h.nodes.Overlaps d targets target) →
        h.related d true targets = h.related d false targets) ∧
      ∀ target, First (h.nodes.Overlaps d targets) targets target →
        h.related d true targets = .error (.overlapping target.id.text) := by
  refine ⟨fun d => ⟨related_unchecked h d targets, ?_⟩, ?_, fun d => ⟨?_, ?_⟩⟩
  · exact fun target htarget => finds_closure (hmem target htarget)
  · exact fun m hm n hn => hreached.linked.mem_closure_comm hm hn
  · exact related_of_no_overlap hmem
  · exact fun target hfirst => related_of_first_overlap hmem hfirst

end History

/-- `a` and `b` name each other, and `c` names `b` twice and an absent revision. -/
def Sample.looped : List Revision :=
  revisions [(a, [b], []), (b, [a], []), (c, [b, b, e], [])]

namespace History

/-- Next to a cycle the search from `c` ends, though it holds `b` on its stack twice, and the
descendants of `c` and `a` are refused for `a`, which has `c` among its own. -/
theorem related_on_looped :
    ∃ h targets, build Config.default Sample.looped = .ok h ∧
      targets.map Revision.id = [Sample.c, Sample.a] ∧
      (∀ target ∈ targets, target ∈ h.nodes.elements) ∧
      h.nodes.Names Sample.a Sample.b ∧ h.nodes.Names Sample.b Sample.a ∧
      (h.related .ancestors false targets).map (·.map Revision.id) =
        .ok [Sample.c, Sample.b, Sample.a, Sample.a, Sample.b] ∧
      (∀ target ∈ targets, h.nodes.Finds .ancestors target (h.nodes.closure .ancestors target)) ∧
      h.related .descendants true targets = .error (.overlapping "a") := by
  have hbuilt : Reached Revision.Admissible _ :=
    @Reached.build _ Config.default Sample.looped _ (Sample.revisions_admissible (by decide)) rfl
  obtain ⟨hfinds, -, hchecked⟩ := @related_finds _
    [⟨Sample.c, [Sample.b, Sample.b, Sample.e], [], [], []⟩,
      ⟨Sample.a, [Sample.b], [Sample.b], [], []⟩]
    hbuilt.fresh (by decide)
  obtain ⟨hrelated, hlisted⟩ := hfinds .ancestors
  refine ⟨_, _, rfl, rfl, by decide, ?_, ?_, ?_, hlisted,
    (hchecked .descendants).2 ⟨Sample.a, [Sample.b], [Sample.b], [], []⟩ ?_⟩
  · exact ⟨by decide, ⟨Sample.a, [Sample.b], [Sample.b], [], []⟩, by decide, rfl, by decide⟩
  · exact ⟨by decide, ⟨Sample.b, [Sample.a], [Sample.a, Sample.c], [], []⟩, by decide, rfl,
      by decide⟩
  · rw [hrelated]
    decide
  · refine ⟨[_], [], rfl, (Nodes.reachesOther_iff (by decide)).mp (by decide), ?_⟩
    intro target htarget
    rw [List.mem_singleton.mp htarget]
    exact (Nodes.reachesOther_iff (by decide)).not.mp (by decide)

end History

end MigrationHistory
