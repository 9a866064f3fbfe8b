import MigrationHistory.History.Consistency
import MigrationHistory.Proofs.Closure
import MigrationHistory.Proofs.Refusal

/-!
# The search for a cycle

The search goes down the parents in depth and shares what it has visited between all its
starts. An id that it has visited and left is settled: it reaches no cycle, whatever is searched
later. Main statement: the search names the first revision, in order of entry, that reaches a
cycle of parents inside the table, and names none exactly when there is no cycle.
-/
namespace MigrationHistory

section Folds

variable {α β : Type} {step : α → β → Option α} {start : α} {xs : List β}

theorem exists_none_of_foldlM (h : xs.foldlM step start = none) :
    ∃ x ∈ xs, ∃ state, step state x = none := by
  induction xs generalizing start with
  | nil => cases h
  | cons x rest ih =>
    rw [List.foldlM_cons] at h
    cases hstep : step start x with
    | none => exact ⟨x, List.mem_cons_self, start, hstep⟩
    | some state =>
      rw [hstep] at h
      obtain ⟨y, hy, hnone⟩ := ih h
      exact ⟨y, List.mem_cons_of_mem _ hy, hnone⟩

/-- What every step keeps, and shows of its element, holds of the fold and of all elements. -/
theorem keeps_of_foldlM {P : α → Prop} {Q : β → Prop}
    (hkeeps : ∀ state x next, P state → step state x = some next → P next ∧ Q x)
    (hstart : P start) {final : α} (h : xs.foldlM step start = some final) :
    P final ∧ ∀ x ∈ xs, Q x := by
  induction xs generalizing start with
  | nil => exact ⟨Option.some.inj h ▸ hstart, by simp⟩
  | cons x rest ih =>
    rw [List.foldlM_cons] at h
    obtain ⟨next, hstep, hrest⟩ := Option.bind_eq_some_iff.mp h
    obtain ⟨hnext, hx⟩ := hkeeps start x next hstart hstep
    obtain ⟨hfinal, hall⟩ := ih hnext hrest
    exact ⟨hfinal, List.forall_mem_cons.mpr ⟨hx, hall⟩⟩

end Folds

namespace Nodes

open Relation

variable {nodes : Nodes} {path visited : List RevisionId} {id : RevisionId}

/-- Following parents inside the table, the id comes to one that comes back to itself. -/
def ReachesCycle (nodes : Nodes) (id : RevisionId) : Prop :=
  ∃ c, nodes.Descends id c ∧ TransGen nodes.Names c c

theorem ReachesCycle.of_names {child parent : RevisionId} (hnames : nodes.Names child parent)
    (hparent : nodes.ReachesCycle parent) : nodes.ReachesCycle child := by
  obtain ⟨c, hdescends, hcycle⟩ := hparent
  exact ⟨c, .trans (.of_names hnames) hdescends, hcycle⟩

/-- What reaches a cycle has a parent that does: on the cycle, the next id of it. -/
theorem ReachesCycle.exists_parent (hreaches : nodes.ReachesCycle id) :
    ∃ parent, nodes.Names id parent ∧ nodes.ReachesCycle parent := by
  obtain ⟨c, hdescends, hcycle⟩ := hreaches
  rcases ReflTransGen.cases_head hdescends with rfl | ⟨parent, hnames, hrest⟩
  · obtain ⟨parent, hnames, hback⟩ := TransGen.head'_iff.mp hcycle
    exact ⟨parent, hnames, id, hback, hcycle⟩
  · exact ⟨parent, hnames, c, hrest, hcycle⟩

theorem ReachesCycle.mem_keys (hreaches : nodes.ReachesCycle id) : id ∈ nodes.keys := by
  obtain ⟨parent, hnames, -⟩ := hreaches.exists_parent
  exact hnames.source_mem

theorem exists_reachesCycle (hcycle : TransGen nodes.Names id id) :
    ∃ r ∈ nodes.elements, nodes.ReachesCycle r.id := by
  have hreaches : nodes.ReachesCycle id := ⟨id, .refl id, hcycle⟩
  obtain ⟨r, hr, rfl⟩ := Nodes.mem_keys.mp hreaches.mem_keys
  exact ⟨r, hr, hreaches⟩

theorem acyclic_iff_not_reachesCycle :
    nodes.Acyclic ↔ ∀ r ∈ nodes.elements, ¬ nodes.ReachesCycle r.id := by
  constructor
  · rintro hacyclic r - ⟨c, -, hcycle⟩
    exact hacyclic c hcycle
  · intro hnone c hcycle
    obtain ⟨r, hr, hreaches⟩ := exists_reachesCycle hcycle
    exact hnone r hr hreaches

/-- The id leads to a cycle of parents without lying on one. -/
def Approaches (nodes : Nodes) (id : RevisionId) : Prop :=
  nodes.ReachesCycle id ∧ ¬ TransGen nodes.Names id id

/-- What has been visited and left again reaches no cycle. -/
def Settled (nodes : Nodes) (path visited : List RevisionId) : Prop :=
  ∀ id ∈ visited, id ∉ path → ¬ nodes.ReachesCycle id

/-- Every id of the path leads to the id searched, if that is in the table. -/
def LeadsTo (nodes : Nodes) (path : List RevisionId) (id : RevisionId) : Prop :=
  ∀ g ∈ path, id ∈ nodes.keys → TransGen nodes.Names g id

theorem LeadsTo.cons (hleads : nodes.LeadsTo path id) {parent : RevisionId}
    {r : Revision} (hr : r ∈ nodes.elements) (hid : r.id = id) (hparent : parent ∈ r.parents) :
    nodes.LeadsTo (id :: path) parent := by
  subst hid
  intro g hg hkey
  have hnames : nodes.Names r.id parent := (names_iff hr).mpr ⟨hkey, hparent⟩
  rcases List.mem_cons.mp hg with rfl | hg
  · exact .single hnames
  · exact (hleads g hg (id_mem_keys hr)).tail hnames

/-- Entering an id keeps settled what was: the id is on the path now. -/
theorem Settled.enter (hsettled : nodes.Settled path visited) :
    nodes.Settled (id :: path) (id :: visited) := by
  intro v hv hoff
  rw [List.mem_cons, not_or] at hoff
  exact hsettled v ((List.mem_cons.mp hv).resolve_left hoff.1) hoff.2

/-- Leaving an id that reaches no cycle settles it. -/
theorem Settled.leave (hsettled : nodes.Settled (id :: path) visited)
    (hid : ¬ nodes.ReachesCycle id) : nodes.Settled path visited := by
  intro v hv hoff
  by_cases hvid : v = id
  · exact hvid ▸ hid
  · exact hsettled v hv fun hmem => hoff ((List.mem_cons.mp hmem).resolve_left hvid)

/-- A search that breaks off has found a cycle, as long as the path leads to its start. -/
theorem reachesCycle_of_search {fuel : Nat} (hpath : ∀ g ∈ path, g ∈ nodes.keys)
    (hleads : nodes.LeadsTo path id) (hbroken : nodes.search fuel path visited id = none) :
    nodes.ReachesCycle id := by
  induction fuel generalizing path visited id with
  | zero => cases hbroken
  | succ fuel ih =>
    rw [search] at hbroken
    split at hbroken
    · rename_i hmem
      exact ⟨id, .refl id, hleads id hmem (hpath id hmem)⟩
    split at hbroken
    · cases hbroken
    split at hbroken
    · cases hbroken
    · rename_i r hfind
      obtain ⟨hr, hid⟩ := Table.find?_eq_some_iff.mp hfind
      have hpath' : ∀ g ∈ id :: path, g ∈ nodes.keys :=
        List.forall_mem_cons.mpr ⟨hid ▸ id_mem_keys hr, hpath⟩
      obtain ⟨parent, hparent, seen, hsearch⟩ := exists_none_of_foldlM hbroken
      have hreaches := ih hpath' (hleads.cons hr hid hparent) hsearch
      have hnames := (names_iff hr).mpr ⟨hreaches.mem_keys, hparent⟩
      exact hid ▸ .of_names hnames hreaches

/-- A search that ends settles what it has visited, its start among it. -/
theorem settled_of_search {fuel : Nat} (hfuel : (nodes.unseen path).card < fuel)
    (hsettled : nodes.Settled path visited) {seen : List RevisionId}
    (hended : nodes.search fuel path visited id = some seen) :
    nodes.Settled path seen ∧ ¬ nodes.ReachesCycle id := by
  induction fuel generalizing path visited id seen with
  | zero => omega
  | succ fuel ih =>
    rw [search] at hended
    split at hended
    · cases hended
    rename_i hoff
    split at hended
    · rename_i hvisited
      obtain rfl := Option.some.inj hended
      exact ⟨hsettled, hsettled id hvisited hoff⟩
    split at hended
    · rename_i hfind
      obtain rfl := Option.some.inj hended
      have hid : ¬ nodes.ReachesCycle id :=
        fun hreaches => Table.find?_eq_none_iff.mp hfind hreaches.mem_keys
      exact ⟨hsettled.enter.leave hid, hid⟩
    · rename_i r hfind
      obtain ⟨hr, hrid⟩ := Table.find?_eq_some_iff.mp hfind
      have hcard := card_unseen_lt (hrid ▸ id_mem_keys hr) hoff
      obtain ⟨hseen, hparents⟩ := keeps_of_foldlM
        (fun _ _ _ hstate hstep => ih (by omega) hstate hstep) hsettled.enter hended
      have hid : ¬ nodes.ReachesCycle id := by
        intro hreaches
        obtain ⟨parent, hnames, hparent⟩ := hreaches.exists_parent
        exact hparents parent ((names_iff hr).mp (hrid ▸ hnames)).2 hparent
      exact ⟨hseen.leave hid, hid⟩

/-- Searches that share what they visit break off first at the first start that reaches a
cycle. -/
theorem firstBroken?_eq_some_iff {rs : List Revision} {r : Revision}
    (hsettled : nodes.Settled [] visited) :
    nodes.firstBroken? visited rs = some r ↔ First (fun s => nodes.ReachesCycle s.id) rs r := by
  induction rs generalizing visited with
  | nil =>
    constructor
    · intro h
      cases h
    · rintro ⟨before, after, hxs, -⟩
      exact absurd hxs.symm (List.append_ne_nil_of_right_ne_nil _ (List.cons_ne_nil _ _))
  | cons s rest ih =>
    rw [firstBroken?, first_cons_iff]
    split
    · rename_i hbroken
      have hreaches : nodes.ReachesCycle s.id := reachesCycle_of_search
        (fun _ hg => absurd hg List.not_mem_nil) (fun _ hg => absurd hg List.not_mem_nil) hbroken
      simp [hreaches, eq_comm]
    · rename_i seen hended
      obtain ⟨hseen, hnot⟩ := settled_of_search nodes.card_unseen_nil_lt hsettled hended
      simp [ih hseen, hnot]

/-- The search names the first revision that reaches a cycle. -/
theorem cycle?_eq_some_iff {r : Revision} : nodes.cycle? = some r ↔
    First (fun s => nodes.ReachesCycle s.id) nodes.elements r :=
  firstBroken?_eq_some_iff fun _ hid => absurd hid List.not_mem_nil

theorem cycle?_eq_none_iff : nodes.cycle? = none ↔ nodes.Acyclic := by
  rw [acyclic_iff_not_reachesCycle, Option.eq_none_iff_forall_ne_some]
  constructor
  · intro hnone r hr hreaches
    obtain ⟨first, hfirst⟩ :=
      (exists_first_iff (P := fun s => nodes.ReachesCycle s.id)).mpr ⟨r, hr, hreaches⟩
    exact hnone first (cycle?_eq_some_iff.mpr hfirst)
  · intro hnone r hsome
    obtain ⟨s, hs, hreaches⟩ := exists_first_iff.mp ⟨r, cycle?_eq_some_iff.mp hsome⟩
    exact hnone s hs hreaches

end Nodes

end MigrationHistory
