import Mathlib.Data.Finset.Card
import Mathlib.Logic.Relation
import MigrationHistory.Closure

/-!
# Ancestry

One step along an edge leads from a revision of the table to one that it lists, and that is
in the table too; a listed id that names no revision is no edge. Descent is any number of
steps from child to parent. Main statements: on a table without cycles every parent has a
smaller height than its child, and the height never reaches the size of the table.
-/
namespace MigrationHistory.Nodes

open Relation

variable {nodes : Nodes}

/-- The revision under `source` lists `target`, and both are in the table. -/
def Edge (nodes : Nodes) (d : Direction) (source target : RevisionId) : Prop :=
  target ∈ nodes.keys ∧ ∃ r ∈ nodes.elements, r.id = source ∧ target ∈ d.step r

/-- The revision under `child` names the one under `parent`. -/
abbrev Names (nodes : Nodes) : RevisionId → RevisionId → Prop := nodes.Edge .ancestors

/-- The first id is the second one or a descendant of it. -/
def Descends (nodes : Nodes) : RevisionId → RevisionId → Prop := ReflTransGen nodes.Names

/-- No revision is its own proper ancestor. -/
def Acyclic (nodes : Nodes) : Prop := ∀ id, ¬ TransGen nodes.Names id id

theorem mem_keys {id : RevisionId} : id ∈ nodes.keys ↔ ∃ r ∈ nodes.elements, r.id = id := by
  simp [Table.keys]

theorem id_mem_keys {r : Revision} (hr : r ∈ nodes.elements) : r.id ∈ nodes.keys :=
  mem_keys.mpr ⟨r, hr, rfl⟩

theorem edge_iff {d : Direction} {r : Revision} (hr : r ∈ nodes.elements) {target : RevisionId} :
    nodes.Edge d r.id target ↔ target ∈ nodes.keys ∧ target ∈ d.step r := by
  constructor
  · rintro ⟨hkey, r', hr', hid, hmem⟩
    rw [← nodes.eq_of_key_eq hr' hr hid]
    exact ⟨hkey, hmem⟩
  · rintro ⟨hkey, hmem⟩
    exact ⟨hkey, r, hr, rfl, hmem⟩

theorem names_iff {r : Revision} (hr : r ∈ nodes.elements) {parent : RevisionId} :
    nodes.Names r.id parent ↔ parent ∈ nodes.keys ∧ parent ∈ r.parents := edge_iff hr

theorem Edge.source_mem {d : Direction} {a b : RevisionId} (h : nodes.Edge d a b) :
    a ∈ nodes.keys := by
  obtain ⟨_, r, hr, rfl, _⟩ := h
  exact id_mem_keys hr

/-- Among the revisions of the table, naming is membership in the list of namers. -/
theorem names_iff_mem_namers {child parent : RevisionId} (hp : parent ∈ nodes.keys) :
    nodes.Names child parent ↔ child ∈ nodes.namers parent := by
  rw [mem_namers]
  constructor
  · rintro ⟨_, r, hr, hid, hmem⟩
    exact ⟨r, hr, hmem, hid⟩
  · rintro ⟨r, hr, hmem, hid⟩
    exact ⟨hp, r, hr, hid, hmem⟩

theorem Descends.refl (id : RevisionId) : nodes.Descends id id := ReflTransGen.refl

theorem Descends.trans {a b c : RevisionId} (hab : nodes.Descends a b)
    (hbc : nodes.Descends b c) : nodes.Descends a c := ReflTransGen.trans hab hbc

theorem Descends.of_names {a b : RevisionId} (h : nodes.Names a b) : nodes.Descends a b :=
  ReflTransGen.single h

/-- Descent stays inside the table. -/
theorem Descends.mem_right {a b : RevisionId} (h : nodes.Descends a b) (ha : a ∈ nodes.keys) :
    b ∈ nodes.keys := by
  induction h with
  | refl => exact ha
  | tail _ hstep _ => exact hstep.1

theorem Descends.mem_left {a b : RevisionId} (h : nodes.Descends a b) (hb : b ∈ nodes.keys) :
    a ∈ nodes.keys := by
  induction h using ReflTransGen.head_induction_on with
  | refl => exact hb
  | head hstep _ _ => exact hstep.source_mem

/-- A step and a descent never close a cycle. -/
theorem Acyclic.not_descends (hacyclic : nodes.Acyclic) {a b : RevisionId}
    (h : nodes.Names a b) : ¬ nodes.Descends b a :=
  fun hba => hacyclic a (TransGen.head' h hba)

theorem Acyclic.ne_of_names (hacyclic : nodes.Acyclic) {a b : RevisionId}
    (h : nodes.Names a b) : a ≠ b := by
  rintro rfl
  exact hacyclic.not_descends h (Descends.refl _)

theorem Acyclic.antisymm (hacyclic : nodes.Acyclic) {a b : RevisionId}
    (hab : nodes.Descends a b) (hba : nodes.Descends b a) : a = b := by
  rcases ReflTransGen.cases_head hab with rfl | ⟨c, hstep, hcb⟩
  · rfl
  · exact absurd (Descends.trans hcb hba) (hacyclic.not_descends hstep)

open Classical in
/-- The number of proper ancestors. -/
noncomputable def height (nodes : Nodes) (id : RevisionId) : Nat :=
  (nodes.keys.toFinset.filter fun k => TransGen nodes.Names id k).card

theorem height_le_size (nodes : Nodes) (id : RevisionId) : nodes.height id ≤ nodes.size := by
  classical
  calc nodes.height id ≤ nodes.keys.toFinset.card := Finset.card_filter_le _ _
    _ ≤ nodes.keys.length := List.toFinset_card_le _
    _ = nodes.size := by simp [Table.keys, Table.size]

/-- The induction over a history runs from parents to children, or against the height. -/
theorem height_lt (hacyclic : nodes.Acyclic) {child parent : RevisionId}
    (h : nodes.Names child parent) : nodes.height parent < nodes.height child := by
  classical
  apply Finset.card_lt_card
  rw [Finset.ssubset_iff_of_subset]
  · refine ⟨parent, ?_, ?_⟩
    · simpa using ⟨h.1, TransGen.single h⟩
    · simpa using fun _ => hacyclic parent
  · intro k hk
    simp only [Finset.mem_filter] at hk ⊢
    exact ⟨hk.1, TransGen.head h hk.2⟩

/-- Going down among ids of one kind ends at one that names no other of that kind. -/
theorem Acyclic.exists_lowest (hacyclic : nodes.Acyclic) {P : RevisionId → Prop} {id : RevisionId}
    (hid : P id) : ∃ low, P low ∧ nodes.Descends id low ∧ ∀ p, nodes.Names low p → ¬ P p := by
  induction hheight : nodes.height id using Nat.strong_induction_on generalizing id with
  | _ n ih =>
    by_cases hlower : ∃ p, nodes.Names id p ∧ P p
    · obtain ⟨p, hnames, hp⟩ := hlower
      obtain ⟨low, hlow, hdescends, hnone⟩ := ih _ (hheight ▸ height_lt hacyclic hnames) hp rfl
      exact ⟨low, hlow, .trans (.of_names hnames) hdescends, hnone⟩
    · exact ⟨id, hid, .refl id, fun p hnames hp => hlower ⟨p, hnames, hp⟩⟩

/-- Going up ends at an id that nothing names. -/
theorem Acyclic.exists_highest (hacyclic : nodes.Acyclic) (id : RevisionId) :
    ∃ high, nodes.Descends high id ∧ ∀ c, ¬ nodes.Names c high := by
  induction hdepth : nodes.size - nodes.height id using Nat.strong_induction_on
    generalizing id with
  | _ n ih =>
    by_cases hnamed : ∃ c, nodes.Names c id
    · obtain ⟨c, hnames⟩ := hnamed
      have hhigher := height_lt hacyclic hnames
      have hbound := height_le_size nodes c
      obtain ⟨high, hdescends, hnone⟩ := ih _ (by omega) c rfl
      exact ⟨high, hdescends.trans (.of_names hnames), hnone⟩
    · exact ⟨id, .refl id, fun c hnames => hnamed ⟨c, hnames⟩⟩

/-- A table in which parents have a smaller rank than their children has no cycle. -/
theorem acyclic_of_rank (rank : RevisionId → Nat)
    (hrank : ∀ r ∈ nodes.elements, ∀ p ∈ r.parents, p ∈ nodes.keys → rank p < rank r.id) :
    nodes.Acyclic := by
  have hless : ∀ {a b}, TransGen nodes.Names a b → rank b < rank a := by
    intro a b h
    induction h with
    | single hstep =>
      obtain ⟨hkey, r, hr, rfl, hmem⟩ := hstep
      exact hrank r hr _ hmem hkey
    | tail _ hstep ih =>
      obtain ⟨hkey, r, hr, rfl, hmem⟩ := hstep
      exact (hrank r hr _ hmem hkey).trans ih
  exact fun id h => Nat.lt_irrefl _ (hless h)

end MigrationHistory.Nodes
