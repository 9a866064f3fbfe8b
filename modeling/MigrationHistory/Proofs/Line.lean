import MigrationHistory.Labelling
import MigrationHistory.Proofs.Closure
import MigrationHistory.Proofs.Links

/-!
# The unforked line below an origin

An origin hands its labels to its descendants and then to the line of first parents that
starts at the descendant found last. Which descendant that is depends on the order of
children, and which ids the line meets does not: it leaves the descendants only when they
form a single line with no fork and no merge, and then it runs on as far as this stays so.
Main statement: an origin reaches exactly its descendants and the ids above it all of whose
descendants are unforked.
-/
namespace MigrationHistory

/-- At most one child and at most one declared parent. -/
def Revision.Unforked (r : Revision) : Prop := r.children.length ≤ 1 ∧ r.parents.length ≤ 1

theorem Revision.unforked_iff {r : Revision} :
    r.Unforked ↔ ¬ (r.isBranchPoint || r.isMergePoint) := by
  simp only [Unforked, isBranchPoint, isMergePoint, Bool.or_eq_true, decide_eq_true_eq]
  omega

namespace Nodes

open Relation

variable {nodes : Nodes}

/-- A table whose children are its namers and whose parents form no cycle. -/
structure Dag (nodes : Nodes) : Prop where
  linked : nodes.Linked
  loopFree : nodes.LoopFree
  acyclic : nodes.Acyclic

/-- All revisions that descend from `id`, it included, are unforked. -/
def Tail (nodes : Nodes) (id : RevisionId) : Prop :=
  ∀ r ∈ nodes.elements, nodes.Descends r.id id → r.Unforked

/-- What is declared under `owner` holds under `id`: below the owner, and above it as far as
nothing that descends from `id` is forked. -/
def Carries (nodes : Nodes) (owner id : RevisionId) : Prop :=
  nodes.Descends id owner ∨ nodes.Descends owner id ∧ nodes.Tail id

/-- The line that starts at the first id and runs through unforked revisions comes to the
second id. -/
inductive OnLine (nodes : Nodes) : RevisionId → RevisionId → Prop
  | here {r : Revision} (hr : r ∈ nodes.elements) (hunforked : r.Unforked) :
      OnLine nodes r.id r.id
  | up {r : Revision} {parent id : RevisionId} (hr : r ∈ nodes.elements)
      (hunforked : r.Unforked) (hnames : nodes.Names r.id parent)
      (hline : OnLine nodes parent id) : OnLine nodes r.id id

theorem OnLine.descends {x y : RevisionId} (h : nodes.OnLine x y) : nodes.Descends x y := by
  induction h with
  | here => exact Descends.refl _
  | up _ _ hnames _ ih => exact Descends.trans (.of_names hnames) ih

theorem OnLine.source {x y : RevisionId} (h : nodes.OnLine x y) :
    ∃ r ∈ nodes.elements, r.id = x ∧ r.Unforked := by
  cases h with
  | here hr hunforked => exact ⟨_, hr, rfl, hunforked⟩
  | up hr hunforked => exact ⟨_, hr, rfl, hunforked⟩

theorem OnLine.target {x y : RevisionId} (h : nodes.OnLine x y) :
    ∃ r ∈ nodes.elements, r.id = y ∧ r.Unforked := by
  induction h with
  | here hr hunforked => exact ⟨_, hr, rfl, hunforked⟩
  | up _ _ _ _ ih => exact ih

theorem OnLine.source_unforked {r : Revision} {y : RevisionId} (h : nodes.OnLine r.id y)
    (hr : r ∈ nodes.elements) : r.Unforked := by
  obtain ⟨s, hs, hid, hunforked⟩ := h.source
  rwa [nodes.eq_of_key_eq hs hr hid] at hunforked

theorem OnLine.target_unforked {r : Revision} {x : RevisionId} (h : nodes.OnLine x r.id)
    (hr : r ∈ nodes.elements) : r.Unforked := by
  obtain ⟨s, hs, hid, hunforked⟩ := h.target
  rwa [nodes.eq_of_key_eq hs hr hid] at hunforked

/-- An unforked revision names one parent. -/
theorem parents_eq_of_names {r : Revision} (hr : r ∈ nodes.elements) (hunforked : r.Unforked)
    {p : RevisionId} (hp : nodes.Names r.id p) : r.parents = [p] := by
  have hmem := ((names_iff hr).mp hp).2
  have hlength : r.parents.length = 1 :=
    Nat.le_antisymm hunforked.2 (List.length_pos_of_mem hmem)
  obtain ⟨q, hq⟩ := List.length_eq_one_iff.mp hlength
  rw [hq, List.mem_singleton] at hmem
  rw [hq, hmem]

theorem unique_parent {r : Revision} (hr : r ∈ nodes.elements) (hunforked : r.Unforked)
    {p q : RevisionId} (hp : nodes.Names r.id p) (hq : nodes.Names r.id q) : p = q := by
  apply eq_of_length_le_one hunforked.2
  · exact ((names_iff hr).mp hp).2
  · exact ((names_iff hr).mp hq).2

theorem Dag.mem_children_iff (hdag : nodes.Dag) {r : Revision} (hr : r ∈ nodes.elements)
    {c : RevisionId} : c ∈ r.children ↔ nodes.Names c r.id := by
  rw [hdag.linked.mem_children_iff hdag.loopFree hr, names_iff_mem_namers (id_mem_keys hr)]

/-- An unforked revision is named by one child. -/
theorem Dag.unique_child (hdag : nodes.Dag) {r : Revision} (hr : r ∈ nodes.elements)
    (hunforked : r.Unforked) {c d : RevisionId} (hc : nodes.Names c r.id)
    (hd : nodes.Names d r.id) : c = d := by
  apply eq_of_length_le_one hunforked.1
  · exact (hdag.mem_children_iff hr).mpr hc
  · exact (hdag.mem_children_iff hr).mpr hd

/-- What the start of a line descends from lies on the line or beyond its end. -/
theorem OnLine.ancestor {x y o : RevisionId} (hline : nodes.OnLine x y)
    (ho : nodes.Descends x o) : nodes.Descends y o ∨ nodes.OnLine o y := by
  induction hline with
  | here => exact .inl ho
  | up hr hunforked hnames hrest ih =>
    rcases ReflTransGen.cases_head ho with rfl | ⟨q, hq, hqo⟩
    · exact .inr (.up hr hunforked hnames hrest)
    · rw [← unique_parent hr hunforked hnames hq] at hqo
      exact ih hqo

/-- What descends from the end of a line lies on the line or descends from its start. -/
theorem OnLine.descendant (hdag : nodes.Dag) {x y m : RevisionId} (hline : nodes.OnLine x y)
    (hm : nodes.Descends m y) : nodes.OnLine x m ∨ nodes.Descends m x := by
  induction hline with
  | here => exact .inr hm
  | up hr hunforked hnames hrest ih =>
    rcases ih hm with hon | hbelow
    · exact .inl (.up hr hunforked hnames hon)
    · obtain ⟨p, hp, rfl, hpunforked⟩ := hrest.source
      rcases ReflTransGen.cases_tail hbelow with rfl | ⟨c, hmc, hc⟩
      · exact .inl (.up hr hunforked hnames (.here hp hpunforked))
      · rw [hdag.unique_child hp hpunforked hc hnames] at hmc
        exact .inr hmc

/-- Over an unforked tail every descent is a line. -/
theorem Tail.onLine {x y : RevisionId} (htail : nodes.Tail y) (hy : y ∈ nodes.keys)
    (h : nodes.Descends x y) : nodes.OnLine x y := by
  induction h using ReflTransGen.head_induction_on with
  | refl =>
    obtain ⟨r, hr, rfl⟩ := mem_keys.mp hy
    exact .here hr (htail r hr (Descends.refl _))
  | head hnames hrest ih =>
    obtain ⟨r, hr, rfl⟩ := mem_keys.mp hnames.source_mem
    exact .up hr (htail r hr (.head hnames hrest)) hnames ih

theorem Tail.of_descends {x y : RevisionId} (htail : nodes.Tail y) (h : nodes.Descends x y) :
    nodes.Tail x := fun r hr hrx => htail r hr (Descends.trans hrx h)

/-- Each unforked id that is met for the first time is listed, and the line goes on. -/
theorem line_succ {r : Revision} (hr : r ∈ nodes.elements) (hunforked : r.Unforked) {fuel : Nat}
    {seen : List RevisionId} (hfresh : r.id ∉ seen) :
    nodes.line (fuel + 1) seen (some r.id) =
      r.id :: nodes.line fuel (r.id :: seen) r.parents.head? := by
  simp [line, hfresh, Table.find?_eq_some_iff.mpr ⟨hr, rfl⟩, Revision.unforked_iff.mp hunforked]

/-- The line computed lists what lies on the line. -/
theorem onLine_of_mem_line {fuel : Nat} {seen : List RevisionId} {x id : RevisionId}
    (h : id ∈ nodes.line fuel seen (some x)) : nodes.OnLine x id := by
  induction fuel generalizing seen x with
  | zero => simp [line] at h
  | succ fuel ih =>
    rw [line] at h
    split at h
    · cases h
    split at h
    · cases h
    rename_i r hfind
    obtain ⟨hr, rfl⟩ := Table.find?_eq_some_iff.mp hfind
    split at h
    · cases h
    rename_i hplain
    have hunforked := Revision.unforked_iff.mpr hplain
    rcases List.mem_cons.mp h with rfl | h
    · exact .here hr hunforked
    · cases hhead : r.parents.head? with
      | none => cases fuel <;> simp [hhead, line] at h
      | some parent =>
        rw [hhead] at h
        have hrest := ih h
        obtain ⟨p, hp, hid, -⟩ := hrest.source
        have hnames := (names_iff hr).mpr ⟨hid ▸ id_mem_keys hp, List.mem_of_head? hhead⟩
        exact .up hr hunforked hnames hrest

/-- With fuel for every proper ancestor of the start nothing on the line is missed. -/
theorem mem_line_of_onLine (hacyclic : nodes.Acyclic) {x id : RevisionId}
    (hline : nodes.OnLine x id) {fuel : Nat} {seen : List RevisionId}
    (hfuel : nodes.height x < fuel) (hseen : ∀ s ∈ seen, ¬ nodes.Descends x s) :
    id ∈ nodes.line fuel seen (some x) := by
  obtain ⟨fuel, rfl⟩ : ∃ n, fuel = n + 1 := ⟨fuel - 1, by omega⟩
  induction hline generalizing fuel seen with
  | here hr hunforked =>
    rw [line_succ hr hunforked fun h => hseen _ h (Descends.refl _)]
    exact List.mem_cons_self
  | @up r parent id hr hunforked hnames hrest ih =>
    rw [line_succ hr hunforked fun h => hseen _ h (Descends.refl _),
      parents_eq_of_names hr hunforked hnames, List.head?_cons]
    apply List.mem_cons_of_mem
    have hlower := height_lt hacyclic hnames
    obtain ⟨fuel, rfl⟩ : ∃ n, fuel = n + 1 := ⟨fuel - 1, by omega⟩
    refine ih ?_ fuel (by omega)
    intro s hs
    rcases List.mem_cons.mp hs with rfl | hs
    · exact hacyclic.not_descends hnames
    · exact fun h => hseen s hs (.head hnames h)

/-- A child of the revision that a closure lists last is listed after another one that it
names. -/
theorem Dag.other_parent (hdag : nodes.Dag) {r x : Revision} (hr : r ∈ nodes.elements)
    {before : List Revision} (hclosure : nodes.closure .descendants r = before ++ [x])
    (hxr : nodes.Descends x.id r.id) {c : RevisionId} (hcx : nodes.Names c x.id) :
    ∃ q ∈ nodes.elements, q.id ≠ x.id ∧ nodes.Names c q.id ∧ nodes.Descends q.id r.id := by
  have hmem : ∀ m ∈ before ++ [x], m ∈ nodes.elements := fun m hm =>
    closure_subset hr (hclosure ▸ hm)
  have hnodup : x ∉ before := by
    have h := closureIds_nodup nodes .descendants r
    simp only [closureIds, hclosure, List.map_append, List.nodup_append] at h
    exact fun hxb => h.2.2 x.id (List.mem_map_of_mem hxb) x.id (by simp) rfl
  obtain ⟨m, hm, rfl⟩ := List.mem_map.mp ((hdag.linked.mem_descendants hr).mpr
    (.head hcx hxr))
  rw [hclosure] at hm
  have hmbefore : m ∈ before := by
    rcases List.mem_append.mp hm with h | h
    · exact h
    · rw [List.mem_singleton.mp h] at hcx
      exact absurd rfl (hdag.acyclic.ne_of_names hcx)
  obtain ⟨first, rest, rfl⟩ := List.append_of_mem hmbefore
  rw [List.append_assoc, List.cons_append] at hclosure
  rcases closure_preceded hclosure with rfl | ⟨q, hq, hchild⟩
  · exact absurd hxr (hdag.acyclic.not_descends hcx)
  have hqmem : q ∈ nodes.elements := hmem q (by simp [hq])
  refine ⟨q, hqmem, fun hqx => ?_, (hdag.mem_children_iff hqmem).mp hchild, ?_⟩
  · rw [nodes.eq_of_key_eq hqmem (hmem x (by simp)) hqx] at hq
    exact hnodup (by simp [hq])
  · refine (hdag.linked.mem_descendants hr).mp (List.mem_map_of_mem ?_)
    rw [hclosure]
    simp [hq]

/-- When the line comes back from the descendant found last to the origin, that descendant has
no child: a child of it would have been found before it, from some other parent, and a line
leaves no room for one. -/
theorem Dag.last_childless (hdag : nodes.Dag) {r x : Revision} (hr : r ∈ nodes.elements)
    {before : List Revision} (hclosure : nodes.closure .descendants r = before ++ [x])
    (hline : nodes.OnLine x.id r.id) (c : RevisionId) : ¬ nodes.Names c x.id := by
  intro hcx
  have hlisted : x ∈ nodes.closure .descendants r := by simp [hclosure]
  have hx : x ∈ nodes.elements := closure_subset hr hlisted
  obtain ⟨q, hq, hqx, hcq, hqr⟩ := hdag.other_parent hr hclosure hline.descends hcx
  rcases hline.descendant hdag hqr with hon | hbelow
  · rcases ReflTransGen.cases_tail hon.descends with h | ⟨d, hxd, hdq⟩
    · exact hqx h
    · rw [hdag.unique_child hq (hon.target_unforked hq) hdq hcq] at hxd
      exact hdag.acyclic.not_descends hcx hxd
  · rcases ReflTransGen.cases_tail hbelow with h | ⟨d, hqd, hdx⟩
    · exact hqx h.symm
    · rw [hdag.unique_child hx (hline.source_unforked hx) hdx hcx] at hqd
      exact hdag.acyclic.not_descends hcq hqd

/-- An origin reaches its descendants and the ids above it whose descendants are all
unforked, and nothing else. -/
theorem Dag.mem_labelled (hdag : nodes.Dag) {r : Revision} (hr : r ∈ nodes.elements)
    {id : RevisionId} : id ∈ nodes.labelled r ↔ nodes.Carries r.id id := by
  have hstart : r ∈ nodes.closure .descendants r :=
    (mem_closure_iff hr).mpr ⟨hr, .refl⟩
  obtain ⟨before, x, hclosure⟩ : ∃ before x, nodes.closure .descendants r = before ++ [x] :=
    ⟨_, _, (List.dropLast_append_getLast (List.ne_nil_of_mem hstart)).symm⟩
  have hlast : (nodes.closureIds .descendants r).getLast? = some x.id := by
    simp [closureIds, hclosure]
  have hxr : nodes.Descends x.id r.id :=
    (hdag.linked.mem_descendants hr).mp (List.mem_map_of_mem (by simp [hclosure]))
  simp only [labelled, List.mem_append, hlast, hdag.linked.mem_descendants hr]
  constructor
  · rintro (hbelow | hmem)
    · exact .inl hbelow
    have hline := onLine_of_mem_line hmem
    rcases hline.ancestor hxr with hbelow | hrline
    · exact .inl hbelow
    -- the line leaves the descendants of the origin, so it starts at a childless one
    refine .inr ⟨hrline.descends, fun m hm hmid => ?_⟩
    have hback : nodes.OnLine x.id r.id := by
      rcases hline.descendant hdag hrline.descends with hon | hrx
      · exact hon
      · obtain ⟨r', hr', hid, hunforked⟩ := hrline.source
        rw [hdag.acyclic.antisymm hxr hrx, ← hid]
        exact .here hr' hunforked
    rcases hline.descendant hdag hmid with hon | hbelow
    · exact hon.target_unforked hm
    · rcases ReflTransGen.cases_tail hbelow with h | ⟨c, -, hc⟩
      · rw [h] at hline
        exact hline.source_unforked hm
      · exact absurd hc (hdag.last_childless hr hclosure hback c)
  · rintro (hbelow | ⟨habove, htail⟩)
    · exact .inl hbelow
    · have hid : id ∈ nodes.keys := habove.mem_right (id_mem_keys hr)
      have hline := htail.onLine hid (Descends.trans hxr habove)
      have hfuel := height_le_size nodes x.id
      exact .inr (mem_line_of_onLine hdag.acyclic hline (by omega) (by simp))

end Nodes

end MigrationHistory
