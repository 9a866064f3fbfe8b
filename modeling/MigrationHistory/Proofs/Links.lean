import MigrationHistory.Proofs.Closure
import MigrationHistory.Proofs.Run

/-!
# Children are the namers

The children recorded under an id are kept by separate rules: a build collects the namers of
every revision, an insertion unlinks abandoned parents, hands the children of an overwritten
revision to its successor, adds the revisions that waited for it and links it to the parents
it names. Main statement: in every run over fresh revisions the children of a revision are
the revisions that name it, up to a revision that names itself.
-/
namespace MigrationHistory

namespace Nodes

variable {nodes other : Nodes}

/-- The children of every revision are its namers, itself aside. -/
structure Linked (nodes : Nodes) : Prop where
  mem_children : ∀ p ∈ nodes.elements, ∀ c, c ≠ p.id → (c ∈ p.children ↔ c ∈ nodes.namers p.id)
  children_nodup : ∀ p ∈ nodes.elements, p.children.Nodup

/-- No revision names itself or is its own child. -/
def LoopFree (nodes : Nodes) : Prop :=
  ∀ r ∈ nodes.elements, r.id ∉ r.parents ∧ r.id ∉ r.children

theorem Linked.congr (h : nodes.bare = other.bare) (hlinked : nodes.Linked) : other.Linked where
  mem_children := by
    intro p hp c hc
    obtain ⟨q, hq, halike⟩ := exists_alike h.symm hp
    rw [halike.children, ← namers_congr h, halike.id]
    exact hlinked.mem_children q hq c (halike.id ▸ hc)
  children_nodup := by
    intro p hp
    obtain ⟨q, hq, halike⟩ := exists_alike h.symm hp
    rw [halike.children]
    exact hlinked.children_nodup q hq

theorem LoopFree.congr (h : nodes.bare = other.bare) (hfree : nodes.LoopFree) :
    other.LoopFree := by
  intro r hr
  obtain ⟨s, hs, halike⟩ := exists_alike h.symm hr
  rw [halike.id, halike.parents, halike.children]
  exact hfree s hs

/-- Without loops the children are exactly the namers. -/
theorem Linked.mem_children_iff (hlinked : nodes.Linked) (hfree : nodes.LoopFree)
    {p : Revision} (hp : p ∈ nodes.elements) {c : RevisionId} :
    c ∈ p.children ↔ c ∈ nodes.namers p.id := by
  by_cases hc : c = p.id
  · subst hc
    constructor
    · exact fun h => absurd h (hfree p hp).2
    · intro h
      obtain ⟨r, hr, hparent, hid⟩ := mem_namers.mp h
      rw [nodes.eq_of_key_eq hr hp hid] at hparent
      exact absurd hparent (hfree p hp).1
  · exact hlinked.mem_children p hp c hc

theorem Linked.isHead_iff (hlinked : nodes.Linked) (hfree : nodes.LoopFree)
    {p : Revision} (hp : p ∈ nodes.elements) : p.isHead ↔ nodes.namers p.id = [] := by
  rw [Revision.isHead, List.isEmpty_iff, List.eq_nil_iff_forall_not_mem,
    List.eq_nil_iff_forall_not_mem]
  exact forall_congr' fun c => not_congr (hlinked.mem_children_iff hfree hp)

/-- A child step undoes a parent step, and leads to another id only so. -/
theorem Linked.edge_children (hlinked : nodes.Linked) {p c : RevisionId} (hne : c ≠ p) :
    nodes.Edge .descendants p c ↔ nodes.Names c p := by
  constructor
  · rintro ⟨-, r, hr, rfl, hmem⟩
    exact (names_iff_mem_namers (id_mem_keys hr)).mpr ((hlinked.mem_children r hr c hne).mp hmem)
  · intro hnames
    obtain ⟨r, hr, rfl⟩ := mem_keys.mp hnames.1
    refine ⟨hnames.source_mem, r, hr, rfl, ?_⟩
    exact (hlinked.mem_children r hr c hne).mpr ((names_iff_mem_namers hnames.1).mp hnames)

theorem Linked.reaches_iff (hlinked : nodes.Linked) {a b : RevisionId} :
    Relation.ReflTransGen (nodes.Edge .descendants) a b ↔ nodes.Descends b a := by
  constructor
  · intro h
    induction h with
    | refl => exact Descends.refl _
    | @tail m c _ hedge ih =>
      by_cases hne : c = m
      · exact hne ▸ ih
      · exact .head ((hlinked.edge_children hne).mp hedge) ih
  · intro h
    induction h using Relation.ReflTransGen.head_induction_on with
    | refl => exact .refl
    | @head c m hnames _ ih =>
      by_cases hne : c = m
      · exact hne ▸ ih
      · exact ih.tail ((hlinked.edge_children hne).mpr hnames)

/-- The descendants that a closure lists are those that descend from its start. -/
theorem Linked.mem_descendants (hlinked : nodes.Linked) {start : Revision}
    (hstart : start ∈ nodes.elements) {id : RevisionId} :
    id ∈ nodes.closureIds .descendants start ↔ nodes.Descends id start.id := by
  rw [mem_closureIds hstart, hlinked.reaches_iff]

theorem mem_idsWhere {p : Revision → Bool} {id : RevisionId} :
    id ∈ nodes.idsWhere p ↔ ∃ r ∈ nodes.elements, r.id = id ∧ p r := by
  simp only [idsWhere, List.mem_map, List.mem_filter]
  constructor
  · rintro ⟨r, ⟨hr, hp⟩, hid⟩
    exact ⟨r, hr, hid, hp⟩
  · rintro ⟨r, hr, hid, hp⟩
    exact ⟨r, ⟨hr, hp⟩, hid⟩

theorem idsWhere_nodup (p : Revision → Bool) : (nodes.idsWhere p).Nodup :=
  nodes.distinct_keys.sublist (List.filter_sublist.map Revision.id)

theorem namers_update {f : Revision → Revision} {keeps : ∀ r : Revision, (f r).id = r.id}
    (hf : ∀ r p, p ∈ (f r).parents ↔ p ∈ r.parents) (id : RevisionId) :
    namers (nodes.update f keeps) id = nodes.namers id := by
  simp only [namers, Table.update, List.filter_map, List.map_map]
  have hid : Revision.id ∘ f = Revision.id := funext keeps
  have htest : (fun node : Revision => decide (id ∈ node.parents)) ∘ f =
      fun node => decide (id ∈ node.parents) := by
    funext r
    simp [hf]
  rw [hid, htest]

/-- The revisions of a built table are among those given. -/
theorem mem_of_mem_ofRevisions {revisions : List Revision} {r : Revision}
    (hr : r ∈ (ofRevisions revisions).elements) : r ∈ revisions := by
  have hfold : ∀ (rs : List Revision) (t : Nodes), r ∈ (rs.foldl Table.enter t).elements →
      r ∈ t.elements ∨ r ∈ rs := by
    intro rs
    induction rs with
    | nil => exact fun t h => .inl h
    | cons s rest ih =>
      intro t h
      rcases ih _ h with hmem | hmem
      · rcases Table.mem_enter.mp hmem with rfl | ⟨hold, -⟩
        · exact .inr List.mem_cons_self
        · exact .inl hold
      · exact .inr (List.mem_cons_of_mem _ hmem)
  exact (hfold revisions Table.empty hr).resolve_left List.not_mem_nil

theorem mem_link {r : Revision} :
    r ∈ nodes.link.elements ↔ ∃ s ∈ nodes.elements, nodes.adopt s = r := List.mem_map

theorem namers_link (id : RevisionId) : nodes.link.namers id = nodes.namers id :=
  namers_update (f := nodes.adopt) (fun _ _ => Iff.rfl) id

/-- Linking childless revisions makes the namers of each its children. -/
theorem mem_children_adopt {s : Revision} (hs : s.children = []) {c : RevisionId} :
    c ∈ (nodes.adopt s).children ↔ c ∈ nodes.namers s.id := by
  simp [adopt, hs]

theorem isHead_adopt {s : Revision} (hchildless : s.children = []) :
    (nodes.adopt s).isHead = (nodes.namers s.id).isEmpty := by
  rw [Bool.eq_iff_iff, Revision.isHead, List.isEmpty_iff, List.isEmpty_iff,
    List.eq_nil_iff_forall_not_mem, List.eq_nil_iff_forall_not_mem]
  exact forall_congr' fun c => not_congr (mem_children_adopt hchildless)

theorem linked_link (hchildless : ∀ r ∈ nodes.elements, r.children = []) : nodes.link.Linked where
  mem_children := by
    intro p hp c _
    obtain ⟨s, hs, rfl⟩ := mem_link.mp hp
    rw [mem_children_adopt (hchildless s hs), namers_link]
    rfl
  children_nodup := by
    intro p hp
    obtain ⟨s, hs, rfl⟩ := mem_link.mp hp
    apply nodup_foldl_addLast
    rw [hchildless s hs]
    exact List.nodup_nil

theorem loopFree_link (hchildless : ∀ r ∈ nodes.elements, r.children = [])
    (hparents : ∀ r ∈ nodes.elements, r.id ∉ r.parents) : nodes.link.LoopFree := by
  intro r hr
  obtain ⟨s, hs, rfl⟩ := mem_link.mp hr
  refine ⟨hparents s hs, fun hmem => ?_⟩
  obtain ⟨t, ht, hparent, hid⟩ := mem_namers.mp ((mem_children_adopt (hchildless s hs)).mp hmem)
  rw [nodes.eq_of_key_eq ht hs hid] at hparent
  exact hparents s hs hparent

end Nodes

end MigrationHistory
