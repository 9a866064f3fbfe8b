import MigrationHistory.Proofs.Consistency
import MigrationHistory.Proofs.Rebuild

/-!
# Revisions that name themselves

A build links a revision that names itself as it links every other. An insertion does not: it
asks whether the revision is a head before it links it to itself, and hands a child on to the
successor of an overwritten revision also where that child was the overwritten revision itself.
Main statement: an insertion leaves the index exact at the id inserted, and alike with a build
of the same records, exactly when neither happens, and never disturbs another id.
-/
namespace MigrationHistory

namespace Nodes

variable {nodes other : Nodes} {id : RevisionId}

/-- The revision under the id is its own child exactly when it names itself. -/
def SelfExact (nodes : Nodes) (id : RevisionId) : Prop :=
  ∀ p ∈ nodes.elements, p.id = id → (id ∈ p.children ↔ id ∈ p.parents)

theorem SelfExact.congr (h : nodes.bare = other.bare) (hself : nodes.SelfExact id) :
    other.SelfExact id := by
  intro p hp hid
  obtain ⟨q, hq, halike⟩ := exists_alike h.symm hp
  rw [halike.children, halike.parents]
  exact hself q hq (halike.id ▸ hid)

theorem self_mem_namers_iff {p : Revision} (hp : p ∈ nodes.elements) :
    p.id ∈ nodes.namers p.id ↔ p.id ∈ p.parents := by
  rw [mem_namers]
  constructor
  · intro hnames
    obtain ⟨s, hs, hparent, hid⟩ := hnames
    rwa [nodes.eq_of_key_eq hs hp hid] at hparent
  · exact fun hparent => ⟨p, hp, hparent, rfl⟩

theorem selfExact_link (hchildless : ∀ r ∈ nodes.elements, r.children = []) (id : RevisionId) :
    nodes.link.SelfExact id := by
  intro p hp hid
  obtain ⟨s, hs, rfl⟩ := mem_link.mp hp
  rw [← hid, mem_children_adopt (hchildless s hs)]
  exact self_mem_namers_iff hs

theorem SameRecords.mem_namers_iff (h : nodes.SameRecords other) {c : RevisionId} :
    c ∈ nodes.namers id ↔ c ∈ other.namers id := by
  have hsub : ∀ {t u : Nodes}, t.SameRecords u → c ∈ t.namers id → c ∈ u.namers id := by
    intro t u hsame hc
    obtain ⟨r, hr, hparent, rfl⟩ := mem_namers.mp hc
    obtain ⟨s, hs, hid, hparents, -⟩ := hsame.exists_same hr
    exact mem_namers.mpr ⟨s, hs, hparents ▸ hparent, hid⟩
  exact ⟨hsub h, hsub h.symm⟩

end Nodes

namespace History

open Nodes

variable {h grown other : History} {r : Revision} {id : RevisionId}

/-- The index is right about an id: its children are the revisions that name it, and it is a head
when it has none. -/
structure ExactAt (h : History) (id : RevisionId) : Prop where
  children : ∀ p ∈ h.nodes.elements, p.id = id → h.ChildrenExact p
  head : id ∈ h.heads ↔ ∃ p ∈ h.nodes.elements, p.id = id ∧ p.children = []

/-- Both histories have the same children under an id, in some order, and agree whether it is a
head. -/
structure AlikeAt (h other : History) (id : RevisionId) : Prop where
  children : ∀ p ∈ h.nodes.elements, ∀ q ∈ other.nodes.elements, p.id = id → q.id = id →
    p.children.Perm q.children
  head : id ∈ h.heads ↔ id ∈ other.heads

/-- The revision under the id has itself as a child. -/
def OwnChild (h : History) (id : RevisionId) : Prop :=
  ∃ p ∈ h.nodes.elements, p.id = id ∧ id ∈ p.children

/-- What inserting `r` takes for granted: a child of a revision that names itself is known
beforehand, and a revision that is its own child goes on naming itself. -/
structure Steady (h : History) (r : Revision) : Prop where
  awaited : r.id ∈ r.parents →
    h.OwnChild r.id ∨ ∃ s ∈ h.nodes.elements, s.id ≠ r.id ∧ r.id ∈ s.parents
  renewed : h.OwnChild r.id → r.id ∈ r.parents

/-- With the other children in order, only the link of a revision to itself is in question. -/
theorem exactAt_iff (hlinked : h.nodes.Linked) :
    h.ExactAt id ↔
      h.nodes.SelfExact id ∧ (id ∈ h.heads ↔ id ∈ h.nodes.idsWhere Revision.isHead) := by
  have hhead : (∃ p ∈ h.nodes.elements, p.id = id ∧ p.children = []) ↔
      id ∈ h.nodes.idsWhere Revision.isHead := by
    simp only [mem_idsWhere, Revision.isHead, List.isEmpty_iff]
  constructor
  · intro hexact
    refine ⟨fun p hp hid => ?_, hexact.head.trans hhead⟩
    have hself := childrenExact_iff.mp (hexact.children p hp hid) p.id
    rwa [self_mem_namers_iff hp, hid] at hself
  · intro hexact
    refine ⟨fun p hp hid => childrenExact_iff.mpr fun c => ?_, hexact.2.trans hhead.symm⟩
    by_cases hc : c = p.id
    · rw [hc, self_mem_namers_iff hp, hid]
      exact hexact.1 p hp hid
    · exact hlinked.mem_children p hp c hc

section Insertion

theorem self_mem_children_successor (hfresh : r.children = []) :
    r.id ∈ (h.successor r).children ↔ h.OwnChild r.id := by
  unfold successor
  simp only [mem_foldl_addLast, List.mem_filter, ne_eq, not_true_eq_false, decide_false,
    Bool.false_eq_true, and_false, or_false]
  split
  · rename_i old hold
    obtain ⟨hmem, hid⟩ := Table.find?_eq_some_iff.mp hold
    constructor
    · exact fun hchild => ⟨old, hmem, hid, hchild⟩
    · intro hown
      obtain ⟨p, hp, hpid, hchild⟩ := hown
      rwa [h.nodes.eq_of_key_eq hp hmem (hpid.trans hid.symm)] at hchild
  · rename_i hnone
    have habsent := Table.find?_eq_none_iff.mp hnone
    constructor
    · exact fun hchild => absurd (hfresh ▸ hchild) List.not_mem_nil
    · intro hown
      obtain ⟨p, hp, hpid, -⟩ := hown
      exact absurd (mem_keys.mpr ⟨p, hp, hpid⟩) habsent

theorem isHead_successor_iff (hfresh : r.children = []) (hlinked : h.nodes.Linked) :
    (h.successor r).isHead ↔
      ¬ (h.OwnChild r.id ∨ ∃ s ∈ h.nodes.elements, s.id ≠ r.id ∧ r.id ∈ s.parents) := by
  rw [Revision.isHead, List.isEmpty_iff, List.eq_nil_iff_forall_not_mem]
  constructor
  · intro hnone hchild
    obtain hown | ⟨s, hs, hne, hparent⟩ := hchild
    · exact hnone r.id ((self_mem_children_successor hfresh).mpr hown)
    · exact hnone s.id ((mem_children_successor hfresh hlinked hne).mpr
        (mem_namers.mpr ⟨s, hs, hparent, rfl⟩))
  · intro hnone c hc
    by_cases hself : c = r.id
    · exact hnone (.inl ((self_mem_children_successor hfresh).mp (hself ▸ hc)))
    · obtain ⟨s, hs, hparent, rfl⟩ :=
        mem_namers.mp ((mem_children_successor hfresh hlinked hself).mp hc)
      exact hnone (.inr ⟨s, hs, hself, hparent⟩)

theorem linked_place (hfresh : r.children = []) (hlinked : h.nodes.Linked) :
    (h.place r).nodes.Linked :=
  (linked_placed hfresh hlinked).congr (bare_place_nodes h r).symm

theorem selfExact_place_self (hfresh : r.children = []) :
    (h.place r).nodes.SelfExact r.id ↔ (h.OwnChild r.id → r.id ∈ r.parents) := by
  have hentered : (h.placed r).SelfExact r.id ↔ (h.OwnChild r.id → r.id ∈ r.parents) := by
    have hnode : (r.id ∈ (linkedNode r (h.successor r)).children ↔
        r.id ∈ (linkedNode r (h.successor r)).parents) ↔
        (h.OwnChild r.id → r.id ∈ r.parents) := by
      rw [mem_children_linkedNode, self_mem_children_successor hfresh, linkedNode_parents,
        successor_parents, successor_id]
      simp
    constructor
    · exact fun hself => hnode.mp (hself _ (mem_placed.mpr (.inl rfl)) (linkedNode_id _))
    · intro hrenewed p hp hid
      obtain rfl | ⟨x, -, hne, rfl⟩ := mem_placed.mp hp
      · exact hnode.mpr hrenewed
      · exact absurd (by simpa using hid) hne
  rw [← hentered]
  exact ⟨.congr (bare_place_nodes h r), .congr (bare_place_nodes h r).symm⟩

/-- Placing a revision leaves the links of the others to themselves alone. -/
theorem selfExact_place_of_ne (hne : id ≠ r.id) (hself : h.nodes.SelfExact id) :
    (h.place r).nodes.SelfExact id := by
  refine SelfExact.congr (bare_place_nodes h r).symm fun p hp hid => ?_
  obtain rfl | ⟨x, hx, -, rfl⟩ := mem_placed.mp hp
  · exact absurd ((linkedNode_id _).symm.trans hid).symm hne
  · simp only [linkedNode_id, releasedNode_id] at hid
    rw [mem_children_linkedNode, mem_children_releasedNode, linkedNode_parents,
      releasedNode_parents]
    simp only [hne, false_and, not_false_eq_true, and_true, or_false]
    exact hself x hx hid

theorem links_of_insert {replacing : Bool} (hok : h.insert r replacing = .ok grown) :
    grown.nodes = (h.place r).nodes ∧ grown.heads = (h.place r).heads := by
  obtain ⟨-, rfl⟩ := insert_eq_ok hok
  exact ⟨rfl, rfl⟩

/-- Inserting a fresh revision leaves its id exact exactly when the insertion is steady. -/
theorem exactAt_insert_self (hlinked : h.nodes.Linked) (hfresh : r.children = [])
    {replacing : Bool} (hok : h.insert r replacing = .ok grown) :
    grown.ExactAt r.id ↔ h.Steady r := by
  obtain ⟨hnodes, hheads⟩ := links_of_insert hok
  have hplaced := linked_place hfresh hlinked
  rw [exactAt_iff (hnodes ▸ hplaced), hnodes, hheads, selfExact_place_self hfresh,
    self_mem_place_heads, self_childless_place, isHead_successor_iff hfresh hlinked]
  constructor
  · intro hexact
    refine ⟨fun hparent => ?_, hexact.1⟩
    by_contra hnone
    exact (hexact.2.mp hnone).1 hparent
  · intro hsteady
    refine ⟨hsteady.renewed, fun hnone => ⟨fun hparent => ?_, hnone⟩, And.right⟩
    exact hnone (hsteady.awaited hparent)

/-- Inserting a fresh revision leaves every other id as exact as it was. -/
theorem exactAt_insert_of_ne (hlinked : h.nodes.Linked) (hfresh : r.children = [])
    {replacing : Bool} (hok : h.insert r replacing = .ok grown) (hne : id ≠ r.id)
    (hexact : h.ExactAt id) : grown.ExactAt id := by
  obtain ⟨hnodes, hheads⟩ := links_of_insert hok
  have hplaced := linked_place hfresh hlinked
  rw [exactAt_iff hlinked] at hexact
  rw [exactAt_iff (hnodes ▸ hplaced), hnodes, hheads]
  exact ⟨selfExact_place_of_ne hne hexact.1, mem_place_heads_iff hne hexact.2⟩

end Insertion

/-- A build over fresh revisions is exact everywhere, whichever of them name themselves. -/
theorem exactAt_build {config : Config} {revisions : List Revision}
    (hfresh : ∀ r ∈ revisions, r.Fresh) (hbuild : build config revisions = .ok h)
    (id : RevisionId) : h.ExactAt id := by
  rw [exactAt_iff (Reached.build hfresh hbuild).linked]
  refine ⟨SelfExact.congr (built_of_build hbuild).bare.symm (selfExact_link ?_ id),
    (headsAgree_build hfresh hbuild).1 id⟩
  exact fun s hs => (hfresh s (mem_of_mem_ofRevisions hs)).children

/-- Where the children are the same, both histories have a childless revision or none has. -/
theorem exists_childless_iff (hsame : h.nodes.SameRecords other.nodes)
    (hperm : ∀ p ∈ h.nodes.elements, ∀ q ∈ other.nodes.elements, p.id = id → q.id = id →
      p.children.Perm q.children) :
    (∃ p ∈ h.nodes.elements, p.id = id ∧ p.children = []) ↔
      ∃ q ∈ other.nodes.elements, q.id = id ∧ q.children = [] := by
  constructor
  · intro hchildless
    obtain ⟨p, hp, hid, hnil⟩ := hchildless
    obtain ⟨q, hq, hqid, -⟩ := hsame.exists_same hp
    have hchildren := hperm p hp q hq hid (hqid.trans hid)
    exact ⟨q, hq, hqid.trans hid, (hnil ▸ hchildren).nil_eq.symm⟩
  · intro hchildless
    obtain ⟨q, hq, hid, hnil⟩ := hchildless
    obtain ⟨p, hp, hpid, -⟩ := hsame.symm.exists_same hq
    have hchildren := hperm p hp q hq (hpid.trans hid) hid
    exact ⟨p, hp, hpid.trans hid, (hnil ▸ hchildren).eq_nil⟩

/-- Of two histories with the same records, one of them exact at an id, the other is exact there
when both are alike. -/
theorem exactAt_iff_alikeAt (hlinked : h.nodes.Linked) (hother : other.nodes.Linked)
    (hsame : h.nodes.SameRecords other.nodes) (hexact : other.ExactAt id) :
    h.ExactAt id ↔ h.AlikeAt other id := by
  have hnamers : ∀ q ∈ other.nodes.elements, q.id = id →
      ∀ c, c ∈ q.children ↔ c ∈ h.nodes.namers id := by
    intro q hq hid c
    rw [childrenExact_iff.mp (hexact.children q hq hid), hid]
    exact hsame.symm.mem_namers_iff
  constructor
  · intro hh
    have hperm : ∀ p ∈ h.nodes.elements, ∀ q ∈ other.nodes.elements, p.id = id → q.id = id →
        p.children.Perm q.children := by
      intro p hp q hq hpid hqid
      rw [List.perm_ext_iff_of_nodup (hlinked.children_nodup p hp) (hother.children_nodup q hq)]
      intro c
      rw [hnamers q hq hqid, childrenExact_iff.mp (hh.children p hp hpid), hpid]
    exact ⟨hperm, hh.head.trans ((exists_childless_iff hsame hperm).trans hexact.head.symm)⟩
  · intro halike
    have hhead := exists_childless_iff hsame halike.children
    refine ⟨fun p hp hpid => childrenExact_iff.mpr fun c => ?_,
      halike.head.trans (hexact.head.trans hhead.symm)⟩
    obtain ⟨q, hq, hqid, -⟩ := hsame.exists_same hp
    rw [(halike.children p hp q hq hpid (hqid.trans hpid)).mem_iff,
      hnamers q hq (hqid.trans hpid), hpid]

/-- A run over fresh revisions that asks for steady insertions only. -/
inductive SteadyRun : History → Prop
  | build {config : Config} {revisions : List Revision} {h : History}
      (hfresh : ∀ r ∈ revisions, r.Fresh) (hbuild : build config revisions = .ok h) : SteadyRun h
  | attempt {h : History} {r : Revision} (replacing : Bool) (hrun : SteadyRun h) (hr : r.Fresh)
      (hsteady : h.Steady r) : SteadyRun (h.attempt r replacing)

theorem SteadyRun.reached (hrun : SteadyRun h) : Reached Revision.Fresh h := by
  induction hrun with
  | build hfresh hbuild => exact .build hfresh hbuild
  | attempt replacing _ hr _ ih => exact .attempt replacing ih hr

/-- What a steady run comes to is exact everywhere. -/
theorem SteadyRun.exactAt (hrun : SteadyRun h) (id : RevisionId) : h.ExactAt id := by
  induction hrun with
  | build hfresh hbuild => exact exactAt_build hfresh hbuild id
  | @attempt h r replacing hrun hr hsteady ih =>
    have hlinked := hrun.reached.linked
    unfold History.attempt
    split
    · rename_i grown hok
      by_cases hid : id = r.id
      · exact hid ▸ (exactAt_insert_self hlinked hr.children hok).mpr hsteady
      · exact exactAt_insert_of_ne hlinked hr.children hok hid ih
    · exact ih

/-- A fresh revision is inserted into a history that a run came to, with revisions that name
themselves or without. The id inserted is exact afterwards exactly when the insertion is steady,
and any other id as soon as it was so before. The records left can be built in any order; the build
is exact everywhere, and the insertion is exact at an id when it is alike with the build there. -/
theorem insert_exact_iff_steady (hreached : Reached Revision.Fresh h) (hr : r.Fresh)
    {replacing : Bool} (hok : h.insert r replacing = .ok grown) :
    (grown.ExactAt r.id ↔ h.Steady r) ∧
    (∀ id, id ≠ r.id → h.ExactAt id → grown.ExactAt id) ∧
    ∀ revisions : List Revision, revisions.Perm (grown.nodes.elements.map Revision.stripped) →
      ∃ other, build grown.config revisions = .ok other ∧
        ∀ id, other.ExactAt id ∧ (grown.ExactAt id ↔ grown.AlikeAt other id) := by
  have hlinked := hreached.linked
  refine ⟨exactAt_insert_self hlinked hr.children hok,
    fun id => exactAt_insert_of_ne hlinked hr.children hok, fun revisions hperm => ?_⟩
  have hgrown : Reached Revision.Fresh grown := by
    have hattempt : h.attempt r replacing = grown := by simp [attempt, hok]
    exact hattempt ▸ .attempt replacing hreached hr
  obtain ⟨other, hbuild, hsame⟩ := hgrown.exists_rebuild hperm
  have hfresh : ∀ s ∈ revisions, s.Fresh := by
    intro s hs
    obtain ⟨node, -, rfl⟩ := List.mem_map.mp (hperm.mem_iff.mp hs)
    exact ⟨_, _, _, rfl⟩
  have hother : Reached Revision.Fresh other := .build hfresh hbuild
  refine ⟨other, hbuild, fun id => ?_⟩
  have hexact := exactAt_build hfresh hbuild id
  exact ⟨hexact, exactAt_iff_alikeAt hgrown.linked hother.linked hsame hexact⟩

/-- A revision that another names is renewed and names itself: the build links both children too,
in another order. -/
theorem awaited_insertion_exact :
    ∃ h grown other, build Config.default
        (Sample.revisions [(Sample.a, [], []), (Sample.b, [Sample.a], [])]) = .ok h ∧
      h.insert (.ofParts Sample.a [Sample.a] []) true = .ok grown ∧
      build Config.default
        (Sample.revisions [(Sample.a, [Sample.a], []), (Sample.b, [Sample.a], [])]) = .ok other ∧
      grown.nodes.elements.map Revision.children = [[Sample.b, Sample.a], []] ∧
      other.nodes.elements.map Revision.children = [[Sample.a, Sample.b], []] ∧
      grown.ExactAt Sample.a ∧ grown.AlikeAt other Sample.a := by
  refine ⟨_, _, _, rfl, rfl, rfl, by decide, by decide, ?_⟩
  have hreached : Reached Revision.Fresh _ :=
    @Reached.build _ Config.default
      (Sample.revisions [(Sample.a, [], []), (Sample.b, [Sample.a], [])]) _
      (fun r hr => (Sample.revisions_admissible (by decide) r hr).fresh) rfl
  have hinsert := @insert_exact_iff_steady _ _ (.ofParts Sample.a [Sample.a] []) hreached
    ⟨_, _, _, rfl⟩ true rfl
  have hexact := hinsert.1.mpr
    ⟨fun _ => .inr ⟨.ofParts Sample.b [Sample.a] [], by decide, by decide, by decide⟩,
      fun _ => by decide⟩
  obtain ⟨other, hother, halike⟩ := hinsert.2.2
    (Sample.revisions [(Sample.a, [Sample.a], []), (Sample.b, [Sample.a], [])]) (by decide)
  obtain rfl := Except.ok.inj hother
  exact ⟨hexact, (halike Sample.a).2.mp hexact⟩

/-- A lone revision that is renewed and names itself stays a head though it is its own child, and
one that no longer names itself keeps itself as a child and is no head. -/
theorem self_link_mistaken :
    (∃ h grown other, build Config.default (Sample.revisions [(Sample.a, [], [])]) = .ok h ∧
      h.insert (.ofParts Sample.a [Sample.a] []) true = .ok grown ∧
      build Config.default (Sample.revisions [(Sample.a, [Sample.a], [])]) = .ok other ∧
      grown.nodes = other.nodes ∧ grown.nodes.namers Sample.a = [Sample.a] ∧
      grown.heads = [Sample.a] ∧ other.heads = []) ∧
    ∃ h grown other, build Config.default (Sample.revisions [(Sample.a, [Sample.a], [])]) = .ok h ∧
      h.insert (.ofParts Sample.a [] []) true = .ok grown ∧
      build Config.default (Sample.revisions [(Sample.a, [], [])]) = .ok other ∧
      grown.nodes.elements.map Revision.children = [[Sample.a]] ∧
      grown.nodes.namers Sample.a = [] ∧ grown.heads = [] ∧
      other.nodes.elements.map Revision.children = [[]] ∧ other.heads = [Sample.a] := by
  refine ⟨⟨_, _, _, rfl, rfl, rfl, by decide, by decide, by decide, by decide⟩, ?_⟩
  exact ⟨_, _, _, rfl, rfl, rfl, by decide, by decide, by decide, by decide, by decide⟩

end History

end MigrationHistory
