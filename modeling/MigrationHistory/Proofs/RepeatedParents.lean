import MigrationHistory.Proofs.Condensed

/-!
# Parents that are named twice

A revision keeps its list of parents as it is given, and a walk goes down to a parent as often as
the revision names it, unless the parent is a fork, which waits in the queue and is met once. Main
statement: between the same bounds the history whose revisions name each parent once lists the
same, without later repeats. The range itself repeats nothing exactly when every parent that it
lists, and that a revision of it names twice, is a fork within the range.
-/
namespace MigrationHistory

theorem Nodes.count_select {nodes : Nodes} {p : Revision} (hp : p ∈ nodes.elements)
    (ids : List RevisionId) : (nodes.select ids).count p = ids.count p.id := by
  rw [select, List.count_filterMap, List.count]
  refine List.countP_congr fun id _ => ?_
  simp only [beq_iff_eq, Table.find?_eq_some_iff, hp, true_and]
  exact eq_comm

/-- Two revisions on `a`, of which `b` names it twice. -/
def Sample.doubled : List Revision := revisions [(a, [], []), (b, [a, a], []), (c, [a], [])]

/-- A merge of the two that names `b` again. -/
def Sample.doubledMerge : List (Revision × Bool) := [(.ofParts d [b, c, b] [], false)]

namespace History

open Nodes

variable {h other : History} {upper lower : Selector} {options : RangeOptions}

section Forks

variable {w : Walk}

/-- Where the space of a walk branches at a listed revision, what is listed branches. -/
theorem branches_listed_iff (hlinked : h.nodes.Linked) (hw : w.Proper) (hfloor : w.Floored)
    (hnodes : w.nodes = h.nodes) {p : Revision} (hp : p ∈ w.listed w.passed) :
    h.Branches w.space p.id ↔ h.Branches ((w.listed w.passed).map Revision.id) p.id := by
  obtain ⟨hpassed, hunskipped⟩ := Walk.mem_listed.mp hp
  obtain ⟨hpmem, hpspace⟩ := hw.passed_mem hpassed
  have hlisted : ∀ c ∈ p.children, c ∈ w.space ↔ c ∈ (w.listed w.passed).map Revision.id := by
    intro c hc
    constructor
    · intro hspace
      obtain ⟨x, hx, rfl⟩ := mem_keys.mp (hw.space_mem c hspace)
      refine List.mem_map_of_mem (Walk.mem_listed.mpr ⟨hw.mem_passed_iff.mpr ⟨hx, hspace⟩, ?_⟩)
      -- a child that is passed through would name something in the space
      intro hskipped
      have hne : x.id ≠ p.id := fun heq => hunskipped (heq ▸ hskipped)
      have hnamer := (hlinked.mem_children p (hnodes ▸ hpmem) x.id hne).mp hc
      obtain ⟨y, hy, hnames, hid⟩ := mem_namers.mp hnamer
      obtain rfl := h.nodes.eq_of_key_eq hy (hnodes ▸ hx) hid
      exact hfloor y hx hskipped p.id hnames hpspace
    · intro hmem
      obtain ⟨x, hx, rfl⟩ := List.mem_map.mp hmem
      exact (hw.passed_mem (Walk.mem_listed.mp hx).1).2
  have hunique : ∀ r ∈ h.nodes.elements, r.id = p.id → r = p := fun r hr hid =>
    h.nodes.eq_of_key_eq hr (hnodes ▸ hpmem) hid
  constructor
  · rintro ⟨r, hr, hid, c, hc, d, hd, hcspace, hdspace, hne⟩
    obtain rfl := hunique r hr hid
    exact ⟨r, hr, rfl, c, hc, d, hd, (hlisted c hc).mp hcspace, (hlisted d hd).mp hdspace, hne⟩
  · rintro ⟨r, hr, hid, c, hc, d, hd, hclisted, hdlisted, hne⟩
    obtain rfl := hunique r hr hid
    exact ⟨r, hr, rfl, c, hc, d, hd, (hlisted c hc).mpr hclisted, (hlisted d hd).mpr hdlisted, hne⟩

/-- What is listed is named once on its arm, or else it is a fork. -/
theorem namesOnce_iff (hlinked : h.nodes.Linked) (hw : w.Proper) (hfloor : w.Floored)
    (hnodes : w.nodes = h.nodes) (hforks : w.forks = h.forksOf w.space) {c : Revision} :
    w.NamesOnce c ↔ ∀ p ∈ w.listed w.passed, 1 < c.parents.count p.id →
      h.Branches ((w.listed w.passed).map Revision.id) p.id := by
  have hcount : ∀ p ∈ w.nodes.select (w.onArm c),
      (w.nodes.select (w.onArm c)).count p = c.parents.count p.id := by
    intro p hp
    obtain ⟨hpmem, hponarm⟩ := mem_select.mp hp
    have htest := (List.mem_filter.mp hponarm).2
    rw [count_select hpmem]
    exact List.count_filter htest
  have hfork : ∀ p ∈ w.listed w.passed, p.id ∈ w.forks ↔
      h.Branches ((w.listed w.passed).map Revision.id) p.id := by
    intro p hp
    rw [hforks, mem_forksOf_iff_branches hlinked, branches_listed_iff hlinked hw hfloor hnodes hp]
    exact and_iff_right (hw.passed_mem (Walk.mem_listed.mp hp).1).2
  constructor
  · intro honce p hp hmany
    rw [← hfork p hp]
    by_contra hnot
    obtain ⟨hpassed, hunskipped⟩ := Walk.mem_listed.mp hp
    obtain ⟨hpmem, hpspace⟩ := hw.passed_mem hpassed
    have hnamed : p.id ∈ c.parents := List.count_pos_iff.mp (by omega)
    have hponarm : p ∈ w.nodes.select (w.onArm c) :=
      mem_select.mpr ⟨hpmem, Walk.mem_onArm.mpr ⟨hnamed, hpspace, hnot⟩⟩
    have hone := honce p hponarm hunskipped
    rw [hcount p hponarm] at hone
    omega
  · intro hbranches p hp hunskipped
    obtain ⟨hpmem, hponarm⟩ := mem_select.mp hp
    obtain ⟨hnamed, hpspace, hnot⟩ := Walk.mem_onArm.mp hponarm
    have hlisted : p ∈ w.listed w.passed :=
      Walk.mem_listed.mpr ⟨hw.mem_passed_iff.mpr ⟨hpmem, hpspace⟩, hunskipped⟩
    have hpositive := List.count_pos_iff.mpr hnamed
    have hfew : ¬ 1 < c.parents.count p.id := fun hmany =>
      hnot ((hfork p hlisted).mpr (hbranches p hlisted hmany))
    rw [hcount p hp]
    omega

end Forks

/-- Both histories list a range or neither does. The second one lists what the first one does,
without later repeats; the first repeats nothing exactly when what it lists, and names twice, is
a fork within what it lists. -/
structure ListsCondensed (h other : History) (upper lower : Selector) (options : RangeOptions) :
    Prop where
  succeeds_iff : (∃ range, h.range upper lower options = .ok range) ↔
    ∃ range, other.range upper lower options = .ok range
  lists : ∀ range, h.range upper lower options = .ok range →
    ∃ listed range' once, range.Emits listed ∧ other.range upper lower options = .ok range' ∧
      range'.Emits once ∧ once.map Revision.id = distinct (listed.map Revision.id) ∧
      ((listed.map Revision.id).Nodup ↔ ∀ c ∈ listed, ∀ p ∈ listed, 1 < c.parents.count p.id →
        h.Branches (listed.map Revision.id) p.id)

theorem Condenses.listsCondensed (hc : h.Condenses other) (hlinked : h.nodes.Linked)
    (hlinked' : other.nodes.Linked) (hacyclic : h.nodes.Acyclic) (hupper : upper.offset? = none)
    (hlower : lower.offset? = none) {uppers : List Revision}
    (huppers : h.revisions upper = .ok uppers) (hdistinct : (uppers.map Revision.id).Nodup) :
    h.ListsCondensed other upper lower options := by
  have hm := hc.mirrors hlinked hlinked'
  have hacyclic' : other.nodes.Acyclic := by
    unfold Acyclic Names
    rw [hm.edges]
    exact hacyclic
  constructor
  case succeeds_iff =>
    exact ⟨hm.range_succeeds hupper hlower, hm.symm.range_succeeds hupper hlower⟩
  case lists =>
    intro range hok
    rw [range_absolute hupper hlower] at hok ⊢
    obtain ⟨w, hwalk, rfl⟩ := map_eq_ok.mp hok
    obtain ⟨w', hwalk', hnodes, hnodes', hparallel⟩ := hm.absoluteWalk hwalk
    have hw := absoluteWalk_proper hlinked hacyclic hwalk
    have hw' := absoluteWalk_proper hlinked' hacyclic' hwalk'
    have hfloor := absoluteWalk_floored hlinked hacyclic hwalk
    obtain ⟨_, found, _, -, hfound, -, -, -, -, hbetween⟩ := absoluteWalk_eq_ok_iff.mp hwalk
    obtain rfl := Except.ok.inj (huppers.symm.trans hfound)
    have hqueue : w.queue.Nodup := by
      rw [hbetween]
      exact hdistinct.of_map.sublist List.filter_sublist
    have hforks : w.forks = h.forksOf w.space := by rw [hbetween, walkBetween]
    have hthins : w.Thins w' := by
      refine ⟨fun id => hparallel.keys ▸ Iff.rfl, ?_, hparallel.space, hparallel.forks⟩
      rw [hnodes, hnodes']
      exact fun r hr s hs hid => hc.parents hr hs hid
    refine ⟨w.listed w.passed, .walk w', w'.listed w'.passed, hw.grounded.emits, ?_,
      hw'.grounded.emits, ?_, ?_⟩
    · rw [hwalk']
      rfl
    · exact (hthins.inStep hw hw' hparallel.queue).listed hw hqueue hparallel.skipped
    · rw [hw.map_id_listed_nodup_iff, hw.listed_nodup_iff hfloor hqueue]
      exact forall_congr' fun c => forall_congr' fun _ =>
        namesOnce_iff hlinked hw hfloor hnodes hforks

/-- A revision may name a parent twice. A run over the same revisions with each parent named once
comes to a history that lists every range between the same bounds without later repeats. -/
theorem range_of_repeated_parents {config : Config} {start : List Revision} {first : History}
    {requests : List (Revision × Bool)} {uppers : List Revision} (hstart : ∀ r ∈ start, r.Fresh)
    (hbuild : build config start = .ok first)
    (hrequests : ∀ request ∈ requests, request.1.Fresh)
    (hacyclic : (first.serve requests).nodes.Acyclic) (hupper : upper.offset? = none)
    (hlower : lower.offset? = none) (huppers : (first.serve requests).revisions upper = .ok uppers)
    (hdistinct : (uppers.map Revision.id).Nodup) :
    ∃ first', build config (start.map Revision.condensed) = .ok first' ∧
      (first.serve requests).Condenses
        (first'.serve (requests.map fun request => (request.1.condensed, request.2))) ∧
      (first.serve requests).ListsCondensed
        (first'.serve (requests.map fun request => (request.1.condensed, request.2)))
        upper lower options := by
  obtain ⟨first', hbuild', hc⟩ := run_condensed hbuild requests
  have hreached : Reached Revision.Fresh (first.serve requests) :=
    (Reached.build hstart hbuild).serve hrequests
  have hreached' : Reached Revision.Fresh
      (first'.serve (requests.map fun request => (request.1.condensed, request.2))) := by
    refine (Reached.build ?_ hbuild').serve ?_
    · exact List.forall_mem_map.mpr fun r hr => (hstart r hr).condensed
    · exact List.forall_mem_map.mpr fun request hrequest => (hrequests request hrequest).condensed
  exact ⟨first', hbuild', hc, hc.listsCondensed hreached.linked hreached'.linked hacyclic hupper
    hlower huppers hdistinct⟩

/-- The merge names `b` twice, and its arm is walked again; `b` names the fork twice, which is
met once. -/
theorem repeated_parents_on_diamond :
    ∃ first first', History.build Config.default Sample.doubled = .ok first ∧
      History.build Config.default (Sample.doubled.map Revision.condensed) = .ok first' ∧
      (first.serve Sample.doubledMerge).nodes.Acyclic ∧
      (Selector.one "heads").offset? = none ∧ (Selector.one "base").offset? = none ∧
      ∃ merge range listed range' once,
        (first.serve Sample.doubledMerge).revisions (.one "heads") = .ok [merge] ∧
        (first.serve Sample.doubledMerge).range (.one "heads") (.one "base") ⟨true, false⟩ =
          .ok range ∧
        range.Emits listed ∧
        listed.map Revision.id = [Sample.d, Sample.b, Sample.c, Sample.b, Sample.a] ∧
        ¬ (listed.map Revision.id).Nodup ∧
        (first'.serve (Sample.doubledMerge.map fun request =>
            (request.1.condensed, request.2))).range (.one "heads") (.one "base") ⟨true, false⟩ =
          .ok range' ∧
        range'.Emits once ∧
        once.map Revision.id = [Sample.d, Sample.b, Sample.c, Sample.a] := by
  have hstart : ∀ r ∈ Sample.doubled, r.Admissible := Sample.revisions_admissible (by decide)
  have hrequests : ∀ request ∈ Sample.doubledMerge, request.1.Fresh := by
    simp only [Sample.doubledMerge, List.forall_mem_singleton]
    exact ⟨_, _, _, rfl⟩
  have hrank : ∀ r ∈ (History.serve (assembled Config.default Sample.doubled Table.empty)
      Sample.doubledMerge).nodes.elements, ∀ p ∈ r.parents,
      p ∈ (History.serve (assembled Config.default Sample.doubled Table.empty)
        Sample.doubledMerge).nodes.keys →
      [Sample.a, Sample.b, Sample.c].idxOf p < [Sample.a, Sample.b, Sample.c].idxOf r.id := by
    decide
  have hacyclic := acyclic_of_rank _ hrank
  obtain ⟨first', hbuild', -, hlists⟩ := @range_of_repeated_parents (.one "heads") (.one "base")
    ⟨true, false⟩ Config.default Sample.doubled
    (assembled Config.default Sample.doubled Table.empty) Sample.doubledMerge _
    (fun r hr => (hstart r hr).fresh) rfl hrequests hacyclic (by decide) (by decide) rfl
    (List.nodup_singleton _)
  obtain ⟨listed, range', once, hemits, hrange', hemits', hids, hiff⟩ := hlists.lists _ rfl
  have hfirst : Reached Revision.Fresh _ :=
    @Reached.build _ Config.default Sample.doubled _ (fun r hr => (hstart r hr).fresh) rfl
  have hwalk := @absoluteWalk_proper _ (hfirst.serve hrequests).linked hacyclic (.one "heads")
    (.one "base") ⟨true, false⟩ _ rfl
  obtain rfl := hemits.eq hwalk.grounded.emits
  refine ⟨_, first', rfl, hbuild', hacyclic, by decide, by decide,
    ⟨Sample.d, [Sample.b, Sample.c, Sample.b], [], [], []⟩, _, _, range', once, rfl, rfl, hemits, rfl,
    by decide, hrange', hemits', hids.trans (by decide)⟩

/-- A parent that is named twice is listed twice, where naming it once lists it once. -/
theorem parent_listed_again :
    ∃ h other range range' listed once, Reached Revision.Fresh h ∧ h.nodes.Acyclic ∧
      History.build Config.default
        (Sample.revisions [(Sample.a, [], []), (Sample.b, [Sample.a, Sample.a], [])]) = .ok h ∧
      History.build Config.default
        (Sample.revisions [(Sample.a, [], []), (Sample.b, [Sample.a], [])]) = .ok other ∧
      (Selector.one "heads").offset? = none ∧ (Selector.one "base").offset? = none ∧
      (∃ uppers, h.revisions (.one "heads") = .ok uppers ∧ (uppers.map Revision.id).Nodup) ∧
      h.range (.one "heads") (.one "base") ⟨true, false⟩ = .ok range ∧ range.Emits listed ∧
      listed.map Revision.id = [Sample.b, Sample.a, Sample.a] ∧
      ¬ (listed.map Revision.id).Nodup ∧
      other.range (.one "heads") (.one "base") ⟨true, false⟩ = .ok range' ∧ range'.Emits once ∧
      once.map Revision.id = [Sample.b, Sample.a] := by
  have hbuilt : Reached Revision.Admissible _ :=
    @Reached.build _ Config.default
      (Sample.revisions [(Sample.a, [], []), (Sample.b, [Sample.a, Sample.a], [])]) _
      (Sample.revisions_admissible (by decide)) rfl
  have hother : Reached Revision.Admissible _ :=
    @Reached.build _ Config.default
      (Sample.revisions [(Sample.a, [], []), (Sample.b, [Sample.a], [])]) _
      (Sample.revisions_admissible (by decide)) rfl
  have hrank : ∀ parents ∈ [[Sample.a, Sample.a], [Sample.a]], (ofRevisions (Sample.revisions
      [(Sample.a, [], []), (Sample.b, parents, [])])).link.relabel.Acyclic := by
    intro parents hparents
    refine acyclic_of_rank (fun id => [Sample.a].idxOf id) ?_
    revert parents
    decide
  have hacyclic := hrank _ (List.mem_cons_self)
  have hwalk := @absoluteWalk_proper _ hbuilt.fresh.linked hacyclic (.one "heads") (.one "base")
    ⟨true, false⟩ _ rfl
  have honce := @absoluteWalk_proper _ hother.fresh.linked (hrank [Sample.a] (by simp))
    (.one "heads") (.one "base") ⟨true, false⟩ _ rfl
  exact ⟨_, _, _, _, _, _, hbuilt.fresh, hacyclic, rfl, rfl, by decide, by decide,
    ⟨_, rfl, List.nodup_singleton _⟩, rfl, hwalk.grounded.emits, rfl, by decide, rfl,
    honce.grounded.emits, rfl⟩

end History

end MigrationHistory
