import MigrationHistory.Proofs.RangeExtent

/-!
# Ranges with an implicit base

With an implicit base a range does not stop at what its lower bound requests: it also goes down
to the roots of the branches that the request does not cover. What it leaves out is what lies
properly below the request. Main statement: between bounds that are kept apart such a range is
never refused for overlapping ends, and it lists the ancestors of its upper bounds without the
proper ancestors of the requested revisions.
-/
namespace MigrationHistory

namespace History

open Nodes Relation

variable {h : History} {uppers requested : List Revision} {id a b : RevisionId}

/-- One of the revisions is `id` or descends from it. -/
def Under (h : History) (revisions : List Revision) (id : RevisionId) : Prop :=
  ∃ r ∈ revisions, h.nodes.Descends r.id id

/-- One of the revisions properly descends from `id`. -/
def StrictlyUnder (h : History) (revisions : List Revision) (id : RevisionId) : Prop :=
  ∃ r ∈ revisions, TransGen h.nodes.Names r.id id

/-- A requested revision is `id`, an ancestor of it or a descendant. -/
def Covered (h : History) (requested : List Revision) (id : RevisionId) : Prop :=
  ∃ r ∈ requested, h.nodes.Descends r.id id ∨ h.nodes.Descends id r.id

/-- What stands under an upper bound and the request does not cover. -/
def Remote (h : History) (uppers requested : List Revision) (id : RevisionId) : Prop :=
  h.Under uppers id ∧ ¬ h.Covered requested id

theorem apart_singleton (id : RevisionId) : h.Apart (· ∈ [id]) := by
  intro a b ha hb _
  rw [List.mem_singleton.mp ha, List.mem_singleton.mp hb]

section Roots

/-- Between two remote ids there are remote ids only. -/
theorem Remote.between (ha : h.Remote uppers requested a) (hb : h.Remote uppers requested b)
    (hac : h.nodes.Descends a id) (hcb : h.nodes.Descends id b) :
    h.Remote uppers requested id := by
  obtain ⟨⟨u, hu, hua⟩, hafree⟩ := ha
  refine ⟨⟨u, hu, hua.trans hac⟩, ?_⟩
  rintro ⟨r, hr, hdescends | hdescends⟩
  · exact hb.2 ⟨r, hr, .inl (hdescends.trans hcb)⟩
  · exact hafree ⟨r, hr, .inr (hac.trans hdescends)⟩

variable (hlinked : h.nodes.Linked) (huppers : ∀ r ∈ uppers, r ∈ h.nodes.elements)
  (hrequested : ∀ r ∈ requested, r ∈ h.nodes.elements)
include hlinked huppers hrequested

/-- The roots added to a request are the remote revisions without a remote parent. -/
theorem mem_uncoveredRoots {x : Revision} :
    x ∈ h.uncoveredRoots uppers requested ↔ x ∈ h.nodes.elements ∧
      h.Remote uppers requested x.id ∧ ∀ p ∈ x.parents, ¬ h.Remote uppers requested p := by
  have hcovered : ∀ id, id ∈ (h.nodes.closures .ancestors requested ++
      h.nodes.closures .descendants requested).map Revision.id ↔ h.Covered requested id := by
    intro id
    rw [List.map_append, List.mem_append, mem_map_closures, mem_map_closures, ← exists_or]
    refine exists_congr fun r => ?_
    rw [← and_or_left]
    refine and_congr_right fun hr => ?_
    rw [mem_ancestors (hrequested r hr), hlinked.mem_descendants (hrequested r hr)]
  have hremote : ∀ id, id ∈ distinct (((h.nodes.closures .ancestors uppers).map Revision.id).filter
      fun id => id ∉ (h.nodes.closures .ancestors requested ++
        h.nodes.closures .descendants requested).map Revision.id) ↔
      h.Remote uppers requested id := by
    intro id
    rw [mem_distinct, List.mem_filter, decide_eq_true_eq, hcovered, mem_map_closures]
    refine and_congr_left fun _ => exists_congr fun u => and_congr_right fun hu => ?_
    exact mem_ancestors (huppers u hu)
  unfold uncoveredRoots
  dsimp only
  simp only [List.mem_filter, mem_select, hremote, Bool.not_eq_true', List.any_eq_false,
    decide_eq_true_eq, and_assoc]

/-- Roots are apart from each other and from the request. -/
theorem apart_uncoveredRoots (hapart : h.Apart (· ∈ requested.map Revision.id)) :
    h.Apart (· ∈ (h.uncoveredRoots uppers requested ++ requested).map Revision.id) := by
  intro a b ha hb hdescends
  rw [List.map_append, List.mem_append] at ha hb
  rcases ha with ha | ha
  · obtain ⟨x, hx, rfl⟩ := List.mem_map.mp ha
    obtain ⟨hxmem, hxremote, hxroot⟩ := (mem_uncoveredRoots hlinked huppers hrequested).mp hx
    rcases hb with hb | hb
    · obtain ⟨y, hy, rfl⟩ := List.mem_map.mp hb
      obtain ⟨-, hyremote, -⟩ := (mem_uncoveredRoots hlinked huppers hrequested).mp hy
      rcases ReflTransGen.cases_head hdescends with heq | ⟨p, hnames, hbelow⟩
      · exact heq
      · refine absurd (hxremote.between hyremote (.of_names hnames) hbelow) (hxroot p ?_)
        exact ((names_iff hxmem).mp hnames).2
    · obtain ⟨r, hr, rfl⟩ := List.mem_map.mp hb
      exact absurd ⟨r, hr, .inr hdescends⟩ hxremote.2
  · rcases hb with hb | hb
    · obtain ⟨y, hy, rfl⟩ := List.mem_map.mp hb
      obtain ⟨-, hyremote, -⟩ := (mem_uncoveredRoots hlinked huppers hrequested).mp hy
      obtain ⟨r, hr, rfl⟩ := List.mem_map.mp ha
      exact absurd ⟨r, hr, .inl hdescends⟩ hyremote.2
    · exact hapart a b ha hb hdescends

/-- Between the upper bounds and the roots with the request lies what stands under an upper
bound and not properly under the request. -/
theorem between_uncoveredRoots_iff (hacyclic : h.nodes.Acyclic)
    (hapart : h.Apart (· ∈ requested.map Revision.id)) :
    h.Between uppers (· ∈ (h.uncoveredRoots uppers requested ++ requested).map Revision.id) id ↔
      h.Under uppers id ∧ ¬ h.StrictlyUnder requested id := by
  refine and_congr_right fun hunder => ?_
  constructor
  · rintro ⟨l, hl, hdescends⟩ ⟨r, hr, hbelow⟩
    have hrl : TransGen h.nodes.Names r.id l := TransGen.trans_left hbelow hdescends
    rw [List.map_append, List.mem_append] at hl
    rcases hl with hl | hl
    · obtain ⟨x, hx, rfl⟩ := List.mem_map.mp hl
      obtain ⟨-, hremote, -⟩ := (mem_uncoveredRoots hlinked huppers hrequested).mp hx
      exact hremote.2 ⟨r, hr, .inl hrl.to_reflTransGen⟩
    · have heq := hapart r.id l (List.mem_map_of_mem hr) hl hrl.to_reflTransGen
      exact hacyclic l (heq ▸ hrl)
  · intro hclear
    by_cases hcovered : h.Covered requested id
    · obtain ⟨r, hr, hdescends⟩ := hcovered
      refine ⟨r.id, List.mem_map_of_mem (List.mem_append_right _ hr), ?_⟩
      rcases hdescends with hdescends | hdescends
      · -- an ancestor of the request that is no proper one is requested itself
        rcases ReflTransGen.cases_tail hdescends with rfl | ⟨c, hrc, hnames⟩
        · exact .refl _
        · exact absurd ⟨r, hr, TransGen.tail' hrc hnames⟩ hclear
      · exact hdescends
    · obtain ⟨root, hroot, hdescends, hnone⟩ :=
        hacyclic.exists_lowest (P := h.Remote uppers requested) ⟨hunder, hcovered⟩
      have hkey : root ∈ h.nodes.keys := by
        obtain ⟨u, hu, hur⟩ := hroot.1
        exact hur.mem_right (id_mem_keys (huppers u hu))
      obtain ⟨x, hx, rfl⟩ := mem_keys.mp hkey
      refine ⟨x.id, List.mem_map_of_mem (List.mem_append_left _ ?_), hdescends⟩
      refine (mem_uncoveredRoots hlinked huppers hrequested).mpr ⟨hx, hroot, fun p hp hremote => ?_⟩
      obtain ⟨u, hu, hup⟩ := hremote.1
      have hpkey := hup.mem_right (id_mem_keys (huppers u hu))
      exact hnone p ((names_iff hx).mpr ⟨hpkey, hp⟩) hremote

end Roots

/-- With an implicit base and bounds that are kept apart, a range is never refused for
overlapping ends, fails when all that stands under an upper bound is properly under the request,
and otherwise lists what is not, each revision once. -/
theorem implicit_base_extent (hreached : Reached Revision.Admissible h)
    (hacyclic : h.nodes.Acyclic) (hparents : ∀ r ∈ h.nodes.elements, r.parents.Nodup)
    {upper lower : Selector} {inclusive : Bool} (hupper : upper.offset? = none)
    (hlower : lower.offset? = none) (hbranch : lower.branchBase? = none)
    (huppers : h.revisions upper = .ok uppers) (hdistinct : (uppers.map Revision.id).Nodup)
    (hrequested : h.revisions lower = .ok requested) (hnonempty : requested ≠ [])
    (hupart : h.Apart (· ∈ uppers.map Revision.id))
    (hlapart : h.Apart (· ∈ requested.map Revision.id)) :
    (∀ text, h.range upper lower ⟨inclusive, true⟩ ≠ .error (.overlapping text)) ∧
    (h.range upper lower ⟨inclusive, true⟩ =
        .error (.rangeNotAncestor lower.display upper.display) ↔
      ∀ id, h.Under uppers id → h.StrictlyUnder requested id) ∧
    ((∃ id, h.Under uppers id ∧ ¬ h.StrictlyUnder requested id) →
      ∃ range listed, h.range upper lower ⟨inclusive, true⟩ = .ok range ∧ range.Emits listed ∧
        (listed.map Revision.id).Nodup ∧
        ∀ r, r ∈ listed ↔ r ∈ h.nodes.elements ∧ h.Under uppers r.id ∧
          ¬ h.StrictlyUnder requested r.id ∧ (inclusive = true ∨ r.id ∉ requested.map Revision.id)) := by
  have hlinked := hreached.fresh.linked
  have humem := revisions_mem huppers
  have hrmem := revisions_mem hrequested
  have hboundary : h.lowerBoundary ⟨inclusive, true⟩ lower uppers requested =
      .ok (h.uncoveredRoots uppers requested ++ requested) := by
    simp [lowerBoundary, hbranch, hnonempty]
  have hcovers := covers_of_boundary hlinked hacyclic hparents hupper hlower huppers hdistinct
    hrequested hboundary (fun _ => Iff.rfl) hupart
    (apart_uncoveredRoots hlinked humem hrmem hlapart)
  obtain ⟨hfails, hlists⟩ := hcovers
  simp only [between_uncoveredRoots_iff hlinked humem hrmem hacyclic hlapart, and_assoc]
    at hfails hlists
  refine ⟨fun text herror => ?_, ?_, hlists⟩
  · by_cases hsome : ∃ id, h.Under uppers id ∧ ¬ h.StrictlyUnder requested id
    · obtain ⟨range, listed, hok, -⟩ := hlists hsome
      cases hok.symm.trans herror
    · cases (hfails.mpr hsome).symm.trans herror
  · rw [hfails, not_exists]
    exact forall_congr' fun id => not_and_not_right

end History

namespace Sample

/-- Two lines from a base each, `a` to `b` and `c` to `d`, that merge at `e`. -/
def joined : List Revision :=
  revisions [(a, [], []), (b, [a], []), (c, [], []), (d, [c], []), (e, [b, d], [])]

end Sample

/-- Down to `b` on one line, and on the other one down to its base. -/
theorem History.implicit_base_on_joined :
    ∃ h, build Config.default Sample.joined = .ok h ∧ h.nodes.Acyclic ∧
      ∃ merge request, h.revisions (.one "e") = .ok [merge] ∧
        h.revisions (.one "b") = .ok [request] ∧
        ∃ range listed, h.range (.one "e") (.one "b") ⟨false, true⟩ = .ok range ∧
          range.Emits listed ∧ (listed.map Revision.id).Nodup ∧
          ∀ r, r ∈ listed ↔ r ∈ h.nodes.elements ∧ h.Under [merge] r.id ∧
            ¬ h.StrictlyUnder [request] r.id ∧ r.id ≠ Sample.b := by
  have hbuilt : Reached Revision.Admissible _ :=
    @Reached.build _ Config.default Sample.joined _ (Sample.revisions_admissible (by decide)) rfl
  have hacyclic : (Nodes.ofRevisions Sample.joined).link.relabel.Acyclic :=
    Nodes.acyclic_of_rank [Sample.a, Sample.c, Sample.b, Sample.d].idxOf (by decide)
  obtain ⟨-, -, hlists⟩ := @implicit_base_extent _ [⟨Sample.e, [Sample.b, Sample.d], [], [], []⟩]
    [⟨Sample.b, [Sample.a], [Sample.e], [], []⟩] hbuilt hacyclic (by decide) (.one "e") (.one "b")
    false (by decide) (by decide) (by decide) rfl (List.nodup_singleton _) rfl (by simp)
    (apart_singleton Sample.e) (apart_singleton Sample.b)
  -- the merge is not properly under the request, since it descends from it
  have hmerge : (Nodes.ofRevisions Sample.joined).link.relabel.Descends Sample.e Sample.b :=
    .of_names ⟨by decide, ⟨Sample.e, [Sample.b, Sample.d], [], [], []⟩, by decide, rfl, by decide⟩
  have hclear : ¬ ∃ r ∈ [(⟨Sample.b, [Sample.a], [Sample.e], [], []⟩ : Revision)],
      Relation.TransGen (Nodes.ofRevisions Sample.joined).link.relabel.Names r.id Sample.e := by
    rintro ⟨r, hr, hbelow⟩
    obtain rfl := List.mem_singleton.mp hr
    exact hacyclic Sample.b (.trans_left hbelow hmerge)
  obtain ⟨range, listed, hok, hemits, hnodup, hmem⟩ :=
    hlists ⟨Sample.e, ⟨_, List.mem_singleton_self _, .refl _⟩, hclear⟩
  exact ⟨_, rfl, hacyclic, ⟨Sample.e, [Sample.b, Sample.d], [], [], []⟩,
    ⟨Sample.b, [Sample.a], [Sample.e], [], []⟩, rfl, rfl, range, listed, hok, hemits, hnodup,
    by simpa using hmem⟩

end MigrationHistory
