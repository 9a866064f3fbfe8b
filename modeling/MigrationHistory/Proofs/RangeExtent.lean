import MigrationHistory.Proofs.Boundary
import MigrationHistory.Proofs.RangeOrder

/-!
# The extent of a range

A range with absolute bounds fails when nothing lies between its bounds. Otherwise it lists
what does, each revision once: no arm reaches into another, a fork is queued when it is met
first, and everything in the space is met from above. The requested lower revisions belong
to the range when it is inclusive.
-/
namespace MigrationHistory.History

open Nodes

variable {h : History} {uppers requested : List Revision} {ends : RevisionId → Prop}

theorem Reached.mem_bases {admits : Revision → Prop} (hreached : Reached admits h)
    (id : RevisionId) : id ∈ h.bases ↔ h.IsBase id := by
  rw [hreached.basesAgree.1, mem_idsWhere]
  simp [IsBase, Revision.isBase]

/-- No id is a proper ancestor of another one of the same kind. -/
def Apart (h : History) (ids : RevisionId → Prop) : Prop :=
  ∀ a b, ids a → ids b → h.nodes.Descends a b → a = b

/-- Bounds that are apart are accepted, whichever way the closures run. -/
theorem separate_of_apart (hlinked : h.nodes.Linked) (d : Direction) {rs : List Revision}
    (hrs : ∀ r ∈ rs, r ∈ h.nodes.elements) (hapart : h.Apart (· ∈ rs.map Revision.id)) :
    h.separate d rs = .ok () := by
  rw [separate_eq_ok_iff]
  intro a ha b hb hne hmem
  have hamem : a.id ∈ rs.map Revision.id := List.mem_map_of_mem ha
  have hbmem : b.id ∈ rs.map Revision.id := List.mem_map_of_mem hb
  cases d with
  | ancestors => exact hne (hapart _ _ hamem hbmem ((mem_ancestors (hrs a ha)).mp hmem)).symm
  | descendants =>
    exact hne (hapart _ _ hbmem hamem ((hlinked.mem_descendants (hrs a ha)).mp hmem))

theorem mem_skipped {options : RangeOptions} {id : RevisionId} :
    id ∉ RangeOptions.skipped options requested ↔
      options.inclusive = true ∨ id ∉ requested.map Revision.id := by
  rw [RangeOptions.skipped]
  split <;> simp_all

/-- What a proper walk that starts at distinct revisions lists, it lists once. -/
theorem listed_nodup {w : Walk} (hw : w.Proper) (hqueue : w.queue.Nodup)
    (hparents : ∀ r ∈ w.nodes.elements, r.parents.Nodup) :
    ((w.listed w.passed).map Revision.id).Nodup := by
  rw [hw.map_id_listed_nodup_iff, Walk.listed]
  exact (hw.passed_nodup hqueue hparents).sublist List.filter_sublist

/-- The walk between bounds that are kept apart lists what lies between them. -/
theorem mem_walkBetween (hlinked : h.nodes.Linked) (hacyclic : h.nodes.Acyclic)
    {lowers : List Revision} (huppers : ∀ r ∈ uppers, r ∈ h.nodes.elements)
    (hlowers : ∀ r ∈ lowers, r ∈ h.nodes.elements)
    (hapart : h.separate .ancestors uppers = .ok ()) (options : RangeOptions)
    (requested : List Revision) :
    ∃ listed, (Range.walk (h.walkBetween uppers lowers
        (RangeOptions.skipped options requested))).Emits listed ∧
      ∀ r, r ∈ listed ↔ r ∈ h.nodes.elements ∧
        h.Between uppers (· ∈ lowers.map Revision.id) r.id ∧
          (options.inclusive = true ∨ r.id ∉ requested.map Revision.id) := by
  have hproper := walkBetween_proper hlinked hacyclic huppers hlowers hapart
    (RangeOptions.skipped options requested)
  refine ⟨_, hproper.grounded.emits, fun r => ?_⟩
  rw [Walk.mem_listed, hproper.mem_passed_iff, and_assoc, ← mem_space hlinked huppers hlowers]
  exact and_congr_right fun _ => and_congr_right fun _ => mem_skipped

theorem mem_space_ends (hlinked : h.nodes.Linked) (huppers : ∀ r ∈ uppers, r ∈ h.nodes.elements)
    {lowers : List Revision} (hlowers : ∀ r ∈ lowers, r ∈ h.nodes.elements)
    (hids : ∀ id, id ∈ lowers.map Revision.id ↔ ends id) {id : RevisionId} :
    id ∈ h.space uppers lowers ↔ h.Between uppers ends id := by
  have hends : (· ∈ lowers.map Revision.id) = ends := funext fun id => propext (hids id)
  exact hends ▸ mem_space hlinked huppers hlowers

/-- The range from `upper` to `lower` fails when nothing lies between the revisions `uppers` and
the ends, and otherwise lists what does and nothing else. An exclusive range leaves out what its
lower bound requests. -/
structure RunsDownTo (h : History) (upper lower : Selector) (options : RangeOptions)
    (uppers requested : List Revision) (ends : RevisionId → Prop) : Prop where
  fails : (¬ ∃ id, h.Between uppers ends id) →
    h.range upper lower options = .error (.rangeNotAncestor lower.display upper.display)
  lists : (∃ id, h.Between uppers ends id) →
    ∃ range listed, h.range upper lower options = .ok range ∧ range.Emits listed ∧
      ∀ r, r ∈ listed ↔ r ∈ h.nodes.elements ∧ h.Between uppers ends r.id ∧
        (options.inclusive = true ∨ r.id ∉ requested.map Revision.id)

/-- The range from `upper` to `lower` fails when nothing lies between the revisions `uppers`
and the ends, and otherwise lists exactly what does, each revision once. An exclusive range
leaves out what its lower bound requests. -/
structure Covers (h : History) (upper lower : Selector) (options : RangeOptions)
    (uppers requested : List Revision) (ends : RevisionId → Prop) : Prop where
  fails_iff : h.range upper lower options =
      .error (.rangeNotAncestor lower.display upper.display) ↔ ¬ ∃ id, h.Between uppers ends id
  lists : (∃ id, h.Between uppers ends id) →
    ∃ range listed, h.range upper lower options = .ok range ∧ range.Emits listed ∧
      (listed.map Revision.id).Nodup ∧
      ∀ r, r ∈ listed ↔ r ∈ h.nodes.elements ∧ h.Between uppers ends r.id ∧
        (options.inclusive = true ∨ r.id ∉ requested.map Revision.id)

section Boundary

variable (hlinked : h.nodes.Linked) {upper lower : Selector} {options : RangeOptions}
  {boundary : List Revision} (hupper : upper.offset? = none) (hlower : lower.offset? = none)
  (huppers : h.revisions upper = .ok uppers) (hrequested : h.revisions lower = .ok requested)
  (hboundary : h.lowerBoundary options lower uppers requested = .ok boundary)
  (hends : ∀ id, id ∈ boundary.map Revision.id ↔ ends id)
  (hapart : h.separate .ancestors uppers = .ok ()) (hlapart : h.Apart ends)
include hlinked hupper hlower huppers hrequested hboundary hends hapart hlapart

/-- Once the lower boundary is found, the ids of the boundary are the ends of the range, and its
space alone decides on it. -/
theorem range_of_boundary :
    ∃ lowers, (∀ r ∈ lowers, r ∈ h.nodes.elements) ∧
      (∀ id, id ∈ lowers.map Revision.id ↔ ends id) ∧
      h.range upper lower options = if (h.space uppers lowers).isEmpty then
          .error (.rangeNotAncestor lower.display upper.display)
        else .ok (.walk (h.walkBetween uppers lowers (RangeOptions.skipped options requested))) := by
  have hmem : ∀ r ∈ distinctOn Revision.id boundary, r ∈ h.nodes.elements := fun r hr =>
    lowerBoundary_mem (revisions_mem hrequested) hboundary r (mem_of_mem_distinctOn hr)
  have hids : ∀ id, id ∈ (distinctOn Revision.id boundary).map Revision.id ↔ ends id :=
    fun id => mem_map_distinctOn.trans (hends id)
  have hbelow : h.Apart (· ∈ (distinctOn Revision.id boundary).map Revision.id) :=
    fun a b ha hb => hlapart a b ((hids a).mp ha) ((hids b).mp hb)
  refine ⟨distinctOn Revision.id boundary, hmem, hids, ?_⟩
  rw [range_absolute hupper hlower, absoluteWalk_eq hrequested huppers hapart hboundary
    (separate_of_apart hlinked .descendants hmem hbelow)]
  split <;> rfl

theorem runsDownTo_of_boundary (hacyclic : h.nodes.Acyclic) :
    h.RunsDownTo upper lower options uppers requested ends := by
  obtain ⟨lowers, hlowers, hids, hrange⟩ := range_of_boundary hlinked hupper hlower huppers
    hrequested hboundary hends hapart hlapart
  have humem := revisions_mem huppers
  have hspace : ∀ {id}, id ∈ h.space uppers lowers ↔ h.Between uppers ends id :=
    fun {id} => mem_space_ends hlinked humem hlowers hids
  constructor
  case fails =>
    intro hnone
    have hempty : h.space uppers lowers = [] :=
      List.eq_nil_iff_forall_not_mem.mpr fun id hid => hnone ⟨id, hspace.mp hid⟩
    rw [hrange, if_pos (List.isEmpty_iff.mpr hempty)]
  case lists =>
    intro hsome
    obtain ⟨id, hbetween⟩ := hsome
    have hne : h.space uppers lowers ≠ [] := List.ne_nil_of_mem (hspace.mpr hbetween)
    obtain ⟨listed, hemits, hmem⟩ :=
      mem_walkBetween hlinked hacyclic humem hlowers hapart options requested
    refine ⟨_, listed, ?_, hemits, fun r => ?_⟩
    · rw [hrange, if_neg fun hnil => hne (List.isEmpty_iff.mp hnil)]
    · rw [hmem, ← mem_space hlinked humem hlowers, hspace]

end Boundary

/-- From distinct upper bounds down, and when no parent is named twice, each revision is listed
once. -/
theorem covers_of_boundary (hlinked : h.nodes.Linked) (hacyclic : h.nodes.Acyclic)
    (hparents : ∀ r ∈ h.nodes.elements, r.parents.Nodup) {upper lower : Selector}
    {options : RangeOptions} {boundary : List Revision}
    (hupper : upper.offset? = none) (hlower : lower.offset? = none)
    (huppers : h.revisions upper = .ok uppers) (hdistinct : (uppers.map Revision.id).Nodup)
    (hrequested : h.revisions lower = .ok requested)
    (hboundary : h.lowerBoundary options lower uppers requested = .ok boundary)
    (hends : ∀ id, id ∈ boundary.map Revision.id ↔ ends id)
    (hupart : h.Apart (· ∈ uppers.map Revision.id)) (hlapart : h.Apart ends) :
    h.Covers upper lower options uppers requested ends := by
  have humem := revisions_mem huppers
  have hapart := separate_of_apart hlinked .ancestors humem hupart
  have hruns := runsDownTo_of_boundary hlinked hupper hlower huppers hrequested hboundary hends
    hapart hlapart hacyclic
  obtain ⟨lowers, hlowers, -, hrange⟩ := range_of_boundary hlinked hupper hlower huppers
    hrequested hboundary hends hapart hlapart
  constructor
  case fails_iff =>
    refine ⟨fun herror hsome => ?_, hruns.fails⟩
    obtain ⟨_, _, hok, -⟩ := hruns.lists hsome
    cases herror.symm.trans hok
  case lists =>
    intro hsome
    obtain ⟨range, listed, hok, hemits, hmem⟩ := hruns.lists hsome
    refine ⟨range, listed, hok, hemits, ?_, hmem⟩
    have hproper := walkBetween_proper hlinked hacyclic humem hlowers hapart
      (RangeOptions.skipped options requested)
    rw [hrange] at hok
    split at hok
    · cases hok
    · cases hok
      obtain rfl := hemits.eq hproper.grounded.emits
      exact listed_nodup hproper ((List.Nodup.of_map _ hdistinct).sublist List.filter_sublist)
        hparents

/-- Between bounds that are kept apart a range without an implicit base covers what lies
between its upper bounds and its lower ends. -/
theorem range_extent (hreached : Reached Revision.Admissible h) (hacyclic : h.nodes.Acyclic)
    (hparents : ∀ r ∈ h.nodes.elements, r.parents.Nodup) {upper lower : Selector}
    {inclusive : Bool} (hupper : upper.offset? = none) (hlower : lower.offset? = none)
    (huppers : h.revisions upper = .ok uppers) (hdistinct : (uppers.map Revision.id).Nodup)
    (hrequested : h.revisions lower = .ok requested) (hends : h.LowerEnds lower requested ends)
    (hupart : h.Apart (· ∈ uppers.map Revision.id)) (hlapart : h.Apart ends) :
    h.Covers upper lower ⟨inclusive, false⟩ uppers requested ends := by
  have hlinked := hreached.fresh.linked
  obtain ⟨boundary, hboundary, hiff⟩ :=
    lowerBoundary_of_ends hlinked hreached.mem_bases hends inclusive uppers
  exact covers_of_boundary hlinked hacyclic hparents hupper hlower huppers hdistinct hrequested
    hboundary hiff hupart hlapart

/-- From the merge of a diamond down to the base of one of its arms. -/
theorem extent_of_diamond :
    ∃ h, History.build Config.default Sample.diamond = .ok h ∧ h.nodes.Acyclic ∧
      ∃ merge root, h.revisions (.one "d") = .ok [merge] ∧ h.lookup "b" = .ok root ∧
        h.revisions (.one "b@base") = .ok [] ∧
        ∃ range listed, h.range (.one "d") (.one "b@base") ⟨false, false⟩ = .ok range ∧
          range.Emits listed ∧ (listed.map Revision.id).Nodup ∧
          ∀ r, r ∈ listed ↔ r ∈ h.nodes.elements ∧
            h.Between [merge] (fun id => h.IsBase id ∧ h.nodes.Descends root.id id) r.id := by
  have hbuilt : Reached Revision.Admissible _ :=
    @Reached.build _ Config.default Sample.diamond _ (Sample.revisions_admissible (by decide)) rfl
  refine ⟨_, rfl, Sample.diamond_acyclic, ⟨Sample.d, [Sample.b, Sample.c], [], [], []⟩,
    ⟨Sample.b, [Sample.a], [Sample.d], [], []⟩, rfl, rfl, rfl, ?_⟩
  have hbase : ∀ r ∈ (ofRevisions Sample.diamond).link.relabel.elements, r.parents = [] →
      r.id = Sample.a := by decide
  have hdescends : ∀ r ∈ (ofRevisions Sample.diamond).link.relabel.elements,
      (ofRevisions Sample.diamond).link.relabel.Descends r.id Sample.a := by
    intro r hr
    refine (mem_ancestors hr).mp ?_
    revert r
    decide
  obtain ⟨range, listed, hok, hemits, hnodup, hmem⟩ :=
    (@range_extent _ [⟨Sample.d, [Sample.b, Sample.c], [], [], []⟩] [] _ hbuilt
      Sample.diamond_acyclic (by decide) (.one "d") (.one "b@base") false (by decide) (by decide)
      rfl (List.nodup_singleton _) rfl
      (.branch (rfl : History.lookup _ "b" = .ok ⟨Sample.b, [Sample.a], [Sample.d], [], []⟩) rfl)
      (by
        intro x y hx hy _
        rw [List.mem_singleton.mp hx, List.mem_singleton.mp hy])
      (by
        rintro _ _ ⟨⟨r, hr, rfl, hrbase⟩, -⟩ ⟨⟨s, hs, rfl, hsbase⟩, -⟩ -
        rw [hbase r hr hrbase, hbase s hs hsbase])).lists
      ⟨Sample.a, ⟨_, List.mem_singleton_self _, hdescends _ (by decide)⟩, Sample.a,
        ⟨⟨⟨Sample.a, [], [Sample.b, Sample.c], [], []⟩, by decide, rfl, rfl⟩,
          hdescends _ (by decide)⟩, .refl _⟩
  exact ⟨range, listed, hok, hemits, hnodup, by simpa using hmem⟩

end MigrationHistory.History
