import MigrationHistory.Proofs.Repeats

/-!
# Upper bounds that come twice

What stands for one revision twice, by its id, a label or a head word, queues it twice. The forks
below are queued once in any case, but an arm is walked as often as its root is queued. Main
statement: the upper revisions without their later repeats give the same range without its later
repeats, and the two are the same exactly when no upper revision that is listed comes twice.
-/
namespace MigrationHistory

namespace Walk

open Nodes

variable {w : Walk}

/-- The same walk from each of its first revisions once. -/
def once (w : Walk) : Walk := { w with queue := distinct w.queue }

@[simp] theorem armOf_once : w.once.armOf = w.armOf := by
  have harm : ∀ n, w.once.arm n = w.arm n := by
    intro n
    induction n with
    | zero => rfl
    | succ n ih =>
      funext r
      rw [arm, arm, ih]
      rfl
  exact harm _

theorem Proper.once (hw : w.Proper) : w.once.Proper where
  acyclic := hw.acyclic
  space_mem := hw.space_mem
  forks_mem := hw.forks_mem
  queue_mem := fun r hr => hw.queue_mem r (mem_distinct.mp hr)
  on_top := fun r hr => hw.on_top r (mem_distinct.mp hr)
  queued := hw.queued
  single := hw.single
  covered := by
    intro p hp
    obtain ⟨r, hr, hid⟩ | hnamed := hw.covered p hp
    · exact .inl ⟨r, mem_distinct.mpr hr, hid⟩
    · exact .inr hnamed

/-- A walk passes the arms of what is queued, and then what follows once their forks wait. -/
theorem Grounded.passed_eq (hw : w.Grounded) : w.passed =
    w.queue.flatMap w.armOf ++ (w.after (w.queue.flatMap w.armOf) []).passed := by
  have harms : Steps w (w.queue.flatMap w.armOf) (w.after (w.queue.flatMap w.armOf) []) := by
    refine (armFirst (w.nodes.size + 1)).arms w.queue w [] hw.acyclic (by simp) fun r hr => ?_
    exact ⟨hw.queue_mem r hr, Nat.lt_succ_of_le (height_le_size _ r.id)⟩
  have hnext : (w.after (w.queue.flatMap w.armOf) []).Grounded := hw.after (by simp)
  obtain ⟨last, hrest, hend⟩ := hnext.passes
  exact hw.passes.eq ⟨last, harms.trans hrest, hend⟩

/-- The forks that the first arms show wait in the same order, however often the arms come. -/
theorem after_once : w.once.after (w.once.queue.flatMap w.armOf) [] =
    w.after (w.queue.flatMap w.armOf) [] := by
  have hmet : w.once.met ((distinct w.queue).flatMap w.armOf) = w.met (w.queue.flatMap w.armOf) := by
    rw [met_eq, met_eq, List.flatMap_assoc, List.flatMap_assoc, distinct_flatMap_distinct]
    rfl
  calc w.once.after ((distinct w.queue).flatMap w.armOf) []
      = { w with
          queue := [] ++ w.nodes.select (w.once.met ((distinct w.queue).flatMap w.armOf))
          queued := w.queued ++ w.once.met ((distinct w.queue).flatMap w.armOf) } := rfl
    _ = w.after (w.queue.flatMap w.armOf) [] := by
        rw [hmet]
        rfl

/-- What the arms of the first revisions lead to when all of them are done. -/
def later (w : Walk) : List Revision :=
  w.listed (w.after (w.queue.flatMap w.armOf) []).passed

theorem Grounded.listed_eq (hw : w.Grounded) :
    w.listed w.passed = w.queue.flatMap w.listedArm ++ w.later := by
  rw [hw.passed_eq, listed, List.filter_append, ← listed, listed_flatMap]
  rfl

theorem Proper.listed_once_eq (hw : w.Proper) :
    w.once.listed w.once.passed = (distinct w.queue).flatMap w.listedArm ++ w.later := by
  have harms : w.once.listedArm = w.listedArm := by
    unfold listedArm
    rw [armOf_once]
    rfl
  have hlater : w.once.later = w.later := by
    unfold later
    rw [armOf_once, after_once]
    rfl
  rw [hw.once.grounded.listed_eq, harms, hlater]
  rfl

theorem Proper.separates_queue (hw : w.Proper) : Separates w.listedArm w.queue := by
  refine hw.separates_roots.of_subset fun r hr => ?_
  rw [armRoots_eq]
  exact List.mem_append_left _ hr

/-- From each of its first revisions once a walk lists what it lists, without later repeats. -/
theorem Proper.listed_once (hw : w.Proper)
    (honce : (w.once.listed w.once.passed).Nodup) :
    w.once.listed w.once.passed = distinct (w.listed w.passed) := by
  rw [hw.listed_once_eq] at honce ⊢
  obtain ⟨hqueue, hlater, happart⟩ := List.nodup_append'.mp honce
  have harms : distinct (w.queue.flatMap w.listedArm) =
      (distinct w.queue).flatMap w.listedArm := by
    rw [← distinct_flatMap_distinct, distinct_eq_self_iff.mpr hqueue]
  have hnew : (distinct w.later).filter (· ∉ w.queue.flatMap w.listedArm) = w.later := by
    rw [distinct_eq_self_iff.mpr hlater, List.filter_eq_self]
    intro x hx
    refine decide_eq_true fun hmem => happart ?_ hx
    rwa [← harms, mem_distinct]
  rw [hw.grounded.listed_eq, distinct_append, harms, hnew]

/-- A walk lists nothing twice exactly when what it lists is queued once at most. -/
theorem Proper.listed_nodup_iff_queue (hw : w.Proper) (hfloor : w.Floored)
    (honce : (w.once.listed w.once.passed).Nodup) :
    (w.listed w.passed).Nodup ↔ ∀ r ∈ w.listed w.passed, w.queue.count r ≤ 1 := by
  constructor
  · intro hnodup r hr
    by_cases hqueued : r ∈ w.queue
    · have hsome := (hfloor.listedArm_ne_nil_iff hw.acyclic (hw.queue_mem r hqueued).1).mpr
        (mem_listed.mp hr).2
      rw [hw.grounded.listed_eq] at hnodup
      have hcount := hw.separates_queue.nodup_flatMap_iff.mp (List.nodup_append'.mp hnodup).1
      exact ((hcount r hqueued).2 hsome).le
    · rw [List.count_eq_zero.mpr hqueued]
      exact Nat.zero_le 1
  · intro hcount
    rw [hw.listed_once_eq] at honce
    obtain ⟨hqueue, hlater, happart⟩ := List.nodup_append'.mp honce
    have hparts := (hw.separates_queue.of_subset fun x hx => mem_distinct.mp hx).nodup_flatMap_iff.mp
      hqueue
    rw [hw.grounded.listed_eq] at hcount ⊢
    refine List.nodup_append'.mpr
      ⟨hw.separates_queue.nodup_flatMap_iff.mpr fun r hr => ⟨?_, fun hsome => ?_⟩, hlater, ?_⟩
    · exact (hparts r (mem_distinct.mpr hr)).1
    · have hmem := (hw.queue_mem r hr).1
      have hlisted := (hfloor.listedArm_ne_nil_iff hw.acyclic hmem).mp hsome
      have hown : r ∈ w.listedArm r := by
        rw [listedArm_eq hw.acyclic hmem hlisted]
        exact List.mem_cons_self
      have hfew := hcount r (List.mem_append_left _ (List.mem_flatMap.mpr ⟨r, hr, hown⟩))
      exact Nat.le_antisymm hfew (List.count_pos_iff.mpr hr)
    · intro x hx hxlater
      obtain ⟨r, hr, hxr⟩ := List.mem_flatMap.mp hx
      exact happart (List.mem_flatMap.mpr ⟨r, mem_distinct.mpr hr, hxr⟩) hxlater

end Walk

namespace History

open Nodes

variable {h : History} {uppers : List Revision}

section Bounds

theorem distinct_closures (nodes : Nodes) (d : Direction) (rs : List Revision) :
    distinct ((nodes.closures d (distinct rs)).map Revision.id) =
      distinct ((nodes.closures d rs).map Revision.id) := by
  rw [closures, closures, List.map_flatMap, List.map_flatMap, distinct_flatMap_distinct]

theorem space_distinct (uppers lowers : List Revision) :
    h.space (distinct uppers) lowers = h.space uppers lowers := by
  rw [space, distinct_closures, space]

theorem uncoveredRoots_distinct (uppers lowers : List Revision) :
    h.uncoveredRoots (distinct uppers) lowers = h.uncoveredRoots uppers lowers := by
  unfold uncoveredRoots
  simp only [distinct_filter, distinct_closures]

theorem lowerBoundary_distinct (options : RangeOptions) (lower : Selector)
    (uppers requested : List Revision) :
    h.lowerBoundary options lower (distinct uppers) requested =
      h.lowerBoundary options lower uppers requested := by
  unfold lowerBoundary
  rw [uncoveredRoots_distinct]

theorem walkBetween_distinct {lowers : List Revision} {skipped : List RevisionId}
    (hqueued : (h.walkBetween uppers lowers skipped).queued = []) :
    h.walkBetween (distinct uppers) lowers skipped = (h.walkBetween uppers lowers skipped).once := by
  have hnone : (h.walkBetween (distinct uppers) lowers skipped).queued = [] := by
    simp only [walkBetween, space_distinct, List.filter_eq_nil_iff, List.mem_map,
      List.mem_filter, mem_distinct] at hqueued ⊢
    exact hqueued
  have hqueue : (h.walkBetween (distinct uppers) lowers skipped).queue =
      distinct (h.walkBetween uppers lowers skipped).queue := by
    simp only [walkBetween, space_distinct, distinct_filter]
  calc h.walkBetween (distinct uppers) lowers skipped
      = { h.walkBetween uppers lowers skipped with
          queue := (h.walkBetween (distinct uppers) lowers skipped).queue
          queued := (h.walkBetween (distinct uppers) lowers skipped).queued } := by
        simp only [walkBetween, space_distinct]
    _ = (h.walkBetween uppers lowers skipped).once := by
        rw [hqueue, hnone, ← hqueued]
        rfl

/-- The upper revisions without later repeats take the same walk from each of them once. -/
theorem absoluteWalk_once {upper other lower : Selector} {options : RangeOptions} {w : Walk}
    (hw : w.Proper) (huppers : h.revisions upper = .ok uppers)
    (hother : h.revisions other = .ok (distinct uppers))
    (hok : h.absoluteWalk upper lower options = .ok w) :
    h.absoluteWalk other lower options = .ok w.once := by
  obtain ⟨requested, found, boundary, hlower, hupper, hapart, hboundary, hbelow, hspace, rfl⟩ :=
    absoluteWalk_eq_ok_iff.mp hok
  obtain rfl := Except.ok.inj (huppers.symm.trans hupper)
  refine absoluteWalk_eq_ok_iff.mpr ⟨requested, distinct uppers, boundary, hlower, hother, ?_, ?_,
    hbelow, ?_, (walkBetween_distinct hw.queued).symm⟩
  · rw [separate_eq_ok_iff] at hapart ⊢
    simpa only [mem_distinct] using hapart
  · rw [lowerBoundary_distinct, hboundary]
  · rwa [space_distinct]

end Bounds

/-- An upper bound may come twice. The range from the upper revisions without their later repeats,
however they are asked for, lists the same revisions without later repeats. The range itself
repeats nothing, and is that range, exactly when no upper revision that it lists comes twice. -/
theorem range_of_repeated_uppers (hreached : Reached Revision.Fresh h)
    (hacyclic : h.nodes.Acyclic) (hparents : ∀ r ∈ h.nodes.elements, r.parents.Nodup)
    {upper lower : Selector} {options : RangeOptions} {range : Range}
    (hupper : upper.offset? = none) (hlower : lower.offset? = none)
    (huppers : h.revisions upper = .ok uppers) (hok : h.range upper lower options = .ok range) :
    ∃ listed, range.Emits listed ∧
      (∀ other : Selector, other.offset? = none →
        h.revisions other = .ok (distinctOn Revision.id uppers) →
        ∃ once, h.range other lower options = .ok once ∧
          once.Emits (distinctOn Revision.id listed)) ∧
      ((listed.map Revision.id).Nodup ↔ ∀ r ∈ listed, uppers.count r ≤ 1) ∧
      (distinctOn Revision.id listed = listed ↔ ∀ r ∈ listed, uppers.count r ≤ 1) := by
  rw [range_absolute hupper hlower] at hok
  obtain ⟨w, hwalk, rfl⟩ := map_eq_ok.mp hok
  have hproper := absoluteWalk_proper hreached.linked hacyclic hwalk
  have hfloor := absoluteWalk_floored hreached.linked hacyclic hwalk
  obtain ⟨_, found, boundary, -, hfound, -, -, -, -, hw⟩ := absoluteWalk_eq_ok_iff.mp hwalk
  obtain rfl := Except.ok.inj (huppers.symm.trans hfound)
  have hnodes : w.nodes = h.nodes := by rw [hw, walkBetween]
  have hmem : ∀ r ∈ w.listed w.passed, r ∈ h.nodes.elements ∧ r.id ∈ w.space := fun r hr =>
    hnodes ▸ hproper.passed_mem (Walk.mem_listed.mp hr).1
  have honce : ((w.once.listed w.once.passed).map Revision.id).Nodup :=
    listed_nodup hproper.once (nodup_distinct _) (hnodes ▸ hparents)
  have hcount : ∀ r ∈ w.listed w.passed, w.queue.count r = uppers.count r := by
    intro r hr
    have hspace := (hmem r hr).2
    rw [hw] at hspace ⊢
    exact List.count_filter (decide_eq_true hspace)
  have hiff : (w.listed w.passed).Nodup ↔ ∀ r ∈ w.listed w.passed, uppers.count r ≤ 1 := by
    rw [hproper.listed_nodup_iff_queue hfloor honce.of_map]
    exact forall_congr' fun r => forall_congr' fun hr => by rw [hcount r hr]
  have hdistinct : distinctOn Revision.id uppers = distinct uppers := distinctOn_eq_distinct
    fun r hr s hs => h.nodes.eq_of_key_eq (revisions_mem huppers r hr) (revisions_mem huppers s hs)
  refine ⟨w.listed w.passed, hproper.grounded.emits, ?_⟩
  rw [distinctOn_eq_distinct fun r hr s hs => hproper.eq_of_listed hr hs]
  refine ⟨fun other hoffset hother => ?_, ?_, ?_⟩
  · rw [hdistinct] at hother
    have hwalk' := absoluteWalk_once hproper huppers hother hwalk
    refine ⟨.walk w.once, ?_, ?_⟩
    · rw [range_absolute hoffset hlower, hwalk']
      rfl
    · rw [← hproper.listed_once honce.of_map]
      exact hproper.once.grounded.emits
  · rw [← hiff, hproper.map_id_listed_nodup_iff]
  · rw [distinct_eq_self_iff, hiff]

/-- The merge of a diamond is asked for by its id and as the only head: both arms are walked
again, the fork is not. -/
theorem repeated_upper_on_diamond :
    ∃ h, History.build Config.default Sample.diamond = .ok h ∧ h.nodes.Acyclic ∧
      (∀ r ∈ h.nodes.elements, r.parents.Nodup) ∧
      (Selector.many ["d", "head"]).offset? = none ∧ (Selector.one "base").offset? = none ∧
      ∃ merge range listed, h.revisions (.many ["d", "head"]) = .ok [merge, merge] ∧
        h.range (.many ["d", "head"]) (.one "base") ⟨true, false⟩ = .ok range ∧
        range.Emits listed ∧
        listed.map Revision.id =
          [Sample.d, Sample.b, Sample.c, Sample.d, Sample.b, Sample.c, Sample.a] ∧
        merge ∈ listed ∧ ¬ (listed.map Revision.id).Nodup ∧
        ∃ once, h.range (.one "d") (.one "base") ⟨true, false⟩ = .ok once ∧
          once.Emits (distinctOn Revision.id listed) := by
  have hbuilt : Reached Revision.Admissible _ :=
    @Reached.build _ Config.default Sample.diamond _ (Sample.revisions_admissible (by decide)) rfl
  obtain ⟨listed, hemits, honce, hiff, -⟩ := @range_of_repeated_uppers _ _ hbuilt.fresh
    Sample.diamond_acyclic (by decide) (.many ["d", "head"]) (.one "base") ⟨true, false⟩ _
    (by decide) (by decide) rfl rfl
  have hwalk := @absoluteWalk_proper _ hbuilt.fresh.linked Sample.diamond_acyclic
    (.many ["d", "head"]) (.one "base") ⟨true, false⟩ _ rfl
  obtain rfl := hemits.eq hwalk.grounded.emits
  refine ⟨_, rfl, Sample.diamond_acyclic, by decide, by decide, by decide,
    ⟨Sample.d, [Sample.b, Sample.c], [], [], []⟩, _, _, rfl, rfl, hemits, rfl, by decide, ?_,
    honce (.one "d") (by decide) rfl⟩
  rw [hiff]
  decide

/-- A single revision that is asked for twice is listed twice. -/
theorem upper_listed_again :
    ∃ h range listed, Reached Revision.Admissible h ∧ h.nodes.Acyclic ∧
      (∀ r ∈ h.nodes.elements, r.parents.Nodup) ∧
      (Selector.many ["a", "a"]).offset? = none ∧ (Selector.one "base").offset? = none ∧
      h.range (.many ["a", "a"]) (.one "base") ⟨true, false⟩ = .ok range ∧
      range.Emits listed ∧ listed.map Revision.id = [Sample.a, Sample.a] ∧
      ¬ (listed.map Revision.id).Nodup ∧
      ∃ once, h.range (.one "a") (.one "base") ⟨true, false⟩ = .ok once ∧
        once.Emits [⟨Sample.a, [], [], [], []⟩] := by
  have hbuilt : Reached Revision.Admissible _ :=
    @Reached.build _ Config.default (Sample.revisions [(Sample.a, [], [])]) _
      (Sample.revisions_admissible (by decide)) rfl
  have hacyclic : (ofRevisions (Sample.revisions [(Sample.a, [], [])])).link.relabel.Acyclic :=
    acyclic_of_rank (fun _ => 0) (by decide)
  have hwalk := @absoluteWalk_proper _ hbuilt.fresh.linked hacyclic (.many ["a", "a"])
    (.one "base") ⟨true, false⟩ _ rfl
  have honce := @absoluteWalk_proper _ hbuilt.fresh.linked hacyclic (.one "a") (.one "base")
    ⟨true, false⟩ _ rfl
  exact ⟨_, _, _, hbuilt, hacyclic, by decide, by decide, by decide, rfl, hwalk.grounded.emits, rfl,
    by decide, _, rfl, honce.grounded.emits⟩

end History

end MigrationHistory
