import MigrationHistory.Proofs.FullRange
import MigrationHistory.Proofs.UnknownBranch

/-!
# The two spellings of the base of a branch

A branch with `base` and a branch with nothing after its separator have the same target, and both
request no revision. As a lower bound only the first is recognised as the base of a branch and ends
at the bases under it; the second is taken for the base of everything and ends at all bases. Main
statement: what each of the two bounds, and that they bound the same range exactly when every base
under the upper bounds lies under the branch.
-/
namespace MigrationHistory.History

open Nodes

variable {h : History} {branch : String} {root : Revision} {uppers : List Revision}
  {upper lower : Selector} {options : RangeOptions}

/-- Two ranges list the same, or fail for one kind of reason. -/
inductive SameOutcome : Except Error Range → Except Error Range → Prop
  | emits {range other : Range} {listed : List Revision} (hrange : range.Emits listed)
      (hother : other.Emits listed) : SameOutcome (.ok range) (.ok other)
  | fails {e other : Error} (hkind : e.ctorIdx = other.ctorIdx) :
      SameOutcome (.error e) (.error other)

theorem SameOutcome.listed_eq {range other : Range} {listed listed' : List Revision}
    (hsame : SameOutcome (.ok range) (.ok other)) (hrange : range.Emits listed)
    (hother : other.Emits listed') : listed = listed' := by
  cases hsame with
  | emits hfirst hsecond => rw [hrange.eq hfirst, hother.eq hsecond]

theorem SameOutcome.symm {first second : Except Error Range} (hsame : SameOutcome first second) :
    SameOutcome second first := by
  cases hsame with
  | emits hrange hother => exact .emits hother hrange
  | fails hkind => exact .fails hkind.symm

/-- What holds of the list of the one holds of the list of the other. -/
theorem SameOutcome.exists_listed {first second : Except Error Range} {P : List Revision → Prop}
    (hsame : SameOutcome first second)
    (hfirst : ∃ range listed, first = .ok range ∧ range.Emits listed ∧ P listed) :
    ∃ range listed, second = .ok range ∧ range.Emits listed ∧ P listed := by
  obtain ⟨range, listed, heq, hemits, hp⟩ := hfirst
  cases hsame with
  | emits hrange hother =>
    cases heq
    obtain rfl := hemits.eq hrange
    exact ⟨_, _, rfl, hother, hp⟩
  | fails => cases heq

section Failures

variable {requested : List Revision} {e : Error}

/-- Lower bounds are looked up first. -/
theorem absoluteWalk_upper_error (hlower : h.revisions lower = .ok requested)
    (hupper : h.revisions upper = .error e) : h.absoluteWalk upper lower options = .error e := by
  simp only [absoluteWalk, hlower, hupper, bind, Except.bind]

/-- Upper bounds that reach each other are refused before the lower boundary is looked for. -/
theorem absoluteWalk_overlapping (hlower : h.revisions lower = .ok requested)
    (hupper : h.revisions upper = .ok uppers) (hoverlap : h.separate .ancestors uppers = .error e) :
    h.absoluteWalk upper lower options = .error e := by
  simp only [absoluteWalk, hlower, hupper, hoverlap, bind, Except.bind]

end Failures

section Ends

variable {ends : RevisionId → Prop}

/-- The lower bound requests nothing, and whatever the upper bounds are a range ends at these
bases. -/
structure EndsAt (h : History) (lower : Selector) (options : RangeOptions)
    (ends : RevisionId → Prop) : Prop where
  absolute : lower.offset? = none
  requested : h.revisions lower = .ok []
  boundary : ∀ uppers, ∃ boundary, h.lowerBoundary options lower uppers [] = .ok boundary ∧
    ∀ id, id ∈ boundary.map Revision.id ↔ ends id
  bases : ∀ id, ends id → h.IsBase id

theorem EndsAt.apart (hends : h.EndsAt lower options ends) : h.Apart ends :=
  fun a b ha hb => apart_bases a b (hends.bases a ha) (hends.bases b hb)

/-- Bases are kept apart, so that only the space of a range that ends at them decides on it. -/
theorem EndsAt.range_eq (hends : h.EndsAt lower options ends) (hlinked : h.nodes.Linked)
    (hupper : upper.offset? = none) (huppers : h.revisions upper = .ok uppers)
    (hapart : h.separate .ancestors uppers = .ok ()) :
    ∃ lowers, (∀ r ∈ lowers, r ∈ h.nodes.elements) ∧
      (∀ id, id ∈ lowers.map Revision.id ↔ ends id) ∧
      h.range upper lower options = if (h.space uppers lowers).isEmpty then
          .error (.rangeNotAncestor lower.display upper.display)
        else .ok (.walk (h.walkBetween uppers lowers (RangeOptions.skipped options []))) := by
  obtain ⟨boundary, hboundary, hiff⟩ := hends.boundary uppers
  exact range_of_boundary hlinked hupper hends.absolute huppers hends.requested hboundary hiff
    hapart hends.apart

theorem EndsAt.runsDownTo (hends : h.EndsAt lower options ends) (hlinked : h.nodes.Linked)
    (hacyclic : h.nodes.Acyclic) (hupper : upper.offset? = none)
    (huppers : h.revisions upper = .ok uppers) (hapart : h.separate .ancestors uppers = .ok ()) :
    h.RunsDownTo upper lower options uppers [] ends := by
  obtain ⟨boundary, hboundary, hiff⟩ := hends.boundary uppers
  exact runsDownTo_of_boundary hlinked hupper hends.absolute huppers hends.requested hboundary hiff
    hapart hends.apart hacyclic

theorem space_congr {lowers others : List Revision}
    (hsame : ∀ id, id ∈ h.space uppers lowers ↔ id ∈ h.space uppers others) :
    h.space uppers lowers = h.space uppers others := by
  refine List.filter_congr fun id hid => ?_
  have hmem := hsame id
  rw [space, space, List.mem_filter, List.mem_filter] at hmem
  exact Bool.eq_iff_iff.mpr (by simpa [hid] using hmem)

/-- What lies between its bounds is read off the list of a range that leaves nothing out. -/
theorem RunsDownTo.between_iff (hruns : h.RunsDownTo upper lower options uppers [] ends)
    (huppers : ∀ r ∈ uppers, r ∈ h.nodes.elements) {id : RevisionId} :
    h.Between uppers ends id ↔ ∃ range listed, h.range upper lower options = .ok range ∧
      range.Emits listed ∧ ∃ r ∈ listed, r.id = id := by
  constructor
  · intro hbetween
    obtain ⟨range, listed, hrange, hemits, hmem⟩ := hruns.lists ⟨id, hbetween⟩
    obtain ⟨r, hr, rfl⟩ := Nodes.mem_keys.mp (hbetween.mem_keys huppers)
    exact ⟨range, listed, hrange, hemits, r,
      (hmem r).mpr ⟨hr, hbetween, .inr List.not_mem_nil⟩, rfl⟩
  · rintro ⟨range, listed, hrange, hemits, r, hr, rfl⟩
    by_cases hsome : ∃ id, h.Between uppers ends id
    · obtain ⟨range', listed', hrange', hemits', hmem⟩ := hruns.lists hsome
      cases hrange.symm.trans hrange'
      obtain rfl := hemits.eq hemits'
      exact ((hmem r).mp hr).2.1
    · cases hrange.symm.trans (hruns.fails hsome)

variable {other : Selector} {ends' : RevisionId → Prop} (hends : h.EndsAt lower options ends)
  (hother : h.EndsAt other options ends') (hlinked : h.nodes.Linked) (hacyclic : h.nodes.Acyclic)
  (hupper : upper.offset? = none)
include hends hother hlinked hacyclic hupper

/-- Under upper bounds that are kept apart, different ends show unless the same ids lie above
them. -/
theorem EndsAt.sameOutcome_iff_of_apart (huppers : h.revisions upper = .ok uppers)
    (hapart : h.separate .ancestors uppers = .ok ()) :
    SameOutcome (h.range upper lower options) (h.range upper other options) ↔
      ∀ id, h.Between uppers ends id ↔ h.Between uppers ends' id := by
  have humem := revisions_mem huppers
  constructor
  · intro hsame id
    rw [(hends.runsDownTo hlinked hacyclic hupper huppers hapart).between_iff humem,
      (hother.runsDownTo hlinked hacyclic hupper huppers hapart).between_iff humem]
    exact ⟨hsame.exists_listed, hsame.symm.exists_listed⟩
  · intro hbetween
    obtain ⟨lowers, hlowers, hids, hrange⟩ := hends.range_eq hlinked hupper huppers hapart
    obtain ⟨others, hothers, hids', hrange'⟩ := hother.range_eq hlinked hupper huppers hapart
    -- a walk reads its lower ends through its space alone
    have hspace : h.space uppers lowers = h.space uppers others := space_congr fun id => by
      rw [mem_space_ends hlinked humem hlowers hids, mem_space_ends hlinked humem hothers hids',
        hbetween]
    have hwalk : ∀ skipped,
        h.walkBetween uppers lowers skipped = h.walkBetween uppers others skipped := by
      intro skipped
      simp only [walkBetween, hspace]
    rw [hrange, hrange', hspace, hwalk]
    split
    · exact .fails rfl
    · have hemits := (walkBetween_proper hlinked hacyclic humem hothers hapart
        (RangeOptions.skipped options [])).grounded.emits
      exact .emits hemits hemits

/-- Lower bounds with ends of their own bound the same range exactly when the same ids lie above
the ends, under upper bounds that are found and kept apart. -/
theorem EndsAt.sameOutcome_iff :
    SameOutcome (h.range upper lower options) (h.range upper other options) ↔
      ∀ uppers, h.revisions upper = .ok uppers → h.separate .ancestors uppers = .ok () →
        ∀ id, h.Between uppers ends id ↔ h.Between uppers ends' id := by
  cases huppers : h.revisions upper with
  | error e =>
    rw [range_absolute hupper hends.absolute, range_absolute hupper hother.absolute,
      absoluteWalk_upper_error hends.requested huppers,
      absoluteWalk_upper_error hother.requested huppers]
    exact ⟨fun _ _ hok => (by cases hok), fun _ => .fails rfl⟩
  | ok uppers =>
    cases hapart : h.separate .ancestors uppers with
    | error e =>
      rw [range_absolute hupper hends.absolute, range_absolute hupper hother.absolute,
        absoluteWalk_overlapping hends.requested huppers hapart,
        absoluteWalk_overlapping hother.requested huppers hapart]
      refine ⟨fun _ others hothers hok => ?_, fun _ => .fails rfl⟩
      cases hothers
      rw [hapart] at hok
      cases hok
    | ok _ =>
      rw [hends.sameOutcome_iff_of_apart hother hlinked hacyclic hupper huppers hapart]
      constructor
      · intro hsame others hothers _
        cases hothers
        exact hsame
      · exact fun hall => hall uppers rfl hapart

end Ends

section Spellings

variable (hbases : ∀ id, id ∈ h.bases ↔ h.IsBase id)
include hbases

/-- What is not recognised as the base of a branch and requests nothing ends at all bases. -/
theorem endsAt_bases (habsolute : lower.offset? = none) (hrequested : h.revisions lower = .ok [])
    (hunbranched : lower.branchBase? = none) (options : RangeOptions) :
    h.EndsAt lower options h.IsBase where
  absolute := habsolute
  requested := hrequested
  boundary := fun uppers => lowerBoundary_bases hbases hunbranched options uppers
  bases := fun _ hid => hid

theorem endsAt_base (options : RangeOptions) : h.EndsAt (.one "base") options h.IsBase :=
  endsAt_bases hbases (by decide) (revisions_one "base") (by decide) options

/-- A branch with nothing after its separator is taken for the base of everything. -/
theorem endsAt_branch_alone (hseparator : '@' ∉ branch.toList) (options : RangeOptions) :
    h.EndsAt (.one (branch ++ "@")) options h.IsBase := by
  have htext : branch ++ "@" = branch ++ "@" ++ "" := String.append_empty.symm
  have hvacant : h.Vacant "" := .missing
  rw [htext]
  refine endsAt_bases hbases hvacant.offset?_eq_none ?_
    (hvacant.branchBase?_eq_none (by decide)) options
  rw [revisions_one, termRevisions, term_qualified hseparator]
  rfl

theorem endsAt_branch_base (hlinked : h.nodes.Linked) (hroot : h.lookup branch = .ok root)
    (options : RangeOptions) : h.EndsAt (.one (branch ++ "@base")) options
      fun id => h.IsBase id ∧ h.nodes.Descends root.id id where
  absolute := by
    have hvacant : h.Vacant "base" := .base
    have htext : branch ++ "@base" = branch ++ "@" ++ "base" := by
      rw [String.append_assoc]
      rfl
    rw [htext]
    exact hvacant.offset?_eq_none
  requested := revisions_branchBase (separator_not_mem_of_lookup hroot)
  boundary := fun uppers => lowerBoundary_branch hlinked hbases hroot options uppers []
  bases := fun _ hid => hid.1

end Spellings

/-- Leaving out bases leaves something out of a space unless none of them is below it. -/
theorem between_bases_iff {kept : RevisionId → Prop} :
    (∀ id, h.Between uppers h.IsBase id ↔ h.Between uppers (fun id => h.IsBase id ∧ kept id) id) ↔
      ∀ u ∈ uppers, ∀ id, h.IsBase id → h.nodes.Descends u.id id → kept id := by
  constructor
  · intro hsame u hu id hbase hunder
    obtain ⟨-, l, ⟨hlbase, hkept⟩, hdescends⟩ :=
      (hsame id).mp ⟨⟨u, hu, hunder⟩, id, hbase, .refl id⟩
    exact apart_bases id l hbase hlbase hdescends ▸ hkept
  · intro hall id
    constructor
    · intro hbetween
      obtain ⟨⟨u, hu, hunder⟩, l, hbase, hdescends⟩ := hbetween
      exact ⟨⟨u, hu, hunder⟩, l, ⟨hbase, hall u hu l hbase (hunder.trans hdescends)⟩, hdescends⟩
    · intro hbetween
      obtain ⟨habove, l, ⟨hbase, -⟩, hdescends⟩ := hbetween
      exact ⟨habove, l, hbase, hdescends⟩

/-- As a lower bound a branch with nothing after its separator does what `base` does: the range
runs down to all bases. With `base` after its separator it runs down to the bases under the branch.
So the two bound the same range, with the same revisions or the same kind of failure, exactly when
every base under the upper bounds lies under the branch. Upper bounds that are not found or reach
each other fail alike. -/
theorem base_spellings_bound (hreached : Reached Revision.Fresh h) (hacyclic : h.nodes.Acyclic)
    (hroot : h.Means branch root) (hupper : upper.offset? = none) (options : RangeOptions) :
    SameOutcome (h.range upper (.one (branch ++ "@")) options)
        (h.range upper (.one "base") options) ∧
    (∀ uppers, h.revisions upper = .ok uppers → h.separate .ancestors uppers = .ok () →
      h.RunsDownTo upper (.one (branch ++ "@")) options uppers [] h.IsBase ∧
      h.RunsDownTo upper (.one (branch ++ "@base")) options uppers []
        fun id => h.IsBase id ∧ h.nodes.Descends root.id id) ∧
    (SameOutcome (h.range upper (.one (branch ++ "@")) options)
        (h.range upper (.one (branch ++ "@base")) options) ↔
      ∀ uppers, h.revisions upper = .ok uppers → h.separate .ancestors uppers = .ok () →
        ∀ u ∈ uppers, ∀ id, h.IsBase id → h.nodes.Descends u.id id →
          h.nodes.Descends root.id id) := by
  have hlinked := hreached.linked
  have hlookup := hreached.lookup_eq_ok_iff.mpr hroot
  have hseparator := separator_not_mem_of_lookup hlookup
  have halone := endsAt_branch_alone hreached.mem_bases hseparator options
  have hbranch := endsAt_branch_base hreached.mem_bases hlinked hlookup options
  have hall := endsAt_base hreached.mem_bases options
  refine ⟨?_, fun uppers huppers hapart => ⟨?_, ?_⟩, ?_⟩
  · exact (halone.sameOutcome_iff hall hlinked hacyclic hupper).mpr fun _ _ _ _ => Iff.rfl
  · exact halone.runsDownTo hlinked hacyclic hupper huppers hapart
  · exact hbranch.runsDownTo hlinked hacyclic hupper huppers hapart
  · rw [halone.sameOutcome_iff hbranch hlinked hacyclic hupper]
    simp only [between_bases_iff]

/-- On a diamond there is one base, and it lies under both arms. -/
theorem base_spellings_on_diamond :
    ∃ h root, build Config.default Sample.diamond = .ok h ∧ h.nodes.Acyclic ∧
      h.Means "b" root ∧ (Selector.one "d").offset? = none ∧
      SameOutcome (h.range (.one "d") (.one ("b" ++ "@")) ⟨true, false⟩)
        (h.range (.one "d") (.one "base") ⟨true, false⟩) ∧
      SameOutcome (h.range (.one "d") (.one ("b" ++ "@")) ⟨true, false⟩)
        (h.range (.one "d") (.one ("b" ++ "@base")) ⟨true, false⟩) := by
  have hbuilt : Reached Revision.Admissible _ :=
    @Reached.build _ Config.default Sample.diamond _ (Sample.revisions_admissible (by decide)) rfl
  have hmeans := (@Reached.lookup_eq_ok_iff _
    ⟨Sample.b, [Sample.a], [Sample.d], [], []⟩ "b" _ hbuilt).mp rfl
  have honly : ∀ r ∈ (ofRevisions Sample.diamond).link.relabel.elements, r.parents = [] →
      r.id = Sample.a := by decide
  have habsolute : (Selector.one "d").offset? = none := by decide
  obtain ⟨hall, -, hagree⟩ :=
    base_spellings_bound hbuilt.fresh Sample.diamond_acyclic hmeans habsolute ⟨true, false⟩
  refine ⟨_, _, rfl, Sample.diamond_acyclic, hmeans, habsolute, hall, hagree.mpr ?_⟩
  intro uppers _ _ u _ id hbase _
  obtain ⟨r, hr, rfl, hbase⟩ := hbase
  rw [honly r hr hbase]
  decide

/-- Where the upper bound stands on a base beside the branch, only one spelling reaches it. -/
theorem base_spellings_differ :
    ∃ h root range other listed fewer, Reached Revision.Fresh h ∧ h.nodes.Acyclic ∧
      build Config.default (Sample.revisions
        [(Sample.a, [], []), (Sample.b, [], []), (Sample.c, [Sample.a, Sample.b], [])]) = .ok h ∧
      h.Means "a" root ∧ (Selector.one "c").offset? = none ∧
      h.range (.one "c") (.one ("a" ++ "@")) ⟨true, false⟩ = .ok range ∧ range.Emits listed ∧
      listed.map Revision.id = [Sample.c, Sample.a, Sample.b] ∧
      h.range (.one "c") (.one ("a" ++ "@base")) ⟨true, false⟩ = .ok other ∧ other.Emits fewer ∧
      fewer.map Revision.id = [Sample.c, Sample.a] ∧
      ¬ SameOutcome (h.range (.one "c") (.one ("a" ++ "@")) ⟨true, false⟩)
        (h.range (.one "c") (.one ("a" ++ "@base")) ⟨true, false⟩) := by
  have hbuilt : Reached Revision.Admissible _ := @Reached.build _ Config.default
    (Sample.revisions [(Sample.a, [], []), (Sample.b, [], []),
      (Sample.c, [Sample.a, Sample.b], [])]) _ (Sample.revisions_admissible (by decide)) rfl
  have hacyclic : (ofRevisions (Sample.revisions [(Sample.a, [], []), (Sample.b, [], []),
      (Sample.c, [Sample.a, Sample.b], [])])).link.relabel.Acyclic :=
    acyclic_of_rank [Sample.a, Sample.b].idxOf (by decide)
  have hmeans := (@Reached.lookup_eq_ok_iff _
    ⟨Sample.a, [], [Sample.c], [], []⟩ "a" _ hbuilt).mp rfl
  refine ⟨_, _, _, _, _, _, hbuilt.fresh, hacyclic, rfl, hmeans, by decide, rfl,
    .next rfl (.next rfl (.next rfl (.done rfl))), rfl, rfl, .next rfl (.next rfl (.done rfl)),
    rfl, ?_⟩
  intro hsame
  have hlisted := hsame.listed_eq (.next rfl (.next rfl (.next rfl (.done rfl))))
    (.next rfl (.next rfl (.done rfl)))
  cases congrArg List.length hlisted

end MigrationHistory.History
