import MigrationHistory.Proofs.RangeOrder

/-!
# A range, arm by arm

The walk of a range mixes two disciplines in one queue: an arm goes on at the front, forks
wait at the back. A clean account keeps them apart. The roots wait in a queue; the first of
them is taken, its arm is listed in preorder, and the forks that the arm shows are queued,
each when it is met first. Main statement: every inclusive range with absolute bounds lists
what this account lists, and the exclusive range the same without the requested lower
revisions.
-/
namespace MigrationHistory

/-- `listed` is the preorder, from left to right, of the trees under the roots. -/
inductive Preorder {α : Type} (next : α → List α) : List α → List α → Prop
  | nil : Preorder next [] []
  | cons {x : α} {xs below rest : List α} (hbelow : Preorder next (next x) below)
      (hrest : Preorder next xs rest) : Preorder next (x :: xs) (x :: (below ++ rest))

theorem Preorder.eq {α : Type} {next : α → List α} {roots xs ys : List α}
    (hxs : Preorder next roots xs) (hys : Preorder next roots ys) : xs = ys := by
  induction hxs generalizing ys with
  | nil =>
    cases hys
    rfl
  | cons _ _ ihbelow ihrest =>
    cases hys with
    | cons hbelow hrest => rw [ihbelow hbelow, ihrest hrest]

/-- The forks among the ids that were never queued, each where it is met first. -/
def newlyMet (forks : List RevisionId) : List RevisionId → List RevisionId → List RevisionId
  | _, [] => []
  | queued, id :: ids =>
    if id ∈ forks ∧ id ∉ queued then id :: newlyMet forks (queued ++ [id]) ids
    else newlyMet forks queued ids

theorem newlyMet_eq (forks queued ids : List RevisionId) :
    newlyMet forks queued ids = distinct (ids.filter fun id => id ∈ forks && id ∉ queued) := by
  induction ids generalizing queued with
  | nil => rfl
  | cons id ids ih =>
    by_cases hmet : id ∈ forks ∧ id ∉ queued
    · have hlater : (ids.filter fun p => p ∈ forks && p ∉ queued ++ [id]) =
          (ids.filter fun p => p ∈ forks && p ∉ queued).filter (· ≠ id) := by
        rw [List.filter_filter]
        apply List.filter_congr
        intro p _
        simp only [List.mem_append, List.mem_singleton, not_or, Bool.decide_and]
        rw [Bool.and_comm (decide (p ∉ queued)), Bool.and_left_comm]
      rw [newlyMet, if_pos hmet, ih, hlater, distinct_filter,
        List.filter_cons_of_pos (by simp [hmet]), distinct_cons]
    · rw [newlyMet, if_neg hmet, ih, List.filter_cons_of_neg (by simpa using hmet)]

/-- A table with the space of a range in it and the forks of that space. -/
structure Region where
  nodes : Nodes
  space : List RevisionId
  forks : List RevisionId

namespace Region

/-- The parents of `r` in the space that are no forks, as they are declared. -/
def next (region : Region) (r : Revision) : List Revision :=
  region.nodes.select (r.parents.filter fun p => p ∈ region.space && p ∉ region.forks)

/-- From the roots that wait, with the ids that were ever queued, to what is listed: the arm
of the first root, and then whatever follows once the forks that the arm shows wait too. -/
inductive ArmByArm (region : Region) :
    List Revision → List RevisionId → List Revision → Prop
  | done (queued : List RevisionId) : ArmByArm region [] queued []
  | arm {root : Revision} {waiting arm rest : List Revision} {queued met : List RevisionId}
      (harm : Preorder region.next [root] arm)
      (hmet : met = newlyMet region.forks queued (arm.flatMap Revision.parents))
      (hrest : ArmByArm region (waiting ++ region.nodes.select met) (queued ++ met) rest) :
      ArmByArm region (root :: waiting) queued (arm ++ rest)

theorem ArmByArm.eq {region : Region} {waiting xs ys : List Revision} {queued : List RevisionId}
    (hxs : region.ArmByArm waiting queued xs) (hys : region.ArmByArm waiting queued ys) :
    xs = ys := by
  induction hxs generalizing ys with
  | done =>
    cases hys
    rfl
  | arm harm hmet _ ih =>
    cases hys with
    | arm harm' hmet' hrest' =>
      obtain rfl := harm.eq harm'
      obtain rfl := hmet.trans hmet'.symm
      rw [ih hrest']

end Region

namespace Walk

variable {w : Walk}

def region (w : Walk) : Region := ⟨w.nodes, w.space, w.forks⟩

/-- The arms of a walk are the preorders of its region. -/
theorem preorder_arms (hacyclic : w.nodes.Acyclic) {n : Nat} {rs : List Revision}
    (hrs : ∀ r ∈ rs, r ∈ w.nodes.elements ∧ w.nodes.height r.id < n) :
    Preorder w.region.next rs (rs.flatMap w.armOf) := by
  induction n generalizing rs with
  | zero =>
    cases rs with
    | nil => exact .nil
    | cons r rs => exact absurd (hrs r List.mem_cons_self).2 (Nat.not_lt_zero _)
  | succ n ih =>
    induction rs with
    | nil => exact .nil
    | cons r rs ihrs =>
      obtain ⟨hr, hheight⟩ := hrs r List.mem_cons_self
      have hbelow : Preorder w.region.next (w.region.next r)
          ((w.nodes.select (w.onArm r)).flatMap w.armOf) := by
        refine ih fun p hp => ?_
        obtain ⟨hmem, hlower⟩ := height_onArm hacyclic hr hp
        exact ⟨hmem, by omega⟩
      have hrest := ihrs fun s hs => hrs s (List.mem_cons_of_mem _ hs)
      rw [List.flatMap_cons, armOf_eq hacyclic hr]
      exact .cons hbelow hrest

/-- Met by a walk is what is newly met on the parents passed, as long as the same forks
were queued before. -/
theorem newlyMet_eq_met {queued : List RevisionId}
    (hqueued : ∀ fork ∈ w.forks, fork ∈ queued ↔ fork ∈ w.queued) (xs : List Revision) :
    newlyMet w.forks queued (xs.flatMap Revision.parents) = w.met xs := by
  rw [newlyMet_eq, met]
  congr 1
  apply List.filter_congr
  intro parent _
  by_cases hfork : parent ∈ w.forks
  · simp [hfork, hqueued parent hfork]
  · simp [hfork]

/-- From every state a walk passes what the account by arms lists. The induction is on the
arms that may still start. -/
theorem Grounded.armByArm_rootsWithin (hw : w.Grounded) {n : Nat} (hn : w.pending ≤ n)
    {queued : List RevisionId} (hqueued : ∀ fork ∈ w.forks, fork ∈ queued ↔ fork ∈ w.queued) :
    w.region.ArmByArm w.queue queued ((w.rootsWithin n).flatMap w.armOf) := by
  induction n generalizing w queued with
  | zero =>
    have hqueue : w.queue = [] := List.length_eq_zero_iff.mp (by unfold pending at hn; omega)
    rw [hqueue]
    exact .done queued
  | succ n ih =>
    cases hqueue : w.queue with
    | nil =>
      rw [rootsWithin_nil hqueue]
      exact .done queued
    | cons r rest =>
      have hlower := pending_after (w.armOf r) hqueue
      have hr := hw.queue_mem r (by simp [hqueue])
      have hroot : ∀ s ∈ [r], s ∈ w.nodes.elements ∧
          w.nodes.height s.id < w.nodes.height r.id + 1 := by
        simp [hr]
      have harm := preorder_arms hw.acyclic hroot
      have hnext : (w.after (w.armOf r) rest).Grounded :=
        hw.after fun s hs => hw.queue_mem s (by simp [hqueue, hs])
      have hsame : ∀ fork ∈ w.forks, fork ∈ queued ++ w.met (w.armOf r) ↔
          fork ∈ w.queued ++ w.met (w.armOf r) := by
        intro fork hfork
        rw [List.mem_append, List.mem_append, hqueued fork hfork]
      have hlater := ih hnext (by omega) hsame
      rw [List.flatMap_singleton] at harm
      rw [armOf_after] at hlater
      rw [rootsWithin_cons hqueue, List.flatMap_cons]
      exact .arm harm (newlyMet_eq_met hqueued _).symm hlater

theorem Grounded.armByArm (hw : w.Grounded) {queued : List RevisionId}
    (hqueued : ∀ fork ∈ w.forks, fork ∈ queued ↔ fork ∈ w.queued) :
    w.region.ArmByArm w.queue queued w.passed := hw.armByArm_rootsWithin w.pending_le hqueued

end Walk

namespace History

open Nodes

variable {h : History}

/-- Several of the children recorded under `id` lie in the space. -/
def Branches (h : History) (space : List RevisionId) (id : RevisionId) : Prop :=
  ∃ r ∈ h.nodes.elements, r.id = id ∧
    ∃ c ∈ r.children, ∃ d ∈ r.children, c ∈ space ∧ d ∈ space ∧ c ≠ d

/-- The forks of a space are where it branches. -/
theorem mem_forksOf_iff_branches (hlinked : h.nodes.Linked) {space : List RevisionId}
    {id : RevisionId} : id ∈ h.forksOf space ↔ id ∈ space ∧ h.Branches space id := by
  rw [mem_forksOf]
  refine and_congr_right fun _ => exists_congr fun r => and_congr_right fun hr =>
    and_congr_right fun _ => ?_
  have hmem : ∀ c, c ∈ r.children.filter (fun child => child ∈ space) ↔
      c ∈ r.children ∧ c ∈ space := by simp
  constructor
  · intro hmany
    have hnodup := (hlinked.children_nodup r hr).sublist
      (List.filter_sublist (p := fun child => child ∈ space))
    obtain ⟨c, hc, -⟩ := exists_ne_of_nodup hnodup hmany r.id
    obtain ⟨d, hd, hne⟩ := exists_ne_of_nodup hnodup hmany c
    rw [hmem] at hc hd
    exact ⟨c, hc.1, d, hd.1, hc.2, hd.2, hne.symm⟩
  · rintro ⟨c, hc, d, hd, hcspace, hdspace, hne⟩
    by_contra hfew
    exact hne (eq_of_length_le_one (by omega) ((hmem c).mpr ⟨hc, hcspace⟩)
      ((hmem d).mpr ⟨hd, hdspace⟩))

/-- When no revision ever names itself, a space branches at what two of its revisions name. -/
theorem Reached.branches_iff (hreached : Reached Revision.Admissible h)
    {space : List RevisionId} {id : RevisionId} : h.Branches space id ↔
      ∃ c ∈ space, ∃ d ∈ space, c ≠ d ∧ h.nodes.Names c id ∧ h.nodes.Names d id := by
  have hchild : ∀ r ∈ h.nodes.elements, ∀ c, c ∈ r.children ↔ h.nodes.Names c r.id := by
    intro r hr c
    rw [hreached.fresh.linked.mem_children_iff hreached.loopFree hr,
      names_iff_mem_namers (id_mem_keys hr)]
  constructor
  · rintro ⟨r, hr, rfl, c, hc, d, hd, hcspace, hdspace, hne⟩
    exact ⟨c, hcspace, d, hdspace, hne, (hchild r hr c).mp hc, (hchild r hr d).mp hd⟩
  · rintro ⟨c, hcspace, d, hdspace, hne, hc, hd⟩
    obtain ⟨r, hr, rfl⟩ := mem_keys.mp hc.1
    exact ⟨r, hr, rfl, c, (hchild r hr c).mpr hc, d, (hchild r hr d).mpr hd, hcspace, hdspace, hne⟩

/-- An inclusive range and the exclusive one walk between the same bounds; they differ in what
they skip. -/
theorem absoluteWalk_inclusive_eq_ok {upper lower : Selector} {implicitBase : Bool} {w : Walk}
    (hok : h.absoluteWalk upper lower ⟨true, implicitBase⟩ = .ok w) :
    ∃ requested uppers boundary, h.revisions lower = .ok requested ∧
      h.revisions upper = .ok uppers ∧
      h.lowerBoundary ⟨true, implicitBase⟩ lower uppers requested = .ok boundary ∧
      w = h.walkBetween uppers (distinctOn Revision.id boundary) [] ∧
      h.absoluteWalk upper lower ⟨false, implicitBase⟩ =
        .ok (h.walkBetween uppers (distinctOn Revision.id boundary)
          (requested.map Revision.id)) := by
  have hparts := hok
  unfold absoluteWalk at hparts
  obtain ⟨requested, hlower, hparts⟩ := bind_eq_ok.mp hparts
  obtain ⟨uppers, hupper, hparts⟩ := bind_eq_ok.mp hparts
  obtain ⟨⟨⟩, hapart, hparts⟩ := bind_eq_ok.mp hparts
  obtain ⟨boundary, hboundary, hparts⟩ := bind_eq_ok.mp hparts
  obtain ⟨⟨⟩, hbelow, -⟩ := bind_eq_ok.mp hparts
  -- the lower boundary does not depend on whether the range is inclusive
  have hsame : h.lowerBoundary ⟨false, implicitBase⟩ lower uppers requested = .ok boundary :=
    hboundary
  refine ⟨requested, uppers, boundary, hlower, hupper, hboundary, ?_⟩
  rw [absoluteWalk_eq hlower hupper hapart hboundary hbelow] at hok
  rw [absoluteWalk_eq hlower hupper hapart hsame hbelow]
  by_cases hempty : (h.space uppers (distinctOn Revision.id boundary)).isEmpty
  · rw [if_pos hempty] at hok
    cases hok
  · rw [if_neg hempty] at hok ⊢
    exact ⟨(Except.ok.inj hok).symm, rfl⟩

/-- The walk between bounds passes what the account by arms lists when the upper bounds in the
space are the roots that wait at first. -/
theorem walkBetween_armByArm {uppers lowers : List Revision} {skipped : List RevisionId}
    (hw : (h.walkBetween uppers lowers skipped).Proper) :
    (h.walkBetween uppers lowers skipped).region.ArmByArm
      (uppers.filter fun r => r.id ∈ h.space uppers lowers)
      ((uppers.filter fun r => r.id ∈ h.space uppers lowers).map Revision.id)
      (h.walkBetween uppers lowers skipped).passed := by
  refine hw.grounded.armByArm fun fork hfork => ?_
  simp only [walkBetween] at hfork ⊢
  rw [List.mem_filter, decide_eq_true_eq, and_iff_left hfork]

/-- A walk that skips nothing lists all that it passes. -/
theorem walkBetween_listed_all (uppers lowers rs : List Revision) :
    (h.walkBetween uppers lowers []).listed rs = rs := by
  simp [Walk.listed, walkBetween]

/-- An inclusive range with absolute bounds lists what lies between them arm by arm: the
preorder of one root's arm after the other, while the forks that the arms show wait as roots
in the order in which they are met. The exclusive range lists the same without the requested
lower revisions. -/
theorem range_arm_by_arm (hreached : Reached Revision.Fresh h) (hacyclic : h.nodes.Acyclic)
    {upper lower : Selector} {implicitBase : Bool} {range : Range}
    (hupper : upper.offset? = none) (hlower : lower.offset? = none)
    (hok : h.range upper lower ⟨true, implicitBase⟩ = .ok range) :
    ∃ requested uppers boundary, h.revisions lower = .ok requested ∧
      h.revisions upper = .ok uppers ∧
      h.lowerBoundary ⟨true, implicitBase⟩ lower uppers requested = .ok boundary ∧
      ∃ region : Region, region.nodes = h.nodes ∧
        (∀ id, id ∈ region.space ↔ h.Between uppers (· ∈ boundary.map Revision.id) id) ∧
        (∀ id, id ∈ region.forks ↔ id ∈ region.space ∧ h.Branches region.space id) ∧
        ∃ starts listed, starts = uppers.filter (fun r => r.id ∈ region.space) ∧
          (∀ rs, region.ArmByArm starts (starts.map Revision.id) rs ↔ rs = listed) ∧
          range.Emits listed ∧
          ∃ exclusive, h.range upper lower ⟨false, implicitBase⟩ = .ok exclusive ∧
            exclusive.Emits (listed.filter fun r => r.id ∉ requested.map Revision.id) := by
  have hlinked := hreached.linked
  rw [range_absolute hupper hlower] at hok
  cases hwalk : h.absoluteWalk upper lower ⟨true, implicitBase⟩ with
  | error e =>
    rw [hwalk] at hok
    cases hok
  | ok w =>
    rw [hwalk] at hok
    cases hok
    obtain ⟨requested, uppers, boundary, hrequested, huppers, hboundary, rfl, hexclusive⟩ :=
      absoluteWalk_inclusive_eq_ok hwalk
    have hproper := absoluteWalk_proper hlinked hacyclic hwalk
    have hproper' := absoluteWalk_proper hlinked hacyclic hexclusive
    have harms := walkBetween_armByArm hproper
    have hlowers : ∀ r ∈ distinctOn Revision.id boundary, r ∈ h.nodes.elements := fun r hr =>
      lowerBoundary_mem (revisions_mem hrequested) hboundary r (mem_of_mem_distinctOn hr)
    have hends : (· ∈ (distinctOn Revision.id boundary).map Revision.id) =
        (· ∈ boundary.map Revision.id) := funext fun _ => propext mem_map_distinctOn
    have hskips : h.range upper lower ⟨false, implicitBase⟩ = .ok (.walk
        (h.walkBetween uppers (distinctOn Revision.id boundary) (requested.map Revision.id))) := by
      rw [range_absolute hupper hlower, hexclusive]
      rfl
    refine ⟨requested, uppers, boundary, hrequested, huppers, hboundary, _, rfl, fun id => ?_,
      fun id => mem_forksOf_iff_branches hlinked, _, _, rfl,
      fun rs => ⟨fun hrs => hrs.eq harms, fun hrs => hrs ▸ harms⟩, ?_, _, hskips, ?_⟩
    · rw [← hends]
      exact mem_space hlinked (revisions_mem huppers) hlowers
    · have hemits := hproper.grounded.emits
      rwa [walkBetween_listed_all] at hemits
    · -- the account does not see what is skipped: both walks pass the same revisions
      have harms' := walkBetween_armByArm hproper'
      rw [harms.eq harms']
      exact hproper'.grounded.emits

/-- From the merge of a diamond down to its fork: one arm holds the merge and both branches,
the fork is the root of the other. -/
theorem arm_by_arm_on_diamond :
    ∃ h range, History.build Config.default Sample.diamond = .ok h ∧ h.nodes.Acyclic ∧
      (Selector.one "d").offset? = none ∧ (Selector.one "a").offset? = none ∧
      h.range (.one "d") (.one "a") ⟨true, false⟩ = .ok range ∧
      ∃ region : Region, ∃ starts listed,
        (∀ rs, region.ArmByArm starts (starts.map Revision.id) rs ↔ rs = listed) ∧
        range.Emits listed ∧
        listed.map Revision.id = [Sample.d, Sample.b, Sample.c, Sample.a] ∧
        ∃ exclusive, h.range (.one "d") (.one "a") ⟨false, false⟩ = .ok exclusive ∧
          exclusive.Emits (listed.filter fun r => r.id ∉ [Sample.a]) := by
  have hbuilt : Reached Revision.Admissible _ :=
    @Reached.build _ Config.default Sample.diamond _ (Sample.revisions_admissible (by decide)) rfl
  refine ⟨_, _, rfl, Sample.diamond_acyclic, by decide, by decide, rfl, ?_⟩
  obtain ⟨requested, uppers, boundary, hrequested, -, -, region, -, -, -, starts, listed, -, harms,
    hemits, hexclusive⟩ := @range_arm_by_arm _ hbuilt.fresh Sample.diamond_acyclic (.one "d")
      (.one "a") false _ (by decide) (by decide) rfl
  obtain rfl := Except.ok.inj hrequested
  have hwalk := @absoluteWalk_proper _ hbuilt.fresh.linked Sample.diamond_acyclic (.one "d")
    (.one "a") ⟨true, false⟩ _ rfl
  obtain rfl := hemits.eq hwalk.grounded.emits
  exact ⟨region, starts, _, harms, hemits, rfl, hexclusive⟩

end History

end MigrationHistory
