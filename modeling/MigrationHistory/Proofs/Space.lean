import MigrationHistory.Proofs.Placement
import MigrationHistory.Proofs.Proper
import MigrationHistory.Proofs.Resolution

/-!
# The space of a range

The space of a range holds what descends from its lower boundary and has an upper bound
descend from it. Bounds that reach each other are refused, so that the upper bounds stand on
top of the space. Main statement: on linked tables without cycles every range with absolute
bounds takes a proper walk.
-/
namespace MigrationHistory.History

open Nodes

variable {h : History} {uppers lowers : List Revision} {id : RevisionId}

def walkBetween (h : History) (uppers lowers : List Revision) (skipped : List RevisionId) :
    Walk where
  nodes := h.nodes
  space := h.space uppers lowers
  forks := h.forksOf (h.space uppers lowers)
  skipped := skipped
  queue := uppers.filter fun r => r.id ∈ h.space uppers lowers
  queued := ((uppers.filter fun r => r.id ∈ h.space uppers lowers).map Revision.id).filter
    fun id => id ∈ h.forksOf (h.space uppers lowers)

/-- The revisions that a range passes through. -/
def RangeOptions.skipped (options : RangeOptions) (requested : List Revision) :
    List RevisionId :=
  if options.inclusive then [] else requested.map Revision.id

section Bounds

variable {d : Direction} {rs : List Revision}

theorem separate_eq_ok_iff : h.separate d rs = .ok () ↔
    ∀ a ∈ rs, ∀ b ∈ rs, b.id ≠ a.id → b.id ∉ h.nodes.closureIds d a := by
  have hnone : h.separate d rs = .ok () ↔ h.nodes.overlapping? d rs = none := by
    unfold separate
    cases h.nodes.overlapping? d rs <;> simp
  rw [hnone, overlapping?, List.find?_eq_none]
  simp [reachesOther]

/-- What a range with absolute bounds comes to once its bounds are found and kept apart. -/
theorem absoluteWalk_eq {upper lower : Selector} {options : RangeOptions}
    {requested boundary : List Revision} (hlower : h.revisions lower = .ok requested)
    (hupper : h.revisions upper = .ok uppers) (hapart : h.separate .ancestors uppers = .ok ())
    (hboundary : h.lowerBoundary options lower uppers requested = .ok boundary)
    (hbelow : h.separate .descendants (distinctOn Revision.id boundary) = .ok ()) :
    h.absoluteWalk upper lower options =
      if (h.space uppers (distinctOn Revision.id boundary)).isEmpty then
        .error (.rangeNotAncestor lower.display upper.display)
      else .ok (h.walkBetween uppers (distinctOn Revision.id boundary)
        (RangeOptions.skipped options requested)) := by
  simp only [absoluteWalk, hlower, hupper, hapart, hboundary, hbelow, bind, Except.bind]
  split <;> rfl

/-- A range with absolute bounds succeeds when its bounds are found and kept apart and something
lies between them. -/
theorem absoluteWalk_eq_ok_iff {upper lower : Selector} {options : RangeOptions} {w : Walk} :
    h.absoluteWalk upper lower options = .ok w ↔
      ∃ requested uppers boundary, h.revisions lower = .ok requested ∧
        h.revisions upper = .ok uppers ∧ h.separate .ancestors uppers = .ok () ∧
        h.lowerBoundary options lower uppers requested = .ok boundary ∧
        h.separate .descendants (distinctOn Revision.id boundary) = .ok () ∧
        h.space uppers (distinctOn Revision.id boundary) ≠ [] ∧
        w = h.walkBetween uppers (distinctOn Revision.id boundary)
          (RangeOptions.skipped options requested) := by
  constructor
  · intro hok
    have hcopy := hok
    unfold absoluteWalk at hok
    obtain ⟨requested, hlower, hok⟩ := bind_eq_ok.mp hok
    obtain ⟨uppers, hupper, hok⟩ := bind_eq_ok.mp hok
    obtain ⟨⟨⟩, hapart, hok⟩ := bind_eq_ok.mp hok
    obtain ⟨boundary, hboundary, hok⟩ := bind_eq_ok.mp hok
    obtain ⟨⟨⟩, hbelow, hok⟩ := bind_eq_ok.mp hok
    rw [absoluteWalk_eq hlower hupper hapart hboundary hbelow] at hcopy
    split at hcopy
    · cases hcopy
    · rename_i hspace
      refine ⟨requested, uppers, boundary, hlower, hupper, hapart, hboundary, hbelow, ?_, ?_⟩
      · exact fun hnil => hspace (List.isEmpty_iff.mpr hnil)
      · exact (Except.ok.inj hcopy).symm
  · rintro ⟨requested, uppers, boundary, hlower, hupper, hapart, hboundary, hbelow, hspace, rfl⟩
    rw [absoluteWalk_eq hlower hupper hapart hboundary hbelow, if_neg]
    exact fun hempty => hspace (List.isEmpty_iff.mp hempty)

/-- A range that succeeds found its bounds and kept them apart. -/
theorem absoluteWalk_eq_ok {upper lower : Selector} {options : RangeOptions} {w : Walk}
    (hok : h.absoluteWalk upper lower options = .ok w) :
    ∃ requested uppers boundary, h.revisions lower = .ok requested ∧
      h.revisions upper = .ok uppers ∧ h.separate .ancestors uppers = .ok () ∧
      h.lowerBoundary options lower uppers requested = .ok boundary ∧
      w = h.walkBetween uppers (distinctOn Revision.id boundary)
        (RangeOptions.skipped options requested) := by
  obtain ⟨requested, uppers, boundary, hlower, hupper, hapart, hboundary, -, -, hw⟩ :=
    absoluteWalk_eq_ok_iff.mp hok
  exact ⟨requested, uppers, boundary, hlower, hupper, hapart, hboundary, hw⟩

theorem lowerBoundary_mem {options : RangeOptions} {lower : Selector}
    {requested boundary : List Revision} (hrequested : ∀ r ∈ requested, r ∈ h.nodes.elements)
    (hok : h.lowerBoundary options lower uppers requested = .ok boundary) :
    ∀ r ∈ boundary, r ∈ h.nodes.elements := by
  intro r hr
  unfold lowerBoundary at hok
  split at hok
  · obtain ⟨bases, -, hbases⟩ := bind_eq_ok.mp hok
    exact revisions_mem hbases r hr
  · split at hok
    · cases hok
      exact (mem_select.mp hr).1
    · split at hok
      · cases hok
        rcases List.mem_append.mp hr with hroot | hr
        · exact (mem_select.mp (List.mem_filter.mp hroot).1).1
        · exact hrequested r hr
      · cases hok
        exact hrequested r hr

end Bounds

section Space

theorem mem_map_closures {nodes : Nodes} {d : Direction} {starts : List Revision} :
    id ∈ (nodes.closures d starts).map Revision.id ↔
      ∃ start ∈ starts, id ∈ nodes.closureIds d start := by
  rw [closures, List.map_flatMap, List.mem_flatMap]
  rfl

/-- An upper bound descends from `id`, and `id` descends from a lower end. -/
def Between (h : History) (uppers : List Revision) (ends : RevisionId → Prop)
    (id : RevisionId) : Prop :=
  (∃ u ∈ uppers, h.nodes.Descends u.id id) ∧ ∃ l, ends l ∧ h.nodes.Descends id l

theorem Between.mem_keys {ends : RevisionId → Prop} (hbetween : h.Between uppers ends id)
    (huppers : ∀ r ∈ uppers, r ∈ h.nodes.elements) : id ∈ h.nodes.keys := by
  obtain ⟨⟨u, hu, hdescends⟩, -⟩ := hbetween
  exact hdescends.mem_right (id_mem_keys (huppers u hu))

theorem mem_space (hlinked : h.nodes.Linked) (huppers : ∀ r ∈ uppers, r ∈ h.nodes.elements)
    (hlowers : ∀ r ∈ lowers, r ∈ h.nodes.elements) :
    id ∈ h.space uppers lowers ↔ h.Between uppers (· ∈ lowers.map Revision.id) id := by
  simp only [space, List.mem_filter, mem_distinct, decide_eq_true_eq, mem_map_closures]
  refine and_congr (exists_congr fun u => and_congr_right fun hu => ?_) ?_
  · exact mem_ancestors (huppers u hu)
  · constructor
    · rintro ⟨l, hl, hreach⟩
      exact ⟨l.id, List.mem_map_of_mem hl, (hlinked.mem_descendants (hlowers l hl)).mp hreach⟩
    · rintro ⟨_, hid, hdescends⟩
      obtain ⟨l, hl, rfl⟩ := List.mem_map.mp hid
      exact ⟨l, hl, (hlinked.mem_descendants (hlowers l hl)).mpr hdescends⟩

theorem mem_forksOf {space : List RevisionId} : id ∈ h.forksOf space ↔
    id ∈ space ∧ ∃ r ∈ h.nodes.elements, r.id = id ∧
      1 < (r.children.filter fun child => child ∈ space).length := by
  simp only [forksOf, List.mem_map, List.mem_filter, mem_select, decide_eq_true_eq]
  constructor
  · rintro ⟨r, ⟨⟨hr, hspace⟩, hcount⟩, rfl⟩
    exact ⟨hspace, r, hr, rfl, hcount⟩
  · rintro ⟨hspace, r, hr, rfl, hcount⟩
    exact ⟨r, ⟨⟨hr, hspace⟩, hcount⟩, rfl⟩

section Children

variable {space : List RevisionId} {p : Revision}

theorem mem_children_in_space (hlinked : h.nodes.Linked) (hp : p ∈ h.nodes.elements)
    {c : RevisionId} (hne : c ≠ p.id) :
    c ∈ p.children.filter (fun child => child ∈ space) ↔ c ∈ space ∧ h.nodes.Names c p.id := by
  rw [List.mem_filter, hlinked.mem_children p hp c hne, names_iff_mem_namers (id_mem_keys hp),
    decide_eq_true_eq, and_comm]

/-- A fork is named by another revision of the space. -/
theorem named_of_fork (hlinked : h.nodes.Linked) (hp : p ∈ h.nodes.elements)
    (hfork : p.id ∈ h.forksOf space) : ∃ c ∈ space, h.nodes.Names c p.id := by
  obtain ⟨-, r, hr, hid, hcount⟩ := mem_forksOf.mp hfork
  obtain rfl := h.nodes.eq_of_key_eq hr hp hid
  have hnodup := (hlinked.children_nodup r hr).sublist
    (List.filter_sublist (p := fun child => child ∈ space))
  obtain ⟨c, hc, hne⟩ := exists_ne_of_nodup hnodup hcount r.id
  exact ⟨c, (mem_children_in_space hlinked hr hne).mp hc⟩

/-- What is no fork is named by one revision of the space at most. -/
theorem named_once_of_not_fork (hlinked : h.nodes.Linked) (hacyclic : h.nodes.Acyclic)
    (hp : p ∈ h.nodes.elements) (hspace : p.id ∈ space) (hfork : p.id ∉ h.forksOf space)
    {c d : RevisionId} (hc : c ∈ space) (hd : d ∈ space) (hcnames : h.nodes.Names c p.id)
    (hdnames : h.nodes.Names d p.id) : c = d := by
  have hcount : (p.children.filter fun child => child ∈ space).length ≤ 1 := by
    by_contra hmany
    exact hfork (mem_forksOf.mpr ⟨hspace, p, hp, rfl, by omega⟩)
  apply eq_of_length_le_one hcount
  · exact (mem_children_in_space hlinked hp (hacyclic.ne_of_names hcnames)).mpr ⟨hc, hcnames⟩
  · exact (mem_children_in_space hlinked hp (hacyclic.ne_of_names hdnames)).mpr ⟨hd, hdnames⟩

end Children

/-- An upper bound below another one is refused, so that no bound is named from the space. -/
theorem not_names_upper (hlinked : h.nodes.Linked) (hacyclic : h.nodes.Acyclic)
    (huppers : ∀ r ∈ uppers, r ∈ h.nodes.elements)
    (hlowers : ∀ r ∈ lowers, r ∈ h.nodes.elements)
    (hapart : h.separate .ancestors uppers = .ok ()) {r : Revision} (hr : r ∈ uppers)
    {c : RevisionId} (hc : c ∈ h.space uppers lowers) : ¬ h.nodes.Names c r.id := by
  intro hnames
  obtain ⟨⟨u, hu, hdescends⟩, -⟩ := (mem_space hlinked huppers hlowers).mp hc
  by_cases hid : r.id = u.id
  · exact hacyclic.not_descends hnames (hid ▸ hdescends)
  · refine separate_eq_ok_iff.mp hapart u hu r hr hid ?_
    exact (mem_ancestors (huppers u hu)).mpr (hdescends.trans (.of_names hnames))

/-- On linked tables without cycles the walk between bounds that are kept apart is proper. -/
theorem walkBetween_proper (hlinked : h.nodes.Linked) (hacyclic : h.nodes.Acyclic)
    (huppers : ∀ r ∈ uppers, r ∈ h.nodes.elements)
    (hlowers : ∀ r ∈ lowers, r ∈ h.nodes.elements)
    (hapart : h.separate .ancestors uppers = .ok ()) (skipped : List RevisionId) :
    (h.walkBetween uppers lowers skipped).Proper := by
  have hspace : ∀ {id}, id ∈ h.space uppers lowers ↔
      h.Between uppers (· ∈ lowers.map Revision.id) id := mem_space hlinked huppers hlowers
  have hkeys : ∀ id ∈ h.space uppers lowers, id ∈ h.nodes.keys :=
    fun _ hid => (hspace.mp hid).mem_keys huppers
  have htop : ∀ r ∈ uppers, ∀ c ∈ h.space uppers lowers, ¬ h.nodes.Names c r.id :=
    fun r hr c hc => not_names_upper hlinked hacyclic huppers hlowers hapart hr hc
  constructor
  case acyclic => exact hacyclic
  case space_mem => exact hkeys
  case forks_mem => exact fun id hid => (mem_forksOf.mp hid).1
  case queue_mem =>
    intro r hr
    obtain ⟨hr, hmem⟩ := List.mem_filter.mp hr
    exact ⟨huppers r hr, of_decide_eq_true hmem⟩
  case on_top => exact fun r hr => htop r (List.mem_filter.mp hr).1
  case queued =>
    rw [walkBetween, List.filter_eq_nil_iff]
    intro id hid hfork
    obtain ⟨r, hr, rfl⟩ := List.mem_map.mp hid
    have hupper := (List.mem_filter.mp hr).1
    obtain ⟨c, hc, hnames⟩ :=
      named_of_fork hlinked (huppers r hupper) (of_decide_eq_true hfork)
    exact htop r hupper c hc hnames
  case single =>
    intro p hp hfork c hc d hd hcnames hdnames
    obtain ⟨r, hr, rfl⟩ := mem_keys.mp (hkeys p hp)
    exact named_once_of_not_fork hlinked hacyclic hr hp hfork hc hd hcnames hdnames
  case covered =>
    intro p hp
    obtain ⟨⟨u, hu, hdescends⟩, l, hl, hbelow⟩ := hspace.mp hp
    rcases Relation.ReflTransGen.cases_tail hdescends with rfl | ⟨c, hreach, hnames⟩
    · exact .inl ⟨u, List.mem_filter.mpr ⟨hu, decide_eq_true hp⟩, rfl⟩
    · exact .inr ⟨c, hspace.mpr ⟨⟨u, hu, hreach⟩, l, hl, .trans (.of_names hnames) hbelow⟩, hnames⟩

/-- In a run over fresh revisions that comes to no cycle, every range with absolute bounds
takes a proper walk. -/
theorem absoluteWalk_proper (hlinked : h.nodes.Linked) (hacyclic : h.nodes.Acyclic)
    {upper lower : Selector} {options : RangeOptions} {w : Walk}
    (hok : h.absoluteWalk upper lower options = .ok w) : w.Proper := by
  obtain ⟨requested, uppers, boundary, hlower, hupper, hapart, hboundary, rfl⟩ :=
    absoluteWalk_eq_ok hok
  have hboundary' := lowerBoundary_mem (revisions_mem hlower) hboundary
  exact walkBetween_proper hlinked hacyclic (revisions_mem hupper)
    (fun r hr => hboundary' r (mem_of_mem_distinctOn hr)) hapart _

end Space

end MigrationHistory.History
