import MigrationHistory.Proofs.GivenChildren
import MigrationHistory.Proofs.Refusal

/-!
# Building in place

In place a history is built while its revisions come in: each one is entered, then each is linked
to each of its parents, and then the labels are registered. A repeated id and an absent parent are
met on the way and recorded or raised there. Main statement: this comes to what the build does,
which reports all problems of a kind at once and takes the children, the heads and the labels from
the finished table.
-/
namespace MigrationHistory

namespace Nodes

variable {nodes other : Nodes} {edge : RevisionId × RevisionId} {parent : RevisionId}

section Edges

theorem keys_linkOne (nodes : Nodes) (edge : RevisionId × RevisionId) :
    (nodes.linkOne edge).keys = nodes.keys := Table.keys_update

theorem linkOne_of_absent (habsent : edge.2 ∉ nodes.keys) : nodes.linkOne edge = nodes := by
  apply Table.eq_of_elements_eq
  have hkeep : ∀ node ∈ nodes.elements,
      (if node.id = edge.2 then node.linkChild edge.1 else node) = node := by
    intro node hnode
    rw [if_neg]
    intro hparent
    exact habsent (hparent ▸ id_mem_keys hnode)
  exact (List.map_congr_left hkeep).trans (List.map_id _)

/-- Along any edges a revision gets the children of the edges that end in it. -/
theorem elements_foldl_linkOne (edges : List (RevisionId × RevisionId)) (nodes : Nodes) :
    (edges.foldl linkOne nodes).elements = nodes.elements.map fun node =>
      { node with
        children := ((edges.filter (·.2 = node.id)).map Prod.fst).foldl addLast node.children } := by
  induction edges generalizing nodes with
  | nil => simp
  | cons edge rest ih =>
    rw [List.foldl_cons, ih, linkOne, Table.update, List.map_map]
    refine List.map_congr_left fun node _ => ?_
    by_cases hparent : node.id = edge.2
    · simp [hparent, Revision.linkChild]
    · simp [hparent, Ne.symm hparent]

/-- The edges that end in an id add each revision that names it once, also when a parent is named
twice. -/
theorem foldl_addLast_edges (rs : List Revision) (id : RevisionId) (xs : List RevisionId) :
    (((rs.flatMap fun r => r.parents.map fun parent => (r.id, parent)).filter (·.2 = id)).map
        Prod.fst).foldl addLast xs =
      ((rs.filter fun r => id ∈ r.parents).map Revision.id).foldl addLast xs := by
  induction rs generalizing xs with
  | nil => rfl
  | cons r rest ih =>
    have hown : ∀ y ∈ ((r.parents.map fun parent => (r.id, parent)).filter (·.2 = id)).map Prod.fst,
        y = r.id := by
      intro y hy
      obtain ⟨edge, hedge, rfl⟩ := List.mem_map.mp hy
      obtain ⟨parent, -, rfl⟩ := List.mem_map.mp (List.mem_filter.mp hedge).1
      rfl
    have hnone : ((r.parents.map fun parent => (r.id, parent)).filter (·.2 = id)).map Prod.fst = [] ↔
        id ∉ r.parents := by
      rw [List.map_eq_nil_iff, List.filter_eq_nil_iff]
      simp [← List.forall_mem_ne']
    rw [List.flatMap_cons, List.filter_append, List.map_append, List.foldl_append, ih,
      foldl_addLast_same xs hown, List.filter_cons]
    by_cases hparent : id ∈ r.parents
    · rw [if_neg (mt hnone.mp (not_not_intro hparent)), if_pos (decide_eq_true hparent)]
      rfl
    · rw [if_pos (hnone.mpr hparent), if_neg (by simpa using hparent)]

/-- Linking along all edges links the table. -/
theorem foldl_linkOne_edges (nodes : Nodes) : nodes.edges.foldl linkOne nodes = nodes.link := by
  apply Table.eq_of_elements_eq
  rw [elements_foldl_linkOne]
  refine List.map_congr_left fun node _ => ?_
  rw [edges, foldl_addLast_edges]
  rfl

end Edges

section Heads

/-- The heads that are left once the parents in the table are taken out. -/
def unclaimed (nodes : Nodes) (heads parents : List RevisionId) : List RevisionId :=
  heads.filter fun id => id ∉ nodes.keys ∨ id ∉ parents

theorem unclaimed_of_present (hpresent : parent ∈ nodes.keys)
    (heads : List RevisionId) : unclaimed nodes heads [parent] = heads.filter (· ≠ parent) := by
  refine List.filter_congr fun id _ => ?_
  by_cases hid : id = parent <;> simp [hid, hpresent]

theorem unclaimed_of_absent (habsent : parent ∉ nodes.keys)
    (heads : List RevisionId) : unclaimed nodes heads [parent] = heads := by
  refine List.filter_eq_self.mpr fun id _ => ?_
  by_cases hid : id = parent <;> simp [hid, habsent]

theorem unclaimed_cons (nodes : Nodes) (heads : List RevisionId) (parent : RevisionId)
    (rest : List RevisionId) :
    unclaimed nodes (unclaimed nodes heads [parent]) rest = unclaimed nodes heads (parent :: rest) := by
  simp only [unclaimed, List.filter_filter]
  refine List.filter_congr fun id _ => ?_
  rw [Bool.eq_iff_iff]
  simp only [Bool.and_eq_true, decide_eq_true_eq, List.mem_cons, List.not_mem_nil, or_false, not_or]
  tauto

/-- Along all edges the ids left are those that nothing names. -/
theorem unclaimed_edges (nodes : Nodes) :
    unclaimed nodes nodes.keys (nodes.edges.map Prod.snd) = nodes.unnamed := by
  have hedges : ∀ id, id ∈ nodes.edges.map Prod.snd ↔ ∃ r ∈ nodes.elements, id ∈ r.parents := by
    simp [edges]
  rw [unclaimed, Table.keys, List.filter_map]
  refine congrArg (List.map Revision.id) (List.filter_congr fun node hnode => ?_)
  have hkey : node.id ∈ nodes.elements.map Revision.id := id_mem_keys hnode
  rw [Bool.eq_iff_iff, List.isEmpty_iff, List.eq_nil_iff_forall_not_mem]
  simp only [Function.comp_apply, decide_eq_true_eq, hkey, hedges, not_true, false_or, not_exists,
    not_and, mem_namers]
  exact ⟨fun hnone _ r hr hp _ => hnone r hr hp, fun hnone r hr hp => hnone r.id r hr hp rfl⟩

end Heads

section Problems

/-- The problem of entering a revision, if its id is there already. -/
def repeatedId (nodes : Nodes) (r : Revision) : List Warning :=
  if r.id ∈ nodes.keys then [.duplicateRevision r.id] else []

/-- The problem of linking a revision to a parent, if that is absent. -/
def absentParent (nodes : Nodes) (edge : RevisionId × RevisionId) : List Warning :=
  if edge.2 ∈ nodes.keys then [] else [.missingParent edge.1 edge.2]

theorem absentParent_congr (hkeys : nodes.keys = other.keys) :
    absentParent nodes = absentParent other := by
  unfold absentParent
  rw [hkeys]

theorem flatMap_absentParent_edges (nodes : Nodes) :
    nodes.edges.flatMap (absentParent nodes) = nodes.elements.flatMap (missingWarnings nodes) := by
  rw [edges, List.flatMap_assoc]
  refine List.flatMap_congr fun r _ => ?_
  rw [List.flatMap_map, missingWarnings]
  induction r.parents with
  | nil => rfl
  | cons parent rest ih =>
    rw [List.flatMap_cons, ih]
    by_cases hpresent : parent ∈ nodes.keys
    · simp [absentParent, hpresent]
    · simp [absentParent, hpresent, Table.holds_eq_false_iff.mpr hpresent]

theorem keys_enter (nodes : Nodes) (r : Revision) :
    (nodes.enter r).keys = addLast nodes.keys r.id := by
  by_cases hpresent : r.id ∈ nodes.keys
  · have hkeep : ∀ node ∈ nodes.elements,
        (if node.id = r.id then r else node).id = node.id := by
      intro node _
      split <;> simp_all
    rw [addLast, if_pos hpresent, Table.keys, Table.elements_enter_of_present hpresent,
      List.map_map]
    exact List.map_congr_left hkeep
  · rw [addLast, if_neg hpresent, Table.keys, Table.elements_enter_of_absent hpresent,
      List.map_append]
    rfl

/-- What was entered before is what has been seen. -/
theorem duplicates_cons {seen : List RevisionId} (r : Revision)
    (rest : List Revision) (hseen : ∀ id, id ∈ seen ↔ id ∈ nodes.keys) :
    ∃ later, (∀ id, id ∈ later ↔ id ∈ (nodes.enter r).keys) ∧
      (repeatedIds seen (r :: rest)).map Warning.duplicateRevision =
        repeatedId nodes r ++ (repeatedIds later rest).map .duplicateRevision := by
  by_cases hpresent : r.id ∈ nodes.keys
  · refine ⟨seen, fun id => ?_, ?_⟩
    · rw [hseen, keys_enter, addLast, if_pos hpresent]
    · rw [repeatedIds, if_pos ((hseen _).mpr hpresent), repeatedId, if_pos hpresent]
      rfl
  · refine ⟨r.id :: seen, fun id => ?_, ?_⟩
    · rw [List.mem_cons, hseen, keys_enter, mem_addLast, or_comm]
    · rw [repeatedIds, if_neg (mt (hseen _).mp hpresent), repeatedId, if_neg hpresent]
      rfl

theorem foldl_addLast_keys (revisions : List Revision) (nodes : Nodes) :
    (revisions.map Revision.id).foldl addLast nodes.keys =
      (revisions.foldl Table.enter nodes).keys := by
  induction revisions generalizing nodes with
  | nil => rfl
  | cons r rest ih => rw [List.map_cons, List.foldl_cons, List.foldl_cons, ← ih, keys_enter]

end Problems

section Links

theorem stripped_link (nodes : Nodes) : nodes.link.stripped = nodes.stripped := by
  apply Table.eq_of_elements_eq
  have hlink : nodes.link.elements = nodes.elements.map nodes.adopt := rfl
  rw [stripped_elements, stripped_elements, hlink, List.map_map]
  rfl

theorem parentless_link (nodes : Nodes) : nodes.link.parentless = nodes.parentless := by
  rw [← parentless_stripped, stripped_link, parentless_stripped]

theorem labelIndex_link (nodes : Nodes) : nodes.link.labelIndex = nodes.labelIndex := by
  rw [← labelIndex_stripped, stripped_link, labelIndex_stripped]

end Links

end Nodes

namespace History

open Nodes

section Outcome

variable {h : History}

@[simp] theorem outcome_bind (first : InPlace Unit) (rest : Unit → InPlace Unit) :
    outcome (first >>= rest) h = outcome first h >>= outcome (rest ()) := by
  simp only [outcome, EStateM.run_bind]
  cases first.run h <;> rfl

@[simp] theorem outcome_get (rest : History → InPlace Unit) :
    outcome (get >>= rest) h = outcome (rest h) h := rfl

@[simp] theorem outcome_modify (f : History → History) : outcome (modify f) h = .ok (f h) := rfl

@[simp] theorem outcome_forM {α : Type} (xs : List α) (f : α → InPlace Unit) :
    outcome (xs.forM f) h = xs.foldlM (fun h x => outcome (f x) h) h := by
  induction xs generalizing h with
  | nil => rfl
  | cons x xs ih =>
    have hcons : (x :: xs).forM f = f x >>= fun _ => xs.forM f := rfl
    rw [hcons, outcome_bind, List.foldlM_cons]
    exact congrArg _ (funext fun h => ih)

end Outcome

section Reports

theorem report_nil (policy : Policy) : report policy [] = .ok [] := by cases policy <;> rfl

theorem report_append (policy : Policy) (xs ys : List Warning) : report policy (xs ++ ys) =
    report policy xs >>= fun first => (report policy ys).map (first ++ ·) := by
  cases policy with
  | warn => rfl
  | error => cases xs <;> cases ys <;> rfl

/-- What reports after a first step reports together with it. -/
theorem report_then {policy : Policy} {xs ys : List Warning} {f F : List Warning → History}
    {next : History → Except Error History}
    (hnext : ∀ first, next (f first) = (report policy ys).map fun rest => F (first ++ rest)) :
    (report policy xs).map f >>= next = (report policy (xs ++ ys)).map F := by
  rw [report_append]
  cases report policy xs with
  | error e => rfl
  | ok first =>
    have hfirst : Except.map f (.ok first) >>= next = next (f first) := rfl
    rw [hfirst, hnext]
    cases report policy ys <;> rfl

end Reports

section Entering

/-- The history after revisions are entered, with the problems found. -/
def entered (h : History) (revisions : List Revision) (found : List Warning) : History where
  nodes := revisions.foldl Table.enter h.nodes
  labels := h.labels
  heads := (revisions.map Revision.id).foldl addLast h.heads
  bases := h.bases
  warnings := h.warnings ++ found
  config := h.config

theorem outcome_enter (h : History) (r : Revision) : outcome (enterInPlace r) h =
    (report h.config.duplicateRevision (repeatedId h.nodes r)).map (h.entered [r]) := by
  unfold enterInPlace repeatedId
  simp only [outcome_get]
  by_cases hpresent : r.id ∈ h.nodes.keys
  · cases hpolicy : h.config.duplicateRevision <;>
      simp [outcome, hpresent, hpolicy, recordOrRaise, report, Except.map, entered]
  · cases hpolicy : h.config.duplicateRevision <;>
      simp [outcome, hpresent, report, Except.map, entered]

/-- Entering revisions one by one reports each id that is there already, in turn. -/
theorem foldlM_enter (revisions : List Revision) (h : History) (seen : List RevisionId)
    (hseen : ∀ id, id ∈ seen ↔ id ∈ h.nodes.keys) :
    revisions.foldlM (fun h r => outcome (enterInPlace r) h) h =
      (report h.config.duplicateRevision
        ((repeatedIds seen revisions).map .duplicateRevision)).map (h.entered revisions) := by
  induction revisions generalizing h seen with
  | nil =>
    have hall : h.entered [] [] = h := by simp [entered]
    rw [repeatedIds, List.map_nil, report_nil, Except.map, hall]
    rfl
  | cons r rest ih =>
    obtain ⟨later, hlater, hsplit⟩ := duplicates_cons r rest hseen
    rw [List.foldlM_cons, outcome_enter, hsplit]
    refine report_then fun first => ?_
    have hall : (h.entered [r] first).entered rest = fun found =>
        h.entered (r :: rest) (first ++ found) := funext fun found => by simp [entered]
    rw [ih (h.entered [r] first) later hlater, hall]
    rfl

end Entering

section Linking

/-- The history after revisions are linked to parents, with the problems found. -/
def linkedTo (h : History) (edges : List (RevisionId × RevisionId)) (found : List Warning) :
    History where
  nodes := edges.foldl linkOne h.nodes
  labels := h.labels
  heads := unclaimed h.nodes h.heads (edges.map Prod.snd)
  bases := h.bases
  warnings := h.warnings ++ found
  config := h.config

theorem outcome_link (h : History) (edge : RevisionId × RevisionId) :
    outcome (linkInPlace edge) h =
      (report h.config.missingParent (absentParent h.nodes edge)).map (h.linkedTo [edge]) := by
  unfold linkInPlace absentParent
  simp only [outcome_get]
  by_cases hpresent : edge.2 ∈ h.nodes.keys
  · simp [hpresent, report_nil, Except.map, linkedTo, unclaimed_of_present hpresent]
  · cases hpolicy : h.config.missingParent <;>
      simp [outcome, hpresent, hpolicy, recordOrRaise, report, Except.map, linkedTo,
        linkOne_of_absent hpresent, unclaimed_of_absent hpresent]

/-- Linking revisions one by one reports each absent parent, in turn. -/
theorem foldlM_link (edges : List (RevisionId × RevisionId)) (h : History) :
    edges.foldlM (fun h edge => outcome (linkInPlace edge) h) h =
      (report h.config.missingParent (edges.flatMap (absentParent h.nodes))).map
        (h.linkedTo edges) := by
  induction edges generalizing h with
  | nil =>
    have hall : h.linkedTo [] [] = h := by simp [linkedTo, unclaimed]
    rw [List.flatMap_nil, report_nil, Except.map, hall]
    rfl
  | cons edge rest ih =>
    rw [List.foldlM_cons, outcome_link, List.flatMap_cons]
    refine report_then fun first => ?_
    have hkeys : (h.linkedTo [edge] first).nodes.keys = h.nodes.keys := keys_linkOne _ _
    have hheads : ∀ heads parents, unclaimed (h.linkedTo [edge] first).nodes heads parents =
        unclaimed h.nodes heads parents := by
      intro heads parents
      rw [unclaimed, hkeys, unclaimed]
    have hall : (h.linkedTo [edge] first).linkedTo rest = fun found =>
        h.linkedTo (edge :: rest) (first ++ found) := by
      funext found
      rw [linkedTo, hheads]
      simp [linkedTo, unclaimed_cons]
    rw [ih, absentParent_congr hkeys, hall]
    rfl

end Linking

section Registering

theorem outcome_register (h : History) (r : Revision) : outcome (registerInPlace r) h =
    (h.nodes.indexLabels h.labels r).map fun labels => { h with labels := labels } := by
  rw [registerInPlace, outcome, run_raiseFound, indexLabels]
  cases labelCollision? h.nodes h.labels r <;> rfl

/-- Registering labels one by one indexes them all, or ends at the first collision. -/
theorem foldlM_register (rs : List Revision) (h : History) :
    rs.foldlM (fun h r => outcome (registerInPlace r) h) h =
      (rs.foldlM h.nodes.indexLabels h.labels).map fun labels => { h with labels := labels } := by
  induction rs generalizing h with
  | nil => rfl
  | cons r rest ih =>
    rw [List.foldlM_cons, List.foldlM_cons, outcome_register]
    cases h.nodes.indexLabels h.labels r with
    | error e => rfl
    | ok labels => exact ih { h with labels := labels }

end Registering

theorem outcome_linkAll (h : History) : outcome linkAllInPlace h =
    (report h.config.missingParent
      (h.nodes.elements.flatMap (missingWarnings h.nodes))).map fun found =>
        { nodes := h.nodes.link
          labels := h.labels
          heads := unclaimed h.nodes h.heads (h.nodes.edges.map Prod.snd)
          bases := h.nodes.parentless
          warnings := h.warnings ++ found
          config := h.config } := by
  rw [linkAllInPlace, outcome_get, outcome_bind, outcome_forM, foldlM_link, flatMap_absentParent_edges]
  cases report h.config.missingParent (h.nodes.elements.flatMap (missingWarnings h.nodes)) with
  | error e => rfl
  | ok found =>
    simp [Except.map, bind, Except.bind, linkedTo, foldl_linkOne_edges, parentless_link]

theorem outcome_labelAll {h : History} (hempty : h.labels = Table.empty) :
    outcome labelAllInPlace h = h.nodes.labelIndex.map fun labels =>
      { h with nodes := h.nodes.relabel, labels := labels } := by
  rw [labelAllInPlace, outcome_get, outcome_bind, outcome_forM, foldlM_register, hempty]
  change Except.map _ h.nodes.labelIndex >>= _ = _
  cases h.nodes.labelIndex <;> rfl

/-- In place, a build does what reporting the problems of each kind first and then assembling the
history would do. -/
theorem outcome_buildInPlace (config : Config) (revisions : List Revision) :
    outcome (buildInPlace revisions) (blank config) = build config revisions := by
  have hentered : revisions.foldlM (fun h r => outcome (enterInPlace r) h) (blank config) =
      (report config.duplicateRevision (duplicateWarnings revisions)).map
        ((blank config).entered revisions) :=
    foldlM_enter revisions (blank config) [] fun id => by simp [blank, Table.keys, Table.empty]
  have hheads : unclaimed (ofRevisions revisions)
      ((revisions.map Revision.id).foldl addLast []) ((ofRevisions revisions).edges.map Prod.snd) =
        (ofRevisions revisions).unnamed := by
    have hkeys : (revisions.map Revision.id).foldl addLast [] = (ofRevisions revisions).keys :=
      foldl_addLast_keys revisions Table.empty
    rw [hkeys, unclaimed_edges]
  rw [buildInPlace, outcome_bind, outcome_forM, hentered, build]
  cases report config.duplicateRevision (duplicateWarnings revisions) with
  | error e => rfl
  | ok duplicates =>
    change outcome (linkAllInPlace >>= fun _ => labelAllInPlace)
      ((blank config).entered revisions duplicates) = _
    rw [outcome_bind, outcome_linkAll]
    have hnodes : ((blank config).entered revisions duplicates).nodes = ofRevisions revisions := rfl
    have hconfig : ((blank config).entered revisions duplicates).config = config := rfl
    have hstart : ((blank config).entered revisions duplicates).heads =
        (revisions.map Revision.id).foldl addLast [] := rfl
    rw [hnodes, hconfig, hstart, hheads]
    cases report config.missingParent
        ((ofRevisions revisions).elements.flatMap (missingWarnings (ofRevisions revisions))) with
    | error e => rfl
    | ok missing =>
      refine (outcome_labelAll rfl).trans ?_
      rw [labelIndex_link]
      cases (ofRevisions revisions).labelIndex <;> rfl

end History

end MigrationHistory
