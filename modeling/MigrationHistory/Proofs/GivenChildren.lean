import MigrationHistory.Proofs.Growth
import MigrationHistory.Proofs.Rebuild
import MigrationHistory.Proofs.Rewording

/-!
# Children that come with a revision

A revision taken out of a history carries its children and its full label set along. The
labels are computed afresh, but a build and the insertion of a new id enter the children that
they find behind those that were given. Main statement: what is given with a revision makes a
difference exactly when the children given are not the first of those that the revision gets
by itself, and is overruled when the revision overwrites another one.
-/
namespace MigrationHistory

namespace Nodes

variable {nodes other : Nodes}

/-- The table with every revision made afresh from its record. -/
def stripped (nodes : Nodes) : Nodes := nodes.update Revision.stripped fun _ => rfl

theorem stripped_elements (nodes : Nodes) :
    nodes.stripped.elements = nodes.elements.map Revision.stripped := rfl

theorem stripped_rewords : Revision.Rewords Revision.stripped where
  id := fun _ => rfl
  mem_parents := fun _ _ => Iff.rfl
  declared := fun _ => rfl

theorem ofRevisions_stripped (revisions : List Revision) :
    ofRevisions (revisions.map Revision.stripped) = (ofRevisions revisions).stripped :=
  ofRevisions_map stripped_rewords.id revisions

theorem namers_stripped (nodes : Nodes) (id : RevisionId) :
    nodes.stripped.namers id = nodes.namers id :=
  namers_update stripped_rewords.mem_parents id

theorem unnamed_stripped (nodes : Nodes) : nodes.stripped.unnamed = nodes.unnamed :=
  unnamed_update stripped_rewords nodes

theorem parentless_stripped (nodes : Nodes) : nodes.stripped.parentless = nodes.parentless :=
  parentless_update stripped_rewords nodes

theorem missingWarnings_stripped (nodes : Nodes) :
    nodes.stripped.elements.flatMap (missingWarnings nodes.stripped) =
      nodes.elements.flatMap (missingWarnings nodes) := by
  have hholds : nodes.stripped.holds = nodes.holds := funext (holds_update stripped_rewords nodes)
  rw [stripped_elements, List.flatMap_map]
  refine List.flatMap_congr fun r _ => ?_
  rw [missingWarnings, hholds]
  rfl

theorem labelIndex_stripped (nodes : Nodes) : nodes.stripped.labelIndex = nodes.labelIndex :=
  labelIndex_update stripped_rewords nodes

/-- With all labels computed, two tables are the same exactly when their bare forms are. -/
theorem relabel_eq_iff : nodes.relabel = other.relabel ↔ nodes.bare = other.bare := by
  constructor
  · intro h
    rw [← bare_relabel nodes, ← bare_relabel other, h]
  · exact relabel_congr

theorem namers_nodup (nodes : Nodes) (id : RevisionId) : (nodes.namers id).Nodup :=
  idsWhere_nodup _

theorem not_mem_own_namers {id : RevisionId} (habsent : id ∉ nodes.keys) :
    id ∉ nodes.namers id := by
  intro hmem
  obtain ⟨r, hr, -, hid⟩ := mem_namers.mp hmem
  exact habsent (hid ▸ id_mem_keys hr)

/-- Linking overrules the children given exactly when they are the first of the namers. -/
theorem children_adopt_eq_iff {r : Revision} :
    (nodes.adopt r).children = nodes.namers r.id ↔ r.children <+: nodes.namers r.id :=
  foldl_addLast_eq_iff (nodes.namers_nodup r.id)

theorem children_adopt_stripped (r : Revision) :
    (nodes.adopt r.stripped).children = nodes.namers r.id :=
  (foldl_addLast_eq_iff (nodes.namers_nodup r.id)).mpr List.nil_prefix

theorem link_stripped_iff : nodes.link.relabel = nodes.stripped.link.relabel ↔
    ∀ r ∈ nodes.elements, r.children <+: nodes.namers r.id := by
  have hlink : nodes.link.elements = nodes.elements.map nodes.adopt := rfl
  have hlink' : nodes.stripped.link.elements =
      nodes.elements.map fun r => nodes.adopt r.stripped := by
    have hadopt : nodes.stripped.adopt = nodes.adopt := by
      funext r
      rw [adopt, namers_stripped, adopt]
    have helements : nodes.stripped.link.elements =
        (nodes.elements.map Revision.stripped).map nodes.stripped.adopt := rfl
    rw [helements, hadopt, List.map_map]
    rfl
  rw [relabel_eq_iff, bare_eq_iff, hlink, hlink', List.map_map, List.map_map, List.map_inj_left]
  refine forall_congr' fun r => forall_congr' fun hr => ?_
  rw [← children_adopt_eq_iff, ← children_adopt_stripped]
  constructor
  · exact fun h => (alike_iff.mpr h).children
  · exact fun h => alike_iff.mp ⟨rfl, rfl, h, rfl⟩

end Nodes

namespace History

open Nodes

variable {config : Config} {revisions : List Revision} {h : History} {r : Revision}

/-- Given revisions are built into what their records are built into, but for the table. -/
theorem build_stripped (config : Config) (revisions : List Revision) :
    build config (revisions.map Revision.stripped) = (build config revisions).map fun h =>
      { h with nodes := (ofRevisions revisions).stripped.link.relabel } := by
  unfold build
  simp only [ofRevisions_stripped, duplicateWarnings_map stripped_rewords.id,
    missingWarnings_stripped, labelIndex_stripped, unnamed_stripped, parentless_stripped]
  cases report config.duplicateRevision (duplicateWarnings revisions) with
  | error e => rfl
  | ok duplicates =>
    cases report config.missingParent
        ((ofRevisions revisions).elements.flatMap (missingWarnings (ofRevisions revisions))) with
    | error e => rfl
    | ok missing =>
      cases (ofRevisions revisions).labelIndex <;> rfl

/-- A build heeds the children given with a final record unless they are the first of those
that name it. -/
theorem build_eq_stripped_iff : build config revisions = build config (revisions.map .stripped) ↔
    (∃ e, build config revisions = .error e) ∨
      ∀ r : Revision, r.FinalIn revisions →
        r.children <+: (ofRevisions revisions).namers r.id := by
  have hfinal : (∀ r : Revision, r.FinalIn revisions →
        r.children <+: (ofRevisions revisions).namers r.id) ↔
      (ofRevisions revisions).link.relabel = (ofRevisions revisions).stripped.link.relabel := by
    rw [link_stripped_iff]
    exact forall_congr' fun r => imp_congr_left mem_ofRevisions.symm
  rw [build_stripped, hfinal]
  cases hbuild : build config revisions with
  | error e => simp [Except.map]
  | ok h =>
    have hnodes := (built_of_build hbuild).nodes
    constructor
    · intro heq
      have hsame := congrArg History.nodes (Except.ok.inj heq)
      exact .inr (hnodes.symm.trans hsame)
    · rintro (⟨e, herror⟩ | hsame)
      · cases herror
      · rw [Except.map, ← hsame, ← hnodes]

/-- Up to labels the table after an insertion is another one with the linked revision
entered. -/
theorem bare_placed (h : History) (r : Revision) : (h.placed r).bare =
    (Nodes.bare ((h.released r).update (linkedNode r) linkedNode_id)).enter
      (linkedNode r (h.successor r)).resetLabels :=
  calc (h.placed r).bare
      = Nodes.bare (((h.released r).update (linkedNode r) linkedNode_id).enter
          (linkedNode r (h.successor r))) := congrArg Nodes.bare Table.update_enter
    _ = _ := Table.update_enter

theorem bare_placed_stripped_iff : (h.placed r).bare = (h.placed r.stripped).bare ↔
    (linkedNode r (h.successor r)).children = (linkedNode r (h.successor r.stripped)).children := by
  have hsame : (h.placed r.stripped).bare =
      (Nodes.bare ((h.released r).update (linkedNode r) linkedNode_id)).enter
        (linkedNode r (h.successor r.stripped)).resetLabels := bare_placed h r.stripped
  have hid : (linkedNode r (h.successor r)).resetLabels.id =
      (linkedNode r (h.successor r.stripped)).resetLabels.id := by
    rw [resetLabels_id, resetLabels_id, linkedNode_id, linkedNode_id]
    rfl
  rw [bare_placed, hsame, Table.enter_inj hid, ← alike_iff]
  refine ⟨fun halike => halike.children, fun hchildren => ⟨hid, ?_, hchildren, ?_⟩⟩
  · rw [linkedNode_parents, linkedNode_parents]
    rfl
  · rw [linkedNode_declared, linkedNode_declared]
    rfl

theorem place_eq_stripped_iff : h.place r = h.place r.stripped ↔
    (linkedNode r (h.successor r)).children = (linkedNode r (h.successor r.stripped)).children ∧
      (h.successor r).isHead = (h.successor r.stripped).isHead := by
  rw [← bare_placed_stripped_iff]
  constructor
  · intro heq
    have hnodes : (h.placed r).relabel = (h.placed r.stripped).relabel :=
      congrArg History.nodes heq
    have hheads : r.id ∈ (h.place r).heads ↔ r.id ∈ (h.place r.stripped).heads := by rw [heq]
    rw [mem_place_heads, mem_place_heads] at hheads
    refine ⟨relabel_eq_iff.mp hnodes, Bool.eq_iff_iff.mpr ?_⟩
    have hid : r.stripped.id = r.id := rfl
    simpa [hid] using hheads
  · rintro ⟨hbare, hhead⟩
    have hnodes : (h.place r).nodes = (h.place r.stripped).nodes := relabel_congr hbare
    have hheads : (h.place r).heads = (h.place r.stripped).heads := by
      unfold place
      simp only [hhead]
      rfl
    calc h.place r
        = { h.place r.stripped with nodes := (h.place r).nodes, heads := (h.place r).heads } := rfl
      _ = h.place r.stripped := by rw [hnodes, hheads]

/-- The successor of a present revision has its children from that one. -/
theorem successor_children_stripped_of_present (hpresent : r.id ∈ h.nodes.keys) :
    (h.successor r.stripped).children = (h.successor r).children := by
  obtain ⟨old, hold⟩ := Option.isSome_iff_exists.mp
    (Option.isSome_iff_ne_none.mpr fun hnone => Table.find?_eq_none_iff.mp hnone hpresent)
  have hold' : h.nodes.find? r.stripped.id = some old := hold
  unfold successor
  rw [hold, hold']
  rfl

theorem linkedNode_children (node : Revision) : (linkedNode r node).children =
    if node.id ∈ r.parents then addLast node.children r.id else node.children := by
  unfold linkedNode
  split <;> rfl

/-- The children given with a new revision are no more than it gets by itself: the first of the
revisions that wait for it, or all of them and then the revision itself, when it names itself
and does not become a head. -/
def Foreseen (h : History) (r : Revision) : Prop :=
  r.children <+: h.nodes.namers r.id ∨
    r.id ∈ r.parents ∧ h.nodes.namers r.id ≠ [] ∧ r.children = h.nodes.namers r.id ++ [r.id]

theorem place_eq_stripped_iff_of_absent (habsent : r.id ∉ h.nodes.keys) :
    h.place r = h.place r.stripped ↔ h.Foreseen r := by
  have hgiven : h.successor r = h.nodes.adopt r := successor_of_absent habsent
  have hfresh : h.successor r.stripped = h.nodes.adopt r.stripped :=
    successor_of_absent (r := r.stripped) habsent
  have hown := not_mem_own_namers habsent
  have hgot : (h.successor r.stripped).children = h.nodes.namers r.id := by
    rw [hfresh]
    exact children_adopt_stripped r
  have hkept : (h.successor r).children = (h.nodes.namers r.id).foldl addLast r.children := by
    rw [hgiven]
    rfl
  rw [place_eq_stripped_iff, linkedNode_children, linkedNode_children, successor_id,
    successor_id, Revision.isHead, Revision.isHead, hgot, hkept]
  have hnodup := h.nodes.namers_nodup r.id
  have hself : r.stripped.id = r.id := rfl
  rw [hself]
  by_cases hloop : r.id ∈ r.parents
  · have hlast : addLast (h.nodes.namers r.id) r.id = h.nodes.namers r.id ++ [r.id] := by
      rw [addLast, if_neg hown]
    have hsome_iff : (h.nodes.namers r.id ++ [r.id]).isEmpty = (h.nodes.namers r.id).isEmpty ↔
        h.nodes.namers r.id ≠ [] := by
      cases h.nodes.namers r.id <;> simp
    rw [if_pos hloop, if_pos hloop, hlast, addLast_foldl_addLast_eq_iff hnodup hown]
    constructor
    · rintro ⟨hinitial | hall, hhead⟩
      · exact .inl hinitial
      · -- given itself as a child, the revision is no head
        rw [hall, foldl_addLast_of_subset fun c hc => List.mem_append_left _ hc] at hhead
        exact .inr ⟨hloop, hsome_iff.mp hhead, hall⟩
    · rintro (hinitial | ⟨-, hsome, hall⟩)
      · exact ⟨.inl hinitial, by rw [(foldl_addLast_eq_iff hnodup).mpr hinitial]⟩
      · rw [hall, foldl_addLast_of_subset fun c hc => List.mem_append_left _ hc]
        exact ⟨.inr rfl, hsome_iff.mpr hsome⟩
  · rw [if_neg hloop, if_neg hloop, foldl_addLast_eq_iff hnodup]
    constructor
    · exact fun h => .inl h.1
    · rintro (hinitial | ⟨hloop', -⟩)
      · exact ⟨hinitial, by rw [(foldl_addLast_eq_iff hnodup).mpr hinitial]⟩
      · exact absurd hloop' hloop

theorem insert_eq_stripped_iff {replacing : Bool} :
    h.insert r replacing = h.insert r.stripped replacing ↔
      (∃ e, h.insert r replacing = .error e) ∨ r.id ∈ h.nodes.keys ∨ h.Foreseen r := by
  have hsame : h.insertFault? r.stripped replacing = h.insertFault? r replacing := rfl
  have hplaced : h.place r = h.place r.stripped ↔ r.id ∈ h.nodes.keys ∨ h.Foreseen r := by
    by_cases hpresent : r.id ∈ h.nodes.keys
    · have hchildren := successor_children_stripped_of_present hpresent
      have heq : h.place r = h.place r.stripped := by
        rw [place_eq_stripped_iff, linkedNode_children, linkedNode_children, Revision.isHead,
          Revision.isHead, hchildren]
        exact ⟨rfl, rfl⟩
      simp [heq, hpresent]
    · rw [place_eq_stripped_iff_of_absent hpresent]
      simp [hpresent]
  rw [← hplaced]
  unfold insert
  rw [hsame]
  cases h.insertFault? r replacing with
  | some e => simp
  | none =>
    constructor
    · intro heq
      exact .inr (congrArg (fun grown : History => { grown with warnings := h.warnings })
        (Except.ok.inj heq))
    · rintro (⟨e, herror⟩ | heq)
      · cases herror
      · simp only [heq]
        rfl

/-- What comes with revisions makes no difference to a build exactly when the build fails or
the children given with every final record are the first of those that name it. It makes none
to an insertion exactly when that fails, overwrites a revision, or is given no children but
those that the revision gets by itself. -/
theorem given_children_iff (config : Config) (revisions : List Revision) (h : History)
    (r : Revision) (replacing : Bool) :
    (build config revisions = build config (revisions.map .stripped) ↔
      (∃ e, build config revisions = .error e) ∨
        ∀ s : Revision, s.FinalIn revisions →
          s.children <+: (ofRevisions revisions).namers s.id) ∧
    (h.insert r replacing = h.insert r.stripped replacing ↔
      (∃ e, h.insert r replacing = .error e) ∨ r.id ∈ h.nodes.keys ∨ h.Foreseen r) :=
  ⟨build_eq_stripped_iff, insert_eq_stripped_iff⟩

/-- A base taken out of a history without its child keeps the child, in a build and in an
insertion: it is named by none and yet no head. -/
theorem given_child_kept :
    ∃ h clone, History.build Config.default
        (Sample.revisions [(Sample.a, [], []), (Sample.b, [Sample.a], [])]) = .ok h ∧
      clone ∈ h.nodes.elements ∧
      (∃ other, History.build Config.default [clone] = .ok other ∧
        History.build Config.default [clone.stripped] ≠ .ok other ∧
        (∀ node ∈ other.nodes.elements, node.children = [Sample.b]) ∧
        other.nodes.namers clone.id = []) ∧
      ∃ empty grown, History.build Config.default [] = .ok empty ∧
        empty.insert clone false = .ok grown ∧ empty.insert clone.stripped false ≠ .ok grown ∧
        grown.nodes.namers clone.id = [] ∧ grown.heads = [] := by
  refine ⟨_, ⟨Sample.a, [], [Sample.b], [], []⟩, rfl, by decide, ?_, ?_⟩
  · exact ⟨_, rfl, by decide, by decide, by decide⟩
  · exact ⟨_, _, rfl, rfl, by decide, by decide, by decide⟩

end History

end MigrationHistory
