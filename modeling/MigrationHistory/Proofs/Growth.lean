import MigrationHistory.Proofs.LabelIndex

/-!
# Growing by new ids

A build enters all revisions, links them in one pass and indexes their labels in another. An
insertion links one revision into what stands already, with the revisions that waited for it.
Main statement: for ids that are not there yet both come to the same history, in every order
that a history keeps and up to recorded warnings only, and one succeeds exactly when the other
does.
-/
namespace MigrationHistory

open Nodes

namespace Nodes

variable {nodes : Nodes} {r : Revision}

/-- A revision under a new id is the last one to name a parent. -/
theorem namers_enter (habsent : r.id ∉ nodes.keys) (id : RevisionId) :
    namers (nodes.enter r) id = nodes.namers id ++ if id ∈ r.parents then [r.id] else [] := by
  unfold namers
  rw [Table.elements_enter_of_absent habsent, List.filter_append, List.map_append]
  by_cases hid : id ∈ r.parents <;> simp [hid]

theorem mem_keys_of_mem_idsWhere {p : Revision → Bool} {id : RevisionId}
    (hid : id ∈ nodes.idsWhere p) : id ∈ nodes.keys := by
  obtain ⟨s, hs, rfl, -⟩ := mem_idsWhere.mp hid
  exact id_mem_keys hs

theorem idsWhere_enter (habsent : r.id ∉ nodes.keys) (p : Revision → Bool) :
    idsWhere (nodes.enter r) p = nodes.idsWhere p ++ if p r then [r.id] else [] := by
  unfold idsWhere
  rw [Table.elements_enter_of_absent habsent, List.filter_append, List.map_append]
  by_cases hp : p r <;> simp [hp]

/-- The last revision becomes the last child of the parents it names. -/
theorem adopt_enter (habsent : r.id ∉ nodes.keys) (s : Revision) :
    adopt (nodes.enter r) s = History.linkedNode r (nodes.adopt s) := by
  unfold adopt History.linkedNode
  rw [namers_enter habsent, List.foldl_append]
  by_cases hs : s.id ∈ r.parents
  · simp [hs, Revision.linkChild]
  · simp [hs]

theorem elements_link_enter (habsent : r.id ∉ nodes.keys) :
    (link (nodes.enter r)).elements =
      nodes.link.elements.map (History.linkedNode r) ++
        [History.linkedNode r (nodes.adopt r)] := by
  have hlink : (link (nodes.enter r)).elements =
      (nodes.enter r).elements.map (adopt (nodes.enter r)) := rfl
  have hadopt : adopt (nodes.enter r) = History.linkedNode r ∘ nodes.adopt :=
    funext (adopt_enter habsent)
  rw [hlink, hadopt, Table.elements_enter_of_absent habsent, List.map_append, ← List.map_map]
  rfl

theorem parentless_enter (habsent : r.id ∉ nodes.keys) :
    parentless (nodes.enter r) = nodes.parentless ++ if r.isBase then [r.id] else [] :=
  idsWhere_enter habsent Revision.isBase

/-- The unnamed revisions, after one more that does not name itself. -/
theorem unnamed_enter (habsent : r.id ∉ nodes.keys) (hown : r.id ∉ r.parents) :
    unnamed (nodes.enter r) = nodes.unnamed.filter (· ∉ r.parents) ++
      if (nodes.namers r.id).isEmpty then [r.id] else [] := by
  have hnamed : ∀ id, (namers (nodes.enter r) id).isEmpty =
      ((nodes.namers id).isEmpty && decide (id ∉ r.parents)) := by
    intro id
    rw [namers_enter habsent]
    by_cases hid : id ∈ r.parents <;> simp [hid]
  unfold unnamed
  simp only [hnamed]
  rw [idsWhere_enter habsent]
  congr 1
  · simp only [idsWhere, List.filter_map, List.filter_filter]
    congr 1
    apply List.filter_congr
    intro node _
    exact Bool.and_comm _ _
  · simp [hown]

end Nodes

namespace History

variable {config : Config} {revisions : List Revision} {h : History} {r : Revision}

section Unabandoned

variable (hnone : h.abandoned r = [])
include hnone

theorem released_of_none_abandoned : h.released r = h.nodes := by
  apply Table.eq_of_elements_eq
  have hmap : (h.released r).elements = h.nodes.elements.map (h.releasedNode r) := rfl
  have hid : h.releasedNode r = id := by
    funext node
    simp [releasedNode, hnone]
  rw [hmap, hid, List.map_id]

theorem restoredHeads_of_none_abandoned : h.restoredHeads r = h.heads := by
  rw [restoredHeads, hnone]
  rfl

end Unabandoned

section Absent

variable (habsent : r.id ∉ h.nodes.keys)
include habsent

theorem abandoned_of_absent : h.abandoned r = [] := by
  rw [abandoned, Table.find?_eq_none_iff.mpr habsent]

theorem released_of_absent : h.released r = h.nodes :=
  released_of_none_abandoned (abandoned_of_absent habsent)

theorem restoredHeads_of_absent : h.restoredHeads r = h.heads :=
  restoredHeads_of_none_abandoned (abandoned_of_absent habsent)

/-- The children of a new revision are those that waited for it. -/
theorem successor_of_absent : h.successor r = h.nodes.adopt r := by
  have hwaiting : (h.nodes.namers r.id).filter (· ≠ r.id) = h.nodes.namers r.id := by
    apply List.filter_eq_self.mpr
    intro child hchild
    obtain ⟨node, hnode, -, rfl⟩ := mem_namers.mp hchild
    exact decide_eq_true fun heq => habsent (heq ▸ id_mem_keys hnode)
  unfold successor adopt
  rw [released_of_absent habsent, hwaiting, Table.find?_eq_none_iff.mpr habsent]

theorem elements_placed_of_absent : (h.placed r).elements =
    h.nodes.elements.map (linkedNode r) ++ [linkedNode r (h.nodes.adopt r)] := by
  have hmap : (h.placed r).elements =
      ((h.released r).enter (h.successor r)).elements.map (linkedNode r) := rfl
  have hadopted : (h.nodes.adopt r).id ∉ h.nodes.keys := habsent
  rw [hmap, released_of_absent habsent, successor_of_absent habsent,
    Table.elements_enter_of_absent hadopted, List.map_append]
  rfl

/-- Nothing is registered to an id that is not there. -/
theorem retainedLabels_of_absent (hregistered : h.Registered) : h.retainedLabels r = h.labels := by
  apply Table.eq_of_elements_eq
  apply List.filter_eq_self.mpr
  rintro ⟨label, owner⟩ hentry
  have howner : owner ∈ h.nodes.keys := (hregistered.mem_labels_iff.mp hentry).mem_keys
  have hne : owner ≠ r.id := fun heq => habsent (heq ▸ howner)
  simp [hne]

end Absent

theorem Built.keys (hbuilt : Built config revisions h) :
    h.nodes.keys = (ofRevisions revisions).keys :=
  (keys_congr hbuilt.bare).trans Table.keys_update

theorem Built.namers (hbuilt : Built config revisions h) (id : RevisionId) :
    h.nodes.namers id = (ofRevisions revisions).namers id :=
  (namers_congr hbuilt.bare id).trans (namers_link id)

/-- A new revision is placed where linking the whole list puts it. -/
theorem Built.bare_placed (hbuilt : Built config revisions h) (habsent : r.id ∉ h.nodes.keys) :
    (h.placed r).bare = (ofRevisions (revisions ++ [r])).link.bare := by
  have habsent' : r.id ∉ (ofRevisions revisions).keys := hbuilt.keys ▸ habsent
  have hadopt : h.nodes.adopt r = (ofRevisions revisions).adopt r := by
    rw [adopt, adopt, hbuilt.namers]
  have hreset : Revision.resetLabels ∘ linkedNode r = linkedNode r ∘ Revision.resetLabels :=
    funext (linkedNode_resetLabels r)
  rw [bare_eq_iff, ofRevisions_concat, elements_placed_of_absent habsent,
    elements_link_enter habsent', List.map_append, List.map_append, List.map_map, List.map_map,
    hreset, ← List.map_map, ← List.map_map, bare_eq_iff.mp hbuilt.bare, hadopt]

/-- The label index goes on where the one of the shorter list ended. -/
theorem Built.labels_place (hbuilt : Built config revisions h) (hregistered : h.Registered)
    (habsent : r.id ∉ h.nodes.keys) : (h.place r).labels =
      (ofRevisions (revisions ++ [r])).elements.foldl LabelIndex.register Table.empty := by
  have habsent' : r.id ∉ (ofRevisions revisions).keys := hbuilt.keys ▸ habsent
  have hlabels : (h.place r).labels = (h.retainedLabels r).register r := rfl
  rw [hlabels, retainedLabels_of_absent habsent hregistered, ofRevisions_concat,
    Table.elements_enter_of_absent habsent', List.foldl_append,
    (labelIndex_eq_ok_iff.mp hbuilt.labels).2]
  rfl

/-- The heads lose the parents named and gain the revision if nothing waited for it. -/
theorem Built.heads_place (hbuilt : Built config revisions h) (hr : r.Admissible)
    (habsent : r.id ∉ h.nodes.keys) :
    (h.place r).heads = (ofRevisions (revisions ++ [r])).unnamed := by
  have habsent' : r.id ∉ (ofRevisions revisions).keys := hbuilt.keys ▸ habsent
  have hplace : (h.place r).heads =
      if (h.successor r).isHead then
        addLast ((h.restoredHeads r).filter fun head => head ≠ r.id && head ∉ r.parents) r.id
      else (h.restoredHeads r).filter fun head => head ≠ r.id && head ∉ r.parents := rfl
  -- no head is the new id, so testing for it drops nothing
  have hheads : h.heads.filter (fun head => head ≠ r.id && head ∉ r.parents) =
      h.heads.filter (· ∉ r.parents) := by
    apply List.filter_congr
    intro head hhead
    have hne : head ≠ r.id := by
      rintro rfl
      exact habsent' (mem_keys_of_mem_idsWhere (hbuilt.heads ▸ hhead))
    simp [hne]
  have hnew : r.id ∉ h.heads.filter (· ∉ r.parents) := by
    rw [← hheads]
    simp
  rw [hplace, restoredHeads_of_absent habsent, successor_of_absent habsent,
    isHead_adopt hr.fresh.children, hbuilt.namers, hheads, ofRevisions_concat,
    unnamed_enter habsent' hr.not_own_parent, ← hbuilt.heads, addLast, if_neg hnew]
  split <;> simp

theorem Built.bases_place (hbuilt : Built config revisions h) (habsent : r.id ∉ h.nodes.keys) :
    (h.place r).bases = (ofRevisions (revisions ++ [r])).parentless := by
  have habsent' : r.id ∉ (ofRevisions revisions).keys := hbuilt.keys ▸ habsent
  have hplace : (h.place r).bases =
      if r.isBase then addLast h.bases r.id else h.bases.filter (· ≠ r.id) := rfl
  have hnew : r.id ∉ h.bases := fun hbase =>
    habsent' (mem_keys_of_mem_idsWhere (hbuilt.bases ▸ hbase))
  have hbases : h.bases.filter (· ≠ r.id) = h.bases := by
    apply List.filter_eq_self.mpr
    intro base hbase
    exact decide_eq_true fun heq => hnew (heq ▸ hbase)
  rw [hplace, hbases, ofRevisions_concat, parentless_enter habsent', ← hbuilt.bases, addLast,
    if_neg hnew]
  split <;> simp

/-- The history without its warnings. -/
def unwarned (h : History) : History := { h with warnings := [] }

/-- Placing a new revision in what is built gives what is built from one revision more. -/
theorem Built.unwarned_place {built : History} (hbuilt : Built config revisions h)
    (hmore : Built config (revisions ++ [r]) built) (hregistered : h.Registered)
    (hr : r.Admissible) (habsent : r.id ∉ h.nodes.keys) :
    (h.place r).unwarned = built.unwarned := by
  have hnodes : (h.place r).nodes = built.nodes := by
    rw [hmore.nodes]
    exact relabel_congr (hbuilt.bare_placed habsent)
  have hlabels : (h.place r).labels = built.labels :=
    (hbuilt.labels_place hregistered habsent).trans (labelIndex_eq_ok_iff.mp hmore.labels).2.symm
  have hheads : (h.place r).heads = built.heads :=
    (hbuilt.heads_place hr habsent).trans hmore.heads.symm
  have hbases : (h.place r).bases = built.bases :=
    (hbuilt.bases_place habsent).trans hmore.bases.symm
  have hconfig : (h.place r).config = built.config := hbuilt.config.trans hmore.config.symm
  unfold unwarned
  rw [hnodes, hlabels, hheads, hbases, hconfig]

/-- A new revision finds no fault exactly when the list stays one that can be built. -/
theorem insertFault?_eq_none_iff_builds (hbuild : build config revisions = .ok h)
    (hown : r.id ∉ r.parents) (habsent : r.id ∉ h.nodes.keys) :
    h.insertFault? r false = none ↔ ∃ built, build config (revisions ++ [r]) = .ok built := by
  have hbuilt := built_of_build hbuild
  have hregistered := registered_build hbuild
  have hnodes := unambiguous_build hbuild
  -- both sides judge one table, so names and parents are compared on its records
  have hsame : (ofRevisions (revisions ++ [r])).SameRecords (h.placed r) :=
    (sameRecords_link _).trans (sameRecords_of_bare_eq (hbuilt.bare_placed habsent).symm)
  rw [insertFault?_eq_none_iff, build_succeeds_iff, hbuilt.config]
  constructor
  · rintro ⟨-, hid, hnone, hparents, -⟩
    obtain ⟨htolerates, -⟩ := build_eq_ok_iff.mp hbuild
    refine ⟨⟨fun hstrict => ?_, fun hstrict => ?_⟩,
      hsame.symm.unambiguous (unambiguous_placed hregistered hnodes hid hnone)⟩
    · have hnew : r.id ∉ revisions.map Revision.id := fun hmem =>
        habsent (hbuilt.keys ▸ mem_keys_ofRevisions.mpr (List.mem_map.mp hmem))
      rw [List.map_append, List.map_singleton, ← List.concat_eq_append]
      exact (htolerates.unrepeated hstrict).concat hnew
    · exact parentsPresent_ofRevisions_iff.mp (hsame.symm.parentsPresent
        (parentsPresent_placed (hparents hstrict) (parentsPresent_build hbuild hstrict)))
  · rintro ⟨htolerates, hunambiguous⟩
    obtain ⟨hid, hnone⟩ :=
      free_of_unambiguous_placed hregistered hnodes (hsame.unambiguous hunambiguous)
    refine ⟨by simp, hid, hnone, fun hstrict p hp => ?_, fun _ _ => habsent⟩
    have hpresent := hsame.parentsPresent
      (parentsPresent_ofRevisions_iff.mpr (htolerates.present hstrict))
    have hkey : p ∈ (h.placed r).keys := hpresent _ (mem_placed.mpr (.inl rfl)) p (by simpa using hp)
    exact (mem_keys_placed.mp hkey).resolve_left fun heq => hown (heq ▸ hp)

/-- Inserting does not read the warnings. -/
theorem insert_of_unwarned_eq {other grown : History} {replacing : Bool}
    (heq : h.unwarned = other.unwarned) (hok : h.insert r replacing = .ok grown) :
    ∃ grown', other.insert r replacing = .ok grown' ∧ grown.unwarned = grown'.unwarned := by
  have hread : ∀ k : History, k.insertFault? r replacing = k.unwarned.insertFault? r replacing :=
    fun _ => rfl
  have hplace : ∀ k : History, (k.place r).unwarned = (k.unwarned.place r).unwarned :=
    fun _ => rfl
  obtain ⟨hfault, rfl⟩ := insert_eq_ok hok
  rw [hread, heq, ← hread] at hfault
  obtain ⟨grown', hok'⟩ := insert_succeeds_iff.mpr hfault
  refine ⟨grown', hok', ?_⟩
  obtain ⟨-, rfl⟩ := insert_eq_ok hok'
  calc (h.place r).unwarned = (h.unwarned.place r).unwarned := hplace h
    _ = (other.unwarned.place r).unwarned := by rw [heq]
    _ = (other.place r).unwarned := (hplace other).symm

/-- One insertion under a new id and the build of the longer list come to the same. -/
theorem unwarned_eq_of_insert (hbuild : build config revisions = .ok h) (hr : r.Admissible)
    (habsent : r.id ∉ h.nodes.keys) {grown built : History} (hok : h.insert r false = .ok grown)
    (hmore : build config (revisions ++ [r]) = .ok built) : grown.unwarned = built.unwarned := by
  obtain ⟨-, rfl⟩ := insert_eq_ok hok
  exact (built_of_build hbuild).unwarned_place (built_of_build hmore) (registered_build hbuild) hr
    habsent

/-- Revisions under new ids are inserted in turn, and each insertion succeeds. -/
inductive Grows (h : History) : List Revision → History → Prop
  | none : Grows h [] h
  | snoc {news : List Revision} {mid grown : History} {r : Revision} (hgrows : Grows h news mid)
      (hadmissible : r.Admissible) (habsent : r.id ∉ mid.nodes.keys)
      (hok : mid.insert r false = .ok grown) : Grows h (news ++ [r]) grown

theorem Grows.builds (hbuild : build config revisions = .ok h) {news : List Revision}
    {grown : History} (hgrows : h.Grows news grown) :
    ∃ built, build config (revisions ++ news) = .ok built ∧ grown.unwarned = built.unwarned := by
  induction hgrows with
  | none => exact ⟨h, by rw [List.append_nil, hbuild], rfl⟩
  | @snoc news mid grown r _ hr habsent hok ih =>
    obtain ⟨built, hbuilt, heq⟩ := ih
    have hnodes : mid.unwarned.nodes = built.unwarned.nodes := by rw [heq]
    have habsent' : r.id ∉ built.nodes.keys := fun hkey => habsent (hnodes ▸ hkey)
    obtain ⟨grown', hok', hgrown⟩ := insert_of_unwarned_eq heq hok
    obtain ⟨more, hmore⟩ := (insertFault?_eq_none_iff_builds hbuilt hr.not_own_parent habsent').mp
      (insert_succeeds_iff.mp ⟨grown', hok'⟩)
    rw [← List.append_assoc]
    exact ⟨more, hmore, hgrown.trans (unwarned_eq_of_insert hbuilt hr habsent' hok' hmore)⟩

/-- An insertion under a new id succeeds exactly when the longer list can be built, and comes to
the same history up to warnings; so growing by any number of new revisions is building them all
at once. -/
theorem growing_is_building (hbuild : build config revisions = .ok h) :
    (∀ r : Revision, r.Admissible → r.id ∉ h.nodes.keys →
      ((∃ grown, h.insert r false = .ok grown) ↔
        ∃ built, build config (revisions ++ [r]) = .ok built) ∧
      ∀ grown built, h.insert r false = .ok grown → build config (revisions ++ [r]) = .ok built →
        grown.unwarned = built.unwarned) ∧
    ∀ news grown, h.Grows news grown →
      ∃ built, build config (revisions ++ news) = .ok built ∧ grown.unwarned = built.unwarned := by
  refine ⟨fun r hr habsent => ⟨?_, fun grown built => ?_⟩, fun news grown => Grows.builds hbuild⟩
  · rw [insert_succeeds_iff]
    exact insertFault?_eq_none_iff_builds hbuild hr.not_own_parent habsent
  · exact unwarned_eq_of_insert hbuild hr habsent

end History

namespace Sample

/-- `a` is given twice and closes a cycle with `b`; `c` waits for `d`. -/
def tangled : List Revision :=
  revisions [(a, [b], []), (b, [a], [main]), (a, [b], []), (c, [d], [])]

/-- What `tangled` lacks, and one revision more. -/
def late : List Revision := revisions [(d, [a], [next]), (e, [c, d], [])]

end Sample

/-- Around a cycle and for a revision that is waited for, only the warnings tell the two apart. -/
theorem History.growing_is_building_on_cycle :
    ∃ h mid grown built, build Config.default Sample.tangled = .ok h ∧
      h.insert (.ofParts Sample.d [Sample.a] [Sample.next]) false = .ok mid ∧
      mid.insert (.ofParts Sample.e [Sample.c, Sample.d] []) false = .ok grown ∧
      build Config.default (Sample.tangled ++ Sample.late) = .ok built ∧
      (∃ more, build Config.default
        (Sample.tangled ++ [.ofParts Sample.d [Sample.a] [Sample.next]]) = .ok more) ∧
      grown.unwarned = built.unwarned ∧ grown.warnings ≠ built.warnings := by
  have hd : (Revision.ofParts Sample.d [Sample.a] [Sample.next]).Admissible :=
    Revision.admissible_ofParts (by decide)
  have he : (Revision.ofParts Sample.e [Sample.c, Sample.d] []).Admissible :=
    Revision.admissible_ofParts (by decide)
  obtain ⟨hone, hmany⟩ := @growing_is_building Config.default Sample.tangled _ rfl
  refine ⟨_, _, _, _, rfl, rfl, rfl, rfl, (hone _ hd (by decide)).1.mp ⟨_, rfl⟩, ?_, by decide⟩
  obtain ⟨built, hbuilt, heq⟩ := hmany Sample.late _
    (.snoc (.snoc .none hd (by decide) rfl) he (by decide) rfl)
  exact heq.trans (congrArg unwarned (Except.ok.inj (hbuilt.symm.trans rfl)))

end MigrationHistory
