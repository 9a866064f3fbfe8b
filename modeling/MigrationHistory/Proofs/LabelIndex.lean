import MigrationHistory.Proofs.Refusal

/-!
# The label index over whole runs

Ids and labels share one space of names but stand in two indexes that change at different
moments. Main statement: in every run no registered label is an id, and a label is registered
to an owner exactly when the revision under that id declares it, so that a label which an
overwriting drops is free again; and a build collides exactly when its final records give one
name twice.
-/
namespace MigrationHistory

open Nodes

namespace History

variable {config : Config} {revisions : List Revision} {h : History} {r : Revision}

theorem unambiguous_build (hbuild : build config revisions = .ok h) : h.nodes.Unambiguous :=
  (built_of_build hbuild).sameRecords.unambiguous (build_succeeds_iff.mp ⟨h, hbuild⟩).2

theorem Registered.mem_labels_iff (hregistered : h.Registered) {label : BranchLabel}
    {owner : RevisionId} :
    (label, owner) ∈ h.labels.elements ↔ h.nodes.Declares label owner := hregistered label owner

theorem Registered.labelTarget?_eq_some_iff (hregistered : h.Registered) {label : BranchLabel}
    {owner : RevisionId} :
    h.labelTarget? label.text = some owner ↔ h.nodes.Declares label owner := by
  rw [labelTarget?, LabelIndex.owner?_eq_some_iff, hregistered.mem_labels_iff]

/-- A text leads to an owner when it is the text of a label that the owner declares. -/
theorem Registered.labelTarget?_text_iff (hregistered : h.Registered) {text : String}
    {owner : RevisionId} : h.labelTarget? text = some owner ↔
      ∃ label : BranchLabel, label.text = text ∧ h.nodes.Declares label owner := by
  constructor
  · intro htarget
    obtain ⟨⟨label, _⟩, hfind, rfl⟩ := Option.map_eq_some_iff.mp htarget
    have htext : label.text = text := by simpa using List.find?_some hfind
    exact ⟨label, htext, hregistered.mem_labels_iff.mp (List.mem_of_find?_eq_some hfind)⟩
  · rintro ⟨label, rfl, hdeclares⟩
    exact hregistered.labelTarget?_eq_some_iff.mpr hdeclares

/-- What a placed table declares, the new revision declares or another one did before. -/
theorem declares_placed {label : BranchLabel} {owner : RevisionId} :
    (h.placed r).Declares label owner ↔ owner = r.id ∧ label ∈ r.declared ∨
      owner ≠ r.id ∧ h.nodes.Declares label owner := by
  unfold Declares
  simp only [mem_placed]
  constructor
  · rintro ⟨y, rfl | ⟨x, hx, hne, rfl⟩, rfl, hdeclared⟩
    · exact .inl ⟨by simp, by simpa using hdeclared⟩
    · exact .inr ⟨by simpa using hne, x, hx, by simp, by simpa using hdeclared⟩
  · rintro (⟨rfl, hdeclared⟩ | ⟨hne, x, hx, rfl, hdeclared⟩)
    · exact ⟨_, .inl rfl, by simp, by simpa using hdeclared⟩
    · exact ⟨_, .inr ⟨x, hx, hne, rfl⟩, by simp, by simpa using hdeclared⟩

/-- An id that is no registered label is the text of no declared label. -/
theorem Registered.text_ne_of_target (hregistered : h.Registered)
    (hfree : h.labelTarget? r.id.text = none) {label : BranchLabel} {owner : RevisionId}
    (hdeclares : h.nodes.Declares label owner) : r.id.text ≠ label.text := by
  intro heq
  rw [heq, hregistered.labelTarget?_eq_some_iff.mpr hdeclares] at hfree
  cases hfree

theorem unambiguous_placed (hregistered : h.Registered) (hnodes : h.nodes.Unambiguous)
    (hid : h.labelTarget? r.id.text = none) (hnone : labelCollision? h.nodes h.labels r = none) :
    (h.placed r).Unambiguous := by
  have hfree := labelCollision?_eq_none_iff.mp hnone
  constructor
  · intro label owner hdeclares id hkey
    rcases declares_placed.mp hdeclares with ⟨-, hdeclared⟩ | ⟨-, hold⟩
    · rcases mem_keys_placed.mp hkey with rfl | hkey
      · exact (hfree label hdeclared).1.symm
      · exact (hfree label hdeclared).2.1 id hkey
    · rcases mem_keys_placed.mp hkey with rfl | hkey
      · exact hregistered.text_ne_of_target hid hold
      · exact hnodes.apart label owner hold id hkey
  · -- an owner of a label that `r` declares is `r` itself
    have howner : ∀ label owner, label ∈ r.declared → h.nodes.Declares label owner →
        owner = r.id := fun label owner hl hdeclares =>
      (hfree label hl).2.2 owner (hregistered.mem_labels_iff.mpr hdeclares)
    intro label a b ha hb
    rcases declares_placed.mp ha with ⟨rfl, hla⟩ | ⟨hne, ha⟩ <;>
      rcases declares_placed.mp hb with ⟨rfl, hlb⟩ | ⟨hne', hb⟩
    · rfl
    · exact absurd (howner label b hla hb) hne'
    · exact absurd (howner label a hlb ha) hne
    · exact hnodes.single label a b ha hb

/-- A placed table is unambiguous only if nothing spoke against the revision. -/
theorem free_of_unambiguous_placed (hregistered : h.Registered) (hnodes : h.nodes.Unambiguous)
    (hplaced : (h.placed r).Unambiguous) :
    h.labelTarget? r.id.text = none ∧ labelCollision? h.nodes h.labels r = none := by
  have hkey : r.id ∈ (h.placed r).keys := mem_keys_placed.mpr (.inl rfl)
  constructor
  · rw [Option.eq_none_iff_forall_not_mem]
    intro owner htarget
    obtain ⟨label, htext, hdeclares⟩ := hregistered.labelTarget?_text_iff.mp htarget
    -- the owner keeps its label unless it is overwritten, and then it is an id itself
    by_cases howner : owner = r.id
    · exact hnodes.apart label owner hdeclares r.id (howner ▸ hdeclares.mem_keys) htext.symm
    · exact hplaced.apart label owner (declares_placed.mpr (.inr ⟨howner, hdeclares⟩)) r.id hkey
        htext.symm
  · refine labelCollision?_eq_none_iff.mpr fun label hdeclared => ?_
    have hnew : (h.placed r).Declares label r.id := declares_placed.mpr (.inl ⟨rfl, hdeclared⟩)
    refine ⟨(hplaced.apart label r.id hnew r.id hkey).symm,
      fun id hid => hplaced.apart label r.id hnew id (mem_keys_placed.mpr (.inr hid)),
      fun owner hentry => ?_⟩
    by_contra howner
    have hold := declares_placed.mpr (.inr ⟨howner, hregistered.mem_labels_iff.mp hentry⟩)
    exact howner (hplaced.single label owner r.id hold hnew)

/-- In every run ids and labels are told apart, and a label is declared under one id only. -/
theorem Reached.unambiguous {admits : Revision → Prop} (hreached : Reached admits h) :
    h.nodes.Unambiguous := by
  refine (Reached.invariant (P := fun h => h.Registered ∧ h.nodes.Unambiguous) ?_ ?_ hreached).2
  · exact fun config revisions h _ hok => ⟨registered_build hok, unambiguous_build hok⟩
  · rintro h r replacing grown ⟨hregistered, hnodes⟩ - hok
    obtain ⟨hfault, rfl⟩ := insert_eq_ok hok
    obtain ⟨-, hid, hnone, -, -⟩ := insertFault?_eq_none_iff.mp hfault
    refine ⟨registered_place hregistered hnone, ?_⟩
    exact (sameRecords_of_bare_eq (bare_place_nodes h r).symm).unambiguous
      (unambiguous_placed hregistered hnodes hid hnone)

/-- The registered labels are no ids, and they are exactly the declared ones. -/
structure ExactLabels (h : History) : Prop where
  not_id : ∀ text owner, h.labelTarget? text = some owner → h.node? text = none
  target_iff : ∀ label owner, h.labelTarget? label.text = some owner ↔
    ∃ r ∈ h.nodes.elements, r.id = owner ∧ label ∈ r.declared
  declared_once : ∀ r ∈ h.nodes.elements, ∀ s ∈ h.nodes.elements, ∀ label,
    label ∈ r.declared → label ∈ s.declared → r = s

theorem Reached.exactLabels {admits : Revision → Prop} (hreached : Reached admits h) :
    h.ExactLabels where
  not_id := by
    intro text owner htarget
    obtain ⟨label, rfl, hdeclares⟩ := hreached.registered.labelTarget?_text_iff.mp htarget
    rw [node?, ← Option.not_isSome_iff_eq_none, named?_isSome_iff]
    rintro ⟨id, hid, htext⟩
    exact hreached.unambiguous.apart label owner hdeclares id hid htext
  target_iff := fun _ _ => hreached.registered.labelTarget?_eq_some_iff
  declared_once := fun _ hr _ hs _ hrl hsl => hreached.registered.owner_unique hr hs hrl hsl

/-- A label that overwriting its owner drops is taken for no revision under another name. -/
theorem Reached.free_of_dropped {admits : Revision → Prop} {replacing : Bool} {grown : History}
    (hreached : Reached admits h) (hok : h.insert r replacing = .ok grown) {label : BranchLabel}
    (htarget : h.labelTarget? label.text = some r.id) (hdropped : label ∉ r.declared)
    {s : Revision} (hs : label.text ≠ s.id.text) :
    labelHolder? grown.nodes grown.labels s label = none := by
  obtain ⟨hfault, rfl⟩ := insert_eq_ok hok
  obtain ⟨-, hid, hnone, -, -⟩ := insertFault?_eq_none_iff.mp hfault
  have hdeclares := hreached.registered.labelTarget?_eq_some_iff.mp htarget
  have hkeys : (h.place r).nodes.keys = (h.placed r).keys := keys_congr (bare_place_nodes h r)
  rw [labelHolder?_eq_none_iff]
  refine ⟨hs, fun id hkey => ?_, fun owner hentry => ?_⟩
  · have hkey' : id = r.id ∨ id ∈ h.nodes.keys := mem_keys_placed.mp (hkeys ▸ hkey)
    rcases hkey' with rfl | hold
    · exact hreached.registered.text_ne_of_target hid hdeclares
    · exact hreached.unambiguous.apart label r.id hdeclares id hold
  · -- nobody declares the label any more: its one declarer was overwritten
    have hplaced := (registered_place hreached.registered hnone label owner).mp hentry
    rcases declares_placed.mp ((declares_congr (bare_place_nodes h r)).mp hplaced) with
      ⟨-, hdeclared⟩ | ⟨hne, hold⟩
    · exact absurd hdeclared hdropped
    · exact absurd (hreached.unambiguous.single label owner r.id hold hdeclares) hne

/-- Final records of a list ask for one name twice: a declared label is the id of a record, or
it is declared under two ids. -/
inductive NamesClash (revisions : List Revision) : Prop
  | labelIsId {r s : Revision} {label : BranchLabel} (hr : r.FinalIn revisions)
      (hs : s.FinalIn revisions) (hdeclared : label ∈ r.declared)
      (htext : label.text = s.id.text)
  | labelTwice {r s : Revision} {label : BranchLabel} (hr : r.FinalIn revisions)
      (hs : s.FinalIn revisions) (hids : r.id ≠ s.id) (hrl : label ∈ r.declared)
      (hsl : label ∈ s.declared)

theorem unambiguous_ofRevisions_iff :
    (ofRevisions revisions).Unambiguous ↔ ¬ NamesClash revisions := by
  constructor
  · rintro hnodes (⟨hr, hs, hdeclared, htext⟩ | ⟨hr, hs, hids, hrl, hsl⟩)
    · exact hnodes.apart _ _ (declares_of_mem (mem_ofRevisions.mpr hr) hdeclared) _
        (id_mem_keys (mem_ofRevisions.mpr hs)) htext.symm
    · exact hids (hnodes.single _ _ _ (declares_of_mem (mem_ofRevisions.mpr hr) hrl)
        (declares_of_mem (mem_ofRevisions.mpr hs) hsl))
  · intro hclash
    constructor
    · rintro label _ ⟨r, hr, rfl, hdeclared⟩ id hid htext
      obtain ⟨s, hs, rfl⟩ := mem_keys.mp hid
      exact hclash (.labelIsId (mem_ofRevisions.mp hr) (mem_ofRevisions.mp hs) hdeclared
        htext.symm)
    · rintro label _ _ ⟨r, hr, rfl, hrl⟩ ⟨s, hs, rfl, hsl⟩
      by_contra hids
      exact hclash (.labelTwice (mem_ofRevisions.mp hr) (mem_ofRevisions.mp hs) hids hrl hsl)

theorem build_succeeds_iff_no_clash (htolerates : config.Tolerates revisions) :
    (∃ h, build config revisions = .ok h) ↔ ¬ NamesClash revisions := by
  rw [build_succeeds_iff, unambiguous_ofRevisions_iff]
  exact and_iff_right htolerates

theorem build_collides_iff (htolerates : config.Tolerates revisions) :
    (∃ label revision existing,
      build config revisions = .error (.labelCollision label revision existing)) ↔
      NamesClash revisions := by
  constructor
  · rintro ⟨label, revision, existing, hfails⟩
    by_contra hclash
    obtain ⟨h, hok⟩ := (build_succeeds_iff_no_clash htolerates).mpr hclash
    cases hfails.symm.trans hok
  · intro hclash
    cases hresult : build config revisions with
    | ok h => exact absurd hclash ((build_succeeds_iff_no_clash htolerates).mp ⟨h, hresult⟩)
    | error e =>
      obtain ⟨label, revision, existing, rfl⟩ := eq_labelCollision_of_build htolerates hresult
      exact ⟨label, revision, existing, rfl⟩

/-- In every run the registered labels are exactly the declared ones and no ids, whatever is
overwritten on the way, and what an overwriting drops is free again. A list that the policies
let through collides exactly when its final records ask for one name twice. -/
theorem labels_exact_and_collisions_found {admits : Revision → Prop} :
    (∀ h, Reached admits h → h.ExactLabels ∧
      ∀ r replacing grown label, h.insert r replacing = .ok grown →
        h.labelTarget? label.text = some r.id → label ∉ r.declared →
        ∀ s : Revision, label.text ≠ s.id.text →
          labelHolder? grown.nodes grown.labels s label = none) ∧
    ∀ config revisions, config.Tolerates revisions →
      ((∃ label revision existing,
        build config revisions = .error (.labelCollision label revision existing)) ↔
        NamesClash revisions) ∧
      ((∃ h, build config revisions = .ok h) ↔ ¬ NamesClash revisions) := by
  constructor
  · intro h hreached
    exact ⟨hreached.exactLabels, fun r replacing grown label hok htarget hdropped s hs =>
      hreached.free_of_dropped hok htarget hdropped hs⟩
  · intro config revisions htolerates
    exact ⟨build_collides_iff htolerates, build_succeeds_iff_no_clash htolerates⟩

end History

namespace Sample

/-- One label declared under two ids. -/
def twoOwners : List Revision := revisions [(a, [], [main]), (b, [a], [main])]

/-- Every structural problem is an error. -/
def strict : Config := ⟨some ⟨some .error, some .error⟩, none⟩

end Sample

/-- Overwriting `b` frees its label; a strict build of two owners collides. -/
theorem History.label_freed_by_overwriting :
    ∃ h grown, build Config.default Sample.chain = .ok h ∧
      h.insert (.ofParts Sample.b [Sample.a] []) false = .ok grown ∧
      grown.ExactLabels ∧ h.labelTarget? Sample.main.text = some Sample.b ∧
      labelHolder? grown.nodes grown.labels (.ofParts Sample.e [] []) Sample.main = none ∧
      NamesClash Sample.twoOwners ∧
      ∃ label revision existing,
        build Sample.strict Sample.twoOwners = .error (.labelCollision label revision existing) := by
  have hbuilt : Reached Revision.Admissible _ :=
    @Reached.build _ Config.default Sample.chain _ (Sample.revisions_admissible (by decide)) rfl
  have hgrown : Reached Revision.Admissible _ :=
    .attempt (r := .ofParts Sample.b [Sample.a] []) false hbuilt
      (Revision.admissible_ofParts (by decide))
  have hfirst : (Revision.ofParts Sample.a [] [Sample.main]).FinalIn Sample.twoOwners :=
    mem_ofRevisions.mp (by decide)
  have hsecond : (Revision.ofParts Sample.b [Sample.a] [Sample.main]).FinalIn Sample.twoOwners :=
    mem_ofRevisions.mp (by decide)
  have hclash : NamesClash Sample.twoOwners :=
    .labelTwice hfirst hsecond (by decide) (List.mem_singleton_self Sample.main)
      (List.mem_singleton_self Sample.main)
  have htolerates : Sample.strict.Tolerates Sample.twoOwners :=
    Config.tolerates_iff.mpr ⟨fun _ => rfl, fun _ => rfl⟩
  refine ⟨_, _, rfl, rfl, (labels_exact_and_collisions_found.1 _ hgrown).1, by decide, ?_, hclash,
    ((@labels_exact_and_collisions_found Revision.Admissible).2 _ _ htolerates).1.mpr hclash⟩
  exact (labels_exact_and_collisions_found.1 _ hbuilt).2 (.ofParts Sample.b [Sample.a] []) false _
    Sample.main rfl (by decide) (by decide) _ (by decide)

end MigrationHistory
