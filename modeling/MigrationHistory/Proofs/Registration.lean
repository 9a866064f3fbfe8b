import MigrationHistory.Proofs.Placement

/-!
# The label index

A label is registered when the revision that declares it is built or inserted; an overwritten
revision leaves only what its successor declares again. Since a taken name is refused before
anything is registered, no registration ever moves to another owner. Main statement: in every
run a label is registered to an owner exactly when the revision under that id declares it.
-/
namespace MigrationHistory

open Nodes

theorem LabelIndex.owner?_eq_some_iff {index : LabelIndex} {label : BranchLabel}
    {owner : RevisionId} : index.owner? label.text = some owner ↔
      (label, owner) ∈ index.elements := by
  have hfind : (index.elements.find? fun entry => entry.1.text = label.text) =
      index.find? label := by
    unfold Table.find?
    congr 1
    funext entry
    exact decide_eq_decide.mpr ⟨BranchLabel.ext_text, congrArg BranchLabel.text⟩
  rw [LabelIndex.owner?, hfind, Option.map_eq_some_iff]
  constructor
  · rintro ⟨⟨l, o⟩, hentry, rfl⟩
    obtain ⟨hmem, rfl⟩ := Table.find?_eq_some_iff.mp hentry
    exact hmem
  · intro hmem
    exact ⟨(label, owner), Table.find?_eq_some_iff.mpr ⟨hmem, rfl⟩, rfl⟩

theorem LabelIndex.mem_register {index : LabelIndex} {r : Revision} {label : BranchLabel}
    {owner : RevisionId} : (label, owner) ∈ (index.register r).elements ↔
      label ∈ r.declared ∧ owner = r.id ∨
        label ∉ r.declared ∧ (label, owner) ∈ index.elements := by
  have hfold : ∀ (labels : List BranchLabel) (index : LabelIndex),
      (label, owner) ∈ (labels.foldl (fun index l => index.enter (l, r.id)) index).elements ↔
        label ∈ labels ∧ owner = r.id ∨ label ∉ labels ∧ (label, owner) ∈ index.elements := by
    intro labels
    induction labels with
    | nil => simp
    | cons first rest ih =>
      intro index
      rw [List.foldl_cons, ih, Table.mem_enter]
      simp only [List.mem_cons, Prod.mk.injEq]
      by_cases hfirst : label = first
      · subst hfirst
        by_cases hrest : label ∈ rest <;> simp [hrest]
      · by_cases hrest : label ∈ rest <;> simp [hrest, hfirst]
  exact hfold r.declared index

/-- Without a collision, what is registered under a declared label belongs to its revision. -/
theorem owner_eq_of_no_collision {nodes : Nodes} {index : LabelIndex} {r : Revision}
    (hnone : labelCollision? nodes index r = none) {label : BranchLabel} {owner : RevisionId}
    (hdeclared : label ∈ r.declared) (hentry : (label, owner) ∈ index.elements) :
    owner = r.id := by
  have hholder := List.findSome?_eq_none_iff.mp hnone label hdeclared
  rw [Option.map_eq_none_iff, labelHolder?] at hholder
  split at hholder
  · cases hholder
  · rw [LabelIndex.owner?_eq_some_iff.mpr hentry] at hholder
    simpa using hholder

/-- Registering without a collision adds the declared labels and keeps everything else. -/
theorem mem_register_of_no_collision {nodes : Nodes} {index : LabelIndex} {r : Revision}
    (hnone : labelCollision? nodes index r = none) {label : BranchLabel} {owner : RevisionId} :
    (label, owner) ∈ (index.register r).elements ↔
      (label, owner) ∈ index.elements ∨ owner = r.id ∧ label ∈ r.declared := by
  rw [LabelIndex.mem_register]
  constructor
  · rintro (⟨hdeclared, howner⟩ | ⟨-, hentry⟩)
    · exact .inr ⟨howner, hdeclared⟩
    · exact .inl hentry
  · rintro (hentry | ⟨howner, hdeclared⟩)
    · by_cases hdeclared : label ∈ r.declared
      · exact .inl ⟨hdeclared, owner_eq_of_no_collision hnone hdeclared hentry⟩
      · exact .inr ⟨hdeclared, hentry⟩
    · exact .inl ⟨hdeclared, howner⟩

theorem mem_labelIndex {nodes : Nodes} {index : LabelIndex} (hok : nodes.labelIndex = .ok index)
    {label : BranchLabel} {owner : RevisionId} : (label, owner) ∈ index.elements ↔
      ∃ r ∈ nodes.elements, r.id = owner ∧ label ∈ r.declared := by
  have hfold : ∀ (rs : List Revision) (start : LabelIndex),
      rs.foldlM (indexLabels nodes) start = .ok index →
      ((label, owner) ∈ index.elements ↔ (label, owner) ∈ start.elements ∨
        ∃ r ∈ rs, r.id = owner ∧ label ∈ r.declared) := by
    intro rs
    induction rs with
    | nil =>
      intro start h
      cases h
      simp
    | cons r rest ih =>
      intro start h
      rw [List.foldlM_cons] at h
      cases hcollision : labelCollision? nodes start r with
      | some error =>
        simp only [indexLabels, hcollision, bind, Except.bind] at h
        cases h
      | none =>
        simp only [indexLabels, hcollision, bind, Except.bind] at h
        rw [ih _ h, mem_register_of_no_collision hcollision]
        rw [or_assoc, eq_comm (a := owner)]
        simp only [List.mem_cons, exists_eq_or_imp]
  rw [hfold nodes.elements Table.empty hok]
  simp [Table.empty]

namespace History

/-- The registrations are the declarations. -/
def Registered (h : History) : Prop :=
  ∀ label owner, (label, owner) ∈ h.labels.elements ↔
    ∃ r ∈ h.nodes.elements, r.id = owner ∧ label ∈ r.declared

theorem no_collision_of_no_fault {h : History} {r : Revision} {replacing : Bool}
    (hfault : h.insertFault? r replacing = none) : labelCollision? h.nodes h.labels r = none :=
  List.findSome?_eq_none_iff.mp hfault .labelTaken (by decide)

/-- Declarations are read off the table up to propagated labels. -/
theorem declares_congr {nodes other : Nodes} (hbare : nodes.bare = other.bare)
    {label : BranchLabel} {owner : RevisionId} :
    (∃ r ∈ nodes.elements, r.id = owner ∧ label ∈ r.declared) ↔
      ∃ r ∈ other.elements, r.id = owner ∧ label ∈ r.declared := by
  constructor
  · rintro ⟨r, hr, rfl, hdeclared⟩
    obtain ⟨s, hs, halike⟩ := exists_alike hbare hr
    exact ⟨s, hs, halike.id.symm, halike.declared ▸ hdeclared⟩
  · rintro ⟨r, hr, rfl, hdeclared⟩
    obtain ⟨s, hs, halike⟩ := exists_alike hbare.symm hr
    exact ⟨s, hs, halike.id.symm, halike.declared ▸ hdeclared⟩

theorem registered_build {config : Config} {revisions : List Revision} {h : History}
    (hbuild : History.build config revisions = .ok h) : h.Registered := by
  have hbuilt := built_of_build hbuild
  intro label owner
  have hbare := hbuilt.bare
  rw [mem_labelIndex hbuilt.labels, declares_congr hbare]
  constructor
  · rintro ⟨r, hr, rfl, hdeclared⟩
    exact ⟨_, mem_link.mpr ⟨r, hr, rfl⟩, rfl, hdeclared⟩
  · rintro ⟨r, hr, rfl, hdeclared⟩
    obtain ⟨s, hs, rfl⟩ := mem_link.mp hr
    exact ⟨s, hs, rfl, hdeclared⟩

theorem registered_place {h : History} {r : Revision} (hregistered : h.Registered)
    (hnone : labelCollision? h.nodes h.labels r = none) : (h.place r).Registered := by
  intro label owner
  have hretained : (label, owner) ∈ (h.retainedLabels r).elements ↔
      (label, owner) ∈ h.labels.elements ∧ (owner ≠ r.id ∨ label ∈ r.declared) := by
    simp [retainedLabels, Table.filter]
  have hlabels : (h.place r).labels = (h.retainedLabels r).register r := rfl
  rw [hlabels, LabelIndex.mem_register, hretained, declares_congr (bare_place_nodes h r)]
  simp only [mem_placed]
  constructor
  · rintro (⟨hdeclared, rfl⟩ | ⟨hnot, hentry, hne⟩)
    · exact ⟨_, .inl rfl, by simp, by simpa using hdeclared⟩
    · obtain ⟨x, hx, rfl, hdeclared⟩ := (hregistered label owner).mp hentry
      exact ⟨_, .inr ⟨x, hx, hne.resolve_right hnot, rfl⟩, by simp, by simpa using hdeclared⟩
  · rintro ⟨y, rfl | ⟨x, hx, hne, rfl⟩, rfl, hdeclared⟩
    · exact .inl ⟨by simpa using hdeclared, by simp⟩
    · simp only [linkedNode_id, releasedNode_id, linkedNode_declared,
        releasedNode_declared] at hdeclared ⊢
      have hentry := (hregistered label x.id).mpr ⟨x, hx, rfl, hdeclared⟩
      exact .inr ⟨fun h => hne (owner_eq_of_no_collision hnone h hentry), hentry, .inl hne⟩

/-- In every run the registrations are the declarations. -/
theorem Reached.registered {admits : Revision → Prop} {h : History}
    (hreached : Reached admits h) : h.Registered := by
  refine Reached.invariant (P := Registered) ?_ ?_ hreached
  · exact fun config revisions h _ hok => registered_build hok
  · intro h r replacing grown hregistered _ hok
    obtain ⟨hfault, rfl⟩ := insert_eq_ok hok
    exact registered_place hregistered (no_collision_of_no_fault hfault)

/-- No label has two owners. -/
theorem Registered.owner_unique {h : History} (hregistered : h.Registered)
    {r s : Revision} (hr : r ∈ h.nodes.elements) (hs : s ∈ h.nodes.elements)
    {label : BranchLabel} (hrl : label ∈ r.declared) (hsl : label ∈ s.declared) : r = s := by
  have hrentry := (hregistered label r.id).mpr ⟨r, hr, rfl, hrl⟩
  have hsentry := (hregistered label s.id).mpr ⟨s, hs, rfl, hsl⟩
  have heq := h.labels.eq_of_key_eq hrentry hsentry rfl
  exact h.nodes.eq_of_key_eq hr hs (congrArg Prod.snd heq)

end History

end MigrationHistory
