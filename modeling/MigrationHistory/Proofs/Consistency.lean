import MigrationHistory.Proofs.CycleSearch
import MigrationHistory.Proofs.LabelIndex

/-!
# What checking a history reports

A check reports five kinds of contradiction. Main statements: on every history, whatever its
revisions brought along, each kind is reported exactly where its condition fails, and nothing is
reported exactly when the history is consistent; the revision reported for a cycle is the first
one that leads to a cycle, which lies on one only if those that do not are entered later.
-/
namespace MigrationHistory

open Relation Nodes

theorem sameElements_iff {xs ys : List RevisionId} :
    sameElements xs ys ↔ ∀ id, id ∈ xs ↔ id ∈ ys := by
  simp only [sameElements, Bool.and_eq_true, List.all_eq_true, decide_eq_true_eq]
  exact ⟨fun h id => ⟨h.1 id, h.2 id⟩, fun h => ⟨fun id => (h id).mp, fun id => (h id).mpr⟩⟩

theorem isListing_iff {xs ys : List RevisionId} :
    isListing xs ys ↔ xs.Nodup ∧ ∀ id, id ∈ xs ↔ id ∈ ys := by
  rw [isListing, Bool.and_eq_true, decide_eq_true_eq, sameElements_iff]

namespace History

variable {h : History}

/-- The ids recorded as children of `p` are those of the revisions that name it. -/
def ChildrenExact (h : History) (p : Revision) : Prop :=
  ∀ c, c ∈ p.children ↔ ∃ r ∈ h.nodes.elements, r.id = c ∧ p.id ∈ r.parents

/-- The heads are the childless revisions, each once. -/
def HeadsExact (h : History) : Prop :=
  h.heads.Nodup ∧ ∀ id, id ∈ h.heads ↔ ∃ r ∈ h.nodes.elements, r.id = id ∧ r.children = []

/-- The bases are the revisions that name no parent, each once. -/
def BasesExact (h : History) : Prop :=
  h.bases.Nodup ∧ ∀ id, id ∈ h.bases ↔ ∃ r ∈ h.nodes.elements, r.id = id ∧ r.parents = []

theorem childrenExact_iff {p : Revision} :
    h.ChildrenExact p ↔ ∀ c, c ∈ p.children ↔ c ∈ h.nodes.namers p.id := by
  refine forall_congr' fun c => ?_
  rw [mem_namers]
  simp only [and_comm]

theorem childrenAgree_iff {p : Revision} : h.childrenAgree p ↔ h.ChildrenExact p := by
  rw [childrenAgree, sameElements_iff, childrenExact_iff]

theorem isListing_heads_iff : isListing h.heads (h.nodes.idsWhere Revision.isHead) ↔
    h.HeadsExact := by
  rw [isListing_iff]
  simp only [mem_idsWhere, Revision.isHead, List.isEmpty_iff]
  rfl

theorem isListing_bases_iff : isListing h.bases (h.nodes.idsWhere Revision.isBase) ↔
    h.BasesExact := by
  rw [isListing_iff]
  simp only [mem_idsWhere, Revision.isBase, List.isEmpty_iff]
  rfl

theorem isDeclared_iff {entry : BranchLabel × RevisionId} :
    h.isDeclared entry ↔ h.nodes.Declares entry.1 entry.2 := by
  simp only [isDeclared, Option.any_eq_true, decide_eq_true_eq, Table.find?_eq_some_iff]
  exact exists_congr fun r => and_assoc

/-- A contradiction of the history, with what it concerns. -/
inductive Contradicts (h : History) : Inconsistency → Prop
  | cycle {r : Revision} (hfirst : First (fun s => h.nodes.ReachesCycle s.id) h.nodes.elements r) :
      Contradicts h (.cycle r.id.text)
  | childLinks {p : Revision} (hp : p ∈ h.nodes.elements) (hinexact : ¬ h.ChildrenExact p) :
      Contradicts h (.childLinks p.id.text)
  | heads (hinexact : ¬ h.HeadsExact) : Contradicts h .heads
  | bases (hinexact : ¬ h.BasesExact) : Contradicts h .bases
  | danglingLabel {label : BranchLabel} {owner : RevisionId}
      (hentry : (label, owner) ∈ h.labels.elements) (hnot : ¬ h.nodes.Declares label owner) :
      Contradicts h (.danglingLabel label.text owner.text)

theorem mem_unless {c : Bool} {e reported : Inconsistency} :
    e ∈ (if c then [] else [reported]) ↔ ¬ c ∧ e = reported := by
  cases c <;> simp

/-- What a check reports are the contradictions of the history. -/
theorem mem_inconsistencies_iff {e : Inconsistency} :
    e ∈ h.inconsistencies ↔ h.Contradicts e := by
  simp only [inconsistencies, List.mem_append, List.mem_map, List.mem_filter, Option.mem_toList,
    mem_unless, isListing_heads_iff, isListing_bases_iff, Bool.not_eq_true', ← Bool.not_eq_true,
    childrenAgree_iff, isDeclared_iff, cycle?_eq_some_iff, Prod.exists]
  constructor
  · intro h
    rcases h with (((⟨r, hfirst, rfl⟩ | ⟨p, ⟨hp, hinexact⟩, rfl⟩) | ⟨hinexact, rfl⟩) |
      ⟨hinexact, rfl⟩) | ⟨label, owner, ⟨hentry, hnot⟩, rfl⟩
    · exact .cycle hfirst
    · exact .childLinks hp hinexact
    · exact .heads hinexact
    · exact .bases hinexact
    · exact .danglingLabel hentry hnot
  · intro h
    cases h with
    | cycle hfirst => exact .inl (.inl (.inl (.inl ⟨_, hfirst, rfl⟩)))
    | childLinks hp hinexact => exact .inl (.inl (.inl (.inr ⟨_, ⟨hp, hinexact⟩, rfl⟩)))
    | heads hinexact => exact .inl (.inl (.inr ⟨hinexact, rfl⟩))
    | bases hinexact => exact .inl (.inr ⟨hinexact, rfl⟩)
    | danglingLabel hentry hnot => exact .inr ⟨_, _, ⟨hentry, hnot⟩, rfl⟩

/-- On every history a check reports a cycle exactly when some revision comes back to itself,
the children of a revision, the heads and the bases exactly when they are not what the parents
named make them, a label exactly when its owner does not declare it, and is passed exactly when
nothing is reported. In a run the heads repeat nothing, so that only their members count. -/
theorem inconsistencies_exact (h : History) :
    ((∃ text, .cycle text ∈ h.inconsistencies) ↔ ∃ id, TransGen h.nodes.Names id id) ∧
    (∀ text, .childLinks text ∈ h.inconsistencies ↔
      ∃ p ∈ h.nodes.elements, p.id.text = text ∧ ¬ h.ChildrenExact p) ∧
    (.heads ∈ h.inconsistencies ↔ ¬ h.HeadsExact) ∧
    (.bases ∈ h.inconsistencies ↔ ¬ h.BasesExact) ∧
    (∀ text owner, .danglingLabel text owner ∈ h.inconsistencies ↔
      ∃ entry ∈ h.labels.elements, entry.1.text = text ∧ entry.2.text = owner ∧
        ¬ ∃ r ∈ h.nodes.elements, r.id = entry.2 ∧ entry.1 ∈ r.declared) ∧
    (h.isConsistent ↔ ∀ e, e ∉ h.inconsistencies) ∧
    ∀ admits, Reached admits h → h.heads.Nodup := by
  simp only [mem_inconsistencies_iff]
  refine ⟨?_, fun text => ?_, ?_, ?_, fun text owner => ?_, ?_, fun _ hreached =>
    hreached.heads_nodup⟩
  · constructor
    · intro hreported
      obtain ⟨_, ⟨hfirst⟩⟩ := hreported
      obtain ⟨c, -, hcycle⟩ := hfirst.holds
      exact ⟨c, hcycle⟩
    · intro hcycle
      by_contra hnone
      have hacyclic : h.nodes.Acyclic := by
        rw [← cycle?_eq_none_iff, Option.eq_none_iff_forall_ne_some]
        exact fun r hr => hnone ⟨_, .cycle (cycle?_eq_some_iff.mp hr)⟩
      obtain ⟨id, hid⟩ := hcycle
      exact hacyclic id hid
  · constructor
    · intro hreported
      cases hreported with
      | childLinks hp hinexact => exact ⟨_, hp, rfl, hinexact⟩
    · intro hp
      obtain ⟨p, hp, rfl, hinexact⟩ := hp
      exact .childLinks hp hinexact
  · constructor
    · intro hreported
      cases hreported with
      | heads hinexact => exact hinexact
    · exact .heads
  · constructor
    · intro hreported
      cases hreported with
      | bases hinexact => exact hinexact
    · exact .bases
  · constructor
    · intro hreported
      cases hreported with
      | danglingLabel hentry hnot => exact ⟨_, hentry, rfl, rfl, hnot⟩
    · intro hentry
      obtain ⟨entry, hentry, rfl, rfl, hnot⟩ := hentry
      exact .danglingLabel hentry hnot
  · rw [isConsistent, List.isEmpty_iff, List.eq_nil_iff_forall_not_mem]
    exact forall_congr' fun e => not_congr mem_inconsistencies_iff

end History

namespace Sample

/-- Two revisions that name each other, and one that brings a child from another history. -/
def entangled : List Revision := revisions [(a, [b], []), (b, [a], [])] ++ [⟨c, [], [e], [], []⟩]

end Sample

/-- A cycle and a child from elsewhere are reported, and with the child the heads. -/
theorem History.inconsistencies_of_entangled :
    ∃ h, History.build Config.default Sample.entangled = .ok h ∧
      h.inconsistencies = [.cycle "a", .childLinks "c", .heads] ∧ h.heads.Nodup ∧
      (∃ id, TransGen h.nodes.Names id id) ∧ ¬ h.HeadsExact ∧ h.BasesExact := by
  refine ⟨_, rfl, by decide, ?_, ?_, ?_, ?_⟩
  · have hbuilt : Reached (fun _ => True) _ :=
      @Reached.build _ Config.default Sample.entangled _ (fun _ _ => trivial) rfl
    exact (inconsistencies_exact _).2.2.2.2.2.2 _ hbuilt
  · exact (inconsistencies_exact _).1.mp ⟨"a", by decide⟩
  · exact (inconsistencies_exact _).2.2.1.mp (by decide)
  · exact not_not.mp (mt (inconsistencies_exact _).2.2.2.1.mpr (by decide))

namespace History

variable {h : History}

theorem cycle_mem_inconsistencies_iff {r : Revision}
    (hfirst : First (fun s => h.nodes.ReachesCycle s.id) h.nodes.elements r) {text : String} :
    .cycle text ∈ h.inconsistencies ↔ text = r.id.text := by
  rw [mem_inconsistencies_iff]
  constructor
  · intro hreported
    cases hreported with
    | cycle hother =>
      have hsame := (cycle?_eq_some_iff.mpr hother).symm.trans (cycle?_eq_some_iff.mpr hfirst)
      rw [Option.some.inj hsame]
  · rintro rfl
    exact .cycle hfirst

/-- The first revision that leads to a cycle lies on one exactly when some revision that does is
entered before all that only approach one. -/
theorem first_on_cycle_iff {nodes : Nodes} {r : Revision}
    (hfirst : First (fun s => nodes.ReachesCycle s.id) nodes.elements r) :
    TransGen nodes.Names r.id r.id ↔ ∃ before s after, nodes.elements = before ++ s :: after ∧
      TransGen nodes.Names s.id s.id ∧ ∀ q ∈ before, ¬ nodes.Approaches q.id := by
  constructor
  · intro hcycle
    obtain ⟨before, after, hsplit, -, hnone⟩ := hfirst
    exact ⟨before, r, after, hsplit, hcycle, fun q hq happroaches => hnone q hq happroaches.1⟩
  · rintro ⟨before, s, after, hsplit, hcycle, hnone⟩
    have hreaches := hfirst.holds
    rw [hsplit] at hfirst
    rcases hfirst.mem_or_eq ⟨s.id, .refl s.id, hcycle⟩ with hbefore | rfl
    · by_contra hoff
      exact hnone r hbefore ⟨hreaches, hoff⟩
    · exact hcycle

/-- Where there is a cycle exactly one revision is reported, the first that leads to a cycle. It
lies on one itself exactly when some revision that does is entered before all that only approach
one. -/
theorem cycle_reported_at (hcycle : ∃ id, TransGen h.nodes.Names id id) :
    ∃ r, First (fun s => h.nodes.ReachesCycle s.id) h.nodes.elements r ∧
      (∀ text, .cycle text ∈ h.inconsistencies ↔ text = r.id.text) ∧
      (TransGen h.nodes.Names r.id r.id ↔
        ∃ before s after, h.nodes.elements = before ++ s :: after ∧
          TransGen h.nodes.Names s.id s.id ∧ ∀ q ∈ before, ¬ h.nodes.Approaches q.id) := by
  obtain ⟨id, hid⟩ := hcycle
  obtain ⟨r, hfirst⟩ := exists_first_iff.mpr (exists_reachesCycle hid)
  exact ⟨r, hfirst, fun text => cycle_mem_inconsistencies_iff hfirst, first_on_cycle_iff hfirst⟩

end History

namespace Sample

/-- `b` and `c` name each other, and `a` names `b`. -/
def approached : List Revision := revisions [(a, [b], []), (b, [c], []), (c, [b], [])]

theorem names_approached {nodes : Nodes} (hnodes : nodes.SameRecords (ofRevisions approached)) :
    nodes.Names b c ∧ nodes.Names c b ∧ ∀ id, ¬ nodes.Names id a := by
  rw [hnodes.names_eq]
  refine ⟨⟨by decide, .ofParts b [c] [], by decide, rfl, by decide⟩,
    ⟨by decide, .ofParts c [b] [], by decide, rfl, by decide⟩, ?_⟩
  rintro id ⟨-, r, hr, rfl, hmem⟩
  have hnone : ∀ r ∈ (ofRevisions approached).elements, a ∉ r.parents := by decide
  exact hnone r hr hmem

end Sample

/-- The cycle is reported at one of its revisions where they are entered first. -/
theorem History.cycle_reported_at_entered_first :
    ∃ (h : History) (r : Revision),
      History.build Config.default Sample.approached.reverse = .ok h ∧
      (∃ id, TransGen h.nodes.Names id id) ∧ .cycle r.id.text ∈ h.inconsistencies ∧
      r.id = Sample.c ∧ TransGen h.nodes.Names r.id r.id := by
  obtain ⟨h, hbuild⟩ : ∃ h, History.build Config.default Sample.approached.reverse = .ok h :=
    ⟨_, rfl⟩
  have hrecords : (ofRevisions Sample.approached.reverse).SameRecords
      (ofRevisions Sample.approached) := by
    unfold SameRecords
    decide
  obtain ⟨hbc, hcb, -⟩ :=
    Sample.names_approached ((built_of_build hbuild).sameRecords.symm.trans hrecords)
  have hcycle : TransGen h.nodes.Names Sample.c Sample.c := .head hcb (.single hbc)
  have hreported : .cycle Sample.c.text ∈ h.inconsistencies := by
    obtain rfl := Except.ok.inj hbuild
    decide
  obtain ⟨r, -, hr, -⟩ := cycle_reported_at ⟨Sample.c, hcycle⟩
  have hid : r.id = Sample.c := RevisionId.ext_text ((hr _).mp hreported).symm
  exact ⟨h, r, hbuild, ⟨Sample.c, hcycle⟩, (hr _).mpr rfl, hid, hid ▸ hcycle⟩

/-- Entered before the cycle, the one that approaches it is reported in place of it. -/
theorem History.cycle_reported_beside :
    ∃ h, Reached Revision.Admissible h ∧
      History.build Config.default Sample.approached = .ok h ∧
      (∃ id, TransGen h.nodes.Names id id) ∧ .cycle Sample.a.text ∈ h.inconsistencies ∧
      ¬ TransGen h.nodes.Names Sample.a Sample.a := by
  obtain ⟨h, hbuild⟩ : ∃ h, History.build Config.default Sample.approached = .ok h := ⟨_, rfl⟩
  obtain ⟨hbc, hcb, hunnamed⟩ := Sample.names_approached (built_of_build hbuild).sameRecords.symm
  have hreported : .cycle Sample.a.text ∈ h.inconsistencies := by
    obtain rfl := Except.ok.inj hbuild
    decide
  have hoff : ¬ TransGen h.nodes.Names Sample.a Sample.a := by
    intro hcycle
    obtain ⟨id, -, hlast⟩ := TransGen.tail'_iff.mp hcycle
    exact hunnamed id hlast
  exact ⟨h, .build (Sample.revisions_admissible (by decide)) hbuild, hbuild,
    ⟨Sample.b, .head hbc (.single hcb)⟩, hreported, hoff⟩

end MigrationHistory
