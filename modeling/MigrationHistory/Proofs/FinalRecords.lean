import MigrationHistory.Proofs.Links

/-!
# The records that a list leaves

Of several revisions given under one id the last one is final: it is the one that a built table
holds, in the place of the first. Main statement: the revisions of a built table are the final
ones of the list. A list that repeats no id stands in the table as it is.
-/
namespace MigrationHistory

/-- The last revision of the list under its id. -/
def Revision.FinalIn (r : Revision) (revisions : List Revision) : Prop :=
  ∃ before after, revisions = before ++ r :: after ∧ ∀ s ∈ after, s.id ≠ r.id

variable {revisions : List Revision} {r s : Revision}

theorem Revision.FinalIn.mem (h : r.FinalIn revisions) : r ∈ revisions := by
  obtain ⟨before, after, rfl, -⟩ := h
  simp

/-- One more revision is final, and takes the place of the one under its id. -/
theorem Revision.finalIn_concat :
    r.FinalIn (revisions ++ [s]) ↔ r = s ∨ r.FinalIn revisions ∧ r.id ≠ s.id := by
  constructor
  · rintro ⟨before, after, heq, hlast⟩
    rcases List.eq_nil_or_concat' after with rfl | ⟨middle, t, rfl⟩
    · exact .inl (List.singleton_inj.mp (List.append_inj_right' heq rfl)).symm
    · rw [← List.cons_append, ← List.append_assoc] at heq
      obtain ⟨hfront, hend⟩ := List.append_inj' heq rfl
      obtain rfl := List.singleton_inj.mp hend
      refine .inr ⟨⟨before, middle, hfront, fun u hu => hlast u (by simp [hu])⟩, ?_⟩
      exact (hlast s (by simp)).symm
  · rintro (rfl | ⟨⟨before, after, rfl, hlast⟩, hne⟩)
    · exact ⟨revisions, [], rfl, by simp⟩
    · refine ⟨before, after ++ [s], by simp, fun u hu => ?_⟩
      rcases List.mem_append.mp hu with hold | hnew
      · exact hlast u hold
      · rw [List.mem_singleton.mp hnew]
        exact hne.symm

namespace Nodes

theorem ofRevisions_concat (revisions : List Revision) (r : Revision) :
    ofRevisions (revisions ++ [r]) = (ofRevisions revisions).enter r := by
  simp [ofRevisions]

/-- A built table holds the final revisions of the list. -/
theorem mem_ofRevisions : r ∈ (ofRevisions revisions).elements ↔ r.FinalIn revisions := by
  induction revisions using List.reverseRecOn with
  | nil =>
    constructor
    · intro h
      cases h
    · exact fun h => absurd h.mem List.not_mem_nil
  | append_singleton earlier s ih =>
    rw [ofRevisions_concat, Table.mem_enter, ih, Revision.finalIn_concat]

theorem mem_keys_ofRevisions {id : RevisionId} :
    id ∈ (ofRevisions revisions).keys ↔ ∃ s ∈ revisions, s.id = id := by
  induction revisions using List.reverseRecOn with
  | nil => simp [ofRevisions, Table.empty, Table.keys]
  | append_singleton earlier s ih =>
    rw [mem_keys] at ih ⊢
    simp only [ofRevisions_concat, Table.mem_enter, List.mem_append, List.mem_singleton]
    constructor
    · rintro ⟨t, rfl | ⟨ht, -⟩, rfl⟩
      · exact ⟨t, .inr rfl, rfl⟩
      · obtain ⟨u, hu, hid⟩ := ih.mp ⟨t, ht, rfl⟩
        exact ⟨u, .inl hu, hid⟩
    · rintro ⟨t, ht | rfl, rfl⟩
      · by_cases hid : t.id = s.id
        · exact ⟨s, .inl rfl, hid.symm⟩
        · obtain ⟨u, hu, huid⟩ := ih.mpr ⟨t, ht, rfl⟩
          exact ⟨u, .inr ⟨hu, huid ▸ hid⟩, huid⟩
      · exact ⟨t, .inl rfl, rfl⟩

/-- Without a repeated id the table lists the revisions as they are given. -/
theorem elements_ofRevisions (hnodup : (revisions.map Revision.id).Nodup) :
    (ofRevisions revisions).elements = revisions := by
  induction revisions using List.reverseRecOn with
  | nil => rfl
  | append_singleton earlier s ih =>
    rw [List.map_append, List.nodup_append] at hnodup
    obtain ⟨hearlier, -, hdisjoint⟩ := hnodup
    have habsent : s.id ∉ (ofRevisions earlier).keys := by
      rw [mem_keys_ofRevisions]
      rintro ⟨t, ht, hid⟩
      exact hdisjoint t.id (List.mem_map_of_mem ht) s.id (by simp) hid
    rw [ofRevisions_concat, Table.elements_enter_of_absent habsent, ih hearlier]

end Nodes

end MigrationHistory
