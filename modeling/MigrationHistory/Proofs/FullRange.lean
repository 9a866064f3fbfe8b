import MigrationHistory.Proofs.RangeExtent
import MigrationHistory.Proofs.Rebuild

/-!
# The full range

The range from all heads down to the base is the whole history. Without cycles every revision
stands under one that nothing names, which is a head, and with all parents present every
revision stands over one that names nothing, which is a base. Neither the heads nor the bases
reach each other, so that no bound is refused. Main statement: on a history that is not empty
the full range succeeds and lists every revision exactly once; a strict policy on missing
parents keeps all of them present over whole runs.
-/
namespace MigrationHistory

namespace History

open Nodes

variable {h : History}

section Ends

theorem revisions_heads (hheads : ∀ id ∈ h.heads, id ∈ h.nodes.keys) :
    h.revisions (.one "heads") = .ok (h.nodes.select h.heads) := by
  have hfound : ∀ r ∈ h.nodes.select h.heads, h.lookup r.id.text = .ok r :=
    fun r hr => lookup_id (mem_select.mp hr).1
  rw [revisions_one]
  change (h.heads.map RevisionId.text).mapM h.lookup = _
  rw [map_text_eq_select hheads]
  exact mapM_map_eq_ok hfound

/-- Nothing names a head, and nothing else stands over it. -/
theorem Reached.not_names_head (hreached : Reached Revision.Admissible h) {id : RevisionId}
    (hid : id ∈ h.heads) (c : RevisionId) : ¬ h.nodes.Names c id := by
  obtain ⟨r, hr, rfl, hhead⟩ := mem_idsWhere.mp ((hreached.headsAgree.1 id).mp hid)
  have hnamers := (hreached.fresh.linked.isHead_iff hreached.loopFree hr).mp hhead
  rw [names_iff_mem_namers (id_mem_keys hr), hnamers]
  exact List.not_mem_nil

theorem Reached.mem_heads_of_unnamed (hreached : Reached Revision.Admissible h) {id : RevisionId}
    (hkey : id ∈ h.nodes.keys) (hunnamed : ∀ c, ¬ h.nodes.Names c id) : id ∈ h.heads := by
  obtain ⟨r, hr, rfl⟩ := mem_keys.mp hkey
  refine (hreached.headsAgree.1 _).mpr (mem_idsWhere.mpr ⟨r, hr, rfl, ?_⟩)
  rw [hreached.fresh.linked.isHead_iff hreached.loopFree hr, List.eq_nil_iff_forall_not_mem]
  exact fun c hc => hunnamed c ((names_iff_mem_namers hkey).mpr hc)

theorem Reached.apart_heads (hreached : Reached Revision.Admissible h) :
    h.Apart (· ∈ h.heads) := by
  intro a b _ hb hdescends
  rcases Relation.ReflTransGen.cases_tail hdescends with heq | ⟨c, -, hnames⟩
  · exact heq.symm
  · exact absurd hnames (hreached.not_names_head hb c)

theorem apart_bases : h.Apart h.IsBase := by
  rintro a b ⟨r, hr, rfl, hbase⟩ - hdescends
  rcases Relation.ReflTransGen.cases_head hdescends with heq | ⟨p, hnames, -⟩
  · exact heq
  · have hparent := ((names_iff hr).mp hnames).2
    rw [hbase] at hparent
    exact absurd hparent List.not_mem_nil

/-- With all parents present every revision stands over a base. -/
theorem exists_base_under (hacyclic : h.nodes.Acyclic) (hpresent : h.nodes.ParentsPresent)
    {id : RevisionId} (hkey : id ∈ h.nodes.keys) :
    ∃ base, h.IsBase base ∧ h.nodes.Descends id base := by
  obtain ⟨low, hlow, hdescends, hnone⟩ := hacyclic.exists_lowest (P := (· ∈ h.nodes.keys)) hkey
  obtain ⟨r, hr, rfl⟩ := mem_keys.mp hlow
  refine ⟨r.id, ⟨r, hr, rfl, List.eq_nil_iff_forall_not_mem.mpr fun p hp => ?_⟩, hdescends⟩
  have hparent := hpresent r hr p hp
  exact hnone p ((names_iff hr).mpr ⟨hparent, hp⟩) hparent

/-- Between the heads and the bases lies everything. -/
theorem Reached.between_heads_bases (hreached : Reached Revision.Admissible h)
    (hacyclic : h.nodes.Acyclic) (hpresent : h.nodes.ParentsPresent) {id : RevisionId}
    (hkey : id ∈ h.nodes.keys) : h.Between (h.nodes.select h.heads) h.IsBase id := by
  obtain ⟨high, hdescends, hunnamed⟩ := hacyclic.exists_highest id
  have hhigh := hdescends.mem_left hkey
  obtain ⟨r, hr, rfl⟩ := mem_keys.mp hhigh
  have hhead := hreached.mem_heads_of_unnamed hhigh hunnamed
  exact ⟨⟨r, mem_select.mpr ⟨hr, hhead⟩, hdescends⟩, exists_base_under hacyclic hpresent hkey⟩

end Ends

/-- On a history without cycles that is not empty and lacks no parent, the full range succeeds
with every option and lists each revision exactly once. Under a strict policy no run ever lacks
a parent. -/
theorem full_range_lists_all (hreached : Reached Revision.Admissible h)
    (hnonempty : h.isEmpty = false) (hacyclic : h.nodes.Acyclic)
    (hparents : ∀ r ∈ h.nodes.elements, r.parents.Nodup) :
    (h.nodes.ParentsPresent → ∀ options, ∃ range listed,
      h.range (.one "heads") (.one "base") options = .ok range ∧ range.Emits listed ∧
        listed.Perm h.nodes.elements) ∧
    ∀ {admits : Revision → Prop} {grown : History}, Reached admits grown →
      grown.config.missingParent = .error → grown.nodes.ParentsPresent := by
  refine ⟨fun hpresent options => ?_, fun hgrown => hgrown.parentsPresent⟩
  have hheads : ∀ id ∈ h.heads, id ∈ h.nodes.keys := by
    intro id hid
    obtain ⟨r, hr, rfl, -⟩ := mem_idsWhere.mp ((hreached.headsAgree.1 id).mp hid)
    exact id_mem_keys hr
  have hbases : ∀ id ∈ h.bases, id ∈ h.nodes.keys := by
    intro id hid
    obtain ⟨r, hr, rfl, -⟩ := (hreached.mem_bases id).mp hid
    exact id_mem_keys hr
  have hids := map_id_select hheads
  have hall : ∀ r ∈ h.nodes.elements, h.Between (h.nodes.select h.heads) h.IsBase r.id :=
    fun r hr => hreached.between_heads_bases hacyclic hpresent (id_mem_keys hr)
  obtain ⟨-, hlists⟩ := @covers_of_boundary h _ [] h.IsBase hreached.fresh.linked hacyclic
    hparents (.one "heads") (.one "base") options (h.nodes.select h.bases) (by decide) (by decide)
    (revisions_heads hheads) (hids.symm ▸ hreached.headsAgree.2) rfl rfl
    (fun id => by rw [map_id_select hbases, hreached.mem_bases])
    (hids.symm ▸ hreached.apart_heads) apart_bases
  obtain ⟨first, hfirst⟩ := List.exists_mem_of_ne_nil h.nodes.elements fun hnil => by
    simp [isEmpty, hnil] at hnonempty
  obtain ⟨range, listed, hok, hemits, hnodup, hmem⟩ := hlists ⟨first.id, hall first hfirst⟩
  refine ⟨range, listed, hok, hemits, ?_⟩
  refine (List.perm_ext_iff_of_nodup (.of_map _ hnodup) (.of_map _ h.nodes.distinct_keys)).mpr ?_
  intro r
  rw [hmem]
  exact ⟨fun hr => hr.1, fun hr => ⟨hr, hall r hr, .inr List.not_mem_nil⟩⟩

/-- On a diamond built strictly the merge moves onto one arm, and the other becomes a head. -/
theorem full_range_after_move :
    ∃ h, History.build Sample.strict Sample.diamond = .ok h ∧
      (h.attempt (.ofParts Sample.d [Sample.b] []) true).heads = [Sample.c, Sample.d] ∧
      ∃ range listed, (h.attempt (.ofParts Sample.d [Sample.b] []) true).range (.one "heads")
          (.one "base") ⟨false, true⟩ = .ok range ∧ range.Emits listed ∧
        listed.Perm (h.attempt (.ofParts Sample.d [Sample.b] []) true).nodes.elements := by
  have hbuilt : Reached Revision.Admissible _ :=
    @Reached.build _ Sample.strict Sample.diamond _ (Sample.revisions_admissible (by decide)) rfl
  have hmoved := hbuilt.attempt true
    (@Revision.admissible_ofParts Sample.d [Sample.b] [] (by decide))
  obtain ⟨hcovers, hstrict⟩ := full_range_lists_all hmoved (by decide)
    (acyclic_of_rank [Sample.a, Sample.b, Sample.c].idxOf (by decide)) (by decide)
  exact ⟨_, rfl, by decide, hcovers (hstrict hmoved (by decide)) _⟩

end History

end MigrationHistory
