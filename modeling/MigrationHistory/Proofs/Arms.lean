import MigrationHistory.History.Range
import MigrationHistory.Proofs.Ancestry

/-!
# Arms of a walk

A walk goes down one arm after the other. An arm is what a root reaches through parents of
the space that are no forks; the roots are what is queued at first and then the forks, in
the order in which the arms show them. On a table without cycles an arm is finite, however
often its branches meet. Main statements: from every state a walk passes the arms of its
roots in turn and then stops, and it takes no more steps than its bound.
-/
namespace MigrationHistory

theorem Nodes.select_append (nodes : Nodes) (xs ys : List RevisionId) :
    nodes.select (xs ++ ys) = nodes.select xs ++ nodes.select ys := List.filterMap_append

theorem Nodes.select_singleton {nodes : Nodes} {r : Revision} (hr : r ∈ nodes.elements) :
    nodes.select [r.id] = [r] := by
  have hfind : nodes.find? r.id = some r := Table.find?_eq_some_iff.mpr ⟨hr, rfl⟩
  simp [select, hfind]

theorem Nodes.map_id_select_eq (nodes : Nodes) (ids : List RevisionId) :
    (nodes.select ids).map Revision.id = ids.filter (· ∈ nodes.keys) := by
  induction ids with
  | nil => rfl
  | cons id rest ih =>
    have hcons : nodes.select (id :: rest) = nodes.select [id] ++ nodes.select rest :=
      select_append nodes [id] rest
    rw [hcons, List.map_append, ih]
    by_cases hid : id ∈ nodes.keys
    · obtain ⟨r, hr, rfl⟩ := mem_keys.mp hid
      rw [select_singleton hr, List.filter_cons_of_pos (by simpa using hid)]
      rfl
    · have hfind : nodes.find? id = none := Table.find?_eq_none_iff.mpr hid
      rw [List.filter_cons_of_neg (by simpa using hid)]
      simp [select, hfind]

namespace Walk

open Nodes

/-- The forks that the parents of `revisions` show for the first time. -/
def met (w : Walk) (revisions : List Revision) : List RevisionId :=
  distinct ((revisions.flatMap Revision.parents).filter fun parent =>
    parent ∈ w.forks && parent ∉ w.queued)

/-- The walk after `passed`, with `rest` in its queue before the forks that `passed` shows. -/
def after (w : Walk) (passed rest : List Revision) : Walk :=
  { w with
    queue := rest ++ w.nodes.select (w.met passed)
    queued := w.queued ++ w.met passed }

inductive Steps : Walk → List Revision → Walk → Prop
  | refl (w : Walk) : Steps w [] w
  | head {w next last : Walk} {r : Revision} {rs : List Revision}
      (hstep : w.step? = some (r, next)) (hrest : Steps next rs last) : Steps w (r :: rs) last

/-- A walk passes revisions and then stops. -/
def Passes (w : Walk) (rs : List Revision) : Prop := ∃ last, Steps w rs last ∧ last.queue = []

/-- No cycles, and nothing queued that is not in the table. -/
structure Grounded (w : Walk) : Prop where
  acyclic : w.nodes.Acyclic
  queue_mem : ∀ r ∈ w.queue, r ∈ w.nodes.elements

/-- The arm of a revision, cut off after `n` generations. -/
def arm (w : Walk) : Nat → Revision → List Revision
  | 0, _ => []
  | n + 1, r => r :: (w.nodes.select (w.onArm r)).flatMap (w.arm n)

/-- The arm of a revision. Its ancestry is no longer than the table. -/
def armOf (w : Walk) (r : Revision) : List Revision := w.arm (w.nodes.size + 1) r

/-- The roots of the first `n` arms: what waits longest starts the next arm. -/
def rootsWithin : Nat → Walk → List Revision
  | 0, _ => []
  | n + 1, w =>
    match w.queue with
    | [] => []
    | r :: rest => r :: rootsWithin n (w.after (w.armOf r) rest)

/-- The roots of all arms, in the order of their arms. -/
def armRoots (w : Walk) : List Revision := w.rootsWithin (w.queue.length + w.forks.length)

def passed (w : Walk) : List Revision := w.armRoots.flatMap w.armOf

/-- How many arms may still start. -/
def pending (w : Walk) : Nat :=
  w.queue.length + (w.forks.filter fun fork => fork ∉ w.queued).length

variable {w : Walk} {r : Revision} {rest xs ys : List Revision}

section Met

theorem mem_met {id : RevisionId} :
    id ∈ w.met xs ↔ id ∈ w.forks ∧ id ∉ w.queued ∧ ∃ x ∈ xs, id ∈ x.parents := by
  simp only [met, mem_distinct, List.mem_filter, List.mem_flatMap, Bool.and_eq_true,
    decide_eq_true_eq]
  tauto

theorem met_nodup (w : Walk) (xs : List Revision) : (w.met xs).Nodup := nodup_distinct _

theorem met_eq (w : Walk) (rs : List Revision) :
    w.met rs = (distinct (rs.flatMap Revision.parents)).filter fun parent =>
      parent ∈ w.forks && parent ∉ w.queued := distinct_filter _ _

/-- What more revisions show are the forks that the first ones do not. -/
theorem met_append (w : Walk) (xs ys rest : List Revision) :
    w.met (xs ++ ys) = w.met xs ++ (w.after xs rest).met ys := by
  unfold met
  rw [List.flatMap_append, List.filter_append, distinct_append, ← distinct_filter,
    List.filter_filter]
  congr 2
  apply List.filter_congr
  intro parent _
  simp only [after, met, List.mem_append, List.mem_filter, mem_distinct]
  by_cases hfork : parent ∈ w.forks <;> by_cases hqueued : parent ∈ w.queued <;>
    simp [hfork, hqueued]

theorem after_nil (rest : List Revision) (h : w.queue = rest) : w.after [] rest = w := by
  subst h
  have hmet : w.met [] = [] := rfl
  simp [after, hmet, select]

theorem after_after (w : Walk) (xs ys first rest : List Revision) :
    (w.after xs first).after ys (rest ++ w.nodes.select (w.met xs)) = w.after (xs ++ ys) rest := by
  have hmet := met_append w xs ys first
  simp only [after] at hmet ⊢
  simp only [hmet, select_append, List.append_assoc]

theorem step?_eq (h : w.queue = r :: rest) :
    w.step? = some (r, w.after [r] (w.nodes.select (w.onArm r) ++ rest)) := by
  simp [step?, h, after, met, newForks]

end Met

section Steps

variable {m last : Walk}

theorem Steps.trans (hxs : Steps w xs m) (hys : Steps m ys last) : Steps w (xs ++ ys) last := by
  induction hxs with
  | refl => exact hys
  | head hstep _ ih => exact .head hstep (ih hys)

theorem Passes.eq (hxs : w.Passes xs) (hys : w.Passes ys) : xs = ys := by
  obtain ⟨last, hsteps, hend⟩ := hxs
  obtain ⟨last', hsteps', hend'⟩ := hys
  induction hsteps generalizing ys with
  | refl w =>
    cases hsteps' with
    | refl => rfl
    | head hstep => simp [step?, hend] at hstep
  | head hstep _ ih =>
    cases hsteps' with
    | refl => simp [step?, hend'] at hstep
    | head hstep' hrest' =>
      rw [hstep] at hstep'
      obtain ⟨rfl, rfl⟩ := Prod.mk.inj (Option.some.inj hstep')
      rw [ih hend hrest']

theorem Grounded.after (hw : w.Grounded) (hrest : ∀ r ∈ rest, r ∈ w.nodes.elements) :
    (w.after xs rest).Grounded where
  acyclic := hw.acyclic
  queue_mem := by
    intro r hr
    rcases List.mem_append.mp hr with hr | hr
    · exact hrest r hr
    · exact (mem_select.mp hr).1

theorem mem_onArm {id : RevisionId} :
    id ∈ w.onArm r ↔ id ∈ r.parents ∧ id ∈ w.space ∧ id ∉ w.forks := by
  simp [onArm]

/-- A walk whose queue is one revision without a parent in the space passes that revision alone. -/
theorem passes_singleton (hqueue : w.queue = [r]) (hparents : ∀ p ∈ r.parents, p ∉ w.space)
    (hforks : w.forks ⊆ w.space) : w.Passes [r] := by
  have honarm : w.onArm r = [] := by
    rw [List.eq_nil_iff_forall_not_mem]
    exact fun p hp => hparents p (mem_onArm.mp hp).1 (mem_onArm.mp hp).2.1
  have hmet : w.met [r] = [] := by
    rw [List.eq_nil_iff_forall_not_mem]
    intro p hp
    obtain ⟨hfork, -, s, hs, hparent⟩ := mem_met.mp hp
    obtain rfl := List.mem_singleton.mp hs
    exact hparents p hparent (hforks hfork)
  refine ⟨_, .head (step?_eq hqueue) (.refl _), ?_⟩
  simp [after, honarm, hmet, select]

theorem step?_eq_some (hstep : w.step? = some (r, m)) :
    ∃ rest, w.queue = r :: rest ∧ m = w.after [r] (w.nodes.select (w.onArm r) ++ rest) := by
  cases hqueue : w.queue with
  | nil => simp [step?, hqueue] at hstep
  | cons first rest =>
    rw [step?_eq hqueue] at hstep
    obtain ⟨rfl, rfl⟩ := Prod.mk.inj (Option.some.inj hstep)
    exact ⟨rest, rfl, rfl⟩

theorem Grounded.of_step (hw : w.Grounded) (hstep : w.step? = some (r, m)) : m.Grounded := by
  obtain ⟨rest, hqueue, rfl⟩ := step?_eq_some hstep
  apply hw.after
  intro s hs
  rcases List.mem_append.mp hs with hs | hs
  · exact (mem_select.mp hs).1
  · exact hw.queue_mem s (by simp [hqueue, hs])

end Steps

section Arm

/-- What continues an arm is in the table and stands lower. -/
theorem height_onArm (hacyclic : w.nodes.Acyclic) (hr : r ∈ w.nodes.elements) {p : Revision}
    (hp : p ∈ w.nodes.select (w.onArm r)) :
    p ∈ w.nodes.elements ∧ w.nodes.height p.id < w.nodes.height r.id := by
  obtain ⟨hmem, honarm⟩ := mem_select.mp hp
  have hparent := (mem_onArm.mp honarm).1
  exact ⟨hmem, height_lt hacyclic ((names_iff hr).mpr ⟨id_mem_keys hmem, hparent⟩)⟩

/-- An arm does not leave the table. -/
theorem mem_elements_of_mem_arm {n : Nat} (hr : r ∈ w.nodes.elements) {x : Revision}
    (hx : x ∈ w.arm n r) : x ∈ w.nodes.elements := by
  induction n generalizing r with
  | zero => cases hx
  | succ n ih =>
    rw [arm, List.mem_cons, List.mem_flatMap] at hx
    rcases hx with rfl | ⟨p, hp, hx⟩
    · exact hr
    · exact ih (mem_select.mp hp).1 hx

/-- An arm is cut off nowhere once the generations exceed the height of its root. -/
theorem arm_eq_armOf (hacyclic : w.nodes.Acyclic) (hr : r ∈ w.nodes.elements) {n : Nat}
    (hn : w.nodes.height r.id < n) : w.arm n r = w.armOf r := by
  have hstable : ∀ n m r, r ∈ w.nodes.elements → w.nodes.height r.id < n →
      w.nodes.height r.id < m → w.arm n r = w.arm m r := by
    intro n
    induction n with
    | zero => intro m r _ hn _; omega
    | succ n ih =>
      intro m r hr hn hm
      cases m with
      | zero => omega
      | succ m =>
        rw [arm, arm]
        congr 1
        apply List.flatMap_congr
        intro p hp
        obtain ⟨hmem, hlower⟩ := height_onArm hacyclic hr hp
        exact ih m p hmem (by omega) (by omega)
  exact hstable n _ r hr hn (Nat.lt_succ_of_le (height_le_size _ r.id))

/-- An arm is its root and the arms of the parents that continue it. -/
theorem armOf_eq (hacyclic : w.nodes.Acyclic) (hr : r ∈ w.nodes.elements) :
    w.armOf r = r :: (w.nodes.select (w.onArm r)).flatMap w.armOf := by
  rw [armOf, arm]
  congr 1
  apply List.flatMap_congr
  intro p hp
  obtain ⟨hmem, hlower⟩ := height_onArm hacyclic hr hp
  exact arm_eq_armOf hacyclic hmem (hlower.trans_le (height_le_size _ r.id))

@[simp] theorem arm_after (n : Nat) (r : Revision) : (w.after xs rest).arm n r = w.arm n r := by
  induction n generalizing r with
  | zero => rfl
  | succ n ih =>
    rw [arm, arm]
    congr 1
    exact List.flatMap_congr fun p _ => ih p

@[simp] theorem armOf_after : (w.after xs rest).armOf = w.armOf := funext fun r => arm_after _ r

/-- A walk goes down the arm of the first revision of its queue before anything else. -/
def ArmFirst (n : Nat) : Prop :=
  ∀ (w : Walk) (r : Revision) (rest : List Revision), w.nodes.Acyclic → w.queue = r :: rest →
    r ∈ w.nodes.elements → w.nodes.height r.id < n →
    Steps w (w.arm n r) (w.after (w.arm n r) rest)

/-- Several revisions at the front of the queue start one arm each. -/
theorem ArmFirst.arms {n : Nat} (hfirst : ArmFirst n) (rs : List Revision) (w : Walk)
    (rest : List Revision) (hacyclic : w.nodes.Acyclic) (hqueue : w.queue = rs ++ rest)
    (hrs : ∀ r ∈ rs, r ∈ w.nodes.elements ∧ w.nodes.height r.id < n) :
    Steps w (rs.flatMap (w.arm n)) (w.after (rs.flatMap (w.arm n)) rest) := by
  induction rs generalizing w rest with
  | nil =>
    rw [List.flatMap_nil, after_nil rest hqueue]
    exact Steps.refl w
  | cons r rs ih =>
    obtain ⟨hr, hheight⟩ := hrs r List.mem_cons_self
    have harm := hfirst w r (rs ++ rest) hacyclic hqueue hr hheight
    have hrest := ih (w.after (w.arm n r) (rs ++ rest))
      (rest ++ w.nodes.select (w.met (w.arm n r))) hacyclic (by simp [after])
      (fun s hs => hrs s (List.mem_cons_of_mem _ hs))
    rw [after_after, funext (arm_after n)] at hrest
    exact harm.trans hrest

theorem armFirst (n : Nat) : ArmFirst n := by
  induction n with
  | zero => exact fun w r rest _ _ _ hheight => absurd hheight (Nat.not_lt_zero _)
  | succ n ih =>
    intro w r rest hacyclic hqueue hr hheight
    -- the step shows the forks of `r`; the arms of its other parents come next
    have hparents := ih.arms (w.nodes.select (w.onArm r))
      (w.after [r] (w.nodes.select (w.onArm r) ++ rest)) (rest ++ w.nodes.select (w.met [r]))
      hacyclic (by simp [after]) (fun p hp => by
        obtain ⟨hmem, hlower⟩ := height_onArm hacyclic hr hp
        exact ⟨hmem, by simp only [after]; omega⟩)
    rw [after_after, funext (arm_after n)] at hparents
    exact .head (step?_eq hqueue) hparents

theorem Grounded.steps_armOf (hw : w.Grounded) (hqueue : w.queue = r :: rest) :
    Steps w (w.armOf r) (w.after (w.armOf r) rest) :=
  armFirst _ w r rest hw.acyclic hqueue (hw.queue_mem r (by simp [hqueue]))
    (Nat.lt_succ_of_le (height_le_size _ r.id))

end Arm

section Roots

/-- An arm that starts uses up more than the forks that it shows. -/
theorem pending_after (xs : List Revision) (hqueue : w.queue = r :: rest) :
    (w.after xs rest).pending < w.pending := by
  have hselect : (w.nodes.select (w.met xs)).length ≤ (w.met xs).length :=
    List.length_filterMap_le _ _
  have hsub : w.met xs ⊆ (w.forks.filter fun fork => fork ∉ w.queued).filter (· ∈ w.met xs) := by
    intro id hid
    have hmet := mem_met.mp hid
    simp [hid, hmet.1, hmet.2.1]
  have hmet := ((w.met_nodup xs).subperm hsub).length_le
  have hsplit := List.length_eq_length_filter_add (l := w.forks.filter fun fork => fork ∉ w.queued)
    (· ∈ w.met xs)
  have hleft : ((w.after xs rest).forks.filter fun fork => fork ∉ (w.after xs rest).queued) =
      (w.forks.filter fun fork => fork ∉ w.queued).filter
        fun fork => !decide (fork ∈ w.met xs) := by
    rw [List.filter_filter]
    apply List.filter_congr
    intro fork _
    by_cases hmem : fork ∈ w.met xs <;> simp [after, hmem]
  have hlength : (w.after xs rest).queue.length =
      rest.length + (w.nodes.select (w.met xs)).length := by simp [after]
  unfold pending
  rw [hleft, hlength, hqueue, List.length_cons]
  omega

theorem rootsWithin_nil (h : w.queue = []) (n : Nat) : w.rootsWithin n = [] := by
  cases n with
  | zero => rfl
  | succ n => rw [rootsWithin, h]

theorem rootsWithin_cons (h : w.queue = r :: rest) (n : Nat) :
    w.rootsWithin (n + 1) = r :: (w.after (w.armOf r) rest).rootsWithin n := by
  rw [rootsWithin, h]

/-- With room for all arms that may still start, the roots are what is queued and then every
fork that the arms show. -/
theorem rootsWithin_eq {n : Nat} (hn : w.pending ≤ n) : w.rootsWithin n =
    w.queue ++ w.nodes.select (w.met ((w.rootsWithin n).flatMap w.armOf)) := by
  induction n generalizing w with
  | zero =>
    have hqueue : w.queue = [] := List.length_eq_zero_iff.mp (by unfold pending at hn; omega)
    rw [rootsWithin_nil hqueue, hqueue]
    rfl
  | succ n ih =>
    cases hqueue : w.queue with
    | nil =>
      rw [rootsWithin_nil hqueue]
      rfl
    | cons r rest =>
      have hlower := pending_after (w.armOf r) hqueue
      have hrest := ih (w := w.after (w.armOf r) rest) (by omega)
      rw [rootsWithin_cons hqueue, List.flatMap_cons, met_append w _ _ rest, select_append]
      rw [armOf_after] at hrest
      calc r :: (w.after (w.armOf r) rest).rootsWithin n
          = r :: ((w.after (w.armOf r) rest).queue ++ w.nodes.select
              ((w.after (w.armOf r) rest).met
                (((w.after (w.armOf r) rest).rootsWithin n).flatMap w.armOf))) :=
            congrArg (r :: ·) hrest
        _ = _ := by simp [after]

/-- Arm by arm a walk comes to its end. -/
theorem Grounded.steps_roots (hw : w.Grounded) {n : Nat} (hn : w.pending ≤ n) :
    w.Passes ((w.rootsWithin n).flatMap w.armOf) := by
  induction n generalizing w with
  | zero =>
    have hqueue : w.queue = [] := List.length_eq_zero_iff.mp (by unfold pending at hn; omega)
    exact ⟨w, .refl w, hqueue⟩
  | succ n ih =>
    cases hqueue : w.queue with
    | nil =>
      rw [rootsWithin_nil hqueue]
      exact ⟨w, .refl w, hqueue⟩
    | cons r rest =>
      have hlower := pending_after (w.armOf r) hqueue
      have hnext : (w.after (w.armOf r) rest).Grounded :=
        hw.after fun s hs => hw.queue_mem s (by simp [hqueue, hs])
      obtain ⟨last, hsteps, hend⟩ := ih hnext (by omega)
      rw [armOf_after] at hsteps
      rw [rootsWithin_cons hqueue, List.flatMap_cons]
      exact ⟨last, (hw.steps_armOf hqueue).trans hsteps, hend⟩

theorem pending_le (w : Walk) : w.pending ≤ w.queue.length + w.forks.length :=
  Nat.add_le_add_left (List.length_filter_le _ _) _

/-- The roots of a walk are what is queued and then every fork that the walk shows. -/
theorem armRoots_eq (w : Walk) :
    w.armRoots = w.queue ++ w.nodes.select (w.met w.passed) := rootsWithin_eq w.pending_le

/-- Room for more arms than may start makes no difference. -/
theorem Grounded.rootsWithin_eq_armRoots (hw : w.Grounded) {n : Nat} (hn : w.pending ≤ n) :
    w.rootsWithin n = w.armRoots := by
  have hpassed : (w.rootsWithin n).flatMap w.armOf = w.passed :=
    (hw.steps_roots hn).eq (hw.steps_roots w.pending_le)
  rw [rootsWithin_eq hn, hpassed, armRoots_eq]

/-- From every state a walk passes the arms of its roots in turn and then stops. -/
theorem Grounded.passes (hw : w.Grounded) : w.Passes w.passed := hw.steps_roots w.pending_le

theorem Grounded.armRoots_mem (hw : w.Grounded) (hr : r ∈ w.armRoots) : r ∈ w.nodes.elements := by
  rw [armRoots_eq] at hr
  rcases List.mem_append.mp hr with hr | hr
  · exact hw.queue_mem r hr
  · exact (mem_select.mp hr).1

end Roots

section Bound

theorem parents_le_degree (hr : r ∈ w.nodes.elements) : r.parents.length ≤ w.degree := by
  have hfold : ∀ (rs : List Revision) (most : Nat),
      most ≤ rs.foldl (fun most r => max most r.parents.length) most ∧
      ∀ r ∈ rs, r.parents.length ≤ rs.foldl (fun most r => max most r.parents.length) most := by
    intro rs
    induction rs with
    | nil => simp
    | cons s rs ih =>
      intro most
      obtain ⟨hstart, hmem⟩ := ih (max most s.parents.length)
      rw [List.foldl_cons]
      constructor
      · omega
      · intro r hr
        rcases List.mem_cons.mp hr with rfl | hr
        · omega
        · exact hmem r hr
  exact (hfold w.nodes.elements 0).2 r hr

theorem length_flatMap_le {α β : Type} {xs : List α} {f : α → List β} {bound : Nat}
    (hf : ∀ x ∈ xs, (f x).length ≤ bound) : (xs.flatMap f).length ≤ xs.length * bound := by
  induction xs with
  | nil => simp
  | cons x xs ih =>
    have hx := hf x List.mem_cons_self
    have hxs := ih fun y hy => hf y (List.mem_cons_of_mem _ hy)
    rw [List.flatMap_cons, List.length_append, List.length_cons, Nat.succ_mul]
    omega

theorem arm_length_le (n : Nat) (hr : r ∈ w.nodes.elements) :
    (w.arm n r).length ≤ Nat.pow (w.degree + 1) n := by
  induction n generalizing r with
  | zero => simp [arm]
  | succ n ih =>
    have hcount : (w.nodes.select (w.onArm r)).length ≤ w.degree :=
      calc (w.nodes.select (w.onArm r)).length
          ≤ (w.onArm r).length := List.length_filterMap_le _ _
        _ ≤ r.parents.length := List.length_filter_le _ _
        _ ≤ w.degree := parents_le_degree hr
    have hparents : ((w.nodes.select (w.onArm r)).flatMap (w.arm n)).length ≤
        (w.nodes.select (w.onArm r)).length * Nat.pow (w.degree + 1) n :=
      length_flatMap_le fun p hp => ih (mem_select.mp hp).1
    have hroom : 0 < Nat.pow (w.degree + 1) n := Nat.pow_pos (Nat.succ_pos _)
    have hbranches := Nat.mul_le_mul_right (Nat.pow (w.degree + 1) n) hcount
    have hpower : Nat.pow (w.degree + 1) (n + 1) =
        w.degree * Nat.pow (w.degree + 1) n + Nat.pow (w.degree + 1) n :=
      calc Nat.pow (w.degree + 1) (n + 1) = Nat.pow (w.degree + 1) n * (w.degree + 1) := rfl
        _ = _ := by rw [Nat.mul_succ, Nat.mul_comm]
    rw [arm, List.length_cons, hpower]
    omega

theorem rootsWithin_length_le (n : Nat) (w : Walk) : (w.rootsWithin n).length ≤ n := by
  induction n generalizing w with
  | zero => simp [rootsWithin]
  | succ n ih =>
    rw [rootsWithin]
    split
    · simp
    · simpa using ih _

/-- No walk without cycles takes more steps than its bound. -/
theorem Grounded.passed_length_le (hw : w.Grounded) : w.passed.length ≤ w.bound := by
  have hroots := rootsWithin_length_le (w.queue.length + w.forks.length) w
  calc w.passed.length
      ≤ w.armRoots.length * Nat.pow (w.degree + 1) (w.nodes.size + 1) :=
        length_flatMap_le fun r hr => arm_length_le _ (hw.armRoots_mem hr)
    _ ≤ w.bound := Nat.mul_le_mul_right _ hroots

end Bound

section Listing

def listed (w : Walk) (rs : List Revision) : List Revision :=
  rs.filter fun r => r.id ∉ w.skipped

variable {m : Walk} {rs : List Revision}

theorem step?_skipped (hstep : w.step? = some (r, m)) : m.skipped = w.skipped := by
  obtain ⟨rest, -, rfl⟩ := step?_eq_some hstep
  rfl

theorem Grounded.length_le (hw : w.Grounded) (hrs : w.Passes rs) : rs.length ≤ w.bound := by
  rw [hrs.eq hw.passes]
  exact hw.passed_length_le

/-- Advancing passes through skipped revisions to the first one listed, if there is one. -/
theorem advance_eq {fuel : Nat} (hw : w.Grounded) (hrs : w.Passes rs) (hfuel : rs.length ≤ fuel) :
    (w.listed rs = [] ∧ advance fuel w = none) ∨
    ∃ r next rest, w.listed rs = r :: w.listed rest ∧ advance fuel w = some (r, next) ∧
      next.Grounded ∧ next.skipped = w.skipped ∧ next.Passes rest ∧ rest.length < rs.length := by
  induction fuel generalizing w rs with
  | zero =>
    rw [List.length_eq_zero_iff.mp (Nat.le_zero.mp hfuel)]
    exact .inl ⟨rfl, rfl⟩
  | succ fuel ih =>
    obtain ⟨last, hsteps, hend⟩ := hrs
    cases hsteps with
    | refl =>
      refine .inl ⟨rfl, ?_⟩
      simp [advance, step?, hend]
    | @head _ next _ r rest hstep hrest =>
      have hnext := hw.of_step hstep
      have hskipped := step?_skipped hstep
      by_cases hr : r.id ∈ w.skipped
      · have hlisted : w.listed (r :: rest) = next.listed rest := by
          simp [listed, hr, hskipped]
        have hadvance : advance (fuel + 1) w = advance fuel next := by
          simp [advance, hstep, hr]
        rw [hlisted, hadvance]
        rcases ih hnext ⟨last, hrest, hend⟩ (by simpa using hfuel) with
          hdone | ⟨s, m, rest', hlist, hadv, hm, hsame, hpasses, hshort⟩
        · exact .inl hdone
        · refine .inr ⟨s, m, rest', ?_, hadv, hm, hsame.trans hskipped, hpasses, ?_⟩
          · simpa [listed, hskipped] using hlist
          · exact hshort.trans (Nat.lt_succ_self _)
      · refine .inr ⟨r, next, rest, ?_, ?_, hnext, hskipped, ⟨last, hrest, hend⟩, by simp⟩
        · simp [listed, hr]
        · simp [advance, hstep, hr]

end Listing

end Walk

/-- What a range lists from its first revision to its last. -/
inductive Range.Emits : Range → List Revision → Prop
  | done {range : Range} (h : range.next? = none) : Emits range []
  | next {range later : Range} {r : Revision} {rs : List Revision}
      (h : range.next? = some (r, later)) (hlater : Emits later rs) : Emits range (r :: rs)

theorem Range.Emits.eq {range : Range} {xs ys : List Revision} (hxs : range.Emits xs)
    (hys : range.Emits ys) : xs = ys := by
  induction hxs generalizing ys with
  | done hnone =>
    cases hys with
    | done => rfl
    | next h => rw [hnone] at h; cases h
  | next hsome _ ih =>
    cases hys with
    | done hnone => rw [hnone] at hsome; cases hsome
    | next h hlater =>
      rw [hsome] at h
      obtain ⟨rfl, rfl⟩ := Prod.mk.inj (Option.some.inj h)
      rw [ih hlater]

/-- A range lists what its walk passes and does not skip. -/
theorem Walk.Grounded.emits_of_passes {w : Walk} {rs : List Revision} (hw : w.Grounded)
    (hrs : w.Passes rs) : (Range.walk w).Emits (w.listed rs) := by
  induction hlength : rs.length using Nat.strong_induction_on generalizing w rs with
  | _ n ih =>
    rcases advance_eq hw hrs (hw.length_le hrs) with
      ⟨hnil, hnone⟩ | ⟨r, next, rest, hlist, hsome, hnext, hskipped, hpasses, hshort⟩
    · rw [hnil]
      exact .done (by simp [Range.next?, next?, hnone])
    · have hsame : w.listed rest = next.listed rest := by simp only [listed, hskipped]
      rw [hlist, hsame]
      exact .next (by simp [Range.next?, next?, hsome]) (ih _ (hlength ▸ hshort) hnext hpasses rfl)

/-- On a table without cycles a range lists the arms of its roots in turn, less what it
skips. -/
theorem Walk.Grounded.emits {w : Walk} (hw : w.Grounded) :
    (Range.walk w).Emits (w.listed w.passed) := hw.emits_of_passes hw.passes

namespace Range

theorem emits_listed (rs : List Revision) : (listed rs).Emits rs := by
  induction rs with
  | nil => exact .done rfl
  | cons r rest ih => exact .next rfl ih

/-- Taking enough revisions takes all that the range lists. -/
theorem Emits.take_eq {range : Range} {rs : List Revision} (hrs : range.Emits rs) {n : Nat}
    (hn : rs.length ≤ n) : (range.take n).1 = rs := by
  induction hrs generalizing n with
  | done hnone => cases n <;> simp [take, hnone]
  | next hsome _ ih =>
    cases n with
    | zero => simp at hn
    | succ n => simp [take, hsome, ih (Nat.le_of_succ_le_succ hn)]

end Range

/-- On a table without cycles a range as a whole is what it lists. -/
theorem Walk.Grounded.toList_eq {w : Walk} (hw : w.Grounded) :
    (Range.walk w).toList = w.listed w.passed := by
  refine hw.emits.take_eq ?_
  exact (List.length_filter_le _ _).trans hw.passed_length_le

end MigrationHistory
