import MigrationHistory.LazyHistory
import MigrationHistory.Proofs.Rebuild
import MigrationHistory.Proofs.Refusal

/-!
# Histories on demand

A lazy history is used in two ways: its callers look at how far it has come, and they demand the
history, to read it or to insert into it in place. The reference is the eager build, with the
answers that it and the insertions so far would give. Main statement: whatever the producer is,
looks leave it alone, the first demand runs it, nothing runs it again, and every answer is the one
of the reference, whether the build fails or not.
-/
namespace MigrationHistory

namespace LazyHistory

/-- What shows how far a lazy history has come. -/
inductive Look
  | status
  | isBuilt
  | get

/-- What needs the history: to read it, or to insert into it. -/
inductive Demand
  | build
  | insert (r : Revision) (replacing : Bool)

inductive Request
  | look (q : Look)
  | demand (d : Demand)

inductive Answer
  | status (status : Status)
  | isBuilt (isBuilt : Bool)
  | get (history? : Option History)
  | build (result : Except Error History)
  | insert (result : Except Error Unit)

/-- What a look sees of a stage. -/
def Look.seen (status : Status) (history? : Option History) : Look → Answer
  | .status => .status status
  | .isBuilt => .isBuilt (status = .built)
  | .get => .get history?

/-- What a demand is told when there is no history to give. -/
def Demand.refused (e : Error) : Demand → Answer
  | .build => .build (.error e)
  | .insert _ _ => .insert (.error e)

section Serving

variable {m : Type → Type} [Monad m]

def see (l : LazyHistory m) : Look → Answer
  | .status => .status l.status
  | .isBuilt => .isBuilt l.isBuilt
  | .get => .get l.get?

/-- Builds if needed; an insertion is then made in place, and what it leaves stays also when it
fails. -/
def meet (l : LazyHistory m) (d : Demand) : m (Answer × LazyHistory m) := do
  let (result, l) ← l.build
  match result, d with
  | .error e, d => pure (d.refused e, l)
  | .ok h, .build => pure (.build (.ok h), l)
  | .ok h, .insert r replacing =>
    match (History.insertInPlace r replacing).run h with
    | .ok () left => pure (.insert (.ok ()), l.update fun _ => left)
    | .error e left => pure (.insert (.error e), l.update fun _ => left)

def answer (l : LazyHistory m) : Request → m (Answer × LazyHistory m)
  | .look q => pure (l.see q, l)
  | .demand d => l.meet d

/-- Answers requests in turn. -/
def serve (l : LazyHistory m) : List Request → m (List Answer × LazyHistory m)
  | [] => pure ([], l)
  | request :: rest => do
    let (first, l) ← l.answer request
    let (answers, l) ← l.serve rest
    return (first :: answers, l)

/-- Answers requests and then gives up the lazy history for the built one. -/
def session (l : LazyHistory m) (requests : List Request) :
    m (List Answer × Except Error History) := do
  let (answers, l) ← l.serve requests
  let last ← l.intoHistory
  return (answers, last)

end Serving

section Reference

/-- What requests ask to insert, in turn. -/
def insertions (requests : List Request) : List (Revision × Bool) :=
  requests.filterMap fun
    | .demand (.insert r replacing) => some (r, replacing)
    | _ => none

/-- What is answered once a build has failed. -/
def Request.afterFailure : Request → Answer
  | .look q => q.seen .failed none
  | .demand d => d.refused .buildFailed

/-- What an eager history answers. -/
def reply (h : History) : Request → Answer
  | .look q => q.seen .built (some h)
  | .demand .build => .build (.ok h)
  | .demand (.insert r replacing) => .insert ((h.insert r replacing).map fun _ => ())

/-- What an eager history answers in turn, each time after the insertions before. -/
def replies (h : History) : List Request → List Answer
  | [] => []
  | request :: rest => reply h request :: replies (h.serve (insertions [request])) rest

/-- The answers and the history that the outcome of an eager build leads to. Nothing is built
before the first demand. -/
def expected (outcome : Except Error History) : List Request → List Answer × Except Error History
  | [] => ([], outcome)
  | .look q :: rest =>
    (q.seen .unbuilt none :: (expected outcome rest).1, (expected outcome rest).2)
  | .demand d :: rest =>
    match outcome with
    | .ok h => (replies h (.demand d :: rest), .ok (h.serve (insertions (.demand d :: rest))))
    | .error e => (d.refused e :: rest.map Request.afterFailure, .error .buildFailed)

/-- The stage that the outcome of an eager build leads to once there was a demand. -/
def settled {m : Type → Type} (outcome : Except Error History) (requests : List Request) :
    Stage m :=
  match outcome with
  | .ok h => .built (h.serve (insertions requests))
  | .error _ => .failed

theorem insertions_cons (request : Request) (rest : List Request) :
    insertions (request :: rest) = insertions [request] ++ insertions rest := by
  rw [insertions, ← List.singleton_append, List.filterMap_append]
  rfl

end Reference

section Steps

variable {m : Type → Type} [Monad m] {config : Config} {h : History}

/-- A look leaves the producer alone. -/
theorem answer_look (producer : m (List Revision)) (q : Look) :
    (ofProducer producer config).answer (.look q) =
      pure (q.seen .unbuilt none, ofProducer producer config) := by
  cases q <;> rfl

variable [LawfulMonad m]

/-- On a built history every request is answered as by the eager one, and it leaves what the
eager one would be after it. -/
theorem answer_built (request : Request) :
    (⟨.built h, config⟩ : LazyHistory m).answer request =
      pure (reply h request, ⟨.built (h.serve (insertions [request])), config⟩) := by
  cases request with
  | look q => cases q <;> rfl
  | demand d =>
    cases d with
    | build => simp [answer, meet, build, reply, insertions, History.serve]
    | insert r replacing =>
      simp only [answer, meet, build, pure_bind, History.run_insertInPlace]
      cases hinsert : h.insert r replacing <;>
        simp [reply, insertions, History.serve, History.attempt, update, hinsert, Except.map]

theorem answer_failed (request : Request) :
    (⟨.failed, config⟩ : LazyHistory m).answer request =
      pure (request.afterFailure, ⟨.failed, config⟩) := by
  cases request with
  | look q => cases q <;> rfl
  | demand d => simp [answer, meet, build, Request.afterFailure]

/-- A demand runs the producer and is answered from what the build comes to. -/
theorem answer_demand (producer : m (List Revision)) (d : Demand) :
    (ofProducer producer config).answer (.demand d) = producer >>= fun revisions =>
      match History.build config revisions with
      | .ok h => (⟨.built h, config⟩ : LazyHistory m).answer (.demand d)
      | .error e => pure (d.refused e, ⟨.failed, config⟩) := by
  simp only [answer, meet, build, ofProducer, bind_assoc]
  refine bind_congr fun revisions => ?_
  cases History.build config revisions <;> simp

theorem serve_built (requests : List Request) :
    (⟨.built h, config⟩ : LazyHistory m).serve requests =
      pure (replies h requests, ⟨.built (h.serve (insertions requests)), config⟩) := by
  induction requests generalizing h with
  | nil => rfl
  | cons request rest ih =>
    have hgrown : h.serve (insertions (request :: rest)) =
        (h.serve (insertions [request])).serve (insertions rest) := by
      rw [insertions_cons, History.serve, List.foldl_append]
      rfl
    simp only [serve, answer_built, pure_bind, ih, replies, hgrown]

theorem serve_failed (requests : List Request) :
    (⟨.failed, config⟩ : LazyHistory m).serve requests =
      pure (requests.map Request.afterFailure, ⟨.failed, config⟩) := by
  induction requests with
  | nil => rfl
  | cons request rest ih => simp only [serve, answer_failed, pure_bind, ih, List.map_cons]

/-- Looks alone leave the producer alone. -/
theorem serve_looks (producer : m (List Revision)) (looks : List Look) :
    (ofProducer producer config).serve (looks.map .look) =
      pure (looks.map (Look.seen .unbuilt none), ofProducer producer config) := by
  induction looks with
  | nil => rfl
  | cons q rest ih => simp only [List.map_cons, serve, answer_look, pure_bind, ih]

/-- With a demand among the requests the producer runs once, before anything else. -/
theorem serve_demanding (producer : m (List Revision)) {requests : List Request}
    (hdemand : ∃ d, Request.demand d ∈ requests) :
    (ofProducer producer config).serve requests = producer >>= fun revisions =>
      pure ((expected (History.build config revisions) requests).1,
        ⟨settled (History.build config revisions) requests, config⟩) := by
  induction requests with
  | nil =>
    obtain ⟨d, hd⟩ := hdemand
    cases hd
  | cons request rest ih =>
    cases request with
    | look q =>
      obtain ⟨d, hd⟩ := hdemand
      have hrest := ih ⟨d, (List.mem_cons.mp hd).resolve_left (by simp)⟩
      simp only [serve, answer_look, pure_bind, hrest, bind_assoc, expected]
      rfl
    | demand d =>
      simp only [serve, answer_demand, bind_assoc]
      refine bind_congr fun revisions => ?_
      cases History.build config revisions with
      | ok h => exact serve_built (.demand d :: rest)
      | error e => simp only [pure_bind, serve_failed, expected, settled]

/-- Giving up the lazy history asks for what is left to build. -/
theorem session_eq (producer : m (List Revision)) (requests : List Request) :
    (ofProducer producer config).session requests = producer >>= fun revisions =>
      pure (expected (History.build config revisions) requests) := by
  induction requests with
  | nil =>
    simp only [session, serve, pure_bind, intoHistory, build, ofProducer, bind_assoc]
    refine bind_congr fun revisions => ?_
    cases History.build config revisions <;> simp [expected]
  | cons request rest ih =>
    cases request with
    | look q =>
      have hlook : (ofProducer producer config).session (.look q :: rest) =
          (ofProducer producer config).session rest >>= fun left =>
            pure (q.seen .unbuilt none :: left.1, left.2) := by
        simp only [session, serve, answer_look, pure_bind, bind_assoc]
      simp only [hlook, ih, bind_assoc, pure_bind, expected]
    | demand d =>
      rw [session, serve_demanding producer ⟨d, List.mem_cons_self⟩, bind_assoc]
      refine bind_congr fun revisions => ?_
      cases History.build config revisions <;> simp [settled, intoHistory, build, expected]

end Steps

/-- A lazy history refines the eager one. Looks are answered without the producer. Once a demand is
made, the producer has run exactly once, and the stage is settled by the eager build and by the
insertions asked for, the refused ones among them. A whole session, which gives up the lazy
history at its end, runs the producer exactly once and has the answers of the eager build. -/
theorem on_demand_refines_eager {m : Type → Type} [Monad m] [LawfulMonad m]
    (producer : m (List Revision)) (config : Config) :
    (∀ looks : List Look, (ofProducer producer config).serve (looks.map .look) =
      pure (looks.map (Look.seen .unbuilt none), ofProducer producer config)) ∧
    (∀ requests, (∃ d, Request.demand d ∈ requests) →
      (ofProducer producer config).serve requests = producer >>= fun revisions =>
        pure ((expected (History.build config revisions) requests).1,
          ⟨settled (History.build config revisions) requests, config⟩)) ∧
    ∀ requests, (ofProducer producer config).session requests = producer >>= fun revisions =>
      pure (expected (History.build config revisions) requests) :=
  ⟨serve_looks producer, fun _ => serve_demanding producer, session_eq producer⟩

end LazyHistory

/-- A producer that counts how often it runs. -/
def Sample.counted (revisions : List Revision) : StateM Nat (List Revision) :=
  modifyGet fun calls => (revisions, calls + 1)

open LazyHistory in
/-- What `waiting` waits for is inserted on demand, and something absent is asked to be replaced. -/
def Sample.growing : List Request :=
  [.look .status, .demand (.insert (.ofParts Sample.d [] [Sample.next]) false), .look .get,
    .demand (.insert (.ofParts Sample.e [] []) true), .demand .build]

namespace LazyHistory

/-- The producer runs once whether the build succeeds or is refused. -/
theorem on_demand_counted :
    (∃ h grown, History.build Config.default Sample.waiting = .ok h ∧
      h.insert (.ofParts Sample.d [] [Sample.next]) false = .ok grown ∧
      ((ofProducer (Sample.counted Sample.waiting) Config.default).session Sample.growing).run 0 =
        (([.status .unbuilt, .insert (.ok ()), .get (some grown), .insert (.error (.absent "e")),
          .build (.ok grown)], .ok grown), 1)) ∧
    ((ofProducer (Sample.counted Sample.waiting) Sample.strict).session
        [.demand .build, .look .isBuilt, .demand .build]).run 0 =
      (([.build (.error (.missingParent "c" "d")), .isBuilt false, .build (.error .buildFailed)],
        .error .buildFailed), 1) := by
  have hsession := fun config => (@on_demand_refines_eager (StateM Nat) _ _
    (Sample.counted Sample.waiting) config).2.2
  refine ⟨⟨_, _, rfl, rfl, ?_⟩, ?_⟩
  · rw [hsession]
    rfl
  · rw [hsession]
    rfl

end LazyHistory

end MigrationHistory
