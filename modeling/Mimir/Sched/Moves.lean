import Mimir.Sched.Engine

/-! The elementary changes outside the scheduling loops, and how each operation is made of them. -/

namespace Mimir

open Python Function

variable {H C M : Type} {r : Ref} {req : Request H}

/-- The fields that neither the queues nor the KV cache depend on. -/
structure Bookkeeping (C : Type) where
  encoderCacheManager : EncoderCacheManager
  connector : C
  jobToolHistory : PyDict JobKey (List PyFloat)
  finishedReqIds : List RequestId
  finishedReqIdsDict : PyDict Nat (List RequestId)
  finishedRecvingKvReqIds : List RequestId

/-- What becomes of the blocks of a request that ended. -/
inductive Outcome where
  | pinned (expiry : PyFloat)
  | freed
  | delayed

/-- Which changes a group of moves may contain. -/
structure Scope where
  /-- The request objects that may be changed. -/
  touch : Ref → Prop
  /-- The request objects whose blocks may be reported as sent. -/
  sent : Ref → Prop
  /-- The requests that end were unfinished before. -/
  fresh : Prop
  /-- Draft tokens may be proposed or rejected. -/
  drafts : Prop
  /-- The clock at which pins may expire. -/
  now : Option PyFloat
  /-- The connector may be asked for hits, and take part in a step. -/
  step : Prop

namespace Scheduler

variable (s : Scheduler H C)

/-- Rewriting the bookkeeping fields and noting effects. -/
def book (b : Bookkeeping C) (notes : List Effect) : Scheduler H C :=
  { s with
    encoderCacheManager := b.encoderCacheManager
    connector := b.connector
    jobToolHistory := b.jobToolHistory
    finishedReqIds := b.finishedReqIds
    finishedReqIdsDict := b.finishedReqIdsDict
    finishedRecvingKvReqIds := b.finishedRecvingKvReqIds
    history := notes ++ s.history }

/-- The bookkeeping fields of a state. -/
def bookkeeping : Bookkeeping C where
  encoderCacheManager := s.encoderCacheManager
  connector := s.connector
  jobToolHistory := s.jobToolHistory
  finishedReqIds := s.finishedReqIds
  finishedReqIdsDict := s.finishedReqIdsDict
  finishedRecvingKvReqIds := s.finishedRecvingKvReqIds

/-- Giving back the blocks of a request and forgetting its id. -/
def release (r : Ref) : Scheduler H C :=
  { s with
    kvCacheManager := s.kvCacheManager.free (s.objs r).requestId
    requests := s.requests.erase (s.objs r).requestId
    history := .released r :: s.history }

/-- The end of a request's blocks. -/
def settle (r : Ref) : Outcome → Scheduler H C
  | .pinned expiry => { s with pinnedRequests := s.pinnedRequests ++ [(r, expiry)] }
  | .freed => s.release r
  | .delayed => s

/-- A request with its final state, out of both queues. -/
def withdraw (r : Ref) (req : Request H) : Scheduler H C :=
  { s with
    objs := Function.update s.objs r req
    waiting := s.waiting.filter fun r' => !decide (r' = r)
    running := s.running.filter fun r' => !decide (r' = r) }

/-- The end of a request: out of its queue with its final state, then its blocks. -/
def retire (r : Ref) (req : Request H) (b : Bookkeeping C) (notes : List Effect)
    (outcome : Outcome) : Scheduler H C :=
  ((s.withdraw r req).book b notes).settle r outcome

/-- The state in which a request object and the history were replaced. -/
def withObj (r : Ref) (req : Request H) (notes : List Effect) :
    Scheduler H C :=
  { s with objs := Function.update s.objs r req, history := notes ++ s.history }

variable (r : Ref) (req : Request H) (b : Bookkeeping C) (notes : List Effect)
  (outcome : Outcome)

@[simp] theorem retire_objs : (s.retire r req b notes outcome).objs = Function.update s.objs r req := by
  cases outcome <;> rfl

@[simp] theorem retire_nextRef : (s.retire r req b notes outcome).nextRef = s.nextRef := by
  cases outcome <;> rfl

@[simp] theorem retire_connector : (s.retire r req b notes outcome).connector = b.connector := by
  cases outcome <;> rfl

end Scheduler

/-- The agent metadata of a request object, which never changes. -/
def Request.agent {H : Type} (req : Request H) :
    Option XArg × Option Bool × Option Bool × Option XArg :=
  (req.jobId, req.isLastStep, req.hasToolCall, req.toolDuration)

/-- What the scheduler never changes of a request object: what was sent, and the agent metadata. -/
def Request.fixed {H : Type} (req : Request H) :
    EngineCoreRequest × Option XArg × Option Bool × Option Bool × Option XArg :=
  (req.toEngineCoreRequest, req.agent)

/-- The notes a request leaves when it ends: its report, its tool duration and its last token. -/
def EndNote (r : Ref) (e : Effect) : Prop :=
  e = .reported r ∨ (∃ duration, e = .durationRecorded r duration) ∨ ∃ token, e = .appended r token

/-- The effects of serving a request: tokens, reports, tool durations and outputs. -/
def Effect.serves (r : Ref) : Effect → Bool
  | .appended r' _ => r' = r
  | .reported r' => r' = r
  | .durationRecorded r' _ => r' = r
  | .emitted r' _ => r' = r
  | _ => false

/-- The tool duration an effect records, with its request. -/
def Effect.duration? : Effect → Option (Ref × PyFloat)
  | .durationRecorded r duration => some (r, duration)
  | _ => none

/-- The tool history after the end of a request: as before, or one longer for the request's job. -/
inductive Recorded (history : PyDict JobKey (List PyFloat)) (r : Ref) (jobId : Option XArg) :
    PyDict JobKey (List PyFloat) → List Effect → Prop
  | none (notes : List Effect) (silent : notes.filterMap Effect.duration? = []) :
      Recorded history r jobId history notes
  | tool (job : XArg) (duration : PyFloat) (notes : List Effect) (owner : jobId = some job)
      (noted : notes.filterMap Effect.duration? = [(r, duration)]) :
      Recorded history r jobId
        (history.set (job.dictKey r) ((history.get? (job.dictKey r)).getD [] ++ [duration])) notes

section Definitions

variable (cfg : Config H C M)

/-- A connector that never keeps the blocks of a finished request. -/
def ConnectorOps.NeverDelays (ops : ConnectorOps H C M) : Prop :=
  ∀ c req blocks res c', ops.requestFinished c req blocks = .ok (res, c') → res.1 = false

/-- A connector that never loads asynchronously. -/
def ConnectorOps.NeverLoadsAsync (ops : ConnectorOps H C M) : Prop :=
  ∀ c req numLocal, (ops.getNumNewMatchedTokens c req numLocal).1.2 = false

/-- The outcomes a configuration can produce. -/
def Outcome.Allowed : Outcome → Prop
  | .pinned _ => cfg.policy = .mimir
  | .freed => True
  | .delayed => ∃ ops, cfg.connector = some ops ∧ ¬ ops.NeverDelays

/-- What a connector learns between steps, the ends of requests apart: which transfers finished. -/
def Config.Notified (c c' : C) : Prop :=
  c' = c ∨ ∃ ops out, cfg.connector = some ops ∧ c' = ops.updateConnectorOutput c out

/-- How the blocks of a request that ends are decided on: the connector is asked and may keep them. -/
def Outcome.Decided (kv : KVCacheManager H) (c c' : C) (req : Request H)
    (outcome : Outcome) : Prop :=
  match cfg.connector with
  | none => c' = c ∧ outcome ≠ .delayed
  | some ops => ∃ blockIds res, kv.getBlocks req.requestId = [blockIds] ∧
      ops.requestFinished c req blockIds = .ok (res, c') ∧ (outcome = .delayed ↔ res.1 = true)

/-- A request object after at most one more token. -/
inductive Grown (cfg : Config H C M) (req : Request H) : Request H → Prop
  | same : Grown cfg req req
  | token (t : TokenId) (req' : Request H)
      (done : Request.appendOutputTokenId cfg.newBlockHashes req t = .ok req') : Grown cfg req req'

/-- A request object at its end: after at most one more token, with a finished status. -/
inductive Ended (cfg : Config H C M) (req : Request H) : Request H → Prop
  | mk (last : Request H) (status : RequestStatus) (stopReason : Option TokenId) (placeholders : Int)
      (grown : Grown cfg req last) (finished : status.isFinished = true) :
      Ended cfg req { last with status, stopReason, numOutputPlaceholders := placeholders }

/-- A change of a request object that neither ends nor queues the request, with its notes. -/
inductive Adjusted (cfg : Config H C M) (scope : Scope) (r : Ref) (req : Request H) :
    Request H → List Effect → Prop
  | reject (rejected : Int) (drafts : scope.drafts) :
      Adjusted cfg scope r req { req with numComputedTokens := req.numComputedTokens - rejected } []
  | draft (specTokenIds : List TokenId) (drafts : scope.drafts) :
      Adjusted cfg scope r req { req with specTokenIds } []
  | append (token : TokenId) (req' : Request H)
      (done : Request.appendOutputTokenId cfg.newBlockHashes req token = .ok req')
      (short : (req'.numTokens : Int) < cfg.kv.maxModelLen) :
      Adjusted cfg scope r req req' [.appended r token]
  | reserve (placeholders : Int) :
      Adjusted cfg scope r req { req with numOutputPlaceholders := placeholders } []
  | emit (output : EngineCoreOutput) : Adjusted cfg scope r req req [.emitted r output]

/-- When a request may end with an object, notes and an outcome. -/
structure Retires (scope : Scope) (s : Scheduler H C) (r : Ref)
    (req : Request H) (b : Bookkeeping C) (notes : List Effect) (outcome : Outcome) : Prop where
  touched : scope.touch r
  known : s.requests.get? (s.objs r).requestId = some r
  live : scope.fresh → (s.objs r).isFinished = false
  ended : Ended cfg (s.objs r) req
  noted : ∀ e ∈ notes, EndNote r e
  reported : .reported r ∈ notes
  allowed : outcome.Allowed cfg
  decided : outcome.Decided cfg s.kvCacheManager s.connector b.connector req
  recorded : Recorded s.jobToolHistory r (s.objs r).jobId b.jobToolHistory notes

/-- One elementary change. -/
inductive Move [DecidableEq H] (cfg : Config H C M) (scope : Scope) :
    Scheduler H C → Scheduler H C → Prop
  | book (s : Scheduler H C) (b : Bookkeeping C)
      (told : scope.step ∨ cfg.Notified s.connector b.connector)
      (unrecorded : b.jobToolHistory = s.jobToolHistory) : Move cfg scope s (s.book b [])
  | reorder (s : Scheduler H C) (waiting : List Ref) (perm : waiting.Perm s.waiting) :
      Move cfg scope s { s with waiting }
  | adjust (s : Scheduler H C) (r : Ref) (req : Request H) (notes : List Effect)
      (touched : scope.touch r) (adjusted : Adjusted cfg scope r (s.objs r) req notes) :
      Move cfg scope s (s.withObj r req notes)
  /-- The tokens of a running request are cached, its last one included. -/
  | cache (s : Scheduler H C) (r : Ref) (req : Request H) (numTokens : Int) (kv : KVCacheManager H)
      (touched : scope.touch r) (known : s.requests.get? (s.objs r).requestId = some r)
      (runs : (s.objs r).status = .running) (grown : Grown cfg (s.objs r) req)
      (cached : s.kvCacheManager.cacheBlocks cfg.kv req numTokens = .ok kv) :
      Move cfg scope s { s with kvCacheManager := kv }
  | retire (s : Scheduler H C) (r : Ref) (req : Request H) (b : Bookkeeping C)
      (notes : List Effect) (outcome : Outcome)
      (ends : Retires cfg scope s r req b notes outcome) :
      Move cfg scope s (s.retire r req b notes outcome)
  | sent (s : Scheduler H C) (r : Ref) (listed : scope.sent r)
      (known : s.requests.get? (s.objs r).requestId = some r)
      (finished : (s.objs r).isFinished = true) : Move cfg scope s (s.release r)
  | unpin (s : Scheduler H C) (before : List (Ref × PyFloat)) (r : Ref) (expiry now : PyFloat)
      (after : List (Ref × PyFloat)) (clock : scope.now = some now) (due : expiry.le now = true)
      (found : s.pinnedRequests = before ++ (r, expiry) :: after)
      (gone : (s.objs r).requestId ∉ s.requests.keys) :
      Move cfg scope s { s with pinnedRequests := before ++ after }
  | expire (s : Scheduler H C) (before : List (Ref × PyFloat)) (r : Ref) (expiry now : PyFloat)
      (after : List (Ref × PyFloat)) (clock : scope.now = some now) (due : expiry.le now = true)
      (found : s.pinnedRequests = before ++ (r, expiry) :: after)
      (present : (s.objs r).requestId ∈ s.requests.keys)
      (finished : (s.objs r).isFinished = true) :
      Move cfg scope s ({ s with pinnedRequests := before ++ after }.release r)

/-- A sequence of elementary changes. -/
abbrev Moves [DecidableEq H] (scope : Scope) :
    Scheduler H C → Scheduler H C → Prop :=
  Relation.ReflTransGen (Move cfg scope)

end Definitions

section Basics

variable {cfg : Config H C M} {scope : Scope}

/-- Appending a token changes the output and the hashes. -/
theorem appendOutputTokenId_eq {newBlockHashes : Request H → Except Err (List H)}
    {r r' : Request H} {token : TokenId}
    (done : Request.appendOutputTokenId newBlockHashes r token = .ok r') :
    r' = { r with outputTokenIds := r.outputTokenIds ++ [token], blockHashes := r'.blockHashes } := by
  obtain ⟨hashes, _, built⟩ := bind_eq_ok.mp done
  cases built
  rfl

/-- Updating one object without changing a field of it. -/
theorem update_field {α : Type} {objs : Ref → Request H}
    (field : Request H → α) (same : field req = field (objs r)) (x : Ref) :
    field (Function.update objs r req x) = field (objs x) := by
  by_cases eq : x = r
  · subst eq; rw [update_self, same]
  · rw [update_of_ne eq]

variable {req' : Request H} {notes : List Effect} {s s' : Scheduler H C}
  {id : RequestId}

/-- Requests for which the same was sent have one id. -/
theorem Request.requestId_eq (same : req'.fixed = req.fixed) : req'.requestId = req.requestId :=
  congrArg (·.1.requestId) same

/-- One more token leaves all but the output and the hashes alone. -/
theorem Grown.kept (grown : Grown cfg req req') : req'.fixed = req.fixed ∧
    req'.status = req.status ∧ req'.numComputedTokens = req.numComputedTokens := by
  cases grown with
  | same => exact ⟨rfl, rfl, rfl⟩
  | token t _ done =>
    rw [appendOutputTokenId_eq done]
    exact ⟨rfl, rfl, rfl⟩

/-- Growing a request changes its tokens and hashes only. -/
theorem Grown.requestId (grown : Grown cfg req req') : req'.requestId = req.requestId :=
  Request.requestId_eq grown.kept.1

/-- The end of a request leaves what was sent alone. -/
theorem Ended.fixed (ended : Ended cfg req req') : req'.fixed = req.fixed := by
  obtain ⟨last, status, stopReason, placeholders, grown, _⟩ := ended
  exact grown.kept.1

theorem Ended.requestId (ended : Ended cfg req req') : req'.requestId = req.requestId :=
  Request.requestId_eq ended.fixed

theorem Ended.isFinished (ended : Ended cfg req req') : req'.isFinished = true := by
  obtain ⟨_, _, _, _, _, finished⟩ := ended
  exact finished

/-- When blocks are freed at the end of a request, they and the id are those of its object before. -/
theorem Retires.freed {b : Bookkeeping C} (ends : Retires cfg scope s r req b notes .freed) :
    (s.retire r req b notes .freed).requests = s.requests.erase (s.objs r).requestId ∧
      (s.retire r req b notes .freed).kvCacheManager =
        s.kvCacheManager.free (s.objs r).requestId := by
  have own : ((s.withdraw r req).objs r).requestId = (s.objs r).requestId :=
    update_field (fun req => req.requestId) ends.ended.requestId r
  exact ⟨congrArg s.requests.erase own, congrArg s.kvCacheManager.free own⟩

/-- An adjustment leaves what was sent and the status alone. -/
theorem Adjusted.kept (adjusted : Adjusted cfg scope r req req' notes) :
    req'.fixed = req.fixed ∧ req'.status = req.status := by
  cases adjusted with
  | append token _ done =>
    rw [appendOutputTokenId_eq done]
    exact ⟨rfl, rfl⟩
  | _ => exact ⟨rfl, rfl⟩

/-- Notes without durations before those of a request's end record nothing more. -/
theorem Recorded.append {history after : PyDict JobKey (List PyFloat)} {jobId : Option XArg}
    (recorded : Recorded history r jobId after notes) {silent : List Effect}
    (quiet : silent.filterMap Effect.duration? = []) :
    Recorded history r jobId after (notes ++ silent) := by
  cases recorded with
  | none _ none => exact .none _ (by rw [List.filterMap_append, none, quiet]; rfl)
  | tool job duration _ owner noted =>
    exact .tool job duration _ owner (by rw [List.filterMap_append, noted, quiet]; rfl)

variable [DecidableEq H]

/-- A wider scope allows more. -/
theorem Moves.widen {wider : Scope} (moves : Moves cfg scope s s')
    (touch : ∀ r, scope.touch r → wider.touch r) (sent : ∀ r, scope.sent r → wider.sent r)
    (fresh : wider.fresh → scope.fresh)
    (drafts : scope.drafts → wider.drafts) (now : ∀ t, scope.now = some t → wider.now = some t)
    (step : scope.step → wider.step) :
    Moves cfg wider s s' := by
  induction moves with
  | refl => exact .refl
  | tail _ last ih =>
    refine .tail ih ?_
    cases last with
    | book b told unrecorded => exact .book _ b (told.imp_left step) unrecorded
    | reorder waiting perm => exact .reorder _ waiting perm
    | adjust r req notes touched adjusted =>
      refine .adjust _ r req notes (touch r touched) ?_
      cases adjusted with
      | reject rejected allowed => exact .reject rejected (drafts allowed)
      | draft tokens allowed => exact .draft tokens (drafts allowed)
      | append token _ done short => exact .append token _ done short
      | reserve placeholders => exact .reserve placeholders
      | emit output => exact .emit output
    | cache r req numTokens kv touched known runs grown cached =>
      exact .cache _ r req numTokens kv (touch r touched) known runs grown cached
    | retire r req b notes outcome ends =>
      exact .retire _ r req b notes outcome
        { ends with touched := touch r ends.touched, live := fun wide => ends.live (fresh wide) }
    | sent r listed known finished => exact .sent _ r (sent r listed) known finished
    | unpin before r expiry t after clock due found gone =>
      exact .unpin _ before r expiry t after (now t clock) due found gone
    | expire before r expiry t after clock due found present finished =>
      exact .expire _ before r expiry t after (now t clock) due found present finished

/-- An output to the client is only noted. -/
theorem Move.emit (s : Scheduler H C) (touched : scope.touch r) (output : EngineCoreOutput) :
    Move cfg scope s (s.log (.emitted r output)) := by
  have move : Move cfg scope s _ := .adjust s r _ _ touched (.emit output)
  rwa [Scheduler.withObj, update_eq_self] at move

/-- A move leaves the objects of untouched requests alone. -/
theorem Move.objs_frame (move : Move cfg scope s s')
    (apart : ¬ scope.touch r) : s'.objs r = s.objs r := by
  have other : ∀ {r' : Ref}, scope.touch r' → r ≠ r' := by
    rintro r' touched rfl
    exact apart touched
  cases move with
  | adjust r' req notes touched => exact update_of_ne (other touched) ..
  | retire r' req b notes outcome ends =>
    rw [Scheduler.retire_objs]
    exact update_of_ne (other ends.touched) ..
  | _ => rfl

/-- No move changes what was sent. -/
theorem Move.fixed (move : Move cfg scope s s') (r : Ref) : (s'.objs r).fixed = (s.objs r).fixed := by
  cases move with
  | adjust r' req notes touched adjusted => exact update_field Request.fixed adjusted.kept.1 r
  | retire r' req b notes outcome ends =>
    rw [Scheduler.retire_objs]
    exact update_field Request.fixed ends.ended.fixed r
  | _ => rfl

/-- A move never changes a request id. -/
theorem Move.requestId (move : Move cfg scope s s') (r : Ref) :
    (s'.objs r).requestId = (s.objs r).requestId :=
  Request.requestId_eq (move.fixed r)

/-- A move ends a request or leaves its status alone. -/
theorem Move.status (move : Move cfg scope s s') (r : Ref) :
    (s'.objs r).status = (s.objs r).status ∨ (s'.objs r).isFinished = true := by
  cases move with
  | adjust r' req notes touched adjusted => exact .inl (update_field Request.status adjusted.kept.2 r)
  | retire r' req b notes outcome ends =>
    rw [Scheduler.retire_objs]
    by_cases same : r = r'
    · subst same
      rw [update_self]
      exact .inr ends.ended.isFinished
    · rw [update_of_ne same]
      exact .inl rfl
  | _ => exact .inl rfl

/-- A dictionary without some key has no further entries. -/
theorem erase_sub {K V : Type} [DecidableEq K] {d : PyDict K V} {k k' : K} {v : V}
    (found : (d.erase k).get? k' = some v) : d.get? k' = some v := by
  by_cases same : k' = k
  · subst same; simp at found
  · rwa [PyDict.get?_erase_ne d same] at found

/-- A move forgets ids at most. -/
theorem Move.requests_sub (move : Move cfg scope s s')
    (found : s'.requests.get? id = some r) : s.requests.get? id = some r := by
  cases move with
  | retire r' req b notes outcome =>
    cases outcome with
    | pinned => exact found
    | freed => exact erase_sub found
    | delayed => exact found
  | sent => exact erase_sub found
  | expire => exact erase_sub found
  | _ => exact found

/-- An effect serves one request. -/
theorem Effect.serves_unique {e : Effect} {r' : Ref} (one : e.serves r = true)
    (other : e.serves r' = true) : r = r' := by
  cases e <;> simp_all [Effect.serves]

/-- What a move notes: that it serves a touched request, or that blocks went back. -/
theorem Move.history (move : Move cfg scope s s') :
    ∃ notes, s'.history = notes ++ s.history ∧
      ∀ e ∈ notes, (∃ r, scope.touch r ∧ e.serves r = true) ∨ ∃ r, e = .released r := by
  cases move with
  | adjust r req notes touched adjusted =>
    refine ⟨notes, rfl, fun e member => .inl ⟨r, touched, ?_⟩⟩
    cases adjusted <;> simp_all [Effect.serves]
  | retire r req b notes outcome ends =>
    have noted : ∀ e ∈ notes, (∃ r, scope.touch r ∧ e.serves r = true) ∨ ∃ r, e = .released r := by
      intro e member
      refine .inl ⟨r, ends.touched, ?_⟩
      rcases ends.noted e member with rfl | ⟨duration, rfl⟩ | ⟨token, rfl⟩ <;> simp [Effect.serves]
    cases outcome with
    | freed => exact ⟨.released r :: notes, rfl, List.forall_mem_cons.mpr ⟨.inr ⟨r, rfl⟩, noted⟩⟩
    | pinned => exact ⟨notes, rfl, noted⟩
    | delayed => exact ⟨notes, rfl, noted⟩
  | sent r => exact ⟨[.released r], rfl, by simp⟩
  | expire before r => exact ⟨[.released r], rfl, by simp⟩
  | _ => exact ⟨[], rfl, by simp⟩

/-- Moves leave every object outside their scope alone. -/
theorem Moves.objs_frame (moves : Moves cfg scope s s')
    (apart : ¬ scope.touch r) : s'.objs r = s.objs r := by
  induction moves with
  | refl => rfl
  | tail _ last ih => rw [last.objs_frame apart, ih]

/-- Moves only ever forget requests. -/
theorem Moves.requests_sub (moves : Moves cfg scope s s')
    (found : s'.requests.get? id = some r) : s.requests.get? id = some r := by
  induction moves with
  | refl => exact found
  | tail _ last ih => exact ih (last.requests_sub found)

end Basics

end Mimir
