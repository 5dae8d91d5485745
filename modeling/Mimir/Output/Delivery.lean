import Mimir.Output.Collector

/-! Streaming frontends in step with the transcript of their request. -/

namespace Mimir

open Python List

namespace IncrementalDetokenizer

variable {D : Type} {decodeNext : D → TokenId → List Char × D}

/-- The text a reader may see: all of it once the request has ended, and all but the buffer before. -/
def shown (live : Bool) : IncrementalDetokenizer D → List Char
  | .skipping _ => []
  | .base d => d.outputText.take (d.outputText.length - if live then d.stopBufferLength else 0)

/-- The state with another delivered length. -/
def withOffset (k : Nat) : IncrementalDetokenizer D → IncrementalDetokenizer D
  | .skipping tokenIds => .skipping tokenIds
  | .base d => .base (d.withOffset k)

/-- The state of a frontend: one that streams deltas also counts what it has delivered. -/
def forReader (delta : Bool) (k : Nat) (d : IncrementalDetokenizer D) : IncrementalDetokenizer D :=
  bif delta then d.withOffset k else d

/-- The buffer is long enough for the stop strings. -/
def Buffered : IncrementalDetokenizer D → Prop
  | .skipping _ => True
  | .base d => d.Buffered

/-- Updating a state does not look at the delivered length. -/
theorem update_forReader (decodeNext : D → TokenId → List Char × D) (delta : Bool) (k : Nat)
    (d : IncrementalDetokenizer D) (tokens : List TokenId) (stopped : Bool) :
    (d.forReader delta k).update decodeNext tokens stopped =
      ((d.update decodeNext tokens stopped).1,
        (d.update decodeNext tokens stopped).2.forReader delta k) := by
  cases delta with
  | false => rfl
  | true =>
    cases d with
    | skipping => rfl
    | base =>
      simp only [forReader, cond_true, withOffset, update, BaseIncrementalDetokenizer.update_withOffset,
        Prod.map, id_eq]

variable {d : IncrementalDetokenizer D}

/-- An update appends its ids. -/
theorem update_outputTokenIds (decodeNext : D → TokenId → List Char × D) (buffered : d.Buffered)
    (tokens : List TokenId) (stopped : Bool) :
    (d.update decodeNext tokens stopped).2.outputTokenIds = d.outputTokenIds ++ tokens := by
  cases d with
  | skipping => rfl
  | base => exact (BaseIncrementalDetokenizer.update_spec buffered tokens stopped).ids

/-- The buffer stays long enough. -/
theorem Buffered.update (decodeNext : D → TokenId → List Char × D) (buffered : d.Buffered)
    (tokens : List TokenId) (stopped : Bool) : (d.update decodeNext tokens stopped).2.Buffered := by
  cases d with
  | skipping => trivial
  | base d =>
    have buffered : d.Buffered := buffered
    exact buffered.same (BaseIncrementalDetokenizer.update_spec buffered tokens stopped).settings

/-- What could be seen before an update can be seen after it. -/
theorem shown_update (buffered : d.Buffered) (tokens : List TokenId) (stopped : Bool) {live : Bool}
    (unmatched : live = true → (d.update decodeNext tokens stopped).1.filter (· ≠ []) = none) :
    d.shown true <+: (d.update decodeNext tokens stopped).2.shown live := by
  cases d with
  | skipping => exact prefix_rfl
  | base d =>
    obtain ⟨settings, -, text, whole⟩ :
        d.Updated (d.update decodeNext tokens stopped).2 tokens (d.update decodeNext tokens stopped).1 :=
      BaseIncrementalDetokenizer.update_spec buffered tokens stopped
    have unmatched : live = true →
        (d.update decodeNext tokens stopped).1.filter (· ≠ []) = none := unmatched
    show d.outputText.take (d.outputText.length - d.stopBufferLength) <+:
      (d.update decodeNext tokens stopped).2.outputText.take
        ((d.update decodeNext tokens stopped).2.outputText.length -
          if live then (d.update decodeNext tokens stopped).2.stopBufferLength else 0)
    generalize d.update decodeNext tokens stopped = updated at *
    cases live with
    | false => simpa using text
    | true =>
      -- Nothing was cut, so the old text is a beginning of the new one.
      obtain ⟨tail, eq⟩ := whole (unmatched rfl)
      have old : (d.outputText ++ tail).take (d.outputText.length - d.stopBufferLength) =
          d.outputText.take (d.outputText.length - d.stopBufferLength) :=
        take_append_of_le_length (by omega)
      rw [settings.2.2.2.1, ← eq, ← old, length_append]
      exact take_prefix_take_left (by simp only [↓reduceIte]; omega)

/-- Ending a request shows the buffer too. -/
theorem shown_end (d : IncrementalDetokenizer D) : d.shown true <+: d.shown false := by
  cases d with
  | skipping => exact prefix_rfl
  | base => exact take_prefix_take_left (by simp)

/-- Streaming returns what can be seen beyond the delivered text, and counts it as delivered. -/
theorem getNextOutputText_delta (d : IncrementalDetokenizer D) (live : Bool) {before : List Char}
    (grown : before <+: d.shown live) :
    (d.withOffset before.length).getNextOutputText (!live) true =
      ((d.shown live).drop before.length, d.withOffset (d.shown live).length) := by
  have short := grown.length_le
  cases d with
  | skipping => simp [withOffset, getNextOutputText, shown]
  | base d =>
    have buffer : (if (!live) = true then 0 else d.stopBufferLength) =
        if live = true then d.stopBufferLength else 0 := by cases live <;> rfl
    simp only [withOffset, getNextOutputText, BaseIncrementalDetokenizer.getNextOutputText,
      BaseIncrementalDetokenizer.withOffset, shown, buffer, Bool.true_eq_false, ↓reduceIte,
      length_take_of_le (Nat.sub_le ..)] at short ⊢
    generalize d.outputText.length - (if live = true then d.stopBufferLength else 0) = length at *
    by_cases more : before.length < length
    · simp only [more, ↓reduceIte, Prod.map, id_eq]
    · -- Everything that can be seen is delivered already.
      have same : before.length = length := by omega
      simp only [same, lt_self_iff_false, ↓reduceIte, Prod.map, id_eq]
      rw [drop_eq_nil_of_le (by simp)]

/-- A cumulative reader gets everything that can be seen. -/
theorem getNextOutputText_cumulative (d : IncrementalDetokenizer D) (live : Bool) :
    d.getNextOutputText (!live) false = (d.shown live, d) := by
  cases d with
  | skipping => rfl
  | base d =>
    cases live with
    | false => simp [getNextOutputText, BaseIncrementalDetokenizer.getNextOutputText, shown]
    | true =>
      by_cases none : d.stopBufferLength = 0
      · simp [getNextOutputText, BaseIncrementalDetokenizer.getNextOutputText, shown, none]
      · simp [getNextOutputText, BaseIncrementalDetokenizer.getNextOutputText, shown, none]

/-- Either reader gets what can be seen, a streaming one without the text it has. -/
theorem getNextOutputText_forReader (d : IncrementalDetokenizer D) (delta live : Bool) {before : List Char}
    (grown : before <+: d.shown live) :
    (d.forReader delta before.length).getNextOutputText (!live) delta =
      (bif delta then (d.shown live).drop before.length else d.shown live,
        d.forReader delta (d.shown live).length) := by
  cases delta with
  | true => exact d.getNextOutputText_delta live grown
  | false => exact d.getNextOutputText_cumulative live

end IncrementalDetokenizer

/-- What one request has output so far, whoever reads it and when. -/
structure Transcript (D E : Type) where
  detokenizer : IncrementalDetokenizer D
  entries : List E
  live : Bool
  /-- The new ids of each output made, the output of an abort included. -/
  chunks : List (List TokenId)

namespace Transcript

variable {D E : Type} (decodeNext : D → TokenId → List Char × D)

/-- Before the first output. -/
def start (params : OutputParams) (decoder : Option D) : Transcript D E :=
  ⟨.fromNewRequest params decoder, [], true, []⟩

/-- Whether the request goes on after an output. -/
def goesOn (t : Transcript D E) (o : SampledOutput E) :
    Bool :=
  ((t.detokenizer.update decodeNext o.newTokenIds (decide (o.finishReason = some .stop))).1.filter
    (· ≠ [])).isNone && o.finishReason.isNone

/-- The transcript after one more event; a consumer's turn changes nothing. -/
def feed (t : Transcript D E) : StreamEvent E → Transcript D E
  | .get => t
  | .abort => if t.live then { t with live := false, chunks := t.chunks ++ [[]] } else t
  | .output o =>
    if t.live then
      ⟨(t.detokenizer.update decodeNext o.newTokenIds (decide (o.finishReason = some .stop))).2,
        t.entries ++ o.newLogprobs.getD [], t.goesOn decodeNext o, t.chunks ++ [o.newTokenIds]⟩
    else t

/-- The transcript after a sequence of events. -/
def after (t : Transcript D E)
    (events : List (StreamEvent E)) : Transcript D E :=
  events.foldl (feed decodeNext) t

/-- The text that can be seen. -/
def shown (t : Transcript D E) : List Char := t.detokenizer.shown t.live

end Transcript

/-- Whether an event is the consumer's turn. -/
def StreamEvent.isGet {E : Type} : StreamEvent E → Bool
  | .get => true
  | _ => false

/-- A consumer's pace: its turns are anywhere among the inputs, and it takes what is left at the end. -/
def Paced {E : Type} (inputs pace : List (StreamEvent E)) : Prop :=
  pace.filter (fun event => !event.isGet) = inputs ∧ pace.getLast? = some .get

namespace Transcript

variable {D E : Type} {decodeNext : D → TokenId → List Char × D}

/-- The consumer's turns leave no trace. -/
theorem after_filter (t : Transcript D E) (events : List (StreamEvent E)) :
    t.after decodeNext (events.filter (fun event => !event.isGet)) = t.after decodeNext events := by
  unfold after
  induction events generalizing t with
  | nil => rfl
  | cons event rest ih => cases event <;> exact ih _

/-- The outputs made so far stay the first ones. -/
theorem chunks_prefix (t : Transcript D E) (event : StreamEvent E) :
    t.chunks <+: (t.feed decodeNext event).chunks := by
  cases event with
  | get => exact prefix_rfl
  | abort =>
    simp only [feed]
    split
    · exact prefix_append ..
    · exact prefix_rfl
  | output =>
    simp only [feed]
    split
    · exact prefix_append ..
    · exact prefix_rfl

end Transcript

/-- The core reports logprobs exactly when asked to, one entry for each new token. -/
structure SampledOutput.Aligned {E : Type} (params : OutputParams) (o : SampledOutput E) : Prop where
  sampled : o.newLogprobs.map List.length =
    if params.logprobs then some o.newTokenIds.length else none
  prompt : o.newPromptLogprobs.isSome → params.promptLogprobs = true

/-- What waits in a queue that serves one request: nothing, or one output with one completion. -/
inductive RequestOutputCollector.Holds {E : Type} (c : RequestOutputCollector E) :
    Option (CompletionOutput E) → Prop
  | empty (vacant : c.output = none) : Holds c none
  | one {o : RequestOutput E} {x : CompletionOutput E} (waiting : c.output = some (.ok o))
      (outputs : o.outputs = [x]) (index : x.index = 0) : Holds c (some x)

/-- The list object a streamed completion carries, given the processor's list. -/
def freshEntries {E : Type} (l : List E) (count : Nat) : Entries E :=
  if l.isEmpty then .shared else .own (pySlice l (-(count : Int)) l.length)

/-- The kind of a reader: it streams deltas, or gets everything so far each time. -/
def readerKind (delta : Bool) : RequestOutputKind := bif delta then .delta else .cumulative

/-- How putting a completion changes the processor's list and the waiting list object. -/
inductive Joined {E : Type} (count : Nat) : Bool →
    Option (List E) → Option (CompletionOutput E) → Option (List E) → Option (Entries E) → Prop
  | off {pending : Option (CompletionOutput E)} : Joined count true none pending none none
  | first {l : List E} : Joined count true (some l) none (some l) (some (freshEntries l count))
  | nothing {l : List E} {x : CompletionOutput E} (absent : (freshEntries l count).read l = []) :
      Joined count true (some l) (some x) (some l) x.logprobs
  | shared {l : List E} {x : CompletionOutput E} (list : x.logprobs = some .shared)
      (present : (freshEntries l count).read l ≠ []) :
      Joined count true (some l) (some x) (some (l ++ (freshEntries l count).read l)) (some .shared)
  | own {l entries : List E} {x : CompletionOutput E} (list : x.logprobs = some (.own entries))
      (present : (freshEntries l count).read l ≠ []) :
      Joined count true (some l) (some x) (some l)
        (some (.own (entries ++ (freshEntries l count).read l)))
  /-- A cumulative output replaces the one that waits. -/
  | whole {l : Option (List E)} {pending : Option (CompletionOutput E)} :
      Joined count false l pending l (l.map fun _ => .shared)

namespace Frontend

variable {D E : Type} {decodeNext : D → TokenId → List Char × D}

variable {r : RequestState D} {f : Frontend D E}

variable {delta : Bool}

/-- The completion a request makes. -/
theorem makeRequestOutput_spec (kind : r.outputKind = readerKind delta)
    (p : LogprobsProcessor E) (tokens : List TokenId) (reason : Option FinishReason)
    (stop : Option StopReason) (kv : Option KVTransferParams) :
    ∃ o p' x, r.makeRequestOutput p tokens reason stop kv =
        (some o, { r with detokenizer := (r.detokenizer.getNextOutputText reason.isSome delta).2 }, p') ∧
      p'.logprobs = p.logprobs ∧ p'.promptLogprobs.isSome = p.promptLogprobs.isSome ∧
      o.outputs = [x] ∧ x.index = r.requestIndex ∧
      x.text = (r.detokenizer.getNextOutputText reason.isSome delta).1 ∧
      x.tokenIds = (bif delta then tokens else
        (r.detokenizer.getNextOutputText reason.isSome delta).2.outputTokenIds) ∧
      x.logprobs = p.logprobs.map fun l => bif delta then freshEntries l tokens.length else .shared := by
  cases delta with
  | true =>
    simp only [RequestState.makeRequestOutput, kind, readerKind, cond_true, reduceCtorEq, and_false, ↓reduceIte,
      RequestState.newCompletionOutput, decide_true, RequestState.newRequestOutput,
      RequestState.completionLogprobs, LogprobsProcessor.popPromptLogprobs]
    refine ⟨_, _, _, rfl, rfl, by simp, rfl, rfl, rfl, rfl, ?_⟩
    cases p.logprobs with
    | none => rfl
    | some l => cases l <;> simp [freshEntries]
  | false =>
    simp only [RequestState.makeRequestOutput, kind, readerKind, cond_false, reduceCtorEq, and_false, ↓reduceIte,
      RequestState.newCompletionOutput, decide_false, RequestState.newRequestOutput,
      RequestState.completionLogprobs, Bool.false_eq_true, false_and]
    exact ⟨_, _, _, rfl, rfl, rfl, rfl, rfl, rfl, rfl, rfl⟩

/-- Putting an output behind a waiting one merges their completions. -/
theorem put_one {c : RequestOutputCollector E} {p p' : LogprobsProcessor E}
    {waiting next : RequestOutput E} {x y : CompletionOutput E} {entries : Option (Entries E)}
    (aggregate : c.aggregate = true) (eq : c.output = some (.ok waiting))
    (outputs : waiting.outputs = [x]) (added : next.outputs = [y]) (same : x.index = y.index)
    (extended : RequestOutput.extendLogprobs p x y = .ok (p', entries)) :
    ∃ c' merged z, c.put p (.ok next) = .ok (p', c') ∧ c'.aggregate = true ∧
      c'.output = some (.ok merged) ∧ merged.outputs = [z] ∧ z.index = x.index ∧
      z.text = x.text ++ y.text ∧ z.tokenIds = x.tokenIds ++ y.tokenIds ∧ z.logprobs = entries := by
  obtain ⟨z, merges⟩ : ∃ z, z = { x with
      text := x.text ++ y.text
      tokenIds := x.tokenIds ++ y.tokenIds
      logprobs := entries
      finishReason := y.finishReason
      stopReason := y.stopReason } := ⟨_, rfl⟩
  refine ⟨⟨c.aggregate, some (.ok _)⟩, { waiting with
      outputs := [z]
      finished := waiting.finished || next.finished
      kvTransferParams := next.kvTransferParams }, z, ?_, aggregate, rfl, rfl, by simp [merges],
    by simp [merges], by simp [merges], by simp [merges]⟩
  unfold RequestOutputCollector.put
  rw [eq, merges]
  simp only [RequestOutput.add, outputs, added, foldlM_cons, foldlM_nil,
    RequestOutput.addCompletion, same, aggregate, ↓reduceIte, extended]
  rfl

/-- Putting an output that is not merged replaces the waiting one. -/
theorem put_other {c : RequestOutputCollector E} {waiting next : RequestOutput E} {x y : CompletionOutput E}
    (p : LogprobsProcessor E) (aggregate : c.aggregate = false) (eq : c.output = some (.ok waiting))
    (outputs : waiting.outputs = [x]) (added : next.outputs = [y]) (same : x.index = y.index) :
    ∃ c' merged, c.put p (.ok next) = .ok (p, c') ∧ c'.aggregate = false ∧
      c'.output = some (.ok merged) ∧ merged.outputs = [y] := by
  refine ⟨⟨c.aggregate, some (.ok _)⟩, { waiting with
      outputs := [y]
      finished := waiting.finished || next.finished
      kvTransferParams := next.kvTransferParams }, ?_, aggregate, rfl, rfl⟩
  simp only [RequestOutputCollector.put, eq, RequestOutput.add, outputs, added, foldlM_cons, foldlM_nil,
    RequestOutput.addCompletion, same, aggregate, ↓reduceIte, Bool.false_eq_true]
  rfl

/-- Putting a completion: when streaming, texts and ids are appended and logprobs joined. -/
theorem emit_spec {pending : Option (CompletionOutput E)}
    (kind : r.outputKind = readerKind delta) (index : r.requestIndex = 0)
    (aggregate : f.collector.aggregate = delta) (holds : f.collector.Holds pending)
    (agree : ∀ x ∈ pending, x.logprobs.isSome = f.processor.logprobs.isSome)
    (tokens : List TokenId) (reason : Option FinishReason) (stop : Option StopReason)
    (kv : Option KVTransferParams) :
    ∃ f' x, f.emit r tokens reason stop kv = .ok f' ∧
      f'.request = (if reason.isSome then none else
        some { r with detokenizer := (r.detokenizer.getNextOutputText reason.isSome delta).2 }) ∧
      f'.collector.aggregate = delta ∧ f'.collector.Holds (some x) ∧
      x.text = (bif delta then (pending.map (·.text)).getD [] else []) ++
        (r.detokenizer.getNextOutputText reason.isSome delta).1 ∧
      x.tokenIds = (bif delta then (pending.map (·.tokenIds)).getD [] ++ tokens else
        (r.detokenizer.getNextOutputText reason.isSome delta).2.outputTokenIds) ∧
      Joined tokens.length delta f.processor.logprobs pending f'.processor.logprobs x.logprobs ∧
      f'.processor.promptLogprobs.isSome = f.processor.promptLogprobs.isSome := by
  obtain ⟨o, p, new, made, list, prompt, outputs, newIndex, text, ids, logprobs⟩ :=
    makeRequestOutput_spec kind f.processor tokens reason stop kv
  unfold emit
  rw [made]
  dsimp only
  cases holds with
  | empty vacant =>
    -- The output waits as it is.
    refine ⟨⟨_, p, { f.collector with output := some (.ok o) }⟩, new, ?_, rfl, aggregate,
      .one rfl outputs (newIndex.trans index), by cases delta <;> simp [text], by simp [ids], ?_, prompt⟩
    · simp only [RequestOutputCollector.put, vacant]
      rfl
    · show Joined _ _ _ _ p.logprobs _
      rw [list, logprobs]
      cases delta with
      | false => exact .whole
      | true =>
        cases f.processor.logprobs with
        | none => exact .off
        | some => exact .first
  | @one waiting x eq waitingOutputs waitingIndex =>
    have same : x.index = new.index := by rw [waitingIndex, newIndex, index]
    cases delta with
    | false =>
      obtain ⟨c', merged, put, aggregated, waits, single⟩ :=
        put_other p aggregate eq waitingOutputs outputs same
      refine ⟨⟨_, p, c'⟩, new, by rw [put]; rfl, rfl, aggregated,
        .one waits single (newIndex.trans index), by simp [text], by simp [ids], ?_, prompt⟩
      show Joined _ _ _ _ p.logprobs _
      rw [list, logprobs]
      exact .whole
    | true =>
      have agree := agree x rfl
      -- The list objects decide what extending does.
      obtain ⟨p', entries, extended, joined, prompts⟩ : ∃ p' entries,
          RequestOutput.extendLogprobs p x new = .ok (p', entries) ∧
            Joined tokens.length true f.processor.logprobs (some x) p'.logprobs entries ∧
            p'.promptLogprobs = p.promptLogprobs := by
        unfold RequestOutput.extendLogprobs
        rw [logprobs, ← list] at *
        cases processor : p.logprobs with
        | none =>
          rw [processor] at agree
          have off : x.logprobs = none := by simpa using agree
          refine ⟨p, x.logprobs, by simp, ?_, rfl⟩
          rw [processor, off]
          exact .off
        | some l =>
          rw [processor] at agree
          simp only [Option.map_some, Option.getD_some, LogprobsProcessor.read, processor, cond_true]
          by_cases nothing : (freshEntries l tokens.length).read l = []
          · refine ⟨p, x.logprobs, by simp [nothing], ?_, rfl⟩
            rw [processor]
            exact .nothing nothing
          · simp only [List.isEmpty_iff, nothing, ↓reduceIte]
            cases waitingList : x.logprobs with
            | none => simp [waitingList] at agree
            | some entries =>
              cases entries with
              | shared => exact ⟨_, _, rfl, .shared waitingList nothing, rfl⟩
              | own =>
                refine ⟨_, _, rfl, ?_, rfl⟩
                rw [processor]
                exact .own waitingList nothing
      obtain ⟨c', merged, z, put, aggregated, waits, single, mergedIndex, mergedText, mergedIds, mergedList⟩ :=
        put_one aggregate eq waitingOutputs outputs same extended
      refine ⟨⟨_, p', c'⟩, z, by rw [put]; rfl, rfl, aggregated,
        .one waits single (mergedIndex.trans waitingIndex), by simp [mergedText, text],
        by simp [mergedIds, ids], ?_, by rw [← prompt, ← prompts]⟩
      rw [mergedList]
      exact joined

/-- Taking in an output of a live request: the state is updated, and one output is emitted. -/
theorem processOutput_eq (decodeNext : D → TokenId → List Char × D) {o : SampledOutput E}
    {p : LogprobsProcessor E} (request : f.request = some r)
    (updated : f.processor.updateFromOutput o = .ok p) :
    ∃ reason stop, f.processOutput decodeNext o =
        emit { f with processor := p } { r with
          detokenizer := (r.detokenizer.update decodeNext o.newTokenIds
            (decide (o.finishReason = some .stop))).2
          numCachedTokens := o.numCachedTokens } o.newTokenIds reason stop o.kvTransferParams ∧
      reason.isSome = !(((r.detokenizer.update decodeNext o.newTokenIds
        (decide (o.finishReason = some .stop))).1.filter (· ≠ [])).isNone && o.finishReason.isNone) := by
  simp only [processOutput, request, updated]
  cases stopString : (r.detokenizer.update decodeNext o.newTokenIds
      (decide (o.finishReason = some .stop))).1.filter (· ≠ []) with
  | none =>
    refine ⟨o.finishReason, o.stopReason.map .token, rfl, ?_⟩
    cases o.finishReason <;> rfl
  | some text => exact ⟨some .stop, some (.text text), rfl, rfl⟩

end Frontend

section

variable {D E : Type} {decodeNext : D → TokenId → List Char × D} {params : OutputParams}
  {t : Transcript D E} {f : Frontend D E} {pending : Option (CompletionOutput E)} {delta : Bool}

/-- Joining keeps whether there are logprobs at all. -/
theorem Joined.isSome {count : Nat} {l l' : Option (List E)} {entries : Option (Entries E)}
    (joined : Joined count delta l pending l' entries)
    (agree : ∀ x ∈ pending, x.logprobs.isSome = l.isSome) :
    l'.isSome = l.isSome ∧ entries.isSome = l.isSome := by
  cases joined with
  | off => exact ⟨rfl, rfl⟩
  | first => exact ⟨rfl, rfl⟩
  | nothing => exact ⟨rfl, agree _ rfl⟩
  | shared => exact ⟨rfl, rfl⟩
  | own => exact ⟨rfl, rfl⟩
  | whole => exact ⟨rfl, by simp⟩

/-- The processor takes in an output of the core that carries what was asked for. -/
theorem SampledOutput.Aligned.updateFromOutput {p : LogprobsProcessor E} {o : SampledOutput E}
    (aligned : o.Aligned params) (asked : p.logprobs.isSome = params.logprobs)
    (prompt : params.promptLogprobs = true → p.promptLogprobs.isSome) :
    ∃ p', p.updateFromOutput o = .ok p' ∧
      p'.logprobs = p.logprobs.map (· ++ o.newLogprobs.getD []) ∧
      (p.promptLogprobs.isSome → p'.promptLogprobs.isSome) ∧
      (p.logprobs.isSome → (o.newLogprobs.getD []).length = o.newTokenIds.length) := by
  -- Each list is extended only when it is there.
  have sampled : LogprobsProcessor.extend p.logprobs o.newLogprobs =
      .ok (p.logprobs.map (· ++ o.newLogprobs.getD [])) ∧
      (p.logprobs.isSome → (o.newLogprobs.getD []).length = o.newTokenIds.length) := by
    have sampled := aligned.sampled
    rw [← asked] at sampled
    cases list : p.logprobs with
    | none =>
      rw [list] at sampled
      have none : o.newLogprobs = none := by simpa using sampled
      simp [none, LogprobsProcessor.extend]
    | some =>
      rw [list] at sampled
      obtain ⟨new, eq, count⟩ : ∃ new, o.newLogprobs = some new ∧
          new.length = o.newTokenIds.length := by simpa using sampled
      rw [eq]
      exact ⟨rfl, fun _ => count⟩
  obtain ⟨promptList, extended, kept⟩ : ∃ promptList,
      LogprobsProcessor.extend p.promptLogprobs (o.newPromptLogprobs.map (·.map some)) =
        .ok promptList ∧ (p.promptLogprobs.isSome → promptList.isSome) := by
    cases new : o.newPromptLogprobs with
    | none => exact ⟨_, rfl, id⟩
    | some =>
      obtain ⟨old, eq⟩ := Option.isSome_iff_exists.mp (prompt (aligned.prompt (by rw [new]; rfl)))
      exact ⟨_, by rw [eq]; rfl, fun _ => rfl⟩
  refine ⟨⟨_, promptList⟩, ?_, rfl, kept, sampled.2⟩
  unfold LogprobsProcessor.updateFromOutput
  rw [sampled.1, extended]
  rfl

/-- A frontend in step with the transcript of its request. -/
structure InStep (delta : Bool) (params : OutputParams) (t : Transcript D E) (f : Frontend D E)
    (pending : Option (CompletionOutput E)) : Prop where
  buffered : t.detokenizer.Buffered
  /-- When streaming, all that can be seen counts as delivered. -/
  request : ∃ n, f.request = if t.live then
    some ⟨0, readerKind delta, t.detokenizer.forReader delta t.shown.length, n⟩ else none
  aggregate : f.collector.aggregate = delta
  holds : f.collector.Holds pending
  agree : ∀ x ∈ pending, x.logprobs.isSome = f.processor.logprobs.isSome
  asked : f.processor.logprobs.isSome = params.logprobs
  prompt : params.promptLogprobs = true → f.processor.promptLogprobs.isSome

/-- What one more output adds to the transcript. -/
structure Transcript.Extended (t t' : Transcript D E) (chunk : List TokenId) (new : List E) : Prop where
  chunks : t'.chunks = t.chunks ++ [chunk]
  entries : t'.entries = t.entries ++ new
  ids : t'.detokenizer.outputTokenIds = t.detokenizer.outputTokenIds ++ chunk
  grown : t.shown <+: t'.shown
  buffered : t'.detokenizer.Buffered

/-- What one more output adds to the transcript, to the processor's list and to what waits. -/
structure Delivered (delta : Bool) (t t' : Transcript D E) (pending : Option (CompletionOutput E))
    (l l' : Option (List E)) (x : CompletionOutput E) (chunk : List TokenId) (new : List E) : Prop
    extends t.Extended t' chunk new where
  count : l.isSome → new.length = chunk.length
  text : x.text = bif delta then (pending.map (·.text)).getD [] ++ t'.shown.drop t.shown.length else t'.shown
  tokens : x.tokenIds = bif delta then (pending.map (·.tokenIds)).getD [] ++ chunk else
    t'.detokenizer.outputTokenIds
  joined : Joined chunk.length delta (l.map (· ++ new)) pending l' x.logprobs

variable {event : StreamEvent E}

variable (decodeNext) in
/-- One more input of a live request extends its transcript, and one output is emitted, whoever reads it. -/
theorem Frontend.step_input {g : IncrementalDetokenizer D → IncrementalDetokenizer D}
    (commutes : ∀ d tokens stopped, (g d).update decodeNext tokens stopped =
      ((d.update decodeNext tokens stopped).1, g (d.update decodeNext tokens stopped).2))
    {kind : RequestOutputKind} {n : Int} (request : f.request = some ⟨0, kind, g t.detokenizer, n⟩)
    (buffered : t.detokenizer.Buffered) (live : t.live = true) (input : event.isGet = false)
    (aligned : ∀ o, event = .output o → o.Aligned params)
    (asked : f.processor.logprobs.isSome = params.logprobs)
    (prompt : params.promptLogprobs = true → f.processor.promptLogprobs.isSome) :
    ∃ p chunk new reason stop kv n', t.Extended (t.feed decodeNext event) chunk new ∧
      f.step decodeNext event = (do
        let f ← emit { f with processor := p } ⟨0, kind, g (t.feed decodeNext event).detokenizer, n'⟩
          chunk reason stop kv
        .ok (f, [])) ∧
      reason.isSome = !(t.feed decodeNext event).live ∧
      p.logprobs = f.processor.logprobs.map (· ++ new) ∧
      (f.processor.promptLogprobs.isSome → p.promptLogprobs.isSome) ∧
      (f.processor.logprobs.isSome → new.length = chunk.length) := by
  have shownLive : t.shown = t.detokenizer.shown true := by rw [Transcript.shown, live]
  cases event with
  | get => cases input
  | abort =>
    have t' : t.feed decodeNext .abort = { t with live := false, chunks := t.chunks ++ [[]] } := by
      simp [Transcript.feed, live]
    rw [t']
    refine ⟨f.processor, [], [], some .abort, none, none, n,
      ⟨rfl, (append_nil _).symm, (append_nil _).symm, ?_, buffered⟩, ?_, rfl, by simp, id,
      fun _ => rfl⟩
    · rw [shownLive]
      exact t.detokenizer.shown_end
    · show (f.abortRequest >>= _) = _
      simp only [abortRequest, request]
      rfl
  | output o =>
    obtain ⟨p, updated, list, prompts, count⟩ := (aligned o rfl).updateFromOutput asked prompt
    obtain ⟨reason, stop, processed, ends⟩ := processOutput_eq decodeNext request updated
    rw [commutes] at processed ends
    have t' : t.feed decodeNext (.output o) =
        ⟨(t.detokenizer.update decodeNext o.newTokenIds (decide (o.finishReason = some .stop))).2,
          t.entries ++ o.newLogprobs.getD [], t.goesOn decodeNext o, t.chunks ++ [o.newTokenIds]⟩ := by
      simp [Transcript.feed, live]
    rw [t']
    refine ⟨p, o.newTokenIds, o.newLogprobs.getD [], reason, stop, o.kvTransferParams, o.numCachedTokens,
      ⟨rfl, rfl, IncrementalDetokenizer.update_outputTokenIds decodeNext buffered .., ?_,
        buffered.update decodeNext ..⟩, ?_, ends, list, prompts, count⟩
    · rw [shownLive]
      refine IncrementalDetokenizer.shown_update buffered _ _ fun goesOn => ?_
      simp only [Transcript.goesOn, Bool.and_eq_true, Option.isNone_iff_eq_none] at goesOn
      exact goesOn.1
    · simp only [step, processed]

variable (decodeNext) in
/-- One more output of a live request: the queue gets all that can be seen now, when streaming only what
could not be seen before. -/
theorem InStep.feed (inStep : InStep delta params t f pending) (live : t.live = true)
    (input : event.isGet = false) (aligned : ∀ o, event = .output o → o.Aligned params) :
    ∃ f' x chunk new, f.step decodeNext event = .ok (f', []) ∧
      InStep delta params (t.feed decodeNext event) f' (some x) ∧
      Delivered delta t (t.feed decodeNext event) pending f.processor.logprobs f'.processor.logprobs x
        chunk new := by
  obtain ⟨n, request⟩ := inStep.request
  rw [live, if_pos rfl] at request
  obtain ⟨p, chunk, new, reason, stop, kv, n', extended, stepped, finishes, list, prompts, count⟩ :=
    Frontend.step_input decodeNext (IncrementalDetokenizer.update_forReader decodeNext delta t.shown.length)
      request inStep.buffered live input aligned inStep.asked inStep.prompt
  have next := (t.feed decodeNext event).detokenizer.getNextOutputText_forReader delta _ extended.grown
  rw [← finishes] at next
  have agree : ∀ x ∈ pending, x.logprobs.isSome = p.logprobs.isSome := by
    rw [list]
    simpa using inStep.agree
  obtain ⟨f', x, emitted, requested, aggregate, holds, text, ids, joined, kept⟩ :=
    Frontend.emit_spec (f := { f with processor := p }) (r := ⟨0, readerKind delta, _, n'⟩) rfl rfl
      inStep.aggregate inStep.holds agree chunk reason stop kv
  dsimp only at requested text ids
  rw [next] at requested text ids
  obtain ⟨asked, joinedSome⟩ := joined.isSome agree
  refine ⟨f', x, chunk, new, by rw [stepped, emitted]; rfl, ⟨extended.buffered, ⟨n', ?_⟩, aggregate,
    holds, ?_, ?_, ?_⟩, ⟨extended, count, ?_, ?_, by rw [← list]; exact joined⟩⟩
  · simp only [requested, finishes, Transcript.shown]
    cases (t.feed decodeNext event).live <;> rfl
  · rintro _ ⟨⟩
    rw [joinedSome, asked]
  · rw [asked, ← inStep.asked]
    simp [list]
  · intro needed
    rw [kept]
    exact prompts (inStep.prompt needed)
  · cases delta <;> exact text
  · cases delta <;> exact ids

/-- The outputs of a request that has ended change nothing. -/
theorem Frontend.step_ended (ended : f.request = none)
    (input : event.isGet = false) : f.step decodeNext event = .ok (f, []) := by
  cases event with
  | get => cases input
  | abort => simp [step, abortRequest, ended, Bind.bind, Except.bind]
  | output => simp [step, processOutput, ended, Bind.bind, Except.bind]

/-- The consumer's turn takes what waits. -/
theorem Frontend.step_get (holds : f.collector.Holds pending) :
    f.step decodeNext .get = .ok ({ f with collector := { f.collector with output := none } },
      pending.toList.map (·.receive f.processor)) := by
  cases holds with
  | empty vacant => simp [step, RequestOutputCollector.getNowait, vacant]
  | one waiting outputs => simp [step, RequestOutputCollector.getNowait, waiting, outputs]

/-- A transcript that has ended stays as it is. -/
theorem Transcript.feed_ended (ended : t.live = false) (event : StreamEvent E) :
    t.feed decodeNext event = t := by
  cases event <;> simp [feed, ended]

/-- The rule of invariants of a run: inputs of a live request emit an output, and the consumer takes it. -/
theorem Frontend.run_induct {I : Transcript D E → Frontend D E → List (Received E) → Prop}
    (events : List (StreamEvent E)) (got : List (Received E))
    (feed : ∀ event ∈ events, event.isGet = false → ∀ t f got, t.live = true → I t f got →
      ∃ f', f.step decodeNext event = .ok (f', []) ∧ I (t.feed decodeNext event) f' got)
    (take : .get ∈ events → ∀ t f got, I t f got →
      ∃ f' new, f.step decodeNext .get = .ok (f', new) ∧ I t f' (got ++ new))
    (ended : ∀ t f got, I t f got → t.live = false → f.request = none) (holds : I t f got) :
    ∃ f' new, f.run decodeNext events = .ok (f', new) ∧
      I (t.after decodeNext events) f' (got ++ new) := by
  induction events generalizing t f got with
  | nil => exact ⟨f, [], rfl, by rw [append_nil]; exact holds⟩
  | cons event rest ih =>
    -- One event keeps the invariant, and the rest of the run starts from there.
    obtain ⟨f₁, first, stepped, holds₁⟩ : ∃ f₁ first, f.step decodeNext event = .ok (f₁, first) ∧
        I (t.feed decodeNext event) f₁ (got ++ first) := by
      cases kind : event.isGet with
      | true =>
        cases event with
        | output => cases kind
        | abort => cases kind
        | get => exact take (by simp) t f got holds
      | false =>
        cases live : t.live with
        | true =>
          obtain ⟨f', stepped, holds'⟩ := feed event (by simp) kind t f got live holds
          exact ⟨f', [], stepped, by rw [append_nil]; exact holds'⟩
        | false =>
          refine ⟨f, [], Frontend.step_ended (ended t f got holds live) kind, ?_⟩
          rw [Transcript.feed_ended live, append_nil]
          exact holds
    obtain ⟨f', later, ran, holds'⟩ := ih _ (fun e member => feed e (mem_cons_of_mem _ member))
      (fun member => take (mem_cons_of_mem _ member)) holds₁
    refine ⟨f', first ++ later, ?_, by rw [← append_assoc]; exact holds'⟩
    simp only [run, stepped, ran, Bind.bind, Except.bind]

variable (decodeNext) in
/-- The rule of invariants of a reader's run: outputs are delivered, and the consumer takes them. -/
theorem InStep.run
    {J : Transcript D E → Option (List E) → Option (CompletionOutput E) → List (Received E) → Prop}
    (events : List (StreamEvent E)) (got : List (Received E))
    (deliver : ∀ t t' pending l l' x chunk new got, J t l pending got →
      Delivered delta t t' pending l l' x chunk new → J t' l' (some x) got)
    (take : .get ∈ events → ∀ (t : Transcript D E) (p : LogprobsProcessor E) pending got,
      J t p.logprobs pending got → J t p.logprobs none (got ++ pending.toList.map (·.receive p)))
    (aligned : ∀ o, .output o ∈ events → o.Aligned params)
    (inStep : InStep delta params t f pending) (holds : J t f.processor.logprobs pending got) :
    ∃ f' new, f.run decodeNext events = .ok (f', new) ∧ ∃ pending',
      InStep delta params (t.after decodeNext events) f' pending' ∧
      J (t.after decodeNext events) f'.processor.logprobs pending' (got ++ new) := by
  refine Frontend.run_induct (I := fun t f got => ∃ pending, InStep delta params t f pending ∧
    J t f.processor.logprobs pending got) events got ?_ ?_ ?_ ⟨pending, inStep, holds⟩
  · rintro event member input t f got live ⟨pending, inStep, holds⟩
    obtain ⟨f', x, chunk, new, stepped, inStep', delivered⟩ :=
      inStep.feed decodeNext live input (fun o eq => aligned o (eq ▸ member))
    exact ⟨f', stepped, some x, inStep', deliver _ _ _ _ _ _ _ _ _ holds delivered⟩
  · rintro member t f got ⟨pending, inStep, holds⟩
    exact ⟨_, _, Frontend.step_get inStep.holds, none,
      { inStep with holds := .empty rfl, agree := by rintro _ ⟨⟩ },
      take member t f.processor pending got holds⟩
  · rintro t f got ⟨pending, inStep, -⟩ ended
    obtain ⟨n, request⟩ := inStep.request
    rw [request, ended]
    rfl

end

end Mimir
