import Mimir.Output.Delivery

/-! Streamed deltas against the cumulative output of the same request. -/

namespace Mimir

open Python List

section

variable {D E : Type} {decodeNext : D → TokenId → List Char × D} {params : OutputParams}
  {t : Transcript D E} {f : Frontend D E} {pending : Option (CompletionOutput E)}

/-- The texts and ids of what was received and what waits. -/
def TextDelivered (t : Transcript D E) (pending : Option (CompletionOutput E))
    (got : List (Received E)) : Prop :=
  (got.map (·.text)).flatten ++ (pending.map (·.text)).getD [] = t.shown ∧
    (got.map (·.tokenIds)).flatten ++ (pending.map (·.tokenIds)).getD [] =
      t.detokenizer.outputTokenIds

variable {t' : Transcript D E} {l l' : Option (List E)} {x : CompletionOutput E} {chunk : List TokenId}
  {new : List E} {got : List (Received E)}

/-- An output delivers the text that can be seen now and could not before, and its own ids. -/
theorem TextDelivered.deliver
    (holds : TextDelivered t pending got) (delivered : Delivered true t t' pending l l' x chunk new) :
    TextDelivered t' (some x) got := by
  obtain ⟨text, ids⟩ := holds
  constructor
  · obtain ⟨tail, eq⟩ := delivered.grown
    rw [Option.map_some, Option.getD_some, delivered.text, cond_true, ← append_assoc, text, ← eq, drop_left]
  · rw [Option.map_some, Option.getD_some, delivered.tokens, cond_true, ← append_assoc, ids, delivered.ids]

/-- Taking what waits moves it to what was received. -/
theorem TextDelivered.take (holds : TextDelivered t pending got) (p : LogprobsProcessor E) :
    TextDelivered t none (got ++ pending.toList.map (·.receive p)) := by
  cases pending with
  | none => simpa [TextDelivered] using holds
  | some => simpa [TextDelivered, CompletionOutput.receive] using holds

/-- The logprobs received so far. -/
def receivedEntries (got : List (Received E)) : List E := (got.map (·.logprobs.getD [])).flatten

/-- The logprobs that wait. -/
def waitingEntries (l : Option (List E)) (pending : Option (CompletionOutput E)) : List E :=
  ((pending.bind (·.logprobs)).map (Entries.read (l.getD []))).getD []

/-- Taking what waits moves its logprobs to those received. -/
theorem receivedEntries_take (p : LogprobsProcessor E) (pending : Option (CompletionOutput E))
    (got : List (Received E)) :
    receivedEntries (got ++ pending.toList.map (·.receive p)) =
      receivedEntries got ++ waitingEntries p.logprobs pending := by
  cases pending with
  | none => simp [receivedEntries, waitingEntries]
  | some x =>
    cases list : x.logprobs <;>
      simp [receivedEntries, waitingEntries, CompletionOutput.receive, list, LogprobsProcessor.read]

/-- The last entries of a list, when there are any to take. -/
theorem pySlice_end {l : List E} (some : new ≠ []) :
    pySlice (l ++ new) (-(new.length : Int)) (l ++ new).length = new := by
  have positive := length_pos_iff.mpr some
  unfold pySlice sliceIndex
  rw [if_pos (by omega), if_neg (by omega)]
  have start : (-(new.length : Int) + ((l ++ new).length : Nat)).toNat = l.length := by
    simp only [length_append]
    omega
  rw [start, Int.toNat_natCast, take_length, drop_left]

/-- The last no entries of a list are all of it. -/
theorem pySlice_none (l : List E) : pySlice l (-((0 : Nat) : Int)) l.length = l := by
  unfold pySlice sliceIndex
  rw [if_neg (by omega), if_neg (by omega)]
  simp

/-- A streamed completion carries the new entries. -/
theorem freshEntries_new {l : List E} {count : Nat} (size : new.length = count)
    (positive : 0 < count) : freshEntries (l ++ new) count = .own new := by
  have some : new ≠ [] := length_pos_iff.mp (by omega)
  subst size
  unfold freshEntries
  rw [pySlice_end some, if_neg (by simp [some])]

/-- A streamed completion without new tokens carries every entry so far. -/
theorem freshEntries_none {l : List E} (some : l ≠ []) : freshEntries l 0 = .own l := by
  unfold freshEntries
  rw [pySlice_none l, if_neg (by simp [some])]

/-- With new tokens in every output, each entry is delivered once. -/
def EntriesDelivered (t : Transcript D E) (l : Option (List E))
    (pending : Option (CompletionOutput E)) (got : List (Received E)) : Prop :=
  (∀ chunk ∈ t.chunks, chunk ≠ []) → l.isSome →
    l = some t.entries ∧ (∀ x ∈ pending, ∃ entries, x.logprobs = some (.own entries)) ∧
      receivedEntries got ++ waitingEntries l pending = t.entries

/-- An output with new tokens delivers its own entries. -/
theorem EntriesDelivered.deliver
    (holds : EntriesDelivered t l pending got) (delivered : Delivered true t t' pending l l' x chunk new) :
    EntriesDelivered t' l' (some x) got := by
  intro nonempty on
  have chunks := delivered.chunks
  have joined := delivered.joined
  have positive : 0 < chunk.length :=
    length_pos_iff.mpr (nonempty chunk (by rw [chunks]; simp))
  cases l with
  | none =>
    generalize x.logprobs = entries at joined
    cases joined
    cases on
  | some list =>
    obtain ⟨listed, own, before⟩ := holds (fun c member => nonempty c (by rw [chunks]; simp [member])) rfl
    cases listed
    have fresh : freshEntries (t.entries ++ new) chunk.length = .own new :=
      freshEntries_new (delivered.count rfl) positive
    have some : new ≠ [] := length_pos_iff.mp (by rw [delivered.count rfl]; exact positive)
    rw [delivered.entries]
    generalize entries : x.logprobs = shared at joined
    cases joined with
    | first =>
      rw [fresh] at entries
      refine ⟨rfl, by rintro _ ⟨⟩; exact ⟨new, entries⟩, ?_⟩
      simpa [waitingEntries, entries] using before
    | nothing absent => rw [fresh] at absent; exact absurd absent some
    | shared list =>
      obtain ⟨entries, eq⟩ := own _ rfl
      rw [list] at eq
      cases eq
    | own list =>
      rw [fresh] at entries
      refine ⟨rfl, by rintro _ ⟨⟩; exact ⟨_, entries⟩, ?_⟩
      simp only [waitingEntries, list, Option.bind_some, Option.map_some, Option.getD_some,
        Entries.read_own] at before
      simp [waitingEntries, entries, ← before]

/-- Taking what waits moves its entries to those received. -/
theorem EntriesDelivered.take (p : LogprobsProcessor E)
    (holds : EntriesDelivered t p.logprobs pending got) :
    EntriesDelivered t p.logprobs none (got ++ pending.toList.map (·.receive p)) := by
  intro nonempty on
  obtain ⟨listed, -, before⟩ := holds nonempty on
  refine ⟨listed, by rintro _ ⟨⟩, ?_⟩
  rw [receivedEntries_take, before]
  exact append_nil _

/-- Without any new token there is no entry. -/
def NothingDelivered (t : Transcript D E) (l : Option (List E))
    (pending : Option (CompletionOutput E)) (got : List (Received E)) : Prop :=
  (∀ chunk ∈ t.chunks, chunk = []) → l.isSome →
    l = some [] ∧ t.entries = [] ∧ receivedEntries got = [] ∧ waitingEntries l pending = []

/-- An output without new tokens delivers nothing as long as there is no entry. -/
theorem NothingDelivered.deliver
    (holds : NothingDelivered t l pending got) (delivered : Delivered true t t' pending l l' x chunk new) :
    NothingDelivered t' l' (some x) got := by
  intro empty on
  have chunks := delivered.chunks
  have joined := delivered.joined
  obtain rfl : chunk = [] := empty chunk (by rw [chunks]; simp)
  cases l with
  | none =>
    generalize x.logprobs = entries at joined
    cases joined
    cases on
  | some list =>
    obtain ⟨listed, total, received, waits⟩ :=
      holds (fun c member => empty c (by rw [chunks]; simp [member])) rfl
    cases listed
    obtain rfl : new = [] := length_eq_zero_iff.mp (delivered.count rfl)
    rw [delivered.entries, total]
    generalize entries : x.logprobs = shared at joined
    cases joined with
    | first => exact ⟨rfl, rfl, received, by simp [waitingEntries, entries, freshEntries]⟩
    | nothing =>
      refine ⟨rfl, rfl, received, ?_⟩
      simpa [waitingEntries, entries] using waits
    | shared list present => exact absurd (by simp [freshEntries]) present
    | own list present => exact absurd (by simp [freshEntries]) present

/-- Nothing waits, so nothing is taken. -/
theorem NothingDelivered.take (p : LogprobsProcessor E)
    (holds : NothingDelivered t p.logprobs pending got) :
    NothingDelivered t p.logprobs none (got ++ pending.toList.map (·.receive p)) := by
  intro empty on
  obtain ⟨listed, total, received, waits⟩ := holds empty on
  exact ⟨listed, total, by rw [receivedEntries_take, received, waits]; rfl, rfl⟩

/-- What waits for a consumer that has taken nothing, against the number of entries there are. -/
inductive Hoarding (chunks : List (List TokenId)) (total : Nat) (l : List E) :
    Option (CompletionOutput E) → Prop
  | start (first : chunks = []) (empty : l = []) (zero : total = 0) : Hoarding chunks total l none
  /-- Outputs without tokens share the processor's list. -/
  | blank {x : CompletionOutput E} (blank : ∀ chunk ∈ chunks, chunk = []) (empty : l = [])
      (zero : total = 0) (list : x.logprobs = some .shared) : Hoarding chunks total l (some x)
  | exact {x : CompletionOutput E} {entries : List E} (full : ∀ chunk ∈ chunks, chunk ≠ [])
      (present : l ≠ []) (size : l.length = total) (list : x.logprobs = some (.own entries))
      (waits : entries.length = total) : Hoarding chunks total l (some x)
  /-- Some entry waits twice. -/
  | excess {x : CompletionOutput E} {entries : Entries E} (present : l ≠ [])
      (list : x.logprobs = some entries) (more : total < (entries.read l).length) :
      Hoarding chunks total l (some x)

/-- Joining entries to a list that waits makes it longer by them. -/
theorem Joined.grow {count : Nat} {l : List E}
    {waits : Option (Entries E)} {e : Entries E} (joined : Joined count true (some l) (some x) l' waits)
    (list : x.logprobs = some e) (some : (freshEntries l count).read l ≠ []) :
    ∃ l'' e', l' = .some l'' ∧ waits = .some e' ∧ l <+: l'' ∧
      (e'.read l'').length = (e.read l).length + ((freshEntries l count).read l).length ∧
      ∀ entries, e = .own entries →
        l'' = l ∧ e' = .own (entries ++ (freshEntries l count).read l) := by
  cases joined with
  | nothing absent => exact absurd absent some
  | shared isShared =>
    rw [list] at isShared
    cases isShared
    exact ⟨_, .shared, rfl, rfl, prefix_append .., by simp [Entries.read], by rintro _ ⟨⟩⟩
  | own isOwn =>
    rw [list] at isOwn
    cases isOwn
    exact ⟨l, _, rfl, rfl, prefix_rfl, by simp [Entries.read], by rintro _ ⟨⟩; exact ⟨rfl, rfl⟩⟩

/-- After outputs with and without tokens, too many entries wait, and that stays so. -/
theorem Hoarding.deliver {list : List E} (hoarding : Hoarding t.chunks t.entries.length list pending)
    (delivered : Delivered true t t' pending (some list) l' x chunk new) :
    ∃ list', l' = some list' ∧ Hoarding t'.chunks t'.entries.length list' (some x) := by
  have joined := delivered.joined
  have count : new.length = chunk.length := delivered.count rfl
  rw [delivered.chunks, delivered.entries, length_append]
  simp only [Option.map_some] at joined
  generalize entries : x.logprobs = waits at joined
  by_cases blank : chunk = []
  · subst blank
    obtain rfl : new = [] := length_eq_zero_iff.mp count
    rw [append_nil, length_nil] at joined
    simp only [length_nil, Nat.add_zero]
    cases hoarding with
    | start first empty zero =>
      subst empty
      cases joined with
      | first => exact ⟨_, rfl, .blank (by simp [first]) rfl zero (by simp [entries, freshEntries])⟩
    | blank blank empty zero shared =>
      subst empty
      have none : (freshEntries ([] : List E) 0).read [] = [] := rfl
      cases joined with
      | nothing =>
        exact ⟨_, rfl, .blank (by simpa [or_imp, forall_and] using blank) rfl zero (by rw [entries, shared])⟩
      | shared list present => exact absurd none present
      | own list present => exact absurd none present
    | exact full present size own =>
      -- All entries are sent again.
      have positive := length_pos_iff.mpr present
      have fresh := freshEntries_none present
      obtain ⟨l, e, eq, waiting, grown, longer, -⟩ := joined.grow own (by rw [fresh]; exact present)
      rw [fresh, Entries.read_own, Entries.read_own] at longer
      exact ⟨l, eq, .excess (grown.ne_nil present) (entries.trans waiting) (by omega)⟩
    | excess present kept =>
      have fresh := freshEntries_none present
      obtain ⟨l, e, eq, waiting, grown, longer, -⟩ := joined.grow kept (by rw [fresh]; exact present)
      exact ⟨l, eq, .excess (grown.ne_nil present) (entries.trans waiting) (by omega)⟩
  · have positive := length_pos_iff.mpr blank
    have some : new ≠ [] := length_pos_iff.mp (by omega)
    have fresh : freshEntries (list ++ new) chunk.length = .own new := freshEntries_new count positive
    have present : list ++ new ≠ [] := by simp [some]
    cases hoarding with
    | start first empty zero =>
      subst empty
      cases joined with
      | first =>
        rw [fresh] at entries
        exact ⟨_, rfl, .exact (by simpa [first] using blank) present (by simp [zero]) entries (by omega)⟩
    | blank blank empty zero shared =>
      -- The new entries reach the waiting list by being shared, and then once more.
      subst empty
      obtain ⟨l, e, eq, waiting, grown, longer, -⟩ := joined.grow shared (by rw [fresh]; exact some)
      rw [fresh] at longer
      simp only [nil_append, Entries.read_shared, Entries.read_own] at longer
      exact ⟨l, eq, .excess (grown.ne_nil present) (entries.trans waiting) (by omega)⟩
    | exact full nonempty size own waits =>
      obtain ⟨l, e, eq, waiting, -, -, same⟩ := joined.grow own (by rw [fresh]; exact some)
      obtain ⟨rfl, rfl⟩ := same _ rfl
      rw [fresh, Entries.read_own] at waiting
      refine ⟨_, eq, .exact ?_ present (by simp [size]) (entries.trans waiting) (by simp [waits])⟩
      intro c member
      rcases mem_append.mp member with old | last
      · exact full c old
      · rw [mem_singleton.mp last]
        exact blank
    | @excess waitingOutput kept nonempty isKept more =>
      obtain ⟨l, e, eq, waiting, grown, longer, -⟩ := joined.grow isKept (by rw [fresh]; exact some)
      rw [fresh, Entries.read_own] at longer
      have monotone : (kept.read list).length ≤ (kept.read (list ++ new)).length := by
        cases kept <;> simp
      exact ⟨l, eq, .excess (grown.ne_nil present) (entries.trans waiting) (by omega)⟩

/-- An output that shows the whole transcript. -/
structure Shows (params : OutputParams) (t : Transcript D E) (last : Received E) : Prop where
  text : last.text = t.shown
  ids : last.tokenIds = t.detokenizer.outputTokenIds
  logprobs : last.logprobs = if params.logprobs then some t.entries else none

/-- A completion that shares the processor's list shows all of it. -/
theorem CompletionOutput.receive_shared {p : LogprobsProcessor E}
    (shared : x.logprobs = p.logprobs.map fun _ => .shared) :
    (x.receive p).logprobs = p.logprobs := by
  cases list : p.logprobs <;> simp [receive, shared, list, LogprobsProcessor.read]

/-- What a cumulative reader has: the last output received, or the one that waits, shows the transcript. -/
structure WholeDelivered (params : OutputParams) (t : Transcript D E) (l : Option (List E))
    (pending : Option (CompletionOutput E)) (got : List (Received E)) : Prop where
  list : l = if params.logprobs then some t.entries else none
  shows : ∀ x ∈ pending, ∀ p : LogprobsProcessor E, p.logprobs = l → Shows params t (x.receive p)
  latest : t.chunks = [] ∨ pending.isSome ∨ ∃ last ∈ got.getLast?, Shows params t last

/-- After one more output, what waits shows the whole transcript. -/
theorem WholeDelivered.deliver (holds : WholeDelivered params t l pending got)
    (delivered : Delivered false t t' pending l l' x chunk new) :
    WholeDelivered params t' l' (some x) got := by
  obtain ⟨grown, shared⟩ : l' = l.map (· ++ new) ∧ x.logprobs = l'.map fun _ => .shared := by
    have joined := delivered.joined
    generalize x.logprobs = entries at joined
    cases joined
    exact ⟨rfl, rfl⟩
  have list : l' = if params.logprobs then some t'.entries else none := by
    rw [grown, holds.list, delivered.entries]
    cases params.logprobs <;> rfl
  refine ⟨list, ?_, .inr (.inl rfl)⟩
  rintro _ ⟨⟩ p same
  refine ⟨delivered.text, delivered.tokens, ?_⟩
  rw [CompletionOutput.receive_shared (same ▸ shared), same, list]

/-- What waited is the last output received now. -/
theorem WholeDelivered.take (p : LogprobsProcessor E)
    (holds : WholeDelivered params t p.logprobs pending got) :
    WholeDelivered params t p.logprobs none (got ++ pending.toList.map (·.receive p)) := by
  refine ⟨holds.list, by rintro _ ⟨⟩, ?_⟩
  cases pending with
  | none => simpa using holds.latest
  | some x => exact .inr (.inr ⟨_, by simp, holds.shows x rfl p rfl⟩)

/-- Without logprobs nothing is received of them. -/
def Silent (l : Option (List E)) (pending : Option (CompletionOutput E)) (got : List (Received E)) :
    Prop :=
  l = none → receivedEntries got = [] ∧ waitingEntries l pending = []

/-- An output carries no logprobs when they are off. -/
theorem Silent.deliver (holds : Silent l pending got)
    (delivered : Delivered true t t' pending l l' x chunk new) : Silent l' (some x) got := by
  intro off
  have joined := delivered.joined
  generalize entries : x.logprobs = waits at joined
  subst off
  cases l with
  | some => cases joined
  | none =>
    cases joined
    exact ⟨(holds rfl).1, by simp [waitingEntries, entries]⟩

/-- Taking an output without logprobs. -/
theorem Silent.take (p : LogprobsProcessor E) (holds : Silent p.logprobs pending got) :
    Silent p.logprobs none (got ++ pending.toList.map (·.receive p)) := by
  intro off
  obtain ⟨received, waits⟩ := holds off
  exact ⟨by rw [receivedEntries_take, received, waits]; rfl, rfl⟩

/-- A run followed by the consumer's turn. -/
theorem Frontend.run_get {f' f'' : Frontend D E} {front : List (StreamEvent E)}
    {new last : List (Received E)} (ran : f.run decodeNext front = .ok (f', new))
    (got : f'.step decodeNext .get = .ok (f'', last)) :
    f.run decodeNext (front ++ [.get]) = .ok (f'', new ++ last) := by
  induction front generalizing f new with
  | nil =>
    cases ran
    simp only [nil_append, run, got, Bind.bind, Except.bind, append_nil]
  | cons event rest ih =>
    obtain ⟨⟨f₁, first⟩, stepped, tail⟩ := bind_eq_ok.mp ran
    obtain ⟨⟨f₂, later⟩, rested, built⟩ := bind_eq_ok.mp tail
    cases built
    have whole := ih rested
    simp only [cons_append, run, stepped, whole, Bind.bind, Except.bind, append_assoc]

end

namespace Frontend

variable {D E : Type}

/-- The outputs the consumer of a request receives. -/
def received (decodeNext : D → TokenId → List Char × D) (params : OutputParams)
    (kind : RequestOutputKind) (decoder : Option D) (pace : List (StreamEvent E)) :
    Except Err (List (Received E)) := do
  let (_, got) ← (addRequest params kind decoder).run decodeNext pace
  .ok got

end Frontend

section

variable {D E : Type} (decodeNext : D → TokenId → List Char × D) {params : OutputParams}
  {decoder : Option D} {inputs pace : List (StreamEvent E)}

/-- The transcript of a sequence of inputs. -/
def transcript (params : OutputParams)
    (decoder : Option D) (inputs : List (StreamEvent E)) : Transcript D E :=
  (Transcript.start params decoder).after decodeNext inputs

/-- A new detokenizer has a long enough buffer. -/
theorem IncrementalDetokenizer.Buffered.fromNewRequest (verified : params.Verified)
    (decoder : Option D) : (IncrementalDetokenizer.fromNewRequest params decoder).Buffered := by
  cases decoder with
  | none => trivial
  | some decoder => exact BaseIncrementalDetokenizer.Buffered.init verified decoder

/-- Nothing can be seen of a new request. -/
theorem IncrementalDetokenizer.shown_fromNewRequest (params : OutputParams) (decoder : Option D) :
    (IncrementalDetokenizer.fromNewRequest params decoder).shown true = [] := by
  cases decoder <;> simp [fromNewRequest, shown, BaseIncrementalDetokenizer.init]

/-- A new request is in step with its transcript. -/
theorem InStep.start (delta : Bool) (verified : params.Verified) (decoder : Option D) :
    InStep delta params (Transcript.start params decoder) (E := E)
      (Frontend.addRequest params (readerKind delta) decoder) none := by
  have none : (Transcript.start params decoder : Transcript D E).shown = [] :=
    IncrementalDetokenizer.shown_fromNewRequest params decoder
  refine ⟨.fromNewRequest verified decoder, ⟨0, ?_⟩, by cases delta <;> rfl, .empty rfl, by rintro _ ⟨⟩,
    ?_, ?_⟩
  · rw [none]
    cases delta <;> cases decoder <;> rfl
  · show (if params.logprobs then some [] else Option.none).isSome = _
    cases params.logprobs <;> rfl
  · intro needed
    show (if params.promptLogprobs then some [Option.none] else Option.none).isSome
    rw [needed]
    rfl

/-- The rule of invariants for what a reader has received when it has taken the last output. -/
theorem received_induct (decoder : Option D) (delta : Bool) (verified : params.Verified)
    {J : Transcript D E → Option (List E) → Option (CompletionOutput E) → List (Received E) → Prop}
    (front : List (StreamEvent E))
    (deliver : ∀ t t' pending l l' x chunk new got, J t l pending got →
      Delivered delta t t' pending l l' x chunk new → J t' l' (some x) got)
    (take : .get ∈ front → ∀ (t : Transcript D E) (p : LogprobsProcessor E) pending got,
      J t p.logprobs pending got → J t p.logprobs none (got ++ pending.toList.map (·.receive p)))
    (aligned : ∀ o, .output o ∈ front → o.Aligned params)
    (start : J (.start params decoder) (if params.logprobs then some [] else none) none []) :
    ∃ (p : LogprobsProcessor E) (pending : Option (CompletionOutput E)) (got : List (Received E)),
      Frontend.received decodeNext params (readerKind delta) decoder (front ++ [.get]) =
        .ok (got ++ pending.toList.map (·.receive p)) ∧ p.logprobs.isSome = params.logprobs ∧
      J (transcript decodeNext params decoder front) p.logprobs pending got := by
  obtain ⟨f, new, ran, pending, inStep, holds⟩ := InStep.run decodeNext front [] deliver take
    aligned (.start delta verified decoder) start
  refine ⟨f.processor, pending, new, ?_, inStep.asked, holds⟩
  unfold Frontend.received
  rw [Frontend.run_get ran (Frontend.step_get inStep.holds)]
  rfl

/-- A pace is a run of events and a last turn of the consumer, over the transcript of the inputs. -/
theorem Paced.split (paced : Paced inputs pace) (decodeNext : D → TokenId → List Char × D)
    (params : OutputParams) (decoder : Option D) :
    ∃ front, pace = front ++ [.get] ∧ (∀ o, .output o ∈ front → .output o ∈ inputs) ∧
      transcript decodeNext params decoder inputs = transcript decodeNext params decoder front := by
  obtain ⟨filtered, last⟩ := paced
  have split := dropLast_append_getLast? _ last
  refine ⟨pace.dropLast, split.symm, ?_, ?_⟩
  · intro o member
    rw [← filtered, mem_filter]
    exact ⟨dropLast_subset _ member, rfl⟩
  · rw [transcript, transcript, ← filtered, Transcript.after_filter]
    nth_rewrite 1 [← split]
    simp only [Transcript.after, foldl_append]
    rfl

/-- An ended or aborted request has made at least one output. -/
theorem transcript_chunks (some : inputs ≠ []) (plain : ∀ event ∈ inputs, event.isGet = false) :
    (transcript decodeNext params decoder inputs).chunks ≠ [] := by
  cases inputs with
  | nil => exact absurd rfl some
  | cons event rest =>
    have grows : ∀ (events : List (StreamEvent E)) (t : Transcript D E),
        t.chunks <+: (t.after decodeNext events).chunks := by
      intro events
      induction events with
      | nil => exact fun _ => prefix_rfl
      | cons e es ih => exact fun t => (t.chunks_prefix e).trans (ih _)
    refine (grows rest _).ne_nil ?_
    cases event with
    | get => cases plain .get (by simp)
    | abort => simp [Transcript.feed, Transcript.start]
    | output => simp [Transcript.feed, Transcript.start]

/-- What a streaming consumer has received at the end. -/
theorem received_delta (decoder : Option D)
    (verified : params.Verified) (aligned : ∀ o, .output o ∈ inputs → o.Aligned params)
    (paced : Paced inputs pace) :
    ∃ got l, Frontend.received decodeNext params .delta decoder pace = .ok got ∧
      l.isSome = params.logprobs ∧
      TextDelivered (transcript decodeNext params decoder inputs) none got ∧ Silent l none got ∧
      EntriesDelivered (transcript decodeNext params decoder inputs) l none got ∧
      NothingDelivered (transcript decodeNext params decoder inputs) l none got := by
  obtain ⟨front, rfl, among, same⟩ := paced.split decodeNext params decoder
  have listed : (if params.logprobs then some ([] : List E) else none).isSome →
      (if params.logprobs then some ([] : List E) else none) = some [] := by
    cases params.logprobs <;> simp
  obtain ⟨p, pending, new, ran, asked, text, silent, entries, nothing⟩ :=
    received_induct decodeNext decoder true verified
    (J := fun t l pending got => TextDelivered t pending got ∧ Silent l pending got ∧
      EntriesDelivered t l pending got ∧ NothingDelivered t l pending got)
    front
    (fun _ _ _ _ _ _ _ _ _ ⟨text, silent, entries, nothing⟩ delivered =>
      ⟨text.deliver delivered, silent.deliver delivered, entries.deliver delivered,
        nothing.deliver delivered⟩)
    (fun _ _ p _ _ ⟨text, silent, entries, nothing⟩ =>
      ⟨text.take p, silent.take p, entries.take p, nothing.take p⟩)
    (fun o member => aligned o (among o member))
    ⟨⟨by simp [Transcript.shown, Transcript.start, IncrementalDetokenizer.shown_fromNewRequest],
        by cases decoder <;> rfl⟩, fun _ => ⟨rfl, rfl⟩,
      fun _ on => ⟨listed on, by rintro _ ⟨⟩, rfl⟩, fun _ on => ⟨listed on, rfl, rfl, rfl⟩⟩
  rw [← same] at text entries nothing
  exact ⟨_, p.logprobs, ran, asked, text.take p, silent.take p, entries.take p, nothing.take p⟩

/-- What a cumulative reader has received at the end. -/
theorem received_cumulative (decoder : Option D)
    (verified : params.Verified) (aligned : ∀ o, .output o ∈ inputs → o.Aligned params)
    (some : (transcript decodeNext params decoder inputs).chunks ≠ []) (paced : Paced inputs pace) :
    ∃ got, Frontend.received decodeNext params .cumulative decoder pace = .ok got ∧
      ∃ last ∈ got.getLast?, Shows params (transcript decodeNext params decoder inputs) last := by
  obtain ⟨front, rfl, among, same⟩ := paced.split decodeNext params decoder
  obtain ⟨p, pending, new, ran, -, whole⟩ :=
    received_induct decodeNext decoder false verified (J := WholeDelivered params)
    front (fun _ _ _ _ _ _ _ _ _ holds delivered => holds.deliver delivered)
    (fun _ _ p _ _ holds => holds.take p) (fun o member => aligned o (among o member))
    ⟨rfl, by rintro _ ⟨⟩, .inl rfl⟩
  rw [← same] at whole
  refine ⟨_, ran, ?_⟩
  rcases (whole.take p).latest with none | waits | latest
  · exact absurd none some
  · cases waits
  · exact latest

/-- A consumer that takes nothing until the end gets too many entries after a mix of outputs. -/
theorem received_hoarded (decoder : Option D)
    (verified : params.Verified) (aligned : ∀ o, .output o ∈ inputs → o.Aligned params)
    (plain : ∀ event ∈ inputs, event.isGet = false) (on : params.logprobs = true)
    (tokens : ∃ chunk ∈ (transcript decodeNext params decoder inputs).chunks, chunk ≠ [])
    (blank : [] ∈ (transcript decodeNext params decoder inputs).chunks) :
    ∃ got, Frontend.received decodeNext params .delta decoder (inputs ++ [.get]) = .ok got ∧
      (transcript decodeNext params decoder inputs).entries.length < (receivedEntries got).length := by
  obtain ⟨p, pending, new, ran, -, untaken, list, isList, hoarding⟩ :=
    received_induct decodeNext decoder true verified
    (J := fun t l pending got => got = [] ∧
      ∃ list, l = some list ∧ Hoarding t.chunks t.entries.length list pending)
    inputs
    (fun _ _ _ _ _ _ _ _ _ ⟨untaken, list, isList, hoarding⟩ delivered =>
      ⟨untaken, hoarding.deliver (isList ▸ delivered)⟩)
    (fun member => absurd (plain _ member) (by simp [StreamEvent.isGet]))
    aligned ⟨rfl, [], by rw [on]; rfl, .start rfl rfl rfl⟩
  subst untaken
  refine ⟨_, ran, ?_⟩
  · rw [receivedEntries_take]
    obtain ⟨chunk, member, nonempty⟩ := tokens
    cases hoarding with
    | start first => rw [first] at member; cases member
    | blank blanks => exact absurd (blanks chunk member) nonempty
    | exact full => exact absurd rfl (full [] blank)
    | excess present kept more =>
      simpa [receivedEntries, waitingEntries, kept, isList] using more

/-- A consumer's parts put together are what the last cumulative output shows. -/
def Reassembles {α : Type} (part : Received E → List α) (deltas cumulative : List (Received E)) :
    Prop :=
  ∃ last, cumulative.getLast? = some last ∧ (deltas.map part).flatten = part last

/-- Streamed texts and token ids always reassemble the cumulative output; streamed logprobs do
exactly when they are off, when every output brings new tokens, or when none does. -/
theorem deltas_reassemble (decodeNext : D → TokenId → List Char × D) (params : OutputParams)
    (decoder : Option D) (verified : params.Verified) (some : inputs ≠ [])
    (plain : ∀ event ∈ inputs, event.isGet = false)
    (aligned : ∀ o, .output o ∈ inputs → o.Aligned params) :
    (∀ pace pace', Paced inputs pace → Paced inputs pace' → ∃ deltas cumulative,
      Frontend.received decodeNext params .delta decoder pace = .ok deltas ∧
      Frontend.received decodeNext params .cumulative decoder pace' = .ok cumulative ∧
      Reassembles (·.text) deltas cumulative ∧ Reassembles (·.tokenIds) deltas cumulative) ∧
    ((∀ pace pace' deltas cumulative, Paced inputs pace → Paced inputs pace' →
      Frontend.received decodeNext params .delta decoder pace = .ok deltas →
      Frontend.received decodeNext params .cumulative decoder pace' = .ok cumulative →
      Reassembles (·.logprobs.getD []) deltas cumulative) ↔
      params.logprobs = false ∨
      (∀ chunk ∈ (transcript decodeNext params decoder inputs).chunks, chunk ≠ []) ∨
      ∀ chunk ∈ (transcript decodeNext params decoder inputs).chunks, chunk = []) := by
  have made : (transcript decodeNext params decoder inputs).chunks ≠ [] :=
    transcript_chunks decodeNext some plain
  have cumulated := fun pace (paced : Paced inputs pace) =>
    received_cumulative decodeNext decoder verified aligned made paced
  refine ⟨?_, ?_, ?_⟩
  · intro pace pace' paced paced'
    obtain ⟨deltas, l, streamed, -, ⟨text, ids⟩, -⟩ :=
      received_delta decodeNext decoder verified aligned paced
    obtain ⟨cumulative, read, last, isLast, shows⟩ := cumulated pace' paced'
    simp only [Option.map_none, Option.getD_none, append_nil] at text ids
    exact ⟨deltas, cumulative, streamed, read, ⟨last, isLast, text.trans shows.text.symm⟩,
      ⟨last, isLast, ids.trans shows.ids.symm⟩⟩
  · -- A consumer that waits to the end sees the difference.
    intro reassembles
    by_contra mixed
    simp only [not_or, Bool.not_eq_false] at mixed
    obtain ⟨on, blank, tokens⟩ := mixed
    push Not at blank tokens
    obtain ⟨chunk, member, rfl⟩ := blank
    have paced : Paced inputs (inputs ++ [.get]) := by
      refine ⟨?_, by simp⟩
      rw [filter_append, filter_eq_self.mpr (by simpa using plain)]
      simp [StreamEvent.isGet]
    obtain ⟨deltas, streamed, more⟩ :=
      received_hoarded decodeNext decoder verified aligned plain on tokens member
    obtain ⟨cumulative, read, last, isLast, shows⟩ := cumulated _ paced
    obtain ⟨last', isLast', same⟩ := reassembles _ _ deltas cumulative paced paced streamed read
    obtain rfl : last = last' := by simpa [isLast'] using isLast.symm
    have whole : receivedEntries deltas = (transcript decodeNext params decoder inputs).entries := by
      have same : receivedEntries deltas = last.logprobs.getD [] := same
      rw [same, shows.logprobs, on]
      rfl
    rw [whole] at more
    exact absurd more (lt_irrefl _)
  · intro condition pace pace' deltas cumulative paced paced' streamed read
    obtain ⟨deltas', l, streamed', asked, -, silent, entries, nothing⟩ :=
      received_delta decodeNext decoder verified aligned paced
    obtain ⟨cumulative', read', last, isLast, shows⟩ := cumulated pace' paced'
    rw [streamed] at streamed'
    rw [read] at read'
    cases streamed'
    cases read'
    refine ⟨last, isLast, ?_⟩
    show receivedEntries deltas = last.logprobs.getD []
    rw [shows.logprobs]
    cases on : params.logprobs with
    | false =>
      rw [on] at asked
      simpa using (silent (by simpa using asked)).1
    | true =>
      rw [on] at asked
      rcases condition with off | full | blank
      · rw [on] at off; cases off
      · simpa [waitingEntries] using (entries full asked).2.2
      · obtain ⟨-, total, received, -⟩ := nothing blank asked
        simp [total, received]

/-- Decoding one character a token, with nothing to remember. -/
def charDecoder (decoder : Unit) (token : TokenId) : List Char × Unit := ([Char.ofNat token], decoder)

/-- Three tokens in two outputs, the last ended by a stop token, with logprobs for each. -/
def stoppedStream : List (StreamEvent Nat) :=
  [.output { newTokenIds := [97, 98], newLogprobs := some [1, 2] },
    .output { newTokenIds := [99], newLogprobs := some [3], finishReason := some .stop }]

/-- With a stop token at the end of a stream every entry arrives once, at any pace. -/
theorem deltas_reassemble_stoppedStream :
    (transcript charDecoder { logprobs := true } (some ()) stoppedStream).chunks = [[97, 98], [99]] ∧
    ∀ pace pace' deltas cumulative, Paced stoppedStream pace → Paced stoppedStream pace' →
      Frontend.received charDecoder { logprobs := true } .delta (some ()) pace = .ok deltas →
      Frontend.received charDecoder { logprobs := true } .cumulative (some ()) pace' = .ok cumulative →
      Reassembles (·.logprobs.getD []) deltas cumulative :=
  ⟨rfl, (deltas_reassemble charDecoder { logprobs := true } (some ())
    (by simp [OutputParams.Verified]) (by simp [stoppedStream])
    (by simp [stoppedStream, StreamEvent.isGet])
    (by
      intro o member
      simp only [stoppedStream, mem_cons, StreamEvent.output.injEq, not_mem_nil, or_false] at member
      rcases member with rfl | rfl <;> exact ⟨rfl, by simp⟩)).2.mpr
    (.inr (.inl (by decide)))⟩

/-- One token, and an abort after the consumer has taken it. -/
def abortedStream : List (StreamEvent Nat) :=
  [.output { newTokenIds := [97], newLogprobs := some [1] }, .get, .abort, .get]

/-- The output of an abort repeats every logprobs entry streamed before. -/
theorem abortedStream_logprobs_repeated : ∃ deltas cumulative,
    Frontend.received charDecoder { logprobs := true } .delta (some ()) abortedStream = .ok deltas ∧
    Frontend.received charDecoder { logprobs := true } .cumulative (some ()) abortedStream =
      .ok cumulative ∧
    deltas.map (·.logprobs) = [some [1], some [1]] ∧
    cumulative.getLast?.map (·.logprobs) = some (some [1]) ∧
    ¬ Reassembles (·.logprobs.getD []) deltas cumulative := by
  refine ⟨[⟨['a'], [97], some [1], none, none⟩, ⟨[], [], some [1], some .abort, none⟩],
    [⟨['a'], [97], some [1], none, none⟩, ⟨['a'], [97], some [1], some .abort, none⟩],
    rfl, rfl, rfl, rfl, ?_⟩
  simp [Reassembles]

end

end Mimir
