import Mimir.Python.Seq
import Mimir.Request.Types

/-! Incremental detokenization: the text so far, its stop strings, and what is held back for them. -/

namespace Mimir

open Python List

/-- Whether a client gets the whole output each time, the new part, or only the last output. -/
inductive RequestOutputKind where
  | cumulative
  | delta
  | finalOnly
  deriving DecidableEq, Repr

/-- The sampling parameters the frontend reads. -/
structure OutputParams where
  stop : List (List Char) := []
  minTokens : Nat := 0
  includeStopStrInOutput : Bool := false
  /-- Whether `logprobs` is set. -/
  logprobs : Bool := false
  /-- Whether `prompt_logprobs` is set. -/
  promptLogprobs : Bool := false

/-- `SamplingParams._verify_args` refuses empty stop strings. -/
def OutputParams.Verified (params : OutputParams) : Prop := ∀ text ∈ params.stop, text ≠ []

/-- The loop of `check_stop_strings` over the stop strings. -/
def firstStop (outputText : List Char) (newCharCount : Nat) (includeInOutput : Bool) :
    List (List Char) → Option (List Char × Option Nat)
  | [] => none
  | stopStr :: rest =>
    match pyFind outputText stopStr (1 - newCharCount - stopStr.length) with
    | none => firstStop outputText newCharCount includeInOutput rest
    | some stopIndex =>
      if includeInOutput then
        if stopIndex + stopStr.length ≥ outputText.length then some (stopStr, none)
        else some (stopStr, some (stopIndex + stopStr.length))
      else some (stopStr, some stopIndex)

/-- `check_stop_strings`: a stop string in the new text, and the length to cut the text to, if any. -/
def checkStopStrings (outputText : List Char) (newCharCount : Nat) (stop : List (List Char))
    (includeInOutput : Bool) : Option (List Char × Option Nat) :=
  if newCharCount = 0 then none else firstStop outputText newCharCount includeInOutput stop

/-- `BaseIncrementalDetokenizer`, over the state `D` of its tokenizer's decoder. -/
structure BaseIncrementalDetokenizer (D : Type) where
  stop : List (List Char)
  minTokens : Nat
  includeStopStrInOutput : Bool
  stopBufferLength : Nat
  lastOutputTextOffset : Nat
  outputText : List Char
  tokenIds : List TokenId
  decoder : D

namespace BaseIncrementalDetokenizer

variable {D : Type}

/-- `BaseIncrementalDetokenizer.__init__`. -/
def init (params : OutputParams) (decoder : D) : BaseIncrementalDetokenizer D where
  stop := params.stop
  minTokens := params.minTokens
  includeStopStrInOutput := params.includeStopStrInOutput
  -- Characters are held back only while a stop string may still have to be cut off.
  stopBufferLength :=
    if params.stop ≠ [] ∧ params.includeStopStrInOutput = false then
      (params.stop.map List.length).foldr max 0 - 1
    else 0
  lastOutputTextOffset := 0
  outputText := []
  tokenIds := []
  decoder := decoder

variable (decodeNext : D → TokenId → List Char × D) (d : BaseIncrementalDetokenizer D)

/-- One turn of the detokenization loop: the token and its text are appended. -/
def push (token : TokenId) : BaseIncrementalDetokenizer D :=
  { d with
    tokenIds := d.tokenIds ++ [token]
    outputText := d.outputText ++ (decodeNext d.decoder token).1
    decoder := (decodeNext d.decoder token).2 }

/-- The detokenization loop; the search for stop strings starts where `min_tokens` was reached. -/
def detokenize (d : BaseIncrementalDetokenizer D) (stopCheckOffset : Nat) :
    List TokenId → BaseIncrementalDetokenizer D × Nat
  | [] => (d, stopCheckOffset)
  | token :: rest =>
    let d := d.push decodeNext token
    detokenize d
      (if d.minTokens ≠ 0 ∧ d.tokenIds.length ≤ d.minTokens then d.outputText.length
       else stopCheckOffset) rest

/-- The stop string check at the end of `update`, which may cut the text. -/
def evaluateStop (stopCheckOffset : Nat) :
    Option (List Char) × BaseIncrementalDetokenizer D :=
  if d.stop ≠ [] ∧ d.tokenIds.length > d.minTokens then
    match checkStopStrings d.outputText (d.outputText.length - stopCheckOffset) d.stop
        d.includeStopStrInOutput with
    | none => (none, d)
    | some (stopString, none) => (some stopString, d)
    | some (stopString, some truncateTo) =>
      (some stopString, { d with outputText := d.outputText.take truncateTo })
  else (none, d)

/-- `token_ids.append` without detokenizing. -/
def appendIds (ids : List TokenId) : BaseIncrementalDetokenizer D :=
  { d with tokenIds := d.tokenIds ++ ids }

/-- `update`: the stop string that was matched, and the new state. -/
def update (newTokenIds : List TokenId) (stopTerminated : Bool) :
    Option (List Char) × BaseIncrementalDetokenizer D :=
  match newTokenIds.getLast? with
  | none => (none, d)
  | some last =>
    if stopTerminated = true ∧ d.includeStopStrInOutput = false then
      -- The stop token is kept among the ids but its text is not.
      let (d', offset) := d.detokenize decodeNext d.outputText.length newTokenIds.dropLast
      (d'.appendIds [last]).evaluateStop offset
    else
      let (d', offset) := d.detokenize decodeNext d.outputText.length newTokenIds
      d'.evaluateStop offset

/-- `get_next_output_text`. -/
def getNextOutputText (finished delta : Bool) :
    List Char × BaseIncrementalDetokenizer D :=
  let bufferLength := if finished then 0 else d.stopBufferLength
  if delta = false then
    (if bufferLength ≠ 0 then d.outputText.take (d.outputText.length - bufferLength)
      else d.outputText, d)
  else
    -- A text shorter than the buffer has a negative length in the source; nothing is returned then.
    let length := d.outputText.length - bufferLength
    if d.lastOutputTextOffset < length then
      ((d.outputText.take length).drop d.lastOutputTextOffset,
        { d with lastOutputTextOffset := length })
    else ([], d)

end BaseIncrementalDetokenizer

/-- The detokenizer of a request: without a tokenizer only token ids are collected. -/
inductive IncrementalDetokenizer (D : Type) where
  | skipping (tokenIds : List TokenId)
  | base (d : BaseIncrementalDetokenizer D)

namespace IncrementalDetokenizer

variable {D : Type}

/-- `from_new_request`, given the decoder of the tokenizer, if there is one. -/
def fromNewRequest (params : OutputParams) : Option D → IncrementalDetokenizer D
  | none => .skipping []
  | some decoder => .base (.init params decoder)

/-- `output_token_ids`. -/
def outputTokenIds : IncrementalDetokenizer D → List TokenId
  | .skipping tokenIds => tokenIds
  | .base d => d.tokenIds

/-- `update`. -/
def update (decodeNext : D → TokenId → List Char × D) (newTokenIds : List TokenId)
    (stopTerminated : Bool) : IncrementalDetokenizer D → Option (List Char) × IncrementalDetokenizer D
  | .skipping tokenIds => (none, .skipping (tokenIds ++ newTokenIds))
  | .base d => Prod.map id .base (d.update decodeNext newTokenIds stopTerminated)

/-- `get_next_output_text`. -/
def getNextOutputText (finished delta : Bool) :
    IncrementalDetokenizer D → List Char × IncrementalDetokenizer D
  | .skipping tokenIds => ([], .skipping tokenIds)
  | .base d => Prod.map id .base (d.getNextOutputText finished delta)

end IncrementalDetokenizer

/-! What `update` keeps: the ids are appended, and delivered text is never cut. -/

namespace BaseIncrementalDetokenizer

variable {D : Type} {decodeNext : D → TokenId → List Char × D} {d : BaseIncrementalDetokenizer D}

/-- The stop strings are not empty, and the buffer holds any of them but for its last character. -/
structure Buffered (d : BaseIncrementalDetokenizer D) : Prop where
  nonempty : ∀ text ∈ d.stop, text ≠ []
  covers : d.includeStopStrInOutput = false → ∀ text ∈ d.stop, text.length ≤ d.stopBufferLength + 1
  included : d.includeStopStrInOutput = true → d.stopBufferLength = 0

/-- The buffer of a new detokenizer is long enough. -/
theorem Buffered.init {params : OutputParams} (verified : params.Verified) (decoder : D) :
    (BaseIncrementalDetokenizer.init params decoder).Buffered where
  nonempty := verified
  covers := by
    intro excluded text member
    have some : params.stop ≠ [] := ne_nil_of_mem member
    have longest : text.length ≤ (params.stop.map List.length).foldr max 0 := by
      have member : text ∈ params.stop := member
      generalize params.stop = stops at member
      clear some
      induction stops with
      | nil => cases member
      | cons first rest ih =>
        simp only [map_cons, foldr_cons]
        rcases mem_cons.mp member with eq | later
        · subst eq; exact le_max_left ..
        · exact le_trans (ih later) (le_max_right ..)
    have excluded : params.includeStopStrInOutput = false := excluded
    simp only [BaseIncrementalDetokenizer.init, some, excluded, ne_eq, not_false_eq_true, and_self,
      ↓reduceIte]
    omega
  included := by
    intro included
    have included : params.includeStopStrInOutput = true := included
    simp [BaseIncrementalDetokenizer.init, included]

/-- Two states that differ at most in their texts, ids, decoder and delivered length. -/
def SameSettings (d d' : BaseIncrementalDetokenizer D) : Prop :=
  d'.stop = d.stop ∧ d'.minTokens = d.minTokens ∧
    d'.includeStopStrInOutput = d.includeStopStrInOutput ∧
    d'.stopBufferLength = d.stopBufferLength ∧ d'.lastOutputTextOffset = d.lastOutputTextOffset

/-- The buffer covers the stop strings as long as the settings stay. -/
theorem Buffered.same {d' : BaseIncrementalDetokenizer D} (buffered : d.Buffered)
    (same : d.SameSettings d') : d'.Buffered := by
  obtain ⟨stop, -, included, buffer, -⟩ := same
  exact ⟨by rw [stop]; exact buffered.nonempty,
    by rw [stop, included, buffer]; exact buffered.covers,
    by rw [included, buffer]; exact buffered.included⟩

/-- The loop appends ids and text, and moves the offset only forward. -/
theorem detokenize_spec (decodeNext : D → TokenId → List Char × D)
    (d : BaseIncrementalDetokenizer D) (tokens : List TokenId) {offset : Nat}
    (inside : offset ≤ d.outputText.length) :
    d.SameSettings (d.detokenize decodeNext offset tokens).1 ∧
      (d.detokenize decodeNext offset tokens).1.tokenIds = d.tokenIds ++ tokens ∧
      d.outputText <+: (d.detokenize decodeNext offset tokens).1.outputText ∧
      offset ≤ (d.detokenize decodeNext offset tokens).2 ∧
      (d.detokenize decodeNext offset tokens).2 ≤
        (d.detokenize decodeNext offset tokens).1.outputText.length := by
  induction tokens generalizing d offset with
  | nil => exact ⟨⟨rfl, rfl, rfl, rfl, rfl⟩, by simp [detokenize], prefix_rfl, le_rfl, inside⟩
  | cons token rest ih =>
    have grown : d.outputText <+: (d.push decodeNext token).outputText := prefix_append ..
    have longer := grown.length_le
    -- The offset handed to the next turn is the old one or the end of the text.
    obtain ⟨next, eq, forward, bounded⟩ : ∃ next, d.detokenize decodeNext offset (token :: rest) =
        (d.push decodeNext token).detokenize decodeNext next rest ∧ offset ≤ next ∧
          next ≤ (d.push decodeNext token).outputText.length := by
      refine ⟨_, rfl, ?_, ?_⟩ <;> split <;> omega
    obtain ⟨same, ids, text, later, inside⟩ := ih (d.push decodeNext token) bounded
    rw [eq]
    exact ⟨same, by rw [ids]; simp [push], grown.trans text, forward.trans later, inside⟩

/-- A stop string found cuts nothing that was there before the searched part, but for the buffer. -/
theorem firstStop_keeps {text : List Char} {count cut : Nat} {included : Bool}
    {stops : List (List Char)} {found : List Char} (positive : 0 < count)
    (inside : count ≤ text.length) (nonempty : ∀ s ∈ stops, s ≠ [])
    (eq : firstStop text count included stops = some (found, some cut)) :
    found ∈ stops ∧ (included = true → text.length - count < cut) ∧
      (included = false → text.length - count < cut + found.length) := by
  induction stops with
  | nil => cases eq
  | cons first rest ih =>
    have positiveLength : 0 < first.length := length_pos_iff.mpr (nonempty _ (by simp))
    unfold firstStop at eq
    split at eq
    · obtain ⟨member, facts⟩ := ih (fun s member => nonempty s (by simp [member])) eq
      exact ⟨by simp [member], facts⟩
    · rename_i index search
      obtain ⟨behind, -⟩ := pyFind_bounds search
      -- The search starts where the longest overlap with old text could start.
      have start : text.length - count < index + first.length := by
        unfold sliceIndex at behind
        rw [if_pos (by omega)] at behind
        omega
      split at eq
      · rename_i isIncluded
        split at eq
        · cases eq
        · cases eq
          exact ⟨by simp, fun _ => start, fun no => absurd (no.symm.trans isIncluded) (by simp)⟩
      · rename_i excluded
        cases eq
        exact ⟨by simp, fun yes => absurd yes excluded, fun _ => start⟩

/-- The stop check keeps ids and settings; it cuts only text that could not have been delivered. -/
theorem evaluateStop_spec (buffered : d.Buffered) (offset : Nat) :
    d.SameSettings (d.evaluateStop offset).2 ∧ (d.evaluateStop offset).2.tokenIds = d.tokenIds ∧
      ((d.evaluateStop offset).2.outputText = d.outputText ∨
        (∃ stopString ∈ d.stop, (d.evaluateStop offset).1 = some stopString) ∧
        d.outputText.take (offset - d.stopBufferLength) <+: (d.evaluateStop offset).2.outputText) := by
  unfold evaluateStop
  split
  · split
    · exact ⟨⟨rfl, rfl, rfl, rfl, rfl⟩, rfl, .inl rfl⟩
    · exact ⟨⟨rfl, rfl, rfl, rfl, rfl⟩, rfl, .inl rfl⟩
    · rename_i stopString cut check
      refine ⟨⟨rfl, rfl, rfl, rfl, rfl⟩, rfl, .inr ?_⟩
      unfold checkStopStrings at check
      split at check
      · cases check
      · rename_i searched
        obtain ⟨member, included, excluded⟩ := firstStop_keeps (by omega) (by omega)
          buffered.nonempty check
        refine ⟨⟨stopString, member, rfl⟩, take_prefix_take_left ?_⟩
        cases kind : d.includeStopStrInOutput with
        | true =>
          have := included kind
          omega
        | false =>
          have := excluded kind
          have := buffered.covers kind stopString member
          omega
  · exact ⟨⟨rfl, rfl, rfl, rfl, rfl⟩, rfl, .inl rfl⟩

/-- An update runs the loop on a part of the ids, appends the others and checks the result. -/
theorem update_eq (decodeNext : D → TokenId → List Char × D) (d : BaseIncrementalDetokenizer D)
    {tokens : List TokenId} (some : tokens ≠ []) (stopped : Bool) : ∃ part extra, part ++ extra = tokens ∧
      d.update decodeNext tokens stopped =
        ((d.detokenize decodeNext d.outputText.length part).1.appendIds extra).evaluateStop
          (d.detokenize decodeNext d.outputText.length part).2 := by
  unfold update
  cases last : tokens.getLast? with
  | none => exact absurd (getLast?_eq_none_iff.mp last) some
  | some token =>
    dsimp only
    split
    · exact ⟨tokens.dropLast, [token], dropLast_append_getLast? token last, rfl⟩
    · exact ⟨tokens, [], append_nil _, by simp [appendIds]⟩

/-- What an update does to ids, settings and text. -/
structure Updated (d d' : BaseIncrementalDetokenizer D) (tokens : List TokenId)
    (stopString : Option (List Char)) : Prop where
  settings : d.SameSettings d'
  ids : d'.tokenIds = d.tokenIds ++ tokens
  /-- Only characters in the buffer can be cut. -/
  text : d.outputText.take (d.outputText.length - d.stopBufferLength) <+: d'.outputText
  /-- Without a match nothing is cut. -/
  unmatched : stopString.filter (· ≠ []) = none → d.outputText <+: d'.outputText

/-- An update appends its ids; it keeps the text but for the buffer, and all of it without a match. -/
theorem update_spec (buffered : d.Buffered) (tokens : List TokenId) (stopped : Bool) :
    d.Updated (d.update decodeNext tokens stopped).2 tokens
      (d.update decodeNext tokens stopped).1 := by
  by_cases none : tokens = []
  · subst none
    exact ⟨⟨rfl, rfl, rfl, rfl, rfl⟩, (append_nil _).symm, take_prefix .., fun _ => prefix_rfl⟩
  obtain ⟨part, extra, whole, eq⟩ := update_eq decodeNext d none stopped
  rw [eq]
  obtain ⟨same, ids, text, forward, inside⟩ :=
    detokenize_spec decodeNext d part (le_refl d.outputText.length)
  generalize (d.detokenize decodeNext d.outputText.length part).2 = offset at *
  generalize (d.detokenize decodeNext d.outputText.length part).1 = looped at *
  have same : d.SameSettings (looped.appendIds extra) := same
  have allIds : (looped.appendIds extra).tokenIds = d.tokenIds ++ tokens := by
    simp [appendIds, ids, ← whole]
  have text : d.outputText <+: (looped.appendIds extra).outputText := text
  generalize looped.appendIds extra = checked at *
  obtain ⟨kept, keptIds, cut⟩ := evaluateStop_spec (buffered.same same) offset
  refine ⟨⟨kept.1.trans same.1, kept.2.1.trans same.2.1, kept.2.2.1.trans same.2.2.1,
    kept.2.2.2.1.trans same.2.2.2.1, kept.2.2.2.2.trans same.2.2.2.2⟩, keptIds.trans allIds, ?_, ?_⟩
  · rcases cut with eq | ⟨-, cutTo⟩
    · rw [eq]
      exact (List.take_prefix ..).trans text
    · -- The cut lies behind the part of the old text that is not held back.
      refine List.IsPrefix.trans ?_ cutTo
      obtain ⟨tail, eq⟩ := text
      have old : (d.outputText ++ tail).take (d.outputText.length - d.stopBufferLength) =
          d.outputText.take (d.outputText.length - d.stopBufferLength) :=
        take_append_of_le_length (by omega)
      rw [same.2.2.2.1, ← eq, ← old]
      exact take_prefix_take_left (by omega)
  · intro unmatched
    rcases cut with eq | ⟨⟨stopString, member, matched⟩, -⟩
    · rw [eq]
      exact text
    · have nonempty := (buffered.same same).nonempty stopString member
      rw [matched] at unmatched
      simp [nonempty] at unmatched

/-- The state with another delivered length. -/
def withOffset (d : BaseIncrementalDetokenizer D) (k : Nat) : BaseIncrementalDetokenizer D :=
  { d with lastOutputTextOffset := k }

/-- The loop does not look at the delivered length. -/
theorem detokenize_withOffset (decodeNext : D → TokenId → List Char × D)
    (d : BaseIncrementalDetokenizer D) (k offset : Nat) (tokens : List TokenId) :
    (d.withOffset k).detokenize decodeNext offset tokens =
      ((d.detokenize decodeNext offset tokens).1.withOffset k,
        (d.detokenize decodeNext offset tokens).2) := by
  induction tokens generalizing d offset with
  | nil => rfl
  | cons token rest ih => exact ih (d.push decodeNext token) _

/-- The stop check does not look at the delivered length. -/
theorem evaluateStop_withOffset (d : BaseIncrementalDetokenizer D) (k offset : Nat) :
    (d.withOffset k).evaluateStop offset =
      ((d.evaluateStop offset).1, (d.evaluateStop offset).2.withOffset k) := by
  by_cases checks : d.stop ≠ [] ∧ d.tokenIds.length > d.minTokens
  · simp only [evaluateStop, withOffset, checks, and_self, ne_eq, not_false_eq_true, ↓reduceIte]
    rcases checkStopStrings d.outputText (d.outputText.length - offset) d.stop
      d.includeStopStrInOutput with _ | ⟨stopString, _ | cut⟩ <;> rfl
  · simp only [evaluateStop, withOffset, checks, ↓reduceIte]

/-- An update does not look at the delivered length. -/
theorem update_withOffset (decodeNext : D → TokenId → List Char × D)
    (d : BaseIncrementalDetokenizer D) (k : Nat) (tokens : List TokenId) (stopped : Bool) :
    (d.withOffset k).update decodeNext tokens stopped =
      ((d.update decodeNext tokens stopped).1,
        (d.update decodeNext tokens stopped).2.withOffset k) := by
  have loop : ∀ part, (d.withOffset k).detokenize decodeNext (d.withOffset k).outputText.length part =
      ((d.detokenize decodeNext d.outputText.length part).1.withOffset k,
        (d.detokenize decodeNext d.outputText.length part).2) :=
    detokenize_withOffset decodeNext d k d.outputText.length
  unfold update
  cases tokens.getLast? with
  | none => rfl
  | some last =>
    by_cases skips : stopped = true ∧ d.includeStopStrInOutput = false
    · simp only [loop, if_pos skips, show (d.withOffset k).includeStopStrInOutput =
        d.includeStopStrInOutput from rfl]
      exact evaluateStop_withOffset (appendIds _ [last]) k _
    · simp only [loop, if_neg skips, show (d.withOffset k).includeStopStrInOutput =
        d.includeStopStrInOutput from rfl]
      exact evaluateStop_withOffset _ k _

end BaseIncrementalDetokenizer

end Mimir
