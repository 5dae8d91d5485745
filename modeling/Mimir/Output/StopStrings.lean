import Mathlib.Data.List.Infix
import Mimir.Output.Detokenizer

/-! Stop strings against the grouping of the tokens into updates: which string ends the text. -/

namespace Mimir

open Python List

section Search

variable {α : Type} [DecidableEq α] {sub text : List α}

/-- The first position found is the first one at which `sub` stands. -/
theorem findFrom_spec (sub text : List α) (pos : Nat) :
    (findFrom sub text pos = none ∧ ∀ i, ¬ sub <+: text.drop i) ∨
      ∃ i, findFrom sub text pos = some (pos + i) ∧ sub <+: text.drop i ∧
        ∀ j, sub <+: text.drop j → i ≤ j := by
  induction text generalizing pos with
  | nil =>
    by_cases empty : sub = []
    · exact .inr ⟨0, by simp [findFrom, empty], by simp [empty], fun _ _ => Nat.zero_le _⟩
    · exact .inl ⟨by simp [findFrom, empty], by simp [empty]⟩
  | cons x xs ih =>
    unfold findFrom
    by_cases here : sub <+: x :: xs
    · exact .inr ⟨0, by simp [here], by simpa using here, fun _ _ => Nat.zero_le _⟩
    · rw [if_neg (by simpa using here)]
      rcases ih (pos + 1) with ⟨missing, nowhere⟩ | ⟨i, found, stands, first⟩
      · refine .inl ⟨missing, fun i => ?_⟩
        cases i with
        | zero => simpa using here
        | succ i => simpa using nowhere i
      · refine .inr ⟨i + 1, by rw [found]; congr 1; omega, by simpa using stands, fun j also => ?_⟩
        cases j with
        | zero => exact absurd (by simpa using also) here
        | succ j => exact Nat.succ_le_succ (first j (by simpa using also))

/-- The search of `check_stop_strings` finds the first occurrence that ends in the new characters. -/
theorem pyFind_new {count : Nat} (nonempty : sub ≠ []) (positive : 0 < count)
    (inside : count ≤ text.length) :
    (pyFind text sub (1 - count - sub.length) = none ∧
      ∀ i, sub <+: text.drop i → i + sub.length ≤ text.length - count) ∨
    ∃ i, pyFind text sub (1 - count - sub.length) = some i ∧ sub <+: text.drop i ∧
      text.length - count < i + sub.length ∧
      ∀ j, sub <+: text.drop j → text.length - count < j + sub.length → i ≤ j := by
  have some := length_pos_iff.mpr nonempty
  have start : sliceIndex text.length (1 - count - sub.length) = text.length - count + 1 - sub.length := by
    unfold sliceIndex
    rw [if_pos (by omega)]
    omega
  unfold pyFind
  rw [start, if_neg (by omega)]
  generalize begins : text.length - count + 1 - sub.length = first
  rcases findFrom_spec sub (text.drop first) first with ⟨missing, nowhere⟩ | ⟨i, found, stands, least⟩
  · refine .inl ⟨missing, fun i stands => not_lt.mp fun ends => nowhere (i - first) ?_⟩
    rwa [drop_drop, Nat.add_sub_cancel' (by omega)]
  · rw [drop_drop] at stands
    refine .inr ⟨first + i, found, stands, by omega, fun j also ends => ?_⟩
    have := least (j - first) (by rwa [drop_drop, Nat.add_sub_cancel' (by omega)])
    omega

omit [DecidableEq α] in
/-- An occurrence that ends inside a shorter text is there already. -/
theorem occurs_shorter {short : List α} {i : Nat} (grown : short <+: text) (occurs : sub <+: text.drop i)
    (ends : i + sub.length ≤ short.length) : sub <+: short.drop i := by
  refine prefix_of_prefix_length_le occurs (grown.drop i) ?_
  rw [length_drop]
  omega

omit [DecidableEq α] in
/-- A list is cut in one way before the first member that has a property. -/
theorem split_unique {P : α → Prop} {x x' : α} {after after' : List α} : ∀ {before before' : List α},
    before ++ x :: after = before' ++ x' :: after' → (∀ y ∈ before, ¬ P y) → (∀ y ∈ before', ¬ P y) →
    P x → P x' → before = before' ∧ x = x'
  | [], [], eq, _, _, _, _ => ⟨rfl, (List.cons.inj eq).1⟩
  | [], _ :: _, eq, _, nots', holds, _ => absurd ((List.cons.inj eq).1 ▸ holds) (nots' _ (by simp))
  | _ :: _, [], eq, nots, _, _, holds' =>
    absurd ((List.cons.inj eq).1 ▸ holds') (nots _ (by simp))
  | _ :: before, _ :: before', eq, nots, nots', holds, holds' => by
    obtain ⟨same, rest⟩ := List.cons.inj eq
    obtain ⟨rfl, rfl⟩ := split_unique rest (fun y member => nots y (by simp [member]))
      (fun y member => nots' y (by simp [member])) holds holds'
    exact ⟨by rw [same], rfl⟩

end Search

namespace BaseIncrementalDetokenizer

variable {D : Type} (decodeNext : D → TokenId → List Char × D)

/-- The calls of `update` up to the first one that returns a stop string. -/
def feed (d : BaseIncrementalDetokenizer D) :
    List (List TokenId) → Option (List Char) × BaseIncrementalDetokenizer D
  | [] => (none, d)
  | call :: rest =>
    match d.update decodeNext call false with
    | (none, d') => feed d' rest
    | found => found

/-- The text of a sequence of tokens, and the decoder behind it. -/
def decodeAll (decoder : D) : List TokenId → List Char × D
  | [] => ([], decoder)
  | token :: rest =>
    let out := decodeAll (decodeNext decoder token).2 rest
    ((decodeNext decoder token).1 ++ out.1, out.2)

theorem decodeAll_append (decodeNext : D → TokenId → List Char × D) (decoder : D) (first rest : List TokenId) :
    decodeAll decodeNext decoder (first ++ rest) =
      ((decodeAll decodeNext decoder first).1 ++
        (decodeAll decodeNext (decodeAll decodeNext decoder first).2 rest).1,
      (decodeAll decodeNext (decodeAll decodeNext decoder first).2 rest).2) := by
  induction first generalizing decoder with
  | nil => rfl
  | cons token first ih => simp [decodeAll, ih]

/-- The number of tokens up to the end of the call that the token at place `n` is in. -/
def callEnd : List (List TokenId) → Nat → Nat
  | [], n => n + 1
  | call :: rest, n => if n < call.length then call.length else call.length + callEnd rest (n - call.length)

end BaseIncrementalDetokenizer

open BaseIncrementalDetokenizer

/-- The output tokens of a request, with its parameters and the decoder of its tokenizer. -/
structure Decoding (D : Type) where
  decodeNext : D → TokenId → List Char × D
  decoder : D
  params : OutputParams
  tokens : List TokenId

namespace Decoding

variable {D : Type} (r : Decoding D)

/-- The stop string and the text after the tokens were given to a new detokenizer in these calls. -/
def outcome (calls : List (List TokenId)) : Option (List Char) × List Char :=
  Prod.map id outputText (feed r.decodeNext (.init r.params r.decoder) calls)

/-- The text of the first `n` tokens. -/
def textAt (n : Nat) : List Char := (decodeAll r.decodeNext r.decoder (r.tokens.take n)).1

/-- The token at place `n` completes an occurrence of a string, and `min_tokens` tokens came before. -/
def Completes (n : Nat) (string : List Char) : Prop :=
  r.params.minTokens ≤ n ∧ n < r.tokens.length ∧
    ∃ i, string <+: (r.textAt (n + 1)).drop i ∧ (r.textAt n).length < i + string.length

/-- Of the stop strings that the first completing token completes, the one listed first: no string listed
before it is completed by a later token of the same call. -/
def ListedFirst (calls : List (List TokenId)) : Prop :=
  ∀ n before string after, (∀ k < n, ∀ s ∈ r.params.stop, ¬ r.Completes k s) →
    r.params.stop = before ++ string :: after → r.Completes n string →
    (∀ s ∈ before, ¬ r.Completes n s) →
    ∀ k, n < k → k < callEnd calls n → ∀ s ∈ before, ¬ r.Completes k s

/-- The first occurrence of a string in `text` that ends behind `old` characters. -/
def FirstNew (text : List Char) (old : Nat) (string : List Char) (i : Nat) : Prop :=
  string <+: text.drop i ∧ old < i + string.length ∧
    ∀ j, string <+: text.drop j → old < j + string.length → i ≤ j

/-- The text up to an occurrence at `i`, with the string itself if it is to be included. -/
def cutAt (text string : List Char) (i : Nat) : List Char :=
  text.take (if r.params.includeStopStrInOutput then i + string.length else i)

/-- What ends a run whose tokens `m` up to `e` are searched at once: the string listed first of those
completed there, cut off at its first occurrence. -/
structure Ends (m e : Nat) (before : List (List Char)) (string : List Char) (i : Nat) : Prop where
  listed : ∃ after, r.params.stop = before ++ string :: after
  others : ∀ k, m ≤ k → k < e → ∀ s ∈ before, ¬ r.Completes k s
  completed : ∃ k, m ≤ k ∧ k < e ∧ r.Completes k string
  place : FirstNew (r.textAt e) (r.textAt m).length string i

/-- A detokenizer that was fed the first `n` tokens and has cut nothing. -/
structure Fed (n : Nat) (d : BaseIncrementalDetokenizer D) : Prop where
  stop : d.stop = r.params.stop
  minTokens : d.minTokens = r.params.minTokens
  included : d.includeStopStrInOutput = r.params.includeStopStrInOutput
  count : d.tokenIds.length = n
  text : d.outputText = r.textAt n
  decoder : d.decoder = (decodeAll r.decodeNext r.decoder (r.tokens.take n)).2

variable {r}

variable {m n i e : Nat} {string : List Char} {d : BaseIncrementalDetokenizer D}
  {before : List (List Char)}

theorem textAt_prefix (r : Decoding D) (le : m ≤ n) : r.textAt m <+: r.textAt n := by
  obtain ⟨rest, eq⟩ := take_prefix_take_left (l := r.tokens) le
  rw [textAt, textAt, ← eq, decodeAll_append]
  exact prefix_append ..

/-- An occurrence that ends behind the text of `m` tokens is completed by one of the tokens after them. -/
theorem completes_of_occurs (nonempty : string ≠ [])
    (late : r.params.minTokens ≤ m) (within : n ≤ r.tokens.length)
    (occurs : string <+: (r.textAt n).drop i)
    (ends : (r.textAt m).length < i + string.length) :
    ∃ k, m ≤ k ∧ k < n ∧ r.Completes k string := by
  -- The induction removes the last token as long as the occurrence ends before it.
  induction n with
  | zero =>
    have empty : string = [] := by simpa [textAt, decodeAll] using occurs
    exact absurd empty nonempty
  | succ n ih =>
    by_cases last : (r.textAt n).length < i + string.length
    · by_cases order : m ≤ n
      · exact ⟨n, order, Nat.lt_succ_self n, by omega, by omega, i, occurs, last⟩
      · have longer := (r.textAt_prefix (show n + 1 ≤ m by omega)).length_le
        have fits := occurs.length_le
        have some := length_pos_iff.mpr nonempty
        rw [length_drop] at fits
        omega
    · obtain ⟨k, low, high, completes⟩ := ih (by omega)
        (occurs_shorter (r.textAt_prefix (Nat.le_succ n)) occurs (by omega))
      exact ⟨k, low, by omega, completes⟩

/-- The detokenization loop: the search starts where `min_tokens` was reached, or at the given offset. -/
theorem Fed.pushed (part : List TokenId) : ∀ {n : Nat} {d : BaseIncrementalDetokenizer D},
    r.Fed n d → ∀ offset, part <+: r.tokens.drop n →
    r.Fed (n + part.length) (d.detokenize r.decodeNext offset part).1 ∧
      (r.params.minTokens < n + part.length → (d.detokenize r.decodeNext offset part).2 =
        if n < r.params.minTokens then (r.textAt r.params.minTokens).length
        else offset) := by
  induction part with
  | nil =>
    intro n d fed offset _
    refine ⟨fed, fun enough => ?_⟩
    rw [if_neg (by simpa using enough.le)]
    rfl
  | cons token rest ih =>
    intro n d fed offset here
    obtain ⟨tail, eq⟩ := here
    have next : r.tokens.take (n + 1) = r.tokens.take n ++ [token] := by
      rw [take_add_one, ← head?_drop, ← eq]
      rfl
    have pushed : r.Fed (n + 1) (d.push r.decodeNext token) :=
      ⟨fed.stop, fed.minTokens, fed.included, by simp [push, fed.count],
        by simp [push, textAt, next, decodeAll_append, decodeAll, fed.text, fed.decoder],
        by simp [push, next, decodeAll_append, decodeAll, fed.decoder]⟩
    have later : rest <+: r.tokens.drop (n + 1) := by
      rw [← drop_drop, ← eq]
      exact ⟨tail, rfl⟩
    -- The offset moves along as long as `min_tokens` is not exceeded.
    obtain ⟨fed', search⟩ := ih pushed (if d.minTokens ≠ 0 ∧ n + 1 ≤ d.minTokens then
      (d.push r.decodeNext token).outputText.length else offset) later
    have unfolded : d.detokenize r.decodeNext offset (token :: rest) =
        (d.push r.decodeNext token).detokenize r.decodeNext (if d.minTokens ≠ 0 ∧ n + 1 ≤ d.minTokens then
          (d.push r.decodeNext token).outputText.length else offset) rest := by
      simp [detokenize, push, fed.count]
    rw [unfolded, length_cons, show n + (rest.length + 1) = n + 1 + rest.length by omega]
    refine ⟨fed', fun enough => ?_⟩
    rw [search enough, fed.minTokens, pushed.text]
    by_cases early : n + 1 < r.params.minTokens
    · rw [if_pos early, if_pos (by omega)]
    · rw [if_neg early]
      by_cases reached : n < r.params.minTokens
      · rw [if_pos reached, if_pos (by omega), show n + 1 = r.params.minTokens by omega]
      · rw [if_neg reached, if_neg (by omega)]

/-- The loop over the stop strings returns the first listed one that has a new occurrence. -/
theorem firstStop_spec {text : List Char} {count : Nat} (included : Bool) {stops : List (List Char)}
    (positive : 0 < count) (inside : count ≤ text.length) (nonempty : ∀ s ∈ stops, s ≠ []) :
    (firstStop text count included stops = none ∧
      ∀ s ∈ stops, ∀ i, s <+: text.drop i → i + s.length ≤ text.length - count) ∨
    ∃ before string after i cut, stops = before ++ string :: after ∧
      firstStop text count included stops = some (string, cut) ∧
      (∀ s ∈ before, ∀ i, s <+: text.drop i → i + s.length ≤ text.length - count) ∧
      FirstNew text (text.length - count) string i ∧
      cut.elim text text.take = text.take (if included then i + string.length else i) := by
  induction stops with
  | nil => exact .inl ⟨rfl, by simp⟩
  | cons first rest ih =>
    unfold firstStop
    rcases pyFind_new (nonempty first (by simp)) positive inside with
      ⟨missing, old⟩ | ⟨i, found, stands, new, least⟩
    · rw [missing]
      rcases ih fun s member => nonempty s (by simp [member]) with
        ⟨nothing, olds⟩ | ⟨before, string, after, i, cut, eq, result, olds, place⟩
      · exact .inl ⟨nothing, by simpa using ⟨old, olds⟩⟩
      · exact .inr ⟨first :: before, string, after, i, cut, by rw [eq]; rfl, result,
          by simpa using ⟨old, olds⟩, place⟩
    · rw [found]
      refine .inr ⟨[], first, rest, i, if included then if i + first.length ≥ text.length then none
        else some (i + first.length) else some i, rfl, ?_, by simp, ⟨stands, new, least⟩, ?_⟩
      · dsimp only
        split
        · split <;> rfl
        · rfl
      · cases included with
        | false => rfl
        | true =>
          rw [if_pos rfl, if_pos rfl]
          split
          · exact (take_of_length_le ‹_›).symm
          · rfl

/-- The stop check of a detokenizer that was fed the tokens, searching behind the text of the first `m`. -/
theorem Fed.checked (fed : r.Fed e d) (verified : r.params.Verified)
    (late : r.params.minTokens ≤ m) (searched : m < e) (within : e ≤ r.tokens.length) :
    (d.evaluateStop (r.textAt m).length = (none, d) ∧
      ∀ k, m ≤ k → k < e → ∀ s ∈ r.params.stop, ¬ r.Completes k s) ∨
    ∃ before string i d', d.evaluateStop (r.textAt m).length = (some string, d') ∧
      r.Ends m e before string i ∧
      d'.outputText = r.cutAt (r.textAt e) string i := by
  have grown (k : Nat) (le : k ≤ e) := (r.textAt_prefix le).length_le
  -- A string without a new occurrence was completed by none of the tokens.
  have uncompleted (s : List Char) (old : ∀ i, s <+: (r.textAt e).drop i →
      i + s.length ≤ (r.textAt m).length) (k : Nat) (low : m ≤ k) (high : k < e) :
      ¬ r.Completes k s := by
    rintro ⟨-, -, i, occurs, ends⟩
    have start := (r.textAt_prefix low).length_le
    have := old i (occurs.trans ((r.textAt_prefix (show k + 1 ≤ e from high)).drop i))
    omega
  by_cases none : r.params.stop = []
  · exact .inl ⟨by simp [evaluateStop, fed.stop, none], by simp [none]⟩
  have check {found : Option (List Char × Option Nat)} (eq : checkStopStrings
      (r.textAt e) ((r.textAt e).length -
        (r.textAt m).length) r.params.stop r.params.includeStopStrInOutput = found) :
      d.evaluateStop (r.textAt m).length = found.elim (.none, d) fun result =>
        (some result.1, { d with outputText := result.2.elim d.outputText d.outputText.take }) := by
    rw [← fed.text, ← fed.stop, ← fed.included] at eq
    unfold evaluateStop
    rw [if_pos ⟨by rw [fed.stop]; exact none, by rw [fed.count, fed.minTokens]; omega⟩, eq]
    rcases found with _ | ⟨string, _ | cut⟩ <;> rfl
  unfold checkStopStrings at check
  by_cases nothing : (r.textAt e).length -
      (r.textAt m).length = 0
  · refine .inl ⟨check (if_pos nothing), fun k low high s member => uncompleted s (fun i occurs => ?_) k low high⟩
    have some := length_pos_iff.mpr (verified s member)
    have fits := occurs.length_le
    rw [length_drop] at fits
    omega
  · rw [if_neg nothing] at check
    have whole : (r.textAt e).length -
        ((r.textAt e).length - (r.textAt m).length) =
        (r.textAt m).length := by
      have := grown m searched.le
      omega
    have result := firstStop_spec r.params.includeStopStrInOutput
      (Nat.pos_of_ne_zero nothing) (Nat.sub_le ..) verified
    rw [whole] at result
    rcases result with ⟨nothing, olds⟩ | ⟨before, string, after, i, cut, eq, result, olds, place, shape⟩
    · exact .inl ⟨check nothing, fun k low high s member => uncompleted s (olds s member) k low high⟩
    · refine .inr ⟨before, string, i, _, check result, ⟨⟨after, eq⟩, fun k low high s member =>
        uncompleted s (olds s member) k low high, ?_, place⟩, ?_⟩
      · exact completes_of_occurs (verified string (by rw [eq]; simp)) late within place.1 place.2.1
      · rw [← fed.text] at shape ⊢
        exact shape

/-- An update with some tokens: a stop string that one of them completes, or the text goes on. -/
theorem Fed.updated {b : Nat} (fed : r.Fed b d)
    (verified : r.params.Verified) {call : List TokenId} (nonempty : call ≠ [])
    (here : call <+: r.tokens.drop b) :
    (∃ d', d.update r.decodeNext call false = (none, d') ∧ r.Fed (b + call.length) d' ∧
      ∀ k < b + call.length, b ≤ k → ∀ s ∈ r.params.stop, ¬ r.Completes k s) ∨
    ∃ before string i d', d.update r.decodeNext call false = (some string, d') ∧
      r.Ends (max b r.params.minTokens) (b + call.length) before string i ∧
      d'.outputText = r.cutAt (r.textAt (b + call.length)) string i := by
  obtain ⟨fed', search⟩ := fed.pushed call d.outputText.length here
  have eq : d.update r.decodeNext call false =
      (d.detokenize r.decodeNext d.outputText.length call).1.evaluateStop
        (d.detokenize r.decodeNext d.outputText.length call).2 := by
    unfold update
    rw [getLast?_eq_some_getLast nonempty]
    rfl
  have within := here.length_le
  have positive := length_pos_iff.mpr nonempty
  rw [length_drop] at within
  rw [eq]
  by_cases enough : r.params.minTokens < b + call.length
  · have offset : (d.detokenize r.decodeNext d.outputText.length call).2 =
        (r.textAt (max b r.params.minTokens)).length := by
      rw [search enough]
      split
      · rw [max_eq_right (by omega)]
      · rw [max_eq_left (by omega), fed.text]
    rw [offset]
    rcases fed'.checked verified (le_max_right b _) (by omega) (by omega) with
      ⟨nothing, none⟩ | found
    · refine .inl ⟨_, nothing, fed', fun k high low s member completes => ?_⟩
      exact none k (max_le low completes.1) high s member completes
    · exact .inr found
  · refine .inl ⟨_, if_neg ?_, fed', fun k high low s _ completes => ?_⟩
    · rw [fed'.count, fed'.minTokens]
      omega
    · have := completes.1
      omega

/-- The first token that completes a stop string. -/
def First (r : Decoding D) (n : Nat) : Prop :=
  (∃ s ∈ r.params.stop, r.Completes n s) ∧ ∀ k < n, ∀ s ∈ r.params.stop, ¬ r.Completes k s

theorem First.unique {n' : Nat} (first : r.First n) (first' : r.First n') : n = n' := by
  obtain ⟨⟨s, member, completes⟩, none⟩ := first
  obtain ⟨⟨s', member', completes'⟩, none'⟩ := first'
  rcases lt_trichotomy n n' with lt | eq | gt
  · exact absurd completes (none' n lt s member)
  · exact eq
  · exact absurd completes' (none n' gt s' member')

/-- A search that starts before the first completing token ends as one that starts there. -/
theorem Ends.first
    (ends : r.Ends m e before string i) (verified : r.params.Verified) (late : r.params.minTokens ≤ m)
    (none : ∀ k < m, ∀ s ∈ r.params.stop, ¬ r.Completes k s) :
    ∃ n, m ≤ n ∧ n < e ∧ r.First n ∧ r.Ends n e before string i := by
  classical
  obtain ⟨after, listed⟩ := ends.listed
  have member : string ∈ r.params.stop := by rw [listed]; simp
  obtain ⟨k, low, high, completes⟩ := ends.completed
  have exist : ∃ k, ∃ s ∈ r.params.stop, r.Completes k s := ⟨k, string, member, completes⟩
  obtain ⟨n, found, least⟩ : ∃ n, (∃ s ∈ r.params.stop, r.Completes n s) ∧
      ∀ k < n, ∀ s ∈ r.params.stop, ¬ r.Completes k s :=
    ⟨Nat.find exist, Nat.find_spec exist, fun k lt s member completes =>
      Nat.find_min exist lt ⟨s, member, completes⟩⟩
  have after : m ≤ n := not_lt.mp fun lt => found.elim fun s holds => none n lt s holds.1 holds.2
  have upTo : n ≤ k := not_lt.mp fun lt => least k lt string member completes
  refine ⟨n, after, by omega, ⟨found, least⟩, ends.listed, fun k low => ends.others k (by omega),
    ⟨k, upTo, high, completes⟩, ends.place.1, ?_, fun j occurs new => ends.place.2.2 j occurs ?_⟩
  · -- An occurrence that ended before would have been completed before.
    by_contra old
    obtain ⟨k', low', high', completes'⟩ := completes_of_occurs (verified string member) late
      (upTo.trans completes.2.1.le)
      (occurs_shorter (r.textAt_prefix (show n ≤ e by omega)) ends.place.1 (by omega)) ends.place.2.1
    exact least k' high' string member completes'
  · exact (r.textAt_prefix after).length_le.trans_lt new

/-- A run of calls: no stop string at all, or the end of the call with the first completing token. -/
theorem Fed.run (verified : r.params.Verified) (calls : List (List TokenId)) :
    ∀ {b : Nat} {d : BaseIncrementalDetokenizer D}, r.Fed b d → calls.flatten = r.tokens.drop b →
    (∀ k < b, ∀ s ∈ r.params.stop, ¬ r.Completes k s) →
    (Prod.map id outputText (feed r.decodeNext d calls) =
        (none, r.textAt r.tokens.length) ∧ ∀ n, ¬ r.First n) ∨
    ∃ n before string i, b ≤ n ∧ r.First n ∧ r.Ends n (b + callEnd calls (n - b)) before string i ∧
      Prod.map id outputText (feed r.decodeNext d calls) =
        (some string, r.cutAt (r.textAt (b + callEnd calls (n - b))) string i) := by
  induction calls with
  | nil =>
    intro b d fed rest none
    have all : r.tokens.length ≤ b := drop_eq_nil_iff.mp rest.symm
    refine .inl ⟨?_, ?_⟩
    · simp only [feed, Prod.map_apply, id_eq, fed.text, textAt, take_of_length_le all, take_length]
    · rintro n ⟨⟨s, member, completes⟩, -⟩
      exact none n (completes.2.1.trans_le all) s member completes
  | cons call calls ih =>
    intro b d fed rest none
    have shift (n : Nat) (le : b + call.length ≤ n) :
        b + callEnd (call :: calls) (n - b) = b + call.length + callEnd calls (n - (b + call.length)) := by
      rw [callEnd, if_neg (by omega), Nat.sub_sub, Nat.add_assoc]
    by_cases empty : call = []
    · subst empty
      have result := ih fed (by simpa using rest) none
      simpa [feed, update, callEnd] using result
    rcases fed.updated verified empty ⟨_, rest⟩ with
      ⟨d', eq, fed', more⟩ | ⟨before, string, i, d', eq, ends, text⟩
    · have none' (k : Nat) (lt : k < b + call.length) (s : List Char) (member : s ∈ r.params.stop) :
          ¬ r.Completes k s :=
        if old : k < b then none k old s member else more k lt (not_lt.mp old) s member
      have later : calls.flatten = r.tokens.drop (b + call.length) := by
        rw [← drop_drop, ← rest, flatten_cons, drop_left]
      simp only [feed, eq]
      rcases ih fed' later none' with nothing | ⟨n, before, string, i, low, first, ends, result⟩
      · exact .inl nothing
      · refine .inr ⟨n, before, string, i, by omega, first, ?_⟩
        rw [shift n low]
        exact ⟨ends, result⟩
    · obtain ⟨n, low, high, first, ends⟩ := ends.first verified (le_max_right ..) fun k lt s member completes =>
        none k ((lt_max_iff.mp lt).resolve_right (not_lt.mpr completes.1)) s member completes
      have here : callEnd (call :: calls) (n - b) = call.length := by
        rw [callEnd, if_pos (by omega)]
      refine .inr ⟨n, before, string, i, by omega, first, ?_⟩
      rw [here]
      simp only [feed, eq, Prod.map_apply, id_eq, text]
      exact ⟨ends, trivial⟩

theorem callEnd_singles (tokens : List TokenId) (n : Nat) : callEnd (tokens.map ([·])) n = n + 1 := by
  induction tokens generalizing n with
  | nil => rfl
  | cons token rest ih =>
    rw [map_cons, callEnd]
    split
    · simp_all
    · rw [ih]
      simp_all
      omega

/-- The occurrence is the same one, and so is the text before it, if the first token completes the string. -/
theorem Ends.cutAt_eq {j : Nat} {before' : List (List Char)}
    (verified : r.params.Verified) (one : r.Ends n (n + 1) before string i)
    (many : r.Ends n e before' string j) :
    r.cutAt (r.textAt (n + 1)) string i = r.cutAt (r.textAt e) string j := by
  obtain ⟨k, low, high, -⟩ := many.completed
  obtain ⟨after, listed⟩ := one.listed
  have some := length_pos_iff.mpr (verified string (by rw [listed]; simp))
  have grown := r.textAt_prefix (show n + 1 ≤ e by omega)
  have fits := one.place.1.length_le
  rw [length_drop] at fits
  have le := many.place.2.2 i (one.place.1.trans (grown.drop i)) one.place.2.1
  have ge := one.place.2.2 j (occurs_shorter grown many.place.1 (by omega)) many.place.2.1
  obtain rfl : i = j := le_antisymm ge le
  obtain ⟨rest, eq⟩ := grown
  rw [cutAt, cutAt, ← eq, take_append_of_le_length]
  split <;> omega

/-- The grouping of the tokens into calls does not matter exactly if, at the first token that completes a stop
string, the later tokens of its call complete no string that is listed before the one taken. -/
theorem outcome_singles_iff (r : Decoding D) (verified : r.params.Verified) {calls : List (List TokenId)}
    (grouped : calls.flatten = r.tokens) :
    r.outcome calls = r.outcome (r.tokens.map ([·])) ↔ r.ListedFirst calls := by
  have fed : r.Fed 0 (.init r.params r.decoder) := ⟨rfl, rfl, rfl, rfl, rfl, rfl⟩
  have singles : (r.tokens.map ([·])).flatten = r.tokens := by
    rw [← flatMap_def]
    simp
  unfold outcome
  rcases Fed.run verified calls fed (by simpa using grouped) (by simp) with
    ⟨result, none⟩ | ⟨n, before, string, i, -, first, many, result⟩
  · rcases Fed.run verified (r.tokens.map ([·])) fed (by simpa using singles) (by simp) with
      ⟨result', -⟩ | ⟨n, _, _, _, -, first, -⟩
    · refine iff_of_true (result.trans result'.symm) fun n before string after no listed completes => ?_
      exact absurd ⟨⟨string, by rw [listed]; simp, completes⟩, no⟩ (none n)
    · exact absurd first (none n)
  · rcases Fed.run verified (r.tokens.map ([·])) fed (by simpa using singles) (by simp) with
      ⟨-, none⟩ | ⟨n', before', string', i', -, first', one, result'⟩
    · exact absurd first (none n)
    obtain rfl := first.unique first'
    rw [Nat.sub_zero, Nat.zero_add] at many result one result'
    rw [callEnd_singles] at one result'
    rw [result, result']
    obtain ⟨after, listed⟩ := many.listed
    obtain ⟨after', listed'⟩ := one.listed
    obtain ⟨k, low, high, completes⟩ := many.completed
    obtain ⟨k', low', high', completes'⟩ := one.completed
    obtain rfl : k' = n := by omega
    constructor
    · intro same m before₀ string₀ after₀ no listed₀ completes₀ nots
      obtain rfl : k' = m := first.unique ⟨⟨string₀, by rw [listed₀]; simp, completes₀⟩, no⟩
      obtain rfl : string = string' := Option.some.inj (Prod.ext_iff.mp same).1
      obtain ⟨rfl, -⟩ := split_unique (P := r.Completes k') (listed₀.symm.trans listed) nots
        (many.others k' le_rfl (by omega)) completes₀ completes'
      exact fun k later => many.others k later.le
    · intro condition
      have later := condition k' before' string' after' first.2 listed' completes'
        (one.others k' le_rfl (by omega))
      have others (s : List Char) (member : s ∈ before') :
          ¬ ∃ k, k' ≤ k ∧ k < callEnd calls k' ∧ r.Completes k s := by
        rintro ⟨k, low, high, holds⟩
        rcases low.eq_or_lt with rfl | lt
        · exact one.others _ le_rfl (by omega) s member holds
        · exact later k lt high s member holds
      obtain ⟨rfl, rfl⟩ := split_unique (listed.symm.trans listed')
        (fun s member ⟨k, low, high, holds⟩ => many.others k low high s member holds) others
        ⟨k, low, high, completes⟩ ⟨k', le_rfl, by omega, completes'⟩
      rw [one.cutAt_eq verified many]

/-- Tokens that are characters, decoded to themselves. -/
def letters (stop : List (List Char)) (text : List Char) : Decoding Unit where
  decodeNext _ token := ([Char.ofNat token], ())
  decoder := ()
  params := { stop := stop }
  tokens := text.map Char.toNat

/-- A stop string that is completed later but listed earlier, in two calls. -/
theorem outcome_singles_iff_letters :
    (letters [['b'], ['a']] ['c', 'a', 'b']).outcome [[99, 97], [98]] =
        (letters [['b'], ['a']] ['c', 'a', 'b']).outcome [[99], [97], [98]] ∧
      (letters [['b'], ['a']] ['c', 'a', 'b']).ListedFirst [[99, 97], [98]] := by
  have same : (letters [['b'], ['a']] ['c', 'a', 'b']).outcome [[99, 97], [98]] =
      (letters [['b'], ['a']] ['c', 'a', 'b']).outcome [[99], [97], [98]] := by decide
  exact ⟨same, (outcome_singles_iff (letters [['b'], ['a']] ['c', 'a', 'b'])
    (by simp [letters, OutputParams.Verified])
    (show [[99, 97], [98]].flatten = [99, 97, 98] by decide)).mp same⟩

/-- In one call the string listed first is taken, though another was completed by an earlier token. -/
theorem outcome_one_call :
    (letters [['b'], ['a']] ['a', 'b']).outcome [[97, 98]] = (some ['b'], ['a']) ∧
      (letters [['b'], ['a']] ['a', 'b']).outcome [[97], [98]] = (some ['a'], []) := by
  decide

end Decoding

end Mimir
