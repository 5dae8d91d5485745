import Mathlib.Data.List.DropRight
import Mathlib.Data.List.Zip
import Mimir.Request.Types
import Mimir.Theory.Ragged

/-! The index arrays of speculative decoding: which positions of the flat batch are sampled and verified. -/

namespace Mimir

open Python Theory
open List hiding span

/-- `_get_cumsum_and_arange`: prefix sums, and positions within each row; `arange_np` has a fixed size. -/
def getCumsumAndArange (arangeSize : Nat) (numTokens : List Nat) :
    Except Err (List Int × List Int) := do
  let cuNumTokens := cumsum numTokens
  let totalNumTokens ← orRaise cuNumTokens.getLast? ⟨.index, .emptyBatch⟩
  let cumsumsOffsets := repeatEach (subEach cuNumTokens (numTokens.map Int.ofNat)) numTokens
  -- A slice that is too short cannot be broadcast.
  require (totalNumTokens ≤ arangeSize) ⟨.value, .arangeLength⟩
  .ok (cuNumTokens, subEach (arange totalNumTokens.toNat) cumsumsOffsets)

/-- `SpecDecodeMetadata`. -/
structure SpecDecodeMetadata (α : Type) where
  draftTokenIds : List α
  numDraftTokens : List Nat
  cuNumDraftTokens : List Int
  targetLogitsIndices : List Int
  bonusLogitsIndices : List Int
  logitsIndices : List Int

/-- `_calc_spec_decode_metadata`, over the flat input buffer. -/
def calcSpecDecodeMetadata {α : Type} (arangeSize : Nat) (inputIds : List α)
    (numDraftTokens : List Nat) (cuNumScheduledTokens : List Int) :
    Except Err (SpecDecodeMetadata α) := do
  let numSampledTokens := numDraftTokens.map (· + 1)
  let sampled := numSampledTokens.map Int.ofNat
  let (cuNumSampledTokens, arange) ← getCumsumAndArange arangeSize numSampledTokens
  let logitsIndices := addEach
    (repeatEach (subEach cuNumScheduledTokens sampled) numSampledTokens) arange
  let bonusLogitsIndices := cuNumSampledTokens.map (· - 1)
  let (cuNumDraftTokens, arange) ← getCumsumAndArange arangeSize numDraftTokens
  let targetLogitsIndices := addEach
    (repeatEach (subEach cuNumSampledTokens sampled) numDraftTokens) arange
  let draftTokenIds ← orRaise (gather inputIds logitsIndices) ⟨.index, .gatherIndex⟩
  let draftTokenIds ← orRaise (gather draftTokenIds (targetLogitsIndices.map (· + 1)))
    ⟨.index, .gatherIndex⟩
  .ok ⟨draftTokenIds, numDraftTokens, cuNumDraftTokens, targetLogitsIndices, bonusLogitsIndices,
    logitsIndices⟩

section Rows

variable {ns ds : List Nat}

/-- The positions within each row, of a batch with rows that fit the buffer. -/
theorem getCumsumAndArange_eq {arangeSize : Nat} (nonempty : ns ≠ []) (fits : ns.sum ≤ arangeSize) :
    getCumsumAndArange arangeSize ns = .ok (cumsum ns, (ns.map arange).flatten) := by
  have last := getLast?_cumsumFrom 0 nonempty
  rw [Int.zero_add] at last
  unfold getCumsumAndArange cumsum
  dsimp only
  rw [last]
  show (require ((ns.sum : Int) ≤ arangeSize) _ >>= fun _ => _) = _
  rw [require, if_pos (by omega), subEach_cumsumFrom]
  show Except.ok (_, subEach (arange (Int.toNat (ns.sum : Int))) _) = _
  rw [Int.toNat_natCast, subEach_arange]

/-- Shifted positions within each row. -/
theorem addEach_repeatEach (starts : List Int) (ns : List Nat) :
    addEach (repeatEach starts ns) (ns.map arange).flatten =
      (List.zipWith span starts ns).flatten := by
  induction ns generalizing starts with
  | nil => cases starts <;> rfl
  | cons n ns ih =>
    cases starts with
    | nil => rfl
    | cons start starts =>
      have later := ih starts
      unfold addEach repeatEach at later ⊢
      simp only [zipWith_cons_cons, flatten_cons, map_cons]
      rw [zipWith_append (by simp [arange]), later]
      congr 1
      apply ext_getElem?
      intro i
      by_cases below : i < n
      · simp [arange, span, below]
      · simp [arange, span, below]

/-- The end of a span. -/
theorem rtake_span (start : Int) {n k : Nat} (fits : k ≤ n) :
    (span start n).rtake k = span (start + n - k) k := by
  apply ext_getElem?
  intro i
  rw [List.rtake, length_span, getElem?_drop]
  unfold span
  by_cases below : i < k
  · simp only [getElem?_map, getElem?_range (show n - k + i < n by omega),
      getElem?_range below, Option.map_some, Option.some.injEq]
    omega
  · simp only [getElem?_map, getElem?_eq_none (show (List.range k).length ≤ i by simp; omega),
      getElem?_eq_none (show (List.range n).length ≤ n - k + i by simp; omega), Option.map_none]

/-- Counted from the ends of the rows, the sampled positions are the last ones of each row. -/
theorem sampled_rows (start : Int) (enough : List.Forall₂ (fun n d => d + 1 ≤ n) ns ds) :
    List.zipWith span (subEach (cumsumFrom start ns) ((ds.map (· + 1)).map Int.ofNat))
        (ds.map (· + 1)) =
      List.zipWith (fun row d => row.rtake (d + 1)) (List.zipWith span (offsetsFrom start ns) ns) ds := by
  induction enough generalizing start with
  | nil => rfl
  | @cons n d ns ds here _ ih =>
    have later := ih (start + n)
    unfold subEach at later ⊢
    simp only [cumsumFrom, offsetsFrom, map_cons, zipWith_cons_cons, later, rtake_span start here]
    rfl

/-- What a batch samples fits into what it computes. -/
theorem sum_sampled_le (enough : List.Forall₂ (fun n d => d + 1 ≤ n) ns ds) :
    (ds.map (· + 1)).sum ≤ ns.sum ∧ ds.sum ≤ ns.sum := by
  induction enough with
  | nil => exact ⟨le_rfl, le_rfl⟩
  | cons =>
    simp only [map_cons, sum_cons]
    omega

/-- The last entries of related lists. -/
theorem forall₂_rtake {α β : Type} {R : α → β → Prop} {as : List α} {bs : List β}
    (related : List.Forall₂ R as bs) (k : Nat) : List.Forall₂ R (as.rtake k) (bs.rtake k) := by
  unfold List.rtake
  rw [related.length_eq]
  exact forall₂_drop _ related

/-- Among the last entries of a list, the last ones. -/
theorem drop_rtake {α : Type} (row : List α) {d k : Nat} (fits : d + k ≤ row.length) :
    (row.rtake (d + k)).drop d = row.rtake k := by
  unfold List.rtake
  rw [drop_drop]
  congr 1
  omega

/-- The first of the sampled entries of each request, counted in the array of sampled entries. -/
theorem target_rows (start : Int) (ds : List Nat) :
    List.zipWith span (offsetsFrom start (ds.map (· + 1))) ds =
      List.zipWith (fun row d => row.take d)
        (List.zipWith span (offsetsFrom start (ds.map (· + 1))) (ds.map (· + 1))) ds := by
  induction ds generalizing start with
  | nil => rfl
  | cons d ds ih =>
    have later := ih (start + (d + 1 : Nat))
    simp only [map_cons, offsetsFrom, zipWith_cons_cons] at later ⊢
    rw [later]
    congr 1
    simp [span, ← map_take, take_range]

/-- Their successors are all but the first. -/
theorem target_rows_succ (start : Int) (ds : List Nat) :
    (List.zipWith span (offsetsFrom start (ds.map (· + 1))) ds).flatten.map (· + 1) =
      (List.zipWith (fun row (_ : Nat) => row.drop 1)
        (List.zipWith span (offsetsFrom start (ds.map (· + 1))) (ds.map (· + 1))) ds).flatten := by
  induction ds generalizing start with
  | nil => rfl
  | cons d ds ih =>
    have later := ih (start + (d + 1 : Nat))
    simp only [map_cons, offsetsFrom, zipWith_cons_cons, flatten_cons, map_append] at later ⊢
    rw [later]
    congr 1
    simp only [span, range_succ_eq_map, map_cons, map_map, drop_succ_cons, drop_zero]
    refine map_congr_left fun j _ => ?_
    simp only [Function.comp_apply]
    omega

/-- The ends of the rows are their last entries. -/
theorem bonus_rows (start : Int) (ds : List Nat) :
    (cumsumFrom start (ds.map (· + 1))).map (· - 1) =
      (List.zipWith (fun row d => row.drop d)
        (List.zipWith span (offsetsFrom start (ds.map (· + 1))) (ds.map (· + 1))) ds).flatten := by
  induction ds generalizing start with
  | nil => rfl
  | cons d ds ih =>
    have later := ih (start + (d + 1 : Nat))
    simp only [map_cons, offsetsFrom, cumsumFrom, zipWith_cons_cons, flatten_cons] at later ⊢
    rw [later]
    simp [span, range_succ]
    omega

/-- Reading the sampled entries of each request at some of their places. -/
theorem gather_sampled {α : Type} (f : List Int → Nat → List Int) (g : List α → Nat → List α)
    {rows : List (List α)} (enough : List.Forall₂ (fun row d => d + 1 ≤ row.length) rows ds)
    (alike : ∀ {R : Int → α → Prop} {a b} (d), List.Forall₂ R a b → List.Forall₂ R (f a d) (g b d)) :
    gather (List.zipWith (fun row d => row.rtake (d + 1)) rows ds).flatten (List.zipWith f
        (List.zipWith span (offsetsFrom 0 (ds.map (· + 1))) (ds.map (· + 1))) ds).flatten =
      some (List.zipWith (fun row d => g (row.rtake (d + 1)) d) rows ds).flatten := by
  have lengths : (List.zipWith (fun row d => row.rtake (d + 1)) rows ds).map List.length =
      ds.map (· + 1) := by
    induction enough with
    | nil => rfl
    | @cons row d rows ds here _ ih =>
      rw [zipWith_cons_cons, map_cons, map_cons, ih]
      congr 1
      simp only [List.rtake, length_drop]
      omega
  have read := gather_rows f g [] [] (List.zipWith (fun row d => row.rtake (d + 1)) rows ds) alike ds
  rw [lengths, nil_append, append_nil, length_nil] at read
  refine read.trans ?_
  congr 2
  clear lengths read
  induction enough with
  | nil => rfl
  | cons _ _ ih => simp only [zipWith_cons_cons, ih]

/-- The positions of rows that are long enough. -/
theorem forall₂_spans (enough : List.Forall₂ (fun n d => d + 1 ≤ n) ns ds) :
    List.Forall₂ (fun row d => d + 1 ≤ row.length) (spans ns) ds := by
  have lengths : (spans ns).map List.length = ns := by
    unfold spans
    generalize (0 : Int) = start
    clear enough
    induction ns generalizing start with
    | nil => rfl
    | cons n ns ih => simp only [offsetsFrom, zipWith_cons_cons, map_cons, length_span, ih]
  rw [← lengths] at enough
  exact forall₂_map_left_iff.mp enough

end Rows

/-- The indices of a batch whose rows hold a token to compute behind their draft tokens: the sampled positions
are the last ones of each request, the bonus is the last of them, the targets are those before, and the draft
tokens are read off the input; without requests the last prefix sum is missing. -/
theorem calcSpecDecodeMetadata_law {α : Type} (tokens : List (List α)) (padding : List α)
    (ds : List Nat) (arangeSize : Nat)
    (enough : List.Forall₂ (fun row d => d + 1 ≤ row.length) tokens ds)
    (fits : (tokens.flatten ++ padding).length ≤ arangeSize) :
    let run := calcSpecDecodeMetadata arangeSize (tokens.flatten ++ padding) ds
      (cumsum (tokens.map List.length))
    let positions := spans (tokens.map List.length)
    (ds = [] → run = .error ⟨.index, .emptyBatch⟩) ∧
      (ds ≠ [] → ∃ md, run = .ok md ∧ md.numDraftTokens = ds ∧ md.cuNumDraftTokens = cumsum ds ∧
        md.logitsIndices =
          (List.zipWith (fun row d => row.rtake (d + 1)) positions ds).flatten ∧
        gather md.logitsIndices md.bonusLogitsIndices =
          some (List.zipWith (fun row _ => row.rtake 1) positions ds).flatten ∧
        gather md.logitsIndices md.targetLogitsIndices =
          some (List.zipWith (fun row d => (row.rtake (d + 1)).take d) positions ds).flatten ∧
        md.draftTokenIds = (List.zipWith (fun row d => row.rtake d) tokens ds).flatten) := by
  intro run positions
  refine ⟨?_, fun nonempty => ?_⟩
  · rintro rfl
    rfl
  have enough' : List.Forall₂ (fun n d => d + 1 ≤ n) (tokens.map List.length) ds :=
    forall₂_map_left_iff.mpr enough
  obtain ⟨sampledFit, draftsFit⟩ := sum_sampled_le enough'
  have total : (tokens.map List.length).sum ≤ arangeSize := by
    simp only [length_append, length_flatten] at fits
    omega
  have long := forall₂_spans enough'
  have input : gather (tokens.flatten ++ padding)
      (List.zipWith (fun row d => row.rtake (d + 1)) positions ds).flatten = _ :=
    gather_rows _ (fun row d => row.rtake (d + 1)) [] padding tokens
      (fun d here => forall₂_rtake here (d + 1)) ds
  have drafts := gather_sampled (fun row _ => row.drop 1) (fun row _ => row.drop 1) enough
    fun _ here => forall₂_drop 1 here
  have bonus := gather_sampled (fun row d => row.drop d) (fun row d => row.drop d) long
    fun d here => forall₂_drop d here
  have targets := gather_sampled (fun row d => row.take d) (fun row d => row.take d) long
    fun d here => forall₂_take d here
  -- Among the sampled entries the drafts are all but the first, the bonus is the last.
  rw [zipWith_congr (fun (row : List α) d => (row.rtake (d + 1)).drop 1)
    (fun row d => row.rtake d) tokens ds (enough.imp fun row d fits => by
      rw [Nat.add_comm d 1, drop_rtake row (by omega)])] at drafts
  rw [zipWith_congr (fun (row : List Int) d => (row.rtake (d + 1)).drop d)
    (fun row _ => row.rtake 1) _ ds (long.imp fun row d fits => drop_rtake row fits)] at bonus
  refine ⟨⟨_, ds, cumsum ds, (List.zipWith span (offsetsFrom 0 (ds.map (· + 1))) ds).flatten,
    (cumsum (ds.map (· + 1))).map (· - 1), _⟩, ?_, rfl, rfl, rfl, ?_, ?_, rfl⟩
  · -- The run, with all arrays row by row.
    simp only [run, calcSpecDecodeMetadata, getCumsumAndArange_eq
      (map_eq_nil_iff.not.mpr nonempty) (sampledFit.trans total),
      getCumsumAndArange_eq nonempty (draftsFit.trans total), Bind.bind, Except.bind,
      addEach_repeatEach, cumsum, subEach_cumsumFrom, sampled_rows 0 enough', target_rows_succ]
    rw [← spans, input]
    simp only [orRaise, drafts]
    rfl
  · dsimp only [cumsum]
    rw [bonus_rows, bonus]
  · rw [target_rows, targets]

/-- A request with three draft tokens and one without: the drafts are read off the input. -/
theorem calcSpecDecodeMetadata_law_mixed :
    ∃ md, calcSpecDecodeMetadata 8 [10, 11, 12, 13, 20, 21] [3, 0] [4, 6] = .ok md ∧
      md.logitsIndices = [0, 1, 2, 3, 5] ∧ md.draftTokenIds = [11, 12, 13] := by
  obtain ⟨md, run, _, _, logits, _, _, drafts⟩ :=
    (calcSpecDecodeMetadata_law [[10, 11, 12, 13], [20, 21]] [] [3, 0] 8
      (.cons (by decide) (.cons (by decide) .nil)) (by decide)).2 (by decide)
  exact ⟨md, run, logits, drafts⟩

end Mimir
