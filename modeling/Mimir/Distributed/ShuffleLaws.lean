import Mathlib.Data.List.Forall2
import Mathlib.Data.List.Induction
import Mathlib.Data.List.Perm.Basic
import Mathlib.Data.List.Nodup
import Mimir.Distributed.ExpertShuffle

/-! The ranks of a shuffle agree on every transfer, and the new placement is delivered. -/

namespace Mimir

open Python List Function

variable {r a b slot : Nat} {e : Int} {p : Placement}

namespace Placement

variable {W : Type}

/-! ### The ranks that hold an expert -/

/-- The ranks that can send an expert. -/
abbrev ranksToSend (p : Placement) (expert : Int) : List Nat := (p.getEpRanksWithExpert expert).1

/-- The ranks that have to receive an expert. -/
abbrev ranksToRecv (p : Placement) (expert : Int) : List Nat := (p.getEpRanksWithExpert expert).2

variable {count senders receivers j rank start size extra epRank src : Nat}
  {ranks : List Nat} {idx expert : Int} {locs : PyDict Int Nat} {item : Int × Nat} {α β γ : Type}

/-- A turn of the loop keeps the ranks ascending and adds the rank of a matching slot. -/
theorem noteRank_spec (idx e : Int) {n : Nat}
    (ascending : ranks.Pairwise (· < ·)) (bounded : ∀ r ∈ ranks, r ≤ n / count) :
    (noteRank idx count ranks (e, n)).Pairwise (· < ·) ∧
      (∀ r ∈ noteRank idx count ranks (e, n), r ≤ n / count) ∧
      ∀ r, r ∈ noteRank idx count ranks (e, n) ↔ r ∈ ranks ∨ (e = idx ∧ n / count = r) := by
  -- Only a rank above the last one is appended, since the last one is the largest.
  unfold noteRank globalIdxToRank
  by_cases same : e = idx
  · simp only [same, if_true, true_and]
    by_cases last : ranks.getLast? = some (n / count)
    · have member : n / count ∈ ranks := mem_of_getLast? last
      simp only [last, if_true]
      refine ⟨ascending, bounded, fun r => ⟨Or.inl, ?_⟩⟩
      rintro (known | rfl)
      · exact known
      · exact member
    · simp only [last, if_false]
      have below : ∀ r ∈ ranks, r < n / count := by
        intro r member
        obtain rfl | ⟨front, top, rfl⟩ := eq_nil_or_concat ranks
        · simp at member
        · have topLe := bounded top (by simp)
          have topNe : top ≠ n / count := by simpa using last
          simp only [concat_eq_append, mem_append, mem_singleton] at member
          rcases member with inner | rfl
          · simp only [concat_eq_append, pairwise_append] at ascending
            have := ascending.2.2 r inner top (by simp)
            omega
          · omega
      refine ⟨?_, ?_, ?_⟩
      · rw [pairwise_append]
        exact ⟨ascending, by simp, fun a inner b single => by
          rw [mem_singleton.mp single]; exact below a inner⟩
      · intro r member
        simp only [mem_append, mem_singleton] at member
        rcases member with inner | rfl
        · exact bounded r inner
        · exact Nat.le_refl _
      · intro r
        simp only [mem_append, mem_singleton, eq_comm]
  · simp only [same, if_false, false_and, or_false]
    exact ⟨ascending, bounded, fun _ => trivial⟩

/-- The loop over the rest of an index list, from any ranks found before it. -/
theorem foldl_noteRank (count : Nat) (indices : List Int) (n : Nat)
    (ascending : ranks.Pairwise (· < ·))
    (bounded : ∀ r ∈ ranks, r ≤ n / count) :
    ((indices.zipIdx n).foldl (noteRank idx count) ranks).Pairwise (· < ·) ∧
      ∀ r, r ∈ (indices.zipIdx n).foldl (noteRank idx count) ranks ↔
        r ∈ ranks ∨ ∃ i, indices[i]? = some idx ∧ (n + i) / count = r := by
  -- The induction is on the list; the position only grows, so the bound is kept.
  induction indices generalizing n ranks with
  | nil => simpa using ascending
  | cons e rest ih =>
    simp only [zipIdx_cons, foldl_cons]
    obtain ⟨kept, below, members⟩ := noteRank_spec idx e ascending bounded
    have grown : ∀ r ∈ noteRank idx count ranks (e, n), r ≤ (n + 1) / count := by
      intro r member
      exact Nat.le_trans (below r member) (Nat.div_le_div_right (Nat.le_succ n))
    obtain ⟨sorted, found⟩ := ih (n + 1) kept grown
    refine ⟨sorted, fun r => ?_⟩
    rw [found r, members r, or_assoc]
    apply or_congr Iff.rfl
    constructor
    · rintro (⟨rfl, place⟩ | ⟨i, here, place⟩)
      · exact ⟨0, by simp, by simpa using place⟩
      · exact ⟨i + 1, by simpa using here, by rw [← place]; congr 1; omega⟩
    · rintro ⟨i, here, place⟩
      cases i with
      | zero => exact .inl ⟨by simpa using here, by simpa using place⟩
      | succ i => exact .inr ⟨i, by simpa using here, by rw [← place]; congr 1; omega⟩

/-- The ranks of an index list that hold an expert, in ascending order. -/
theorem ranksWithExpert_ascending (idx : Int) (count : Nat) (indices : List Int) :
    (ranksWithExpert idx count indices).Pairwise (· < ·) :=
  (foldl_noteRank count indices 0 List.Pairwise.nil (by simp)).1

/-- A rank holds an expert when one of its slots does. -/
theorem mem_ranksWithExpert {ranks : Nat} {indices : List Int}
    (length : indices.length = ranks * count) (proper : idx ≠ -1) :
    r ∈ ranksWithExpert idx count indices ↔
      r < ranks ∧ ∃ slot < count, indices.getD (idxLocalToGlobal slot count r) (-1) = idx := by
  -- A global index is a rank and a slot: quotient and remainder by the slots of a rank.
  rw [ranksWithExpert, (foldl_noteRank count indices 0 List.Pairwise.nil (by simp)).2 r]
  simp only [not_mem_nil, false_or, Nat.zero_add, idxLocalToGlobal]
  constructor
  · rintro ⟨i, here, place⟩
    obtain ⟨inside, -⟩ := List.getElem?_eq_some_iff.mp here
    rw [length] at inside
    have positive : 0 < count := by
      rcases Nat.eq_zero_or_pos count with zero | positive
      · rw [zero] at inside; omega
      · exact positive
    refine ⟨?_, i % count, Nat.mod_lt _ positive, ?_⟩
    · rw [← place]
      exact Nat.div_lt_of_lt_mul (by rw [Nat.mul_comm]; exact inside)
    · rw [← place, Nat.mul_comm, Nat.div_add_mod, getD_eq_getElem?_getD, here]
      rfl
  · rintro ⟨-, slot, small, holds⟩
    refine ⟨r * count + slot, ?_, ?_⟩
    · rw [getD_eq_getElem?_getD] at holds
      cases found : indices[r * count + slot]? with
      | none => rw [found] at holds; exact absurd holds.symm proper
      | some => rw [found] at holds; exact congrArg some holds
    · rw [Nat.mul_comm, Nat.mul_add_div (by omega), Nat.div_eq_of_lt small, Nat.add_zero]

/-- The ranks that can send an expert are those that held it. -/
theorem mem_ranksToSend (proper : expert ≠ -1) :
    r ∈ p.ranksToSend expert ↔
      r < p.numRanks ∧ ∃ slot < p.numLocalExperts, p.oldExpert r slot = expert :=
  mem_ranksWithExpert p.oldLength proper

/-- The ranks that have to receive an expert are to hold it and did not. -/
theorem mem_ranksToRecv (proper : expert ≠ -1) :
    r ∈ p.ranksToRecv expert ↔
      (r < p.numRanks ∧ ∃ slot < p.numLocalExperts, p.newExpert r slot = expert) ∧
        r ∉ p.ranksToSend expert := by
  simp only [ranksToRecv, getEpRanksWithExpert, mem_filter, decide_eq_true_eq]
  rw [mem_ranksWithExpert p.newLength proper]
  rfl

/-- No rank is named twice as a receiver. -/
theorem nodup_ranksToRecv (p : Placement) (expert : Int) : (p.ranksToRecv expert).Nodup := by
  apply List.Nodup.filter
  exact (ranksWithExpert_ascending _ _ _).imp fun below => Nat.ne_of_lt below

/-! ### Splitting the receivers over the senders -/

/-- The sender that the code gives to a receiver, by their positions. -/
def senderOf (senders receivers receiver : Nat) : Nat :=
  if receiver < senders * (receivers / senders) then receiver / (receivers / senders)
  else receiver - senders * (receivers / senders)

/-- Both ends of a transfer compute the same pairing. -/
theorem senderOf_eq_iff {i : Nat} (sender : i < senders) :
    senderOf senders receivers j = i ↔
      (i * (receivers / senders) ≤ j ∧ j < i * (receivers / senders) + receivers / senders) ∨
        j = senders * (receivers / senders) + i := by
  -- Below the remainder a receiver belongs to its block, above it to its offset.
  unfold senderOf
  generalize receivers / senders = share
  have whole : i * share + share ≤ senders * share := by
    rw [← Nat.succ_mul]
    exact Nat.mul_le_mul_right share sender
  by_cases low : j < senders * share
  · have positive : 0 < share := by
      rcases Nat.eq_zero_or_pos share with zero | positive
      · rw [zero] at low; omega
      · exact positive
    rw [if_pos low, Nat.div_eq_iff positive]
    omega
  · rw [if_neg low]
    omega

/-- A receiver always has a sender. -/
theorem senderOf_lt (some : 0 < senders) (receiver : j < receivers) :
    senderOf senders receivers j < senders := by
  unfold senderOf
  have share := Nat.div_add_mod receivers senders
  have rest := Nat.mod_lt receivers some
  split
  · next low => exact Nat.div_lt_of_lt_mul (by rw [Nat.mul_comm]; exact low)
  · omega

/-- The position `list.index` finds. -/
theorem indexOf_of_mem (member : rank ∈ ranks) :
    ∃ i, indexOf ranks rank = .ok i ∧ ranks[i]? = some rank := by
  unfold indexOf
  cases found : ranks.findIdx? (· == rank) with
  | none =>
    rw [findIdx?_eq_none_iff] at found
    simpa using found rank member
  | some i =>
    obtain ⟨inside, here, -⟩ := findIdx?_eq_some_iff_getElem.mp found
    exact ⟨i, rfl, List.getElem?_eq_some_iff.mpr ⟨inside, by simpa using here⟩⟩

/-- A slice with one further entry holds the entries at those positions. -/
theorem mem_slice_append :
    rank ∈ (ranks.drop start).take size ++ ranks[extra]?.toList ↔
      ∃ j, ranks[j]? = some rank ∧ (start ≤ j ∧ j < start + size ∨ j = extra) := by
  rw [mem_append, mem_iff_getElem?, Option.mem_toList]
  constructor
  · rintro (⟨i, here⟩ | here)
    · rw [getElem?_take] at here
      split at here
      · next small =>
        rw [getElem?_drop] at here
        exact ⟨start + i, here, .inl (by omega)⟩
      · simp at here
    · exact ⟨extra, here, .inr rfl⟩
  · rintro ⟨j, here, ⟨low, high⟩ | rfl⟩
    · refine .inl ⟨j - start, ?_⟩
      rw [getElem?_take, if_pos (by omega), getElem?_drop]
      rw [show start + (j - start) = j by omega]
      exact here
    · exact .inr here

/-- A slice and an entry behind it name no rank twice. -/
theorem nodup_slice_append (nodup : ranks.Nodup) (behind : start + size ≤ extra) :
    ((ranks.drop start).take size ++ ranks[extra]?.toList).Nodup := by
  rw [nodup_append]
  refine ⟨(nodup.sublist (drop_sublist _ _)).sublist (take_sublist _ _), ?_, ?_⟩
  · cases ranks[extra]? <;> simp
  · intro a inside b last same
    subst same
    obtain ⟨j, here, place⟩ :=
      mem_slice_append.mp (mem_append_left ranks[ranks.length]?.toList inside)
    rw [Option.mem_toList] at last
    obtain ⟨hj, atJ⟩ := List.getElem?_eq_some_iff.mp here
    obtain ⟨he, atE⟩ := List.getElem?_eq_some_iff.mp last
    have same : j = extra := (nodup.getElem_inj_iff).mp (atJ.trans atE.symm)
    omega

/-- `num_dst_per_sender`: the receivers every sender of an expert serves at least. -/
def share (p : Placement) (expert : Int) : Nat :=
  (p.ranksToRecv expert).length / (p.ranksToSend expert).length

/-- What a sender computes: the receivers that the pairing gives to its position. -/
theorem recvRanks_spec (holds : a ∈ p.ranksToSend expert) :
    ∃ i served, (p.ranksToSend expert)[i]? = some a ∧
      p.recvRanks expert a = .ok served ∧ served.Nodup ∧
      ∀ b, b ∈ served ↔ ∃ j, (p.ranksToRecv expert)[j]? = some b ∧
        senderOf (p.ranksToSend expert).length (p.ranksToRecv expert).length j = i := by
  obtain ⟨i, index, here⟩ := indexOf_of_mem holds
  obtain ⟨inside, -⟩ := List.getElem?_eq_some_iff.mp here
  have nonempty : (p.ranksToSend expert).length ≠ 0 := by omega
  refine ⟨i, ((p.ranksToRecv expert).drop (i * p.share expert)).take (p.share expert) ++
    (p.ranksToRecv expert)[(p.ranksToSend expert).length *
      p.share expert + i]?.toList, here, ?_, ?_, ?_⟩
  · simp only [recvRanks, require, nonempty, index, ne_eq, not_false_eq_true, if_true]
    rfl
  · apply nodup_slice_append (p.nodup_ranksToRecv expert)
    rw [← Nat.succ_mul]
    exact Nat.le_trans (Nat.mul_le_mul_right _ inside) (Nat.le_add_right _ _)
  · intro b
    rw [mem_slice_append]
    apply exists_congr
    intro j
    rw [senderOf_eq_iff inside, share]

/-- What a receiver computes: the sender that the pairing gives to its position. -/
theorem sourceRank_spec (needs : b ∈ p.ranksToRecv expert) (held : p.ranksToSend expert ≠ []) :
    ∃ j a, (p.ranksToRecv expert)[j]? = some b ∧ p.sourceRank expert b = .ok a ∧
      (p.ranksToSend expert)[senderOf (p.ranksToSend expert).length
        (p.ranksToRecv expert).length j]? = some a := by
  obtain ⟨j, index, here⟩ := indexOf_of_mem needs
  obtain ⟨inside, -⟩ := List.getElem?_eq_some_iff.mp here
  have positive : 0 < (p.ranksToSend expert).length := length_pos_iff.mpr held
  have small := senderOf_lt positive inside
  refine ⟨j, _, here, ?_, getElem?_eq_getElem small⟩
  have nonempty : (p.ranksToSend expert).length ≠ 0 := by omega
  have read := getElem?_eq_getElem small
  simp only [sourceRank, require, nonempty, index, ne_eq, not_false_eq_true, if_true]
  unfold senderOf at read ⊢
  simp only [Bind.bind, Except.bind]
  split
  · next low => simp only [low, if_true] at read ⊢; rw [orRaise_eq_ok]; exact read
  · next high => simp only [high, if_false] at read ⊢; rw [orRaise_eq_ok]; exact read

/-- A sender serves a receiver exactly when the receiver expects it. -/
theorem mem_recvRanks_iff {served : List Nat} (holds : a ∈ p.ranksToSend expert)
    (computed : p.recvRanks expert a = .ok served) :
    b ∈ served ↔ b ∈ p.ranksToRecv expert ∧ p.sourceRank expert b = .ok a := by
  -- Both lists have no repetition, so ranks and positions determine each other.
  obtain ⟨i, served', place, same, -, members⟩ := recvRanks_spec holds
  rw [computed, Except.ok.injEq] at same
  subst same
  have held : p.ranksToSend expert ≠ [] := ne_nil_of_mem holds
  have distinct : (p.ranksToSend expert).Nodup :=
    (ranksWithExpert_ascending _ _ _).imp fun below => Nat.ne_of_lt below
  rw [members b]
  constructor
  · rintro ⟨j, here, pairing⟩
    have needs := mem_of_getElem? here
    obtain ⟨j', a', here', source, place'⟩ := sourceRank_spec needs held
    have same : j = j' := (getElem?_inj (List.getElem?_eq_some_iff.mp here).1
      (p.nodup_ranksToRecv expert)).mp (here.trans here'.symm)
    subst same
    rw [pairing, place] at place'
    exact ⟨needs, by rw [source, Option.some.inj place']⟩
  · rintro ⟨needs, source⟩
    obtain ⟨j, a', here, source', place'⟩ := sourceRank_spec needs held
    rw [source, Except.ok.injEq] at source'
    subst source'
    refine ⟨j, here, ?_⟩
    exact (getElem?_inj (List.getElem?_eq_some_iff.mp place').1 distinct).mp
      (place'.trans place.symm)

/-! ### The local copies -/

/-- A slot that step 1 has filled holds, in the buffer, a row of its new expert. -/
structure CopiedFrom (p : Placement) (epRank : Nat) (weights : Weights p.weightCount W)
    (st : LocalCopies p.weightCount W) : Prop where
  unchanged : ∀ dst, p.isUnchanged epRank dst = true → st.isReceivedLocally dst = true
  filled : ∀ dst, st.isReceivedLocally dst = true → p.isUnchanged epRank dst = false →
    p.newExpert epRank dst ≠ -1 ∧ ∃ src < p.numLocalExperts,
      p.oldExpert epRank src = p.newExpert epRank dst ∧ ∀ k, st.buffer k dst = weights k src

/-- A turn of step 1 fills its slot if it can, and empties none. -/
theorem copyLocal_spec {weights : Weights p.weightCount W}
    {st : LocalCopies p.weightCount W} (good : p.CopiedFrom epRank weights st)
    (inside : src < p.numLocalExperts) (dst : Nat) :
    p.CopiedFrom epRank weights (p.copyLocal epRank weights src st dst) ∧
      (∀ d, st.isReceivedLocally d = true →
        (p.copyLocal epRank weights src st dst).isReceivedLocally d = true) ∧
      (p.oldExpert epRank src = p.newExpert epRank dst → p.newExpert epRank dst ≠ -1 →
        (p.copyLocal epRank weights src st dst).isReceivedLocally dst = true) := by
  unfold copyLocal
  by_cases received : st.isReceivedLocally dst = true
  · simp only [received, if_true]
    exact ⟨good, fun _ known => known, fun _ _ => trivial⟩
  simp only [received, Bool.false_eq_true, if_false]
  by_cases empty : p.oldExpert epRank src = -1 ∨ p.newExpert epRank dst = -1
  · simp only [empty, if_true]
    refine ⟨good, fun _ known => known, fun same proper => ?_⟩
    rcases empty with empty | empty
    · exact absurd (same ▸ empty) proper
    · exact absurd empty proper
  simp only [empty, if_false]
  by_cases same : p.oldExpert epRank src = p.newExpert epRank dst
  · simp only [same, if_true]
    refine ⟨⟨?_, ?_⟩, ?_, ?_⟩
    · intro d kept
      by_cases here : d = dst
      · simp [here]
      · simpa [here] using good.unchanged d kept
    · intro d known changed
      by_cases here : d = dst
      · subst here
        exact ⟨fun none => empty (.inr none), src, inside, same, fun k => by simp⟩
      · simp only [ne_eq, here, not_false_eq_true, update_of_ne] at known ⊢
        exact good.filled d known changed
    · intro d known
      by_cases here : d = dst
      · simp [here]
      · simpa [here] using known
    · intro _ _
      simp
  · simp only [same, if_false]
    exact ⟨good, fun _ known => known, fun equal => False.elim equal⟩

/-- The loops of step 1 offer slots to slots, pair by pair; what a turn fills, the later turns keep. -/
theorem foldl_copyLocal {weights : Weights p.weightCount W} (pairs : List (Nat × Nat))
    (inside : ∀ x ∈ pairs, x.1 < p.numLocalExperts)
    {st : LocalCopies p.weightCount W} (good : p.CopiedFrom epRank weights st) :
    p.CopiedFrom epRank weights (pairs.foldl (fun st x => p.copyLocal epRank weights x.1 st x.2) st) ∧
      (∀ d, st.isReceivedLocally d = true →
        (pairs.foldl (fun st x => p.copyLocal epRank weights x.1 st x.2) st).isReceivedLocally d = true) ∧
      ∀ x ∈ pairs, p.oldExpert epRank x.1 = p.newExpert epRank x.2 → p.newExpert epRank x.2 ≠ -1 →
        (pairs.foldl (fun st x => p.copyLocal epRank weights x.1 st x.2) st).isReceivedLocally x.2
          = true := by
  induction pairs generalizing st with
  | nil => exact ⟨good, fun _ known => known, fun _ none => by simp at none⟩
  | cons x rest ih =>
    obtain ⟨next, kept, fills⟩ := copyLocal_spec good (inside x mem_cons_self) x.2
    obtain ⟨last, keptLater, fillsLater⟩ :=
      ih (fun y member => inside y (mem_cons_of_mem _ member)) next
    refine ⟨last, fun d known => keptLater d (kept d known), ?_⟩
    intro y member same proper
    rcases mem_cons.mp member with rfl | later
    · exact keptLater _ (fills same proper)
    · exact fillsLater y later same proper

/-- Step 1 fills every slot whose new expert the rank held. -/
theorem copyLocally_spec (p : Placement) (epRank : Nat) (weights buffer : Weights p.weightCount W) :
    p.CopiedFrom epRank weights (p.copyLocally epRank weights buffer) ∧
      ∀ src < p.numLocalExperts, ∀ dst < p.numLocalExperts,
        p.oldExpert epRank src = p.newExpert epRank dst → p.newExpert epRank dst ≠ -1 →
          (p.copyLocally epRank weights buffer).isReceivedLocally dst = true := by
  have start : p.CopiedFrom epRank weights
      { isReceivedLocally := p.isUnchanged epRank, buffer := buffer } :=
    ⟨fun _ same => same, fun dst same changed => by simp [changed] at same⟩
  obtain ⟨good, -, fills⟩ := foldl_copyLocal ((List.range p.numLocalExperts).flatMap fun src =>
    (List.range p.numLocalExperts).map (src, ·)) (by grind) start
  rw [foldl_flatMap] at good fills
  simp only [foldl_map] at good fills
  exact ⟨good, fun src srcSmall dst small => fills (src, dst) (by simp [srcSmall, small])⟩

/-! ### The slot that stands for an expert -/

/-- An expert stands in the dictionary by one of its own slots, and every slot's expert does. -/
theorem expertLocs_spec (passed : Nat → Bool) (expertOf : Nat → Int) (slots : List Nat) :
    (∀ e slot, (expertLocs passed expertOf slots).get? e = some slot →
      slot ∈ slots ∧ passed slot = false ∧ expertOf slot = e ∧ e ≠ -1) ∧
      ∀ slot ∈ slots, passed slot = false → expertOf slot ≠ -1 →
        expertOf slot ∈ (expertLocs passed expertOf slots).keys := by
  -- The induction takes the slots from the end, where the loop adds them.
  unfold expertLocs
  induction slots using List.reverseRecOn with
  | nil => simp
  | append_singleton front slot ih =>
    obtain ⟨stands, covers⟩ := ih
    simp only [foldl_append, foldl_cons, foldl_nil]
    generalize front.foldl _ PyDict.empty = locs at stands covers ⊢
    by_cases skip : passed slot = true ∨ expertOf slot = -1 ∨ expertOf slot ∈ locs.keys
    · simp only [skip, if_true]
      constructor
      · intro e s found
        obtain ⟨member, rest⟩ := stands e s found
        exact ⟨mem_append_left _ member, rest⟩
      · intro s member kept proper
        simp only [mem_append, mem_singleton] at member
        rcases member with inner | rfl
        · exact covers s inner kept proper
        · rcases skip with dropped | empty | known
          · simp [kept] at dropped
          · exact absurd empty proper
          · exact known
    · simp only [skip, if_false]
      simp only [not_or, Bool.not_eq_true] at skip
      constructor
      · intro e s found
        rw [PyDict.get?_set] at found
        split at found
        · next same =>
          cases found
          exact ⟨by simp, skip.1, same.symm, same ▸ skip.2.1⟩
        · obtain ⟨member, rest⟩ := stands e s found
          exact ⟨mem_append_left _ member, rest⟩
      · intro s member kept proper
        rw [PyDict.mem_keys_set]
        simp only [mem_append, mem_singleton] at member
        rcases member with inner | rfl
        · exact .inr (covers s inner kept proper)
        · exact .inl rfl

/-- Sorting keeps the items. -/
theorem mem_sortedItems : item ∈ sortedItems locs ↔ locs.get? item.1 = some item.2 := by
  rw [sortedItems, mem_mergeSort, PyDict.get?_eq_some_iff]

/-- The items come by strictly ascending expert. -/
theorem sortedItems_ascending (locs : PyDict Int Nat) :
    (sortedItems locs).Pairwise fun a b => a.1 < b.1 := by
  -- The order of pairs sorts by expert first, and no expert occurs twice.
  have sorted : (sortedItems locs).Pairwise fun a b => pairLe a b = true := by
    apply pairwise_mergeSort
    · intro a b c first second
      simp only [pairLe, decide_eq_true_eq] at first second ⊢
      omega
    · intro a b
      simp only [pairLe, Bool.or_eq_true, decide_eq_true_eq]
      omega
  have distinct : ((sortedItems locs).map Prod.fst).Nodup :=
    ((mergeSort_perm locs.items pairLe).map Prod.fst).nodup_iff.mpr locs.nodup
  rw [List.Nodup, pairwise_map] at distinct
  apply (sorted.and distinct).imp
  intro a b both
  simp only [pairLe, decide_eq_true_eq] at both
  omega

/-! ### Sends and receives match -/

variable {weights buffer : Nat → Weights p.weightCount W}

/-- The slots that step 1 leaves ready on a rank of a shuffle. -/
abbrev readyLocally (p : Placement) (weights buffer : Nat → Weights p.weightCount W) (r : Nat) :
    Nat → Bool :=
  (p.copyLocally r (weights r) (buffer r)).isReceivedLocally

/-- The slots a rank of a shuffle receives into. -/
abbrev recvLocs (p : Placement) (weights buffer : Nat → Weights p.weightCount W) (r : Nat) :
    PyDict Int Nat :=
  p.expertsRecvLoc r (p.readyLocally weights buffer r)

/-- An expert that is to be placed somewhere can be sent by someone. -/
theorem ranksToSend_ne_nil (known : ∀ e ∈ p.newIndices, e ≠ -1 → e ∈ p.oldIndices)
    (holds : p.newExpert r slot = e) (proper : e ≠ -1) : p.ranksToSend e ≠ [] := by
  have placed : e ∈ p.newIndices := by
    rw [newExpert, getD_eq_getElem?_getD] at holds
    cases found : p.newIndices[idxLocalToGlobal slot p.numLocalExperts r]? with
    | none =>
      rw [found] at holds
      exact absurd holds.symm proper
    | some =>
      rw [found] at holds
      exact holds ▸ mem_of_getElem? found
  obtain ⟨i, here⟩ := mem_iff_getElem?.mp (known _ placed proper)
  have member := ((foldl_noteRank p.numLocalExperts p.oldIndices 0
    List.Pairwise.nil (by simp)).2 ((0 + i) / p.numLocalExperts)).mpr (.inr ⟨i, here, rfl⟩)
  exact ne_nil_of_mem member

/-- The slots step 3 receives into: their experts were nowhere on the rank. -/
theorem get?_recvLocs (inside : r < p.numRanks)
    (found : (p.recvLocs weights buffer r).get? e = some slot) :
    slot < p.numLocalExperts ∧ p.readyLocally weights buffer r slot = false ∧
      p.newExpert r slot = e ∧ e ≠ -1 ∧ r ∈ p.ranksToRecv e := by
  obtain ⟨member, missing, holds, proper⟩ := (expertLocs_spec _ _ _).1 e slot found
  have small := mem_range.mp member
  refine ⟨small, missing, holds, proper, (mem_ranksToRecv proper).mpr ⟨?_, ?_⟩⟩
  · exact ⟨inside, slot, small, holds⟩
  · intro sender
    obtain ⟨-, src, srcSmall, held⟩ := (mem_ranksToSend proper).mp sender
    have received := (p.copyLocally_spec r (weights r) (buffer r)).2 src srcSmall slot small
      (held.trans holds.symm) (holds ▸ proper)
    simp [missing] at received

/-- The expert of a slot that step 1 leaves open has a slot in step 3. -/
theorem newExpert_received (p : Placement) (weights buffer : Nat → Weights p.weightCount W)
    (small : slot < p.numLocalExperts) (missing : p.readyLocally weights buffer r slot = false)
    (proper : p.newExpert r slot ≠ -1) :
    ∃ dst, (p.recvLocs weights buffer r).get? (p.newExpert r slot) = some dst :=
  PyDict.mem_keys_iff.mp ((expertLocs_spec _ _ _).2 slot (mem_range.mpr small) missing proper)

/-- A rank that has to receive an expert has a slot for it in step 3. -/
theorem mem_keys_recvLocs (proper : e ≠ -1) (needs : r ∈ p.ranksToRecv e) :
    e ∈ (p.recvLocs weights buffer r).keys := by
  obtain ⟨⟨inside, slot, small, holds⟩, absent⟩ := (mem_ranksToRecv proper).mp needs
  have missing : p.readyLocally weights buffer r slot = false := by
    rw [← Bool.not_eq_true]
    intro received
    apply absent
    rw [mem_ranksToSend proper]
    cases same : p.isUnchanged r slot with
    | true =>
      simp only [isUnchanged, decide_eq_true_eq] at same
      exact ⟨inside, slot, small, same.trans holds⟩
    | false =>
      obtain ⟨-, src, srcSmall, held, -⟩ :=
        (p.copyLocally_spec r (weights r) (buffer r)).1.filled slot received same
      exact ⟨inside, src, srcSmall, held.trans holds⟩
  rw [PyDict.mem_keys_iff, ← holds]
  exact p.newExpert_received weights buffer small missing (holds ▸ proper)

/-- The slots step 2 sends from. -/
theorem get?_expertsSendLoc (inside : r < p.numRanks)
    (found : (p.expertsSendLoc r).get? e = some slot) :
    slot < p.numLocalExperts ∧ p.oldExpert r slot = e ∧ e ≠ -1 ∧
      r ∈ p.ranksToSend e := by
  obtain ⟨member, -, holds, proper⟩ := (expertLocs_spec _ _ _).1 e slot found
  have small := mem_range.mp member
  exact ⟨small, holds, proper, (mem_ranksToSend proper).mpr ⟨inside, slot, small, holds⟩⟩

/-- A rank that can send an expert has a slot for it in step 2. -/
theorem mem_keys_expertsSendLoc (proper : e ≠ -1)
    (holds : r ∈ p.ranksToSend e) : e ∈ (p.expertsSendLoc r).keys := by
  obtain ⟨-, slot, small, held⟩ := (mem_ranksToSend proper).mp holds
  rw [← held]
  exact (expertLocs_spec _ _ _).2 slot (mem_range.mpr small) rfl (held ▸ proper)

/-- A receiver's source can send what it is asked for. -/
theorem sourceRank_mem (needs : b ∈ p.ranksToRecv e) (held : p.ranksToSend e ≠ [])
    (source : p.sourceRank e b = .ok a) : a ∈ p.ranksToSend e := by
  obtain ⟨j, a', -, computed, place⟩ := sourceRank_spec needs held
  rw [source, Except.ok.injEq] at computed
  subst computed
  exact mem_of_getElem? place

/-- Whether a rank is to receive an expert from another. -/
def Transfers (p : Placement) (a b : Nat) (e : Int) : Prop :=
  b ∈ p.ranksToRecv e ∧ p.sourceRank e b = .ok a

instance (p : Placement) (a b : Nat) (e : Int) : Decidable (p.Transfers a b e) :=
  inferInstanceAs (Decidable (_ ∧ _))

/-- The transfers of one list of items, tensor by tensor. -/
def transfersOf (p : Placement) {α : Type} (a b : Nat) (row : Fin p.weightCount → Nat → α)
    (items : List (Int × Nat)) : List (Int × Fin p.weightCount × α) :=
  (items.filter fun item => p.Transfers a b item.1).flatMap fun item =>
    (List.finRange p.weightCount).map fun k => (item.1, k, row k item.2)

/-- The sends of one expert to one rank. -/
theorem sendsTo_sendExpert {weights : Weights p.weightCount W} {group : List (P2POp p.weightCount W)}
    (holds : a ∈ p.ranksToSend item.1)
    (sent : p.sendExpert a weights item = .ok group) :
    P2POp.sendsTo b group = (if p.Transfers a b item.1 then
      (List.finRange p.weightCount).map fun k => (item.1, k, weights k item.2) else []) ∧
      ∀ src, P2POp.recvsFrom src group = [] := by
  -- The ranks served are distinct, so a receiver appears at most once among them.
  obtain ⟨-, served, -, computed, nodup, -⟩ := recvRanks_spec holds
  simp only [sendExpert, computed, Bind.bind, Except.bind, Pure.pure, Except.pure,
    Except.ok.injEq] at sent
  subst sent
  have members : b ∈ served ↔ p.Transfers a b item.1 := mem_recvRanks_iff holds computed
  constructor
  · simp only [← members]
    clear members computed
    induction served with
    | nil => simp [P2POp.sendsTo]
    | cons dst rest ih =>
      rw [nodup_cons] at nodup
      have later := ih nodup.2
      simp only [P2POp.sendsTo, flatMap_cons, filterMap_append, filterMap_map]
        at later ⊢
      rw [later]
      by_cases same : dst = b
      · subst same
        simp [nodup.1]
      · have other : b ≠ dst := fun h => same h.symm
        simp [same, other]
  · intro src
    simp [P2POp.recvsFrom, filterMap_flatMap, filterMap_map]

/-- The receives of one expert from one rank. -/
theorem recvsFrom_recvExpert {group : List (P2POp p.weightCount W)} (needs : b ∈ p.ranksToRecv item.1)
    (received : p.recvExpert b item = .ok group) :
    P2POp.recvsFrom a group = (if p.Transfers a b item.1 then
      (List.finRange p.weightCount).map fun k => (item.1, k, item.2) else []) ∧
      ∀ dst, P2POp.sendsTo dst group = [] := by
  simp only [recvExpert] at received
  obtain ⟨src, source, built⟩ := bind_eq_ok.mp received
  rw [pure_eq_ok] at built
  subst built
  simp only [Transfers, needs, source, true_and, Except.ok.injEq]
  constructor
  · by_cases same : src = a <;> simp [P2POp.recvsFrom, filterMap_map, same]
  · intro dst
    simp [P2POp.sendsTo, filterMap_map]

variable {items xs : List α} {ys : List β}

/-- The part of a loop's operations that one view selects, item by item. -/
theorem filterMap_flatten_of_mapM {f : α → Except Err (List β)}
    {groups : List (List β)} (ran : items.mapM f = .ok groups) {view : β → Option γ}
    {c : α → Prop} [DecidablePred c] {g : α → List γ}
    (each : ∀ x ∈ items, ∀ group, f x = .ok group → group.filterMap view = if c x then g x else []) :
    groups.flatten.filterMap view = (items.filter fun x => c x).flatMap g := by
  rw [mapM_eq_ok] at ran
  induction ran with
  | nil => rfl
  | @cons x group items groups first _ ih =>
    have later := ih fun x member => each x (mem_cons_of_mem _ member)
    rw [flatten_cons, filterMap_append, later, each x mem_cons_self group first]
    by_cases chosen : c x <;> simp [chosen]

/-- Steps 2 and 3 end normally, and their operations between two ranks are its transfers. -/
theorem rankOps_spec (p : Placement) (known : ∀ e ∈ p.newIndices, e ≠ -1 → e ∈ p.oldIndices)
    (weights buffer : Nat → Weights p.weightCount W) (inside : r < p.numRanks) :
    ∃ ops, p.rankOps weights buffer r = .ok ops ∧
      (∀ b, P2POp.sendsTo b ops =
        p.transfersOf r b (weights r) (sortedItems (p.expertsSendLoc r))) ∧
      ∀ a, P2POp.recvsFrom a ops =
        p.transfersOf a r (fun _ slot => slot) (sortedItems (p.recvLocs weights buffer r)) := by
  have sender : ∀ item ∈ sortedItems (p.expertsSendLoc r),
      r ∈ p.ranksToSend item.1 := fun item member =>
    (get?_expertsSendLoc inside (mem_sortedItems.mp member)).2.2.2
  have receiver : ∀ item ∈ sortedItems (p.recvLocs weights buffer r),
      r ∈ p.ranksToRecv item.1 ∧ p.ranksToSend item.1 ≠ [] := by
    intro item member
    obtain ⟨-, -, holds, proper, needs⟩ := get?_recvLocs inside (mem_sortedItems.mp member)
    exact ⟨needs, ranksToSend_ne_nil known holds proper⟩
  obtain ⟨sends, sent, -⟩ := mapM_ok (f := p.sendExpert r (weights r)) (Q := fun _ _ => True)
    fun item member => by
    obtain ⟨-, served, -, computed, -⟩ := recvRanks_spec (sender item member)
    exact ⟨_, by rw [sendExpert, computed]; rfl, trivial⟩
  obtain ⟨recvs, received, -⟩ := mapM_ok (f := p.recvExpert (W := W) r) (Q := fun _ _ => True)
    fun item member => by
    obtain ⟨-, a, -, computed, -⟩ :=
      sourceRank_spec (receiver item member).1 (receiver item member).2
    exact ⟨_, by rw [recvExpert, computed]; rfl, trivial⟩
  refine ⟨sends.flatten ++ recvs.flatten, ?_, ?_, ?_⟩
  · rw [rankOps, p2pOps, sent, received]
    rfl
  · intro b
    have first : P2POp.sendsTo b sends.flatten = _ := filterMap_flatten_of_mapM sent
      fun item member group ran => (sendsTo_sendExpert (sender item member) ran).1
    have second : P2POp.sendsTo b recvs.flatten = _ := filterMap_flatten_of_mapM
      (c := fun _ => False) (g := fun _ => []) received fun item member group ran => by
        rw [if_neg id]; exact (recvsFrom_recvExpert (a := 0) (receiver item member).1 ran).2 b
    rw [P2POp.sendsTo, filterMap_append]
    rw [P2POp.sendsTo] at first second
    rw [first, second]
    simp [transfersOf]
  · intro a
    have first : P2POp.recvsFrom a sends.flatten = _ := filterMap_flatten_of_mapM
      (c := fun _ => False) (g := fun _ => []) sent fun item member group ran => by
        rw [if_neg id]; exact (sendsTo_sendExpert (b := 0) (sender item member) ran).2 a
    have second : P2POp.recvsFrom a recvs.flatten = _ := filterMap_flatten_of_mapM received
      fun item member group ran => (recvsFrom_recvExpert (receiver item member).1 ran).1
    rw [P2POp.recvsFrom, filterMap_append]
    rw [P2POp.recvsFrom] at first second
    rw [first, second]
    simp [transfersOf]

/-- The experts of a list of transfers, in order. -/
def transferred (p : Placement) (a b : Nat) (items : List (Int × Nat)) : List Int :=
  (items.filter fun item => p.Transfers a b item.1).map Prod.fst

/-- What transfers are for depends on their experts only. -/
theorem map_label_transfersOf (p : Placement) (a b : Nat)
    (row : Fin p.weightCount → Nat → α) (items : List (Int × Nat)) :
    (p.transfersOf a b row items).map P2POp.label =
      (p.transferred a b items).flatMap fun e => (List.finRange p.weightCount).map (e, ·) := by
  simp [transfersOf, transferred, map_flatMap, flatMap_map, P2POp.label, comp_def]

/-- Transfers go by strictly ascending expert. -/
theorem transferred_ascending (p : Placement) (a b : Nat) (locs : PyDict Int Nat) :
    (p.transferred a b (sortedItems locs)).Pairwise (· < ·) := by
  rw [transferred, pairwise_map]
  exact (sortedItems_ascending locs).filter _

/-- The experts transferred are those of the dictionary that the two ranks agree on. -/
theorem mem_transferred :
    e ∈ p.transferred a b (sortedItems locs) ↔ e ∈ locs.keys ∧ p.Transfers a b e := by
  simp only [transferred, mem_map, mem_filter, decide_eq_true_eq, PyDict.mem_keys_iff]
  constructor
  · rintro ⟨item, ⟨member, chosen⟩, rfl⟩
    exact ⟨⟨item.2, mem_sortedItems.mp member⟩, chosen⟩
  · rintro ⟨⟨slot, found⟩, chosen⟩
    exact ⟨(e, slot), ⟨mem_sortedItems.mpr found, chosen⟩, rfl⟩

/-- What one rank sends another is what the other receives from it. -/
theorem transferred_match (p : Placement) (known : ∀ e ∈ p.newIndices, e ≠ -1 → e ∈ p.oldIndices)
    (weights buffer : Nat → Weights p.weightCount W) (atA : a < p.numRanks)
    (atB : b < p.numRanks) :
    p.transferred a b (sortedItems (p.expertsSendLoc a)) =
      p.transferred a b (sortedItems (p.recvLocs weights buffer b)) := by
  -- Two ascending lists with the same members are the same list.
  have members : ∀ e, e ∈ p.transferred a b (sortedItems (p.expertsSendLoc a)) ↔
      e ∈ p.transferred a b (sortedItems (p.recvLocs weights buffer b)) := by
    intro e
    rw [mem_transferred, mem_transferred]
    apply and_congr_left
    intro moved
    constructor
    · intro sent
      obtain ⟨slot, found⟩ := PyDict.mem_keys_iff.mp sent
      obtain ⟨-, -, proper, -⟩ := get?_expertsSendLoc atA found
      exact mem_keys_recvLocs proper moved.1
    · intro awaited
      obtain ⟨slot, found⟩ := PyDict.mem_keys_iff.mp awaited
      obtain ⟨-, -, holds, proper, needs⟩ := get?_recvLocs atB found
      have held := ranksToSend_ne_nil known holds proper
      exact mem_keys_expertsSendLoc proper (sourceRank_mem needs held moved.2)
  have first := p.transferred_ascending a b (p.expertsSendLoc a)
  have second := p.transferred_ascending a b (p.recvLocs weights buffer b)
  apply List.Perm.eq_of_pairwise _ first second
  · rw [perm_ext_iff_of_nodup (first.imp fun below => Int.ne_of_lt below)
      (second.imp fun below => Int.ne_of_lt below)]
    exact members
  · intro x y _ _ below above
    omega

/-! ### Arrivals and the copy back -/

/-- Lists that agree under two maps agree entry by entry. -/
theorem label_eq_of_mem_zip {f : α → γ} {g : β → γ}
    (same : xs.map f = ys.map g) {x : α} {y : β} (paired : (x, y) ∈ xs.zip ys) : f x = g y := by
  obtain ⟨i, here⟩ := mem_iff_getElem?.mp paired
  rw [getElem?_zip_eq_some] at here
  have atI : (xs.map f)[i]? = (ys.map g)[i]? := by rw [same]
  simpa [getElem?_map, here.1, here.2] using atI

/-- Every entry of a list is paired with one of a list as long. -/
theorem exists_mem_zip (same : xs.length = ys.length)
    {x : α} (member : x ∈ xs) : ∃ y, (x, y) ∈ xs.zip ys := by
  rw [← map_fst_zip (Nat.le_of_eq same)] at member
  obtain ⟨⟨x', y⟩, paired, rfl⟩ := mem_map.mp member
  exact ⟨y, paired⟩

/-- A buffer row is the row that arrived for it, or none arrived. -/
theorem foldl_land {k : Fin count} (row : W)
    (arrivals : List ((Int × Fin count × Nat) × (Int × Fin count × W)))
    (buffer : Weights count W)
    (only : ∀ x ∈ arrivals, x.1.2 = (k, slot) → x.2.2.2 = row) :
    (arrivals.foldl land buffer k slot = row ∧ ∃ x ∈ arrivals, x.1.2 = (k, slot)) ∨
      (arrivals.foldl land buffer k slot = buffer k slot ∧ ∀ x ∈ arrivals, x.1.2 ≠ (k, slot)) := by
  -- The induction takes the arrivals from the end, where the last one decides.
  induction arrivals using List.reverseRecOn with
  | nil => exact .inr ⟨rfl, by simp⟩
  | append_singleton front last ih =>
    simp only [foldl_append, foldl_cons, foldl_nil]
    have before := ih fun x member => only x (mem_append_left _ member)
    by_cases here : last.1.2 = (k, slot)
    · refine .inl ⟨?_, last, by simp, here⟩
      have value := only last (by simp) here
      simp only [land, here, update_self]
      exact value
    · have kept : land (front.foldl land buffer) last k slot = front.foldl land buffer k slot := by
        unfold land
        by_cases tensor : k = last.1.2.1
        · subst tensor
          have other : slot ≠ last.1.2.2 := fun same => here (by rw [same])
          rw [update_self, update_of_ne other]
        · rw [update_of_ne tensor]
      rw [kept]
      rcases before with ⟨value, x, member, at_⟩ | ⟨value, none⟩
      · exact .inl ⟨value, x, mem_append_left _ member, at_⟩
      · refine .inr ⟨value, fun x member => ?_⟩
        simp only [mem_append, mem_singleton] at member
        rcases member with inner | rfl
        · exact none x inner
        · exact here

/-- Step 5 reads, for each slot, the buffer row that the source names for it. -/
theorem foldlM_copyBackSlot {received : Nat → Bool}
    (buffer : Weights p.weightCount W) {source : Nat → Option Nat} (slots : List Nat)
    (each : ∀ dst ∈ slots, p.backSource r received dst = .ok (source dst))
    (weights : Weights p.weightCount W) :
    ∃ final, slots.foldlM (p.copyBackSlot r received buffer) weights = .ok final ∧
      ∀ k, ∀ slot ∈ slots, final k slot = (source slot).elim (weights k slot) (buffer k) := by
  -- Beyond the statement, slots that no turn names stay as they are.
  suffices strong : ∃ final,
      slots.foldlM (p.copyBackSlot r received buffer) weights = .ok final ∧
        ∀ k slot, final k slot = if slot ∈ slots then
          (source slot).elim (weights k slot) (buffer k) else weights k slot by
    obtain ⟨final, ran, rows⟩ := strong
    exact ⟨final, ran, fun k slot member => by rw [rows, if_pos member]⟩
  induction slots generalizing weights with
  | nil => exact ⟨weights, rfl, fun _ _ => by simp⟩
  | cons dst rest ih =>
    have later := ih fun d member => each d (mem_cons_of_mem _ member)
    have first : ∃ next, p.copyBackSlot r received buffer weights dst = .ok next ∧
        ∀ k slot, next k slot = if slot = dst then
          (source dst).elim (weights k dst) (buffer k) else weights k slot := by
      rw [copyBackSlot, each dst mem_cons_self]
      cases named : source dst with
      | none =>
        refine ⟨weights, rfl, fun k slot => ?_⟩
        by_cases here : slot = dst <;> simp [here]
      | some =>
        refine ⟨_, rfl, fun k slot => ?_⟩
        by_cases here : slot = dst <;> simp [here]
    obtain ⟨next, ran, rows⟩ := first
    obtain ⟨final, ranLater, rowsLater⟩ := later next
    refine ⟨final, ?_, fun k slot => ?_⟩
    · rw [foldlM_cons, ran]
      exact ranLater
    · rw [rowsLater, rows]
      by_cases here : slot = dst
      · subst here
        by_cases again : slot ∈ rest
        · cases source slot <;> simp [again]
        · simp [again]
      · simp [here]

/-! ### The new placement -/

/-- The transfers of a dictionary of slots. -/
theorem mem_transfersOf {row : Fin p.weightCount → Nat → α} {k : Fin p.weightCount}
    {v : α} : (e, k, v) ∈ p.transfersOf a b row (sortedItems locs) ↔
      p.Transfers a b e ∧ ∃ slot, locs.get? e = some slot ∧ v = row k slot := by
  simp only [transfersOf, mem_flatMap, mem_filter, mem_map, decide_eq_true_eq, Prod.mk.injEq]
  constructor
  · rintro ⟨item, ⟨member, moved⟩, k', -, rfl, rfl, rfl⟩
    exact ⟨moved, item.2, mem_sortedItems.mp member, rfl⟩
  · rintro ⟨moved, slot, found, rfl⟩
    exact ⟨(e, slot), ⟨mem_sortedItems.mpr found, moved⟩, k, mem_finRange k, rfl, rfl, rfl⟩

section Shuffle

variable {ops : Nat → List (P2POp p.weightCount W)}

/-- The operations of all ranks of a shuffle. -/
structure Shuffled (p : Placement) (weights buffer : Nat → Weights p.weightCount W)
    (ops : Nat → List (P2POp p.weightCount W)) : Prop where
  known : ∀ e ∈ p.newIndices, e ≠ -1 → e ∈ p.oldIndices
  ran : ∀ r < p.numRanks, p.rankOps weights buffer r = .ok (ops r)

namespace Shuffled

variable (run : p.Shuffled weights buffer ops)

include run

/-- The sends of one rank to another. -/
theorem sendsTo_eq (atA : a < p.numRanks) :
    P2POp.sendsTo b (ops a) =
      p.transfersOf a b (weights a) (sortedItems (p.expertsSendLoc a)) := by
  obtain ⟨ops', ran, sends, -⟩ := p.rankOps_spec run.known weights buffer atA
  rw [run.ran a atA, Except.ok.injEq] at ran
  rw [ran, sends]

/-- The receives of one rank from another. -/
theorem recvsFrom_eq (atB : b < p.numRanks) :
    P2POp.recvsFrom a (ops b) =
      p.transfersOf a b (fun _ slot => slot) (sortedItems (p.recvLocs weights buffer b)) := by
  obtain ⟨ops', ran, -, recvs⟩ := p.rankOps_spec run.known weights buffer atB
  rw [run.ran b atB, Except.ok.injEq] at ran
  rw [ran, recvs]

/-- Between two ranks, sends and receives are for the same experts and tensors, in order. -/
theorem labels_match (atA : a < p.numRanks) (atB : b < p.numRanks) :
    (P2POp.sendsTo b (ops a)).map P2POp.label = (P2POp.recvsFrom a (ops b)).map P2POp.label := by
  rw [run.sendsTo_eq atA, run.recvsFrom_eq atB, map_label_transfersOf, map_label_transfersOf,
    p.transferred_match run.known weights buffer atA atB]

/-- No operation of a rank is left without a partner. -/
theorem completes (atR : r < p.numRanks) : p.Completes ops r := by
  intro other atOther
  have inward := congrArg List.length (run.labels_match atOther atR)
  have outward := congrArg List.length (run.labels_match atR atOther)
  simp only [length_map] at inward outward
  exact ⟨inward.symm, outward⟩

/-- A row that arrives is for a slot its rank receives into, from the rank that serves it. -/
theorem of_mem_arrivals (atB : b < p.numRanks) {e' : Int} {k k' : Fin p.weightCount} {row : W}
    (arrived : ((e, k, slot), (e', k', row)) ∈ p.arrivals ops b) :
    (p.recvLocs weights buffer b).get? e = some slot ∧ ∃ a src, p.sourceRank e b = .ok a ∧
      (p.expertsSendLoc a).get? e = some src ∧ row = weights a k src := by
  obtain ⟨a, member, paired⟩ := mem_flatMap.mp arrived
  have atA := mem_range.mp member
  obtain ⟨awaited, sent⟩ := of_mem_zip paired
  have same := label_eq_of_mem_zip (run.labels_match atA atB).symm paired
  simp only [P2POp.label, Prod.mk.injEq] at same
  obtain ⟨rfl, rfl⟩ := same
  rw [run.recvsFrom_eq atB, mem_transfersOf] at awaited
  rw [run.sendsTo_eq atA, mem_transfersOf] at sent
  obtain ⟨moved, slot', found, rfl⟩ := awaited
  obtain ⟨-, src, held, rfl⟩ := sent
  exact ⟨found, a, src, moved.2, held, rfl⟩

/-- Every tensor of every expert a rank waits for arrives. -/
theorem mem_arrivals (atA : a < p.numRanks) (atB : b < p.numRanks) (moved : p.Transfers a b e)
    (found : (p.recvLocs weights buffer b).get? e = some slot) (k : Fin p.weightCount) :
    ∃ sent, ((e, k, slot), sent) ∈ p.arrivals ops b := by
  have awaited : (e, k, slot) ∈ P2POp.recvsFrom a (ops b) := by
    rw [run.recvsFrom_eq atB, mem_transfersOf]
    exact ⟨moved, slot, found, rfl⟩
  obtain ⟨sent, paired⟩ := exists_mem_zip ((run.completes atB) a atA).1 awaited
  exact ⟨sent, mem_flatMap.mpr ⟨a, mem_range.mpr atA, paired⟩⟩

/-- What a buffer slot holds after the exchange, when the rank received into it. -/
theorem landed (atB : b < p.numRanks) (found : (p.recvLocs weights buffer b).get? e = some slot)
    (start : Weights p.weightCount W) :
    ∃ a < p.numRanks, ∃ src < p.numLocalExperts, p.oldExpert a src = e ∧
      ∀ k, (p.arrivals ops b).foldl land start k slot = weights a k src := by
  -- The expert of the slot fixes the rank it comes from and the slot it had there.
  obtain ⟨-, -, holds, proper, needs⟩ := get?_recvLocs atB found
  have held := ranksToSend_ne_nil run.known holds proper
  obtain ⟨-, a, -, source, -⟩ := sourceRank_spec needs held
  have sender := sourceRank_mem needs held source
  have atA := ((mem_ranksToSend proper).mp sender).1
  obtain ⟨src, kept⟩ := PyDict.mem_keys_iff.mp (mem_keys_expertsSendLoc proper sender)
  obtain ⟨small, old, -, -⟩ := get?_expertsSendLoc atA kept
  refine ⟨a, atA, src, small, old, fun k => ?_⟩
  have only : ∀ x ∈ p.arrivals ops b, x.1.2 = (k, slot) → x.2.2.2 = weights a k src := by
    rintro ⟨⟨e', k', slot'⟩, ⟨e'', k'', row⟩⟩ arrived here
    simp only [Prod.mk.injEq] at here
    obtain ⟨rfl, rfl⟩ := here
    obtain ⟨found', a', src', source', kept', value⟩ := run.of_mem_arrivals atB arrived
    have holds' := (get?_recvLocs atB found').2.2.1
    rw [holds] at holds'
    subst holds'
    rw [source, Except.ok.injEq] at source'
    subst source'
    rw [kept, Option.some.injEq] at kept'
    rw [value, kept']
  obtain ⟨sent, arrived⟩ := run.mem_arrivals atA atB ⟨needs, source⟩ found k
  rcases foldl_land _ (p.arrivals ops b) start only with ⟨value, -⟩ | ⟨-, none⟩
  · exact value
  · exact absurd rfl (none _ arrived)

/-- The exchange leaves the slots that were filled locally. -/
theorem not_landed (atB : b < p.numRanks) (received : p.readyLocally weights buffer b slot = true)
    (start : Weights p.weightCount W) (k : Fin p.weightCount) :
    (p.arrivals ops b).foldl land start k slot = start k slot := by
  have none : ∀ x ∈ p.arrivals ops b, x.1.2 ≠ (k, slot) := by
    rintro ⟨⟨e', k', slot'⟩, ⟨e'', k'', row⟩⟩ arrived here
    simp only [Prod.mk.injEq] at here
    obtain ⟨rfl, rfl⟩ := here
    have missing := (get?_recvLocs atB (run.of_mem_arrivals atB arrived).1).2.1
    simp [received] at missing
  rcases foldl_land (start k slot) (p.arrivals ops b) start
    (fun x member here => absurd here (none x member)) with ⟨value, -⟩ | ⟨value, -⟩
  · exact value
  · exact value

end Shuffled

/-- The buffer slot step 5 uses for a slot, once every awaited expert has one. -/
def backSlot (p : Placement) (weights buffer : Nat → Weights p.weightCount W) (r dst : Nat) :
    Option Nat :=
  if p.isUnchanged r dst then none
  else if p.readyLocally weights buffer r dst then some dst
  else if p.newExpert r dst = -1 then none
  else (p.recvLocs weights buffer r).get? (p.newExpert r dst)

/-- Step 5 finds the slot of every expert it looks up. -/
theorem backSource_eq (p : Placement) (weights buffer : Nat → Weights p.weightCount W) (r : Nat)
    {dst : Nat} (small : dst < p.numLocalExperts) :
    p.backSource r (p.readyLocally weights buffer r) dst =
      .ok (p.backSlot weights buffer r dst) := by
  unfold backSource backSlot
  split
  · rfl
  split
  · rfl
  split
  · rfl
  next missing proper =>
    obtain ⟨src, found⟩ := p.newExpert_received weights buffer small (by simpa using missing) proper
    rw [found]
    rfl

end Shuffle

/-- When all ranks shuffle, each finds a partner for each of its operations, every slot ends with the rows
its new expert had, and unchanged slots keep theirs. -/
theorem shuffleLayer_delivers (p : Placement) (known : ∀ e ∈ p.newIndices, e ≠ -1 → e ∈ p.oldIndices)
    (weights buffer : Nat → Weights p.weightCount W) :
    ∃ ops, (∀ r < p.numRanks, p.rankOps weights buffer r = .ok (ops r)) ∧
      (∀ a < p.numRanks, ∀ b < p.numRanks,
        (P2POp.sendsTo b (ops a)).map P2POp.label = (P2POp.recvsFrom a (ops b)).map P2POp.label) ∧
      ∀ r < p.numRanks, ∃ final, p.shuffleLayer r (weights r) (buffer r) ops = .ok final ∧
        ∀ slot < p.numLocalExperts,
          (p.newExpert r slot ≠ -1 → ∃ rank < p.numRanks, ∃ src < p.numLocalExperts,
            p.oldExpert rank src = p.newExpert r slot ∧
              ∀ k, final k slot = weights rank k src) ∧
          (p.oldExpert r slot = p.newExpert r slot → ∀ k, final k slot = weights r k slot) := by
  have each : ∀ r, ∃ ops, r < p.numRanks → p.rankOps weights buffer r = .ok ops := by
    intro r
    by_cases inside : r < p.numRanks
    · obtain ⟨ops, ran, -⟩ := p.rankOps_spec known weights buffer inside
      exact ⟨ops, fun _ => ran⟩
    · exact ⟨[], fun atR => absurd atR inside⟩
  choose ops ran using each
  have run : p.Shuffled weights buffer ops := ⟨known, ran⟩
  refine ⟨ops, ran, fun a atA b atB => run.labels_match atA atB, fun r atR => ?_⟩
  obtain ⟨final, copied, rows⟩ := foldlM_copyBackSlot
    ((p.arrivals ops r).foldl land (p.copyLocally r (weights r) (buffer r)).buffer)
    (List.range p.numLocalExperts)
    (fun dst member => p.backSource_eq weights buffer r (mem_range.mp member)) (weights r)
  refine ⟨final, ?_, fun slot small => ?_⟩
  · have complete := run.completes atR
    simp only [shuffleLayer, exchange, require, complete, if_true]
    exact copied
  have row := fun k => rows k slot (mem_range.mpr small)
  by_cases same : p.isUnchanged r slot = true
  · -- An unchanged slot is not written.
    have kept : ∀ k, final k slot = weights r k slot := fun k => by simp [row k, backSlot, same]
    rw [isUnchanged, decide_eq_true_eq] at same
    exact ⟨fun _ => ⟨r, atR, slot, small, same, kept⟩, fun _ => kept⟩
  have changed : p.oldExpert r slot ≠ p.newExpert r slot := by
    simpa [isUnchanged] using same
  refine ⟨fun proper => ?_, fun equal => absurd equal changed⟩
  by_cases received : (p.copyLocally r (weights r) (buffer r)).isReceivedLocally slot = true
  · -- The expert was on the same rank, and nothing arrives for its slot.
    obtain ⟨-, src, srcSmall, held, filled⟩ :=
      (p.copyLocally_spec r (weights r) (buffer r)).1.filled slot received (by simpa using same)
    refine ⟨r, atR, src, srcSmall, held, fun k => ?_⟩
    rw [row k, ← filled k]
    simpa [backSlot, same, received] using run.not_landed atR received _ k
  · -- The expert comes from another rank, into the slot that stands for it.
    obtain ⟨dst, found⟩ := p.newExpert_received weights buffer small (by simpa using received) proper
    obtain ⟨a, atA, src, srcSmall, old, value⟩ := run.landed atR found
      (p.copyLocally r (weights r) (buffer r)).buffer
    refine ⟨a, atA, src, srcSmall, old, fun k => ?_⟩
    rw [row k, ← value k]
    simp [backSlot, same, received, proper, found]

/-- Two ranks of two slots swap an expert, duplicate another and leave a slot empty. -/
def swapPlacement : Placement where
  numRanks := 2
  numLocalExperts := 2
  weightCount := 1
  oldIndices := [0, 1, 2, -1]
  newIndices := [2, 1, 0, 0]
  oldLength := rfl
  newLength := rfl

/-- The shuffle of two ranks delivers its placement. -/
theorem shuffleLayer_delivers_swap :
    ∃ ops, (∀ r < 2, swapPlacement.rankOps (fun r _ slot => (r, slot)) (fun _ _ _ => (9, 9)) r
        = .ok (ops r)) ∧
      ∀ r < 2, ∃ final, swapPlacement.shuffleLayer r (fun _ slot => (r, slot))
        (fun _ _ => ((9, 9) : Nat × Nat)) ops = .ok final := by
  obtain ⟨ops, ran, -, done⟩ := shuffleLayer_delivers swapPlacement (by decide)
    (fun r _ slot => (r, slot)) (fun _ _ _ => (9, 9))
  exact ⟨ops, ran, fun r atR => (done r atR).imp fun final result => result.1⟩

end Placement

end Mimir
