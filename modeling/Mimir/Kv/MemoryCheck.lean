import Mimir.Kv.Layout

/-! The check that one request of the full length fits into the memory, and the length it suggests. -/

namespace Mimir

open Python

section Bisection

/-- The loop of a binary search for the last place that passes a test; `result` passed it before. -/
def searchLast (test : Int → Except Err Bool) : Nat → Int → Int → Int → Except Err Int
  | 0, left, right, result => if left ≤ right then .error ⟨.runtime, .loop⟩ else .ok result
  | fuel + 1, left, right, result =>
    if left ≤ right then do
      let mid := (left + right) / 2
      let passed ← test mid
      if passed then searchLast test fuel (mid + 1) right mid
      else searchLast test fuel left (mid - 1) result
    else .ok result

/-- With a test that no later place passes once one has failed, the search ends at the last place. -/
theorem searchLast_spec {test : Int → Except Err Bool} {passes : Int → Prop} [DecidablePred passes]
    {last : Int} (tested : ∀ l, test l = .ok (decide (passes l)))
    (closed : ∀ a b, a ≤ b → passes b → passes a) (fuel : Nat) :
    ∀ {left right result : Int}, (right + 1 - left).toNat ≤ fuel → 1 ≤ left → right ≤ last →
      left ≤ result + 1 → 1 ≤ result → result ≤ last → passes result →
      (∀ l, right < l → l ≤ last → ¬ passes l) →
      ∃ found, searchLast test fuel left right result = .ok found ∧ 1 ≤ found ∧ found ≤ last ∧
        passes found ∧ ∀ l, found < l → l ≤ last → ¬ passes l := by
  -- The induction is on the fuel; nothing behind `right` passes, and all before `left` do.
  induction fuel with
  | zero =>
    intro left right result short low high near first inside holds beyond
    have passed : ¬ left ≤ right := by omega
    exact ⟨result, by simp [searchLast, passed], first, inside, holds,
      fun l later within => beyond l (by omega) within⟩
  | succ fuel ih =>
    intro left right result short low high near first inside holds beyond
    unfold searchLast
    by_cases left ≤ right
    · rename_i on
      rw [if_pos on]
      simp only [tested, ok_bind]
      by_cases here : passes ((left + right) / 2)
      · rw [if_pos (by simpa using here)]
        exact ih (by omega) (by omega) high (by omega) (by omega) (by omega) here beyond
      · rw [if_neg (by simpa using here)]
        refine ih (by omega) low (by omega) near first inside holds fun l later within passed => ?_
        exact here (closed _ l (by omega) passed)
    · rename_i passed
      exact ⟨result, by rw [if_neg passed], first, inside, holds,
        fun l later within => beyond l (by omega) within⟩

end Bisection

/-- `max_memory_usage_bytes` of all layers. -/
def maxMemoryUsageBytes (limits : MemoryLimits) : List LayerSpec → Except Err Int
  | [] => .ok 0
  | spec :: rest => do
    let first ← spec.maxMemoryUsageBytes limits
    let others ← maxMemoryUsageBytes limits rest
    .ok (first + others)

/-- `fits_in_memory` of a model length. -/
def fitsInMemory (limits : MemoryLimits) (specs : List LayerSpec) (availableMemory modelLen : Int) :
    Except Err Bool := do
  let memoryNeeded ← maxMemoryUsageBytes { limits with maxModelLen := modelLen } specs
  .ok (memoryNeeded ≤ availableMemory)

/-- `estimate_max_model_len`. -/
def estimateMaxModelLen (limits : MemoryLimits) (specs : List LayerSpec) (availableMemory : Int) :
    Except Err Int := do
  let fits ← fitsInMemory limits specs availableMemory 1
  if fits then
    searchLast (fitsInMemory limits specs availableMemory) limits.maxModelLen.toNat 1
      limits.maxModelLen 1
  else .ok 0

/-- What `check_enough_kv_cache_memory` finds; the last two raise, with these numbers in the message. -/
inductive MemoryCheck where
  | enough
  | noMemory
  | tooLong (neededMemory estimatedMaxLen : Int)
  deriving DecidableEq

/-- `check_enough_kv_cache_memory`. -/
def checkEnoughKvCacheMemory (limits : MemoryLimits) (specs : List LayerSpec) (availableMemory : Int) :
    Except Err MemoryCheck :=
  if specs = [] then .ok .enough
  else if availableMemory ≤ 0 then .ok .noMemory
  else do
    let neededMemory ← maxMemoryUsageBytes limits specs
    if neededMemory > availableMemory then do
      let estimatedMaxLen ← estimateMaxModelLen limits specs availableMemory
      .ok (.tooLong neededMemory estimatedMaxLen)
    else .ok .enough

section Usage

variable {limits : MemoryLimits}

/-- The memory of a layer whose spec admits the settings grows with the model length. -/
theorem LayerSpec.usage_monotone {spec : LayerSpec} {used : Int}
    (admitted : spec.maxMemoryUsageBytes limits = .ok used) :
    ∃ usage : Int → Int, (∀ {a b}, a ≤ b → usage a ≤ usage b) ∧
      ∀ l, spec.maxMemoryUsageBytes { limits with maxModelLen := l } = .ok (usage l) := by
  obtain ⟨pageSize, page, built⟩ := bind_eq_ok.mp admitted
  have pages : ∀ blocks : Int → Int, (∀ a b, a ≤ b → blocks a ≤ blocks b) →
      ∀ {a b}, a ≤ b → blocks a * (pageSize : Int) ≤ blocks b * pageSize := fun _ grows _ _ le =>
    mul_le_mul_of_nonneg_right (grows _ _ le) (Int.natCast_nonneg _)
  cases spec with
  | mamba => exact ⟨fun _ => pageSize, fun _ => le_rfl, fun l => by rw [maxMemoryUsageBytes, page, ok_bind]⟩
  | attention fields kind =>
    cases kind with
    | full =>
      by_cases ranks : limits.dcpWorldSize > 1
      · refine ⟨_, pages (fun l => cdiv (cdiv l limits.dcpWorldSize) fields.blockSize)
          fun _ _ le => cdiv_mono (cdiv_mono le _) _, fun l => ?_⟩
        rw [maxMemoryUsageBytes, page]
        simp only [ok_bind, if_pos ranks]
      · refine ⟨_, pages (fun l => cdiv l fields.blockSize) fun _ _ le => cdiv_mono le _, fun l => ?_⟩
        rw [maxMemoryUsageBytes, page]
        simp only [ok_bind, if_neg ranks]
    | chunkedLocal chunk =>
      refine ⟨_, pages (fun l => cdiv (min (chunk + limits.maxNumBatchedTokens) l) fields.blockSize)
        fun _ _ le => cdiv_mono (min_le_min_left _ le) _, fun l => ?_⟩
      rw [maxMemoryUsageBytes, page, ok_bind]
    | slidingWindow window =>
      obtain ⟨_, single, _⟩ := bind_eq_ok.mp built
      refine ⟨_, pages (fun l =>
        cdiv (min ((window : Int) - 1 + limits.maxNumBatchedTokens) l) fields.blockSize + 1)
        fun _ _ le => Int.add_le_add_right (cdiv_mono (min_le_min_left _ le) _) 1, fun l => ?_⟩
      rw [maxMemoryUsageBytes, page, ok_bind]
      simp only [require, require_eq_ok.mp single, ↓reduceIte, ok_bind]
    | crossAttention =>
      exact ⟨fun _ => cdiv limits.maxEncoderLen fields.blockSize * pageSize, fun _ => le_rfl, fun l => by
        rw [maxMemoryUsageBytes, page, ok_bind]⟩
    | encoderOnly => exact ⟨fun _ => 0, fun _ => le_rfl, fun l => by rw [maxMemoryUsageBytes, page, ok_bind]⟩

theorem maxMemoryUsageBytes_monotone {specs : List LayerSpec} {used : Int}
    (admitted : maxMemoryUsageBytes limits specs = .ok used) :
    ∃ usage : Int → Int, (∀ {a b}, a ≤ b → usage a ≤ usage b) ∧
      ∀ l, maxMemoryUsageBytes { limits with maxModelLen := l } specs = .ok (usage l) := by
  induction specs generalizing used with
  | nil => exact ⟨fun _ => 0, fun _ => le_rfl, fun l => rfl⟩
  | cons spec rest ih =>
    obtain ⟨_, first, tail⟩ := bind_eq_ok.mp admitted
    obtain ⟨_, others, _⟩ := bind_eq_ok.mp tail
    obtain ⟨one, oneGrows, oneEq⟩ := LayerSpec.usage_monotone first
    obtain ⟨more, moreGrows, moreEq⟩ := ih others
    exact ⟨_, fun le => Int.add_le_add (oneGrows le) (moreGrows le), fun l => by
      simp only [maxMemoryUsageBytes, oneEq, moreEq, ok_bind]⟩

end Usage

/-- The memory all layers need at a model length is there. -/
def FitsAt (limits : MemoryLimits) (specs : List LayerSpec) (availableMemory l : Int) : Prop :=
  ∃ needed, maxMemoryUsageBytes { limits with maxModelLen := l } specs = .ok needed ∧
    needed ≤ availableMemory

/-- The estimate is the largest length up to the configured one that fits, or zero if there is none; the
check passes at a suggested length, and at no longer one. -/
theorem estimateMaxModelLen_exact {limits : MemoryLimits} {specs : List LayerSpec} {used : Int}
    (admitted : maxMemoryUsageBytes limits specs = .ok used) (present : specs ≠ [])
    (positive : 1 ≤ limits.maxModelLen) (availableMemory : Int) :
    ∃ found, estimateMaxModelLen limits specs availableMemory = .ok found ∧
      (found = 0 ∨ 1 ≤ found ∧ found ≤ limits.maxModelLen ∧
        FitsAt limits specs availableMemory found) ∧
      (∀ l, 1 ≤ l → found < l → l ≤ limits.maxModelLen → ¬ FitsAt limits specs availableMemory l) ∧
      (0 < availableMemory → ∀ l, 1 ≤ l → l ≤ limits.maxModelLen →
        (checkEnoughKvCacheMemory { limits with maxModelLen := l } specs availableMemory =
          .ok .enough ↔ l ≤ found)) := by
  obtain ⟨usage, grows, usageEq⟩ := maxMemoryUsageBytes_monotone admitted
  have fits : ∀ l, FitsAt limits specs availableMemory l ↔ usage l ≤ availableMemory := fun l => by
    simp [FitsAt, usageEq]
  have tested : ∀ l, fitsInMemory limits specs availableMemory l =
      .ok (decide (usage l ≤ availableMemory)) := fun l => by
    simp only [fitsInMemory, usageEq, ok_bind]
  -- Below the first length nothing is searched; otherwise the bisection finds the last length.
  obtain ⟨found, done, largest, beyond⟩ : ∃ found,
      estimateMaxModelLen limits specs availableMemory = .ok found ∧
      (found = 0 ∨ 1 ≤ found ∧ found ≤ limits.maxModelLen ∧ usage found ≤ availableMemory) ∧
      ∀ l, 1 ≤ l → found < l → l ≤ limits.maxModelLen → ¬ usage l ≤ availableMemory := by
    simp only [estimateMaxModelLen, tested, ok_bind]
    by_cases one : usage 1 ≤ availableMemory
    · obtain ⟨found, done, low, high, holds, beyond⟩ := searchLast_spec tested
        (fun a b le passed => (grows le).trans passed) limits.maxModelLen.toNat (by omega) le_rfl
        le_rfl (by omega) le_rfl positive one (fun l later within => absurd later (by omega))
      exact ⟨found, by simpa [one] using done, .inr ⟨low, high, holds⟩, fun l _ => beyond l⟩
    · exact ⟨0, by simp [one], .inl rfl, fun l low _ _ passed => one ((grows low).trans passed)⟩
  refine ⟨found, done, by simpa only [fits] using largest, by simpa only [fits] using beyond,
    fun some l low high => ?_⟩
  have checked : checkEnoughKvCacheMemory { limits with maxModelLen := l } specs availableMemory =
      .ok .enough ↔ usage l ≤ availableMemory := by
    simp only [checkEnoughKvCacheMemory, present, not_le.mpr some, usageEq, ok_bind, ↓reduceIte]
    by_cases enough : usage l ≤ availableMemory
    · simp [enough]
    · cases estimateMaxModelLen { limits with maxModelLen := l } specs availableMemory <;>
        simp [not_le.mp enough, Bind.bind, Except.bind]
  rw [checked]
  constructor
  · exact fun passed => not_lt.mp fun later => beyond l low later high passed
  · intro short
    rcases largest with rfl | ⟨_, _, holds⟩
    · omega
    · exact (grows short).trans holds

/-- Four layers with different specs, of which each grows differently: six of ten tokens fit. -/
theorem estimateMaxModelLen_exact_six :
    ∃ (limits : MemoryLimits) (specs : List LayerSpec),
      estimateMaxModelLen limits specs 40 = .ok 6 ∧ FitsAt limits specs 40 6 ∧
        ¬ FitsAt limits specs 40 7 := by
  let limits : MemoryLimits := ⟨10, 2, 1, 0⟩
  -- The memory of the first grows with the length, that of the next two up to a bound.
  let specs : List LayerSpec := [.attention ⟨2, 1, 1, ⟨0, 1⟩, false⟩ (.full none none),
    .attention ⟨2, 1, 1, ⟨0, 1⟩, false⟩ (.slidingWindow 3),
    .attention ⟨2, 2, 1, ⟨0, 1⟩, true⟩ (.chunkedLocal 4), .mamba 8 [[2, 2]] [⟨0, 1⟩] none 0 0]
  have estimated : estimateMaxModelLen limits specs 40 = .ok 6 := by decide +kernel
  have admitted : maxMemoryUsageBytes limits specs = .ok 48 := by decide +kernel
  obtain ⟨found, done, fits, beyond, _⟩ :=
    estimateMaxModelLen_exact admitted (by simp [specs]) (by decide) 40
  cases estimated.symm.trans done
  exact ⟨limits, specs, estimated, (fits.resolve_left (by decide)).2.2,
    beyond 7 (by decide) (by decide) (by decide)⟩

end Mimir
