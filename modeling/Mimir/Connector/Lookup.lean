import Mimir.Connector.Mimir
import Mimir.Kv.HitLaws
import Mimir.Sched.Engine
import Mimir.Sched.Loops

/-! Laws of the lookup in the store, and the work it leaves for the waiting loop. -/

namespace Mimir

open Python Scheduler MimirConnector

/-- The parameters of a scheduler with the connector. -/
abbrev MimirConfig (H K : Type) := Config H (MimirConnector H K) MimirConnectorMetadata

/-- An engine with the connector. -/
abbrev MimirEngine (H K : Type) := Engine H (MimirConnector H K) MimirConnectorMetadata

variable {H : Type} {blockSize n : Nat} {request : Request H}

namespace MimirConnector

variable {K : Type} [DecidableEq K] {prefixHash : List TokenId → K}

/-- The first `n` tokens are whole blocks, at least one, and are in the store. -/
structure Stored (blockSize : Nat) (prefixHash : List TokenId → K) (c : MimirConnector H K)
    (promptTokenIds : List TokenId) (n : Nat) : Prop where
  positive : 0 < n
  aligned : blockSize ∣ n
  fits : n ≤ promptTokenIds.length
  present : prefixHash (promptTokenIds.take n) ∈ c.cpuKvStore.keys

variable (blockSize prefixHash) in
/-- What a scan over some numbers of blocks finds: the largest number whose prefix is stored. -/
theorem scanPrefixes_spec (c : MimirConnector H K) (promptTokenIds : List TokenId) (blocks : Nat) :
    match c.scanPrefixes blockSize prefixHash promptTokenIds blocks with
    | none => ∀ b, 0 < b → b ≤ blocks →
        prefixHash (promptTokenIds.take (b * blockSize)) ∉ c.cpuKvStore.keys
    | some (key, n) => ∃ b, 0 < b ∧ b ≤ blocks ∧ n = b * blockSize ∧
        key = prefixHash (promptTokenIds.take n) ∧ key ∈ c.cpuKvStore.keys ∧
        ∀ b', b < b' → b' ≤ blocks →
          prefixHash (promptTokenIds.take (b' * blockSize)) ∉ c.cpuKvStore.keys := by
  -- The induction follows the scan, from the longest candidate down.
  induction blocks with
  | zero =>
    intro b positive none
    omega
  | succ blocks ih =>
    by_cases found : prefixHash (promptTokenIds.take ((blocks + 1) * blockSize)) ∈ c.cpuKvStore.keys
    · -- The longest candidate is stored.
      have hit : c.scanPrefixes blockSize prefixHash promptTokenIds (blocks + 1) =
          some (prefixHash (promptTokenIds.take ((blocks + 1) * blockSize)),
            (blocks + 1) * blockSize) := by
        simp [scanPrefixes, found]
      rw [hit]
      exact ⟨blocks + 1, by omega, le_refl _, rfl, rfl, found, fun b' above below => by omega⟩
    · -- It is not, so the scan goes on with one block less.
      have miss : c.scanPrefixes blockSize prefixHash promptTokenIds (blocks + 1) =
          c.scanPrefixes blockSize prefixHash promptTokenIds blocks := by
        simp [scanPrefixes, found]
      rw [miss]
      have last : ∀ b', blocks < b' → b' ≤ blocks + 1 →
          prefixHash (promptTokenIds.take (b' * blockSize)) ∉ c.cpuKvStore.keys := by
        intro b' above below
        have eq : b' = blocks + 1 := by omega
        rw [eq]
        exact found
      cases scan : c.scanPrefixes blockSize prefixHash promptTokenIds blocks with
      | none =>
        rw [scan] at ih
        intro b positive below
        by_cases old : b ≤ blocks
        · exact ih b positive old
        · exact last b (by omega) below
      | some =>
        rw [scan] at ih
        obtain ⟨b, positive, below, length, key, present, longest⟩ := ih
        refine ⟨b, positive, by omega, length, key, present, ?_⟩
        intro b' above bound
        by_cases old : b' ≤ blocks
        · exact longest b' above old
        · exact last b' (by omega) bound

variable {c : MimirConnector H K}

omit [DecidableEq K] in
/-- A stored prefix is a number of whole blocks of the prompt. -/
theorem stored_blocks {promptTokenIds : List TokenId}
    (stored : Stored blockSize prefixHash c promptTokenIds n) :
    ∃ b, 0 < b ∧ b ≤ promptTokenIds.length / blockSize ∧ n = b * blockSize := by
  obtain ⟨b, eq⟩ := stored.aligned
  have positive := stored.positive
  have fits := stored.fits
  rw [Nat.mul_comm] at eq
  subst eq
  have size : 0 < blockSize := Nat.pos_of_mul_pos_left positive
  exact ⟨b, Nat.pos_of_mul_pos_right positive, (Nat.le_div_iff_mul_le size).mpr fits, rfl⟩

/-- A hit is the longest stored prefix of the prompt. -/
theorem lookupPrefixHit_some {key : K}
    (found : c.lookupPrefixHit blockSize prefixHash request = some (key, n)) :
    Stored blockSize prefixHash c request.promptTokenIds n ∧
      key = prefixHash (request.promptTokenIds.take n) ∧
      ∀ m, Stored blockSize prefixHash c request.promptTokenIds m → m ≤ n := by
  have spec := scanPrefixes_spec blockSize prefixHash c
    request.promptTokenIds (request.promptTokenIds.length / blockSize)
  rw [lookupPrefixHit] at found
  rw [found] at spec
  obtain ⟨b, positive, below, length, isKey, present, longest⟩ := spec
  -- There is a block to find only if blocks have a size.
  have size : 0 < blockSize := by
    rcases Nat.eq_zero_or_pos blockSize with zero | positive'
    · subst zero
      simp only [Nat.div_zero] at below
      omega
    · exact positive'
  have fits : n ≤ request.promptTokenIds.length := by
    rw [length]
    exact (Nat.le_div_iff_mul_le size).mp below
  refine ⟨⟨by rw [length]; exact Nat.mul_pos positive size, ⟨b, by rw [length, Nat.mul_comm]⟩, fits,
    isKey ▸ present⟩, isKey, ?_⟩
  intro m stored
  obtain ⟨b', _, bound, eq⟩ := stored_blocks stored
  by_contra longer
  rw [eq, length] at longer
  have above : b < b' := Nat.lt_of_mul_lt_mul_right (a := blockSize) (by omega)
  exact longest b' above bound (eq ▸ stored.present)

/-- Without a hit no prefix of the prompt is stored. -/
theorem lookupPrefixHit_none (missed : c.lookupPrefixHit blockSize prefixHash request = none) (n : Nat) :
    ¬ Stored blockSize prefixHash c request.promptTokenIds n := by
  intro stored
  have spec := scanPrefixes_spec blockSize prefixHash c
    request.promptTokenIds (request.promptTokenIds.length / blockSize)
  rw [lookupPrefixHit] at missed
  rw [missed] at spec
  obtain ⟨b, positive, bound, eq⟩ := stored_blocks stored
  exact spec b positive bound (eq ▸ stored.present)

variable (blockSize prefixHash) in
/-- The answer of the connector: what the longest stored prefix has beyond the local tokens. -/
theorem getNumNewMatchedTokens_spec (c : MimirConnector H K) (request : Request H) (numLocal : Int) :
    ∃ external c', c.getNumNewMatchedTokens blockSize prefixHash request numLocal =
        ((some external, false), c') ∧ 0 ≤ external ∧
      (external = 0 → c' = c) ∧
      (0 < external → ∃ n : Nat, Stored blockSize prefixHash c request.promptTokenIds n ∧
        numLocal + external = n ∧ c' = { c with
          hitLengths := c.hitLengths.set request.requestId (n : Int) }) ∧
      ∀ m, Stored blockSize prefixHash c request.promptTokenIds m → (m : Int) ≤ numLocal + external := by
  unfold getNumNewMatchedTokens
  cases found : c.lookupPrefixHit blockSize prefixHash request with
  | none =>
    refine ⟨0, c, rfl, le_refl _, fun _ => rfl, fun absurd' => by omega, ?_⟩
    intro m stored
    exact absurd stored (lookupPrefixHit_none found m)
  | some hit =>
    obtain ⟨key, n⟩ := hit
    obtain ⟨stored, -, longest⟩ := lookupPrefixHit_some found
    dsimp only
    split
    · -- All of the hit is cached locally.
      rename_i none
      refine ⟨0, c, rfl, le_refl _, fun _ => rfl, fun absurd' => by omega, ?_⟩
      intro m stored'
      have := longest m stored'
      omega
    · rename_i more
      refine ⟨n - numLocal, _, rfl, by omega, fun absurd' => by omega, ?_, ?_⟩
      · intro _
        exact ⟨n, stored, by omega, rfl⟩
      · intro m stored'
        have := longest m stored'
        omega

end MimirConnector

section Work

variable {K : Type} [DecidableEq H] [DecidableEq K]

/-- All tokens of a request are whole blocks of a prompt that is in the store. -/
def WholeRequestStored (blockSize : Nat) (prefixHash : List TokenId → K) (c : MimirConnector H K)
    (request : Request H) : Prop :=
  -- With an output token, there is something behind the prompt.
  request.outputTokenIds = [] ∧ blockSize ∣ request.promptTokenIds.length ∧
    prefixHash request.promptTokenIds ∈ c.cpuKvStore.keys

instance (blockSize : Nat) (prefixHash : List TokenId → K) (c : MimirConnector H K)
    (request : Request H) : Decidable (WholeRequestStored blockSize prefixHash c request) :=
  inferInstanceAs (Decidable (_ ∧ _ ∧ _))

omit [DecidableEq H] [DecidableEq K] in
/-- The tokens counted as computed fall short of the request, unless all of it is in the store. -/
theorem computed_lt_iff {prefixHash : List TokenId → K} {c : MimirConnector H K}
    {numLocal external : Int} (prompted : request.promptTokenIds ≠ [])
    (short : numLocal < request.numTokens)
    (reached : 0 < external → ∃ n : Nat,
      MimirConnector.Stored blockSize prefixHash c request.promptTokenIds n ∧ numLocal + external = n)
    (covers : ∀ m : Nat, MimirConnector.Stored blockSize prefixHash c request.promptTokenIds m →
      (m : Int) ≤ numLocal + external) (nonneg : 0 ≤ external) :
    numLocal + external < request.numTokens ↔
      ¬ WholeRequestStored blockSize prefixHash c request := by
  have total : request.numTokens =
      request.promptTokenIds.length + request.outputTokenIds.length := by
    simp [Request.numTokens, Request.allTokenIds]
  constructor
  · rintro less ⟨noOutput, aligned, present⟩
    -- The whole prompt would be found.
    have whole := covers request.promptTokenIds.length
      ⟨List.length_pos_iff.mpr prompted, aligned, le_refl _, by rwa [List.take_length]⟩
    rw [total, noOutput] at less
    simp only [List.length_nil] at less
    omega
  · intro partly
    by_contra enough
    -- Only a hit reaches the end, and it lies inside the prompt.
    have some' : 0 < external := by omega
    obtain ⟨n, stored, sum⟩ := reached some'
    have fits := stored.fits
    have empty : request.outputTokenIds.length = 0 := by omega
    have all : n = request.promptTokenIds.length := by omega
    refine partly ⟨List.length_eq_zero_iff.mp empty, all ▸ stored.aligned, ?_⟩
    have present := stored.present
    rwa [all, List.take_length] at present

variable {C M : Type} {cfg : Config H C M}

omit [DecidableEq H] in
/-- The assertion on the number of new tokens fails exactly when no token is left to compute. -/
theorem waitingNewTokens_raises {f : Frame H C} {r : Ref} {computed : Scheduler.Computed}
    (sync : computed.loadKvAsync = false) (budget : 0 < f.plan.tokenBudget) :
    waitingNewTokens cfg f r computed = .error ⟨.assertion, .newTokensPositive⟩ ↔
      ¬ computed.numComputedTokens < (f.sched.objs r).numTokens := by
  have capped : 0 < capLongPrefill cfg
        ((f.sched.objs r).numTokens - computed.numComputedTokens) ↔
      computed.numComputedTokens < (f.sched.objs r).numTokens := by
    unfold capLongPrefill
    split <;> omega
  unfold waitingNewTokens
  rw [sync]
  dsimp only
  rw [if_neg (by simp)]
  split
  · -- More tokens than the budget are some tokens.
    rename_i above
    constructor
    · intro raised
      cases raised
    · intro none
      omega
  · rw [bind_eq_error]
    constructor
    · rintro (raised | ⟨_, _, later⟩)
      · rw [require_eq_error] at raised
        omega
      · -- The encoder inputs raise nothing about this assertion.
        exfalso
        have sat : Sat (tryScheduleEncoderInputs cfg f r computed.numComputedTokens
            (min (capLongPrefill cfg
              ((f.sched.objs r).numTokens - computed.numComputedTokens)) f.plan.tokenBudget))
            (fun _ => True) Scheduler.OfEncoder :=
          (tryScheduleEncoderInputs_sat f r _ _).mono (fun _ _ => trivial) fun _ h => h
        rcases bind_eq_error.mp later with encoder | ⟨_, _, built⟩
        · have about := sat.fail_of_error encoder
          simp [Scheduler.OfEncoder] at about
        · split at built <;> cases built
    · intro none
      left
      rw [require_eq_error]
      exact ⟨by omega, rfl⟩

/-- Local and external tokens fall short of a waiting request, and the assertion of the waiting
loop holds, exactly when not all of the request is in the store. -/
theorem connectorHit_leaves_work {blockSize : Nat} {prefixHash : List TokenId → K}
    {cfg : MimirConfig H K}
    (connects : cfg.connector = some (ops blockSize prefixHash))
    (s : Scheduler H (MimirConnector H K)) (r : Ref)
    (prompted : (s.objs r).promptTokenIds ≠ []) (unstarted : (s.objs r).numComputedTokens = 0)
    {lists : List (List BlockId)} {numLocal : Int}
    (found : s.kvCacheManager.getComputedBlocks cfg.kv (s.objs r) = .ok (lists, numLocal)) :
    ∃ computed connector, s.computedTokens cfg r = .ok (some computed, connector) ∧
      computed.numNewLocalComputedTokens = numLocal ∧
      (numLocal + computed.numExternalComputedTokens < (s.objs r).numTokens ↔
        ¬ WholeRequestStored blockSize prefixHash s.connector (s.objs r)) ∧
      ∀ plan : Plan, 0 < plan.tokenBudget →
        (waitingNewTokens cfg ⟨{ s with connector }, plan⟩ r computed =
            .error ⟨.assertion, .newTokensPositive⟩ ↔
          WholeRequestStored blockSize prefixHash s.connector (s.objs r)) := by
  obtain ⟨external, c', answer, nonneg, _, reached, covers⟩ :=
    getNumNewMatchedTokens_spec blockSize prefixHash s.connector
      (s.objs r) numLocal
  have tokens : 0 < (s.objs r).numTokens := by
    have := List.length_pos_iff.mpr prompted
    simp only [Request.numTokens, Request.allTokenIds, List.length_append]
    omega
  have short := KVCacheManager.getComputedBlocks_lt tokens found
  have work := computed_lt_iff prompted short
    (fun some' => by obtain ⟨n, stored, sum, _⟩ := reached some'; exact ⟨n, stored, sum⟩) covers nonneg
  refine ⟨⟨lists, numLocal, external, false, numLocal + external⟩, c', ?_, rfl, work, ?_⟩
  · have asked : (ops blockSize prefixHash).getNumNewMatchedTokens s.connector
        (s.objs r) numLocal = ((some external, false), c') := answer
    simp only [computedTokens, unstarted, found, connects, asked, if_true, Bind.bind, Except.bind]
  · intro plan budget
    rw [waitingNewTokens_raises rfl budget]
    show ¬ numLocal + external < (s.objs r).numTokens ↔ _
    rw [work, not_not]

/-- The small engine with a store whose keys are the token prefixes themselves. -/
def storeConfig : MimirConfig FreeHash (List TokenId) :=
  smallConfig.withConnector (ops 2 id)

/-- A prompt of two blocks is computed and stored, and its request is aborted. -/
def storedPrompt : List Op :=
  [.addRequest (plainRequest 0 [1, 2, 3, 4] 4), .schedule (atTime 0), .execute,
    .finishRequests (fun _ => .fin 0) [0] .finishedAborted,
    .updateFromOutput (fun _ => .fin 0) (sampledOutput [(0, [7])]), .resetPrefixCache]

/-- A longer prompt loads the stored one and has a token left to compute. -/
theorem connectorHit_leaves_work_longerPrompt :
    ∃ e : MimirEngine FreeHash (List TokenId),
      Engine.Reachable storeConfig {} (fun _ _ => True) e ∧
      (e.sched.objs 1).promptTokenIds = [1, 2, 3, 4, 5] ∧
      e.sched.connector.cpuKvStore.keys = [[1, 2, 3, 4]] ∧
      ∃ computed connector, e.sched.computedTokens storeConfig 1 = .ok (some computed, connector) ∧
        computed.numNewLocalComputedTokens = 0 ∧ 0 + computed.numExternalComputedTokens < 5 := by
  obtain ⟨e, before, lists, numLocal, found, rfl, keys, prompt, output, unstarted⟩ : ∃ e,
      (Engine.init storeConfig {}).run storeConfig (fun _ _ => True)
        (storedPrompt ++ [.addRequest (plainRequest 1 [1, 2, 3, 4, 5] 4)]) = .ok e ∧
      ∃ lists numLocal, e.sched.kvCacheManager.getComputedBlocks storeConfig.kv (e.sched.objs 1) =
        .ok (lists, numLocal) ∧ numLocal = 0 ∧
        e.sched.connector.cpuKvStore.keys = [[1, 2, 3, 4]] ∧
        (e.sched.objs 1).promptTokenIds = [1, 2, 3, 4, 5] ∧
        (e.sched.objs 1).outputTokenIds = [] ∧ (e.sched.objs 1).numComputedTokens = 0 := by
    decide +kernel
  obtain ⟨computed, connector, asked, localTokens, work, _⟩ := connectorHit_leaves_work
    (show storeConfig.connector = some (ops 2 id) from rfl) e.sched 1 (by rw [prompt]; decide) unstarted found
  have tokens : (e.sched.objs 1).numTokens = 5 := by
    simp [Request.numTokens, Request.allTokenIds, prompt, output]
  -- The stored prompt is shorter than the request.
  have partly : ¬ WholeRequestStored 2 id e.sched.connector (e.sched.objs 1) := by
    rintro ⟨_, _, present⟩
    rw [keys, prompt] at present
    exact absurd present (by decide)
  have short := work.mpr partly
  rw [tokens] at short
  exact ⟨e, Engine.steps_of_run before, prompt, keys, computed, connector, asked, localTokens, short⟩

/-- The same prompt once more is found as a whole, and the assertion of the waiting loop fails. -/
theorem storedPrompt_again_raises :
    ∃ e : MimirEngine FreeHash (List TokenId),
      Engine.Reachable storeConfig {} (fun _ _ => True) e ∧
      (e.sched.objs 1).promptTokenIds = [1, 2, 3, 4] ∧ e.sched.waiting = [1] ∧
      (∃ computed connector, e.sched.computedTokens storeConfig 1 = .ok (some computed, connector) ∧
        computed.numNewLocalComputedTokens + computed.numExternalComputedTokens =
          (e.sched.objs 1).numTokens) ∧
      e.sched.schedule storeConfig (atTime 1) = .error ⟨.assertion, .newTokensPositive⟩ := by
  obtain ⟨e, before, answer, connector, asked, prompt, waiting, sum, err, raised, rfl⟩ : ∃ e,
      (Engine.init storeConfig {}).run storeConfig (fun _ _ => True)
        (storedPrompt ++ [.addRequest (plainRequest 1 [1, 2, 3, 4] 4)]) = .ok e ∧
      ∃ answer connector, e.sched.computedTokens storeConfig 1 = .ok (answer, connector) ∧
        (e.sched.objs 1).promptTokenIds = [1, 2, 3, 4] ∧ e.sched.waiting = [1] ∧
        (answer.map fun computed => computed.numNewLocalComputedTokens +
          computed.numExternalComputedTokens) = some ((e.sched.objs 1).numTokens : Int) ∧
        ∃ err, e.sched.schedule storeConfig (atTime 1) = .error err ∧
          err = ⟨.assertion, .newTokensPositive⟩ := by
    decide +kernel
  obtain ⟨computed, rfl, total⟩ := Option.map_eq_some_iff.mp sum
  exact ⟨e, Engine.steps_of_run before, prompt, waiting, ⟨computed, connector, asked, total⟩, raised⟩

end Work

end Mimir
