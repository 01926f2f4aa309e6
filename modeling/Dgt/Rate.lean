import Dgt.Run

/-!
# The rate over a run

From the second step boundary on, every push starting at key `0` consumes a loss reading:
`Update_loss_delta()` latches the first non-zero reading as `first_loss` and keeps the current
one as `rt_loss`, and with `ADAPTIVE_K_FLAG` set `dmlc_k` becomes `adaptive_k()`, the initial
rate scaled by `rt_loss / first_loss` and at least `dmlc_k_min`.

A rate trace is a run of the DGT members together with each reading a step boundary consumed
and the rate it set. Over every run, once the first reading is non-zero, each rate is one
function of its reading, so non-increasing readings give non-increasing rates, from
`max(dmlc_k_init, dmlc_k_min)` down to no lower than `dmlc_k_min`.
-/

namespace Dgt

variable {R : Type} [LinearOrderedField R]

/-! ## The rate as a function of the reading -/

/-- The rate `adaptive_k()` sets for a reading, once `first_loss` is latched. -/
def lossScaledRate (kInit kMin first reading : R) : R :=
  if kMin < kInit * (reading / first) then kInit * (reading / first) else kMin

theorem adaptiveK_eq_lossScaledRate (st : DgtState R) :
    adaptiveK st = lossScaledRate st.dmlcKInit st.dmlcKMin st.firstLoss st.rtLoss := rfl

theorem lossScaledRate_eq_max (kInit kMin first reading : R) :
    lossScaledRate kInit kMin first reading = max kMin (kInit * (reading / first)) := by
  unfold lossScaledRate
  split_ifs with raised
  · exact (max_eq_right raised.le).symm
  · exact (max_eq_left (not_lt.mp raised)).symm

/-- A lower reading sets a rate no higher. -/
theorem lossScaledRate_mono {kInit kMin first : R} (kInitNonneg : 0 ≤ kInit) (firstPos : 0 < first)
    {lower upper : R} (le : lower ≤ upper) :
    lossScaledRate kInit kMin first lower ≤ lossScaledRate kInit kMin first upper := by
  rw [lossScaledRate_eq_max, lossScaledRate_eq_max]
  exact max_le_max le_rfl
    (mul_le_mul_of_nonneg_left (div_le_div_of_nonneg_right le firstPos.le) kInitNonneg)

/-- The first reading sets `max(dmlc_k_init, dmlc_k_min)`. -/
theorem lossScaledRate_self (kInit kMin : R) {first : R} (firstNe : first ≠ 0) :
    lossScaledRate kInit kMin first first = max kInit kMin := by
  rw [lossScaledRate_eq_max, div_self firstNe, mul_one, max_comm]

/-! ## What a step boundary can do -/

/-- On the first step boundary `init_dgt()` sets the rate constants from the configuration; on
each later one the rate refresh consumes the reading. -/
theorem stepBoundary_cases {cfg : Config R} {loss : R} {st st' : DgtState R}
    (refreshed : stepBoundary cfg loss st = .ok st') :
    (st.pushOpNum = 0 ∧ ∃ kInit kMin flag channels, cfg.dmlcK = some kInit ∧
        cfg.dmlcKMin = some kMin ∧ cfg.adaptiveKFlag = some flag ∧
        st' = { st with
          pushOpNum := 1, dmlcKInit := kInit, dmlcKMin := kMin, adaptiveKFlag := flag,
          udpChannelNum := channels }) ∨
      (0 < st.pushOpNum ∧
        st' = let read := updateLossDelta { st with pushOpNum := st.pushOpNum + 1 } loss
          { read with
            dmlcK := if read.adaptiveKFlag ≠ 0 then adaptiveK read else read.dmlcKInit }) := by
  unfold stepBoundary at refreshed
  dsimp only at refreshed
  split at refreshed
  · exact .inr ⟨by omega, (Except.ok.inj refreshed).symm⟩
  · have unstarted : st.pushOpNum = 0 := by omega
    unfold initDgt at refreshed
    split at refreshed
    next _ _ _ _ kInit kMin flag channels kSet kMinSet flagSet _ =>
      cases refreshed
      exact .inl ⟨unstarted, kInit, kMin, flag, channels, kSet, kMinSet, flagSet, by
        rw [unstarted]⟩
    all_goals cases refreshed

section Latch

variable {cfg : Config R} {st : DgtState R} {trace : List (R × R)}

/-- What a rate trace keeps: one reading per step boundary after the first, the rate constants
that `init_dgt()` read, and the first loss, latched at the first non-zero reading, that fixes
every rate. -/
structure RateLatch (cfg : Config R) (st : DgtState R) (trace : List (R × R)) : Prop where
  /-- One reading per step boundary after the first. -/
  counted : trace.length = st.pushOpNum - 1
  /-- After the first step boundary the rate constants are those of the configuration. -/
  constants : 0 < st.pushOpNum → cfg.dmlcK = some st.dmlcKInit ∧
    cfg.dmlcKMin = some st.dmlcKMin ∧ cfg.adaptiveKFlag = some st.adaptiveKFlag
  /-- Before the first reading no loss is latched. -/
  unread : trace = [] → st.firstLoss = 0
  /-- A non-zero first reading stays latched, and each rate is the one it sets for its
  reading (`dmlc_k_init` without `ADAPTIVE_K_FLAG`). -/
  latched : ∀ first ∈ trace.head?, first.1 ≠ 0 → st.firstLoss = first.1 ∧
    ∀ reading ∈ trace, reading.2 = if st.adaptiveKFlag ≠ 0 then
      lossScaledRate st.dmlcKInit st.dmlcKMin first.1 reading.1 else st.dmlcKInit

theorem RateLatch.init (cfg : Config R) : RateLatch cfg (DgtState.init cfg) [] :=
  ⟨rfl, fun started => absurd started (lt_irrefl 0), fun _ => rfl, by simp⟩

/-- A step boundary keeps the latch: the first sets the constants before any reading, and a
later one appends a reading whose rate uses the latched first loss. -/
theorem RateLatch.boundary {st' : DgtState R} {loss : R} (latch : RateLatch cfg st trace)
    (refreshed : stepBoundary cfg loss st = .ok st') :
    RateLatch cfg st' (if 1 < st'.pushOpNum then trace ++ [(loss, st'.dmlcK)] else trace) := by
  rcases stepBoundary_cases refreshed with
    ⟨unstarted, kInit, kMin, flag, channels, kSet, kMinSet, flagSet, rfl⟩ | ⟨started, rfl⟩
  · have empty : trace = [] := List.length_eq_zero.mp (by rw [latch.counted, unstarted])
    subst empty
    exact ⟨rfl, fun _ => ⟨kSet, kMinSet, flagSet⟩, latch.unread, by simp⟩
  · dsimp only [updateLossDelta]
    simp only [show 1 < st.pushOpNum + 1 by omega, if_true]
    refine ⟨by simp only [List.length_append, List.length_singleton, latch.counted]; omega,
      fun _ => latch.constants started, fun appended => absurd appended (by simp), ?_⟩
    intro first member nonzero
    have earlier : ∀ head rest, trace = head :: rest → first = head ∧
        st.firstLoss = first.1 ∧ ∀ reading ∈ trace, reading.2 = if st.adaptiveKFlag ≠ 0 then
          lossScaledRate st.dmlcKInit st.dmlcKMin first.1 reading.1 else st.dmlcKInit := by
      rintro head rest rfl
      obtain rfl : head = first := by simpa using member
      exact ⟨rfl, latch.latched head rfl nonzero⟩
    have latchedLoss : (if st.firstLoss = 0 then loss else st.firstLoss) = first.1 := by
      cases trace with
      | nil =>
          obtain rfl : (loss, _) = first := by simpa using member
          simp [latch.unread rfl]
      | cons head rest =>
          obtain ⟨-, latchedFirst, -⟩ := earlier head rest rfl
          simp [latchedFirst, nonzero]
    refine ⟨latchedLoss, ?_⟩
    simp only [List.mem_append, List.mem_singleton]
    rintro reading (old | rfl)
    · obtain ⟨head, rest, rfl⟩ := List.exists_cons_of_ne_nil (List.ne_nil_of_mem old)
      exact (earlier head rest rfl).2.2 reading old
    · simp [updateLossDelta, adaptiveK_eq_lossScaledRate, latchedLoss]

end Latch

variable [FloorRing R]

/-! ## Rate traces -/

/-- A run of the DGT members from the constructor, with, in order, the loss reading each step
boundary after the first consumed and the `dmlc_k` it set. -/
inductive RateTrace (cfg : Config R) : DgtState R → List (R × R) → Prop
  /-- The members of a freshly constructed worker; no reading yet. -/
  | init : RateTrace cfg (DgtState.init cfg) []
  /-- A step boundary; from `push_op_num >= 2` on it consumes `loss` and sets `dmlc_k`. -/
  | boundary {st st' : DgtState R} {trace : List (R × R)} (loss : R)
      (run : RateTrace cfg st trace) (refreshed : stepBoundary cfg loss st = .ok st') :
      RateTrace cfg st' (if 1 < st'.pushOpNum then trace ++ [(loss, st'.dmlcK)] else trace)
  /-- A block-push op; it reads no loss. -/
  | blockPush {st st' : DgtState R} {trace : List (R × R)} (env : Environment R)
      (request : Request) (recver : Nat) (shard : KVPairs R) (sent : List (Message R × Dispatch))
      (run : RateTrace cfg st trace)
      (pushed : blockPush cfg env st request recver shard = .ok (st', sent)) :
      RateTrace cfg st' trace

section Traces

variable {cfg : Config R} {st : DgtState R} {trace : List (R × R)}

/-- Forgetting the readings of a rate trace leaves a run of the DGT members. -/
theorem RateTrace.reachable (run : RateTrace cfg st trace) : DgtReachable cfg st := by
  induction run with
  | init => exact .refl
  | boundary loss _ refreshed reachable => exact reachable.tail (.boundary loss refreshed)
  | blockPush env request recver shard sent _ pushed reachable =>
      exact reachable.tail (.blockPush env request recver shard sent pushed)

/-- Every run of the DGT members has its readings. -/
theorem DgtReachable.rateTrace (reachable : DgtReachable cfg st) :
    ∃ trace, RateTrace cfg st trace := by
  induction reachable with
  | refl => exact ⟨[], .init⟩
  | tail _ step traced =>
      obtain ⟨trace, run⟩ := traced
      cases step with
      | boundary loss refreshed => exact ⟨_, .boundary loss run refreshed⟩
      | blockPush env request recver shard sent pushed =>
          exact ⟨_, .blockPush env request recver shard sent run pushed⟩

/-- A block-push op reads no loss and leaves every member the latch is about. -/
theorem RateLatch.blockPush {st' : DgtState R} {env : Environment R} {request : Request}
    {recver : Nat} {shard : KVPairs R} {sent : List (Message R × Dispatch)}
    (latch : RateLatch cfg st trace)
    (pushed : blockPush cfg env st request recver shard = .ok (st', sent)) :
    RateLatch cfg st' trace := by
  rw [blockPush_state pushed]
  exact ⟨latch.counted, latch.constants, latch.unread, latch.latched⟩

theorem RateTrace.latch (run : RateTrace cfg st trace) : RateLatch cfg st trace := by
  induction run with
  | init => exact .init cfg
  | boundary _ _ refreshed latch => exact latch.boundary refreshed
  | blockPush _ _ _ _ _ _ pushed latch => exact latch.blockPush pushed

end Traces

/-! ## Non-increasing losses give a non-increasing rate -/

/-- With adaptive rates, a loss that never rises gives a rate that never rises, from
`max(dmlc_k_init, dmlc_k_min)` down to at least `dmlc_k_min`. -/
theorem dmlcK_nonincreasing_of_loss_nonincreasing {cfg : Config R} {kInit kMin : R} {flag : Int}
    (kInitSet : cfg.dmlcK = some kInit) (kMinSet : cfg.dmlcKMin = some kMin)
    (flagSet : cfg.adaptiveKFlag = some flag) (adaptive : flag ≠ 0) (kInitNonneg : 0 ≤ kInit)
    {st : DgtState R} {trace : List (R × R)} (run : RateTrace cfg st trace)
    (firstPos : ∀ first ∈ trace.head?, 0 < first.1)
    (lossNonincreasing : (trace.map Prod.fst).Chain' (· ≥ ·)) :
    (∀ first ∈ trace.head?, st.firstLoss = first.1 ∧ first.2 = max kInit kMin) ∧
      (trace.map Prod.snd).Chain' (· ≥ ·) ∧
      ∀ reading ∈ trace, kMin ≤ reading.2 ∧ reading.2 ≤ max kInit kMin := by
  obtain ⟨counted, constants, -, latched⟩ := run.latch
  cases trace with
  | nil => simp
  | cons first rest =>
      have started : 0 < st.pushOpNum := by simp at counted; omega
      obtain ⟨kInitEq, kMinEq, flagEq⟩ := constants started
      obtain ⟨rfl, rfl, rfl⟩ : st.dmlcKInit = kInit ∧ st.dmlcKMin = kMin ∧
          st.adaptiveKFlag = flag :=
        ⟨Option.some.inj (kInitEq.symm.trans kInitSet), Option.some.inj (kMinEq.symm.trans kMinSet),
          Option.some.inj (flagEq.symm.trans flagSet)⟩
      have firstPos : 0 < first.1 := firstPos first rfl
      obtain ⟨latchedFirst, rates⟩ := latched first rfl firstPos.ne'
      have rate : ∀ reading ∈ first :: rest, reading.2 =
          lossScaledRate st.dmlcKInit st.dmlcKMin first.1 reading.1 :=
        fun reading member => (rates reading member).trans (if_pos adaptive)
      have rateMap : (first :: rest).map Prod.snd =
          (first :: rest).map (lossScaledRate st.dmlcKInit st.dmlcKMin first.1 ∘ Prod.fst) :=
        List.map_congr_left rate
      have nonincreasing : ((first :: rest).map Prod.snd).Chain' (· ≥ ·) := by
        rw [rateMap, ← List.map_map]
        exact List.chain'_map_of_chain' (lossScaledRate st.dmlcKInit st.dmlcKMin first.1)
          (fun (lower upper : R) (ge : lower ≥ upper) =>
            ge_iff_le.mpr (lossScaledRate_mono kInitNonneg firstPos ge))
          lossNonincreasing
      have firstRate : first.2 = max st.dmlcKInit st.dmlcKMin := by
        rw [rate first (List.mem_cons_self _ _), lossScaledRate_self _ _ firstPos.ne']
      refine ⟨fun head member => ?_, nonincreasing, fun reading member => ⟨?_, ?_⟩⟩
      · obtain rfl : first = head := by simpa using member
        exact ⟨latchedFirst, firstRate⟩
      · rw [rate reading member, lossScaledRate_eq_max]
        exact le_max_left _ _
      · rw [← firstRate]
        rcases List.mem_cons.mp member with rfl | later
        · exact le_rfl
        · have ordered := List.chain'_iff_pairwise.mp nonincreasing
          exact List.rel_of_pairwise_cons ordered (List.mem_map_of_mem Prod.snd later)

/-- Readings `2` then `1` under `DMLC_K = 0.5`, `DMLC_K_MIN = 0` and `ADAPTIVE_K_FLAG = 1` set
the rates `0.5` then `0.25`. -/
theorem dmlcK_nonincreasing_of_two_readings :
    let cfg : Config ℚ := { Config.blocksOfOne 4 (1 / 2) with adaptiveKFlag := some 1 }
    let trace : List (ℚ × ℚ) := [(2, 1 / 2), (1, 1 / 4)]
    ∃ st, RateTrace cfg st trace ∧
      ((∀ first ∈ trace.head?, st.firstLoss = first.1 ∧ first.2 = max (1 / 2) 0) ∧
        (trace.map Prod.snd).Chain' (· ≥ ·) ∧
        ∀ reading ∈ trace, 0 ≤ reading.2 ∧ reading.2 ≤ max (1 / 2) 0) := by
  intro cfg trace
  let st1 : DgtState ℚ := { DgtState.init cfg with
    pushOpNum := 1, dmlcKInit := 1 / 2, dmlcKMin := 0, adaptiveKFlag := 1, udpChannelNum := 4 }
  let st2 : DgtState ℚ := { st1 with
    pushOpNum := 2, dmlcK := 1 / 2, preLoss := 2, deltaL := 1, firstLoss := 2, rtLoss := 2 }
  let st3 : DgtState ℚ := { st2 with
    pushOpNum := 3, dmlcK := 1 / 4, preLoss := 1, deltaL := 1, rtLoss := 1 }
  have first : stepBoundary cfg 5 (DgtState.init cfg) = .ok st1 := rfl
  have second : stepBoundary cfg 2 st1 = .ok st2 := by
    simp only [stepBoundary, updateLossDelta, adaptiveK, st1, st2, DgtState.init]
    norm_num
  have third : stepBoundary cfg 1 st2 = .ok st3 := by
    simp only [stepBoundary, updateLossDelta, adaptiveK, st1, st2, st3, DgtState.init]
    norm_num
  have run : RateTrace cfg st3 trace := by
    simpa [st1, st2, st3, trace] using
      RateTrace.boundary 1 (.boundary 2 (.boundary 5 .init first) second) third
  exact ⟨st3, run, dmlcK_nonincreasing_of_loss_nonincreasing rfl rfl rfl (by decide) (by norm_num)
    run (by norm_num [trace]) (by norm_num [trace])⟩

end Dgt
