import Dgt.Dispatch

/-!
# Runs of the DGT state

The DGT members change at a step boundary and at the end of each block-push op; a first push
or a pull leaves them as they are. Over any run of such changes `msg_vector` is empty between
ops, and with `0 ≤ α < 1` every moving average stays non-negative. So an op from a reachable
state dispatches exactly a permutation of its kept blocks, and the blocks `CLEAR_ZERO` drops
hold only zeros.
-/

namespace Dgt

variable {R : Type} [LinearOrderedField R]

/-- A step boundary leaves `msg_vector`, the scores and the block size alone. -/
theorem stepBoundary_ok {cfg : Config R} {loss : R} {st st' : DgtState R}
    (refreshed : stepBoundary cfg loss st = .ok st') :
    st'.msgVector = st.msgVector ∧ st'.scores = st.scores ∧ st'.blockSize = st.blockSize := by
  unfold stepBoundary at refreshed
  dsimp only at refreshed
  split at refreshed
  · cases refreshed
    exact ⟨rfl, rfl, rfl⟩
  · unfold initDgt at refreshed
    split at refreshed <;> cases refreshed
    exact ⟨rfl, rfl, rfl⟩

variable [FloorRing R]

/-- One change of the DGT members: a step boundary, or the end of a block-push op. -/
inductive DgtStep (cfg : Config R) : DgtState R → DgtState R → Prop
  /-- The step boundary of a push starting at key `0`. -/
  | boundary {st st' : DgtState R} (loss : R) (refreshed : stepBoundary cfg loss st = .ok st') :
      DgtStep cfg st st'
  /-- A block-push op. -/
  | blockPush {st st' : DgtState R} (env : Environment R) (request : Request) (recver : Nat)
      (shard : KVPairs R) (sent : List (Message R × Dispatch))
      (pushed : blockPush cfg env st request recver shard = .ok (st', sent)) :
      DgtStep cfg st st'

/-- The DGT members a worker can reach from its constructor. -/
def DgtReachable (cfg : Config R) (st : DgtState R) : Prop :=
  Relation.ReflTransGen (DgtStep cfg) (DgtState.init cfg) st

/-! ## What one change touches -/

/-- What a block-push op that succeeds leaves: the block size in force, the maps of scoring its
blocks in loop order, and an empty `msg_vector`; no other member changes. -/
theorem blockPush_state {cfg : Config R} {env : Environment R} {st st' : DgtState R}
    {request : Request} {recver : Nat} {shard : KVPairs R} {sent : List (Message R × Dispatch)}
    (pushed : blockPush cfg env st request recver shard = .ok (st', sent)) :
    st' = { st with
      blockSize := st.blockSizeFor cfg shard
      scores := (scoreAll cfg (toCInt (shard.keys.headD 0)) st.scores
        (buildBlocks request recver st.pushOpNum (st.blockSizeFor cfg shard) shard)).2
      msgVector := [] } := by
  unfold blockPush at pushed
  dsimp only at pushed
  split_ifs at pushed
  rw [foldl_scoreBlock] at pushed
  obtain ⟨ranked, -, dispatched⟩ := bind_eq_ok.mp pushed
  obtain ⟨_, -, finished⟩ := bind_eq_ok.mp dispatched
  cases finished
  rfl

/-- A block-push op that succeeds empties `msg_vector`, and its scores are those of scoring
some blocks. -/
theorem blockPush_ok_state {cfg : Config R} {env : Environment R} {st st' : DgtState R}
    {request : Request} {recver : Nat} {shard : KVPairs R} {sent : List (Message R × Dispatch)}
    (pushed : blockPush cfg env st request recver shard = .ok (st', sent)) :
    st'.msgVector = [] ∧ ∃ key blocks, st'.scores = (scoreAll cfg key st.scores blocks).2 := by
  rw [blockPush_state pushed]
  exact ⟨rfl, _, _, rfl⟩

/-! ## Invariants of a run -/

section Invariants

variable {cfg : Config R}

/-- Between ops, `msg_vector` is empty. -/
theorem DgtReachable.msgVector_eq_nil {st : DgtState R} (reachable : DgtReachable cfg st) :
    st.msgVector = [] := by
  induction reachable with
  | refl => rfl
  | tail _ step emptyBefore =>
      cases step with
      | boundary loss refreshed => rw [(stepBoundary_ok refreshed).1, emptyBefore]
      | blockPush env request recver shard sent pushed => exact (blockPush_ok_state pushed).1

/-- With `0 ≤ α < 1`, every moving average of a reachable state is non-negative. -/
theorem DgtReachable.scores_nonneg (alphaNonneg : 0 ≤ cfg.contriAlpha)
    (alphaLt : cfg.contriAlpha < 1) {st : DgtState R} (reachable : DgtReachable cfg st) :
    st.scores.Nonneg := by
  induction reachable with
  | refl => exact fun _ _ => le_rfl
  | tail _ step nonnegBefore =>
      cases step with
      | boundary loss refreshed => rw [(stepBoundary_ok refreshed).2.1]; exact nonnegBefore
      | blockPush env request recver shard sent pushed =>
          obtain ⟨-, key, blocks, scored⟩ := blockPush_ok_state pushed
          rw [scored]
          exact scoreAll_nonneg key alphaNonneg alphaLt nonnegBefore blocks

end Invariants

/-! ## A block-push op from a reachable state -/

/-- The configuration of the examples below: blocks of one value, four lossy channels, and the
rate `DMLC_K = 0.5`. -/
def Config.blocksOfOne (channels : Int) (rate : ℚ) : Config ℚ :=
  { Config.defaults [⟨0, keySpace⟩] (fun rank => 8 + 2 * rank) with
    enableBlock := true, blockSize := 1, enableDgt := true, dmlcK := some rate,
    dmlcKMin := some 0, adaptiveKFlag := some 0, udpChannelNum := some channels }

/-- From every reachable state, an op with the sort on and a lossy channel dispatches its
`R + 1` kept blocks with rank `j < R` on the segment channel of `j`, the terminal one last. -/
theorem blockPush_channels_by_rank {cfg : Config R} {st st' : DgtState R} {env : Environment R}
    {request : Request} {recver : Nat} {shard : KVPairs R} {sent : List (Message R × Dispatch)}
    (reachable : DgtReachable cfg st) (sortOn : cfg.setRandom = false)
    (countPos : 1 ≤ st.udpChannelNum)
    (result : blockPush cfg env st request recver shard = .ok (st', sent)) :
    let maxIndex := (keptBlocks cfg st request recver shard).length - 1
    sent.length = maxIndex + 1 ∧
    (∀ dispatched ∈ sent.getLast?, dispatched.1.terminal ∧ dispatched.1.header.channel = 0) ∧
    (∀ j dispatched, sent[j]? = some dispatched → j < maxIndex →
      dispatched.1.terminal = false ∧
      dispatched.1.header.channel = segmentChannel st.dmlcK j maxIndex st.udpChannelNum ∧
      (minIndex st.dmlcK maxIndex ≤ j →
        1 ≤ dispatched.1.header.channel ∧ dispatched.1.header.channel ≤ st.udpChannelNum)) ∧
    (∀ i j a b, sent[i]? = some a → sent[j]? = some b → i ≤ j → j < maxIndex →
      a.1.header.channel ≤ b.1.header.channel) ∧
    (((sent.dropLast.filter fun dispatched => dispatched.1.header.channel = 0).length : Int) =
      min (max (minIndex st.dmlcK maxIndex) 0) maxIndex) ∧
    (∀ a ∈ sent.dropLast, ∀ b ∈ sent.dropLast, b.1.contri < a.1.contri →
      a.1.header.channel ≤ b.1.header.channel) ∧
    ∀ draws : Nat → Nat,
      blockPush cfg { env with draws := draws } st request recver shard = .ok (st', sent) := by
  intro maxIndex
  have emptyVector := reachable.msgVector_eq_nil
  have countPos' : 0 < st.udpChannelNum := by omega
  obtain ⟨totalPos, blockPos, counted⟩ :=
    blockPush_ok_pos cfg st request recver shard emptyVector result
  obtain ⟨rest, last, split, terminal, others, closed⟩ :=
    blockPush_eq cfg st request recver shard emptyVector countPos' counted totalPos blockPos
  have unchanged (draws : Nat → Nat) :
      blockPush cfg { env with draws := draws } st request recver shard = .ok (st', sent) :=
    (closed _).trans ((closed env).symm.trans result)
  rw [closed env, Except.ok.injEq, Prod.mk.injEq] at result
  obtain ⟨-, rfl⟩ := result
  have arranged : ∀ msg ∈ arrange cfg rest, msg.terminal = false :=
    fun msg member => others msg ((arrange_perm cfg rest).mem_iff.mp member)
  have ranks : maxIndex = (arrange cfg rest).length := by
    simp [maxIndex, split, (arrange_perm cfg rest).length_eq]
  rw [← (arrange_perm cfg rest).length_eq] at unchanged ⊢
  rw [ranks]
  refine ⟨length_dispatchRanked cfg _, getLast?_dispatchRanked cfg _ terminal,
    fun j dispatched found below => ?_, fun i j a b foundA foundB le below => ?_,
    reliable_dispatchRanked cfg _ countPos' arranged,
    contri_dispatchRanked cfg _ countPos' arranged (arrange_sorted cfg sortOn rest), unchanged⟩
  · obtain ⟨msg, -, notTerminal, rfl⟩ := getElem?_dispatchRanked cfg _ arranged found below
    have bounds := segmentChannel_bounds st.dmlcK countPos'
      (show (j : Int) < (arrange cfg rest).length by exact_mod_cast below)
    rw [dispatchAt_channel cfg _ _ _ notTerminal]
    refine ⟨by simpa [dispatchAt] using notTerminal, rfl, fun atLeast => ⟨?_, bounds.2.2⟩⟩
    have lossy := mt bounds.1.mp (not_lt.mpr atLeast)
    omega
  · obtain ⟨msgA, -, terminalA, rfl⟩ := getElem?_dispatchRanked cfg _ arranged foundA (by omega)
    obtain ⟨msgB, -, terminalB, rfl⟩ := getElem?_dispatchRanked cfg _ arranged foundB below
    rw [dispatchAt_channel cfg _ _ _ terminalA, dispatchAt_channel cfg _ _ _ terminalB]
    exact segmentChannel_mono st.dmlcK countPos' (by exact_mod_cast le) (by exact_mod_cast below)

/-- At the second step with four lossy channels and `DMLC_K = 0.5`, four blocks of one value. -/
theorem blockPush_channels_by_rank_of_four_blocks :
    let cfg := Config.blocksOfOne 4 (1 / 2)
    let env : Environment ℚ := ⟨0, fun _ => 0⟩
    let request : Request := ⟨1, true, false, 0⟩
    let shard : KVPairs ℚ := ⟨[0], [9, 1, 5, 1 / 2], []⟩
    ∃ st, DgtReachable cfg st ∧ cfg.setRandom = false ∧ 1 ≤ st.udpChannelNum ∧
    ∃ st' sent, blockPush cfg env st request 8 shard = .ok (st', sent) ∧
    let maxIndex := (keptBlocks cfg st request 8 shard).length - 1
    sent.length = maxIndex + 1 ∧
    (∀ dispatched ∈ sent.getLast?, dispatched.1.terminal ∧ dispatched.1.header.channel = 0) ∧
    (∀ j dispatched, sent[j]? = some dispatched → j < maxIndex →
      dispatched.1.terminal = false ∧
      dispatched.1.header.channel = segmentChannel st.dmlcK j maxIndex st.udpChannelNum ∧
      (minIndex st.dmlcK maxIndex ≤ j →
        1 ≤ dispatched.1.header.channel ∧ dispatched.1.header.channel ≤ st.udpChannelNum)) ∧
    (∀ i j a b, sent[i]? = some a → sent[j]? = some b → i ≤ j → j < maxIndex →
      a.1.header.channel ≤ b.1.header.channel) ∧
    (((sent.dropLast.filter fun dispatched => dispatched.1.header.channel = 0).length : Int) =
      min (max (minIndex st.dmlcK maxIndex) 0) maxIndex) ∧
    (∀ a ∈ sent.dropLast, ∀ b ∈ sent.dropLast, b.1.contri < a.1.contri →
      a.1.header.channel ≤ b.1.header.channel) ∧
    ∀ draws : Nat → Nat,
      blockPush cfg { env with draws := draws } st request 8 shard = .ok (st', sent) := by
  intro cfg env request shard
  have reachable : DgtReachable cfg _ := Relation.ReflTransGen.tail
    (Relation.ReflTransGen.single (DgtStep.boundary 0 rfl)) (DgtStep.boundary 0 rfl)
  obtain ⟨rest, last, -, -, -, closed⟩ := blockPush_eq cfg _ request 8 shard
    reachable.msgVector_eq_nil (by decide) (by decide) (by decide) (by decide)
  exact ⟨_, reachable, rfl, by decide, _, _, closed env,
    blockPush_channels_by_rank reachable rfl (by decide) (closed env)⟩

/-! ## Scores over a run -/

/-- Scores stay non-negative over any run, so `CLEAR_ZERO` drops only blocks of zeros and the
kept blocks carry the whole sum of the shard's values. -/
theorem contri_nonneg_and_dropped_zero {cfg : Config R} (alphaNonneg : 0 ≤ cfg.contriAlpha)
    (alphaLt : cfg.contriAlpha < 1) :
    (∀ st, DgtReachable cfg st → st.scores.Nonneg) ∧
    (∀ scores : Scores R, scores.Nonneg → ∀ key msg value, value ∈ msg.vals → value ≠ 0 →
      0 < (evaluateMsgContri cfg.contriAlpha scores key msg).2.contri key msg.header.seq) ∧
    (∀ st, DgtReachable cfg st → ∀ request recver shard,
      ∀ msg ∈ (scoreAll cfg (toCInt (shard.keys.headD 0)) st.scores
          (buildBlocks request recver st.pushOpNum (st.blockSizeFor cfg shard) shard)).1,
        keptBlock cfg msg = false → msg.terminal = false ∧ ∀ value ∈ msg.vals, value = 0) ∧
    (∀ st, DgtReachable cfg st → ∀ request recver shard, shard.keys ≠ [] →
      shard.vals.length ≤ intMax → 0 < st.blockSizeFor cfg shard →
      ((keptBlocks cfg st request recver shard).map fun msg => msg.vals.sum).sum =
        shard.vals.sum) := by
  have dropped : ∀ st, DgtReachable cfg st → ∀ request recver shard,
      ∀ msg ∈ (scoreAll cfg (toCInt (shard.keys.headD 0)) st.scores
          (buildBlocks request recver st.pushOpNum (st.blockSizeFor cfg shard) shard)).1,
        keptBlock cfg msg = false → msg.terminal = false ∧ ∀ value ∈ msg.vals, value = 0 :=
    fun st reachable _ _ _ => scoreAll_dropped _ alphaNonneg alphaLt
      (reachable.scores_nonneg alphaNonneg alphaLt) _
  refine ⟨fun st reachable => reachable.scores_nonneg alphaNonneg alphaLt,
    fun scores nonneg key msg value member nonzero => ?_, dropped,
    fun st reachable request recver shard keysNonempty valsSmall blockPos => ?_⟩
  · rw [evaluateMsgContri_contri]
    exact evaluateMsgContri_pos alphaNonneg alphaLt nonneg key member nonzero
  · unfold keptBlocks
    rw [sum_filter_keptBlock cfg fun msg member drop =>
      (dropped st reachable request recver shard msg member drop).2]
    have tiled := (buildBlocks_eq request recver st.pushOpNum shard keysNonempty valsSmall
      blockPos).2
    rw [show (fun msg : Message R => msg.vals.sum) = List.sum ∘ Message.vals from rfl,
      ← List.map_map, map_vals_scoreAll, ← List.sum_flatten, tiled]

/-- Scores stay non-negative with the default `DGT_CONTRI_ALPHA = 0.3`. -/
theorem contri_nonneg_and_dropped_zero_of_defaults :
    let cfg : Config ℚ := Config.defaults [⟨0, keySpace⟩] (fun rank => 8 + 2 * rank)
    (0 ≤ cfg.contriAlpha ∧ cfg.contriAlpha < 1) ∧
    (∀ st, DgtReachable cfg st → st.scores.Nonneg) ∧
    (∀ scores : Scores ℚ, scores.Nonneg → ∀ key msg value, value ∈ msg.vals → value ≠ 0 →
      0 < (evaluateMsgContri cfg.contriAlpha scores key msg).2.contri key msg.header.seq) ∧
    (∀ st, DgtReachable cfg st → ∀ request recver shard,
      ∀ msg ∈ (scoreAll cfg (toCInt (shard.keys.headD 0)) st.scores
          (buildBlocks request recver st.pushOpNum (st.blockSizeFor cfg shard) shard)).1,
        keptBlock cfg msg = false → msg.terminal = false ∧ ∀ value ∈ msg.vals, value = 0) ∧
    (∀ st, DgtReachable cfg st → ∀ request recver shard, shard.keys ≠ [] →
      shard.vals.length ≤ intMax → 0 < st.blockSizeFor cfg shard →
      ((keptBlocks cfg st request recver shard).map fun msg => msg.vals.sum).sum =
        shard.vals.sum) := by
  intro cfg
  have alphaNonneg : 0 ≤ cfg.contriAlpha := by norm_num [cfg, Config.defaults]
  have alphaLt : cfg.contriAlpha < 1 := by norm_num [cfg, Config.defaults]
  exact ⟨⟨alphaNonneg, alphaLt⟩, contri_nonneg_and_dropped_zero alphaNonneg alphaLt⟩

/-! ## The largest score of an op -/

/-- After an op's block loop, `contri_max` and `pre_contri_max` of its first key hold the
op's largest score, whatever they held before. -/
theorem blockPush_contri_max {cfg : Config R} {st st' : DgtState R} {env : Environment R}
    {request : Request} {recver : Nat} {shard : KVPairs R} {sent : List (Message R × Dispatch)}
    (reachable : DgtReachable cfg st)
    (pushed : blockPush cfg env st request recver shard = .ok (st', sent)) :
    let key := toCInt (shard.keys.headD 0)
    let seqEnd := seqNum (toCInt shard.vals.length).toNat (st.blockSizeFor cfg shard).toNat - 1
    let top := ((List.range (seqEnd + 1)).map (st'.scores.contri key)).foldl max 0
    st'.scores.contriMax key = top ∧ st'.scores.preContriMax key = top ∧
      ∀ other, other ≠ key → st'.scores.contri other = st.scores.contri other ∧
        st'.scores.contriMax other = st.scores.contriMax other ∧
        st'.scores.preContriMax other = st.scores.preContriMax other := by
  intro key seqEnd top
  obtain ⟨totalPos, blockPos, -⟩ :=
    blockPush_ok_pos cfg st request recver shard reachable.msgVector_eq_nil pushed
  obtain rfl := blockPush_state pushed
  obtain ⟨block, blocks, headers⟩ :=
    buildBlocks_headers request recver st.pushOpNum shard blockPos
  obtain ⟨count, counted⟩ : ∃ count,
      seqNum (toCInt shard.vals.length).toNat (st.blockSizeFor cfg shard).toNat = count + 1 :=
    Nat.exists_eq_add_one.mpr (seqNum_pos (by omega))
  have lastSeq : seqEnd = count := by simp only [seqEnd, counted, Nat.add_sub_cancel]
  rw [counted] at blocks
  have seqs : (buildBlocks request recver st.pushOpNum (st.blockSizeFor cfg shard) shard).map
      (fun msg => msg.header.seq) = List.range' 0 (count + 1) := by
    rw [blocks, List.map_map, ← List.range_eq_range']
    exact List.map_congr_left (fun s _ => (headers s).1) |>.trans (List.map_id _)
  have blocksLength :
      (buildBlocks request recver st.pushOpNum (st.blockSizeFor cfg shard) shard).length =
        count + 1 := by
    rw [blocks, List.length_map, List.length_range]
  have maximum := (scoreAll_contriMax cfg key _ 0 st.scores (by rw [seqs, blocksLength])
    fun started => absurd started (Nat.lt_irrefl 0)).2
  rw [blocksLength, Nat.zero_add] at maximum
  refine ⟨?_, ?_, fun other differs => scoreAll_other cfg key st.scores _ differs⟩
  · simp only [top, lastSeq]
    exact maximum (by omega)
  · obtain ⟨front, last, split, terminal, -⟩ :=
      terminalLast_buildBlocks request recver st.pushOpNum shard totalPos blockPos
    simp only [top, lastSeq]
    rw [split, scoreAll_preContriMax cfg key st.scores front last (of_decide_eq_true terminal),
      ← split]
    exact maximum (by omega)

/-- At the second step, an op of two blocks of one value. -/
theorem blockPush_contri_max_of_two_blocks :
    let cfg := Config.blocksOfOne 4 (1 / 2)
    let shard : KVPairs ℚ := ⟨[0], [1, 2], []⟩
    ∃ st st' sent, DgtReachable cfg st ∧
      blockPush cfg ⟨0, fun _ => 0⟩ st ⟨1, true, false, 0⟩ 8 shard = .ok (st', sent) ∧
      let key := toCInt (shard.keys.headD 0)
      let seqEnd := seqNum (toCInt shard.vals.length).toNat (st.blockSizeFor cfg shard).toNat - 1
      let top := ((List.range (seqEnd + 1)).map (st'.scores.contri key)).foldl max 0
      st'.scores.contriMax key = top ∧ st'.scores.preContriMax key = top ∧
        ∀ other, other ≠ key → st'.scores.contri other = st.scores.contri other ∧
          st'.scores.contriMax other = st.scores.contriMax other ∧
          st'.scores.preContriMax other = st.scores.preContriMax other := by
  intro cfg shard
  have reachable : DgtReachable cfg _ := Relation.ReflTransGen.tail
    (Relation.ReflTransGen.single (DgtStep.boundary 0 rfl)) (DgtStep.boundary 0 rfl)
  obtain ⟨rest, last, -, -, -, closed⟩ := blockPush_eq cfg _ ⟨1, true, false, 0⟩ 8 shard
    reachable.msgVector_eq_nil (by decide) (by decide) (by decide) (by decide)
  exact ⟨_, _, _, reachable, closed ⟨0, fun _ => 0⟩,
    blockPush_contri_max reachable (closed ⟨0, fun _ => 0⟩)⟩

end Dgt
