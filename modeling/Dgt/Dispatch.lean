import Dgt.Fragment

/-!
# Scoring, ranking and dispatch of a block push

After the block loop, `msg_vector` holds the scored blocks that `CLEAR_ZERO` kept, the last
block of the shard always among them and always last. The ranking shuffles or sorts all but
that last block, and the dispatch loop hands block `j` the channel `Get_channel` gives rank
`j`, the last block channel `0`. With at least one lossy channel the search never falls back
to `rand()` below the last rank, so an op that starts with an empty `msg_vector` dispatches
exactly a permutation of its kept blocks, on channels that depend on the ranks alone. At
`udp_channel_num = INT_MAX` the `int` size of the per-channel counters wraps and the op throws
before it builds a block.
-/

namespace Dgt

/-! ## The terminal block -/

section Terminal

variable {R : Type}

/-- Whether a block is the last of its shard, `seq == seq_end`. -/
def Message.terminal (msg : Message R) : Bool :=
  msg.header.seq = msg.header.seqEnd

/-- The last block, and only the last, is terminal. -/
def TerminalLast (blocks : List (Message R)) : Prop :=
  ∃ rest last, blocks = rest ++ [last] ∧ last.terminal ∧ ∀ msg ∈ rest, msg.terminal = false

theorem terminalLast_cons {msg : Message R} {rest : List (Message R)} :
    TerminalLast (msg :: rest) ↔
      (rest = [] ∧ msg.terminal) ∨ (msg.terminal = false ∧ TerminalLast rest) := by
  constructor
  · rintro ⟨front, last, split, terminal, others⟩
    cases front with
    | nil =>
        obtain ⟨rfl, rfl⟩ := List.cons_eq_cons.mp split
        exact Or.inl ⟨rfl, terminal⟩
    | cons first front =>
        obtain ⟨rfl, rfl⟩ := List.cons_eq_cons.mp split
        exact Or.inr ⟨others _ (List.mem_cons_self _ _), front, last, rfl, terminal,
          fun other member => others other (List.mem_cons_of_mem _ member)⟩
  · rintro (⟨rfl, terminal⟩ | ⟨notTerminal, front, last, rfl, terminal, others⟩)
    · exact ⟨[], msg, rfl, terminal, by simp⟩
    · refine ⟨msg :: front, last, rfl, terminal, ?_⟩
      rintro other (_ | ⟨_, member⟩)
      · exact notTerminal
      · exact others other member

@[simp] theorem terminal_withChannel (msg : Message R) (channel : Int) :
    (msg.withChannel channel).terminal = msg.terminal := rfl

end Terminal

variable {R : Type} [LinearOrderedField R]

/-- The blocks of a shard with positive values and block size end with their only terminal
block. -/
theorem terminalLast_buildBlocks (request : Request) (recver pushOpNum : Nat) {blockSize : Int}
    (shard : KVPairs R) (totalPos : 0 < toCInt shard.vals.length) (blockPos : 0 < blockSize) :
    TerminalLast (buildBlocks request recver pushOpNum blockSize shard) := by
  obtain ⟨block, built, headers⟩ := buildBlocks_headers request recver pushOpNum shard blockPos
  obtain ⟨count, counted⟩ : ∃ count,
      seqNum (toCInt shard.vals.length).toNat blockSize.toNat = count + 1 :=
    Nat.exists_eq_add_one.mpr (seqNum_pos (by omega))
  rw [built, counted, List.range_succ, List.map_append]
  refine ⟨_, _, rfl, by simp [Message.terminal, headers, counted], fun msg member => ?_⟩
  obtain ⟨s, sLt, rfl⟩ := List.mem_map.mp member
  have := List.mem_range.mp sLt
  simp only [Message.terminal, headers, counted, decide_eq_false_iff_not]
  omega

/-! ## Scoring -/

section Scoring

variable (cfg : Config R) (key : Int)

/-- The blocks of an op with the scores the block loop gives them, in loop order, and the
maps it leaves. -/
def scoreAll : Scores R → List (Message R) → List (Message R) × Scores R
  | scores, [] => ([], scores)
  | scores, msg :: rest =>
      let scored := evaluateMsgContri cfg.contriAlpha scores key msg
      let later := scoreAll scored.2 rest
      ({ msg with contri := scored.1 } :: later.1, later.2)

/-- The scoring steps of the block loop leave the maps of `scoreAll` and append its kept
blocks to `msg_vector`. -/
theorem foldl_scoreBlock (blocks : List (Message R)) (st : DgtState R) :
    blocks.foldl (scoreBlock cfg key) st =
      { st with
        scores := (scoreAll cfg key st.scores blocks).2
        msgVector := st.msgVector ++ (scoreAll cfg key st.scores blocks).1.filter
          (keptBlock cfg) } := by
  induction blocks generalizing st with
  | nil => simp [scoreAll]
  | cons msg rest inductionHypothesis =>
      rw [List.foldl_cons, inductionHypothesis]
      simp only [scoreBlock, scoreAll, List.filter_cons]
      split <;> simp

theorem map_header_scoreAll (scores : Scores R) (blocks : List (Message R)) :
    (scoreAll cfg key scores blocks).1.map Message.header = blocks.map Message.header := by
  induction blocks generalizing scores with
  | nil => rfl
  | cons msg rest inductionHypothesis =>
      simp only [scoreAll, List.map_cons, inductionHypothesis]

theorem map_vals_scoreAll (scores : Scores R) (blocks : List (Message R)) :
    (scoreAll cfg key scores blocks).1.map Message.vals = blocks.map Message.vals := by
  induction blocks generalizing scores with
  | nil => rfl
  | cons msg rest inductionHypothesis =>
      simp only [scoreAll, List.map_cons, inductionHypothesis]

theorem keptBlock_of_terminal {msg : Message R} (terminal : msg.terminal) :
    keptBlock cfg msg = true := by
  simp_all [keptBlock, Message.terminal]

theorem terminalLast_scoreAll {blocks : List (Message R)} (terminalLast : TerminalLast blocks)
    (scores : Scores R) : TerminalLast (scoreAll cfg key scores blocks).1 := by
  induction blocks generalizing scores with
  | nil =>
      obtain ⟨rest, last, split, -⟩ := terminalLast
      simp at split
  | cons msg rest inductionHypothesis =>
      rw [terminalLast_cons] at terminalLast
      rw [scoreAll, terminalLast_cons]
      rcases terminalLast with ⟨rfl, terminal⟩ | ⟨notTerminal, later⟩
      · exact Or.inl ⟨rfl, terminal⟩
      · exact Or.inr ⟨notTerminal, inductionHypothesis later _⟩

theorem terminalLast_filter {blocks : List (Message R)} (terminalLast : TerminalLast blocks) :
    TerminalLast (blocks.filter (keptBlock cfg)) := by
  obtain ⟨rest, last, rfl, terminal, others⟩ := terminalLast
  refine ⟨rest.filter (keptBlock cfg), last, ?_, terminal,
    fun msg member => others msg (List.mem_of_mem_filter member)⟩
  simp [List.filter_append, keptBlock_of_terminal cfg terminal]

/-- The blocks an op drops add nothing to the sum of its values. -/
theorem sum_filter_keptBlock {blocks : List (Message R)}
    (dropped : ∀ msg ∈ blocks, keptBlock cfg msg = false → ∀ value ∈ msg.vals, value = 0) :
    ((blocks.filter (keptBlock cfg)).map fun msg => msg.vals.sum).sum =
      (blocks.map fun msg => msg.vals.sum).sum := by
  induction blocks with
  | nil => rfl
  | cons msg rest inductionHypothesis =>
      have later := inductionHypothesis fun other member => dropped other
        (List.mem_cons_of_mem _ member)
      by_cases kept : keptBlock cfg msg
      · simp [List.filter_cons, kept, later]
      · have zeros := dropped msg (List.mem_cons_self _ _) (by simpa using kept)
        simp [List.filter_cons, kept, later, List.sum_eq_zero zeros]

/-! ### The largest score of an op -/

theorem scoreAll_append (scores : Scores R) (front back : List (Message R)) :
    (scoreAll cfg key scores (front ++ back)).2 =
      (scoreAll cfg key (scoreAll cfg key scores front).2 back).2 := by
  induction front generalizing scores with
  | nil => rfl
  | cons msg rest inductionHypothesis => exact inductionHypothesis _

/-- Scoring leaves the maps of every other key as they were. -/
theorem scoreAll_other (scores : Scores R) (blocks : List (Message R)) {other : Int}
    (differs : other ≠ key) :
    (scoreAll cfg key scores blocks).2.contri other = scores.contri other ∧
      (scoreAll cfg key scores blocks).2.contriMax other = scores.contriMax other ∧
      (scoreAll cfg key scores blocks).2.preContriMax other = scores.preContriMax other := by
  induction blocks generalizing scores with
  | nil => exact ⟨rfl, rfl, rfl⟩
  | cons msg rest inductionHypothesis =>
      obtain ⟨contri, contriMax, preContriMax⟩ := inductionHypothesis
        (evaluateMsgContri cfg.contriAlpha scores key msg).2
      refine ⟨contri.trans (funext fun seq => ?_), contriMax.trans ?_, preContriMax.trans ?_⟩ <;>
        simp [evaluateMsgContri_snd, differs]

/-- The loop invariant of `contri_max`: after the blocks of sequence numbers `j, j + 1, ...`,
the scores of the earlier sequence numbers stay, and `contri_max[key]` is the largest of `0`
and the scores of every sequence number so far, block `0` having restarted it. -/
theorem scoreAll_contriMax (blocks : List (Message R)) :
    ∀ (j : Nat) (scores : Scores R),
      blocks.map (fun msg => msg.header.seq) = List.range' j blocks.length →
      (0 < j → scores.contriMax key = ((List.range j).map (scores.contri key)).foldl max 0) →
      (∀ t < j, (scoreAll cfg key scores blocks).2.contri key t = scores.contri key t) ∧
      (0 < j + blocks.length → (scoreAll cfg key scores blocks).2.contriMax key =
        ((List.range (j + blocks.length)).map
          ((scoreAll cfg key scores blocks).2.contri key)).foldl max 0) := by
  induction blocks with
  | nil => exact fun j scores _ before => ⟨fun _ _ => rfl, before⟩
  | cons msg rest inductionHypothesis =>
      intro j scores seqs before
      simp only [List.map_cons, List.length_cons, List.range'_succ, List.cons.injEq] at seqs
      obtain ⟨seqIsJ, restSeqs⟩ := seqs
      set scored := (evaluateMsgContri cfg.contriAlpha scores key msg).2
      have scoredEarlier (t : Nat) (earlier : t < j) : scored.contri key t = scores.contri key t := by
        simp [scored, evaluateMsgContri_snd, seqIsJ, Nat.ne_of_lt earlier]
      have scoredMax : scored.contriMax key =
          ((List.range (j + 1)).map (scored.contri key)).foldl max 0 := by
        rw [List.range_succ, List.map_append, List.foldl_append,
          List.map_congr_left fun t member => scoredEarlier t (List.mem_range.mp member)]
        rcases Nat.eq_zero_or_pos j with rfl | started
        · simp only [scored, evaluateMsgContri_snd, seqIsJ, updateContriMax_contriMax,
            updateContriMax_contri, Scores.setContri_contri, and_self, if_true, List.range_zero,
            List.map_nil, List.foldl_nil, List.map_cons, List.foldl_cons]
        · simp [scored, evaluateMsgContri_snd, seqIsJ, ← before started, Nat.pos_iff_ne_zero.mp started]
      obtain ⟨kept, maximum⟩ := inductionHypothesis (j + 1) scored restSeqs fun _ => scoredMax
      refine ⟨fun t earlier => (kept t (by omega)).trans (scoredEarlier t earlier), fun _ => ?_⟩
      rw [List.length_cons, show j + (rest.length + 1) = j + 1 + rest.length by omega]
      exact maximum (by omega)

/-- When the last block scored is the terminal one, `pre_contri_max[key]` is the final
`contri_max[key]`. -/
theorem scoreAll_preContriMax (scores : Scores R) (front : List (Message R)) (last : Message R)
    (terminal : last.header.seq = last.header.seqEnd) :
    (scoreAll cfg key scores (front ++ [last])).2.preContriMax key =
      (scoreAll cfg key scores (front ++ [last])).2.contriMax key := by
  rw [scoreAll_append]
  simp [scoreAll, evaluateMsgContri_snd, terminal]

/-- The blocks of an op that stay in `msg_vector`, scored, in loop order. -/
def keptBlocks [FloorRing R] (st : DgtState R) (request : Request) (recver : Nat)
    (shard : KVPairs R) : List (Message R) :=
  (scoreAll cfg (toCInt (shard.keys.headD 0)) st.scores
    (buildBlocks request recver st.pushOpNum (st.blockSizeFor cfg shard) shard)).1.filter
      (keptBlock cfg)

end Scoring

/-! ## Scores and dropped blocks -/

section Weight

variable {cfg : Config R} (key : Int) (alphaNonneg : 0 ≤ cfg.contriAlpha)
  (alphaLt : cfg.contriAlpha < 1)
include alphaNonneg alphaLt

/-- Scoring a run of blocks keeps every moving average non-negative. -/
theorem scoreAll_nonneg {scores : Scores R} (nonneg : scores.Nonneg)
    (blocks : List (Message R)) : (scoreAll cfg key scores blocks).2.Nonneg := by
  induction blocks generalizing scores with
  | nil => exact nonneg
  | cons msg rest inductionHypothesis =>
      exact inductionHypothesis (evaluateMsgContri_preserves_nonneg alphaNonneg alphaLt nonneg _ _)

/-- A block the loop does not keep is short of the last block and all zeros. -/
theorem scoreAll_dropped {scores : Scores R} (nonneg : scores.Nonneg)
    (blocks : List (Message R)) :
    ∀ msg ∈ (scoreAll cfg key scores blocks).1, keptBlock cfg msg = false →
      msg.terminal = false ∧ ∀ value ∈ msg.vals, value = 0 := by
  induction blocks generalizing scores with
  | nil => simp [scoreAll]
  | cons msg rest inductionHypothesis =>
      intro scored member dropped
      rcases List.mem_cons.mp member with rfl | later
      · simp only [keptBlock, Bool.or_eq_false_iff, Bool.not_eq_false', decide_eq_false_iff_not,
          not_not] at dropped
        refine ⟨by simpa [Message.terminal] using dropped.2, fun value member => ?_⟩
        by_contra nonzero
        exact (evaluateMsgContri_pos alphaNonneg alphaLt nonneg key member nonzero).ne'
          dropped.1.2
      · exact inductionHypothesis
          (evaluateMsgContri_preserves_nonneg alphaNonneg alphaLt nonneg _ _) scored later dropped

end Weight

/-! ## Ranking -/

section Ranking

variable (cfg : Config R)

/-- The order the ranking gives all blocks but the last: shuffled, or sorted by descending
score. -/
def arrange (blocks : List (Message R)) : List (Message R) :=
  if cfg.setRandom then cfg.shuffle.run blocks else cfg.sort.run blocks

theorem arrange_perm (blocks : List (Message R)) : (arrange cfg blocks).Perm blocks := by
  unfold arrange
  split
  · exact cfg.shuffle.perm blocks
  · exact cfg.sort.perm blocks

theorem arrange_sorted (sortOn : cfg.setRandom = false) (blocks : List (Message R)) :
    (arrange cfg blocks).Pairwise fun a b => b.contri ≤ a.contri := by
  simp only [arrange, sortOn]
  exact cfg.sort.sorted blocks

theorem rankBlocks_append (rest : List (Message R)) (last : Message R) :
    rankBlocks cfg (rest ++ [last]) = .ok (arrange cfg rest ++ [last]) := by
  unfold rankBlocks arrange
  cases cfg.setRandom <;> simp

end Ranking

/-! ## Dispatch -/

section Dispatch

variable [FloorRing R] (cfg : Config R)

/-- The dispatch of block `j` when the segment search decides its channel: the segment
channel of its rank, or `0` for the last block of the shard. -/
def dispatchAt (k : R) (C maxIndex : Int) (j : Nat) (msg : Message R) : Message R × Dispatch :=
  let channel := if msg.terminal then 0 else segmentChannel k j maxIndex C
  (msg.withChannel channel, if cfg.enableDgt then .classified channel else .plain)

theorem dispatchBlock_eq (k : R) {C : Int} (draws : Nat → Nat) {maxIndex : Int} {j : Nat}
    {msg : Message R} (countPos : 0 < C) (decided : (j : Int) < maxIndex ∨ msg.terminal) :
    dispatchBlock cfg k C draws maxIndex j msg = .ok (dispatchAt cfg k C maxIndex j msg) := by
  by_cases terminal : msg.terminal
  · obtain ⟨computed, found⟩ : ∃ computed, getChannel j maxIndex C k (draws j) = .ok computed :=
      getChannel_ok _ _ countPos.ne'
    simp_all [dispatchBlock, dispatchAt, Message.terminal, bind, Except.bind, pure, Except.pure]
  · have below := decided.resolve_right terminal
    simp_all [dispatchBlock, dispatchAt, Message.terminal, getChannel_of_lt _ _ countPos below,
      bind, Except.bind, pure, Except.pure]

/-- With a lossy channel, and only last blocks at ranks from `max_index` on, the dispatch loop
dispatches every block by `dispatchAt`. -/
theorem dispatchLoop_eq (k : R) {C : Int} (draws : Nat → Nat) {maxIndex : Int}
    (countPos : 0 < C) (j : Nat) (blocks : List (Message R))
    (decided : ∀ entry ∈ blocks.enumFrom j, (entry.1 : Int) < maxIndex ∨ entry.2.terminal) :
    dispatchLoop cfg k C draws maxIndex j blocks =
      .ok ((blocks.enumFrom j).map fun entry => dispatchAt cfg k C maxIndex entry.1 entry.2) := by
  induction blocks generalizing j with
  | nil => rfl
  | cons msg rest inductionHypothesis =>
      simp only [List.enumFrom_cons, List.forall_mem_cons] at decided
      rw [dispatchLoop, dispatchBlock_eq cfg k draws countPos decided.1,
        inductionHypothesis _ decided.2]
      rfl

end Dispatch

/-! ## A block-push op -/

section Op

variable [FloorRing R] (cfg : Config R) (st : DgtState R) (request : Request) (recver : Nat)
  (shard : KVPairs R)

/-- An op that starts with an empty `msg_vector`, with values and a positive block size, keeps
its blocks with the terminal one last, ranks all but that one, and runs the dispatch loop over
the ranked blocks. -/
theorem blockPush_eq_dispatchLoop (emptyVector : st.msgVector = [])
    (counted : 0 ≤ wrapInt (st.udpChannelNum + 1)) (totalPos : 0 < toCInt shard.vals.length)
    (blockPos : 0 < st.blockSizeFor cfg shard) :
    ∃ rest last, keptBlocks cfg st request recver shard = rest ++ [last] ∧ last.terminal ∧
      (∀ msg ∈ rest, msg.terminal = false) ∧ ∀ env : Environment R,
      blockPush cfg env st request recver shard =
        (fun sent => ({ st with
              blockSize := st.blockSizeFor cfg shard
              scores := (scoreAll cfg (toCInt (shard.keys.headD 0)) st.scores
                (buildBlocks request recver st.pushOpNum (st.blockSizeFor cfg shard) shard)).2
              msgVector := [] }, sent)) <$>
          dispatchLoop cfg st.dmlcK st.udpChannelNum env.draws rest.length 0
            (arrange cfg rest ++ [last]) := by
  obtain ⟨rest, last, split, terminal, others⟩ := terminalLast_filter cfg
    (terminalLast_scoreAll cfg _
      (terminalLast_buildBlocks request recver st.pushOpNum shard totalPos blockPos) st.scores)
  refine ⟨rest, last, split, terminal, others, fun env => ?_⟩
  have maxIndex : (((arrange cfg rest ++ [last]).length : Nat) : Int) - 1 = rest.length := by
    simp [(arrange_perm cfg rest).length_eq]
  unfold blockPush
  simp only [if_neg blockPos.ne', if_neg (not_lt.mpr counted),
    if_neg (show ¬(toCInt shard.vals.length ≠ 0 ∧ (toCInt shard.vals.length < 0 ∨
      st.blockSizeFor cfg shard < 0)) by omega), foldl_scoreBlock, emptyVector, List.nil_append]
  unfold keptBlocks at split
  rw [split, rankBlocks_append]
  simp only [bind, Except.bind, maxIndex]
  rfl

/-- With a lossy channel besides, the op dispatches the ranked blocks in rank order, the
terminal block at the last rank, whatever `rand()` returns. -/
theorem blockPush_eq (emptyVector : st.msgVector = []) (countPos : 0 < st.udpChannelNum)
    (counted : 0 ≤ wrapInt (st.udpChannelNum + 1)) (totalPos : 0 < toCInt shard.vals.length)
    (blockPos : 0 < st.blockSizeFor cfg shard) :
    ∃ rest last, keptBlocks cfg st request recver shard = rest ++ [last] ∧ last.terminal ∧
      (∀ msg ∈ rest, msg.terminal = false) ∧ ∀ env : Environment R,
      blockPush cfg env st request recver shard =
        .ok ({ st with
              blockSize := st.blockSizeFor cfg shard
              scores := (scoreAll cfg (toCInt (shard.keys.headD 0)) st.scores
                (buildBlocks request recver st.pushOpNum (st.blockSizeFor cfg shard) shard)).2
              msgVector := [] },
            (arrange cfg rest ++ [last]).enum.map fun entry =>
              dispatchAt cfg st.dmlcK st.udpChannelNum rest.length entry.1 entry.2) := by
  obtain ⟨rest, last, split, terminal, others, looped⟩ := blockPush_eq_dispatchLoop cfg st
    request recver shard emptyVector counted totalPos blockPos
  refine ⟨rest, last, split, terminal, others, fun env => ?_⟩
  have decided : ∀ entry ∈ (arrange cfg rest ++ [last]).enumFrom 0,
      (entry.1 : Int) < rest.length ∨ entry.2.terminal := by
    intro entry member
    rw [List.enumFrom_append, List.mem_append] at member
    rcases member with early | final
    · have := (List.mem_enumFrom early).2.1
      rw [(arrange_perm cfg rest).length_eq] at this
      omega
    · simp only [List.enumFrom_cons, List.enumFrom_nil, List.mem_singleton] at final
      exact Or.inr (final ▸ terminal)
  rw [looped env, dispatchLoop_eq cfg _ env.draws countPos 0 _ decided]
  rfl

/-- With `DMLC_UDP_CHANNEL_NUM = INT_MAX` the `int` sum `udp_channel_num + 1` wraps negative,
and an op with a non-zero block size fails to size its per-channel counters. -/
theorem blockPush_of_count_overflow (overflow : st.udpChannelNum = intMax)
    (blockNonzero : st.blockSizeFor cfg shard ≠ 0) (env : Environment R) :
    blockPush cfg env st request recver shard = .error .lengthError := by
  unfold blockPush
  simp only [if_neg blockNonzero, overflow, if_pos wrapInt_intMax_add_one]

/-- The kept blocks still carry channel `0`. -/
theorem keptBlocks_channel :
    ∀ msg ∈ keptBlocks cfg st request recver shard, msg.header.channel = 0 := by
  intro msg member
  have scored := List.mem_map_of_mem Message.header (List.mem_of_mem_filter member)
  rw [map_header_scoreAll] at scored
  obtain ⟨block, built, sameHeader⟩ := List.mem_map.mp scored
  rw [← sameHeader]
  exact buildBlocks_channel request recver _ _ shard block built

end Op

/-! ## The dispatched blocks -/

section Dispatched

variable [FloorRing R] (cfg : Config R) (k : R) (C maxIndex : Int)

/-- The indices of an enumeration increase. -/
theorem pairwise_enumFrom_lt {α : Type} (start : Nat) (items : List α) :
    (items.enumFrom start).Pairwise fun a b => a.1 < b.1 := by
  induction items generalizing start with
  | nil => exact List.Pairwise.nil
  | cons item rest inductionHypothesis =>
      rw [List.enumFrom_cons, List.pairwise_cons]
      exact ⟨fun entry member => List.le_fst_of_mem_enumFrom member,
        inductionHypothesis (start + 1)⟩

/-- Channel aside, the dispatched blocks are the blocks in rank order. -/
theorem map_dispatchAt_withChannel (blocks : List (Message R))
    (stamped : ∀ msg ∈ blocks, msg.header.channel = 0) :
    (blocks.enum.map fun entry => dispatchAt cfg k C maxIndex entry.1 entry.2).map
      (fun sent => sent.1.withChannel 0) = blocks := by
  rw [List.map_map]
  conv => rhs; rw [← List.enum_map_snd blocks, ← List.map_id (List.map Prod.snd _)]
  rw [List.map_map]
  refine List.map_congr_left fun entry member => ?_
  simp only [Function.comp, dispatchAt, Message.withChannel_withChannel, id]
  exact Message.withChannel_of_channel (stamped _ (List.snd_mem_of_mem_enum member))

theorem enum_concat {α : Type} (items : List α) (last : α) :
    (items ++ [last]).enum = items.enum ++ [(items.length, last)] := by
  rw [List.enum_append, List.enumFrom_singleton]

/-- The scores of the ranked blocks, carried by their dispatches. -/
theorem pairwise_dispatchAt_contri {blocks : List (Message R)}
    (sorted : blocks.Pairwise fun a b => b.contri ≤ a.contri) :
    (blocks.enum.map fun entry => dispatchAt cfg k C maxIndex entry.1 entry.2).Pairwise
      fun a b => b.1.contri ≤ a.1.contri := by
  rw [← List.enum_map_snd blocks, List.pairwise_map] at sorted
  exact List.pairwise_map.mpr (sorted.imp fun holds => by simpa [dispatchAt] using holds)

/-- Over blocks that are not last, the dispatched channel is the segment channel of the
rank. -/
theorem dispatchAt_channel {j : Nat} {msg : Message R} (notTerminal : msg.terminal = false) :
    (dispatchAt cfg k C maxIndex j msg).1.header.channel = segmentChannel k j maxIndex C := by
  simp [dispatchAt, notTerminal]

end Dispatched

/-! ## The outcome of an op -/

section Outcome

variable [FloorRing R] (cfg : Config R) (env : Environment R) (st : DgtState R)
  (request : Request) (recver : Nat) (shard : KVPairs R)

/-- An op from an empty `msg_vector` with a lossy channel dispatches its kept blocks once each,
the terminal one last on channel `0`. -/
theorem blockPush_dispatches (emptyVector : st.msgVector = []) (countPos : 0 < st.udpChannelNum)
    (countBelow : st.udpChannelNum < intMax) (totalPos : 0 < toCInt shard.vals.length)
    (blockPos : 0 < st.blockSizeFor cfg shard) :
    ∃ st' sent, blockPush cfg env st request recver shard = .ok (st', sent) ∧
      st'.msgVector = [] ∧
      (sent.map fun dispatched => dispatched.1.withChannel 0).Perm
        (keptBlocks cfg st request recver shard) ∧
      (∃ rest last, sent = rest ++ [last] ∧ last.1.terminal ∧ last.1.header.channel = 0 ∧
        (∀ dispatched ∈ rest, dispatched.1.terminal = false) ∧
        (cfg.setRandom = false → rest.Pairwise fun a b => b.1.contri ≤ a.1.contri)) ∧
      ∀ dispatched ∈ sent,
        (0 ≤ dispatched.1.header.channel ∧ dispatched.1.header.channel ≤ st.udpChannelNum) ∧
        dispatched.2 =
          if cfg.enableDgt then .classified dispatched.1.header.channel else .plain := by
  obtain ⟨rest, last, split, terminal, others, closed⟩ :=
    blockPush_eq cfg st request recver shard emptyVector countPos
      (wrapInt_succ_nonneg countPos.le countBelow) totalPos blockPos
  have ranked : (arrange cfg rest ++ [last]).Perm (keptBlocks cfg st request recver shard) :=
    split ▸ (arrange_perm cfg rest).append_right [last]
  have arranged : ∀ msg ∈ arrange cfg rest, msg.terminal = false :=
    fun msg member => others msg ((arrange_perm cfg rest).mem_iff.mp member)
  refine ⟨_, _, closed env, rfl, ?_, ?_, ?_⟩
  · rw [map_dispatchAt_withChannel cfg _ _ _ _ fun msg member =>
      keptBlocks_channel cfg st request recver shard msg (ranked.mem_iff.mp member)]
    exact ranked
  · rw [enum_concat, List.map_append, List.map_singleton]
    refine ⟨_, _, rfl, by simpa [dispatchAt] using terminal, by simp [dispatchAt, terminal],
      ?_, fun sortOn => pairwise_dispatchAt_contri cfg _ _ _ (arrange_sorted cfg sortOn rest)⟩
    intro dispatched member
    obtain ⟨entry, entered, rfl⟩ := List.mem_map.mp member
    simpa [dispatchAt] using arranged entry.2 (List.snd_mem_of_mem_enum entered)
  · intro dispatched member
    rw [enum_concat, List.map_append, List.map_singleton, List.mem_append,
      List.mem_singleton] at member
    rcases member with inRest | rfl
    · obtain ⟨entry, entered, rfl⟩ := List.mem_map.mp inRest
      have ranks := List.fst_lt_of_mem_enum entered
      rw [(arrange_perm cfg rest).length_eq] at ranks
      have bounds := segmentChannel_bounds st.dmlcK countPos
        (show (entry.1 : Int) < rest.length by omega)
      simp only [dispatchAt, arranged entry.2 (List.snd_mem_of_mem_enum entered),
        Bool.false_eq_true, if_false, Message.withChannel_header_channel]
      exact ⟨bounds.2, trivial⟩
    · simp only [dispatchAt, terminal, if_true, Message.withChannel_header_channel]
      exact ⟨⟨le_rfl, countPos.le⟩, trivial⟩

/-- An op that succeeds from an empty `msg_vector` had values, a positive block size and
counters of a non-negative size: with no value its loop builds no block and the ranking finds
the vector empty. -/
theorem blockPush_ok_pos {env : Environment R} {st' : DgtState R}
    {sent : List (Message R × Dispatch)} (emptyVector : st.msgVector = [])
    (result : blockPush cfg env st request recver shard = .ok (st', sent)) :
    0 < toCInt shard.vals.length ∧ 0 < st.blockSizeFor cfg shard ∧
      0 ≤ wrapInt (st.udpChannelNum + 1) := by
  unfold blockPush at result
  dsimp only at result
  split_ifs at result with zero counted segment
  have sizes : 0 < toCInt shard.vals.length ∧ 0 < st.blockSizeFor cfg shard := by
    by_contra notBoth
    have totalZero : toCInt shard.vals.length = 0 := by omega
    simp [buildBlocks, totalZero, blockLoop, emptyVector, rankBlocks, bind, Except.bind] at result
  exact ⟨sizes.1, sizes.2, not_lt.mp counted⟩

/-- Among the ranks `[0, n)`, `min(max(m, 0), n)` lie below `m`. -/
theorem length_filter_range_lt (n : Nat) (m : Int) :
    (((List.range n).filter fun i : Nat => decide ((i : Int) < m)).length : Int) =
      min (max m 0) n := by
  induction n with
  | zero => simp
  | succ n inductionHypothesis =>
      rw [List.range_succ, List.filter_append, List.length_append, Nat.cast_add,
        inductionHypothesis]
      by_cases below : (n : Int) < m
      · simp only [List.filter_cons, below, decide_True, if_true, List.filter_nil,
          List.length_singleton]
        omega
      · simp only [List.filter_cons, below, decide_False, Bool.false_eq_true, if_false,
          List.filter_nil, List.length_nil]
        omega

end Outcome

/-! ## Channels by rank -/

section ByRank

variable [FloorRing R] (cfg : Config R) (k : R) {C : Int} {blocks : List (Message R)}
  {last : Message R}

/-- The dispatch loop over ranked blocks followed by the terminal one hands out one message
per block. -/
theorem length_dispatchRanked :
    ((blocks ++ [last]).enum.map fun entry =>
      dispatchAt cfg k C blocks.length entry.1 entry.2).length = blocks.length + 1 := by
  simp

/-- The last message is the terminal block, on channel `0`. -/
theorem getLast?_dispatchRanked (terminal : last.terminal) :
    ∀ dispatched ∈ ((blocks ++ [last]).enum.map fun entry =>
      dispatchAt cfg k C blocks.length entry.1 entry.2).getLast?,
      dispatched.1.terminal ∧ dispatched.1.header.channel = 0 := by
  rw [enum_concat, List.map_append, List.map_singleton, List.getLast?_concat]
  rintro dispatched ⟨⟩
  simp [dispatchAt, terminal]

/-- The message at a rank `j` short of the last is block `j`, dispatched at rank `j`. -/
theorem getElem?_dispatchRanked (arranged : ∀ msg ∈ blocks, msg.terminal = false) {j : Nat}
    {dispatched : Message R × Dispatch}
    (found : ((blocks ++ [last]).enum.map fun entry =>
      dispatchAt cfg k C blocks.length entry.1 entry.2)[j]? = some dispatched)
    (below : j < blocks.length) :
    ∃ msg ∈ blocks, msg.terminal = false ∧
      dispatched = dispatchAt cfg k C blocks.length j msg := by
  rw [enum_concat, List.map_append, List.getElem?_append_left (by simpa using below),
    List.getElem?_map, List.getElem?_enum, Option.map_map] at found
  obtain ⟨msg, atIndex, rfl⟩ := Option.map_eq_some'.mp found
  have member := List.getElem?_mem atIndex
  exact ⟨msg, member, arranged msg member, rfl⟩

/-- Short of the last, `min(max(m, 0), R)` messages go on the reliable channel, for
`m = min_index` and `R` ranked blocks. -/
theorem reliable_dispatchRanked (countPos : 0 < C)
    (arranged : ∀ msg ∈ blocks, msg.terminal = false) :
    ((((blocks ++ [last]).enum.map fun entry =>
      dispatchAt cfg k C blocks.length entry.1 entry.2).dropLast.filter
        fun dispatched => dispatched.1.header.channel = 0).length : Int) =
      min (max (minIndex k blocks.length) 0) blocks.length := by
  rw [enum_concat, List.map_append, List.map_singleton, List.dropLast_concat, List.filter_map,
    List.length_map]
  have reliable : blocks.enum.filter ((fun dispatched : Message R × Dispatch =>
        decide (dispatched.1.header.channel = 0)) ∘ fun entry =>
          dispatchAt cfg k C blocks.length entry.1 entry.2) =
      blocks.enum.filter fun entry => decide ((entry.1 : Int) < minIndex k blocks.length) := by
    refine List.filter_congr fun entry member => ?_
    have rank := List.fst_lt_of_mem_enum member
    simp only [Function.comp, dispatchAt_channel cfg _ _ _
      (arranged _ (List.snd_mem_of_mem_enum member)),
      (segmentChannel_bounds k countPos (show (entry.1 : Int) < blocks.length by omega)).1]
  have counted : (blocks.enum.filter fun entry =>
        decide ((entry.1 : Int) < minIndex k blocks.length)).length =
      ((List.range blocks.length).filter fun i : Nat =>
        decide ((i : Int) < minIndex k blocks.length)).length := by
    rw [← List.enum_map_fst, List.filter_map, List.length_map]
    rfl
  rw [reliable, counted, length_filter_range_lt]

/-- Short of the last, a block of a higher score never gets a higher channel. -/
theorem contri_dispatchRanked (countPos : 0 < C)
    (arranged : ∀ msg ∈ blocks, msg.terminal = false)
    (sorted : blocks.Pairwise fun a b => b.contri ≤ a.contri) :
    ∀ a ∈ ((blocks ++ [last]).enum.map fun entry =>
        dispatchAt cfg k C blocks.length entry.1 entry.2).dropLast,
      ∀ b ∈ ((blocks ++ [last]).enum.map fun entry =>
        dispatchAt cfg k C blocks.length entry.1 entry.2).dropLast,
      b.1.contri < a.1.contri → a.1.header.channel ≤ b.1.header.channel := by
  rw [enum_concat, List.map_append, List.map_singleton, List.dropLast_concat]
  have ordered : (blocks.enum.map fun entry =>
      dispatchAt cfg k C blocks.length entry.1 entry.2).Pairwise
        fun a b => b.1.contri ≤ a.1.contri ∧ a.1.header.channel ≤ b.1.header.channel := by
    rw [← List.enum_map_snd blocks, List.pairwise_map] at sorted
    refine List.pairwise_map.mpr (((pairwise_enumFrom_lt 0 _).and sorted).imp_of_mem
      fun memberA memberB holds => ?_)
    have rank := List.fst_lt_of_mem_enum memberB
    rw [dispatchAt_channel cfg _ _ _ (arranged _ (List.snd_mem_of_mem_enum memberA)),
      dispatchAt_channel cfg _ _ _ (arranged _ (List.snd_mem_of_mem_enum memberB))]
    exact ⟨by simpa [dispatchAt] using holds.2,
      segmentChannel_mono k countPos (by exact_mod_cast holds.1.le) (by exact_mod_cast rank)⟩
  intro a memberA b memberB higher
  obtain ⟨i, iLt, rfl⟩ := List.getElem_of_mem memberA
  obtain ⟨j, jLt, rfl⟩ := List.getElem_of_mem memberB
  rcases lt_trichotomy i j with before | rfl | after
  · exact (List.pairwise_iff_getElem.mp ordered i j iLt jLt before).2
  · exact absurd higher (lt_irrefl _)
  · exact absurd (List.pairwise_iff_getElem.mp ordered j i jLt iLt after).1 (not_le.mpr higher)

end ByRank

end Dgt
