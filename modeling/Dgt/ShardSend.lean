import Dgt.Run

/-!
# The messages of a shard's send

`Send` hands a push shard over whole on the first push, and cut into blocks after it. The blocks
tile the shard's values at the block size in force; each goes out with its score and channel,
and with `CLEAR_ZERO` off every block goes out once. Placed at their offsets, the blocks a
receiver gets, in any order, give the shard's values back.
-/

namespace Dgt

variable {R : Type}

/-! ## The receiver of a block push -/

section Receiver

/-- A block as the receiver places it: its offset `val_bytes` in the shard's values, and its
values. -/
def Message.piece (msg : Message R) : Nat × List R :=
  (msg.header.valBytes, msg.vals)

@[simp] theorem Message.piece_withChannel (msg : Message R) (channel : Int) :
    (msg.withChannel channel).piece = msg.piece := rfl

/-- Modelled from the spec: the receiver reassembles a shard's values by `seq` and
`val_bytes`, placing the blocks it got in the order of their offsets. -/
def reassemble (blocks : List (Message R)) : List R :=
  (((blocks.map Message.piece).mergeSort fun a b => a.1 ≤ b.1).map Prod.snd).flatten

/-- Ordered by offset, any arrangement of pieces at distinct offsets is back in the order of
its offsets. -/
theorem mergeSort_offsets {β : Type} {pieces ordered : List (Nat × β)}
    (arranged : pieces.Perm ordered) (increasing : ordered.Pairwise fun a b => a.1 < b.1) :
    pieces.mergeSort (fun a b => a.1 ≤ b.1) = ordered := by
  haveI : IsAntisymm (Nat × β) fun a b => a.1 < b.1 :=
    ⟨fun _ _ before after => absurd (before.trans after) (lt_irrefl _)⟩
  have sorted : (pieces.mergeSort fun a b => a.1 ≤ b.1).Pairwise
      fun a b => decide (a.1 ≤ b.1) :=
    List.sorted_mergeSort (fun a b c ab bc => by simp_all; omega)
      (fun a b => by simpa using le_total a.1 b.1) pieces
  have sorts := (List.mergeSort_perm pieces fun a b => a.1 ≤ b.1).trans arranged
  have distinct : ((pieces.mergeSort fun a b => a.1 ≤ b.1).map Prod.fst).Nodup :=
    (sorts.map Prod.fst).nodup_iff.mpr (List.pairwise_map.mpr (increasing.imp ne_of_lt))
  refine List.eq_of_perm_of_sorted sorts ?_ increasing
  exact (sorted.and (List.pairwise_map.mp distinct)).imp fun ordered =>
    lt_of_le_of_ne (by simpa using ordered.1) ordered.2

end Receiver

/-! ## The blocks of a block push -/

section Shard

variable [LinearOrderedField R]

theorem scoreAll_pieces (cfg : Config R) (key : Int) (scores : Scores R) (blocks : List (Message R)) :
    (scoreAll cfg key scores blocks).1.map Message.piece = blocks.map Message.piece := by
  induction blocks generalizing scores with
  | nil => rfl
  | cons msg rest inductionHypothesis =>
      simp only [scoreAll, List.map_cons, inductionHypothesis]
      rfl

/-- The ranking reorders `msg_vector`. -/
theorem rankBlocks_perm (cfg : Config R) {blocks ranked : List (Message R)}
    (rankedOk : rankBlocks cfg blocks = .ok ranked) : ranked.Perm blocks := by
  have rebuilt : blocks.dropLast ++ blocks.getLast?.toList = blocks := by
    cases isLast : blocks.getLast? with
    | none => simp [List.getLast?_eq_none_iff.mp isLast]
    | some last => exact List.dropLast_append_getLast? last isLast
  unfold rankBlocks at rankedOk
  split_ifs at rankedOk <;> cases rankedOk
  · exact ((cfg.shuffle.perm _).append_right _).trans (.of_eq rebuilt)
  · exact ((cfg.sort.perm _).append_right _).trans (.of_eq rebuilt)

variable [FloorRing R] (cfg : Config R)

/-- An iteration of the dispatch loop hands a block over on a channel, `0` for the last block of
its shard. -/
theorem dispatchBlock_ok {k : R} {C : Int} {draws : Nat → Nat} {maxIndex : Int} {j : Nat}
    {msg : Message R} {dispatched : Message R × Dispatch}
    (handedOver : dispatchBlock cfg k C draws maxIndex j msg = .ok dispatched) :
    ∃ channel, (msg.terminal → channel = 0) ∧
      dispatched = (msg.withChannel channel,
        if cfg.enableDgt then .classified channel else .plain) := by
  obtain ⟨computed, -, handedOver⟩ := bind_eq_ok.mp handedOver
  cases handedOver
  exact ⟨_, fun terminal => if_pos (by simpa [Message.terminal] using terminal), rfl⟩

variable {env : Environment R} {st st' : DgtState R} {request : Request} {recver : Nat}
  {shard : KVPairs R}

/-- The dispatch loop hands the ranked blocks over in rank order, each at its offset with its
values. -/
theorem dispatchLoop_pieces {k : R} {C : Int} {draws : Nat → Nat} {maxIndex : Int} :
    ∀ {j : Nat} {blocks : List (Message R)} {sent : List (Message R × Dispatch)},
      dispatchLoop cfg k C draws maxIndex j blocks = .ok sent →
        sent.map (fun dispatched => dispatched.1.piece) = blocks.map Message.piece
  | _, [], _, looped => by
      cases looped
      rfl
  | _, msg :: rest, _, looped => by
      obtain ⟨first, firstOk, looped⟩ := bind_eq_ok.mp looped
      obtain ⟨later, laterOk, rfl⟩ := map_eq_ok.mp looped
      obtain ⟨channel, -, rfl⟩ := dispatchBlock_ok cfg firstOk
      rw [List.map_cons, List.map_cons, dispatchLoop_pieces laterOk, Message.piece_withChannel]

/-- A block push that succeeds from an empty `msg_vector` has ranked the blocks it kept and run
the dispatch loop over them. -/
theorem blockPush_loop {sent : List (Message R × Dispatch)} (emptyVector : st.msgVector = [])
    (pushed : blockPush cfg env st request recver shard = .ok (st', sent)) :
    ∃ ranked, rankBlocks cfg (keptBlocks cfg st request recver shard) = .ok ranked ∧
      dispatchLoop cfg st.dmlcK st.udpChannelNum env.draws (ranked.length - 1 : Int) 0 ranked =
        .ok sent := by
  unfold blockPush at pushed
  dsimp only at pushed
  split_ifs at pushed
  rw [foldl_scoreBlock, emptyVector, List.nil_append] at pushed
  obtain ⟨ranked, rankedOk, pushed⟩ := bind_eq_ok.mp pushed
  obtain ⟨looped, loopOk, finished⟩ := bind_eq_ok.mp pushed
  cases finished
  exact ⟨ranked, rankedOk, loopOk⟩

/-- With `CLEAR_ZERO` off, a block push from an empty `msg_vector` hands over every block of
its shard once, each at its offset with its values. -/
theorem blockPush_pieces {sent : List (Message R × Dispatch)} (emptyVector : st.msgVector = [])
    (keepAll : cfg.clearZero = false)
    (pushed : blockPush cfg env st request recver shard = .ok (st', sent)) :
    (sent.map fun dispatched => dispatched.1.piece).Perm
      ((buildBlocks request recver st.pushOpNum (st.blockSizeFor cfg shard) shard).map
        Message.piece) := by
  obtain ⟨ranked, rankedOk, loopOk⟩ := blockPush_loop cfg emptyVector pushed
  rw [keptBlocks, List.filter_eq_self.mpr fun msg _ => by simp [keptBlock, keepAll]] at rankedOk
  rw [dispatchLoop_pieces cfg loopOk]
  exact ((rankBlocks_perm cfg rankedOk).map Message.piece).trans
    (.of_eq (scoreAll_pieces cfg _ _ _))

/-- Whatever order the ranking and the van put them in, the blocks of a block push give the
receiver the shard's values back. -/
theorem blockPush_reassembles {sent : List (Message R × Dispatch)}
    (emptyVector : st.msgVector = []) (keepAll : cfg.clearZero = false)
    (keysNonempty : shard.keys ≠ []) (valsSmall : shard.vals.length ≤ intMax)
    (pushed : blockPush cfg env st request recver shard = .ok (st', sent))
    (delivered : List (Message R)) (arrived : delivered.Perm (sent.map Prod.fst)) :
    reassemble delivered = shard.vals := by
  obtain ⟨-, blockPos, -⟩ := blockPush_ok_pos cfg st request recver shard emptyVector pushed
  obtain ⟨built, tiled⟩ := buildBlocks_eq request recver st.pushOpNum shard keysNonempty
    valsSmall blockPos
  have offsets : ((buildBlocks request recver st.pushOpNum (st.blockSizeFor cfg shard)
      shard).map Message.piece).Pairwise fun a b => a.1 < b.1 := by
    rw [built, List.map_map, List.pairwise_map]
    exact (List.pairwise_lt_range _).imp fun earlier =>
      Nat.mul_lt_mul_of_pos_right earlier (by omega)
  have arrangement := (arrived.map Message.piece).trans
    (by simpa only [List.map_map] using blockPush_pieces cfg emptyVector keepAll pushed)
  rw [reassemble, mergeSort_offsets arrangement offsets, List.map_map]
  exact tiled

/-- Three blocks of one value each, handed over in reverse: the receiver gets `1, 2, 3`. -/
theorem blockPush_reassembles_of_three_blocks :
    let cfg := Config.blocksOfOne 4 (1 / 2)
    let st : DgtState ℚ := { DgtState.init cfg with pushOpNum := 2, udpChannelNum := 4 }
    let shard : KVPairs ℚ := ⟨[0], [1, 2, 3], []⟩
    ∃ st' sent, blockPush cfg ⟨0, fun _ => 0⟩ st ⟨1, true, false, 0⟩ 8 shard = .ok (st', sent) ∧
      reassemble (sent.map Prod.fst).reverse = shard.vals := by
  intro cfg st shard
  obtain ⟨st', sent, pushed, -⟩ := blockPush_dispatches cfg ⟨0, fun _ => 0⟩ st
    ⟨1, true, false, 0⟩ 8 shard rfl (by decide) (by decide) (by decide) (by decide)
  exact ⟨st', sent, pushed, blockPush_reassembles cfg rfl rfl (by simp) (by simp [intMax]) pushed
    _ (List.reverse_perm _)⟩

end Shard

/-! ## A shard's send -/

section Send

variable [LinearOrderedField R] [FloorRing R] {cfg : Config R} {env : Environment R}
  {st st' : DgtState R} {request : Request} {rank : Nat} {shard : KVPairs R}
  {messages : List (Message R × Dispatch)}

end Send

end Dgt
