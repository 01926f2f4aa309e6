import Dgt.Send

/-!
# Fragmentation of a block push

The block loop of `Send` cuts the `|V|` values of a shard into `n = ceil(|V| / b)` blocks:
block `s` sits at offset `s b` and holds the next `b` values, the last one what remains. Every
block carries the shard's keys and lens and the header fields the server reassembles from, so
placing the blocks at their offsets gives the values back. A shard without values is the one
case the loop builds nothing; the block-push path then divides by the block size `0` when
blocking is off, and otherwise ranks an empty `msg_vector`.
-/

namespace Dgt

variable {R : Type} [LinearOrderedField R]

/-! ## The block count -/

@[simp] theorem seqNum_zero (blockSize : Nat) : seqNum 0 blockSize = 0 := by
  simp [seqNum]

theorem seqNum_of_le {remain blockSize : Nat} (remainPos : 0 < remain)
    (fits : remain ≤ blockSize) : seqNum remain blockSize = 1 := by
  unfold seqNum
  rcases Nat.eq_or_lt_of_le fits with same | shorter
  · subst same
    simp [Nat.div_self remainPos]
  · rw [Nat.mod_eq_of_lt shorter, if_neg (by omega), Nat.div_eq_of_lt shorter]

theorem seqNum_of_lt {remain blockSize : Nat} (blockPos : 0 < blockSize)
    (longer : blockSize < remain) :
    seqNum remain blockSize = seqNum (remain - blockSize) blockSize + 1 := by
  unfold seqNum
  rw [Nat.mod_eq_sub_mod longer.le, Nat.div_eq_sub_div blockPos longer.le]
  split_ifs <;> rfl

theorem seqNum_pos {remain blockSize : Nat} (remainPos : 0 < remain) :
    0 < seqNum remain blockSize := by
  unfold seqNum
  split_ifs with divides
  · exact Nat.div_pos (Nat.le_of_dvd remainPos (Nat.dvd_of_mod_eq_zero divides))
      (Nat.pos_of_ne_zero fun zero => by simp_all)
  · exact Nat.succ_pos _

/-! ## The block loop -/

section BlockLoop

variable (request : Request) (recver pushOpNum seqEnd totalBytes : Nat) (shard : KVPairs R)
  {blockSize : Nat} (blockPos : 0 < blockSize)
include blockPos

/-- With enough fuel, the block loop builds `ceil(remain / b)` blocks; block `s` is at offset
`val_bytes + s b` and holds the next `b` values, or what remains. -/
theorem blockLoop_eq (fuel remain valBytes seq : Nat) (enough : remain ≤ fuel) :
    blockLoop request recver pushOpNum seqEnd totalBytes blockSize shard fuel remain valBytes
        seq =
      (List.range (seqNum remain blockSize)).map fun s =>
        blockMessage request recver pushOpNum seqEnd totalBytes shard
          (valBytes + s * blockSize) (seq + s)
          (cut shard.vals (valBytes + s * blockSize)
            (min (valBytes + (s + 1) * blockSize) (valBytes + remain))) := by
  induction fuel generalizing remain valBytes seq with
  | zero =>
      obtain rfl : remain = 0 := by omega
      simp only [blockLoop, seqNum_zero, List.range_zero, List.map_nil]
  | succ fuel inductionHypothesis =>
      rw [blockLoop]
      by_cases done : remain = 0
      · subst done
        rw [if_pos rfl, seqNum_zero]
        rfl
      rw [if_neg done]
      dsimp only
      by_cases last : remain ≤ blockSize
      · rw [min_eq_left last, Nat.sub_self, inductionHypothesis 0 _ _ (Nat.zero_le _),
          seqNum_zero, seqNum_of_le (Nat.pos_of_ne_zero done) last]
        rw [show List.range 1 = [0] from rfl]
        simp only [List.range_zero, List.map_cons, List.map_nil, zero_mul, Nat.add_zero, zero_add,
          one_mul, min_eq_right (Nat.add_le_add_left last valBytes)]
      · have longer : blockSize < remain := by omega
        rw [min_eq_right longer.le, inductionHypothesis _ _ _ (by omega),
          seqNum_of_lt blockPos longer, List.range_succ_eq_map]
        simp only [List.map_cons, List.map_map, Function.comp_def, zero_mul, Nat.add_zero,
          zero_add, one_mul]
        congr 1
        · rw [min_eq_left (by omega)]
        · refine List.map_congr_left fun s _ => ?_
          have shifted : (s + 1) * blockSize = s * blockSize + blockSize :=
            Nat.succ_mul s blockSize
          have shiftedTwice : (s + 1 + 1) * blockSize = s * blockSize + blockSize + blockSize := by
            rw [Nat.succ_mul, shifted]
          have offset : valBytes + blockSize + s * blockSize = valBytes + (s * blockSize + blockSize) := by
            omega
          have bound : valBytes + blockSize + (s * blockSize + blockSize) =
              valBytes + (s * blockSize + blockSize + blockSize) := by omega
          rw [shifted, shiftedTwice, offset, bound, Nat.add_assoc valBytes,
            Nat.add_sub_cancel' longer.le, Nat.add_right_comm seq 1 s]
          rfl

/-- Placed one after the other, the blocks' values are the values from `val_bytes` on that
the loop had left to send. -/
theorem blockLoop_vals (keysNonempty : shard.keys ≠ []) (fuel remain valBytes seq : Nat)
    (enough : remain ≤ fuel) :
    ((blockLoop request recver pushOpNum seqEnd totalBytes blockSize shard fuel remain valBytes
        seq).map Message.vals).flatten =
      cut shard.vals valBytes (valBytes + remain) := by
  induction fuel generalizing remain valBytes seq with
  | zero =>
      obtain rfl : remain = 0 := by omega
      simp [blockLoop, cut_self]
  | succ fuel inductionHypothesis =>
      rw [blockLoop]
      by_cases done : remain = 0
      · subst done
        simp [cut_self]
      rw [if_neg done]
      dsimp only
      rw [List.map_cons, List.flatten_cons, inductionHypothesis _ _ _ (by omega)]
      simp only [blockMessage, Message.build_of_ne_nil _ _ keysNonempty]
      rw [Nat.add_assoc, Nat.add_sub_cancel' (Nat.min_le_left _ _),
        cut_append_cut _ (Nat.le_add_right _ _) (by omega)]

end BlockLoop

/-- Every block the loop builds is a `blockMessage` of the shard. -/
theorem mem_blockLoop (request : Request) (recver pushOpNum seqEnd totalBytes blockSize : Nat)
    (shard : KVPairs R) {fuel remain valBytes seq : Nat} {msg : Message R}
    (member : msg ∈ blockLoop request recver pushOpNum seqEnd totalBytes blockSize shard fuel
      remain valBytes seq) :
    ∃ valBytes seq tmpVal,
      msg = blockMessage request recver pushOpNum seqEnd totalBytes shard valBytes seq tmpVal := by
  induction fuel generalizing remain valBytes seq with
  | zero => simp [blockLoop] at member
  | succ fuel inductionHypothesis =>
      rw [blockLoop] at member
      split_ifs at member
      · cases member
      · rcases List.mem_cons.mp member with rfl | later
        · exact ⟨_, _, _, rfl⟩
        · exact inductionHypothesis later

/-! ## The blocks of a shard -/

/-- A shard of at most `INT_MAX` values, cut with a positive block size `b`, gives
`n = ceil(|V| / b)` blocks whose values tile `V`: block `s` has `seq = s`, `seq_end = n - 1`,
`val_bytes = s b`, the values `V[s b, min((s + 1) b, |V|))` and the shard's keys and lens. -/
theorem buildBlocks_eq (request : Request) (recver pushOpNum : Nat) {blockSize : Int}
    (shard : KVPairs R) (keysNonempty : shard.keys ≠ [])
    (valsSmall : shard.vals.length ≤ intMax) (blockPos : 0 < blockSize) :
    buildBlocks request recver pushOpNum blockSize shard =
        (List.range (seqNum shard.vals.length blockSize.toNat)).map (fun s =>
          ⟨request.header recver 2 (shard.keys.headD 0) s
              (seqNum shard.vals.length blockSize.toNat - 1) (s * blockSize.toNat)
              shard.vals.length pushOpNum,
            shard.keys,
            cut shard.vals (s * blockSize.toNat)
              (min ((s + 1) * blockSize.toNat) shard.vals.length),
            shard.lens, 0⟩) ∧
      ((buildBlocks request recver pushOpNum blockSize shard).map Message.vals).flatten =
        shard.vals := by
  have blockSizePos : 0 < blockSize.toNat := by omega
  unfold buildBlocks
  simp only [toCInt_of_le valsSmall, Int.toNat_ofNat]
  refine ⟨?_, ?_⟩
  · rw [blockLoop_eq request _ _ _ _ shard blockSizePos _ _ _ _ le_rfl]
    simp only [zero_add, blockMessage, Message.build_of_ne_nil _ _ keysNonempty]
  · rw [blockLoop_vals request _ _ _ _ shard blockSizePos keysNonempty _ _ _ _ le_rfl,
      zero_add, cut_zero_length]

/-- The block loop of a positive block size builds, for `n = ceil(total_bytes / b)`, the
blocks `0, 1, ..., n - 1` in `seq` order, each with `seq_end = n - 1`. -/
theorem buildBlocks_headers (request : Request) (recver pushOpNum : Nat) {blockSize : Int}
    (shard : KVPairs R) (blockPos : 0 < blockSize) :
    ∃ block : Nat → Message R,
      buildBlocks request recver pushOpNum blockSize shard =
        (List.range (seqNum (toCInt shard.vals.length).toNat blockSize.toNat)).map block ∧
      ∀ s, (block s).header.seq = s ∧
        (block s).header.seqEnd = seqNum (toCInt shard.vals.length).toNat blockSize.toNat - 1 :=
  ⟨_, blockLoop_eq request _ _ _ _ shard (by omega : 0 < blockSize.toNat) _ _ _ _ le_rfl,
    fun s => by simp [blockMessage, Request.header]⟩

/-- Every block is stamped with channel `0` until dispatch. -/
theorem buildBlocks_channel (request : Request) (recver pushOpNum : Nat) (blockSize : Int)
    (shard : KVPairs R) :
    ∀ msg ∈ buildBlocks request recver pushOpNum blockSize shard, msg.header.channel = 0 := by
  intro msg member
  obtain ⟨valBytes, seq, tmpVal, rfl⟩ := mem_blockLoop request _ _ _ _ _ shard member
  rfl

/-! ## A shard without values -/

section Empty

variable [FloorRing R]

/-- A shard without values builds no block: the block-push path divides by the block size
`0` when blocking is off, and otherwise ranks the empty `msg_vector`. -/
theorem blockPush_of_vals_nil (cfg : Config R) (env : Environment R) (st : DgtState R)
    (request : Request) (recver : Nat) (shard : KVPairs R) (valsNil : shard.vals = [])
    (emptyVector : st.msgVector = []) (counted : 0 ≤ wrapInt (st.udpChannelNum + 1))
    (blockNonzero : cfg.enableBlock → st.blockSize ≠ 0) :
    blockPush cfg env st request recver shard =
      .error (if cfg.enableBlock then .emptyRange else .divisionByZero) := by
  have total : toCInt shard.vals.length = 0 := by simp [valsNil, toCInt]
  unfold blockPush DgtState.blockSizeFor buildBlocks
  cases enable : cfg.enableBlock
  · simp [total]
  · simp [total, blockNonzero enable, Int.not_lt.mpr counted, blockLoop, rankBlocks,
      emptyVector]
    rfl

end Empty

end Dgt
