import Dgt.Slicer

/-!
# Correctness of the default slicer

A successful `defaultSlicer` run loses, duplicates and shifts nothing: when the first range
starts at or below every key, the shards' keys, values and lens concatenate back to the
batch, whatever the ranges are, and over increasing ranges shard `i` holds exactly the keys of
range `i`, with their values. Over contiguous ranges from key `0`, as the servers' ranges are,
a batch key that no range contains fails the coverage `CHECK`.
-/

namespace Dgt

variable {Val : Type}

/-- The value layouts `KVPairs` documents: without `lens` the values split evenly over the
keys; with `lens` there is one length per key and the lengths add up to the values. -/
def KVPairs.WellFormed (kv : KVPairs Val) : Prop :=
  (kv.lens = [] ∧ kv.keys.length ∣ kv.vals.length) ∨
    (kv.lens.length = kv.keys.length ∧ kv.lens.sum = kv.vals.length)

instance (kv : KVPairs Val) : Decidable kv.WellFormed :=
  inferInstanceAs (Decidable (_ ∨ _))

/-- Values per key without `lens`: `k = send.vals.size() / send.keys.size()`. -/
def KVPairs.valueWidth (kv : KVPairs Val) : Nat :=
  kv.vals.length / kv.keys.length

/-- Server ranges each beginning where the previous one ends, as `DefaultSlicer` CHECKs. -/
def Contiguous (ranges : List Range) : Prop :=
  ranges.Chain' fun range next => range.endKey = next.beginKey

theorem contiguous_cons_cons {range next : Range} {rest : List Range} :
    Contiguous (range :: next :: rest) ↔
      range.endKey = next.beginKey ∧ Contiguous (next :: rest) :=
  List.chain'_cons

instance decidableContiguous : (ranges : List Range) → Decidable (Contiguous ranges)
  | [] => isTrue List.chain'_nil
  | [_] => isTrue (List.chain'_singleton _)
  | _ :: next :: rest =>
      haveI := decidableContiguous (next :: rest)
      decidable_of_iff _ contiguous_cons_cons.symm

/-- The shard a server range should receive: the batch's keys in the range, with the values
`[p*k, q*k)` or, in lens mode, the lens of those keys and the values between the prefix sums
of the lens, where `[p, q)` are the keys' positions. -/
def expectedShard (send : KVPairs Val) (range : Range) : Bool × KVPairs Val :=
  Slicer.shardBetween send send.valueWidth
    (lowerBound send.keys range.beginKey) (lowerBound send.keys range.endKey)

namespace Slicer

/-- The slicing loop reads `k` only in fixed-length mode. -/
theorem shardBetween_lens_mode {send : KVPairs Val} (lensMode : send.lens ≠ [])
    (k k' p q : Nat) : shardBetween send k p q = shardBetween send k' p q := by
  simp [shardBetween, lensMode]

/-- Over contiguous ranges, consecutive positions pair each range's lower bounds. -/
theorem zip_positions (keys : List Nat) {range : Range} {rest : List Range}
    (contiguous : Contiguous (range :: rest)) :
    (lowerBound keys range.beginKey :: (range :: rest).map fun r => lowerBound keys r.endKey).zip
        ((range :: rest).map fun r => lowerBound keys r.endKey) =
      (range :: rest).map fun r => (lowerBound keys r.beginKey, lowerBound keys r.endKey) := by
  induction rest generalizing range with
  | nil => rfl
  | cons next rest inductionHypothesis =>
      obtain ⟨adjacent, tailContiguous⟩ := List.chain'_cons.mp contiguous
      have tail := inductionHypothesis tailContiguous
      rw [← adjacent] at tail
      simp only [List.map_cons, List.zip_cons_cons] at tail ⊢
      rw [tail, adjacent]

/-- With the first range at or below every key, the positions start at `0`. -/
theorem positions_start {keys : List Nat} {ranges : List Range} {pos : List Nat}
    (covered : ∀ range ∈ ranges.head?, ∀ key ∈ keys, range.beginKey ≤ key)
    (found : positions keys ranges = .ok pos) : ∃ rest, pos = 0 :: rest := by
  cases ranges with
  | nil => cases found; exact ⟨[], rfl⟩
  | cons range others =>
      obtain ⟨tail, -, rfl⟩ := map_eq_ok.mp found
      rw [lowerBound_eq_zero (covered range rfl)]
      exact ⟨_, rfl⟩

/-- On sorted keys and increasing ranges starting at or below every key, the slicing loop
cuts each range's keys between their lower bounds. -/
theorem sliceLoop_positions {send : KVPairs Val} {ranges : List Range} {pos : List Nat}
    {k : Nat} {sliced : List (Bool × KVPairs Val)} (sorted : send.keys.Pairwise (· ≤ ·))
    (increasing : ∀ range ∈ ranges, range.beginKey ≤ range.endKey)
    (covered : ∀ range ∈ ranges.head?, ∀ key ∈ send.keys, range.beginKey ≤ key)
    (found : positions send.keys ranges = .ok pos) (loop : sliceLoop send k 0 pos = .ok sliced) :
    sliced = ranges.map fun range => shardBetween send k
      (lowerBound send.keys range.beginKey) (lowerBound send.keys range.endKey) := by
  cases ranges with
  | nil => cases found; cases loop; rfl
  | cons range rest =>
      have contiguous : Contiguous (range :: rest) := by
        obtain ⟨tail, tailFound, -⟩ := map_eq_ok.mp found
        exact findPositions_chain tailFound
      have start : lowerBound send.keys range.beginKey = 0 :=
        lowerBound_eq_zero (covered range rfl)
      rw [positions_eq sorted increasing found] at loop
      rw [show (0 : Int) = prefixSum send.lens (lowerBound send.keys range.beginKey) by
        simp [start, prefixSum]] at loop
      rw [(sliceLoop_ok loop).1, zip_positions _ contiguous, List.map_map]
      rfl

end Slicer

open Slicer

/-- Slicer coverage: the shards of a successful run concatenate back to the batch's keys,
values and lens, for any ranges whose first one starts at or below every key. -/
theorem defaultSlicer_flatten {send : KVPairs Val} {ranges : List Range}
    {sliced : List (Bool × KVPairs Val)} (wellFormed : send.WellFormed)
    (covered : ∀ range ∈ ranges.head?, ∀ key ∈ send.keys, range.beginKey ≤ key)
    (returns : defaultSlicer send ranges = .ok sliced) :
    (sliced.map fun shard => shard.2.keys).flatten = send.keys ∧
      (sliced.map fun shard => shard.2.vals).flatten = send.vals ∧
      (sliced.map fun shard => shard.2.lens).flatten = send.lens := by
  obtain ⟨pos, found, last, empty | fixed | lensMode⟩ := defaultSlicer_ok returns
  · obtain ⟨noKeys, rfl⟩ := empty
    have noVals : send.vals = [] ∧ send.lens = [] := by
      rcases wellFormed with ⟨noLens, divides⟩ | ⟨lensLength, lensSum⟩
      · simp_all
      · rw [noKeys, List.length_nil, List.length_eq_zero] at lensLength
        rw [lensLength, List.sum_nil] at lensSum
        exact ⟨List.length_eq_zero.mp (by omega), lensLength⟩
    simp [noKeys, noVals, KVPairs.empty]
  all_goals
    obtain ⟨rest, rfl⟩ := positions_start covered found
    have lastPosition : rest.getLastD 0 = send.keys.length := by
      cases rest <;> simp_all [List.getLastD_eq_getLast?]
  · obtain ⟨-, noLens, divides, loop⟩ := fixed
    rw [← prefixSum_nil 0, ← noLens] at loop
    obtain ⟨rfl, chain⟩ := sliceLoop_ok loop
    have positionsLe := chain.imp fun a b step => step.1
    refine ⟨?_, ?_, ?_⟩ <;> simp only [List.map_map, Function.comp_def, shardBetween_keys,
      shardBetween_lens, shardBetween_vals_fixed _ _ _ _ noLens]
    · rw [flatten_cuts send.keys (fun p => p) positionsLe, lastPosition, cut_zero_length]
    · rw [flatten_cuts send.vals (· * _) (positionsLe.imp fun _ _ le => Nat.mul_le_mul_right _ le),
        lastPosition, Nat.zero_mul, Nat.mul_comm, divides, cut_zero_length]
    · rw [flatten_cuts send.lens (fun p => p) positionsLe, noLens, cut_nil]
  · obtain ⟨-, hasLens, sizes, loop⟩ := lensMode
    have lensSum : send.lens.sum = send.vals.length := by
      rcases wellFormed with ⟨noLens, -⟩ | ⟨-, lensSum⟩
      · exact absurd noLens hasLens
      · exact lensSum
    rw [show (0 : Int) = prefixSum send.lens 0 by simp [prefixSum]] at loop
    obtain ⟨rfl, chain⟩ := sliceLoop_ok loop
    have positionsLe := chain.imp fun a b step => step.1
    refine ⟨?_, ?_, ?_⟩ <;> simp only [List.map_map, Function.comp_def, shardBetween_keys,
      shardBetween_lens, shardBetween_vals_lens _ _ _ _ hasLens]
    · rw [flatten_cuts send.keys (fun p => p) positionsLe, lastPosition, cut_zero_length]
    · rw [flatten_cuts send.vals (fun p => (prefixSum send.lens p).toNat)
        (chain.imp fun _ _ step => Int.toNat_le_toNat step.2), lastPosition, sizes]
      simp [prefixSum, lensSum, cut_zero_length]
    · rw [flatten_cuts send.lens (fun p => p) positionsLe, lastPosition, sizes, cut_zero_length]

/-- With increasing ranges, the shards the slicer returns are the expected ones, each
holding exactly the batch keys of its range, flagged non-empty exactly when it has keys, and
together they concatenate back to the batch. -/
theorem defaultSlicer_partitions_batch (send : KVPairs Val) (ranges : List Range)
    (ascending : Ascending send.keys) (wellFormed : send.WellFormed)
    (increasing : ∀ range ∈ ranges, range.beginKey ≤ range.endKey)
    (covered : ∀ range ∈ ranges.head?, ∀ key ∈ send.keys, range.beginKey ≤ key)
    (sliced : List (Bool × KVPairs Val)) (returns : defaultSlicer send ranges = .ok sliced) :
    sliced = ranges.map (expectedShard send) ∧
      (∀ range ∈ ranges,
        (expectedShard send range).2.keys = send.keys.filter range.contains ∧
          ((expectedShard send range).1 = true ↔ (expectedShard send range).2.keys ≠ [])) ∧
      (sliced.map fun shard => shard.2.keys).flatten = send.keys ∧
      (sliced.map fun shard => shard.2.vals).flatten = send.vals ∧
      (sliced.map fun shard => shard.2.lens).flatten = send.lens := by
  have sorted := ascending.sorted
  have keysOf (range : Range) :
      (expectedShard send range).2.keys = send.keys.filter range.contains := by
    rw [expectedShard, shardBetween_keys, cut_lowerBound sorted]
    rfl
  refine ⟨?_, fun range member => ⟨keysOf range, ?_⟩,
    defaultSlicer_flatten wellFormed covered returns⟩
  · obtain ⟨pos, found, -, empty | fixed | lensMode⟩ := defaultSlicer_ok returns
    · obtain ⟨noKeys, rfl⟩ := empty
      exact List.map_congr_left fun range _ => by simp [expectedShard, shardBetween, noKeys]
    · exact sliceLoop_positions sorted increasing covered found fixed.2.2.2
    · rw [sliceLoop_positions sorted increasing covered found lensMode.2.2.2]
      exact List.map_congr_left fun range _ => shardBetween_lens_mode lensMode.2.1 _ _ _ _
  · have mono := lowerBound_mono send.keys (increasing range member)
    have bounded := lowerBound_le_length send.keys range.endKey
    rw [expectedShard, shardBetween_flag, shardBetween_keys, ← List.length_pos,
      length_cut bounded, decide_eq_true_iff]
    omega

/-- The spec's even split `S1`: keys `[1, 3, 5, 7]` with two values each over `[0, 4)` and
`[4, 8)`. -/
theorem defaultSlicer_partitions_even_split :
    let send : KVPairs Nat := ⟨[1, 3, 5, 7], [1, 2, 3, 4, 5, 6, 7, 8], []⟩
    let ranges : List Range := [⟨0, 4⟩, ⟨4, 8⟩]
    let sliced : List (Bool × KVPairs Nat) :=
      [(true, ⟨[1, 3], [1, 2, 3, 4], []⟩), (true, ⟨[5, 7], [5, 6, 7, 8], []⟩)]
    defaultSlicer send ranges = .ok sliced ∧
      sliced = ranges.map (expectedShard send) ∧
      (∀ range ∈ ranges,
        (expectedShard send range).2.keys = send.keys.filter range.contains ∧
          ((expectedShard send range).1 = true ↔ (expectedShard send range).2.keys ≠ [])) ∧
      (sliced.map fun shard => shard.2.keys).flatten = send.keys ∧
      (sliced.map fun shard => shard.2.vals).flatten = send.vals ∧
      (sliced.map fun shard => shard.2.lens).flatten = send.lens :=
  ⟨rfl, defaultSlicer_partitions_batch ⟨[1, 3, 5, 7], [1, 2, 3, 4, 5, 6, 7, 8], []⟩
    [⟨0, 4⟩, ⟨4, 8⟩] (by decide) (by decide) (by decide) (by decide) _ rfl⟩

/-! ## Shards over any ranges the slicer accepts -/

namespace Slicer

/-- A key from the cursor on lies below the next range's end or from the next position on. -/
theorem lt_or_mem_drop_next {keys : List Nat} {cursor key : Nat} (bound : Nat)
    (member : key ∈ keys.drop cursor) :
    key < bound ∨ key ∈ keys.drop (cursor + lowerBound (keys.drop cursor) bound) := by
  rw [← List.take_append_drop (lowerBound (keys.drop cursor) bound) (keys.drop cursor),
    List.mem_append, List.drop_drop] at member
  exact member.imp lt_of_mem_take_lowerBound id

/-- When the position loop ends at the last key, every key from its cursor on lies below the
end of one of the ranges it met. -/
theorem findPositions_below_end {keys : List Nat} {cursor : Nat} {previous : Range}
    {ranges : List Range} {pos : List Nat}
    (found : findPositions keys cursor previous ranges = .ok pos)
    (ends : (cursor :: pos).getLast? = some keys.length) :
    ∀ key ∈ keys.drop cursor, ∃ range ∈ ranges, key < range.endKey := by
  induction ranges generalizing cursor previous pos with
  | nil =>
      cases found
      obtain rfl : cursor = keys.length := by simpa using ends
      simp
  | cons range rest inductionHypothesis =>
      unfold findPositions at found
      split at found
      · obtain ⟨tail, tailFound, rfl⟩ := map_eq_ok.mp found
        intro key member
        rcases lt_or_mem_drop_next range.endKey member with below | later
        · exact ⟨range, List.mem_cons_self _ _, below⟩
        · obtain ⟨other, otherMember, below⟩ :=
            inductionHypothesis tailFound (by rwa [List.getLast?_cons_cons] at ends) key later
          exact ⟨other, List.mem_cons_of_mem _ otherMember, below⟩
      · cases found

/-- The consecutive pairs of a chain are related. -/
theorem rel_of_mem_zip_chain {R : Nat → Nat → Prop} {p : Nat} {ps : List Nat}
    (chain : List.Chain R p ps) : ∀ ab ∈ (p :: ps).zip ps, R ab.1 ab.2 := by
  induction chain with
  | nil => simp
  | cons step _ inductionHypothesis =>
      rw [List.zip_cons_cons]
      rintro ab (_ | ⟨_, later⟩)
      · exact step
      · exact inductionHypothesis ab later

/-- Every position of a non-decreasing chain is at most its last. -/
theorem le_getLastD_of_mem_chain {p : Nat} {ps : List Nat}
    (chain : List.Chain (fun a b => a ≤ b) p ps) : ∀ b ∈ ps, b ≤ ps.getLastD p := by
  induction chain with
  | nil => simp
  | @cons a b rest _ tailChain inductionHypothesis =>
      rw [List.getLastD_cons]
      rintro c (_ | ⟨_, later⟩)
      · exact le_getLastD_of_chain id tailChain
      · exact inductionHypothesis c later

/-- The slicing loop returns one shard per pair of consecutive positions. -/
theorem sliceLoop_length {send : KVPairs Val} {k : Nat} {valBegin : Int} {pos : List Nat}
    {out : List (Bool × KVPairs Val)} (sliced : sliceLoop send k valBegin pos = .ok out) :
    out.length = pos.length - 1 := by
  induction pos generalizing valBegin out with
  | nil => cases sliced; rfl
  | cons p rest inductionHypothesis =>
      cases rest with
      | nil => cases sliced; rfl
      | cons q rest =>
          unfold sliceLoop at sliced
          split_ifs at sliced
          · obtain ⟨tail, tailSliced, rfl⟩ := map_eq_ok.mp sliced
            simp [inductionHypothesis tailSliced]
          · obtain ⟨_, -, sliced⟩ := bind_eq_ok.mp sliced
            obtain ⟨_, -, sliced⟩ := bind_eq_ok.mp sliced
            obtain ⟨tail, tailSliced, rfl⟩ := map_eq_ok.mp sliced
            simp [inductionHypothesis tailSliced]
          · obtain ⟨_, -, sliced⟩ := bind_eq_ok.mp sliced
            obtain ⟨_, -, sliced⟩ := bind_eq_ok.mp sliced
            obtain ⟨_, -, sliced⟩ := bind_eq_ok.mp sliced
            obtain ⟨tail, tailSliced, rfl⟩ := map_eq_ok.mp sliced
            simp [inductionHypothesis tailSliced]

/-- Over positions from `0` to the batch's size, each shard the slicing loop cuts is flagged
exactly when it has keys. -/
theorem sliceLoop_flag_iff {send : KVPairs Val} {k : Nat} {rest : List Nat}
    {sliced : List (Bool × KVPairs Val)}
    (loop : sliceLoop send k (prefixSum send.lens 0) (0 :: rest) = .ok sliced)
    (lastPosition : rest.getLastD 0 = send.keys.length) :
    ∀ shard ∈ sliced, shard.1 = true ↔ shard.2.keys ≠ [] := by
  obtain ⟨rfl, chain⟩ := sliceLoop_ok loop
  have positionsLe := chain.imp fun a b step => step.1
  simp only [List.mem_map, forall_exists_index, and_imp, forall_apply_eq_imp_iff₂,
    shardBetween_flag, shardBetween_keys, decide_eq_true_iff]
  intro ab pair
  have ordered := rel_of_mem_zip_chain positionsLe ab pair
  have bounded := le_getLastD_of_mem_chain positionsLe ab.2 (List.of_mem_zip pair).2
  rw [← List.length_pos, length_cut (by omega)]
  omega

end Slicer

open Slicer

/-- The slicer returns one shard per server range. -/
theorem defaultSlicer_length {send : KVPairs Val} {ranges : List Range}
    {sliced : List (Bool × KVPairs Val)} (returns : defaultSlicer send ranges = .ok sliced) :
    sliced.length = ranges.length := by
  obtain ⟨pos, found, -, empty | fixed | lensMode⟩ := defaultSlicer_ok returns
  · rw [empty.2, List.length_map]
  · rw [sliceLoop_length fixed.2.2.2, positions_length found, Nat.add_sub_cancel]
  · rw [sliceLoop_length lensMode.2.2.2, positions_length found, Nat.add_sub_cancel]

/-- Each server range's shard is either flagged non-empty or skipped. -/
theorem defaultSlicer_countP_add {send : KVPairs Val} {ranges : List Range}
    {sliced : List (Bool × KVPairs Val)} (returns : defaultSlicer send ranges = .ok sliced) :
    sliced.countP (fun shard => shard.1) + sliced.countP (fun shard => !shard.1) =
      ranges.length := by
  rw [← defaultSlicer_length returns, List.length_eq_countP_add_countP fun shard => shard.1]
  simp

/-- When the positions end at the last key, every batch key lies below the end of some server
range. -/
theorem positions_below_end {keys : List Nat} {ranges : List Range} {pos : List Nat}
    (covered : ∀ range ∈ ranges.head?, ∀ key ∈ keys, range.beginKey ≤ key)
    (found : positions keys ranges = .ok pos) (last : pos.getLast? = some keys.length) :
    ∀ key ∈ keys, ∃ range ∈ ranges, key < range.endKey := by
  cases ranges with
  | nil =>
      cases found
      obtain noKeys : keys = [] := List.length_eq_zero.mp (by simpa using last.symm)
      simp [noKeys]
  | cons range rest =>
      obtain ⟨tail, tailFound, rfl⟩ := map_eq_ok.mp found
      rw [lowerBound_eq_zero (covered range rfl), List.drop_zero, Nat.zero_add] at tailFound last
      intro key member
      rcases lt_or_mem_drop_next range.endKey (show key ∈ keys.drop 0 from member) with
        below | later
      · exact ⟨range, List.mem_cons_self _ _, below⟩
      · rw [List.drop_zero, Nat.zero_add] at later
        obtain ⟨other, otherMember, below⟩ := findPositions_below_end tailFound
          (by rwa [List.getLast?_cons_cons] at last) key later
        exact ⟨other, List.mem_cons_of_mem _ otherMember, below⟩

/-- When the slicer returns, every batch key lies below the end of some server range. -/
theorem defaultSlicer_below_end {send : KVPairs Val} {ranges : List Range}
    {sliced : List (Bool × KVPairs Val)}
    (covered : ∀ range ∈ ranges.head?, ∀ key ∈ send.keys, range.beginKey ≤ key)
    (returns : defaultSlicer send ranges = .ok sliced) :
    ∀ key ∈ send.keys, ∃ range ∈ ranges, key < range.endKey :=
  let ⟨_, found, last, _⟩ := defaultSlicer_ok returns
  positions_below_end covered found last

/-! ## Keys outside every range -/

/-- A shard the slicer returns is flagged exactly when it has keys, over any ranges, since the
positions never decrease. -/
theorem defaultSlicer_flag_iff {send : KVPairs Val} {ranges : List Range}
    {sliced : List (Bool × KVPairs Val)}
    (covered : ∀ range ∈ ranges.head?, ∀ key ∈ send.keys, range.beginKey ≤ key)
    (returns : defaultSlicer send ranges = .ok sliced) :
    ∀ shard ∈ sliced, shard.1 = true ↔ shard.2.keys ≠ [] := by
  obtain ⟨pos, found, last, empty | ⟨-, noLens, -, loop⟩ | ⟨-, -, -, loop⟩⟩ :=
    defaultSlicer_ok returns
  · obtain ⟨-, rfl⟩ := empty
    simp [KVPairs.empty]
  all_goals
    obtain ⟨rest, rfl⟩ := positions_start covered found
    have lastPosition : rest.getLastD 0 = send.keys.length := by
      cases rest <;> simp_all [List.getLastD_eq_getLast?]
  · rw [← prefixSum_nil 0, ← noLens] at loop
    exact sliceLoop_flag_iff loop lastPosition
  · exact sliceLoop_flag_iff (by simpa [prefixSum] using loop) lastPosition

/-! ## What each server receives -/

/-- A slicer that returns met contiguous ranges: it `CHECK`s
`ranges[i-1].end() == ranges[i].begin()`. -/
theorem defaultSlicer_contiguous {send : KVPairs Val} {ranges : List Range}
    {sliced : List (Bool × KVPairs Val)} (returns : defaultSlicer send ranges = .ok sliced) :
    Contiguous ranges := by
  obtain ⟨pos, found, -⟩ := defaultSlicer_ok returns
  cases ranges with
  | nil => exact List.chain'_nil
  | cons range rest =>
      obtain ⟨tail, tailFound, -⟩ := map_eq_ok.mp found
      exact findPositions_chain tailFound

/-- Over ascending keys and increasing ranges, the slicer returns the shard each range
expects. -/
theorem defaultSlicer_eq_map_expectedShard {send : KVPairs Val} {ranges : List Range}
    {sliced : List (Bool × KVPairs Val)} (ascending : Ascending send.keys)
    (increasing : ∀ range ∈ ranges, range.beginKey ≤ range.endKey)
    (covered : ∀ range ∈ ranges.head?, ∀ key ∈ send.keys, range.beginKey ≤ key)
    (returns : defaultSlicer send ranges = .ok sliced) :
    sliced = ranges.map (expectedShard send) := by
  obtain ⟨pos, found, -, empty | fixed | lensMode⟩ := defaultSlicer_ok returns
  · obtain ⟨noKeys, rfl⟩ := empty
    exact List.map_congr_left fun range _ => by simp [expectedShard, shardBetween, noKeys]
  · exact sliceLoop_positions ascending.sorted increasing covered found fixed.2.2.2
  · rw [sliceLoop_positions ascending.sorted increasing covered found lensMode.2.2.2]
    exact List.map_congr_left fun range _ => shardBetween_lens_mode lensMode.2.1 _ _ _ _

/-- Over ascending keys and increasing ranges, the shard of rank `i` holds only keys of the
range of rank `i`. -/
theorem defaultSlicer_mem_range {send : KVPairs Val} {ranges : List Range}
    {sliced : List (Bool × KVPairs Val)} (ascending : Ascending send.keys)
    (increasing : ∀ range ∈ ranges, range.beginKey ≤ range.endKey)
    (covered : ∀ range ∈ ranges.head?, ∀ key ∈ send.keys, range.beginKey ≤ key)
    (returns : defaultSlicer send ranges = .ok sliced) {rank : Nat} {shard : Bool × KVPairs Val}
    (member : (rank, shard) ∈ sliced.enum) {key : Nat} (held : key ∈ shard.2.keys) :
    ∃ range, ranges[rank]? = some range ∧ range.contains key := by
  rw [List.mem_enum_iff_getElem?, defaultSlicer_eq_map_expectedShard ascending increasing covered
    returns, List.getElem?_map, Option.map_eq_some'] at member
  obtain ⟨range, found, rfl⟩ := member
  rw [expectedShard, shardBetween_keys, cut_lowerBound ascending.sorted] at held
  exact ⟨range, found, (List.mem_filter.mp held).2⟩

/-- Without lens the slicing loop cuts the keys the same way whatever the values: over the keys
alone it returns the same shards with their keys only. -/
theorem sliceLoop_keysOnly {send : KVPairs Val} {k : Nat} (noLens : send.lens = []) :
    ∀ {pos : List Nat} {out : List (Bool × KVPairs Val)}, sliceLoop send k 0 pos = .ok out →
      sliceLoop (⟨send.keys, [], []⟩ : KVPairs Val) 0 0 pos =
        .ok (out.map fun shard => (shard.1, ⟨shard.2.keys, [], []⟩))
  | [], _, sliced | [_], _, sliced => by cases sliced; rfl
  | p :: q :: rest, out, sliced => by
      unfold sliceLoop at sliced
      simp only [noLens, if_true] at sliced
      unfold sliceLoop
      by_cases same : q = p
      · subst same
        rw [if_pos rfl] at sliced
        obtain ⟨tail, tailSliced, rfl⟩ := map_eq_ok.mp sliced
        rw [if_pos rfl, sliceLoop_keysOnly noLens tailSliced]
        rfl
      · rw [if_neg same] at sliced
        obtain ⟨keys, keysCut, sliced⟩ := bind_eq_ok.mp sliced
        obtain ⟨vals, -, sliced⟩ := bind_eq_ok.mp sliced
        obtain ⟨tail, tailSliced, rfl⟩ := map_eq_ok.mp sliced
        rw [if_neg same, if_pos rfl, keysCut]
        simp [segment, sliceLoop_keysOnly noLens tailSliced, bind, Except.bind, Functor.map,
          Except.map]

/-- Without lens the slicer cuts the keys the same way whatever the values: over the keys alone
it returns the same shards with their keys only. -/
theorem defaultSlicer_keysOnly {send : KVPairs Val} {ranges : List Range}
    {sliced : List (Bool × KVPairs Val)} (noLens : send.lens = [])
    (returns : defaultSlicer send ranges = .ok sliced) :
    defaultSlicer (⟨send.keys, [], []⟩ : KVPairs Val) ranges =
      .ok (sliced.map fun shard => (shard.1, ⟨shard.2.keys, [], []⟩)) := by
  obtain ⟨pos, found, last, empty | ⟨hasKeys, -, -, loop⟩ | ⟨-, hasLens, -⟩⟩ :=
    defaultSlicer_ok returns
  · obtain ⟨noKeys, rfl⟩ := empty
    rw [noKeys] at found last
    simp [defaultSlicer, found, last, noKeys, KVPairs.empty, bind, Except.bind, pure, Except.pure]
  · simp [defaultSlicer, found, last, hasKeys, sliceLoop_keysOnly noLens loop, bind,
      Except.bind]
  · exact absurd noLens hasLens

end Dgt
