import Dgt.Defs

/-!
# The default slicer

`KVWorker<Val>::DefaultSlicer` partitions a batch by the servers' key ranges. A first loop
finds, by `std::lower_bound` from a moving cursor, the position `pos[i + 1]` where the keys
of range `i` end, checking that each range begins where the previous one ends; a second loop
cuts the keys, and the values at `pos[i] * k` or, in lens mode, the lens and the values from
a running offset. This module gives the two loops, their successful runs, and how the cuts
concatenate.
-/

namespace Dgt

namespace Slicer

variable {Val : Type}

/-- The position loop for `i ≥ 1`: `CHECK_EQ(ranges[i-1].end(), ranges[i].begin())`, then
`pos[i+1] = pos[i] + len` with `len` the keys after the cursor below `ranges[i].end()`. -/
def findPositions (keys : List Nat) :
    (cursor : Nat) → (previous : Range) → List Range → Except Fault (List Nat)
  | _, _, [] => .ok []
  | cursor, previous, range :: rest =>
      if previous.endKey = range.beginKey then
        let next := cursor + lowerBound (keys.drop cursor) range.endKey
        (next :: ·) <$> findPositions keys next range rest
      else .error (.check "ranges[i-1].end() == ranges[i].begin()")

/-- `pos[0..n]`; iteration `i = 0` starts the cursor at the lower bound of
`ranges[0].begin()` and checks nothing. -/
def positions (keys : List Nat) : List Range → Except Fault (List Nat)
  | [] => .ok [0]
  | range :: rest =>
      let start := lowerBound keys range.beginKey
      let next := start + lowerBound (keys.drop start) range.endKey
      (start :: next :: ·) <$> findPositions keys next range rest

/-- The slicing loop over consecutive positions `pos[i], pos[i+1]`: an empty shard is
flagged `false` and left empty; a non-empty one takes its keys and either the values
`[pos[i]*k, pos[i+1]*k)` or its lens and the next `Σ lens` values from `val_begin`. -/
def sliceLoop (send : KVPairs Val) (k : Nat) :
    (valBegin : Int) → List Nat → Except Fault (List (Bool × KVPairs Val))
  | _, [] => .ok []
  | _, [_] => .ok []
  | valBegin, p :: q :: rest =>
      if q = p then ((false, .empty) :: ·) <$> sliceLoop send k valBegin (q :: rest)
      else if send.lens = [] then do
        let keys ← segment send.keys p q
        let vals ← segment send.vals (p * k : Nat) (q * k : Nat)
        ((true, ⟨keys, vals, []⟩) :: ·) <$> sliceLoop send k valBegin (q :: rest)
      else do
        let keys ← segment send.keys p q
        let lens ← segment send.lens p q
        let valEnd := valBegin + lens.sum
        let vals ← segment send.vals valBegin valEnd
        ((true, ⟨keys, vals, lens⟩) :: ·) <$> sliceLoop send k valEnd (q :: rest)

end Slicer

open Slicer in
/-- `KVWorker<Val>::DefaultSlicer`: one `(non-empty, shard)` pair per server range. -/
def defaultSlicer (send : KVPairs Val) (ranges : List Range) :
    Except Fault (List (Bool × KVPairs Val)) := do
  let pos ← positions send.keys ranges
  if pos.getLast? ≠ some send.keys.length then
    throw (.check "pos[n] == send.keys.size()")
  else if send.keys = [] then
    return ranges.map fun _ => (false, .empty)
  else if send.lens = [] then
    let k := send.vals.length / send.keys.length
    if k * send.keys.length ≠ send.vals.length then
      throw (.check "k * send.keys.size() == send.vals.size()")
    else sliceLoop send k 0 pos
  else if send.keys.length ≠ send.lens.length then
    throw (.check "send.keys.size() == send.lens.size()")
  else sliceLoop send 0 0 pos

namespace Slicer

variable {Val : Type}

/-! ## The position loop -/

theorem findPositions_length {keys : List Nat} {cursor : Nat} {previous : Range}
    {ranges : List Range} {pos : List Nat}
    (found : findPositions keys cursor previous ranges = .ok pos) :
    pos.length = ranges.length := by
  induction ranges generalizing cursor previous pos with
  | nil => cases found; rfl
  | cons range rest inductionHypothesis =>
      unfold findPositions at found
      split at found
      · obtain ⟨tail, tailFound, rfl⟩ := map_eq_ok.mp found
        simp [inductionHypothesis tailFound]
      · cases found

theorem positions_length {keys : List Nat} {ranges : List Range} {pos : List Nat}
    (found : positions keys ranges = .ok pos) : pos.length = ranges.length + 1 := by
  cases ranges with
  | nil => cases found; rfl
  | cons range rest =>
      obtain ⟨tail, tailFound, rfl⟩ := map_eq_ok.mp found
      simp [findPositions_length tailFound]

/-- A successful position loop met ranges that are contiguous from `previous` on. -/
theorem findPositions_chain {keys : List Nat} {cursor : Nat} {previous : Range}
    {ranges : List Range} {pos : List Nat}
    (found : findPositions keys cursor previous ranges = .ok pos) :
    List.Chain (fun r s => r.endKey = s.beginKey) previous ranges := by
  induction ranges generalizing cursor previous pos with
  | nil => exact List.Chain.nil
  | cons range rest inductionHypothesis =>
      unfold findPositions at found
      split at found
      · obtain ⟨tail, tailFound, -⟩ := map_eq_ok.mp found
        exact List.Chain.cons ‹_› (inductionHypothesis tailFound)
      · cases found

section Sorted

variable {keys : List Nat} (sorted : keys.Pairwise (· ≤ ·))
include sorted

/-- On sorted keys and increasing ranges the loop's positions are the lower bounds of the
range ends. -/
theorem findPositions_eq {previous : Range} {ranges : List Range} {pos : List Nat}
    (increasing : ∀ range ∈ ranges, range.beginKey ≤ range.endKey)
    (found : findPositions keys (lowerBound keys previous.endKey) previous ranges = .ok pos) :
    pos = ranges.map fun range => lowerBound keys range.endKey := by
  induction ranges generalizing previous pos with
  | nil => cases found; rfl
  | cons range rest inductionHypothesis =>
      unfold findPositions at found
      split at found
      · rename_i adjacent
        obtain ⟨tail, tailFound, rfl⟩ := map_eq_ok.mp found
        have next : lowerBound keys previous.endKey
            + lowerBound (keys.drop (lowerBound keys previous.endKey)) range.endKey
            = lowerBound keys range.endKey := by
          rw [add_lowerBound_drop sorted, adjacent]
          exact max_eq_right (lowerBound_mono keys
            (increasing range (List.mem_cons_self _ _)))
        rw [next] at tailFound ⊢
        rw [inductionHypothesis (fun r member => increasing r (List.mem_cons_of_mem _ member))
          tailFound, List.map_cons]
      · cases found

/-- With the first range starting at or below every key, the positions are the lower bounds
of the ranges' beginnings followed by that of the last end. -/
theorem positions_eq {range : Range} {rest : List Range} {pos : List Nat}
    (increasing : ∀ r ∈ range :: rest, r.beginKey ≤ r.endKey)
    (found : positions keys (range :: rest) = .ok pos) :
    pos = lowerBound keys range.beginKey :: (range :: rest).map fun r => lowerBound keys r.endKey := by
  obtain ⟨tail, tailFound, rfl⟩ := map_eq_ok.mp found
  have next : lowerBound keys range.beginKey
      + lowerBound (keys.drop (lowerBound keys range.beginKey)) range.endKey
      = lowerBound keys range.endKey := by
    rw [add_lowerBound_drop sorted]
    exact max_eq_right (lowerBound_mono keys (increasing range (List.mem_cons_self _ _)))
  rw [next] at tailFound ⊢
  rw [findPositions_eq sorted (fun r member => increasing r (List.mem_cons_of_mem _ member))
    tailFound]
  rfl

end Sorted

/-! ## The slicing loop -/

/-- The values before position `p` in lens mode: `val_begin` when the loop reaches `p`. -/
def prefixSum (lens : List Int) (p : Nat) : Int :=
  (lens.take p).sum

@[simp] theorem prefixSum_nil (p : Nat) : prefixSum [] p = 0 := by
  simp [prefixSum]

theorem prefixSum_add_cut (lens : List Int) {p q : Nat} (le : p ≤ q) :
    prefixSum lens p + (cut lens p q).sum = prefixSum lens q := by
  rw [prefixSum, prefixSum, cut, ← List.sum_append, ← List.take_add, Nat.add_sub_cancel' le]

/-- The shard the slicing loop cuts between positions `p` and `q`: the keys there, with
the values `[p*k, q*k)` or, in lens mode, the lens there and the values between the prefix
sums of the lens. -/
def shardBetween (send : KVPairs Val) (k p q : Nat) : Bool × KVPairs Val :=
  if q = p then (false, .empty)
  else if send.lens = [] then (true, ⟨cut send.keys p q, cut send.vals (p * k) (q * k), []⟩)
  else (true, ⟨cut send.keys p q,
    cut send.vals (prefixSum send.lens p).toNat (prefixSum send.lens q).toNat,
    cut send.lens p q⟩)

section Fields

variable (send : KVPairs Val) (k p q : Nat)

@[simp] theorem shardBetween_flag : (shardBetween send k p q).1 = decide (q ≠ p) := by
  unfold shardBetween; split_ifs <;> simp_all

@[simp] theorem shardBetween_keys : (shardBetween send k p q).2.keys = cut send.keys p q := by
  unfold shardBetween; split_ifs <;> simp_all [KVPairs.empty]

theorem shardBetween_vals_fixed (fixed : send.lens = []) :
    (shardBetween send k p q).2.vals = cut send.vals (p * k) (q * k) := by
  unfold shardBetween; split_ifs <;> simp_all [KVPairs.empty]

theorem shardBetween_vals_lens (lensMode : send.lens ≠ []) :
    (shardBetween send k p q).2.vals =
      cut send.vals (prefixSum send.lens p).toNat (prefixSum send.lens q).toNat := by
  unfold shardBetween; split_ifs <;> simp_all [KVPairs.empty]

@[simp] theorem shardBetween_lens : (shardBetween send k p q).2.lens = cut send.lens p q := by
  unfold shardBetween; split_ifs <;> simp_all [KVPairs.empty]

end Fields

/-- What a successful slicing loop produced: the shards between consecutive positions, which
never decrease, and neither do the lens prefix sums at them. -/
theorem sliceLoop_ok {send : KVPairs Val} {k p : Nat} {ps : List Nat}
    {out : List (Bool × KVPairs Val)}
    (sliced : sliceLoop send k (prefixSum send.lens p) (p :: ps) = .ok out) :
    out = ((p :: ps).zip ps).map (fun ab => shardBetween send k ab.1 ab.2) ∧
      List.Chain (fun a b => a ≤ b ∧ prefixSum send.lens a ≤ prefixSum send.lens b) p ps := by
  induction ps generalizing p out with
  | nil => cases sliced; exact ⟨rfl, List.Chain.nil⟩
  | cons q rest inductionHypothesis =>
      unfold sliceLoop at sliced
      split_ifs at sliced with same fixed
      · subst same
        obtain ⟨tail, tailSliced, rfl⟩ := map_eq_ok.mp sliced
        obtain ⟨tailEq, tailChain⟩ := inductionHypothesis tailSliced
        exact ⟨by simp [tailEq, shardBetween], List.Chain.cons ⟨le_rfl, le_rfl⟩ tailChain⟩
      · obtain ⟨keys, keysCut, sliced⟩ := bind_eq_ok.mp sliced
        obtain ⟨vals, valsCut, sliced⟩ := bind_eq_ok.mp sliced
        obtain ⟨tail, tailSliced, rfl⟩ := map_eq_ok.mp sliced
        obtain ⟨-, le, -, rfl⟩ := segment_eq_ok keysCut
        obtain ⟨-, -, -, rfl⟩ := segment_eq_ok valsCut
        rw [fixed, prefixSum_nil, ← prefixSum_nil q, ← fixed] at tailSliced
        obtain ⟨tailEq, tailChain⟩ := inductionHypothesis tailSliced
        have products (a : Nat) : ((a : Int) * k).toNat = a * k := by norm_cast
        refine ⟨?_, List.Chain.cons ⟨by omega, by simp [fixed]⟩ tailChain⟩
        simp [tailEq, shardBetween, same, fixed, products]
      · obtain ⟨keys, keysCut, sliced⟩ := bind_eq_ok.mp sliced
        obtain ⟨lens, lensCut, sliced⟩ := bind_eq_ok.mp sliced
        obtain ⟨vals, valsCut, sliced⟩ := bind_eq_ok.mp sliced
        obtain ⟨tail, tailSliced, rfl⟩ := map_eq_ok.mp sliced
        obtain ⟨-, le, -, rfl⟩ := segment_eq_ok keysCut
        obtain ⟨-, -, -, rfl⟩ := segment_eq_ok lensCut
        simp only [Int.toNat_ofNat] at le valsCut tailSliced ⊢
        have valEnd := prefixSum_add_cut send.lens (show p ≤ q by omega)
        rw [valEnd] at valsCut tailSliced
        obtain ⟨-, sumsLe, -, rfl⟩ := segment_eq_ok valsCut
        obtain ⟨tailEq, tailChain⟩ := inductionHypothesis tailSliced
        refine ⟨?_, List.Chain.cons ⟨by omega, sumsLe⟩ tailChain⟩
        simp [tailEq, shardBetween, same, fixed]

/-- A chain of non-decreasing offsets ends at or above where it starts. -/
theorem le_getLastD_of_chain (f : Nat → Nat) {p : Nat} {ps : List Nat}
    (mono : List.Chain (fun a b => f a ≤ f b) p ps) : f p ≤ f (ps.getLastD p) := by
  induction mono with
  | nil => exact le_rfl
  | cons step _ inductionHypothesis =>
      rw [List.getLastD_cons]
      exact step.trans inductionHypothesis

/-- Cuts between consecutive non-decreasing offsets concatenate to one cut. -/
theorem flatten_cuts (xs : List α) (f : Nat → Nat) {p : Nat} {ps : List Nat}
    (mono : List.Chain (fun a b => f a ≤ f b) p ps) :
    (((p :: ps).zip ps).map fun ab => cut xs (f ab.1) (f ab.2)).flatten =
      cut xs (f p) (f (ps.getLastD p)) := by
  induction mono with
  | nil => simp
  | @cons a b rest step tailMono inductionHypothesis =>
      rw [List.zip_cons_cons, List.map_cons, List.flatten_cons, inductionHypothesis,
        List.getLastD_cons, cut_append_cut xs step (le_getLastD_of_chain f tailMono)]

/-! ## The slicer -/

/-- What a successful `defaultSlicer` did: the position loop passed the coverage check, and
either the batch had no keys, or the length check of its mode passed and the slicing loop
ran from offset `0` over the positions. -/
theorem defaultSlicer_ok {send : KVPairs Val} {ranges : List Range}
    {sliced : List (Bool × KVPairs Val)} (returns : defaultSlicer send ranges = .ok sliced) :
    ∃ pos, positions send.keys ranges = .ok pos ∧ pos.getLast? = some send.keys.length ∧
      ((send.keys = [] ∧ sliced = ranges.map fun _ => (false, .empty)) ∨
        (send.keys ≠ [] ∧ send.lens = [] ∧
          send.vals.length / send.keys.length * send.keys.length = send.vals.length ∧
          sliceLoop send (send.vals.length / send.keys.length) 0 pos = .ok sliced) ∨
        (send.keys ≠ [] ∧ send.lens ≠ [] ∧ send.keys.length = send.lens.length ∧
          sliceLoop send 0 0 pos = .ok sliced)) := by
  obtain ⟨pos, found, returns⟩ := bind_eq_ok.mp returns
  refine ⟨pos, found, ?_⟩
  simp only [throw, throwThe, MonadExceptOf.throw, pure, Except.pure] at returns
  split_ifs at returns <;> simp_all

end Slicer

end Dgt
