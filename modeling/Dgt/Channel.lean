import Dgt.Message

/-!
# The channel classifier

`Get_channel(index, max_index, C, k)` maps a block's rank in its batch to a channel: ranks
below `round(k * (max_index + 1))` go to the reliable channel `0`, the rest of
`[min_index, max_index)` is cut into `C` equal segments numbered `1..C`, and an index no
segment holds falls back to `rand() % C + 1`. The `float` segment bounds are computed
exactly, over `ℚ`; the rate `k` is a value of the ordered field that models `float`s.
For an index below `max_index` the segments are searched successfully, so the channel is
`1 + ⌊C (index - min_index) / (max_index - min_index)⌋` and never depends on `rand()`.
-/

namespace Dgt

variable {R : Type} [LinearOrderedField R] [FloorRing R]

/-- `std::round`: the nearest integer, halfway cases away from zero. -/
def stdRound (x : R) : Int :=
  if 0 ≤ x then round x else -round (-x)

/-- One test of the `Get_channel` loop: whether `index` lies in segment `i` of the `C`
segments of `[min_index, max_index)`. -/
def inSegment (index minIndex maxIndex C : Int) (i : Nat) : Bool :=
  let width : ℚ := maxIndex - minIndex
  decide ((minIndex : ℚ) + i * width / C ≤ index) &&
    decide ((index : ℚ) < minIndex + (i + 1) * width / C)

/-- The loop `for (int i = 0; i < C; ++i)` of `Get_channel`: the first segment holding
`index` gives channel `i + 1`; when `max_index - min_index <= 0` the first iteration
returns `1`. -/
def channelSearch (index minIndex maxIndex C : Int) : List Nat → Option Int
  | [] => none
  | i :: rest =>
      if 0 < maxIndex - minIndex then
        if inSegment index minIndex maxIndex C i then some (i + 1)
        else channelSearch index minIndex maxIndex C rest
      else some (i + 1)

/-- `min_index = std::round(k * (max_index + 1))`: the ranks kept on the reliable channel. -/
def minIndex (k : R) (maxIndex : Int) : Int :=
  stdRound (k * ((maxIndex + 1 : Int) : R))

/-- The channel of `index` when the segment search finds it: `0` below `min_index`, and
otherwise the number `1 + ⌊C (index - min_index) / (max_index - min_index)⌋` of its segment. -/
def segmentChannel (k : R) (index maxIndex C : Int) : Int :=
  if index < minIndex k maxIndex then 0
  else 1 + C * (index - minIndex k maxIndex) / (maxIndex - minIndex k maxIndex)

/-- `Get_channel(index, max_index, C, k)`, with `rand()` returning `draw`; the fallback
`rand() % C` divides by zero when `C = 0`. -/
def getChannel (index maxIndex C : Int) (k : R) (draw : Nat) : Except Fault Int :=
  let minIndex := minIndex k maxIndex
  if index < minIndex then .ok 0
  else match channelSearch index minIndex maxIndex C (List.range C.toNat) with
    | some channel => .ok channel
    | none => if C = 0 then .error .divisionByZero else .ok (Int.tmod draw C + 1)

/-! ## The segment search -/

/-- Over a positive count and a non-empty span, segment `i` holds `index` exactly when `i` is
`⌊C (index - min_index) / (max_index - min_index)⌋`. -/
theorem inSegment_iff {index minIndex maxIndex C : Int} (i : Nat) (countPos : 0 < C)
    (spanPos : 0 < maxIndex - minIndex) :
    inSegment index minIndex maxIndex C i = true ↔
      (i : Int) = C * (index - minIndex) / (maxIndex - minIndex) := by
  have countPosQ : (0 : ℚ) < C := Int.cast_pos.mpr countPos
  have lower : (minIndex : ℚ) + i * ((maxIndex : ℚ) - minIndex) / C ≤ index ↔
      (i : Int) * (maxIndex - minIndex) ≤ C * (index - minIndex) := by
    rw [← le_sub_iff_add_le', div_le_iff₀ countPosQ, mul_comm ((index : ℚ) - _)]
    exact_mod_cast Iff.rfl
  have upper : (index : ℚ) < minIndex + (i + 1) * ((maxIndex : ℚ) - minIndex) / C ↔
      C * (index - minIndex) < ((i : Int) + 1) * (maxIndex - minIndex) := by
    rw [← sub_lt_iff_lt_add', lt_div_iff₀ countPosQ, mul_comm ((index : ℚ) - _)]
    exact_mod_cast Iff.rfl
  simp only [inSegment, Bool.and_eq_true, decide_eq_true_eq, lower, upper]
  constructor
  · rintro ⟨low, high⟩
    have atLeast := (Int.le_ediv_iff_mul_le spanPos).mpr low
    have below := (Int.ediv_lt_iff_lt_mul spanPos).mpr high
    omega
  · intro quotient
    exact ⟨(Int.le_ediv_iff_mul_le spanPos).mp quotient.le,
      (Int.ediv_lt_iff_lt_mul spanPos).mp (by omega)⟩

theorem channelSearch_of_unique {index minIndex maxIndex C : Int} {l : List Nat} (q : Nat)
    (spanPos : 0 < maxIndex - minIndex) (member : q ∈ l)
    (only : ∀ i ∈ l, inSegment index minIndex maxIndex C i = true ↔ i = q) :
    channelSearch index minIndex maxIndex C l = some ((q : Int) + 1) := by
  induction l with
  | nil => cases member
  | cons i rest inductionHypothesis =>
      rw [channelSearch, if_pos spanPos]
      by_cases same : i = q
      · subst same
        rw [if_pos ((only i (List.mem_cons_self _ _)).mpr rfl)]
      · rw [if_neg fun holds => same ((only i (List.mem_cons_self _ _)).mp holds)]
        exact inductionHypothesis (List.mem_of_ne_of_mem (Ne.symm same) member)
          fun j member => only j (List.mem_cons_of_mem _ member)

/-- From `min_index` on, the segment number `⌊C (index - min_index) / (max_index -
min_index)⌋` of an index below `max_index` is one of the `C` segments. -/
theorem quotient_bounds {index minIndex maxIndex C : Int} (countPos : 0 < C)
    (atLeast : minIndex ≤ index) (indexLt : index < maxIndex) :
    0 ≤ C * (index - minIndex) / (maxIndex - minIndex) ∧
      C * (index - minIndex) / (maxIndex - minIndex) < C :=
  ⟨Int.ediv_nonneg (Int.mul_nonneg countPos.le (by omega)) (by omega),
    (Int.ediv_lt_iff_lt_mul (by omega)).mpr (Int.mul_lt_mul_of_pos_left (by omega) countPos)⟩

/-- From `min_index` on, the segment loop over `i < C` finds an index below `max_index` in
segment `⌊C (index - min_index) / (max_index - min_index)⌋` and returns that number plus one. -/
theorem channelSearch_of_le {index minIndex maxIndex C : Int} (countPos : 0 < C)
    (atLeast : minIndex ≤ index) (indexLt : index < maxIndex) :
    channelSearch index minIndex maxIndex C (List.range C.toNat) =
      some (1 + C * (index - minIndex) / (maxIndex - minIndex)) := by
  have spanPos : 0 < maxIndex - minIndex := by omega
  have bounds := quotient_bounds countPos atLeast indexLt
  rw [channelSearch_of_unique (C * (index - minIndex) / (maxIndex - minIndex)).toNat spanPos
    (List.mem_range.mpr (by omega)) fun i _ => (inSegment_iff i countPos spanPos).trans (by omega)]
  congr 1
  omega

/-! ## Channels -/

/-- With at least one channel, an index below `max_index` gets channel `0` below
`min_index` and otherwise the segment channel `1 + ⌊C (index - min_index) / (max_index -
min_index)⌋`, whatever `rand()` returns. -/
theorem getChannel_of_lt {index maxIndex C : Int} (k : R) (draw : Nat) (countPos : 0 < C)
    (indexLt : index < maxIndex) :
    getChannel index maxIndex C k draw = .ok (segmentChannel k index maxIndex C) := by
  unfold getChannel segmentChannel
  by_cases below : index < minIndex k maxIndex
  · simp only [if_pos below]
  · simp only [if_neg below]
    rw [channelSearch_of_le countPos (by omega) indexLt]

/-- `Get_channel` by segments: the loop always finds the segment of an index below
`max_index`, so the `rand()` fallback is never reached. -/
theorem getChannel_returns_segment {index maxIndex C : Int} (k : R) (countPos : 1 ≤ C)
    (indexLt : index < maxIndex) :
    (index < minIndex k maxIndex → ∀ draw, getChannel index maxIndex C k draw = .ok 0) ∧
    (minIndex k maxIndex ≤ index →
      channelSearch index (minIndex k maxIndex) maxIndex C (List.range C.toNat) =
          some (1 + C * (index - minIndex k maxIndex) / (maxIndex - minIndex k maxIndex)) ∧
        (∀ draw, getChannel index maxIndex C k draw =
          .ok (1 + C * (index - minIndex k maxIndex) / (maxIndex - minIndex k maxIndex))) ∧
        1 ≤ 1 + C * (index - minIndex k maxIndex) / (maxIndex - minIndex k maxIndex) ∧
        1 + C * (index - minIndex k maxIndex) / (maxIndex - minIndex k maxIndex) ≤ C) := by
  refine ⟨fun below draw => ?_, fun atLeast => ?_⟩
  · rw [getChannel_of_lt k draw countPos indexLt, segmentChannel, if_pos below]
  · have bounds := quotient_bounds countPos atLeast indexLt
    refine ⟨channelSearch_of_le countPos atLeast indexLt, fun draw => ?_, by omega, by omega⟩
    rw [getChannel_of_lt k draw countPos indexLt, segmentChannel, if_neg (by omega)]

/-- Ten ranks (`max_index = 9`), four lossy channels and `k = 0.5`: `m = round(0.5 · 10) = 5`,
so rank `7` lies in segment `⌊4 · 2 / 4⌋ = 2` and gets channel `3`. -/
theorem getChannel_returns_segment_of_rank_seven :
    (1 : Int) ≤ 4 ∧ (7 : Int) < 9 ∧
      (((7 : Int) < minIndex (1 / 2 : ℚ) 9 → ∀ draw, getChannel 7 9 4 (1 / 2 : ℚ) draw = .ok 0) ∧
      (minIndex (1 / 2 : ℚ) 9 ≤ 7 →
        channelSearch 7 (minIndex (1 / 2 : ℚ) 9) 9 4 (List.range (4 : Int).toNat) =
            some (1 + 4 * (7 - minIndex (1 / 2 : ℚ) 9) / (9 - minIndex (1 / 2 : ℚ) 9)) ∧
          (∀ draw, getChannel 7 9 4 (1 / 2 : ℚ) draw =
            .ok (1 + 4 * (7 - minIndex (1 / 2 : ℚ) 9) / (9 - minIndex (1 / 2 : ℚ) 9))) ∧
          1 ≤ 1 + 4 * (7 - minIndex (1 / 2 : ℚ) 9) / (9 - minIndex (1 / 2 : ℚ) 9) ∧
          1 + 4 * (7 - minIndex (1 / 2 : ℚ) 9) / (9 - minIndex (1 / 2 : ℚ) 9) ≤ 4)) ∧
      minIndex (1 / 2 : ℚ) 9 = 5 := by
  refine ⟨by decide, by decide, getChannel_returns_segment (1 / 2 : ℚ) (by decide) (by decide), ?_⟩
  simp only [minIndex, stdRound]
  norm_num

/-- Below `max_index`, the reliable channel `0` is the channel of exactly the indices below
`min_index`, and every other index gets a lossy channel of `[1, C]`. -/
theorem segmentChannel_bounds {index maxIndex C : Int} (k : R) (countPos : 0 < C)
    (indexLt : index < maxIndex) :
    (segmentChannel k index maxIndex C = 0 ↔ index < minIndex k maxIndex) ∧
      0 ≤ segmentChannel k index maxIndex C ∧ segmentChannel k index maxIndex C ≤ C := by
  unfold segmentChannel
  by_cases below : index < minIndex k maxIndex
  · rw [if_pos below]
    exact ⟨iff_of_true rfl below, le_rfl, countPos.le⟩
  · have bounds := quotient_bounds countPos (not_lt.mp below) indexLt
    rw [if_neg below]
    exact ⟨iff_of_false (by omega) below, by omega, by omega⟩

/-- The segment channel does not decrease along the indices. -/
theorem segmentChannel_mono {index index' maxIndex C : Int} (k : R) (countPos : 0 < C)
    (le : index ≤ index') (indexLt : index' < maxIndex) :
    segmentChannel k index maxIndex C ≤ segmentChannel k index' maxIndex C := by
  have bounds := segmentChannel_bounds k countPos indexLt
  unfold segmentChannel at *
  by_cases below : index < minIndex k maxIndex
  · rw [if_pos below]
    exact bounds.2.1
  · rw [if_neg below, if_neg (by omega)]
    exact Int.add_le_add_left (Int.ediv_le_ediv (by omega)
      (Int.mul_le_mul_of_nonneg_left (by omega) countPos.le)) 1

/-- `Get_channel` faults only by `rand() % 0`. -/
theorem getChannel_ok {index maxIndex C : Int} (k : R) (draw : Nat) (countNonzero : C ≠ 0) :
    ∃ channel, getChannel index maxIndex C k draw = .ok channel := by
  unfold getChannel
  by_cases below : index < minIndex k maxIndex
  · exact ⟨_, if_pos below⟩
  · simp only [if_neg below]
    split
    · exact ⟨_, rfl⟩
    · exact ⟨_, if_neg countNonzero⟩

end Dgt
