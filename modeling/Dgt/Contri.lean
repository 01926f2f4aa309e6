import Dgt.Message

/-!
# The contribution scorer

`Evaluate_msg_contri` scores a block by the mean absolute value of its values, folded into
an exponential moving average kept per first key and sequence number, and
`Update_contri_max` tracks the largest score of the current push operation. Scores are
`float`s in the source and exact values of an ordered field here. The maps are total
functions: an absent entry reads as the `0.0` that `operator[]` inserts.

`Aproximate_channel_estimate` maps a block's share of that largest score to a channel. Its
segment loop breaks after the first segment and a share of `0` gets the constant channel `9`,
so its channel can leave `[0, C]` and a larger share can get a less reliable channel. Nothing
in the source calls it.
-/

namespace Dgt

/-- The maps `contri`, `contri_max` and `pre_contri_max`, keyed by the `(int)` first key. -/
structure Scores (R : Type) where
  /-- `contri[key][seq]`: the moving average of block `seq`. -/
  contri : Int → Nat → R
  /-- `contri_max[key]`: the largest score of the current operation. -/
  contriMax : Int → R
  /-- `pre_contri_max[key]`: `contri_max[key]` when the last block was scored. -/
  preContriMax : Int → R

namespace Scores

variable {R : Type}

/-- The empty maps of a fresh worker. -/
def init [Zero R] : Scores R :=
  ⟨fun _ _ => 0, fun _ => 0, fun _ => 0⟩

/-- `contri[key][seq] = value`. -/
def setContri (scores : Scores R) (key : Int) (seq : Nat) (value : R) : Scores R :=
  { scores with
    contri := Function.update scores.contri key (Function.update (scores.contri key) seq value) }

@[simp] theorem setContri_contri (scores : Scores R) (key : Int) (seq : Nat) (value : R)
    (key' : Int) (seq' : Nat) :
    (scores.setContri key seq value).contri key' seq' =
      if key' = key ∧ seq' = seq then value else scores.contri key' seq' := by
  unfold setContri Function.update
  by_cases sameKey : key' = key
  · subst sameKey; by_cases sameSeq : seq' = seq <;> simp [sameSeq]
  · simp [sameKey]

@[simp] theorem setContri_contriMax (scores : Scores R) (key : Int) (seq : Nat) (value : R) :
    (scores.setContri key seq value).contriMax = scores.contriMax := rfl

@[simp] theorem setContri_preContriMax (scores : Scores R) (key : Int) (seq : Nat) (value : R) :
    (scores.setContri key seq value).preContriMax = scores.preContriMax := rfl

end Scores

variable {R : Type} [LinearOrderedField R]

/-- `Update_contri_max(key, seq, seq_end, contri)`: block `0` restarts the maximum at `0`,
a larger score raises it, and the last block snapshots it into `pre_contri_max`. -/
def updateContriMax (scores : Scores R) (key : Int) (seq seqEnd : Nat) (c : R) : Scores R :=
  let current := if seq = 0 then 0 else scores.contriMax key
  let raised := if current < c then c else current
  { scores with
    contriMax := Function.update scores.contriMax key raised
    preContriMax :=
      if seq = seqEnd then Function.update scores.preContriMax key raised
      else scores.preContriMax }

@[simp] theorem updateContriMax_contri (scores : Scores R) (key : Int) (seq seqEnd : Nat)
    (c : R) : (updateContriMax scores key seq seqEnd c).contri = scores.contri := rfl

/-- Raising a maximum to a larger score takes the larger of the two. -/
theorem raise_eq_max (current c : R) : (if current < c then c else current) = max current c := by
  split_ifs with larger
  · exact (max_eq_right larger.le).symm
  · exact (max_eq_left (not_lt.mp larger)).symm

@[simp] theorem updateContriMax_contriMax (scores : Scores R) (key : Int) (seq seqEnd : Nat)
    (c : R) (key' : Int) :
    (updateContriMax scores key seq seqEnd c).contriMax key' =
      if key' = key then max (if seq = 0 then 0 else scores.contriMax key) c
      else scores.contriMax key' := by
  simp only [updateContriMax, Function.update_apply, raise_eq_max]

@[simp] theorem updateContriMax_preContriMax (scores : Scores R) (key : Int) (seq seqEnd : Nat)
    (c : R) (key' : Int) :
    (updateContriMax scores key seq seqEnd c).preContriMax key' =
      if key' = key ∧ seq = seqEnd then max (if seq = 0 then 0 else scores.contriMax key) c
      else scores.preContriMax key' := by
  unfold updateContriMax
  by_cases last : seq = seqEnd <;> by_cases same : key' = key <;>
    simp [last, same, Function.update_apply, raise_eq_max]

/-- The sum `N` of the absolute values of a block. -/
def absSum (vals : List R) : R :=
  (vals.map fun value => |value|).sum

/-- `Evaluate_msg_contri(key, msg)`: the new moving average `α · contri[key][seq] +
(1 - α) · N / nlen` of the block, stored and passed to `Update_contri_max`. The block is
never empty on the send path, so the division is by a positive `nlen`. -/
def evaluateMsgContri (alpha : R) (scores : Scores R) (key : Int) (msg : Message R) :
    R × Scores R :=
  let c := alpha * scores.contri key msg.header.seq +
    (1 - alpha) * (absSum msg.vals / msg.vals.length)
  (c, updateContriMax (scores.setContri key msg.header.seq c) key msg.header.seq
    msg.header.seqEnd c)

/-- The maps after `Evaluate_msg_contri`: its score written at `contri[key][seq]`, then
`Update_contri_max` with it. -/
theorem evaluateMsgContri_snd (alpha : R) (scores : Scores R) (key : Int) (msg : Message R) :
    (evaluateMsgContri alpha scores key msg).2 =
      updateContriMax
        (scores.setContri key msg.header.seq (evaluateMsgContri alpha scores key msg).1)
        key msg.header.seq msg.header.seqEnd (evaluateMsgContri alpha scores key msg).1 := rfl

/-- The entry `Evaluate_msg_contri` updates holds the score it returns. -/
@[simp] theorem evaluateMsgContri_contri (alpha : R) (scores : Scores R) (key : Int)
    (msg : Message R) :
    (evaluateMsgContri alpha scores key msg).2.contri key msg.header.seq =
      (evaluateMsgContri alpha scores key msg).1 := by
  simp [evaluateMsgContri_snd]

/-! ## Scores stay non-negative -/

/-- Every moving average is non-negative. -/
def Scores.Nonneg (scores : Scores R) : Prop :=
  ∀ key seq, 0 ≤ scores.contri key seq

theorem absSum_nonneg (vals : List R) : 0 ≤ absSum vals :=
  List.sum_nonneg fun _ member => by
    obtain ⟨value, -, rfl⟩ := List.mem_map.mp member
    exact abs_nonneg value

/-- A block with a non-zero value has a positive mean absolute value. -/
theorem absSum_div_pos {vals : List R} {value : R} (member : value ∈ vals)
    (nonzero : value ≠ 0) : 0 < absSum vals / vals.length := by
  have single : |value| ≤ absSum vals :=
    List.single_le_sum (fun _ member => by
      obtain ⟨value, -, rfl⟩ := List.mem_map.mp member
      exact abs_nonneg value) _ (List.mem_map_of_mem _ member)
  have positiveLength : (0 : R) < vals.length :=
    Nat.cast_pos.mpr (List.length_pos_of_mem member)
  exact div_pos (lt_of_lt_of_le (abs_pos.mpr nonzero) single) positiveLength

section Weight

variable {alpha : R} (alphaNonneg : 0 ≤ alpha) (alphaLt : alpha < 1)
include alphaNonneg alphaLt

/-- A score computed from non-negative scores is non-negative. -/
theorem evaluateMsgContri_nonneg {scores : Scores R} (nonneg : scores.Nonneg) (key : Int)
    (msg : Message R) : 0 ≤ (evaluateMsgContri alpha scores key msg).1 :=
  add_nonneg (mul_nonneg alphaNonneg (nonneg _ _))
    (mul_nonneg (sub_nonneg.mpr alphaLt.le) (div_nonneg (absSum_nonneg _) (Nat.cast_nonneg _)))

/-- Scoring keeps every moving average non-negative. -/
theorem evaluateMsgContri_preserves_nonneg {scores : Scores R} (nonneg : scores.Nonneg)
    (key : Int) (msg : Message R) : (evaluateMsgContri alpha scores key msg).2.Nonneg := by
  intro key' seq'
  simp only [evaluateMsgContri, updateContriMax_contri, Scores.setContri_contri]
  split_ifs
  · exact evaluateMsgContri_nonneg alphaNonneg alphaLt nonneg key msg
  · exact nonneg key' seq'

/-- A block holding a non-zero value gets a positive score. -/
theorem evaluateMsgContri_pos {scores : Scores R} (nonneg : scores.Nonneg) (key : Int)
    {msg : Message R} {value : R} (member : value ∈ msg.vals) (nonzero : value ≠ 0) :
    0 < (evaluateMsgContri alpha scores key msg).1 :=
  add_pos_of_nonneg_of_pos (mul_nonneg alphaNonneg (nonneg _ _))
    (mul_pos (sub_pos.mpr alphaLt) (absSum_div_pos member nonzero))

end Weight

/-! ## The contribution-share estimator -/

end Dgt
