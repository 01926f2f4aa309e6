import Mathlib

/-!
# Keys, key ranges and key-value lists

The data model of the worker in `kv_app.h`. A key is a `uint64_t`, a server owns a
half-open key range, and a `KVPairs` batch carries ascending keys, their concatenated
values and optional per-key value lengths. Fatal outcomes of the source, a failed `CHECK`
or undefined behaviour, are values of `Fault`, so every modelled function is total.
The two library routines the slicer and the pull callback lean on, `std::lower_bound`
and `SArray::segment`, are modelled here by their contracts.
-/

namespace Dgt

/-- Number of values of a `uint64_t`: keys (`ps::Key`) are natural numbers below it, and
key arithmetic wraps modulo it. -/
def keySpace : Nat := 2 ^ 64

/-- A half-open key range `[begin, end)` (`ps::Range`). -/
structure Range where
  /-- `Range::begin()`. -/
  beginKey : Nat
  /-- `Range::end()`. -/
  endKey : Nat
  deriving DecidableEq, Repr

/-- A key lies in a range. -/
def Range.contains (range : Range) (key : Nat) : Bool :=
  range.beginKey ≤ key && key < range.endKey

/-- A list of key-value pairs (`ps::KVPairs<Val>`). When `lens` is empty every key has
`vals.size() / keys.size()` values; otherwise key `i` has `lens[i]` of them. -/
structure KVPairs (Val : Type) where
  /-- Keys, unique and ascending. -/
  keys : List Nat
  /-- The values of all keys, concatenated. -/
  vals : List Val
  /-- Optional value length of each key. -/
  lens : List Int
  deriving DecidableEq, Repr

/-- The empty list, which `sliced->resize` and `KVPairs<Val>()` produce. -/
def KVPairs.empty : KVPairs Val := ⟨[], [], []⟩

/-- How a modelled call ends fatally. -/
inductive Fault
  /-- A failed `CHECK`, with the source's message or checked condition. -/
  | check (message : String)
  /-- Integer division or remainder by zero. -/
  | divisionByZero
  /-- `std::sort` or `std::shuffle` over `[begin(), end() - 1)` of an empty vector. -/
  | emptyRange
  /-- An access past the end of an array: a `memcpy` past its destination buffer, or a read
  past the request's values. -/
  | outOfBounds
  /-- A `std::vector` constructed with a negative size (`std::length_error`). -/
  | lengthError
  deriving DecidableEq, Repr

section Except

variable {ε α β : Type}

theorem bind_eq_ok {x : Except ε α} {f : α → Except ε β} {b : β} :
    x >>= f = .ok b ↔ ∃ a, x = .ok a ∧ f a = .ok b := by
  cases x <;> simp [bind, Except.bind]

theorem map_eq_ok {x : Except ε α} {f : α → β} {b : β} :
    f <$> x = .ok b ↔ ∃ a, x = .ok a ∧ f a = b := by
  cases x <;> simp [Functor.map, Except.map]

theorem map_eq_error {x : Except ε α} {f : α → β} {e : ε} :
    f <$> x = .error e ↔ x = .error e := by
  cases x <;> simp [Functor.map, Except.map]

end Except

/-- Keys that are strictly ascending, as `KVPairs` requires. -/
def Ascending (keys : List Nat) : Prop :=
  keys.Pairwise (· < ·)

instance (keys : List Nat) : Decidable (Ascending keys) :=
  inferInstanceAs (Decidable (keys.Pairwise _))

/-! ## Sub-lists -/

/-- The sub-list `[b, e)` of `xs`. -/
def cut (xs : List α) (b e : Nat) : List α :=
  (xs.drop b).take (e - b)

@[simp] theorem cut_nil (b e : Nat) : cut ([] : List α) b e = [] := by
  simp [cut]

@[simp] theorem cut_self (xs : List α) (b : Nat) : cut xs b b = [] := by
  simp [cut]

theorem cut_zero_length (xs : List α) : cut xs 0 xs.length = xs := by
  simp [cut]

@[simp] theorem length_cut {xs : List α} {b e : Nat} (inside : e ≤ xs.length) :
    (cut xs b e).length = e - b := by
  simp only [cut, List.length_take, List.length_drop]
  omega

/-- Adjacent cuts concatenate to the cut spanning both. -/
theorem cut_append_cut (xs : List α) {a b c : Nat} (ab : a ≤ b) (bc : b ≤ c) :
    cut xs a b ++ cut xs b c = cut xs a c := by
  have split : c - a = (b - a) + (c - b) := by omega
  rw [cut, cut, cut, split, List.take_add, List.drop_drop, Nat.add_sub_cancel' ab]

/-! ## `std::lower_bound` -/

/-- `std::lower_bound(begin, end, bound) - begin` on an ascending run: the number of
leading keys below `bound`, which is the partition point the binary search returns. -/
def lowerBound (keys : List Nat) (bound : Nat) : Nat :=
  (keys.takeWhile fun key => key < bound).length

@[simp] theorem lowerBound_nil (bound : Nat) : lowerBound [] bound = 0 := rfl

theorem lowerBound_cons (key : Nat) (keys : List Nat) (bound : Nat) :
    lowerBound (key :: keys) bound =
      if key < bound then lowerBound keys bound + 1 else 0 := by
  unfold lowerBound
  by_cases below : key < bound <;> simp [List.takeWhile_cons, below]

theorem lowerBound_le_length (keys : List Nat) (bound : Nat) :
    lowerBound keys bound ≤ keys.length :=
  (List.takeWhile_sublist _).length_le

theorem lowerBound_eq_zero {keys : List Nat} {bound : Nat}
    (above : ∀ key ∈ keys, bound ≤ key) : lowerBound keys bound = 0 := by
  cases keys with
  | nil => rfl
  | cons key keys =>
      rw [lowerBound_cons, if_neg (Nat.not_lt.mpr (above key (List.mem_cons_self _ _)))]

theorem lowerBound_mono (keys : List Nat) {lower upper : Nat} (le : lower ≤ upper) :
    lowerBound keys lower ≤ lowerBound keys upper := by
  induction keys with
  | nil => exact Nat.le_refl 0
  | cons key keys inductionHypothesis =>
      rw [lowerBound_cons, lowerBound_cons]
      split_ifs <;> omega

/-- The keys before the lower bound are below it, sorted or not. -/
theorem lt_of_mem_take_lowerBound {keys : List Nat} {bound key : Nat}
    (member : key ∈ keys.take (lowerBound keys bound)) : key < bound := by
  induction keys with
  | nil => cases member
  | cons first rest inductionHypothesis =>
      rw [lowerBound_cons] at member
      split_ifs at member with below
      · rw [List.take_succ_cons] at member
        rcases List.mem_cons.mp member with rfl | later
        · exact below
        · exact inductionHypothesis later
      · cases member

section Sorted

variable {keys : List Nat} (sorted : keys.Pairwise (· ≤ ·))
include sorted

/-- On a sorted run the keys before the lower bound are exactly those below it. -/
theorem take_lowerBound (bound : Nat) :
    keys.take (lowerBound keys bound) = keys.filter fun key => key < bound := by
  induction keys with
  | nil => rfl
  | cons key keys inductionHypothesis =>
      obtain ⟨headLe, tailSorted⟩ := List.pairwise_cons.mp sorted
      rw [lowerBound_cons]
      by_cases below : key < bound
      · simp [below, inductionHypothesis tailSorted]
      · have none : keys.filter (fun key => key < bound) = [] := by
          simp only [List.filter_eq_nil_iff, decide_eq_true_eq, Nat.not_lt]
          exact fun other member => (Nat.not_lt.mp below).trans (headLe other member)
        simp [below, none]

/-- On a sorted run the keys from the lower bound on are exactly those at or above it. -/
theorem drop_lowerBound (bound : Nat) :
    keys.drop (lowerBound keys bound) = keys.filter fun key => bound ≤ key := by
  induction keys with
  | nil => rfl
  | cons key keys inductionHypothesis =>
      obtain ⟨headLe, tailSorted⟩ := List.pairwise_cons.mp sorted
      rw [lowerBound_cons]
      by_cases below : key < bound
      · simp [below, inductionHypothesis tailSorted]
      · have all : keys.filter (fun key => bound ≤ key) = keys := by
          simp only [List.filter_eq_self, decide_eq_true_eq]
          exact fun other member => (Nat.not_lt.mp below).trans (headLe other member)
        simp [below, all, Nat.not_lt.mp below]

/-- Resuming the search at a cursor: `begin += len` in `DefaultSlicer` keeps the cursor
at the larger of itself and the lower bound of the whole run. -/
theorem add_lowerBound_drop (cursor : Nat) (bound : Nat) :
    cursor + lowerBound (keys.drop cursor) bound = max cursor (lowerBound keys bound) := by
  induction keys generalizing cursor with
  | nil => simp
  | cons key keys inductionHypothesis =>
      obtain ⟨headLe, tailSorted⟩ := List.pairwise_cons.mp sorted
      cases cursor with
      | zero => simp
      | succ cursor =>
          have step := inductionHypothesis tailSorted cursor
          rw [List.drop_succ_cons, lowerBound_cons]
          by_cases below : key < bound
          · rw [if_pos below]; omega
          · have tailZero : lowerBound keys bound = 0 := lowerBound_eq_zero
              fun other member => (Nat.not_lt.mp below).trans (headLe other member)
            rw [if_neg below]; omega

/-- On a sorted run, the keys between the lower bounds of `lower` and `upper` are exactly
those in `[lower, upper)`. -/
theorem cut_lowerBound (lower upper : Nat) :
    cut keys (lowerBound keys lower) (lowerBound keys upper) =
      keys.filter fun key => lower ≤ key && key < upper := by
  have dropSorted : (keys.drop (lowerBound keys lower)).Pairwise (· ≤ ·) :=
    sorted.sublist (List.drop_sublist _ _)
  have resumed := add_lowerBound_drop sorted (lowerBound keys lower) upper
  calc cut keys (lowerBound keys lower) (lowerBound keys upper)
      = (keys.drop (lowerBound keys lower)).take
          (lowerBound (keys.drop (lowerBound keys lower)) upper) := by
        rw [cut]; congr 1; omega
    _ = (keys.filter fun key => lower ≤ key).filter fun key => key < upper := by
        rw [take_lowerBound dropSorted, drop_lowerBound sorted]
    _ = keys.filter fun key => lower ≤ key && key < upper := by
        rw [List.filter_filter]
        exact List.filter_congr fun key _ => Bool.and_comm _ _

end Sorted

theorem Ascending.sorted {keys : List Nat} (ascending : Ascending keys) :
    keys.Pairwise (· ≤ ·) :=
  ascending.imp Nat.le_of_lt

/-! ## `SArray::segment` -/

/-- Modelled from the spec: `SArray::segment(begin, end)`, the sub-array `[begin, end)`; an
offset outside the array, a negative one standing for a wrapped `size_t`, is fatal. -/
def segment (xs : List α) (b e : Int) : Except Fault (List α) :=
  if 0 ≤ b ∧ b ≤ e ∧ e ≤ xs.length then .ok (cut xs b.toNat e.toNat)
  else .error (.check "SArray::segment out of range")

theorem segment_eq_ok {xs ys : List α} {b e : Int} (result : segment xs b e = .ok ys) :
    0 ≤ b ∧ b ≤ e ∧ e ≤ xs.length ∧ ys = cut xs b.toNat e.toNat := by
  unfold segment at result
  split at result
  · cases result
    exact ⟨by omega, by omega, by omega, rfl⟩
  · cases result

end Dgt
