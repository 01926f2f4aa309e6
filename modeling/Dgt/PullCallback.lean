import Dgt.SlicerCorrect
import Dgt.Send

/-!
# The pull callback

`AddPullCB` registers a closure that runs when the last reply of a pull is in. It checks every
buffered reply against the requested keys (the keys of the reply must fill their span
`[front, back + 1)` of the requested keys, and with a lens buffer come with one len per key),
checks that the reply keys add up to the requested ones, sorts the replies by first key, and
copies their values and lens one after the other into the caller's buffers.

The two counting checks alone do not make the replies cover the requested keys: two copies of
one reply pass them. Replies that are ascending runs of the requested keys with no key in
common do cover them, in first-key order. The replies a `DefaultSlicer` pull gets back are
such runs, so the callback writes the values in the order of the requested keys whatever order
the replies arrived in.
-/

namespace Dgt

variable {R : Type}

/-! ## The closure -/

/-- Modelled from the spec: `FindRange(keys, lower, upper)`, the span of the requested keys in
`[lower, upper)`, found by `std::lower_bound` at both ends, and empty when
`upper <= lower`. -/
def findRange (keys : List Nat) (lower upper : Nat) : Nat × Nat :=
  if upper ≤ lower then (0, 0) else (lowerBound keys lower, lowerBound keys upper)

/-- The span of a reply, `FindRange(keys, s.keys.front(), s.keys.back() + 1)`, with the
`uint64_t` increment. -/
def replySpan (keys : List Nat) (reply : KVPairs R) : Nat × Nat :=
  findRange keys (reply.keys.headD 0) ((reply.keys.getLastD 0 + 1) % keySpace)

/-- The check loop of the closure: each reply's keys must fill its span of the requested keys
and, with a lens buffer, come with one len per key; it sums the key and value counts. -/
def checkReplies (keys : List Nat) (withLens : Bool) :
    List (KVPairs R) → Except Fault (Nat × Nat)
  | [] => .ok (0, 0)
  | reply :: rest =>
      if (replySpan keys reply).2 - (replySpan keys reply).1 ≠ reply.keys.length then
        .error (.check "unmatched keys size from one server")
      else if withLens ∧ reply.lens.length ≠ reply.keys.length then
        .error (.check "s.lens.size() == s.keys.size()")
      else
        (fun totals => (reply.keys.length + totals.1, reply.vals.length + totals.2)) <$>
          checkReplies keys withLens rest

/-- `memcpy(buffer + offset, data, data.size())`; a copy past the end of the buffer is out of
bounds. -/
def writeAt {α : Type} (buffer : List α) (offset : Nat) (data : List α) :
    Except Fault (List α) :=
  if offset + data.length ≤ buffer.length then
    .ok (buffer.take offset ++ data ++ buffer.drop (offset + data.length))
  else .error .outOfBounds

/-- The fill loop: each sorted reply's values are copied at `p_vals`, and its lens at `p_lens`
when there is a lens buffer. -/
def fillReplies (vals : List R) (lens : Option (List Int)) (valsAt lensAt : Nat) :
    List (KVPairs R) → Except Fault (List R × Option (List Int))
  | [] => .ok (vals, lens)
  | reply :: rest => do
      let vals ← writeAt vals valsAt reply.vals
      let lens ← match lens with
        | none => pure none
        | some buffer => some <$> writeAt buffer lensAt reply.lens
      fillReplies vals lens (valsAt + reply.vals.length) (lensAt + reply.lens.length) rest

/-- A caller's output buffer: resized with zeros when empty, otherwise `CHECK`ed to have the
size the replies need. -/
def sizeBuffer {α : Type} [Zero α] (buffer : List α) (size : Nat) (message : String) :
    Except Fault (List α) :=
  if buffer.isEmpty then .ok (List.replicate size 0)
  else if buffer.length ≠ size then .error (.check message)
  else .ok buffer

/-- The closure `AddPullCB` registers, run over the replies buffered in `recv_kvs_[ts]`: the
caller's values buffer and, if it passed one, its lens buffer after the callback. -/
def pullCallback [Zero R] (sortReplies : ReplySort R) (keys : List Nat) (vals : List R)
    (lens : Option (List Int)) (replies : List (KVPairs R)) :
    Except Fault (List R × Option (List Int)) := do
  let totals ← checkReplies keys lens.isSome replies
  if totals.1 ≠ keys.length then throw (.check "lost some servers?")
  else
    let vals ← sizeBuffer vals totals.2 "vals->size() == total_val"
    let lens ← match lens with
      | none => pure none
      | some buffer => some <$> sizeBuffer buffer keys.length "lens->size() == keys.size()"
    fillReplies vals lens 0 0 (sortReplies.run replies)

/-! ## Runs of requested keys -/

section Runs

variable {keys run : List Nat}

theorem headD_le_of_mem (ascending : Ascending run) {key : Nat} (member : key ∈ run) :
    run.headD 0 ≤ key := by
  cases run with
  | nil => cases member
  | cons first rest =>
      rcases List.mem_cons.mp member with rfl | later
      · exact le_rfl
      · exact (List.rel_of_pairwise_cons ascending later).le

theorem le_getLastD_of_mem (ascending : Ascending run) {key : Nat} (member : key ∈ run) :
    key ≤ run.getLastD 0 := by
  induction run generalizing key with
  | nil => cases member
  | cons first rest inductionHypothesis =>
      cases rest with
      | nil => simp_all
      | cons second rest =>
          have toLast : ∀ {key}, key ∈ second :: rest → key ≤ (second :: rest).getLastD 0 :=
            inductionHypothesis (List.Pairwise.of_cons ascending)
          rcases List.mem_cons.mp member with rfl | later
          · exact (List.rel_of_pairwise_cons ascending (List.mem_cons_self _ _)).le.trans
              (toLast (List.mem_cons_self _ _))
          · exact toLast later

theorem headD_mem (nonempty : run ≠ []) : run.headD 0 ∈ run := by
  cases run with
  | nil => exact absurd rfl nonempty
  | cons first rest => exact List.mem_cons_self first rest

theorem getLastD_mem (nonempty : run ≠ []) : run.getLastD 0 ∈ run := by
  cases run with
  | nil => exact absurd rfl nonempty
  | cons first rest =>
      rw [List.getLastD_cons]
      exact List.getLastD_mem_cons rest first

/-- An ascending run of the ascending requested keys is a sub-list of them. -/
theorem sublist_of_ascending (ascending : Ascending keys) (runAscending : Ascending run)
    (requested : ∀ key ∈ run, key ∈ keys) : run.Sublist keys :=
  List.sublist_of_subperm_of_sorted
    (List.subperm_of_subset (runAscending.imp ne_of_lt) requested) runAscending ascending

/-- An ascending run of requested keys, as long as the requested keys from its first to its
last key, is exactly those keys. -/
theorem eq_filter_of_length (ascending : Ascending keys) (runAscending : Ascending run)
    (requested : ∀ key ∈ run, key ∈ keys)
    (counted : (keys.filter fun key => run.headD 0 ≤ key ∧ key ≤ run.getLastD 0).length =
      run.length) :
    run = keys.filter fun key => run.headD 0 ≤ key ∧ key ≤ run.getLastD 0 := by
  have inside : (run.filter fun key => run.headD 0 ≤ key ∧ key ≤ run.getLastD 0) = run :=
    List.filter_eq_self.mpr fun key member =>
      decide_eq_true ⟨headD_le_of_mem runAscending member, le_getLastD_of_mem runAscending member⟩
  have sublist := (sublist_of_ascending ascending runAscending requested).filter
    fun key => decide (run.headD 0 ≤ key ∧ key ≤ run.getLastD 0)
  rw [inside] at sublist
  exact sublist.eq_of_length counted.symm

/-- An ascending run of requested keys as long as the requested keys is the requested keys. -/
theorem eq_of_ascending_of_length (ascending : Ascending keys) (runAscending : Ascending run)
    (requested : ∀ key ∈ run, key ∈ keys) (counted : run.length = keys.length) : run = keys :=
  (sublist_of_ascending ascending runAscending requested).eq_of_length counted

/-- A non-empty run of consecutive requested keys is all of the requested keys from its first
to its last key. -/
theorem eq_filter_of_infix (ascending : Ascending keys) (nonempty : run ≠ [])
    (consecutive : run.IsInfix keys) :
    run = keys.filter fun key => run.headD 0 ≤ key ∧ key ≤ run.getLastD 0 := by
  obtain ⟨before, after, rfl⟩ := consecutive
  have whole := List.pairwise_append.mp ascending
  have front := List.pairwise_append.mp whole.1
  have beforeNone : (before.filter fun key => run.headD 0 ≤ key ∧ key ≤ run.getLastD 0) = [] :=
    List.filter_eq_nil_iff.mpr fun key member => by
      have below := front.2.2 key member _ (headD_mem nonempty)
      simp only [decide_eq_true_eq, not_and, Nat.not_le]
      omega
  have afterNone : (after.filter fun key => run.headD 0 ≤ key ∧ key ≤ run.getLastD 0) = [] :=
    List.filter_eq_nil_iff.mpr fun key member => by
      have above := whole.2.2 _ (List.mem_append_right _ (getLastD_mem nonempty)) key member
      simp only [decide_eq_true_eq, not_and, Nat.not_le]
      omega
  have runAll : (run.filter fun key => run.headD 0 ≤ key ∧ key ≤ run.getLastD 0) = run :=
    List.filter_eq_self.mpr fun key member =>
      decide_eq_true ⟨headD_le_of_mem front.2.1 member, le_getLastD_of_mem front.2.1 member⟩
  rw [List.filter_append, List.filter_append, beforeNone, afterNone, runAll, List.nil_append,
    List.append_nil]

/-- Runs of requested keys, each all of the requested keys between its ends, with no key in
common and ordered by first key, concatenate to an ascending list. -/
theorem ascending_flatten {runs : List (List Nat)}
    (windows : ∀ run ∈ runs, Ascending run ∧
      run = keys.filter fun key => run.headD 0 ≤ key ∧ key ≤ run.getLastD 0)
    (ordered : runs.Pairwise fun a b => a.headD 0 ≤ b.headD 0)
    (disjoint : runs.Pairwise List.Disjoint) : Ascending runs.flatten := by
  refine List.pairwise_flatten.mpr ⟨fun run member => (windows run member).1, ?_⟩
  refine (ordered.and disjoint).imp_of_mem fun {a b} aMember bMember ⟨headsLe, apart⟩ x inA y inB =>
    Nat.lt_of_not_le fun yLe => apart ?_ inB
  obtain ⟨aAscending, aWindow⟩ := windows a aMember
  obtain ⟨bAscending, bWindow⟩ := windows b bMember
  have requested : y ∈ keys := by
    rw [bWindow] at inB
    exact List.mem_of_mem_filter inB
  rw [aWindow, List.mem_filter]
  exact ⟨requested, decide_eq_true ⟨headsLe.trans (headD_le_of_mem bAscending inB),
    yLe.trans (le_getLastD_of_mem aAscending inA)⟩⟩

end Runs

/-! ## The check loop -/

/-- The replies pass the check loop: each fills its span of the requested keys and, with a
lens buffer, has one len per key. -/
def RepliesFit (keys : List Nat) (withLens : Bool) (replies : List (KVPairs R)) : Prop :=
  ∀ reply ∈ replies, (replySpan keys reply).2 - (replySpan keys reply).1 = reply.keys.length ∧
    (withLens = true → reply.lens.length = reply.keys.length)

/-- The key and value counts the check loop sums. -/
def replyTotals (replies : List (KVPairs R)) : Nat × Nat :=
  ((replies.map fun reply => reply.keys.length).sum,
    (replies.map fun reply => reply.vals.length).sum)

/-- The check loop passes exactly the replies that fit, and then returns their totals. -/
theorem checkReplies_eq_ok {keys : List Nat} {withLens : Bool} {replies : List (KVPairs R)}
    {totals : Nat × Nat} :
    checkReplies keys withLens replies = .ok totals ↔
      RepliesFit keys withLens replies ∧ totals = replyTotals replies := by
  induction replies generalizing totals with
  | nil => simp [checkReplies, RepliesFit, replyTotals, eq_comm]
  | cons reply rest inductionHypothesis =>
      rw [checkReplies]
      split_ifs with unmatched lensMismatch
      · simp [RepliesFit, unmatched]
      · simp [RepliesFit, lensMismatch]
      · rw [map_eq_ok]
        constructor
        · rintro ⟨_, restChecked, rfl⟩
          obtain ⟨restFit, rfl⟩ := inductionHypothesis.mp restChecked
          exact ⟨List.forall_mem_cons.mpr ⟨⟨not_not.mp unmatched, fun lensBuffer =>
            not_not.mp fun mismatch => lensMismatch ⟨lensBuffer, mismatch⟩⟩, restFit⟩, by simp [replyTotals]⟩
        · rintro ⟨fit, rfl⟩
          exact ⟨_, inductionHypothesis.mpr ⟨(List.forall_mem_cons.mp fit).2, rfl⟩,
            by simp [replyTotals]⟩

/-- Below the top key, the span of a reply whose keys ascend counts the requested keys from its
first to its last key. -/
theorem replySpan_size {keys : List Nat} (sorted : keys.Pairwise (· ≤ ·)) (reply : KVPairs R)
    (ordered : reply.keys.headD 0 ≤ reply.keys.getLastD 0)
    (belowTop : reply.keys.getLastD 0 + 1 < keySpace) :
    (replySpan keys reply).2 - (replySpan keys reply).1 =
      (keys.filter fun key => reply.keys.headD 0 ≤ key ∧ key ≤ reply.keys.getLastD 0).length := by
  rw [replySpan, findRange, Nat.mod_eq_of_lt belowTop, if_neg (by omega),
    ← length_cut (lowerBound_le_length keys _), cut_lowerBound sorted]
  simp [Nat.lt_add_one_iff]

/-- At the top key the increment `s.keys.back() + 1` wraps to `0` and the span is empty. -/
theorem replySpan_of_top (keys : List Nat) (reply : KVPairs R)
    (top : reply.keys.getLastD 0 + 1 = keySpace) : replySpan keys reply = (0, 0) := by
  rw [replySpan, findRange, top, Nat.mod_self, if_pos (Nat.zero_le _)]

/-! ## The fill loop -/

theorem writeAt_of_le {α : Type} {buffer data : List α} {offset : Nat}
    (fits : offset + data.length ≤ buffer.length) :
    writeAt buffer offset data =
      .ok (buffer.take offset ++ data ++ buffer.drop (offset + data.length)) :=
  if_pos fits

/-- A copy keeps the buffer's size, and up to the copy's end the buffer is what came before
the copy followed by the copied data. -/
theorem take_written {α : Type} (buffer data : List α) (offset : Nat)
    (fits : offset + data.length ≤ buffer.length) :
    (buffer.take offset ++ data ++ buffer.drop (offset + data.length)).take
        (offset + data.length) = buffer.take offset ++ data ∧
      (buffer.take offset ++ data ++ buffer.drop (offset + data.length)).length =
        buffer.length := by
  have before : (buffer.take offset ++ data).length = offset + data.length := by simp; omega
  exact ⟨List.take_left' before, by simp; omega⟩

/-- The fill loop over replies that fit the buffers from `p_vals` and `p_lens` on writes
their values, and lens, one after the other from there. -/
theorem fillReplies_eq (replies : List (KVPairs R)) (vals : List R) (lens : Option (List Int))
    (valsAt lensAt : Nat)
    (valsFit : valsAt + (replies.map fun reply => reply.vals.length).sum = vals.length)
    (lensFit : ∀ buffer ∈ lens,
      lensAt + (replies.map fun reply => reply.lens.length).sum = buffer.length) :
    fillReplies vals lens valsAt lensAt replies =
      .ok (vals.take valsAt ++ (replies.map KVPairs.vals).flatten,
        lens.map fun buffer => buffer.take lensAt ++ (replies.map KVPairs.lens).flatten) := by
  induction replies generalizing vals lens valsAt lensAt with
  | nil =>
      cases lens <;> simp_all [fillReplies]
  | cons reply rest inductionHypothesis =>
      simp only [List.map_cons, List.sum_cons] at valsFit lensFit
      obtain ⟨valsTaken, valsLength⟩ := take_written vals reply.vals valsAt (by omega)
      rw [fillReplies, writeAt_of_le (by omega)]
      cases lens with
      | none =>
          simp only [bind, Except.bind, pure, Except.pure]
          rw [inductionHypothesis _ none _ _ (by rw [valsLength]; omega) (by simp)]
          rw [valsTaken]
          simp
      | some buffer =>
          have lensFits := lensFit buffer rfl
          obtain ⟨lensTaken, lensLength⟩ := take_written buffer reply.lens lensAt (by omega)
          simp only [bind, Except.bind, pure, Except.pure, Functor.map, Except.map,
            writeAt_of_le (show lensAt + reply.lens.length ≤ buffer.length by omega)]
          rw [inductionHypothesis _ (some _) _ _ (by rw [valsLength]; omega)
            (by simp only [Option.mem_def, Option.some.injEq, forall_eq', lensLength]; omega)]
          rw [valsTaken, Option.map_some', lensTaken]
          simp

/-! ## Sorting the replies -/

/-- A permutation ordered by a key is the one strictly ordered by it. -/
theorem eq_of_perm_of_pairwise_lt {α : Type} (f : α → Nat) {sorted strict : List α}
    (permuted : sorted.Perm strict) (ordered : sorted.Pairwise fun a b => f a ≤ f b)
    (strictlyOrdered : strict.Pairwise fun a b => f a < f b) : sorted = strict := by
  induction strict generalizing sorted with
  | nil => exact List.perm_nil.mp permuted
  | cons b strict inductionHypothesis =>
      have nonempty : sorted ≠ [] := by
        rintro rfl
        simp at permuted
      obtain ⟨a, sorted, rfl⟩ := List.exists_cons_of_ne_nil nonempty
      have same : a = b := by
        by_contra differs
        have aLater : a ∈ strict := (List.mem_cons.mp
          (permuted.subset (List.mem_cons_self a sorted))).resolve_left differs
        have bLater : b ∈ sorted := (List.mem_cons.mp
          (permuted.symm.subset (List.mem_cons_self b strict))).resolve_left (Ne.symm differs)
        exact (List.rel_of_pairwise_cons strictlyOrdered aLater).not_le
          (List.rel_of_pairwise_cons ordered bLater)
      subst same
      rw [inductionHypothesis permuted.cons_inv ordered.of_cons strictlyOrdered.of_cons]

/-- Replies that arrived in any order, with strictly increasing first keys in some order, come
out of `std::sort` in that order. -/
theorem ReplySort.run_eq (sortReplies : ReplySort R) {replies answers : List (KVPairs R)}
    (arrived : replies.Perm answers)
    (ordered : answers.Pairwise fun a b => a.keys.headD 0 < b.keys.headD 0) :
    sortReplies.run replies = answers :=
  eq_of_perm_of_pairwise_lt (fun reply => reply.keys.headD 0)
    ((sortReplies.perm replies).trans arrived) (sortReplies.sorted replies) ordered

/-! ## What the checks guarantee -/

/-- If the callback completes, the buffered replies, sorted by first key, have key lists that
concatenate to the requested keys, provided each reply is a non-empty ascending run of
requested keys and no two replies share a key. -/
theorem pullCallback_covers_requested_keys [Zero R] (sortReplies : ReplySort R)
    {keys : List Nat} {vals : List R} {lens : Option (List Int)} {replies : List (KVPairs R)}
    {written : List R × Option (List Int)} (ascending : Ascending keys)
    (keysBelow : ∀ key ∈ keys, key < keySpace)
    (replyAscending : ∀ reply ∈ replies, Ascending reply.keys)
    (buffered : ∀ reply ∈ replies, reply.keys ≠ [])
    (requested : ∀ reply ∈ replies, ∀ key ∈ reply.keys, key ∈ keys)
    (disjoint : replies.Pairwise fun a b => a.keys.Disjoint b.keys)
    (completes : pullCallback sortReplies keys vals lens replies = .ok written) :
    ((sortReplies.run replies).map KVPairs.keys).flatten = keys := by
  obtain ⟨totals, checked, counted⟩ :
      ∃ totals, checkReplies keys lens.isSome replies = .ok totals ∧ totals.1 = keys.length := by
    obtain ⟨totals, checked, filled⟩ := bind_eq_ok.mp completes
    refine ⟨totals, checked, not_not.mp fun lost => ?_⟩
    rw [if_pos lost] at filled
    cases filled
  obtain ⟨fit, rfl⟩ := checkReplies_eq_ok.mp checked
  have window (reply : KVPairs R) (member : reply ∈ replies) : Ascending reply.keys ∧
      reply.keys = keys.filter fun key => reply.keys.headD 0 ≤ key ∧ key ≤ reply.keys.getLastD 0 := by
    have runAscending := replyAscending reply member
    have lastRequested := requested reply member _ (getLastD_mem (buffered reply member))
    have span := (fit reply member).1
    have belowTop : reply.keys.getLastD 0 + 1 < keySpace := by
      have lastBelow := keysBelow _ lastRequested
      by_contra atTop
      rw [replySpan_of_top keys reply (by omega)] at span
      exact buffered reply member (List.length_eq_zero.mp span.symm)
    refine ⟨runAscending, eq_filter_of_length ascending runAscending (requested reply member) ?_⟩
    rw [← replySpan_size ascending.sorted reply (headD_le_of_mem runAscending
      (getLastD_mem (buffered reply member))) belowTop, span]
  have permuted := sortReplies.perm replies
  have windows : ∀ run ∈ (sortReplies.run replies).map KVPairs.keys, Ascending run ∧
      run = keys.filter fun key => run.headD 0 ≤ key ∧ key ≤ run.getLastD 0 := by
    intro run member
    obtain ⟨reply, sortedMember, rfl⟩ := List.mem_map.mp member
    exact window reply (permuted.subset sortedMember)
  refine eq_of_ascending_of_length ascending (ascending_flatten windows ?_ ?_) ?_ ?_
  · exact List.pairwise_map.mpr (sortReplies.sorted replies)
  · exact List.pairwise_map.mpr ((permuted.pairwise_iff fun apart => apart.symm).mpr disjoint)
  · intro key member
    obtain ⟨run, runMember, keyMember⟩ := List.mem_flatten.mp member
    obtain ⟨reply, sortedMember, rfl⟩ := List.mem_map.mp runMember
    exact requested reply (permuted.subset sortedMember) key keyMember
  · rw [List.length_flatten, List.map_map, ← counted, replyTotals]
    exact (permuted.map _).sum_eq

/-- The spec's pull `S6`: the replies for `[5, 7]` and `[1, 3]` arrive in that order. -/
theorem pullCallback_covers_requested_keys_of_reversed_replies :
    ((ReplySort.insertion.run [⟨[5, 7], [50, 51, 70, 71], []⟩, ⟨[1, 3], [10, 11, 30, 31], []⟩] :
      List (KVPairs Nat)).map KVPairs.keys).flatten = [1, 3, 5, 7] :=
  pullCallback_covers_requested_keys ReplySort.insertion (by decide) (by decide) (by decide)
    (by decide) (by decide) (by simp [List.Disjoint])
    (rfl : pullCallback ReplySort.insertion [1, 3, 5, 7] ([] : List Nat) none
      [⟨[5, 7], [50, 51, 70, 71], []⟩, ⟨[1, 3], [10, 11, 30, 31], []⟩] =
        .ok ([10, 11, 30, 31, 50, 51, 70, 71], none))

/-- Two copies of one reply pass both counting checks: the keys `[1, 2, 3, 4]` get the values
of `[1, 2]` twice, and the sorted replies' keys are `[1, 2, 1, 2]`. -/
theorem pullCallback_accepts_duplicate_reply :
    pullCallback ReplySort.insertion [1, 2, 3, 4] ([] : List Nat) none
        [⟨[1, 2], [10, 20], []⟩, ⟨[1, 2], [30, 40], []⟩] = .ok ([10, 20, 30, 40], none) ∧
      ((ReplySort.insertion.run [⟨[1, 2], [10, 20], []⟩, ⟨[1, 2], [30, 40], []⟩] :
        List (KVPairs Nat)).map KVPairs.keys).flatten = [1, 2, 1, 2] :=
  ⟨rfl, rfl⟩

/-- A reply with a key that was not requested passes both checks: `[0, 2]` for the keys
`[1, 2]`. -/
example : pullCallback ReplySort.insertion [1, 2] ([] : List Nat) none [⟨[0, 2], [5, 6], []⟩] =
    .ok ([5, 6], none) := rfl

/-- A reply that repeats a key passes both checks: `[1, 1, 3]` for the keys `[1, 2, 3]`. -/
example : pullCallback ReplySort.insertion [1, 2, 3] ([] : List Nat) none
    [⟨[1, 1, 3], [10, 11, 30], []⟩] = .ok ([10, 11, 30], none) := rfl

/-! ## Reassembly of a pull -/

/-- A caller's output buffer of the right size, or an empty one, passes its `CHECK`. -/
theorem sizeBuffer_of_fits {α : Type} [Zero α] {buffer : List α} {size : Nat} (message : String)
    (fits : buffer = [] ∨ buffer.length = size) :
    ∃ sized, sizeBuffer buffer size message = .ok sized ∧ sized.length = size := by
  rcases fits with rfl | sized
  · exact ⟨_, rfl, List.length_replicate _ _⟩
  · unfold sizeBuffer
    split_ifs with empty mismatch
    · exact ⟨_, rfl, List.length_replicate _ _⟩
    · exact absurd sized mismatch
    · exact ⟨buffer, rfl, sized⟩

/-- Leaving out the shards flagged empty, which hold no keys, leaves the keys as they are. -/
theorem flatten_flagged {sliced : List (Bool × KVPairs R)}
    (flags : ∀ shard ∈ sliced, shard.1 = true ↔ shard.2.keys ≠ []) :
    ((sliced.filter Prod.fst).map fun shard => shard.2.keys).flatten =
      (sliced.map fun shard => shard.2.keys).flatten := by
  induction sliced with
  | nil => rfl
  | cons shard rest inductionHypothesis =>
      have tail := inductionHypothesis fun other member => flags other (List.mem_cons_of_mem _ member)
      by_cases flagged : shard.1 = true
      · simp [List.filter_cons, flagged, tail]
      · have empty : shard.2.keys = [] :=
          not_not.mp fun nonempty => flagged ((flags shard (List.mem_cons_self _ _)).mpr nonempty)
        simp [List.filter_cons, flagged, empty, tail]

/-- Answered once by each server with its shard's keys, in any order, the callback of a sliced
pull writes the answers in the order of the keys. -/
theorem pullCallback_reassembles [Zero R] (sortReplies : ReplySort R) {keys : List Nat}
    {ranges : List Range} {sliced : List (Bool × KVPairs R)} {answers replies : List (KVPairs R)}
    {vals : List R} {lens : Option (List Int)} (ascending : Ascending keys)
    (startsAtZero : ∀ range ∈ ranges.head?, range.beginKey = 0)
    (endsBelow : ∀ range ∈ ranges, range.endKey ≤ keySpace - 1)
    (slicedOk : defaultSlicer (⟨keys, [], []⟩ : KVPairs R) ranges = .ok sliced)
    (answered : answers.map KVPairs.keys = (sliced.filter Prod.fst).map fun shard => shard.2.keys)
    (lensPerKey : lens.isSome → ∀ answer ∈ answers, answer.lens.length = answer.keys.length)
    (valsBuffer : vals = [] ∨ vals.length = (answers.map fun answer => answer.vals.length).sum)
    (lensBuffer : ∀ buffer ∈ lens, buffer = [] ∨ buffer.length = keys.length)
    (arrived : replies.Perm answers) :
    pullCallback sortReplies keys vals lens replies =
      .ok ((answers.map KVPairs.vals).flatten, lens.map fun _ => (answers.map KVPairs.lens).flatten) := by
  have covered : ∀ range ∈ ranges.head?, ∀ key ∈ keys, range.beginKey ≤ key :=
    fun range first key _ => (startsAtZero range first).symm ▸ Nat.zero_le key
  have flags := defaultSlicer_flag_iff covered slicedOk
  have keysFlatten : (answers.map KVPairs.keys).flatten = keys := by
    rw [answered, flatten_flagged flags]
    exact (defaultSlicer_flatten (Or.inl ⟨rfl, Nat.dvd_zero _⟩ : (⟨keys, [], []⟩ : KVPairs R).WellFormed)
      covered slicedOk).1
  have nonempty (answer : KVPairs R) (member : answer ∈ answers) : answer.keys ≠ [] := by
    have shardKeys : answer.keys ∈ answers.map KVPairs.keys := List.mem_map_of_mem _ member
    rw [answered] at shardKeys
    obtain ⟨shard, flagged, sameKeys⟩ := List.mem_map.mp shardKeys
    rw [← sameKeys]
    exact (flags shard (List.mem_of_mem_filter flagged)).mp (by simpa using List.of_mem_filter flagged)
  have consecutive (answer : KVPairs R) (member : answer ∈ answers) : answer.keys.IsInfix keys :=
    keysFlatten ▸ List.infix_of_mem_flatten (List.mem_map_of_mem _ member)
  have fit : RepliesFit keys lens.isSome replies := by
    intro reply member
    have answer := arrived.subset member
    have window := eq_filter_of_infix ascending (nonempty reply answer) (consecutive reply answer)
    have runAscending : Ascending reply.keys := ascending.sublist (consecutive reply answer).sublist
    have lastRequested := (consecutive reply answer).subset (getLastD_mem (nonempty reply answer))
    obtain ⟨range, inRanges, below⟩ := defaultSlicer_below_end covered slicedOk _ lastRequested
    have belowTop := endsBelow range inRanges
    refine ⟨?_, fun withLens => lensPerKey withLens reply answer⟩
    rw [replySpan_size ascending.sorted reply (headD_le_of_mem runAscending
      (getLastD_mem (nonempty reply answer))) (by unfold keySpace at belowTop ⊢; omega), ← window]
  have keyCount : (replyTotals replies).1 = keys.length := by
    rw [replyTotals, ← keysFlatten, List.length_flatten, List.map_map]
    exact (arrived.map _).sum_eq
  have valCount : (replyTotals replies).2 = (answers.map fun answer => answer.vals.length).sum :=
    (arrived.map _).sum_eq
  have ordered : answers.Pairwise fun a b => a.keys.headD 0 < b.keys.headD 0 := by
    have apart := (List.pairwise_flatten.mp (keysFlatten ▸ ascending : Ascending _)).2
    exact List.pairwise_map.mp apart |>.imp_of_mem fun aMember bMember across =>
      across _ (headD_mem (nonempty _ aMember)) _ (headD_mem (nonempty _ bMember))
  obtain ⟨sizedVals, valsSized, valsLength⟩ :=
    sizeBuffer_of_fits "vals->size() == total_val" (valCount ▸ valsBuffer)
  unfold pullCallback
  rw [checkReplies_eq_ok.mpr ⟨fit, rfl⟩]
  simp only [bind, Except.bind, keyCount, ne_eq, not_true_eq_false, if_false, valsSized,
    sortReplies.run_eq arrived ordered]
  cases lens with
  | none =>
      simp only [pure, Except.pure]
      rw [fillReplies_eq answers sizedVals none 0 0 (by rw [valsLength, valCount, Nat.zero_add]) (by simp)]
      simp
  | some buffer =>
      obtain ⟨sizedLens, lensSized, lensLength⟩ :=
        sizeBuffer_of_fits "lens->size() == keys.size()" (lensBuffer buffer rfl)
      have lensCount : (answers.map fun answer => answer.lens.length).sum = keys.length := by
        rw [← keysFlatten, List.length_flatten, List.map_map]
        exact congrArg List.sum (List.map_congr_left fun answer member =>
          lensPerKey rfl answer member)
      simp only [Functor.map, Except.map, lensSized]
      rw [fillReplies_eq answers sizedVals (some sizedLens) 0 0 (by rw [valsLength, valCount, Nat.zero_add])
        (by simp [lensLength, lensCount])]
      simp

end Dgt
