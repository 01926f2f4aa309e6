import Dgt.Defs

/-!
# The server's default request handle

`KVServer<Val>::Process` reads a request message into its `KVMeta` and `KVPairs` and hands
them to the request handle. `KVServerDefaultHandle` adds each pushed value into its store and
answers a pull with the stored values of the requested keys. Only a request that does not pull
has its value count `CHECK`ed against its key count, so the handle reads `req_data.vals[i]`
within `|V|` exactly unless the request both pushes and pulls with fewer values than keys.

The data chunks of a message are `SArray<char>`s that `Process` reinterprets: chunk `0` as
keys, chunk `1` as values and chunk `2` as lens. Reading past the end of an array, undefined in
C++, is the fault `outOfBounds`. The store is `std::unordered_map<Key, Val>`, a total map here:
an absent key reads as the `0` that `operator[]` inserts.

Over a run of requests, each accepted push adds its values into the store and nothing else
changes it, so the store of every key is the sum of the values ever pushed to that key.
-/

namespace Dgt

/-- What `KVServer<Val>::Process` reads of a received message: the fields of `msg.meta` it
copies, `msg.data.size()`, and the chunks it reinterprets. -/
structure Received (R : Type) where
  /-- `msg.meta.simple_app`. -/
  simpleApp : Bool
  /-- `msg.meta.head`, the request's command. -/
  head : Int
  /-- `msg.meta.push`. -/
  push : Bool
  /-- `msg.meta.pull`. -/
  pull : Bool
  /-- `msg.meta.sender`. -/
  sender : Nat
  /-- `msg.meta.timestamp`. -/
  timestamp : Nat
  /-- `msg.meta.customer_id`. -/
  customerId : Nat
  /-- `msg.data.size()`. -/
  size : Nat
  /-- `msg.data[0]` read as `SArray<Key>`. -/
  keys : List Nat
  /-- `msg.data[1]` read as `SArray<Val>`. -/
  vals : List R
  /-- `msg.data[2]` read as `SArray<int>`. -/
  lens : List Int

/-- `KVMeta`: the meta information of a request that the request handle receives. -/
structure KVMeta where
  /-- `cmd`. -/
  cmd : Int
  /-- `push`. -/
  push : Bool
  /-- `pull`. -/
  pull : Bool
  /-- `sender`. -/
  sender : Nat
  /-- `timestamp`. -/
  timestamp : Nat
  /-- `customer_id`. -/
  customerId : Nat
  deriving DecidableEq, Repr

variable {R : Type}

/-- `KVServer<Val>::Process`: a simple-app message goes to `SimpleApp::Process` (`none`); any
other is handed to the request handle with its keys, values and lens chunks. -/
def serverProcess (msg : Received R) : Except Fault (Option (KVMeta × KVPairs R)) :=
  if msg.simpleApp then .ok none
  else
    let meta : KVMeta :=
      ⟨msg.head, msg.push, msg.pull, msg.sender, msg.timestamp, msg.customerId⟩
    if msg.size ≠ 0 then
      if msg.size < 2 then .error (.check "n >= 2")
      else if 2 < msg.size then
        if msg.size ≠ 3 then .error (.check "n == 3")
        else if msg.lens.length ≠ msg.keys.length then
          .error (.check "data.lens.size() == data.keys.size()")
        else .ok (some (meta, ⟨msg.keys, msg.vals, msg.lens⟩))
      else .ok (some (meta, ⟨msg.keys, msg.vals, []⟩))
    else .ok (some (meta, ⟨[], [], []⟩))

section Handle

variable [Add R]

/-- The loop of `KVServerDefaultHandle` over the positions `i` and keys of the request: a
push adds `req_data.vals[i]` into `store[key]`, and a pull then copies `store[key]` into
`res.vals[i]`. -/
def handleLoop (push pull : Bool) (vals : List R) :
    List (Nat × Nat) → (Nat → R) → List R → Except Fault ((Nat → R) × List R)
  | [], store, res => .ok (store, res)
  | (i, key) :: rest, store, res => do
      let store ← if push then
          match vals[i]? with
          | some value => pure (Function.update store key (store key + value))
          | none => throw .outOfBounds
        else pure store
      handleLoop push pull vals rest store (if pull then res.set i (store key) else res)

/-- One position of the loop, without the monad: a push reads the value at `i`, or faults
past the end of the values. -/
theorem handleLoop_cons (push pull : Bool) (vals : List R) (i key : Nat)
    (rest : List (Nat × Nat)) (store : Nat → R) (res : List R) :
    handleLoop push pull vals ((i, key) :: rest) store res =
      if push then
        match vals[i]? with
        | some value =>
            let store := Function.update store key (store key + value)
            handleLoop push pull vals rest store (if pull then res.set i (store key) else res)
        | none => .error .outOfBounds
      else handleLoop push pull vals rest store (if pull then res.set i (store key) else res) := by
  rw [handleLoop]
  cases push
  · rfl
  · cases vals[i]? <;> rfl

/-! ## Reads of the request's values -/

/-- The loop reads past the values exactly when it pushes and some position is beyond them;
it faults in no other way. -/
theorem handleLoop_outOfBounds (push pull : Bool) (vals : List R) (pairs : List (Nat × Nat)) :
    ∀ store res, (handleLoop push pull vals pairs store res = .error .outOfBounds ↔
      push = true ∧ ∃ pair ∈ pairs, vals.length ≤ pair.1) ∧
      ∀ fault, handleLoop push pull vals pairs store res = .error fault →
        fault = .outOfBounds := by
  induction pairs with
  | nil => simp [handleLoop]
  | cons pair rest inductionHypothesis =>
      obtain ⟨i, key⟩ := pair
      intro store res
      rw [handleLoop_cons]
      cases push with
      | false =>
          simp only [Bool.false_eq_true, if_false, false_and] at inductionHypothesis ⊢
          exact inductionHypothesis store _
      | true =>
          by_cases inside : i < vals.length
          · rw [if_pos rfl, List.getElem?_eq_getElem inside]
            simpa only [List.mem_cons, exists_eq_or_imp, not_le.mpr inside, false_or] using
              inductionHypothesis _ _
          · rw [if_pos rfl, List.getElem?_eq_none (not_lt.mp inside)]
            simp [not_lt.mp inside]

variable [Zero R]

/-- `KVServerDefaultHandle::operator()`: the store after the request and the response it
sends. A request that does not pull must carry one value per key; a pull is answered with its
keys and one value per key. -/
def defaultHandle (store : Nat → R) (meta : KVMeta) (data : KVPairs R) :
    Except Fault ((Nat → R) × KVPairs R) := do
  let n := data.keys.length
  if !meta.pull ∧ n ≠ data.vals.length then throw (.check "n == req_data.vals.size()")
  let res : KVPairs R := if meta.pull then ⟨data.keys, List.replicate n 0, []⟩ else ⟨[], [], []⟩
  let (store, vals) ← handleLoop meta.push meta.pull data.vals data.keys.enum store res.vals
  return (store, { res with vals := vals })

/-- The handle as its `CHECK` and then its loop over the response it prepares. -/
theorem defaultHandle_eq (store : Nat → R) (meta : KVMeta) (data : KVPairs R) :
    defaultHandle store meta data =
      if !meta.pull ∧ data.keys.length ≠ data.vals.length then
        .error (.check "n == req_data.vals.size()")
      else (fun result => (result.1, ⟨if meta.pull then data.keys else [], result.2, []⟩)) <$>
        handleLoop meta.push meta.pull data.vals data.keys.enum store
          (if meta.pull then List.replicate data.keys.length 0 else []) := by
  unfold defaultHandle
  cases pulls : meta.pull <;> by_cases counted : data.keys.length = data.vals.length <;>
    simp [counted, throw, throwThe, MonadExceptOf.throw, bind, Except.bind, pure, Except.pure,
      Functor.map, Except.map]

/-- Over every request shape, the handle reads `req_data.vals` past its end exactly when the
request both pushes and pulls with fewer values than keys: without a pull the value count is
`CHECK`ed, and without a push the values are not read. -/
theorem defaultHandle_outOfBounds_iff (store : Nat → R) (meta : KVMeta) (data : KVPairs R) :
    defaultHandle store meta data = .error .outOfBounds ↔
      meta.push = true ∧ meta.pull = true ∧ data.vals.length < data.keys.length := by
  have positions : (∃ pair ∈ data.keys.enum, data.vals.length ≤ pair.1) ↔
      data.vals.length < data.keys.length := by
    constructor
    · rintro ⟨pair, member, beyond⟩
      exact lt_of_le_of_lt beyond (List.fst_lt_of_mem_enum member)
    · intro fewer
      exact ⟨(data.vals.length, data.keys[data.vals.length]), List.mem_enum_iff_getElem?.mpr
        (List.getElem?_eq_getElem fewer), le_rfl⟩
  rw [defaultHandle_eq]
  by_cases checked : (!meta.pull) = true ∧ data.keys.length ≠ data.vals.length
  · rw [if_pos checked]
    refine iff_of_false (by simp) ?_
    rintro ⟨-, pulls, -⟩
    simp [pulls] at checked
  · rw [if_neg checked, map_eq_error, (handleLoop_outOfBounds _ _ _ _ _ _).1, positions]
    constructor
    · rintro ⟨pushes, fewer⟩
      refine ⟨pushes, ?_, fewer⟩
      revert checked
      cases meta.pull <;> simp [fewer.ne']
    · exact fun ⟨pushes, _, fewer⟩ => ⟨pushes, fewer⟩

/-- A push-pull request of one key and no value passes `Process` and the handle's `CHECK`,
and the handle reads `req_data.vals[0]` of an empty array. -/
theorem defaultHandle_reads_past_values :
    let request : Received ℚ := ⟨false, 0, true, true, 9, 0, 0, 2, [1], [], []⟩
    serverProcess request = .ok (some (⟨0, true, true, 9, 0, 0⟩, ⟨[1], [], []⟩)) ∧
      defaultHandle (fun _ => 0) ⟨0, true, true, 9, 0, 0⟩ (⟨[1], [], []⟩ : KVPairs ℚ) =
        .error .outOfBounds :=
  ⟨rfl, rfl⟩

end Handle

/-! ## The store over a run of requests -/

section Store

variable [AddCommMonoid R]

/-- The store a run should leave: every key holds the sum of the values pushed to it. -/
def pushedSum (pushed : List (Nat × R)) (key : Nat) : R :=
  ((pushed.filter fun pair => pair.1 = key).map Prod.snd).sum

@[simp] theorem pushedSum_nil (key : Nat) : pushedSum ([] : List (Nat × R)) key = 0 := rfl

theorem pushedSum_cons (pair : Nat × R) (pushed : List (Nat × R)) (key : Nat) :
    pushedSum (pair :: pushed) key = (if pair.1 = key then pair.2 else 0) + pushedSum pushed key := by
  by_cases same : pair.1 = key <;> simp [pushedSum, List.filter_cons, same]

theorem pushedSum_append (front back : List (Nat × R)) (key : Nat) :
    pushedSum (front ++ back) key = pushedSum front key + pushedSum back key := by
  simp [pushedSum, List.filter_append]

theorem pushedSum_flatMap {α : Type} (items : List α) (pairs : α → List (Nat × R)) (key : Nat) :
    pushedSum (items.flatMap pairs) key = (items.map fun item => pushedSum (pairs item) key).sum := by
  induction items with
  | nil => rfl
  | cons item rest inductionHypothesis =>
      rw [List.flatMap_cons, pushedSum_append, inductionHypothesis, List.map_cons, List.sum_cons]

/-- The sums do not depend on the order of the pairs. -/
theorem pushedSum_perm {pushed pushed' : List (Nat × R)} (reordered : pushed.Perm pushed') :
    pushedSum pushed = pushedSum pushed' := by
  funext key
  exact ((reordered.filter _).map Prod.snd).sum_eq

/-- Without a push the loop leaves the store alone. -/
theorem handleLoop_without_push (pull : Bool) (vals : List R) (pairs : List (Nat × Nat)) :
    ∀ store res, ∃ res', handleLoop false pull vals pairs store res = .ok (store, res') := by
  induction pairs with
  | nil => exact fun store res => ⟨res, rfl⟩
  | cons pair rest inductionHypothesis =>
      obtain ⟨i, key⟩ := pair
      exact fun store res => inductionHypothesis store _

/-- A push over values at positions `start, start + 1, ...` adds each value into the store
at its key. -/
theorem handleLoop_push (pull : Bool) (vals : List R) (keys : List Nat) :
    ∀ start store res, start + keys.length ≤ vals.length →
      ∃ res', handleLoop true pull vals (keys.enumFrom start) store res =
        .ok (fun key => store key + pushedSum (keys.zip (vals.drop start)) key, res') := by
  induction keys with
  | nil => exact fun _ store res _ => ⟨res, by simp [handleLoop]⟩
  | cons key rest inductionHypothesis =>
      intro start store res inside
      simp only [List.length_cons] at inside
      obtain ⟨res', looped⟩ := inductionHypothesis (start + 1)
        (Function.update store key (store key + vals[start])) _ (by omega)
      refine ⟨res', ?_⟩
      rw [List.enumFrom_cons, handleLoop_cons, if_pos rfl, List.getElem?_eq_getElem (by omega)]
      dsimp only
      rw [looped]
      congr 2
      funext key'
      rw [List.drop_eq_getElem_cons (show start < vals.length by omega), List.zip_cons_cons,
        pushedSum_cons]
      by_cases same : key = key' <;> simp [Function.update_apply, same, add_assoc, eq_comm]

/-- A pull without a push answers each position from `answered.length` on with the stored
value of its key. -/
theorem handleLoop_pull (vals : List R) (store : Nat → R) (keys : List Nat) :
    ∀ answered rest, rest.length = keys.length →
      handleLoop false true vals (keys.enumFrom answered.length) store (answered ++ rest) =
        .ok (store, answered ++ keys.map store) := by
  induction keys with
  | nil => intro answered rest unanswered; simp_all [handleLoop]
  | cons key keys inductionHypothesis =>
      rintro answered (_ | ⟨slot, rest⟩) unanswered
      · simp at unanswered
      · simp only [List.length_cons, Nat.add_right_cancel_iff] at unanswered
        have step := inductionHypothesis (answered ++ [store key]) rest unanswered
        simp only [List.length_append, List.length_singleton, List.append_assoc,
          List.singleton_append] at step
        simpa [handleLoop_cons, List.set_append_right] using step

/-- What the default handle does to the store when it accepts a request: a push adds each
value into the store at its key, and nothing else changes the store. -/
theorem defaultHandle_store {store store' : Nat → R} {meta : KVMeta} {data res : KVPairs R}
    (handled : defaultHandle store meta data = .ok (store', res)) :
    store' = fun key =>
      store key + if meta.push then pushedSum (data.keys.zip data.vals) key else 0 := by
  have enough : meta.push = true → data.keys.length ≤ data.vals.length := by
    intro pushes
    by_contra fewer
    cases pulls : meta.pull
    · rw [defaultHandle_eq, if_pos (by simp [pulls]; omega)] at handled
      exact nomatch handled
    · exact nomatch handled.symm.trans
        ((defaultHandle_outOfBounds_iff store meta data).mpr ⟨pushes, pulls, by omega⟩)
  rw [defaultHandle_eq] at handled
  by_cases checked : (!meta.pull) = true ∧ data.keys.length ≠ data.vals.length
  · rw [if_pos checked] at handled
    exact nomatch handled
  rw [if_neg checked] at handled
  obtain ⟨result, looped, replied⟩ := map_eq_ok.mp handled
  obtain rfl : result.1 = store' := congrArg Prod.fst replied
  cases pushes : meta.push
  · obtain ⟨res', unpushed⟩ := handleLoop_without_push meta.pull data.vals data.keys.enum store
      (if meta.pull then List.replicate data.keys.length 0 else [])
    rw [pushes, unpushed] at looped
    cases looped
    simp
  · obtain ⟨res', pushed⟩ := handleLoop_push meta.pull data.vals data.keys 0 store
      (if meta.pull then List.replicate data.keys.length 0 else []) (by simpa using enough pushes)
    rw [pushes, List.enum_eq_enumFrom, pushed] at looped
    cases looped
    simp

/-- A push that carries a value for every key, and exactly one per key unless it also pulls,
is accepted and adds each value into the store at its key. -/
theorem defaultHandle_of_push (store : Nat → R) {meta : KVMeta} (data : KVPairs R)
    (pushes : meta.push = true) (enough : data.keys.length ≤ data.vals.length)
    (checked : meta.pull = true ∨ data.keys.length = data.vals.length) :
    ∃ res, defaultHandle store meta data =
      .ok (fun key => store key + pushedSum (data.keys.zip data.vals) key, res) := by
  obtain ⟨res', pushed⟩ := handleLoop_push meta.pull data.vals data.keys 0 store
    (if meta.pull then List.replicate data.keys.length 0 else []) (by simpa using enough)
  rw [defaultHandle_eq, if_neg (by rcases checked with pulls | counted <;> simp [*]), pushes,
    List.enum_eq_enumFrom, pushed, List.drop_zero]
  exact ⟨_, rfl⟩

/-- A pull without a push leaves the store and answers with the stored value of every
requested key. -/
theorem defaultHandle_of_pull (store : Nat → R) {meta : KVMeta} (data : KVPairs R)
    (pushes : meta.push = false) (pulls : meta.pull = true) :
    defaultHandle store meta data = .ok (store, ⟨data.keys, data.keys.map store, []⟩) := by
  have answered := handleLoop_pull data.vals store data.keys [] _ (List.length_replicate _ 0)
  simp only [List.length_nil, List.nil_append] at answered
  rw [defaultHandle_eq, if_neg (by simp [pulls]), pushes, pulls, if_pos rfl, if_pos rfl,
    List.enum_eq_enumFrom, answered]
  rfl

/-- Nothing pushed to a key sums to `0` there. -/
theorem pushedSum_eq_zero {pushed : List (Nat × R)} {key : Nat}
    (absent : ∀ pair ∈ pushed, pair.1 ≠ key) : pushedSum pushed key = 0 := by
  rw [pushedSum, List.filter_eq_nil_iff.mpr (by simpa using absent), List.map_nil, List.sum_nil]

/-- A push that also pulls, over distinct keys with a value at every position from
`answered.length` on, answers each position with the value its key holds after the push. -/
theorem handleLoop_pushPull (vals : List R) (keys : List Nat) :
    ∀ answered rest store, keys.Nodup → answered.length + keys.length ≤ vals.length →
      rest.length = keys.length →
      handleLoop true true vals (keys.enumFrom answered.length) store (answered ++ rest) =
        .ok (fun key => store key + pushedSum (keys.zip (vals.drop answered.length)) key,
          answered ++ keys.map fun key =>
            store key + pushedSum (keys.zip (vals.drop answered.length)) key) := by
  induction keys with
  | nil =>
      intro answered rest store _ _ unanswered
      simp_all [handleLoop]
  | cons key keys inductionHypothesis =>
      rintro answered (_ | ⟨slot, rest⟩) store distinct inside unanswered
      · simp at unanswered
      simp only [List.length_cons, Nat.add_right_cancel_iff] at inside unanswered
      obtain ⟨fresh, distinct⟩ := List.nodup_cons.mp distinct
      have bound : answered.length < vals.length := by omega
      have step := inductionHypothesis (answered ++ [store key + vals[answered.length]]) rest
        (Function.update store key (store key + vals[answered.length])) distinct
        (by simp only [List.length_append, List.length_singleton]; omega) unanswered
      have untouched : pushedSum (keys.zip (vals.drop (answered.length + 1))) key = 0 :=
        pushedSum_eq_zero fun pair member same => fresh (same ▸ (List.of_mem_zip member).1)
      have pushed : (fun other => Function.update store key (store key + vals[answered.length])
            other + pushedSum (keys.zip (vals.drop (answered.length + 1))) other) =
          fun other => store other +
            pushedSum ((key :: keys).zip (vals.drop answered.length)) other := by
        funext other
        rw [List.drop_eq_getElem_cons bound, List.zip_cons_cons, pushedSum_cons]
        by_cases same : key = other
        · subst same
          simp [untouched]
        · simp [Function.update_noteq (Ne.symm same), same]
      simp only [List.length_append, List.length_singleton, List.append_assoc,
        List.singleton_append] at step
      rw [List.enumFrom_cons, handleLoop_cons, if_pos rfl, List.getElem?_eq_getElem bound]
      dsimp only
      rw [if_pos rfl, List.set_append_right _ _ le_rfl, Nat.sub_self, List.set_cons_zero,
        Function.update_same, step, pushed, List.map_cons]
      rw [List.drop_eq_getElem_cons bound, List.zip_cons_cons, pushedSum_cons, if_pos rfl,
        untouched, add_zero]

/-- A request that pushes and pulls distinct keys, with a value for each, adds each value
into the store at its key and answers every key with its value after the push. -/
theorem defaultHandle_of_pushPull (store : Nat → R) {meta : KVMeta} (data : KVPairs R)
    (pushes : meta.push = true) (pulls : meta.pull = true) (distinct : data.keys.Nodup)
    (enough : data.keys.length ≤ data.vals.length) :
    defaultHandle store meta data =
      .ok (fun key => store key + pushedSum (data.keys.zip data.vals) key,
        ⟨data.keys, data.keys.map fun key => store key + pushedSum (data.keys.zip data.vals) key,
          []⟩) := by
  have answered := handleLoop_pushPull data.vals data.keys [] _ store distinct
    (by simpa using enough) (List.length_replicate _ 0)
  simp only [List.length_nil, List.nil_append, List.drop_zero] at answered
  rw [defaultHandle_eq, if_neg (by simp [pulls]), pushes, pulls, if_pos rfl, if_pos rfl,
    List.enum_eq_enumFrom, answered]
  rfl

/-- The runs of a server from its constructor: each request that `Process` hands to the
default handle, with the key-value pairs pushed so far. -/
inductive ServerRun : (Nat → R) → List (Nat × R) → Prop
  /-- A fresh server: an empty store, nothing pushed. -/
  | init : ServerRun (fun _ => 0) []
  /-- A request through `Process` and the default handle. -/
  | request {store store' : Nat → R} {pushed : List (Nat × R)} {meta : KVMeta}
      {data res : KVPairs R} (msg : Received R) (run : ServerRun store pushed)
      (processed : serverProcess msg = .ok (some (meta, data)))
      (handled : defaultHandle store meta data = .ok (store', res)) :
      ServerRun store' (if meta.push then pushed ++ data.keys.zip data.vals else pushed)

/-- No update is lost or counted twice: after every run of a server, each key of its store
holds the sum of the values pushed to it. -/
theorem ServerRun.store_eq_pushedSum {store : Nat → R} {pushed : List (Nat × R)}
    (run : ServerRun store pushed) : store = pushedSum pushed := by
  induction run with
  | init => rfl
  | request msg _ _ handled stored =>
      rw [defaultHandle_store handled, stored]
      funext key
      split <;> simp [pushedSum_append]

/-- Two pushes to key `1`, of `2` and then of `3`, leave their sum at key `1`. -/
theorem ServerRun.store_of_two_pushes :
    let pushed : List (Nat × ℚ) := [(1, 2), (1, 3)]
    ∃ store, ServerRun store pushed ∧ store = pushedSum pushed ∧ store 1 = 5 := by
  intro pushed
  let push : ℚ → Received ℚ := fun value => ⟨false, 0, true, false, 9, 0, 0, 2, [1], [value], []⟩
  let meta : KVMeta := ⟨0, true, false, 9, 0, 0⟩
  let once : Nat → ℚ := Function.update (fun _ => 0) 1 (0 + 2)
  have first : ServerRun once [(1, 2)] := ServerRun.request (push 2) .init
    (rfl : serverProcess (push 2) = .ok (some (meta, ⟨[1], [2], []⟩)))
    (rfl : defaultHandle (fun _ => 0) meta ⟨[1], [2], []⟩ = .ok (once, ⟨[], [], []⟩))
  have run : ServerRun (Function.update once 1 (once 1 + 3)) pushed := ServerRun.request
    (push 3) first (rfl : serverProcess (push 3) = .ok (some (meta, ⟨[1], [3], []⟩)))
    (rfl : defaultHandle once meta ⟨[1], [3], []⟩ =
      .ok (Function.update once 1 (once 1 + 3), ⟨[], [], []⟩))
  have summed := ServerRun.store_eq_pushedSum run
  refine ⟨_, run, summed, ?_⟩
  rw [summed]
  norm_num [pushed, pushedSum]

end Store

end Dgt
