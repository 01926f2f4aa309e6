import Dgt.Server
import Dgt.PullCallback

/-!
# A worker and its servers

A request crosses the wire with the header `Send` wrote and the payload chunks it attached. A
server with the default handle serves it: `KVServer<Val>::Process` hands the request to the
handle, which answers through `KVServer<Val>::Response`, and the worker's `Process` reads the
answer back.

Seen through the server ranges, the stores of the servers are one store, each key held by the
server whose range contains it (`clusterStore`). The slicer sends every key of a batch of
ascending keys to the server that holds it, so over that one store whole-shard pushes add their
values, in whichever order the servers receive the messages of however many pushes; a pull
reads the stored values, in whichever order its answers arrive; and a push-pull reads the
values its own push left.
-/

namespace Dgt

variable {R : Type}

/-! ## The wire -/

/-- The number of data chunks `Send` and `Response` attach: `[keys, vals]`, then `[lens]` when
there are some, and none without keys. -/
def chunkCount (keys : List Nat) (lens : List Int) : Nat :=
  if keys = [] then 0 else if lens = [] then 2 else 3

/-- Modelled from the spec: the wire contract. A request reaches its server with the header
`Send` wrote and the payload chunks it attached; `sender` and `customer_id` are the
worker's. -/
def Message.received (msg : Message R) (sender customerId : Nat) : Received R :=
  ⟨false, msg.header.head, msg.header.push, msg.header.pull, sender, msg.header.timestamp,
    customerId, chunkCount msg.keys msg.lens, msg.keys, msg.vals, msg.lens⟩

/-- `KVServer<Val>::Response(req, res)`: the answer to `req.sender` echoes the request's
`customer_id`, `push`, `pull`, `cmd` and `timestamp`, and carries the chunks of `res` when
it has keys. `server` is the node id of the answering server. -/
def serverResponse (req : KVMeta) (res : KVPairs R) (server : Nat) : Received R :=
  ⟨false, req.cmd, req.push, req.pull, server, req.timestamp, req.customerId,
    chunkCount res.keys res.lens, res.keys, res.vals, res.lens⟩

/-- What `KVWorker<Val>::Process` reads of an answer that is not the simple app's: its
timestamp, its `pull` flag and, for a pull, after `CHECK_GE(msg.data.size(), 2)`, the keys,
values and, from a third chunk, lens it buffers in `recv_kvs_`. -/
def workerRead (msg : Received R) : Except Fault (Option (Nat × Bool × KVPairs R)) :=
  if msg.simpleApp then .ok none
  else if msg.pull then
    if msg.size < 2 then .error (.check "msg.data.size() >= (size_t)2")
    else .ok (some (msg.timestamp, true,
      ⟨msg.keys, msg.vals, if 2 < msg.size then msg.lens else []⟩))
  else .ok (some (msg.timestamp, false, .empty))

/-- The `KVMeta` that `Process` copies from the header of a request of `sender`. -/
def Meta.kvMeta (header : Meta) (sender customerId : Nat) : KVMeta :=
  ⟨header.head, header.push, header.pull, sender, header.timestamp, customerId⟩

/-- A message whose chunks are as `Send` attaches them: no values or lens without keys, and
the lens, if any, one per key. -/
def Message.Attached (msg : Message R) : Prop :=
  (msg.keys = [] → msg.vals = [] ∧ msg.lens = []) ∧
    (msg.lens = [] ∨ msg.lens.length = msg.keys.length)

/-- `Send` attaches the payload of a shard with no lens, or one per key, as `Process` reads
it. -/
theorem Message.build_attached (header : Meta) {shard : KVPairs R} (vals : List R) (contri : R)
    (lensPerKey : shard.lens = [] ∨ shard.lens.length = shard.keys.length) :
    (Message.build header shard vals contri).Attached := by
  by_cases noKeys : shard.keys = []
  · simp [Message.build, payload, Message.Attached, noKeys]
  · rw [Message.build_of_ne_nil vals contri noKeys]
    exact ⟨fun keys => absurd keys noKeys, lensPerKey⟩

/-- `Process` accepts a request whose chunks are attached as `Send` attaches them, and hands
the handle its header and exactly its keys, values and lens. -/
theorem serverProcess_received {msg : Message R} (attached : msg.Attached)
    (sender customerId : Nat) :
    serverProcess (msg.received sender customerId) =
      .ok (some (msg.header.kvMeta sender customerId, ⟨msg.keys, msg.vals, msg.lens⟩)) := by
  obtain ⟨noKeys, lensPerKey⟩ := attached
  by_cases keysEmpty : msg.keys = []
  · obtain ⟨noVals, noLens⟩ := noKeys keysEmpty
    simp [serverProcess, Message.received, chunkCount, keysEmpty, noVals, noLens, Meta.kvMeta]
  · rcases lensPerKey with noLens | perKey
    · simp [serverProcess, Message.received, chunkCount, keysEmpty, noLens, Meta.kvMeta]
    · have hasLens : msg.lens ≠ [] := fun noLens =>
        keysEmpty (List.length_eq_zero.mp (by rw [← perKey, noLens, List.length_nil]))
      simp [serverProcess, Message.received, chunkCount, keysEmpty, hasLens, perKey, Meta.kvMeta]

/-- The worker reads an answer back as the handle produced it: with the request's timestamp
and `pull` flag, and for a pull that has keys, its keys, values and lens. -/
theorem workerRead_serverResponse (req : KVMeta) (res : KVPairs R) (server : Nat)
    (hasKeys : req.pull = true → res.keys ≠ []) :
    workerRead (serverResponse req res server) =
      .ok (some (req.timestamp, req.pull, if req.pull then res else .empty)) := by
  cases pulls : req.pull
  · simp [workerRead, serverResponse, pulls]
  · have nonempty := hasKeys pulls
    obtain ⟨keys, vals, lens⟩ := res
    by_cases noLens : lens = [] <;>
      simp_all [workerRead, serverResponse, chunkCount]

/-! ## Servers with the default handle -/

section Serve

variable [Add R] [Zero R]

/-- A server with the default handle serving a request: `Process` hands it to the handle, which
answers through `Response`; a message of the simple app gets no answer here. -/
def serve (store : Nat → R) (server : Nat) (msg : Received R) :
    Except Fault ((Nat → R) × Option (Received R)) := do
  match ← serverProcess msg with
  | none => return (store, none)
  | some (meta, data) =>
      let (store, res) ← defaultHandle store meta data
      return (store, some (serverResponse meta res server))

/-- A request's round trip: the server of node id `server` serves it, and the worker of node
id `worker` reads the answer. -/
def roundTrip (store : Nat → R) (server worker customerId : Nat) (msg : Message R) :
    Except Fault ((Nat → R) × Option (Nat × Bool × KVPairs R)) := do
  let (store, answer) ← serve store server (msg.received worker customerId)
  match answer with
  | none => return (store, none)
  | some answer => (store, ·) <$> workerRead answer

/-- The servers serving delivered requests one after the other, each at the server of its rank
(node id `server rank`), and the worker reading the answers in the same order. -/
def serveAll (server : Nat → Nat) (worker customerId : Nat) :
    List (Nat × Message R) → (Nat → Nat → R) →
      Except Fault ((Nat → Nat → R) × List (Nat × Bool × KVPairs R))
  | [], stores => .ok (stores, [])
  | (rank, msg) :: rest, stores => do
      let (store, answer) ← roundTrip (stores rank) (server rank) worker customerId msg
      let (stores, answers) ←
        serveAll server worker customerId rest (Function.update stores rank store)
      return (stores, answer.toList ++ answers)

/-- A round trip that `Process` and the handle accept: the store the handle leaves, and the
worker's read of the handle's answer. -/
theorem roundTrip_of_handled {store store' : Nat → R} {header : Meta} {keys : List Nat}
    {vals : List R} {lens : List Int} {contri : R} {res : KVPairs R}
    (server worker customerId : Nat) (attached : Message.Attached ⟨header, keys, vals, lens, contri⟩)
    (handled : defaultHandle store (header.kvMeta worker customerId) ⟨keys, vals, lens⟩ =
      .ok (store', res)) :
    roundTrip store server worker customerId ⟨header, keys, vals, lens, contri⟩ = (store', ·) <$>
      workerRead (serverResponse (header.kvMeta worker customerId) res server) := by
  simp only [roundTrip, serve, serverProcess_received attached, handled, bind, Except.bind,
    pure, Except.pure]

end Serve

/-! ## The round trips of `Send`'s messages -/

section Messages

variable [LinearOrderedField R]

/-- A pull request of a shard with keys and no lens: the server keeps its store, and the worker
reads the shard's keys with their stored values. -/
theorem roundTrip_pullMessage (store : Nat → R) (server worker customerId : Nat)
    {request : Request} {recver : Nat} {shard : KVPairs R}
    (pullOnly : request.push = false ∧ request.pull = true) (hasKeys : shard.keys ≠ [])
    (noLens : shard.lens = []) :
    roundTrip store server worker customerId (pullMessage request recver shard) =
      .ok (store, some (request.timestamp, true, ⟨shard.keys, shard.keys.map store, []⟩)) := by
  let header := request.header recver 3 (shard.keys.headD 0) 0 0 0 shard.vals.length 0
  have handled : defaultHandle store (header.kvMeta worker customerId)
      ⟨shard.keys, shard.vals, shard.lens⟩ = .ok (store, ⟨shard.keys, shard.keys.map store, []⟩) :=
    defaultHandle_of_pull store _ pullOnly.1 pullOnly.2
  rw [pullMessage, Message.build_of_ne_nil _ _ hasKeys, roundTrip_of_handled server worker
    customerId ⟨fun noKeys => absurd noKeys hasKeys, .inl noLens⟩ handled,
    workerRead_serverResponse _ ⟨shard.keys, shard.keys.map store, []⟩ server fun _ => hasKeys]
  simp [header, Meta.kvMeta, Request.header, pullOnly.2]

/-- A whole-shard push of a shard with keys, one value per key and no lens: the server adds
each value into its store at its key, whatever the store holds, and the worker reads an
answer without data. -/
theorem roundTrip_firstPushMessage (store : Nat → R) (server worker customerId : Nat)
    {request : Request} {recver pushOpNum : Nat} {shard : KVPairs R}
    (pushOnly : request.push = true ∧ request.pull = false) (hasKeys : shard.keys ≠ [])
    (oneValuePerKey : shard.vals.length = shard.keys.length) (noLens : shard.lens = []) :
    roundTrip store server worker customerId (firstPushMessage request recver pushOpNum shard) =
      .ok (fun key => store key + pushedSum (shard.keys.zip shard.vals) key,
        some (request.timestamp, false, .empty)) := by
  let header := request.header recver 1 (shard.keys.headD 0) 0 0 0 shard.vals.length pushOpNum
  obtain ⟨res, handled⟩ : ∃ res, defaultHandle store (header.kvMeta worker customerId)
      ⟨shard.keys, shard.vals, shard.lens⟩ =
        .ok (fun key => store key + pushedSum (shard.keys.zip shard.vals) key, res) :=
    defaultHandle_of_push store _ pushOnly.1 oneValuePerKey.ge (.inr oneValuePerKey.symm)
  rw [firstPushMessage, Message.build_of_ne_nil _ _ hasKeys, roundTrip_of_handled server worker
    customerId ⟨fun noKeys => absurd noKeys hasKeys, .inl noLens⟩ handled,
    workerRead_serverResponse _ res server fun pulls => by
      simp [header, Meta.kvMeta, Request.header, pushOnly.2] at pulls]
  simp [header, Meta.kvMeta, Request.header, pushOnly.2]

/-- A whole-shard push-pull of a shard of distinct keys, with one value per key and no lens:
the server adds each value into its store at its key, whatever the store holds, and the worker
reads the shard's keys with the values they hold after the push. -/
theorem roundTrip_pushPull (store : Nat → R) (server worker customerId : Nat)
    {request : Request} {recver pushOpNum : Nat} {shard : KVPairs R}
    (pushPull : request.push = true ∧ request.pull = true) (hasKeys : shard.keys ≠ [])
    (distinct : shard.keys.Nodup) (oneValuePerKey : shard.vals.length = shard.keys.length)
    (noLens : shard.lens = []) :
    roundTrip store server worker customerId (firstPushMessage request recver pushOpNum shard) =
      .ok (fun key => store key + pushedSum (shard.keys.zip shard.vals) key,
        some (request.timestamp, true, ⟨shard.keys, shard.keys.map fun key =>
          store key + pushedSum (shard.keys.zip shard.vals) key, []⟩)) := by
  let header := request.header recver 1 (shard.keys.headD 0) 0 0 0 shard.vals.length pushOpNum
  let pushed := fun key => store key + pushedSum (shard.keys.zip shard.vals) key
  have handled : defaultHandle store (header.kvMeta worker customerId)
      ⟨shard.keys, shard.vals, shard.lens⟩ = .ok (pushed, ⟨shard.keys, shard.keys.map pushed, []⟩) :=
    defaultHandle_of_pushPull store _ pushPull.1 pushPull.2 distinct oneValuePerKey.ge
  rw [firstPushMessage, Message.build_of_ne_nil _ _ hasKeys, roundTrip_of_handled server worker
    customerId ⟨fun noKeys => absurd noKeys hasKeys, .inl noLens⟩ handled,
    workerRead_serverResponse _ ⟨shard.keys, shard.keys.map pushed, []⟩ server fun _ => hasKeys]
  simp [header, Meta.kvMeta, Request.header, pushPull.2]

end Messages

/-! ## Delivery -/

section Delivery

variable [AddCommMonoid R] (server : Nat → Nat) (worker customerId : Nat)

/-- The servers' stores after delivered requests that each add into the store of their rank. -/
def storesAfter (stores : Nat → Nat → R) (added : Nat × Message R → Nat → R)
    (delivered : List (Nat × Message R)) (rank key : Nat) : R :=
  stores rank key + ((delivered.filter fun sent => sent.1 = rank).map fun sent => added sent key).sum

@[simp] theorem storesAfter_nil (stores : Nat → Nat → R) (added : Nat × Message R → Nat → R) :
    storesAfter stores added [] = stores := by
  funext rank key
  simp [storesAfter]

theorem storesAfter_cons (stores : Nat → Nat → R) (added : Nat × Message R → Nat → R)
    (rank : Nat) (msg : Message R) (rest : List (Nat × Message R)) :
    storesAfter stores added ((rank, msg) :: rest) = storesAfter
      (Function.update stores rank fun key => stores rank key + added (rank, msg) key) added rest := by
  funext other key
  by_cases same : rank = other
  · subst same
    simp [storesAfter, List.filter_cons, add_assoc]
  · simp [storesAfter, List.filter_cons, same, Function.update_noteq (Ne.symm same)]

/-- Requests each of which adds into whatever store it finds and gets the same answer: in
whatever order they are delivered, every server gains what the requests of its rank add, and
the answers come in delivery order. -/
theorem serveAll_of_adds (added : Nat × Message R → Nat → R)
    (answer : Nat × Message R → Nat × Bool × KVPairs R) :
    ∀ (delivered : List (Nat × Message R)) (stores : Nat → Nat → R),
      (∀ sent ∈ delivered, ∀ store, roundTrip store (server sent.1) worker customerId sent.2 =
        .ok (fun key => store key + added sent key, some (answer sent))) →
      serveAll server worker customerId delivered stores =
        .ok (storesAfter stores added delivered, delivered.map answer)
  | [], stores, _ => by simp [serveAll]
  | (rank, msg) :: rest, stores, served => by
      simp only [serveAll, served (rank, msg) (List.mem_cons_self _ _), bind, Except.bind]
      rw [serveAll_of_adds added answer rest _ fun sent member =>
        served sent (List.mem_cons_of_mem _ member), storesAfter_cons]
      rfl

/-- Requests to distinct servers, each of which adds into the store it finds there and is
answered from it: every server gains what its request adds, and the answers come in delivery
order. -/
theorem serveAll_of_distinct (added : Nat × Message R → Nat → R)
    (answer : Nat × Message R → Nat × Bool × KVPairs R) :
    ∀ (delivered : List (Nat × Message R)) (stores : Nat → Nat → R),
      (delivered.map Prod.fst).Nodup →
      (∀ sent ∈ delivered, roundTrip (stores sent.1) (server sent.1) worker customerId sent.2 =
        .ok (fun key => stores sent.1 key + added sent key, some (answer sent))) →
      serveAll server worker customerId delivered stores =
        .ok (storesAfter stores added delivered, delivered.map answer)
  | [], stores, _, _ => by simp [serveAll]
  | (rank, msg) :: rest, stores, distinct, served => by
      obtain ⟨fresh, distinct⟩ := List.nodup_cons.mp distinct
      have others (sent : Nat × Message R) (member : sent ∈ rest) : sent.1 ≠ rank :=
        fun same => fresh (List.mem_map.mpr ⟨sent, member, same⟩)
      simp only [serveAll, served (rank, msg) (List.mem_cons_self _ _), bind, Except.bind]
      rw [serveAll_of_distinct added answer rest _ distinct fun sent member => by
        rw [Function.update_noteq (others sent member)]
        exact served sent (List.mem_cons_of_mem _ member), storesAfter_cons]
      rfl

/-- Over requests to distinct servers, the server of a request ends with its own store plus
what that request adds. -/
theorem storesAfter_of_distinct (added : Nat × Message R → Nat → R) :
    ∀ {delivered : List (Nat × Message R)} (stores : Nat → Nat → R),
      (delivered.map Prod.fst).Nodup → ∀ sent ∈ delivered,
        storesAfter stores added delivered sent.1 = fun key => stores sent.1 key + added sent key
  | [], _, _, _, absent => absurd absent (List.not_mem_nil _)
  | (rank, msg) :: rest, stores, distinct, sent, member => by
      obtain ⟨fresh, distinct⟩ := List.nodup_cons.mp distinct
      rw [storesAfter_cons]
      rcases List.mem_cons.mp member with rfl | later
      · have alone : (rest.filter fun other => other.1 = rank) = [] :=
          List.filter_eq_nil_iff.mpr fun other member same =>
            fresh (List.mem_map.mpr ⟨other, member, of_decide_eq_true same⟩)
        funext key
        simp [storesAfter, alone]
      · have apart : sent.1 ≠ rank := fun same =>
          fresh (List.mem_map.mpr ⟨sent, later, same⟩)
        rw [storesAfter_of_distinct added _ distinct sent later, Function.update_noteq apart]

end Delivery

/-! ## One store across the servers -/

/-- The rank of the server whose range holds `key`: the first range that contains it. -/
def ownerRank (ranges : List Range) (key : Nat) : Nat :=
  ranges.findIdx fun range => range.contains key

/-- The servers' stores seen as one store: each key as the server whose range holds it stores
it. -/
def clusterStore (ranges : List Range) (stores : Nat → Nat → R) (key : Nat) : R :=
  stores (ownerRank ranges key) key

/-- Contiguous ranges that each begin at or below their end lie one after the other. -/
theorem Contiguous.ordered {ranges : List Range} (contiguous : Contiguous ranges)
    (increasing : ∀ range ∈ ranges, range.beginKey ≤ range.endKey) :
    ranges.Pairwise fun earlier later => earlier.endKey ≤ later.beginKey := by
  induction ranges with
  | nil => exact List.Pairwise.nil
  | cons range rest inductionHypothesis =>
      have restOrdered := inductionHypothesis contiguous.tail fun other member =>
        increasing other (List.mem_cons_of_mem _ member)
      refine List.pairwise_cons.mpr ⟨fun later member => ?_, restOrdered⟩
      cases rest with
      | nil => cases member
      | cons next rest =>
          have linked := (contiguous_cons_cons.mp contiguous).1
          rcases List.mem_cons.mp member with rfl | further
          · exact linked.le
          · exact linked.le.trans ((increasing next (by simp)).trans
              (List.rel_of_pairwise_cons restOrdered further))

/-- Over ranges one after the other, a key in the range of rank `i` is held by rank `i`. -/
theorem ownerRank_eq {ranges : List Range}
    (ordered : ranges.Pairwise fun earlier later => earlier.endKey ≤ later.beginKey)
    {rank : Nat} {range : Range} (found : ranges[rank]? = some range) {key : Nat}
    (held : range.contains key) : ownerRank ranges key = rank := by
  induction ranges generalizing rank with
  | nil => simp at found
  | cons first rest inductionHypothesis =>
      obtain ⟨before, restOrdered⟩ := List.pairwise_cons.mp ordered
      cases rank with
      | zero =>
          obtain rfl : first = range := by simpa using found
          simp [ownerRank, List.findIdx_cons, held]
      | succ rank =>
          have later : rest[rank]? = some range := by simpa using found
          have notFirst : first.contains key = false := by
            have apart := before range (List.getElem?_mem later)
            simp only [Range.contains, Bool.and_eq_true, decide_eq_true_eq] at held
            simp only [Range.contains, Bool.and_eq_false_iff, decide_eq_false_iff_not, not_le,
              not_lt]
            omega
          rw [ownerRank, List.findIdx_cons, notFirst, cond_false, ← ownerRank,
            inductionHypothesis restOrdered later]

/-- Requests that each add their key-value pairs into the store of the server that holds their
keys add, over the one store, the pairs of all of them. -/
theorem clusterStore_storesAfter [AddCommMonoid R] {ranges : List Range}
    (stores : Nat → Nat → R) {delivered : List (Nat × Message R)}
    (owned : ∀ sent ∈ delivered, ∀ key ∈ sent.2.keys, ownerRank ranges key = sent.1) :
    clusterStore ranges (storesAfter stores
        (fun sent key => pushedSum (sent.2.keys.zip sent.2.vals) key) delivered) =
      fun key => clusterStore ranges stores key +
        pushedSum (delivered.flatMap fun sent => sent.2.keys.zip sent.2.vals) key := by
  funext key
  have elsewhere : ((delivered.filter fun sent => ¬sent.1 = ownerRank ranges key).map
      fun sent => pushedSum (sent.2.keys.zip sent.2.vals) key).sum = 0 := by
    refine List.sum_eq_zero fun value member => ?_
    obtain ⟨sent, kept, rfl⟩ := List.mem_map.mp member
    obtain ⟨delivered, other⟩ := List.mem_filter.mp kept
    refine pushedSum_eq_zero fun pair paired same => ?_
    have owner := owned sent delivered key (same ▸ (List.of_mem_zip paired).1)
    simp [owner] at other
  rw [clusterStore, storesAfter, clusterStore, pushedSum_flatMap,
    ← List.sum_map_filter_add_sum_map_filter_not (fun sent => sent.1 = ownerRank ranges key)
      (fun sent => pushedSum (sent.2.keys.zip sent.2.vals) key) delivered, elsewhere, add_zero]

/-! ## The whole-shard messages of a batch -/

/-- The messages the loop of a `Send` hands over when each non-empty shard leaves as one
message `build rank shard`, with their server ranks, in rank order. -/
def shardMessages (build : Nat → KVPairs R → Message R) (sliced : List (Bool × KVPairs R)) :
    List (Nat × Message R) :=
  (sliced.enum.filter fun entry => entry.2.1).map fun entry => (entry.1, build entry.1 entry.2.2)

/-- The whole-shard messages of a batch, as the first push and the pull request go: the batch
sliced over the server ranges, and each non-empty shard as one message. -/
def wholeShardMessages (build : Nat → KVPairs R → Message R) (ranges : List Range)
    (kvs : KVPairs R) : Except Fault (List (Nat × Message R)) :=
  shardMessages build <$> defaultSlicer kvs ranges

theorem mem_shardMessages {build : Nat → KVPairs R → Message R}
    {sliced : List (Bool × KVPairs R)} {sent : Nat × Message R}
    (member : sent ∈ shardMessages build sliced) :
    ∃ shard, (sent.1, (true, shard)) ∈ sliced.enum ∧ sent.2 = build sent.1 shard := by
  obtain ⟨⟨rank, flag, shard⟩, kept, rfl⟩ := List.mem_map.mp member
  obtain ⟨inEnum, flagged⟩ := List.mem_filter.mp kept
  obtain rfl : flag = true := flagged
  exact ⟨shard, inEnum, rfl⟩

/-- One message per server rank. -/
theorem shardMessages_nodup (build : Nat → KVPairs R → Message R)
    (sliced : List (Bool × KVPairs R)) : ((shardMessages build sliced).map Prod.fst).Nodup := by
  rw [shardMessages, List.map_map]
  exact ((List.filter_sublist sliced.enum).map Prod.fst).nodup
    (List.enum_map_fst sliced ▸ List.nodup_range _)

/-- Over the messages, what each carries is what its shard carries. -/
theorem shardMessages_map_payload {β : Type} {build : Nat → KVPairs R → Message R}
    {sliced : List (Bool × KVPairs R)}
    (payloadOf : ∀ rank (shard : KVPairs R), shard.keys ≠ [] →
      (build rank shard).keys = shard.keys ∧ (build rank shard).vals = shard.vals)
    (flags : ∀ shard ∈ sliced, shard.1 = true ↔ shard.2.keys ≠ [])
    (carried : List Nat → List R → β) :
    (shardMessages build sliced).map (fun sent => carried sent.2.keys sent.2.vals) =
      (sliced.filter Prod.fst).map fun shard => carried shard.2.keys shard.2.vals := by
  have flagged : sliced.filter Prod.fst =
      (sliced.enum.filter fun entry => entry.2.1).map Prod.snd := by
    conv_lhs => rw [← List.enum_map_snd sliced]
    rw [List.filter_map]
    rfl
  rw [flagged, shardMessages, List.map_map, List.map_map]
  refine List.map_congr_left fun entry member => ?_
  obtain ⟨inEnum, isFlagged⟩ := List.mem_filter.mp member
  obtain ⟨keys, vals⟩ := payloadOf entry.1 entry.2.2
    ((flags _ (List.snd_mem_of_mem_enum inEnum)).mp isFlagged)
  simp [keys, vals]

/-- Leaving out the shards flagged empty leaves what they would add, nothing. -/
theorem flatten_filter_fst {β : Type} (part : KVPairs R → List β) :
    ∀ sliced : List (Bool × KVPairs R), (∀ shard ∈ sliced, shard.1 = false → part shard.2 = []) →
      ((sliced.filter Prod.fst).map fun shard => part shard.2).flatten =
        (sliced.map fun shard => part shard.2).flatten
  | [], _ => rfl
  | shard :: rest, empty => by
      have tail := flatten_filter_fst part rest fun other member =>
        empty other (List.mem_cons_of_mem _ member)
      cases flagged : shard.1
      · simp [List.filter_cons, flagged, tail, empty shard (List.mem_cons_self _ _) flagged]
      · simp [List.filter_cons, flagged, tail]

/-- Shards with one value per key: the keys and values they hold, paired up, are their pairs
one shard after the other. -/
theorem zip_flatten_shards :
    ∀ sliced : List (Bool × KVPairs R), (∀ shard ∈ sliced, shard.2.vals.length = shard.2.keys.length) →
      (sliced.map fun shard => shard.2.keys).flatten.zip (sliced.map fun shard => shard.2.vals).flatten =
        (sliced.map fun shard => shard.2.keys.zip shard.2.vals).flatten
  | [], _ => rfl
  | shard :: rest, widths => by
      simp only [List.map_cons, List.flatten_cons]
      rw [List.zip_append (widths shard (List.mem_cons_self _ _)).symm, zip_flatten_shards rest
        fun other member => widths other (List.mem_cons_of_mem _ member)]

section Payload

variable [LinearOrderedField R]

theorem pullMessage_payload (request : Request) (recver : Nat) {shard : KVPairs R}
    (hasKeys : shard.keys ≠ []) :
    (pullMessage request recver shard).keys = shard.keys ∧
      (pullMessage request recver shard).vals = shard.vals := by
  rw [pullMessage, Message.build_of_ne_nil _ _ hasKeys]
  exact ⟨rfl, rfl⟩

theorem firstPushMessage_payload (request : Request) (recver pushOpNum : Nat) {shard : KVPairs R}
    (hasKeys : shard.keys ≠ []) :
    (firstPushMessage request recver pushOpNum shard).keys = shard.keys ∧
      (firstPushMessage request recver pushOpNum shard).vals = shard.vals := by
  rw [firstPushMessage, Message.build_of_ne_nil _ _ hasKeys]
  exact ⟨rfl, rfl⟩

end Payload

section Batch

variable {send : KVPairs R} {ranges : List Range} {sliced : List (Bool × KVPairs R)}
  (ascending : Ascending send.keys)
  (increasing : ∀ range ∈ ranges, range.beginKey ≤ range.endKey)
  (covered : ∀ range ∈ ranges.head?, ∀ key ∈ send.keys, range.beginKey ≤ key)
  (returns : defaultSlicer send ranges = .ok sliced)
include ascending increasing covered returns

/-- The shards of a batch of ascending keys without lens: distinct keys, no lens, and one value
per key when the batch has one value per key. -/
theorem defaultSlicer_shards_fixed (noLens : send.lens = []) :
    ∀ shard ∈ sliced, shard.2.keys.Nodup ∧ shard.2.lens = [] ∧
      (send.vals.length = send.keys.length → shard.2.vals.length = shard.2.keys.length) := by
  rw [defaultSlicer_eq_map_expectedShard ascending increasing covered returns]
  intro shard member
  obtain ⟨range, -, rfl⟩ := List.mem_map.mp member
  refine ⟨?_, by simp [expectedShard, noLens], fun oneEach => ?_⟩
  · rw [expectedShard, Slicer.shardBetween_keys]
    exact ((List.take_sublist _ _).trans (List.drop_sublist _ _)).nodup
      (List.Pairwise.nodup ascending)
  · rw [expectedShard, Slicer.shardBetween_keys, Slicer.shardBetween_vals_fixed _ _ _ _ noLens]
    by_cases noKeys : send.keys = []
    · have noVals : send.vals = [] := List.length_eq_zero.mp (by rw [oneEach, noKeys]; rfl)
      rw [noKeys, noVals, cut_nil, cut_nil]
      rfl
    · have width : send.valueWidth = 1 := by
        rw [KVPairs.valueWidth, oneEach, Nat.div_self (List.length_pos.mpr noKeys)]
      simp only [width, Nat.mul_one, cut, List.length_take, List.length_drop, oneEach]

/-- The slicer sends every key of a batch of ascending keys, over increasing ranges covering
it from below, to the server that holds it. -/
theorem shardMessages_ownerRank {build : Nat → KVPairs R → Message R}
    (payloadOf : ∀ rank (shard : KVPairs R), shard.keys ≠ [] →
      (build rank shard).keys = shard.keys ∧ (build rank shard).vals = shard.vals) :
    ∀ sent ∈ shardMessages build sliced, ∀ key ∈ sent.2.keys, ownerRank ranges key = sent.1 := by
  intro sent member key held
  obtain ⟨shard, inEnum, built⟩ := mem_shardMessages member
  have hasKeys := (defaultSlicer_flag_iff covered returns _ (List.snd_mem_of_mem_enum inEnum)).mp rfl
  rw [built, (payloadOf _ _ hasKeys).1] at held
  obtain ⟨range, found, contains⟩ :=
    defaultSlicer_mem_range ascending increasing covered returns inEnum held
  exact ownerRank_eq ((defaultSlicer_contiguous returns).ordered increasing) found contains

/-- The key-value pairs of the whole-shard messages of a batch with one value per key and no
lens are the batch's pairs, in order. -/
theorem shardMessages_pairs {build : Nat → KVPairs R → Message R}
    (payloadOf : ∀ rank (shard : KVPairs R), shard.keys ≠ [] →
      (build rank shard).keys = shard.keys ∧ (build rank shard).vals = shard.vals)
    (noLens : send.lens = []) (oneValuePerKey : send.vals.length = send.keys.length) :
    (shardMessages build sliced).flatMap (fun sent => sent.2.keys.zip sent.2.vals) =
      send.keys.zip send.vals := by
  have flags := defaultSlicer_flag_iff covered returns
  have shards := defaultSlicer_shards_fixed ascending increasing covered returns noLens
  obtain ⟨keysFlatten, valsFlatten, -⟩ :=
    defaultSlicer_flatten (.inl ⟨noLens, oneValuePerKey ▸ dvd_refl _⟩) covered returns
  rw [List.flatMap_def, shardMessages_map_payload payloadOf flags List.zip,
    flatten_filter_fst (fun shard => shard.keys.zip shard.vals) sliced fun shard member unflagged => by
      by_contra nonempty
      simpa [unflagged] using (flags shard member).mpr fun noKeys => nonempty (by simp [noKeys]),
    ← zip_flatten_shards sliced fun shard member => (shards shard member).2.2 oneValuePerKey,
    keysFlatten, valsFlatten]

end Batch

/-! ## The cluster as one store -/

section Cluster

variable [LinearOrderedField R] (server : Nat → Nat) (worker customerId : Nat)
  (stores : Nat → Nat → R) {ranges : List Range}

/-- The pull callback over answers that carry the keys of the non-empty shards of a pull with
values from one store `f`, in any order: it writes every requested key's value in `f`. -/
theorem pullCallback_of_stored (sortReplies : ReplySort R) {keys : List Nat}
    {sliced : List (Bool × KVPairs R)} {vals : List R} {replies : List (KVPairs R)} (f : Nat → R)
    (ascending : Ascending keys) (startsAtZero : ∀ range ∈ ranges.head?, range.beginKey = 0)
    (endsBelow : ∀ range ∈ ranges, range.endKey ≤ keySpace - 1)
    (slicedOk : defaultSlicer (⟨keys, [], []⟩ : KVPairs R) ranges = .ok sliced)
    (valsBuffer : vals = [] ∨ vals.length = keys.length)
    (arrived : replies.Perm ((sliced.filter Prod.fst).map fun shard =>
      (⟨shard.2.keys, shard.2.keys.map f, []⟩ : KVPairs R))) :
    pullCallback sortReplies keys vals none replies = .ok (keys.map f, none) := by
  have covered : ∀ range ∈ ranges.head?, ∀ key ∈ keys, range.beginKey ≤ key :=
    fun range first key _ => (startsAtZero range first).symm ▸ Nat.zero_le key
  have keysFlatten : ((sliced.filter Prod.fst).map fun shard => shard.2.keys).flatten = keys := by
    rw [flatten_flagged (defaultSlicer_flag_iff covered slicedOk)]
    exact (defaultSlicer_flatten (.inl ⟨rfl, dvd_zero _⟩ : (⟨keys, [], []⟩ : KVPairs R).WellFormed)
      covered slicedOk).1
  have counted : (((sliced.filter Prod.fst).map fun shard =>
      (⟨shard.2.keys, shard.2.keys.map f, []⟩ : KVPairs R)).map fun answer =>
        answer.vals.length).sum = keys.length := by
    rw [← keysFlatten, List.length_flatten, List.map_map, List.map_map]
    simp [Function.comp_def]
  rw [pullCallback_reassembles sortReplies ascending startsAtZero endsBelow slicedOk
    (by rw [List.map_map]; rfl) ?_ (counted ▸ valsBuffer) ?_ arrived,
    List.map_map, ← keysFlatten, List.map_flatten, List.map_map, List.map_map]
  · rfl
  · exact fun noLens => absurd noLens Bool.false_ne_true
  · exact fun buffer given => absurd given (Option.not_mem_none buffer)

/-- The servers of a pull of ascending keys, over increasing ranges starting at `0`, answer
from their stores and keep them: each answer carries its shard's keys with their values in the
one store. -/
theorem serveAll_pullMessages {request : Request} {keys : List Nat}
    {sliced : List (Bool × KVPairs R)} (pullOnly : request.push = false ∧ request.pull = true)
    (ascending : Ascending keys) (increasing : ∀ range ∈ ranges, range.beginKey ≤ range.endKey)
    (startsAtZero : ∀ range ∈ ranges.head?, range.beginKey = 0)
    (slicedOk : defaultSlicer (⟨keys, [], []⟩ : KVPairs R) ranges = .ok sliced) :
    serveAll server worker customerId
        (shardMessages (fun rank => pullMessage request (server rank)) sliced) stores =
      .ok (stores, (sliced.filter Prod.fst).map fun shard => (request.timestamp, true,
        ⟨shard.2.keys, shard.2.keys.map (clusterStore ranges stores), []⟩)) := by
  have covered : ∀ range ∈ ranges.head?, ∀ key ∈ keys, range.beginKey ≤ key :=
    fun range first key _ => (startsAtZero range first).symm ▸ Nat.zero_le key
  have flags := defaultSlicer_flag_iff covered slicedOk
  have shards := defaultSlicer_shards_fixed ascending increasing covered slicedOk rfl
  have payloadOf (rank : Nat) (shard : KVPairs R) (hasKeys : shard.keys ≠ []) :=
    pullMessage_payload request (server rank) hasKeys
  have owned := shardMessages_ownerRank ascending increasing covered slicedOk payloadOf
  have answers := shardMessages_map_payload payloadOf flags fun keys _ =>
    (request.timestamp, true, (⟨keys, keys.map (clusterStore ranges stores), []⟩ : KVPairs R))
  rw [serveAll_of_distinct server worker customerId (fun _ _ => 0) (fun sent => (request.timestamp,
    true, ⟨sent.2.keys, sent.2.keys.map (clusterStore ranges stores), []⟩)) _ stores
    (shardMessages_nodup _ _) fun sent member => ?_, answers]
  · congr
    funext rank key
    simp [storesAfter]
  obtain ⟨shard, inEnum, built⟩ := mem_shardMessages member
  have inSliced : (true, shard) ∈ sliced := List.snd_mem_of_mem_enum inEnum
  have hasKeys : shard.keys ≠ [] := (flags _ inSliced).mp rfl
  have stored : shard.keys.map (stores sent.1) = shard.keys.map (clusterStore ranges stores) :=
    List.map_congr_left fun key held => by
      rw [clusterStore, owned sent member key (by rw [built, (payloadOf _ _ hasKeys).1]; exact held)]
  dsimp only
  rw [built, roundTrip_pullMessage _ _ _ _ pullOnly hasKeys (shards _ inSliced).2.1,
    (payloadOf _ _ hasKeys).1, stored]
  simp

/-- A pull reads the cluster's store, in whichever order the servers' answers arrive. -/
theorem pull_reads_clusterStore (sortReplies : ReplySort R) {request : Request}
    {keys : List Nat} {messages : List (Nat × Message R)} {vals : List R}
    (pullOnly : request.push = false ∧ request.pull = true) (ascending : Ascending keys)
    (increasing : ∀ range ∈ ranges, range.beginKey ≤ range.endKey)
    (startsAtZero : ∀ range ∈ ranges.head?, range.beginKey = 0)
    (endsBelow : ∀ range ∈ ranges, range.endKey ≤ keySpace - 1)
    (sent : wholeShardMessages (fun rank => pullMessage request (server rank)) ranges
      (⟨keys, [], []⟩ : KVPairs R) = .ok messages)
    (valsBuffer : vals = [] ∨ vals.length = keys.length) :
    ∃ answers : List (KVPairs R),
      serveAll server worker customerId messages stores =
        .ok (stores, answers.map fun answer => (request.timestamp, true, answer)) ∧
      ∀ replies : List (KVPairs R), replies.Perm answers →
        pullCallback sortReplies keys vals none replies =
          .ok (keys.map (clusterStore ranges stores), none) := by
  obtain ⟨sliced, slicedOk, rfl⟩ := map_eq_ok.mp sent
  refine ⟨(sliced.filter Prod.fst).map fun shard =>
    ⟨shard.2.keys, shard.2.keys.map (clusterStore ranges stores), []⟩, ?_, fun replies arrived =>
      pullCallback_of_stored sortReplies _ ascending startsAtZero endsBelow slicedOk valsBuffer
        arrived⟩
  rw [serveAll_pullMessages server worker customerId stores pullOnly ascending increasing
    startsAtZero slicedOk, List.map_map]
  rfl

/-- Two servers over `[0, 4)` and `[4, 8)` answer a pull of `1, 3, 5, 7` with the values their
stores hold, `1, 3` from rank `0` and `15, 17` from rank `1`. -/
theorem pull_reads_clusterStore_of_two_servers :
    let request : Request := ⟨0, false, true, 0⟩
    let ranges : List Range := [⟨0, 4⟩, ⟨4, 8⟩]
    let stores : Nat → Nat → ℚ := fun rank key => 10 * rank + key
    ∃ messages, wholeShardMessages (fun rank => pullMessage request (id rank)) ranges
        (⟨[1, 3, 5, 7], [], []⟩ : KVPairs ℚ) = .ok messages ∧
      ∃ answers : List (KVPairs ℚ),
        serveAll id 9 0 messages stores =
          .ok (stores, answers.map fun answer => (request.timestamp, true, answer)) ∧
        ∀ replies : List (KVPairs ℚ), replies.Perm answers →
          pullCallback .insertion [1, 3, 5, 7] [] none replies =
            .ok ([1, 3, 15, 17], none) := by
  intro request ranges stores
  obtain ⟨messages, sent⟩ : ∃ messages, wholeShardMessages
      (fun rank => pullMessage request (id rank)) ranges
      (⟨[1, 3, 5, 7], [], []⟩ : KVPairs ℚ) = .ok messages := ⟨_, rfl⟩
  have values : [1, 3, 5, 7].map (clusterStore ranges stores) = [1, 3, 15, 17] := by
    norm_num [clusterStore, ownerRank, List.findIdx_cons, ranges, stores, Range.contains]
  exact ⟨messages, sent, values ▸ pull_reads_clusterStore id 9 0 stores .insertion ⟨rfl, rfl⟩
    (by decide) (by decide) (by simp [ranges]) (by simp [ranges, keySpace]) sent (.inl rfl)⟩

/-- A push-pull reads its own writes: every key's value after the push, in whichever order the
answers arrive. -/
theorem pushPull_reads_own_push (sortReplies : ReplySort R) {request : Request}
    {keys : List Nat} {vals outs : List R} {messages : List (Nat × Message R)}
    (pushPull : request.push = true ∧ request.pull = true) (ascending : Ascending keys)
    (increasing : ∀ range ∈ ranges, range.beginKey ≤ range.endKey)
    (startsAtZero : ∀ range ∈ ranges.head?, range.beginKey = 0)
    (endsBelow : ∀ range ∈ ranges, range.endKey ≤ keySpace - 1)
    (oneValuePerKey : vals.length = keys.length)
    (sent : wholeShardMessages (fun rank => firstPushMessage request (server rank) 1) ranges
      (⟨keys, vals, []⟩ : KVPairs R) = .ok messages)
    (outsBuffer : outs = [] ∨ outs.length = keys.length) :
    ∃ (stores' : Nat → Nat → R) (answers : List (KVPairs R)),
      serveAll server worker customerId messages stores =
        .ok (stores', answers.map fun answer => (request.timestamp, true, answer)) ∧
      clusterStore ranges stores' =
        (fun key => clusterStore ranges stores key + pushedSum (keys.zip vals) key) ∧
      ∀ replies : List (KVPairs R), replies.Perm answers →
        pullCallback sortReplies keys outs none replies =
          .ok (keys.map (clusterStore ranges stores'), none) := by
  obtain ⟨sliced, slicedOk, rfl⟩ := map_eq_ok.mp sent
  have covered : ∀ range ∈ ranges.head?, ∀ key ∈ keys, range.beginKey ≤ key :=
    fun range first key _ => (startsAtZero range first).symm ▸ Nat.zero_le key
  have flags := defaultSlicer_flag_iff covered slicedOk
  have shards := defaultSlicer_shards_fixed ascending increasing covered slicedOk rfl
  have payloadOf (rank : Nat) (shard : KVPairs R) (hasKeys : shard.keys ≠ []) :=
    firstPushMessage_payload request (server rank) 1 hasKeys
  have owned := shardMessages_ownerRank ascending increasing covered slicedOk payloadOf
  have distinct := shardMessages_nodup (fun rank => firstPushMessage request (server rank) 1) sliced
  let added : Nat × Message R → Nat → R := fun sent key => pushedSum (sent.2.keys.zip sent.2.vals) key
  let stores' := storesAfter stores added
    (shardMessages (fun rank => firstPushMessage request (server rank) 1) sliced)
  have answers := shardMessages_map_payload payloadOf flags fun keys _ =>
    (request.timestamp, true, (⟨keys, keys.map (clusterStore ranges stores'), []⟩ : KVPairs R))
  refine ⟨stores', (sliced.filter Prod.fst).map fun shard =>
    ⟨shard.2.keys, shard.2.keys.map (clusterStore ranges stores'), []⟩, ?_, ?_, fun replies arrived =>
      pullCallback_of_stored sortReplies _ ascending startsAtZero endsBelow
        (defaultSlicer_keysOnly rfl slicedOk) outsBuffer ?_⟩
  · rw [serveAll_of_distinct server worker customerId added (fun sent => (request.timestamp, true,
      ⟨sent.2.keys, sent.2.keys.map (clusterStore ranges stores'), []⟩)) _ stores distinct
      fun sent member => ?_, answers, List.map_map]
    · rfl
    obtain ⟨shard, inEnum, built⟩ := mem_shardMessages member
    have inSliced : (true, shard) ∈ sliced := List.snd_mem_of_mem_enum inEnum
    have hasKeys : shard.keys ≠ [] := (flags _ inSliced).mp rfl
    obtain ⟨keysDistinct, noLens, width⟩ := shards _ inSliced
    have readBack : shard.keys.map (fun key => stores sent.1 key +
        pushedSum (shard.keys.zip shard.vals) key) = shard.keys.map (clusterStore ranges stores') :=
      List.map_congr_left fun key held => by
        rw [clusterStore, owned sent member key (by rw [built, (payloadOf _ _ hasKeys).1]; exact held)]
        simp only [stores', storesAfter_of_distinct added stores distinct sent member, added, built,
          payloadOf _ _ hasKeys]
    dsimp only
    rw [built, roundTrip_pushPull _ _ _ _ pushPull hasKeys keysDistinct (width oneValuePerKey)
      noLens, readBack]
    simp only [added, built, payloadOf _ _ hasKeys]
  · rw [clusterStore_storesAfter stores owned,
      shardMessages_pairs ascending increasing covered slicedOk payloadOf rfl oneValuePerKey]
  · rw [List.filter_map, List.map_map]
    exact arrived

/-- A push-pull of `1, 2, 3, 4` to keys `1, 3, 5, 7` over two servers holding `10` everywhere
reads back the pushed values added to `10`. -/
theorem pushPull_reads_own_push_of_two_servers :
    let request : Request := ⟨0, true, true, 0⟩
    let ranges : List Range := [⟨0, 4⟩, ⟨4, 8⟩]
    ∃ messages, wholeShardMessages (fun rank => firstPushMessage request (id rank) 1) ranges
        (⟨[1, 3, 5, 7], [1, 2, 3, 4], []⟩ : KVPairs ℚ) = .ok messages ∧
      ∃ (stores' : Nat → Nat → ℚ) (answers : List (KVPairs ℚ)),
        serveAll id 9 0 messages (fun _ _ => 10) =
          .ok (stores', answers.map fun answer => (request.timestamp, true, answer)) ∧
        clusterStore ranges stores' = (fun key => 10 + pushedSum ([1, 3, 5, 7].zip [1, 2, 3, 4]) key) ∧
        ∀ replies : List (KVPairs ℚ), replies.Perm answers →
          pullCallback .insertion [1, 3, 5, 7] [] none replies =
            .ok ([1, 3, 5, 7].map (clusterStore ranges stores'), none) := by
  intro request ranges
  obtain ⟨messages, sent⟩ : ∃ messages, wholeShardMessages
      (fun rank => firstPushMessage request (id rank) 1) ranges
      (⟨[1, 3, 5, 7], [1, 2, 3, 4], []⟩ : KVPairs ℚ) = .ok messages := ⟨_, rfl⟩
  exact ⟨messages, sent, pushPull_reads_own_push id 9 0 (fun _ _ => 10) .insertion ⟨rfl, rfl⟩
    (by decide) (by decide) (by simp [ranges]) (by simp [ranges, keySpace]) rfl sent (.inl rfl)⟩

/-- The whole-shard messages of a push each go to the server holding their keys and add their
pairs there; together they carry the batch. -/
theorem firstPushMessages_spec {request : Request} {kvs : KVPairs R}
    {messages : List (Nat × Message R)}
    (increasing : ∀ range ∈ ranges, range.beginKey ≤ range.endKey)
    (startsAtZero : ∀ range ∈ ranges.head?, range.beginKey = 0)
    (pushOnly : request.push = true ∧ request.pull = false) (ascending : Ascending kvs.keys)
    (oneValuePerKey : kvs.vals.length = kvs.keys.length) (noLens : kvs.lens = [])
    (sent : wholeShardMessages (fun rank => firstPushMessage request (server rank) 1) ranges kvs =
      .ok messages) :
    (∀ message ∈ messages, ∀ store : Nat → R,
      roundTrip store (server message.1) worker customerId message.2 =
        .ok (fun key => store key + pushedSum (message.2.keys.zip message.2.vals) key,
          some (message.2.header.timestamp, false, .empty))) ∧
      (∀ message ∈ messages, ∀ key ∈ message.2.keys, ownerRank ranges key = message.1) ∧
      messages.flatMap (fun message => message.2.keys.zip message.2.vals) = kvs.keys.zip kvs.vals := by
  obtain ⟨sliced, slicedOk, rfl⟩ := map_eq_ok.mp sent
  have covered : ∀ range ∈ ranges.head?, ∀ key ∈ kvs.keys, range.beginKey ≤ key :=
    fun range first key _ => (startsAtZero range first).symm ▸ Nat.zero_le key
  have flags := defaultSlicer_flag_iff covered slicedOk
  have shards := defaultSlicer_shards_fixed ascending increasing covered slicedOk noLens
  have payloadOf (rank : Nat) (shard : KVPairs R) (hasKeys : shard.keys ≠ []) :=
    firstPushMessage_payload request (server rank) 1 hasKeys
  refine ⟨fun message member store => ?_,
    shardMessages_ownerRank ascending increasing covered slicedOk payloadOf,
    shardMessages_pairs ascending increasing covered slicedOk payloadOf noLens oneValuePerKey⟩
  obtain ⟨shard, inEnum, built⟩ := mem_shardMessages member
  have inSliced : (true, shard) ∈ sliced := List.snd_mem_of_mem_enum inEnum
  have hasKeys : shard.keys ≠ [] := (flags _ inSliced).mp rfl
  obtain ⟨-, shardNoLens, width⟩ := shards _ inSliced
  rw [built, roundTrip_firstPushMessage _ _ _ _ pushOnly hasKeys (width oneValuePerKey) shardNoLens,
    (payloadOf _ _ hasKeys).1, (payloadOf _ _ hasKeys).2]
  simp [firstPushMessage, Request.header]

/-- The messages of whole-shard pushes, one batch after the other: each adds its pairs into
whatever store its server holds, each goes to the server that holds its keys, and together
they carry the pairs of all the batches. -/
theorem firstPushBatches_spec {batches : List (Request × KVPairs R)}
    {sent : List (List (Nat × Message R))}
    (increasing : ∀ range ∈ ranges, range.beginKey ≤ range.endKey)
    (startsAtZero : ∀ range ∈ ranges.head?, range.beginKey = 0)
    (sliced : List.Forall₂ (fun (batch : Request × KVPairs R) messages =>
      wholeShardMessages (fun rank => firstPushMessage batch.1 (server rank) 1) ranges batch.2 =
        .ok messages) batches sent) :
    (∀ batch ∈ batches, (batch.1.push = true ∧ batch.1.pull = false) ∧ Ascending batch.2.keys ∧
      batch.2.vals.length = batch.2.keys.length ∧ batch.2.lens = []) →
    (∀ message ∈ sent.flatten, ∀ store : Nat → R,
      roundTrip store (server message.1) worker customerId message.2 =
        .ok (fun key => store key + pushedSum (message.2.keys.zip message.2.vals) key,
          some (message.2.header.timestamp, false, .empty))) ∧
      (∀ message ∈ sent.flatten, ∀ key ∈ message.2.keys, ownerRank ranges key = message.1) ∧
      sent.flatten.flatMap (fun message => message.2.keys.zip message.2.vals) =
        batches.flatMap fun batch => batch.2.keys.zip batch.2.vals := by
  induction sliced with
  | nil => simp
  | @cons batch messages restBatches restSent sentOk _ inductionHypothesis =>
      intro pushes
      obtain ⟨pushOnly, ascending, oneValuePerKey, noLens⟩ := pushes batch (List.mem_cons_self _ _)
      obtain ⟨served, owned, carried⟩ := firstPushMessages_spec server worker customerId increasing
        startsAtZero pushOnly ascending oneValuePerKey noLens sentOk
      obtain ⟨restServed, restOwned, restCarried⟩ := inductionHypothesis fun other member =>
        pushes other (List.mem_cons_of_mem _ member)
      simp only [List.flatten_cons, List.mem_append, List.flatMap_append, List.flatMap_cons,
        carried, restCarried, and_true]
      exact ⟨fun message member => member.elim (served message) (restServed message),
        fun message member => member.elim (owned message) (restOwned message)⟩

/-- No update is lost or counted twice across the cluster, whatever order the messages of the
pushes arrive in. -/
theorem pushes_add_to_clusterStore {batches : List (Request × KVPairs R)}
    {sent : List (List (Nat × Message R))} {delivered : List (Nat × Message R)}
    (increasing : ∀ range ∈ ranges, range.beginKey ≤ range.endKey)
    (startsAtZero : ∀ range ∈ ranges.head?, range.beginKey = 0)
    (pushes : ∀ batch ∈ batches, (batch.1.push = true ∧ batch.1.pull = false) ∧
      Ascending batch.2.keys ∧ batch.2.vals.length = batch.2.keys.length ∧ batch.2.lens = [])
    (sliced : List.Forall₂ (fun (batch : Request × KVPairs R) messages =>
      wholeShardMessages (fun rank => firstPushMessage batch.1 (server rank) 1) ranges batch.2 =
        .ok messages) batches sent)
    (anyOrder : delivered.Perm sent.flatten) :
    ∃ stores' : Nat → Nat → R, serveAll server worker customerId delivered stores =
        .ok (stores', delivered.map fun message => (message.2.header.timestamp, false, .empty)) ∧
      clusterStore ranges stores' = fun key => clusterStore ranges stores key +
        pushedSum (batches.flatMap fun batch => batch.2.keys.zip batch.2.vals) key := by
  obtain ⟨served, owned, carried⟩ :=
    firstPushBatches_spec server worker customerId increasing startsAtZero sliced pushes
  refine ⟨_, serveAll_of_adds server worker customerId _ _ delivered stores fun message member =>
    served message (anyOrder.subset member), ?_⟩
  rw [clusterStore_storesAfter stores fun message member => owned message (anyOrder.subset member),
    pushedSum_perm (anyOrder.flatMap_right _), carried]

/-- Two pushes that share key `5`, their messages delivered in reverse order, add both values at
key `5`. -/
theorem pushes_add_to_clusterStore_of_two_batches :
    let ranges : List Range := [⟨0, 4⟩, ⟨4, 8⟩]
    let batches : List (Request × KVPairs ℚ) :=
      [(⟨0, true, false, 0⟩, ⟨[1, 5], [1, 2], []⟩), (⟨1, true, false, 0⟩, ⟨[5, 7], [3, 4], []⟩)]
    ∃ sent : List (List (Nat × Message ℚ)),
      List.Forall₂ (fun (batch : Request × KVPairs ℚ) messages =>
        wholeShardMessages (fun rank => firstPushMessage batch.1 (id rank) 1) ranges batch.2 =
          .ok messages) batches sent ∧
      ∃ stores' : Nat → Nat → ℚ, serveAll id 9 0 sent.flatten.reverse (fun _ _ => 0) =
          .ok (stores', sent.flatten.reverse.map fun message =>
            (message.2.header.timestamp, false, .empty)) ∧
        clusterStore ranges stores' = fun key => 0 +
          pushedSum (batches.flatMap fun batch => batch.2.keys.zip batch.2.vals) key := by
  intro ranges batches
  obtain ⟨first, firstSent⟩ : ∃ messages, wholeShardMessages
      (fun rank => firstPushMessage (⟨0, true, false, 0⟩ : Request) (id rank) 1) ranges
      (⟨[1, 5], [1, 2], []⟩ : KVPairs ℚ) = .ok messages := ⟨_, rfl⟩
  obtain ⟨second, secondSent⟩ : ∃ messages, wholeShardMessages
      (fun rank => firstPushMessage (⟨1, true, false, 0⟩ : Request) (id rank) 1) ranges
      (⟨[5, 7], [3, 4], []⟩ : KVPairs ℚ) = .ok messages := ⟨_, rfl⟩
  have sliced : List.Forall₂ (fun (batch : Request × KVPairs ℚ) messages =>
      wholeShardMessages (fun rank => firstPushMessage batch.1 (id rank) 1) ranges batch.2 =
        .ok messages) batches [first, second] := .cons firstSent (.cons secondSent .nil)
  exact ⟨_, sliced, pushes_add_to_clusterStore id 9 0 (fun _ _ => 0) (by decide)
    (by simp [ranges]) (by decide) sliced (List.reverse_perm _)⟩

end Cluster

end Dgt
