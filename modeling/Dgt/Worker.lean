import Dgt.Run
import Dgt.PullCallback

/-!
# The worker and its request tracker

A `KVWorker` hands out a timestamp per request, registers the request's callback, slices the
batch and sends the non-empty shards; each server that got a shard answers once, and
`Process` counts the answers. The callback runs once the count says every server has
answered, or at once inside `Send` when every shard is empty. For a pull the callback is the
closure `AddPullCB` registers, which reassembles the buffered replies.

The worker is modelled as a labelled transition system over its members and the requests on
the wire. `Send`'s loop over the non-empty shards is split into one step per shard, so the
answers to a request may arrive while `Send` is still sending its later shards, which is the
interleaving the early `AddResponse` of `Send` is there for. Requests are issued one at a
time, as the DGT members are not guarded by the worker's lock.
-/

namespace Dgt

variable {R : Type}

/-! ## Worker state -/

/-- A callback registered for a timestamp. -/
inductive Callback (R : Type)
  /-- The caller's callback, registered by `AddCallback` for a push. -/
  | user
  /-- The closure `AddPullCB` registers: the requested keys, the caller's value and lens
  buffers, and whether the caller passed a callback of its own. -/
  | pull (keys : List Nat) (vals : List R) (lens : Option (List Int)) (hasCallback : Bool)

/-- Whether a callback is the pull closure. -/
def Callback.isPull : Callback R → Bool
  | .user => false
  | .pull .. => true

/-- A shard `Send`'s loop has yet to send: its request, its server rank and the shard. -/
structure Pending (R : Type) where
  /-- The request the shard belongs to. -/
  request : Request
  /-- The server rank `i` of the shard. -/
  rank : Nat
  /-- `sliced[i].second`. -/
  shard : KVPairs R

/-- The worker's members, the requests on the wire, and a record of the callbacks run. -/
structure Worker (R : Type) where
  /-- The DGT members. -/
  dgt : DgtState R
  /-- Modelled from the spec: the request tracker's size, the next timestamp. -/
  requests : Nat
  /-- Modelled from the spec: the responses the tracker counted for each timestamp. -/
  responses : Nat → Nat
  /-- `callbacks_`. -/
  callbacks : Nat → Option (Callback R)
  /-- `recv_kvs_`. -/
  recvKvs : Nat → Option (List (KVPairs R))
  /-- The non-empty shards the running `Send` has yet to send. -/
  outbox : List (Pending R)
  /-- The shards sent and not answered yet: timestamp, server rank, and the request's `pull`
  flag, which the server's response echoes. -/
  awaiting : List (Nat × Nat × Bool)
  /-- The caller's value and lens buffers after each pull callback. -/
  pulled : Nat → Option (List R × Option (List Int))
  /-- The callback each timestamp registered. -/
  registered : Nat → Option (Callback R)
  /-- The timestamps whose registered callback ran, in order. -/
  fired : List Nat
  /-- The timestamps whose caller's callback ran, in order. -/
  userCalls : List Nat
  /-- The messages handed to the transport. -/
  sent : List (Message R × Dispatch)

/-- The responses still owed for a timestamp: its shards not sent yet and those on the wire. -/
def Worker.outstanding (w : Worker R) (ts : Nat) : Nat :=
  w.outbox.countP (fun pending => pending.request.timestamp = ts) +
    w.awaiting.countP (fun entry => entry.1 = ts)

/-- What happens to the worker, for the timestamp it names. -/
inductive Event
  /-- A `ZPush`, `ZPull` or `ZPushPull` that got the timestamp. -/
  | issue (ts : Nat)
  /-- `Send`'s loop sends the shard of a server rank. -/
  | dispatch (ts rank : Nat)
  /-- `Process` of a server's response. -/
  | receive (ts rank : Nat)
  deriving DecidableEq, Repr

section Operations

variable [LinearOrderedField R] [FloorRing R]

/-- A worker just constructed. -/
def Worker.init (cfg : Config R) : Worker R :=
  ⟨DgtState.init cfg, 0, fun _ => 0, fun _ => none, fun _ => none, [], [], fun _ => none,
    fun _ => none, [], [], []⟩

/-- Modelled from the spec: `Customer::NewRequest`, a fresh timestamp whose count starts
at `0`; the timestamp is the tracker's size before the call. -/
def Worker.newRequest (w : Worker R) : Worker R :=
  { w with requests := w.requests + 1 }

/-- Modelled from the spec: `Customer::AddResponse(ts, num)`. -/
def Worker.addResponse (w : Worker R) (ts num : Nat) : Worker R :=
  { w with responses := Function.update w.responses ts (w.responses ts + num) }

/-- `AddCallback(ts, cb)`: a null callback is not registered. -/
def Worker.addCallback (w : Worker R) (ts : Nat) : Option (Callback R) → Worker R
  | none => w
  | some callback =>
      { w with
        callbacks := Function.update w.callbacks ts (some callback)
        registered := Function.update w.registered ts (some callback) }

/-- Running a registered callback: the caller's, or the pull closure over the replies
buffered in `recv_kvs_[ts]`, which fills the caller's buffers, erases `recv_kvs_[ts]` and
calls the caller's callback if there is one. -/
def Worker.runBody (cfg : Config R) (w : Worker R) (ts : Nat) :
    Callback R → Except Fault (Worker R)
  | .user => .ok { w with userCalls := w.userCalls ++ [ts] }
  | .pull keys vals lens hasCallback => do
      let written ← pullCallback cfg.sortReplies keys vals lens ((w.recvKvs ts).getD [])
      return { w with
        pulled := Function.update w.pulled ts (some written)
        recvKvs := Function.update w.recvKvs ts none
        userCalls := if hasCallback then w.userCalls ++ [ts] else w.userCalls }

/-- `RunCallback(ts)`: the callback registered for `ts`, if any, runs and is erased. -/
def Worker.runCallback (cfg : Config R) (w : Worker R) (ts : Nat) : Except Fault (Worker R) :=
  match w.callbacks ts with
  | none => .ok w
  | some callback => do
      let w ← w.runBody cfg ts callback
      return { w with
        callbacks := Function.update w.callbacks ts none
        fired := w.fired ++ [ts] }

/-- `Send` up to its loop: the batch is sliced, the tracker is credited with the empty
shards before any message leaves, the callback runs at once if every shard is empty, and
the non-empty shards are queued for the loop. -/
def Worker.send (cfg : Config R) (w : Worker R) (request : Request) (kvs : KVPairs R) :
    Except Fault (Worker R) := do
  let sliced ← defaultSlicer kvs cfg.ranges
  let skipped := sliced.countP fun shard => !shard.1
  let w := w.addResponse request.timestamp skipped
  let w ← if skipped = sliced.length then w.runCallback cfg request.timestamp else pure w
  return { w with
    outbox := w.outbox ++ (sliced.enum.filter fun entry => entry.2.1).map fun entry =>
      ⟨request, entry.1, entry.2.2⟩ }

/-- `ZPush`: a fresh timestamp, the caller's callback if it passed one, and `Send` of the
batch as a push. -/
def Worker.zpush (cfg : Config R) (w : Worker R) (keys : List Nat) (vals : List R)
    (lens : List Int) (cmd : Int) (hasCallback : Bool) : Except Fault (Worker R) :=
  (w.newRequest.addCallback w.requests (if hasCallback then some .user else none)).send cfg
    ⟨w.requests, true, false, cmd⟩ ⟨keys, vals, lens⟩

/-- `ZPull` (and `Pull`): `AddPullCB` and `Send` of the keys as a pull. -/
def Worker.zpull (cfg : Config R) (w : Worker R) (keys : List Nat) (vals : List R)
    (lens : Option (List Int)) (cmd : Int) (hasCallback : Bool) : Except Fault (Worker R) :=
  (w.newRequest.addCallback w.requests (some (.pull keys vals lens hasCallback))).send cfg
    ⟨w.requests, false, true, cmd⟩ ⟨keys, [], []⟩

/-- `ZPushPull`: `AddPullCB` over the output buffer and `Send` of the batch as a push that
also pulls, with the lens of the lens buffer if there is one. -/
def Worker.zpushPull (cfg : Config R) (w : Worker R) (keys : List Nat) (vals outs : List R)
    (lens : Option (List Int)) (cmd : Int) (hasCallback : Bool) : Except Fault (Worker R) :=
  (w.newRequest.addCallback w.requests (some (.pull keys outs lens hasCallback))).send cfg
    ⟨w.requests, true, true, cmd⟩ ⟨keys, vals, lens.getD []⟩

/-- One iteration of `Send`'s loop: the next shard's messages go out, and its server now
owes a response. -/
def Worker.dispatch (cfg : Config R) (env : Environment R) (w : Worker R) :
    Except Fault (Worker R) :=
  match w.outbox with
  | [] => .ok w
  | pending :: rest => do
      let (dgt, messages) ← sendShard cfg env w.dgt pending.request pending.rank pending.shard
      return { w with
        dgt := dgt
        outbox := rest
        sent := w.sent ++ messages
        awaiting := w.awaiting ++ [(pending.request.timestamp, pending.rank,
          pending.request.pull)] }

/-- `recv_kvs_[ts].push_back(kvs)`. -/
def Worker.buffer (w : Worker R) (ts : Nat) (kvs : KVPairs R) : Worker R :=
  { w with recvKvs := Function.update w.recvKvs ts (some ((w.recvKvs ts).getD [] ++ [kvs])) }

/-- `Process(msg)` of a response to `ts`, followed by the tracker counting it: a pull
response is appended to `recv_kvs_[ts]`, and when the count before this response is
`num_servers() - 1` the callback runs. -/
def Worker.process (cfg : Config R) (w : Worker R) (ts : Nat) (pull : Bool) (kvs : KVPairs R) :
    Except Fault (Worker R) := do
  let w := if pull then w.buffer ts kvs else w
  let w ← if (w.responses ts : Int) = cfg.ranges.length - 1 then w.runCallback cfg ts
    else pure w
  return w.addResponse ts 1

/-- The response of server `rank` to `ts` leaves the wire and is processed. -/
def Worker.receive (cfg : Config R) (w : Worker R) (ts rank : Nat) (pull : Bool)
    (kvs : KVPairs R) : Except Fault (Worker R) :=
  { w with awaiting := w.awaiting.erase (ts, rank, pull) }.process cfg ts pull kvs

/-- `Send`'s loop to its end: the queued shards are dispatched one after the other, each
with what the environment gives it. -/
def Worker.dispatchAll (cfg : Config R) (env : Environment R) :
    Nat → Worker R → Except Fault (Worker R)
  | 0, w => .ok w
  | count + 1, w => w.dispatch cfg env >>= dispatchAll cfg env count

/-- The responses to one request arriving one after the other, each with its server's
rank. -/
def Worker.receiveAll (cfg : Config R) (ts : Nat) (pull : Bool) :
    List (Nat × KVPairs R) → Worker R → Except Fault (Worker R)
  | [], w => .ok w
  | (rank, kvs) :: rest, w => w.receive cfg ts rank pull kvs >>= receiveAll cfg ts pull rest

/-- The worker's transitions, labelled with the timestamp they concern. Requests are issued
while no `Send` is running, and a response arrives only for a shard on the wire. -/
inductive WorkerStep (cfg : Config R) : Worker R → Event → Worker R → Prop
  /-- `ZPush`. -/
  | zpush {w w' : Worker R} (keys : List Nat) (vals : List R) (lens : List Int) (cmd : Int)
      (hasCallback : Bool) (idle : w.outbox = [])
      (issued : w.zpush cfg keys vals lens cmd hasCallback = .ok w') :
      WorkerStep cfg w (.issue w.requests) w'
  /-- `ZPull`. -/
  | zpull {w w' : Worker R} (keys : List Nat) (vals : List R) (lens : Option (List Int))
      (cmd : Int) (hasCallback : Bool) (idle : w.outbox = [])
      (issued : w.zpull cfg keys vals lens cmd hasCallback = .ok w') :
      WorkerStep cfg w (.issue w.requests) w'
  /-- `ZPushPull`. -/
  | zpushPull {w w' : Worker R} (keys : List Nat) (vals outs : List R)
      (lens : Option (List Int)) (cmd : Int) (hasCallback : Bool) (idle : w.outbox = [])
      (issued : w.zpushPull cfg keys vals outs lens cmd hasCallback = .ok w') :
      WorkerStep cfg w (.issue w.requests) w'
  /-- An iteration of `Send`'s loop, with what the environment gives it. -/
  | dispatch {w w' : Worker R} (env : Environment R) (pending : Pending R)
      (rest : List (Pending R)) (next : w.outbox = pending :: rest)
      (sent : w.dispatch cfg env = .ok w') :
      WorkerStep cfg w (.dispatch pending.request.timestamp pending.rank) w'
  /-- A server's response, with whatever it carries. -/
  | receive {w w' : Worker R} (ts rank : Nat) (pull : Bool) (kvs : KVPairs R)
      (onWire : (ts, rank, pull) ∈ w.awaiting)
      (processed : w.receive cfg ts rank pull kvs = .ok w') :
      WorkerStep cfg w (.receive ts rank) w'

/-- The worker states reachable from a worker just constructed. -/
def WorkerReachable (cfg : Config R) (w : Worker R) : Prop :=
  Relation.ReflTransGen (fun w w' => ∃ event, WorkerStep cfg w event w') (Worker.init cfg) w

end Operations

@[simp] theorem Worker.addCallback_requests (w : Worker R) (ts : Nat)
    (callback : Option (Callback R)) : (w.addCallback ts callback).requests = w.requests := by
  cases callback <;> rfl

@[simp] theorem Worker.addCallback_dgt (w : Worker R) (ts : Nat)
    (callback : Option (Callback R)) : (w.addCallback ts callback).dgt = w.dgt := by
  cases callback <;> rfl

/-! ## What the worker records about a timestamp -/

/-- The worker's record of one timestamp. -/
structure TimestampRecord (R : Type) where
  /-- The responses counted. -/
  responses : Nat
  /-- `callbacks_[ts]`. -/
  callback : Option (Callback R)
  /-- The callback registered when the request was issued. -/
  registered : Option (Callback R)
  /-- `recv_kvs_[ts]`. -/
  buffered : Option (List (KVPairs R))
  /-- How often the registered callback ran. -/
  firedCount : Nat
  /-- How often the caller's callback ran. -/
  userCount : Nat
  /-- The responses still owed. -/
  outstanding : Nat

/-- The record of a timestamp not handed out yet. -/
def TimestampRecord.fresh : TimestampRecord R := ⟨0, none, none, none, 0, 0, 0⟩

/-- The worker's record of `ts`. -/
def Worker.recordAt (w : Worker R) (ts : Nat) : TimestampRecord R :=
  ⟨w.responses ts, w.callbacks ts, w.registered ts, w.recvKvs ts, w.fired.count ts,
    w.userCalls.count ts, w.outstanding ts⟩

/-- The tracker invariant of an issued timestamp: one response per server, counted or owed, and
a callback that has run once exactly when none is owed. -/
structure TimestampRecord.Tracked (record : TimestampRecord R) (servers : Nat) : Prop where
  counted : record.responses + record.outstanding = servers
  waiting : 0 < record.outstanding → record.firedCount = 0 ∧ record.callback = record.registered
  done : record.outstanding = 0 → record.callback = none ∧
    record.firedCount = (if record.registered.isSome then 1 else 0) ∧
    ∀ callback, record.registered = some callback → callback.isPull → record.buffered = none

/-- The tracker invariant: every issued timestamp's record is tracked, and every other
timestamp's record is fresh. -/
def Worker.Tracked [LinearOrder R] (cfg : Config R) (w : Worker R) : Prop :=
  ∀ ts, (ts < w.requests → (w.recordAt ts).Tracked cfg.ranges.length) ∧
    (w.requests ≤ ts → w.recordAt ts = .fresh)

/-! ## What each operation does -/

/-- Queuing shards adds the queued ones of each timestamp to what it is owed. -/
theorem Worker.recordAt_queue (w : Worker R) (queued : List (Pending R)) (ts : Nat) :
    ({ w with outbox := w.outbox ++ queued } : Worker R).recordAt ts =
      { w.recordAt ts with
        outstanding := (w.recordAt ts).outstanding +
          queued.countP fun pending => pending.request.timestamp = ts } := by
  simp only [Worker.recordAt, Worker.outstanding, List.countP_append]
  congr 1
  omega

/-- The shards `Send` queues are its slicer's non-empty ones. -/
theorem countP_queued (sliced : List (Bool × KVPairs R)) (request : Request) (ts : Nat) :
    (((sliced.enum.filter fun entry => entry.2.1).map fun entry =>
        (⟨request, entry.1, entry.2.2⟩ : Pending R)).countP
      fun pending => pending.request.timestamp = ts) =
      if request.timestamp = ts then sliced.countP (fun shard => shard.1) else 0 := by
  rw [List.countP_map]
  split_ifs with stamped
  · rw [List.countP_eq_length.mpr fun entry _ => by simp [stamped],
      ← List.countP_eq_length_filter]
    conv_rhs => rw [← List.enum_map_snd sliced]
    rw [List.countP_map]
    rfl
  · simp [stamped]


theorem Worker.recordAt_addResponse (w : Worker R) (ts num other : Nat) :
    (w.addResponse ts num).recordAt other =
      if other = ts then { w.recordAt ts with responses := (w.recordAt ts).responses + num }
      else w.recordAt other := by
  split_ifs with same
  · subst same
    simp [Worker.addResponse, Worker.recordAt, Worker.outstanding]
  · simp [Worker.addResponse, Worker.recordAt, Worker.outstanding, Function.update_noteq same]

theorem Worker.recordAt_buffer (w : Worker R) (ts : Nat) (kvs : KVPairs R) (other : Nat) :
    (w.buffer ts kvs).recordAt other =
      if other = ts then { w.recordAt ts with buffered := (w.buffer ts kvs).recvKvs ts }
      else w.recordAt other := by
  split_ifs with same
  · subst same
    simp [Worker.buffer, Worker.recordAt, Worker.outstanding]
  · simp [Worker.buffer, Worker.recordAt, Worker.outstanding, Function.update_noteq same]

/-- Erasing a member of a list takes it off the count of any predicate. -/
theorem countP_eq_countP_erase {α : Type} [BEq α] [LawfulBEq α] {l : List α} {a : α}
    (member : a ∈ l) (p : α → Bool) : l.countP p = (l.erase a).countP p + if p a then 1 else 0 := by
  induction l with
  | nil => cases member
  | cons b rest inductionHypothesis =>
      rw [List.erase_cons]
      by_cases same : b = a
      · subst same
        simp [List.countP_cons]
      · have later := (List.mem_cons.mp member).resolve_left (Ne.symm same)
        simp only [beq_iff_eq, same, if_false, List.countP_cons, inductionHypothesis later]
        omega

/-- A response leaving the wire is owed no more. -/
theorem Worker.recordAt_erase (w : Worker R) {ts rank : Nat} {pull : Bool}
    (onWire : (ts, rank, pull) ∈ w.awaiting) (other : Nat) :
    ({ w with awaiting := w.awaiting.erase (ts, rank, pull) } : Worker R).recordAt other =
      if other = ts then { w.recordAt ts with outstanding := (w.recordAt ts).outstanding - 1 }
      else w.recordAt other := by
  have owed := countP_eq_countP_erase onWire fun entry => entry.1 = other
  split_ifs with same
  · subst same
    simp at owed
    simp [Worker.recordAt, Worker.outstanding]
    omega
  · simp [Ne.symm same] at owed
    simp [Worker.recordAt, Worker.outstanding, owed]

section Spec

variable [LinearOrderedField R] {cfg : Config R} {w w' : Worker R} {ts : Nat}

/-- What `RunCallback(ts)` does: nothing without a callback; otherwise the callback runs, is
erased and is recorded as run, and the pull closure also erases `recv_kvs_[ts]`. -/
theorem Worker.runCallback_ok (ran : w.runCallback cfg ts = .ok w') :
    (w.callbacks ts = none ∧ w' = w) ∨
      ∃ callback, w.callbacks ts = some callback ∧ ∃ pulled userCalls,
        (userCalls = w.userCalls ∨ userCalls = w.userCalls ++ [ts]) ∧
        w' = { w with
          pulled := pulled
          userCalls := userCalls
          recvKvs := if callback.isPull then Function.update w.recvKvs ts none else w.recvKvs
          callbacks := Function.update w.callbacks ts none
          fired := w.fired ++ [ts] } := by
  unfold Worker.runCallback at ran
  split at ran
  · exact .inl ⟨‹_›, (Except.ok.inj ran).symm⟩
  · rename_i callback registered
    refine .inr ⟨callback, registered, ?_⟩
    obtain ⟨ran', body, finished⟩ := bind_eq_ok.mp ran
    cases finished
    cases callback with
    | user =>
        cases body
        exact ⟨_, _, .inr rfl, rfl⟩
    | pull keys vals lens hasCallback =>
        obtain ⟨written, -, finished⟩ := bind_eq_ok.mp body
        cases finished
        exact ⟨_, _, by split <;> simp, rfl⟩

/-- A timestamp's record across a run of its callback: the callback is gone, it counts as run
if there was one, and a pull closure has erased the buffered replies. -/
structure TimestampRecord.Ran (before after : TimestampRecord R) : Prop where
  responses : after.responses = before.responses
  registered : after.registered = before.registered
  outstanding : after.outstanding = before.outstanding
  callback : after.callback = none
  firedCount : after.firedCount = before.firedCount + if before.callback.isSome then 1 else 0
  erased : ∀ callback, before.callback = some callback → callback.isPull → after.buffered = none

/-- `RunCallback(ts)` runs the callback of `ts` and touches no other timestamp's record. -/
theorem Worker.runCallback_recordAt (ran : w.runCallback cfg ts = .ok w') :
    w'.requests = w.requests ∧ (∀ other, other ≠ ts → w'.recordAt other = w.recordAt other) ∧
      (w.recordAt ts).Ran (w'.recordAt ts) := by
  rcases Worker.runCallback_ok ran with ⟨none, rfl⟩ | ⟨callback, some, pulled, userCalls, users, rfl⟩
  · exact ⟨rfl, fun _ _ => rfl, ⟨rfl, rfl, rfl, none, by simp [Worker.recordAt, none], by
      simp [Worker.recordAt, none]⟩⟩
  · refine ⟨rfl, fun other differs => ?_, ⟨rfl, rfl, rfl, by simp [Worker.recordAt], by
      simp [Worker.recordAt, some], fun c same pull => ?_⟩⟩
    · have buffered : (if callback.isPull then Function.update w.recvKvs ts none
          else w.recvKvs) other = w.recvKvs other := by
        split <;> simp [Function.update_noteq differs]
      rcases users with rfl | rfl <;>
        simp [Worker.recordAt, Worker.outstanding, Function.update_noteq differs,
          List.count_cons, Ne.symm differs, buffered]
    · simp only [Worker.recordAt, some, Option.some.injEq] at same
      subst same
      simp [Worker.recordAt, pull]

/-- `Send` up to its loop when some shard has keys: the skipped shards are credited and the
others queued, one per server rank. -/
theorem Worker.send_of_queued {request : Request} {kvs : KVPairs R}
    {sliced : List (Bool × KVPairs R)} (slicedOk : defaultSlicer kvs cfg.ranges = .ok sliced)
    (queued : sliced.countP (fun shard => !shard.1) ≠ sliced.length) :
    w.send cfg request kvs = .ok { w.addResponse request.timestamp
      (sliced.countP fun shard => !shard.1) with
        outbox := w.outbox ++ (sliced.enum.filter fun entry => entry.2.1).map fun entry =>
          ⟨request, entry.1, entry.2.2⟩ } := by
  simp only [Worker.send, slicedOk, bind, Except.bind, queued, if_false, pure, Except.pure]
  rfl

/-- Issuing a request, `NewRequest`, the callback if any, and `Send` up to its loop, on a
timestamp not handed out yet: the new timestamp's record is tracked, and no other
timestamp's record changes. -/
theorem Worker.issue_recordAt {callback : Option (Callback R)} {request : Request}
    {kvs : KVPairs R} (stamped : request.timestamp = w.requests)
    (fresh : w.recordAt w.requests = .fresh)
    (sent : (w.newRequest.addCallback w.requests callback).send cfg request kvs = .ok w') :
    w'.requests = w.requests + 1 ∧
      (∀ other, other ≠ w.requests → w'.recordAt other = w.recordAt other) ∧
      (w'.recordAt w.requests).Tracked cfg.ranges.length := by
  obtain ⟨sliced, slicedOk, sent⟩ := bind_eq_ok.mp sent
  dsimp only at sent
  set skipped := sliced.countP fun shard => !shard.1
  set credited := (w.newRequest.addCallback w.requests callback).addResponse request.timestamp
    skipped
  have creditedAt : credited.recordAt w.requests =
      ⟨skipped, callback, callback, none, 0, 0, 0⟩ := by
    simp only [TimestampRecord.fresh, Worker.recordAt, Worker.outstanding,
      TimestampRecord.mk.injEq] at fresh
    cases callback <;> simp [credited, Worker.recordAt, Worker.outstanding, Worker.addResponse,
      Worker.addCallback, Worker.newRequest, stamped, fresh]
  have creditedOther (other : Nat) (differs : other ≠ w.requests) :
      credited.recordAt other = w.recordAt other := by
    cases callback <;> simp [credited, Worker.recordAt, Worker.outstanding, Worker.addResponse,
      Worker.addCallback, Worker.newRequest, stamped, Function.update_noteq differs]
  have total : sliced.countP (fun shard => shard.1) + skipped = cfg.ranges.length :=
    defaultSlicer_countP_add slicedOk
  have creditedRequests : credited.requests = w.requests + 1 := by
    simp [credited, Worker.addResponse, Worker.newRequest]
  have queuedAt (ran : Worker R) (ts : Nat) :
      ((((sliced.enum.filter fun entry => entry.2.1).map fun entry =>
          (⟨request, entry.1, entry.2.2⟩ : Pending R)).countP
        fun pending => pending.request.timestamp = ts)) =
        if w.requests = ts then sliced.countP (fun shard => shard.1) else 0 := by
    rw [countP_queued, stamped]
  split_ifs at sent with allSkipped
  · obtain ⟨ran, runOk, finished⟩ := bind_eq_ok.mp sent
    cases finished
    rw [stamped] at runOk
    obtain ⟨requests, others, ranRecord⟩ := Worker.runCallback_recordAt runOk
    rw [creditedAt] at ranRecord
    have noneQueued : sliced.countP (fun shard => shard.1) = 0 := by
      rw [defaultSlicer_length slicedOk] at allSkipped
      omega
    refine ⟨by rw [requests, creditedRequests], fun other differs => ?_, ?_⟩
    · rw [Worker.recordAt_queue, queuedAt ran, if_neg (Ne.symm differs), Nat.add_zero,
        others other differs, creditedOther other differs]
    · rw [Worker.recordAt_queue, queuedAt ran, if_pos rfl, noneQueued, Nat.add_zero]
      refine ⟨?_, fun owed => absurd owed (by simp [ranRecord.outstanding]), fun _ =>
        ⟨ranRecord.callback, ?_, fun c registered pull =>
          ranRecord.erased c (by simpa only [ranRecord.registered] using registered) pull⟩⟩
      · simp only [ranRecord.responses, ranRecord.outstanding]
        omega
      · simp [ranRecord.firedCount, ranRecord.registered]
  · obtain ⟨ran, runOk, finished⟩ := bind_eq_ok.mp sent
    cases runOk
    cases finished
    have owed : 0 < sliced.countP fun shard => shard.1 := by
      rw [defaultSlicer_length slicedOk] at allSkipped
      omega
    refine ⟨creditedRequests, fun other differs => ?_, ?_⟩
    · rw [Worker.recordAt_queue, queuedAt credited, if_neg (Ne.symm differs), Nat.add_zero,
        creditedOther other differs]
    · rw [Worker.recordAt_queue, queuedAt credited, if_pos rfl, creditedAt]
      exact ⟨by simp only; omega, fun _ => ⟨rfl, rfl⟩, fun none => by simp only at none; omega⟩

/-- An iteration of `Send`'s loop moves a shard from the queue to the wire: every record
stays. -/
theorem Worker.dispatch_recordAt [FloorRing R] {env : Environment R}
    (sent : w.dispatch cfg env = .ok w') :
    w'.requests = w.requests ∧ ∀ ts, w'.recordAt ts = w.recordAt ts := by
  unfold Worker.dispatch at sent
  split at sent
  · cases sent
    exact ⟨rfl, fun _ => rfl⟩
  · rename_i pending rest queue
    obtain ⟨⟨dgt, messages⟩, -, finished⟩ := bind_eq_ok.mp sent
    cases finished
    refine ⟨rfl, fun ts => ?_⟩
    simp only [Worker.recordAt, Worker.outstanding, queue, List.countP_cons, List.countP_append,
      List.countP_nil]
    congr 1
    omega

/-- `Process` of a response to `ts`, with the tracker's count: the record of `ts` counts one
more response, and the callback runs if the count before it was `num_servers() - 1`. No
other record changes. -/
theorem Worker.process_recordAt {pull : Bool} {kvs : KVPairs R}
    (processed : w.process cfg ts pull kvs = .ok w') :
    w'.requests = w.requests ∧ (∀ other, other ≠ ts → w'.recordAt other = w.recordAt other) ∧
      (w'.recordAt ts).responses = (w.recordAt ts).responses + 1 ∧
      (w'.recordAt ts).outstanding = (w.recordAt ts).outstanding ∧
      (w'.recordAt ts).registered = (w.recordAt ts).registered ∧
      if ((w.recordAt ts).responses : Int) = cfg.ranges.length - 1 then
        (w'.recordAt ts).callback = none ∧
          (w'.recordAt ts).firedCount =
            (w.recordAt ts).firedCount + (if (w.recordAt ts).callback.isSome then 1 else 0) ∧
          ∀ callback, (w.recordAt ts).callback = some callback → callback.isPull →
            (w'.recordAt ts).buffered = none
      else (w'.recordAt ts).callback = (w.recordAt ts).callback ∧
        (w'.recordAt ts).firedCount = (w.recordAt ts).firedCount := by
  unfold Worker.process at processed
  dsimp only at processed
  generalize bufferedEq : (if pull then w.buffer ts kvs else w) = buffered at processed
  have bufferedAt (other : Nat) : buffered.recordAt other = if other = ts then
      { w.recordAt ts with buffered := buffered.recvKvs ts } else w.recordAt other := by
    subst bufferedEq
    split
    · exact Worker.recordAt_buffer w ts kvs other
    · split_ifs with same
      · subst same
        rfl
      · rfl
  obtain ⟨bufferedResponses, bufferedRequests⟩ :
      buffered.responses = w.responses ∧ buffered.requests = w.requests := by
    subst bufferedEq
    split <;> exact ⟨rfl, rfl⟩
  rw [bufferedResponses] at processed
  have countedBefore : (w.recordAt ts).responses = w.responses ts := rfl
  rw [countedBefore]
  by_cases last : (w.responses ts : Int) = cfg.ranges.length - 1
  · rw [if_pos last] at processed ⊢
    obtain ⟨ran, runOk, finished⟩ := bind_eq_ok.mp processed
    cases finished
    obtain ⟨requests, others, ranRecord⟩ := Worker.runCallback_recordAt runOk
    rw [bufferedAt, if_pos rfl] at ranRecord
    simp only [Worker.recordAt_addResponse, eq_self_iff_true, if_true]
    refine ⟨by simp [Worker.addResponse, requests, bufferedRequests], fun other differs => ?_,
      congrArg (· + 1) ranRecord.responses, ranRecord.outstanding, ranRecord.registered,
      ranRecord.callback, ranRecord.firedCount, ranRecord.erased⟩
    rw [if_neg differs, others other differs, bufferedAt, if_neg differs]
  · rw [if_neg last] at processed ⊢
    obtain ⟨ran, runOk, finished⟩ := bind_eq_ok.mp processed
    cases runOk
    cases finished
    simp only [Worker.recordAt_addResponse, eq_self_iff_true, if_true]
    refine ⟨by simp [Worker.addResponse, bufferedRequests], fun other differs => ?_, ?_⟩
    · rw [if_neg differs, bufferedAt, if_neg differs]
    · rw [bufferedAt, if_pos rfl]
      exact ⟨rfl, rfl, rfl, rfl, rfl⟩

/-- The response of a server to `ts` that was on the wire keeps the record of `ts` tracked:
it is counted, owed no more, and runs the callback if it was the last one owed. No other
record changes. -/
theorem Worker.receive_tracked {rank : Nat} {pull : Bool} {kvs : KVPairs R}
    (onWire : (ts, rank, pull) ∈ w.awaiting) (tracked : (w.recordAt ts).Tracked cfg.ranges.length)
    (received : w.receive cfg ts rank pull kvs = .ok w') :
    w'.requests = w.requests ∧ (∀ other, other ≠ ts → w'.recordAt other = w.recordAt other) ∧
      (w'.recordAt ts).Tracked cfg.ranges.length := by
  obtain ⟨requests, others, responses, outstanding, registered, fires⟩ :=
    Worker.process_recordAt received
  have erasedAt := Worker.recordAt_erase w onWire
  simp only [erasedAt, eq_self_iff_true, if_true] at responses outstanding registered fires
  have owed : 0 < (w.recordAt ts).outstanding := by
    have := countP_eq_countP_erase onWire fun entry => entry.1 = ts
    simp at this
    simp only [Worker.recordAt, Worker.outstanding]
    omega
  have counted := tracked.counted
  have waiting := tracked.waiting owed
  refine ⟨requests, fun other differs => by rw [others other differs, erasedAt, if_neg differs],
    ⟨by omega, fun stillOwed => ?_, fun noneOwed => ?_⟩⟩
  · split at fires
    · omega
    · exact ⟨by rw [fires.2, waiting.1], by rw [fires.1, registered, waiting.2]⟩
  · split at fires
    · refine ⟨fires.1, by simp [fires.2.1, waiting.1, registered, waiting.2], fun c given pull =>
        fires.2.2 c (by rwa [waiting.2, ← registered]) pull⟩
    · omega

end Spec

theorem Worker.runCallback_dgt [LinearOrderedField R] {cfg : Config R} {w w' : Worker R}
    {ts : Nat} (ran : w.runCallback cfg ts = .ok w') : w'.dgt = w.dgt := by
  rcases Worker.runCallback_ok ran with ⟨-, rfl⟩ | ⟨_, -, _, _, -, rfl⟩ <;> rfl

theorem Worker.send_dgt [LinearOrderedField R] {cfg : Config R} {w w' : Worker R}
    {request : Request} {kvs : KVPairs R} (sent : w.send cfg request kvs = .ok w') :
    w'.dgt = w.dgt := by
  obtain ⟨sliced, -, sent⟩ := bind_eq_ok.mp sent
  dsimp only at sent
  split_ifs at sent
  · obtain ⟨ran, runOk, finished⟩ := bind_eq_ok.mp sent
    cases finished
    have kept := Worker.runCallback_dgt runOk
    exact kept
  · obtain ⟨ran, runOk, finished⟩ := bind_eq_ok.mp sent
    cases runOk
    cases finished
    rfl

theorem Worker.process_dgt [LinearOrderedField R] {cfg : Config R} {w w' : Worker R}
    {ts : Nat} {pull : Bool} {kvs : KVPairs R} (processed : w.process cfg ts pull kvs = .ok w') :
    w'.dgt = w.dgt := by
  unfold Worker.process at processed
  dsimp only at processed
  generalize bufferedEq : (if pull then w.buffer ts kvs else w) = buffered at processed
  have bufferedDgt : buffered.dgt = w.dgt := by
    subst bufferedEq
    split <;> rfl
  split_ifs at processed
  · obtain ⟨ran, runOk, finished⟩ := bind_eq_ok.mp processed
    cases finished
    exact (Worker.runCallback_dgt runOk).trans bufferedDgt
  · obtain ⟨ran, runOk, finished⟩ := bind_eq_ok.mp processed
    cases runOk
    cases finished
    exact bufferedDgt

/-- A shard's send keeps the DGT members reachable: a step boundary, possibly, then a first
push, which changes nothing, or a block push; a pull changes nothing. -/
theorem sendShard_reachable [LinearOrderedField R] [FloorRing R] {cfg : Config R}
    {env : Environment R} {st st' : DgtState R} {request : Request} {rank : Nat}
    {shard : KVPairs R} {messages : List (Message R × Dispatch)}
    (reachable : DgtReachable cfg st)
    (sent : sendShard cfg env st request rank shard = .ok (st', messages)) :
    DgtReachable cfg st' := by
  unfold sendShard at sent
  dsimp only at sent
  split at sent
  · obtain ⟨refreshed, refreshedReachable, sent⟩ : ∃ refreshed, DgtReachable cfg refreshed ∧
        (if refreshed.pushOpNum = 1 then
          pure (refreshed, [(firstPushMessage request (cfg.serverRankToId rank)
            refreshed.pushOpNum shard, Dispatch.reliable)])
        else blockPush cfg env refreshed request (cfg.serverRankToId rank) shard) =
          .ok (st', messages) := by
      split at sent
      · obtain ⟨refreshed, boundary, sent⟩ := bind_eq_ok.mp sent
        exact ⟨refreshed, reachable.tail (DgtStep.boundary _ boundary), sent⟩
      · obtain ⟨refreshed, boundary, sent⟩ := bind_eq_ok.mp sent
        cases boundary
        exact ⟨_, reachable, sent⟩
    split at sent
    · cases sent
      exact refreshedReachable
    · exact refreshedReachable.tail (DgtStep.blockPush _ _ _ _ _ sent)
  · cases sent
    exact reachable

/-! ## Runs of the worker -/

/-- The timestamps whose record an event may change; a dispatch changes none. -/
def Event.changes : Event → Nat → Bool
  | .issue ts, other => ts == other
  | .dispatch .., _ => false
  | .receive ts _, other => ts == other

theorem Worker.init_tracked [LinearOrderedField R] (cfg : Config R) : (Worker.init cfg).Tracked cfg :=
  fun _ => ⟨fun below => absurd below (Nat.not_lt_zero _), fun _ => rfl⟩

/-- The invariant carries over a change of one timestamp's record, when that timestamp is
issued afterwards and the tracker grew by at most that timestamp. -/
theorem Worker.Tracked.of_frame [LinearOrder R] {cfg : Config R} {w w' : Worker R}
    (tracked : w.Tracked cfg) (own : Nat)
    (requests : w'.requests = w.requests ∨ (own = w.requests ∧ w'.requests = w.requests + 1))
    (others : ∀ other, other ≠ own → w'.recordAt other = w.recordAt other)
    (issued : own < w'.requests) (ownTracked : (w'.recordAt own).Tracked cfg.ranges.length) :
    w'.Tracked cfg := by
  intro ts
  by_cases same : ts = own
  · subst same
    exact ⟨fun _ => ownTracked, fun above => absurd issued (Nat.not_lt.mpr above)⟩
  · rw [others ts same]
    obtain ⟨before, after⟩ := tracked ts
    rcases requests with kept | ⟨rfl, grown⟩
    · rw [kept]
      exact ⟨before, after⟩
    · rw [grown]
      exact ⟨fun below => before (by omega), fun above => after (by omega)⟩

/-- A tracked record has run its callback at most once. -/
theorem TimestampRecord.Tracked.firedCount_le {record : TimestampRecord R} {servers : Nat}
    (tracked : record.Tracked servers) : record.firedCount ≤ 1 := by
  by_cases owed : 0 < record.outstanding
  · rw [(tracked.waiting owed).1]
    exact Nat.zero_le 1
  · rw [(tracked.done (by omega)).2.1]
    split <;> omega

section Runs

variable [LinearOrderedField R] [FloorRing R] {cfg : Config R} {w w' : Worker R}

/-- One step keeps the tracker invariant, and changes only the record of the timestamp its
event names. -/
theorem WorkerStep.spec {event : Event} (tracked : w.Tracked cfg)
    (step : WorkerStep cfg w event w') :
    w'.Tracked cfg ∧ ∀ ts, event.changes ts = false → w'.recordAt ts = w.recordAt ts := by
  have fresh := (tracked w.requests).2 le_rfl
  cases step with
  | zpush _ _ _ _ _ _ issued | zpull _ _ _ _ _ _ issued | zpushPull _ _ _ _ _ _ _ issued =>
      obtain ⟨requests, others, own⟩ := Worker.issue_recordAt rfl fresh issued
      exact ⟨tracked.of_frame _ (.inr ⟨rfl, requests⟩) others (by omega) own,
        fun ts unchanged => others ts fun same => by simp [Event.changes, same] at unchanged⟩
  | dispatch env pending rest next sent =>
      obtain ⟨requests, records⟩ := Worker.dispatch_recordAt sent
      exact ⟨fun ts => by rw [records ts, requests]; exact tracked ts, fun ts _ => records ts⟩
  | receive ts rank pull kvs onWire received =>
      have owed : 0 < (w.recordAt ts).outstanding := by
        have := countP_eq_countP_erase onWire fun entry => entry.1 = ts
        simp at this
        simp only [Worker.recordAt, Worker.outstanding]
        omega
      have issued : ts < w.requests := by
        by_contra above
        have isFresh := (tracked ts).2 (Nat.not_lt.mp above)
        rw [isFresh] at owed
        exact absurd owed (Nat.lt_irrefl 0)
      obtain ⟨requests, others, own⟩ :=
        Worker.receive_tracked onWire ((tracked ts).1 issued) received
      exact ⟨tracked.of_frame ts (.inl requests) others (requests ▸ issued) own,
        fun other unchanged => others other fun same => by simp [Event.changes, same] at unchanged⟩

theorem WorkerReachable.tracked (reachable : WorkerReachable cfg w) : w.Tracked cfg := by
  induction reachable with
  | refl => exact Worker.init_tracked cfg
  | tail _ step tracked =>
      obtain ⟨_, step⟩ := step
      exact (step.spec tracked).1

/-- A callback runs once, at its own issue or at the last response it waits for, and leaves
nothing behind in `callbacks_` or `recv_kvs_`. -/
theorem callback_runs_once (reachable : WorkerReachable cfg w) (ts : Nat) :
    w.fired.count ts ≤ 1 ∧
      (ts < w.requests → w.outstanding ts = 0 →
        (ts ∈ w.fired ↔ w.registered ts ≠ none) ∧ w.callbacks ts = none ∧
        ∀ callback, w.registered ts = some callback → callback.isPull → w.recvKvs ts = none) ∧
      ∀ event w', WorkerStep cfg w event w' → ts ∉ w.fired → ts ∈ w'.fired →
        w'.outstanding ts = 0 ∧ (event = .issue ts ∨ ∃ rank, event = .receive ts rank) := by
  have tracked := reachable.tracked
  refine ⟨?_, fun issued nothingOwed => ?_, fun event w' step notBefore firedAfter => ?_⟩
  · by_cases issued : ts < w.requests
    · exact ((tracked ts).1 issued).firedCount_le
    · have fresh := congrArg TimestampRecord.firedCount ((tracked ts).2 (by omega))
      exact fresh.le.trans (Nat.zero_le 1)
  · obtain ⟨noCallback, firedCount, erased⟩ := ((tracked ts).1 issued).done nothingOwed
    refine ⟨?_, noCallback, erased⟩
    rw [← List.count_pos_iff]
    change 0 < (w.recordAt ts).firedCount ↔ (w.recordAt ts).registered ≠ none
    rw [firedCount]
    cases (w.recordAt ts).registered <;> simp
  · obtain ⟨trackedAfter, unchanged⟩ := step.spec tracked
    have firedBefore : (w.recordAt ts).firedCount = 0 := List.count_eq_zero.mpr notBefore
    have firedNow : 0 < (w'.recordAt ts).firedCount := List.count_pos_iff.mpr firedAfter
    have changes : event.changes ts = true := by
      by_contra kept
      rw [unchanged ts (by simpa using kept), firedBefore] at firedNow
      exact absurd firedNow (Nat.lt_irrefl 0)
    have issued : ts < w'.requests := by
      by_contra above
      rw [(trackedAfter ts).2 (by omega)] at firedNow
      exact absurd firedNow (Nat.lt_irrefl 0)
    refine ⟨Nat.eq_zero_of_not_pos fun owed => ?_, ?_⟩
    · rw [(((trackedAfter ts).1 issued).waiting owed).1] at firedNow
      exact absurd firedNow (Nat.lt_irrefl 0)
    · cases event with
      | issue other => exact .inl (by simpa [Event.changes] using changes)
      | dispatch => simp [Event.changes] at changes
      | receive other rank => exact .inr ⟨rank, by simpa [Event.changes] using changes⟩

/-- A pull of key `1` from a worker just constructed, on one server range: the step that takes
in the server's response fires timestamp `0`. -/
theorem callback_runs_once_at_pull_response :
    let cfg : Config ℚ := Config.defaults [⟨0, keySpace⟩] id
    ∃ w w', WorkerReachable cfg w ∧ WorkerStep cfg w (.receive 0 0) w' ∧ 0 ∉ w.fired ∧
      0 ∈ w'.fired ∧
      (w.fired.count 0 ≤ 1 ∧
        (0 < w.requests → w.outstanding 0 = 0 →
          (0 ∈ w.fired ↔ w.registered 0 ≠ none) ∧ w.callbacks 0 = none ∧
          ∀ callback, w.registered 0 = some callback → callback.isPull → w.recvKvs 0 = none) ∧
        ∀ event w', WorkerStep cfg w event w' → 0 ∉ w.fired → 0 ∈ w'.fired →
          w'.outstanding 0 = 0 ∧ (event = .issue 0 ∨ ∃ rank, event = .receive 0 rank)) := by
  intro cfg
  obtain ⟨issued, w, w', issuedOk, queued, sentOk, awaiting, receivedOk, notFired, fired⟩ :
      ∃ issued w w', (Worker.init cfg).zpull cfg [1] [] none 0 true = .ok issued ∧
        issued.outbox = [⟨⟨0, false, true, 0⟩, 0, ⟨[1], [], []⟩⟩] ∧
        issued.dispatch cfg ⟨0, fun _ => 0⟩ = .ok w ∧ w.awaiting = [(0, 0, true)] ∧
        w.receive cfg 0 0 true ⟨[1], [7], []⟩ = .ok w' ∧ 0 ∉ w.fired ∧ 0 ∈ w'.fired :=
    ⟨_, _, _, rfl, rfl, rfl, rfl, rfl, by decide, by decide⟩
  have reachable : WorkerReachable cfg w :=
    (Relation.ReflTransGen.single ⟨_, .zpull [1] [] none 0 true rfl issuedOk⟩).tail
      ⟨_, .dispatch _ _ _ queued sentOk⟩
  exact ⟨w, w', reachable, .receive 0 0 true _ (awaiting ▸ List.mem_singleton_self _) receivedOk,
    notFired, fired, callback_runs_once reachable 0⟩

/-- The worker's DGT members are reachable by the DGT steps alone: the worker model refines
the model of the DGT state that the block-push results are proved over. -/
theorem WorkerReachable.dgt (reachable : WorkerReachable cfg w) : DgtReachable cfg w.dgt := by
  induction reachable with
  | refl => exact Relation.ReflTransGen.refl
  | tail _ step dgtReachable =>
      obtain ⟨_, step⟩ := step
      cases step with
      | zpush _ _ _ _ _ _ issued | zpull _ _ _ _ _ _ issued | zpushPull _ _ _ _ _ _ _ issued =>
          rw [Worker.send_dgt issued, Worker.addCallback_dgt]
          exact dgtReachable
      | dispatch env pending rest next sent =>
          unfold Worker.dispatch at sent
          rw [next] at sent
          obtain ⟨⟨dgt, messages⟩, shardSent, finished⟩ := bind_eq_ok.mp sent
          cases finished
          exact sendShard_reachable dgtReachable shardSent
      | receive ts rank pull kvs onWire received =>
          rw [Worker.process_dgt received]
          exact dgtReachable

end Runs

/-! ## A pull from its issue to its callback -/

section Pull

variable [LinearOrderedField R] {cfg : Config R}

/-- The responses to a pull arriving one after the other, the last of them as the count
reaches the servers: the closure runs once, at the last response, over everything buffered. -/
theorem Worker.receiveAll_fires {keys : List Nat} {vals : List R} {lens : Option (List Int)}
    {hasCallback : Bool} {written : List R × Option (List Int)} (ts : Nat) :
    ∀ (arrivals : List (Nat × KVPairs R)) (w : Worker R), arrivals ≠ [] →
      w.responses ts + arrivals.length = cfg.ranges.length →
      w.callbacks ts = some (.pull keys vals lens hasCallback) →
      pullCallback cfg.sortReplies keys vals lens
        ((w.recvKvs ts).getD [] ++ arrivals.map Prod.snd) = .ok written →
      ∃ w', w.receiveAll cfg ts true arrivals = .ok w' ∧ w'.pulled ts = some written ∧
        w'.recvKvs ts = none ∧ w'.callbacks ts = none ∧
        w'.fired.count ts = w.fired.count ts + 1 ∧
        w'.userCalls.count ts = w.userCalls.count ts + if hasCallback then 1 else 0
  | [], _, nonempty, _, _, _ => absurd rfl nonempty
  | [(rank, kvs)], w, _, counted, closure, pullOk => by
      have last : (w.responses ts : Int) = cfg.ranges.length - 1 := by
        simp only [List.length_singleton] at counted
        omega
      simp only [List.map_cons, List.map_nil] at pullOk
      simp only [Worker.receiveAll, Worker.receive, Worker.process, Worker.buffer, if_true,
        Function.update_same, Option.getD_some, last, Worker.runCallback, closure,
        Worker.runBody, pullOk, bind, Except.bind, pure, Except.pure]
      refine ⟨_, rfl, ?_⟩
      cases hasCallback <;> simp [Worker.addResponse]
  | (rank, kvs) :: next :: rest, w, _, counted, closure, pullOk => by
      have notLast : ¬(w.responses ts : Int) = cfg.ranges.length - 1 := by
        simp only [List.length_cons] at counted
        omega
      rw [Worker.receiveAll]
      simp only [Worker.receive, Worker.process, Worker.buffer, if_true, notLast, if_false, bind,
        Except.bind, pure, Except.pure]
      have later := Worker.receiveAll_fires ts (next :: rest)
        ((({ w with awaiting := w.awaiting.erase (ts, rank, true) } : Worker R).buffer ts
          kvs).addResponse ts 1) (List.cons_ne_nil _ _)
        (by simp only [Worker.addResponse, Worker.buffer, Function.update_same,
          List.length_cons] at counted ⊢; omega)
        (by simpa [Worker.addResponse, Worker.buffer] using closure)
        (by simpa [Worker.addResponse, Worker.buffer] using pullOk)
      simpa [Worker.addResponse, Worker.buffer] using later

variable [FloorRing R]

/-- Sending pull requests changes nothing the pull callbacks read or write. -/
theorem Worker.dispatchAll_pulls (env : Environment R) (count : Nat) :
    ∀ w : Worker R, (∀ pending ∈ w.outbox, pending.request.push = false) →
      ∃ w', w.dispatchAll cfg env count = .ok w' ∧ w'.callbacks = w.callbacks ∧
        w'.recvKvs = w.recvKvs ∧ w'.responses = w.responses ∧ w'.fired = w.fired ∧
        w'.userCalls = w.userCalls := by
  induction count with
  | zero => exact fun w _ => ⟨w, rfl, rfl, rfl, rfl, rfl, rfl⟩
  | succ count inductionHypothesis =>
      intro w pulls
      obtain ⟨sent, dispatched, sentPulls, same⟩ : ∃ sent : Worker R,
          w.dispatch cfg env = .ok sent ∧ (∀ pending ∈ sent.outbox, pending.request.push = false) ∧
          sent.callbacks = w.callbacks ∧ sent.recvKvs = w.recvKvs ∧
          sent.responses = w.responses ∧ sent.fired = w.fired ∧ sent.userCalls = w.userCalls := by
        cases queue : w.outbox with
        | nil => exact ⟨w, by rw [Worker.dispatch, queue], by simp [queue], rfl, rfl, rfl, rfl, rfl⟩
        | cons pending rest =>
            have pull := pulls pending (by simp [queue])
            have dispatched : w.dispatch cfg env = .ok { w with
                outbox := rest
                sent := w.sent ++ [(pullMessage pending.request (cfg.serverRankToId pending.rank)
                  pending.shard, .reliable)]
                awaiting := w.awaiting ++ [(pending.request.timestamp, pending.rank,
                  pending.request.pull)] } := by
              rw [Worker.dispatch, queue]
              simp [sendShard, pull]
            exact ⟨_, dispatched, fun other member => pulls other (by simp [queue, member]),
              rfl, rfl, rfl, rfl, rfl⟩
      obtain ⟨w', rest, callbacks, recvKvs, responses, fired, userCalls⟩ :=
        inductionHypothesis sent sentPulls
      exact ⟨w', by rw [Worker.dispatchAll, dispatched]; exact rest, callbacks.trans same.1,
        recvKvs.trans same.2.1, responses.trans same.2.2.1, fired.trans same.2.2.2.1,
        userCalls.trans same.2.2.2.2⟩

/-- A pull reassembles its values in the order of the keys whatever the order of its replies,
and its callback runs once. -/
theorem zpull_reassembles_in_any_order {w : Worker R} (reachable : WorkerReachable cfg w)
    (idle : w.outbox = []) {keys : List Nat} {vals : List R} {lens : Option (List Int)}
    (cmd : Int) (hasCallback : Bool) {sliced : List (Bool × KVPairs R)}
    {answers : List (KVPairs R)} {arrivals : List (Nat × KVPairs R)} (env : Environment R)
    (ascending : Ascending keys)
    (startsAtZero : ∀ range ∈ cfg.ranges.head?, range.beginKey = 0)
    (endsBelow : ∀ range ∈ cfg.ranges, range.endKey ≤ keySpace - 1)
    (slicedOk : defaultSlicer (⟨keys, [], []⟩ : KVPairs R) cfg.ranges = .ok sliced)
    (answered : answers.map KVPairs.keys = (sliced.filter Prod.fst).map fun shard => shard.2.keys)
    (lensPerKey : lens.isSome → ∀ answer ∈ answers, answer.lens.length = answer.keys.length)
    (valsBuffer : vals = [] ∨ vals.length = (answers.map fun answer => answer.vals.length).sum)
    (lensBuffer : ∀ buffer ∈ lens, buffer = [] ∨ buffer.length = keys.length)
    (arrival : arrivals.Perm
      (((sliced.enum.filter fun entry => entry.2.1).map Prod.fst).zip answers)) :
    ∃ w', (w.zpull cfg keys vals lens cmd hasCallback >>= Worker.dispatchAll cfg env arrivals.length
        >>= Worker.receiveAll cfg w.requests true arrivals) = .ok w' ∧
      w'.pulled w.requests = some ((answers.map KVPairs.vals).flatten,
        lens.map fun _ => (answers.map KVPairs.lens).flatten) ∧
      w'.recvKvs w.requests = none ∧ w'.callbacks w.requests = none ∧
      w'.fired.count w.requests = 1 ∧
      w'.userCalls.count w.requests = if hasCallback then 1 else 0 := by
  have fresh := (reachable.tracked w.requests).2 le_rfl
  simp only [TimestampRecord.fresh, Worker.recordAt, TimestampRecord.mk.injEq] at fresh
  obtain ⟨noResponses, noCallback, -, noBuffer, notFired, noUserCall, -⟩ := fresh
  have answersLength : answers.length = sliced.countP (fun shard => shard.1) := by
    rw [List.countP_eq_length_filter, ← List.length_map answers KVPairs.keys, answered,
      List.length_map]
  have ranksLength : ((sliced.enum.filter fun entry => entry.2.1).map Prod.fst).length =
      sliced.countP (fun shard => shard.1) := by
    rw [List.length_map, ← List.countP_eq_length_filter]
    conv_rhs => rw [← List.enum_map_snd sliced]
    rw [List.countP_map]
    rfl
  have replies : (arrivals.map Prod.snd).Perm answers := by
    have := arrival.map Prod.snd
    rwa [List.map_snd_zip _ _ (by omega)] at this
  have arrivalsLength : arrivals.length = sliced.countP (fun shard => shard.1) := by
    rw [arrival.length_eq, List.length_zip, ranksLength, answersLength, Nat.min_self]
  have written := pullCallback_reassembles cfg.sortReplies ascending startsAtZero endsBelow
    slicedOk answered lensPerKey valsBuffer lensBuffer replies
  have total := defaultSlicer_countP_add slicedOk
  have skippedIff : sliced.countP (fun shard => !shard.1) = sliced.length ↔ arrivals = [] := by
    rw [← List.length_eq_zero, arrivalsLength, defaultSlicer_length slicedOk]
    omega
  by_cases noArrivals : arrivals = []
  · have allSkipped := skippedIff.mpr noArrivals
    subst noArrivals
    simp only [List.map_nil] at written
    cases hasCallback <;>
      simp [Worker.zpull, Worker.send, slicedOk, allSkipped, Worker.runCallback, Worker.runBody,
        Worker.addCallback, Worker.addResponse, Worker.newRequest, noBuffer, written,
        Worker.dispatchAll, Worker.receiveAll, bind, Except.bind, pure, Except.pure, idle, notFired,
        noUserCall]
  · have allSkipped := mt skippedIff.mp noArrivals
    obtain ⟨credited, issued, pulls, closure, unbuffered, credit, sameFired, sameUserCalls⟩ :
        ∃ credited : Worker R, w.zpull cfg keys vals lens cmd hasCallback = .ok credited ∧
          (∀ pending ∈ credited.outbox, pending.request.push = false) ∧
          credited.callbacks w.requests = some (.pull keys vals lens hasCallback) ∧
          credited.recvKvs w.requests = none ∧
          credited.responses w.requests = sliced.countP (fun shard => !shard.1) ∧
          credited.fired = w.fired ∧ credited.userCalls = w.userCalls := by
      refine ⟨_, Worker.send_of_queued slicedOk allSkipped, fun pending member => ?_,
        by simp [Worker.addResponse, Worker.addCallback],
        by simpa [Worker.addResponse, Worker.addCallback] using noBuffer,
        by simp [Worker.addResponse, Worker.addCallback, Worker.newRequest, noResponses], rfl, rfl⟩
      simp only [Worker.addResponse, Worker.addCallback, Worker.newRequest, idle, List.nil_append,
        List.mem_map] at member
      obtain ⟨entry, -, rfl⟩ := member
      rfl
    obtain ⟨dispatched, dispatchedOk, callbacks, recvKvs, responses, fired, userCalls⟩ :=
      (Worker.dispatchAll_pulls env arrivals.length credited pulls :
        ∃ w', credited.dispatchAll cfg env arrivals.length = .ok w' ∧ _)
    have pullOk : pullCallback cfg.sortReplies keys vals lens
        ((dispatched.recvKvs w.requests).getD [] ++ arrivals.map Prod.snd) =
          .ok ((answers.map KVPairs.vals).flatten,
            lens.map fun _ => (answers.map KVPairs.lens).flatten) := by
      rw [recvKvs, unbuffered]
      simpa using written
    obtain ⟨received, receivedOk, pulled, erased, cleared, firedOnce, calledBack⟩ :=
      Worker.receiveAll_fires w.requests arrivals dispatched noArrivals
        (by rw [responses, credit]; omega) (by rw [callbacks, closure]) pullOk
    refine ⟨received, ?_, pulled, erased, cleared, ?_, ?_⟩
    · rw [issued]
      simp only [bind, Except.bind, dispatchedOk, receivedOk]
    · rw [firedOnce, fired, sameFired, notFired]
    · rw [calledBack, userCalls, sameUserCalls, noUserCall, Nat.zero_add]

/-- The spec's pull `S6` from a fresh worker: the replies for `[5, 7]` and `[1, 3]` arrive in
that order, and the values come out in the order of the keys. -/
theorem zpull_reassembles_reversed_replies :
    let cfg : Config ℚ := Config.defaults [⟨0, 4⟩, ⟨4, 8⟩] id
    ∃ w', ((Worker.init cfg).zpull cfg [1, 3, 5, 7] [] none 0 true >>=
        Worker.dispatchAll cfg ⟨0, fun _ => 0⟩ 2 >>=
        Worker.receiveAll cfg 0 true [(1, ⟨[5, 7], [50, 70], []⟩), (0, ⟨[1, 3], [10, 30], []⟩)]) =
          .ok w' ∧
      w'.pulled 0 = some ([10, 30, 50, 70], none) ∧ w'.recvKvs 0 = none ∧ w'.callbacks 0 = none ∧
      w'.fired.count 0 = 1 ∧ w'.userCalls.count 0 = 1 := by
  intro cfg
  have slicedOk : defaultSlicer (⟨[1, 3, 5, 7], [], []⟩ : KVPairs ℚ) cfg.ranges =
      .ok [(true, ⟨[1, 3], [], []⟩), (true, ⟨[5, 7], [], []⟩)] := rfl
  have arrival : [((1 : Nat), (⟨[5, 7], [50, 70], []⟩ : KVPairs ℚ)), (0, ⟨[1, 3], [10, 30], []⟩)].Perm
      ((([(true, (⟨[1, 3], [], []⟩ : KVPairs ℚ)), (true, ⟨[5, 7], [], []⟩)].enum.filter
        fun entry => entry.2.1).map Prod.fst).zip [⟨[1, 3], [10, 30], []⟩, ⟨[5, 7], [50, 70], []⟩]) :=
    List.Perm.swap _ _ []
  exact zpull_reassembles_in_any_order Relation.ReflTransGen.refl rfl 0 true ⟨0, fun _ => 0⟩
    (by decide) (by decide) (by decide) slicedOk (by rfl) (by simp) (Or.inl rfl) (by simp) arrival

/-- A caller's values buffer of the wrong size fails the callback's `CHECK`: a pull of key `1`
into a buffer of two values, answered by its server with one value. -/
theorem zpull_faults_on_unsized_buffer :
    let cfg : Config ℚ := Config.defaults [⟨0, 8⟩] id
    let env : Environment ℚ := ⟨0, fun _ => 0⟩
    ∃ issued sent, (Worker.init cfg).zpull cfg [1] [0, 0] none 0 false = .ok issued ∧
      issued.dispatch cfg env = .ok sent ∧ (0, 0, true) ∈ sent.awaiting ∧
      sent.receive cfg 0 0 true ⟨[1], [10], []⟩ = .error (.check "vals->size() == total_val") :=
  ⟨_, _, rfl, rfl, by decide, rfl⟩

end Pull

/-! ## A push without values -/

section Empty

variable [LinearOrderedField R] [FloorRing R] {cfg : Config R}

/-- A push shard without values on the block-push path (no step boundary, `push_op_num ≠ 1`)
faults when a reachable worker sends it: `total_bytes / block_size` divides by zero when
blocking is off, and the sort of the empty `msg_vector` has no range when it is on. -/
theorem Worker.dispatch_of_vals_nil {w : Worker R} {pending : Pending R}
    {rest : List (Pending R)} (env : Environment R) (reachable : WorkerReachable cfg w)
    (next : w.outbox = pending :: rest) (push : pending.request.push = true)
    (noBoundary : pending.shard.keys.headD 0 ≠ 0) (blockPath : w.dgt.pushOpNum ≠ 1)
    (valsNil : pending.shard.vals = []) (counted : 0 ≤ wrapInt (w.dgt.udpChannelNum + 1))
    (blockNonzero : cfg.enableBlock → w.dgt.blockSize ≠ 0) :
    w.dispatch cfg env = .error (if cfg.enableBlock then .emptyRange else .divisionByZero) := by
  rw [Worker.dispatch, next]
  simp only [sendShard, push, noBoundary, blockPath, if_true, if_false, pure, Except.pure,
    bind, Except.bind, blockPush_of_vals_nil cfg env w.dgt pending.request _ pending.shard valsNil
      reachable.dgt.msgVector_eq_nil counted blockNonzero]

/-- A push of key `1` without values passes the slicer, and its first `Send` divides by the
block size `0`, or with blocking on sorts an empty `msg_vector`. -/
theorem zpush_without_values_faults :
    let blocksOff : Config ℚ := Config.defaults [⟨0, keySpace⟩] id
    let blocksOn : Config ℚ := { blocksOff with enableBlock := true, blockSize := 100 }
    let env : Environment ℚ := ⟨0, fun _ => 0⟩
    defaultSlicer (⟨[1], [], []⟩ : KVPairs ℚ) [⟨0, keySpace⟩] = .ok [(true, ⟨[1], [], []⟩)] ∧
      (∃ w, (Worker.init blocksOff).zpush blocksOff [1] [] [] 0 false = .ok w ∧
        w.dispatch blocksOff env = .error .divisionByZero) ∧
      (∃ w, (Worker.init blocksOn).zpush blocksOn [1] [] [] 0 false = .ok w ∧
        w.dispatch blocksOn env = .error .emptyRange) :=
  ⟨rfl, ⟨_, rfl, rfl⟩, ⟨_, rfl, rfl⟩⟩

end Empty

end Dgt
