import Dgt.Slicer
import Dgt.Contri
import Dgt.Channel

/-!
# The send path of one shard

For each non-empty shard, `KVWorker<Val>::Send` builds and dispatches the messages to its
server. A pull sends one request. A push whose shard starts at key `0` marks a step: it
counts the push operation and refreshes the drop rate, or on the first step reads the DGT
configuration. While the counter is `1` the whole shard goes out reliably in one message;
afterwards it is cut into blocks of `block_size` values, each scored, kept in `msg_vector`
(unless `CLEAR_ZERO` drops it), ranked by score or shuffled, and dispatched on the channel
`Get_channel` assigns its rank, the last block always on channel `0`.

The block loop builds block `seq` without reading the worker state, so it is modelled as
the list of blocks it builds, followed by the fold of its scoring step over them.
-/

namespace Dgt

/-- A `std::shuffle` outcome: some permutation of its range. `Send` seeds the engine by
default, so the permutation is fixed; only its being a permutation is modelled. -/
structure Shuffle (α : Type) where
  /-- The shuffled range. -/
  run : List α → List α
  /-- It is a permutation. -/
  perm : ∀ items, (run items).Perm items

/-- A `std::sort` of blocks by descending score. The order of equal scores is unspecified,
so the sort is any permutation ordered so. -/
structure ContriSort (R : Type) [LinearOrder R] where
  /-- The sorted range. -/
  run : List (Message R) → List (Message R)
  /-- It is a permutation. -/
  perm : ∀ blocks, (run blocks).Perm blocks
  /-- Its scores do not increase. -/
  sorted : ∀ blocks, (run blocks).Pairwise fun a b => b.contri ≤ a.contri

/-- Insertion sort, one implementation of `ContriSort`. -/
def ContriSort.insertion {R : Type} [LinearOrder R] : ContriSort R where
  run blocks := blocks.insertionSort fun a b => b.contri ≤ a.contri
  perm blocks := List.perm_insertionSort _ blocks
  sorted blocks := by
    haveI : IsTotal (Message R) fun a b => b.contri ≤ a.contri :=
      ⟨fun a b => le_total b.contri a.contri⟩
    haveI : IsTrans (Message R) fun a b => b.contri ≤ a.contri :=
      ⟨fun _ _ _ first second => second.trans first⟩
    exact List.sorted_insertionSort _ blocks

/-- A `std::sort` of the replies buffered for a pull by first key. The order of equal first
keys is unspecified, so the sort is any permutation ordered so. -/
structure ReplySort (R : Type) where
  /-- The sorted replies. -/
  run : List (KVPairs R) → List (KVPairs R)
  /-- It is a permutation. -/
  perm : ∀ replies, (run replies).Perm replies
  /-- Its first keys do not decrease. -/
  sorted : ∀ replies, (run replies).Pairwise fun a b => a.keys.headD 0 ≤ b.keys.headD 0

/-- Insertion sort, one implementation of `ReplySort`. -/
def ReplySort.insertion {R : Type} : ReplySort R where
  run replies := replies.insertionSort fun a b => a.keys.headD 0 ≤ b.keys.headD 0
  perm replies := List.perm_insertionSort _ replies
  sorted replies := by
    haveI : IsTotal (KVPairs R) fun a b => a.keys.headD 0 ≤ b.keys.headD 0 :=
      ⟨fun a b => le_total _ _⟩
    haveI : IsTrans (KVPairs R) fun a b => a.keys.headD 0 ≤ b.keys.headD 0 :=
      ⟨fun _ _ _ first second => first.trans second⟩
    exact List.sorted_insertionSort _ replies

/-- What the worker reads from the environment, in its constructor and in `init_dgt`, and
the topology it queries; `none` is an unset variable. -/
structure Config (R : Type) [LinearOrder R] where
  /-- `DGT_CONTRI_ALPHA`. -/
  contriAlpha : R
  /-- `DGT_SET_RANDOM`. -/
  setRandom : Bool
  /-- `DGT_ENABLE_BLOCK`. -/
  enableBlock : Bool
  /-- `DGT_BLOCK_SIZE`. -/
  blockSize : Int
  /-- `ENABLE_DGT`. -/
  enableDgt : Bool
  /-- `CLEAR_ZERO`. -/
  clearZero : Bool
  /-- `DMLC_K`. -/
  dmlcK : Option R
  /-- `DMLC_K_MIN`. -/
  dmlcKMin : Option R
  /-- `ADAPTIVE_K_FLAG`. -/
  adaptiveKFlag : Option Int
  /-- `DMLC_UDP_CHANNEL_NUM`. -/
  udpChannelNum : Option Int
  /-- `Postoffice::GetServerKeyRanges()`. -/
  ranges : List Range
  /-- `Postoffice::ServerRankToID`. -/
  serverRankToId : Nat → Nat
  /-- The shuffle of `DGT_SET_RANDOM`. -/
  shuffle : Shuffle (Message R)
  /-- The sort by descending score. -/
  sort : ContriSort R
  /-- The sort of pull replies by first key. -/
  sortReplies : ReplySort R

/-- The shuffle that leaves the order as it is, one possible outcome. -/
def Shuffle.keep {α : Type} : Shuffle α :=
  ⟨id, fun _ => List.Perm.refl _⟩

/-- A worker started with none of its DGT variables set: the `dmlc::GetEnv` defaults of the
constructor (`DGT_CONTRI_ALPHA = 0.3`, every flag and `DGT_BLOCK_SIZE` `0`), none of the
variables `init_dgt` requires, and insertion sorts. -/
def Config.defaults {R : Type} [LinearOrderedField R] (ranges : List Range)
    (serverRankToId : Nat → Nat) : Config R :=
  ⟨3 / 10, false, false, 0, false, false, none, none, none, none, ranges, serverRankToId,
    .keep, .insertion, .insertion⟩

/-- What one call of `Send` reads from outside: the loss feed's reading (`0` when there is
none) and the value `rand()` returns at each dispatch position. -/
structure Environment (R : Type) where
  /-- `cur_loss`. -/
  loss : R
  /-- `rand()` at dispatch position `j`. -/
  draws : Nat → Nat

/-- The worker's DGT members. -/
structure DgtState (R : Type) where
  /-- `push_op_num`. -/
  pushOpNum : Nat
  /-- `dmlc_k`. -/
  dmlcK : R
  /-- `dmlc_k_init`. -/
  dmlcKInit : R
  /-- `dmlc_k_min`. -/
  dmlcKMin : R
  /-- `adaptive_k_flag`. -/
  adaptiveKFlag : Int
  /-- `udp_channel_num`. -/
  udpChannelNum : Int
  /-- `pre_loss`. -/
  preLoss : R
  /-- `delta_l`. -/
  deltaL : R
  /-- `first_loss`. -/
  firstLoss : R
  /-- `rt_loss`. -/
  rtLoss : R
  /-- `block_size`, overwritten by the payload size when blocking is off. -/
  blockSize : Int
  /-- `contri`, `contri_max`, `pre_contri_max`. -/
  scores : Scores R
  /-- `msg_vector`. -/
  msgVector : List (Message R)

variable {R : Type} [LinearOrderedField R] [FloorRing R]

/-- The DGT members of a freshly constructed worker. -/
def DgtState.init (cfg : Config R) : DgtState R :=
  ⟨0, 1, 1, 0, 0, 0, 0, 0, 0, 0, cfg.blockSize, .init, []⟩

/-! ## Rate control -/

/-- `Update_loss_delta()`: the loss drop since the last reading (`1` before the first),
the current loss, and the first non-zero loss. -/
def updateLossDelta (st : DgtState R) (curLoss : R) : DgtState R :=
  { st with
    deltaL := if st.preLoss ≠ 0 then st.preLoss - curLoss else 1
    preLoss := curLoss
    rtLoss := curLoss
    firstLoss := if st.firstLoss = 0 then curLoss else st.firstLoss }

/-- `adaptive_k()`: the initial rate scaled by the loss ratio, at least `dmlc_k_min`. -/
def adaptiveK (st : DgtState R) : R :=
  if st.dmlcKMin < st.dmlcKInit * (st.rtLoss / st.firstLoss) then
    st.dmlcKInit * (st.rtLoss / st.firstLoss)
  else st.dmlcKMin

/-- `init_dgt()`: the required DGT variables, each `CHECK_NOTNULL`. -/
def initDgt (cfg : Config R) (st : DgtState R) : Except Fault (DgtState R) :=
  match cfg.dmlcK, cfg.dmlcKMin, cfg.adaptiveKFlag, cfg.udpChannelNum with
  | some k, some kMin, some flag, some channels =>
      .ok { st with
        dmlcKInit := k
        dmlcKMin := kMin
        adaptiveKFlag := flag
        udpChannelNum := channels }
  | none, _, _, _ => .error (.check "DMLC_K")
  | some _, none, _, _ => .error (.check "DMLC_K_MIN")
  | some _, some _, none, _ => .error (.check "ADAPTIVE_K_FLAG")
  | some _, some _, some _, none => .error (.check "DMLC_UDP_CHANNEL_NUM")

/-- The step boundary of a push whose shard starts at key `0`: `push_op_num++`, then the
rate refresh, or `init_dgt()` on the first step. -/
def stepBoundary (cfg : Config R) (curLoss : R) (st : DgtState R) :
    Except Fault (DgtState R) :=
  let st := { st with pushOpNum := st.pushOpNum + 1 }
  if 1 < st.pushOpNum then
    let st := updateLossDelta st curLoss
    .ok { st with dmlcK := if st.adaptiveKFlag ≠ 0 then adaptiveK st else st.dmlcKInit }
  else initDgt cfg st

/-! ## Messages -/

/-- The single message of the first push: `msg_type = 1`, the whole shard. -/
def firstPushMessage (request : Request) (recver pushOpNum : Nat) (shard : KVPairs R) :
    Message R :=
  .build (request.header recver 1 (shard.keys.headD 0) 0 0 0 shard.vals.length pushOpNum)
    shard shard.vals 0

/-- The pull request: `msg_type = 3`, the shard's keys. -/
def pullMessage (request : Request) (recver : Nat) (shard : KVPairs R) : Message R :=
  .build (request.header recver 3 (shard.keys.headD 0) 0 0 0 shard.vals.length 0)
    shard shard.vals 0

/-- Block `seq` of a block push: `msg_type = 2`, its values `tmp_val` at `val_bytes`. -/
def blockMessage (request : Request) (recver pushOpNum seqEnd totalBytes : Nat)
    (shard : KVPairs R) (valBytes seq : Nat) (tmpVal : List R) : Message R :=
  .build (request.header recver 2 (shard.keys.headD 0) seq seqEnd valBytes totalBytes
    pushOpNum) shard tmpVal 0

/-- The `while (remain_bytes != 0)` loop: block `seq` takes `l = min(remain_bytes,
block_size)` values at `val_bytes`. The offsets stay within `total_bytes`, so `segment`
never fails here. Each block takes a value, so `fuel = remain_bytes` never runs out. -/
def blockLoop (request : Request) (recver pushOpNum seqEnd totalBytes blockSize : Nat)
    (shard : KVPairs R) : (fuel remain valBytes seq : Nat) → List (Message R)
  | 0, _, _, _ => []
  | fuel + 1, remain, valBytes, seq =>
      if remain = 0 then []
      else
        let l := min remain blockSize
        blockMessage request recver pushOpNum seqEnd totalBytes shard valBytes seq
            (cut shard.vals valBytes (valBytes + l)) ::
          blockLoop request recver pushOpNum seqEnd totalBytes blockSize shard fuel
            (remain - l) (valBytes + l) (seq + 1)

/-- `seq_num = ceil(total_bytes / block_size)`, as `Send` computes it. -/
def seqNum (totalBytes blockSize : Nat) : Nat :=
  if totalBytes % blockSize = 0 then totalBytes / blockSize else totalBytes / blockSize + 1

/-- The blocks the `while` loop of the block-push path builds for a shard, in `seq` order,
before they are scored. -/
def buildBlocks (request : Request) (recver pushOpNum : Nat) (blockSize : Int)
    (shard : KVPairs R) : List (Message R) :=
  let total := (toCInt shard.vals.length).toNat
  blockLoop request recver pushOpNum (seqNum total blockSize.toNat - 1) total blockSize.toNat
    shard total total 0 0

/-- `block_size` as the block-push path uses it: the member, or `total_bytes` when blocking
is off. -/
def DgtState.blockSizeFor (st : DgtState R) (cfg : Config R) (shard : KVPairs R) : Int :=
  if cfg.enableBlock then st.blockSize else toCInt shard.vals.length

/-! ## Ranking and dispatch -/

/-- Whether the block loop keeps a scored block in `msg_vector`: `CLEAR_ZERO` drops a zero
score short of the last block. -/
def keptBlock (cfg : Config R) (msg : Message R) : Bool :=
  !cfg.clearZero || msg.contri ≠ 0 || msg.header.seq = msg.header.seqEnd

/-- The scoring step of the block loop: `Evaluate_msg_contri` scores the block, which then
joins `msg_vector` if it is kept. -/
def scoreBlock (cfg : Config R) (key : Int) (st : DgtState R) (msg : Message R) :
    DgtState R :=
  let scored := evaluateMsgContri cfg.contriAlpha st.scores key msg
  let msg := { msg with contri := scored.1 }
  { st with
    scores := scored.2
    msgVector := if keptBlock cfg msg then st.msgVector ++ [msg] else st.msgVector }

/-- The ranking of `msg_vector` before dispatch: all but the last block are shuffled or
sorted by descending score; over an empty vector the range `[begin(), end() - 1)` is
undefined. -/
def rankBlocks (cfg : Config R) (blocks : List (Message R)) : Except Fault (List (Message R)) :=
  if blocks.isEmpty then .error .emptyRange
  else if cfg.setRandom then .ok (cfg.shuffle.run blocks.dropLast ++ blocks.getLast?.toList)
  else .ok (cfg.sort.run blocks.dropLast ++ blocks.getLast?.toList)

/-- One iteration of the dispatch loop, with `C = udp_channel_num` and `k = dmlc_k`: block
`j` gets `Get_channel(j, msg_vector.size() - 1, C, k)`, a last block of its shard channel
`0`, and leaves through the classifier or the plain send. -/
def dispatchBlock (cfg : Config R) (k : R) (C : Int) (draws : Nat → Nat) (maxIndex : Int)
    (j : Nat) (msg : Message R) : Except Fault (Message R × Dispatch) := do
  let computed ← getChannel j maxIndex C k (draws j)
  let channel := if msg.header.seq = msg.header.seqEnd then 0 else computed
  return (msg.withChannel channel, if cfg.enableDgt then .classified channel else .plain)

/-- The dispatch loop over the ranked `msg_vector`, from position `j`. -/
def dispatchLoop (cfg : Config R) (k : R) (C : Int) (draws : Nat → Nat) (maxIndex : Int) :
    (j : Nat) → List (Message R) → Except Fault (List (Message R × Dispatch))
  | _, [] => .ok []
  | j, msg :: rest => do
      let sent ← dispatchBlock cfg k C draws maxIndex j msg
      (sent :: ·) <$> dispatchLoop cfg k C draws maxIndex (j + 1) rest

/-- The block-push path of one shard. A zero block size divides by zero; the per-channel
counters `count(udp_channel_num + 1)`, an `int` sum that wraps at `INT_MAX`, cannot have a
negative size; a negative block size or payload size makes the first `segment` fail. -/
def blockPush (cfg : Config R) (env : Environment R) (st : DgtState R) (request : Request)
    (recver : Nat) (shard : KVPairs R) : Except Fault (DgtState R × List (Message R × Dispatch)) :=
  let total := toCInt shard.vals.length
  let st := { st with blockSize := st.blockSizeFor cfg shard }
  if st.blockSize = 0 then .error .divisionByZero
  else if wrapInt (st.udpChannelNum + 1) < 0 then .error .lengthError
  else if total ≠ 0 ∧ (total < 0 ∨ st.blockSize < 0) then
    .error (.check "SArray::segment out of range")
  else
    let blocks := buildBlocks request recver st.pushOpNum st.blockSize shard
    let st := blocks.foldl (scoreBlock cfg (toCInt (shard.keys.headD 0))) st
    do
      let ranked ← rankBlocks cfg st.msgVector
      let sent ← dispatchLoop cfg st.dmlcK st.udpChannelNum env.draws (ranked.length - 1 : Int)
        0 ranked
      return ({ st with msgVector := [] }, sent)

/-- `Send` for the shard of server rank `rank`: a pull request, or a push through the step
boundary and then the first-push or the block-push path. -/
def sendShard (cfg : Config R) (env : Environment R) (st : DgtState R) (request : Request)
    (rank : Nat) (shard : KVPairs R) : Except Fault (DgtState R × List (Message R × Dispatch)) :=
  let recver := cfg.serverRankToId rank
  if request.push then do
    let st ← if shard.keys.headD 0 = 0 then stepBoundary cfg env.loss st else pure st
    if st.pushOpNum = 1 then
      return (st, [(firstPushMessage request recver st.pushOpNum shard, .reliable)])
    else blockPush cfg env st request recver shard
  else .ok (st, [(pullMessage request recver shard, .reliable)])

end Dgt
