import Dgt.Defs

/-!
# Messages of the send path

The header fields `KVWorker<Val>::Send` writes into each outgoing message, the payload it
attaches with `AddData`, and the three ways the message leaves the worker. The message
header type lives in message.h, outside the sources, so only the fields `Send` writes are
modelled; fields it never writes keep the header's default, `0`.
-/

namespace Dgt

/-- The C++ conversion of a size or a key to `int`: the value modulo `2^32`, read as a
signed number. -/
def toCInt (n : Nat) : Int :=
  if n % 2 ^ 32 < 2 ^ 31 then (n % 2 ^ 32 : Nat) else (n % 2 ^ 32 : Nat) - 2 ^ 32

/-- The largest `int`. -/
def intMax : Nat := 2 ^ 31 - 1

theorem toCInt_of_le {n : Nat} (small : n ≤ intMax) : toCInt n = n := by
  unfold toCInt intMax at *
  rw [Nat.mod_eq_of_lt (by omega), if_pos (by omega)]

/-- An `int` sum as the C++ code computes it: the value modulo `2^32`, read as a signed
number, so `INT_MAX + 1` wraps to `INT_MIN`. -/
def wrapInt (x : Int) : Int :=
  toCInt (x % 2 ^ 32).toNat

/-- Inside the `int` range the wrap changes nothing. -/
theorem wrapInt_of_bounds {x : Int} (low : -2 ^ 31 ≤ x) (high : x ≤ intMax) : wrapInt x = x := by
  unfold wrapInt toCInt intMax at *
  split <;> omega

/-- `count(C + 1)` has a size of `C + 1` for `0 ≤ C < INT_MAX`. -/
theorem wrapInt_succ_nonneg {C : Int} (nonneg : 0 ≤ C) (below : C < intMax) :
    0 ≤ wrapInt (C + 1) := by
  rw [wrapInt_of_bounds (by omega) (by omega)]
  omega

/-- One past `INT_MAX` wraps to a negative `int`. -/
theorem wrapInt_intMax_add_one : wrapInt (intMax + 1) < 0 := by
  decide

/-- The header fields of a request message (`msg.meta`). -/
structure Meta where
  /-- `timestamp`: the request's timestamp. -/
  timestamp : Nat
  /-- `push`. -/
  push : Bool
  /-- `pull`. -/
  pull : Bool
  /-- `head`: the request's command. -/
  head : Int
  /-- `recver`: the node id of the destination server. -/
  recver : Nat
  /-- `msg_type`: `1` first push, `2` block push, `3` pull request. -/
  msgType : Nat
  /-- `first_key`: the shard's first key. -/
  firstKey : Nat
  /-- `seq`: the block's sequence number. -/
  seq : Nat
  /-- `seq_end`: the sequence number of the shard's last block. -/
  seqEnd : Nat
  /-- `val_bytes`: the offset of the block's values in the shard's values. -/
  valBytes : Nat
  /-- `total_bytes`: the number of the shard's values. -/
  totalBytes : Nat
  /-- `push_op_num`: the worker's push-operation counter. -/
  pushOpNum : Nat
  /-- `channel`: the channel the block is dispatched on. -/
  channel : Int
  deriving DecidableEq, Repr

/-- A request message: its header, its payload chunks `[keys, vals, lens]` (`lens` empty
when not attached), and the contribution score `Send` ranks it by. -/
structure Message (R : Type) where
  /-- `msg.meta`. -/
  header : Meta
  /-- The `keys` chunk. -/
  keys : List Nat
  /-- The `vals` chunk. -/
  vals : List R
  /-- The `lens` chunk. -/
  lens : List Int
  /-- `msg.contri`. -/
  contri : R

/-- How `Send` hands a message to the transport. -/
inductive Dispatch
  /-- `van()->Send(msg)`: the reliable path. -/
  | reliable
  /-- `van()->Classifier(msg, channel, 0)`: the DGT-aware classifier. -/
  | classified (channel : Int)
  /-- `van()->Send(msg, 0, 0)`: the plain send when DGT is disabled. -/
  | plain
  deriving DecidableEq, Repr

/-- What one request of `Send` carries to every shard: `timestamp`, `push`, `pull`, `cmd`. -/
structure Request where
  /-- The request's timestamp. -/
  timestamp : Nat
  /-- Whether it pushes. -/
  push : Bool
  /-- Whether it pulls. -/
  pull : Bool
  /-- Its command. -/
  cmd : Int
  deriving DecidableEq, Repr

variable {R : Type}

/-- The payload `if (kvs.keys.size())` attaches: keys, the given values, and the lens when
there are some; nothing for a shard without keys. -/
def payload (shard : KVPairs R) (vals : List R) : List Nat × List R × List Int :=
  if shard.keys = [] then ([], [], []) else (shard.keys, vals, shard.lens)

/-- A message with a header and the payload of `shard` carrying `vals`. -/
def Message.build (header : Meta) (shard : KVPairs R) (vals : List R) (contri : R) :
    Message R :=
  let (keys, vals, lens) := payload shard vals
  ⟨header, keys, vals, lens, contri⟩

@[simp] theorem Message.build_header (header : Meta) (shard : KVPairs R) (vals : List R)
    (contri : R) : (Message.build header shard vals contri).header = header := by
  unfold Message.build
  split
  rfl

theorem Message.build_of_ne_nil {header : Meta} {shard : KVPairs R} (vals : List R) (contri : R)
    (keysNonempty : shard.keys ≠ []) :
    Message.build header shard vals contri = ⟨header, shard.keys, vals, shard.lens, contri⟩ := by
  simp [Message.build, payload, keysNonempty]

/-- The header `Send` writes for the shard of server `recver`, with the fields of its path. -/
def Request.header (request : Request) (recver msgType firstKey seq seqEnd valBytes
    totalBytes pushOpNum : Nat) : Meta :=
  ⟨request.timestamp, request.push, request.pull, request.cmd, recver, msgType, firstKey,
    seq, seqEnd, valBytes, totalBytes, pushOpNum, 0⟩

/-- The message with its `channel` field set. -/
def Message.withChannel (msg : Message R) (channel : Int) : Message R :=
  { msg with header := { msg.header with channel := channel } }

@[simp] theorem Message.withChannel_header_channel (msg : Message R) (channel : Int) :
    (msg.withChannel channel).header.channel = channel := rfl

@[simp] theorem Message.withChannel_contri (msg : Message R) (channel : Int) :
    (msg.withChannel channel).contri = msg.contri := rfl

@[simp] theorem Message.withChannel_withChannel (msg : Message R) (channel channel' : Int) :
    (msg.withChannel channel).withChannel channel' = msg.withChannel channel' := rfl

theorem Message.withChannel_of_channel {msg : Message R} {channel : Int}
    (stamped : msg.header.channel = channel) : msg.withChannel channel = msg := by
  subst stamped
  rfl

end Dgt
