import Beetree.Codec

/-! Keys, values, messages and structure parameters (`src/types.rs`). -/
namespace Beetree

abbrev Key := List Byte

abbrev Value := List Byte

/-- A blind update; the delta is an `i64` held as its two's complement word. -/
inductive UpsertOp
  | add (delta : BitVec 64)
  deriving DecidableEq

/-- The base is read little-endian from a value of exactly 8 bytes and is 0 otherwise. -/
def UpsertOp.apply : UpsertOp → Option Value → Value
  | .add delta, existing =>
    let base : BitVec 64 := match existing with
      | some bytes => if bytes.length = 8 then BitVec.ofNat 64 (leNat bytes) else 0
      | none => 0
    leBytes 8 (base + delta).toNat

/-- A write tagged with the sequence number of the public operation that made it. -/
inductive Message
  | put (seq : UInt64) (value : Value)
  | delete (seq : UInt64)
  | upsert (seq : UInt64) (op : UpsertOp)
  deriving DecidableEq

def Message.seq : Message → UInt64
  | .put seq _ => seq
  | .delete seq => seq
  | .upsert seq _ => seq

/-- Coalesce the newer message onto an older one. -/
def Message.coalesce (newer older : Message) : Message :=
  match newer with
  | .put seq value => .put seq value
  | .delete seq => .delete seq
  | .upsert seq op =>
    match older with
    | .put _ value => .put seq (op.apply (some value))
    | .delete _ => .put seq (op.apply none)
    | .upsert _ (.add old) =>
      match op with
      | .add d => .upsert seq (.add (old + d))

structure Params where
  fanout : UInt64
  bufferCapacity : UInt64
  leafCapacity : UInt64
  deriving DecidableEq

/-- The construction assertion of every engine. -/
def Params.Legal (p : Params) : Prop :=
  2 ≤ p.fanout.toNat ∧ 1 ≤ p.bufferCapacity.toNat ∧ 1 ≤ p.leafCapacity.toNat

instance (p : Params) : Decidable p.Legal := by unfold Params.Legal; infer_instance

inductive CapacityKind
  | buffer
  | leaf
  | fanout
  deriving DecidableEq

/-- A violation of one of I1 to I7 as the checker reports it. -/
inductive InvariantViolation
  | keyOutsideOwnedRange (node : ℕ) (key : Key)
  | pivotsOutOfOrder (node index : ℕ)
  | pivotChildMismatch (node pivots children : ℕ)
  | staleAncestor (key : Key) (ancestorSeq descendantSeq : UInt64)
  | overCapacity (node : ℕ) (kind : CapacityKind) (occupancy limit : ℕ)
  | unevenLeafDepth (shallowest deepest : ℕ)
  | emptyNonRootLeaf (node : ℕ)
  deriving DecidableEq

@[simp] lemma UpsertOp.apply_length (op : UpsertOp) (x : Option Value) :
    (op.apply x).length = 8 := by
  cases op
  simp [UpsertOp.apply]

lemma UpsertOp.apply_apply (a b : BitVec 64) (x : Option Value) :
    (UpsertOp.add b).apply (some ((UpsertOp.add a).apply x)) = (UpsertOp.add (a + b)).apply x := by
  simp only [UpsertOp.apply, leBytes_length, if_true]
  rw [leNat_leBytes_of_lt ((BitVec.isLt _).trans_eq (by norm_num)), BitVec.ofNat_toNat,
    BitVec.setWidth_eq, BitVec.add_assoc]

/-- What a message does to the value below it. -/
def Message.act : Message → Option Value → Option Value
  | .put _ value, _ => some value
  | .delete _, _ => none
  | .upsert _ op, x => some (op.apply x)

@[simp] lemma Message.seq_coalesce (newer older : Message) :
    (newer.coalesce older).seq = newer.seq := by
  rcases newer with ⟨s, v⟩ | ⟨s⟩ | ⟨s, ⟨d⟩⟩ <;> rcases older with ⟨s', v'⟩ | ⟨s'⟩ | ⟨s', ⟨d'⟩⟩ <;>
    rfl

/-- Coalescing composes the actions, newer after older. -/
theorem Message.act_coalesce (newer older : Message) (x : Option Value) :
    (newer.coalesce older).act x = newer.act (older.act x) := by
  rcases newer with ⟨s, v⟩ | ⟨s⟩ | ⟨s, ⟨d⟩⟩
  · rfl
  · rfl
  · rcases older with ⟨s', v'⟩ | ⟨s'⟩ | ⟨s', ⟨d'⟩⟩
    · rfl
    · rfl
    · simp only [Message.coalesce, Message.act, UpsertOp.apply_apply]

def Params.tiny : Params := ⟨2, 1, 1⟩

end Beetree
