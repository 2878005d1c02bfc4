import Beetree.Node

/-! Trace events and the two-view recorder (`src/trace.rs`). -/
namespace Beetree

inductive OpKind
  | insert (key : Key) (value : Value)
  deriving DecidableEq

inductive TraceEvent
  | op (seq : UInt64) (op : OpKind)
  | get (key : Key)
  | flushDecision (node : NodeId) (childOccupancies : List ℕ) (chosen : ℕ)
  deriving DecidableEq

/-- The complete vocabulary of mutating operations. -/
inductive OpKind2
  | insert (key : Key) (value : Value)
  | delete (key : Key)
  | upsert (key : Key) (op : UpsertOp)
  deriving DecidableEq

inductive TraceEvent2
  | op (seq : UInt64) (op : OpKind2)
  | get (key : Key)
  | scan (lo hi : Bound)
  | flushDecision (node : NodeId) (childOccupancies : List ℕ) (chosen : ℕ)
  deriving DecidableEq

/-- One push feeds the complete trace and the closed first-version mirror. -/
structure Recorder where
  v1 : List TraceEvent
  v2 : List TraceEvent2
  deriving DecidableEq

namespace Recorder

def new : Recorder := ⟨[], []⟩

def op (r : Recorder) (seq : UInt64) (op : OpKind2) : Recorder :=
  match op with
  | .insert key value => ⟨r.v1 ++ [.op seq (.insert key value)], r.v2 ++ [.op seq op]⟩
  | _ => ⟨r.v1, r.v2 ++ [.op seq op]⟩

def get (r : Recorder) (key : Key) : Recorder := ⟨r.v1 ++ [.get key], r.v2 ++ [.get key]⟩

def scan (r : Recorder) (lo hi : Bound) : Recorder := ⟨r.v1, r.v2 ++ [.scan lo hi]⟩

def flushDecision (r : Recorder) (node : NodeId) (childOccupancies : List ℕ) (chosen : ℕ) :
    Recorder :=
  ⟨r.v1 ++ [.flushDecision node childOccupancies chosen],
    r.v2 ++ [.flushDecision node childOccupancies chosen]⟩

end Recorder

def TraceEvent2.isDecision : TraceEvent2 → Bool
  | .flushDecision .. => true
  | _ => false

def Recorder.decisions (r : Recorder) : List TraceEvent2 := r.v2.filter TraceEvent2.isDecision

def OpKind2.key : OpKind2 → Key
  | .insert key _ => key
  | .delete key => key
  | .upsert key _ => key

/-- The message a mutating operation sends to the root under its sequence number. -/
def OpKind2.message (op : OpKind2) (seq : UInt64) : Message :=
  match op with
  | .insert _ value => .put seq value
  | .delete _ => .delete seq
  | .upsert _ op => .upsert seq op

@[simp] lemma OpKind2.seq_message (op : OpKind2) (seq : UInt64) : (op.message seq).seq = seq := by
  cases op <;> rfl

/-- Rebuild an engine by applying again the operations of a trace in the first vocabulary. -/
def replay {m : Type → Type} [Monad m] (mutate : OpKind2 → m Unit) : List TraceEvent → m Unit
  | [] => pure ()
  | .op _ (.insert key value) :: events => do
    mutate (.insert key value)
    replay mutate events
  | .get _ :: events => replay mutate events
  | .flushDecision .. :: events => replay mutate events

def replay2 {m : Type → Type} [Monad m] (mutate : OpKind2 → m Unit) : List TraceEvent2 → m Unit
  | [] => pure ()
  | .op _ op :: events => do
    mutate op
    replay2 mutate events
  | .get _ :: events => replay2 mutate events
  | .scan .. :: events => replay2 mutate events
  | .flushDecision .. :: events => replay2 mutate events

/-- A public operation of the engines; `drain` does nothing on the reference engine. -/
inductive Op
  | mutate (op : OpKind2)
  | get (key : Key)
  | scan (lo hi : Bound)
  | drain
  deriving DecidableEq

/-- With the smallest parameters these operations split leaves and an inner node, empty a leaf,
which is unlinked, and leave a message in the root and another one below it. -/
def Op.churn : List Op :=
  [.mutate (.insert [1] [7]), .mutate (.insert [5] [7]), .mutate (.insert [9] [7]),
    .mutate (.insert [3] [7]),
    .mutate (.upsert [5] (.add 4)), .mutate (.delete [1]), .mutate (.delete [1]),
      .mutate (.delete [2]),
    .mutate (.delete [2]), .mutate (.insert [4] [7])]

/-- What a public operation hands back to its caller. -/
inductive Reply
  | done
  | value (v : Option Value)
  | listing (items : List (Key × Value))
  deriving DecidableEq

/-! Ways a public operation can end without a result. -/

inductive IoError
  | unexpectedEof
  | syncFailure
  | device
  deriving DecidableEq

inductive CorruptReason
  | header (watermark : ℕ)
  | payload (len watermark : ℕ)
  | checksum (stored computed : UInt32)
  | undecodable
  | trailing (read carried : ℕ)
  | arity (pivots children : ℕ)
  | childOffset (child offset : ℕ)
  deriving DecidableEq

inductive DiskError
  | io (e : IoError)
  | corruptNode (offset : ℕ) (reason : CorruptReason)
  | noValidSuperblock
  | unsupportedVersion (found : UInt32)
  | notEmpty (len : ℕ)
  | nodeTooLarge (bytes : ℕ)
  | poisoned
  deriving DecidableEq

/-- A storage error is returned to the caller; a panic is an `unreachable!`, `expect`, `assert!` or
index failure; an overflow is a failed checked addition; running out of fuel is not a behaviour of
the code but of the bounded evaluation of its loops. -/
inductive Fault
  | storage (e : DiskError)
  | panic
  | overflow
  | fuel
  deriving DecidableEq

def Fault.IsStorage (f : Fault) : Prop := ∃ x, f = .storage x

end Beetree
