import Beetree.Trace

/-! The reference engine over an ordered map (`src/naive.rs`). -/
namespace Beetree

structure NaiveEngine where
  map : OrdMap Key Value
  nextSeq : UInt64
  trace : Recorder

namespace NaiveEngine

def new (_params : Params) : NaiveEngine := ⟨.empty, 0, .new⟩

def applyOp (map : OrdMap Key Value) : OpKind2 → OrdMap Key Value
  | .insert key value => map.insert key value
  | .delete key => map.erase key
  | .upsert key op => map.insert key (op.apply (map.get? key))

def mutate (op : OpKind2) : EStateM Fault NaiveEngine Unit := do
  let e ← get
  if e.nextSeq.toNat + 1 < 2 ^ 64 then
    set { e with
      map := applyOp e.map op
      nextSeq := e.nextSeq + 1
      trace := e.trace.op (e.nextSeq + 1) op : NaiveEngine }
  else throw .overflow

def scan (lo hi : Bound) : EStateM Fault NaiveEngine (List (Key × Value)) := do
  modify fun e => { e with trace := e.trace.scan lo hi }
  if rangeIsEmpty lo hi then pure []
  else
    match rangeOf (← get).map lo hi with
    | some m => pure m.toList
    | none => throw .panic

def lookup (key : Key) : EStateM Fault NaiveEngine (Option Value) := do
  modify fun e => { e with trace := e.trace.get key }
  pure ((← get).map.get? key)

def step (op : Op) : EStateM Fault NaiveEngine Reply :=
  match op with
  | .mutate op => do mutate op; pure .done
  | .get key => do pure (.value (← lookup key))
  | .scan lo hi => do pure (.listing (← scan lo hi))
  | .drain => pure .done

end NaiveEngine
end Beetree
