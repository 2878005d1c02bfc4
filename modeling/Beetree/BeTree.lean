import Beetree.Check
import Beetree.Format
import Beetree.Machine
import Beetree.Naive

/-! The in-memory engine (`src/betree.rs`): the machinery over an arena of nodes. -/
namespace Beetree

/-- Nodes are addressed by index and never freed; `dirty` runs parallel to `nodes`. -/
structure Arena where
  nodes : List Node
  dirty : List Bool
  deriving DecidableEq

instance : NodeStore Arena where
  loaded id a :=
    match a.nodes[id]? with
    | some n => .ok n a
    | none => .error .panic a
  mutate id f a :=
    match a.nodes[id]? with
    | none => .error .panic a
    | some n =>
      match f n with
      | none => .error .panic a
      | some n' => .ok n' ⟨a.nodes.set id n', a.dirty.set id true⟩
  alloc node a := .ok a.nodes.length ⟨a.nodes ++ [node], a.dirty ++ [true]⟩
  releaseSlot _ a := .ok () a
  isDirty id a :=
    match a.dirty[id]? with
    | some d => .ok d a
    | none => .error .panic a
  ensureLoaded _ _ a := .ok () a

def Arena.clean (id : NodeId) : EStateM Fault Arena Unit := fun a =>
  if id < a.dirty.length then .ok () { a with dirty := a.dirty.set id false } else .error .panic a

def Node.mapChildren (f : NodeId → Option NodeId) : Node → Option Node
  | .leaf entries => some (.leaf entries)
  | .internal pivots children buffer =>
    (children.mapM f).map fun children => .internal pivots children buffer

/-- The reachable nodes in the order a fork numbers them. -/
def Arena.liveOrder (a : Arena) : ℕ → List NodeId → Except Fault (List NodeId)
  | 0, _ => .error .fuel
  | _ + 1, [] => .ok []
  | n + 1, id :: stack =>
    match a.nodes[id]? with
    | none => .error .panic
    | some node => do
      let order ← a.liveOrder n (node.children.reverse ++ stack)
      pure (id :: order)

abbrev BeTree (π : Type) := Engine π Arena

/-- An operation of a simulation: one of the tree's own, or a commit boundary. -/
inductive SimOp
  | op (op : Op)
  | commit
  deriving DecidableEq

inductive SimReply
  | reply (reply : Reply)
  | bytes (bytes : ℕ)
  deriving DecidableEq

namespace BeTree
variable {π : Type}

/-- Construction with an explicit policy; illegal parameters fail the assertion. -/
def withPolicy (params : Params) (policy : π) : Except Fault (BeTree π) :=
  if params.Legal then
    .ok {
      params := params
      store := ⟨[.leaf OrdMap.empty], [true]⟩
      root := 0
      nextSeq := 0
      opsSinceCommit := 0
      policy := policy
      trace := .new }
  else .error .panic

def new (params : Params) : Except Fault (BeTree GreedyFullest) := withPolicy params ⟨⟩

def source (tree : BeTree π) :
    NodeSource := ⟨tree.root, tree.params, fun id => tree.store.nodes[id]?⟩

/-- The length of a node's record payload. Child ids stand in for the child record offsets, which
have the same width. -/
def recordPayloadLen (id : NodeId) : Engine.Act π Arena ℕ := do
  pure (encodeNode ((← Engine.loaded id).toDisk UInt64.ofNat)).length

/-- Charge the listed nodes and mark them clean. -/
def chargeRecords : List NodeId → ℕ → Engine.Act π Arena ℕ
  | [], bytes => pure bytes
  | id :: pre, bytes => do
    let len ← recordPayloadLen id
    Engine.onStore (Arena.clean id)
    chargeRecords pre (bytes + (recordHeaderSize + len))

/-- The bytes a commit would write, as one commit boundary of the cost model. -/
def simulateCommit (fuel : ℕ) : Engine.Act π Arena ℕ := do
  let pre ← Engine.dirtyNodes fuel
  let bytes ← chargeRecords pre 0
  modify fun e => { e with opsSinceCommit := 0 }
  pure (bytes + superblockSlotSize)

/-- A copy of the live tree under another policy: reachable nodes only, numbered afresh. -/
def forkForSim {ρ : Type} (fuel : ℕ) (tree : BeTree π) (policy : ρ) : Except Fault (BeTree ρ) := do
  let order ← tree.store.liveOrder fuel [tree.root]
  let map : OrdMap NodeId NodeId := OrdMap.ofList order.zipIdx
  match order.mapM (fun id => (tree.store.nodes[id]?).bind (Node.mapChildren fun c => map.get? c)),
      order.mapM (fun id => tree.store.dirty[id]?), map.get? tree.root with
  | some nodes, some dirty, some root =>
    .ok {
      params := tree.params
      store := ⟨nodes, dirty⟩
      root := root
      nextSeq := tree.nextSeq
      opsSinceCommit := tree.opsSinceCommit
      policy := policy
      trace := .new }
  | _, _, _ => .error .panic

def simStep [FlushPolicy π] (fuel : ℕ) : SimOp → Engine.Act π Arena SimReply
  | .op op => do pure (.reply (← Engine.step fuel op))
  | .commit => do pure (.bytes (← simulateCommit fuel))

def run [FlushPolicy π] (fuel : ℕ) (params : Params) (policy : π) (ops : List Op) :
    Except Fault (List Reply) := do
  let tree ← withPolicy params policy
  outcome (runOps (Engine.step fuel) ops tree)

end BeTree

/-- The same operations on the reference engine. -/
def NaiveEngine.run (params : Params) (ops : List Op) : Except Fault (List Reply) :=
  outcome (runOps NaiveEngine.step ops (NaiveEngine.new params))

end Beetree
