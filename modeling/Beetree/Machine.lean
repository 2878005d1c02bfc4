import Beetree.Policy
import Beetree.Trace

/-! The tree machinery of both engines.

`src/betree.rs` and the second half of `src/disk.rs` are the same code over two node stores: an
arena whose nodes are always in memory, and an array of slots that are loaded on demand. The code is
given once here over the operations in which the stores differ. A `Vec` used as a stack is a list
whose head is the top.

The build modelled checks arithmetic for overflow and leaves out the `debug_assert!`s. What these
say is part of the invariants: that a message is newer than what it meets (`Tree.Below`), that a node
without children has an empty buffer (`Tree.Valid`), and that no pinned node is evicted
(`DiskStore.Ages`). -/
namespace Beetree

/-- How the machinery reaches nodes. `mutate` is mutable access, which marks the node dirty; its
function returns nothing where the source is `unreachable!`. Loading and releasing are trivial for
the arena. -/
class NodeStore (St : Type) where
  loaded : NodeId → EStateM Fault St Node
  mutate : NodeId → (Node → Option Node) → EStateM Fault St Node
  alloc : Node → EStateM Fault St NodeId
  releaseSlot : NodeId → EStateM Fault St Unit
  isDirty : NodeId → EStateM Fault St Bool
  ensureLoaded : NodeId → List NodeId → EStateM Fault St Unit

/-- The fields both engines have, around their store. -/
structure Engine (π St : Type) where
  params : Params
  store : St
  root : NodeId
  nextSeq : UInt64
  opsSinceCommit : ℕ
  policy : π
  trace : Recorder

/-- Occupancy per child: one slot bumped for each buffered message. -/
def occupancies (pivots : List Key) (n : ℕ) (buffer : Buffer) : List ℕ :=
  buffer.toList.foldl (fun occ x => occ.modify (route pivots x.1) (· + 1)) (List.replicate n 0)

def pendingBytes (pivots : List Key) (n : ℕ) (buffer : Buffer) : List ℕ :=
  buffer.toList.foldl (fun occ x => occ.modify (route pivots x.1) (· + entryBytes x.1 x.2))
    (List.replicate n 0)

/-- Split the buffer into the chosen child's batch and what stays behind. -/
def extract (pivots : List Key) (chosen : ℕ) (buffer : Buffer) : Option (Buffer × Buffer) := do
  let (batch, rest) ← match chosen with
    | 0 => some (buffer, OrdMap.empty)
    | i + 1 =>
      match pivots[i]? with
      | some p => some (buffer.filter (fun k => p ≤ k), buffer.filter (fun k => k < p))
      | none => none
  match pivots[chosen]? with
  | some hi => some (batch.filter (fun k => k < hi), rest.append (batch.filter (fun k => hi ≤ k)))
  | none => some (batch, rest)

/-- Deliver a batch to a node: materialize into a leaf, coalesce into a buffer. -/
def Node.receive (batch : Buffer) : Node → Node
  | .leaf entries => .leaf (batch.toList.foldl (fun es x => applyToLeaf es x.1 x.2) entries)
  | .internal pivots children buffer =>
    .internal pivots children (batch.toList.foldl (fun b x => coalesceInto b x.1 x.2) buffer)

/-- Route a message at the root: a leaf materializes it, a buffer coalesces it. -/
def Node.accept (key : Key) (message : Message) : Node → Node
  | .leaf entries => .leaf (applyToLeaf entries key message)
  | .internal pivots children buffer => .internal pivots children (coalesceInto buffer key message)

/-- Insert one promoted pivot and its right piece. -/
def integrate : List Key → List NodeId → List (Key × NodeId) → Option (List Key × List NodeId)
  | pivots, children, [] => some (pivots, children)
  | pivots, children, (pivot, child) :: promoted =>
    let pos := partitionPoint (fun p => decide (p < pivot)) pivots
    if pos + 1 ≤ children.length then
      integrate (pivots.insertIdx pos pivot) (children.insertIdx (pos + 1) child) promoted
    else none

def Node.setBuffer (rest : Buffer) : Node → Option Node
  | .internal pivots children _ => some (.internal pivots children rest)
  | .leaf _ => none

def Node.setEntries (entries : Entries) : Node → Option Node
  | .leaf _ => some (.leaf entries)
  | .internal .. => none

def Node.setInternal (node : Node) : Node → Option Node
  | .internal .. => some node
  | .leaf _ => none

def Node.integrate (promoted : List (Key × NodeId)) : Node → Option Node
  | .internal pivots children buffer =>
    (Beetree.integrate pivots children promoted).map fun x => .internal x.1 x.2 buffer
  | .leaf _ => none

def leafPieces : List ℕ → List (Key × LeafEntry) → List Entries
  | [], _ => []
  | size :: sizes, items => OrdMap.ofList (items.take size) :: leafPieces sizes (items.drop size)

def pieceStarts : ℕ → List ℕ → List (ℕ × ℕ)
  | _, [] => []
  | acc, size :: sizes => (acc, size) :: pieceStarts (acc + size) sizes

def slice {α : Type} (xs : List α) (start stop : ℕ) : Option (List α) :=
  if start ≤ stop ∧ stop ≤ xs.length then some ((xs.take stop).drop start) else none

/-- Peel one piece off the right end of the buffer; pieces are collected in ascending order. -/
def peelPiece (pivots : List Key) (children : List NodeId) (st : Buffer × List (Key × Node))
    (piece : ℕ × ℕ) : Option (Buffer × List (Key × Node)) := do
  let (start, size) := piece
  let pivot ← if start = 0 then none else pivots[start - 1]?
  let piecePivots ← if size = 0 then none else slice pivots start (start + size - 1)
  let pieceChildren ← slice children start (start + size)
  let pieceBuffer := st.1.filter (fun k => pivot ≤ k)
  some (st.1.filter (fun k => k < pivot),
    (pivot, Node.internal piecePivots pieceChildren pieceBuffer) :: st.2)

/-- The first piece, kept in place, and the promoted pieces with their separators. -/
def internalPieces (pivots : List Key) (children : List NodeId) (buffer : Buffer) (sizes : List ℕ) :
    Option (Node × List (Key × Node)) := do
  let starts := pieceStarts 0 sizes
  let (_, first) ← starts.head?
  let (buffer, pieces) ← starts.tail.reverse.foldlM (peelPiece pivots children) (buffer, [])
  let firstPivots ← if first = 0 then none else slice pivots 0 (first - 1)
  let firstChildren ← slice children 0 first
  some (.internal firstPivots firstChildren buffer, pieces)

/-- Drop a child and its adjacent pivot: the left one if there is one, else the right one. Removing
a pivot that is not there panics. -/
def unlink (child : NodeId) : Node → Option Node
  | .leaf _ => none
  | .internal pivots children buffer =>
    match children.findIdx? (fun c => c = child) with
    | none => none
    | some at_ =>
      if 0 < at_ ∧ pivots.length ≤ at_ - 1 then none
      else some (.internal (if 0 < at_ then pivots.eraseIdx (at_ - 1) else pivots.eraseIdx 0)
        (children.eraseIdx at_) buffer)

structure ScanFrame where
  id : NodeId
  lo : Bound
  hi : Bound
  nextChild : ℕ
  acc : OrdMap Key Value

/-- Fold one message onto the results gathered below it. -/
def applyScan (acc : OrdMap Key Value) (key : Key) (message : Message) : OrdMap Key Value :=
  match message with
  | .put _ value => acc.insert key value
  | .delete _ => acc.erase key
  | .upsert _ op => acc.insert key (op.apply (acc.get? key))

namespace Engine
variable {π St : Type} [FlushPolicy π] [NodeStore St]

abbrev Act (π St α : Type) := EStateM Fault (Engine π St) α

def onStore {α : Type} (m : EStateM Fault St α) : Act π St α := fun e =>
  match m e.store with
  | .ok a s => .ok a { e with store := s }
  | .error x s => .error x { e with store := s }

def loaded (id : NodeId) : Act π St Node := onStore (NodeStore.loaded id)

def mutate (id : NodeId) (f : Node → Option Node) : Act π St Node := onStore (NodeStore.mutate id f)

def alloc (node : Node) : Act π St NodeId := onStore (NodeStore.alloc node)

def releaseSlot (id : NodeId) : Act π St Unit := onStore (NodeStore.releaseSlot id)

def isDirty (id : NodeId) : Act π St Bool := onStore (NodeStore.isDirty id)

def ensureLoaded (id : NodeId) (pins : List NodeId) : Act π St Unit :=
  onStore (NodeStore.ensureLoaded id pins)

def setRoot (id : NodeId) : Act π St Unit := modify fun e => { e with root := id }

def record (f : Recorder → Recorder) : Act π St Unit := modify fun e =>
    { e with trace := f e.trace }

def consult (ctx : FlushCtx) : Act π St ℕ := fun e =>
  let (chosen, policy) := FlushPolicy.choose e.policy ctx
  .ok chosen { e with policy := policy }

def bufferLen (id : NodeId) : Act π St ℕ := do
  match ← loaded id with
  | .internal _ _ buffer => pure buffer.size
  | .leaf _ => throw .panic

/-- Drain mode: does any buffer in a subtree hold messages? -/
def subtreeHasMessages (pins : List NodeId) : ℕ → List NodeId → Act π St Bool
  | 0, _ => throw .fuel
  | _ + 1, [] => pure false
  | fuel + 1, id :: stack => do
    ensureLoaded id pins
    match ← loaded id with
    | .internal _ children buffer =>
      if buffer.isEmpty then subtreeHasMessages pins fuel (children.reverse ++ stack)
      else pure true
    | .leaf _ => subtreeHasMessages pins fuel stack

/-- The first child whose subtree still holds messages. -/
def findBuffered (fuel : ℕ) (flushing : List NodeId) : List NodeId → Act π St (Option NodeId)
  | [] => pure none
  | child :: children => do
    if ← subtreeHasMessages (child :: flushing) fuel [child] then pure (some child)
    else findBuffered fuel flushing children

def removeChild (parent child : NodeId) : Act π St Unit := do
  let _ ← mutate parent (unlink child)
  releaseSlot child

/-- The flush target: the policy's choice from a fresh context, or the greedy rule when draining. -/
def chooseChild (id : NodeId) (depth : ℕ) (policyMode : Bool) (pivots : List Key)
    (children : List NodeId) (buffer : Buffer) (occ : List ℕ) : Act π St ℕ :=
  if policyMode then do
    let childDirty ← children.mapM isDirty
    let e ← get
    consult {
      node := id
      depth := depth
      childPending := occ
      childPendingBytes := pendingBytes pivots children.length buffer
      childDirty := childDirty
      bufferTotal := buffer.size
      opsSinceCommit := e.opsSinceCommit }
  else pure (GreedyFullest.pick occ)

/-- A way to take a batch out of a node at some depth: the chosen index and child, the occupancies
and the batch. -/
abbrev Pick (π St : Type) := NodeId → ℕ → Bool → Act π St (ℕ × NodeId × List ℕ × Buffer)

/-- Choose a flush target and remove every buffered message destined for it. -/
def pickAndExtract : Pick π St := fun id depth policyMode => do
  match ← loaded id with
  | .leaf _ => throw .panic
  | .internal pivots children buffer =>
    if buffer.toList.any (fun x => children.length ≤ route pivots x.1) then throw .panic
    else
      let occ := occupancies pivots children.length buffer
      let chosen ← chooseChild id depth policyMode pivots children buffer occ
      if occ.getD chosen 0 = 0 then throw .panic
      else
        match extract pivots chosen buffer, children[chosen]? with
        | some (batch, rest), some child => do
          let _ ← mutate id (Node.setBuffer rest)
          pure (chosen, child, occ, batch)
        | _, _ => throw .panic

def applyBatch (childId : NodeId) (batch : Buffer) (pins : List NodeId) (threshold : ℕ) :
    Act π St Delivery := do
  ensureLoaded childId pins
  match ← mutate childId (fun n => some (n.receive batch)) with
  | .leaf entries => pure (.leaf entries.isEmpty)
  | .internal _ _ buffer => pure (.internal (decide (threshold < buffer.size)))

def integrateSplits (id : NodeId) (promoted : List (Key × NodeId)) : Act π St Unit := do
  if promoted.isEmpty then pure ()
  else
    let _ ← mutate id (Node.integrate promoted)

/-- Allocate the promoted pieces in ascending order. -/
def allocPieces : List (Key × Node) → Act π St (List (Key × NodeId))
  | [] => pure []
  | (pivot, node) :: pieces => do
    let id ← alloc node
    let promoted ← allocPieces pieces
    pure ((pivot, id) :: promoted)

def splitLeaf (id : NodeId) : Act π St (List (Key × NodeId)) := do
  match ← loaded id with
  | .internal .. => throw .panic
  | .leaf entries =>
    let _ ← mutate id (Node.setEntries OrdMap.empty)
    let e ← get
    match leafPieces (partitionSizes entries.size e.params.leafCapacity.toNat) entries.toList with
    | [] => throw .panic
    | first :: pieces =>
      let _ ← mutate id (Node.setEntries first)
      match pieces.mapM (fun piece => piece.toList.head?.map fun x => (x.1, Node.leaf piece)) with
      | none => throw .panic
      | some pieces => allocPieces pieces

def splitInternal (id : NodeId) : Act π St (List (Key × NodeId)) := do
  match ← loaded id with
  | .leaf _ => throw .panic
  | .internal pivots children buffer =>
    let _ ← mutate id (Node.setInternal (.internal [] [] OrdMap.empty))
    let e ← get
    match internalPieces pivots children buffer
      (partitionSizes children.length e.params.fanout.toNat) with
    | none => throw .panic
    | some (first, pieces) =>
      let _ ← mutate id (Node.setInternal first)
      allocPieces pieces

def splitIfNeeded (id : NodeId) : Act π St (List (Key × NodeId)) := do
  match ← loaded id with
  | .leaf entries =>
    if (← get).params.leafCapacity.toNat < entries.size then splitLeaf id else pure []
  | .internal _ children _ =>
    if (← get).params.fanout.toNat < children.length then splitInternal id else pure []

/-- A flushed node's parting word to its parent. -/
def settle (id : NodeId) : Act π St Outcome := do
  match ← loaded id with
  | .internal _ [] _ => pure .removed
  | _ => pure (.splits (← splitIfNeeded id))

def descend (fuel threshold : ℕ) (flushing : List NodeId) (top : NodeId) :
    Act π St (Option NodeId) :=
  if threshold = 0 then do findBuffered fuel flushing (← loaded top).children else pure none

/-- Hand a settled child's outcome to its parent in the cascade. -/
def absorb (parent child : NodeId) : Outcome → Act π St Unit
  | .splits promoted => integrateSplits parent promoted
  | .removed => removeChild parent child

def traceFlush (traceFlushes : Bool) (node : NodeId) (occ : List ℕ) (chosen : ℕ) : Act π St Unit :=
  if traceFlushes then record fun r => r.flushDecision node occ chosen else pure ()

/-- The cascade; the stack holds the flushing nodes, innermost first. The engines pick with
`pickAndExtract`. -/
def flushLoop (pick : Pick π St) (fuel threshold : ℕ) (traceFlushes : Bool) :
    ℕ → List NodeId → Act π St Outcome
  | 0, _ => throw .fuel
  | _ + 1, [] => throw .panic
  | n + 1, top :: below => do
    if (← bufferLen top) ≤ threshold then
      match ← descend fuel threshold (top :: below) top with
      | some child => flushLoop pick fuel threshold traceFlushes n (child :: top :: below)
      | none =>
        let outcome ← settle top
        match below with
        | [] => pure outcome
        | parent :: _ =>
          absorb parent top outcome
          flushLoop pick fuel threshold traceFlushes n below
    else
      let (chosen, childId, occ, batch) ← pick top below.length traceFlushes
      traceFlush traceFlushes top occ chosen
      match ← applyBatch childId batch (top :: below) threshold with
      | .internal true => flushLoop pick fuel threshold traceFlushes n (childId :: top :: below)
      | .leaf true =>
        removeChild top childId
        flushLoop pick fuel threshold traceFlushes n (top :: below)
      | _ =>
        let promoted ← splitIfNeeded childId
        integrateSplits top promoted
        flushLoop pick fuel threshold traceFlushes n (top :: below)

def flushWith (pick : Pick π St) (fuel : ℕ) (id : NodeId) (threshold : ℕ) (traceFlushes : Bool) :
    Act π St Outcome :=
  flushLoop pick fuel threshold traceFlushes fuel [id]

/-- What becomes of the root: an internal one is flushed, a leaf is split. -/
def settleRoot (pick : Pick π St) (fuel threshold : ℕ) (traceFlushes : Bool) (root : NodeId) :
    Act π St Outcome := do
  match ← loaded root with
  | .internal .. => flushWith pick fuel root threshold traceFlushes
  | .leaf _ => do pure (.splits (← splitIfNeeded root))

/-- Settle the root, growing the tree upward while it splits. -/
def growLoop (pick : Pick π St) (fuel threshold : ℕ) (traceFlushes : Bool) : ℕ → Act π St Unit
  | 0 => throw .fuel
  | n + 1 => do
    let e ← get
    match ← settleRoot pick fuel threshold traceFlushes e.root with
    | .removed =>
      let new ← alloc (.leaf OrdMap.empty)
      setRoot new
      releaseSlot e.root
    | .splits [] => pure ()
    | .splits promoted =>
      let new ← alloc (.internal (promoted.map Prod.fst) (e.root :: promoted.map Prod.snd)
        OrdMap.empty)
      setRoot new
      growLoop pick fuel threshold traceFlushes n

/-- Promote a lone child while the root's buffer is empty. -/
def collapseLoop : ℕ → Act π St Unit
  | 0 => throw .fuel
  | n + 1 => do
    let e ← get
    match ← loaded e.root with
    | .internal _ [child] buffer =>
      if buffer.isEmpty then
        setRoot child
        releaseSlot e.root
        ensureLoaded child []
        collapseLoop n
      else pure ()
    | _ => pure ()

def restoreRootBy (pick : Pick π St) (fuel threshold : ℕ) (traceFlushes : Bool) :
    Act π St Unit := do
  growLoop pick fuel threshold traceFlushes fuel
  collapseLoop fuel

def restoreRootWith (fuel threshold : ℕ) (traceFlushes : Bool) : Act π St Unit :=
  restoreRootBy pickAndExtract fuel threshold traceFlushes

def restoreRoot (fuel : ℕ) : Act π St Unit := do
  restoreRootWith fuel (← get).params.bufferCapacity.toNat true

def applyRoot (fuel : ℕ) (key : Key) (message : Message) : Act π St Unit := do
  let _ ← mutate (← get).root (fun n => some (n.accept key message))
  restoreRoot fuel

def stamp (op : OpKind2) : Act π St UInt64 := do
  let e ← get
  if e.nextSeq.toNat + 1 < 2 ^ 64 then
    set { e with
      nextSeq := e.nextSeq + 1
      opsSinceCommit := e.opsSinceCommit + 1
      trace := e.trace.op (e.nextSeq + 1) op : Engine π St }
    pure (e.nextSeq + 1)
  else throw .overflow

/-- The walk of a point read below one node, with the pending additions so far. -/
def getLoop (key : Key) : ℕ → Option (BitVec 64) → NodeId → Act π St (Option Value)
  | 0, _, _ => throw .fuel
  | n + 1, chain, id => do
    ensureLoaded id []
    match ← loaded id with
    | .leaf entries => pure (applyChain chain ((entries.get? key).map LeafEntry.value))
    | .internal pivots children buffer =>
      match buffer.get? key with
      | some (.put _ value) => pure (applyChain chain (some value))
      | some (.delete _) => pure (applyChain chain none)
      | some (.upsert _ (.add delta)) =>
        match children[route pivots key]? with
        | some child => getLoop key n (some (chain.getD 0 + delta)) child
        | none => throw .panic
      | none =>
        match children[route pivots key]? with
        | some child => getLoop key n chain child
        | none => throw .panic

def lookup (fuel : ℕ) (key : Key) : Act π St (Option Value) := do
  record fun r => r.get key
  getLoop key fuel none (← get).root

/-- The bounds a scan passes to child `i`, or nothing where indexing the pivots panics. -/
def childBounds (pivots : List Key) (lo hi : Bound) (i : ℕ) : Option (Bound × Bound) := do
  let cLo ← if i = 0 then some lo else (pivots[i - 1]?).map (clipLower lo)
  let cHi ← if i = pivots.length then some hi else (pivots[i]?).map (clipUpper hi)
  some (cLo, cHi)

/-- The loop of a scan, with the fault of a range that panics as a parameter. -/
def scanLoopOr (bad : Fault) : ℕ → List ScanFrame → Act π St (List (Key × Value))
  | 0, _ => throw .fuel
  | _ + 1, [] => throw .panic
  | n + 1, frame :: rest => do
    match ← loaded frame.id with
    | .leaf _ => throw .panic
    | .internal pivots children buffer =>
      match children[frame.nextChild]? with
      | some child =>
        let next := { frame with nextChild := frame.nextChild + 1 }
        match childBounds pivots frame.lo frame.hi frame.nextChild with
        | none => throw .panic
        | some (cLo, cHi) =>
          if rangeIsEmpty cLo cHi then scanLoopOr bad n (next :: rest)
          else
            ensureLoaded child ((frame :: rest).map ScanFrame.id)
            match ← loaded child with
            | .leaf entries =>
              match rangeOf entries cLo cHi with
              | none => throw bad
              | some es =>
                scanLoopOr bad n ({ next with
                  acc := es.toList.foldl (fun m x => m.insert x.1 x.2.value) frame.acc } :: rest)
            | .internal .. => scanLoopOr bad n (⟨child, cLo, cHi, 0, OrdMap.empty⟩ :: next :: rest)
      | none =>
        match rangeOf buffer frame.lo frame.hi with
        | none => throw bad
        | some messages =>
          let acc := messages.toList.foldl (fun m x => applyScan m x.1 x.2) frame.acc
          match rest with
          | [] => pure acc.toList
          | parent :: rest =>
            scanLoopOr bad n ({ parent with acc := parent.acc.append acc } :: rest)

abbrev scanLoop (n : ℕ) (frames : List ScanFrame) : Act π St (List (Key × Value)) :=
    scanLoopOr .panic n frames

def scanOr (bad : Fault) (fuel : ℕ) (lo hi : Bound) : Act π St (List (Key × Value)) := do
  record fun r => r.scan lo hi
  if rangeIsEmpty lo hi then pure []
  else
    let root := (← get).root
    ensureLoaded root []
    match ← loaded root with
    | .leaf entries =>
      match rangeOf entries lo hi with
      | none => throw bad
      | some es => pure (es.toList.map fun x => (x.1, x.2.value))
    | .internal .. => scanLoopOr bad fuel [⟨root, lo, hi, 0, OrdMap.empty⟩]

abbrev scan (fuel : ℕ) (lo hi : Bound) : Act π St (List (Key × Value)) := scanOr .panic fuel lo hi

def loadLoop : ℕ → List NodeId → Act π St Unit
  | 0, _ => throw .fuel
  | _ + 1, [] => pure ()
  | n + 1, id :: stack => do
    ensureLoaded id []
    loadLoop n ((← loaded id).children.reverse ++ stack)

def loadAll (fuel : ℕ) : Act π St Unit := do loadLoop fuel [(← get).root]

/-- Walk dirty-only edges, listing parents before their descendants. -/
def dirtyWalk : ℕ → List NodeId → Act π St (List NodeId)
  | 0, _ => throw .fuel
  | _ + 1, [] => pure []
  | n + 1, id :: visit => do
    let children := (← loaded id).children
    let dirty ← children.filterM isDirty
    let pre ← dirtyWalk n (dirty.reverse ++ visit)
    pure (id :: pre)

def dirtyNodes (fuel : ℕ) : Act π St (List NodeId) := do
  let root := (← get).root
  if ← isDirty root then dirtyWalk fuel [root] else pure []

/-- A mutating operation; an arena root is always loaded. -/
def mutateWith (fuel : ℕ) (op : OpKind2) : Act π St Unit := do
  ensureLoaded (← get).root []
  let seq ← stamp op
  applyRoot fuel op.key (op.message seq)

def drain (fuel : ℕ) : Act π St Unit := do
  ensureLoaded (← get).root []
  restoreRootWith fuel 0 false

def step (fuel : ℕ) (op : Op) : Act π St Reply :=
  match op with
  | .mutate op => do mutateWith fuel op; pure .done
  | .get key => do pure (.value (← lookup fuel key))
  | .scan lo hi => do pure (.listing (← scan fuel lo hi))
  | .drain => do drain fuel; pure .done

end Engine

def outcome {ε σ α : Type} : EStateM.Result ε σ α → Except ε α
  | .ok a _ => .ok a
  | .error x _ => .error x

/-- Run operations in order, collecting the replies. -/
def runOps {ε σ ω ρ : Type} (step : ω → EStateM ε σ ρ) : List ω → EStateM ε σ (List ρ)
  | [] => pure []
  | op :: ops => do
    let r ← step op
    let rs ← runOps step ops
    pure (r :: rs)

end Beetree
