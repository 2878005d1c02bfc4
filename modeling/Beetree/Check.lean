import Beetree.Trace

/-! The invariant checker shared by the engines (`src/check.rs`). -/
namespace Beetree

/-- How the checker resolves nodes; a name without a node in memory panics. -/
structure NodeSource where
  root : NodeId
  params : Params
  node : NodeId → Option Node

/-- Shallowest and deepest leaf so far. Nothing stands for the initial `usize::MAX`, which no depth
reaches. -/
structure LeafDepths where
  shallowest : Option ℕ
  deepest : ℕ

def LeafDepths.new : LeafDepths := ⟨none, 0⟩

def LeafDepths.see (depths : LeafDepths) (depth : ℕ) : LeafDepths :=
  ⟨some (depths.shallowest.elim depth fun s => min s depth), max depths.deepest depth⟩

inductive Frame
  | enter (id : NodeId) (lower upper : Option Key) (depth : ℕ) (overlay : List (Key × UInt64))
  | undo (entries : List (Key × Option UInt64))

def keyInRange (key : Key) (lower upper : Option Key) : Bool :=
  lower.all (fun lo => lo ≤ key) && upper.all (fun hi => key < hi)

/-- Put a subtree's messages above it into the map of newest numbers, remembering what they hide. -/
def applyOverlay : List (Key × UInt64) → OrdMap Key UInt64 →
    OrdMap Key UInt64 × List (Key × Option UInt64)
  | [], newest => (newest, [])
  | (key, seq) :: overlay, newest =>
    let r := applyOverlay overlay (newest.insert key seq)
    (r.1, (key, newest.get? key) :: r.2)

def undoOverlay (entries : List (Key × Option UInt64)) (newest : OrdMap Key UInt64) :
    OrdMap Key UInt64 :=
  entries.foldr (fun x m => match x.2 with
    | some seq => m.insert x.1 seq
    | none => m.erase x.1) newest

/-- I1 and I3 for the entries of a leaf or the messages of a buffer, in order. -/
def checkKeys (id : NodeId) (lower upper : Option Key) (newest : OrdMap Key UInt64) :
    List (Key × UInt64) → Option InvariantViolation
  | [] => none
  | (key, seq) :: rest =>
    if keyInRange key lower upper then
      match newest.get? key with
      | some above =>
        if above ≤ seq then some (.staleAncestor key above seq)
        else checkKeys id lower upper newest rest
      | none => checkKeys id lower upper newest rest
    else some (.keyOutsideOwnedRange id key)

def checkLeaf (src : NodeSource) (id : NodeId) (lower upper : Option Key)
    (newest : OrdMap Key UInt64)
    (entries : Entries) : Option InvariantViolation :=
  if src.params.leafCapacity.toNat < entries.size then
    some (.overCapacity id .leaf entries.size src.params.leafCapacity.toNat)
  else if entries.isEmpty && decide (id ≠ src.root) then some (.emptyNonRootLeaf id)
  else checkKeys id lower upper newest (entries.toList.map fun x => (x.1, x.2.seq))

/-- I2: the first pivot not above the one before it. -/
def checkPivotOrder (id : NodeId) : ℕ → List Key → Option InvariantViolation
  | i, p :: q :: pivots =>
    if q ≤ p then some (.pivotsOutOfOrder id i) else checkPivotOrder id (i + 1) (q :: pivots)
  | _, _ => none

def checkPivotRange (id : NodeId) (lower upper : Option Key) (pivots : List Key) :
    Option InvariantViolation :=
  (pivots.find? fun p => !keyInRange p lower upper).map fun p => .keyOutsideOwnedRange id p

def checkInternal (src : NodeSource) (id : NodeId) (lower upper : Option Key)
    (newest : OrdMap Key UInt64)
    (pivots : List Key) (children : List NodeId) (buffer : Buffer) : Option InvariantViolation :=
  match checkPivotOrder id 1 pivots with
  | some v => some v
  | none =>
    if children.length ≠ pivots.length + 1 then some
      (.pivotChildMismatch id pivots.length children.length)
    else if src.params.fanout.toNat < children.length then
      some (.overCapacity id .fanout children.length src.params.fanout.toNat)
    else if src.params.bufferCapacity.toNat < buffer.size then
      some (.overCapacity id .buffer buffer.size src.params.bufferCapacity.toNat)
    else
      match checkPivotRange id lower upper pivots with
      | some v => some v
      | none => checkKeys id lower upper newest (buffer.toList.map fun x => (x.1, x.2.seq))

def lowerBound (lower : Option Key) : Bound := lower.elim .unbounded .included

def upperBound (upper : Option Key) : Bound := upper.elim .unbounded .excluded

/-- The frame of child `i`, with the slice of the buffer it owns; nothing where indexing the pivots
or `BTreeMap::range` panics. -/
def childFrame (pivots : List Key) (lower upper : Option Key) (depth : ℕ) (buffer : Buffer)
    (child : NodeId × ℕ) : Option Frame := do
  let childLower ← if child.2 = 0 then some lower else (pivots[child.2 - 1]?).map some
  let childUpper := (pivots[child.2]?).or upper
  let overlay ← rangeOf buffer (lowerBound childLower) (upperBound childUpper)
  some (.enter child.1 childLower childUpper (depth + 1) (overlay.toList.map
    fun x => (x.1, x.2.seq)))

def checkTree (src : NodeSource) : ℕ → List Frame → OrdMap Key UInt64 → LeafDepths →
    Except Fault (Except InvariantViolation LeafDepths)
  | 0, _, _, _ => .error .fuel
  | _ + 1, [], _, depths => .ok (.ok depths)
  | n + 1, .undo entries :: stack, newest, depths =>
    checkTree src n stack (undoOverlay entries newest) depths
  | n + 1, .enter id lower upper depth overlay :: stack, newest, depths =>
    let r := applyOverlay overlay newest
    match src.node id with
    | none => .error .panic
    | some (.leaf entries) =>
      match checkLeaf src id lower upper r.1 entries with
      | some v => .ok (.error v)
      | none => checkTree src n (.undo r.2 :: stack) r.1 (depths.see depth)
    | some (.internal pivots children buffer) =>
      match checkInternal src id lower upper r.1 pivots children buffer with
      | some v => .ok (.error v)
      | none =>
        match children.zipIdx.mapM (childFrame pivots lower upper depth buffer) with
        | none => .error .panic
        | some frames => checkTree src n (frames.reverse ++ .undo r.2 :: stack) r.1 depths

def checkInvariants (fuel : ℕ) (src : NodeSource) : Except Fault (Except InvariantViolation Unit) :=
  match checkTree src fuel [.enter src.root none none 1 []] .empty .new with
  | .error x => .error x
  | .ok (.error v) => .ok (.error v)
  | .ok (.ok depths) =>
    if depths.shallowest ≠ some depths.deepest then
      .ok (.error (.unevenLeafDepth (depths.shallowest.getD (2 ^ 64 - 1)) depths.deepest))
    else .ok (.ok ())

end Beetree
