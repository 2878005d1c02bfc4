import Beetree.Types

/-! Tree nodes and the pure helpers the engines share (`src/node.rs`). -/
namespace Beetree

abbrev NodeId := ℕ

structure LeafEntry where
  seq : UInt64
  value : Value
  deriving DecidableEq

abbrev Buffer := OrdMap Key Message

abbrev Entries := OrdMap Key LeafEntry

inductive Node
  | internal (pivots : List Key) (children : List NodeId) (buffer : Buffer)
  | leaf (entries : Entries)
  deriving DecidableEq

def Node.children : Node → List NodeId
  | .internal _ cs _ => cs
  | .leaf _ => []

/-- The loop of the standard library's binary search: halve a window until one element is left in
it. -/
def bisect {α : Type} (p : α → Bool) (xs : List α) : ℕ → ℕ → ℕ → ℕ
  | 0, base, _ => base
  | fuel + 1, base, size =>
    if 1 < size then
      match xs[base + size / 2]? with
      | some x => bisect p xs fuel (if p x then base + size / 2 else base) (size - size / 2)
      | none => base
    else base

/-- The slice method of the same name. Where the list is not partitioned it gives some index, as the
method does. -/
def partitionPoint {α : Type} (p : α → Bool) (xs : List α) : ℕ :=
  let base := bisect p xs xs.length 0 xs.length
  match xs[base]? with
  | some x => if p x then base + 1 else base
  | none => base

/-- Child `i` owns the keys from pivot `i - 1` up to but excluding pivot `i`. -/
def route (pivots : List Key) (key : Key) : ℕ := partitionPoint (fun p => decide (p ≤ key)) pivots

inductive Delivery
  | leaf (emptied : Bool)
  | internal (overflowed : Bool)
  deriving DecidableEq

inductive Outcome
  | splits (promoted : List (Key × NodeId))
  | removed
  deriving DecidableEq

/-- A leaf is the bottom: a put sets the entry, a delete removes it, an upsert materializes. -/
def applyToLeaf (entries : Entries) (key : Key) (message : Message) : Entries :=
  match message with
  | .put seq value => entries.insert key ⟨seq, value⟩
  | .delete _ => entries.erase key
  | .upsert seq op => entries.insert key ⟨seq, op.apply ((entries.get? key).map LeafEntry.value)⟩

def coalesceInto (buffer : Buffer) (key : Key) (message : Message) : Buffer :=
  match buffer.get? key with
  | some older => buffer.insert key (message.coalesce older)
  | none => buffer.insert key message

/-- Resolve the wrapping sum of the pending additions against the terminal base. -/
def applyChain (chain : Option (BitVec 64)) (existing : Option Value) : Option Value :=
  match chain with
  | none => existing
  | some sum => some ((UpsertOp.add sum).apply existing)

inductive Bound
  | included (key : Key)
  | excluded (key : Key)
  | unbounded
  deriving DecidableEq

def Bound.admitsAbove : Bound → Key → Bool
  | .included a, k => decide (a ≤ k)
  | .excluded a, k => decide (a < k)
  | .unbounded, _ => true

def Bound.admitsBelow : Bound → Key → Bool
  | .included b, k => decide (k ≤ b)
  | .excluded b, k => decide (k < b)
  | .unbounded, _ => true

def inBounds (lo hi : Bound) (k : Key) : Bool := lo.admitsAbove k && hi.admitsBelow k

def rangeIsEmpty (lo hi : Bound) : Bool :=
  match lo, hi with
  | .included a, .included b => decide (b < a)
  | .included a, .excluded b => decide (b < a) || decide (a = b)
  | .excluded a, .included b => decide (b < a) || decide (a = b)
  | .excluded a, .excluded b => decide (b < a) || decide (a = b)
  | _, _ => false

def clipLower (lo : Bound) (pivot : Key) : Bound :=
  match lo with
  | .included a => if pivot ≤ a then lo else .included pivot
  | .excluded a => if pivot ≤ a then lo else .included pivot
  | .unbounded => .included pivot

def clipUpper (hi : Bound) (pivot : Key) : Bound :=
  match hi with
  | .included b => if b < pivot then hi else .excluded pivot
  | .excluded b => if b < pivot then hi else .excluded pivot
  | .unbounded => .excluded pivot

/-- The bindings in range, or nothing where `BTreeMap::range` panics. -/
def rangeOf {ν : Type} (m : OrdMap Key ν) (lo hi : Bound) : Option (OrdMap Key ν) :=
  match lo, hi with
  | .included a, .included b => if b < a then none else some (m.filter (inBounds lo hi))
  | .included a, .excluded b => if b < a then none else some (m.filter (inBounds lo hi))
  | .excluded a, .included b => if b < a then none else some (m.filter (inBounds lo hi))
  | .excluded a, .excluded b =>
    if b < a ∨ a = b then none else some (m.filter (inBounds lo hi))
  | _, _ => some (m.filter (inBounds lo hi))

/-- Halving recursion with an explicit depth, which `n` bounds whenever the cap is positive. -/
def partitionSizesAux : ℕ → ℕ → ℕ → List ℕ
  | 0, n, _ => [n]
  | fuel + 1, n, cap =>
    if n ≤ cap then [n]
    else partitionSizesAux fuel (n / 2) cap ++ partitionSizesAux fuel (n - n / 2) cap

def partitionSizes (n cap : ℕ) : List ℕ := partitionSizesAux n n cap

end Beetree
