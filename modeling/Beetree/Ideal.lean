import Beetree.Flags
import Beetree.Splitting

/-! The ideal store: what both stores amount to when records can always be read.

Nodes once read are remembered for good. What a bounded cache may have evicted is tracked on the
side: a node is certain to be in memory when it is dirty or kept, and access to any other node is
refused. While the store is free of a budget nothing is evicted. A stub carries the tree its record
describes. -/
namespace Beetree

abbrev Record := (h : ℕ) × VTree h

inductive Slot
  | loaded (node : Node) (dirty : Bool) (record : Option Record)
  | stub (record : Record)

def Slot.record : Slot → Option Record
  | loaded _ _ r => r
  | stub r => some r

structure Ideal where
  slots : NodeId → Option Slot
  next : NodeId
  kept : Set NodeId
  free : Bool

namespace Ideal

def put (s : Ideal) (id : NodeId) (slot : Option Slot) : Ideal :=
  { s with slots := Function.update s.slots id slot }

/-- Loading a node may evict everything clean that is not pinned. -/
def keep (s : Ideal) (id : NodeId) (pins : List NodeId) : Ideal :=
  { s with kept := insert id {i ∈ s.kept | s.free = true ∨ i ∈ pins} }

/-- A node that may have been evicted reads back as it was: its record has the same contents, over
the records of its children. -/
def ReadsBack (s : Ideal) : Node → Record → Prop
  | .leaf entries, ⟨0, d⟩ => d.entries = entries
  | .internal pivots children buffer, ⟨h + 1, d⟩ => d.pivots = pivots ∧ d.buffer = buffer ∧
      children.map (fun c => (s.slots c).bind Slot.record) = d.children.map fun e => some ⟨h, e⟩
  | _, _ => False

/-- The names given to the children of a stub when it is first read. -/
def names (s : Ideal) {h : ℕ} (d : VTree h) : List NodeId :=
  match h, d with
  | 0, _ => []
  | _ + 1, d => List.range' s.next d.children.length

/-- The node of a record whose children have the given names. -/
def nodeOf (ids : List NodeId) {h : ℕ} (d : VTree h) : Node :=
  match h, d with
  | 0, d => .leaf d.entries
  | _ + 1, d => .internal d.pivots ids d.buffer

def stubs {h : ℕ} (d : VTree h) : List Slot :=
  match h, d with
  | 0, _ => []
  | h + 1, d => d.children.map fun e => .stub ⟨h, e⟩

def addSlots (s : Ideal) : List Slot → Ideal
  | [] => s
  | slot :: slots => addSlots { s.put s.next (some slot) with next := s.next + 1 } slots

def expand (s : Ideal) (id : NodeId) {h : ℕ} (d : VTree h) : Ideal :=
  (s.addSlots (stubs d)).put id (some (.loaded (nodeOf (s.names d) d) false (some ⟨h, d⟩)))

open Classical in
noncomputable instance : NodeStore Ideal where
  loaded id s :=
    match s.slots id with
    | some (.loaded node dirty _) =>
      if dirty = true ∨ id ∈ s.kept then .ok node s else .error .panic s
    | _ => .error .panic s
  mutate id f s :=
    match s.slots id with
    | some (.loaded node dirty record) =>
      if dirty = true ∨ id ∈ s.kept then
        match f node with
        | some node' => .ok node' (s.put id (some (.loaded node' true record)))
        | none => .error .panic s
      else .error .panic s
    | _ => .error .panic s
  alloc node s :=
    .ok s.next { s.put s.next (some (.loaded node true none)) with next := s.next + 1 }
  releaseSlot id s :=
    match s.slots id with
    | some _ => .ok () (s.put id none)
    | none => .error .panic s
  isDirty id s :=
    match s.slots id with
    | some (.loaded _ dirty _) => .ok dirty s
    | some (.stub _) => .ok false s
    | none => .error .panic s
  ensureLoaded id pins s :=
    match s.slots id with
    | some (.loaded node dirty record) =>
      if dirty = true ∨ id ∈ s.kept then .ok () s
      else
        match record with
        | some r => if s.ReadsBack node r then .ok () (s.keep id pins) else .error .panic s
        | none => .error .panic s
    | some (.stub ⟨_, d⟩) => .ok () ((s.expand id d).keep id pins)
    | none => .error .panic s

lemma loaded_eq {s s' : Ideal} {id : NodeId} {n : Node} (h : NodeStore.loaded id s = .ok n s') :
    s' = s := by
  simp only [NodeStore.loaded] at h
  split at h
  · split_ifs at h
    cases h
    rfl
  · cases h

end Ideal
end Beetree
