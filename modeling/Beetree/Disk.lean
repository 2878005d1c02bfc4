import Beetree.Check
import Beetree.Format
import Beetree.Machine
import Beetree.Vfs

/-! The engine on a device (`src/disk.rs`): the machinery over slots that are loaded on demand, a
bounded node cache, and the commit and open protocols.

Offsets, lengths and generations are `u64` values held as naturals with checked arithmetic. Counters
of events and of bytes in memory are unbounded. -/
namespace Beetree

def checkedAdd {σ : Type} (a b : ℕ) : EStateM Fault σ ℕ := if a + b < 2 ^ 64 then pure (a + b)
    else throw .overflow

def checkedSub {σ : Type} (a b : ℕ) : EStateM Fault σ ℕ := if b ≤ a then pure (a - b)
    else throw .overflow

/-- A node slot. A node in memory remembers the record it was last written to, the bytes it is
charged to the cache and its last access. -/
inductive NodeSlot
  | loaded (node : Node) (dirty : Bool) (diskOffset : Option ℕ) (bytes lastTick : ℕ)
  | onDisk (offset : ℕ)
  | freed
  deriving DecidableEq

/-- The node cache. The oldest access is at the head of `lru`. -/
structure Cache where
  budget : Option ℕ
  bytes : ℕ
  resident : ℕ
  tick : ℕ
  lru : List (NodeId × ℕ)
  hits : ℕ
  misses : ℕ
  evictions : ℕ
  overcommitEvents : ℕ
  deriving DecidableEq

def Cache.new (budget : Option ℕ) : Cache := ⟨budget, 0, 0, 0, [], 0, 0, 0, 0⟩

def estMessage : Message → ℕ
  | .put _ value => 20 + value.length
  | .delete _ => 12
  | .upsert _ _ => 24

/-- The estimated size of a node that has changed since it was last written. -/
def estBytes : Node → ℕ
  | .leaf entries => 16 + (entries.toList.map fun x => 24 + x.1.length + x.2.value.length).sum
  | .internal pivots children buffer =>
    28 + (pivots.map fun p => 8 + p.length).sum + 8 * children.length +
      (buffer.toList.map fun x => 12 + x.1.length + estMessage x.2).sum

structure DiskStore (V : Type) where
  vfs : V
  slots : List NodeSlot
  nextGeneration : ℕ
  watermark : ℕ
  poisoned : Bool
  cache : Cache
  offsets : OrdMap ℕ NodeId

def NodeSlot.stamp (tick : ℕ) : NodeSlot → NodeSlot
  | loaded node dirty diskOffset bytes _ => loaded node dirty diskOffset bytes tick
  | slot => slot

/-- Whether an access is the last one to its node; nothing where indexing the slots panics. -/
def isCurrent (slots : List NodeSlot) (access : NodeId × ℕ) : Option Bool :=
  match slots[access.1]? with
  | some (.loaded _ _ _ _ lastTick) => some (lastTick = access.2)
  | some _ => some false
  | none => none

namespace DiskStore
variable {V : Type}

abbrev Act (V α : Type) := EStateM Fault (DiskStore V) α

def onVfs {α : Type} (m : EStateM Fault V α) : Act V α := fun s =>
  match m s.vfs with
  | .ok a v => .ok a { s with vfs := v }
  | .error f v => .error f { s with vfs := v }

def stamp (id : NodeId) (s : DiskStore V) : DiskStore V :=
  { s with
    slots := s.slots.modify id (NodeSlot.stamp (s.cache.tick + 1))
    cache := { s.cache with
      tick := s.cache.tick + 1
      lru := s.cache.lru ++ [(id, s.cache.tick + 1)] } }

/-- Note an access, dropping superseded ones when there are many. Without a budget nothing is
noted. -/
def touch (id : NodeId) : Act V Unit := fun s =>
  if s.cache.budget = none then .ok () s
  else if s.slots.length ≤ id then .error .panic s
  else
    let s := s.stamp id
    if max 64 (s.cache.resident * 4) < s.cache.lru.length then
      match s.cache.lru.filterM (isCurrent s.slots) with
      | some lru => .ok () { s with cache := { s.cache with lru := lru } }
      | none => .error .panic s
    else .ok () s

/-- A clean node goes back to being its record. -/
def evict (id : NodeId) (diskOffset : Option ℕ) (bytes : ℕ) : Act V Unit := fun s =>
  match diskOffset with
  | none => .error .panic s
  | some offset =>
    if bytes ≤ s.cache.bytes ∧ 1 ≤ s.cache.resident then
      .ok () { s with
        slots := s.slots.set id (.onDisk offset)
        cache := { s.cache with
          bytes := s.cache.bytes - bytes
          resident := s.cache.resident - 1
          evictions := s.cache.evictions + 1 } }
    else .error .overflow s

/-- Examine the oldest accesses until the budget is met, each access noted so far at most once. -/
def enforceLoop (budget : ℕ) (pins : List NodeId) (justLoaded : Option NodeId) : ℕ → Act V Unit
  | 0 => pure ()
  | n + 1 => do
    let s ← get
    if s.cache.bytes ≤ budget then pure ()
    else
      match s.cache.lru with
      | [] => pure ()
      | (id, tick) :: lru =>
        set { s with cache := { s.cache with lru := lru } }
        match s.slots[id]? with
        | none => throw .panic
        | some (.loaded _ dirty diskOffset bytes lastTick) =>
          if lastTick ≠ tick then enforceLoop budget pins justLoaded n
          else if dirty = true ∨ id ∈ pins ∨ justLoaded = some id then
            modify (stamp id)
            enforceLoop budget pins justLoaded n
          else
            evict id diskOffset bytes
            enforceLoop budget pins justLoaded n
        | some _ => enforceLoop budget pins justLoaded n

def noteOvercommit (budget : ℕ) (s : DiskStore V) : DiskStore V :=
  if budget < s.cache.bytes then
    { s with cache := { s.cache with overcommitEvents := s.cache.overcommitEvents + 1 } }
  else s

/-- Evict clean nodes, the longest unused first, until the budget is met or only dirty and pinned
ones are left. -/
def enforceBudget (pins : List NodeId) (justLoaded : Option NodeId) : Act V Unit := do
  let s ← get
  match s.cache.budget with
  | none => pure ()
  | some budget =>
    enforceLoop budget pins justLoaded s.cache.lru.length
    modify (noteOvercommit budget)

def allocDirty (node : Node) : Act V NodeId := do
  let s ← get
  set { s with
    slots := s.slots ++ [.loaded node true none (estBytes node) 0]
    cache := { s.cache with
      bytes := s.cache.bytes + estBytes node
      resident := s.cache.resident + 1 } : DiskStore V }
  touch s.slots.length
  pure s.slots.length

/-- The slot of a record: records never change, so a slot that has the record's offset is its
node. -/
def allocOnDisk (offset : ℕ) : Act V NodeId := fun s =>
  let fresh := EStateM.Result.ok s.slots.length { s with
    slots := s.slots ++ [.onDisk offset]
    offsets := s.offsets.insert offset s.slots.length }
  match s.offsets.get? offset with
  | none => fresh
  | some id =>
    match s.slots[id]? with
    | none => .error .panic s
    | some .freed => fresh
    | some _ => .ok id s

/-- Drop an unlinked node. Its name is not used again. -/
def releaseSlot (id : NodeId) : Act V Unit := fun s =>
  match s.slots[id]? with
  | none => .error .panic s
  | some (.loaded _ _ diskOffset bytes _) =>
    if bytes ≤ s.cache.bytes ∧ 1 ≤ s.cache.resident then
      .ok () { s with
        slots := s.slots.set id .freed
        cache := { s.cache with bytes := s.cache.bytes - bytes, resident := s.cache.resident - 1 }
        offsets := diskOffset.elim s.offsets s.offsets.erase }
    else .error .overflow s
  | some (.onDisk offset) =>
    .ok () { s with slots := s.slots.set id .freed, offsets := s.offsets.erase offset }
  | some .freed => .ok () s

def isDirty (id : NodeId) : Act V Bool := fun s =>
  match s.slots[id]? with
  | none => .error .panic s
  | some (.loaded _ dirty _ _ _) => .ok dirty s
  | some _ => .ok false s

/-- The node in memory; any other slot is an engine bug. -/
def loaded (id : NodeId) : Act V Node := fun s =>
  match s.slots[id]? with
  | some (.loaded node _ _ _ _) => .ok node s
  | _ => .error .panic s

/-- Change a node in memory and mark it dirty. It is charged by its size before the change. -/
def loadedMut (id : NodeId) (f : Node → Option Node) : Act V Node := fun s =>
  match s.slots[id]? with
  | some (.loaded node _ diskOffset bytes lastTick) =>
    match f node with
    | none => .error .panic s
    | some node' =>
      if bytes ≤ s.cache.bytes then
        .ok node' { s with
          slots := s.slots.set id (.loaded node' true diskOffset (estBytes node) lastTick)
          cache := { s.cache with bytes := s.cache.bytes - bytes + estBytes node } }
      else .error .overflow s
  | _ => .error .panic s

def corrupt {α : Type} (offset : ℕ) (reason : CorruptReason) :
    Act V α := throw (.storage (.corruptNode offset reason))

section Records
variable [Vfs V] [Crc32Fast]

/-- Read and check the record at an offset: the node and the length of its payload. -/
def readRecord (offset : ℕ) : Act V (DiskNode × ℕ) := do
  let watermark := (← get).watermark
  if offset < dataStart ∨ watermark - recordHeaderSize < offset then
    corrupt offset (.header watermark)
  else
    let header ← onVfs (Vfs.readExactAt offset recordHeaderSize)
    let len := leNat (header.take 4)
    let stored := leNat (header.drop 4)
    let start ← checkedAdd offset recordHeaderSize
    let room ← checkedSub watermark start
    if room < len then corrupt offset (.payload len watermark)
    else
      let payload ← onVfs (Vfs.readExactAt start len)
      let computed := Crc32Fast.hash payload
      if computed.toNat ≠ stored then corrupt offset (.checksum (UInt32.ofNat stored) computed)
      else
        match decodeNode payload with
        | .error reason => corrupt offset reason
        | .ok node => pure (node, payload.length)

/-- The node of a record, its children as slots. The arity is checked, and that children come before
their parent in the file. -/
def internChildren (offset : ℕ) : DiskNode → Act V Node
  | .leaf entries => pure (.leaf entries)
  | .internal pivots children buffer =>
    if children.length ≠ pivots.length + 1 then corrupt offset
      (.arity pivots.length children.length)
    else
      match children.find? (fun c => decide (c.toNat < dataStart) || decide (offset ≤ c.toNat)) with
      | some child => corrupt offset (.childOffset child.toNat offset)
      | none => do
        let ids ← children.mapM fun c => allocOnDisk c.toNat
        pure (.internal pivots ids buffer)

def place (id : NodeId) (node : Node) (offset bytes : ℕ) (s : DiskStore V) : DiskStore V :=
  { s with
    slots := s.slots.set id (.loaded node false (some offset) bytes 0)
    cache := { s.cache with
      bytes := s.cache.bytes + bytes
      resident := s.cache.resident + 1
      misses := s.cache.misses + 1 } }

/-- Make sure a node is in memory. Making room for it spares the pinned nodes. -/
def ensureLoaded (id : NodeId) (pins : List NodeId) : Act V Unit := do
  let s ← get
  match s.slots[id]? with
  | none => throw .panic
  | some .freed => throw .panic
  | some (.loaded ..) =>
    set { s with cache := { s.cache with hits := s.cache.hits + 1 } }
    touch id
  | some (.onDisk offset) =>
    let (diskNode, payloadLen) ← readRecord offset
    let node ← internChildren offset diskNode
    modify (place id node offset (recordHeaderSize + payloadLen))
    touch id
    enforceBudget pins (some id)

instance : NodeStore (DiskStore V) where
  loaded := loaded
  mutate := loadedMut
  alloc := allocDirty
  releaseSlot := releaseSlot
  isDirty := isDirty
  ensureLoaded := ensureLoaded

end Records

/-- The offset a node will have once the running commit is through; nothing where the source
panics. -/
def resolveOffset (s : DiskStore V) (assigned : OrdMap NodeId ℕ) (id : NodeId) : Option ℕ :=
  match s.slots[id]? with
  | some (.onDisk offset) => some offset
  | some (.loaded _ false diskOffset _ _) => diskOffset
  | some (.loaded _ true _ _ _) => assigned.get? id
  | some .freed => none
  | none => none

def nodePayload (s : DiskStore V) (assigned : OrdMap NodeId ℕ) (id : NodeId) : Option (List Byte) :=
  match s.slots[id]? with
  | some (.loaded (.leaf entries) _ _ _ _) => some (encodeNode (.leaf entries))
  | some (.loaded (.internal pivots children buffer) _ _ _ _) =>
    (children.mapM (resolveOffset s assigned)).map fun offsets =>
      encodeNode (.internal pivots (offsets.map UInt64.ofNat) buffer)
  | _ => none

structure Batch where
  buf : List Byte
  assigned : OrdMap NodeId ℕ
  recordLens : OrdMap NodeId ℕ

def Batch.new : Batch := ⟨[], .empty, .empty⟩

variable [Crc32Fast]

/-- Serialize one more node behind the others. -/
def serializeNode (base : ℕ) (batch : Batch) (id : NodeId) : Act V Batch := do
  let offset ← checkedAdd base batch.buf.length
  match nodePayload (← get) batch.assigned id with
  | none => throw .panic
  | some payload =>
    if 2 ^ 32 ≤ payload.length then throw (.storage (.nodeTooLarge payload.length))
    else
      pure ⟨batch.buf ++ encodeRecord payload, batch.assigned.insert id offset,
        batch.recordLens.insert id (recordHeaderSize + payload.length)⟩

def newSuperblock (params : Params) (nextSeq : UInt64) (generation rootOffset watermark : ℕ) :
    Superblock where
  magic := magicBytes
  formatVersion := currentFormat
  params := params
  lastSeq := nextSeq
  generation := UInt64.ofNat generation
  rootOffset := UInt64.ofNat rootOffset
  watermark := UInt64.ofNat watermark

/-- A written node is clean and has a new record. -/
def adoptRecord (recordLens : OrdMap NodeId ℕ) (x : NodeId × ℕ) : Act V Unit := fun s =>
  match s.slots[x.1]?, recordLens.get? x.1 with
  | some (.loaded node _ diskOffset bytes lastTick), some exact =>
    if bytes ≤ s.cache.bytes then
      .ok () { s with
        slots := s.slots.set x.1 (.loaded node false (some x.2) exact lastTick)
        cache := { s.cache with bytes := s.cache.bytes - bytes + exact }
        offsets := (diskOffset.elim s.offsets s.offsets.erase).insert x.2 x.1 }
    else .error .overflow s
  | _, _ => .error .panic s

variable [Vfs V]

/-- Write the records, make them durable, and only then publish the root in the slot not in use. -/
def publish (params : Params) (nextSeq : UInt64) (root : NodeId) (batch : Batch) : Act V Unit := do
  let base := (← get).watermark
  if batch.buf.isEmpty then pure () else onVfs (Vfs.writeAllAt base batch.buf)
  onVfs Vfs.sync
  let watermark ← checkedAdd base batch.buf.length
  let s ← get
  match resolveOffset s batch.assigned root with
  | none => throw .panic
  | some rootOffset =>
    let sb := newSuperblock params nextSeq s.nextGeneration rootOffset watermark
    onVfs (Vfs.writeAllAt (superblockSlot s.nextGeneration) sb.encodeSlot)
    onVfs Vfs.sync
    let nextGeneration ← checkedAdd s.nextGeneration 1
    modify fun s => { s with watermark := watermark, nextGeneration := nextGeneration }

end DiskStore

structure CommitStats where
  nodesWritten : ℕ
  bytesWritten : ℕ
  deriving DecidableEq

abbrev DiskEngine (π V : Type) := Engine π (DiskStore V)

/-- The superblock slots looked at so far: the newest valid one, and the version of a foreign
one. -/
structure Candidates where
  best : Option Superblock
  wrongVersion : Option UInt32

/-- The newest valid superblock that claims no more bytes than there are. -/
def Candidates.consider (fileLen : ℕ) (seen : Candidates) : SlotStatus → Candidates
  | .valid sb =>
    if sb.watermark.toNat ≤ fileLen ∧
    seen.best.all (fun b => decide (b.generation < sb.generation)) = true then
      { seen with best := some sb }
    else seen
  | .wrongVersion found => { seen with wrongVersion := some found }
  | .invalid => seen

/-- A slot of another version refuses the whole file. -/
def Candidates.select (seen : Candidates) : Except DiskError Superblock :=
  match seen.wrongVersion, seen.best with
  | some found, _ => .error (.unsupportedVersion found)
  | none, none => .error .noValidSuperblock
  | none, some sb => .ok sb

namespace DiskEngine
variable {π V : Type}

def poisoning {α : Type} (m : Engine.Act π (DiskStore V) α) :
    Engine.Act π (DiskStore V) α := fun e =>
  match m e with
  | .ok a e' => .ok a e'
  | .error (.storage x) e' =>
    .error (.storage x) { e' with store := { e'.store with poisoned := true } }
  | .error f e' => .error f e'

section Open
variable [Vfs V] [Crc32Fast]

def examineSlot (fileLen : ℕ) (seen : Candidates) (slotOffset : ℕ) : EStateM Fault V Candidates :=
  if fileLen < slotOffset + superblockSlotSize then pure seen
  else do
    pure (seen.consider fileLen (decodeSlot (← Vfs.readExactAt slotOffset superblockSlotSize)))

def selectSuperblock : EStateM Fault V Superblock := do
  let fileLen ← Vfs.len
  let seen ← [superblockSlot 0, superblockSlot 1].foldlM (examineSlot fileLen) ⟨none, none⟩
  match seen.select with
  | .ok sb => pure sb
  | .error x => throw (.storage x)

def recovered (vfs : V) (budget : Option ℕ) (policy : π) (sb : Superblock) (nextGeneration : ℕ) :
    DiskEngine π V where
  params := sb.params
  store := {
    vfs := vfs
    slots := [.onDisk sb.rootOffset.toNat]
    nextGeneration := nextGeneration
    watermark := sb.watermark.toNat
    poisoned := false
    cache := .new budget
    offsets := OrdMap.empty.insert sb.rootOffset.toNat 0 }
  root := 0
  nextSeq := sb.lastSeq
  opsSinceCommit := 0
  policy := policy
  trace := .new

/-- Recover the newest published state, dropping whatever lies behind it. -/
def openOn (budget : Option ℕ) (policy : π) (vfs : V) : Except Fault (DiskEngine π V) :=
  let program : EStateM Fault V (Superblock × ℕ) := do
    let sb ← selectSuperblock
    Vfs.setLen sb.watermark.toNat
    let nextGeneration ← checkedAdd sb.generation.toNat 1
    pure (sb, nextGeneration)
  match program vfs with
  | .ok (sb, nextGeneration) vfs => .ok (recovered vfs budget policy sb nextGeneration)
  | .error f _ => .error f

end Open

/-- The generation of the newest published state. -/
def generation (e : DiskEngine π V) : Except Fault ℕ :=
  if 1 ≤ e.store.nextGeneration then .ok (e.store.nextGeneration - 1) else .error .overflow

/-- The checker's view; only nodes in memory can be seen. -/
def source (e : DiskEngine π V) : NodeSource where
  root := e.root
  params := e.params
  node id :=
    match e.store.slots[id]? with
    | some (.loaded node _ _ _ _) => some node
    | _ => none

variable [Vfs V] [Crc32Fast]

def commitInner (fuel : ℕ) : Engine.Act π (DiskStore V) CommitStats := do
  let pre ← Engine.dirtyNodes fuel
  let e ← get
  let batch ← Engine.onStore (pre.reverse.foldlM (DiskStore.serializeNode e.store.watermark)
    DiskStore.Batch.new)
  Engine.onStore (DiskStore.publish e.params e.nextSeq e.root batch)
  Engine.onStore (batch.assigned.toList.forM (DiskStore.adoptRecord batch.recordLens))
  Engine.onStore (DiskStore.enforceBudget [] none)
  modify fun e => { e with opsSinceCommit := 0 }
  pure ⟨batch.assigned.size, batch.buf.length + superblockSlotSize⟩

/-- Make everything since the last commit durable. A commit that fails poisons the engine, and a
poisoned engine commits no more. -/
def commit (fuel : ℕ) : Engine.Act π (DiskStore V) CommitStats := do
  if (← get).store.poisoned then throw (.storage .poisoned) else poisoning (commitInner fuel)

/-- An engine with an empty root in memory, nothing of it published. -/
def unpublished (vfs : V) (budget : Option ℕ) (params : Params) (policy : π) : DiskEngine π V where
  params := params
  store := {
    vfs := vfs
    slots := [.loaded (.leaf OrdMap.empty) true none (estBytes (.leaf OrdMap.empty)) 0]
    nextGeneration := 0
    watermark := dataStart
    poisoned := false
    cache := { Cache.new budget with bytes := estBytes (.leaf OrdMap.empty), resident := 1 }
    offsets := .empty }
  root := 0
  nextSeq := 0
  opsSinceCommit := 0
  policy := policy
  trace := .new

/-- A new database on an empty device: generation 0 is published before it is returned. -/
def createOn (fuel : ℕ) (budget : Option ℕ) (params : Params) (policy : π) (vfs : V) :
    Except Fault (DiskEngine π V) :=
  if ¬ params.Legal then .error .panic
  else
    match (Vfs.len : EStateM Fault V ℕ) vfs with
    | .error f _ => .error f
    | .ok len vfs =>
      if 0 < len then .error (.storage (.notEmpty len))
      else
        let program : Engine.Act π (DiskStore V) CommitStats := do
          Engine.onStore (DiskStore.touch 0)
          commit fuel
        match program (unpublished vfs budget params policy) with
        | .ok _ e => .ok e
        | .error f _ => .error f

def heightLoop : ℕ → ℕ → NodeId → Engine.Act π (DiskStore V) ℕ
  | 0, _, _ => throw .fuel
  | n + 1, height, id => do
    Engine.ensureLoaded id []
    match ← Engine.loaded id with
    | .leaf _ => pure height
    | .internal _ [] _ => throw .panic
    | .internal _ (child :: _) _ => heightLoop n (height + 1) child

def height (fuel : ℕ) : Engine.Act π (DiskStore V) ℕ := do heightLoop fuel 1 (← get).root

def setBudget (budget : Option ℕ) : DiskStore.Act V Unit :=
  modify fun s => { s with cache := { s.cache with budget := budget } }

def touchLoaded : DiskStore.Act V Unit := do
  (List.range (← get).slots.length).forM fun id => do
    match (← get).slots[id]? with
    | some (.loaded ..) => DiskStore.touch id
    | some _ => pure ()
    | none => throw .panic

/-- Check the whole tree with the budget suspended. Here a storage error panics. -/
def checkInvariantsFull (fuel : ℕ) : Engine.Act π (DiskStore V)
    (Except InvariantViolation Unit) := do
  let budget := (← get).store.cache.budget
  Engine.onStore (setBudget none)
  fun e =>
    match Engine.loadAll fuel e with
    | .error (.storage _) e => .error .panic e
    | .error f e => .error f e
    | .ok _ e =>
      match checkInvariants fuel (source e) with
      | .error f => .error f e
      | .ok verdict => Engine.onStore (do
          setBudget budget
          if budget.isSome then touchLoaded else pure ()
          DiskStore.enforceBudget [] none
          pure verdict) e

def assignSeq (op : OpKind2) : Engine.Act π (DiskStore V) UInt64 := do
  Engine.ensureLoaded (← get).root []
  Engine.stamp op

variable [FlushPolicy π]

/-- A mutating operation. Only an error that comes after the mutation began poisons the engine. -/
def tryMutate (fuel : ℕ) (op : OpKind2) : Engine.Act π (DiskStore V) Unit := do
  let seq ← assignSeq op
  poisoning (Engine.applyRoot fuel op.key (op.message seq))

def drain (fuel : ℕ) : Engine.Act π (DiskStore V) Unit := do
  Engine.ensureLoaded (← get).root []
  poisoning (Engine.restoreRootWith fuel 0 false)

end DiskEngine

inductive DiskOp
  | op (op : Op)
  | loadAll
  | height
  | checkInvariantsFull
  | commit
  deriving DecidableEq

inductive DiskReply
  | reply (reply : Reply)
  | height (height : ℕ)
  | verdict (verdict : Except InvariantViolation Unit)
  | stats (stats : CommitStats)

namespace DiskEngine
variable {π V : Type} [Vfs V] [Crc32Fast] [FlushPolicy π]

def step (fuel : ℕ) : DiskOp → Engine.Act π (DiskStore V) DiskReply
  | .op (.mutate op) => do tryMutate fuel op; pure (.reply .done)
  | .op (.get key) => do pure (.reply (.value (← Engine.lookup fuel key)))
  | .op (.scan lo hi) => do pure (.reply (.listing (← Engine.scan fuel lo hi)))
  | .op .drain => do drain fuel; pure (.reply .done)
  | .loadAll => do Engine.loadAll fuel; pure (.reply .done)
  | .height => do pure (.height (← height fuel))
  | .checkInvariantsFull => do pure (.verdict (← checkInvariantsFull fuel))
  | .commit => do pure (.stats (← commit fuel))

end DiskEngine

/-- Call after call, going on after a storage error. Nothing else may end a call without a
result. -/
def runCalls {σ ω ρ : Type} (step : ω → EStateM Fault σ ρ) :
    List ω → σ → Except Fault (List (Except DiskError ρ) × σ)
  | [], s => .ok ([], s)
  | op :: ops, s =>
    match step op s with
    | .ok r s => (runCalls step ops s).map fun x => (.ok r :: x.1, x.2)
    | .error (.storage x) s => (runCalls step ops s).map fun y => (.error x :: y.1, y.2)
    | .error f _ => .error f

end Beetree
