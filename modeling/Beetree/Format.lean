import Beetree.Codec
import Beetree.Trace

/-! The on-disk format (`src/format.rs`): two superblock slots, then node records. -/
namespace Beetree

/-- The checksum of the `crc32fast` crate. -/
class Crc32Fast where
  hash : List Byte → UInt32

/-- One bit of the reflected polynomial division. -/
def crcBit (crc : UInt32) : UInt32 := if crc % 2 = 1 then (crc >>> 1) ^^^ 0xEDB88320 else crc >>> 1

def crcByte (crc : UInt32) (b : Byte) : UInt32 := (crcBit^[8]) (crc ^^^ UInt32.ofNat b.val)

@[reducible] def crc32Ieee : Crc32Fast where
  hash bytes := ~~~(bytes.foldl crcByte 0xFFFFFFFF)

def superblockSlotSize : ℕ := 4096

def superblockSlot (generation : ℕ) : ℕ := generation % 2 * superblockSlotSize

def dataStart : ℕ := 2 * superblockSlotSize

/-- A length and a checksum, four bytes each, precede every record payload. -/
def recordHeaderSize : ℕ := 8

def magicBytes : Byte × Byte × Byte × Byte := (66, 69, 69, 84)

def currentFormat : UInt32 := 2

namespace Codec

def bytes : Codec (List Byte) := list byte

def params : Codec Params :=
  (pair u64 (pair u64 u64)).conv (fun p => (p.fanout, p.bufferCapacity, p.leafCapacity))
    (fun x => some ⟨x.1, x.2.1, x.2.2⟩) fun _ => rfl

def upsertOp : Codec UpsertOp :=
  (enum (.last i64) (by decide)).conv (fun | .add delta => delta)
    (fun delta => some (.add delta)) fun
    | .add _ => rfl

/-- Variants in declaration order: put, delete, upsert. -/
def message : Codec Message :=
  (enum (.cons (pair u64 bytes) (.cons u64 (.last (pair u64 upsertOp)))) (by decide)).conv
    (fun
      | .put seq value => .inl (seq, value)
      | .delete seq => .inr (.inl seq)
      | .upsert seq op => .inr (.inr (seq, op)))
    (fun
      | .inl (seq, value) => some (.put seq value)
      | .inr (.inl seq) => some (.delete seq)
      | .inr (.inr (seq, op)) => some (.upsert seq op))
    fun m => by cases m <;> rfl

def leafEntry : Codec LeafEntry :=
  (pair u64 bytes).conv (fun e => (e.seq, e.value)) (fun x => some ⟨x.1, x.2⟩) fun _ => rfl

end Codec

structure Superblock where
  magic : Byte × Byte × Byte × Byte
  formatVersion : UInt32
  params : Params
  lastSeq : UInt64
  generation : UInt64
  rootOffset : UInt64
  watermark : UInt64
  deriving DecidableEq

def Codec.superblock : Codec Superblock :=
  (pair (pair byte (pair byte (pair byte byte)))
    (pair u32 (pair params (pair u64 (pair u64 (pair u64 u64)))))).conv
    (fun sb => (sb.magic, sb.formatVersion, sb.params, sb.lastSeq, sb.generation,
      sb.rootOffset, sb.watermark))
    (fun (m, v, p, s, g, r, w) => some ⟨m, v, p, s, g, r, w⟩) fun _ => rfl

inductive SlotStatus
  | valid (sb : Superblock)
  | wrongVersion (found : UInt32)
  | invalid
  deriving DecidableEq

def Superblock.body (sb : Superblock) : List Byte :=
  let payload := Codec.superblock.enc sb
  payload ++ List.replicate (superblockSlotSize - 4 - payload.length) 0

def Superblock.encodeSlot [Crc32Fast] (sb : Superblock) : List Byte :=
  sb.body ++ leBytes 4 (Crc32Fast.hash sb.body).toNat

/-- The checks on a decoded superblock of the current version. -/
def Superblock.Sane (sb : Superblock) : Prop :=
  dataStart ≤ sb.watermark.toNat ∧ dataStart ≤ sb.rootOffset.toNat ∧
    sb.rootOffset.toNat ≤ sb.watermark.toNat - recordHeaderSize ∧ sb.params.Legal

instance (sb : Superblock) : Decidable sb.Sane := by unfold Superblock.Sane; infer_instance

def decodeSlot [Crc32Fast] (slot : List Byte) : SlotStatus :=
  if slot.length ≠ superblockSlotSize then .invalid
  else
    let body := slot.take (superblockSlotSize - 4)
    if (Crc32Fast.hash body).toNat ≠ leNat (slot.drop (superblockSlotSize - 4)) then .invalid
    else
      match Codec.superblock.dec body with
      | none => .invalid
      | some (sb, _) =>
        if sb.magic ≠ magicBytes then .invalid
        else if sb.formatVersion ≠ currentFormat then .wrongVersion sb.formatVersion
        else if sb.Sane then .valid sb
        else .invalid

/-- A node as it lies in a record: its children are record offsets. -/
inductive DiskNode
  | internal (pivots : List Key) (children : List UInt64) (buffer : Buffer)
  | leaf (entries : Entries)
  deriving DecidableEq

def Codec.diskNode : Codec DiskNode :=
  (enum (.cons (pair (list bytes) (pair (list u64) (map (pair bytes message))))
    (.last (map (pair bytes leafEntry)))) (by decide)).conv
    (fun
      | .internal pivots children buffer => .inl (pivots, children, buffer)
      | .leaf entries => .inr entries)
    (fun
      | .inl (pivots, children, buffer) => some (.internal pivots children buffer)
      | .inr entries => some (.leaf entries))
    fun n => by cases n <;> rfl

def encodeNode (node : DiskNode) : List Byte := Codec.diskNode.enc node

def decodeNode (payload : List Byte) : Except CorruptReason DiskNode :=
  match Codec.diskNode.dec payload with
  | none => .error .undecodable
  | some (node, rest) =>
    if rest.length = 0 then .ok node
    else .error (.trailing (payload.length - rest.length) payload.length)

/-- A node with its child ids replaced by record offsets. -/
def Node.toDisk (offset : NodeId → UInt64) : Node → DiskNode
  | .leaf entries => .leaf entries
  | .internal pivots children buffer => .internal pivots (children.map offset) buffer

def encodeRecord [Crc32Fast] (payload : List Byte) : List Byte :=
  leBytes 4 payload.length ++ leBytes 4 (Crc32Fast.hash payload).toNat ++ payload

theorem decodeNode_encodeNode {node : DiskNode} (h : (encodeNode node).length < wordLimit) :
    decodeNode (encodeNode node) = .ok node := by
  have := Codec.diskNode.dec_enc node [] h
  rw [List.append_nil] at this
  unfold decodeNode encodeNode
  rw [this]
  rfl

/-- Offsets have a fixed width, so they do not matter for the length of a payload. -/
lemma encodeNode_internal_length (pivots : List Key) {cs cs' : List UInt64} (buffer : Buffer)
    (h : cs.length = cs'.length) :
    (encodeNode (.internal pivots cs buffer)).length =
      (encodeNode (.internal pivots cs' buffer)).length := by
  have hwords : ∀ cs : List UInt64, ((Codec.list Codec.u64).enc cs).length = 8 + 8 * cs.length := by
    intro cs
    simp [Codec.list, Codec.u64, Codec.word, List.length_flatMap, Nat.mul_comm]
  have hsum : ∀ cs : List UInt64, (encodeNode (.internal pivots cs buffer)).length =
      4 + (((Codec.list Codec.bytes).enc pivots).length + (((Codec.list Codec.u64).enc cs).length +
        ((Codec.map (Codec.pair Codec.bytes Codec.message)).enc buffer).length)) := by
    intro cs
    simp [encodeNode, Codec.diskNode, Codec.conv, Codec.enum, Cases.cons, Codec.pair]
  rw [hsum, hsum, hwords, hwords, h]

lemma Superblock.payload_length (sb : Superblock) : (Codec.superblock.enc sb).length = 64 := by
  simp [Codec.superblock, Codec.conv, Codec.pair, Codec.byte, Codec.u32, Codec.u64,
    Codec.word, Codec.params]

lemma Superblock.body_length (sb : Superblock) : sb.body.length = superblockSlotSize - 4 := by
  rw [Superblock.body, List.length_append, List.length_replicate, sb.payload_length]
  rfl

section Slot
variable [Crc32Fast]

@[simp] lemma Superblock.encodeSlot_length (sb : Superblock) :
    sb.encodeSlot.length = superblockSlotSize := by
  rw [Superblock.encodeSlot, List.length_append, sb.body_length, leBytes_length]
  rfl

/-- What becomes of a slot that was written whole, whatever the superblock in it. -/
lemma decodeSlot_encodeSlot_eq (sb : Superblock) : decodeSlot sb.encodeSlot =
    if sb.magic ≠ magicBytes then .invalid
    else if sb.formatVersion ≠ currentFormat then .wrongVersion sb.formatVersion
    else if sb.Sane then .valid sb
    else .invalid := by
  have htake : sb.encodeSlot.take (superblockSlotSize - 4) = sb.body :=
    List.take_left' sb.body_length
  have hdrop :
    leNat (sb.encodeSlot.drop (superblockSlotSize - 4)) = (Crc32Fast.hash sb.body).toNat := by
    rw [Superblock.encodeSlot, List.drop_left' sb.body_length]
    exact leNat_leBytes_of_lt (UInt32.toNat_lt _)
  have hdec : Codec.superblock.dec sb.body =
      some (sb, List.replicate (superblockSlotSize - 4 - (Codec.superblock.enc sb).length) 0) :=
    Codec.superblock.dec_enc sb _ (by rw [sb.payload_length]; decide)
  unfold decodeSlot
  simp only [sb.encodeSlot_length, htake, hdrop, hdec, ne_eq, not_true_eq_false, if_false]

/-- A superblock as a commit writes it is read back. -/
theorem decodeSlot_encodeSlot {sb : Superblock} (hm : sb.magic = magicBytes)
    (hv : sb.formatVersion = currentFormat)
    (hs : sb.Sane) : decodeSlot sb.encodeSlot = .valid sb := by
  rw [decodeSlot_encodeSlot_eq, if_neg (not_not.mpr hm), if_neg (not_not.mpr hv), if_pos hs]

lemma decodeSlot_of_head {slot : List Byte} (h : slot.head? ≠ some 66) :
    decodeSlot slot = .invalid := by
  unfold decodeSlot
  dsimp only
  split_ifs
  · rfl
  · rfl
  · split
    · rfl
    · rename_i sb rest hdec
      have hmagic : sb.magic ≠ magicBytes := by
        intro hm
        cases slot with
        | nil =>
          simp [Codec.superblock, Codec.conv, Codec.pair, Codec.byte, superblockSlotSize] at hdec
        | cons b slot =>
          have hb : b = sb.magic.1 := by
            obtain ⟨x, hx, hsb⟩ := Option.bind_eq_some_iff.mp hdec
            obtain ⟨x₁, hx₁, hx₂⟩ := Option.bind_eq_some_iff.mp hx
            have hx₁' :
              (Codec.byte.dec (List.take (superblockSlotSize - 4) (b :: slot))).bind (fun x =>
                ((Codec.byte.pair (Codec.byte.pair Codec.byte)).dec x.2).map fun y =>
                  ((x.1, y.1), y.2)) = some x₁ := hx₁
            obtain ⟨x₃, hx₃, hx₄⟩ := Option.bind_eq_some_iff.mp hx₁'
            cases hx₃
            obtain ⟨y, -, rfl⟩ := Option.map_eq_some_iff.mp hx₄
            obtain ⟨z, -, rfl⟩ := Option.map_eq_some_iff.mp hx₂
            obtain ⟨w, hw, hw'⟩ := Option.map_eq_some_iff.mp hsb
            cases hw
            cases hw'
            rfl
          rw [hm] at hb
          exact h (congrArg some hb)
      rw [if_pos hmagic]

end Slot
end Beetree
