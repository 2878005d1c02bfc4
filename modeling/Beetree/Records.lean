import Beetree.Reach
import Beetree.Disk

/-! Node records: what their codec accepts, and the sizes the engines compute for them without
encoding. -/
namespace Beetree

namespace Codec
variable {α β : Type}

lemma enc_pair_length (c : Codec α) (d : Codec β) (x : α × β) :
    ((pair c d).enc x).length = (c.enc x.1).length + (d.enc x.2).length :=
  List.length_append

lemma enc_list_length (c : Codec α) (l : List α) :
    ((list c).enc l).length = 8 + (l.map fun a => (c.enc a).length).sum := by
  simp [list, List.length_flatMap]

lemma enc_map_length {κ ν : Type} [LinearOrder κ] (c : Codec (κ × ν)) (m : OrdMap κ ν) :
    ((map c).enc m).length = 8 + (m.toList.map fun x => (c.enc x).length).sum :=
  enc_list_length c m.toList

lemma enc_u64_length (n : UInt64) : (u64.enc n).length = 8 := leBytes_length 8 _

lemma enc_bytes_length (b : List Byte) : (bytes.enc b).length = 8 + b.length := by
  rw [bytes, enc_list_length]
  simp [byte]

lemma enc_entry_length (x : Key × Message) :
    ((pair bytes message).enc x).length = entryBytes x.1 x.2 := by
  obtain ⟨key, m⟩ := x
  rw [enc_pair_length, enc_bytes_length]
  unfold entryBytes
  congr 1
  cases m with
  | put seq value =>
    have h : (message.enc (.put seq value)).length = 4 + (u64.enc seq ++ bytes.enc
      value).length := by
      simp [message, conv, enum, Cases.cons, pair]
    rw [h, List.length_append, enc_u64_length, enc_bytes_length]
    dsimp only
    omega
  | delete seq =>
    have h : (message.enc (.delete seq)).length = 4 + (u64.enc seq).length := by
      simp [message, conv, enum, Cases.cons]
    rw [h, enc_u64_length]
  | upsert seq op =>
    cases op with
    | add delta =>
      have h : (message.enc (.upsert seq (.add delta))).length = 4 +
        ((u64.enc seq).length + (4 + 8)) := by
        simp [message, conv, enum, Cases.cons, Cases.last, pair, upsertOp, i64, word]
      rw [h, enc_u64_length]

lemma enc_leafBinding_length (x : Key × LeafEntry) :
    ((pair bytes leafEntry).enc x).length = 24 + x.1.length + x.2.value.length := by
  have h : (leafEntry.enc x.2).length = (u64.enc x.2.seq ++ bytes.enc x.2.value).length := rfl
  rw [enc_pair_length, h, List.length_append, enc_u64_length, enc_bytes_length, enc_bytes_length]
  omega

end Codec

lemma encodeNode_internal_size (pivots : List Key) (children : List UInt64) (buffer : Buffer) :
    (encodeNode (.internal pivots children buffer)).length =
      28 + (pivots.map fun p => 8 + p.length).sum + 8 * children.length +
        (buffer.toList.map fun x => entryBytes x.1 x.2).sum := by
  have h : (encodeNode (.internal pivots children buffer)).length =
      4 + (((Codec.list Codec.bytes).enc pivots).length +
        (((Codec.list Codec.u64).enc children).length +
        ((Codec.map (Codec.pair Codec.bytes Codec.message)).enc buffer).length)) := by
    simp [encodeNode, Codec.diskNode, Codec.conv, Codec.enum, Cases.cons, Codec.pair]
  have hpivots :
    ((Codec.list Codec.bytes).enc pivots).length = 8 + (pivots.map fun p => 8 + p.length).sum := by
    simp only [Codec.enc_list_length, Codec.enc_bytes_length]
  have hchildren : ((Codec.list Codec.u64).enc children).length = 8 + 8 * children.length := by
    simp only [Codec.enc_list_length, Codec.enc_u64_length, List.map_const',
      List.sum_replicate, smul_eq_mul,
      Nat.mul_comm]
  have hbuffer : ((Codec.map (Codec.pair Codec.bytes Codec.message)).enc buffer).length =
      8 + (buffer.toList.map fun x => entryBytes x.1 x.2).sum := by
    simp only [Codec.enc_map_length, Codec.enc_entry_length]
  omega

lemma encodeNode_leaf_size (entries : Entries) :
    (encodeNode (.leaf entries)).length =
      12 + (entries.toList.map fun x => 24 + x.1.length + x.2.value.length).sum := by
  have h : (encodeNode (.leaf entries)).length =
      4 + ((Codec.map (Codec.pair Codec.bytes Codec.leafEntry)).enc entries).length := by
    simp [encodeNode, Codec.diskNode, Codec.conv, Codec.enum, Cases.cons, Cases.last]
  have hentries : ((Codec.map (Codec.pair Codec.bytes Codec.leafEntry)).enc entries).length =
      8 + (entries.toList.map fun x => 24 + x.1.length + x.2.value.length).sum := by
    simp only [Codec.enc_map_length, Codec.enc_leafBinding_length]
  omega

lemma estMessage_add (key : Key) (m : Message) :
    12 + key.length + estMessage m = 4 + entryBytes key m := by
  cases m <;> simp only [estMessage, entryBytes] <;> omega

/-- The estimate charges four bytes a buffered entry too many, and an entry takes at least
twenty. -/
lemma sum_estMessage (l : List (Key × Message)) :
    (l.map fun x => entryBytes x.1 x.2).sum ≤ (l.map
      fun x => 12 + x.1.length + estMessage x.2).sum ∧
      (l.map fun x => 12 + x.1.length + estMessage x.2).sum ≤ 2 *
        (l.map fun x => entryBytes x.1 x.2).sum := by
  induction l with
  | nil => simp
  | cons x l ih =>
    have h := estMessage_add x.1 x.2
    have hpos : 4 ≤ entryBytes x.1 x.2 := by
      unfold entryBytes
      omega
    simp only [List.map_cons, List.sum_cons]
    omega

lemma estBytes_bounds (offset : NodeId → UInt64) (n : Node) :
    (encodeNode (n.toDisk offset)).length ≤ estBytes n ∧
      estBytes n ≤ 2 * (encodeNode (n.toDisk offset)).length := by
  cases n with
  | leaf entries =>
    rw [Node.toDisk, encodeNode_leaf_size, estBytes]
    omega
  | internal pivots children buffer =>
    have h := sum_estMessage buffer.toList
    rw [Node.toDisk, encodeNode_internal_size, estBytes, List.length_map]
    omega

lemma forall₂_of_mapM {α β : Type} {f : α → Option β} {l : List α} {l' : List β}
    (h : l.mapM f = some l') :
    List.Forall₂ (fun a b => f a = some b) l l' := by
  induction l generalizing l' with
  | nil =>
    cases h
    exact .nil
  | cons a l ih =>
    rw [List.mapM_cons] at h
    obtain ⟨b, hb, h⟩ := Option.bind_eq_some_iff.mp h
    obtain ⟨l₁, hl, h⟩ := Option.bind_eq_some_iff.mp h
    cases h
    exact .cons hb (ih hl)

/-- A slot's payload is the encoding of its node under some choice of child offsets. -/
lemma DiskStore.nodePayload_length {V : Type} {s : DiskStore V} {id : NodeId}
    {n : Node} {dirty : Bool}
    {diskOffset : Option ℕ} {bytes lastTick : ℕ}
    (hs : s.slots[id]? = some (.loaded n dirty diskOffset bytes lastTick))
    {assigned : OrdMap NodeId ℕ} {payload : List Byte}
    (hp : s.nodePayload assigned id = some payload) :
    payload.length = n.payloadLength := by
  unfold DiskStore.nodePayload at hp
  rw [hs] at hp
  cases n with
  | leaf entries =>
    cases hp
    rfl
  | internal pivots children buffer =>
    obtain ⟨offs, ho, rfl⟩ := Option.map_eq_some_iff.mp hp
    have hlen : offs.length = children.length := (forall₂_of_mapM ho).length_eq.symm
    exact encodeNode_internal_length pivots buffer (by simp [hlen])

lemma BeTree.recordPayloadLen_run {π : Type} {b : BeTree π} {id : NodeId} {n : Node}
    (h : b.store.nodes[id]? = some n) : BeTree.recordPayloadLen id b = .ok n.payloadLength b := by
  have hload : Engine.loaded id b = .ok n b := Engine.run_onStore (s := b.store)
    (by simp only [NodeStore.loaded, h])
  unfold BeTree.recordPayloadLen
  rw [Engine.run_bind hload]
  rfl

/-- The hand-written size computations agree with the encoder. -/
theorem record_sizes {π V : Type} :
    (∀ (pivots : List Key) (children : List UInt64) (buffer : Buffer),
      (encodeNode (.internal pivots children buffer)).length =
        28 + (pivots.map fun p => 8 + p.length).sum + 8 * children.length +
          (buffer.toList.map fun x => entryBytes x.1 x.2).sum) ∧
    (∀ entries : Entries, (encodeNode (.leaf entries)).length =
      12 + (entries.toList.map fun x => 24 + x.1.length + x.2.value.length).sum) ∧
    (∀ (b : BeTree π) (s : DiskStore V) (id id' : NodeId) (n n' : Node) (dirty : Bool)
      (diskOffset : Option ℕ)
      (bytes lastTick : ℕ) (assigned : OrdMap NodeId ℕ) (payload : List Byte),
      b.store.nodes[id]? = some n →
      s.slots[id']? = some (.loaded n' dirty diskOffset bytes lastTick) →
      NodeRel (fun _ _ => True) n n' → s.nodePayload assigned id' = some payload →
      BeTree.recordPayloadLen id b = .ok payload.length b) ∧
    ∀ (offset : NodeId → UInt64) (n : Node), (encodeNode (n.toDisk offset)).length ≤ estBytes n ∧
      estBytes n ≤ 2 * (encodeNode (n.toDisk offset)).length := by
  refine ⟨encodeNode_internal_size, encodeNode_leaf_size, ?_, estBytes_bounds⟩
  intro b s id id' n n' dirty diskOffset bytes lastTick assigned payload hb hs hn hp
  have h : n.payloadLength = n'.payloadLength := hn.payload_length _ _
  rw [DiskStore.nodePayload_length hs hp, ← h]
  exact BeTree.recordPayloadLen_run hb

/-- A node with a pivot, two children and a message. -/
def Node.paired (child child' : NodeId) : Node := .internal [[5]] [child, child']
    (OrdMap.empty.insert [4] (.put 1 [7]))

def BeTree.paired : BeTree GreedyFullest :=
  { BeTree.tiny with store := ⟨[.paired 1 2, .leaf .empty, .leaf .empty], [true, true, true]⟩ }

/-- The same node in a cache, above a record and a leaf that is about to be written. -/
def DiskStore.paired : DiskStore Unit where
  vfs := ()
  slots := [.freed, .onDisk 8192, .loaded (.paired 3 1) true none 40 1,
    .loaded (.leaf .empty) true none 16 2]
  nextGeneration := 1
  watermark := 8224
  poisoned := false
  cache := Cache.new none
  offsets := OrdMap.empty.insert 8192 1

/-- The node is the same eighty-three bytes in both engines. -/
theorem record_sizes_paired :
    DiskStore.paired.nodePayload (OrdMap.empty.insert 3 8300) 2 =
      some (encodeNode (.internal [[5]] [8300, 8192] (OrdMap.empty.insert [4] (.put 1 [7])))) ∧
    (encodeNode (.internal [[5]] [8300, 8192] (OrdMap.empty.insert [4] (.put 1 [7])))).length = 83 ∧
    BeTree.recordPayloadLen 0 BeTree.paired = .ok 83 BeTree.paired ∧
    estBytes (.paired 3 1) = 87 := by
  have hpayload : DiskStore.paired.nodePayload (OrdMap.empty.insert 3 8300) 2 =
      some (encodeNode (.internal [[5]] [8300, 8192] (OrdMap.empty.insert [4] (.put 1 [7])))) := rfl
  have hlen :
    (encodeNode (.internal [[5]] [8300, 8192] (OrdMap.empty.insert [4] (.put 1 [7])))).length =
      83 := by decide
  have hrun := record_sizes.2.2.1 BeTree.paired DiskStore.paired 0 2 (.paired 1 2)
    (.paired 3 1) true none 40 1
    (OrdMap.empty.insert 3 8300) _ rfl rfl
      (.internal _ _ (.cons trivial (.cons trivial .nil))) hpayload
  rw [hlen] at hrun
  exact ⟨hpayload, hlen, hrun, by decide⟩

/-- A record payload is a vector of bytes, so it reads back, determines its node, and no proper
prefix and nothing longer is accepted in its place. -/
theorem decodeNode_exact (n : DiskNode) (hn : (encodeNode n).length < wordLimit) :
    decodeNode (encodeNode n) = .ok n ∧ (∀ m : DiskNode, encodeNode m = encodeNode n → m = n) ∧
      (∀ s t : List Byte, encodeNode n = s ++ t → t ≠ [] → decodeNode s = .error .undecodable) ∧
      ∀ t : List Byte, t ≠ [] → decodeNode (encodeNode n ++ t) =
        .error (.trailing (encodeNode n).length ((encodeNode n).length + t.length)) := by
  refine ⟨decodeNode_encodeNode hn, fun m hm => ?_, fun s t hst ht => ?_, fun t ht => ?_⟩
  · exact (Codec.diskNode.enc_injective hn hm.symm).symm
  · unfold decodeNode
    rw [Codec.diskNode.dec_prefix hn hst ht]
  · have hd : Codec.diskNode.dec (encodeNode n ++ t) = some (n, t) := Codec.diskNode.dec_enc n t hn
    unfold decodeNode
    rw [hd]
    have hpos : t.length ≠ 0 := by simpa using ht
    simp only [if_neg hpos, List.length_append, Nat.add_sub_cancel]

/-- A node with two children and an upsert on its way to the second. -/
def DiskNode.pair : DiskNode := .internal [[7]] [8192, 9000]
    (OrdMap.ofList [([9], .upsert 3 (.add 5))])

theorem decodeNode_exact_pair : decodeNode (encodeNode .pair) = .ok .pair ∧
    decodeNode (encodeNode .pair ++ [0]) =
      .error (.trailing (encodeNode .pair).length ((encodeNode .pair).length + 1)) :=
  have h : (encodeNode .pair).length < wordLimit := by decide
  ⟨(decodeNode_exact .pair h).1, (decodeNode_exact .pair h).2.2.2 [0] (by decide)⟩

end Beetree
