import Beetree.CheckExact
import Beetree.Commit
import Beetree.CrashModel
import Beetree.DiskSim

/-! The records a commit writes.

The nodes to be written are serialized one behind the other, children before parents, so that every
child has its offset by the time it is needed. Records already in the file are not touched. -/
namespace Beetree

section Files
variable [Crc32Fast] {file file' : List Byte} {w w' o : ℕ}

/-- Files with the same data up to a watermark. -/
structure SameData (w : ℕ) (file file' : List Byte) : Prop where
  length : w ≤ file'.length
  bytes : ∀ i, dataStart ≤ i → i < w → file'[i]? = file[i]?

omit [Crc32Fast] in
lemma SameData.trans {file'' : List Byte} (h : SameData w file file')
    (h' : SameData w file' file'') :
    SameData w file file'' :=
  ⟨h'.length, fun i hlo hhi => (h'.bytes i hlo hhi).trans (h.bytes i hlo hhi)⟩

omit [Crc32Fast] in
lemma SameData.mono (h : SameData w' file file') (hw : w ≤ w') : SameData w file file' :=
  ⟨hw.trans h.length, fun i hlo hhi => h.bytes i hlo (hhi.trans_le hw)⟩

omit [Crc32Fast] in
lemma SameData.read {off len : ℕ} {data : List Byte} (h : SameData w file file')
    (hlo : dataStart ≤ off) (hhi : off + len ≤ w)
    (hr : readAt file off len = some data) : readAt file' off len = some data := by
  have hlen : off + len ≤ file.length := by
    unfold readAt at hr
    split_ifs at hr with hl
    exact hl
  rw [← hr]
  exact readAt_congr hlen (hhi.trans h.length) fun i hi hi' => h.bytes i (hlo.trans hi)
    (hi'.trans_le hhi)

/-- A record that can be read lies in the data region below the watermark. -/
lemma parseRecord_bounds {x : DiskNode × ℕ} (h : parseRecord file w o = .ok x) :
    dataStart ≤ o ∧ o + recordHeaderSize + x.2 ≤ w := by
  unfold parseRecord at h
  split_ifs at h with hout
  obtain ⟨hlo, hhi⟩ := not_or.mp hout
  have hdata : dataStart = 8192 := rfl
  have hsize : recordHeaderSize = 8 := rfl
  refine ⟨not_lt.mp hlo, ?_⟩
  cases hheader : readAt file o recordHeaderSize with
  | none =>
    rw [hheader] at h
    cases h
  | some header =>
    rw [hheader] at h
    dsimp only at h
    split_ifs at h with hlen
    cases hpayload : readAt file (o + recordHeaderSize) (leNat (header.take 4)) with
    | none =>
      rw [hpayload] at h
      cases h
    | some payload =>
      rw [hpayload] at h
      dsimp only at h
      split_ifs at h
      have hlen' : payload.length = leNat (header.take 4) := by
        unfold readAt at hpayload
        split_ifs at hpayload with hl
        rw [← Option.some.inj hpayload, List.length_take, List.length_drop]
        omega
      cases hd : decodeNode payload with
      | error reason =>
        rw [hd] at h
        cases h
      | ok node =>
        rw [hd] at h
        cases h
        omega

lemma parseRecord_sameData {x : DiskNode × ℕ} (hs : SameData w file file') (hw : w ≤ w')
    (h : parseRecord file w o = .ok x) :
    parseRecord file' w' o = .ok x := by
  have hbounds := parseRecord_bounds h
  have hdata : dataStart = 8192 := rfl
  have hsize : recordHeaderSize = 8 := rfl
  unfold parseRecord at h ⊢
  split_ifs at h with hout
  rw [if_neg (by omega)]
  cases hheader : readAt file o recordHeaderSize with
  | none =>
    rw [hheader] at h
    cases h
  | some header =>
    rw [hheader] at h
    rw [hs.read hbounds.1 (by omega) hheader]
    dsimp only at h ⊢
    split_ifs at h with hlen
    rw [if_neg (by omega)]
    cases hpayload : readAt file (o + recordHeaderSize) (leNat (header.take 4)) with
    | none =>
      rw [hpayload] at h
      cases h
    | some payload =>
      rw [hpayload] at h
      rw [hs.read (by omega) (by omega) hpayload]
      exact h

lemma parseRecord_encodeRecord {n : DiskNode} (hlo : dataStart ≤ o)
    (hhi : o + (encodeRecord (encodeNode n)).length ≤ w) (hlen : (encodeNode n).length < 2 ^ 32)
    (hr : readAt file o (encodeRecord (encodeNode n)).length = some (encodeRecord (encodeNode n))) :
    parseRecord file w o = .ok (n, (encodeNode n).length) := by
  have hsize : recordHeaderSize = 8 := rfl
  have hrec : (encodeRecord (encodeNode n)).length = 8 + (encodeNode n).length := by
    simp [encodeRecord]
    omega
  rw [hrec] at hr hhi
  unfold readAt at hr
  split_ifs at hr with hfile
  have hbytes := Option.some.inj hr
  have hheader : readAt file o recordHeaderSize =
      some (leBytes 4 (encodeNode n).length ++ leBytes 4 (Crc32Fast.hash (encodeNode
        n)).toNat) := by
    unfold readAt
    have htake := congrArg (List.take 8) hbytes
    rw [List.take_take, Nat.min_eq_left (by omega)] at htake
    rw [if_pos (by omega), hsize, htake]
    exact congrArg some (List.take_left' (by simp))
  have hpayload : readAt file (o + recordHeaderSize)
    (encodeNode n).length = some (encodeNode n) := by
    unfold readAt
    have hdrop := congrArg (List.drop 8) hbytes
    rw [List.drop_take, List.drop_drop, Nat.add_sub_cancel_left] at hdrop
    rw [if_pos (by omega), hsize, hdrop]
    exact congrArg some (List.drop_left' (by simp))
  unfold parseRecord
  rw [if_neg (by omega), hheader]
  dsimp only
  rw [List.take_left' (leBytes_length 4 _), List.drop_left' (leBytes_length 4 _),
    leNat_leBytes_of_lt (by simpa using hlen),
    leNat_leBytes_of_lt (Crc32Fast.hash (encodeNode n)).toNat_lt, if_neg (by omega), hpayload]
  dsimp only
  rw [if_neg (by simp), decodeNode_encodeNode (hlen.trans (by decide))]

lemma Tree.OnFile.sameData {h : ℕ} {d : VTree h} (hd : d.OnFile file w)
    (hs : SameData w file file') (hw : w ≤ w') :
    d.OnFile file' w' := by
  induction h with
  | zero =>
    obtain ⟨ha, len, hp⟩ := hd
    exact ⟨ha, len, parseRecord_sameData hs hw hp⟩
  | succ h ih =>
    obtain ⟨ha, ⟨len, hp⟩, hl, hk⟩ := hd
    exact ⟨ha, ⟨len, parseRecord_sameData hs hw hp⟩, hl, fun c hc =>
      ⟨(hk c hc).1, (hk c hc).2.1, (hk c hc).2.2.1, ih (hk c hc).2.2.2⟩⟩

/-- Every offset of a stored tree lies between the superblocks and the watermark. -/
lemma Tree.OnFile.offs_lt {h : ℕ} {d : VTree h} (hd : d.OnFile file w) :
    ∀ o ∈ d.offs, dataStart ≤ o ∧ o < w := by
  have hroot : dataStart ≤ d.label ∧ d.label < w := by
    obtain ⟨len, hp⟩ := hd.parse
    have := parseRecord_bounds hp
    have hsize : recordHeaderSize = 8 := rfl
    omega
  induction h with
  | zero =>
    induction d using Tree.zeroCases with
    | h a es =>
      intro o ho
      obtain ⟨l, rfl⟩ := Option.isSome_iff_exists.mp hd.1
      obtain rfl : o = l := by simpa [Tree.offs, Tree.leaf] using ho
      exact hroot
  | succ h ih =>
    induction d using Tree.succCases with
    | hn a ps cs b =>
      intro o ho
      obtain ⟨l, rfl⟩ := Option.isSome_iff_exists.mp hd.1
      rw [Tree.offs_node, Option.toList_some, List.singleton_append, List.mem_cons,
        List.mem_flatMap] at ho
      rcases ho with rfl | ⟨c, hc, ho⟩
      · exact hroot
      · have hcd := (hd.2.2.2 c hc).2.2.2
        refine ih hcd ?_ o ho
        obtain ⟨len, hp⟩ := hcd.parse
        have := parseRecord_bounds hp
        have hsize : recordHeaderSize = 8 := rfl
        omega

end Files

def answered {α σ : Type} (s : σ) : Except Fault α → EStateM.Result Fault σ α
  | .ok a => .ok a s
  | .error f => .error f s

section Serialize
variable [Crc32Fast]
open DiskStore (Batch)

namespace Ideal

/-- The offset a node will have once a commit is through. -/
def offset (s : Ideal) (assigned : OrdMap NodeId ℕ) (id : NodeId) : Option ℕ :=
  (s.slots id).bind fun x => if x.dirty then assigned.get? id else x.label

def payload (s : Ideal) (assigned : OrdMap NodeId ℕ) : Node → Option (List Byte)
  | .leaf entries => some (encodeNode (.leaf entries))
  | .internal pivots children buffer => (children.mapM (s.offset assigned)).map fun offsets =>
      encodeNode (.internal pivots (offsets.map UInt64.ofNat) buffer)

/-- Serialize one more node behind the others. -/
def serialize (s : Ideal) (base : ℕ) (batch : Batch) (id : NodeId) : Except Fault Batch :=
  if base + batch.buf.length < 2 ^ 64 then
    match s.slots id with
    | some (.loaded n _ _) =>
      match s.payload batch.assigned n with
      | none => .error .panic
      | some payload =>
        if 2 ^ 32 ≤ payload.length then .error (.storage (.nodeTooLarge payload.length))
        else
          .ok ⟨batch.buf ++ encodeRecord payload,
            batch.assigned.insert id (base + batch.buf.length),
            batch.recordLens.insert id (recordHeaderSize + payload.length)⟩
    | _ => .error .panic
  else .error .overflow

end Ideal

section Disk
variable {V : Type} {file : V → List Byte} {s : Ideal} {d : DiskStore V} {id : NodeId}

lemma DiskStore.Tracks.resolveOffset (h : Tracks file s d)
    (assigned : OrdMap NodeId ℕ) (id : NodeId) :
    d.resolveOffset assigned id = s.offset assigned id := by
  unfold DiskStore.resolveOffset Ideal.offset
  by_cases hid : id < s.next
  · obtain ⟨x, hx, hm⟩ := h.slots id hid
    rw [hx]
    generalize s.slots id = z at hm
    cases hm with
    | freed => rfl
    | loaded n dirty r bytes tick => cases dirty <;> rfl
    | evicted n r hk => rfl
    | stub r => rfl
  · have hnone : s.slots id = none := by
      by_contra hne
      obtain ⟨x, hx⟩ := Option.ne_none_iff_exists'.mp hne
      exact hid (h.bound id x hx)
    rw [List.getElem?_eq_none (by rw [h.next]; exact not_lt.mp hid), hnone]
    rfl

lemma DiskStore.Tracks.serializeNode (h : Tracks file s d) {n : Node} {r : Option Record}
    (hx : s.slots id = some (.loaded n true r)) (base : ℕ) (batch : Batch) :
    DiskStore.serializeNode base batch id d = answered d (s.serialize base batch id) := by
  obtain ⟨bytes, tick, hd⟩ := h.resident hx (Or.inl rfl)
  have hpay : d.nodePayload batch.assigned id = s.payload batch.assigned n := by
    unfold DiskStore.nodePayload Ideal.payload
    rw [hd]
    cases n with
    | leaf entries => rfl
    | internal pivots children buffer =>
      have hfun : d.resolveOffset batch.assigned = s.offset batch.assigned :=
        funext (h.resolveOffset batch.assigned)
      dsimp only
      rw [hfun]
  unfold DiskStore.serializeNode Ideal.serialize checkedAdd
  by_cases hlt : base + batch.buf.length < 2 ^ 64
  · rw [if_pos hlt, if_pos hlt, pure_bind, run_get_bind, hpay, hx]
    dsimp only
    cases s.payload batch.assigned n with
    | none => rfl
    | some payload =>
      dsimp only
      split_ifs <;> rfl
  · rw [if_neg hlt, if_neg hlt]
    rfl

lemma DiskStore.Tracks.serializeNodes (h : Tracks file s d) {ids : List NodeId}
    (hids : ∀ id ∈ ids, ∃ n r, s.slots id = some (.loaded n true r)) (base : ℕ) (batch : Batch) :
    ids.foldlM (DiskStore.serializeNode base) batch d = answered d
      (ids.foldlM (s.serialize base) batch) := by
  induction ids generalizing batch with
  | nil => rfl
  | cons id ids ih =>
    obtain ⟨n, r, hx⟩ := hids id (by simp)
    have hone := h.serializeNode hx base batch
    rw [List.foldlM_cons, List.foldlM_cons]
    cases hs : s.serialize base batch id with
    | error f =>
      rw [hs] at hone
      exact run_bind_error hone
    | ok batch' =>
      rw [hs] at hone
      rw [run_bind_ok hone]
      exact ih (fun i hi => hids i (by simp [hi])) batch'

end Disk

section Laid
variable {s : Ideal} {base : ℕ} {batch : Batch} {assigned assigned' : OrdMap NodeId ℕ} {id : NodeId}

omit [Crc32Fast] in
lemma mapM_mono {α β : Type} {f g : α → Option β} {l : List α} {l' : List β}
    (hfg : ∀ a b, f a = some b → g a = some b) (h : l.mapM f = some l') : l.mapM g = some l' := by
  induction l generalizing l' with
  | nil => exact h
  | cons a l ih =>
    rw [List.mapM_cons] at h ⊢
    obtain ⟨b, hb, h⟩ := Option.bind_eq_some_iff.mp h
    obtain ⟨l₁, hl, h⟩ := Option.bind_eq_some_iff.mp h
    cases h
    rw [Option.bind_eq_bind, Option.bind_eq_some_iff]
    exact ⟨b, hfg a b hb, by rw [ih hl]; rfl⟩

omit [Crc32Fast] in
lemma Ideal.payload_mono {n : Node} {payload : List Byte}
    (hsub : ∀ i o, assigned.get? i = some o → assigned'.get? i = some o)
    (h : s.payload assigned n = some payload) :
    s.payload assigned' n = some payload := by
  cases n with
  | leaf entries => exact h
  | internal pivots children buffer =>
    obtain ⟨offs, ho, rfl⟩ := Option.map_eq_some_iff.mp h
    refine Option.map_eq_some_iff.mpr ⟨offs, mapM_mono (fun c o hc => ?_) ho, rfl⟩
    obtain ⟨x, hx, hxo⟩ := Option.bind_eq_some_iff.mp hc
    refine Option.bind_eq_some_iff.mpr ⟨x, hx, ?_⟩
    split_ifs at hxo ⊢
    · exact hsub c o hxo
    · exact hxo

def Ideal.Placed (s : Ideal) (done : NodeId → Prop) (c : NodeId) : Prop :=
  ∃ x, s.slots c = some x ∧ (x.dirty = true → done c) ∧ (x.dirty = false → x.label.isSome)

/-- The records of a batch, each at its offset, children before parents. -/
structure Ideal.Laid (s : Ideal) (base : ℕ) (batch : Batch) : Prop where
  located : ∀ i o, batch.assigned.get? i = some o →
    ∃ n r payload, s.slots i = some (.loaded n true r) ∧
    s.payload batch.assigned n = some payload ∧ payload.length < 2 ^ 32 ∧
    batch.recordLens.get? i = some (recordHeaderSize + payload.length) ∧ base ≤ o ∧ o < 2 ^ 64 ∧
    encodeRecord payload <+: batch.buf.drop (o - base) ∧
    ∀ c ∈ n.children, ∀ x, s.slots c = some x → x.dirty = true →
      ∃ o', batch.assigned.get? c = some o' ∧ o' < o
  apart : ∀ i j o, batch.assigned.get? i = some o → batch.assigned.get? j = some o → i = j

lemma Ideal.laid_new (s : Ideal) (base : ℕ) : s.Laid base .new := by
  refine ⟨fun i o h => ?_, fun i j o h => ?_⟩ <;> cases h

lemma encodeRecord_length (payload : List Byte) :
    (encodeRecord payload).length = recordHeaderSize + payload.length := by
  have : recordHeaderSize = 8 := rfl
  simp [encodeRecord]
  omega

lemma Ideal.Laid.lt (hl : s.Laid base batch) {o : ℕ} (ho : batch.assigned.get? id = some o) :
    base ≤ o ∧ o < base + batch.buf.length := by
  obtain ⟨n, r, payload, -, -, -, -, hlo, -, hpre, -⟩ := hl.located id o ho
  have hlen := hpre.length_le
  have hsize : recordHeaderSize = 8 := rfl
  rw [encodeRecord_length, List.length_drop] at hlen
  omega

omit [Crc32Fast] in
lemma mapM_isSome {α β : Type} {f : α → Option β} {l : List α} (h : ∀ a ∈ l, (f a).isSome) :
    ∃ l', l.mapM f = some l' := by
  induction l with
  | nil => exact ⟨[], rfl⟩
  | cons a l ih =>
    obtain ⟨b, hb⟩ := Option.isSome_iff_exists.mp (h a (by simp))
    obtain ⟨l', hl'⟩ := ih fun a' ha' => h a' (by simp [ha'])
    exact ⟨b :: l', by rw [List.mapM_cons, hb, hl']; rfl⟩

omit [Crc32Fast] in
lemma Ideal.Placed.offset {c : NodeId} (hc : s.Placed (fun i => (assigned.get? i).isSome) c) :
    (s.offset assigned c).isSome := by
  obtain ⟨x, hx, hdirty, hclean⟩ := hc
  unfold Ideal.offset
  rw [hx, Option.bind_some]
  split_ifs with hd
  · exact hdirty hd
  · exact hclean (by simpa using hd)

omit [Crc32Fast] in
lemma Ideal.payload_isSome {n : Node}
    (hc : ∀ c ∈ n.children, s.Placed (fun i => (assigned.get? i).isSome) c) :
    ∃ payload, s.payload assigned n = some payload := by
  cases n with
  | leaf entries => exact ⟨_, rfl⟩
  | internal pivots children buffer =>
    obtain ⟨offs, ho⟩ : ∃ offs, children.mapM (s.offset assigned) = some offs :=
      mapM_isSome fun c hc' => (hc c hc').offset
    exact ⟨_, by rw [Ideal.payload, ho]; rfl⟩

def Refusal (f : Fault) : Prop := f = .overflow ∨ ∃ len, f = .storage (.nodeTooLarge len)

lemma Ideal.Laid.serialize (hl : s.Laid base batch) (hnew : batch.assigned.get? id = none)
    {n : Node} {r : Option Record}
    (hx : s.slots id = some (.loaded n true r))
    (hc : ∀ c ∈ n.children, s.Placed (fun i => (batch.assigned.get? i).isSome) c) :
    (∃ batch', s.serialize base batch id = .ok batch' ∧ s.Laid base batch' ∧
      ∀ i, (batch'.assigned.get? i).isSome ↔ i = id ∨ (batch.assigned.get? i).isSome) ∨
    ∃ f, s.serialize base batch id = .error f ∧ Refusal f := by
  obtain ⟨payload, hpay⟩ := Ideal.payload_isSome hc
  unfold Ideal.serialize
  rw [hx]
  dsimp only
  rw [hpay]
  dsimp only
  split_ifs with hlt hbig
  · exact Or.inr ⟨_, rfl, Or.inr ⟨_, rfl⟩⟩
  · refine Or.inl ⟨_, rfl, ⟨fun i o ho => ?_, fun i j o hi hj => ?_⟩, fun i => ?_⟩
    · have hsub : ∀ i o, batch.assigned.get? i = some o →
          (batch.assigned.insert id (base + batch.buf.length)).get? i = some o := by
        intro i o hi
        rw [OrdMap.get?_insert, if_neg, hi]
        rintro rfl
        rw [hnew] at hi
        cases hi
      dsimp only at ho ⊢
      rw [OrdMap.get?_insert] at ho
      split_ifs at ho with hi
      · subst hi
        cases ho
        refine ⟨n, r, payload, hx, Ideal.payload_mono hsub hpay, not_le.mp hbig, by simp,
          by omega, hlt, ?_, ?_⟩
        · rw [Nat.add_sub_cancel_left, List.drop_left' rfl]
        · intro c hcm x hcx hd
          obtain ⟨x', hx', hdone, -⟩ := hc c hcm
          rw [hcx] at hx'
          cases hx'
          obtain ⟨o', ho'⟩ := Option.isSome_iff_exists.mp (hdone hd)
          exact ⟨o', hsub c o' ho', (hl.lt ho').2⟩
      · obtain ⟨n', r', payload', hx', hpay', hlen', hrec', hlo', h64', hpre', hkids'⟩ :=
          hl.located i o ho
        refine ⟨n', r', payload', hx', Ideal.payload_mono hsub hpay', hlen', ?_, hlo', h64', ?_, ?_⟩
        · rw [OrdMap.get?_insert, if_neg hi, hrec']
        · have := (hl.lt ho).2
          rw [List.drop_append_of_le_length (by omega)]
          exact hpre'.trans (List.prefix_append _ _)
        · intro c hcm x hcx hd
          obtain ⟨o', ho', hlt'⟩ := hkids' c hcm x hcx hd
          exact ⟨o', hsub c o' ho', hlt'⟩
    · dsimp only at hi hj
      rw [OrdMap.get?_insert] at hi hj
      split_ifs at hi hj with h₁ h₂ h₂
      · rw [h₁, h₂]
      · cases hi
        exact absurd (hl.lt hj).2 (lt_irrefl _)
      · cases hj
        exact absurd (hl.lt hi).2 (lt_irrefl _)
      · exact hl.apart i j o hi hj
    · dsimp only
      rw [OrdMap.get?_insert]
      split_ifs with hi <;> simp [hi]
  · exact Or.inr ⟨_, rfl, Or.inl rfl⟩

/-- Nodes in an order in which they can be serialized. -/
def Ideal.Ready (s : Ideal) : List NodeId → List NodeId → Prop
  | _, [] => True
  | done, i :: l => i ∉ done ∧
      (∃ n r, s.slots i = some (.loaded n true r) ∧ ∀ c ∈ n.children, s.Placed (· ∈ done) c) ∧
      Ready s (i :: done) l

omit [Crc32Fast] in
lemma Ideal.ready_append {done l l' : List NodeId} :
    s.Ready done (l ++ l') ↔ s.Ready done l ∧ s.Ready (l.reverse ++ done) l' := by
  induction l generalizing done with
  | nil => simp [Ideal.Ready]
  | cons i l ih => simp [Ideal.Ready, ih, and_assoc]

omit [Crc32Fast] in
lemma Ideal.Ready.dirty {done l : List NodeId} (h : s.Ready done l) :
    ∀ i ∈ l, ∃ n r, s.slots i = some (.loaded n true r) := by
  induction l generalizing done with
  | nil => simp
  | cons i l ih =>
    intro j hj
    rcases List.mem_cons.mp hj with rfl | hj
    · obtain ⟨-, ⟨n, r, hx, -⟩, -⟩ := h
      exact ⟨n, r, hx⟩
    · exact ih h.2.2 j hj

theorem Ideal.Laid.serializes {done l : List NodeId} (hl : s.Laid base batch) (hr : s.Ready done l)
    (hdone : ∀ i, (batch.assigned.get? i).isSome ↔ i ∈ done) :
    (∃ batch', l.foldlM (s.serialize base) batch = .ok batch' ∧ s.Laid base batch' ∧
      ∀ i, (batch'.assigned.get? i).isSome ↔ i ∈ l ∨ i ∈ done) ∨
    ∃ f, l.foldlM (s.serialize base) batch = .error f ∧ Refusal f := by
  induction l generalizing batch done with
  | nil => exact Or.inl ⟨batch, rfl, hl, by simpa using hdone⟩
  | cons id l ih =>
    obtain ⟨hnew, ⟨n, r, hx, hc⟩, hr'⟩ := hr
    have hnew' : batch.assigned.get? id = none := by
      rw [← Option.not_isSome_iff_eq_none, hdone]
      exact hnew
    have hc' : ∀ c ∈ n.children, s.Placed (fun i => (batch.assigned.get? i).isSome) c := by
      intro c hcm
      obtain ⟨x, hcx, hd, hcl⟩ := hc c hcm
      exact ⟨x, hcx, fun h => (hdone c).mpr (hd h), hcl⟩
    rw [List.foldlM_cons]
    rcases hl.serialize hnew' hx hc' with ⟨batch', hrun, hl', hdone'⟩ | ⟨f, hrun, hf⟩
    · rw [hrun]
      rcases ih hl' hr' fun i => by rw [hdone', hdone, List.mem_cons] with ⟨batch'', hrun', hl'',
        hdone''⟩ | ⟨f, hrun', hf⟩
      · refine Or.inl ⟨batch'', hrun', hl'', fun i => ?_⟩
        rw [hdone'', List.mem_cons, List.mem_cons]
        tauto
      · exact Or.inr ⟨f, hrun', hf⟩
    · rw [hrun]
      exact Or.inr ⟨f, rfl, hf⟩

end Laid
end Serialize

/-- The nodes a commit writes, in the order in which it does. -/
def Live.queue {h : ℕ} (t : Live h) : List NodeId := ((Live.written t).map Prod.fst).reverse

section Queue
variable {h : ℕ} {s : Ideal} {P : (h : ℕ) → VTree h → Prop}

lemma Live.queue_clean {t : Live h} (ht : t.dirty = false) : Live.queue t = [] := by
  rw [Live.queue, Live.written_of_clean ht]
  rfl

@[simp] lemma Live.queue_leaf (id : NodeId) (dk : Option (VTree 0)) (es : Entries) :
    Live.queue (Cell.known id true dk (Body.leaf es)) = [id] := rfl

@[simp] lemma Live.queue_node (id : NodeId) (dk : Option (VTree (h + 1))) (ps : List Key)
    (cs : List (Live h)) (b : Buffer) :
    Live.queue (Cell.known id true dk (Body.node ps cs b)) = cs.flatMap Live.queue ++ [id] := by
  rw [Live.queue, Live.written_dirty, Body.written_node, List.map_cons, List.reverse_cons,
    List.map_flatMap,
    List.reverse_flatMap, List.reverse_reverse]
  rfl

lemma Live.queue_sub (t : Live h) : ∀ i ∈ Live.queue t, i ∈ (Live.foot t).ids := fun _ hi =>
  Live.written_ids (List.mem_reverse.mp hi)

lemma Live.mem_queue {t : Live h} (ht : t.dirty = true) : t.id ∈ Live.queue t := by
  rcases t with ⟨id, dirty, dk, x⟩ | ⟨id, d⟩
  · obtain rfl : dirty = true := ht
    simp [Live.queue, Cell.id]
  · cases ht

lemma Live.Sound.label {t : Live h} (hS : Live.Sound P t) (ht : t.dirty = false) :
    (Live.slot t).label.isSome := by
  rcases t with ⟨id, dirty, dk, x⟩ | ⟨id, d⟩
  · obtain ⟨d, rfl, -⟩ := hS.2.1 ht
    rfl
  · rfl

lemma Live.dirty_slot (t : Live h) : (Live.slot t).dirty = t.dirty := by
  cases t <;> rfl

/-- Every node comes after its children. -/
theorem Live.ready {t : Live h} (hF : Stored s (Live.foot t)) (hS : Live.Sound P t)
    {done : List NodeId}
    (hdone : ∀ i ∈ (Live.foot t).ids, i ∉ done) : s.Ready done (Live.queue t) := by
  induction h generalizing done with
  | zero =>
    rcases t with ⟨id, dirty, dk, x⟩ | ⟨id, d⟩
    · cases dirty with
      | true =>
        induction x using Body.zeroCases with
        | hl es =>
          refine ⟨hdone id (by simp), ⟨.leaf es, _, hF.slots _ (Live.slot_mem_foot _), ?_⟩, trivial⟩
          intro c hc
          cases hc
      | false => exact trivial
    · exact trivial
  | succ h ih =>
    rcases t with ⟨id, dirty, dk, x⟩ | ⟨id, d⟩
    · cases dirty with
      | true =>
        induction x using Body.succCases with
        | hn ps cs b =>
          have hcs := Body.sound_node.mp hS.2.2
          rw [Live.foot_known, Body.foot_node] at hF hdone
          have hkids : ∀ (l : List (Live h)) (done : List NodeId), (∀ c ∈ l, Live.Sound P c) →
              Stored s (l.flatMap Live.foot) → (∀ i ∈ Foot.ids (l.flatMap Live.foot), i ∉ done) →
              s.Ready done (l.flatMap Live.queue) := by
            intro l
            induction l with
            | nil => exact fun _ _ _ _ => trivial
            | cons c l ihl =>
              intro done hsound hstored hfresh
              rw [List.flatMap_cons] at hstored hfresh
              obtain ⟨hc, hl, hdis⟩ := Stored.append_iff.mp hstored
              rw [Foot.ids_append] at hfresh
              rw [List.flatMap_cons, Ideal.ready_append]
              refine ⟨ih hc (hsound c (by simp)) fun i hi => hfresh i (by simp [hi]),
                ihl _ (fun c' hc' => hsound c' (by simp [hc'])) hl fun i hi hmem => ?_⟩
              rcases List.mem_append.mp hmem with hmem | hmem
              · exact hdis (Live.queue_sub c i (List.mem_reverse.mp hmem)) hi
              · exact hfresh i (by simp [hi]) hmem
          have hstored : Stored s (cs.flatMap Live.foot) := (Stored.append_iff (F := [_]).mp hF).2.1
          have hnodup := List.nodup_cons.mp hF.nodup
          rw [Live.queue_node, Ideal.ready_append]
          refine ⟨hkids cs done hcs hstored fun i hi => hdone i (by simp [hi]), fun hmem => ?_,
            ⟨_, _, hF.slots _ (List.mem_cons_self ..), fun i hi => ?_⟩, trivial⟩
          · rcases List.mem_append.mp hmem with hmem | hmem
            · obtain ⟨c, hc, hi⟩ := List.mem_flatMap.mp (List.mem_reverse.mp hmem)
              obtain ⟨x, hx, hxi⟩ := List.mem_map.mp (Live.queue_sub c id hi)
              have hid : x.1 ∈ Foot.ids (cs.flatMap Live.foot) :=
                List.mem_map_of_mem (List.mem_flatMap.mpr ⟨c, hc, hx⟩)
              exact hnodup.1 (hxi ▸ hid)
            · exact hdone id (by simp) hmem
          · obtain ⟨c, hc, rfl⟩ := List.mem_map.mp hi
            refine ⟨Live.slot c,
              hstored.slots _ (List.mem_flatMap.mpr ⟨c, hc, Live.slot_mem_foot c⟩), fun hd => ?_,
              fun hd => (hcs c hc).label (Live.dirty_slot c ▸ hd)⟩
            rw [Live.dirty_slot] at hd
            exact List.mem_append_left _
              (List.mem_reverse.mpr (List.mem_flatMap.mpr ⟨c, hc, Live.mem_queue hd⟩))
      | false => exact trivial
    · exact trivial

end Queue

/-- Every internal node has one child more than pivots. -/
def Tree.Forks {α : ℕ → Type} {h : ℕ} (t : Tree α h) : Prop :=
  match h, t with
  | 0, _ => True
  | _ + 1, t => t.children.length = t.pivots.length + 1 ∧ ∀ c ∈ t.children, Forks c

lemma Tree.forks_of_rest {α : ℕ → Type} {h : ℕ} {t : Tree α h} {lo hi : Option Key} {prm : Params}
    (hv : t.Valid lo hi)
    (hr : t.RootRest prm) : t.Forks := by
  induction h generalizing lo hi with
  | zero => trivial
  | succ h ih =>
    induction t using Tree.succCases with
    | hn a ps cs b =>
      have hr' := Tree.rest_node.mp (show (Tree.node a ps cs b).Rest prm from hr)
      have hkids := (Tree.valid_node a).mp hv |>.2.2.resolve_left fun h0 => by simp [h0.1] at hr'
      refine ⟨hkids.length, fun c hc => ?_⟩
      obtain ⟨lo', hi', hc', -⟩ := hkids.mem_range c hc
      exact ih hc' (hr'.2.2.2 c hc).rootRest

lemma readAt_within {file buf part : List Byte} {base k : ℕ}
    (h : readAt file base buf.length = some buf)
    (hp : part <+: buf.drop k) (hne : part ≠ []) :
    readAt file (base + k) part.length = some part := by
  obtain ⟨rest, hrest⟩ := hp
  have hlen := congrArg List.length hrest
  have hpos := List.length_pos_iff.mpr hne
  rw [List.length_append, List.length_drop] at hlen
  unfold readAt at h ⊢
  split_ifs at h with hfile
  have hbuf := congrArg (List.drop k) (Option.some.inj h)
  rw [List.drop_take, List.drop_drop, ← hrest] at hbuf
  rw [if_pos (by omega)]
  have htake := congrArg (List.take part.length) hbuf
  rw [List.take_take, Nat.min_eq_left (by omega), List.take_left' rfl] at htake
  rw [htake]

section Published
variable [Crc32Fast] {h : ℕ} {s : Ideal} {base w : ℕ} {batch : DiskStore.Batch}
    {file file' : List Byte} {off : NodeId → ℕ}

lemma Ideal.Laid.parse (hl : s.Laid base batch) (hbase : dataStart ≤ base)
    (hread : readAt file' base batch.buf.length = some batch.buf) (hw : base + batch.buf.length ≤ w)
    {id : NodeId} {o : ℕ}
    (ho : batch.assigned.get? id = some o) {n : Node} {dirty : Bool} {r : Option Record}
    (hx : s.slots id = some (.loaded n dirty r)) {dn : DiskNode}
    (hp : s.payload batch.assigned n = some (encodeNode dn)) :
    ∃ len, parseRecord file' w o = .ok (dn, len) := by
  obtain ⟨n', r', payload, hx', hpay, hlen, -, hlo, -, hpre, -⟩ := hl.located id o ho
  rw [hx] at hx'
  cases hx'
  rw [hp] at hpay
  cases hpay
  have hne : encodeRecord (encodeNode dn) ≠ [] := by
    intro h0
    have := encodeRecord_length (encodeNode dn)
    rw [h0] at this
    have hsize : recordHeaderSize = 8 := rfl
    simp only [List.length_nil] at this
    omega
  have hrec := readAt_within hread hpre hne
  rw [Nat.add_sub_of_le hlo] at hrec
  have hfit := hpre.length_le
  have := hl.lt ho
  rw [List.length_drop] at hfit
  exact ⟨_, parseRecord_encodeRecord (hbase.trans hlo) (by omega) hlen hrec⟩

lemma Live.onFile_clean {t : Live h} (hF : Stored s (Live.foot t))
    (hS : Live.Sound (fun _ d => d.OnFile file base) t)
    (ht : t.dirty = false) (hsame : SameData base file file') (hw : base ≤ w)
    (assigned : OrdMap NodeId ℕ) :
    (Live.publish off t).OnFile file' w ∧ s.offset assigned t.id = some (Live.publish off t).label ∧
      (Live.publish off t).label < base := by
  have hx := hF.slots _ (Live.slot_mem_foot t)
  unfold Ideal.offset
  rw [hx]
  rcases t with ⟨id, dirty, dk, x⟩ | ⟨id, d⟩
  · obtain rfl : dirty = false := ht
    obtain ⟨d, rfl, -⟩ := hS.2.1 rfl
    have hd : d.OnFile file base := hS.1 d rfl
    exact ⟨hd.sameData hsame hw, rfl, (hd.offs_lt _ (Tree.label_mem_offs hd.isSome)).2⟩
  · have hd : d.OnFile file base := hS
    exact ⟨hd.sameData hsame hw, rfl, (hd.offs_lt _ (Tree.label_mem_offs hd.isSome)).2⟩

/-- Once a batch is in the file, so are the trees it publishes. -/
theorem Live.onFile_publish {t : Live h} (hF : Stored s (Live.foot t))
    (hS : Live.Sound (fun _ d => d.OnFile file base) t)
    (hfork : (Live.plain t).Forks) (hl : s.Laid base batch)
    (hoff : ∀ i ∈ Live.queue t, batch.assigned.get? i = some (off i))
    (hbase : dataStart ≤ base) (hread : readAt file' base batch.buf.length = some batch.buf)
    (hsame : SameData base file file')
    (hw : base + batch.buf.length ≤ w) :
    (Live.publish off t).OnFile file' w ∧
    s.offset batch.assigned t.id = some (Live.publish off t).label ∧
      (t.dirty = false → (Live.publish off t).label < base) := by
  have hclean : t.dirty = false → (Live.publish off t).OnFile file' w ∧
      s.offset batch.assigned t.id = some (Live.publish off t).label ∧
        (Live.publish off t).label < base :=
    fun ht => Live.onFile_clean hF hS ht hsame (by omega) batch.assigned
  induction h with
  | zero =>
    rcases t with ⟨id, dirty, dk, x⟩ | ⟨id, d⟩
    · cases dirty with
      | true =>
        induction x using Body.zeroCases with
        | hl es =>
          have ho := hoff id (by simp)
          have hx := hF.slots _ (Live.slot_mem_foot _)
          refine ⟨⟨rfl, hl.parse hbase hread hw ho hx rfl⟩, ?_, by simp [Cell.dirty]⟩
          unfold Ideal.offset
          rw [hx]
          exact ho
      | false =>
        obtain ⟨h₁, h₂, h₃⟩ := hclean rfl
        exact ⟨h₁, h₂, fun _ => h₃⟩
    · obtain ⟨h₁, h₂, h₃⟩ := hclean rfl
      exact ⟨h₁, h₂, fun _ => h₃⟩
  | succ h ih =>
    rcases t with ⟨id, dirty, dk, x⟩ | ⟨id, d⟩
    · cases dirty with
      | true =>
        induction x using Body.succCases with
        | hn ps cs b =>
          have hcs := Body.sound_node.mp hS.2.2
          have hx :
            s.slots id = some (.loaded (.internal ps (cs.map Cell.id) b) true
              (dk.map (Sigma.mk (h + 1)))) :=
            hF.slots _ (Live.slot_mem_foot _)
          have ho : batch.assigned.get? id = some (off id) := hoff id (by simp)
          have hstored : ∀ c ∈ cs, Stored s (Live.foot c) := by
            intro c hc
            obtain ⟨cs₁, cs₂, rfl⟩ := List.append_of_mem hc
            rw [Live.foot_known, Body.foot_node, List.flatMap_append, List.flatMap_cons] at hF
            exact (Stored.append_iff.mp
              (Stored.append_iff.mp (Stored.append_iff (F := [_]).mp hF).2.1).2.1).1
          have hforks : cs.length = ps.length + 1 ∧ ∀ c ∈ cs, (Live.plain c).Forks := by
            have hlen : (cs.map Live.plain).length = ps.length + 1 := hfork.1
            rw [List.length_map] at hlen
            exact ⟨hlen, fun c hc => hfork.2 _ (List.mem_map_of_mem hc)⟩
          have hkid := fun c (hc : c ∈ cs) => ih (hstored c hc) (hcs c hc) (hforks.2 c hc)
            (fun i hi => hoff i (by
              rw [Live.queue_node]
              exact List.mem_append_left _ (List.mem_flatMap.mpr ⟨c, hc, hi⟩)))
            (fun ht => Live.onFile_clean (hstored c hc) (hcs c hc) ht hsame
              (by omega) batch.assigned)
          have hmap : (cs.map Cell.id).mapM (s.offset batch.assigned) =
              some ((cs.map (Live.publish off)).map Tree.label) := by
            rw [List.map_map, List.mapM_map]
            exact mapM_eq_some_map cs fun c hc => (hkid c hc).2.1
          obtain ⟨n, r, payload, hx', -, -, -, hlo, h64, -, hbelow⟩ := hl.located id _ ho
          have hpay : s.payload batch.assigned (.internal ps (cs.map Cell.id) b) =
              some (encodeNode
                (Tree.toDisk (Live.publish off (Cell.known id true dk (Body.node ps cs b))))) := by
            change Option.map _ ((cs.map Cell.id).mapM (s.offset batch.assigned)) = _
            rw [hmap, Option.map_some, List.map_map]
            rfl
          refine ⟨⟨rfl, hl.parse hbase hread hw ho hx hpay, ?_, ?_⟩, ?_, by simp [Cell.dirty]⟩
          · change (cs.map (Live.publish off)).length = ps.length + 1
            rw [List.length_map]
            exact hforks.1
          · intro d hd
            obtain ⟨c, hc, rfl⟩ := List.mem_map.mp (show d ∈ cs.map (Live.publish off) from hd)
            obtain ⟨honc, hoc, hcl⟩ := hkid c hc
            have hlt : (Live.publish off c).label < off id := by
              cases hcd : c.dirty with
              | false => exact (hcl hcd).trans_le hlo
              | true =>
                have hcx := (hstored c hc).slots _ (Live.slot_mem_foot c)
                rw [hx] at hx'
                cases hx'
                obtain ⟨o', ho', hlt⟩ := hbelow c.id (List.mem_map_of_mem hc) _ hcx
                  (by rw [Live.dirty_slot, hcd])
                unfold Ideal.offset at hoc
                rw [hcx, Option.bind_some, Live.dirty_slot, hcd, if_pos rfl, ho'] at hoc
                cases hoc
                exact hlt
            exact ⟨(honc.offs_lt _ (Tree.label_mem_offs honc.isSome)).1, hlt, hlt.trans h64, honc⟩
          · change s.offset batch.assigned id = _
            unfold Ideal.offset
            rw [hx]
            exact ho
      | false =>
        obtain ⟨h₁, h₂, h₃⟩ := hclean rfl
        exact ⟨h₁, h₂, fun _ => h₃⟩
    · obtain ⟨h₁, h₂, h₃⟩ := hclean rfl
      exact ⟨h₁, h₂, fun _ => h₃⟩

end Published
end Beetree
