import Beetree.Charted
import Beetree.StoreSim

/-! The slots of a disk engine follow the ideal store.

A record is identified by its offset. As long as no two slots have records in common, interning
child offsets gives a reloaded node the children it had before, and a node read for the first time
children of its own. -/
namespace Beetree

def Tree.label {h : ℕ} (d : VTree h) : ℕ := d.ann.getD 0

def Record.label (r : Record) : ℕ := Tree.label r.2

section OnFile
variable [Crc32Fast]

/-- A stored tree lies in a file as it is, every node before its parent. -/
def Tree.OnFile (file : List Byte) (watermark : ℕ) {h : ℕ} (d : VTree h) : Prop :=
  match h, d with
  | 0, d => d.ann.isSome ∧ ∃ len, parseRecord file watermark d.label = .ok (.leaf d.entries, len)
  | _ + 1, d => d.ann.isSome ∧ (∃ len, parseRecord file watermark d.label =
      .ok (.internal d.pivots (d.children.map fun c => UInt64.ofNat c.label) d.buffer, len)) ∧
    d.children.length = d.pivots.length + 1 ∧
    ∀ c ∈ d.children, dataStart ≤ c.label ∧ c.label < d.label ∧ c.label < 2 ^ 64 ∧
      OnFile file watermark c

lemma hereditary_onFile (file : List Byte) (watermark : ℕ) :
    Hereditary fun _ d => d.OnFile file watermark :=
  fun _ _ _ _ _ hd c hc => (hd.2.2.2 c hc).2.2.2

lemma Tree.OnFile.isSome {file : List Byte} {watermark h : ℕ} {d : VTree h}
    (hd : d.OnFile file watermark) :
    d.ann.isSome := by
  cases h with
  | zero => exact hd.1
  | succ h => exact hd.1

lemma Tree.OnFile.labelled {file : List Byte} {watermark h : ℕ} {d : VTree h}
    (hd : d.OnFile file watermark) :
    d.Labelled := by
  induction h with
  | zero => exact hd.1
  | succ h ih => exact ⟨hd.1, fun c hc => ih (hd.2.2.2 c hc).2.2.2⟩

end OnFile

def Tree.toDisk {h : ℕ} (d : VTree h) : DiskNode :=
  match h, d with
  | 0, d => .leaf d.entries
  | _ + 1, d => .internal d.pivots (d.children.map fun c => UInt64.ofNat c.label) d.buffer

lemma Tree.OnFile.parse [Crc32Fast] {file : List Byte} {watermark h : ℕ} {d : VTree h}
    (hd : d.OnFile file watermark) :
    ∃ len, parseRecord file watermark d.label = .ok (d.toDisk, len) := by
  cases h with
  | zero => exact hd.2
  | succ h => exact hd.2.1

lemma Tree.OnFile.intern [Crc32Fast] {V : Type} {file : List Byte} {watermark h : ℕ}
    {d : VTree (h + 1)}
    (hd : d.OnFile file watermark) {s s' : DiskStore V} {ids : List NodeId}
    (hrun : (d.children.map fun e => UInt64.ofNat e.label).mapM
      (fun c => DiskStore.allocOnDisk c.toNat) s = .ok ids s') :
    DiskStore.internChildren d.label d.toDisk s = .ok (.internal d.pivots ids d.buffer) s' := by
  obtain ⟨-, -, hlen, hkids⟩ := hd
  have hfind : (d.children.map fun c => UInt64.ofNat c.label).find?
      (fun c => decide (c.toNat < dataStart) || decide (d.label ≤ c.toNat)) = none := by
    rw [List.find?_eq_none]
    intro c hc
    obtain ⟨e, he, rfl⟩ := List.mem_map.mp hc
    obtain ⟨hlo, hhi, h64, -⟩ := hkids e he
    rw [UInt64.toNat_ofNat_of_lt' h64]
    simp
    omega
  unfold Tree.toDisk DiskStore.internChildren
  dsimp only
  rw [if_neg (by simpa using hlen), hfind]
  exact run_bind_ok hrun

/-- The offsets a slot stands for: its own, or for a slot that has not been read all below it. -/
def Slot.labels : Slot → List ℕ
  | loaded _ _ r => (r.map Record.label).toList
  | stub r => r.2.offs

def Slot.label (x : Slot) : Option ℕ := x.record.map Record.label

lemma Tree.label_mem_offs {h : ℕ} {d : VTree h} (hd : d.ann.isSome) : d.label ∈ d.offs := by
  obtain ⟨o, ho⟩ := Option.isSome_iff_exists.mp hd
  cases h with
  | zero =>
    induction d using Tree.zeroCases with
    | h a es =>
      change a = some o at ho
      subst ho
      simp [Tree.label, Tree.leaf, Tree.ann, Tree.offs]
  | succ h =>
    induction d using Tree.succCases with
    | hn a ps cs b =>
      change a = some o at ho
      subst ho
      simp [Tree.label, Tree.node, Tree.ann, Tree.offs]

/-- How a slot of the engine stands for one of the ideal store. What is certain to be in memory
is. -/
inductive SlotMatch (kept : Prop) : Option Slot → NodeSlot → Prop
  | freed : SlotMatch kept none .freed
  | loaded (node : Node) (dirty : Bool) (r : Option Record) (bytes tick : ℕ) :
      SlotMatch kept (some (.loaded node dirty r))
      (.loaded node dirty (r.map Record.label) bytes tick)
  | evicted (node : Node) (r : Record) :
    ¬ kept → SlotMatch kept (some (.loaded node false (some r))) (.onDisk r.label)
  | stub (r : Record) : SlotMatch kept (some (.stub r)) (.onDisk r.label)

/-- An aged slot stands for the same one, and what is still kept has not been evicted. -/
lemma SlotMatch.ages {kept kept' spare : Prop} {z : Option Slot} {x y : NodeSlot}
    (hm : SlotMatch kept z x)
    (hxy : x.Ages spare y) (hk : kept' → kept ∧ spare) : SlotMatch kept' z y := by
  cases hm with
  | freed =>
    cases hxy
    exact .freed
  | loaded n dirty r bytes tick =>
    generalize ho : r.map Record.label = o at hxy
    cases hxy with
    | loaded => exact ho ▸ .loaded ..
    | evicted _ offset _ _ hspare =>
      obtain ⟨r, rfl, rfl⟩ := Option.map_eq_some_iff.mp ho
      exact .evicted n r fun h => hspare (hk h).2
  | evicted n r hn =>
    cases hxy
    exact .evicted n r fun h => hn (hk h).1
  | stub r =>
    cases hxy
    exact .stub r

/-- No two slots of an ideal store stand for the same offset. -/
structure Ideal.Apart (s : Ideal) : Prop where
  nodup : ∀ id x, s.slots id = some x → x.labels.Nodup
  owner : ∀ id id' x x' o, s.slots id = some x → s.slots id' = some x' → o ∈ x.labels →
    o ∈ x'.labels → id = id'

section Apart
variable {s : Ideal} {id : NodeId} {x : Slot}

lemma Ideal.Apart.put (h : s.Apart) (hx : s.slots id = some x) {x' : Slot}
    (hl : x'.labels.Sublist x.labels) :
    (s.put id (some x')).Apart := by
  have hold : ∀ i y o, (s.put id (some x')).slots i = some y → o ∈ y.labels →
    ∃ z, s.slots i = some z ∧ o ∈ z.labels := by
    intro i y o hy ho
    by_cases hi : i = id
    · subst hi
      obtain rfl : x' = y := by simpa [Ideal.put] using hy
      exact ⟨x, hx, hl.subset ho⟩
    · exact ⟨y, by simpa [Ideal.put, Function.update_of_ne hi] using hy, ho⟩
  refine ⟨fun i y hy => ?_, fun i i' y y' o hy hy' ho ho' => ?_⟩
  · by_cases hi : i = id
    · subst hi
      obtain rfl : x' = y := by simpa [Ideal.put] using hy
      exact (h.nodup i x hx).sublist hl
    · exact h.nodup i y (by simpa [Ideal.put, Function.update_of_ne hi] using hy)
  · obtain ⟨z, hz, hoz⟩ := hold i y o hy ho
    obtain ⟨z', hz', hoz'⟩ := hold i' y' o hy' ho'
    exact h.owner i i' z z' o hz hz' hoz hoz'

lemma Ideal.Apart.drop (h : s.Apart) (id : NodeId) : (s.put id none).Apart := by
  have hold : ∀ i y, (s.put id none).slots i = some y → s.slots i = some y := by
    intro i y hy
    by_cases hi : i = id
    · subst hi
      simp [Ideal.put] at hy
    · simpa [Ideal.put, Function.update_of_ne hi] using hy
  exact ⟨fun i y hy => h.nodup i y (hold i y hy),
    fun i i' y y' o hy hy' => h.owner i i' y y' o (hold i y hy) (hold i' y' hy')⟩

lemma Ideal.Apart.alloc (h : s.Apart) (n : Node) :
    Ideal.Apart { s.put s.next (some (.loaded n true none)) with next := s.next + 1 } := by
  have hold : ∀ i y, (s.put s.next (some (.loaded n true none))).slots i = some y →
      y.labels = [] ∨ s.slots i = some y := by
    intro i y hy
    by_cases hi : i = s.next
    · subst hi
      obtain rfl : Slot.loaded n true none = y := by simpa [Ideal.put] using hy
      exact Or.inl rfl
    · exact Or.inr (by simpa [Ideal.put, Function.update_of_ne hi] using hy)
  refine ⟨fun i y hy => ?_, fun i i' y y' o hy hy' ho ho' => ?_⟩
  · rcases hold i y hy with hl | hy
    · rw [hl]
      exact List.nodup_nil
    · exact h.nodup i y hy
  · rcases hold i y hy with hl | hy
    · simp [hl] at ho
    · rcases hold i' y' hy' with hl | hy'
      · simp [hl] at ho'
      · exact h.owner i i' y y' o hy hy' ho ho'

lemma Ideal.addSlots_of_lt (xs : List Slot) {i : NodeId} (hi : i < s.next) :
    (s.addSlots xs).slots i = s.slots i :=
  (Stored.addSlots xs (⟨by simp, by simp, by simp⟩ : Stored s [])).1.outside i hi (by simp)

lemma Slot.label_mem_labels {o : ℕ} (hl : x.label = some o)
    (hr : ∀ r, x.record = some r → r.2.ann.isSome) :
    o ∈ x.labels := by
  obtain ⟨r, hxr, rfl⟩ := Option.map_eq_some_iff.mp hl
  cases x with
  | loaded n d r' =>
    obtain rfl : r' = some r := hxr
    simp [Slot.labels]
  | stub r' =>
    obtain rfl : r' = r := by simpa [Slot.record] using hxr
    exact Tree.label_mem_offs (hr r' rfl)

lemma Ideal.addSlots_cases {xs : List Slot} {i : NodeId} {y : Slot}
    (hy : (s.addSlots xs).slots i = some y) :
    s.slots i = some y ∨ ∃ k : ℕ, xs[k]? = some y ∧ i = s.next + k := by
  induction xs generalizing s with
  | nil => exact Or.inl hy
  | cons x xs ih =>
    rcases ih hy with hy | ⟨k, hk, hi⟩
    · by_cases hi : i = s.next
      · subst hi
        exact Or.inr ⟨0, by simpa [Ideal.put] using hy, rfl⟩
      · exact Or.inl (by simpa [Ideal.put, Function.update_of_ne hi] using hy)
    · exact Or.inr ⟨k + 1, by simpa using hk, by rw [hi, Nat.add_assoc, Nat.add_comm 1 k]⟩

/-- The offsets below a record belong to one child each, and none is the record's own. -/
lemma Tree.offs_children {h : ℕ} {d : VTree (h + 1)} (hn : d.offs.Nodup) (hann : d.ann.isSome) :
    (∀ e ∈ d.children, e.offs.Nodup ∧ d.label ∉ e.offs ∧ e.offs ⊆ d.offs) ∧
      ∀ (k k' : ℕ) e e' o, d.children[k]? = some e → d.children[k']? = some e' → o ∈ e.offs →
      o ∈ e'.offs → k = k' := by
  induction d using Tree.succCases with
  | hn a ps cs b =>
    obtain ⟨o, rfl⟩ := Option.isSome_iff_exists.mp hann
    rw [Tree.offs_node, Option.toList_some, List.singleton_append, List.nodup_cons] at hn
    obtain ⟨hown, hkids⟩ := hn
    obtain ⟨hnodup, hpair⟩ := List.nodup_flatMap.mp hkids
    refine ⟨fun e he => ⟨hnodup e he, fun hmem => hown (List.mem_flatMap.mpr ⟨e, he, hmem⟩),
      fun o' ho' => ?_⟩, ?_⟩
    · rw [Tree.offs_node]
      exact List.mem_append_right _ (List.mem_flatMap.mpr ⟨e, he, ho'⟩)
    · intro k k' e e' o' hk hk' ho ho'
      obtain ⟨hlt, rfl⟩ := List.getElem?_eq_some_iff.mp hk
      obtain ⟨hlt', rfl⟩ := List.getElem?_eq_some_iff.mp hk'
      rw [List.pairwise_iff_getElem] at hpair
      rcases lt_trichotomy k k' with h | h | h
      · exact absurd ho' (hpair k k' hlt hlt' h ho)
      · exact h
      · exact absurd ho (hpair k' k hlt' hlt h ho')

lemma Ideal.Apart.expand (h : s.Apart) {ht : ℕ} {d : VTree ht}
    (hx : s.slots id = some (.stub ⟨ht, d⟩))
    (hann : d.ann.isSome) : (s.expand id d).Apart := by
  have hown : d.label ∈ d.offs := Tree.label_mem_offs hann
  have hnodup : d.offs.Nodup := h.nodup id _ hx
  have hcases : ∀ i y, (s.expand id d).slots i = some y → (i = id ∧ y.labels = [d.label]) ∨
      (i ≠ id ∧ s.slots i = some y) ∨ ∃ k : ℕ, (Ideal.stubs d)[k]? = some y ∧ i = s.next + k := by
    intro i y hy
    by_cases hi : i = id
    · subst hi
      refine Or.inl ⟨rfl, ?_⟩
      obtain rfl : Slot.loaded (Ideal.nodeOf (s.names d) d) false (some ⟨ht, d⟩) = y := by
        simpa [Ideal.expand, Ideal.put] using hy
      rfl
    · right
      have hy' : (s.addSlots (Ideal.stubs d)).slots i = some y := by
        simpa [Ideal.expand, Ideal.put, Function.update_of_ne hi] using hy
      rcases Ideal.addSlots_cases hy' with hy' | hk
      · exact Or.inl ⟨hi, hy'⟩
      · exact Or.inr hk
  have hstub : ∀ (k : ℕ) y, (Ideal.stubs d)[k]? = some y → y.labels.Nodup ∧ d.label ∉ y.labels ∧
    y.labels ⊆ d.offs ∧
      ∀ (k' : ℕ) y' o, (Ideal.stubs d)[k']? = some y' → o ∈ y.labels → o ∈ y'.labels → k = k' := by
    intro k y hy
    cases ht with
    | zero => simp [Ideal.stubs] at hy
    | succ ht =>
      obtain ⟨hkids, hpair⟩ := Tree.offs_children hnodup hann
      simp only [Ideal.stubs, List.getElem?_map] at hy
      obtain ⟨e, he, rfl⟩ := Option.map_eq_some_iff.mp hy
      obtain ⟨h₁, h₂, h₃⟩ := hkids e (List.mem_of_getElem? he)
      refine ⟨h₁, h₂, h₃, fun k' y' o hy' ho ho' => ?_⟩
      simp only [Ideal.stubs, List.getElem?_map] at hy'
      obtain ⟨e', he', rfl⟩ := Option.map_eq_some_iff.mp hy'
      exact hpair k k' e e' o he he' ho ho'
  refine ⟨fun i y hy => ?_, fun i i' y y' o hy hy' ho ho' => ?_⟩
  · rcases hcases i y hy with ⟨-, hl⟩ | ⟨-, hy⟩ | ⟨k, hk, -⟩
    · rw [hl]
      exact List.nodup_singleton _
    · exact h.nodup i y hy
    · exact (hstub k y hk).1
  · rcases hcases i y hy with ⟨hi, hl⟩ | ⟨hi, hy⟩ | ⟨k, hk, hi⟩ <;>
      rcases hcases i' y' hy' with ⟨hi', hl'⟩ | ⟨hi', hy'⟩ | ⟨k', hk', hi'⟩
    · rw [hi, hi']
    · rw [hl, List.mem_singleton] at ho
      exact absurd (h.owner id i' _ y' o hx hy' (ho ▸ hown) ho').symm hi'
    · rw [hl, List.mem_singleton] at ho
      exact absurd (ho ▸ ho') (hstub k' y' hk').2.1
    · rw [hl', List.mem_singleton] at ho'
      exact absurd (h.owner id i _ y o hx hy (ho' ▸ hown) ho).symm hi
    · exact h.owner i i' y y' o hy hy' ho ho'
    · exact absurd (h.owner id i _ y o hx hy ((hstub k' y' hk').2.2.1 ho') ho).symm hi
    · rw [hl', List.mem_singleton] at ho'
      exact absurd (ho' ▸ ho) (hstub k y hk).2.1
    · exact absurd (h.owner id i' _ y' o hx hy' ((hstub k y hk).2.2.1 ho) ho').symm hi'
    · rw [hi, hi', (hstub k y hk).2.2.2 k' y' o hk' ho ho']

end Apart

/-- The slots of a disk engine stand for those of an ideal store. -/
structure DiskStore.Tracks {V : Type} [Crc32Fast] (file : V → List Byte) (s : Ideal)
    (d : DiskStore V) : Prop where
  next : d.slots.length = s.next
  slots : ∀ id < s.next, ∃ x, d.slots[id]? = some x ∧ SlotMatch (id ∈ s.kept) (s.slots id) x
  bound : ∀ id x, s.slots id = some x → id < s.next
  records : ∀ id x r, s.slots id = some x → x.record = some r → r.2.OnFile (file d.vfs) d.watermark
  offsets : ∀ o id, d.offsets.get? o = some id ↔ ∃ x, s.slots id = some x ∧ x.label = some o
  tidy : d.Tidy
  free : s.free = true → d.cache.budget = none
  watermark : d.watermark < 2 ^ 64

/-- What an ideal store with no offset in two places amounts to on a device. -/
structure DiskStore.Models {V : Type} [Crc32Fast] (file : V → List Byte) (s : Ideal)
    (d : DiskStore V) : Prop
    extends DiskStore.Tracks file s d where
  apart : s.Apart

/-- Records that are in the file are read as they are, or the read fails in an expected way. -/
structure RecordReads {V : Type} [Vfs V] [Crc32Fast] (file : V → List Byte) (Same : V → V → Prop)
    (Err : Fault → Prop) :
    Prop where
  refl : ∀ v, Same v v
  trans : ∀ {v v' v''}, Same v v' → Same v' v'' → Same v v''
  file_eq : ∀ {v v'}, Same v v' → file v' = file v
  read : ∀ (s : DiskStore V) (offset : ℕ) (node : DiskNode) (len : ℕ), s.watermark < 2 ^ 64 →
    parseRecord (file s.vfs) s.watermark offset = .ok (node, len) → ∃ v', Same s.vfs v' ∧
      (DiskStore.readRecord offset s = .ok (node, len) { s with vfs := v' } ∨
        ∃ f, DiskStore.readRecord offset s = .error f { s with vfs := v' } ∧ Err f)

lemma recordReads_exact {V : Type} [Vfs V] [Crc32Fast] [ExactReads V] :
    RecordReads (ExactReads.file : V → List Byte) ExactReads.Same fun _ => False where
  refl := ExactReads.refl
  trans := ExactReads.trans
  file_eq := ExactReads.file_eq
  read s offset node len hw hp := by
    obtain ⟨v', hsame, hread⟩ := DiskStore.readRecord_exact s offset hw
    rw [hp] at hread
    exact ⟨v', hsame, Or.inl hread⟩

/-- What the machinery leaves alone in a store. -/
structure DiskStore.Steady {V : Type} (Same : V → V → Prop) (d d' : DiskStore V) : Prop where
  vfs : Same d.vfs d'.vfs
  watermark : d'.watermark = d.watermark
  nextGeneration : d'.nextGeneration = d.nextGeneration
  poisoned : d'.poisoned = d.poisoned
  budget : d'.cache.budget = d.cache.budget

namespace DiskStore
variable {V : Type} [Crc32Fast] {file : V → List Byte} {s : Ideal}
    {d d' : DiskStore V} {id : NodeId}

section Steady
variable {Same : V → V → Prop}

omit [Crc32Fast] in
lemma Steady.trans {d'' : DiskStore V} (ht : ∀ {v v' v''}, Same v v' → Same v' v'' → Same v v'')
    (h : Steady Same d d')
    (h' : Steady Same d' d'') : Steady Same d d'' :=
  ⟨ht h.vfs h'.vfs, h'.watermark.trans h.watermark, h'.nextGeneration.trans h.nextGeneration,
    h'.poisoned.trans h.poisoned, h'.budget.trans h.budget⟩

omit [Crc32Fast] in
lemma Steady.of_eq (h : Steady Eq d d') (hr : ∀ v, Same v v) : Steady Same d d' :=
  ⟨h.vfs ▸ hr d.vfs, h.watermark, h.nextGeneration, h.poisoned, h.budget⟩

omit [Crc32Fast] in
lemma Ages.steady {spare : NodeId → Prop} (hr : ∀ v, Same v v) (h : Ages spare d d') :
    Steady Same d d' :=
  ⟨by rw [h.vfs]; exact hr d.vfs, h.watermark, h.nextGeneration, h.poisoned, h.budget⟩

end Steady

section Tracks

lemma Tracks.slot (h : Tracks file s d) {x : Slot} (hx : s.slots id = some x) :
    ∃ y, d.slots[id]? = some y ∧ SlotMatch (id ∈ s.kept) (some x) y := by
  obtain ⟨y, hy, hm⟩ := h.slots id (h.bound id x hx)
  exact ⟨y, hy, hx ▸ hm⟩

lemma Tracks.resident (h : Tracks file s d) {n : Node} {dirty : Bool} {r : Option Record}
    (hx : s.slots id = some (.loaded n dirty r)) (hr : dirty = true ∨ id ∈ s.kept) :
    ∃ bytes tick, d.slots[id]? = some (.loaded n dirty (r.map Record.label) bytes tick) := by
  obtain ⟨y, hy, hm⟩ := h.slot hx
  cases hm with
  | loaded _ _ _ bytes tick => exact ⟨bytes, tick, hy⟩
  | evicted _ _ hk => exact absurd (hr.resolve_left (by simp)) hk

lemma Tracks.ages (h : Tracks file s d) {spare : NodeId → Prop} (ha : Ages spare d d')
    (ht : d'.Tidy) {kept : Set NodeId}
    (hk : ∀ i ∈ kept, i ∈ s.kept ∧ spare i) : Tracks file { s with kept := kept } d' where
  next := ha.length.trans h.next
  slots i hi := by
    obtain ⟨x, hx, hm⟩ := h.slots i hi
    obtain ⟨y, hy, hxy⟩ := ha.slots i x hx
    exact ⟨y, hy, hm.ages hxy fun hin => (hk i hin)⟩
  bound := h.bound
  records i x r hx hr := by
    rw [ha.vfs, ha.watermark]
    exact h.records i x r hx hr
  offsets o i := by
    rw [ha.offsets]
    exact h.offsets o i
  tidy := ht
  free hf := ha.budget.trans (h.free hf)
  watermark := ha.watermark ▸ h.watermark

lemma Tracks.vfs (h : Tracks file s d) {v : V} (hv : file v = file d.vfs) :
    Tracks file s { d with vfs := v } where
  next := h.next
  slots := h.slots
  bound := h.bound
  records i x r hx hr := by
    rw [hv]
    exact h.records i x r hx hr
  offsets := h.offsets
  tidy := ⟨h.tidy.bytes, h.tidy.resident, h.tidy.lru, h.tidy.backed⟩
  free := h.free
  watermark := h.watermark

lemma Tracks.set (h : Tracks file s d) {x x' : Slot} {y : NodeSlot} {kept : Set NodeId}
    (hx : s.slots id = some x)
    (hm : SlotMatch (id ∈ kept) (some x') y) (hk : ∀ i ∈ kept, i ≠ id → i ∈ s.kept)
    (hr : x'.record = x.record)
    (hslots : d'.slots = d.slots.set id y) (hvfs : d'.vfs = d.vfs) (hw : d'.watermark = d.watermark)
    (ho : d'.offsets = d.offsets) (hb : d'.cache.budget = d.cache.budget) (ht : d'.Tidy) :
    Tracks file { s.put id (some x') with kept := kept } d' where
  next := by
    rw [hslots, List.length_set]
    exact h.next
  slots i hi := by
    have hlt : id < d.slots.length := h.next ▸ h.bound id x hx
    rw [hslots]
    by_cases hid : id = i
    · subst hid
      refine ⟨y, List.getElem?_set_self hlt, ?_⟩
      simpa [Ideal.put] using hm
    · obtain ⟨z, hz, hmz⟩ := h.slots i hi
      refine ⟨z, by rw [List.getElem?_set_ne hid, hz], ?_⟩
      simp only [Ideal.put, Function.update_of_ne (Ne.symm hid)]
      exact hmz.ages (.refl True z) fun hin => ⟨hk i hin (Ne.symm hid), trivial⟩
  bound i z hz := by
    by_cases hid : i = id
    · exact hid ▸ h.bound id x hx
    · exact h.bound i z (by simpa [Ideal.put, Function.update_of_ne hid] using hz)
  records i z r hz hzr := by
    rw [hvfs, hw]
    by_cases hid : i = id
    · subst hid
      obtain rfl : x' = z := by simpa [Ideal.put] using hz
      exact h.records i x r hx (hr ▸ hzr)
    · exact h.records i z r (by simpa [Ideal.put, Function.update_of_ne hid] using hz) hzr
  offsets o i := by
    rw [ho, h.offsets]
    by_cases hid : i = id
    · subst hid
      simp only [Ideal.put, Function.update_self, hx, Option.some.injEq, exists_eq_left']
      unfold Slot.label
      rw [hr]
    · simp only [Ideal.put, Function.update_of_ne hid]
  tidy := ht
  free hf := hb.trans (h.free hf)
  watermark := hw ▸ h.watermark

lemma Tracks.push (h : Tracks file s d) {x : Slot} {y : NodeSlot}
    (hm : SlotMatch (s.next ∈ s.kept) (some x) y)
    (hrec : ∀ r, x.record = some r → r.2.OnFile (file d.vfs) d.watermark)
    (hfresh : ∀ o, x.label = some o → d.offsets.get? o = none) (hslots : d'.slots = d.slots ++ [y])
    (hvfs : d'.vfs = d.vfs) (hw : d'.watermark = d.watermark)
    (hb : d'.cache.budget = d.cache.budget) (ht : d'.Tidy)
    (ho : ∀ o i, d'.offsets.get? o = some i ↔ if x.label = some o then i = s.next
      else d.offsets.get? o = some i) :
    Tracks file { s.put s.next (some x) with next := s.next + 1 } d' where
  next := by simp [hslots, h.next]
  slots i hi := by
    rw [hslots]
    by_cases hid : i = s.next
    · subst hid
      refine ⟨y, ?_, by simpa [Ideal.put] using hm⟩
      rw [← h.next]
      simp
    · have hlt : i < s.next := lt_of_le_of_ne (Nat.le_of_lt_succ hi) hid
      obtain ⟨z, hz, hmz⟩ := h.slots i hlt
      refine ⟨z, by rw [List.getElem?_append_left (h.next ▸ hlt), hz], ?_⟩
      simpa only [Ideal.put, Function.update_of_ne hid] using hmz
  bound i z hz := by
    by_cases hid : i = s.next
    · subst hid
      exact Nat.lt_succ_self _
    · exact Nat.lt_succ_of_lt
        (h.bound i z (by simpa [Ideal.put, Function.update_of_ne hid] using hz))
  records i z r hz hzr := by
    rw [hvfs, hw]
    by_cases hid : i = s.next
    · subst hid
      obtain rfl : x = z := by simpa [Ideal.put] using hz
      exact hrec r hzr
    · exact h.records i z r (by simpa [Ideal.put, Function.update_of_ne hid] using hz) hzr
  offsets o i := by
    rw [ho]
    by_cases hid : i = s.next
    · subst hid
      simp only [Ideal.put, Function.update_self, Option.some.injEq, exists_eq_left']
      refine ⟨fun hi => ?_, fun hi => (if_pos hi).mpr trivial⟩
      by_contra hne
      rw [if_neg hne] at hi
      obtain ⟨z, hz, -⟩ := (h.offsets o s.next).mp hi
      exact lt_irrefl _ (h.bound _ z hz)
    · simp only [Ideal.put, Function.update_of_ne hid, ← h.offsets]
      by_cases hx : x.label = some o
      · rw [if_pos hx, hfresh o hx]
        simp [hid]
      · rw [if_neg hx]
  tidy := ht
  free hf := hb.trans (h.free hf)
  watermark := hw ▸ h.watermark

lemma Tracks.drop (h : Tracks file s d) {x : Slot} (hx : s.slots id = some x)
    (hslots : d'.slots = d.slots.set id .freed)
    (hvfs : d'.vfs = d.vfs) (hw : d'.watermark = d.watermark)
    (hb : d'.cache.budget = d.cache.budget) (ht : d'.Tidy)
    (ho : d'.offsets = x.label.elim d.offsets d.offsets.erase) :
    Tracks file (s.put id none) d' where
  next := by
    rw [hslots, List.length_set]
    exact h.next
  slots i hi := by
    have hlt : id < d.slots.length := h.next ▸ h.bound id x hx
    rw [hslots]
    by_cases hid : id = i
    · subst hid
      exact ⟨.freed, List.getElem?_set_self hlt, by simpa [Ideal.put] using SlotMatch.freed⟩
    · obtain ⟨z, hz, hmz⟩ := h.slots i hi
      refine ⟨z, by rw [List.getElem?_set_ne hid, hz], ?_⟩
      simpa only [Ideal.put, Function.update_of_ne (Ne.symm hid)] using hmz
  bound i z hz := by
    by_cases hid : i = id
    · exact hid ▸ h.bound id x hx
    · exact h.bound i z (by simpa [Ideal.put, Function.update_of_ne hid] using hz)
  records i z r hz hzr := by
    rw [hvfs, hw]
    by_cases hid : i = id
    · subst hid
      simp [Ideal.put] at hz
    · exact h.records i z r (by simpa [Ideal.put, Function.update_of_ne hid] using hz) hzr
  offsets o i := by
    have hget : d'.offsets.get? o = if x.label = some o then none else d.offsets.get? o := by
      rw [ho]
      cases hl : x.label with
      | none => simp
      | some l =>
        rw [Option.elim_some, OrdMap.get?_erase]
        by_cases hol : o = l
        · simp [hol]
        · simp [hol, Ne.symm hol]
    rw [hget]
    by_cases hid : i = id
    · subst hid
      simp only [Ideal.put, Function.update_self]
      constructor
      · intro hi
        split_ifs at hi with hl
        obtain ⟨z, hz, hzl⟩ := (h.offsets o i).mp hi
        rw [hx] at hz
        cases hz
        exact absurd hzl hl
      · rintro ⟨z, hz, -⟩
        cases hz
    · simp only [Ideal.put, Function.update_of_ne hid, ← h.offsets]
      split_ifs with hl
      · have hown := (h.offsets o id).mpr ⟨x, hx, hl⟩
        rw [hown]
        simp [Ne.symm hid]
      · rfl
  tidy := ht
  free hf := hb.trans (h.free hf)
  watermark := hw ▸ h.watermark

end Tracks

section Intern
variable {ht : ℕ}

/-- Child offsets that are not known yet get slots of their own. -/
lemma Tracks.allocChildren {es : List (VTree ht)} (h : Tracks file s d)
    (hon : ∀ e ∈ es, e.OnFile (file d.vfs) d.watermark ∧ e.label < 2 ^ 64)
    (hfresh : ∀ e ∈ es, d.offsets.get? e.label = none) (hnd : (es.map Tree.label).Nodup) :
    ∃ d', (es.map fun e => UInt64.ofNat e.label).mapM (fun c => allocOnDisk c.toNat) d =
        .ok (List.range' s.next es.length) d' ∧
      Tracks file (s.addSlots (es.map fun e => .stub ⟨ht, e⟩)) d' ∧ Steady Eq d d' ∧
      ∀ (j : NodeId) x, d.slots[j]? = some x → d'.slots[j]? = some x := by
  induction es generalizing s d with
  | nil => exact ⟨d, rfl, h, ⟨rfl, rfl, rfl, rfl, rfl⟩, fun _ _ hx => hx⟩
  | cons e es ih =>
    obtain ⟨hone, he64⟩ := hon e (by simp)
    have hnone := hfresh e (by simp)
    let d₁ : DiskStore V :=
      { d with
        slots := d.slots ++ [.onDisk e.label]
        offsets := d.offsets.insert e.label d.slots.length }
    have halloc : allocOnDisk (UInt64.ofNat e.label).toNat d = .ok s.next d₁ := by
      rw [UInt64.toNat_ofNat_of_lt' he64, ← h.next]
      unfold allocOnDisk
      rw [hnone]
    have hann : Slot.label (.stub ⟨ht, e⟩) = some e.label := rfl
    have h₁ : Tracks file { s.put s.next (some (.stub ⟨ht, e⟩)) with next := s.next + 1 } d₁ := by
      refine h.push (.stub ⟨ht, e⟩) (fun r hr => ?_)
        (fun o ho => ?_) rfl rfl rfl rfl ?_ fun o i => ?_
      · cases hr
        exact hone
      · rw [hann, Option.some.injEq] at ho
        exact ho ▸ hnone
      · exact h.tidy.push e.label _
      · rw [hann, OrdMap.get?_insert, ← h.next]
        by_cases ho : e.label = o
        · subst ho
          simp [eq_comm]
        · simp [ho, Ne.symm ho]
    obtain ⟨hnotin, hnd'⟩ := List.nodup_cons.mp hnd
    have hfresh₁ : ∀ e' ∈ es, d₁.offsets.get? e'.label = none := by
      intro e' he'
      have hne : e'.label ≠ e.label := fun heq => hnotin (heq ▸ List.mem_map_of_mem he')
      rw [OrdMap.get?_insert, if_neg hne]
      exact hfresh e' (by simp [he'])
    obtain ⟨d', hrun, h', hsteady, hslots⟩ :=
      ih h₁ (fun e' he' => hon e' (by simp [he'])) hfresh₁ hnd'
    refine ⟨d', ?_, h', ⟨hsteady.vfs, hsteady.watermark, hsteady.nextGeneration, hsteady.poisoned,
      hsteady.budget⟩,
      fun j x hx => hslots j x ?_⟩
    · rw [List.map_cons, List.mapM_cons, run_bind_ok halloc, run_bind_ok hrun, List.length_cons,
        List.range'_succ]
      rfl
    · rw [List.getElem?_append_left (List.getElem?_eq_some_iff.mp hx).1]
      exact hx

lemma Tracks.reconnect {es : List (VTree ht)} {children : List NodeId} (h : Tracks file s d)
    (hc : children.map (fun c => (s.slots c).bind Slot.record) = es.map fun e => some ⟨ht, e⟩)
    (h64 : ∀ e ∈ es, e.label < 2 ^ 64) :
    (es.map fun e => UInt64.ofNat e.label).mapM (fun c => allocOnDisk c.toNat) d = .ok children
      d := by
  induction es generalizing children with
  | nil =>
    obtain rfl : children = [] := by simpa using hc
    rfl
  | cons e es ih =>
    cases children with
    | nil => simp at hc
    | cons c children =>
      rw [List.map_cons, List.map_cons, List.cons.injEq] at hc
      obtain ⟨x, hx, hr⟩ := Option.bind_eq_some_iff.mp hc.1
      have hoff : d.offsets.get? e.label = some c :=
        (h.offsets e.label c).mpr ⟨x, hx, by simp [Slot.label, hr, Record.label]⟩
      have halloc : allocOnDisk (UInt64.ofNat e.label).toNat d = .ok c d := by
        obtain ⟨y, hy, hm⟩ := h.slot hx
        rw [UInt64.toNat_ofNat_of_lt' (h64 e (by simp))]
        unfold allocOnDisk
        rw [hoff]
        dsimp only
        rw [hy]
        cases hm with
        | loaded => rfl
        | evicted => rfl
        | stub => rfl
      rw [List.map_cons, List.mapM_cons, run_bind_ok halloc,
        run_bind_ok (ih hc.2 fun e' he' => h64 e' (by simp [he']))]
      rfl

lemma Tracks.loadedIn {x : Slot} {n : Node} {r : Record} {bytes : ℕ} {pins : List NodeId}
    (h : Tracks file s d)
    (hx : s.slots id = some x) (hr : x.record = some r) (hd : d.slots[id]? = some (.onDisk r.label))
    (ha : Ages (fun i => d.cache.budget = none ∨ i ∈ pins ∨ some id = some i)
      (d.place id n r.label bytes) d')
    (ht : d'.Tidy) : Tracks file ((s.put id (some (.loaded n false (some r)))).keep id pins)
      d' := by
  have hset :
    Tracks file { s.put id (some (.loaded n false (some r))) with kept := insert id s.kept }
      (d.place id n r.label bytes) := by
    refine h.set hx (.loaded n false (some r) bytes 0)
      (fun i hi hne => ?_) hr.symm rfl rfl rfl rfl rfl
      (h.tidy.place hd n bytes)
    exact (Set.mem_insert_iff.mp hi).resolve_left hne
  refine hset.ages ha ht fun i hi => ?_
  rcases Set.mem_insert_iff.mp hi with hi | ⟨hi, hspare⟩
  · exact ⟨Set.mem_insert_iff.mpr (Or.inl hi), Or.inr (Or.inr (by rw [hi]))⟩
  · exact ⟨Set.mem_insert_of_mem _ hi, hspare.elim (fun hf => Or.inl (h.free hf))
      fun hp => Or.inr (Or.inl hp)⟩

end Intern

section Load
variable [Vfs V] {Same : V → V → Prop} {Err : Fault → Prop} {pins : List NodeId}

omit [Vfs V] in
lemma Tracks.keepIn {n : Node} {dirty : Bool} {diskOffset : Option ℕ} {bytes tick : ℕ}
    (h : Tracks file s d)
    (hd : d.slots[id]? = some (.loaded n dirty diskOffset bytes tick)) :
    Tracks file { s with kept := insert id s.kept } d where
  next := h.next
  slots i hi := by
    obtain ⟨y, hy, hm⟩ := h.slots i hi
    refine ⟨y, hy, ?_⟩
    by_cases hid : i = id
    · subst hid
      rw [hd] at hy
      cases hy
      generalize s.slots i = z at hm
      generalize hz : NodeSlot.loaded n dirty diskOffset bytes tick = w at hm
      cases hm with
      | loaded => exact .loaded ..
      | freed => cases hz
      | evicted => cases hz
      | stub => cases hz
    · exact hm.ages (.refl True y) fun hin =>
        ⟨(Set.mem_insert_iff.mp hin).resolve_left hid, trivial⟩
  bound := h.bound
  records := h.records
  offsets := h.offsets
  tidy := h.tidy
  free := h.free
  watermark := h.watermark

lemma Models.read (hV : RecordReads file Same Err) (h : Models file s d) {x : Slot} {r : Record}
    (hx : s.slots id = some x) (hr : x.record = some r) :
    ∃ v' len, Same d.vfs v' ∧ Models file s { d with vfs := v' } ∧
      (readRecord r.label d = .ok (r.2.toDisk, len) { d with vfs := v' } ∨
        ∃ f, readRecord r.label d = .error f { d with vfs := v' } ∧ Err f) := by
  obtain ⟨len, hp⟩ := (h.records id x r hx hr).parse
  obtain ⟨v', hsame, hread⟩ := hV.read d r.label _ len h.watermark hp
  exact ⟨v', len, hsame, ⟨h.toTracks.vfs (hV.file_eq hsame), h.apart⟩, hread⟩

lemma Models.reload (hV : RecordReads file Same Err) (h : Models file s d) {n : Node} {r : Record}
    (hx : s.slots id = some (.loaded n false (some r))) (hr : s.ReadsBack n r) :
    (∃ d', ensureLoaded id pins d = .ok () d' ∧ Models file (s.keep id pins) d' ∧
      Steady Same d d') ∨
      ∃ f d', ensureLoaded id pins d = .error f d' ∧ Err f ∧ Models file s d' ∧
      Steady Same d d' := by
  have hput : s.put id (some (.loaded n false (some r))) = s := by
    unfold Ideal.put
    rw [← hx, Function.update_eq_self]
  obtain ⟨y, hy, hm⟩ := h.slot hx
  generalize hz : some (Slot.loaded n false (some r)) = z at hm
  cases hm with
  | freed => cases hz
  | stub => cases hz
  | loaded n' dirty r' bytes tick =>
    obtain ⟨d', hrun, ht, ha⟩ := ensureLoaded_hit pins h.tidy hy
    refine Or.inl ⟨d', hrun, ⟨?_, ⟨h.apart.nodup, h.apart.owner⟩⟩, ha.steady hV.refl⟩
    refine (h.toTracks.keepIn hy).ages ha ht fun i hi => ⟨?_, trivial⟩
    rcases Set.mem_insert_iff.mp hi with hi | ⟨hi, -⟩
    · exact Set.mem_insert_iff.mpr (Or.inl hi)
    · exact Set.mem_insert_of_mem _ hi
  | evicted n' r' hk =>
    obtain ⟨rfl, rfl⟩ : n = n' ∧ r = r' := by simpa using hz
    obtain ⟨v', len, hsame, h₁, hread | ⟨f, hread, hf⟩⟩ := h.read hV hx rfl
    · -- the children are found where they were
      have hint :
        internChildren r.label r.2.toDisk { d with vfs := v' } = .ok n { d with vfs := v' } := by
        obtain ⟨ht, e⟩ := r
        have hon := h₁.records id _ ⟨ht, e⟩ hx rfl
        cases ht with
        | zero =>
          cases n with
          | leaf es =>
            have hes : e.entries = es := hr
            rw [← hes]
            rfl
          | internal ps cs b => exact absurd hr not_false
        | succ ht =>
          cases n with
          | leaf es => exact absurd hr not_false
          | internal ps cs b =>
            obtain ⟨hps, hb, hkids⟩ := hr
            have hmap := h₁.toTracks.reconnect hkids fun e' he' => (hon.2.2.2 e' he').2.2.1
            rw [← hps, ← hb]
            exact hon.intern hmap
      obtain ⟨d', hrun, ht, ha⟩ := ensureLoaded_miss pins hy hread hint hy h₁.tidy
      refine Or.inl ⟨d', hrun, ⟨?_, ⟨h.apart.nodup, h.apart.owner⟩⟩, ?_⟩
      · have := h₁.toTracks.loadedIn hx rfl hy ha ht
        rwa [hput] at this
      · exact ⟨ha.vfs ▸ hsame, ha.watermark, ha.nextGeneration, ha.poisoned, ha.budget⟩
    · exact Or.inr ⟨f, _, ensureLoaded_unread pins hy hread, hf, h₁, ⟨hsame, rfl, rfl, rfl, rfl⟩⟩

/-- A slot that was never read gets its node, over slots for its children. -/
lemma Models.expand (hV : RecordReads file Same Err) (h : Models file s d) {ht : ℕ} {e : VTree ht}
    (hx : s.slots id = some (.stub ⟨ht, e⟩)) :
    (∃ d', ensureLoaded id pins d = .ok () d' ∧ Models file ((s.expand id e).keep id pins) d' ∧
      Steady Same d d') ∨
      ∃ f d', ensureLoaded id pins d = .error f d' ∧ Err f ∧ Models file s d' ∧
      Steady Same d d' := by
  obtain ⟨y, hy, hm⟩ := h.slot hx
  cases hm with
  | stub =>
    obtain ⟨v', len, hsame, h₁, hread | ⟨f, hread, hf⟩⟩ := h.read hV hx rfl
    · have hon := h₁.records id _ ⟨ht, e⟩ hx rfl
      have hapart := h.apart.expand hx hon.isSome
      obtain ⟨d₂, hint, h₂, hsteady, hslots⟩ : ∃ d₂ : DiskStore V,
          internChildren e.label e.toDisk { d with vfs := v' } = .ok
            (Ideal.nodeOf (s.names e) e) d₂ ∧
          Tracks file (s.addSlots (Ideal.stubs e)) d₂ ∧ Steady Eq { d with vfs := v' } d₂ ∧
          ∀ (j : NodeId) x, d.slots[j]? = some x → d₂.slots[j]? = some x := by
        cases ht with
        | zero => exact ⟨_, rfl, h₁.toTracks, ⟨rfl, rfl, rfl, rfl, rfl⟩, fun _ _ hx => hx⟩
        | succ ht =>
          obtain ⟨hkids, hpair⟩ := Tree.offs_children (h.apart.nodup id _ hx) hon.isSome
          have hfresh : ∀ c ∈ e.children, d.offsets.get? c.label = none := by
            intro c hc
            have hcl : c.label ∈ c.offs := Tree.label_mem_offs (hon.2.2.2 c hc).2.2.2.isSome
            by_contra hne
            obtain ⟨i, hi⟩ := Option.ne_none_iff_exists'.mp hne
            obtain ⟨z, hz, hzl⟩ := (h.offsets c.label i).mp hi
            have hzo := Slot.label_mem_labels hzl fun r hr => (h.records i z r hz hr).isSome
            obtain rfl := h.apart.owner i id z _ c.label hz hx hzo ((hkids c hc).2.2 hcl)
            rw [hx] at hz
            cases hz
            have heq : e.label = c.label := Option.some.inj hzl
            exact (hkids c hc).2.1 (heq ▸ hcl)
          have hnd : (e.children.map Tree.label).Nodup := by
            unfold List.Nodup
            rw [List.pairwise_map, List.pairwise_iff_getElem]
            intro k k' hk hk' hlt heq
            have hmem := fun (c : VTree ht) hc => Tree.label_mem_offs (hon.2.2.2 c hc).2.2.2.isSome
            refine hlt.ne (hpair k k' _ _ _ (List.getElem?_eq_getElem hk)
              (List.getElem?_eq_getElem hk')
              (hmem _ (List.getElem_mem hk)) ?_)
            rw [heq]
            exact hmem _ (List.getElem_mem hk')
          obtain ⟨d₂, hrun, h₂, hsteady, hslots⟩ := h₁.toTracks.allocChildren
            (fun c hc => ⟨(hon.2.2.2 c hc).2.2.2, (hon.2.2.2 c hc).2.2.1⟩) hfresh hnd
          exact ⟨d₂, hon.intern hrun, h₂, hsteady, hslots⟩
      have hx₂ : d₂.slots[id]? = some (.onDisk e.label) := hslots id _ hy
      have hsx : (s.addSlots (Ideal.stubs e)).slots id = some (.stub ⟨ht, e⟩) := by
        rw [Ideal.addSlots_of_lt _ (h.bound id _ hx)]
        exact hx
      obtain ⟨d', hrun, htidy, ha⟩ := ensureLoaded_miss pins hy hread hint hx₂ h₂.tidy
      refine Or.inl ⟨d', hrun, ⟨h₂.loadedIn hsx rfl hx₂ ha htidy, ⟨hapart.nodup, hapart.owner⟩⟩, ?_⟩
      refine ⟨?_, ha.watermark.trans hsteady.watermark,
        ha.nextGeneration.trans hsteady.nextGeneration,
        ha.poisoned.trans hsteady.poisoned, ha.budget.trans hsteady.budget⟩
      have hvfs : d'.vfs = v' := ha.vfs.trans hsteady.vfs.symm
      rw [hvfs]
      exact hsame
    · exact Or.inr ⟨f, _, ensureLoaded_unread pins hy hread, hf, h₁, ⟨hsame, rfl, rfl, rfl, rfl⟩⟩

omit [Vfs V] in
lemma Models.release (h : Models file s d) {x : Slot} (hx : s.slots id = some x) :
    ∃ d', releaseSlot id d = .ok () d' ∧ Models file (s.put id none) d' ∧ Steady Eq d d' := by
  obtain ⟨y, hy, hm⟩ := h.slot hx
  have hdrop := h.apart.drop id
  generalize hz : some x = z at hm
  cases hm with
  | freed => cases hz
  | loaded n dirty r bytes tick =>
    cases hz
    have hbytes : bytes ≤ d.cache.bytes := h.tidy.bytes ▸ le_sum_map NodeSlot.bytes hy
    have hcount : 1 ≤ d.cache.resident := h.tidy.resident ▸ le_sum_map NodeSlot.count hy
    let d' : DiskStore V := { d with
      slots := d.slots.set id .freed
      cache := { d.cache with bytes := d.cache.bytes - bytes, resident := d.cache.resident - 1 }
      offsets := (r.map Record.label).elim d.offsets d.offsets.erase }
    have hrun : releaseSlot id d = .ok () d' := by
      unfold releaseSlot
      rw [hy]
      exact if_pos ⟨hbytes, hcount⟩
    have ht : d'.Tidy :=
      h.tidy.replace hy .freed trivial rfl (Nat.sub_add_cancel hbytes)
        (Nat.sub_add_cancel hcount) rfl
    exact ⟨d', hrun, ⟨h.toTracks.drop hx rfl rfl rfl rfl ht rfl, hdrop⟩, ⟨rfl, rfl, rfl, rfl, rfl⟩⟩
  | evicted n r hk =>
    cases hz
    let d' : DiskStore V :=
      { d with slots := d.slots.set id .freed, offsets := d.offsets.erase r.label }
    have hrun : releaseSlot id d = .ok () d' := by
      unfold releaseSlot
      rw [hy]
    have ht : d'.Tidy := h.tidy.replace hy .freed trivial rfl rfl rfl rfl
    exact ⟨d', hrun, ⟨h.toTracks.drop hx rfl rfl rfl rfl ht rfl, hdrop⟩, ⟨rfl, rfl, rfl, rfl, rfl⟩⟩
  | stub r =>
    cases hz
    let d' : DiskStore V :=
      { d with slots := d.slots.set id .freed, offsets := d.offsets.erase r.label }
    have hrun : releaseSlot id d = .ok () d' := by
      unfold releaseSlot
      rw [hy]
    have ht : d'.Tidy := h.tidy.replace hy .freed trivial rfl rfl rfl rfl
    exact ⟨d', hrun, ⟨h.toTracks.drop hx rfl rfl rfl rfl ht rfl, hdrop⟩, ⟨rfl, rfl, rfl, rfl, rfl⟩⟩

omit [Vfs V] in
lemma Models.mutate (h : Models file s d) {n n' : Node} {dirty : Bool} {r : Option Record}
    {f : Node → Option Node}
    (hx : s.slots id = some (.loaded n dirty r)) (hres : dirty = true ∨ id ∈ s.kept)
    (hf : f n = some n') :
    ∃ d', loadedMut id f d = .ok n' d' ∧ Models file (s.put id (some (.loaded n' true r))) d' ∧
    Steady Eq d d' := by
  obtain ⟨bytes, tick, hd⟩ := h.toTracks.resident hx hres
  obtain ⟨hrun, ht⟩ := loadedMut_run h.tidy hd hf
  refine ⟨_, hrun, ⟨?_, h.apart.put hx (List.Sublist.refl _)⟩, ⟨rfl, rfl, rfl, rfl, rfl⟩⟩
  exact h.toTracks.set hx (.loaded n' true r _ tick) (fun _ hi _ => hi) rfl rfl rfl rfl rfl rfl ht

omit [Vfs V] in
lemma Models.alloc (h : Models file s d) (n : Node) :
    ∃ d', allocDirty n d = .ok s.next d' ∧
      Models file { s.put s.next (some (.loaded n true none)) with next := s.next + 1 } d' ∧
      Steady Eq d d' := by
  obtain ⟨d', hrun, ht, ha⟩ := allocDirty_run h.tidy n (fun _ => True)
  rw [h.next] at hrun
  refine ⟨d', hrun, ⟨?_, h.apart.alloc n⟩, ⟨ha.vfs.symm, ha.watermark, ha.nextGeneration,
    ha.poisoned, ha.budget⟩⟩
  have hpush : Tracks file { s.put s.next (some (.loaded n true none)) with next := s.next + 1 }
    (d.grown n) := by
    refine h.toTracks.push (.loaded n true none (estBytes n) 0) (fun r hr => ?_)
      (fun o ho => ?_) rfl rfl rfl rfl
      (h.tidy.grown n) fun o i => ?_
    · cases hr
    · cases ho
    · simp [Slot.label, Slot.record, DiskStore.grown]
  exact hpush.ages ha ht fun i hi => ⟨hi, trivial⟩

end Load
end DiskStore

open DiskStore in
/-- The slots of a disk engine mirror the ideal store. -/
theorem diskSim {V : Type} [Vfs V] [Crc32Fast] {file : V → List Byte} {Same : V → V → Prop}
    {Err : Fault → Prop}
    (hV : RecordReads file Same Err) : StoreSim Eq (Models file) (Steady Same) Err where
  unique := ⟨fun _ _ _ h h' => h.trans h'.symm, fun _ _ _ h h' => h.symm.trans h'⟩
  looks := Ideal.loaded_eq
  refl d := ⟨hV.refl d.vfs, rfl, rfl, rfl, rfl⟩
  trans := Steady.trans hV.trans
  loaded := by
    intro id id' hid s d hR n s' hrun
    subst hid
    simp only [NodeStore.loaded] at hrun
    split at hrun
    case h_2 => cases hrun
    case h_1 node dirty r hx =>
      split_ifs at hrun with hres
      cases hrun
      obtain ⟨bytes, tick, hd⟩ := hR.toTracks.resident hx hres
      exact Or.inl ⟨n, d, by simp only [NodeStore.loaded, DiskStore.loaded, hd], NodeRel.refl n, hR,
        hV.refl d.vfs, rfl, rfl, rfl, rfl⟩
  mutate := by
    intro id id' f f' hid hf s d hR n s' hrun
    subst hid
    simp only [NodeStore.mutate] at hrun
    split at hrun
    case h_2 => cases hrun
    case h_1 node dirty r hx =>
      split_ifs at hrun with hres
      cases hfn : f node with
      | none =>
        rw [hfn] at hrun
        cases hrun
      | some node' =>
        rw [hfn] at hrun
        cases hrun
        rw [hf.eq] at hfn
        obtain ⟨d', hrun', hR', hsteady⟩ := hR.mutate hx hres hfn
        exact Or.inl ⟨n, d', hrun', NodeRel.refl n, hR', hsteady.of_eq hV.refl⟩
  alloc := by
    intro n n' hn s d hR id s' hrun
    cases hrun
    obtain rfl := hn.eq
    obtain ⟨d', hrun', hR', hsteady⟩ := hR.alloc n'
    exact Or.inl ⟨s.next, d', hrun', rfl, hR', hsteady.of_eq hV.refl⟩
  releaseSlot := by
    intro id id' hid s d hR u s' hrun
    subst hid
    simp only [NodeStore.releaseSlot] at hrun
    split at hrun
    case h_1 x hx =>
      cases hrun
      obtain ⟨d', hrun', hR', hsteady⟩ := hR.release hx
      exact Or.inl ⟨(), d', hrun', rfl, hR', hsteady.of_eq hV.refl⟩
    case h_2 => cases hrun
  isDirty := by
    intro id id' hid s d hR b s' hrun
    subst hid
    have hsame : Steady Same d d := ⟨hV.refl d.vfs, rfl, rfl, rfl, rfl⟩
    simp only [NodeStore.isDirty] at hrun
    split at hrun
    case h_1 node dirty r hx =>
      cases hrun
      obtain ⟨y, hy, hm⟩ := hR.slot hx
      generalize hz : some (Slot.loaded node b r) = z at hm
      cases hm with
      | freed => cases hz
      | loaded =>
        cases hz
        exact Or.inl ⟨b, d, by simp only [NodeStore.isDirty, DiskStore.isDirty, hy], rfl, hR, hsame⟩
      | evicted =>
        cases hz
        exact Or.inl ⟨false, d, by simp only [NodeStore.isDirty, DiskStore.isDirty, hy], rfl, hR,
          hsame⟩
      | stub => cases hz
    case h_2 r hx =>
      cases hrun
      obtain ⟨y, hy, hm⟩ := hR.slot hx
      cases hm with
      | stub =>
        exact Or.inl ⟨false, d, by simp only [NodeStore.isDirty, DiskStore.isDirty, hy], rfl, hR,
          hsame⟩
    case h_3 => cases hrun
  ensureLoaded := by
    intro id id' pins pins' hid hp s d hR u s' hrun
    subst hid
    obtain rfl := List.forall₂_eq_eq_eq ▸ hp
    simp only [NodeStore.ensureLoaded] at hrun
    split at hrun
    case h_1 node dirty r hx =>
      split_ifs at hrun with hres
      · cases hrun
        obtain ⟨bytes, tick, hd⟩ := hR.toTracks.resident hx hres
        obtain ⟨d', hrun', ht, ha⟩ := ensureLoaded_hit pins hR.tidy hd
        refine Or.inl ⟨(), d', hrun', rfl, ⟨?_, hR.apart⟩, ha.steady hV.refl⟩
        exact hR.toTracks.ages ha ht fun i hi => ⟨hi, trivial⟩
      · obtain rfl : dirty = false := by simpa using (not_or.mp hres).1
        split at hrun
        case h_1 r =>
          split_ifs at hrun with hback
          cases hrun
          rcases hR.reload hV hx hback with ⟨d', hrun', hR', hs⟩ | ⟨f, d', hrun', hf, hR', hs⟩
          · exact Or.inl ⟨(), d', hrun', rfl, hR', hs⟩
          · exact Or.inr ⟨f, d', hrun', hf, hR', hs⟩
        case h_2 => cases hrun
    case h_2 ht e hx =>
      cases hrun
      rcases hR.expand hV hx with ⟨d', hrun', hR', hs⟩ | ⟨f, d', hrun', hf, hR', hs⟩
      · exact Or.inl ⟨(), d', hrun', rfl, hR', hs⟩
      · exact Or.inr ⟨f, d', hrun', hf, hR', hs⟩
    case h_3 => cases hrun

end Beetree
