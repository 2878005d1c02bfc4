import Beetree.Cache
import Beetree.Device

/-! Loading nodes from a file whatever its bytes are.

Nothing is known of the tree behind a root offset but what loading a record checks: one child more
than pivots, and children at smaller offsets than their parent. -/
namespace Beetree

lemma bisect_lt {α : Type} (p : α → Bool) (xs : List α) (fuel : ℕ) {base size : ℕ}
    (h : base + size ≤ xs.length) (hpos : 0 < size) :
    bisect p xs fuel base size < xs.length := by
  induction fuel generalizing base size with
  | zero =>
    rw [bisect]
    omega
  | succ fuel ih =>
    rw [bisect]
    split_ifs with hlt
    · rw [List.getElem?_eq_getElem (by omega)]
      dsimp only
      split_ifs
      · exact ih (by omega) (by omega)
      · exact ih (by omega) (by omega)
    · omega

/-- Routing stays within the children even where the pivots are out of order. -/
lemma route_le_length (ps : List Key) (k : Key) : route ps k ≤ ps.length := by
  unfold route partitionPoint
  rcases Nat.eq_zero_or_pos ps.length with h0 | hpos
  · obtain rfl := List.length_eq_zero_iff.mp h0
    exact le_rfl
  have hlt : bisect (fun p => decide (p ≤ k)) ps ps.length 0 ps.length < ps.length :=
    bisect_lt _ ps _ (by simp) hpos
  simp only [List.getElem?_eq_getElem hlt]
  split_ifs
  · exact hlt
  · exact hlt.le

def NodeSlot.offset : NodeSlot → Option ℕ
  | loaded _ _ diskOffset _ _ => diskOffset
  | onDisk offset => some offset
  | freed => none

def slotOffset (slots : List NodeSlot) (id : NodeId) : Option ℕ := (slots[id]?).bind NodeSlot.offset

section Parse
variable [Crc32Fast]

/-- The child offsets of the record at an offset, as far as they precede it. -/
def childOffsets (file : List Byte) (watermark offset : ℕ) : List ℕ :=
  match parseRecord file watermark offset with
  | .ok (.internal _ children _, _) => (children.map UInt64.toNat).filter (· < offset)
  | _ => []

/-- Bounds the steps of a walk over everything below a record, shared children counted as often as
they are met. -/
def walkCost (file : List Byte) (watermark offset : ℕ) : ℕ :=
  1 + ((childOffsets file watermark offset).attach.map fun c => walkCost file watermark c.1 + 1).sum
termination_by offset
decreasing_by
  obtain ⟨c, hc⟩ := c
  unfold childOffsets at hc
  split at hc
  · exact of_decide_eq_true (List.mem_filter.mp hc).2
  · cases hc

/-- The cost of what is left of a node from child `i` on. -/
def restCost (file : List Byte) (watermark offset i : ℕ) : ℕ :=
  1 + (((childOffsets file watermark offset).drop i).map fun c => walkCost file watermark c + 1).sum

lemma walkCost_eq (file : List Byte) (watermark offset : ℕ) :
    walkCost file watermark offset = restCost file watermark offset 0 := by
  have hattach : ∀ (l : List ℕ) (f : ℕ → ℕ), (l.attach.map fun c => f c.1) = l.map f := by
    intro l f
    conv_rhs => rw [← l.attach_map_subtype_val, List.map_map]
    rfl
  rw [walkCost, hattach _ fun c => walkCost file watermark c + 1]
  rfl

lemma restCost_succ {file : List Byte} {watermark offset i c : ℕ}
    (hc : (childOffsets file watermark offset)[i]? = some c) :
    restCost file watermark offset i = walkCost file watermark c + 1 + restCost file watermark
      offset (i + 1) := by
  obtain ⟨hlt, rfl⟩ := List.getElem?_eq_some_iff.mp hc
  unfold restCost
  rw [List.drop_eq_getElem_cons hlt, List.map_cons, List.sum_cons]
  omega

/-- A node in memory is the record at its offset, its children being slots at the child offsets. -/
inductive Reflects (file : List Byte) (watermark : ℕ) (slots : List NodeSlot)
    (offset : ℕ) : Node → Prop
  | leaf {entries : Entries} {len : ℕ} :
    parseRecord file watermark offset = .ok (.leaf entries, len) →
      Reflects file watermark slots offset (.leaf entries)
  | internal {pivots : List Key} {children : List UInt64} {buffer : Buffer} {len : ℕ}
    {ids : List NodeId} :
      parseRecord file watermark offset = .ok (.internal pivots children buffer, len) →
      children.length = pivots.length + 1 → (∀ c ∈ children, c.toNat < offset) →
      List.Forall₂ (fun id c => slotOffset slots id = some (UInt64.toNat c)) ids children →
      Reflects file watermark slots offset (.internal pivots ids buffer)

/-- Every slot has an offset, and what is in memory is what the file has there. -/
structure Charted {V : Type} (file : List Byte) (s : DiskStore V) : Prop where
  tidy : s.Tidy
  watermark : s.watermark < 2 ^ 64
  slots : ∀ (id : NodeId) (x : NodeSlot), s.slots[id]? = some x → (∃ offset, x = .onDisk offset) ∨
    ∃ node offset bytes tick, x = .loaded node false (some offset) bytes tick ∧
      Reflects file s.watermark s.slots offset node
  offsets : ∀ offset id, s.offsets.get? offset = some id → slotOffset s.slots id = some offset

end Parse

section Slots
variable [Crc32Fast] {V : Type} {file : List Byte} {s s' s'' : DiskStore V}
    {id : NodeId} {offset : ℕ}

structure Later (s s' : DiskStore V) : Prop where
  offset : ∀ id o, slotOffset s.slots id = some o → slotOffset s'.slots id = some o
  watermark : s'.watermark = s.watermark

omit [Crc32Fast] in
lemma Later.refl (s : DiskStore V) : Later s s := ⟨fun _ _ h => h, rfl⟩

omit [Crc32Fast] in
lemma Later.trans (h : Later s s') (h' : Later s' s'') : Later s s'' :=
  ⟨fun id o ho => h'.offset id o (h.offset id o ho), h'.watermark.trans h.watermark⟩

def InMemory (s : DiskStore V) (id : NodeId) (node : Node) : Prop :=
  ∃ offset bytes tick, s.slots[id]? = some (.loaded node false (some offset) bytes tick)

lemma Reflects.later {slots slots' : List NodeSlot} {watermark : ℕ} {node : Node}
    (h : Reflects file watermark slots offset node)
    (hl : ∀ id o, slotOffset slots id = some o → slotOffset slots' id = some o) :
    Reflects file watermark slots' offset node := by
  cases h with
  | leaf hp => exact .leaf hp
  | internal hp ha hc hf => exact .internal hp ha hc (hf.imp fun id c h => hl id _ h)

omit [Crc32Fast] in
lemma slotOffset_lt {slots : List NodeSlot} (h : slotOffset slots id = some offset) :
    id < slots.length := by
  obtain ⟨x, hx, -⟩ := Option.bind_eq_some_iff.mp h
  exact (List.getElem?_eq_some_iff.mp hx).1

omit [Crc32Fast] in
lemma NodeSlot.Ages.offset_eq {spare : Prop} {x y : NodeSlot} (h : x.Ages spare y) :
    y.offset = x.offset := by
  cases h <;> rfl

omit [Crc32Fast] in
lemma DiskStore.Ages.later {spare : NodeId → Prop} (h : DiskStore.Ages spare s s') :
    Later s s' := by
  refine ⟨fun id o ho => ?_, h.watermark⟩
  obtain ⟨x, hx, hxo⟩ := Option.bind_eq_some_iff.mp ho
  obtain ⟨y, hy, hxy⟩ := h.slots id x hx
  exact Option.bind_eq_some_iff.mpr ⟨y, hy, hxy.offset_eq.trans hxo⟩

lemma Charted.ages {spare : NodeId → Prop} (hs : Charted file s) (ht : s'.Tidy)
    (ha : DiskStore.Ages spare s s') :
    Charted file s' := by
  have hl := ha.later
  refine ⟨ht, hl.watermark ▸ hs.watermark, fun id y hy => ?_, fun o id ho => ?_⟩
  · have hlt : id < s.slots.length := ha.length ▸ (List.getElem?_eq_some_iff.mp hy).1
    obtain ⟨y', hy', hxy⟩ := ha.slots id _ (List.getElem?_eq_getElem hlt)
    obtain rfl : y = y' := by simpa [hy] using hy'
    rcases hs.slots id _ (List.getElem?_eq_getElem hlt) with ⟨o, hx⟩ | ⟨node, o,
      bytes, tick, hx, hr⟩
    · rw [hx] at hxy
      cases hxy
      exact Or.inl ⟨o, rfl⟩
    · rw [hx] at hxy
      cases hxy with
      | loaded =>
        refine Or.inr ⟨_, _, _, _, rfl, ?_⟩
        rw [hl.watermark]
        exact hr.later hl.offset
      | evicted => exact Or.inl ⟨_, rfl⟩
  · rw [ha.offsets] at ho
    exact hl.offset id o (hs.offsets o id ho)

omit [Crc32Fast] in
lemma DiskStore.Ages.inMemory {spare : NodeId → Prop} (ha : DiskStore.Ages spare s s')
    (hid : spare id) {node : Node}
    (h : InMemory s id node) : InMemory s' id node := by
  obtain ⟨o, bytes, tick, hx⟩ := h
  obtain ⟨y, hy, hxy⟩ := ha.slots id _ hx
  cases hxy with
  | loaded => exact ⟨_, _, _, hy⟩
  | evicted _ _ _ _ hn => exact absurd hid hn

omit [Crc32Fast] in
lemma slotOffset_append {slots more : List NodeSlot} (h : slotOffset slots id = some offset) :
    slotOffset (slots ++ more) id = some offset := by
  unfold slotOffset
  rw [List.getElem?_append_left (slotOffset_lt h)]
  exact h

omit [Crc32Fast] in
lemma DiskStore.Tidy.push (hs : s.Tidy) (offset : ℕ) (offsets : OrdMap ℕ NodeId) :
    ({ s with slots := s.slots ++ [.onDisk offset], offsets := offsets } : DiskStore V).Tidy := by
  refine ⟨by simpa [NodeSlot.bytes] using hs.bytes,
    by simpa [NodeSlot.count] using hs.resident, fun x hx => ?_,
    fun x hx => ?_⟩
  · rw [List.length_append]
    exact Nat.lt_add_right _ (hs.lru x hx)
  · rcases List.mem_append.mp hx with hx | hx
    · exact hs.backed x hx
    · rw [List.mem_singleton.mp hx]
      trivial

/-- A child offset becomes a slot: the one that has it already, or a new one. -/
lemma allocOnDisk_charted (hs : Charted file s) (offset : ℕ) :
    ∃ id more offsets, DiskStore.allocOnDisk offset s = .ok id
      { s with slots := s.slots ++ more, offsets := offsets } ∧
      Charted file { s with slots := s.slots ++ more, offsets := offsets } ∧
      slotOffset (s.slots ++ more) id = some offset := by
  cases hget : s.offsets.get? offset with
  | some id =>
    have hid := hs.offsets offset id hget
    obtain ⟨x, hx, hxo⟩ := Option.bind_eq_some_iff.mp hid
    refine ⟨id, [], s.offsets, ?_, by simpa using hs, by simpa using hid⟩
    unfold DiskStore.allocOnDisk
    simp only [hget, hx, List.append_nil]
    cases x with
    | loaded => rfl
    | onDisk => rfl
    | freed => cases hxo
  | none =>
    refine ⟨s.slots.length, [.onDisk offset], s.offsets.insert offset s.slots.length, ?_, ?_, ?_⟩
    · unfold DiskStore.allocOnDisk
      simp only [hget]
    · refine ⟨hs.tidy.push offset _, hs.watermark, fun id x hx => ?_, fun o id ho => ?_⟩
      · rcases lt_or_ge id s.slots.length with hlt | hge
        · rw [List.getElem?_append_left hlt] at hx
          rcases hs.slots id x hx with h | ⟨node, o, bytes, tick, hxe, hr⟩
          · exact Or.inl h
          · exact Or.inr ⟨node, o, bytes, tick, hxe, hr.later fun _ _ h => slotOffset_append h⟩
        · rw [List.getElem?_append_right hge] at hx
          exact Or.inl ⟨offset, (List.mem_singleton.mp (List.mem_of_getElem? hx))⟩
      · rw [OrdMap.get?_insert] at ho
        split_ifs at ho with h
        · obtain rfl := Option.some.inj ho
          rw [h]
          simp [slotOffset, NodeSlot.offset]
        · exact slotOffset_append (hs.offsets o id ho)
    · simp [slotOffset, NodeSlot.offset]

lemma allocChildren_charted (hs : Charted file s) (children : List UInt64) :
    ∃ ids more offsets, (children.mapM fun c => DiskStore.allocOnDisk c.toNat) s =
        .ok ids { s with slots := s.slots ++ more, offsets := offsets } ∧
      Charted file { s with slots := s.slots ++ more, offsets := offsets } ∧
      List.Forall₂ (fun id c => slotOffset (s.slots ++ more) id = some (UInt64.toNat c))
        ids children := by
  induction children generalizing s with
  | nil => exact ⟨[], [], s.offsets, by simp; rfl, by simpa using hs, .nil⟩
  | cons c children ih =>
    obtain ⟨id, more, offsets, hrun, hs₁, hid⟩ := allocOnDisk_charted hs c.toNat
    obtain ⟨ids, more', offsets', hrun', hs₂, hids⟩ := ih hs₁
    refine ⟨id :: ids, more ++ more', offsets', ?_, ?_, .cons ?_ ?_⟩
    · rw [List.mapM_cons, run_bind_ok hrun, run_bind_ok hrun', List.append_assoc]
      rfl
    · rw [← List.append_assoc]
      exact hs₂
    · rw [← List.append_assoc]
      exact slotOffset_append hid
    · rw [← List.append_assoc]
      exact hids

lemma Charted.place (hs : Charted file s) (hid : s.slots[id]? = some (.onDisk offset)) {node : Node}
    (hr : Reflects file s.watermark s.slots offset node) (bytes : ℕ) :
    Charted file (s.place id node offset bytes) ∧ Later s (s.place id node offset bytes) := by
  have hlt : id < s.slots.length := (List.getElem?_eq_some_iff.mp hid).1
  have hoff : ∀ i o, slotOffset s.slots i = some o →
      slotOffset (s.slots.set id (.loaded node false (some offset) bytes 0)) i = some o := by
    intro i o ho
    unfold slotOffset at ho ⊢
    by_cases hi : id = i
    · subst hi
      rw [hid] at ho
      simpa [hlt, NodeSlot.offset] using ho
    · rwa [List.getElem?_set_ne hi]
  refine ⟨⟨hs.tidy.place hid node bytes, hs.watermark, fun i x hx => ?_,
    fun o i ho => hoff i o (hs.offsets o i ho)⟩, hoff, rfl⟩
  by_cases hi : id = i
  · subst hi
    obtain rfl : NodeSlot.loaded node false (some offset) bytes 0 = x := by
      simpa [DiskStore.place, hlt] using hx
    exact Or.inr ⟨_, _, _, _, rfl, hr.later hoff⟩
  · rw [DiskStore.place, List.getElem?_set_ne hi] at hx
    rcases hs.slots i x hx with h | ⟨node', o, bytes', tick, hxe, hr'⟩
    · exact Or.inl h
    · exact Or.inr ⟨node', o, bytes', tick, hxe, hr'.later hoff⟩

end Slots

section Load
variable [Crc32Fast] {V : Type} [Vfs V] [ExactReads V] {file : List Byte} {s s' : DiskStore V}
    {id : NodeId} {offset : ℕ}

structure Reading (file : List Byte) (s s' : DiskStore V) : Prop where
  charted : Charted file s'
  file_eq : ExactReads.file s'.vfs = file
  later : Later s s'

/-- What may go wrong with a read: a storage error that leaves the store charted. -/
def Tolerated (file : List Byte) (s : DiskStore V) (f : Fault) (s' : DiskStore V) : Prop :=
  (∃ x, f = .storage x) ∧ Reading file s s'

omit [Vfs V] [ExactReads V] in
lemma internChildren_charted (hs : Charted file s) {diskNode : DiskNode} {len : ℕ}
    (hp : parseRecord file s.watermark offset = .ok (diskNode, len)) :
    Ends (DiskStore.internChildren offset diskNode) s (fun node s' => (∃ more offsets,
        s' = { s with slots := s.slots ++ more, offsets := offsets }) ∧ Charted file s' ∧
        Reflects file s.watermark s'.slots offset node)
      (fun f s' => (∃ x, f = .storage x) ∧ s' = s) := by
  cases diskNode with
  | leaf entries => exact .of_ok rfl ⟨⟨[], s.offsets, by simp⟩, hs, .leaf hp⟩
  | internal pivots children buffer =>
    unfold DiskStore.internChildren
    dsimp only
    by_cases ha : children.length = pivots.length + 1
    · rw [if_neg (not_not.mpr ha)]
      cases hfind :
        children.find? (fun c => decide (c.toNat < dataStart) || decide (offset ≤ c.toNat)) with
      | some child => exact .of_error rfl ⟨⟨_, rfl⟩, rfl⟩
      | none =>
        obtain ⟨ids, more, offsets, hrun, hs₁, hids⟩ := allocChildren_charted hs children
        refine .of_ok (run_bind_ok hrun) ⟨⟨more, offsets, rfl⟩, hs₁,
          .internal hp ha (fun c hc => ?_) hids⟩
        have := List.find?_eq_none.mp hfind c hc
        simp only [Bool.or_eq_true, decide_eq_true_eq, not_or, not_lt, not_le] at this
        exact this.2
    · rw [if_pos ha]
      exact .of_error rfl ⟨⟨_, rfl⟩, rfl⟩

/-- Loading a node of a charted store succeeds or reports a storage error. It leaves the pinned
nodes in memory. -/
theorem ensureLoaded_charted (hs : Charted file s) (hfile : ExactReads.file s.vfs = file)
    (hid : slotOffset s.slots id = some offset) (pins : List NodeId) :
    Ends (DiskStore.ensureLoaded id pins) s (fun _ s' => Reading file s s' ∧
      (∃ node, InMemory s' id node) ∧
      ∀ i ∈ pins, ∀ node, InMemory s i node → InMemory s' i node) (Tolerated file s) := by
  obtain ⟨x, hx, hxo⟩ := Option.bind_eq_some_iff.mp hid
  have hlt : id < s.slots.length := (List.getElem?_eq_some_iff.mp hx).1
  cases x with
  | freed => cases hxo
  | loaded node dirty diskOffset bytes tick =>
    obtain ⟨o, hxe⟩ | ⟨node', o, bytes', tick', hxe, -⟩ := hs.slots id _ hx
    · cases hxe
    cases hxe
    obtain ⟨s₂, hrun, ht₂, ha⟩ := DiskStore.ensureLoaded_hit pins hs.tidy hx
    exact .of_ok hrun ⟨⟨hs.ages ht₂ ha, by rw [ha.vfs, hfile], ha.later⟩,
      ⟨node, ha.inMemory trivial ⟨_, _, _, hx⟩⟩, fun i _ node' h => ha.inMemory trivial h⟩
  | onDisk o =>
    obtain rfl : o = offset := by simpa [NodeSlot.offset] using hxo
    obtain ⟨v₁, hsame, hread⟩ := DiskStore.readRecord_exact s o hs.watermark
    have hfile₁ : ExactReads.file v₁ = file := (ExactReads.file_eq hsame).trans hfile
    let s₁ : DiskStore V := { s with vfs := v₁ }
    have hs₁ : Charted file s₁ := ⟨⟨hs.tidy.bytes, hs.tidy.resident, hs.tidy.lru, hs.tidy.backed⟩,
      hs.watermark, hs.slots,
      hs.offsets⟩
    have hl₁ : Later s s₁ := ⟨fun _ _ h => h, rfl⟩
    rw [hfile] at hread
    cases hp : parseRecord file s.watermark o with
    | error x =>
      rw [hp] at hread
      exact .of_error (DiskStore.ensureLoaded_unread pins hx hread) ⟨⟨x, rfl⟩, hs₁, hfile₁, hl₁⟩
    | ok r =>
      obtain ⟨diskNode, len⟩ := r
      rw [hp] at hread
      have hint := internChildren_charted hs₁ hp
      unfold Ends at hint
      cases hrun : DiskStore.internChildren o diskNode s₁ with
      | error f s₂ =>
        rw [hrun] at hint
        obtain ⟨hf, rfl⟩ := hint
        exact .of_error (DiskStore.ensureLoaded_refused pins hx hread hrun) ⟨hf, hs₁, hfile₁, hl₁⟩
      | ok node s₂ =>
        rw [hrun] at hint
        obtain ⟨⟨more, offsets, rfl⟩, hs₂, hr⟩ := hint
        have hx₂ : (s.slots ++ more)[id]? = some (.onDisk o) := by
          rw [List.getElem?_append_left hlt, hx]
        obtain ⟨hs₃, hl₃⟩ := hs₂.place hx₂ hr (recordHeaderSize + len)
        obtain ⟨s₄, hrun₄, ht₄, ha₄⟩ := DiskStore.ensureLoaded_miss pins hx hread hrun hx₂ hs₂.tidy
        have hl₂ : Later s { s₁ with slots := s₁.slots ++ more, offsets := offsets } :=
          ⟨fun i o' ho => slotOffset_append ho, rfl⟩
        refine .of_ok hrun₄ ⟨⟨hs₃.ages ht₄ ha₄, ?_, (hl₂.trans hl₃).trans ha₄.later⟩, ⟨node, ?_⟩,
          fun i hi node' hmem => ?_⟩
        · rw [ha₄.vfs]
          exact hfile₁
        · exact ha₄.inMemory (Or.inr (Or.inr rfl)) ⟨o, _, 0,
            List.getElem?_set_self (List.getElem?_eq_some_iff.mp hx₂).1⟩
        · refine ha₄.inMemory (Or.inr (Or.inl hi)) ?_
          obtain ⟨o', bytes', tick', hx'⟩ := hmem
          have hne : id ≠ i := by
            rintro rfl
            rw [hx] at hx'
            cases hx'
          refine ⟨o', bytes', tick', ?_⟩
          rw [DiskStore.place, List.getElem?_set_ne hne,
            List.getElem?_append_left (List.getElem?_eq_some_iff.mp hx').1]
          exact hx'

end Load

end Beetree
