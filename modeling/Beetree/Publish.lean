import Beetree.Batch

/-! A commit on a device.

The records go behind the watermark and the superblock into the slot not in use, each followed by a
sync. What was published before stays where it is. -/
namespace Beetree

/-- A device that does what it reports. While it is idle, a write that is synced is in the file. -/
structure Device {V : Type} [Vfs V] [Crc32Fast] (file : V → List Byte) (Same : V → V → Prop)
    (Idle : V → Prop)
    (Err : Fault → Prop) : Prop extends RecordReads file Same Err where
  idle_same : ∀ {v v'}, Same v v' → Idle v → Idle v'
  sync : ∀ v, Idle v → Ends Vfs.sync v (fun _ v' => file v' = file v ∧ Idle v') fun f _ => Err f
  write : ∀ v off data, Idle v → Ends (do Vfs.writeAllAt off data; Vfs.sync) v
    (fun _ v' => file v' = writeAt (file v) off data ∧ Idle v') fun f _ => Err f

lemma device_reliable {V : Type} [Vfs V] [Crc32Fast] [Reliable V] :
    Device (ExactReads.file : V → List Byte) ExactReads.Same Reliable.Idle fun _ => False where
  toRecordReads := recordReads_exact
  idle_same := Reliable.idle_same
  sync v hv := by
    obtain ⟨v', hrun, hfile, hidle⟩ := Reliable.sync v hv
    exact .of_ok hrun ⟨hfile, hidle⟩
  write v off data hv := by
    obtain ⟨v₁, v', hw, hs, hfile, hidle⟩ := Reliable.write v off data hv
    exact .of_ok (by rw [run_bind_ok hw, hs]) ⟨hfile, hidle⟩

def published [Crc32Fast] (file : List Byte) (base : ℕ) (buf : List Byte) (generation : ℕ)
    (sb : Superblock) : List Byte :=
  writeAt (if buf.isEmpty then file else writeAt file base buf)
    (superblockSlot generation) sb.encodeSlot

section Files
variable [Crc32Fast] {file : List Byte} {base generation : ℕ} {buf : List Byte} {sb : Superblock}

omit [Crc32Fast] in
lemma superblockSlot_le (generation : ℕ) :
    superblockSlot generation + superblockSlotSize ≤ dataStart := by
  have : generation % 2 < 2 := Nat.mod_lt _ (by decide)
  unfold superblockSlot dataStart superblockSlotSize
  omega

/-- There is a file up to the watermark, unless there is none at all yet. -/
def Reaches (file : List Byte) (base : ℕ) (buf : List Byte) : Prop := base ≤ file.length ∨
    base = dataStart ∧ buf ≠ []

omit [Crc32Fast] in
lemma appended_length (hlen : Reaches file base buf) :
    base + buf.length ≤ (if buf.isEmpty then file else writeAt file base buf).length := by
  split_ifs with hb
  · obtain rfl := List.isEmpty_iff.mp hb
    rcases hlen with hlen | ⟨-, hne⟩
    · exact hlen
    · exact absurd rfl hne
  · rw [writeAt_length]
    exact le_max_right _ _

lemma published_length (hlen : Reaches file base buf) :
    base + buf.length ≤ (published file base buf generation sb).length := by
  unfold published
  rw [writeAt_length]
  exact (appended_length hlen).trans (le_max_left _ _)

lemma published_getElem? {i : ℕ} (hlo : dataStart ≤ i)
    (hi : i < (if buf.isEmpty then file else writeAt file base buf).length) :
    (published file base buf generation sb)[i]? = (if buf.isEmpty then file
      else writeAt file base buf)[i]? := by
  have hslot := superblockSlot_le generation
  have hsize := sb.encodeSlot_length
  exact writeAt_getElem? _ _ _ hi (Or.inr (by omega))

/-- Whatever lies below the watermark stays. -/
lemma published_sameData (hlen : Reaches file base buf) :
    SameData base file (published file base buf generation sb) := by
  have happ := appended_length hlen
  refine ⟨(Nat.le_add_right _ _).trans (published_length hlen), fun i hlo hhi => ?_⟩
  rw [published_getElem? hlo (by omega)]
  split_ifs with hb
  · rfl
  · refine writeAt_getElem? file base buf ?_ (Or.inl hhi)
    rcases hlen with hlen | ⟨hbase, -⟩ <;> omega

lemma published_records (hbase : dataStart ≤ base) (hlen : Reaches file base buf) :
    readAt (published file base buf generation sb) base buf.length = some buf := by
  have happ := appended_length hlen
  have hread :
    readAt (if buf.isEmpty then file else writeAt file base buf) base buf.length = some buf := by
    split_ifs with hb
    · obtain rfl := List.isEmpty_iff.mp hb
      have happ' : base + ([] : List Byte).length ≤ file.length := happ
      unfold readAt
      rw [if_pos happ']
      rfl
    · exact readAt_writeAt file base buf
  rw [← hread]
  exact readAt_congr happ (published_length hlen) fun i hi hi' =>
    published_getElem? (by omega) (by omega)

lemma published_slot : readAt (published file base buf generation sb)
    (superblockSlot generation) superblockSlotSize =
    some sb.encodeSlot := by
  have := readAt_writeAt (if buf.isEmpty then file else writeAt file base buf)
    (superblockSlot generation) sb.encodeSlot
  rwa [sb.encodeSlot_length] at this

end Files

namespace DiskStore
variable {V : Type} [Vfs V] [Crc32Fast] {file : V → List Byte} {Same : V → V → Prop}
    {Idle : V → Prop} {Err : Fault → Prop}
  {d : DiskStore V}

omit [Vfs V] [Crc32Fast] in
lemma ends_onVfs {α : Type} {m : EStateM Fault V α} {Q : α → V → Prop} {E : Fault → V → Prop}
    (h : Ends m d.vfs Q E) :
    Ends (onVfs m) d (fun a d' => Q a d'.vfs ∧ d' = { d with vfs := d'.vfs }) fun f d' =>
      E f d'.vfs ∧ d' = { d with vfs := d'.vfs } := by
  unfold Ends at h
  cases hm : m d.vfs with
  | ok a v =>
    rw [hm] at h
    exact .of_ok (onVfs_ok hm) ⟨h, rfl⟩
  | error f v =>
    rw [hm] at h
    exact .of_error (onVfs_error hm) ⟨h, rfl⟩

/-- What a commit leaves of a store that it could not publish: the device failed, or a number would
not fit. -/
def Unpublished (Err : Fault → Prop) (d : DiskStore V) (watermark : ℕ) (f : Fault)
    (d' : DiskStore V) : Prop :=
  (Err f ∨ f = .overflow ∧ ¬ (watermark < 2 ^ 64 ∧ d.nextGeneration + 1 < 2 ^ 64)) ∧
    d' = { d with vfs := d'.vfs }

omit [Vfs V] [Crc32Fast] in
lemma onVfs_bind {α β : Type} (m : EStateM Fault V α) (f : α → EStateM Fault V β) :
    onVfs (m >>= f) = onVfs m >>= fun a => onVfs (f a) := by
  funext d
  cases hm : m d.vfs with
  | ok a v =>
    rw [run_bind_ok (onVfs_ok hm)]
    unfold onVfs
    rw [run_bind_ok hm]
  | error f v =>
    rw [run_bind_error (onVfs_error hm)]
    unfold onVfs
    rw [run_bind_error hm]

/-- The second half of publishing: the superblock, once the records are durable. -/
def publishRoot (params : Params) (nextSeq : UInt64) (root : NodeId) (batch : Batch) (base : ℕ) :
    Act V Unit := do
  let watermark ← checkedAdd base batch.buf.length
  let s ← get
  match resolveOffset s batch.assigned root with
  | none => throw .panic
  | some rootOffset =>
    let sb := newSuperblock params nextSeq s.nextGeneration rootOffset watermark
    onVfs (do Vfs.writeAllAt (superblockSlot s.nextGeneration) sb.encodeSlot; Vfs.sync)
    let nextGeneration ← checkedAdd s.nextGeneration 1
    modify fun s => { s with watermark := watermark, nextGeneration := nextGeneration }

lemma publish_eq (params : Params) (nextSeq : UInt64) (root : NodeId) (batch : Batch)
    (d : DiskStore V) :
    publish params nextSeq root batch d =
      (onVfs (if batch.buf.isEmpty then Vfs.sync
        else do Vfs.writeAllAt d.watermark batch.buf; Vfs.sync) >>= fun _ =>
        publishRoot params nextSeq root batch d.watermark) d := by
  unfold publish publishRoot
  rw [run_get_bind]
  split_ifs with hb
  · refine congrFun (congrArg (onVfs Vfs.sync >>= ·) (funext fun _ => ?_)) d
    refine congrArg (_ >>= ·) (funext fun w => congrArg (_ >>= ·) (funext fun s => ?_))
    cases resolveOffset s batch.assigned root with
    | none => rfl
    | some rootOffset => simp only [onVfs_bind, bind_assoc]
  · rw [onVfs_bind, bind_assoc]
    refine congrFun (congrArg (_ >>= ·) (funext fun _ => congrArg (_ >>= ·) (funext fun _ => ?_))) d
    refine congrArg (_ >>= ·) (funext fun w => congrArg (_ >>= ·) (funext fun s => ?_))
    cases resolveOffset s batch.assigned root with
    | none => rfl
    | some rootOffset => simp only [onVfs_bind, bind_assoc]

omit [Vfs V] [Crc32Fast] in
lemma ends_checkedAdd {a b : ℕ} {Q : ℕ → DiskStore V → Prop} {E : Fault → DiskStore V → Prop}
    (hq : a + b < 2 ^ 64 → Q (a + b) d) (he : ¬ a + b < 2 ^ 64 → E .overflow d) :
    Ends (checkedAdd a b) d Q E := by
  unfold checkedAdd
  split_ifs with hlt
  · exact .of_ok rfl (hq hlt)
  · exact .of_error rfl (he hlt)

lemma publishRoot_run (hV : Device file Same Idle Err) (hidle : Idle d.vfs) (params : Params)
    (nextSeq : UInt64) (root : NodeId)
    {batch : Batch} {rootOffset base : ℕ}
    (hroot : d.resolveOffset batch.assigned root = some rootOffset) :
    Ends (publishRoot params nextSeq root batch base) d
      (fun _ d' => base + batch.buf.length < 2 ^ 64 ∧ d.nextGeneration + 1 < 2 ^ 64 ∧ Idle d'.vfs ∧
        d' = { d with
          vfs := d'.vfs
          watermark := base + batch.buf.length
          nextGeneration := d.nextGeneration + 1 } ∧
        file d'.vfs = writeAt (file d.vfs) (superblockSlot d.nextGeneration)
          (newSuperblock params nextSeq d.nextGeneration rootOffset
            (base + batch.buf.length)).encodeSlot)
      (Unpublished Err d (base + batch.buf.length)) := by
  unfold publishRoot
  refine Ends.bind (Q := fun w d' => (base + batch.buf.length < 2 ^ 64 ∧
    w = base + batch.buf.length) ∧ d' = d)
    (ends_checkedAdd (fun hlt => ⟨⟨hlt, rfl⟩, rfl⟩)
      fun hlt => ⟨Or.inr ⟨rfl, fun h => hlt h.1⟩, rfl⟩) ?_
  rintro w d₀ ⟨⟨hlt, rfl⟩, hd₀⟩
  rw [hd₀]
  refine Ends.bind (Q := fun s d' => s = d ∧ d' = d) (.of_ok rfl ⟨rfl, rfl⟩) ?_
  rintro s d₁ ⟨hs, hd₁⟩
  rw [hs, hd₁, hroot]
  dsimp only
  refine Ends.bind ((ends_onVfs (hV.write _ _ _ hidle)).mono (fun _ _ h => h)
    fun f d' h => ⟨Or.inl h.1, h.2⟩) ?_
  rintro - d₂ ⟨⟨hfile₂, hidle₂⟩, hd₂⟩
  refine Ends.bind (Q := fun g d' => (d.nextGeneration + 1 < 2 ^ 64 ∧ g = d.nextGeneration + 1) ∧
    d' = d₂)
    (ends_checkedAdd (fun hlt => ⟨⟨hlt, rfl⟩, rfl⟩)
      fun hlt => ⟨Or.inr ⟨rfl, fun h => hlt h.2⟩, hd₂⟩) ?_
  rintro g d₃ ⟨⟨hlt', rfl⟩, hd₃⟩
  rw [hd₃]
  refine .of_ok rfl ⟨hlt, hlt', hidle₂, ?_, hfile₂⟩
  rw [hd₂]

/-- Publishing what has been serialized. -/
theorem publish_run (hV : Device file Same Idle Err) (hidle : Idle d.vfs) (params : Params)
    (nextSeq : UInt64) (root : NodeId)
    {batch : Batch} {rootOffset : ℕ}
    (hroot : d.resolveOffset batch.assigned root = some rootOffset) :
    Ends (publish params nextSeq root batch) d
      (fun _ d' => d.watermark + batch.buf.length < 2 ^ 64 ∧
        d.nextGeneration + 1 < 2 ^ 64 ∧ Idle d'.vfs ∧
        d' = { d with
          vfs := d'.vfs, watermark := d.watermark + batch.buf.length, nextGeneration :=
          d.nextGeneration + 1 } ∧
        file d'.vfs = published (file d.vfs) d.watermark batch.buf d.nextGeneration
          (newSuperblock params nextSeq d.nextGeneration rootOffset
            (d.watermark + batch.buf.length)))
      (Unpublished Err d (d.watermark + batch.buf.length)) := by
  have hrecords :
    Ends (if batch.buf.isEmpty then Vfs.sync else do Vfs.writeAllAt d.watermark batch.buf; Vfs.sync)
      d.vfs
      (fun _ v => file v =
        (if batch.buf.isEmpty then file d.vfs else writeAt (file d.vfs) d.watermark batch.buf) ∧
          Idle v) fun f _ => Err f := by
    split_ifs
    · exact hV.sync d.vfs hidle
    · exact hV.write d.vfs d.watermark batch.buf hidle
  unfold Ends
  rw [publish_eq]
  refine Ends.bind ((ends_onVfs hrecords).mono (fun _ _ h => h) fun f d' h => ⟨Or.inl h.1, h.2⟩) ?_
  rintro - d₁ ⟨⟨hfile₁, hidle₁⟩, hd₁⟩
  have hroot₁ : d₁.resolveOffset batch.assigned root = some rootOffset := by
    rw [hd₁]
    exact hroot
  refine (publishRoot_run hV hidle₁ params nextSeq root hroot₁).mono (fun _ d' h => ?_)
    fun f d' h => ?_
  · obtain ⟨hlt, hlt', hidle', hd', hfile'⟩ := h
    have hg : d₁.nextGeneration = d.nextGeneration := by rw [hd₁]
    refine ⟨hlt, hg ▸ hlt', hidle', ?_, ?_⟩
    · rw [hd', hd₁]
    · rw [hfile', hfile₁, hg]
      rfl
  · have hg : d₁.nextGeneration = d.nextGeneration := by rw [hd₁]
    refine ⟨?_, ?_⟩
    · rw [← hg]
      exact h.1
    · rw [h.2, hd₁]

section Adopt
variable {s : Ideal} {id : NodeId}

omit [Vfs V] in
lemma Tracks.moved (h : Tracks file s d) {v : V} {watermark generation : ℕ}
    (hs : SameData d.watermark (file d.vfs) (file v))
    (hw : d.watermark ≤ watermark) (h64 : watermark < 2 ^ 64) :
    Tracks file s { d with vfs := v, watermark := watermark, nextGeneration := generation } where
  next := h.next
  slots := h.slots
  bound := h.bound
  records i x r hx hr := (h.records i x r hx hr).sameData hs hw
  offsets := h.offsets
  tidy := ⟨h.tidy.bytes, h.tidy.resident, h.tidy.lru, h.tidy.backed⟩
  free := h.free
  watermark := h64

omit [Vfs V] in
lemma Tracks.adopt (h : Tracks file s d) {lens : OrdMap NodeId ℕ} {n : Node}
    {r : Option Record} {r' : Record}
    (hx : s.slots id = some (.loaded n true r)) (hlen : (lens.get? id).isSome)
    (hr : r'.2.OnFile (file d.vfs) d.watermark)
    (hfresh : d.offsets.get? r'.label = none) :
    ∃ d', adoptRecord lens (id, r'.label) d = .ok () d' ∧
    Tracks file (s.put id (some (.loaded n false (some r')))) d' ∧
      Steady Eq d d' ∧
      ∀ o, o ≠ r'.label → d.offsets.get? o = none → d'.offsets.get? o = none := by
  obtain ⟨bytes, tick, hd⟩ := h.resident hx (Or.inl rfl)
  obtain ⟨len, he⟩ := Option.isSome_iff_exists.mp hlen
  have hbytes : bytes ≤ d.cache.bytes := h.tidy.bytes ▸ le_sum_map NodeSlot.bytes hd
  let d' : DiskStore V := { d with
    slots := d.slots.set id (.loaded n false (some r'.label) len tick)
    cache := { d.cache with bytes := d.cache.bytes - bytes + len }
    offsets := ((r.map Record.label).elim d.offsets d.offsets.erase).insert r'.label id }
  have hrun : adoptRecord lens (id, r'.label) d = .ok () d' := by
    unfold adoptRecord
    rw [hd, he]
    exact if_pos hbytes
  have hget : ∀ o, d'.offsets.get? o = if o = r'.label then some id
      else if r.map Record.label = some o then none else d.offsets.get? o := by
    intro o
    change (OrdMap.insert _ _ _).get? o = _
    rw [OrdMap.get?_insert]
    cases r.map Record.label with
    | none => simp
    | some l =>
      rw [Option.elim_some, OrdMap.get?_erase]
      by_cases hol : o = l
      · simp [hol]
      · simp [hol, Ne.symm hol]
  have hcount : d'.cache.bytes + bytes = d.cache.bytes + len := by
    change d.cache.bytes - bytes + len + bytes = _
    omega
  refine ⟨d', hrun, ?_, ⟨rfl, rfl, rfl, rfl, rfl⟩, fun o ho hnone => by rw [hget, if_neg ho,
    hnone, ite_self]⟩
  exact {
    next := by
      change (d.slots.set id _).length = s.next
      rw [List.length_set, h.next]
    slots := fun i hi => by
      have hlt : id < d.slots.length := h.next ▸ h.bound id _ hx
      change ∃ x, (d.slots.set id _)[i]? = some x ∧ _
      by_cases hid : id = i
      · subst hid
        refine ⟨_, List.getElem?_set_self hlt, ?_⟩
        simp only [Ideal.put, Function.update_self]
        exact .loaded n false (some r') len tick
      · obtain ⟨z, hz, hmz⟩ := h.slots i hi
        refine ⟨z, by rw [List.getElem?_set_ne hid, hz], ?_⟩
        simpa only [Ideal.put, Function.update_of_ne (Ne.symm hid)] using hmz
    bound := fun i z hz => by
      by_cases hid : i = id
      · exact hid ▸ h.bound id _ hx
      · exact h.bound i z (by simpa [Ideal.put, Function.update_of_ne hid] using hz)
    records := fun i z q hz hzq => by
      by_cases hid : i = id
      · subst hid
        obtain rfl : Slot.loaded n false (some r') = z := by simpa [Ideal.put] using hz
        cases hzq
        exact hr
      · exact h.records i z q (by simpa [Ideal.put, Function.update_of_ne hid] using hz) hzq
    offsets := fun o i => by
      rw [hget o]
      by_cases hid : i = id
      · subst hid
        simp only [Ideal.put, Function.update_self, Option.some.injEq, exists_eq_left']
        change _ ↔ some r'.label = some o
        rw [Option.some.injEq]
        split_ifs with ho hl
        · simp [ho]
        · simp [Ne.symm ho]
        · refine ⟨fun hi => absurd ?_ hl, fun h0 => absurd h0.symm ho⟩
          obtain ⟨z, hz, hzl⟩ := (h.offsets o i).mp hi
          rw [hx] at hz
          cases hz
          exact hzl
      · simp only [Ideal.put, Function.update_of_ne hid, ← h.offsets]
        split_ifs with ho hl
        · subst ho
          simp [hfresh, Ne.symm hid]
        · rw [(h.offsets o id).mpr ⟨_, hx, hl⟩]
          simp [Ne.symm hid]
        · exact Iff.rfl
    tidy := h.tidy.replace hd (.loaded n false (some r'.label) len tick)
      (by simp [NodeSlot.Backed]) rfl hcount rfl rfl
    free := h.free
    watermark := h.watermark }

omit [Vfs V] in
lemma Tracks.adopts {lens : OrdMap NodeId ℕ} {slots : NodeId → Option Slot} {l : List (NodeId × ℕ)}
    (h : Tracks file s d)
    (hl : ∀ x ∈ l, ∃ n r r', s.slots x.1 = some (.loaded n true r) ∧
      slots x.1 = some (.loaded n false (some r')) ∧
      r'.label = x.2 ∧ r'.2.OnFile (file d.vfs) d.watermark ∧ (lens.get? x.1).isSome)
    (hids : (l.map Prod.fst).Nodup) (hoffs : (l.map Prod.snd).Nodup)
    (hfresh : ∀ x ∈ l, d.offsets.get? x.2 = none) :
    ∃ d', l.forM (adoptRecord lens) d = .ok () d' ∧ Steady Eq d d' ∧
      Tracks file { s with slots := fun i => if i ∈ l.map Prod.fst then slots i else s.slots i }
        d' := by
  induction l generalizing s d with
  | nil => exact ⟨d, rfl, ⟨rfl, rfl, rfl, rfl, rfl⟩, by simpa using h⟩
  | cons x l ih =>
    obtain ⟨n, r, r', hx, hslot, hlab, hon, hlen⟩ := hl x (by simp)
    obtain ⟨hidx, hids'⟩ := List.nodup_cons.mp hids
    obtain ⟨hoffx, hoffs'⟩ := List.nodup_cons.mp hoffs
    obtain ⟨d₁, hrun₁, h₁, hst₁, hnone₁⟩ := h.adopt hx hlen hon (hlab ▸ hfresh x (by simp))
    have hkeep : ∀ y ∈ l, (s.put x.1 (some (.loaded n false (some r')))).slots y.1 = s.slots
      y.1 := by
      intro y hy
      have hne : y.1 ≠ x.1 := fun h0 => hidx (h0 ▸ List.mem_map_of_mem hy)
      simp [Ideal.put, Function.update_of_ne hne]
    obtain ⟨d', hrun, hst, h'⟩ := ih h₁ (fun y hy => by
        obtain ⟨m, q, q', hy₁, hy₂, hy₃, hy₄, hy₅⟩ := hl y (by simp [hy])
        exact ⟨m, q, q', by rw [hkeep y hy, hy₁], hy₂, hy₃,
          by rwa [← hst₁.vfs, hst₁.watermark], hy₅⟩)
      hids' hoffs' (fun y hy => by
        refine hnone₁ y.2 (fun h0 => ?_) (hfresh y (by simp [hy]))
        exact hoffx (hlab ▸ h0 ▸ List.mem_map_of_mem hy))
    refine ⟨d', ?_, hst₁.trans (fun h h' => h.trans h') hst, ?_⟩
    · have hone : adoptRecord lens x d = .ok () d₁ := by
        rw [← hrun₁, hlab]
      change (adoptRecord lens x >>= fun _ => l.forM (adoptRecord lens)) d = _
      rw [run_bind_ok hone, hrun]
    · refine cast ?_ h'
      congr 2
      funext i
      by_cases hi : i ∈ l.map Prod.fst
      · simp [hi]
      · by_cases hix : i = x.1
        · subst hix
          simp [hi, Ideal.put, hslot]
        · simp [hi, hix, Ideal.put]

end Adopt
end DiskStore

section Commit
variable [Crc32Fast] {h : ℕ} {s : Ideal} {t : Live h} {base : ℕ} {batch : DiskStore.Batch}

def DiskStore.Batch.offset (batch : DiskStore.Batch) (id : NodeId) :
    ℕ := (batch.assigned.get? id).getD 0

/-- A batch that holds what a commit of a tree writes. -/
structure Batched (s : Ideal) (t : Live h) (base : ℕ) (batch : DiskStore.Batch) : Prop where
  run : (Live.queue t).foldlM (s.serialize base) DiskStore.Batch.new = .ok batch
  laid : s.Laid base batch
  domain : ∀ i, (batch.assigned.get? i).isSome ↔ i ∈ Live.queue t

lemma batched_or_refused {P : (h : ℕ) → VTree h → Prop} (hF : Stored s (Live.foot t))
    (hS : Live.Sound P t) (base : ℕ) :
    (∃ batch, Batched s t base batch) ∨
      ∃ f, (Live.queue t).foldlM (s.serialize base) DiskStore.Batch.new = .error f ∧ Refusal f := by
  have hready : s.Ready [] (Live.queue t) := Live.ready hF hS (by simp)
  rcases (s.laid_new base).serializes hready (by simp [DiskStore.Batch.new]) with ⟨batch, hrun, hl,
    hdom⟩ | ⟨f, hrun, hf⟩
  · exact Or.inl ⟨batch, hrun, hl, by simpa using hdom⟩
  · exact Or.inr ⟨f, hrun, hf⟩

lemma Batched.get? (hb : Batched s t base batch) {i : NodeId} (hi : i ∈ Live.queue t) :
    batch.assigned.get? i = some (batch.offset i) := by
  obtain ⟨o, ho⟩ := Option.isSome_iff_exists.mp ((hb.domain i).mpr hi)
  rw [DiskStore.Batch.offset, ho]
  rfl

lemma Batched.reaches {file : List Byte} (hb : Batched s t base batch)
    (hlen : base ≤ file.length ∨ base = dataStart ∧ t.dirty = true) :
    Reaches file base batch.buf := by
  refine hlen.imp_right fun hd => ⟨hd.1, fun h0 => ?_⟩
  have := hb.laid.lt (hb.get? (Live.mem_queue hd.2))
  rw [h0, List.length_nil] at this
  omega

omit [Crc32Fast] in
lemma Ideal.install_commit {off : NodeId → ℕ} (hF : Stored s (Live.foot t)) {i : NodeId} {x : Slot}
    (hx : (s.install (Live.foot (Live.commit off t))).slots i = some x) :
    i ∉ Live.queue t ∧ s.slots i = some x ∨
      ∃ n r, i ∈ Live.queue t ∧ (∃ r', s.slots i = some (.loaded n true r')) ∧
      x = .loaded n false (some r) ∧
        r.2.ann = some (off i) := by
  have hids : (Live.foot (Live.commit off t)).ids = (Live.foot t).ids := Live.ids_foot_commit t
  have hn : (Live.foot (Live.commit off t)).ids.Nodup := hids ▸ hF.nodup
  by_cases hi : i ∈ (Live.foot (Live.commit off t)).ids
  · obtain ⟨⟨j, y⟩, hy, rfl⟩ := List.mem_map.mp hi
    rw [Ideal.install_of_mem hn hy] at hx
    obtain rfl : y = x := Option.some.inj hx
    rcases Live.foot_commit hF.nodup hy with ⟨hnot, hold⟩ | ⟨n, r, hslot, hann, hw⟩
    · exact Or.inl ⟨fun hq => hnot (List.mem_reverse.mp hq), hF.slots _ hold⟩
    · obtain ⟨r', hr'⟩ := Live.written_foot hw
      exact Or.inr ⟨n, r, List.mem_reverse.mpr (List.mem_map_of_mem hw),
        ⟨r', hF.slots _ hr'⟩, hslot, hann⟩
  · rw [Ideal.install_of_not_mem hi] at hx
    exact Or.inl ⟨fun hq => hi (hids ▸ Live.queue_sub t i hq), hx⟩

omit [Crc32Fast] in
lemma Ideal.install_written {off : NodeId → ℕ} (hF : Stored s (Live.foot t)) {i : NodeId}
    (hi : i ∈ Live.queue t) :
    ∃ n r r', s.slots i = some (.loaded n true r') ∧
      (s.install (Live.foot (Live.commit off t))).slots i = some (.loaded n false (some r)) ∧
      r.label = off i := by
  have hids : (Live.foot (Live.commit off t)).ids = (Live.foot t).ids := Live.ids_foot_commit t
  have hn : (Live.foot (Live.commit off t)).ids.Nodup := hids ▸ hF.nodup
  obtain ⟨⟨j, y⟩, hy, rfl⟩ := List.mem_map.mp (show i ∈ (Live.foot (Live.commit off t)).ids
    from hids ▸ Live.queue_sub t i hi)
  have hx := Ideal.install_of_mem (s := s) hn hy
  rcases Ideal.install_commit hF hx with ⟨hnot, -⟩ | ⟨n, r, -, ⟨r', hr'⟩, hslot, hann⟩
  · exact absurd hi hnot
  · refine ⟨n, r, r', hr', by rw [hx]; exact congrArg some hslot, ?_⟩
    rw [Record.label, Tree.label, hann]
    rfl

lemma Batched.apart {file : List Byte} (hb : Batched s t base batch)
    (hF : Stored s (Live.foot t)) (hs : s.Apart)
    (hrec : ∀ id x r, s.slots id = some x → x.record = some r → r.2.OnFile file base) :
    (s.install (Live.foot (Live.commit batch.offset t))).Apart := by
  have hold : ∀ i x, s.slots i = some x → ∀ o ∈ x.labels, o < base := by
    intro i x hx o ho
    cases x with
    | loaded n dirty r =>
      cases r with
      | none => simp [Slot.labels] at ho
      | some r =>
        obtain rfl : o = r.label := by simpa [Slot.labels] using ho
        have hon := hrec i _ r hx rfl
        exact (hon.offs_lt _ (Tree.label_mem_offs hon.isSome)).2
    | stub r => exact ((hrec i _ r hx rfl).offs_lt o ho).2
  have hnew : ∀ i ∈ Live.queue t, base ≤ batch.offset i := fun i hi => (hb.laid.lt (hb.get? hi)).1
  have hlab : ∀ (n : Node) (r : Record) o i, r.2.ann = some (batch.offset i) →
      o ∈ (Slot.loaded n false (some r)).labels → o = batch.offset i := by
    intro n r o i hann ho
    have : o = r.label := by simpa [Slot.labels] using ho
    rw [this, Record.label, Tree.label, hann]
    rfl
  refine ⟨fun i x hx => ?_, fun i j x y o hx hy hox hoy => ?_⟩
  · rcases Ideal.install_commit hF hx with ⟨-, hx⟩ | ⟨n, r, -, -, rfl, -⟩
    · exact hs.nodup i x hx
    · exact List.nodup_singleton _
  · rcases Ideal.install_commit hF hx with ⟨-, hx⟩ | ⟨n, r, hi, -, rfl, hann⟩ <;>
      rcases Ideal.install_commit hF hy with ⟨-, hy⟩ | ⟨m, q, hj, -, rfl, hann'⟩
    · exact hs.owner i j x y o hx hy hox hoy
    · have := hlab m q o j hann' hoy
      exact absurd (hold i x hx o hox) (not_lt.mpr (this ▸ hnew j hj))
    · have := hlab n r o i hann hox
      exact absurd (hold j y hy o hoy) (not_lt.mpr (this ▸ hnew i hi))
    · have h₁ := hlab n r o i hann hox
      have h₂ := hlab m q o j hann' hoy
      exact hb.laid.apart i j o (h₁ ▸ hb.get? hi) (h₂ ▸ hb.get? hj)

lemma Live.Sound.onFile {file : List Byte} {w : ℕ} {P : (h : ℕ) → VTree h → Prop}
    (hS : Live.Sound P t)
    (hr : ∀ x ∈ Live.foot t, ∀ r, x.2.record = some r → r.2.OnFile file w) :
    Live.Sound (fun _ d => d.OnFile file w) t := by
  induction h with
  | zero =>
    rcases t with ⟨id, dirty, dk, x⟩ | ⟨id, d⟩
    · refine ⟨fun d hd => ?_, hS.2.1, trivial⟩
      obtain rfl : dk = some d := hd
      exact hr _ (Live.slot_mem_foot _) ⟨0, d⟩ rfl
    · exact hr _ (Live.slot_mem_foot _) ⟨0, d⟩ rfl
  | succ h ih =>
    rcases t with ⟨id, dirty, dk, x⟩ | ⟨id, d⟩
    · refine ⟨fun d hd => ?_, hS.2.1, ?_⟩
      · obtain rfl : dk = some d := hd
        exact hr _ (Live.slot_mem_foot _) ⟨h + 1, d⟩ rfl
      · induction x using Body.succCases with
        | hn ps cs b =>
          refine Body.sound_node.mpr fun c hc => ih (Body.sound_node.mp hS.2.2 c hc)
            fun x hx => hr x ?_
          rw [Live.foot_known, Body.foot_node]
          exact List.mem_cons_of_mem _ (List.mem_flatMap.mpr ⟨c, hc, hx⟩)
    · exact hr _ (Live.slot_mem_foot _) ⟨h + 1, d⟩ rfl

omit [Crc32Fast] in
lemma Live.Sound.of_foot {P : (h : ℕ) → VTree h → Prop} (hS : Live.Sound P t) {x : NodeId × Slot}
    (hx : x ∈ Live.foot t)
    {r : Record} (hr : x.2.record = some r) : P r.1 r.2 := by
  have htop : ∀ {h : ℕ} {t : Live h}, Live.Sound P t →
    (Live.slot t).record = some r → P r.1 r.2 := by
    intro h t hS hr
    rcases t with ⟨id, dirty, dk, x⟩ | ⟨id, d⟩
    · obtain ⟨d, rfl, rfl⟩ := Option.map_eq_some_iff.mp (show dk.map (Sigma.mk h) = some r from hr)
      exact hS.1 d rfl
    · obtain rfl : ⟨h, d⟩ = r := Option.some.inj hr
      exact hS
  induction h with
  | zero =>
    rcases t with ⟨id, dirty, dk, y⟩ | ⟨id, d⟩
    · induction y using Body.zeroCases with
      | hl es =>
        obtain rfl : x = _ := List.mem_singleton.mp hx
        exact htop hS hr
    · obtain rfl : x = _ := List.mem_singleton.mp hx
      exact htop hS hr
  | succ h ih =>
    rcases t with ⟨id, dirty, dk, y⟩ | ⟨id, d⟩
    · induction y using Body.succCases with
      | hn ps cs b =>
        rw [Live.foot_known, Body.foot_node, List.mem_cons, List.mem_flatMap] at hx
        rcases hx with rfl | ⟨c, hc, hx⟩
        · exact htop hS hr
        · exact ih (Body.sound_node.mp hS.2.2 c hc) hx
    · obtain rfl : x = _ := List.mem_singleton.mp hx
      exact htop hS hr

namespace DiskStore
variable {V : Type} {file : V → List Byte} {d : DiskStore V} {sb : Superblock} {generation : ℕ}

lemma Tracks.sound (h : Tracks file s d) (hF : Stored s (Live.foot t))
    {P : (h : ℕ) → VTree h → Prop} (hS : Live.Sound P t) :
    Live.Sound (fun _ r => r.OnFile (file d.vfs) d.watermark) t :=
  hS.onFile fun x hx r hr => h.records x.1 x.2 r (hF.slots x hx) hr

lemma Tracks.onFile_publish (h : Tracks file s d) (hF : Stored s (Live.foot t))
    {P : (h : ℕ) → VTree h → Prop}
    (hS : Live.Sound P t) (hfork : (Live.plain t).Forks) (hb : Batched s t d.watermark batch)
    (hbase : dataStart ≤ d.watermark) (hreach : Reaches (file d.vfs) d.watermark batch.buf)
    (generation : ℕ) (sb : Superblock) :
    (Live.publish batch.offset t).OnFile
      (published (file d.vfs) d.watermark batch.buf generation sb)
        (d.watermark + batch.buf.length) ∧
      s.offset batch.assigned t.id = some (Live.publish batch.offset t).label := by
  have hrec : readAt (published (file d.vfs) d.watermark batch.buf generation sb) d.watermark
    batch.buf.length =
      some batch.buf := published_records hbase hreach
  obtain ⟨h₁, h₂, -⟩ := Live.onFile_publish hF (h.sound hF hS) hfork hb.laid
    (fun i hi => hb.get? hi) hbase hrec
    (published_sameData hreach) le_rfl
  exact ⟨h₁, h₂⟩

/-- Once everything is durable the written nodes are clean, and what is clean may be evicted. -/
theorem Models.adopted (h : Models file s d) (hF : Stored s (Live.foot t))
    {P : (h : ℕ) → VTree h → Prop}
    (hS : Live.Sound P t) (hfork : (Live.plain t).Forks) (hb : Batched s t d.watermark batch)
    (hbase : dataStart ≤ d.watermark) (hreach : Reaches (file d.vfs) d.watermark batch.buf)
    (h64 : d.watermark + batch.buf.length < 2 ^ 64) {v : V}
    (hv : file v = published (file d.vfs) d.watermark batch.buf generation sb)
    {d₁ : DiskStore V}
    (hd₁ : d₁ =
      { d with
        vfs := v
        watermark := d.watermark + batch.buf.length
        nextGeneration := d.nextGeneration + 1 }) :
    ∃ d₂ d', batch.assigned.toList.forM (adoptRecord batch.recordLens) d₁ = .ok () d₂ ∧
      enforceBudget [] none d₂ = .ok () d' ∧
      Models file (s.install (Live.foot (Live.commit batch.offset t))) d' ∧ Steady Eq d₁ d' := by
  have hsame : SameData d.watermark (file d.vfs) (file v) := by
    rw [hv]
    exact published_sameData hreach
  have h₁ : Tracks file s d₁ := by
    rw [hd₁]
    exact h.toTracks.moved hsame (Nat.le_add_right _ _) h64
  have hS' : Live.Sound (fun _ r => r.OnFile (file d₁.vfs) d₁.watermark)
    (Live.commit batch.offset t) := by
    refine Live.sound_commit (hereditary_onFile _ _) (h₁.sound hF hS) fun _ => ?_
    rw [hd₁]
    dsimp only
    rw [hv]
    exact (h.toTracks.onFile_publish hF hS hfork hb hbase hreach generation sb).1
  have hids : (Live.foot (Live.commit batch.offset t)).ids = (Live.foot t).ids :=
    Live.ids_foot_commit t
  have hn : (Live.foot (Live.commit batch.offset t)).ids.Nodup := hids ▸ hF.nodup
  have hmem : ∀ x ∈ batch.assigned.toList, x.1 ∈ Live.queue t ∧ x.2 = batch.offset x.1 := by
    intro x hx
    have hget := OrdMap.mem_toList.mp (show (x.1, x.2) ∈ batch.assigned.toList from hx)
    have hq := (hb.domain x.1).mp (by rw [hget]; rfl)
    refine ⟨hq, ?_⟩
    rw [hb.get? hq] at hget
    exact (Option.some.inj hget).symm
  have hnew : ∀ x ∈ batch.assigned.toList, ∃ n r r', s.slots x.1 = some (.loaded n true r) ∧
      (s.install (Live.foot (Live.commit batch.offset t))).slots x.1 = some
        (.loaded n false (some r')) ∧ r'.label = x.2 ∧
      r'.2.OnFile (file d₁.vfs) d₁.watermark ∧ (batch.recordLens.get? x.1).isSome := by
    intro x hx
    obtain ⟨hq, hxo⟩ := hmem x hx
    obtain ⟨n, r, r', hx₁, hx₂, hlab⟩ := Ideal.install_written hF hq
    obtain ⟨y, hy, hyx⟩ :=
      List.mem_map.mp (show x.1 ∈ (Live.foot (Live.commit batch.offset t)).ids from
      hids ▸ Live.queue_sub t x.1 hq)
    have hslot := Ideal.install_of_mem (s := s) hn hy
    rw [hyx, hx₂] at hslot
    obtain ⟨-, -, payload, -, -, -, hlen, -⟩ := hb.laid.located x.1 _ (hb.get? hq)
    refine ⟨n, r', r, hx₁, hx₂, by rw [hlab, hxo], hS'.of_foot hy ?_, by rw [hlen]; rfl⟩
    rw [← Option.some.inj hslot]
    rfl
  have hsorted : (batch.assigned.toList.map Prod.fst).Nodup := by
    unfold List.Nodup
    rw [List.pairwise_map]
    exact batch.assigned.sorted.imp fun hlt => hlt.ne
  have hoffs : (batch.assigned.toList.map Prod.snd).Nodup := by
    refine List.Nodup.map_on (fun x hx y hy hxy => ?_) hsorted.of_map
    obtain ⟨hqx, hox⟩ := hmem x hx
    obtain ⟨hqy, hoy⟩ := hmem y hy
    have := hb.laid.apart x.1 y.1 x.2 (hox ▸ hb.get? hqx) (hxy ▸ hoy ▸ hb.get? hqy)
    exact Prod.ext this hxy
  have hfresh : ∀ x ∈ batch.assigned.toList, d₁.offsets.get? x.2 = none := by
    intro x hx
    obtain ⟨hq, hxo⟩ := hmem x hx
    by_contra hne
    obtain ⟨i, hi⟩ := Option.ne_none_iff_exists'.mp hne
    rw [hd₁] at hi
    obtain ⟨z, hz, hzl⟩ := (h.offsets x.2 i).mp hi
    obtain ⟨r, hzr, hrl⟩ := Option.map_eq_some_iff.mp hzl
    have hon := h.records i z r hz hzr
    have hlt := (hon.offs_lt _ (Tree.label_mem_offs hon.isSome)).2
    have hge := (hb.laid.lt (hb.get? hq)).1
    have : Tree.label r.2 = x.2 := hrl
    rw [hxo] at this
    omega
  obtain ⟨d₂, hrun₂, hst₂, h₂⟩ := h₁.adopts hnew hsorted hoffs hfresh
  obtain ⟨d₃, hrun₃, ht₃, ha₃⟩ := enforceBudget_run [] none h₂.tidy
  refine ⟨d₂, d₃, hrun₂, hrun₃, ⟨?_, hb.apart hF h.apart h.records⟩,
    hst₂.trans (fun h h' => h.trans h') (ha₃.steady fun _ => rfl)⟩
  have hslots : (fun i => if i ∈ batch.assigned.toList.map Prod.fst then
      (s.install (Live.foot (Live.commit batch.offset t))).slots i else s.slots i) =
      (s.install (Live.foot (Live.commit batch.offset t))).slots := by
    funext i
    split_ifs with hi
    · rfl
    · by_cases hfoot : i ∈ (Live.foot (Live.commit batch.offset t)).ids
      · obtain ⟨y, hy, rfl⟩ := List.mem_map.mp hfoot
        have hslot := Ideal.install_of_mem (s := s) hn hy
        rcases Ideal.install_commit hF hslot with ⟨-, hold⟩ | ⟨-, -, hq, -⟩
        · rw [hslot, hold]
        · exact absurd (List.mem_map_of_mem (OrdMap.mem_toList.mpr (hb.get? hq))) hi
      · exact (Ideal.install_of_not_mem hfoot).symm
  have hnone : ∀ i ∈ (∅ : Set NodeId), i ∈ s.kept ∧
    (d₂.cache.budget = none ∨ i ∈ [] ∨ none = some i) :=
    fun i hi => absurd hi (Set.notMem_empty i)
  have h₃ := h₂.ages ha₃ ht₃ hnone
  simp only [hslots] at h₃
  exact h₃

end DiskStore
end Commit

lemma Holds.forks {π : Type} {e : Engine π Ideal} {h : ℕ} {t : Live h} (ht : Holds e t) :
    (Live.plain t).Forks := by
  have hv : (Live.plain t).Valid none none := by
    rw [← Tree.valid_bare, ← Live.bare_view, Tree.valid_bare]
    exact (ht.good false).valid
  exact Tree.forks_of_rest hv ht.rest

namespace DiskEngine
variable {π V : Type} [Vfs V] [Crc32Fast] {file : V → List Byte} {Same : V → V → Prop}
    {Idle : V → Prop} {Err : Fault → Prop}
  {e : Engine π Ideal} {r : DiskEngine π V} {h : ℕ} {t : Live h}
open DiskStore (Batch Models newSuperblock)

structure Commits (file : V → List Byte) (Idle : V → Prop) (e : Engine π Ideal) (t : Live h)
    (r : DiskEngine π V)
    (batch : Batch) (stats : CommitStats) (r' : DiskEngine π V) : Prop where
  batched : Batched e.store t r.store.watermark batch
  alike : Alike (Models file) (e.committed batch.offset t) r'
  onFile : (Live.publish batch.offset t).OnFile (file r'.store.vfs) r'.store.watermark
  idle : Idle r'.store.vfs
  watermark : r'.store.watermark = r.store.watermark + batch.buf.length
  nextGeneration : r'.store.nextGeneration = r.store.nextGeneration + 1
  fits : r.store.nextGeneration + 1 < 2 ^ 64
  poisoned : r'.store.poisoned = r.store.poisoned
  budget : r'.store.cache.budget = r.store.cache.budget
  file : file r'.store.vfs = published (file r.store.vfs) r.store.watermark batch.buf
    r.store.nextGeneration
    (newSuperblock e.params e.nextSeq r.store.nextGeneration (Live.publish batch.offset t).label
      r'.store.watermark)
  stats : stats = ⟨batch.assigned.size, batch.buf.length + superblockSlotSize⟩

def Fits (e : Engine π Ideal) (t : Live h) (base generation : ℕ) : Prop :=
  ∃ batch, Batched e.store t base batch ∧ base + batch.buf.length < 2 ^ 64 ∧ generation + 1 < 2 ^ 64

/-- What publishing a batch does to the device, as far as one is interested. -/
def Watched (Same : V → V → Prop) (e : Engine π Ideal) (t : Live h) (r : DiskEngine π V)
    (W : Batch → V → Prop)
    (X : V → Prop) : Prop :=
  ∀ (d : DiskStore V) (batch : Batch) (root : NodeId), Same r.store.vfs d.vfs →
    d.watermark = r.store.watermark →
    d.nextGeneration = r.store.nextGeneration → Batched e.store t r.store.watermark batch →
    d.resolveOffset batch.assigned root = some (Live.publish batch.offset t).label →
    Ends (DiskStore.publish e.params e.nextSeq root batch) d (fun _ d' => W batch d'.vfs)
      fun _ d' => X d'.vfs

/-- A commit returns unless the device reports an error or a number does not fit. -/
theorem commitInner_watched (hV : Device file Same Idle Err) (hr : Alike (Models file) e r)
    (ht : Holds e t)
    (hidle : Idle r.store.vfs) (hbase : dataStart ≤ r.store.watermark)
    (hlen : r.store.watermark ≤ (file r.store.vfs).length ∨
      r.store.watermark = dataStart ∧ t.dirty = true)
    {W : Batch → V → Prop} {X : V → Prop} (hsame : ∀ v, Same r.store.vfs v → X v)
    (hwatch : Watched Same e t r W X) :
    ∃ N, ∀ fuel ≥ N, Ends (commitInner fuel) r
      (fun stats r' => ∃ batch, Commits file Idle e t r batch stats r' ∧ W batch r'.store.vfs)
      fun f r' => (Err f ∨ Refusal f ∧ ¬ Fits e t r.store.watermark r.store.nextGeneration) ∧
      X r'.store.vfs := by
  have hS := diskSim hV.toRecordReads
  obtain ⟨N, hN⟩ := dirtyNodes_run ht.root ht.stored
  refine ⟨N, fun fuel hf => ?_⟩
  unfold commitInner
  rcases hS.sims_dirtyNodes fuel e r hr trivial _ e (hN fuel hf) with ⟨pre, r₁, hrun₁,
    hpre, -, hr₁, hk₁⟩ |
    ⟨f, r₁, e₁, hrun₁, herr, -, -, hk₁⟩
  swap
  · exact .of_error (run_bind_error hrun₁) ⟨Or.inl herr, hsame _ hk₁.vfs⟩
  obtain rfl : (Live.written t).map Prod.fst = pre := List.forall₂_eq_eq_eq ▸ hpre
  have hw₁ := hk₁.watermark
  have hg₁ := hk₁.nextGeneration
  have hfile₁ := hV.file_eq hk₁.vfs
  refine .after hrun₁ (.after (Engine.run_get) ?_)
  have hready : e.store.Ready [] (Live.queue t) := Live.ready ht.stored ht.sound (by simp)
  have hser := hr₁.store.toTracks.serializeNodes hready.dirty r₁.store.watermark Batch.new
  rcases batched_or_refused ht.stored ht.sound r₁.store.watermark with ⟨batch, hb⟩ | ⟨f, hrun, href⟩
  swap
  · rw [hrun] at hser
    refine .of_error (run_bind_error (Engine.run_onStore_error hser)) ⟨Or.inr ⟨href, ?_⟩,
      hsame _ hk₁.vfs⟩
    rintro ⟨batch, hb, -⟩
    have hb' := hb.run
    rw [← hw₁, hrun] at hb'
    cases hb'
  rw [hb.run] at hser
  refine .after (Engine.run_onStore hser) ?_
  have hreach : Reaches (file r₁.store.vfs) r₁.store.watermark batch.buf := by
    refine hb.reaches ?_
    rw [hw₁, hfile₁]
    exact hlen
  have hbase₁ : dataStart ≤ r₁.store.watermark := hw₁ ▸ hbase
  have hroot :
    r₁.store.resolveOffset batch.assigned r₁.root = some (Live.publish batch.offset t).label := by
    rw [hr₁.store.toTracks.resolveOffset, ← hr₁.root, ht.root]
    exact (hr₁.store.toTracks.onFile_publish ht.stored ht.sound ht.forks hb hbase₁ hreach 0
      (newSuperblock e.params 0 0 0 0)).2
  have hpub : Ends (DiskStore.publish r₁.params r₁.nextSeq r₁.root batch) r₁.store
    (fun _ d' => W batch d'.vfs) fun _ d' => X d'.vfs := by
    rw [hr₁.params, hr₁.nextSeq]
    exact hwatch r₁.store batch r₁.root hk₁.vfs hw₁ hg₁ (hw₁ ▸ hb) hroot
  have hrun := DiskStore.publish_run hV (hV.idle_same hk₁.vfs hidle) r₁.params
    r₁.nextSeq r₁.root hroot
  refine Ends.bind ((Engine.ends_onStore (hrun.and hpub)).mono (fun _ _ h => h) fun f r' h => ?_) ?_
  · refine ⟨h.1.1.1.imp_right fun hover => ⟨Or.inl hover.1, ?_⟩, h.1.2⟩
    rintro ⟨batch', hb', h64, hg64⟩
    have heq := hb'.run
    rw [← hw₁, hb.run] at heq
    obtain rfl : batch = batch' := Except.ok.inj heq
    exact hover.2 ⟨hw₁ ▸ h64, hg₁ ▸ hg64⟩
  rintro - r₂ ⟨⟨⟨h64, hg64, hidle₂, hd₂, hfile₂⟩, hwatched⟩, hr₂⟩
  obtain ⟨d₃, d₄, hrun₃, hrun₄, hm₄, hst₄⟩ :=
    hr₁.store.adopted ht.stored ht.sound ht.forks hb hbase₁ hreach h64 hfile₂ hd₂
  refine .after (Engine.run_onStore hrun₃)
    (.after (Engine.run_onStore hrun₄) (.of_ok rfl ⟨batch, ?_, ?_⟩))
  swap
  · change W batch d₄.vfs
    rw [← hst₄.vfs]
    exact hwatched
  have hwm : d₄.watermark = r₁.store.watermark + batch.buf.length :=
    hst₄.watermark.trans (by rw [hd₂])
  have hvfs : file d₄.vfs = file r₂.store.vfs := by rw [← hst₄.vfs]
  have hsb :
    newSuperblock r₁.params r₁.nextSeq r₁.store.nextGeneration (Live.publish batch.offset t).label
      (r₁.store.watermark + batch.buf.length) = newSuperblock e.params e.nextSeq
        r.store.nextGeneration
      (Live.publish batch.offset t).label d₄.watermark := by
    rw [hr₁.params, hr₁.nextSeq, hg₁, hwm]
  exact {
    batched := hw₁ ▸ hb
    alike := {
      store := hm₄
      params := by
        rw [hr₂]
        exact hr₁.params
      root := by
        rw [hr₂]
        exact hr₁.root
      nextSeq := by
        rw [hr₂]
        exact hr₁.nextSeq
      ops := rfl
      policy := by
        rw [hr₂]
        exact hr₁.policy
      trace := by
        rw [hr₂]
        exact hr₁.trace }
    onFile := by
      change (Live.publish batch.offset t).OnFile (file d₄.vfs) d₄.watermark
      rw [hvfs, hfile₂, hwm]
      exact (hr₁.store.toTracks.onFile_publish ht.stored ht.sound ht.forks hb hbase₁ hreach _ _).1
    idle := by
      change Idle d₄.vfs
      rw [← hst₄.vfs]
      exact hidle₂
    watermark := by
      rw [← hw₁]
      exact hwm
    nextGeneration := by
      rw [← hg₁]
      exact hst₄.nextGeneration.trans (by rw [hd₂])
    fits := hg₁ ▸ hg64
    poisoned := (hst₄.poisoned.trans (by rw [hd₂])).trans hk₁.poisoned
    budget := (hst₄.budget.trans (by rw [hd₂])).trans hk₁.budget
    file := by
      change file d₄.vfs = _
      rw [hvfs, hfile₂, hsb, hfile₁, hw₁, hg₁]
      rfl
    stats := rfl }

theorem commitInner_run (hV : Device file Same Idle Err) (hr : Alike (Models file) e r)
    (ht : Holds e t)
    (hidle : Idle r.store.vfs) (hbase : dataStart ≤ r.store.watermark)
    (hlen : r.store.watermark ≤ (file r.store.vfs).length ∨ r.store.watermark = dataStart ∧
      t.dirty = true) :
    ∃ N, ∀ fuel ≥ N, Ends (commitInner fuel) r
      (fun stats r' => ∃ batch, Commits file Idle e t r batch stats r')
      fun f _ => Err f ∨ Refusal f ∧ ¬ Fits e t r.store.watermark r.store.nextGeneration := by
  have hwatch : Watched Same e t r (fun _ _ => True) fun _ => True := by
    intro d batch root _ _ _ _ _
    cases hrun : DiskStore.publish e.params e.nextSeq root batch d with
    | ok u d' => exact .of_ok hrun trivial
    | error f d' => exact .of_error hrun trivial
  obtain ⟨N, hN⟩ := commitInner_watched hV hr ht hidle hbase hlen (fun _ _ => trivial) hwatch
  exact ⟨N, fun fuel hf => (hN fuel hf).mono (fun _ _ h => h.imp fun _ h => h.1) fun _ _ h => h.1⟩

end DiskEngine
end Beetree
