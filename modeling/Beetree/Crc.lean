import Beetree.Format

/-! The superblock slots: which of them are accepted, and that their checksum notices one changed
byte, since every step of the polynomial division can be undone. -/
namespace Beetree

lemma toBitVec_crcBit (c : UInt32) : (crcBit c).toBitVec =
    if c.toBitVec.getLsbD 0 then (c.toBitVec >>> 1) ^^^ 0xEDB88320#32 else c.toBitVec >>> 1 := by
  have hlow : c % 2 = 1 ↔ c.toBitVec.getLsbD 0 = true := by
    rw [← UInt32.toNat_inj, UInt32.toNat_mod, BitVec.getLsbD, Nat.testBit_zero, decide_eq_true_eq]
    rfl
  unfold crcBit
  by_cases h : c % 2 = 1
  · rw [if_pos h, if_pos (hlow.mp h)]
    rfl
  · rw [if_neg h, if_neg (fun hb => h (hlow.mpr hb))]
    rfl

/-- The polynomial has its top bit set, so the bit shifted out can be read off the result. -/
lemma getLsbD_crcBit (c : UInt32) : (crcBit c).toBitVec.getLsbD 31 = c.toBitVec.getLsbD 0 := by
  have hp : (0xEDB88320#32).getLsbD 31 = true := by decide
  rw [toBitVec_crcBit]
  split_ifs with h
  · rw [BitVec.getLsbD_xor, hp, BitVec.getLsbD_ushiftRight, BitVec.getLsbD_of_ge _ _ (by omega), h]
    rfl
  · rw [BitVec.getLsbD_ushiftRight, BitVec.getLsbD_of_ge _ _ (by omega)]
    simpa using h

lemma crcBit_injective : Function.Injective crcBit := by
  intro a b h
  have hbit : a.toBitVec.getLsbD 0 = b.toBitVec.getLsbD 0 := by
    rw [← getLsbD_crcBit, h, getLsbD_crcBit]
  have hshift : a.toBitVec >>> 1 = b.toBitVec >>> 1 := by
    have hab : (crcBit a).toBitVec = (crcBit b).toBitVec := congrArg UInt32.toBitVec h
    rw [toBitVec_crcBit, toBitVec_crcBit, hbit] at hab
    split_ifs at hab
    · exact BitVec.xor_left_inj _ |>.mp hab
    · exact hab
  refine UInt32.toBitVec_inj.mp (BitVec.eq_of_getLsbD_eq fun i hi => ?_)
  cases i with
  | zero => exact hbit
  | succ i =>
    have := congrArg (BitVec.getLsbD · i) hshift
    simpa [BitVec.getLsbD_ushiftRight, Nat.add_comm] using this

lemma crcByte_injective (c : UInt32) : Function.Injective (crcByte c) := by
  intro a b h
  have hx : c ^^^ UInt32.ofNat a.val = c ^^^ UInt32.ofNat b.val := crcBit_injective.iterate 8 h
  have hn : UInt32.ofNat a.val = UInt32.ofNat b.val := by simpa using hx
  have := congrArg UInt32.toNat hn
  rw [UInt32.toNat_ofNat_of_lt' (by have := a.isLt; simp [UInt32.size]; omega),
    UInt32.toNat_ofNat_of_lt' (by have := b.isLt; simp [UInt32.size]; omega)] at this
  exact Fin.ext this

lemma crcByte_injective_left (b : Byte) : Function.Injective (crcByte · b) := by
  intro c c' h
  have hx : c ^^^ UInt32.ofNat b.val = c' ^^^ UInt32.ofNat b.val := crcBit_injective.iterate 8 h
  simpa using hx

lemma foldl_crcByte_injective (l : List Byte) : Function.Injective (l.foldl crcByte ·) := by
  induction l with
  | nil => exact fun _ _ h => h
  | cons b l ih => exact fun _ _ h => crcByte_injective_left b (ih h)

/-- The state after the changed byte differs, and no later byte makes it the same again. -/
theorem crc32Ieee_set {l : List Byte} {i : ℕ} {b : Byte} (hi : i < l.length) (hb : l[i]? ≠ some b) :
    crc32Ieee.hash (l.set i b) ≠ crc32Ieee.hash l := by
  have hl : l = l.take i ++ l[i] :: l.drop (i + 1) := by
    rw [List.getElem_cons_drop, List.take_append_drop]
  have hs : l.set i b = l.take i ++ b :: l.drop (i + 1) :=
    List.set_eq_take_append_cons_drop.trans (if_pos hi)
  intro h
  change ~~~((l.set i b).foldl crcByte 0xFFFFFFFF) = ~~~(l.foldl crcByte 0xFFFFFFFF) at h
  have h' : (l.set i b).foldl crcByte 0xFFFFFFFF = l.foldl crcByte 0xFFFFFFFF := by simpa using h
  rw [hs] at h'
  nth_rewrite 3 [hl] at h'
  simp only [List.foldl_append, List.foldl_cons] at h'
  have := crcByte_injective _ (foldl_crcByte_injective _ h')
  exact hb (by rw [List.getElem?_eq_getElem hi, this])

lemma leNat_injective {s t : List Byte} (hl : s.length = t.length) (h : leNat s = leNat t) :
    s = t := by
  induction s generalizing t with
  | nil => exact (List.length_eq_zero_iff.mp hl.symm).symm
  | cons a s ih =>
    cases t with
    | nil => cases hl
    | cons b t =>
      have ha := a.isLt
      have hb := b.isLt
      simp only [leNat] at h
      have hab : a = b := Fin.ext (by omega)
      have hst : s = t := ih (by simpa using hl) (by omega)
      rw [hab, hst]

section Slot

/-- The geometry check in the order of the source, or nothing where its subtraction would wrap. -/
def Superblock.geometryOk (sb : Superblock) : Option Bool :=
  if dataStart ≤ sb.watermark.toNat then
    if dataStart ≤ sb.rootOffset.toNat then
      if recordHeaderSize ≤ sb.watermark.toNat then
        some (sb.rootOffset.toNat ≤ sb.watermark.toNat - recordHeaderSize)
      else none
    else some false
  else some false

lemma Superblock.geometryOk_eq (sb : Superblock) :
    sb.geometryOk = some (decide (dataStart ≤ sb.watermark.toNat ∧
    dataStart ≤ sb.rootOffset.toNat ∧
    sb.rootOffset.toNat ≤ sb.watermark.toNat - recordHeaderSize)) := by
  unfold Superblock.geometryOk
  split_ifs with hw hr hs
  · simp [hw, hr]
  · exact absurd (le_trans (by decide) hw) hs
  · simp [hr]
  · simp [hw]

lemma Superblock.sane_iff (sb : Superblock) : sb.Sane ↔ 2 ≤ sb.params.fanout ∧
    1 ≤ sb.params.bufferCapacity ∧
    1 ≤ sb.params.leafCapacity ∧ 8192 ≤ sb.watermark ∧ 8192 ≤ sb.rootOffset ∧
    sb.rootOffset ≤ sb.watermark - 8 := by
  unfold Superblock.Sane Params.Legal dataStart recordHeaderSize superblockSlotSize
  simp only [UInt64.le_iff_toNat_le]
  by_cases hw : 8192 ≤ sb.watermark.toNat
  · have hsub : (sb.watermark - 8).toNat = sb.watermark.toNat - 8 :=
      UInt64.toNat_sub_of_le _ _ (UInt64.le_iff_toNat_le.mpr (le_trans (by decide) hw))
    rw [hsub]
    simp only [UInt64.reduceToNat]
    tauto
  · simp only [UInt64.reduceToNat]
    tauto

variable [Crc32Fast]

lemma decodeSlot_of_hash {slot : List Byte}
    (h : (Crc32Fast.hash (slot.take (superblockSlotSize - 4))).toNat ≠
    leNat (slot.drop (superblockSlotSize - 4))) : decodeSlot slot = .invalid := by
  unfold decodeSlot
  dsimp only
  split_ifs <;> rfl

end Slot

/-- A changed byte leaves the body or the stored checksum as it was, but not both. -/
lemma decodeSlot_set (sb : Superblock) {i : ℕ} {b : Byte} :
    let _ := crc32Ieee
    i < 4096 → sb.encodeSlot[i]? ≠ some b → decodeSlot (sb.encodeSlot.set i b) = .invalid := by
  intro _ hi hb
  refine decodeSlot_of_hash ?_
  have hbody : sb.encodeSlot.take (superblockSlotSize - 4) = sb.body :=
    List.take_left' sb.body_length
  have hcrc :
    sb.encodeSlot.drop (superblockSlotSize - 4) = leBytes 4 (crc32Ieee.hash sb.body).toNat :=
    List.drop_left' sb.body_length
  have hword : leNat (leBytes 4 (crc32Ieee.hash sb.body).toNat) = (crc32Ieee.hash sb.body).toNat :=
    leNat_leBytes_of_lt (UInt32.toNat_lt _)
  by_cases hlt : i < superblockSlotSize - 4
  · rw [List.drop_set_of_lt hlt, hcrc, hword, List.take_set, hbody]
    intro h
    refine crc32Ieee_set (by rw [sb.body_length]; exact hlt) ?_ (UInt32.toNat_inj.mp h)
    rwa [← hbody, List.getElem?_take_of_lt hlt]
  · rw [List.take_set_of_le (by omega), hbody, List.drop_set, if_neg (by omega), hcrc]
    intro h
    have hset := leNat_injective (by simp) (hword.trans h)
    refine hb ?_
    have hj : (leBytes 4 (crc32Ieee.hash sb.body).toNat)[i - (superblockSlotSize - 4)]? = some
      b := by
      rw [hset,
        List.getElem?_set_self (by rw [leBytes_length]; simp only [superblockSlotSize]; omega)]
    rw [← hcrc, List.getElem?_drop] at hj
    rwa [Nat.add_sub_cancel' (by omega)] at hj

/-- Over the whole range of every field a slot is read back exactly when it should be, and a slot
with any one byte changed never. -/
theorem decodeSlot_exact (sb : Superblock) :
    let _ := crc32Ieee
    sb.encodeSlot.length = 4096 ∧
    (∀ found, decodeSlot sb.encodeSlot = .valid found ↔ found = sb ∧ sb.magic = magicBytes ∧
      sb.formatVersion = 2 ∧ 2 ≤ sb.params.fanout ∧ 1 ≤ sb.params.bufferCapacity ∧
        1 ≤ sb.params.leafCapacity ∧
      8192 ≤ sb.watermark ∧ 8192 ≤ sb.rootOffset ∧ sb.rootOffset ≤ sb.watermark - 8) ∧
    (∀ v, decodeSlot sb.encodeSlot = .wrongVersion v ↔ sb.magic = magicBytes ∧
      sb.formatVersion = v ∧ v ≠ 2) ∧
    (decodeSlot sb.encodeSlot = .invalid ↔ sb.magic ≠ magicBytes ∨
      sb.formatVersion = 2 ∧ ¬sb.Sane) ∧
    (∃ ok, sb.geometryOk = some ok) ∧
    ∀ i < 4096, ∀ b : Byte, sb.encodeSlot[i]? ≠ some b →
      decodeSlot (sb.encodeSlot.set i b) = .invalid := by
  intro _
  refine ⟨sb.encodeSlot_length, fun found => ?_, fun v => ?_, ?_, ⟨_, sb.geometryOk_eq⟩,
    fun i hi b hb => decodeSlot_set sb hi hb⟩
  · rw [decodeSlot_encodeSlot_eq, ← sb.sane_iff]
    split_ifs with hm hv hs
    · simp [hm]
    · exact iff_of_false nofun fun h => hv h.2.2.1
    · rw [SlotStatus.valid.injEq]
      exact ⟨fun h => ⟨h.symm, not_not.mp hm, not_not.mp hv, hs⟩, fun h => h.1.symm⟩
    · exact iff_of_false nofun fun h => hs h.2.2.2
  · rw [decodeSlot_encodeSlot_eq]
    split_ifs with hm hv hs
    · simp [hm]
    · rw [SlotStatus.wrongVersion.injEq]
      exact ⟨fun h => ⟨not_not.mp hm, h, h ▸ hv⟩, fun h => h.2.1⟩
    · exact iff_of_false nofun fun h => h.2.2 (h.2.1 ▸ not_not.mp hv)
    · exact iff_of_false nofun fun h => h.2.2 (h.2.1 ▸ not_not.mp hv)
  · rw [decodeSlot_encodeSlot_eq]
    split_ifs with hm hv hs
    · simp [hm]
    · exact iff_of_false nofun fun h => h.elim hm fun h => hv h.1
    · exact iff_of_false nofun fun h => h.elim hm fun h => h.2 hs
    · exact iff_of_true rfl (.inr ⟨not_not.mp hv, hs⟩)

end Beetree
