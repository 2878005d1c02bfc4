import Beetree.Device

/-! What opening a file comes to, whatever its bytes are. -/
namespace Beetree

section Pure
variable [Crc32Fast]

/-- What a slot of a file holds; a slot that the file does not reach is passed over. -/
def slotStatus (file : List Byte) (slotOffset : ℕ) : SlotStatus :=
  if file.length < slotOffset + superblockSlotSize then .invalid
  else decodeSlot ((file.drop slotOffset).take superblockSlotSize)

def candidates (file : List Byte) : Candidates :=
  ((⟨none, none⟩ : Candidates).consider file.length (slotStatus file (superblockSlot 0))).consider
    file.length
    (slotStatus file (superblockSlot 1))

def selected (file : List Byte) : Except DiskError Superblock := (candidates file).select

end Pure

section Device
variable [Crc32Fast] {V : Type} [Vfs V] [ExactReads V]

lemma examineSlot_exact (v : V) (seen : Candidates) (slotOffset : ℕ) :
    ∃ v', ExactReads.Same v v' ∧ DiskEngine.examineSlot (ExactReads.file v).length
      seen slotOffset v =
      .ok (seen.consider (ExactReads.file v).length (slotStatus (ExactReads.file v) slotOffset))
        v' := by
  unfold DiskEngine.examineSlot slotStatus
  split_ifs with hlen
  · exact ⟨v, ExactReads.refl v, rfl⟩
  · obtain ⟨v', hsame, hread⟩ := ExactReads.read v slotOffset superblockSlotSize
    rw [readAt, if_pos (not_lt.mp hlen)] at hread
    exact ⟨v', hsame, by rw [run_bind_ok hread]; rfl⟩

/-- Selecting a superblock is a matter of the bytes of the file. -/
theorem selectSuperblock_exact (v : V) : ∃ v', ExactReads.Same v v' ∧
    DiskEngine.selectSuperblock v =
    match selected (ExactReads.file v) with
    | .ok sb => .ok sb v'
    | .error x => .error (.storage x) v' := by
  obtain ⟨v₀, hsame₀, hlen⟩ := ExactReads.len v
  obtain ⟨v₁, hsame₁, h₁⟩ := examineSlot_exact v₀ ⟨none, none⟩ (superblockSlot 0)
  obtain ⟨v₂, hsame₂, h₂⟩ := examineSlot_exact v₁
    ((⟨none, none⟩ : Candidates).consider (ExactReads.file v).length
      (slotStatus (ExactReads.file v) (superblockSlot 0)))
    (superblockSlot 1)
  rw [ExactReads.file_eq hsame₁] at h₂
  rw [ExactReads.file_eq hsame₀] at h₁ h₂
  refine ⟨v₂, ExactReads.trans hsame₀ (ExactReads.trans hsame₁ hsame₂), ?_⟩
  unfold DiskEngine.selectSuperblock
  have hfold :
    [superblockSlot 0, superblockSlot 1].foldlM (DiskEngine.examineSlot (ExactReads.file v).length)
      (⟨none, none⟩ : Candidates) v₀ = .ok (candidates (ExactReads.file v)) v₂ := by
    rw [List.foldlM_cons, run_bind_ok h₁, List.foldlM_cons, run_bind_ok h₂]
    rfl
  rw [run_bind_ok hlen, run_bind_ok hfold]
  unfold selected
  cases Candidates.select _ with
  | ok sb => rfl
  | error x => rfl

end Device

section Open
variable [Crc32Fast] {π V : Type} [Vfs V] [Reliable V]

/-- Opening gives the engine at the selected superblock, unless its generation is the last one. -/
theorem openOn_eq (budget : Option ℕ) (policy : π) (v : V) : ∃ v',
    (Reliable.Idle v → Reliable.Idle v') ∧
    (∀ sb, selected (ExactReads.file v) = .ok sb →
      ExactReads.file v' = resize (ExactReads.file v) sb.watermark.toNat) ∧
    DiskEngine.openOn budget policy v =
      match selected (ExactReads.file v) with
      | .error x => .error (.storage x)
      | .ok sb =>
        if sb.generation.toNat + 1 < 2 ^ 64 then
          .ok (DiskEngine.recovered v' budget policy sb (sb.generation.toNat + 1))
        else .error .overflow := by
  obtain ⟨v₁, hsame₁, h₁⟩ := selectSuperblock_exact v
  cases hsel : selected (ExactReads.file v) with
  | error x =>
    rw [hsel] at h₁
    refine ⟨v, id, ⟨fun sb hsb => ?_, ?_⟩⟩
    · cases hsb
    unfold DiskEngine.openOn
    dsimp only
    rw [run_bind_error h₁]
  | ok sb =>
    rw [hsel] at h₁
    obtain ⟨v₂, h₂, hfile₂, hidle₂⟩ := Reliable.setLen v₁ sb.watermark.toNat
    refine ⟨v₂, fun hv => hidle₂ (Reliable.idle_same hsame₁ hv), fun sb' hsb => ?_, ?_⟩
    · cases hsb
      rw [hfile₂, ExactReads.file_eq hsame₁]
    · unfold DiskEngine.openOn checkedAdd
      dsimp only
      rw [run_bind_ok h₁, run_bind_ok h₂]
      split_ifs <;> rfl

end Open
section Faulty
variable [Crc32Fast] {π : Type} {v : FaultyVfs} {sb : Superblock}

lemma openOn_faulty (budget : Option ℕ) (policy : π) (hsel : selected v.view = .ok sb) :
    DiskEngine.openOn budget policy v =
    if sb.generation.toNat + 1 < 2 ^ 64 then
      .ok (DiskEngine.recovered
        { v with
          view := resize v.view sb.watermark.toNat
          log := v.log ++ [.setLen sb.watermark.toNat] }
        budget policy sb (sb.generation.toNat + 1))
    else .error .overflow := by
  obtain ⟨v', rfl, hrun⟩ := selectSuperblock_exact v
  have hfile : selected (ExactReads.file v') = .ok sb := hsel
  rw [hfile] at hrun
  have hset : Vfs.setLen sb.watermark.toNat v' = .ok () { v' with
    view := resize v'.view sb.watermark.toNat, log := v'.log ++ [.setLen sb.watermark.toNat] } :=
      rfl
  unfold DiskEngine.openOn checkedAdd
  dsimp only
  rw [run_bind_ok hrun, run_bind_ok hset]
  split_ifs <;> rfl

end Faulty
end Beetree
