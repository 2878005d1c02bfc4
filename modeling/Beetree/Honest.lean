import Beetree.Open
import Beetree.Publish

/-! Devices that may fail, but never without saying so. -/
namespace Beetree

/-- A device that does what it is asked or reports one of the errors it may report. Reads tell what
the file holds; writes are asked for while no other write waits to be synced. -/
class Honest (V : Type) [Vfs V] where
  file : V → List Byte
  Idle : V → Prop
  Reports : Fault → Prop
  storage : ∀ {f}, Reports f → f.IsStorage
  read : ∀ v off len, Ends (Vfs.readExactAt off len) v
    (fun data v' => readAt (file v) off len = some data ∧ file v' = file v ∧ (Idle v → Idle v'))
    fun f v' => (off + len ≤ (file v).length → Reports f) ∧ f.IsStorage ∧ file v' = file v ∧
      (Idle v → Idle v')
  len : ∀ v, Ends Vfs.len v (fun n v' => n = (file v).length ∧ file v' = file v ∧
    (Idle v → Idle v')) fun f _ => Reports f
  setLen : ∀ v n, Ends (Vfs.setLen n) v (fun _ v' => file v' = resize (file v) n ∧
    (Idle v → Idle v')) fun f _ => Reports f
  sync : ∀ v, Idle v → Ends Vfs.sync v (fun _ v' => file v' = file v ∧ Idle v') fun f _ => Reports f
  write : ∀ v off data, Idle v → Ends (do Vfs.writeAllAt off data; Vfs.sync) v
    (fun _ v' => file v' = writeAt (file v) off data ∧ Idle v') fun f _ => Reports f

lemma le_of_readAt {file data : List Byte} {off len : ℕ} (h : readAt file off len = some data) :
    off + len ≤ file.length := by
  unfold readAt at h
  split_ifs at h with hlen
  exact hlen

@[reducible] def Reliable.honest {V : Type} [Vfs V] [Reliable V] : Honest V where
  file := ExactReads.file
  Idle := Reliable.Idle
  Reports _ := False
  storage hf := hf.elim
  read v off len := by
    obtain ⟨v', hsame, hread⟩ := ExactReads.read v off len
    have hkept : ExactReads.file v' = ExactReads.file v ∧ (Reliable.Idle v → Reliable.Idle v') :=
      ⟨ExactReads.file_eq hsame, Reliable.idle_same hsame⟩
    cases hr : readAt (ExactReads.file v) off len with
    | some data =>
      rw [hr] at hread
      exact .of_ok hread ⟨rfl, hkept⟩
    | none =>
      rw [hr] at hread
      refine .of_error hread ⟨fun hlen => ?_, ⟨_, rfl⟩, hkept⟩
      rw [readAt, if_pos hlen] at hr
      cases hr
  len v := by
    obtain ⟨v', hsame, hrun⟩ := ExactReads.len v
    exact .of_ok hrun ⟨rfl, ExactReads.file_eq hsame, Reliable.idle_same hsame⟩
  setLen v n := by
    obtain ⟨v', hrun, hkept⟩ := Reliable.setLen v n
    exact .of_ok hrun hkept
  sync v hv := by
    obtain ⟨v', hrun, hkept⟩ := Reliable.sync v hv
    exact .of_ok hrun hkept
  write v off data hv := by
    obtain ⟨v₁, v', hw, hs, hkept⟩ := Reliable.write v off data hv
    exact .of_ok (by rw [run_bind_ok hw, hs]) hkept

namespace Honest
variable {V : Type} [Vfs V] [Honest V]

def Same (v v' : V) : Prop := file v' = file v ∧ (Idle v → Idle v')

lemma Same.refl (v : V) : Same v v := ⟨rfl, id⟩

lemma Same.trans {v v' v'' : V} (h : Same v v') (h' : Same v' v'') : Same v v'' :=
  ⟨h'.1.trans h.1, fun hi => h'.2 (h.2 hi)⟩

lemma onVfs_read (s : DiskStore V) {off len : ℕ} {data : List Byte}
    (hd : readAt (file s.vfs) off len = some data) :
    ∃ v', Same s.vfs v' ∧
    (DiskStore.onVfs (Vfs.readExactAt off len) s = .ok data { s with vfs := v' } ∨
      ∃ f, DiskStore.onVfs (Vfs.readExactAt off len) s = .error f { s with vfs := v' } ∧
        Reports V f) := by
  have h := Honest.read s.vfs off len
  unfold Ends at h
  cases hr : Vfs.readExactAt off len s.vfs with
  | ok data' v' =>
    rw [hr] at h
    obtain rfl : data = data' := Option.some.inj (hd.symm.trans h.1)
    exact ⟨v', h.2, Or.inl (DiskStore.onVfs_ok hr)⟩
  | error f v' =>
    rw [hr] at h
    exact ⟨v', h.2.2, Or.inr ⟨f, DiskStore.onVfs_error hr, h.1 (le_of_readAt hd)⟩⟩

/-- A record that is in the file is read, or the device reports an error. -/
theorem readRecord_run [Crc32Fast] (s : DiskStore V) (offset : ℕ) {node : DiskNode} {len : ℕ}
    (hw : s.watermark < 2 ^ 64)
    (hp : parseRecord (file s.vfs) s.watermark offset = .ok (node, len)) : ∃ v', Same s.vfs v' ∧
      (DiskStore.readRecord offset s = .ok (node, len) { s with vfs := v' } ∨
        ∃ f, DiskStore.readRecord offset s = .error f { s with vfs := v' } ∧ Reports V f) := by
  have hbounds := parseRecord_bounds hp
  have hsize : recordHeaderSize = 8 := rfl
  unfold parseRecord at hp
  unfold DiskStore.readRecord
  rw [run_get_bind]
  split_ifs at hp ⊢ with hout
  obtain ⟨header, hheader⟩ := Option.ne_none_iff_exists'.mp
    fun h : readAt (file s.vfs) offset recordHeaderSize = none => by
    rw [h] at hp
    cases hp
  obtain ⟨v₁, hsame₁, hread₁ | ⟨f, hread₁, hf⟩⟩ := onVfs_read s hheader
  swap
  · exact ⟨v₁, hsame₁, Or.inr ⟨f, run_bind_error hread₁, hf⟩⟩
  rw [hheader] at hp
  dsimp only at hp
  split_ifs at hp with hlen
  have hadd : (checkedAdd offset recordHeaderSize : DiskStore.Act V ℕ) { s with vfs := v₁ } =
      .ok (offset + recordHeaderSize) { s with vfs := v₁ } := by
    unfold checkedAdd
    rw [if_pos (by omega)]
    rfl
  have hsub : (checkedSub s.watermark (offset + recordHeaderSize) : DiskStore.Act V ℕ)
    { s with vfs := v₁ } =
      .ok (s.watermark - (offset + recordHeaderSize)) { s with vfs := v₁ } := by
    unfold checkedSub
    rw [if_pos (by omega)]
    rfl
  rw [run_bind_ok hread₁, run_bind_ok hadd, run_bind_ok hsub, if_neg hlen]
  obtain ⟨payload, hpayload⟩ := Option.ne_none_iff_exists'.mp
    fun h : readAt (file s.vfs) (offset + recordHeaderSize) (leNat (header.take 4)) = none => by
      rw [h] at hp
      cases hp
  obtain ⟨v₂, hsame₂, hread₂ | ⟨f, hread₂, hf⟩⟩ := onVfs_read { s with vfs := v₁ }
    (by rw [hsame₁.1]; exact hpayload)
  swap
  · exact ⟨v₂, hsame₁.trans hsame₂, Or.inr ⟨f, run_bind_error hread₂, hf⟩⟩
  refine ⟨v₂, hsame₁.trans hsame₂, Or.inl ?_⟩
  rw [hpayload] at hp
  rw [run_bind_ok hread₂]
  dsimp only at hp ⊢
  split_ifs at hp ⊢ with hcrc
  cases hd : decodeNode payload with
  | error reason =>
    rw [hd] at hp
    cases hp
  | ok n =>
    rw [hd] at hp
    cases hp
    rfl

lemma device [Crc32Fast] : Device (file : V → List Byte) Same Idle (Reports V) where
  refl := Same.refl
  trans := Same.trans
  file_eq h := h.1
  read s offset _ _ hw hp := readRecord_run s offset hw hp
  idle_same h := h.2
  sync := Honest.sync
  write := Honest.write

section Open
variable [Crc32Fast]

lemma examineSlot_run (v : V) (seen : Candidates) (slotOffset : ℕ) :
    Ends (DiskEngine.examineSlot (file v).length seen slotOffset) v
      (fun seen' v' => seen' = seen.consider (file v).length (slotStatus (file v) slotOffset) ∧
        Same v v')
      fun f _ => f.IsStorage := by
  unfold DiskEngine.examineSlot slotStatus
  split_ifs with hlen
  · exact .of_ok rfl ⟨rfl, Same.refl v⟩
  · refine ((Honest.read v slotOffset superblockSlotSize).mono (fun _ _ h => h)
      fun _ _ h => h.2.1).bind ?_
    rintro data v' ⟨hdata, hsame⟩
    rw [readAt, if_pos (not_lt.mp hlen)] at hdata
    cases hdata
    exact .of_ok rfl ⟨rfl, hsame⟩

/-- The superblock that is selected is the one the bytes of the file give. -/
theorem selectSuperblock_run (v : V) : Ends DiskEngine.selectSuperblock v
    (fun sb v' => selected (file v) = .ok sb ∧ Same v v') fun f _ => f.IsStorage := by
  unfold DiskEngine.selectSuperblock
  refine ((Honest.len v).mono (fun _ _ h => h) fun _ _ h => storage h).bind ?_
  rintro n v₀ ⟨rfl, hsame₀⟩
  have hfold :
    Ends ([superblockSlot 0, superblockSlot 1].foldlM (DiskEngine.examineSlot (file v).length)
      ⟨none, none⟩) v₀
      (fun seen v' => seen = candidates (file v) ∧ Same v v') fun f _ => f.IsStorage := by
    have hfile₀ : file v₀ = file v := hsame₀.1
    rw [List.foldlM_cons, ← hfile₀]
    refine (examineSlot_run v₀ _ _).bind ?_
    rintro seen₁ v₁ ⟨rfl, hsame₁⟩
    rw [List.foldlM_cons, ← hsame₁.1]
    refine (examineSlot_run v₁ _ _).bind ?_
    rintro seen₂ v₂ ⟨rfl, hsame₂⟩
    refine .of_ok rfl ⟨?_, Same.trans hsame₀ (hsame₁.trans hsame₂)⟩
    rw [candidates, hsame₁.1]
  refine hfold.bind ?_
  rintro seen v' ⟨rfl, hsame⟩
  unfold selected
  cases hsel : (candidates (file v)).select with
  | ok sb => exact .of_ok rfl ⟨rfl, hsame⟩
  | error x => exact .of_error rfl ⟨x, rfl⟩

/-- An engine that opens stands at the selected superblock, over the file cut to its watermark. -/
theorem openOn_run {π : Type} {budget : Option ℕ} {policy : π} {v : V} {e : DiskEngine π V}
    (h : DiskEngine.openOn budget policy v = .ok e) : ∃ sb v', selected (file v) = .ok sb ∧
    sb.generation.toNat + 1 < 2 ^ 64 ∧
      e = DiskEngine.recovered v' budget policy sb (sb.generation.toNat + 1) ∧
      file v' = resize (file v) sb.watermark.toNat ∧ (Idle v → Idle v') := by
  have hends : Ends (do
      let sb ← DiskEngine.selectSuperblock
      Vfs.setLen sb.watermark.toNat
      let nextGeneration ← checkedAdd sb.generation.toNat 1
      pure (sb, nextGeneration)) v
      (fun x v' => selected (file v) = .ok x.1 ∧ x.1.generation.toNat + 1 < 2 ^ 64 ∧
        x.2 = x.1.generation.toNat + 1 ∧
        file v' = resize (file v) x.1.watermark.toNat ∧ (Idle v → Idle v')) fun _ _ => True := by
    refine ((selectSuperblock_run v).mono (fun _ _ h => h) fun _ _ _ => trivial).bind ?_
    rintro sb v₁ ⟨hsel, hsame⟩
    refine ((Honest.setLen v₁ _).mono (fun _ _ h => h) fun _ _ _ => trivial).bind ?_
    rintro - v₂ ⟨hfile, hidle⟩
    unfold checkedAdd
    split_ifs with hlt
    · exact .of_ok rfl ⟨hsel, hlt, rfl, by rw [hfile, hsame.1], fun hi => hidle (hsame.2 hi)⟩
    · exact .of_error rfl trivial
  unfold Ends at hends
  unfold DiskEngine.openOn at h
  dsimp only at h
  split at h
  · rename_i sb g v' hrun
    rw [hrun] at hends
    dsimp only at hends
    obtain ⟨hsel, hlt, rfl, hfile, hidle⟩ := hends
    exact ⟨sb, v', hsel, hlt, (Except.ok.inj h).symm, hfile, hidle⟩
  · cases h

end Open
end Honest

namespace FaultyVfs

/-- No write waits to be synced; a failure may be armed. -/
def Quiet (v : FaultyVfs) : Prop := ∀ entry ∈ v.window, ∃ len, entry = .setLen len

lemma sync_run {v : FaultyVfs} (h : ∀ entry ∈ v.window, entry.isSync = false) :
    Ends Vfs.sync v (fun _ v' => v'.view = v.view ∧ v'.Quiet) fun f _ =>
    f = .storage (.io .syncFailure) := by
  have hclose : ∀ entry durable failSync, (v.close entry durable failSync).view = v.view ∧
      (v.close entry durable failSync).Quiet := by
    intro entry durable failSync
    refine ⟨rfl, fun x hx => ?_⟩
    rw [window_close] at hx
    cases hx
  cases hf : v.failSync with
  | none =>
    obtain ⟨durable, hd⟩ := syncAll_run none h
    have hrun : Vfs.sync v = .ok () (v.close .syncOk durable none) := by
      simp only [Vfs.sync, hf]
      exact hd
    exact .of_ok hrun (hclose _ _ _)
  | some x =>
    obtain ⟨skip, fates⟩ := x
    cases skip with
    | zero =>
      obtain ⟨durable, hd⟩ := applyWindow_isSome false v.durable fates h
      have hrun : Vfs.sync v = .error (.storage (.io .syncFailure))
        (v.close (.syncFailed fates) durable none) := by
        simp only [Vfs.sync, hf, hd]
      exact .of_error hrun rfl
    | succ skip =>
      obtain ⟨durable, hd⟩ := syncAll_run (some (skip, fates)) h
      have hrun : Vfs.sync v = .ok () (v.close .syncOk durable (some (skip, fates))) := by
        simp only [Vfs.sync, hf]
        exact hd
      exact .of_ok hrun (hclose _ _ _)

end FaultyVfs

/-- Only a sync fails, when a failure is armed. -/
instance : Honest FaultyVfs where
  file v := v.view
  Idle := FaultyVfs.Quiet
  Reports f := f = .storage (.io .syncFailure)
  storage hf := ⟨_, hf⟩
  read v off len := by
    cases hr : readAt v.view off len with
    | some data => exact .of_ok (by simp only [Vfs.readExactAt, hr]) ⟨rfl, rfl, id⟩
    | none =>
      have hrun : Vfs.readExactAt off len v = .error (.storage (.io .unexpectedEof)) v := by
        simp only [Vfs.readExactAt, hr]
      refine .of_error hrun ⟨fun hlen => ?_, ⟨_, rfl⟩, rfl, id⟩
      rw [readAt, if_pos hlen] at hr
      cases hr
  len v := .of_ok rfl ⟨rfl, rfl, id⟩
  setLen v n := by
    refine .of_ok rfl ⟨rfl, fun hv entry he => ?_⟩
    rcases FaultyVfs.mem_window_append he with he | rfl
    · exact hv entry he
    · exact ⟨n, rfl⟩
  sync v hv := FaultyVfs.sync_run fun entry he => by
    obtain ⟨len, rfl⟩ := hv entry he
    rfl
  write v off data hv := by
    have hover : v.window.any (FaultyVfs.overlaps off data) = false := by
      rw [List.any_eq_false]
      intro entry he
      obtain ⟨len, rfl⟩ := hv entry he
      simp [FaultyVfs.overlaps]
    have hwrite : Vfs.writeAllAt off data v =
        .ok () { v with view := writeAt v.view off data, log := v.log ++ [.write off data] } := by
      simp only [Vfs.writeAllAt, hover]
      rfl
    refine .after hwrite (FaultyVfs.sync_run fun entry he => ?_)
    rcases FaultyVfs.mem_window_append he with he | rfl
    · obtain ⟨len, rfl⟩ := hv entry he
      rfl
    · rfl

end Beetree
