import Beetree.Disk
import Beetree.Simulation

/-! What is expected of a device: reads that tell what the file holds, and for some results that
nothing else fails either. -/
namespace Beetree

/-- A device whose reads return the bytes of a file. `Same` is what reading leaves alone. -/
class ExactReads (V : Type) [Vfs V] where
  file : V → List Byte
  Same : V → V → Prop
  refl : ∀ v, Same v v
  trans : ∀ {v v' v''}, Same v v' → Same v' v'' → Same v v''
  file_eq : ∀ {v v'}, Same v v' → file v' = file v
  read : ∀ v off len, ∃ v', Same v v' ∧ Vfs.readExactAt off len v =
    match readAt (file v) off len with
    | some data => .ok data v'
    | none => .error (.storage (.io .unexpectedEof)) v'
  len : ∀ v, ∃ v', Same v v' ∧ Vfs.len v = .ok (file v).length v'

/-- A device on which nothing else fails while it is idle, that is while no write waits to be
synced. -/
class Reliable (V : Type) [Vfs V] extends ExactReads V where
  Idle : V → Prop
  idle_same : ∀ {v v'}, Same v v' → Idle v → Idle v'
  setLen : ∀ v n, ∃ v', Vfs.setLen n v = .ok () v' ∧ file v' = resize (file v) n ∧
    (Idle v → Idle v')
  sync : ∀ v, Idle v → ∃ v', Vfs.sync v = .ok () v' ∧ file v' = file v ∧ Idle v'
  write : ∀ v off data, Idle v → ∃ v₁ v', Vfs.writeAllAt off data v = .ok () v₁ ∧
    Vfs.sync v₁ = .ok () v' ∧
    file v' = writeAt (file v) off data ∧ Idle v'

section Files
variable {buf data : List Byte} {off len : ℕ}

@[simp] lemma resize_length (buf : List Byte) (len : ℕ) : (resize buf len).length = len := by
  simp only [resize, List.length_append, List.length_take, List.length_replicate]
  omega

lemma resize_getElem? (buf : List Byte) (len i : ℕ) (hi : i < len) (hb : i < buf.length) :
    (resize buf len)[i]? = buf[i]? := by
  rw [resize, List.getElem?_append_left (by simp; omega), List.getElem?_take, if_pos hi]

lemma writeAt_length (buf : List Byte) (off : ℕ) (data : List Byte) :
    (writeAt buf off data).length = max buf.length (off + data.length) := by
  unfold writeAt
  dsimp only
  split_ifs with h
  · simp only [List.length_append, List.length_take, List.length_drop, resize_length]
    omega
  · simp only [List.length_append, List.length_take, List.length_drop]
    omega

lemma writeAt_getElem? (buf : List Byte) (off : ℕ) (data : List Byte) {i : ℕ} (hi : i < buf.length)
    (hout : i < off ∨ off + data.length ≤ i) : (writeAt buf off data)[i]? = buf[i]? := by
  have hbuf :
    (if buf.length < off + data.length then resize buf (off + data.length)
      else buf)[i]? = buf[i]? := by
    split_ifs with h
    · exact resize_getElem? buf _ i (by omega) hi
    · rfl
  have hlen :
    off + data.length ≤ (if buf.length < off + data.length then resize buf (off + data.length)
      else buf).length := by
    split_ifs with h
    · simp
    · omega
  unfold writeAt
  dsimp only
  rw [← hbuf]
  generalize (if buf.length < off + data.length then resize buf (off + data.length)
    else buf) = b at hlen ⊢
  rcases hout with h | h
  · rw [List.append_assoc, List.getElem?_append_left (by simp; omega), List.getElem?_take, if_pos h]
  · rw [List.getElem?_append_right (by simp; omega), List.getElem?_drop]
    congr 1
    simp only [List.length_append, List.length_take]
    omega

lemma readAt_congr {buf buf' : List Byte} (hlen : off + len ≤ buf.length)
    (hlen' : off + len ≤ buf'.length)
    (h : ∀ i, off ≤ i → i < off + len → buf'[i]? = buf[i]?) :
    readAt buf' off len = readAt buf off len := by
  unfold readAt
  rw [if_pos hlen, if_pos hlen']
  congr 1
  apply List.ext_getElem?
  intro i
  rw [List.getElem?_take, List.getElem?_take, List.getElem?_drop, List.getElem?_drop]
  split_ifs with hi
  · exact h (off + i) (by omega) (by omega)
  · rfl

lemma readAt_writeAt (buf : List Byte) (off : ℕ) (data : List Byte) :
    readAt (writeAt buf off data) off data.length = some data := by
  unfold readAt
  rw [if_pos (by rw [writeAt_length]; omega)]
  unfold writeAt
  dsimp only
  have hlen :
    off ≤ (if buf.length < off + data.length then resize buf (off + data.length) else
      buf).length := by
    split_ifs with h
    · simp
    · omega
  rw [List.append_assoc, List.drop_left' (by simp; omega), List.take_left' rfl]

end Files

namespace FaultyVfs

lemma applyWindow_isSome (all : Bool) (buf : List Byte) {window : List LogEntry} (fates : List Fate)
    (h : ∀ entry ∈ window, entry.isSync = false) :
    ∃ buf', applyWindow all buf window fates = some buf' := by
  induction window generalizing buf fates with
  | nil => exact ⟨buf, rfl⟩
  | cons entry window ih =>
    have hentry :
      ∃ buf', entry.apply buf (if all then .apply else fates.headD .apply) = some buf' := by
      have := h entry (by simp)
      cases entry with
      | write off data =>
        unfold LogEntry.apply
        cases (if all then Fate.apply else fates.headD .apply) <;> exact ⟨_, rfl⟩
      | setLen len =>
        unfold LogEntry.apply
        dsimp only
        split_ifs <;> exact ⟨_, rfl⟩
      | syncOk => cases this
      | syncFailed _ => cases this
    obtain ⟨buf', hbuf'⟩ := hentry
    obtain ⟨buf'', hbuf''⟩ := ih buf' fates.tail fun e he => h e (by simp [he])
    exact ⟨buf'', by rw [applyWindow, hbuf']; exact hbuf''⟩

lemma mem_window_append {v : FaultyVfs} {view : List Byte} {entry new : LogEntry}
    (h : entry ∈ ({ v with view := view, log := v.log ++ [new] } : FaultyVfs).window) :
    entry ∈ v.window ∨ entry = new := by
  rw [window, List.drop_append, List.mem_append] at h
  rcases h with h | h
  · exact Or.inl h
  · exact Or.inr (List.mem_singleton.mp (List.mem_of_mem_drop h))

/-- No write waits to be synced, and no failure is armed. -/
structure Idle (v : FaultyVfs) : Prop where
  armed : v.failSync = none
  window : ∀ entry ∈ v.window, ∃ len, entry = .setLen len

lemma window_close (v : FaultyVfs) (entry : LogEntry) (durable : List Byte)
    (failSync : Option (ℕ × List Fate)) :
    (v.close entry durable failSync).window = [] := by
  simp [window, close]

lemma syncAll_run {v : FaultyVfs} (failSync : Option (ℕ × List Fate))
    (h : ∀ entry ∈ v.window, entry.isSync = false) :
    ∃ durable, syncAll failSync v = .ok () (v.close .syncOk durable failSync) := by
  obtain ⟨durable, hd⟩ := applyWindow_isSome true v.durable [] h
  exact ⟨durable, by unfold syncAll; rw [hd]⟩

end FaultyVfs

instance : Reliable FaultyVfs where
  file v := v.view
  Same v v' := v' = v
  refl _ := rfl
  trans h h' := h'.trans h
  file_eq h := by rw [h]
  read v off len := by
    refine ⟨v, rfl, ?_⟩
    change (match readAt v.view off len with | some data => _ | none => _) = _
    cases readAt v.view off len with
    | some data => rfl
    | none => rfl
  len v := ⟨v, rfl, rfl⟩
  Idle := FaultyVfs.Idle
  idle_same h hv := by rwa [h]
  setLen v n := by
    refine ⟨_, rfl, rfl, fun hv => ⟨hv.armed, fun entry he => ?_⟩⟩
    rcases FaultyVfs.mem_window_append he with he | rfl
    · exact hv.window entry he
    · exact ⟨n, rfl⟩
  sync v hv := by
    obtain ⟨durable, hd⟩ := FaultyVfs.syncAll_run (v := v) none fun entry he => by
      obtain ⟨len, rfl⟩ := hv.window entry he
      rfl
    refine ⟨v.close .syncOk durable none, ?_, rfl, rfl, fun entry he => ?_⟩
    · change (match
        v.failSync with | some (0, fates) => _ | some (skip + 1, fates) => _ | none => _) = _
      rw [hv.armed]
      exact hd
    · rw [FaultyVfs.window_close] at he
      cases he
  write v off data hv := by
    have hover : v.window.any (FaultyVfs.overlaps off data) = false := by
      rw [List.any_eq_false]
      intro entry he
      obtain ⟨len, rfl⟩ := hv.window entry he
      simp [FaultyVfs.overlaps]
    let v₁ : FaultyVfs :=
      { v with view := writeAt v.view off data, log := v.log ++ [.write off data] }
    obtain ⟨durable, hd⟩ := FaultyVfs.syncAll_run (v := v₁) none fun entry he => by
      rcases FaultyVfs.mem_window_append he with he | rfl
      · obtain ⟨len, rfl⟩ := hv.window entry he
        rfl
      · rfl
    refine ⟨v₁, v₁.close .syncOk durable none, ?_, ?_, rfl, rfl, fun entry he => ?_⟩
    · change (if v.window.any (FaultyVfs.overlaps off data) = true then _ else _) = _
      rw [hover]
      rfl
    · change (match
        v.failSync with | some (0, fates) => _ | some (skip + 1, fates) => _ | none => _) = _
      rw [hv.armed]
      exact hd
    · rw [FaultyVfs.window_close] at he
      cases he

def parseRecord [Crc32Fast] (file : List Byte) (watermark offset : ℕ) :
    Except DiskError (DiskNode × ℕ) :=
  if offset < dataStart ∨ watermark - recordHeaderSize < offset then
    .error (.corruptNode offset (.header watermark))
  else
    match readAt file offset recordHeaderSize with
    | none => .error (.io .unexpectedEof)
    | some header =>
      let len := leNat (header.take 4)
      if watermark - (offset + recordHeaderSize) < len then .error
        (.corruptNode offset (.payload len watermark))
      else
        match readAt file (offset + recordHeaderSize) len with
        | none => .error (.io .unexpectedEof)
        | some payload =>
          if (Crc32Fast.hash payload).toNat ≠ leNat (header.drop 4) then
            .error (.corruptNode offset (.checksum (UInt32.ofNat (leNat (header.drop 4)))
              (Crc32Fast.hash payload)))
          else
            match decodeNode payload with
            | .error reason => .error (.corruptNode offset reason)
            | .ok node => .ok (node, payload.length)

/-- What a device reports, as the result of a store operation. -/
def reported {α V : Type} (s : DiskStore V) :
    Except DiskError α → EStateM.Result Fault (DiskStore V) α
  | .ok a => .ok a s
  | .error x => .error (.storage x) s

namespace DiskStore
variable {V : Type}

lemma onVfs_ok {α : Type} {m : EStateM Fault V α} {s : DiskStore V} {a : α} {v : V}
    (h : m s.vfs = .ok a v) :
    onVfs m s = .ok a { s with vfs := v } := by
  unfold onVfs
  rw [h]

lemma onVfs_error {α : Type} {m : EStateM Fault V α} {s : DiskStore V} {f : Fault} {v : V}
    (h : m s.vfs = .error f v) :
    onVfs m s = .error f { s with vfs := v } := by
  unfold onVfs
  rw [h]

/-- Exact reads give the record that is in the file, and no sum or difference on the way
overflows. -/
theorem readRecord_exact [Vfs V] [Crc32Fast] [ExactReads V] (s : DiskStore V) (offset : ℕ)
    (hw : s.watermark < 2 ^ 64) :
    ∃ v', ExactReads.Same s.vfs v' ∧ readRecord offset s =
      reported { s with vfs := v' } (parseRecord (ExactReads.file s.vfs) s.watermark offset) := by
  unfold readRecord parseRecord
  rw [run_get_bind]
  split_ifs with hout
  · exact ⟨s.vfs, ExactReads.refl _, rfl⟩
  obtain ⟨hlo, hhi⟩ := not_or.mp hout
  have hroom : offset + recordHeaderSize ≤ s.watermark := by
    have : dataStart = 8192 := rfl
    have : recordHeaderSize = 8 := rfl
    omega
  obtain ⟨v₁, hsame₁, hread₁⟩ := ExactReads.read s.vfs offset recordHeaderSize
  cases hheader : readAt (ExactReads.file s.vfs) offset recordHeaderSize with
  | none =>
    rw [hheader] at hread₁
    exact ⟨v₁, hsame₁, run_bind_error (onVfs_error hread₁)⟩
  | some header =>
    rw [hheader] at hread₁
    have hadd : (checkedAdd offset recordHeaderSize : Act V ℕ) { s with vfs := v₁ } =
        .ok (offset + recordHeaderSize) { s with vfs := v₁ } := by
      unfold checkedAdd
      rw [if_pos (by omega)]
      rfl
    have hsub : (checkedSub s.watermark (offset + recordHeaderSize) : Act V ℕ)
      { s with vfs := v₁ } =
        .ok (s.watermark - (offset + recordHeaderSize)) { s with vfs := v₁ } := by
      unfold checkedSub
      rw [if_pos hroom]
      rfl
    rw [run_bind_ok (onVfs_ok hread₁), run_bind_ok hadd, run_bind_ok hsub]
    dsimp only
    split_ifs with hlen
    · exact ⟨v₁, hsame₁, rfl⟩
    obtain ⟨v₂, hsame₂, hread₂⟩ := ExactReads.read v₁ (offset + recordHeaderSize)
      (leNat (header.take 4))
    rw [ExactReads.file_eq hsame₁] at hread₂
    refine ⟨v₂, ExactReads.trans hsame₁ hsame₂, ?_⟩
    cases hpayload : readAt (ExactReads.file s.vfs) (offset + recordHeaderSize)
      (leNat (header.take 4)) with
    | none =>
      rw [hpayload] at hread₂
      exact run_bind_error (onVfs_error hread₂)
    | some payload =>
      rw [hpayload] at hread₂
      have hpay :
        (onVfs (Vfs.readExactAt (offset + recordHeaderSize) (leNat (header.take 4))) : Act V _)
          { s with vfs := v₁ } = .ok payload { s with vfs := v₂ } := onVfs_ok hread₂
      rw [run_bind_ok hpay]
      dsimp only
      split_ifs
      · rfl
      · cases decodeNode payload <;> rfl

end DiskStore
end Beetree
