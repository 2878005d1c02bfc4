import Beetree.CrashModel
import Beetree.Durable

/-! What a device may hold after a crash.

A commit first appends the records and syncs, and then writes one superblock slot and syncs.
Whatever is lost of it on the way, one of the published states is left. -/
namespace Beetree

/-- A file whose beginning is that of another. -/
structure Agrees (w : ℕ) (file file' : List Byte) : Prop where
  length : w ≤ file'.length
  bytes : ∀ i < w, file'[i]? = file[i]?

section Agrees
variable {w : ℕ} {file file' file'' : List Byte}

lemma Agrees.refl (h : w ≤ file.length) : Agrees w file file := ⟨h, fun _ _ => rfl⟩

lemma Agrees.trans (h : Agrees w file file') (h' : Agrees w file' file'') : Agrees w file file'' :=
  ⟨h'.length, fun i hi => (h'.bytes i hi).trans (h.bytes i hi)⟩

lemma Agrees.symm (h : Agrees w file file') (hlen : w ≤ file.length) : Agrees w file' file :=
  ⟨hlen, fun i hi => (h.bytes i hi).symm⟩

lemma Agrees.sameData (h : Agrees w file file') {w' : ℕ} (hw : w' ≤ w) : SameData w' file file' :=
  ⟨hw.trans h.length, fun i _ hi => h.bytes i (by omega)⟩

lemma agrees_writeAt (hlen : w ≤ file.length) {off : ℕ} (hoff : w ≤ off) (data : List Byte) :
    Agrees w file (writeAt file off data) := by
  refine ⟨?_, fun i hi => writeAt_getElem? _ _ _ (by omega) (Or.inl (by omega))⟩
  rw [writeAt_length]
  omega

lemma agrees_appended (hlen : w ≤ file.length) (buf : List Byte) :
    Agrees w file (if buf.isEmpty then file else writeAt file w buf) := by
  split_ifs
  · exact .refl hlen
  · exact agrees_writeAt hlen le_rfl buf

lemma agrees_resize (hlen : w ≤ file.length) {n : ℕ} (hn : w ≤ n) : Agrees w file (resize file n) :=
  ⟨by rwa [resize_length], fun i hi => resize_getElem? _ _ _ (by omega) (by omega)⟩

variable [Crc32Fast] {sb : Superblock} {r : Record} {prev : Option (Superblock × Record)}

lemma Agrees.slotStatus (h : Agrees w file file') (hlen : w ≤ file.length)
    (hw : dataStart ≤ w) (g : ℕ) :
    slotStatus file' (superblockSlot g) = slotStatus file (superblockSlot g) := by
  have hslot := superblockSlot_le g
  have hlen' := h.length
  exact slotStatus_congr (by omega) (by omega) fun i _ hi => h.bytes i (by omega)

/-- What the slots say and what lies below the watermark is all that matters. -/
lemma Durable.congr (h : Durable file sb r prev) (hd : SameData sb.watermark.toNat file file')
    (hslot : ∀ g, slotStatus file' (superblockSlot g) = slotStatus file (superblockSlot g)) :
    Durable file' sb r prev := by
  refine ⟨by rw [hslot]; exact h.slot, h.stands.sameData hd, ?_⟩
  cases h.backup with
  | none hinv => exact .none (by rw [hslot]; exact hinv)
  | some hg hp hle hvalid hstands =>
    exact .some hg hp hle (by rw [hslot]; exact hvalid) (hstands.sameData (hd.mono hle))

lemma Durable.agrees (h : Durable file sb r prev) (ha : Agrees sb.watermark.toNat file file') :
    Durable file' sb r prev :=
  h.congr (ha.sameData le_rfl) (ha.slotStatus h.stands.length h.stands.sane.1)

end Agrees

/-- An operation that leaves the beginning of the file alone. -/
def LogEntry.Above (w : ℕ) : LogEntry → Prop
  | write off _ => w ≤ off
  | setLen n => w ≤ n
  | _ => False

section Windows
variable {w : ℕ} {buf img : List Byte} {window : List LogEntry} {fates : List Fate} {all : Bool}

lemma LogEntry.Above.apply {entry : LogEntry} {fate : Fate} (h : entry.Above w)
    (hlen : w ≤ buf.length)
    (ha : entry.apply buf fate = some img) : Agrees w buf img := by
  cases entry with
  | write off data =>
    rw [LogEntry.apply_write] at ha
    cases hl : fate.land data with
    | none =>
      rw [hl] at ha
      cases ha
      exact .refl hlen
    | some landed =>
      rw [hl] at ha
      cases ha
      exact agrees_writeAt hlen h landed
  | setLen n =>
    unfold LogEntry.apply at ha
    dsimp only at ha
    split_ifs at ha
    · cases ha
      exact .refl hlen
    · cases ha
      exact agrees_resize hlen h
  | syncOk => cases h
  | syncFailed _ => cases h

lemma applyWindow_agrees (h : ∀ entry ∈ window, entry.Above w) (hlen : w ≤ buf.length)
    (ha : applyWindow all buf window fates = some img) : Agrees w buf img := by
  induction window generalizing buf fates with
  | nil =>
    cases ha
    exact .refl hlen
  | cons entry window ih =>
    rw [applyWindow] at ha
    obtain ⟨buf₁, h₁, ha⟩ := Option.bind_eq_some_iff.mp ha
    have hone := (h entry (by simp)).apply hlen h₁
    exact hone.trans (ih (fun e he => h e (by simp [he])) hone.length ha)

lemma applyWindow_append (buf : List Byte) (window : List LogEntry) (entry : LogEntry) :
    applyWindow true buf (window ++ [entry]) [] = applyWindow true buf window [] >>= fun b =>
    entry.apply b .apply := by
  induction window generalizing buf with
  | nil => simp [applyWindow]
  | cons x window ih =>
    rw [List.cons_append, applyWindow, applyWindow, bind_assoc]
    exact bind_congr fun b => ih b

lemma applyWindow_whole (buf : List Byte) (window : List LogEntry) :
    applyWindow false buf window [] = applyWindow true buf window [] := by
  induction window generalizing buf with
  | nil => rfl
  | cons x window ih =>
    rw [applyWindow, applyWindow]
    exact bind_congr fun b => ih b

end Windows

section Interrupted
variable [Crc32Fast] {sb sb' : Superblock} {r r' : Record} {prev : Option (Superblock × Record)}
    {before file file' img : List Byte}

/-- No slot passes for a superblock that was not written whole. -/
def Unforged (before after img : List Byte) : Prop :=
  ∀ g, slotStatus img (superblockSlot g) = .invalid ∨
    slotStatus img (superblockSlot g) = slotStatus before (superblockSlot g) ∨
    slotStatus img (superblockSlot g) = slotStatus after (superblockSlot g)

/-- What may be left where a commit was interrupted: the state before, perhaps without its backup,
or the state it was to publish. -/
inductive Remains (sb : Superblock) (r : Record) (prev : Option (Superblock × Record))
    (sb' : Superblock) (r' : Record)
    (img : List Byte) : Prop
  | old : Durable img sb r prev → Remains sb r prev sb' r' img
  | alone : Durable img sb r none → Remains sb r prev sb' r' img
  | new : Durable img sb' r' (some (sb, r)) → Remains sb r prev sb' r' img

omit [Crc32Fast] in
lemma superblockSlot_cases (g n : ℕ) : superblockSlot g = superblockSlot n ∨
    superblockSlot g = superblockSlot (n + 1) := by
  unfold superblockSlot superblockSlotSize
  omega

/-- A slot that was being written is lost, or as it was, or as it was to be. -/
theorem Durable.interrupted (h : Durable file sb r prev)
    (hnew : Durable file' sb' r' (some (sb, r)))
    (hwm : sb'.watermark.toNat ≤ file.length)
    (hfile : Beside file file' (superblockSlot (sb.generation.toNat + 1)))
    (himg : Beside file img (superblockSlot (sb.generation.toNat + 1)))
    (hU : Unforged before file' img)
    (hbefore : ∀ g, slotStatus before (superblockSlot g) = slotStatus file (superblockSlot g)) :
    Remains sb r prev sb' r' img := by
  have hdata : dataStart ≤ file.length := h.stands.sane.1.trans h.stands.length
  have hother := himg.slotStatus hdata
  have hother' := hfile.slotStatus hdata
  rcases hU (sb.generation.toNat + 1) with hlost | hold | hwritten
  · exact .alone (h.scratched ⟨himg, hlost⟩)
  · refine .old (h.congr (himg.sameData h.stands.length) fun g => ?_)
    rcases superblockSlot_cases g sb.generation.toNat with hg | hg
    · rw [hg, hother]
    · rw [hg, hold, hbefore]
  · refine .new (hnew.congr ⟨himg.length ▸ hwm, fun i hi hlt => ?_⟩ fun g => ?_)
    · have hslot := superblockSlot_le (sb.generation.toNat + 1)
      rw [himg.same i (Or.inr (by omega)), hfile.same i (Or.inr (by omega))]
    · rcases superblockSlot_cases g sb.generation.toNat with hg | hg
      · rw [hg, hother, hother']
      · rw [hg, hwritten]

omit [Crc32Fast] in
lemma beside_write {g : ℕ} {slot : List Byte} {fate : Fate} (hlen : dataStart ≤ file.length)
    (hslot : slot.length = superblockSlotSize)
    (h : (LogEntry.write (superblockSlot g) slot).apply file fate = some img) :
    Beside file img (superblockSlot g) := by
  have hle := superblockSlot_le g
  rw [LogEntry.apply_write] at h
  cases hl : fate.land slot with
  | none =>
    rw [hl] at h
    cases h
    exact ⟨rfl, fun _ _ => rfl⟩
  | some landed =>
    have hlanded := Fate.land_length hl
    rw [hl] at h
    cases h
    refine ⟨?_, fun i hi => ?_⟩
    · rw [Option.elim_some, writeAt_length]
      omega
    · by_cases hin : i < file.length
      · exact writeAt_getElem? _ _ _ hin (by omega)
      · rw [Option.elim_some, List.getElem?_eq_none (by rw [writeAt_length]; omega),
          List.getElem?_eq_none (by omega)]

end Interrupted

namespace FaultyVfs
variable {v v₀ v' : FaultyVfs} {P : List Byte → Prop}

def Wreck (v : FaultyVfs) (img : List Byte) :
    Prop := ∃ fates, applyWindow false v.durable v.window fates = some img

/-- No write has been lost so far: what is read is what will be durable once it is synced. -/
structure Faithful (v : FaultyVfs) : Prop extends Consistent v where
  view : applyWindow true v.durable v.window [] = some v.view

lemma faithful_fromImage (image : List Byte) : (fromImage image).Faithful :=
    ⟨consistent_fromImage image, rfl⟩

lemma Faithful.durable_eq (hv : v.Faithful) (hw : v.window = []) : v.durable = v.view := by
  have := hv.view
  rw [hw] at this
  exact Option.some.inj this

lemma Faithful.wreck_view (hv : v.Faithful) :
    v.Wreck v.view := ⟨[], by rw [applyWindow_whole, hv.view]⟩

lemma Consistent.crashImageAt (hv : v.Consistent) (fates : List Fate) :
    v.crashImageAt v.log.length fates = applyWindow false v.durable v.window fates := by
  unfold FaultyVfs.crashImageAt
  rw [if_pos le_rfl, List.take_length, hv.replayed]
  rfl

/-- Whenever the power goes between one moment and another, what is left is as `P` says. -/
structure Survives (P : List Byte → Prop) (v v' : FaultyVfs) : Prop where
  consistent : v'.Consistent
  initial : v'.initial = v.initial
  log : v.log <+: v'.log
  images : ∀ pos, v.log.length ≤ pos → pos ≤ v'.log.length →
    ∀ fates img, v'.crashImageAt pos fates = some img → P img

lemma Survives.refl (hv : v.Consistent) (hP : ∀ img, v.Wreck img → P img) : Survives P v v where
  consistent := hv
  initial := rfl
  log := List.prefix_rfl
  images pos hlo hhi fates img himg := by
    obtain rfl : pos = v.log.length := by omega
    rw [hv.crashImageAt] at himg
    exact hP img ⟨fates, himg⟩

lemma Survives.mono {P' : List Byte → Prop} (h : Survives P v v') (hP : ∀ img, P img → P' img) :
    Survives P' v v' :=
  ⟨h.consistent, h.initial, h.log, fun pos hlo hhi fates img himg => hP img
    (h.images pos hlo hhi fates img himg)⟩

lemma Survives.step (h : Survives P v₀ v) (hv : v'.Consistent) (hinit : v'.initial = v.initial)
    {entry : LogEntry}
    (hlog : v'.log = v.log ++ [entry]) (hP : ∀ img, v'.Wreck img → P img) : Survives P v₀ v' where
  consistent := hv
  initial := hinit.trans h.initial
  log := hlog ▸ h.log.trans (List.prefix_append _ _)
  images pos hlo hhi fates img himg := by
    have hlen : v'.log.length = v.log.length + 1 := by simp [hlog]
    by_cases hpos : pos ≤ v.log.length
    · have htake : v'.log.take pos = v.log.take pos := by
        rw [hlog, List.take_append_of_le_length hpos]
      rw [crashImageAt_congr fates hinit hpos hhi htake] at himg
      exact h.images pos hlo hpos fates img himg
    · obtain rfl : pos = v'.log.length := by omega
      rw [hv.crashImageAt] at himg
      exact hP img ⟨fates, himg⟩

/-- Waiting writes become durable, or a failed sync leaves what a crash might have. -/
lemma Faithful.sync_survives (hv : v.Faithful) (hs : Survives P v₀ v)
    (hP : ∀ img, v.Wreck img → P img) :
    Ends Vfs.sync v (fun _ v' => v'.Faithful ∧ v'.window = [] ∧ v'.view = v.view ∧ Survives P v₀ v')
      fun _ v' => v'.view = v.view ∧ Survives P v₀ v' := by
  have hok : ∀ fs, Ends (syncAll fs) v (fun _ v' => v'.Faithful ∧ v'.window = [] ∧
    v'.view = v.view ∧ Survives P v₀ v')
      fun _ v' => v'.view = v.view ∧ Survives P v₀ v' := by
    intro fs
    have hrun : syncAll fs v = .ok () (v.close .syncOk v.view fs) := by
      unfold syncAll
      rw [hv.view]
    have hclosed : (v.close .syncOk v.view fs).Consistent := by
      refine hv.toConsistent.closed fs ?_
      rw [replay, hv.view]
      rfl
    refine .of_ok hrun ⟨⟨hclosed, ?_⟩, window_close _ _ _ _, rfl, hs.step hclosed rfl rfl ?_⟩
    · rw [window_close]
      rfl
    · rintro img ⟨fates, himg⟩
      rw [window_close] at himg
      cases himg
      exact hP _ hv.wreck_view
  have hsync : ∀ fs, Vfs.sync v = syncAll fs v → Ends Vfs.sync v
      (fun _ v' => v'.Faithful ∧ v'.window = [] ∧ v'.view = v.view ∧ Survives P v₀ v')
      fun _ v' => v'.view = v.view ∧ Survives P v₀ v' := by
    intro fs heq
    unfold Ends
    rw [heq]
    exact hok fs
  cases hf : v.failSync with
  | none => exact hsync none (by simp only [Vfs.sync, hf])
  | some armed =>
    obtain ⟨skip, fates⟩ := armed
    cases skip with
    | succ skip => exact hsync (some (skip, fates)) (by simp only [Vfs.sync, hf])
    | zero =>
      obtain ⟨durable, hd⟩ := applyWindow_isSome false v.durable fates hv.unsynced
      have hrun : Vfs.sync v = .error (.storage (.io .syncFailure))
        (v.close (.syncFailed fates) durable none) := by
        simp only [Vfs.sync, hf, hd]
      have hclosed : (v.close (.syncFailed fates) durable none).Consistent := by
        refine hv.toConsistent.closed none ?_
        rw [replay, hd]
        rfl
      refine .of_error hrun ⟨rfl, hs.step hclosed rfl rfl ?_⟩
      rintro img ⟨fates', himg⟩
      rw [window_close] at himg
      cases himg
      exact hP _ ⟨fates, hd⟩

lemma Faithful.write_survives (hv : v.Faithful) (hs : Survives P v₀ v) {off : ℕ} {data : List Byte}
    (hover : v.window.any (overlaps off data) = false)
    (hP : ∀ fates img, applyWindow false v.durable (v.window ++ [.write off data]) fates =
      some img → P img) :
    Ends (do Vfs.writeAllAt off data; Vfs.sync) v
      (fun _ v' => v'.Faithful ∧ v'.window = [] ∧ v'.view = writeAt v.view off data ∧
        Survives P v₀ v')
      fun _ v' => v'.view = writeAt v.view off data ∧ Survives P v₀ v' := by
  let v₁ : FaultyVfs :=
    { v with view := writeAt v.view off data, log := v.log ++ [.write off data] }
  have hrun : Vfs.writeAllAt off data v = .ok () v₁ := by
    simp only [Vfs.writeAllAt, hover]
    rfl
  have hwindow : v₁.window = v.window ++ [.write off data] := List.drop_append_of_le_length hv.start
  have hv₁ : v₁.Faithful := by
    refine ⟨hv.toConsistent.logged rfl _, ?_⟩
    rw [hwindow, applyWindow_append]
    change (applyWindow true v.durable v.window [] >>= _) = _
    rw [hv.view]
    rfl
  have hP₁ : ∀ img, v₁.Wreck img → P img := by
    rintro img ⟨fates, himg⟩
    rw [hwindow] at himg
    exact hP fates img himg
  exact .after hrun (hv₁.sync_survives (hs.step hv₁.toConsistent rfl rfl hP₁) hP₁)

end FaultyVfs
end Beetree
