import Beetree.History
import Beetree.Wreck

/-! The store on a device that loses what is not synced.

Whenever the power goes, the file that is left opens, and what it opens to is the version that was
committed last or the one that was being committed. -/
namespace Beetree

section Lts
variable {σ τ ℓ : Type*}

/-- The steps of a system one after the other, with their labels. -/
inductive Path (step : σ → ℓ → σ → Prop) (s : σ) : List ℓ → σ → Prop
  | nil : Path step s [] s
  | snoc {labels : List ℓ} {s₁ s' : σ} {l : ℓ} : Path step s labels s₁ → step s₁ l s' →
    Path step s (labels ++ [l]) s'

/-- Every step of a system is one of another, as far as `R` relates their states. -/
def Simulates (step : σ → ℓ → σ → Prop) (step' : τ → ℓ → τ → Prop) (R : σ → τ → Prop) : Prop :=
  ∀ ⦃s m l s'⦄, R s m → step s l s' → ∃ m', step' m l m' ∧ R s' m'

variable {step : σ → ℓ → σ → Prop} {step' : τ → ℓ → τ → Prop} {R : σ → τ → Prop} {s s₁ s' : σ}
    {m : τ} {l : ℓ} {labels : List ℓ}

lemma Path.cons (h : step s l s₁) (hp : Path step s₁ labels s') : Path step s (l :: labels) s' := by
  induction hp with
  | nil => exact Path.nil.snoc h
  | snoc _ hstep ih => exact ih.snoc hstep

lemma Path.eq_of_nil {all : List ℓ} (hp : Path step s all s') (hall : all = []) : s' = s := by
  cases hp with
  | nil => rfl
  | snoc => simp at hall

lemma Path.uncons {all : List ℓ} (hp : Path step s all s') (hall : all = l :: labels) :
    ∃ s₁, step s l s₁ ∧ Path step s₁ labels s' := by
  induction hp generalizing labels with
  | nil => cases hall
  | @snoc before s₁ s' l' hp hstep ih =>
    rcases before with _ | ⟨l₀, before⟩
    · cases hall
      rw [hp.eq_of_nil rfl] at hstep
      exact ⟨s', hstep, .nil⟩
    · cases hall
      obtain ⟨s₂, hfirst, hrest⟩ := ih rfl
      exact ⟨s₂, hfirst, hrest.snoc hstep⟩

/-- Whatever is seen of the one system can be seen of the other. -/
theorem Path.simulated (hS : Simulates step step' R) (hR : R s m) (hp : Path step s labels s') :
    ∃ m', Path step' m labels m' ∧ R s' m' := by
  induction hp with
  | nil => exact ⟨m, .nil, hR⟩
  | snoc _ hstep ih =>
    obtain ⟨m₁, hpath, hR₁⟩ := ih
    obtain ⟨m', hstep', hR'⟩ := hS hR₁ hstep
    exact ⟨m', hpath.snoc hstep', hR'⟩

end Lts

namespace FaultyVfs
variable {v : FaultyVfs} {w : ℕ}

lemma Quiet.clear (hq : v.Quiet) (off : ℕ) (data : List Byte) :
    v.window.any (overlaps off data) = false := by
  rw [List.any_eq_false]
  intro entry he
  obtain ⟨len, rfl⟩ := hq entry he
  simp [overlaps]

lemma quiet_fromImage (img : List Byte) : (fromImage img).Quiet := by
  simp [Quiet, window, fromImage]

structure Calm (v : FaultyVfs) (w : ℕ) : Prop extends Faithful v where
  length : w ≤ v.durable.length
  above : ∀ entry ∈ v.window, entry.Above w

lemma Calm.wreck (hv : v.Calm w) {img : List Byte} (h : v.Wreck img) : Agrees w v.durable img := by
  obtain ⟨fates, himg⟩ := h
  exact applyWindow_agrees hv.above hv.length himg

lemma Calm.agrees (hv : v.Calm w) {img : List Byte} (h : Agrees w v.durable img) :
    Agrees w v.view img :=
  ((applyWindow_agrees hv.above hv.length hv.view).symm hv.length).trans h

lemma Faithful.calm (hv : v.Faithful) (hw : v.window = []) (hlen : w ≤ v.view.length) : v.Calm w :=
  ⟨hv, by rw [hv.durable_eq hw]; exact hlen, by simp [hw]⟩

lemma Calm.setLen (hv : v.Calm w) :
    ({ v with view := resize v.view w, log := v.log ++ [.setLen w] } : FaultyVfs).Calm w := by
  have hwindow :
    ({ v with view := resize v.view w, log := v.log ++ [.setLen w] } : FaultyVfs).window =
      v.window ++ [.setLen w] :=
    List.drop_append_of_le_length hv.start
  refine ⟨⟨hv.toConsistent.logged rfl _, ?_⟩, hv.length, fun entry he => ?_⟩
  · rw [hwindow, applyWindow_append]
    change (applyWindow true v.durable v.window [] >>= _) = _
    rw [hv.view]
    rfl
  · rw [hwindow] at he
    rcases List.mem_append.mp he with he | he
    · exact hv.above entry he
    · rw [List.mem_singleton.mp he]
      exact le_refl w

lemma Calm.failNthSync (hv : v.Calm w) (skip : ℕ) (fates : List Fate) :
    (v.failNthSync skip fates).Calm w :=
  ⟨⟨⟨hv.replayed, hv.unsynced, hv.start⟩, hv.view⟩, hv.length, hv.above⟩

end FaultyVfs

lemma device_faulty [Crc32Fast] :
    Device (fun v : FaultyVfs => v.view) Eq FaultyVfs.Quiet Fault.IsStorage where
  refl _ := rfl
  trans := Eq.trans
  file_eq h := by rw [h]
  read s offset node len hw hp := by
    obtain ⟨v', rfl, hread | ⟨_, _, hf⟩⟩ := recordReads_exact.read s offset node len hw hp
    · exact ⟨_, rfl, Or.inl hread⟩
    · exact hf.elim
  idle_same h hv := h ▸ hv
  sync v hv := (Honest.sync v hv).mono (fun _ _ h => h) fun _ _ h => Honest.storage h
  write v off data hv := (Honest.write v off data hv).mono (fun _ _ h => h) fun _ _ h =>
    Honest.storage h

section Publish
variable [Crc32Fast] {d : DiskStore FaultyVfs} {v₀ : FaultyVfs} {P : List Byte → Prop}
    {batch : DiskStore.Batch} {root : NodeId}
  {rootOffset base : ℕ}
open DiskStore (newSuperblock ends_onVfs ends_checkedAdd)

/-- Writing the superblock, whatever comes of it. -/
lemma DiskStore.publishRoot_survives (hv : d.vfs.Faithful) (hw : d.vfs.window = [])
    (hs : FaultyVfs.Survives P v₀ d.vfs) (params : Params)
    (nextSeq : UInt64) (hroot : d.resolveOffset batch.assigned root = some rootOffset)
    (hslot : base + batch.buf.length < 2 ^ 64 →
      ∀ fate img, (LogEntry.write (superblockSlot d.nextGeneration)
      (newSuperblock params nextSeq d.nextGeneration rootOffset
        (base + batch.buf.length)).encodeSlot).apply d.vfs.view fate =
        some img → P img) :
    Ends (publishRoot params nextSeq root batch base) d
      (fun _ d' => d'.vfs.Faithful ∧ d'.vfs.window = [] ∧
        d'.vfs.view = writeAt d.vfs.view (superblockSlot d.nextGeneration)
        (newSuperblock params nextSeq d.nextGeneration rootOffset
          (base + batch.buf.length)).encodeSlot ∧
        FaultyVfs.Survives P v₀ d'.vfs)
      fun _ d' =>
      (d'.vfs.view = d.vfs.view ∨ d'.vfs.view = writeAt d.vfs.view (superblockSlot d.nextGeneration)
        (newSuperblock params nextSeq d.nextGeneration rootOffset
          (base + batch.buf.length)).encodeSlot) ∧
        FaultyVfs.Survives P v₀ d'.vfs := by
  unfold publishRoot
  refine Ends.bind (Q := fun w d' => (base + batch.buf.length < 2 ^ 64 ∧
    w = base + batch.buf.length) ∧ d' = d)
    (ends_checkedAdd (fun hlt => ⟨⟨hlt, rfl⟩, rfl⟩) fun _ => ⟨Or.inl rfl, hs⟩) ?_
  rintro w d₀ ⟨⟨hlt, rfl⟩, hd₀⟩
  rw [hd₀]
  refine Ends.bind (Q := fun s d' => s = d ∧ d' = d) (.of_ok rfl ⟨rfl, rfl⟩) ?_
  rintro s d₁ ⟨hs₁, hd₁⟩
  rw [hs₁, hd₁, hroot]
  dsimp only
  have hclear : d.vfs.window.any (FaultyVfs.overlaps (superblockSlot d.nextGeneration)
      (newSuperblock params nextSeq d.nextGeneration rootOffset
        (base + batch.buf.length)).encodeSlot) = false := by
    rw [hw]
    rfl
  have hwrite := hv.write_survives hs hclear fun fates img himg => by
    rw [hw, List.nil_append, applyWindow, hv.durable_eq hw] at himg
    obtain ⟨img', himg', h⟩ := Option.bind_eq_some_iff.mp himg
    cases h
    exact hslot hlt _ _ himg'
  refine Ends.bind ((ends_onVfs hwrite).mono (fun _ _ h => h.1)
    fun f d' h => ⟨Or.inr h.1.1, h.1.2⟩) ?_
  rintro - d₂ ⟨hv₂, hw₂, hview₂, hs₂⟩
  refine Ends.bind (Q := fun g d' => d' = d₂)
    (ends_checkedAdd (fun _ => rfl) fun _ => ⟨Or.inr hview₂, hs₂⟩) ?_
  rintro g d₃ rfl
  exact .of_ok rfl ⟨hv₂, hw₂, hview₂, hs₂⟩

/-- Publishing, whatever comes of it: first the records, which are nothing without the superblock,
and then that. -/
theorem DiskStore.publish_survives (hv : d.vfs.Faithful) (hq : d.vfs.Quiet) (params : Params)
    (nextSeq : UInt64)
    (hroot : d.resolveOffset batch.assigned root = some rootOffset)
    (hwreck : ∀ img, d.vfs.Wreck img → P img)
    (hbuf : ∀ fates img, applyWindow false d.vfs.durable
      (d.vfs.window ++ [.write d.watermark batch.buf]) fates = some img → P img)
    (hslot : d.watermark + batch.buf.length < 2 ^ 64 →
      ∀ fate img, (LogEntry.write (superblockSlot d.nextGeneration)
      (newSuperblock params nextSeq d.nextGeneration rootOffset
        (d.watermark + batch.buf.length)).encodeSlot).apply
        (if batch.buf.isEmpty then d.vfs.view else writeAt d.vfs.view d.watermark batch.buf) fate =
          some img → P img) :
    Ends (publish params nextSeq root batch) d
      (fun _ d' => d'.vfs.Faithful ∧ d'.vfs.window = [] ∧
        d'.vfs.view = published d.vfs.view d.watermark batch.buf d.nextGeneration
        (newSuperblock params nextSeq d.nextGeneration rootOffset
          (d.watermark + batch.buf.length)) ∧
        FaultyVfs.Survives P d.vfs d'.vfs)
      fun _ d' =>
      (d'.vfs.view = (if batch.buf.isEmpty then d.vfs.view
        else writeAt d.vfs.view d.watermark batch.buf) ∨
        d'.vfs.view = published d.vfs.view d.watermark batch.buf d.nextGeneration
          (newSuperblock params nextSeq d.nextGeneration rootOffset
            (d.watermark + batch.buf.length))) ∧
        FaultyVfs.Survives P d.vfs d'.vfs := by
  have hs : FaultyVfs.Survives P d.vfs d.vfs := .refl hv.toConsistent hwreck
  have hrecords :
    Ends (if batch.buf.isEmpty then Vfs.sync else do Vfs.writeAllAt d.watermark batch.buf; Vfs.sync)
      d.vfs
      (fun _ v => v.Faithful ∧ v.window = [] ∧
        v.view = (if batch.buf.isEmpty then d.vfs.view
          else writeAt d.vfs.view d.watermark batch.buf) ∧
        FaultyVfs.Survives P d.vfs v)
      fun _ v =>
        v.view = (if batch.buf.isEmpty then d.vfs.view
          else writeAt d.vfs.view d.watermark batch.buf) ∧
        FaultyVfs.Survives P d.vfs v := by
    split_ifs
    · exact hv.sync_survives hs hwreck
    · exact hv.write_survives hs (hq.clear _ _) hbuf
  unfold Ends
  rw [publish_eq]
  refine Ends.bind ((ends_onVfs hrecords).mono (fun _ _ h => h)
    fun f d' h => ⟨Or.inl h.1.1, h.1.2⟩) ?_
  rintro - d₁ ⟨⟨hv₁, hw₁, hview₁, hs₁⟩, hd₁⟩
  have hroot₁ : d₁.resolveOffset batch.assigned root = some rootOffset := by
    rw [hd₁]
    exact hroot
  have hg : d₁.nextGeneration = d.nextGeneration := by rw [hd₁]
  rw [← hg, ← hview₁] at hslot
  refine (publishRoot_survives hv₁ hw₁ hs₁ params nextSeq hroot₁ hslot).mono ?_ ?_
  · rintro - d' ⟨hv', hw', hview', hs'⟩
    refine ⟨hv', hw', ?_, hs'⟩
    rw [hview', hview₁, hg]
    rfl
  · rintro - d' ⟨hview', hs'⟩
    refine ⟨hview'.imp (fun h => h.trans hview₁) fun h => ?_, hs'⟩
    rw [h, hview₁, hg]
    rfl

end Publish

/-- What may be left of a store whose commit was cut short. The slot that was being written may be
lost. -/
inductive KvStore.Cut (m : KvStore) : KvStore → Prop
  | old : Cut m m
  | alone : Cut m { m with previous := none }
  | new : Cut m m.commit

section Commit
variable [Crc32Fast] {π : Type} {r r' : DiskEngine π FaultyVfs} {e : Engine π Ideal} {h : ℕ}
    {t : Live h} {sb : Superblock}
  {D : Record} {prev : Option (Superblock × Record)}
open DiskStore (newSuperblock)

/-- A file that a crash may leave of a commit. -/
def Relic (m : KvStore) (before after img : List Byte) : Prop := Unforged before after img →
    ∃ m', m.Cut m' ∧ Saves img m'

lemma Sits.remains (hs : Sits (fun v => v.view) FaultyVfs.Quiet r e t sb D prev)
    (batch : DiskStore.Batch) {img : List Byte}
    (hr : Remains sb D prev (DiskEngine.Published e t r batch).1
      (DiskEngine.Published e t r batch).2 img) :
    ∃ m', (KvStore.of e t sb D prev).Cut m' ∧ Saves img m' := by
  cases hr with
  | old hd => exact ⟨_, .old, sb, D, prev, hd, rfl, rfl, rfl⟩
  | alone hd => exact ⟨_, .alone, sb, D, none, hd, rfl, rfl, rfl⟩
  | new hd => exact ⟨_, .new, _, _, _, hd, hs.params.symm, (hs.version batch).symm, rfl⟩

/-- Writing the superblock, whatever part of it lands. -/
lemma Sits.torn (hs : Sits (fun v => v.view) FaultyVfs.Quiet r e t sb D prev)
    {batch : DiskStore.Batch} {fate : Fate} {img : List Byte}
    (hb : Batched e.store t r.store.watermark batch)
    (h64 : r.store.watermark + batch.buf.length < 2 ^ 64)
    (himg : (LogEntry.write (superblockSlot r.store.nextGeneration)
      (DiskEngine.Published e t r batch).1.encodeSlot).apply
      (if batch.buf.isEmpty then r.store.vfs.view else writeAt r.store.vfs.view r.store.watermark
        batch.buf) fate = some img)
    (hU : Unforged r.store.vfs.view (Beetree.published r.store.vfs.view r.store.watermark batch.buf
      r.store.nextGeneration
      (DiskEngine.Published e t r batch).1) img) :
    Remains sb D prev (DiskEngine.Published e t r batch).1
      (DiskEngine.Published e t r batch).2 img := by
  have hw : r.store.watermark = sb.watermark.toNat := hs.watermark
  have hlen : r.store.watermark ≤ r.store.vfs.view.length := hw ▸ hs.durable.stands.length
  have hbase : dataStart ≤ r.store.watermark := hw ▸ hs.durable.stands.sane.1
  have hreach : Reaches r.store.vfs.view r.store.watermark batch.buf := Or.inl hlen
  have happ := appended_length hreach
  have hagrees := agrees_appended hlen batch.buf
  have hslot : dataStart ≤ (if batch.buf.isEmpty then r.store.vfs.view else
      writeAt r.store.vfs.view r.store.watermark batch.buf).length := by omega
  have hwm :
    (DiskEngine.Published e t r batch).1.watermark.toNat = r.store.watermark + batch.buf.length :=
    UInt64.toNat_ofNat_of_lt' h64
  have hgen : (DiskEngine.Published e t r batch).1.generation.toNat = sb.generation.toNat + 1 :=
    (UInt64.toNat_ofNat_of_lt' hs.fits).trans hs.nextGeneration
  rw [hs.nextGeneration] at himg hU
  have hnew :
    Durable (Beetree.published r.store.vfs.view r.store.watermark batch.buf
      (sb.generation.toNat + 1)
      (DiskEngine.Published e t r batch).1) (DiskEngine.Published e t r batch).1
        (DiskEngine.Published e t r batch).2 (some (sb, D)) :=
    hs.durable.published ⟨rfl, rfl⟩ hgen hs.params.symm (by omega) (by rw [← hw])
      (hs.toFollows.stands_published hb hbase hreach h64 _ _)
  have hall :
    (LogEntry.write (superblockSlot (sb.generation.toNat + 1))
      (DiskEngine.Published e t r batch).1.encodeSlot).apply
      (if batch.buf.isEmpty then r.store.vfs.view else writeAt r.store.vfs.view r.store.watermark
        batch.buf) .apply =
      some (Beetree.published r.store.vfs.view r.store.watermark batch.buf (sb.generation.toNat + 1)
        (DiskEngine.Published e t r batch).1) := LogEntry.apply_write _ _ _ _
  exact (hs.durable.agrees (hw ▸ hagrees)).interrupted hnew (hwm ▸ happ)
    (beside_write hslot (DiskEngine.Published e t r batch).1.encodeSlot_length hall)
    (beside_write hslot (DiskEngine.Published e t r batch).1.encodeSlot_length himg) hU fun g =>
      (hagrees.slotStatus hlen hbase g).symm

/-- Whatever is lost of a commit, a version is left. -/
lemma Sits.watched (hs : Sits (fun v => v.view) FaultyVfs.Quiet r e t sb D prev)
    (hc : r.store.vfs.Calm r.store.watermark) :
    DiskEngine.Watched Eq e t r
      (fun batch v => v.Calm (r.store.watermark + batch.buf.length) ∧
        FaultyVfs.Survives (Relic (KvStore.of e t sb D prev) r.store.vfs.view v.view) r.store.vfs v)
      fun v => FaultyVfs.Survives (Relic (KvStore.of e t sb D prev) r.store.vfs.view v.view)
        r.store.vfs v := by
  intro d batch root hvfs hwm hgen hb hroot
  have hw : r.store.watermark = sb.watermark.toNat := hs.watermark
  have hlen : r.store.watermark ≤ r.store.vfs.view.length := hw ▸ hs.durable.stands.length
  have hbase : dataStart ≤ r.store.watermark := hw ▸ hs.durable.stands.sane.1
  have hold : ∀ img, Agrees r.store.watermark r.store.vfs.view img →
    Durable img sb D prev := fun img ha =>
    hs.durable.agrees (hw ▸ ha)
  have hpub := DiskStore.publish_survives (P := Relic (KvStore.of e t sb D prev) r.store.vfs.view
    (Beetree.published r.store.vfs.view r.store.watermark batch.buf r.store.nextGeneration
      (DiskEngine.Published e t r batch).1))
    (hvfs ▸ hc.toFaithful) (hvfs ▸ hs.idle) e.params e.nextSeq hroot ?_ ?_ ?_
  · rw [← hvfs, hwm, hgen] at hpub
    refine hpub.mono ?_ ?_
    · rintro - d' ⟨hv', hw', hview', hs'⟩
      refine ⟨hv'.calm hw' ?_, ?_⟩
      · rw [hview']
        exact published_length (Or.inl hlen)
      · rw [hview']
        exact hs'
    · rintro - d' ⟨happ | hview', hs'⟩
      · refine hs'.mono fun img himg hU => himg fun g => ?_
        rcases hU g with h | h | h
        · exact Or.inl h
        · exact Or.inr (Or.inl h)
        · rw [happ, (agrees_appended hlen batch.buf).slotStatus hlen hbase] at h
          exact Or.inr (Or.inl h)
      · rw [hview']
        exact hs'
  · intro img himg _
    rw [← hvfs] at himg
    exact hs.remains batch (.old (hold img (hc.agrees (hc.wreck himg))))
  · intro fates img himg _
    rw [← hvfs, hwm] at himg
    have habove : ∀ entry ∈ r.store.vfs.window ++ [LogEntry.write r.store.watermark batch.buf],
      entry.Above r.store.watermark := by
      intro entry he
      rcases List.mem_append.mp he with he | he
      · exact hc.above entry he
      · rw [List.mem_singleton.mp he]
        exact le_refl _
    exact hs.remains batch (.old (hold img (hc.agrees (applyWindow_agrees habove hc.length himg))))
  · intro h64 fate img himg hU
    rw [← hvfs, hwm, hgen] at himg
    rw [hwm] at h64
    exact hs.remains batch (hs.torn hb h64 himg hU)

/-- A commit that returns leaves a calm device. Whether it returns or not, a crash on the way leaves
a relic. -/
theorem Sits.commit_survives (hs : Sits (fun v => v.view) FaultyVfs.Quiet r e t sb D prev)
    (hc : r.store.vfs.Calm r.store.watermark) :
    ∃ N, ∀ fuel ≥ N, Ends (DiskEngine.commit fuel) r
      (fun _ r' => r'.store.vfs.Calm r'.store.watermark ∧
        FaultyVfs.Survives (Relic (KvStore.of e t sb D prev) r.store.vfs.view r'.store.vfs.view)
          r.store.vfs r'.store.vfs)
      fun _ r' =>
      FaultyVfs.Survives (Relic (KvStore.of e t sb D prev) r.store.vfs.view r'.store.vfs.view)
        r.store.vfs r'.store.vfs := by
  have hw : r.store.watermark = sb.watermark.toNat := hs.watermark
  have hsame : ∀ v, r.store.vfs = v →
      FaultyVfs.Survives (Relic (KvStore.of e t sb D prev) r.store.vfs.view v.view) r.store.vfs
        v := by
    rintro v rfl
    refine .refl hc.toConsistent fun img himg _ => ⟨_, .old, sb, D, prev, ?_, rfl, rfl, rfl⟩
    exact hs.durable.agrees (hw ▸ hc.agrees (hc.wreck himg))
  obtain ⟨N, hN⟩ := DiskEngine.commitInner_watched device_faulty hs.alike hs.holds hs.idle
    (hw ▸ hs.durable.stands.sane.1)
    (Or.inl (hw ▸ hs.durable.stands.length)) hsame (hs.watched hc)
  refine ⟨N, fun fuel hf => ?_⟩
  unfold DiskEngine.commit
  refine .after (Engine.run_get) ?_
  rw [hs.poisoned, if_neg (by decide)]
  refine (ends_poisoning (hN fuel hf)).mono ?_ fun f r' hp => ?_
  · rintro stats r' ⟨batch, hcommits, hcalm, hsurvives⟩
    rw [hcommits.watermark]
    exact ⟨hcalm, hsurvives⟩
  · by_cases hf : f.IsStorage
    · obtain ⟨r₁, hr₁, rfl⟩ := hp.storage hf
      exact hr₁.2
    · exact (hp.other hf).2

end Commit

section Open
variable [Crc32Fast] {π : Type} {r : DiskEngine π FaultyVfs} {v : FaultyVfs} {sb : Superblock}
    {budget : Option ℕ} {policy : π}

lemma Durable.calm_openOn {D : Record} {prev : Option (Superblock × Record)}
    (hd : Durable v.view sb D prev)
    (hc : v.Calm sb.watermark.toNat) (ho : DiskEngine.openOn budget policy v = .ok r) :
    r.store.vfs.Calm r.store.watermark := by
  rw [openOn_faulty budget policy hd.selected] at ho
  split_ifs at ho
  cases ho
  exact hc.setLen

/-- An engine that is up to date with a store, over a device on which nothing is at stake. -/
structure Secure (r : DiskEngine π FaultyVfs) (m : KvStore) : Prop where
  represents : Represents r m
  calm : r.store.vfs.Calm r.store.watermark

variable {m : KvStore} {img : List Byte}

lemma Saves.secure (hf : Saves img m)
    (ho : DiskEngine.openOn budget policy (.fromImage img) = .ok r) : Secure r m.reopen := by
  refine ⟨Saves.opened (v := FaultyVfs.fromImage img) hf (FaultyVfs.quiet_fromImage img) ho, ?_⟩
  obtain ⟨sb, D, prev, hd, -⟩ := hf
  exact Durable.calm_openOn (v := .fromImage img) hd
    ((FaultyVfs.faithful_fromImage img).calm rfl hd.stands.length) ho

lemma Secure.wrecked (hs : Secure r m) (h : r.store.vfs.Wreck img) : Saves img m := by
  obtain ⟨⟨e, _, t, sb, D, prev, hsits, rfl⟩, hc⟩ := hs
  refine ⟨sb, D, prev, ?_, rfl, rfl, rfl⟩
  exact hsits.durable.agrees (hsits.watermark ▸ hc.agrees (hc.wreck h))

lemma Secure.reopen {r' : DiskEngine π FaultyVfs} (hs : Secure r m)
    (ho : DiskEngine.openOn budget policy r.store.vfs = .ok r') :
    Secure r' m.reopen := by
  obtain ⟨hr, hc⟩ := hs
  have hq : r.store.vfs.Quiet := by
    obtain ⟨e, _, t, sb, D, prev, hsits, -⟩ := hr
    exact hsits.idle
  refine ⟨Saves.opened hr.saves hq ho, ?_⟩
  obtain ⟨e, _, t, sb, D, prev, hsits, rfl⟩ := hr
  exact hsits.durable.calm_openOn (hsits.watermark ▸ hc) ho

end Open

/-- What happens to a store on a device, as its users see it. -/
inductive StoreEvent
  | call (op : DiskOp) (reply : DiskReply)
  | fault (op : DiskOp)
  | arm
  | reopen
  | crash
  | interrupted

/-- The events of a map with two saved versions. -/
def KvStore.Event (m : KvStore) : StoreEvent → KvStore → Prop
  | .call op reply, m' => m.Answers op reply ∧ m' = m.after op
  | .fault _, m' => m' = m
  | .arm, m' => m' = m
  | .reopen, m' => m' = m.reopen
  | .crash, m' => m' = m.reopen
  | .interrupted, m' => ∃ m₁, m.Cut m₁ ∧ m' = m₁.reopen

/-- Where a program ends, with a result or without. -/
def Leaves {σ α : Type} (x : EStateM Fault σ α) (s s' : σ) : Prop := (∃ a, x s = .ok a s') ∨
    ∃ f, x s = .error f s'

lemma Ends.leaves {σ α : Type} {x : EStateM Fault σ α} {s s' : σ} {Q : σ → Prop}
    (h : Ends x s (fun _ => Q) fun _ => Q)
    (hl : Leaves x s s') : Q s' := by
  obtain ⟨a, ha⟩ | ⟨f, hf⟩ := hl
  · exact h.ok ha
  · exact h.error hf

section Events
variable [Crc32Fast] {π : Type} [FlushPolicy π]

/-- The file that is left by a crash between two calls. -/
def DiskEngine.Crashed (r : DiskEngine π FaultyVfs) (img : List Byte) : Prop :=
  ∃ r₁ fates, Relation.ReflTransGen DiskEngine.Lingers r r₁ ∧
    r₁.store.vfs.crashImageAt r₁.store.vfs.log.length fates = some img

/-- The file that is left by a crash while an engine commits, or after a commit that failed. -/
def DiskEngine.Interrupted (r : DiskEngine π FaultyVfs) (img : List Byte) : Prop :=
  ∃ r₁ r₂ pos fates, (∃ N, ∀ fuel ≥ N, Leaves (DiskEngine.commit fuel) r r₁) ∧
    Relation.ReflTransGen DiskEngine.Lingers r₁ r₂ ∧
    r.store.vfs.log.length ≤ pos ∧ pos ≤ r₂.store.vfs.log.length ∧
      r₂.store.vfs.crashImageAt pos fates = some img ∧
    Unforged r.store.vfs.view r₂.store.vfs.view img

/-- The events of an engine on a device that loses what is not synced. An engine whose commit failed
is given up: what its device shows need not be durable, and is not opened again before a crash. -/
inductive DiskEngine.Event (r : DiskEngine π FaultyVfs) : StoreEvent → DiskEngine π FaultyVfs → Prop
  | call {op : DiskOp} {reply : DiskReply} {r' : DiskEngine π FaultyVfs} :
      (∃ N, ∀ fuel ≥ N, DiskEngine.step fuel op r = .ok reply r') → Event r (.call op reply) r'
  | fault {op : DiskOp} {x : DiskError} {r' : DiskEngine π FaultyVfs} : op ≠ .commit →
      (∃ N, ∀ fuel ≥ N, DiskEngine.step fuel op r = .error (.storage x) r') →
      r'.store.poisoned = false → Event r (.fault op) r'
  | arm (skip : ℕ) (fates : List Fate) :
      Event r .arm (r.on { r.store with vfs := r.store.vfs.failNthSync skip fates })
  | reopen {r₁ r' : DiskEngine π FaultyVfs} {budget : Option ℕ} {policy : π} :
    Relation.ReflTransGen DiskEngine.Lingers r r₁ →
      DiskEngine.openOn budget policy r₁.store.vfs = .ok r' → Event r .reopen r'
  | crash {r' : DiskEngine π FaultyVfs} {img : List Byte} {budget : Option ℕ}
    {policy : π} : r.Crashed img →
      DiskEngine.openOn budget policy (.fromImage img) = .ok r' → Event r .crash r'
  | interrupted {r' : DiskEngine π FaultyVfs} {img : List Byte} {budget : Option ℕ} {policy : π} :
    r.Interrupted img →
      DiskEngine.openOn budget policy (.fromImage img) = .ok r' → Event r .interrupted r'

variable {r r' : DiskEngine π FaultyVfs} {m : KvStore} {img : List Byte}

lemma Secure.crashed (hs : Secure r m) (hc : r.Crashed img) : Saves img m := by
  obtain ⟨r₁, fates, hl, himg⟩ := hc
  have hvfs : r.store.vfs = r₁.store.vfs := (DiskEngine.Lingers.inert readKeeps_faulty hl).same
  rw [← hvfs, hs.calm.toConsistent.crashImageAt] at himg
  exact hs.wrecked ⟨fates, himg⟩

lemma Secure.interrupted (hs : Secure r m) (hi : r.Interrupted img) :
    ∃ m₁, m.Cut m₁ ∧ Saves img m₁ := by
  obtain ⟨⟨e, _, t, sb, D, prev, hsits, rfl⟩, hc⟩ := hs
  obtain ⟨r₁, r₂, pos, fates, ⟨N, hN⟩, hl, hlo, hhi, himg, hU⟩ := hi
  obtain ⟨N', hN'⟩ := hsits.commit_survives hc
  have hsurvives := ((hN' (max N N') (le_max_right _ _)).mono (fun _ _ h => h.2)
    fun _ _ h => h).leaves (hN _ (le_max_left _ _))
  have hvfs : r₁.store.vfs = r₂.store.vfs := (DiskEngine.Lingers.inert readKeeps_faulty hl).same
  rw [hvfs] at hsurvives
  exact hsurvives.images pos hlo hhi fates img himg hU

omit [FlushPolicy π] in
lemma Secure.still (hs : Secure r m) (hi : Inert Eq r.store r'.store) :
    r'.store.vfs.Calm r'.store.watermark := by
  rw [← hi.same, hi.watermark]
  exact hs.calm

lemma Secure.call (hπ : FlushPolicy.Legal π) (hs : Secure r m) {op : DiskOp} {reply : DiskReply}
    (hstep : ∃ N, ∀ fuel ≥ N, DiskEngine.step fuel op r = .ok reply r') :
    m.Answers op reply ∧ Secure r' (m.after op) := by
  obtain ⟨N, hN⟩ := hstep
  obtain ⟨N', hN'⟩ := hs.represents.call hπ op
  obtain ⟨hans, hr'⟩ := (hN' (max N N') (le_max_right _ _)).ok (hN _ (le_max_left _ _))
  refine ⟨hans, hr', ?_⟩
  by_cases hop : op = .commit
  · subst hop
    obtain ⟨⟨e, _, t, sb, D, prev, hsits, rfl⟩, hc⟩ := hs
    obtain ⟨N₁, hN₁⟩ := hsits.commit_survives hc
    have hrun := hN (max N N₁) (le_max_left _ _)
    obtain ⟨stats, r₁, hcommit, hpure⟩ := bind_eq_ok hrun
    cases hpure
    exact ((hN₁ _ (le_max_right _ _)).ok hcommit).1
  · exact hs.still ((DiskEngine.inert_call readKeeps_faulty N (Or.inr hop)).ok (hN N le_rfl)).1

lemma Secure.fault (hπ : FlushPolicy.Legal π) (hs : Secure r m) {op : DiskOp} {x : DiskError}
    (hop : op ≠ .commit)
    (hstep : ∃ N, ∀ fuel ≥ N, DiskEngine.step fuel op r = .error (.storage x) r')
    (hp : r'.store.poisoned = false) : Secure r' m := by
  obtain ⟨N, hN⟩ := hstep
  obtain ⟨N', hN'⟩ := hs.represents.call hπ op
  have htrouble := (hN' (max N N') (le_max_right _ _)).error (hN _ (le_max_left _ _))
  exact ⟨htrouble.represents ⟨x, rfl⟩ hp,
    hs.still ((DiskEngine.inert_call readKeeps_faulty N (Or.inr hop)).error (hN N le_rfl) x rfl).1⟩

omit [FlushPolicy π] in
lemma Secure.arm (hs : Secure r m) (skip : ℕ) (fates : List Fate) :
    Secure (r.on { r.store with vfs := r.store.vfs.failNthSync skip fates }) m := by
  obtain ⟨⟨e, _, t, sb, D, prev, hsits, rfl⟩, hc⟩ := hs
  refine ⟨⟨e, _, t, sb, D, prev, ?_, rfl⟩, hc.failNthSync skip fates⟩
  have ha := hsits.alike
  exact {
    alike := ⟨⟨ha.store.toTracks.vfs rfl, ha.store.apart⟩, ha.params, ha.root, ha.nextSeq, ha.ops,
      ha.policy, ha.trace⟩
    holds := hsits.holds
    records := hsits.records
    nodup := hsits.nodup
    same := hsits.same
    idle := hsits.idle
    durable := hsits.durable
    watermark := hsits.watermark
    nextGeneration := hsits.nextGeneration
    fits := hsits.fits
    params := hsits.params
    poisoned := hsits.poisoned }

/-- Every event of the engine is one of the map. -/
theorem simulates_event (hπ : FlushPolicy.Legal π) :
    Simulates (DiskEngine.Event (π := π)) KvStore.Event Secure := by
  intro r m event r' hs hstep
  cases hstep with
  | call hstep =>
    obtain ⟨hans, hs'⟩ := hs.call hπ hstep
    exact ⟨_, ⟨hans, rfl⟩, hs'⟩
  | fault hop hstep hp => exact ⟨_, rfl, hs.fault hπ hop hstep hp⟩
  | arm skip fates => exact ⟨_, rfl, hs.arm skip fates⟩
  | reopen hl ho =>
    have hvfs := (DiskEngine.Lingers.inert readKeeps_faulty hl).same
    rw [← hvfs] at ho
    exact ⟨_, rfl, hs.reopen ho⟩
  | crash hc ho => exact ⟨_, rfl, (hs.crashed hc).secure ho⟩
  | interrupted hi ho =>
    obtain ⟨m₁, hcut, hsaves⟩ := hs.interrupted hi
    exact ⟨_, ⟨m₁, hcut, rfl⟩, hsaves.secure ho⟩

omit [FlushPolicy π] in
lemma secure_createOn {fuel : ℕ} {budget : Option ℕ} {params : Params} {policy : π}
    (hc : DiskEngine.createOn fuel budget params policy .new = .ok r) : Secure r (.new params) := by
  refine ⟨represents_createOn (FaultyVfs.quiet_fromImage []) hc, ?_⟩
  obtain ⟨-, v', stats, r₀, hl, hf, hvfs, hw, hg, hpoison, hcommit⟩ :=
    createOn_inv (fun v : FaultyVfs => v.view) hc
  cases hl
  have hfaithful : r₀.store.vfs.Faithful := by
    rw [hvfs]
    exact FaultyVfs.faithful_fromImage []
  have hquiet : r₀.store.vfs.Quiet := by
    rw [hvfs]
    exact FaultyVfs.quiet_fromImage []
  have hwatch : DiskEngine.Watched Eq (Engine.fresh params policy) Live.fresh r₀
      (fun batch v => v.Calm (dataStart + batch.buf.length)) fun _ => True := by
    intro d batch root hd hwm hgen hb hroot
    refine (DiskStore.publish_survives (P := fun _ => True) (hd ▸ hfaithful) (hd ▸ hquiet) _ _ hroot
      (fun _ _ => trivial)
      (fun _ _ _ => trivial) fun _ _ _ _ => trivial).mono ?_ fun _ _ _ => trivial
    rintro - d' ⟨hv', hw', hview', -⟩
    refine hv'.calm hw' ?_
    have hreach : Reaches d.vfs.view d.watermark batch.buf := by
      rw [hwm]
      exact hb.reaches (Or.inr ⟨hw, rfl⟩)
    rw [hview', ← hw, ← hwm]
    exact published_length hreach
  obtain ⟨N, hN⟩ := DiskEngine.commitInner_watched device_faulty hf.alike hf.holds hquiet hw.ge
    (Or.inr ⟨hw, rfl⟩)
    (fun _ _ => trivial) hwatch
  have hends :
    Ends (DiskEngine.commit (max fuel N)) r₀ (fun _ r' => r'.store.vfs.Calm r'.store.watermark)
    fun _ _ => True := by
    unfold DiskEngine.commit
    refine .after (Engine.run_get) ?_
    rw [hpoison, if_neg (by decide)]
    refine (ends_poisoning (hN _ (le_max_right _ _))).mono ?_ fun _ _ _ => trivial
    rintro stats r' ⟨batch, hcommits, hcalm⟩
    rw [hcommits.watermark, hw]
    exact hcalm
  exact hends.ok ((DiskEngine.refines_commit (le_max_left fuel N)).ok hcommit)

/-- An engine on a device that loses what is not synced behaves as a map with two saved versions.
Whatever calls are made, however syncs fail and whenever the power goes, the replies are those of
the map, and so is what the file opens to. -/
theorem crash_refines (hπ : FlushPolicy.Legal π) {fuel : ℕ} {budget : Option ℕ}
    {params : Params} {policy : π}
    (hc : DiskEngine.createOn fuel budget params policy .new = .ok r) {events : List StoreEvent}
    (hp : Path DiskEngine.Event r events r') : ∃ m, Path KvStore.Event (.new params) events m ∧
    Represents r' m := by
  obtain ⟨m, hm, hs⟩ := hp.simulated (simulates_event hπ) (secure_createOn hc)
  exact ⟨m, hm, hs.represents⟩

/-- Whenever the power goes, the file that is left opens: between two calls to what was committed
last, and during a commit to that or to what was being committed. -/
theorem crash_opens (hπ : FlushPolicy.Legal π) {fuel : ℕ} {budget : Option ℕ}
    {params : Params} {policy : π}
    (hc : DiskEngine.createOn fuel budget params policy .new = .ok r) {events : List StoreEvent}
    (hp : Path DiskEngine.Event r events r') : ∃ m, Path KvStore.Event (.new params) events m ∧
      (∀ img, r'.Crashed img → ∀ (budget : Option ℕ) (policy : π), ∃ r'', DiskEngine.openOn budget
        policy (FaultyVfs.fromImage img) = .ok r'' ∧
        Represents r'' m.reopen) ∧
      (m.saved.generation + 2 < 2 ^ 64 → ∀ img, r'.Interrupted img → ∃ m₁, m.Cut m₁ ∧
        ∀ (budget : Option ℕ) (policy : π),
        ∃ r'', DiskEngine.openOn budget policy (FaultyVfs.fromImage img) = .ok r'' ∧
        Represents r'' m₁.reopen) := by
  obtain ⟨m, hm, hs⟩ := hp.simulated (simulates_event hπ) (secure_createOn hc)
  have hopens : ∀ {img m₁}, Saves img m₁ → m₁.saved.generation + 1 < 2 ^ 64 →
    ∀ (budget : Option ℕ) (policy : π),
      ∃ r'', DiskEngine.openOn budget policy (FaultyVfs.fromImage img) = .ok r'' ∧
        Represents r'' m₁.reopen := by
    intro img m₁ hsaves hgen budget policy
    obtain ⟨r'', ho⟩ := hsaves.opens hgen budget policy
    exact ⟨r'', ho, (hsaves.secure ho).represents⟩
  refine ⟨m, hm, fun img hcrash => hopens (hs.crashed hcrash) hs.represents.generation,
    fun hgen img hi => ?_⟩
  obtain ⟨m₁, hcut, hsaves⟩ := hs.interrupted hi
  refine ⟨m₁, hcut, hopens hsaves ?_⟩
  cases hcut with
  | old => exact hs.represents.generation
  | alone => exact hs.represents.generation
  | new => exact hgen

end Events

section Worn
variable [Crc32Fast] {π : Type} [FlushPolicy π] {r r' : DiskEngine π FaultyVfs} {m m' : KvStore}

def StoreEvent.calls (ops : List DiskOp) (replies : List DiskReply) :
    List StoreEvent := List.zipWith .call ops replies

lemma DiskEngine.path_calls {r₁ : DiskEngine π FaultyVfs} {fuel : ℕ} {ops : List DiskOp}
    {replies : List DiskReply}
    {events : List StoreEvent} (hrun : runOps (DiskEngine.step fuel) ops r = .ok replies r₁)
    (hp : Path DiskEngine.Event r₁ events r') :
    replies.length = ops.length ∧
    Path DiskEngine.Event r (StoreEvent.calls ops replies ++ events) r' := by
  induction ops generalizing r replies with
  | nil =>
    cases hrun
    exact ⟨rfl, hp⟩
  | cons op ops ih =>
    obtain ⟨reply, r₂, hstep, hrest⟩ := bind_eq_ok hrun
    obtain ⟨replies', r₃, hops, hpure⟩ := bind_eq_ok (f := fun rs => pure (reply :: rs)) hrest
    cases hpure
    obtain ⟨hlen, hpath⟩ := ih hops
    exact ⟨congrArg (· + 1) hlen,
      hpath.cons (.call ⟨fuel, fun _ hf => (DiskEngine.refines_step hf op).ok hstep⟩)⟩

omit [Crc32Fast] in
lemma KvStore.path_calls {ops : List DiskOp} {replies : List DiskReply} {events : List StoreEvent}
    (hlen : replies.length = ops.length)
    (hp : Path KvStore.Event m (StoreEvent.calls ops replies ++ events) m') :
    Path KvStore.Event (ops.foldl KvStore.after m) events m' := by
  induction ops generalizing m replies with
  | nil => exact hp
  | cons op ops ih =>
    obtain _ | ⟨reply, replies⟩ := replies
    · cases hlen
    · obtain ⟨m₁, ⟨-, rfl⟩, hrest⟩ := hp.uncons rfl
      exact ih (Nat.succ.inj hlen) hrest

lemma Secure.crashed_view (hs : Secure r m) : r.Crashed r.store.vfs.view := by
  refine ⟨r, [], .refl, ?_⟩
  rw [hs.calm.toConsistent.crashImageAt, applyWindow_whole, hs.calm.view]

lemma Secure.interrupted_view (hs : Secure r m) {fuel : ℕ} {x : DiskError}
    {r₁ : DiskEngine π FaultyVfs}
    (hrun : DiskEngine.commit fuel r = .error (.storage x) r₁) :
    r.Interrupted r.store.vfs.view := by
  have hends : ∀ n ≥ fuel, DiskEngine.commit n r = .error (.storage x) r₁ := fun _ hn =>
    (DiskEngine.refines_commit hn).error hrun (by simp)
  have hsurvives : FaultyVfs.Survives (fun _ => True) r.store.vfs r₁.store.vfs := by
    obtain ⟨⟨e, _, t, sb, D, prev, hsits, rfl⟩, hc⟩ := hs
    obtain ⟨N, hN⟩ := hsits.commit_survives hc
    exact ((hN _ (le_max_right fuel N)).error (hends _ (le_max_left _ _))).mono fun _ _ => trivial
  refine ⟨r₁, r₁, r.store.vfs.log.length, [], ⟨fuel, fun n hn => Or.inr ⟨_, hends n hn⟩⟩, .refl,
    le_rfl,
    hsurvives.log.length_le, ?_, fun g => Or.inr (Or.inl rfl)⟩
  have htake :
    r₁.store.vfs.log.take r.store.vfs.log.length = r.store.vfs.log.take r.store.vfs.log.length := by
    rw [List.take_length, ← List.prefix_iff_eq_take.mp hsurvives.log]
  rw [FaultyVfs.crashImageAt_congr [] hsurvives.initial le_rfl hsurvives.log.length_le htake]
  rw [hs.calm.toConsistent.crashImageAt, applyWindow_whole, hs.calm.view]

end Worn

/-- What is called before the power goes: operations that are committed, and one that is not. -/
def StoreEvent.unsaved (replies replies' : List DiskReply) (events : List StoreEvent) :
    List StoreEvent :=
  calls (Op.churn.map .op ++ [.commit]) replies ++ (calls [.op (.mutate (.delete [4]))]
    replies' ++ events)

def KvStore.unsaved : KvStore := KvStore.churned.after (.op (.mutate (.delete [4])))

lemma KvStore.path_unsaved {m : KvStore} {replies replies' : List DiskReply}
    {events : List StoreEvent}
    (hlen : replies.length = Op.churn.length + 1) (hlen' : replies'.length = 1)
    (hp : Path KvStore.Event (.new .tiny) (StoreEvent.unsaved replies replies' events) m) :
    Path KvStore.Event .unsaved events m :=
  KvStore.path_calls hlen' (KvStore.path_calls (by simpa using hlen) hp)

lemma secure_unsaved : ∃ (r₀ r r' : DiskEngine GreedyFullest FaultyVfs)
    (replies replies' : List DiskReply),
    @DiskEngine.createOn _ _ _ crc32Ieee 40 (some 100) .tiny ⟨⟩ .new = .ok r₀ ∧
    replies.length = Op.churn.length + 1 ∧ replies'.length = 1 ∧ @Secure crc32Ieee _ r .unsaved ∧
    (∀ events r', @Path _ _ (@DiskEngine.Event crc32Ieee _ _) r events r' →
      @Path _ _ (@DiskEngine.Event crc32Ieee _ _) r₀
        (StoreEvent.unsaved replies replies' (.arm :: events)) r') ∧
    @DiskEngine.commit _ _ _ crc32Ieee 40 r = .error (.storage (.io .syncFailure)) r' := by
  let _ := crc32Ieee
  obtain ⟨r₀, r₁, r₂, -, r₄, replies, replies', -, h₀, h₁, h₂, -, hfails, -⟩ := DiskEngine.worn
  obtain ⟨hlen', hpath₂⟩ := DiskEngine.path_calls h₂ .nil
  obtain ⟨hlen, hpath⟩ := DiskEngine.path_calls h₁ hpath₂
  obtain ⟨m, hm, hs⟩ := hpath.simulated (simulates_event GreedyFullest.legal) (secure_createOn h₀)
  obtain rfl : m = .unsaved := (KvStore.path_unsaved (by simpa using hlen) hlen' hm).eq_of_nil rfl
  refine ⟨r₀, _, r₄, replies, replies', h₀, by simpa using hlen, hlen', hs.arm 0 [],
    fun events r' hp => ?_, hfails⟩
  exact (DiskEngine.path_calls h₁ (DiskEngine.path_calls h₂ (hp.cons (.arm 0 []))).2).2

/-- The power goes after the first sync of a commit fails, and the deletion that was not committed
is undone. -/
theorem crash_refines_unsaved : ∃ (r r' : DiskEngine GreedyFullest FaultyVfs)
    (replies replies' : List DiskReply) (m : KvStore),
    @DiskEngine.createOn _ _ _ crc32Ieee 40 (some 100) .tiny ⟨⟩ .new = .ok r ∧
    @Path _ _ (@DiskEngine.Event crc32Ieee _ _) r (StoreEvent.unsaved replies replies' [.arm,
      .interrupted]) r' ∧
    Path KvStore.Event (.new .tiny) (StoreEvent.unsaved replies replies' [.arm, .interrupted]) m ∧
    @Represents _ _ _ _ crc32Ieee r' m ∧ KvStore.unsaved.live [4] = none ∧
    m.live [4] = some [7] := by
  let _ := crc32Ieee
  obtain ⟨r₀, r, r₁, replies, replies', h₀, hlen, hlen', hs, hpath, hfails⟩ := secure_unsaved
  have hsaves := hs.represents.saves
  obtain ⟨r', ho⟩ := hsaves.opens hs.represents.generation none (⟨⟩ : GreedyFullest)
  have hp := hpath _ _ (Path.nil.cons (.interrupted (hs.interrupted_view hfails) ho))
  obtain ⟨m, hm, hrep⟩ := crash_refines GreedyFullest.legal h₀ hp
  refine ⟨r₀, r', replies, replies', m, h₀, hp, hm, hrep, rfl, ?_⟩
  obtain ⟨m₁, rfl, hm₁⟩ := (KvStore.path_unsaved hlen hlen' hm).uncons rfl
  obtain ⟨m₂, ⟨m₃, hcut, rfl⟩, hnil⟩ := hm₁.uncons rfl
  rw [hnil.eq_of_nil rfl] at hrep ⊢
  have hgen :=
    hrep.nextGeneration.symm.trans (Saves.opened (v := .fromImage r.store.vfs.view) hsaves
      (FaultyVfs.quiet_fromImage _) ho).nextGeneration
  cases hcut with
  | old => rfl
  | alone => rfl
  | new => cases hgen

/-- The power goes before that commit or while it fails. -/
theorem crash_opens_unsaved : ∃ (r₀ r : DiskEngine GreedyFullest FaultyVfs)
    (replies replies' : List DiskReply),
    @DiskEngine.createOn _ _ _ crc32Ieee 40 (some 100) .tiny ⟨⟩ .new = .ok r₀ ∧
    @Path _ _ (@DiskEngine.Event crc32Ieee _ _) r₀ (StoreEvent.unsaved replies replies' [.arm]) r ∧
    @DiskEngine.Crashed crc32Ieee _ _ r r.store.vfs.view ∧
    @DiskEngine.Interrupted crc32Ieee _ _ r r.store.vfs.view ∧
    (∃ r' : DiskEngine GreedyFullest FaultyVfs, @DiskEngine.openOn _ _ _ crc32Ieee none ⟨⟩
      (.fromImage r.store.vfs.view) = .ok r' ∧
      @Represents _ _ _ _ crc32Ieee r' KvStore.unsaved.reopen) ∧
    ∃ m, KvStore.unsaved.Cut m ∧ ∃ r' : DiskEngine GreedyFullest FaultyVfs,
      @DiskEngine.openOn _ _ _ crc32Ieee (some 100) ⟨⟩ (.fromImage r.store.vfs.view) = .ok r' ∧
      @Represents _ _ _ _ crc32Ieee r' m.reopen := by
  let _ := crc32Ieee
  obtain ⟨r₀, r, r₁, replies, replies', h₀, hlen, hlen', hs, hpath, hfails⟩ := secure_unsaved
  have hp := hpath _ _ .nil
  obtain ⟨m, hm, hcrashed, hinterrupted⟩ := crash_opens GreedyFullest.legal h₀ hp
  obtain ⟨m', rfl, hnil⟩ := (KvStore.path_unsaved hlen hlen' hm).uncons rfl
  rw [hnil.eq_of_nil rfl] at hcrashed hinterrupted
  have hi := hs.interrupted_view hfails
  obtain ⟨m₁, hcut, hopens⟩ := hinterrupted (by decide) _ hi
  exact ⟨r₀, r, replies, replies', h₀, hp, hs.crashed_view, hi, hcrashed _ hs.crashed_view none ⟨⟩,
    m₁, hcut, hopens (some 100) ⟨⟩⟩

end Beetree
