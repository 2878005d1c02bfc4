import Mathlib.Data.List.GetD
import Beetree.Device

/-! The crash model agrees with itself: what is kept as durable at each sync is what a replay of the
history finds, and the order of disjoint writes in a window does not matter. -/
namespace Beetree

lemma writeAt_getElem?_eq (buf : List Byte) (off : ℕ) (data : List Byte) (i : ℕ) :
    (writeAt buf off data)[i]? =
      if off ≤ i ∧ i < off + data.length then data[i - off]?
      else if i < max buf.length (off + data.length) then some (buf.getD i 0) else none := by
  have hpad :
    ∃ b, (if buf.length < off + data.length then resize buf (off + data.length) else buf) = b ∧
      b.length = max buf.length (off + data.length) ∧
        ∀ j < b.length, b[j]? = some (buf.getD j 0) := by
    refine ⟨_, rfl, ?_, fun j hj => ?_⟩
    · split_ifs with h
      · rw [resize_length]
        omega
      · omega
    · split_ifs with h
      · rw [if_pos h, resize_length] at hj
        rw [resize, List.getElem?_append, List.length_take, List.getElem?_take,
          List.getElem?_replicate]
        by_cases hb : j < buf.length
        · rw [if_pos (by omega), if_pos hj, List.getElem?_eq_getElem hb,
            List.getD_eq_getElem _ _ hb]
        · rw [if_neg (by omega), if_pos (by omega), List.getD_eq_default _ _ (by omega)]
      · rw [if_neg h] at hj
        rw [List.getElem?_eq_getElem hj, List.getD_eq_getElem _ _ hj]
  obtain ⟨b, hb, hlen, hget⟩ := hpad
  unfold writeAt
  dsimp only
  rw [hb, List.append_assoc, List.getElem?_append, List.length_take, List.getElem?_take]
  split_ifs with h₁ h₂ h₃ h₄ h₅ <;> first | omega | skip
  · exact hget i (by omega)
  · rw [List.getElem?_append, if_pos (by omega), Nat.min_eq_left (by omega)]
  · rw [List.getElem?_append, if_neg (by omega), List.getElem?_drop, Nat.min_eq_left (by omega)]
    rw [show off + data.length + (i - off - data.length) = i by omega]
    exact hget i (by omega)
  · rw [List.getElem?_append, if_neg (by omega), List.getElem?_drop]
    exact List.getElem?_eq_none (by omega)

lemma writeAt_comm (buf : List Byte) {o o' : ℕ} {d d' : List Byte}
    (h : o + d.length ≤ o' ∨ o' + d'.length ≤ o) :
    writeAt (writeAt buf o d) o' d' = writeAt (writeAt buf o' d') o d := by
  apply List.ext_getElem?
  intro i
  have hlen := writeAt_length buf o d
  have hlen' := writeAt_length buf o' d'
  rw [writeAt_getElem?_eq, writeAt_getElem?_eq, hlen, hlen']
  by_cases hi : o ≤ i ∧ i < o + d.length
  · have hi' : ¬(o' ≤ i ∧ i < o' + d'.length) := by omega
    have hd : (writeAt buf o d).getD i 0 = d.getD (i - o) 0 := by
      rw [List.getD_eq_getElem?_getD, writeAt_getElem?_eq, if_pos hi, List.getD_eq_getElem?_getD]
    rw [if_neg hi', if_pos hi, if_pos (by omega), hd, List.getD_eq_getElem _ _ (by omega),
      List.getElem?_eq_getElem (by omega)]
  · by_cases hi' : o' ≤ i ∧ i < o' + d'.length
    · have hd : (writeAt buf o' d').getD i 0 = d'.getD (i - o') 0 := by
        rw [List.getD_eq_getElem?_getD, writeAt_getElem?_eq, if_pos hi', List.getD_eq_getElem?_getD]
      rw [if_pos hi', if_neg hi, if_pos (by omega), hd, List.getD_eq_getElem _ _ (by omega),
        List.getElem?_eq_getElem (by omega)]
    · have hsame : ∀ {off : ℕ} {data : List Byte}, ¬(off ≤ i ∧ i < off + data.length) →
          (writeAt buf off data).getD i 0 = buf.getD i 0 := by
        intro off data hout
        rw [List.getD_eq_getElem?_getD, writeAt_getElem?_eq, if_neg hout]
        split_ifs with hlt
        · rfl
        · rw [List.getD_eq_default _ _ (by omega)]
          rfl
      rw [if_neg hi', if_neg hi, hsame hi, hsame hi', max_assoc, max_assoc, max_comm (o + d.length)]

/-- The operations of a window with the fates they meet. -/
def withFates : List LogEntry → List Fate → List (LogEntry × Fate)
  | [], _ => []
  | entry :: window, fates => (entry, fates.headD .apply) :: withFates window fates.tail

lemma applyWindow_withFates (buf : List Byte) (window : List LogEntry) (fates : List Fate) :
    applyWindow false buf window fates = (withFates window fates).foldlM
      (fun buf x => x.1.apply buf x.2) buf := by
  induction window generalizing buf fates with
  | nil => rfl
  | cons entry window ih =>
    rw [applyWindow, withFates, List.foldlM_cons]
    exact bind_congr fun buf => ih buf fates.tail

lemma fst_of_mem_withFates {window : List LogEntry} {fates : List Fate} {x : LogEntry × Fate}
    (hx : x ∈ withFates window fates) : x.1 ∈ window := by
  induction window generalizing fates with
  | nil => cases hx
  | cons entry window ih =>
    rcases List.mem_cons.mp hx with rfl | hx
    · exact List.mem_cons_self
    · exact List.mem_cons_of_mem _ (ih hx)

lemma exists_mem_withFates {window : List LogEntry} (fates : List Fate) {entry : LogEntry}
    (h : entry ∈ window) :
    ∃ fate, (entry, fate) ∈ withFates window fates := by
  induction window generalizing fates with
  | nil => cases h
  | cons x window ih =>
    rcases List.mem_cons.mp h with rfl | h
    · exact ⟨_, List.mem_cons_self⟩
    · obtain ⟨fate, hf⟩ := ih fates.tail h
      exact ⟨fate, List.mem_cons_of_mem _ hf⟩

/-- The pairs of a window whose operations are pairwise related are so too. -/
lemma pairwise_withFates {R : LogEntry → LogEntry → Prop} {window : List LogEntry}
    (h : window.Pairwise R)
    (fates : List Fate) : (withFates window fates).Pairwise fun x y => R x.1 y.1 := by
  induction h generalizing fates with
  | nil => exact .nil
  | cons hx _ ih => exact .cons (fun y hy => hx _ (fst_of_mem_withFates hy)) (ih _)

/-- A write has an extent, and another entry is clear of it. -/
def LogEntry.Clear : LogEntry → LogEntry → Prop
  | write off data, write off' data' => off + data.length ≤ off' ∨ off' + data'.length ≤ off
  | _, _ => False

lemma LogEntry.Clear.symm {x y : LogEntry} (h : x.Clear y) : y.Clear x := by
  cases x with
  | write off data =>
    cases y with
    | write off' data' => exact Or.symm h
    | setLen len => exact h
    | syncOk => exact h
    | syncFailed fates => exact h
  | setLen len => cases h
  | syncOk => cases h
  | syncFailed fates => cases h

/-- The bytes a write puts down under its fate, if it puts down any. -/
def Fate.land (data : List Byte) : Fate → Option (List Byte)
  | drop => none
  | apply => some data
  | zero => some (List.replicate data.length 0)
  | tear seed => some (data.take (seed % (data.length + 1)))

lemma Fate.land_length {fate : Fate} {data landed : List Byte} (h : fate.land data = some landed) :
    landed.length ≤ data.length := by
  cases fate with
  | drop => cases h
  | apply =>
    cases h
    exact le_rfl
  | zero =>
    cases h
    simp
  | tear seed =>
    cases h
    exact List.length_take_le' _ _

lemma LogEntry.apply_write (buf : List Byte) (fate : Fate) (off : ℕ) (data : List Byte) :
    (LogEntry.write off data).apply buf fate = some ((fate.land data).elim buf (writeAt buf
      off)) := by
  cases fate <;> rfl

lemma apply_comm {x y : LogEntry} (h : x.Clear y) (fx fy : Fate) (buf : List Byte) :
    (x.apply buf fx >>= fun buf => y.apply buf fy) = y.apply buf fy >>= fun buf =>
    x.apply buf fx := by
  cases x with
  | write off data =>
    cases y with
    | write off' data' =>
      simp only [LogEntry.apply_write, Option.bind_eq_bind, Option.bind_some]
      cases hx : fx.land data with
      | none => rfl
      | some d =>
        cases hy : fy.land data' with
        | none => rfl
        | some d' =>
          have hd := Fate.land_length hx
          have hd' := Fate.land_length hy
          refine congrArg some (writeAt_comm buf ?_)
          rcases h with h | h
          · exact Or.inl (by omega)
          · exact Or.inr (by omega)
    | setLen len => cases h
    | syncOk => cases h
    | syncFailed fates => cases h
  | setLen len => cases h
  | syncOk => cases h
  | syncFailed fates => cases h

lemma foldlM_perm {l l' : List (LogEntry × Fate)} (hp : l.Perm l')
    (hc : l.Pairwise fun x y => x.1.Clear y.1)
    (buf : List Byte) :
    l.foldlM (fun buf x => x.1.apply buf x.2) buf = l'.foldlM
      (fun buf x => x.1.apply buf x.2) buf := by
  induction hp generalizing buf with
  | nil => rfl
  | cons x _ ih =>
    rw [List.foldlM_cons, List.foldlM_cons]
    exact bind_congr fun buf => ih (List.pairwise_cons.mp hc).2 buf
  | swap x y l =>
    have hyx : y.1.Clear x.1 := (List.pairwise_cons.mp hc).1 x (by simp)
    simp only [List.foldlM_cons, ← bind_assoc]
    rw [apply_comm hyx]
  | trans hp _ ih ih' =>
    exact (ih hc buf).trans (ih' (hp.pairwise hc fun h => h.symm) buf)

inductive VfsCall
  | write (off : ℕ) (data : List Byte)
  | setLen (len : ℕ)
  | sync
  | failNthSync (skip : ℕ) (fates : List Fate)

namespace FaultyVfs

/-- The device after a call that returned, with an error of the device or without. -/
def returned : EStateM.Result Fault FaultyVfs Unit → Option FaultyVfs
  | .ok _ v => some v
  | .error (.storage _) v => some v
  | .error _ _ => none

/-- Nothing where the model panics: on a write that overlaps another one of its window. -/
def call (v : FaultyVfs) : VfsCall → Option FaultyVfs
  | .write off data => returned (Vfs.writeAllAt off data v)
  | .setLen len => returned (Vfs.setLen len v)
  | .sync => returned (Vfs.sync v)
  | .failNthSync skip fates => some (v.failNthSync skip fates)

def run (v : FaultyVfs) (calls : List VfsCall) : Option FaultyVfs := calls.foldlM call v

/-- The history accounts for the durable bytes and the window. -/
structure Consistent (v : FaultyVfs) : Prop where
  replayed : replay v.initial [] v.log = some (v.durable, v.window)
  unsynced : ∀ entry ∈ v.window, entry.isSync = false
  start : v.windowStart ≤ v.log.length

lemma replay_append (img : List Byte) (window log more : List LogEntry) :
    replay img window (log ++ more) = replay img window log >>= fun x => replay x.1 x.2 more := by
  induction log generalizing img window with
  | nil => rfl
  | cons entry log ih =>
    cases entry with
    | write off data => exact ih img _
    | setLen len => exact ih img _
    | syncOk =>
      simp only [List.cons_append, replay, bind_assoc]
      exact bind_congr fun buf => ih buf []
    | syncFailed fates =>
      simp only [List.cons_append, replay, bind_assoc]
      exact bind_congr fun buf => ih buf []

lemma consistent_fromImage (image : List Byte) : (fromImage image).Consistent :=
  ⟨rfl, fun _ h => (List.not_mem_nil h).elim, le_rfl⟩

section Call
variable {v v' : FaultyVfs}

lemma Consistent.logged (hv : v.Consistent) {entry : LogEntry} (he : entry.isSync = false)
    (view : List Byte) :
    ({ v with view := view, log := v.log ++ [entry] } : FaultyVfs).Consistent := by
  have hwindow :
    ({ v with view := view, log := v.log ++ [entry] } : FaultyVfs).window = v.window ++ [entry] :=
    List.drop_append_of_le_length hv.start
  refine ⟨?_, fun x hx => ?_, ?_⟩
  · rw [hwindow]
    change replay v.initial [] (v.log ++ [entry]) = _
    rw [replay_append, hv.replayed]
    cases entry with
    | write off data => rfl
    | setLen len => rfl
    | syncOk => cases he
    | syncFailed fates => cases he
  · rw [hwindow] at hx
    rcases List.mem_append.mp hx with hx | hx
    · exact hv.unsynced x hx
    · rw [List.mem_singleton.mp hx]
      exact he
  · have := hv.start
    change v.windowStart ≤ (v.log ++ [entry]).length
    rw [List.length_append]
    omega

lemma Consistent.closed (hv : v.Consistent) {entry : LogEntry} {durable : List Byte}
    (failSync : Option (ℕ × List Fate))
    (hlog : replay v.durable v.window [entry] = some (durable, [])) :
    (v.close entry durable failSync).Consistent := by
  refine ⟨?_, fun x hx => ?_, ?_⟩
  · rw [window_close]
    change replay v.initial [] (v.log ++ [entry]) = some (durable, [])
    rw [replay_append, hv.replayed]
    exact hlog
  · rw [window_close] at hx
    cases hx
  · simp [close]

/-- A sync returns, and the history still accounts for what is durable. -/
lemma Consistent.sync (hv : v.Consistent) : ∃ v', v.call .sync = some v' ∧ v'.Consistent ∧
    v'.initial = v.initial ∧
    v.log <+: v'.log := by
  have hall : ∀ fs, ∃ v', returned (syncAll fs v) = some v' ∧ v'.Consistent ∧
    v'.initial = v.initial ∧
      v.log <+: v'.log := by
    intro fs
    obtain ⟨durable, hd⟩ := applyWindow_isSome true v.durable [] hv.unsynced
    refine ⟨v.close .syncOk durable fs, ?_, hv.closed fs ?_, rfl, List.prefix_append _ _⟩
    · unfold syncAll
      rw [hd]
      rfl
    · rw [replay, hd]
      rfl
  simp only [FaultyVfs.call, Vfs.sync]
  cases hf : v.failSync with
  | none => exact hall none
  | some armed =>
    obtain ⟨skip, fates⟩ := armed
    cases skip with
    | zero =>
      obtain ⟨durable, hd⟩ := applyWindow_isSome false v.durable fates hv.unsynced
      refine ⟨v.close (.syncFailed fates) durable none, ?_, hv.closed none ?_, rfl,
        List.prefix_append _ _⟩
      · dsimp only
        rw [hd]
        rfl
      · rw [replay, hd]
        rfl
    | succ skip => exact hall (some (skip, fates))

lemma Consistent.call (hv : v.Consistent) {c : VfsCall} (h : v.call c = some v') :
    v'.Consistent ∧ v'.initial = v.initial ∧ v.log <+: v'.log := by
  cases c with
  | write off data =>
    change returned (if v.window.any (overlaps off data) = true then _ else _) = _ at h
    split_ifs at h
    · cases h
    · cases h
      exact ⟨hv.logged rfl _, rfl, List.prefix_append _ _⟩
  | setLen len =>
    cases h
    exact ⟨hv.logged rfl _, rfl, List.prefix_append _ _⟩
  | sync =>
    obtain ⟨v₁, h₁, hrest⟩ := hv.sync
    rw [h] at h₁
    cases h₁
    exact hrest
  | failNthSync skip fates =>
    cases h
    exact ⟨⟨hv.replayed, hv.unsynced, hv.start⟩, rfl, List.prefix_rfl⟩

lemma Consistent.run (hv : v.Consistent) {calls : List VfsCall} (h : v.run calls = some v') :
    v'.Consistent ∧ v'.initial = v.initial ∧ v.log <+: v'.log := by
  induction calls generalizing v with
  | nil =>
    cases h
    exact ⟨hv, rfl, List.prefix_rfl⟩
  | cons c calls ih =>
    unfold FaultyVfs.run at h
    rw [List.foldlM_cons] at h
    obtain ⟨v₁, h₁, h⟩ := Option.bind_eq_some_iff.mp h
    obtain ⟨hv₁, hinit, hlog⟩ := hv.call h₁
    obtain ⟨hv', hinit', hlog'⟩ := ih hv₁ h
    exact ⟨hv', hinit'.trans hinit, hlog.trans hlog'⟩

end Call

lemma applyWindow_drop (buf : List Byte) {window : List LogEntry}
    (h : ∀ entry ∈ window, entry.isSync = false) :
    applyWindow false buf window (List.replicate window.length .drop) = some buf := by
  induction window with
  | nil => rfl
  | cons entry window ih =>
    have hentry : entry.apply buf .drop = some buf := by
      have := h entry (by simp)
      cases entry with
      | write off data => rfl
      | setLen len => rfl
      | syncOk => cases this
      | syncFailed fates => cases this
    rw [applyWindow, List.length_cons, List.replicate_succ]
    change (entry.apply buf .drop >>= fun buf => _) = _
    rw [hentry]
    exact ih fun e he => h e (by simp [he])

/-- A crash image depends on the baseline and on the history up to the crash only. -/
lemma crashImageAt_congr {v v' : FaultyVfs} {pos : ℕ} (fates : List Fate)
    (hinit : v'.initial = v.initial)
    (hpos : pos ≤ v.log.length) (hpos' : pos ≤ v'.log.length)
    (hlog : v'.log.take pos = v.log.take pos) :
    v'.crashImageAt pos fates = v.crashImageAt pos fates := by
  unfold crashImageAt
  rw [if_pos hpos, if_pos hpos', hinit, hlog]

/-- Replaying never meets a sync inside a window, and at a sync the window is empty. -/
lemma replay_synced (initial : List Byte) {synced : List LogEntry}
    (h : synced = [] ∨ ∃ log entry, synced = log ++ [entry] ∧ entry.isSync = true) :
    ∃ img, replay initial [] synced = some (img, []) := by
  have hreplay : ∀ (log : List LogEntry) (img : List Byte) (window : List LogEntry),
      (∀ entry ∈ window, entry.isSync = false) → ∃ img' window', replay img window log = some
        (img', window') ∧
        ∀ entry ∈ window', entry.isSync = false := by
    intro log
    induction log with
    | nil => exact fun img window hw => ⟨img, window, rfl, hw⟩
    | cons entry log ih =>
      intro img window hw
      have hmore : entry.isSync = false → ∀ x ∈ window ++ [entry], x.isSync = false := by
        intro he x hx
        rcases List.mem_append.mp hx with hx | hx
        · exact hw x hx
        · rw [List.mem_singleton.mp hx]
          exact he
      cases entry with
      | write off data => exact ih img _ (hmore rfl)
      | setLen len => exact ih img _ (hmore rfl)
      | syncOk =>
        obtain ⟨buf, hbuf⟩ := applyWindow_isSome true img [] hw
        rw [replay, hbuf]
        exact ih buf [] (by simp)
      | syncFailed fates =>
        obtain ⟨buf, hbuf⟩ := applyWindow_isSome false img fates hw
        rw [replay, hbuf]
        exact ih buf [] (by simp)
  rcases h with rfl | ⟨log, entry, rfl, he⟩
  · exact ⟨initial, rfl⟩
  · obtain ⟨img, window, hlog, hw⟩ := hreplay log initial [] (by simp)
    rw [replay_append, hlog]
    cases entry with
    | write off data => cases he
    | setLen len => cases he
    | syncOk =>
      obtain ⟨buf, hbuf⟩ := applyWindow_isSome true img [] hw
      exact ⟨buf, by simp [replay, hbuf]⟩
    | syncFailed fates =>
      obtain ⟨buf, hbuf⟩ := applyWindow_isSome false img fates hw
      exact ⟨buf, by simp [replay, hbuf]⟩

/-- In a window of clear writes the order does not matter, if each keeps its fate. -/
lemma crashImageAt_perm {v v' : FaultyVfs} {pos pos' : ℕ} {synced window window' : List LogEntry}
    {fates fates' : List Fate}
    {img : List Byte} (hinit : v'.initial = v.initial) (hpos : pos ≤ v.log.length)
    (hpos' : pos' ≤ v'.log.length)
    (hlog : v.log.take pos = synced ++ window) (hlog' : v'.log.take pos' = synced ++ window')
    (hsynced : replay v.initial [] synced = some (img, [])) (hc : window.Pairwise LogEntry.Clear)
    (hw : ∀ entry ∈ window, entry.isSync = false) (hw' : ∀ entry ∈ window', entry.isSync = false)
    (hp : (withFates window fates).Perm (withFates window' fates')) :
    v'.crashImageAt pos' fates' = v.crashImageAt pos fates := by
  have hopen : ∀ (log window : List LogEntry), (∀ entry ∈ log, entry.isSync = false) →
      replay img window log = some (img, window ++ log) := by
    intro log
    induction log with
    | nil => simp [replay]
    | cons entry log ih =>
      intro window h
      have hrest := ih (window ++ [entry]) fun e he => h e (by simp [he])
      have := h entry (by simp)
      cases entry with
      | write off data => simpa [replay] using hrest
      | setLen len => simpa [replay] using hrest
      | syncOk => cases this
      | syncFailed fates => cases this
  unfold crashImageAt
  rw [if_pos hpos, if_pos hpos', hinit, hlog, hlog', replay_append, replay_append, hsynced]
  simp only [Option.bind_eq_bind, Option.bind_some, hopen window [] hw, hopen window' [] hw',
    List.nil_append]
  rw [applyWindow_withFates, applyWindow_withFates]
  exact (foldlM_perm hp (pairwise_withFates hc fates) img).symm

/-- After any calls on a new device or one with an image, the durable bytes are the crash image that
drops everything pending, later operations do not change the images of earlier crashes, and disjoint
writes of a window may be permuted with their fates. -/
theorem crash_model_consistent (image : List Byte) (calls : List VfsCall) (v : FaultyVfs)
    (h : (fromImage image).run calls = some v) :
    v.crashImageAt v.log.length (List.replicate v.window.length .drop) = some v.durable ∧
    (∀ (more : List VfsCall) (v' : FaultyVfs), v.run more = some v' →
      ∀ pos ≤ v.log.length, ∀ fates : List Fate,
      v'.crashImageAt pos fates = v.crashImageAt pos fates) ∧
    (∃ v', v.call .sync = some v') ∧
    ∀ (v' : FaultyVfs) (pos pos' : ℕ) (synced window window' : List LogEntry)
    (fates fates' : List Fate),
      v'.initial = v.initial → pos ≤ v.log.length → pos' ≤ v'.log.length →
      v.log.take pos = synced ++ window →
      v'.log.take pos' = synced ++ window' →
      (synced = [] ∨ ∃ log entry, synced = log ++ [entry] ∧ entry.isSync = true) →
      (∀ entry ∈ window, ∃ off data, entry = .write off data) → window.Pairwise LogEntry.Clear →
      (withFates window fates).Perm (withFates window' fates') →
      v'.crashImageAt pos' fates' = v.crashImageAt pos fates := by
  obtain ⟨hv, -, -⟩ := (consistent_fromImage image).run h
  refine ⟨?_, fun more v' hrun pos hpos fates => ?_, ?_, ?_⟩
  · unfold crashImageAt
    rw [if_pos le_rfl, List.take_length, hv.replayed]
    exact applyWindow_drop v.durable hv.unsynced
  · obtain ⟨-, hinit, log, hlog⟩ := hv.run hrun
    have hlen : v.log.length ≤ v'.log.length := by
      rw [← hlog, List.length_append]
      omega
    refine crashImageAt_congr fates hinit hpos (hpos.trans hlen) ?_
    rw [← hlog, List.take_append_of_le_length hpos]
  · obtain ⟨v', hv', -⟩ := hv.sync
    exact ⟨v', hv'⟩
  · intro v' pos pos' synced window window' fates fates' hinit hpos hpos' hlog hlog'
      hsynced hwrites hc hp
    obtain ⟨img, himg⟩ := replay_synced v.initial hsynced
    have hsync : ∀ entry ∈ window, entry.isSync = false := by
      intro entry he
      obtain ⟨off, data, rfl⟩ := hwrites entry he
      rfl
    have hsync' : ∀ entry ∈ window', entry.isSync = false := by
      intro entry he
      obtain ⟨fate, hfate⟩ := exists_mem_withFates fates' he
      exact hsync entry (fst_of_mem_withFates (hp.mem_iff.mpr hfate))
    exact crashImageAt_perm hinit hpos hpos' hlog hlog' himg hc hsync hsync' hp

/-- Two disjoint writes in one window, one of them torn. -/
theorem crash_model_consistent_torn : ∃ v : FaultyVfs,
    new.run [.write 0 [1, 2], .sync, .write 4 [5, 6], .write 2 [7]] = some v ∧
    v.crashImageAt 4 [.drop, .drop] = some v.durable ∧
    ({ v with log := [.write 0 [1, 2], .syncOk, .write 2 [7], .write 4 [5, 6]] } :
      FaultyVfs).crashImageAt 4
      [.apply, .tear 1] = v.crashImageAt 4 [.tear 1, .apply] := by
  refine ⟨_, rfl, ?_, ?_⟩
  · exact (crash_model_consistent [] [.write 0 [1, 2], .sync, .write 4 [5, 6],
      .write 2 [7]] _ rfl).1
  · refine (crash_model_consistent [] [.write 0 [1, 2], .sync, .write 4 [5, 6], .write 2 [7]] _
      rfl).2.2.2 _ 4 4
      [.write 0 [1, 2], .syncOk] [.write 4 [5, 6], .write 2 [7]]
        [.write 2 [7], .write 4 [5, 6]] _ _ rfl (by decide)
      (by decide) rfl rfl (.inr ⟨[.write 0 [1, 2]], .syncOk, rfl, rfl⟩) ?_ ?_ (.swap _ _ _)
    · simp
    · simp [LogEntry.Clear]

end FaultyVfs

end Beetree
