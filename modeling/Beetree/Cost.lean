import Beetree.Budget
import Beetree.Charge
import Beetree.Records

/-! The cost model is exact.

The in-memory engine charges at each commit boundary what an engine on a device writes there. -/
namespace Beetree

namespace CountingVfs
variable {V : Type} {α : Type} {tally : IoStats → IoStats} {m : EStateM Fault V α}
    {v : CountingVfs V}

lemma counted_ok {a : α} {inner : V} (h : m v.inner = .ok a inner) :
    counted tally m v = .ok a ⟨inner, tally v.stats⟩ := by
  unfold counted
  rw [h]

lemma counted_error {f : Fault} {inner : V} (h : m v.inner = .error f inner) :
    counted tally m v = .error f ⟨inner, tally v.stats⟩ := by
  unfold counted
  rw [h]

instance [Vfs V] [Reliable V] : Reliable (CountingVfs V) where
  file v := ExactReads.file v.inner
  Same v v' := ExactReads.Same v.inner v'.inner ∧ v'.stats.writeBytes = v.stats.writeBytes
  refl v := ⟨ExactReads.refl v.inner, rfl⟩
  trans h h' := ⟨ExactReads.trans h.1 h'.1, h'.2.trans h.2⟩
  file_eq h := ExactReads.file_eq h.1
  read v off len := by
    obtain ⟨inner, hsame, hread⟩ := ExactReads.read v.inner off len
    refine ⟨⟨inner,
      { v.stats with readOps := v.stats.readOps + 1, readBytes := v.stats.readBytes + len }⟩,
      ⟨hsame, rfl⟩, ?_⟩
    cases hr : readAt (ExactReads.file v.inner) off len with
    | some data =>
      rw [hr] at hread
      exact counted_ok hread
    | none =>
      rw [hr] at hread
      exact counted_error hread
  len v := by
    obtain ⟨inner, hsame, hlen⟩ := ExactReads.len v.inner
    exact ⟨⟨inner, v.stats⟩, ⟨hsame, rfl⟩, counted_ok hlen⟩
  Idle v := Reliable.Idle v.inner
  idle_same h := Reliable.idle_same h.1
  setLen v n := by
    obtain ⟨inner, hset, hfile, hidle⟩ := Reliable.setLen v.inner n
    exact ⟨_, counted_ok hset, hfile, hidle⟩
  sync v hv := by
    obtain ⟨inner, hsync, hfile, hidle⟩ := Reliable.sync v.inner hv
    exact ⟨_, counted_ok hsync, hfile, hidle⟩
  write v off data hv := by
    obtain ⟨v₁, v', hw, hs, hfile, hidle⟩ := Reliable.write v.inner off data hv
    let v₂ : CountingVfs V :=
      ⟨v₁, { v.stats with
        writeOps := v.stats.writeOps + 1
        writeBytes := v.stats.writeBytes + data.length }⟩
    exact ⟨v₂, _, counted_ok hw, counted_ok (v := v₂) hs, hfile, hidle⟩

end CountingVfs

section Length
variable [Crc32Fast] {s : Ideal} {h : ℕ} {t : Live h} {base : ℕ}
    {batch batch' : DiskStore.Batch} {id : NodeId}

omit [Crc32Fast] in
lemma Ideal.payload_length {assigned : OrdMap NodeId ℕ} {n : Node} {payload : List Byte}
    (h : s.payload assigned n = some payload) :
    payload.length = n.payloadLength := by
  cases n with
  | leaf es =>
    cases h
    rfl
  | internal ps cs b =>
    obtain ⟨offsets, hoff, rfl⟩ := Option.map_eq_some_iff.mp h
    have hlen := (forall₂_of_mapM hoff).length_eq
    exact encodeNode_internal_length ps b (by simp [hlen])

def Ideal.recordLength (s : Ideal) (id : NodeId) : ℕ :=
  match s.slots id with
  | some (.loaded n _ _) => recordHeaderSize + n.payloadLength
  | _ => 0

lemma Ideal.serialize_length (h : s.serialize base batch id = .ok batch') :
    batch'.buf.length = batch.buf.length + s.recordLength id := by
  unfold Ideal.serialize at h
  unfold Ideal.recordLength
  split_ifs at h
  cases hx : s.slots id with
  | none => simp [hx] at h
  | some x =>
    cases x with
    | stub r => simp [hx] at h
    | loaded n d r =>
      simp only [hx] at h ⊢
      cases hp : s.payload batch.assigned n with
      | none => simp [hp] at h
      | some payload =>
        simp only [hp] at h
        split_ifs at h
        cases h
        rw [List.length_append, encodeRecord_length, Ideal.payload_length hp]

lemma Ideal.serializes_length {ids : List NodeId}
    (h : ids.foldlM (s.serialize base) batch = .ok batch') :
    batch'.buf.length = batch.buf.length + (ids.map s.recordLength).sum := by
  induction ids generalizing batch with
  | nil =>
    cases h
    rfl
  | cons id ids ih =>
    rw [List.foldlM_cons] at h
    cases hone : s.serialize base batch id with
    | error f =>
      rw [hone] at h
      cases h
    | ok batch₁ =>
      rw [hone] at h
      rw [ih h, Ideal.serialize_length hone, List.map_cons, List.sum_cons, Nat.add_assoc]

lemma Batched.length (hb : Batched s t base batch) (hF : Stored s (Live.foot t)) :
    batch.buf.length + superblockSlotSize = chargeOf ((Live.written t).map Prod.snd) := by
  have hlen := Ideal.serializes_length hb.run
  have hone : ∀ w ∈ Live.written t, s.recordLength w.1 = recordHeaderSize + w.2.payloadLength := by
    intro w hw
    obtain ⟨r, hr⟩ := Live.written_foot hw
    unfold Ideal.recordLength
    rw [hF.slots _ hr]
  have hsum :
    ((Live.queue t).map s.recordLength).sum = ((Live.written t).map
      fun w => recordHeaderSize + w.2.payloadLength).sum := by
    unfold Live.queue
    rw [List.map_reverse, List.sum_reverse, List.map_map]
    exact congrArg List.sum (List.map_congr_left hone)
  unfold chargeOf
  rw [hlen, hsum, List.map_map]
  simp [DiskStore.Batch.new, Function.comp_def]

end Length

section Publish
variable {V : Type} [Vfs V] {v : CountingVfs V}

omit [Vfs V] in
lemma CountingVfs.ends_counted {α : Type} (tally : IoStats → IoStats) (m : EStateM Fault V α) :
    Ends (CountingVfs.counted tally m) v (fun _ v' => v'.stats = tally v.stats) fun _ v' =>
    v'.stats = tally v.stats := by
  cases hm : m v.inner with
  | ok a inner => exact .of_ok (CountingVfs.counted_ok hm) rfl
  | error f inner => exact .of_error (CountingVfs.counted_error hm) rfl

lemma CountingVfs.ends_sync : Ends Vfs.sync v (fun _ v' => v'.stats.writeBytes = v.stats.writeBytes)
    fun _ _ => True :=
  (CountingVfs.ends_counted _ _).mono (fun _ _ h => by rw [h]) fun _ _ _ => trivial

lemma CountingVfs.ends_write (off : ℕ) (data : List Byte) :
    Ends (do Vfs.writeAllAt off data; Vfs.sync) v
    (fun _ v' => v'.stats.writeBytes = v.stats.writeBytes + data.length) fun _ _ => True := by
  refine Ends.bind ((CountingVfs.ends_counted _ _).mono (fun _ _ h => h) fun _ _ _ => trivial)
    fun _ v₁ h₁ => ?_
  refine CountingVfs.ends_sync.mono (fun _ v' h => ?_) fun _ _ _ => trivial
  rw [h, h₁]

variable [Crc32Fast] {d : DiskStore (CountingVfs V)}
open DiskStore (ends_onVfs)

lemma DiskStore.publish_counts (params : Params) (nextSeq : UInt64) (root : NodeId)
    (batch : Batch) :
    Ends (publish params nextSeq root batch) d
      (fun _ d' => d'.vfs.stats.writeBytes = d.vfs.stats.writeBytes +
        (batch.buf.length + superblockSlotSize)) fun _ _ => True := by
  have hrecords :
    Ends (if batch.buf.isEmpty then Vfs.sync else do Vfs.writeAllAt d.watermark batch.buf; Vfs.sync)
      d.vfs
      (fun _ v => v.stats.writeBytes = d.vfs.stats.writeBytes + batch.buf.length)
        fun _ _ => True := by
    split_ifs with hb
    · refine CountingVfs.ends_sync.mono (fun _ v h => ?_) fun _ _ _ => trivial
      rw [h, List.isEmpty_iff.mp hb]
      rfl
    · exact CountingVfs.ends_write _ _
  unfold Ends
  rw [publish_eq]
  refine Ends.bind ((ends_onVfs hrecords).mono (fun _ _ h => h.1) fun _ _ _ => trivial)
    fun _ d₁ h₁ => ?_
  unfold publishRoot
  refine Ends.bind (Q := fun _ d' => d' = d₁) (ends_checkedAdd (fun _ => rfl) fun _ => trivial) ?_
  rintro w d₂ rfl
  refine Ends.bind (Q := fun s d' => s = d₂ ∧ d' = d₂) (.of_ok rfl ⟨rfl, rfl⟩) ?_
  rintro s d₃ ⟨rfl, hd₃⟩
  rw [hd₃]
  cases s.resolveOffset batch.assigned root with
  | none => exact .of_error rfl trivial
  | some rootOffset =>
    dsimp only
    refine Ends.bind ((ends_onVfs (CountingVfs.ends_write _ _)).mono (fun _ _ h => h.1)
      fun _ _ _ => trivial) fun _ d₄ h₄ => ?_
    refine Ends.bind (Q := fun _ d' => d' = d₄) (ends_checkedAdd (fun _ => rfl) fun _ => trivial) ?_
    rintro g d₅ rfl
    refine .of_ok rfl ?_
    rw [Superblock.encodeSlot_length] at h₄
    change d₅.vfs.stats.writeBytes = _
    rw [h₄, h₁, Nat.add_assoc]

end Publish

section Priced
variable {π V : Type} [Vfs V] [Reliable V] [Crc32Fast] {b : BeTree π}
    {r r' : DiskEngine π (CountingVfs V)} {e : Engine π Ideal} {h : ℕ}
  {t : Live h}

lemma commit_counts (hr : Alike (DiskStore.Models ExactReads.file) e r) (ht : Holds e t)
    (hidle : Reliable.Idle r.store.vfs)
    (hbase : dataStart ≤ r.store.watermark)
    (hlen : r.store.watermark ≤ (ExactReads.file r.store.vfs).length ∨
      r.store.watermark = dataStart ∧ t.dirty = true) :
    ∃ N, ∀ fuel ≥ N, Ends (DiskEngine.commit fuel) r
      (fun stats r' => r'.store.vfs.stats.writeBytes = r.store.vfs.stats.writeBytes +
        stats.bytesWritten) fun _ _ => True := by
  have hwatch : DiskEngine.Watched ExactReads.Same e t r
      (fun batch v => v.stats.writeBytes = r.store.vfs.stats.writeBytes +
        (batch.buf.length + superblockSlotSize)) fun _ => True := by
    intro d batch root hsame _ _ _ _
    rw [← hsame.2]
    exact DiskStore.publish_counts _ _ _ _
  obtain ⟨N, hN⟩ := DiskEngine.commitInner_watched device_reliable hr ht hidle hbase hlen
    (fun _ _ => trivial) hwatch
  refine ⟨N, fun fuel hf => ?_⟩
  unfold DiskEngine.commit
  refine .after (Engine.run_get) ?_
  split_ifs
  · exact .of_error rfl trivial
  · refine (ends_poisoning (hN fuel hf)).mono ?_ fun _ _ _ => trivial
    rintro stats r' ⟨batch, hc, hcount⟩
    rw [hcount, hc.stats]

/-- The in-memory engine beside one on a device. -/
def Priced (b : BeTree π) (r : DiskEngine π (CountingVfs V)) : Prop :=
  ∃ (e : Engine π Ideal) (h : ℕ) (t : Live h) (sb : Superblock) (D : Record)
    (prev : Option (Superblock × Record)),
    Alike Arena.Same e b ∧ Sits ExactReads.file Reliable.Idle r e t sb D prev

lemma Sits.charged {sb : Superblock} {D : Record} {prev : Option (Superblock × Record)}
    (hb : Alike Arena.Same e b) (ht : Holds e t)
    {batch : DiskStore.Batch} {stats : CommitStats}
    (hc : DiskEngine.Commits ExactReads.file Reliable.Idle e t r batch stats r')
    (hs' : Sits ExactReads.file Reliable.Idle r' (e.committed batch.offset t)
      (Live.commit batch.offset t) sb D prev) :
    ∃ N b', Priced b' r' ∧ ∀ fuel ≥ N, BeTree.simulateCommit fuel b = .ok stats.bytesWritten
      b' := by
  obtain ⟨N, hN⟩ := dirtyNodes_run ht.root ht.stored
  obtain ⟨b', hrun, hb'⟩ := simulateCommit_run (ρ := .same) ht.stored (hN N le_rfl)
    batch.offset b hb
  have hbytes : stats.bytesWritten = chargeOf ((Live.written t).map Prod.snd) := by
    rw [hc.stats]
    exact hc.batched.length ht.stored
  rw [← hbytes] at hrun
  exact ⟨N, b', ⟨_, _, _, _, _, _, hb', hs'⟩, fun fuel hf => (refines_simulateCommit hf).ok hrun⟩

variable [FlushPolicy π]

/-- The call on a device that goes with one in memory. -/
def SimOp.onDisk : SimOp → DiskOp
  | .op o => .op o
  | .commit => .commit

/-- Both return the same, and a commit boundary the bytes of the commit. -/
inductive Tallies : SimReply → DiskReply → Prop
  | reply (reply : Reply) : Tallies (.reply reply) (.reply reply)
  | bytes (stats : CommitStats) : Tallies (.bytes stats.bytesWritten) (.stats stats)

def SimReply.cost : SimReply → ℕ
  | .reply _ => 0
  | .bytes n => n

omit [Crc32Fast] [Reliable V] in
lemma readKeeps_counting :
    ReadKeeps fun v v' : CountingVfs V => v'.stats.writeBytes = v.stats.writeBytes where
  refl _ := rfl
  trans h h' := h'.trans h
  read off len v := by
    exact (CountingVfs.ends_counted _ _).mono (fun _ _ h => (congrArg IoStats.writeBytes h).trans
      rfl) fun _ _ h =>
      (congrArg IoStats.writeBytes h).trans rfl

lemma Priced.step (hπ : FlushPolicy.Legal π) (hp : Priced b r) (op : SimOp) :
    ∃ N, ∀ fuel ≥ N, ∀ reply r',
    DiskEngine.step fuel op.onDisk r = .ok reply r' →
    ∃ N' reply' b', (∀ fuel ≥ N', BeTree.simStep fuel op b = .ok reply' b') ∧
      Tallies reply' reply ∧ Priced b' r' ∧
      r'.store.vfs.stats.writeBytes = r.store.vfs.stats.writeBytes + reply'.cost := by
  obtain ⟨e, _, t, sb, D, prev, hb, hs⟩ := hp
  cases op with
  | commit =>
    have hw : r.store.watermark = sb.watermark.toNat := hs.watermark
    obtain ⟨N₁, hN₁⟩ := hs.commit device_reliable
    obtain ⟨N₂, hN₂⟩ := commit_counts hs.alike hs.holds hs.idle (hw ▸ hs.durable.stands.sane.1)
      (Or.inl (hw ▸ hs.durable.stands.length))
    refine ⟨max N₁ N₂, fun fuel hf reply r' hrun => ?_⟩
    have hstep : DiskEngine.step fuel .commit r = .ok reply r' := hrun
    obtain ⟨stats, r₁, hcommit, hpure⟩ := bind_eq_ok hstep
    cases hpure
    obtain ⟨batch, hc, hs'⟩ := (hN₁ fuel (le_of_max_le_left hf)).ok hcommit
    obtain ⟨N, b', hpriced, hsim⟩ := Sits.charged hb hs.holds hc hs'
    refine ⟨N, .bytes stats.bytesWritten, b', fun fuel hf => run_bind_ok (hsim fuel hf),
      .bytes stats, hpriced, ?_⟩
    exact (hN₂ fuel (le_of_max_le_right hf)).ok hcommit
  | op o =>
    by_cases hnum : DiskOp.Numbered e.nextSeq (.op o)
    · have hop : DiskOp.op o ≠ .commit := by simp
      obtain ⟨reply, e', _, t', N, hperf, hN⟩ :=
        call_returns (V := CountingVfs V) hπ hs.holds hop hnum
      obtain ⟨answer, rfl, hideal⟩ := hperf o rfl
      rcases (arenaSim .same).sims_step traceSim_eq (policySim_eq π) N o e b hb trivial answer e'
        (hideal N le_rfl) with
        ⟨_, b', hb', rfl, -, hal, -⟩ | ⟨f, b', -, -, hf, -⟩
      swap
      · exact hf.elim
      refine ⟨N, fun fuel hf reply r' hrun => ?_⟩
      obtain ⟨r₁, hrun₁, hs'⟩ := hN fuel hf r sb D prev hs
      have hcount := ((DiskEngine.inert_call readKeeps_counting fuel (Or.inr hop)).ok hrun₁).1.same
      rw [show DiskEngine.step fuel (SimOp.onDisk (.op o)) r = _ from hrun₁] at hrun
      cases hrun
      exact ⟨N, .reply _, b', fun fuel hf => run_bind_ok ((refines_step hf o).ok hb'), .reply _,
        ⟨e', _, t', sb, D, prev, hal, hs'⟩,
        hcount⟩
    · exact ⟨0,
        fun fuel _ reply r' hrun => ((call_overflow device_reliable hnum hs fuel).ok hrun).elim⟩

lemma Priced.run (hπ : FlushPolicy.Legal π) (hp : Priced b r) {fuel : ℕ} {ops : List SimOp}
    {replies : List DiskReply}
    (hrun : runCalls (DiskEngine.step fuel) (ops.map SimOp.onDisk) r = .ok (replies.map .ok, r')) :
    ∃ N replies' b', (∀ fuel ≥ N, runOps (BeTree.simStep fuel) ops b = .ok replies' b') ∧
    List.Forall₂ Tallies replies' replies ∧
      Priced b' r' ∧ r'.store.vfs.stats.writeBytes = r.store.vfs.stats.writeBytes +
        (replies'.map SimReply.cost).sum := by
  induction ops generalizing b r replies with
  | nil =>
    obtain ⟨hout, rfl⟩ := Prod.mk.inj (Except.ok.inj hrun)
    obtain rfl := List.map_eq_nil_iff.mp hout.symm
    exact ⟨0, [], b, fun _ _ => rfl, .nil, hp, rfl⟩
  | cons op ops ih =>
    rcases runCalls_cons hrun with ⟨reply, r₁, rest, hstep, hrest, hout⟩ | ⟨x, r₁, rest, -, -, hout⟩
    · obtain ⟨reply, replies, rfl, hreply, rfl⟩ := List.map_eq_cons_iff.mp hout
      obtain rfl := Except.ok.inj hreply
      obtain ⟨N, hN⟩ := hp.step hπ op
      obtain ⟨N₁, reply', b₁, hsim, htally, hp₁, hcount⟩ := hN (max fuel N) (le_max_right _ _) _ _
        ((DiskEngine.refines_step (le_max_left fuel N) op.onDisk).ok hstep)
      obtain ⟨N₂, replies', b', hsims, htallies, hp', hcount'⟩ := ih hp₁ hrest
      refine ⟨max N₁ N₂, reply' :: replies', b', fun fuel hf => ?_, .cons htally htallies, hp', ?_⟩
      · rw [runOps, run_bind_ok (hsim fuel (le_of_max_le_left hf)),
          run_bind_ok (hsims fuel (le_of_max_le_right hf))]
        rfl
      · rw [hcount', hcount, List.map_cons, List.sum_cons, Nat.add_assoc]
    · obtain ⟨reply, replies, rfl, hreply, -⟩ := List.map_eq_cons_iff.mp hout
      cases hreply

omit [FlushPolicy π] in
/-- The first commit boundary of a new engine charges for what creating a file writes. -/
lemma priced_new {fuel : ℕ} {budget : Option ℕ} {params : Params} {policy : π} {v : V}
    (hv : Reliable.Idle v)
    (hc : DiskEngine.createOn fuel budget params policy (CountingVfs.new v) = .ok r) :
    ∃ N b b', BeTree.withPolicy params policy = .ok b ∧ Priced b' r ∧
      ∀ fuel ≥ N, BeTree.simulateCommit fuel b = .ok r.store.vfs.stats.writeBytes b' := by
  have hp := (createOn_inv (ExactReads.file : CountingVfs V → List Byte) hc).1
  obtain ⟨b, hb, hal⟩ := withPolicy_eq hp policy
  obtain ⟨r₀, batch, stats, hsame, hf, hw, -, -, hcommit, hcommits, hsits⟩ :=
    createOn_commits (V := CountingVfs V) hv hc
  have hidle : Reliable.Idle r₀.store.vfs := Reliable.idle_same hsame hv
  obtain ⟨N₁, hN₁⟩ := commit_counts hf.alike hf.holds hidle hw.ge (Or.inr ⟨hw, rfl⟩)
  have hcount := (hN₁ (max fuel N₁) (le_max_right _ _)).ok
    ((DiskEngine.refines_commit (le_max_left fuel N₁)).ok hcommit)
  have hzero : r₀.store.vfs.stats.writeBytes = 0 := hsame.2
  obtain ⟨N, b', hpriced, hsim⟩ := Sits.charged hal hf.holds hcommits hsits
  rw [hzero, Nat.zero_add] at hcount
  rw [hcount]
  exact ⟨N, b, b', hb, hpriced, hsim⟩

/-- The cost model is exact: whatever is asked of an engine on a device that counts, an engine in
memory returns the same, with the same trace, and at each commit boundary the bytes that the commit
writes. -/
theorem simulateCommit_exact (hπ : FlushPolicy.Legal π) {fuel fuel' : ℕ} {budget : Option ℕ}
    {params : Params} {policy : π} {v : V}
    (hv : Reliable.Idle v)
    (hc : DiskEngine.createOn fuel budget params policy (CountingVfs.new v) = .ok r)
    {ops : List SimOp} {replies : List DiskReply}
    (hrun : runCalls (DiskEngine.step fuel') (ops.map SimOp.onDisk) r = .ok (replies.map .ok, r')) :
    ∃ N b b₁ bytes replies' b', BeTree.withPolicy params policy = .ok b ∧
      (∀ fuel ≥ N, BeTree.simulateCommit fuel b = .ok bytes b₁ ∧
        runOps (BeTree.simStep fuel) ops b₁ = .ok replies' b') ∧
      List.Forall₂ Tallies replies' replies ∧ b'.trace = r'.trace ∧
      r'.store.vfs.stats.writeBytes = bytes + (replies'.map SimReply.cost).sum := by
  obtain ⟨N₁, b, b₁, hb, hpriced, hsim⟩ := priced_new hv hc
  obtain ⟨N₂, replies', b', hsims, htallies, ⟨e, _, t, sb, D, prev, hal, hs⟩, hcount⟩ :=
    hpriced.run hπ hrun
  exact ⟨max N₁ N₂, b, b₁, _, replies', b', hb, fun fuel hf => ⟨hsim fuel (le_of_max_le_left hf),
    hsims fuel (le_of_max_le_right hf)⟩,
    htallies, hal.trace.symm.trans hs.alike.trace, hcount⟩

end Priced

/-- Operations that split and flush, with two commits. -/
def SimOp.worn :
    List SimOp := Op.churn.map SimOp.op ++ [SimOp.commit,
      SimOp.op (.mutate (.delete [4])), SimOp.commit]

lemma counted_worn : ∃ (r r₁ r₂ r₃ : DiskEngine GreedyFullest (CountingVfs FaultyVfs))
    (replies replies' replies'' : List DiskReply),
    @DiskEngine.createOn _ _ _ crc32Ieee 40 (some 100) .tiny ⟨⟩ (.new .new) = .ok r ∧
    runOps (@DiskEngine.step _ _ _ crc32Ieee _ 40)
    (Op.churn.map .op ++ [.commit]) r = .ok replies r₁ ∧
    runOps (@DiskEngine.step _ _ _ crc32Ieee _ 40)
    [.op (.mutate (.delete [4]))] r₁ = .ok replies' r₂ ∧
    runOps (@DiskEngine.step _ _ _ crc32Ieee _ 40) [.commit] r₂ = .ok replies'' r₃ ∧
    r₃.store.vfs.stats.writeBytes = 12752 ∧ r₃.trace.decisions.length = 7 := by
  have hruns :
    goesThrough (@DiskEngine.createOn _ _ _ crc32Ieee 40 (some 100) .tiny (⟨⟩ : GreedyFullest)
      (CountingVfs.new FaultyVfs.new))
      (runOps (@DiskEngine.step _ _ _ crc32Ieee _ 40) (Op.churn.map .op ++ [.commit]))
      (runOps (@DiskEngine.step _ _ _ crc32Ieee _ 40) [.op (.mutate (.delete [4]))])
      (runOps (@DiskEngine.step _ _ _ crc32Ieee _ 40) [.commit])
      (fun _ _ r₃ => decide (r₃.store.vfs.stats.writeBytes = 12752) &&
        decide (r₃.trace.decisions.length = 7)) = true := by
    decide +kernel
  obtain ⟨r, r₁, r₂, r₃, replies, replies', replies'', h₀, h₁, h₂, h₃, hcheck⟩ :=
    goesThrough_eq_true hruns
  exact ⟨r, r₁, r₂, r₃, replies, replies', replies'', h₀, h₁, h₂, h₃, by simpa using hcheck⟩

/-- The same run in memory charges for what the device counts. -/
theorem simulateCommit_exact_worn : ∃ (r r' : DiskEngine GreedyFullest (CountingVfs FaultyVfs))
    (replies : List DiskReply)
    (N : ℕ) (b b₁ : BeTree GreedyFullest) (bytes : ℕ) (replies' : List SimReply)
    (b' : BeTree GreedyFullest),
    @DiskEngine.createOn _ _ _ crc32Ieee 40 (some 100) .tiny ⟨⟩ (.new .new) = .ok r ∧
    runCalls (@DiskEngine.step _ _ _ crc32Ieee _ 40)
      (SimOp.worn.map SimOp.onDisk) r = .ok (replies.map .ok, r') ∧
    BeTree.withPolicy .tiny ⟨⟩ = .ok b ∧
    (∀ fuel ≥ N, BeTree.simulateCommit fuel b = .ok bytes b₁ ∧
      runOps (BeTree.simStep fuel) SimOp.worn b₁ = .ok replies' b') ∧
    List.Forall₂ Tallies replies' replies ∧ b'.trace.decisions.length = 7 ∧
    bytes + (replies'.map SimReply.cost).sum = 12752 := by
  let _ := crc32Ieee
  obtain ⟨r, r₁, r₂, r', replies, replies', replies'', hc, h₁, h₂, h₃, hbytes, hdecisions⟩ :=
    counted_worn
  have hrun : runCalls (DiskEngine.step 40) (SimOp.worn.map SimOp.onDisk) r =
      .ok ((replies ++ (replies' ++ replies'')).map .ok, r') :=
        runCalls_of_runOps (runOps_append h₁ (runOps_append h₂ h₃))
  obtain ⟨N, b, b₁, bytes, answers, b', hb, hN, htallies, htrace, hcount⟩ :=
    simulateCommit_exact GreedyFullest.legal FaultyVfs.idle_new hc hrun
  exact ⟨r, r', _, N, b, b₁, bytes, answers, b', hc, hrun, hb, hN, htallies, htrace ▸ hdecisions,
    hcount.symm.trans hbytes⟩

end Beetree
