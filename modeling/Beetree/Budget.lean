import Beetree.History

/-! What the cache may hold is a matter of speed.

Two engines that follow one tree over the same file return the same and write the same, whatever
each of them keeps in memory. -/
namespace Beetree

section Twins
variable {π V : Type} [Vfs V] [Reliable V] [Crc32Fast] {r₁ r₂ r₁' r₂' : DiskEngine π V}

/-- Two engines that follow one tree over one file. -/
def Twins (r₁ r₂ : DiskEngine π V) : Prop :=
  ∃ (e : Engine π Ideal) (h : ℕ) (t : Live h) (sb : Superblock) (D : Record)
    (prev : Option (Superblock × Record)),
    Sits ExactReads.file Reliable.Idle r₁ e t sb D prev ∧
      Sits ExactReads.file Reliable.Idle r₂ e t sb D prev ∧
      ExactReads.file r₂.store.vfs = ExactReads.file r₁.store.vfs

lemma Batched.unique {s : Ideal} {h : ℕ} {t : Live h} {base : ℕ} {batch batch' : DiskStore.Batch}
    (hb : Batched s t base batch)
    (hb' : Batched s t base batch') : batch = batch' := by
  have h := hb.run
  rw [hb'.run] at h
  exact (Except.ok.inj h).symm

lemma Commits.twins {Idle : V → Prop} {e : Engine π Ideal} {h : ℕ} {t : Live h}
    {batch batch' : DiskStore.Batch}
    {stats stats' : CommitStats}
    (hc₁ : DiskEngine.Commits ExactReads.file Idle e t r₁ batch stats r₁')
    (hc₂ : DiskEngine.Commits ExactReads.file Idle e t r₂ batch' stats' r₂')
    (hw : r₂.store.watermark = r₁.store.watermark)
    (hg : r₂.store.nextGeneration = r₁.store.nextGeneration)
    (hf : ExactReads.file r₂.store.vfs = ExactReads.file r₁.store.vfs) :
    batch' = batch ∧ stats' = stats ∧
    ExactReads.file r₂'.store.vfs = ExactReads.file r₁'.store.vfs := by
  have hb₂ := hc₂.batched
  rw [hw] at hb₂
  obtain rfl := hb₂.unique hc₁.batched
  refine ⟨rfl, hc₂.stats.trans hc₁.stats.symm, ?_⟩
  rw [hc₂.file, hc₁.file, hc₂.watermark, hc₁.watermark, hw, hg, hf]

lemma Twins.trace (h : Twins r₁ r₂) : r₂.trace = r₁.trace := by
  obtain ⟨e, _, t, sb, D, prev, h₁, h₂, -⟩ := h
  exact h₂.alike.trace.symm.trans h₁.alike.trace

lemma Twins.file (h : Twins r₁ r₂) :
    ExactReads.file r₂.store.vfs = ExactReads.file r₁.store.vfs := by
  obtain ⟨e, _, t, sb, D, prev, -, -, hfile⟩ := h
  exact hfile

lemma Twins.commit (h : Twins r₁ r₂) :
    ∃ N, ∀ fuel ≥ N, ∀ stats r₁', DiskEngine.commit fuel r₁ = .ok stats r₁' →
    ∃ r₂', DiskEngine.commit fuel r₂ = .ok stats r₂' ∧ Twins r₁' r₂' := by
  obtain ⟨e, _, t, sb, D, prev, h₁, h₂, hfile⟩ := h
  obtain ⟨N₁, hN₁⟩ := h₁.commit device_reliable
  obtain ⟨N₂, hN₂⟩ := h₂.commit device_reliable
  refine ⟨max N₁ N₂, fun fuel hf stats r₁' hrun₁ => ?_⟩
  obtain ⟨batch, hc₁, hs₁⟩ := (hN₁ fuel (le_of_max_le_left hf)).ok hrun₁
  have hw : r₂.store.watermark = r₁.store.watermark := h₂.watermark.trans h₁.watermark.symm
  have hg : r₂.store.nextGeneration = r₁.store.nextGeneration :=
    h₂.nextGeneration.trans h₁.nextGeneration.symm
  have hends := hN₂ fuel (le_of_max_le_right hf)
  cases hrun₂ : DiskEngine.commit fuel r₂ with
  | ok stats' r₂' =>
    obtain ⟨batch', hc₂, hs₂⟩ := hends.ok hrun₂
    obtain ⟨rfl, rfl, hfile'⟩ := Commits.twins hc₁ hc₂ hw hg hfile
    have hpub : DiskEngine.Published e t r₂ batch' = DiskEngine.Published e t r₁ batch' := by
      unfold DiskEngine.Published
      rw [hw, hg]
    rw [hpub] at hs₂
    exact ⟨r₂', rfl, _, _, _, _, _, _, hs₁, hs₂, hfile'⟩
  | error f r₂' =>
    have hfits : DiskEngine.Fits e t r₂.store.watermark r₂.store.nextGeneration := by
      rw [hw, hg]
      have h64 : r₁'.store.watermark < 2 ^ 64 := hc₁.alike.store.watermark
      rw [hc₁.watermark] at h64
      exact ⟨batch, hc₁.batched, h64, hc₁.fits⟩
    have hfail := hends.error hrun₂
    by_cases hs : f.IsStorage
    · obtain ⟨-, hE, -⟩ := hfail.storage hs
      exact absurd hfits (hE.resolve_left id).2
    · exact absurd hfits ((hfail.other hs).resolve_left id).2

variable [FlushPolicy π]

/-- On a reliable device every call returns for which there is a number, commits apart. -/
lemma call_returns (hπ : FlushPolicy.Legal π) {e : Engine π Ideal} {h : ℕ} {t : Live h}
    (ht : Holds e t) {op : DiskOp}
    (hop : op ≠ .commit) (hnum : op.Numbered e.nextSeq) :
    ∃ (reply : DiskReply) (e' : Engine π Ideal) (h' : ℕ) (t' : Live h')
    (N : ℕ), op.Performs reply N e e' ∧
      ∀ fuel ≥ N, ∀ (r : DiskEngine π V) sb D prev, Sits ExactReads.file Reliable.Idle
        r e t sb D prev →
      ∃ r', DiskEngine.step fuel op r = .ok reply r' ∧
      Sits ExactReads.file Reliable.Idle r' e' t' sb D prev := by
  obtain ⟨reply, e', h', t', N, -, hperf, hN⟩ := call_run (device_reliable (V := V))
    (fun _ hf => hf.elim) hπ ht hop hnum op.safe_true
  refine ⟨reply, e', h', t', N, hperf, fun fuel hf r sb D prev hs => ?_⟩
  have hends := hN fuel hf r sb D prev hs
  cases hrun : DiskEngine.step fuel op r with
  | ok reply' r' =>
    obtain ⟨rfl, hs'⟩ := hends.ok hrun
    exact ⟨r', rfl, hs'⟩
  | error f r' =>
    cases hends.error hrun with
    | missed hf => exact hf.elim
    | poisoned _ hf => exact hf.elim
    | overflow hn => exact absurd hnum hn
    | panic _ hf => exact hf.elim

lemma Twins.step (hπ : FlushPolicy.Legal π) (h : Twins r₁ r₂) (op : DiskOp) :
    ∃ N, ∀ fuel ≥ N, ∀ reply r₁',
    DiskEngine.step fuel op r₁ = .ok reply r₁' → ∃ r₂', DiskEngine.step fuel op r₂ = .ok reply r₂' ∧
    Twins r₁' r₂' := by
  by_cases hop : op = .commit
  · subst hop
    obtain ⟨N, hN⟩ := h.commit
    refine ⟨N, fun fuel hf reply r₁' hrun => ?_⟩
    obtain ⟨stats, r, hcommit, hpure⟩ := bind_eq_ok hrun
    cases hpure
    obtain ⟨r₂', hcommit₂, htwins⟩ := hN fuel hf stats _ hcommit
    exact ⟨r₂', run_bind_ok hcommit₂, htwins⟩
  · obtain ⟨e, _, t, sb, D, prev, h₁, h₂, hfile⟩ := h
    by_cases hnum : op.Numbered e.nextSeq
    · obtain ⟨reply, e', _, t', N, -, hN⟩ := call_returns (V := V) hπ h₁.holds hop hnum
      refine ⟨N, fun fuel hf reply₁ r₁' hrun₁ => ?_⟩
      obtain ⟨r, hrun, hs₁⟩ := hN fuel hf r₁ sb D prev h₁
      obtain ⟨r₂', hrun₂, hs₂⟩ := hN fuel hf r₂ sb D prev h₂
      rw [hrun] at hrun₁
      cases hrun₁
      refine ⟨r₂', hrun₂, e', _, t', sb, D, prev, hs₁, hs₂, ?_⟩
      let _ : Honest V := Reliable.honest
      have hi₁ := ((DiskEngine.inert_call readKeeps_honest fuel (Or.inr hop)).ok hrun).1.same.1
      have hi₂ := ((DiskEngine.inert_call readKeeps_honest fuel (Or.inr hop)).ok hrun₂).1.same.1
      exact (hi₂.trans hfile).trans hi₁.symm
    · exact ⟨0,
        fun fuel _ reply r₁' hrun => ((call_overflow device_reliable hnum h₁ fuel).ok hrun).elim⟩

/-- Where a run meets no error, neither does the other, and it returns the same. -/
lemma Twins.run (hπ : FlushPolicy.Legal π) (h : Twins r₁ r₂) {fuel : ℕ} {ops : List DiskOp}
    {replies : List DiskReply}
    (hrun : runCalls (DiskEngine.step fuel) ops r₁ = .ok (replies.map .ok, r₁')) :
    ∃ N r₂', Twins r₁' r₂' ∧
      ∀ fuel ≥ N, runCalls (DiskEngine.step fuel) ops r₂ = .ok (replies.map .ok, r₂') := by
  induction ops generalizing r₁ r₂ replies with
  | nil =>
    obtain ⟨hout, rfl⟩ := Prod.mk.inj (Except.ok.inj hrun)
    exact ⟨0, r₂, h, fun _ _ => by rw [← hout]; rfl⟩
  | cons op ops ih =>
    rcases runCalls_cons hrun with ⟨reply, r, rest, hstep, hrest, hout⟩ | ⟨x, r, rest, -, -, hout⟩
    · obtain ⟨reply', replies, rfl, hreply, rfl⟩ := List.map_eq_cons_iff.mp hout
      obtain rfl := Except.ok.inj hreply
      obtain ⟨N, hN⟩ := h.step hπ op
      obtain ⟨r', hstep', htwins⟩ := hN (max fuel N) (le_max_right _ _) _ _
        ((DiskEngine.refines_step (le_max_left fuel N) op).ok hstep)
      obtain ⟨N', r₂', htwins', hN'⟩ := ih htwins hrest
      refine ⟨max (max fuel N) N', r₂', htwins', fun fuel' hf => ?_⟩
      have hstep₂ := (DiskEngine.refines_step (le_of_max_le_left hf) op).ok hstep'
      rw [runCalls, hstep₂]
      dsimp only
      rw [hN' fuel' (le_of_max_le_right hf)]
      rfl
    · obtain ⟨reply, replies, rfl, hreply, -⟩ := List.map_eq_cons_iff.mp hout
      cases hreply

end Twins

section Start
variable {π V : Type} [Vfs V] [Reliable V] [Crc32Fast] [FlushPolicy π]

/-- Two engines that are created on empty devices, or open the same file, each with a budget of its
own. -/
inductive Alongside : DiskEngine π V → DiskEngine π V → Prop
  | create {fuel₁ fuel₂ : ℕ} {budget₁ budget₂ : Option ℕ} {params : Params} {policy : π} {v₁ v₂ : V}
    {r₁ r₂ : DiskEngine π V} :
      Reliable.Idle v₁ → Reliable.Idle v₂ →
      DiskEngine.createOn fuel₁ budget₁ params policy v₁ = .ok r₁ →
      DiskEngine.createOn fuel₂ budget₂ params policy v₂ = .ok r₂ → Alongside r₁ r₂
  | reopen {budget₁ budget₂ : Option ℕ} {policy : π} {v₁ v₂ : V} {m : KvStore}
    {r₁ r₂ : DiskEngine π V} :
      Reliable.Idle v₁ → Reliable.Idle v₂ → Saves (ExactReads.file v₁) m →
      ExactReads.file v₂ = ExactReads.file v₁ →
      DiskEngine.openOn budget₁ policy v₁ = .ok r₁ →
      DiskEngine.openOn budget₂ policy v₂ = .ok r₂ → Alongside r₁ r₂

omit [FlushPolicy π] in
lemma createOn_commits {fuel : ℕ} {budget : Option ℕ} {params : Params} {policy : π} {v : V}
    {r : DiskEngine π V}
    (hv : Reliable.Idle v) (hc : DiskEngine.createOn fuel budget params policy v = .ok r) :
    ∃ (r₀ : DiskEngine π V) (batch : DiskStore.Batch)
    (stats : CommitStats), ExactReads.Same v r₀.store.vfs ∧
      Follows ExactReads.file r₀ (Engine.fresh params policy) Live.fresh ∧
      r₀.store.watermark = dataStart ∧
      r₀.store.nextGeneration = 0 ∧ ExactReads.file r₀.store.vfs = [] ∧
      DiskEngine.commit fuel r₀ = .ok stats r ∧
      DiskEngine.Commits ExactReads.file Reliable.Idle (Engine.fresh params policy) Live.fresh
        r₀ batch stats r ∧
      Sits ExactReads.file Reliable.Idle r
        ((Engine.fresh params policy).committed batch.offset Live.fresh)
        (Live.commit batch.offset Live.fresh)
        (DiskEngine.Published (Engine.fresh params policy) Live.fresh r₀ batch).1
        (DiskEngine.Published (Engine.fresh params policy) Live.fresh r₀ batch).2 none := by
  obtain ⟨-, v', stats, r₀, hl, hf, hvfs, hw, hg, hpoison, hcommit⟩ :=
    createOn_inv ExactReads.file hc
  obtain ⟨v'', hsame, hlen⟩ := ExactReads.len v
  rw [hl] at hlen
  injection hlen with hzero hv''
  rw [← hv'', ← hvfs] at hsame
  have hempty : ExactReads.file r₀.store.vfs = [] := by
    rw [ExactReads.file_eq hsame]
    exact List.length_eq_zero_iff.mp hzero.symm
  obtain ⟨N, hN⟩ := hf.first device_reliable (Reliable.idle_same hsame hv) hempty hw hg hpoison rfl
  obtain ⟨batch, hcommits, hsits⟩ := (hN (max fuel N) (le_max_right _ _)).ok
    ((DiskEngine.refines_commit (le_max_left fuel N)).ok hcommit)
  exact ⟨r₀, batch, stats, hsame, hf, hw, hg, hempty, hcommit, hcommits, hsits⟩

omit [FlushPolicy π] in
lemma Alongside.twins {r₁ r₂ : DiskEngine π V} (h : Alongside r₁ r₂) : Twins r₁ r₂ := by
  cases h with
  | create hv₁ hv₂ hc₁ hc₂ =>
    obtain ⟨r₀, batch, stats, -, -, hw, hg, hempty, -, hcommits, hsits⟩ := createOn_commits hv₁ hc₁
    obtain ⟨r₀', batch', stats', -, -, hw', hg', hempty', -, hcommits', hsits'⟩ :=
      createOn_commits hv₂ hc₂
    obtain ⟨rfl, -, hfile⟩ := Commits.twins hcommits hcommits' (hw'.trans hw.symm)
      (hg'.trans hg.symm) (hempty'.trans hempty.symm)
    unfold DiskEngine.Published at hsits hsits'
    rw [hw, hg] at hsits
    rw [hw', hg'] at hsits'
    exact ⟨_, _, _, _, _, _, hsits, hsits', hfile⟩
  | @reopen _ _ _ _ v₂ _ _ _ hv₁ hv₂ hsaves hfile ho₁ ho₂ =>
    let _ : Honest V := Reliable.honest
    obtain ⟨sb, D, prev, hd, -⟩ := hsaves
    have hd₂ : Durable (ExactReads.file v₂) sb D prev := hfile.symm ▸ hd
    obtain ⟨hs₁, hfile₁⟩ := sits_openOn hd hv₁ ho₁
    obtain ⟨hs₂, hfile₂⟩ := sits_openOn hd₂ hv₂ ho₂
    refine ⟨_, _, _, _, _, _, hs₁, hs₂, ?_⟩
    exact (hfile₂.trans (congrArg (fun x => resize x sb.watermark.toNat) hfile)).trans hfile₁.symm

/-- The budget of the cache is invisible: of two engines that differ in it only, whatever is asked
of them, one returns what the other returns, and leaves the same trace and the same file. -/
theorem budget_invisible (hπ : FlushPolicy.Legal π) {r₁ r₂ r₁' : DiskEngine π V}
    (h : Alongside r₁ r₂) {fuel : ℕ}
    {ops : List DiskOp} {replies : List DiskReply}
    (hrun : runCalls (DiskEngine.step fuel) ops r₁ = .ok (replies.map .ok, r₁')) :
    ∃ N r₂', (∀ fuel ≥ N, runCalls (DiskEngine.step fuel) ops r₂ = .ok (replies.map .ok, r₂')) ∧
    r₂'.trace = r₁'.trace ∧
      ExactReads.file r₂'.store.vfs = ExactReads.file r₁'.store.vfs := by
  obtain ⟨N, r₂', htwins, hN⟩ := h.twins.run hπ hrun
  exact ⟨N, r₂', hN, htwins.trace, htwins.file⟩

end Start

lemma Twins.get_returns {r₁ r₂ : DiskEngine GreedyFullest FaultyVfs} [Crc32Fast]
    (h : Twins r₁ r₂) (key : Key) :
    ∃ N, ∀ fuel ≥ N, ∃ reply r₁', DiskEngine.step fuel (.op (.get key)) r₁ = .ok reply r₁' := by
  obtain ⟨e, _, t, sb, D, prev, hs, -⟩ := h
  obtain ⟨reply, _, _, _, N, -, hN⟩ := call_returns (V := FaultyVfs) GreedyFullest.legal hs.holds
    (show DiskOp.op (.get key) ≠ .commit by simp) trivial
  refine ⟨N, fun fuel hf => ?_⟩
  obtain ⟨r₁', hstep, -⟩ := hN fuel hf r₁ sb D prev hs
  exact ⟨reply, r₁', hstep⟩

/-- Of two new engines one evicts all it may and the other has all the memory it likes. Two commits
later both read a key, and the file is opened again, with no memory and with all. -/
theorem budget_invisible_worn : ∃ (r₁ r₂ r₁' r₂' s₁ s₂ : DiskEngine GreedyFullest FaultyVfs)
    (fuel N N' : ℕ) (replies : List DiskReply)
    (reply : DiskReply) (s₂' : DiskEngine GreedyFullest FaultyVfs),
    @DiskEngine.createOn _ _ _ crc32Ieee 40 (some 100) .tiny ⟨⟩ .new = .ok r₁ ∧
    @DiskEngine.createOn _ _ _ crc32Ieee fuel none .tiny ⟨⟩ .new = .ok r₂ ∧
    (∀ fuel ≥ N, runCalls (@DiskEngine.step _ _ _ crc32Ieee _ fuel)
      (Op.churn.map .op ++ [.commit] ++ ([.op (.mutate (.delete [4]))] ++ [.commit]) ++
        [.op (.get [5])]) r₂ =
        .ok (replies.map .ok, r₂')) ∧
    r₂'.trace = r₁'.trace ∧ r₂'.store.vfs.view = r₁'.store.vfs.view ∧
    @DiskEngine.openOn _ _ _ crc32Ieee none ⟨⟩ (.fromImage r₁'.store.vfs.view) = .ok s₁ ∧
    @DiskEngine.openOn _ _ _ crc32Ieee (some 0) ⟨⟩ (.fromImage r₁'.store.vfs.view) = .ok s₂ ∧
    ∀ fuel ≥ N', runCalls (@DiskEngine.step _ _ _ crc32Ieee _ fuel)
    [.op (.get [5])] s₂ = .ok ([.ok reply], s₂') := by
  let _ := crc32Ieee
  obtain ⟨r₁, t₁, t₂, t₃, -, replies, replies', replies'', hc₁, h₁, h₂, h₃, -⟩ := DiskEngine.worn
  obtain ⟨fuel₂, r₂, hc₂⟩ := createOn_tiny (v := FaultyVfs.new) none FaultyVfs.idle_new rfl
  have hpair : Alongside r₁ r₂ := .create FaultyVfs.idle_new FaultyVfs.idle_new hc₁ hc₂
  have hcalls := runOps_append h₁ (runOps_append h₂ h₃)
  obtain ⟨-, r, htwins, -⟩ := hpair.twins.run GreedyFullest.legal (runCalls_of_runOps hcalls)
  obtain ⟨N, hget⟩ := htwins.get_returns [5]
  obtain ⟨reply, r₁', hreply⟩ := hget (max 40 N) (le_max_right _ _)
  have hall : runOps (DiskEngine.step (max 40 N)) [.op (.get [5])] t₃ = .ok [reply] r₁' := by
    rw [runOps, run_bind_ok hreply]
    rfl
  have hrun := runCalls_of_runOps (runOps_append
    ((refines_runOps (fun op => DiskEngine.refines_step (le_max_left 40 N) op) _).ok hcalls) hall)
  obtain ⟨N₁, r₂', hN₁, htrace, hfile⟩ := budget_invisible GreedyFullest.legal hpair hrun
  let _ : Honest FaultyVfs := Reliable.honest
  obtain ⟨-, -, ⟨e, _, t, sb, D, prev, hs, -⟩, -⟩ := hpair.twins.run GreedyFullest.legal hrun
  have hrep : Represents r₁' (.of e t sb D prev) := ⟨e, _, t, sb, D, prev, hs, rfl⟩
  obtain ⟨s₁, ho₁⟩ := hrep.opens none (⟨⟩ : GreedyFullest)
  obtain ⟨s₂, ho₂⟩ := hrep.opens (some 0) (⟨⟩ : GreedyFullest)
  have hopened : Alongside s₁ s₂ := .reopen (FaultyVfs.idle_fromImage _)
    (FaultyVfs.idle_fromImage _) hrep.saves rfl ho₁ ho₂
  obtain ⟨N₂, hget₂⟩ := hopened.twins.get_returns [5]
  obtain ⟨reply₂, s₁', hreply₂⟩ := hget₂ N₂ le_rfl
  have hrun₂ : runOps (DiskEngine.step N₂) [.op (.get [5])] s₁ = .ok [reply₂] s₁' := by
    rw [runOps, run_bind_ok hreply₂]
    rfl
  obtain ⟨N₃, s₂', hN₃, -⟩ := budget_invisible GreedyFullest.legal hopened
    (runCalls_of_runOps hrun₂)
  exact ⟨r₁, r₂, r₁', r₂', s₁, s₂, fuel₂, N₁, N₃, _, reply₂, s₂', hc₁, hc₂, hN₁, htrace,
    hfile, ho₁, ho₂, hN₃⟩

end Beetree
