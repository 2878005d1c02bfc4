import Beetree.Calls
import Beetree.Inert

/-! What a store on a device is for: a map from keys to values, and the last two versions of it that
were committed. An engine that is used, fails, and is opened again answers from nothing else. -/
namespace Beetree

structure Version where
  contents : Contents
  seq : UInt64
  generation : ℕ

structure KvStore where
  params : Params
  live : Contents
  seq : UInt64
  saved : Version
  previous : Option Version

namespace KvStore

def new (params : Params) : KvStore := ⟨params, fun _ => none, 0, ⟨fun _ => none, 0, 0⟩, none⟩

def commit (m : KvStore) : KvStore :=
  { m with saved := ⟨m.live, m.seq, m.saved.generation + 1⟩, previous := some m.saved }

def after (m : KvStore) : DiskOp → KvStore
  | .commit => m.commit
  | op => { m with live := fun k => op.act k (m.live k), seq := op.advance m.seq }

def reopen (m : KvStore) : KvStore := { m with live := m.saved.contents, seq := m.saved.seq }

/-- Start over from a version when the one after it is lost. -/
def rollback (m : KvStore) (v : Version) : KvStore := ⟨m.params, v.contents, v.seq, v, none⟩

def Answers (m : KvStore) : DiskOp → DiskReply → Prop
  | .op o, r => ∃ reply, r = .reply reply ∧ o.Answers m.live reply
  | .loadAll, r => r = .reply .done
  | .height, r => ∃ n, r = .height (n + 1)
  | .checkInvariantsFull, r => r = .verdict (.ok ())
  | .commit, r => ∃ stats, r = .stats stats

end KvStore

section Abstraction
variable {π : Type} {e e' : Engine π Ideal} {h h' : ℕ} {t : Live h} {t' : Live h'}
    {sb : Superblock} {D : Record}
  {prev : Option (Superblock × Record)}

def Version.of (sb : Superblock) (D : Record) :
    Version := ⟨fun k => D.2.resolve k, sb.lastSeq, sb.generation.toNat⟩

/-- The store a tree and the states published last amount to. -/
def KvStore.of (e : Engine π Ideal) (t : Live h) (sb : Superblock) (D : Record)
    (prev : Option (Superblock × Record)) : KvStore where
  params := sb.params
  live := Live.contents t
  seq := e.nextSeq
  saved := .of sb D
  previous := prev.map fun x => .of x.1 x.2

lemma DiskOp.safe_true (op : DiskOp) : op.Safe true t := by
  cases op with
  | op o => exact Or.inl rfl
  | loadAll => trivial
  | height => trivial
  | checkInvariantsFull => trivial
  | commit => trivial

lemma Responds.contents {q : Bool} {op : DiskOp} {reply : DiskReply}
    (hr : Responds q op reply e e' t t') :
    Live.contents t' = fun k => op.act k (Live.contents t k) := by
  funext k
  have := hr.evolves.resolve false k
  rwa [← Live.resolve_plain, ← Live.resolve_plain] at this

lemma Responds.after {q : Bool} {op : DiskOp} {reply : DiskReply}
    (hr : Responds q op reply e e' t t') (hop : op ≠ .commit) :
    KvStore.of e' t' sb D prev = (KvStore.of e t sb D prev).after op := by
  have hlive := hr.contents
  have hseq := hr.nextSeq
  cases op with
  | commit => exact absurd rfl hop
  | op o => simp only [KvStore.of, KvStore.after, hlive, hseq]
  | loadAll => simp only [KvStore.of, KvStore.after, hlive, hseq]
  | height => simp only [KvStore.of, KvStore.after, hlive, hseq]
  | checkInvariantsFull => simp only [KvStore.of, KvStore.after, hlive, hseq]

lemma Responds.replies {q : Bool} {op : DiskOp} {reply : DiskReply}
    (hr : Responds q op reply e e' t t') (hop : op ≠ .commit) :
    (KvStore.of e t sb D prev).Answers op reply := by
  have hans := hr.answers
  cases op with
  | commit => exact absurd rfl hop
  | op o => exact hans
  | loadAll => exact hans
  | height => exact ⟨h, hans⟩
  | checkInvariantsFull => exact hans

/-- A file that holds what is saved of a store. -/
def Saves [Crc32Fast] (file : List Byte) (m : KvStore) : Prop :=
  ∃ sb D prev, Durable file sb D prev ∧ m.params = sb.params ∧ m.saved = .of sb D ∧
    m.previous = prev.map fun x => .of x.1 x.2

end Abstraction

section Represents
variable {π V : Type} [Vfs V] [Honest V] [Crc32Fast] {m : KvStore} {r r' : DiskEngine π V}

/-- An engine that is up to date with a store. -/
def Represents (r : DiskEngine π V) (m : KvStore) : Prop :=
  ∃ (e : Engine π Ideal) (h : ℕ) (t : Live h) (sb : Superblock) (D : Record)
    (prev : Option (Superblock × Record)),
    Sits Honest.file Honest.Idle r e t sb D prev ∧ KvStore.of e t sb D prev = m

omit [Vfs V] [Honest V] in
lemma Sits.version {file : V → List Byte} {Idle : V → Prop} {e : Engine π Ideal} {h : ℕ}
    {t : Live h} {sb : Superblock} {D : Record}
    {prev : Option (Superblock × Record)} (hr : Sits file Idle r e t sb D prev)
    (batch : DiskStore.Batch) :
    Version.of (DiskEngine.Published e t r batch).1 (DiskEngine.Published e t r batch).2 =
      (KvStore.of e t sb D prev).commit.saved := by
  have hsaved : (fun k => (Live.publish batch.offset t).resolve k) = Live.contents t := by
    funext k
    change _ = (Live.plain t).resolve k
    rw [Live.resolve_plain, ← hr.same, ← Tree.resolve_bare, Live.bare_publish hr.holds.sound,
      Tree.resolve_bare]
  have hgen : (DiskEngine.Published e t r batch).1.generation.toNat = sb.generation.toNat + 1 :=
    (UInt64.toNat_ofNat_of_lt' hr.fits).trans hr.nextGeneration
  have hseq : (DiskEngine.Published e t r batch).1.lastSeq = e.nextSeq := rfl
  unfold KvStore.of KvStore.commit Version.of
  rw [hgen, hseq, ← hsaved]
  rfl

lemma Sits.published {e : Engine π Ideal} {h : ℕ} {t : Live h} {sb : Superblock} {D : Record}
    {prev : Option (Superblock × Record)}
    (hr : Sits Honest.file Honest.Idle r e t sb D prev) (batch : DiskStore.Batch) :
    KvStore.of (e.committed batch.offset t) (Live.commit batch.offset t)
    (DiskEngine.Published e t r batch).1
      (DiskEngine.Published e t r batch).2 (some (sb, D)) = (KvStore.of e t sb D prev).commit := by
  have hlive : Live.contents (Live.commit batch.offset t) = Live.contents t := by
    funext k
    change (Live.plain _).resolve k = (Live.plain t).resolve k
    rw [Live.resolve_plain, Live.resolve_plain, ← Tree.resolve_bare,
      Live.bare_view_commit' hr.holds.sound, Tree.resolve_bare]
  have hparams : (DiskEngine.Published e t r batch).1.params = sb.params := hr.params
  have hsaved := hr.version batch
  unfold KvStore.of KvStore.commit at *
  simp only [hlive, hparams, hsaved, Option.map_some]
  rfl

lemma represents_createOn {fuel : ℕ} {budget : Option ℕ} {params : Params} {policy : π} {v : V}
    (hv : Honest.Idle v)
    (hc : DiskEngine.createOn fuel budget params policy v = .ok r) :
    Represents r (.new params) := by
  obtain ⟨batch, r₀, hf, hgen, hs⟩ := sits_createOn hv hc
  refine ⟨_, _, _, _, _, _, hs, ?_⟩
  have hbare : (Live.publish batch.offset Live.fresh).bare = (Live.view true Live.fresh).bare :=
    Live.bare_publish hf.holds.sound
  have hlive : Live.contents (Live.commit batch.offset Live.fresh) = fun _ => none := by
    funext k
    change (Live.plain _).resolve k = _
    rw [Live.resolve_plain, ← Tree.resolve_bare, Live.bare_view_commit' hf.holds.sound,
      Tree.resolve_bare]
    rfl
  have hsaved : (fun k => (Live.publish batch.offset Live.fresh).resolve k) = fun _ => none := by
    funext k
    rw [← Tree.resolve_bare, hbare, Tree.resolve_bare]
    rfl
  have hgen' :
    (DiskEngine.Published (Engine.fresh params policy) Live.fresh r₀ batch).1.generation.toNat =
      0 := by
    change (UInt64.ofNat r₀.store.nextGeneration).toNat = 0
    rw [hgen]
    rfl
  unfold KvStore.of KvStore.new Version.of
  simp only [hlive, hgen', Option.map_none]
  rw [← hsaved]
  rfl

/-- An engine whose records fit a commit no more: a payload is too large for its header, or an
offset or the generation for a superblock. -/
def DiskEngine.Cramped (r : DiskEngine π V) : Prop :=
  ∃ (e : Engine π Ideal) (h : ℕ) (t : Live h), Follows Honest.file r e t ∧
    ¬ DiskEngine.Fits e t r.store.watermark r.store.nextGeneration

/-- What is known of an engine whose call failed. -/
inductive Trouble (m : KvStore) (r : DiskEngine π V) (op : DiskOp) : Fault → DiskEngine π V → Prop
  | missed {f : Fault} {r' : DiskEngine π V} : Honest.Reports V f → Represents r' m →
    Trouble m r op f r'
  | poisoned {f : Fault} {r' : DiskEngine π V} : op.Writes → Honest.Reports V f →
    r'.store.poisoned = true → Trouble m r op f r'
  | refused {f : Fault} {r' : DiskEngine π V} : op = .commit → Refusal f → r.Cramped →
      (f.IsStorage → r'.store.poisoned = true) → Trouble m r op f r'
  | overflow {r' : DiskEngine π V} : ¬ op.Numbered m.seq → Trouble m r op .overflow r'
  | panic {f : Fault} {r' : DiskEngine π V} : op = .checkInvariantsFull → Honest.Reports V f →
    Trouble m r op .panic r'

variable [FlushPolicy π]

omit [FlushPolicy π] in
lemma Failed.trouble {e : Engine π Ideal} {h : ℕ} {t : Live h} {sb : Superblock} {D : Record}
    {prev : Option (Superblock × Record)}
    {op : DiskOp} {f : Fault}
    (hf : Failed Honest.file Honest.Idle (Honest.Reports V) e t sb D prev r op f r') :
    Trouble (KvStore.of e t sb D prev) r op f r' := by
  cases hf with
  | @missed f r' e' t' hrep hbrowse hsits _ =>
    refine .missed hrep ⟨e', h, t', sb, D, prev, hsits, ?_⟩
    have hlive : Live.contents t' = Live.contents t := by
      unfold Live.contents
      rw [hbrowse.opens.plain]
    simp only [KvStore.of, hlive, hbrowse.nextSeq]
  | poisoned hw hrep hp _ _ => exact .poisoned hw hrep hp
  | overflow hs => exact .overflow hs
  | panic hop hrep => exact .panic hop hrep

omit [FlushPolicy π] in
/-- A call that failed on the device without poisoning the engine changed nothing. -/
lemma Trouble.represents {op : DiskOp} {f : Fault} (ht : Trouble m r op f r') (hf : f.IsStorage)
    (hp : r'.store.poisoned = false) :
    Represents r' m := by
  cases ht with
  | missed _ hr' => exact hr'
  | poisoned _ _ hp' => simp [hp] at hp'
  | refused _ _ _ hp' => simp [hp] at hp'; exact absurd hf hp'
  | overflow =>
    obtain ⟨x, hx⟩ := hf
    cases hx
  | panic =>
    obtain ⟨x, hx⟩ := hf
    cases hx

/-- Every call of an engine does what it does to the store, or fails. -/
theorem Represents.call (hπ : FlushPolicy.Legal π) (hr : Represents r m) (op : DiskOp) :
    ∃ N, ∀ fuel ≥ N, Ends (DiskEngine.step fuel op) r (fun reply r' => m.Answers op reply ∧
      Represents r' (m.after op))
      (Trouble m r op) := by
  obtain ⟨e, h, t, sb, D, prev, hs, rfl⟩ := hr
  by_cases hop : op = .commit
  · subst hop
    obtain ⟨N, hN⟩ := hs.commit Honest.device
    refine ⟨N, fun fuel hf => ((hN fuel hf).mono (fun _ _ h => h) ?_).bind ?_⟩
    · rintro f r' hpoison
      have hpoisoned : f.IsStorage → r'.store.poisoned = true := by
        intro hf
        obtain ⟨r₁, -, rfl⟩ := hpoison.storage hf
        rfl
      have hwhy : Honest.Reports V f ∨ Refusal f ∧
        ¬ DiskEngine.Fits e t r.store.watermark r.store.nextGeneration := by
        by_cases hf : f.IsStorage
        · obtain ⟨r₁, hwhy, -⟩ := hpoison.storage hf
          exact hwhy
        · exact hpoison.other hf
      rcases hwhy with hrep | ⟨href, hfits⟩
      · exact .poisoned trivial hrep (hpoisoned (Honest.storage hrep))
      · exact .refused rfl href ⟨e, h, t, hs.toFollows, hfits⟩ hpoisoned
    · rintro stats r' ⟨batch, -, hs'⟩
      exact .of_ok rfl ⟨⟨stats, rfl⟩, _, _, _, _, _, _, hs', hs.published batch⟩
  · by_cases hnum : op.Numbered e.nextSeq
    · obtain ⟨reply, e', h', t', N, hresp, -, hN⟩ := call_run (Honest.device (V := V))
        (fun _ hf => Honest.storage hf) hπ hs.holds hop hnum op.safe_true
      refine ⟨N, fun fuel hf => (hN fuel hf r sb D prev hs).mono ?_ fun _ _ => Failed.trouble⟩
      rintro reply' r' ⟨rfl, hs'⟩
      exact ⟨hresp.replies hop, e', h', t', sb, D, prev, hs', hresp.after hop⟩
    · exact ⟨0, fun fuel _ => (call_overflow Honest.device hnum hs fuel).mono (fun _ _ h => h.elim)
        fun _ _ => Failed.trouble⟩

end Represents

section Open
variable {π σ V : Type} [Vfs V] [Honest V] [Crc32Fast] {m : KvStore} {r : DiskEngine π V}
    {r' : DiskEngine σ V} {budget : Option ℕ}
  {policy : σ} {v : V}

lemma Represents.saves (hr : Represents r m) : Saves (Honest.file r.store.vfs) m := by
  obtain ⟨e, h, t, sb, D, prev, hs, rfl⟩ := hr
  exact ⟨sb, D, prev, hs.durable, rfl, rfl, rfl⟩

lemma Represents.nextGeneration (hr : Represents r m) :
    r.store.nextGeneration = m.saved.generation + 1 := by
  obtain ⟨e, _, t, sb, D, prev, hs, rfl⟩ := hr
  exact hs.nextGeneration

lemma Represents.generation (hr : Represents r m) : m.saved.generation + 1 < 2 ^ 64 := by
  rw [← hr.nextGeneration]
  obtain ⟨e, _, t, sb, D, prev, hs, -⟩ := hr
  exact hs.fits

lemma Saves.opened (hf : Saves (Honest.file v) m) (hv : Honest.Idle v)
    (ho : DiskEngine.openOn budget policy v = .ok r') :
    Represents r' m.reopen := by
  obtain ⟨sb, D, prev, hd, hparams, hsaved, hprev⟩ := hf
  refine ⟨_, _, _, _, _, _, (sits_openOn hd hv ho).1, ?_⟩
  have hlive : Live.contents D.unread = fun k => D.2.resolve k := by
    funext k
    exact Live.resolve_plain D.unread k
  unfold KvStore.of KvStore.reopen
  rw [hparams, hsaved, hprev, hlive]
  rfl

/-- Without its newest slot a file still holds the version before. -/
lemma Saves.fellBack {file file' : List Byte} (hf : Saves file m) {w : Version}
    (hw : m.previous = some w)
    (hd : Damaged file file' (superblockSlot m.saved.generation)) : Saves file' (m.rollback w) := by
  obtain ⟨sb, D, prev, hdur, hparams, hsaved, hprev⟩ := hf
  rw [hw] at hprev
  obtain ⟨⟨sb', D'⟩, rfl, rfl⟩ := Option.map_eq_some_iff.mp hprev.symm
  rw [hsaved] at hd
  refine ⟨sb', D', none, hdur.fallback hd, ?_, rfl, rfl⟩
  cases hdur.backup with
  | some _ hp => exact hparams.trans hp.symm

end Open

section History
variable {V : Type} [Vfs V] [Honest V] [Crc32Fast]

/-- A call that does not commit, or of an engine that cannot. It may fail. -/
def DiskEngine.Lingers {π : Type} [FlushPolicy π] (r r' : DiskEngine π V) : Prop :=
  ∃ fuel op, (r.store.poisoned = true ∨ op ≠ DiskOp.commit) ∧
    ((∃ reply, DiskEngine.step fuel op r = .ok reply r') ∨ ∃ x, DiskEngine.step fuel op r = .error
      (.storage x) r')

omit [Honest V] in
lemma DiskEngine.Lingers.inert {π : Type} [FlushPolicy π] {Still : V → V → Prop}
    (hV : ReadKeeps Still) {r r' : DiskEngine π V}
    (hl : Relation.ReflTransGen DiskEngine.Lingers r r') : Inert Still r.store r'.store := by
  induction hl with
  | refl => exact DiskStore.inert_refl hV _
  | tail _ hlast ih =>
    obtain ⟨fuel, op, hop, ⟨reply, hstep⟩ | ⟨x, hstep⟩⟩ := hlast
    · exact DiskStore.inert_trans hV ih ((DiskEngine.inert_call hV fuel hop).ok hstep).1
    · exact DiskStore.inert_trans hV ih ((DiskEngine.inert_call hV fuel hop).error hstep x rfl).1

/-- The stores that engines stand for over the life of a file: they are created and called, calls
fail, and after more calls that do not commit the file is opened again, perhaps without its newest
slot. -/
inductive History : {π : Type} → [FlushPolicy π] → KvStore → DiskEngine π V → Prop
  | create {π : Type} [FlushPolicy π] (hπ : FlushPolicy.Legal π) {fuel : ℕ} {budget : Option ℕ}
    {params : Params} {policy : π}
      {v : V} {r : DiskEngine π V} :
      Honest.Idle v → DiskEngine.createOn fuel budget params policy v = .ok r →
      History (.new params) r
  | call {π : Type} [FlushPolicy π] {m : KvStore} {r r' : DiskEngine π V} {op : DiskOp}
    {reply : DiskReply} : History m r →
      (∃ N, ∀ fuel ≥ N, DiskEngine.step fuel op r = .ok reply r') → History (m.after op) r'
  | fault {π : Type} [FlushPolicy π] {m : KvStore} {r r' : DiskEngine π V} {op : DiskOp}
    {x : DiskError} : History m r →
      (∃ N, ∀ fuel ≥ N, DiskEngine.step fuel op r = .error (.storage x) r') →
      r'.store.poisoned = false → History m r'
  | reopen {π σ : Type} [FlushPolicy π] [FlushPolicy σ] (hσ : FlushPolicy.Legal σ) {m : KvStore}
    {r r₁ : DiskEngine π V}
      {r' : DiskEngine σ V} {budget : Option ℕ} {policy : σ} {v : V} : History m r →
      Relation.ReflTransGen DiskEngine.Lingers r r₁ → Honest.Idle v →
      Honest.file v = Honest.file r₁.store.vfs →
      DiskEngine.openOn budget policy v = .ok r' → History m.reopen r'
  | fallback {π σ : Type} [FlushPolicy π] [FlushPolicy σ] (hσ : FlushPolicy.Legal σ) {m : KvStore}
    {r r₁ : DiskEngine π V}
      {r' : DiskEngine σ V} {w : Version} {budget : Option ℕ} {policy : σ} {v : V} : History m r →
      Relation.ReflTransGen DiskEngine.Lingers r r₁ → m.previous = some w → Honest.Idle v →
      Damaged (Honest.file r₁.store.vfs) (Honest.file v) (superblockSlot m.saved.generation) →
      DiskEngine.openOn budget policy v = .ok r' → History (m.rollback w) r'

lemma History.represents {π : Type} [FlushPolicy π] {m : KvStore} {r : DiskEngine π V}
    (h : History m r) :
    FlushPolicy.Legal π ∧ Represents r m := by
  induction h with
  | create hπ hv hc => exact ⟨hπ, represents_createOn hv hc⟩
  | @call π _ m r r' op reply _ hstep ih =>
    obtain ⟨hπ, hr⟩ := ih
    obtain ⟨N, hN⟩ := hstep
    obtain ⟨N', hN'⟩ := hr.call hπ op
    exact ⟨hπ, ((hN' (max N N') (le_max_right _ _)).ok (hN _ (le_max_left _ _))).2⟩
  | @fault π _ m r r' op x _ hstep hp ih =>
    obtain ⟨hπ, hr⟩ := ih
    obtain ⟨N, hN⟩ := hstep
    obtain ⟨N', hN'⟩ := hr.call hπ op
    exact ⟨hπ,
      ((hN' (max N N') (le_max_right _ _)).error (hN _ (le_max_left _ _))).represents ⟨x, rfl⟩ hp⟩
  | reopen hσ _ hl hv hfile ho ih =>
    refine ⟨hσ, Saves.opened ?_ hv ho⟩
    rw [hfile, (DiskEngine.Lingers.inert readKeeps_honest hl).same.1]
    exact ih.2.saves
  | fallback hσ _ hl hw hv hd ho ih =>
    rw [(DiskEngine.Lingers.inert readKeeps_honest hl).same.1] at hd
    exact ⟨hσ, (ih.2.saves.fellBack hw hd).opened hv ho⟩

lemma History.runs {π : Type} [FlushPolicy π] {m : KvStore} {r r' : DiskEngine π V}
    (h : History m r) {fuel : ℕ}
    {ops : List DiskOp} {replies : List DiskReply}
    (hrun : runOps (DiskEngine.step fuel) ops r = .ok replies r') :
    History (ops.foldl KvStore.after m) r' := by
  induction ops generalizing m r replies with
  | nil =>
    cases hrun
    exact h
  | cons op ops ih =>
    obtain ⟨reply, r₁, hstep, hrest⟩ := bind_eq_ok hrun
    obtain ⟨replies', r₂, hops, hpure⟩ := bind_eq_ok (f := fun rs => pure (reply :: rs)) hrest
    cases hpure
    exact ih (h.call ⟨fuel, fun _ hf => (DiskEngine.refines_step hf op).ok hstep⟩) hops

/-- An engine that no failed write has poisoned is a map with two saved versions, for as long as the
file lives: every call returns what the map answers and leaves what the map becomes. It fails when
the device reports an error, when a commit has no room for its records, or when there is no number
left, and only a writing call poisons the engine. -/
theorem history_refines {π : Type} [FlushPolicy π] {m : KvStore} {r : DiskEngine π V}
    (h : History m r) (op : DiskOp) :
    ∃ N, ∀ fuel ≥ N, Ends (DiskEngine.step fuel op) r (fun reply r' => m.Answers op reply ∧
      History (m.after op) r')
      fun f r' =>
      (Honest.Reports V f ∧ (op.Writes ∧ r'.store.poisoned = true ∨ r'.store.poisoned = false ∧
        History m r')) ∨
        (op = .commit ∧ Refusal f ∧ r.Cramped) ∨ (f = .overflow ∧ ¬ op.Numbered m.seq) ∨
        (f = .panic ∧ op = .checkInvariantsFull ∧ ∃ g, Honest.Reports V g) := by
  obtain ⟨hπ, hr⟩ := h.represents
  obtain ⟨N, hN⟩ := hr.call hπ op
  refine ⟨N, fun fuel hf => ?_⟩
  cases hrun : DiskEngine.step fuel op r with
  | ok reply r' =>
    have hstep : ∃ N, ∀ fuel ≥ N, DiskEngine.step fuel op r = .ok reply r' :=
      ⟨fuel, fun _ hf' => (DiskEngine.refines_step hf' op).ok hrun⟩
    exact .of_ok hrun ⟨((hN fuel hf).ok hrun).1, h.call hstep⟩
  | error f r' =>
    refine .of_error hrun ?_
    cases (hN fuel hf).error hrun with
    | missed hrep hr' =>
      obtain ⟨x, rfl⟩ := Honest.storage hrep
      obtain ⟨e, _, t, sb, D, prev, hs, -⟩ := hr'
      have hstep : ∃ N, ∀ fuel ≥ N, DiskEngine.step fuel op r = .error (.storage x) r' :=
        ⟨fuel, fun _ hf' => (DiskEngine.refines_step hf' op).error hrun (by simp)⟩
      exact Or.inl ⟨hrep, Or.inr ⟨hs.poisoned, h.fault hstep hs.poisoned⟩⟩
    | poisoned hw hrep hp => exact Or.inl ⟨hrep, Or.inl ⟨hw, hp⟩⟩
    | refused hop href hcramped _ => exact Or.inr (Or.inl ⟨hop, href, hcramped⟩)
    | overflow hnum => exact Or.inr (Or.inr (Or.inl ⟨rfl, hnum⟩))
    | panic hop hrep => exact Or.inr (Or.inr (Or.inr ⟨rfl, hop, _, hrep⟩))

end History

section Worn
variable [Crc32Fast] {π : Type} {m : KvStore} {img : List Byte}

/-- A file that holds a version opens, unless there is no generation after it. -/
lemma Saves.opens (hf : Saves img m) (hm : m.saved.generation + 1 < 2 ^ 64)
    (budget : Option ℕ) (policy : π) :
    ∃ r, DiskEngine.openOn budget policy (FaultyVfs.fromImage img) = .ok r := by
  obtain ⟨sb, D, prev, hd, -, hsaved, -⟩ := hf
  have hsel : selected (FaultyVfs.fromImage img).view = .ok sb := hd.selected
  have hgen : sb.generation.toNat + 1 < 2 ^ 64 := by rwa [hsaved] at hm
  rw [openOn_faulty budget policy hsel, if_pos hgen]
  exact ⟨_, rfl⟩

lemma Represents.opens [Honest FaultyVfs] {σ : Type} {r : DiskEngine σ FaultyVfs}
    (hr : Represents r m) (budget : Option ℕ) (policy : π) :
    ∃ r', DiskEngine.openOn budget policy
      (FaultyVfs.fromImage (Honest.file r.store.vfs)) = .ok r' :=
  hr.saves.opens hr.generation budget policy

/-- The store of the operations above when they were committed. -/
def KvStore.churned :
    KvStore := (Op.churn.map DiskOp.op ++ [DiskOp.commit]).foldl KvStore.after (.new .tiny)

/-- The same store after one more operation and one more commit. -/
def KvStore.worn :
    KvStore := [DiskOp.op (.mutate (.delete [4])), DiskOp.commit].foldl KvStore.after .churned

end Worn

/-- The life of a file on which records of two commits lie, whichever errors its device may
report. -/
lemma history_worn (H : Honest FaultyVfs) (hnew : H.Idle .new) :
    ∃ r₁ r₂ r₃ : DiskEngine GreedyFullest FaultyVfs,
    @History FaultyVfs _ H crc32Ieee GreedyFullest _ .churned r₁ ∧
    @History FaultyVfs _ H crc32Ieee GreedyFullest _
      (KvStore.churned.after (.op (.mutate (.delete [4])))) r₂ ∧
    @History FaultyVfs _ H crc32Ieee GreedyFullest _ .worn r₃ ∧
    (∀ x ∈ r₁.store.slots, x.dirty = false) ∧ .freed ∈ r₁.store.slots ∧
    5 ≤ r₁.store.cache.evictions ∧
    (∃ x ∈ r₂.store.slots, x.dirty = true) ∧ .onDisk 8323 ∈ r₂.store.slots ∧
    r₃.store.vfs.failSync = none ∧
    r₃.store.vfs.window = [] := by
  let _ := crc32Ieee
  obtain ⟨r₀, r₁, r₂, r₃, -, replies, replies', replies'', h₀, h₁, h₂, h₃, -,
    hfacts⟩ := DiskEngine.worn
  have hr₀ : @History FaultyVfs _ H _ GreedyFullest _ (.new .tiny) r₀ :=
    .create GreedyFullest.legal hnew h₀
  have hr₁ := hr₀.runs h₁
  have hr₂ := hr₁.runs h₂
  exact ⟨r₁, r₂, r₃, hr₁, hr₂, hr₂.runs h₃, hfacts⟩

/-- On a device that reports no error every call returns for which there is a number, commits and
checks apart. -/
lemma History.returns {V π : Type} [Vfs V] [Reliable V] [Crc32Fast] [FlushPolicy π] {m : KvStore}
    {r : DiskEngine π V}
    (h : @History V _ Reliable.honest _ π _ m r) {op : DiskOp} (hop : op ≠ .commit)
    (hcheck : op ≠ .checkInvariantsFull)
    (hnum : op.Numbered m.seq) :
    ∃ N reply r', (∀ fuel ≥ N, DiskEngine.step fuel op r = .ok reply r') ∧
      @History V _ Reliable.honest _ π _ (m.after op) r' := by
  let _ : Honest V := Reliable.honest
  obtain ⟨hπ, hr⟩ := h.represents
  obtain ⟨N, hN⟩ := hr.call hπ op
  cases hrun : DiskEngine.step N op r with
  | ok reply r' =>
    have hstep : ∀ fuel ≥ N, DiskEngine.step fuel op r = .ok reply r' := fun _ hf =>
      (DiskEngine.refines_step hf op).ok hrun
    exact ⟨N, reply, r', hstep, h.call ⟨N, hstep⟩⟩
  | error f r' =>
    cases (hN N le_rfl).error hrun with
    | missed hrep => exact hrep.elim
    | poisoned _ hrep => exact hrep.elim
    | refused hc => exact absurd hc hop
    | overflow hs => exact absurd hnum hs
    | panic hc => exact absurd hc hcheck

lemma history_reopened : ∃ r r₁ r₂ : DiskEngine GreedyFullest FaultyVfs,
    @History FaultyVfs _ Reliable.honest crc32Ieee GreedyFullest _ .worn r ∧
    @DiskEngine.openOn _ _ _ crc32Ieee (some 100) ⟨⟩ (.fromImage r.store.vfs.view) = .ok r₁ ∧
    @History FaultyVfs _ Reliable.honest crc32Ieee GreedyFullest _ KvStore.worn.reopen r₁ ∧
    (∃ N reply, ∀ fuel ≥ N, @DiskEngine.step _ _ _ crc32Ieee _ fuel (.op (.mutate (.delete [5])))
      r₁ = .ok reply r₂) ∧
    @History FaultyVfs _ Reliable.honest crc32Ieee GreedyFullest _
      (KvStore.worn.reopen.after (.op (.mutate (.delete [5])))) r₂ := by
  let _ := crc32Ieee
  let _ : Honest FaultyVfs := Reliable.honest
  obtain ⟨-, -, r, -, -, h, -⟩ := history_worn Reliable.honest FaultyVfs.idle_new
  obtain ⟨r₁, hopen⟩ := h.represents.2.opens (some 100) (⟨⟩ : GreedyFullest)
  have h₁ :=
    h.reopen GreedyFullest.legal .refl (FaultyVfs.idle_fromImage r.store.vfs.view) rfl hopen
  obtain ⟨N, reply, r₂, hstep, h₂⟩ :=
    h₁.returns (show DiskOp.op (.mutate (.delete [5])) ≠ .commit by simp) (by simp)
    (show KvStore.worn.reopen.seq.toNat + 1 < 2 ^ 64 by decide)
  exact ⟨r, r₁, r₂, h, hopen, h₁, ⟨N, reply, hstep⟩, h₂⟩

/-- On a device that reports no error calls return, before the file is opened again and after. -/
theorem history_refines_worn : ∃ r r' : DiskEngine GreedyFullest FaultyVfs,
    @History FaultyVfs _ Reliable.honest crc32Ieee GreedyFullest _ .worn r ∧
    @DiskEngine.openOn _ _ _ crc32Ieee (some 100) ⟨⟩ (.fromImage r.store.vfs.view) = .ok r' ∧
    @History FaultyVfs _ Reliable.honest crc32Ieee GreedyFullest _ KvStore.worn.reopen r' ∧
      ∃ N, ∀ fuel ≥ N,
        Ends (@DiskEngine.step _ _ _ crc32Ieee _ fuel (.op (.get [5]))) r
          (fun reply _ => reply = .reply (.value (some [4, 0, 0, 0, 0, 0, 0, 0])))
          (fun _ _ => False) ∧
        Ends (@DiskEngine.step _ _ _ crc32Ieee _ fuel (.op (.mutate (.delete [5])))) r'
          (fun reply r₁ => reply = .reply .done ∧
            @History FaultyVfs _ Reliable.honest crc32Ieee GreedyFullest _
            (KvStore.worn.reopen.after (.op (.mutate (.delete [5])))) r₁) fun _ _ => False := by
  let _ := crc32Ieee
  let _ : Honest FaultyVfs := Reliable.honest
  obtain ⟨r, r', -, h, hopen, h', -⟩ := history_reopened
  obtain ⟨N, hN⟩ := history_refines h (.op (.get [5]))
  obtain ⟨N', hN'⟩ := history_refines h' (.op (.mutate (.delete [5])))
  refine ⟨r, r', h, hopen, h', max N N', fun fuel hf => ⟨(hN fuel (by omega)).mono ?_ ?_,
    (hN' fuel (by omega)).mono ?_ ?_⟩⟩
  · rintro reply r₁ ⟨⟨reply, rfl, hans⟩, -⟩
    rw [hans]
    rfl
  · rintro f r₁ (⟨hf, -⟩ | ⟨hop, -⟩ | ⟨-, hnum⟩ | ⟨-, hop, -⟩)
    · exact hf
    · cases hop
    · exact hnum trivial
    · cases hop
  · rintro reply r₁ ⟨⟨reply, rfl, hans⟩, hr₁⟩
    exact ⟨congrArg _ hans, hr₁⟩
  · rintro f r₁ (⟨hf, -⟩ | ⟨hop, -⟩ | ⟨-, hnum⟩ | ⟨-, hop, -⟩)
    · exact hf
    · cases hop
    · exact hnum (show KvStore.worn.reopen.seq.toNat + 1 < 2 ^ 64 by decide)
    · cases hop

end Beetree
