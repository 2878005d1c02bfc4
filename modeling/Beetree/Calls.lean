import Beetree.Reach
import Beetree.Session
import Beetree.Survey

/-! What the calls of an engine on a device do. -/
namespace Beetree
open Coupling
open DiskStore (Models Steady)

def DiskOp.act : DiskOp → Key → Option Value → Option Value
  | .op o, k, x => o.act k x
  | _, _, x => x

/-- There is a sequence number left for the call. -/
def DiskOp.Numbered (seq : UInt64) : DiskOp → Prop
  | .op o => o.Numbered seq
  | _ => True

def DiskOp.advance (seq : UInt64) : DiskOp → UInt64
  | .op o => o.advance seq
  | _ => seq

/-- Where a call may only dirty what is below a dirty node. -/
def DiskOp.Safe {h : ℕ} (q : Bool) (t : Live h) : DiskOp → Prop
  | .op o => o.Safe q t
  | _ => True

def DiskOp.Answers {h : ℕ} (t : Live h) : DiskOp → DiskReply → Prop
  | .op o, r => ∃ reply, r = .reply reply ∧ o.Answers (Live.contents t) reply
  | .loadAll, r => r = .reply .done
  | .height, r => r = .height (h + 1)
  | .checkInvariantsFull, r => r = .verdict (.ok ())
  | .commit, _ => True

/-- What a call does to a tree at rest, commits apart. -/
structure Responds {π : Type} (q : Bool) (op : DiskOp) (reply : DiskReply) (e e' : Engine π Ideal)
    {h h' : ℕ} (t : Live h)
    (t' : Live h') : Prop where
  holds : Holds e' t'
  evolves : Evolves q op.act t t'
  answers : op.Answers t reply
  params : e'.params = e.params
  nextSeq : e'.nextSeq = op.advance e.nextSeq
  quiet : op = .op .drain → (Live.plain t').Quiet

section Browse
variable {π : Type} {e e' : Engine π Ideal} {h : ℕ} {t t' : Live h}

structure Browses (e : Engine π Ideal) (t : Live h) (e' : Engine π Ideal) (t' : Live h) : Prop where
  bounded : e'.store.Bounded
  holds : Holds e' t'
  opens : Opens t t'
  params : e'.params = e.params
  nextSeq : e'.nextSeq = e.nextSeq

lemma Browses.refl (ht : Holds e t) (hb : e.store.Bounded) :
    Browses e t e t := ⟨hb, ht, Opens.refl t, rfl, rfl⟩

lemma loadInv_browses (e : Engine π Ideal) (t : Live h) :
    LoadInv fun e' => ∃ t', Browses e t e' t' where
  ensure := by
    rintro e₁ id pins s ⟨t₁, h₁⟩ hrun
    have hrun' : Engine.ensureLoaded id pins e₁ = .ok () (e₁.on s) := Engine.run_onStore hrun
    obtain ⟨t₂, hold, hopen, hfix⟩ := h₁.holds.ensured h₁.bounded hrun'
    refine ⟨t₂, ensureLoaded_bounded h₁.bounded hrun', hold, h₁.opens.trans hopen, ?_, ?_⟩
    · exact h₁.params
    · exact h₁.nextSeq
  record := by
    rintro e₁ f ⟨t₁, h₁⟩
    exact ⟨t₁, h₁.bounded, h₁.holds.recorded f, h₁.opens, h₁.params, h₁.nextSeq⟩

end Browse

section Failed
variable {π V : Type} [Crc32Fast] {file : V → List Byte} {Idle : V → Prop} {Err : Fault → Prop}
    {e : Engine π Ideal} {h : ℕ}
  {t : Live h} {sb : Superblock} {D : Record} {prev : Option (Superblock × Record)}

def DiskOp.Writes : DiskOp → Prop
  | .op (.mutate _) => True
  | .op .drain => True
  | .commit => True
  | _ => False

/-- How a call on an engine fails: it has only read, or the engine is poisoned, or there is no
number left for something. Checking the whole tree panics where it cannot read it. -/
inductive Failed (file : V → List Byte) (Idle : V → Prop) (Err : Fault → Prop) (e : Engine π Ideal)
    {h : ℕ} (t : Live h) (sb : Superblock) (D : Record)
    (prev : Option (Superblock × Record)) (r : DiskEngine π V) (op : DiskOp) :
    Fault → DiskEngine π V → Prop
  | missed {f : Fault} {r' : DiskEngine π V} {e' : Engine π Ideal} {t' : Live h} :
    Err f → Browses e t e' t' →
      Sits file Idle r' e' t' sb D prev → (op.Writes → r'.trace = r.trace) →
      Failed file Idle Err e t sb D prev r op f r'
  | poisoned {f : Fault} {r' : DiskEngine π V} : op.Writes → Err f → r'.store.poisoned = true →
      Durable (file r'.store.vfs) sb D prev → Idle r'.store.vfs →
      Failed file Idle Err e t sb D prev r op f r'
  | overflow {r' : DiskEngine π V} : ¬ op.Numbered e.nextSeq →
    Failed file Idle Err e t sb D prev r op .overflow r'
  | panic {f : Fault} {r' : DiskEngine π V} : op = .checkInvariantsFull → Err f →
    Failed file Idle Err e t sb D prev r op .panic r'

end Failed

section Reads
variable {π V : Type} [Vfs V] [Crc32Fast] {file : V → List Byte} {Same : V → V → Prop}
    {Idle : V → Prop} {Err : Fault → Prop}
  {e e' : Engine π Ideal} {r : DiskEngine π V} {h : ℕ} {t t' : Live h} {sb : Superblock}
    {D : Record} {prev : Option (Superblock × Record)}

/-- A program that only reads. -/
lemma Sits.reads (hV : Device file Same Idle Err) {α : Type} {x : Engine.Act π Ideal α}
    {y : Engine.Act π (DiskStore V) α}
    (hxy : ((diskSim hV.toRecordReads).couple Eq Eq fun e' =>
      ∃ t' : Live h, Browses e t e' t').Sims Eq x y)
    (hr : Sits file Idle r e t sb D prev) {a : α} (hx : x e = .ok a e') (ht : Holds e' t')
    (ho : Opens t t')
    (hp : e'.params = e.params) :
    Ends y r (fun b r' => b = a ∧ Sits file Idle r' e' t' sb D prev) fun f r' =>
      Err f ∧ ∃ e₁ t₁, Browses e t e₁ t₁ ∧ Sits file Idle r' e₁ t₁ sb D prev := by
  have hb : e.store.Bounded := hr.alike.store.bound
  refine ((hxy e r hr.alike ⟨t, .refl hr.holds hb⟩).ends hx).mono ?_ ?_
  · rintro b r' ⟨rfl, -, ha, hk⟩
    exact ⟨rfl,
      hr.steady hV (hr.toFollows.evolve ha ht (ho.evolves (q := true) hr.holds.good) hp) hp hk⟩
  · rintro f r' ⟨hf, e₁, ⟨t₁, hbrowse⟩, ha, hk⟩
    refine ⟨hf, e₁, t₁, hbrowse, ?_⟩
    exact hr.steady hV (hr.toFollows.evolve ha hbrowse.holds
      (hbrowse.opens.evolves (q := true) hr.holds.good) hbrowse.params)
      hbrowse.params hk

lemma Sits.root (hV : Device file Same Idle Err) (hr : Sits file Idle r e t sb D prev) {op : DiskOp}
    (hx : Engine.ensureLoaded e.root [] e = .ok () e') : Ends (Engine.ensureLoaded r.root []) r
      (fun _ r' => Alike (Models file) e' r' ∧ Steady Same r.store r'.store)
      (Failed file Idle Err e t sb D prev r op) := by
  have hb : e.store.Bounded := hr.alike.store.bound
  obtain ⟨t', ht', ho, hfix⟩ := hr.holds.ensured hb hx
  have hsim :
    ((diskSim hV.toRecordReads).couple Eq Eq fun e' => ∃ t' : Live h, Browses e t e' t').Sims Eq
      (Engine.ensureLoaded e.root []) (Engine.ensureLoaded r.root []) :=
    (diskSim hV.toRecordReads).sims_ensureLoaded (loadInv_browses e t) hr.alike.root
      List.Forall₂.nil
  have hends := (hsim e r hr.alike ⟨t, .refl hr.holds hb⟩).ends hx
  have honly : Ends (Engine.ensureLoaded r.root []) r (fun _ _ => True) fun _ r' =>
    r'.trace = r.trace := by
    cases hrun : NodeStore.ensureLoaded r.root [] r.store with
    | ok a d => exact .of_ok (Engine.run_onStore hrun) trivial
    | error f d => exact .of_error (Engine.run_onStore_error hrun) rfl
  refine (hends.and honly).mono ?_ ?_
  · rintro u r' ⟨⟨-, -, ha, hk⟩, -⟩
    exact ⟨ha, hk⟩
  · rintro f r' ⟨⟨hf, e₁, ⟨t₁, hbrowse⟩, ha, hk⟩, htrace⟩
    refine .missed hf hbrowse ?_ fun _ => htrace
    exact hr.steady hV (hr.toFollows.evolve ha hbrowse.holds
      (hbrowse.opens.evolves (q := true) hr.holds.good) hbrowse.params)
      hbrowse.params hk

lemma Sits.writes (hV : Device file Same Idle Err) (hE : ∀ f, Err f → f.IsStorage)
    (hr : Sits file Idle r e t sb D prev) {op : DiskOp} (hop : op.Writes)
    {e₁ : Engine π Ideal} {r₁ : DiskEngine π V} (ha : Alike (Models file) e₁ r₁)
    (hk : Steady Same r.store r₁.store)
    {x : Engine.Act π Ideal Unit} {y : Engine.Act π (DiskStore V) Unit}
    (hxy : ((diskSim hV.toRecordReads).engines Eq Eq).Sims Eq x y) (hx : x e₁ = .ok () e') {h' : ℕ}
    {t' : Live h'} (ht : Holds e' t')
    {q : Bool} {f : Key → Option Value → Option Value} (hev : Evolves q f t t')
    (hp : e'.params = e.params) :
    Ends (DiskEngine.poisoning y) r₁ (fun _ r' => Sits file Idle r' e' t' sb D prev)
    (Failed file Idle Err e t sb D prev r op) := by
  refine (ends_poisoning ((hxy e₁ r₁ ha trivial).ends hx)).mono ?_ ?_
  · rintro u r' ⟨-, -, ha', hk'⟩
    exact hr.steady hV (hr.toFollows.evolve ha' ht hev hp) hp
      ((diskSim hV.toRecordReads).trans hk hk')
  · rintro f r' hpoison
    by_cases hf : f.IsStorage
    · obtain ⟨r₂, ⟨herr, s₁, -, -, hk'⟩, rfl⟩ := hpoison.storage hf
      have hsame : Same r.store.vfs r₂.store.vfs := hV.trans hk.vfs hk'.vfs
      refine .poisoned hop herr rfl ?_ (hV.idle_same hsame hr.idle)
      change Durable (file r₂.store.vfs) sb D prev
      rw [hV.file_eq hsame]
      exact hr.durable
    · exact absurd (hE f (hpoison.other hf).1) hf

lemma StoreSim.sims_heightLoop (hS : StoreSim Eq (Models file) (Steady Same) Err)
    {inv : Engine π Ideal → Prop}
    (hI : LoadInv inv) (n height : ℕ) (id : NodeId) :
    (hS.couple Eq Eq inv).Sims Eq (Engine.heightLoop n height id)
    (DiskEngine.heightLoop n height id) := by
  induction n generalizing height id with
  | zero => exact Sims.throw _ _
  | succ n ih =>
    refine hS.sims_visit hI rfl .nil fun node node' hn => ?_
    cases hn with
    | leaf es => exact Sims.pure rfl
    | internal ps b hcs =>
      cases hcs with
      | nil => exact Sims.throw _ _
      | cons hc hcs =>
        subst hc
        exact ih _ _

variable [FlushPolicy π]

lemma Sits.tryMutate (hV : Device file Same Idle Err) (hE : ∀ f, Err f → f.IsStorage)
    (hr : Sits file Idle r e t sb D prev) {fuel : ℕ} {op : OpKind2}
    (hx : Engine.mutateWith fuel op e = .ok () e') {h' : ℕ} {t' : Live h'}
    (ht : Holds e' t') {q : Bool}
    {f : Key → Option Value → Option Value} (hev : Evolves q f t t') (hp : e'.params = e.params) :
    Ends (DiskEngine.tryMutate fuel op) r (fun _ r' => Sits file Idle r' e' t' sb D prev)
      (Failed file Idle Err e t sb D prev r (.op (.mutate op))) := by
  obtain ⟨u, e₁, hx₁, hx⟩ :=
    bind_eq_ok (show (Engine.ensureLoaded e.root [] >>= fun _ => Engine.stamp op >>= fun seq =>
    Engine.applyRoot fuel op.key (op.message seq)) e = .ok () e' from hx)
  obtain ⟨seq, e₂, hx₂, hx₃⟩ := bind_eq_ok hx
  have htry : DiskEngine.tryMutate fuel op r = (Engine.ensureLoaded r.root [] >>=
    fun _ => Engine.stamp op >>= fun seq =>
      DiskEngine.poisoning (Engine.applyRoot fuel op.key (op.message seq))) r := by
    unfold DiskEngine.tryMutate DiskEngine.assignSeq
    simp only [bind_assoc]
    rfl
  unfold Ends
  rw [htry]
  refine (hr.root hV hx₁).bind ?_
  rintro - r₁ ⟨ha₁, hk₁⟩
  have hS := diskSim hV.toRecordReads
  rcases hS.sims_stamp traceSim_eq op e₁ r₁ ha₁ trivial seq e₂ hx₂ with ⟨_, r₂, hy, rfl, -, ha₂,
    hk₂⟩ | ⟨f, r₂, -, hy, hf, -⟩
  · have hop : DiskOp.Writes (.op (.mutate op)) := trivial
    refine .after hy (hr.writes hV hE hop ha₂ (hS.trans hk₁ hk₂) ?_ hx₃ ht hev hp)
    refine Sims.get fun e r hr hi => ?_
    refine ((hS.sims_mutate hr.root (respects_accept op.key (op.message seq))).bind
      fun _ _ _ => ?_) e r hr hi
    exact hS.sims_params fun p =>
      hS.sims_restoreRootWith (fun _ => traceSim_eq)
        (fun _ => policySim_eq π) fuel p.bufferCapacity.toNat
  · -- numbering does not touch the device
    unfold Engine.stamp at hy
    rw [run_get_bind] at hy
    split_ifs at hy
    · cases hy
    · cases hy
      exact absurd (hE _ hf) (by simp [Fault.IsStorage])

lemma Sits.drain (hV : Device file Same Idle Err) (hE : ∀ f, Err f → f.IsStorage)
    (hr : Sits file Idle r e t sb D prev) {fuel : ℕ}
    (hx : Engine.drain fuel e = .ok () e') {h' : ℕ} {t' : Live h'} (ht : Holds e' t') {q : Bool}
    {f : Key → Option Value → Option Value} (hev : Evolves q f t t') (hp : e'.params = e.params) :
    Ends (DiskEngine.drain fuel) r (fun _ r' => Sits file Idle r' e' t' sb D prev)
      (Failed file Idle Err e t sb D prev r (.op .drain)) := by
  obtain ⟨u, e₁, hx₁, hx₂⟩ := bind_eq_ok (show (Engine.ensureLoaded e.root [] >>= fun _ =>
    Engine.restoreRootWith fuel 0 false) e = .ok () e' from hx)
  have hS := diskSim hV.toRecordReads
  change Ends (Engine.ensureLoaded r.root [] >>=
    fun _ => DiskEngine.poisoning (Engine.restoreRootWith fuel 0 false)) r _ _
  refine (hr.root hV hx₁).bind ?_
  rintro - r₁ ⟨ha₁, hk₁⟩
  have hop : DiskOp.Writes (.op .drain) := trivial
  exact hr.writes hV hE hop ha₁ hk₁ (hS.sims_restoreRootWith (by simp) (by simp) fuel 0) hx₂ ht hev
    hp

end Reads

section Check
variable {π V : Type} {e : Engine π Ideal} {r : DiskEngine π V} {h : ℕ} {t : Live h}
    {d : DiskStore V}

lemma Holds.refit (ht : Holds e t) (kept : Set NodeId) (free : Bool) :
    Holds (e.on { e.store with kept := kept, free := free }) t where
  root := ht.root
  stored := ⟨ht.stored.slots, ht.stored.bound, ht.stored.nodup⟩
  whole := ht.whole
  good := ht.good
  sound := ht.sound
  rest := ht.rest
  fresh := ht.fresh
  legal := ht.legal

/-- Note an access to a node if it is in memory. -/
def DiskEngine.touchIfLoaded (id : NodeId) : DiskStore.Act V Unit := do
  match (← get).slots[id]? with
  | some (.loaded ..) => DiskStore.touch id
  | some _ => pure ()
  | none => throw .panic

lemma touchIfLoaded_run (hd : d.Tidy) {id : NodeId} (hid : id < d.slots.length) :
    ∃ d', DiskEngine.touchIfLoaded id d = .ok () d' ∧ d'.Tidy ∧ d.Ages (fun _ => True) d' := by
  unfold DiskEngine.touchIfLoaded
  rw [run_get_bind, List.getElem?_eq_getElem hid]
  generalize d.slots[id] = x
  cases x with
  | loaded => exact DiskStore.touch_run hd hid _
  | onDisk => exact ⟨d, rfl, hd, .refl _ d⟩
  | freed => exact ⟨d, rfl, hd, .refl _ d⟩

lemma touchLoaded_run (hd : d.Tidy) : ∃ d', DiskEngine.touchLoaded d = .ok () d' ∧ d'.Tidy ∧
    d.Ages (fun _ => True) d' := by
  have hloop : ∀ (ids : List NodeId) (d : DiskStore V), d.Tidy → (∀ id ∈ ids, id < d.slots.length) →
      ∃ d', ids.forM DiskEngine.touchIfLoaded d = .ok () d' ∧ d'.Tidy ∧
        d.Ages (fun _ => True) d' := by
    intro ids
    induction ids with
    | nil => exact fun d hd _ => ⟨d, rfl, hd, .refl _ d⟩
    | cons id ids ih =>
      intro d hd hlt
      obtain ⟨d₁, hrun₁, hd₁, ha₁⟩ := touchIfLoaded_run hd (hlt id (by simp))
      obtain ⟨d', hrun, hd', ha⟩ := ih d₁ hd₁ fun i hi => ha₁.length ▸ hlt i (by simp [hi])
      exact ⟨d', (run_bind_ok hrun₁).trans hrun, hd', ha₁.trans ha⟩
  exact hloop (List.range d.slots.length) d hd fun id hid => List.mem_range.mp hid

/-- The nodes of an ideal store that is all in memory. -/
def Engine.idealSource (e : Engine π Ideal) : NodeSource where
  root := e.root
  params := e.params
  node id :=
    match e.store.slots id with
    | some (.loaded node _ _) => some node
    | _ => none

variable [Crc32Fast] {file : V → List Byte}

lemma source_eq (ha : Alike (Models file) e r) (ht : Holds e t) (hw : Awake e.store (Live.foot t)) :
    DiskEngine.source r = e.idealSource := by
  unfold DiskEngine.source Engine.idealSource
  rw [ha.params, ← ha.root]
  congr 1
  funext id
  cases hx : e.store.slots id with
  | none =>
    by_cases hid : id < e.store.next
    · obtain ⟨y, hy, hm⟩ := ha.store.slots id hid
      rw [hx] at hm
      cases hm
      rw [hy]
    · have hnone : r.store.slots[id]? = none :=
        List.getElem?_eq_none (ha.store.next ▸ not_lt.mp hid)
      rw [hnone]
  | some x =>
    have hmem : id ∈ (Live.foot t).ids := by
      by_contra hn
      rw [ht.whole id (ha.store.bound id x hx) hn] at hx
      cases hx
    obtain ⟨⟨j, z⟩, hz, rfl⟩ := List.mem_map.mp hmem
    obtain ⟨n, dirty, rec, hslot, hres⟩ := hw _ hz
    rw [ht.stored.slots _ hz, hslot] at hx
    obtain rfl := Option.some.inj hx
    obtain ⟨bytes, tick, hd⟩ :=
      ha.store.toTracks.resident ((ht.stored.slots _ hz).trans (congrArg some hslot)) hres
    rw [hd]

omit [Crc32Fast] in
lemma Holds.checks (ht : Holds e t) (hw : Awake e.store (Live.foot t)) :
    ∃ N, ∀ fuel ≥ N, checkInvariants fuel e.idealSource = .ok (.ok ()) := by
  have hdraws : e.idealSource.Draws e.idealSource.root (Live.plain t) := by
    have hs : ∀ x ∈ Live.foot t, ∀ id, x.1 = id → ∃ n n' d rec, x.2 = .loaded n d rec ∧
      NodeRel Eq n n' ∧
        e.idealSource.node id = some n' := by
      rintro x hx id rfl
      obtain ⟨n, d, rec, hslot, -⟩ := hw x hx
      refine ⟨n, n, d, rec, hslot, NodeRel.refl n, ?_⟩
      unfold Engine.idealSource
      dsimp only
      rw [ht.stored.slots x hx, hslot]
    exact Live.draws hs ht.root.symm
  obtain ⟨N, v, hrun, hv⟩ := checkInvariants_verdict hdraws.grown
  refine ⟨N, fun fuel hf => ?_⟩
  rw [hrun fuel hf, hv.mpr (hdraws.lawful ht.valid ht.rest)]

end Check

section Full
variable {π V : Type} {e : Engine π Ideal} {h : ℕ} {t : Live h}

def DiskStore.budgeted (d : DiskStore V) (budget : Option ℕ) : DiskStore V :=
  { d with cache := { d.cache with budget := budget } }

variable [Crc32Fast] {file : V → List Byte} {s : Ideal} {d : DiskStore V}

lemma DiskStore.Models.budgeted (hm : Models file s d) {budget : Option ℕ} {free : Bool}
    (hb : free = true → budget = none) :
    Models file { s with free := free } (d.budgeted budget) where
  next := hm.next
  slots := hm.slots
  bound := hm.bound
  records := hm.records
  offsets := hm.offsets
  tidy := ⟨hm.tidy.bytes, hm.tidy.resident, hm.tidy.lru, hm.tidy.backed⟩
  free := hb
  watermark := hm.watermark
  apart := ⟨hm.apart.nodup, hm.apart.owner⟩

lemma restoreBudget_run (hm : Models file s d) (budget : Option ℕ)
    (verdict : Except InvariantViolation Unit) :
    ∃ d', (do
        DiskEngine.setBudget budget
        if budget.isSome then DiskEngine.touchLoaded else pure ()
        DiskStore.enforceBudget [] none
        pure verdict : DiskStore.Act V (Except InvariantViolation Unit)) d = .ok verdict d' ∧
      Models file { s with kept := ∅, free := false } d' ∧ Steady Eq (d.budgeted budget) d' := by
  have hm₁ : Models file { s with free := false } (d.budgeted budget) := hm.budgeted (by simp)
  have hend : ∀ {d₂ : DiskStore V}, d₂.Tidy → (d.budgeted budget).Ages (fun _ => True) d₂ → ∃ d₃,
      (do DiskStore.enforceBudget [] none; pure verdict : DiskStore.Act V
        (Except InvariantViolation Unit)) d₂ = .ok verdict d₃ ∧
        Models file { s with kept := ∅, free := false } d₃ ∧ Steady Eq (d.budgeted budget) d₃ := by
    intro d₂ ht₂ ha₂
    obtain ⟨d₃, hrun₃, ht₃, ha₃⟩ := DiskStore.enforceBudget_run [] none ht₂
    have h₂ : DiskStore.Tracks file { s with kept := ∅, free := false } d₂ :=
      hm₁.toTracks.ages ha₂ ht₂ (by simp)
    refine ⟨d₃, run_bind_ok hrun₃, ⟨h₂.ages ha₃ ht₃ (by simp), ⟨hm.apart.nodup, hm.apart.owner⟩⟩,
      ?_⟩
    exact (ha₂.steady fun _ => rfl).trans Eq.trans (ha₃.steady fun _ => rfl)
  rw [run_bind_ok (show DiskEngine.setBudget budget d = .ok () (d.budgeted budget) from rfl)]
  split_ifs
  · obtain ⟨d₂, hrun₂, ht₂, ha₂⟩ := touchLoaded_run hm₁.tidy
    rw [run_bind_ok hrun₂]
    exact hend ht₂ ha₂
  · exact hend hm₁.tidy (.refl _ _)

variable [Vfs V] {Same : V → V → Prop} {Idle : V → Prop} {Err : Fault → Prop}

/-- Checking the whole tree finds nothing wrong. -/
theorem check_ends (hV : Device file Same Idle Err) (hE : ∀ f, Err f → f.IsStorage)
    (ht : Holds e t) :
    ∃ (e' : Engine π Ideal) (t' : Live h) (N : ℕ), Holds e' t' ∧ Opens t t' ∧ e'.fixed = e.fixed ∧
      ∀ fuel ≥ N, ∀ (r : DiskEngine π V) sb D prev, Sits file Idle r e t sb D prev →
      Ends (DiskEngine.checkInvariantsFull fuel) r
        (fun verdict r' => verdict = .ok () ∧ Sits file Idle r' e' t' sb D prev)
        (Failed file Idle Err e t sb D prev r .checkInvariantsFull) := by
  let e₁ : Engine π Ideal := e.on { e.store with kept := e.store.kept, free := true }
  have ht₁ : Holds e₁ t := ht.refit _ true
  obtain ⟨e₂, t₂, N₁, hload, ht₂, hopen, hfix, -, hwake⟩ := loadAll_run ht₁
  obtain ⟨N₂, hcheck⟩ := ht₂.checks (hwake rfl)
  refine ⟨e₂.on { e₂.store with kept := ∅, free := false }, t₂, max N₁ N₂, ht₂.refit ∅ false,
    hopen, hfix, ?_⟩
  intro fuel hf r sb D prev hr
  let r₁ : DiskEngine π V := r.on (r.store.budgeted none)
  have ha₁ : Alike (Models file) e₁ r₁ := hr.alike.on (hr.alike.store.budgeted fun _ => rfl)
  have hsim : ((diskSim hV.toRecordReads).engines (Eq : π → π → Prop) Eq).Sims Eq
    (Engine.loadAll fuel) (Engine.loadAll fuel) :=
    (diskSim hV.toRecordReads).sims_loadAll loadInv_true fuel
  have hends := (hsim e₁ r₁ ha₁ trivial).ends (hload fuel (le_of_max_le_left hf))
  unfold DiskEngine.checkInvariantsFull
  have hset : (Engine.onStore (DiskEngine.setBudget none) : Engine.Act π (DiskStore V) Unit)
    r = .ok () r₁ := rfl
  refine .after Engine.run_get (.after hset ?_)
  unfold Ends at hends ⊢
  dsimp only
  cases hrun : (Engine.loadAll fuel : Engine.Act π (DiskStore V) Unit) r₁ with
  | error f r₂ =>
    rw [hrun] at hends
    obtain ⟨x, rfl⟩ := hE f hends.1
    exact .panic rfl hends.1
  | ok u r₂ =>
    rw [hrun] at hends
    obtain ⟨-, -, ha₂, hk₂⟩ := hends
    obtain ⟨d, hrun₃, hm, hk₃⟩ := restoreBudget_run ha₂.store r.store.cache.budget (.ok ())
    dsimp only
    rw [source_eq ha₂ ht₂ (hwake rfl), hcheck fuel (le_of_max_le_right hf)]
    dsimp only
    rw [Engine.run_onStore hrun₃]
    refine ⟨rfl, ?_⟩
    have ha₃ : Alike (Models file) (e₂.on { e₂.store with kept := ∅, free := false })
      (r₂.on d) := ha₂.on hm
    have hparams : e₂.params = e.params := congrArg (fun x => x.1) hfix
    refine hr.steady hV (hr.toFollows.evolve ha₃ (ht₂.refit ∅ false)
      (hopen.evolves (q := true) hr.holds.good) hparams) hparams ?_
    refine ⟨?_, ?_, ?_, ?_, ?_⟩
    · have hvfs : d.vfs = r₂.store.vfs := hk₃.vfs.symm
      change Same r.store.vfs d.vfs
      rw [hvfs]
      exact hk₂.vfs
    · exact hk₃.watermark.trans hk₂.watermark
    · exact hk₃.nextGeneration.trans hk₂.nextGeneration
    · exact hk₃.poisoned.trans hk₂.poisoned
    · exact hk₃.budget

end Full

section Call
variable {π V : Type} [Vfs V] [Crc32Fast] {file : V → List Byte} {Same : V → V → Prop}
    {Idle : V → Prop} {Err : Fault → Prop}
  {e e' : Engine π Ideal} {r : DiskEngine π V} {h : ℕ} {t t' : Live h} {sb : Superblock}
    {D : Record} {prev : Option (Superblock × Record)}

omit [Vfs V] in
lemma ends_reads {op : DiskOp} (hop : ¬ op.Writes) {α : Type} {y : Engine.Act π (DiskStore V) α}
    {a : α} (g : α → DiskReply)
    (hy : Ends y r (fun b r' => b = a ∧ Sits file Idle r' e' t' sb D prev) fun f r' =>
      Err f ∧ ∃ e₁ t₁, Browses e t e₁ t₁ ∧ Sits file Idle r' e₁ t₁ sb D prev) :
    Ends (y >>= fun b => pure (g b)) r (fun reply r' => reply = g a ∧
      Sits file Idle r' e' t' sb D prev)
      (Failed file Idle Err e t sb D prev r op) := by
  refine (hy.mono (fun _ _ h => h) ?_).bind ?_
  · rintro f r' ⟨hf, e₁, t₁, hbrowse, hsits⟩
    exact .missed hf hbrowse hsits fun hw => absurd hw hop
  · rintro b r' ⟨rfl, hsits⟩
    exact .of_ok rfl ⟨rfl, hsits⟩

variable [FlushPolicy π]

/-- An operation is what the ideal engine does. -/
def DiskOp.Performs (op : DiskOp) (reply : DiskReply) (N : ℕ) (e e' : Engine π Ideal) : Prop :=
  ∀ o, op = .op o → ∃ answer, reply = .reply answer ∧
    ∀ fuel ≥ N, Engine.step fuel o e = .ok answer e'

/-- A call that is not a commit does to the engine what it does to the tree, or fails. What it does
is the same for all engines that follow one tree. -/
theorem call_run (hV : Device file Same Idle Err) (hE : ∀ f, Err f → f.IsStorage)
    (hπ : FlushPolicy.Legal π) (ht : Holds e t) {op : DiskOp}
    (hop : op ≠ .commit) (hs : op.Numbered e.nextSeq) {q : Bool} (hq : op.Safe q t) :
    ∃ (reply : DiskReply) (e' : Engine π Ideal) (h' : ℕ) (t' : Live h')
    (N : ℕ), Responds q op reply e e' t t' ∧
      op.Performs reply N e e' ∧ ∀ fuel ≥ N, ∀ (r : DiskEngine π V) sb D prev, Sits file Idle r e t
        sb D prev → Ends (DiskEngine.step fuel op) r
        (fun reply' r' => reply' = reply ∧ Sits file Idle r' e' t' sb D prev)
        (Failed file Idle Err e t sb D prev r op) := by
  have hS := diskSim hV.toRecordReads
  have hI := loadInv_browses e t
  cases op with
  | op o =>
    cases o with
    | mutate o =>
      obtain ⟨e', h', t', N, hrun, hold, hev, hprm, hseq, -⟩ := mutateWith_run hπ ht o hs
      refine ⟨.reply .done, e', h', t', N, ⟨hold, hev.weaken, ⟨.done, rfl, rfl⟩, hprm, hseq,
        by simp⟩, ?_, ?_⟩
      · rintro - ⟨⟩
        exact ⟨_, rfl, fun fuel hf => run_bind_ok (hrun fuel hf)⟩
      intro fuel hf r sb D prev hr
      refine (hr.tryMutate hV hE (hrun fuel hf) hold hev hprm).bind ?_
      exact fun _ r' hr' => .of_ok rfl ⟨rfl, hr'⟩
    | get key =>
      obtain ⟨e', t', N, hrun, hold, hopen, hfix⟩ := lookup_run ht key
      have hprm : e'.params = e.params := congrArg (fun x => x.1) hfix
      refine ⟨.reply (.value ((Live.plain t).resolve key)), e', h, t', N,
        ⟨hold, hopen.evolves ht.good, ⟨_, rfl, rfl⟩, hprm, congrArg (fun x => x.2.2.1) hfix,
          by simp⟩, ?_, ?_⟩
      · rintro - ⟨⟩
        exact ⟨_, rfl, fun fuel hf => run_bind_ok (hrun fuel hf)⟩
      intro fuel hf r sb D prev hr
      have hends := hr.reads hV (hS.sims_lookup hI traceSim_eq fuel key)
        (hrun fuel hf) hold hopen hprm
      exact ends_reads (show ¬ DiskOp.Writes (.op (.get key)) from fun hw => hw)
        (fun v => .reply (.value v)) hends
    | scan lo hi =>
      obtain ⟨e', t', N, acc, hrun, hacc, hold, hopen, hfix⟩ := scan_run ht lo hi
      have hprm : e'.params = e.params := congrArg (fun x => x.1) hfix
      refine ⟨.reply (.listing acc.toList), e', h, t', N,
        ⟨hold, hopen.evolves ht.good, ⟨_, rfl, acc, hacc, rfl⟩, hprm,
          congrArg (fun x => x.2.2.1) hfix, by simp⟩, ?_, ?_⟩
      · rintro - ⟨⟩
        exact ⟨_, rfl, fun fuel hf => run_bind_ok (hrun fuel hf)⟩
      intro fuel hf r sb D prev hr
      have hends := hr.reads hV (hS.sims_scan hI traceSim_eq fuel lo hi)
        (hrun fuel hf) hold hopen hprm
      exact ends_reads (show ¬ DiskOp.Writes (.op (.scan lo hi)) from fun hw => hw)
        (fun l => .reply (.listing l)) hends
    | drain =>
      obtain ⟨e', h', t', N, hrun, hold, hev, hquiet, hprm, hseq, -⟩ :=
        drain_holds hπ ht (hq.imp_right fun hd => hd rfl)
      refine ⟨.reply .done, e', h', t', N, ⟨hold, hev, ⟨.done, rfl, rfl⟩, hprm, hseq,
        fun _ => hquiet⟩, ?_, ?_⟩
      · rintro - ⟨⟩
        exact ⟨_, rfl, fun fuel hf => run_bind_ok (hrun fuel hf)⟩
      intro fuel hf r sb D prev hr
      refine (hr.drain hV hE (hrun fuel hf) hold hev hprm).bind ?_
      exact fun _ r' hr' => .of_ok rfl ⟨rfl, hr'⟩
  | loadAll =>
    obtain ⟨e', t', N, hrun, hold, hopen, hfix, -, -⟩ := loadAll_run ht
    have hprm : e'.params = e.params := congrArg (fun x => x.1) hfix
    refine ⟨.reply .done, e', h, t', N,
      ⟨hold, hopen.evolves ht.good, rfl, hprm, congrArg (fun x => x.2.2.1) hfix, by simp⟩,
        by rintro - ⟨⟩, ?_⟩
    intro fuel hf r sb D prev hr
    have hends := hr.reads hV (hS.sims_loadAll hI fuel) (hrun fuel hf) hold hopen hprm
    exact ends_reads (show ¬ DiskOp.Writes .loadAll from fun hw => hw) (fun _ => .reply .done) hends
  | height =>
    obtain ⟨e', t', N, hrun, hold, hopen, hfix⟩ := height_run ht
    have hprm : e'.params = e.params := congrArg (fun x => x.1) hfix
    refine ⟨.height (h + 1), e', h, t', N,
      ⟨hold, hopen.evolves ht.good, rfl, hprm, congrArg (fun x => x.2.2.1) hfix, by simp⟩,
        by rintro - ⟨⟩, ?_⟩
    intro fuel hf r sb D prev hr
    have hsim := hS.sims_root fun id id' hid => by
      subst hid
      exact StoreSim.sims_heightLoop hS hI fuel 1 id
    have hends := hr.reads hV hsim (hrun fuel hf) hold hopen hprm
    exact ends_reads (show ¬ DiskOp.Writes .height from fun hw => hw) .height hends
  | checkInvariantsFull =>
    obtain ⟨e', t', N, hold, hopen, hfix, hends⟩ := check_ends hV hE ht
    refine ⟨.verdict (.ok ()), e', h, t', N,
      ⟨hold, hopen.evolves ht.good, rfl, congrArg (fun x => x.1) hfix,
        congrArg (fun x => x.2.2.1) hfix, by simp⟩, by rintro - ⟨⟩, ?_⟩
    intro fuel hf r sb D prev hr
    refine (hends fuel hf r sb D prev hr).bind ?_
    rintro verdict r' ⟨rfl, hr'⟩
    exact .of_ok rfl ⟨rfl, hr'⟩
  | commit => exact absurd rfl hop

/-- Where there is no number left, a call only fails. -/
theorem call_overflow (hV : Device file Same Idle Err) {op : DiskOp} (hs : ¬ op.Numbered e.nextSeq)
    (hr : Sits file Idle r e t sb D prev) (fuel : ℕ) :
    Ends (DiskEngine.step fuel op) r (fun _ _ => False)
    (Failed file Idle Err e t sb D prev r op) := by
  cases op with
  | op o =>
    cases o with
    | mutate o =>
      obtain ⟨e₁, d, dk, x, hx₁, -, hgo₁, -⟩ := ensureLoaded_run [] hr.holds.stored hr.holds.sound
      rw [← hr.holds.root] at hx₁
      have hstep : DiskEngine.step fuel (.op (.mutate o)) r = (Engine.ensureLoaded r.root [] >>=
        fun _ => Engine.stamp o >>= fun seq =>
          DiskEngine.poisoning (Engine.applyRoot fuel o.key (o.message seq)) >>= fun _ =>
            pure (.reply .done)) r := by
        change (DiskEngine.tryMutate fuel o >>= fun _ => pure (DiskReply.reply .done)) r = _
        unfold DiskEngine.tryMutate DiskEngine.assignSeq
        simp only [bind_assoc]
        rfl
      unfold Ends
      rw [hstep]
      refine (hr.root hV hx₁).bind ?_
      rintro - r₁ ⟨ha₁, -⟩
      have hstamp : Engine.stamp o r₁ = .error .overflow r₁ := by
        have hlast : ¬ e.nextSeq.toNat + 1 < 2 ^ 64 := hs
        unfold Engine.stamp
        rw [run_get_bind, ha₁.nextSeq, hgo₁.moves.nextSeq, if_neg hlast]
        rfl
      exact .of_error (run_bind_error hstamp) (.overflow hs)
    | get key => exact absurd trivial hs
    | scan lo hi => exact absurd trivial hs
    | drain => exact absurd trivial hs
  | loadAll => exact absurd trivial hs
  | height => exact absurd trivial hs
  | checkInvariantsFull => exact absurd trivial hs
  | commit => exact absurd trivial hs

end Call

end Beetree
