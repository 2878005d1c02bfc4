import Beetree.Ledger
import Beetree.Session

/-! Between commits nothing reaches the device, whatever state the engine is in. -/
namespace Beetree

section After
variable {σ α : Type} {R : σ → σ → Prop}

lemma Keeps.after {x : EStateM Fault σ α} (hx : Keeps R x) (ht : ∀ {s s' s''}, R s s' → R s' s'' →
    R s s'') {s s₁ : σ}
    (h : R s s₁) : Ends x s₁ (fun _ s' => R s s') fun _ s' => R s s' :=
  (hx s₁).mono (fun _ _ h' => ht h h') fun _ _ h' => ht h h'

end After

structure ReadKeeps {V : Type} [Vfs V] (Still : V → V → Prop) : Prop where
  refl : ∀ v, Still v v
  trans : ∀ {v v' v''}, Still v v' → Still v' v'' → Still v v''
  read : ∀ off len, Keeps Still (Vfs.readExactAt off len)

lemma readKeeps_honest {V : Type} [Vfs V] [Honest V] : ReadKeeps (Honest.Same : V → V → Prop) where
  refl := Honest.Same.refl
  trans := Honest.Same.trans
  read off len v := (Honest.read v off len).mono (fun _ _ h => h.2) fun _ _ h => h.2.2

lemma readKeeps_faulty : ReadKeeps (Eq : FaultyVfs → FaultyVfs → Prop) where
  refl _ := rfl
  trans := Eq.trans
  read off len v := by
    unfold Ends
    simp only [Vfs.readExactAt]
    cases readAt v.view off len with
    | some data => rfl
    | none => rfl

/-- The device is still, and so is what the engine knows of it. -/
structure Inert {V : Type} (Still : V → V → Prop) (d d' : DiskStore V) : Prop where
  same : Still d.vfs d'.vfs
  watermark : d'.watermark = d.watermark
  nextGeneration : d'.nextGeneration = d.nextGeneration
  poisoned : d.poisoned = true → d'.poisoned = true

namespace DiskStore
variable {V : Type} [Vfs V] {Still : V → V → Prop} {d d' d'' : DiskStore V} (hV : ReadKeeps Still)
include hV

lemma inert_refl (d : DiskStore V) : Inert Still d d := ⟨hV.refl _, rfl, rfl, id⟩

lemma inert_trans (h : Inert Still d d') (h' : Inert Still d' d'') : Inert Still d d'' :=
  ⟨hV.trans h.same h'.same, h'.watermark.trans h.watermark,
    h'.nextGeneration.trans h.nextGeneration,
    fun hp => h'.poisoned (h.poisoned hp)⟩

lemma inert_bind {α β : Type} {x : Act V α} {f : α → Act V β} (hx : Keeps (Inert Still) x)
    (hf : ∀ a, Keeps (Inert Still) (f a)) :
    Keeps (Inert Still) (x >>= f) := Keeps.bind (inert_trans hV) hx hf

lemma inert_after {α : Type} {x : Act V α} (h : Inert Still d d') (hx : Keeps (Inert Still) x) :
    Ends x d' (fun _ s' => Inert Still d s') fun _ s' => Inert Still d s' :=
    hx.after (inert_trans hV) h

lemma inert_memory (d : DiskStore V) (slots : List NodeSlot) (cache : Cache)
    (offsets : OrdMap ℕ NodeId) :
    Inert Still d { d with slots := slots, cache := cache, offsets := offsets } :=
    ⟨hV.refl _, rfl, rfl, id⟩

lemma inert_touch (id : NodeId) : Keeps (Inert Still) (touch id : Act V Unit) := by
  intro s
  unfold Ends touch
  split_ifs
  · exact inert_refl hV s
  · exact inert_refl hV s
  · dsimp only
    split_ifs
    · cases (s.stamp id).cache.lru.filterM (isCurrent (s.stamp id).slots) with
      | none => exact inert_memory hV s _ _ s.offsets
      | some lru => exact inert_memory hV s _ _ s.offsets
    · exact inert_memory hV s _ _ s.offsets

lemma inert_evict (id : NodeId) (diskOffset : Option ℕ) (bytes : ℕ) :
    Keeps (Inert Still) (evict id diskOffset bytes : Act V Unit) := by
  intro s
  unfold Ends evict
  cases diskOffset with
  | none => exact inert_refl hV s
  | some offset =>
    dsimp only
    split_ifs
    · exact inert_memory hV s _ _ s.offsets
    · exact inert_refl hV s

lemma inert_enforceLoop (budget : ℕ) (pins : List NodeId) (justLoaded : Option NodeId) (n : ℕ) :
    Keeps (Inert Still) (enforceLoop budget pins justLoaded n : Act V Unit) := by
  induction n with
  | zero => exact Keeps.pure _ (inert_refl hV)
  | succ n ih =>
    intro s
    unfold enforceLoop
    refine .after (show (get : Act V _) s = .ok s s from rfl) ?_
    split_ifs
    · exact .of_ok rfl (inert_refl hV s)
    · cases hlru : s.cache.lru with
      | nil => exact .of_ok rfl (inert_refl hV s)
      | cons x lru =>
        obtain ⟨id, tick⟩ := x
        let s₁ : DiskStore V := { s with cache := { s.cache with lru := lru } }
        have hset : (set s₁ : Act V PUnit) s = .ok ⟨⟩ s₁ := rfl
        have h₁ : Inert Still s s₁ := inert_memory hV s _ _ s.offsets
        refine .after hset ?_
        cases hx : s.slots[id]? with
        | none => exact .of_error rfl h₁
        | some slot =>
          cases slot with
          | loaded node dirty diskOffset bytes lastTick =>
            dsimp only
            split_ifs
            · exact inert_after hV h₁ ih
            · have hstamp : Keeps (Inert Still) (modify (stamp id) : Act V PUnit) :=
                Keeps.modify fun s => inert_memory hV s _ _ s.offsets
              exact inert_after hV h₁ (inert_bind hV hstamp fun _ => ih)
            · exact inert_after hV h₁
                (inert_bind hV (inert_evict hV id diskOffset bytes) fun _ => ih)
          | onDisk offset => exact inert_after hV h₁ ih
          | freed => exact inert_after hV h₁ ih

lemma inert_enforceBudget (pins : List NodeId) (justLoaded : Option NodeId) :
    Keeps (Inert Still) (enforceBudget pins justLoaded : Act V Unit) := by
  refine .get fun s => ?_
  cases s.cache.budget with
  | none => exact Keeps.pure _ (inert_refl hV)
  | some budget =>
    refine inert_bind hV (inert_enforceLoop hV budget pins justLoaded _) fun _ =>
      Keeps.modify fun s => ?_
    unfold noteOvercommit
    split_ifs
    · exact inert_memory hV s _ _ s.offsets
    · exact inert_refl hV s

lemma inert_allocOnDisk (offset : ℕ) : Keeps (Inert Still) (allocOnDisk offset : Act V NodeId) := by
  intro s
  unfold Ends allocOnDisk
  dsimp only
  cases s.offsets.get? offset with
  | none => exact inert_memory hV s _ s.cache _
  | some id =>
    dsimp only
    rcases s.slots[id]? with _ | ⟨_ | _ | _⟩
    · exact inert_refl hV s
    · exact inert_refl hV s
    · exact inert_refl hV s
    · exact inert_memory hV s _ s.cache _

lemma inert_internChildren (offset : ℕ) (node : DiskNode) :
    Keeps (Inert Still) (internChildren offset node : Act V Node) := by
  cases node with
  | leaf es => exact Keeps.pure _ (inert_refl hV)
  | internal ps cs b =>
    refine Keeps.ite (Keeps.throw _ (inert_refl hV)) ?_
    cases cs.find? (fun c => decide (c.toNat < dataStart) || decide (offset ≤ c.toNat)) with
    | some child => exact Keeps.throw _ (inert_refl hV)
    | none =>
      exact inert_bind hV (Keeps.mapM (inert_refl hV) (inert_trans hV)
        (fun _ => inert_allocOnDisk hV _) cs) fun _ =>
        Keeps.pure _ (inert_refl hV)

lemma inert_read (off len : ℕ) :
    Keeps (Inert Still) (onVfs (Vfs.readExactAt off len) : Act V (List Byte)) := by
  intro s
  have h := hV.read off len s.vfs
  unfold Ends at h
  cases hr : Vfs.readExactAt off len s.vfs with
  | ok data v' =>
    rw [hr] at h
    exact .of_ok (onVfs_ok hr) ⟨h, rfl, rfl, id⟩
  | error f v' =>
    rw [hr] at h
    exact .of_error (onVfs_error hr) ⟨h, rfl, rfl, id⟩

variable [Crc32Fast]

lemma inert_readRecord (offset : ℕ) : Keeps (Inert Still) (readRecord offset : Act V _) := by
  have hthrow : ∀ {α : Type} (reason : CorruptReason), Keeps (Inert Still)
    (corrupt offset reason : Act V α) :=
    fun _ => Keeps.throw _ (inert_refl hV)
  have hadd : ∀ a b, Keeps (Inert Still) (checkedAdd a b : Act V ℕ) := fun _ _ =>
    (Keeps.pure _ (inert_refl hV)).ite (Keeps.throw _ (inert_refl hV))
  have hsub : ∀ a b, Keeps (Inert Still) (checkedSub a b : Act V ℕ) := fun _ _ =>
    (Keeps.pure _ (inert_refl hV)).ite (Keeps.throw _ (inert_refl hV))
  refine .get fun s => (hthrow _).ite ?_
  refine inert_bind hV (inert_read hV _ _) fun header => inert_bind hV (hadd _ _) fun start =>
    inert_bind hV (hsub _ _) fun room => (hthrow _).ite ?_
  refine inert_bind hV (inert_read hV _ _) fun payload => (hthrow _).ite ?_
  cases decodeNode payload with
  | error reason => exact hthrow reason
  | ok node => exact Keeps.pure _ (inert_refl hV)

lemma inert_ensureLoaded (id : NodeId) (pins : List NodeId) :
    Keeps (Inert Still) (ensureLoaded id pins : Act V Unit) := by
  intro s
  unfold ensureLoaded
  refine .after (show (get : Act V _) s = .ok s s from rfl) ?_
  rcases s.slots[id]? with _ | ⟨_ | offset | _⟩
  · exact .of_error rfl (inert_refl hV s)
  · refine .after (show (set { s with cache := { s.cache with hits := s.cache.hits + 1 } } :
      Act V PUnit) s = .ok ⟨⟩ _ from rfl) ?_
    exact inert_after hV (inert_memory hV s s.slots _ s.offsets) (inert_touch hV id)
  · refine inert_bind hV (inert_readRecord hV offset) (fun x => ?_) s
    refine inert_bind hV (inert_internChildren hV offset x.1) fun node => ?_
    refine inert_bind hV (Keeps.modify fun s => inert_memory hV s _ _ s.offsets) fun _ => ?_
    exact inert_bind hV (inert_touch hV id) fun _ => inert_enforceBudget hV pins (some id)
  · exact .of_error rfl (inert_refl hV s)

/-- The operations of the store leave the device alone. -/
theorem storeFrame_inert : StoreFrame (Inert Still : DiskStore V → DiskStore V → Prop) where
  refl := inert_refl hV
  trans := inert_trans hV
  loaded id := by
    intro s
    unfold Ends
    simp only [NodeStore.loaded, DiskStore.loaded]
    rcases s.slots[id]? with _ | ⟨_ | _ | _⟩
    · exact inert_refl hV s
    · exact inert_refl hV s
    · exact inert_refl hV s
    · exact inert_refl hV s
  mutate id f := by
    intro s
    unfold Ends
    simp only [NodeStore.mutate, loadedMut]
    rcases s.slots[id]? with _ | ⟨node, _, _, bytes, _⟩ | _ | _
    · exact inert_refl hV s
    · dsimp only
      cases f node with
      | none => exact inert_refl hV s
      | some node' =>
        dsimp only
        split_ifs
        · exact inert_memory hV s _ _ s.offsets
        · exact inert_refl hV s
    · exact inert_refl hV s
    · exact inert_refl hV s
  alloc node := by
    intro s
    change Ends (allocDirty node) s _ _
    unfold allocDirty
    refine .after (show (get : Act V _) s = .ok s s from rfl) ?_
    let s₁ : DiskStore V := { s with
      slots := s.slots ++ [.loaded node true none (estBytes node) 0]
      cache := { s.cache with
        bytes := s.cache.bytes + estBytes node
        resident := s.cache.resident + 1 } }
    refine .after (show (set s₁ : Act V PUnit) s = .ok ⟨⟩ s₁ from rfl) ?_
    exact inert_after hV (inert_memory hV s _ _ s.offsets)
      (inert_bind hV (inert_touch hV _) fun _ => Keeps.pure _ (inert_refl hV))
  releaseSlot id := by
    intro s
    unfold Ends
    simp only [NodeStore.releaseSlot, DiskStore.releaseSlot]
    rcases s.slots[id]? with _ | ⟨_, _, _, bytes, _⟩ | _ | _
    · exact inert_refl hV s
    · dsimp only
      split_ifs
      · exact inert_memory hV s _ _ _
      · exact inert_refl hV s
    · exact inert_memory hV s _ s.cache _
    · exact inert_refl hV s
  isDirty id := by
    intro s
    unfold Ends
    simp only [NodeStore.isDirty, DiskStore.isDirty]
    rcases s.slots[id]? with _ | ⟨_ | _ | _⟩
    · exact inert_refl hV s
    · exact inert_refl hV s
    · exact inert_refl hV s
    · exact inert_refl hV s
  ensureLoaded := inert_ensureLoaded hV

end DiskStore

namespace DiskEngine
open DiskStore
variable {π V : Type} {Still : V → V → Prop}

lemma inert_poisoning {α : Type} {m : Engine.Act π (DiskStore V) α}
    (hm : Keeps (OnStores (Inert Still)) m) :
    Keeps (OnStores (Inert Still)) (poisoning m) :=
  keeps_poisoning hm fun _ _ h => ⟨h.same, h.watermark, h.nextGeneration, fun _ => rfl⟩

variable [Vfs V] (hV : ReadKeeps Still)
include hV

lemma inert_touchLoaded : Keeps (Inert Still) (touchLoaded : Act V Unit) := by
  refine .get fun s => Keeps.forM (inert_refl hV) (inert_trans hV) (fun id => .get fun s => ?_) _
  rcases s.slots[id]? with _ | ⟨_ | _ | _⟩
  · exact Keeps.throw _ (inert_refl hV)
  · exact inert_touch hV id
  · exact Keeps.pure _ (inert_refl hV)
  · exact Keeps.pure _ (inert_refl hV)

variable [Crc32Fast]

lemma inert_heightLoop (n height : ℕ) (id : NodeId) :
    Keeps (OnStores (Inert Still)) (heightLoop n height id : Engine.Act π (DiskStore V) ℕ) := by
  induction n generalizing height id with
  | zero => exact (storeFrame_inert hV).engine.throw _
  | succ n ih =>
    refine (storeFrame_inert hV).engine.visit id [] fun node => ?_
    cases node with
    | leaf es => exact (storeFrame_inert hV).engine.pure _
    | internal ps cs b =>
      cases cs with
      | nil => exact (storeFrame_inert hV).engine.throw _
      | cons c cs => exact ih _ _

lemma inert_checkInvariantsFull (fuel : ℕ) :
    Keeps (OnStores (Inert Still)) (checkInvariantsFull fuel : Engine.Act π (DiskStore V) _) := by
  intro e
  unfold checkInvariantsFull
  refine .after Engine.run_get ?_
  have hset : ∀ budget, Keeps (Inert Still) (setBudget budget : Act V Unit) := fun budget =>
    Keeps.modify fun s =>
    inert_memory hV s s.slots _ s.offsets
  refine (storeFrame_inert hV).engine.bind (StoreFrame.onStore (hset none)) (fun _ e₁ => ?_) e
  have hload := (storeFrame_inert hV).engine.keeps_loadAll fuel e₁
  unfold Ends at hload ⊢
  dsimp only
  cases hrun : (Engine.loadAll fuel : Engine.Act π (DiskStore V) Unit) e₁ with
  | error f e₂ =>
    rw [hrun] at hload
    cases f with
    | storage x => exact hload
    | panic => exact hload
    | overflow => exact hload
    | fuel => exact hload
  | ok u e₂ =>
    rw [hrun] at hload
    dsimp only
    cases hv : checkInvariants fuel (source e₂) with
    | error f =>
      cases f with
      | storage x => exact hload
      | panic => exact hload
      | overflow => exact hload
      | fuel => exact hload
    | ok verdict =>
      have htail : ∀ verdict : Except InvariantViolation Unit, Keeps (Inert Still) (do
          DiskStore.enforceBudget [] none
          pure verdict : Act V _) := fun verdict =>
        inert_bind hV (inert_enforceBudget hV [] none) fun _ => Keeps.pure _ (inert_refl hV)
      have hback : Keeps (Inert Still) (do
          setBudget e.store.cache.budget
          if e.store.cache.budget.isSome then touchLoaded else pure ()
          DiskStore.enforceBudget [] none
          pure verdict : Act V _) :=
        inert_bind hV (hset _) fun _ =>
          Keeps.ite (inert_bind hV (inert_touchLoaded hV) fun _ => htail verdict)
          (htail verdict)
      exact (StoreFrame.onStore hback).after (storeFrame_inert hV).stores_trans hload

variable [FlushPolicy π]

lemma inert_step (fuel : ℕ) {op : DiskOp} (hop : op ≠ .commit) :
    Keeps (OnStores (Inert Still)) (step fuel op : Engine.Act π (DiskStore V) DiskReply) := by
  have hK := storeFrame_inert hV
  have hF : EngineFrame (OnStores (Inert Still) : DiskEngine π V → DiskEngine π V →
    Prop) := hK.engine
  cases op with
  | op o =>
    cases o with
    | mutate o =>
      refine hF.bind (hF.bind (.get fun e => hF.bind (hF.keeps_ensureLoaded _ _)
        fun _ => hK.keeps_stamp o) fun seq => ?_) fun _ => hF.pure _
      exact inert_poisoning (hF.keeps_applyRoot (hK.flushes true) fuel _ _)
    | get key => exact hF.bind (hF.keeps_lookup fuel (hK.keeps_record _)) fun _ => hF.pure _
    | scan lo hi => exact hF.bind (hF.keeps_scan fuel (hK.keeps_record _)) fun _ => hF.pure _
    | drain =>
      refine hF.bind (.get fun e => hF.bind (hF.keeps_ensureLoaded _ _) fun _ => ?_)
        fun _ => hF.pure _
      exact inert_poisoning (hF.keeps_restoreRootWith (hK.flushes false) fuel _)
  | loadAll => exact hF.bind (hF.keeps_loadAll fuel) fun _ => hF.pure _
  | height => exact hF.bind (.get fun e => inert_heightLoop hV fuel 1 e.root) fun _ => hF.pure _
  | checkInvariantsFull => exact hF.bind (inert_checkInvariantsFull hV fuel) fun _ => hF.pure _
  | commit => exact absurd rfl hop

omit [FlushPolicy π] hV in
lemma commit_poisoned (fuel : ℕ) {r : DiskEngine π V} (hp : r.store.poisoned = true) :
    commit fuel r = .error (.storage .poisoned) r := by
  unfold commit
  rw [run_get_bind, if_pos hp]
  rfl

/-- One call of an engine that is poisoned, or that is not asked to commit. -/
lemma inert_call (fuel : ℕ) {op : DiskOp} {r : DiskEngine π V}
    (hop : r.store.poisoned = true ∨ op ≠ .commit) :
    Ends (step fuel op) r (fun _ r' => Inert Still r.store r'.store ∧
      (r.store.poisoned = true → op ≠ .commit))
      fun f r' => ∀ x, f = .storage x → Inert Still r.store r'.store ∧
      (r.store.poisoned = true → op = .commit → x = .poisoned) := by
  by_cases hc : op = .commit
  · subst hc
    have hp := hop.resolve_right (by simp)
    refine .of_error (run_bind_error (commit_poisoned fuel hp)) ?_
    rintro x ⟨⟩
    exact ⟨inert_refl hV _, fun _ _ => rfl⟩
  · refine (inert_step hV fuel hc r).mono (fun _ _ h => ⟨h, fun _ => hc⟩) fun f r' h x hx => ?_
    exact ⟨h, fun _ h => absurd h hc⟩

/-- Until the next commit, and for good once the engine is poisoned, the file stays as it is: a
poisoned engine answers every commit with a refusal. -/
theorem runCalls_undisturbed {fuel : ℕ} {ops : List DiskOp} {r r' : DiskEngine π V}
    {replies : List (Except DiskError DiskReply)}
    (hrun : runCalls (step fuel) ops r = .ok (replies, r'))
    (hops : r.store.poisoned = true ∨ .commit ∉ ops) :
    Inert Still r.store r'.store ∧ (r.store.poisoned = true →
      List.Forall₂ (fun op reply => op = .commit → reply = .error .poisoned) ops replies) := by
  induction ops generalizing r replies with
  | nil =>
    cases hrun
    exact ⟨inert_refl hV _, fun _ => .nil⟩
  | cons op ops ih =>
    have hop : r.store.poisoned = true ∨ op ≠ .commit := hops.imp_right fun h heq =>
      h (by simp [heq])
    have hnext : ∀ {r₁ : DiskEngine π V}, Inert Still r.store r₁.store → r₁.store.poisoned = true ∨
      .commit ∉ ops := fun h₁ =>
      hops.imp h₁.poisoned fun h hmem => h (List.mem_cons_of_mem _ hmem)
    rcases runCalls_cons hrun with ⟨reply, r₁, rest, hstep, hrest, rfl⟩ | ⟨x, r₁, rest,
      hstep, hrest, rfl⟩
    · obtain ⟨h₁, hreply⟩ := (inert_call hV fuel hop).ok hstep
      obtain ⟨h₂, hreplies⟩ := ih hrest (hnext h₁)
      exact ⟨inert_trans hV h₁ h₂, fun hp => .cons (fun hc => absurd hc (hreply hp))
        (hreplies (h₁.poisoned hp))⟩
    · obtain ⟨h₁, hreply⟩ := (inert_call hV fuel hop).error hstep x rfl
      obtain ⟨h₂, hreplies⟩ := ih hrest (hnext h₁)
      exact ⟨inert_trans hV h₁ h₂, fun hp => .cons (fun hc => congrArg _ (hreply hp hc))
        (hreplies (h₁.poisoned hp))⟩

end DiskEngine

namespace DiskEngine

/-- A poisoned engine that is asked to commit between two reads. -/
theorem runCalls_undisturbed_poisoned : ∃ r r' : DiskEngine GreedyFullest FaultyVfs, ∃ replies,
    runCalls (@step _ _ _ crc32Ieee _ 3) [.height, .commit, .op (.get [])] r = .ok (replies, r') ∧
      r'.store.vfs = r.store.vfs ∧ replies[1]? = some (.error .poisoned) := by
  let _ := crc32Ieee
  let r : DiskEngine GreedyFullest FaultyVfs := (unpublished FaultyVfs.new none ⟨2, 1, 1⟩ ⟨⟩).poison
  have hrun : ∃ replies r', runCalls (step 3)
    [.height, .commit, .op (.get [])] r = .ok (replies, r') ∧
      replies[1]? = some (.error .poisoned) := ⟨_, _, rfl, rfl⟩
  obtain ⟨replies, r', hrun, hreply⟩ := hrun
  refine ⟨r, r', replies, hrun, ?_, hreply⟩
  rw [← (runCalls_undisturbed readKeeps_faulty hrun (Or.inl rfl)).1.same]

end DiskEngine
end Beetree
