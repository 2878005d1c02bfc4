import Mathlib.Logic.Relation
import Beetree.Accounts
import Beetree.Check
import Beetree.Crafted

/-! Every run of the disk engine changes its store by cache calls only, so its accounts are right
between any two of them. -/
namespace Beetree

section Calls
variable {σ ω ρ : Type}

lemma runOps_append {step : ω → EStateM Fault σ ρ} {ops rest : List ω} {s s₁ s' : σ}
    {replies replies' : List ρ}
    (hrun : runOps step ops s = .ok replies s₁) (hrest : runOps step rest s₁ = .ok replies' s') :
    runOps step (ops ++ rest) s = .ok (replies ++ replies') s' := by
  induction ops generalizing s replies with
  | nil =>
    cases hrun
    exact hrest
  | cons op ops ih =>
    obtain ⟨reply, s₂, hstep, hrun⟩ := bind_eq_ok hrun
    obtain ⟨replies₁, s₃, hops, hpure⟩ := bind_eq_ok (f := fun rs => pure (reply :: rs)) hrun
    cases hpure
    rw [List.cons_append, runOps, run_bind_ok hstep, run_bind_ok (ih hops)]
    rfl

lemma runCalls_of_runOps {step : ω → EStateM Fault σ ρ} {ops : List ω} {s s' : σ} {replies : List ρ}
    (hrun : runOps step ops s = .ok replies s') :
    runCalls step ops s = .ok (replies.map .ok, s') := by
  induction ops generalizing s replies with
  | nil =>
    cases hrun
    rfl
  | cons op ops ih =>
    obtain ⟨reply, s₁, hstep, hrun⟩ := bind_eq_ok hrun
    obtain ⟨replies', s₂, hops, hpure⟩ := bind_eq_ok (f := fun rs => pure (reply :: rs)) hrun
    cases hpure
    rw [runCalls, hstep]
    dsimp only
    rw [ih hops]
    rfl

lemma runCalls_cons {step : ω → EStateM Fault σ ρ} {op : ω} {ops : List ω} {s s' : σ}
    {out : List (Except DiskError ρ)}
    (h : runCalls step (op :: ops) s = .ok (out, s')) :
    (∃ reply s₁ rest, step op s = .ok reply s₁ ∧ runCalls step ops s₁ = .ok (rest, s') ∧
      out = .ok reply :: rest) ∨
      ∃ x s₁ rest, step op s = .error (.storage x) s₁ ∧ runCalls step ops s₁ = .ok (rest, s') ∧
      out = .error x :: rest := by
  unfold runCalls at h
  cases hstep : step op s with
  | ok reply s₁ =>
    rw [hstep] at h
    cases hrest : runCalls step ops s₁ with
    | error f => simp [hrest, Except.map] at h
    | ok y =>
      simp only [hrest, Except.map, Except.ok.injEq, Prod.mk.injEq] at h
      obtain ⟨rfl, rfl⟩ := h
      exact Or.inl ⟨reply, s₁, y.1, rfl, hrest, rfl⟩
  | error f s₁ =>
    rw [hstep] at h
    cases f with
    | storage x =>
      cases hrest : runCalls step ops s₁ with
      | error f => simp [hrest, Except.map] at h
      | ok y =>
        simp only [hrest, Except.map, Except.ok.injEq, Prod.mk.injEq] at h
        obtain ⟨rfl, rfl⟩ := h
        exact Or.inr ⟨x, s₁, y.1, rfl, hrest, rfl⟩
    | panic => cases h
    | overflow => cases h
    | fuel => cases h

end Calls

namespace DiskStore
variable {V : Type}

def Calls : DiskStore V → DiskStore V → Prop := Relation.ReflTransGen CacheCall

section Calls
variable {s s' s'' : DiskStore V}

lemma Calls.refl (s : DiskStore V) : Calls s s := Relation.ReflTransGen.refl

lemma Calls.trans (h : Calls s s') (h' : Calls s' s'') :
    Calls s s'' := Relation.ReflTransGen.trans h h'

lemma CacheCall.calls (h : CacheCall s s') : Calls s s' := Relation.ReflTransGen.single h

lemma Calls.balances (h : Calls s s') (hs : s.Tidy) : Balances s s' := by
  induction h with
  | refl => exact ⟨hs, fun hq => hq, rfl⟩
  | tail _ hcall ih =>
    have hb := hcall.balances ih.tidy
    exact ⟨hb.tidy, fun hq => hb.queued (ih.queued hq), hb.budget.trans ih.budget⟩

def Ledger (s s' : DiskStore V) : Prop := s.Tidy → Calls s s'

lemma Ledger.refl (s : DiskStore V) : Ledger s s := fun _ => Calls.refl s

lemma Ledger.trans (h : Ledger s s') (h' : Ledger s' s'') : Ledger s s'' := fun hs =>
  (h hs).trans (h' ((h hs).balances hs).tidy)

lemma CacheCall.ledger (h : CacheCall s s') : Ledger s s' := fun _ => h.calls

end Calls

section Programs

def Untouched (s s' : DiskStore V) : Prop := s'.slots = s.slots ∧ s'.cache = s.cache

lemma Untouched.refl (s : DiskStore V) : Untouched s s := ⟨rfl, rfl⟩

lemma Untouched.trans {s s' s'' : DiskStore V} (h : Untouched s s') (h' : Untouched s' s'') :
    Untouched s s'' :=
  ⟨h'.1.trans h.1, h'.2.trans h.2⟩

lemma Untouched.ledger {s s' : DiskStore V} (h : Untouched s s') :
    Ledger s s' := (CacheCall.elsewhere h.1 h.2).ledger

lemma keeps_onVfs {α : Type} (m : EStateM Fault V α) : Keeps Untouched (onVfs m) := by
  intro s
  unfold Ends onVfs
  cases m s.vfs with
  | ok a v => exact Untouched.refl s
  | error f v => exact Untouched.refl s

lemma keeps_checkedAdd (a b : ℕ) : Keeps Untouched (checkedAdd a b : Act V ℕ) :=
  (Keeps.pure _ Untouched.refl).ite (Keeps.throw _ Untouched.refl)

lemma keeps_checkedSub (a b : ℕ) : Keeps Untouched (checkedSub a b : Act V ℕ) :=
  (Keeps.pure _ Untouched.refl).ite (Keeps.throw _ Untouched.refl)

def Interns (s s' : DiskStore V) : Prop :=
  s.Tidy → Calls s s' ∧ ∀ (j : NodeId) x, s.slots[j]? = some x → s'.slots[j]? = some x

lemma Interns.refl (s : DiskStore V) : Interns s s := fun _ => ⟨Calls.refl s, fun _ _ h => h⟩

lemma Interns.trans {s s' s'' : DiskStore V} (h : Interns s s') (h' : Interns s' s'') :
    Interns s s'' := by
  intro hs
  obtain ⟨hc, hslots⟩ := h hs
  obtain ⟨hc', hslots'⟩ := h' (hc.balances hs).tidy
  exact ⟨hc.trans hc', fun j x hx => hslots' j x (hslots j x hx)⟩

lemma keeps_allocOnDisk (offset : ℕ) : Keeps Interns (allocOnDisk offset : Act V NodeId) := by
  refine Keeps.of_runs (fun s id s' hrun hs => ?_) fun s f s' hrun => ?_
  · exact ⟨(CacheCall.allocOnDisk hrun).calls, (allocOnDisk_balances hs hrun).2⟩
  · unfold allocOnDisk at hrun
    dsimp only at hrun
    cases ho : s.offsets.get? offset with
    | none =>
      rw [ho] at hrun
      cases hrun
    | some i =>
      rw [ho] at hrun
      dsimp only at hrun
      rcases hx : s.slots[i]? with _ | ⟨_ | _ | _⟩ <;> rw [hx] at hrun <;> cases hrun
      exact Interns.refl s

lemma keeps_internChildren (offset : ℕ) (node : DiskNode) :
    Keeps Interns (internChildren offset node : Act V Node) := by
  cases node with
  | leaf es => exact Keeps.pure _ Interns.refl
  | internal ps cs b =>
    refine Keeps.ite (Keeps.throw _ Interns.refl) ?_
    cases cs.find? (fun c => decide (c.toNat < dataStart) || decide (offset ≤ c.toNat)) with
    | some child => exact Keeps.throw _ Interns.refl
    | none =>
      exact Keeps.bind Interns.trans (Keeps.mapM Interns.refl Interns.trans
        (fun _ => keeps_allocOnDisk _) cs) fun _ =>
        Keeps.pure _ Interns.refl

lemma touch_error {id : NodeId} {s s' : DiskStore V} {f : Fault} (hs : s.Tidy)
    (h : touch id s = .error f s') :
    s.slots.length ≤ id ∧ s' = s := by
  by_cases hid : id < s.slots.length
  · obtain ⟨s₁, hrun, -⟩ := touch_run hs hid (fun _ => True)
    rw [hrun] at h
    cases h
  · unfold touch at h
    split_ifs at h with hb hid'
    · cases h
      exact ⟨hid', rfl⟩
    · exact absurd (not_lt.mp hid) hid'

lemma keeps_touch (id : NodeId) : Keeps Ledger (touch id : Act V Unit) := by
  refine Keeps.of_runs (fun s _ s' hrun => (CacheCall.touch hrun).ledger) fun s d s' hrun hs => ?_
  rw [(touch_error hs hrun).2]
  exact Calls.refl s

lemma keeps_enforceBudget (pins : List NodeId) (justLoaded : Option NodeId) :
    Keeps Ledger (enforceBudget pins justLoaded : Act V Unit) := by
  refine Keeps.of_runs (fun s _ s' hrun => (CacheCall.enforceBudget hrun).ledger)
    fun s d s' hrun hs => ?_
  obtain ⟨s₁, hrun₁, -⟩ := enforceBudget_run pins justLoaded hs
  rw [hrun₁] at hrun
  cases hrun

variable [Crc32Fast]

variable [Vfs V]

lemma keeps_readRecord (offset : ℕ) : Keeps Untouched (readRecord offset : Act V _) := by
  have hthrow :
    ∀ {α : Type} (reason : CorruptReason), Keeps Untouched (corrupt offset reason : Act V α) :=
    fun _ => Keeps.throw _ Untouched.refl
  refine .get fun s => (hthrow _).ite ?_
  refine Keeps.bind Untouched.trans (keeps_onVfs _) fun header =>
    Keeps.bind Untouched.trans (keeps_checkedAdd _ _) fun start =>
    Keeps.bind Untouched.trans (keeps_checkedSub _ _) fun room => (hthrow _).ite ?_
  refine Keeps.bind Untouched.trans (keeps_onVfs _) fun payload => (hthrow _).ite ?_
  cases decodeNode payload with
  | error reason => exact hthrow reason
  | ok node => exact Keeps.pure _ Untouched.refl

lemma keeps_ensureLoaded (id : NodeId) (pins : List NodeId) :
    Keeps Ledger (ensureLoaded id pins : Act V Unit) := by
  intro s
  unfold ensureLoaded Ends
  rw [run_get_bind]
  rcases hx : s.slots[id]? with _ | ⟨_ | offset | _⟩
  · exact Ledger.refl s
  · have hhit := (CacheCall.hit s).ledger
    exact (keeps_touch id _).mono (fun _ _ h => hhit.trans h) fun _ _ h => hhit.trans h
  · -- the record is read and its children interned, then the node is put in memory
    refine Ends.bind (Q := fun _ s' => Untouched s s')
      ((keeps_readRecord offset s).mono (fun _ _ h => h)
      fun _ _ h => h.ledger) fun x s₁ h₁ => ?_
    refine Ends.bind (Q := fun _ s' => Interns s₁ s')
      ((keeps_internChildren offset x.1 s₁).mono (fun _ _ h => h)
      fun _ _ h => h₁.ledger.trans fun hs₁ => (h hs₁).1) fun node s₂ h₂ => ?_
    have hmid : Ledger s s₂ := h₁.ledger.trans fun hs₁ => (h₂ hs₁).1
    change Ends (touch id >>= fun _ => enforceBudget pins (some id)) (s₂.place id node offset _) _ _
    refine Ends.bind (Q := fun _ s' => Ledger s s') ?_ fun _ s₃ h₃ => ?_
    · have hslot : s.Tidy → s₂.Tidy ∧ s₂.slots[id]? = some (.onDisk offset) := fun hs =>
        ⟨((hmid hs).balances hs).tidy, (h₂ ((h₁.ledger hs).balances hs).tidy).2 id
          (.onDisk offset) (h₁.1 ▸ hx)⟩
      cases hrun : touch id (s₂.place id node offset (recordHeaderSize + x.2)) with
      | error f s₃ =>
        refine .of_error hrun fun hs => ?_
        obtain ⟨ht, hx₂⟩ := hslot hs
        have hlen := (touch_error (ht.place hx₂ _ _) hrun).1
        have hlt := (List.getElem?_eq_some_iff.mp hx₂).1
        simp only [place, List.length_set] at hlen
        omega
      | ok _ s₃ =>
        refine .of_ok hrun fun hs => ?_
        exact (hmid hs).trans (CacheCall.load (hslot hs).2 hrun).calls
    · exact (keeps_enforceBudget pins (some id) s₃).mono (fun _ _ h => h₃.trans h)
        fun _ _ h => h₃.trans h
  · exact Ledger.refl s

end Programs
end DiskStore

namespace DiskEngine
open DiskStore
variable {π V : Type}

/-- What a program keeps it keeps where a storage error poisons the engine, if poisoning keeps
it. -/
lemma keeps_poisoning {α : Type} {R : DiskEngine π V → DiskEngine π V → Prop}
    {m : Engine.Act π (DiskStore V) α} (hm : Keeps R m)
    (hR : ∀ e e', R e e' → R e { e' with store := { e'.store with poisoned := true } }) :
    Keeps R (poisoning m) := by
  intro e
  have h := hm e
  unfold Ends at h
  unfold Ends poisoning
  cases hx : m e with
  | ok a e' =>
    rw [hx] at h
    exact h
  | error f e' =>
    rw [hx] at h
    cases f with
    | storage d => exact hR e e' h
    | _ => exact h

lemma touchLoaded_loop {ids : List NodeId} {s : DiskStore V} (hs : s.Tidy)
    (hb : s.cache.budget ≠ none)
    (hids : ∀ id ∈ ids, id < s.slots.length) : ∃ s', (ids.forM (fun id => do
      match (← get).slots[id]? with
      | some (.loaded ..) => DiskStore.touch id
      | some _ => pure ()
      | none => throw .panic : NodeId → Act V Unit) s = .ok () s') ∧
    Calls s s' ∧ s'.slots.length = s.slots.length ∧ ∀ j, j ∈ ids ∨ s.Lists j → s'.Lists j := by
  induction ids generalizing s with
  | nil => exact ⟨s, rfl, Calls.refl _, rfl, fun j hj => hj.resolve_left (by simp)⟩
  | cons id ids ih =>
    rw [List.forM_eq_forM, List.forM_cons]
    have hid : id < s.slots.length := hids id List.mem_cons_self
    have hpass : s.lastTick id = none → ∀ j, j = id ∨ s.Lists j → s.Lists j := by
      rintro hnone j (rfl | hj)
      · intro tick ht
        rw [hnone] at ht
        cases ht
      · exact hj
    have hstep : ∃ s₁, (do
        match (← get).slots[id]? with
        | some (.loaded ..) => DiskStore.touch id
        | some _ => pure ()
        | none =>
          throw .panic : Act V Unit) s = .ok () s₁ ∧ Calls s s₁ ∧ s₁.slots.length = s.slots.length ∧
          ∀ j, j = id ∨ s.Lists j → s₁.Lists j := by
      rw [run_get_bind]
      rcases hx : s.slots[id]? with _ | ⟨_ | _ | _⟩
      · exact absurd (List.getElem?_eq_none_iff.mp hx) (not_le.mpr hid)
      · obtain ⟨s₁, hrun, -, ha⟩ := touch_run hs hid (fun _ => True)
        exact ⟨s₁, hrun, (CacheCall.touch hrun).calls, ha.length, fun j hj => touch_lists hrun hb
          fun hne => hj.resolve_left hne⟩
      · exact ⟨s, rfl, Calls.refl s, rfl,
          hpass (by simp [DiskStore.lastTick, hx, NodeSlot.lastTick])⟩
      · exact ⟨s, rfl, Calls.refl s, rfl,
          hpass (by simp [DiskStore.lastTick, hx, NodeSlot.lastTick])⟩
    obtain ⟨s₁, hfirst, hc, hlen, hlists⟩ := hstep
    have hbal := hc.balances hs
    obtain ⟨s', hrest, hc', hlen', hlists'⟩ := ih hbal.tidy (hbal.budget ▸ hb) fun i hi =>
      hlen ▸ hids i (List.mem_cons_of_mem _ hi)
    refine ⟨s', (run_bind_ok hfirst).trans hrest, hc.trans hc', hlen'.trans hlen,
      fun j hj => hlists' j ?_⟩
    rcases hj with hj | hj
    · rcases List.mem_cons.mp hj with hj | hj
      · exact Or.inr (hlists j (Or.inl hj))
      · exact Or.inl hj
    · exact Or.inr (hlists j (Or.inr hj))

/-- The queue is complete once an access is noted to every node in memory. -/
lemma touchLoaded_queued {s : DiskStore V} (hs : s.Tidy) (hb : s.cache.budget ≠ none) :
    ∃ s', touchLoaded s = .ok () s' ∧ Calls s s' ∧ s'.Queued := by
  obtain ⟨s', hrun, hc, hlen, hlists⟩ := touchLoaded_loop hs hb
    (show ∀ id ∈ List.range s.slots.length, id < s.slots.length
      from fun _ hid => List.mem_range.mp hid)
  refine ⟨s', hrun, hc, fun _ j => ?_⟩
  by_cases hj : j < s.slots.length
  · exact hlists j (Or.inl (List.mem_range.mpr hj))
  · intro tick ht
    have hnone : s'.slots[j]? = none := List.getElem?_eq_none (by rw [hlen]; exact not_lt.mp hj)
    simp [DiskStore.lastTick, hnone] at ht

/-- The states between two calls of a session under a budget. A check of the whole tree suspends the
budget and notes an access to every node in memory when it comes back. -/
inductive Session (budget : Option ℕ) : Bool → DiskStore V → Prop
  | created {π : Type} {vfs : V} {params : Params} {policy : π} {s : DiskStore V} :
      touch 0 (unpublished vfs budget params policy).store = .ok () s → Session budget false s
  | opened {π : Type} (vfs : V) (policy : π) (sb : Superblock) (nextGeneration : ℕ) :
      Session budget false (recovered vfs budget policy sb nextGeneration).store
  | call {suspended : Bool} {s s' : DiskStore V} :
      Session budget suspended s → CacheCall s s' → Session budget suspended s'
  | suspend {s s' : DiskStore V} : Session budget false s → setBudget none s = .ok () s' →
    Session budget true s'
  | resume {s s' : DiskStore V} {given : Option ℕ} :
      Session budget true s → setBudget given s = .ok () s' → Session budget true s'
  | restamp {s s' : DiskStore V} : Session budget true s →
      (if s.cache.budget.isSome then touchLoaded else pure () : Act V Unit) s = .ok () s' →
      Session budget false s'

lemma Session.tidy {budget : Option ℕ} {suspended : Bool} {s : DiskStore V}
    (h : Session budget suspended s) :
    s.Tidy ∧ (suspended = false → s.Queued) := by
  induction h with
  | @created π vfs params policy s hrun =>
    have ht : (unpublished vfs budget params policy).store.Tidy :=
      ⟨by simp [unpublished, NodeSlot.bytes], by simp [unpublished, NodeSlot.count],
        by simp [unpublished, Cache.new], by simp [unpublished, NodeSlot.Backed]⟩
    obtain ⟨s₁, hrun₁, ht₁, ha⟩ := touch_run ht (show 0 < _ by simp [unpublished]) (fun _ => True)
    rw [hrun₁] at hrun
    cases hrun
    refine ⟨ht₁, fun _ hb j => touch_lists hrun₁ (ha.budget ▸ hb) fun hj tick htick => ?_⟩
    have hnone : (unpublished vfs budget params policy).store.slots[j]? = none :=
      List.getElem?_eq_none (Nat.one_le_iff_ne_zero.mpr hj)
    simp [DiskStore.lastTick, hnone] at htick
  | opened vfs policy sb nextGeneration =>
    refine ⟨⟨by simp [recovered, Cache.new, NodeSlot.bytes],
      by simp [recovered, Cache.new, NodeSlot.count],
      by simp [recovered, Cache.new], by simp [recovered, NodeSlot.Backed]⟩,
        fun _ _ j tick ht => ?_⟩
    cases j <;> simp [DiskStore.lastTick, recovered, NodeSlot.lastTick] at ht
  | call _ hcall ih =>
    have hb := hcall.balances ih.1
    exact ⟨hb.tidy, fun h => hb.queued (ih.2 h)⟩
  | suspend _ hset ih =>
    cases hset
    exact ⟨⟨ih.1.bytes, ih.1.resident, ih.1.lru, ih.1.backed⟩, fun h => by cases h⟩
  | resume _ hset ih =>
    cases hset
    exact ⟨⟨ih.1.bytes, ih.1.resident, ih.1.lru, ih.1.backed⟩, fun h => by cases h⟩
  | @restamp s s' _ hrun ih =>
    cases hb : s.cache.budget with
    | none =>
      simp only [hb, Option.isSome_none] at hrun
      cases hrun
      exact ⟨ih.1, fun _ h => absurd hb h⟩
    | some given =>
      simp only [hb, Option.isSome_some, if_true] at hrun
      obtain ⟨s₁, hrun₁, hc, hq⟩ := touchLoaded_queued ih.1 (by simp [hb])
      rw [hrun₁] at hrun
      cases hrun
      exact ⟨(hc.balances ih.1).tidy, fun _ => hq⟩

lemma Session.calls {budget : Option ℕ} {suspended : Bool} {s s' : DiskStore V}
    (h : Session budget suspended s)
    (hc : Calls s s') : Session budget suspended s' := by
  induction hc with
  | refl => exact h
  | tail _ hcall ih => exact ih.call hcall

lemma Session.ledger {budget : Option ℕ} {suspended : Bool} {s s' : DiskStore V}
    (h : Session budget suspended s)
    (hl : Ledger s s') : Session budget suspended s' := h.calls (hl h.tidy.1)

variable [Vfs V] [Crc32Fast]

variable {budget : Option ℕ}

variable [FlushPolicy π]

end DiskEngine

namespace DiskEngine

end DiskEngine
end Beetree
