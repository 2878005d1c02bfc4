import Beetree.Cache
import Beetree.Frame

/-! The cache keeps its accounts from one call to the next: bytes and nodes in memory are counted,
and under a budget the last access to each node in memory stays in the queue, so that enforcing the
budget reaches every node that may be evicted. -/
namespace Beetree

def NodeSlot.lastTick : NodeSlot → Option ℕ
  | loaded _ _ _ _ tick => some tick
  | _ => none

def NodeSlot.dirty : NodeSlot → Bool
  | loaded _ dirty _ _ _ => dirty
  | _ => false

namespace DiskStore
variable {V : Type}

def lastTick (s : DiskStore V) (id : NodeId) : Option ℕ := (s.slots[id]?).bind NodeSlot.lastTick

/-- If a node is in memory, its last access is in the queue. -/
def Lists (s : DiskStore V) (id : NodeId) : Prop := ∀ tick, s.lastTick id = some tick →
    (id, tick) ∈ s.cache.lru

/-- Under a budget the queue has the last access to every node in memory. -/
def Queued (s : DiskStore V) : Prop := s.cache.budget ≠ none → ∀ id, s.Lists id

section Queue
variable {s s' : DiskStore V} {id : NodeId}

lemma isCurrent_iff {slots : List NodeSlot} {x : NodeId × ℕ} :
    isCurrent slots x = some true ↔ (slots[x.1]?).bind NodeSlot.lastTick = some x.2 := by
  unfold isCurrent
  cases slots[x.1]? with
  | none => simp
  | some cell => cases cell <;> simp [NodeSlot.lastTick]

lemma mem_filterM_isCurrent {slots : List NodeSlot} {lru kept : List (NodeId × ℕ)} {x : NodeId × ℕ}
    (h : lru.filterM (isCurrent slots) = some kept) (hx : x ∈ lru)
    (hc : isCurrent slots x = some true) : x ∈ kept := by
  have haux :
    ∀ (lru acc kept : List (NodeId × ℕ)), lru.filterAuxM (isCurrent slots) acc = some kept →
      x ∈ lru ∨ x ∈ acc → x ∈ kept := by
    intro lru
    induction lru with
    | nil =>
      intro acc kept h hx
      cases h
      simpa using hx
    | cons y lru ih =>
      intro acc kept h hx
      unfold List.filterAuxM at h
      cases hy : isCurrent slots y with
      | none =>
        rw [hy] at h
        cases h
      | some b =>
        rw [hy] at h
        refine ih _ kept h ?_
        rcases hx with hx | hx
        · rcases List.mem_cons.mp hx with rfl | hx
          · obtain rfl : b = true := by simpa [hc] using hy.symm
            exact Or.inr (by simp)
          · exact Or.inl hx
        · cases b with
          | true => exact Or.inr (by simp [hx])
          | false => exact Or.inr hx
  unfold List.filterM at h
  cases hk : lru.filterAuxM (isCurrent slots) [] with
  | none =>
    rw [hk] at h
    cases h
  | some l =>
    rw [hk] at h
    cases h
    exact List.mem_reverse.mpr (haux lru [] l hk (Or.inl hx))

lemma lastTick_stamp (s : DiskStore V) (id j : NodeId) :
    (s.stamp id).lastTick j = if j = id then (s.lastTick id).map fun _ => s.cache.tick + 1
    else s.lastTick j := by
  unfold DiskStore.lastTick
  simp only [DiskStore.stamp, List.getElem?_modify]
  split_ifs with h h' h'
  · subst h
    cases s.slots[id]? with
    | none => rfl
    | some cell => cases cell <;> rfl
  · exact absurd h.symm h'
  · exact absurd h'.symm h
  · cases s.slots[j]? <;> rfl

lemma Lists.stamp {j : NodeId} (h : j ≠ id → s.Lists j) : (s.stamp id).Lists j := by
  intro tick ht
  rw [lastTick_stamp] at ht
  split_ifs at ht with hj
  · subst hj
    obtain ⟨_, -, rfl⟩ := Option.map_eq_some_iff.mp ht
    simp [DiskStore.stamp]
  · exact List.mem_append_left _ (h hj tick ht)

/-- Noting an access puts the node in the queue and drops no other, also when superseded accesses
are removed. -/
lemma touch_lists (hrun : touch id s = .ok () s') (hb : s.cache.budget ≠ none) {j : NodeId}
    (h : j ≠ id → s.Lists j) :
    s'.Lists j := by
  unfold touch at hrun
  rw [if_neg hb] at hrun
  split_ifs at hrun with hid
  · have hl := Lists.stamp h
    dsimp only at hrun
    split_ifs at hrun with hlen
    · cases hk : (s.stamp id).cache.lru.filterM (isCurrent (s.stamp id).slots) with
      | none =>
        rw [hk] at hrun
        cases hrun
      | some kept =>
        rw [hk] at hrun
        cases hrun
        exact fun tick ht => mem_filterM_isCurrent hk (hl tick ht) (isCurrent_iff.mpr ht)
    · cases hrun
      exact hl

lemma touch_lt (hrun : touch id s = .ok () s') (hb : s.cache.budget ≠ none) :
    id < s.slots.length := by
  unfold touch at hrun
  rw [if_neg hb] at hrun
  split_ifs at hrun with hid
  exact not_le.mp hid

lemma touch_idle (hb : s.cache.budget = none) : touch id s = .ok () s := if_pos hb

/-- The accounts are right after a call, and the queue is complete if it was. -/
structure Balances (s s' : DiskStore V) : Prop where
  tidy : s'.Tidy
  queued : s.Queued → s'.Queued
  budget : s'.cache.budget = s.cache.budget

/-- A touch keeps the accounts, and completes the queue if only the touched node was missing. -/
lemma touch_balances {s₀ : DiskStore V} (hs : s.Tidy) (hrun : touch id s = .ok () s')
    (hb₀ : s.cache.budget = s₀.cache.budget)
    (hq : s₀.Queued → ∀ j, j ≠ id → s.cache.budget ≠ none → s.Lists j) :
    Balances s₀ s' := by
  by_cases hb : s.cache.budget = none
  · rw [touch_idle hb] at hrun
    cases hrun
    exact ⟨hs, fun _ h => absurd hb h, hb₀⟩
  · obtain ⟨s₁, hrun₁, hs₁, ha⟩ := touch_run hs (touch_lt hrun hb) (fun _ => True)
    rw [hrun₁] at hrun
    cases hrun
    exact ⟨hs₁, fun h _ j => touch_lists hrun₁ hb fun hj => hq h j hj hb, ha.budget.trans hb₀⟩

end Queue

section Enforce
variable {s s' : DiskStore V} {id : NodeId} (pins : List NodeId) (justLoaded : Option NodeId)

/-- The nodes that enforcing the budget may not evict. -/
def Kept (s : DiskStore V) (id : NodeId) : Prop :=
  (s.slots[id]?).any NodeSlot.dirty = true ∨ id ∈ pins ∨ justLoaded = some id

variable {pins justLoaded}

lemma Kept.of_slot {j : NodeId} (h : s.Kept pins justLoaded j) (hj : s'.slots[j]? = s.slots[j]?) :
    s'.Kept pins justLoaded j := by
  unfold Kept at h ⊢
  rwa [hj]

lemma Kept.stamp {j : NodeId} (h : s.Kept pins justLoaded j) :
    (s.stamp id).Kept pins justLoaded j := by
  refine h.imp_left fun hd => ?_
  simp only [DiskStore.stamp, List.getElem?_modify]
  cases hx : s.slots[j]? with
  | none => simp [hx] at hd
  | some cell =>
    rw [hx] at hd
    split_ifs
    · cases cell <;> exact hd
    · exact hd

/-- While the loop runs, `ahead` are the accesses it may still examine and `behind` those it has put
back: a node in memory either waits ahead or may not be evicted. -/
def Examining (s : DiskStore V) (pins : List NodeId) (justLoaded : Option NodeId)
    (ahead behind : List (NodeId × ℕ)) :
    Prop :=
  s.cache.lru = ahead ++ behind ∧ ∀ id tick, s.lastTick id = some tick →
    (id, tick) ∈ ahead ∨ (id, tick) ∈ behind ∧ s.Kept pins justLoaded id

lemma Examining.lists {ahead behind : List (NodeId × ℕ)}
    (h : s.Examining pins justLoaded ahead behind) (id : NodeId) :
    s.Lists id := by
  intro tick ht
  rw [h.1]
  rcases h.2 id tick ht with hmem | ⟨hmem, -⟩
  · exact List.mem_append_left _ hmem
  · exact List.mem_append_right _ hmem

/-- What the loop has done by its end: at most `n` accesses have left the queue at its head, and the
budget is met unless all that is left may not be evicted. -/
structure Enforced (budget : ℕ) (pins : List NodeId) (justLoaded : Option NodeId) (n : ℕ)
    (s s' : DiskStore V) : Prop where
  popped : ∃ k ≤ n, ∃ pushed, s'.cache.lru = (s.cache.lru ++ pushed).drop k
  lists : ∀ id, s'.Lists id
  met : s'.cache.bytes ≤ budget ∨ ∀ id tick, s'.lastTick id = some tick → s'.Kept pins justLoaded id

lemma Enforced.step {s₁ : DiskStore V} {budget n : ℕ} {x : NodeId × ℕ}
    {lru pushed : List (NodeId × ℕ)}
    (hlru : s.cache.lru = x :: lru) (hlru₁ : s₁.cache.lru = lru ++ pushed)
    (h : Enforced budget pins justLoaded n s₁ s') :
    Enforced budget pins justLoaded (n + 1) s s' := by
  obtain ⟨k, hk, more, hmore⟩ := h.popped
  refine ⟨⟨k + 1, by omega, pushed ++ more, ?_⟩, h.lists, h.met⟩
  rw [hmore, hlru₁, hlru, List.cons_append, List.drop_succ_cons, List.append_assoc]

lemma Examining.skip {x : NodeId × ℕ} {ahead behind : List (NodeId × ℕ)}
    (h : s.Examining pins justLoaded (x :: ahead) behind) (hx : s.lastTick x.1 ≠ some x.2) :
    Examining { s with cache := { s.cache with lru := ahead ++ behind } } pins justLoaded
      ahead behind := by
  refine ⟨rfl, fun id tick ht => (h.2 id tick ht).imp_left fun hmem => ?_⟩
  rcases List.mem_cons.mp hmem with rfl | hmem
  · exact absurd ht hx
  · exact hmem

lemma Examining.keep {tick : ℕ} {ahead behind : List (NodeId × ℕ)}
    (h : s.Examining pins justLoaded ((id, tick) :: ahead) behind)
    (hk : s.Kept pins justLoaded id) :
    Examining (DiskStore.stamp id { s with cache := { s.cache with lru := ahead ++ behind } }) pins
      justLoaded ahead
      (behind ++ [(id, s.cache.tick + 1)]) := by
  refine ⟨by simp [DiskStore.stamp], fun j t ht => ?_⟩
  rw [lastTick_stamp] at ht
  split_ifs at ht with hj
  · subst hj
    obtain ⟨_, -, rfl⟩ := Option.map_eq_some_iff.mp ht
    exact Or.inr ⟨by simp, Kept.stamp hk⟩
  · rcases h.2 j t ht with hmem | ⟨hmem, hkept⟩
    · rcases List.mem_cons.mp hmem with heq | hmem
      · exact absurd (congrArg Prod.fst heq) hj
      · exact Or.inl hmem
    · exact Or.inr ⟨List.mem_append_left _ hmem, Kept.stamp hkept⟩

lemma Examining.evict {node : Node} {offset bytes tick : ℕ}
    {ahead behind : List (NodeId × ℕ)} {cache : Cache}
    (h : s.Examining pins justLoaded ((id, tick) :: ahead) behind)
    (hx : s.slots[id]? = some (.loaded node false (some offset) bytes tick))
    (hc : cache.lru = ahead ++ behind) :
    Examining { s with slots := s.slots.set id (.onDisk offset), cache := cache } pins justLoaded
      ahead behind := by
  have hlt : id < s.slots.length := (List.getElem?_eq_some_iff.mp hx).1
  refine ⟨hc, fun j t ht => ?_⟩
  unfold DiskStore.lastTick at ht
  by_cases hj : id = j
  · subst hj
    simp [hlt, NodeSlot.lastTick] at ht
  · rw [List.getElem?_set_ne hj] at ht
    rcases h.2 j t ht with hmem | ⟨hmem, hkept⟩
    · rcases List.mem_cons.mp hmem with heq | hmem
      · exact absurd (congrArg Prod.fst heq).symm hj
      · exact Or.inl hmem
    · exact Or.inr ⟨hmem, hkept.of_slot (List.getElem?_set_ne hj)⟩

/-- The loop examines every access that was in the queue before it is done. -/
lemma enforceLoop_enforces {budget n : ℕ} {ahead behind : List (NodeId × ℕ)}
    (hE : s.Examining pins justLoaded ahead behind) (hn : ahead.length = n)
    (hrun : enforceLoop budget pins justLoaded n s = .ok () s') :
    Enforced budget pins justLoaded n s s' := by
  induction n generalizing s ahead behind with
  | zero =>
    cases hrun
    obtain rfl : ahead = [] := List.eq_nil_of_length_eq_zero hn
    exact ⟨⟨0, le_rfl, [], by simp⟩, hE.lists,
      Or.inr fun id tick ht => ((hE.2 id tick ht).resolve_left (by simp)).2⟩
  | succ n ih =>
    obtain ⟨⟨id, tick⟩, ahead, rfl⟩ := List.exists_cons_of_length_eq_add_one hn
    have hlru : s.cache.lru = (id, tick) :: (ahead ++ behind) := hE.1
    rw [enforceLoop, run_get_bind] at hrun
    split_ifs at hrun with hb
    · cases hrun
      exact ⟨⟨0, Nat.zero_le _, [], by simp⟩, hE.lists, Or.inl hb⟩
    · rw [hlru] at hrun
      obtain ⟨_, s₁, hset, hrun⟩ := bind_eq_ok hrun
      obtain rfl : { s with cache := { s.cache with lru := ahead ++ behind } } = s₁ := by
        cases hset
        rfl
      have hgo : ∀ (s₂ : DiskStore V) (pushed : List (NodeId × ℕ)),
          s₂.Examining pins justLoaded ahead (behind ++ pushed) →
          enforceLoop budget pins justLoaded n s₂ = .ok () s' →
            Enforced budget pins justLoaded (n + 1) s s' := by
        intro s₂ pushed hE₂ hrun₂
        exact Enforced.step hlru (hE₂.1.trans (List.append_assoc ..).symm)
          (ih hE₂ (by simpa using hn) hrun₂)
      cases hslot : s.slots[id]? with
      | none =>
        rw [hslot] at hrun
        cases hrun
      | some cell =>
        rw [hslot] at hrun
        have hskip : s.lastTick id ≠ some tick → enforceLoop budget pins justLoaded n
            { s with cache := { s.cache with lru := ahead ++ behind } } = .ok () s' →
            Enforced budget pins justLoaded (n + 1) s s' := fun hne hrun₁ =>
          hgo _ [] (by simpa using hE.skip hne) hrun₁
        cases cell with
        | onDisk offset => exact hskip (by simp [DiskStore.lastTick, hslot, NodeSlot.lastTick]) hrun
        | freed => exact hskip (by simp [DiskStore.lastTick, hslot, NodeSlot.lastTick]) hrun
        | loaded node dirty diskOffset bytes last =>
          dsimp only at hrun
          split_ifs at hrun with htick hkeep
          · exact hskip (by simpa [DiskStore.lastTick, hslot, NodeSlot.lastTick] using htick) hrun
          · have hkept : s.Kept pins justLoaded id := hkeep.imp_left fun hd =>
              by simp [hslot, NodeSlot.dirty, hd]
            exact hgo _ _ (hE.keep hkept) hrun
          · obtain ⟨_, s₂, hev, hrun₂⟩ := bind_eq_ok hrun
            obtain rfl : last = tick := not_not.mp htick
            obtain rfl : dirty = false := by simpa using (not_or.mp hkeep).1
            cases diskOffset with
            | none => cases hev
            | some offset =>
              unfold DiskStore.evict at hev
              dsimp only at hev
              split_ifs at hev with hacc
              cases hev
              exact hgo _ [] (by simpa using hE.evict hslot rfl) hrun₂

/-- Enforcing a budget from a complete queue. -/
theorem enforceBudget_enforces {budget : ℕ} (hq : s.Queued) (hb : s.cache.budget = some budget)
    (hrun : enforceBudget pins justLoaded s = .ok () s') :
    Enforced budget pins justLoaded s.cache.lru.length s s' := by
  unfold enforceBudget at hrun
  rw [run_get_bind, hb] at hrun
  obtain ⟨_, s₁, hloop, hnote⟩ := bind_eq_ok hrun
  have hE : s.Examining pins justLoaded s.cache.lru [] :=
    ⟨(List.append_nil _).symm, fun id tick ht => Or.inl (hq (by simp [hb]) id tick ht)⟩
  obtain ⟨hpop, hlists, hmet⟩ := enforceLoop_enforces hE rfl hloop
  cases hnote
  unfold noteOvercommit
  split_ifs
  · exact ⟨hpop, hlists, hmet⟩
  · exact ⟨hpop, hlists, hmet⟩

end Enforce

/-- One call that changes the slots or the cache, and whatever changes neither. Loading a node is
putting it in memory and noting the access. -/
inductive CacheCall : DiskStore V → DiskStore V → Prop
  | allocDirty {s s' : DiskStore V} {node : Node} {id : NodeId} :
    allocDirty node s = .ok id s' → CacheCall s s'
  | allocOnDisk {s s' : DiskStore V} {offset : ℕ} {id : NodeId} :
    allocOnDisk offset s = .ok id s' → CacheCall s s'
  | releaseSlot {s s' : DiskStore V} {id : NodeId} : releaseSlot id s = .ok () s' → CacheCall s s'
  | touch {s s' : DiskStore V} {id : NodeId} : touch id s = .ok () s' → CacheCall s s'
  | hit (s : DiskStore V) :
    CacheCall s { s with cache := { s.cache with hits := s.cache.hits + 1 } }
  | load {s s' : DiskStore V} {id : NodeId} {node : Node} {offset bytes : ℕ} :
    s.slots[id]? = some (.onDisk offset) →
      DiskStore.touch id (s.place id node offset bytes) = .ok () s' → CacheCall s s'
  | enforceBudget {s s' : DiskStore V} {pins : List NodeId} {justLoaded : Option NodeId} :
      enforceBudget pins justLoaded s = .ok () s' → CacheCall s s'
  | loadedMut {s s' : DiskStore V} {id : NodeId} {f : Node → Option Node} {node : Node} :
      loadedMut id f s = .ok node s' → CacheCall s s'
  | adoptRecord [Crc32Fast] {s s' : DiskStore V} {recordLens : OrdMap NodeId ℕ} {x : NodeId × ℕ} :
      adoptRecord recordLens x s = .ok () s' → CacheCall s s'
  | elsewhere {s s' : DiskStore V} : s'.slots = s.slots → s'.cache = s.cache → CacheCall s s'

section Calls
variable {s s' : DiskStore V} {id : NodeId}

lemma getElem?_append_ne {α : Type} {l : List α} {x : α} {j : ℕ} (hj : j ≠ l.length) :
    (l ++ [x])[j]? = l[j]? := by
  rcases lt_or_gt_of_ne hj with hlt | hgt
  · exact List.getElem?_append_left hlt
  · rw [List.getElem?_eq_none (by simp; omega), List.getElem?_eq_none (by omega)]

/-- No access is superseded: nodes only leave memory. -/
lemma Queued.of_lastTick (hq : s.Queued) (hb : s'.cache.budget = s.cache.budget)
    (hl : s'.cache.lru = s.cache.lru)
    (ht : ∀ id tick, s'.lastTick id = some tick → s.lastTick id = some tick) : s'.Queued := by
  intro h id tick htick
  rw [hl]
  exact hq (hb ▸ h) id tick (ht id tick htick)

lemma lastTick_set {y : NodeSlot} {slots : List NodeSlot} (hs : slots = s.slots.set id y)
    (hs' : s'.slots = slots)
    (hy : ∀ tick, y.lastTick = some tick → s.lastTick id = some tick) (j : NodeId) (tick : ℕ)
    (ht : s'.lastTick j = some tick) : s.lastTick j = some tick := by
  unfold DiskStore.lastTick at ht
  rw [hs', hs, List.getElem?_set] at ht
  split_ifs at ht with hj hlt
  · subst hj
    exact hy tick ht
  · cases ht
  · exact ht

lemma allocDirty_balances {node : Node} (hs : s.Tidy) (hrun : allocDirty node s = .ok id s') :
    Balances s s' := by
  unfold allocDirty at hrun
  rw [run_get_bind] at hrun
  obtain ⟨_, s₀, hset, hrun⟩ := bind_eq_ok hrun
  obtain rfl : s.grown node = s₀ := by
    cases hset
    rfl
  obtain ⟨_, s₁, htouch, hpure⟩ := bind_eq_ok hrun
  cases hpure
  have hold : ∀ (j : NodeId) (tick : ℕ), j ≠ s.slots.length →
    (s.grown node).lastTick j = some tick →
      s.lastTick j = some tick := by
    intro j tick hj ht
    unfold DiskStore.lastTick at ht ⊢
    rwa [DiskStore.grown, getElem?_append_ne hj] at ht
  exact touch_balances (hs.grown node) htouch rfl fun hq j hj hb tick ht =>
    hq hb j tick (hold j tick hj ht)

lemma allocOnDisk_balances {offset : ℕ} (hs : s.Tidy) (hrun : allocOnDisk offset s = .ok id s') :
    Balances s s' ∧
      ∀ (j : NodeId) x, s.slots[j]? = some x → s'.slots[j]? = some x := by
  have hfresh : ∀ offsets : OrdMap ℕ NodeId,
      let s' : DiskStore V := { s with slots := s.slots ++ [.onDisk offset], offsets := offsets }
      Balances s s' ∧
      ∀ (j : NodeId) x, s.slots[j]? = some x → s'.slots[j]? = some x := by
    intro offsets
    refine ⟨⟨⟨?_, ?_, fun x hx => ?_, fun x hx => ?_⟩, fun hq => hq.of_lastTick rfl rfl
      fun j tick ht => ?_, rfl⟩,
      fun j x hx => ?_⟩
    · simpa [NodeSlot.bytes] using hs.bytes
    · simpa [NodeSlot.count] using hs.resident
    · rw [List.length_append]
      exact Nat.lt_succ_of_lt (hs.lru x hx)
    · rcases List.mem_append.mp hx with hx | hx
      · exact hs.backed x hx
      · rw [List.mem_singleton.mp hx]
        trivial
    · unfold DiskStore.lastTick at ht ⊢
      by_cases hj : j = s.slots.length
      · subst hj
        simp [NodeSlot.lastTick] at ht
      · rwa [getElem?_append_ne hj] at ht
    · rw [List.getElem?_append_left (List.getElem?_eq_some_iff.mp hx).1]
      exact hx
  unfold allocOnDisk at hrun
  dsimp only at hrun
  cases ho : s.offsets.get? offset with
  | none =>
    rw [ho] at hrun
    cases hrun
    exact hfresh _
  | some i =>
    rw [ho] at hrun
    dsimp only at hrun
    rcases hx : s.slots[i]? with _ | ⟨_ | _ | _⟩
    · rw [hx] at hrun
      cases hrun
    · rw [hx] at hrun
      cases hrun
      exact ⟨⟨hs, fun hq => hq, rfl⟩, fun _ _ h => h⟩
    · rw [hx] at hrun
      cases hrun
      exact ⟨⟨hs, fun hq => hq, rfl⟩, fun _ _ h => h⟩
    · rw [hx] at hrun
      cases hrun
      exact hfresh _

lemma releaseSlot_balances (hs : s.Tidy) (hrun : releaseSlot id s = .ok () s') : Balances s s' := by
  unfold releaseSlot at hrun
  rcases hx : s.slots[id]? with _ | ⟨node, dirty, diskOffset, bytes, tick⟩ | offset | _
  · rw [hx] at hrun
    cases hrun
  · rw [hx] at hrun
    dsimp only at hrun
    split_ifs at hrun with hacc
    cases hrun
    refine ⟨hs.replace hx .freed trivial rfl (Nat.sub_add_cancel hacc.1)
      (Nat.sub_add_cancel hacc.2) rfl, ?_, rfl⟩
    exact fun hq => hq.of_lastTick rfl rfl (lastTick_set rfl rfl (by simp [NodeSlot.lastTick]))
  · rw [hx] at hrun
    cases hrun
    exact ⟨hs.replace hx .freed trivial rfl rfl rfl rfl,
      fun hq => hq.of_lastTick rfl rfl (lastTick_set rfl rfl (by simp [NodeSlot.lastTick])), rfl⟩
  · rw [hx] at hrun
    cases hrun
    exact ⟨hs, fun hq => hq, rfl⟩

lemma load_balances {node : Node} {offset bytes : ℕ} (hs : s.Tidy)
    (hx : s.slots[id]? = some (.onDisk offset))
    (hrun : touch id (s.place id node offset bytes) = .ok () s') : Balances s s' := by
  have hold : ∀ (j : NodeId) (tick : ℕ), j ≠ id →
    (s.place id node offset bytes).lastTick j = some tick →
      s.lastTick j = some tick := by
    intro j tick hj ht
    unfold DiskStore.lastTick at ht ⊢
    rwa [DiskStore.place, List.getElem?_set_ne (Ne.symm hj)] at ht
  exact touch_balances (hs.place hx node bytes) hrun rfl fun hq j hj hb tick ht =>
    hq hb j tick (hold j tick hj ht)

lemma loadedMut_balances {f : Node → Option Node} {n : Node} (hs : s.Tidy)
    (hrun : loadedMut id f s = .ok n s') :
    Balances s s' := by
  rcases hx : s.slots[id]? with _ | ⟨node, dirty, diskOffset, bytes, tick⟩ | offset | _
  · unfold loadedMut at hrun
    rw [hx] at hrun
    cases hrun
  · cases hf : f node with
    | none =>
      unfold loadedMut at hrun
      rw [hx] at hrun
      simp [hf] at hrun
    | some node' =>
      obtain ⟨hrun', hs'⟩ := loadedMut_run hs hx hf
      rw [hrun'] at hrun
      cases hrun
      refine ⟨hs', fun hq => hq.of_lastTick rfl rfl (lastTick_set rfl rfl fun t ht => ?_), rfl⟩
      simpa [DiskStore.lastTick, hx, NodeSlot.lastTick] using ht
  · unfold loadedMut at hrun
    rw [hx] at hrun
    cases hrun
  · unfold loadedMut at hrun
    rw [hx] at hrun
    cases hrun

lemma adoptRecord_balances [Crc32Fast] {lens : OrdMap NodeId ℕ} {x : NodeId × ℕ} (hs : s.Tidy)
    (hrun : adoptRecord lens x s = .ok () s') : Balances s s' := by
  unfold adoptRecord at hrun
  rcases hx : s.slots[x.1]? with _ | ⟨node, dirty, diskOffset, bytes, tick⟩ | offset | _
  · rw [hx] at hrun
    cases hrun
  · cases hl : lens.get? x.1 with
    | none =>
      rw [hx, hl] at hrun
      cases hrun
    | some exact =>
      rw [hx, hl] at hrun
      dsimp only at hrun
      split_ifs at hrun with hacc
      cases hrun
      refine ⟨hs.replace hx (.loaded node false (some x.2) exact tick) (Or.inr rfl) rfl ?_ rfl rfl,
        ?_, rfl⟩
      · simp only [NodeSlot.bytes]
        omega
      · refine fun hq => hq.of_lastTick rfl rfl (lastTick_set rfl rfl fun t ht => ?_)
        simpa [DiskStore.lastTick, hx, NodeSlot.lastTick] using ht
  · rw [hx] at hrun
    cases hrun
  · rw [hx] at hrun
    cases hrun

lemma enforceBudget_balances {pins : List NodeId} {justLoaded : Option NodeId} (hs : s.Tidy)
    (hrun : enforceBudget pins justLoaded s = .ok () s') : Balances s s' := by
  obtain ⟨s₁, hrun₁, hs₁, ha⟩ := enforceBudget_run pins justLoaded hs
  rw [hrun₁] at hrun
  cases hrun
  refine ⟨hs₁, fun hq hb => ?_, ha.budget⟩
  rw [ha.budget] at hb
  obtain ⟨budget, hbudget⟩ := Option.ne_none_iff_exists'.mp hb
  exact (enforceBudget_enforces hq hbudget hrun₁).lists

/-- A call keeps the accounts and the queue. -/
theorem CacheCall.balances (h : CacheCall s s') (hs : s.Tidy) : Balances s s' := by
  cases h with
  | allocDirty hrun => exact allocDirty_balances hs hrun
  | allocOnDisk hrun => exact (allocOnDisk_balances hs hrun).1
  | releaseSlot hrun => exact releaseSlot_balances hs hrun
  | touch hrun => exact touch_balances hs hrun rfl fun hq j _ hb => hq hb j
  | hit =>
    exact ⟨⟨hs.bytes, hs.resident, hs.lru, hs.backed⟩, fun hq => hq.of_lastTick rfl rfl
      fun _ _ h => h, rfl⟩
  | load hx hrun => exact load_balances hs hx hrun
  | enforceBudget hrun => exact enforceBudget_balances hs hrun
  | loadedMut hrun => exact loadedMut_balances hs hrun
  | adoptRecord hrun => exact adoptRecord_balances hs hrun
  | elsewhere hslots hcache =>
    have htick : ∀ id, s'.lastTick id = s.lastTick id := fun id => by
      unfold DiskStore.lastTick
      rw [hslots]
    refine ⟨⟨?_, ?_, ?_, ?_⟩,
      fun hq => hq.of_lastTick (by rw [hcache]) (by rw [hcache]) fun id tick h =>
        htick id ▸ h, by rw [hcache]⟩
    · rw [hcache, hslots]
      exact hs.bytes
    · rw [hcache, hslots]
      exact hs.resident
    · rw [hcache, hslots]
      exact hs.lru
    · rw [hslots]
      exact hs.backed

end Calls
end DiskStore
namespace DiskEngine

/-- Under a small budget, all but the root was evicted at the first commit, and the second one found
it dirty above nodes that were clean; other slots had been freed. When its first sync fails, so does
the second commit. -/
lemma worn : ∃ (r₀ r₁ r₂ r₃ r₄ : DiskEngine GreedyFullest FaultyVfs)
    (replies replies' replies'' : List DiskReply),
    @createOn _ _ _ crc32Ieee 40 (some 100) .tiny ⟨⟩ FaultyVfs.new = .ok r₀ ∧
    runOps (@step _ _ _ crc32Ieee _ 40) (Op.churn.map .op ++ [.commit]) r₀ = .ok replies r₁ ∧
    runOps (@step _ _ _ crc32Ieee _ 40) [.op (.mutate (.delete [4]))] r₁ = .ok replies' r₂ ∧
    runOps (@step _ _ _ crc32Ieee _ 40) [.commit] r₂ = .ok replies'' r₃ ∧
    @commit _ _ _ crc32Ieee 40
      { r₂ with store := { r₂.store with vfs := r₂.store.vfs.failNthSync 0 [] } } =
      .error (.storage (.io .syncFailure)) r₄ ∧
    (∀ x ∈ r₁.store.slots, x.dirty = false) ∧ .freed ∈ r₁.store.slots ∧
      5 ≤ r₁.store.cache.evictions ∧
    (∃ x ∈ r₂.store.slots, x.dirty = true) ∧ .onDisk 8323 ∈ r₂.store.slots ∧
      r₃.store.vfs.failSync = none ∧
    r₃.store.vfs.window = [] := by
  have hwears :
    goesThrough (@createOn _ _ _ crc32Ieee 40 (some 100) .tiny (⟨⟩ : GreedyFullest) FaultyVfs.new)
      (runOps (@step _ _ _ crc32Ieee _ 40) (Op.churn.map .op ++ [.commit]))
      (runOps (@step _ _ _ crc32Ieee _ 40) [.op (.mutate (.delete [4]))])
        (runOps (@step _ _ _ crc32Ieee _ 40) [.commit])
      (fun r₁ r₂ r₃ => failsWith
        (@commit _ _ _ crc32Ieee 40
          { r₂ with store := { r₂.store with vfs := r₂.store.vfs.failNthSync 0 [] } })
          (.storage (.io .syncFailure)) &&
        r₁.store.slots.all (fun x => !x.dirty) && r₁.store.slots.any (· = .freed) &&
        decide (5 ≤ r₁.store.cache.evictions) && r₂.store.slots.any NodeSlot.dirty &&
          r₂.store.slots.any (· = .onDisk 8323) &&
        r₃.store.vfs.failSync.isNone && r₃.store.vfs.window.isEmpty) = true := by decide +kernel
  obtain ⟨r₀, r₁, r₂, r₃, replies, replies', replies'', h₀, h₁, h₂, h₃, hcheck⟩ :=
    goesThrough_eq_true hwears
  simp only [Bool.and_eq_true, and_assoc] at hcheck
  obtain ⟨hfails, hcheck⟩ := hcheck
  exact ⟨r₀, r₁, r₂, r₃, _, replies, replies', replies'', h₀, h₁, h₂, h₃, failsWith_eq_true hfails,
    by simpa [and_assoc] using hcheck⟩

end DiskEngine
end Beetree
