import Beetree.Disk
import Beetree.Simulation

/-! The node cache keeps its accounts, and evicts nothing that is dirty or pinned. -/
namespace Beetree

def NodeSlot.bytes : NodeSlot → ℕ
  | loaded _ _ _ bytes _ => bytes
  | _ => 0

def NodeSlot.count : NodeSlot → ℕ
  | loaded .. => 1
  | _ => 0

def NodeSlot.Backed : NodeSlot → Prop
  | loaded _ dirty diskOffset _ _ => dirty = true ∨ diskOffset.isSome
  | _ => True

/-- What the cache may do to a slot: note an access, or evict it if it is clean and need not be
spared. -/
inductive NodeSlot.Ages (spare : Prop) : NodeSlot → NodeSlot → Prop
  | loaded (node : Node) (dirty : Bool) (diskOffset : Option ℕ) (bytes tick tick' : ℕ) :
      Ages spare (.loaded node dirty diskOffset bytes tick)
      (.loaded node dirty diskOffset bytes tick')
  | evicted (node : Node) (offset bytes tick : ℕ) : ¬ spare →
      Ages spare (.loaded node false (some offset) bytes tick) (.onDisk offset)
  | onDisk (offset : ℕ) : Ages spare (.onDisk offset) (.onDisk offset)
  | freed : Ages spare .freed .freed

namespace NodeSlot
variable {spare spare' : Prop} {x y z : NodeSlot}

lemma Ages.refl (spare : Prop) (x : NodeSlot) : Ages spare x x := by
  cases x with
  | loaded node dirty diskOffset bytes tick => exact .loaded ..
  | onDisk offset => exact .onDisk offset
  | freed => exact .freed

lemma ages_stamp (spare : Prop) (tick : ℕ) (x : NodeSlot) : Ages spare x (x.stamp tick) := by
  cases x with
  | loaded node dirty diskOffset bytes tick => exact .loaded ..
  | onDisk offset => exact .onDisk offset
  | freed => exact .freed

lemma Ages.trans (h : Ages spare x y) (h' : Ages spare y z) : Ages spare x z := by
  cases h with
  | loaded node dirty diskOffset bytes tick tick' =>
    cases h' with
    | loaded => exact .loaded ..
    | evicted _ _ _ _ hs => exact .evicted _ _ _ _ hs
  | evicted _ _ _ _ hs =>
    cases h'
    exact .evicted _ _ _ _ hs
  | onDisk offset => exact h'
  | freed => exact h'

lemma Ages.mono (hs : spare' → spare) (h : Ages spare x y) : Ages spare' x y := by
  cases h with
  | loaded => exact .loaded ..
  | evicted _ _ _ _ h => exact .evicted _ _ _ _ fun h' => h (hs h')
  | onDisk offset => exact .onDisk offset
  | freed => exact .freed

@[simp] lemma bytes_stamp (tick : ℕ) (x : NodeSlot) : (x.stamp tick).bytes = x.bytes := by
  cases x <;> rfl

@[simp] lemma count_stamp (tick : ℕ) (x : NodeSlot) : (x.stamp tick).count = x.count := by
  cases x <;> rfl

lemma backed_stamp {tick : ℕ} {x : NodeSlot} (hx : x.Backed) : (x.stamp tick).Backed := by
  cases x <;> exact hx

end NodeSlot

lemma sum_map_set {α : Type} (f : α → ℕ) {l : List α} {i : ℕ} {x : α}
    (hx : l[i]? = some x) (y : α) :
    ((l.set i y).map f).sum + f x = (l.map f).sum + f y := by
  induction l generalizing i with
  | nil => cases hx
  | cons z l ih =>
    cases i with
    | zero =>
      obtain rfl : z = x := by simpa using hx
      simp only [List.set_cons_zero, List.map_cons, List.sum_cons]
      omega
    | succ i =>
      have := ih (i := i) (by simpa using hx)
      simp only [List.set_cons_succ, List.map_cons, List.sum_cons]
      omega

lemma le_sum_map {α : Type} (f : α → ℕ) {l : List α} {i : ℕ} {x : α} (hx : l[i]? = some x) :
    f x ≤ (l.map f).sum :=
  List.single_le_sum (fun _ _ => Nat.zero_le _) _ (List.mem_map_of_mem (List.mem_of_getElem? hx))

namespace DiskStore
variable {V : Type}

/-- The accounts are right: bytes and nodes in memory are counted, accesses are to existing slots,
and what may be evicted can be read back. -/
structure Tidy (s : DiskStore V) : Prop where
  bytes : s.cache.bytes = (s.slots.map NodeSlot.bytes).sum
  resident : s.cache.resident = (s.slots.map NodeSlot.count).sum
  lru : ∀ x ∈ s.cache.lru, x.1 < s.slots.length
  backed : ∀ x ∈ s.slots, x.Backed

/-- What the cache may do to a store on its own. -/
structure Ages (spare : NodeId → Prop) (s s' : DiskStore V) : Prop where
  slots : ∀ (id : NodeId) (x : NodeSlot), s.slots[id]? = some x → ∃ y, s'.slots[id]? = some y ∧
    x.Ages (spare id) y
  length : s'.slots.length = s.slots.length
  budget : s'.cache.budget = s.cache.budget
  rest : s' = { s with slots := s'.slots, cache := s'.cache }

section Ages
variable {spare spare' : NodeId → Prop} {s s' s'' : DiskStore V}

lemma Ages.refl (spare : NodeId → Prop) (s : DiskStore V) : Ages spare s s :=
  ⟨fun _ x hx => ⟨x, hx, .refl _ x⟩, rfl, rfl, rfl⟩

lemma Ages.trans (h : Ages spare s s') (h' : Ages spare s' s'') : Ages spare s s'' where
  slots id x hx := by
    obtain ⟨y, hy, hxy⟩ := h.slots id x hx
    obtain ⟨z, hz, hyz⟩ := h'.slots id y hy
    exact ⟨z, hz, hxy.trans hyz⟩
  length := h'.length.trans h.length
  budget := h'.budget.trans h.budget
  rest := by
    rw [h'.rest]
    conv_lhs => rw [h.rest]

lemma Ages.mono (hs : ∀ id, spare' id → spare id) (h : Ages spare s s') : Ages spare' s s' where
  slots id x hx := by
    obtain ⟨y, hy, hxy⟩ := h.slots id x hx
    exact ⟨y, hy, hxy.mono (hs id)⟩
  length := h.length
  budget := h.budget
  rest := h.rest

lemma Ages.vfs (h : Ages spare s s') : s'.vfs = s.vfs := by rw [h.rest]

lemma Ages.watermark (h : Ages spare s s') : s'.watermark = s.watermark := by rw [h.rest]

lemma Ages.nextGeneration (h : Ages spare s s') : s'.nextGeneration = s.nextGeneration := by
  rw [h.rest]

lemma Ages.poisoned (h : Ages spare s s') : s'.poisoned = s.poisoned := by rw [h.rest]

lemma Ages.offsets (h : Ages spare s s') : s'.offsets = s.offsets := by rw [h.rest]

lemma ages_cache (spare : NodeId → Prop) {cache : Cache} (hb : cache.budget = s.cache.budget) :
    Ages spare s { s with cache := cache } :=
  ⟨fun _ x hx => ⟨x, hx, .refl _ x⟩, rfl, hb, rfl⟩

end Ages

lemma Tidy.replace {s s' : DiskStore V} (hs : s.Tidy) {id : NodeId} {x : NodeSlot}
    (hx : s.slots[id]? = some x)
    (y : NodeSlot) (hy : y.Backed) (hslots : s'.slots = s.slots.set id y)
    (hbytes : s'.cache.bytes + x.bytes = s.cache.bytes + y.bytes)
    (hcount : s'.cache.resident + x.count = s.cache.resident + y.count)
    (hlru : s'.cache.lru = s.cache.lru) : s'.Tidy := by
  refine ⟨?_, ?_, fun z hz => ?_, fun z hz => ?_⟩
  · have hsum := sum_map_set NodeSlot.bytes hx y
    have := hs.bytes
    rw [hslots]
    omega
  · have hsum := sum_map_set NodeSlot.count hx y
    have := hs.resident
    rw [hslots]
    omega
  · rw [hslots, List.length_set]
    exact hs.lru z (hlru ▸ hz)
  · rcases List.mem_or_eq_of_mem_set (hslots ▸ hz) with hz | rfl
    · exact hs.backed z hz
    · exact hy

section Touch
variable {s : DiskStore V} {id : NodeId}

lemma Tidy.stamp (hs : s.Tidy) (hid : id < s.slots.length) : (s.stamp id).Tidy := by
  have hmap : ∀ f : NodeSlot → ℕ, (∀ tick x, f (x.stamp tick) = f x) →
      ((s.slots.modify id (NodeSlot.stamp (s.cache.tick + 1))).map f).sum = (s.slots.map
        f).sum := by
    intro f hf
    congr 1
    apply List.ext_getElem?
    intro i
    rw [List.getElem?_map, List.getElem?_map, List.getElem?_modify,
      Option.map_eq_map, Option.map_map]
    congr 1
    funext x
    simp only [Function.comp_apply]
    split_ifs
    · exact hf _ x
    · rfl
  refine ⟨?_, ?_, fun x hx => ?_, fun x hx => ?_⟩
  · exact hs.bytes.trans (hmap _ NodeSlot.bytes_stamp).symm
  · exact hs.resident.trans (hmap _ NodeSlot.count_stamp).symm
  · simp only [DiskStore.stamp, List.mem_append, List.mem_singleton, List.length_modify] at hx ⊢
    rcases hx with hx | rfl
    · exact hs.lru x hx
    · exact hid
  · obtain ⟨i, hi⟩ := List.getElem?_of_mem hx
    simp only [DiskStore.stamp, List.getElem?_modify] at hi
    obtain ⟨y, hy, rfl⟩ := Option.map_eq_some_iff.mp hi
    have := hs.backed y (List.mem_of_getElem? hy)
    split_ifs
    · exact NodeSlot.backed_stamp this
    · exact this

lemma ages_modify_stamp (spare : NodeId → Prop) (s : DiskStore V) (id : NodeId) :
    Ages spare s (s.stamp id) where
  slots i x hx := by
    simp only [DiskStore.stamp, List.getElem?_modify, hx]
    refine ⟨_, rfl, ?_⟩
    split_ifs
    · exact NodeSlot.ages_stamp _ _ x
    · exact .refl _ x
  length := by simp [DiskStore.stamp]
  budget := rfl
  rest := rfl

lemma isCurrent_isSome {slots : List NodeSlot} {x : NodeId × ℕ} (hx : x.1 < slots.length) :
    ∃ b, isCurrent slots x = some b := by
  have hslot : slots[x.1]? = some slots[x.1] := List.getElem?_eq_getElem hx
  unfold isCurrent
  rw [hslot]
  cases slots[x.1] with
  | loaded => exact ⟨_, rfl⟩
  | onDisk => exact ⟨_, rfl⟩
  | freed => exact ⟨_, rfl⟩

lemma filterM_isCurrent {slots : List NodeSlot} {lru : List (NodeId × ℕ)}
    (h : ∀ x ∈ lru, x.1 < slots.length) :
    ∃ kept, lru.filterM (isCurrent slots) = some kept ∧ ∀ x ∈ kept, x.1 < slots.length := by
  have haux : ∀ (lru acc : List (NodeId × ℕ)), (∀ x ∈ lru, x.1 < slots.length) →
    (∀ x ∈ acc, x.1 < slots.length) →
      ∃ kept, lru.filterAuxM (isCurrent slots) acc = some kept ∧
        ∀ x ∈ kept, x.1 < slots.length := by
    intro lru
    induction lru with
    | nil => exact fun acc _ hacc => ⟨acc, rfl, hacc⟩
    | cons x lru ih =>
      intro acc hlru hacc
      obtain ⟨b, hb⟩ := isCurrent_isSome (hlru x (by simp))
      unfold List.filterAuxM
      rw [hb]
      refine ih _ (fun y hy => hlru y (by simp [hy])) fun y hy => ?_
      cases b with
      | false => exact hacc y hy
      | true =>
        rcases List.mem_cons.mp hy with rfl | hy
        · exact hlru _ (by simp)
        · exact hacc y hy
  obtain ⟨kept, hk, hbound⟩ := haux lru [] h (by simp)
  refine ⟨kept.reverse, ?_, fun x hx => hbound x (List.mem_reverse.mp hx)⟩
  unfold List.filterM
  rw [hk]
  rfl

lemma touch_run (hs : s.Tidy) (hid : id < s.slots.length) (spare : NodeId → Prop) :
    ∃ s', touch id s = .ok () s' ∧ s'.Tidy ∧ Ages spare s s' := by
  unfold touch
  by_cases hb : s.cache.budget = none
  · rw [if_pos hb]
    exact ⟨s, rfl, hs, .refl spare s⟩
  · rw [if_neg hb, if_neg (not_le.mpr hid)]
    have ht := hs.stamp hid
    have ha := ages_modify_stamp spare s id
    dsimp only
    split_ifs with hlen
    · obtain ⟨lru, hlru, hbound⟩ := filterM_isCurrent ht.lru
      rw [hlru]
      exact ⟨_, rfl, ⟨ht.bytes, ht.resident, hbound, ht.backed⟩, ha.trans (ages_cache spare rfl)⟩
    · exact ⟨_, rfl, ht, ha⟩

end Touch

section Enforce
variable {s : DiskStore V} {id : NodeId}

lemma Tidy.evict (hs : s.Tidy) {node : Node} {offset bytes tick : ℕ}
    (hid : s.slots[id]? = some (.loaded node false (some offset) bytes tick))
    (spare : NodeId → Prop)
    (hspare : ¬ spare id) :
    ∃ s', evict id (some offset) bytes s = .ok () s' ∧ s'.Tidy ∧ Ages spare s s' := by
  have hbytes : bytes ≤ s.cache.bytes := hs.bytes ▸ le_sum_map NodeSlot.bytes hid
  have hcount : 1 ≤ s.cache.resident := hs.resident ▸ le_sum_map NodeSlot.count hid
  have hlt : id < s.slots.length := (List.getElem?_eq_some_iff.mp hid).1
  refine ⟨_, if_pos ⟨hbytes, hcount⟩, hs.replace hid (.onDisk offset) trivial rfl ?_ ?_ rfl,
    ⟨fun i x hx => ?_, ?_, rfl, rfl⟩⟩
  · exact Nat.sub_add_cancel hbytes
  · exact Nat.sub_add_cancel hcount
  · by_cases hi : id = i
    · subst hi
      rw [hid] at hx
      cases hx
      exact ⟨.onDisk offset, by simp [hlt], .evicted _ _ _ _ hspare⟩
    · exact ⟨x, by simpa [List.getElem?_set_ne hi] using hx, .refl _ x⟩
  · simp

/-- The loop evicts clean nodes that are not to be spared, and nothing else. -/
lemma enforceLoop_run (budget : ℕ) (pins : List NodeId) (justLoaded : Option NodeId)
    (n : ℕ) (hs : s.Tidy) :
    ∃ s', enforceLoop budget pins justLoaded n s = .ok () s' ∧ s'.Tidy ∧
      Ages (fun i => i ∈ pins ∨ justLoaded = some i) s s' := by
  induction n generalizing s with
  | zero => exact ⟨s, rfl, hs, .refl _ s⟩
  | succ n ih =>
    rw [enforceLoop]
    change ∃ s', (if s.cache.bytes ≤ budget then _ else _ : Act V Unit) s = _ ∧ _
    split_ifs with hb
    · exact ⟨s, rfl, hs, .refl _ s⟩
    · cases hlru : s.cache.lru with
      | nil => exact ⟨s, rfl, hs, .refl _ s⟩
      | cons access lru =>
        obtain ⟨id, tick⟩ := access
        let s₁ : DiskStore V := { s with cache := { s.cache with lru := lru } }
        have hs₁ :
          s₁.Tidy :=
          ⟨hs.bytes, hs.resident, fun x hx => hs.lru x (by rw [hlru]; simp [show x ∈ lru from hx]),
          hs.backed⟩
        have ha₁ : Ages (fun i => i ∈ pins ∨ justLoaded = some i) s s₁ := ages_cache _ rfl
        have hid : id < s.slots.length := hs.lru (id, tick) (by rw [hlru]; simp)
        have hgo : ∀ s₂ : DiskStore V, s₂.Tidy →
          Ages (fun i => i ∈ pins ∨ justLoaded = some i) s s₂ →
            ∃ s', enforceLoop budget pins justLoaded n s₂ = .ok () s' ∧ s'.Tidy ∧
              Ages (fun i => i ∈ pins ∨ justLoaded = some i) s s' := by
          intro s₂ hs₂ ha₂
          obtain ⟨s', hrun, hs', ha'⟩ := ih hs₂
          exact ⟨s', hrun, hs', ha₂.trans ha'⟩
        have hslot : s.slots[id]? = some s.slots[id] := List.getElem?_eq_getElem hid
        dsimp only
        rw [hslot]
        cases hcell : s.slots[id] with
        | onDisk offset => exact hgo s₁ hs₁ ha₁
        | freed => exact hgo s₁ hs₁ ha₁
        | loaded node dirty diskOffset bytes lastTick =>
          rw [hcell] at hslot
          dsimp only
          split_ifs with htick hkeep
          · exact hgo s₁ hs₁ ha₁
          · exact hgo (s₁.stamp id) (hs₁.stamp hid) (ha₁.trans (ages_modify_stamp _ s₁ id))
          · obtain ⟨hd, hnot⟩ := not_or.mp hkeep
            obtain rfl : dirty = false := by simpa using hd
            have hback := hs.backed _ (List.mem_of_getElem? hslot)
            obtain ⟨offset, rfl⟩ : ∃ offset, diskOffset = some offset :=
              Option.isSome_iff_exists.mp (hback.resolve_left (by simp))
            obtain ⟨s₂, hrun, hs₂, ha₂⟩ :=
              hs₁.evict hslot (fun i => i ∈ pins ∨ justLoaded = some i) hnot
            obtain ⟨s', hrun', hs', ha'⟩ := hgo s₂ hs₂ (ha₁.trans ha₂)
            refine ⟨s', ?_, hs', ha'⟩
            change EStateM.bind (DiskStore.evict id (some offset) bytes) _ s₁ = _
            simp only [EStateM.bind, hrun]
            exact hrun'

/-- Enforcing the budget evicts clean nodes that are not to be spared, and nothing without a
budget. -/
theorem enforceBudget_run (pins : List NodeId) (justLoaded : Option NodeId) (hs : s.Tidy) :
    ∃ s', enforceBudget pins justLoaded s = .ok () s' ∧ s'.Tidy ∧
      Ages (fun i => s.cache.budget = none ∨ i ∈ pins ∨ justLoaded = some i) s s' := by
  simp only [enforceBudget, run_get_bind]
  cases hb : s.cache.budget with
  | none => exact ⟨s, rfl, hs, .refl _ s⟩
  | some budget =>
    obtain ⟨s₁, hrun, hs₁, ha₁⟩ := enforceLoop_run budget pins justLoaded s.cache.lru.length hs
    have ha : Ages (fun i => some budget = none ∨ i ∈ pins ∨ justLoaded = some i) s s₁ :=
      ha₁.mono fun i hi => hi.resolve_left (by simp)
    refine ⟨noteOvercommit budget s₁, ?_, ?_, ?_⟩
    · change EStateM.bind _ _ s = _
      simp only [EStateM.bind, hrun]
      rfl
    · unfold noteOvercommit
      split_ifs
      · exact ⟨hs₁.bytes, hs₁.resident, hs₁.lru, hs₁.backed⟩
      · exact hs₁
    · refine ha.trans ?_
      unfold noteOvercommit
      split_ifs with hover
      · exact ages_cache _ rfl
      · exact .refl _ s₁

end Enforce

section Change
variable {s : DiskStore V} {id : NodeId}

/-- A store with one more slot, before the access to it is noted. -/
def grown (s : DiskStore V) (node : Node) : DiskStore V :=
  { s with
    slots := s.slots ++ [.loaded node true none (estBytes node) 0]
    cache := { s.cache with
      bytes := s.cache.bytes + estBytes node
      resident := s.cache.resident + 1 } }

lemma Tidy.grown (hs : s.Tidy) (node : Node) : (s.grown node).Tidy := by
  refine ⟨?_, ?_, fun x hx => ?_, fun x hx => ?_⟩
  · simp [DiskStore.grown, hs.bytes, NodeSlot.bytes]
  · simp [DiskStore.grown, hs.resident, NodeSlot.count]
  · have hlt : x.1 < s.slots.length := hs.lru x hx
    simp only [DiskStore.grown, List.length_append, List.length_singleton]
    exact Nat.lt_succ_of_lt hlt
  · rcases List.mem_append.mp hx with hx | hx
    · exact hs.backed x hx
    · rw [List.mem_singleton.mp hx]
      exact Or.inl rfl

lemma allocDirty_run (hs : s.Tidy) (node : Node) (spare : NodeId → Prop) :
    ∃ s', allocDirty node s = .ok s.slots.length s' ∧ s'.Tidy ∧ Ages spare (s.grown node) s' := by
  have hlt : s.slots.length < (s.grown node).slots.length := by simp [DiskStore.grown]
  obtain ⟨s', hrun, hs', ha⟩ := touch_run (hs.grown node) hlt spare
  refine ⟨s', ?_, hs', ha⟩
  unfold allocDirty
  rw [run_get_bind]
  change (touch s.slots.length >>= fun _ => pure s.slots.length) (s.grown node) = _
  rw [run_bind_ok hrun]
  rfl

/-- A node in memory replaced, charged by its size before. -/
def changed (s : DiskStore V) (id : NodeId) (node node' : Node) (diskOffset : Option ℕ)
    (bytes tick : ℕ) :
    DiskStore V :=
  { s with
    slots := s.slots.set id (.loaded node' true diskOffset (estBytes node) tick)
    cache := { s.cache with bytes := s.cache.bytes - bytes + estBytes node } }

lemma loadedMut_run (hs : s.Tidy) {node node' : Node} {dirty : Bool} {diskOffset : Option ℕ}
    {bytes tick : ℕ}
    (hx : s.slots[id]? = some (.loaded node dirty diskOffset bytes tick)) {f : Node → Option Node}
    (hf : f node = some node') :
    loadedMut id f s = .ok node' (s.changed id node node' diskOffset bytes tick) ∧
      (s.changed id node node' diskOffset bytes tick).Tidy := by
  have hbytes : bytes ≤ s.cache.bytes := hs.bytes ▸ le_sum_map NodeSlot.bytes hx
  refine ⟨?_, hs.replace hx (.loaded node' true diskOffset (estBytes node) tick)
    (Or.inl rfl) rfl ?_ rfl rfl⟩
  · unfold loadedMut
    rw [hx]
    simp only [hf, if_pos hbytes]
    rfl
  · simp only [DiskStore.changed, NodeSlot.bytes]
    omega

end Change

section Load
variable {s s₁ s₂ : DiskStore V} {id : NodeId} {offset : ℕ}

lemma Tidy.place (hs : s.Tidy) (hid : s.slots[id]? = some (.onDisk offset))
    (node : Node) (bytes : ℕ) :
    (s.place id node offset bytes).Tidy :=
  hs.replace hid (.loaded node false (some offset) bytes 0) (Or.inr rfl) rfl rfl rfl rfl

variable [Vfs V] [Crc32Fast] (pins : List NodeId)

lemma ensureLoaded_hit (hs : s.Tidy) {node : Node} {dirty : Bool} {diskOffset : Option ℕ}
    {bytes tick : ℕ}
    (hx : s.slots[id]? = some (.loaded node dirty diskOffset bytes tick)) :
    ∃ s', ensureLoaded id pins s = .ok () s' ∧ s'.Tidy ∧ Ages (fun _ => True) s s' := by
  let s₁ : DiskStore V := { s with cache := { s.cache with hits := s.cache.hits + 1 } }
  have ht₁ : s₁.Tidy := ⟨hs.bytes, hs.resident, hs.lru, hs.backed⟩
  have ha₁ : Ages (fun _ => True) s s₁ := ages_cache _ rfl
  obtain ⟨s₂, hrun, ht₂, ha₂⟩ := touch_run ht₁ (List.getElem?_eq_some_iff.mp hx).1 (fun _ => True)
  refine ⟨s₂, ?_, ht₂, ha₁.trans ha₂⟩
  unfold ensureLoaded
  rw [run_get_bind, hx]
  exact hrun

lemma ensureLoaded_unread {f : Fault} (hx : s.slots[id]? = some (.onDisk offset))
    (hread : readRecord offset s = .error f s₁) : ensureLoaded id pins s = .error f s₁ := by
  unfold ensureLoaded
  rw [run_get_bind, hx]
  exact run_bind_error hread

lemma ensureLoaded_refused {f : Fault} {diskNode : DiskNode} {len : ℕ}
    (hx : s.slots[id]? = some (.onDisk offset))
    (hread : readRecord offset s = .ok (diskNode, len) s₁)
    (hint : internChildren offset diskNode s₁ = .error f s₂) :
    ensureLoaded id pins s = .error f s₂ := by
  unfold ensureLoaded
  rw [run_get_bind, hx]
  dsimp only
  rw [run_bind_ok hread]
  exact run_bind_error hint

/-- A record that is read and passes the checks goes to memory, and others may have to leave. -/
lemma ensureLoaded_miss {diskNode : DiskNode} {len : ℕ} {node : Node}
    (hx : s.slots[id]? = some (.onDisk offset))
    (hread : readRecord offset s = .ok (diskNode, len) s₁)
    (hint : internChildren offset diskNode s₁ = .ok node s₂)
    (hx₂ : s₂.slots[id]? = some (.onDisk offset)) (hs₂ : s₂.Tidy) :
    ∃ s', ensureLoaded id pins s = .ok () s' ∧ s'.Tidy ∧
      Ages (fun i => s₂.cache.budget = none ∨ i ∈ pins ∨ some id = some i)
        (s₂.place id node offset (recordHeaderSize + len)) s' := by
  have hlt : id < s₂.slots.length := (List.getElem?_eq_some_iff.mp hx₂).1
  have hs₃ := hs₂.place hx₂ node (recordHeaderSize + len)
  obtain ⟨s₄, hrun₄, ht₄, ha₄⟩ := touch_run hs₃ (show id < _ by simpa [DiskStore.place] using hlt)
    (fun i => s₂.cache.budget = none ∨ i ∈ pins ∨ some id = some i)
  obtain ⟨s₅, hrun₅, ht₅, ha₅⟩ := enforceBudget_run pins (some id) ht₄
  refine ⟨s₅, ?_, ht₅, ha₄.trans ?_⟩
  · unfold ensureLoaded
    rw [run_get_bind, hx]
    dsimp only
    rw [run_bind_ok hread]
    dsimp only
    rw [run_bind_ok hint, run_modify_bind, run_bind_ok hrun₄]
    exact hrun₅
  · rw [ha₄.budget] at ha₅
    exact ha₅

end Load
end DiskStore
end Beetree
