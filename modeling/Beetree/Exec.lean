import Beetree.Footprint
import Beetree.Simulation

/-! Running the machinery's primitives over the ideal store. -/
namespace Beetree

/-- Every node of a stored tree has an offset. -/
def Tree.Labelled {h : ℕ} (d : VTree h) : Prop :=
  match h, d with
  | 0, d => d.ann.isSome
  | _ + 1, d => d.ann.isSome ∧ ∀ c ∈ d.children, Labelled c

lemma Tree.Labelled.ann {h : ℕ} {d : VTree h} (hd : d.Labelled) : d.ann.isSome := by
  cases h with
  | zero => exact hd
  | succ h => exact hd.1

lemma hereditary_labelled : Hereditary fun _ d => d.Labelled := fun _ _ _ _ _ hd => hd.2

namespace Engine
variable {π St α β : Type} {e e' : Engine π St}

lemma run_bind {x : Act π St α} {f : α → Act π St β} {a : α} (h : x e = .ok a e') :
    (x >>= f) e = f a e' := by
  change EStateM.bind x f e = f a e'
  simp only [EStateM.bind, h]

@[simp] lemma run_pure (a : α) : (pure a : Act π St α) e = .ok a e := rfl

@[simp] lemma run_get : (get : Act π St (Engine π St)) e = .ok e e := rfl

def on (e : Engine π St) (s : St) : Engine π St := { e with store := s }

@[simp] lemma on_store (s : St) : (e.on s).store = s := rfl

@[simp] lemma on_on (s s' : St) : (e.on s).on s' = e.on s' := rfl

@[simp] lemma on_self : e.on e.store = e := rfl

lemma run_onStore {m : EStateM Fault St α} {a : α} {s : St} (h : m e.store = .ok a s) :
    onStore m e = .ok a (e.on s) := by
  simp only [onStore, h]
  rfl

lemma run_onStore_error {m : EStateM Fault St α} {f : Fault} {s : St} (h : m e.store = .error f s) :
    (onStore m : Act π St α) e = .error f (e.on s) := by
  simp only [onStore, h]
  rfl

lemma ends_onStore {m : EStateM Fault St α} {Q : α → St → Prop} {E : Fault → St → Prop}
    (hm : Ends m e.store Q E) :
    Ends (onStore m) e (fun a e' => Q a e'.store ∧ e' = e.on e'.store) fun f e' => E f e'.store ∧
    e' = e.on e'.store := by
  unfold Ends at hm
  cases hrun : m e.store with
  | ok a s =>
    rw [hrun] at hm
    exact .of_ok (run_onStore hrun) ⟨hm, rfl⟩
  | error f s =>
    rw [hrun] at hm
    exact .of_error (run_onStore_error hrun) ⟨hm, rfl⟩

/-- The fields the machinery never assigns below the public operations. -/
def fixed (e : Engine π St) : Params × NodeId × UInt64 × ℕ :=
  (e.params, e.root, e.nextSeq, e.opsSinceCommit)

end Engine

section Primitives
variable {π : Type} {e e' e'' : Engine π Ideal} {id : NodeId} {n n' : Node} {d : Bool}
  {r : Option Record} {F F' F'' G : Foot} {pins : List NodeId}

/-- A run from one footprint to another that keeps the pinned nodes in memory. -/
structure Goes (pins : List NodeId) (F F' : Foot) (e e' : Engine π Ideal) : Prop where
  shifts : Shifts e.store e'.store F F'
  kept : ∀ i ∈ pins, i ∈ e.store.kept → i ∈ e'.store.kept
  fixed : e'.fixed = e.fixed

lemma Goes.refl (hF : Stored e.store F) : Goes pins F F e e :=
  ⟨Shifts.refl hF, fun _ _ h => h, rfl⟩

lemma Goes.trans (h₁ : Goes pins F F' e e') (h₂ : Goes pins F' F'' e' e'') :
    Goes pins F F'' e e'' :=
  ⟨h₁.shifts.trans h₂.shifts, fun i hi h => h₂.kept i hi (h₁.kept i hi h), h₂.fixed.trans h₁.fixed⟩

lemma Goes.stored (h : Goes pins F F' e e') : Stored e'.store F' := h.shifts.stored

lemma Goes.mono {pins' : List NodeId} (h : Goes pins F F' e e') (hp : ∀ i ∈ pins', i ∈ pins) :
    Goes pins' F F' e e' :=
  ⟨h.shifts, fun i hi => h.kept i (hp i hi), h.fixed⟩

lemma Goes.perm {G' : Foot} (h : Goes pins F F' e e') (hF : F.Perm G) (hF' : F'.Perm G') :
    Goes pins G G' e e' :=
  ⟨h.shifts.perm hF hF', h.kept, h.fixed⟩

lemma Goes.frame {H : Foot} (h : Goes pins F F' e e') (hF : Stored e.store (H ++ (F ++ G))) :
    Goes pins (H ++ (F ++ G)) (H ++ (F' ++ G)) e e' :=
  ⟨h.shifts.frame' hF, h.kept, h.fixed⟩

lemma Goes.of_shifts (pins : List NodeId) {s : Ideal} (h : Shifts e.store s F F')
    (hk : s.kept = e.store.kept) :
    Goes pins F F' e (e.on s) :=
  ⟨h, fun i _ hi => by rw [Engine.on_store, hk]; exact hi, rfl⟩

def Resident (s : Ideal) (id : NodeId) (d : Bool) : Prop := d = true ∨ id ∈ s.kept

lemma loaded_run (hs : e.store.slots id = some (.loaded n d r)) (hd : Resident e.store id d) :
    Engine.loaded id e = .ok n e := by
  have : NodeStore.loaded id e.store = .ok n e.store := by
    simp only [NodeStore.loaded, hs]
    exact if_pos hd
  exact Engine.run_onStore this

lemma mutate_run {f : Node → Option Node} (hs : e.store.slots id = some (.loaded n d r))
    (hd : Resident e.store id d) (hf : f n = some n') :
    Engine.mutate id f e = .ok n' (e.on (e.store.put id (some (.loaded n' true r)))) := by
  have : NodeStore.mutate id f e.store = .ok n' (e.store.put id (some (.loaded n' true r))) := by
    simp only [NodeStore.mutate, hs, hf]
    exact if_pos hd
  exact Engine.run_onStore this

lemma alloc_run (n : Node) : Engine.alloc n e = .ok e.store.next
    (e.on { e.store.put e.store.next (some (.loaded n true none)) with
      next := e.store.next + 1 }) := rfl

lemma release_run {x : Slot} (hs : e.store.slots id = some x) :
    Engine.releaseSlot id e = .ok () (e.on (e.store.put id none)) := by
  have : NodeStore.releaseSlot id e.store = .ok () (e.store.put id none) := by
    simp only [NodeStore.releaseSlot, hs]
  exact Engine.run_onStore this

def Slot.dirty : Slot → Bool
  | loaded _ dirty _ => dirty
  | stub _ => false

lemma isDirty_run {x : Slot} (hs : e.store.slots id = some x) :
    Engine.isDirty id e = .ok x.dirty e := by
  have : NodeStore.isDirty id e.store = .ok x.dirty e.store := by
    cases x <;> simp only [NodeStore.isDirty, hs, Slot.dirty]
  exact Engine.run_onStore this

lemma ensureLoaded_resident (hs : e.store.slots id = some (.loaded n d r))
    (hd : Resident e.store id d) :
    Engine.ensureLoaded id pins e = .ok () e := by
  have : NodeStore.ensureLoaded id pins e.store = .ok () e.store := by
    simp only [NodeStore.ensureLoaded, hs]
    exact if_pos hd
  exact Engine.run_onStore this

lemma ensureLoaded_evicted {r : Record} (hs : e.store.slots id = some (.loaded n d (some r)))
    (hd : ¬ Resident e.store id d) (hr : e.store.ReadsBack n r) :
    Engine.ensureLoaded id pins e = .ok () (e.on (e.store.keep id pins)) := by
  have : NodeStore.ensureLoaded id pins e.store = .ok () (e.store.keep id pins) := by
    simp only [NodeStore.ensureLoaded, hs]
    exact (if_neg hd).trans (if_pos hr)
  exact Engine.run_onStore this

lemma ensureLoaded_stub {h : ℕ} {t : VTree h} (hs : e.store.slots id = some (.stub ⟨h, t⟩)) :
    Engine.ensureLoaded id pins e = .ok () (e.on ((e.store.expand id t).keep id pins)) := by
  have : NodeStore.ensureLoaded id pins e.store = .ok () ((e.store.expand id t).keep id pins) := by
    simp only [NodeStore.ensureLoaded, hs]
  exact Engine.run_onStore this

end Primitives

section Load
variable {s : Ideal} {F : Foot} {h : ℕ}

lemma Stored.addSlots (xs : List Slot) (hF : Stored s F) :
    Shifts s (s.addSlots xs) F ((List.range' s.next xs.length).zip xs ++ F) ∧
      (s.addSlots xs).kept = s.kept := by
  induction xs generalizing s F with
  | nil => exact ⟨Shifts.refl hF, rfl⟩
  | cons x xs ih =>
    have h₁ := hF.alloc x
    obtain ⟨h₂, hk⟩ := ih h₁.stored
    refine ⟨(h₁.trans h₂).perm (List.Perm.refl _) ?_, hk⟩
    simp only [List.length_cons, List.range'_succ, List.zip_cons_cons, List.cons_append]
    exact List.perm_middle

lemma Body.toNode_ofRecord {ids : List NodeId} {d : VTree h} (hn : Names ids d) :
    (Body.ofRecord ids d).toNode = Ideal.nodeOf ids d := by
  cases h with
  | zero => rfl
  | succ h =>
    have : ∀ ds : List (VTree h), ids.length = ds.length →
        (List.zipWith Cell.stub ids ds : List (Live h)).map Cell.id = ids := by
      clear hn
      induction ids with
      | nil => simp
      | cons i ids ih =>
        rintro (_ | ⟨d, ds⟩) hl
        · simp at hl
        · simp only [List.zipWith_cons_cons, List.map_cons, ih ds (by simpa using hl)]
          rfl
    exact congrArg (Node.internal _ · _) (this _ hn)

lemma Body.foot_ofRecord {ids : List NodeId} {d : VTree h} (hn : Names ids d) :
    (Body.ofRecord ids d).foot = ids.zip (Ideal.stubs d) := by
  cases h with
  | zero => simp [Body.foot, Ideal.stubs]
  | succ h =>
    have : ∀ ds : List (VTree h), ids.length = ds.length →
        (List.zipWith Cell.stub ids ds : List (Live h)).flatMap Live.foot =
          ids.zip (ds.map fun e => Slot.stub ⟨h, e⟩) := by
      clear hn
      induction ids with
      | nil => simp
      | cons i ids ih =>
        rintro (_ | ⟨d, ds⟩) hl
        · simp at hl
        · simp only [List.zipWith_cons_cons, List.flatMap_cons, ih ds (by simpa using hl),
            List.map_cons, List.zip_cons_cons]
          rfl
    exact this _ hn

lemma Ideal.names_names (s : Ideal) (d : VTree h) : Names (s.names d) d := by
  cases h with
  | zero => trivial
  | succ h => exact List.length_range'

lemma Ideal.names_eq (s : Ideal) (d : VTree h) :
    s.names d = List.range' s.next (Ideal.stubs d).length := by
  cases h with
  | zero => rfl
  | succ h => simp [Ideal.names, Ideal.stubs]

lemma Stored.expand {id : NodeId} {d : VTree h} (hF : Stored s (Live.foot (Cell.stub id d))) :
    Shifts s (s.expand id d) (Live.foot (Cell.stub id d))
        (Live.foot (Cell.known id false (some d) (Body.ofRecord (s.names d) d))) ∧
      (s.expand id d).kept = s.kept := by
  obtain ⟨h₁, hk⟩ := hF.addSlots (Ideal.stubs d)
  rw [← Ideal.names_eq] at h₁
  have hp : ((s.names d).zip (Ideal.stubs d) ++ Live.foot (Cell.stub id d)).Perm
      ((id, .stub ⟨h, d⟩) :: (s.names d).zip (Ideal.stubs d)) := by
    rw [Live.foot_stub]
    exact List.perm_append_comm
  have h₂ := (h₁.stored.perm hp).put
    (.loaded (Ideal.nodeOf (s.names d) d) false (some ⟨h, d⟩))
  refine ⟨h₁.trans (h₂.perm hp.symm ?_), hk⟩
  rw [Live.foot_known, Body.toNode_ofRecord (s.names_names d), Body.foot_ofRecord (s.names_names d)]
  exact List.Perm.refl _

lemma readsBack {id : NodeId} {d : VTree h} {x : Body h} {dirty : Bool} {disk : Option (VTree h)}
    (hF : Stored s (Live.foot (Cell.known id dirty disk x))) (hr : Body.Recorded d x) :
    s.ReadsBack x.toNode ⟨h, d⟩ := by
  cases h with
  | zero =>
    obtain ⟨o, rfl⟩ := hr
    exact rfl
  | succ h =>
    induction x using Body.succCases with
    | hn ps cs b =>
      obtain ⟨o, ds, rfl, hkids⟩ := hr
      refine ⟨rfl, rfl, ?_⟩
      have hc : ∀ c ∈ cs, (s.slots c.id).bind Slot.record = c.disk.map (Sigma.mk h) := by
        intro c hc
        have hmem :
          (c.id, Live.slot c) ∈ Live.foot (Cell.known id dirty disk (Body.node ps cs b)) := by
          rw [Live.foot_known, Body.foot_node]
          exact List.mem_cons_of_mem _ (List.mem_flatMap.mpr ⟨c, hc, Live.slot_mem_foot c⟩)
        rw [hF.slots _ hmem, Option.bind_some, Live.record_slot]
      change (cs.map Cell.id).map _ = ds.map _
      have hkids' : cs.map Cell.disk = ds.map some := hkids
      calc (cs.map Cell.id).map (fun c => (s.slots c).bind Slot.record)
          = cs.map fun c => c.disk.map (Sigma.mk h) := by
            rw [List.map_map]
            exact List.map_congr_left hc
        _ = (cs.map Cell.disk).map (Option.map (Sigma.mk h)) := by simp
        _ = ds.map fun e => some ⟨h, e⟩ := by
            rw [hkids', List.map_map]
            rfl

end Load

/-- After loading, a node is known and in memory, and nothing else has changed. -/
theorem ensureLoaded_run {π : Type} {e : Engine π Ideal} {h : ℕ} {t : Live h} (pins : List NodeId)
    (hF : Stored e.store (Live.foot t)) (hS : Live.Sound (fun _ d => d.Labelled) t) :
    ∃ e' d dk x, Engine.ensureLoaded t.id pins e = .ok () e' ∧ Opens t (Cell.known t.id d dk x) ∧
      Goes pins (Live.foot t) (Live.foot (Cell.known t.id d dk x)) e e' ∧
      Resident e'.store t.id d := by
  cases t with
  | stub id d =>
    obtain ⟨h₁, hk⟩ := hF.expand
    have hs := hF.slots (id, .stub ⟨h, d⟩) (by simp)
    have h₂ := h₁.trans (h₁.stored.keep id pins)
    refine ⟨_, false, some d, _, ensureLoaded_stub hs, Opens.load id (e.store.names_names d) hS.ann,
      ⟨h₂, fun i hi hin => ?_, rfl⟩, Or.inr ?_⟩
    · exact Set.mem_insert_of_mem _ ⟨hk.symm ▸ hin, Or.inr hi⟩
    · exact Set.mem_insert _ _
  | known id d dk x =>
    have hs := hF.slots _ (Live.slot_mem_foot _)
    by_cases hd : Resident e.store id d
    · exact ⟨e, d, dk, x, ensureLoaded_resident hs hd, Opens.refl _, Goes.refl hF, hd⟩
    · have hdirty : d = false := by
        cases d with
        | false => rfl
        | true => exact absurd (Or.inl rfl) hd
      obtain ⟨r, rfl, hr⟩ := hS.2.1 hdirty
      refine ⟨_, d, some r, x, ensureLoaded_evicted hs hd (readsBack hF hr), Opens.refl _,
        ⟨hF.keep id pins, fun i hi hin => ?_, rfl⟩, Or.inr ?_⟩
      · exact Set.mem_insert_of_mem _ ⟨hin, Or.inr hi⟩
      · exact Set.mem_insert _ _

end Beetree
