import Beetree.Ideal

/-! Which slots a tree occupies, and how a run may change them.

A footprint lists slots with their names. What holds of a footprint is unaffected by whatever
happens outside it, so a run on a subtree says nothing about the rest of the tree but that it
stays. -/
namespace Beetree

abbrev Foot := List (NodeId × Slot)

namespace Foot

def ids (F : Foot) : List NodeId := F.map Prod.fst

@[simp] lemma ids_nil : ids [] = [] := rfl

@[simp] lemma ids_cons (x : NodeId × Slot) (F : Foot) : ids (x :: F) = x.1 :: ids F := rfl

@[simp] lemma ids_append (F G : Foot) : ids (F ++ G) = ids F ++ ids G := List.map_append

end Foot

/-- The slots of a footprint are as listed, under distinct allocated names. -/
structure Stored (s : Ideal) (F : Foot) : Prop where
  slots : ∀ x ∈ F, s.slots x.1 = some x.2
  bound : ∀ i ∈ F.ids, i < s.next
  nodup : F.ids.Nodup

/-- From one footprint to another, leaving everything else alone. -/
structure Shifts (s s' : Ideal) (F F' : Foot) : Prop where
  stored : Stored s' F'
  outside : ∀ j, j < s.next → j ∉ F.ids → s'.slots j = s.slots j
  next : s.next ≤ s'.next
  ids : ∀ j ∈ F'.ids, j ∈ F.ids ∨ s.next ≤ j
  gone : ∀ j < s'.next, j ∈ F.ids ∨ s.next ≤ j → j ∉ F'.ids → s'.slots j = none

section Shifts
variable {s s' s'' : Ideal} {F F' F'' G : Foot}

lemma Stored.perm (hF : Stored s F) (hp : F.Perm G) : Stored s G where
  slots x hx := hF.slots x (hp.mem_iff.mpr hx)
  bound i hi := hF.bound i ((hp.map Prod.fst).mem_iff.mpr hi)
  nodup := (hp.map Prod.fst).nodup_iff.mp hF.nodup

lemma Stored.append_iff : Stored s (F ++ G) ↔ Stored s F ∧ Stored s G ∧ F.ids.Disjoint G.ids := by
  constructor
  · intro h
    have hn := List.nodup_append'.mp (Foot.ids_append F G ▸ h.nodup)
    exact ⟨⟨fun x hx => h.slots x (by simp [hx]), fun i hi => h.bound i (by simp [hi]), hn.1⟩,
      ⟨fun x hx => h.slots x (by simp [hx]), fun i hi => h.bound i (by simp [hi]), hn.2.1⟩, hn.2.2⟩
  · rintro ⟨hF, hG, hd⟩
    refine ⟨fun x hx => ?_, fun i hi => ?_, ?_⟩
    · exact (List.mem_append.mp hx).elim (hF.slots x) (hG.slots x)
    · rw [Foot.ids_append] at hi
      exact (List.mem_append.mp hi).elim (hF.bound i) (hG.bound i)
    · rw [Foot.ids_append]
      exact List.nodup_append'.mpr ⟨hF.nodup, hG.nodup, hd⟩

lemma Shifts.refl (hF : Stored s F) : Shifts s s F F :=
  ⟨hF, fun _ _ _ => rfl, le_rfl, fun _ hj => Or.inl hj, fun _ hlt hj hn =>
    absurd hlt (not_lt.mpr (hj.resolve_left hn))⟩

lemma Shifts.trans (h₁ : Shifts s s' F F') (h₂ : Shifts s' s'' F' F'') : Shifts s s'' F F'' where
  stored := h₂.stored
  outside j hj hn := by
    rw [h₂.outside j (hj.trans_le h₁.next), h₁.outside j hj hn]
    intro hj'
    rcases h₁.ids j hj' with hj' | hj'
    · exact hn hj'
    · exact absurd hj (not_lt.mpr hj')
  next := h₁.next.trans h₂.next
  ids j hj := by
    rcases h₂.ids j hj with hj | hj
    · exact h₁.ids j hj
    · exact Or.inr (h₁.next.trans hj)
  gone j hlt hj hn := by
    by_cases hj' : j ∈ F'.ids ∨ s'.next ≤ j
    · exact h₂.gone j hlt hj' hn
    · obtain ⟨hn', hlt'⟩ := not_or.mp hj'
      rw [h₂.outside j (not_le.mp hlt') hn']
      exact h₁.gone j (not_le.mp hlt') hj hn'

lemma Shifts.perm {G' : Foot} (hs : Shifts s s' F F') (hF : F.Perm G) (hF' : F'.Perm G') :
    Shifts s s' G G' where
  stored := hs.stored.perm hF'
  outside j hj hn := hs.outside j hj fun h => hn ((hF.map Prod.fst).mem_iff.mp h)
  next := hs.next
  ids j hj := (hs.ids j ((hF'.map Prod.fst).mem_iff.mpr hj)).imp_left (hF.map Prod.fst).mem_iff.mp
  gone j hlt hj hn := hs.gone j hlt (hj.imp_left (hF.map Prod.fst).mem_iff.mpr) fun h =>
    hn ((hF'.map Prod.fst).mem_iff.mp h)

lemma Shifts.frame (hs : Shifts s s' F F') (hF : Stored s (F ++ G)) :
    Shifts s s' (F ++ G) (F' ++ G) := by
  obtain ⟨-, hG, hd⟩ := Stored.append_iff.mp hF
  refine ⟨Stored.append_iff.mpr ⟨hs.stored, ⟨fun x hx => ?_, fun i hi => ?_, hG.nodup⟩, ?_⟩, ?_,
    hs.next, ?_, ?_⟩
  · have hi : x.1 ∈ G.ids := List.mem_map_of_mem hx
    rw [hs.outside x.1 (hG.bound _ hi) fun h => hd h hi]
    exact hG.slots x hx
  · exact (hG.bound i hi).trans_le hs.next
  · intro i hi hi'
    rcases hs.ids i hi with h | h
    · exact hd h hi'
    · exact absurd (hG.bound i hi') (not_lt.mpr h)
  · intro j hj hn
    exact hs.outside j hj fun h => hn (by simp [h])
  · intro j hj
    rw [Foot.ids_append] at hj ⊢
    rcases List.mem_append.mp hj with hj | hj
    · exact (hs.ids j hj).imp_left fun h => by simp [h]
    · exact Or.inl (by simp [hj])
  · intro j hlt hj hn
    rw [Foot.ids_append, List.mem_append] at hj hn
    obtain ⟨hn', hG'⟩ := not_or.mp hn
    exact hs.gone j hlt (hj.imp_left fun h => h.resolve_right hG') hn'

lemma Shifts.frame' {H : Foot} (hs : Shifts s s' F F') (hF : Stored s (H ++ (F ++ G))) :
    Shifts s s' (H ++ (F ++ G)) (H ++ (F' ++ G)) := by
  have hp : ∀ E : Foot, (E ++ (G ++ H)).Perm (H ++ (E ++ G)) := fun E => by
    rw [← List.append_assoc]
    exact List.perm_append_comm
  exact (hs.frame (hF.perm (hp F).symm)).perm (hp F) (hp F')

lemma Stored.put {i : NodeId} {x : Slot} (y : Slot) (hF : Stored s ((i, x) :: F)) :
    Shifts s (s.put i (some y)) ((i, x) :: F) ((i, y) :: F) := by
  have hn : i ∉ F.ids := (List.nodup_cons.mp hF.nodup).1
  refine ⟨⟨fun z hz => ?_, hF.bound, hF.nodup⟩, fun j _ hj => ?_, le_rfl, fun j hj => Or.inl hj,
    fun j hlt hj hj' => absurd hlt (not_lt.mpr (hj.resolve_left hj'))⟩
  · rcases List.mem_cons.mp hz with rfl | hz
    · exact Function.update_self i (some y) s.slots
    · have : z.1 ≠ i := fun h => hn (h ▸ List.mem_map_of_mem hz)
      exact (Function.update_of_ne this _ _).trans (hF.slots z (by simp [hz]))
  · have : j ≠ i := fun h => hj (by simp [h])
    exact Function.update_of_ne this _ _

lemma Stored.release {i : NodeId} {x : Slot} (hF : Stored s ((i, x) :: F)) :
    Shifts s (s.put i none) ((i, x) :: F) F := by
  have hn : i ∉ F.ids ∧ F.ids.Nodup := List.nodup_cons.mp hF.nodup
  refine ⟨⟨fun z hz => ?_, fun j hj => hF.bound j (by simp [hj]), hn.2⟩, fun j _ hj => ?_, le_rfl,
    fun j hj => Or.inl (by simp [hj]), fun j hlt hj hj' => ?_⟩
  · have : z.1 ≠ i := fun h => hn.1 (h ▸ List.mem_map_of_mem hz)
    exact (Function.update_of_ne this _ _).trans (hF.slots z (by simp [hz]))
  · have : j ≠ i := fun h => hj (by simp [h])
    exact Function.update_of_ne this _ _
  · rcases List.mem_cons.mp (hj.resolve_right (not_le.mpr hlt)) with hji | hj
    · rw [hji]
      exact Function.update_self i none s.slots
    · exact absurd hj hj'

lemma Stored.alloc (x : Slot) (hF : Stored s F) :
    Shifts s { s.put s.next (some x) with next := s.next + 1 } F ((s.next, x) :: F) := by
  have hn : s.next ∉ F.ids := fun h => lt_irrefl _ (hF.bound _ h)
  refine ⟨⟨fun z hz => ?_, fun j hj => ?_, List.nodup_cons.mpr ⟨hn, hF.nodup⟩⟩, fun j hj _ => ?_,
    Nat.le_succ _, fun j hj => ?_, fun j hlt hj hj' => ?_⟩
  · rcases List.mem_cons.mp hz with rfl | hz
    · exact Function.update_self s.next (some x) s.slots
    · have : z.1 ≠ s.next := fun h => hn (by rw [← h]; exact List.mem_map_of_mem hz)
      exact (Function.update_of_ne this _ _).trans (hF.slots z hz)
  · rcases List.mem_cons.mp hj with rfl | hj
    · exact Nat.lt_succ_self _
    · exact (hF.bound j hj).trans (Nat.lt_succ_self _)
  · exact Function.update_of_ne hj.ne _ _
  · rcases List.mem_cons.mp hj with rfl | hj
    · exact Or.inr le_rfl
    · exact Or.inl hj
  · rw [Foot.ids_cons, List.mem_cons] at hj'
    obtain ⟨hne, hnF⟩ := not_or.mp hj'
    exact absurd (le_antisymm (Nat.le_of_lt_succ hlt) (hj.resolve_left hnF)) hne

lemma Stored.keep (id : NodeId) (pins : List NodeId) (hF : Stored s F) :
    Shifts s (s.keep id pins) F F :=
  ⟨⟨hF.slots, hF.bound, hF.nodup⟩, fun _ _ _ => rfl, le_rfl, fun _ hj => Or.inl hj,
    fun _ hlt hj hn =>
    absurd hlt (not_lt.mpr (hj.resolve_left hn))⟩

def Whole (s : Ideal) (F : Foot) : Prop := ∀ i < s.next, i ∉ F.ids → s.slots i = none

lemma Shifts.whole (hs : Shifts s s' F F') (hF : Whole s F) : Whole s' F' := by
  intro i hi hn
  by_cases hi' : i ∈ F.ids ∨ s.next ≤ i
  · exact hs.gone i hi hi' hn
  · obtain ⟨hn', hlt⟩ := not_or.mp hi'
    rw [hs.outside i (not_le.mp hlt) hn']
    exact hF i (not_le.mp hlt) hn'

end Shifts

section Slots

def Live.slot {h : ℕ} : Live h → Slot
  | Cell.known _ dirty disk x => .loaded x.toNode dirty (disk.map (Sigma.mk h))
  | Cell.stub _ d => .stub ⟨h, d⟩

def Cell.foot {D B : Type} (f : B → Foot) (s : Cell D B → Slot) : Cell D B → Foot
  | known id dirty disk x => (id, s (known id dirty disk x)) :: f x
  | stub id d => [(id, s (stub id d))]

def Body.foot {h : ℕ} (x : Body h) : Foot :=
  match h, x with
  | 0, _ => []
  | _ + 1, x => x.children.flatMap (Cell.foot foot Live.slot)

/-- The slots of a tree, a node before its children. -/
def Live.foot {h : ℕ} (t : Live h) : Foot := Cell.foot Body.foot Live.slot t

variable {h : ℕ}

@[simp] lemma Body.foot_leaf (es : Entries) : (Body.leaf es).foot = [] := rfl

@[simp] lemma Body.foot_node (ps : List Key) (cs : List (Live h)) (b : Buffer) :
    (Body.node ps cs b).foot = cs.flatMap Live.foot := rfl

@[simp] lemma Live.foot_known (id : NodeId) (dirty : Bool) (disk : Option (VTree h)) (x : Body h) :
    Live.foot (Cell.known id dirty disk x) =
      (id, .loaded x.toNode dirty (disk.map (Sigma.mk h))) :: x.foot := rfl

@[simp] lemma Live.foot_stub (id : NodeId) (d : VTree h) :
    Live.foot (Cell.stub id d) = [(id, .stub ⟨h, d⟩)] := rfl

lemma Live.slot_mem_foot (t : Live h) : (t.id, Live.slot t) ∈ Live.foot t := by
  cases t <;> simp [Live.slot, Cell.id]

lemma Live.record_slot (t : Live h) : (Live.slot t).record = t.disk.map (Sigma.mk h) := by
  cases t <;> rfl

end Slots
end Beetree
