import Beetree.Exec

/-! Running the composite steps of a cascade over the ideal store: picking and extracting,
delivering, splitting, integrating and removing. -/
namespace Beetree

section Foot
variable {π : Type} {e e' : Engine π Ideal} {h : ℕ} {pins : List NodeId} {id : NodeId} {d : Bool}
  {dk : Option (VTree (h + 1))} {ps : List Key} {cs₁ cs₂ : List (Live h)}
    {c c' : Live h} {b : Buffer}

lemma Live.foot_focus : Live.foot (Cell.known id d dk (Body.node ps (cs₁ ++ c :: cs₂) b)) =
    ((id, .loaded (.internal ps (cs₁.map Cell.id ++ c.id :: cs₂.map Cell.id) b) d
      (dk.map (Sigma.mk (h + 1)))) ::
      cs₁.flatMap Live.foot) ++ (Live.foot c ++ cs₂.flatMap Live.foot) := by
  simp

lemma Goes.child
    (hF : Stored e.store (Live.foot (Cell.known id d dk (Body.node ps (cs₁ ++ c :: cs₂) b))))
    (hid : c'.id = c.id) (hg : Goes pins (Live.foot c) (Live.foot c') e e') :
    Goes pins (Live.foot (Cell.known id d dk (Body.node ps (cs₁ ++ c :: cs₂) b)))
      (Live.foot (Cell.known id d dk (Body.node ps (cs₁ ++ c' :: cs₂) b))) e e' := by
  rw [Live.foot_focus] at hF
  rw [Live.foot_focus, Live.foot_focus, hid]
  exact hg.frame hF

lemma Stored.child
    (hF : Stored e.store (Live.foot (Cell.known id d dk (Body.node ps (cs₁ ++ c :: cs₂) b)))) :
    Stored e.store (Live.foot c) := by
  rw [Live.foot_focus] at hF
  exact (Stored.append_iff.mp (Stored.append_iff.mp hF).2.1).1

lemma Stored.top {h : ℕ} {t : Live h} (hF : Stored e.store (Live.foot t)) :
    e.store.slots t.id = some (Live.slot t) :=
  hF.slots _ (Live.slot_mem_foot t)

lemma loaded_known {h : ℕ} {dk : Option (VTree h)} {x : Body h}
    (hF : Stored e.store (Live.foot (Cell.known id d dk x))) (hd : Resident e.store id d) :
    Engine.loaded id e = .ok x.toNode e := loaded_run hF.top hd

lemma mutate_foot {n n' : Node} {r : Option Record} {F : Foot} {f : Node → Option Node}
    (pins : List NodeId) (hF : Stored e.store ((id, .loaded n d r) :: F))
    (hd : Resident e.store id d)
    (hf : f n = some n') :
    ∃ e', Engine.mutate id f e = .ok n' e' ∧
      Goes pins ((id, .loaded n d r) :: F) ((id, .loaded n' true r) :: F) e e' :=
  ⟨_, mutate_run (hF.slots _ (List.mem_cons_self ..)) hd hf, Goes.of_shifts pins (hF.put _) rfl⟩

lemma mutate_known {h : ℕ} {dk : Option (VTree h)} {x y : Body h} {f : Node → Option Node}
    (pins : List NodeId) (hF : Stored e.store (Live.foot (Cell.known id d dk x)))
    (hd : Resident e.store id d)
    (hf : f x.toNode = some y.toNode) (hfoot : x.foot = y.foot) :
    ∃ e', Engine.mutate id f e = .ok y.toNode e' ∧
      Goes pins (Live.foot (Cell.known id d dk x)) (Live.foot (Cell.known id true dk y)) e e' := by
  rw [Live.foot_known] at hF
  rw [Live.foot_known, Live.foot_known, ← hfoot]
  exact mutate_foot pins hF hd hf

end Foot

section Pick
variable {π : Type} {e : Engine π Ideal}

lemma mapM_run {α β : Type} {f : α → Engine.Act π Ideal β} {g : α → β} {l : List α}
    (hf : ∀ x ∈ l, f x e = .ok (g x) e) : l.mapM f e = .ok (l.map g) e := by
  induction l with
  | nil => rfl
  | cons x l ih =>
    rw [List.mapM_cons, Engine.run_bind (hf x (by simp)),
      Engine.run_bind (ih fun y hy => hf y (by simp [hy]))]
    rfl

section Choose
variable [FlushPolicy π] {h : ℕ} {id : NodeId} {d : Bool}
    {dk : Option (VTree (h + 1))} {ps : List Key}
  {cs : List (Live h)} {b : Buffer}

lemma chooseChild_run (hπ : FlushPolicy.Legal π)
    (hF : Stored e.store (Live.foot (Cell.known id d dk (Body.node ps cs b))))
    (depth : ℕ) (mode : Bool)
    {occ : List ℕ} (hpos : ∃ i, 0 < occ.getD i 0) :
    ∃ chosen p, 0 < occ.getD chosen 0 ∧
      Engine.chooseChild id depth mode ps (cs.map Cell.id) b occ e = .ok chosen
        { e with policy := p } := by
  cases mode with
  | false => exact ⟨_, e.policy, GreedyFullest.pick_pos hpos, rfl⟩
  | true =>
    have hdirty : ∀ i ∈ cs.map Cell.id, Engine.isDirty i e =
        .ok (((e.store.slots i).map Slot.dirty).getD false) e := by
      intro i hi
      obtain ⟨c, hc, rfl⟩ := List.mem_map.mp hi
      have hmem : (c.id, Live.slot c) ∈ Live.foot (Cell.known id d dk (Body.node ps cs b)) := by
        rw [Live.foot_known, Body.foot_node]
        exact List.mem_cons_of_mem _ (List.mem_flatMap.mpr ⟨c, hc, Live.slot_mem_foot c⟩)
      rw [isDirty_run (hF.slots _ hmem), hF.slots _ hmem]
      rfl
    unfold Engine.chooseChild
    rw [if_pos rfl, Engine.run_bind (mapM_run hdirty), Engine.run_bind Engine.run_get]
    refine ⟨_, _, ?_, rfl⟩
    exact hπ e.policy {
      node := id
      depth := depth
      childPending := occ
      childPendingBytes := _
      childDirty := _
      bufferTotal := _
      opsSinceCommit := _ } hpos

end Choose

/-- The chosen child gets every message it owns, and there is one at least. -/
def PickSpec (pick : Engine.Pick π Ideal) : Prop :=
  ∀ ⦃e : Engine π Ideal⦄ ⦃h : ℕ⦄ ⦃id : NodeId⦄ ⦃d : Bool⦄ ⦃dk : Option (VTree (h + 1))⦄
    ⦃ps : List Key⦄ ⦃cs : List (Live h)⦄ ⦃b : Buffer⦄,
    Stored e.store (Live.foot (Cell.known id d dk (Body.node ps cs b))) →
    Resident e.store id d → ps.Pairwise (· < ·) → cs.length = ps.length + 1 → 0 < b.size →
    ∀ (depth : ℕ) (mode : Bool) (pins : List NodeId),
    ∃ (ps₁ ps₂ : List Key) (cs₁ : List (Live h)) (c : Live h) (cs₂ : List (Live h)) (occ : List ℕ)
      (e' : Engine π Ideal), ps = ps₁ ++ ps₂ ∧ cs = cs₁ ++ c :: cs₂ ∧ ps₁.length = cs₁.length ∧
      pick id depth mode e = .ok (ps₁.length, c.id, occ, b.filter (owns ps₁ ps₂ ·)) e' ∧
      0 < (b.filter (owns ps₁ ps₂ ·)).size ∧
      Goes pins (Live.foot (Cell.known id d dk (Body.node ps cs b)))
        (Live.foot (Cell.known id true dk (Body.node ps cs (b.filter (¬ owns ps₁ ps₂ ·))))) e e'

theorem pickAndExtract_run [FlushPolicy π] (hπ : FlushPolicy.Legal π) :
    PickSpec (Engine.pickAndExtract : Engine.Pick π Ideal) := by
  intro e h id d dk ps cs b hF hd hs hl hb depth mode pins
  have hpos : ∃ i, 0 < (occupancies ps cs.length b).getD i 0 := by
    rw [hl]
    exact exists_occupied hs hb
  obtain ⟨chosen, p, hchosen, hrun⟩ := chooseChild_run hπ hF depth mode hpos
  obtain ⟨hlt, k, m, hk, hroute⟩ := occupied hchosen
  have hps : ps = ps.take chosen ++ ps.drop chosen := (List.take_append_drop _ _).symm
  have hlen : (ps.take chosen).length = chosen := by
    rw [List.length_take]
    omega
  have hextract : extract ps chosen b = some (b.filter (owns (ps.take chosen) (ps.drop chosen) ·),
      b.filter (¬ owns (ps.take chosen) (ps.drop chosen) ·)) := by
    have := extract_eq (hps ▸ hs) b
    rwa [hlen, ← hps] at this
  have howns : owns (ps.take chosen) (ps.drop chosen) k := by
    rw [← owns_of_route (hps ▸ hs), ← hps, hlen]
    exact hroute
  have hF' : Stored ({ e with policy := p } : Engine π Ideal).store
      (Live.foot (Cell.known id d dk (Body.node ps cs b))) := hF
  obtain ⟨e', hmut, hgo⟩ := mutate_known (y := Body.node ps cs
    (b.filter (¬ owns (ps.take chosen) (ps.drop chosen) ·)))
    (f := Node.setBuffer (b.filter (¬ owns (ps.take chosen) (ps.drop chosen) ·)))
      pins hF' hd rfl rfl
  refine ⟨_, _, cs.take chosen, cs[chosen], cs.drop (chosen + 1), occupancies ps cs.length b, e',
    hps, by simp, ?_, ?_, ?_,
    ⟨hgo.shifts, hgo.kept, hgo.fixed⟩⟩
  · rw [hlen, List.length_take]
    omega
  · have hany : b.toList.any (fun x => decide (cs.length ≤ route ps x.1)) = false := by
      rw [List.any_eq_false]
      intro x _
      have := route_le hs x.1
      simp only [decide_eq_true_eq, not_le]
      omega
    have hget : (cs.map Cell.id)[chosen]? = some cs[chosen].id := by
      rw [List.getElem?_map, List.getElem?_eq_getElem hlt]
      rfl
    have hload : Engine.loaded id e = .ok (Node.internal ps (cs.map Cell.id) b) e :=
      loaded_run hF.top hd
    rw [hlen]
    unfold Engine.pickAndExtract
    rw [Engine.run_bind hload]
    simp only [List.length_map, hany, Bool.false_eq_true, if_false]
    rw [Engine.run_bind hrun, if_neg hchosen.ne']
    simp only [hextract, hget]
    rw [Engine.run_bind hmut]
    rfl
  · exact OrdMap.size_pos_iff.mpr ⟨k, m, by simpa [howns] using hk⟩

end Pick

section Deliver
variable {π : Type} {e : Engine π Ideal} {h : ℕ} {c : Live h} {pins : List NodeId}

def Body.delivery (thr : ℕ) {h : ℕ} (x : Body h) : Delivery :=
  match h, x with
  | 0, es => .leaf (OrdMap.isEmpty es)
  | _ + 1, x => .internal (decide (thr < x.buffer.size))

lemma Body.toNode_receive (batch : Buffer) (x : Body h) :
    (x.receive batch).toNode = x.toNode.receive batch := by
  cases h <;> rfl

lemma Body.foot_receive (batch : Buffer) (x : Body h) : (x.receive batch).foot = x.foot := by
  cases h <;> rfl

/-- A delivery loads the child, which then holds the batch. -/
theorem applyBatch_run (pins : List NodeId) (batch : Buffer) (thr : ℕ)
    (hF : Stored e.store (Live.foot c))
    (hS : Live.Sound (fun _ d => d.Labelled) c) :
    ∃ e' d dk x, Engine.applyBatch c.id batch pins thr e = .ok ((x.receive batch).delivery thr) e' ∧
      Opens c (Cell.known c.id d dk x) ∧
      Goes pins (Live.foot c) (Live.foot (Cell.known c.id true dk (x.receive batch))) e e' := by
  obtain ⟨e₁, d, dk, x, hrun, hopen, hgo, hres⟩ := ensureLoaded_run pins hF hS
  obtain ⟨e₂, hmut, hgo'⟩ := mutate_known (y := x.receive batch)
    (f := fun n => some (n.receive batch)) pins hgo.stored hres
    (by rw [Body.toNode_receive]) (Body.foot_receive batch x).symm
  refine ⟨e₂, d, dk, x, ?_, hopen, hgo.trans hgo'⟩
  unfold Engine.applyBatch
  rw [Engine.run_bind hrun, Engine.run_bind hmut]
  cases h <;> rfl

end Deliver

section Split
variable {π : Type} {e : Engine π Ideal} {h : ℕ} {id : NodeId} {d : Bool} {dk : Option (VTree h)}
  {x : Body h} {pins : List NodeId}

lemma allocPieces_run (pins : List NodeId) {F : Foot} (xs : List (Body h)) (ps : List Key)
    (hl : ps.length = xs.length)
    (hF : Stored e.store (F ++ xs.flatMap Body.foot)) :
    ∃ e' ids, Engine.allocPieces (ps.zip (xs.map Body.toNode)) e = .ok (ps.zip ids) e' ∧
      ids.length = xs.length ∧
      Goes pins (F ++ xs.flatMap Body.foot) (F ++ (freshCells ids xs).flatMap Live.foot) e e' := by
  induction xs generalizing ps F e with
  | nil =>
    obtain rfl : ps = [] := by simpa using hl
    exact ⟨e, [], rfl, rfl, Goes.refl hF⟩
  | cons x xs ih =>
    match ps, hl with
    | p :: ps, hl =>
      have h₁ := hF.alloc (.loaded x.toNode true none)
      have hp :
        ((e.store.next, Slot.loaded x.toNode true none) :: (F ++ (x :: xs).flatMap Body.foot)).Perm
          ((F ++ Live.foot (Cell.known e.store.next true none x)) ++ xs.flatMap Body.foot) := by
        rw [Live.foot_known, List.flatMap_cons, List.append_assoc, List.cons_append]
        exact List.perm_middle.symm
      have hgo : Goes pins (F ++ (x :: xs).flatMap Body.foot)
          ((F ++ Live.foot (Cell.known e.store.next true none x)) ++ xs.flatMap Body.foot) e _ :=
        Goes.of_shifts pins (h₁.perm (List.Perm.refl _) hp) rfl
      obtain ⟨e', ids, hrun, hids, hgo'⟩ := ih ps (by simpa using hl) hgo.stored
      refine ⟨e', e.store.next :: ids, ?_, by simp [hids], ?_⟩
      · simp only [List.map_cons, List.zip_cons_cons, Engine.allocPieces]
        rw [Engine.run_bind (alloc_run x.toNode), Engine.run_bind hrun]
        rfl
      · have hg := hgo.trans hgo'
        rw [List.append_assoc] at hg
        exact hg

/-- A node within its capacity: a leaf of one to `L` entries, or a node of one to `F` children. -/
def Body.Fits (prm : Params) {h : ℕ} (x : Body h) : Prop :=
  match h, x with
  | 0, es => 0 < OrdMap.size es ∧ OrdMap.size es ≤ prm.leafCapacity.toNat
  | _ + 1, x => 0 < x.kids.length ∧ x.kids.length ≤ prm.fanout.toNat

/-- An internal node has more children than the given number. -/
def Body.Wide {h : ℕ} (x : Body h) (n : ℕ) : Prop :=
  match h, x with
  | 0, _ => True
  | _ + 1, x => n < x.kids.length

lemma splitLeaf_run (hprm : e.params.Legal) {dk : Option (VTree 0)} {es : Entries}
    (hF : Stored e.store (Live.foot (Cell.known id d dk (Body.leaf es))))
    (hd : Resident e.store id d)
    (hes : 0 < es.size) :
    ∃ e' ps y xs ids, Engine.splitLeaf id e = .ok (ps.zip ids) e' ∧ ps.length = xs.length ∧
      ids.length = xs.length ∧ Body.Pieces (Body.leaf es) ps (y :: xs) ∧
      (∀ z ∈ y :: xs, z.Fits e.params) ∧
      Goes pins (Live.foot (Cell.known id d dk (Body.leaf es)))
        (Live.foot (Cell.known id true dk y) ++ (freshCells ids xs).flatMap Live.foot) e e' := by
  obtain ⟨hsum, hne, hsz⟩ := partitionSizes_spec hprm.2.2 (show 1 ≤ es.size from hes)
  obtain ⟨ps, y, xs, hp, hlen, hpieces, hmap, hmem⟩ :=
    leafPieces_spec hne (fun s hs => (hsz s hs).1) hsum
  obtain ⟨e₁, hm₁, hg₁⟩ := mutate_known (y := Body.leaf OrdMap.empty)
    (f := Node.setEntries OrdMap.empty)
    pins hF hd rfl rfl
  obtain ⟨e₂, hm₂, hg₂⟩ := mutate_known (y := Body.leaf y) (f := Node.setEntries y)
    pins hg₁.stored (Or.inl rfl) rfl rfl
  have hfoot : (xs.map Body.leaf).flatMap Body.foot = [] := by
    simp [List.flatMap_map]
  have hF₂ : Stored e₂.store (Live.foot (Cell.known id true dk (Body.leaf y)) ++
      (xs.map Body.leaf).flatMap Body.foot) := by
    rw [hfoot, List.append_nil]
    exact hg₂.stored
  obtain ⟨e₃, ids, hrun, hids, hg₃⟩ := allocPieces_run pins (xs.map Body.leaf) ps
    (by simpa using hlen) hF₂
  refine ⟨e₃, ps, Body.leaf y, xs.map Body.leaf, ids, ?_, by simpa using hlen, hids,
    hpieces, ?_, ?_⟩
  · have hfix : e₁.params = e.params := congrArg Prod.fst hg₁.fixed
    have hnodes : xs.map Node.leaf = (xs.map Body.leaf).map Body.toNode := by
      rw [List.map_map]
      rfl
    have hload : Engine.loaded id e = .ok (Node.leaf es) e := loaded_run hF.top hd
    unfold Engine.splitLeaf
    rw [Engine.run_bind hload]
    simp only
    rw [Engine.run_bind hm₁, Engine.run_bind Engine.run_get, hfix]
    simp only [hp]
    rw [Engine.run_bind hm₂]
    simp only [hmap, hnodes]
    exact hrun
  · intro z hz
    rw [show Body.leaf y :: xs.map Body.leaf = (y :: xs).map Body.leaf from rfl] at hz
    obtain ⟨w, hw, rfl⟩ := List.mem_map.mp hz
    exact hsz _ (hmem w hw)
  · rw [hfoot, List.append_nil] at hg₃
    exact hg₁.trans (hg₂.trans hg₃)

lemma splitInternal_run (hprm : e.params.Legal) {h : ℕ}
    {dk : Option (VTree (h + 1))} {ps : List Key}
    {cs : List (Live h)} {b : Buffer}
    (hF : Stored e.store (Live.foot (Cell.known id d dk (Body.node ps cs b))))
    (hd : Resident e.store id d)
    (hs : ps.Pairwise (· < ·)) (hl : cs.length = ps.length + 1) :
    ∃ e' qs y xs ids, Engine.splitInternal id e = .ok (qs.zip ids) e' ∧ qs.length = xs.length ∧
      ids.length = xs.length ∧ Body.Pieces (Body.node ps cs b) qs (y :: xs) ∧
      (∀ z ∈ y :: xs, z.Fits e.params) ∧ (2 ≤ cs.length → xs.length + 1 < cs.length) ∧
      Goes pins (Live.foot (Cell.known id d dk (Body.node ps cs b)))
        (Live.foot (Cell.known id true dk y) ++ (freshCells ids xs).flatMap Live.foot) e e' := by
  have hf : 1 ≤ e.params.fanout.toNat := le_trans (by norm_num) hprm.1
  obtain ⟨hsum, hne, hsz⟩ := partitionSizes_spec hf (show 1 ≤ cs.length by omega)
  obtain ⟨qs, y, xs, hlen, hpieces, hrunp, hsizes⟩ :=
    internalPieces_spec (b := b) hne (fun s hs => (hsz s hs).1) hs hl hsum
  have hload : Engine.loaded id e = .ok (Node.internal ps (cs.map Cell.id) b) e :=
    loaded_run hF.top hd
  obtain ⟨e₁, hm₁, hg₁⟩ :=
    mutate_foot (f := Node.setInternal (.internal [] [] OrdMap.empty)) pins hF hd rfl
  obtain ⟨e₂, hm₂, hg₂⟩ := mutate_foot (f := Node.setInternal y.toNode) pins hg₁.stored
    (Or.inl rfl) rfl
  have hkids : (Body.node ps cs b).foot = y.foot ++ xs.flatMap Body.foot := by
    have := hpieces.kids
    change cs.flatMap Live.foot = _
    rw [show cs = (y :: xs).flatMap Body.kids from this.symm, List.flatMap_cons,
      List.flatMap_append,
      List.flatMap_assoc]
    rfl
  rw [hkids, ← List.cons_append, ← List.cons_append] at hg₂
  obtain ⟨e₃, ids, hrun, hids, hg₃⟩ := allocPieces_run pins xs qs hlen hg₂.stored
  refine ⟨e₃, qs, y, xs, ids, ?_, hlen, hids, hpieces, ?_, ?_, ?_⟩
  · have hfix : e₁.params = e.params := congrArg Prod.fst hg₁.fixed
    unfold Engine.splitInternal
    rw [Engine.run_bind hload]
    simp only
    rw [Engine.run_bind hm₁, Engine.run_bind Engine.run_get, hfix, List.length_map]
    simp only [hrunp]
    rw [Engine.run_bind hm₂]
    exact hrun
  · intro z hz
    exact hsz _ (hsizes ▸ List.mem_map_of_mem hz)
  · intro h2
    have := partitionSizes_length hprm.1 h2
    rwa [← hsizes, List.length_map] at this
  · have hg := hg₂.trans hg₃
    rw [List.cons_append, ← hkids] at hg
    exact hg₁.trans hg

lemma Body.Good.pivots {lo hi : Option Key} {p : Bool} {ps : List Key}
    {cs : List (Live h)} {b : Buffer}
    (hg : (Body.node ps cs b).Good p lo hi) (hne : cs ≠ []) :
    ps.Pairwise (· < ·) ∧ cs.length = ps.length + 1 :=
  ⟨(kids_good_of_node hg hne).sorted, (kids_good_of_node hg hne).length⟩

/-- The result of splitting a node: pieces that fit, the first in place and the others new. A node
that is not cut stays as it is. -/
def SplitDone (pins : List NodeId) (e : Engine π Ideal) (id : NodeId) (d : Bool)
    (dk : Option (VTree h))
    (x : Body h) (r : EStateM.Result Fault (Engine π Ideal) (List (Key × NodeId))) : Prop :=
  ∃ e' ps y xs ids d', r = .ok (ps.zip ids) e' ∧ ps.length = xs.length ∧ ids.length = xs.length ∧
    Body.Pieces x ps (y :: xs) ∧ (∀ z ∈ y :: xs, z.Fits e.params) ∧
      (d' = if xs = [] then d else true) ∧
    (xs ≠ [] → x.Wide (xs.length + 1)) ∧
    Goes pins (Live.foot (Cell.known id d dk x))
      (Live.foot (Cell.known id d' dk y) ++ (freshCells ids xs).flatMap Live.foot) e e'

lemma splitDone_stay (pins : List NodeId) (hF : Stored e.store (Live.foot (Cell.known id d dk x)))
    (hfit : x.Fits e.params) : SplitDone pins e id d dk x (.ok [] e) := by
  refine ⟨e, [], x, [], [], d, rfl, rfl, rfl, Body.Pieces.one x, by simpa using hfit,
    by simp, by simp, ?_⟩
  simpa [freshCells] using Goes.refl hF

lemma splitDone_cut {e' : Engine π Ideal} {ps : List Key} {y : Body h} {xs : List (Body h)}
    {ids : List NodeId} {r : EStateM.Result Fault (Engine π Ideal) (List (Key × NodeId))}
    (hr : r = .ok (ps.zip ids) e') (hps : ps.length = xs.length) (hids : ids.length = xs.length)
    (hp : Body.Pieces x ps (y :: xs)) (hf : ∀ z ∈ y :: xs, z.Fits e.params)
    (hover : ¬ x.Fits e.params)
    (hw : x.Wide (xs.length + 1))
    (hg : Goes pins (Live.foot (Cell.known id d dk x))
      (Live.foot (Cell.known id true dk y) ++ (freshCells ids xs).flatMap Live.foot) e e') :
    SplitDone pins e id d dk x r := by
  have hne : xs ≠ [] := by
    rintro rfl
    obtain rfl : ps = [] := by simpa using hps
    cases hp
    exact hover (hf _ (by simp))
  exact ⟨e', ps, y, xs, ids, true, hr, hps, hids, hp, hf, by simp [hne], fun _ => hw, hg⟩

/-- A node over capacity is cut into pieces that fit; one within capacity is left alone. -/
theorem splitIfNeeded_run (pins : List NodeId) (hprm : e.params.Legal)
    (hF : Stored e.store (Live.foot (Cell.known id d dk x))) (hd : Resident e.store id d)
    {lo hi : Option Key} (hg : x.Good false lo hi) (hv : ¬ x.Vacant) :
    SplitDone pins e id d dk x (Engine.splitIfNeeded id e) := by
  have hload : Engine.loaded id e = .ok x.toNode e := loaded_run hF.top hd
  unfold Engine.splitIfNeeded
  rw [Engine.run_bind hload]
  cases h with
  | zero =>
    induction x using Body.zeroCases with
    | hl es =>
      have hpos : 0 < es.size := Nat.pos_of_ne_zero fun h0 => hv (OrdMap.size_eq_zero.mp h0)
      simp only [Body.toNode_leaf]
      rw [Engine.run_bind Engine.run_get]
      split_ifs with hlt
      · obtain ⟨e', ps, y, xs, ids, hrun, h₁, h₂, h₃, h₄, h₅⟩ := splitLeaf_run hprm hF hd hpos
        exact splitDone_cut hrun h₁ h₂ h₃ h₄ (fun hf => not_le.mpr hlt hf.2) trivial h₅
      · exact splitDone_stay pins hF ⟨hpos, not_lt.mp hlt⟩
  | succ h =>
    induction x using Body.succCases with
    | hn ps cs b =>
      have hne : cs ≠ [] := hv
      obtain ⟨hs, hl⟩ := hg.pivots hne
      simp only [Body.toNode_node, List.length_map]
      rw [Engine.run_bind Engine.run_get]
      split_ifs with hlt
      · obtain ⟨e', qs, y, xs, ids, hrun, h₁, h₂, h₃, h₄, hw, h₅⟩ :=
          splitInternal_run hprm hF hd hs hl
        exact splitDone_cut hrun h₁ h₂ h₃ h₄ (fun hf => not_le.mpr hlt hf.2)
          (hw (hprm.1.trans hlt.le)) h₅
      · exact splitDone_stay pins hF ⟨List.length_pos_of_ne_nil hne, not_lt.mp hlt⟩

end Split

section Absorb
variable {π : Type} {e : Engine π Ideal} {h : ℕ} {id cid : NodeId} {d cd : Bool}
  {dk : Option (VTree (h + 1))} {cdk : Option (VTree h)} {ps₁ ps₂ : List Key}
    {cs₁ cs₂ : List (Live h)}
  {x : Body h} {b : Buffer}

/-- Capacities below a node, its own fanout or leaf size aside. -/
def Body.KidsRest (prm : Params) {h : ℕ} (x : Body h) : Prop :=
  match h, x with
  | 0, _ => True
  | _ + 1, x => x.buffer.size ≤ prm.bufferCapacity.toNat ∧ ∀ c ∈ x.kids, (Live.plain c).Rest prm

lemma Body.KidsRest.rest {prm : Params} {x : Body h} (hx : x.KidsRest prm)
    (hf : x.Fits prm) (d : Bool) :
    (x.plain d).Rest prm := by
  cases h with
  | zero => exact hf
  | succ h =>
    induction x using Body.succCases with
    | hn ps cs b =>
      rw [Body.plain_node, Tree.rest_node, List.length_map]
      refine ⟨hx.1, hf.1, hf.2, fun c hc => ?_⟩
      obtain ⟨c, hc', rfl⟩ := List.mem_map.mp hc
      exact hx.2 c hc'

lemma Body.Pieces.kidsRest {prm : Params} {x : Body h} {ps : List Key} {xs : List (Body h)}
    (hp : Body.Pieces x ps xs) (hx : x.KidsRest prm) : ∀ y ∈ xs, y.KidsRest prm := by
  induction hp with
  | one x => simpa using hx
  | @cut s x l r ps xs hc _ ih =>
    cases h with
    | zero => exact fun _ _ => trivial
    | succ h =>
      obtain ⟨-, hcs, -, hbl, hbr⟩ := hc
      obtain ⟨hb, hk⟩ := hx
      have hk' : ∀ c ∈ l.children ++ r.children, (Live.plain c).Rest prm := hcs ▸ hk
      intro y hy
      rcases List.mem_cons.mp hy with rfl | hy
      · refine ⟨?_, fun c hc => hk' c (List.mem_append_left _ hc)⟩
        rw [hbl]
        exact (OrdMap.size_filter_le _ _).trans hb
      · refine ih ⟨?_, fun c hc => hk' c (List.mem_append_right _ hc)⟩ y hy
        rw [hbr]
        exact (OrdMap.size_filter_le _ _).trans hb

structure SplitOf (prm : Params) (x : Body h) (c : Live h) : Prop where
  rest : x.KidsRest prm → (Live.plain c).Rest prm
  quiet : (x.plain true).Quiet → (Live.plain c).Quiet

lemma splitOf_piece {prm : Params} {ps : List Key} {xs : List (Body h)} (hp : Body.Pieces x ps xs)
    (hf : ∀ z ∈ xs, z.Fits prm) {z : Body h} (hz : z ∈ xs) {id : NodeId} {d : Bool}
    {dk : Option (VTree h)} : SplitOf prm x (Cell.known id d dk z) :=
  ⟨fun hx => (hp.kidsRest hx z hz).rest (hf z hz) d,
    fun hx => Body.quiet_plain.mp (hp.quiet hx z hz)⟩

lemma ids_freshCells {ids : List NodeId} {xs : List (Body h)} (hl : ids.length = xs.length) :
    (freshCells ids xs).map Cell.id = ids := by
  induction xs generalizing ids with
  | nil =>
    obtain rfl : ids = [] := by simpa using hl
    rfl
  | cons x xs ih =>
    match ids, hl with
    | i :: ids, hl =>
      rw [freshCells_cons, List.map_cons, ih (by simpa using hl)]
      rfl

/-- Splitting a child, if need be, and handing the pieces to the parent. -/
theorem integrate_run {pins : List NodeId} (hpin : id ∈ pins) (hprm : e.params.Legal)
    (hl : ps₁.length = cs₁.length)
    (hF : Stored e.store
      (Live.foot
        (Cell.known id d dk (Body.node (ps₁ ++ ps₂) (cs₁ ++ Cell.known cid cd cdk x :: cs₂) b))))
    (hd : Resident e.store id d) (hcd : Resident e.store cid cd) {lo hi : Option Key}
    (hg : (Body.node (ps₁ ++ ps₂) (cs₁ ++ Cell.known cid cd cdk x :: cs₂) b).Good false lo hi)
    (hv : ¬ x.Vacant) :
    ∃ promoted e₁ e' d' ps cells, Engine.splitIfNeeded cid e = .ok promoted e₁ ∧
      Engine.integrateSplits id promoted e₁ = .ok () e' ∧ cells ≠ [] ∧
      (∀ c ∈ cells, SplitOf e.params x c) ∧
      Leads false
        (Cell.known id d dk (Body.node (ps₁ ++ ps₂) (cs₁ ++ Cell.known cid cd cdk x :: cs₂) b))
        (Cell.known id d' dk (Body.node (ps₁ ++ ps ++ ps₂) (cs₁ ++ cells ++ cs₂) b)) ∧
      Goes pins
        (Live.foot
          (Cell.known id d dk (Body.node (ps₁ ++ ps₂) (cs₁ ++ Cell.known cid cd cdk x :: cs₂) b)))
        (Live.foot (Cell.known id d' dk (Body.node (ps₁ ++ ps ++ ps₂) (cs₁ ++ cells ++ cs₂) b))) e
          e' := by
  obtain ⟨m, m', hc, -, -⟩ := (kids_good_of_node hg (by simp)).focus hl
  obtain ⟨e₁, ps, y, xs, ids, cd', hrun, hlen, hids, hp, hfit, hcase, -, hgo⟩ :=
    splitIfNeeded_run pins hprm hF.child hcd hc.1 hv
  have hsplit : ∀ c ∈ (Cell.known cid cd' cdk y :: freshCells ids xs : List (Live h)),
      SplitOf e.params x c := by
    intro c hc
    rcases List.mem_cons.mp hc with rfl | hc
    · exact splitOf_piece hp hfit (by simp)
    · obtain ⟨i, -, z, hz, rfl⟩ := mem_freshCells hc
      exact splitOf_piece hp hfit (by simp [hz])
  have hgo₁ := hgo.frame (Live.foot_focus ▸ hF)
  refine ⟨ps.zip ids, e₁, ?_⟩
  cases xs with
  | nil =>
    obtain rfl : ps = [] := by simpa using hlen
    obtain rfl : ids = [] := by simpa using hids
    obtain rfl : y = x := by
      cases hp
      rfl
    obtain rfl : cd' = cd := by simpa using hcase
    refine ⟨e₁, d, [], [Cell.known cid cd' cdk y], hrun, rfl, by simp, ?_, ?_, ?_⟩
    · simpa [freshCells] using hsplit
    · simpa using Leads.refl false _
    · simpa [freshCells] using hgo₁
  | cons z xs =>
    obtain rfl : cd' = true := by simpa using hcase
    have hne : (ps.zip ids).isEmpty = false := by
      obtain ⟨p, ps, rfl⟩ := List.exists_cons_of_length_eq_add_one hlen
      obtain ⟨i, ids, rfl⟩ := List.exists_cons_of_length_eq_add_one hids
      rfl
    have hd₁ : Resident e₁.store id d := hd.imp_right (hgo.kept id hpin)
    -- the parent is dirtied first, so that nothing dirty appears below a clean node
    have hlead : Leads false
        (Cell.known id d dk (Body.node (ps₁ ++ ps₂) (cs₁ ++ Cell.known cid cd cdk x :: cs₂) b))
        (Cell.known id true dk (Body.node (ps₁ ++ ps ++ ps₂)
          (cs₁ ++ (Cell.known cid true cdk y :: freshCells ids (z :: xs)) ++ cs₂) b)) :=
      (Leads.touch false id d dk _).trans (((Leads.touch false cid cd cdk x).within hl
        (Or.inr (Or.inl rfl))).trans (Turns.split hl hp hids).leads)
    have hsorted : (ps₁ ++ ps ++ ps₂).Pairwise (· < ·) := by
      have hg' := (hlead.good false lo hi ⟨hg, by simp⟩).1.1
      exact (hg'.pivots (by simp)).1
    have hint : Node.integrate (ps.zip ids) (.internal (ps₁ ++ ps₂)
        (cs₁.map Cell.id ++ cid :: cs₂.map Cell.id) b) = some (Body.node (ps₁ ++ ps ++ ps₂)
          (cs₁ ++ (Cell.known cid true cdk y :: freshCells ids (z :: xs)) ++ cs₂) b).toNode := by
      simp only [Node.integrate,
        integrate_eq (show ps₁.length = (cs₁.map Cell.id).length by simpa using hl)
        (hlen.trans hids.symm) hsorted, Option.map_some, Body.toNode_node, List.map_append,
        List.map_cons, ids_freshCells hids]
      rfl
    obtain ⟨e', hmut, hgo₂⟩ := mutate_foot pins hgo₁.stored hd₁ hint
    refine ⟨e', true, ps, Cell.known cid true cdk y :: freshCells ids (z :: xs), hrun, ?_,
      by simp, hsplit,
      hlead, ?_⟩
    · simp only [Engine.integrateSplits, hne, Bool.false_eq_true, if_false]
      rw [Engine.run_bind hmut]
      rfl
    · have hgo := hgo₁.trans hgo₂
      rw [← Live.foot_focus] at hgo
      refine hgo.perm (List.Perm.refl _) (List.Perm.of_eq ?_)
      simp

/-- Unlinking a vacant child that was just emptied. -/
theorem removeChild_run (pins : List NodeId) (hl : ps₁.length = cs₁.length)
    (hF : Stored e.store
      (Live.foot
        (Cell.known id d dk (Body.node (ps₁ ++ ps₂) (cs₁ ++ Cell.known cid true cdk x :: cs₂) b))))
    (hd : Resident e.store id d) (hv : x.Vacant) (hb : ∀ k, owns ps₁ ps₂ k → b.get? k = none) :
    ∃ e', Engine.removeChild id cid e = .ok () e' ∧
      Leads false
        (Cell.known id d dk (Body.node (ps₁ ++ ps₂) (cs₁ ++ Cell.known cid true cdk x :: cs₂) b))
        (Cell.known id true dk (Body.node (dropPivot ps₁ ps₂) (cs₁ ++ cs₂) b)) ∧
      Goes pins
        (Live.foot
          (Cell.known id d dk (Body.node (ps₁ ++ ps₂) (cs₁ ++ Cell.known cid true cdk x :: cs₂) b)))
        (Live.foot (Cell.known id true dk (Body.node (dropPivot ps₁ ps₂) (cs₁ ++ cs₂) b))) e
          e' := by
  have hnot : cid ∉ cs₁.map Cell.id := by
    intro hmem
    obtain ⟨c, hc, hcid⟩ := List.mem_map.mp hmem
    have hF' := hF
    rw [Live.foot_focus] at hF'
    have hleft : cid ∈ Foot.ids (cs₁.flatMap Live.foot) := by
      rw [← hcid]
      exact List.mem_map_of_mem (List.mem_flatMap.mpr ⟨c, hc, Live.slot_mem_foot c⟩)
    exact (Stored.append_iff.mp hF').2.2 (List.mem_cons_of_mem _ hleft) (List.mem_cons_self ..)
  have hfoot : x.foot = [] := by
    cases h with
    | zero => rfl
    | succ h =>
      have : x.children = [] := hv
      simp [Body.foot, this]
  have hun : unlink cid (.internal (ps₁ ++ ps₂) (cs₁.map Cell.id ++ cid :: cs₂.map Cell.id) b) =
      some (Body.node (dropPivot ps₁ ps₂) (cs₁ ++ cs₂) b).toNode := by
    rw [unlink_eq b (by simpa using hl) hnot, Body.toNode_node, List.map_append]
  rw [Live.foot_focus, List.cons_append] at hF
  obtain ⟨e₁, hmut, hgo₁⟩ := mutate_foot pins hF hd hun
  have hperm : ((id, Slot.loaded (Body.node (dropPivot ps₁ ps₂) (cs₁ ++ cs₂) b).toNode true
      (dk.map (Sigma.mk (h + 1)))) :: (cs₁.flatMap Live.foot ++
        (Live.foot (Cell.known cid true cdk x) ++ cs₂.flatMap Live.foot))).Perm
      ((cid, Slot.loaded x.toNode true (cdk.map (Sigma.mk h))) ::
        Live.foot (Cell.known id true dk (Body.node (dropPivot ps₁ ps₂) (cs₁ ++ cs₂) b))) := by
    rw [Live.foot_known, Live.foot_known, hfoot, Body.foot_node, List.flatMap_append,
      List.singleton_append]
    exact (List.Perm.cons _ List.perm_middle).trans (List.Perm.swap _ _ _)
  have hgo₁' := hgo₁.perm (List.Perm.refl _) hperm
  have hrel := release_run (hgo₁'.stored.slots _ (List.mem_cons_self ..))
  have hgo₂ : Goes pins _ _ e₁ _ := Goes.of_shifts pins hgo₁'.stored.release rfl
  refine ⟨e₁.on (e₁.store.put cid none), ?_,
    (Leads.touch false id d dk _).trans (Turns.remove hl hv hb).leads, ?_⟩
  · unfold Engine.removeChild
    rw [Engine.run_bind hmut]
    exact hrel
  · rw [Live.foot_focus, List.cons_append]
    exact hgo₁'.trans hgo₂

end Absorb
end Beetree
