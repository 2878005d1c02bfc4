import Beetree.BeTree
import Beetree.Disk
import Beetree.Frame
import Beetree.Scan

/-! Routing, extraction and clipping follow one rule of ownership. -/
namespace Beetree

lemma route_iff {ps : List Key} (hs : ps.Pairwise (· < ·)) (k : Key) (i : ℕ) :
    route ps k = i ↔ i ≤ ps.length ∧ (∀ p, 0 < i → ps[i - 1]? = some p → p ≤ k) ∧
    ∀ p, ps[i]? = some p → k < p := by
  by_cases hi : i ≤ ps.length
  · obtain ⟨ps₁, ps₂, rfl, rfl⟩ : ∃ ps₁ ps₂, ps = ps₁ ++ ps₂ ∧ i = ps₁.length :=
      ⟨ps.take i, ps.drop i, (List.take_append_drop i ps).symm, by simp [hi]⟩
    have hlower : (∀ p, 0 < ps₁.length → (ps₁ ++ ps₂)[ps₁.length - 1]? = some p → p ≤ k) ↔
        ∀ p, ps₁.getLast? = some p → p ≤ k := by
      cases h : ps₁.length with
      | zero => simp [List.length_eq_zero_iff.mp h]
      | succ j =>
        rw [Nat.add_sub_cancel, getElem?_last ps₂ h]
        simp
    rw [owns_of_route hs, owns_iff_ends hs, hlower]
    exact ⟨fun h => ⟨hi, h⟩, fun h => h.2⟩
  · exact iff_of_false (fun h => hi (h ▸ route_le hs k)) fun h => hi h.1

/-- What was taken out of a buffer for one child, and what was left in it. -/
structure Takes (ps : List Key) (i : ℕ) (buffer batch rest : Buffer) : Prop where
  taken : ∀ k, batch.get? k = if route ps k = i then buffer.get? k else none
  left : ∀ k, rest.get? k = if route ps k = i then none else buffer.get? k

lemma extract_takes {ps : List Key} (hs : ps.Pairwise (· < ·)) {i : ℕ} (hi : i ≤ ps.length)
    (buffer : Buffer) :
    ∃ batch rest, extract ps i buffer = some (batch, rest) ∧ Takes ps i buffer batch rest := by
  obtain ⟨ps₁, ps₂, rfl, rfl⟩ : ∃ ps₁ ps₂, ps = ps₁ ++ ps₂ ∧ i = ps₁.length :=
    ⟨ps.take i, ps.drop i, (List.take_append_drop i ps).symm, by simp [hi]⟩
  refine ⟨_, _, extract_eq hs buffer, fun k => ?_, fun k => ?_⟩
  · simp only [OrdMap.get?_filter, owns_of_route hs, decide_eq_true_eq]
  · simp only [OrdMap.get?_filter, owns_of_route hs, decide_eq_true_eq, ite_not]

/-- Whatever else a policy sees, it answers with a child that has messages. -/
def ChoosesPending {π : Type} [FlushPolicy π] (policy : π) (occ : List ℕ) : Prop :=
  ∀ ctx : FlushCtx, ctx.childPending = occ → 0 < occ.getD (FlushPolicy.choose policy ctx).1 0

/-- A pick returns, and moves all messages of one child, and no others, out of the buffer. The child
is the one the policy names, or the fullest. -/
def PickReturns {π St : Type} [FlushPolicy π] [NodeStore St] (e : Engine π St)
    (id depth : ℕ) (mode : Bool)
    (ps : List Key) (cs : List NodeId) (b : Buffer) : Prop :=
  ∃ i c batch e', Engine.pickAndExtract id depth mode e = .ok (i, c,
    occupancies ps cs.length b, batch) e' ∧
    (if mode then ∃ ctx, ctx.childPending = occupancies ps cs.length b ∧
      i = (FlushPolicy.choose e.policy ctx).1
      else i = GreedyFullest.pick (occupancies ps cs.length b)) ∧
    cs[i]? = some c ∧ 0 < batch.size ∧
    ∃ rest, Engine.loaded id e' = .ok (.internal ps cs rest) e' ∧ Takes ps i b batch rest

section Pick
variable {π St : Type} [NodeStore St]

/-- A store whose reads change nothing and whose changes are read back. -/
structure NodeStore.ReadsBack (St : Type) [NodeStore St] : Prop where
  loaded : ∀ {id : NodeId} {n : Node} {s s' : St}, NodeStore.loaded id s = .ok n s' → s' = s
  isDirty : ∀ {id : NodeId} {d : Bool} {s s' : St}, NodeStore.isDirty id s = .ok d s' → s' = s
  mutate : ∀ {id : NodeId} {f : Node → Option Node} {n : Node}
    {s s' : St}, NodeStore.mutate id f s = .ok n s' →
    NodeStore.loaded id s' = .ok n s' ∧ ∃ n₀, NodeStore.loaded id s = .ok n₀ s ∧ f n₀ = some n

lemma Arena.readsBack : NodeStore.ReadsBack Arena where
  loaded {id n s s'} h := by
    simp only [NodeStore.loaded] at h
    split at h <;> cases h
    rfl
  isDirty {id d s s'} h := by
    simp only [NodeStore.isDirty] at h
    split at h <;> cases h
    rfl
  mutate {id f n s s'} h := by
    simp only [NodeStore.mutate] at h
    split at h
    · cases h
    · rename_i n₀ hn
      split at h <;> cases h
      rename_i hf
      have hlt : id < s.nodes.length := (List.getElem?_eq_some_iff.mp hn).1
      exact ⟨by simp only [NodeStore.loaded, List.getElem?_set_self hlt], n₀,
        by simp only [NodeStore.loaded, hn], hf⟩

lemma DiskStore.readsBack {V : Type} [Vfs V] [Crc32Fast] : NodeStore.ReadsBack (DiskStore V) where
  loaded {id n s s'} h := by
    change DiskStore.loaded id s = _ at h
    unfold DiskStore.loaded at h
    split at h <;> cases h
    rfl
  isDirty {id d s s'} h := by
    change DiskStore.isDirty id s = _ at h
    unfold DiskStore.isDirty at h
    split at h <;> cases h <;> rfl
  mutate {id f n s s'} h := by
    change DiskStore.loadedMut id f s = _ at h
    change DiskStore.loaded id s' = _ ∧ ∃ n₀, DiskStore.loaded id s = _ ∧ _
    unfold DiskStore.loadedMut at h
    split at h
    · rename_i n₀ dirty diskOffset bytes lastTick hn
      split at h
      · cases h
      · rename_i hf
        split_ifs at h
        cases h
        have hlt : id < s.slots.length := (List.getElem?_eq_some_iff.mp hn).1
        exact ⟨by simp only [DiskStore.loaded, List.getElem?_set_self hlt], n₀,
          by simp only [DiskStore.loaded, hn], hf⟩
    · cases h

variable {e e' : Engine π St} {id : NodeId}

lemma loaded_keeps (hSt : NodeStore.ReadsBack St) {n : Node} (h : Engine.loaded id e = .ok n e') :
    e' = e := by
  obtain ⟨s, hs, rfl⟩ := onStore_eq_ok h
  rw [hSt.loaded hs]

variable [FlushPolicy π]

lemma chooseChild_store (hSt : NodeStore.ReadsBack St) {depth : ℕ} {mode : Bool} {ps : List Key}
    {cs : List NodeId}
    {b : Buffer} {occ : List ℕ} {i : ℕ}
    (h : Engine.chooseChild id depth mode ps cs b occ e = .ok i e') :
    e'.store = e.store := by
  have hflags : ∀ (cs : List NodeId) (flags : List Bool) (e e' : Engine π St),
      cs.mapM Engine.isDirty e = .ok flags e' → e' = e := by
    intro cs
    induction cs with
    | nil =>
      intro flags e e' h
      cases h
      rfl
    | cons c cs ih =>
      intro flags e e' h
      rw [List.mapM_cons] at h
      obtain ⟨d, e₁, hd, h₁⟩ := bind_eq_ok h
      obtain ⟨ds, e₂, hds, h₂⟩ := bind_eq_ok (f := fun ds => pure (d :: ds)) h₁
      obtain ⟨s, hs, rfl⟩ := onStore_eq_ok hd
      rw [hSt.isDirty hs] at hds
      cases h₂
      exact ih _ _ _ hds
  unfold Engine.chooseChild at h
  split_ifs at h
  · obtain ⟨flags, e₁, hf, h⟩ := bind_eq_ok h
    obtain ⟨e₂, e₃, hg, h⟩ := bind_eq_ok h
    cases hg
    cases h
    rw [hflags cs flags e e₁ hf]
  · cases h
    rfl

lemma pickAndExtract_eq_ok (hSt : NodeStore.ReadsBack St) {depth : ℕ} {mode : Bool}
    {i : ℕ} {c : NodeId}
    {occ : List ℕ} {batch : Buffer}
    (h : Engine.pickAndExtract id depth mode e = .ok (i, c, occ, batch) e') :
    ∃ ps cs b rest, Engine.loaded id e = .ok (.internal ps cs b) e ∧
    Engine.loaded id e' = .ok (.internal ps cs rest) e' ∧
      occ = occupancies ps cs.length b ∧ 0 < occ.getD i 0 ∧ cs[i]? = some c ∧
      extract ps i b = some (batch, rest) ∧
      ∃ n, NodeStore.mutate id (Node.setBuffer rest) e.store = .ok n e'.store := by
  unfold Engine.pickAndExtract at h
  obtain ⟨n, e₁, hn, h⟩ := bind_eq_ok h
  have he₁ := loaded_keeps hSt hn
  subst he₁
  cases n with
  | leaf entries => cases h
  | internal ps cs b =>
    dsimp only at h
    split_ifs at h
    · cases h
    obtain ⟨j, e₂, hj, h⟩ := bind_eq_ok h
    split_ifs at h with hocc
    · cases h
    cases hx : extract ps j b with
    | none =>
      rw [hx] at h
      cases h
    | some x =>
      obtain ⟨batch₁, rest⟩ := x
      cases hc : cs[j]? with
      | none =>
        rw [hx, hc] at h
        cases h
      | some child =>
        rw [hx, hc] at h
        obtain ⟨n', e₃, hm, h⟩ := bind_eq_ok h
        cases h
        obtain ⟨s, hs, rfl⟩ := onStore_eq_ok hm
        obtain ⟨hread, n₀, hn₀, hset⟩ := hSt.mutate hs
        obtain ⟨s₁, hs₁, -⟩ := onStore_eq_ok hn
        have hmut := hs
        rw [chooseChild_store hSt hj] at hn₀ hmut
        rw [hs₁] at hn₀
        cases hn₀
        cases hset
        refine ⟨ps, cs, b, rest, hn, ?_, rfl, Nat.pos_of_ne_zero hocc, hc, hx, _, hmut⟩
        exact Engine.run_onStore (s := s) hread

/-- A batch holds exactly the messages of the chosen child, and the others stay behind. -/
lemma pickAndExtract_takes (hSt : NodeStore.ReadsBack St) {depth : ℕ} {mode : Bool}
    {i : ℕ} {c : NodeId}
    {occ : List ℕ} {batch : Buffer} {ps : List Key} {cs : List NodeId} {b : Buffer}
    (hs : ps.Pairwise (· < ·))
    (hn : Engine.loaded id e = .ok (.internal ps cs b) e)
    (h : Engine.pickAndExtract id depth mode e = .ok (i, c, occ, batch) e') :
    cs[i]? = some c ∧ ∃ rest, Engine.loaded id e' = .ok (.internal ps cs rest) e' ∧
    Takes ps i b batch rest := by
  obtain ⟨ps', cs', b', rest, hn', hafter, rfl, hocc, hc, hx, -⟩ := pickAndExtract_eq_ok hSt h
  rw [hn] at hn'
  cases hn'
  obtain ⟨-, k, -, -, hk⟩ := occupied hocc
  obtain ⟨batch', rest', hx', ht⟩ := extract_takes hs (hk ▸ route_le hs k) b
  rw [hx] at hx'
  cases hx'
  exact ⟨hc, rest, hafter, ht⟩

/-- Choosing a child returns an occupied one: the greedy rule's when draining, else what the policy
answers. -/
lemma chooseChild_returns (id : NodeId) (depth : ℕ) {mode : Bool} (ps : List Key) {cs : List NodeId}
    (b : Buffer) {occ : List ℕ}
    (hflags : ∀ c ∈ cs, ∃ d, NodeStore.isDirty c e.store = .ok d e.store)
    (hocc : ∃ i, 0 < occ.getD i 0)
    (hchoice : mode = true → ChoosesPending e.policy occ) :
    ∃ i e₁, Engine.chooseChild id depth mode ps cs b occ e = .ok i e₁ ∧ e₁.store = e.store ∧
    0 < occ.getD i 0 ∧
      if mode then ∃ ctx, ctx.childPending = occ ∧ i = (FlushPolicy.choose e.policy ctx).1
        else i = GreedyFullest.pick occ := by
  have hread : ∃ flags, cs.mapM Engine.isDirty e = .ok flags e := by
    clear hocc hchoice
    induction cs with
    | nil => exact ⟨[], rfl⟩
    | cons c cs ih =>
      obtain ⟨d, hd⟩ := hflags c (by simp)
      obtain ⟨ds, hds⟩ := ih fun c hc => hflags c (by simp [hc])
      refine ⟨d :: ds, ?_⟩
      rw [List.mapM_cons,
        run_bind_ok (show Engine.isDirty c e = .ok d e from Engine.run_onStore hd), run_bind_ok hds]
      rfl
  unfold Engine.chooseChild
  cases mode with
  | true =>
    obtain ⟨flags, hf⟩ := hread
    rw [if_pos rfl, run_bind_ok hf, run_get_bind]
    let ctx : FlushCtx := ⟨id, depth, occ, pendingBytes ps cs.length b, flags, b.size,
      e.opsSinceCommit⟩
    exact ⟨_, _, rfl, rfl, hchoice rfl ctx rfl, ctx, rfl, rfl⟩
  | false => exact ⟨_, e, rfl, rfl, GreedyFullest.pick_pos hocc, rfl⟩

/-- A pick from a node with messages returns, and takes the messages of one child. -/
lemma pickAndExtract_returns (hSt : NodeStore.ReadsBack St) {depth : ℕ}
    {mode : Bool} {ps : List Key}
    {cs : List NodeId} {b : Buffer} (hs : ps.Pairwise (· < ·)) (hl : cs.length = ps.length + 1)
    (hb : 0 < b.size)
    (hn : Engine.loaded id e = .ok (.internal ps cs b) e)
    (hflags : ∀ c ∈ cs, ∃ d, NodeStore.isDirty c e.store = .ok d e.store)
    (hset : ∀ rest, ∃ s, NodeStore.mutate id (Node.setBuffer rest) e.store = .ok
      (.internal ps cs rest) s)
    (hchoice : mode = true → ChoosesPending e.policy (occupancies ps cs.length b)) :
    PickReturns e id depth mode ps cs b := by
  have hrouted : b.toList.any (fun x => cs.length ≤ route ps x.1) = false := by
    rw [List.any_eq_false]
    intro x _
    have := route_le hs x.1
    simp
    omega
  obtain ⟨i, e₁, hi, hstore, hpos, hwhich⟩ := chooseChild_returns id depth ps b hflags
    (hl ▸ exists_occupied hs hb) hchoice
  obtain ⟨hlt, k, m, hk, hroute⟩ := occupied hpos
  obtain ⟨batch, rest, hx, htakes⟩ := extract_takes hs (hroute ▸ route_le hs k) b
  obtain ⟨s, hmut⟩ := hset rest
  have hc : cs[i]? = some cs[i] := List.getElem?_eq_getElem hlt
  have hrun : Engine.pickAndExtract id depth mode e =
      .ok (i, cs[i], occupancies ps cs.length b, batch) { e₁ with store := s } := by
    unfold Engine.pickAndExtract
    rw [run_bind_ok hn]
    simp only [hrouted, Bool.false_eq_true, if_false]
    rw [run_bind_ok hi, if_neg hpos.ne']
    simp only [hx, hc]
    rw [run_bind_ok (show Engine.mutate id (Node.setBuffer rest) e₁ = .ok _ _ from
      Engine.run_onStore (by rw [hstore]; exact hmut))]
    rfl
  refine ⟨i, cs[i], batch, _, hrun, hwhich, hc, ?_, (pickAndExtract_takes hSt hs hn hrun).2⟩
  exact OrdMap.size_pos_iff.mpr ⟨k, m, by rw [htakes.taken, if_pos hroute, hk]⟩

end Pick

section Ranges
variable {π St : Type} [NodeStore St]

namespace Engine

/-- Every frame covers a range that is not empty, so the loop never asks for a bad one. -/
lemma scanLoopOr_eq (bad : Fault) (n : ℕ) (frames : List ScanFrame)
    (h : ∀ f ∈ frames, rangeIsEmpty f.lo f.hi = false) :
    (scanLoopOr bad n frames : Act π St (List (Key × Value))) = scanLoop n frames := by
  induction n generalizing frames with
  | zero => rfl
  | succ n ih =>
    cases frames with
    | nil => rfl
    | cons frame rest =>
      have hframe : rangeIsEmpty frame.lo frame.hi = false := h frame (by simp)
      have hrest : ∀ f ∈ rest, rangeIsEmpty f.lo f.hi = false := fun f hf => h f (by simp [hf])
      have htop : ∀ (i : ℕ) (acc : OrdMap Key Value), ∀ f ∈ ⟨frame.id, frame.lo, frame.hi,
        i, acc⟩ :: rest,
          rangeIsEmpty f.lo f.hi = false := by
        intro i acc f hf
        rcases List.mem_cons.mp hf with rfl | hf
        · exact hframe
        · exact hrest f hf
      unfold scanLoop scanLoopOr
      refine bind_congr fun node => ?_
      cases node with
      | leaf entries => rfl
      | internal pivots children buffer =>
        dsimp only
        cases children[frame.nextChild]? with
        | some child =>
          dsimp only
          cases childBounds pivots frame.lo frame.hi frame.nextChild with
          | none => rfl
          | some bounds =>
            obtain ⟨cLo, cHi⟩ := bounds
            dsimp only
            split_ifs with hempty
            · exact ih _ (htop _ _)
            · refine bind_congr fun _ => bind_congr fun node => ?_
              have hempty : rangeIsEmpty cLo cHi = false := by simpa using hempty
              cases node with
              | leaf entries =>
                simp only [rangeOf_of_nonempty entries hempty]
                exact ih _ (htop _ _)
              | internal _ _ _ =>
                refine ih _ fun f hf => ?_
                rcases List.mem_cons.mp hf with rfl | hf
                · exact hempty
                · exact htop _ _ f hf
        | none =>
          simp only [rangeOf_of_nonempty buffer hframe]
          cases rest with
          | nil => rfl
          | cons parent rest =>
            refine ih _ fun f hf => ?_
            rcases List.mem_cons.mp hf with rfl | hf
            · exact hrest parent (by simp)
            · exact hrest f (by simp [hf])

lemma scanOr_eq (bad : Fault) (fuel : ℕ) (lo hi : Bound) :
    (scanOr bad fuel lo hi : Act π St (List (Key × Value))) = scan fuel lo hi := by
  unfold scan scanOr
  refine bind_congr fun _ => ?_
  split_ifs with hempty
  · rfl
  have hempty : rangeIsEmpty lo hi = false := by simpa using hempty
  refine bind_congr fun e => bind_congr fun _ => bind_congr fun node => ?_
  cases node with
  | leaf entries => simp only [rangeOf_of_nonempty entries hempty]
  | internal _ _ _ => exact scanLoopOr_eq bad fuel _ (by simpa using hempty)

end Engine
end Ranges

/-- The clipped bounds of a child hold for the keys in range that are routed to it, and no
others. -/
lemma childBounds_route {ps : List Key} (hs : ps.Pairwise (· < ·)) (lo hi : Bound) {i : ℕ}
    (hi' : i ≤ ps.length) :
    ∃ cLo cHi, Engine.childBounds ps lo hi i = some (cLo, cHi) ∧
      ∀ k, inBounds cLo cHi k = true ↔ inBounds lo hi k = true ∧ route ps k = i := by
  obtain ⟨ps₁, ps₂, rfl, rfl⟩ : ∃ ps₁ ps₂, ps = ps₁ ++ ps₂ ∧ i = ps₁.length :=
    ⟨ps.take i, ps.drop i, (List.take_append_drop i ps).symm, by simp [hi']⟩
  simp only [owns_of_route hs]
  exact childBounds_spec hs lo hi

/-- A pick returns on both engines: in the arena, and on a device while the node's charge is
accounted for. -/
lemma BeTree.pick_returns {π : Type} [FlushPolicy π] {ps : List Key}
    (hs : ps.Pairwise (· < ·)) {e : BeTree π}
    {id depth : ℕ} {mode : Bool} {cs : List NodeId} {b : Buffer}
    (hn : e.store.nodes[id]? = some (.internal ps cs b))
    (hl : cs.length = ps.length + 1) (hb : 0 < b.size) (hd : ∀ c ∈ cs, c < e.store.dirty.length)
    (hchoice : mode = true → ChoosesPending e.policy (occupancies ps cs.length b)) :
    PickReturns e id depth mode ps cs b := by
  refine pickAndExtract_returns Arena.readsBack hs hl hb ?_ ?_ ?_ hchoice
  · exact Engine.run_onStore (s := e.store) (by simp only [NodeStore.loaded, hn])
  · intro c hc
    refine ⟨e.store.dirty.get ⟨c, hd c hc⟩, ?_⟩
    simp only [NodeStore.isDirty, List.getElem?_eq_getElem (hd c hc), List.get_eq_getElem]
  · intro rest
    exact ⟨_, by simp only [NodeStore.mutate, hn, Node.setBuffer]; rfl⟩

lemma DiskEngine.pick_returns {π V : Type} [FlushPolicy π] [Vfs V] [Crc32Fast] {ps : List Key}
    (hs : ps.Pairwise (· < ·)) {e : DiskEngine π V} {id depth : ℕ} {mode : Bool}
    {cs : List NodeId} {b : Buffer}
    {dirty : Bool} {off : Option ℕ} {bytes tick : ℕ}
    (hn : e.store.slots[id]? = some (.loaded (.internal ps cs b) dirty off bytes tick))
    (hbytes : bytes ≤ e.store.cache.bytes) (hl : cs.length = ps.length + 1) (hb : 0 < b.size)
    (hd : ∀ c ∈ cs, c < e.store.slots.length)
    (hchoice : mode = true → ChoosesPending e.policy (occupancies ps cs.length b)) :
    PickReturns e id depth mode ps cs b := by
  refine pickAndExtract_returns DiskStore.readsBack hs hl hb ?_ ?_ ?_ hchoice
  · refine Engine.run_onStore (s := e.store) ?_
    change DiskStore.loaded id e.store = _
    simp only [DiskStore.loaded, hn]
  · intro c hc
    have hlt := hd c hc
    change ∃ d, DiskStore.isDirty c e.store = _
    simp only [DiskStore.isDirty, List.getElem?_eq_getElem hlt]
    cases e.store.slots[c] with
    | loaded _ d _ _ _ => exact ⟨d, rfl⟩
    | onDisk _ => exact ⟨false, rfl⟩
    | freed => exact ⟨false, rfl⟩
  · intro rest
    change ∃ s, DiskStore.loadedMut id (Node.setBuffer rest) e.store = _
    simp only [DiskStore.loadedMut, hn, Node.setBuffer, if_pos hbytes]
    exact ⟨_, rfl⟩

/-- Binary search, extraction and clipping agree on which child owns a key: a pick from a buffer
with messages returns, takes the messages of one child and leaves the others, and a scan asks for no
range that panics. -/
theorem ownership_agrees {π V : Type} [FlushPolicy π] [Vfs V] [Crc32Fast] (ps : List Key)
    (hs : ps.Pairwise (· < ·)) :
    (∀ (k : Key) (i : ℕ), route ps k = i ↔
      i ≤ ps.length ∧ (∀ p, 0 < i → ps[i - 1]? = some p → p ≤ k) ∧ ∀ p, ps[i]? = some p → k < p) ∧
    (∀ (buffer : Buffer), ∀ i ≤ ps.length,
      ∃ batch rest, extract ps i buffer = some (batch, rest) ∧ Takes ps i buffer batch rest) ∧
    (∀ (e : BeTree π) (id depth : ℕ) (mode : Bool) (cs : List NodeId) (buffer : Buffer),
      e.store.nodes[id]? = some (.internal ps cs buffer) → cs.length = ps.length + 1 →
      0 < buffer.size →
      (∀ c ∈ cs, c < e.store.dirty.length) →
      (mode = true → ChoosesPending e.policy (occupancies ps cs.length buffer)) →
      PickReturns e id depth mode ps cs buffer) ∧
    (∀ (e e' : BeTree π) (id depth : ℕ) (mode : Bool) (cs : List NodeId) (buffer : Buffer)
      (i : ℕ) (c : NodeId)
      (occ : List ℕ) (batch : Buffer), Engine.loaded id e = .ok (.internal ps cs buffer) e →
      Engine.pickAndExtract id depth mode e = .ok (i, c, occ, batch) e' → cs[i]? = some c ∧
      ∃ rest, Engine.loaded id e' = .ok (.internal ps cs rest) e' ∧ Takes ps i buffer batch rest) ∧
    (∀ (e : DiskEngine π V) (id depth : ℕ) (mode : Bool) (cs : List NodeId)
      (buffer : Buffer) (dirty : Bool)
      (off : Option ℕ) (bytes tick : ℕ),
      e.store.slots[id]? = some (.loaded (.internal ps cs buffer) dirty off bytes tick) →
      bytes ≤ e.store.cache.bytes → cs.length = ps.length + 1 → 0 < buffer.size →
      (∀ c ∈ cs, c < e.store.slots.length) →
      (mode = true → ChoosesPending e.policy (occupancies ps cs.length buffer)) →
      PickReturns e id depth mode ps cs buffer) ∧
    (∀ (e e' : DiskEngine π V) (id depth : ℕ) (mode : Bool) (cs : List NodeId) (buffer : Buffer)
      (i : ℕ) (c : NodeId)
      (occ : List ℕ) (batch : Buffer), Engine.loaded id e = .ok (.internal ps cs buffer) e →
      Engine.pickAndExtract id depth mode e = .ok (i, c, occ, batch) e' → cs[i]? = some c ∧
      ∃ rest, Engine.loaded id e' = .ok (.internal ps cs rest) e' ∧ Takes ps i buffer batch rest) ∧
    (∀ (lo hi : Bound), ∀ i ≤ ps.length, ∃ cLo cHi, Engine.childBounds ps lo hi
      i = some (cLo, cHi) ∧
      (∀ k, inBounds cLo cHi k = true ↔ inBounds lo hi k = true ∧ route ps k = i) ∧
      (rangeIsEmpty cLo cHi = true → ∀ k, route ps k = i → inBounds lo hi k = false)) ∧
    (∀ (bad : Fault) (fuel : ℕ) (lo hi : Bound) (e : BeTree π),
      Engine.scanOr bad fuel lo hi e = Engine.scan fuel lo hi e) ∧
    ∀ (bad : Fault) (fuel : ℕ) (lo hi : Bound) (e : DiskEngine π V),
      Engine.scanOr bad fuel lo hi e = Engine.scan fuel lo hi e := by
  refine ⟨fun k i => route_iff hs k i, fun buffer i hi => extract_takes hs hi buffer, ?_, ?_,
    ?_, ?_, ?_, ?_, ?_⟩
  · intro e id depth mode cs buffer hn hl hb hd hchoice
    exact BeTree.pick_returns hs hn hl hb hd hchoice
  · intro e e' id depth mode cs buffer i c occ batch hn h
    exact pickAndExtract_takes Arena.readsBack hs hn h
  · intro e id depth mode cs buffer dirty off bytes tick hn hbytes hl hb hd hchoice
    exact DiskEngine.pick_returns hs hn hbytes hl hb hd hchoice
  · intro e e' id depth mode cs buffer i c occ batch hn h
    exact pickAndExtract_takes DiskStore.readsBack hs hn h
  · intro lo hi i hi'
    obtain ⟨cLo, cHi, hb, hk⟩ := childBounds_route hs lo hi hi'
    refine ⟨cLo, cHi, hb, hk, fun hempty k hroute => Bool.eq_false_iff.mpr fun hin => ?_⟩
    have := not_inBounds_of_empty hempty k
    rw [(hk k).mpr ⟨hin, hroute⟩] at this
    cases this
  · intro bad fuel lo hi e
    rw [Engine.scanOr_eq]
  · intro bad fuel lo hi e
    rw [Engine.scanOr_eq]

def Buffer.aroundPivot :
    Buffer := OrdMap.ofList [([4], .delete 1), ([5], .put 2 [7]), ([6], .delete 3)]

/-- A node over two leaves, in an arena and in slots. -/
def BeTree.aroundPivot : BeTree GreedyFullest where
  params := ⟨1, 2, 2⟩
  store := ⟨[.leaf OrdMap.empty, .leaf OrdMap.empty, .internal [[5]] [0, 1] .aroundPivot],
    [false, false, true]⟩
  root := 2
  nextSeq := 3
  opsSinceCommit := 3
  policy := ⟨⟩
  trace := .new

def DiskEngine.aroundPivot : DiskEngine GreedyFullest FaultyVfs :=
  { BeTree.aroundPivot with
    store := ⟨FaultyVfs.fromImage [],
      [.onDisk 8192, .onDisk 8212, .loaded (.internal [[5]] [0, 1] .aroundPivot) true none 90 0],
      1, dataStart, false, ⟨some 0, 90, 1, 0, [], 0, 0, 0, 0⟩, .empty⟩ }

/-- One key on the pivot and one below it, and picks that follow the policy and the greedy rule. -/
theorem ownership_agrees_pivot : let _ := crc32Ieee
    (∀ i, route [[5]] [5] = i ↔ i ≤ 1 ∧ (∀ p, 0 < i → ([[5]] : List Key)[i - 1]? = some p →
      p ≤ ([5] : Key)) ∧
      ∀ p, ([[5]] : List Key)[i]? = some p → ([5] : Key) < p) ∧
    (∃ batch rest, extract [[5]] 1 .aroundPivot = some (batch, rest) ∧
      Takes [[5]] 1 .aroundPivot batch rest) ∧
    PickReturns BeTree.aroundPivot 2 0 true [[5]] [0, 1] .aroundPivot ∧
    PickReturns DiskEngine.aroundPivot 2 0 true [[5]] [0, 1] .aroundPivot ∧
    PickReturns DiskEngine.aroundPivot 2 0 false [[5]] [0, 1] .aroundPivot :=
  let _ := crc32Ieee
  have h := ownership_agrees (π := GreedyFullest) (V := FaultyVfs) [[5]]
    (List.pairwise_singleton _ _)
  have hpending : ChoosesPending (⟨⟩ : GreedyFullest) (occupancies [[5]] 2 .aroundPivot) :=
    fun ctx hctx => hctx ▸ GreedyFullest.legal ⟨⟩ ctx ⟨0, by rw [hctx]; decide⟩
  ⟨fun i => h.1 [5] i, h.2.1 _ 1 le_rfl,
    h.2.2.1 BeTree.aroundPivot 2 0 true [0, 1] .aroundPivot rfl rfl (by decide)
      (by decide) fun _ => hpending,
    h.2.2.2.2.1 DiskEngine.aroundPivot 2 0 true [0, 1] .aroundPivot true none 90 0 rfl
      (by decide) rfl (by decide)
      (by decide) fun _ => hpending,
    h.2.2.2.2.1 DiskEngine.aroundPivot 2 0 false [0, 1] .aroundPivot true none 90 0 rfl
      (by decide) rfl (by decide)
      (by decide) fun hmode => by cases hmode⟩

end Beetree
