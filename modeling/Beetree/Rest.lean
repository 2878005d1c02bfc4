import Beetree.Replay
import Beetree.Roundtrip

/-! Trees at rest, in memory and on a device, and what is left when they have been drained
(`BeTree::drain`, `DiskEngine::drain`).

A drain records nothing and leaves the policy alone. Every message is in its leaf, so the leaves
hold the contents. -/
namespace Beetree

section Invariants

/-- A tree at rest: keys and pivots in their ranges, messages newer than what is below them, nothing
over capacity, and no number above the counter. The height says that the leaves are at one depth. -/
structure Tree.AtRest {α : ℕ → Type} {h : ℕ} (t : Tree α h) (params : Params)
    (seq : UInt64) : Prop where
  valid : t.Valid none none
  rest : t.RootRest params
  below : ∀ k, t.Below k (seq.toNat + 1)

variable {π : Type} {h : ℕ} {e : Engine π Ideal} {t : Live h}

lemma Holds.atRest (ht : Holds e t) : (Live.plain t).AtRest e.params e.nextSeq where
  valid := ht.valid
  rest := ht.rest
  below k := by
    rw [← Tree.below_bare, ← Live.bare_view, Tree.below_bare]
    exact ht.fresh false k

/-- What has been made of a new tree, by whatever operations, is at rest, and the checker accepts
it. -/
theorem reachable_atRest [FlushPolicy π] {b : BeTree π} (hb : b.Reachable) :
    (∃ (h : ℕ) (T : Flagged h), b.source.Draws b.source.root T ∧ T.AtRest b.params b.nextSeq) ∧
    b.source.Lawful ∧
      ∃ N, ∀ fuel ≥ N, checkInvariants fuel b.source = .ok (.ok ()) := by
  obtain ⟨-, e, h, t, ht, hal⟩ := hb.holds
  have hsame : Resembles Renaming.same.rel Eq Eq (Arena.Models .same) e b := hal
  obtain ⟨hgrown, hlawful⟩ := hsame.lawful ht
  obtain ⟨N, v, hrun, hv⟩ := checkInvariants_verdict hgrown
  refine ⟨⟨h, Live.plain t, hsame.store.draws ht.stored (ht.root ▸ hsame.root), ?_⟩, hlawful, N,
    fun fuel hf => ?_⟩
  · rw [hsame.params, hsame.nextSeq]
    exact ht.atRest
  · rw [hrun fuel hf, hv.mpr hlawful]

/-- A worn tree with messages on two levels, and a fork of it that was drained. -/
theorem reachable_atRest_churned : BeTree.churned.store.nodes[5]? =
      some (.internal [[5]] [4, 7] (OrdMap.empty.insert [4] (.put 10 [7]))) ∧
    BeTree.churned.store.nodes[4]? = some (.internal [] [3] (OrdMap.empty.insert [2] (.delete 9))) ∧
    (∃ (h : ℕ) (T : Flagged h), BeTree.churned.source.Draws BeTree.churned.source.root T ∧
      T.AtRest BeTree.churned.params BeTree.churned.nextSeq) ∧
    (∃ N, ∀ fuel ≥ N, checkInvariants fuel BeTree.churned.source = .ok (.ok ())) ∧
    ∃ fork b : BeTree GreedyFullest,
      (∃ N, ∀ fuel ≥ N, BeTree.forkForSim fuel BeTree.churned ⟨⟩ = .ok fork) ∧
      (∃ N, ∀ fuel ≥ N, Engine.step fuel .drain fork = .ok .done b) ∧ b.source.Lawful := by
  obtain ⟨-, hmessages, hbelow, -⟩ := BeTree.churned_nodes
  obtain ⟨hrest, -, hcheck⟩ := reachable_atRest BeTree.reachable_churned
  obtain ⟨-, e, h, t, ht, hal⟩ := BeTree.reachable_churned.holds
  have hrun := forkForSim_run ht hal (⟨⟩ : GreedyFullest)
  have hfork : (BeTree.churned.copy t (⟨⟩ : GreedyFullest)).Reachable :=
    .fork GreedyFullest.legal BeTree.reachable_churned hrun
  obtain ⟨hπ, e', h', t', ht', hal'⟩ := hfork.holds
  obtain ⟨reply, _, _, _, b, N, hst, -, hdrain⟩ := step_returns hπ ht' hal' .drain trivial
  obtain rfl : reply = .done := hst.answers
  exact ⟨hmessages, hbelow, hrest, hcheck, _, b, hrun, ⟨N, hdrain⟩,
    (reachable_atRest (hfork.step ⟨N, hdrain⟩)).2.1⟩

/-- Whatever happens to an engine over the life of its file, the tree it holds, in memory and on the
device, is at rest and has the contents of the map. -/
theorem history_atRest {V : Type} [Vfs V] [Honest V] [Crc32Fast] [FlushPolicy π] {m : KvStore}
    {r : DiskEngine π V} (hr : History m r) :
    ∃ (h : ℕ) (T : Flagged h), DiskEngine.Shows Honest.file r T ∧ T.AtRest r.params r.nextSeq ∧
    ∀ k, T.resolve k = m.live k := by
  obtain ⟨-, e, h, t, sb, D, prev, hs, rfl⟩ := hr.represents
  refine ⟨h, Live.plain t, hs.toFollows.shows, ?_, fun k => rfl⟩
  rw [hs.alike.params, hs.alike.nextSeq]
  exact hs.holds.atRest

end Invariants

/-- An engine with dirty nodes above records, and one that opened the file after them and was
used. -/
theorem history_atRest_worn : ∃ r r' : DiskEngine GreedyFullest FaultyVfs,
    (∃ x ∈ r.store.slots, x.dirty = true) ∧ .onDisk 8323 ∈ r.store.slots ∧
    (∃ (h : ℕ) (T : Flagged h), @DiskEngine.Shows _ _ crc32Ieee h (fun v => v.view) r T ∧
      T.AtRest r.params r.nextSeq ∧
      T.resolve [4] = none ∧ T.resolve [5] = some [4, 0, 0, 0, 0, 0, 0, 0]) ∧
    @History FaultyVfs _ Reliable.honest crc32Ieee GreedyFullest _
      (KvStore.worn.reopen.after (.op (.mutate (.delete [5])))) r' ∧
    ∃ (h : ℕ) (T : Flagged h), @DiskEngine.Shows _ _ crc32Ieee h (fun v => v.view) r' T ∧
    T.AtRest r'.params r'.nextSeq ∧
      T.resolve [5] = none := by
  let _ := crc32Ieee
  let _ : Honest FaultyVfs := Reliable.honest
  obtain ⟨-, r, -, -, h, -, -, -, -, hdirty, hdisk, -⟩ :=
    history_worn Reliable.honest FaultyVfs.idle_new
  obtain ⟨-, -, r', -, -, -, -, h'⟩ := history_reopened
  obtain ⟨n, T, hshows, hrest, hresolve⟩ := history_atRest h
  obtain ⟨n', T', hshows', hrest', hresolve'⟩ := history_atRest h'
  exact ⟨r, r', hdirty, hdisk, ⟨n, T, hshows, hrest, hresolve _, hresolve _⟩, h', n', T', hshows',
    hrest', hresolve' _⟩

/-- Nothing is buffered, and the leaves hold the contents. -/
structure NodeSource.Drained (src : NodeSource) (c : Contents) : Prop where
  buffers : ∀ p ps cs b, src.Reaches src.start p → src.node p.id = some (.internal ps cs b) →
    b = OrdMap.empty
  entries : ∀ p es, src.Reaches src.start p → src.node p.id = some (.leaf es) →
    ∀ k e, es.get? k = some e → c k = some e.value
  complete : ∀ k v, c k = some v → ∃ p es e, src.Reaches src.start p ∧
    src.node p.id = some (.leaf es) ∧
    es.get? k = some e ∧ e.value = v
  single : (∀ k, c k = none) → src.node src.root = some (.leaf OrdMap.empty)

section Quiet
variable {α : ℕ → Type} {h : ℕ} {k : Key}

lemma Tree.resolve_empty {a : α (h + 1)} {ps : List Key} {cs : List (Tree α h)} :
    (Tree.node a ps cs OrdMap.empty).resolve k = (childAt ps cs k).bind fun c => c.resolve k := rfl

lemma Tree.Quiet.inhabited {prm : Params} {t : Tree α h} {lo hi : Option Key} (hq : t.Quiet)
    (hr : t.Rest prm)
    (hv : t.Valid lo hi) : ∃ k v, InRange lo hi k ∧ t.resolve k = some v := by
  induction h generalizing lo hi with
  | zero =>
    induction t using Tree.zeroCases with
    | h a es =>
      have hpos : es.toList ≠ [] := List.ne_nil_of_length_pos hr.1
      obtain ⟨x, hx⟩ := List.exists_mem_of_ne_nil _ hpos
      have hget : es.get? x.1 = some x.2 := OrdMap.mem_toList.mp hx
      exact ⟨x.1, x.2.value, (Tree.valid_leaf a).mp hv _ _ hget, by simp [hget]⟩
  | succ h ih =>
    induction t using Tree.succCases with
    | hn a ps cs b =>
      obtain ⟨rfl, hcs⟩ := Tree.quiet_node.mp hq
      obtain ⟨-, -, hkids⟩ := (Tree.valid_node a).mp hv
      obtain ⟨-, hpos, -, hrest⟩ := Tree.rest_node.mp hr
      have hK := hkids.resolve_left fun h0 => by simp [h0.1] at hpos
      have hc : cs[0]? = some cs[0] := List.getElem?_eq_getElem hpos
      have hmem : cs[0] ∈ cs := List.getElem_mem hpos
      obtain ⟨hvalid, hrange⟩ := hK.at hc
      obtain ⟨k, v, hk, hres⟩ := ih (hcs _ hmem) (hrest _ hmem) hvalid
      obtain ⟨hin, hat⟩ := hrange k hk
      exact ⟨k, v, hin, by rw [Tree.resolve_empty, hat]; exact hres⟩

variable {src : NodeSource}

/-- A place in a quiet tree, and what the tree says of the keys there. -/
structure Place.Rests (src : NodeSource) (c : Contents) (p : Place) (x : Tree α h) : Prop where
  draws : src.Draws p.id x
  valid : x.Valid p.lower p.upper
  quiet : x.Quiet
  resolve : ∀ k, InRange p.lower p.upper k → x.resolve k = c k

lemma Place.Rests.child {c : Contents} {p : Place} {x : Tree α (h + 1)} {ps : List Key}
    {cs : List NodeId} {b : Buffer} {i : ℕ}
    {id : NodeId} (hx : p.Rests src c x) (hn : src.node p.id = some (.internal ps cs b))
    (hi : cs[i]? = some id) :
    ∃ y : Tree α h, (p.child ps b (id, i)).Rests src c y := by
  induction x using Tree.succCases with
  | hn a ps' xs b' =>
    obtain ⟨cs', hn', hcs⟩ := NodeSource.draws_node.mp hx.draws
    rw [hn] at hn'
    cases hn'
    obtain ⟨rfl, hquiet⟩ := Tree.quiet_node.mp hx.quiet
    obtain ⟨-, -, hkids⟩ := (Tree.valid_node a).mp hx.valid
    obtain ⟨y, hy, hdraws⟩ := drawn_child hcs hi
    have hK := hkids.resolve_left fun h0 => by simp [h0.1] at hy
    obtain ⟨hvalid, hrange⟩ := hK.at hy
    refine ⟨y, hdraws, hvalid, hquiet y (List.mem_of_getElem? hy), fun k hk => ?_⟩
    obtain ⟨hin, hat⟩ := hrange k hk
    rw [← hx.resolve k hin, Tree.resolve_empty, hat]
    rfl

lemma Place.Rests.reaches {c : Contents} {p p' : Place} {x : Tree α h} (hx : p.Rests src c x)
    (hr : src.Reaches p p') :
    ∃ (h' : ℕ) (y : Tree α h'), p'.Rests src c y := by
  induction hr with
  | refl => exact ⟨h, x, hx⟩
  | tail _ hstep ih =>
    obtain ⟨h', y, hy⟩ := ih
    cases hstep with
    | child hn hi =>
      cases h' with
      | zero =>
        have hn' := hy.draws
        rw [NodeSource.Draws, hn] at hn'
        cases hn'
      | succ h' => exact ⟨h', hy.child hn hi⟩

lemma Place.Rests.found {c : Contents} {p : Place} {x : Tree α h} (hx : p.Rests src c x)
    (hk : InRange p.lower p.upper k)
    {v : Value} (hv : c k = some v) :
    ∃ p' es e, src.Reaches p p' ∧ src.node p'.id = some (.leaf es) ∧ es.get? k = some e ∧
    e.value = v := by
  induction h generalizing p with
  | zero =>
    have hres := (hx.resolve k hk).trans hv
    induction x using Tree.zeroCases with
    | h a es =>
      obtain ⟨e, he, rfl⟩ := Option.map_eq_some_iff.mp hres
      exact ⟨p, es, e, .refl, hx.draws, he, rfl⟩
  | succ h ih =>
    have hres := (hx.resolve k hk).trans hv
    induction x using Tree.succCases with
    | hn a ps xs b =>
      obtain ⟨cs, hn, hcs⟩ := NodeSource.draws_node.mp hx.draws
      obtain ⟨rfl, -⟩ := Tree.quiet_node.mp hx.quiet
      obtain ⟨-, -, hkids⟩ := (Tree.valid_node a).mp hx.valid
      have hK := hkids.resolve_left fun h0 => by
        rw [Tree.resolve_empty, h0.1, h0.2.1] at hres
        cases hres
      obtain ⟨i, y, hy, hin⟩ := hK.index hk
      have hlt : i < cs.length := hcs.length_eq ▸ (List.getElem?_eq_some_iff.mp hy).1
      have hid : cs[i]? = some cs[i] := List.getElem?_eq_getElem hlt
      obtain ⟨z, hz⟩ := hx.child hn hid
      obtain ⟨p', es, e, hr, hfound⟩ := ih hz hin
      exact ⟨p', es, e, .head (.child hn hid) hr, hfound⟩

lemma NodeSource.Draws.drained {x : Tree α h} (hx : src.Draws src.root x) (hv : x.Valid none none)
    (hr : x.RootRest src.params)
    (hq : x.Quiet) : src.Drained fun k => x.resolve k := by
  have hstart : src.start.Rests src (fun k => x.resolve k) x := ⟨hx, hv, hq, fun _ _ => rfl⟩
  refine ⟨fun p ps cs b hp hn => ?_, fun p es hp hn k e he => ?_,
    fun k v hkv => hstart.found (inRange_none k) hkv, fun hnone => ?_⟩
  · obtain ⟨h', y, hy⟩ := hstart.reaches hp
    cases h' with
    | zero =>
      have := hy.draws
      rw [NodeSource.Draws, hn] at this
      cases this
    | succ h' =>
      obtain ⟨cs', hn', -⟩ := hy.draws
      rw [hn] at hn'
      cases hn'
      exact hy.quiet.1
  · obtain ⟨h', y, hy⟩ := hstart.reaches hp
    cases h' with
    | zero =>
      induction y using Tree.zeroCases with
      | h a es' =>
        have hn' := NodeSource.draws_leaf.mp hy.draws
        rw [hn] at hn'
        cases hn'
        rw [← hy.resolve k ((Tree.valid_leaf a).mp hy.valid k e he), Tree.resolve_leaf, he]
        rfl
    | succ h' =>
      obtain ⟨cs', hn', -⟩ := hy.draws
      rw [hn] at hn'
      cases hn'
  · cases h with
    | zero =>
      induction x using Tree.zeroCases with
      | h a es =>
        have hempty : es = OrdMap.empty := by
          refine OrdMap.ext fun k => ?_
          have hk := hnone k
          rw [Tree.resolve_leaf, Option.map_eq_none_iff] at hk
          rw [hk, OrdMap.get?_empty]
        rw [NodeSource.draws_leaf.mp hx, hempty]
    | succ h =>
      obtain ⟨k, v, -, hres⟩ := hq.inhabited hr hv
      rw [hnone k] at hres
      cases hres

end Quiet

section Rebased
variable {π St : Type} [NodeStore St]

/-- Another store and another root, and else the same engine. -/
def Rebased (e e' : Engine π St) :
    Prop := ∃ store root, e' = { e with store := store, root := root }

lemma engineFrame_rebased : EngineFrame (Rebased : Engine π St → Engine π St → Prop) := by
  refine .of_rest ?_ fun e store root => ⟨store, root, rfl⟩
  rintro e _ _ ⟨s, id, rfl⟩ ⟨s', id', rfl⟩
  exact ⟨s', id', rfl⟩

lemma flushes_rebased [FlushPolicy π] :
    KeepsFlushes false (Rebased : Engine π St → Engine π St → Prop) :=
  fun h => absurd h (by simp)

lemma keeps_step_drain [FlushPolicy π] (fuel : ℕ) :
    Keeps Rebased (Engine.step fuel .drain : Engine.Act π St Reply) := by
  have hF : EngineFrame (Rebased : Engine π St → Engine π St → Prop) := engineFrame_rebased
  refine hF.bind (.get fun _ => hF.bind (hF.keeps_ensureLoaded _ _) fun _ => ?_) fun _ => hF.pure _
  exact hF.keeps_restoreRootWith flushes_rebased _ _

lemma DiskEngine.keeps_step_drain {V : Type} [Vfs V] [Crc32Fast] [FlushPolicy π] (fuel : ℕ) :
    Keeps Rebased (DiskEngine.step fuel (.op .drain) : Engine.Act π (DiskStore V) DiskReply) := by
  have hF : EngineFrame (Rebased : DiskEngine π V → DiskEngine π V → Prop) := engineFrame_rebased
  refine hF.bind (.get fun _ => hF.bind (hF.keeps_ensureLoaded _ _) fun _ => ?_) fun _ => hF.pure _
  refine DiskEngine.keeps_poisoning (hF.keeps_restoreRootWith flushes_rebased _ _) ?_
  rintro e _ ⟨s, id, rfl⟩
  exact ⟨{ s with poisoned := true }, id, rfl⟩

end Rebased

section Memory
variable {π : Type} [FlushPolicy π] {h : ℕ} {e : Engine π Ideal} {t : Live h} {b : BeTree π}

/-- What is asked of a tree is answered from the contents. -/
def BeTree.Answers (b : BeTree π) (c : Contents) : Prop :=
  ∀ op : Op, op.mutation = none → ∃ N reply b', op.Answers c reply ∧
    ∀ fuel ≥ N, Engine.step fuel op b = .ok reply b'

lemma Holds.answers (hπ : FlushPolicy.Legal π) (ht : Holds e t) (hal : Alike Arena.Same e b) :
    b.Answers (Live.contents t) := by
  intro op hop
  have hnum : op.Numbered e.nextSeq := by
    cases op with
    | mutate op => cases hop
    | _ => trivial
  obtain ⟨reply, _, _, _, b', N, hst, -, hrun⟩ := step_returns hπ ht hal op hnum
  exact ⟨N, reply, b', hst.answers, hrun⟩

end Memory

/-- A drain empties every buffer and leaves the contents, now in the leaves. It traces nothing and
does not touch the policy, and the tree satisfies I1 to I7. -/
theorem drain_settles {π : Type} [FlushPolicy π] {b : BeTree π} (hb : b.Reachable) :
    ∃ (c : Contents) (N : ℕ)
    (b' : BeTree π), (∀ fuel ≥ N, Engine.step fuel .drain b = .ok .done b') ∧
      (∃ store root, b' = { b with store := store, root := root }) ∧ b'.source.Lawful ∧
      b'.source.Drained c ∧
      b.Answers c ∧ b'.Answers c := by
  obtain ⟨hπ, e, h, t, ht, hal⟩ := hb.holds
  obtain ⟨reply, e', h', t', b', N, hst, hal', hrun⟩ := step_returns hπ ht hal .drain trivial
  obtain rfl : reply = .done := hst.answers
  have hsame : Resembles Renaming.same.rel Eq Eq (Arena.Models .same) e' b' := hal'
  have hc : Live.contents t' = Live.contents t := hst.contents
  have hdraws : b'.source.Draws b'.source.root (Live.plain t') :=
    hsame.store.draws hst.holds.stored (hst.holds.root ▸ hsame.root)
  refine ⟨Live.contents t, N, b', hrun, (keeps_step_drain N).ok (hrun N le_rfl),
    (hsame.lawful hst.holds).2, ?_, ht.answers hπ hal, ?_⟩
  · have hrest : (Live.plain t').RootRest b'.params := hsame.params ▸ hst.holds.rest
    exact hc ▸ hdraws.drained hst.holds.valid hrest (hst.quiet rfl)
  · exact hc ▸ hst.holds.answers hπ hal'

/-- A drain of a tree with messages on two levels. -/
theorem drain_settles_churned : BeTree.churned.store.nodes[5]? =
      some (.internal [[5]] [4, 7] (OrdMap.empty.insert [4] (.put 10 [7]))) ∧
    BeTree.churned.store.nodes[4]? = some (.internal [] [3] (OrdMap.empty.insert [2] (.delete 9))) ∧
    ∃ (c : Contents) (N : ℕ) (b' : BeTree GreedyFullest),
      (∀ fuel ≥ N, Engine.step fuel .drain BeTree.churned = .ok .done b') ∧ b'.source.Lawful ∧
      b'.source.Drained c ∧
      BeTree.churned.Answers c ∧ b'.Answers c := by
  obtain ⟨-, hmessages, hbelow, -⟩ := BeTree.churned_nodes
  obtain ⟨c, N, b', hrun, -, hlawful, hdrained, hbefore, hafter⟩ :=
    drain_settles BeTree.reachable_churned
  exact ⟨hmessages, hbelow, c, N, b', hrun, hlawful, hdrained, hbefore, hafter⟩

section Device
variable {V : Type} [Vfs V] [Honest V] [Crc32Fast]

/-- A drain of an engine on a device leaves the same contents in a tree without messages, with the
same trace and policy. If it fails the device has reported an error, and the trace and the policy
are still the same. -/
theorem DiskEngine.drain_quiets {π : Type} [FlushPolicy π] {m : KvStore} {r : DiskEngine π V}
    (hr : History m r) :
    ∃ N, ∀ fuel ≥ N, Ends (DiskEngine.step fuel (.op .drain)) r
      (fun reply r' => reply = .reply .done ∧
        (∃ store root, r' = { r with store := store, root := root }) ∧
        ∃ (h : ℕ) (T : Flagged h), DiskEngine.Shows Honest.file r' T ∧ T.Quiet ∧
          T.AtRest r'.params r'.nextSeq ∧
          ∀ k, T.resolve k = m.live k)
      fun f r' => Honest.Reports V f ∧ ∃ store root, r' = { r with store := store, root := root
        } := by
  obtain ⟨hπ, e, h, t, sb, D, prev, hs, rfl⟩ := hr.represents
  have hop : DiskOp.op .drain ≠ .commit := by simp
  obtain ⟨reply, e', h', t', N, hresp, -, hN⟩ := call_run (Honest.device (V := V))
    (fun _ hf => Honest.storage hf) hπ hs.holds hop trivial
    (DiskOp.safe_true _)
  obtain ⟨_, rfl, rfl⟩ := hresp.answers
  refine ⟨N, fun fuel hf => ?_⟩
  have hends := hN fuel hf r sb D prev hs
  cases hrun : DiskEngine.step fuel (.op .drain) r with
  | ok reply' r' =>
    obtain ⟨rfl, hs'⟩ := hends.ok hrun
    refine .of_ok hrun ⟨rfl, (DiskEngine.keeps_step_drain fuel).ok hrun, h', Live.plain t',
      hs'.toFollows.shows, hresp.quiet rfl,
      ?_, fun k => congrFun hresp.contents k⟩
    rw [hs'.alike.params, hs'.alike.nextSeq]
    exact hs'.holds.atRest
  | error f r' =>
    have hrep : Honest.Reports V f := by
      cases hends.error hrun with
      | missed hrep _ _ _ => exact hrep
      | poisoned _ hrep _ _ _ => exact hrep
      | overflow hnum => exact absurd trivial hnum
      | panic hcheck => cases hcheck
    obtain ⟨x, rfl⟩ := Honest.storage hrep
    exact .of_error hrun ⟨hrep, (DiskEngine.keeps_step_drain fuel).error hrun⟩

end Device

/-- A message in the root, above records on the device, is drained, and on a device that reports no
error the drain returns. -/
theorem DiskEngine.drain_quiets_worn : ∃ r : DiskEngine GreedyFullest FaultyVfs,
    (∃ x ∈ r.store.slots, x.dirty = true) ∧ .onDisk 8323 ∈ r.store.slots ∧
      ∃ N, ∀ fuel ≥ N, Ends (@DiskEngine.step _ _ _ crc32Ieee _ fuel (.op .drain)) r
        (fun reply r' => reply = .reply .done ∧
          ∃ (h : ℕ) (T : Flagged h), @DiskEngine.Shows _ _ crc32Ieee h (fun v => v.view) r' T ∧
          T.Quiet ∧ T.resolve [4] = none ∧ T.resolve [5] = some [4, 0, 0, 0, 0, 0, 0, 0])
          fun _ _ => False := by
  let _ := crc32Ieee
  let _ : Honest FaultyVfs := Reliable.honest
  obtain ⟨-, r, -, -, h, -, -, -, -, hdirty, hdisk, -⟩ :=
    history_worn Reliable.honest FaultyVfs.idle_new
  obtain ⟨N, hN⟩ := DiskEngine.drain_quiets h
  refine ⟨r, hdirty, hdisk, N, fun fuel hf => (hN fuel hf).mono ?_ fun _ _ h => h.1⟩
  rintro reply r' ⟨hreply, -, n, T, hshows, hquiet, -, hresolve⟩
  exact ⟨hreply, n, T, hshows, hquiet, hresolve _, hresolve _⟩

end Beetree
