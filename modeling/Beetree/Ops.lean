import Beetree.Root

/-! The mutating operations over the ideal store. -/
namespace Beetree

/-- What a mutating operation does to the value of its key. -/
def OpKind2.act : OpKind2 → Option Value → Option Value
  | .insert _ value, _ => some value
  | .delete _, _ => none
  | .upsert _ op, x => some (op.apply x)

lemma OpKind2.act_message (op : OpKind2) (seq : UInt64) (x : Option Value) :
    (op.message seq).act x = op.act x := by
  cases op <;> rfl

/-- What a mutating operation does to the contents. -/
def OpKind2.effect (op : OpKind2) (k : Key) (x : Option Value) : Option Value :=
  if k = op.key then op.act x else x

/-- An engine whose root holds a tree at rest. -/
structure Holds {π : Type} (e : Engine π Ideal) {h : ℕ} (t : Live h) : Prop where
  root : e.root = t.id
  stored : Stored e.store (Live.foot t)
  whole : Whole e.store (Live.foot t)
  good : ∀ p, Live.Good p none none t
  sound : Live.Sound (fun _ d => d.Labelled) t
  rest : (Live.plain t).RootRest e.params
  fresh : ∀ p k, (Live.view p t).Below k (e.nextSeq.toNat + 1)
  legal : e.params.Legal

/-- One tree turns into another whose contents are changed by `f`. -/
structure Evolves (q : Bool) (f : Key → Option Value → Option Value) {h h' : ℕ} (t : Live h)
    (t' : Live h') :
    Prop where
  resolve : ∀ p k, (Live.view p t').resolve k = f k ((Live.view p t).resolve k)
  offs : ∀ p, (Live.view p t').offs.Sublist (Live.view p t).offs
  sound : ∀ P, Hereditary P → Live.Sound P t → Live.Sound P t'
  closed : q = false → Live.Closed t → Live.Closed t'

section Write
variable {π : Type} {q : Bool} {h : ℕ} {e e' : Engine π Ideal}

/-- What a settled root gives, from a tree whose contents are already changed. -/
lemma Settles.holds {quiet : Prop} {t : Live h} (hs : Settles q quiet t e e')
    (hw : Whole e.store (Live.foot t))
    (hg : ∀ p, Live.Good p none none t)
    (hS : Live.Sound (fun _ d => d.Labelled) t)
    (hf : ∀ p k, (Live.view p t).Below k (e.nextSeq.toNat + 1))
    (hp : e.params.Legal) :
    ∃ (h' : ℕ) (t' : Live h'), Holds e' t' ∧ Becomes q t t' ∧ Moves (Live.foot t)
    (Live.foot t') e e' ∧
      (quiet → (Live.plain t').Quiet) := by
  obtain ⟨h', id, d, dk, x, hb, hroot, hres, hm, hrest, hq⟩ := hs
  refine ⟨h', Cell.known id d dk x, ⟨hroot, hm.shifts.stored, hm.shifts.whole hw,
    fun p => (hb.good p (hg p)).1,
    hb.sound _ hereditary_labelled hS, ?_, fun p k => ?_, ?_⟩, hb, hm, hq⟩
  · rw [hm.params]
    exact hrest
  · rw [hm.nextSeq]
    exact (hb.good p (hg p)).2.2.1 k _ (hf p k)
  · rw [hm.params]
    exact hp

def single (k : Key) (m : Message) : Buffer := OrdMap.empty.insert k m

lemma Node.accept_eq (k : Key) (m : Message) (n : Node) :
    n.accept k m = n.receive (single k m) := by
  cases n <;> rfl

@[simp] lemma get?_single (k k' : Key) (m : Message) :
    (single k m).get? k' = if k' = k then some m else none := by
  simp [single]

lemma Body.accept {x : Body h} {p : Bool} {k : Key} {m : Message} (hg : x.Good p none none)
    (hne : ¬ x.Childless) (hf : ∀ k, (x.view p).Below k m.seq.toNat) :
    (x.receive (single k m)).Good p none none ∧
      (∀ k', ((x.receive (single k m)).view p).resolve k' =
        if k' = k then m.act ((x.view p).resolve k') else (x.view p).resolve k') ∧
      ∀ k', ((x.receive (single k m)).view p).Below k' (m.seq.toNat + 1) := by
  refine ⟨hg.receive (fun _ _ _ => inRange_none _) (fun k' m' hm' => ?_) hne,
    fun k' => ?_, fun k' => ?_⟩
  · rw [get?_single] at hm'
    split_ifs at hm'
    obtain rfl := Option.some.inj hm'
    exact hf k'
  · rw [Body.view_receive, Tree.receive_resolve, get?_single]
    by_cases hk : k' = k <;> simp [hk]
  · rw [Body.view_receive]
    refine Tree.receive_below _ _ (fun _ => (hf k').mono (Nat.le_succ _)) fun m' hm' => ?_
    rw [get?_single] at hm'
    split_ifs at hm'
    obtain rfl := Option.some.inj hm'
    exact ⟨Nat.lt_succ_self _, hf k'⟩

lemma Body.ready_of_rest {prm : Params} {x : Body h} {d : Bool} (hr : (x.plain d).RootRest prm) :
    x.Ready prm := by
  cases h with
  | zero => trivial
  | succ h =>
    induction x using Body.succCases with
    | hn ps cs b =>
      have hr' : (Tree.node d ps (cs.map Live.plain) b).Rest prm := hr
      rw [Tree.rest_node, List.length_map] at hr'
      exact ⟨List.length_pos_iff.mp hr'.2.1, fun c hc => hr'.2.2.2 _ (List.mem_map_of_mem hc)⟩

lemma Body.Ready.not_childless {prm : Params} {x : Body h} (hr : x.Ready prm) : ¬ x.Childless := by
  cases h with
  | zero => exact fun hc => hc
  | succ h => exact hr.1

lemma Body.ready_receive {prm : Params} {x : Body h} {batch : Buffer} (hr : x.Ready prm) :
    (x.receive batch).Ready prm := by
  cases h with
  | zero => trivial
  | succ h => exact hr

lemma UInt64.toNat_succ {s : UInt64} (hs : s.toNat + 1 < 2 ^ 64) : (s + 1).toNat = s.toNat + 1 := by
  rw [UInt64.toNat_add]
  exact Nat.mod_eq_of_lt hs

def Engine.stamped (e : Engine π Ideal) (op : OpKind2) : Engine π Ideal :=
  { e with
    nextSeq := e.nextSeq + 1
    opsSinceCommit := e.opsSinceCommit + 1
    trace := e.trace.op (e.nextSeq + 1) op }

lemma stamp_run (op : OpKind2) (hs : e.nextSeq.toNat + 1 < 2 ^ 64) :
    Engine.stamp op e = .ok (e.nextSeq + 1) (e.stamped op) := by
  unfold Engine.stamp
  rw [Engine.run_bind Engine.run_get, if_pos hs]
  rfl

/-- The first half of a mutating operation: number it and hand its message to the root. -/
def Engine.enter {St : Type} [NodeStore St] (op : OpKind2) : Engine.Act π St Unit := do
  Engine.ensureLoaded (← get).root []
  let seq ← Engine.stamp op
  let _ ← Engine.mutate (← get).root (fun n => some (n.accept op.key (op.message seq)))

lemma mutateWith_eq {St : Type} [NodeStore St] [FlushPolicy π] (fuel : ℕ) (op : OpKind2) :
    (Engine.mutateWith fuel op : Engine.Act π St Unit) =
      (do Engine.enter op; Engine.restoreRoot fuel) := by
  unfold Engine.mutateWith Engine.enter Engine.applyRoot
  simp only [bind_assoc, pure_bind]

/-- A tree with a message just handed to its root. -/
structure Entered (op : OpKind2) (e e' : Engine π Ideal) (t : Live h)
    (dk : Option (VTree h)) (x : Body h) :
    Prop where
  ready : ∀ {q : Bool} {thr : ℕ}, thr ≤ e.params.bufferCapacity.toNat → q = true ∨ thr ≠ 0 →
    RootReady q thr e' t.id true dk x
  whole : Whole e'.store (Live.foot (Cell.known t.id true dk x))
  good : ∀ p, x.Good p none none
  resolve : ∀ p k, (x.view p).resolve k = op.effect k ((Live.view p t).resolve k)
  below : ∀ p k, (x.view p).Below k (e'.nextSeq.toNat + 1)
  offs : ∀ p, List.Sublist (x.view p).offs (Live.view p t).offs
  sound : ∀ P, Hereditary P → Live.Sound P t → Live.Sound P (Cell.known t.id true dk x)
  closed : Live.Closed t → Live.Closed (Cell.known t.id true dk x)
  params : e'.params = e.params
  nextSeq : e'.nextSeq = e.nextSeq + 1
  ops : e'.opsSinceCommit = e.opsSinceCommit + 1

theorem enter_run {t : Live h} (ht : Holds e t) (op : OpKind2) (hs : e.nextSeq.toNat + 1 < 2 ^ 64) :
    ∃ e' dk x, Engine.enter op e = .ok () e' ∧ Entered op e e' t dk x := by
  obtain ⟨e₁, d, dk, x, hrun₁, hopen, hgo₁, hres⟩ := ensureLoaded_run [] ht.stored ht.sound
  rw [← ht.root] at hrun₁
  have hseq : e₁.nextSeq = e.nextSeq := hgo₁.moves.nextSeq
  have hprm : e₁.params = e.params := hgo₁.params
  have hseq' : (e.nextSeq + 1).toNat = e.nextSeq.toNat + 1 := UInt64.toNat_succ hs
  have hl : Leads false t (Cell.known t.id true dk x) :=
    hopen.leads.trans (Leads.touch false _ d dk x)
  have hgood : ∀ p, x.Good p none none ∧ Tree.Yields none none (Live.view p t) (x.view p) := by
    intro p
    have := hl.good p none none (ht.good p)
    rwa [Live.good_dirty, Live.view_dirty] at this
  have hfresh : ∀ p k, (x.view p).Below k (op.message (e.nextSeq + 1)).seq.toNat := by
    intro p k
    rw [OpKind2.seq_message, hseq']
    exact (hgood p).2.below k _ (inRange_none k) (ht.fresh p k)
  have hready : x.Ready e.params := by
    have := ht.rest
    rw [← hopen.plain] at this
    exact Body.ready_of_rest this
  have haccept := fun p => Body.accept (k := op.key) (hgood p).1 hready.not_childless (hfresh p)
  have hS : ∀ P, Hereditary P → Live.Sound P t → Live.Sound P (Cell.known t.id true dk (x.receive
      (single op.key (op.message (e.nextSeq + 1))))) := by
    intro P hP hSP
    have := hl.sound P hP hSP
    exact ⟨this.1, by simp, Body.sound_receive.mpr this.2.2⟩
  obtain ⟨e₂, hmut, hgo₂⟩ := mutate_known (e := e₁.stamped op)
    (y := x.receive (single op.key (op.message (e.nextSeq + 1))))
    (f := fun n => some (n.accept op.key (op.message (e.nextSeq + 1)))) [] hgo₁.stored hres
    (by rw [Node.accept_eq, Body.toNode_receive]) (Body.foot_receive _ x).symm
  have hprm₂ : e₂.params = e.params := hgo₂.params.trans hprm
  have hseq₂ : e₂.nextSeq = e.nextSeq + 1 := hgo₂.moves.nextSeq.trans (congrArg (· + 1) hseq)
  refine ⟨e₂, dk, x.receive (single op.key (op.message (e.nextSeq + 1))), ?_, {
    ready := fun {q thr} hthr hq => {
      root := hgo₂.root.trans (hgo₁.root.trans ht.root)
      stored := hgo₂.stored
      resident := Or.inl rfl
      good := (haccept false).1
      sound := hS _ hereditary_labelled ht.sound
      kids := hprm₂ ▸ Body.ready_receive hready
      safe := hq.imp_right Or.inl
      legal := hprm₂ ▸ ht.legal
      cap := hprm₂ ▸ hthr }
    whole := hgo₂.shifts.whole (hgo₁.shifts.whole ht.whole)
    good := fun p => (haccept p).1
    resolve := fun p k => ?_
    below := fun p k => ?_
    offs := fun p => ?_
    sound := hS
    closed := fun hc => ?_
    params := hprm₂
    nextSeq := hseq₂
    ops := ?_ }⟩
  · have hstamp : Engine.stamp op e₁ = .ok (e.nextSeq + 1) (e₁.stamped op) := by
      rw [← hseq]
      exact stamp_run op (by rw [hseq]; exact hs)
    have hroot : (e₁.stamped op).root = t.id := hgo₁.root.trans ht.root
    unfold Engine.enter
    rw [Engine.run_bind Engine.run_get, Engine.run_bind hrun₁, Engine.run_bind hstamp,
      Engine.run_bind Engine.run_get, hroot, Engine.run_bind hmut]
    rfl
  · rw [(haccept p).2.1 k, OpKind2.act_message, (hgood p).2.same k (inRange_none k)]
    rfl
  · have := (haccept p).2.2 k
    rw [OpKind2.seq_message] at this
    rwa [hseq₂]
  · rw [Body.view_receive]
    exact (Tree.receive_offs _ _).trans (hgood p).2.offs
  · have := hl.closed rfl hc
    exact ⟨by simp, Body.closed_receive.mpr this.2⟩
  · rw [hgo₂.moves.ops]
    exact congrArg (· + 1) hgo₁.moves.ops

variable [FlushPolicy π]

/-- A mutating operation on a tree at rest gives a tree at rest with the contents changed. -/
theorem mutateWith_run (hπ : FlushPolicy.Legal π) {t : Live h} (ht : Holds e t) (op : OpKind2)
    (hs : e.nextSeq.toNat + 1 < 2 ^ 64) :
    ∃ (e' : Engine π Ideal) (h' : ℕ) (t' : Live h') (N : ℕ),
      (∀ fuel ≥ N, Engine.mutateWith fuel op e = .ok () e') ∧ Holds e' t' ∧
      Evolves false op.effect t t' ∧
      e'.params = e.params ∧ e'.nextSeq = e.nextSeq + 1 ∧
      e'.opsSinceCommit = e.opsSinceCommit + 1 := by
  obtain ⟨e₁, dk, x, hrun₁, hent⟩ := enter_run ht op hs
  have hB : e.params.bufferCapacity.toNat ≠ 0 := Nat.one_le_iff_ne_zero.mp ht.legal.2.1
  have hgood : ∀ p, Live.Good p none none (Cell.known t.id true dk x) := fun p =>
    (Live.good_dirty dk x).mpr (hent.good p)
  obtain ⟨e₂, N, hset, hrun₂⟩ := restoreRoot_run (pickAndExtract_run hπ) true
    (hent.ready (q := false) le_rfl (Or.inr hB))
  obtain ⟨h', t', hold, hbec, hm, -⟩ :=
    hset.holds hent.whole hgood (hent.sound _ hereditary_labelled ht.sound)
    (fun p k => by
      rw [Live.view_dirty]
      exact hent.below p k) (hent.params ▸ ht.legal)
  refine ⟨e₂, h', t', N, fun fuel hf => ?_, hold, ⟨fun p k => ?_, fun p => ?_, fun P hP hSP => ?_,
    fun _ hc => ?_⟩,
    hm.params.trans hent.params, hm.nextSeq.trans hent.nextSeq, hm.ops.trans hent.ops⟩
  · rw [mutateWith_eq, Engine.run_bind hrun₁]
    unfold Engine.restoreRoot
    rw [Engine.run_bind Engine.run_get, hent.params]
    exact hrun₂ fuel hf
  · rw [(hbec.good p (hgood p)).2.1 k, Live.view_dirty, hent.resolve p k]
  · refine (hbec.good p (hgood p)).2.2.2.trans ?_
    rw [Live.view_dirty]
    exact hent.offs p
  · exact hbec.sound P hP (hent.sound P hP hSP)
  · exact hbec.closed rfl (hent.closed hc)

omit [FlushPolicy π] in
/-- A tree at rest is ready to be settled, once its root is in memory. -/
theorem rest_ready {t : Live h} (ht : Holds e t) {thr : ℕ}
    (hthr : thr ≤ e.params.bufferCapacity.toNat)
    (hq : q = true ∨ thr ≠ 0 ∨ (Live.plain t).DrainSafe (fun _ => False) none none) :
    ∃ e₁ d dk x, Engine.ensureLoaded e.root [] e = .ok () e₁ ∧ RootReady q thr e₁ t.id d dk x ∧
      Opens t (Cell.known t.id d dk x) ∧ Goes [] (Live.foot t)
      (Live.foot (Cell.known t.id d dk x)) e e₁ := by
  obtain ⟨e₁, d, dk, x, hrun₁, hopen, hgo₁, hres⟩ := ensureLoaded_run [] ht.stored ht.sound
  rw [← ht.root] at hrun₁
  have hl : Leads q t (Cell.known t.id d dk x) := hopen.leads.weaken
  refine ⟨e₁, d, dk, x, hrun₁, {
    root := hgo₁.root.trans ht.root
    stored := hgo₁.stored
    resident := hres
    good := (hl.good false none none (ht.good false)).1.1
    sound := hl.sound _ hereditary_labelled ht.sound
    kids := ?_
    safe := hq.imp_right (Or.imp_right fun hs => ?_)
    legal := hgo₁.params ▸ ht.legal
    cap := hgo₁.params ▸ hthr }, hopen, hgo₁⟩
  · have := ht.rest
    rw [← hopen.plain, ← hgo₁.params] at this
    exact Body.ready_of_rest this
  · rw [← hopen.plain] at hs
    exact hs

/-- A drain leaves a tree at rest with the same contents and no messages. Where it is safe, it
dirties nothing below a clean node. -/
theorem drain_holds (hπ : FlushPolicy.Legal π) {t : Live h} (ht : Holds e t)
    (hq : q = true ∨ (Live.plain t).DrainSafe (fun _ => False) none none) :
    ∃ (e' : Engine π Ideal) (h' : ℕ) (t' : Live h') (N : ℕ),
      (∀ fuel ≥ N, Engine.drain fuel e = .ok () e') ∧ Holds e' t' ∧ Evolves q (fun _ x => x) t t' ∧
      (Live.plain t').Quiet ∧ e'.params = e.params ∧ e'.nextSeq = e.nextSeq ∧
      e'.opsSinceCommit = e.opsSinceCommit := by
  obtain ⟨e₁, d, dk, x, hrun₁, hready, hopen, hgo₁⟩ := rest_ready ht (Nat.zero_le _)
    (hq.imp_right Or.inr)
  have hl : Leads q t (Cell.known t.id d dk x) := hopen.leads.weaken
  have hgood := fun p => hl.good p none none (ht.good p)
  have hS := hl.sound _ hereditary_labelled ht.sound
  obtain ⟨e₂, N, hset, hrun₂⟩ := restoreRoot_run (pickAndExtract_run hπ) false hready
  obtain ⟨h', t', hold, hbec, hm, hquiet⟩ := hset.holds (hgo₁.shifts.whole ht.whole)
    (fun p => (hgood p).1) hS (fun p k => by
    rw [hgo₁.moves.nextSeq]
    exact (hgood p).2.below k _ (inRange_none k) (ht.fresh p k)) (hgo₁.params ▸ ht.legal)
  refine ⟨e₂, h', t', N, fun fuel hf => ?_, hold, ⟨fun p k => ?_, fun p => ?_, fun P hP hSP => ?_,
    fun hq hc => ?_⟩,
    hquiet rfl, hm.params.trans hgo₁.params, hm.nextSeq.trans hgo₁.moves.nextSeq,
      hm.ops.trans hgo₁.moves.ops⟩
  · unfold Engine.drain
    rw [Engine.run_bind Engine.run_get, Engine.run_bind hrun₁]
    exact hrun₂ fuel hf
  · rw [(hbec.good p (hgood p).1).2.1 k, (hgood p).2.same k (inRange_none k)]
  · exact (hbec.good p (hgood p).1).2.2.2.trans (hgood p).2.offs
  · exact hbec.sound P hP (hl.sound P hP hSP)
  · exact hbec.closed hq (hl.closed hq hc)

end Write
end Beetree
