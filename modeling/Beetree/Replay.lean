import Beetree.Frame
import Beetree.Fuel
import Beetree.Reach

/-! Traces and what they say of a run (`src/trace.rs`).

The complete trace has the operations of a run with their numbers, whatever else it has. So
replaying it rebuilds the contents, and under the policy of the replay and without drains, where
every change in the tree is due to an operation, the tree itself. -/
namespace Beetree

/-- The mutating operations of a trace with their numbers. -/
def TraceEvent2.mutation : TraceEvent2 → Option (UInt64 × OpKind2)
  | .op seq o => some (seq, o)
  | _ => none

def Recorder.mutations (r : Recorder) : List (UInt64 × OpKind2) :=
    r.v2.filterMap TraceEvent2.mutation

def numbered (seq : UInt64) : List OpKind2 → List (UInt64 × OpKind2)
  | [] => []
  | op :: ops => (seq + 1, op) :: numbered (seq + 1) ops

def Op.mutation : Op → Option OpKind2
  | .mutate op => some op
  | _ => none

section Events
variable (r : Recorder)

@[simp] lemma Recorder.mutations_op (seq : UInt64) (op : OpKind2) :
    (r.op seq op).mutations = r.mutations ++ [(seq, op)] := by
  cases op <;> simp [Recorder.mutations, Recorder.op, TraceEvent2.mutation]

@[simp] lemma Recorder.mutations_get (key : Key) : (r.get key).mutations = r.mutations := by
  simp [Recorder.mutations, Recorder.get, TraceEvent2.mutation]

@[simp] lemma Recorder.mutations_scan (lo hi : Bound) : (r.scan lo hi).mutations = r.mutations := by
  simp [Recorder.mutations, Recorder.scan, TraceEvent2.mutation]

@[simp] lemma Recorder.mutations_flushDecision (node : NodeId) (occ : List ℕ) (chosen : ℕ) :
    (r.flushDecision node occ chosen).mutations = r.mutations := by
  simp [Recorder.mutations, Recorder.flushDecision, TraceEvent2.mutation]

end Events

section Frame
variable {π St : Type} [NodeStore St]

/-- The operations recorded and the counter stay. -/
def Unnumbered (e e' : Engine π St) : Prop := e'.trace.mutations = e.trace.mutations ∧
    e'.nextSeq = e.nextSeq

lemma engineFrame_unnumbered : EngineFrame (Unnumbered : Engine π St → Engine π St → Prop) :=
  .of_rest (fun h h' => ⟨h'.1.trans h.1, h'.2.trans h.2⟩) fun _ _ _ => ⟨rfl, rfl⟩

lemma flushes_unnumbered [FlushPolicy π] (tr : Bool) :
    KeepsFlushes tr (Unnumbered : Engine π St → Engine π St → Prop) :=
  engineFrame_unnumbered.keepsFlushes (fun _ _ _ => Keeps.modify fun e => ⟨by simp, rfl⟩)
    (fun _ _ => .of_ok rfl ⟨rfl, rfl⟩) tr

/-- An operation that returned has been recorded if it changes anything, under the next number. -/
lemma step_mutations [FlushPolicy π] {fuel : ℕ} {op : Op} {e e' : Engine π St} {reply : Reply}
    (h : Engine.step fuel op e = .ok reply e') :
    e'.trace.mutations = e.trace.mutations ++ numbered e.nextSeq op.mutation.toList ∧
    e'.nextSeq = op.advance e.nextSeq := by
  have hF : EngineFrame (Unnumbered : Engine π St → Engine π St → Prop) := engineFrame_unnumbered
  have hquiet : ∀ {m : Engine.Act π St Reply}, Keeps Unnumbered m → m e = .ok reply e' →
      e'.trace.mutations = e.trace.mutations ++ numbered e.nextSeq [] ∧ e'.nextSeq = e.nextSeq := by
    intro m hm hrun
    rw [numbered, List.append_nil]
    exact hm.ok hrun
  cases op with
  | mutate op =>
    obtain ⟨_, e₁, hrun, hpure⟩ := bind_eq_ok (x := Engine.mutateWith fuel op) h
    cases hpure
    unfold Engine.mutateWith at hrun
    rw [run_get_bind] at hrun
    obtain ⟨_, e₁, hload, hrun⟩ := bind_eq_ok hrun
    obtain ⟨seq, e₂, hstamp, hrun⟩ := bind_eq_ok hrun
    obtain ⟨hm₁, hs₁⟩ := (hF.keeps_ensureLoaded _ _).ok hload
    obtain ⟨hm₃, hs₃⟩ := (hF.keeps_applyRoot (flushes_unnumbered true) _ _ _).ok hrun
    unfold Engine.stamp at hstamp
    rw [run_get_bind] at hstamp
    split_ifs at hstamp
    · cases hstamp
      rw [hm₃, hs₃, Recorder.mutations_op, hm₁, hs₁]
      exact ⟨rfl, rfl⟩
    · cases hstamp
  | get key =>
    exact hquiet (hF.bind (hF.keeps_lookup fuel (Keeps.modify fun e => ⟨by simp, rfl⟩))
      fun _ => hF.pure _) h
  | scan lo hi =>
    exact hquiet (hF.bind (hF.keeps_scan fuel (Keeps.modify fun e => ⟨by simp, rfl⟩))
      fun _ => hF.pure _) h
  | drain =>
    refine hquiet (hF.bind (.get fun _ => hF.bind (hF.keeps_ensureLoaded _ _) fun _ => ?_)
      fun _ => hF.pure _) h
    exact hF.keeps_restoreRootWith (flushes_unnumbered false) _ _

lemma numbered_append (seq : UInt64) (op : Op) (ops : List OpKind2) :
    numbered seq (op.mutation.toList ++ ops) = numbered seq op.mutation.toList ++ numbered
      (op.advance seq) ops := by
  cases op <;> rfl

lemma run_mutations [FlushPolicy π] {fuel : ℕ} {ops : List Op} {e e' : Engine π St}
    {replies : List Reply}
    (h : runOps (Engine.step fuel) ops e = .ok replies e') :
    e'.trace.mutations = e.trace.mutations ++ numbered e.nextSeq (ops.filterMap Op.mutation) := by
  induction ops generalizing e replies with
  | nil =>
    cases h
    exact (List.append_nil _).symm
  | cons op ops ih =>
    obtain ⟨reply, e₁, hstep, h⟩ := bind_eq_ok h
    obtain ⟨replies', e₂, hrun, hpure⟩ := bind_eq_ok h
    cases hpure
    obtain ⟨hm, hs⟩ := step_mutations hstep
    have hsplit :
      (op :: ops).filterMap Op.mutation = op.mutation.toList ++ ops.filterMap Op.mutation := by
      cases op <;> rfl
    rw [ih hrun, hm, hs, hsplit, numbered_append, List.append_assoc]

end Frame

section Contents
variable {π σ : Type} [FlushPolicy π] [FlushPolicy σ] {b b' : BeTree π} {c : BeTree σ}

/-- An operation that can be numbered returns, with any fuel that is enough. -/
lemma step_returns (hπ : FlushPolicy.Legal π) {e : Engine π Ideal} {h : ℕ} {t : Live h}
    (ht : Holds e t) (hb : Alike Arena.Same e b)
    (op : Op) (hs : op.Numbered e.nextSeq) :
    ∃ (reply : Reply) (e' : Engine π Ideal) (h' : ℕ) (t' : Live h') (b' : BeTree π)
    (N : ℕ), StepsTo true op reply e e' t t' ∧
      Alike Arena.Same e' b' ∧ ∀ fuel ≥ N, Engine.step fuel op b = .ok reply b' := by
  obtain ⟨reply, e', h', t', N, hst, -, harena⟩ := step_alike hπ ht op hs
  obtain ⟨b', hrun, hal⟩ := harena N le_rfl b hb
  exact ⟨reply, e', h', t', b', N, hst, hal, fun fuel hf => (refines_step hf op).ok hrun⟩

lemma step_numbered {e : Engine π Ideal} {h : ℕ} {t : Live h} (ht : Holds e t)
    (hb : Alike Arena.Same e b) {op : Op} {fuel : ℕ}
    {reply : Reply} (hrun : Engine.step fuel op b = .ok reply b') : op.Numbered e.nextSeq := by
  by_contra hs
  obtain ⟨f, b₁, hb₁, -⟩ := (arenaSim .same).step_overflow ht hb op hs fuel
  rw [hrun] at hb₁
  cases hb₁

/-- Trees at rest with the same contents and counter. -/
def SameContents (b : BeTree π) (c : BeTree σ) : Prop :=
  ∃ (e : Engine π Ideal) (h : ℕ) (t : Live h) (e' : Engine σ Ideal) (h' : ℕ)
    (t' : Live h'), Holds e t ∧ Alike Arena.Same e b ∧
    Holds e' t' ∧ Alike Arena.Same e' c ∧ Live.contents t' = Live.contents t ∧
      e'.nextSeq = e.nextSeq

omit [FlushPolicy π] [FlushPolicy σ] in
lemma SameContents.nextSeq (h : SameContents b c) : c.nextSeq = b.nextSeq := by
  obtain ⟨e, _, t, e', _, t', -, hb, -, hc, -, hseq⟩ := h
  rw [hc.nextSeq, hb.nextSeq, hseq]

lemma SameContents.reads (hπ : FlushPolicy.Legal π) (hσ : FlushPolicy.Legal σ)
    (h : SameContents b c) (op : Op)
    (hop : op.mutation = none) :
    ∃ N reply b' c', ∀ fuel ≥ N, Engine.step fuel op b = .ok reply b' ∧
    Engine.step fuel op c = .ok reply c' := by
  obtain ⟨e, h, t, e', h', t', ht, hb, ht', hc, heq, hseq⟩ := h
  have hnum : ∀ seq, op.Numbered seq := by
    cases op with
    | mutate op => cases hop
    | _ => exact fun _ => trivial
  obtain ⟨reply, _, _, _, b', N, hst, -, hrun⟩ := step_returns hπ ht hb op (hnum _)
  obtain ⟨reply', _, _, _, c', N', hst', -, hrun'⟩ := step_returns hσ ht' hc op (hnum _)
  have hans := hst'.answers
  rw [heq] at hans
  obtain rfl := hans.unique hst.answers
  exact ⟨max N N', reply', b', c', fun fuel hf => ⟨hrun fuel (le_of_max_le_left hf),
    hrun' fuel (le_of_max_le_right hf)⟩⟩

/-- Applying the operations of a run again, without the rest, leads to the same contents. -/
lemma SameContents.replays (hπ : FlushPolicy.Legal π) (hσ : FlushPolicy.Legal σ) {ops : List Op}
    {fuel : ℕ} {replies : List Reply}
    (h : SameContents b c) (hrun : runOps (Engine.step fuel) ops b = .ok replies b') :
    ∃ N replies' c', SameContents b' c' ∧
      ∀ fuel ≥ N, runOps (Engine.step fuel)
      ((ops.filterMap Op.mutation).map .mutate) c = .ok replies' c' := by
  induction ops generalizing b c replies with
  | nil =>
    cases hrun
    exact ⟨0, [], c, h, fun _ _ => rfl⟩
  | cons op ops ih =>
    obtain ⟨reply, b₁, hstep, hrest⟩ := bind_eq_ok hrun
    obtain ⟨replies', b₂, hrun', hpure⟩ := bind_eq_ok hrest
    cases hpure
    obtain ⟨e, h, t, e', h', t', ht, hb, ht', hc, heq, hseq⟩ := h
    obtain ⟨e₁, h₁, t₁, hst, hb₁⟩ :=
      step_holds hπ ht hb ⟨fuel, fun _ hf => (refines_step hf op).ok hstep⟩
    have hnum := step_numbered ht hb hstep
    cases op with
    | mutate op =>
      obtain ⟨reply', e₁', h₁', t₁', c₁, N₁, hst', hc₁, hrun₁⟩ :=
        step_returns hσ ht' hc (.mutate op) (hseq ▸ hnum)
      have hsame : SameContents b₁ c₁ := by
        refine ⟨e₁, h₁, t₁, e₁', h₁', t₁', hst.holds, hb₁, hst'.holds, hc₁, ?_, ?_⟩
        · rw [hst'.contents, hst.contents, heq]
        · rw [hst'.nextSeq, hst.nextSeq, hseq]
      obtain ⟨N₂, replies'', c', hsame', hrun₂⟩ := ih hsame hrun'
      refine ⟨max N₁ N₂, reply' :: replies'', c', hsame', fun fuel hf => ?_⟩
      have hlater := run_bind_ok (f := fun rs => pure (reply' :: rs))
        (hrun₂ fuel (le_of_max_le_right hf))
      exact (run_bind_ok (hrun₁ fuel (le_of_max_le_left hf))).trans hlater
    | _ =>
      have hsame : SameContents b₁ c := by
        refine ⟨e₁, h₁, t₁, e', h', t', hst.holds, hb₁, ht', hc, ?_, ?_⟩
        · rw [hst.contents, heq]
          rfl
        · rw [hst.nextSeq, hseq]
          rfl
      exact ih hsame hrun'

omit [FlushPolicy π] in
lemma replay2_run {fuel : ℕ} {events : List TraceEvent2} {c c' : BeTree σ} {replies : List Reply}
    (h : runOps (Engine.step fuel) ((events.filterMap TraceEvent2.mutation).map
      fun x => .mutate x.2) c = .ok replies c') :
    replay2 (Engine.mutateWith fuel) events c = .ok () c' := by
  induction events generalizing c replies with
  | nil =>
    cases h
    rfl
  | cons event events ih =>
    cases event with
    | op seq op =>
      obtain ⟨reply, c₁, hstep, hrest⟩ := bind_eq_ok h
      obtain ⟨replies', c₂, hrun, hpure⟩ := bind_eq_ok hrest
      cases hpure
      obtain ⟨_, c₃, hmutate, hpure⟩ := bind_eq_ok hstep
      cases hpure
      exact (run_bind_ok hmutate).trans (ih hrun)
    | get key => exact ih h
    | scan lo hi => exact ih h
    | flushDecision node occ chosen => exact ih h

end Contents

lemma map_numbered {α : Type} (f : OpKind2 → α) (seq : UInt64) (ops : List OpKind2) :
    (numbered seq ops).map (fun x => f x.2) = ops.map f := by
  induction ops generalizing seq with
  | nil => rfl
  | cons op ops ih => exact congrArg _ (ih (seq + 1))

/-- Replaying the trace of a run from a new engine is running its operations again. -/
lemma replay2_of_run {π σ : Type} [FlushPolicy π] [FlushPolicy σ] {b b' : BeTree π}
    {c c' : BeTree σ} {fuel fuel' : ℕ}
    {ops : List Op} {replies replies' : List Reply} (hb : b.trace.mutations = [])
    (hrun : runOps (Engine.step fuel) ops b = .ok replies b')
    (hreplay : runOps (Engine.step fuel') ((ops.filterMap Op.mutation).map .mutate)
      c = .ok replies' c') :
    replay2 (Engine.mutateWith fuel') b'.trace.v2 c = .ok () c' := by
  have hmutations :
    b'.trace.mutations.map (fun x => Op.mutate x.2) = (ops.filterMap Op.mutation).map .mutate := by
    rw [run_mutations hrun, hb, List.nil_append, map_numbered]
  rw [← hmutations] at hreplay
  exact replay2_run hreplay

section Faithful
variable {π : Type} [FlushPolicy π] {params : Params} {policy : π} {b b' : BeTree π} {fuel : ℕ}
    {ops : List Op} {replies : List Reply}

/-- The trace of a run from a new tree, and what its replay under the default policy gives. -/
lemma replay2_sameContents (hπ : FlushPolicy.Legal π) (hb : BeTree.withPolicy params policy = .ok b)
    (hrun : runOps (Engine.step fuel) ops b = .ok replies b') :
    b'.trace.mutations = numbered 0 (ops.filterMap Op.mutation) ∧
    ∃ N c c', BeTree.new params = .ok c ∧
      (∀ fuel ≥ N, replay2 (Engine.mutateWith fuel) b'.trace.v2 c = .ok () c') ∧
      c'.trace.mutations = b'.trace.mutations ∧
      SameContents b' c' := by
  have hp : params.Legal := by
    by_contra hp
    simp [BeTree.withPolicy, hp] at hb
  obtain ⟨_, hb', hal⟩ := withPolicy_eq hp policy
  obtain ⟨c, hc, halc⟩ := withPolicy_eq hp (⟨⟩ : GreedyFullest)
  rw [hb] at hb'
  cases hb'
  have hsame : SameContents b c := ⟨_, 0, _, _, 0, _, holds_fresh hp policy, hal,
    holds_fresh hp ⟨⟩, halc, rfl, rfl⟩
  have htrace : b'.trace.mutations = numbered 0 (ops.filterMap Op.mutation) := by
    rw [run_mutations hrun, ← hal.trace, hal.nextSeq]
    rfl
  obtain ⟨N, replies', c', hsame', hreplay⟩ := hsame.replays hπ GreedyFullest.legal hrun
  have hsole : ∀ os : List OpKind2, (os.map Op.mutate).filterMap Op.mutation = os := by
    intro os
    simp [List.filterMap_map, Function.comp_def, Op.mutation]
  refine ⟨htrace, N, c, c', hc, fun fuel hf => ?_, ?_, hsame'⟩
  · exact replay2_of_run (hal.trace ▸ rfl) hrun (hreplay fuel hf)
  · rw [run_mutations (hreplay N le_rfl), htrace, ← halc.trace, halc.nextSeq, hsole]
    rfl

end Faithful

/-- A trace says it all: it has the operations of a run in order, numbered from one, and applying
them again under the default policy gives a tree that answers like the first one and numbers the
next operation alike. -/
theorem replay2_faithful {π : Type} [FlushPolicy π] (hπ : FlushPolicy.Legal π) {params : Params}
    {policy : π} {b b' : BeTree π}
    (hb : BeTree.withPolicy params policy = .ok b) {fuel : ℕ} {ops : List Op} {replies : List Reply}
    (hrun : runOps (Engine.step fuel) ops b = .ok replies b') :
    b'.trace.mutations = numbered 0 (ops.filterMap Op.mutation) ∧
    ∃ N c c', BeTree.new params = .ok c ∧
      (∀ fuel ≥ N, replay2 (Engine.mutateWith fuel) b'.trace.v2 c = .ok () c') ∧
      c'.trace.mutations = b'.trace.mutations ∧
      c'.nextSeq = b'.nextSeq ∧ ∀ op : Op, op.mutation = none →
        ∃ N reply b'' c'', ∀ fuel ≥ N, Engine.step fuel op b' = .ok reply b'' ∧
        Engine.step fuel op c' = .ok reply c'' := by
  obtain ⟨htrace, N, c, c', hc, hreplay, hmutations, hsame⟩ := replay2_sameContents hπ hb hrun
  exact ⟨htrace, N, c, c', hc, hreplay, hmutations, hsame.nextSeq,
    hsame.reads hπ GreedyFullest.legal⟩

/-- The trace of a run that flushes, splits and unlinks nodes. -/
theorem replay2_faithful_churned :
    BeTree.churned.trace.mutations = numbered 0 (Op.churn.filterMap Op.mutation) ∧
    ∃ N c', (∀ fuel ≥ N, replay2 (Engine.mutateWith fuel) BeTree.churned.trace.v2 BeTree.tiny = .ok
      () c') ∧ c'.nextSeq = 10 ∧
      ∃ M reply b'' c'', ∀ fuel ≥ M, Engine.step fuel (.scan .unbounded .unbounded)
        BeTree.churned = .ok reply b'' ∧
        Engine.step fuel (.scan .unbounded .unbounded) c' = .ok reply c'' := by
  obtain ⟨replies, hrun⟩ := BeTree.churn_runs
  have hb : BeTree.withPolicy Params.tiny ⟨⟩ = .ok BeTree.tiny := rfl
  obtain ⟨htrace, N, c, c', hc, hreplay, -, hseq, hreads⟩ :=
    replay2_faithful GreedyFullest.legal hb hrun
  have hnext : BeTree.churned.nextSeq = 10 := by decide +kernel
  cases hc
  exact ⟨htrace, N, c', hreplay, hseq.trans hnext, hreads _ rfl⟩

section Exact

lemma storeSim_eq {St : Type} [NodeStore St]
    (hlooks : ∀ {id n} {s s' : St}, NodeStore.loaded id s = .ok n s' → s' = s) :
    StoreSim Eq (Eq : St → St → Prop) (fun _ _ => True) fun _ => False where
  loaded := by
    rintro id _ rfl s _ rfl n s' hrun
    exact Or.inl ⟨n, s', hrun, NodeRel.refl n, rfl, trivial⟩
  mutate := by
    rintro id _ f f' rfl hf s _ rfl n s' hrun
    obtain rfl : f = f' := funext hf.eq
    exact Or.inl ⟨n, s', hrun, NodeRel.refl n, rfl, trivial⟩
  alloc := by
    intro n n' hn s _ hs id s' hrun
    obtain rfl := hn.eq
    subst hs
    exact Or.inl ⟨id, s', hrun, rfl, rfl, trivial⟩
  releaseSlot := by
    rintro id _ rfl s _ rfl u s' hrun
    exact Or.inl ⟨u, s', hrun, rfl, rfl, trivial⟩
  isDirty := by
    rintro id _ rfl s _ rfl d s' hrun
    exact Or.inl ⟨d, s', hrun, rfl, rfl, trivial⟩
  ensureLoaded := by
    rintro id _ pins pins' rfl hpins s _ rfl u s' hrun
    rw [List.forall₂_eq_eq_eq] at hpins
    subst hpins
    exact Or.inl ⟨u, s', hrun, rfl, rfl, trivial⟩
  unique := ⟨fun _ _ _ h h' => h.trans h'.symm, fun _ _ _ h h' => h.symm.trans h'⟩
  looks := hlooks
  refl _ := trivial
  trans _ _ := trivial

lemma Arena.loaded_self {id : NodeId} {n : Node} {a a' : Arena}
    (h : NodeStore.loaded id a = .ok n a') : a' = a := by
  simp only [NodeStore.loaded] at h
  split at h
  · cases h
    rfl
  · cases h

/-- Whether an event is about what an engine does, not what it is asked. -/
def TraceEvent2.acts : TraceEvent2 → Bool
  | .op .. => true
  | .flushDecision .. => true
  | _ => false

def SameActs (r r' : Recorder) :
    Prop := r.v2.filter TraceEvent2.acts = r'.v2.filter TraceEvent2.acts

lemma traceSim_acts : TraceSim Eq SameActs where
  op seq op h := by
    unfold SameActs at h ⊢
    cases op <;> simp [Recorder.op, h]
  get key h := by
    unfold SameActs at h ⊢
    simp [Recorder.get, h]
  scan lo hi h := by
    unfold SameActs at h ⊢
    simp [Recorder.scan, h]
  flush occ chosen hij h := by
    unfold SameActs at h ⊢
    simp [Recorder.flushDecision, h, hij]

/-- Trees that differ in the reads of their traces only. -/
abbrev SameTree {π : Type} (b c : BeTree π) : Prop := Resembles Eq Eq SameActs Eq b c

variable {π : Type} {b b' c : BeTree π}

lemma SameTree.refl (b : BeTree π) : SameTree b b := ⟨rfl, rfl, rfl, rfl, rfl, rfl, rfl⟩

lemma SameTree.symm (h : SameTree b c) : SameTree c b :=
  ⟨h.store.symm, h.params.symm, h.root.symm, h.nextSeq.symm, h.ops.symm, h.policy.symm,
    Eq.symm h.trace⟩

lemma SameTree.eq (h : SameTree b c) : c = { b with trace := c.trace } := by
  obtain ⟨hstore, hparams, hroot, hseq, hops, hpolicy, -⟩ := h
  cases c
  dsimp only at hstore hparams hroot hseq hops hpolicy
  subst hstore hparams hroot hseq hops hpolicy
  rfl

lemma SameTree.trans (h : SameTree b b') (h' : SameTree b' c) : SameTree b c :=
  ⟨h.store.trans h'.store, h'.params.trans h.params, h.root.trans h'.root,
    h'.nextSeq.trans h.nextSeq, h'.ops.trans h.ops,
    h.policy.trans h'.policy, Eq.trans h.trace h'.trace⟩

lemma SameTree.record {f : Recorder → Recorder} (hf : ∀ r, SameActs r (f r)) :
    Keeps (SameTree : BeTree π → BeTree π → Prop) (Engine.record f) :=
  Keeps.modify fun b => ⟨rfl, rfl, rfl, rfl, rfl, rfl, hf b.trace⟩

lemma readFrame_sameTree : ReadFrame (SameTree : BeTree π → BeTree π → Prop) where
  refl := SameTree.refl
  trans := SameTree.trans
  keeps_loaded id := by
    refine Keeps.of_runs (fun b n b' hrun => ?_) fun b d b' hrun => ?_
    · obtain ⟨a, hload, rfl⟩ := onStore_eq_ok hrun
      rw [Arena.loaded_self hload]
      exact .refl b
    · simp only [Engine.loaded, Engine.onStore, NodeStore.loaded] at hrun
      cases hn : b.store.nodes[id]? with
      | none =>
        rw [hn] at hrun
        cases hrun
        exact .refl b
      | some n =>
        rw [hn] at hrun
        cases hrun
  keeps_ensureLoaded _ _ b := .of_ok rfl (.refl b)

variable [FlushPolicy π]

lemma SameTree.read {op : Op} (hop : op.mutation = none) (hd : op ≠ .drain)
    {fuel : ℕ} {reply : Reply}
    (hrun : Engine.step fuel op b = .ok reply b') : SameTree b b' := by
  have hR : ReadFrame (SameTree : BeTree π → BeTree π → Prop) := readFrame_sameTree
  cases op with
  | mutate op => cases hop
  | get key =>
    refine (hR.bind (hR.keeps_lookup fuel (SameTree.record fun r => ?_)) fun v => hR.pure _).ok hrun
    simp [SameActs, Recorder.get, TraceEvent2.acts]
  | scan lo hi =>
    refine (hR.bind (hR.keeps_scan fuel (SameTree.record fun r => ?_)) fun l => hR.pure _).ok hrun
    simp [SameActs, Recorder.scan, TraceEvent2.acts]
  | drain => exact absurd rfl hd

lemma SameTree.mutate {op : Op} {fuel : ℕ} {reply : Reply} (h : SameTree b c)
    (hrun : Engine.step fuel op b = .ok reply b') :
    ∃ c', Engine.step fuel op c = .ok reply c' ∧ SameTree b' c' := by
  rcases (storeSim_eq Arena.loaded_self).sims_step traceSim_acts (policySim_eq π) fuel op b c h
    trivial reply b' hrun with
    ⟨_, c', hc', rfl, -, hal, -⟩ | ⟨f, c', -, -, hf, -⟩
  · exact ⟨c', hc', hal⟩
  · exact hf.elim

/-- The operations of a run without drains, applied again without the reads, make the same tree. -/
lemma SameTree.replays {fuel : ℕ} {ops : List Op} {replies : List Reply} (h : SameTree b c)
    (hd : Op.drain ∉ ops)
    (hrun : runOps (Engine.step fuel) ops b = .ok replies b') : ∃ replies' c',
      runOps (Engine.step fuel) ((ops.filterMap Op.mutation).map .mutate) c = .ok replies' c' ∧
      SameTree b' c' := by
  induction ops generalizing b c replies with
  | nil =>
    cases hrun
    exact ⟨[], c, rfl, h⟩
  | cons op ops ih =>
    obtain ⟨hne, hrest'⟩ := not_or.mp (List.mem_cons.not.mp hd)
    obtain ⟨reply, b₁, hstep, hrest⟩ := bind_eq_ok hrun
    obtain ⟨replies', b₂, hrun', hpure⟩ := bind_eq_ok hrest
    cases hpure
    cases hop : op.mutation with
    | none =>
      have hskip : (op :: ops).filterMap Op.mutation = ops.filterMap Op.mutation := by simp [hop]
      rw [hskip]
      exact ih ((SameTree.read hop (Ne.symm hne) hstep).symm.trans h) hrest' hrun'
    | some o =>
      obtain rfl : op = .mutate o := by
        cases op with
        | mutate o' => exact congrArg _ (Option.some.inj hop)
        | _ => cases hop
      obtain ⟨c₁, hc₁, hsame⟩ := h.mutate hstep
      obtain ⟨replies'', c', hc', hsame'⟩ := ih hsame hrest' hrun'
      exact ⟨reply :: replies'', c', (run_bind_ok hc₁).trans (run_bind_ok hc'), hsame'⟩

end Exact

section Exactly
variable {params : Params} {b b' : BeTree GreedyFullest} {fuel : ℕ} {ops : List Op}
    {replies : List Reply}

lemma replay2_sameTree (hb : BeTree.new params = .ok b) (hd : Op.drain ∉ ops)
    (hrun : runOps (Engine.step fuel) ops b = .ok replies b') :
    ∃ c', replay2 (Engine.mutateWith fuel) b'.trace.v2 b = .ok () c' ∧ SameTree b' c' := by
  obtain ⟨replies', c', hreplay, hsame⟩ := (SameTree.refl b).replays hd hrun
  have hnew : b.trace.mutations = [] := by
    unfold BeTree.new BeTree.withPolicy at hb
    split_ifs at hb
    cases hb
    rfl
  exact ⟨c', replay2_of_run hnew hrun hreplay, hsame⟩

lemma SameActs.decisions {r r' : Recorder} (h : SameActs r r') : r'.decisions = r.decisions := by
  have hacts : ∀ r : Recorder,
    r.decisions = (r.v2.filter TraceEvent2.acts).filter TraceEvent2.isDecision := by
    intro r
    rw [Recorder.decisions, List.filter_filter]
    refine List.filter_congr fun x _ => ?_
    cases x <;> rfl
  rw [hacts r', hacts r, h]

end Exactly

/-- Without drains and under the default policy, a replay makes the very same tree, flush by
flush. -/
theorem replay2_exact {params : Params} {b b' : BeTree GreedyFullest}
    (hb : BeTree.new params = .ok b) {fuel : ℕ} {ops : List Op}
    {replies : List Reply} (hd : Op.drain ∉ ops)
    (hrun : runOps (Engine.step fuel) ops b = .ok replies b') :
    ∃ c', replay2 (Engine.mutateWith fuel) b'.trace.v2 b = .ok () c' ∧
    c' = { b' with trace := c'.trace } ∧
      c'.trace.v2.filter TraceEvent2.acts = b'.trace.v2.filter TraceEvent2.acts := by
  obtain ⟨c', hreplay, hsame⟩ := replay2_sameTree hb hd hrun
  exact ⟨c', hreplay, hsame.eq, Eq.symm hsame.trace⟩

/-- A tree that was flushed, split and unlinked. -/
theorem replay2_exact_churned :
    ∃ c', replay2 (Engine.mutateWith 40) BeTree.churned.trace.v2 BeTree.tiny = .ok () c' ∧
    c'.store = BeTree.churned.store ∧ c'.root = 5 ∧ .flushDecision 4 [1, 2] 1 ∈ c'.trace.v2 := by
  obtain ⟨replies, hrun⟩ := BeTree.churn_runs
  have hb : BeTree.new Params.tiny = .ok BeTree.tiny := rfl
  obtain ⟨c', hreplay, heq, htrace⟩ := replay2_exact hb (by decide) hrun
  have hroot : BeTree.churned.root = 5 := by decide +kernel
  have hmem : .flushDecision 4 [1, 2] 1 ∈ BeTree.churned.trace.v2.filter TraceEvent2.acts := by
    decide +kernel
  have hsame : c'.store = BeTree.churned.store ∧ c'.root = BeTree.churned.root := by
    rw [heq]
    exact ⟨rfl, rfl⟩
  exact ⟨c', hreplay, hsame.1, hsame.2.trans hroot, (List.mem_filter.mp (htrace ▸ hmem)).1⟩

/-- Whatever happened inside, a trace has the operations of a run under their numbers, and its
replay under the default policy and without drains answers every read alike and gives the next
operation the same number. Where the run was made so too, the replay flushes alike. -/
theorem replay2_agrees (params : Params) :
    (∀ {π : Type} [FlushPolicy π], FlushPolicy.Legal π →
      ∀ {policy : π} {b b' : BeTree π} {fuel : ℕ} {ops : List Op}
      {replies : List Reply}, BeTree.withPolicy params policy = .ok b →
      runOps (Engine.step fuel) ops b = .ok replies b' →
      b'.trace.mutations = numbered 0 (ops.filterMap Op.mutation) ∧
      ∃ N c c', BeTree.new params = .ok c ∧
        (∀ fuel ≥ N, replay2 (Engine.mutateWith fuel) b'.trace.v2 c = .ok () c') ∧
        c'.nextSeq = b'.nextSeq ∧
        ∀ op : Op, op.mutation = none → ∃ N reply b'' c'', ∀ fuel ≥ N, Engine.step fuel op
          b' = .ok reply b'' ∧
          Engine.step fuel op c' = .ok reply c'') ∧
    ∀ {b b' : BeTree GreedyFullest} {fuel : ℕ} {ops : List Op}
    {replies : List Reply}, BeTree.new params = .ok b →
      Op.drain ∉ ops → runOps (Engine.step fuel) ops b = .ok replies b' →
      ∃ c', replay2 (Engine.mutateWith fuel) b'.trace.v2 b = .ok () c' ∧
      c'.trace.decisions = b'.trace.decisions := by
  refine ⟨fun {π} _ hπ {policy b b' fuel ops replies} hb hrun => ?_,
    fun {b b' fuel ops replies} hb hd hrun => ?_⟩
  · obtain ⟨htrace, N, c, c', hc, hreplay, -, hsame⟩ := replay2_sameContents hπ hb hrun
    exact ⟨htrace, N, c, c', hc, hreplay, hsame.nextSeq, hsame.reads hπ GreedyFullest.legal⟩
  · obtain ⟨c', hreplay, hsame⟩ := replay2_sameTree hb hd hrun
    exact ⟨c', hreplay, SameActs.decisions hsame.trace⟩

/-- A run that drains and reads, and one that flushes. -/
theorem replay2_agrees_churned :
    (∃ replies b' N c', runOps (Engine.step 40)
      (Op.churn ++ [.drain, .get [5], .mutate (.delete [3])])
      BeTree.tiny = .ok replies b' ∧
      b'.trace.mutations = numbered 0 (Op.churn.filterMap Op.mutation ++ [.delete [3]]) ∧
      ∀ fuel ≥ N, replay2 (Engine.mutateWith fuel) b'.trace.v2 BeTree.tiny = .ok () c') ∧
    ∃ c', replay2 (Engine.mutateWith 40) BeTree.churned.trace.v2 BeTree.tiny = .ok () c' ∧
      c'.trace.decisions = BeTree.churned.trace.decisions := by
  obtain ⟨hfaithful, hexact⟩ := replay2_agrees Params.tiny
  have hb : BeTree.withPolicy Params.tiny (⟨⟩ : GreedyFullest) = .ok BeTree.tiny := rfl
  constructor
  · have hends :
      endsWith (runOps (Engine.step 40)
        (Op.churn ++ [.drain, .get [5], .mutate (.delete [3])]) BeTree.tiny)
        (fun _ => true) = true := by decide +kernel
    obtain ⟨replies, hrun, -⟩ := endsWith_eq_true hends
    obtain ⟨htrace, N, c, c', hc, hreplay, -⟩ := hfaithful GreedyFullest.legal hb hrun
    cases hc
    exact ⟨replies, _, N, c', hrun, htrace, hreplay⟩
  · obtain ⟨replies, hrun⟩ := BeTree.churn_runs
    exact hexact hb (by decide) hrun

end Beetree
