import Beetree.Replay

/-! The flush decisions of a run (`FlushDecision` of `src/trace.rs`).

A run is made again over a store and under a policy that remember what they went through. Each
decision in the trace is then one that was made on a state of that run. -/
namespace Beetree

/-- A store that remembers every state it had before an operation. -/
structure Observed (St : Type) where
  now : St
  past : List St

/-- A policy that remembers what it was asked in which state. -/
structure Questioned (π : Type) where
  now : π
  past : List (π × FlushCtx)

namespace Observed
variable {St α : Type}

def note (m : EStateM Fault St α) : EStateM Fault (Observed St) α := fun o =>
  match m o.now with
  | .ok a s => .ok a ⟨s, o.past ++ [o.now]⟩
  | .error f s => .error f ⟨s, o.past ++ [o.now]⟩

instance [NodeStore St] : NodeStore (Observed St) where
  loaded id := note (NodeStore.loaded id)
  mutate id f := note (NodeStore.mutate id f)
  alloc n := note (NodeStore.alloc n)
  releaseSlot id := note (NodeStore.releaseSlot id)
  isDirty id := note (NodeStore.isDirty id)
  ensureLoaded id pins := note (NodeStore.ensureLoaded id pins)

end Observed

instance {π : Type} [FlushPolicy π] : FlushPolicy (Questioned π) where
  choose p ctx :=
    ((FlushPolicy.choose p.now ctx).1, ⟨(FlushPolicy.choose p.now ctx).2, p.past ++ [(p.now, ctx)]⟩)

section Observe
variable {π St : Type}

def Engine.observed (e : Engine π St) : Engine (Questioned π) (Observed St) where
  params := e.params
  store := ⟨e.store, []⟩
  root := e.root
  nextSeq := e.nextSeq
  opsSinceCommit := e.opsSinceCommit
  policy := ⟨e.policy, []⟩
  trace := e.trace

def Engine.unobserved (e : Engine (Questioned π) (Observed St)) : Engine π St where
  params := e.params
  store := e.store.now
  root := e.root
  nextSeq := e.nextSeq
  opsSinceCommit := e.opsSinceCommit
  policy := e.policy.now
  trace := e.trace

lemma mirrors_note {α : Type} {V : α → α → Prop} (hV : ∀ a, V a a) (m : EStateM Fault St α) :
    Mirrors (fun s o => o.now = s) (fun _ _ => True) (fun _ => False) V m (Observed.note m) := by
  rintro s o rfl a s' hrun
  refine Or.inl ⟨a, ⟨s', o.past ++ [o.now]⟩, ?_, hV a, rfl, trivial⟩
  simp only [Observed.note, hrun]

variable [NodeStore St] [FlushPolicy π]

lemma storeSim_observed (hlooks : ∀ {id n} {s s' : St}, NodeStore.loaded id s = .ok n s' → s' = s) :
    StoreSim Eq (fun (s : St) (o : Observed St) => o.now = s) (fun _ _ => True) fun _ => False where
  loaded := by
    rintro id _ rfl
    exact mirrors_note NodeRel.refl _
  mutate := by
    rintro id _ f f' rfl hf
    obtain rfl : f = f' := funext hf.eq
    exact mirrors_note NodeRel.refl _
  alloc := by
    intro n n' hn
    obtain rfl := hn.eq
    exact mirrors_note (fun _ => rfl) _
  releaseSlot := by
    rintro id _ rfl
    exact mirrors_note (fun _ => rfl) _
  isDirty := by
    rintro id _ rfl
    exact mirrors_note (fun _ => rfl) _
  ensureLoaded := by
    rintro id _ pins pins' rfl hpins
    rw [List.forall₂_eq_eq_eq] at hpins
    subst hpins
    exact mirrors_note (fun _ => rfl) _
  unique := ⟨fun _ _ _ h h' => h.trans h'.symm, fun _ _ _ h h' => h.symm.trans h'⟩
  looks := hlooks
  refl _ := trivial
  trans _ _ := trivial

lemma policySim_questioned : PolicySim Eq fun (p : π) (q : Questioned π) => q.now = p := by
  rintro _ q ctx _ rfl rfl
  exact ⟨rfl, rfl⟩

lemma run_observed (hlooks : ∀ {id n} {s s' : St}, NodeStore.loaded id s = .ok n s' → s' = s)
    {fuel : ℕ} {ops : List Op}
    {e' : Engine π St} {w : Engine (Questioned π) (Observed St)} {replies : List Reply}
    (hrun : runOps (Engine.step fuel) ops w.unobserved = .ok replies e') :
    ∃ w', runOps (Engine.step fuel) ops w = .ok replies w' ∧ w'.unobserved = e' := by
  induction ops generalizing w replies with
  | nil =>
    cases hrun
    exact ⟨w, rfl, rfl⟩
  | cons op ops ih =>
    obtain ⟨reply, e₁, hstep, hrest⟩ := bind_eq_ok hrun
    obtain ⟨replies', e₂, hrun', hpure⟩ := bind_eq_ok hrest
    cases hpure
    have hw :
      Resembles Eq (fun (p : π) (q : Questioned π) => q.now = p) Eq
        (fun (s : St) (o : Observed St) => o.now = s)
        w.unobserved w := ⟨rfl, rfl, rfl, rfl, rfl, rfl, rfl⟩
    rcases (storeSim_observed hlooks).sims_step traceSim_eq policySim_questioned fuel op _ w hw
      trivial reply e₁ hstep with
      ⟨_, w₁, hw₁, rfl, -, hal, -⟩ | ⟨_, _, _, _, hf, -⟩
    · have heq : w₁.unobserved = e₁ := by
        obtain ⟨hstore, hparams, hroot, hseq, hops, hpolicy, htrace⟩ := hal
        cases e₁
        dsimp only at hstore hparams hroot hseq hops hpolicy htrace
        simp only [Engine.unobserved, hstore, hparams, hroot, hseq, hops, hpolicy, htrace]
      obtain ⟨w', hw', hend⟩ := ih (heq ▸ hrun')
      exact ⟨w', (run_bind_ok hw₁).trans (run_bind_ok hw'), hend⟩
    · exact hf.elim

end Observe

/-- A decision: the policy, as it was, is asked about a node of the store, as it was. -/
structure Decision (π St : Type) where
  store : St
  policy : π
  ctx : FlushCtx

namespace Decision
variable {π St : Type}

def chosen [FlushPolicy π] (d : Decision π St) : ℕ := (FlushPolicy.choose d.policy d.ctx).1

def event [FlushPolicy π] (d : Decision π St) :
    TraceEvent2 := .flushDecision d.ctx.node d.ctx.childPending d.chosen

def question (d : Decision π St) : π × FlushCtx := (d.policy, d.ctx)

/-- The policy is told what the store has of the node, and its answer is a child with messages. -/
def Truthful [NodeStore St] [FlushPolicy π] (d : Decision π St) : Prop :=
  ∃ ps cs buffer s s', NodeStore.loaded d.ctx.node d.store = .ok (.internal ps cs buffer) s ∧
    cs.mapM NodeStore.isDirty s = .ok d.ctx.childDirty s' ∧
      (∀ x ∈ buffer.toList, route ps x.1 < cs.length) ∧
    d.ctx.childPending = occupancies ps cs.length buffer ∧
      d.ctx.childPendingBytes = pendingBytes ps cs.length buffer ∧
    d.ctx.bufferTotal = buffer.size ∧ 0 < d.ctx.childPending.getD d.chosen 0

end Decision

section Decides
variable {π St : Type} [NodeStore St] [FlushPolicy π]

/-- On the way, decisions were made on states the store was in, and put to the policy in the states
it was in. -/
def Decides (e e' : Engine (Questioned π) (Observed St)) : Prop :=
  ∃ (states : List St) (asked : List (π × FlushCtx))
    (ds : List (Decision π St)), e'.store.past = e.store.past ++ states ∧
    e'.policy.past = e.policy.past ++ asked ∧
      e'.trace.decisions = e.trace.decisions ++ ds.map Decision.event ∧
    (ds.map Decision.store).Sublist states ∧ (ds.map Decision.question).Sublist asked ∧
      ∀ d ∈ ds, d.Truthful

variable {e e' e'' : Engine (Questioned π) (Observed St)}

lemma Decides.undecided {states : List St} {asked : List (π × FlushCtx)}
    (hs : e'.store.past = e.store.past ++ states)
    (hp : e'.policy.past = e.policy.past ++ asked) (ht : e'.trace.decisions = e.trace.decisions) :
    Decides e e' :=
  ⟨states, asked, [], hs, hp, by rw [ht, List.map_nil, List.append_nil], List.nil_sublist _,
    List.nil_sublist _, by simp⟩

lemma Decides.refl (e : Engine (Questioned π) (Observed St)) : Decides e e :=
  .undecided (List.append_nil _).symm (List.append_nil _).symm rfl

lemma Decides.trans (h : Decides e e') (h' : Decides e' e'') : Decides e e'' := by
  obtain ⟨states, asked, ds, hs, hp, ht, hstates, hasked, hds⟩ := h
  obtain ⟨states', asked', ds', hs', hp', ht', hstates', hasked', hds'⟩ := h'
  refine ⟨states ++ states', asked ++ asked', ds ++ ds', ?_, ?_, ?_, ?_, ?_, fun d hd => ?_⟩
  · rw [hs', hs, List.append_assoc]
  · rw [hp', hp, List.append_assoc]
  · rw [ht', ht, List.map_append, List.append_assoc]
  · rw [List.map_append]
    exact hstates.append hstates'
  · rw [List.map_append]
    exact hasked.append hasked'
  · exact (List.mem_append.mp hd).elim (hds d) (hds' d)

omit [NodeStore St] [FlushPolicy π] in
lemma observed_ok {α : Type} {m : EStateM Fault St α} {a : α} {s : St}
    (h : m e.store.now = .ok a s) :
    Engine.onStore (Observed.note m) e = .ok a
      { e with store := ⟨s, e.store.past ++ [e.store.now]⟩ } := by
  simp only [Engine.onStore, Observed.note, h]

omit [NodeStore St] [FlushPolicy π] in
lemma observed_error {α : Type} {m : EStateM Fault St α} {f : Fault} {s : St}
    (h : m e.store.now = .error f s) :
    Engine.onStore (Observed.note m) e = .error f
      { e with store := ⟨s, e.store.past ++ [e.store.now]⟩ } := by
  simp only [Engine.onStore, Observed.note, h]

lemma decides_note {α : Type} (m : EStateM Fault St α) :
    Keeps Decides (Engine.onStore (Observed.note m) : Engine.Act (Questioned π) (Observed St)
      α) := by
  intro e
  have hnow : ∀ s, Decides e { e with store := ⟨s, e.store.past ++ [e.store.now]⟩ } := fun _ =>
    .undecided rfl (List.append_nil _).symm rfl
  cases hm : m e.store.now with
  | ok a s => exact .of_ok (observed_ok hm) (hnow s)
  | error f s => exact .of_error (observed_error hm) (hnow s)

lemma engineFrame_decides :
    EngineFrame (Decides : Engine (Questioned π) (Observed St) →
      Engine (Questioned π) (Observed St) → Prop) where
  refl := Decides.refl
  trans := Decides.trans
  keeps_loaded _ := decides_note _
  keeps_ensureLoaded _ _ := decides_note _
  keeps_mutate _ _ := decides_note _
  keeps_alloc _ := decides_note _
  keeps_releaseSlot _ := decides_note _
  keeps_isDirty _ := decides_note _
  keeps_setRoot _ := Keeps.modify fun _ => .undecided (List.append_nil _).symm
    (List.append_nil _).symm rfl

lemma ends_isDirty (cs : List NodeId) (e : Engine (Questioned π) (Observed St)) :
    Ends (cs.mapM Engine.isDirty) e (fun dirty e₁ => ∃ s states, cs.mapM NodeStore.isDirty
      e.store.now = .ok dirty s ∧
      e₁ = { e with store := ⟨s, e.store.past ++ states⟩ }) fun _ e₁ => Decides e e₁ := by
  induction cs generalizing e with
  | nil => exact .of_ok rfl ⟨e.store.now, [], rfl, by rw [List.append_nil]⟩
  | cons c cs ih =>
    rw [List.mapM_cons, List.mapM_cons]
    cases hc : NodeStore.isDirty c e.store.now with
    | error f s =>
      exact .of_error (run_bind_error (observed_error hc))
        ((engineFrame_decides.keeps_isDirty c).error (observed_error hc))
    | ok dirty s =>
      have hrun : Engine.isDirty c e = .ok dirty _ := observed_ok hc
      have hfirst := (engineFrame_decides.keeps_isDirty c).ok hrun
      refine .after hrun (Ends.bind ((ih _).mono (fun _ _ h => h) fun _ _ h => hfirst.trans h)
        fun ds e₁ h => ?_)
      obtain ⟨s', states, hrest, rfl⟩ := h
      refine .of_ok rfl ⟨s', [e.store.now] ++ states, ?_, by rw [← List.append_assoc]⟩
      exact (run_bind_ok hc).trans (run_bind_ok hrest)

lemma decides_pickTraced (id : NodeId) (depth : ℕ) :
    Keeps Decides (Engine.pickTraced id depth : Engine.Act (Questioned π) (Observed St) _) := by
  intro e
  have hF :
    EngineFrame (Decides : Engine (Questioned π) (Observed St) →
      Engine (Questioned π) (Observed St) → Prop) :=
    engineFrame_decides
  unfold Engine.pickTraced Engine.pickAndExtract
  rw [bind_assoc]
  cases hload : NodeStore.loaded id e.store.now with
  | error f s =>
    exact .of_error (run_bind_error (observed_error hload))
      ((hF.keeps_loaded id).error (observed_error hload))
  | ok node s =>
    have hrun : Engine.loaded id e = .ok node _ := observed_ok hload
    have hfirst := (hF.keeps_loaded id).ok hrun
    refine .after hrun ?_
    cases node with
    | leaf es => exact .of_error rfl hfirst
    | internal ps cs buffer =>
      dsimp only
      split_ifs with hroute
      · exact .of_error rfl hfirst
      · rw [bind_assoc]
        unfold Engine.chooseChild
        rw [if_pos rfl, bind_assoc]
        refine Ends.bind ((ends_isDirty cs _).mono (fun _ _ h => h) fun _ _ h => hfirst.trans h)
          fun dirty e₁ h => ?_
        obtain ⟨s', states, hdirty, rfl⟩ := h
        let ctx :
          FlushCtx := ⟨id, depth, occupancies ps cs.length buffer, pendingBytes ps cs.length buffer,
            dirty, buffer.size,
          e.opsSinceCommit⟩
        let d : Decision π St := ⟨e.store.now, e.policy.now, ctx⟩
        let e₂ : Engine (Questioned π) (Observed St) := { e with
          store := ⟨s', e.store.past ++ [e.store.now] ++ states⟩
          policy := ⟨(FlushPolicy.choose e.policy.now ctx).2,
            e.policy.past ++ [(e.policy.now, ctx)]⟩ }
        have h₂ : Decides e e₂ := .undecided
          (List.append_assoc e.store.past [e.store.now] states)
            (show _ = e.policy.past ++ [(e.policy.now, ctx)] from rfl) rfl
        have hconsult : (do Engine.consult { ctx with opsSinceCommit := (← get).opsSinceCommit } :
            Engine.Act (Questioned π) (Observed St) ℕ)
              { e with store := ⟨s', e.store.past ++ [e.store.now] ++ states⟩ } =
            .ok d.chosen e₂ := rfl
        refine .after hconsult ?_
        split_ifs with hpos
        · exact .of_error rfl h₂
        rcases extract ps d.chosen buffer with _ | ⟨batch, rest⟩
        · exact .of_error rfl h₂
        rcases cs[d.chosen]? with _ | child
        · exact .of_error rfl h₂
        dsimp only
        rw [bind_assoc]
        cases hmutate : NodeStore.mutate id (Node.setBuffer rest) s' with
        | error f s'' =>
          have hrun : Engine.mutate id (Node.setBuffer rest) e₂ = .error f _ :=
            observed_error hmutate
          exact .of_error (run_bind_error hrun) (h₂.trans ((hF.keeps_mutate id _).error hrun))
        | ok node s'' =>
          have hrun : Engine.mutate id (Node.setBuffer rest) e₂ = .ok node _ := observed_ok hmutate
          have htold : d.Truthful :=
            ⟨ps, cs, buffer, s, s', hload, hdirty, by simpa using hroute, rfl, rfl, rfl,
              Nat.pos_of_ne_zero hpos⟩
          refine .after hrun (.of_ok rfl ⟨[e.store.now] ++ states ++ [s'], [(e.policy.now, ctx)],
            [d], ?_, rfl, ?_, ?_, ?_, ?_⟩)
          · simp [e₂, List.append_assoc]
          · simp [Recorder.decisions, TraceEvent2.isDecision, Recorder.flushDecision,
              Decision.event, d, e₂, ctx]
          · simp [d]
          · simp [Decision.question, d]
          · simpa using htold

lemma decides_record {f : Recorder → Recorder} (hf : ∀ r, (f r).decisions = r.decisions) :
    Keeps (Decides : Engine (Questioned π) (Observed St) → _ → Prop) (Engine.record f) :=
  Keeps.modify fun _ => .undecided (List.append_nil _).symm (List.append_nil _).symm (hf _)

lemma decides_step (fuel : ℕ) (op : Op) :
    Keeps Decides (Engine.step fuel op : Engine.Act (Questioned π) (Observed St) Reply) := by
  have hF :
    EngineFrame (Decides : Engine (Questioned π) (Observed St) →
      Engine (Questioned π) (Observed St) → Prop) :=
    engineFrame_decides
  have hflushes : KeepsFlushes true (Decides : Engine (Questioned π) (Observed St) → _ → Prop) :=
    fun _ => decides_pickTraced
  cases op with
  | mutate o =>
    refine hF.bind (.get fun _ => hF.bind (hF.keeps_ensureLoaded _ _) fun _ => hF.bind ?_
      fun seq => ?_) fun _ => hF.pure _
    · intro e
      unfold Engine.stamp Ends
      rw [run_get_bind]
      split_ifs with hseq
      · refine .undecided (List.append_nil _).symm (List.append_nil _).symm ?_
        cases o <;> simp [Recorder.decisions, TraceEvent2.isDecision, Recorder.op]
      · exact .refl e
    · exact hF.keeps_applyRoot hflushes _ _ _
  | get key =>
    refine hF.bind (hF.keeps_lookup fuel (decides_record fun r => ?_)) fun _ => hF.pure _
    simp [Recorder.decisions, TraceEvent2.isDecision, Recorder.get]
  | scan lo hi =>
    refine hF.bind (hF.keeps_scan fuel (decides_record fun r => ?_)) fun _ => hF.pure _
    simp [Recorder.decisions, TraceEvent2.isDecision, Recorder.scan]
  | drain =>
    refine hF.bind (.get fun _ => hF.bind (hF.keeps_ensureLoaded _ _) fun _ => ?_)
      fun _ => hF.pure _
    exact hF.keeps_restoreRootWith (fun h => absurd h (by simp)) _ _

lemma run_decides {fuel : ℕ} {ops : List Op} {replies : List Reply}
    (hrun : runOps (Engine.step fuel) ops e = .ok replies e') : Decides e e' := by
  induction ops generalizing e replies with
  | nil =>
    cases hrun
    exact .refl _
  | cons op ops ih =>
    obtain ⟨reply, e₁, hstep, hrest⟩ := bind_eq_ok hrun
    obtain ⟨replies', e₂, hrun', hpure⟩ := bind_eq_ok hrest
    cases hpure
    exact ((decides_step fuel op).ok hstep).trans (ih hrun')

end Decides

section Trees
variable {π : Type} [FlushPolicy π] {params : Params} {policy : π} {b b' : BeTree π} {fuel : ℕ}
    {ops : List Op} {replies : List Reply}

lemma run_decisions (hb : BeTree.withPolicy params policy = .ok b)
    (hrun : runOps (Engine.step fuel) ops b = .ok replies b') :
    ∃ w, runOps (Engine.step fuel) ops b.observed = .ok replies w ∧ w.unobserved = b' ∧
    ∃ ds : List (Decision π Arena),
      b'.trace.decisions = ds.map Decision.event ∧ (ds.map Decision.store).Sublist w.store.past ∧
      (ds.map Decision.question).Sublist w.policy.past ∧ ∀ d ∈ ds, d.Truthful := by
  obtain ⟨w, hw, rfl⟩ := run_observed (w := b.observed) Arena.loaded_self hrun
  obtain ⟨states, asked, ds, hs, hp, ht, hstates, hasked, hds⟩ := run_decides hw
  have hnew : b.trace.decisions = [] := by
    unfold BeTree.withPolicy at hb
    split_ifs at hb
    cases hb
    rfl
  refine ⟨w, hw, rfl, ds, ?_, hs ▸ hstates, hp ▸ hasked, hds⟩
  rw [show w.unobserved.trace = w.trace from rfl, ht, show b.observed.trace = b.trace from rfl,
    hnew, List.nil_append]

end Trees

/-- Under the default policy the child that was chosen is the first of those with the most
messages. -/
theorem flushDecisions_greedy {params : Params} {b b' : BeTree GreedyFullest}
    (hb : BeTree.new params = .ok b) {fuel : ℕ}
    {ops : List Op} {replies : List Reply}
    (hrun : runOps (Engine.step fuel) ops b = .ok replies b') :
    ∀ node occ chosen, .flushDecision node occ chosen ∈ b'.trace.v2 → 0 < occ.getD chosen 0 ∧
      (∀ i, occ.getD i 0 ≤ occ.getD chosen 0) ∧ ∀ i < chosen, occ.getD i 0 < occ.getD chosen 0 := by
  intro node occ chosen h
  obtain ⟨w, -, -, ds, hevents, -, -, hds⟩ := run_decisions hb hrun
  have hmem : .flushDecision node occ chosen ∈ b'.trace.decisions := List.mem_filter.mpr ⟨h, rfl⟩
  obtain ⟨d, hd, heq⟩ := List.mem_map.mp (hevents ▸ hmem)
  obtain ⟨-, -, -, -, -, -, -, -, -, -, -, hpos⟩ := hds d hd
  cases heq
  exact ⟨hpos, GreedyFullest.le_pick d.ctx.childPending, fun i hi => GreedyFullest.lt_pick hi⟩

/-- A decision with messages pending for two children. -/
theorem flushDecisions_greedy_churned : .flushDecision 4 [1, 2] 1 ∈ BeTree.churned.trace.v2 ∧
    ∀ i, [1, 2].getD i 0 ≤ [1, 2].getD 1 0 := by
  obtain ⟨replies, hrun⟩ := BeTree.churn_runs
  have hb : BeTree.new Params.tiny = .ok BeTree.tiny := rfl
  have hmem : .flushDecision 4 [1, 2] 1 ∈ BeTree.churned.trace.v2 := by decide +kernel
  exact ⟨hmem, (flushDecisions_greedy hb hrun 4 [1, 2] 1 hmem).2.1⟩

end Beetree
