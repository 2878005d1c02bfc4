import Beetree.Draw
import Beetree.Fork
import Beetree.Fuel

/-! The states an in-memory tree can be in between operations. -/
namespace Beetree

/-- Trees built by construction, operations, commit boundaries and forks, under policies that keep
their contract. An operation counts where it returns; at the last sequence number none does. -/
inductive BeTree.Reachable : {π : Type} → [FlushPolicy π] → BeTree π → Prop
  | start {π : Type} [FlushPolicy π] (hπ : FlushPolicy.Legal π) {params : Params} {policy : π}
    {b : BeTree π} :
      BeTree.withPolicy params policy = .ok b → Reachable b
  | step {π : Type} [FlushPolicy π] {b b' : BeTree π} {op : Op} {reply : Reply} : Reachable b →
      (∃ N, ∀ fuel ≥ N, Engine.step fuel op b = .ok reply b') → Reachable b'
  | commit {π : Type} [FlushPolicy π] {b b' : BeTree π} {bytes : ℕ} : Reachable b →
      (∃ N, ∀ fuel ≥ N, BeTree.simulateCommit fuel b = .ok bytes b') → Reachable b'
  | fork {π σ : Type} [FlushPolicy π] [FlushPolicy σ] (hσ : FlushPolicy.Legal σ)
    {b : BeTree π} {b' : BeTree σ}
      {policy : σ} : Reachable b → (∃ N, ∀ fuel ≥ N, BeTree.forkForSim fuel b policy = .ok b') →
      Reachable b'

section Source
variable {π π' : Type} {ρ : Renaming} {P : π → π' → Prop} {Tr : Recorder → Recorder → Prop} {h : ℕ}
  {e : Engine π Ideal} {t : Live h} {b : BeTree π'}

lemma Live.draws {src : NodeSource} {rel : NodeId → NodeId → Prop} {t : Live h}
    (hs : ∀ x ∈ Live.foot t, ∀ id, rel x.1 id → ∃ n n' d r, x.2 = .loaded n d r ∧ NodeRel rel n n' ∧
      src.node id = some n')
    {id : NodeId} (hid : rel t.id id) : src.Draws id (Live.plain t) := by
  induction h generalizing id with
  | zero =>
    obtain ⟨n, n', d, r, hslot, hn, hn'⟩ := hs _ (Live.slot_mem_foot t) id hid
    cases t with
    | stub id v => cases hslot
    | known id d dk x =>
      induction x using Body.zeroCases with
      | hl es =>
        cases hslot
        cases hn
        exact hn'
  | succ h ih =>
    obtain ⟨n, n', d, r, hslot, hn, hn'⟩ := hs _ (Live.slot_mem_foot t) id hid
    cases t with
    | stub id v => cases hslot
    | known id d dk x =>
      induction x using Body.succCases with
      | hn ps cs b =>
        cases hslot
        cases hn with
        | @internal _ _ cs' _ hcs =>
          refine ⟨cs', hn', ?_⟩
          change List.Forall₂ _ cs' (cs.map Live.plain)
          rw [List.forall₂_map_right_iff]
          have hkids : ∀ c ∈ cs, ∀ x ∈ Live.foot c, ∀ id, rel x.1 id →
              ∃ n n' d r, x.2 = .loaded n d r ∧ NodeRel rel n n' ∧ src.node id = some n' := by
            intro c hc x hx
            refine hs x ?_
            rw [Live.foot_known, Body.foot_node]
            exact List.mem_cons_of_mem _ (List.mem_flatMap.mpr ⟨c, hc, hx⟩)
          replace hcs : List.Forall₂ rel (cs.map Cell.id) cs' := hcs
          clear hs hn' hid
          induction cs generalizing cs' with
          | nil =>
            cases hcs
            exact .nil
          | cons c cs ihc =>
            cases hcs with
            | cons hc hcs =>
              exact .cons (ih (hkids c (by simp)) hc)
                (ihc (fun c' hc' => hkids c' (by simp [hc'])) hcs)

lemma Arena.Models.draws (hm : Arena.Models ρ e.store b.store)
    (ht : Stored e.store (Live.foot t)) {id : NodeId}
    (hid : ρ.rel t.id id) : b.source.Draws id (Live.plain t) := by
  refine Live.draws (fun x hx id hid => ?_) hid
  obtain ⟨n, n', d, r, hslot, hn, hn', -⟩ := hm.slots _ _ (ht.slots _ hx) id hid
  exact ⟨n, n', d, r, hslot, hn, hn'⟩

lemma Holds.valid (ht : Holds e t) : (Live.plain t).Valid none none := by
  rw [← Tree.valid_bare, ← Live.bare_view, Tree.valid_bare]
  exact (ht.good false).valid

lemma Resembles.lawful (hb : Resembles ρ.rel P Tr (Arena.Models ρ) e b) (ht : Holds e t) :
    b.source.Grown b.source.root ∧ b.source.Lawful := by
  have hdraws : b.source.Draws b.source.root (Live.plain t) :=
    hb.store.draws ht.stored (ht.root ▸ hb.root)
  refine ⟨hdraws.grown, hdraws.lawful ht.valid ?_⟩
  change (Live.plain t).RootRest b.params
  rw [hb.params]
  exact ht.rest

end Source

section Step
variable {π : Type} [FlushPolicy π] {h : ℕ} {e : Engine π Ideal} {t : Live h} {b : BeTree π}

/-- An operation that can be numbered returns, on the ideal store and on the arena. -/
lemma step_alike (hπ : FlushPolicy.Legal π) (ht : Holds e t) (op : Op)
    (hs : op.Numbered e.nextSeq) :
    ∃ (reply : Reply) (e' : Engine π Ideal) (h' : ℕ) (t' : Live h')
    (N : ℕ), StepsTo true op reply e e' t t' ∧
      (∀ fuel ≥ N, Engine.step fuel op e = .ok reply e') ∧
      ∀ fuel ≥ N, ∀ b : BeTree π, Alike Arena.Same e b →
        ∃ b', Engine.step fuel op b = .ok reply b' ∧ Alike Arena.Same e' b' := by
  obtain ⟨reply, e', h', t', N, hrun, hst⟩ := step_run hπ ht op hs (Or.inl rfl)
  refine ⟨reply, e', h', t', N, hst, hrun, fun fuel hf b hb => ?_⟩
  rcases (arenaSim .same).sims_step traceSim_eq (policySim_eq π) fuel op e b hb trivial reply e'
    (hrun fuel hf) with
    ⟨_, b', hb', rfl, -, hal, -⟩ | ⟨f, b', -, -, hf, -⟩
  · exact ⟨b', hb', hal⟩
  · exact hf.elim

lemma step_holds (hπ : FlushPolicy.Legal π) (ht : Holds e t) (hb : Alike Arena.Same e b)
    {op : Op} {reply : Reply}
    {b' : BeTree π} (hrun : ∃ N, ∀ fuel ≥ N, Engine.step fuel op b = .ok reply b') :
    ∃ (e' : Engine π Ideal) (h' : ℕ) (t' : Live h'), StepsTo true op reply e e' t t' ∧
    Alike Arena.Same e' b' := by
  obtain ⟨N, hN⟩ := hrun
  by_cases hs : op.Numbered e.nextSeq
  · obtain ⟨reply', e', h', t', M, hst, -, harena⟩ := step_alike hπ ht op hs
    obtain ⟨b'', hrun', hal⟩ := harena (max N M) (le_max_right N M) b hb
    rw [hN _ (le_max_left N M)] at hrun'
    cases hrun'
    exact ⟨e', h', t', hst, hal⟩
  · obtain ⟨f, b'', hb'', -⟩ := (arenaSim .same).step_overflow ht hb op hs N
    rw [hN N le_rfl] at hb''
    cases hb''

end Step

/-- A reachable tree is at rest, and its policy keeps its contract. -/
theorem BeTree.Reachable.holds {π : Type} [FlushPolicy π] {b : BeTree π} (hb : b.Reachable) :
    FlushPolicy.Legal π ∧ ∃ (e : Engine π Ideal) (h : ℕ) (t : Live h), Holds e t ∧
    Alike Arena.Same e b := by
  induction hb with
  | @start π _ hπ params policy b hb =>
    refine ⟨hπ, ?_⟩
    have hp : params.Legal := by
      by_contra hp
      simp [BeTree.withPolicy, hp] at hb
    obtain ⟨b', hb', hal⟩ := withPolicy_eq hp policy
    rw [hb] at hb'
    cases hb'
    exact ⟨_, 0, _, holds_fresh hp policy, hal⟩
  | step _ hrun ih =>
    obtain ⟨hπ, e, h, t, ht, hal⟩ := ih
    obtain ⟨e', h', t', hst, hal'⟩ := step_holds hπ ht hal hrun
    exact ⟨hπ, e', h', t', hst.holds, hal'⟩
  | commit _ hrun ih =>
    obtain ⟨hπ, e, h, t, ht, hal⟩ := ih
    obtain ⟨N, hN⟩ := hrun
    obtain ⟨M, hM⟩ := dirtyNodes_run ht.root ht.stored
    have hsame : Resembles Renaming.same.rel Eq Eq (Arena.Models .same) e _ := hal
    obtain ⟨b', hrun', hal'⟩ := simulateCommit_run ht.stored (hM (max N M) (le_max_right N M))
      (fun _ => 0) _ hsame
    rw [hN _ (le_max_left N M)] at hrun'
    cases hrun'
    exact ⟨hπ, _, h, _, ht.commit _, hal'⟩
  | @fork π σ _ _ hσ b b' policy _ hrun ih =>
    obtain ⟨-, e, h, t, ht, hal⟩ := ih
    obtain ⟨N, hN⟩ := hrun
    obtain ⟨M, hM⟩ := forkForSim_run ht hal policy
    have := hM (max N M) (le_max_right N M)
    rw [hN _ (le_max_left N M)] at this
    cases this
    exact ⟨hσ, _, h, _, ht.forked policy, alike_copy ht hal policy⟩

/-- The empty tree with the smallest parameters. -/
def BeTree.tiny : BeTree GreedyFullest where
  params := Params.tiny
  store := ⟨[.leaf OrdMap.empty], [true]⟩
  root := 0
  nextSeq := 0
  opsSinceCommit := 0
  policy := ⟨⟩
  trace := .new

lemma BeTree.Reachable.run {π : Type} [FlushPolicy π] {b b' : BeTree π} (hb : b.Reachable)
    {fuel : ℕ} {ops : List Op}
    {replies : List Reply} (hrun : runOps (Engine.step fuel) ops b = .ok replies b') :
    b'.Reachable := by
  induction ops generalizing b replies with
  | nil =>
    cases hrun
    exact hb
  | cons op ops ih =>
    obtain ⟨reply, b₁, hstep, hrest⟩ := bind_eq_ok hrun
    obtain ⟨replies', b₂, hops, hpure⟩ := bind_eq_ok (f := fun rs => pure (reply :: rs)) hrest
    cases hpure
    exact ih (hb.step ⟨fuel, fun _ hf => (refines_step hf op).ok hstep⟩) hops

lemma BeTree.reachable_tiny : BeTree.tiny.Reachable :=
  .start GreedyFullest.legal (show BeTree.withPolicy Params.tiny ⟨⟩ = .ok BeTree.tiny from rfl)

@[irreducible] def BeTree.churned :
    BeTree GreedyFullest := finalState (runOps (Engine.step 40) Op.churn BeTree.tiny)

lemma BeTree.churn_runs :
    ∃ replies, runOps (Engine.step 40) Op.churn BeTree.tiny = .ok replies BeTree.churned := by
  have hrun : endsWith (runOps (Engine.step 40) Op.churn BeTree.tiny) (fun _ => true) = true := by
    decide +kernel
  obtain ⟨replies, heq, -⟩ := endsWith_eq_true hrun
  unfold BeTree.churned
  exact ⟨replies, heq⟩

lemma BeTree.reachable_churned : BeTree.churned.Reachable := by
  obtain ⟨replies, hrun⟩ := BeTree.churn_runs
  exact BeTree.reachable_tiny.run hrun

/-- One of its messages waits in the root and another below it, and a leaf that was unlinked has
kept its place. -/
lemma BeTree.churned_nodes : BeTree.churned.root = 5 ∧
    BeTree.churned.store.nodes[5]? = some
      (.internal [[5]] [4, 7] (OrdMap.empty.insert [4] (.put 10 [7]))) ∧
    BeTree.churned.store.nodes[4]? = some (.internal [] [3] (OrdMap.empty.insert [2] (.delete 9))) ∧
    BeTree.churned.store.nodes[0]? = some (.leaf OrdMap.empty) ∧
    BeTree.churned.trace.decisions.length = 7 := by
  decide +kernel

end Beetree
