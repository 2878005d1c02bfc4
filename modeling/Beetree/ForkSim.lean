import Beetree.Reach

/-! A fork behaves like the tree it was taken from, for policies that do not look at node names. -/
namespace Beetree
open List (Forall₂)

/-- A policy with a log of the contexts it was shown and the children it named. -/
structure Watched (π : Type) where
  policy : π
  seen : List (FlushCtx × ℕ)

instance {π : Type} [FlushPolicy π] : FlushPolicy (Watched π) where
  choose w ctx :=
    let (chosen, policy) := FlushPolicy.choose w.policy ctx
    (chosen, ⟨policy, w.seen ++ [(ctx, chosen)]⟩)

def BeTree.watched {π : Type} (b : BeTree π) : BeTree (Watched π) where
  params := b.params
  store := b.store
  root := b.root
  nextSeq := b.nextSeq
  opsSinceCommit := b.opsSinceCommit
  policy := ⟨b.policy, []⟩
  trace := b.trace

/-- The same context apart from the node, and the same child. -/
def SeenAlike (x y : FlushCtx × ℕ) : Prop := y.1 = { x.1 with node := y.1.node } ∧ y.2 = x.2

def FlushPolicy.IgnoresNode (π : Type) [FlushPolicy π] : Prop :=
  ∀ (s : π) (ctx : FlushCtx) (node : NodeId), FlushPolicy.choose s { ctx with node := node } =
    FlushPolicy.choose s ctx

section Policies
variable {π : Type} [FlushPolicy π]

lemma Watched.legal (hπ : FlushPolicy.Legal π) : FlushPolicy.Legal (Watched π) := fun s ctx h =>
    hπ s.policy ctx h

lemma policySim_watched : PolicySim Eq fun (w : Watched π) (p : π) => w.policy = p := by
  rintro w _ ctx node rfl rfl
  exact ⟨rfl, rfl⟩

lemma policySim_blind (hπ : FlushPolicy.IgnoresNode π) (rel : NodeId → NodeId → Prop) :
    PolicySim rel fun (w : Watched π) (p : π) => w.policy = p := by
  rintro w _ ctx node rfl -
  rw [hπ]
  exact ⟨rfl, rfl⟩

lemma policySim_seen (hπ : FlushPolicy.IgnoresNode π) (rel : NodeId → NodeId → Prop) :
    PolicySim rel fun w w' : Watched π => w.policy = w'.policy ∧
    Forall₂ SeenAlike w.seen w'.seen := by
  rintro w w' ctx node ⟨hp, hs⟩ -
  have hchoose : FlushPolicy.choose w'.policy { ctx with node := node } = FlushPolicy.choose
    w.policy ctx := by
    rw [hπ, hp]
  have h₁ : FlushPolicy.choose w ctx =
      ((FlushPolicy.choose w.policy ctx).1, ⟨(FlushPolicy.choose w.policy ctx).2,
        w.seen ++ [(ctx, (FlushPolicy.choose w.policy ctx).1)]⟩) := rfl
  have h₂ : FlushPolicy.choose w' { ctx with node := node } =
      ((FlushPolicy.choose w.policy ctx).1, ⟨(FlushPolicy.choose w.policy ctx).2,
        w'.seen ++ [({ ctx with node := node }, (FlushPolicy.choose w.policy ctx).1)]⟩) := by
    rw [← hchoose]
    rfl
  rw [h₁, h₂]
  exact ⟨rfl, rfl, List.rel_append hs (.cons ⟨rfl, rfl⟩ .nil)⟩

end Policies

section Carries
variable {π : Type} [FlushPolicy π] {α β : Type} {h : ℕ} {e : Engine π Ideal} {t : Live h}

/-- A program over the arena, for every policy. -/
abbrev Program (α : Type) := (π' : Type) → [FlushPolicy π'] → ℕ → Engine.Act π' Arena α

/-- Every arena that stands for one engine ends with the same result, standing for another. -/
def Carries (m : Program α) (e : Engine π Ideal) (a : α) (e' : Engine π Ideal) : Prop :=
  ∃ N, ∀ fuel ≥ N, ∀ (π' : Type) [FlushPolicy π'] (ρ : Renaming) (P : π → π' → Prop)
    (Tr : Recorder → Recorder → Prop),
    TraceSim ρ.rel Tr → PolicySim ρ.rel P → ∀ b, Resembles ρ.rel P Tr (Arena.Models ρ) e b →
      ∃ b', m π' fuel b = .ok a b' ∧ Resembles ρ.rel P Tr (Arena.Models ρ) e' b'

/-- Every arena that stands for an engine runs out of sequence numbers. -/
def Overflows (m : Program α) (e : Engine π Ideal) : Prop :=
  ∃ N, ∀ fuel ≥ N, ∀ (π' : Type) [FlushPolicy π'] (ρ : Renaming) (P : π → π' → Prop)
    (Tr : Recorder → Recorder → Prop),
    TraceSim ρ.rel Tr → PolicySim ρ.rel P → ∀ b, Resembles ρ.rel P Tr (Arena.Models ρ) e b →
      ∃ b', m π' fuel b = .error .overflow b'

lemma carries_step (hπ : FlushPolicy.Legal π) (ht : Holds e t) (op : SimOp) :
    (∃ (reply : SimReply) (e' : Engine π Ideal) (h' : ℕ) (t' : Live h'), Holds e' t' ∧
      Carries (fun _ _ fuel => BeTree.simStep fuel op) e reply e') ∨
    Overflows (fun _ _ fuel => BeTree.simStep fuel op) e := by
  cases op with
  | commit =>
    obtain ⟨N, hN⟩ :
      ∃ N, ∀ fuel ≥ N, Engine.dirtyNodes fuel e = .ok ((Live.written t).map Prod.fst) e :=
      dirtyNodes_run ht.root ht.stored
    refine Or.inl ⟨.bytes (chargeOf ((Live.written t).map Prod.snd)), _, h, _,
      ht.commit fun _ => 0, N,
      fun fuel hf π' _ ρ P Tr _ _ b hb => ?_⟩
    obtain ⟨b', hrun, hb'⟩ := simulateCommit_run ht.stored (hN fuel hf) (fun _ => 0) b hb
    exact ⟨b', Engine.run_bind hrun, hb'⟩
  | op op =>
    by_cases hs : op.Numbered e.nextSeq
    · obtain ⟨reply, e', h', t', N, hrun, hst⟩ := step_run hπ ht op hs (Or.inl rfl)
      refine Or.inl ⟨.reply reply, e', h', t', hst.holds, N,
        fun fuel hf π' _ ρ P Tr hT hP b hb => ?_⟩
      rcases (arenaSim ρ).sims_step hT hP fuel op e b hb trivial reply e' (hrun fuel hf) with
        ⟨_, b', hb', rfl, -, hal, -⟩ | ⟨f, b', -, -, hf, -⟩
      · exact ⟨b', Engine.run_bind hb', hal⟩
      · exact hf.elim
    · refine Or.inr ⟨0, fun fuel _ π' _ ρ P Tr _ _ b hb => ?_⟩
      obtain ⟨f, b', hrun, hf⟩ := (arenaSim ρ).step_overflow ht hb op hs fuel
      obtain rfl : f = .overflow := hf.resolve_right id
      refine ⟨b', ?_⟩
      change EStateM.bind _ _ _ = _
      simp only [EStateM.bind, hrun]

theorem carries_run (hπ : FlushPolicy.Legal π) (ops : List SimOp) (ht : Holds e t) :
    (∃ (replies : List SimReply) (e' : Engine π Ideal) (h' : ℕ) (t' : Live h'), Holds e' t' ∧
      Carries (fun _ _ fuel => runOps (BeTree.simStep fuel) ops) e replies e') ∨
    Overflows (fun _ _ fuel => runOps (BeTree.simStep fuel) ops) e := by
  induction ops generalizing e h with
  | nil => exact Or.inl ⟨[], e, h, t, ht, 0, fun _ _ _ _ _ _ _ _ _ b hb => ⟨b, rfl, hb⟩⟩
  | cons op ops ih =>
    rcases carries_step hπ ht op with ⟨reply, e₁, h₁, t₁, ht₁, N, hN⟩ | ⟨N, hN⟩
    · rcases ih ht₁ with ⟨replies, e', h', t', ht', M, hM⟩ | ⟨M, hM⟩
      · refine Or.inl ⟨reply :: replies, e', h', t', ht', max N M,
          fun fuel hf π' _ ρ P Tr hT hP b hb => ?_⟩
        obtain ⟨b₁, hrun₁, hb₁⟩ := hN fuel ((le_max_left N M).trans hf) π' ρ P Tr hT hP b hb
        obtain ⟨b', hrun', hb'⟩ := hM fuel ((le_max_right N M).trans hf) π' ρ P Tr hT hP b₁ hb₁
        refine ⟨b', ?_, hb'⟩
        change (BeTree.simStep fuel op >>= _) b = _
        rw [Engine.run_bind hrun₁, Engine.run_bind hrun']
        rfl
      · refine Or.inr ⟨max N M, fun fuel hf π' _ ρ P Tr hT hP b hb => ?_⟩
        obtain ⟨b₁, hrun₁, hb₁⟩ := hN fuel ((le_max_left N M).trans hf) π' ρ P Tr hT hP b hb
        obtain ⟨b', hrun'⟩ := hM fuel ((le_max_right N M).trans hf) π' ρ P Tr hT hP b₁ hb₁
        refine ⟨b', ?_⟩
        change (BeTree.simStep fuel op >>= _) b = _
        rw [Engine.run_bind hrun₁]
        change EStateM.bind _ _ _ = _
        simp only [EStateM.bind, hrun']
    · refine Or.inr ⟨N, fun fuel hf π' _ ρ P Tr hT hP b hb => ?_⟩
      obtain ⟨b', hrun⟩ := hN fuel hf π' ρ P Tr hT hP b hb
      refine ⟨b', ?_⟩
      change EStateM.bind _ _ _ = _
      simp only [EStateM.bind, hrun]

end Carries

section Fork
variable {π : Type} [FlushPolicy π]

/-- Two trees give the same replies to a run and end with the same verdict of the checker; under a
watched policy the policy sees the same and names the same children. -/
def SameRun (fuel : ℕ) (ops : List SimOp) (b fork : BeTree π) : Prop :=
  ∃ (replies : List SimReply) (b₁ b₂ : BeTree π) (w₁ w₂ : BeTree (Watched π)),
    runOps (BeTree.simStep fuel) ops b = .ok replies b₁ ∧
    runOps (BeTree.simStep fuel) ops fork = .ok replies b₂ ∧
    runOps (BeTree.simStep fuel) ops b.watched = .ok replies w₁ ∧
    runOps (BeTree.simStep fuel) ops fork.watched = .ok replies w₂ ∧
    w₁.policy.policy = b₁.policy ∧ w₂.policy.policy = b₂.policy ∧
    Forall₂ SeenAlike w₁.policy.seen w₂.policy.seen ∧
    ∃ M, ∀ n ≥ M, checkInvariants n b₁.source = checkInvariants n b₂.source

/-- Two trees both run out of sequence numbers. -/
def BothOverflow (fuel : ℕ) (ops : List SimOp) (b fork : BeTree π) : Prop :=
  (∃ b₁, runOps (BeTree.simStep fuel) ops b = .error .overflow b₁) ∧
    ∃ b₂, runOps (BeTree.simStep fuel) ops fork = .error .overflow b₂

omit [FlushPolicy π] in
lemma Holds.watched {e : Engine π Ideal} {h : ℕ} {t : Live h} (ht : Holds e t) :
    Holds ({ e with policy := ⟨e.policy, []⟩ } : Engine (Watched π) Ideal) t :=
  ⟨ht.root, ht.stored, ht.whole, ht.good, ht.sound, ht.rest, ht.fresh, ht.legal⟩

/-- A fork is a bisimulation up to the names of nodes. -/
theorem forkForSim_bisim (hπ : FlushPolicy.IgnoresNode π) {b : BeTree π} (hb : b.Reachable)
    (ops : List SimOp) :
    ∃ fork : BeTree π, (∃ N, ∀ fuel ≥ N, BeTree.forkForSim fuel b b.policy = .ok fork) ∧
      ∃ N, ∀ fuel ≥ N, SameRun fuel ops b fork ∨ BothOverflow fuel ops b fork := by
  obtain ⟨hlegal, e, h, t, ht, hal⟩ := hb.holds
  refine ⟨b.copy t b.policy, forkForSim_run ht hal b.policy, ?_⟩
  -- one ideal run under the watched policy stands behind all four
  let w : Engine (Watched π) Ideal := { e with policy := ⟨e.policy, []⟩ }
  have hw : Holds w t := ht.watched
  have hpol : b.policy = e.policy := hal.policy.symm
  have hlt : ∀ i ∈ Live.order t, i < e.store.next := fun i hi =>
    ht.stored.bound i (Live.mem_order.mp hi)
  let ρ := Live.copying t e.store.next hlt
  have htrue : TraceSim ρ.rel fun _ _ => True :=
    ⟨fun _ _ _ => trivial, fun _ _ => trivial, fun _ _ _ => trivial, fun _ _ _ _ => trivial⟩
  have hb₁ : Resembles Eq (fun (w : Watched π) p => w.policy = p) Eq Arena.Same w b :=
    ⟨hal.store, hal.params, hal.root, hal.nextSeq, hal.ops, hpol.symm, hal.trace⟩
  have hw₁ : Alike Arena.Same w b.watched :=
    ⟨hal.store, hal.params, hal.root, hal.nextSeq, hal.ops, by rw [BeTree.watched, hpol], hal.trace⟩
  have hcopy : Resembles ρ.rel Eq (fun _ _ => True) (Arena.Models ρ) e (b.copy t b.policy) :=
    resembles_copy ht hal hpol.symm trivial hlt
  have hb₂ : Resembles ρ.rel (fun (w : Watched π) p => w.policy = p) (fun _ _ => True)
    (Arena.Models ρ) w
      (b.copy t b.policy) :=
    ⟨hcopy.store, hcopy.params, hcopy.root, hcopy.nextSeq, hcopy.ops, hpol.symm, trivial⟩
  have hw₂ : Resembles ρ.rel (fun w w' : Watched π => w.policy = w'.policy ∧
    Forall₂ SeenAlike w.seen w'.seen)
      (fun _ _ => True) (Arena.Models ρ) w (b.copy t b.policy).watched :=
    ⟨hcopy.store, hcopy.params, hcopy.root, hcopy.nextSeq, hcopy.ops, ⟨hpol.symm, .nil⟩, trivial⟩
  rcases carries_run (Watched.legal hlegal) ops hw with ⟨replies, e', h', t', ht', N, hN⟩ | ⟨N, hN⟩
  · refine ⟨N, fun fuel hf => Or.inl ?_⟩
    obtain ⟨b₁, hrun₁, hb₁⟩ := hN fuel hf _ .same _ _ traceSim_eq policySim_watched b hb₁
    obtain ⟨b₂, hrun₂, hb₂⟩ := hN fuel hf _ ρ _ _ htrue (policySim_blind hπ ρ.rel) _ hb₂
    obtain ⟨w₁, hrunw₁, hw₁⟩ := hN fuel hf _ .same _ _ traceSim_eq (policySim_eq _) _ hw₁
    obtain ⟨w₂, hrunw₂, hw₂⟩ := hN fuel hf _ ρ _ _ htrue (policySim_seen hπ ρ.rel) _ hw₂
    obtain ⟨hG₁, hL₁⟩ := hb₁.lawful ht'
    obtain ⟨hG₂, hL₂⟩ := hb₂.lawful ht'
    obtain ⟨M₁, v₁, hM₁, hv₁⟩ := checkInvariants_verdict hG₁
    obtain ⟨M₂, v₂, hM₂, hv₂⟩ := checkInvariants_verdict hG₂
    refine ⟨replies, b₁, b₂, w₁, w₂, hrun₁, hrun₂, hrunw₁, hrunw₂, ?_, ?_, ?_,
      max M₁ M₂, fun n hn => ?_⟩
    · rw [← hb₁.policy, hw₁.policy]
    · rw [← hb₂.policy, hw₂.policy.1]
    · rw [← hw₁.policy]
      exact hw₂.policy.2
    · rw [hM₁ n ((le_max_left _ _).trans hn), hM₂ n ((le_max_right _ _).trans hn),
        hv₁.mpr hL₁, hv₂.mpr hL₂]
  · refine ⟨N, fun fuel hf => Or.inr ⟨?_, ?_⟩⟩
    · exact hN fuel hf _ .same _ _ traceSim_eq policySim_watched b hb₁
    · exact hN fuel hf _ ρ _ _ htrue (policySim_blind hπ ρ.rel) _ hb₂

lemma GreedyFullest.ignoresNode : FlushPolicy.IgnoresNode GreedyFullest := fun _ _ _ => rfl

/-- The fork of a tree with messages on two levels, and with a node that no other one points to. -/
theorem forkForSim_bisim_churned : BeTree.churned.root = 5 ∧
    BeTree.churned.store.nodes[5]? = some
      (.internal [[5]] [4, 7] (OrdMap.empty.insert [4] (.put 10 [7]))) ∧
    BeTree.churned.store.nodes[4]? = some (.internal [] [3] (OrdMap.empty.insert [2] (.delete 9))) ∧
    BeTree.churned.store.nodes[0]? = some (.leaf OrdMap.empty) ∧
    ∃ fork : BeTree GreedyFullest, (∃ N, ∀ fuel ≥ N, BeTree.forkForSim fuel BeTree.churned
      ⟨⟩ = .ok fork) ∧
      ∃ N, ∀ fuel ≥ N,
        SameRun fuel [.op (.mutate (.insert [6] [7])), .op (.get [2]), .commit, .op .drain,
          .op (.scan .unbounded .unbounded), .commit]
          BeTree.churned fork ∨
        BothOverflow fuel [.op (.mutate (.insert [6] [7])), .op (.get [2]), .commit, .op .drain,
          .op (.scan .unbounded .unbounded),
          .commit] BeTree.churned fork := by
  obtain ⟨hroot, hmessages, hbelow, hleaked, -⟩ := BeTree.churned_nodes
  exact ⟨hroot, hmessages, hbelow, hleaked,
    forkForSim_bisim GreedyFullest.ignoresNode BeTree.reachable_churned _⟩

end Fork
end Beetree
