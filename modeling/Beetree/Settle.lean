import Beetree.Fuel
import Beetree.Reach

/-! Settling ends, and every batch on the way is worth taking. -/
namespace Beetree
open Coupling

namespace Engine
variable {π St : Type} [FlushPolicy π] [NodeStore St]

/-- Take a batch, insisting that the node has children and that the batch is not empty. -/
def checkedPick : Pick π St := fun id depth policyMode => do
  if (← loaded id).children.isEmpty then throw .panic
  else
    let picked ← pickAndExtract id depth policyMode
    if picked.2.2.2.isEmpty then throw .panic else pure picked

end Engine

section Spec
variable {π : Type} [FlushPolicy π] {h : ℕ} {e : Engine π Ideal} {t : Live h}

lemma checkedPick_run (hπ : FlushPolicy.Legal π) :
    PickSpec (Engine.checkedPick : Engine.Pick π Ideal) := by
  intro e h id d dk ps cs b hF hd hs hl hb depth mode pins
  obtain ⟨ps₁, ps₂, cs₁, c, cs₂, occ, e', rfl, rfl, hlen, hrun, hpos, hgo⟩ :=
    pickAndExtract_run hπ hF hd hs hl hb depth mode pins
  refine ⟨ps₁, ps₂, cs₁, c, cs₂, occ, e', rfl, rfl, hlen, ?_, hpos, hgo⟩
  have hload : Engine.loaded id e = .ok (Body.node (ps₁ ++ ps₂) (cs₁ ++ c :: cs₂) b).toNode e :=
    loaded_run hF.top hd
  unfold Engine.checkedPick
  rw [Engine.run_bind hload, if_neg (by simp [Body.toNode_node, Node.children]),
    Engine.run_bind hrun, if_neg]
  · rfl
  · intro h0
    rw [OrdMap.isEmpty_iff] at h0
    simp only at h0
    rw [h0] at hpos
    exact lt_irrefl 0 hpos

omit [FlushPolicy π] in
lemma Arena.loaded_eq {b b' : BeTree π} {id : NodeId} {n : Node}
    (h : Engine.loaded id b = .ok n b') : b' = b := by
  simp only [Engine.loaded, Engine.onStore, NodeStore.loaded] at h
  cases hn : b.store.nodes[id]? with
  | none => simp [hn] at h
  | some m =>
    simp only [hn] at h
    cases h
    rfl

lemma refines_checkedPick (id : NodeId) (depth : ℕ) (mode : Bool) :
    Refines (fun _ => True) (Engine.checkedPick id depth mode : Engine.Act π Arena _)
    (Engine.pickAndExtract id depth mode) := by
  intro b
  unfold Engine.checkedPick
  cases hload : (Engine.loaded id : Engine.Act π Arena Node) b with
  | error f b₁ => exact Or.inl ⟨f, b₁, run_bind_error hload, trivial⟩
  | ok n b₁ =>
    obtain rfl := Arena.loaded_eq hload
    rw [run_bind_ok hload]
    split_ifs
    · exact Or.inl ⟨.panic, b₁, rfl, trivial⟩
    · -- what is left is the pick itself, followed by a test
      have htest := (Refines.refl (Engine.pickAndExtract id depth mode : Engine.Act π Arena _)).bind
        fun p =>
        show Refines (fun _ => True) (if p.2.2.2.isEmpty then throw .panic else pure p) (pure p) by
          split_ifs
          · exact Refines.throw trivial _
          · exact Refines.refl _
      rw [bind_pure] at htest
      exact htest b₁

lemma sims_checkedPick {id id' : NodeId} (hid : Renaming.same.rel id id')
    (depth : ℕ) (mode : Bool) :
    ((arenaSim .same).engines (π := π) Eq Eq).Sims (PickRel Renaming.same.rel)
    (Engine.checkedPick id depth mode)
      (Engine.checkedPick id' depth mode) := by
  refine ((arenaSim .same).sims_loaded hid).bind fun node node' hn => ?_
  rw [forall₂_isEmpty hn.children]
  refine (Sims.throw _ _).ite
    (((arenaSim .same).sims_pickAndExtract (fun _ => policySim_eq π) hid depth).bind ?_)
  rintro ⟨chosen, child, occ, batch⟩ ⟨chosen', child', occ', batch'⟩ ⟨h₁, h₂, h₃⟩
  cases h₁
  cases h₃
  exact (Sims.throw _ _).ite (Sims.pure ⟨rfl, h₂, rfl⟩)

lemma restoreRoot_checked (hπ : FlushPolicy.Legal π) {thr : ℕ} {id : NodeId} {d : Bool}
    {dk : Option (VTree h)}
    {x : Body h} (hr : RootReady true thr e id d dk x) {b : BeTree π}
    (hb : Alike Arena.Same e b) (tr : Bool) :
    ∃ b' N, ∀ fuel ≥ N, Engine.restoreRootBy Engine.checkedPick fuel thr tr b = .ok () b' ∧
      Engine.restoreRootWith fuel thr tr b = .ok () b' := by
  obtain ⟨e', N, -, hrun⟩ := restoreRoot_run (checkedPick_run hπ) tr hr
  rcases (arenaSim .same).sims_restoreRootBy (fun _ => traceSim_eq)
    (fun hid depth => sims_checkedPick hid depth tr) N thr e b hb trivial
    () e' (hrun N le_rfl) with ⟨_, b', hb', -⟩ | ⟨f, b', -, -, hf, -⟩
  · refine ⟨b', N, fun fuel hf => ⟨?_, ?_⟩⟩
    · exact (refines_restoreRootBy rfl (fun _ _ _ => Refines.refl _) hf thr tr).ok hb'
    · exact (refines_restoreRootBy trivial refines_checkedPick hf thr tr).ok hb'
  · exact hf.elim

omit [FlushPolicy π] in
lemma arena_ensureLoaded (b : BeTree π) (id : NodeId) (pins : List NodeId) :
    Engine.ensureLoaded id pins b = .ok () b := rfl

omit [FlushPolicy π] in
/-- A message is handed to the root only under a number. -/
lemma enter_numbered {b s : BeTree π} {op : OpKind2} (h : Engine.enter op b = .ok () s) :
    b.nextSeq.toNat + 1 < 2 ^ 64 := by
  by_contra hs
  have hstamp : Engine.stamp op b = .error .overflow b := by
    unfold Engine.stamp
    rw [Engine.run_bind Engine.run_get, if_neg hs]
    rfl
  unfold Engine.enter at h
  rw [Engine.run_bind Engine.run_get, Engine.run_bind (arena_ensureLoaded b b.root [])] at h
  change EStateM.bind _ _ _ = _ at h
  simp only [EStateM.bind, hstamp] at h
  cases h

/-- The states in which the root is restored: a tree at rest, which is drained, and a tree whose
root has just been handed a message. -/
def BeTree.Unsettled (b s : BeTree π) : Prop := s = b ∨ ∃ op, Engine.enter op b = .ok () s

/-- Settling ends from every state it is entered in, whatever the policy does within its contract.
No batch is taken from a node without children, and none is empty; and a root that is too wide
splits into fewer pieces than it had children. -/
theorem restoreRootWith_ends {b s : BeTree π} (hb : b.Reachable) (hs : b.Unsettled s) {thr : ℕ}
    (hthr : thr = s.params.bufferCapacity.toNat ∨ thr = 0) (tr : Bool) :
    (∃ s' N, ∀ fuel ≥ N, Engine.restoreRootBy Engine.checkedPick fuel thr tr s = .ok () s' ∧
      Engine.restoreRootWith fuel thr tr s = .ok () s') ∧
    ∀ n, s.params.fanout.toNat < n → (partitionSizes n s.params.fanout.toNat).length < n := by
  obtain ⟨hπ, e, h, t, ht, hal⟩ := hb.holds
  have hsplit : ∀ p : Params, p.Legal → ∀ n, p.fanout.toNat < n →
    (partitionSizes n p.fanout.toNat).length < n :=
    fun p hp n hn => partitionSizes_length hp.1 (hp.1.trans hn.le)
  rcases hs with rfl | ⟨op, hrun⟩
  · have hcap : thr ≤ e.params.bufferCapacity.toNat := by
      rcases hthr with rfl | rfl
      · rw [hal.params]
      · exact Nat.zero_le _
    obtain ⟨e₁, d, dk, x, hrun₁, hready, -, -⟩ := rest_ready (q := true) ht hcap (Or.inl rfl)
    refine ⟨?_, hsplit _ (hal.params ▸ ht.legal)⟩
    rcases (arenaSim .same).sims_ensureLoaded loadInv_true hal.root .nil e s hal trivial
      () e₁ hrun₁ with
      ⟨_, b₁, hb₁, -, -, hal₁, -⟩ | ⟨f, b₁, -, -, hf, -⟩
    · rw [arena_ensureLoaded] at hb₁
      cases hb₁
      exact restoreRoot_checked hπ hready hal₁ tr
    · exact hf.elim
  · have hseq : e.nextSeq.toNat + 1 < 2 ^ 64 := hal.nextSeq ▸ enter_numbered hrun
    obtain ⟨e₁, dk, x, hrun₁, hent⟩ := enter_run ht op hseq
    rcases (arenaSim .same).sims_enter traceSim_eq op e b hal trivial () e₁ hrun₁ with
      ⟨_, b₁, hb₁, -, -, hal₁, -⟩ | ⟨f, b₁, -, -, hf, -⟩
    · rw [hrun] at hb₁
      cases hb₁
      have hprm : s.params = e.params := hal₁.params.trans hent.params
      have hcap : thr ≤ e.params.bufferCapacity.toNat := by
        rcases hthr with rfl | rfl
        · rw [hprm]
        · exact Nat.zero_le _
      exact ⟨restoreRoot_checked hπ (hent.ready hcap (Or.inl rfl)) hal₁ tr,
        hsplit _ (hprm ▸ ht.legal)⟩
    · exact hf.elim

/-- Another message does not fit into the root of a worn tree, which then flushes; and the messages
of that tree are drained. -/
theorem restoreRootWith_ends_churned :
    (∃ s s' N, Engine.enter (.insert [6] [7]) BeTree.churned = .ok () s ∧
      BeTree.churned.trace.decisions.length < s'.trace.decisions.length ∧
      ∀ fuel ≥ N, Engine.restoreRootBy Engine.checkedPick fuel s.params.bufferCapacity.toNat
        true s = .ok () s' ∧
        Engine.restoreRootWith fuel s.params.bufferCapacity.toNat true s = .ok () s') ∧
    (BeTree.churned.root = 5 ∧
      BeTree.churned.store.nodes[5]? = some
        (.internal [[5]] [4, 7] (OrdMap.empty.insert [4] (.put 10 [7]))) ∧
      BeTree.churned.store.nodes[4]? = some
        (.internal [] [3] (OrdMap.empty.insert [2] (.delete 9)))) ∧
    (∃ s' N, ∀ fuel ≥ N, Engine.restoreRootBy Engine.checkedPick fuel 0 false
      BeTree.churned = .ok () s' ∧
      Engine.restoreRootWith fuel 0 false BeTree.churned = .ok () s') ∧
    ∀ n, BeTree.churned.params.fanout.toNat < n →
    (partitionSizes n BeTree.churned.params.fanout.toNat).length < n := by
  obtain ⟨hroot, hmessages, hbelow, -⟩ := BeTree.churned_nodes
  have hflush : endsWith ((do
      Engine.enter (.insert [6] [7])
      Engine.restoreRootWith 40 (← get).params.bufferCapacity.toNat true :
        Engine.Act GreedyFullest Arena Unit) BeTree.churned)
      (fun s' => decide (BeTree.churned.trace.decisions.length < s'.trace.decisions.length)) =
        true := by decide +kernel
  obtain ⟨_, hrun, hmore⟩ := endsWith_eq_true hflush
  obtain ⟨_, s, henter, hsettle⟩ := bind_eq_ok hrun
  rw [Engine.run_bind Engine.run_get] at hsettle
  obtain ⟨⟨s', N, hN⟩, -⟩ := restoreRootWith_ends BeTree.reachable_churned (Or.inr ⟨_, henter⟩)
    (Or.inl rfl) true
  have hsame := (refines_restoreRootWith (le_max_left 40 N) _ true).ok hsettle
  rw [(hN _ (le_max_right 40 N)).2] at hsame
  cases hsame
  obtain ⟨hdrain, hsplit⟩ := restoreRootWith_ends BeTree.reachable_churned (Or.inl rfl)
    (Or.inr rfl) false
  exact ⟨⟨s, _, N, henter, of_decide_eq_true hmore, hN⟩, ⟨hroot, hmessages, hbelow⟩, hdrain, hsplit⟩

end Spec
end Beetree
