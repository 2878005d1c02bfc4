import Beetree.Disk
import Beetree.Fuel

/-! The calls of an engine on a device within their fuel. -/
namespace Beetree

section Check
variable {src : NodeSource} {n n' : ℕ}

lemma checkTree_mono (hn : n ≤ n') {frames : List Frame} {newest : OrdMap Key UInt64}
    {depths : LeafDepths} :
    checkTree src n frames newest depths = .error .fuel ∨
      checkTree src n' frames newest depths = checkTree src n frames newest depths := by
  induction n generalizing n' frames newest depths with
  | zero => exact Or.inl rfl
  | succ n ih =>
    obtain ⟨n', rfl⟩ : ∃ m, n' = m + 1 := ⟨n' - 1, by omega⟩
    have hn' : n ≤ n' := by omega
    rcases frames with _ | ⟨⟨id, lower, upper, depth, overlay⟩ | ⟨entries⟩, stack⟩
    · exact Or.inr rfl
    · simp only [checkTree]
      cases hnode : src.node id with
      | none => exact Or.inr rfl
      | some node =>
        cases node with
        | leaf es =>
          dsimp only
          cases checkLeaf src id lower upper (applyOverlay overlay newest).1 es with
          | some v => exact Or.inr rfl
          | none => exact ih hn'
        | internal ps cs b =>
          dsimp only
          cases checkInternal src id lower upper (applyOverlay overlay newest).1 ps cs b with
          | some v => exact Or.inr rfl
          | none =>
            dsimp only
            cases cs.zipIdx.mapM (childFrame ps lower upper depth b) with
            | none => exact Or.inr rfl
            | some frames => exact ih hn'
    · exact ih hn'

lemma checkInvariants_mono {fuel fuel' : ℕ} (hf : fuel ≤ fuel') :
    checkInvariants fuel src = .error .fuel ∨
    checkInvariants fuel' src = checkInvariants fuel src := by
  unfold checkInvariants
  rcases checkTree_mono hf with h | h
  · rw [h]
    exact Or.inl rfl
  · rw [h]
    exact Or.inr rfl

end Check

namespace DiskEngine
variable {π V : Type} {fuel fuel' : ℕ}

lemma refines_poisoning {α : Type} {m m' : Engine.Act π (DiskStore V) α} (h : Lasts m m') :
    Lasts (poisoning m) (poisoning m') := by
  intro r
  unfold poisoning
  rcases h r with ⟨f, r', hm, rfl⟩ | heq
  · exact Or.inl ⟨.fuel, r', by rw [hm], rfl⟩
  · exact Or.inr (by rw [heq])

variable [Vfs V] [Crc32Fast]

lemma refines_commitInner (hf : fuel ≤ fuel') :
    Lasts (commitInner fuel : Engine.Act π (DiskStore V) _) (commitInner fuel') :=
  (refines_dirtyNodes hf).bind fun _ => Refines.refl _

lemma refines_commit (hf : fuel ≤ fuel') : Lasts (commit fuel : Engine.Act π (DiskStore V) _)
    (commit fuel') :=
  (Refines.refl _).bind fun _ => (Refines.refl _).ite (refines_poisoning (refines_commitInner hf))

lemma refines_heightLoop {n n' : ℕ} (hn : n ≤ n') (height : ℕ) (id : NodeId) :
    Lasts (heightLoop n height id : Engine.Act π (DiskStore V) _) (heightLoop n' height id) := by
  induction n generalizing n' height id with
  | zero => exact Lasts.fuel _
  | succ n ih =>
    obtain ⟨n', rfl⟩ : ∃ m, n' = m + 1 := ⟨n' - 1, by omega⟩
    refine (Refines.refl _).bind fun _ => (Refines.refl _).bind fun node => ?_
    cases node with
    | leaf es => exact Refines.refl _
    | internal ps cs b =>
      cases cs with
      | nil => exact Refines.refl _
      | cons c cs => exact ih (by omega) _ _

lemma refines_checkInvariantsFull (hf : fuel ≤ fuel') :
    Lasts (checkInvariantsFull fuel : Engine.Act π (DiskStore V) _)
    (checkInvariantsFull fuel') := by
  refine (Refines.refl _).bind fun r => (Refines.refl _).bind fun _ => ?_
  intro r₁
  have hload : Lasts (Engine.loadAll fuel : Engine.Act π (DiskStore V) Unit)
    (Engine.loadAll fuel') :=
    (Refines.refl _).bind fun _ => refines_loadLoop hf _
  dsimp only
  rcases hload r₁ with ⟨f, r₂, hrun, rfl⟩ | heq
  · exact Or.inl ⟨.fuel, r₂, by rw [hrun], rfl⟩
  · rw [heq]
    cases (Engine.loadAll fuel : Engine.Act π (DiskStore V) Unit) r₁ with
    | error f r₂ => cases f <;> exact Or.inr rfl
    | ok u r₂ =>
      dsimp only
      rcases checkInvariants_mono hf with hcheck | hcheck
      · exact Or.inl ⟨.fuel, r₂, by rw [hcheck], rfl⟩
      · exact Or.inr (by rw [hcheck])

variable [FlushPolicy π]

theorem refines_step (hf : fuel ≤ fuel') (op : DiskOp) :
    Lasts (step fuel op : Engine.Act π (DiskStore V) DiskReply) (step fuel' op) := by
  cases op with
  | op op =>
    cases op with
    | mutate op =>
      refine Refines.bind ((Refines.refl _).bind fun _ => refines_poisoning ?_)
        fun _ => Refines.refl _
      exact (Refines.refl _).bind fun _ => (Refines.refl _).bind fun _ =>
        (Refines.refl _).bind fun _ =>
        refines_restoreRootWith hf _ _
    | get key =>
      exact ((Refines.refl _).bind fun _ => (Refines.refl _).bind fun e => refines_getLoop hf key
        none _).bind fun _ =>
        Refines.refl _
    | scan lo hi => exact (refines_scan hf lo hi).bind fun _ => Refines.refl _
    | drain =>
      exact ((Refines.refl _).bind fun _ => (Refines.refl _).bind fun _ =>
        refines_poisoning (refines_restoreRootWith hf 0 false)).bind fun _ => Refines.refl _
  | loadAll =>
    exact ((Refines.refl _).bind fun _ => refines_loadLoop hf _).bind fun _ => Refines.refl _
  | height =>
    exact ((Refines.refl _).bind fun _ => refines_heightLoop hf _ _).bind fun _ => Refines.refl _
  | checkInvariantsFull => exact (refines_checkInvariantsFull hf).bind fun _ => Refines.refl _
  | commit => exact (refines_commit hf).bind fun _ => Refines.refl _

end DiskEngine
end Beetree
