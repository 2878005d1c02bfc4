import Beetree.BeTree
import Beetree.Ops
import Beetree.Simulation

/-! A loop that ends within its fuel ends in the same way with more. -/
namespace Beetree

/-- The second program ends as the first does, unless the first runs out of fuel. -/
abbrev Lasts {σ α : Type} (x y : EStateM Fault σ α) : Prop := Refines (fun f => f = .fuel) x y

lemma Lasts.fuel {σ α : Type} (y : EStateM Fault σ α) : Lasts (throw .fuel) y := fun s =>
    Or.inl ⟨.fuel, s, rfl, rfl⟩

section Machine
variable {π St : Type} [NodeStore St] {n n' fuel fuel' : ℕ}

lemma refines_subtreeHasMessages (hn : n ≤ n') (pins stack : List NodeId) :
    Lasts (Engine.subtreeHasMessages pins n stack : Engine.Act π St Bool)
    (Engine.subtreeHasMessages pins n' stack) := by
  induction n generalizing n' stack with
  | zero => exact Lasts.fuel _
  | succ n ih =>
    obtain ⟨n', rfl⟩ : ∃ m, n' = m + 1 := ⟨n' - 1, by omega⟩
    cases stack with
    | nil => exact Refines.refl _
    | cons id stack =>
      refine (Refines.refl _).bind fun _ => (Refines.refl _).bind fun node => ?_
      cases node with
      | leaf es => exact ih (by omega) _
      | internal ps cs b => exact (ih (by omega) _).ite (Refines.refl _)

lemma refines_findBuffered (hf : fuel ≤ fuel') (flushing children : List NodeId) :
    Lasts (Engine.findBuffered fuel flushing children : Engine.Act π St _)
      (Engine.findBuffered fuel' flushing children) := by
  induction children with
  | nil => exact Refines.refl _
  | cons child children ih =>
    exact (refines_subtreeHasMessages hf _ _).bind fun found => (Refines.refl _).ite ih

lemma refines_descend (hf : fuel ≤ fuel') (thr : ℕ) (flushing : List NodeId) (top : NodeId) :
    Lasts (Engine.descend fuel thr flushing top : Engine.Act π St _)
    (Engine.descend fuel' thr flushing top) :=
  ((Refines.refl _).bind fun _ => refines_findBuffered hf _ _).ite (Refines.refl _)

section Pick
variable {out : Fault → Prop} (hout : out .fuel) {pick pick' : Engine.Pick π St}
    (hpick : ∀ id depth mode, Refines out (pick id depth mode) (pick' id depth mode))
include hout hpick

lemma refines_flushLoop (hf : fuel ≤ fuel') (hn : n ≤ n') (thr : ℕ) (tr : Bool)
    (stack : List NodeId) :
    Refines out (Engine.flushLoop pick fuel thr tr n stack)
    (Engine.flushLoop pick' fuel' thr tr n' stack) := by
  induction n generalizing n' stack with
  | zero => exact Refines.throw hout _
  | succ n ih =>
    obtain ⟨n', rfl⟩ : ∃ m, n' = m + 1 := ⟨n' - 1, by omega⟩
    have ih := fun stack => @ih n' (by omega) stack
    cases stack with
    | nil => exact Refines.refl _
    | cons top below =>
      refine (Refines.refl _).bind fun len => Refines.ite ?_ ?_
      · refine ((refines_descend hf _ _ _).mono (fun _ h => h ▸ hout)).bind fun child => ?_
        cases child with
        | some child => exact ih _
        | none =>
          refine (Refines.refl _).bind fun outcome => ?_
          cases below with
          | nil => exact Refines.refl _
          | cons parent below => exact (Refines.refl _).bind fun _ => ih _
      · refine (hpick _ _ _).bind fun picked => (Refines.refl _).bind fun _ => (Refines.refl _).bind
          fun delivery => ?_
        have hsplit := (Refines.refl (Engine.splitIfNeeded picked.2.1)).bind fun promoted =>
          (Refines.refl (Engine.integrateSplits top promoted)).bind fun _ => ih (top :: below)
        match delivery with
        | .internal true => exact ih _
        | .internal false => exact hsplit
        | .leaf true => exact (Refines.refl _).bind fun _ => ih _
        | .leaf false => exact hsplit

lemma refines_growLoop (hf : fuel ≤ fuel') (hn : n ≤ n') (thr : ℕ) (tr : Bool) :
    Refines out (Engine.growLoop pick fuel thr tr n) (Engine.growLoop pick' fuel' thr tr n') := by
  induction n generalizing n' with
  | zero => exact Refines.throw hout _
  | succ n ih =>
    obtain ⟨n', rfl⟩ : ∃ m, n' = m + 1 := ⟨n' - 1, by omega⟩
    refine (Refines.refl _).bind fun e => ?_
    have hroot : Refines out (Engine.settleRoot pick fuel thr tr e.root)
      (Engine.settleRoot pick' fuel' thr tr e.root) := by
      refine (Refines.refl _).bind fun node => ?_
      cases node with
      | internal ps cs b => exact refines_flushLoop hout hpick hf hf thr tr [e.root]
      | leaf es => exact Refines.refl _
    refine hroot.bind fun outcome => ?_
    match outcome with
    | .removed => exact Refines.refl _
    | .splits [] => exact Refines.refl _
    | .splits (_ :: _) =>
      exact (Refines.refl _).bind fun _ => (Refines.refl _).bind fun _ => ih (by omega)

end Pick

lemma refines_collapseLoop (hn : n ≤ n') : Lasts (Engine.collapseLoop n : Engine.Act π St Unit)
    (Engine.collapseLoop n') := by
  induction n generalizing n' with
  | zero => exact Lasts.fuel _
  | succ n ih =>
    obtain ⟨n', rfl⟩ : ∃ m, n' = m + 1 := ⟨n' - 1, by omega⟩
    refine (Refines.refl _).bind fun e => (Refines.refl _).bind fun node => ?_
    match node with
    | .leaf es => exact Refines.refl _
    | .internal ps [] b => exact Refines.refl _
    | .internal ps [c] b =>
      exact ((Refines.refl _).bind fun _ => (Refines.refl _).bind
        fun _ => (Refines.refl _).bind fun _ =>
        ih (by omega)).ite (Refines.refl _)
    | .internal ps (c :: c' :: cs) b => exact Refines.refl _

lemma refines_restoreRootBy {out : Fault → Prop} (hout : out .fuel) {pick pick' : Engine.Pick π St}
    (hpick : ∀ id depth mode, Refines out (pick id depth mode) (pick' id depth mode))
    (hf : fuel ≤ fuel') (thr : ℕ)
    (tr : Bool) : Refines out (Engine.restoreRootBy pick fuel thr tr)
    (Engine.restoreRootBy pick' fuel' thr tr) :=
  (refines_growLoop hout hpick hf hf thr tr).bind fun _ => (refines_collapseLoop hf).mono
    fun _ h => h ▸ hout

lemma refines_getLoop (hn : n ≤ n') (key : Key) (chain : Option (BitVec 64)) (id : NodeId) :
    Lasts (Engine.getLoop key n chain id : Engine.Act π St _) (Engine.getLoop key n' chain id) := by
  induction n generalizing n' chain id with
  | zero => exact Lasts.fuel _
  | succ n ih =>
    obtain ⟨n', rfl⟩ : ∃ m, n' = m + 1 := ⟨n' - 1, by omega⟩
    refine (Refines.refl _).bind fun _ => (Refines.refl _).bind fun node => ?_
    cases node with
    | leaf es => exact Refines.refl _
    | internal ps cs b =>
      dsimp only
      rcases b.get? key with _ | ⟨_, _⟩ | ⟨_⟩ | ⟨_, ⟨delta⟩⟩
      · cases cs[route ps key]? with
        | none => exact Refines.refl _
        | some child => exact ih (by omega) chain child
      · exact Refines.refl _
      · exact Refines.refl _
      · cases cs[route ps key]? with
        | none => exact Refines.refl _
        | some child => exact ih (by omega) (some (chain.getD 0 + delta)) child

lemma refines_scanLoop (hn : n ≤ n') (frames : List ScanFrame) :
    Lasts (Engine.scanLoop n frames : Engine.Act π St _) (Engine.scanLoop n' frames) := by
  induction n generalizing n' frames with
  | zero => exact Lasts.fuel _
  | succ n ih =>
    obtain ⟨n', rfl⟩ : ∃ m, n' = m + 1 := ⟨n' - 1, by omega⟩
    have ih := fun frames => @ih n' (by omega) frames
    cases frames with
    | nil => exact Refines.refl _
    | cons frame rest =>
      refine (Refines.refl _).bind fun node => ?_
      cases node with
      | leaf es => exact Refines.refl _
      | internal ps cs b =>
        dsimp only
        cases cs[frame.nextChild]? with
        | none =>
          dsimp only
          cases rangeOf b frame.lo frame.hi with
          | none => exact Refines.refl _
          | some messages =>
            cases rest with
            | nil => exact Refines.refl _
            | cons parent rest => exact ih _
        | some child =>
          dsimp only
          cases Engine.childBounds ps frame.lo frame.hi frame.nextChild with
          | none => exact Refines.refl _
          | some bounds =>
            refine (ih _).ite ((Refines.refl _).bind fun _ => (Refines.refl _).bind fun node => ?_)
            cases node with
            | internal ps cs b => exact ih _
            | leaf es =>
              dsimp only
              cases rangeOf es bounds.1 bounds.2 with
              | none => exact Refines.refl _
              | some es => exact ih _

lemma refines_scan (hf : fuel ≤ fuel') (lo hi : Bound) :
    Lasts (Engine.scan fuel lo hi : Engine.Act π St _) (Engine.scan fuel' lo hi) := by
  refine (Refines.refl _).bind fun _ => (Refines.refl _).ite ((Refines.refl _).bind fun e =>
    (Refines.refl _).bind fun _ => (Refines.refl _).bind fun node => ?_)
  cases node with
  | leaf es => exact Refines.refl _
  | internal ps cs b => exact refines_scanLoop hf _

lemma refines_loadLoop (hn : n ≤ n') (stack : List NodeId) :
    Lasts (Engine.loadLoop n stack : Engine.Act π St _) (Engine.loadLoop n' stack) := by
  induction n generalizing n' stack with
  | zero => exact Lasts.fuel _
  | succ n ih =>
    obtain ⟨n', rfl⟩ : ∃ m, n' = m + 1 := ⟨n' - 1, by omega⟩
    cases stack with
    | nil => exact Refines.refl _
    | cons id stack =>
      exact (Refines.refl _).bind fun _ => (Refines.refl _).bind fun _ => ih (by omega) _

lemma refines_dirtyWalk (hn : n ≤ n') (visit : List NodeId) :
    Lasts (Engine.dirtyWalk n visit : Engine.Act π St _) (Engine.dirtyWalk n' visit) := by
  induction n generalizing n' visit with
  | zero => exact Lasts.fuel _
  | succ n ih =>
    obtain ⟨n', rfl⟩ : ∃ m, n' = m + 1 := ⟨n' - 1, by omega⟩
    cases visit with
    | nil => exact Refines.refl _
    | cons id visit =>
      exact (Refines.refl _).bind fun _ => (Refines.refl _).bind fun _ => (ih (by omega) _).bind
        fun _ => Refines.refl _

lemma refines_dirtyNodes (hf : fuel ≤ fuel') :
    Lasts (Engine.dirtyNodes fuel : Engine.Act π St _) (Engine.dirtyNodes fuel') :=
  (Refines.refl _).bind fun _ => (Refines.refl _).bind fun _ =>
    (refines_dirtyWalk hf _).ite (Refines.refl _)

variable [FlushPolicy π]

lemma refines_restoreRootWith (hf : fuel ≤ fuel') (thr : ℕ) (tr : Bool) :
    Lasts (Engine.restoreRootWith fuel thr tr : Engine.Act π St _)
    (Engine.restoreRootWith fuel' thr tr) := by
  refine refines_restoreRootBy ?_ (fun _ _ _ => Refines.refl _) hf thr tr
  rfl

theorem refines_step (hf : fuel ≤ fuel') (op : Op) :
    Lasts (Engine.step fuel op : Engine.Act π St Reply) (Engine.step fuel' op) := by
  cases op with
  | mutate op =>
    refine Refines.bind ?_ fun _ => Refines.refl _
    rw [mutateWith_eq, mutateWith_eq]
    exact (Refines.refl _).bind fun _ => (Refines.refl _).bind fun e =>
      refines_restoreRootWith hf _ _
  | get key =>
    exact ((Refines.refl _).bind fun _ => (Refines.refl _).bind fun e => refines_getLoop hf key none
      _).bind fun _ =>
      Refines.refl _
  | scan lo hi => exact (refines_scan hf lo hi).bind fun _ => Refines.refl _
  | drain =>
    exact ((Refines.refl _).bind fun e => (Refines.refl _).bind fun _ => refines_restoreRootWith
      hf 0 false).bind
      fun _ => Refines.refl _

end Machine

lemma refines_runOps {σ ω ρ : Type} {step step' : ω → EStateM Fault σ ρ}
    (h : ∀ op, Lasts (step op) (step' op)) (ops : List ω) :
    Lasts (runOps step ops) (runOps step' ops) := by
  induction ops with
  | nil => exact Refines.refl _
  | cons op ops ih => exact (h op).bind fun _ => ih.bind fun _ => Refines.refl _

section Arena
variable {π : Type} {fuel fuel' : ℕ}

lemma refines_simulateCommit (hf : fuel ≤ fuel') :
    Lasts (BeTree.simulateCommit fuel : Engine.Act π Arena ℕ) (BeTree.simulateCommit fuel') :=
  (refines_dirtyNodes hf).bind fun _ => Refines.refl _

end Arena

end Beetree
