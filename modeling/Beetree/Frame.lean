import Beetree.Machine
import Beetree.Simulation

/-! What every operation of a node store keeps, every program of the machinery keeps. -/
namespace Beetree

section Keeps
variable {σ α β : Type} {R : σ → σ → Prop}

/-- Wherever a program ends, its state is related to the one before. -/
def Keeps (R : σ → σ → Prop) (x : EStateM Fault σ α) :
    Prop := ∀ s, Ends x s (fun _ s' => R s s') fun _ s' => R s s'

lemma Keeps.ok {x : EStateM Fault σ α} (h : Keeps R x) {s s' : σ} {a : α} (hx : x s = .ok a s') :
    R s s' := (h s).ok hx

lemma Keeps.error {x : EStateM Fault σ α} (h : Keeps R x) {s s' : σ} {f : Fault}
    (hx : x s = .error f s') : R s s' := (h s).error hx

lemma Keeps.throw (f : Fault) (hr : ∀ s, R s s) :
    Keeps R (MonadExcept.throw f : EStateM Fault σ α) := fun s => .of_error rfl (hr s)

lemma Keeps.pure (a : α) (hr : ∀ s, R s s) : Keeps R (Pure.pure a : EStateM Fault σ α) := fun s =>
    .of_ok rfl (hr s)

lemma Keeps.bind {x : EStateM Fault σ α} {f : α → EStateM Fault σ β}
    (ht : ∀ {s s' s''}, R s s' → R s' s'' → R s s'')
    (hx : Keeps R x) (hf : ∀ a, Keeps R (f a)) : Keeps R (x >>= f) := by
  intro s
  refine (hx s).bind fun a s' hs => ?_
  exact (hf a s').mono (fun _ _ h => ht hs h) fun _ _ h => ht hs h

lemma Keeps.get {f : σ → EStateM Fault σ α} (hf : ∀ s, Keeps R (f s)) :
    Keeps R (MonadState.get >>= f) :=
  fun s => hf s s

lemma Keeps.modify {g : σ → σ} (hg : ∀ s, R s (g s)) :
    Keeps R (modify g) := fun s => .of_ok rfl (hg s)

lemma Keeps.ite {p : Prop} [Decidable p] {x y : EStateM Fault σ α} (hx : Keeps R x)
    (hy : Keeps R y) :
    Keeps R (if p then x else y) := by
  split_ifs
  · exact hx
  · exact hy

lemma Keeps.of_runs {x : EStateM Fault σ α} (hok : ∀ s a s', x s = .ok a s' → R s s')
    (herr : ∀ s f s', x s = .error f s' → R s s') : Keeps R x := by
  intro s
  cases hx : x s with
  | ok a s' => exact .of_ok hx (hok s a s' hx)
  | error f s' => exact .of_error hx (herr s f s' hx)

lemma Keeps.mono {R' : σ → σ → Prop} {x : EStateM Fault σ α} (h : Keeps R x)
    (hR : ∀ s s', R s s' → R' s s') : Keeps R' x :=
  fun s => (h s).mono (fun _ s' hx => hR s s' hx) fun _ s' hx => hR s s' hx

section Lists
variable {γ : Type} (hr : ∀ s, R s s) (ht : ∀ {s s' s''}, R s s' → R s' s'' → R s s'')
include hr ht

lemma Keeps.mapM {f : γ → EStateM Fault σ α} (hf : ∀ a, Keeps R (f a)) (l : List γ) :
    Keeps R (l.mapM f) := by
  induction l with
  | nil => exact Keeps.pure _ hr
  | cons a l ih =>
    rw [List.mapM_cons]
    exact Keeps.bind ht (hf a) fun _ => Keeps.bind ht ih fun _ => Keeps.pure _ hr

lemma Keeps.filterM {f : γ → EStateM Fault σ Bool} (hf : ∀ a, Keeps R (f a)) (l : List γ) :
    Keeps R (l.filterM f) := by
  have haux : ∀ acc, Keeps R (l.filterAuxM f acc) := by
    induction l with
    | nil => exact fun acc => Keeps.pure _ hr
    | cons a l ih => exact fun acc => Keeps.bind ht (hf a) fun _ => ih _
  exact Keeps.bind ht (haux []) fun _ => Keeps.pure _ hr

lemma Keeps.foldlM {f : α → γ → EStateM Fault σ α} (hf : ∀ a c, Keeps R (f a c))
    (l : List γ) (a : α) :
    Keeps R (l.foldlM f a) := by
  induction l generalizing a with
  | nil => exact Keeps.pure _ hr
  | cons c l ih =>
    rw [List.foldlM_cons]
    exact Keeps.bind ht (hf a c) fun _ => ih _

lemma Keeps.forM {f : γ → EStateM Fault σ PUnit} (hf : ∀ a, Keeps R (f a)) (l : List γ) :
    Keeps R (l.forM f) := by
  induction l with
  | nil => exact Keeps.pure _ hr
  | cons a l ih =>
    rw [List.forM_eq_forM, List.forM_cons]
    exact Keeps.bind ht (hf a) fun _ => ih

end Lists
end Keeps

lemma onStore_eq_ok {π St α : Type} {m : EStateM Fault St α} {e e' : Engine π St} {a : α}
    (h : Engine.onStore m e = .ok a e') : ∃ s, m e.store = .ok a s ∧
    e' = { e with store := s } := by
  unfold Engine.onStore at h
  cases hm : m e.store with
  | ok b s =>
    rw [hm] at h
    cases h
    exact ⟨s, rfl, rfl⟩
  | error f s =>
    rw [hm] at h
    cases h

/-- A preorder on engines that reading nodes keeps. -/
structure ReadFrame {π St : Type} [NodeStore St] (R : Engine π St → Engine π St → Prop) : Prop where
  refl : ∀ e, R e e
  trans : ∀ {e e' e''}, R e e' → R e' e'' → R e e''
  keeps_loaded : ∀ id, Keeps R (Engine.loaded id)
  keeps_ensureLoaded : ∀ id pins, Keeps R (Engine.ensureLoaded id pins)

/-- A preorder on engines that every operation of the store keeps, and moving the root. -/
structure EngineFrame {π St : Type} [NodeStore St] (R : Engine π St → Engine π St → Prop) :
    Prop extends ReadFrame R where
  keeps_mutate : ∀ id f, Keeps R (Engine.mutate id f)
  keeps_alloc : ∀ node, Keeps R (Engine.alloc node)
  keeps_releaseSlot : ∀ id, Keeps R (Engine.releaseSlot id)
  keeps_isDirty : ∀ id, Keeps R (Engine.isDirty id)
  keeps_setRoot : ∀ id, Keeps R (Engine.setRoot id)

section Rest
variable {π St : Type} {R : Engine π St → Engine π St → Prop}

/-- What does not depend on the store and the root is kept by whatever runs on the store. -/
lemma keeps_onStore_of_rest {α : Type}
    (hR : ∀ e store root, R e { e with store := store, root := root }) (x : EStateM Fault St α) :
    Keeps R (Engine.onStore x : Engine.Act π St α) := by
  intro e
  unfold Ends Engine.onStore
  cases x e.store with
  | ok a s => exact hR e s e.root
  | error f s => exact hR e s e.root

lemma EngineFrame.of_rest [NodeStore St] (ht : ∀ {e e' e''}, R e e' → R e' e'' → R e e'')
    (hR : ∀ e store root, R e { e with store := store, root := root }) : EngineFrame R where
  refl e := hR e e.store e.root
  trans := ht
  keeps_loaded _ := keeps_onStore_of_rest hR _
  keeps_mutate _ _ := keeps_onStore_of_rest hR _
  keeps_alloc _ := keeps_onStore_of_rest hR _
  keeps_releaseSlot _ := keeps_onStore_of_rest hR _
  keeps_isDirty _ := keeps_onStore_of_rest hR _
  keeps_ensureLoaded _ _ := keeps_onStore_of_rest hR _
  keeps_setRoot id := Keeps.modify fun e => hR e e.store id

end Rest

namespace Engine

def pickTraced {π St : Type} [NodeStore St] [FlushPolicy π] (id : NodeId) (depth : ℕ) :
    Act π St (ℕ × NodeId × List ℕ × Buffer) := do
  let picked ← pickAndExtract id depth true
  traceFlush true id picked.2.2.1 picked.1
  pure picked

end Engine

/-- Where flushes are traced and left to the policy, decisions are kept as well. -/
def KeepsFlushes {π St : Type} [NodeStore St] [FlushPolicy π] (tr : Bool)
    (R : Engine π St → Engine π St → Prop) : Prop :=
  tr = true → ∀ id depth, Keeps R (Engine.pickTraced id depth)

namespace ReadFrame
variable {π St α β : Type} [NodeStore St] {R : Engine π St → Engine π St → Prop} (hR : ReadFrame R)
include hR

lemma throw (f : Fault) : Keeps R (MonadExcept.throw f : Engine.Act π St α) := Keeps.throw f hR.refl

lemma pure (a : α) : Keeps R (Pure.pure a : Engine.Act π St α) := Keeps.pure a hR.refl

lemma bind {x : Engine.Act π St α} {f : α → Engine.Act π St β} (hx : Keeps R x)
    (hf : ∀ a, Keeps R (f a)) : Keeps R (x >>= f) :=
  Keeps.bind hR.trans hx hf

lemma visit (id : NodeId) (pins : List NodeId) {f : Node → Engine.Act π St α}
    (hf : ∀ n, Keeps R (f n)) :
    Keeps R (do Engine.ensureLoaded id pins; f (← Engine.loaded id)) :=
  hR.bind (hR.keeps_ensureLoaded id pins) fun _ => hR.bind (hR.keeps_loaded id) hf

lemma keeps_subtreeHasMessages (pins : List NodeId) (fuel : ℕ) (stack : List NodeId) :
    Keeps R (Engine.subtreeHasMessages pins fuel stack : Engine.Act π St _) := by
  induction fuel generalizing stack with
  | zero => exact hR.throw _
  | succ fuel ih =>
    cases stack with
    | nil => exact hR.pure _
    | cons id stack =>
      refine hR.visit id pins fun n => ?_
      cases n with
      | internal ps cs b => exact (ih _).ite (hR.pure _)
      | leaf es => exact ih _

lemma keeps_findBuffered (fuel : ℕ) (flushing children : List NodeId) :
    Keeps R (Engine.findBuffered fuel flushing children : Engine.Act π St _) := by
  induction children with
  | nil => exact hR.pure _
  | cons child children ih =>
    exact hR.bind (hR.keeps_subtreeHasMessages _ _ _) fun _ => (hR.pure _).ite ih

lemma keeps_getLoop (key : Key) (n : ℕ) (chain : Option (BitVec 64)) (id : NodeId) :
    Keeps R (Engine.getLoop key n chain id : Engine.Act π St _) := by
  induction n generalizing chain id with
  | zero => exact hR.throw _
  | succ n ih =>
    refine hR.visit id [] fun node => ?_
    cases node with
    | leaf es => exact hR.pure _
    | internal ps cs b =>
      dsimp only
      rcases b.get? key with _ | ⟨_, _⟩ | ⟨_⟩ | ⟨_, ⟨delta⟩⟩
      · cases cs[route ps key]? with
        | none => exact hR.throw _
        | some child => exact ih _ _
      · exact hR.pure _
      · exact hR.pure _
      · cases cs[route ps key]? with
        | none => exact hR.throw _
        | some child => exact ih _ _

lemma keeps_lookup (fuel : ℕ) {key : Key} (hget : Keeps R (Engine.record fun r => r.get key)) :
    Keeps R (Engine.lookup fuel key : Engine.Act π St _) :=
  hR.bind hget fun _ => .get fun _ => hR.keeps_getLoop _ _ _ _

lemma keeps_scanLoop (n : ℕ) (frames : List ScanFrame) :
    Keeps R (Engine.scanLoop n frames : Engine.Act π St _) := by
  induction n generalizing frames with
  | zero => exact hR.throw _
  | succ n ih =>
    cases frames with
    | nil => exact hR.throw _
    | cons frame rest =>
      refine hR.bind (hR.keeps_loaded _) fun node => ?_
      cases node with
      | leaf es => exact hR.throw _
      | internal ps cs b =>
        dsimp only
        cases cs[frame.nextChild]? with
        | none =>
          dsimp only
          cases rangeOf b frame.lo frame.hi with
          | none => exact hR.throw _
          | some messages =>
            cases rest with
            | nil => exact hR.pure _
            | cons parent rest => exact ih _
        | some child =>
          dsimp only
          cases Engine.childBounds ps frame.lo frame.hi frame.nextChild with
          | none => exact hR.throw _
          | some bounds =>
            refine (ih _).ite (hR.visit child _ fun node => ?_)
            cases node with
            | internal ps cs b => exact ih _
            | leaf es =>
              dsimp only
              cases rangeOf es bounds.1 bounds.2 with
              | none => exact hR.throw _
              | some es => exact ih _

lemma keeps_scan (fuel : ℕ) {lo hi : Bound}
    (hscan : Keeps R (Engine.record fun r => r.scan lo hi)) :
    Keeps R (Engine.scan fuel lo hi : Engine.Act π St _) := by
  refine hR.bind hscan fun _ => (hR.pure _).ite (.get fun e => hR.visit e.root [] fun node => ?_)
  cases node with
  | internal ps cs b => exact hR.keeps_scanLoop _ _
  | leaf es =>
    dsimp only
    cases rangeOf es lo hi with
    | none => exact hR.throw _
    | some es => exact hR.pure _

lemma keeps_loadLoop (n : ℕ) (stack : List NodeId) :
    Keeps R (Engine.loadLoop n stack : Engine.Act π St _) := by
  induction n generalizing stack with
  | zero => exact hR.throw _
  | succ n ih =>
    cases stack with
    | nil => exact hR.pure _
    | cons id stack => exact hR.visit id [] fun _ => ih _

lemma keeps_loadAll (fuel : ℕ) : Keeps R (Engine.loadAll fuel : Engine.Act π St _) :=
  .get fun _ => hR.keeps_loadLoop _ _

end ReadFrame

namespace EngineFrame
variable {π St α β : Type} [NodeStore St] {R : Engine π St → Engine π St → Prop}
    (hR : EngineFrame R)
include hR

lemma keeps_bufferLen (id : NodeId) : Keeps R (Engine.bufferLen id : Engine.Act π St _) := by
  refine hR.bind (hR.keeps_loaded id) fun node => ?_
  cases node with
  | leaf es => exact hR.throw _
  | internal ps cs b => exact hR.pure _

lemma keeps_removeChild (parent child : NodeId) :
    Keeps R (Engine.removeChild parent child : Engine.Act π St _) :=
  hR.bind (hR.keeps_mutate _ _) fun _ => hR.keeps_releaseSlot _

lemma keeps_applyBatch (child : NodeId) (batch : Buffer) (pins : List NodeId) (thr : ℕ) :
    Keeps R (Engine.applyBatch child batch pins thr : Engine.Act π St _) := by
  refine hR.bind (hR.keeps_ensureLoaded _ _) fun _ => hR.bind (hR.keeps_mutate _ _) fun node => ?_
  cases node with
  | leaf es => exact hR.pure _
  | internal ps cs b => exact hR.pure _

lemma keeps_integrateSplits (id : NodeId) (promoted : List (Key × NodeId)) :
    Keeps R (Engine.integrateSplits id promoted : Engine.Act π St _) :=
  (hR.pure _).ite (hR.bind (hR.keeps_mutate _ _) fun _ => hR.pure _)

lemma keeps_allocPieces (pieces : List (Key × Node)) :
    Keeps R (Engine.allocPieces pieces : Engine.Act π St _) := by
  induction pieces with
  | nil => exact hR.pure _
  | cons piece pieces ih => exact hR.bind (hR.keeps_alloc _) fun _ => hR.bind ih fun _ => hR.pure _

lemma keeps_splitLeaf (id : NodeId) : Keeps R (Engine.splitLeaf id : Engine.Act π St _) := by
  refine hR.bind (hR.keeps_loaded id) fun node => ?_
  cases node with
  | internal ps cs b => exact hR.throw _
  | leaf es =>
    refine hR.bind (hR.keeps_mutate _ _) fun _ => .get fun e => ?_
    cases leafPieces (partitionSizes es.size e.params.leafCapacity.toNat) es.toList with
    | nil => exact hR.throw _
    | cons first pieces =>
      refine hR.bind (hR.keeps_mutate _ _) fun _ => ?_
      cases pieces.mapM (fun piece => piece.toList.head?.map fun x => (x.1, Node.leaf piece)) with
      | none => exact hR.throw _
      | some pieces => exact hR.keeps_allocPieces _

lemma keeps_splitInternal (id : NodeId) :
    Keeps R (Engine.splitInternal id : Engine.Act π St _) := by
  refine hR.bind (hR.keeps_loaded id) fun node => ?_
  cases node with
  | leaf es => exact hR.throw _
  | internal ps cs b =>
    refine hR.bind (hR.keeps_mutate _ _) fun _ => .get fun e => ?_
    cases internalPieces ps cs b (partitionSizes cs.length e.params.fanout.toNat) with
    | none => exact hR.throw _
    | some pieces => exact hR.bind (hR.keeps_mutate _ _) fun _ => hR.keeps_allocPieces _

lemma keeps_splitIfNeeded (id : NodeId) :
    Keeps R (Engine.splitIfNeeded id : Engine.Act π St _) := by
  refine hR.bind (hR.keeps_loaded id) fun node => ?_
  cases node with
  | leaf es => exact .get fun _ => (hR.keeps_splitLeaf id).ite (hR.pure _)
  | internal ps cs b => exact .get fun _ => (hR.keeps_splitInternal id).ite (hR.pure _)

lemma keeps_settle (id : NodeId) : Keeps R (Engine.settle id : Engine.Act π St _) := by
  have hsplit :
    Keeps R (do Pure.pure (Outcome.splits (← Engine.splitIfNeeded id)) : Engine.Act π St _) :=
    hR.bind (hR.keeps_splitIfNeeded id) fun _ => hR.pure _
  refine hR.bind (hR.keeps_loaded id) fun node => ?_
  cases node with
  | leaf es => exact hsplit
  | internal ps cs b =>
    cases cs with
    | nil => exact hR.pure _
    | cons c cs => exact hsplit

lemma keeps_descend (fuel thr : ℕ) (flushing : List NodeId) (top : NodeId) :
    Keeps R (Engine.descend fuel thr flushing top : Engine.Act π St _) :=
  (hR.bind (hR.keeps_loaded top) fun _ => hR.keeps_findBuffered _ _ _).ite (hR.pure _)

lemma keeps_absorb (parent child : NodeId) (outcome : Outcome) :
    Keeps R (Engine.absorb parent child outcome : Engine.Act π St _) := by
  cases outcome with
  | splits promoted => exact hR.keeps_integrateSplits _ _
  | removed => exact hR.keeps_removeChild _ _

lemma keeps_collapseLoop (n : ℕ) : Keeps R (Engine.collapseLoop n : Engine.Act π St _) := by
  induction n with
  | zero => exact hR.throw _
  | succ n ih =>
    refine .get fun e => hR.bind (hR.keeps_loaded _) fun node => ?_
    rcases node with ⟨ps, _ | ⟨c, _ | ⟨c', cs⟩⟩, b⟩ | es
    · exact hR.pure _
    · exact (hR.bind (hR.keeps_setRoot _) fun _ => hR.bind (hR.keeps_releaseSlot _) fun _ =>
        hR.bind (hR.keeps_ensureLoaded _ _) fun _ => ih).ite (hR.pure _)
    · exact hR.pure _
    · exact hR.pure _

variable [FlushPolicy π] {tr : Bool}

lemma keeps_pickAndExtract (hconsult : tr = true → ∀ ctx, Keeps R (Engine.consult ctx))
    (id : NodeId) (depth : ℕ) :
    Keeps R (Engine.pickAndExtract id depth tr : Engine.Act π St _) := by
  have hchoose :
    ∀ ps cs b occ, Keeps R (Engine.chooseChild id depth tr ps cs b occ : Engine.Act π St _) := by
    intro ps cs b occ
    unfold Engine.chooseChild
    split_ifs with htr
    · exact hR.bind (Keeps.mapM hR.refl hR.trans (fun _ => hR.keeps_isDirty _) cs) fun _ =>
        .get fun _ => hconsult htr _
    · exact hR.pure _
  refine hR.bind (hR.keeps_loaded id) fun node => ?_
  cases node with
  | leaf es => exact hR.throw _
  | internal ps cs b =>
    refine (hR.throw _).ite (hR.bind (hchoose _ _ _ _) fun chosen => (hR.throw _).ite ?_)
    rcases extract ps chosen b with _ | ⟨batch, rest⟩
    · exact hR.throw _
    · rcases cs[chosen]? with _ | child
      · exact hR.throw _
      · exact hR.bind (hR.keeps_mutate _ _) fun _ => hR.pure _

/-- Decisions are kept if asking the policy and recording what it said are. -/
lemma keepsFlushes (hrecord : ∀ node occ chosen, Keeps R
    (Engine.record fun r => r.flushDecision node occ chosen))
    (hconsult : ∀ ctx, Keeps R (Engine.consult ctx)) (tr : Bool) : KeepsFlushes tr R := fun _ _ _ =>
  hR.bind (hR.keeps_pickAndExtract (fun _ => hconsult) _ _) fun _ => hR.bind (hrecord _ _ _)
    fun _ => hR.pure _

lemma keeps_pick (hF : KeepsFlushes tr R) (id : NodeId) (depth : ℕ) {α : Type}
    {f : ℕ × NodeId × List ℕ × Buffer → Engine.Act π St α}
    (hf : ∀ picked, Keeps R (f picked)) : Keeps R (do
      let picked ← Engine.pickAndExtract id depth tr
      Engine.traceFlush tr id picked.2.2.1 picked.1
      f picked : Engine.Act π St α) := by
  cases tr with
  | true =>
    have htraced : Keeps R (Engine.pickTraced id depth >>= f) := hR.bind (hF rfl id depth) hf
    simpa only [Engine.pickTraced, bind_assoc, pure_bind] using htraced
  | false =>
    exact hR.bind (hR.keeps_pickAndExtract (fun h => by cases h) _ _) fun picked =>
      hR.bind (hR.pure _) fun _ => hf picked

lemma keeps_flushLoop (hF : KeepsFlushes tr R) (fuel thr n : ℕ) (stack : List NodeId) :
    Keeps R (Engine.flushLoop Engine.pickAndExtract fuel thr tr n stack : Engine.Act π St _) := by
  induction n generalizing stack with
  | zero => exact hR.throw _
  | succ n ih =>
    cases stack with
    | nil => exact hR.throw _
    | cons top below =>
      refine hR.bind (hR.keeps_bufferLen top) fun _ => Keeps.ite ?_ ?_
      · refine hR.bind (hR.keeps_descend _ _ _ _) fun child => ?_
        cases child with
        | some child => exact ih _
        | none =>
          refine hR.bind (hR.keeps_settle top) fun outcome => ?_
          cases below with
          | nil => exact hR.pure _
          | cons parent below => exact hR.bind (hR.keeps_absorb _ _ _) fun _ => ih _
      · refine hR.keeps_pick hF _ _ fun picked => hR.bind (hR.keeps_applyBatch _ _ _ _)
          fun delivery => ?_
        have hsplit : Keeps R (do
            let promoted ← Engine.splitIfNeeded picked.2.1
            Engine.integrateSplits top promoted
            Engine.flushLoop Engine.pickAndExtract fuel thr tr n (top :: below) :
              Engine.Act π St _) :=
          hR.bind (hR.keeps_splitIfNeeded _) fun _ =>
            hR.bind (hR.keeps_integrateSplits _ _) fun _ => ih _
        rcases delivery with ⟨_ | _⟩ | ⟨_ | _⟩
        · exact hsplit
        · exact hR.bind (hR.keeps_removeChild _ _) fun _ => ih _
        · exact hsplit
        · exact ih _

lemma keeps_settleRoot (hF : KeepsFlushes tr R) (fuel thr : ℕ) (root : NodeId) :
    Keeps R (Engine.settleRoot Engine.pickAndExtract fuel thr tr root : Engine.Act π St _) := by
  refine hR.bind (hR.keeps_loaded root) fun node => ?_
  cases node with
  | internal ps cs b => exact hR.keeps_flushLoop hF _ _ _ _
  | leaf es => exact hR.bind (hR.keeps_splitIfNeeded root) fun _ => hR.pure _

lemma keeps_growLoop (hF : KeepsFlushes tr R) (fuel thr n : ℕ) :
    Keeps R (Engine.growLoop Engine.pickAndExtract fuel thr tr n : Engine.Act π St _) := by
  induction n with
  | zero => exact hR.throw _
  | succ n ih =>
    refine .get fun e => hR.bind (hR.keeps_settleRoot hF _ _ _) fun outcome => ?_
    rcases outcome with ⟨_ | ⟨piece, pieces⟩⟩ | _
    · exact hR.pure _
    · exact hR.bind (hR.keeps_alloc _) fun _ => hR.bind (hR.keeps_setRoot _) fun _ => ih
    · exact hR.bind (hR.keeps_alloc _) fun _ => hR.bind (hR.keeps_setRoot _) fun _ =>
        hR.keeps_releaseSlot _

lemma keeps_restoreRootWith (hF : KeepsFlushes tr R) (fuel thr : ℕ) :
    Keeps R (Engine.restoreRootWith fuel thr tr : Engine.Act π St _) :=
  hR.bind (hR.keeps_growLoop hF _ _ _) fun _ => hR.keeps_collapseLoop _

lemma keeps_applyRoot (hF : KeepsFlushes true R) (fuel : ℕ) (key : Key) (message : Message) :
    Keeps R (Engine.applyRoot fuel key message : Engine.Act π St _) :=
  .get fun _ => hR.bind (hR.keeps_mutate _ _) fun _ => .get fun _ => hR.keeps_restoreRootWith hF _ _

end EngineFrame

/-- A preorder on stores that the operations of a store keep. -/
structure StoreFrame {St : Type} [NodeStore St] (K : St → St → Prop) : Prop where
  refl : ∀ s, K s s
  trans : ∀ {s s' s''}, K s s' → K s' s'' → K s s''
  loaded : ∀ id, Keeps K (NodeStore.loaded id)
  mutate : ∀ id f, Keeps K (NodeStore.mutate id f)
  alloc : ∀ node, Keeps K (NodeStore.alloc node)
  releaseSlot : ∀ id, Keeps K (NodeStore.releaseSlot id)
  isDirty : ∀ id, Keeps K (NodeStore.isDirty id)
  ensureLoaded : ∀ id pins, Keeps K (NodeStore.ensureLoaded id pins)

def OnStores {π St : Type} (K : St → St → Prop) (e e' : Engine π St) : Prop := K e.store e'.store

namespace StoreFrame
variable {π St α β : Type} [NodeStore St] {K : St → St → Prop} (hK : StoreFrame K)
include hK

lemma stores_refl (e : Engine π St) : OnStores K e e := hK.refl e.store

lemma stores_trans {e e' e'' : Engine π St} (h : OnStores K e e') (h' : OnStores K e' e'') :
    OnStores K e e'' :=
  hK.trans h h'

lemma beside {g : Engine π St → Engine π St} (hg : ∀ e, (g e).store = e.store) :
    Keeps (OnStores K) (modify g) :=
  Keeps.modify fun e => by
    rw [OnStores, hg]
    exact hK.refl e.store

omit hK [NodeStore St] in
lemma onStore {x : EStateM Fault St α} (hx : Keeps K x) :
    Keeps (OnStores K) (Engine.onStore x : Engine.Act π St α) := by
  intro e
  have h := hx e.store
  unfold Ends at h ⊢
  unfold Engine.onStore
  cases hrun : x e.store with
  | ok a s =>
    rw [hrun] at h
    exact h
  | error f s =>
    rw [hrun] at h
    exact h

/-- What the operations of a store keep, programs keep of the store. -/
theorem engine : EngineFrame (OnStores K : Engine π St → Engine π St → Prop) where
  refl := hK.stores_refl
  trans := hK.stores_trans
  keeps_loaded id := onStore (hK.loaded id)
  keeps_mutate id f := onStore (hK.mutate id f)
  keeps_alloc node := onStore (hK.alloc node)
  keeps_releaseSlot id := onStore (hK.releaseSlot id)
  keeps_isDirty id := onStore (hK.isDirty id)
  keeps_ensureLoaded id pins := onStore (hK.ensureLoaded id pins)
  keeps_setRoot _ := hK.beside fun _ => rfl

lemma keeps_record (f : Recorder → Recorder) :
    Keeps (OnStores K) (Engine.record f : Engine.Act π St _) :=
  hK.beside fun _ => rfl

lemma keeps_stamp (op : OpKind2) : Keeps (OnStores K) (Engine.stamp op : Engine.Act π St _) := by
  intro e
  unfold Engine.stamp Ends
  rw [run_get_bind]
  split_ifs
  · exact hK.refl e.store
  · exact hK.refl e.store

theorem flushes [FlushPolicy π] (tr : Bool) :
    KeepsFlushes tr (OnStores K : Engine π St → Engine π St → Prop) :=
  hK.engine.keepsFlushes (fun _ _ _ => hK.keeps_record _)
    (fun _ e => .of_ok rfl (hK.refl e.store)) tr

end StoreFrame
end Beetree
