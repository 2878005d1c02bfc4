import Beetree.Ideal
import Beetree.Ops
import Beetree.Renaming
import Beetree.Simulation

/-! The machinery over one store follows the machinery over another, operation by operation, up to
the names of nodes. -/
namespace Beetree
open Coupling
open List (Forall₂)

section Store
variable {S St : Type} [NodeStore S] [NodeStore St]

/-- A store operation does what another one does, or reports an error of an expected kind and
changes nothing that matters. -/
def Mirrors (R : S → St → Prop) (Keep : St → St → Prop) (Err : Fault → Prop) {α α' : Type}
    (V : α → α' → Prop)
    (x : EStateM Fault S α) (y : EStateM Fault St α') : Prop :=
  ∀ s r, R s r → ∀ a s', x s = .ok a s' →
    (∃ b r', y r = .ok b r' ∧ V a b ∧ R s' r' ∧ Keep r r') ∨
      ∃ f r', y r = .error f r' ∧ Err f ∧ R s r' ∧ Keep r r'

/-- A store that mirrors another under a relation, its nodes being named by `rel`. Looking at a node
leaves the first store alone. -/
structure StoreSim (rel : NodeId → NodeId → Prop) (R : S → St → Prop) (Keep : St → St → Prop)
    (Err : Fault → Prop) : Prop where
  loaded : ∀ {id id'}, rel id id' → Mirrors R Keep Err (NodeRel rel) (NodeStore.loaded id)
    (NodeStore.loaded id')
  mutate : ∀ {id id' f f'}, rel id id' → Respects rel f f' →
    Mirrors R Keep Err (NodeRel rel) (NodeStore.mutate id f) (NodeStore.mutate id' f')
  alloc : ∀ {n n'}, NodeRel rel n n' → Mirrors R Keep Err rel (NodeStore.alloc n)
    (NodeStore.alloc n')
  releaseSlot : ∀ {id id'}, rel id id' → Mirrors R Keep Err Eq (NodeStore.releaseSlot id)
    (NodeStore.releaseSlot id')
  isDirty : ∀ {id id'}, rel id id' → Mirrors R Keep Err Eq (NodeStore.isDirty id)
    (NodeStore.isDirty id')
  ensureLoaded : ∀ {id id' pins pins'}, rel id id' → Forall₂ rel pins pins' →
    Mirrors R Keep Err Eq (NodeStore.ensureLoaded id pins) (NodeStore.ensureLoaded id' pins')
  unique : Relator.BiUnique rel
  looks : ∀ {id s n s'}, NodeStore.loaded id s = .ok n (s' : S) → s' = s
  refl : ∀ r, Keep r r
  trans : ∀ {r r' r''}, Keep r r' → Keep r' r'' → Keep r r''

/-- Recording the same events, up to names, keeps traces related. -/
structure TraceSim (rel : NodeId → NodeId → Prop) (Tr : Recorder → Recorder → Prop) : Prop where
  op : ∀ {a b} seq op, Tr a b → Tr (a.op seq op) (b.op seq op)
  get : ∀ {a b} key, Tr a b → Tr (a.get key) (b.get key)
  scan : ∀ {a b} lo hi, Tr a b → Tr (a.scan lo hi) (b.scan lo hi)
  flush : ∀ {a b i j} occ chosen, rel i j → Tr a b → Tr (a.flushDecision i occ chosen)
    (b.flushDecision j occ chosen)

lemma traceSim_eq : TraceSim Eq Eq where
  op _ _ h := by rw [h]
  get _ h := by rw [h]
  scan _ _ h := by rw [h]
  flush _ _ hij h := by rw [hij, h]

/-- Engines that differ in their stores, policies and traces, which are related, and in the names of
nodes. -/
structure Resembles {π π' : Type} (rel : NodeId → NodeId → Prop) (P : π → π' → Prop)
    (Tr : Recorder → Recorder → Prop) (R : S → St → Prop) (e : Engine π S)
    (r : Engine π' St) : Prop where
  store : R e.store r.store
  params : r.params = e.params
  root : rel e.root r.root
  nextSeq : r.nextSeq = e.nextSeq
  ops : r.opsSinceCommit = e.opsSinceCommit
  policy : P e.policy r.policy
  trace : Tr e.trace r.trace

abbrev Alike {π : Type} (R : S → St → Prop) (e : Engine π S) (r : Engine π St) : Prop :=
  Resembles Eq Eq Eq R e r

/-- Related policies choose alike, up to the names of nodes, and stay related. -/
def PolicySim {π π' : Type} [FlushPolicy π] [FlushPolicy π'] (rel : NodeId → NodeId → Prop)
    (P : π → π' → Prop) :
    Prop :=
  ∀ (s : π) (s' : π') (ctx : FlushCtx) (node : NodeId), P s s' → rel ctx.node node →
    (FlushPolicy.choose s ctx).1 = (FlushPolicy.choose s' { ctx with node := node }).1 ∧
      P (FlushPolicy.choose s ctx).2 (FlushPolicy.choose s' { ctx with node := node }).2

lemma policySim_eq (π : Type) [FlushPolicy π] : PolicySim (π := π) Eq Eq := by
  rintro s _ ctx node rfl rfl
  exact ⟨rfl, rfl⟩

variable {π π' : Type} {rel : NodeId → NodeId → Prop} {P : π → π' → Prop}
    {Tr : Recorder → Recorder → Prop}
  {R : S → St → Prop} {Keep : St → St → Prop} {Err : Fault → Prop}

/-- The coupling of engines that a coupling of stores gives. -/
def StoreSim.couple (hS : StoreSim rel R Keep Err) (P : π → π' → Prop)
    (Tr : Recorder → Recorder → Prop)
    (inv : Engine π S → Prop) : Coupling Fault (Engine π S) (Engine π' St) where
  rel := Resembles rel P Tr R
  inv := inv
  keep r r' := Keep r.store r'.store
  benign := Err
  keep_refl r := hS.refl r.store
  keep_trans := hS.trans

omit [NodeStore S] [NodeStore St] in
lemma Resembles.on {e : Engine π S} {r : Engine π' St} (h : Resembles rel P Tr R e r)
    {s : S} {s' : St}
    (hs : R s s') : Resembles rel P Tr R { e with store := s } { r with store := s' } :=
  ⟨hs, h.params, h.root, h.nextSeq, h.ops, h.policy, h.trace⟩

end Store

section Engine
variable {π π' S St : Type} [NodeStore S] [NodeStore St] {rel : NodeId → NodeId → Prop}
    {P : π → π' → Prop}
  {Tr : Recorder → Recorder → Prop} {R : S → St → Prop} {Keep : St → St → Prop} {Err : Fault → Prop}
    (hS : StoreSim rel R Keep Err)
  {inv : Engine π S → Prop}

lemma StoreSim.onStore {α α' : Type} {V : α → α' → Prop} {x : EStateM Fault S α}
    {y : EStateM Fault St α'}
    (h : Mirrors R Keep Err V x y)
    (hinv : ∀ e a s', inv e → x e.store = .ok a s' → inv { e with store := s' }) :
    (hS.couple P Tr inv).Sims V (Engine.onStore x) (Engine.onStore y) := by
  intro e r hr hi a e' hrun
  unfold Engine.onStore at hrun ⊢
  cases hx : x e.store with
  | error f s => simp [hx] at hrun
  | ok a' s' =>
    simp only [hx, EStateM.Result.ok.injEq] at hrun
    obtain ⟨rfl, rfl⟩ := hrun
    rcases h e.store r.store hr.store a' s' hx with ⟨b, r', hy, hv, hr', hk⟩ | ⟨f, r',
      hy, hf, hr', hk⟩
    · rw [hy]
      exact Or.inl ⟨_, _, rfl, hv, hinv e a' s' hi hx, hr.on hr', hk⟩
    · rw [hy]
      exact Or.inr ⟨_, _, e, rfl, hf, hi, hr.on hr', hk⟩

/-- An invariant that loading and tracing keep. -/
structure LoadInv (inv : Engine π S → Prop) : Prop where
  ensure : ∀ e id pins s', inv e → NodeStore.ensureLoaded id pins e.store = .ok () s' →
    inv { e with store := s' }
  record : ∀ (e : Engine π S) (f : Recorder → Recorder), inv e → inv { e with trace := f e.trace }

lemma loadInv_true : LoadInv (fun _ : Engine π S => True) :=
    ⟨fun _ _ _ _ _ _ => trivial, fun _ _ _ => trivial⟩

lemma StoreSim.sims_loaded {id id' : NodeId} (hid : rel id id') :
    (hS.couple P Tr inv).Sims (NodeRel rel) (Engine.loaded id) (Engine.loaded id') :=
  hS.onStore (hS.loaded hid) fun e _ s' hi h => by
    rw [hS.looks h]
    exact hi

lemma StoreSim.sims_root {α α' : Type} {V : α → α' → Prop} {f : NodeId → Engine.Act π S α}
    {g : NodeId → Engine.Act π' St α'}
    (hf : ∀ id id', rel id id' → (hS.couple P Tr inv).Sims V (f id) (g id')) :
    (hS.couple P Tr inv).Sims V (do f (← get).root) (do g (← get).root) :=
  Sims.get fun e r hr hi => hf e.root r.root hr.root e r hr hi

lemma StoreSim.sims_params {α α' : Type} {V : α → α' → Prop} {f : Params → Engine.Act π S α}
    {g : Params → Engine.Act π' St α'} (hf : ∀ p, (hS.couple P Tr inv).Sims V (f p) (g p)) :
    (hS.couple P Tr inv).Sims V (do f (← get).params) (do g (← get).params) :=
  Sims.get fun e r hr hi => by
    rw [hr.params]
    exact hf e.params e r hr hi

section Reads
variable (hI : LoadInv inv)
include hI

lemma StoreSim.sims_ensureLoaded {id id' : NodeId} {pins pins' : List NodeId} (hid : rel id id')
    (hp : Forall₂ rel pins pins') :
    (hS.couple P Tr inv).Sims Eq (Engine.ensureLoaded id pins) (Engine.ensureLoaded id' pins') :=
  hS.onStore (hS.ensureLoaded hid hp) fun e _ s' hi h => hI.ensure e id pins s' hi h

lemma StoreSim.sims_record {f g : Recorder → Recorder} (hfg : ∀ a b, Tr a b → Tr (f a) (g b)) :
    (hS.couple P Tr inv).Sims Eq (Engine.record f) (Engine.record g) := by
  intro e r hr hi a e' hrun
  cases hrun
  exact Or.inl ⟨_, _, rfl, rfl, hI.record e f hi, ⟨hr.store, hr.params, hr.root, hr.nextSeq,
    hr.ops, hr.policy,
    hfg _ _ hr.trace⟩, hS.refl _⟩

lemma StoreSim.sims_visit {α α' : Type} {V : α → α' → Prop} {id id' : NodeId}
    {pins pins' : List NodeId}
    (hid : rel id id') (hp : Forall₂ rel pins pins') {f : Node → Engine.Act π S α}
    {g : Node → Engine.Act π' St α'}
    (hf : ∀ n n', NodeRel rel n n' → (hS.couple P Tr inv).Sims V (f n) (g n')) :
    (hS.couple P Tr inv).Sims V (do Engine.ensureLoaded id pins; f (← Engine.loaded id))
      (do Engine.ensureLoaded id' pins'; g (← Engine.loaded id')) :=
  (hS.sims_ensureLoaded hI hid hp).seq fun _ => (hS.sims_loaded hid).bind hf

lemma StoreSim.sims_subtreeHasMessages {pins pins' : List NodeId}
    (hp : Forall₂ rel pins pins') (fuel : ℕ)
    {stack stack' : List NodeId} (hstack : Forall₂ rel stack stack') :
    (hS.couple P Tr inv).Sims Eq (Engine.subtreeHasMessages pins fuel stack)
      (Engine.subtreeHasMessages pins' fuel stack') := by
  induction fuel generalizing stack stack' with
  | zero => exact Sims.throw _ _
  | succ fuel ih =>
    cases hstack with
    | nil => exact Sims.pure rfl
    | cons hid hstack =>
      refine hS.sims_visit hI hid hp fun n n' hn => ?_
      cases hn with
      | internal ps b hcs =>
        exact (ih (List.rel_append (List.rel_reverse hcs) hstack)).ite (Sims.pure rfl)
      | leaf es => exact ih hstack

lemma StoreSim.sims_findBuffered (fuel : ℕ) {flushing flushing' children children' : List NodeId}
    (hf : Forall₂ rel flushing flushing') (hc : Forall₂ rel children children') :
    (hS.couple P Tr inv).Sims (Option.Rel rel) (Engine.findBuffered fuel flushing children)
      (Engine.findBuffered fuel flushing' children') := by
  induction hc with
  | nil => exact Sims.pure .none
  | cons hid _ ih =>
    exact (hS.sims_subtreeHasMessages hI (.cons hid hf) fuel (.cons hid .nil)).seq fun found =>
      (Sims.pure (.some hid)).ite ih

lemma StoreSim.sims_getLoop (key : Key) (n : ℕ) (chain : Option (BitVec 64)) {id id' : NodeId}
    (hid : rel id id') :
    (hS.couple P Tr inv).Sims Eq (Engine.getLoop key n chain id)
    (Engine.getLoop key n chain id') := by
  induction n generalizing chain id id' with
  | zero => exact Sims.throw _ _
  | succ n ih =>
    refine hS.sims_visit hI hid .nil fun node node' hn => ?_
    cases hn with
    | leaf es => exact Sims.pure rfl
    | @internal ps cs cs' b hcs =>
      have hc := forall₂_getElem? hcs (route ps key)
      dsimp only
      generalize cs[route ps key]? = x at hc ⊢
      generalize cs'[route ps key]? = y at hc ⊢
      rcases b.get? key with _ | ⟨_, _⟩ | ⟨_⟩ | ⟨_, ⟨delta⟩⟩
      · cases hc with
        | none => exact Sims.throw _ _
        | some hc => exact ih chain hc
      · exact Sims.pure rfl
      · exact Sims.pure rfl
      · cases hc with
        | none => exact Sims.throw _ _
        | some hc => exact ih (some (chain.getD 0 + delta)) hc

lemma StoreSim.sims_lookup (hT : TraceSim rel Tr) (fuel : ℕ) (key : Key) :
    (hS.couple P Tr inv).Sims Eq (Engine.lookup fuel key) (Engine.lookup fuel key) :=
  (hS.sims_record hI fun _ _ h => hT.get key h).seq fun _ => hS.sims_root fun _ _ hid =>
    hS.sims_getLoop hI key fuel none hid

lemma StoreSim.sims_scanLoop (n : ℕ) {frames frames' : List ScanFrame}
    (hf : Forall₂ (FrameRel rel) frames frames') :
    (hS.couple P Tr inv).Sims Eq (Engine.scanLoop n frames) (Engine.scanLoop n frames') := by
  induction n generalizing frames frames' with
  | zero => exact Sims.throw _ _
  | succ n ih =>
    cases hf with
    | nil => exact Sims.throw _ _
    | @cons frame frame' rest rest' hframe hrest =>
      obtain ⟨id, lo, hi, i, acc⟩ := frame
      obtain ⟨id', lo', hi', i', acc'⟩ := frame'
      obtain ⟨hid, hlo, hhi, hi₀, hacc⟩ := hframe
      dsimp only at hid hlo hhi hi₀ hacc
      subst hlo hhi hi₀ hacc
      have hpins : Forall₂ rel ((⟨id, lo, hi, i, acc⟩ :: rest : List ScanFrame).map ScanFrame.id)
          ((⟨id', lo, hi, i, acc⟩ :: rest' : List ScanFrame).map ScanFrame.id) :=
        .cons hid (List.rel_map (fun _ _ h => h.id) hrest)
      refine (hS.sims_loaded hid).bind fun node node' hn => ?_
      cases hn with
      | leaf es => exact Sims.throw _ _
      | @internal ps cs cs' b hcs =>
        dsimp only
        have hc := forall₂_getElem? hcs i
        generalize cs[i]? = x at hc ⊢
        generalize cs'[i]? = y at hc ⊢
        cases hc with
        | none =>
          dsimp only
          cases rangeOf b lo hi with
          | none => exact Sims.throw _ _
          | some messages =>
            cases hrest with
            | nil => exact Sims.pure rfl
            | cons hp hrest =>
              refine ih (.cons ⟨hp.id, hp.lo, hp.hi, hp.nextChild, ?_⟩ hrest)
              dsimp only
              rw [hp.acc]
        | some hc =>
          dsimp only
          cases Engine.childBounds ps lo hi i with
          | none => exact Sims.throw _ _
          | some bounds =>
            refine Sims.ite ?_ (hS.sims_visit hI hc hpins fun node node' hn => ?_)
            · refine ih (.cons ?_ hrest)
              exact ⟨hid, rfl, rfl, rfl, rfl⟩
            cases hn with
            | leaf es =>
              dsimp only
              cases rangeOf es bounds.1 bounds.2 with
              | none => exact Sims.throw _ _
              | some es =>
                refine ih (.cons ?_ hrest)
                exact ⟨hid, rfl, rfl, rfl, rfl⟩
            | internal ps b _ =>
              exact ih (.cons ⟨hc, rfl, rfl, rfl, rfl⟩ (.cons ⟨hid, rfl, rfl, rfl, rfl⟩ hrest))

lemma StoreSim.sims_scan (hT : TraceSim rel Tr) (fuel : ℕ) (lo hi : Bound) :
    (hS.couple P Tr inv).Sims Eq (Engine.scan fuel lo hi) (Engine.scan fuel lo hi) := by
  refine (hS.sims_record hI fun _ _ h => hT.scan lo hi h).seq fun _ => (Sims.pure rfl).ite
    (Sims.get fun e r hr hinv => ?_)
  dsimp only
  refine (hS.sims_visit hI hr.root .nil fun node node' hn => ?_) e r hr hinv
  cases hn with
  | leaf es =>
    dsimp only
    cases rangeOf es lo hi with
    | none => exact Sims.throw _ _
    | some es => exact Sims.pure rfl
  | internal ps b _ => exact hS.sims_scanLoop hI fuel (.cons ⟨hr.root, rfl, rfl, rfl, rfl⟩ .nil)

lemma StoreSim.sims_loadLoop (n : ℕ) {stack stack' : List NodeId}
    (hstack : Forall₂ rel stack stack') :
    (hS.couple P Tr inv).Sims Eq (Engine.loadLoop n stack) (Engine.loadLoop n stack') := by
  induction n generalizing stack stack' with
  | zero => exact Sims.throw _ _
  | succ n ih =>
    cases hstack with
    | nil => exact Sims.pure rfl
    | cons hid hstack =>
      exact hS.sims_visit hI hid .nil fun _ _ hn =>
        ih (List.rel_append (List.rel_reverse hn.children) hstack)

lemma StoreSim.sims_loadAll (fuel : ℕ) : (hS.couple P Tr inv).Sims Eq (Engine.loadAll fuel)
    (Engine.loadAll fuel) :=
  hS.sims_root fun _ _ hid => hS.sims_loadLoop hI fuel (.cons hid .nil)

end Reads

section Writes

/-- The coupling of engines with no invariant to carry. -/
abbrev StoreSim.engines (hS : StoreSim rel R Keep Err) (P : π → π' → Prop)
    (Tr : Recorder → Recorder → Prop) :
    Coupling Fault (Engine π S) (Engine π' St) := hS.couple P Tr fun _ => True

variable {hS}

lemma StoreSim.sims_store {α α' : Type} {V : α → α' → Prop} {x : EStateM Fault S α}
    {y : EStateM Fault St α'}
    (h : Mirrors R Keep Err V x y) : (hS.engines P Tr).Sims V (Engine.onStore x)
    (Engine.onStore y) :=
  hS.onStore h fun _ _ _ _ _ => trivial

lemma StoreSim.sims_modify (f : Engine π S → Engine π S) (g : Engine π' St → Engine π' St)
    (hfg : ∀ e r, Resembles rel P Tr R e r → Resembles rel P Tr R (f e) (g r))
    (hk : ∀ r, (g r).store = r.store) :
    (hS.engines P Tr).Sims Eq (modify f) (modify g) := by
  intro e r hr _ a e' hrun
  cases hrun
  refine Or.inl ⟨_, _, rfl, rfl, trivial, hfg e r hr, ?_⟩
  change Keep r.store (g r).store
  rw [hk]
  exact hS.refl _

variable (hS)

lemma StoreSim.sims_mutate {id id' : NodeId} (hid : rel id id') {f f' : Node → Option Node}
    (hf : Respects rel f f') :
    (hS.engines P Tr).Sims (NodeRel rel) (Engine.mutate id f) (Engine.mutate id' f') :=
    sims_store (hS.mutate hid hf)

lemma StoreSim.sims_alloc {n n' : Node} (hn : NodeRel rel n n') :
    (hS.engines P Tr).Sims rel (Engine.alloc n) (Engine.alloc n') := sims_store (hS.alloc hn)

lemma StoreSim.sims_releaseSlot {id id' : NodeId} (hid : rel id id') :
    (hS.engines P Tr).Sims Eq (Engine.releaseSlot id) (Engine.releaseSlot id') :=
    sims_store (hS.releaseSlot hid)

lemma StoreSim.sims_isDirty {id id' : NodeId} (hid : rel id id') :
    (hS.engines P Tr).Sims Eq (Engine.isDirty id) (Engine.isDirty id') :=
    sims_store (hS.isDirty hid)

lemma StoreSim.sims_setRoot {id id' : NodeId} (hid : rel id id') :
    (hS.engines P Tr).Sims Eq (Engine.setRoot id) (Engine.setRoot id') :=
  sims_modify _ _ (fun _ _ hr => ⟨hr.store, hr.params, hid, hr.nextSeq, hr.ops,
    hr.policy, hr.trace⟩)
    fun _ => rfl

lemma StoreSim.sims_bufferLen {id id' : NodeId} (hid : rel id id') :
    (hS.engines P Tr).Sims Eq (Engine.bufferLen id) (Engine.bufferLen id') := by
  refine (hS.sims_loaded hid).bind fun node node' hn => ?_
  cases hn with
  | leaf es => exact Sims.throw _ _
  | internal ps b _ => exact Sims.pure rfl

lemma StoreSim.sims_removeChild {parent parent' child child' : NodeId} (hp : rel parent parent')
    (hc : rel child child') :
    (hS.engines P Tr).Sims Eq (Engine.removeChild parent child)
    (Engine.removeChild parent' child') :=
  (hS.sims_mutate hp (respects_unlink hS.unique hc)).bind fun _ _ _ => hS.sims_releaseSlot hc

lemma StoreSim.sims_applyBatch {child child' : NodeId} (hc : rel child child') (batch : Buffer)
    {pins pins' : List NodeId} (hp : Forall₂ rel pins pins') (thr : ℕ) :
    (hS.engines P Tr).Sims Eq (Engine.applyBatch child batch pins thr)
    (Engine.applyBatch child' batch pins' thr) := by
  refine (hS.sims_ensureLoaded loadInv_true hc hp).seq fun _ =>
    (hS.sims_mutate hc (respects_receive batch)).bind fun node node' hn => ?_
  cases hn <;> exact Sims.pure rfl

lemma StoreSim.sims_integrateSplits {id id' : NodeId} (hid : rel id id')
    {l l' : List (Key × NodeId)}
    (hl : Forall₂ (PieceRel rel) l l') :
    (hS.engines P Tr).Sims Eq (Engine.integrateSplits id l) (Engine.integrateSplits id' l') := by
  unfold Engine.integrateSplits
  rw [forall₂_isEmpty hl]
  exact (Sims.pure rfl).ite ((hS.sims_mutate hid (respects_integrate hl)).bind
    fun _ _ _ => Sims.pure rfl)

lemma StoreSim.sims_allocPieces {l l' : List (Key × Node)}
    (hl : Forall₂ (PieceRel (NodeRel rel)) l l') :
    (hS.engines P Tr).Sims (Forall₂ (PieceRel rel)) (Engine.allocPieces l)
    (Engine.allocPieces l') := by
  induction hl with
  | nil => exact Sims.pure .nil
  | cons hx _ ih =>
    exact (hS.sims_alloc hx.2).bind fun id id' hid => ih.bind fun l l' hl =>
      Sims.pure (.cons ⟨hx.1, hid⟩ hl)

lemma StoreSim.sims_splitLeaf {id id' : NodeId} (hid : rel id id') :
    (hS.engines P Tr).Sims (Forall₂ (PieceRel rel)) (Engine.splitLeaf id)
    (Engine.splitLeaf id') := by
  refine (hS.sims_loaded hid).bind fun node node' hn => ?_
  cases hn with
  | internal ps b _ => exact Sims.throw _ _
  | leaf es =>
    refine (hS.sims_mutate hid (respects_setEntries _)).bind fun _ _ _ =>
      Sims.get fun e r hr hi => ?_
    rw [hr.params]
    cases leafPieces (partitionSizes es.size e.params.leafCapacity.toNat) es.toList with
    | nil => exact Sims.throw _ _ e r hr hi
    | cons first pieces =>
      refine ((hS.sims_mutate hid (respects_setEntries _)).bind fun _ _ _ => ?_) e r hr hi
      cases hp :
        pieces.mapM (fun piece => piece.toList.head?.map fun x => (x.1, Node.leaf piece)) with
      | none => exact Sims.throw _ _
      | some pieces' =>
        refine hS.sims_allocPieces (List.forall₂_same.mpr fun x hx => ⟨rfl, ?_⟩)
        obtain ⟨piece, hpiece⟩ := leaf_of_mapM hp x hx
        rw [hpiece]
        exact .leaf piece

lemma StoreSim.sims_splitInternal {id id' : NodeId} (hid : rel id id') :
    (hS.engines P Tr).Sims (Forall₂ (PieceRel rel)) (Engine.splitInternal id)
    (Engine.splitInternal id') := by
  refine (hS.sims_loaded hid).bind fun node node' hn => ?_
  cases hn with
  | leaf es => exact Sims.throw _ _
  | @internal ps cs cs' b hcs =>
    refine (hS.sims_mutate hid (respects_setInternal (.internal [] _ .nil))).bind fun _ _ _ =>
      Sims.get fun e r hr hi => ?_
    rw [hr.params, hcs.length_eq]
    have hrel := internalPieces_rel ps hcs b (partitionSizes cs'.length e.params.fanout.toNat)
    revert hrel
    generalize internalPieces ps cs b _ = x
    generalize internalPieces ps cs' b _ = y
    intro hrel
    cases hrel with
    | none => exact Sims.throw _ _ e r hr hi
    | some hxy =>
      exact ((hS.sims_mutate hid (respects_setInternal hxy.1)).bind fun _ _ _ => hS.sims_allocPieces
        hxy.2) e r hr hi

lemma StoreSim.sims_splitIfNeeded {id id' : NodeId} (hid : rel id id') :
    (hS.engines P Tr).Sims (Forall₂ (PieceRel rel)) (Engine.splitIfNeeded id)
    (Engine.splitIfNeeded id') := by
  refine (hS.sims_loaded hid).bind fun node node' hn => ?_
  cases hn with
  | leaf es =>
    refine Sims.get fun e r hr hi => ?_
    rw [hr.params]
    exact ((hS.sims_splitLeaf hid).ite (Sims.pure .nil)) e r hr hi
  | internal ps b hcs =>
    refine Sims.get fun e r hr hi => ?_
    rw [hr.params, hcs.length_eq]
    exact ((hS.sims_splitInternal hid).ite (Sims.pure .nil)) e r hr hi

lemma StoreSim.sims_settle {id id' : NodeId} (hid : rel id id') :
    (hS.engines P Tr).Sims (OutcomeRel rel) (Engine.settle id) (Engine.settle id') := by
  refine (hS.sims_loaded hid).bind fun node node' hn => ?_
  have hsplit : (hS.engines P Tr).Sims (OutcomeRel rel)
    (do pure (Outcome.splits (← Engine.splitIfNeeded id)))
      (do pure (Outcome.splits (← Engine.splitIfNeeded id'))) :=
    (hS.sims_splitIfNeeded hid).bind fun _ _ hl => Sims.pure (.splits hl)
  cases hn with
  | leaf es => exact hsplit
  | internal ps b hcs =>
    cases hcs with
    | nil => exact Sims.pure .removed
    | cons _ _ => exact hsplit

lemma StoreSim.sims_descend (fuel thr : ℕ) {flushing flushing' : List NodeId}
    (hf : Forall₂ rel flushing flushing')
    {top top' : NodeId} (ht : rel top top') :
    (hS.engines P Tr).Sims (Option.Rel rel) (Engine.descend fuel thr flushing top)
      (Engine.descend fuel thr flushing' top') :=
  ((hS.sims_loaded ht).bind fun _ _ hn => hS.sims_findBuffered loadInv_true fuel hf hn.children).ite
    (Sims.pure .none)

lemma StoreSim.sims_absorb {parent parent' child child' : NodeId} (hp : rel parent parent')
    (hc : rel child child')
    {o o' : Outcome} (ho : OutcomeRel rel o o') :
    (hS.engines P Tr).Sims Eq (Engine.absorb parent child o) (Engine.absorb parent' child' o') := by
  cases ho with
  | splits hl => exact hS.sims_integrateSplits hp hl
  | removed => exact hS.sims_removeChild hp hc

lemma StoreSim.sims_traceFlush {tr : Bool} (hT : tr = true → TraceSim rel Tr) {id id' : NodeId}
    (hid : rel id id')
    (occ : List ℕ) (chosen : ℕ) :
    (hS.engines P Tr).Sims Eq (Engine.traceFlush tr id occ chosen)
    (Engine.traceFlush tr id' occ chosen) := by
  cases tr with
  | true => exact hS.sims_record loadInv_true fun _ _ h => (hT rfl).flush occ chosen hid h
  | false => exact Sims.pure rfl

lemma StoreSim.sims_collapseLoop (n : ℕ) :
    (hS.engines P Tr).Sims Eq (Engine.collapseLoop n) (Engine.collapseLoop n) := by
  induction n with
  | zero => exact Sims.throw _ _
  | succ n ih =>
    refine Sims.get fun e r hr hi => ?_
    refine ((hS.sims_loaded hr.root).bind fun node node' hn => ?_) e r hr hi
    cases hn with
    | leaf es => exact Sims.pure rfl
    | internal ps b hcs =>
      cases hcs with
      | nil => exact Sims.pure rfl
      | cons hc hcs =>
        cases hcs with
        | cons _ _ => exact Sims.pure rfl
        | nil =>
          exact ((hS.sims_setRoot hc).seq fun _ => (hS.sims_releaseSlot hr.root).seq fun _ =>
            (hS.sims_ensureLoaded loadInv_true hc .nil).seq fun _ => ih).ite (Sims.pure rfl)

lemma StoreSim.sims_stamp (hT : TraceSim rel Tr) (op : OpKind2) :
    (hS.engines P Tr).Sims Eq (Engine.stamp op) (Engine.stamp op) := by
  refine Sims.get fun e r hr hi => ?_
  rw [hr.nextSeq]
  split_ifs
  · intro a e' hrun
    cases hrun
    exact Or.inl ⟨_, _, rfl, rfl, trivial,
      ⟨hr.store, hr.params, hr.root, rfl, congrArg (· + 1) hr.ops, hr.policy,
      hT.op _ op hr.trace⟩, hS.refl _⟩
  · exact Sims.throw _ _ e r hr hi

lemma StoreSim.sims_enter (hT : TraceSim rel Tr) (op : OpKind2) :
    (hS.engines P Tr).Sims Eq (Engine.enter op) (Engine.enter op) := by
  refine Sims.get fun e r hr hi => ?_
  refine ((hS.sims_ensureLoaded loadInv_true hr.root .nil).seq fun _ => (hS.sims_stamp hT op).seq
    fun seq => ?_) e r hr hi
  refine Sims.get fun e r hr hi => ?_
  exact ((hS.sims_mutate hr.root (respects_accept op.key (op.message seq))).bind
    fun _ _ _ => Sims.pure rfl) e r hr hi

lemma StoreSim.sims_dirtyWalk (n : ℕ) {visit visit' : List NodeId} (hv : Forall₂ rel visit visit') :
    (hS.engines P Tr).Sims (Forall₂ rel) (Engine.dirtyWalk n visit)
    (Engine.dirtyWalk n visit') := by
  induction n generalizing visit visit' with
  | zero => exact Sims.throw _ _
  | succ n ih =>
    cases hv with
    | nil => exact Sims.pure .nil
    | cons hid hv =>
      refine (hS.sims_loaded hid).bind fun _ _ hn => ?_
      refine (Sims.filterM hn.children fun _ _ hc => hS.sims_isDirty hc).bind fun _ _ hdirty => ?_
      exact (ih (List.rel_append (List.rel_reverse hdirty) hv)).bind fun _ _ hl =>
        Sims.pure (.cons hid hl)

lemma StoreSim.sims_dirtyNodes (fuel : ℕ) :
    (hS.engines P Tr).Sims (Forall₂ rel) (Engine.dirtyNodes fuel) (Engine.dirtyNodes fuel) := by
  refine Sims.get fun e r hr hi => ?_
  refine ((hS.sims_isDirty hr.root).seq fun dirty => ?_) e r hr hi
  exact (hS.sims_dirtyWalk fuel (.cons hr.root .nil)).ite (Sims.pure .nil)

/-- The picks of a batch: the same but for the child's name. -/
def PickRel (rel : NodeId → NodeId → Prop) (x y : ℕ × NodeId × List ℕ × Buffer) : Prop :=
  x.1 = y.1 ∧ rel x.2.1 y.2.1 ∧ x.2.2 = y.2.2

section Pick
variable {pick : Engine.Pick π S} {pick' : Engine.Pick π' St} {tr : Bool}
    (hT : tr = true → TraceSim rel Tr)
  (hpick : ∀ {id id'}, rel id id' → ∀ depth,
    (hS.engines P Tr).Sims (PickRel rel) (pick id depth tr) (pick' id' depth tr))
include hT hpick

lemma StoreSim.sims_flushLoop (fuel thr n : ℕ) {stack stack' : List NodeId}
    (hstack : Forall₂ rel stack stack') :
    (hS.engines P Tr).Sims (OutcomeRel rel) (Engine.flushLoop pick fuel thr tr n stack)
      (Engine.flushLoop pick' fuel thr tr n stack') := by
  induction n generalizing stack stack' with
  | zero => exact Sims.throw _ _
  | succ n ih =>
    cases hstack with
    | nil => exact Sims.throw _ _
    | @cons top top' below below' htop hbelow =>
      refine (hS.sims_bufferLen htop).seq fun len => Sims.ite ?_ ?_
      · refine (hS.sims_descend fuel thr (.cons htop hbelow) htop).bind
          fun found found' hfound => ?_
        cases hfound with
        | some hc => exact ih (.cons hc (.cons htop hbelow))
        | none =>
          refine (hS.sims_settle htop).bind fun o o' ho => ?_
          cases hbelow with
          | nil => exact Sims.pure ho
          | cons hp hrest => exact (hS.sims_absorb hp htop ho).seq fun _ => ih (.cons hp hrest)
      · rw [hbelow.length_eq]
        refine (hpick htop _).bind ?_
        rintro ⟨i, c, occ, batch⟩ ⟨i', c', occ', batch'⟩ ⟨hi, hc, hrest⟩
        obtain rfl : i = i' := hi
        obtain ⟨rfl, rfl⟩ : occ = occ' ∧ batch = batch' := by simpa using hrest
        refine (hS.sims_traceFlush hT htop _ _).seq fun _ =>
          (hS.sims_applyBatch hc _ (.cons htop hbelow) thr).seq fun delivery => ?_
        have hsplit : (hS.engines P Tr).Sims (OutcomeRel rel) (do
            let promoted ← Engine.splitIfNeeded c
            Engine.integrateSplits top promoted
            Engine.flushLoop pick fuel thr tr n (top :: below)) (do
            let promoted ← Engine.splitIfNeeded c'
            Engine.integrateSplits top' promoted
            Engine.flushLoop pick' fuel thr tr n (top' :: below')) :=
          (hS.sims_splitIfNeeded hc).bind fun _ _ hl =>
            (hS.sims_integrateSplits htop hl).seq fun _ =>
            ih (.cons htop hbelow)
        match delivery with
        | .internal true => exact ih (.cons hc (.cons htop hbelow))
        | .leaf true => exact (hS.sims_removeChild htop hc).seq fun _ => ih (.cons htop hbelow)
        | .internal false => exact hsplit
        | .leaf false => exact hsplit

lemma StoreSim.sims_settleRoot (fuel thr : ℕ) {root root' : NodeId} (hroot : rel root root') :
    (hS.engines P Tr).Sims (OutcomeRel rel) (Engine.settleRoot pick fuel thr tr root)
      (Engine.settleRoot pick' fuel thr tr root') := by
  refine (hS.sims_loaded hroot).bind fun node node' hn => ?_
  cases hn with
  | internal ps b _ => exact hS.sims_flushLoop hT hpick fuel thr fuel (.cons hroot .nil)
  | leaf es => exact (hS.sims_splitIfNeeded hroot).bind fun _ _ hl => Sims.pure (.splits hl)

lemma StoreSim.sims_growLoop (fuel thr n : ℕ) :
    (hS.engines P Tr).Sims Eq (Engine.growLoop pick fuel thr tr n)
    (Engine.growLoop pick' fuel thr tr n) := by
  induction n with
  | zero => exact Sims.throw _ _
  | succ n ih =>
    refine Sims.get fun e r hr hi => ?_
    refine ((hS.sims_settleRoot hT hpick fuel thr hr.root).bind fun o o' ho => ?_) e r hr hi
    cases ho with
    | removed =>
      exact (hS.sims_alloc (.leaf _)).bind fun _ _ hnew => (hS.sims_setRoot hnew).seq fun _ =>
        hS.sims_releaseSlot hr.root
    | splits hl =>
      cases hl with
      | nil => exact Sims.pure rfl
      | cons hx hl =>
        have hall := List.Forall₂.cons hx hl
        refine (hS.sims_alloc ?_).bind fun _ _ hnew => (hS.sims_setRoot hnew).seq fun _ => ih
        rw [forall₂_fst hall]
        exact .internal _ _ (.cons hr.root (forall₂_snd hall))

lemma StoreSim.sims_restoreRootBy (fuel thr : ℕ) :
    (hS.engines P Tr).Sims Eq (Engine.restoreRootBy pick fuel thr tr)
    (Engine.restoreRootBy pick' fuel thr tr) :=
  (hS.sims_growLoop hT hpick fuel thr fuel).seq fun _ => hS.sims_collapseLoop fuel

end Pick

variable [FlushPolicy π] [FlushPolicy π']

lemma StoreSim.sims_consult (hP : PolicySim rel P) (ctx : FlushCtx) {node : NodeId}
    (hnode : rel ctx.node node) :
    (hS.engines P Tr).Sims Eq (Engine.consult ctx) (Engine.consult { ctx with node := node }) := by
  intro e r hr _ a e' hrun
  cases hrun
  obtain ⟨hchosen, hnext⟩ := hP e.policy r.policy ctx node hr.policy hnode
  exact Or.inl ⟨_, _, rfl, hchosen, trivial, ⟨hr.store, hr.params, hr.root, hr.nextSeq, hr.ops,
    hnext, hr.trace⟩,
    hS.refl _⟩

lemma StoreSim.sims_chooseChild {mode : Bool} (hP : mode = true → PolicySim rel P) {id id' : NodeId}
    (hid : rel id id')
    (depth : ℕ) (ps : List Key) {cs cs' : List NodeId} (hcs : Forall₂ rel cs cs') (b : Buffer)
    (occ : List ℕ) :
    (hS.engines P Tr).Sims Eq (Engine.chooseChild id depth mode ps cs b occ)
      (Engine.chooseChild id' depth mode ps cs' b occ) := by
  cases mode with
  | false => exact Sims.pure rfl
  | true =>
    refine (Sims.mapM hcs fun _ _ hc => hS.sims_isDirty hc).bind fun dirty dirty' hd =>
      Sims.get fun e r hr hi => ?_
    rw [List.forall₂_eq_eq_eq] at hd
    rw [hr.ops, ← hcs.length_eq, hd]
    exact hS.sims_consult (hP rfl) _ hid e r hr hi

lemma StoreSim.sims_pickAndExtract {mode : Bool} (hP : mode = true → PolicySim rel P)
    {id id' : NodeId}
    (hid : rel id id') (depth : ℕ) :
    (hS.engines P Tr).Sims (PickRel rel) (Engine.pickAndExtract id depth mode)
      (Engine.pickAndExtract id' depth mode) := by
  refine (hS.sims_loaded hid).bind fun node node' hn => ?_
  cases hn with
  | leaf es => exact Sims.throw _ _
  | @internal ps cs cs' b hcs =>
    dsimp only
    rw [hcs.length_eq]
    refine (Sims.throw _ _).ite ((hS.sims_chooseChild hP hid depth ps hcs b _).seq fun chosen =>
      (Sims.throw _ _).ite ?_)
    cases extract ps chosen b with
    | none => exact Sims.throw _ _
    | some x =>
      have hc := forall₂_getElem? hcs chosen
      generalize cs[chosen]? = x at hc ⊢
      generalize cs'[chosen]? = y at hc ⊢
      cases hc with
      | none => exact Sims.throw _ _
      | some hc =>
        exact (hS.sims_mutate hid (respects_setBuffer _)).bind fun _ _ _ => Sims.pure ⟨rfl, hc, rfl⟩

lemma StoreSim.sims_restoreRootWith {tr : Bool} (hT : tr = true → TraceSim rel Tr)
    (hP : tr = true → PolicySim rel P)
    (fuel thr : ℕ) :
    (hS.engines P Tr).Sims Eq (Engine.restoreRootWith fuel thr tr)
    (Engine.restoreRootWith fuel thr tr) :=
  hS.sims_restoreRootBy hT (fun hid depth => hS.sims_pickAndExtract hP hid depth) fuel thr

lemma StoreSim.sims_drain (fuel : ℕ) : (hS.engines P Tr).Sims Eq (Engine.drain fuel)
    (Engine.drain fuel) :=
  hS.sims_root fun _ _ hid => (hS.sims_ensureLoaded loadInv_true hid .nil).seq fun _ =>
    hS.sims_restoreRootWith (by simp) (by simp) fuel 0

variable (hT : TraceSim rel Tr) (hP : PolicySim rel P)
include hT hP

lemma StoreSim.sims_mutateWith (fuel : ℕ) (op : OpKind2) :
    (hS.engines P Tr).Sims Eq (Engine.mutateWith fuel op) (Engine.mutateWith fuel op) := by
  rw [mutateWith_eq, mutateWith_eq]
  exact (hS.sims_enter hT op).seq fun _ => hS.sims_params fun p =>
    hS.sims_restoreRootWith (fun _ => hT) (fun _ => hP) fuel p.bufferCapacity.toNat

/-- Every public operation is followed. -/
theorem StoreSim.sims_step (fuel : ℕ) (op : Op) :
    (hS.engines P Tr).Sims Eq (Engine.step fuel op) (Engine.step fuel op) := by
  cases op with
  | mutate op => exact (hS.sims_mutateWith hT hP fuel op).seq fun _ => Sims.pure rfl
  | get key => exact (hS.sims_lookup loadInv_true hT fuel key).seq fun v => Sims.pure rfl
  | scan lo hi => exact (hS.sims_scan loadInv_true hT fuel lo hi).seq fun l => Sims.pure rfl
  | drain => exact (hS.sims_drain fuel).seq fun _ => Sims.pure rfl

end Writes
end Engine
end Beetree
