import Beetree.Charge
import Beetree.CheckExact

/-! A fork of the in-memory engine is the same live tree under new names. -/
namespace Beetree
open List (Forall₂)

namespace Cell
variable {D B : Type}

def rename (f : NodeId → NodeId) (w : B → B) : Cell D B → Cell D B
  | known id dirty disk x => known (f id) dirty disk (w x)
  | stub id d => stub (f id) d

def order (w : B → List NodeId) : Cell D B → List NodeId
  | known id _ _ x => id :: w x
  | stub id _ => [id]

end Cell

namespace Body

def rename (f : NodeId → NodeId) {h : ℕ} (x : Body h) : Body h :=
  match h, x with
  | 0, es => es
  | _ + 1, x => Inner.mk x.pivots (x.children.map (Cell.rename f (rename f))) x.buffer

def order {h : ℕ} (x : Body h) : List NodeId :=
  match h, x with
  | 0, _ => []
  | _ + 1, x => x.children.reverse.flatMap (Cell.order order)

end Body

namespace Live
variable {h : ℕ}

def rename (f : NodeId → NodeId) (t : Live h) : Live h := Cell.rename f (Body.rename f) t

/-- The names in the order in which a stack gives them back. -/
def order (t : Live h) : List NodeId := Cell.order Body.order t

end Live

def Node.rename (f : NodeId → NodeId) : Node → Node
  | .leaf entries => .leaf entries
  | .internal pivots children buffer => .internal pivots (children.map f) buffer

def Slot.rename (f : NodeId → NodeId) : Slot → Slot
  | .loaded n dirty r => .loaded (n.rename f) dirty r
  | .stub r => .stub r

section Unfold
variable {h : ℕ} {f : NodeId → NodeId} {id : NodeId} {d : Bool} {dk : Option (VTree h)} {x : Body h}

@[simp] lemma Live.rename_known :
    Live.rename f (Cell.known id d dk x) = Cell.known (f id) d dk (x.rename f) := rfl

@[simp] lemma Live.rename_stub (v : VTree h) :
    Live.rename f (Cell.stub id v) = Cell.stub (f id) v := rfl

@[simp] lemma Body.rename_leaf (es : Entries) : (Body.leaf es).rename f = Body.leaf es := rfl

@[simp] lemma Body.rename_node (ps : List Key) (cs : List (Live h)) (b : Buffer) :
    (Body.node ps cs b).rename f = Body.node ps (cs.map (Live.rename f)) b := rfl

@[simp] lemma Live.order_known : Live.order (Cell.known id d dk x) = id :: x.order := rfl

@[simp] lemma Live.order_stub (v : VTree h) : Live.order (Cell.stub id v) = [id] := rfl

@[simp] lemma Body.order_leaf (es : Entries) : (Body.leaf es).order = [] := rfl

@[simp] lemma Body.order_node (ps : List Key) (cs : List (Live h)) (b : Buffer) :
    (Body.node ps cs b).order = cs.reverse.flatMap Live.order := rfl

@[simp] lemma Live.id_rename (t : Live h) : (Live.rename f t).id = f t.id := by
  cases t <;> rfl

@[simp] lemma Live.disk_rename (t : Live h) : (Live.rename f t).disk = t.disk := by
  cases t <;> rfl

end Unfold

section Same
variable {h : ℕ} {f : NodeId → NodeId}

lemma Live.view_rename (p : Bool) (t : Live h) : Live.view p (Live.rename f t) = Live.view p t := by
  induction h with
  | zero => cases t <;> rfl
  | succ h ih =>
    cases t with
    | stub id d => rfl
    | known id d dk x =>
      induction x using Body.succCases with
      | hn ps cs b =>
        have hcs : (cs.map (Live.rename f)).map (Live.view p) = cs.map (Live.view p) := by
          rw [List.map_map]
          exact List.map_congr_left fun c _ => ih c
        simp only [Live.rename_known, Body.rename_node, Live.view_known, Body.view_node, hcs]

lemma Body.view_rename (p : Bool) (x : Body h) : (x.rename f).view p = x.view p := by
  have := Live.view_rename (f := f) p (Cell.known 0 true none x)
  simpa using this

lemma Live.plain_rename (t : Live h) : Live.plain (Live.rename f t) = Live.plain t := by
  induction h with
  | zero => cases t <;> rfl
  | succ h ih =>
    cases t with
    | stub id d => rfl
    | known id d dk x =>
      induction x using Body.succCases with
      | hn ps cs b =>
        have hcs : (cs.map (Live.rename f)).map Live.plain = cs.map Live.plain := by
          rw [List.map_map]
          exact List.map_congr_left fun c _ => ih c
        simp only [Live.rename_known, Body.rename_node, Live.plain_known, Body.plain_node, hcs]

lemma Body.toNode_rename (x : Body h) : (x.rename f).toNode = x.toNode.rename f := by
  cases h with
  | zero => rfl
  | succ h =>
    induction x using Body.succCases with
    | hn ps cs b => simp [Node.rename, Function.comp_def]

lemma Live.foot_rename (t : Live h) :
    Live.foot (Live.rename f t) = (Live.foot t).map fun x => (f x.1, x.2.rename f) := by
  induction h with
  | zero => cases t <;> rfl
  | succ h ih =>
    cases t with
    | stub id d => rfl
    | known id d dk x =>
      have hx := Body.toNode_rename (f := f) x
      induction x using Body.succCases with
      | hn ps cs b =>
        rw [Live.rename_known, Live.foot_known, Live.foot_known, List.map_cons, hx,
          Body.rename_node, Body.foot_node,
          Body.foot_node, List.flatMap_map, List.map_flatMap, Slot.rename]
        exact congrArg _ (List.flatMap_congr fun c _ => ih c)

lemma Live.good_rename {p : Bool} {lo hi : Option Key} {t : Live h} (ht : Live.Good p lo hi t) :
    Live.Good p lo hi (Live.rename f t) := by
  induction h generalizing lo hi with
  | zero => cases t <;> exact ht
  | succ h ih =>
    cases t with
    | stub id d => exact ht
    | known id d dk x =>
      induction x using Body.succCases with
      | hn ps cs b =>
        rw [Live.rename_known, Live.good_known, Body.view_rename]
        refine ⟨?_, ht.2⟩
        obtain ⟨hv, hk⟩ := Body.good_node.mp ht.1
        rw [Body.rename_node, Body.good_node, ← Body.rename_node, Body.view_rename]
        refine ⟨hv, hk.imp (fun h0 => by rw [h0, List.map_nil]) fun hK => ?_⟩
        exact Kids.map _ (hK.imp fun _ _ c _ hc => ih hc)

lemma Live.sound_rename {P : (h : ℕ) → VTree h → Prop} {t : Live h} (ht : Live.Sound P t) :
    Live.Sound P (Live.rename f t) := by
  induction h with
  | zero => cases t <;> exact ht
  | succ h ih =>
    cases t with
    | stub id d => exact ht
    | known id d dk x =>
      induction x using Body.succCases with
      | hn ps cs b =>
        obtain ⟨hP, hd, hx⟩ := ht
        refine ⟨hP, fun h0 => ?_, ?_⟩
        · obtain ⟨v, hv, o, ds, hrec, hkids⟩ := hd h0
          refine ⟨v, hv, o, ds, hrec, ?_⟩
          rw [← hkids]
          change (cs.map (Live.rename f)).map Cell.disk = cs.map Cell.disk
          rw [List.map_map]
          exact List.map_congr_left fun c _ => Live.disk_rename c
        · change (Body.node ps (cs.map (Live.rename f)) b).Sound P
          rw [Body.sound_node]
          intro c' hc'
          obtain ⟨c, hc, rfl⟩ := List.mem_map.mp hc'
          exact ih (Body.sound_node.mp hx c hc)

end Same

section Order
variable {h : ℕ}

lemma Live.order_perm (t : Live h) : (Live.order t).Perm (Live.foot t).ids := by
  induction h with
  | zero => cases t <;> exact List.Perm.refl _
  | succ h ih =>
    cases t with
    | stub id d => exact List.Perm.refl _
    | known id d dk x =>
      induction x using Body.succCases with
      | hn ps cs b =>
        rw [Live.order_known, Body.order_node, Live.foot_known, Body.foot_node, Foot.ids_cons]
        refine List.Perm.cons id ?_
        unfold Foot.ids at ih ⊢
        rw [List.map_flatMap]
        exact (List.reverse_perm cs).flatMap_right _ |>.trans (List.Perm.flatMap_left cs
          fun c _ => ih c)

lemma Live.mem_order {t : Live h} {i : NodeId} : i ∈ Live.order t ↔ i ∈ (Live.foot t).ids :=
    (Live.order_perm t).mem_iff

def Live.place (t : Live h) (i : NodeId) : NodeId := (Live.order t).idxOf i

lemma Live.getElem?_place {t : Live h} {i : NodeId} (hi : i ∈ Live.order t) :
    (Live.order t)[Live.place t i]? = some i :=
  List.getElem?_idxOf hi

lemma Live.place_lt {t : Live h} {i : NodeId} (hi : i ∈ Live.order t) :
    Live.place t i < (Live.order t).length :=
  List.idxOf_lt_length_of_mem hi

lemma Live.place_inj {t : Live h} {i j : NodeId} (hi : i ∈ Live.order t) (hj : j ∈ Live.order t)
    (h : Live.place t i = Live.place t j) : i = j :=
  Option.some.inj ((Live.getElem?_place hi).symm.trans (h ▸ Live.getElem?_place hj))

def Arena.Has (a : Arena) (F : Foot) : Prop :=
  ∀ x ∈ F, ∃ n d r, x.2 = Slot.loaded n d r ∧ a.nodes[x.1]? = some n ∧ a.dirty[x.1]? = some d

lemma Arena.Models.has {s : Ideal} {a : Arena} {F : Foot} (hm : Arena.Same s a)
    (hF : Stored s F) : a.Has F := by
  intro x hx
  obtain ⟨n, n', d, r, hxs, hn, hn', hd⟩ := hm.slots x.1 x.2 (hF.slots x hx) x.1 rfl
  obtain rfl := hn.eq
  exact ⟨_, d, r, hxs, hn', hd⟩

lemma liveOrder_step {a : Arena} {id : NodeId} {n : Node} (hn : a.nodes[id]? = some n) {fuel : ℕ}
    {stack l : List NodeId} (hrest : a.liveOrder fuel (n.children.reverse ++ stack) = .ok l) :
    a.liveOrder (fuel + 1) (id :: stack) = .ok (id :: l) := by
  simp only [Arena.liveOrder, hn, hrest, bind, Except.bind, pure, Except.pure]

theorem liveOrder_run {a : Arena} {t : Live h} (hF : a.Has (Live.foot t)) {stack l : List NodeId}
    (hrest : ∃ N, ∀ fuel ≥ N, a.liveOrder fuel stack = .ok l) :
    ∃ N, ∀ fuel ≥ N, a.liveOrder fuel (t.id :: stack) = .ok (Live.order t ++ l) := by
  induction h generalizing stack l with
  | zero =>
    obtain ⟨n, d, r, hslot, hn, -⟩ := hF _ (Live.slot_mem_foot t)
    cases t with
    | stub id v => cases hslot
    | known id d dk x =>
      induction x using Body.zeroCases with
      | hl es =>
        cases hslot
        obtain ⟨N, hN⟩ := hrest
        refine ⟨N + 1, fun fuel hf => ?_⟩
        obtain ⟨m, rfl⟩ : ∃ m, fuel = m + 1 := ⟨fuel - 1, by omega⟩
        exact liveOrder_step hn (hN m (by omega))
  | succ h ih =>
    obtain ⟨n, d, r, hslot, hn, -⟩ := hF _ (Live.slot_mem_foot t)
    cases t with
    | stub id v => cases hslot
    | known id d dk x =>
      induction x using Body.succCases with
      | hn ps cs b =>
        cases hslot
        have hkids : ∀ c ∈ cs.reverse, a.Has (Live.foot c) := by
          intro c hc y hy
          refine hF y ?_
          rw [Live.foot_known, Body.foot_node]
          exact List.mem_cons_of_mem _ (List.mem_flatMap.mpr ⟨c, by simpa using hc, hy⟩)
        have hlist : ∀ cs' : List (Live h), (∀ c ∈ cs', a.Has (Live.foot c)) →
            ∃ N, ∀ fuel ≥ N, a.liveOrder fuel (cs'.map Cell.id ++ stack) = .ok
              (cs'.flatMap Live.order ++ l) := by
          intro cs' hcs'
          induction cs' with
          | nil => exact hrest
          | cons c cs' ihc =>
            obtain ⟨N, hN⟩ := ih (hcs' c (by simp)) (ihc fun c' hc' => hcs' c' (by simp [hc']))
            refine ⟨N, fun fuel hf => ?_⟩
            rw [List.map_cons, List.cons_append, hN fuel hf, List.flatMap_cons, List.append_assoc]
        obtain ⟨N, hN⟩ := hlist cs.reverse hkids
        refine ⟨N + 1, fun fuel hf => ?_⟩
        obtain ⟨m, rfl⟩ : ∃ m, fuel = m + 1 := ⟨fuel - 1, by omega⟩
        have hrun := hN m (by omega)
        rw [List.map_reverse] at hrun
        exact liveOrder_step hn hrun

end Order

section Fork
variable {π σ : Type} {h : ℕ} {e : Engine π Ideal} {t : Live h} {b : BeTree π}

def BeTree.copy (tree : BeTree π) (t : Live h) (policy : σ) : BeTree σ where
  params := tree.params
  store := ⟨(Live.order t).map
    fun i => ((tree.store.nodes[i]?).getD (.leaf OrdMap.empty)).rename (Live.place t),
    (Live.order t).map fun i => (tree.store.dirty[i]?).getD false⟩
  root := Live.place t tree.root
  nextSeq := tree.nextSeq
  opsSinceCommit := tree.opsSinceCommit
  policy := policy
  trace := .new

lemma get?_places {l : List NodeId} (hn : l.Nodup) {i : NodeId} (hi : i ∈ l) :
    (OrdMap.ofList l.zipIdx).get? i = some (l.idxOf i) := by
  have hx : (i, l.idxOf i) ∈ l.zipIdx := by
    rw [List.mk_mem_zipIdx_iff_getElem?]
    exact List.getElem?_idxOf hi
  exact OrdMap.get?_ofList_of_mem (by rwa [List.zipIdx_map_fst]) hx

lemma mapChildren_places {t : Live h} (hn : (Live.order t).Nodup) {n : Node}
    (hc : ∀ c ∈ n.children, c ∈ Live.order t) :
    n.mapChildren (fun c => (OrdMap.ofList (Live.order t).zipIdx).get? c) = some
      (n.rename (Live.place t)) := by
  cases n with
  | leaf es => rfl
  | internal ps cs b =>
    have : cs.mapM (fun c => (OrdMap.ofList (Live.order t).zipIdx).get? c) = some
      (cs.map (Live.place t)) :=
      mapM_eq_some_map cs fun c hc' => get?_places hn (hc c hc')
    simp only [Node.mapChildren, this, Option.map_some, Node.rename]

lemma Live.children_mem_foot {t : Live h} {i : NodeId} {n : Node} {d : Bool} {r : Option Record}
    (hi : (i, Slot.loaded n d r) ∈ Live.foot t) : ∀ c ∈ n.children, c ∈ (Live.foot t).ids := by
  induction h with
  | zero =>
    cases t with
    | stub id v => simp at hi
    | known id d dk x =>
      induction x using Body.zeroCases with
      | hl es =>
        obtain ⟨-, rfl, -⟩ : i = id ∧ n = .leaf es ∧ _ := by simpa using hi
        simp [Node.children]
  | succ h ih =>
    cases t with
    | stub id v => simp at hi
    | known id d dk x =>
      induction x using Body.succCases with
      | hn ps cs b =>
        rw [Live.foot_known, Body.foot_node, Foot.ids_cons]
        rw [Live.foot_known, Body.foot_node, List.mem_cons] at hi
        have hkid : ∀ c ∈ cs, ∀ j ∈ (Live.foot c).ids, j ∈ Foot.ids (cs.flatMap Live.foot) := by
          intro c hc j hj
          obtain ⟨y, hy, rfl⟩ := List.mem_map.mp hj
          exact List.mem_map_of_mem (List.mem_flatMap.mpr ⟨c, hc, hy⟩)
        rcases hi with hi | hi
        · cases hi
          intro j hj
          obtain ⟨c, hc, rfl⟩ := List.mem_map.mp hj
          exact List.mem_cons_of_mem _ (hkid c hc _ (List.mem_map_of_mem (Live.slot_mem_foot c)))
        · obtain ⟨c, hc, hi⟩ := List.mem_flatMap.mp hi
          exact fun j hj => List.mem_cons_of_mem _ (hkid c hc j (ih hi j hj))

theorem forkForSim_run (ht : Holds e t) (hb : Alike Arena.Same e b) (policy : σ) :
    ∃ N, ∀ fuel ≥ N, BeTree.forkForSim fuel b policy = .ok (b.copy t policy) := by
  have hhas := hb.store.has ht.stored
  have hn : (Live.order t).Nodup := (Live.order_perm t).nodup_iff.mpr ht.stored.nodup
  have hroot : b.root = t.id := hb.root.symm.trans ht.root
  have hnil : ∃ N, ∀ fuel ≥ N, b.store.liveOrder fuel [] = .ok [] :=
    ⟨1, fun fuel hf => by obtain ⟨m, rfl⟩ : ∃ m, fuel = m + 1 := ⟨fuel - 1, by omega⟩; rfl⟩
  obtain ⟨N, hN⟩ := liveOrder_run hhas hnil
  have hslot : ∀ i ∈ Live.order t, ∃ n d, b.store.nodes[i]? = some n ∧ b.store.dirty[i]? = some d ∧
      ∀ c ∈ n.children, c ∈ Live.order t := by
    intro i hi
    obtain ⟨⟨j, y⟩, hy, rfl⟩ := List.mem_map.mp (Live.mem_order.mp hi)
    obtain ⟨n, d, r, rfl, hn, hd⟩ := hhas _ hy
    exact ⟨n, d, hn, hd, fun c hc => Live.mem_order.mpr (Live.children_mem_foot hy c hc)⟩
  have hnodes : (Live.order t).mapM (fun id => (b.store.nodes[id]?).bind
      (Node.mapChildren fun c => (OrdMap.ofList (Live.order t).zipIdx).get? c)) = some
        (b.copy t policy).store.nodes := by
    refine mapM_eq_some_map _ fun i hi => ?_
    obtain ⟨n, d, hni, -, hc⟩ := hslot i hi
    rw [hni, Option.bind_some, mapChildren_places hn hc, Option.getD_some]
  have hdirty :
    (Live.order t).mapM (fun id => b.store.dirty[id]?) = some (b.copy t policy).store.dirty := by
    refine mapM_eq_some_map _ fun i hi => ?_
    obtain ⟨n, d, -, hd, -⟩ := hslot i hi
    rw [hd, Option.getD_some]
  have hmem : b.root ∈ Live.order t := by
    rw [hroot, Live.mem_order]
    exact List.mem_map_of_mem (Live.slot_mem_foot t)
  refine ⟨N, fun fuel hf => ?_⟩
  have horder := hN fuel hf
  rw [List.append_nil, ← hroot] at horder
  simp only [BeTree.forkForSim, horder, bind, Except.bind, hnodes, hdirty, get?_places hn hmem]
  rfl

noncomputable def Engine.forked (e : Engine π Ideal) (t : Live h) (policy : σ) :
    Engine σ Ideal where
  params := e.params
  store := Ideal.install ⟨fun _ => none, (Live.order t).length, ∅, e.store.free⟩
    (Live.foot (Live.rename (Live.place t) t))
  root := Live.place t e.root
  nextSeq := e.nextSeq
  opsSinceCommit := e.opsSinceCommit
  policy := policy
  trace := .new

lemma Live.ids_foot_rename (f : NodeId → NodeId) (t : Live h) :
    (Live.foot (Live.rename f t)).ids = (Live.foot t).ids.map f := by
  rw [Live.foot_rename]
  unfold Foot.ids
  rw [List.map_map, List.map_map]
  rfl

theorem Holds.forked (ht : Holds e t) (policy : σ) :
    Holds (e.forked t policy) (Live.rename (Live.place t) t) where
  root := by
    rw [Live.id_rename, ← ht.root]
    rfl
  stored := by
    have hmem : ∀ i ∈ (Live.foot t).ids, i ∈ Live.order t := fun i hi => Live.mem_order.mpr hi
    have hn : (Live.foot (Live.rename (Live.place t) t)).ids.Nodup := by
      rw [Live.ids_foot_rename]
      exact ht.stored.nodup.map_on fun i hi j hj hij => Live.place_inj (hmem i hi) (hmem j hj) hij
    refine ⟨fun x hx => Ideal.install_of_mem hn hx, fun i hi => ?_, hn⟩
    rw [Live.ids_foot_rename] at hi
    obtain ⟨j, hj, rfl⟩ := List.mem_map.mp hi
    exact Live.place_lt (hmem j hj)
  whole i _ hn := Ideal.install_of_not_mem hn
  good p := Live.good_rename (ht.good p)
  sound := Live.sound_rename ht.sound
  rest := by
    rw [Live.plain_rename]
    exact ht.rest
  fresh p k := by
    rw [Live.view_rename]
    exact ht.fresh p k
  legal := ht.legal

lemma copy_slot (ht : Holds e t) (hb : Alike Arena.Same e b) (policy : σ) {i : NodeId}
    (hi : i ∈ Live.order t) :
    ∃ n d r, (i, Slot.loaded n d r) ∈ Live.foot t ∧
      (b.copy t policy).store.nodes[Live.place t i]? = some (n.rename (Live.place t)) ∧
      (b.copy t policy).store.dirty[Live.place t i]? = some d := by
  obtain ⟨⟨j, y⟩, hy, rfl⟩ := List.mem_map.mp (Live.mem_order.mp hi)
  obtain ⟨n, d, r, hslot, hn, hd⟩ := hb.store.has ht.stored _ hy
  obtain rfl : y = .loaded n d r := hslot
  refine ⟨n, d, r, hy, ?_, ?_⟩
  · rw [BeTree.copy, List.getElem?_map, Live.getElem?_place hi, Option.map_some, hn,
      Option.getD_some]
  · rw [BeTree.copy, List.getElem?_map, Live.getElem?_place hi, Option.map_some, hd,
      Option.getD_some]

theorem alike_copy (ht : Holds e t) (hb : Alike Arena.Same e b) (policy : σ) :
    Alike Arena.Same (e.forked t policy) (b.copy t policy) where
  store := by
    refine ⟨⟨(Live.order t).length, (Nat.zero_add _).symm, by simp [BeTree.copy, Renaming.same]⟩,
      by simp [BeTree.copy],
      ?_⟩
    rintro id x hx _ rfl
    have hids : id ∈ (Live.foot (Live.rename (Live.place t) t)).ids := by
      by_contra hne
      rw [Engine.forked, Ideal.install_of_not_mem hne] at hx
      cases hx
    rw [Live.ids_foot_rename] at hids
    obtain ⟨i, hi, rfl⟩ := List.mem_map.mp hids
    obtain ⟨n, d, r, hmem, hn, hd⟩ := copy_slot ht hb policy (Live.mem_order.mpr hi)
    have hslot := (ht.forked policy).stored.slots (Live.place t i,
      .loaded (n.rename (Live.place t)) d r) (by
      rw [Live.foot_rename]
      exact List.mem_map.mpr ⟨_, hmem, rfl⟩)
    obtain rfl : Slot.loaded (n.rename (Live.place t)) d r = x :=
      Option.some.inj (hslot.symm.trans hx)
    exact ⟨_, _, d, r, rfl, .refl _, hn, hd⟩
  params := hb.params
  root := congrArg (Live.place t) hb.root
  nextSeq := hb.nextSeq
  ops := hb.ops
  policy := rfl
  trace := rfl

/-- The names of a fork: a copied node goes by its place in the walk, and nodes allocated in step by
matching names. -/
def Live.copying (t : Live h) (next : ℕ) (hn : ∀ i ∈ Live.order t, i < next) : Renaming where
  rel i j := i ∈ Live.order t ∧ j = Live.place t i ∨ ∃ k, i = next + k ∧
    j = (Live.order t).length + k
  left := next
  right := (Live.order t).length
  unique := by
    constructor
    · rintro i i' j (⟨hi, hj⟩ | ⟨k, hk, hj⟩) (⟨hi', hj'⟩ | ⟨k', hk', hj'⟩)
      · exact Live.place_inj hi hi' (hj.symm.trans hj')
      · exact absurd (Live.place_lt hi)
          (by rw [← hj, hj']; exact Nat.not_lt.mpr (Nat.le_add_right _ _))
      · exact absurd (Live.place_lt hi')
          (by rw [← hj', hj]; exact Nat.not_lt.mpr (Nat.le_add_right _ _))
      · rw [hk, hk', Nat.add_left_cancel (hj.symm.trans hj')]
    · rintro i j j' (⟨hi, hj⟩ | ⟨k, hk, hj⟩) (⟨hi', hj'⟩ | ⟨k', hk', hj'⟩)
      · exact hj.trans hj'.symm
      · exact absurd (hn i hi) (by rw [hk']; exact Nat.not_lt.mpr (Nat.le_add_right _ _))
      · exact absurd (hn i hi') (by rw [hk]; exact Nat.not_lt.mpr (Nat.le_add_right _ _))
      · rw [hj, hj', Nat.add_left_cancel (hk.symm.trans hk')]
  fresh k := Or.inr ⟨k, rfl, rfl⟩

/-- The copy stands for the original under these names. -/
theorem resembles_copy {P : π → σ → Prop} {Tr : Recorder → Recorder → Prop} (ht : Holds e t)
    (hb : Alike Arena.Same e b) {policy : σ} (hP : P e.policy policy) (hTr : Tr e.trace .new)
    (hn : ∀ i ∈ Live.order t, i < e.store.next) :
    Resembles (Live.copying t e.store.next hn).rel P Tr
      (Arena.Models (Live.copying t e.store.next hn)) e
      (b.copy t policy) where
  store := by
    refine ⟨⟨0, rfl, by simp [BeTree.copy, Live.copying]⟩, by simp [BeTree.copy],
      fun i x hx j hij => ?_⟩
    have hlt : i < e.store.next := by
      obtain ⟨n, n', d, r, -, -, hi, -⟩ := hb.store.slots i x hx i rfl
      obtain ⟨k, hk, hk'⟩ := hb.store.next
      have := (List.getElem?_eq_some_iff.mp hi).1
      rw [hk]
      rw [hk'] at this
      exact this
    obtain ⟨hi, rfl⟩ : i ∈ Live.order t ∧ j = Live.place t i := by
      rcases hij with hij | ⟨k, hk, -⟩
      · exact hij
      · exact absurd hlt (by rw [hk]; exact Nat.not_lt.mpr (Nat.le_add_right _ _))
    obtain ⟨n, d, r, hmem, hn', hd⟩ := copy_slot ht hb policy hi
    obtain rfl : x = .loaded n d r := Option.some.inj (hx.symm.trans (ht.stored.slots _ hmem))
    refine ⟨n, _, d, r, rfl, ?_, hn', hd⟩
    have hc := Live.children_mem_foot hmem
    cases n with
    | leaf es => exact .leaf es
    | internal ps cs b =>
      refine .internal ps b (List.forall₂_map_right_iff.mpr (List.forall₂_same.mpr fun c hc' => ?_))
      exact Or.inl ⟨Live.mem_order.mpr (hc c hc'), rfl⟩
  params := hb.params
  root := by
    refine Or.inl ⟨?_, ?_⟩
    · rw [ht.root, Live.mem_order]
      exact List.mem_map_of_mem (Live.slot_mem_foot t)
    · exact congrArg (Live.place t) hb.root.symm
  nextSeq := hb.nextSeq
  ops := hb.ops
  policy := hP
  trace := hTr

end Fork
end Beetree
