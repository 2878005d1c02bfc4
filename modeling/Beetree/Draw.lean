import Beetree.CheckExact
import Beetree.Flags

/-! Trees drawn by a store of nodes, and what the checker makes of them. -/
namespace Beetree
open List (Forall₂)

variable {α : ℕ → Type}

def NodeSource.Draws (src : NodeSource) {h : ℕ} (id : NodeId) (t : Tree α h) : Prop :=
  match h, t with
  | 0, t => src.node id = some (.leaf t.entries)
  | _ + 1, t => ∃ cs, src.node id = some (.internal t.pivots cs t.buffer) ∧
      Forall₂ (fun c x => Draws src c x) cs t.children

section Draws
variable {src : NodeSource} {h : ℕ} {id : NodeId}

lemma NodeSource.draws_leaf {a : α 0} {es : Entries} :
    src.Draws id (Tree.leaf a es : Tree α 0) ↔ src.node id = some (.leaf es) := Iff.rfl

lemma NodeSource.draws_node {a : α (h + 1)} {ps : List Key} {xs : List (Tree α h)} {b : Buffer} :
    src.Draws id (Tree.node a ps xs b) ↔
      ∃ cs, src.node id = some (.internal ps cs b) ∧
      Forall₂ (fun c x => src.Draws c x) cs xs := Iff.rfl

lemma drawn_child {cs : List NodeId} {xs : List (Tree α h)}
    (hcs : Forall₂ (fun c x => src.Draws c x) cs xs) {i : ℕ}
    {c : NodeId} (hc : cs[i]? = some c) : ∃ x, xs[i]? = some x ∧ src.Draws c x := by
  induction hcs generalizing i with
  | nil => simp at hc
  | cons hx _ ih =>
    cases i with
    | zero =>
      cases hc
      exact ⟨_, rfl, hx⟩
    | succ i => exact ih hc

lemma NodeSource.Draws.grown {t : Tree α h} (ht : src.Draws id t) : src.Grown id := by
  induction h generalizing id with
  | zero => exact .leaf ht
  | succ h ih =>
    obtain ⟨cs, hn, hcs⟩ := ht
    refine .internal hn fun c hc => ?_
    obtain ⟨i, hi⟩ := List.mem_iff_getElem?.mp hc
    obtain ⟨x, -, hx⟩ := drawn_child hcs hi
    exact ih hx

structure Place.Stands (src : NodeSource) (p : Place) (x : Tree α h) : Prop where
  draws : src.Draws p.id x
  valid : x.Valid p.lower p.upper
  rest : x.RootRest src.params ∧ (p.id ≠ src.root → x.Rest src.params)
  seqs : ∀ k, InRange p.lower p.upper k → (p.seqs k).Pairwise (· < ·) ∧
    ∀ s ∈ p.seqs k, x.Below k s.toNat

lemma Place.Stands.fine {p : Place} {x : Tree α h} (hx : p.Stands src x) : src.Fine p := by
  cases h with
  | zero =>
    induction x using Tree.zeroCases with
    | h a es =>
      have hn := NodeSource.draws_leaf.mp hx.draws
      simp only [NodeSource.Fine, hn]
      refine ⟨hx.rest.1, fun hne h0 => ?_, fun k e he => ?_⟩
      · have : 0 < es.size := (hx.rest.2 hne).1
        rw [h0] at this
        exact lt_irrefl 0 this
      · have hr := hx.valid k e he
        obtain ⟨hs, hb⟩ := hx.seqs k hr
        exact ⟨hr, List.pairwise_cons.mpr ⟨fun s hs => hb s hs e he, hs⟩⟩
  | succ h =>
    induction x using Tree.succCases with
    | hn a ps xs b =>
      obtain ⟨cs, hn, hcs⟩ := NodeSource.draws_node.mp hx.draws
      obtain ⟨hmsg, -, hkids⟩ := (Tree.valid_node a).mp hx.valid
      obtain ⟨hB, hpos, hF, -⟩ := Tree.rest_node.mp hx.rest.1
      have hK := hkids.resolve_left fun h0 => by simp [h0.1] at hpos
      simp only [NodeSource.Fine, hn]
      refine ⟨hK.sorted, hcs.length_eq.trans hK.length, hcs.length_eq.trans_le hF, hB,
        fun q hq => (hK.inside q hq).inRange, fun k m hm => ?_⟩
      have hr := hmsg k m hm
      obtain ⟨hs, hb⟩ := hx.seqs k hr
      exact ⟨hr, List.pairwise_cons.mpr ⟨fun s hs => (hb s hs).1 m hm, hs⟩⟩

lemma Place.Stands.step {p p' : Place} {x : Tree α h} (hx : p.Stands src x)
    (hstep : src.Step p p') :
    ∃ (h' : ℕ) (y : Tree α h'), h = h' + 1 ∧ p'.depth = p.depth + 1 ∧ p'.Stands src y := by
  cases hstep with
  | @child ps cs b i c hn hi =>
    cases h with
    | zero =>
      rw [hx.draws] at hn
      cases hn
    | succ h =>
      induction x using Tree.succCases with
      | hn a ps' xs b' =>
        obtain ⟨cs', hn', hcs⟩ := NodeSource.draws_node.mp hx.draws
        rw [hn] at hn'
        cases hn'
        obtain ⟨hmsg, hfresh, hkids⟩ := (Tree.valid_node a).mp hx.valid
        obtain ⟨-, hpos, -, hrest⟩ := Tree.rest_node.mp hx.rest.1
        have hK := hkids.resolve_left fun h0 => by simp [h0.1] at hpos
        obtain ⟨y, hy, hdraws⟩ := drawn_child hcs hi
        obtain ⟨hvalid, hrange⟩ := hK.at hy
        have hyrest := hrest y (List.mem_of_getElem? hy)
        refine ⟨h, y, rfl, rfl, ⟨hdraws, hvalid, ⟨hyrest.rootRest, fun _ => hyrest⟩,
          fun k hk => ?_⟩⟩
        obtain ⟨hkp, hat⟩ := hrange k hk
        obtain ⟨hs, hb⟩ := hx.seqs k hkp
        have hseq :
          Place.seqs ⟨c, if i = 0 then p.lower else ps[i - 1]?, (ps[i]?).or p.upper, p.depth + 1,
            b :: p.above⟩ k = ((b.get? k).map Message.seq).toList ++ p.seqs k :=
              p.seqs_child k (c, i)
        rw [hseq]
        cases hm : b.get? k with
        | none => exact ⟨hs, fun s hs => (hb s hs).2 y hat⟩
        | some m =>
          refine ⟨List.pairwise_cons.mpr ⟨fun s hs => (hb s hs).1 m hm, hs⟩, fun s hs => ?_⟩
          rcases List.mem_cons.mp hs with rfl | hs
          · exact hfresh k m y hm hat
          · exact (hb s hs).2 y hat

lemma Place.Stands.reaches {p p' : Place} {x : Tree α h} (hx : p.Stands src x)
    (hr : src.Reaches p p') :
    ∃ (h' : ℕ) (y : Tree α h'), p'.depth + h' = p.depth + h ∧ p'.Stands src y := by
  induction hr with
  | refl => exact ⟨h, x, rfl, hx⟩
  | tail _ hstep ih =>
    obtain ⟨h', y, hd, hy⟩ := ih
    obtain ⟨h'', z, rfl, hd', hz⟩ := hy.step hstep
    exact ⟨h'', z, by omega, hz⟩

lemma NodeSource.Draws.stands {x : Tree α h} (hx : src.Draws src.root x) (hv : x.Valid none none)
    (hr : x.RootRest src.params) : src.start.Stands src x :=
  ⟨hx, hv, ⟨hr, fun h0 => absurd rfl h0⟩,
    fun k _ => ⟨List.Pairwise.nil, fun s hs => by simp [start, Place.seqs] at hs⟩⟩

/-- A valid tree at rest satisfies I1 to I7. -/
theorem NodeSource.Draws.lawful {x : Tree α h} (hx : src.Draws src.root x) (hv : x.Valid none none)
    (hr : x.RootRest src.params) : src.Lawful := by
  have hstart := hx.stands hv hr
  refine lawful_of_fine (fun p hp => ?_) fun d d' hd hd' => ?_
  · obtain ⟨h', y, -, hy⟩ := hstart.reaches hp
    exact hy.fine
  · have hleaf : ∀ d, src.LeafAt src.start d → d = src.start.depth + h := by
      rintro d ⟨p, es, hp, hn, rfl⟩
      obtain ⟨h', y, hd, hy⟩ := hstart.reaches hp
      cases h' with
      | zero => exact hd
      | succ h' =>
        obtain ⟨cs, hn', -⟩ := hy.draws
        rw [hn] at hn'
        cases hn'
    rw [hleaf d hd, hleaf d' hd']

end Draws
end Beetree
