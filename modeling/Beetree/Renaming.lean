import Beetree.Machine
import Mathlib.Data.List.Forall2

/-! Nodes that differ in the names of their children only, and the pure steps of the machinery on
them.

Names are related one to one. The machinery compares names only to find a child among its siblings,
so every step takes related nodes to related nodes. -/
namespace Beetree
open List (Forall₂)

variable (rel : NodeId → NodeId → Prop)

inductive NodeRel : Node → Node → Prop
  | leaf (entries : Entries) : NodeRel (.leaf entries) (.leaf entries)
  | internal (pivots : List Key) {cs cs' : List NodeId} (buffer : Buffer) (h : Forall₂ rel cs cs') :
      NodeRel (.internal pivots cs buffer) (.internal pivots cs' buffer)

/-- The same on the left, related on the right: a separator with its piece, say. -/
def PieceRel {κ α α' : Type} (V : α → α' → Prop) (x : κ × α) (y : κ × α') :
    Prop := x.1 = y.1 ∧ V x.2 y.2

inductive OutcomeRel : Outcome → Outcome → Prop
  | splits {l l' : List (Key × NodeId)} (h : Forall₂ (PieceRel rel) l l') :
    OutcomeRel (.splits l) (.splits l')
  | removed : OutcomeRel .removed .removed

structure FrameRel (x y : ScanFrame) : Prop where
  id : rel x.id y.id
  lo : x.lo = y.lo
  hi : x.hi = y.hi
  nextChild : x.nextChild = y.nextChild
  acc : x.acc = y.acc

/-- Functions on nodes that respect the renaming. -/
def Respects (f g : Node → Option Node) : Prop :=
  ∀ n n', NodeRel rel n n' → Option.Rel (NodeRel rel) (f n) (g n')

variable {rel}

section Lists
variable {α α' : Type} {V : α → α' → Prop} {l : List α} {l' : List α'}

lemma forall₂_getElem? (h : Forall₂ V l l') (i : ℕ) : Option.Rel V l[i]? l'[i]? := by
  induction h generalizing i with
  | nil => exact .none
  | cons ha _ ih =>
    cases i with
    | zero => exact .some ha
    | succ i => exact ih i

lemma forall₂_eraseIdx (h : Forall₂ V l l') (i : ℕ) : Forall₂ V (l.eraseIdx i) (l'.eraseIdx i) := by
  induction h generalizing i with
  | nil => exact .nil
  | cons ha hl ih =>
    cases i with
    | zero => exact hl
    | succ i => exact .cons ha (ih i)

lemma forall₂_insertIdx {a : α} {b : α'} (hab : V a b) (h : Forall₂ V l l') (i : ℕ) :
    Forall₂ V (l.insertIdx i a) (l'.insertIdx i b) := by
  induction i generalizing l l' with
  | zero => exact .cons hab h
  | succ i ih =>
    cases h with
    | nil => exact .nil
    | cons ha hl => exact .cons ha (ih hl)

lemma forall₂_slice (h : Forall₂ V l l') (i j : ℕ) : Option.Rel (Forall₂ V) (slice l i j)
    (slice l' i j) := by
  unfold slice
  rw [h.length_eq]
  split_ifs
  · exact .some (List.forall₂_drop _ (List.forall₂_take _ h))
  · exact .none

lemma forall₂_fst {l : List (Key × α)} {l' : List (Key × α')} (h : Forall₂ (PieceRel V) l l') :
    l.map Prod.fst = l'.map Prod.fst := by
  induction h with
  | nil => rfl
  | cons ha _ ih => rw [List.map_cons, List.map_cons, ha.1, ih]

lemma forall₂_snd {l : List (Key × α)} {l' : List (Key × α')} (h : Forall₂ (PieceRel V) l l') :
    Forall₂ V (l.map Prod.snd) (l'.map Prod.snd) := by
  induction h with
  | nil => exact .nil
  | cons ha _ ih => exact .cons ha.2 ih

lemma forall₂_isEmpty (h : Forall₂ V l l') : l.isEmpty = l'.isEmpty := by
  cases h <;> rfl

end Lists

lemma NodeRel.children {n n' : Node} (h : NodeRel rel n n') :
    Forall₂ rel n.children n'.children := by
  cases h with
  | leaf es => exact .nil
  | internal ps b hcs => exact hcs

lemma NodeRel.eq {n n' : Node} (h : NodeRel Eq n n') : n' = n := by
  cases h with
  | leaf es => rfl
  | internal ps b hcs =>
    rw [List.forall₂_eq_eq_eq] at hcs
    rw [hcs]

lemma NodeRel.refl (n : Node) : NodeRel Eq n n := by
  cases n with
  | leaf es => exact .leaf es
  | internal ps cs b => exact .internal ps b (by rw [List.forall₂_eq_eq_eq])

lemma Respects.eq {f g : Node → Option Node} (h : Respects Eq f g) (n : Node) : f n = g n := by
  have hn := h n n (.refl n)
  generalize f n = x at hn ⊢
  generalize g n = y at hn ⊢
  cases hn with
  | none => rfl
  | some hxy => rw [hxy.eq]

section Steps
variable {n n' : Node} {batch : Buffer}

lemma respects_receive (batch : Buffer) :
    Respects rel (fun n => some (n.receive batch)) fun n => some (n.receive batch) := by
  intro n n' h
  cases h with
  | leaf es => exact .some (.leaf _)
  | internal ps b hcs => exact .some (.internal ps _ hcs)

lemma respects_accept (key : Key) (m : Message) :
    Respects rel (fun n => some (n.accept key m)) fun n => some (n.accept key m) := by
  intro n n' h
  cases h with
  | leaf es => exact .some (.leaf _)
  | internal ps b hcs => exact .some (.internal ps _ hcs)

lemma respects_setBuffer (rest : Buffer) : Respects rel (Node.setBuffer rest)
    (Node.setBuffer rest) := by
  intro n n' h
  cases h with
  | leaf es => exact .none
  | internal ps b hcs => exact .some (.internal ps _ hcs)

lemma respects_setEntries (es : Entries) : Respects rel (Node.setEntries es)
    (Node.setEntries es) := by
  intro n n' h
  cases h with
  | leaf _ => exact .some (.leaf es)
  | internal ps b hcs => exact .none

lemma respects_setInternal {m m' : Node} (hm : NodeRel rel m m') :
    Respects rel (Node.setInternal m) (Node.setInternal m') := by
  intro n n' h
  cases h with
  | leaf _ => exact .none
  | internal ps b hcs => exact .some hm

lemma optionRel_bind {α α' β β' : Type} {V : α → α' → Prop} {W : β → β' → Prop}
    {x : Option α} {y : Option α'}
    {f : α → Option β} {g : α' → Option β'} (h : Option.Rel V x y)
    (hf : ∀ a b, V a b → Option.Rel W (f a) (g b)) :
    Option.Rel W (x >>= f) (y >>= g) := by
  cases h with
  | none => exact .none
  | some hab => exact hf _ _ hab

lemma optionRel_refl {α : Type} (x : Option α) : Option.Rel Eq x x := by
  cases x with
  | none => exact .none
  | some a => exact .some rfl

lemma integrate_rel {l l' : List (Key × NodeId)} (hl : Forall₂ (PieceRel rel) l l') (ps : List Key)
    {cs cs' : List NodeId} (hcs : Forall₂ rel cs cs') :
    Option.Rel (PieceRel (Forall₂ rel)) (integrate ps cs l) (integrate ps cs' l') := by
  induction hl generalizing ps cs cs' with
  | nil => exact .some ⟨rfl, hcs⟩
  | @cons x y l l' hxy _ ih =>
    obtain ⟨p, c⟩ := x
    obtain ⟨q, c'⟩ := y
    obtain ⟨rfl, hc⟩ : p = q ∧ rel c c' := hxy
    simp only [integrate, hcs.length_eq]
    split_ifs
    · exact ih _ (forall₂_insertIdx hc hcs _)
    · exact .none

lemma respects_integrate {l l' : List (Key × NodeId)} (hl : Forall₂ (PieceRel rel) l l') :
    Respects rel (Node.integrate l) (Node.integrate l') := by
  intro n n' h
  cases h with
  | leaf _ => exact .none
  | @internal ps cs cs' b hcs =>
    have := integrate_rel hl ps hcs
    unfold Node.integrate
    cases hi : Beetree.integrate ps cs l with
    | none =>
      rw [hi] at this
      cases hi' : Beetree.integrate ps cs' l' with
      | none => simp only [hi, hi']; exact .none
      | some y =>
        rw [hi'] at this
        cases this
    | some x =>
      rw [hi] at this
      cases hi' : Beetree.integrate ps cs' l' with
      | none =>
        rw [hi'] at this
        cases this
      | some y =>
        rw [hi'] at this
        obtain ⟨h₁, h₂⟩ : PieceRel (Forall₂ rel) x y := by
          cases this
          assumption
        simp only [hi, hi', Option.map_some]
        rw [h₁]
        exact .some (.internal _ _ h₂)

lemma findIdx?_rel (hrel : Relator.BiUnique rel) {cs cs' : List NodeId}
    (hcs : Forall₂ rel cs cs') {c c' : NodeId}
    (hc : rel c c') : cs.findIdx? (fun x => x = c) = cs'.findIdx? (fun x => x = c') := by
  induction hcs with
  | nil => rfl
  | @cons x x' l l' hx _ ih =>
    have hiff : x = c ↔ x' = c' := by
      constructor
      · rintro rfl
        exact hrel.2 hx hc
      · rintro rfl
        exact hrel.1 hx hc
    simp only [List.findIdx?_cons, ih, hiff]

lemma respects_unlink (hrel : Relator.BiUnique rel) {c c' : NodeId} (hc : rel c c') :
    Respects rel (unlink c) (unlink c') := by
  intro n n' h
  cases h with
  | leaf _ => exact .none
  | @internal ps cs cs' b hcs =>
    simp only [unlink, findIdx?_rel hrel hcs hc]
    cases cs'.findIdx? (fun x => x = c') with
    | none => exact .none
    | some i =>
      by_cases hbad : 0 < i ∧ ps.length ≤ i - 1
      · simp only [if_pos hbad]
        exact .none
      · simp only [if_neg hbad]
        exact .some (.internal _ _ (forall₂_eraseIdx hcs i))

lemma peelPiece_rel (ps : List Key) {cs cs' : List NodeId} (hcs : Forall₂ rel cs cs')
    {st st' : Buffer × List (Key × Node)} (hst : PieceRel (Forall₂ (PieceRel (NodeRel rel))) st st')
    (piece : ℕ × ℕ) : Option.Rel (PieceRel (Forall₂ (PieceRel (NodeRel rel))))
    (peelPiece ps cs st piece)
      (peelPiece ps cs' st' piece) := by
  obtain ⟨b, l⟩ := st
  obtain ⟨b', l'⟩ := st'
  obtain ⟨rfl, hl⟩ : b = b' ∧ Forall₂ (PieceRel (NodeRel rel)) l l' := hst
  obtain ⟨start, size⟩ := piece
  unfold peelPiece
  dsimp only
  split_ifs
  · exact .none
  · exact .none
  · refine optionRel_bind (optionRel_refl _) fun p _ _ => ?_
    exact .none
  · refine optionRel_bind (optionRel_refl _) ?_
    rintro p _ rfl
    refine optionRel_bind (optionRel_refl _) ?_
    rintro qs _ rfl
    refine optionRel_bind (forall₂_slice hcs _ _) fun ds ds' hds => ?_
    exact .some ⟨rfl, .cons ⟨rfl, .internal _ _ hds⟩ hl⟩

lemma foldlM_rel {α β β' : Type} {V : β → β' → Prop} {f : β → α → Option β} {g : β' → α → Option β'}
    (hf : ∀ b b' a, V b b' → Option.Rel V (f b a) (g b' a)) (l : List α) {b : β}
    {b' : β'} (hb : V b b') :
    Option.Rel V (l.foldlM f b) (l.foldlM g b') := by
  induction l generalizing b b' with
  | nil => exact .some hb
  | cons a l ih =>
    rw [List.foldlM_cons, List.foldlM_cons]
    exact optionRel_bind (hf b b' a hb) fun _ _ h => ih h

lemma internalPieces_rel (ps : List Key) {cs cs' : List NodeId}
    (hcs : Forall₂ rel cs cs') (b : Buffer)
    (sizes : List ℕ) :
    Option.Rel (fun x y => NodeRel rel x.1 y.1 ∧ Forall₂ (PieceRel (NodeRel rel)) x.2 y.2)
      (internalPieces ps cs b sizes) (internalPieces ps cs' b sizes) := by
  refine optionRel_bind (optionRel_refl _) ?_
  rintro first _ rfl
  refine optionRel_bind (foldlM_rel (fun st st' piece hst => peelPiece_rel ps hcs hst piece)
    _ ⟨rfl, .nil⟩) ?_
  rintro ⟨b₁, l⟩ ⟨b₁', l'⟩ ⟨hb, hl⟩
  obtain rfl : b₁ = b₁' := hb
  dsimp only
  split_ifs
  · exact .none
  refine optionRel_bind (optionRel_refl _) ?_
  rintro qs _ rfl
  exact optionRel_bind (forall₂_slice hcs _ _) fun ds ds' hds => .some ⟨.internal _ _ hds, hl⟩

lemma leaf_of_mapM {l : List Entries} {l' : List (Key × Node)}
    (h : l.mapM (fun piece => piece.toList.head?.map fun x => (x.1, Node.leaf piece)) = some l') :
    ∀ x ∈ l', ∃ piece, x.2 = .leaf piece := by
  induction l generalizing l' with
  | nil =>
    cases h
    simp
  | cons piece l ih =>
    rw [List.mapM_cons] at h
    obtain ⟨y, hy, h⟩ := Option.bind_eq_some_iff.mp h
    obtain ⟨ys, hys, h⟩ := Option.bind_eq_some_iff.mp h
    cases h
    obtain ⟨z, -, rfl⟩ := Option.map_eq_some_iff.mp hy
    intro x hx
    rcases List.mem_cons.mp hx with rfl | hx
    · exact ⟨piece, rfl⟩
    · exact ih hys x hx

end Steps

/-- A one-to-one naming under which nodes allocated in step have matching names. -/
structure Renaming where
  rel : NodeId → NodeId → Prop
  left : NodeId
  right : NodeId
  unique : Relator.BiUnique rel
  fresh : ∀ k, rel (left + k) (right + k)

def Renaming.same : Renaming where
  rel := Eq
  left := 0
  right := 0
  unique := ⟨fun _ _ _ h h' => h.trans h'.symm, fun _ _ _ h h' => h.symm.trans h'⟩
  fresh _ := rfl

/-- A node yet to be allocated has one name only. -/
lemma Renaming.rel_fresh (ρ : Renaming) {j k : ℕ} : ρ.rel (ρ.left + k) j ↔ j = ρ.right + k :=
  ⟨fun h => ρ.unique.2 h (ρ.fresh k), fun h => h ▸ ρ.fresh k⟩

end Beetree
