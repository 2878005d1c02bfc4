import Beetree.Routing

/-! Splits cut an overfull node into pieces that fit. -/
namespace Beetree

section Sizes

lemma partitionSizesAux_spec {fuel n cap : ℕ} (hc : 1 ≤ cap) (hf : n ≤ fuel) (hn : 1 ≤ n) :
    (partitionSizesAux fuel n cap).sum = n ∧ partitionSizesAux fuel n cap ≠ [] ∧
      ∀ s ∈ partitionSizesAux fuel n cap, 1 ≤ s ∧ s ≤ cap := by
  induction fuel generalizing n with
  | zero => omega
  | succ fuel ih =>
    simp only [partitionSizesAux]
    split_ifs with h
    · exact ⟨by simp, by simp, by simpa using ⟨hn, h⟩⟩
    · obtain ⟨s₁, n₁, b₁⟩ := ih (n := n / 2) (by omega) (by omega)
      obtain ⟨s₂, -, b₂⟩ := ih (n := n - n / 2) (by omega) (by omega)
      refine ⟨by rw [List.sum_append, s₁, s₂]; omega, by simp [n₁], fun s hs => ?_⟩
      rcases List.mem_append.mp hs with hs | hs
      · exact b₁ s hs
      · exact b₂ s hs

lemma partitionSizes_spec {n cap : ℕ} (hc : 1 ≤ cap) (hn : 1 ≤ n) :
    (partitionSizes n cap).sum = n ∧ partitionSizes n cap ≠ [] ∧
      ∀ s ∈ partitionSizes n cap, 1 ≤ s ∧ s ≤ cap :=
  partitionSizesAux_spec hc le_rfl hn

lemma partitionSizesAux_length {fuel n cap : ℕ} (hc : 2 ≤ cap) (hf : n ≤ fuel) :
    (1 ≤ n → (partitionSizesAux fuel n cap).length ≤ n) ∧
    (2 ≤ n → (partitionSizesAux fuel n cap).length < n) := by
  induction fuel generalizing n with
  | zero => omega
  | succ fuel ih =>
    simp only [partitionSizesAux]
    split_ifs with h
    · simp only [List.length_singleton]
      omega
    · have h₁ := (ih (n := n / 2) (by omega)).1
      have h₂ := (ih (n := n - n / 2) (by omega)).2
      rw [List.length_append]
      omega

/-- Cutting into pieces of two or more gives fewer pieces than there were parts. -/
lemma partitionSizes_length {n cap : ℕ} (hc : 2 ≤ cap) (hn : 2 ≤ n) :
    (partitionSizes n cap).length < n :=
  (partitionSizesAux_length hc le_rfl).2 hn

/-- The calls of `partition_sizes` under one cap and what each returns: a derivation is a run that
ends. -/
inductive PartitionsTo (cap : ℕ) : ℕ → List ℕ → Prop
  | whole {n : ℕ} (h : n ≤ cap) : PartitionsTo cap n [n]
  | halves {n : ℕ} {l r : List ℕ} (h : cap < n) (hl : PartitionsTo cap (n / 2) l)
      (hr : PartitionsTo cap (n - n / 2) r) : PartitionsTo cap n (l ++ r)

lemma partitionSizesAux_partitionsTo {fuel n cap : ℕ} (hc : 1 ≤ cap) (hf : n ≤ fuel) :
    PartitionsTo cap n (partitionSizesAux fuel n cap) := by
  induction fuel generalizing n with
  | zero => exact .whole (by omega)
  | succ fuel ih =>
    simp only [partitionSizesAux]
    split_ifs with h
    · exact .whole h
    · exact .halves (by omega) (ih (by omega)) (ih (by omega))

/-- An overfull collection is never cut below half of the cap. -/
lemma PartitionsTo.half_full {cap n : ℕ} {l : List ℕ} (h : PartitionsTo cap n l)
    (hn : (cap + 1) / 2 ≤ n) :
    ∀ s ∈ l, (cap + 1) / 2 ≤ s := by
  induction h with
  | whole _ => simpa using hn
  | halves hlt _ _ ihl ihr =>
    intro s hs
    rcases List.mem_append.mp hs with hs | hs
    · exact ihl (by omega) s hs
    · exact ihr (by omega) s hs

/-- The halving ends, loses nothing and keeps its pieces balanced. -/
theorem partitionSizes_balanced (n cap : ℕ) (hn : 1 ≤ n) (hc : 1 ≤ cap) :
    PartitionsTo cap n (partitionSizes n cap) ∧ (partitionSizes n cap).sum = n ∧
      (∀ s ∈ partitionSizes n cap, 1 ≤ s ∧ s ≤ cap) ∧
      (cap < n → ∀ s ∈ partitionSizes n cap, (cap + 1) / 2 ≤ s) ∧
      (2 ≤ cap → cap < n → (partitionSizes n cap).length < n) := by
  obtain ⟨hsum, -, hsz⟩ := partitionSizes_spec hc hn
  have hrun : PartitionsTo cap n (partitionSizes n cap) := partitionSizesAux_partitionsTo hc le_rfl
  refine ⟨hrun, hsum, hsz, fun hlt => ?_, fun h2 hlt => ?_⟩
  · exact hrun.half_full (by omega)
  · exact partitionSizes_length h2 (by omega)

/-- Three pieces of the smallest cap that lets a root grow: the count drops by one only. -/
theorem partitionSizes_balanced_three : partitionSizes 3 2 = [1, 2] ∧
    (∀ s ∈ partitionSizes 3 2, 1 ≤ s ∧ s ≤ 2) ∧ (partitionSizes 3 2).length < 3 :=
  ⟨by decide, (partitionSizes_balanced 3 2 (by decide) (by decide)).2.2.1,
    (partitionSizes_balanced 3 2 (by decide) (by decide)).2.2.2.2 (by decide) (by decide)⟩

end Sizes

namespace OrdMap
variable {κ ν : Type} [LinearOrder κ]

lemma eq_of_toList {a b : OrdMap κ ν} (h : a.toList = b.toList) : a = b := by
  cases a
  cases b
  simpa using h

lemma toList_ofList {l : List (κ × ν)} (hl : l.Pairwise (fun a b => a.1 < b.1)) :
    (ofList l).toList = l := by
  have := ofList_toList (⟨l, hl⟩ : OrdMap κ ν)
  exact congrArg toList this

/-- Cutting the listing of a map in two cuts the map at the first key of the right part. -/
lemma filter_of_append {m : OrdMap κ ν} {l r : List (κ × ν)} {p : κ} {v : ν}
    (h : m.toList = l ++ (p, v) :: r) {f g : κ → Bool} (hf : ∀ k, f k = true ↔ k < p)
    (hg : ∀ k, g k = true ↔ p ≤ k) :
    (m.filter f).toList = l ∧ (m.filter g).toList = (p, v) :: r := by
  have hs := m.sorted
  rw [h] at hs
  obtain ⟨-, hr, hlr⟩ := List.pairwise_append.mp hs
  have hlp : ∀ x ∈ l, x.1 < p := fun x hx => hlr x hx (p, v) (by simp)
  have hpr : ∀ x ∈ (p, v) :: r, p ≤ x.1 := by
    intro x hx
    rcases List.mem_cons.mp hx with rfl | hx
    · exact le_rfl
    · exact ((List.pairwise_cons.mp hr).1 x hx).le
  simp only [filter, h, List.filter_append]
  constructor
  · rw [List.filter_eq_self.mpr fun x hx => (hf x.1).mpr (hlp x hx),
      List.filter_eq_nil_iff.mpr fun x hx => (hf x.1).not.mpr (not_lt.mpr (hpr x hx)),
        List.append_nil]
  · rw [List.filter_eq_nil_iff.mpr fun x hx => (hg x.1).not.mpr (not_le.mpr (hlp x hx)),
      List.filter_eq_self.mpr fun x hx => (hg x.1).mpr (hpr x hx), List.nil_append]

end OrdMap

lemma leafPieces_spec {sizes : List ℕ} (hne : sizes ≠ []) (hpos : ∀ s ∈ sizes, 1 ≤ s) {es : Entries}
    (hsum : sizes.sum = es.size) :
    ∃ (ps : List Key) (x : Entries) (xs : List Entries), leafPieces sizes es.toList = x :: xs ∧
      ps.length = xs.length ∧ Body.Pieces (Body.leaf es) ps ((x :: xs).map Body.leaf) ∧
      xs.mapM (fun piece => piece.toList.head?.map fun x => (x.1, Node.leaf piece)) =
        some (ps.zip (xs.map Node.leaf)) ∧
      ∀ y ∈ x :: xs, y.size ∈ sizes := by
  induction sizes generalizing es with
  | nil => exact absurd rfl hne
  | cons s sizes ih =>
    have hs : 1 ≤ s := hpos s (by simp)
    have hsorted := es.sorted
    cases sizes with
    | nil =>
      have hlen : s = es.toList.length := by simpa [OrdMap.size] using hsum
      have hx : OrdMap.ofList (es.toList.take s) = es := by
        rw [hlen, List.take_length, OrdMap.ofList_toList]
      refine ⟨[], es, [], ?_, rfl, Body.Pieces.one _, rfl, ?_⟩
      · simp [leafPieces, hx]
      · simp [OrdMap.size, hlen]
    | cons s' sizes =>
      have hlt : s < es.toList.length := by
        have h₁ : 1 ≤ s' := hpos s' (by simp)
        have h₂ : s + (s' + sizes.sum) = es.toList.length := by simpa [OrdMap.size] using hsum
        omega
      obtain ⟨p, v, r, hr⟩ : ∃ p v r, es.toList.drop s = (p, v) :: r := by
        rw [List.drop_eq_getElem_cons hlt]
        exact ⟨_, _, _, rfl⟩
      have happ : es.toList = es.toList.take s ++ (p, v) :: r := by
        rw [← hr, List.take_append_drop]
      have hcut := OrdMap.filter_of_append happ (f := fun k => k < p) (g := fun k => p ≤ k)
        (fun k => decide_eq_true_iff) (fun k => decide_eq_true_iff)
      obtain ⟨hl, hright⟩ := hcut
      have hleft : OrdMap.ofList (es.toList.take s) = es.filter (fun k => k < p) :=
        OrdMap.eq_of_toList (by
          rw [hl, OrdMap.toList_ofList (hsorted.sublist (List.take_sublist _ _))])
      have hrsize : (es.filter (fun k => p ≤ k)).size = es.size - s := by
        simp [OrdMap.size, hright, ← hr]
      have hsum' : (s' :: sizes).sum = (es.filter (fun k => p ≤ k)).size := by
        simp only [List.sum_cons] at hsum ⊢
        omega
      obtain ⟨ps, x, xs, hp, hlen, hpieces, hmap, hsz⟩ :=
        ih (by simp) (fun t ht => hpos t (by simp [ht])) hsum'
      rw [hright, ← hr] at hp
      have hxl : x.toList.head? = some (p, v) := by
        have : x = OrdMap.ofList ((es.toList.drop s).take s') := by
          simp only [leafPieces, List.cons.injEq] at hp
          exact hp.1.symm
        have h₁ : 1 ≤ s' := hpos s' (by simp)
        rw [this, OrdMap.toList_ofList
          ((hsorted.sublist (List.drop_sublist _ _)).sublist (List.take_sublist _ _)), hr]
        obtain ⟨n, rfl⟩ : ∃ n, s' = n + 1 := ⟨s' - 1, by omega⟩
        rfl
      refine ⟨p :: ps, es.filter (fun k => k < p), x :: xs, ?_, by simp [hlen], ?_, ?_, ?_⟩
      · rw [leafPieces, hp, hleft]
      · refine Body.Pieces.cut ⟨rfl, rfl, ?_, ?_⟩ hpieces
        · change 0 < (es.filter (fun k => k < p)).toList.length
          rw [hl, List.length_take]
          omega
        · change (es.get? p).isSome
          rw [OrdMap.mem_toList.mp (show (p, v) ∈ es.toList by rw [happ]; simp)]
          rfl
      · simp [List.mapM_cons, hxl, hmap]
      · intro y hy
        rcases List.mem_cons.mp hy with rfl | hy
        · have : (es.filter (fun k => k < p)).size = s := by
            simp only [OrdMap.size, hl, List.length_take]
            omega
          simp [this]
        · exact List.mem_cons_of_mem _ (hsz y hy)

def Body.toNode {h : ℕ} (x : Body h) : Node :=
  match h, x with
  | 0, es => .leaf es
  | _ + 1, x => .internal x.pivots (x.children.map Cell.id) x.buffer

@[simp] lemma Body.toNode_leaf (es : Entries) : (Body.leaf es).toNode = .leaf es := rfl

@[simp] lemma Body.toNode_node {h : ℕ} (ps : List Key) (cs : List (Live h)) (b : Buffer) :
    (Body.node ps cs b).toNode = .internal ps (cs.map Cell.id) b := rfl

lemma slice_eq {α : Type} {xs : List α} {i n : ℕ} (h : i + n ≤ xs.length) :
    slice xs i (i + n) = some ((xs.drop i).take n) := by
  rw [slice, if_pos ⟨by omega, h⟩, List.drop_take]
  simp

lemma drop_eq_append {α : Type} (xs : List α) (i n : ℕ) :
    xs.drop i = (xs.drop i).take n ++ xs.drop (i + n) := by
  rw [← List.drop_drop, List.take_append_drop]

section Internal
variable {h : ℕ} {ps : List Key} {cs : List (Live h)} {b : Buffer}

/-- The part of an internal node from child `i` on. -/
def Body.from (ps : List Key) (cs : List (Live h)) (b : Buffer) (i : ℕ) (p : Key) : Body (h + 1) :=
  Body.node (ps.drop i) (cs.drop i) (b.filter (fun k => p ≤ k))

lemma peelPiece_eq {st : Buffer × List (Key × Node)} {i n : ℕ} {p : Key} (hp : ps[i]? = some p)
    (hn : i + 1 + n ≤ ps.length) (hl : cs.length = ps.length + 1) :
    peelPiece ps (cs.map Cell.id) st (i + 1, n + 1) =
      some (st.1.filter (fun k => k < p),
        (p, (Body.node ((ps.drop (i + 1)).take n) ((cs.drop (i + 1)).take (n + 1))
          (st.1.filter (fun k => p ≤ k))).toNode) :: st.2) := by
  have h₁ : slice ps (i + 1) (i + 1 + (n + 1) - 1) = some ((ps.drop (i + 1)).take n) := slice_eq hn
  have h₂ : slice (cs.map Cell.id) (i + 1) (i + 1 + (n + 1)) =
      some (((cs.map Cell.id).drop (i + 1)).take (n + 1)) := slice_eq (by simp; omega)
  simp only [peelPiece, Nat.add_sub_cancel, hp, h₁, h₂, bind, Option.bind,
    Nat.succ_ne_zero, if_false,
    Body.toNode_node, List.map_take, List.map_drop]

/-- Peeling from the right cuts the right part of the node into its pieces. -/
lemma peel_spec {sizes : List ℕ} (hne : sizes ≠ []) (hpos : ∀ s ∈ sizes, 1 ≤ s) {i : ℕ} {p : Key}
    (hp : ps[i]? = some p) (hs : ps.Pairwise (· < ·)) (hl : cs.length = ps.length + 1)
    (hsum : i + 1 + sizes.sum = cs.length) :
    ∃ (qs : List Key) (x : Body (h + 1)) (xs : List (Body (h + 1))), qs.length = xs.length ∧
      Body.Pieces (Body.from ps cs b i.succ p) qs (x :: xs) ∧
      (pieceStarts (i + 1) sizes).foldrM (fun piece st => peelPiece ps (cs.map Cell.id) st piece)
        (b, []) = some (b.filter (fun k => k < p), (p :: qs).zip ((x :: xs).map Body.toNode)) ∧
      (x :: xs).map (fun y => y.kids.length) = sizes := by
  induction sizes generalizing i p with
  | nil => exact absurd rfl hne
  | cons s sizes ih =>
    obtain ⟨n, rfl⟩ : ∃ n, s = n + 1 := ⟨s - 1, by have := hpos s (by simp); omega⟩
    simp only [pieceStarts, List.foldrM_cons]
    cases sizes with
    | nil =>
      have hn : i + 1 + n = ps.length := by
        simp only [List.sum_cons, List.sum_nil] at hsum
        omega
      have ht₁ : (ps.drop (i + 1)).take n = ps.drop (i + 1) :=
        List.take_of_length_le (by simp; omega)
      have ht₂ : (cs.drop (i + 1)).take (n + 1) = cs.drop (i + 1) :=
        List.take_of_length_le (by simp; omega)
      refine ⟨[], Body.from ps cs b (i + 1) p, [], rfl, Body.Pieces.one _, ?_, ?_⟩
      · simp only [pieceStarts, List.foldrM_nil, pure_bind]
        rw [peelPiece_eq hp hn.le hl, ht₁, ht₂]
        rfl
      · have : (Body.from ps cs b (i + 1) p).kids.length = n + 1 := by
          change (cs.drop (i + 1)).length = n + 1
          simp only [List.length_drop]
          omega
        simp [this]
    | cons s' sizes =>
      have hs' : 1 ≤ s' := hpos s' (by simp)
      have hlt : i + 1 + n < ps.length := by
        simp only [List.sum_cons] at hsum
        omega
      obtain ⟨q, hq⟩ : ∃ q, ps[i + 1 + n]? = some q := ⟨_, List.getElem?_eq_getElem hlt⟩
      have hpq : p < q := by
        obtain ⟨ha, rfl⟩ := List.getElem_of_getElem? hp
        obtain ⟨hb, rfl⟩ := List.getElem_of_getElem? hq
        exact List.pairwise_iff_getElem.mp hs i (i + 1 + n) ha hb (by omega)
      obtain ⟨qs, x, xs, hlen, hpieces, hfold, hsz⟩ := ih (by simp)
        (fun t ht => hpos t (by simp [ht]))
        hq (by simp only [List.sum_cons] at hsum ⊢; omega)
      refine ⟨q :: qs, Body.node ((ps.drop (i + 1)).take n) ((cs.drop (i + 1)).take (n + 1))
        ((b.filter (fun k => k < q)).filter (fun k => p ≤ k)), x :: xs, by simp [hlen], ?_, ?_, ?_⟩
      · refine Body.Pieces.cut (r := Body.from ps cs b (i + 1 + n + 1) q) ⟨?_, ?_,
          ?_, ?_, ?_⟩ hpieces
        · change ps.drop (i + 1) = (ps.drop (i + 1)).take n ++ q :: ps.drop (i + 1 + n + 1)
          obtain ⟨hb, rfl⟩ := List.getElem_of_getElem? hq
          rw [List.cons_getElem_drop_succ]
          exact drop_eq_append ps (i + 1) n
        · change cs.drop (i + 1) = (cs.drop (i + 1)).take (n + 1) ++ cs.drop (i + 1 + n + 1)
          exact drop_eq_append cs (i + 1) (n + 1)
        · change ((cs.drop (i + 1)).take (n + 1)).length = ((ps.drop (i + 1)).take n).length + 1
          simp only [List.length_take, List.length_drop]
          omega
        · change (b.filter (fun k => k < q)).filter (fun k => p ≤ k) =
            (b.filter (fun k => p ≤ k)).filter (fun k => k < q)
          ext1 k
          by_cases h₁ : p ≤ k <;> by_cases h₂ : k < q <;> simp [h₁, h₂]
        · change b.filter (fun k => q ≤ k) = (b.filter (fun k => p ≤ k)).filter (fun k => q ≤ k)
          ext1 k
          by_cases h₁ : q ≤ k
          · simp [h₁, hpq.le.trans h₁]
          · simp [h₁]
      · rw [show i + 1 + (n + 1) = i + 1 + n + 1 by omega, hfold]
        simp only [Option.bind_eq_bind, Option.bind_some]
        rw [peelPiece_eq hp hlt.le hl]
        have hb : (b.filter (fun k => k < q)).filter (fun k => k < p) = b.filter (fun k => k <
          p) := by
          ext1 k
          by_cases h₁ : k < p
          · simp [h₁, h₁.trans hpq]
          · simp [h₁]
        simp [hb]
      · have : (Body.kids (Body.node ((ps.drop (i + 1)).take n) ((cs.drop (i + 1)).take (n + 1))
            ((b.filter (fun k => k < q)).filter (fun k => p ≤ k)))).length = n + 1 := by
          change ((cs.drop (i + 1)).take (n + 1)).length = n + 1
          simp only [List.length_take, List.length_drop]
          omega
        rw [List.map_cons, this, hsz]

/-- An internal node's pieces, the promoted pivots belonging to neither side. -/
lemma internalPieces_spec {sizes : List ℕ} (hne : sizes ≠ []) (hpos : ∀ s ∈ sizes, 1 ≤ s)
    (hs : ps.Pairwise (· < ·)) (hl : cs.length = ps.length + 1) (hsum : sizes.sum = cs.length) :
    ∃ (qs : List Key) (x : Body (h + 1)) (xs : List (Body (h + 1))), qs.length = xs.length ∧
      Body.Pieces (Body.node ps cs b) qs (x :: xs) ∧
      internalPieces ps (cs.map Cell.id) b sizes = some (x.toNode, qs.zip (xs.map Body.toNode)) ∧
      (x :: xs).map (fun y => y.kids.length) = sizes := by
  cases sizes with
  | nil => exact absurd rfl hne
  | cons s sizes =>
    obtain ⟨n, rfl⟩ : ∃ n, s = n + 1 := ⟨s - 1, by have := hpos s (by simp); omega⟩
    have hfirst : n + 1 ≤ cs.length := by
      simp only [List.sum_cons] at hsum
      omega
    have h₁ : slice ps 0 (n + 1 - 1) = some (ps.take n) := by
      have := slice_eq (show 0 + n ≤ ps.length by omega)
      simpa using this
    have h₂ : slice (cs.map Cell.id) 0 (n + 1) = some ((cs.map Cell.id).take (n + 1)) := by
      have := slice_eq (show 0 + (n + 1) ≤ (cs.map Cell.id).length by simpa using hfirst)
      simpa using this
    simp only [internalPieces, pieceStarts, List.head?_cons, List.tail_cons,
      List.foldlM_reverse, bind,
      Option.bind, Nat.succ_ne_zero, if_false, h₁, h₂, Nat.zero_add]
    cases sizes with
    | nil =>
      have hn : n = ps.length := by
        simp only [List.sum_cons, List.sum_nil] at hsum
        omega
      refine ⟨[], Body.node ps cs b, [], rfl, Body.Pieces.one _, ?_, ?_⟩
      · simp [pieceStarts, hn, ← hl]
      · have : (Body.node ps cs b).kids.length = n + 1 := by
          change cs.length = n + 1
          omega
        simp [this]
    | cons s' sizes =>
      have hs' : 1 ≤ s' := hpos s' (by simp)
      have hlt : n < ps.length := by
        simp only [List.sum_cons] at hsum
        omega
      obtain ⟨p, hp⟩ : ∃ p, ps[n]? = some p := ⟨_, List.getElem?_eq_getElem hlt⟩
      obtain ⟨qs, x, xs, hlen, hpieces, hfold, hsz⟩ := peel_spec (b := b) (by simp)
        (fun t ht => hpos t (List.mem_cons_of_mem _ ht)) hp hs hl
        (by simp only [List.sum_cons] at hsum ⊢; omega)
      refine ⟨p :: qs, Body.node (ps.take n) (cs.take (n + 1)) (b.filter (fun k => k < p)), x :: xs,
        by simp [hlen], ?_, ?_, ?_⟩
      · refine Body.Pieces.cut (r := Body.from ps cs b (n + 1) p) ⟨?_, ?_, ?_, rfl, rfl⟩ hpieces
        · change ps = ps.take n ++ p :: ps.drop (n + 1)
          obtain ⟨hb, rfl⟩ := List.getElem_of_getElem? hp
          rw [List.cons_getElem_drop_succ, List.take_append_drop]
        · exact (List.take_append_drop _ _).symm
        · change (cs.take (n + 1)).length = (ps.take n).length + 1
          simp only [List.length_take]
          omega
      · rw [hfold]
        simp
      · have : (Body.kids (Body.node (ps.take n) (cs.take (n + 1))
          (b.filter (fun k => k < p)))).length =
            n + 1 := by
          change (cs.take (n + 1)).length = n + 1
          simp only [List.length_take]
          omega
        rw [List.map_cons, this, hsz]

end Internal
end Beetree
