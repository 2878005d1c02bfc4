import Beetree.Check
import Beetree.Tree

/-! The checker accepts exactly the trees that satisfy I1 to I7. -/
namespace Beetree

/-- A node where the walk meets it: the range it owns, its depth, and the buffers above it, nearest
first. -/
structure Place where
  id : NodeId
  lower : Option Key
  upper : Option Key
  depth : ℕ
  above : List Buffer

/-- The numbers of the messages for a key above a place, nearest first. -/
def Place.seqs (p : Place) (k : Key) : List UInt64 := p.above.filterMap fun b =>
    (b.get? k).map Message.seq

namespace NodeSource
variable (src : NodeSource)

/-- The nodes below a name form a finite tree. -/
inductive Grown : NodeId → Prop
  | leaf {id : NodeId} {es : Entries} : src.node id = some (.leaf es) → Grown id
  | internal {id : NodeId} {ps : List Key} {cs : List NodeId} {b : Buffer} :
      src.node id = some (.internal ps cs b) → (∀ c ∈ cs, Grown c) → Grown id

def start : Place := ⟨src.root, none, none, 1, []⟩

inductive Step : Place → Place → Prop
  | child {p : Place} {ps : List Key} {cs : List NodeId} {b : Buffer} {i : ℕ} {c : NodeId} :
      src.node p.id = some (.internal ps cs b) → cs[i]? = some c →
      Step p ⟨c, if i = 0 then p.lower else ps[i - 1]?, (ps[i]?).or p.upper,
        p.depth + 1, b :: p.above⟩

abbrev Reaches : Place → Place → Prop := Relation.ReflTransGen src.Step

def Fine (p : Place) : Prop :=
  match src.node p.id with
  | none => False
  | some (.leaf es) =>
    es.size ≤ src.params.leafCapacity.toNat ∧ (p.id ≠ src.root → es ≠ OrdMap.empty) ∧
      ∀ k e, es.get? k = some e → InRange p.lower p.upper k ∧ (e.seq :: p.seqs k).Pairwise (· < ·)
  | some (.internal ps cs b) => ps.Pairwise (· < ·) ∧ cs.length = ps.length + 1 ∧
      cs.length ≤ src.params.fanout.toNat ∧ b.size ≤ src.params.bufferCapacity.toNat ∧
      (∀ q ∈ ps, InRange p.lower p.upper q) ∧
      ∀ k m, b.get? k = some m → InRange p.lower p.upper k ∧ (m.seq :: p.seqs k).Pairwise (· < ·)

end NodeSource

section Keys
variable {id : NodeId} {lower upper : Option Key} {newest : OrdMap Key UInt64}

lemma keyInRange_iff {k : Key} : keyInRange k lower upper = true ↔ InRange lower upper k := by
  cases lower <;> cases upper <;> simp [keyInRange, InRange]

lemma checkKeys_eq_none {l : List (Key × UInt64)} : checkKeys id lower upper newest l = none ↔
    ∀ x ∈ l, InRange lower upper x.1 ∧ ∀ a, newest.get? x.1 = some a → x.2 < a := by
  induction l with
  | nil => simp [checkKeys]
  | cons x l ih =>
    obtain ⟨key, seq⟩ := x
    rw [checkKeys, List.forall_mem_cons, ← ih]
    by_cases hk : keyInRange key lower upper = true
    · rw [if_pos hk]
      rw [keyInRange_iff] at hk
      cases hn : newest.get? key with
      | none => simp [hk]
      | some a =>
        by_cases ha : a ≤ seq
        · simp [ha]
        · simp [ha, hk, UInt64.not_le.mp ha]
    · rw [if_neg hk]
      rw [keyInRange_iff] at hk
      simp [hk]

lemma checkPivotOrder_eq_none {i : ℕ} {ps : List Key} :
    checkPivotOrder id i ps = none ↔ ps.Pairwise (· < ·) := by
  induction ps generalizing i with
  | nil => simp [checkPivotOrder]
  | cons p ps ih =>
    cases ps with
    | nil => simp [checkPivotOrder]
    | cons q ps =>
      rw [checkPivotOrder]
      by_cases hpq : q ≤ p
      · simp only [hpq, if_true, reduceCtorEq, false_iff]
        intro h
        exact absurd (List.rel_of_pairwise_cons h (by simp)) (not_lt.mpr hpq)
      · rw [if_neg hpq, ih]
        refine ⟨fun h => List.pairwise_cons.mpr ⟨fun x hx => ?_, h⟩, fun h => h.of_cons⟩
        rcases List.mem_cons.mp hx with rfl | hx
        · exact not_le.mp hpq
        · exact (not_le.mp hpq).trans (List.rel_of_pairwise_cons h hx)

lemma checkPivotRange_eq_none {ps : List Key} :
    checkPivotRange id lower upper ps = none ↔ ∀ q ∈ ps, InRange lower upper q := by
  simp [checkPivotRange, keyInRange_iff]

lemma pairwise_cons_head {s : UInt64} {l : List UInt64} (hl : l.Pairwise (· < ·)) :
    (s :: l).Pairwise (· < ·) ↔ ∀ a, l.head? = some a → s < a := by
  cases l with
  | nil => simp
  | cons b l =>
    simp only [List.head?_cons, Option.some.injEq, forall_eq']
    refine ⟨fun h => List.rel_of_pairwise_cons h (by simp),
      fun h => List.pairwise_cons.mpr ⟨fun x hx => ?_, hl⟩⟩
    rcases List.mem_cons.mp hx with rfl | hx
    · exact h
    · exact UInt64.lt_trans h (List.rel_of_pairwise_cons hl hx)

lemma undoOverlay_applyOverlay (overlay : List (Key × UInt64)) (newest : OrdMap Key UInt64) :
    undoOverlay (applyOverlay overlay newest).2 (applyOverlay overlay newest).1 = newest := by
  induction overlay generalizing newest with
  | nil => rfl
  | cons x overlay ih =>
    obtain ⟨key, seq⟩ := x
    have hrec := ih (newest.insert key seq)
    simp only [applyOverlay, undoOverlay, List.foldr_cons] at hrec ⊢
    rw [hrec]
    ext1 k
    by_cases hk : k = key
    · subst hk
      cases hn : newest.get? k <;> simp
    · cases hn : newest.get? key <;> simp [hk]

lemma applyOverlay_fst (overlay : List (Key × UInt64)) (newest : OrdMap Key UInt64) :
    (applyOverlay overlay newest).1 = overlay.foldl (fun m x => m.insert x.1 x.2) newest := by
  induction overlay generalizing newest with
  | nil => rfl
  | cons x overlay ih => exact ih _

def overlayOf (o : Buffer) : List (Key × UInt64) := o.toList.map fun x => (x.1, x.2.seq)

lemma get?_applyOverlay (o : Buffer) (newest : OrdMap Key UInt64) (k : Key) :
    (applyOverlay (overlayOf o) newest).1.get? k =
      ((o.get? k).map Message.seq).or (newest.get? k) := by
  have hsorted : (overlayOf o).Pairwise (fun a b => a.1 < b.1) := by
    rw [overlayOf, List.pairwise_map]
    exact o.sorted
  have hfind : ∀ l : List (Key × Message), OrdMap.find (l.map fun x => (x.1, x.2.seq)) k =
      (OrdMap.find l k).map Message.seq := by
    intro l
    induction l with
    | nil => rfl
    | cons y l ih =>
      simp only [List.map_cons, OrdMap.find, ih]
      split_ifs <;> rfl
  rw [applyOverlay_fst, OrdMap.find_foldl_insert _ hsorted, overlayOf, hfind]
  rfl

end Keys

section Node
variable {src : NodeSource} {p : Place} {newest : OrdMap Key UInt64}

/-- The map of newest numbers is right for the keys a place owns. -/
structure Place.Tracked (p : Place) (newest : OrdMap Key UInt64) : Prop where
  newest : ∀ k, InRange p.lower p.upper k → newest.get? k = (p.seqs k).head?
  older : ∀ k, InRange p.lower p.upper k → (p.seqs k).Pairwise (· < ·)
  ordered : ∀ l ∈ p.lower, ∀ u ∈ p.upper, l ≤ u

lemma Place.Tracked.seq_iff (hp : p.Tracked newest) {k : Key} (s : UInt64) :
    (InRange p.lower p.upper k ∧ ∀ a, newest.get? k = some a → s < a) ↔
      InRange p.lower p.upper k ∧ (s :: p.seqs k).Pairwise (· < ·) := by
  refine and_congr_right fun hk => ?_
  rw [hp.newest k hk, pairwise_cons_head (hp.older k hk)]

lemma checkLeaf_eq_none (hp : p.Tracked newest) {es : Entries}
    (hn : src.node p.id = some (.leaf es)) :
    checkLeaf src p.id p.lower p.upper newest es = none ↔ src.Fine p := by
  have hkeys :
    checkKeys p.id p.lower p.upper newest (es.toList.map fun x => (x.1, x.2.seq)) = none ↔
      ∀ k e, es.get? k = some e → InRange p.lower p.upper k ∧
        (e.seq :: p.seqs k).Pairwise (· < ·) := by
    rw [checkKeys_eq_none, List.forall_mem_map]
    refine ⟨fun h k e he => (hp.seq_iff e.seq).mp (h (k, e) (OrdMap.mem_toList.mpr he)),
      fun h x hx => ?_⟩
    exact (hp.seq_iff x.2.seq).mpr (h x.1 x.2 (OrdMap.mem_toList.mp hx))
  simp only [NodeSource.Fine, hn, ← hkeys, checkLeaf]
  by_cases hcap : src.params.leafCapacity.toNat < es.size
  · simp [hcap]
  · by_cases hempty : (es.isEmpty && decide (p.id ≠ src.root)) = true
    · rw [if_neg hcap, if_pos hempty]
      simp only [Bool.and_eq_true, OrdMap.isEmpty_iff, decide_eq_true_eq] at hempty
      simp [hempty]
    · rw [if_neg hcap, if_neg hempty]
      have hne : p.id ≠ src.root → es ≠ OrdMap.empty := by
        rintro hid rfl
        exact hempty (by simp [hid, OrdMap.isEmpty, OrdMap.toList_empty])
      exact ⟨fun h => ⟨not_lt.mp hcap, hne, h⟩, fun h => h.2.2⟩

lemma checkInternal_eq_none (hp : p.Tracked newest) {ps : List Key} {cs : List NodeId} {b : Buffer}
    (hn : src.node p.id = some (.internal ps cs b)) :
    checkInternal src p.id p.lower p.upper newest ps cs b = none ↔ src.Fine p := by
  have hkeys : checkKeys p.id p.lower p.upper newest (b.toList.map fun x => (x.1, x.2.seq)) = none ↔
      ∀ k m, b.get? k = some m → InRange p.lower p.upper k ∧
        (m.seq :: p.seqs k).Pairwise (· < ·) := by
    rw [checkKeys_eq_none, List.forall_mem_map]
    refine ⟨fun h k m hm => (hp.seq_iff m.seq).mp (h (k, m) (OrdMap.mem_toList.mpr hm)),
      fun h x hx => ?_⟩
    exact (hp.seq_iff x.2.seq).mpr (h x.1 x.2 (OrdMap.mem_toList.mp hx))
  simp only [NodeSource.Fine, hn, ← hkeys, checkInternal]
  have hrange : checkPivotRange p.id p.lower p.upper ps = none ↔ _ := checkPivotRange_eq_none
  have horder : checkPivotOrder p.id 1 ps = none ↔ _ := checkPivotOrder_eq_none
  rw [← hrange, ← horder]
  cases checkPivotOrder p.id 1 ps with
  | some v => simp
  | none =>
    by_cases hlen : cs.length = ps.length + 1
    · simp only [hlen, ne_eq, not_true_eq_false, if_false, true_and]
      by_cases hf : src.params.fanout.toNat < ps.length + 1
      · rw [if_pos hf]
        exact ⟨fun h => by simp at h, fun h => absurd h.1 (not_le.mpr hf)⟩
      · by_cases hb : src.params.bufferCapacity.toNat < b.size
        · simp [hf, hb]
        · cases checkPivotRange p.id p.lower p.upper ps with
          | some v => simp [hf, hb]
          | none => simp [not_lt.mp hf, not_lt.mp hb, hf, hb]
    · simp [hlen]

end Node
section Children
variable {src : NodeSource} {p : Place} {newest : OrdMap Key UInt64} {ps : List Key}
    {cs : List NodeId} {b : Buffer}
  {c : NodeId} {i : ℕ}

/-- Child `i` of a node, where the walk meets it. -/
def Place.child (p : Place) (ps : List Key) (b : Buffer) (x : NodeId × ℕ) : Place :=
  ⟨x.1, if x.2 = 0 then p.lower else ps[x.2 - 1]?, (ps[x.2]?).or p.upper, p.depth + 1, b :: p.above⟩

/-- The messages of a buffer that a place owns. -/
def Place.share (p : Place) (b : Buffer) : Buffer := b.filter fun k => keyInRange k p.lower p.upper

def Place.frame (p : Place) (overlay : Buffer) : Frame :=
  .enter p.id p.lower p.upper p.depth (overlayOf overlay)

lemma rangeOf_bounds {lower upper : Option Key} (h : ∀ l ∈ lower, ∀ u ∈ upper, l ≤ u) (b : Buffer) :
    rangeOf b (lowerBound lower)
    (upperBound upper) = some (b.filter fun k => keyInRange k lower upper) := by
  cases lower with
  | none => cases upper <;> rfl
  | some l =>
    cases upper with
    | none => rfl
    | some u =>
      have hlu : ¬ u < l := not_lt.mpr (h l rfl u rfl)
      simp only [lowerBound, upperBound, Option.elim, rangeOf, if_neg hlu]
      rfl

lemma Place.child_range (hfine : src.Fine p) (hn : src.node p.id = some (.internal ps cs b))
    (hi : cs[i]? = some c)
    (hord : ∀ l ∈ p.lower, ∀ u ∈ p.upper, l ≤ u) :
    (∀ l ∈ (p.child ps b (c, i)).lower, ∀ u ∈ (p.child ps b (c, i)).upper, l ≤ u) ∧
      ∀ k, InRange (p.child ps b (c, i)).lower (p.child ps b (c, i)).upper k →
      InRange p.lower p.upper k := by
  simp only [NodeSource.Fine, hn] at hfine
  obtain ⟨hsorted, hlen, -, -, hpiv, -⟩ := hfine
  have hle : i ≤ ps.length := by
    have := (List.getElem?_eq_some_iff.mp hi).1
    omega
  have hleft : ∀ l ∈ (p.child ps b (c, i)).lower, (i = 0 ∧ l ∈ p.lower) ∨
      (0 < i ∧ ps[i - 1]? = some l ∧ InRange p.lower p.upper l) := by
    intro l hl
    simp only [Place.child] at hl
    split_ifs at hl with h0
    · exact Or.inl ⟨h0, hl⟩
    · exact Or.inr ⟨Nat.pos_of_ne_zero h0, hl, hpiv l (List.mem_of_getElem? hl)⟩
  have hright : ∀ u ∈ (p.child ps b (c, i)).upper, (ps[i]? = some u ∧ InRange p.lower p.upper u) ∨
    u ∈ p.upper := by
    intro u hu
    simp only [Place.child] at hu
    cases hq : ps[i]? with
    | none =>
      rw [hq] at hu
      exact Or.inr hu
    | some q =>
      rw [hq] at hu
      obtain rfl : q = u := by simpa using hu
      exact Or.inl ⟨rfl, hpiv q (List.mem_of_getElem? hq)⟩
  refine ⟨fun l hl u hu => ?_, fun k hk => ⟨fun l hl => ?_, fun u hu => ?_⟩⟩
  · rcases hleft l hl with ⟨-, hl⟩ | ⟨h0, hl, hlr⟩ <;> rcases hright u hu with ⟨hu, hur⟩ | hu
    · exact hur.1 l hl
    · exact hord l hl u hu
    · obtain ⟨hi₁, rfl⟩ := List.getElem?_eq_some_iff.mp hl
      obtain ⟨hi₂, rfl⟩ := List.getElem?_eq_some_iff.mp hu
      exact (List.pairwise_iff_getElem.mp hsorted (i - 1) i hi₁ hi₂ (by omega)).le
    · exact (hlr.2 u hu).le
  · by_cases h0 : i = 0
    · exact hk.1 l (by simpa [Place.child, h0] using hl)
    · have hlt : i - 1 < ps.length := by omega
      have hq := hk.1 ps[i - 1] (by simp [Place.child, h0, List.getElem?_eq_getElem hlt])
      exact ((hpiv _ (List.getElem_mem hlt)).1 l hl).trans hq
  · cases hq : ps[i]? with
    | none => exact hk.2 u (by simpa [Place.child, hq] using hu)
    | some q =>
      have hkq := hk.2 q (by simp [Place.child, hq])
      exact hkq.trans ((hpiv q (List.mem_of_getElem? hq)).2 u hu)

lemma Place.seqs_child (p : Place) (k : Key) (x : NodeId × ℕ) :
    (p.child ps b x).seqs k = ((b.get? k).map Message.seq).toList ++ p.seqs k := by
  simp only [Place.seqs, Place.child, List.filterMap_cons]
  cases b.get? k <;> rfl

lemma Place.Tracked.child (hp : p.Tracked newest) (hfine : src.Fine p)
    (hn : src.node p.id = some (.internal ps cs b)) (hi : cs[i]? = some c) :
    childFrame ps p.lower p.upper p.depth b (c, i) =
        some ((p.child ps b (c, i)).frame ((p.child ps b (c, i)).share b)) ∧
      (p.child ps b (c, i)).Tracked
        (applyOverlay (overlayOf ((p.child ps b (c, i)).share b)) newest).1 := by
  obtain ⟨hord, hsub⟩ := Place.child_range hfine hn hi hp.ordered
  simp only [NodeSource.Fine, hn] at hfine
  obtain ⟨hsorted, hlen, -, -, hpiv, hbuf⟩ := hfine
  have hle : i ≤ ps.length := by
    have := (List.getElem?_eq_some_iff.mp hi).1
    omega
  refine ⟨?_, fun k hk => ?_, fun k hk => ?_, hord⟩
  · have hrange := rangeOf_bounds hord b
    by_cases h0 : i = 0
    · simp only [Place.child, h0, if_true] at hrange
      simp [childFrame, Place.child, Place.frame, Place.share, overlayOf, h0, hrange]
    · have hq : ps[i - 1]? = some ps[i - 1] := List.getElem?_eq_getElem (by omega)
      simp only [Place.child, h0, if_false, hq] at hrange
      simp [childFrame, Place.child, Place.frame, Place.share, overlayOf, h0, hq, hrange]
  · have hshare : ((p.child ps b (c, i)).share b).get? k = b.get? k := by
      rw [Place.share, OrdMap.get?_filter, if_pos (keyInRange_iff.mpr hk)]
    rw [get?_applyOverlay, hshare, Place.seqs_child, hp.newest k (hsub k hk)]
    cases b.get? k <;> rfl
  · rw [Place.seqs_child]
    cases hb : b.get? k with
    | none => exact hp.older k (hsub k hk)
    | some m => exact (hbuf k m hb).2

end Children
section Walk
variable {src : NodeSource} {newest : OrdMap Key UInt64}

def NodeSource.LeafAt (src : NodeSource) (p : Place) (d : ℕ) : Prop :=
  ∃ p' es, src.Reaches p p' ∧ src.node p'.id = some (.leaf es) ∧ p'.depth = d

/-- The walk from a stack of frames: it gets past them when every node below the places is fine,
having seen the leaves below them, and stops at a violation otherwise. -/
def NodeSource.Walked (src : NodeSource) (places : List Place) (frames : List Frame)
    (newest : OrdMap Key UInt64) : Prop :=
  ∃ n, ((∀ p ∈ places, ∀ p', src.Reaches p p' → src.Fine p') ∧ ∃ ds : List ℕ,
      (∀ d, d ∈ ds ↔ ∃ p ∈ places, src.LeafAt p d) ∧
      ∀ fuel stack depths, checkTree src (fuel + n) (frames ++ stack) newest depths =
        checkTree src fuel stack newest (ds.foldl LeafDepths.see depths)) ∨
    ((∃ p ∈ places, ∃ p', src.Reaches p p' ∧ ¬ src.Fine p') ∧ ∃ v, ∀ fuel stack depths,
      checkTree src (fuel + n) (frames ++ stack) newest depths = .ok (.error v))

lemma walked_nil : src.Walked [] [] newest :=
  ⟨0, Or.inl ⟨by simp, [], by simp, fun _ _ _ => rfl⟩⟩

lemma NodeSource.Walked.append {places places' : List Place} {frames frames' : List Frame}
    (h : src.Walked places frames newest) (h' : src.Walked places' frames' newest) :
    src.Walked (places ++ places') (frames ++ frames') newest := by
  obtain ⟨n, hn⟩ := h
  obtain ⟨n', hn'⟩ := h'
  refine ⟨n' + n, ?_⟩
  rcases hn with ⟨hfine, ds, hds, hrun⟩ | ⟨⟨p, hp, hbad⟩, v, hrun⟩
  · rcases hn' with ⟨hfine', ds', hds', hrun'⟩ | ⟨⟨p, hp, hbad⟩, v, hrun'⟩
    · refine Or.inl ⟨fun p hp => ?_, ds ++ ds', fun d => ?_, fun fuel stack depths => ?_⟩
      · exact (List.mem_append.mp hp).elim (hfine p) (hfine' p)
      · simp only [List.mem_append, hds, hds', or_and_right, exists_or]
      · rw [← Nat.add_assoc, List.append_assoc, hrun, hrun', List.foldl_append]
    · refine Or.inr ⟨⟨p, by simp [hp], hbad⟩, v, fun fuel stack depths => ?_⟩
      rw [← Nat.add_assoc, List.append_assoc, hrun, hrun']
  · refine Or.inr ⟨⟨p, by simp [hp], hbad⟩, v, fun fuel stack depths => ?_⟩
    rw [← Nat.add_assoc, List.append_assoc, hrun]

lemma walked_map {α : Type} {f : α → Place} {g : α → Frame} (xs : List α)
    (h : ∀ x ∈ xs, src.Walked [f x] [g x] newest) : src.Walked (xs.map f) (xs.map g) newest := by
  induction xs with
  | nil => exact walked_nil
  | cons x xs ih => exact (h x (by simp)).append (ih fun y hy => h y (by simp [hy]))

lemma mapM_eq_some_map {α β : Type} {f : α → Option β} {g : α → β} (xs : List α)
    (h : ∀ x ∈ xs, f x = some (g x)) :
    xs.mapM f = some (xs.map g) := by
  induction xs with
  | nil => rfl
  | cons x xs ih =>
    rw [List.mapM_cons, h x (by simp), ih fun y hy => h y (by simp [hy])]
    rfl

/-- The places the children of a node are met at. -/
def Place.children (p : Place) (ps : List Key) (cs : List NodeId) (b : Buffer) : List Place :=
  cs.zipIdx.reverse.map (p.child ps b)

lemma step_iff {p p' : Place} {ps : List Key} {cs : List NodeId} {b : Buffer}
    (hn : src.node p.id = some (.internal ps cs b)) : src.Step p p' ↔ p' ∈ p.children ps cs b := by
  simp only [Place.children, List.mem_map, List.mem_reverse]
  constructor
  · intro h
    cases h with
    | @child ps' cs' b' i c hn' hi =>
      rw [hn] at hn'
      cases hn'
      exact ⟨(c, i), List.mem_zipIdx_iff_getElem?.mpr hi, rfl⟩
  · rintro ⟨⟨c, i⟩, hx, rfl⟩
    exact .child hn (List.mem_zipIdx_iff_getElem?.mp hx)

lemma reaches_leaf {p p' : Place} {es : Entries} (hn : src.node p.id = some (.leaf es)) :
    src.Reaches p p' ↔ p' = p := by
  refine ⟨fun h => ?_, fun h => h ▸ .refl⟩
  rcases Relation.ReflTransGen.cases_head_iff.mp h with rfl | ⟨q, hq, -⟩
  · rfl
  · cases hq with
    | child hn' _ =>
      rw [hn] at hn'
      cases hn'

theorem walk {p : Place} (hG : src.Grown p.id) (overlay : Buffer)
    (hp : p.Tracked (applyOverlay (overlayOf overlay) newest).1) :
    src.Walked [p] [p.frame overlay] newest := by
  generalize hid : p.id = id at hG
  induction hG generalizing p overlay newest with
  | @leaf id es hn =>
    subst hid
    have hreach : ∀ p', src.Reaches p p' ↔ p' = p := fun p' => reaches_leaf hn
    have hcheck := checkLeaf_eq_none hp hn
    cases hv :
      checkLeaf src p.id p.lower p.upper (applyOverlay (overlayOf overlay) newest).1 es with
    | some v =>
      have hbad : ¬ src.Fine p := by
        rw [← hcheck, hv]
        simp
      refine ⟨1, Or.inr ⟨⟨p, by simp, p, .refl, hbad⟩, v, fun fuel stack depths => ?_⟩⟩
      simp only [List.singleton_append, Place.frame, checkTree, hn, hv]
    | none =>
      refine ⟨2, Or.inl ⟨?_, [p.depth], fun d => ?_, fun fuel stack depths => ?_⟩⟩
      · simpa [hreach] using hcheck.mp hv
      · simp [NodeSource.LeafAt, hreach, hn, eq_comm]
      · simp only [List.singleton_append, Place.frame, checkTree, hn, hv, undoOverlay_applyOverlay,
          List.foldl_cons, List.foldl_nil]
  | @internal id ps cs b hn hcs ih =>
    subst hid
    have hhead : ∀ p', src.Reaches p p' ↔ p' = p ∨ ∃ q ∈ p.children ps cs b, src.Reaches q p' := by
      intro p'
      refine Relation.ReflTransGen.cases_head_iff.trans ?_
      simp only [step_iff hn, eq_comm]
    have hcheck := checkInternal_eq_none hp hn
    cases hv : checkInternal src p.id p.lower p.upper
        (applyOverlay (overlayOf overlay) newest).1 ps cs b with
    | some v =>
      have hbad : ¬ src.Fine p := by
        rw [← hcheck, hv]
        simp
      refine ⟨1, Or.inr ⟨⟨p, by simp, p, .refl, hbad⟩, v, fun fuel stack depths => ?_⟩⟩
      simp only [List.singleton_append, Place.frame, checkTree, hn, hv]
    | none =>
      have hfine := hcheck.mp hv
      have hchild : ∀ x ∈ cs.zipIdx, childFrame ps p.lower p.upper p.depth b x =
          some ((p.child ps b x).frame ((p.child ps b x).share b)) :=
        fun x hx => (hp.child hfine hn (List.mem_zipIdx_iff_getElem?.mp hx)).1
      -- the children are checked from the last to the first
      have hwalk := walked_map (f := p.child ps b)
        (g := fun x => (p.child ps b x).frame ((p.child ps b x).share b))
        cs.zipIdx.reverse fun x hx => ih x.1 (List.fst_mem_of_mem_zipIdx (List.mem_reverse.mp hx)) _
          (hp.child hfine hn (List.mem_zipIdx_iff_getElem?.mp (List.mem_reverse.mp hx))).2 rfl
      obtain ⟨n, hn'⟩ := hwalk
      refine ⟨1 + (n + 1), ?_⟩
      have hrun : ∀ fuel stack depths, checkTree src (fuel + (1 + (n + 1)))
        ([p.frame overlay] ++ stack) newest depths =
          checkTree src ((fuel + 1) + n)
            (cs.zipIdx.reverse.map (fun x => (p.child ps b x).frame ((p.child ps b x).share b)) ++
            .undo (applyOverlay (overlayOf overlay) newest).2 :: stack)
            (applyOverlay (overlayOf overlay) newest).1 depths := by
        intro fuel stack depths
        rw [show fuel + (1 + (n + 1)) = ((fuel + 1) + n) + 1 by omega, List.singleton_append,
          Place.frame, checkTree]
        simp only [hn, hv, mapM_eq_some_map _ hchild, List.map_reverse]
      rcases hn' with ⟨hall, ds, hds, hgo⟩ | ⟨⟨q, hq, p', hp', hbad⟩, v, hgo⟩
      · refine Or.inl ⟨?_, ds, fun d => ?_, fun fuel stack depths => ?_⟩
        · intro p₁ hp₁ p' hp'
          obtain rfl : p₁ = p := by simpa using hp₁
          rcases (hhead p').mp hp' with rfl | ⟨q, hq, hqp⟩
          · exact hfine
          · exact hall q hq p' hqp
        · rw [hds]
          simp only [List.mem_singleton, exists_eq_left]
          constructor
          · rintro ⟨q, hq, p', es, hr, hes, hd⟩
            exact ⟨p', es, (hhead p').mpr (Or.inr ⟨q, hq, hr⟩), hes, hd⟩
          · rintro ⟨p', es, hr, hes, hd⟩
            rcases (hhead p').mp hr with rfl | ⟨q, hq, hqp⟩
            · rw [hn] at hes
              cases hes
            · exact ⟨q, hq, p', es, hqp, hes, hd⟩
        · rw [hrun, hgo]
          simp only [checkTree, undoOverlay_applyOverlay]
      · refine Or.inr ⟨⟨p, by simp, p', (hhead p').mpr (Or.inr ⟨q, hq, hp'⟩), hbad⟩, v,
          fun fuel stack depths => ?_⟩
        rw [hrun, hgo]

end Walk
section Depths

lemma foldl_min_le (l : List ℕ) (d : ℕ) : l.foldl min d ≤ d ∧ ∀ x ∈ l, l.foldl min d ≤ x := by
  induction l generalizing d with
  | nil => simp
  | cons y l ih =>
    obtain ⟨h, hl⟩ := ih (min d y)
    refine ⟨h.trans (min_le_left d y), fun x hx => ?_⟩
    rcases List.mem_cons.mp hx with rfl | hx
    · exact h.trans (min_le_right d x)
    · exact hl x hx

lemma le_foldl_max (l : List ℕ) (d : ℕ) : d ≤ l.foldl max d ∧ ∀ x ∈ l, x ≤ l.foldl max d := by
  induction l generalizing d with
  | nil => simp
  | cons y l ih =>
    obtain ⟨h, hl⟩ := ih (max d y)
    refine ⟨(le_max_left d y).trans h, fun x hx => ?_⟩
    rcases List.mem_cons.mp hx with rfl | hx
    · exact (le_max_right d x).trans h
    · exact hl x hx

lemma see_foldl (ds : List ℕ) (s t : ℕ) :
    ds.foldl LeafDepths.see ⟨some s, t⟩ = ⟨some (ds.foldl min s), ds.foldl max t⟩ := by
  induction ds generalizing s t with
  | nil => rfl
  | cons d ds ih => exact ih (min s d) (max t d)

lemma depths_even {ds : List ℕ} (hne : ds ≠ []) :
    (ds.foldl LeafDepths.see .new).shallowest = some (ds.foldl LeafDepths.see .new).deepest ↔
      ∀ d ∈ ds, ∀ d' ∈ ds, d = d' := by
  obtain ⟨d, ds, rfl⟩ := List.exists_cons_of_ne_nil hne
  have hfold : (d :: ds).foldl LeafDepths.see .new = ⟨some (ds.foldl min d), ds.foldl max d⟩ := by
    have := see_foldl ds d d
    simpa [LeafDepths.see, LeafDepths.new] using this
  rw [hfold]
  simp only [Option.some.injEq]
  constructor
  · intro heq
    have hall : ∀ x ∈ d :: ds, x = ds.foldl min d := by
      intro x hx
      rcases List.mem_cons.mp hx with rfl | hx
      · exact le_antisymm ((le_foldl_max ds x).1.trans heq.ge) (foldl_min_le ds x).1
      · exact le_antisymm (((le_foldl_max ds d).2 x hx).trans heq.ge) ((foldl_min_le ds d).2 x hx)
    exact fun x hx y hy => (hall x hx).trans (hall y hy).symm
  · intro hall
    have hmem : ∀ (f : ℕ → ℕ → ℕ) (l : List ℕ) (x : ℕ), (∀ a b, f a b = a ∨ f a b = b) →
      l.foldl f x ∈ x :: l := by
      intro f l x hf
      induction l generalizing x with
      | nil => simp
      | cons y l ih =>
        have := ih (f x y)
        rcases hf x y with h | h <;> rw [List.foldl_cons, h] at * <;> grind
    exact hall _ (hmem min ds d min_choice) _ (hmem max ds d max_choice)

end Depths

section Exact
variable {src : NodeSource}

/-- The occurrences of a key on the way from a leaf up to the root. -/
def Place.occurrences (p : Place) (es : Entries) (k : Key) : List UInt64 :=
  ((es.get? k).map LeafEntry.seq).toList ++ p.seqs k

/-- I1 to I7, said of the whole tree. Seen from the leaf, the numbers on a path increase. -/
structure NodeSource.Lawful (src : NodeSource) : Prop where
  pivots : ∀ p ps cs b, src.Reaches src.start p → src.node p.id = some (.internal ps cs b) →
    ps.Pairwise (· < ·) ∧ (∀ q ∈ ps, InRange p.lower p.upper q) ∧ cs.length = ps.length + 1
  messages : ∀ p ps cs b, src.Reaches src.start p → src.node p.id = some (.internal ps cs b) →
    ∀ k m, b.get? k = some m → InRange p.lower p.upper k
  entries : ∀ p es, src.Reaches src.start p → src.node p.id = some (.leaf es) →
    ∀ k e, es.get? k = some e → InRange p.lower p.upper k
  newest : ∀ p es, src.Reaches src.start p → src.node p.id = some (.leaf es) →
    ∀ k, (p.occurrences es k).Pairwise (· < ·)
  capacity : ∀ p ps cs b, src.Reaches src.start p → src.node p.id = some (.internal ps cs b) →
    b.size ≤ src.params.bufferCapacity.toNat ∧ cs.length ≤ src.params.fanout.toNat
  leafCapacity : ∀ p es, src.Reaches src.start p → src.node p.id = some (.leaf es) →
    es.size ≤ src.params.leafCapacity.toNat
  depth : ∀ p p' es es', src.Reaches src.start p → src.node p.id = some (.leaf es) →
    src.Reaches src.start p' → src.node p'.id = some (.leaf es') → p.depth = p'.depth
  nonempty : ∀ p es, src.Reaches src.start p → src.node p.id = some (.leaf es) → p.id ≠ src.root →
    es ≠ OrdMap.empty

lemma NodeSource.Grown.reaches {p p' : Place} (hG : src.Grown p.id) (h : src.Reaches p p') :
    src.Grown p'.id := by
  induction h with
  | refl => exact hG
  | tail _ hstep ih =>
    cases hstep with
    | child hn hi =>
      cases ih with
      | leaf hn' =>
        rw [hn] at hn'
        cases hn'
      | internal hn' hcs =>
        rw [hn] at hn'
        cases hn'
        exact hcs _ (List.mem_of_getElem? hi)

lemma NodeSource.Reaches.above {p p' : Place} (h : src.Reaches p p') :
    ∃ l, p'.above = l ++ p.above := by
  induction h with
  | refl => exact ⟨[], rfl⟩
  | tail _ hstep ih =>
    obtain ⟨l, hl⟩ := ih
    cases hstep with
    | child hn hi => exact ⟨_ :: l, by rw [hl]; rfl⟩

lemma exists_leaf {p : Place} (hG : src.Grown p.id)
    (hcs : ∀ p' ps cs b, src.Reaches p p' → src.node p'.id = some (.internal ps cs b) → cs ≠ []) :
    ∃ p' es, src.Reaches p p' ∧ src.node p'.id = some (.leaf es) := by
  generalize hid : p.id = id at hG
  induction hG generalizing p with
  | leaf hn =>
    subst hid
    exact ⟨p, _, .refl, hn⟩
  | @internal id ps cs b hn _ ih =>
    subst hid
    obtain ⟨c, cs', rfl⟩ := List.exists_cons_of_ne_nil (hcs p ps cs b .refl hn)
    have hstep : src.Step p (p.child ps b (c, 0)) := (step_iff hn).mpr (by simp [Place.children])
    obtain ⟨p', es, hr, hes⟩ := ih c (by simp) (p := p.child ps b (c, 0))
      (fun p' ps cs b hr => hcs p' ps cs b (.head hstep hr)) rfl
    exact ⟨p', es, .head hstep hr, hes⟩

lemma seqs_reached (hfine : ∀ p, src.Reaches src.start p → src.Fine p) {p : Place}
    (hp : src.Reaches src.start p)
    (k : Key) : (p.seqs k).Pairwise (· < ·) := by
  induction hp with
  | refl => simp [NodeSource.start, Place.seqs]
  | @tail p p' hr hstep ih =>
    cases hstep with
    | @child ps cs b i c hn hi =>
      have hf := hfine p hr
      simp only [NodeSource.Fine, hn] at hf
      have hseq :
        Place.seqs ⟨c, if i = 0 then p.lower else ps[i - 1]?, (ps[i]?).or p.upper, p.depth + 1,
          b :: p.above⟩ k = ((b.get? k).map Message.seq).toList ++ p.seqs k := p.seqs_child k (c, i)
      rw [hseq]
      cases hb : b.get? k with
      | none => exact ih
      | some m => exact (hf.2.2.2.2.2 k m hb).2

lemma lawful_of_fine (hfine : ∀ p, src.Reaches src.start p → src.Fine p)
    (hdepth : ∀ d d', src.LeafAt src.start d → src.LeafAt src.start d' → d = d') : src.Lawful where
  pivots p ps cs b hp hn := by
    have := hfine p hp
    simp only [NodeSource.Fine, hn] at this
    exact ⟨this.1, this.2.2.2.2.1, this.2.1⟩
  messages p ps cs b hp hn k m hm := by
    have := hfine p hp
    simp only [NodeSource.Fine, hn] at this
    exact (this.2.2.2.2.2 k m hm).1
  entries p es hp hn k e he := by
    have := hfine p hp
    simp only [NodeSource.Fine, hn] at this
    exact (this.2.2 k e he).1
  newest p es hp hn k := by
    have := hfine p hp
    simp only [NodeSource.Fine, hn] at this
    rw [Place.occurrences]
    cases he : es.get? k with
    | none => exact seqs_reached hfine hp k
    | some e => exact (this.2.2 k e he).2
  capacity p ps cs b hp hn := by
    have := hfine p hp
    simp only [NodeSource.Fine, hn] at this
    exact ⟨this.2.2.2.1, this.2.2.1⟩
  leafCapacity p es hp hn := by
    have := hfine p hp
    simp only [NodeSource.Fine, hn] at this
    exact this.1
  depth p p' es es' hp hn hp' hn' := hdepth _ _ ⟨p, es, hp, hn, rfl⟩ ⟨p', es', hp', hn', rfl⟩
  nonempty p es hp hn := by
    have := hfine p hp
    simp only [NodeSource.Fine, hn] at this
    exact this.2.1

lemma NodeSource.Lawful.fine (hG : src.Grown src.root) (h : src.Lawful) {p : Place}
    (hp : src.Reaches src.start p) :
    src.Fine p := by
  have hGp : src.Grown p.id := NodeSource.Grown.reaches (p := src.start) hG hp
  cases hGp with
  | @leaf _ es hn =>
    simp only [NodeSource.Fine, hn]
    refine ⟨h.leafCapacity p es hp hn, h.nonempty p es hp hn,
      fun k e he => ⟨h.entries p es hp hn k e he, ?_⟩⟩
    have := h.newest p es hp hn k
    rwa [Place.occurrences, he] at this
  | @internal _ ps cs b hn hcs =>
    simp only [NodeSource.Fine, hn]
    obtain ⟨hsorted, hpiv, hlen⟩ := h.pivots p ps cs b hp hn
    obtain ⟨hb, hf⟩ := h.capacity p ps cs b hp hn
    refine ⟨hsorted, hlen, hf, hb, hpiv, fun k m hm => ⟨h.messages p ps cs b hp hn k m hm, ?_⟩⟩
    have hne : ∀ p' ps cs b, src.Reaches p p' →
      src.node p'.id = some (.internal ps cs b) → cs ≠ [] := by
      rintro p' ps' cs' b' hr hn' rfl
      have := (h.pivots p' ps' [] b' (hp.trans hr) hn').2.2
      simp at this
    obtain ⟨p', es, hr, hes⟩ := exists_leaf (.internal hn hcs) hne
    rcases Relation.ReflTransGen.cases_head_iff.mp hr with rfl | ⟨q, hstep, hqr⟩
    · rw [hn] at hes
      cases hes
    · obtain ⟨l, hl⟩ := NodeSource.Reaches.above hqr
      rw [step_iff hn] at hstep
      obtain ⟨x, -, rfl⟩ := List.mem_map.mp hstep
      have hocc := h.newest p' es (hp.trans hr) hes k
      have hseqs :
        p'.seqs k = (l.filterMap fun b => (b.get? k).map Message.seq) ++ (m.seq :: p.seqs k) := by
        rw [Place.seqs, hl, List.filterMap_append]
        congr 1
        simp [Place.child, Place.seqs, hm]
      rw [Place.occurrences, hseqs, ← List.append_assoc] at hocc
      exact (List.pairwise_append.mp hocc).2.1

lemma checkInvariants_verdict (hG : src.Grown src.root) :
    ∃ N v, (∀ fuel ≥ N, checkInvariants fuel src = .ok v) ∧
    (v = .ok () ↔ src.Lawful) := by
  have hstart : src.start.Tracked (applyOverlay (overlayOf OrdMap.empty) OrdMap.empty).1 :=
    ⟨fun k _ => rfl, fun k _ => List.Pairwise.nil, fun l hl => by simp [NodeSource.start] at hl⟩
  have hframe : src.start.frame OrdMap.empty = .enter src.root none none 1 [] := rfl
  obtain ⟨n, hn⟩ := walk (p := src.start) hG OrdMap.empty hstart
  rw [hframe] at hn
  have hsplit : ∀ fuel ≥ n + 1, ∃ c, fuel = (c + 1) + n := fun fuel hf => ⟨fuel - n - 1, by omega⟩
  rcases hn with ⟨hfine, ds, hds, hrun⟩ | ⟨⟨p, hp, p', hr, hbad⟩, v, hrun⟩
  · have hfine' : ∀ p, src.Reaches src.start p → src.Fine p := hfine _ (by simp)
    have hds' : ∀ d, d ∈ ds ↔ src.LeafAt src.start d := by simpa using hds
    have hres : ∀ fuel ≥ n + 1, checkInvariants fuel src =
        if (ds.foldl LeafDepths.see .new).shallowest ≠ some
          (ds.foldl LeafDepths.see .new).deepest then
          .ok (.error
            (.unevenLeafDepth ((ds.foldl LeafDepths.see .new).shallowest.getD (2 ^ 64 - 1))
            (ds.foldl LeafDepths.see .new).deepest))
        else .ok (.ok ()) := by
      intro fuel hf
      obtain ⟨c, rfl⟩ := hsplit fuel hf
      have := hrun (c + 1) [] .new
      rw [List.append_nil] at this
      simp only [checkInvariants, this, checkTree]
    have hleaf : ds ≠ [] := by
      have hne : ∀ p' ps cs b, src.Reaches src.start p' →
        src.node p'.id = some (.internal ps cs b) → cs ≠ [] := by
        rintro p' ps cs b hr hn rfl
        have := hfine' p' hr
        simp only [NodeSource.Fine, hn] at this
        simp at this
      obtain ⟨p', es, hr, hes⟩ := exists_leaf (p := src.start) hG hne
      exact List.ne_nil_of_mem ((hds' p'.depth).mpr ⟨p', es, hr, hes, rfl⟩)
    have heven := depths_even hleaf
    by_cases hd :
      (ds.foldl LeafDepths.see .new).shallowest = some (ds.foldl LeafDepths.see .new).deepest
    · refine ⟨n + 1, .ok (), fun fuel hf => ?_, fun _ => lawful_of_fine hfine'
        fun d d' hd₁ hd₂ => ?_, fun _ => rfl⟩
      · rw [hres fuel hf, if_neg (not_not.mpr hd)]
      · exact heven.mp hd d ((hds' d).mpr hd₁) d' ((hds' d').mpr hd₂)
    · refine ⟨n + 1, _, fun fuel hf => (hres fuel hf).trans (if_pos hd),
        iff_of_false (by simp) fun h => hd (heven.mpr fun d hd d' hd' => ?_)⟩
      obtain ⟨p, es, hp, hn, rfl⟩ := (hds' d).mp hd
      obtain ⟨p', es', hp', hn', rfl⟩ := (hds' d').mp hd'
      exact h.depth p p' es es' hp hn hp' hn'
  · obtain rfl : p = src.start := by simpa using hp
    refine ⟨n + 1, .error v, fun fuel hf => ?_, iff_of_false (by simp) fun h => hbad (h.fine hG hr)⟩
    obtain ⟨c, rfl⟩ := hsplit fuel hf
    have := hrun (c + 1) [] .new
    rw [List.append_nil] at this
    simp only [checkInvariants, this]

/-- On every finite tree the checker returns, and it accepts exactly the trees that satisfy I1 to
I7. -/
theorem checkInvariants_exact (hG : src.Grown src.root) : ∃ N, ∀ fuel ≥ N,
    (∃ r, checkInvariants fuel src = .ok r) ∧ (checkInvariants fuel src = .ok (.ok ()) ↔
      src.Lawful) := by
  obtain ⟨N, v, hrun, hv⟩ := checkInvariants_verdict hG
  refine ⟨N, fun fuel hf => ?_⟩
  rw [hrun fuel hf, Except.ok.injEq]
  exact ⟨⟨v, rfl⟩, hv⟩

/-- A root over two leaves, the second of them empty. -/
def NodeSource.forked : NodeSource where
  root := 0
  params := ⟨2, 1, 1⟩
  node
    | 0 => some (.internal [[5]] [1, 2] OrdMap.empty)
    | 1 => some (.leaf (OrdMap.empty.insert [3] ⟨1, [9]⟩))
    | 2 => some (.leaf OrdMap.empty)
    | _ => none

theorem checkInvariants_exact_forked : ∃ N, ∀ fuel ≥ N,
    (∃ r, checkInvariants fuel NodeSource.forked = .ok r) ∧
      (checkInvariants fuel NodeSource.forked = .ok (.ok ()) ↔ NodeSource.forked.Lawful) :=
  checkInvariants_exact (.internal rfl fun c hc => by
    rcases List.mem_cons.mp hc with rfl | hc
    · exact .leaf rfl
    · obtain rfl := List.mem_singleton.mp hc
      exact .leaf rfl)

end Exact
end Beetree
