import Beetree.Node

/-! Height-indexed trees: what a node owns, what it resolves to and what may lie below it.

All leaves of a `Tree α h` are at depth `h`, so uniform height is a matter of typing. The annotation
`α` is free: record offsets, node names, nothing. -/
namespace Beetree

structure LeafT (α : Type) where
  ann : α
  entries : Entries

structure NodeT (α T : Type) where
  ann : α
  pivots : List Key
  children : List T
  buffer : Buffer

def Tree (α : ℕ → Type) : ℕ → Type
  | 0 => LeafT (α 0)
  | h + 1 => NodeT (α (h + 1)) (Tree α h)

/-- The half-open range `[lo, hi)`, an absent end being unbounded. -/
def InRange (lo hi : Option Key) (k : Key) : Prop := (∀ l ∈ lo, l ≤ k) ∧ ∀ u ∈ hi, k < u

/-- Strictly between the ends: where a pivot may lie. -/
def Inside (lo hi : Option Key) (p : Key) : Prop := (∀ l ∈ lo, l < p) ∧ ∀ u ∈ hi, p < u

lemma inRange_none (k : Key) : InRange none none k := ⟨by simp, by simp⟩

lemma Inside.inRange {lo hi : Option Key} {p : Key} (h : Inside lo hi p) : InRange lo hi p :=
  ⟨fun l hl => (h.1 l hl).le, h.2⟩

lemma inRange_cut {lo hi : Option Key} {p : Key} (hp : Inside lo hi p) (k : Key) :
    InRange lo hi k ↔ if p ≤ k then InRange (some p) hi k else InRange lo (some p) k := by
  split_ifs with h
  · constructor
    · exact fun hk => ⟨by simpa using h, hk.2⟩
    · exact fun hk => ⟨fun l hl => (hp.1 l hl).le.trans h, hk.2⟩
  · constructor
    · exact fun hk => ⟨hk.1, by simpa using h⟩
    · exact fun hk => ⟨hk.1, fun u hu => (not_le.mp h).trans (hp.2 u hu)⟩

def childAt {T : Type} : List Key → List T → Key → Option T
  | _, [], _ => none
  | [], c :: _, _ => some c
  | p :: ps, c :: cs, k => if p ≤ k then childAt ps cs k else some c

/-- Children and separators line up: one more child than pivots, pivots strictly increasing and
strictly inside the range, and each child satisfying `P` on the range it owns. -/
def Kids {T : Type} (P : Option Key → Option Key → T → Prop) :
    Option Key → Option Key → List Key → List T → Prop
  | lo, hi, [], [c] => P lo hi c
  | lo, hi, p :: ps, c :: cs => Inside lo hi p ∧ P lo (some p) c ∧ Kids P (some p) hi ps cs
  | _, _, _, _ => False

/-- The keys that route to the child between two runs of pivots. -/
def owns (ps₁ ps₂ : List Key) (k : Key) : Prop := (∀ p ∈ ps₁, p ≤ k) ∧ ∀ p ∈ ps₂, k < p

instance (ps₁ ps₂ : List Key) (k : Key) : Decidable (owns ps₁ ps₂ k) := by
  unfold owns
  infer_instance

section Kids
variable {T : Type} {P Q : Option Key → Option Key → T → Prop}

lemma Kids.length {lo hi : Option Key} {ps : List Key} {cs : List T} (h : Kids P lo hi ps cs) :
    cs.length = ps.length + 1 := by
  induction ps generalizing lo cs with
  | nil =>
    match cs, h with
    | [c], _ => rfl
  | cons p ps ih =>
    match cs, h with
    | c :: cs, h => simp [ih h.2.2]

lemma Kids.ne_nil {lo hi : Option Key} {ps : List Key} {cs : List T} (h : Kids P lo hi ps cs) :
    cs ≠ [] := by
  rintro rfl
  simpa using h.length

lemma Kids.inside {lo hi : Option Key} {ps : List Key} {cs : List T} (h : Kids P lo hi ps cs) :
    ∀ p ∈ ps, Inside lo hi p := by
  induction ps generalizing lo cs with
  | nil => simp
  | cons p ps ih =>
    match cs, h with
    | c :: cs, h =>
      intro q hq
      rcases List.mem_cons.mp hq with rfl | hq
      · exact h.1
      · have := ih h.2.2 q hq
        exact ⟨fun l hl => (h.1.1 l hl).trans (this.1 p rfl), this.2⟩

lemma Kids.sorted {lo hi : Option Key} {ps : List Key} {cs : List T} (h : Kids P lo hi ps cs) :
    ps.Pairwise (· < ·) := by
  induction ps generalizing lo cs with
  | nil => simp
  | cons p ps ih =>
    match cs, h with
    | c :: cs, h =>
      exact List.pairwise_cons.mpr ⟨fun q hq => (h.2.2.inside q hq).1 p rfl, ih h.2.2⟩

lemma Kids.imp {lo hi : Option Key} {ps : List Key} {cs : List T} (h : Kids P lo hi ps cs)
    (hPQ : ∀ lo hi, ∀ c ∈ cs, P lo hi c → Q lo hi c) : Kids Q lo hi ps cs := by
  induction ps generalizing lo cs with
  | nil =>
    match cs, h with
    | [c], h => exact hPQ _ _ c (by simp) h
  | cons p ps ih =>
    match cs, h with
    | c :: cs, h =>
      exact ⟨h.1, hPQ _ _ c (by simp) h.2.1, ih h.2.2 fun lo hi d hd => hPQ lo hi d (by simp [hd])⟩

lemma Kids.imp_range {lo hi : Option Key} {ps : List Key} {cs : List T} (h : Kids P lo hi ps cs)
    (hPQ : ∀ lo' hi', ∀ c ∈ cs, (∀ k, InRange lo' hi' k → InRange lo hi k) →
      P lo' hi' c → Q lo' hi' c) :
    Kids Q lo hi ps cs := by
  induction ps generalizing lo cs with
  | nil =>
    match cs, h with
    | [c], h => exact hPQ _ _ c (by simp) (fun _ hk => hk) h
  | cons p ps ih =>
    match cs, h with
    | c :: cs, h =>
      refine ⟨h.1, hPQ _ _ c (by simp) (fun k hk => ?_) h.2.1, ih h.2.2 fun lo' hi' d hd hsub hPd =>
        hPQ lo' hi' d (by simp [hd]) (fun k hk => ?_) hPd⟩
      · exact ⟨hk.1, fun u hu => (hk.2 p rfl).trans (h.1.2 u hu)⟩
      · have := hsub k hk
        exact ⟨fun l hl => (h.1.1 l hl).le.trans (this.1 p rfl), this.2⟩

lemma Kids.and {lo hi : Option Key} {ps : List Key} {cs : List T} (hP : Kids P lo hi ps cs)
    (hQ : Kids Q lo hi ps cs) : Kids (fun lo hi c => P lo hi c ∧ Q lo hi c) lo hi ps cs := by
  induction ps generalizing lo cs with
  | nil =>
    match cs, hP with
    | [c], hP => exact ⟨hP, hQ⟩
  | cons p ps ih =>
    match cs, hP with
    | c :: cs, hP => exact ⟨hP.1, ⟨hP.2.1, hQ.2.1⟩, ih hP.2.2 hQ.2.2⟩

lemma Kids.forall {lo hi : Option Key} {ps : List Key} {cs : List T} {R : T → Prop}
    (h : Kids P lo hi ps cs) (hR : ∀ lo hi, ∀ c ∈ cs, P lo hi c → R c) : ∀ c ∈ cs, R c := by
  induction ps generalizing lo cs with
  | nil =>
    match cs, h with
    | [c], h => simpa using hR _ _ c (by simp) h
  | cons p ps ih =>
    match cs, h with
    | c :: cs, h =>
      intro d hd
      rcases List.mem_cons.mp hd with rfl | hd
      · exact hR _ _ _ (by simp) h.2.1
      · exact ih h.2.2 (fun lo hi d hd => hR lo hi d (by simp [hd])) d hd

lemma Kids.map {U : Type} {R : Option Key → Option Key → U → Prop} (f : T → U) {lo hi : Option Key}
    {ps : List Key} {cs : List T} (h : Kids (fun lo hi c => R lo hi (f c)) lo hi ps cs) :
    Kids R lo hi ps (cs.map f) := by
  induction ps generalizing lo cs with
  | nil =>
    match cs, h with
    | [c], h => exact h
  | cons p ps ih =>
    match cs, h with
    | c :: cs, h => exact ⟨h.1, h.2.1, ih h.2.2⟩

lemma Kids.of_map {U : Type} {R : Option Key → Option Key → U → Prop} (f : T → U)
    {lo hi : Option Key}
    {ps : List Key} {cs : List T} (h : Kids R lo hi ps (cs.map f)) :
    Kids (fun lo hi c => R lo hi (f c)) lo hi ps cs := by
  induction ps generalizing lo cs with
  | nil =>
    match cs, h with
    | [c], h => exact h
  | cons p ps ih =>
    match cs, h with
    | c :: cs, h => exact ⟨h.1, h.2.1, ih h.2.2⟩

lemma Kids.childAt {lo hi : Option Key} {ps : List Key} {cs : List T} (h : Kids P lo hi ps cs)
    {k : Key} (hk : InRange lo hi k) :
    ∃ c ∈ cs, ∃ lo' hi', childAt ps cs k = some c ∧ P lo' hi' c ∧ InRange lo' hi' k := by
  induction ps generalizing lo cs with
  | nil =>
    match cs, h with
    | [c], h => exact ⟨c, by simp, lo, hi, rfl, h, hk⟩
  | cons p ps ih =>
    match cs, h with
    | c :: cs, h =>
      rw [inRange_cut h.1] at hk
      by_cases hpk : p ≤ k
      · rw [if_pos hpk] at hk
        obtain ⟨d, hd, lo', hi', hc, hP, hr⟩ := ih h.2.2 hk
        exact ⟨d, by simp [hd], lo', hi', by simp [Beetree.childAt, hpk, hc], hP, hr⟩
      · rw [if_neg hpk] at hk
        exact ⟨c, by simp, lo, some p, by simp [Beetree.childAt, hpk], h.2.1, hk⟩

/-- A child by its index: the range it owns, and the keys that route to it. -/
lemma Kids.at {lo hi : Option Key} {ps : List Key} {cs : List T} {i : ℕ} {c : T}
    (h : Kids P lo hi ps cs)
    (hc : cs[i]? = some c) : P (if i = 0 then lo else ps[i - 1]?) ((ps[i]?).or hi) c ∧
      ∀ k, InRange (if i = 0 then lo else ps[i - 1]?) ((ps[i]?).or hi) k →
        InRange lo hi k ∧ Beetree.childAt ps cs k = some c := by
  induction ps generalizing lo cs i with
  | nil =>
    match cs, h with
    | [c'], h =>
      cases i with
      | zero =>
        obtain rfl : c' = c := by simpa using hc
        exact ⟨h, fun k hk => ⟨hk, rfl⟩⟩
      | succ i => simp at hc
  | cons p ps ih =>
    match cs, h with
    | c' :: cs, ⟨hp, hc', hK⟩ =>
      cases i with
      | zero =>
        obtain rfl : c' = c := by simpa using hc
        refine ⟨hc', fun k hk => ?_⟩
        have hkp : k < p := hk.2 p rfl
        exact ⟨⟨hk.1, fun u hu => hkp.trans (hp.2 u hu)⟩, if_neg (not_le.mpr hkp)⟩
      | succ i =>
        obtain ⟨hP, hrange⟩ := ih hK hc
        have hlow : (p :: ps)[i + 1 - 1]? = if i = 0 then some p else ps[i - 1]? := by
          cases i <;> rfl
        rw [if_neg (Nat.succ_ne_zero i), hlow]
        refine ⟨hP, fun k hk => ?_⟩
        obtain ⟨hk', hat⟩ := hrange k hk
        have hpk : p ≤ k := hk'.1 p rfl
        exact ⟨⟨fun l hl => (hp.1 l hl).le.trans hpk, hk'.2⟩, (if_pos hpk).trans hat⟩

lemma Kids.index {lo hi : Option Key} {ps : List Key} {cs : List T} (h : Kids P lo hi ps cs)
    {k : Key} (hk : InRange lo hi k) :
    ∃ i c, cs[i]? = some c ∧ InRange (if i = 0 then lo else ps[i - 1]?) ((ps[i]?).or hi) k := by
  induction ps generalizing lo cs with
  | nil =>
    have hlen : cs.length = 1 := h.length
    exact ⟨0, cs[0], List.getElem?_eq_getElem (by omega), hk⟩
  | cons p ps ih =>
    cases cs with
    | nil => exact h.elim
    | cons c cs =>
      obtain ⟨hp, -, hK⟩ := h
      rw [inRange_cut hp] at hk
      by_cases hpk : p ≤ k
      · rw [if_pos hpk] at hk
        obtain ⟨i, d, hd, hr⟩ := ih hK hk
        have hlow : (p :: ps)[i + 1 - 1]? = if i = 0 then some p else ps[i - 1]? := by
          cases i <;> rfl
        refine ⟨i + 1, d, hd, ?_⟩
        rw [if_neg (Nat.succ_ne_zero i), hlow]
        exact hr
      · rw [if_neg hpk] at hk
        exact ⟨0, c, rfl, hk⟩

lemma childAt_append {ps₁ : List Key} (ps₂ : List Key) {cs₁ : List T} (cs₂ : List T) {p : Key}
    (hl : cs₁.length = ps₁.length + 1) (hp : ∀ q ∈ ps₁, q < p) (k : Key) :
    childAt (ps₁ ++ p :: ps₂) (cs₁ ++ cs₂) k =
      if p ≤ k then childAt ps₂ cs₂ k else childAt ps₁ cs₁ k := by
  induction ps₁ generalizing cs₁ with
  | nil =>
    match cs₁, hl with
    | [c], _ => simp [childAt]
  | cons q ps₁ ih =>
    match cs₁, hl with
    | c :: cs₁, hl =>
      have hq : q < p := hp q (by simp)
      have := ih (show cs₁.length = ps₁.length + 1 by simpa using hl) fun r hr =>
        hp r (by simp [hr])
      simp only [List.cons_append, childAt, this]
      by_cases hpk : p ≤ k
      · simp [hpk, hq.le.trans hpk]
      · simp [hpk]

lemma Kids.append {lo hi : Option Key} {ps₁ ps₂ : List Key} {cs₁ cs₂ : List T} {p : Key}
    (hp : Inside lo hi p) (h₁ : Kids P lo (some p) ps₁ cs₁) (h₂ : Kids P (some p) hi ps₂ cs₂) :
    Kids P lo hi (ps₁ ++ p :: ps₂) (cs₁ ++ cs₂) := by
  induction ps₁ generalizing lo cs₁ with
  | nil =>
    match cs₁, h₁ with
    | [c], h₁ => exact ⟨hp, h₁, h₂⟩
  | cons q ps₁ ih =>
    match cs₁, h₁ with
    | c :: cs₁, h₁ =>
      have hqp : q < p := h₁.1.2 p rfl
      refine ⟨⟨h₁.1.1, fun u hu => hqp.trans (hp.2 u hu)⟩, h₁.2.1,
        ih ⟨by simpa using hqp, hp.2⟩ h₁.2.2⟩

lemma Kids.split {lo hi : Option Key} {ps₁ ps₂ : List Key} {cs₁ cs₂ : List T} {p : Key}
    (hl : cs₁.length = ps₁.length + 1) (h : Kids P lo hi (ps₁ ++ p :: ps₂) (cs₁ ++ cs₂)) :
    Inside lo hi p ∧ Kids P lo (some p) ps₁ cs₁ ∧ Kids P (some p) hi ps₂ cs₂ := by
  induction ps₁ generalizing lo cs₁ with
  | nil =>
    match cs₁, hl with
    | [c], _ => exact ⟨h.1, h.2.1, h.2.2⟩
  | cons q ps₁ ih =>
    match cs₁, hl with
    | c :: cs₁, hl =>
      obtain ⟨hp, h₁, h₂⟩ := ih (show cs₁.length = ps₁.length + 1 by simpa using hl) h.2.2
      have hqp : q < p := hp.1 q rfl
      exact ⟨⟨fun l hl => (h.1.1 l hl).trans hqp, hp.2⟩,
        ⟨⟨h.1.1, by simpa using hqp⟩, h.2.1, h₁⟩, h₂⟩

/-- Focus on one child: the range it owns, and what any run of children put in its place gives. The
other children own other keys. -/
lemma Kids.focus {lo hi : Option Key} {ps₁ ps₂ : List Key} {cs₁ cs₂ : List T} {c : T}
    (hl : ps₁.length = cs₁.length) (h : Kids P lo hi (ps₁ ++ ps₂) (cs₁ ++ c :: cs₂)) :
    ∃ m m', P m m' c ∧ (∀ k, InRange m m' k ↔ InRange lo hi k ∧ owns ps₁ ps₂ k) ∧
      ∀ (Q : Option Key → Option Key → T → Prop) (ps : List Key) (cs : List T),
        (∀ lo hi, ∀ d ∈ cs₁ ++ cs₂, (∀ k, InRange lo hi k → ¬ owns ps₁ ps₂ k) →
          P lo hi d → Q lo hi d) →
        Kids Q m m' ps cs →
        Kids Q lo hi (ps₁ ++ ps ++ ps₂) (cs₁ ++ cs ++ cs₂) ∧
        ∀ k, InRange lo hi k → Beetree.childAt (ps₁ ++ ps ++ ps₂) (cs₁ ++ cs ++ cs₂) k =
          if owns ps₁ ps₂ k then Beetree.childAt ps cs k
          else Beetree.childAt (ps₁ ++ ps₂) (cs₁ ++ c :: cs₂) k := by
  induction cs₁ generalizing lo ps₁ with
  | nil =>
    obtain rfl : ps₁ = [] := by simpa using hl
    cases ps₂ with
    | nil =>
      have hcs : cs₂ = [] := by
        have := h.length
        simpa using this
      subst hcs
      refine ⟨lo, hi, h, by simp [owns], ?_⟩
      intro Q ps cs _ hk
      exact ⟨by simpa using hk, by simp [owns]⟩
    | cons p ps₂ =>
      obtain ⟨hp, hc, hr⟩ := h
      have hown : ∀ k, owns [] (p :: ps₂) k ↔ ¬ p ≤ k := by
        intro k
        constructor
        · intro ho
          exact not_le.mpr (ho.2 p (by simp))
        · intro hk
          refine ⟨by simp, fun q hq => ?_⟩
          rcases List.mem_cons.mp hq with rfl | hq
          · exact not_le.mp hk
          · exact (not_le.mp hk).trans ((hr.inside q hq).1 p rfl)
      refine ⟨lo, some p, hc, ?_, ?_⟩
      · intro k
        rw [hown, inRange_cut hp k]
        by_cases hpk : p ≤ k
        · simp only [hpk, if_true, not_true_eq_false, and_false, iff_false]
          exact fun hk => not_le.mpr (hk.2 p rfl) hpk
        · simp [hpk]
      · intro Q ps cs hPQ hk
        have hQ : Kids Q (some p) hi ps₂ cs₂ := by
          refine hr.imp_range fun lo hi d hd hsub hPd => hPQ lo hi d (by simpa using hd)
            (fun k hk => ?_) hPd
          rw [hown, not_not]
          exact (hsub k hk).1 p rfl
        refine ⟨by simpa using Kids.append hp hk hQ, ?_⟩
        intro k _
        have := childAt_append ps₂ cs₂ hk.length (fun q hq => (hk.inside q hq).2 p rfl) k
        simp only [List.nil_append, this, hown, Beetree.childAt]
        by_cases hpk : p ≤ k <;> simp [hpk]
  | cons d cs₁ ih =>
    match ps₁, hl with
    | q :: ps₁, hl =>
      obtain ⟨hq, hd, hr⟩ := h
      obtain ⟨m, m', hc, hown, hrep⟩ := ih (by simpa using hl) hr
      have hcons : ∀ k, owns (q :: ps₁) ps₂ k ↔ q ≤ k ∧ owns ps₁ ps₂ k := by
        intro k
        simp [owns, and_assoc]
      refine ⟨m, m', hc, ?_, ?_⟩
      · intro k
        rw [hown, hcons, inRange_cut hq k]
        by_cases hqk : q ≤ k
        · simp [hqk]
        · simp only [hqk, if_false, false_and, and_false, iff_false, not_and]
          exact fun hk => absurd (hk.1 q rfl) hqk
      · intro Q ps cs hPQ hk
        obtain ⟨hK, hC⟩ := hrep Q ps cs (fun lo hi e he hno => hPQ lo hi e (by
          rcases List.mem_append.mp he with he | he <;> simp [he])
          fun k hk ho => hno k hk ((hcons k).mp ho).2) hk
        refine ⟨⟨hq, hPQ _ _ d (by simp) (fun k hk ho => ?_) hd, hK⟩, ?_⟩
        · exact absurd ((hcons k).mp ho).1 (not_le.mpr (hk.2 q rfl))
        intro k hkr
        rw [inRange_cut hq k] at hkr
        simp only [List.cons_append, Beetree.childAt, hcons]
        by_cases hqk : q ≤ k
        · rw [if_pos hqk] at hkr
          simp only [hqk, if_true, true_and]
          exact hC k hkr
        · simp [hqk]

end Kids

namespace Tree
variable {α : ℕ → Type}

/-- The value a key resolves to: the path's messages applied bottom-up over the leaf entry. -/
def resolve {h : ℕ} (t : Tree α h) (k : Key) : Option Value :=
  match h, t with
  | 0, t => (t.entries.get? k).map LeafEntry.value
  | _ + 1, t =>
    let below := (childAt t.pivots t.children k).bind fun c => resolve c k
    match t.buffer.get? k with
    | none => below
    | some m => m.act below

/-- Every occurrence of a key on its path carries a sequence number below the bound. -/
def Below {h : ℕ} (t : Tree α h) (k : Key) (s : ℕ) : Prop :=
  match h, t with
  | 0, t => ∀ e, t.entries.get? k = some e → e.seq.toNat < s
  | _ + 1, t => (∀ m, t.buffer.get? k = some m → m.seq.toNat < s) ∧
    ∀ c, childAt t.pivots t.children k = some c → Below c k s

/-- Key ownership, separator order and freshness. A node without children is allowed only empty:
this is the state in which it asks its parent to unlink it. -/
def Valid {h : ℕ} (t : Tree α h) (lo hi : Option Key) : Prop :=
  match h, t with
  | 0, t => ∀ k e, t.entries.get? k = some e → InRange lo hi k
  | _ + 1, t => (∀ k m, t.buffer.get? k = some m → InRange lo hi k) ∧
    (∀ k m c, t.buffer.get? k = some m → childAt t.pivots t.children k = some c →
      Below c k m.seq.toNat) ∧
    (t.children = [] ∧ t.pivots = [] ∧ t.buffer = OrdMap.empty ∨
      Kids (fun lo hi c => Valid c lo hi) lo hi t.pivots t.children)

def leaf (a : α 0) (entries : Entries) : Tree α 0 := LeafT.mk a entries

def node {h : ℕ} (a : α (h + 1)) (pivots : List Key) (children : List (Tree α h))
    (buffer : Buffer) :
    Tree α (h + 1) := NodeT.mk a pivots children buffer

@[elab_as_elim] lemma zeroCases {motive : Tree α 0 → Prop} (h : ∀ a es, motive (leaf a es))
    (t : Tree α 0) : motive t := h (LeafT.ann t) (LeafT.entries t)

@[elab_as_elim] lemma succCases {h : ℕ} {motive : Tree α (h + 1) → Prop}
    (hn : ∀ a ps cs b, motive (node a ps cs b)) (t : Tree α (h + 1)) : motive t :=
  hn (NodeT.ann t) (NodeT.pivots t) (NodeT.children t) (NodeT.buffer t)

section Unfold
variable {h : ℕ} {lo hi : Option Key} {ps : List Key} {cs : List (Tree α h)} {b : Buffer}
  {es : Entries} {k : Key} {s : ℕ}

@[simp] lemma resolve_leaf (a : α 0) :
    (leaf a es).resolve k = (es.get? k).map LeafEntry.value := rfl

lemma resolve_node (a : α (h + 1)) : (node a ps cs b).resolve k = match b.get? k with
    | none => (childAt ps cs k).bind fun c => c.resolve k
    | some m => m.act ((childAt ps cs k).bind fun c => c.resolve k) := rfl

lemma below_leaf (a : α 0) : (leaf a es).Below k s ↔ ∀ e, es.get? k = some e → e.seq.toNat < s :=
  Iff.rfl

lemma below_node (a : α (h + 1)) : (node a ps cs b).Below k s ↔
    (∀ m, b.get? k = some m → m.seq.toNat < s) ∧ ∀ c, childAt ps cs k = some c →
    c.Below k s := Iff.rfl

lemma valid_leaf (a : α 0) : (leaf a es).Valid lo hi ↔ ∀ k e, es.get? k = some e →
    InRange lo hi k :=
  Iff.rfl

lemma valid_node (a : α (h + 1)) : (node a ps cs b).Valid lo hi ↔
    (∀ k m, b.get? k = some m → InRange lo hi k) ∧
    (∀ k m c, b.get? k = some m → childAt ps cs k = some c → c.Below k m.seq.toNat) ∧
    (cs = [] ∧ ps = [] ∧ b = OrdMap.empty ∨ Kids (fun lo hi c => c.Valid lo hi) lo hi ps cs) :=
    Iff.rfl

end Unfold

lemma Below.mono {h : ℕ} {t : Tree α h} {k : Key} {s s' : ℕ} (ht : Below t k s) (hs : s ≤ s') :
    Below t k s' := by
  induction h with
  | zero => exact fun e he => (ht e he).trans_le hs
  | succ h ih => exact ⟨fun m hm => (ht.1 m hm).trans_le hs, fun c hc => ih (ht.2 c hc)⟩

end Tree
end Beetree
