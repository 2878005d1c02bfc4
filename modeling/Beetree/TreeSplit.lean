import Beetree.TreeMoves

/-! Cutting an overfull tree into pieces, and unlinking a vacant child. -/
namespace Beetree

/-- The pivots left when the child between two runs of pivots goes. -/
def dropPivot (ps₁ ps₂ : List Key) : List Key :=
  if ps₁ = [] then ps₂.tail else ps₁.dropLast ++ ps₂

namespace Tree
variable {α : ℕ → Type} {h : ℕ}

def withAnn {h : ℕ} (a : α h) (t : Tree α h) : Tree α h :=
  match h, t with
  | 0, t => leaf a t.entries
  | _ + 1, t => node a t.pivots t.children t.buffer

def ann {h : ℕ} (t : Tree α h) : α h :=
  match h, t with
  | 0, t => LeafT.ann t
  | _ + 1, t => NodeT.ann t

/-- Cut a tree at a separator: a leaf between two of its entries, a node at one of its pivots,
which then belongs to neither side. -/
def Cut {h : ℕ} (p : Key) (t l r : Tree α h) : Prop :=
  match h, t, l, r with
  | 0, t, l, r => l.entries = t.entries.filter (fun k => k < p) ∧
    r.entries = t.entries.filter (fun k => p ≤ k) ∧ 0 < l.entries.size ∧
    (t.entries.get? p).isSome
  | _ + 1, t, l, r => t.pivots = l.pivots ++ p :: r.pivots ∧ t.children = l.children ++ r.children ∧
    l.children.length = l.pivots.length + 1 ∧
    l.buffer = t.buffer.filter (fun k => k < p) ∧ r.buffer = t.buffer.filter (fun k => p ≤ k)

/-- Peel pieces off the left, each at its separator. -/
inductive Pieces {h : ℕ} : Tree α h → List Key → List (Tree α h) → Prop
  | one (t : Tree α h) (a : α h) : Pieces t [] [t.withAnn a]
  | cut {p : Key} {t l r : Tree α h} {ps : List Key} {cs : List (Tree α h)} :
      Cut p t l r → Pieces r ps cs → Pieces t (p :: ps) (l :: cs)

/-- The offsets strictly below the top of a tree. -/
def kidOffs {h : ℕ} (t : VTree h) : List ℕ :=
  match h, t with
  | 0, _ => []
  | _ + 1, t => t.children.flatMap offs

lemma offs_eq (t : VTree h) : t.offs = t.ann.toList ++ t.kidOffs := by
  cases h with
  | zero => exact (List.append_nil _).symm
  | succ h => rfl

lemma withAnn_resolve (a : α h) (t : Tree α h) (k : Key) :
    (t.withAnn a).resolve k = t.resolve k := by
  cases h <;> rfl

lemma withAnn_below (a : α h) (t : Tree α h) (k : Key) (s : ℕ) :
    (t.withAnn a).Below k s ↔ t.Below k s := by
  cases h <;> exact Iff.rfl

lemma withAnn_valid (a : α h) (t : Tree α h) (lo hi : Option Key) :
    (t.withAnn a).Valid lo hi ↔ t.Valid lo hi := by
  cases h <;> exact Iff.rfl

@[simp] lemma withAnn_kidOffs (a : Option ℕ) (t : VTree h) : (t.withAnn a).kidOffs = t.kidOffs := by
  cases h <;> rfl

@[simp] lemma ann_withAnn (a : α h) (t : Tree α h) : (t.withAnn a).ann = a := by
  cases h <;> rfl

lemma Cut.spec {p : Key} {t l r : Tree α h} (hc : Cut p t l r) {lo hi : Option Key}
    (ht : t.Valid lo hi) :
    Inside lo hi p ∧ l.Valid lo (some p) ∧ r.Valid (some p) hi := by
  cases h with
  | zero =>
    obtain ⟨hl, hr, hne, hp⟩ := hc
    have hle : ∀ k e, (LeafT.entries l).get? k = some e → k < p ∧
      (LeafT.entries t).get? k = some e := by
      intro k e he
      rw [hl] at he
      by_cases hk : k < p <;> simp_all
    have hre : ∀ k e, (LeafT.entries r).get? k = some e → p ≤ k ∧
      (LeafT.entries t).get? k = some e := by
      intro k e he
      rw [hr] at he
      by_cases hk : p ≤ k <;> simp_all
    obtain ⟨k₀, e₀, h₀⟩ := OrdMap.size_pos_iff.mp hne
    obtain ⟨e₁, h₁⟩ := Option.isSome_iff_exists.mp hp
    obtain ⟨hk₀, ht₀⟩ := hle k₀ e₀ h₀
    refine ⟨⟨fun x hx => ((ht k₀ e₀ ht₀).1 x hx).trans_lt hk₀, (ht p e₁ h₁).2⟩, ?_, ?_⟩
    · intro k e he
      obtain ⟨hk, he⟩ := hle k e he
      exact ⟨(ht k e he).1, by simpa using hk⟩
    · intro k e he
      obtain ⟨hk, he⟩ := hre k e he
      exact ⟨by simpa using hk, (ht k e he).2⟩
  | succ h =>
    obtain ⟨hps, hcs, hlen, hbl, hbr⟩ := hc
    obtain ⟨hb, hf, hk⟩ := ht
    rw [hps, hcs] at hf hk
    have hK := hk.resolve_left (by simp)
    obtain ⟨hp, hKl, hKr⟩ := hK.split hlen
    have hat := fun k => childAt_append (NodeT.pivots r) (NodeT.children r) hlen
      (fun q hq => (hKl.inside q hq).2 p rfl) k
    refine ⟨hp, ⟨fun k m hm => ?_, fun k m c hm hc => ?_, Or.inr hKl⟩,
      ⟨fun k m hm => ?_, fun k m c hm hc => ?_, Or.inr hKr⟩⟩
    · rw [hbl] at hm
      by_cases hlt : k < p
      · exact ⟨(hb k m (by simpa [hlt] using hm)).1, by simpa using hlt⟩
      · simp [hlt] at hm
    · rw [hbl] at hm
      by_cases hlt : k < p
      · refine hf k m c (by simpa [hlt] using hm) ?_
        rw [hat k, if_neg (not_le.mpr hlt)]
        exact hc
      · simp [hlt] at hm
    · rw [hbr] at hm
      by_cases hle : p ≤ k
      · exact ⟨by simpa using hle, (hb k m (by simpa [hle] using hm)).2⟩
      · simp [hle] at hm
    · rw [hbr] at hm
      by_cases hle : p ≤ k
      · refine hf k m c (by simpa [hle] using hm) ?_
        rw [hat k, if_pos hle]
        exact hc
      · simp [hle] at hm

lemma Cut.answers {p : Key} {t l r : Tree α h} (hc : Cut p t l r) {lo hi : Option Key}
    (ht : t.Valid lo hi) (k : Key) :
    t.resolve k = (if p ≤ k then r else l).resolve k ∧
      ∀ s, t.Below k s → (if p ≤ k then r else l).Below k s := by
  cases h with
  | zero =>
    obtain ⟨hl, hr, -, -⟩ := hc
    by_cases hk : p ≤ k
    · have he : (LeafT.entries r).get? k = (LeafT.entries t).get? k := by simp [hr, hk]
      simp only [hk, if_true]
      exact ⟨congrArg (Option.map LeafEntry.value) he.symm, fun s hb e h₁ => hb e (he ▸ h₁)⟩
    · have he : (LeafT.entries l).get? k = (LeafT.entries t).get? k := by simp [hl, not_le.mp hk]
      simp only [hk, if_false]
      exact ⟨congrArg (Option.map LeafEntry.value) he.symm, fun s hb e h₁ => hb e (he ▸ h₁)⟩
  | succ h =>
    have hKl := (hc.spec ht).2.1.2.2
    obtain ⟨hps, hcs, hlen, hbl, hbr⟩ := hc
    have hKl := hKl.resolve_left (by intro h0; simp [h0.1] at hlen)
    have hat := childAt_append (NodeT.pivots r) (NodeT.children r) hlen
      (fun q hq => (hKl.inside q hq).2 p rfl) k
    induction t using succCases with
    | hn a ps cs b =>
      change ps = _ at hps
      change cs = _ at hcs
      change _ = b.filter _ at hbl
      change _ = b.filter _ at hbr
      rw [resolve_node, hps, hcs, hat]
      by_cases hk : p ≤ k
      · have he : (NodeT.buffer r).get? k = b.get? k := by simp [hbr, hk]
        simp only [hk, if_true]
        refine ⟨by rw [← he]; rfl, fun s hs => ?_⟩
        rw [below_node, hat, if_pos hk, ← he] at hs
        exact hs
      · have he : (NodeT.buffer l).get? k = b.get? k := by simp [hbl, not_le.mp hk]
        simp only [hk, if_false]
        refine ⟨by rw [← he]; rfl, fun s hs => ?_⟩
        rw [below_node, hat, if_neg hk, ← he] at hs
        exact hs

lemma Cut.kidOffs {p : Key} {t l r : VTree h} (hc : Cut p t l r) :
    t.kidOffs = l.kidOffs ++ r.kidOffs := by
  cases h with
  | zero => rfl
  | succ h =>
    change (NodeT.children t).flatMap offs = _
    rw [hc.2.1, List.flatMap_append]
    rfl

lemma Pieces.offs {c : VTree h} {ps : List Key} {cs : List (VTree h)} (hp : Pieces c ps cs)
    (ha : ∀ d ∈ cs, d.ann = none) : (cs.flatMap offs).Sublist c.kidOffs := by
  induction hp with
  | one t a =>
    have hnone : a = none := by simpa using ha _ (List.mem_singleton_self _)
    simp [offs_eq, hnone]
  | @cut p t l r ps cs hc _ ih =>
    rw [hc.kidOffs, List.flatMap_cons, offs_eq l, ha l (by simp)]
    exact (List.Sublist.refl _).append (ih fun d hd => ha d (by simp [hd]))

/-- The pieces of a child answer for it. -/
theorem Pieces.answers {c : Tree α h} {ps : List Key} {cs : List (Tree α h)} (hp : Pieces c ps cs)
    {m m' : Option Key} (hc : c.Valid m m') :
    Kids (fun lo hi d => d.Valid lo hi) m m' ps cs ∧
      ∀ k, InRange m m' k → ∃ d, childAt ps cs k = some d ∧ c.resolve k = d.resolve k ∧
        ∀ s, c.Below k s → d.Below k s := by
  induction hp generalizing m with
  | one t a =>
    refine ⟨?_, fun k _ => ⟨_, rfl, (withAnn_resolve a t k).symm,
      fun s => (withAnn_below a t k s).mpr⟩⟩
    change (t.withAnn a).Valid m m'
    exact (withAnn_valid a t m m').mpr hc
  | @cut p t l r ps cs hcut _ ih =>
    obtain ⟨hp, hl, hr⟩ := hcut.spec hc
    obtain ⟨hK, hfind⟩ := ih hr
    refine ⟨⟨hp, hl, hK⟩, fun k hk => ?_⟩
    obtain ⟨hres, hbel⟩ := hcut.answers hc k
    rw [inRange_cut hp] at hk
    by_cases hpk : p ≤ k
    · simp only [hpk, if_true] at hk hres hbel
      obtain ⟨d, hd, h₁, h₂⟩ := hfind k hk
      exact ⟨d, by simp [childAt, hpk, hd], hres.trans h₁, fun s hs => h₂ s (hbel s hs)⟩
    · simp only [hpk, if_false] at hres hbel
      exact ⟨l, by simp [childAt, hpk], hres, hbel⟩

/-- Nothing is left in a leaf without entries or a node without children. -/
def Vacant {h : ℕ} (t : Tree α h) : Prop :=
  match h, t with
  | 0, t => t.entries = OrdMap.empty
  | _ + 1, t => t.children = []

lemma Vacant.absent {t : Tree α h} (hv : t.Vacant) {lo hi : Option Key}
    (ht : t.Valid lo hi) (k : Key) :
    t.resolve k = none ∧ ∀ s, t.Below k s := by
  cases h with
  | zero =>
    change LeafT.entries t = OrdMap.empty at hv
    refine ⟨?_, fun s e he => ?_⟩
    · change ((LeafT.entries t).get? k).map LeafEntry.value = none
      simp [hv]
    · simp [hv] at he
  | succ h =>
    change NodeT.children t = [] at hv
    have hK := ht.2.2.resolve_right fun hK => hK.ne_nil hv
    refine ⟨?_, fun s => ⟨fun m hm => ?_, fun c hc => ?_⟩⟩
    · induction t using succCases with
      | hn a ps cs b =>
        obtain ⟨rfl, rfl, rfl⟩ := hK
        rfl
    · simp [hK.2.2] at hm
    · have := childAt_mem hc
      simp [hv] at this

lemma seen_outside {ps : List Key} {cs : List (Tree α h)} {lo hi : Option Key}
    (hK : Kids (fun lo hi c => c.Valid lo hi) lo hi ps cs) {k : Key} (hk : ¬ InRange lo hi k) :
    seen ps cs k = none ∧ ∀ s, SeenBelow ps cs k s := by
  have hc : ∀ c, childAt ps cs k = some c → c.resolve k = none ∧ ∀ s, c.Below k s := by
    intro c hc
    obtain ⟨lo', hi', hv, w⟩ := hK.mem_range c (childAt_mem hc)
    exact hv.outside fun hin => hk (w.inRange hin)
  refine ⟨?_, fun s c h₁ => (hc c h₁).2 s⟩
  unfold seen
  cases he : childAt ps cs k with
  | none => rfl
  | some c => exact (hc c he).1

end Tree

lemma Kids.unlink {T : Type} {P : Option Key → Option Key → T → Prop}
    (hP : ∀ lo hi lo' hi' c, Wider lo hi lo' hi' → P lo hi c → P lo' hi' c) {lo hi : Option Key}
    {ps₁ ps₂ : List Key} {cs₁ cs₂ : List T} {c : T} (hl : ps₁.length = cs₁.length)
    (hK : Kids P lo hi (ps₁ ++ ps₂) (cs₁ ++ c :: cs₂)) :
    cs₁ ++ cs₂ = [] ∧ dropPivot ps₁ ps₂ = [] ∨
      Kids P lo hi (dropPivot ps₁ ps₂) (cs₁ ++ cs₂) := by
  rcases List.eq_nil_or_concat ps₁ with rfl | ⟨ps, p, rfl⟩
  · obtain rfl : cs₁ = [] := by simpa using hl.symm
    simp only [dropPivot, if_true, List.nil_append] at hK ⊢
    cases ps₂ with
    | nil =>
      obtain rfl : cs₂ = [] := by simpa using hK.length
      exact Or.inl ⟨rfl, rfl⟩
    | cons p ps₂ =>
      obtain ⟨hp, hcv, hr⟩ := hK
      exact Or.inr (hr.widen hP ⟨fun l hl => ⟨p, rfl, (hp.1 l hl).le⟩, (wider_refl lo hi).2⟩)
  · simp only [dropPivot, List.concat_eq_append, List.append_assoc, List.singleton_append,
      List.append_eq_nil_iff, List.cons_ne_self, and_false, if_false,
        List.dropLast_concat] at hK hl ⊢
    have hlen : cs₁.length = ps.length + 1 := by simpa using hl.symm
    obtain ⟨hp, hleft, hright⟩ := hK.split hlen
    cases ps₂ with
    | nil =>
      obtain rfl : cs₂ = [] := by simpa using hright.length
      simp only [List.append_nil]
      exact Or.inr (hleft.widen hP ⟨(wider_refl lo hi).1, fun u hu => ⟨p, rfl, (hp.2 u hu).le⟩⟩)
    | cons q ps₂ =>
      obtain ⟨hq, hcv, hrest⟩ := hright
      have hpq : p < q := hq.1 p rfl
      have w : Wider lo (some p) lo (some q) :=
        ⟨(wider_refl lo hi).1, fun u hu => ⟨p, rfl, by cases hu; exact hpq.le⟩⟩
      exact Or.inr (Kids.append ⟨fun l hl => (hp.1 l hl).trans hpq, hq.2⟩ (hleft.widen hP w) hrest)

namespace Tree
variable {α : ℕ → Type} {h : ℕ}

lemma seen_unlink {lo hi : Option Key} {ps₁ ps₂ : List Key}
    {cs₁ cs₂ : List (Tree α h)} {c : Tree α h}
    (hl : ps₁.length = cs₁.length)
    (hK : Kids (fun lo hi c => c.Valid lo hi) lo hi (ps₁ ++ ps₂) (cs₁ ++ c :: cs₂))
    (hc : ∀ k, c.resolve k = none) (k : Key) :
    seen (ps₁ ++ ps₂) (cs₁ ++ c :: cs₂) k = seen (dropPivot ps₁ ps₂) (cs₁ ++ cs₂) k ∧
      ∀ s, SeenBelow (ps₁ ++ ps₂) (cs₁ ++ c :: cs₂) k s →
        SeenBelow (dropPivot ps₁ ps₂) (cs₁ ++ cs₂) k s := by
  rcases List.eq_nil_or_concat ps₁ with rfl | ⟨ps, p, rfl⟩
  · obtain rfl : cs₁ = [] := by simpa using hl.symm
    simp only [dropPivot, if_true, List.nil_append] at hK ⊢
    cases ps₂ with
    | nil =>
      obtain rfl : cs₂ = [] := by simpa using hK.length
      simp [seen, SeenBelow, childAt, hc]
    | cons p ps₂ =>
      obtain ⟨hp, hcv, hr⟩ := hK
      by_cases hpk : p ≤ k
      · simp [seen, SeenBelow, childAt, hpk]
      · obtain ⟨h₂, h₃⟩ := seen_outside hr (k := k) fun hin => hpk (hin.1 p rfl)
        refine ⟨?_, fun s _ => h₃ s⟩
        rw [show (p :: ps₂).tail = ps₂ from rfl, h₂]
        simp [seen, childAt, hpk, hc]
  · simp only [dropPivot, List.concat_eq_append, List.append_assoc, List.singleton_append,
      List.append_eq_nil_iff, List.cons_ne_self, and_false, if_false,
        List.dropLast_concat] at hK hl ⊢
    have hlen : cs₁.length = ps.length + 1 := by simpa using hl.symm
    obtain ⟨hp, hleft, hright⟩ := hK.split hlen
    have hat := childAt_append ps₂ (c :: cs₂) hlen
      (fun q hq => (hleft.inside q hq).2 p rfl) k
    have hout : p ≤ k → seen ps cs₁ k = none ∧ ∀ s, SeenBelow ps cs₁ k s := fun hk =>
      seen_outside hleft fun hin => not_lt.mpr hk (hin.2 p rfl)
    cases ps₂ with
    | nil =>
      obtain rfl : cs₂ = [] := by simpa using hright.length
      simp only [List.append_nil] at hat ⊢
      by_cases hpk : p ≤ k
      · obtain ⟨h₂, h₃⟩ := hout hpk
        refine ⟨?_, fun s _ => h₃ s⟩
        rw [h₂]
        simp [seen, hat, hpk, childAt, hc]
      · simp [seen, SeenBelow, hat, hpk]
    | cons q ps₂ =>
      obtain ⟨hq, hcv, hrest⟩ := hright
      have hpq : p < q := hq.1 p rfl
      have hat' := childAt_append ps₂ cs₂ hlen
        (fun r hr => ((hleft.inside r hr).2 p rfl).trans hpq) k
      by_cases hqk : q ≤ k
      · simp [seen, SeenBelow, hat, hat', hqk, hpq.le.trans hqk, childAt]
      · by_cases hpk : p ≤ k
        · obtain ⟨h₂, h₃⟩ := hout hpk
          refine ⟨?_, fun s _ => ?_⟩
          · unfold seen at h₂ ⊢
            rw [hat, hat', if_pos hpk, if_neg hqk, h₂]
            simp [childAt, hqk, hc]
          · unfold SeenBelow at h₃ ⊢
            rw [hat', if_neg hqk]
            exact h₃ s
        · simp [seen, SeenBelow, hat, hat', hqk, hpk]

/-- Unlinking a vacant child whose messages are all gone: a neighbour absorbs its range. -/
theorem unlink {lo hi : Option Key} {a : Option ℕ} {ps₁ ps₂ : List Key} {cs₁ cs₂ : List (VTree h)}
    {c : VTree h} {b : Buffer} (hl : ps₁.length = cs₁.length)
    (hv : (node a (ps₁ ++ ps₂) (cs₁ ++ c :: cs₂) b : VTree (h + 1)).Valid lo hi) (hc : c.Vacant)
    (hb : ∀ k, owns ps₁ ps₂ k → b.get? k = none) :
    (node none (dropPivot ps₁ ps₂) (cs₁ ++ cs₂) b : VTree (h + 1)).Valid lo hi ∧
      Yields lo hi (node a (ps₁ ++ ps₂) (cs₁ ++ c :: cs₂) b)
        (node none (dropPivot ps₁ ps₂) (cs₁ ++ cs₂) b) := by
  have hK := ((valid_node a).mp hv).2.2.resolve_left (by simp)
  obtain ⟨m, m', hcv, -, -⟩ := hK.focus hl
  refine exchange hv ?_ ?_ fun k _ => seen_unlink hl hK (fun k => (hc.absent hcv k).1) k
  · simp only [List.flatMap_append, List.flatMap_cons, Option.toList_none, List.nil_append]
    exact ((List.Sublist.refl _).append (List.sublist_append_right _ _)).trans
      (List.sublist_append_right _ _)
  · refine (Kids.unlink (fun _ _ _ _ _ w hc => hc.widen w) hl hK).imp_left ?_
    rintro ⟨h₁, h₂⟩
    refine ⟨h₁, h₂, OrdMap.eq_empty_iff.mpr fun k => hb k ?_⟩
    obtain ⟨rfl, rfl⟩ := List.append_eq_nil_iff.mp h₁
    obtain rfl : ps₁ = [] := by simpa using hl
    obtain rfl : ps₂ = [] := by simpa using hK.length
    simp [owns]

end Tree
end Beetree
