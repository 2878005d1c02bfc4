import Beetree.Flags

/-! What the engine does to a live tree, move by move, and what every move leaves alone. -/
namespace Beetree

namespace Cell
variable {B : Type} {h : ℕ}

/-- Records are good ones, and a clean node's record holds what the node holds. -/
def Sound (P : VTree h → Prop) (R : VTree h → B → Prop) (S : B → Prop) : Cell (VTree h) B → Prop
  | known _ dirty disk body => (∀ d, disk = some d → P d) ∧
      (dirty = false → ∃ d, disk = some d ∧ R d body) ∧ S body
  | stub _ d => P d

end Cell

namespace Body

/-- A record that holds a node: the same entries, or the same pivots and buffer over the records of
the children. -/
def Recorded {h : ℕ} (d : VTree h) (x : Body h) : Prop :=
  match h, d, x with
  | 0, d, es => ∃ o, d = Tree.leaf (some o) es
  | _ + 1, d, x => ∃ o ds, d = Tree.node (some o) x.pivots ds x.buffer ∧
      x.children.map Cell.disk = ds.map some

def Sound (P : (h : ℕ) → VTree h → Prop) {h : ℕ} (x : Body h) : Prop :=
  match h, x with
  | 0, _ => True
  | h + 1, x => ∀ c ∈ x.children, Cell.Sound (P h) Recorded (fun y => Sound P y) c

def KidsClean {h : ℕ} (x : Body h) : Prop :=
  match h, x with
  | 0, _ => True
  | _ + 1, x => ∀ c ∈ x.children, c.dirty = false

/-- Below this node, clean nodes have clean children. -/
def Closed {h : ℕ} (x : Body h) : Prop :=
  match h, x with
  | 0, _ => True
  | _ + 1, x => ∀ c ∈ x.children, match c with
      | Cell.known _ dirty _ y => (dirty = false → KidsClean y) ∧ Closed y
      | Cell.stub _ _ => True

def Childless {h : ℕ} (x : Body h) : Prop :=
  match h, x with
  | 0, _ => False
  | _ + 1, x => x.children = []

def Vacant {h : ℕ} (x : Body h) : Prop :=
  match h, x with
  | 0, es => es = OrdMap.empty
  | _ + 1, x => x.children = []

def receive {h : ℕ} (batch : Buffer) (x : Body h) : Body h :=
  match h, x with
  | 0, es => batch.toList.foldl (fun es x => applyToLeaf es x.1 x.2) es
  | _ + 1, x =>
    Inner.mk x.pivots x.children (batch.toList.foldl (fun b x => coalesceInto b x.1 x.2) x.buffer)

def Cut {h : ℕ} (p : Key) (x l r : Body h) : Prop :=
  match h, x, l, r with
  | 0, x, l, r => l = OrdMap.filter x (fun k => k < p) ∧ r = OrdMap.filter x (fun k => p ≤ k) ∧
      0 < OrdMap.size l ∧ (OrdMap.get? x p).isSome
  | _ + 1, x, l, r => x.pivots = l.pivots ++ p :: r.pivots ∧ x.children = l.children ++ r.children ∧
      l.children.length = l.pivots.length + 1 ∧
      l.buffer = x.buffer.filter (fun k => k < p) ∧ r.buffer = x.buffer.filter (fun k => p ≤ k)

/-- The pieces of a split, peeled off from the left. -/
inductive Pieces {h : ℕ} : Body h → List Key → List (Body h) → Prop
  | one (x : Body h) : Pieces x [] [x]
  | cut {p : Key} {x l r : Body h} {ps : List Key} {xs : List (Body h)} :
      Cut p x l r → Pieces r ps xs → Pieces x (p :: ps) (l :: xs)

end Body

namespace Live
variable {h : ℕ}

def Sound (P : (h : ℕ) → VTree h → Prop) (t : Live h) : Prop :=
  Cell.Sound (P h) Body.Recorded (Body.Sound P) t

/-- Clean nodes have clean children: the dirty nodes form a connected subtree at the root. -/
def Closed : Live h → Prop
  | Cell.known _ dirty _ x => (dirty = false → x.KidsClean) ∧ x.Closed
  | Cell.stub _ _ => True

end Live

lemma Body.sound_node {P : (h : ℕ) → VTree h → Prop} {h : ℕ} {ps : List Key} {cs : List (Live h)}
    {b : Buffer} : (Body.node ps cs b).Sound P ↔ ∀ c ∈ cs, Live.Sound P c := Iff.rfl

lemma Body.closed_node {h : ℕ} {ps : List Key} {cs : List (Live h)} {b : Buffer} :
    (Body.node ps cs b).Closed ↔ ∀ c ∈ cs, Live.Closed c := by
  refine forall₂_congr fun c _ => ?_
  cases c <;> exact Iff.rfl

lemma Body.kidsClean_node {h : ℕ} {ps : List Key} {cs : List (Live h)} {b : Buffer} :
    (Body.node ps cs b).KidsClean ↔ ∀ c ∈ cs, c.dirty = false := Iff.rfl

/-- A property of records that passes to the records below. -/
def Hereditary (P : (h : ℕ) → VTree h → Prop) : Prop :=
  ∀ (h : ℕ) (a : Option ℕ) (ps : List Key) (ds : List (VTree h)) (b : Buffer),
    P (h + 1) (Tree.node a ps ds b) → ∀ d ∈ ds, P h d

/-- One body may turn into another under a dirty node. -/
structure Turns (q : Bool) {h : ℕ} (x y : Body h) : Prop where
  good : ∀ p lo hi, x.Good p lo hi → y.Good p lo hi ∧ Tree.Yields lo hi (x.view p) (y.view p)
  sound : ∀ P, Hereditary P → x.Sound P → y.Sound P
  closed : q = false → x.Closed → y.Closed
  quiet : (x.plain true).Quiet → (y.plain true).Quiet
  safe : ∀ B lo hi, x.Good false lo hi → (x.plain true).DrainSafe B lo hi →
    (y.plain true).DrainSafe B lo hi

/-- One live tree may turn into another in place. Where `q` is false, nothing below a clean node
becomes dirty. -/
structure Leads (q : Bool) {h : ℕ} (t t' : Live h) : Prop where
  good : ∀ p lo hi, Live.Good p lo hi t →
    Live.Good p lo hi t' ∧ Tree.Yields lo hi (Live.view p t) (Live.view p t')
  id : t'.id = t.id
  disk : t'.disk = t.disk
  dirty : t.dirty = true → t'.dirty = true
  sound : ∀ P, Hereditary P → Live.Sound P t → Live.Sound P t'
  closed : q = false → Live.Closed t → Live.Closed t'
  quiet : (Live.plain t).Quiet → (Live.plain t').Quiet
  safe : ∀ B lo hi, Live.Good false lo hi t → (Live.plain t).DrainSafe B lo hi →
    (Live.plain t').DrainSafe B lo hi

section Leads
variable {q : Bool} {h : ℕ}

lemma Leads.refl (q : Bool) (t : Live h) : Leads q t t where
  good _ _ _ ht := ⟨ht, Tree.Yields.refl _ _ _⟩
  id := rfl
  disk := rfl
  dirty hd := hd
  sound _ _ ht := ht
  closed _ ht := ht
  quiet ht := ht
  safe _ _ _ _ ht := ht

lemma Leads.trans {t t' t'' : Live h} (h₁ : Leads q t t') (h₂ : Leads q t' t'') :
    Leads q t t'' where
  good p lo hi ht := by
    obtain ⟨ht', hy⟩ := h₁.good p lo hi ht
    obtain ⟨ht'', hy'⟩ := h₂.good p lo hi ht'
    exact ⟨ht'', hy.trans hy'⟩
  id := h₂.id.trans h₁.id
  disk := h₂.disk.trans h₁.disk
  dirty hd := h₂.dirty (h₁.dirty hd)
  sound P hP ht := h₂.sound P hP (h₁.sound P hP ht)
  closed hq ht := h₂.closed hq (h₁.closed hq ht)
  quiet ht := h₂.quiet (h₁.quiet ht)
  safe B lo hi hg ht := h₂.safe B lo hi (h₁.good false lo hi hg).1 (h₁.safe B lo hi hg ht)

lemma Turns.leads {id : NodeId} {disk : Option (VTree h)} {x y : Body h} (hxy : Turns q x y) :
    Leads q (Cell.known id true disk x) (Cell.known id true disk y) where
  good p lo hi ht := by
    simp only [Live.good_dirty, Live.view_dirty] at ht ⊢
    exact hxy.good p lo hi ht
  id := rfl
  disk := rfl
  dirty := fun _ => rfl
  sound P hP ht := ⟨ht.1, by simp, hxy.sound P hP ht.2.2⟩
  closed hq ht := ⟨by simp, hxy.closed hq ht.2⟩
  quiet := hxy.quiet
  safe B lo hi hg := hxy.safe B lo hi ((Live.good_dirty disk x).mp hg)

lemma Leads.touch (q : Bool) (id : NodeId) (dirty : Bool) (disk : Option (VTree h)) (x : Body h) :
    Leads q (Cell.known id dirty disk x) (Cell.known id true disk x) where
  good p lo hi ht := by
    rw [Live.good_dirty, Live.view_dirty, Live.view_known]
    rw [Live.good_known] at ht
    refine ⟨ht.1, ?_⟩
    split_ifs with hp
    · obtain ⟨rfl, hd⟩ : p = true ∧ dirty = false := by simpa using hp
      obtain ⟨d, rfl, -, hy⟩ := ht.2 rfl hd
      exact hy
    · exact Tree.Yields.refl _ _ _
  id := rfl
  disk := rfl
  dirty := fun _ => rfl
  sound P _ ht := ⟨ht.1, by simp, ht.2.2⟩
  closed _ ht := ⟨by simp, ht.2⟩
  quiet ht := Body.quiet_plain.mp ht
  safe B lo hi _ ht := by
    cases h with
    | zero => trivial
    | succ h => exact ⟨Or.inr (Or.inl rfl), ht.2⟩

lemma kids_good_of_node {p : Bool} {lo hi : Option Key} {ps : List Key} {cs : List (Live h)}
    {b : Buffer} (hx : (Body.node ps cs b).Good p lo hi) (hne : cs ≠ []) :
    Kids (fun lo hi c => Live.Good p lo hi c) lo hi ps cs := hx.2.resolve_left hne

lemma Leads.answers {c c' : Live h} (hc : Leads q c c') {p : Bool} {m m' : Option Key}
    (hg : Live.Good p m m' c) : Tree.Answers (Live.view p) m m' c [] [c'] := by
  intro k hk
  have hy := (hc.good p m m' hg).2
  exact ⟨c', rfl, hy.same k hk, fun s => hy.below k s hk⟩

lemma Kids.of_safe {B : Key → Prop} {lo hi : Option Key} {ps : List Key} {cs : List (Live h)}
    {b : Buffer} {d : Bool} (hx : ((Body.node ps cs b).plain d).DrainSafe B lo hi) (hne : cs ≠ []) :
    Kids (fun lo hi c => (Live.plain c).DrainSafe (fun k => B k ∨ (b.get? k).isSome) lo hi) lo hi ps
      cs :=
  Kids.of_map Live.plain (hx.2.resolve_left fun h0 => hne (List.map_eq_nil_iff.mp h0))

lemma drainSafe_node {B : Key → Prop} {lo hi : Option Key} {ps : List Key} {cs : List (Live h)}
    {b : Buffer}
    (hK : Kids (fun lo hi c => (Live.plain c).DrainSafe (fun k => B k ∨ (b.get? k).isSome) lo hi)
      lo hi ps cs) : ((Body.node ps cs b).plain true).DrainSafe B lo hi :=
  ⟨Or.inr (Or.inl rfl), Or.inr (Kids.map Live.plain hK)⟩

lemma Turns.within {ps₁ ps₂ : List Key} {cs₁ cs₂ : List (Live h)} {c c' : Live h} {b : Buffer}
    (hl : ps₁.length = cs₁.length) (hc : Leads q c c') :
    Turns q (Body.node (ps₁ ++ ps₂) (cs₁ ++ c :: cs₂) b)
      (Body.node (ps₁ ++ ps₂) (cs₁ ++ c' :: cs₂) b) where
  good p lo hi hx := by
    have hK := kids_good_of_node hx (by simp)
    by_cases hr : ∃ m m', Live.Good p m m' c
    · obtain ⟨m, m', hg⟩ := hr
      have ho := (hc.good p m m' hg).2.offs
      obtain ⟨hK', hv, hy⟩ := Tree.graft (Live.view p) [] [c'] hl
        (fun _ _ _ hd => hd.valid) hx.1 hK
        (fun m m' hg => ⟨(hc.good p m m' hg).1, hc.answers hg⟩) (by simpa using ho)
      simp only [List.append_nil, List.append_assoc, List.singleton_append] at hK' hv hy
      exact ⟨⟨hv, Or.inr hK'⟩, hy⟩
    · obtain ⟨m, m', hg, -⟩ := hK.focus hl
      exact absurd ⟨m, m', hg⟩ hr
  sound P hP hx := by
    rw [Body.sound_node] at hx ⊢
    intro d hd
    simp only [List.mem_append, List.mem_cons] at hd hx
    rcases hd with hd | rfl | hd
    · exact hx d (Or.inl hd)
    · exact hc.sound P hP (hx c (Or.inr (Or.inl rfl)))
    · exact hx d (Or.inr (Or.inr hd))
  closed hq hx := by
    rw [Body.closed_node] at hx ⊢
    intro d hd
    simp only [List.mem_append, List.mem_cons] at hd hx
    rcases hd with hd | rfl | hd
    · exact hx d (Or.inl hd)
    · exact hc.closed hq (hx c (Or.inr (Or.inl rfl)))
    · exact hx d (Or.inr (Or.inr hd))
  quiet hx := by
    simp only [Body.plain_node, Tree.quiet_node, List.mem_map, forall_exists_index, and_imp,
      forall_apply_eq_imp_iff₂, List.mem_append, List.mem_cons] at hx ⊢
    refine ⟨hx.1, fun d hd => ?_⟩
    rcases hd with hd | rfl | hd
    · exact hx.2 d (Or.inl hd)
    · exact hc.quiet (hx.2 c (Or.inr (Or.inl rfl)))
    · exact hx.2 d (Or.inr (Or.inr hd))
  safe B lo hi hg hx := by
    have hK := (kids_good_of_node hg (by simp)).and (Kids.of_safe hx (by simp))
    obtain ⟨m, m', hcm, -, hrep⟩ := hK.focus hl
    obtain ⟨hK', -⟩ := hrep _ [] [c'] (fun _ _ _ _ _ hd => hd)
      ⟨(hc.good false m m' hcm.1).1, hc.safe _ m m' hcm.1 hcm.2⟩
    simp only [List.append_nil, List.append_assoc, List.singleton_append] at hK'
    exact drainSafe_node (hK'.imp fun _ _ _ _ hd => hd.2)

/-- A change inside one child. Under a clean node it needs `q`, unless the child stays clean. -/
lemma Leads.within {id : NodeId} {dirty : Bool} {disk : Option (VTree (h + 1))} {ps₁ ps₂ : List Key}
    {cs₁ cs₂ : List (Live h)} {c c' : Live h} {b : Buffer} (hl : ps₁.length = cs₁.length)
    (hc : Leads q c c') (hq : q = true ∨ dirty = true ∨ c'.dirty = c.dirty) :
    Leads q (Cell.known id dirty disk (Body.node (ps₁ ++ ps₂) (cs₁ ++ c :: cs₂) b))
      (Cell.known id dirty disk (Body.node (ps₁ ++ ps₂) (cs₁ ++ c' :: cs₂) b)) := by
  have hx : Turns q (Body.node (ps₁ ++ ps₂) (cs₁ ++ c :: cs₂) b) _ := Turns.within hl hc
  refine ⟨fun p lo hi ht => ?_, rfl, rfl, fun hd => hd,
    fun P hP ht => ?_, fun hq' ht => ?_, fun ht =>
      Body.quiet_plain.mp (hx.quiet (Body.quiet_plain.mp ht)),
    fun B lo hi hg ht => ?_⟩
  · obtain ⟨hg, hs⟩ := ht
    obtain ⟨hg', hy⟩ := hx.good p lo hi hg
    refine ⟨⟨hg', fun hp hd => ?_⟩, ?_⟩
    · obtain ⟨d, hdisk, hv, hyd⟩ := hs hp hd
      exact ⟨d, hdisk, hv, hyd.trans hy⟩
    · rw [Live.view_known, Live.view_known]
      split_ifs with hp
      · obtain ⟨rfl, hd⟩ : p = true ∧ dirty = false := by simpa using hp
        obtain ⟨d, rfl, -, -⟩ := hs rfl hd
        exact Tree.Yields.refl _ _ _
      · exact hy
  · refine ⟨ht.1, fun hd => ?_, hx.sound P hP ht.2.2⟩
    obtain ⟨d, hdisk, o, ds, hrec, hkids⟩ := ht.2.1 hd
    refine ⟨d, hdisk, o, ds, hrec, ?_⟩
    rw [← hkids]
    change (cs₁ ++ c' :: cs₂).map Cell.disk = (cs₁ ++ c :: cs₂).map Cell.disk
    simp [hc.disk]
  · refine ⟨fun hd => ?_, hx.closed hq' ht.2⟩
    have hkc := ht.1 hd
    rw [Body.kidsClean_node] at hkc ⊢
    have hcd : c'.dirty = c.dirty := by
      rcases hq with hq | hq | hq
      · simp [hq'] at hq
      · simp [hd] at hq
      · exact hq
    intro e he
    simp only [List.mem_append, List.mem_cons] at he hkc
    rcases he with he | rfl | he
    · exact hkc e (Or.inl he)
    · exact hcd.trans (hkc c (Or.inr (Or.inl rfl)))
    · exact hkc e (Or.inr (Or.inr he))
  · have hsafe := hx.safe B lo hi hg.1 ⟨Or.inr (Or.inl rfl), ht.2⟩
    refine ⟨ht.1.imp_right (Or.imp_right fun hq => ?_), hsafe.2⟩
    have hquiet : ((Body.node (ps₁ ++ ps₂) (cs₁ ++ c :: cs₂) OrdMap.empty).plain true).Quiet :=
      ⟨rfl, hq⟩
    exact ((Turns.within hl hc).quiet hquiet).2

lemma Body.childless_view {p : Bool} {x : Body h} : (x.view p).Childless ↔ x.Childless := by
  cases h with
  | zero => exact Iff.rfl
  | succ h => exact List.map_eq_nil_iff

lemma Body.vacant_view {p : Bool} {x : Body h} : (x.view p).Vacant ↔ x.Vacant := by
  cases h with
  | zero => exact Iff.rfl
  | succ h => exact List.map_eq_nil_iff

@[simp] lemma Body.view_receive {p : Bool} (batch : Buffer) (x : Body h) :
    (x.receive batch).view p = (x.view p).receive batch none := by
  cases h <;> rfl

lemma Body.sound_receive {P : (h : ℕ) → VTree h → Prop} {batch : Buffer} {x : Body h} :
    (x.receive batch).Sound P ↔ x.Sound P := by
  cases h <;> exact Iff.rfl

lemma Body.closed_receive {batch : Buffer} {x : Body h} : (x.receive batch).Closed ↔ x.Closed := by
  cases h <;> exact Iff.rfl

lemma Body.Good.receive {p : Bool} {lo hi : Option Key} {batch : Buffer} {x : Body h}
    (hx : x.Good p lo hi) (hr : ∀ k m, batch.get? k = some m → InRange lo hi k)
    (hb : ∀ k m, batch.get? k = some m → (x.view p).Below k m.seq.toNat) (hne : ¬ x.Childless) :
    (x.receive batch).Good p lo hi := by
  have hv : ((x.receive batch).view p).Valid lo hi := by
    rw [Body.view_receive]
    exact Tree.receive_valid none hx.valid hr hb (Body.childless_view.not.mpr hne)
  cases h with
  | zero => exact hv
  | succ h => exact ⟨hv, hx.2⟩

lemma Body.receive_empty (x : Body h) : x.receive OrdMap.empty = x := by
  cases h <;> rfl

lemma Body.receive_safe {B B' : Key → Prop} {lo hi : Option Key} {batch : Buffer} {x : Body h}
    (hx : (x.plain true).DrainSafe B lo hi)
    (hB : ∀ k, InRange lo hi k → B k → (B' k ∨ (batch.get? k).isSome)) :
    ((x.receive batch).plain true).DrainSafe B' lo hi := by
  cases h with
  | zero => trivial
  | succ h =>
    refine ⟨Or.inr (Or.inl rfl), hx.2.imp_right fun hK => ?_⟩
    refine hK.imp_range fun lo' hi' c _ hsub hc => hc.imp fun k hk hb => ?_
    change B' k ∨
      ((batch.toList.foldl (fun b x => coalesceInto b x.1 x.2) (Inner.buffer x)).get? k).isSome
    rw [get?_receive_buffer]
    cases hk' : batch.get? k with
    | some m => exact Or.inr rfl
    | none =>
      refine hb.elim (fun hb => Or.inl ?_) Or.inr
      exact (hB k (hsub k hk) hb).resolve_right (by simp [hk'])

lemma Turns.deliver {ps₁ ps₂ : List Key} {cs₁ cs₂ : List (Live h)} {id : NodeId}
    {disk : Option (VTree h)} {x : Body h} {b : Buffer} (hl : ps₁.length = cs₁.length)
    (hne : ¬ x.Childless) :
    Turns q (Body.node (ps₁ ++ ps₂) (cs₁ ++ Cell.known id true disk x :: cs₂) b)
      (Body.node (ps₁ ++ ps₂)
        (cs₁ ++ Cell.known id true disk (x.receive (b.filter (owns ps₁ ps₂ ·))) :: cs₂)
        (b.filter (¬ owns ps₁ ps₂ ·))) where
  good p lo hi hx := by
    have hK := kids_good_of_node hx (by simp)
    have hv := hx.1
    simp only [Body.view_node, List.map_append, List.map_cons, Live.view_dirty] at hv ⊢
    obtain ⟨hb, hf, -⟩ := (Tree.valid_node none).mp hv
    obtain ⟨hv', hy⟩ := Tree.deliver (by simpa using hl) hv (Body.childless_view.not.mpr hne)
    obtain ⟨m, m', hc, hown, hrep⟩ := hK.focus hl
    obtain ⟨-, hself⟩ := hrep (fun _ _ _ => True) [] [_] (fun _ _ _ _ _ _ => trivial) trivial
    rw [Live.good_dirty] at hc
    have hc' : (x.receive (b.filter (owns ps₁ ps₂ ·))).Good p m m' := by
      refine hc.receive (fun k msg hm => ?_) (fun k msg hm => ?_) hne
      · by_cases ho : owns ps₁ ps₂ k
        · exact (hown k).mpr ⟨hb k msg (by simpa [ho] using hm), ho⟩
        · simp [ho] at hm
      · by_cases ho : owns ps₁ ps₂ k
        · have hm' : b.get? k = some msg := by simpa [ho] using hm
          refine hf k msg _ hm' ?_
          have := hself k (hb k msg hm')
          simp only [List.append_nil, List.append_assoc, List.singleton_append, ho, if_true,
            childAt] at this
          have hmap := childAt_map (Live.view p) (ps₁ ++ ps₂)
            (cs₁ ++ Cell.known id true disk x :: cs₂) k
          rw [this] at hmap
          simpa using hmap
        · simp [ho] at hm
    obtain ⟨hK', -⟩ := hrep (fun lo hi c => Live.Good p lo hi c) []
      [Cell.known id true disk (x.receive (b.filter (owns ps₁ ps₂ ·)))] (fun _ _ _ _ _ hd => hd)
      (Live.good_dirty disk _ |>.mpr hc')
    simp only [List.append_nil, List.append_assoc, List.singleton_append] at hK'
    refine ⟨⟨?_, Or.inr hK'⟩, ?_⟩
    · simpa using hv'
    · simpa using hy
  sound P _ hx := by
    rw [Body.sound_node] at hx ⊢
    intro d hd
    simp only [List.mem_append, List.mem_cons] at hd hx
    rcases hd with hd | rfl | hd
    · exact hx d (Or.inl hd)
    · obtain ⟨h₁, h₂, h₃⟩ := hx _ (Or.inr (Or.inl rfl))
      exact ⟨h₁, by simp, Body.sound_receive.mpr h₃⟩
    · exact hx d (Or.inr (Or.inr hd))
  closed _ hx := by
    rw [Body.closed_node] at hx ⊢
    intro d hd
    simp only [List.mem_append, List.mem_cons] at hd hx
    rcases hd with hd | rfl | hd
    · exact hx d (Or.inl hd)
    · obtain ⟨-, h₃⟩ := hx _ (Or.inr (Or.inl rfl))
      exact ⟨by simp, Body.closed_receive.mpr h₃⟩
    · exact hx d (Or.inr (Or.inr hd))
  quiet hx := by
    simp only [Body.plain_node, Tree.quiet_node, List.mem_map, forall_exists_index, and_imp,
      forall_apply_eq_imp_iff₂, List.mem_append, List.mem_cons] at hx ⊢
    obtain ⟨rfl, hq⟩ := hx
    have hempty : (OrdMap.empty : Buffer).filter (owns ps₁ ps₂ ·) = OrdMap.empty := rfl
    refine ⟨rfl, fun d hd => ?_⟩
    rcases hd with hd | rfl | hd
    · exact hq d (Or.inl hd)
    · rw [hempty, Body.receive_empty]
      exact hq _ (Or.inr (Or.inl rfl))
    · exact hq d (Or.inr (Or.inr hd))
  safe B lo hi hg hx := by
    have hK := Kids.of_safe hx (by simp)
    obtain ⟨m, m', hc, -, hrep⟩ := hK.focus hl
    obtain ⟨hK', -⟩ := hrep (fun lo hi c => (Live.plain c).DrainSafe
        (fun k => B k ∨ ((b.filter (¬ owns ps₁ ps₂ ·)).get? k).isSome) lo hi) []
      [Cell.known id true disk (x.receive (b.filter (owns ps₁ ps₂ ·)))]
      (fun lo hi d _ hno hd => hd.imp fun k hk hb => hb.imp_right fun hb => by
        simpa [hno k hk] using hb)
      (Body.receive_safe hc fun k _ hb => by
        by_cases ho : owns ps₁ ps₂ k <;> simpa [ho] using hb)
    simp only [List.append_nil, List.append_assoc, List.singleton_append] at hK'
    exact drainSafe_node hK'

lemma Turns.remove {ps₁ ps₂ : List Key} {cs₁ cs₂ : List (Live h)} {id : NodeId}
    {disk : Option (VTree h)} {x : Body h} {b : Buffer} (hl : ps₁.length = cs₁.length)
    (hx : x.Vacant) (hb : ∀ k, owns ps₁ ps₂ k → b.get? k = none) :
    Turns q (Body.node (ps₁ ++ ps₂) (cs₁ ++ Cell.known id true disk x :: cs₂) b)
      (Body.node (dropPivot ps₁ ps₂) (cs₁ ++ cs₂) b) where
  good p lo hi hg := by
    have hK := kids_good_of_node hg (by simp)
    have hv := hg.1
    simp only [Body.view_node, List.map_append, List.map_cons, Live.view_dirty] at hv ⊢
    obtain ⟨hv', hy⟩ := Tree.unlink (by simpa using hl) hv (Body.vacant_view.mpr hx) hb
    refine ⟨⟨by simpa using hv', ?_⟩, hy⟩
    exact (Kids.unlink (fun _ _ _ _ _ w hc => hc.widen w) hl hK).imp_left And.left
  sound P _ hg := by
    rw [Body.sound_node] at hg ⊢
    intro d hd
    exact hg d (by simp only [List.mem_append, List.mem_cons] at hd ⊢; tauto)
  closed _ hg := by
    rw [Body.closed_node] at hg ⊢
    intro d hd
    exact hg d (by simp only [List.mem_append, List.mem_cons] at hd ⊢; tauto)
  quiet hx := by
    simp only [Body.plain_node, Tree.quiet_node, List.mem_map, forall_exists_index, and_imp,
      forall_apply_eq_imp_iff₂, List.mem_append, List.mem_cons] at hx ⊢
    exact ⟨hx.1, fun d hd => hx.2 d (by tauto)⟩
  safe B lo hi hg hx := by
    rcases Kids.unlink (fun _ _ _ _ _ w hc => hc.widen w) hl
      (Kids.of_safe hx (by simp)) with h0 | hK
    · exact ⟨Or.inr (Or.inl rfl), Or.inl (List.map_eq_nil_iff.mpr h0.1)⟩
    · exact drainSafe_node hK

lemma Body.Cut.view {p : Bool} {s : Key} {x l r : Body h} (hc : Body.Cut s x l r) :
    Tree.Cut s (x.view p) (l.view p) (r.view p) := by
  cases h with
  | zero => exact hc
  | succ h =>
    obtain ⟨hps, hcs, hlen, hbl, hbr⟩ := hc
    refine ⟨hps, ?_, ?_, hbl, hbr⟩
    · exact (congrArg (List.map (Cell.read p (Body.view p))) hcs).trans List.map_append
    · exact (List.length_map _).trans hlen

lemma Body.view_withAnn {p : Bool} (x : Body h) : (x.view p).withAnn none = x.view p := by
  cases h <;> rfl

lemma Body.Pieces.view {p : Bool} {x : Body h} {ps : List Key} {xs : List (Body h)}
    (hp : Body.Pieces x ps xs) : Tree.Pieces (x.view p) ps (xs.map (Body.view p)) := by
  induction hp with
  | one x =>
    have := Tree.Pieces.one (x.view p) none
    rwa [Body.view_withAnn] at this
  | cut hc _ ih => exact Tree.Pieces.cut hc.view ih

lemma Body.Cut.good {p : Bool} {s : Key} {x l r : Body h} (hc : Body.Cut s x l r)
    {lo hi : Option Key}
    (hx : x.Good p lo hi) : Inside lo hi s ∧ l.Good p lo (some s) ∧ r.Good p (some s) hi := by
  obtain ⟨hin, hl, hr⟩ := hc.view.spec hx.valid
  cases h with
  | zero => exact ⟨hin, hl, hr⟩
  | succ h =>
    obtain ⟨hps, hcs, hlen, -, -⟩ := hc
    have hne : x.children ≠ [] := by
      intro h0
      rw [hcs] at h0
      simp [(List.append_eq_nil_iff.mp h0).1] at hlen
    have hK := hx.2.resolve_left hne
    rw [hps, hcs] at hK
    obtain ⟨-, hKl, hKr⟩ := hK.split hlen
    exact ⟨hin, ⟨hl, Or.inr hKl⟩, hr, Or.inr hKr⟩

lemma Body.Pieces.good {p : Bool} {x : Body h} {ps : List Key} {xs : List (Body h)}
    (hp : Body.Pieces x ps xs) {lo hi : Option Key} (hx : x.Good p lo hi) :
    Kids (fun lo hi y => Body.Good p lo hi y) lo hi ps xs := by
  induction hp generalizing lo with
  | one x => exact hx
  | cut hc _ ih =>
    obtain ⟨hin, hl, hr⟩ := hc.good hx
    exact ⟨hin, hl, ih hr⟩

def Body.kids (x : Body (h + 1)) : List (Live h) := Inner.children x

lemma Body.Pieces.kids {x : Body (h + 1)} {ps : List Key} {xs : List (Body (h + 1))}
    (hp : Body.Pieces x ps xs) : xs.flatMap Body.kids = x.kids := by
  induction hp with
  | one x => simp
  | @cut s x l r ps xs hc _ ih =>
    rw [List.flatMap_cons, ih]
    exact hc.2.1.symm

lemma Body.Pieces.sound {P : (h : ℕ) → VTree h → Prop} {x : Body h} {ps : List Key}
    {xs : List (Body h)} (hp : Body.Pieces x ps xs) (hx : x.Sound P) : ∀ y ∈ xs, y.Sound P := by
  cases h with
  | zero => exact fun _ _ => trivial
  | succ h =>
    intro y hy c hc
    refine hx c ?_
    change c ∈ x.kids
    rw [← hp.kids]
    exact List.mem_flatMap.mpr ⟨y, hy, hc⟩

lemma Body.Pieces.closed {x : Body h} {ps : List Key} {xs : List (Body h)}
    (hp : Body.Pieces x ps xs)
    (hx : x.Closed) : ∀ y ∈ xs, y.Closed := by
  cases h with
  | zero => exact fun _ _ => trivial
  | succ h =>
    intro y hy c hc
    refine hx c ?_
    change c ∈ x.kids
    rw [← hp.kids]
    exact List.mem_flatMap.mpr ⟨y, hy, hc⟩

lemma Body.Pieces.quiet {x : Body h} {ps : List Key} {xs : List (Body h)} (hp : Body.Pieces x ps xs)
    (hx : (x.plain true).Quiet) : ∀ y ∈ xs, (y.plain true).Quiet := by
  induction hp with
  | one x => simpa using hx
  | @cut s x l r ps xs hc _ ih =>
    cases h with
    | zero => exact fun _ _ => trivial
    | succ h =>
      obtain ⟨-, hcs, -, hbl, hbr⟩ := hc
      obtain ⟨hb, hq⟩ := hx
      have hb' : x.buffer = OrdMap.empty := hb
      have hq' : ∀ c ∈ x.children, (Live.plain c).Quiet := fun c hc => hq _ (List.mem_map_of_mem hc)
      rw [hcs] at hq'
      have side : ∀ z : Body (h + 1), z.buffer = OrdMap.empty →
          (∀ c ∈ z.children, c ∈ l.children ++ r.children) → (z.plain true).Quiet := by
        intro z hz hsub
        refine ⟨hz, fun c' hc' => ?_⟩
        obtain ⟨c, hc, rfl⟩ := List.mem_map.mp hc'
        exact hq' c (hsub c hc)
      intro y hy
      rcases List.mem_cons.mp hy with rfl | hy
      · exact side y (by rw [hbl, hb']; rfl) fun c hc => List.mem_append_left _ hc
      · exact ih (side r (by rw [hbr, hb']; rfl) fun c hc => List.mem_append_right _ hc) y hy

lemma Body.Pieces.safe {B : Key → Prop} {x : Body h} {ps : List Key} {xs : List (Body h)}
    (hp : Body.Pieces x ps xs) {lo hi : Option Key} (hg : x.Good false lo hi)
    (hx : (x.plain true).DrainSafe B lo hi) :
    Kids (fun lo hi y => (Body.plain true y).DrainSafe B lo hi) lo hi ps xs := by
  induction hp generalizing lo with
  | one x => exact hx
  | @cut s x l r ps xs hc _ ih =>
    obtain ⟨hin, hl, hr⟩ := hc.good hg
    cases h with
    | zero => exact ⟨hin, trivial, ih hr trivial⟩
    | succ h =>
      obtain ⟨hps, hcs, hlen, hbl, hbr⟩ := hc
      have hne : x.children ≠ [] := by
        intro h0
        rw [hcs] at h0
        simp [(List.append_eq_nil_iff.mp h0).1] at hlen
      have hK := Kids.of_safe (b := x.buffer) hx hne
      rw [hps, hcs] at hK
      obtain ⟨-, hKl, hKr⟩ := hK.split hlen
      refine ⟨hin, drainSafe_node (hKl.imp_range fun lo' hi' c _ hsub hc => hc.imp
        fun k hk hb => ?_),
        ih hr (drainSafe_node (hKr.imp_range fun lo' hi' c _ hsub hc => hc.imp fun k hk hb => ?_))⟩
      · have hk' : k < s := (hsub k hk).2 s rfl
        exact hb.imp_right fun hb => by
          rw [hbl]
          simpa [hk'] using hb
      · have hk' : s ≤ k := (hsub k hk).1 s rfl
        exact hb.imp_right fun hb => by
          rw [hbr]
          simpa [hk'] using hb

def freshCells (ids : List NodeId) (xs : List (Body h)) : List (Live h) :=
  List.zipWith (fun id x => Cell.known id true none x) ids xs

lemma freshCells_cons (id : NodeId) (ids : List NodeId) (x : Body h) (xs : List (Body h)) :
    freshCells (id :: ids) (x :: xs) = Cell.known id true none x :: freshCells ids xs := rfl

lemma view_freshCells {p : Bool} {ids : List NodeId} {xs : List (Body h)}
    (hl : ids.length = xs.length) :
    (freshCells ids xs).map (Live.view p) = xs.map (Body.view p) := by
  induction xs generalizing ids with
  | nil => simp [freshCells]
  | cons x xs ih =>
    match ids, hl with
    | id :: ids, hl =>
      rw [freshCells_cons, List.map_cons, List.map_cons, ih (by simpa using hl), Live.view_dirty]

lemma mem_freshCells {ids : List NodeId} {xs : List (Body h)} {c : Live h}
    (hc : c ∈ freshCells ids xs) :
    ∃ id ∈ ids, ∃ x ∈ xs, c = Cell.known id true none x := by
  induction xs generalizing ids with
  | nil => simp [freshCells] at hc
  | cons x xs ih =>
    cases ids with
    | nil => simp [freshCells] at hc
    | cons id ids =>
      rw [freshCells_cons] at hc
      rcases List.mem_cons.mp hc with rfl | hc
      · exact ⟨id, by simp, x, by simp, rfl⟩
      · obtain ⟨i, hi, y, hy, rfl⟩ := ih hc
        exact ⟨i, by simp [hi], y, by simp [hy], rfl⟩

lemma kids_dirty {G : Option Key → Option Key → Body h → Prop}
    {P : Option Key → Option Key → Live h → Prop}
    (hGP : ∀ lo hi id disk x, G lo hi x → P lo hi (Cell.known id true disk x)) {lo hi : Option Key}
    {ps : List Key} {xs : List (Body h)} {cs : List (Live h)}
    (hc : List.Forall₂ (fun x c => ∃ id disk, c = Cell.known id true disk x) xs cs)
    (hK : Kids G lo hi ps xs) : Kids P lo hi ps cs := by
  induction hc generalizing lo ps with
  | nil => exact absurd rfl hK.ne_nil
  | @cons x c xs cs hx htail ih =>
    obtain ⟨id, disk, rfl⟩ := hx
    cases ps with
    | nil =>
      obtain rfl : xs = [] := by simpa using hK.length
      cases htail
      exact hGP _ _ id disk x hK
    | cons s ps => exact ⟨hK.1, hGP _ _ id disk x hK.2.1, ih hK.2.2⟩

lemma childAt_dirty {ps : List Key} {xs : List (Body h)} {cs : List (Live h)}
    (hc : List.Forall₂ (fun x c => ∃ id disk, c = Cell.known id true disk x) xs cs)
    {k : Key} {x : Body h}
    (hx : childAt ps xs k = some x) :
    ∃ id disk, childAt ps cs k = some (Cell.known id true disk x) := by
  induction hc generalizing ps with
  | nil => cases ps <;> simp [childAt] at hx
  | @cons y c xs cs hy _ ih =>
    obtain ⟨id, disk, rfl⟩ := hy
    cases ps with
    | nil =>
      obtain rfl : y = x := by simpa [childAt] using hx
      exact ⟨id, disk, rfl⟩
    | cons s ps =>
      simp only [childAt] at hx ⊢
      split_ifs at hx ⊢ with hs
      · exact ih hx
      · obtain rfl := Option.some.inj hx
        exact ⟨id, disk, rfl⟩

lemma forall₂_freshCells {ids : List NodeId} {xs : List (Body h)} (hl : ids.length = xs.length) :
    List.Forall₂ (fun x c => ∃ id disk, c = Cell.known id true disk x) xs (freshCells ids xs) := by
  induction xs generalizing ids with
  | nil => simp [freshCells]
  | cons x xs ih =>
    match ids, hl with
    | id :: ids, hl => exact List.Forall₂.cons ⟨id, none, rfl⟩ (ih (by simpa using hl))

lemma Turns.split {ps₁ ps₂ ps : List Key} {cs₁ cs₂ : List (Live h)} {id : NodeId}
    {disk : Option (VTree h)} {x y : Body h} {xs : List (Body h)} {ids : List NodeId} {b : Buffer}
    (hl : ps₁.length = cs₁.length) (hp : Body.Pieces x ps (y :: xs))
    (hids : ids.length = xs.length) :
    Turns q (Body.node (ps₁ ++ ps₂) (cs₁ ++ Cell.known id true disk x :: cs₂) b)
      (Body.node (ps₁ ++ ps ++ ps₂) (cs₁ ++ (Cell.known id true disk y :: freshCells ids xs) ++ cs₂)
        b) where
  good p lo hi hg := by
    have hK := kids_good_of_node hg (by simp)
    have hcells : List.Forall₂ (fun x c => ∃ id disk, c = Cell.known id true disk x) (y :: xs)
        (Cell.known id true disk y :: freshCells ids xs) :=
      List.Forall₂.cons ⟨id, disk, rfl⟩ (forall₂_freshCells hids)
    have hoffs : ((Cell.known id true disk y :: freshCells ids xs).flatMap
        fun d => (Live.view p d).offs).Sublist (Live.view p (Cell.known id true disk x)).offs := by
      have hsub := hp.view (p := p) |>.offs (by
        intro d hd
        obtain ⟨z, -, rfl⟩ := List.mem_map.mp hd
        cases h <;> rfl)
      have hmap : (Cell.known id true disk y :: freshCells ids xs).map (Live.view p) =
          (y :: xs).map (Body.view p) := by
        rw [List.map_cons, List.map_cons, Live.view_dirty, view_freshCells hids]
      rw [show (Cell.known id true disk y :: freshCells ids xs).flatMap
        (fun d => (Live.view p d).offs) =
        ((Cell.known id true disk y :: freshCells ids xs).map (Live.view p)).flatMap Tree.offs from
          (List.flatMap_map ..).symm, hmap, Live.view_dirty, Tree.offs_eq (x.view p)]
      exact hsub.trans (List.sublist_append_right _ _)
    have hruns : ∀ m m', Live.Good p m m' (Cell.known id true disk x) →
        Kids (fun lo hi c => Live.Good p lo hi c) m m' ps
          (Cell.known id true disk y :: freshCells ids xs) ∧
        Tree.Answers (Live.view p) m m' (Cell.known id true disk x) ps
          (Cell.known id true disk y :: freshCells ids xs) := by
      intro m m' hc
      rw [Live.good_dirty] at hc
      refine ⟨kids_dirty (P := fun lo hi c => Live.Good p lo hi c)
        (fun _ _ _ disk x => (Live.good_dirty disk x).mpr) hcells (hp.good hc), fun k hk => ?_⟩
      obtain ⟨d, hd, hres, hbel⟩ := (hp.view (p := p) |>.answers hc.valid).2 k hk
      rw [childAt_map] at hd
      obtain ⟨z, hz, rfl⟩ := Option.map_eq_some_iff.mp hd
      obtain ⟨i, dk, hat⟩ := childAt_dirty hcells hz
      exact ⟨_, hat, by simpa using hres, by simpa using hbel⟩
    obtain ⟨hK', hv, hy⟩ :=
      Tree.graft (Live.view p) ps (Cell.known id true disk y :: freshCells ids xs)
      hl (fun _ _ _ hd => hd.valid) hg.1 hK hruns hoffs
    exact ⟨⟨hv, Or.inr hK'⟩, hy⟩
  sound P _ hg := by
    rw [Body.sound_node] at hg ⊢
    intro d hd
    simp only [List.mem_append, List.mem_cons] at hd hg
    obtain ⟨hdisk, -, hx⟩ := hg _ (Or.inr (Or.inl rfl))
    have hs := hp.sound hx
    rcases hd with (hd | rfl | hd) | hd
    · exact hg d (Or.inl hd)
    · exact ⟨hdisk, by simp, hs y (by simp)⟩
    · obtain ⟨i, -, z, hz, rfl⟩ := mem_freshCells hd
      exact ⟨by simp, by simp, hs z (by simp [hz])⟩
    · exact hg d (Or.inr (Or.inr hd))
  closed _ hg := by
    rw [Body.closed_node] at hg ⊢
    intro d hd
    simp only [List.mem_append, List.mem_cons] at hd hg
    obtain ⟨-, hx⟩ := hg _ (Or.inr (Or.inl rfl))
    have hs := hp.closed hx
    rcases hd with (hd | rfl | hd) | hd
    · exact hg d (Or.inl hd)
    · exact ⟨by simp, hs y (by simp)⟩
    · obtain ⟨i, -, z, hz, rfl⟩ := mem_freshCells hd
      exact ⟨by simp, hs z (by simp [hz])⟩
    · exact hg d (Or.inr (Or.inr hd))
  quiet hx := by
    simp only [Body.plain_node, Tree.quiet_node, List.mem_map, forall_exists_index, and_imp,
      forall_apply_eq_imp_iff₂, List.mem_append, List.mem_cons] at hx ⊢
    have hs := hp.quiet (hx.2 _ (Or.inr (Or.inl rfl)))
    refine ⟨hx.1, fun d hd => ?_⟩
    rcases hd with (hd | rfl | hd) | hd
    · exact hx.2 d (Or.inl hd)
    · exact hs y (by simp)
    · obtain ⟨i, -, z, hz, rfl⟩ := mem_freshCells hd
      exact hs z (by simp [hz])
    · exact hx.2 d (Or.inr (Or.inr hd))
  safe B lo hi hg hx := by
    have hK := (kids_good_of_node hg (by simp)).and (Kids.of_safe hx (by simp))
    obtain ⟨m, m', hc, -, hrep⟩ := hK.focus hl
    obtain ⟨hK', -⟩ :=
      hrep (fun lo hi c => (Live.plain c).DrainSafe (fun k => B k ∨ (b.get? k).isSome) lo hi)
      ps (Cell.known id true disk y :: freshCells ids xs) (fun _ _ _ _ _ hd => hd.2)
      (kids_dirty (fun _ _ _ _ _ hz => hz)
        (List.Forall₂.cons ⟨id, disk, rfl⟩ (forall₂_freshCells hids))
        (hp.safe ((Live.good_dirty disk x).mp hc.1) hc.2))
    exact drainSafe_node hK'

/-- The body a record describes, its children being stubs with the given names. -/
def Body.ofRecord {h : ℕ} (ids : List NodeId) (d : VTree h) : Body h :=
  match h, d with
  | 0, d => d.entries
  | _ + 1, d => Inner.mk d.pivots (List.zipWith Cell.stub ids d.children) d.buffer

def Names {h : ℕ} (ids : List NodeId) (d : VTree h) : Prop :=
  match h, d with
  | 0, _ => True
  | _ + 1, d => ids.length = d.children.length

lemma view_stubs {p : Bool} {ids : List NodeId} {ds : List (VTree h)}
    (hl : ids.length = ds.length) :
    (List.zipWith Cell.stub ids ds : List (Live h)).map (Live.view p) = ds := by
  induction ds generalizing ids with
  | nil => simp
  | cons d ds ih =>
    match ids, hl with
    | id :: ids, hl =>
      rw [List.zipWith_cons_cons, List.map_cons, ih (by simpa using hl), Live.view_stub]

lemma disk_stubs {ids : List NodeId} {ds : List (VTree h)} (hl : ids.length = ds.length) :
    (List.zipWith Cell.stub ids ds : List (Live h)).map Cell.disk = ds.map some := by
  induction ds generalizing ids with
  | nil => simp
  | cons d ds ih =>
    match ids, hl with
    | id :: ids, hl =>
      rw [List.zipWith_cons_cons, List.map_cons, ih (by simpa using hl), List.map_cons]
      rfl

lemma mem_stubs {ids : List NodeId} {ds : List (VTree h)} {c : Live h}
    (hc : c ∈ (List.zipWith Cell.stub ids ds : List (Live h))) :
    ∃ id ∈ ids, ∃ d ∈ ds, c = Cell.stub id d := by
  induction ds generalizing ids with
  | nil => simp at hc
  | cons d ds ih =>
    cases ids with
    | nil => simp at hc
    | cons id ids =>
      rw [List.zipWith_cons_cons] at hc
      rcases List.mem_cons.mp hc with rfl | hc
      · exact ⟨id, by simp, d, by simp, rfl⟩
      · obtain ⟨i, hi, e, he, rfl⟩ := ih hc
        exact ⟨i, by simp [hi], e, by simp [he], rfl⟩

lemma Body.view_ofRecord {p : Bool} {ids : List NodeId} {d : VTree h} (hn : Names ids d) :
    (Body.ofRecord ids d).view p = d.withAnn none := by
  cases h with
  | zero => rfl
  | succ h =>
    induction d using Tree.succCases with
    | hn a ps ds b => exact congrArg (Tree.node none ps · b) (view_stubs hn)

lemma kids_stubs {p : Bool} {lo hi : Option Key} {ps : List Key} {ids : List NodeId}
    {ds : List (VTree h)} (hl : ids.length = ds.length)
    (hK : Kids (fun lo hi d => d.Valid lo hi) lo hi ps ds) :
    Kids (fun lo hi c => Live.Good p lo hi c) lo hi ps (List.zipWith Cell.stub ids ds) := by
  induction ds generalizing lo ps ids with
  | nil => exact absurd rfl hK.ne_nil
  | cons d ds ih =>
    match ids, hl with
    | id :: ids, hl =>
      rw [List.zipWith_cons_cons]
      cases ps with
      | nil =>
        obtain rfl : ds = [] := by simpa using hK.length
        rw [List.zipWith_nil_right]
        exact hK
      | cons s ps => exact ⟨hK.1, hK.2.1, ih (by simpa using hl) hK.2.2⟩

lemma Body.good_ofRecord {p : Bool} {lo hi : Option Key} {ids : List NodeId} {d : VTree h}
    (hn : Names ids d) (hd : d.Valid lo hi) : (Body.ofRecord ids d).Good p lo hi := by
  have hv : ((Body.ofRecord ids d).view p).Valid lo hi := by
    rw [Body.view_ofRecord hn]
    exact (Tree.withAnn_valid none d lo hi).mpr hd
  cases h with
  | zero => exact hv
  | succ h =>
    refine ⟨hv, ?_⟩
    induction d using Tree.succCases with
    | hn a ps ds b =>
      rcases ((Tree.valid_node a).mp hd).2.2 with ⟨rfl, -, -⟩ | hK
      · exact Or.inl (List.zipWith_nil_right ..)
      · exact Or.inr (kids_stubs hn hK)

lemma Tree.Yields.withAnn (lo hi : Option Key) (d : VTree h) : Yields lo hi d (d.withAnn none) where
  same k _ := (Tree.withAnn_resolve none d k).symm
  below k s _ := (Tree.withAnn_below none d k s).mpr
  offs := by
    rw [Tree.offs_eq, Tree.offs_eq d, Tree.ann_withAnn, Tree.withAnn_kidOffs]
    exact List.sublist_append_right _ _

lemma plain_stubs {ids : List NodeId} {ds : List (VTree h)} (hl : ids.length = ds.length) :
    (List.zipWith Cell.stub ids ds : List (Live h)).map Live.plain = ds.map Tree.clean := by
  induction ds generalizing ids with
  | nil => simp
  | cons d ds ih =>
    match ids, hl with
    | i :: ids, hl => simp [ih (by simpa using hl)]

lemma Body.plain_ofRecord {ids : List NodeId} {d : VTree h} (hn : Names ids d) :
    (Body.ofRecord ids d).plain false = d.clean := by
  cases h with
  | zero => rfl
  | succ h =>
    induction d using Tree.succCases with
    | hn a ps ds b => exact congrArg (Tree.node false ps · b) (plain_stubs hn)

lemma Leads.load (q : Bool) (id : NodeId) {ids : List NodeId} {d : VTree h} (hn : Names ids d)
    (ha : d.ann.isSome) :
    Leads q (Cell.stub id d) (Cell.known id false (some d) (Body.ofRecord ids d)) where
  good p lo hi hd := by
    rw [Live.good_stub] at hd
    have hy : Tree.Yields lo hi d ((Body.ofRecord ids d).view p) := by
      rw [Body.view_ofRecord hn]
      exact Tree.Yields.withAnn lo hi d
    refine ⟨⟨Body.good_ofRecord hn hd, fun _ _ => ⟨d, rfl, hd, hy⟩⟩, ?_⟩
    cases p with
    | true => exact Tree.Yields.refl _ _ _
    | false => exact hy
  id := rfl
  disk := rfl
  dirty hd := hd
  sound P hP hd := by
    refine ⟨?_, fun _ => ⟨d, rfl, ?_⟩, ?_⟩
    · intro e he
      obtain rfl := Option.some.inj he
      exact hd
    · obtain ⟨o, ho⟩ := Option.isSome_iff_exists.mp ha
      cases h with
      | zero =>
        refine ⟨o, ?_⟩
        change LeafT.ann d = some o at ho
        change d = LeafT.mk (some o) (LeafT.entries d)
        rw [← ho]
        rfl
      | succ h =>
        refine ⟨o, NodeT.children d, ?_, disk_stubs hn⟩
        change NodeT.ann d = some o at ho
        change d = NodeT.mk (some o) (NodeT.pivots d) (NodeT.children d) (NodeT.buffer d)
        rw [← ho]
        rfl
    · cases h with
      | zero => trivial
      | succ h =>
        intro c hc
        obtain ⟨i, -, e, he, rfl⟩ := mem_stubs hc
        exact hP h (NodeT.ann d) (NodeT.pivots d) (NodeT.children d) (NodeT.buffer d) hd e he
  closed _ _ := by
    cases h with
    | zero => exact ⟨fun _ => trivial, trivial⟩
    | succ h =>
      refine ⟨fun _ c hc => ?_, fun c hc => ?_⟩
      · obtain ⟨i, -, e, -, rfl⟩ := mem_stubs hc
        rfl
      · obtain ⟨i, -, e, -, rfl⟩ := mem_stubs hc
        trivial
  quiet hd := by
    rw [Live.plain_known, Body.plain_ofRecord hn]
    exact hd
  safe B lo hi _ hd := by
    rw [Live.plain_known, Body.plain_ofRecord hn]
    exact hd

end Leads

def Body.Known {h : ℕ} (x : Body h) : Prop :=
  match h, x with
  | 0, _ => True
  | _ + 1, x => ∀ c ∈ x.children, match c with
      | Cell.known _ _ _ y => Known y
      | Cell.stub _ _ => False

def Live.Known {h : ℕ} : Live h → Prop
  | Cell.known _ _ _ x => x.Known
  | Cell.stub _ _ => False

lemma Body.known_node {h : ℕ} {ps : List Key} {cs : List (Live h)} {b : Buffer} :
    (Body.node ps cs b).Known ↔ ∀ c ∈ cs, Live.Known c := by
  refine forall₂_congr fun c _ => ?_
  cases c <;> exact Iff.rfl

/-- Reading records changes neither contents nor flags, and dirties nothing. Where nothing is left
to read it changes nothing at all. -/
structure Opens {h : ℕ} (t t' : Live h) : Prop where
  leads : Leads false t t'
  plain : Live.plain t' = Live.plain t
  known : Live.Known t → t' = t

section Opens
variable {h : ℕ}

lemma Leads.weaken {q : Bool} {t t' : Live h} (ht : Leads false t t') : Leads q t t' :=
  { ht with closed := fun _ => ht.closed rfl }

lemma Opens.refl (t : Live h) : Opens t t := ⟨Leads.refl _ t, rfl, fun _ => rfl⟩

lemma Opens.trans {t t' t'' : Live h} (h₁ : Opens t t') (h₂ : Opens t' t'') : Opens t t'' :=
  ⟨h₁.leads.trans h₂.leads, h₂.plain.trans h₁.plain,
    fun hk => (h₂.known ((h₁.known hk).symm ▸ hk)).trans (h₁.known hk)⟩

lemma Opens.dirty {t t' : Live h} (ht : Opens t t') : t'.dirty = t.dirty := by
  rw [← Live.ann_plain, ← Live.ann_plain, ht.plain]

lemma Opens.within {id : NodeId} {dirty : Bool} {disk : Option (VTree (h + 1))} {ps₁ ps₂ : List Key}
    {cs₁ cs₂ : List (Live h)} {c c' : Live h} {b : Buffer} (hl : ps₁.length = cs₁.length)
    (hc : Opens c c') :
    Opens (Cell.known id dirty disk (Body.node (ps₁ ++ ps₂) (cs₁ ++ c :: cs₂) b))
      (Cell.known id dirty disk (Body.node (ps₁ ++ ps₂) (cs₁ ++ c' :: cs₂) b)) :=
  ⟨hc.leads.within hl (Or.inr (Or.inr hc.dirty)), by simp [hc.plain], fun hk => by
    rw [hc.known (Body.known_node.mp hk c (by simp))]⟩

lemma Opens.load (id : NodeId) {ids : List NodeId} {d : VTree h} (hn : Names ids d)
    (ha : d.ann.isSome) :
    Opens (Cell.stub id d) (Cell.known id false (some d) (Body.ofRecord ids d)) :=
  ⟨Leads.load false id hn ha, Body.plain_ofRecord hn, fun hk => hk.elim⟩

end Opens
end Beetree
