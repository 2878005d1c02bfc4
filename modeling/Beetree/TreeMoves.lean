import Beetree.Tree

/-! Rearrangements of a tree that leave every key's resolution alone: delivering a batch to a child,
replacing a child by pieces of it, unlinking a vacant child. -/
namespace Beetree

/-- Trees whose nodes may carry the offset of a stored record. -/
abbrev VTree := Tree (fun _ => Option ℕ)

def Wider (lo hi lo' hi' : Option Key) : Prop :=
  (∀ l' ∈ lo', ∃ l ∈ lo, l' ≤ l) ∧ ∀ u' ∈ hi', ∃ u ∈ hi, u ≤ u'

lemma Wider.inRange {lo hi lo' hi' : Option Key} (w : Wider lo hi lo' hi') {k : Key}
    (hk : InRange lo hi k) : InRange lo' hi' k := by
  refine ⟨fun l' hl' => ?_, fun u' hu' => ?_⟩
  · obtain ⟨l, hl, hle⟩ := w.1 l' hl'
    exact hle.trans (hk.1 l hl)
  · obtain ⟨u, hu, hle⟩ := w.2 u' hu'
    exact (hk.2 u hu).trans_le hle

lemma Wider.inside {lo hi lo' hi' : Option Key} (w : Wider lo hi lo' hi') {k : Key}
    (hk : Inside lo hi k) : Inside lo' hi' k := by
  refine ⟨fun l' hl' => ?_, fun u' hu' => ?_⟩
  · obtain ⟨l, hl, hle⟩ := w.1 l' hl'
    exact hle.trans_lt (hk.1 l hl)
  · obtain ⟨u, hu, hle⟩ := w.2 u' hu'
    exact (hk.2 u hu).trans_le hle

lemma wider_refl (lo hi : Option Key) : Wider lo hi lo hi :=
  ⟨fun l hl => ⟨l, hl, le_rfl⟩, fun u hu => ⟨u, hu, le_rfl⟩⟩

lemma Kids.widen {T : Type} {P : Option Key → Option Key → T → Prop}
    (hP : ∀ lo hi lo' hi' c, Wider lo hi lo' hi' → P lo hi c → P lo' hi' c)
    {lo hi lo' hi' : Option Key} (w : Wider lo hi lo' hi') {ps : List Key} {cs : List T}
    (h : Kids P lo hi ps cs) : Kids P lo' hi' ps cs := by
  induction ps generalizing lo lo' cs with
  | nil =>
    match cs, h with
    | [c], h => exact hP _ _ _ _ _ w h
  | cons p ps ih =>
    match cs, h with
    | c :: cs, h =>
      refine ⟨w.inside h.1, hP _ _ _ _ _ ⟨w.1, by simp⟩ h.2.1, ih ⟨by simp, w.2⟩ h.2.2⟩

lemma Kids.mem_range {T : Type} {P : Option Key → Option Key → T → Prop} {lo hi : Option Key}
    {ps : List Key} {cs : List T} (h : Kids P lo hi ps cs) :
    ∀ c ∈ cs, ∃ lo' hi', P lo' hi' c ∧ Wider lo' hi' lo hi := by
  induction ps generalizing lo cs with
  | nil =>
    match cs, h with
    | [c], h =>
      intro d hd
      obtain rfl := List.mem_singleton.mp hd
      exact ⟨lo, hi, h, wider_refl lo hi⟩
  | cons p ps ih =>
    match cs, h with
    | c :: cs, h =>
      intro d hd
      rcases List.mem_cons.mp hd with rfl | hd
      · exact ⟨lo, some p, h.2.1, (wider_refl lo hi).1, fun u hu => ⟨p, rfl, (h.1.2 u hu).le⟩⟩
      · obtain ⟨lo', hi', hP, w⟩ := ih h.2.2 d hd
        refine ⟨lo', hi', hP, fun l hl => ?_, w.2⟩
        obtain ⟨l', hl', hle⟩ := w.1 p rfl
        exact ⟨l', hl', (h.1.1 l hl).le.trans hle⟩

lemma childAt_mem {T : Type} {ps : List Key} {cs : List T} {k : Key} {c : T}
    (h : childAt ps cs k = some c) : c ∈ cs := by
  induction ps generalizing cs with
  | nil =>
    cases cs with
    | nil => simp [childAt] at h
    | cons d cs => simp_all [childAt]
  | cons p ps ih =>
    cases cs with
    | nil => simp [childAt] at h
    | cons d cs =>
      simp only [childAt] at h
      split_ifs at h with hp
      · simp [ih h]
      · simp_all

lemma childAt_map {T U : Type} (f : T → U) (ps : List Key) (cs : List T) (k : Key) :
    childAt ps (cs.map f) k = (childAt ps cs k).map f := by
  induction ps generalizing cs with
  | nil => cases cs <;> rfl
  | cons p ps ih =>
    cases cs with
    | nil => rfl
    | cons c cs =>
      simp only [List.map_cons, childAt, ih]
      split_ifs <;> rfl

namespace Tree
variable {α : ℕ → Type} {h : ℕ}

lemma Valid.widen {t : Tree α h} {lo hi lo' hi' : Option Key} (w : Wider lo hi lo' hi')
    (ht : t.Valid lo hi) : t.Valid lo' hi' := by
  induction h generalizing lo hi lo' hi' with
  | zero => exact fun k e he => w.inRange (ht k e he)
  | succ h ih =>
    refine ⟨fun k m hm => w.inRange (ht.1 k m hm), ht.2.1, ?_⟩
    rcases ht.2.2 with h0 | hk
    · exact Or.inl h0
    · exact Or.inr (Kids.widen (P := fun lo hi (c : Tree α h) => c.Valid lo hi)
        (fun _ _ _ _ _ w hc => ih w hc) w hk)

lemma Valid.outside {t : Tree α h} {lo hi : Option Key} (ht : t.Valid lo hi) {k : Key}
    (hk : ¬ InRange lo hi k) : t.resolve k = none ∧ ∀ s, t.Below k s := by
  induction h generalizing lo hi with
  | zero =>
    have hn : (LeafT.entries t).get? k = none := by
      by_contra hne
      obtain ⟨e, he⟩ := Option.ne_none_iff_exists'.mp hne
      exact hk (ht k e he)
    refine ⟨?_, fun s e he => ?_⟩
    · change ((LeafT.entries t).get? k).map LeafEntry.value = none
      rw [hn]
      rfl
    · rw [hn] at he
      cases he
  | succ h ih =>
    have hn : (NodeT.buffer t).get? k = none := by
      by_contra hne
      obtain ⟨m, hm⟩ := Option.ne_none_iff_exists'.mp hne
      exact hk (ht.1 k m hm)
    have hc : ∀ c, childAt (NodeT.pivots t) (NodeT.children t) k = some c →
        c.resolve k = none ∧ ∀ s, c.Below k s := by
      intro c hc
      have hmem := childAt_mem hc
      rcases ht.2.2 with h0 | hK
      · exact absurd hmem (by simp [h0.1])
      · obtain ⟨lo', hi', hv, w⟩ := hK.mem_range c hmem
        exact ih hv fun hin => hk (w.inRange hin)
    refine ⟨?_, fun s => ⟨fun m hm => ?_, fun c hcs => (hc c hcs).2 s⟩⟩
    swap
    · rw [hn] at hm
      cases hm
    unfold Tree.resolve
    rw [hn]
    dsimp only
    cases he : childAt (NodeT.pivots t) (NodeT.children t) k with
    | none => rfl
    | some c => exact (hc c he).1

/-- The record offsets in a tree, in preorder. -/
def offs {h : ℕ} (t : VTree h) : List ℕ :=
  match h, t with
  | 0, t => t.ann.toList
  | _ + 1, t => t.ann.toList ++ t.children.flatMap fun c => offs c

@[simp] lemma offs_leaf (a : Option ℕ) (es : Entries) :
    (leaf a es : VTree 0).offs = a.toList := rfl

@[simp] lemma offs_node (a : Option ℕ) (ps : List Key) (cs : List (VTree h)) (b : Buffer) :
    (node a ps cs b : VTree (h + 1)).offs = a.toList ++ cs.flatMap offs := rfl

/-- The second tree answers like the first on a range, holds no newer occurrence of any key, and
refers to no record the first does not. -/
structure Yields (lo hi : Option Key) (x y : VTree h) : Prop where
  same : ∀ k, InRange lo hi k → x.resolve k = y.resolve k
  below : ∀ k s, InRange lo hi k → x.Below k s → y.Below k s
  offs : y.offs.Sublist x.offs

lemma Yields.refl (lo hi : Option Key) (x : VTree h) : Yields lo hi x x :=
  ⟨fun _ _ => rfl, fun _ _ _ h => h, List.Sublist.refl _⟩

lemma Yields.trans {lo hi : Option Key} {x y z : VTree h} (hxy : Yields lo hi x y)
    (hyz : Yields lo hi y z) : Yields lo hi x z :=
  ⟨fun k hk => (hxy.same k hk).trans (hyz.same k hk),
    fun k s hk hb => hyz.below k s hk (hxy.below k s hk hb), hyz.offs.trans hxy.offs⟩

/-- What the children of a node say about a key. -/
def seen (ps : List Key) (cs : List (Tree α h)) (k : Key) : Option Value :=
  (childAt ps cs k).bind fun c => c.resolve k

def SeenBelow (ps : List Key) (cs : List (Tree α h)) (k : Key) (s : ℕ) : Prop :=
  ∀ c, childAt ps cs k = some c → c.Below k s

lemma exchange {lo hi : Option Key} {a a' : Option ℕ} {ps ps' : List Key} {cs cs' : List (VTree h)}
    {b : Buffer} (hv : (node a ps cs b : VTree (h + 1)).Valid lo hi)
    (ho : (a'.toList ++ cs'.flatMap offs).Sublist (a.toList ++ cs.flatMap offs))
    (hk : cs' = [] ∧ ps' = [] ∧ b = OrdMap.empty ∨
      Kids (fun lo hi c => c.Valid lo hi) lo hi ps' cs')
    (hs : ∀ k, InRange lo hi k → seen ps cs k = seen ps' cs' k ∧
      ∀ s, SeenBelow ps cs k s → SeenBelow ps' cs' k s) :
    (node a' ps' cs' b : VTree (h + 1)).Valid lo hi ∧
      Yields lo hi (node a ps cs b) (node a' ps' cs' b) := by
  rw [valid_node] at hv
  refine ⟨(valid_node a').mpr ⟨hv.1, ?_, hk⟩, ?_, ?_, ho⟩
  · intro k m d hm
    exact (hs k (hv.1 k m hm)).2 _ (fun c hc => hv.2.1 k m c hm hc) d
  · intro k hr
    have := (hs k hr).1
    unfold seen at this
    rw [resolve_node, resolve_node, this]
  · intro k s hr hb
    rw [below_node] at hb ⊢
    exact ⟨hb.1, (hs k hr).2 s hb.2⟩

/-- A run of children that answers for one child on the range it owns. -/
def Answers {T : Type} (f : T → VTree h) (m m' : Option Key) (c : T) (ps : List Key)
    (cs : List T) : Prop :=
  ∀ k, InRange m m' k → ∃ d, childAt ps cs k = some d ∧ (f c).resolve k = (f d).resolve k ∧
    ∀ s, (f c).Below k s → (f d).Below k s

/-- Putting a run that answers for a child in its place keeps the parent valid and its answers the
same. The children may be any objects `f` reads as trees, with any property `P` of their own. -/
theorem graft {T : Type} (f : T → VTree h) {P : Option Key → Option Key → T → Prop}
    {lo hi : Option Key} {a : Option ℕ} {ps₁ ps₂ : List Key} (ps : List Key) {cs₁ cs₂ : List T}
    (cs : List T) {c : T} {b : Buffer} (hl : ps₁.length = cs₁.length)
    (hP : ∀ lo hi d, P lo hi d → (f d).Valid lo hi)
    (hv : (node a (ps₁ ++ ps₂) ((cs₁ ++ c :: cs₂).map f) b : VTree (h + 1)).Valid lo hi)
    (hK : Kids P lo hi (ps₁ ++ ps₂) (cs₁ ++ c :: cs₂))
    (hs : ∀ m m', P m m' c → Kids P m m' ps cs ∧ Answers f m m' c ps cs)
    (ho : (cs.flatMap fun d => (f d).offs).Sublist (f c).offs) :
    Kids P lo hi (ps₁ ++ ps ++ ps₂) (cs₁ ++ cs ++ cs₂) ∧
      (node none (ps₁ ++ ps ++ ps₂) ((cs₁ ++ cs ++ cs₂).map f) b : VTree (h + 1)).Valid lo hi ∧
      Yields lo hi (node a (ps₁ ++ ps₂) ((cs₁ ++ c :: cs₂).map f) b)
        (node none (ps₁ ++ ps ++ ps₂) ((cs₁ ++ cs ++ cs₂).map f) b) := by
  obtain ⟨m, m', hc, hown, hrep⟩ := hK.focus hl
  obtain ⟨hcs, hfind⟩ := hs m m' hc
  obtain ⟨hK', hat⟩ := hrep _ ps cs (fun _ _ _ _ _ hd => hd) hcs
  obtain ⟨-, hself⟩ := hrep P [] [c] (fun _ _ _ _ _ hd => hd) hc
  refine ⟨hK', exchange hv ?_ (Or.inr (Kids.map f (hK'.imp fun lo hi d _ hd => hP lo hi d hd))) ?_⟩
  · simp only [List.map_append, List.map_cons, List.flatMap_append, List.flatMap_cons,
      List.flatMap_map, List.append_assoc]
    exact (List.nil_sublist _).append
      ((List.Sublist.refl _).append (ho.append (List.Sublist.refl _)))
  · intro k hkr
    simp only [seen, SeenBelow, childAt_map, hat k hkr]
    by_cases hok : owns ps₁ ps₂ k
    · obtain ⟨d, hd, hr, hbel⟩ := hfind k ((hown k).mpr ⟨hkr, hok⟩)
      have hc₁ : childAt (ps₁ ++ ps₂) (cs₁ ++ c :: cs₂) k = some c := by
        simpa [hok, childAt] using hself k hkr
      simp only [hok, if_true, hd, hc₁, Option.map_some, Option.bind_some, hr, Option.some.injEq,
        forall_eq', true_and]
      exact hbel
    · simp [hok]

end Tree

/-- What a message leaves in a leaf in place of the entry it finds. -/
def Message.entry : Message → Option LeafEntry → Option LeafEntry
  | .put seq value, _ => some ⟨seq, value⟩
  | .delete _, _ => none
  | .upsert seq op, e => some ⟨seq, op.apply (e.map LeafEntry.value)⟩

lemma Message.entry_value (m : Message) (e : Option LeafEntry) :
    (m.entry e).map LeafEntry.value = m.act (e.map LeafEntry.value) := by
  cases m <;> rfl

lemma Message.entry_seq {m : Message} {e : Option LeafEntry} {e' : LeafEntry}
    (h : m.entry e = some e') : e'.seq = m.seq := by
  cases m <;> simp_all [Message.entry, Message.seq] <;> subst h <;> rfl

/-- What a message leaves in a buffer in place of the message it finds. -/
def Message.merge (m : Message) : Option Message → Message
  | some older => m.coalesce older
  | none => m

@[simp] lemma Message.seq_merge (m : Message) (o : Option Message) : (m.merge o).seq = m.seq := by
  cases o <;> simp [Message.merge]

lemma get?_applyToLeaf (es : Entries) (k : Key) (m : Message) (k' : Key) :
    (applyToLeaf es k m).get? k' = if k' = k then m.entry (es.get? k) else es.get? k' := by
  by_cases h : k' = k <;> cases m <;> simp [applyToLeaf, Message.entry, h]

lemma get?_coalesceInto (b : Buffer) (k : Key) (m : Message) (k' : Key) :
    (coalesceInto b k m).get? k' = if k' = k then some (m.merge (b.get? k)) else b.get? k' := by
  unfold coalesceInto
  by_cases h : k' = k <;> cases hb : b.get? k <;> simp [Message.merge, h]

lemma get?_receive_leaf (batch : Buffer) (es : Entries) (k : Key) :
    (batch.toList.foldl (fun es x => applyToLeaf es x.1 x.2) es).get? k =
      match batch.get? k with
      | none => es.get? k
      | some m => m.entry (es.get? k) := by
  rw [OrdMap.get?_foldl_update applyToLeaf Message.entry (by simp [get?_applyToLeaf])
    (fun _ _ _ _ h => by simp [get?_applyToLeaf, h]) batch es k]
  cases batch.get? k <;> rfl

lemma get?_receive_buffer (batch b : Buffer) (k : Key) :
    (batch.toList.foldl (fun b x => coalesceInto b x.1 x.2) b).get? k =
      match batch.get? k with
      | none => b.get? k
      | some m => some (m.merge (b.get? k)) := by
  rw [OrdMap.get?_foldl_update coalesceInto (fun m o => some (m.merge o))
    (by simp [get?_coalesceInto])
    (fun _ _ _ _ h => by simp [get?_coalesceInto, h]) batch b k]
  cases batch.get? k <;> rfl

namespace Tree
variable {α : ℕ → Type} {h : ℕ}

def receive {h : ℕ} (batch : Buffer) (a : α h) (t : Tree α h) : Tree α h :=
  match h, t with
  | 0, t => leaf a (batch.toList.foldl (fun es x => applyToLeaf es x.1 x.2) t.entries)
  | _ + 1, t => node a t.pivots t.children
      (batch.toList.foldl (fun b x => coalesceInto b x.1 x.2) t.buffer)

lemma receive_leaf (batch : Buffer) (a a' : α 0) (es : Entries) : (leaf a' es).receive batch a =
    leaf a (batch.toList.foldl (fun es x => applyToLeaf es x.1 x.2) es) := rfl

lemma receive_node (batch : Buffer) (a a' : α (h + 1)) (ps : List Key) (cs : List (Tree α h))
    (b : Buffer) : (node a' ps cs b).receive batch a =
      node a ps cs (batch.toList.foldl (fun b x => coalesceInto b x.1 x.2) b) := rfl

/-- An internal node that has lost every child. -/
def Childless {h : ℕ} (t : Tree α h) : Prop :=
  match h, t with
  | 0, _ => False
  | _ + 1, t => t.children = []

/-- A batch newer than everything below it acts on the keys it names and no others. -/
lemma receive_resolve (batch : Buffer) (a : α h) (t : Tree α h) (k : Key) :
    (t.receive batch a).resolve k = match batch.get? k with
      | none => t.resolve k
      | some m => m.act (t.resolve k) := by
  cases h with
  | zero =>
    change ((batch.toList.foldl (fun es x => applyToLeaf es x.1 x.2) _).get? k).map _ = _
    rw [get?_receive_leaf]
    cases batch.get? k with
    | none => rfl
    | some m => exact m.entry_value _
  | succ h =>
    induction t using succCases with
    | hn a' ps cs b =>
      rw [receive_node, resolve_node, resolve_node, get?_receive_buffer]
      cases hb : batch.get? k with
      | none => rfl
      | some m =>
        cases b.get? k with
        | none => rfl
        | some o => exact m.act_coalesce o _

lemma receive_below (batch : Buffer) (a : α h) {t : Tree α h} {k : Key} {s : ℕ}
    (hn : batch.get? k = none → t.Below k s)
    (hs : ∀ m, batch.get? k = some m → m.seq.toNat < s ∧ t.Below k m.seq.toNat) :
    (t.receive batch a).Below k s := by
  cases h with
  | zero =>
    intro e he
    change (batch.toList.foldl (fun es x => applyToLeaf es x.1 x.2) _).get? k = some e at he
    rw [get?_receive_leaf] at he
    cases hb : batch.get? k with
    | none =>
      rw [hb] at he
      exact hn hb e he
    | some m =>
      rw [hb] at he
      rw [Message.entry_seq he]
      exact (hs m hb).1
  | succ h =>
    induction t using succCases with
    | hn a' ps cs b =>
      rw [receive_node, below_node]
      cases hb : batch.get? k with
      | none =>
        have := hn hb
        rw [below_node] at this
        exact ⟨by simpa [get?_receive_buffer, hb] using this.1, this.2⟩
      | some m =>
        have := (hs m hb).2
        rw [below_node] at this
        exact ⟨by simpa [get?_receive_buffer, hb] using (hs m hb).1,
          fun c hc => (this.2 c hc).mono (hs m hb).1.le⟩

lemma receive_valid {batch : Buffer} (a : α h) {t : Tree α h} {lo hi : Option Key}
    (ht : t.Valid lo hi) (hr : ∀ k m, batch.get? k = some m → InRange lo hi k)
    (hb : ∀ k m, batch.get? k = some m → t.Below k m.seq.toNat)
    (hne : ¬ t.Childless) :
    (t.receive batch a).Valid lo hi := by
  cases h with
  | zero =>
    intro k e he
    change (batch.toList.foldl (fun es x => applyToLeaf es x.1 x.2) _).get? k = some e at he
    rw [get?_receive_leaf] at he
    cases hk : batch.get? k with
    | none =>
      rw [hk] at he
      exact ht k e he
    | some m => exact hr k m hk
  | succ h =>
    induction t using succCases with
    | hn a' ps cs b =>
      rw [valid_node] at ht
      rw [receive_node, valid_node]
      refine ⟨fun k m hm => ?_, fun k m c hm hc => ?_, ?_⟩
      · rw [get?_receive_buffer] at hm
        cases hk : batch.get? k with
        | none =>
          rw [hk] at hm
          exact ht.1 k m hm
        | some m' => exact hr k m' hk
      · rw [get?_receive_buffer] at hm
        cases hk : batch.get? k with
        | none =>
          rw [hk] at hm
          exact ht.2.1 k m c hm hc
        | some m' =>
          rw [hk] at hm
          obtain rfl := Option.some.inj hm
          rw [Message.seq_merge]
          exact (hb k m' hk).2 c hc
      · rcases ht.2.2 with ⟨h0, h1, h2⟩ | hK
        · exact absurd h0 hne
        · exact Or.inr hK

lemma receive_offs (batch : Buffer) (t : VTree h) : (t.receive batch none).offs.Sublist t.offs := by
  cases h with
  | zero => exact List.nil_sublist _
  | succ h => exact List.sublist_append_right _ _

/-- Handing a child every message it owns keeps the parent valid and its answers the same. -/
theorem deliver {lo hi : Option Key} {a : Option ℕ} {ps₁ ps₂ : List Key} {cs₁ cs₂ : List (VTree h)}
    {c : VTree h} {b : Buffer} (hl : ps₁.length = cs₁.length)
    (hv : (node a (ps₁ ++ ps₂) (cs₁ ++ c :: cs₂) b : VTree (h + 1)).Valid lo hi)
    (hne : ¬ c.Childless) :
    (node none (ps₁ ++ ps₂) (cs₁ ++ c.receive (b.filter (owns ps₁ ps₂ ·)) none :: cs₂)
        (b.filter (¬ owns ps₁ ps₂ ·)) : VTree (h + 1)).Valid lo hi ∧
      Yields lo hi (node a (ps₁ ++ ps₂) (cs₁ ++ c :: cs₂) b)
        (node none (ps₁ ++ ps₂) (cs₁ ++ c.receive (b.filter (owns ps₁ ps₂ ·)) none :: cs₂)
          (b.filter (¬ owns ps₁ ps₂ ·))) := by
  obtain ⟨hb, hf, hk⟩ := (valid_node a).mp hv
  have hK := hk.resolve_left (by simp)
  obtain ⟨m, m', hc, hown, hrep⟩ := hK.focus hl
  obtain ⟨-, hself⟩ := hrep _ [] [c] (fun _ _ _ _ _ hd => hd) hc
  have hmine : ∀ k, InRange lo hi k → owns ps₁ ps₂ k →
      childAt (ps₁ ++ ps₂) (cs₁ ++ c :: cs₂) k = some c := by
    intro k hkr ho
    simpa [ho, childAt] using hself k hkr
  set batch := b.filter (owns ps₁ ps₂ ·) with hbatch
  have hget : ∀ k msg, batch.get? k = some msg → owns ps₁ ps₂ k ∧ b.get? k = some msg := by
    intro k msg hm
    by_cases ho : owns ps₁ ps₂ k <;> simp_all
  have hbel : ∀ k msg, batch.get? k = some msg → c.Below k msg.seq.toNat := by
    intro k msg hm
    obtain ⟨ho, hm⟩ := hget k msg hm
    exact hf k msg c hm (hmine k (hb k msg hm) ho)
  have hc' : (c.receive batch none).Valid m m' := by
    refine receive_valid none hc (fun k msg hm => ?_) hbel hne
    obtain ⟨ho, hm⟩ := hget k msg hm
    exact (hown k).mpr ⟨hb k msg hm, ho⟩
  obtain ⟨hK', hat⟩ := hrep _ [] [c.receive batch none] (fun _ _ _ _ _ hd => hd) hc'
  simp only [List.append_nil, List.append_assoc, List.singleton_append, childAt] at hK' hat
  refine ⟨(valid_node none).mpr ⟨fun k msg hm => ?_, fun k msg d hm hd => ?_, Or.inr hK'⟩, ?_, ?_,
    ?_⟩
  · by_cases ho : owns ps₁ ps₂ k
    · simp [ho] at hm
    · exact hb k msg (by simpa [ho] using hm)
  · by_cases ho : owns ps₁ ps₂ k
    · simp [ho] at hm
    · simp only [OrdMap.get?_filter, ho, not_false_eq_true, decide_true, if_true] at hm
      rw [hat k (hb k msg hm), if_neg ho] at hd
      exact hf k msg d hm hd
  · intro k hkr
    rw [resolve_node, resolve_node, hat k hkr]
    by_cases ho : owns ps₁ ps₂ k
    · have hbk : batch.get? k = b.get? k := by simp [hbatch, ho]
      have hrest : (b.filter (¬ owns ps₁ ps₂ ·)).get? k = none := by simp [ho]
      cases hm : b.get? k <;>
        simp only [hmine k hkr ho, hrest, if_pos ho, Option.bind_some, receive_resolve, hbk, hm]
    · simp [ho]
  · intro k s hkr hbs
    rw [below_node] at hbs ⊢
    rw [hat k hkr]
    by_cases ho : owns ps₁ ps₂ k
    · refine ⟨by simp [ho], fun d hd => ?_⟩
      obtain rfl : c.receive batch none = d := by simpa [ho] using hd
      refine receive_below batch none (fun _ => hbs.2 c (hmine k hkr ho)) fun msg hm => ?_
      exact ⟨hbs.1 msg (hget k msg hm).2, hbel k msg hm⟩
    · simpa [ho] using hbs
  · simp only [offs_node, List.flatMap_append, List.flatMap_cons, Option.toList_none,
      List.nil_append]
    exact (((List.Sublist.refl _).append
      ((receive_offs batch c).append (List.Sublist.refl _)))).trans
      (List.sublist_append_right _ _)

end Tree
end Beetree
