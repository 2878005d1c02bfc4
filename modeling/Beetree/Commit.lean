import Beetree.Ops

/-! What a commit makes of a tree.

The nodes that dirty edges lead to from the root are written, each to a record of its own, and are
clean from then on. A clean node stays as it is, with everything below it. -/
namespace Beetree

namespace Cell
variable {D B : Type}

/-- The record that stands for a node after a commit. -/
def publish (v : NodeId → B → D) : Cell D B → D
  | known id dirty disk x => if dirty then v id x else disk.getD (v id x)
  | stub _ d => d

def commit (v : NodeId → B → D) (w : B → B) : Cell D B → Cell D B
  | known id dirty disk x =>
    if dirty then known id false (some (v id x)) (w x) else known id false disk x
  | stub id d => stub id d

def written (n : B → Node) (w : B → List (NodeId × Node)) : Cell D B → List (NodeId × Node)
  | known id dirty _ x => if dirty then (id, n x) :: w x else []
  | stub _ _ => []

end Cell

namespace Body

/-- The record of a node written at the offset its name is given. -/
def publish (off : NodeId → ℕ) {h : ℕ} (id : NodeId) (x : Body h) : VTree h :=
  match h, x with
  | 0, es => Tree.leaf (some (off id)) es
  | _ + 1, x =>
    Tree.node (some (off id)) x.pivots (x.children.map (Cell.publish (publish off))) x.buffer

def commit (off : NodeId → ℕ) {h : ℕ} (x : Body h) : Body h :=
  match h, x with
  | 0, es => es
  | _ + 1, x => Inner.mk x.pivots (x.children.map (Cell.commit (publish off) (commit off))) x.buffer

def written {h : ℕ} (x : Body h) : List (NodeId × Node) :=
  match h, x with
  | 0, _ => []
  | _ + 1, x => x.children.reverse.flatMap (Cell.written toNode written)

end Body

namespace Live
variable {h : ℕ}

def publish (off : NodeId → ℕ) (t : Live h) : VTree h := Cell.publish (Body.publish off) t

def commit (off : NodeId → ℕ) (t : Live h) : Live h := Cell.commit (Body.publish off)
    (Body.commit off) t

/-- The nodes a commit writes, parents before children and the last child first. -/
def written (t : Live h) : List (NodeId × Node) := Cell.written Body.toNode Body.written t

end Live

section Unfold
variable {h : ℕ} {off : NodeId → ℕ} {id : NodeId} {dk : Option (VTree h)} {x : Body h}

@[simp] lemma Live.publish_dirty :
    Live.publish off (Cell.known id true dk x) = x.publish off id := rfl

@[simp] lemma Live.publish_clean {d : VTree h} :
    Live.publish off (Cell.known id false (some d) x) = d := rfl

@[simp] lemma Live.publish_stub {d : VTree h} : Live.publish off (Cell.stub id d) = d := rfl

@[simp] lemma Live.commit_dirty : Live.commit off (Cell.known id true dk x) =
    Cell.known id false (some (x.publish off id)) (x.commit off) := rfl

@[simp] lemma Live.commit_clean :
    Live.commit off (Cell.known id false dk x) = Cell.known id false dk x := rfl

@[simp] lemma Live.commit_stub {d : VTree h} :
    Live.commit off (Cell.stub id d) = Cell.stub id d := rfl

@[simp] lemma Live.written_dirty :
    Live.written (Cell.known id true dk x) = (id, x.toNode) :: x.written := rfl

@[simp] lemma Live.written_clean : Live.written (Cell.known id false dk x) = [] := rfl

@[simp] lemma Live.written_stub {d : VTree h} : Live.written (Cell.stub id d) = [] := rfl

@[simp] lemma Body.publish_leaf (es : Entries) :
    (Body.leaf es).publish off id = Tree.leaf (some (off id)) es := rfl

@[simp] lemma Body.publish_node (ps : List Key) (cs : List (Live h)) (b : Buffer) :
    (Body.node ps cs b).publish off id = Tree.node (some (off id)) ps
      (cs.map (Live.publish off)) b := rfl

@[simp] lemma Body.commit_leaf (es : Entries) : (Body.leaf es).commit off = Body.leaf es := rfl

@[simp] lemma Body.commit_node (ps : List Key) (cs : List (Live h)) (b : Buffer) :
    (Body.node ps cs b).commit off = Body.node ps (cs.map (Live.commit off)) b := rfl

@[simp] lemma Body.written_leaf (es : Entries) : (Body.leaf es).written = [] := rfl

@[simp] lemma Body.written_node (ps : List Key) (cs : List (Live h)) (b : Buffer) :
    (Body.node ps cs b).written = cs.reverse.flatMap Live.written := rfl

@[simp] lemma Live.id_commit (t : Live h) : (Live.commit off t).id = t.id := by
  rcases t with ⟨id, dirty, dk, x⟩ | ⟨id, d⟩
  · cases dirty <;> rfl
  · rfl

@[simp] lemma Live.dirty_commit (t : Live h) : (Live.commit off t).dirty = false := by
  rcases t with ⟨id, dirty, dk, x⟩ | ⟨id, d⟩
  · cases dirty <;> rfl
  · rfl

lemma Live.written_of_clean {t : Live h} (ht : t.dirty = false) : Live.written t = [] := by
  rcases t with ⟨id, dirty, dk, x⟩ | ⟨id, d⟩
  · obtain rfl : dirty = false := ht
    rfl
  · rfl

@[simp] lemma Body.toNode_commit (x : Body h) : (x.commit off).toNode = x.toNode := by
  cases h with
  | zero => rfl
  | succ h =>
    induction x using Body.succCases with
    | hn ps cs b => simp [Function.comp_def]

end Unfold

section Published
variable {h : ℕ} {off : NodeId → ℕ} {P : (h : ℕ) → VTree h → Prop} {t : Live h} {x : Body h}

lemma Live.disk_commit (hS : Live.Sound P t) :
    (Live.commit off t).disk = some (Live.publish off t) := by
  rcases t with ⟨id, dirty, dk, x⟩ | ⟨id, d⟩
  · cases dirty with
    | true => rfl
    | false =>
      obtain ⟨d, rfl, -⟩ := hS.2.1 rfl
      rfl
  · rfl

lemma disks_commit {cs : List (Live h)} (hS : ∀ c ∈ cs, Live.Sound P c) :
    (cs.map (Live.commit off)).map Cell.disk = (cs.map (Live.publish off)).map some := by
  rw [List.map_map, List.map_map]
  exact List.map_congr_left fun c hc => Live.disk_commit (hS c hc)

lemma Live.view_commit (hS : Live.Sound P t) :
    Live.view true (Live.commit off t) = Live.publish off t := by
  rcases t with ⟨id, dirty, dk, x⟩ | ⟨id, d⟩
  · cases dirty with
    | true => rfl
    | false =>
      obtain ⟨d, rfl, -⟩ := hS.2.1 rfl
      rfl
  · rfl

lemma views_commit {cs : List (Live h)} (hS : ∀ c ∈ cs, Live.Sound P c) :
    (cs.map (Live.commit off)).map (Live.view true) = cs.map (Live.publish off) := by
  rw [List.map_map]
  exact List.map_congr_left fun c hc => Live.view_commit (hS c hc)

lemma Live.bare_publish (hS : Live.Sound P t) :
    (Live.publish off t).bare = (Live.view true t).bare := by
  induction h with
  | zero =>
    rcases t with ⟨id, dirty, dk, x⟩ | ⟨id, d⟩
    · cases dirty with
      | true => rfl
      | false =>
        obtain ⟨d, rfl, -⟩ := hS.2.1 rfl
        rfl
    · rfl
  | succ h ih =>
    rcases t with ⟨id, dirty, dk, x⟩ | ⟨id, d⟩
    · cases dirty with
      | true =>
        induction x using Body.succCases with
        | hn ps cs b =>
          have hcs := Body.sound_node.mp hS.2.2
          simp only [Live.publish_dirty, Live.view_dirty, Body.publish_node,
            Body.view_node, Tree.bare_node,
            List.map_map]
          exact congrArg (Tree.node () ps · b) (List.map_congr_left fun c hc => ih (hcs c hc))
      | false =>
        obtain ⟨d, rfl, -⟩ := hS.2.1 rfl
        rfl
    · rfl

lemma Live.bare_commit (t : Live h) :
    (Live.plain (Live.commit off t)).bare = (Live.plain t).bare := by
  induction h with
  | zero =>
    rcases t with ⟨id, dirty, dk, x⟩ | ⟨id, d⟩
    · cases dirty <;> rfl
    · rfl
  | succ h ih =>
    rcases t with ⟨id, dirty, dk, x⟩ | ⟨id, d⟩
    · cases dirty with
      | true =>
        induction x using Body.succCases with
        | hn ps cs b =>
          simp only [Live.commit_dirty, Live.plain_known, Body.commit_node,
            Body.plain_node, Tree.bare_node,
            List.map_map]
          exact congrArg (Tree.node () ps · b) (List.map_congr_left fun c _ => ih c)
      | false => rfl
    · rfl

lemma Live.bare_view_commit (t : Live h) :
    (Live.view false (Live.commit off t)).bare = (Live.view false t).bare := by
  rw [Live.bare_view, Live.bare_view, Live.bare_commit]

lemma Tree.Yields.of_bare {lo hi : Option Key} {x y : VTree h} (hb : y.bare = x.bare)
    (ho : y.offs.Sublist x.offs) :
    Yields lo hi x y where
  same k _ := by rw [← resolve_bare x, ← resolve_bare y, hb]
  below k s _ hx := by rwa [← below_bare, hb, below_bare]
  offs := ho

end Published

section Good
variable {h : ℕ} {off : NodeId → ℕ} {P : (h : ℕ) → VTree h → Prop}

lemma Live.bare_view_commit' {t : Live h} (hS : Live.Sound P t) (p : Bool) :
    (Live.view p (Live.commit off t)).bare = (Live.view p t).bare := by
  cases p with
  | false => exact Live.bare_view_commit t
  | true => rw [Live.view_commit hS, Live.bare_publish hS]

theorem Live.good_commit {t : Live h} {p : Bool} {lo hi : Option Key} (hg : Live.Good p lo hi t)
    (hS : Live.Sound P t) : Live.Good p lo hi (Live.commit off t) := by
  induction h generalizing lo hi with
  | zero =>
    rcases t with ⟨id, dirty, dk, x⟩ | ⟨id, d⟩
    · cases dirty with
      | true =>
        refine ⟨hg.1, fun _ _ => ⟨_, rfl, ?_, ?_⟩⟩
        · exact hg.1
        · exact Tree.Yields.of_bare rfl (List.nil_sublist _)
      | false => exact hg
    · exact hg
  | succ h ih =>
    rcases t with ⟨id, dirty, dk, x⟩ | ⟨id, d⟩
    · cases dirty with
      | true =>
        induction x using Body.succCases with
        | hn ps cs b =>
          have hcs := Body.sound_node.mp hS.2.2
          have hbare :
            (((Body.node ps cs b).commit off).view p).bare = ((Body.node ps cs b).view p).bare := by
            simp only [Body.commit_node, Body.view_node, Tree.bare_node, List.map_map]
            exact congrArg (Tree.node () ps · b)
              (List.map_congr_left fun c hc => Live.bare_view_commit' (hcs c hc) p)
          have hvalid : ∀ {y : VTree (h + 1)}, y.bare = ((Body.node ps cs b).view p).bare →
            y.Valid lo hi := by
            intro y hy
            rw [← Tree.valid_bare, hy, Tree.valid_bare]
            exact hg.1.1
          refine ⟨⟨hvalid hbare, hg.1.2.imp (fun h0 => List.map_eq_nil_iff.mpr h0) fun hK => ?_⟩,
            fun hp _ => ⟨_, rfl, ?_, ?_⟩⟩
          · exact Kids.map (Live.commit off) (hK.imp fun lo hi c hc hgc => ih hgc (hcs c hc))
          · subst hp
            exact hvalid (Live.bare_publish (t := Cell.known id true dk (Body.node ps cs b)) hS)
          · subst hp
            refine Tree.Yields.of_bare (hbare.trans
              (Live.bare_publish (t := Cell.known id true dk (Body.node ps cs b)) hS).symm) ?_
            simp only [Body.commit_node, Body.view_node, Body.publish_node,
              views_commit hcs, Tree.offs_node]
            exact List.sublist_append_right _ _
      | false => exact hg
    · exact hg

/-- The new records are sound if they have the property, and so are then those below. -/
theorem Live.sound_commit {t : Live h} (hP : Hereditary P) (hS : Live.Sound P t)
    (hpub : t.dirty = true → P h (Live.publish off t)) : Live.Sound P (Live.commit off t) := by
  induction h with
  | zero =>
    rcases t with ⟨id, dirty, dk, x⟩ | ⟨id, d⟩
    · cases dirty with
      | true =>
        refine ⟨fun d hd => ?_, fun _ => ⟨_, rfl, _, rfl⟩, trivial⟩
        obtain rfl := Option.some.inj hd
        exact hpub rfl
      | false => exact hS
    · exact hS
  | succ h ih =>
    rcases t with ⟨id, dirty, dk, x⟩ | ⟨id, d⟩
    · cases dirty with
      | true =>
        induction x using Body.succCases with
        | hn ps cs b =>
          have hcs := Body.sound_node.mp hS.2.2
          refine ⟨fun d hd => ?_, fun _ => ⟨_, rfl, _, _, rfl, ?_⟩, ?_⟩
          · obtain rfl := Option.some.inj hd
            exact hpub rfl
          · exact disks_commit hcs
          · refine Body.sound_node.mpr fun c hc => ?_
            obtain ⟨c, hc', rfl⟩ := List.mem_map.mp hc
            exact ih (hcs c hc') fun _ => hP h _ _ _ _ (hpub rfl) _ (List.mem_map_of_mem hc')
      | false => exact hS
    · exact hS

lemma Live.labelled_publish {t : Live h} (hS : Live.Sound (fun _ d => d.Labelled) t) :
    (Live.publish off t).Labelled := by
  induction h with
  | zero =>
    rcases t with ⟨id, dirty, dk, x⟩ | ⟨id, d⟩
    · cases dirty with
      | true => exact rfl
      | false =>
        obtain ⟨d, rfl, -⟩ := hS.2.1 rfl
        exact hS.1 d rfl
    · exact hS
  | succ h ih =>
    rcases t with ⟨id, dirty, dk, x⟩ | ⟨id, d⟩
    · cases dirty with
      | true =>
        induction x using Body.succCases with
        | hn ps cs b =>
          refine ⟨rfl, fun d hd => ?_⟩
          obtain ⟨c, hc, rfl⟩ := List.mem_map.mp hd
          exact ih (Body.sound_node.mp hS.2.2 c hc)
      | false =>
        obtain ⟨d, rfl, -⟩ := hS.2.1 rfl
        exact hS.1 d rfl
    · exact hS

/-- Where clean nodes have clean children, a commit reaches every dirty node. -/
theorem Live.clean_commit {t : Live h} (hc : Live.Closed t) :
    Live.plain (Live.commit off t) = (Live.plain t).relabel fun _ _ => false := by
  have hstub : ∀ {h : ℕ} (d : VTree h), d.clean = d.clean.relabel fun _ _ => false := by
    intro h d
    unfold Tree.clean
    rw [Tree.relabel_relabel]
  induction h with
  | zero =>
    rcases t with ⟨id, dirty, dk, x⟩ | ⟨id, d⟩
    · cases dirty <;> rfl
    · exact hstub d
  | succ h ih =>
    rcases t with ⟨id, dirty, dk, x⟩ | ⟨id, d⟩
    · induction x using Body.succCases with
      | hn ps cs b =>
        have hcs := Body.closed_node.mp hc.2
        cases dirty with
        | true =>
          simp only [Live.commit_dirty, Live.plain_known, Body.commit_node, Body.plain_node,
            Tree.relabel_node,
            List.map_map]
          exact congrArg (fun cs => (Tree.node false ps cs b : Flagged (h + 1)))
            (List.map_congr_left fun c hc => ih (hcs c hc))
        | false =>
          have hclean := Body.kidsClean_node.mp (hc.1 rfl)
          have hcommit : ∀ c ∈ cs, Live.commit off c = c := by
            intro c hc
            have := hclean c hc
            rcases c with ⟨id, dirty, dk, x⟩ | ⟨id, d⟩
            · obtain rfl : dirty = false := this
              rfl
            · rfl
          simp only [Live.commit_clean, Live.plain_known, Body.plain_node,
            Tree.relabel_node, List.map_map]
          refine congrArg (fun cs => (Tree.node false ps cs b : Flagged (h + 1)))
            (List.map_congr_left fun c hc => ?_)
          have := ih (hcs c hc)
          rwa [hcommit c hc] at this
    · exact hstub d

end Good

section Slots
variable {h : ℕ} {off : NodeId → ℕ}

lemma Live.ids_foot_commit (t : Live h) :
    (Live.foot (Live.commit off t)).ids = (Live.foot t).ids := by
  induction h with
  | zero =>
    rcases t with ⟨id, dirty, dk, x⟩ | ⟨id, d⟩
    · cases dirty <;> rfl
    · rfl
  | succ h ih =>
    rcases t with ⟨id, dirty, dk, x⟩ | ⟨id, d⟩
    · cases dirty with
      | true =>
        induction x using Body.succCases with
        | hn ps cs b =>
          simp only [Live.commit_dirty, Live.foot_known, Body.commit_node,
            Body.foot_node, Foot.ids_cons,
            List.flatMap_map]
          refine congrArg (id :: ·) ?_
          unfold Foot.ids at ih ⊢
          rw [List.map_flatMap, List.map_flatMap]
          exact List.flatMap_congr fun c _ => ih c
      | false => rfl
    · rfl

lemma Live.written_foot {t : Live h} {i : NodeId} {n : Node} (hi : (i, n) ∈ Live.written t) :
    ∃ r, (i, Slot.loaded n true r) ∈ Live.foot t := by
  induction h with
  | zero =>
    rcases t with ⟨id, dirty, dk, x⟩ | ⟨id, d⟩
    · cases dirty with
      | true =>
        induction x using Body.zeroCases with
        | hl es =>
          obtain ⟨rfl, rfl⟩ : i = id ∧ n = .leaf es := by simpa using hi
          exact ⟨_, List.mem_cons_self ..⟩
      | false => simp at hi
    · simp at hi
  | succ h ih =>
    rcases t with ⟨id, dirty, dk, x⟩ | ⟨id, d⟩
    · cases dirty with
      | true =>
        induction x using Body.succCases with
        | hn ps cs b =>
          rw [Live.written_dirty, Body.written_node, List.mem_cons, List.mem_flatMap] at hi
          rcases hi with hi | ⟨c, hc, hi⟩
          · cases hi
            exact ⟨_, List.mem_cons_self ..⟩
          · obtain ⟨r, hr⟩ := ih hi
            refine ⟨r, ?_⟩
            rw [Live.foot_known, Body.foot_node]
            exact List.mem_cons_of_mem _ (List.mem_flatMap.mpr ⟨c, by simpa using hc, hr⟩)
      | false => simp at hi
    · simp at hi

lemma Live.written_ids {t : Live h} {i : NodeId} (hi : i ∈ (Live.written t).map Prod.fst) :
    i ∈ (Live.foot t).ids := by
  obtain ⟨⟨j, n⟩, hj, rfl⟩ := List.mem_map.mp hi
  obtain ⟨r, hr⟩ := Live.written_foot hj
  exact List.mem_map_of_mem hr

lemma Live.foot_commit {t : Live h} (hn : (Live.foot t).ids.Nodup) {x : NodeId × Slot}
    (hx : x ∈ Live.foot (Live.commit off t)) :
    x.1 ∉ (Live.written t).map Prod.fst ∧ x ∈ Live.foot t ∨
      ∃ n r, x.2 = .loaded n false (some r) ∧ r.2.ann = some (off x.1) ∧
      (x.1, n) ∈ Live.written t := by
  induction h with
  | zero =>
    rcases t with ⟨id, dirty, dk, y⟩ | ⟨id, d⟩
    · cases dirty with
      | true =>
        induction y using Body.zeroCases with
        | hl es =>
          obtain rfl :
            x = (id, .loaded (.leaf es) false (some ⟨0, Tree.leaf (some (off id)) es⟩)) := by
            simpa using hx
          exact Or.inr ⟨_, _, rfl, rfl, by simp⟩
      | false => exact Or.inl ⟨by simp, hx⟩
    · exact Or.inl ⟨by simp, hx⟩
  | succ h ih =>
    rcases t with ⟨id, dirty, dk, y⟩ | ⟨id, d⟩
    · cases dirty with
      | true =>
        induction y using Body.succCases with
        | hn ps cs b =>
          simp only [Live.foot_known, Body.foot_node, Foot.ids_cons, List.nodup_cons] at hn
          rw [Live.commit_dirty, Live.foot_known, Body.commit_node, Body.foot_node, List.mem_cons,
            List.flatMap_map, List.mem_flatMap] at hx
          rcases hx with rfl | ⟨c, hc, hx⟩
          · exact Or.inr ⟨_, _, rfl, rfl, by simp [Function.comp_def]⟩
          · obtain ⟨cs₁, cs₂, rfl⟩ := List.append_of_mem hc
            obtain ⟨hid, hn⟩ := hn
            simp only [List.flatMap_append, List.flatMap_cons, Foot.ids_append] at hid hn
            have hnc := (List.nodup_append'.mp (List.nodup_append'.mp hn).2.1).1
            have hids : x.1 ∈ (Live.foot c).ids := by
              rw [← show (Live.foot (Live.commit off c)).ids = _ from Live.ids_foot_commit c]
              exact List.mem_map_of_mem hx
            rcases ih hnc hx with ⟨hnot, hfoot⟩ | ⟨n, r, hslot, hann, hw⟩
            · refine Or.inl ⟨fun hmem => ?_, ?_⟩
              · simp only [Live.written_dirty, Body.written_node, List.map_cons, List.mem_cons,
                  List.map_flatMap,
                  List.mem_flatMap, List.mem_reverse, List.mem_append] at hmem
                rcases hmem with h0 | ⟨c', hc', hmem⟩
                · exact hid (by simp [← h0, hids])
                · rcases hc' with hc' | rfl | hc'
                  · refine (List.nodup_append'.mp hn).2.2 ?_ (List.mem_append_left _ hids)
                    obtain ⟨z, hz, hz'⟩ := List.mem_map.mp (Live.written_ids hmem)
                    exact hz' ▸ List.mem_map_of_mem (List.mem_flatMap.mpr ⟨c', hc', hz⟩)
                  · exact hnot hmem
                  · refine (List.nodup_append'.mp (List.nodup_append'.mp hn).2.1).2.2 hids ?_
                    obtain ⟨z, hz, hz'⟩ := List.mem_map.mp (Live.written_ids hmem)
                    exact hz' ▸ List.mem_map_of_mem (List.mem_flatMap.mpr ⟨c', hc', hz⟩)
              · rw [Live.foot_known, Body.foot_node]
                exact List.mem_cons_of_mem _ (List.mem_flatMap.mpr ⟨c, hc, hfoot⟩)
            · refine Or.inr ⟨n, r, hslot, hann, ?_⟩
              rw [Live.written_dirty, Body.written_node]
              exact List.mem_cons_of_mem _ (List.mem_flatMap.mpr ⟨c, by simp, hw⟩)
      | false => exact Or.inl ⟨by simp, hx⟩
    · exact Or.inl ⟨by simp, hx⟩

end Slots

section Store
variable {h : ℕ}

open Classical in
/-- The store with the slots of a footprint replaced. Afterwards any clean node may be evicted. -/
noncomputable def Ideal.install (s : Ideal) (F : Foot) : Ideal where
  slots i := ((F.find? fun x => x.1 = i).map Prod.snd).or (s.slots i)
  next := s.next
  kept := ∅
  free := s.free

lemma Ideal.install_of_mem {s : Ideal} {F : Foot} (hn : F.ids.Nodup)
    {x : NodeId × Slot} (hx : x ∈ F) :
    (s.install F).slots x.1 = some x.2 := by
  classical
  have hfind : F.find? (fun y => y.1 = x.1) = some x := by
    induction F with
    | nil => simp at hx
    | cons y F ih =>
      rw [Foot.ids_cons, List.nodup_cons] at hn
      rcases List.mem_cons.mp hx with rfl | hx
      · simp
      · have hne : y.1 ≠ x.1 := fun h0 => hn.1 (h0 ▸ List.mem_map_of_mem hx)
        rw [List.find?_cons_of_neg (by simpa using hne)]
        exact ih hn.2 hx
  simp [Ideal.install, hfind]

lemma Ideal.install_of_not_mem {s : Ideal} {F : Foot} {i : NodeId} (hi : i ∉ F.ids) :
    (s.install F).slots i = s.slots i := by
  classical
  have hfind : F.find? (fun y => y.1 = i) = none := by
    rw [List.find?_eq_none]
    intro x hx h0
    obtain rfl : x.1 = i := by simpa using h0
    exact hi (List.mem_map_of_mem hx)
  simp [Ideal.install, hfind]

variable {π : Type} {e : Engine π Ideal} {t : Live h} {off : NodeId → ℕ}

/-- The engine after its dirty nodes have been written at the given offsets. -/
noncomputable def Engine.committed (e : Engine π Ideal) (off : NodeId → ℕ) (t : Live h) :
    Engine π Ideal :=
  { e with store := e.store.install (Live.foot (Live.commit off t)), opsSinceCommit := 0 }

theorem Holds.commit (ht : Holds e t) (off : NodeId → ℕ) : Holds (e.committed off t)
    (Live.commit off t) where
  root := by
    rw [Live.id_commit]
    exact ht.root
  stored := by
    have hids : (Live.foot (Live.commit off t)).ids = (Live.foot t).ids := Live.ids_foot_commit t
    have hn : (Live.foot (Live.commit off t)).ids.Nodup := hids ▸ ht.stored.nodup
    exact ⟨fun x hx => Ideal.install_of_mem hn hx, fun i hi => ht.stored.bound i (hids ▸ hi), hn⟩
  whole i hi hn := by
    have hslot : (e.committed off t).store.slots i = e.store.slots i := Ideal.install_of_not_mem hn
    rw [hslot]
    rw [show (Live.foot (Live.commit off t)).ids = (Live.foot t).ids from Live.ids_foot_commit t]
      at hn
    exact ht.whole i hi hn
  good p := Live.good_commit (ht.good p) ht.sound
  sound := Live.sound_commit hereditary_labelled ht.sound fun _ => Live.labelled_publish ht.sound
  rest := by
    have := ht.rest
    rw [← Tree.rootRest_bare] at this
    change (Live.plain (Live.commit off t)).RootRest e.params
    rw [← Tree.rootRest_bare, Live.bare_commit]
    exact this
  fresh p k := by
    rw [← Tree.below_bare, Live.bare_view_commit' ht.sound, Tree.below_bare]
    exact ht.fresh p k
  legal := ht.legal

end Store

section Walk
variable {π : Type} {e : Engine π Ideal}

lemma filterM_run {α : Type} {f : α → Engine.Act π Ideal Bool} {g : α → Bool} {l : List α}
    (hf : ∀ x ∈ l, f x e = .ok (g x) e) : l.filterM f e = .ok (l.filter g) e := by
  have haux : ∀ (l acc : List α), (∀ x ∈ l, f x e = .ok (g x) e) →
      l.filterAuxM f acc e = .ok ((l.filter g).reverse ++ acc) e := by
    intro l
    induction l with
    | nil => exact fun _ _ => rfl
    | cons x l ih =>
      intro acc hl
      unfold List.filterAuxM
      rw [Engine.run_bind (hl x (by simp)), ih _ fun y hy => hl y (by simp [hy])]
      cases hg : g x <;> simp [hg]
  unfold List.filterM
  rw [Engine.run_bind (haux l [] hf)]
  simp

lemma dirty_children_run {h : ℕ} {cs : List (Live h)}
    (hF : ∀ c ∈ cs, Stored e.store (Live.foot c)) :
    (cs.map Cell.id).filterM Engine.isDirty e = .ok ((cs.filter Cell.dirty).map Cell.id) e := by
  have hdirty : ∀ c ∈ cs, Engine.isDirty c.id e = .ok c.dirty e := by
    intro c hc
    rw [isDirty_run (hF c hc).top]
    cases c <;> rfl
  have hids :
    ∀ i ∈ cs.map Cell.id, Engine.isDirty i e = .ok
      (((e.store.slots i).map Slot.dirty).getD false) e := by
    intro i hi
    obtain ⟨c, hc, rfl⟩ := List.mem_map.mp hi
    rw [isDirty_run (hF c hc).top, (hF c hc).top]
    rfl
  rw [filterM_run hids, List.filter_map]
  refine congrArg (EStateM.Result.ok · e)
    (congrArg (List.map Cell.id) (List.filter_congr fun c hc => ?_))
  rw [Function.comp_apply, (hF c hc).top]
  cases c <;> rfl

/-- The walk lists what is to be written. -/
theorem dirtyWalk_run {h : ℕ} {t : Live h} (hF : Stored e.store (Live.foot t)) (hd : t.dirty = true)
    {stack l : List NodeId} (hrest : ∃ N, ∀ fuel ≥ N, Engine.dirtyWalk fuel stack e = .ok l e) :
    ∃ N, ∀ fuel ≥ N, Engine.dirtyWalk fuel (t.id :: stack) e = .ok
      ((Live.written t).map Prod.fst ++ l) e := by
  induction h generalizing stack l with
  | zero =>
    rcases t with ⟨id, dirty, dk, x⟩ | ⟨id, d⟩
    · obtain rfl : dirty = true := hd
      obtain ⟨N, hN⟩ := hrest
      induction x using Body.zeroCases with
      | hl es =>
        refine ⟨N + 1, fun fuel hf => ?_⟩
        obtain ⟨n, rfl⟩ : ∃ n, fuel = n + 1 := ⟨fuel - 1, by omega⟩
        have hload : Engine.loaded id e = .ok (.leaf es) e := loaded_run hF.top (Or.inl rfl)
        change Engine.dirtyWalk (n + 1) (id :: stack) e = _
        rw [Engine.dirtyWalk, Engine.run_bind hload,
          Engine.run_bind (show (Node.leaf es).children.filterM
          Engine.isDirty e = .ok [] e from rfl)]
        exact Engine.run_bind (hN n (by omega))
    · cases hd
  | succ h ih =>
    rcases t with ⟨id, dirty, dk, x⟩ | ⟨id, d⟩
    · obtain rfl : dirty = true := hd
      induction x using Body.succCases with
      | hn ps cs b =>
        have hkids : ∀ c ∈ cs, Stored e.store (Live.foot c) := by
          intro c hc
          obtain ⟨cs₁, cs₂, rfl⟩ := List.append_of_mem hc
          exact hF.child
        have hlist : ∀ cs' : List (Live h), (∀ c ∈ cs', Stored e.store (Live.foot c)) →
            ∃ N, ∀ fuel ≥ N, Engine.dirtyWalk fuel
              ((cs'.filter Cell.dirty).map Cell.id ++ stack) e =
              .ok ((cs'.flatMap Live.written).map Prod.fst ++ l) e := by
          intro cs' hcs'
          induction cs' with
          | nil => exact hrest
          | cons c cs' ihc =>
            have hrest' := ihc fun c' hc' => hcs' c' (by simp [hc'])
            cases hc : c.dirty with
            | true =>
              obtain ⟨N, hN⟩ := ih (hcs' c (by simp)) hc hrest'
              refine ⟨N, fun fuel hf => ?_⟩
              rw [List.filter_cons_of_pos hc, List.map_cons, List.cons_append, hN fuel hf]
              simp
            | false =>
              obtain ⟨N, hN⟩ := hrest'
              refine ⟨N, fun fuel hf => ?_⟩
              rw [List.filter_cons_of_neg (by simp [hc]), List.flatMap_cons,
                Live.written_of_clean hc, hN fuel hf]
              simp
        obtain ⟨N, hN⟩ := hlist cs.reverse fun c hc => hkids c (by simpa using hc)
        refine ⟨N + 1, fun fuel hf => ?_⟩
        obtain ⟨n, rfl⟩ : ∃ n, fuel = n + 1 := ⟨fuel - 1, by omega⟩
        have hload : Engine.loaded id e = .ok (.internal ps (cs.map Cell.id) b) e :=
          loaded_run hF.top (Or.inl rfl)
        change Engine.dirtyWalk (n + 1) (id :: stack) e = _
        have hchildren : (Node.internal ps (cs.map Cell.id) b).children = cs.map Cell.id := rfl
        rw [Engine.dirtyWalk, Engine.run_bind hload, hchildren,
          Engine.run_bind (dirty_children_run hkids)]
        have hrun := hN n (by omega)
        rw [List.filter_reverse, List.map_reverse] at hrun
        rw [Engine.run_bind hrun]
        simp
    · cases hd

theorem dirtyNodes_run {h : ℕ} {t : Live h} (hroot : e.root = t.id)
    (hF : Stored e.store (Live.foot t)) :
    ∃ N, ∀ fuel ≥ N, Engine.dirtyNodes fuel e = .ok ((Live.written t).map Prod.fst) e := by
  have hdirty : Engine.isDirty t.id e = .ok t.dirty e := by
    rw [isDirty_run hF.top]
    cases t <;> rfl
  unfold Engine.dirtyNodes
  cases hd : t.dirty with
  | true =>
    have hnil : ∃ N, ∀ fuel ≥ N, Engine.dirtyWalk fuel [] e = .ok [] e :=
      ⟨1, fun fuel hf => by obtain ⟨n, rfl⟩ : ∃ n, fuel = n + 1 := ⟨fuel - 1, by omega⟩; rfl⟩
    obtain ⟨N, hN⟩ := dirtyWalk_run hF hd hnil
    refine ⟨N, fun fuel hf => ?_⟩
    rw [Engine.run_bind Engine.run_get, hroot, Engine.run_bind hdirty, hd, if_pos rfl, hN fuel hf,
      List.append_nil]
  | false =>
    refine ⟨0, fun fuel _ => ?_⟩
    rw [Engine.run_bind Engine.run_get, hroot, Engine.run_bind hdirty, hd, Live.written_of_clean hd]
    rfl

end Walk
end Beetree
