import Beetree.Live

/-! The tree in memory with its dirty flags, and what is said of it: capacities at rest, absence of
messages, and when a drain dirties nothing below a clean node. -/
namespace Beetree

namespace Tree
variable {α β : ℕ → Type} {h : ℕ}

def relabel (f : (h : ℕ) → α h → β h) {h : ℕ} (t : Tree α h) : Tree β h :=
  match h, t with
  | 0, t => leaf (f 0 t.ann) t.entries
  | h + 1, t => node (f (h + 1) t.ann) t.pivots (t.children.map (relabel f)) t.buffer

@[simp] lemma relabel_leaf (f : (h : ℕ) → α h → β h) (a : α 0) (es : Entries) :
    (leaf a es).relabel f = leaf (f 0 a) es := rfl

@[simp] lemma relabel_node (f : (h : ℕ) → α h → β h) (a : α (h + 1)) (ps : List Key)
    (cs : List (Tree α h)) (b : Buffer) :
    (node a ps cs b).relabel f = node (f (h + 1) a) ps (cs.map (relabel f)) b := rfl

def bare (t : Tree α h) : Tree (fun _ => Unit) h := t.relabel fun _ _ => ()

lemma relabel_relabel {γ : ℕ → Type} (f : (h : ℕ) → α h → β h) (g : (h : ℕ) → β h → γ h)
    (t : Tree α h) :
    (t.relabel f).relabel g = t.relabel fun h a => g h (f h a) := by
  induction h with
  | zero => rfl
  | succ h ih =>
    induction t using succCases with
    | hn a ps cs b => simp [Function.comp_def, ih]

@[simp] lemma bare_relabel (f : (h : ℕ) → α h → β h) (t : Tree α h) : (t.relabel f).bare = t.bare :=
  relabel_relabel f _ t

@[simp] lemma bare_leaf (a : α 0) (es : Entries) : (leaf a es).bare = leaf () es := rfl

@[simp] lemma bare_node (a : α (h + 1)) (ps : List Key) (cs : List (Tree α h)) (b : Buffer) :
    (node a ps cs b).bare = node () ps (cs.map bare) b := rfl

@[simp] lemma resolve_bare (t : Tree α h) (k : Key) : t.bare.resolve k = t.resolve k := by
  induction h with
  | zero => rfl
  | succ h ih =>
    induction t using succCases with
    | hn a ps cs b =>
      simp only [bare_node, resolve_node, childAt_map]
      cases childAt ps cs k <;> simp [ih]

lemma below_bare {t : Tree α h} {k : Key} {s : ℕ} : t.bare.Below k s ↔ t.Below k s := by
  induction h with
  | zero => exact Iff.rfl
  | succ h ih =>
    induction t using succCases with
    | hn a ps cs b =>
      simp only [bare_node, below_node, childAt_map]
      cases childAt ps cs k <;> simp [ih]

lemma valid_bare {t : Tree α h} {lo hi : Option Key} : t.bare.Valid lo hi ↔ t.Valid lo hi := by
  induction h generalizing lo hi with
  | zero => exact Iff.rfl
  | succ h ih =>
    induction t using succCases with
    | hn a ps cs b =>
      simp only [bare_node, valid_node, childAt_map, List.map_eq_nil_iff]
      refine and_congr_right fun _ => and_congr ?_ (or_congr Iff.rfl ?_)
      · constructor
        · intro hb k m c hm hc
          exact below_bare.mp (hb k m c.bare hm (by rw [hc]; rfl))
        · intro hb k m c hm hc
          obtain ⟨c', hc', rfl⟩ := Option.map_eq_some_iff.mp hc
          exact below_bare.mpr (hb k m c' hm hc')
      · exact ⟨fun hK => (Kids.of_map bare hK).imp fun _ _ _ _ => ih.mp,
          fun hK => Kids.map bare (hK.imp fun _ _ _ _ => ih.mpr)⟩

/-- Capacities at rest: buffers within `B`, fanouts within `F`, leaves nonempty and within `L`. -/
def Rest (prm : Params) {h : ℕ} (t : Tree α h) : Prop :=
  match h, t with
  | 0, t => 0 < t.entries.size ∧ t.entries.size ≤ prm.leafCapacity.toNat
  | _ + 1, t => t.buffer.size ≤ prm.bufferCapacity.toNat ∧ 0 < t.children.length ∧
      t.children.length ≤ prm.fanout.toNat ∧ ∀ c ∈ t.children, Rest prm c

def RootRest (prm : Params) {h : ℕ} (t : Tree α h) : Prop :=
  match h, t with
  | 0, t => t.entries.size ≤ prm.leafCapacity.toNat
  | _ + 1, t => Rest prm t

def Quiet {h : ℕ} (t : Tree α h) : Prop :=
  match h, t with
  | 0, _ => True
  | _ + 1, t => t.buffer = OrdMap.empty ∧ ∀ c ∈ t.children, Quiet c

lemma rest_node {prm : Params} {a : α (h + 1)} {ps : List Key} {cs : List (Tree α h)} {b : Buffer} :
    (node a ps cs b).Rest prm ↔ b.size ≤ prm.bufferCapacity.toNat ∧ 0 < cs.length ∧
      cs.length ≤ prm.fanout.toNat ∧ ∀ c ∈ cs, c.Rest prm := Iff.rfl

lemma quiet_node {a : α (h + 1)} {ps : List Key} {cs : List (Tree α h)} {b : Buffer} :
    (node a ps cs b).Quiet ↔ b = OrdMap.empty ∧ ∀ c ∈ cs, c.Quiet := Iff.rfl

lemma rest_bare {prm : Params} {t : Tree α h} : t.bare.Rest prm ↔ t.Rest prm := by
  induction h with
  | zero => exact Iff.rfl
  | succ h ih =>
    induction t using succCases with
    | hn a ps cs b => simp [rest_node, ih]

lemma rootRest_bare {prm : Params} {t : Tree α h} : t.bare.RootRest prm ↔ t.RootRest prm := by
  cases h with
  | zero => exact Iff.rfl
  | succ h => exact rest_bare

lemma Rest.rootRest {prm : Params} {t : Tree α h} (ht : t.Rest prm) : t.RootRest prm := by
  cases h with
  | zero => exact ht.2
  | succ h => exact ht

end Tree

abbrev Flagged := Tree (fun _ => Bool)

/-- A drain that comes here with the given keys on their way down enters no clean node that has
nothing to receive and no message of its own but messages further down. -/
def Tree.DrainSafe (B : Key → Prop) (lo hi : Option Key) {h : ℕ} (t : Flagged h) : Prop :=
  match h, t with
  | 0, _ => True
  | _ + 1, t =>
    ((∃ k, InRange lo hi k ∧ (B k ∨ (t.buffer.get? k).isSome)) ∨ t.ann = true ∨
      ∀ c ∈ t.children, c.Quiet) ∧
    (t.children = [] ∨
      Kids (fun lo hi c => DrainSafe (fun k => B k ∨ (t.buffer.get? k).isSome) lo hi c)
        lo hi t.pivots t.children)

def Cell.flagged {D B F : Type} (v : Bool → B → F) (s : D → F) : Cell D B → F
  | known _ dirty _ body => v dirty body
  | stub _ d => s d

def Tree.clean {h : ℕ} (d : VTree h) : Flagged h := d.relabel fun _ _ => false

def Body.plain {h : ℕ} (dirty : Bool) (x : Body h) : Flagged h :=
  match h, x with
  | 0, es => Tree.leaf dirty es
  | _ + 1, x => Tree.node dirty x.pivots (x.children.map (Cell.flagged plain Tree.clean)) x.buffer

def Live.plain {h : ℕ} (t : Live h) : Flagged h := Cell.flagged Body.plain Tree.clean t

section Plain
variable {h : ℕ} {id : NodeId} {dirty : Bool} {disk : Option (VTree h)}

@[simp] lemma Body.plain_leaf (es : Entries) :
    (Body.leaf es).plain dirty = Tree.leaf dirty es := rfl

@[simp] lemma Body.plain_node (ps : List Key) (cs : List (Live h)) (b : Buffer) :
    (Body.node ps cs b).plain dirty = Tree.node dirty ps (cs.map Live.plain) b := rfl

@[simp] lemma Live.plain_known (x : Body h) :
    Live.plain (Cell.known id dirty disk x) = x.plain dirty := rfl

@[simp] lemma Live.plain_stub (d : VTree h) : Live.plain (Cell.stub id d) = d.clean := rfl

lemma Live.bare_view (t : Live h) : (Live.view false t).bare = (Live.plain t).bare := by
  induction h with
  | zero =>
    cases t with
    | stub id d => exact (Tree.bare_relabel (fun _ _ => false) d).symm
    | known id dirty disk x => rfl
  | succ h ih =>
    cases t with
    | stub id d => exact (Tree.bare_relabel (fun _ _ => false) d).symm
    | known id dirty disk x =>
      induction x using Body.succCases with
      | hn ps cs b => simp [Function.comp_def, ih]

lemma Live.ann_plain (t : Live h) : (Live.plain t).ann = t.dirty := by
  cases h <;> cases t <;> rfl

end Plain

namespace Tree
variable {h : ℕ} {B B' : Key → Prop} {lo hi lo' hi' : Option Key} {t : Flagged h}

lemma DrainSafe.imp (ht : t.DrainSafe B lo hi) (hB : ∀ k, InRange lo hi k → B k → B' k) :
    t.DrainSafe B' lo hi := by
  induction h generalizing B B' lo hi with
  | zero => trivial
  | succ h ih =>
    refine ⟨ht.1.imp_left fun ⟨k, hk, hb⟩ => ⟨k, hk, hb.imp_left (hB k hk)⟩,
      ht.2.imp_right fun hK => ?_⟩
    exact hK.imp_range fun lo' hi' c _ hsub hc =>
      ih hc fun k hk hb => hb.imp_left (hB k (hsub k hk))

lemma DrainSafe.widen (w : Wider lo hi lo' hi') (ht : t.DrainSafe B lo hi) :
    t.DrainSafe B lo' hi' := by
  induction h generalizing B lo hi lo' hi' with
  | zero => trivial
  | succ h ih =>
    refine ⟨ht.1.imp_left fun ⟨k, hk, hb⟩ => ⟨k, w.inRange hk, hb⟩, ht.2.imp_right fun hK => ?_⟩
    exact Kids.widen (P := fun lo hi (c : Flagged h) => c.DrainSafe _ lo hi)
      (fun _ _ _ _ _ w hc => ih w hc) w hK

end Tree

lemma Body.quiet_plain {h : ℕ} {x : Body h} {d d' : Bool} :
    (x.plain d).Quiet ↔ (x.plain d').Quiet := by
  cases h <;> exact Iff.rfl

end Beetree
