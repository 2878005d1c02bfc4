import Beetree.TreeSplit

/-! Trees as a running engine holds them.

A node is known, with the record it was last written to if any, or it is a stub: a slot whose record
has never been read. Such a tree stands for two plain ones. One is what the engine answers from. The
other is what a commit would publish, in which a clean node counts as its record, whatever has
happened below it since. -/
namespace Beetree

inductive Cell (D B : Type)
  | known (id : NodeId) (dirty : Bool) (disk : Option D) (body : B)
  | stub (id : NodeId) (d : D)

structure Inner (T : Type) where
  pivots : List Key
  children : List T
  buffer : Buffer

def Body : ℕ → Type
  | 0 => Entries
  | h + 1 => Inner (Cell (VTree h) (Body h))

abbrev Live (h : ℕ) := Cell (VTree h) (Body h)

namespace Cell
variable {D B : Type}

def id : Cell D B → NodeId
  | known id _ _ _ => id
  | stub id _ => id

def dirty : Cell D B → Bool
  | known _ dirty _ _ => dirty
  | stub _ _ => false

/-- The record a slot was last written to or will be read from. -/
def disk : Cell D B → Option D
  | known _ _ disk _ => disk
  | stub _ d => some d

/-- Read a cell as a tree, a clean node being its record when `p` asks for what is published. -/
def read (p : Bool) (v : B → D) : Cell D B → D
  | known _ dirty disk body => if p && !dirty then disk.getD (v body) else v body
  | stub _ d => d

/-- A published clean node has a record that answers like the node. -/
def Fine {h : ℕ} (p : Bool) (v : B → VTree h) (G : Option Key → Option Key → B → Prop)
    (lo hi : Option Key) : Cell (VTree h) B → Prop
  | known _ dirty disk body => G lo hi body ∧ (p = true → dirty = false →
      ∃ d, disk = some d ∧ d.Valid lo hi ∧ Tree.Yields lo hi d (v body))
  | stub _ d => d.Valid lo hi

end Cell

namespace Body

def view (p : Bool) {h : ℕ} (x : Body h) : VTree h :=
  match h, x with
  | 0, es => Tree.leaf none es
  | _ + 1, x => Tree.node none x.pivots (x.children.map (Cell.read p (view p))) x.buffer

def Good (p : Bool) {h : ℕ} (lo hi : Option Key) (x : Body h) : Prop :=
  match h, x with
  | 0, es => (Tree.leaf none es : VTree 0).Valid lo hi
  | h + 1, x => (view p (h := h + 1) x).Valid lo hi ∧ (x.children = [] ∨
      Kids (fun lo hi c => Cell.Fine p (view p) (fun lo hi y => Good p lo hi y) lo hi c)
        lo hi x.pivots x.children)

end Body

namespace Live
variable {h : ℕ}

def view (p : Bool) (t : Live h) : VTree h := Cell.read p (Body.view p) t

/-- Every subtree read either way is valid where it stands, and records answer for clean nodes. -/
def Good (p : Bool) (lo hi : Option Key) (t : Live h) : Prop :=
  Cell.Fine p (Body.view p) (Body.Good p) lo hi t

end Live

section Unfold
variable {h : ℕ} {p : Bool} {lo hi : Option Key} {ps : List Key} {cs : List (Live h)} {b : Buffer}
  {es : Entries} {id : NodeId} {dirty : Bool}

def Body.leaf (es : Entries) : Body 0 := es

def Body.node (ps : List Key) (cs : List (Live h)) (b : Buffer) : Body (h + 1) := Inner.mk ps cs b

@[elab_as_elim] lemma Body.zeroCases {motive : Body 0 → Prop} (hl : ∀ es, motive (leaf es))
    (x : Body 0) : motive x := hl x

@[elab_as_elim] lemma Body.succCases {motive : Body (h + 1) → Prop}
    (hn : ∀ ps cs b, motive (node ps cs b)) (x : Body (h + 1)) : motive x :=
  hn (Inner.pivots x) (Inner.children x) (Inner.buffer x)

@[simp] lemma Body.view_leaf : (Body.leaf es).view p = Tree.leaf none es := rfl

@[simp] lemma Body.view_node :
    (Body.node ps cs b).view p = Tree.node none ps (cs.map (Live.view p)) b := rfl

lemma Body.good_leaf : (Body.leaf es).Good p lo hi ↔
    (Tree.leaf none es : VTree 0).Valid lo hi := Iff.rfl

lemma Body.good_node : (Body.node ps cs b).Good p lo hi ↔
    ((Body.node ps cs b).view p).Valid lo hi ∧
    (cs = [] ∨ Kids (fun lo hi c => Live.Good p lo hi c) lo hi ps cs) := Iff.rfl

@[simp] lemma Live.view_stub (d : VTree h) : Live.view p (Cell.stub id d) = d := rfl

lemma Live.view_known (disk : Option (VTree h)) (x : Body h) :
    Live.view p (Cell.known id dirty disk x) =
    if p && !dirty then disk.getD (x.view p) else x.view p := rfl

@[simp] lemma Live.view_dirty (disk : Option (VTree h)) (x : Body h) :
    Live.view p (Cell.known id true disk x) = x.view p := by
  simp [Live.view_known]

@[simp] lemma Live.view_plain (disk : Option (VTree h)) (x : Body h) :
    Live.view false (Cell.known id dirty disk x) = x.view false := rfl

@[simp] lemma Live.view_clean (d : VTree h) (x : Body h) :
    Live.view true (Cell.known id false (some d) x) = d := rfl

lemma Live.good_stub (d : VTree h) : Live.Good p lo hi (Cell.stub id d) ↔ d.Valid lo hi := Iff.rfl

lemma Live.good_known (disk : Option (VTree h)) (x : Body h) :
    Live.Good p lo hi (Cell.known id dirty disk x) ↔ x.Good p lo hi ∧ (p = true → dirty = false →
      ∃ d, disk = some d ∧ d.Valid lo hi ∧ Tree.Yields lo hi d (x.view p)) := Iff.rfl

@[simp] lemma Live.good_dirty (disk : Option (VTree h)) (x : Body h) :
    Live.Good p lo hi (Cell.known id true disk x) ↔ x.Good p lo hi := by
  simp [Live.good_known]

end Unfold

lemma Body.Good.valid {h : ℕ} {p : Bool} {lo hi : Option Key} {x : Body h} (hx : x.Good p lo hi) :
    (x.view p).Valid lo hi := by
  cases h with
  | zero => exact hx
  | succ h => exact hx.1

lemma Live.Good.valid {h : ℕ} {p : Bool} {lo hi : Option Key} {t : Live h}
    (ht : Live.Good p lo hi t) :
    (Live.view p t).Valid lo hi := by
  cases t with
  | stub id d => exact ht
  | known id dirty disk x =>
    rw [Live.view_known]
    rw [Live.good_known] at ht
    split_ifs with hp
    · obtain ⟨rfl, hd⟩ : p = true ∧ dirty = false := by simpa using hp
      obtain ⟨d, rfl, hv, -⟩ := ht.2 rfl hd
      exact hv
    · exact ht.1.valid

/-- Two trees that agree on the range both are confined to agree on any wider one. -/
lemma Tree.Yields.widen {h : ℕ} {lo hi lo' hi' : Option Key} {x y : VTree h}
    (hxy : Yields lo hi x y)
    (hx : x.Valid lo hi) (hy : y.Valid lo hi) : Yields lo' hi' x y := by
  refine ⟨fun k _ => ?_, fun k s _ hb => ?_, hxy.offs⟩
  · by_cases hk : InRange lo hi k
    · exact hxy.same k hk
    · rw [(hx.outside hk).1, (hy.outside hk).1]
  · by_cases hk : InRange lo hi k
    · exact hxy.below k s hk hb
    · exact (hy.outside hk).2 s

lemma Live.Good.widen {h : ℕ} {p : Bool} {lo hi lo' hi' : Option Key} {t : Live h}
    (w : Wider lo hi lo' hi') (ht : Live.Good p lo hi t) : Live.Good p lo' hi' t := by
  induction h generalizing lo hi lo' hi' with
  | zero =>
    cases t with
    | stub id d => exact Tree.Valid.widen w ht
    | known id dirty disk x =>
      refine ⟨Tree.Valid.widen w ht.1, fun hp hd => ?_⟩
      obtain ⟨d, hdisk, hv, hy⟩ := ht.2 hp hd
      exact ⟨d, hdisk, hv.widen w, hy.widen hv ht.1⟩
  | succ h ih =>
    cases t with
    | stub id d => exact Tree.Valid.widen w ht
    | known id dirty disk x =>
      refine ⟨⟨Tree.Valid.widen w ht.1.1, ht.1.2.imp_right fun hK => ?_⟩, fun hp hd => ?_⟩
      · exact Kids.widen (P := fun lo hi c => Live.Good p lo hi c)
          (fun _ _ _ _ _ w hc => ih w hc) w hK
      · obtain ⟨d, hdisk, hv, hy⟩ := ht.2 hp hd
        exact ⟨d, hdisk, hv.widen w, hy.widen hv ht.1.1⟩

end Beetree
