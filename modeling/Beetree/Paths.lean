import Beetree.Algebra
import Beetree.Ownership
import Beetree.Replay

/-! The algebra of messages at work in the engines.

What stands between the root and a leaf for one key is a buffer on every level. A point read walks
down it, a scan folds it upwards, and a flush moves part of one buffer to the next. -/
namespace Beetree

section Walk
variable {π St : Type} [NodeStore St] {key : Key}

/-- The buffers and the leaf that a read of a key finds below a node, in an engine that loads them
one by one. -/
inductive Meets (key : Key) : Engine π St → NodeId → List Buffer → Entries → Prop
  | leaf {e e₁ e₂ : Engine π St} {id : NodeId} {es : Entries} :
    Engine.ensureLoaded id [] e = .ok () e₁ →
      Engine.loaded id e₁ = .ok (.leaf es) e₂ → Meets key e id [] es
  | internal {e e₁ e₂ : Engine π St} {id c : NodeId} {ps : List Key} {cs : List NodeId} {b : Buffer}
    {levels : List Buffer}
      {es : Entries} : Engine.ensureLoaded id [] e = .ok () e₁ →
      Engine.loaded id e₁ = .ok (.internal ps cs b) e₂ →
      cs[route ps key]? = some c → Meets key e₂ c levels es → Meets key e id (b :: levels) es

lemma Meets.getLoop {e : Engine π St} {id : NodeId} {levels : List Buffer} {es : Entries}
    (h : Meets key e id levels es)
    (chain : Option (BitVec 64)) {n : ℕ} (hn : levels.length < n) :
    ∃ e', Engine.getLoop key n chain id e =
      .ok (chainWalk chain (messagesFor key levels) (leafValue key es)) e' := by
  obtain ⟨n, rfl⟩ : ∃ n', n = n' + 1 := ⟨n - 1, by omega⟩
  induction h generalizing chain n with
  | @leaf e e₁ e₂ id es hload hnode =>
    refine ⟨e₂, ?_⟩
    rw [Engine.getLoop, run_bind_ok hload, run_bind_ok hnode]
    rfl
  | @internal e e₁ e₂ id c ps cs b levels es hload hnode hc _ ih =>
    obtain ⟨n, rfl⟩ : ∃ n', n = n' + 1 := ⟨n - 1, by simp at hn; omega⟩
    have hlen : levels.length < n + 1 := by simpa using hn
    rw [Engine.getLoop, run_bind_ok hload, run_bind_ok hnode]
    simp only [messagesFor, List.map_cons, hc]
    rcases b.get? key with _ | ⟨s, v⟩ | ⟨s⟩ | ⟨s, ⟨d⟩⟩
    · exact ih chain n hlen
    · exact ⟨e₂, rfl⟩
    · exact ⟨e₂, rfl⟩
    · exact ih _ n hlen

lemma extract_filter {ps : List Key} {i : ℕ} {buffer batch rest : Buffer}
    (h : extract ps i buffer = some (batch, rest)) :
    ∃ p : Key → Bool, batch = buffer.filter p ∧ rest = buffer.filter fun k => !p k := by
  unfold extract at h
  cases i with
  | zero =>
    cases hp : ps[0]? with
    | none =>
      simp only [hp, Option.bind_eq_bind, Option.bind_some, Option.some.injEq, Prod.mk.injEq] at h
      obtain ⟨rfl, rfl⟩ := h
      refine ⟨fun _ => true, ?_, ?_⟩ <;> ext1 k <;> simp
    | some hi =>
      simp only [hp, Option.bind_eq_bind, Option.bind_some, Option.some.injEq, Prod.mk.injEq] at h
      obtain ⟨rfl, rfl⟩ := h
      refine ⟨fun k => k < hi, rfl, ?_⟩
      ext1 k
      by_cases hk : k < hi <;> simp [hk, not_le.mpr, not_lt.mp]
  | succ i =>
    cases hlo : ps[i]? with
    | none => simp [hlo] at h
    | some lo =>
      cases hp : ps[i + 1]? with
      | none =>
        simp only [hlo, hp, Option.bind_eq_bind, Option.bind_some, Option.some.injEq,
          Prod.mk.injEq] at h
        obtain ⟨rfl, rfl⟩ := h
        refine ⟨fun k => lo ≤ k, rfl, ?_⟩
        ext1 k
        by_cases hk : lo ≤ k <;> simp [hk, not_lt.mpr, not_le.mp]
      | some hi =>
        simp only [hlo, hp, Option.bind_eq_bind, Option.bind_some, Option.some.injEq,
          Prod.mk.injEq] at h
        obtain ⟨rfl, rfl⟩ := h
        refine ⟨fun k => lo ≤ k && k < hi, ?_, ?_⟩
        · ext1 k
          by_cases hk : lo ≤ k <;> by_cases hk' : k < hi <;> simp [hk, hk']
        · ext1 k
          by_cases hk : lo ≤ k <;> by_cases hk' : k < hi <;>
            simp [hk, hk', not_lt.mpr, not_le.mp, not_le.mpr, not_lt.mp, OrdMap.get?_append]

/-- What a delivery does to a node and to the buffer above it, whatever lies further up and down. -/
inductive Delivered (b rest : Buffer) : Node → Node → Prop
  | leaf {es es' : Entries} : (∀ above, Flushes (above ++ [b], es) (above ++ [rest], es')) →
    Delivered b rest (.leaf es) (.leaf es')
  | internal {ps : List Key} {cs : List NodeId} {b' b'' : Buffer} :
      (∀ above below es, Flushes (above ++ b :: b' :: below, es)
        (above ++ rest :: b'' :: below, es)) →
      Delivered b rest (.internal ps cs b') (.internal ps cs b'')

lemma Delivered.filter (b : Buffer) (p : Key → Bool) (n : Node) :
    Delivered b (b.filter fun k => !p k) n (n.receive (b.filter p)) := by
  cases n with
  | leaf es => exact .leaf fun above => .leaf above b es p
  | internal ps cs b' => exact .internal fun above below es => .down above b b' below es p

lemma applyBatch_eq_ok (hSt : NodeStore.ReadsBack St) {child : NodeId} {batch : Buffer}
    {pins : List NodeId} {thr : ℕ}
    {d : Delivery} {e e' : Engine π St} (h : Engine.applyBatch child batch pins thr e = .ok d e') :
    ∃ e₁ n, Engine.ensureLoaded child pins e = .ok () e₁ ∧ Engine.loaded child e₁ = .ok n e₁ ∧
      Engine.loaded child e' = .ok (n.receive batch) e' ∧
      NodeStore.mutate child (fun n => some (n.receive batch)) e₁.store = .ok
        (n.receive batch) e'.store := by
  unfold Engine.applyBatch at h
  obtain ⟨⟨⟩, e₁, hload, h⟩ := bind_eq_ok h
  obtain ⟨n', e₂, hm, h⟩ := bind_eq_ok h
  obtain rfl : e' = e₂ := by
    cases n' <;> cases h <;> rfl
  obtain ⟨s, hs, rfl⟩ := onStore_eq_ok hm
  obtain ⟨hread, n, hn, hset⟩ := hSt.mutate hs
  cases hset
  exact ⟨e₁, n, hload, Engine.run_onStore hn, Engine.run_onStore (s := s) hread, hs⟩

/-- A pick and the delivery of its batch are one flush between two levels, in whichever engine. -/
lemma pick_delivered [FlushPolicy π] (hSt : NodeStore.ReadsBack St) {parent child : NodeId}
    {depth i thr : ℕ} {mode : Bool}
    {occ : List ℕ} {batch : Buffer} {pins : List NodeId} {d : Delivery} {e e₁ e' : Engine π St}
    (hpick : Engine.pickAndExtract parent depth mode e = .ok (i, child, occ, batch) e₁)
    (happly : Engine.applyBatch child batch pins thr e₁ = .ok d e') :
    ∃ ps cs b rest e₂ n, Engine.loaded parent e = .ok (.internal ps cs b) e ∧ cs[i]? = some child ∧
      Engine.loaded parent e₁ = .ok (.internal ps cs rest) e₁ ∧
      Engine.ensureLoaded child pins e₁ = .ok () e₂ ∧
      Engine.loaded child e₂ = .ok n e₂ ∧ Engine.loaded child e' = .ok (n.receive batch) e' ∧
      Delivered b rest n (n.receive batch) := by
  obtain ⟨ps, cs, b, rest, hb, hrest, -, -, hc, hx, -⟩ := pickAndExtract_eq_ok hSt hpick
  obtain ⟨e₂, n, hload, hn, hn', -⟩ := applyBatch_eq_ok hSt happly
  obtain ⟨p, rfl, rfl⟩ := extract_filter hx
  exact ⟨ps, cs, b, _, e₂, n, hb, hc, hrest, hload, hn, hn', Delivered.filter b p n⟩

end Walk

/-- The nodes on the path of a key, each with its buffer, and the leaf at the end. -/
inductive PathTo (node : NodeId → Option Node) (key : Key) :
    NodeId → List (NodeId × Buffer) → Entries → Prop
  | leaf {id : NodeId} {es : Entries} : node id = some (.leaf es) → PathTo node key id [] es
  | internal {id c : NodeId} {ps : List Key} {cs : List NodeId} {b : Buffer}
    {path : List (NodeId × Buffer)} {es : Entries} :
      node id = some (.internal ps cs b) → cs[route ps key]? = some c → PathTo node key c path es →
      PathTo node key id ((id, b) :: path) es

namespace PathTo
variable {node node' : NodeId → Option Node} {key : Key} {id parent child r : NodeId}
    {path path' : List (NodeId × Buffer)}
  {es es' : Entries} {ps : List Key} {cs : List NodeId} {b rest : Buffer}

lemma unique (h : PathTo node key id path es) (h' : PathTo node key id path' es') :
    path' = path ∧ es' = es := by
  induction h generalizing path' es' with
  | leaf hn =>
    cases h' with
    | leaf hn' =>
      rw [hn] at hn'
      cases hn'
      exact ⟨rfl, rfl⟩
    | internal hn' =>
      rw [hn] at hn'
      cases hn'
  | internal hn hc _ ih =>
    cases h' with
    | leaf hn' =>
      rw [hn] at hn'
      cases hn'
    | internal hn' hc' h' =>
      rw [hn] at hn'
      cases hn'
      rw [hc] at hc'
      cases hc'
      obtain ⟨rfl, rfl⟩ := ih h'
      exact ⟨rfl, rfl⟩

/-- The path of a key meets no node twice, as it would never end. -/
lemma ne_of_length {id' : NodeId} (h : PathTo node key id path es)
    (h' : PathTo node key id' path' es')
    (hlen : path'.length ≠ path.length) : id' ≠ id := by
  rintro rfl
  exact hlen (congrArg List.length (h.unique h').1)

lemma congr (h : PathTo node key id path es)
    (hsame : ∀ j q es', PathTo node key j q es' → q.length ≤ path.length → node' j = node j) :
    PathTo node' key id path es := by
  induction h with
  | leaf hn => exact .leaf ((hsame _ _ _ (.leaf hn) le_rfl).trans hn)
  | internal hn hc h ih =>
    refine .internal ((hsame _ _ _ (.internal hn hc h) le_rfl).trans hn) hc
      (ih fun j q es' hq hlen => hsame j q es' hq ?_)
    exact hlen.trans (Nat.le_succ _)

lemma drop {above below : List (NodeId × Buffer)}
    (h : PathTo node key r (above ++ (parent, b) :: below) es) :
    PathTo node key parent ((parent, b) :: below) es := by
  induction above generalizing r with
  | nil =>
    cases h with
    | internal hn hc h => exact .internal hn hc h
  | cons x above ih =>
    cases h with
    | internal _ _ h => exact ih h

lemma child_path {path : List (NodeId × Buffer)}
    (h : PathTo node key parent ((parent, b) :: path) es)
    (hparent : node parent = some (.internal ps cs b)) (hc : cs[route ps key]? = some child) :
    PathTo node key child path es := by
  cases h with
  | internal hn hc' h =>
    rw [hparent] at hn
    cases hn
    rw [hc] at hc'
    cases hc'
    exact h

/-- On the path of a key, part of the messages of a node were delivered to its child. -/
lemma delivered {above below : List (NodeId × Buffer)}
    (h : PathTo node key r (above ++ (parent, b) :: below) es)
    (hparent : node parent = some (.internal ps cs b))
    (hc : cs[route ps key]? = some child) {n n' : Node}
    (hchild : node child = some n) (hd : Delivered b rest n n')
    (hparent' : node' parent = some (.internal ps cs rest))
    (hchild' : node' child = some n')
    (hothers : ∀ j, j ≠ parent → j ≠ child → node' j = node j) :
    ∃ below' es', PathTo node' key r (above ++ (parent, rest) :: below') es' ∧
      Flushes ((above ++ (parent, b) :: below).map Prod.snd, es)
      ((above ++ (parent, rest) :: below').map Prod.snd, es') := by
  have hdrop := h.drop
  have hbelow := hdrop.child_path hparent hc
  -- a node whose path has another length is neither of the two
  have hkept : ∀ j q es', PathTo node key j q es' → q.length ≠ below.length →
    q.length ≠ below.length + 1 → node' j = node j :=
    fun j q es' hq h₁ h₂ => hothers j (hdrop.ne_of_length hq (by simpa using h₂))
      (hbelow.ne_of_length hq h₁)
  have hbase : ∃ below' es', PathTo node' key child below' es' ∧
      ∀ above : List Buffer, Flushes (above ++ b :: below.map Prod.snd, es)
        (above ++ rest :: below'.map Prod.snd, es') := by
    cases hbelow with
    | leaf hn =>
      rw [hn] at hchild
      cases hchild
      cases hd with
      | leaf hd => exact ⟨[], _, .leaf hchild', hd⟩
    | @internal _ c' ps' cs' b' below _ hn hc' hbelow =>
      rw [hn] at hchild
      cases hchild
      cases hd with
      | internal hd =>
        refine ⟨_, es,
          .internal hchild' hc' (hbelow.congr fun j q es' hq hlen => hkept j q es' hq ?_ ?_),
          fun above => hd _ _ _⟩
        · simp only [List.length_cons]
          omega
        · simp only [List.length_cons]
          omega
  obtain ⟨below', es', hpath', hflush⟩ := hbase
  refine ⟨below', es', ?_, by simpa using hflush (above.map Prod.snd)⟩
  clear hdrop
  induction above generalizing r with
  | nil =>
    cases h with
    | internal => exact .internal hparent' hc hpath'
  | cons x above ih =>
    cases h with
    | internal hn hc₀ h =>
      refine .internal ((hkept _ _ _ (.internal hn hc₀ h) ?_ ?_).trans hn) hc₀ (ih h)
      · simp
        omega
      · simp
        omega

end PathTo

section Memory
variable {π : Type} {b b' b₁ : BeTree π} {key : Key} {id : NodeId}
    {path : List (NodeId × Buffer)} {es : Entries}

lemma BeTree.loaded_node {n : Node} (h : b.source.node id = some n) :
    Engine.loaded id b = .ok n b :=
  Engine.run_onStore (s := b.store)
    (by simp only [NodeStore.loaded, show b.store.nodes[id]? = some n from h])

lemma PathTo.meets (h : PathTo b.source.node key id path es) :
    Meets key b id (path.map Prod.snd) es := by
  induction h with
  | leaf hn => exact .leaf rfl (BeTree.loaded_node hn)
  | internal hn hc _ ih => exact .internal rfl (BeTree.loaded_node hn) hc ih

/-- A key has a path in every tree, and the messages on it, settled in turn, come to what the tree
resolves the key to. -/
lemma NodeSource.Draws.pathTo {α : ℕ → Type} {src : NodeSource} {h : ℕ} {T : Tree α h}
    {lo hi : Option Key} {prm : Params}
    (hd : src.Draws id T) (hv : T.Valid lo hi) (hr : T.RootRest prm) (hk : InRange lo hi key) :
    ∃ path es, PathTo src.node key id path es ∧
      T.resolve key = settlePath (messagesFor key (path.map Prod.snd)) (leafValue key es) := by
  induction h generalizing id lo hi with
  | zero =>
    induction T using Tree.zeroCases with
    | h a es => exact ⟨[], es, .leaf (NodeSource.draws_leaf.mp hd), rfl⟩
  | succ h ih =>
    induction T using Tree.succCases with
    | hn a ps xs b =>
      obtain ⟨cs, hn, hcs⟩ := NodeSource.draws_node.mp hd
      obtain ⟨-, -, hkids⟩ := (Tree.valid_node a).mp hv
      obtain ⟨-, hpos, -, hrest⟩ := Tree.rest_node.mp hr
      have hK := hkids.resolve_left fun h0 => by simp [h0.1] at hpos
      obtain ⟨x, hx, lo', hi', hat, hvx, hkx⟩ := hK.childAt hk
      rw [← getElem?_route hK.sorted hK.length] at hat
      obtain ⟨c, hc⟩ : ∃ c, cs[route ps key]? = some c :=
        ⟨_, List.getElem?_eq_getElem (hcs.length_eq ▸ (List.getElem?_eq_some_iff.mp hat).1)⟩
      obtain ⟨x', hx', hdx⟩ := drawn_child hcs hc
      rw [hat] at hx'
      cases hx'
      obtain ⟨path, es, hpath, hres⟩ := ih hdx hvx (hrest x hx).rootRest hkx
      refine ⟨(id, b) :: path, es, .internal hn hc hpath, ?_⟩
      rw [Tree.resolve_node, ← getElem?_route hK.sorted hK.length, hat]
      change _ = (b.get? key).elim _ _
      rw [Option.bind_some, hres]
      cases b.get? key <;> rfl

lemma Arena.mutate_eq_ok {f : Node → Option Node} {n : Node} {a a' : Arena}
    (h : NodeStore.mutate id f a = .ok n a') :
    ∃ n₀, a.nodes[id]? = some n₀ ∧ f n₀ = some n ∧ a'.nodes = a.nodes.set id n := by
  simp only [NodeStore.mutate] at h
  split at h
  · cases h
  · rename_i n₀ hn₀
    split at h
    · cases h
    · cases h
      exact ⟨n₀, hn₀, by assumption, rfl⟩

variable [FlushPolicy π]

/-- A pick and the delivery of its batch are a flush on the path of every key that is routed with
the batch. -/
lemma PathTo.flushed {parent child r : NodeId} {depth thr : ℕ} {mode : Bool} {occ : List ℕ}
    {batch : Buffer}
    {pins : List NodeId} {d : Delivery} {ps : List Key} {cs : List NodeId} {buffer : Buffer}
    {above below : List (NodeId × Buffer)}
    (h : PathTo b.source.node key r (above ++ (parent, buffer) :: below) es)
    (hparent : b.source.node parent = some (.internal ps cs buffer))
    (hpick : Engine.pickAndExtract parent depth mode b = .ok (route ps key, child, occ, batch) b₁)
    (happly : Engine.applyBatch child batch pins thr b₁ = .ok d b') :
    ∃ rest below' es', PathTo b'.source.node key r (above ++ (parent, rest) :: below') es' ∧
      Flushes ((above ++ (parent, buffer) :: below).map Prod.snd, es)
      ((above ++ (parent, rest) :: below').map Prod.snd, es') := by
  obtain ⟨ps₁, cs₁, buffer₁, rest, hb, -, -, -, hc, hx, n, hm⟩ :=
    pickAndExtract_eq_ok Arena.readsBack hpick
  rw [BeTree.loaded_node hparent] at hb
  cases hb
  obtain ⟨p, rfl, rfl⟩ := extract_filter hx
  obtain ⟨n₀, hn₀, hset, hnodes₁⟩ := Arena.mutate_eq_ok hm
  have hparent' : b.store.nodes[parent]? = some (.internal ps cs buffer) := hparent
  rw [hparent'] at hn₀
  cases hn₀
  cases hset
  obtain ⟨b₂, nc, hload, hnc, -, hm'⟩ := applyBatch_eq_ok Arena.readsBack happly
  cases hload
  obtain ⟨n₁, hn₁, hset', hnodes'⟩ := Arena.mutate_eq_ok hm'
  obtain ⟨s, hs, -⟩ := onStore_eq_ok hnc
  simp only [NodeStore.loaded, hn₁] at hs
  cases hs
  have hne : child ≠ parent := h.drop.ne_of_length (h.drop.child_path hparent hc) (by simp)
  have hlt : parent < b.store.nodes.length := (List.getElem?_eq_some_iff.mp hparent').1
  have hchild : b.source.node child = some nc := by
    rw [hnodes₁, List.getElem?_set_ne hne.symm] at hn₁
    exact hn₁
  refine ⟨_, h.delivered hparent hc hchild (Delivered.filter buffer p nc) ?_ ?_ fun j hj hj' => ?_⟩
  · change b'.store.nodes[parent]? = _
    rw [hnodes', List.getElem?_set_ne hne, hnodes₁, List.getElem?_set_self hlt]
  · change b'.store.nodes[child]? = _
    rw [hnodes', List.getElem?_set_self (List.getElem?_eq_some_iff.mp hn₁).1]
  · change b'.store.nodes[j]? = b.store.nodes[j]?
    rw [hnodes', List.getElem?_set_ne hj'.symm, hnodes₁, List.getElem?_set_ne hj.symm]

/-- What the reads of a key come to, over the messages on its path and the leaf at its end. -/
structure BeTree.ReadsAlong (b : BeTree π) (key : Key) (path : List (NodeId × Buffer))
    (es : Entries) : Prop where
  /-- The sum walk of a point read. -/
  get : ∃ N, ∀ fuel ≥ N, ∃ b', Engine.step fuel (.get key) b =
    .ok (.value (chainWalk none (messagesFor key (path.map Prod.snd)) (leafValue key es))) b'
  /-- The upward fold of a scan, from the leaf's entry. -/
  scan : ∀ lo hi, inBounds lo hi key → ∃ m : OrdMap Key Value,
    (∃ N, ∀ fuel ≥ N, ∃ b', Engine.step fuel (.scan lo hi) b = .ok (.listing m.toList) b') ∧
      ∀ acc : OrdMap Key Value, acc.get? key = leafValue key es →
        m.get? key = (scanFold key (messagesFor key (path.map Prod.snd)) acc).get? key

lemma BeTree.Reachable.readsAlong (hb : b.Reachable) (key : Key) :
    ∃ path es, PathTo b.source.node key b.root path es ∧ b.ReadsAlong key path es := by
  obtain ⟨hπ, e, h, t, ht, hal⟩ := hb.holds
  have hsame : Resembles Renaming.same.rel Eq Eq (Arena.Models .same) e b := hal
  have hdraws : b.source.Draws b.root (Live.plain t) :=
    hsame.store.draws ht.stored (ht.root ▸ hsame.root)
  obtain ⟨path, es, hpath, hres⟩ := hdraws.pathTo ht.valid ht.rest (inRange_none key)
  refine ⟨path, es, hpath, ?_, fun lo hi hk => ?_⟩
  · obtain ⟨reply, _, _, _, b', N, hst, -, hrun⟩ := step_returns hπ ht hal (.get key) trivial
    obtain rfl : reply = .value ((Live.plain t).resolve key) := hst.answers
    refine ⟨N, fun fuel hf => ⟨b', ?_⟩⟩
    rw [hrun fuel hf, hres, chainWalk_eq]
    rfl
  · obtain ⟨reply, _, _, _, b', N, hst, -, hrun⟩ := step_returns hπ ht hal (.scan lo hi) trivial
    obtain ⟨m, hm, rfl⟩ := hst.answers
    refine ⟨m, ⟨N, fun fuel hf => ⟨b', hrun fuel hf⟩⟩, fun acc hacc => ?_⟩
    rw [hm key, if_pos hk, get?_scanFold, hacc]
    exact hres

end Memory

/-- Coalescing composes the messages' actions under the newer number and is associative. A point
read's sum walk over the messages on a key's path, the fold of a scan over them and their delivery,
batch by batch, come to the same. -/
theorem message_algebra {π St : Type} [FlushPolicy π] [NodeStore St]
    (hSt : NodeStore.ReadsBack St) :
    (∀ new old : Message, old.seq < new.seq →
      (∀ x, (new.coalesce old).act x = new.act (old.act x)) ∧ (new.coalesce old).seq = new.seq) ∧
    (∀ a b c : Message, a.seq < b.seq → b.seq < c.seq →
      c.coalesce (b.coalesce a) = (c.coalesce b).coalesce a) ∧
    (∀ (key : Key) (path : List (Option Message)) (acc : OrdMap Key Value),
      (scanFold key path acc).get? key = chainWalk none path (acc.get? key)) ∧
    (∀ (key : Key) (e : Engine π St) (id : NodeId) (levels : List Buffer) (es : Entries), Meets key
      e id levels es →
      ∀ n > levels.length, ∃ e', Engine.getLoop key n none id e =
        .ok (chainWalk none (messagesFor key levels) (leafValue key es)) e') ∧
    (∀ b : BeTree π, b.Reachable → ∀ key, ∃ path es, PathTo b.source.node key b.root path es ∧
      b.ReadsAlong key path es) ∧
    (∀ (parent child : NodeId) (depth i thr : ℕ) (mode : Bool) (occ : List ℕ) (batch : Buffer)
      (pins : List NodeId) (d : Delivery)
      (e e₁ e' : Engine π St), Engine.pickAndExtract parent depth mode e = .ok (i, child,
        occ, batch) e₁ →
      Engine.applyBatch child batch pins thr e₁ = .ok d e' →
      ∃ ps cs b rest e₂ n, Engine.loaded parent e = .ok (.internal ps cs b) e ∧
      cs[i]? = some child ∧
        Engine.loaded parent e₁ = .ok (.internal ps cs rest) e₁ ∧
        Engine.ensureLoaded child pins e₁ = .ok () e₂ ∧
        Engine.loaded child e₂ = .ok n e₂ ∧ Engine.loaded child e' = .ok (n.receive batch) e' ∧
        Delivered b rest n (n.receive batch)) ∧
    (∀ (b b₁ b' : BeTree π) (key : Key) (r parent child : NodeId)
      (above below : List (NodeId × Buffer)) (es : Entries)
      (ps : List Key) (cs : List NodeId) (buffer batch : Buffer) (depth thr : ℕ)
      (mode : Bool) (occ : List ℕ)
      (pins : List NodeId) (d : Delivery),
      PathTo b.source.node key r (above ++ (parent, buffer) :: below) es →
      b.source.node parent = some (.internal ps cs buffer) →
      Engine.pickAndExtract parent depth mode b = .ok (route ps key, child, occ, batch) b₁ →
      Engine.applyBatch child batch pins thr b₁ = .ok d b' →
      ∃ rest below' es', PathTo b'.source.node key r (above ++ (parent, rest) :: below') es' ∧
        Flushes ((above ++ (parent, buffer) :: below).map Prod.snd, es)
          ((above ++ (parent, rest) :: below').map Prod.snd, es')) ∧
    ∀ (key : Key) (levels levels' : List Buffer) (es es' : Entries),
      Relation.ReflTransGen Flushes (levels, es) (levels', es') →
      chainWalk none (messagesFor key levels')
      (leafValue key es') = chainWalk none (messagesFor key levels) (leafValue key es) ∧
        ((∀ b ∈ levels', b.get? key = none) →
          leafValue key es' = chainWalk none (messagesFor key levels) (leafValue key es)) := by
  refine ⟨fun new old _ => ⟨new.act_coalesce old, new.seq_coalesce old⟩,
    fun a b c _ _ => Message.coalesce_assoc a b c,
    fun key path acc => ?_, fun key e id levels es h n hn => h.getLoop none hn, fun b hb key =>
      hb.readsAlong key,
    fun parent child depth i thr mode occ batch pins d e e₁ e' hpick happly =>
      pick_delivered hSt hpick happly,
    fun b b₁ b' key r parent child above below es ps cs buffer batch depth thr mode occ pins d h
      hparent hpick happly =>
      h.flushed hparent hpick happly,
    fun key levels levels' es es' hrun => ?_⟩
  · rw [get?_scanFold, chainWalk_eq]
    rfl
  · have hsettle := settle_of_flushes hrun key
    rw [chainWalk_eq, chainWalk_eq, hsettle]
    refine ⟨rfl, fun hdone => ?_⟩
    have hnone : ∀ m ∈ messagesFor key levels', m = none := by simpa [messagesFor] using hdone
    rw [← settlePath_absent hnone (leafValue key es'), hsettle]
    rfl

/-- One key with an addition in the root, a put below it and an entry in its leaf. -/
def BeTree.layered : BeTree GreedyFullest where
  params := ⟨1, 2, 2⟩
  store := ⟨[.internal [[5]] [1, 2] (OrdMap.ofList [([3], .upsert 3 (.add 2))]),
    .internal [] [3] (OrdMap.ofList [([3], .put 2 [7])]), .internal [] [4] OrdMap.empty,
    .leaf (OrdMap.ofList [([3], ⟨1, [9]⟩)]), .leaf OrdMap.empty], List.replicate 5 false⟩
  root := 0
  nextSeq := 4
  opsSinceCommit := 3
  policy := ⟨⟩
  trace := .new

/-- The read of a key through two levels, the flush of the upper one, and the paths of a worn
tree. -/
theorem message_algebra_layered :
    (∃ b', Engine.getLoop [3] 3 none 0 BeTree.layered =
      .ok (chainWalk none [some (.upsert 3 (.add 2)), some (.put 2 [7])] (some [9])) b') ∧
    (∃ (b b' : BeTree GreedyFullest) (d : Delivery) (rest : Buffer)
      (below : List (NodeId × Buffer)) (es : Entries),
      Engine.pickAndExtract 0 0 false BeTree.layered = .ok (0, 1, [1, 0],
        OrdMap.ofList [([3], .upsert 3 (.add 2))]) b ∧
      Engine.applyBatch 1 (OrdMap.ofList [([3], .upsert 3 (.add 2))]) [0] 1 b = .ok d b' ∧
      PathTo b'.source.node [3] 0 ((0, rest) :: below) es ∧
      chainWalk none (messagesFor [3] (rest :: below.map Prod.snd)) (leafValue [3] es) =
        chainWalk none [some (.upsert 3 (.add 2)), some (.put 2 [7])] (some [9])) ∧
    ∀ key, ∃ path es, PathTo BeTree.churned.source.node key BeTree.churned.root path es ∧
    BeTree.churned.ReadsAlong key path es := by
  obtain ⟨-, -, -, hget, hreads, -, hflush, hruns⟩ :=
    message_algebra (π := GreedyFullest) Arena.readsBack
  have hpath :
    PathTo BeTree.layered.source.node [3] 0 [(0, OrdMap.ofList [([3], .upsert 3 (.add 2))]),
      (1, OrdMap.ofList [([3], .put 2 [7])])] (OrdMap.ofList [([3], ⟨1, [9]⟩)]) :=
    .internal rfl (by decide : [1, 2][route [[5]] [3]]? = some 1)
      (.internal rfl (by decide : [3][route [] [3]]? = some 3) (.leaf rfl))
  refine ⟨hget [3] _ 0 _ _ hpath.meets 3 (by decide), ?_, hreads _ BeTree.reachable_churned⟩
  have hpick : Engine.pickAndExtract 0 0 false BeTree.layered = .ok (0, 1, [1, 0],
    OrdMap.ofList [([3], .upsert 3 (.add 2))])
    (finalState (Engine.pickAndExtract 0 0 false BeTree.layered)) := rfl
  have happly : Engine.applyBatch 1 (OrdMap.ofList [([3], .upsert 3 (.add 2))]) [0] 1
    (finalState (Engine.pickAndExtract 0 0 false BeTree.layered)) = .ok (.internal false)
      (finalState (Engine.applyBatch 1
      (OrdMap.ofList [([3], .upsert 3 (.add 2))])
        [0] 1 (finalState (Engine.pickAndExtract 0 0 false BeTree.layered)))) := rfl
  obtain ⟨rest, below, es, hpath', hstep⟩ := hflush _ _ _ [3] 0 0 1 [] _ _ [[5]]
    [1, 2] _ _ 0 1 false _ [0] _ hpath rfl hpick happly
  exact ⟨_, _, _, rest, below, es, hpick, happly, hpath', (hruns [3] _ _ _ _ (.single hstep)).1⟩

end Beetree
