import Beetree.Cache
import Beetree.Ownership
import Beetree.Reach

/-! Splitting loses and misroutes nothing. -/
namespace Beetree

lemma OrdMap.toList_cut {κ ν : Type} [LinearOrder κ] (m : OrdMap κ ν) {p : κ} {f g : κ → Bool}
    (hf : ∀ k, f k = true ↔ k < p) (hg : ∀ k, g k = true ↔ p ≤ k) :
    (m.filter f).toList ++ (m.filter g).toList = m.toList := by
  obtain ⟨l, hl⟩ := m
  change l.filter (fun x => f x.1) ++ l.filter (fun x => g x.1) = l
  induction l with
  | nil => rfl
  | cons x l ih =>
    obtain ⟨hx, hl⟩ := List.pairwise_cons.mp hl
    by_cases h : x.1 < p
    · have hf' : f x.1 = true := (hf _).mpr h
      have hg' : g x.1 = false := Bool.eq_false_iff.mpr fun h' => not_le.mpr h ((hg _).mp h')
      simp only [List.filter_cons, hf', hg', if_true, Bool.false_eq_true, if_false,
        List.cons_append, ih hl]
    · have hge : ∀ y ∈ x :: l, p ≤ y.1 := by
        intro y hy
        rcases List.mem_cons.mp hy with rfl | hy
        · exact not_lt.mp h
        · exact (not_lt.mp h).trans (hx y hy).le
      rw [List.filter_eq_nil_iff.mpr fun y hy h' => not_lt.mpr (hge y hy) ((hf _).mp h'),
        List.filter_eq_self.mpr fun y hy => (hg _).mpr (hge y hy), List.nil_append]

lemma route_cons {p : Key} {ps : List Key} (hp : ∀ q ∈ ps, p < q)
    (hs : ps.Pairwise (· < ·)) (k : Key) :
    route (p :: ps) k = if k < p then 0 else route ps k + 1 := by
  obtain ⟨ps₁, ps₂, rfl, ho⟩ := exists_owns hs k
  split_ifs with h
  · have hfirst : owns [] (p :: (ps₁ ++ ps₂)) k := by
      refine ⟨by simp, fun q hq => ?_⟩
      rcases List.mem_cons.mp hq with rfl | hq
      · exact h
      · exact h.trans (hp q hq)
    exact route_of_owns hfirst
  · have hnext : owns (p :: ps₁) ps₂ k := by
      refine ⟨fun q hq => ?_, ho.2⟩
      rcases List.mem_cons.mp hq with rfl | hq
      · exact not_lt.mp h
      · exact ho.1 q hq
    rw [route_of_owns ho]
    exact route_of_owns hnext

/-- Keys of the child between two runs of pivots are routed among the pivots put between them. -/
lemma route_between {ps₁ ps ps₂ : List Key} (hs : ps.Pairwise (· < ·)) {k : Key}
    (hk : owns ps₁ ps₂ k) :
    route (ps₁ ++ ps ++ ps₂) k = ps₁.length + route ps k := by
  obtain ⟨qs₁, qs₂, rfl, ho⟩ := exists_owns hs k
  have hown : owns (ps₁ ++ qs₁) (qs₂ ++ ps₂) k :=
    ⟨fun q hq => (List.mem_append.mp hq).elim (hk.1 q) (ho.1 q),
      fun q hq => (List.mem_append.mp hq).elim (ho.2 q) (hk.2 q)⟩
  have := route_of_owns hown
  rw [route_of_owns ho, ← List.length_append, ← this]
  simp

namespace Node

def pivots : Node → List Key
  | internal ps _ _ => ps
  | leaf _ => []

def buffer : Node → Buffer
  | internal _ _ b => b
  | leaf _ => OrdMap.empty

def entries : Node → Entries
  | internal .. => OrdMap.empty
  | leaf es => es

/-- A node cut in two at a separator. A leaf's separator is the first key of the right part, a pivot
belongs to neither part. -/
inductive Cut (p : Key) : Node → Node → Node → Prop
  | leaf {es : Entries} (hl : 0 < (es.filter fun k => k < p).size) (hp : (es.get? p).isSome) :
      Cut p (.leaf es) (.leaf (es.filter fun k => k < p)) (.leaf (es.filter fun k => p ≤ k))
  | internal {ps₁ ps₂ : List Key} {cs₁ cs₂ : List NodeId} (b : Buffer)
    (hl : cs₁.length = ps₁.length + 1) :
      Cut p (.internal (ps₁ ++ p :: ps₂) (cs₁ ++ cs₂) b)
      (.internal ps₁ cs₁ (b.filter fun k => k < p))
        (.internal ps₂ cs₂ (b.filter fun k => p ≤ k))

/-- The pieces of a node, peeled off from the left. -/
inductive Pieces : Node → List Key → List Node → Prop
  | one (n : Node) : Pieces n [] [n]
  | cut {p : Key} {n l r : Node} {ps : List Key} {ns : List Node} :
      Cut p n l r → Pieces r ps ns → Pieces n (p :: ps) (l :: ns)

/-- Everything in a node belongs to the child between two runs of pivots of its parent, and each of
its own children has some key to own, so its pivots lie strictly inside. The checker lets a pivot be
the lower bound itself, which leaves a child without keys; no split makes one. -/
def Ranged (ps₁ ps₂ : List Key) : Node → Prop
  | leaf es => ∀ k, (es.get? k).isSome → owns ps₁ ps₂ k
  | internal ps cs b => ps.Pairwise (· < ·) ∧ cs.length = ps.length + 1 ∧
      (∀ p ∈ ps, (∀ q ∈ ps₁, q < p) ∧ ∀ q ∈ ps₂, p < q) ∧ ∀ k, (b.get? k).isSome → owns ps₁ ps₂ k

/-- A leaf of one to `L` entries, or a node of one to `F` children. -/
def Fits (prm : Params) : Node → Prop
  | leaf es => 0 < es.size ∧ es.size ≤ prm.leafCapacity.toNat
  | internal ps cs _ => 0 < cs.length ∧ cs.length ≤ prm.fanout.toNat ∧ cs.length = ps.length + 1

/-- More entries or more children than a node may have. -/
def Overfull (prm : Params) : Node → Prop
  | leaf es => prm.leafCapacity.toNat < es.size
  | internal _ cs _ => prm.fanout.toNat < cs.length

section Cut
variable {p : Key} {n l r : Node} {ps₁ ps₂ : List Key}

lemma Cut.ranged (hc : Cut p n l r) (hn : n.Ranged ps₁ ps₂) :
    (∀ q ∈ ps₁, q < p) ∧ (∀ q ∈ ps₂, p < q) ∧ r.Ranged (ps₁ ++ [p]) ps₂ := by
  cases hc with
  | @leaf es hl hp =>
    obtain ⟨k, e, hk⟩ := OrdMap.size_pos_iff.mp hl
    have hkp : k < p ∧ es.get? k = some e := by
      rw [OrdMap.get?_filter] at hk
      by_cases h : k < p
      · simpa [h] using hk
      · simp [h] at hk
    refine ⟨fun q hq => ((hn k (by simp [hkp.2])).1 q hq).trans_lt hkp.1, (hn p hp).2,
      fun k' hk' => ?_⟩
    rw [OrdMap.get?_filter] at hk'
    by_cases h : p ≤ k'
    · obtain ⟨h₁, h₂⟩ := hn k' (by simpa [h] using hk')
      refine ⟨fun q hq => ?_, h₂⟩
      rcases List.mem_append.mp hq with hq | hq
      · exact h₁ q hq
      · rw [List.mem_singleton.mp hq]
        exact h
    · simp [h] at hk'
  | @internal qs₁ qs₂ cs₁ cs₂ b hl =>
    obtain ⟨hs, hlen, hin, hb⟩ := hn
    have hp := hin p (by simp)
    refine ⟨hp.1, hp.2, ?_, ?_, fun q hq => ⟨fun q' hq' => ?_, (hin q (by simp [hq])).2⟩,
      fun k hk => ?_⟩
    · exact (List.pairwise_cons.mp (List.pairwise_append.mp hs).2.1).2
    · simp only [List.length_append, List.length_cons] at hlen
      omega
    · rcases List.mem_append.mp hq' with hq' | hq'
      · exact (hin q (by simp [hq])).1 q' hq'
      · rw [List.mem_singleton.mp hq']
        exact (List.pairwise_cons.mp (List.pairwise_append.mp hs).2.1).1 q hq
    · rw [OrdMap.get?_filter] at hk
      by_cases h : p ≤ k
      · obtain ⟨h₁, h₂⟩ := hb k (by simpa [h] using hk)
        refine ⟨fun q hq => ?_, h₂⟩
        rcases List.mem_append.mp hq with hq | hq
        · exact h₁ q hq
        · rw [List.mem_singleton.mp hq]
          exact h
      · simp [h] at hk

lemma Cut.pivots_left (hc : Cut p n l r) (hn : n.Ranged ps₁ ps₂) :
    ∀ q ∈ l.pivots, q < p ∧ q ∈ n.pivots := by
  cases hc with
  | leaf => simp [Node.pivots]
  | internal b hl =>
    intro q hq
    exact ⟨(List.pairwise_append.mp hn.1).2.2 q hq p (by simp), List.mem_append_left _ hq⟩

lemma Cut.pivots_right (hc : Cut p n l r) (hn : n.Ranged ps₁ ps₂) :
    ∀ q ∈ r.pivots, p < q ∧ q ∈ n.pivots := by
  cases hc with
  | leaf => simp [Node.pivots]
  | internal b hl =>
    intro q hq
    exact ⟨(List.pairwise_cons.mp (List.pairwise_append.mp hn.1).2.1).1 q hq,
      List.mem_append_right _ (List.mem_cons_of_mem _ hq)⟩

end Cut

section Pieces
variable {n : Node} {ps : List Key} {ns : List Node} {ps₁ ps₂ : List Key}

lemma Pieces.length (h : Pieces n ps ns) : ns.length = ps.length + 1 := by
  induction h with
  | one n => rfl
  | cut _ _ ih => simp [ih]

lemma Pieces.between (h : Pieces n ps ns) (hn : n.Ranged ps₁ ps₂) :
    ps.Pairwise (· < ·) ∧ ∀ p ∈ ps, (∀ q ∈ ps₁, q < p) ∧ ∀ q ∈ ps₂, p < q := by
  induction h generalizing ps₁ with
  | one n => simp
  | @cut p n l r ps ns hc _ ih =>
    obtain ⟨hlow, hhigh, hr⟩ := hc.ranged hn
    obtain ⟨hs, hin⟩ := ih hr
    refine ⟨List.pairwise_cons.mpr ⟨fun q hq => (hin q hq).1 p (by simp), hs⟩, fun q hq => ?_⟩
    rcases List.mem_cons.mp hq with rfl | hq
    · exact ⟨hlow, hhigh⟩
    · exact ⟨fun q' hq' => (hin q hq).1 q' (List.mem_append_left _ hq'), (hin q hq).2⟩

lemma Pieces.entries (h : Pieces n ps ns) :
    (ns.flatMap fun m => m.entries.toList) = n.entries.toList := by
  induction h with
  | one n => simp
  | @cut p n l r ps ns hc _ ih =>
    rw [List.flatMap_cons, ih]
    cases hc with
    | @leaf es =>
      exact OrdMap.toList_cut es (fun k => decide_eq_true_iff) fun k => decide_eq_true_iff
    | internal => rfl

lemma Pieces.children (h : Pieces n ps ns) : ns.flatMap Node.children = n.children := by
  induction h with
  | one n => simp
  | cut hc _ ih =>
    rw [List.flatMap_cons, ih]
    cases hc <;> rfl

lemma Pieces.pivots_subset (h : Pieces n ps ns) (hn : n.Ranged ps₁ ps₂) :
    ∀ m ∈ ns, ∀ q ∈ m.pivots, q ∈ n.pivots := by
  induction h generalizing ps₁ with
  | one n => simp
  | @cut p n l r ps ns hc _ ih =>
    intro m hm q hq
    rcases List.mem_cons.mp hm with rfl | hm
    · exact (hc.pivots_left hn q hq).2
    · exact (hc.pivots_right hn q (ih (hc.ranged hn).2.2 m hm q hq)).2

lemma Pieces.promoted (h : Pieces n ps ns) (hn : n.Ranged ps₁ ps₂) :
    ∀ p ∈ ps, ∀ m ∈ ns, p ∉ m.pivots := by
  induction h generalizing ps₁ with
  | one n => simp
  | @cut p n l r ps ns hc hp ih =>
    obtain ⟨-, -, hr⟩ := hc.ranged hn
    intro q hq m hm hqm
    rcases List.mem_cons.mp hm with rfl | hm
    · have hqp := (hc.pivots_left hn q hqm).1
      rcases List.mem_cons.mp hq with rfl | hq
      · exact lt_irrefl _ hqp
      · exact lt_asymm hqp (((hp.between hr).2 q hq).1 p (by simp))
    · rcases List.mem_cons.mp hq with rfl | hq
      · exact lt_irrefl _ (hc.pivots_right hn q (hp.pivots_subset hr m hm q hqm)).1
      · exact ih hr q hq m hm hqm

/-- What is filed under keys goes to the piece the separators route it to. -/
lemma Pieces.get? {ν : Type} {f : Node → OrdMap Key ν} (hf : ∀ {p n l r}, Cut p n l r →
    f l = (f n).filter (fun k => k < p) ∧ f r = (f n).filter fun k => p ≤ k) (h : Pieces n ps ns)
    (hs : ps.Pairwise (· < ·)) {j : ℕ} {m : Node} (hj : ns[j]? = some m) (k : Key) :
    (f m).get? k = if route ps k = j then (f n).get? k else none := by
  induction h generalizing j with
  | one n =>
    have hr : route [] k = 0 := Nat.le_zero.mp (route_le hs k)
    cases j with
    | zero =>
      cases hj
      rw [if_pos hr]
    | succ j => cases hj
  | @cut p n l r ps ns hc hp ih =>
    obtain ⟨hl, hr⟩ := hf hc
    obtain ⟨hlt, hs'⟩ := List.pairwise_cons.mp hs
    rw [route_cons hlt hs' k]
    cases j with
    | zero =>
      cases hj
      rw [hl, OrdMap.get?_filter]
      by_cases h : k < p <;> simp [h]
    | succ j =>
      rw [ih hs' hj, hr, OrdMap.get?_filter]
      by_cases h : k < p
      · simp [h, not_le.mpr h]
      · simp [h, not_lt.mp h]

lemma Cut.buffer {p : Key} {n l r : Node} (hc : Cut p n l r) :
    l.buffer = n.buffer.filter (fun k => k < p) ∧ r.buffer = n.buffer.filter fun k => p ≤ k := by
  cases hc with
  | leaf => exact ⟨rfl, rfl⟩
  | internal => exact ⟨rfl, rfl⟩

lemma Cut.entries {p : Key} {n l r : Node} (hc : Cut p n l r) :
    l.entries = n.entries.filter (fun k => k < p) ∧ r.entries = n.entries.filter
    fun k => p ≤ k := by
  cases hc with
  | leaf => exact ⟨rfl, rfl⟩
  | internal => exact ⟨rfl, rfl⟩

lemma Ranged.owns_buffer {k : Key} (hn : n.Ranged ps₁ ps₂) (hk : (n.buffer.get? k).isSome) :
    owns ps₁ ps₂ k := by
  cases n with
  | leaf es => simp [Node.buffer] at hk
  | internal ps cs b => exact hn.2.2.2 k hk

lemma Ranged.owns_entries {k : Key} (hn : n.Ranged ps₁ ps₂) (hk : (n.entries.get? k).isSome) :
    owns ps₁ ps₂ k := by
  cases n with
  | leaf es => exact hn k hk
  | internal ps cs b => simp [Node.entries] at hk

end Pieces
end Node

lemma Body.Pieces.arity {h : ℕ} {x : Body (h + 1)} {ps : List Key} {xs : List (Body (h + 1))}
    (hp : Body.Pieces x ps xs) (hx : x.kids.length = x.pivots.length + 1) :
    ∀ y ∈ xs, y.kids.length = y.pivots.length + 1 := by
  induction hp with
  | one x => simpa using hx
  | @cut p x l r ps xs hc _ ih =>
    obtain ⟨hps, hcs, hlen, -, -⟩ := hc
    have hr : r.kids.length = r.pivots.length + 1 := by
      have h₁ := congrArg List.length hps
      have h₂ := congrArg List.length hcs
      simp only [List.length_append, List.length_cons] at h₁ h₂
      change x.children.length = _ at hx
      change r.children.length = _
      omega
    intro y hy
    rcases List.mem_cons.mp hy with rfl | hy
    · exact hlen
    · exact ih hr y hy

lemma Body.Cut.toNode {h : ℕ} {p : Key} {x l r : Body h} (hc : Body.Cut p x l r) :
    Node.Cut p x.toNode l.toNode r.toNode := by
  cases h with
  | zero =>
    obtain ⟨rfl, rfl, hpos, hp⟩ := hc
    exact .leaf hpos hp
  | succ h =>
    induction x using Body.succCases with
    | hn ps cs b =>
      induction l using Body.succCases with
      | hn psl csl bl =>
        induction r using Body.succCases with
        | hn psr csr br =>
          obtain ⟨hps, hcs, hlen, hbl, hbr⟩ := hc
          change ps = psl ++ p :: psr at hps
          change cs = csl ++ csr at hcs
          change bl = b.filter (fun k => k < p) at hbl
          change br = b.filter (fun k => p ≤ k) at hbr
          subst hps hcs hbl hbr
          rw [Body.toNode_node, List.map_append]
          exact .internal b ((List.length_map _).trans hlen)

lemma Body.Pieces.toNode {h : ℕ} {x : Body h} {ps : List Key} {xs : List (Body h)}
    (hp : Body.Pieces x ps xs) :
    Node.Pieces x.toNode ps (xs.map Body.toNode) := by
  induction hp with
  | one x => exact .one _
  | cut hc _ ih => exact .cut hc.toNode ih

lemma leafPieces_pieces {prm : Params} (hprm : prm.Legal) {es : Entries} (hes : 0 < es.size) :
    ∃ (ps : List Key) (x : Entries) (xs : List Entries),
      leafPieces (partitionSizes es.size prm.leafCapacity.toNat) es.toList = x :: xs ∧
      ps.length = xs.length ∧
      Node.Pieces (.leaf es) ps ((x :: xs).map Node.leaf) ∧
      xs.mapM (fun piece => piece.toList.head?.map fun x => (x.1, Node.leaf piece)) =
        some (ps.zip (xs.map Node.leaf)) ∧ ∀ m ∈ (x :: xs).map Node.leaf, m.Fits prm := by
  obtain ⟨hsum, hne, hsz⟩ := partitionSizes_spec hprm.2.2 (show 1 ≤ es.size from hes)
  obtain ⟨ps, x, xs, hrun, hlen, hpieces, hmap, hmem⟩ :=
    leafPieces_spec hne (fun s hs => (hsz s hs).1) hsum
  have hp := hpieces.toNode
  rw [List.map_map] at hp
  refine ⟨ps, x, xs, hrun, hlen, hp, hmap, fun m hm => ?_⟩
  obtain ⟨y, hy, rfl⟩ := List.mem_map.mp hm
  exact hsz _ (hmem y hy)

lemma internalPieces_pieces {prm : Params} (hprm : prm.Legal) {ps : List Key}
    {cs : List NodeId} (b : Buffer)
    (hs : ps.Pairwise (· < ·)) (hl : cs.length = ps.length + 1) :
    ∃ (qs : List Key) (n : Node) (ns : List Node),
      internalPieces ps cs b (partitionSizes cs.length prm.fanout.toNat) = some (n, qs.zip ns) ∧
      qs.length = ns.length ∧ Node.Pieces (.internal ps cs b) qs (n :: ns) ∧
      ∀ m ∈ n :: ns, m.Fits prm := by
  have hf : 1 ≤ prm.fanout.toNat := le_trans (by norm_num) hprm.1
  obtain ⟨hsum, hne, hsz⟩ := partitionSizes_spec hf (show 1 ≤ cs.length by omega)
  let kids : List (Live 0) := cs.map fun c => Cell.known c false none (Body.leaf OrdMap.empty)
  have hids : kids.map Cell.id = cs := by
    rw [List.map_map]
    exact List.map_id cs
  have hkids : kids.length = cs.length := List.length_map _
  obtain ⟨qs, x, xs, hlen, hpieces, hrun, hsizes⟩ := internalPieces_spec (b := b) hne
    (fun s hs => (hsz s hs).1) hs (hkids.trans hl) (hsum.trans hkids.symm)
  have hp := hpieces.toNode
  rw [hids] at hrun
  rw [Body.toNode_node, hids] at hp
  refine ⟨qs, x.toNode, xs.map Body.toNode, hrun, by simpa using hlen, hp, fun m hm => ?_⟩
  obtain ⟨y, hy, rfl⟩ := List.mem_map.mp (show m ∈ (x :: xs).map Body.toNode from hm)
  have hy' : y.kids.length ∈ partitionSizes cs.length prm.fanout.toNat :=
    hsizes ▸ List.mem_map_of_mem hy
  have harity : ∀ z ∈ x :: xs, z.kids.length = z.pivots.length + 1 := hpieces.arity (hkids.trans hl)
  have hz := harity y hy
  induction y using Body.succCases with
  | hn ps' cs' b' =>
    refine ⟨?_, ?_, ?_⟩
    · exact lt_of_lt_of_eq (hsz _ hy').1 (List.length_map _).symm
    · exact le_of_eq_of_le (List.length_map _) (hsz _ hy').2
    · exact (List.length_map _).trans hz

/-- A store seen as the nodes it has in memory, whose operations do what they say while it is in
order. -/
structure NodeStore.Serves (St : Type) [NodeStore St] (view : St → NodeId → Option Node)
    (Ready : St → Prop) :
    Prop where
  loaded : ∀ {s : St} {id : NodeId} {n : Node}, view s id = some n → NodeStore.loaded id s = .ok n s
  mutate : ∀ {s : St} {id : NodeId} {n n' : Node} {f : Node → Option Node}, Ready s →
    view s id = some n →
    f n = some n' → ∃ s', NodeStore.mutate id f s = .ok n' s' ∧ Ready s' ∧
      view s' = Function.update (view s) id (some n')
  alloc : ∀ {s : St} (n : Node), Ready s → ∃ id s', NodeStore.alloc n s = .ok id s' ∧ Ready s' ∧
    view s id = none ∧
    view s' = Function.update (view s) id (some n)

lemma Arena.serves : NodeStore.Serves Arena (fun a id => a.nodes[id]?) fun _ => True where
  loaded {s id n} h := by simp only [NodeStore.loaded, h]
  mutate {s id n n' f} _ hn hf := by
    refine ⟨⟨s.nodes.set id n', s.dirty.set id true⟩,
      by simp only [NodeStore.mutate, hn, hf], trivial, ?_⟩
    have hlt : id < s.nodes.length := (List.getElem?_eq_some_iff.mp hn).1
    funext j
    by_cases hj : id = j
    · subst hj
      rw [List.getElem?_set_self hlt, Function.update_self]
    · rw [List.getElem?_set_ne hj, Function.update_of_ne (Ne.symm hj)]
  alloc {s} n _ := by
    refine ⟨s.nodes.length, ⟨s.nodes ++ [n], s.dirty ++ [true]⟩, rfl, trivial, by simp, ?_⟩
    funext j
    by_cases hj : j = s.nodes.length
    · subst hj
      simp
    · rw [Function.update_of_ne hj, List.getElem?_append]
      split_ifs with hlt
      · rfl
      · rw [List.getElem?_eq_none (not_lt.mp hlt)]
        exact List.getElem?_eq_none
          (Nat.sub_pos_of_lt (lt_of_le_of_ne (not_lt.mp hlt) (Ne.symm hj)))

def DiskStore.node {V : Type} (s : DiskStore V) (id : NodeId) : Option Node :=
  match s.slots[id]? with
  | some (.loaded node _ _ _ _) => some node
  | _ => none

lemma DiskStore.node_eq_some {V : Type} {s : DiskStore V} {id : NodeId} {n : Node} :
    s.node id = some n ↔
    ∃ dirty diskOffset bytes tick, s.slots[id]? = some (.loaded n dirty diskOffset bytes tick) := by
  unfold DiskStore.node
  split
  · rename_i n' dirty diskOffset bytes tick hx
    rw [hx]
    constructor
    · intro h
      cases h
      exact ⟨_, _, _, _, rfl⟩
    · rintro ⟨_, _, _, _, h⟩
      cases h
      rfl
  · rename_i hx
    refine iff_of_false nofun ?_
    rintro ⟨_, _, _, _, h⟩
    exact hx _ _ _ _ _ h

lemma DiskStore.Ages.node {V : Type} {s s' : DiskStore V}
    (h : DiskStore.Ages (fun _ => True) s s') :
    s'.node = s.node := by
  funext id
  unfold DiskStore.node
  cases hx : s.slots[id]? with
  | none =>
    have : s'.slots[id]? = none :=
      List.getElem?_eq_none (by rw [h.length]; exact List.getElem?_eq_none_iff.mp hx)
    rw [this]
  | some x =>
    obtain ⟨y, hy, hxy⟩ := h.slots id x hx
    rw [hy]
    cases hxy with
    | loaded => rfl
    | evicted _ _ _ _ hs => exact absurd trivial hs
    | onDisk => rfl
    | freed => rfl

lemma DiskStore.serves {V : Type} [Vfs V] [Crc32Fast] :
    NodeStore.Serves (DiskStore V) DiskStore.node DiskStore.Tidy where
  loaded {s id n} h := by
    obtain ⟨_, _, _, _, hx⟩ := DiskStore.node_eq_some.mp h
    change DiskStore.loaded id s = _
    unfold DiskStore.loaded
    rw [hx]
  mutate {s id n n' f} hs hn hf := by
    obtain ⟨dirty, diskOffset, bytes, tick, hx⟩ := DiskStore.node_eq_some.mp hn
    obtain ⟨hrun, hs'⟩ := DiskStore.loadedMut_run hs hx hf
    refine ⟨_, hrun, hs', ?_⟩
    have hlt : id < s.slots.length := (List.getElem?_eq_some_iff.mp hx).1
    funext j
    by_cases hj : id = j
    · subst hj
      simp [DiskStore.node, DiskStore.changed, hlt]
    · simp only [DiskStore.node, DiskStore.changed, List.getElem?_set_ne hj,
        Function.update_of_ne (Ne.symm hj)]
  alloc {s} n hs := by
    obtain ⟨s', hrun, hs', ha⟩ := DiskStore.allocDirty_run hs n (fun _ => True)
    refine ⟨s.slots.length, s', hrun, hs', by simp [DiskStore.node], ?_⟩
    rw [ha.node]
    funext j
    by_cases hj : j = s.slots.length
    · subst hj
      simp [DiskStore.node, DiskStore.grown]
    · rw [Function.update_of_ne hj]
      simp only [DiskStore.node, DiskStore.grown, List.getElem?_append]
      split_ifs with hlt
      · rfl
      · have hnone :
          ([.loaded n true none (estBytes n) 0] : List NodeSlot)[j - s.slots.length]? = none :=
          List.getElem?_eq_none (Nat.sub_pos_of_lt (lt_of_le_of_ne (not_lt.mp hlt) (Ne.symm hj)))
        rw [List.getElem?_eq_none (not_lt.mp hlt), hnone]

section Split
variable {π St : Type} [NodeStore St] {view : St → NodeId → Option Node} {Ready : St → Prop}
    {e : Engine π St}

lemma allocPieces_serves (hSt : NodeStore.Serves St view Ready) {ps : List Key} {ns : List Node}
    (hl : ps.length = ns.length) (he : Ready e.store) :
    ∃ ids s', Engine.allocPieces (ps.zip ns) e = .ok (ps.zip ids) (e.on s') ∧ Ready s' ∧
    ids.length = ns.length ∧
      List.Forall₂ (fun i n => view s' i = some n) ids ns ∧ ids.Nodup ∧
      (∀ i ∈ ids, view e.store i = none) ∧
      ∀ j, j ∉ ids → view s' j = view e.store j := by
  induction ns generalizing ps e with
  | nil =>
    obtain rfl : ps = [] := by simpa using hl
    exact ⟨[], e.store, rfl, he, rfl, .nil, List.nodup_nil, by simp, fun _ _ => rfl⟩
  | cons n ns ih =>
    cases ps with
    | nil => cases hl
    | cons p ps =>
      obtain ⟨id, s₁, hrun, hs₁, hnone, hview⟩ := hSt.alloc n he
      obtain ⟨ids, s₂, hrun₂, hs₂, hlen, hpieces, hnd, hfresh, hothers⟩ := ih (e := e.on s₁)
        (by simpa using hl) hs₁
      have hid : view s₁ id = some n := by rw [hview, Function.update_self]
      have hnot : id ∉ ids := by
        intro h
        have := hfresh id h
        rw [show view (e.on s₁).store id = _ from hid] at this
        cases this
      have hfresh' : ∀ i ∈ ids, view e.store i = none := by
        intro i hi
        have hne : i ≠ id := fun h => hnot (h ▸ hi)
        have hs := hfresh i hi
        rwa [Engine.on_store, hview, Function.update_of_ne hne] at hs
      refine ⟨id :: ids, s₂, ?_, hs₂, by simp [hlen], .cons ((hothers id hnot).trans hid) hpieces,
        List.nodup_cons.mpr ⟨hnot, hnd⟩, ?_, fun j hj => ?_⟩
      · have hal : Engine.alloc n e = .ok id (e.on s₁) := Engine.run_onStore hrun
        rw [List.zip_cons_cons, Engine.allocPieces, Engine.run_bind hal, Engine.run_bind hrun₂]
        rfl
      · simpa [hnone] using hfresh'
      · rw [List.mem_cons, not_or] at hj
        rw [hothers j hj.2]
        exact (congrFun hview j).trans (Function.update_of_ne hj.1 _ _)

def Engine.splitNode (n : Node) (id : NodeId) : Engine.Act π St (List (Key × NodeId)) :=
  match n with
  | .leaf _ => Engine.splitLeaf id
  | .internal .. => Engine.splitInternal id

lemma splitNode_serves (hSt : NodeStore.Serves St view Ready) (hprm : e.params.Legal)
    (he : Ready e.store) {id : NodeId}
    {n : Node} (hn : view e.store id = some n) (hover : n.Overfull e.params) {ps₁ ps₂ : List Key}
    (hr : n.Ranged ps₁ ps₂) :
    ∃ ps m ms ids s', Engine.splitNode n id e = .ok (ps.zip ids) (e.on s') ∧ Ready s' ∧
    Node.Pieces n ps (m :: ms) ∧
      (∀ x ∈ m :: ms, x.Fits e.params) ∧ ps.length = ids.length ∧
      List.Forall₂ (fun i n => view s' i = some n) (id :: ids) (m :: ms) ∧ (id :: ids).Nodup ∧
      (∀ i ∈ ids, view e.store i = none) ∧ ∀ j, j ∉ id :: ids → view s' j = view e.store j := by
  have hload : Engine.loaded id e = .ok n e := Engine.run_onStore (s := e.store) (hSt.loaded hn)
  have hgo : ∀ (ps : List Key) (m₀ m : Node) (ms : List Node)
    (f g : Node → Option Node), f n = some m₀ → g m₀ = some m →
      ps.length = ms.length → ∃ ids s₁ s₂ s', Engine.mutate id f e = .ok m₀ (e.on s₁) ∧
      Engine.mutate id g (e.on s₁) = .ok m (e.on s₂) ∧
      Engine.allocPieces (ps.zip ms) (e.on s₂) = .ok (ps.zip ids) (e.on s') ∧ Ready s' ∧
        ids.length = ms.length ∧
      List.Forall₂ (fun i n => view s' i = some n) (id :: ids) (m :: ms) ∧ (id :: ids).Nodup ∧
      (∀ i ∈ ids, view e.store i = none) ∧ ∀ j, j ∉ id :: ids → view s' j = view e.store j := by
    intro ps m₀ m ms f g hf hg hlen
    obtain ⟨s₁, hrun₁, hs₁, hv₁⟩ := hSt.mutate he hn hf
    have hid₁ : view s₁ id = some m₀ := by rw [hv₁, Function.update_self]
    obtain ⟨s₂, hrun₂, hs₂, hv₂⟩ := hSt.mutate hs₁ hid₁ hg
    have hid₂ : view s₂ id = some m := by rw [hv₂, Function.update_self]
    have hother : ∀ j, j ≠ id → view s₂ j = view e.store j := by
      intro j hj
      rw [hv₂, Function.update_of_ne hj, hv₁, Function.update_of_ne hj]
    obtain ⟨ids, s', hrun, hs', hids, hpieces, hnd, hfresh, hothers⟩ :=
      allocPieces_serves (e := e.on s₂) hSt hlen hs₂
    have hnot : id ∉ ids := by
      intro h
      have := hfresh id h
      rw [show view (e.on s₂).store id = _ from hid₂] at this
      cases this
    refine ⟨ids, s₁, s₂, s', Engine.run_onStore hrun₁, Engine.run_onStore (e := e.on s₁) hrun₂,
      hrun, hs', hids,
      .cons ((hothers id hnot).trans hid₂) hpieces, List.nodup_cons.mpr ⟨hnot, hnd⟩, fun i hi =>
        ?_, fun j hj => ?_⟩
    · rw [← hother i fun h => hnot (h ▸ hi)]
      exact hfresh i hi
    · rw [List.mem_cons, not_or] at hj
      rw [hothers j hj.2]
      exact hother j hj.1
  cases n with
  | leaf es =>
    have hpos : 0 < es.size := (Nat.zero_le _).trans_lt hover
    obtain ⟨ps, x, xs, hrun, hlen, hpieces, hmap, hfits⟩ := leafPieces_pieces hprm hpos
    obtain ⟨ids, s₁, s₂, s', h₁, h₂, h₃, hs', hids, hrest⟩ := hgo ps (.leaf OrdMap.empty) (.leaf x)
      (xs.map Node.leaf)
      (Node.setEntries OrdMap.empty) (Node.setEntries x) rfl rfl (by simpa using hlen)
    refine ⟨ps, .leaf x, xs.map Node.leaf, ids, s', ?_, hs', hpieces, hfits, ?_, hrest⟩
    · change Engine.splitLeaf id e = _
      unfold Engine.splitLeaf
      rw [Engine.run_bind hload]
      simp only
      rw [Engine.run_bind h₁, Engine.run_bind Engine.run_get,
        show (e.on s₁).params = e.params from rfl]
      simp only [hrun]
      rw [Engine.run_bind h₂]
      simp only [hmap]
      exact h₃
    · rw [hids, List.length_map, hlen]
  | internal ps cs b =>
    obtain ⟨qs, m, ms, hrun, hlen, hpieces, hfits⟩ := internalPieces_pieces hprm b hr.1 hr.2.1
    obtain ⟨ids, s₁, s₂, s', h₁, h₂, h₃, hs', hids, hrest⟩ :=
      hgo qs (.internal [] [] OrdMap.empty) m ms
      (Node.setInternal (.internal [] [] OrdMap.empty)) (Node.setInternal m) rfl rfl hlen
    refine ⟨qs, m, ms, ids, s', ?_, hs', hpieces, hfits, by rw [hids, hlen], hrest⟩
    change Engine.splitInternal id e = _
    unfold Engine.splitInternal
    rw [Engine.run_bind hload]
    simp only
    rw [Engine.run_bind h₁, Engine.run_bind Engine.run_get,
      show (e.on s₁).params = e.params from rfl]
    simp only [hrun]
    rw [Engine.run_bind h₂]
    exact h₃

/-- A child of a node is replaced by its pieces, and nothing else changes: `s` and `s'` are the
nodes before and after. -/
structure Divided (prm : Params) (s s' : NodeId → Option Node) (parent id : NodeId) (n : Node)
    (ps₁ ps₂ : List Key)
    (cs₁ cs₂ : List NodeId) (b : Buffer) (ps : List Key) (ids : List NodeId)
    (ns : List Node) : Prop where
  above : s' parent = some (.internal (ps₁ ++ ps ++ ps₂) (cs₁ ++ id :: ids ++ cs₂) b)
  sorted : (ps₁ ++ ps ++ ps₂).Pairwise (· < ·)
  arity : (cs₁ ++ id :: ids ++ cs₂).length = (ps₁ ++ ps ++ ps₂).length + 1
  pieces : List.Forall₂ (fun i m => s' i = some m) (id :: ids) ns
  fits : ∀ m ∈ ns, m.Fits prm
  entries : (ns.flatMap fun m => m.entries.toList) = n.entries.toList
  children : ns.flatMap Node.children = n.children
  filed : ∀ (j : ℕ) (m : Node), ns[j]? = some m → ∀ k, m.entries.get? k =
    if route (ps₁ ++ ps ++ ps₂) k = cs₁.length + j then n.entries.get? k else none
  buffered : ∀ (j : ℕ) (m : Node), ns[j]? = some m → ∀ k, m.buffer.get? k =
    if route (ps₁ ++ ps ++ ps₂) k = cs₁.length + j then n.buffer.get? k else none
  placed : ∀ k, (n.buffer.get? k).isSome →
    ∃ j < ns.length, route (ps₁ ++ ps ++ ps₂) k = cs₁.length + j
  promoted : ∀ p ∈ ps, ∀ m ∈ ns, p ∉ m.pivots
  distinct : (parent :: id :: ids).Nodup
  fresh : ∀ i ∈ ids, s i = none
  others : ∀ j, j ∉ parent :: id :: ids → s' j = s j

/-- What a node files under a key goes to the piece that the parent's new pivots route the key
to. -/
lemma Node.Pieces.route {ν : Type} {f : Node → OrdMap Key ν} (hf : ∀ {p n l r}, Node.Cut p n l r →
    f l = (f n).filter (fun k => k < p) ∧ f r = (f n).filter fun k => p ≤ k)
    {n : Node} {ps ps₁ ps₂ : List Key} {ns : List Node} (h : Node.Pieces n ps ns) (hs : ps.Pairwise (· < ·))
    (hown : ∀ k, ((f n).get? k).isSome → owns ps₁ ps₂ k) {j : ℕ} {m : Node}
    (hj : ns[j]? = some m) (k : Key) :
    (f m).get? k = if Beetree.route (ps₁ ++ ps ++ ps₂) k = ps₁.length + j then (f n).get?
      k else none := by
  rw [h.get? hf hs hj k]
  cases hk : (f n).get? k with
  | none => simp
  | some x =>
    rw [route_between hs (hown k (by rw [hk]; rfl))]
    simp

lemma splitNode_divided (hSt : NodeStore.Serves St view Ready) (hprm : e.params.Legal)
    (he : Ready e.store)
    {parent id : NodeId} {n : Node} {ps₁ ps₂ : List Key} {cs₁ cs₂ : List NodeId} {b : Buffer}
    (hp : view e.store parent = some (.internal (ps₁ ++ ps₂) (cs₁ ++ id :: cs₂) b))
    (hne : parent ≠ id)
    (hs : (ps₁ ++ ps₂).Pairwise (· < ·)) (hl₁ : ps₁.length = cs₁.length)
    (hl₂ : ps₂.length = cs₂.length)
    (hn : view e.store id = some n) (hover : n.Overfull e.params) (hr : n.Ranged ps₁ ps₂) :
    ∃ ps ids ns e₁ e₂, Engine.splitNode n id e = .ok (ps.zip ids) e₁ ∧ ps.length = ids.length ∧
      Engine.integrateSplits parent (ps.zip ids) e₁ = .ok () e₂ ∧
      Divided e.params (view e.store) (view e₂.store) parent id n ps₁ ps₂ cs₁ cs₂ b ps ids ns := by
  obtain ⟨ps, m, ms, ids, s₁, hrun, hs₁, hpieces, hfits, hlen, hviews, hnd, hfresh, hothers⟩ :=
    splitNode_serves hSt hprm he hn hover hr
  obtain ⟨hps, hin⟩ := hpieces.between hr
  have hsorted : (ps₁ ++ ps ++ ps₂).Pairwise (· < ·) := by
    obtain ⟨h₁, h₂, h₁₂⟩ := List.pairwise_append.mp hs
    refine List.pairwise_append.mpr
      ⟨List.pairwise_append.mpr ⟨h₁, hps, fun p hp q hq => (hin q hq).1 p hp⟩, h₂, ?_⟩
    intro p hp q hq
    rcases List.mem_append.mp hp with hp | hp
    · exact h₁₂ p hp q hq
    · exact (hin p hp).2 q hq
  have hparent : parent ∉ id :: ids := by
    rw [List.mem_cons, not_or]
    refine ⟨hne, fun h => ?_⟩
    rw [hfresh parent h] at hp
    cases hp
  have hp₁ : view s₁ parent = some (.internal (ps₁ ++ ps₂) (cs₁ ++ id :: cs₂) b) :=
    (hothers parent hparent).trans hp
  have hstep : ∃ s₂, Engine.integrateSplits parent (ps.zip ids) (e.on s₁) = .ok () (e.on s₂) ∧
      view s₂ = Function.update (view s₁) parent
        (some (.internal (ps₁ ++ ps ++ ps₂) (cs₁ ++ id :: ids ++ cs₂) b)) := by
    have hint : Node.integrate (ps.zip ids) (.internal (ps₁ ++ ps₂) (cs₁ ++ id :: cs₂) b) =
        some (.internal (ps₁ ++ ps ++ ps₂) (cs₁ ++ id :: ids ++ cs₂) b) := by
      rw [Node.integrate, integrate_eq hl₁ hlen hsorted]
      rfl
    unfold Engine.integrateSplits
    split_ifs with hempty
    · have hz : ps.zip ids = [] := List.isEmpty_iff.mp hempty
      rw [hz] at hint
      have hsame : some (Node.internal (ps₁ ++ ps₂) (cs₁ ++ id :: cs₂) b) =
          some (.internal (ps₁ ++ ps ++ ps₂) (cs₁ ++ id :: ids ++ cs₂) b) := hint
      refine ⟨s₁, rfl, ?_⟩
      rw [← hsame, ← hp₁, Function.update_eq_self]
    · obtain ⟨s₂, hmut, -, hv₂⟩ := hSt.mutate hs₁ hp₁ hint
      have hm : Engine.mutate parent (Node.integrate (ps.zip ids)) (e.on s₁) = .ok _ (e.on s₂) :=
        Engine.run_onStore (e := e.on s₁) hmut
      exact ⟨s₂, by rw [Engine.run_bind hm]; rfl, hv₂⟩
  obtain ⟨s₂, hrun₂, hv₂⟩ := hstep
  have hkeep : ∀ j, j ≠ parent → view s₂ j = view s₁ j := fun j hj =>
    by rw [hv₂, Function.update_of_ne hj]
  refine ⟨ps, ids, m :: ms, e.on s₁, e.on s₂, hrun, hlen, hrun₂, ?_⟩
  exact {
    above := by rw [Engine.on_store, hv₂, Function.update_self]
    sorted := hsorted
    arity := by
      simp only [List.length_append, List.length_cons]
      omega
    pieces := by
      have hids : ∀ i ∈ id :: ids, i ≠ parent := fun i hi h => hparent (h ▸ hi)
      exact ((List.forall₂_and_left _ _).mpr ⟨hids, hviews⟩).imp fun i x hx =>
        (hkeep i hx.1).trans hx.2
    fits := hfits
    entries := hpieces.entries
    children := hpieces.children
    filed := fun j x hj k => by
      rw [← hl₁]
      exact hpieces.route Node.Cut.entries hps (fun k hk => hr.owns_entries hk) hj k
    buffered := fun j x hj k => by
      rw [← hl₁]
      exact hpieces.route Node.Cut.buffer hps (fun k hk => hr.owns_buffer hk) hj k
    placed := fun k hk => by
      refine ⟨route ps k, ?_, ?_⟩
      · rw [hpieces.length]
        exact Nat.lt_succ_of_le (route_le hps k)
      · rw [route_between hps (hr.owns_buffer hk), hl₁]
    promoted := hpieces.promoted hr
    distinct := List.nodup_cons.mpr ⟨hparent, hnd⟩
    fresh := hfresh
    others := fun j hj => by
      rw [List.mem_cons, not_or] at hj
      exact (hkeep j hj.1).trans (hothers j hj.2) }

end Split

/-- An overfull child within its parent's range is cut into pieces that fit, and nothing is lost or
misrouted, in memory and on disk. -/
theorem split_divides {π V : Type} [Vfs V] [Crc32Fast] {parent id : NodeId} {n : Node}
    {ps₁ ps₂ : List Key}
    {cs₁ cs₂ : List NodeId} (b : Buffer) (hne : parent ≠ id) (hs : (ps₁ ++ ps₂).Pairwise (· < ·))
    (hl₁ : ps₁.length = cs₁.length) (hl₂ : ps₂.length = cs₂.length) (hr : n.Ranged ps₁ ps₂) :
    (∀ e : BeTree π, e.params.Legal → n.Overfull e.params →
      e.store.nodes[parent]? = some (.internal (ps₁ ++ ps₂) (cs₁ ++ id :: cs₂) b) →
      e.store.nodes[id]? = some n →
      ∃ (ps : List Key) (ids : List NodeId) (ns : List Node) (e₁ e₂ : BeTree π),
        Engine.splitNode n id e = .ok (ps.zip ids) e₁ ∧ ps.length = ids.length ∧
        Engine.integrateSplits parent (ps.zip ids) e₁ = .ok () e₂ ∧
        Divided e.params (fun i => e.store.nodes[i]?)
        (fun i => e₂.store.nodes[i]?) parent id n ps₁ ps₂ cs₁ cs₂ b
          ps ids ns) ∧
    ∀ e : DiskEngine π V, e.params.Legal → n.Overfull e.params → e.store.Tidy →
      e.store.node parent = some (.internal (ps₁ ++ ps₂) (cs₁ ++ id :: cs₂) b) →
      e.store.node id = some n →
      ∃ (ps : List Key) (ids : List NodeId) (ns : List Node) (e₁ e₂ : DiskEngine π V),
        Engine.splitNode n id e = .ok (ps.zip ids) e₁ ∧ ps.length = ids.length ∧
        Engine.integrateSplits parent (ps.zip ids) e₁ = .ok () e₂ ∧
        Divided e.params e.store.node e₂.store.node parent id n ps₁ ps₂ cs₁ cs₂ b ps ids ns := by
  constructor
  · intro e hprm hover hp hn
    exact splitNode_divided Arena.serves hprm trivial hp hne hs hl₁ hl₂ hn hover hr
  · intro e hprm hover ht hp hn
    exact splitNode_divided DiskStore.serves hprm ht hp hne hs hl₁ hl₂ hn hover hr

def Node.crowded : Node := .leaf (OrdMap.ofList [([1], ⟨1, []⟩), ([2], ⟨2, []⟩), ([3], ⟨3, []⟩)])

/-- The smallest parameters, and the crowded leaf as the only child of the root. -/
def BeTree.crowded : BeTree GreedyFullest :=
  { BeTree.tiny with store := ⟨[.internal [] [1] OrdMap.empty, .crowded], [true, true]⟩ }

/-- A node with three children where two fit, and a message for each of the outer ones. -/
def Node.broad : Node := .internal [[3], [5]] [3, 4, 5]
    ((OrdMap.empty.insert [2] (.put 7 [1])).insert [6] (.delete 8))

/-- The smallest parameters, and the broad node as the first child of the root, above records. -/
def DiskEngine.broad : DiskEngine GreedyFullest FaultyVfs :=
  { BeTree.tiny with
    store :=
      { vfs := .new
        slots := [.loaded (.internal [[8]] [1, 2] OrdMap.empty) true none 53 0,
          .loaded .broad true none 130 1, .onDisk 8192, .onDisk 8224,
          .onDisk 8256, .onDisk 8288]
        nextGeneration := 1
        watermark := 8320
        poisoned := false
        cache := { Cache.new none with bytes := 183, resident := 2, tick := 1 }
        offsets := OrdMap.ofList [(8192, 2), (8224, 3), (8256, 4), (8288, 5)] } }

lemma DiskEngine.tidy_broad : DiskEngine.broad.store.Tidy := by
  refine ⟨rfl, rfl, fun x hx => ?_, fun x hx => ?_⟩
  · cases hx
  · simp only [DiskEngine.broad, List.mem_cons, List.not_mem_nil, or_false] at hx
    rcases hx with rfl | rfl | rfl | rfl | rfl | rfl <;> simp [NodeSlot.Backed]

/-- The leaf in memory, and the node on a device. -/
theorem split_divides_crowded : let _ := crc32Ieee
    (∃ (ps : List Key) (ids : List NodeId) (ns : List Node) (e₁ e₂ : BeTree GreedyFullest),
      Engine.splitNode .crowded 1 BeTree.crowded = .ok (ps.zip ids) e₁ ∧ ps.length = ids.length ∧
      Engine.integrateSplits 0 (ps.zip ids) e₁ = .ok () e₂ ∧
      Divided Params.tiny (fun i => BeTree.crowded.store.nodes[i]?)
        (fun i => e₂.store.nodes[i]?) 0 1 .crowded
        [] [] [] [] OrdMap.empty ps ids ns) ∧
    ∃ (ps : List Key) (ids : List NodeId) (ns : List Node)
      (e₁ e₂ : DiskEngine GreedyFullest FaultyVfs),
      Engine.splitNode .broad 1 DiskEngine.broad = .ok (ps.zip ids) e₁ ∧ ps.length = ids.length ∧
      Engine.integrateSplits 0 (ps.zip ids) e₁ = .ok () e₂ ∧
      Divided Params.tiny DiskEngine.broad.store.node e₂.store.node 0 1 .broad [] [[8]] []
        [2] OrdMap.empty ps ids ns := by
  let _ := crc32Ieee
  have hranged : Node.broad.Ranged [] [[8]] := by
    refine ⟨by decide, rfl, by decide, fun k hk => ⟨by simp, fun q hq => ?_⟩⟩
    rw [List.mem_singleton.mp hq]
    rw [OrdMap.get?_insert, OrdMap.get?_insert] at hk
    split_ifs at hk with h6 h2
    · rw [h6]
      decide
    · rw [h2]
      decide
    · simp at hk
  constructor
  · exact (split_divides (π := GreedyFullest) (V := FaultyVfs) OrdMap.empty
      (by decide) List.Pairwise.nil rfl rfl
      (show Node.crowded.Ranged [] [] from fun _ _ => by simp [owns])).1 BeTree.crowded (by decide)
      (by change 1 < OrdMap.size _; decide) rfl rfl
  · exact (split_divides (π := GreedyFullest) (V := FaultyVfs) OrdMap.empty
      (show 0 ≠ 1 by decide) (by simp) rfl rfl hranged).2 DiskEngine.broad
      (by decide) (by change 2 < 3; decide) DiskEngine.tidy_broad rfl rfl

end Beetree
