import Beetree.Reads

/-! The algebra of messages: three ways to resolve the messages pending above a leaf.

A point read sums additions on its way down and stops at the first put or delete; a scan folds the
messages upwards onto the leaf; flushes move them down batch by batch. All three come to applying
the messages in turn, the deepest first. -/
namespace Beetree

lemma Message.coalesce_assoc (a b c : Message) :
    c.coalesce (b.coalesce a) = (c.coalesce b).coalesce a := by
  rcases c with ⟨s, v⟩ | ⟨s⟩ | ⟨s, ⟨d⟩⟩
  · rfl
  · rfl
  · rcases b with ⟨s', v'⟩ | ⟨s'⟩ | ⟨s', ⟨d'⟩⟩
    · rfl
    · rfl
    · rcases a with ⟨s'', v''⟩ | ⟨s''⟩ | ⟨s'', ⟨d''⟩⟩
      · simp only [Message.coalesce, UpsertOp.apply_apply]
      · simp only [Message.coalesce, UpsertOp.apply_apply]
      · simp only [Message.coalesce, BitVec.add_assoc]

/-- The walk of `get` over the messages it meets, root first, with the additions summed so far. -/
def chainWalk : Option (BitVec 64) → List (Option Message) → Option Value → Option Value
  | chain, [], x => applyChain chain x
  | chain, none :: path, x => chainWalk chain path x
  | chain, some (.put _ value) :: _, _ => applyChain chain (some value)
  | chain, some (.delete _) :: _, _ => applyChain chain none
  | chain, some (.upsert _ (.add delta)) :: path, x =>
    chainWalk (some (chain.getD 0 + delta)) path x

/-- The fold of `scan` over the same messages, deepest first. -/
def scanFold (key : Key) (path : List (Option Message)) (acc : OrdMap Key Value) :
    OrdMap Key Value :=
  path.foldr (fun m acc => m.elim acc (applyScan acc key)) acc

/-- The messages of a path in turn, the deepest first. -/
def settlePath (path : List (Option Message)) (x : Option Value) : Option Value :=
  path.foldr (fun m y => m.elim y fun m => m.act y) x

/-- One flush along a path: part of a buffer moves to the buffer below it, or into the leaf. -/
inductive Flushes : List Buffer × Entries → List Buffer × Entries → Prop
  | down (above : List Buffer) (b b' : Buffer) (below : List Buffer) (es : Entries)
    (p : Key → Bool) :
      Flushes (above ++ b :: b' :: below, es)
        (above ++ b.filter (fun k => !p k) ::
          (b.filter p).toList.foldl (fun b x => coalesceInto b x.1 x.2) b' :: below, es)
  | leaf (above : List Buffer) (b : Buffer) (es : Entries) (p : Key → Bool) :
      Flushes (above ++ [b], es)
        (above ++ [b.filter fun k => !p k],
          (b.filter p).toList.foldl (fun es x => applyToLeaf es x.1 x.2) es)

/-- The messages for a key along a path of buffers. -/
def messagesFor (key : Key) (levels : List Buffer) :
    List (Option Message) := levels.map fun b => b.get? key

def leafValue (key : Key) (es : Entries) : Option Value := (es.get? key).map LeafEntry.value

lemma chainWalk_eq (path : List (Option Message)) (chain : Option (BitVec 64)) (x : Option Value) :
    chainWalk chain path x = applyChain chain (settlePath path x) := by
  induction path generalizing chain with
  | nil => rfl
  | cons m path ih =>
    rcases m with _ | ⟨s, v⟩ | ⟨s⟩ | ⟨s, ⟨d⟩⟩
    · exact ih chain
    · rfl
    · rfl
    · rw [chainWalk, ih, applyChain_add]
      rfl

lemma get?_applyScan (acc : OrdMap Key Value) (key : Key) (m : Message) :
    (applyScan acc key m).get? key = m.act (acc.get? key) := by
  cases m <;> simp [applyScan, Message.act]

lemma get?_scanFold (key : Key) (path : List (Option Message)) (acc : OrdMap Key Value) :
    (scanFold key path acc).get? key = settlePath path (acc.get? key) := by
  induction path with
  | nil => rfl
  | cons m path ih =>
    cases m with
    | none => exact ih
    | some m =>
      change (applyScan (scanFold key path acc) key m).get? key = m.act
        (settlePath path (acc.get? key))
      rw [get?_applyScan, ih]

lemma settlePath_append (path path' : List (Option Message)) (x : Option Value) :
    settlePath (path ++ path') x = settlePath path (settlePath path' x) := by
  simp [settlePath]

lemma Message.act_merge (m : Message) (o : Option Message) (x : Option Value) :
    (m.merge o).act x = m.act (o.elim x fun m => m.act x) := by
  cases o with
  | none => rfl
  | some o => exact m.act_coalesce o x

lemma Flushes.settle {s s' : List Buffer × Entries} (h : Flushes s s') (key : Key) :
    settlePath (messagesFor key s'.1) (leafValue key s'.2) = settlePath (messagesFor key s.1)
    (leafValue key s.2) := by
  cases h with
  | down above b b' below es p =>
    simp only [messagesFor, List.map_append, List.map_cons, settlePath_append]
    congr 1
    simp only [settlePath, List.foldr_cons, OrdMap.get?_filter, get?_receive_buffer]
    cases hp : p key with
    | false => simp
    | true =>
      cases hb : b.get? key with
      | none => simp
      | some m => simp [Message.act_merge]
  | leaf above b es p =>
    simp only [messagesFor, List.map_append, List.map_cons, List.map_nil, settlePath_append]
    congr 1
    simp only [settlePath, List.foldr_cons, List.foldr_nil, OrdMap.get?_filter, leafValue,
      get?_receive_leaf]
    cases hp : p key with
    | false => simp
    | true =>
      cases hb : b.get? key with
      | none => simp
      | some m => simp [Message.entry_value]

lemma settlePath_absent {path : List (Option Message)} (h : ∀ m ∈ path, m = none)
    (x : Option Value) :
    settlePath path x = x := by
  induction path with
  | nil => rfl
  | cons m path ih =>
    obtain rfl := h m (by simp)
    exact ih fun m hm => h m (by simp [hm])

lemma settle_of_flushes {s s' : List Buffer × Entries}
    (h : Relation.ReflTransGen Flushes s s') (key : Key) :
    settlePath (messagesFor key s'.1) (leafValue key s'.2) = settlePath (messagesFor key s.1)
    (leafValue key s.2) := by
  induction h with
  | refl => rfl
  | tail _ hstep ih => exact (hstep.settle key).trans ih

end Beetree
