import Beetree.Node

/-! Flush-child choice (`src/policy.rs`). -/
namespace Beetree

structure FlushCtx where
  node : NodeId
  depth : ℕ
  childPending : List ℕ
  childPendingBytes : List ℕ
  childDirty : List Bool
  bufferTotal : ℕ
  opsSinceCommit : ℕ
  deriving DecidableEq

/-- A policy may keep state; it names the child index to flush toward. -/
class FlushPolicy (π : Type) where
  choose : π → FlushCtx → ℕ × π

/-- The contract of the trait: whenever some child has pending messages, name such a child. -/
def FlushPolicy.Legal (π : Type) [FlushPolicy π] : Prop :=
  ∀ (s : π) (ctx : FlushCtx), (∃ i, 0 < ctx.childPending.getD i 0) →
    0 < ctx.childPending.getD (choose s ctx).1 0

structure GreedyFullest where
  deriving DecidableEq

/-- The most pending messages, lowest index on ties. -/
def GreedyFullest.pick (childPending : List ℕ) : ℕ :=
  (List.range childPending.length).foldl
    (fun chosen i => if childPending.getD chosen 0 < childPending.getD i 0 then i else chosen) 0

instance : FlushPolicy GreedyFullest where
  choose s ctx := (GreedyFullest.pick ctx.childPending, s)

/-- Encoded size of one buffered entry inside a node record. -/
def entryBytes (key : Key) (message : Message) : ℕ :=
  8 + key.length +
    match message with
    | .put _ value => 4 + 8 + 8 + value.length
    | .delete _ => 4 + 8
    | .upsert _ _ => 4 + 8 + 4 + 8

lemma GreedyFullest.foldl_ge (cp : List ℕ) (is : List ℕ) (c : ℕ) :
    cp.getD c 0 ≤ cp.getD (is.foldl (fun chosen i =>
      if cp.getD chosen 0 < cp.getD i 0 then i else chosen) c) 0 ∧
    ∀ i ∈ is, cp.getD i 0 ≤ cp.getD (is.foldl (fun chosen i =>
      if cp.getD chosen 0 < cp.getD i 0 then i else chosen) c) 0 := by
  induction is generalizing c with
  | nil => simp
  | cons j is ih =>
    simp only [List.foldl_cons]
    split_ifs with h
    · obtain ⟨h1, h2⟩ := ih j
      refine ⟨h.le.trans h1, ?_⟩
      intro i hi
      rcases List.mem_cons.mp hi with rfl | hi
      · exact h1
      · exact h2 i hi
    · obtain ⟨h1, h2⟩ := ih c
      refine ⟨h1, ?_⟩
      intro i hi
      rcases List.mem_cons.mp hi with rfl | hi
      · exact (not_lt.mp h).trans h1
      · exact h2 i hi

lemma GreedyFullest.le_pick (cp : List ℕ) (i : ℕ) : cp.getD i 0 ≤ cp.getD (pick cp) 0 := by
  by_cases h : i < cp.length
  · exact (foldl_ge cp (List.range cp.length) 0).2 i (List.mem_range.mpr h)
  · simp [List.getElem?_eq_none (not_lt.mp h)]

lemma GreedyFullest.lt_pick {cp : List ℕ} {i : ℕ} (hi : i < pick cp) :
    cp.getD i 0 < cp.getD (pick cp) 0 := by
  unfold pick at hi ⊢
  generalize cp.length = n at hi ⊢
  induction n with
  | zero => simp at hi
  | succ n ih =>
    rw [List.range_succ, List.foldl_append] at hi ⊢
    simp only [List.foldl_cons, List.foldl_nil] at hi ⊢
    split_ifs at hi ⊢ with hlt
    · exact ((foldl_ge cp (List.range n) 0).2 i (List.mem_range.mpr hi)).trans_lt hlt
    · exact ih hi

theorem GreedyFullest.pick_pos {cp : List ℕ} (h : ∃ i, 0 < cp.getD i 0) :
    0 < cp.getD (pick cp) 0 := by
  obtain ⟨i, hi⟩ := h
  exact hi.trans_le (le_pick cp i)

theorem GreedyFullest.legal : FlushPolicy.Legal GreedyFullest :=
  fun _ _ h => pick_pos h

end Beetree
