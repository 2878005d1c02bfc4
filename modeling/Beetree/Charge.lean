import Beetree.ArenaSim
import Beetree.Commit

/-! A commit boundary of the cost model: the in-memory engine marks clean exactly what a commit
writes, and charges for its records. -/
namespace Beetree
open List (Forall₂)

/-- The length of the record payload of a node. -/
def Node.payloadLength (n : Node) : ℕ := (encodeNode (n.toDisk UInt64.ofNat)).length

lemma NodeRel.payload_length {rel : NodeId → NodeId → Prop} {n n' : Node} (h : NodeRel rel n n')
    (f g : NodeId → UInt64) :
    (encodeNode (n.toDisk f)).length = (encodeNode (n'.toDisk g)).length := by
  cases h with
  | leaf es => rfl
  | internal ps b hcs => exact encodeNode_internal_length ps b (by simp [hcs.length_eq])

/-- What a commit writes: a record for each node and a superblock. -/
def chargeOf (nodes : List Node) : ℕ :=
  (nodes.map fun n => recordHeaderSize + n.payloadLength).sum + superblockSlotSize

section Clean

def Arena.cleaned (a : Arena) (ids : List NodeId) : Arena :=
  { a with dirty := ids.foldl (fun d id => d.set id false) a.dirty }

lemma length_foldl_set (ids : List NodeId) (d : List Bool) :
    (ids.foldl (fun d id => d.set id false) d).length = d.length := by
  induction ids generalizing d with
  | nil => rfl
  | cons id ids ih => rw [List.foldl_cons, ih, List.length_set]

lemma getElem?_foldl_set (ids : List NodeId) (d : List Bool) (j : ℕ) :
    (ids.foldl (fun d id => d.set id false) d)[j]? = if j ∈ ids then d[j]?.map fun _ =>
    false else d[j]? := by
  induction ids generalizing d with
  | nil => simp
  | cons id ids ih =>
    rw [List.foldl_cons, ih, List.getElem?_set]
    by_cases hj : j ∈ ids
    · by_cases hid : id = j
      · subst hid
        by_cases hl : id < d.length <;> simp [hj, hl]
      · simp [hj, hid]
    · by_cases hid : id = j
      · subst hid
        by_cases hl : id < d.length <;> simp [hj, hl]
      · simp [hj, hid, Ne.symm hid]

end Clean

section Run
variable {π π' : Type} {ρ : Renaming} {P : π → π' → Prop} {Tr : Recorder → Recorder → Prop} {h : ℕ}
  {e : Engine π Ideal} {t : Live h}

lemma chargeRecords_run {b : BeTree π'} {arena : List Node} (hb : b.store.nodes = arena)
    (hd : b.store.dirty.length = arena.length) {ids : List NodeId} {nodes : List Node}
    (hl : Forall₂ (fun id n => ∃ n', arena[id]? = some n' ∧ NodeRel ρ.rel n n') ids nodes)
    (acc : ℕ) :
    BeTree.chargeRecords ids acc b =
      .ok (acc + (nodes.map fun n => recordHeaderSize + n.payloadLength).sum)
      (b.on (b.store.cleaned ids)) := by
  induction hl generalizing acc b with
  | nil => rfl
  | @cons id n ids nodes hn hl ih =>
    obtain ⟨n', hn', hrel⟩ := hn
    have hlen : BeTree.recordPayloadLen id b = .ok n.payloadLength b := by
      have hload : Engine.loaded id b = .ok n' b :=
        Engine.run_onStore (s := b.store) (by simp only [NodeStore.loaded, hb, hn'])
      unfold BeTree.recordPayloadLen
      rw [Engine.run_bind hload, Engine.run_pure]
      exact congrArg (EStateM.Result.ok · b) (hrel.payload_length _ _).symm
    have hclean : Engine.onStore (Arena.clean id) b = .ok () (b.on (b.store.cleaned [id])) := by
      refine Engine.run_onStore ?_
      unfold Arena.clean
      rw [if_pos]
      · rfl
      · rw [hd]
        exact (List.getElem?_eq_some_iff.mp hn').1
    rw [BeTree.chargeRecords, Engine.run_bind hlen, Engine.run_bind hclean]
    rw [ih (b := b.on (b.store.cleaned [id])) hb (by simpa [Arena.cleaned] using hd)]
    rw [List.map_cons, List.sum_cons, Nat.add_assoc]
    rfl

lemma Arena.Models.commit {a : Arena} (off : NodeId → ℕ) (ht : Stored e.store (Live.foot t))
    (hm : Arena.Models ρ e.store a) {ids : List NodeId}
    (hids : Forall₂ ρ.rel ((Live.written t).map Prod.fst) ids) :
    Arena.Models ρ (e.store.install (Live.foot (Live.commit off t))) (a.cleaned ids) := by
  have hfoot : (Live.foot (Live.commit off t)).ids = (Live.foot t).ids := Live.ids_foot_commit t
  have hn : (Live.foot (Live.commit off t)).ids.Nodup := hfoot ▸ ht.nodup
  have hclean : ∀ {i j}, ρ.rel i j → (j ∈ ids ↔ i ∈ (Live.written t).map Prod.fst) := by
    intro i j hij
    exact (List.rel_mem ρ.unique hij hids).symm
  have hflag : ∀ {i j d}, ρ.rel i j → a.dirty[j]? = some d → (a.cleaned ids).dirty[j]? =
      some (if i ∈ (Live.written t).map Prod.fst then false else d) := by
    intro i j d hij hd
    rw [Arena.cleaned, getElem?_foldl_set, hd, if_congr (hclean hij) rfl rfl]
    split_ifs <;> rfl
  refine ⟨hm.next, by simpa [Arena.cleaned, length_foldl_set] using hm.dirty,
    fun i x hx j hij => ?_⟩
  by_cases hi : i ∈ (Live.foot (Live.commit off t)).ids
  · obtain ⟨⟨i', y⟩, hy, rfl⟩ := List.mem_map.mp hi
    rw [Ideal.install_of_mem hn hy] at hx
    obtain rfl : y = x := Option.some.inj hx
    rcases Live.foot_commit ht.nodup hy with ⟨hnot, hold⟩ | ⟨n, r, hslot, -, hw⟩
    · obtain ⟨n, n', d, r, hx, hrel, hn', hd⟩ := hm.slots _ _ (ht.slots _ hold) j hij
      exact ⟨n, n', d, r, hx, hrel, hn', by rw [hflag hij hd, if_neg hnot]⟩
    · obtain ⟨r', hr'⟩ := Live.written_foot hw
      obtain ⟨m, n', d, r'', hx, hrel, hn', hd⟩ := hm.slots _ _ (ht.slots _ hr') j hij
      cases hx
      refine ⟨n, n', false, some r, hslot, hrel, hn', ?_⟩
      rw [hflag hij hd, if_pos (List.mem_map_of_mem hw)]
  · rw [Ideal.install_of_not_mem hi] at hx
    obtain ⟨n, n', d, r, hx, hrel, hn', hd⟩ := hm.slots _ _ hx j hij
    refine ⟨n, n', d, r, hx, hrel, hn', ?_⟩
    rw [hflag hij hd, if_neg]
    exact fun hw => hi (hfoot ▸ Live.written_ids hw)

/-- A commit boundary charges for the records a commit would write. -/
theorem simulateCommit_run (ht : Stored e.store (Live.foot t)) {fuel : ℕ}
    (hwalk : Engine.dirtyNodes fuel e = .ok ((Live.written t).map Prod.fst) e)
    (off : NodeId → ℕ) (b : BeTree π')
    (hb : Resembles ρ.rel P Tr (Arena.Models ρ) e b) :
    ∃ b', BeTree.simulateCommit fuel b = .ok (chargeOf ((Live.written t).map Prod.snd)) b' ∧
      Resembles ρ.rel P Tr (Arena.Models ρ) (e.committed off t) b' := by
  rcases (arenaSim ρ).sims_dirtyNodes fuel e b hb trivial _ e hwalk with
    ⟨ids, b₁, hrun, hids, -, hb₁, -⟩ | ⟨f, b₁, -, -, hf, -⟩
  · have hl : Forall₂ (fun id n => ∃ n', b₁.store.nodes[id]? = some n' ∧ NodeRel ρ.rel n n') ids
        ((Live.written t).map Prod.snd) := by
      have hnode : ∀ w ∈ Live.written t, ∀ id, ρ.rel w.1 id →
          ∃ n', b₁.store.nodes[id]? = some n' ∧ NodeRel ρ.rel w.2 n' := by
        intro w hw id hid
        obtain ⟨r, hr⟩ := Live.written_foot hw
        obtain ⟨n, n', d, r', hx, hrel, hn', -⟩ := hb₁.store.slots _ _ (ht.slots _ hr) id hid
        cases hx
        exact ⟨n', hn', hrel⟩
      clear hrun hwalk
      generalize Live.written t = W at hids hnode ⊢
      induction W generalizing ids with
      | nil =>
        cases hids
        exact .nil
      | cons w W ih =>
        cases hids with
        | cons hid hids =>
          exact .cons (hnode w (by simp) _ hid) (ih _ hids fun w' hw' => hnode w' (by simp [hw']))
    have hcharge := chargeRecords_run rfl hb₁.store.dirty hl 0
    refine ⟨{ b₁ with store := b₁.store.cleaned ids, opsSinceCommit := 0 }, ?_,
      ⟨hb₁.store.commit off ht hids, hb₁.params, hb₁.root, hb₁.nextSeq, rfl, hb₁.policy, hb₁.trace⟩⟩
    unfold BeTree.simulateCommit
    rw [Engine.run_bind hrun, Engine.run_bind hcharge, Nat.zero_add]
    rfl
  · exact hf.elim

end Run
end Beetree
