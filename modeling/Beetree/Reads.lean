import Beetree.Ops

/-! Point reads over the ideal store. -/
namespace Beetree

lemma exists_focus {T : Type} {ps : List Key} {cs : List T} (hs : ps.Pairwise (· < ·))
    (hl : cs.length = ps.length + 1) (k : Key) :
    ∃ ps₁ ps₂ cs₁ c cs₂, ps = ps₁ ++ ps₂ ∧ cs = cs₁ ++ c :: cs₂ ∧ ps₁.length = cs₁.length ∧
    owns ps₁ ps₂ k := by
  obtain ⟨ps₁, ps₂, rfl, ho⟩ := exists_owns hs k
  have hlt : ps₁.length < cs.length := by simp [hl]
  exact ⟨ps₁, ps₂, cs.take ps₁.length, cs[ps₁.length], cs.drop (ps₁.length + 1), rfl, by simp,
    by simp [hlt.le], ho⟩

lemma applyChain_add (chain : Option (BitVec 64)) (delta : BitVec 64) (v : Option Value) :
    applyChain (some (chain.getD 0 + delta)) v = applyChain chain
      (some ((UpsertOp.add delta).apply v)) := by
  cases chain with
  | none => simp [applyChain]
  | some sum => simp only [applyChain, Option.getD_some, UpsertOp.apply_apply, BitVec.add_comm sum]

lemma Body.kids_of_rest {h : ℕ} {prm : Params} {ps : List Key} {cs : List (Live h)}
    {b : Buffer} {d : Bool}
    (hr : ((Body.node ps cs b).plain d).RootRest prm) :
    cs ≠ [] ∧ ∀ c ∈ cs, (Live.plain c).RootRest prm := by
  obtain ⟨hne, hc⟩ := Body.ready_of_rest hr
  exact ⟨hne, fun c hcs => (hc c hcs).rootRest⟩

section Get
variable {π : Type} {prm : Params} {h : ℕ} {e : Engine π Ideal} {t : Live h} {lo hi : Option Key}

lemma getLoop_visit {e₁ : Engine π Ideal} {key : Key} {id c : NodeId} {ps : List Key}
    {cs : List NodeId} {b : Buffer}
    (hrun : Engine.ensureLoaded id [] e = .ok () e₁)
    (hload : Engine.loaded id e₁ = .ok (.internal ps cs b) e₁)
    (hc : cs[route ps key]? = some c) (n : ℕ) (chain : Option (BitVec 64)) :
    Engine.getLoop key (n + 1) chain id e = (match b.get? key with
      | some (.put _ value) => pure (applyChain chain (some value))
      | some (.delete _) => pure (applyChain chain none)
      | some (.upsert _ (.add delta)) => Engine.getLoop key n (some (chain.getD 0 + delta)) c
      | none => Engine.getLoop key n chain c : Engine.Act π Ideal (Option Value)) e₁ := by
  rw [Engine.getLoop]
  refine (Engine.run_bind hrun).trans ((Engine.run_bind hload).trans ?_)
  rcases hb : b.get? key with _ | ⟨_, _⟩ | ⟨_⟩ | ⟨_, ⟨_⟩⟩ <;> simp only [hb, hc]

theorem getLoop_run (key : Key) (hF : Stored e.store (Live.foot t)) (hg : Live.Good false lo hi t)
    (hk : InRange lo hi key) (hS : Live.Sound (fun _ d => d.Labelled) t)
    (hr : (Live.plain t).RootRest prm)
    (chain : Option (BitVec 64)) :
    ∃ e' t' N, (∀ n ≥ N, Engine.getLoop key n chain t.id e =
        .ok (applyChain chain ((Live.view false t).resolve key)) e') ∧ Opens t t' ∧
      Goes [] (Live.foot t) (Live.foot t') e e' := by
  induction h generalizing e lo hi chain with
  | zero =>
    obtain ⟨e₁, d, dk, x, hrun, hopen, hgo, hres⟩ := ensureLoaded_run [] hF hS
    have hsame := (hopen.leads.good false lo hi hg).2.same key hk
    refine ⟨e₁, _, 1, fun n hn => ?_, hopen, hgo⟩
    obtain ⟨n, rfl⟩ : ∃ n', n = n' + 1 := ⟨n - 1, by omega⟩
    rw [Engine.getLoop, Engine.run_bind hrun, Engine.run_bind (loaded_known hgo.stored hres), hsame]
    rfl
  | succ h ih =>
    obtain ⟨e₁, d, dk, x, hrun, hopen, hgo, hres⟩ := ensureLoaded_run [] hF hS
    obtain ⟨hg₁, hy⟩ := hopen.leads.good false lo hi hg
    have hsame := hy.same key hk
    have hS₁ := hopen.leads.sound _ hereditary_labelled hS
    have hload := loaded_known hgo.stored hres
    rw [← hopen.plain] at hr
    induction x using Body.succCases with
    | hn ps cs b =>
      obtain ⟨hne, hkids⟩ := Body.kids_of_rest hr
      obtain ⟨hsorted, hlen⟩ := hg₁.1.pivots hne
      obtain ⟨ps₁, ps₂, cs₁, c, cs₂, rfl, rfl, hl, hown⟩ := exists_focus hsorted hlen key
      obtain ⟨m, m', hcg, hiff, -⟩ := (kids_good_of_node hg₁.1 hne).focus hl
      have hat : childAt (ps₁ ++ ps₂) (cs₁ ++ c :: cs₂) key = some c := childAt_split hl hown
      have hroute : ((cs₁ ++ c :: cs₂).map Cell.id)[route (ps₁ ++ ps₂) key]? = some c.id := by
        rw [List.getElem?_map, getElem?_route hsorted hlen, hat]
        rfl
      have hchild : ∀ chain', ∃ e' t' N, (∀ n ≥ N, Engine.getLoop key n chain' c.id e₁ =
          .ok (applyChain chain' ((Live.view false c).resolve key)) e') ∧ Opens t t' ∧
          Goes [] (Live.foot t) (Live.foot t') e e' := by
        intro chain'
        obtain ⟨e₂, c', N, hrun₂, hopen₂, hgo₂⟩ :=
          ih hgo.stored.child hcg ((hiff key).mpr ⟨hk, hown⟩)
          (Body.sound_node.mp hS₁.2.2 c (by simp)) (hkids c (by simp)) chain'
        exact ⟨e₂, _, N, hrun₂, hopen.trans (Opens.within hl hopen₂),
          hgo.trans (hgo₂.child hgo.stored hopen₂.leads.id)⟩
      have hstop : ∀ {r}, (∀ n, Engine.getLoop key (n + 1) chain t.id e = .ok r e₁) →
          r = applyChain chain ((Live.view false t).resolve key) → ∃ e' t' N,
          (∀ n ≥ N, Engine.getLoop key n chain t.id e =
            .ok (applyChain chain ((Live.view false t).resolve key)) e') ∧ Opens t t' ∧
          Goes [] (Live.foot t) (Live.foot t') e e' := by
        intro r hr heq
        refine ⟨e₁, _, 1, fun n hn => ?_, hopen, hgo⟩
        obtain ⟨n, rfl⟩ : ∃ n', n = n' + 1 := ⟨n - 1, by omega⟩
        rw [hr n, heq]
      have hresolve : (Live.view false t).resolve key =
          (b.get? key).elim id Message.act ((Live.view false c).resolve key) := by
        rw [hsame, Live.view_plain, Body.view_node, Tree.resolve_node, childAt_map, hat]
        cases b.get? key <;> rfl
      rw [Body.toNode_node] at hload
      have hstep := fun n => getLoop_visit hrun hload hroute n chain
      rcases hb : b.get? key with _ | ⟨seq, value⟩ | ⟨seq⟩ | ⟨seq, ⟨delta⟩⟩
      · rw [hb] at hresolve
        obtain ⟨e', t', N, hrun', hopen', hgo'⟩ := hchild chain
        refine ⟨e', t', N + 1, fun n hn => ?_, hopen', hgo'⟩
        obtain ⟨n, rfl⟩ : ∃ n', n = n' + 1 := ⟨n - 1, by omega⟩
        rw [hstep n, hb, hresolve]
        exact hrun' n (by omega)
      · rw [hb] at hresolve
        exact hstop (fun n => by rw [hstep n, hb]; rfl) (by rw [hresolve]; rfl)
      · rw [hb] at hresolve
        exact hstop (fun n => by rw [hstep n, hb]; rfl) (by rw [hresolve]; rfl)
      · rw [hb] at hresolve
        obtain ⟨e', t', N, hrun', hopen', hgo'⟩ := hchild (some (chain.getD 0 + delta))
        refine ⟨e', t', N + 1, fun n hn => ?_, hopen', hgo'⟩
        obtain ⟨n, rfl⟩ : ∃ n', n = n' + 1 := ⟨n - 1, by omega⟩
        rw [hstep n, hb, hresolve]
        simp only
        rw [hrun' n (by omega), applyChain_add]
        rfl

end Get
end Beetree
