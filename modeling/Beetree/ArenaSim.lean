import Beetree.BeTree
import Beetree.Contents
import Beetree.StoreSim

/-! The in-memory engine follows the ideal one, and with it the reference engine. -/
namespace Beetree

/-- The arena holds every node of the ideal store under its other name, with its flag. Nothing is
ever stored elsewhere. -/
structure Arena.Models (ρ : Renaming) (s : Ideal) (a : Arena) : Prop where
  next : ∃ k, s.next = ρ.left + k ∧ a.nodes.length = ρ.right + k
  dirty : a.dirty.length = a.nodes.length
  slots : ∀ id x, s.slots id = some x → ∀ id', ρ.rel id id' → ∃ n n' d r, x = .loaded n d r ∧
    NodeRel ρ.rel n n' ∧
    a.nodes[id']? = some n' ∧ a.dirty[id']? = some d

section Store
variable {ρ : Renaming} {s : Ideal} {a : Arena} {id id' : NodeId} {x : Slot}

lemma Arena.Models.put {n n' : Node} {d : Bool} (h : Arena.Models ρ s a) (hx : s.slots id = some x)
    (hid : ρ.rel id id') (hn : NodeRel ρ.rel n n') (r : Option Record) :
    Arena.Models ρ (s.put id (some (.loaded n d r))) ⟨a.nodes.set id' n', a.dirty.set id' d⟩ := by
  obtain ⟨-, n₀, d₀, r₀, -, -, hn₀, hd₀⟩ := h.slots id x hx id' hid
  refine ⟨by simpa [Ideal.put] using h.next, by simp [h.dirty], fun j y hy j' hj' => ?_⟩
  by_cases hj : j = id
  · subst hj
    obtain rfl := ρ.unique.2 hid hj'
    simp only [Ideal.put, Function.update_self, Option.some.injEq] at hy
    exact ⟨n, n', d, r, hy.symm, hn, by simp [(List.getElem?_eq_some_iff.mp hn₀).1],
      by simp [(List.getElem?_eq_some_iff.mp hd₀).1]⟩
  · have hne : id' ≠ j' := by
      rintro rfl
      exact hj (ρ.unique.1 hj' hid)
    simp only [Ideal.put, Function.update_of_ne hj] at hy
    rw [List.getElem?_set_ne hne, List.getElem?_set_ne hne]
    exact h.slots j y hy j' hj'

lemma Arena.Models.alloc (h : Arena.Models ρ s a) {n n' : Node} (hn : NodeRel ρ.rel n n') :
    ρ.rel s.next a.nodes.length ∧
    Arena.Models ρ { s.put s.next (some (.loaded n true none)) with next := s.next + 1 }
      ⟨a.nodes ++ [n'], a.dirty ++ [true]⟩ := by
  obtain ⟨k, hk, hk'⟩ := h.next
  refine ⟨by rw [hk, hk']; exact ρ.fresh k,
    ⟨k + 1, by simp [hk, Nat.add_assoc], by simp [hk', Nat.add_assoc]⟩,
    by simp [h.dirty], fun j y hy j' hj' => ?_⟩
  by_cases hj : j = s.next
  · subst hj
    obtain rfl : j' = a.nodes.length := by rw [hk', ← ρ.rel_fresh, ← hk]; exact hj'
    simp only [Ideal.put, Function.update_self, Option.some.injEq] at hy
    exact ⟨n, n', true, none, hy.symm, hn, by simp, by simp [← h.dirty]⟩
  · simp only [Ideal.put, Function.update_of_ne hj] at hy
    obtain ⟨m, m', d, r, rfl, hm, hm', hd⟩ := h.slots j y hy j' hj'
    exact ⟨m, m', d, r, rfl, hm,
      by rw [List.getElem?_append_left (List.getElem?_eq_some_iff.mp hm').1]; exact hm',
      by rw [List.getElem?_append_left (List.getElem?_eq_some_iff.mp hd).1]; exact hd⟩

lemma Arena.Models.release (h : Arena.Models ρ s a) (id : NodeId) :
    Arena.Models ρ (s.put id none) a := by
  refine ⟨h.next, h.dirty, fun j y hy => ?_⟩
  by_cases hj : j = id
  · subst hj
    simp [Ideal.put] at hy
  · simp only [Ideal.put, Function.update_of_ne hj] at hy
    exact h.slots j y hy

end Store

/-- The arena never fails where the ideal store does not. -/
theorem arenaSim (ρ : Renaming) : StoreSim ρ.rel (Arena.Models ρ) (fun _ _ => True)
    (fun _ => False) where
  unique := ρ.unique
  looks := Ideal.loaded_eq
  refl _ := trivial
  trans _ _ := trivial
  loaded := by
    intro id id' hid s a hR n s' hrun
    simp only [NodeStore.loaded] at hrun
    split at hrun
    case h_2 => cases hrun
    case h_1 node dirty r hx =>
      split_ifs at hrun
      cases hrun
      obtain ⟨m, n', d, r', hxy, hn, hn', -⟩ := hR.slots id _ hx id' hid
      cases hxy
      exact Or.inl ⟨n', a, by simp only [NodeStore.loaded, hn'], hn, hR, trivial⟩
  mutate := by
    intro id id' f f' hid hf s a hR n s' hrun
    simp only [NodeStore.mutate] at hrun
    split at hrun
    case h_2 => cases hrun
    case h_1 node dirty r hx =>
      split_ifs at hrun
      obtain ⟨m, n', d, r', hxy, hn, hn', -⟩ := hR.slots id _ hx id' hid
      cases hxy
      have hfn := hf _ _ hn
      generalize f node = y at hrun hfn
      cases hy' : f' n' with
      | none =>
        rw [hy'] at hfn
        cases hfn
        cases hrun
      | some m' =>
        rw [hy'] at hfn
        cases hfn with
        | some hm =>
          cases hrun
          exact Or.inl ⟨m', _, by simp only [NodeStore.mutate, hn', hy'], hm,
            hR.put hx hid hm r, trivial⟩
  alloc := by
    intro n n' hn s a hR id s' hrun
    cases hrun
    exact Or.inl ⟨a.nodes.length, _, rfl, (hR.alloc hn).1, (hR.alloc hn).2, trivial⟩
  releaseSlot := by
    intro id id' hid s a hR u s' hrun
    simp only [NodeStore.releaseSlot] at hrun
    split at hrun
    · cases hrun
      exact Or.inl ⟨(), a, rfl, rfl, hR.release id, trivial⟩
    · cases hrun
  isDirty := by
    intro id id' hid s a hR b s' hrun
    simp only [NodeStore.isDirty] at hrun
    split at hrun
    case h_1 node dirty r hx =>
      cases hrun
      obtain ⟨n, n', d, r', hxy, -, -, hd⟩ := hR.slots id _ hx id' hid
      cases hxy
      exact Or.inl ⟨b, a, by simp only [NodeStore.isDirty, hd], rfl, hR, trivial⟩
    case h_2 r hx =>
      obtain ⟨n, n', d, r', hxy, -⟩ := hR.slots id _ hx id' hid
      cases hxy
    case h_3 => cases hrun
  ensureLoaded := by
    intro id id' pins pins' hid _ s a hR u s' hrun
    refine Or.inl ⟨(), a, rfl, rfl, ?_, trivial⟩
    simp only [NodeStore.ensureLoaded] at hrun
    split at hrun
    case h_1 node dirty r hx =>
      split_ifs at hrun
      · cases hrun
        exact hR
      · split at hrun
        · split_ifs at hrun
          cases hrun
          exact ⟨hR.next, hR.dirty, hR.slots⟩
        · cases hrun
    case h_2 r hx =>
      obtain ⟨n, n', d, r', hxy, -⟩ := hR.slots id _ hx id' hid
      cases hxy
    case h_3 => cases hrun

/-- The arena with the nodes under the names they have in the ideal store. -/
abbrev Arena.Same : Ideal → Arena → Prop := Arena.Models Renaming.same

section Overflow
variable {π π' St : Type} [FlushPolicy π'] [NodeStore St] {rel : NodeId → NodeId → Prop}
    {P : π → π' → Prop}
  {Tr : Recorder → Recorder → Prop} {R : Ideal → St → Prop} {Keep : St → St → Prop}
    {Err : Fault → Prop} {h : ℕ}
  {e : Engine π Ideal} {r : Engine π' St} {t : Live h}

/-- At the last sequence number a mutating operation gets no further than its number, over any
store. -/
lemma StoreSim.mutateWith_overflow (hS : StoreSim rel R Keep Err) (ht : Holds e t)
    (hr : Resembles rel P Tr R e r)
    (op : OpKind2) (hs : ¬ e.nextSeq.toNat + 1 < 2 ^ 64) (fuel : ℕ) :
    ∃ f r', Engine.mutateWith fuel op r = .error f r' ∧ (f = .overflow ∨ Err f) := by
  obtain ⟨e₁, d, dk, x, hrun₁, -, hgo₁, -⟩ := ensureLoaded_run [] ht.stored ht.sound
  rw [← ht.root] at hrun₁
  unfold Engine.mutateWith
  rw [Engine.run_bind Engine.run_get]
  change ∃ f r', EStateM.bind _ _ _ = _ ∧ _
  rcases hS.sims_ensureLoaded loadInv_true hr.root .nil e r hr trivial () e₁ hrun₁ with
    ⟨_, r₁, hrun, -, -, hr₁, -⟩ | ⟨f, r₁, -, hrun, hf, -⟩
  · have hseq : r₁.nextSeq = e.nextSeq := hr₁.nextSeq.trans hgo₁.moves.nextSeq
    have hstamp : Engine.stamp op r₁ = .error .overflow r₁ := by
      unfold Engine.stamp
      rw [Engine.run_bind Engine.run_get, hseq, if_neg hs]
      rfl
    refine ⟨.overflow, r₁, ?_, Or.inl rfl⟩
    simp only [EStateM.bind, hrun]
    change EStateM.bind _ _ _ = _
    simp only [EStateM.bind, hstamp]
  · exact ⟨f, r₁, by simp only [EStateM.bind, hrun], Or.inr hf⟩

lemma StoreSim.step_overflow (hS : StoreSim rel R Keep Err) (ht : Holds e t)
    (hr : Resembles rel P Tr R e r)
    (op : Op) (hs : ¬ op.Numbered e.nextSeq) (fuel : ℕ) :
    ∃ f r', Engine.step fuel op r = .error f r' ∧ (f = .overflow ∨ Err f) := by
  cases op with
  | get key => exact absurd trivial hs
  | scan lo hi => exact absurd trivial hs
  | drain => exact absurd trivial hs
  | mutate op =>
    obtain ⟨f, r', hrun, hf⟩ := hS.mutateWith_overflow ht hr op hs fuel
    refine ⟨f, r', ?_, hf⟩
    change EStateM.bind _ _ _ = _
    simp only [EStateM.bind, hrun]

end Overflow

section Run
variable {π : Type} [FlushPolicy π]

/-- A tree at rest with the contents of the reference engine. -/
structure Mimics (e : Engine π Ideal) {h : ℕ} (t : Live h) (n : NaiveEngine) : Prop where
  holds : Holds e t
  contents : (fun k => n.map.get? k) = Live.contents t
  nextSeq : n.nextSeq = e.nextSeq

lemma Mimics.step (hπ : FlushPolicy.Legal π) {e : Engine π Ideal} {h : ℕ} {t : Live h}
    {n : NaiveEngine}
    (hm : Mimics e t n) (op : Op) (hs : op.Numbered e.nextSeq) :
    ∃ (reply : Reply) (n' : NaiveEngine) (e' : Engine π Ideal) (h' : ℕ) (t' : Live h') (N : ℕ),
      NaiveEngine.step op n = .ok reply n' ∧ Mimics e' t' n' ∧ StepsTo true op reply e e' t t' ∧
      ∀ fuel ≥ N, ∀ b : BeTree π, Alike Arena.Same e b →
        ∃ b', Engine.step fuel op b = .ok reply b' ∧ Alike Arena.Same e' b' := by
  obtain ⟨reply, e', h', t', N, hrun, hst⟩ := step_run hπ hm.holds op hs (Or.inl rfl)
  obtain ⟨reply', n', hn, hans, hc, hseq⟩ := NaiveEngine.step_ok op (hm.nextSeq ▸ hs)
  rw [hm.contents] at hans hc
  obtain rfl := hans.unique hst.answers
  refine ⟨reply', n', e', h', t', N, hn, ⟨hst.holds, hc.trans hst.contents.symm, ?_⟩, hst,
    fun fuel hf b hb => ?_⟩
  · rw [hseq, hst.nextSeq, hm.nextSeq]
  · rcases (arenaSim .same).sims_step traceSim_eq (policySim_eq π) fuel op e b hb trivial reply' e'
      (hrun fuel hf) with
      ⟨_, b', hb', rfl, -, hal, -⟩ | ⟨f, b', -, -, hf, -⟩
    · exact ⟨b', hb', hal⟩
    · exact hf.elim

/-- Operations from a tree at rest: either all of them return, or the sequence numbers run out at
the same point. -/
theorem Mimics.run (hπ : FlushPolicy.Legal π) (ops : List Op) {e : Engine π Ideal}
    {h : ℕ} {t : Live h}
    {n : NaiveEngine} (hm : Mimics e t n) :
    (∃ (replies : List Reply) (n' : NaiveEngine) (e' : Engine π Ideal) (h' : ℕ)
      (t' : Live h') (N : ℕ),
      runOps NaiveEngine.step ops n = .ok replies n' ∧ Mimics e' t' n' ∧ e'.params = e.params ∧
      ∀ fuel ≥ N, ∀ b : BeTree π, Alike Arena.Same e b →
        ∃ b', runOps (Engine.step fuel) ops b = .ok replies b' ∧ Alike Arena.Same e' b') ∨
    ∃ (n' : NaiveEngine) (N : ℕ), runOps NaiveEngine.step ops n = .error .overflow n' ∧
      ∀ fuel ≥ N, ∀ b : BeTree π, Alike Arena.Same e b →
        ∃ b', runOps (Engine.step fuel) ops b = .error .overflow b' := by
  induction ops generalizing e h n with
  | nil => exact Or.inl ⟨[], n, e, h, t, 0, rfl, hm, rfl, fun _ _ b hb => ⟨b, rfl, hb⟩⟩
  | cons op ops ih =>
    have hcons : ∀ {ε σ : Type} (step : Op → EStateM ε σ Reply) (s : σ), runOps step (op :: ops) s =
        EStateM.bind (step op)
          (fun r => EStateM.bind (runOps step ops) fun rs => EStateM.pure (r :: rs)) s :=
      fun _ _ => rfl
    by_cases hs : op.Numbered e.nextSeq
    · obtain ⟨reply, n', e', h', t', N, hn, hm', hst, hb⟩ := hm.step hπ op hs
      rcases ih hm' with ⟨replies, n'', e'', h'', t'', M, hn', hm'', hprm, hb'⟩ | ⟨n'', M, hn', hb'⟩
      · refine Or.inl ⟨reply :: replies, n'', e'', h'', t'', max N M, ?_, hm'',
          hprm.trans hst.params,
          fun fuel hf b hal => ?_⟩
        · simp only [hcons, EStateM.bind, hn, hn', EStateM.pure]
        · obtain ⟨b', hrun, hal'⟩ := hb fuel ((le_max_left N M).trans hf) b hal
          obtain ⟨b'', hrun', hal''⟩ := hb' fuel ((le_max_right N M).trans hf) b' hal'
          exact ⟨b'', by simp only [hcons, EStateM.bind, hrun, hrun', EStateM.pure], hal''⟩
      · refine Or.inr ⟨n'', max N M, ?_, fun fuel hf b hal => ?_⟩
        · simp only [hcons, EStateM.bind, hn, hn']
        · obtain ⟨b', hrun, hal'⟩ := hb fuel ((le_max_left N M).trans hf) b hal
          obtain ⟨b'', hrun'⟩ := hb' fuel ((le_max_right N M).trans hf) b' hal'
          exact ⟨b'', by simp only [hcons, EStateM.bind, hrun, hrun']⟩
    · obtain ⟨n', hn⟩ := NaiveEngine.step_overflow op (hm.nextSeq ▸ hs)
      refine Or.inr ⟨n', 0, by simp only [hcons, EStateM.bind, hn], fun fuel _ b hal => ?_⟩
      obtain ⟨f, b', hrun, hf⟩ := (arenaSim .same).step_overflow hm.holds hal op hs fuel
      obtain rfl : f = .overflow := hf.resolve_right id
      exact ⟨b', by simp only [hcons, EStateM.bind, hrun]⟩

def Ideal.fresh : Ideal where
  slots := Function.update (fun _ => none) 0 (some (.loaded (.leaf OrdMap.empty) true none))
  next := 1
  kept := ∅
  free := false

def Engine.fresh (params : Params) (policy : π) : Engine π Ideal where
  params := params
  store := .fresh
  root := 0
  nextSeq := 0
  opsSinceCommit := 0
  policy := policy
  trace := .new

def Live.fresh : Live 0 := Cell.known 0 true none (Body.leaf OrdMap.empty)

omit [FlushPolicy π] in
lemma holds_fresh {params : Params} (hp : params.Legal) (policy : π) :
    Holds (Engine.fresh params policy) Live.fresh where
  root := rfl
  stored := by
    refine ⟨fun x hx => ?_, fun i hi => ?_, ?_⟩
    · obtain rfl : x = (0, .loaded (.leaf OrdMap.empty) true none) := by simpa [Live.fresh] using hx
      simp [Engine.fresh, Ideal.fresh]
    · obtain rfl : i = 0 := by simpa [Live.fresh] using hi
      exact Nat.one_pos
    · simp [Live.fresh]
  whole i hi hn := by
    obtain rfl : i = 0 := Nat.lt_one_iff.mp hi
    simp [Live.fresh] at hn
  good p := by
    rw [Live.fresh, Live.good_dirty, Body.good_leaf, Tree.valid_leaf]
    simp
  sound := by simp [Live.fresh, Live.Sound, Cell.Sound, Body.Sound]
  rest := Nat.zero_le _
  fresh p k := by
    rw [Live.fresh, Live.view_dirty, Body.view_leaf, Tree.below_leaf]
    simp
  legal := hp

omit [FlushPolicy π] in
lemma withPolicy_eq {params : Params} (hp : params.Legal) (policy : π) :
    ∃ b, BeTree.withPolicy params policy = .ok b ∧
    Alike Arena.Same (Engine.fresh params policy) b := by
  refine ⟨_, if_pos hp, ⟨⟨⟨1, rfl, rfl⟩, rfl, ?_⟩, rfl, rfl, rfl, rfl, rfl, rfl⟩⟩
  rintro id x hx _ rfl
  by_cases hid : id = 0
  · subst hid
    have : x = .loaded (.leaf OrdMap.empty) true none := by
      simpa [Engine.fresh, Ideal.fresh] using hx.symm
    exact ⟨_, _, _, _, this, .leaf _, rfl, rfl⟩
  · simp [Engine.fresh, Ideal.fresh, hid] at hx

omit [FlushPolicy π] in
lemma mimics_fresh {params : Params} (hp : params.Legal) (policy : π) :
    Mimics (Engine.fresh params policy) Live.fresh (NaiveEngine.new params) :=
  ⟨holds_fresh hp policy, rfl, rfl⟩

/-- The tree returns what the reference engine returns, for every policy that keeps its contract. -/
theorem betree_run_eq_naive (hπ : FlushPolicy.Legal π) {params : Params}
    (hp : params.Legal) (policy : π)
    (ops : List Op) :
    ∃ N, ∀ fuel ≥ N, BeTree.run fuel params policy ops = NaiveEngine.run params ops := by
  obtain ⟨b, hb, hal⟩ := withPolicy_eq hp policy
  rcases (mimics_fresh hp policy).run hπ ops with ⟨replies, n', e', h', t', N, hn, -, -,
    hrun⟩ | ⟨n', N, hn, hrun⟩
  · refine ⟨N, fun fuel hf => ?_⟩
    obtain ⟨b', hb', -⟩ := hrun fuel hf b hal
    simp only [BeTree.run, NaiveEngine.run, hb, hn, bind, Except.bind, hb', outcome]
  · refine ⟨N, fun fuel hf => ?_⟩
    obtain ⟨b', hb'⟩ := hrun fuel hf b hal
    simp only [BeTree.run, NaiveEngine.run, hb, hn, bind, Except.bind, hb', outcome]

theorem betree_run_eq_naive_tiny : ∃ N, ∀ fuel ≥ N,
    BeTree.run fuel Params.tiny GreedyFullest.mk
      [.mutate (.insert [1] [7]), .mutate (.upsert [2] (.add 5)), .drain,
        .scan .unbounded .unbounded] =
    NaiveEngine.run Params.tiny
      [.mutate (.insert [1] [7]), .mutate (.upsert [2] (.add 5)), .drain,
        .scan .unbounded .unbounded] :=
  betree_run_eq_naive GreedyFullest.legal (by decide) _ _

end Run
end Beetree
