import Beetree.Flush

/-! The root: growing upward while it splits, collapsing onto a lone child. -/
namespace Beetree

/-- One whole tree may turn into another, of whatever height. -/
structure Becomes (q : Bool) {h h' : ℕ} (t : Live h) (t' : Live h') : Prop where
  good : ∀ p, Live.Good p none none t → Live.Good p none none t' ∧
    (∀ k, (Live.view p t').resolve k = (Live.view p t).resolve k) ∧
    (∀ k s, (Live.view p t).Below k s → (Live.view p t').Below k s) ∧
    (Live.view p t').offs.Sublist (Live.view p t).offs
  sound : ∀ P, Hereditary P → Live.Sound P t → Live.Sound P t'
  closed : q = false → Live.Closed t → Live.Closed t'
  quiet : (Live.plain t).Quiet → (Live.plain t').Quiet

section Becomes
variable {q : Bool} {h h' h'' : ℕ}

lemma Becomes.trans {t : Live h} {t' : Live h'} {t'' : Live h''} (h₁ : Becomes q t t')
    (h₂ : Becomes q t' t'') : Becomes q t t'' where
  good p ht := by
    obtain ⟨ht', hr, hb, ho⟩ := h₁.good p ht
    obtain ⟨ht'', hr', hb', ho'⟩ := h₂.good p ht'
    exact ⟨ht'', fun k => (hr' k).trans (hr k), fun k s hs => hb' k s (hb k s hs), ho'.trans ho⟩
  sound P hP ht := h₂.sound P hP (h₁.sound P hP ht)
  closed hq ht := h₂.closed hq (h₁.closed hq ht)
  quiet ht := h₂.quiet (h₁.quiet ht)

lemma Leads.becomes {t t' : Live h} (ht : Leads q t t') : Becomes q t t' where
  good p hg := by
    obtain ⟨hg', hy⟩ := ht.good p none none hg
    exact ⟨hg', fun k => (hy.same k (inRange_none k)).symm,
      fun k s => hy.below k s (inRange_none k), hy.offs⟩
  sound := ht.sound
  closed := ht.closed
  quiet := ht.quiet

lemma Becomes.wrap (t : Live h) (id : NodeId) :
    Becomes q t (Cell.known id true none (Body.node [] [t] OrdMap.empty)) where
  good p hg := by
    have hv := hg.valid
    refine ⟨(Live.good_dirty none _).mpr ⟨?_, Or.inr hg⟩, fun k => ?_, fun k s hs => ?_, ?_⟩
    · rw [Body.view_node, Tree.valid_node]
      exact ⟨by simp, by simp, Or.inr hv⟩
    · simp [Tree.resolve_node, childAt]
    · rw [Live.view_dirty, Body.view_node, Tree.below_node]
      exact ⟨by simp, by simpa [childAt] using hs⟩
    · simp
  sound P _ ht := ⟨by simp, by simp, Body.sound_node.mpr (by simpa using ht)⟩
  closed _ ht := ⟨by simp, Body.closed_node.mpr (by simpa using ht)⟩
  quiet ht := Body.quiet_iff.mpr ⟨rfl, by simpa using ht⟩

lemma Live.Good.body {p : Bool} {id : NodeId} {d : Bool} {dk : Option (VTree h)} {x : Body h}
    (hg : Live.Good p none none (Cell.known id d dk x)) : x.Good p none none ∧
      (∀ k, (x.view p).resolve k = (Live.view p (Cell.known id d dk x)).resolve k) ∧
      (∀ k s, (Live.view p (Cell.known id d dk x)).Below k s → (x.view p).Below k s) ∧
      (x.view p).offs.Sublist (Live.view p (Cell.known id d dk x)).offs := by
  obtain ⟨hg', hy⟩ := (Leads.touch false id d dk x).good p none none hg
  rw [Live.good_dirty, Live.view_dirty] at *
  exact ⟨hg', fun k => (hy.same k (inRange_none k)).symm,
    fun k s => hy.below k s (inRange_none k), hy.offs⟩

lemma Becomes.unwrap (id : NodeId) (d : Bool) (dk : Option (VTree (h + 1))) (c : Live h) :
    Becomes q (Cell.known id d dk (Body.node [] [c] OrdMap.empty)) c where
  good p hg := by
    obtain ⟨hx, hr, hb, ho⟩ := hg.body
    refine ⟨kids_good_of_node hx (by simp), fun k => ?_, fun k s hs => ?_, ?_⟩
    · rw [← hr k]
      simp [Tree.resolve_node, childAt]
    · have := hb k s hs
      rw [Body.view_node, Tree.below_node] at this
      exact this.2 _ (by simp [childAt])
    · simpa using ho
  sound P _ ht := Body.sound_node.mp ht.2.2 c (by simp)
  closed _ ht := Body.closed_node.mp ht.2 c (by simp)
  quiet ht := (Body.quiet_iff.mp ht).2 c (by simp)

lemma Becomes.clear (id id' : NodeId) (d : Bool) (dk : Option (VTree (h + 1)))
    (ps : List Key) (b : Buffer) :
    Becomes q (Cell.known id d dk (Body.node ps ([] : List (Live h)) b))
      (Cell.known id' true none (Body.leaf OrdMap.empty)) where
  good p hg := by
    obtain ⟨hx, hr, -, -⟩ := hg.body
    have hb : b = OrdMap.empty := by
      rcases ((Tree.valid_node none).mp hx.1).2.2 with ⟨-, -, hb⟩ | hK
      · exact hb
      · exact absurd rfl hK.ne_nil
    refine ⟨(Live.good_dirty none _).mpr fun k _ _ => inRange_none k, fun k => ?_,
      fun k s _ => ?_, ?_⟩
    · rw [← hr k]
      cases ps <;> simp [hb, Tree.resolve_node, childAt]
    · rw [Live.view_dirty, Body.view_leaf, Tree.below_leaf]
      simp
    · simp
  sound P _ _ := ⟨by simp, by simp, trivial⟩
  closed _ _ := ⟨by simp, trivial⟩
  quiet _ := trivial

end Becomes

namespace Engine
variable {π St : Type} [NodeStore St]

/-- What growing the tree does with the outcome of settling the root. -/
def growOn (pick : Pick π St) (fuel thr : ℕ) (tr : Bool) (n : ℕ) (root : NodeId) :
    Outcome → Act π St Unit
  | .removed => do
    let new ← alloc (.leaf OrdMap.empty)
    setRoot new
    releaseSlot root
  | .splits [] => pure ()
  | .splits promoted => do
    let new ← alloc (.internal (promoted.map Prod.fst) (root :: promoted.map Prod.snd) OrdMap.empty)
    setRoot new
    growLoop pick fuel thr tr n

end Engine

/-- Ready to be flushed: there are children and they are at rest. -/
def Body.Ready (prm : Params) {h : ℕ} (x : Body h) : Prop :=
  match h, x with
  | 0, _ => True
  | _ + 1, x => x.kids ≠ [] ∧ ∀ c ∈ x.kids, (Live.plain c).Rest prm

section Grow
variable {π : Type} {pick : Engine.Pick π Ideal} {q tr : Bool} {thr : ℕ} {h : ℕ}

structure Moves (F F' : Foot) (e e' : Engine π Ideal) : Prop where
  shifts : Shifts e.store e'.store F F'
  params : e'.params = e.params
  nextSeq : e'.nextSeq = e.nextSeq
  ops : e'.opsSinceCommit = e.opsSinceCommit

lemma Moves.trans {F F' F'' : Foot} {e e' e'' : Engine π Ideal} (h₁ : Moves F F' e e')
    (h₂ : Moves F' F'' e' e'') : Moves F F'' e e'' :=
  ⟨h₁.shifts.trans h₂.shifts, h₂.params.trans h₁.params, h₂.nextSeq.trans h₁.nextSeq,
    h₂.ops.trans h₁.ops⟩

lemma Goes.moves {pins : List NodeId} {F F' : Foot} {e e' : Engine π Ideal}
    (hg : Goes pins F F' e e') :
    Moves F F' e e' :=
  ⟨hg.shifts, hg.params, congrArg (fun f => f.2.2.1) hg.fixed, congrArg (fun f => f.2.2.2) hg.fixed⟩

lemma Goes.root {pins : List NodeId} {F F' : Foot} {e e' : Engine π Ideal}
    (hg : Goes pins F F' e e') :
    e'.root = e.root := congrArg (fun f => f.2.1) hg.fixed

/-- A run ends with a root in memory, at rest, that the old tree may become. -/
def Settles (q : Bool) (quiet : Prop) (t : Live h) (e e' : Engine π Ideal) : Prop :=
  ∃ (h' : ℕ) (id : NodeId) (d : Bool) (dk : Option (VTree h')) (x : Body h'),
    Becomes q t (Cell.known id d dk x) ∧ e'.root = id ∧ Resident e'.store id d ∧
    Moves (Live.foot t) (Live.foot (Cell.known id d dk x)) e e' ∧ (x.plain d).RootRest e.params ∧
    (quiet → (x.plain d).Quiet)

lemma Settles.after {h' : ℕ} {quiet : Prop} {t : Live h} {t' : Live h'} {e e' e'' : Engine π Ideal}
    (hb : Becomes q t t') (hm : Moves (Live.foot t) (Live.foot t') e e')
    (hs : Settles q quiet t' e' e'') :
    Settles q quiet t e e'' := by
  obtain ⟨h'', id, d, dk, x, hb', hroot, hres, hm', hrest, hquiet⟩ := hs
  exact ⟨h'', id, d, dk, x, hb.trans hb', hroot, hres, hm.trans hm', hm.params ▸ hrest, hquiet⟩

lemma newRoot_run {e : Engine π Ideal} {F : Foot} (n : Node) (hF : Stored e.store F) :
    ∃ e', (Engine.alloc n >>= Engine.setRoot) e = .ok () e' ∧ e'.root = e.store.next ∧
      Moves F ((e.store.next, .loaded n true none) :: F) e e' :=
  ⟨_, rfl, rfl, hF.alloc _, rfl, rfl, rfl⟩

lemma grow_clear {e : Engine π Ideal} {id : NodeId} {d : Bool} {dk : Option (VTree (h + 1))}
    {ps : List Key} {b : Buffer} (thr : ℕ) (tr : Bool) (quiet : Prop)
    (hF : Stored e.store (Live.foot (Cell.known id d dk (Body.node ps ([] : List (Live h)) b)))) :
    ∃ e', (∀ fuel n, Engine.growOn pick fuel thr tr n id .removed e = .ok () e') ∧
      Settles q quiet (Cell.known id d dk (Body.node ps ([] : List (Live h)) b)) e e' := by
  obtain ⟨e₁, hrun, hroot, hm⟩ := newRoot_run (.leaf OrdMap.empty) hF
  have hF₁ := hm.shifts.stored.perm (List.Perm.swap _ _ _)
  have h₂ := (hF₁.release).perm (List.Perm.swap _ _ _) (List.Perm.refl _)
  refine ⟨e₁.on (e₁.store.put id none), fun fuel n => ?_, 0, e.store.next, true, none,
    Body.leaf OrdMap.empty,
    Becomes.clear .., hroot, Or.inl rfl, ?_, Nat.zero_le _, fun _ => trivial⟩
  · have : Engine.growOn pick fuel thr tr n id .removed =
        ((Engine.alloc (.leaf OrdMap.empty) >>= Engine.setRoot) >>= fun _ => Engine.releaseSlot id :
          Engine.Act π Ideal Unit) := by
      rw [bind_assoc]
      rfl
    rw [this, Engine.run_bind hrun]
    exact release_run (hF₁.slots _ (List.mem_cons_self ..))
  · exact hm.trans ⟨h₂, rfl, rfl, rfl⟩

variable {e : Engine π Ideal} {id : NodeId} {d : Bool}

lemma growLoop_eq {fuel n : ℕ} {m : Engine.Act π Ideal Outcome} {e' : Engine π Ideal}
    (hroot : e.root = id)
    (hs : Engine.settleRoot pick fuel thr tr id e = m e') :
    Engine.growLoop pick fuel thr tr (n + 1) e = (m >>= Engine.growOn pick fuel thr tr n id)
      e' := by
  have hgrow : Engine.growLoop pick fuel thr tr (n + 1) e =
      (Engine.settleRoot pick fuel thr tr id >>= Engine.growOn pick fuel thr tr n id) e := by
    rw [Engine.growLoop, Engine.run_bind Engine.run_get, hroot]
    congr 2
  rw [hgrow]
  change EStateM.bind _ _ _ = EStateM.bind _ _ _
  simp only [EStateM.bind, hs]

lemma settleRoot_eq {dk : Option (VTree (h + 1))} {ps : List Key} {cs : List (Live h)} {b : Buffer}
    {e' : Engine π Ideal} {fuel c : ℕ} (hf : Flushing q thr e id d dk ps cs b)
    (hrun : Engine.flushLoop pick fuel thr tr fuel [id] e = Engine.conclude pick fuel thr
      tr c id [] e') :
    Engine.settleRoot pick fuel thr tr id e = Engine.settle id e' := by
  have hconc :
    Engine.conclude pick fuel thr tr c id [] = (Engine.settle id : Engine.Act π Ideal Outcome) :=
    bind_pure _
  unfold Engine.settleRoot
  rw [Engine.run_bind hf.load, ← hconc]
  exact hrun

lemma grow_split {dk : Option (VTree h)} {x y : Body h} {xs : List (Body h)} {ps : List Key}
    {ids : List NodeId} (tr : Bool) (hprm : e.params.Legal) (hg : x.Good false none none)
    (hS : Live.Sound (fun _ d => d.Labelled) (Cell.known id d dk x))
    (hs : q = true ∨ thr ≠ 0 ∨ (x.plain d).DrainSafe (fun _ => False) none none)
    (hcap : thr ≤ e.params.bufferCapacity.toNat) (hps : ps.length = xs.length)
    (hids : ids.length = xs.length)
    (hne : xs ≠ []) (hp : Body.Pieces x ps (y :: xs)) (hfit : ∀ z ∈ y :: xs, z.Fits e.params)
    (hk : x.KidsRest e.params) (hq : thr = 0 → (x.plain true).Quiet)
    (hF : Stored e.store
      (Live.foot (Cell.known id true dk y) ++ (freshCells ids xs).flatMap Live.foot)) :
    ∃ e' new, (∀ fuel n, Engine.growOn pick fuel thr tr n id (.splits (ps.zip ids)) e =
        Engine.growLoop pick fuel thr tr n e') ∧ e'.root = new ∧
      Becomes q (Cell.known id d dk x) (Cell.known new true none
        (Body.node ps (Cell.known id true dk y :: freshCells ids xs) OrdMap.empty)) ∧
      Flushing q thr e' new true none ps
        (Cell.known id true dk y :: freshCells ids xs) OrdMap.empty ∧
      (thr = 0 → ∀ c ∈ Cell.known id true dk y :: freshCells ids xs, (Live.plain c).Quiet) ∧
      Moves (Live.foot (Cell.known id true dk y) ++ (freshCells ids xs).flatMap Live.foot)
        (Live.foot (Cell.known new true none
          (Body.node ps (Cell.known id true dk y :: freshCells ids xs) OrdMap.empty))) e e' := by
  have hnode : Node.internal ((ps.zip ids).map Prod.fst)
    (id :: (ps.zip ids).map Prod.snd) OrdMap.empty =
      (Body.node ps (Cell.known id true dk y :: freshCells ids xs) OrdMap.empty).toNode := by
    rw [List.map_fst_zip (by omega), List.map_snd_zip (by omega), Body.toNode_node, List.map_cons,
      ids_freshCells hids]
    rfl
  obtain ⟨e', hrun, hroot, hm⟩ := newRoot_run
    (.internal ((ps.zip ids).map Prod.fst) (id :: (ps.zip ids).map Prod.snd) OrdMap.empty) hF
  rw [hnode] at hm
  have hturn : Turns q (Body.node ([] ++ []) ([] ++ Cell.known id true dk x :: []) OrdMap.empty)
      (Body.node ([] ++ ps ++ []) ([] ++ (Cell.known id true dk y :: freshCells ids xs) ++ [])
        OrdMap.empty) :=
    Turns.split rfl hp hids
  simp only [List.nil_append, List.append_nil] at hturn
  have hwrap : Becomes q (Cell.known id d dk x) (Cell.known e.store.next true none
      (Body.node [] [Cell.known id true dk x] OrdMap.empty)) :=
    (Leads.touch q id d dk x).becomes.trans (Becomes.wrap _ _)
  have hbec := hwrap.trans hturn.leads.becomes
  have hgood : Live.Good false none none (Cell.known id d dk x) := ⟨hg, by simp⟩
  have hsplit : ∀ c ∈ (Cell.known id true dk y :: freshCells ids xs : List (Live h)), SplitOf
    e.params x c := by
    intro c hc
    rcases List.mem_cons.mp hc with rfl | hc
    · exact splitOf_piece hp hfit (by simp)
    · obtain ⟨i, -, z, hz, rfl⟩ := mem_freshCells hc
      exact splitOf_piece hp hfit (by simp [hz])
  refine ⟨e', e.store.next, fun fuel n => ?_, hroot, hbec,
    ⟨?_, Or.inl rfl, ?_, ?_, ?_, by simp, ?_, ?_⟩,
    fun h0 c hc => (hsplit c hc).quiet (hq h0), hm⟩
  · obtain ⟨z, zs, hz⟩ : ∃ z zs, ps.zip ids = z :: zs := by
      refine List.exists_cons_of_length_pos ?_
      rw [List.length_zip, hps, hids, min_self]
      exact List.length_pos_iff.mpr hne
    have : Engine.growOn pick fuel thr tr n id (.splits (ps.zip ids)) =
        ((Engine.alloc (.internal ((ps.zip ids).map Prod.fst) (id :: (ps.zip ids).map Prod.snd)
          OrdMap.empty) >>=
          Engine.setRoot) >>= fun _ => Engine.growLoop pick fuel thr tr n :
            Engine.Act π Ideal Unit) := by
      rw [bind_assoc, hz]
      rfl
    rw [this, Engine.run_bind hrun]
  · exact hm.shifts.stored
  · exact ⟨⟨none, none, (hbec.good false hgood).1⟩, hbec.sound _ hereditary_labelled hS⟩
  · refine hs.imp_right (Or.imp_right fun hsafe => ⟨none, none, (hbec.good false hgood).1.1, ?_⟩)
    have htouch := (Leads.touch q id d dk x).safe _ none none hgood hsafe
    exact hturn.safe _ none none (hwrap.good false hgood).1.1
      (drainSafe_node (htouch.imp fun _ _ hB => hB.elim))
  · intro c hc
    rw [hm.params]
    exact (hsplit c hc).rest hk
  · rw [hm.params]
    exact hprm
  · rw [hm.params]
    exact hcap

/-- The end of growing the tree from a settled root. -/
def GrowEnds (q : Bool) (thr : ℕ) (t : Live h) (e : Engine π Ideal)
    (run : ℕ → ℕ → EStateM.Result Fault (Engine π Ideal) Unit) : Prop :=
  ∃ e' N, Settles q (thr = 0) t e e' ∧ ∀ fuel ≥ N, ∀ n ≥ N, run fuel n = .ok () e'

lemma grow_again (tr : Bool) (hpick : PickSpec pick) {dk : Option (VTree (h + 1))} {ps : List Key}
    {cs : List (Live h)}
    {b : Buffer} (hf : Flushing q thr e id d dk ps cs b) (hroot : e.root = id)
    (hg : (Body.node ps cs b).Good false none none) (hle : b.size ≤ thr)
    (hq : thr = 0 → ∀ c ∈ cs, (Live.plain c).Quiet)
    (hnext : ∀ (e' : Engine π Ideal) (cs' : List (Live h)), cs'.length = cs.length →
      Flushing q thr e' id d dk ps cs' b → e'.root = id →
      (Body.node ps cs' b).Good false none none → (thr = 0 → ∀ c ∈ cs', (Live.plain c).Quiet) →
      GrowEnds q thr (Cell.known id d dk (Body.node ps cs' b)) e'
        fun fuel n => (Engine.settle id >>= Engine.growOn pick fuel thr tr n id) e') :
    GrowEnds q thr (Cell.known id d dk (Body.node ps cs b)) e fun fuel n =>
    Engine.growLoop pick fuel thr tr n e := by
  obtain ⟨e₁, cs₁, N₁, hrun₁, hf₁, hlen₁, hq₁, hlead, hgo⟩ := flush_calm [] hf hle hq
    (flushSpec hpick : FlushSpec pick q thr tr h)
  obtain ⟨e', N, hset, hrun⟩ := hnext e₁ cs₁ hlen₁ hf₁ (hgo.root.trans hroot)
    (hlead.good false none none ⟨hg, by simp⟩).1.1 hq₁
  refine ⟨e', max N N₁ + 1, hset.after hlead.becomes hgo.moves, fun fuel hfuel n hn => ?_⟩
  obtain ⟨n, rfl⟩ : ∃ n', n = n' + 1 := ⟨n - 1, by omega⟩
  obtain ⟨c, rfl⟩ : ∃ c, fuel = c + 1 := ⟨fuel - 1, by omega⟩
  beta_reduce
  rw [growLoop_eq hroot (settleRoot_eq hf (hrun₁ (c + 1) (by omega) c))]
  exact hrun (c + 1) (by omega) n (by omega)

/-- Once the root's messages are out of the way, growing the tree ends. -/
theorem grow_calm (tr : Bool) (hpick : PickSpec pick) {dk : Option (VTree (h + 1))} {ps : List Key}
    {cs : List (Live h)} {b : Buffer} (hf : Flushing q thr e id d dk ps cs b) (hroot : e.root = id)
    (hg : (Body.node ps cs b).Good false none none) (hle : b.size ≤ thr)
    (hq : thr = 0 → ∀ c ∈ cs, (Live.plain c).Quiet) :
    GrowEnds q thr (Cell.known id d dk (Body.node ps cs b)) e
      fun fuel n => (Engine.settle id >>= Engine.growOn pick fuel thr tr n id) e := by
  -- each split leaves fewer pieces than there were children
  induction hn : cs.length using Nat.strong_induction_on generalizing h e id d dk ps cs b with
  | _ m hrec =>
    subst hn
    have hgood : Live.Good false none none (Cell.known id d dk (Body.node ps cs b)) := ⟨hg, by simp⟩
    have hquiet : thr = 0 → ((Body.node ps cs b).plain true).Quiet := fun h0 =>
      Body.quiet_iff.mpr ⟨OrdMap.size_eq_zero.mp (Nat.le_zero.mp (h0 ▸ hle)), hq h0⟩
    by_cases hne : cs = []
    · subst hne
      obtain ⟨e', hrun, hset⟩ := grow_clear (q := q) thr tr (thr = 0) hf.stored
      refine ⟨e', 0, hset, fun fuel _ n _ => ?_⟩
      have hsettle : Engine.settle id e = .ok .removed e := by
        unfold Engine.settle
        rw [Engine.run_bind hf.load]
        rfl
      beta_reduce
      rw [Engine.run_bind hsettle, hrun]
    have hkids : (Body.node ps cs b).KidsRest e.params := ⟨hle.trans hf.cap, hf.rest⟩
    obtain ⟨e₁, qs, y, xs, ids, d', hrun, hps, hids, hp, hfit, hcase, hwide, hgo⟩ :=
      splitIfNeeded_run [id] hf.legal hf.stored hf.resident hg hne
    have hsettle : Engine.settle id e = .ok (.splits (qs.zip ids)) e₁ := by
      unfold Engine.settle
      rw [Engine.run_bind hf.load]
      cases cs with
      | nil => exact absurd rfl hne
      | cons c cs => exact Engine.run_bind hrun
    by_cases hxs : xs = []
    · subst hxs
      obtain rfl : qs = [] := by simpa using hps
      obtain rfl : ids = [] := by simpa using hids
      obtain rfl : y = Body.node ps cs b := by
        cases hp
        rfl
      obtain rfl : d' = d := by simpa using hcase
      refine ⟨e₁, 0, ⟨h + 1, id, d', dk, Body.node ps cs b, (Leads.refl q _).becomes, ?_, ?_,
        ?_, ?_, ?_⟩, ?_⟩
      · rw [hgo.root, hroot]
      · exact hf.resident.imp_right (hgo.kept id (by simp))
      · simpa [freshCells] using hgo.moves
      · exact (hkids.rest (hfit _ (by simp)) d').rootRest
      · exact fun h0 => Body.quiet_plain.mp (hquiet h0)
      · intro fuel _ n _
        beta_reduce
        rw [Engine.run_bind hsettle]
        rfl
    · obtain rfl : d' = true := by simpa [hxs] using hcase
      have hsafe :
        q = true ∨ thr ≠ 0 ∨ ((Body.node ps cs b).plain d).DrainSafe (fun _ => False) none
          none := by
        refine hf.safe.imp_right (Or.imp_right ?_)
        rintro ⟨lo, hi, -, hs⟩
        exact hs.widen ⟨by simp, by simp⟩
      obtain ⟨e₂, new, hrun₂, hroot₂, hbec, hf₂, hq₂, hm₂⟩ :=
        grow_split tr (hgo.params ▸ hf.legal) hg
        hf.sane.sound hsafe (hgo.params ▸ hf.cap) hps hids hxs hp (hgo.params ▸ hfit)
          (hgo.params ▸ hkids)
        hquiet hgo.stored
      have hfresh : (freshCells ids xs : List (Live (h + 1))).length = xs.length := by
        rw [← hids, ← List.length_map (f := Cell.id), ids_freshCells hids]
      obtain ⟨e', N, hset, hrun'⟩ :=
        grow_again tr hpick hf₂ hroot₂ (hbec.good false hgood).1.1 (Nat.zero_le _)
        hq₂ fun e₃ cs₃ hlen₃ hf₃ hroot₃ hg₃ hq₃ => hrec _ (by
          rw [hlen₃, List.length_cons, hfresh]
          exact hwide hxs) hf₃ hroot₃ hg₃ (Nat.zero_le _) hq₃ rfl
      refine ⟨e', N, hset.after hbec (hgo.moves.trans hm₂), fun fuel hfuel n hn => ?_⟩
      beta_reduce
      rw [Engine.run_bind hsettle, hrun₂]
      exact hrun' fuel hfuel n hn

/-- A root in memory whose children are at rest. -/
structure RootReady (q : Bool) (thr : ℕ) (e : Engine π Ideal) (id : NodeId) (d : Bool)
    (dk : Option (VTree h))
    (x : Body h) : Prop where
  root : e.root = id
  stored : Stored e.store (Live.foot (Cell.known id d dk x))
  resident : Resident e.store id d
  good : x.Good false none none
  sound : Live.Sound (fun _ d => d.Labelled) (Cell.known id d dk x)
  kids : x.Ready e.params
  safe : q = true ∨ thr ≠ 0 ∨ (x.plain d).DrainSafe (fun _ => False) none none
  legal : e.params.Legal
  cap : thr ≤ e.params.bufferCapacity.toNat

lemma grow_leaf (hpick : PickSpec pick) {dk : Option (VTree 0)} {es : Entries}
    (hr : RootReady q thr e id d dk (Body.leaf es)) :
    GrowEnds q thr (Cell.known id d dk (Body.leaf es)) e fun fuel n =>
    Engine.growLoop pick fuel thr tr n e := by
  have hload : Engine.loaded id e = .ok (.leaf es) e := loaded_run hr.stored.top hr.resident
  have hgood : Live.Good false none none (Cell.known id d dk (Body.leaf es)) := ⟨hr.good, by simp⟩
  have hsettle : ∀ fuel {promoted e₁}, Engine.splitIfNeeded id e = .ok promoted e₁ →
      Engine.settleRoot pick fuel thr tr id e = .ok (.splits promoted) e₁ := by
    intro fuel promoted e₁ hrun
    unfold Engine.settleRoot
    rw [Engine.run_bind hload]
    exact Engine.run_bind hrun
  have hstay :
    ∀ {e₁ : Engine π Ideal} {dk : Option (VTree 0)}, Engine.splitIfNeeded id e = .ok [] e₁ →
      Settles q (thr = 0) (Cell.known id d dk (Body.leaf es)) e e₁ → GrowEnds q thr
        (Cell.known id d dk (Body.leaf es)) e fun fuel n =>
          Engine.growLoop pick fuel thr tr n e := by
    intro e₁ dk hrun hset
    refine ⟨e₁, 1, hset, fun fuel _ n hn => ?_⟩
    obtain ⟨n, rfl⟩ : ∃ n', n = n' + 1 := ⟨n - 1, by omega⟩
    beta_reduce
    rw [growLoop_eq hr.root
      ((hsettle fuel hrun).trans
        (show _ = (fun _ => .ok (.splits []) e₁ : Engine.Act π Ideal Outcome) e from rfl))]
    rfl
  by_cases hes : es = OrdMap.empty
  · subst hes
    have hrun : Engine.splitIfNeeded id e = .ok [] e := by
      unfold Engine.splitIfNeeded
      rw [Engine.run_bind hload]
      rfl
    exact hstay hrun ⟨0, id, d, dk, Body.leaf OrdMap.empty, (Leads.refl q _).becomes,
      hr.root, hr.resident,
      (Goes.refl hr.stored : Goes [] _ _ e e).moves, Nat.zero_le _, fun _ => trivial⟩
  · obtain ⟨e₁, qs, y, xs, ids, d', hrun, hps, hids, hp, hfit, hcase, -, hgo⟩ :=
      splitIfNeeded_run [id] hr.legal hr.stored hr.resident hr.good hes
    by_cases hxs : xs = []
    · subst hxs
      obtain rfl : qs = [] := by simpa using hps
      obtain rfl : ids = [] := by simpa using hids
      have hy : Body.leaf es = y := by
        cases hp
        rfl
      subst hy
      obtain rfl : d' = d := by simpa using hcase
      refine hstay hrun ⟨0, id, d', dk, Body.leaf es, (Leads.refl q _).becomes,
        hgo.root.trans hr.root,
        hr.resident.imp_right (hgo.kept id (by simp)), ?_, (hfit (Body.leaf es) (by simp)).2,
          fun _ => trivial⟩
      simpa [freshCells] using hgo.moves
    · obtain rfl : d' = true := by simpa [hxs] using hcase
      obtain ⟨e₂, new, hrun₂, hroot₂, hbec, hf₂, hq₂, hm₂⟩ := grow_split tr (hgo.params ▸ hr.legal)
        hr.good hr.sound hr.safe (hgo.params ▸ hr.cap) hps hids hxs hp (hgo.params ▸ hfit) trivial
        (fun _ => trivial) hgo.stored
      obtain ⟨e', N, hset, hrun'⟩ :=
        grow_again tr hpick hf₂ hroot₂ (hbec.good false hgood).1.1 (Nat.zero_le _)
        hq₂ fun e₃ cs₃ _ hf₃ hroot₃ hg₃ hq₃ => grow_calm tr hpick hf₃ hroot₃ hg₃ (Nat.zero_le _) hq₃
      refine ⟨e', N + 1, hset.after hbec (hgo.moves.trans hm₂), fun fuel hfuel n hn => ?_⟩
      obtain ⟨n, rfl⟩ : ∃ n', n = n' + 1 := ⟨n - 1, by omega⟩
      beta_reduce
      rw [growLoop_eq hr.root
        ((hsettle fuel hrun).trans
          (show _ = (fun _ => .ok (.splits (qs.zip ids)) e₁ : Engine.Act π Ideal Outcome) e
            from rfl))]
      refine (hrun₂ fuel n).trans (hrun' fuel (by omega) n (by omega))

/-- Growing the tree settles the root. -/
theorem grow_run (tr : Bool) (hpick : PickSpec pick) {dk : Option (VTree h)} {x : Body h}
    (hr : RootReady q thr e id d dk x) :
    GrowEnds q thr (Cell.known id d dk x) e fun fuel n => Engine.growLoop pick fuel thr tr n e := by
  cases h with
  | zero => exact grow_leaf hpick hr
  | succ h =>
    induction x using Body.succCases with
    | hn ps cs b =>
      have hgood : Live.Good false none none (Cell.known id d dk (Body.node ps cs b)) :=
        ⟨hr.good, by simp⟩
      have hf : Flushing q thr e id d dk ps cs b := {
        stored := hr.stored
        resident := hr.resident
        sane := ⟨⟨none, none, hgood⟩, hr.sound⟩
        safe := hr.safe.imp_right (Or.imp_right fun hs => ⟨none, none, hr.good, hs⟩)
        rest := hr.kids.2
        bare := fun h0 => absurd h0 hr.kids.1
        legal := hr.legal
        cap := hr.cap }
      obtain ⟨e₁, d₁, ps₁, cs₁, b₁, n₁, N₁, hrun₁, hf₁, hle, hq, hlead, hgo⟩ :=
        (flushSpec hpick : FlushSpec pick q thr tr (h + 1)) e id d dk ps cs b [] hf
      obtain ⟨e', N, hset, hrun⟩ := grow_calm tr hpick hf₁ (hgo.root.trans hr.root)
        (hlead.good false none none hgood).1.1 hle hq
      refine ⟨e', N + N₁ + n₁ + 1, hset.after hlead.becomes hgo.moves, fun fuel hfuel n hn => ?_⟩
      obtain ⟨n, rfl⟩ : ∃ n', n = n' + 1 := ⟨n - 1, by omega⟩
      obtain ⟨c, rfl⟩ : ∃ c, fuel = c + n₁ := ⟨fuel - n₁, by omega⟩
      beta_reduce
      rw [growLoop_eq hr.root (settleRoot_eq hf (hrun₁ (c + n₁) (by omega) c))]
      exact hrun (c + n₁) (by omega) n (by omega)

end Grow

section Collapse
variable {π : Type} {q : Bool} {h : ℕ} {quiet : Prop} {e : Engine π Ideal} {id : NodeId} {d : Bool}

/-- One step of the collapse: a lone child becomes the root and is loaded. -/
lemma collapse_step {dk : Option (VTree (h + 1))} {c : Live h} (hroot : e.root = id)
    (hF : Stored e.store (Live.foot (Cell.known id d dk (Body.node [] [c] OrdMap.empty))))
    (hd : Resident e.store id d) (hS : Live.Sound (fun _ d => d.Labelled) c) :
    ∃ e' cd cdk y, (∀ n, Engine.collapseLoop (n + 1) e = Engine.collapseLoop n e') ∧
      Opens c (Cell.known c.id cd cdk y) ∧ e'.root = c.id ∧ Resident e'.store c.id cd ∧
      Moves (Live.foot (Cell.known id d dk (Body.node [] [c] OrdMap.empty)))
        (Live.foot (Cell.known c.id cd cdk y)) e e' := by
  have hrel : Shifts e.store (e.store.put id none)
      (Live.foot (Cell.known id d dk (Body.node [] [c] OrdMap.empty))) (Live.foot c) := by
    rw [Live.foot_known, Body.foot_node, List.flatMap_singleton] at hF ⊢
    exact hF.release
  obtain ⟨e', cd, cdk, y, hrun, hopen, hgo, hres⟩ := ensureLoaded_run (t := c)
    (e := ({ e with root := c.id } : Engine π Ideal).on (e.store.put id none)) [] hrel.stored hS
  refine ⟨e', cd, cdk, y, fun n => ?_, hopen, hgo.root, hres, ?_⟩
  · have hload : Engine.loaded e.root e = .ok (.internal [] [c.id] OrdMap.empty) e := by
      rw [hroot]
      exact loaded_run hF.top hd
    have hset : Engine.setRoot c.id e = .ok () { e with root := c.id } := rfl
    have hfree : Engine.releaseSlot e.root ({ e with root := c.id } : Engine π Ideal) =
        .ok () (({ e with root := c.id } : Engine π Ideal).on (e.store.put id none)) := by
      rw [hroot]
      exact release_run (e := { e with root := c.id }) hF.top
    rw [Engine.collapseLoop, Engine.run_bind Engine.run_get, Engine.run_bind hload]
    simp only
    rw [if_pos (show (OrdMap.empty : Buffer).isEmpty = true from rfl), Engine.run_bind hset,
      Engine.run_bind hfree,
      Engine.run_bind hrun]
  · have hm : Moves (Live.foot (Cell.known id d dk (Body.node [] [c] OrdMap.empty))) (Live.foot c) e
        (({ e with root := c.id } : Engine π Ideal).on (e.store.put id none)) :=
          ⟨hrel, rfl, rfl, rfl⟩
    exact hm.trans hgo.moves

lemma collapse_stop {dk : Option (VTree h)} {x : Body h} (hroot : e.root = id)
    (hF : Stored e.store (Live.foot (Cell.known id d dk x))) (hd : Resident e.store id d)
    (hx : ∀ ps c, x.toNode ≠ .internal ps [c] OrdMap.empty) (n : ℕ) :
    Engine.collapseLoop (n + 1) e = .ok () e := by
  have hload : Engine.loaded e.root e = .ok x.toNode e := by
    rw [hroot]
    exact loaded_run hF.top hd
  rw [Engine.collapseLoop, Engine.run_bind Engine.run_get, Engine.run_bind hload]
  match hn : x.toNode with
  | .leaf _ => rfl
  | .internal _ [] _ => rfl
  | .internal _ (_ :: _ :: _) _ => rfl
  | .internal ps [c] b =>
    have hb : b.isEmpty = false := by
      refine Bool.eq_false_iff.mpr fun h0 => hx ps c ?_
      rw [hn, OrdMap.isEmpty_iff.mp h0]
    simp [hb]

/-- The collapse ends at a root with several children or with messages. -/
theorem collapse_run {dk : Option (VTree h)} {x : Body h} (hroot : e.root = id)
    (hF : Stored e.store (Live.foot (Cell.known id d dk x))) (hd : Resident e.store id d)
    (hg : x.Good false none none) (hS : Live.Sound (fun _ d => d.Labelled) (Cell.known id d dk x))
    (hrest : (x.plain d).RootRest e.params) (hq : quiet → (x.plain d).Quiet) :
    ∃ e' N, Settles q quiet (Cell.known id d dk x) e e' ∧
    ∀ n ≥ N, Engine.collapseLoop n e = .ok () e' := by
  by_cases hx : ∃ ps c, x.toNode = .internal ps [c] OrdMap.empty
  · induction h generalizing e id d with
    | zero =>
      obtain ⟨ps, c, hn⟩ := hx
      cases hn
    | succ h ih =>
      induction x using Body.succCases with
      | hn ps cs b =>
        obtain ⟨ps', cid, hn⟩ := hx
        rw [Body.toNode_node, Node.internal.injEq] at hn
        obtain ⟨-, hcs, rfl⟩ := hn
        obtain ⟨c, rfl⟩ : ∃ c, cs = [c] := by
          match cs, hcs with
          | [c], _ => exact ⟨c, rfl⟩
        obtain rfl : ps = [] := by
          have := (hg.pivots (by simp)).2
          simpa using this.symm
        obtain ⟨e₁, cd, cdk, y, hrun, hopen, hroot₁, hres, hm⟩ := collapse_step hroot hF hd
          (Body.sound_node.mp hS.2.2 c (by simp))
        have hbec : Becomes q (Cell.known id d dk (Body.node [] [c] OrdMap.empty))
          (Cell.known c.id cd cdk y) :=
          (Becomes.unwrap id d dk c).trans hopen.leads.weaken.becomes
        have hg₁ := (hbec.good false ⟨hg, by simp⟩).1.1
        have hS₁ := hbec.sound _ hereditary_labelled hS
        have hrest₁ : (y.plain cd).RootRest e₁.params := by
          have hc : (Live.plain c).Rest e.params :=
            hrest.2.2.2 _ (by simp [Body.plain_node, Tree.node])
          rw [← hopen.plain, Live.plain_known] at hc
          exact hm.params ▸ hc.rootRest
        have hq₁ : quiet → (y.plain cd).Quiet := fun h0 => hbec.quiet (hq h0)
        by_cases hy : ∃ ps c, y.toNode = .internal ps [c] OrdMap.empty
        · obtain ⟨e', N, hset, hrun'⟩ := ih hroot₁ hm.shifts.stored hres hg₁ hS₁ hrest₁ hq₁ hy
          refine ⟨e', N + 1, hset.after hbec hm, fun n hn => ?_⟩
          obtain ⟨n, rfl⟩ : ∃ n', n = n' + 1 := ⟨n - 1, by omega⟩
          rw [hrun, hrun' n (by omega)]
        · refine ⟨e₁, 2, ⟨h, c.id, cd, cdk, y, hbec, hroot₁, hres, hm, hm.params ▸ hrest₁,
            hq₁⟩, fun n hn => ?_⟩
          obtain ⟨n, rfl⟩ : ∃ n', n = n' + 1 + 1 := ⟨n - 2, by omega⟩
          rw [hrun, collapse_stop hroot₁ hm.shifts.stored hres (by simpa using hy)]
  · refine ⟨e, 1, ⟨h, id, d, dk, x, (Leads.refl q _).becomes, hroot, hd,
      (Goes.refl hF : Goes [] _ _ e e).moves, hrest, hq⟩,
      fun n hn => ?_⟩
    obtain ⟨n, rfl⟩ : ∃ n', n = n' + 1 := ⟨n - 1, by omega⟩
    exact collapse_stop hroot hF hd (by simpa using hx) n

/-- Restoring the root settles the whole tree. -/
theorem restoreRoot_run {pick : Engine.Pick π Ideal} (hpick : PickSpec pick) {thr : ℕ} (tr : Bool)
    {dk : Option (VTree h)} {x : Body h}
    (hr : RootReady q thr e id d dk x) :
    ∃ e' N, Settles q (thr = 0) (Cell.known id d dk x) e e' ∧
      ∀ fuel ≥ N, Engine.restoreRootBy pick fuel thr tr e = .ok () e' := by
  obtain ⟨e₁, N₁, ⟨h₁, id₁, d₁, dk₁, x₁, hbec, hroot, hres, hm, hrest, hq⟩, hrun₁⟩ :=
    grow_run tr hpick hr
  have hg := (hbec.good false ⟨hr.good, by simp⟩).1.1
  obtain ⟨e₂, N₂, hset, hrun₂⟩ := collapse_run (q := q) hroot hm.shifts.stored hres hg
    (hbec.sound _ hereditary_labelled hr.sound) (hm.params ▸ hrest) hq
  refine ⟨e₂, max N₁ N₂, hset.after hbec hm, fun fuel hf => ?_⟩
  unfold Engine.restoreRootBy
  rw [Engine.run_bind (hrun₁ fuel (le_of_max_le_left hf) fuel (le_of_max_le_left hf)),
    hrun₂ fuel (le_of_max_le_right hf)]

end Collapse
end Beetree
