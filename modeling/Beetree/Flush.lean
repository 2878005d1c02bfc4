import Beetree.Descent

/-! The cascade settles every buffer it opens.

A flush of a node empties its buffer down to the threshold and, when draining, everything below it.
It is a recursion on the height that the code runs as a loop over a stack. -/
namespace Beetree
open Engine (Pick flushLoop)

namespace Engine
variable {π St : Type} [NodeStore St]

def conclude (pick : Pick π St) (fuel thr : ℕ) (tr : Bool) (c : ℕ) (top : NodeId)
    (below : List NodeId) : Act π St Outcome := do
  let outcome ← settle top
  match below with
  | [] => pure outcome
  | parent :: _ =>
    absorb parent top outcome
    flushLoop pick fuel thr tr c below

/-- The rest of an iteration once a batch has been delivered to a child. -/
def afterDelivery (pick : Pick π St) (fuel thr : ℕ) (tr : Bool) (c : ℕ) (top childId : NodeId)
    (below : List NodeId) :
    Delivery → Act π St Outcome
  | .internal true => flushLoop pick fuel thr tr c (childId :: top :: below)
  | .leaf true => do
    removeChild top childId
    flushLoop pick fuel thr tr c (top :: below)
  | _ => do
    let promoted ← splitIfNeeded childId
    integrateSplits top promoted
    flushLoop pick fuel thr tr c (top :: below)

end Engine

section Absorb
variable {π : Type} {e e' : Engine π Ideal} {h : ℕ} {id cid : NodeId} {d cd : Bool}
  {dk : Option (VTree (h + 1))} {cdk : Option (VTree h)} {ps₁ ps₂ : List Key}
    {cs₁ cs₂ : List (Live h)}
  {y : Body h} {b : Buffer}

/-- A child is handed back to its parent: unlinked if it has become vacant, split if need be. -/
def HandedBack (id cid : NodeId) (y : Body h) (e e' : Engine π Ideal) : Prop :=
  y.Vacant ∧ Engine.removeChild id cid e = .ok () e' ∨
  ¬ y.Vacant ∧ ∃ promoted e₁, Engine.splitIfNeeded cid e = .ok promoted e₁ ∧
    Engine.integrateSplits id promoted e₁ = .ok () e'

theorem handBack_run {pins : List NodeId} (hpin : id ∈ pins) (hprm : e.params.Legal)
    (hl : ps₁.length = cs₁.length)
    (hF : Stored e.store
      (Live.foot
        (Cell.known id d dk (Body.node (ps₁ ++ ps₂) (cs₁ ++ Cell.known cid cd cdk y :: cs₂) b))))
    (hd : Resident e.store id d) (hcd : Resident e.store cid cd) {lo hi : Option Key}
    (hg : (Body.node (ps₁ ++ ps₂) (cs₁ ++ Cell.known cid cd cdk y :: cs₂) b).Good false lo hi)
    (hv : y.Vacant → cd = true) (hb : ∀ k, owns ps₁ ps₂ k → b.get? k = none) :
    ∃ e' d' ps' cells, HandedBack id cid y e e' ∧ (∀ c ∈ cells, SplitOf e.params y c) ∧
      (cells = [] → d' = true) ∧
      Leads false
        (Cell.known id d dk (Body.node (ps₁ ++ ps₂) (cs₁ ++ Cell.known cid cd cdk y :: cs₂) b))
        (Cell.known id d' dk (Body.node ps' (cs₁ ++ cells ++ cs₂) b)) ∧
      Goes pins
        (Live.foot
          (Cell.known id d dk (Body.node (ps₁ ++ ps₂) (cs₁ ++ Cell.known cid cd cdk y :: cs₂) b)))
        (Live.foot (Cell.known id d' dk (Body.node ps' (cs₁ ++ cells ++ cs₂) b))) e e' := by
  by_cases hvac : y.Vacant
  · obtain rfl := hv hvac
    obtain ⟨e', hrun, hlead, hgo⟩ := removeChild_run pins hl hF hd hvac hb
    refine ⟨e', true, dropPivot ps₁ ps₂, [], Or.inl ⟨hvac, hrun⟩, by simp, fun _ => rfl, ?_, ?_⟩
    · simpa using hlead
    · simpa using hgo
  · obtain ⟨promoted, e₁, e', d', ps, cells, hrun, hint, hne, hsplit, hlead, hgo⟩ :=
      integrate_run hpin hprm hl hF hd hcd hg hvac
    exact ⟨e', d', _, cells, Or.inr ⟨hvac, promoted, e₁, hrun, hint⟩, hsplit,
      fun h0 => absurd h0 hne,
      hlead, hgo⟩

lemma conclude_run (pick : Pick π Ideal) {qs : List Key} {ds : List (Live h)} {bb : Buffer}
    (hload : Engine.loaded cid e = .ok (Body.node qs ds bb).toNode e)
    (hy : HandedBack id cid (Body.node qs ds bb) e e') (fuel thr : ℕ) (tr : Bool) (c : ℕ)
    (below : List NodeId) :
    Engine.conclude pick fuel thr tr c cid (id :: below) e = flushLoop pick fuel thr tr c
      (id :: below) e' := by
  unfold Engine.conclude
  rcases hy with ⟨hvac, hrun⟩ | ⟨hvac, promoted, e₁, hrun, hint⟩
  · have hds : ds = [] := hvac
    have hsettle : Engine.settle cid e = .ok .removed e := by
      unfold Engine.settle
      rw [Engine.run_bind hload, hds]
      rfl
    rw [Engine.run_bind hsettle]
    exact Engine.run_bind hrun
  · have hds : ds ≠ [] := hvac
    have hsettle : Engine.settle cid e = .ok (.splits promoted) e₁ := by
      unfold Engine.settle
      rw [Engine.run_bind hload]
      cases ds with
      | nil => exact absurd rfl hds
      | cons c ds => exact Engine.run_bind hrun
    rw [Engine.run_bind hsettle]
    exact Engine.run_bind hint

end Absorb

lemma Goes.params {π : Type} {pins : List NodeId} {F F' : Foot} {e e' : Engine π Ideal}
    (hg : Goes pins F F' e e') : e'.params = e.params := congrArg Prod.fst hg.fixed

lemma traceFlush_run {π : Type} {e : Engine π Ideal} {F : Foot} (pins : List NodeId)
    (tr : Bool) (id : NodeId)
    (occ : List ℕ) (i : ℕ) (hF : Stored e.store F) :
    ∃ e', Engine.traceFlush tr id occ i e = .ok () e' ∧ Goes pins F F e e' := by
  cases tr with
  | false => exact ⟨e, rfl, Goes.refl hF⟩
  | true => exact ⟨_, rfl, Shifts.refl hF, fun _ _ hi => hi, rfl⟩

lemma Body.not_childless_of_rest {h : ℕ} {prm : Params} {y : Body h} {d : Bool}
    (hr : (y.plain d).Rest prm) :
    ¬ y.Childless := by
  cases h with
  | zero => exact fun hc => hc
  | succ h =>
    induction y using Body.succCases with
    | hn ps cs b =>
      rw [Body.plain_node, Tree.rest_node, List.length_map] at hr
      exact List.length_pos_iff.mp hr.2.1

/-- Nothing is on its way to a child once its messages have been delivered. -/
lemma safe_child {h : ℕ} {lo hi : Option Key} {ps₁ ps₂ : List Key}
    {cs₁ cs₂ : List (Live h)} {c : Live h}
    {b : Buffer} {d : Bool} (hl : ps₁.length = cs₁.length)
    (hg : (Body.node (ps₁ ++ ps₂) (cs₁ ++ c :: cs₂) b).Good false lo hi)
    (hs : ((Body.node (ps₁ ++ ps₂) (cs₁ ++ c :: cs₂) b).plain d).DrainSafe (fun _ => False) lo hi)
    (hb : ∀ k, owns ps₁ ps₂ k → b.get? k = none) :
    ∃ m m', Live.Good false m m' c ∧ (Live.plain c).DrainSafe (fun _ => False) m m' := by
  have hK := (kids_good_of_node hg (by simp)).and (Kids.of_safe hs (by simp))
  obtain ⟨m, m', hc, hown, -⟩ := hK.focus hl
  refine ⟨m, m', hc.1, hc.2.imp fun k hk hB => ?_⟩
  have := hb k ((hown k).mp hk).2
  simp [this] at hB

section Flushing
variable {π : Type} {q : Bool} {thr : ℕ} {h : ℕ}

/-- A node in the middle of a flush. Its children are at rest, and it lacks children only if it is
to be unlinked. -/
structure Flushing (q : Bool) (thr : ℕ) (e : Engine π Ideal) (id : NodeId) (d : Bool)
    (dk : Option (VTree (h + 1))) (ps : List Key) (cs : List (Live h)) (b : Buffer) : Prop where
  stored : Stored e.store (Live.foot (Cell.known id d dk (Body.node ps cs b)))
  resident : Resident e.store id d
  sane : Live.Sane (Cell.known id d dk (Body.node ps cs b))
  safe : q = true ∨ thr ≠ 0 ∨ ∃ lo hi, (Body.node ps cs b).Good false lo hi ∧
    ((Body.node ps cs b).plain d).DrainSafe (fun _ => False) lo hi
  rest : ∀ c ∈ cs, (Live.plain c).Rest e.params
  bare : cs = [] → d = true
  legal : e.params.Legal
  cap : thr ≤ e.params.bufferCapacity.toNat

variable {e e' : Engine π Ideal} {id : NodeId} {d d' : Bool} {dk : Option (VTree (h + 1))}
    {ps ps' : List Key}
  {cs cs' : List (Live h)} {b b' : Buffer} {pins : List NodeId}

lemma Flushing.step (hf : Flushing q thr e id d dk ps cs b) (hpin : id ∈ pins)
    (hl : Leads q (Cell.known id d dk (Body.node ps cs b))
      (Cell.known id d' dk (Body.node ps' cs' b')))
    (hg : Goes pins (Live.foot (Cell.known id d dk (Body.node ps cs b)))
      (Live.foot (Cell.known id d' dk (Body.node ps' cs' b'))) e e')
    (hrest : ∀ c ∈ cs', (Live.plain c).Rest e.params) (hbare : cs' = [] → d' = true) :
    Flushing q thr e' id d' dk ps' cs' b' where
  stored := hg.stored
  resident := hf.resident.imp hl.dirty (hg.kept id hpin)
  sane := hl.sane hf.sane
  safe := by
    refine hf.safe.imp_right (Or.imp_right ?_)
    rintro ⟨lo, hi, hgood, hsafe⟩
    have hgood' : Live.Good false lo hi (Cell.known id d dk (Body.node ps cs b)) := ⟨hgood, by simp⟩
    exact ⟨lo, hi, (hl.good false lo hi hgood').1.1, hl.safe _ lo hi hgood' hsafe⟩
  rest := by
    rw [hg.params]
    exact hrest
  bare := hbare
  legal := by
    rw [hg.params]
    exact hf.legal
  cap := by
    rw [hg.params]
    exact hf.cap

lemma Flushing.load (hf : Flushing q thr e id d dk ps cs b) :
    Engine.loaded id e = .ok (Body.node ps cs b).toNode e := loaded_run hf.stored.top hf.resident

lemma Flushing.bufferLen (hf : Flushing q thr e id d dk ps cs b) :
    Engine.bufferLen id e = .ok b.size e := by
  unfold Engine.bufferLen
  rw [Engine.run_bind hf.load]
  rfl

end Flushing

section Flush
variable {π : Type} {pick : Pick π Ideal} {q tr : Bool} {thr : ℕ} {h : ℕ}

/-- A flush runs until the node is ready to be handed back. -/
def FlushSpec (pick : Pick π Ideal) (q : Bool) (thr : ℕ) (tr : Bool) : ℕ → Prop
  | 0 => True
  | h + 1 =>
    ∀ (e : Engine π Ideal) (id : NodeId) (d : Bool) (dk : Option (VTree (h + 1))) (ps : List Key)
      (cs : List (Live h)) (b : Buffer) (below : List NodeId), Flushing q thr e id d dk ps cs b →
    ∃ e' d' ps' cs' b' n N,
      (∀ fuel ≥ N, ∀ c, flushLoop pick fuel thr tr (c + n) (id :: below) e =
        Engine.conclude pick fuel thr tr c id below e') ∧
      Flushing q thr e' id d' dk ps' cs' b' ∧ b'.size ≤ thr ∧
      (thr = 0 → ∀ c ∈ cs', (Live.plain c).Quiet) ∧
      Leads q (Cell.known id d dk (Body.node ps cs b))
      (Cell.known id d' dk (Body.node ps' cs' b')) ∧
      Goes (id :: below) (Live.foot (Cell.known id d dk (Body.node ps cs b)))
        (Live.foot (Cell.known id d' dk (Body.node ps' cs' b'))) e e'

/-- The turn of a child: it is flushed and handed back. -/
theorem flush_child (ih : FlushSpec pick q thr tr (h + 1)) {e : Engine π Ideal}
    {id cid : NodeId} {d cd : Bool}
    {dk : Option (VTree (h + 2))} {cdk : Option (VTree (h + 1))} {ps₁ ps₂ qs : List Key}
    {cs₁ cs₂ : List (Live (h + 1))} {ds : List (Live h)} {b bb : Buffer} (below : List NodeId)
    (hl : ps₁.length = cs₁.length)
    (hF : Stored e.store (Live.foot (Cell.known id d dk
      (Body.node (ps₁ ++ ps₂) (cs₁ ++ Cell.known cid cd cdk (Body.node qs ds bb) :: cs₂) b))))
    (hd : Resident e.store id d)
    (hs : Live.Sane (Cell.known id d dk
      (Body.node (ps₁ ++ ps₂) (cs₁ ++ Cell.known cid cd cdk (Body.node qs ds bb) :: cs₂) b)))
    (hb : ∀ k, owns ps₁ ps₂ k → b.get? k = none) (hdirty : q = true ∨ d = true)
    (hc : Flushing q thr e cid cd cdk qs ds bb) :
    ∃ e' d' ps' cells n N,
      (∀ fuel ≥ N, ∀ c, flushLoop pick fuel thr tr (c + n) (cid :: id :: below) e =
        flushLoop pick fuel thr tr c (id :: below) e') ∧
      (∀ c ∈ cells, (Live.plain c).Rest e.params ∧ (thr = 0 → (Live.plain c).Quiet)) ∧
      (cells = [] → d' = true) ∧
      Leads q (Cell.known id d dk
        (Body.node (ps₁ ++ ps₂) (cs₁ ++ Cell.known cid cd cdk (Body.node qs ds bb) :: cs₂) b))
        (Cell.known id d' dk (Body.node ps' (cs₁ ++ cells ++ cs₂) b)) ∧
      Goes (id :: below) (Live.foot (Cell.known id d dk
        (Body.node (ps₁ ++ ps₂) (cs₁ ++ Cell.known cid cd cdk (Body.node qs ds bb) :: cs₂) b)))
        (Live.foot (Cell.known id d' dk (Body.node ps' (cs₁ ++ cells ++ cs₂) b))) e e' := by
  obtain ⟨e₁, cd₁, qs₁, ds₁, bb₁, n, N, hrun, hc₁, hsize, hquiet, hlead, hgo⟩ :=
    ih e cid cd cdk qs ds bb (id :: below) hc
  have hgo₁ :=
    Goes.child hF hlead.id (hgo.mono fun i (hi : i ∈ id :: below) => List.mem_cons_of_mem _ hi)
  have hlead₁ : Leads q (Cell.known id d dk
      (Body.node (ps₁ ++ ps₂) (cs₁ ++ Cell.known cid cd cdk (Body.node qs ds bb) :: cs₂) b))
        (Cell.known id d dk
      (Body.node (ps₁ ++ ps₂) (cs₁ ++ Cell.known cid cd₁ cdk (Body.node qs₁ ds₁ bb₁) :: cs₂) b)) :=
    Leads.within hl hlead (hdirty.imp_right Or.inl)
  obtain ⟨lo, hi, hg⟩ := (hlead₁.sane hs).placed
  obtain ⟨e₂, d₂, ps', cells, hback, hsplit, hbare, hlead₂, hgo₂⟩ := handBack_run
    (List.mem_cons_self : id ∈ id :: below) hc₁.legal hl hgo₁.stored
      (hd.imp_right (hgo₁.kept id (List.mem_cons_self ..)))
    hc₁.resident hg.1 hc₁.bare hb
  refine ⟨e₂, d₂, ps', cells, n, N, fun fuel hf c => ?_, fun c hcell => ?_, hbare,
    hlead₁.trans hlead₂.weaken, hgo₁.trans hgo₂⟩
  · rw [hrun fuel hf, conclude_run pick hc₁.load hback]
  · have hs := hsplit c hcell
    rw [hgo.params] at hs
    refine ⟨hs.rest ⟨?_, ?_⟩, fun h0 => hs.quiet ?_⟩
    · have := hsize.trans hc₁.cap
      rwa [hgo.params] at this
    · have := hc₁.rest
      rwa [hgo.params] at this
    · rw [Body.quiet_iff]
      refine ⟨OrdMap.size_eq_zero.mp (Nat.le_zero.mp (h0 ▸ hsize)), hquiet h0⟩

variable {e : Engine π Ideal} {id : NodeId} {d : Bool} {dk : Option (VTree (h + 1))} {ps : List Key}
  {cs : List (Live h)} {b : Buffer}

/-- One iteration of the cascade up to the delivery. -/
theorem deliver_run (hpick : PickSpec pick) (tr : Bool) (below : List NodeId)
    (hf : Flushing q thr e id d dk ps cs b) (hlt : thr < b.size) :
    ∃ (ps₁ ps₂ : List Key) (cs₁ cs₂ : List (Live h)) (c : Live h) (cd : Bool)
    (cdk : Option (VTree h))
      (y : Body h) (e' : Engine π Ideal),
      ps = ps₁ ++ ps₂ ∧ cs = cs₁ ++ c :: cs₂ ∧ ps₁.length = cs₁.length ∧
      Live.plain c = y.plain cd ∧ 0 < (b.filter (owns ps₁ ps₂ ·)).size ∧
      (∀ fuel n, flushLoop pick fuel thr tr (n + 1) (id :: below) e = Engine.afterDelivery pick fuel
        thr tr n id c.id below
        ((y.receive (b.filter (owns ps₁ ps₂ ·))).delivery thr) e') ∧
      Leads q (Cell.known id d dk (Body.node ps cs b))
        (Cell.known id true dk (Body.node (ps₁ ++ ps₂) (cs₁ ++ Cell.known c.id true cdk
          (y.receive (b.filter (owns ps₁ ps₂ ·))) :: cs₂) (b.filter (¬ owns ps₁ ps₂ ·)))) ∧
      Goes (id :: below) (Live.foot (Cell.known id d dk (Body.node ps cs b)))
        (Live.foot (Cell.known id true dk (Body.node (ps₁ ++ ps₂) (cs₁ ++ Cell.known c.id true cdk
          (y.receive (b.filter (owns ps₁ ps₂ ·))) :: cs₂) (b.filter (¬ owns ps₁ ps₂ ·))))) e
            e' := by
  obtain ⟨lo, hi, hg⟩ := hf.sane.placed
  have hne : cs ≠ [] := by
    rintro rfl
    have hv := (Tree.valid_node (none : Option ℕ)).mp hg.1.1
    rcases hv.2.2 with ⟨-, -, rfl⟩ | hK
    · exact absurd hlt (Nat.not_lt_zero _)
    · exact hK.ne_nil rfl
  obtain ⟨hsorted, hlen⟩ := hg.1.pivots hne
  obtain ⟨ps₁, ps₂, cs₁, c, cs₂, occ, e₁, rfl, rfl, hl, hbatch, hpos, hgo₁⟩ := hpick hf.stored
    hf.resident hsorted hlen (Nat.zero_lt_of_lt hlt) below.length tr (id :: below)
  obtain ⟨e₂, htrace, hgo₂⟩ := traceFlush_run (id :: below) tr id occ ps₁.length hgo₁.stored
  have hsc : Live.Sane c := hf.sane.kids c (by simp)
  obtain ⟨e₃, cd, cdk, y, hdel, hopen, hgo₃⟩ := applyBatch_run (id :: below)
    (b.filter (owns ps₁ ps₂ ·)) thr hgo₂.stored.child hsc.sound
  have hplain : Live.plain c = y.plain cd := hopen.plain.symm
  refine ⟨ps₁, ps₂, cs₁, cs₂, c, cd, cdk, y, e₃, rfl, rfl, hl, hplain, hpos,
    fun fuel n => ?_, ?_, ?_⟩
  · rw [flushLoop, Engine.run_bind hf.bufferLen, if_neg (not_le.mpr hlt), Engine.run_bind hbatch]
    simp only
    rw [Engine.run_bind htrace, Engine.run_bind hdel]
    cases (y.receive (b.filter (owns ps₁ ps₂ ·))).delivery thr with
    | leaf emptied => cases emptied <;> rfl
    | internal overflowed => cases overflowed <;> rfl
  · have hrest := hf.rest c (by simp)
    rw [hplain] at hrest
    exact (Leads.touch q id d dk _).trans
      (((hopen.leads.weaken.trans (Leads.touch q _ cd cdk y)).within hl
      (Or.inr (Or.inl rfl))).trans (Turns.deliver hl (Body.not_childless_of_rest hrest)).leads)
  · exact hgo₁.trans (hgo₂.trans (hgo₃.child hgo₂.stored rfl))

lemma afterDelivery_back {e' : Engine π Ideal} {cid : NodeId} {y : Body h}
    (hback : HandedBack id cid y e e')
    (hv : y.Vacant ↔ y.delivery thr = .leaf true)
    (ho : y.delivery thr ≠ .internal true) (fuel n : ℕ)
    (below : List NodeId) :
    Engine.afterDelivery pick fuel thr tr n id cid below (y.delivery thr) e =
      flushLoop pick fuel thr tr n (id :: below) e' := by
  rcases hback with ⟨hvac, hrun⟩ | ⟨hvac, promoted, e₁, hrun, hint⟩
  · rw [hv.mp hvac]
    exact Engine.run_bind hrun
  · have hmid : Engine.afterDelivery pick fuel thr tr n id cid below (y.delivery thr) = (do
        let promoted ← Engine.splitIfNeeded cid
        Engine.integrateSplits id promoted
        flushLoop pick fuel thr tr n (id :: below) : Engine.Act π Ideal Outcome) := by
      rw [hv] at hvac
      revert hvac ho
      cases y.delivery thr with
      | leaf emptied => cases emptied <;> simp [Engine.afterDelivery]
      | internal overflowed => cases overflowed <;> simp [Engine.afterDelivery]
    rw [hmid, Engine.run_bind hrun]
    exact Engine.run_bind hint

lemma size_left_behind {ps₁ ps₂ : List Key} (hpos : 0 < (b.filter (owns ps₁ ps₂ ·)).size) :
    (b.filter (¬ owns ps₁ ps₂ ·)).size < b.size := by
  have := OrdMap.size_filter_add b (fun k => decide (owns ps₁ ps₂ k))
  simp only [← decide_not] at this
  omega

/-- A child's turn after a delivery comes down to a run of cells at rest in its place. -/
def Turn (pick : Pick π Ideal) (q : Bool) (thr : ℕ) (tr : Bool) (below : List NodeId) (prm : Params)
    (e : Engine π Ideal)
    (id cid : NodeId) (dk : Option (VTree (h + 1))) (cdk : Option (VTree h)) (ps : List Key)
    (cs₁ : List (Live h)) (y : Body h) (cs₂ : List (Live h)) (b : Buffer) : Prop :=
  ∃ e' d' ps' cells n N,
    (∀ fuel ≥ N, ∀ c, Engine.afterDelivery pick fuel thr tr (c + n) id cid below
      (y.delivery thr) e =
      flushLoop pick fuel thr tr c (id :: below) e') ∧
    (∀ c ∈ cells, (Live.plain c).Rest prm) ∧ (cells = [] → d' = true) ∧
    Leads q (Cell.known id true dk (Body.node ps (cs₁ ++ Cell.known cid true cdk y :: cs₂) b))
      (Cell.known id d' dk (Body.node ps' (cs₁ ++ cells ++ cs₂) b)) ∧
    Goes (id :: below)
      (Live.foot (Cell.known id true dk (Body.node ps (cs₁ ++ Cell.known cid true cdk y :: cs₂) b)))
      (Live.foot (Cell.known id d' dk (Body.node ps' (cs₁ ++ cells ++ cs₂) b))) e e'

section Turn
variable {cid : NodeId} {cdk : Option (VTree h)} {ps₁ ps₂ : List Key}
    {cs₁ cs₂ : List (Live h)} {y : Body h}
  {below : List NodeId}

lemma turn_back (hprm : e.params.Legal) (hl : ps₁.length = cs₁.length)
    (hF : Stored e.store
      (Live.foot
        (Cell.known id true dk
          (Body.node (ps₁ ++ ps₂) (cs₁ ++ Cell.known cid true cdk y :: cs₂) b))))
    (hs : Live.Sane
      (Cell.known id true dk (Body.node (ps₁ ++ ps₂) (cs₁ ++ Cell.known cid true cdk y :: cs₂) b)))
    (hb : ∀ k, owns ps₁ ps₂ k → b.get? k = none)
    (hv : y.Vacant ↔ y.delivery thr = .leaf true) (ho : y.delivery thr ≠ .internal true)
    (hkids : y.KidsRest e.params) :
    Turn pick q thr tr below e.params e id cid dk cdk (ps₁ ++ ps₂) cs₁ y cs₂ b := by
  obtain ⟨lo, hi, hg⟩ := hs.placed
  obtain ⟨e', d', ps', cells, hback, hsplit, hbare, hlead, hgo⟩ := handBack_run
    (List.mem_cons_self : id ∈ id :: below) hprm hl hF (Or.inl rfl)
      (Or.inl rfl) hg.1 (fun _ => rfl) hb
  exact ⟨e', d', ps', cells, 0, 0, fun fuel _ n => afterDelivery_back hback hv ho fuel n below,
    fun c hc => (hsplit c hc).rest hkids, hbare, hlead.weaken, hgo⟩

end Turn

/-- Some iterations of the loop on one node, which is then again on top of the stack. -/
structure Advances (pick : Pick π Ideal) (q : Bool) (thr : ℕ) (tr : Bool)
    (below : List NodeId) (id : NodeId)
    (dk : Option (VTree (h + 1))) (e : Engine π Ideal) (d : Bool) (ps : List Key)
    (cs : List (Live h)) (b : Buffer)
    (e' : Engine π Ideal) (d' : Bool) (ps' : List Key) (cs' : List (Live h))
    (b' : Buffer) : Prop where
  run : ∃ n N, ∀ fuel ≥ N, ∀ c, flushLoop pick fuel thr tr (c + n) (id :: below) e =
    flushLoop pick fuel thr tr c (id :: below) e'
  flushing : Flushing q thr e' id d' dk ps' cs' b'
  leads : Leads q (Cell.known id d dk (Body.node ps cs b))
    (Cell.known id d' dk (Body.node ps' cs' b'))
  goes : Goes (id :: below) (Live.foot (Cell.known id d dk (Body.node ps cs b)))
    (Live.foot (Cell.known id d' dk (Body.node ps' cs' b'))) e e'

section Advances
variable {below : List NodeId} {e' e'' : Engine π Ideal} {d' d'' : Bool} {ps' ps'' : List Key}
  {cs' cs'' : List (Live h)} {b' b'' : Buffer}

lemma Advances.refl (hf : Flushing q thr e id d dk ps cs b) :
    Advances pick q thr tr below id dk e d ps cs b e d ps cs b :=
  ⟨⟨0, 0, fun _ _ _ => rfl⟩, hf, Leads.refl q _, Goes.refl hf.stored⟩

lemma Advances.trans (h₁ : Advances pick q thr tr below id dk e d ps cs b e' d' ps' cs' b')
    (h₂ : Advances pick q thr tr below id dk e' d' ps' cs' b' e'' d'' ps'' cs'' b'') :
    Advances pick q thr tr below id dk e d ps cs b e'' d'' ps'' cs'' b'' := by
  obtain ⟨n₁, N₁, hr₁⟩ := h₁.run
  obtain ⟨n₂, N₂, hr₂⟩ := h₂.run
  refine ⟨⟨n₂ + n₁, max N₁ N₂, fun fuel hf c => ?_⟩, h₂.flushing, h₁.leads.trans h₂.leads,
    h₁.goes.trans h₂.goes⟩
  rw [← Nat.add_assoc, hr₁ fuel (le_of_max_le_left hf), hr₂ fuel (le_of_max_le_right hf)]

end Advances

/-- One iteration on a buffer above the threshold empties it some more. -/
theorem pour_step (hpick : PickSpec pick) (ih : FlushSpec pick q thr tr h) (below : List NodeId)
    (hf : Flushing q thr e id d dk ps cs b) (hlt : thr < b.size) :
    ∃ e' d' ps' cs' b', Advances pick q thr tr below id dk e d ps cs b e' d' ps' cs' b' ∧
    b'.size < b.size := by
  obtain ⟨ps₁, ps₂, cs₁, cs₂, c, cd, cdk, y, e₁, rfl, rfl, hl, hplain, hpos, hrun, hlead, hgo⟩ :=
    deliver_run hpick tr below hf hlt
  have hrest := hf.rest c (by simp)
  rw [hplain] at hrest
  have hb : ∀ k, owns ps₁ ps₂ k → (b.filter (¬ owns ps₁ ps₂ ·)).get? k = none := by
    intro k hk
    simp [hk]
  have hs₁ := hlead.sane hf.sane
  have hsize := size_left_behind hpos
  have hprm := hgo.params
  have hlegal : e₁.params.Legal := hprm ▸ hf.legal
  suffices hturn : Turn pick q thr tr below e₁.params e₁ id c.id dk cdk (ps₁ ++ ps₂) cs₁
      (y.receive (b.filter (owns ps₁ ps₂ ·))) cs₂ (b.filter (¬ owns ps₁ ps₂ ·)) by
    obtain ⟨e₂, d', ps', cells, n, N, hturn, hcells, hbare, hlead₂, hgo₂⟩ := hturn
    have hlead' := hlead.trans hlead₂
    have hgo' := hgo.trans hgo₂
    refine ⟨e₂, d', ps', cs₁ ++ cells ++ cs₂, _, ⟨⟨n + 1, N, fun fuel hN n' => ?_⟩, ?_,
      hlead', hgo'⟩, hsize⟩
    · rw [← Nat.add_assoc, hrun, hturn fuel hN]
    · refine hf.step (List.mem_cons_self ..) hlead' hgo' (fun c' hc' => ?_) fun h0 =>
        hbare (by simp_all)
      simp only [List.mem_append] at hc'
      rcases hc' with (hc' | hc') | hc'
      · exact hf.rest c' (by simp [hc'])
      · exact hprm ▸ hcells c' hc'
      · exact hf.rest c' (by simp [hc'])
  cases h with
  | zero =>
    refine turn_back hlegal hl hgo.stored hs₁ hb ?_ (by simp [Body.delivery]) trivial
    generalize y.receive (b.filter (owns ps₁ ps₂ ·)) = y'
    change y' = OrdMap.empty ↔ Delivery.leaf (OrdMap.isEmpty y') = .leaf true
    rw [Delivery.leaf.injEq]
    exact OrdMap.isEmpty_iff.symm
  | succ h =>
    induction y using Body.succCases with
    | hn qs ds bb =>
      obtain ⟨bb', hy'⟩ :
        ∃ bb', (Body.node qs ds bb).receive (b.filter (owns ps₁ ps₂ ·)) = Body.node qs ds bb' :=
        ⟨_, rfl⟩
      rw [hy'] at hlead hgo hs₁ ⊢
      rw [Body.plain_node, Tree.rest_node, List.length_map, ← hprm] at hrest
      obtain ⟨-, hpos', -, hds⟩ := hrest
      have hne : ds ≠ [] := List.length_pos_iff.mp hpos'
      have hds' : ∀ c ∈ ds, (Live.plain c).Rest e₁.params := fun c hc =>
        hds _ (List.mem_map_of_mem hc)
      by_cases hover : thr < bb'.size
      · have hc : Flushing q thr e₁ c.id true cdk qs ds bb' := {
          stored := hgo.stored.child
          resident := Or.inl rfl
          sane := hs₁.kids _ (by simp)
          safe := by
            refine hf.safe.imp_right (Or.imp_right ?_)
            rintro ⟨lo, hi, hgood, hsafe⟩
            have hgood' : Live.Good false lo hi (Cell.known id d dk _) := ⟨hgood, by simp⟩
            obtain ⟨m, m', hcg, hcs⟩ := safe_child hl (hlead.good false lo hi hgood').1.1
              (hlead.safe _ lo hi hgood' hsafe) hb
            exact ⟨m, m', hcg.1, hcs⟩
          rest := hds'
          bare := fun h0 => absurd h0 hne
          legal := hlegal
          cap := hprm ▸ hf.cap }
        obtain ⟨e₂, d', ps', cells, n, N, hrun₂, hcells, hbare, hlead₂, hgo₂⟩ :=
          flush_child ih below hl hgo.stored (Or.inl rfl) hs₁ hb (Or.inr rfl) hc
        refine ⟨e₂, d', ps', cells, n, N, fun fuel hN n' => ?_, fun c hc => (hcells c hc).1,
          hbare, hlead₂, hgo₂⟩
        have hdel : (Body.node qs ds bb').delivery thr = .internal true :=
          congrArg Delivery.internal (decide_eq_true hover)
        rw [hdel]
        exact hrun₂ fuel hN n'
      · have hdel : (Body.node qs ds bb').delivery thr = .internal false :=
          congrArg Delivery.internal (decide_eq_false hover)
        refine turn_back hlegal hl hgo.stored hs₁ hb ?_ (by simp [hdel])
          ⟨(not_lt.mp hover).trans (hprm ▸ hf.cap), hds'⟩
        rw [hdel]
        exact ⟨fun h0 => absurd h0 hne, fun h0 => by cases h0⟩

/-- A flush first pours the buffer down to the threshold. -/
theorem pour_run (hpick : PickSpec pick) (ih : FlushSpec pick q thr tr h) (below : List NodeId)
    (hf : Flushing q thr e id d dk ps cs b) :
    ∃ e' d' ps' cs' b', Advances pick q thr tr below id dk e d ps cs b e' d' ps' cs' b' ∧
    b'.size ≤ thr := by
  induction hn : b.size using Nat.strong_induction_on generalizing e d ps cs b with
  | _ n hrec =>
    subst hn
    by_cases hle : b.size ≤ thr
    · exact ⟨e, d, ps, cs, b, Advances.refl hf, hle⟩
    · obtain ⟨e₁, d₁, ps₁, cs₁, b₁, hadv, hlt⟩ := pour_step hpick ih below hf (not_le.mp hle)
      obtain ⟨e₂, d₂, ps₂, cs₂, b₂, hadv₂, hle₂⟩ := hrec _ hlt hadv.flushing rfl
      exact ⟨e₂, d₂, ps₂, cs₂, b₂, hadv.trans hadv₂, hle₂⟩

lemma plains_of_opens {cs cs' : List (Live h)} (hcs : List.Forall₂ Opens cs cs') :
    cs'.map Live.plain = cs.map Live.plain := by
  induction hcs with
  | nil => rfl
  | cons hc _ ih => rw [List.map_cons, List.map_cons, ih, hc.plain]

open Classical in
/-- How many children have messages below them. -/
noncomputable def unsettled (cs : List (Live h)) :
    ℕ := (cs.map Live.plain).countP fun t => ¬ t.Quiet

lemma unsettled_settled {cs₁ cells cs₂ : List (Live h)} {c : Live h} (hc : ¬ (Live.plain c).Quiet)
    (hcells : ∀ c ∈ cells, (Live.plain c).Quiet) :
    unsettled (cs₁ ++ cells ++ cs₂) < unsettled (cs₁ ++ c :: cs₂) := by
  have h0 : unsettled cells = 0 := by
    unfold unsettled
    simpa [List.countP_eq_zero] using hcells
  unfold unsettled at h0 ⊢
  simp only [List.map_append, List.map_cons, List.countP_append, List.countP_cons, h0, hc,
    not_false_eq_true, decide_true, if_true]
  omega

/-- When draining, a node whose own buffer is empty sends the flush down to a child that still has
messages below it; if there is none, its turn is over. -/
theorem drain_step (ih : FlushSpec pick q 0 tr h) (below : List NodeId)
    (hf : Flushing q 0 e id d dk ps cs b)
    (hb : b = OrdMap.empty) :
    (∃ e' d' ps' cs', Advances pick q 0 tr below id dk e d ps cs b e' d' ps' cs' b ∧
      unsettled cs' < unsettled cs) ∨
    ∃ e' cs' N, (∀ fuel ≥ N, ∀ c, flushLoop pick fuel 0 tr (c + 1) (id :: below) e =
        Engine.conclude pick fuel 0 tr c id below e') ∧ Flushing q 0 e' id d dk ps cs' b ∧
      cs'.length = cs.length ∧ (∀ c ∈ cs', (Live.plain c).Quiet) ∧
      Leads q (Cell.known id d dk (Body.node ps cs b)) (Cell.known id d dk (Body.node ps cs' b)) ∧
      Goes (id :: below) (Live.foot (Cell.known id d dk (Body.node ps cs b)))
        (Live.foot (Cell.known id d dk (Body.node ps cs' b))) e e' := by
  have hF := hf.stored
  rw [Live.foot_known, Body.foot_node] at hF
  obtain ⟨e₁, N, found, cs', hfind, hcs, hgo, hcase⟩ := findBuffered_run (id :: below) cs
    ((Stored.append_iff (F := [_])).mp hF).2.1 hf.sane.kids
  have hgo₁ := Goes.children hf.stored (ids_of_opens hcs) hgo
  have hopen : Opens (Cell.known id d dk (Body.node ps cs b))
    (Cell.known id d dk (Body.node ps cs' b)) :=
    Opens.children [] [] hcs rfl hf.sane.length_le
  have hf₁ : Flushing q 0 e₁ id d dk ps cs' b := by
    refine hf.step (List.mem_cons_self ..) hopen.leads.weaken hgo₁ ?_ fun h0 => hf.bare ?_
    · have hrest : ∀ t ∈ cs.map Live.plain, t.Rest e.params := List.forall_mem_map.mpr hf.rest
      rw [← plains_of_opens hcs] at hrest
      exact List.forall_mem_map.mp hrest
    · subst h0
      cases hcs
      rfl
  have hstep : ∀ fuel ≥ N, ∀ c, flushLoop pick fuel 0 tr (c + 1) (id :: below) e =
      (match found with
        | some child => flushLoop pick fuel 0 tr c (child :: id :: below)
        | none => Engine.conclude pick fuel 0 tr c id below : Engine.Act π Ideal Outcome) e₁ := by
    intro fuel hN c
    have hdescend : Engine.descend fuel 0 (id :: below) id e = .ok found e₁ := by
      unfold Engine.descend
      rw [if_pos rfl, Engine.run_bind hf.load]
      exact hfind fuel hN
    rw [flushLoop, Engine.run_bind hf.bufferLen, if_pos (by simp [hb]), Engine.run_bind hdescend]
    cases found <;> rfl
  rcases hcase with ⟨rfl, hquiet⟩ | ⟨cs₁, cid, cd, cdk, y, cs₂, rfl, rfl, hres, hquiet⟩
  · exact Or.inr ⟨e₁, cs', N, hstep, hf₁, hcs.length_eq.symm, hquiet, hopen.leads.weaken, hgo₁⟩
  · left
    have hcid := hf₁.sane.kids (Cell.known cid cd cdk y) (by simp)
    have hrest := hf₁.rest (Cell.known cid cd cdk y) (by simp)
    have hlen : cs₁.length ≤ ps.length := by
      have := hf₁.sane.length_le
      simp only [List.length_append, List.length_cons] at this
      omega
    obtain ⟨ps₁, ps₂, rfl, hl⟩ : ∃ ps₁ ps₂, ps = ps₁ ++ ps₂ ∧ ps₁.length = cs₁.length :=
      ⟨ps.take cs₁.length, ps.drop cs₁.length, by simp, by simpa using hlen⟩
    cases h with
    | zero => exact absurd trivial hquiet
    | succ h =>
      induction y using Body.succCases with
      | hn qs ds bb =>
        rw [Live.plain_known, Body.plain_node, Tree.rest_node, List.length_map] at hrest
        have hnone : ∀ k, owns ps₁ ps₂ k → b.get? k = none := by simp [hb]
        have hdirty : q = true ∨ d = true := by
          rcases hf₁.safe with hq | h0 | ⟨lo, hi, -, hsafe⟩
          · exact Or.inl hq
          · exact absurd rfl h0
          · rcases hsafe.1 with ⟨k, -, hk⟩ | hd | hall
            · simp [hb, Body.plain_node, Tree.node] at hk
            · exact Or.inr hd
            · exact absurd
                (hall _ (List.mem_map_of_mem (List.mem_append_right _ (List.mem_cons_self ..))))
                  hquiet
        have hc : Flushing q 0 e₁ cid cd cdk qs ds bb := {
          stored := hf₁.stored.child
          resident := hres
          sane := hcid
          safe := by
            refine hf₁.safe.imp_right (Or.imp_right ?_)
            rintro ⟨lo, hi, hgood, hsafe⟩
            obtain ⟨m, m', hcg, hcs⟩ := safe_child hl hgood hsafe hnone
            exact ⟨m, m', hcg.1, hcs⟩
          rest := fun c hc => hrest.2.2.2 _ (List.mem_map_of_mem hc)
          bare := fun h0 => absurd h0 (List.length_pos_iff.mp hrest.2.1)
          legal := hf₁.legal
          cap := hf₁.cap }
        obtain ⟨e₂, d', ps', cells, n, N₂, hrun₂, hcells, hbare, hlead₂, hgo₂⟩ :=
          flush_child ih below hl hf₁.stored hf₁.resident hf₁.sane hnone hdirty hc
        refine ⟨e₂, d', ps', cs₁ ++ cells ++ cs₂, ⟨⟨n + 1, max N N₂, fun fuel hN c => ?_⟩, ?_,
          hopen.leads.weaken.trans hlead₂, hgo₁.trans hgo₂⟩, ?_⟩
        · rw [← Nat.add_assoc, hstep fuel (le_of_max_le_left hN)]
          exact hrun₂ fuel (le_of_max_le_right hN) c
        · refine hf₁.step (List.mem_cons_self ..) hlead₂ hgo₂ (fun c' hc' => ?_) fun h0 =>
            hbare (by simp_all)
          simp only [List.mem_append] at hc'
          rcases hc' with (hc' | hc') | hc'
          · exact hf₁.rest c' (by simp [hc'])
          · exact (hcells c' hc').1
          · exact hf₁.rest c' (by simp [hc'])
        · have heq :
            unsettled cs = unsettled (cs₁ ++ Cell.known cid cd cdk (Body.node qs ds bb) ::
              cs₂) := by
            unfold unsettled
            rw [plains_of_opens hcs]
          rw [heq]
          exact unsettled_settled hquiet fun c hc => (hcells c hc).2 rfl

/-- A drain then empties everything below. -/
theorem drain_run (ih : FlushSpec pick q 0 tr h) (below : List NodeId)
    (hf : Flushing q 0 e id d dk ps cs b)
    (hb : b = OrdMap.empty) :
    ∃ e' d' ps' cs' n N, (∀ fuel ≥ N, ∀ c, flushLoop pick fuel 0 tr (c + n) (id :: below) e =
        Engine.conclude pick fuel 0 tr c id below e') ∧ Flushing q 0 e' id d' dk ps' cs' b ∧
      (∀ c ∈ cs', (Live.plain c).Quiet) ∧
      Leads q (Cell.known id d dk (Body.node ps cs b)) (Cell.known id d' dk (Body.node ps' cs' b)) ∧
      Goes (id :: below) (Live.foot (Cell.known id d dk (Body.node ps cs b)))
        (Live.foot (Cell.known id d' dk (Body.node ps' cs' b))) e e' := by
  induction hn : unsettled cs using Nat.strong_induction_on generalizing e d ps cs with
  | _ n hrec =>
    subst hn
    rcases drain_step ih below hf hb with ⟨e₁, d₁, ps₁, cs₁, hadv, hlt⟩ | ⟨e', cs', N, hrun, hf',
      -, hq, hlead, hgo⟩
    · obtain ⟨e', d', ps', cs', n, N, hrun, hf', hq, hlead, hgo⟩ := hrec _ hlt hadv.flushing rfl
      obtain ⟨n₁, N₁, hr₁⟩ := hadv.run
      refine ⟨e', d', ps', cs', n + n₁, max N₁ N, fun fuel hN c => ?_, hf', hq,
        hadv.leads.trans hlead,
        hadv.goes.trans hgo⟩
      rw [← Nat.add_assoc, hr₁ fuel (le_of_max_le_left hN), hrun fuel (le_of_max_le_right hN)]
    · exact ⟨e', d, ps, cs', 1, N, hrun, hf', hq, hlead, hgo⟩

lemma flushLoop_end (fuel c : ℕ) (below : List NodeId) (hf : Flushing q thr e id d dk ps cs b)
    (hle : b.size ≤ thr) (h0 : thr ≠ 0) :
    flushLoop pick fuel thr tr (c + 1) (id :: below) e = Engine.conclude pick fuel thr tr c
      id below e := by
  have hdescend : Engine.descend fuel thr (id :: below) id e = .ok none e := by
    unfold Engine.descend
    rw [if_neg h0]
    rfl
  rw [flushLoop, Engine.run_bind hf.bufferLen, if_pos hle, Engine.run_bind hdescend]
  rfl

/-- A node with nothing to flush is done at once. -/
theorem flush_calm (below : List NodeId) (hf : Flushing q thr e id d dk ps cs b)
    (hle : b.size ≤ thr) (hq : thr = 0 → ∀ c ∈ cs, (Live.plain c).Quiet)
    (ih : FlushSpec pick q thr tr h) :
    ∃ e' cs' N, (∀ fuel ≥ N, ∀ c, flushLoop pick fuel thr tr (c + 1) (id :: below) e =
        Engine.conclude pick fuel thr tr c id below e') ∧ Flushing q thr e' id d dk ps cs' b ∧
      cs'.length = cs.length ∧ (thr = 0 → ∀ c ∈ cs', (Live.plain c).Quiet) ∧
      Leads q (Cell.known id d dk (Body.node ps cs b)) (Cell.known id d dk (Body.node ps cs' b)) ∧
      Goes (id :: below) (Live.foot (Cell.known id d dk (Body.node ps cs b)))
        (Live.foot (Cell.known id d dk (Body.node ps cs' b))) e e' := by
  by_cases h0 : thr = 0
  · subst h0
    have hb := OrdMap.size_eq_zero.mp (Nat.le_zero.mp hle)
    rcases drain_step ih below hf hb with ⟨e₁, d₁, ps₁, cs₁, -, hlt⟩ | ⟨e', cs', N, hrun, hf', hlen,
      hq', hlead, hgo⟩
    · have : unsettled cs = 0 := by
        unfold unsettled
        simpa [List.countP_eq_zero] using hq rfl
      omega
    · exact ⟨e', cs', N, hrun, hf', hlen, fun _ => hq', hlead, hgo⟩
  · exact ⟨e, cs, 0, fun fuel _ c => flushLoop_end fuel c below hf hle h0, hf, rfl,
      hq, Leads.refl q _,
      Goes.refl hf.stored⟩

/-- The cascade from a node settles it. -/
theorem flushSpec (hpick : PickSpec pick) : FlushSpec pick q thr tr h := by
  induction h with
  | zero => trivial
  | succ h ih =>
    intro e id d dk ps cs b below hf
    obtain ⟨e₁, d₁, ps₁, cs₁, b₁, hadv, hle⟩ := pour_run hpick ih below hf
    obtain ⟨n₁, N₁, hr₁⟩ := hadv.run
    by_cases h0 : thr = 0
    · subst h0
      obtain ⟨e', d', ps', cs', n, N, hrun, hf', hq, hlead, hgo⟩ :=
        drain_run ih below hadv.flushing (OrdMap.size_eq_zero.mp (Nat.le_zero.mp hle))
      refine ⟨e', d', ps', cs', b₁, n + n₁, max N₁ N, fun fuel hN c => ?_, hf', hle, fun _ => hq,
        hadv.leads.trans hlead, hadv.goes.trans hgo⟩
      rw [← Nat.add_assoc, hr₁ fuel (le_of_max_le_left hN), hrun fuel (le_of_max_le_right hN)]
    · refine ⟨e₁, d₁, ps₁, cs₁, b₁, 1 + n₁, N₁, fun fuel hN c => ?_, hadv.flushing, hle,
        fun h => absurd h h0,
        hadv.leads, hadv.goes⟩
      rw [← Nat.add_assoc, hr₁ fuel hN, flushLoop_end fuel c below hadv.flushing hle h0]

end Flush
end Beetree
