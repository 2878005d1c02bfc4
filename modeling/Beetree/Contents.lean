import Beetree.Naive
import Beetree.Scan
import Beetree.Simulation

/-! The public operations as operations on the contents, a function from keys to values. -/
namespace Beetree

abbrev Contents := Key → Option Value

/-- What an operation makes of the value of a key. -/
def Op.act : Op → Key → Option Value → Option Value
  | .mutate op, k, x => op.effect k x
  | _, _, x => x

def Op.effect (op : Op) (c : Contents) : Contents := fun k => op.act k (c k)

def Op.Answers (c : Contents) : Op → Reply → Prop
  | .mutate _, r => r = .done
  | .get key, r => r = .value (c key)
  | .scan lo hi, r => ∃ m : OrdMap Key Value,
      (∀ k, m.get? k = if inBounds lo hi k then c k else none) ∧ r = .listing m.toList
  | .drain, r => r = .done

/-- There is a sequence number left for the operation. -/
def Op.Numbered (seq : UInt64) : Op → Prop
  | .mutate _ => seq.toNat + 1 < 2 ^ 64
  | _ => True

def Op.advance (seq : UInt64) : Op → UInt64
  | .mutate _ => seq + 1
  | _ => seq

lemma Op.Answers.unique {c : Contents} {op : Op} {r r' : Reply} (h : op.Answers c r)
    (h' : op.Answers c r') :
    r = r' := by
  cases op with
  | mutate op => exact h.trans h'.symm
  | get key => exact h.trans h'.symm
  | drain => exact h.trans h'.symm
  | scan lo hi =>
    obtain ⟨m, hm, rfl⟩ := h
    obtain ⟨m', hm', rfl⟩ := h'
    have : m = m' := OrdMap.ext fun k => (hm k).trans (hm' k).symm
    rw [this]

section Naive
variable {n : NaiveEngine}

lemma NaiveEngine.get?_applyOp (m : OrdMap Key Value) (op : OpKind2) (k : Key) :
    (applyOp m op).get? k = op.effect k (m.get? k) := by
  unfold OpKind2.effect
  cases op with
  | insert key value => by_cases hk : k = key <;> simp [applyOp, OpKind2.act, OpKind2.key, hk]
  | delete key => by_cases hk : k = key <;> simp [applyOp, OpKind2.act, OpKind2.key, hk]
  | upsert key op => by_cases hk : k = key <;> simp [applyOp, OpKind2.act, OpKind2.key, hk]

lemma NaiveEngine.step_ok (op : Op) (hs : op.Numbered n.nextSeq) :
    ∃ r n', step op n = .ok r n' ∧ op.Answers (fun k => n.map.get? k) r ∧
      (fun k => n'.map.get? k) = op.effect (fun k => n.map.get? k) ∧
      n'.nextSeq = op.advance n.nextSeq := by
  cases op with
  | mutate op =>
    have hrun : step (.mutate op) n = .ok .done
        { n with
          map := applyOp n.map op
          nextSeq := n.nextSeq + 1
          trace := n.trace.op (n.nextSeq + 1) op } := by
      have hs' : n.nextSeq.toNat + 1 < 2 ^ 64 := hs
      change EStateM.bind (mutate op) _ n = _
      have : mutate op n = .ok ()
          { n with
            map := applyOp n.map op
            nextSeq := n.nextSeq + 1
            trace := n.trace.op (n.nextSeq + 1) op } := by
        change (if n.nextSeq.toNat + 1 < 2 ^ 64 then _ else _ :
          EStateM Fault NaiveEngine Unit) n = _
        rw [if_pos hs']
        rfl
      simp only [EStateM.bind, this]
      rfl
    exact ⟨_, _, hrun, rfl, funext fun k => get?_applyOp n.map op k, rfl⟩
  | get key => exact ⟨_, _, rfl, rfl, rfl, rfl⟩
  | drain => exact ⟨_, _, rfl, rfl, rfl, rfl⟩
  | scan lo hi =>
    cases hempty : rangeIsEmpty lo hi with
    | true =>
      refine ⟨.listing [], { n with trace := n.trace.scan lo hi }, ?_,
        ⟨OrdMap.empty, fun k => ?_, rfl⟩, rfl, rfl⟩
      · change EStateM.bind (scan lo hi) _ n = _
        have : scan lo hi n = .ok [] { n with trace := n.trace.scan lo hi } := by
          change (if rangeIsEmpty lo hi = true then _ else _ : EStateM Fault NaiveEngine _) _ = _
          rw [if_pos hempty]
          rfl
        simp only [EStateM.bind, this]
        rfl
      · simp [not_inBounds_of_empty hempty k]
    | false =>
      refine ⟨.listing (n.map.filter (inBounds lo hi)).toList,
        { n with trace := n.trace.scan lo hi }, ?_,
        ⟨_, fun k => OrdMap.get?_filter n.map _ k, rfl⟩, rfl, rfl⟩
      change EStateM.bind (scan lo hi) _ n = _
      have : scan lo hi n = .ok (n.map.filter (inBounds lo hi)).toList
        { n with trace := n.trace.scan lo hi } := by
        unfold NaiveEngine.scan
        rw [run_modify_bind, if_neg (by simp [hempty]), run_get_bind]
        dsimp only
        rw [rangeOf_of_nonempty n.map hempty]
        rfl
      simp only [EStateM.bind, this]
      rfl

lemma NaiveEngine.step_overflow (op : Op) (hs : ¬ op.Numbered n.nextSeq) :
    ∃ n', step op n = .error .overflow n' := by
  cases op with
  | mutate op =>
    have hs' : ¬ n.nextSeq.toNat + 1 < 2 ^ 64 := hs
    refine ⟨n, ?_⟩
    change EStateM.bind (mutate op) _ n = _
    have : mutate op n = .error .overflow n := by
      change (if n.nextSeq.toNat + 1 < 2 ^ 64 then _ else _ : EStateM Fault NaiveEngine Unit) n = _
      rw [if_neg hs']
      rfl
    simp only [EStateM.bind, this]
  | get key => exact absurd trivial hs
  | scan lo hi => exact absurd trivial hs
  | drain => exact absurd trivial hs

end Naive

section Step
variable {π : Type} {h : ℕ} {e : Engine π Ideal} {t : Live h}

lemma Evolves.weaken {f : Key → Option Value → Option Value} {h h' : ℕ} {t : Live h}
    {t' : Live h'} {q : Bool}
    (ht : Evolves false f t t') : Evolves q f t t' :=
  { ht with closed := fun _ => ht.closed rfl }

lemma Opens.evolves {q : Bool} {t t' : Live h} (ho : Opens t t')
    (hg : ∀ p, Live.Good p none none t) :
    Evolves q (fun _ x => x) t t' where
  resolve p k := ((ho.leads.good p none none (hg p)).2.same k (inRange_none k)).symm
  offs p := (ho.leads.good p none none (hg p)).2.offs
  sound := ho.leads.sound
  closed _ := ho.leads.closed rfl

def Live.contents (t : Live h) : Contents := fun k => (Live.plain t).resolve k

/-- Where an operation may only dirty what is below a dirty node. -/
def Op.Safe (q : Bool) (t : Live h) (op : Op) : Prop :=
  q = true ∨ (op = .drain → (Live.plain t).DrainSafe (fun _ => False) none none)

structure StepsTo (q : Bool) (op : Op) (reply : Reply) (e e' : Engine π Ideal)
    {h h' : ℕ} (t : Live h)
    (t' : Live h') : Prop where
  holds : Holds e' t'
  evolves : Evolves q op.act t t'
  answers : op.Answers (Live.contents t) reply
  params : e'.params = e.params
  nextSeq : e'.nextSeq = op.advance e.nextSeq
  quiet : op = .drain → (Live.plain t').Quiet

lemma StepsTo.contents {q : Bool} {op : Op} {reply : Reply} {e e' : Engine π Ideal}
    {h' : ℕ} {t' : Live h'}
    (hs : StepsTo q op reply e e' t t') : Live.contents t' = op.effect (Live.contents t) := by
  funext k
  have := hs.evolves.resolve false k
  rwa [← Live.resolve_plain, ← Live.resolve_plain] at this

/-- Every public operation on a tree at rest returns, answers from the contents, and leaves a tree
at rest whose contents are those it should have. -/
theorem step_run [FlushPolicy π] (hπ : FlushPolicy.Legal π) (ht : Holds e t) (op : Op)
    (hs : op.Numbered e.nextSeq) {q : Bool}
    (hq : op.Safe q t) :
    ∃ (reply : Reply) (e' : Engine π Ideal) (h' : ℕ) (t' : Live h') (N : ℕ),
      (∀ fuel ≥ N, Engine.step fuel op e = .ok reply e') ∧ StepsTo q op reply e e' t t' := by
  cases op with
  | mutate op =>
    obtain ⟨e', h', t', N, hrun, hold, hev, hprm, hseq, -⟩ := mutateWith_run hπ ht op hs
    refine ⟨.done, e', h', t', N, fun fuel hf => ?_, hold, hev.weaken, rfl, hprm, hseq, by simp⟩
    exact (Engine.run_bind (hrun fuel hf)).trans rfl
  | get key =>
    obtain ⟨e', t', N, hrun, hold, hopen, hfix⟩ := lookup_run ht key
    refine ⟨_, e', h, t', N, fun fuel hf => ?_, hold, hopen.evolves ht.good, rfl, ?_, ?_, by simp⟩
    · exact (Engine.run_bind (hrun fuel hf)).trans rfl
    · exact congrArg (fun x => x.1) hfix
    · exact congrArg (fun x => x.2.2.1) hfix
  | scan lo hi =>
    obtain ⟨e', t', N, acc, hrun, hacc, hold, hopen, hfix⟩ := scan_run ht lo hi
    refine ⟨_, e', h, t', N, fun fuel hf => ?_, hold, hopen.evolves ht.good, ⟨acc, hacc, rfl⟩,
      ?_, ?_, by simp⟩
    · exact (Engine.run_bind (hrun fuel hf)).trans rfl
    · exact congrArg (fun x => x.1) hfix
    · exact congrArg (fun x => x.2.2.1) hfix
  | drain =>
    obtain ⟨e', h', t', N, hrun, hold, hev, hquiet, hprm, hseq, -⟩ :=
      drain_holds hπ ht (hq.imp_right fun hd => hd rfl)
    refine ⟨.done, e', h', t', N, fun fuel hf => ?_, hold, hev, rfl, hprm, hseq, fun _ => hquiet⟩
    exact (Engine.run_bind (hrun fuel hf)).trans rfl

end Step
end Beetree
