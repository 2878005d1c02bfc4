import Beetree.Reads

/-! Range scans over the ideal store: every child is gathered inside the bounds clipped to the range
it owns, and the node's own messages are applied on top. -/
namespace Beetree

section Bounds

lemma admitsAbove_clipLower (lo : Bound) (p k : Key) :
    (clipLower lo p).admitsAbove k = true ↔ lo.admitsAbove k = true ∧ p ≤ k := by
  cases lo with
  | unbounded => simp [clipLower, Bound.admitsAbove]
  | included a =>
    simp only [clipLower]
    split_ifs with h
    · simp only [Bound.admitsAbove, decide_eq_true_eq]
      exact ⟨fun hk => ⟨hk, h.trans hk⟩, And.left⟩
    · simp only [Bound.admitsAbove, decide_eq_true_eq]
      exact ⟨fun hk => ⟨(not_le.mp h).le.trans hk, hk⟩, And.right⟩
  | excluded a =>
    simp only [clipLower]
    split_ifs with h
    · simp only [Bound.admitsAbove, decide_eq_true_eq]
      exact ⟨fun hk => ⟨hk, h.trans hk.le⟩, And.left⟩
    · simp only [Bound.admitsAbove, decide_eq_true_eq]
      exact ⟨fun hk => ⟨(not_le.mp h).trans_le hk, hk⟩, And.right⟩

lemma admitsBelow_clipUpper (hi : Bound) (p k : Key) :
    (clipUpper hi p).admitsBelow k = true ↔ hi.admitsBelow k = true ∧ k < p := by
  cases hi with
  | unbounded => simp [clipUpper, Bound.admitsBelow]
  | included b =>
    simp only [clipUpper]
    split_ifs with h
    · simp only [Bound.admitsBelow, decide_eq_true_eq]
      exact ⟨fun hk => ⟨hk, hk.trans_lt h⟩, And.left⟩
    · simp only [Bound.admitsBelow, decide_eq_true_eq]
      exact ⟨fun hk => ⟨hk.le.trans (not_lt.mp h), hk⟩, And.right⟩
  | excluded b =>
    simp only [clipUpper]
    split_ifs with h
    · simp only [Bound.admitsBelow, decide_eq_true_eq]
      exact ⟨fun hk => ⟨hk, hk.trans h⟩, And.left⟩
    · simp only [Bound.admitsBelow, decide_eq_true_eq]
      exact ⟨fun hk => ⟨hk.trans_le (not_lt.mp h), hk⟩, And.right⟩

lemma inBounds_iff {lo hi : Bound} {k : Key} :
    inBounds lo hi k = true ↔ lo.admitsAbove k = true ∧ hi.admitsBelow k = true := by
  simp [inBounds]

lemma childBounds_spec {ps₁ ps₂ : List Key} (hs : (ps₁ ++ ps₂).Pairwise (· < ·)) (lo hi : Bound) :
    ∃ cLo cHi, Engine.childBounds (ps₁ ++ ps₂) lo hi ps₁.length = some (cLo, cHi) ∧
      ∀ k, inBounds cLo cHi k = true ↔ inBounds lo hi k = true ∧ owns ps₁ ps₂ k := by
  have hlower : ∃ cLo, (if ps₁.length = 0 then some lo else
      ((ps₁ ++ ps₂)[ps₁.length - 1]?).map (clipLower lo)) = some cLo ∧
      ∀ k, cLo.admitsAbove k = true ↔ lo.admitsAbove k = true ∧
        ∀ p, ps₁.getLast? = some p → p ≤ k := by
    cases hn : ps₁.length with
    | zero =>
      obtain rfl := List.length_eq_zero_iff.mp hn
      exact ⟨lo, rfl, by simp⟩
    | succ i =>
      obtain ⟨l, hl⟩ : ∃ l, ps₁.getLast? = some l := by
        rw [← getElem?_last ps₂ hn, List.getElem?_append_left (by omega)]
        exact ⟨_, List.getElem?_eq_getElem (by omega)⟩
      refine ⟨clipLower lo l, ?_, fun k => ?_⟩
      · rw [if_neg (Nat.succ_ne_zero i), Nat.add_sub_cancel, getElem?_last _ hn, hl]
        rfl
      · simp [admitsAbove_clipLower, hl]
  have hupper : ∃ cHi, (if ps₁.length = (ps₁ ++ ps₂).length then some hi else
      ((ps₁ ++ ps₂)[ps₁.length]?).map (clipUpper hi)) = some cHi ∧
      ∀ k, cHi.admitsBelow k = true ↔ hi.admitsBelow k = true ∧
        ∀ p, (ps₁ ++ ps₂)[ps₁.length]? = some p → k < p := by
    cases ps₂ with
    | nil => exact ⟨hi, by simp, by simp⟩
    | cons p ps₂ =>
      refine ⟨clipUpper hi p, by simp, fun k => ?_⟩
      simp [admitsBelow_clipUpper]
  obtain ⟨cLo, hlo, hlo'⟩ := hlower
  obtain ⟨cHi, hhi, hhi'⟩ := hupper
  refine ⟨cLo, cHi, ?_, fun k => ?_⟩
  · have hbind : Engine.childBounds (ps₁ ++ ps₂) lo hi ps₁.length =
        (if ps₁.length = 0 then some lo else ((ps₁ ++ ps₂)[ps₁.length - 1]?).map
          (clipLower lo)).bind fun cLo =>
          (if ps₁.length = (ps₁ ++ ps₂).length then some hi else
            ((ps₁ ++ ps₂)[ps₁.length]?).map (clipUpper hi)).bind fun cHi => some (cLo, cHi) := by
      unfold Engine.childBounds
      split_ifs <;> rfl
    rw [hbind, hlo, hhi]
    rfl
  · rw [inBounds_iff, inBounds_iff, hlo', hhi', owns_iff_ends hs]
    tauto

lemma not_inBounds_of_empty {lo hi : Bound} (h : rangeIsEmpty lo hi = true) (k : Key) :
    inBounds lo hi k = false := by
  refine Bool.eq_false_iff.mpr fun hk => ?_
  obtain ⟨h₁, h₂⟩ := inBounds_iff.mp hk
  cases lo <;> cases hi <;> simp only [rangeIsEmpty, Bool.or_eq_true, decide_eq_true_eq,
    Bool.false_eq_true] at h <;>
    simp only [Bound.admitsAbove, Bound.admitsBelow, decide_eq_true_eq] at h₁ h₂
  · exact absurd (h₁.trans h₂) (not_le.mpr h)
  · rcases h with h | rfl
    · exact absurd (h₁.trans h₂.le) (not_le.mpr h)
    · exact absurd (h₁.trans_lt h₂) (lt_irrefl _)
  · rcases h with h | rfl
    · exact absurd (h₁.le.trans h₂) (not_le.mpr h)
    · exact absurd (h₁.trans_le h₂) (lt_irrefl _)
  · rcases h with h | rfl
    · exact absurd (h₁.trans h₂) (not_lt.mpr h.le)
    · exact absurd (h₁.trans h₂) (lt_irrefl _)

lemma rangeOf_of_nonempty {ν : Type} (m : OrdMap Key ν) {lo hi : Bound}
    (h : rangeIsEmpty lo hi = false) :
    rangeOf m lo hi = some (m.filter (inBounds lo hi)) := by
  cases lo <;> cases hi <;> simp_all [rangeIsEmpty, rangeOf]

end Bounds

lemma Live.resolve_plain {h : ℕ} (t : Live h) (k : Key) :
    (Live.plain t).resolve k = (Live.view false t).resolve k := by
  rw [← Tree.resolve_bare, ← Live.bare_view, Tree.resolve_bare]

open Engine (scanLoop)

/-- The end of a frame: its results go to the frame below it, or they are the answer. -/
def Engine.popFrame {π St : Type} [NodeStore St] (n : ℕ) (acc : OrdMap Key Value) :
    List ScanFrame → Engine.Act π St (List (Key × Value))
  | [] => pure acc.toList
  | parent :: rest => scanLoop n ({ parent with acc := parent.acc.append acc } :: rest)

structure Readable {π : Type} (prm : Params) (e : Engine π Ideal) {h : ℕ} (t : Live h) : Prop where
  stored : Stored e.store (Live.foot t)
  sane : Live.Sane t
  rest : (Live.plain t).RootRest prm

lemma Readable.opens {π : Type} {prm : Params} {e e' : Engine π Ideal} {h : ℕ} {t t' : Live h}
    {pins : List NodeId}
    (ht : Readable prm e t) (ho : Opens t t') (hg : Goes pins (Live.foot t) (Live.foot t') e e') :
    Readable prm e' t' :=
  ⟨hg.stored, ho.leads.sane ht.sane, ho.plain ▸ ht.rest⟩

def Gathers (lo hi : Bound) {h : ℕ} (t : Flagged h) (acc : OrdMap Key Value) : Prop :=
  ∀ k, acc.get? k = if inBounds lo hi k then t.resolve k else none

def ScanSpec (π : Type) (prm : Params) : ℕ → Prop
  | 0 => True
  | h + 1 =>
    ∀ (e : Engine π Ideal) (id : NodeId) (d : Bool) (dk : Option (VTree (h + 1))) (ps : List Key)
      (cs : List (Live h)) (b : Buffer) (lo hi : Bound) (rest : List ScanFrame),
    Readable prm e (Cell.known id d dk (Body.node ps cs b)) → Resident e.store id d →
    rangeIsEmpty lo hi = false →
    ∃ e' t' acc n, (∀ c, scanLoop (c + n) (⟨id, lo, hi, 0, OrdMap.empty⟩ :: rest) e =
        Engine.popFrame c acc rest e') ∧
      Gathers lo hi ((Body.node ps cs b).plain d) acc ∧
      Opens (Cell.known id d dk (Body.node ps cs b)) t' ∧
      Goes (id :: rest.map ScanFrame.id) (Live.foot (Cell.known id d dk (Body.node ps cs b)))
      (Live.foot t') e e'

section Children
variable {π : Type} {prm : Params} {h : ℕ} {e : Engine π Ideal} {id : NodeId} {d : Bool}
  {dk : Option (VTree (h + 1))} {ps₁ ps₂ : List Key} {cs₁ cs₂ : List (Live h)}
    {c : Live h} {b : Buffer}
  {lo hi : Bound}

lemma Readable.child
    (ht : Readable prm e (Cell.known id d dk (Body.node (ps₁ ++ ps₂) (cs₁ ++ c :: cs₂) b))) :
    Readable prm e c :=
  ⟨ht.stored.child, ht.sane.kids c (by simp), (Body.kids_of_rest ht.rest).2 c (by simp)⟩

/-- One child of a frame: skipped, gathered if it is a leaf, scanned in a frame of its own
otherwise. -/
lemma scan_child (lo hi : Bound) (ih : ScanSpec π prm h) (hl : ps₁.length = cs₁.length)
    (hs : (ps₁ ++ ps₂).Pairwise (· < ·))
    (ht : Readable prm e (Cell.known id d dk (Body.node (ps₁ ++ ps₂) (cs₁ ++ c :: cs₂) b)))
    (hd : Resident e.store id d) (acc : OrdMap Key Value) (rest : List ScanFrame) :
    ∃ e' c' acc' n, (∀ m, scanLoop (m + n) (⟨id, lo, hi, cs₁.length, acc⟩ :: rest) e =
        scanLoop m (⟨id, lo, hi, cs₁.length + 1, acc'⟩ :: rest) e') ∧
      (∀ k, acc'.get? k = (if inBounds lo hi k = true ∧ owns ps₁ ps₂ k then (Live.plain c).resolve k
        else none).or (acc.get? k)) ∧
      Opens c c' ∧ Goes (id :: rest.map ScanFrame.id) (Live.foot c) (Live.foot c') e e' := by
  obtain ⟨cLo, cHi, hbounds, hin⟩ := childBounds_spec hs lo hi
  have hload := loaded_known ht.stored hd
  have hget : ((cs₁ ++ c :: cs₂).map Cell.id)[cs₁.length]? = some c.id := by
    rw [List.getElem?_map, List.getElem?_append_right le_rfl, Nat.sub_self]
    rfl
  rw [hl] at hbounds
  cases hempty : rangeIsEmpty cLo cHi with
  | true =>
    refine ⟨e, c, acc, 1, fun m => ?_, fun k => ?_, Opens.refl c, Goes.refl ht.stored.child⟩
    · rw [scanLoop, Engine.scanLoopOr, Engine.run_bind hload]
      simp only [Body.toNode_node, hget, hbounds, hempty]
      rfl
    · have := not_inBounds_of_empty hempty k
      rw [if_neg (by rw [← hin k, this]; simp), Option.none_or]
  | false =>
    have hc := ht.child
    obtain ⟨e₁, cd, cdk, x, hrun, hopen, hgo, hres⟩ :=
      ensureLoaded_run (id :: rest.map ScanFrame.id) hc.stored hc.sane.sound
    have hcload := loaded_known hgo.stored hres
    have hc₁ := hc.opens hopen hgo
    have hleaf : ∀ es m, x.toNode = .leaf es → scanLoop (m + 1)
      (⟨id, lo, hi, cs₁.length, acc⟩ :: rest) e =
        scanLoop m (⟨id, lo, hi, cs₁.length + 1,
          (es.filter (inBounds cLo cHi)).toList.foldl (fun m x => m.insert x.1 x.2.value)
            acc⟩ :: rest) e₁ := by
      intro es m hx
      rw [scanLoop, Engine.scanLoopOr, Engine.run_bind hload]
      simp only [Body.toNode_node, hget, hbounds, hempty, List.map_cons]
      rw [if_neg Bool.false_ne_true, Engine.run_bind hrun, Engine.run_bind hcload, hx]
      simp only [rangeOf_of_nonempty es hempty]
    have hinner : ∀ ps ds bb m, x.toNode = .internal ps ds bb →
        scanLoop (m + 1) (⟨id, lo, hi, cs₁.length, acc⟩ :: rest) e =
          scanLoop m (⟨c.id, cLo, cHi, 0, OrdMap.empty⟩ :: ⟨id, lo, hi, cs₁.length + 1,
            acc⟩ :: rest) e₁ := by
      intro ps ds bb m hx
      rw [scanLoop, Engine.scanLoopOr, Engine.run_bind hload]
      simp only [Body.toNode_node, hget, hbounds, hempty, List.map_cons]
      rw [if_neg Bool.false_ne_true, Engine.run_bind hrun, Engine.run_bind hcload, hx]
    cases h with
    | zero =>
      induction x using Body.zeroCases with
      | hl es =>
        refine ⟨e₁, _, (es.filter (inBounds cLo cHi)).toList.foldl
          (fun (m : OrdMap Key Value) (x : Key × LeafEntry) => m.insert x.1 x.2.value) acc, 1,
            fun m => hleaf es m rfl, fun k => ?_, hopen, hgo⟩
        have hplain : (Live.plain c).resolve k = (es.get? k).map LeafEntry.value := by
          rw [← hopen.plain]
          rfl
        rw [OrdMap.get?_foldl_update (fun (m : OrdMap Key Value) k (v : LeafEntry) =>
          m.insert k v.value)
          (fun v _ => some v.value) (by simp) (fun _ _ _ _ hne => by simp [hne]),
            OrdMap.get?_filter, hplain]
        by_cases hk : inBounds cLo cHi k = true
        · rw [if_pos hk, if_pos ((hin k).mp hk)]
          cases es.get? k <;> rfl
        · rw [if_neg hk, if_neg (fun h0 => hk ((hin k).mpr h0))]
          rfl
    | succ h =>
      induction x using Body.succCases with
      | hn qs ds bb =>
        obtain ⟨e₂, t', acc₂, n, hrun₂, hacc, hopen₂, hgo₂⟩ := ih e₁ c.id cd cdk qs ds bb cLo cHi
          (⟨id, lo, hi, cs₁.length + 1, acc⟩ :: rest) hc₁ hres hempty
        refine ⟨e₂, t', acc.append acc₂, n + 1, fun m => ?_, fun k => ?_, hopen.trans hopen₂,
          hgo.trans (hgo₂.mono fun i hi => List.mem_cons_of_mem _ hi)⟩
        · rw [← Nat.add_assoc, hinner qs (ds.map Cell.id) bb (m + n) rfl]
          exact hrun₂ m
        · rw [OrdMap.get?_append, hacc k, ← hopen.plain]
          by_cases hk : inBounds cLo cHi k = true
          · rw [if_pos hk, if_pos ((hin k).mp hk)]
            rfl
          · rw [if_neg hk, if_neg (fun h0 => hk ((hin k).mpr h0))]

lemma scan_children (lo hi : Bound) (ps₁ : List Key) (cs₁ : List (Live h)) (ih : ScanSpec π prm h)
    (hl : ps₁.length = cs₁.length) (hl₂ : cs₂.length = ps₂.length + 1)
    (hs : (ps₁ ++ ps₂).Pairwise (· < ·))
    (ht : Readable prm e (Cell.known id d dk (Body.node (ps₁ ++ ps₂) (cs₁ ++ cs₂) b)))
    (hd : Resident e.store id d) (acc : OrdMap Key Value) (rest : List ScanFrame) :
    ∃ e' cs₂' acc' n, (∀ m, scanLoop (m + n) (⟨id, lo, hi, cs₁.length, acc⟩ :: rest) e =
        scanLoop m (⟨id, lo, hi, cs₁.length + cs₂.length, acc'⟩ :: rest) e') ∧
      (∀ k, acc'.get? k = (if inBounds lo hi k = true ∧ ∀ p ∈ ps₁, p ≤ k then
        (childAt ps₂ (cs₂.map Live.plain) k).bind (fun c => c.resolve k)
        else none).or (acc.get? k)) ∧
      List.Forall₂ Opens cs₂ cs₂' ∧
      Goes (id :: rest.map ScanFrame.id)
      (Live.foot (Cell.known id d dk (Body.node (ps₁ ++ ps₂) (cs₁ ++ cs₂) b)))
        (Live.foot (Cell.known id d dk (Body.node (ps₁ ++ ps₂) (cs₁ ++ cs₂') b))) e e' := by
  induction cs₂ generalizing ps₁ ps₂ cs₁ e acc with
  | nil => simp at hl₂
  | cons c cs₂ hrec =>
    obtain ⟨e₁, c', acc₁, n₁, hrun₁, hacc₁, hopen, hgo⟩ :=
      scan_child lo hi ih hl hs ht hd acc rest
    have hgo₁ := hgo.child ht.stored hopen.leads.id
    have ht₁ := ht.opens (Opens.within hl hopen) hgo₁
    have hd₁ : Resident e₁.store id d := hd.imp_right (hgo.kept id (List.mem_cons_self ..))
    cases ps₂ with
    | nil =>
      obtain rfl : cs₂ = [] := by simpa using hl₂
      refine ⟨e₁, [c'], acc₁, n₁, hrun₁, fun k => ?_,
        List.Forall₂.cons hopen List.Forall₂.nil, hgo₁⟩
      rw [hacc₁ k]
      simp [owns, childAt]
    | cons p ps₂ =>
      have happ : ∀ xs : List (Live h),
        Cell.known id d dk (Body.node (ps₁ ++ p :: ps₂) (cs₁ ++ c' :: xs) b) =
          Cell.known id d dk (Body.node ((ps₁ ++ [p]) ++ ps₂) ((cs₁ ++ [c']) ++ xs) b) := by
        intro xs
        simp
      rw [happ] at ht₁
      obtain ⟨e₂, cs₂', acc₂, n₂, hrun₂, hacc₂, hcs, hgo₂⟩ := hrec _ _ (by simp [hl])
        (by simpa using hl₂)
        (by simpa using hs) ht₁ hd₁ acc₁
      rw [← happ, ← happ] at hgo₂
      refine ⟨e₂, c' :: cs₂', acc₂, n₂ + n₁, fun m => ?_, fun k => ?_, List.Forall₂.cons hopen hcs,
        hgo₁.trans hgo₂⟩
      · rw [← Nat.add_assoc, hrun₁]
        have := hrun₂ m
        rw [List.length_append, List.length_singleton] at this
        rw [this]
        simp [Nat.add_assoc, Nat.add_comm 1]
      · rw [hacc₂ k, hacc₁ k]
        have hp : owns ps₁ (p :: ps₂) k ↔ (∀ q ∈ ps₁, q ≤ k) ∧ k < p := by
          refine and_congr_right fun _ => ⟨fun hk => hk p (by simp), fun hk q hq => ?_⟩
          rcases List.mem_cons.mp hq with rfl | hq
          · exact hk
          · exact hk.trans ((List.pairwise_cons.mp (List.pairwise_append.mp hs).2.1).1 q hq)
        have hall : (∀ q ∈ ps₁ ++ [p], q ≤ k) ↔ (∀ q ∈ ps₁, q ≤ k) ∧ p ≤ k := by
          simp [or_imp, forall_and]
        simp only [hp, hall, List.map_cons, childAt]
        by_cases hpk : p ≤ k
        · simp [hpk, not_lt.mpr hpk]
        · simp [hpk, not_le.mp hpk]

end Children

/-- A frame gathers the contents of its subtree within its bounds. -/
theorem scanSpec {π : Type} {prm : Params} {h : ℕ} : ScanSpec π prm h := by
  induction h with
  | zero => trivial
  | succ h ih =>
    intro e id d dk ps cs b lo hi rest ht hd hne
    obtain ⟨lo', hi', hg⟩ := ht.sane.placed
    obtain ⟨hcs, hkids⟩ := Body.kids_of_rest ht.rest
    obtain ⟨hsorted, hlen⟩ := hg.1.pivots hcs
    obtain ⟨e₁, cs', acc, n, hrun, hacc, hopen, hgo⟩ := scan_children lo hi [] [] ih rfl hlen
      hsorted ht hd OrdMap.empty rest
    simp only [List.nil_append, List.length_nil, Nat.zero_add] at hrun hgo
    have hopens : Opens (Cell.known id d dk (Body.node ps cs b))
      (Cell.known id d dk (Body.node ps cs' b)) :=
      Opens.children [] [] hopen rfl hlen.le
    refine ⟨e₁, _, (b.filter (inBounds lo hi)).toList.foldl (fun m x => applyScan m x.1 x.2) acc,
      n + 1,
      fun c => ?_, fun k => ?_, hopens, hgo⟩
    · have hload := loaded_known hgo.stored (hd.imp_right (hgo.kept id (List.mem_cons_self ..)))
      have hend : ((cs'.map Cell.id)[cs.length]?) = none :=
        List.getElem?_eq_none (by simp [hopen.length_eq])
      rw [show c + (n + 1) = (c + 1) + n by omega, hrun, scanLoop, Engine.scanLoopOr,
        Engine.run_bind hload]
      simp only [Body.toNode_node, hend, rangeOf_of_nonempty b hne]
      cases rest <;> rfl
    · rw [OrdMap.get?_foldl_update applyScan (fun m x => m.act x)
        (by intro m k v; rcases v with ⟨_, _⟩ | ⟨_⟩ | ⟨_, _⟩ <;> simp [applyScan, Message.act])
        (by intro m k v k' hk; rcases v with ⟨_, _⟩ | ⟨_⟩ | ⟨_, _⟩ <;> simp [applyScan, hk]),
        OrdMap.get?_filter, hacc k, Body.plain_node, Tree.resolve_node]
      by_cases hk : inBounds lo hi k = true
      · cases hb : b.get? k <;> simp [hk]
      · simp [hk]

section Public
variable {π : Type} {h : ℕ} {e : Engine π Ideal} {t : Live h}

lemma Holds.readable (ht : Holds e t) : Readable e.params e t :=
  ⟨ht.stored, ⟨⟨none, none, ht.good false⟩, ht.sound⟩, ht.rest⟩

lemma Holds.opens {e' : Engine π Ideal} {t' : Live h} {pins : List NodeId} (ht : Holds e t)
    (ho : Opens t t')
    (hg : Goes pins (Live.foot t) (Live.foot t') e e') : Holds e' t' where
  root := hg.root.trans (ht.root.trans ho.leads.id.symm)
  stored := hg.stored
  whole := hg.shifts.whole ht.whole
  good p := (ho.leads.good p none none (ht.good p)).1
  sound := ho.leads.sound _ hereditary_labelled ht.sound
  rest := by
    rw [ho.plain, hg.params]
    exact ht.rest
  fresh p k := by
    rw [hg.moves.nextSeq]
    exact (ho.leads.good p none none (ht.good p)).2.below k _ (inRange_none k) (ht.fresh p k)
  legal := hg.params ▸ ht.legal

lemma Holds.recorded (ht : Holds e t) (f : Recorder → Recorder) :
    Holds { e with trace := f e.trace } t :=
  ⟨ht.root, ht.stored, ht.whole, ht.good, ht.sound, ht.rest, ht.fresh, ht.legal⟩

/-- A point read answers the contents and only loads. -/
theorem lookup_run (ht : Holds e t) (key : Key) :
    ∃ e' t' N, (∀ fuel ≥ N, Engine.lookup fuel key e = .ok ((Live.plain t).resolve key) e') ∧
    Holds e' t' ∧
      Opens t t' ∧ e'.fixed = e.fixed := by
  have hr : Engine.record (fun r => r.get key) e = .ok () { e with trace := e.trace.get key } := rfl
  have ht₁ := ht.recorded fun r => r.get key
  obtain ⟨e', t', N, hrun, hopen, hgo⟩ := getLoop_run key ht₁.stored (ht₁.good false)
    (inRange_none key) ht₁.sound
    ht₁.rest none
  refine ⟨e', t', N, fun fuel hf => ?_, ht₁.opens hopen hgo, hopen, hgo.fixed⟩
  have hget := hrun fuel hf
  rw [← ht.root] at hget
  unfold Engine.lookup
  rw [Engine.run_bind hr, Engine.run_bind Engine.run_get, Live.resolve_plain]
  exact hget

/-- A scan answers the contents within its bounds and only loads. -/
theorem scan_run (ht : Holds e t) (lo hi : Bound) :
    ∃ e' t' N acc, (∀ fuel ≥ N, Engine.scan fuel lo hi e = .ok (OrdMap.toList acc) e') ∧
      Gathers lo hi (Live.plain t) acc ∧ Holds e' t' ∧ Opens t t' ∧ e'.fixed = e.fixed := by
  have hr : Engine.record (fun r => r.scan lo hi) e = .ok ()
    { e with trace := e.trace.scan lo hi } := rfl
  have ht₁ := ht.recorded fun r => r.scan lo hi
  cases hempty : rangeIsEmpty lo hi with
  | true =>
    refine ⟨_, t, 0, OrdMap.empty, fun fuel _ => ?_, fun k => ?_, ht₁, Opens.refl t, rfl⟩
    · unfold Engine.scan Engine.scanOr
      rw [Engine.run_bind hr, if_pos hempty]
      rfl
    · simp [not_inBounds_of_empty hempty k]
  | false =>
    obtain ⟨e₁, d, dk, x, hrun, hopen, hgo, hres⟩ := ensureLoaded_run [] ht₁.stored ht₁.sound
    have hload := loaded_known hgo.stored hres
    have hrun' := hrun
    have hload' := hload
    rw [← ht.root] at hrun' hload'
    have hleaf : ∀ es fuel, x.toNode = .leaf es → Engine.scan fuel lo hi e =
        .ok ((es.filter (inBounds lo hi)).toList.map fun x => (x.1, x.2.value)) e₁ := by
      intro es fuel hx
      unfold Engine.scan Engine.scanOr
      rw [Engine.run_bind hr, if_neg (by simp [hempty]), Engine.run_bind Engine.run_get,
        Engine.run_bind hrun', Engine.run_bind hload', hx]
      simp only [rangeOf_of_nonempty es hempty]
      rfl
    have hinner : ∀ ps ds bb fuel, x.toNode = .internal ps ds bb →
        Engine.scan fuel lo hi e = scanLoop fuel [⟨t.id, lo, hi, 0, OrdMap.empty⟩] e₁ := by
      intro ps ds bb fuel hx
      unfold Engine.scan Engine.scanOr
      rw [Engine.run_bind hr, if_neg (by simp [hempty]), Engine.run_bind Engine.run_get,
        Engine.run_bind hrun', Engine.run_bind hload', hx, ← ht.root]
    have hread := ht₁.readable.opens hopen hgo
    have hold := ht₁.opens hopen hgo
    cases h with
    | zero =>
      induction x using Body.zeroCases with
      | hl es =>
        have hsorted : ((es.filter (inBounds lo hi)).toList.map fun x => (x.1, x.2.value)).Pairwise
            (fun a b => a.1 < b.1) := by
          rw [List.pairwise_map]
          exact (es.filter (inBounds lo hi)).sorted
        refine ⟨e₁, _, 0, ⟨_, hsorted⟩, fun fuel _ => hleaf es fuel rfl, fun k => ?_, hold,
          hopen, hgo.fixed⟩
        have hplain : (Live.plain t).resolve k = (es.get? k).map LeafEntry.value := by
          rw [← hopen.plain]
          rfl
        have hfind : ∀ l : List (Key × LeafEntry), OrdMap.find (l.map fun x => (x.1, x.2.value)) k =
            (OrdMap.find l k).map LeafEntry.value := by
          intro l
          induction l with
          | nil => rfl
          | cons y l ih =>
            simp only [List.map_cons, OrdMap.find, ih]
            split_ifs <;> rfl
        change OrdMap.find _ k = _
        rw [hfind, hplain]
        change ((es.filter (inBounds lo hi)).get? k).map LeafEntry.value = _
        rw [OrdMap.get?_filter]
        by_cases hk : inBounds lo hi k = true <;> simp [hk]
    | succ h =>
      induction x using Body.succCases with
      | hn ps cs b =>
        obtain ⟨e₂, t', acc, n, hrun₂, hacc, hopen₂, hgo₂⟩ :=
          (scanSpec : ScanSpec π e.params (h + 1)) e₁ t.id d dk ps cs b lo hi [] hread hres hempty
        rw [show (Body.node ps cs b).plain d = Live.plain t from hopen.plain] at hacc
        refine ⟨e₂, t', n, acc, fun fuel hf => ?_, hacc, hold.opens hopen₂ hgo₂, hopen.trans hopen₂,
          hgo₂.fixed.trans hgo.fixed⟩
        obtain ⟨c, rfl⟩ : ∃ c, fuel = c + n := ⟨fuel - n, by omega⟩
        rw [hinner ps (cs.map Cell.id) b _ rfl]
        exact hrun₂ c

end Public
end Beetree
