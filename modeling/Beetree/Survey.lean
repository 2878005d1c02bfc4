import Beetree.Scan

/-! Reading the whole tree. -/
namespace Beetree
open Engine (loadLoop)

/-- From a store free of a budget nothing is evicted. -/
structure Ideal.Stays (s s' : Ideal) : Prop where
  free : s'.free = s.free
  kept : s.free = true → s.kept ⊆ s'.kept

def Awake (s : Ideal) (F : Foot) : Prop := ∀ x ∈ F, ∃ n d r, x.2 = .loaded n d r ∧ Resident s x.1 d

section Stays
variable {s s' s'' : Ideal} {F : Foot}

lemma Ideal.Stays.refl (s : Ideal) : s.Stays s := ⟨rfl, fun _ => subset_rfl⟩

lemma Ideal.Stays.trans (h : s.Stays s') (h' : s'.Stays s'') : s.Stays s'' :=
  ⟨h'.free.trans h.free, fun hf => (h.kept hf).trans (h'.kept (h.free.trans hf))⟩

lemma Ideal.stays_addSlots (s : Ideal) (xs : List Slot) : (s.addSlots xs).free = s.free ∧
    (s.addSlots xs).kept = s.kept := by
  induction xs generalizing s with
  | nil => exact ⟨rfl, rfl⟩
  | cons x xs ih => exact ih _

lemma Ideal.stays_keep {id : NodeId} {pins : List NodeId} (hf : s'.free = s.free)
    (hk : s'.kept = s.kept) :
    s.Stays (s'.keep id pins) := by
  refine ⟨hf, fun hfree i hi => Set.mem_insert_of_mem _ ⟨hk ▸ hi, Or.inl (hf.trans hfree)⟩⟩

lemma ensureLoaded_stays {π : Type} {e e' : Engine π Ideal} {id : NodeId} {pins : List NodeId}
    (hrun : Engine.ensureLoaded id pins e = .ok () e') : e.store.Stays e'.store := by
  unfold Engine.ensureLoaded Engine.onStore at hrun
  simp only [NodeStore.ensureLoaded] at hrun
  cases hx : e.store.slots id with
  | none =>
    rw [hx] at hrun
    cases hrun
  | some x =>
    rw [hx] at hrun
    rcases x with ⟨n, d, _ | r⟩ | ⟨h, t⟩
    · dsimp only at hrun
      split_ifs at hrun
      cases hrun
      exact .refl _
    · dsimp only at hrun
      split_ifs at hrun
      · cases hrun
        exact .refl _
      · cases hrun
        exact Ideal.stays_keep rfl rfl
    · cases hrun
      obtain ⟨hf, hk⟩ := e.store.stays_addSlots (Ideal.stubs t)
      exact Ideal.stays_keep hf hk

lemma Awake.mono (h : Awake s F) (hs : s.kept ⊆ s'.kept) : Awake s' F := by
  intro x hx
  obtain ⟨n, d, r, hn, hr⟩ := h x hx
  exact ⟨n, d, r, hn, hr.imp_right fun hi => hs hi⟩

lemma awake_append {G : Foot} : Awake s (F ++ G) ↔ Awake s F ∧ Awake s G := List.forall_mem_append

end Stays

section Load
variable {π : Type} {e : Engine π Ideal} {h : ℕ}

/-- Everything below some nodes has been read, and without a budget it is all in memory. -/
structure Surveys (ids : List NodeId) (F F' : Foot) (n : ℕ) (e e' : Engine π Ideal) : Prop where
  run : ∀ c stack, loadLoop (n + c) (ids ++ stack) e = loadLoop c stack e'
  goes : Goes [] F F' e e'
  stays : e.store.Stays e'.store
  awake : e.store.free = true → Awake e'.store F'

def SurveySpec (π : Type) (h : ℕ) : Prop :=
  ∀ (e : Engine π Ideal) (t : Live h), Stored e.store (Live.foot t) → Live.Sane t →
    ∃ e' t' n, Opens t t' ∧ Surveys [t.id] (Live.foot t) (Live.foot t') n e e'

lemma survey_forest (hspec : SurveySpec π h) (ts : List (Live h))
    (hF : Stored e.store (ts.flatMap Live.foot))
    (hS : ∀ t ∈ ts, Live.Sane t) :
    ∃ e' ts' n, List.Forall₂ Opens ts ts' ∧ Surveys (ts.map Cell.id) (ts.flatMap Live.foot)
    (ts'.flatMap Live.foot) n e e' := by
  induction ts generalizing e with
  | nil =>
    exact ⟨e, [], 0, .nil, ⟨fun c stack => by simp, Goes.refl hF, .refl _,
      fun _ x hx => by cases hx⟩⟩
  | cons t ts ih =>
    rw [List.flatMap_cons] at hF
    obtain ⟨e₁, t', n₁, hopen, h₁⟩ := hspec e t (Stored.append_iff.mp hF).1 (hS t (by simp))
    have hgo₁ := h₁.goes.frame (H := []) hF
    simp only [List.nil_append] at hgo₁
    obtain ⟨e₂, ts', n₂, hts, h₂⟩ := ih (Stored.append_iff.mp hgo₁.stored).2.1 fun t ht =>
      hS t (by simp [ht])
    have hgo₂ := h₂.goes.frame (G := []) (H := Live.foot t') (by simpa using hgo₁.stored)
    simp only [List.append_nil] at hgo₂
    refine ⟨e₂, t' :: ts', n₁ + n₂, .cons hopen hts,
      ⟨fun c stack => ?_, ?_, h₁.stays.trans h₂.stays, fun hf => ?_⟩⟩
    · have := h₁.run (n₂ + c) (ts.map Cell.id ++ stack)
      rw [h₂.run] at this
      simpa [Nat.add_assoc] using this
    · simpa only [List.flatMap_cons] using hgo₁.trans hgo₂
    · have hf₁ : e₁.store.free = true := h₁.stays.free.trans hf
      rw [List.flatMap_cons, awake_append]
      exact ⟨(h₁.awake hf).mono (h₂.stays.kept hf₁), h₂.awake hf₁⟩

theorem surveySpec : SurveySpec π h := by
  induction h with
  | zero =>
    intro e t hF hS
    obtain ⟨e₁, d, dk, x, hrun, hopen, hgo, hres⟩ := ensureLoaded_run [] hF hS.sound
    have hload : Engine.loaded t.id e₁ = .ok x.toNode e₁ := loaded_run hgo.stored.top hres
    refine ⟨e₁, _, 1, hopen, ⟨fun c stack => ?_, hgo, ensureLoaded_stays hrun, fun _ y hy => ?_⟩⟩
    · rw [Nat.add_comm, List.singleton_append]
      simp only [loadLoop]
      rw [Engine.run_bind hrun, Engine.run_bind hload]
      induction x using Body.zeroCases with
      | hl es => rfl
    · induction x using Body.zeroCases with
      | hl es =>
        obtain rfl := List.mem_singleton.mp hy
        exact ⟨_, d, _, rfl, hres⟩
  | succ h ih =>
    intro e t hF hS
    obtain ⟨e₁, d, dk, x, hrun, hopen, hgo₁, hres⟩ := ensureLoaded_run [] hF hS.sound
    have hload : Engine.loaded t.id e₁ = .ok x.toNode e₁ := loaded_run hgo₁.stored.top hres
    have hst₁ := ensureLoaded_stays hrun
    have hS₁ := hopen.leads.sane hS
    induction x using Body.succCases with
    | hn ps cs b =>
      have hperm : ∀ cs : List (Live h),
        (cs.reverse.flatMap Live.foot).Perm (cs.flatMap Live.foot) :=
        fun cs => (List.reverse_perm cs).flatMap_right _
      have hF₁ := hgo₁.stored
      rw [Live.foot_known, Body.foot_node] at hF₁
      have hF₂ := ((Stored.append_iff (F := [_])).mp hF₁).2.1
      obtain ⟨e₂, cs', n, hcs, h₂⟩ := survey_forest ih cs.reverse (hF₂.perm (hperm cs).symm)
        fun c hc => hS₁.kids c (List.mem_reverse.mp hc)
      have hcs' : List.Forall₂ Opens cs cs'.reverse := by
        simpa using List.forall₂_reverse_iff.mpr hcs
      have hgo :=
        hgo₁.trans (Goes.children hgo₁.stored (ids_of_opens hcs')
          (h₂.goes.perm (hperm cs) (hperm cs').symm))
      refine ⟨e₂, Cell.known t.id d dk (Body.node ps cs'.reverse b), n + 1,
        hopen.trans (Opens.children [] [] hcs' rfl hS₁.length_le),
        ⟨fun c stack => ?_, hgo, hst₁.trans h₂.stays, fun hf y hy => ?_⟩⟩
      · rw [← h₂.run, Nat.add_right_comm, List.singleton_append, List.map_reverse]
        simp only [loadLoop]
        rw [Engine.run_bind hrun, Engine.run_bind hload]
        rfl
      · have hf₁ : e₁.store.free = true := hst₁.free.trans hf
        rw [Live.foot_known, Body.foot_node, List.mem_cons] at hy
        rcases hy with rfl | hy
        · exact ⟨_, d, _, rfl, hres.imp_right fun hi => h₂.stays.kept hf₁ hi⟩
        · exact h₂.awake hf₁ y ((hperm cs').mem_iff.mp (by simpa using hy))

/-- Reading every node leaves the tree as it is. -/
theorem loadAll_run {t : Live h} (ht : Holds e t) : ∃ (e' : Engine π Ideal) (t' : Live h) (N : ℕ),
    (∀ fuel ≥ N, Engine.loadAll fuel e = .ok () e') ∧ Holds e' t' ∧ Opens t t' ∧
    e'.fixed = e.fixed ∧
      e'.store.free = e.store.free ∧ (e.store.free = true → Awake e'.store (Live.foot t')) := by
  obtain ⟨e', t', n, hopen, hs⟩ := surveySpec e t ht.stored ⟨⟨none, none, ht.good false⟩, ht.sound⟩
  refine ⟨e', t', n + 1, fun fuel hf => ?_, ht.opens hopen hs.goes, hopen, hs.goes.fixed,
    hs.stays.free, hs.awake⟩
  obtain ⟨c, rfl⟩ := Nat.exists_eq_add_of_le hf
  unfold Engine.loadAll
  rw [Engine.run_bind Engine.run_get, ht.root, Nat.add_assoc, ← List.append_nil [t.id],
    hs.run, Nat.add_comm]
  rfl

end Load

section Anywhere
variable {π : Type} {e e' : Engine π Ideal} {h : ℕ} {t : Live h} {pins : List NodeId} {id : NodeId}

lemma ensureLoaded_inside (hF : Stored e.store (Live.foot t)) (hS : Live.Sane t)
    (hid : id ∈ (Live.foot t).ids)
    (hrun : Engine.ensureLoaded id pins e = .ok () e') :
    ∃ t', Opens t t' ∧ Goes pins (Live.foot t) (Live.foot t') e e' := by
  have htop : id = t.id → ∃ t', Opens t t' ∧ Goes pins (Live.foot t) (Live.foot t') e e' := by
    rintro rfl
    obtain ⟨e₁, d, dk, x, hrun₁, hopen, hgo, -⟩ := ensureLoaded_run pins hF hS.sound
    rw [hrun] at hrun₁
    cases hrun₁
    exact ⟨_, hopen, hgo⟩
  induction h with
  | zero =>
    refine htop ?_
    rcases t with ⟨i, d, dk, x⟩ | ⟨i, d⟩
    · induction x using Body.zeroCases with
      | hl es => exact List.mem_singleton.mp hid
    · exact List.mem_singleton.mp hid
  | succ h ih =>
    rcases t with ⟨i, d, dk, x⟩ | ⟨i, d⟩
    · induction x using Body.succCases with
      | hn ps cs b =>
        obtain ⟨y, hy, rfl⟩ := List.mem_map.mp hid
        rw [Live.foot_known, Body.foot_node, List.mem_cons, List.mem_flatMap] at hy
        rcases hy with rfl | ⟨c, hc, hy⟩
        · exact htop rfl
        · have hSc := hS.kids c hc
          have hle := hS.length_le
          obtain ⟨cs₁, cs₂, rfl⟩ := List.append_of_mem hc
          have hmem : y.1 ∈ (Live.foot c).ids := List.mem_map_of_mem hy
          obtain ⟨c', hopen, hgo⟩ := ih hF.child hSc hmem fun heq => by
            obtain ⟨e₁, d', dk', x', hrun₁, hopen, hgo, -⟩ :=
              ensureLoaded_run pins hF.child hSc.sound
            rw [← heq, hrun] at hrun₁
            cases hrun₁
            exact ⟨_, hopen, hgo⟩
          have hlen : (ps.take cs₁.length).length = cs₁.length := by
            rw [List.length_append, List.length_cons] at hle
            rw [List.length_take]
            omega
          refine ⟨Cell.known i d dk (Body.node ps (cs₁ ++ c' :: cs₂) b), ?_,
            Goes.child hF hopen.leads.id hgo⟩
          have hwithin :
            Opens (Cell.known i d dk (Body.node (ps.take cs₁.length ++ ps.drop cs₁.length)
              (cs₁ ++ c :: cs₂) b))
              (Cell.known i d dk (Body.node (ps.take cs₁.length ++ ps.drop cs₁.length)
                (cs₁ ++ c' :: cs₂) b)) :=
            Opens.within hlen hopen
          rwa [List.take_append_drop] at hwithin
    · exact htop (List.mem_singleton.mp hid)

/-- There is no slot that has not been given out. -/
def Ideal.Bounded (s : Ideal) : Prop := ∀ i x, s.slots i = some x → i < s.next

lemma Ideal.Bounded.put {s : Ideal} (hs : s.Bounded) {i : NodeId} (hi : i < s.next)
    (x : Option Slot) : (s.put i x).Bounded := by
  intro j y hy
  by_cases hji : j = i
  · exact hji ▸ hi
  · exact hs j y (by simpa [Ideal.put, Function.update_of_ne hji] using hy)

lemma Ideal.Bounded.addSlots {s : Ideal} (hs : s.Bounded) (xs : List Slot) :
    (s.addSlots xs).Bounded ∧ s.next ≤ (s.addSlots xs).next := by
  induction xs generalizing s with
  | nil => exact ⟨hs, le_rfl⟩
  | cons x xs ih =>
    have hnext : Ideal.Bounded { s.put s.next (some x) with next := s.next + 1 } := by
      intro j y hy
      by_cases hj : j = s.next
      · exact hj ▸ Nat.lt_succ_self _
      · exact Nat.lt_succ_of_lt (hs j y (by simpa [Ideal.put, Function.update_of_ne hj] using hy))
    obtain ⟨hb, hle⟩ := ih hnext
    exact ⟨hb, (Nat.le_succ _).trans hle⟩

lemma ensureLoaded_bounded (hs : e.store.Bounded)
    (hrun : Engine.ensureLoaded id pins e = .ok () e') : e'.store.Bounded := by
  unfold Engine.ensureLoaded Engine.onStore at hrun
  simp only [NodeStore.ensureLoaded] at hrun
  cases hx : e.store.slots id with
  | none =>
    rw [hx] at hrun
    cases hrun
  | some x =>
    rw [hx] at hrun
    rcases x with ⟨n, d, _ | r⟩ | ⟨h, t⟩
    · dsimp only at hrun
      split_ifs at hrun
      cases hrun
      exact hs
    · dsimp only at hrun
      split_ifs at hrun <;> cases hrun <;> exact hs
    · cases hrun
      obtain ⟨hb, hle⟩ := hs.addSlots (Ideal.stubs t)
      exact hb.put ((hs id _ hx).trans_le hle) _

/-- Whatever is loaded, a tree at rest stays at rest. -/
lemma Holds.ensured (ht : Holds e t) (hb : e.store.Bounded)
    (hrun : Engine.ensureLoaded id pins e = .ok () e') :
    ∃ t', Holds e' t' ∧ Opens t t' ∧ e'.fixed = e.fixed := by
  by_cases hid : id ∈ (Live.foot t).ids
  · obtain ⟨t', hopen, hgo⟩ := ensureLoaded_inside ht.stored ⟨⟨none, none, ht.good false⟩,
      ht.sound⟩ hid hrun
    exact ⟨t', ht.opens hopen hgo, hopen, hgo.fixed⟩
  · exfalso
    unfold Engine.ensureLoaded Engine.onStore at hrun
    simp only [NodeStore.ensureLoaded] at hrun
    have hnone : e.store.slots id = none := by
      by_contra hne
      obtain ⟨x, hx⟩ := Option.ne_none_iff_exists'.mp hne
      rw [ht.whole id (hb id x hx) hid] at hx
      cases hx
    rw [hnone] at hrun
    cases hrun

end Anywhere

/-- The walk down the leftmost spine, over any store. -/
def Engine.heightLoop {π St : Type} [NodeStore St] : ℕ → ℕ → NodeId → Engine.Act π St ℕ
  | 0, _, _ => throw .fuel
  | n + 1, height, id => do
    Engine.ensureLoaded id []
    match ← Engine.loaded id with
    | .leaf _ => pure height
    | .internal _ [] _ => throw .panic
    | .internal _ (child :: _) _ => heightLoop n (height + 1) child

section Height
variable {π : Type} {e : Engine π Ideal} {h : ℕ}

lemma heightLoop_run {prm : Params} {t : Live h} (hF : Stored e.store (Live.foot t))
    (hS : Live.Sane t)
    (hrest : (Live.plain t).RootRest prm) : ∃ (e' : Engine π Ideal) (t' : Live h), Opens t t' ∧
      Goes [] (Live.foot t) (Live.foot t') e e' ∧
      ∀ n height, Engine.heightLoop (h + 1 + n) height t.id e = .ok (height + h) e' := by
  induction h generalizing e with
  | zero =>
    obtain ⟨e₁, d, dk, x, hrun, hopen, hgo, hres⟩ := ensureLoaded_run [] hF hS.sound
    have hload : Engine.loaded t.id e₁ = .ok x.toNode e₁ := loaded_run hgo.stored.top hres
    refine ⟨e₁, _, hopen, hgo, fun n height => ?_⟩
    rw [Nat.zero_add, Nat.add_comm]
    simp only [Engine.heightLoop]
    rw [Engine.run_bind hrun, Engine.run_bind hload]
    rfl
  | succ h ih =>
    obtain ⟨e₁, d, dk, x, hrun, hopen, hgo₁, hres⟩ := ensureLoaded_run [] hF hS.sound
    have hload : Engine.loaded t.id e₁ = .ok x.toNode e₁ := loaded_run hgo₁.stored.top hres
    have hS₁ := hopen.leads.sane hS
    have hrest₁ := hrest
    rw [← hopen.plain] at hrest₁
    induction x using Body.succCases with
    | hn ps cs b =>
      rw [Live.plain_known, Body.plain_node] at hrest₁
      obtain ⟨-, hpos, -, hkids⟩ := Tree.rest_node.mp hrest₁
      cases cs with
      | nil => simp at hpos
      | cons c cs =>
        have hfoot :
          Stored e₁.store (Live.foot (Cell.known t.id d dk (Body.node ps ([] ++ c :: cs) b))) :=
          hgo₁.stored
        obtain ⟨e₂, c', hopen', hgo₂, hrun₂⟩ := ih hfoot.child (hS₁.kids c (by simp))
          (hkids _ (by simp)).rootRest
        have hwithin : Opens (Cell.known t.id d dk (Body.node ([] ++ ps) ([] ++ c :: cs) b))
            (Cell.known t.id d dk (Body.node ([] ++ ps) ([] ++ c' :: cs) b)) :=
              Opens.within rfl hopen'
        refine ⟨e₂, Cell.known t.id d dk (Body.node ps ([] ++ c' :: cs) b), hopen.trans hwithin,
          hgo₁.trans (Goes.child hfoot hopen'.leads.id hgo₂), fun n height => ?_⟩
        · rw [Nat.add_right_comm (h + 1) 1 n]
          simp only [Engine.heightLoop]
          rw [Engine.run_bind hrun, Engine.run_bind hload]
          refine (hrun₂ n (height + 1)).trans ?_
          rw [Nat.add_right_comm, Nat.add_assoc]

theorem height_run {t : Live h} (ht : Holds e t) : ∃ (e' : Engine π Ideal) (t' : Live h) (N : ℕ),
    (∀ fuel ≥ N, (do Engine.heightLoop fuel 1 (← get).root : Engine.Act π Ideal ℕ) e = .ok
      (h + 1) e') ∧ Holds e' t' ∧
      Opens t t' ∧ e'.fixed = e.fixed := by
  obtain ⟨e', t', hopen, hgo, hrun⟩ := heightLoop_run ht.stored ⟨⟨none, none, ht.good false⟩,
    ht.sound⟩ ht.rest
  refine ⟨e', t', h + 1, fun fuel hf => ?_, ht.opens hopen hgo, hopen, hgo.fixed⟩
  obtain ⟨n, rfl⟩ := Nat.exists_eq_add_of_le hf
  rw [Engine.run_bind Engine.run_get, ht.root, hrun, Nat.add_comm]

end Height
end Beetree
