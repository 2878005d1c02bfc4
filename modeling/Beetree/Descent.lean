import Beetree.Steps

/-! Looking for messages below a node, loading what is passed on the way. -/
namespace Beetree

section Sane
variable {h : ℕ} {q : Bool}

/-- A live tree that is valid where it stands and whose records can be read. -/
structure Live.Sane (t : Live h) : Prop where
  placed : ∃ lo hi, Live.Good false lo hi t
  sound : Live.Sound (fun _ d => d.Labelled) t

lemma Leads.sane {t t' : Live h} (ht : Leads q t t') (hs : Live.Sane t) : Live.Sane t' := by
  obtain ⟨⟨lo, hi, hg⟩, hS⟩ := hs
  exact ⟨⟨lo, hi, (ht.good false lo hi hg).1⟩, ht.sound _ hereditary_labelled hS⟩

variable {id : NodeId} {d : Bool} {dk : Option (VTree (h + 1))} {ps : List Key}
    {cs : List (Live h)} {b : Buffer}

lemma Live.Sane.kids (ht : Live.Sane (Cell.known id d dk (Body.node ps cs b))) :
    ∀ c ∈ cs, Live.Sane c := by
  obtain ⟨⟨lo, hi, hg⟩, hS⟩ := ht
  intro c hc
  refine ⟨?_, hS.2.2 c hc⟩
  have hne : cs ≠ [] := fun h0 => by simp [h0] at hc
  exact (kids_good_of_node hg.1 hne).forall (R := fun c => ∃ lo hi, Live.Good false lo hi c)
    (fun lo hi c _ hc => ⟨lo, hi, hc⟩) c hc

lemma Live.Sane.length_le (ht : Live.Sane (Cell.known id d dk (Body.node ps cs b))) :
    cs.length ≤ ps.length + 1 := by
  obtain ⟨⟨lo, hi, hg⟩, -⟩ := ht
  by_cases hne : cs = []
  · simp [hne]
  · exact (kids_good_of_node hg.1 hne).length.le

lemma Opens.children (ps₁ : List Key) {ps₂ : List Key} (cs₁ : List (Live h))
    {cs cs' : List (Live h)} (hcs : List.Forall₂ Opens cs cs')
    (hl : ps₁.length = cs₁.length) (hle : cs.length ≤ ps₂.length + 1) :
    Opens (Cell.known id d dk (Body.node (ps₁ ++ ps₂) (cs₁ ++ cs) b))
      (Cell.known id d dk (Body.node (ps₁ ++ ps₂) (cs₁ ++ cs') b)) := by
  induction hcs generalizing ps₁ ps₂ cs₁ with
  | nil => exact Opens.refl _
  | @cons c c' cs cs' hc hcs ih =>
    refine (Opens.within hl hc).trans ?_
    cases ps₂ with
    | nil =>
      obtain rfl : cs = [] := by simpa using hle
      cases hcs
      exact Opens.refl _
    | cons p ps₂ =>
      have hl' : (ps₁ ++ [p]).length = (cs₁ ++ [c']).length := by simp [hl]
      have hle' : cs.length ≤ ps₂.length + 1 := by simpa using hle
      simpa using ih _ _ hl' hle'

end Sane

section Search
variable {π : Type} {e : Engine π Ideal} {h : ℕ}

open Engine (subtreeHasMessages findBuffered)

/-- The end of a search below some nodes: it goes on with the rest of the stack, or it has found a
message. -/
def Searched (pins : List NodeId) (quiet : Prop) (ids : List NodeId) (n : ℕ)
    (e e' : Engine π Ideal) : Prop :=
  quiet ∧ (∀ c stack, subtreeHasMessages pins (n + c) (ids ++ stack) e = subtreeHasMessages
    pins c stack e') ∨
  ¬ quiet ∧ ∀ c stack, subtreeHasMessages pins (n + c) (ids ++ stack) e = .ok true e'

def SearchSpec (π : Type) (h : ℕ) : Prop :=
  ∀ (e : Engine π Ideal) (t : Live h) (pins : List NodeId), Stored e.store (Live.foot t) →
    Live.Sane t →
    ∃ e' d dk x n, Opens t (Cell.known t.id d dk x) ∧ (t.id ∈ pins → Resident e'.store t.id d) ∧
      Goes pins (Live.foot t) (Live.foot (Cell.known t.id d dk x)) e e' ∧
      Searched pins (Live.plain t).Quiet [t.id] n e e'

lemma search_forest (hspec : SearchSpec π h) (pins : List NodeId) (ts : List (Live h))
    (hF : Stored e.store (ts.flatMap Live.foot)) (hS : ∀ t ∈ ts, Live.Sane t) :
    ∃ e' ts' n, List.Forall₂ Opens ts ts' ∧
      Goes pins (ts.flatMap Live.foot) (ts'.flatMap Live.foot) e e' ∧
      Searched pins (∀ t ∈ ts, (Live.plain t).Quiet) (ts.map Cell.id) n e e' := by
  induction ts generalizing e with
  | nil => exact ⟨e, [], 0, List.Forall₂.nil, Goes.refl hF, Or.inl ⟨by simp, by simp⟩⟩
  | cons t ts ih =>
    rw [List.flatMap_cons] at hF
    obtain ⟨e₁, d, dk, x, n₁, hopen, -, hgo₁, hrun₁⟩ :=
      hspec e t pins (Stored.append_iff.mp hF).1 (hS t (by simp))
    have hgo₁' := hgo₁.frame (H := []) hF
    simp only [List.nil_append] at hgo₁'
    rcases hrun₁ with ⟨hq, hrun₁⟩ | ⟨hq, hrun₁⟩
    · obtain ⟨e₂, ts', n₂, hts, hgo₂, hrun₂⟩ := ih (Stored.append_iff.mp hgo₁'.stored).2.1
        fun t ht => hS t (by simp [ht])
      refine ⟨e₂, Cell.known t.id d dk x :: ts', n₁ + n₂, List.Forall₂.cons hopen hts, ?_, ?_⟩
      · have hgo₂' := hgo₂.frame (G := []) (H := Live.foot (Cell.known t.id d dk x))
          (by simpa using hgo₁'.stored)
        simp only [List.append_nil] at hgo₂'
        simpa only [List.flatMap_cons] using hgo₁'.trans hgo₂'
      · refine hrun₂.imp (fun hr => ⟨?_, fun c stack => ?_⟩) fun hr => ⟨?_, fun c stack => ?_⟩
        · simpa using ⟨hq, hr.1⟩
        · have := hrun₁ (n₂ + c) (ts.map Cell.id ++ stack)
          rw [hr.2] at this
          simpa [Nat.add_assoc] using this
        · exact fun hall => hr.1 fun t ht => hall t (by simp [ht])
        · have := hrun₁ (n₂ + c) (ts.map Cell.id ++ stack)
          rw [hr.2] at this
          simpa [Nat.add_assoc] using this
    · refine ⟨e₁, Cell.known t.id d dk x :: ts, n₁, List.Forall₂.cons hopen ?_, ?_, Or.inr ⟨?_, ?_⟩⟩
      · exact List.forall₂_same.mpr fun t _ => Opens.refl t
      · simpa only [List.flatMap_cons] using hgo₁'
      · exact fun hall => hq (hall t (by simp))
      · intro c stack
        have := hrun₁ c (ts.map Cell.id ++ stack)
        simpa using this

lemma Body.quiet_iff {d : Bool} {ps : List Key} {cs : List (Live h)} {b : Buffer} :
    ((Body.node ps cs b).plain d).Quiet ↔ b = OrdMap.empty ∧ ∀ c ∈ cs, (Live.plain c).Quiet := by
  rw [Body.plain_node, Tree.quiet_node]
  simp

lemma ids_of_opens {cs cs' : List (Live h)} (hcs : List.Forall₂ Opens cs cs') :
    cs'.map Cell.id = cs.map Cell.id := by
  induction hcs with
  | nil => rfl
  | cons hc _ ih => rw [List.map_cons, List.map_cons, ih, hc.leads.id]

lemma Goes.children {pins : List NodeId} {e' : Engine π Ideal} {id : NodeId} {d : Bool}
    {dk : Option (VTree (h + 1))} {ps : List Key} {cs cs' : List (Live h)} {b : Buffer}
    (hF : Stored e.store (Live.foot (Cell.known id d dk (Body.node ps cs b))))
    (hids : cs'.map Cell.id = cs.map Cell.id)
    (hg : Goes pins (cs.flatMap Live.foot) (cs'.flatMap Live.foot) e e') :
    Goes pins (Live.foot (Cell.known id d dk (Body.node ps cs b)))
      (Live.foot (Cell.known id d dk (Body.node ps cs' b))) e e' := by
  rw [Live.foot_known, Body.foot_node, Body.toNode_node] at hF ⊢
  rw [Live.foot_known, Body.foot_node, Body.toNode_node, hids]
  have := hg.frame (H :=
    [(id, .loaded (.internal ps (cs.map Cell.id) b) d (dk.map (Sigma.mk (h + 1))))]) (G := [])
    (by simpa using hF)
  simpa using this

lemma search_step {id : NodeId} {x : Body h} {pins : List NodeId}
    {e₁ : Engine π Ideal} (hrun : Engine.ensureLoaded id pins e = .ok () e₁)
    (hload : Engine.loaded id e₁ = .ok x.toNode e₁) (c : ℕ) (stack : List NodeId) :
    subtreeHasMessages pins (c + 1) (id :: stack) e =
      (match x.toNode with
        | .internal _ children buffer =>
          if buffer.isEmpty then subtreeHasMessages pins c
            (children.reverse ++ stack) else pure true
        | .leaf _ => subtreeHasMessages pins c stack : Engine.Act π Ideal Bool) e₁ := by
  simp only [subtreeHasMessages]
  refine (Engine.run_bind hrun).trans ((Engine.run_bind hload).trans ?_)
  cases x.toNode <;> rfl

theorem searchSpec : SearchSpec π h := by
  induction h with
  | zero =>
    intro e t pins hF hS
    obtain ⟨e₁, d, dk, x, hrun, hopen, hgo, hres⟩ := ensureLoaded_run pins hF hS.sound
    refine ⟨e₁, d, dk, x, 1, hopen, fun _ => hres, hgo, Or.inl ⟨trivial, fun c stack => ?_⟩⟩
    rw [Nat.add_comm, List.singleton_append,
      search_step (x := x) hrun (loaded_run hgo.stored.top hres)]
    rfl
  | succ h ih =>
    intro e t pins hF hS
    obtain ⟨e₁, d, dk, x, hrun, hopen, hgo₁, hres⟩ := ensureLoaded_run pins hF hS.sound
    have hstep := search_step (x := x) hrun (loaded_run hgo₁.stored.top hres)
    have hS₁ := hopen.leads.sane hS
    have hplain := hopen.plain
    induction x using Body.succCases with
    | hn ps cs b =>
      rw [Live.plain_known] at hplain
      rw [← hplain, Body.quiet_iff]
      by_cases hb : b = OrdMap.empty
      · subst hb
        have hperm : ∀ cs : List (Live h),
          (cs.reverse.flatMap Live.foot).Perm (cs.flatMap Live.foot) :=
          fun cs => (List.reverse_perm cs).flatMap_right _
        have hF₁ := hgo₁.stored
        rw [Live.foot_known, Body.foot_node] at hF₁
        have hF₂ := ((Stored.append_iff (F := [_])).mp hF₁).2.1
        obtain ⟨e₂, cs', n, hcs, hgo₂, hrun₂⟩ :=
          search_forest ih pins cs.reverse (hF₂.perm (hperm cs).symm)
          fun c hc => hS₁.kids c (List.mem_reverse.mp hc)
        have hcs' : List.Forall₂ Opens cs cs'.reverse := by
          simpa using List.forall₂_reverse_iff.mpr hcs
        have hgo := hgo₁.trans (Goes.children hgo₁.stored (ids_of_opens hcs')
          (hgo₂.perm (hperm cs) (hperm cs').symm))
        refine ⟨e₂, d, dk, Body.node ps cs'.reverse OrdMap.empty, n + 1, hopen.trans ?_,
          fun hpin => ?_, hgo, ?_⟩
        · exact Opens.children [] [] hcs' rfl hS₁.length_le
        · exact hres.imp_right (hgo₂.kept t.id hpin)
        · have hquiet : (OrdMap.empty = (OrdMap.empty : Buffer) ∧ ∀ c ∈ cs, (Live.plain c).Quiet) ↔
              ∀ c ∈ cs.reverse, (Live.plain c).Quiet := by
            simp
          rw [hquiet]
          refine hrun₂.imp (fun hr => ⟨hr.1, fun c stack => ?_⟩) fun hr => ⟨hr.1, fun c stack => ?_⟩
          · rw [← hr.2, Nat.add_right_comm, List.singleton_append, hstep, List.map_reverse]
            rfl
          · rw [← hr.2 c stack, Nat.add_right_comm, List.singleton_append, hstep, List.map_reverse]
            rfl
      · refine ⟨e₁, d, dk, Body.node ps cs b, 1, hopen, fun _ => hres, hgo₁,
          Or.inr ⟨by simp [hb], ?_⟩⟩
        intro c stack
        have hne : b.isEmpty = false := Bool.eq_false_iff.mpr fun h0 =>
          hb (OrdMap.isEmpty_iff.mp h0)
        rw [Nat.add_comm, List.singleton_append, hstep]
        simp [Body.toNode_node, hne]

/-- The search below one node that the search itself pins. -/
theorem subtreeHasMessages_run {t : Live h} {pins : List NodeId} (hpin : t.id ∈ pins)
    (hF : Stored e.store (Live.foot t)) (hS : Live.Sane t) :
    ∃ e' d dk x N found, (∀ fuel ≥ N, subtreeHasMessages pins fuel [t.id] e = .ok found e') ∧
      (found = true ↔ ¬ (Live.plain t).Quiet) ∧ Opens t (Cell.known t.id d dk x) ∧
      Resident e'.store t.id d ∧
      Goes pins (Live.foot t) (Live.foot (Cell.known t.id d dk x)) e e' := by
  obtain ⟨e', d, dk, x, n, hopen, hres, hgo, hrun⟩ := searchSpec e t pins hF hS
  rcases hrun with ⟨hq, hrun⟩ | ⟨hq, hrun⟩
  · refine ⟨e', d, dk, x, n + 1, false, fun fuel hf => ?_, by simp [hq], hopen, hres hpin, hgo⟩
    obtain ⟨c, rfl⟩ := Nat.exists_eq_add_of_le hf
    rw [Nat.add_assoc, ← List.append_nil [t.id], hrun, Nat.add_comm]
    rfl
  · refine ⟨e', d, dk, x, n, true, fun fuel hf => ?_, by simp [hq], hopen, hres hpin, hgo⟩
    obtain ⟨c, rfl⟩ := Nat.exists_eq_add_of_le hf
    exact hrun c []

/-- Either nothing is buffered below, or the first child with something below it is in memory. -/
theorem findBuffered_run (flushing : List NodeId) (ts : List (Live h))
    (hF : Stored e.store (ts.flatMap Live.foot)) (hS : ∀ t ∈ ts, Live.Sane t) :
    ∃ e' N found ts', (∀ fuel ≥ N, findBuffered fuel flushing (ts.map Cell.id) e = .ok found e') ∧
      List.Forall₂ Opens ts ts' ∧ Goes flushing (ts.flatMap Live.foot)
      (ts'.flatMap Live.foot) e e' ∧
      (found = none ∧ (∀ t ∈ ts', (Live.plain t).Quiet) ∨
        ∃ cs₁ id d dk x cs₂, ts' = cs₁ ++ Cell.known id d dk x :: cs₂ ∧ found = some id ∧
          Resident e'.store id d ∧ ¬ (x.plain d).Quiet) := by
  induction ts generalizing e with
  | nil =>
    exact ⟨e, 0, none, [], fun _ _ => rfl, List.Forall₂.nil, Goes.refl hF, Or.inl ⟨rfl, by simp⟩⟩
  | cons t ts ih =>
    rw [List.flatMap_cons] at hF
    obtain ⟨e₁, d, dk, x, N₁, found, hrun₁, hfound, hopen, hres, hgo₁⟩ :=
      subtreeHasMessages_run (by simp : t.id ∈ t.id :: flushing)
        (Stored.append_iff.mp hF).1 (hS t (by simp))
    have hgo₁' := (hgo₁.mono fun i (hi : i ∈ flushing) => by simp [hi]).frame (H := []) hF
    simp only [List.nil_append] at hgo₁'
    rw [← hopen.plain, Live.plain_known] at hfound
    have hstep : ∀ fuel ≥ N₁, findBuffered fuel flushing ((t :: ts).map Cell.id) e =
        (if found then pure (some t.id) else findBuffered fuel flushing (ts.map Cell.id)) e₁ := by
      intro fuel hf
      simp only [List.map_cons, findBuffered]
      rw [Engine.run_bind (hrun₁ fuel hf)]
    cases found with
    | true =>
      refine ⟨e₁, N₁, some t.id, Cell.known t.id d dk x :: ts, hstep,
        List.Forall₂.cons hopen ?_, ?_,
        Or.inr ⟨[], t.id, d, dk, x, ts, rfl, rfl, hres, hfound.mp rfl⟩⟩
      · exact List.forall₂_same.mpr fun t _ => Opens.refl t
      · simpa only [List.flatMap_cons] using hgo₁'
    | false =>
      have hquiet : (x.plain d).Quiet := by
        by_contra hq
        exact Bool.false_ne_true (hfound.mpr hq)
      obtain ⟨e₂, N₂, found, ts', hrun₂, hts, hgo₂, hcase⟩ :=
        ih (Stored.append_iff.mp hgo₁'.stored).2.1
        fun t ht => hS t (by simp [ht])
      refine ⟨e₂, max N₁ N₂, found, Cell.known t.id d dk x :: ts', fun fuel hf => ?_,
        List.Forall₂.cons hopen hts, ?_, ?_⟩
      · rw [hstep fuel (le_of_max_le_left hf)]
        exact hrun₂ fuel (le_of_max_le_right hf)
      · have hgo₂' := hgo₂.frame (G := []) (H := Live.foot (Cell.known t.id d dk x))
          (by simpa using hgo₁'.stored)
        simp only [List.append_nil] at hgo₂'
        simpa only [List.flatMap_cons] using hgo₁'.trans hgo₂'
      · rcases hcase with ⟨hn, hall⟩ | ⟨cs₁, id, cd, cdk, y, cs₂, rfl, hf, hr, hq⟩
        · exact Or.inl ⟨hn, by simpa using ⟨hquiet, hall⟩⟩
        · exact Or.inr ⟨_ :: cs₁, id, cd, cdk, y, cs₂, rfl, hf, hr, hq⟩

end Search
end Beetree
