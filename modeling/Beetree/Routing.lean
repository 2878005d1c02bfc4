import Beetree.LiveMoves
import Beetree.Machine

/-! The pure steps of the machinery, in terms of runs of pivots: routing, extraction, occupancy,
integration and unlinking. -/
namespace Beetree

section Bisect
variable {α : Type} {p : α → Bool} {ys zs : List α}

/-- The boundary of a partitioned list is at the window's last element or right after it. -/
lemma bisect_bounds (hy : ∀ y ∈ ys, p y = true) (hz : ∀ z ∈ zs, p z = false) {fuel base size : ℕ}
    (hf : size ≤ fuel + 1) (hpos : 0 < size) (hlo : base ≤ ys.length)
    (hhi : ys.length ≤ base + size)
    (hlen : base + size ≤ (ys ++ zs).length) :
    bisect p (ys ++ zs) fuel base size ≤ ys.length ∧
    ys.length ≤ bisect p (ys ++ zs) fuel base size + 1 ∧
      bisect p (ys ++ zs) fuel base size < (ys ++ zs).length := by
  induction fuel generalizing base size with
  | zero =>
    simp only [bisect]
    omega
  | succ fuel ih =>
    simp only [bisect]
    split_ifs with hlt
    · have hmid : base + size / 2 < (ys ++ zs).length := by omega
      rw [List.getElem?_eq_getElem hmid]
      by_cases hm : base + size / 2 < ys.length
      · have hp : p (ys ++ zs)[base + size / 2] = true := by
          rw [List.getElem_append_left hm]
          exact hy _ (List.getElem_mem hm)
        simp only [hp, if_true]
        exact ih (by omega) (by omega) hm.le (by omega) (by omega)
      · have hp : p (ys ++ zs)[base + size / 2] = false := by
          rw [List.getElem_append_right (not_lt.mp hm)]
          exact hz _ (List.getElem_mem _)
        simp only [hp, Bool.false_eq_true, if_false]
        exact ih (by omega) (by omega) hlo (by omega) (by omega)
    · omega

lemma partitionPoint_eq (hy : ∀ y ∈ ys, p y = true) (hz : ∀ z ∈ zs, p z = false) :
    partitionPoint p (ys ++ zs) = ys.length := by
  unfold partitionPoint
  rcases Nat.eq_zero_or_pos (ys ++ zs).length with h0 | hpos
  · obtain ⟨rfl, rfl⟩ := List.append_eq_nil_iff.mp (List.length_eq_zero_iff.mp h0)
    rfl
  obtain ⟨hle, hge, hlt⟩ := bisect_bounds hy hz (Nat.le_succ _) hpos (Nat.zero_le _)
    (by simp) (by simp)
  generalize bisect p (ys ++ zs) (ys ++ zs).length 0 (ys ++ zs).length = base at hle hge hlt
  simp only [List.getElem?_eq_getElem hlt]
  by_cases hb : base < ys.length
  · have hp : p (ys ++ zs)[base] = true := by
      rw [List.getElem_append_left hb]
      exact hy _ (List.getElem_mem hb)
    rw [if_pos hp]
    omega
  · have hp : p (ys ++ zs)[base] = false := by
      rw [List.getElem_append_right (not_lt.mp hb)]
      exact hz _ (List.getElem_mem _)
    rw [if_neg (by simp [hp])]
    omega

end Bisect

lemma route_of_owns {ps₁ ps₂ : List Key} {k : Key} (h : owns ps₁ ps₂ k) :
    route (ps₁ ++ ps₂) k = ps₁.length :=
  partitionPoint_eq (fun p hp => by simpa using h.1 p hp) (fun p hp => by simpa using h.2 p hp)

lemma exists_owns {ps : List Key} (hs : ps.Pairwise (· < ·)) (k : Key) :
    ∃ ps₁ ps₂, ps = ps₁ ++ ps₂ ∧ owns ps₁ ps₂ k := by
  induction ps with
  | nil => exact ⟨[], [], rfl, by simp [owns]⟩
  | cons p ps ih =>
    obtain ⟨hp, hs⟩ := List.pairwise_cons.mp hs
    by_cases hpk : p ≤ k
    · obtain ⟨ps₁, ps₂, rfl, h₁, h₂⟩ := ih hs
      exact ⟨p :: ps₁, ps₂, rfl, by simpa using ⟨hpk, h₁⟩, h₂⟩
    · refine ⟨[], p :: ps, rfl, by simp, ?_⟩
      have hkp := not_le.mp hpk
      simpa using ⟨hkp, fun q hq => hkp.trans (hp q hq)⟩

lemma route_le {ps : List Key} (hs : ps.Pairwise (· < ·)) (k : Key) : route ps k ≤ ps.length := by
  obtain ⟨ps₁, ps₂, rfl, ho⟩ := exists_owns hs k
  simp [route_of_owns ho]

lemma owns_of_route {ps₁ ps₂ : List Key} (hs : (ps₁ ++ ps₂).Pairwise (· < ·)) {k : Key} :
    route (ps₁ ++ ps₂) k = ps₁.length ↔ owns ps₁ ps₂ k := by
  refine ⟨fun h => ?_, route_of_owns⟩
  obtain ⟨qs₁, qs₂, he, ho⟩ := exists_owns hs k
  have hl : qs₁.length = ps₁.length := by rw [← h, he, route_of_owns ho]
  obtain ⟨rfl, rfl⟩ := List.append_inj he hl.symm
  exact ho

lemma childAt_split {T : Type} {ps₁ ps₂ : List Key} {cs₁ cs₂ : List T} {c : T} {k : Key}
    (hl : ps₁.length = cs₁.length) (ho : owns ps₁ ps₂ k) :
    childAt (ps₁ ++ ps₂) (cs₁ ++ c :: cs₂) k = some c := by
  induction ps₁ generalizing cs₁ with
  | nil =>
    obtain rfl : cs₁ = [] := by simpa using hl.symm
    cases ps₂ with
    | nil => rfl
    | cons p ps₂ =>
      have hp : ¬ p ≤ k := not_le.mpr (ho.2 p (by simp))
      simp [childAt, hp]
  | cons p ps₁ ih =>
    cases cs₁ with
    | nil => simp at hl
    | cons d cs₁ =>
      have hp : p ≤ k := ho.1 p (by simp)
      simp only [List.cons_append, childAt, hp, if_true]
      exact ih (by simpa using hl) ⟨fun q hq => ho.1 q (by simp [hq]), ho.2⟩

/-- Indexing the children by the route is finding the child that owns the key. -/
lemma getElem?_route {T : Type} {ps : List Key} {cs : List T} (hs : ps.Pairwise (· < ·))
    (hl : cs.length = ps.length + 1) (k : Key) : cs[route ps k]? = childAt ps cs k := by
  obtain ⟨ps₁, ps₂, rfl, ho⟩ := exists_owns hs k
  rw [route_of_owns ho]
  have hlt : ps₁.length < cs.length := by simp [hl]
  obtain ⟨c, hc⟩ : ∃ c, cs[ps₁.length]? = some c := ⟨_, List.getElem?_eq_getElem hlt⟩
  rw [hc]
  have hcs : cs = cs.take ps₁.length ++ c :: cs.drop (ps₁.length + 1) := by
    have := List.getElem_of_getElem? hc
    obtain ⟨hlt', rfl⟩ := this
    simp
  rw [hcs]
  exact (childAt_split (by simp [hlt.le]) ho).symm

lemma owns_iff_ends {ps₁ ps₂ : List Key} (hs : (ps₁ ++ ps₂).Pairwise (· < ·)) (k : Key) :
    owns ps₁ ps₂ k ↔ (∀ p, ps₁.getLast? = some p → p ≤ k) ∧
      ∀ p, (ps₁ ++ ps₂)[ps₁.length]? = some p → k < p := by
  refine and_congr ?_ ?_
  · rcases List.eq_nil_or_concat ps₁ with rfl | ⟨qs, q, rfl⟩
    · simp
    · have hq : ∀ p ∈ qs, p < q := by
        intro p hp
        have := (List.pairwise_append.mp hs).1
        rw [List.concat_eq_append] at this
        exact (List.pairwise_append.mp this).2.2 p hp q (by simp)
      simp only [List.concat_eq_append, List.mem_append, List.mem_singleton, List.getLast?_concat,
        Option.some.injEq, forall_eq']
      exact ⟨fun h => h q (Or.inr rfl), fun h p hp => hp.elim (fun hp => (hq p hp).le.trans h)
        fun hp => hp ▸ h⟩
  · cases ps₂ with
    | nil => simp
    | cons p ps₂ =>
      have hp := (List.pairwise_cons.mp (List.pairwise_append.mp hs).2.1).1
      simp only [List.getElem?_append_right le_rfl, Nat.sub_self,
        List.getElem?_cons_zero, Option.some.injEq, forall_eq', List.mem_cons, forall_eq_or_imp]
      exact ⟨And.left, fun hk => ⟨hk, fun q hq => hk.trans (hp q hq)⟩⟩

lemma getElem?_last {ps₁ : List Key} (ps₂ : List Key) {i : ℕ} (hi : ps₁.length = i + 1) :
    (ps₁ ++ ps₂)[i]? = ps₁.getLast? := by
  rw [List.getElem?_append_left (by omega), List.getLast?_eq_getElem?, hi]
  rfl

lemma extract_eq {ps₁ ps₂ : List Key} (hs : (ps₁ ++ ps₂).Pairwise (· < ·)) (b : Buffer) :
    extract (ps₁ ++ ps₂) ps₁.length b =
      some (b.filter (owns ps₁ ps₂ ·), b.filter (¬ owns ps₁ ps₂ ·)) := by
  have howns := owns_iff_ends hs
  unfold extract
  cases hn : ps₁.length with
  | zero =>
    obtain rfl := List.length_eq_zero_iff.mp hn
    simp only [List.nil_append, List.length_nil, List.getLast?_nil] at howns ⊢
    cases hp : ps₂[0]? with
    | none =>
      simp only [hp] at howns
      simp only [bind, Option.bind, Option.some.injEq, Prod.mk.injEq]
      refine ⟨?_, ?_⟩ <;> ext1 k <;> simp [howns k]
    | some p =>
      simp only [hp] at howns
      simp only [bind, Option.bind, Option.some.injEq, Prod.mk.injEq]
      refine ⟨?_, ?_⟩ <;> ext1 k <;> by_cases hk : k < p <;> simp [howns k, hk, not_lt.mp]
  | succ i =>
    have hi : i < ps₁.length := by omega
    have hlast := getElem?_last ps₂ hn
    rw [hn] at howns
    obtain ⟨l, hl⟩ : ∃ l, ps₁.getLast? = some l := by
      rw [← hlast, List.getElem?_append_left hi, List.getElem?_eq_getElem hi]
      exact ⟨_, rfl⟩
    simp only [hlast, hl, Option.some.injEq, forall_eq'] at howns ⊢
    cases hp : (ps₁ ++ ps₂)[i + 1]? with
    | none =>
      simp only [hp] at howns
      simp only [bind, Option.bind, Option.some.injEq, Prod.mk.injEq]
      refine ⟨?_, ?_⟩ <;> ext1 k <;> by_cases hk : l ≤ k <;> simp [howns k, hk]
    | some p =>
      simp only [hp] at howns
      simp only [bind, Option.bind, Option.some.injEq, Prod.mk.injEq]
      refine ⟨?_, ?_⟩ <;> ext1 k <;> by_cases hk : l ≤ k <;> by_cases hk' : k < p <;>
        simp [howns k, hk, hk', not_lt.mp]
      simp [not_lt.mpr hk]

section Occupancy

lemma foldl_modify_length (f : Key × Message → ℕ) (g : Key × Message → ℕ → ℕ)
    (l : List (Key × Message)) (occ : List ℕ) :
    (l.foldl (fun occ x => occ.modify (f x) (g x)) occ).length = occ.length := by
  induction l generalizing occ with
  | nil => rfl
  | cons x l ih => rw [List.foldl_cons, ih, List.length_modify]

lemma foldl_modify_getD (f g : Key × Message → ℕ) (l : List (Key × Message)) (occ : List ℕ) {i : ℕ}
    (hi : i < occ.length) :
    (l.foldl (fun occ x => occ.modify (f x) (· + g x)) occ).getD i 0 =
      occ.getD i 0 + ((l.filter fun x => f x = i).map g).sum := by
  induction l generalizing occ with
  | nil => simp
  | cons x l ih =>
    rw [List.foldl_cons, ih _ (by simpa using hi)]
    by_cases hx : f x = i
    · subst hx
      simp [hi]
      omega
    · simp [hi, hx]

lemma occupancies_getD (ps : List Key) (n : ℕ) (b : Buffer) {i : ℕ} (hi : i < n) :
    (occupancies ps n b).getD i 0 = b.toList.countP (fun x => route ps x.1 = i) := by
  rw [occupancies, foldl_modify_getD _ (fun _ => 1) _ _ (by simpa using hi)]
  simp [hi, List.countP_eq_length_filter]

lemma occupancies_length (ps : List Key) (n : ℕ) (b : Buffer) :
    (occupancies ps n b).length = n := by
  rw [occupancies, foldl_modify_length (fun x => route ps x.1) (fun _ => (· + 1)),
    List.length_replicate]

lemma exists_occupied {ps : List Key} (hs : ps.Pairwise (· < ·)) {b : Buffer} (hb : 0 < b.size) :
    ∃ i, 0 < (occupancies ps (ps.length + 1) b).getD i 0 := by
  obtain ⟨k, m, hk⟩ := OrdMap.size_pos_iff.mp hb
  refine ⟨route ps k, ?_⟩
  rw [occupancies_getD ps _ b (Nat.lt_succ_of_le (route_le hs k)), List.countP_pos_iff]
  exact ⟨(k, m), OrdMap.mem_toList.mpr hk, by simp⟩

lemma occupied {ps : List Key} {n : ℕ} {b : Buffer} {i : ℕ}
    (hi : 0 < (occupancies ps n b).getD i 0) :
    i < n ∧ ∃ k m, b.get? k = some m ∧ route ps k = i := by
  have hlt : i < n := by
    by_contra hn
    rw [List.getD_eq_getElem?_getD, List.getElem?_eq_none (by rw [occupancies_length]; omega)] at hi
    exact lt_irrefl 0 hi
  rw [occupancies_getD ps n b hlt, List.countP_pos_iff] at hi
  obtain ⟨⟨k, m⟩, hmem, hr⟩ := hi
  exact ⟨hlt, k, m, OrdMap.mem_toList.mp hmem, by simpa using hr⟩

end Occupancy

lemma insertIdx_append {α : Type} (xs ys : List α) (a : α) :
    (xs ++ ys).insertIdx xs.length a = xs ++ a :: ys := by
  induction xs with
  | nil => rfl
  | cons x xs ih => simp [ih]

lemma integrate_eq {ps₁ ps₂ ps : List Key} {cs₁ cs₂ : List NodeId} {c : NodeId} {ids : List NodeId}
    (hl : ps₁.length = cs₁.length) (hn : ps.length = ids.length)
    (hs : (ps₁ ++ ps ++ ps₂).Pairwise (· < ·)) :
    integrate (ps₁ ++ ps₂) (cs₁ ++ c :: cs₂) (ps.zip ids) =
      some (ps₁ ++ ps ++ ps₂, cs₁ ++ (c :: ids) ++ cs₂) := by
  induction ps generalizing ps₁ cs₁ c ids with
  | nil =>
    obtain rfl : ids = [] := by simpa using hn.symm
    simp [integrate]
  | cons p ps ih =>
    match ids, hn with
    | i :: ids, hn =>
      have hp : partitionPoint (fun q => decide (q < p)) (ps₁ ++ ps₂) = ps₁.length := by
        obtain ⟨h₁, -, h₂⟩ := List.pairwise_append.mp hs
        refine partitionPoint_eq (fun q hq => ?_) fun q hq => ?_
        · exact decide_eq_true ((List.pairwise_append.mp h₁).2.2 q hq p (by simp))
        · exact decide_eq_false (not_lt.mpr (h₂ p (by simp) q hq).le)
      simp only [List.zip_cons_cons, integrate, hp]
      have hc : (cs₁ ++ c :: cs₂).insertIdx (ps₁.length + 1) i = (cs₁ ++ [c]) ++ i :: cs₂ := by
        rw [← insertIdx_append (cs₁ ++ [c]) cs₂ i]
        simp [hl]
      rw [if_pos (by simp [hl]), insertIdx_append, hc,
        show ps₁ ++ p :: ps₂ = (ps₁ ++ [p]) ++ ps₂ by simp,
        ih (by simp [hl]) (by simpa using hn) (by simpa using hs)]
      simp

/-- Unlinking drops the child and the pivot on its left, or on its right if it is the first. -/
lemma unlink_eq {ps₁ ps₂ : List Key} {cs₁ cs₂ : List NodeId} {c : NodeId} (b : Buffer)
    (hl : ps₁.length = cs₁.length) (hc : c ∉ cs₁) :
    unlink c (.internal (ps₁ ++ ps₂) (cs₁ ++ c :: cs₂) b) =
      some (.internal (dropPivot ps₁ ps₂) (cs₁ ++ cs₂) b) := by
  have hidx : (cs₁ ++ c :: cs₂).findIdx? (fun d => d = c) = some cs₁.length := by
    rw [List.findIdx?_append, List.findIdx?_eq_none_iff.mpr]
    · simp [List.findIdx?_cons]
    · intro d hd
      exact decide_eq_false fun h => hc (h ▸ hd)
  have hat : ¬ (0 < cs₁.length ∧ (ps₁ ++ ps₂).length ≤ cs₁.length - 1) := by
    rw [List.length_append, hl]
    omega
  simp only [unlink, hidx, if_neg hat, Option.some.injEq, Node.internal.injEq, and_true]
  refine ⟨?_, by simp [List.eraseIdx_append_of_length_le]⟩
  unfold dropPivot
  rcases List.eq_nil_or_concat ps₁ with rfl | ⟨ps, p, rfl⟩
  · obtain rfl : cs₁ = [] := by simpa using hl.symm
    simp
  · have hlen : cs₁.length = ps.length + 1 := by simpa using hl.symm
    simp [hlen, List.eraseIdx_append_of_length_le]

end Beetree
