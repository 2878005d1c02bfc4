import Mathlib.Data.List.Lex
import Mathlib.Data.List.Sort
import Mathlib.Order.Basic
import Mathlib.Tactic

/-! Ordered maps as strictly sorted association lists. A map is determined by its
lookup function, and iteration order is the list itself. -/
namespace Beetree

/-- A finite map whose bindings are listed in strictly increasing key order. -/
structure OrdMap (κ ν : Type) [LinearOrder κ] where
  toList : List (κ × ν)
  sorted : toList.Pairwise (fun a b => a.1 < b.1)

namespace OrdMap
variable {κ ν : Type} [LinearOrder κ]

instance [DecidableEq ν] : DecidableEq (OrdMap κ ν) := fun a b =>
  decidable_of_iff (a.toList = b.toList) ⟨fun h => by cases a; cases b; simpa using h, congrArg _⟩

def find : List (κ × ν) → κ → Option ν
  | [], _ => none
  | (k', v) :: rest, k => if k = k' then some v else find rest k

def place (k : κ) (v : ν) : List (κ × ν) → List (κ × ν)
  | [] => [(k, v)]
  | (k', v') :: rest =>
    if k < k' then (k, v) :: (k', v') :: rest
    else if k = k' then (k, v) :: rest
    else (k', v') :: place k v rest

def empty : OrdMap κ ν := ⟨[], List.Pairwise.nil⟩

def get? (m : OrdMap κ ν) (k : κ) : Option ν := find m.toList k

def size (m : OrdMap κ ν) : ℕ := m.toList.length

def isEmpty (m : OrdMap κ ν) : Bool := m.toList.isEmpty

lemma mem_place {k : κ} {v : ν} {l : List (κ × ν)} {x : κ × ν} (h : x ∈ place k v l) :
    x = (k, v) ∨ x ∈ l := by
  induction l with
  | nil => simpa [place] using h
  | cons p rest ih =>
    obtain ⟨k', v'⟩ := p
    simp only [place] at h
    split_ifs at h with h1 h2
    · simpa using h
    · rcases List.mem_cons.mp h with rfl | h
      · exact Or.inl rfl
      · exact Or.inr (by simp [h])
    · rcases List.mem_cons.mp h with rfl | h
      · exact Or.inr (by simp)
      · rcases ih h with h | h
        · exact Or.inl h
        · exact Or.inr (by simp [h])

lemma place_sorted (k : κ) (v : ν) {l : List (κ × ν)}
    (h : l.Pairwise (fun a b => a.1 < b.1)) :
    (place k v l).Pairwise (fun a b => a.1 < b.1) := by
  induction l with
  | nil => simp [place]
  | cons p rest ih =>
    obtain ⟨k', v'⟩ := p
    obtain ⟨hp, hr⟩ := List.pairwise_cons.mp h
    simp only [place]
    split_ifs with h1 h2
    · refine List.pairwise_cons.mpr ⟨?_, h⟩
      intro x hx
      rcases List.mem_cons.mp hx with rfl | hx
      · exact h1
      · exact h1.trans (hp x hx)
    · subst h2
      exact List.pairwise_cons.mpr ⟨hp, hr⟩
    · refine List.pairwise_cons.mpr ⟨?_, ih hr⟩
      intro x hx
      rcases mem_place hx with rfl | hx
      · exact lt_of_le_of_ne (not_lt.mp h1) (Ne.symm h2)
      · exact hp x hx

def insert (m : OrdMap κ ν) (k : κ) (v : ν) : OrdMap κ ν :=
  ⟨place k v m.toList, place_sorted k v m.sorted⟩

/-- Keep the bindings whose key satisfies the test. -/
def filter (m : OrdMap κ ν) (p : κ → Bool) : OrdMap κ ν :=
  ⟨m.toList.filter (fun x => p x.1), m.sorted.sublist List.filter_sublist⟩

def erase (m : OrdMap κ ν) (k : κ) : OrdMap κ ν := m.filter (fun x => x ≠ k)

/-- Move every binding of the second map into the first, overwriting on a clash. -/
def append (a b : OrdMap κ ν) : OrdMap κ ν :=
  b.toList.foldl (fun m x => m.insert x.1 x.2) a

/-- Collect bindings in list order, a later binding of a key replacing an earlier one. -/
def ofList (l : List (κ × ν)) : OrdMap κ ν := l.foldl (fun m x => m.insert x.1 x.2) empty

@[simp] lemma find_place (k k' : κ) (v : ν) (l : List (κ × ν)) :
    find (place k v l) k' = if k' = k then some v else find l k' := by
  induction l with
  | nil => simp [place, find]
  | cons p rest ih =>
    obtain ⟨k₁, v₁⟩ := p
    simp only [place]
    split_ifs with h1 h2 h3 <;> simp_all [find]

lemma find_filter (p : κ → Bool) (l : List (κ × ν)) (k : κ) :
    find (l.filter (fun x => p x.1)) k = if p k then find l k else none := by
  induction l with
  | nil => simp [find]
  | cons q rest ih =>
    obtain ⟨k₁, v₁⟩ := q
    by_cases hk : k = k₁
    · subst hk
      by_cases hp : p k <;> simp_all [find]
    · by_cases hp : p k₁ <;> simp_all [find]

@[simp] lemma get?_empty (k : κ) : (empty : OrdMap κ ν).get? k = none := rfl

@[simp] lemma size_empty : (empty : OrdMap κ ν).size = 0 := rfl

@[simp] lemma toList_empty : (empty : OrdMap κ ν).toList = [] := rfl

@[simp] lemma get?_insert (m : OrdMap κ ν) (k k' : κ) (v : ν) :
    (m.insert k v).get? k' = if k' = k then some v else m.get? k' :=
  find_place k k' v m.toList

@[simp] lemma get?_filter (m : OrdMap κ ν) (p : κ → Bool) (k : κ) :
    (m.filter p).get? k = if p k then m.get? k else none :=
  find_filter p m.toList k

@[simp] lemma get?_erase (m : OrdMap κ ν) (k k' : κ) :
    (m.erase k).get? k' = if k' = k then none else m.get? k' := by
  by_cases h : k' = k <;> simp [erase, h]

lemma mem_of_find {l : List (κ × ν)} {k : κ} {v : ν} (h : find l k = some v) : (k, v) ∈ l := by
  induction l with
  | nil => simp [find] at h
  | cons p rest ih =>
    obtain ⟨k₁, v₁⟩ := p
    simp only [find] at h
    split_ifs at h with hk
    · simp_all
    · simp [ih h]

lemma find_of_mem {l : List (κ × ν)} (hs : l.Pairwise (fun a b => a.1 < b.1)) {k : κ} {v : ν}
    (h : (k, v) ∈ l) : find l k = some v := by
  induction l with
  | nil => simp at h
  | cons p rest ih =>
    obtain ⟨k₁, v₁⟩ := p
    obtain ⟨hp, hr⟩ := List.pairwise_cons.mp hs
    rcases List.mem_cons.mp h with h | h
    · obtain ⟨rfl, rfl⟩ := Prod.mk.inj h
      simp [find]
    · have hlt : k₁ < k := hp _ h
      simp [find, hlt.ne', ih hr h]

lemma mem_toList {m : OrdMap κ ν} {k : κ} {v : ν} : (k, v) ∈ m.toList ↔ m.get? k = some v :=
  ⟨find_of_mem m.sorted, mem_of_find⟩

theorem eq_of_find_eq {a b : List (κ × ν)} (ha : a.Pairwise (fun x y => x.1 < y.1))
    (hb : b.Pairwise (fun x y => x.1 < y.1)) (h : ∀ k, find a k = find b k) : a = b := by
  have hmem : ∀ x, x ∈ a ↔ x ∈ b := by
    rintro ⟨k, v⟩
    constructor
    · intro hx
      exact mem_of_find ((h k).symm.trans (find_of_mem ha hx))
    · intro hx
      exact mem_of_find ((h k).trans (find_of_mem hb hx))
  have na : a.Nodup := ha.imp (fun hlt he => by rw [he] at hlt; exact lt_irrefl _ hlt)
  have nb : b.Nodup := hb.imp (fun hlt he => by rw [he] at hlt; exact lt_irrefl _ hlt)
  have hp : a.Perm b := (List.perm_ext_iff_of_nodup na nb).mpr hmem
  exact hp.eq_of_pairwise (fun x y _ _ h1 h2 => absurd (h1.trans h2) (lt_irrefl _)) ha hb

/-- Two maps with the same lookups are the same map. -/
@[ext] theorem ext {a b : OrdMap κ ν} (h : ∀ k, a.get? k = b.get? k) : a = b := by
  have := eq_of_find_eq a.sorted b.sorted h
  cases a
  cases b
  simpa using this

lemma isEmpty_iff {m : OrdMap κ ν} : m.isEmpty = true ↔ m = empty := by
  cases m with
  | mk l hl => simp [isEmpty, empty]

lemma size_eq_zero {m : OrdMap κ ν} : m.size = 0 ↔ m = empty := by
  cases m with
  | mk l hl => simp [size, empty]

lemma eq_empty_iff {m : OrdMap κ ν} : m = empty ↔ ∀ k, m.get? k = none := by
  constructor
  · rintro rfl k
    rfl
  · intro h
    ext1 k
    simp [h k]

lemma size_pos_iff {m : OrdMap κ ν} : 0 < m.size ↔ ∃ k v, m.get? k = some v := by
  rw [Nat.pos_iff_ne_zero, ne_eq, size_eq_zero, eq_empty_iff]
  simp [Option.ne_none_iff_exists']

lemma size_filter_add (m : OrdMap κ ν) (p : κ → Bool) :
    (m.filter p).size + (m.filter (fun k => !p k)).size = m.size := by
  simpa [size, filter] using (List.length_eq_length_filter_add (l := m.toList)
    (fun x => p x.1)).symm

lemma size_filter_le (m : OrdMap κ ν) (p : κ → Bool) : (m.filter p).size ≤ m.size := by
  have := size_filter_add m p
  omega

lemma find_foldl_insert (l : List (κ × ν)) (hl : l.Pairwise (fun a b => a.1 < b.1))
    (m : OrdMap κ ν) (k : κ) :
    (l.foldl (fun m x => m.insert x.1 x.2) m).get? k = (find l k).or (m.get? k) := by
  induction l generalizing m with
  | nil => simp [find]
  | cons p rest ih =>
    obtain ⟨k₁, v₁⟩ := p
    obtain ⟨hp, hr⟩ := List.pairwise_cons.mp hl
    rw [List.foldl_cons, ih hr, get?_insert]
    by_cases hk : k = k₁
    · subst hk
      have hn : find rest k = none := by
        by_contra hne
        obtain ⟨v, hv⟩ := Option.ne_none_iff_exists'.mp hne
        exact lt_irrefl k (hp (k, v) (mem_of_find hv))
      simp [find, hn]
    · simp [find, hk]

@[simp] lemma get?_append (a b : OrdMap κ ν) (k : κ) :
    (a.append b).get? k = (b.get? k).or (a.get? k) :=
  find_foldl_insert b.toList b.sorted a k

lemma get?_foldl_insert_of_notMem (l : List (κ × ν)) (m : OrdMap κ ν) {k : κ}
    (hk : k ∉ l.map Prod.fst) :
    (l.foldl (fun m x => m.insert x.1 x.2) m).get? k = m.get? k := by
  induction l generalizing m with
  | nil => rfl
  | cons x l ih =>
    rw [List.map_cons, List.mem_cons, not_or] at hk
    rw [List.foldl_cons, ih _ hk.2, get?_insert, if_neg hk.1]

lemma get?_ofList_of_mem {l : List (κ × ν)} (hl : (l.map Prod.fst).Nodup) {x : κ × ν} (hx : x ∈ l) :
    (ofList l).get? x.1 = some x.2 := by
  unfold ofList
  generalize (empty : OrdMap κ ν) = m
  induction l generalizing m with
  | nil => simp at hx
  | cons y l ih =>
    rw [List.map_cons, List.nodup_cons] at hl
    rw [List.foldl_cons]
    rcases List.mem_cons.mp hx with rfl | hx
    · rw [get?_foldl_insert_of_notMem l _ hl.1, get?_insert, if_pos rfl]
    · exact ih hl.2 hx _

@[simp] lemma ofList_toList (m : OrdMap κ ν) : ofList m.toList = m := by
  ext1 k
  rw [ofList, find_foldl_insert m.toList m.sorted, get?_empty, Option.or_none]
  rfl

lemma get?_foldl_update {μ : Type} (f : OrdMap κ ν → κ → μ → OrdMap κ ν)
    (g : μ → Option ν → Option ν)
    (hs : ∀ m k v, (f m k v).get? k = g v (m.get? k))
    (hn : ∀ m k v k', k' ≠ k → (f m k v).get? k' = m.get? k')
    (b : OrdMap κ μ) (m : OrdMap κ ν) (k : κ) :
    (b.toList.foldl (fun m x => f m x.1 x.2) m).get? k =
      (b.get? k).elim (m.get? k) fun v => g v (m.get? k) := by
  suffices h : ∀ l : List (κ × μ), l.Pairwise (fun x y => x.1 < y.1) → ∀ m : OrdMap κ ν,
      (l.foldl (fun m x => f m x.1 x.2) m).get? k =
        (find l k).elim (m.get? k) fun v => g v (m.get? k) from h b.toList b.sorted m
  intro l hl
  induction l with
  | nil => simp [find]
  | cons x rest ih =>
    intro m
    obtain ⟨k₁, v₁⟩ := x
    obtain ⟨hx, hr⟩ := List.pairwise_cons.mp hl
    rw [List.foldl_cons, ih hr]
    by_cases hk : k = k₁
    · subst hk
      have hnone : find rest k = none := by
        by_contra hne
        obtain ⟨v, hv⟩ := Option.ne_none_iff_exists'.mp hne
        exact lt_irrefl k (hx (k, v) (mem_of_find hv))
      simp [find, hnone, hs]
    · simp [find, hk, hn _ _ _ _ hk]

end OrdMap
end Beetree
