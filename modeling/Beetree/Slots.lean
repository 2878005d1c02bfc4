import Beetree.Charted
import Beetree.History

/-! The slots of an engine are a tree.

Every node is the child of one other, save the root, and has its place in the offset index, whether
it is in memory or on the device. Nothing else takes up a slot. -/
namespace Beetree

section Shape
variable {h : ℕ} {t : Live h} {i i' c : NodeId} {n n' : Node} {dirty dirty' : Bool}
    {rec rec' : Option Record}

lemma Live.ids_node {id : NodeId} {dk : Option (VTree (h + 1))} {ps : List Key}
    {cs : List (Live h)} {b : Buffer} :
    (Live.foot (Cell.known id dirty dk (Body.node ps cs b))).ids = id :: cs.flatMap fun c =>
    (Live.foot c).ids := by
  simp [Foot.ids, List.map_flatMap]

lemma Live.id_mem (t : Live h) : t.id ∈ (Live.foot t).ids :=
    List.mem_map_of_mem (Live.slot_mem_foot t)

lemma Live.child_mem (hn : (Live.foot t).ids.Nodup)
    (hi : (i, Slot.loaded n dirty rec) ∈ Live.foot t) (hc : c ∈ n.children) :
    c ∈ (Live.foot t).ids ∧ c ≠ t.id := by
  induction h generalizing n dirty rec with
  | zero =>
    rcases t with ⟨id, d, dk, x⟩ | ⟨id, v⟩
    · induction x using Body.zeroCases with
      | hl es =>
        cases List.mem_singleton.mp hi
        cases hc
    · cases List.mem_singleton.mp hi
  | succ h ih =>
    rcases t with ⟨id, d, dk, x⟩ | ⟨id, v⟩
    · induction x using Body.succCases with
      | hn ps cs b =>
        rw [Live.ids_node, List.nodup_cons, List.nodup_flatMap] at hn
        obtain ⟨hid, heach, hapart⟩ := hn
        have hbelow :
          ∀ x ∈ cs, ∀ j ∈ (Live.foot x).ids, j ∈ (cs.flatMap fun c => (Live.foot c).ids) ∧ j ≠
            id := by
          intro x hx j hj
          have hmem : j ∈ cs.flatMap fun c => (Live.foot c).ids := List.mem_flatMap.mpr ⟨x, hx, hj⟩
          exact ⟨hmem, fun heq => hid (heq ▸ hmem)⟩
        rw [Live.ids_node]
        rcases List.mem_cons.mp hi with heq | hi
        · cases heq
          obtain ⟨x, hx, rfl⟩ := List.mem_map.mp hc
          obtain ⟨hmem, hne⟩ := hbelow x hx x.id (Live.id_mem x)
          exact ⟨List.mem_cons_of_mem _ hmem, hne⟩
        · obtain ⟨x, hx, hi⟩ := List.mem_flatMap.mp hi
          obtain ⟨hmem, hne⟩ := hbelow x hx c (ih (heach x hx) hi hc).1
          exact ⟨List.mem_cons_of_mem _ hmem, hne⟩
    · cases List.mem_singleton.mp hi

lemma Live.parent_unique (hn : (Live.foot t).ids.Nodup)
    (hi : (i, Slot.loaded n dirty rec) ∈ Live.foot t)
    (hi' : (i', Slot.loaded n' dirty' rec') ∈ Live.foot t) (hc : c ∈ n.children)
    (hc' : c ∈ n'.children) : i = i' := by
  induction h generalizing n n' dirty dirty' rec rec' with
  | zero =>
    rcases t with ⟨id, d, dk, x⟩ | ⟨id, v⟩
    · induction x using Body.zeroCases with
      | hl es =>
        cases List.mem_singleton.mp hi
        cases hc
    · cases List.mem_singleton.mp hi
  | succ h ih =>
    rcases t with ⟨id, d, dk, x⟩ | ⟨id, v⟩
    · induction x using Body.succCases with
      | hn ps cs b =>
        rw [Live.ids_node, List.nodup_cons, List.nodup_flatMap] at hn
        obtain ⟨-, heach, hapart⟩ := hn
        have hsymm : Std.Symm (Function.onFun List.Disjoint fun c : Live h => (Live.foot c).ids) :=
          ⟨fun _ _ h => h.symm⟩
        have hsame : ∀ x ∈ cs, ∀ y ∈ cs, ∀ j ∈ (Live.foot x).ids, j ∈ (Live.foot y).ids → x =
          y := by
          intro x hx y hy j hj hj'
          by_contra hne
          exact hapart.forall hx hy hne hj hj'
        have hroot : ∀ x ∈ cs, ∀ y ∈ cs, ∀ {j m e q}, (j, Slot.loaded m e q) ∈ Live.foot y →
          x.id ∈ m.children → False := by
          intro x hx y hy j m e q hj hm
          obtain ⟨hmem, hne⟩ := Live.child_mem (heach y hy) hj hm
          exact hne (congrArg Cell.id (hsame x hx y hy x.id (Live.id_mem x) hmem))
        rcases List.mem_cons.mp hi with heq | hbelow
        · cases heq
          obtain ⟨x, hx, rfl⟩ := List.mem_map.mp hc
          rcases List.mem_cons.mp hi' with heq' | hbelow'
          · cases heq'
            rfl
          · obtain ⟨y, hy, hiy⟩ := List.mem_flatMap.mp hbelow'
            exact (hroot x hx y hy hiy hc').elim
        · obtain ⟨x, hx, hix⟩ := List.mem_flatMap.mp hbelow
          rcases List.mem_cons.mp hi' with heq' | hbelow'
          · cases heq'
            obtain ⟨y, hy, rfl⟩ := List.mem_map.mp hc'
            exact (hroot y hy x hx hix hc).elim
          · obtain ⟨y, hy, hiy⟩ := List.mem_flatMap.mp hbelow'
            obtain rfl := hsame x hx y hy c (Live.child_mem (heach x hx) hix hc).1
              (Live.child_mem (heach y hy) hiy hc').1
            exact ih (heach x hx) hix hiy hc hc'
    · cases List.mem_singleton.mp hi

lemma Live.children_nodup (hn : (Live.foot t).ids.Nodup)
    (hi : (i, Slot.loaded n dirty rec) ∈ Live.foot t) : n.children.Nodup := by
  induction h generalizing n dirty rec with
  | zero =>
    rcases t with ⟨id, d, dk, x⟩ | ⟨id, v⟩
    · induction x using Body.zeroCases with
      | hl es =>
        cases List.mem_singleton.mp hi
        exact List.nodup_nil
    · cases List.mem_singleton.mp hi
  | succ h ih =>
    rcases t with ⟨id, d, dk, x⟩ | ⟨id, v⟩
    · induction x using Body.succCases with
      | hn ps cs b =>
        rw [Live.ids_node, List.nodup_cons, List.nodup_flatMap] at hn
        obtain ⟨-, heach, hapart⟩ := hn
        rcases List.mem_cons.mp hi with heq | hi
        · cases heq
          change (cs.map Cell.id).Nodup
          unfold List.Nodup
          rw [List.pairwise_map]
          refine hapart.imp fun {x y} hxy heq => ?_
          have hy : x.id ∈ (Live.foot y).ids := heq ▸ Live.id_mem y
          exact hxy (Live.id_mem x) hy
        · obtain ⟨x, hx, hi⟩ := List.mem_flatMap.mp hi
          exact ih (heach x hx) hi
    · cases List.mem_singleton.mp hi

/-- One node is the child of another, by name. -/
def Ideal.Child (s : Ideal) (i c : NodeId) :
    Prop := ∃ n dirty rec, s.slots i = some (.loaded n dirty rec) ∧ c ∈ n.children

lemma Live.descends {s : Ideal} (hF : ∀ x ∈ Live.foot t, s.slots x.1 = some x.2)
    (hi : i ∈ (Live.foot t).ids) :
    Relation.ReflTransGen s.Child t.id i := by
  induction h generalizing i with
  | zero =>
    rcases t with ⟨id, d, dk, x⟩ | ⟨id, v⟩
    · induction x using Body.zeroCases with
      | hl es =>
        obtain rfl := List.mem_singleton.mp hi
        exact .refl
    · obtain rfl := List.mem_singleton.mp hi
      exact .refl
  | succ h ih =>
    rcases t with ⟨id, d, dk, x⟩ | ⟨id, v⟩
    · induction x using Body.succCases with
      | hn ps cs b =>
        rw [Live.ids_node] at hi
        rcases List.mem_cons.mp hi with rfl | hi
        · exact .refl
        · obtain ⟨x, hx, hi⟩ := List.mem_flatMap.mp hi
          have hstep :
            s.Child id x.id := ⟨_, _, _, hF _ (List.mem_cons_self ..), List.mem_map_of_mem hx⟩
          refine .head hstep (ih (fun y hy => hF y ?_) hi)
          exact List.mem_cons_of_mem _ (List.mem_flatMap.mpr ⟨x, hx, hy⟩)
    · obtain rfl := List.mem_singleton.mp hi
      exact .refl

lemma Stored.kid {s : Ideal} {id : NodeId} {dk : Option (VTree (h + 1))} {ps : List Key}
    {cs : List (Live h)} {b : Buffer}
    (hF : Stored s (Live.foot (Cell.known id dirty dk (Body.node ps cs b)))) {c : Live h}
    (hc : c ∈ cs) : Stored s (Live.foot c) := by
  have hn := hF.nodup
  rw [Live.ids_node, List.nodup_cons, List.nodup_flatMap] at hn
  refine ⟨fun y hy => hF.slots y ?_, fun j hj => hF.bound j ?_, hn.2.1 c hc⟩
  · exact List.mem_cons_of_mem _ (List.mem_flatMap.mpr ⟨c, hc, hy⟩)
  · rw [Live.ids_node]
    exact List.mem_cons_of_mem _ (List.mem_flatMap.mpr ⟨c, hc, hj⟩)

lemma Live.readsBack_foot {s : Ideal} {P : (h : ℕ) → VTree h → Prop} (hF : Stored s (Live.foot t))
    (hS : Live.Sound P t)
    (hi : (i, Slot.loaded n false rec) ∈ Live.foot t) : ∃ r, rec = some r ∧ s.ReadsBack n r := by
  induction h generalizing n rec with
  | zero =>
    rcases t with ⟨id, d, dk, x⟩ | ⟨id, v⟩
    · induction x using Body.zeroCases with
      | hl es =>
        cases List.mem_singleton.mp hi
        obtain ⟨v, rfl, hr⟩ := hS.2.1 rfl
        exact ⟨_, rfl, readsBack hF hr⟩
    · cases List.mem_singleton.mp hi
  | succ h ih =>
    rcases t with ⟨id, d, dk, x⟩ | ⟨id, v⟩
    · induction x using Body.succCases with
      | hn ps cs b =>
        rcases List.mem_cons.mp hi with heq | hbelow
        · cases heq
          obtain ⟨v, rfl, hr⟩ := hS.2.1 rfl
          exact ⟨_, rfl, readsBack hF hr⟩
        · obtain ⟨x, hx, hix⟩ := List.mem_flatMap.mp hbelow
          exact ih (hF.kid hx) (Body.sound_node.mp hS.2.2 x hx) hix
    · cases List.mem_singleton.mp hi

end Shape

section Slots
variable {V : Type} [Crc32Fast]

/-- The children of a slot that have names: those of a node in memory, and of one on the device
those in the offset index. -/
inductive DiskStore.Child (file : List Byte) (d : DiskStore V) (i c : NodeId) : Prop
  | loaded {n : Node} {dirty : Bool} {off : Option ℕ} {bytes tick : ℕ} :
    d.slots[i]? = some (.loaded n dirty off bytes tick) →
      c ∈ n.children → Child file d i c
  | onDisk {o len : ℕ} {ps : List Key} {cs : List UInt64} {b : Buffer} {child : UInt64} :
    d.slots[i]? = some (.onDisk o) →
      parseRecord file d.watermark o = .ok (.internal ps cs b, len) → child ∈ cs →
      d.offsets.get? child.toNat = some c →
      Child file d i c

/-- The slots in use are one tree, and the offset index says where its records are. -/
structure DiskStore.Arranged (file : List Byte) (d : DiskStore V) (root : NodeId) : Prop where
  top : ∃ x, d.slots[root]? = some x ∧ x ≠ NodeSlot.freed
  child : ∀ i c, d.Child file i c → c ≠ root ∧ ∃ x, d.slots[c]? = some x ∧ x ≠ NodeSlot.freed
  parent : ∀ i i' c, d.Child file i c → d.Child file i' c → i = i'
  nodup : ∀ (i : NodeId) (n : Node) dirty off bytes tick, d.slots[i]? = some
    (.loaded n dirty off bytes tick) → n.children.Nodup
  descends : ∀ (i : NodeId) (x : NodeSlot), d.slots[i]? = some x → x ≠ NodeSlot.freed →
    Relation.ReflTransGen (d.Child file) root i
  offsets : ∀ o i, d.offsets.get? o = some i ↔ slotOffset d.slots i = some o
  clean : ∀ (i : NodeId) (n : Node) off bytes tick, d.slots[i]? = some
    (.loaded n false off bytes tick) →
    ∃ o, off = some o ∧ Reflects file d.watermark d.slots o n

variable {file : V → List Byte} {s : Ideal} {d : DiskStore V} {h : ℕ} {t : Live h} {i c : NodeId}

lemma DiskStore.Tracks.slot_of (hm : DiskStore.Tracks file s d) {x : NodeSlot}
    (hx : d.slots[i]? = some x) :
    SlotMatch (i ∈ s.kept) (s.slots i) x := by
  have hlt : i < s.next := hm.next ▸ (List.getElem?_eq_some_iff.mp hx).1
  obtain ⟨y, hy, hmatch⟩ := hm.slots i hlt
  rw [hx] at hy
  cases hy
  exact hmatch

omit [Crc32Fast] in
lemma SlotMatch.offset {kept : Prop} {z : Option Slot} {x : NodeSlot} (hm : SlotMatch kept z x) :
    x.offset = z.bind Slot.label := by
  cases hm with
  | freed => rfl
  | loaded n dirty r bytes tick => rfl
  | evicted n r => rfl
  | stub r => rfl

omit [Crc32Fast] in
lemma SlotMatch.ne_freed {kept : Prop} {y : Slot} {x : NodeSlot} (hm : SlotMatch kept (some y) x) :
    x ≠ NodeSlot.freed := by
  cases hm <;> simp

omit [Crc32Fast] in
lemma SlotMatch.isSome {kept : Prop} {z : Option Slot} {x : NodeSlot} (hm : SlotMatch kept z x)
    (hx : x ≠ NodeSlot.freed) :
    ∃ y, z = some y := by
  cases hm with
  | freed => exact absurd rfl hx
  | loaded n dirty r bytes tick => exact ⟨_, rfl⟩
  | evicted n r => exact ⟨_, rfl⟩
  | stub r => exact ⟨_, rfl⟩

lemma DiskStore.Tracks.slotOffset_eq (hm : DiskStore.Tracks file s d) (i : NodeId) :
    slotOffset d.slots i = (s.slots i).bind Slot.label := by
  unfold slotOffset
  cases hx : d.slots[i]? with
  | some x => exact (hm.slot_of hx).offset
  | none =>
    cases hy : s.slots i with
    | none => rfl
    | some y =>
      obtain ⟨x, hx', -⟩ := hm.slot hy
      rw [hx] at hx'
      cases hx'

lemma DiskStore.Tracks.offsets_iff (hm : DiskStore.Tracks file s d) (o : ℕ) (i : NodeId) :
    d.offsets.get? o = some i ↔ slotOffset d.slots i = some o := by
  rw [hm.offsets, hm.slotOffset_eq, Option.bind_eq_some_iff]

/-- Children that have the records of a stored node have its child offsets. -/
lemma DiskStore.Tracks.kids_offsets {ht : ℕ} {es : List (VTree ht)} {cs : List NodeId}
    (hm : DiskStore.Tracks file s d)
    (hc : cs.map (fun c => (s.slots c).bind Slot.record) = es.map fun e => some ⟨ht, e⟩)
    (h64 : ∀ e ∈ es, e.label < 2 ^ 64) :
    List.Forall₂ (fun i c => slotOffset d.slots i = some (UInt64.toNat c)) cs
      (es.map fun e => UInt64.ofNat e.label) := by
  rw [← List.forall₂_eq_eq_eq, List.forall₂_map_left_iff, List.forall₂_map_right_iff] at hc
  induction hc with
  | nil => exact .nil
  | @cons c e cs es hce _ ih =>
    refine .cons ?_ (ih fun e' he' => h64 e' (List.mem_cons_of_mem _ he'))
    obtain ⟨x, hx, hr⟩ := Option.bind_eq_some_iff.mp hce
    rw [hm.slotOffset_eq, hx, Option.bind_some,
      UInt64.toNat_ofNat_of_lt' (h64 e (List.mem_cons_self ..))]
    simp [Slot.label, hr, Record.label]

/-- A node is what its record holds where it would be read back from there. -/
lemma DiskStore.Tracks.reflects {n : Node} {r : Record} (hm : DiskStore.Tracks file s d)
    (hon : r.2.OnFile (file d.vfs) d.watermark)
    (hr : s.ReadsBack n r) : Reflects (file d.vfs) d.watermark d.slots r.label n := by
  obtain ⟨ht, e⟩ := r
  cases ht with
  | zero =>
    cases n with
    | leaf es =>
      obtain ⟨len, hp⟩ := hon.2
      have hes : e.entries = es := hr
      exact .leaf (hes ▸ hp)
    | internal ps cs b => exact absurd hr not_false
  | succ ht =>
    cases n with
    | leaf es => exact absurd hr not_false
    | internal ps cs b =>
      obtain ⟨-, ⟨len, hp⟩, hlen, hkids⟩ := hon
      obtain ⟨rfl, rfl, hc⟩ := hr
      have h64 : ∀ c ∈ e.children, c.label < 2 ^ 64 := fun c hc => (hkids c hc).2.2.1
      refine .internal hp (by simpa using hlen) (fun c hc => ?_) (hm.kids_offsets hc h64)
      obtain ⟨e', he', rfl⟩ := List.mem_map.mp hc
      rw [UInt64.toNat_ofNat_of_lt' (h64 e' he')]
      exact (hkids e' he').2.1

section Reflects
variable {f : List Byte} {w o len : ℕ} {slots : List NodeSlot} {n : Node} {ps : List Key}
    {cs : List UInt64} {b : Buffer}

lemma Reflects.child_mem (hr : Reflects f w slots o n) (hc : c ∈ n.children) :
    ∃ ps cs b len, ∃ child ∈ cs,
    parseRecord f w o = .ok (.internal ps cs b, len) ∧ slotOffset slots c = some child.toNat := by
  cases hr with
  | leaf hp => cases hc
  | @internal ps cs b len ids hp hlen hlt hids =>
    obtain ⟨k, hk⟩ := List.getElem?_of_mem hc
    have hrel := forall₂_getElem? hids k
    have hk' : ids[k]? = some c := hk
    rw [hk'] at hrel
    cases hchild : cs[k]? with
    | none =>
      rw [hchild] at hrel
      cases hrel
    | some child =>
      rw [hchild, Option.rel_some_some] at hrel
      exact ⟨ps, cs, b, len, child, List.mem_of_getElem? hchild, hp, hrel⟩

lemma Reflects.mem_children (hr : Reflects f w slots o n)
    (hp : parseRecord f w o = .ok (.internal ps cs b, len)) {child : UInt64}
    (hc : child ∈ cs) : ∃ c ∈ n.children, slotOffset slots c = some child.toNat := by
  cases hr with
  | leaf hp' =>
    rw [hp] at hp'
    cases hp'
  | @internal ps' cs' b' len' ids hp' hlen hlt hids =>
    rw [hp] at hp'
    cases hp'
    obtain ⟨k, hk⟩ := List.getElem?_of_mem hc
    have hrel := forall₂_getElem? hids k
    rw [hk] at hrel
    cases hid : ids[k]? with
    | none =>
      rw [hid] at hrel
      cases hrel
    | some c =>
      rw [hid, Option.rel_some_some] at hrel
      exact ⟨c, List.mem_of_getElem? hid, hrel⟩

end Reflects

/-- The children of a record that was never read are not in the offset index. -/
lemma DiskStore.Models.stub_children (hm : DiskStore.Models file s d) {r : Record}
    (hx : s.slots i = some (.stub r)) {len : ℕ}
    {ps : List Key} {cs : List UInt64} {b : Buffer}
    (hp : parseRecord (file d.vfs) d.watermark r.label = .ok (.internal ps cs b, len))
    {child : UInt64} (hc : child ∈ cs) : d.offsets.get? child.toNat = none := by
  have hon := hm.records i _ r hx rfl
  obtain ⟨ht, e⟩ := r
  cases ht with
  | zero =>
    obtain ⟨len', hp'⟩ := hon.2
    have hpe : parseRecord (file d.vfs) d.watermark e.label = .ok (.internal ps cs b, len) := hp
    rw [hpe] at hp'
    cases hp'
  | succ ht =>
    obtain ⟨len', hp'⟩ := hon.2.1
    have hpe : parseRecord (file d.vfs) d.watermark e.label = .ok (.internal ps cs b, len) := hp
    rw [hpe] at hp'
    cases hp'
    obtain ⟨e', he', rfl⟩ := List.mem_map.mp hc
    obtain ⟨-, hlt, h64, hon'⟩ := hon.2.2.2 e' he'
    rw [UInt64.toNat_ofNat_of_lt' h64]
    by_contra hne
    obtain ⟨c, hget⟩ := Option.ne_none_iff_exists'.mp hne
    obtain ⟨y, hy, hyl⟩ := (hm.offsets e'.label c).mp hget
    have hown := Slot.label_mem_labels hyl fun r hr => (hm.records c y r hy hr).isSome
    have hkid := ((Tree.offs_children (hm.apart.nodup i _ hx) hon.isSome).1 e' he').2.2
      (Tree.label_mem_offs hon'.isSome)
    obtain rfl := hm.apart.owner c i y _ _ hy hx hown hkid
    rw [hx] at hy
    cases hy
    exact hlt.ne (Option.some.inj hyl).symm

variable {π : Type} {r : DiskEngine π V} {e : Engine π Ideal}

omit [Crc32Fast] in
lemma Holds.mem_foot (ht : Holds e t) {x : Slot} (hlt : i < e.store.next)
    (hx : e.store.slots i = some x) :
    (i, x) ∈ Live.foot t := by
  have hi : i ∈ (Live.foot t).ids := by
    by_contra hn
    rw [ht.whole i hlt hn] at hx
    cases hx
  obtain ⟨⟨j, y⟩, hy, rfl⟩ := List.mem_map.mp hi
  have hxy := ht.stored.slots _ hy
  rw [hx] at hxy
  cases hxy
  exact hy

lemma Follows.reflects (hr : Follows file r e t) {n : Node} {rec : Option Record}
    (hx : e.store.slots i = some (.loaded n false rec)) :
    ∃ D, rec = some D ∧ Reflects (file r.store.vfs) r.store.watermark r.store.slots D.label n := by
  have hm := hr.alike.store
  obtain ⟨D, rfl, hback⟩ := Live.readsBack_foot hr.holds.stored hr.holds.sound
    (hr.holds.mem_foot (hm.bound i _ hx) hx)
  exact ⟨D, rfl, hm.reflects (hm.records i _ D hx rfl) hback⟩

lemma Follows.child_iff (hr : Follows file r e t) : r.store.Child (file r.store.vfs) i c ↔
    e.store.Child i c := by
  have hm := hr.alike.store
  constructor
  · intro hc
    cases hc with
    | @loaded n dirty off bytes tick hx hc =>
      have hmatch := hm.slot_of hx
      generalize hz : e.store.slots i = z at hmatch
      cases hmatch with
      | loaded _ _ rec => exact ⟨n, dirty, rec, hz, hc⟩
    | @onDisk o len ps cs b child hx hp hchild hget =>
      have hmatch := hm.slot_of hx
      generalize hz : e.store.slots i = z at hmatch
      cases hmatch with
      | evicted n D =>
        obtain ⟨_, hD, href⟩ := hr.reflects hz
        cases hD
        obtain ⟨c', hc', hoff⟩ := href.mem_children hp hchild
        rw [(hm.offsets_iff _ _).mpr hoff] at hget
        cases hget
        exact ⟨n, false, some D, hz, hc'⟩
      | stub D =>
        rw [hm.stub_children hz hp hchild] at hget
        cases hget
  · rintro ⟨n, dirty, rec, hx, hc⟩
    obtain ⟨y, hy, hmatch⟩ := hm.slot hx
    cases hmatch with
    | loaded _ _ _ bytes tick => exact .loaded hy hc
    | evicted _ D hk =>
      obtain ⟨_, hD, href⟩ := hr.reflects hx
      cases hD
      obtain ⟨ps, cs, b, len, child, hchild, hp, hoff⟩ := href.child_mem hc
      exact .onDisk hy hp hchild ((hm.offsets_iff _ _).mpr hoff)

lemma Follows.arranged (hr : Follows file r e t) : r.store.Arranged (file r.store.vfs) r.root := by
  have hm := hr.alike.store
  have hroot : r.root = t.id := by rw [← hr.holds.root, hr.alike.root]
  have hn := hr.holds.stored.nodup
  have hmem : ∀ {j x}, e.store.slots j = some x → (j, x) ∈ Live.foot t := fun {j x} hx =>
    hr.holds.mem_foot (hm.bound j x hx) hx
  have hused : ∀ j ∈ (Live.foot t).ids, ∃ x, r.store.slots[j]? = some x ∧ x ≠ NodeSlot.freed := by
    intro j hj
    obtain ⟨⟨j, y⟩, hy, rfl⟩ := List.mem_map.mp hj
    obtain ⟨x, hx, hmatch⟩ := hm.slot (hr.holds.stored.slots _ hy)
    exact ⟨x, hx, hmatch.ne_freed⟩
  constructor
  case top => exact hroot ▸ hused _ (Live.id_mem t)
  case child =>
    intro i c hc
    obtain ⟨n, dirty, rec, hx, hc⟩ := hr.child_iff.mp hc
    obtain ⟨hin, hne⟩ := Live.child_mem hn (hmem hx) hc
    exact ⟨hroot ▸ hne, hused c hin⟩
  case parent =>
    intro i i' c hc hc'
    obtain ⟨n, dirty, rec, hx, hc⟩ := hr.child_iff.mp hc
    obtain ⟨n', dirty', rec', hx', hc'⟩ := hr.child_iff.mp hc'
    exact Live.parent_unique hn (hmem hx) (hmem hx') hc hc'
  case nodup =>
    intro i n dirty off bytes tick hx
    have hmatch := hm.slot_of hx
    generalize hz : e.store.slots i = z at hmatch
    cases hmatch with
    | loaded _ _ rec => exact Live.children_nodup hn (hmem hz)
  case descends =>
    intro i x hx hfree
    obtain ⟨y, hy⟩ := (hm.slot_of hx).isSome hfree
    have hpath := Live.descends hr.holds.stored.slots (List.mem_map_of_mem (hmem hy))
    rw [hroot]
    exact Relation.ReflTransGen.mono (fun _ _ hc => hr.child_iff.mpr hc) _ _ hpath
  case offsets => exact hm.offsets_iff
  case clean =>
    intro i n off bytes tick hx
    have hmatch := hm.slot_of hx
    generalize hz : e.store.slots i = z at hmatch
    cases hmatch with
    | loaded _ _ rec =>
      obtain ⟨D, rfl, href⟩ := hr.reflects hz
      exact ⟨_, rfl, href⟩

end Slots

section History
variable {V : Type} [Vfs V] [Honest V] [Crc32Fast]

/-- Whatever happens to an engine, its slots are one tree: no slot is lost, none has two parents or
is used while freed, and what a clean slot holds is what the device has at its offset. -/
theorem slots_arranged {π : Type} [FlushPolicy π] {m : KvStore} {r : DiskEngine π V}
    (h : History m r) :
    r.store.Arranged (Honest.file r.store.vfs) r.root := by
  obtain ⟨-, e, _, t, sb, D, prev, hs, -⟩ := h.represents
  exact hs.toFollows.arranged

end History

/-- After a commit that left freed slots and evicted others, and after the file was opened again and
used. -/
theorem slots_arranged_worn : ∃ r₁ r₂ r₃ : DiskEngine GreedyFullest FaultyVfs,
    @History FaultyVfs _ Reliable.honest crc32Ieee GreedyFullest _ .churned r₁ ∧
    .freed ∈ r₁.store.slots ∧
    5 ≤ r₁.store.cache.evictions ∧ @DiskStore.Arranged FaultyVfs crc32Ieee r₁.store.vfs.view
      r₁.store r₁.root ∧
    (∃ x ∈ r₂.store.slots, x.dirty = true) ∧ .onDisk 8323 ∈ r₂.store.slots ∧
    @DiskStore.Arranged FaultyVfs crc32Ieee r₂.store.vfs.view r₂.store r₂.root ∧
    @History FaultyVfs _ Reliable.honest crc32Ieee GreedyFullest _
      (KvStore.worn.reopen.after (.op (.mutate (.delete [5])))) r₃ ∧
    @DiskStore.Arranged FaultyVfs crc32Ieee r₃.store.vfs.view r₃.store r₃.root := by
  let _ := crc32Ieee
  let _ : Honest FaultyVfs := Reliable.honest
  obtain ⟨r₁, r₂, -, h₁, h₂, -, -, hfreed, hevictions, hdirty, hdisk, -⟩ :=
    history_worn Reliable.honest FaultyVfs.idle_new
  obtain ⟨-, -, r₃, -, -, -, -, h₃⟩ := history_reopened
  exact ⟨r₁, r₂, r₃, h₁, hfreed, hevictions, slots_arranged h₁, hdirty, hdisk, slots_arranged h₂,
    h₃, slots_arranged h₃⟩

end Beetree
