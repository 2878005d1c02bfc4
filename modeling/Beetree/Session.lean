import Beetree.ArenaSim
import Beetree.DiskFuel
import Beetree.Durable

/-! An engine on a device between two calls.

It follows an ideal engine whose tree is at rest, and its device holds the states it published
last. -/
namespace Beetree
open DiskStore (Models newSuperblock)

section Offsets
variable {s : Ideal} {h : ℕ} {t : Live h}

lemma Ideal.Ready.nodup {done l : List NodeId} (hr : s.Ready done l) :
    l.Nodup ∧ ∀ i ∈ l, i ∉ done := by
  induction l generalizing done with
  | nil => simp
  | cons i l ih =>
    obtain ⟨hi, -, hl⟩ := hr
    obtain ⟨hn, hnot⟩ := ih hl
    refine ⟨List.nodup_cons.mpr ⟨fun hmem => hnot i hmem (by simp), hn⟩, ?_⟩
    intro j hj hd
    rcases List.mem_cons.mp hj with rfl | hj
    · exact hi hd
    · exact hnot j hj (by simp [hd])

variable [Crc32Fast] {file : List Byte} {w base : ℕ} {batch : DiskStore.Batch}

/-- What is published lies in the file, but for the nodes that are yet to be written. -/
lemma Live.offs_view (hS : Live.Sound (fun _ d => d.OnFile file w) t) :
    ∀ o ∈ (Live.view true t).offs, o < w := by
  induction h with
  | zero =>
    rcases t with ⟨id, dirty, dk, x⟩ | ⟨id, d⟩
    · cases dirty with
      | true =>
        intro o ho
        cases ho
      | false =>
        obtain ⟨d, rfl, -⟩ := hS.2.1 rfl
        exact fun o ho => ((hS.1 d rfl).offs_lt o ho).2
    · exact fun o ho => (Tree.OnFile.offs_lt hS o ho).2
  | succ h ih =>
    rcases t with ⟨id, dirty, dk, x⟩ | ⟨id, d⟩
    · cases dirty with
      | true =>
        induction x using Body.succCases with
        | hn ps cs b =>
          intro o ho
          rw [Live.view_dirty, Body.view_node, Tree.offs_node, Option.toList_none, List.nil_append,
            List.mem_flatMap] at ho
          obtain ⟨d, hd, ho⟩ := ho
          obtain ⟨c, hc, rfl⟩ := List.mem_map.mp hd
          exact ih (Body.sound_node.mp hS.2.2 c hc) o ho
      | false =>
        obtain ⟨d, rfl, -⟩ := hS.2.1 rfl
        exact fun o ho => ((hS.1 d rfl).offs_lt o ho).2
    · exact fun o ho => (Tree.OnFile.offs_lt hS o ho).2

lemma Batched.nodup (hb : Batched s t base batch) (hF : Stored s (Live.foot t))
    (hS : Live.Sound (fun _ d => d.OnFile file base) t) (hn : (Live.view true t).offs.Nodup) :
    (Live.publish batch.offset t).offs.Nodup := by
  have hready : s.Ready [] (Live.queue t) := Live.ready hF hS (by simp)
  have hids : ((Live.written t).map Prod.fst).Nodup := List.nodup_reverse.mp hready.nodup.1
  have hget : ∀ x ∈ Live.written t, batch.assigned.get? x.1 = some (batch.offset x.1) := fun x hx =>
    hb.get? (List.mem_reverse.mpr (List.mem_map_of_mem hx))
  rw [(Live.offs_publish hS).nodup_iff, List.nodup_append]
  refine ⟨List.Nodup.map_on (fun x hx y hy hxy => ?_) hids.of_map, hn, fun o ho o' ho' heq => ?_⟩
  · have hfst := hb.laid.apart x.1 y.1 _ (hget x hx) (hxy ▸ hget y hy)
    exact List.inj_on_of_nodup_map hids hx hy hfst
  · obtain ⟨x, hx, rfl⟩ := List.mem_map.mp ho
    have hge := (hb.laid.lt (hget x hx)).1
    have hlt := Live.offs_view hS o' ho'
    omega

end Offsets

section Follows
variable {π V : Type} [Crc32Fast] {file : V → List Byte} {e e' : Engine π Ideal}
    {r r' : DiskEngine π V} {h h' : ℕ}
  {t : Live h} {t' : Live h'}

/-- An engine follows an ideal one. What it would publish answers as it does itself, and holds no
record twice. -/
structure Follows (file : V → List Byte) (r : DiskEngine π V) (e : Engine π Ideal) {h : ℕ}
    (t : Live h) : Prop where
  alike : Alike (Models file) e r
  holds : Holds e t
  records : Live.Sound (fun _ d => d.RootRest e.params) t
  nodup : (Live.view true t).offs.Nodup
  same : ∀ k, (Live.view true t).resolve k = (Live.view false t).resolve k

lemma Follows.evolve {q : Bool} {f : Key → Option Value → Option Value} (hr : Follows file r e t)
    (ha : Alike (Models file) e' r')
    (ht : Holds e' t') (hev : Evolves q f t t') (hp : e'.params = e.params) :
    Follows file r' e' t' where
  alike := ha
  holds := ht
  records := hp ▸ hev.sound _ (hereditary_rest e.params) hr.records
  nodup := hr.nodup.sublist (hev.offs true)
  same k := by rw [hev.resolve true, hev.resolve false, hr.same]

lemma Follows.stands_published {batch : DiskStore.Batch} (hr : Follows file r e t)
    (hb : Batched e.store t r.store.watermark batch) (hbase : dataStart ≤ r.store.watermark)
    (hreach : Reaches (file r.store.vfs) r.store.watermark batch.buf)
    (h64 : r.store.watermark + batch.buf.length < 2 ^ 64)
    (generation : ℕ) (slot : Superblock) :
    Stands (published (file r.store.vfs) r.store.watermark batch.buf generation slot)
      (newSuperblock e.params e.nextSeq r.store.nextGeneration (Live.publish batch.offset t).label
        (r.store.watermark + batch.buf.length)) ⟨h, Live.publish batch.offset t⟩ := by
  have hS := hr.alike.store.toTracks.sound hr.holds.stored hr.holds.sound
  have honFile :=
    (hr.alike.store.toTracks.onFile_publish hr.holds.stored hr.holds.sound
      hr.holds.forks hb hbase hreach
    generation slot).1
  obtain ⟨len, hparse⟩ := honFile.parse
  have hbounds := parseRecord_bounds hparse
  have hsize : recordHeaderSize = 8 := rfl
  have hw : (UInt64.ofNat (r.store.watermark + batch.buf.length)).toNat = r.store.watermark +
    batch.buf.length :=
    UInt64.toNat_ofNat_of_lt' h64
  have hroot :
    (UInt64.ofNat (Live.publish batch.offset t).label).toNat =
      (Live.publish batch.offset t).label :=
    UInt64.toNat_ofNat_of_lt' (by change _ < 2 ^ 64; omega)
  have hbare : (Live.publish batch.offset t).bare = (Live.view true t).bare := Live.bare_publish hS
  exact {
    sane := by
      refine ⟨?_, ?_, ?_, hr.holds.legal⟩
      · change dataStart ≤ (UInt64.ofNat (r.store.watermark + batch.buf.length)).toNat
        rw [hw]
        omega
      · change dataStart ≤ (UInt64.ofNat (Live.publish batch.offset t).label).toNat
        rw [hroot]
        exact hbounds.1
      · change (UInt64.ofNat (Live.publish batch.offset t).label).toNat ≤
          (UInt64.ofNat (r.store.watermark + batch.buf.length)).toNat - recordHeaderSize
        rw [hroot, hw]
        omega
    root := hroot
    onFile := by
      change (Live.publish batch.offset t).OnFile _
        (UInt64.ofNat (r.store.watermark + batch.buf.length)).toNat
      rw [hw]
      exact honFile
    length := by
      change (UInt64.ofNat (r.store.watermark + batch.buf.length)).toNat ≤ _
      rw [hw]
      exact published_length hreach
    valid := by
      rw [← Tree.valid_bare, hbare, Tree.valid_bare]
      exact (hr.holds.good true).valid
    rest := by
      have hrest := Live.rootRest_view hr.records hr.holds.rest
      rw [← Tree.rootRest_bare, hbare, Tree.rootRest_bare]
      exact hrest
    fresh := fun k => by
      rw [← Tree.below_bare, hbare, Tree.below_bare]
      exact hr.holds.fresh true k
    nodup := hb.nodup hr.holds.stored hS hr.nodup }

lemma Follows.stands {Idle : V → Prop} {batch : DiskStore.Batch} {stats : CommitStats}
    (hr : Follows file r e t)
    (hc : DiskEngine.Commits file Idle e t r batch stats r') (hbase : dataStart ≤ r.store.watermark)
    (hreach : Reaches (file r.store.vfs) r.store.watermark batch.buf) :
    Stands (file r'.store.vfs)
    (newSuperblock e.params e.nextSeq r.store.nextGeneration (Live.publish batch.offset t).label
      r'.store.watermark) ⟨h, Live.publish batch.offset t⟩ := by
  have h64 : r'.store.watermark < 2 ^ 64 := hc.alike.store.watermark
  have hw := hc.watermark
  rw [hw] at h64
  rw [hc.file, hw]
  exact hr.stands_published hc.batched hbase hreach h64 _ _

lemma Follows.commit {Idle : V → Prop} {batch : DiskStore.Batch} {stats : CommitStats}
    (hr : Follows file r e t)
    (hc : DiskEngine.Commits file Idle e t r batch stats r') (hbase : dataStart ≤ r.store.watermark)
    (hreach : Reaches (file r.store.vfs) r.store.watermark batch.buf) :
    Follows file r' (e.committed batch.offset t) (Live.commit batch.offset t) := by
  have hstands := hr.stands hc hbase hreach
  refine ⟨hc.alike, hr.holds.commit _, ?_, ?_, fun k => ?_⟩
  · exact Live.sound_commit (hereditary_rest e.params) hr.records fun _ => hstands.rest
  · rw [Live.view_commit hr.holds.sound]
    exact hstands.nodup
  · rw [← Tree.resolve_bare, Live.bare_view_commit' hr.holds.sound,
      ← Tree.resolve_bare (Live.view false _),
      Live.bare_view_commit' hr.holds.sound, Tree.resolve_bare, Tree.resolve_bare, hr.same]

end Follows

section Start
variable {π V : Type} [Crc32Fast] {file : V → List Byte}

/-- One slot, and nothing certain to be in memory. -/
def Ideal.single (x : Slot) : Ideal where
  slots := Function.update (fun _ => none) 0 (some x)
  next := 1
  kept := ∅
  free := false

omit [Crc32Fast] in
lemma Ideal.slots_single {x y : Slot} {id : NodeId} (h : (Ideal.single x).slots id = some y) :
    id = 0 ∧ y = x := by
  by_cases hid : id = 0
  · subst hid
    exact ⟨rfl, (Option.some.inj (by simpa [Ideal.single] using h)).symm⟩
  · simp [Ideal.single, hid] at h

omit [Crc32Fast] in
lemma Ideal.apart_single {x : Slot} (hx : x.labels.Nodup) : (Ideal.single x).Apart where
  nodup id y hy := by
    obtain ⟨-, rfl⟩ := Ideal.slots_single hy
    exact hx
  owner id id' y y' o hy hy' _ _ := by
    obtain ⟨rfl, -⟩ := Ideal.slots_single hy
    obtain ⟨rfl, -⟩ := Ideal.slots_single hy'
    rfl

lemma models_single {x : Slot} {y : NodeSlot} {d : DiskStore V} (hslots : d.slots = [y])
    (hm : SlotMatch False (some x) y)
    (hr : ∀ r, x.record = some r → r.2.OnFile (file d.vfs) d.watermark)
    (hoff : ∀ o id, d.offsets.get? o = some id ↔ id = 0 ∧ x.label = some o) (ht : d.Tidy)
    (hw : d.watermark < 2 ^ 64)
    (hx : x.labels.Nodup) : Models file (Ideal.single x) d where
  next := by
    rw [hslots]
    rfl
  slots id hid := by
    obtain rfl : id = 0 := Nat.lt_one_iff.mp hid
    refine ⟨y, by rw [hslots]; rfl, ?_⟩
    simpa [Ideal.single] using hm
  bound id z hz := by
    obtain ⟨rfl, -⟩ := Ideal.slots_single hz
    exact Nat.one_pos
  records id z r hz hzr := by
    obtain ⟨-, rfl⟩ := Ideal.slots_single hz
    exact hr r hzr
  offsets o id := by
    rw [hoff]
    constructor
    · rintro ⟨rfl, hl⟩
      exact ⟨x, by simp [Ideal.single], hl⟩
    · rintro ⟨z, hz, hl⟩
      obtain ⟨rfl, rfl⟩ := Ideal.slots_single hz
      exact ⟨rfl, hl⟩
  tidy := ht
  free hf := by cases hf
  watermark := hw
  apart := Ideal.apart_single hx

def Engine.standing (sb : Superblock) (r : Record) (policy : π) : Engine π Ideal where
  params := sb.params
  store := .single (.stub r)
  root := 0
  nextSeq := sb.lastSeq
  opsSinceCommit := 0
  policy := policy
  trace := .new

/-- The tree of an engine that has read nothing. -/
def Record.unread (r : Record) : Live r.1 := Cell.stub 0 r.2

omit [Crc32Fast] in
lemma holds_single {h : ℕ} {e : Engine π Ideal} {x : Slot} (he : e.store = .single x)
    (hroot : e.root = 0) {t : Live h}
    (hfoot : Live.foot t = [(0, x)]) (hid : t.id = 0) (hg : ∀ p, Live.Good p none none t)
    (hS : Live.Sound (fun _ d => d.Labelled) t) (hrest : (Live.plain t).RootRest e.params)
    (hfresh : ∀ p k, (Live.view p t).Below k (e.nextSeq.toNat + 1))
    (hp : e.params.Legal) : Holds e t where
  root := hroot.trans hid.symm
  stored := by
    rw [hfoot, he]
    refine ⟨fun y hy => ?_, fun i hi => ?_, List.nodup_singleton _⟩
    · obtain rfl := List.mem_singleton.mp hy
      simp [Ideal.single]
    · obtain rfl : i = 0 := List.mem_singleton.mp hi
      exact Nat.one_pos
  whole i hi hn := by
    rw [he] at hi
    rw [hfoot] at hn
    obtain rfl : i = 0 := Nat.lt_one_iff.mp hi
    exact absurd (List.mem_singleton_self _) hn
  good := hg
  sound := hS
  rest := hrest
  fresh := hfresh
  legal := hp

lemma follows_recovered {v : V} {sb : Superblock} {r : Record} (hs : Stands (file v) sb r)
    (budget : Option ℕ) (policy : π)
    (generation : ℕ) :
    Follows file (DiskEngine.recovered v budget policy sb generation)
    (Engine.standing sb r policy) r.unread := by
  have hlabel : r.label = sb.rootOffset.toNat := hs.root.symm
  have hrest : r.2.RootRest sb.params := hs.rest
  refine ⟨⟨models_single rfl (hlabel ▸ .stub r) ?_ ?_ ?_ (UInt64.toNat_lt _) hs.nodup, rfl, rfl,
    rfl, rfl, rfl, rfl⟩,
    holds_single rfl rfl rfl rfl ?_ hs.onFile.labelled ?_ ?_ hs.sane.2.2.2, hrest,
      hs.nodup, fun _ => rfl⟩
  · intro q hq
    obtain rfl : r = q := Option.some.inj hq
    exact hs.onFile
  · intro o id
    change (OrdMap.empty.insert sb.rootOffset.toNat 0).get? o = some id ↔ id = 0 ∧
      some r.label = some o
    rw [OrdMap.get?_insert, hlabel]
    split_ifs with ho
    · simp [ho, eq_comm]
    · simp [Ne.symm ho]
  · exact ⟨rfl, rfl, by simp [DiskEngine.recovered, Cache.new],
      by simp [DiskEngine.recovered, NodeSlot.Backed]⟩
  · exact fun _ => hs.valid
  · rw [← Tree.rootRest_bare]
    change (r.2.clean).bare.RootRest sb.params
    rw [Tree.clean, Tree.bare_relabel, Tree.rootRest_bare]
    exact hrest
  · exact fun _ => hs.fresh

lemma follows_unpublished (v : V) (budget : Option ℕ) {params : Params}
    (hp : params.Legal) (policy : π) :
    Follows file (DiskEngine.unpublished v budget params policy)
    (Engine.fresh params policy) Live.fresh := by
  refine ⟨⟨models_single rfl (.loaded _ _ none _ _)
    (fun r hr => by cases hr) (fun o id => ?_) ?_ ?_ List.nodup_nil, rfl, rfl,
    rfl, rfl, rfl, rfl⟩, holds_fresh hp policy, ?_, List.nodup_nil, fun _ => rfl⟩
  · simp [DiskEngine.unpublished, Slot.label, Slot.record]
  · exact ⟨rfl, rfl, by simp [DiskEngine.unpublished, Cache.new],
      by simp [DiskEngine.unpublished, NodeSlot.Backed]⟩
  · change dataStart < 2 ^ 64
    decide
  · simp [Live.fresh, Live.Sound, Cell.Sound, Body.Sound]

end Start

section Sits
variable {π V : Type} [Vfs V] [Crc32Fast] {file : V → List Byte} {Same : V → V → Prop}
    {Idle : V → Prop} {e e' : Engine π Ideal}
  {r r' : DiskEngine π V} {h h' : ℕ} {t : Live h} {t' : Live h'} {sb : Superblock} {D : Record}
  {prev : Option (Superblock × Record)}

/-- An engine over the last state it published. -/
structure Sits (file : V → List Byte) (Idle : V → Prop) (r : DiskEngine π V) (e : Engine π Ideal)
    {h : ℕ} (t : Live h)
    (sb : Superblock) (D : Record) (prev : Option (Superblock × Record)) :
    Prop extends Follows file r e t where
  idle : Idle r.store.vfs
  durable : Durable (file r.store.vfs) sb D prev
  watermark : r.store.watermark = sb.watermark.toNat
  nextGeneration : r.store.nextGeneration = sb.generation.toNat + 1
  fits : r.store.nextGeneration < 2 ^ 64
  params : e.params = sb.params
  poisoned : r.store.poisoned = false

lemma Sits.steady {Err : Fault → Prop} (hV : Device file Same Idle Err)
    (hr : Sits file Idle r e t sb D prev)
    (hf : Follows file r' e' t') (hp : e'.params = e.params)
    (hk : DiskStore.Steady Same r.store r'.store) :
    Sits file Idle r' e' t' sb D prev where
  toFollows := hf
  idle := hV.idle_same hk.vfs hr.idle
  durable := by
    rw [hV.file_eq hk.vfs]
    exact hr.durable
  watermark := hk.watermark.trans hr.watermark
  nextGeneration := hk.nextGeneration.trans hr.nextGeneration
  fits := hk.nextGeneration ▸ hr.fits
  params := hp.trans hr.params
  poisoned := hk.poisoned.trans hr.poisoned

def DiskEngine.poison (r : DiskEngine π V) :
    DiskEngine π V := { r with store := { r.store with poisoned := true } }

/-- Where a program failed that poisons the engine on storage errors. -/
structure Poisons (E : Fault → DiskEngine π V → Prop) (f : Fault) (r' : DiskEngine π V) : Prop where
  storage : f.IsStorage → ∃ r₁, E f r₁ ∧ r' = r₁.poison
  other : ¬ f.IsStorage → E f r'

omit [Vfs V] [Crc32Fast] in
lemma ends_poisoning {α : Type} {m : Engine.Act π (DiskStore V) α} {Q : α → DiskEngine π V → Prop}
    {E : Fault → DiskEngine π V → Prop} (hm : Ends m r Q E) :
    Ends (DiskEngine.poisoning m) r Q (Poisons E) := by
  unfold Ends at hm ⊢
  unfold DiskEngine.poisoning
  cases hrun : m r with
  | ok a r' =>
    rw [hrun] at hm
    exact hm
  | error f r' =>
    rw [hrun] at hm
    cases f with
    | storage x => exact ⟨fun _ => ⟨r', hm, rfl⟩, fun hf => absurd ⟨x, rfl⟩ hf⟩
    | panic => exact ⟨fun hf => absurd hf (by simp [Fault.IsStorage]), fun _ => hm⟩
    | overflow => exact ⟨fun hf => absurd hf (by simp [Fault.IsStorage]), fun _ => hm⟩
    | fuel => exact ⟨fun hf => absurd hf (by simp [Fault.IsStorage]), fun _ => hm⟩

def DiskEngine.Published (e : Engine π Ideal) (t : Live h) (r : DiskEngine π V)
    (batch : DiskStore.Batch) : Superblock × Record :=
  (newSuperblock e.params e.nextSeq r.store.nextGeneration (Live.publish batch.offset t).label
    (r.store.watermark + batch.buf.length), ⟨h, Live.publish batch.offset t⟩)

/-- A commit publishes what the engine answers from, or fails without harm to what is published. -/
theorem Sits.commit {Err : Fault → Prop} (hV : Device file Same Idle Err)
    (hr : Sits file Idle r e t sb D prev) :
    ∃ N, ∀ fuel ≥ N, Ends (DiskEngine.commit fuel) r
      (fun stats r' => ∃ batch, DiskEngine.Commits file Idle e t r batch stats r' ∧
      Sits file Idle r' (e.committed batch.offset t) (Live.commit batch.offset t)
      (DiskEngine.Published e t r batch).1
        (DiskEngine.Published e t r batch).2 (some (sb, D)))
      (Poisons fun f _ => Err f ∨ Refusal f ∧
        ¬ DiskEngine.Fits e t r.store.watermark r.store.nextGeneration) := by
  have hlen : r.store.watermark ≤ (file r.store.vfs).length := by
    rw [hr.watermark]
    exact hr.durable.stands.length
  have hbase : dataStart ≤ r.store.watermark := by
    rw [hr.watermark]
    exact hr.durable.stands.sane.1
  obtain ⟨N, hN⟩ := DiskEngine.commitInner_run hV hr.alike hr.holds hr.idle hbase (Or.inl hlen)
  refine ⟨N, fun fuel hf => ?_⟩
  unfold DiskEngine.commit
  refine .after (Engine.run_get) ?_
  rw [hr.poisoned, if_neg (by decide)]
  refine ends_poisoning ((hN fuel hf).mono ?_ fun _ _ h => h)
  rintro stats r' ⟨batch, hc⟩
  refine ⟨batch, hc, ?_⟩
  have hreach : Reaches (file r.store.vfs) r.store.watermark batch.buf := Or.inl hlen
  have hstands := hr.toFollows.stands hc hbase hreach
  have hg : (UInt64.ofNat r.store.nextGeneration).toNat = r.store.nextGeneration :=
    UInt64.toNat_ofNat_of_lt' (lt_of_le_of_lt (Nat.le_succ _) hc.fits)
  have hw : (UInt64.ofNat r'.store.watermark).toNat = r'.store.watermark :=
    UInt64.toNat_ofNat_of_lt' hc.alike.store.watermark
  have hsb :
    (DiskEngine.Published e t r batch).1 = newSuperblock e.params e.nextSeq r.store.nextGeneration
      (Live.publish batch.offset t).label r'.store.watermark := by
    rw [hc.watermark]
    rfl
  rw [hsb]
  exact {
    toFollows := hr.toFollows.commit hc hbase hreach
    idle := hc.idle
    durable := by
      have hfile : file r'.store.vfs = published (file r.store.vfs) sb.watermark.toNat batch.buf
        (sb.generation.toNat + 1)
          (newSuperblock e.params e.nextSeq r.store.nextGeneration
            (Live.publish batch.offset t).label r'.store.watermark) := by
        rw [← hr.watermark, ← hr.nextGeneration]
        exact hc.file
      refine hr.durable.published ⟨rfl, rfl⟩ (hg.trans hr.nextGeneration) hr.params.symm
        ?_ hfile hstands
      rw [← hr.watermark]
      change _ ≤ (UInt64.ofNat r'.store.watermark).toNat
      rw [hw, hc.watermark]
      exact Nat.le_add_right _ _
    watermark := hw.symm
    nextGeneration := hc.nextGeneration.trans (congrArg (· + 1) hg.symm)
    fits := hc.nextGeneration ▸ hc.fits
    params := rfl
    poisoned := hc.poisoned.trans hr.poisoned }

/-- An engine that opens a file as commits leave it sits on the newest state in it. -/
theorem sits_openOn [Honest V] {budget : Option ℕ} {policy : π} {v : V}
    (hd : Durable (Honest.file v) sb D prev)
    (hv : Honest.Idle v) (ho : DiskEngine.openOn budget policy v = .ok r) :
    Sits Honest.file Honest.Idle r (Engine.standing sb D policy) D.unread sb D prev ∧
      Honest.file r.store.vfs = resize (Honest.file v) sb.watermark.toNat := by
  obtain ⟨sb', v', hsel, hlt, rfl, hfile, hidle⟩ := Honest.openOn_run ho
  rw [hd.selected] at hsel
  cases hsel
  have hd' : Durable (Honest.file v') sb D prev := by
    rw [hfile]
    exact hd.resize
  exact ⟨⟨follows_recovered hd'.stands budget policy _, hidle hv, hd', rfl, rfl, hlt,
    rfl, rfl⟩, hfile⟩

theorem Follows.first {Err : Fault → Prop} (hV : Device file Same Idle Err)
    (hr : Follows file r e t) (hidle : Idle r.store.vfs)
    (hfile : file r.store.vfs = []) (hw : r.store.watermark = dataStart)
    (hg : r.store.nextGeneration = 0)
    (hpoison : r.store.poisoned = false) (hd : t.dirty = true) :
    ∃ N, ∀ fuel ≥ N, Ends (DiskEngine.commit fuel) r
      (fun stats r' => ∃ batch, DiskEngine.Commits file Idle e t r batch stats r' ∧
      Sits file Idle r' (e.committed batch.offset t) (Live.commit batch.offset t)
      (DiskEngine.Published e t r batch).1
        (DiskEngine.Published e t r batch).2 none)
      (Poisons fun f _ => Err f ∨ Refusal f ∧
        ¬ DiskEngine.Fits e t r.store.watermark r.store.nextGeneration) := by
  obtain ⟨N, hN⟩ := DiskEngine.commitInner_run hV hr.alike hr.holds hidle hw.ge (Or.inr ⟨hw, hd⟩)
  refine ⟨N, fun fuel hf => ?_⟩
  unfold DiskEngine.commit
  refine .after (Engine.run_get) ?_
  rw [hpoison, if_neg (by decide)]
  refine ends_poisoning ((hN fuel hf).mono ?_ fun _ _ h => h)
  rintro stats r' ⟨batch, hc⟩
  refine ⟨batch, hc, ?_⟩
  have hreach : Reaches (file r.store.vfs) r.store.watermark batch.buf :=
    hc.batched.reaches (Or.inr ⟨hw, hd⟩)
  have hstands := hr.stands hc hw.ge hreach
  have hg' : (UInt64.ofNat r.store.nextGeneration).toNat = 0 := by rw [hg]; rfl
  have hw' : (UInt64.ofNat r'.store.watermark).toNat = r'.store.watermark :=
    UInt64.toNat_ofNat_of_lt' hc.alike.store.watermark
  have hbuf : batch.buf ≠ [] := by
    rcases hreach with h0 | h0
    · rw [hfile, hw] at h0
      exact absurd h0 (by decide)
    · exact h0.2
  have hsb :
    (DiskEngine.Published e t r batch).1 = newSuperblock e.params e.nextSeq r.store.nextGeneration
      (Live.publish batch.offset t).label r'.store.watermark := by
    rw [hc.watermark]
    rfl
  rw [hsb]
  exact {
    toFollows := hr.commit hc hw.ge hreach
    idle := hc.idle
    durable := by
      refine Durable.first ⟨rfl, rfl⟩ hg' hbuf ?_ hstands
      have hfile' := hc.file
      rw [hfile, hw] at hfile'
      rw [hfile', hg]
    watermark := hw'.symm
    nextGeneration := by
      change r'.store.nextGeneration = (UInt64.ofNat r.store.nextGeneration).toNat + 1
      rw [hc.nextGeneration, hg', hg]
    fits := hc.nextGeneration ▸ hc.fits
    params := rfl
    poisoned := hc.poisoned.trans hpoison }

omit [Vfs V] in
lemma touch_unpublished (file : V → List Byte) (v : V) (budget : Option ℕ) {params : Params}
    (hp : params.Legal) (policy : π) :
    ∃ r₀ : DiskEngine π V, Engine.onStore (DiskStore.touch 0)
    (DiskEngine.unpublished v budget params policy) = .ok () r₀ ∧
      Follows file r₀ (Engine.fresh params policy) Live.fresh ∧ r₀.store.vfs = v ∧
      r₀.store.watermark = dataStart ∧
      r₀.store.nextGeneration = 0 ∧ r₀.store.poisoned = false := by
  have hf : Follows file (DiskEngine.unpublished v budget params policy)
    (Engine.fresh params policy) Live.fresh :=
    follows_unpublished v budget hp policy
  obtain ⟨d, hrun, htidy, ha⟩ := DiskStore.touch_run hf.alike.store.tidy Nat.one_pos fun _ => True
  refine ⟨(DiskEngine.unpublished v budget params policy).on d, Engine.run_onStore hrun, ?_, ha.vfs,
    ha.watermark, ha.nextGeneration,
    ha.poisoned⟩
  exact ⟨⟨⟨hf.alike.store.toTracks.ages ha htidy fun i hi => ⟨hi, trivial⟩, hf.alike.store.apart⟩,
    rfl, rfl, rfl, rfl, rfl, rfl⟩,
    hf.holds, hf.records, hf.nodup, hf.same⟩

lemma createOn_inv (file : V → List Byte) {fuel : ℕ} {budget : Option ℕ} {params : Params}
    {policy : π} {v : V}
    (hc : DiskEngine.createOn fuel budget params policy v = .ok r) :
    params.Legal ∧ ∃ v' stats, ∃ r₀ : DiskEngine π V,
      Vfs.len v = .ok 0 v' ∧ Follows file r₀ (Engine.fresh params policy) Live.fresh ∧
      r₀.store.vfs = v' ∧
      r₀.store.watermark = dataStart ∧ r₀.store.nextGeneration = 0 ∧ r₀.store.poisoned = false ∧
      DiskEngine.commit fuel r₀ = .ok stats r := by
  unfold DiskEngine.createOn at hc
  split_ifs at hc with hp
  cases hl : (Vfs.len : EStateM Fault V ℕ) v with
  | error f v' =>
    rw [hl] at hc
    cases hc
  | ok n v' =>
    rw [hl] at hc
    dsimp only at hc
    split_ifs at hc with hn
    obtain rfl : n = 0 := Nat.eq_zero_of_not_pos hn
    obtain ⟨r₀, hrun, hf, hvfs, hw, hg, hpoison⟩ := touch_unpublished file v' budget hp policy
    rw [run_bind_ok hrun] at hc
    cases hcommit : (DiskEngine.commit fuel : Engine.Act π (DiskStore V) _) r₀ with
    | error f r' =>
      rw [hcommit] at hc
      cases hc
    | ok stats r' =>
      rw [hcommit] at hc
      cases hc
      exact ⟨hp, v', stats, r₀, rfl, hf, hvfs, hw, hg, hpoison, hcommit⟩

/-- An engine that is created sits on an empty tree. -/
theorem sits_createOn [Honest V] {fuel : ℕ} {budget : Option ℕ} {params : Params} {policy : π}
    {v : V} (hv : Honest.Idle v)
    (hc : DiskEngine.createOn fuel budget params policy v = .ok r) : ∃ batch, ∃ r₀ : DiskEngine π V,
      Follows Honest.file r₀ (Engine.fresh params policy) Live.fresh ∧ r₀.store.nextGeneration = 0 ∧
        Sits Honest.file Honest.Idle r
          ((Engine.fresh params policy).committed batch.offset Live.fresh)
          (Live.commit batch.offset Live.fresh)
          (DiskEngine.Published (Engine.fresh params policy) Live.fresh r₀ batch).1
          (DiskEngine.Published (Engine.fresh params policy) Live.fresh r₀ batch).2 none := by
  obtain ⟨-, v', stats, r₀, hl, hf, hvfs, hw, hg, hpoison, hcommit⟩ := createOn_inv Honest.file hc
  obtain ⟨hlen, hfile, hidle⟩ := (Honest.len v).ok hl
  have hempty : Honest.file v = [] := List.length_eq_zero_iff.mp hlen.symm
  obtain ⟨N, hN⟩ := hf.first Honest.device (by rw [hvfs]; exact hidle hv)
    (by rw [hvfs, hfile, hempty]) hw hg hpoison rfl
  have hrun := (DiskEngine.refines_commit (le_max_left fuel N)).ok hcommit
  obtain ⟨batch, -, hsits⟩ := (hN (max fuel N) (le_max_right _ _)).ok hrun
  exact ⟨batch, r₀, hf, hg, hsits⟩

omit [Vfs V] in
lemma fits_fresh {params : Params} (hp : params.Legal) (policy : π) :
    DiskEngine.Fits (Engine.fresh params policy) Live.fresh dataStart 0 := by
  have hrun :
    (Live.queue Live.fresh).foldlM ((Engine.fresh params policy).store.serialize dataStart)
      DiskStore.Batch.new =
      .ok ⟨[] ++ encodeRecord (encodeNode (.leaf OrdMap.empty)), OrdMap.empty.insert 0 dataStart,
        OrdMap.empty.insert 0 (recordHeaderSize + (encodeNode (.leaf OrdMap.empty)).length)⟩ := rfl
  have ht := holds_fresh hp policy
  rcases batched_or_refused ht.stored ht.sound dataStart with ⟨batch, hb⟩ | ⟨f, hf, -⟩
  · have heq := hb.run
    rw [hrun] at heq
    have hlen : batch.buf.length = 8 + (encodeNode (.leaf OrdMap.empty)).length := by
      rw [← Except.ok.inj heq]
      simp [encodeRecord, leBytes_length]
      omega
    refine ⟨batch, hb, ?_, by decide⟩
    rw [hlen]
    decide
  · rw [hrun] at hf
    cases hf

/-- An empty device takes a new engine. -/
theorem createOn_runs [Reliable V] {budget : Option ℕ} {params : Params} {policy : π} {v : V}
    (hp : params.Legal)
    (hv : Reliable.Idle v) (hempty : ExactReads.file v = []) :
    ∃ N, ∀ fuel ≥ N, ∃ r, DiskEngine.createOn fuel budget params policy v = .ok r := by
  obtain ⟨v', hsame, hlen⟩ := ExactReads.len v
  obtain ⟨r₀, hrun, hr₀, hvfs, hw, hg, hpoison⟩ :=
    touch_unpublished ExactReads.file v' budget hp policy
  obtain ⟨N, hN⟩ := hr₀.first device_reliable (by rw [hvfs]; exact Reliable.idle_same hsame hv)
    (by rw [hvfs, ExactReads.file_eq hsame, hempty]) hw hg hpoison rfl
  refine ⟨N, fun fuel hf => ?_⟩
  unfold DiskEngine.createOn
  rw [if_neg (not_not.mpr hp), hlen, hempty]
  dsimp only
  rw [List.length_nil, if_neg (lt_irrefl 0), run_bind_ok hrun]
  have hends := hN fuel hf
  unfold Ends at hends
  cases hcommit : (DiskEngine.commit fuel : Engine.Act π (DiskStore V) _) r₀ with
  | ok stats r => exact ⟨r, rfl⟩
  | error f r =>
    rw [hcommit] at hends
    have hfits :
      DiskEngine.Fits (Engine.fresh params policy) Live.fresh r₀.store.watermark
        r₀.store.nextGeneration := by
      rw [hw, hg]
      exact fits_fresh hp policy
    by_cases hs : f.IsStorage
    · obtain ⟨-, hE, -⟩ := hends.storage hs
      exact absurd hfits (hE.resolve_left id).2
    · exact absurd hfits ((hends.other hs).resolve_left id).2

end Sits

section New

lemma FaultyVfs.idle_fromImage (image : List Byte) : (FaultyVfs.fromImage image).Idle :=
  ⟨rfl, by simp [FaultyVfs.window, FaultyVfs.fromImage]⟩

lemma FaultyVfs.idle_new : FaultyVfs.new.Idle := FaultyVfs.idle_fromImage []

variable {V : Type} [Vfs V] [Crc32Fast] [Reliable V]

lemma createOn_tiny (budget : Option ℕ) {v : V} (hv : Reliable.Idle v)
    (hempty : ExactReads.file v = []) :
    ∃ fuel, ∃ r : DiskEngine GreedyFullest V, DiskEngine.createOn fuel budget .tiny ⟨⟩ v = .ok
      r := by
  have hp : Params.tiny.Legal := by decide
  obtain ⟨N, hN⟩ := createOn_runs hp hv hempty
  exact ⟨N, hN N le_rfl⟩

end New
end Beetree
